-- The order in which the operations of a queue get their threads, and how many
-- of them there are at once, whatever `pause`, `resume` and `cancel` do.
import Pwned.QueueAccounts

open Counting

namespace pwned

namespace OperationQueue

section Order

variable {ι : Type} [DecidableEq ι]

/-- The threads were started by falling priority, and as many as hold permits are not ended. -/
structure InOrder (priority : ι → Int) (ops : List ι) (capacity : Nat)
    (s : OperationQueue ι) : Prop where
  counts : ∀ i, s.unscheduledOps.count i + s.opThreads.count i ≤ ops.count i
  threads : ∀ i, s.opThreads.count i = (phase (s.stage i)).threads
  executed : ∀ i, s.executed.count i ≤ (phase (s.stage i)).executions
  order : s.opThreads.Pairwise fun i j => priority j ≤ priority i
  above : ∀ i ∈ s.opThreads, ∀ j ∈ s.unscheduledOps, priority j ≤ priority i
  permits : s.guard + permitsHeld s = capacity
  idle : s.main = .adding → s.scheduler = .none

variable {priority : ι → Int} {ops : List ι} {capacity : Nat} {s s' : OperationQueue ι} {i : ι}

theorem inOrder_start (priority : ι → Int) (ops : List ι) (capacity : Nat) :
    InOrder priority ops capacity (start ops capacity) := by
  refine ⟨fun i => ?_, fun _ => rfl, fun _ => Nat.le_refl 0, .nil, nofun, rfl, fun _ => rfl⟩
  simp [start]

/-! ## Steps -/

omit [DecidableEq ι] in
theorem permitsHeld_of_ne (h : s.scheduler ≠ .lock) :
    permitsHeld s = s.opThreads.countP fun i => decide (s.stage i ≠ .ended) := by
  unfold permitsHeld
  rw [if_neg h, Nat.zero_add]

/-- The permit that the scheduler has taken goes to the new thread. -/
theorem permitsHeld_schedule (hi : i ∉ s.opThreads) (hlock : s.scheduler = .lock)
    (hscheduler : s'.scheduler = .testEmpty)
    (hstage : s'.stage = Function.update s.stage i .spawned)
    (hthreads : s'.opThreads = s.opThreads ++ [i]) : permitsHeld s' = permitsHeld s := by
  have hcount := countP_concat_update (p := fun st => decide (st ≠ .ended)) (f := s.stage)
    (b := .spawned) hi
  have hone : (decide (Stage.spawned ≠ .ended)).toNat = 1 := rfl
  unfold permitsHeld
  rw [hlock, if_pos rfl, hscheduler, if_neg nofun, hthreads, hstage, hcount, hone]
  omega

theorem isTop_max (h : s.isTop priority i = true) {j : ι} (hj : j ∈ s.unscheduledOps) :
    priority j ≤ priority i := by
  unfold isTop at h
  rw [Bool.and_eq_true, List.all_eq_true] at h
  simpa using h.2 j hj

namespace InOrder

/-- What starts no thread and ends none. -/
theorem of_same (h : InOrder priority ops capacity s)
    (hunscheduled : s'.unscheduledOps.Sublist s.unscheduledOps)
    (hthreads : s'.opThreads = s.opThreads) (hexecuted : s'.executed = s.executed)
    (hstage : ∀ i, phase (s'.stage i) = phase (s.stage i))
    (hpermits : s'.guard + permitsHeld s' = s.guard + permitsHeld s)
    (hidle : s'.main = .adding → s'.scheduler = .none) : InOrder priority ops capacity s' := by
  refine ⟨fun i => ?_, fun i => ?_, fun i => ?_, ?_, fun i hi j hj => ?_,
    hpermits.trans h.permits, hidle⟩
  · rw [hthreads]
    exact (Nat.add_le_add_right (hunscheduled.count_le i) _).trans (h.counts i)
  · rw [hthreads, hstage]
    exact h.threads i
  · rw [hexecuted, hstage]
    exact h.executed i
  · rw [hthreads]
    exact h.order
  · rw [hthreads] at hi
    exact h.above i hi j (hunscheduled.subset hj)

/-- A thread goes on. -/
theorem of_move (h : InOrder priority ops capacity s) {stage : Stage} (hi : s.stage i ≠ .none)
    (hstage : s'.stage = Function.update s.stage i stage) (hne : stage ≠ .none)
    (hunscheduled : s'.unscheduledOps = s.unscheduledOps)
    (hthreads : s'.opThreads = s.opThreads) (hscheduler : s'.scheduler = s.scheduler)
    (hmain : s'.main = s.main) (hexecuted : ∀ j ≠ i, s'.executed.count j = s.executed.count j)
    (hexecuted_i : s'.executed.count i ≤ (phase stage).executions)
    (hguard : s'.guard + (decide (stage ≠ .ended)).toNat =
      s.guard + (decide (s.stage i ≠ .ended)).toNat) : InOrder priority ops capacity s' := by
  have hthread : ∀ st : Stage, st ≠ .none → (phase st).threads = 1 := by
    intro st hst
    cases st <;> first | rfl | exact absurd rfl hst
  have hone : s.opThreads.count i = 1 := by rw [h.threads, hthread _ hi]
  refine ⟨?_, fun j => ?_, fun j => ?_, ?_, ?_, ?_, by rw [hmain, hscheduler]; exact h.idle⟩
  · rw [hunscheduled, hthreads]
    exact h.counts
  · rw [hthreads, hstage]
    by_cases hj : j = i
    · rw [hj, Function.update_self, hthread _ hne, hone]
    · rw [Function.update_of_ne hj]
      exact h.threads j
  · rw [hstage]
    by_cases hj : j = i
    · rw [hj, Function.update_self]
      exact hexecuted_i
    · rw [Function.update_of_ne hj, hexecuted j hj]
      exact h.executed j
  · rw [hthreads]
    exact h.order
  · rw [hthreads, hunscheduled]
    exact h.above
  · have hcount := countP_update (p := fun st => decide (st ≠ .ended)) (f := s.stage) (b := stage)
      hone
    have hpermits := h.permits
    unfold permitsHeld at hpermits ⊢
    rw [hstage, hthreads, hscheduler]
    omega

/-- A thread that neither calls `execute()` nor gives its permit back. -/
theorem of_quiet_move (h : InOrder priority ops capacity s) {stage : Stage}
    (hi : s.stage i ≠ .none ∧ s.stage i ≠ .ended)
    (hstage : s'.stage = Function.update s.stage i stage) (hne : stage ≠ .none ∧ stage ≠ .ended)
    (hunscheduled : s'.unscheduledOps = s.unscheduledOps)
    (hthreads : s'.opThreads = s.opThreads) (hscheduler : s'.scheduler = s.scheduler)
    (hmain : s'.main = s.main) (hexecuted : s'.executed = s.executed) (hguard : s'.guard = s.guard)
    (hphase : (phase (s.stage i)).executions ≤ (phase stage).executions) :
    InOrder priority ops capacity s' := by
  refine h.of_move (i := i) hi.1 hstage hne.1 hunscheduled hthreads hscheduler hmain
    (fun j _ => by rw [hexecuted]) ?_ ?_
  · rw [hexecuted]
    exact (h.executed i).trans hphase
  · rw [hguard, decide_eq_true hi.2, decide_eq_true hne.2]

theorem threadStep (h : InOrder priority ops capacity s) (hs : s.threadStep i = some s') :
    InOrder priority ops capacity s' := by
  cases threadStep_moves hs with
  | tested hst =>
    refine h.of_quiet_move (i := i) (by simp [hst]) rfl ?_ rfl rfl rfl rfl rfl rfl ?_
    · split <;> simp
    · rw [hst]
      exact Nat.zero_le _
  | started hst =>
    exact h.of_quiet_move (i := i) (by simp [hst]) rfl (by simp) rfl rfl rfl rfl rfl rfl
      (by rw [hst]; exact Nat.zero_le _)
  | executes hst =>
    refine h.of_move (i := i) (by simp [hst]) rfl (by simp) rfl rfl rfl rfl (fun j hj => ?_) ?_
      (by rw [hst]; rfl)
    · dsimp only
      rw [count_concat, if_neg hj, Nat.add_zero]
    · have hexecuted := h.executed i
      rw [hst] at hexecuted
      dsimp only
      rw [count_concat, if_pos rfl]
      exact Nat.succ_le_succ hexecuted
  | goesOn => exact h
  | pauses hst | waits hst | wakes hst | stops hst | finishes hst | deletes hst =>
    exact h.of_quiet_move (i := i) (by simp [hst]) rfl (by simp) rfl rfl rfl rfl rfl rfl
      (by rw [hst]; rfl)
  | signals hst =>
    have hsame : (s.notifyOne i).unscheduledOps = s.unscheduledOps ∧
        (s.notifyOne i).opThreads = s.opThreads ∧ (s.notifyOne i).scheduler = s.scheduler ∧
        (s.notifyOne i).main = s.main ∧ (s.notifyOne i).executed = s.executed ∧
        (s.notifyOne i).guard = s.guard := by
      unfold notifyOne
      split
      · split <;> exact ⟨rfl, rfl, rfl, rfl, rfl, rfl⟩
      · exact ⟨rfl, rfl, rfl, rfl, rfl, rfl⟩
    obtain ⟨hunscheduled, hthreads, hscheduler, hmain, hexecuted, hguard⟩ := hsame
    refine h.of_quiet_move (i := i) (by simp [hst]) (?_ : _ = Function.update s.stage i .left)
      (by simp) hunscheduled hthreads hscheduler hmain hexecuted hguard (by rw [hst]; rfl)
    rw [goTo_stage, notifyOne_stage]
  | ends hst =>
    have hexecuted := h.executed i
    rw [hst] at hexecuted
    exact h.of_move (i := i) (by simp [hst]) rfl (by simp) rfl rfl rfl rfl (fun _ _ => rfl)
      hexecuted
      (by simp [hst])

/-- An operation that is not scheduled has no thread, and was not executed. -/
theorem new_of_unscheduled (h : InOrder priority ops capacity s) (hnodup : ops.Nodup)
    (hi : i ∈ s.unscheduledOps) : s.opThreads.count i = 0 ∧ s.executed.count i = 0 := by
  have hcounts := h.counts i
  have hle := List.nodup_iff_count_le_one.mp hnodup i
  have hpos := List.count_pos_iff.mpr hi
  have hnone : s.opThreads.count i = 0 := by omega
  have hexecuted := h.executed i
  have hphase := h.threads i
  rw [hnone] at hphase
  refine ⟨hnone, ?_⟩
  cases hst : s.stage i <;> rw [hst] at hphase hexecuted <;>
    simp only [phase, Phase.threads, Phase.executions] at hphase hexecuted <;> omega

/-- The operation that goes from the unscheduled ones to those that have a thread keeps its place
in the counts. -/
theorem counts_schedule (h : InOrder priority ops capacity s) (hi : i ∈ s.unscheduledOps) (j : ι) :
    (s.unscheduledOps.erase i).count j + (s.opThreads ++ [i]).count j ≤ ops.count j := by
  have hcount := h.counts j
  rw [count_concat]
  by_cases hj : j = i
  · subst hj
    have hpos := List.count_pos_iff.mpr hi
    rw [List.count_erase_self, if_pos rfl]
    omega
  · rw [List.count_erase_of_ne hj, if_neg hj]
    exact hcount

/-- The top of the unscheduled operations is the next in order. -/
theorem scheduleStep (h : InOrder priority ops capacity s) (hnodup : ops.Nodup)
    (hs : s.scheduleStep priority i = some s') : InOrder priority ops capacity s' := by
  unfold OperationQueue.scheduleStep at hs
  split at hs
  · rename_i hlock
    split at hs
    · rw [← Option.some.inj hs]
      exact h.of_same (List.Sublist.refl _) rfl rfl (fun _ => rfl) rfl h.idle
    · split at hs
      · rename_i htop
        have hmem := isTop_mem htop
        obtain ⟨hnone, hnever⟩ := h.new_of_unscheduled hnodup hmem
        rw [← Option.some.inj hs]
        refine ⟨h.counts_schedule hmem, fun j => ?_, fun j => ?_, ?_, fun j hj k hk => ?_, ?_,
          fun hm => absurd (h.idle hm) (by simp [hlock.1])⟩
        · dsimp only [goTo_stage]
          rw [count_concat]
          by_cases hj : j = i
          · rw [hj, if_pos rfl, Function.update_self, hnone]
            rfl
          · rw [if_neg hj, Function.update_of_ne hj]
            exact h.threads j
        · dsimp only [goTo_stage]
          by_cases hj : j = i
          · rw [hj, Function.update_self]
            exact hnever.le
          · rw [Function.update_of_ne hj]
            exact h.executed j
        · dsimp only
          rw [List.pairwise_append]
          refine ⟨h.order, List.pairwise_singleton _ _, fun j hj k hk => ?_⟩
          rw [List.mem_singleton.mp hk]
          exact h.above j hj i hmem
        · have hk' := List.mem_of_mem_erase hk
          rcases List.mem_append.mp hj with hj | hj
          · exact h.above j hj k hk'
          · rw [List.mem_singleton.mp hj]
            exact isTop_max htop hk'
        · rw [permitsHeld_schedule (i := i) (List.count_eq_zero.mp hnone) hlock.1 rfl rfl rfl]
          exact h.permits
      · cases hs
  · cases hs

/-- The scheduler takes a permit only with `guard.wait()`. -/
theorem schedulerStep (h : InOrder priority ops capacity s) (hs : s.schedulerStep = some s') :
    InOrder priority ops capacity s' := by
  have hbusy : s.scheduler ≠ .none → s.main ≠ .adding := fun hne hm => hne (h.idle hm)
  unfold OperationQueue.schedulerStep at hs
  split at hs
  · cases hs
  · rename_i hsch
    have hnext : (if s.unscheduledOps.isEmpty then Scheduler.ended else .testCancelled) ≠ .lock := by
      split <;> nofun
    rw [← Option.some.inj hs]
    refine h.of_same (List.Sublist.refl _) rfl rfl (fun _ => rfl) ?_
      fun hm => absurd hm (hbusy (by simp [hsch]))
    rw [permitsHeld_of_ne hnext, permitsHeld_of_ne (s := s) (by simp [hsch])]
  · rename_i hsch
    have hnext : (if s.isCancelled then Scheduler.ended else .guardWait) ≠ .lock := by
      split <;> nofun
    rw [← Option.some.inj hs]
    refine h.of_same (List.Sublist.refl _) rfl rfl (fun _ => rfl) ?_
      fun hm => absurd hm (hbusy (by simp [hsch]))
    rw [permitsHeld_of_ne hnext, permitsHeld_of_ne (s := s) (by simp [hsch])]
  · rename_i hsch
    split at hs
    · cases hs
    · rw [← Option.some.inj hs]
      refine h.of_same (List.Sublist.refl _) rfl rfl (fun _ => rfl) ?_
        fun hm => absurd hm (hbusy (by simp [hsch]))
      rw [permitsHeld_of_ne (s := s) (by simp [hsch])]
      unfold permitsHeld
      rw [if_pos rfl]
      dsimp only
      omega
  · cases hs
  · cases hs

theorem mainStep (h : InOrder priority ops capacity s) (hs : s.mainStep = some s') :
    InOrder priority ops capacity s' := by
  unfold OperationQueue.mainStep at hs
  split at hs
  · rename_i hm
    rw [← Option.some.inj hs]
    refine h.of_same (List.Sublist.refl _) rfl rfl (fun _ => rfl) ?_ nofun
    unfold permitsHeld
    rw [h.idle hm]
    rfl
  · rw [← Option.some.inj hs]
    exact h.of_same (List.Sublist.refl _) rfl rfl (fun _ => rfl) rfl nofun
  · split at hs
    · rw [← Option.some.inj hs]
      exact h.of_same (List.Sublist.refl _) rfl rfl (fun _ => rfl) rfl nofun
    · cases hs
  · rw [← Option.some.inj hs]
    exact h.of_same (List.Sublist.refl _) rfl rfl (fun _ => rfl) rfl nofun
  · split at hs
    · rw [← Option.some.inj hs]
      exact h.of_same (List.Sublist.refl _) rfl rfl (fun _ => rfl) rfl nofun
    · cases hs
  · cases hs

/-- `cancel` only takes operations away that have no thread. -/
theorem cancelStep (h : InOrder priority ops capacity s) (hs : s.cancelStep = some s') :
    InOrder priority ops capacity s' := by
  unfold OperationQueue.cancelStep at hs
  split at hs
  · cases hs
  · rw [← Option.some.inj hs]
    exact h.of_same (List.Sublist.refl _) rfl rfl (fun _ => rfl) rfl h.idle
  · split at hs
    · rw [← Option.some.inj hs]
      exact h.of_same (List.Sublist.refl _) rfl rfl (fun _ => rfl) rfl h.idle
    · cases hs
  · rw [← Option.some.inj hs]
    exact h.of_same (List.Sublist.refl _) rfl rfl (fun _ => rfl) rfl h.idle
  · cases hs
  · rw [← Option.some.inj hs]
    exact h.of_same (List.Sublist.refl _) rfl rfl (fun _ => rfl) rfl h.idle
  · rw [← Option.some.inj hs]
    exact h.of_same List.erase_sublist rfl rfl (fun _ => rfl) rfl h.idle

theorem resume (h : InOrder priority ops capacity s) : InOrder priority ops capacity s.resume := by
  unfold OperationQueue.resume
  split_ifs
  · exact h
  · exact h
  · have hphase : ∀ i, phase (if s.stage i = .waiting then .woken else s.stage i) =
        phase (s.stage i) := by
      intro i
      split
      · rename_i hi
        rw [hi]
        rfl
      · rfl
    refine h.of_same (List.Sublist.refl _) rfl rfl hphase ?_ h.idle
    have hended : ∀ i, (if s.stage i = .waiting then Stage.woken else s.stage i) = .ended ↔
        s.stage i = .ended := fun i => by
      rw [← phase_eq_ended, hphase, phase_eq_ended]
    unfold permitsHeld
    simp only [ne_eq, hended]

theorem step (h : InOrder priority ops capacity s) (hnodup : ops.Nodup) {a : Move ι}
    (hs : OperationQueue.step priority s a = some s') : InOrder priority ops capacity s' := by
  unfold OperationQueue.step at hs
  cases a with
  | main => exact h.mainStep hs
  | scheduler => exact h.schedulerStep hs
  | schedule i => exact h.scheduleStep hnodup hs
  | thread i => exact h.threadStep hs
  | returns i =>
    dsimp only at hs
    split at hs
    · rename_i hst
      rw [← Option.some.inj hs]
      exact h.of_quiet_move (i := i) (by simp [hst]) rfl (by simp) rfl rfl rfl rfl rfl rfl
        (by rw [hst]; rfl)
    · cases hs
  | pause =>
    rw [← Option.some.inj hs]
    unfold OperationQueue.pause
    split_ifs
    · exact h
    · exact h.of_same (List.Sublist.refl _) rfl rfl (fun _ => rfl) rfl h.idle
    · exact h
  | resume =>
    rw [← Option.some.inj hs]
    exact h.resume
  | cancel =>
    dsimp only at hs
    split at hs
    · rw [← Option.some.inj hs]
      exact h.of_same (List.Sublist.refl _) rfl rfl (fun _ => rfl) rfl h.idle
    · cases hs
  | cancelling => exact h.cancelStep hs
  | cancelTop i =>
    dsimp only at hs
    unfold cancelTopStep at hs
    split at hs
    · rw [← Option.some.inj hs]
      exact h.of_same (List.Sublist.refl _) rfl rfl (fun _ => rfl) rfl h.idle
    · cases hs

end InOrder

/-- In every run, with any calls of `pause`, `resume` and `cancel` in between, the threads were
started by falling priority, nothing that waits for its thread has a higher priority than they, and
no more of them than there are permits have not ended. No operation gets a second thread, and none
is executed more than once. -/
theorem operations_start_by_priority (priority : ι → Int) (ops : List ι) (capacity : Nat)
    (hnodup : ops.Nodup) (s : OperationQueue ι)
    (h : Reachable (OperationQueue.step priority) (OperationQueue.start ops capacity) s) :
    (s.opThreads.Pairwise fun i j => priority j ≤ priority i) ∧
      (∀ i ∈ s.opThreads, ∀ j ∈ s.unscheduledOps, priority j ≤ priority i) ∧
      (s.opThreads.countP fun i => decide (s.stage i ≠ .ended)) ≤ capacity ∧
      s.opThreads.Nodup ∧
      ∀ i, s.executed.count i ≤ s.opThreads.count i ∧ s.executed.count i ≤ 1 := by
  have hinOrder : InOrder priority ops capacity s :=
    h.invariant (inOrder_start priority ops capacity) fun _ _ _ hs _ hstep => hs.step hnodup hstep
  have hthreads : ∀ i, s.opThreads.count i ≤ 1 := by
    intro i
    have hcounts := hinOrder.counts i
    have hone := List.nodup_iff_count_le_one.mp hnodup i
    omega
  have hexecuted : ∀ i, s.executed.count i ≤ s.opThreads.count i := fun i => by
    rw [hinOrder.threads]
    refine (hinOrder.executed i).trans ?_
    cases hst : s.stage i <;> simp [phase, Phase.executions, Phase.threads]
  refine ⟨hinOrder.order, hinOrder.above, ?_, List.nodup_iff_count_le_one.mpr hthreads,
    fun i => ⟨hexecuted i, (hexecuted i).trans (hthreads i)⟩⟩
  have hpermits := hinOrder.permits
  unfold permitsHeld at hpermits
  omega

end Order

/-- The second operation has the higher priority. -/
theorem operations_start_by_priority_two :
    ∃ s, Reachable (step fun i : Bool => i.toInt) (start [false, true] 1) s ∧
      s.opThreads = [true, false] ∧ s.isCancelled = true ∧
      (s.opThreads.Pairwise fun i j => j.toInt ≤ i.toInt) ∧
      (∀ i ∈ s.opThreads, ∀ j ∈ s.unscheduledOps, j.toInt ≤ i.toInt) ∧
      (s.opThreads.countP fun i => decide (s.stage i ≠ .ended)) ≤ 1 ∧
      s.opThreads.Nodup ∧
      ∀ i, s.executed.count i ≤ s.opThreads.count i ∧ s.executed.count i ≤ 1 := by
  have hrun : (run (step fun i : Bool => i.toInt) (start [false, true] 1)
      (oneAfterTheOther ++ [.cancel, .cancelling])).map (fun s => (s.opThreads, s.isCancelled)) =
      some ([true, false], true) := by decide +kernel
  obtain ⟨s, hs, heq⟩ := Option.map_eq_some_iff.mp hrun
  obtain ⟨hthreads, hcancelled⟩ := Prod.mk.inj heq
  have hreachable := reachable_of_run hs
  exact ⟨s, hreachable, hthreads, hcancelled,
    operations_start_by_priority _ _ _ (by decide) s hreachable⟩

end OperationQueue

end pwned
