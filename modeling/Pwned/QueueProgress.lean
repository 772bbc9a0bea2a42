-- A queue that is neither cancelled nor paused comes to its end: every step
-- takes one off a number of steps, and there is one until all are joined.
import Pwned.QueueAccounts

open Counting

namespace pwned

namespace OperationQueue

/-! ## The steps that are still to come -/

/-- The steps of an operation that has a thread and is not paused. -/
def toGo : Stage → Nat
  | .spawned => 9
  | .entered => 8
  | .running => 7
  | .executing => 6
  | .executed => 5
  | .stopped => 4
  | .finished => 3
  | .left => 2
  | .deleted => 1
  | _ => 0

/-- The steps of the scheduler up to its end, without those that schedule. -/
def schedulerToGo (unscheduled : Nat) : Scheduler → Nat
  | .none | .testEmpty => 3 * unscheduled + 1
  | .testCancelled => 3 * unscheduled
  | .guardWait => 3 * unscheduled - 1
  | .lock => 3 * unscheduled - 2
  | .ended => 0

section Progress

variable {ι : Type}

/-- The steps of the main program with `n` threads to join. -/
def mainToGo (n : Nat) : Main ι → Nat
  | .adding => n + 4
  | .executing => n + 3
  | .waitForScheduled => n + 2
  | .waitForFinished threads => threads.length + 1
  | .joined => 0

def work (n : Nat) (s : OperationQueue ι) : Nat :=
  10 * s.unscheduledOps.length + (s.opThreads.map fun i => toGo (s.stage i)).sum +
    schedulerToGo s.unscheduledOps.length s.scheduler + mainToGo n s.main

/-- Nobody calls `pause`, `resume` or `cancel`. That `execute()` looks at `isPaused` is no step. -/
def LeftAlone (s : OperationQueue ι) : Move ι → Prop
  | .pause | .resume | .cancel => False
  | .thread i => s.stage i ≠ .executing
  | _ => True

/-- No operation is told to pause, and the main program joins threads that there are. -/
structure Calm (s : OperationQueue ι) : Prop where
  op : ∀ i, (s.op i).isPaused = false
  stage : ∀ i, s.stage i ≠ .polled ∧ s.stage i ≠ .waiting ∧ s.stage i ≠ .woken
  idle : s.scheduler = .none → s.main = .adding
  joins : ∀ threads, s.main = .waitForFinished threads → ∀ i ∈ threads, i ∈ s.opThreads

variable [DecidableEq ι] {ops : List ι} {capacity : Nat} {priority : ι → Int}
  {s s' : OperationQueue ι} {i : ι}

instance decidableLeftAlone (s : OperationQueue ι) (a : Move ι) : Decidable (LeftAlone s a) := by
  cases a <;> unfold LeftAlone <;> infer_instance

/-! ## Every step is one of them -/

theorem Calm.of_move (h : Calm s) {stage : Stage}
    (hstage : s'.stage = Function.update s.stage i stage)
    (hne : stage ≠ .polled ∧ stage ≠ .waiting ∧ stage ≠ .woken)
    (hop : ∀ j, (s'.op j).isPaused = (s.op j).isPaused)
    (hscheduler : s'.scheduler = s.scheduler) (hmain : s'.main = s.main)
    (hthreads : s'.opThreads = s.opThreads) : Calm s' := by
  refine ⟨fun j => (hop j).trans (h.op j), fun j => ?_, ?_, ?_⟩
  · rw [hstage]
    by_cases hj : j = i
    · rw [hj, Function.update_self]
      exact hne
    · rw [Function.update_of_ne hj]
      exact h.stage j
  · rw [hscheduler, hmain]
    exact h.idle
  · rw [hmain, hthreads]
    exact h.joins

/-- A thread that moves takes a step off. -/
theorem work_move (h : Books ops s) {n : Nat} {stage : Stage} (hi : s.stage i ≠ .none)
    (hstage : s'.stage = Function.update s.stage i stage)
    (hstep : toGo stage + 1 = toGo (s.stage i))
    (hunscheduled : s'.unscheduledOps = s.unscheduledOps)
    (hthreads : s'.opThreads = s.opThreads) (hscheduler : s'.scheduler = s.scheduler)
    (hmain : s'.main = s.main) : work n s' + 1 = work n s := by
  have hsum := sum_update (g := toGo) (f := s.stage) (b := stage) (h.threads_eq_one hi)
  unfold work
  rw [hstage, hunscheduled, hthreads, hscheduler, hmain]
  omega

/-- A flag that the move of an operation does not change. -/
theorem flag_update {o : Operation} (flag : Operation → Bool)
    (hop : s'.op = Function.update s.op i o) (h : flag o = flag (s.op i)) (j : ι) :
    flag (s'.op j) = flag (s.op j) := by
  rw [hop]
  by_cases hj : j = i
  · rw [hj, Function.update_self, h]
  · rw [Function.update_of_ne hj]

/-- Both at once, for a thread that moves from one stage to another. -/
theorem Calm.move (hu : Calm s) (h : Books ops s) {n : Nat} {old new : Stage}
    (hst : s.stage i = old)
    (hstep : toGo new + 1 = toGo old ∧ new ≠ .polled ∧ new ≠ .waiting ∧ new ≠ .woken)
    (hstage : s'.stage = Function.update s.stage i new)
    (hop : ∀ j, (s'.op j).isPaused = (s.op j).isPaused)
    (hunscheduled : s'.unscheduledOps = s.unscheduledOps)
    (hthreads : s'.opThreads = s.opThreads) (hscheduler : s'.scheduler = s.scheduler)
    (hmain : s'.main = s.main) : Calm s' ∧ work n s' + 1 = work n s := by
  have hi : s.stage i ≠ .none := by
    intro hnone
    have hold := hstep.1
    rw [← hst, hnone] at hold
    cases hold
  exact ⟨hu.of_move hstage hstep.2 hop hscheduler hmain hthreads,
    work_move h hi hstage (by rw [hst, hstep.1]) hunscheduled hthreads hscheduler hmain⟩

theorem Accounts.work_thread (h : Accounts ops capacity s) (hu : Calm s) {n : Nat}
    (ha : s.stage i ≠ .executing) (hs : s.threadStep i = some s') :
    Calm s' ∧ work n s' + 1 = work n s := by
  have hstages := hu.stage i
  cases threadStep_moves hs with
  | tested hst =>
    rw [h.uncancelled.op i]
    exact hu.move h.books hst (by decide) rfl (fun _ => rfl) rfl rfl rfl rfl
  | started hst =>
    exact hu.move h.books hst (by decide) rfl (flag_update Operation.isPaused rfl rfl) rfl rfl rfl
      rfl
  | executes hst =>
    exact hu.move h.books hst (by decide) rfl
      (flag_update Operation.isPaused rfl (hu.op i).symm) rfl rfl rfl rfl
  | pauses hst => exact absurd hst ha
  | goesOn hst => exact absurd hst ha
  | waits hst => exact absurd hst hstages.1
  | wakes hst => exact absurd hst hstages.2.2
  | stops hst | finishes hst =>
    exact hu.move h.books hst (by decide) rfl (flag_update Operation.isPaused rfl rfl) rfl rfl rfl
      rfl
  | signals hst =>
    unfold notifyOne
    rw [h.uncancelled.idle]
    exact hu.move h.books hst (by decide) rfl (fun _ => rfl) rfl rfl rfl rfl
  | deletes hst | ends hst => exact hu.move h.books hst (by decide) rfl (fun _ => rfl) rfl rfl rfl rfl

/-- The scheduler takes three steps for each operation and then the one that schedules it. -/
theorem Accounts.work_schedule (h : Accounts ops capacity s) (hnodup : ops.Nodup)
    (hu : Calm s) {n : Nat} (hs : s.scheduleStep priority i = some s') :
    Calm s' ∧ work n s' + 1 = work n s := by
  unfold OperationQueue.scheduleStep at hs
  split at hs
  · rename_i hlock
    have hsome := h.schedules.found (Or.inr (Or.inr hlock.1))
    rw [if_neg (by simpa using hsome)] at hs
    split at hs
    · rename_i htop
      have hmem := isTop_mem htop
      have hst := (h.books.stage_of_unscheduled hnodup hmem).1
      have hthread := h.books.threads i
      rw [hst] at hthread
      have hlength := List.length_erase_of_mem hmem
      have hpos := List.length_pos_of_mem hmem
      have hsum := sum_concat_update (g := toGo) (f := s.stage) (b := .spawned)
        (List.count_eq_zero.mp hthread)
      rw [← Option.some.inj hs]
      refine ⟨⟨hu.op, fun j => ?_, by simp, fun threads hm j hj => ?_⟩, ?_⟩
      · by_cases hj : j = i
        · simp [hj]
        · dsimp only [goTo_stage]
          rw [Function.update_of_ne hj]
          exact hu.stage j
      · exact List.mem_append_left _ (hu.joins threads hm j hj)
      · have hspawned : toGo .spawned = 9 := rfl
        have hmain : (s.goTo i .spawned).main = s.main := rfl
        unfold work
        dsimp only [goTo_stage]
        rw [hsum, hlength, hlock.1]
        simp only [schedulerToGo, hmain]
        omega
    · cases hs
  · cases hs

theorem Accounts.work_scheduler (h : Accounts ops capacity s) (hu : Calm s) {n : Nat}
    (hs : s.schedulerStep = some s') : Calm s' ∧ work n s' + 1 = work n s := by
  unfold OperationQueue.schedulerStep at hs
  have hsome : s.unscheduledOps ≠ [] → 0 < s.unscheduledOps.length := List.length_pos_of_ne_nil
  split at hs
  · cases hs
  · rename_i hsch
    rw [← Option.some.inj hs]
    refine ⟨⟨hu.op, hu.stage, ?_, hu.joins⟩, ?_⟩
    · dsimp only
      split <;> simp
    · unfold work
      dsimp only
      rw [hsch]
      split
      · rename_i hempty
        rw [List.isEmpty_iff.mp hempty]
        simp [schedulerToGo]
        omega
      · simp only [schedulerToGo]
        omega
  · rename_i hsch
    rw [if_neg (by simp [h.uncancelled.queue])] at hs
    have hpos := hsome (h.schedules.found (Or.inl hsch))
    rw [← Option.some.inj hs]
    refine ⟨⟨hu.op, hu.stage, by simp, hu.joins⟩, ?_⟩
    unfold work
    dsimp only
    rw [hsch]
    simp only [schedulerToGo]
    omega
  · rename_i hsch
    have hpos := hsome (h.schedules.found (Or.inr (Or.inl hsch)))
    split at hs
    · cases hs
    · rw [← Option.some.inj hs]
      refine ⟨⟨hu.op, hu.stage, by simp, hu.joins⟩, ?_⟩
      unfold work
      dsimp only
      rw [hsch]
      simp only [schedulerToGo]
      omega
  · cases hs
  · cases hs

/-- When the scheduler has ended every operation has a thread. -/
theorem Accounts.length_opThreads (h : Accounts ops capacity s) (hended : s.scheduler = .ended) :
    s.opThreads.length = ops.length := by
  have hperm : s.opThreads.Perm ops := by
    rw [List.perm_iff_count]
    intro j
    have hu := h.books.unscheduled j
    rw [h.schedules.done hended, List.count_nil, Nat.zero_add] at hu
    rw [h.books.threads, hu]
  exact hperm.length_eq

omit [DecidableEq ι] in
/-- Behind its start the scheduler is never gone. -/
theorem Calm.scheduled (hu : Calm s) (hm : s.main ≠ .adding) : s.scheduler ≠ .none :=
  fun hnone => hm (hu.idle hnone)

theorem Accounts.work_main (h : Accounts ops capacity s) (hu : Calm s)
    (hs : s.mainStep = some s') : Calm s' ∧ work ops.length s' + 1 = work ops.length s := by
  unfold OperationQueue.mainStep at hs
  split at hs
  · rename_i hm
    rw [← Option.some.inj hs]
    refine ⟨⟨hu.op, hu.stage, nofun, nofun⟩, ?_⟩
    unfold work
    rw [hm, h.schedules.idle hm]
    simp only [schedulerToGo, mainToGo]
    omega
  · rename_i hm
    have hscheduled := hu.scheduled (by simp [hm])
    rw [← Option.some.inj hs]
    refine ⟨⟨hu.op, hu.stage, fun hnone => absurd hnone hscheduled, nofun⟩, ?_⟩
    unfold work
    rw [hm]
    simp only [mainToGo]
    omega
  · rename_i hm
    split at hs
    · rename_i hended
      have hscheduled := hu.scheduled (by simp [hm])
      rw [← Option.some.inj hs]
      refine ⟨⟨hu.op, hu.stage, fun hnone => absurd hnone hscheduled, fun threads hm' j hj => ?_⟩,
        ?_⟩
      · rwa [← Main.waitForFinished.inj hm'] at hj
      · unfold work
        rw [hm]
        simp only [mainToGo, h.length_opThreads hended]
        omega
    · cases hs
  · rename_i hm
    have hscheduled := hu.scheduled (by simp [hm])
    rw [← Option.some.inj hs]
    refine ⟨⟨hu.op, hu.stage, fun hnone => absurd hnone hscheduled, nofun⟩, ?_⟩
    unfold work
    rw [hm]
    simp [mainToGo]
  · rename_i i threads hm
    split at hs
    · have hscheduled := hu.scheduled (by simp [hm])
      rw [← Option.some.inj hs]
      refine ⟨⟨hu.op, hu.stage, fun hnone => absurd hnone hscheduled, fun threads' hm' j hj => ?_⟩,
        ?_⟩
      · rw [← Main.waitForFinished.inj hm'] at hj
        exact hu.joins _ hm j (List.mem_cons_of_mem _ hj)
      · unfold work
        rw [hm]
        simp only [mainToGo, List.length_cons]
        omega
    · cases hs
  · cases hs

theorem work_step (h : Accounts ops capacity s) (hnodup : ops.Nodup) (hu : Calm s)
    {a : Move ι} (ha : LeftAlone s a) (hs : step priority s a = some s') :
    (Accounts ops capacity s' ∧ Calm s') ∧ work ops.length s' + 1 = work ops.length s := by
  have hnoCancel : NoCancel s a := by
    rintro rfl
    exact ha
  have haccounts := h.step hnodup hnoCancel hs
  suffices hgo : Calm s' ∧ work ops.length s' + 1 = work ops.length s from
    ⟨⟨haccounts, hgo.1⟩, hgo.2⟩
  unfold OperationQueue.step at hs
  cases a with
  | main => exact h.work_main hu hs
  | scheduler => exact h.work_scheduler hu hs
  | schedule i => exact h.work_schedule hnodup hu hs
  | thread i => exact h.work_thread hu ha hs
  | returns i =>
    dsimp only at hs
    split at hs
    · rename_i hst
      rw [← Option.some.inj hs]
      exact hu.move h.books hst (by decide) rfl (fun _ => rfl) rfl rfl rfl rfl
    · cases hs
  | pause => cases ha
  | resume => cases ha
  | cancel => cases ha
  | cancelling =>
    dsimp only at hs
    unfold cancelStep at hs
    rw [h.uncancelled.idle] at hs
    cases hs
  | cancelTop i =>
    dsimp only at hs
    unfold cancelTopStep at hs
    rw [h.uncancelled.idle, if_neg (by simp)] at hs
    cases hs

/-! ## There is one until all are joined -/

theorem exists_top (priority : ι → Int) (h : s.unscheduledOps ≠ []) :
    ∃ i, s.isTop priority i = true := by
  cases htop : List.argmax priority s.unscheduledOps with
  | none => exact absurd (List.argmax_eq_none.mp htop) h
  | some i =>
    refine ⟨i, ?_⟩
    unfold isTop
    rw [Bool.and_eq_true, decide_eq_true_eq, List.all_eq_true]
    refine ⟨List.argmax_mem htop, fun j hj => ?_⟩
    rw [decide_eq_true_eq]
    exact List.le_of_mem_argmax hj htop

/-- A thread that has not ended goes on. -/
theorem thread_goes_on (h : Accounts ops capacity s) (hu : Calm s) (hi : i ∈ s.opThreads)
    (hended : s.stage i ≠ .ended) : ∃ a, LeftAlone s a ∧ (step priority s a).isSome = true := by
  have hstages := hu.stage i
  have hnone : s.stage i ≠ .none := by
    intro hst
    have hthread := h.books.threads i
    rw [hst] at hthread
    exact List.count_eq_zero.mp hthread hi
  by_cases hexecuting : s.stage i = .executing
  · exact ⟨.returns i, trivial, by simp [OperationQueue.step, hexecuting]⟩
  · refine ⟨.thread i, hexecuting, ?_⟩
    dsimp only [OperationQueue.step]
    unfold threadStep
    cases hst : s.stage i
    case none => exact absurd hst hnone
    case waiting => exact absurd hst hstages.2.1
    case ended => exact absurd hst hended
    case left => simp [h.uncancelled.idle]
    all_goals rfl

/-- The scheduler goes on, or a thread that holds a permit does. -/
theorem scheduler_goes_on (h : Accounts ops capacity s) (hu : Calm s) (hcapacity : 0 < capacity)
    (hnone : s.scheduler ≠ .none) (hended : s.scheduler ≠ .ended) :
    ∃ a, LeftAlone s a ∧ (step priority s a).isSome = true := by
  cases hsch : s.scheduler with
  | none => exact absurd hsch hnone
  | ended => exact absurd hsch hended
  | testEmpty => exact ⟨.scheduler, trivial, by simp [OperationQueue.step, schedulerStep, hsch]⟩
  | testCancelled => exact ⟨.scheduler, trivial, by simp [OperationQueue.step, schedulerStep, hsch]⟩
  | guardWait =>
    by_cases hguard : s.guard = 0
    · -- every permit is held by a thread
      have hpermits := h.permits
      unfold permitsHeld at hpermits
      rw [hsch, if_neg nofun, hguard] at hpermits
      have hpos : 0 < s.opThreads.countP fun i => decide (s.stage i ≠ .ended) := by omega
      obtain ⟨i, hi, hne⟩ := List.countP_pos_iff.mp hpos
      exact thread_goes_on h hu hi (by simpa using hne)
    · exact ⟨.scheduler, trivial, by simp [OperationQueue.step, schedulerStep, hsch, hguard]⟩
  | lock =>
    have hsome := h.schedules.found (Or.inr (Or.inr hsch))
    obtain ⟨i, hi⟩ := exists_top priority hsome
    refine ⟨.schedule i, trivial, ?_⟩
    simp [OperationQueue.step, OperationQueue.scheduleStep, hsch, h.uncancelled.idle, hsome, hi]

theorem goes_on (h : Accounts ops capacity s) (hu : Calm s) (hcapacity : 0 < capacity)
    (hmain : s.main ≠ .joined) : ∃ a, LeftAlone s a ∧ (step priority s a).isSome = true := by
  cases hm : s.main with
  | joined => exact absurd hm hmain
  | adding => exact ⟨.main, trivial, by simp [OperationQueue.step, OperationQueue.mainStep, hm]⟩
  | executing => exact ⟨.main, trivial, by simp [OperationQueue.step, OperationQueue.mainStep, hm]⟩
  | waitForScheduled =>
    by_cases hended : s.scheduler = .ended
    · exact ⟨.main, trivial, by simp [OperationQueue.step, OperationQueue.mainStep, hm, hended]⟩
    · exact scheduler_goes_on h hu hcapacity (hu.scheduled (by simp [hm])) hended
  | waitForFinished threads =>
    cases threads with
    | nil => exact ⟨.main, trivial, by simp [OperationQueue.step, OperationQueue.mainStep, hm]⟩
    | cons i threads =>
      by_cases hended : s.stage i = .ended
      · exact ⟨.main, trivial, by simp [OperationQueue.step, OperationQueue.mainStep, hm, hended]⟩
      · exact thread_goes_on h hu (hu.joins _ hm i List.mem_cons_self) hended

/-! ## The whole run -/

omit [DecidableEq ι] in
theorem calm_start (ops : List ι) (capacity : Nat) : Calm (start ops capacity) :=
  ⟨fun _ => rfl, fun _ => ⟨nofun, nofun, nofun⟩, fun _ => rfl, nofun⟩

omit [DecidableEq ι] in
theorem work_start (ops : List ι) (capacity : Nat) :
    work ops.length (start ops capacity) = 14 * ops.length + 5 := by
  simp only [work, start, schedulerToGo, mainToGo, List.map_nil, List.sum_nil]
  omega

/-- When all threads are joined nothing is left to do. -/
theorem work_eq_zero_iff (h : Accounts ops capacity s) {n : Nat} :
    work n s = 0 ↔ s.main = .joined := by
  constructor
  · intro hzero
    unfold work at hzero
    cases hm : s.main with
    | joined => rfl
    | adding | executing | waitForScheduled | waitForFinished =>
      simp only [hm, mainToGo] at hzero
      omega
  · intro hm
    obtain ⟨hended, hall⟩ := h.joins.joined hm
    have hsum : (s.opThreads.map fun i => toGo (s.stage i)).sum = 0 := by
      rw [List.sum_eq_zero_iff]
      intro k hk
      obtain ⟨i, hi, rfl⟩ := List.mem_map.mp hk
      rw [hall i hi]
      rfl
    unfold work
    rw [hsum, hm, hended, h.schedules.done hended]
    rfl

/-- A queue with a permit that is neither cancelled nor paused is never stuck: whatever the order
of its steps, the main program has joined all threads after `14 * n + 5` of them and not before,
and each operation was executed once. -/
theorem a_queue_left_alone_finishes (priority : ι → Int) (ops : List ι) (hnodup : ops.Nodup)
    (hcapacity : 0 < capacity) {as : List (Move ι)}
    (hmeets : Meets (step priority) LeftAlone (start ops capacity) as)
    (hrun : run (step priority) (start ops capacity) as = some s) :
    as.length ≤ 14 * ops.length + 5 ∧
      (s.main = .joined ↔ as.length = 14 * ops.length + 5) ∧
      (s.main ≠ .joined → ∃ a, LeftAlone s a ∧ (step priority s a).isSome = true) ∧
      (s.main = .joined → ∀ i ∈ ops, s.executed.count i = 1) := by
  obtain ⟨⟨h, hu⟩, hwork⟩ := hmeets.run_exact (work ops.length)
    (fun _ _ _ hs ha hstep => work_step hs.1 hnodup hs.2 ha hstep)
    ⟨accounts_start ops capacity, calm_start ops capacity⟩ hrun
  rw [work_start] at hwork
  have hjoined : s.main = .joined ↔ as.length = 14 * ops.length + 5 := by
    rw [← work_eq_zero_iff h (n := ops.length)]
    omega
  exact ⟨by omega, hjoined, goes_on h hu hcapacity, (h.runsOnce hnodup).executed⟩

end Progress

theorem a_queue_left_alone_finishes_two :
    ∃ s, run (step fun _ => 0) (start [false, true] 1) oneAfterTheOther = some s ∧
      oneAfterTheOther.length ≤ 33 ∧ (s.main = .joined ↔ oneAfterTheOther.length = 33) ∧
      (s.main ≠ .joined → ∃ a, LeftAlone s a ∧ (step (fun _ => 0) s a).isSome = true) ∧
      (s.main = .joined → ∀ i ∈ [false, true], s.executed.count i = 1) := by
  have hsome : (run (step fun _ => 0) (start [false, true] 1) oneAfterTheOther).isSome = true := by
    decide +kernel
  have hmeets : Meets (step fun _ => 0) LeftAlone (start [false, true] 1) oneAfterTheOther := by
    decide +kernel
  obtain ⟨s, hrun⟩ := Option.isSome_iff_exists.mp hsome
  exact ⟨s, hrun, a_queue_left_alone_finishes (fun _ => 0) [false, true] (by decide) Nat.one_pos
    hmeets hrun⟩

end OperationQueue

end pwned
