-- What becomes of the operations of a queue that nobody cancels: none is
-- lost, none runs twice, and every permit of the semaphore comes back.
import Pwned.Library.Counting
import Pwned.OperationQueue

open Counting

namespace pwned

namespace OperationQueue

/-! ## Phases -/

/-- How far an operation is. -/
inductive Phase
  /-- Not scheduled yet. -/
  | unscheduled
  /-- It has a thread, and `execute()` is still to come. -/
  | ready
  /-- `execute()` was called. -/
  | begun
  | deleted
  /-- The thread has given its permit back. -/
  | ended
deriving DecidableEq, Repr

def phase : Stage → Phase
  | .none => .unscheduled
  | .spawned | .entered | .running => .ready
  | .deleted => .deleted
  | .ended => .ended
  | _ => .begun

namespace Phase

def threads : Phase → Nat
  | .unscheduled => 0
  | _ => 1

def runs : Phase → Nat
  | .ready | .begun => 1
  | _ => 0

def executions : Phase → Nat
  | .unscheduled | .ready => 0
  | _ => 1

def deletions : Phase → Nat
  | .deleted | .ended => 1
  | _ => 0

def permits : Phase → Nat
  | .unscheduled | .ended => 0
  | _ => 1

end Phase

section Accounts

variable {ι : Type} [DecidableEq ι]

/-- The permits of the operations between `guard.wait()` and `guard.notify()`. -/
def permitsHeld (s : OperationQueue ι) : Nat :=
  (if s.scheduler = .lock then 1 else 0) +
    s.opThreads.countP fun i => decide (s.stage i ≠ .ended)

/-- What the queue knows about each operation agrees with how far the operation is. -/
structure Books (ops : List ι) (s : OperationQueue ι) : Prop where
  unscheduled : ∀ i, s.unscheduledOps.count i + (phase (s.stage i)).threads = ops.count i
  threads : ∀ i, s.opThreads.count i = (phase (s.stage i)).threads
  running : ∀ i, s.runningOps.count i = (phase (s.stage i)).runs
  executed : ∀ i, s.executed.count i = (phase (s.stage i)).executions
  deleted : ∀ i, s.deleted.count i = (phase (s.stage i)).deletions

/-- The scheduler calls `top()` only while something is unscheduled, and ends only when nothing
is. -/
structure Schedules (s : OperationQueue ι) : Prop where
  idle : s.main = .adding → s.scheduler = .none
  top : s.topOfEmpty = false
  found : s.scheduler = .testCancelled ∨ s.scheduler = .guardWait ∨ s.scheduler = .lock →
    s.unscheduledOps ≠ []
  done : s.scheduler = .ended → s.unscheduledOps = []

/-- The threads that the main program has joined have ended. -/
structure Joins (s : OperationQueue ι) : Prop where
  joining : ∀ threads, s.main = .waitForFinished threads →
    s.scheduler = .ended ∧ ∀ i ∈ s.opThreads, i ∉ threads → s.stage i = .ended
  joined : s.main = .joined → s.scheduler = .ended ∧ ∀ i ∈ s.opThreads, s.stage i = .ended

/-- Nobody has called `cancel`. -/
structure Uncancelled (s : OperationQueue ι) : Prop where
  queue : s.isCancelled = false
  idle : s.cancelling = none
  op : ∀ i, (s.op i).isCancelled = false

structure Accounts (ops : List ι) (capacity : Nat) (s : OperationQueue ι) : Prop where
  uncancelled : Uncancelled s
  books : Books ops s
  schedules : Schedules s
  joins : Joins s
  permits : s.guard + permitsHeld s = capacity

variable {ops : List ι} {capacity : Nat} {s s' : OperationQueue ι} {i : ι}

theorem accounts_start (ops : List ι) (capacity : Nat) :
    Accounts ops capacity (start ops capacity) := by
  refine ⟨⟨rfl, rfl, fun _ => rfl⟩, ⟨fun _ => rfl, ?_, ?_, ?_, ?_⟩,
    ⟨fun _ => rfl, rfl, ?_, nofun⟩, ⟨nofun, nofun⟩, rfl⟩
  all_goals simp [start, phase, Phase.threads, Phase.runs, Phase.executions, Phase.deletions]

/-! ## Steps that no book notes -/

omit [DecidableEq ι] in
theorem phase_eq_ended {stage : Stage} : phase stage = .ended ↔ stage = .ended := by
  cases stage <;> simp [phase]

/-- The accounts do not look at the flags, and at the stages only for their phases. -/
theorem Accounts.quiet (h : Accounts ops capacity s) {op : ι → Operation} {stage : ι → Stage}
    {isRunning : Bool} (hop : ∀ i, (op i).isCancelled = (s.op i).isCancelled)
    (hstage : ∀ i, phase (stage i) = phase (s.stage i)) :
    Accounts ops capacity { s with op, stage, isRunning } := by
  have hended : ∀ i, stage i = .ended ↔ s.stage i = .ended := by
    intro i
    rw [← phase_eq_ended, hstage, phase_eq_ended]
  refine ⟨⟨h.uncancelled.queue, h.uncancelled.idle, fun i => ?_⟩, ⟨?_, ?_, ?_, ?_, ?_⟩,
    ⟨h.schedules.idle, h.schedules.top, h.schedules.found, h.schedules.done⟩, ⟨?_, ?_⟩, ?_⟩
  · dsimp only
    rw [hop, h.uncancelled.op]
  · simpa only [hstage] using h.books.unscheduled
  · simpa only [hstage] using h.books.threads
  · simpa only [hstage] using h.books.running
  · simpa only [hstage] using h.books.executed
  · simpa only [hstage] using h.books.deleted
  · simpa only [hended] using h.joins.joining
  · simpa only [hended] using h.joins.joined
  · have hpermits := h.permits
    unfold permitsHeld at hpermits ⊢
    simpa only [ne_eq, hended] using hpermits

theorem phase_goTo {stage : Stage} (h : phase stage = phase (s.stage i)) (j : ι) :
    phase (Function.update s.stage i stage j) = phase (s.stage j) := by
  by_cases hj : j = i
  · rw [hj, Function.update_self, h]
  · rw [Function.update_of_ne hj]

theorem isCancelled_setOp {f : Operation → Operation}
    (h : (f (s.op i)).isCancelled = (s.op i).isCancelled) (j : ι) :
    (Function.update s.op i (f (s.op i)) j).isCancelled = (s.op j).isCancelled := by
  by_cases hj : j = i
  · rw [hj, Function.update_self, h]
  · rw [Function.update_of_ne hj]

theorem Accounts.goTo (h : Accounts ops capacity s) {stage : Stage}
    (hstage : phase stage = phase (s.stage i)) : Accounts ops capacity (s.goTo i stage) :=
  h.quiet (fun _ => rfl) (phase_goTo hstage)

theorem Accounts.setOp_goTo (h : Accounts ops capacity s) {f : Operation → Operation}
    {stage : Stage} (hop : (f (s.op i)).isCancelled = (s.op i).isCancelled)
    (hstage : phase stage = phase (s.stage i)) :
    Accounts ops capacity ((s.setOp i f).goTo i stage) :=
  h.quiet (isCancelled_setOp hop) (phase_goTo hstage)

theorem Accounts.pause (h : Accounts ops capacity s) : Accounts ops capacity s.pause := by
  unfold OperationQueue.pause
  split_ifs
  · exact h
  · refine h.quiet (fun j => ?_) fun _ => rfl
    split <;> rfl
  · exact h

theorem Accounts.resume (h : Accounts ops capacity s) : Accounts ops capacity s.resume := by
  unfold OperationQueue.resume
  split_ifs
  · exact h
  · exact h
  · refine h.quiet (fun _ => rfl) fun j => ?_
    split
    · rename_i hj
      rw [hj]
      rfl
    · rfl

/-! ## Steps that change a book -/

/-- The books agree with the stages if they do for the operation that has moved and note nothing
about the others. -/
theorem Books.of_move (h : Books ops s) {stage : Stage}
    (hstage : s'.stage = Function.update s.stage i stage)
    (hother : ∀ j ≠ i, s'.unscheduledOps.count j = s.unscheduledOps.count j ∧
      s'.opThreads.count j = s.opThreads.count j ∧ s'.runningOps.count j = s.runningOps.count j ∧
      s'.executed.count j = s.executed.count j ∧ s'.deleted.count j = s.deleted.count j)
    (hi : s'.unscheduledOps.count i + (phase stage).threads = ops.count i ∧
      s'.opThreads.count i = (phase stage).threads ∧ s'.runningOps.count i = (phase stage).runs ∧
      s'.executed.count i = (phase stage).executions ∧
      s'.deleted.count i = (phase stage).deletions) : Books ops s' := by
  have hj : ∀ j, s'.unscheduledOps.count j + (phase (s'.stage j)).threads = ops.count j ∧
      s'.opThreads.count j = (phase (s'.stage j)).threads ∧
      s'.runningOps.count j = (phase (s'.stage j)).runs ∧
      s'.executed.count j = (phase (s'.stage j)).executions ∧
      s'.deleted.count j = (phase (s'.stage j)).deletions := by
    intro j
    rw [hstage]
    by_cases hji : j = i
    · rw [hji, Function.update_self]
      exact hi
    · obtain ⟨hu, ht, hr, he, hd⟩ := hother j hji
      rw [Function.update_of_ne hji, hu, ht, hr, he, hd]
      exact ⟨h.unscheduled j, h.threads j, h.running j, h.executed j, h.deleted j⟩
  exact ⟨fun j => (hj j).1, fun j => (hj j).2.1, fun j => (hj j).2.2.1, fun j => (hj j).2.2.2.1,
    fun j => (hj j).2.2.2.2⟩

/-- A thread that has not ended cannot be joined, so the joins stay as they are while it moves. -/
theorem Joins.of_move (h : Joins s) {stage : Stage}
    (hstage : s'.stage = Function.update s.stage i stage)
    (hmain : s'.main = s.main) (hscheduler : s'.scheduler = s.scheduler)
    (hthreads : s'.opThreads = s.opThreads) (hi : s.stage i ≠ .ended) : Joins s' := by
  constructor
  · intro threads hm
    rw [hmain] at hm
    obtain ⟨hs, hended⟩ := h.joining threads hm
    refine ⟨hscheduler.trans hs, fun j hj hnot => ?_⟩
    rw [hthreads] at hj
    have hj' := hended j hj hnot
    have hne : j ≠ i := fun he => hi (he ▸ hj')
    rw [hstage, Function.update_of_ne hne, hj']
  · intro hm
    rw [hmain] at hm
    obtain ⟨hs, hended⟩ := h.joined hm
    refine ⟨hscheduler.trans hs, fun j hj => ?_⟩
    rw [hthreads] at hj
    have hj' := hended j hj
    have hne : j ≠ i := fun he => hi (he ▸ hj')
    rw [hstage, Function.update_of_ne hne, hj']

theorem Books.threads_eq_one (h : Books ops s) (hi : s.stage i ≠ .none) :
    s.opThreads.count i = 1 := by
  rw [h.threads]
  cases hst : s.stage i <;> first | rfl | exact absurd hst hi

/-- A thread that has not ended holds a permit. -/
theorem Accounts.permits_move (h : Accounts ops capacity s) {stage : Stage}
    (hi : s.stage i ≠ .none) (hstage : s'.stage = Function.update s.stage i stage)
    (hthreads : s'.opThreads = s.opThreads) (hscheduler : s'.scheduler = s.scheduler)
    (hguard : s'.guard + (decide (stage ≠ .ended)).toNat =
      s.guard + (decide (s.stage i ≠ .ended)).toNat) :
    s'.guard + permitsHeld s' = capacity := by
  have hcount := countP_update (p := fun st => decide (st ≠ .ended)) (f := s.stage) (b := stage)
    (h.books.threads_eq_one hi)
  have hpermits := h.permits
  unfold permitsHeld at hpermits ⊢
  rw [hstage, hthreads, hscheduler]
  omega

/-- The thread calls `execute()`. -/
theorem Accounts.begin (h : Accounts ops capacity s) (hst : s.stage i = .running)
    {f : Operation → Operation} (hop : (f (s.op i)).isCancelled = (s.op i).isCancelled) :
    Accounts ops capacity
      { (s.setOp i f).goTo i .executing with executed := s.executed ++ [i] } := by
  have hne : s.stage i ≠ .none := by simp [hst]
  constructor
  · refine ⟨h.uncancelled.queue, h.uncancelled.idle, fun j => ?_⟩
    exact (isCancelled_setOp hop j).trans (h.uncancelled.op j)
  · have hu := h.books.unscheduled i
    have hr := h.books.running i
    have he := h.books.executed i
    have hd := h.books.deleted i
    rw [hst] at hu hr he hd
    refine h.books.of_move (i := i) rfl (fun j hj => ⟨rfl, rfl, rfl, ?_, rfl⟩)
      ⟨hu, h.books.threads_eq_one hne, hr, ?_, hd⟩
    · dsimp only
      rw [count_concat, if_neg hj, Nat.add_zero]
    · dsimp only
      rw [count_concat, if_pos rfl, he]
      rfl
  · exact ⟨h.schedules.idle, h.schedules.top, h.schedules.found, h.schedules.done⟩
  · exact h.joins.of_move (i := i) rfl rfl rfl rfl (by simp [hst])
  · exact h.permits_move (i := i) hne rfl rfl rfl (by rw [hst]; rfl)

/-- The thread calls `finished(op)`. -/
theorem Accounts.delete (h : Accounts ops capacity s) (hst : s.stage i = .left) :
    Accounts ops capacity
      { s.goTo i .deleted with
        runningOps := s.runningOps.filter (· ≠ i), deleted := s.deleted ++ [i] } := by
  have hne : s.stage i ≠ .none := by simp [hst]
  constructor
  · exact ⟨h.uncancelled.queue, h.uncancelled.idle, h.uncancelled.op⟩
  · have hu := h.books.unscheduled i
    have he := h.books.executed i
    have hd := h.books.deleted i
    rw [hst] at hu he hd
    refine h.books.of_move (i := i) rfl (fun j hj => ⟨rfl, rfl, ?_, rfl, ?_⟩)
      ⟨hu, h.books.threads_eq_one hne, ?_, he, ?_⟩
    · dsimp only
      rw [count_remove, if_neg hj]
    · dsimp only
      rw [count_concat, if_neg hj, Nat.add_zero]
    · dsimp only
      rw [count_remove, if_pos rfl]
      rfl
    · dsimp only
      rw [count_concat, if_pos rfl, hd]
      rfl
  · exact ⟨h.schedules.idle, h.schedules.top, h.schedules.found, h.schedules.done⟩
  · exact h.joins.of_move (i := i) rfl rfl rfl rfl (by simp [hst])
  · exact h.permits_move (i := i) hne rfl rfl rfl (by rw [hst]; rfl)

/-- The thread calls `guard.notify()`. -/
theorem Accounts.end (h : Accounts ops capacity s) (hst : s.stage i = .deleted) :
    Accounts ops capacity { s.goTo i .ended with guard := s.guard + 1 } := by
  have hne : s.stage i ≠ .none := by simp [hst]
  constructor
  · exact ⟨h.uncancelled.queue, h.uncancelled.idle, h.uncancelled.op⟩
  · have hu := h.books.unscheduled i
    have hr := h.books.running i
    have he := h.books.executed i
    have hd := h.books.deleted i
    rw [hst] at hu hr he hd
    exact h.books.of_move (i := i) rfl (fun j _ => ⟨rfl, rfl, rfl, rfl, rfl⟩)
      ⟨hu, h.books.threads_eq_one hne, hr, he, hd⟩
  · exact ⟨h.schedules.idle, h.schedules.top, h.schedules.found, h.schedules.done⟩
  · exact h.joins.of_move (i := i) rfl rfl rfl rfl (by simp [hst])
  · exact h.permits_move (i := i) hne rfl rfl rfl (by simp [hst])

theorem Accounts.threadStep (h : Accounts ops capacity s) (hs : s.threadStep i = some s') :
    Accounts ops capacity s' := by
  cases threadStep_moves hs with
  | tested hst =>
    rw [h.uncancelled.op i]
    exact h.goTo (by rw [hst]; rfl)
  | started hst => exact h.setOp_goTo rfl (by rw [hst]; rfl)
  | executes hst => exact h.begin hst rfl
  | pauses hst => exact h.goTo (by rw [hst]; rfl)
  | goesOn => exact h
  | waits hst => exact h.goTo (by rw [hst]; rfl)
  | wakes hst => exact h.setOp_goTo rfl (by rw [hst]; rfl)
  | stops hst => exact h.setOp_goTo rfl (by rw [hst]; rfl)
  | finishes hst => exact h.setOp_goTo rfl (by rw [hst]; rfl)
  | signals hst =>
    unfold notifyOne
    rw [h.uncancelled.idle]
    exact h.goTo (by rw [hst]; rfl)
  | deletes hst => exact h.delete hst
  | ends hst => exact h.end hst

/-! ## The scheduler and the main program -/

omit [DecidableEq ι] in
/-- Nothing is joined before the scheduler has ended. -/
theorem Joins.of_scheduling (h : Joins s) (hne : s.scheduler ≠ .ended) (hmain : s'.main = s.main) :
    Joins s' := by
  constructor
  · intro threads hm
    rw [hmain] at hm
    exact absurd (h.joining threads hm).1 hne
  · intro hm
    rw [hmain] at hm
    exact absurd (h.joined hm).1 hne

theorem isTop_mem {priority : ι → Int} (h : s.isTop priority i = true) : i ∈ s.unscheduledOps := by
  unfold isTop at h
  rw [Bool.and_eq_true, decide_eq_true_eq] at h
  exact h.1

/-- An operation that is not scheduled has no thread. -/
theorem Books.stage_of_unscheduled (h : Books ops s) (hnodup : ops.Nodup)
    (hi : i ∈ s.unscheduledOps) : s.stage i = .none ∧ s.unscheduledOps.count i = 1 := by
  have hu := h.unscheduled i
  have hone := List.nodup_iff_count_le_one.mp hnodup i
  have hpos := List.count_pos_iff.mpr hi
  constructor
  · cases hst : s.stage i <;> rw [hst] at hu <;> simp only [phase, Phase.threads] at hu <;> omega
  · omega

/-- The permit that the scheduler has taken goes to the new thread. -/
theorem Accounts.permits_schedule (h : Accounts ops capacity s) (hi : i ∉ s.opThreads)
    (hlock : s.scheduler = .lock) (hscheduler : s'.scheduler = .testEmpty)
    (hstage : s'.stage = Function.update s.stage i .spawned)
    (hthreads : s'.opThreads = s.opThreads ++ [i]) (hguard : s'.guard = s.guard) :
    s'.guard + permitsHeld s' = capacity := by
  have hcount := countP_concat_update (p := fun st => decide (st ≠ .ended)) (f := s.stage)
    (b := .spawned) hi
  have hpermits := h.permits
  unfold permitsHeld at hpermits ⊢
  rw [hlock, if_pos rfl] at hpermits
  have hone : (decide (Stage.spawned ≠ .ended)).toNat = 1 := rfl
  rw [hscheduler, if_neg nofun, hthreads, hstage, hguard, hcount, hone]
  omega

theorem Accounts.scheduleStep (h : Accounts ops capacity s) (hnodup : ops.Nodup)
    {priority : ι → Int} (hs : s.scheduleStep priority i = some s') :
    Accounts ops capacity s' := by
  unfold OperationQueue.scheduleStep at hs
  split at hs
  · rename_i hlock
    have hsome := h.schedules.found (Or.inr (Or.inr hlock.1))
    rw [if_neg (by simpa using hsome)] at hs
    split at hs
    · rename_i htop
      rw [← Option.some.inj hs]
      obtain ⟨hst, hone⟩ := h.books.stage_of_unscheduled hnodup (isTop_mem htop)
      have hu := h.books.unscheduled i
      have ht := h.books.threads i
      have hr := h.books.running i
      have he := h.books.executed i
      have hd := h.books.deleted i
      rw [hst] at hu ht hr he hd
      constructor
      · exact ⟨h.uncancelled.queue, h.uncancelled.idle, h.uncancelled.op⟩
      · refine h.books.of_move (i := i) rfl (fun j hj => ⟨?_, ?_, ?_, rfl, rfl⟩)
          ⟨?_, ?_, ?_, he, hd⟩
        · exact List.count_erase_of_ne hj
        · dsimp only
          rw [count_concat, if_neg hj, Nat.add_zero]
        · dsimp only
          rw [count_concat, if_neg hj, Nat.add_zero]
        · dsimp only
          rw [List.count_erase_self, hone, ← hu, hone]
          rfl
        · dsimp only
          rw [count_concat, if_pos rfl, ht]
          rfl
        · dsimp only
          rw [count_concat, if_pos rfl, hr]
          rfl
      · refine ⟨fun hm => ?_, h.schedules.top, by simp, nofun⟩
        have hidle := h.schedules.idle hm
        rw [hlock.1] at hidle
        cases hidle
      · exact h.joins.of_scheduling (by simp [hlock.1]) rfl
      · exact h.permits_schedule (i := i) (List.count_eq_zero.mp ht) hlock.1 rfl rfl rfl rfl
    · cases hs
  · cases hs

/-- The scheduler and the main program write no book. -/
theorem Accounts.of_control (h : Accounts ops capacity s)
    (hs : s' = { s with
      scheduler := s'.scheduler, main := s'.main, guard := s'.guard, isRunning := s'.isRunning })
    (hschedules : Schedules s') (hjoins : Joins s')
    (hpermits : s'.guard + permitsHeld s' = capacity) : Accounts ops capacity s' := by
  refine ⟨?_, ?_, hschedules, hjoins, hpermits⟩
  · rw [hs]
    exact ⟨h.uncancelled.queue, h.uncancelled.idle, h.uncancelled.op⟩
  · rw [hs]
    exact ⟨h.books.unscheduled, h.books.threads, h.books.running, h.books.executed,
      h.books.deleted⟩

theorem Accounts.schedulerStep (h : Accounts ops capacity s) (hs : s.schedulerStep = some s') :
    Accounts ops capacity s' := by
  unfold OperationQueue.schedulerStep at hs
  have hpermits := h.permits
  unfold permitsHeld at hpermits
  have hbusy : s.scheduler ≠ .none → s.main ≠ .adding := fun hne hm =>
    hne (h.schedules.idle hm)
  split at hs
  · cases hs
  · rename_i hsch
    rw [← Option.some.inj hs]
    refine h.of_control rfl
      ⟨fun hm => absurd hm (hbusy (by simp [hsch])), h.schedules.top, ?_, ?_⟩
      (h.joins.of_scheduling (by simp [hsch]) rfl) ?_
    · dsimp only
      split
      · simp
      · rename_i hne
        simpa using hne
    · dsimp only
      split
      · rename_i hempty
        intro _
        exact List.isEmpty_iff.mp hempty
      · nofun
    · unfold permitsHeld
      rw [hsch, if_neg nofun] at hpermits
      dsimp only
      rw [if_neg (by split <;> nofun)]
      exact hpermits
  · rename_i hsch
    rw [if_neg (by simp [h.uncancelled.queue])] at hs
    rw [← Option.some.inj hs]
    refine h.of_control rfl
      ⟨fun hm => absurd hm (hbusy (by simp [hsch])), h.schedules.top,
        fun _ => h.schedules.found (Or.inl hsch), nofun⟩
      (h.joins.of_scheduling (by simp [hsch]) rfl) ?_
    unfold permitsHeld
    rw [hsch, if_neg nofun] at hpermits
    exact hpermits
  · rename_i hsch
    split at hs
    · cases hs
    · rename_i hfree
      rw [← Option.some.inj hs]
      refine h.of_control rfl
        ⟨fun hm => absurd hm (hbusy (by simp [hsch])), h.schedules.top,
          fun _ => h.schedules.found (Or.inr (Or.inl hsch)), nofun⟩
        (h.joins.of_scheduling (by simp [hsch]) rfl) ?_
      unfold permitsHeld
      rw [hsch, if_neg nofun] at hpermits
      dsimp only
      rw [if_pos rfl]
      omega
  · cases hs
  · cases hs

theorem Accounts.mainStep (h : Accounts ops capacity s) (hs : s.mainStep = some s') :
    Accounts ops capacity s' := by
  unfold OperationQueue.mainStep at hs
  split at hs
  · rename_i hm
    rw [← Option.some.inj hs]
    have hpermits := h.permits
    unfold permitsHeld at hpermits
    rw [h.schedules.idle hm, if_neg nofun] at hpermits
    exact h.of_control rfl ⟨nofun, h.schedules.top, by simp, nofun⟩ ⟨nofun, nofun⟩ hpermits
  · rw [← Option.some.inj hs]
    exact h.of_control rfl ⟨nofun, h.schedules.top, h.schedules.found, h.schedules.done⟩
      ⟨nofun, nofun⟩ h.permits
  · split at hs
    · rename_i hended
      rw [← Option.some.inj hs]
      refine h.of_control rfl ⟨nofun, h.schedules.top, h.schedules.found, h.schedules.done⟩
        ⟨fun threads hm => ?_, nofun⟩ h.permits
      rw [← Main.waitForFinished.inj hm]
      exact ⟨hended, fun i hi hnot => absurd hi hnot⟩
    · cases hs
  · rename_i hm
    rw [← Option.some.inj hs]
    obtain ⟨hended, hall⟩ := h.joins.joining [] hm
    exact h.of_control rfl ⟨nofun, h.schedules.top, h.schedules.found, h.schedules.done⟩
      ⟨nofun, fun _ => ⟨hended, fun i hi => hall i hi List.not_mem_nil⟩⟩ h.permits
  · rename_i i threads hm
    split at hs
    · rename_i hi
      rw [← Option.some.inj hs]
      obtain ⟨hended, hall⟩ := h.joins.joining _ hm
      refine h.of_control rfl ⟨nofun, h.schedules.top, h.schedules.found, h.schedules.done⟩
        ⟨fun threads' hm' => ?_, nofun⟩ h.permits
      rw [← Main.waitForFinished.inj hm']
      refine ⟨hended, fun j hj hnot => ?_⟩
      by_cases hji : j = i
      · rw [hji]
        exact hi
      · exact hall j hj (by simp [hji, hnot])
    · cases hs
  · cases hs

/-! ## Runs without `cancel` -/

/-- The move does not call `cancel`. -/
def NoCancel (_ : OperationQueue ι) (a : Move ι) : Prop := a ≠ .cancel

theorem Accounts.step (h : Accounts ops capacity s) (hnodup : ops.Nodup) {priority : ι → Int}
    {a : Move ι} (ha : NoCancel s a) (hs : step priority s a = some s') :
    Accounts ops capacity s' := by
  unfold OperationQueue.step at hs
  cases a with
  | main => exact h.mainStep hs
  | scheduler => exact h.schedulerStep hs
  | schedule i => exact h.scheduleStep hnodup hs
  | thread i => exact h.threadStep hs
  | returns i =>
    dsimp only at hs
    split at hs
    · rename_i hst
      rw [← Option.some.inj hs]
      exact h.goTo (by rw [hst]; rfl)
    · cases hs
  | pause =>
    rw [← Option.some.inj hs]
    exact h.pause
  | resume =>
    rw [← Option.some.inj hs]
    exact h.resume
  | cancel => exact absurd rfl ha
  | cancelling =>
    dsimp only at hs
    unfold cancelStep at hs
    rw [h.uncancelled.idle] at hs
    cases hs
  | cancelTop i =>
    dsimp only at hs
    unfold cancelTopStep at hs
    rw [if_neg (by simp [h.uncancelled.idle])] at hs
    cases hs

/-- What is promised of the operations: each is in one place, the permits add up, and when all
threads are joined each was executed once. -/
structure RunsOnce (ops : List ι) (capacity : Nat) (s : OperationQueue ι) : Prop where
  one_place : ∀ i ∈ ops,
    s.unscheduledOps.count i + s.runningOps.count i + s.deleted.count i = 1
  permits : s.guard + permitsHeld s = capacity
  top : s.topOfEmpty = false
  at_most_once : ∀ i, s.executed.count i ≤ ops.count i
  executed : s.main = .joined → ∀ i ∈ ops, s.executed.count i = 1

theorem Accounts.runsOnce (h : Accounts ops capacity s) (hnodup : ops.Nodup) :
    RunsOnce ops capacity s := by
  have hone : ∀ i ∈ ops, ops.count i = 1 := fun i hi => List.count_eq_one_of_mem hnodup hi
  refine ⟨fun i hi => ?_, h.permits, h.schedules.top, fun i => ?_, fun hm i hi => ?_⟩
  · have hu := h.books.unscheduled i
    rw [h.books.running, h.books.deleted, ← hone i hi, ← hu]
    cases hst : s.stage i <;> rfl
  · rw [h.books.executed, ← h.books.unscheduled]
    cases hst : s.stage i <;> simp [phase, Phase.executions, Phase.threads]
  · obtain ⟨hsch, hall⟩ := h.joins.joined hm
    have hu := h.books.unscheduled i
    rw [h.schedules.done hsch, List.count_nil, Nat.zero_add, hone i hi] at hu
    have hthread : i ∈ s.opThreads := by
      rw [← List.count_pos_iff, h.books.threads, hu]
      exact Nat.one_pos
    rw [h.books.executed, hall i hthread]
    rfl

/-- In a run without `cancel` no operation is lost or run twice. -/
theorem no_operation_is_lost_or_run_twice (priority : ι → Int) (ops : List ι) (capacity : Nat)
    (hnodup : ops.Nodup) (s : OperationQueue ι)
    (h : Reaches (step priority) NoCancel (start ops capacity) s) : RunsOnce ops capacity s := by
  have haccounts : Accounts ops capacity s :=
    h.invariant (accounts_start ops capacity) fun _ _ _ hs ha hstep => hs.step hnodup ha hstep
  exact haccounts.runsOnce hnodup

end Accounts

/-! ### Two operations and one permit -/

/-- What an operation does from its schedule to its end. -/
def wholeLife (i : Bool) : List (Move Bool) :=
  [.scheduler, .scheduler, .scheduler, .schedule i, .thread i, .thread i, .thread i, .returns i,
    .thread i, .thread i, .thread i, .thread i, .thread i]

def oneAfterTheOther : List (Move Bool) :=
  [[.main], wholeLife true, wholeLife false,
    [.scheduler, .main, .main, .main, .main, .main]].flatten

theorem no_operation_is_lost_or_run_twice_two_operations :
    ∃ s, run (step fun _ => 0) (start [false, true] 1) oneAfterTheOther = some s ∧
      s.main = .joined ∧ RunsOnce [false, true] 1 s := by
  have hmain : (run (step fun _ => 0) (start [false, true] 1) oneAfterTheOther).map (·.main) =
      some .joined := by decide +kernel
  obtain ⟨s, hrun, hjoined⟩ := Option.map_eq_some_iff.mp hmain
  have hmoves : ∀ s : OperationQueue Bool, ∀ a ∈ oneAfterTheOther, NoCancel s a := by
    rintro s a ha rfl
    simp [oneAfterTheOther, wholeLife] at ha
  exact ⟨s, hrun, hjoined, no_operation_is_lost_or_run_twice (fun _ => 0) [false, true] 1
    (by decide) s (Reaches.of_run hmoves hrun)⟩

end OperationQueue

end pwned
