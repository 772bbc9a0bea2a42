-- What a program leaves behind that may be cancelled at any time: no chunk is
-- torn, and no line is counted twice.
import Pwned.ConverterProgram
import Pwned.QueueOrder

namespace pwned

namespace ConverterProgram

open ConvertOperation ConvertNames ConvertThreads

section Cancel

variable {ι : Type} [DecidableEq ι] {md5 : List UInt8 → Vector UInt8 16}
  {d : ι → ConvertOperation} {ops : List ι} {capacity : Nat} {s s' : Program ι}

/-! ## An operation that executes -/

/-- An operation that executes is moved on by its own thread only. -/
theorem stays_executing {priority : ι → Int} {q q' : OperationQueue ι} {i : ι}
    {a : pwned.Move ι} (hs : OperationQueue.step priority q a = some q')
    (hthread : a ≠ .thread i) (hreturns : a ≠ .returns i) (hunscheduled : i ∉ q.unscheduledOps)
    (hi : q.stage i = .executing) : q'.stage i = .executing := by
  unfold OperationQueue.step at hs
  cases a with
  | main => rwa [(OperationQueue.mainStep_frame hs).2.1]
  | scheduler => rwa [(OperationQueue.schedulerStep_frame hs).2.1]
  | schedule j =>
    dsimp only at hs
    unfold OperationQueue.scheduleStep at hs
    split at hs
    · split at hs
      · rwa [← Option.some.inj hs]
      · split at hs
        · rename_i htop
          have hj : i ≠ j := by
            rintro rfl
            exact hunscheduled (OperationQueue.isTop_mem htop)
          rw [← Option.some.inj hs, OperationQueue.goTo_stage, Function.update_of_ne hj]
          exact hi
        · cases hs
    · cases hs
  | thread j =>
    have hj : i ≠ j := by
      rintro rfl
      exact hthread rfl
    cases OperationQueue.threadStep_moves hs with
    | goesOn => exact hi
    | signals =>
      rw [OperationQueue.goTo_stage, OperationQueue.notifyOne_stage, Function.update_of_ne hj]
      exact hi
    | tested | started | executes | pauses | waits | wakes | stops | finishes | deletes | ends =>
      exact (Function.update_of_ne hj _ _).trans hi
  | returns j =>
    have hj : i ≠ j := by
      rintro rfl
      exact hreturns rfl
    dsimp only at hs
    split at hs
    · rw [← Option.some.inj hs, OperationQueue.goTo_stage, Function.update_of_ne hj]
      exact hi
    · cases hs
  | pause =>
    rw [← Option.some.inj hs]
    unfold OperationQueue.pause
    split_ifs <;> exact hi
  | resume =>
    rw [← Option.some.inj hs]
    unfold OperationQueue.resume
    split_ifs
    · exact hi
    · exact hi
    · simp [hi]
  | cancel =>
    dsimp only at hs
    split at hs
    · rwa [← Option.some.inj hs]
    · cases hs
  | cancelling =>
    dsimp only at hs
    unfold OperationQueue.cancelStep at hs
    split at hs
    · cases hs
    · rwa [← Option.some.inj hs]
    · split at hs
      · rwa [← Option.some.inj hs]
      · cases hs
    · rwa [← Option.some.inj hs]
    · cases hs
    · rwa [← Option.some.inj hs]
    · rwa [← Option.some.inj hs]
  | cancelTop j =>
    dsimp only at hs
    unfold OperationQueue.cancelTopStep at hs
    split at hs
    · rwa [← Option.some.inj hs]
    · cases hs

theorem not_unscheduled {priority : ι → Int} {q : OperationQueue ι} {i : ι}
    (h : OperationQueue.InOrder priority ops capacity q) (hnodup : ops.Nodup)
    (hi : q.stage i = .executing) : i ∉ q.unscheduledOps := by
  intro hmem
  have hthread := h.threads i
  rw [(h.new_of_unscheduled hnodup hmem).1, hi] at hthread
  cases hthread

/-! ## No chunk is torn -/

/-- The queue keeps its order, and only an operation that executes searches a name or writes. -/
structure Untorn (d : ι → ConvertOperation) (ops : List ι) (capacity : Nat) (s : Program ι) :
    Prop where
  inOrder : OperationQueue.InOrder (fun i => priority (d i)) ops capacity s.queue
  converts : ∀ i, isCounting (s.threads.dir.stage i) = false → s.converts i = true

theorem untorn_start (d : ι → ConvertOperation) (ops : List ι) (capacity : Nat)
    (fs₀ : FileSystem Path) : Untorn d ops capacity (start d ops capacity fs₀) := by
  refine ⟨OperationQueue.inOrder_start _ ops capacity, fun i hi => ?_⟩
  simp [start, ConvertThreads.start, ConvertNames.start, isCounting] at hi

omit [DecidableEq ι] in
theorem converts_iff {i : ι} :
    s.converts i = true ↔ s.queue.stage i = .executing ∧ s.entered i = true := by
  rw [Program.converts, Bool.and_eq_true, decide_eq_true_eq]

/-- The queue does not move an operation on that searches or writes. -/
theorem Untorn.queue (h : Untorn d ops capacity s) (hnodup : ops.Nodup) {a : pwned.Move ι}
    {queue : OperationQueue ι} (hreturns : ∀ i, a ≠ .returns i) (hadmits : s.admits a = true)
    (hs : OperationQueue.step (fun i => priority (d i)) s.queue a = some queue) :
    Untorn d ops capacity { s with queue } := by
  refine ⟨h.inOrder.step hnodup hs, fun i hi => ?_⟩
  obtain ⟨hstage, hentered⟩ := converts_iff.mp (h.converts i hi)
  have hthread : a ≠ .thread i := by
    rintro rfl
    change isCounting (s.threads.dir.stage i) = false at hi
    simp [Program.admits, hstage, hi] at hadmits
  exact converts_iff.mpr ⟨stays_executing hs hthread (hreturns i)
    (not_unscheduled h.inOrder hnodup hstage) hstage, hentered⟩

/-- An operation returns while it counts. -/
theorem Untorn.returns (h : Untorn d ops capacity s) (hnodup : ops.Nodup) {i : ι}
    (hstage : s.queue.stage i = .executing)
    (hi : isCounting (s.threads.dir.stage i) = true) :
    Untorn d ops capacity { s with queue := s.queue.goTo i .executed } := by
  refine ⟨h.inOrder.step hnodup (step_returns _ hstage), fun j hj => ?_⟩
  have hne : j ≠ i := by
    rintro rfl
    change isCounting (s.threads.dir.stage j) = false at hj
    rw [hi] at hj
    cases hj
  obtain ⟨hexecuting, hentered⟩ := converts_iff.mp (h.converts j hj)
  refine converts_iff.mpr ⟨?_, hentered⟩
  rw [OperationQueue.goTo_stage, Function.update_of_ne hne]
  exact hexecuting

theorem Untorn.step (h : Untorn d ops capacity s) (hnodup : ops.Nodup) {a : Move ι}
    (hs : step md5 d s a = some s') : Untorn d ops capacity s' := by
  cases steps_of_step hs with
  | @queue b _ hreturns hqueue =>
    have hadmits : s.admits b = true := by
      by_contra hnot
      simp [ConverterProgram.step, hnot] at hs
    exact h.queue hnodup hreturns hadmits hqueue
  | @enters i hstage hnot =>
    refine ⟨h.inOrder, fun j hj => ?_⟩
    obtain ⟨hexecuting, hentered⟩ := converts_iff.mp (h.converts j hj)
    refine converts_iff.mpr ⟨hexecuting, ?_⟩
    by_cases heq : j = i
    · simp [heq]
    · simp [heq, hentered]
  | @turnsBack i hstage hcancelled =>
    have hnot : s.entered i = false := by
      by_contra hentered
      simp [ConverterProgram.step, hentered] at hs
    refine h.returns hnodup hstage ?_
    by_contra hcounting
    have hconverts := h.converts i (by simpa using hcounting)
    rw [converts_iff, hnot] at hconverts
    cases hconverts.2
  | @works b threads hstage hentered hthreads =>
    refine ⟨h.inOrder, fun j hj => ?_⟩
    by_cases heq : j = b.mover
    · rw [heq]
      exact converts_iff.mpr ⟨hstage, hentered⟩
    · apply h.converts j
      rwa [← (step_other hthreads heq).1]
  | @leaves i hstage hreturns =>
    refine h.returns hnodup hstage ?_
    exact hreturns.elim (fun hfinished => (finished_iff.mp hfinished).1) fun hcancelled =>
      hcancelled.2.1

/-! ## What is left behind -/

/-- The conversions take smooth steps. Keys may be pressed at any time. -/
def Apart (s : Program ι) : Move ι → Prop
  | .work a => ConvertThreads.Smooth s.threads a
  | _ => True

/-- The chunks of an operation that is not in `execute` are whole files in order, in which no hash
is counted more often than the lines give it. -/
structure Whole (md5 : List UInt8 → Vector UInt8 16) (d : ConvertOperation)
    (fs : FileSystem Path) (chunks : List Chunk) : Prop where
  files : ∀ c ∈ chunks, fs.files c.path = some (encodeAll c.records) ∧ c.records ≠ [] ∧
    StrictlyIncreasing c.records
  counts : ∀ k, lineCount md5 (UserPasswordReader.create d.inputFile d.options)
      (d.inputFile.content.splitOn 10) k < 2 ^ 32 →
    chunkTally chunks k ≤ lineCount md5 (UserPasswordReader.create d.inputFile d.options)
      (d.inputFile.content.splitOn 10) k

omit [DecidableEq ι] in
theorem whole_of_sound {fs₀ : FileSystem Path} {threads : Threads ι}
    (h : Sound md5 d fs₀ threads) {i : ι} (hi : isCounting (threads.dir.stage i) = true) :
    Whole md5 (d i) threads.dir.fs (threads.vars i).chunks := by
  obtain ⟨k, hk⟩ := isCounting_iff.mp hi
  have hown := h.own i
  rw [hk] at hown
  refine ⟨fun c hc => ⟨hown.files c hc, (hown.counting.chunk c hc).1,
    (hown.counting.chunk c hc).2.increasing⟩, fun k hk => ?_⟩
  have hconserved : chunkTally (threads.vars i).chunks k +
      tally (records (threads.vars i).passwordCountSet) k + _ = _ :=
    hown.counting.conserved k hk
  omega

end Cancel

instance (s : Program (Fin 2)) : ∀ a : Move (Fin 2), Decidable (Apart s a)
  | .work a => inferInstanceAs (Decidable (ConvertThreads.Smooth s.threads a))
  | .queue _ | .enter _ | .leave _ => .isTrue trivial

end ConverterProgram

end pwned
