-- What `resume` leaves paused. It wakes the operations that wait already, and
-- an operation that has its flag but does not wait yet goes on to wait.
import Pwned.OperationQueue

namespace pwned

namespace OperationQueue

section Pause

variable {ι : Type}

/-- The operation executes and will wait at its next look at `isPaused`, or waits already. -/
def Halts (s : OperationQueue ι) (i : ι) : Prop :=
  s.stage i = .executing ∧ (s.op i).isPaused = true ∨ s.stage i = .polled ∨ s.stage i = .waiting

/-- While the queue runs no operation is on its way into `operationWait()`. -/
def Flows (s : OperationQueue ι) : Prop := s.isRunning = true → ∀ i, ¬ s.Halts i

/-- `resume` sets the queue running only when every operation that was told to pause is in
`operationWait()`, and `execute` only when none was. -/
def WhenAllWait (s : OperationQueue ι) : Move ι → Prop
  | .resume => s.isCancelled = false → s.isRunning = false →
      ∀ i, s.Halts i → s.stage i = .waiting
  | .main => s.main = .executing → ∀ i, ¬ s.Halts i
  | _ => True

/-- The queue runs, and an operation is on its way into `operationWait()`. -/
def Halting (s : OperationQueue ι) : Prop := s.isRunning = true ∧ ∃ i, s.Halts i

variable [DecidableEq ι] {priority : ι → Int} {s s' : OperationQueue ι} {i : ι}

/-! ## Steps -/

/-- An operation moves on to where it does not halt. -/
theorem Flows.of_move (h : Flows s) (hrunning : s'.isRunning = s.isRunning)
    (hother : ∀ j ≠ i, s'.stage j = s.stage j ∧ s'.op j = s.op j)
    (hi : s.isRunning = true → ¬ s.Halts i → ¬ s'.Halts i) : Flows s' := by
  intro hr j
  rw [hrunning] at hr
  by_cases hj : j = i
  · rw [hj]
    exact hi hr (h hr i)
  · unfold Halts
    rw [(hother j hj).1, (hother j hj).2]
    exact h hr j

theorem goTo_other {stage : Stage} {j : ι} (h : j ≠ i) :
    (s.goTo i stage).stage j = s.stage j ∧ (s.goTo i stage).op j = s.op j :=
  ⟨Function.update_of_ne h .., rfl⟩

theorem setOp_goTo_other {f : Operation → Operation} {stage : Stage} {j : ι} (h : j ≠ i) :
    ((s.setOp i f).goTo i stage).stage j = s.stage j ∧
      ((s.setOp i f).goTo i stage).op j = s.op j :=
  ⟨Function.update_of_ne h .., Function.update_of_ne h ..⟩

omit [DecidableEq ι] in
/-- The stages in which an operation is outside of `execute()` or is woken. -/
theorem not_halts_of_stage {stage : Stage} (hstage : s.stage i = stage)
    (hne : stage ≠ .executing ∧ stage ≠ .polled ∧ stage ≠ .waiting) : ¬ s.Halts i := by
  rintro (⟨h, -⟩ | h | h)
  · exact hne.1 (hstage ▸ h)
  · exact hne.2.1 (hstage ▸ h)
  · exact hne.2.2 (hstage ▸ h)

omit [DecidableEq ι] in
theorem not_halts_of_flag (hstage : s.stage i = .executing) (hflag : (s.op i).isPaused = false) :
    ¬ s.Halts i := by
  rintro (⟨-, h⟩ | h | h)
  · rw [hflag] at h
    cases h
  · rw [hstage] at h
    cases h
  · rw [hstage] at h
    cases h

/-- An operation that takes its flag back goes on. -/
theorem not_halts_resumed (s : OperationQueue ι) (i : ι) :
    ¬ ((s.setOp i fun o => { o with isPaused := false }).goTo i .executing).Halts i := by
  apply not_halts_of_flag
  · exact Function.update_self ..
  · rw [goTo_op, setOp_op, Function.update_self]

theorem Flows.threadStep (h : Flows s) (hs : s.threadStep i = some s') : Flows s' := by
  cases threadStep_moves hs with
  | tested =>
    refine h.of_move (i := i) rfl (fun j hj => goTo_other hj) fun _ _ =>
      not_halts_of_stage (Function.update_self ..) ?_
    split <;> simp
  | started =>
    exact h.of_move (i := i) rfl (fun j hj => setOp_goTo_other hj) fun _ _ =>
      not_halts_of_stage (Function.update_self ..) (by simp)
  | executes =>
    exact h.of_move (i := i) rfl (fun j hj => setOp_goTo_other hj) fun _ _ =>
      s.not_halts_resumed i
  | pauses hst hflag =>
    exact h.of_move (i := i) rfl (fun j hj => goTo_other hj) fun _ hnot =>
      absurd (Or.inl ⟨hst, hflag⟩) hnot
  | goesOn => exact h
  | waits hst =>
    exact h.of_move (i := i) rfl (fun j hj => goTo_other hj) fun _ hnot =>
      absurd (Or.inr (Or.inl hst)) hnot
  | wakes =>
    exact h.of_move (i := i) rfl (fun j hj => setOp_goTo_other hj) fun _ _ =>
      s.not_halts_resumed i
  | stops =>
    exact h.of_move (i := i) rfl (fun j hj => setOp_goTo_other hj) fun _ _ =>
      not_halts_of_stage (Function.update_self ..) (by simp)
  | finishes =>
    exact h.of_move (i := i) rfl (fun j hj => setOp_goTo_other hj) fun _ _ =>
      not_halts_of_stage (Function.update_self ..) (by simp)
  | signals =>
    refine h.of_move (i := i) (by simp) (fun j hj => ?_) fun _ _ =>
      not_halts_of_stage (Function.update_self ..) (by simp)
    rw [goTo_stage, goTo_op, notifyOne_stage, notifyOne_op, Function.update_of_ne hj]
    exact ⟨rfl, rfl⟩
  | deletes =>
    exact h.of_move (i := i) rfl (fun j hj => goTo_other hj) fun _ _ =>
      not_halts_of_stage (Function.update_self ..) (by simp)
  | ends =>
    exact h.of_move (i := i) rfl (fun j hj => goTo_other hj) fun _ _ =>
      not_halts_of_stage (Function.update_self ..) (by simp)

omit [DecidableEq ι] in
theorem Flows.of_same (h : Flows s) (hrunning : s'.isRunning = s.isRunning)
    (hstage : s'.stage = s.stage) (hflag : ∀ j, (s'.op j).isPaused = (s.op j).isPaused) :
    Flows s' := by
  intro hr j
  rw [hrunning] at hr
  unfold Halts
  rw [hstage, hflag]
  exact h hr j

/-- To mark an operation as cancelled leaves the other flags as they are. -/
theorem isPaused_mark (s : OperationQueue ι) (i j : ι) :
    ((s.setOp i fun o => { o with isCancelled := true }).op j).isPaused = (s.op j).isPaused := by
  rw [setOp_op]
  by_cases hj : j = i
  · rw [hj, Function.update_self]
  · rw [Function.update_of_ne hj]

theorem Flows.cancelStep (h : Flows s) (hs : s.cancelStep = some s') : Flows s' := by
  unfold OperationQueue.cancelStep at hs
  split at hs
  · cases hs
  · rename_i i ops hc
    rw [← Option.some.inj hs]
    exact h.of_same rfl rfl (isPaused_mark s i)
  · split at hs
    · rw [← Option.some.inj hs]
      exact h.of_same rfl rfl fun _ => rfl
    · cases hs
  · rw [← Option.some.inj hs]
    exact h.of_same rfl rfl fun _ => rfl
  · cases hs
  · rw [← Option.some.inj hs]
    exact h.of_same rfl rfl fun _ => rfl
  · rw [← Option.some.inj hs]
    exact h.of_same rfl rfl fun _ => rfl

theorem Flows.scheduleStep (h : Flows s) (hs : s.scheduleStep priority i = some s') :
    Flows s' := by
  unfold OperationQueue.scheduleStep at hs
  split at hs
  · split at hs
    · rw [← Option.some.inj hs]
      exact h.of_same rfl rfl fun _ => rfl
    · split at hs
      · rw [← Option.some.inj hs]
        exact h.of_move (i := i) rfl (fun j hj => goTo_other hj) fun _ _ =>
          not_halts_of_stage (Function.update_self ..) (by simp)
      · cases hs
  · cases hs

theorem flows_pause (h : Flows s) : Flows s.pause := by
  unfold pause
  split_ifs
  · exact h
  · intro hr
    cases hr
  · exact h

omit [DecidableEq ι] in
/-- `resume` lets the queue flow if it wakes every operation that halts. -/
theorem Flows.resume (h : Flows s) :
    WhenAllWait s .resume ∧ Flows s.resume ∨ ¬ WhenAllWait s .resume ∧ Halting s.resume := by
  by_cases hc : s.isCancelled = true
  · refine Or.inl ⟨fun hc' => ?_, ?_⟩
    · rw [hc] at hc'
      cases hc'
    · unfold OperationQueue.resume
      rwa [if_pos hc]
  · by_cases hr : s.isRunning = true
    · refine Or.inl ⟨fun _ hr' => ?_, ?_⟩
      · rw [hr] at hr'
        cases hr'
      · unfold OperationQueue.resume
        rwa [if_neg hc, if_pos hr]
    · have hresume : s.resume = { s with
          stage := fun i => if s.stage i = .waiting then .woken else s.stage i,
          isRunning := true } := by
        unfold OperationQueue.resume
        rw [if_neg hc, if_neg hr]
      have hhalts : ∀ i, s.resume.Halts i ↔ s.Halts i ∧ s.stage i ≠ .waiting := by
        intro i
        rw [hresume]
        unfold Halts
        dsimp only
        split
        · rename_i hw
          simp [hw]
        · rename_i hw
          simp [hw]
      by_cases hall : ∀ i, s.Halts i → s.stage i = .waiting
      · refine Or.inl ⟨fun _ _ => hall, fun _ i hi => ?_⟩
        obtain ⟨hi, hne⟩ := (hhalts i).mp hi
        exact hne (hall i hi)
      · refine Or.inr ⟨fun hw => hall (hw (by simpa using hc) (by simpa using hr)), ?_, ?_⟩
        · rw [hresume]
        · push Not at hall
          obtain ⟨i, hi, hne⟩ := hall
          exact ⟨i, (hhalts i).mpr ⟨hi, hne⟩⟩

omit [DecidableEq ι] in
theorem Flows.mainStep (h : Flows s) (hs : s.mainStep = some s') :
    WhenAllWait s .main ∧ Flows s' ∨ ¬ WhenAllWait s .main ∧ Halting s' := by
  obtain ⟨-, hstage, hop⟩ := mainStep_frame hs
  have hhalts : ∀ i, s'.Halts i ↔ s.Halts i := by
    intro i
    unfold Halts
    rw [hstage, hop]
  rcases mainStep_isRunning hs with ⟨hm, hr⟩ | ⟨hm, hr⟩
  · by_cases hall : ∀ i, ¬ s.Halts i
    · refine Or.inl ⟨fun _ => hall, fun _ i hi => ?_⟩
      exact hall i ((hhalts i).mp hi)
    · refine Or.inr ⟨fun hw => hall (hw hm), hr, ?_⟩
      push Not at hall
      obtain ⟨i, hi⟩ := hall
      exact ⟨i, (hhalts i).mpr hi⟩
  · exact Or.inl ⟨fun hm' => absurd hm' hm, h.of_same hr hstage fun i => by rw [hop]⟩

theorem Flows.step (h : Flows s) {a : Move ι} (hs : step priority s a = some s') :
    WhenAllWait s a ∧ Flows s' ∨ ¬ WhenAllWait s a ∧ Halting s' := by
  unfold OperationQueue.step at hs
  cases a with
  | main => exact h.mainStep hs
  | scheduler =>
    obtain ⟨-, hstage, hop, hr⟩ := schedulerStep_frame hs
    exact Or.inl ⟨trivial, h.of_same hr hstage fun i => by rw [hop]⟩
  | schedule i => exact Or.inl ⟨trivial, h.scheduleStep hs⟩
  | thread i => exact Or.inl ⟨trivial, h.threadStep hs⟩
  | returns i =>
    dsimp only at hs
    split at hs
    · rw [← Option.some.inj hs]
      exact Or.inl ⟨trivial, h.of_move (i := i) rfl (fun j hj => goTo_other hj) fun _ _ =>
        not_halts_of_stage (Function.update_self ..) (by simp)⟩
    · cases hs
  | pause =>
    rw [← Option.some.inj hs]
    exact Or.inl ⟨trivial, flows_pause h⟩
  | resume =>
    rw [← Option.some.inj hs]
    exact h.resume
  | cancel =>
    dsimp only at hs
    split at hs
    · rw [← Option.some.inj hs]
      exact Or.inl ⟨trivial, h.of_same rfl rfl fun _ => rfl⟩
    · cases hs
  | cancelling => exact Or.inl ⟨trivial, h.cancelStep hs⟩
  | cancelTop i =>
    dsimp only at hs
    unfold cancelTopStep at hs
    split at hs
    · rw [← Option.some.inj hs]
      exact Or.inl ⟨trivial, h.of_same rfl rfl (isPaused_mark s i)⟩
    · cases hs

/-- An operation that halts goes on to wait, and nothing of that stops the queue. -/
theorem Halting.waits (h : Halting s) :
    ∃ n s' i, run (step priority) s (List.replicate n (.thread i)) = some s' ∧
      s'.stage i = .waiting ∧ s'.isRunning = true := by
  obtain ⟨hr, i, hi⟩ := h
  have hpolled : ∀ t : OperationQueue ι, t.stage i = .polled →
      step priority t (.thread i) = some (t.goTo i .waiting) := by
    intro t ht
    unfold OperationQueue.step
    dsimp only
    unfold OperationQueue.threadStep
    rw [ht]
  rcases hi with ⟨hst, hflag⟩ | hst | hst
  · have hexec : step priority s (.thread i) = some (s.goTo i .polled) := by
      unfold OperationQueue.step
      dsimp only
      unfold OperationQueue.threadStep
      rw [hst]
      dsimp only
      rw [if_pos hflag]
    refine ⟨2, (s.goTo i .polled).goTo i .waiting, i, ?_, Function.update_self .., hr⟩
    rw [List.replicate_succ, run_cons hexec, List.replicate_one,
      run_cons (hpolled _ (Function.update_self ..)), run]
  · refine ⟨1, s.goTo i .waiting, i, ?_, Function.update_self .., hr⟩
    rw [List.replicate_one, run_cons (hpolled s hst), run]
  · exact ⟨0, s, i, rfl, hst, hr⟩

/-- As long as the queue is set running only when every operation that was told to pause waits,
an operation waits only while the queue is paused. Where it is set running too early, an operation
goes on to wait while it runs. -/
theorem operations_wait_only_while_paused (priority : ι → Int) (ops : List ι) (capacity : Nat)
    (s : OperationQueue ι) (h : Reaches (step priority) WhenAllWait (start ops capacity) s) :
    (∀ i, s.stage i = .waiting → s.isRunning = false) ∧
      ∀ a s', step priority s a = some s' → ¬ WhenAllWait s a →
        ∃ n s'' i, run (step priority) s' (List.replicate n (.thread i)) = some s'' ∧
          s''.stage i = .waiting ∧ s''.isRunning = true := by
  have hflows : Flows s := by
    have hstart : Flows (start ops capacity) := by
      intro hr
      cases hr
    refine h.invariant hstart fun t a t' ht hok hs => ?_
    rcases ht.step hs with ⟨-, ht'⟩ | ⟨hnot, -⟩
    · exact ht'
    · exact absurd hok hnot
  refine ⟨fun i hi => ?_, fun a s' hs hnot => ?_⟩
  · by_contra hr
    exact hflows (by simpa using hr) i (Or.inr (Or.inr hi))
  · rcases hflows.step hs with ⟨hw, -⟩ | ⟨-, hhalting⟩
    · exact absurd hw hnot
    · exact hhalting.waits

end Pause

/-! ### One operation -/

/-- The queue runs and its operation executes. -/
def executes : List (Move Unit) :=
  [.main, .main, .scheduler, .scheduler, .scheduler, .schedule (), .thread (), .thread (),
    .thread ()]

theorem an_operation_can_wait_while_the_queue_runs :
    ∃ s, Reachable (step fun _ => 0) (start [()] 1) s ∧ s.stage () = .waiting ∧
      s.isRunning = true := by
  have hrun : (run (step fun _ => 0) (start [()] 1)
      (executes ++ [.pause, .resume, .thread (), .thread ()])).map
        (fun s => (s.stage (), s.isRunning)) = some (.waiting, true) := by decide +kernel
  obtain ⟨s, hs, hend⟩ := Option.map_eq_some_iff.mp hrun
  obtain ⟨hstage, hr⟩ := Prod.mk.inj hend
  exact ⟨s, reachable_of_run hs, hstage, hr⟩

/-- A pause that the operation has come to wait in. -/
theorem operations_wait_only_while_paused_one_operation :
    ∃ s, run (step fun _ => 0) (start [()] 1)
        (executes ++ [.pause, .thread (), .thread (), .resume]) = some s ∧
      s.stage () = .woken ∧ s.isRunning = true ∧
      (∀ i, s.stage i = .waiting → s.isRunning = false) ∧
      ∀ a s', step (fun _ => 0) s a = some s' → ¬ WhenAllWait s a →
        ∃ n s'' i, run (step fun _ => 0) s' (List.replicate n (.thread i)) = some s'' ∧
          s''.stage i = .waiting ∧ s''.isRunning = true := by
  have hrun : (run (step fun _ => 0) (start [()] 1)
      (executes ++ [.pause, .thread (), .thread (), .resume])).map
        (fun s => (s.stage (), s.isRunning)) = some (.woken, true) := by decide +kernel
  obtain ⟨s, hs, hend⟩ := Option.map_eq_some_iff.mp hrun
  obtain ⟨hstage, hr⟩ := Prod.mk.inj hend
  refine ⟨s, hs, hstage, hr, operations_wait_only_while_paused (fun _ => 0) [()] 1 s
    (.of_meets ?_ hs)⟩
  refine .cons nofun rfl (.cons ?_ rfl (.cons trivial rfl (.cons trivial rfl (.cons trivial rfl
    (.cons trivial rfl (.cons trivial rfl (.cons trivial rfl (.cons trivial rfl (.cons trivial rfl
      (.cons trivial rfl (.cons trivial rfl (.cons ?_ rfl trivial))))))))))))
  · rintro - i (⟨hi, -⟩ | hi | hi)
    · cases hi
    · cases hi
    · cases hi
  · intro _ _ i _
    rfl

end OperationQueue

end pwned
