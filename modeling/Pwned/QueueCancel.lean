-- What `cancel` waits for. It waits for each operation without looking
-- whether the operation will still signal, so it can wait for ever.
import Pwned.OperationQueue

namespace pwned

namespace OperationQueue

/-- The operation is in `start()` behind its first test and in front of `notify_one()`. -/
def InStart : Stage → Prop
  | .entered | .running | .executing | .polled | .waiting | .woken | .executed | .stopped
  | .finished => True
  | _ => False

instance : DecidablePred InStart := fun stage => by
  cases stage <;> unfold InStart <;> infer_instance

section Cancel

variable {ι : Type}

/-- `cancel` is in `waitForFinished()` of the operation. -/
def WaitsFor (s : OperationQueue ι) (i : ι) : Prop :=
  ∃ loop ops, s.cancelling = some (.waiting loop i ops)

/-- `cancel` is about to wait for the operation. -/
def WillWaitFor (s : OperationQueue ι) (i : ι) : Prop :=
  ∃ loop ops, s.cancelling = some (.marked loop i ops)

/-- Whatever `cancel` waits for or is about to wait for will signal. -/
structure WillSignal (s : OperationQueue ι) : Prop where
  waits : ∀ i, s.WaitsFor i → InStart (s.stage i)
  will_wait : ∀ i, s.WillWaitFor i → InStart (s.stage i)

/-- `cancel` marks an operation only while the operation is in `start()`, and no operation signals
between the mark and the wait. -/
def InTime (s : OperationQueue ι) : Move ι → Prop
  | .cancelling => ∀ i ops, s.cancelling = some (.next (i :: ops)) → InStart (s.stage i)
  | .cancelTop i => InStart (s.stage i)
  | .thread i => s.stage i = .finished → ¬ s.WillWaitFor i
  | _ => True

/-- `cancel` is about to wait for an operation that will not signal. -/
def TooLate (s : OperationQueue ι) : Prop := ∃ i, s.WillWaitFor i ∧ ¬ InStart (s.stage i)

variable [DecidableEq ι] {priority : ι → Int} {s s' : OperationQueue ι} {i : ι}

/-! ## Steps -/

omit [DecidableEq ι] in
/-- Where `cancel` stands is the business of `cancel`, and of the operation it waits for. -/
theorem WillSignal.of_same (h : WillSignal s) (hc : s'.cancelling = s.cancelling)
    (hstage : ∀ i, InStart (s.stage i) → InStart (s'.stage i)) : WillSignal s' := by
  constructor
  · rintro i ⟨loop, ops, hi⟩
    exact hstage i (h.waits i ⟨loop, ops, hc ▸ hi⟩)
  · rintro i ⟨loop, ops, hi⟩
    exact hstage i (h.will_wait i ⟨loop, ops, hc ▸ hi⟩)

theorem inStart_goTo {stage : Stage} (h : InStart (s.stage i) → InStart stage) (j : ι)
    (hj : InStart (s.stage j)) : InStart (Function.update s.stage i stage j) := by
  by_cases hji : j = i
  · rw [hji] at hj ⊢
    rw [Function.update_self]
    exact h hj
  · rwa [Function.update_of_ne hji]

/-- The signal of an operation ends the wait for it and for no other. -/
theorem waitsFor_notifyOne {i j : ι} (h : (s.notifyOne i).WaitsFor j) : s.WaitsFor j ∧ j ≠ i := by
  obtain ⟨loop, ops, hj⟩ := h
  unfold notifyOne at hj
  split at hj
  · rename_i hc
    split at hj
    · cases hj
    · rename_i hne
      rw [hc] at hj
      obtain ⟨rfl, rfl, rfl⟩ := Cancel.waiting.inj (Option.some.inj hj)
      exact ⟨⟨_, _, hc⟩, hne⟩
  · rename_i hnot
    exact absurd hj (hnot loop j ops)

theorem willWaitFor_notifyOne {i j : ι} : (s.notifyOne i).WillWaitFor j ↔ s.WillWaitFor j := by
  unfold WillWaitFor notifyOne
  split
  · rename_i hc
    split
    · simp [hc]
    · rfl
  · rfl

/-- The signal is in time while `cancel` is not about to wait for the operation. -/
theorem WillSignal.signals (h : WillSignal s) (hst : s.stage i = .finished) :
    InTime s (.thread i) ∧ WillSignal ((s.notifyOne i).goTo i .left) ∨
      ¬ InTime s (.thread i) ∧ TooLate ((s.notifyOne i).goTo i .left) := by
  by_cases hw : s.WillWaitFor i
  · refine Or.inr ⟨fun hin => hin hst hw, i, willWaitFor_notifyOne.mpr hw, ?_⟩
    unfold goTo
    simp [InStart]
  · refine Or.inl ⟨fun _ => hw, fun j hj => ?_, fun j hj => ?_⟩
    · obtain ⟨hj', hne⟩ := waitsFor_notifyOne hj
      unfold goTo
      dsimp only
      rw [Function.update_of_ne hne, notifyOne_stage]
      exact h.waits j hj'
    · have hj' := willWaitFor_notifyOne.mp hj
      have hne : j ≠ i := fun he => hw (he ▸ hj')
      unfold goTo
      dsimp only
      rw [Function.update_of_ne hne, notifyOne_stage]
      exact h.will_wait j hj'

theorem WillSignal.threadStep (h : WillSignal s) (hs : s.threadStep i = some s') :
    InTime s (.thread i) ∧ WillSignal s' ∨ ¬ InTime s (.thread i) ∧ TooLate s' := by
  have hother : s.stage i ≠ .finished → WillSignal s' →
      InTime s (.thread i) ∧ WillSignal s' ∨ ¬ InTime s (.thread i) ∧ TooLate s' :=
    fun hne hw => Or.inl ⟨fun hf => absurd hf hne, hw⟩
  cases threadStep_moves hs with
  | signals hst => exact h.signals hst
  | tested hst =>
    apply hother (by simp [hst])
    exact h.of_same rfl (inStart_goTo fun hi => by rw [hst] at hi; cases hi)
  | started hst =>
    apply hother (by simp [hst])
    exact h.of_same rfl (inStart_goTo fun _ => trivial)
  | executes hst =>
    apply hother (by simp [hst])
    exact h.of_same rfl (inStart_goTo fun _ => trivial)
  | pauses hst =>
    apply hother (by simp [hst])
    exact h.of_same rfl (inStart_goTo fun _ => trivial)
  | goesOn hst => exact hother (by simp [hst]) h
  | waits hst =>
    apply hother (by simp [hst])
    exact h.of_same rfl (inStart_goTo fun _ => trivial)
  | wakes hst =>
    apply hother (by simp [hst])
    exact h.of_same rfl (inStart_goTo fun _ => trivial)
  | stops hst =>
    apply hother (by simp [hst])
    exact h.of_same rfl (inStart_goTo fun _ => trivial)
  | finishes hst =>
    apply hother (by simp [hst])
    exact h.of_same rfl (inStart_goTo fun _ => trivial)
  | deletes hst =>
    apply hother (by simp [hst])
    exact h.of_same rfl (inStart_goTo fun hi => by rw [hst] at hi; cases hi)
  | ends hst =>
    apply hother (by simp [hst])
    exact h.of_same rfl (inStart_goTo fun hi => by rw [hst] at hi; cases hi)

omit [DecidableEq ι] in
theorem willSignal_of_idle
    (h : s.cancelling = none ∨ ∃ ops, s.cancelling = some (.next ops)) : WillSignal s := by
  constructor
  · rintro i ⟨loop, ops, hi⟩
    rcases h with h | ⟨ops', h⟩
    · rw [h] at hi
      cases hi
    · rw [h] at hi
      cases hi
  · rintro i ⟨loop, ops, hi⟩
    rcases h with h | ⟨ops', h⟩
    · rw [h] at hi
      cases hi
    · rw [h] at hi
      cases hi

omit [DecidableEq ι] in
/-- `cancel` marks an operation. -/
theorem mark_cases {s' : OperationQueue ι} {loop : Loop} {ops : List ι}
    (hc : s'.cancelling = some (.marked loop i ops)) :
    (InStart (s'.stage i) → WillSignal s') ∧ (¬ InStart (s'.stage i) → TooLate s') := by
  refine ⟨fun hi => ⟨fun j hj => ?_, fun j hj => ?_⟩, fun hi => ⟨i, ⟨loop, ops, hc⟩, hi⟩⟩
  · obtain ⟨loop', ops', hj⟩ := hj
    rw [hc] at hj
    cases hj
  · obtain ⟨loop', ops', hj⟩ := hj
    rw [hc] at hj
    obtain ⟨rfl, rfl, rfl⟩ := Cancel.marked.inj (Option.some.inj hj)
    exact hi

theorem WillSignal.cancelStep (h : WillSignal s) (hs : s.cancelStep = some s') :
    InTime s .cancelling ∧ WillSignal s' ∨ ¬ InTime s .cancelling ∧ TooLate s' := by
  have hin : (∀ i ops, s.cancelling ≠ some (.next (i :: ops))) → InTime s .cancelling :=
    fun hne i ops hi => absurd hi (hne i ops)
  unfold OperationQueue.cancelStep at hs
  split at hs
  · cases hs
  · rename_i i ops hc
    rw [← Option.some.inj hs]
    let marked := { s.setOp i fun o => { o with isCancelled := true } with
      cancelling := some (.marked .running i ops) }
    have hmarked : marked.cancelling = some (.marked .running i ops) := rfl
    have hmark := mark_cases hmarked
    by_cases hi : InStart (s.stage i)
    · refine Or.inl ⟨fun j ops' hj => ?_, hmark.1 hi⟩
      rw [hc] at hj
      obtain ⟨rfl, rfl⟩ := List.cons.inj (Cancel.next.inj (Option.some.inj hj))
      exact hi
    · exact Or.inr ⟨fun hin => hi (hin i ops hc), hmark.2 hi⟩
  · rename_i hc
    left
    split at hs
    · rw [← Option.some.inj hs]
      exact ⟨hin (by simp [hc]), willSignal_of_idle (Or.inl rfl)⟩
    · cases hs
  · rename_i loop i ops hc
    left
    rw [← Option.some.inj hs]
    refine ⟨hin (by simp [hc]), fun j hj => ?_, fun j hj => ?_⟩
    · obtain ⟨loop', ops', hj⟩ := hj
      obtain ⟨rfl, rfl, rfl⟩ := Cancel.waiting.inj (Option.some.inj hj)
      exact h.will_wait _ ⟨_, _, hc⟩
    · obtain ⟨loop', ops', hj⟩ := hj
      cases hj
  · cases hs
  · rename_i i ops hc
    left
    rw [← Option.some.inj hs]
    exact ⟨hin (by simp [hc]), willSignal_of_idle (Or.inr ⟨ops, rfl⟩)⟩
  · rename_i i ops hc
    left
    rw [← Option.some.inj hs]
    exact ⟨hin (by simp [hc]), willSignal_of_idle (Or.inr ⟨ops, rfl⟩)⟩

theorem WillSignal.cancelTopStep (hs : s.cancelTopStep priority i = some s') :
    InTime s (.cancelTop i) ∧ WillSignal s' ∨ ¬ InTime s (.cancelTop i) ∧ TooLate s' := by
  unfold OperationQueue.cancelTopStep at hs
  split at hs
  · rw [← Option.some.inj hs]
    let marked := { s.setOp i fun o => { o with isCancelled := true } with
      cancelling := some (.marked .unscheduled i []) }
    have hmarked : marked.cancelling = some (.marked .unscheduled i []) := rfl
    have hmark := mark_cases hmarked
    by_cases hi : InStart (s.stage i)
    · exact Or.inl ⟨hi, hmark.1 hi⟩
    · exact Or.inr ⟨hi, hmark.2 hi⟩
  · cases hs

theorem WillSignal.step (h : WillSignal s) {a : Move ι} (hs : step priority s a = some s') :
    InTime s a ∧ WillSignal s' ∨ ¬ InTime s a ∧ TooLate s' := by
  unfold OperationQueue.step at hs
  cases a with
  | main =>
    obtain ⟨hc, hst, -⟩ := mainStep_frame hs
    exact Or.inl ⟨trivial, h.of_same hc fun j hj => hst ▸ hj⟩
  | scheduler =>
    obtain ⟨hc, hst, -⟩ := schedulerStep_frame hs
    exact Or.inl ⟨trivial, h.of_same hc fun j hj => hst ▸ hj⟩
  | schedule i =>
    dsimp only at hs
    unfold scheduleStep at hs
    split at hs
    · rename_i hlock
      have hidle : s.cancelling = none := Option.isNone_iff_eq_none.mp hlock.2
      split at hs
      · rw [← Option.some.inj hs]
        exact Or.inl ⟨trivial, willSignal_of_idle (Or.inl hidle)⟩
      · split at hs
        · rw [← Option.some.inj hs]
          exact Or.inl ⟨trivial, willSignal_of_idle (Or.inl hidle)⟩
        · cases hs
    · cases hs
  | thread i => exact h.threadStep hs
  | returns i =>
    dsimp only at hs
    split at hs
    · rw [← Option.some.inj hs]
      exact Or.inl ⟨trivial, h.of_same rfl (inStart_goTo fun _ => trivial)⟩
    · cases hs
  | pause =>
    rw [← Option.some.inj hs]
    unfold pause
    split_ifs
    · exact Or.inl ⟨trivial, h⟩
    · exact Or.inl ⟨trivial, h.of_same rfl fun _ hj => hj⟩
    · exact Or.inl ⟨trivial, h⟩
  | resume =>
    rw [← Option.some.inj hs]
    unfold resume
    split_ifs
    · exact Or.inl ⟨trivial, h⟩
    · exact Or.inl ⟨trivial, h⟩
    · refine Or.inl ⟨trivial, h.of_same rfl fun j hj => ?_⟩
      dsimp only
      split
      · trivial
      · exact hj
  | cancel =>
    dsimp only at hs
    split at hs
    · rw [← Option.some.inj hs]
      exact Or.inl ⟨trivial, willSignal_of_idle (Or.inr ⟨_, rfl⟩)⟩
    · cases hs
  | cancelling => exact h.cancelStep hs
  | cancelTop i => exact WillSignal.cancelTopStep hs

/-- `cancel` goes on to wait for the operation that it comes too late for. -/
theorem TooLate.waits (h : TooLate s) :
    ∃ s' i, step priority s .cancelling = some s' ∧ s'.WaitsFor i ∧ ¬ InStart (s'.stage i) := by
  obtain ⟨i, ⟨loop, ops, hc⟩, hi⟩ := h
  refine ⟨{ s with cancelling := some (.waiting loop i ops) }, i, ?_, ⟨loop, ops, rfl⟩, hi⟩
  unfold OperationQueue.step cancelStep
  rw [hc]

/-- As long as `cancel` marks only operations that are in `start()`, and none signals between its
mark and the wait, `cancel` waits only for what will signal. A step of another kind makes it wait
for an operation that will not. -/
theorem cancel_waits_only_for_signals_while_in_time (priority : ι → Int) (ops : List ι)
    (capacity : Nat) (s : OperationQueue ι)
    (h : Reaches (step priority) InTime (start ops capacity) s) :
    (∀ i, s.WaitsFor i → InStart (s.stage i)) ∧
      ∀ a s', step priority s a = some s' → ¬ InTime s a →
        ∃ s'' i, step priority s' .cancelling = some s'' ∧ s''.WaitsFor i ∧
          ¬ InStart (s''.stage i) := by
  have hstart : WillSignal (start ops capacity) := willSignal_of_idle (Or.inl rfl)
  have hsound : WillSignal s := by
    refine h.invariant hstart fun t a t' ht hok hs => ?_
    rcases ht.step hs with ⟨-, ht'⟩ | ⟨hnot, -⟩
    · exact ht'
    · exact absurd hok hnot
  refine ⟨hsound.waits, fun a s' hs hnot => ?_⟩
  rcases hsound.step hs with ⟨hin, -⟩ | ⟨-, hlate⟩
  · exact absurd hin hnot
  · exact hlate.waits

end Cancel

/-! ### Two operations and one permit -/

/-- The first operation is executing, the second one is not scheduled. -/
def firstExecutes : List (Move Bool) :=
  [.main, .scheduler, .scheduler, .scheduler, .schedule false, .thread false, .thread false,
    .thread false]

/-- `cancel` waits for the first operation, which signals, and then for the second one. -/
def firstSignals : List (Move Bool) :=
  [.cancel, .cancelling, .cancelling, .returns false, .thread false, .thread false, .thread false,
    .cancelling, .cancelTop true, .cancelling]

theorem cancel_can_wait_for_an_operation_without_a_thread :
    ∃ s, Reachable (step fun _ => 0) (start [false, true] 1) s ∧ s.WaitsFor true ∧
      s.stage true = .none := by
  have hrun : (run (step fun _ => 0) (start [false, true] 1) (firstExecutes ++ firstSignals)).map
      (fun s => (s.cancelling, s.stage true)) =
        some (some (.waiting .unscheduled true []), .none) := by decide +kernel
  obtain ⟨s, hs, hend⟩ := Option.map_eq_some_iff.mp hrun
  obtain ⟨hcancel, hstage⟩ := Prod.mk.inj hend
  exact ⟨s, reachable_of_run hs, ⟨_, _, hcancel⟩, hstage⟩

theorem cancel_waits_only_for_signals_while_in_time_one_operation :
    ∃ s, run (step fun _ => 0) (start [false] 1)
        (firstExecutes ++ [.cancel, .cancelling, .cancelling]) = some s ∧ s.WaitsFor false ∧
      (∀ i, s.WaitsFor i → InStart (s.stage i)) ∧
      ∀ a s', step (fun _ => 0) s a = some s' → ¬ InTime s a →
        ∃ s'' i, step (fun _ => 0) s' .cancelling = some s'' ∧ s''.WaitsFor i ∧
          ¬ InStart (s''.stage i) := by
  have hrun : (run (step fun _ => 0) (start [false] 1)
      (firstExecutes ++ [.cancel, .cancelling, .cancelling])).map (·.cancelling) =
        some (some (.waiting .running false [])) := by decide +kernel
  obtain ⟨s, hs, hcancel⟩ := Option.map_eq_some_iff.mp hrun
  refine ⟨s, hs, ⟨_, _, hcancel⟩, cancel_waits_only_for_signals_while_in_time (fun _ => 0) [false] 1
    s (.of_meets ?_ hs)⟩
  refine .cons trivial rfl (.cons trivial rfl (.cons trivial rfl (.cons trivial rfl
    (.cons trivial rfl (.cons ?_ rfl (.cons ?_ rfl (.cons ?_ rfl (.cons trivial rfl
      (.cons ?_ rfl (.cons ?_ rfl trivial))))))))))
  · nofun
  · nofun
  · nofun
  · intro i ops hi
    cases hi
    trivial
  · nofun

end OperationQueue

end pwned
