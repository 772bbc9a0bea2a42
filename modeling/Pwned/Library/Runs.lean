-- Machines that take one step after the other, in whatever order their
-- parties move. A run is a list of moves, and what every step keeps holds
-- in every state that a run comes to.
import Mathlib

section Runs

variable {σ α : Type*} (step : σ → α → Option σ)

/-- The states that a run from `start` comes to, where every step meets the condition `ok`. -/
inductive Reaches (ok : σ → α → Prop) (start : σ) : σ → Prop
  | start : Reaches ok start start
  | step {s s' : σ} {a : α} : Reaches ok start s → ok s a → step s a = some s' →
      Reaches ok start s'

/-- The states that any run comes to. -/
abbrev Reachable (start : σ) : σ → Prop := Reaches step (fun _ _ => True) start

/-- The state behind a list of moves. -/
def run : σ → List α → Option σ
  | s, [] => some s
  | s, a :: as => (step s a).bind fun s' => run s' as

variable {step} {ok : σ → α → Prop} {start s s' : σ}

/-- What holds at the start and is kept by every step holds in every state reached. -/
theorem Reaches.invariant {Inv : σ → Prop} (hstart : Inv start)
    (hstep : ∀ s a s', Inv s → ok s a → step s a = some s' → Inv s') (h : Reaches step ok start s) :
    Inv s := by
  induction h with
  | start => exact hstart
  | step _ hok hs ih => exact hstep _ _ _ ih hok hs

theorem Reaches.trans {t : σ} (h : Reaches step ok start s) (h' : Reaches step ok s t) :
    Reaches step ok start t := by
  induction h' with
  | start => exact h
  | step _ hok hs ih => exact .step ih hok hs

/-- A part of a machine reaches what a machine of its own reaches, if every step leaves it alone or is
a step of that machine. -/
theorem Reaches.project {τ β : Type*} {step' : τ → β → Option τ} {ok' : τ → β → Prop} (f : σ → τ)
    (hstep : ∀ s a s', ok s a → step s a = some s' →
      f s' = f s ∨ ∃ b, ok' (f s) b ∧ step' (f s) b = some (f s'))
    (h : Reaches step ok start s) : Reaches step' ok' (f start) (f s) := by
  induction h with
  | start => exact .start
  | step _ hok hs ih =>
    rcases hstep _ _ _ hok hs with hsame | ⟨b, hb, hs'⟩
    · rwa [hsame]
    · exact .step ih hb hs'

theorem run_cons {a : α} {as : List α} (h : step s a = some s') :
    run step s (a :: as) = run step s' as := by
  rw [run, h, Option.bind_some]

/-- Every move of a run meets the condition. -/
def Meets (step : σ → α → Option σ) (ok : σ → α → Prop) : σ → List α → Prop
  | _, [] => True
  | s, a :: as => ok s a ∧ ∀ s', step s a = some s' → Meets step ok s' as

instance decidableMeets [∀ s a, Decidable (ok s a)] :
    ∀ s as, Decidable (Meets step ok s as)
  | _, [] => .isTrue trivial
  | s, a :: as =>
    match hs : step s a with
    | none => decidable_of_iff (ok s a) (by simp [Meets, hs])
    | some s' =>
      have := decidableMeets s' as
      decidable_of_iff (ok s a ∧ Meets step ok s' as) (by simp [Meets, hs])

theorem Meets.cons {a : α} {as : List α} (hok : ok s a) (hs : step s a = some s')
    (h : Meets step ok s' as) : Meets step ok s (a :: as) := by
  refine ⟨hok, fun t ht => ?_⟩
  rw [hs] at ht
  rwa [← Option.some.inj ht]

theorem Reaches.of_meets {as : List α} (hok : Meets step ok s as)
    (h : run step s as = some s') : Reaches step ok s s' := by
  induction as generalizing s with
  | nil =>
    rw [← Option.some.inj h]
    exact .start
  | cons a as ih =>
    obtain ⟨t, ht, hrun⟩ := Option.bind_eq_some_iff.mp h
    have hfirst : Reaches step ok s t := .step .start hok.1 ht
    exact hfirst.trans (ih (hok.2 t ht) hrun)

theorem Meets.of_forall {as : List α} (h : ∀ s, ∀ a ∈ as, ok s a) (s : σ) :
    Meets step ok s as := by
  induction as generalizing s with
  | nil => trivial
  | cons a as ih =>
    exact ⟨h s a (by simp), fun s' _ => ih (fun t b hb => h t b (List.mem_cons_of_mem _ hb)) s'⟩

/-- The moves of a run that all meet the condition in every state. -/
theorem Reaches.of_run {as : List α} (hok : ∀ s, ∀ a ∈ as, ok s a)
    (h : run step s as = some s') : Reaches step ok s s' :=
  .of_meets (.of_forall hok s) h

/-- A run whose every step meets the condition and makes the measure smaller is no longer than the
measure says. -/
theorem Meets.run_measure {Inv : σ → Prop} (measure : σ → Nat)
    (hstep : ∀ s a s', Inv s → ok s a → step s a = some s' → Inv s' ∧ measure s' < measure s)
    {as : List α} (hok : Meets step ok s as) (h : Inv s) (hrun : run step s as = some s') :
    Inv s' ∧ as.length + measure s' ≤ measure s := by
  induction as generalizing s with
  | nil =>
    rw [← Option.some.inj hrun]
    exact ⟨h, by simp⟩
  | cons a as ih =>
    obtain ⟨t, ht, hrest⟩ := Option.bind_eq_some_iff.mp hrun
    obtain ⟨hinv, hlt⟩ := hstep s a t h hok.1 ht
    obtain ⟨hinv', hle⟩ := ih (hok.2 t ht) hinv hrest
    exact ⟨hinv', by rw [List.length_cons]; omega⟩

/-- A run whose every step meets the condition and takes one off the measure is as long as the
measure says. -/
theorem Meets.run_exact {Inv : σ → Prop} (measure : σ → Nat)
    (hstep : ∀ s a s', Inv s → ok s a → step s a = some s' → Inv s' ∧ measure s' + 1 = measure s)
    {as : List α} (hok : Meets step ok s as) (h : Inv s) (hrun : run step s as = some s') :
    Inv s' ∧ as.length + measure s' = measure s := by
  induction as generalizing s with
  | nil =>
    rw [← Option.some.inj hrun]
    exact ⟨h, by simp⟩
  | cons a as ih =>
    obtain ⟨t, ht, hrest⟩ := Option.bind_eq_some_iff.mp hrun
    obtain ⟨hinv, hone⟩ := hstep s a t h hok.1 ht
    obtain ⟨hinv', heq⟩ := ih (hok.2 t ht) hinv hrest
    exact ⟨hinv', by rw [List.length_cons]; omega⟩

/-- A run whose every step makes the measure smaller is no longer than the measure says. -/
theorem run_measure {Inv : σ → Prop} (measure : σ → Nat)
    (hstep : ∀ s a s', Inv s → step s a = some s' → Inv s' ∧ measure s' < measure s)
    {as : List α} (h : Inv s) (hrun : run step s as = some s') :
    Inv s' ∧ as.length + measure s' ≤ measure s := by
  have hall : Meets step (fun _ _ => True) s as := .of_forall (fun _ _ _ => trivial) s
  exact hall.run_measure measure (fun s a s' hs _ => hstep s a s' hs) h hrun

theorem reachable_of_run {as : List α} (h : run step s as = some s') : Reachable step s s' :=
  Reaches.of_run (fun _ _ _ => trivial) h

end Runs
