-- Loops that may not end, run with fuel. A loop yields a value when it gives
-- that value with every amount of fuel from some amount on.
import Mathlib

/-- With enough fuel the loop gives `a`. -/
def Yields {α : Type*} (run : Nat → Option α) (a : α) : Prop :=
  ∃ enough, ∀ fuel ≥ enough, run fuel = some a

/-- The loop ends. -/
def Ends {α : Type*} (run : Nat → Option α) : Prop := ∃ a, Yields run a

namespace Yields

variable {α β : Type*} {run : Nat → Option α} {a b : α}

theorem unique (ha : Yields run a) (hb : Yields run b) : a = b := by
  obtain ⟨m, hm⟩ := ha
  obtain ⟨n, hn⟩ := hb
  have h₁ := hm (max m n) (le_max_left _ _)
  have h₂ := hn (max m n) (le_max_right _ _)
  exact Option.some.inj (h₁.symm.trans h₂)

theorem of_eq (h : ∀ fuel, run fuel = some a) : Yields run a := ⟨0, fun fuel _ => h fuel⟩

/-- One turn of a loop: what the loop gives with `n` more fuel is what it gives. -/
theorem of_shift (n : Nat) (h : Yields (fun fuel => run (fuel + n)) a) : Yields run a := by
  obtain ⟨m, hm⟩ := h
  refine ⟨m + n, fun fuel hf => ?_⟩
  have hsub : fuel - n + n = fuel := by omega
  exact hsub ▸ hm (fuel - n) (by omega)

/-- A loop after a loop. -/
theorem bind (next : α → Nat → Option β) {b : β} (ha : Yields run a) (hb : Yields (next a) b) :
    Yields (fun fuel => (run fuel).bind fun x => next x fuel) b := by
  obtain ⟨m, hm⟩ := ha
  obtain ⟨n, hn⟩ := hb
  refine ⟨max m n, fun fuel hf => ?_⟩
  simp [hm fuel (le_of_max_le_left hf), hn fuel (le_of_max_le_right hf)]

theorem map (f : α → β) (ha : Yields run a) : Yields (fun fuel => (run fuel).map f) (f a) := by
  obtain ⟨m, hm⟩ := ha
  exact ⟨m, fun fuel hf => by simp [hm fuel hf]⟩

theorem of_map {f : α → β} {b : β} (h : Yields (fun fuel => (run fuel).map f) b) :
    ∃ enough, ∀ fuel ≥ enough, ∃ a, run fuel = some a ∧ f a = b := by
  obtain ⟨m, hm⟩ := h
  exact ⟨m, fun fuel hf => Option.map_eq_some_iff.mp (hm fuel hf)⟩

end Yields

/-- No amount of fuel from some amount on is enough. -/
def Diverges {α : Type*} (run : Nat → Option α) : Prop := ∃ n, ∀ fuel ≥ n, run fuel = none

namespace Diverges

variable {α β : Type*} {run : Nat → Option α} {a : α}

theorem not_yields (h : Diverges run) : ¬ Yields run a := by
  rintro ⟨m, hm⟩
  obtain ⟨n, hn⟩ := h
  have hsome := hm (max m n) (le_max_left _ _)
  rw [hn (max m n) (le_max_right _ _)] at hsome
  cases hsome

theorem not_ends (h : Diverges run) : ¬ Ends run := fun ⟨_, ha⟩ => h.not_yields ha

/-- What comes behind a loop that does not end. -/
theorem bind (next : α → Nat → Option β) (h : Diverges run) :
    Diverges fun fuel => (run fuel).bind fun x => next x fuel := by
  obtain ⟨n, hn⟩ := h
  exact ⟨n, fun fuel hf => by simp only [hn fuel hf, Option.bind_none]⟩

theorem map (f : α → β) (h : Diverges run) : Diverges fun fuel => (run fuel).map f := by
  obtain ⟨n, hn⟩ := h
  exact ⟨n, fun fuel hf => by simp only [hn fuel hf, Option.map_none]⟩

end Diverges

/-! ## Loops with a turn function -/

/-- A loop whose turn either goes on with a new state or ends with a result. -/
def loop {σ τ : Type*} (turn : σ → σ ⊕ τ) : Nat → σ → Option τ
  | 0, _ => none
  | fuel + 1, s =>
    match turn s with
    | .inl s => loop turn fuel s
    | .inr t => some t

/-- A loop ends with `Post` if every turn keeps the invariant and makes the measure smaller, and
the last turn gives `Post`. -/
theorem loop_yields {σ τ : Type*} (turn : σ → σ ⊕ τ) (Inv : σ → Prop) (Post : τ → Prop)
    (measure : σ → Nat)
    (go : ∀ s s', Inv s → turn s = .inl s' → Inv s' ∧ measure s' < measure s)
    (stop : ∀ s t, Inv s → turn s = .inr t → Post t) {s : σ} (h : Inv s) :
    ∃ t, Yields (fun fuel => loop turn fuel s) t ∧ Post t := by
  induction hm : measure s using Nat.strong_induction_on generalizing s with
  | _ m ih =>
    cases ht : turn s with
    | inl s' =>
      obtain ⟨hinv, hlt⟩ := go s s' h ht
      obtain ⟨t, hy, hpost⟩ := ih _ (hm ▸ hlt) hinv rfl
      refine ⟨t, Yields.of_shift 1 ?_, hpost⟩
      simpa only [loop, ht] using hy
    | inr t =>
      refine ⟨t, Yields.of_shift 1 (Yields.of_eq fun fuel => ?_), stop s t h ht⟩
      simp only [loop, ht]

/-- A loop that ended once gives its result with any more fuel. -/
theorem loop_yields_of_eq {σ τ : Type*} (turn : σ → σ ⊕ τ) {n : Nat} {s : σ} {t : τ}
    (h : loop turn n s = some t) : Yields (fun fuel => loop turn fuel s) t := by
  induction n generalizing s with
  | zero => cases h
  | succ n ih =>
    refine Yields.of_shift 1 ?_
    unfold loop at h ⊢
    cases ht : turn s with
    | inl s' =>
      rw [ht] at h
      exact ih h
    | inr t' =>
      rw [ht] at h
      exact Yields.of_eq fun _ => h

theorem Diverges.loop_eq_none {σ τ : Type*} {turn : σ → σ ⊕ τ} {s : σ}
    (h : Diverges fun fuel => loop turn fuel s) (fuel : Nat) : loop turn fuel s = none := by
  cases hrun : loop turn fuel s with
  | none => rfl
  | some t => exact absurd (loop_yields_of_eq turn hrun) h.not_yields

/-- A loop whose turns keep going on does not end. -/
theorem loop_diverges {σ τ : Type*} (turn : σ → σ ⊕ τ) (Inv : σ → Prop)
    (go : ∀ s, Inv s → ∃ s', turn s = .inl s' ∧ Inv s') {s : σ} (h : Inv s) :
    Diverges fun fuel => loop turn fuel s := by
  have hnone : ∀ fuel, loop turn fuel s = none := by
    intro fuel
    induction fuel generalizing s with
    | zero => rfl
    | succ fuel ih =>
      obtain ⟨s', ht, hs'⟩ := go s h
      rw [loop, ht]
      exact ih hs'
  exact ⟨0, fun fuel _ => hnone fuel⟩

/-- A loop that follows another turn by turn ends when the other does. -/
theorem loop_simulates {σ τ σ' τ' : Type*} (turn : σ → σ ⊕ τ) (turn' : σ' → σ' ⊕ τ')
    (R : σ → σ' → Prop) (Post : τ → τ' → Prop)
    (go : ∀ s s' u', R s s' → turn' s' = .inl u' → ∃ u, turn s = .inl u ∧ R u u')
    (stop : ∀ s s' t', R s s' → turn' s' = .inr t' → ∃ t, turn s = .inr t ∧ Post t t')
    {s : σ} {s' : σ'} {t' : τ'} (h : R s s') (hy : Yields (fun fuel => loop turn' fuel s') t') :
    ∃ t, Yields (fun fuel => loop turn fuel s) t ∧ Post t t' := by
  obtain ⟨n, hn⟩ := hy
  have hend : loop turn' n s' = some t' := hn n le_rfl
  clear hn
  have hrun : ∃ t, loop turn n s = some t ∧ Post t t' := by
    induction n generalizing s s' with
    | zero => cases hend
    | succ n ih =>
      unfold loop at hend ⊢
      cases ht : turn' s' with
      | inl u' =>
        rw [ht] at hend
        obtain ⟨u, hu, hR⟩ := go s s' u' h ht
        rw [hu]
        exact ih hR hend
      | inr v' =>
        rw [ht] at hend
        obtain rfl : v' = t' := Option.some.inj hend
        obtain ⟨v, hv, hpost⟩ := stop s s' v' h ht
        rw [hv]
        exact ⟨v, rfl, hpost⟩
  obtain ⟨t, ht, hpost⟩ := hrun
  exact ⟨t, loop_yields_of_eq turn ht, hpost⟩

/-- What every turn keeps holds in front of the last turn of a loop that ends. -/
theorem loop_post {σ τ : Type*} (turn : σ → σ ⊕ τ) (Inv : σ → Prop) (Post : τ → Prop)
    (go : ∀ s s', Inv s → turn s = .inl s' → Inv s')
    (stop : ∀ s t, Inv s → turn s = .inr t → Post t) {s : σ} {t : τ} (h : Inv s)
    (hy : Yields (fun fuel => loop turn fuel s) t) : Post t := by
  obtain ⟨t', -, rfl, hpost⟩ := loop_simulates turn turn (fun s s' => s = s' ∧ Inv s)
    (fun t t' => t = t' ∧ Post t)
    (by
      rintro s _ u ⟨rfl, hs⟩ hturn
      exact ⟨u, hturn, rfl, go s u hs hturn⟩)
    (by
      rintro s _ t ⟨rfl, hs⟩ hturn
      exact ⟨t, hturn, rfl, stop s t hs hturn⟩)
    ⟨rfl, h⟩ hy
  exact hpost
