-- The largest element of a list by a key, the first one of several.
import Mathlib

namespace MaxElement

variable {α β : Type*} [LinearOrder β] (f : α → β)

/-- One comparison. An element with the same key does not take the place of an earlier one. -/
def better (best : Option α) (a : α) : Option α :=
  match best with
  | none => some a
  | some b => if f b < f a then some a else some b

/-- `std::max_element` -/
def maxElement (l : List α) : Option α := l.foldl (better f) none

/-- `m` is the first of the largest elements. -/
structure FirstMax (l : List α) (m : α) : Prop where
  mem : m ∈ l
  le : ∀ a ∈ l, f a ≤ f m
  before : ∃ l₁ l₂, l = l₁ ++ m :: l₂ ∧ ∀ a ∈ l₁, f a < f m

/-- In a sorted list the keys of the elements in front of `m` are smaller. -/
theorem FirstMax.lt_of_pairwise {l : List α} {m a : α} {R : α → α → Prop} (h : FirstMax f l m)
    (hl : l.Pairwise R) (ha : a ∈ l) (hne : a ≠ m) (hR : ¬ R m a) : f a < f m := by
  obtain ⟨l₁, l₂, rfl, hlt⟩ := h.before
  apply hlt
  have hbehind := (List.pairwise_cons.mp (List.pairwise_append.mp hl).2.1).1
  rcases List.mem_append.mp ha with ha | ha
  · exact ha
  · rcases List.mem_cons.mp ha with ha | ha
    · exact absurd ha hne
    · exact absurd (hbehind a ha) hR

theorem firstMax_singleton (a : α) : FirstMax f [a] a := by
  refine ⟨List.mem_singleton_self a, ?_, [], [], rfl, fun _ h => nomatch h⟩
  intro b hb
  rw [List.mem_singleton.mp hb]

/-- One more element behind the list. -/
theorem FirstMax.snoc {l : List α} {m : α} (h : FirstMax f l m) (a : α) :
    FirstMax f (l ++ [a]) (if f m < f a then a else m) := by
  obtain ⟨l₁, l₂, hl, hlt⟩ := h.before
  split
  · rename_i hma
    refine ⟨by simp, ?_, l, [], rfl, fun b hb => (h.le b hb).trans_lt hma⟩
    intro b hb
    rcases List.mem_append.mp hb with hb | hb
    · exact ((h.le b hb).trans_lt hma).le
    · rw [List.mem_singleton.mp hb]
  · rename_i hma
    refine ⟨List.mem_append_left _ h.mem, ?_, l₁, l₂ ++ [a], by simp [hl], hlt⟩
    intro b hb
    rcases List.mem_append.mp hb with hb | hb
    · exact h.le b hb
    · rw [List.mem_singleton.mp hb]
      exact not_lt.mp hma

/-- The scan goes on with the first of the largest elements so far. -/
theorem foldl_better {l : List α} {m : α} (h : FirstMax f l m) (rest : List α) :
    ∃ m', rest.foldl (better f) (some m) = some m' ∧ FirstMax f (l ++ rest) m' := by
  induction rest generalizing l m with
  | nil => exact ⟨m, rfl, by rwa [List.append_nil]⟩
  | cons a rest ih =>
    obtain ⟨m', he, hm'⟩ := ih (h.snoc f a)
    refine ⟨m', ?_, by simpa using hm'⟩
    rw [← he, List.foldl_cons]
    congr 1
    unfold better
    dsimp only
    split <;> rfl

theorem maxElement_cons (a : α) (l : List α) :
    ∃ m, maxElement f (a :: l) = some m ∧ FirstMax f (a :: l) m :=
  foldl_better f (firstMax_singleton f a) l

theorem maxElement_eq_none_iff (l : List α) : maxElement f l = none ↔ l = [] := by
  cases l with
  | nil => exact ⟨fun _ => rfl, fun _ => rfl⟩
  | cons a l =>
    obtain ⟨m, hm, -⟩ := maxElement_cons f a l
    simp [hm]

theorem maxElement_firstMax {l : List α} {m : α} (h : maxElement f l = some m) :
    FirstMax f l m := by
  cases l with
  | nil => cases h
  | cons a l =>
    obtain ⟨m', hm', hmax⟩ := maxElement_cons f a l
    rw [hm'] at h
    rwa [← Option.some.inj h]

end MaxElement
