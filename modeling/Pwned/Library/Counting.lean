-- How often things are in a list that grows, shrinks, or is looked at through
-- a function that changes in one place.
import Mathlib

namespace Counting

variable {ι β : Type*} [DecidableEq ι]

theorem count_concat (l : List ι) (i j : ι) :
    (l ++ [i]).count j = l.count j + if j = i then 1 else 0 := by
  rw [List.count_append, List.count_singleton]
  by_cases h : j = i
  · simp [h]
  · simp [h, Ne.symm h]

theorem count_remove (l : List ι) (i j : ι) :
    (l.filter (· ≠ i)).count j = if j = i then 0 else l.count j := by
  by_cases h : j = i
  · subst h
    rw [if_pos rfl, List.count_eq_zero]
    simp
  · rw [if_neg h, List.count_filter (by simpa using h)]

/-- A function that changes at an element that is in the list once changes the number of those
with a property by what happens to that element. -/
theorem countP_update {l : List ι} {p : β → Bool} {f : ι → β} {i : ι} {b : β}
    (hi : l.count i = 1) :
    (l.countP fun j => p (Function.update f i b j)) + (p (f i)).toNat =
      (l.countP fun j => p (f j)) + (p b).toNat := by
  induction l with
  | nil => cases hi
  | cons a l ih =>
    rw [List.countP_cons, List.countP_cons]
    by_cases ha : a = i
    · subst ha
      have hnot : a ∉ l := by
        rw [List.count_cons_self] at hi
        exact List.count_eq_zero.mp (by omega)
      have hsame : l.countP (fun j => p (Function.update f a b j)) = l.countP fun j => p (f j) := by
        apply List.countP_congr
        intro j hj
        rw [Function.update_of_ne (ne_of_mem_of_not_mem hj hnot)]
      rw [hsame, Function.update_self]
      cases p b <;> cases p (f a) <;> simp
    · rw [List.count_cons_of_ne ha] at hi
      have hind := ih hi
      rw [Function.update_of_ne ha]
      omega

/-- An element that is new in the list adds what happens to it. -/
theorem countP_concat_update {l : List ι} {p : β → Bool} {f : ι → β} {i : ι} {b : β}
    (hi : i ∉ l) :
    ((l ++ [i]).countP fun j => p (Function.update f i b j)) =
      (l.countP fun j => p (f j)) + (p b).toNat := by
  have hsame : l.countP (fun j => p (Function.update f i b j)) = l.countP fun j => p (f j) := by
    apply List.countP_congr
    intro j hj
    rw [Function.update_of_ne (ne_of_mem_of_not_mem hj hi)]
  rw [List.countP_append, hsame, List.countP_singleton, Function.update_self]
  cases p b <;> rfl

/-- A function that changes at an element that is in the list once changes a sum over the list by
what happens to that element. -/
theorem sum_update {l : List ι} {g : β → Nat} {f : ι → β} {i : ι} {b : β} (hi : l.count i = 1) :
    (l.map fun j => g (Function.update f i b j)).sum + g (f i) =
      (l.map fun j => g (f j)).sum + g b := by
  have hmem : i ∈ l := List.count_pos_iff.mp (by omega)
  have hnot : i ∉ l.erase i := by
    rw [← List.count_eq_zero, List.count_erase_self, hi]
  have hperm := List.perm_cons_erase hmem
  have hsame : (l.erase i).map (fun j => g (Function.update f i b j)) =
      (l.erase i).map fun j => g (f j) := by
    apply List.map_congr_left
    intro j hj
    rw [Function.update_of_ne (ne_of_mem_of_not_mem hj hnot)]
  rw [(hperm.map _).sum_eq, (hperm.map fun j => g (f j)).sum_eq, List.map_cons, List.map_cons,
    List.sum_cons, List.sum_cons, hsame, Function.update_self]
  omega

/-- An element that is new in the list adds what happens to it. -/
theorem sum_concat_update {l : List ι} {g : β → Nat} {f : ι → β} {i : ι} {b : β} (hi : i ∉ l) :
    ((l ++ [i]).map fun j => g (Function.update f i b j)).sum =
      (l.map fun j => g (f j)).sum + g b := by
  have hsame : l.map (fun j => g (Function.update f i b j)) = l.map fun j => g (f j) := by
    apply List.map_congr_left
    intro j hj
    rw [Function.update_of_ne (ne_of_mem_of_not_mem hj hi)]
  rw [List.map_append, List.sum_append, hsame, List.map_singleton, List.sum_singleton,
    Function.update_self]

omit [DecidableEq ι] in
/-- A sum over a list whose terms are bounded where a property holds and zero elsewhere. -/
theorem sum_le_countP_mul {l : List ι} {p : ι → Bool} {g : ι → Nat} {b : Nat}
    (h : ∀ i ∈ l, g i ≤ if p i then b else 0) : (l.map g).sum ≤ l.countP p * b := by
  induction l with
  | nil => simp
  | cons i l ih =>
    have hfirst := h i List.mem_cons_self
    have hrest := ih fun j hj => h j (List.mem_cons_of_mem _ hj)
    rw [List.map_cons, List.sum_cons, List.countP_cons, Nat.add_mul]
    cases hp : p i
    · simp only [hp, Bool.false_eq_true, if_false] at hfirst ⊢
      omega
    · simp only [hp, if_true] at hfirst ⊢
      omega

end Counting
