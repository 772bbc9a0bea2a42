-- Priority queues kept in a vector as a heap. Which of several elements with
-- the smallest key is the top is left to the implementation.
import Mathlib

/-- A priority queue with the smallest key on top, which is the front of the vector. A pop
never looks at the element it removes, so it is given what stands behind the top. -/
structure PriorityQueue {α κ : Type*} [LinearOrder κ] (key : α → κ) where
  push : α → List α → List α
  pop : List α → List α
  IsHeap : List α → Prop
  push_perm : ∀ x c, (push x c).Perm (x :: c)
  pop_perm : ∀ c, (pop c).Perm c
  isHeap_nil : IsHeap []
  isHeap_push : ∀ x c, IsHeap c → IsHeap (push x c)
  isHeap_pop : ∀ x c, IsHeap (x :: c) → IsHeap (pop c)
  top_le : ∀ x c, IsHeap (x :: c) → ∀ y ∈ c, key x ≤ key y

namespace PriorityQueue

variable {α κ β : Type*} [LinearOrder κ] [LinearOrder β] {key : α → κ}

theorem mem_push (Q : PriorityQueue key) (x : α) (c : List α) (y : α) :
    y ∈ Q.push x c ↔ y = x ∨ y ∈ c := by
  rw [(Q.push_perm x c).mem_iff, List.mem_cons]

theorem mem_pop (Q : PriorityQueue key) (c : List α) (y : α) : y ∈ Q.pop c ↔ y ∈ c :=
  (Q.pop_perm c).mem_iff

theorem push_ne_nil (Q : PriorityQueue key) (x : α) (c : List α) : Q.push x c ≠ [] := by
  intro h
  have hmem := (Q.mem_push x c x).mpr (Or.inl rfl)
  rw [h] at hmem
  cases hmem

theorem pop_eq_nil (Q : PriorityQueue key) (c : List α) : Q.pop c = [] ↔ c = [] := by
  rw [← List.length_eq_zero_iff, (Q.pop_perm c).length_eq, List.length_eq_zero_iff]

/-- The queue that keeps its elements sorted by a rank that refines the key. -/
def sorted (rank : α → β) (h : ∀ x y, rank x ≤ rank y → key x ≤ key y) : PriorityQueue key where
  push := List.orderedInsert fun x y => rank x ≤ rank y
  pop c := c
  IsHeap c := c.Pairwise fun x y => rank x ≤ rank y
  push_perm x c := List.perm_orderedInsert _ x c
  pop_perm c := List.Perm.refl c
  isHeap_nil := List.Pairwise.nil
  isHeap_push x c hc := by
    have htotal : Std.Total fun x y : α => rank x ≤ rank y := ⟨fun x y => le_total _ _⟩
    have htrans : IsTrans α fun x y => rank x ≤ rank y := ⟨fun x y z => le_trans⟩
    exact List.Pairwise.orderedInsert x c hc
  isHeap_pop _ _ h := (List.pairwise_cons.mp h).2
  top_le x _ hx y hy := h x y ((List.pairwise_cons.mp hx).1 y hy)

/-- The top of a sorted queue has the smallest rank. -/
theorem sorted_top_le {rank : α → β} {h : ∀ x y, rank x ≤ rank y → key x ≤ key y} {x : α}
    {c : List α} (hx : (sorted rank h).IsHeap (x :: c)) : ∀ y ∈ c, rank x ≤ rank y :=
  (List.pairwise_cons.mp hx).1

/-! ## Queues that do not see all of an element -/

/-- The queue looks at nothing but `look`: elements that look the same move alike. -/
structure LooksAt {γ : Type*} (Q : PriorityQueue key) (look : α → γ) : Prop where
  push : ∀ {x y c d}, look x = look y → c.map look = d.map look →
    (Q.push x c).map look = (Q.push y d).map look
  pop : ∀ {c d}, c.map look = d.map look → (Q.pop c).map look = (Q.pop d).map look

/-- A sorted queue looks at nothing but the rank. -/
theorem sorted_looksAt {γ : Type*} {rank : α → β} (h : ∀ x y, rank x ≤ rank y → key x ≤ key y)
    {look : α → γ} (hlook : ∀ x y, look x = look y → rank x = rank y) :
    (sorted rank h).LooksAt look where
  push := by
    intro x y c d hxy hcd
    change (List.orderedInsert _ x c).map look = (List.orderedInsert _ y d).map look
    induction c generalizing d with
    | nil =>
      obtain rfl : d = [] := List.map_eq_nil_iff.mp hcd.symm
      simp [hxy]
    | cons z c ih =>
      obtain ⟨w, d, rfl, hw, hd⟩ := List.map_eq_cons_iff.mp hcd.symm
      rw [List.orderedInsert_cons, List.orderedInsert_cons, hlook x y hxy, hlook z w hw.symm]
      split
      · simp [hxy, hw, hd]
      · simp [hw, ih hd.symm]
  pop := fun h => h

end PriorityQueue
