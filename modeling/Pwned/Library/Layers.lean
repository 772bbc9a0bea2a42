-- Work lists from which the first `m` items are merged into one, which goes to
-- the end of the list. The new item is a level above those that it is made of.
import Mathlib

/-- The levels of a list that began with `n` items on level 0. There are items on two levels at
most, and no more on each than if all items below had been merged `m` at once. -/
structure Layers (m n : Nat) (levels : List Nat) (a p q : Nat) : Prop where
  eq : levels = List.replicate p a ++ List.replicate q (a + 1)
  pos : 0 < p
  width : (p + q - 1) * m ^ a < n
  next : (q + p / m - 1) * m ^ (a + 1) < n
  reached : a ≠ 0 ∨ q ≠ 0 → m ^ a < n

def Layered (m n : Nat) (levels : List Nat) : Prop := ∃ a p q, Layers m n levels a p q

section Layers

variable {m n a p q : Nat} {levels : List Nat}

theorem layered_replicate (hm : 2 ≤ m) (hn : 0 < n) : Layered m n (List.replicate n 0) := by
  refine ⟨0, n, 0, by simp, hn, by simp; omega, ?_, by simp⟩
  have hle := Nat.div_mul_le_self n m
  rw [Nat.zero_add, Nat.zero_add, pow_one, Nat.sub_mul, Nat.one_mul]
  omega

namespace Layers

theorem length_eq (h : Layers m n levels a p q) : levels.length = p + q := by
  rw [h.eq]
  simp

/-- A level that is wider than one merge is not the last one. -/
theorem pow_lt (h : Layers m n levels a p q) (hlt : m < p + q) : m ^ (a + 1) < n := by
  have hle : m * m ^ a ≤ (p + q - 1) * m ^ a := Nat.mul_le_mul_right _ (by omega)
  rw [pow_succ']
  exact hle.trans_lt h.width

/-- What is made of a level is no wider than the level allows. -/
theorem mul_pow_lt {k w : Nat} (hk : k * m ^ (a + 1) < n) (hw : w * m ≤ k) :
    w * m ^ (a + 1 + 1) < n := by
  have hle : w * m * m ^ (a + 1) ≤ k * m ^ (a + 1) := Nat.mul_le_mul_right _ hw
  rw [pow_succ' m (a + 1), ← Nat.mul_assoc]
  exact hle.trans_lt hk

/-- Not enough items are left on the lower level, so the merge goes on with the upper one. -/
theorem step_of_lt (h : Layers m n levels a p q) (hlt : m < p + q) (hp : p < m) :
    ∃ l ∈ levels.take m, (∀ l' ∈ levels.take m, l' ≤ l) ∧
      Layered m n (levels.drop m ++ [l + 1]) := by
  have htake : levels.take m = List.replicate p a ++ List.replicate (m - p) (a + 1) := by
    rw [h.eq, List.take_append, List.take_replicate, List.take_replicate, List.length_replicate,
      Nat.min_eq_right hp.le, Nat.min_eq_left (by omega)]
  have hdrop : levels.drop m = List.replicate (q - (m - p)) (a + 1) := by
    rw [h.eq, List.drop_append, List.drop_replicate, List.drop_replicate, List.length_replicate,
      Nat.sub_eq_zero_of_le hp.le]
    rfl
  have hnext := h.next
  rw [Nat.div_eq_of_lt hp, Nat.add_zero] at hnext
  refine ⟨a + 1, ?_, fun l' hl' => ?_, a + 1, q - (m - p), 1, ?_, by omega, ?_, ?_, ?_⟩
  · rw [htake, List.mem_append, List.mem_replicate]
    exact Or.inr (by simp; omega)
  · rw [htake, List.mem_append, List.mem_replicate, List.mem_replicate] at hl'
    omega
  · rw [hdrop]
    rfl
  · have hle : (q - (m - p) + 1 - 1) * m ^ (a + 1) ≤ (q - 1) * m ^ (a + 1) :=
      Nat.mul_le_mul_right _ (by omega)
    exact hle.trans_lt hnext
  · refine mul_pow_lt hnext ?_
    have hle := Nat.div_mul_le_self (q - (m - p)) m
    rw [Nat.add_sub_cancel_left]
    omega
  · exact fun _ => h.pow_lt hlt

/-- The merge takes all that is left on the lower level. -/
theorem step_of_eq (h : Layers m n levels a m q) (hlt : m < m + q) (hm : 2 ≤ m) :
    ∃ l ∈ levels.take m, (∀ l' ∈ levels.take m, l' ≤ l) ∧
      Layered m n (levels.drop m ++ [l + 1]) := by
  have htake : levels.take m = List.replicate m a := by
    rw [h.eq, List.take_left' (by simp)]
  have hdrop : levels.drop m = List.replicate q (a + 1) := by
    rw [h.eq, List.drop_left' (by simp)]
  have hnext := h.next
  rw [Nat.div_self (by omega), Nat.add_sub_cancel] at hnext
  refine ⟨a, ?_, fun l' hl' => ?_, a + 1, q + 1, 0, ?_, by omega, hnext, ?_, ?_⟩
  · rw [htake, List.mem_replicate]
    omega
  · rw [htake, List.mem_replicate] at hl'
    omega
  · rw [hdrop, List.replicate_succ', List.replicate_zero, List.append_nil]
  · refine mul_pow_lt hnext ?_
    have hle := Nat.div_mul_le_self (q + 1) m
    rw [Nat.zero_add, Nat.sub_mul, Nat.one_mul]
    omega
  · exact fun _ => h.pow_lt hlt

/-- The merge leaves items on the lower level. -/
theorem step_of_gt (h : Layers m n levels a p q) (hlt : m < p + q) (hm : 2 ≤ m) (hp : m < p) :
    ∃ l ∈ levels.take m, (∀ l' ∈ levels.take m, l' ≤ l) ∧
      Layered m n (levels.drop m ++ [l + 1]) := by
  have htake : levels.take m = List.replicate m a := by
    rw [h.eq, List.take_append_of_le_length (by simp; omega), List.take_replicate,
      Nat.min_eq_left hp.le]
  have hdrop : levels.drop m = List.replicate (p - m) a ++ List.replicate q (a + 1) := by
    rw [h.eq, List.drop_append_of_le_length (by simp; omega), List.drop_replicate]
  refine ⟨a, ?_, fun l' hl' => ?_, a, p - m, q + 1, ?_, by omega, ?_, ?_, fun _ => ?_⟩
  · rw [htake, List.mem_replicate]
    omega
  · rw [htake, List.mem_replicate] at hl'
    omega
  · rw [hdrop, List.replicate_succ', List.append_assoc]
  · have hle : (p - m + (q + 1) - 1) * m ^ a ≤ (p + q - 1) * m ^ a :=
      Nat.mul_le_mul_right _ (by omega)
    exact hle.trans_lt h.width
  · have hdiv : q + 1 + (p - m) / m - 1 = q + p / m - 1 := by
      have hsucc := Nat.add_div_right (p - m) (z := m) (by omega)
      rw [Nat.sub_add_cancel hp.le] at hsucc
      omega
    rw [hdiv]
    exact h.next
  · exact (Nat.pow_le_pow_right (by omega) (Nat.le_succ a)).trans_lt (h.pow_lt hlt)

end Layers

/-- A merge of the first items of a list that is longer than one merge. -/
theorem Layered.step (h : Layered m n levels) (hm : 2 ≤ m) (hlt : m < levels.length) :
    ∃ l ∈ levels.take m, (∀ l' ∈ levels.take m, l' ≤ l) ∧
      Layered m n (levels.drop m ++ [l + 1]) := by
  obtain ⟨a, p, q, h⟩ := h
  rw [h.length_eq] at hlt
  rcases lt_trichotomy p m with hp | rfl | hp
  · exact h.step_of_lt hlt hp
  · exact h.step_of_eq hlt hm
  · exact h.step_of_gt hlt hm hp

/-- No item is on a higher level than if the items were merged in full layers, rounded up. -/
theorem Layered.le_clog (h : Layered m n levels) (hm : 2 ≤ m) :
    ∀ l ∈ levels, l ≤ Nat.clog m n := by
  obtain ⟨a, p, q, h⟩ := h
  intro l hl
  rw [h.eq, List.mem_append, List.mem_replicate, List.mem_replicate] at hl
  by_cases ha : a ≠ 0 ∨ q ≠ 0
  · have hlt := (Nat.lt_clog_iff_pow_lt hm).mpr (h.reached ha)
    omega
  · omega

end Layers
