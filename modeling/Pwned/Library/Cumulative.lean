-- The sums of the first weights of a list, and the intervals between them.
import Mathlib

namespace Cumulative

variable {K : Type*} [AddCommMonoid K] [LinearOrder K] [IsOrderedCancelAddMonoid K]
  {ws : List K} {i j : ℕ} {p : K}

/-- The sum of the first `i` weights. -/
def upTo (ws : List K) (i : ℕ) : K := (ws.take i).sum

omit [LinearOrder K] [IsOrderedCancelAddMonoid K] in
theorem upTo_zero (ws : List K) : upTo ws 0 = 0 := rfl

omit [LinearOrder K] [IsOrderedCancelAddMonoid K] in
theorem upTo_succ (h : i < ws.length) : upTo ws (i + 1) = upTo ws i + ws[i] :=
  List.sum_take_succ ws i h

omit [LinearOrder K] [IsOrderedCancelAddMonoid K] in
theorem upTo_length (h : ws.length ≤ i) : upTo ws i = ws.sum := by
  rw [upTo, List.take_of_length_le h]

theorem upTo_lt_succ (hpos : ∀ w ∈ ws, 0 < w) (h : i < ws.length) :
    upTo ws i < upTo ws (i + 1) := by
  rw [upTo_succ h]
  exact lt_add_of_pos_right _ (hpos _ (List.getElem_mem h))

theorem upTo_mono (hpos : ∀ w ∈ ws, 0 < w) (h : i ≤ j) : upTo ws i ≤ upTo ws j := by
  induction h with
  | refl => exact le_rfl
  | step _ ih =>
    rename_i k _
    apply ih.trans
    rcases Nat.lt_or_ge k ws.length with hk | hk
    · exact (upTo_lt_succ hpos hk).le
    · rw [upTo_length hk, upTo_length (Nat.le_succ_of_le hk)]

/-- The interval of the weight with number `i` holds `p`. -/
structure Covers (ws : List K) (i : ℕ) (p : K) : Prop where
  lt_length : i < ws.length
  le : upTo ws i ≤ p
  lt : p < upTo ws (i + 1)

/-- The intervals do not overlap. -/
theorem Covers.unique (hpos : ∀ w ∈ ws, 0 < w) (hi : Covers ws i p) (hj : Covers ws j p) :
    i = j := by
  have hnot : ∀ {m n : ℕ}, Covers ws m p → Covers ws n p → ¬ m < n := by
    intro m n hm hn hlt
    have hle := upTo_mono hpos (Nat.succ_le_of_lt hlt)
    exact absurd (hm.lt.trans_le (hle.trans hn.le)) (lt_irrefl p)
  rcases Nat.lt_trichotomy i j with h | h | h
  · exact absurd h (hnot hi hj)
  · exact h
  · exact absurd h (hnot hj hi)

end Cumulative
