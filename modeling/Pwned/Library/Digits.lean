-- The digits of a number to a base, in a fixed width with the highest first.
-- They give the number back, and their order is the order of the numbers.
import Mathlib

namespace Digits

/-- The last `n` digits of the number. -/
def digits (B : Nat) : Nat → Nat → List Nat
  | 0, _ => []
  | n + 1, k => k / B ^ n % B :: digits B n k

/-- The number that the digits spell. -/
def number (B : Nat) (ds : List Nat) : Nat := Nat.ofDigits B ds.reverse

variable {B : Nat}

theorem number_cons (d : Nat) (ds : List Nat) :
    number B (d :: ds) = d * B ^ ds.length + number B ds := by
  unfold number
  rw [List.reverse_cons, Nat.ofDigits_append, Nat.ofDigits_singleton, List.length_reverse]
  ring

@[simp] theorem length_digits (n k : Nat) : (digits B n k).length = n := by
  induction n with
  | zero => rfl
  | succ n ih => rw [digits, List.length_cons, ih]

theorem digits_lt (hB : 0 < B) {n k : Nat} : ∀ d ∈ digits B n k, d < B := by
  induction n with
  | zero => simp [digits]
  | succ n ih =>
    rw [digits, List.forall_mem_cons]
    exact ⟨Nat.mod_lt _ hB, ih⟩

theorem digits_eq_map (n k : Nat) :
    digits B n k = (List.range n).map fun i => k / B ^ (n - 1 - i) % B := by
  induction n with
  | zero => rfl
  | succ n ih =>
    rw [digits, ih, List.range_succ_eq_map, List.map_cons, List.map_map]
    congr 1
    apply List.map_congr_left
    intro i hi
    have hexp : n - 1 - i = n + 1 - 1 - (i + 1) := by omega
    rw [Function.comp_apply, hexp]

/-- The high digits are those of the number without its low ones. -/
theorem digits_append (m n k : Nat) :
    digits B (m + n) k = digits B m (k / B ^ n) ++ digits B n k := by
  induction m with
  | zero => simp [digits]
  | succ m ih =>
    rw [Nat.succ_add, digits, digits, ih, Nat.div_div_eq_div_mul, ← pow_add, Nat.add_comm n m]
    rfl

/-- What stands above the digits does not matter. -/
theorem digits_mod (n k : Nat) : digits B n (k % B ^ n) = digits B n k := by
  have hdigits : ∀ m ≤ n, digits B m (k % B ^ n) = digits B m k := by
    intro m hm
    induction m with
    | zero => rfl
    | succ m ih =>
      obtain ⟨j, rfl⟩ := Nat.exists_eq_add_of_le hm
      have hsplit : B ^ (m + 1 + j) = B ^ m * (B * B ^ j) := by ring
      rw [digits, digits, ih (by omega), hsplit, Nat.mod_mul_right_div_self,
        Nat.mod_mul_right_mod]
  exact hdigits n le_rfl

theorem number_lt (hB : 1 < B) {ds : List Nat} (h : ∀ d ∈ ds, d < B) :
    number B ds < B ^ ds.length := by
  have hlt := Nat.ofDigits_lt_base_pow_length (l := ds.reverse) hB (by simpa using h)
  rwa [List.length_reverse] at hlt

theorem number_digits (n k : Nat) : number B (digits B n k) = k % B ^ n := by
  induction n with
  | zero => simp [digits, number, Nat.mod_one]
  | succ n ih => rw [digits, number_cons, ih, length_digits, pow_succ, Nat.mod_mul]; ring

theorem digits_number (hB : 1 < B) {ds : List Nat} (h : ∀ d ∈ ds, d < B) :
    digits B ds.length (number B ds) = ds := by
  induction ds with
  | nil => rfl
  | cons d ds ih =>
    obtain ⟨hd, hds⟩ := List.forall_mem_cons.mp h
    have hlt := number_lt hB hds
    have hpos : 0 < B ^ ds.length := Nat.pow_pos (Nat.zero_lt_of_lt hd)
    have hdiv : (d * B ^ ds.length + number B ds) / B ^ ds.length = d := by
      rw [Nat.mul_comm, Nat.mul_add_div hpos, Nat.div_eq_of_lt hlt, Nat.add_zero]
    have hmod : (d * B ^ ds.length + number B ds) % B ^ ds.length = number B ds := by
      rw [Nat.mul_comm, Nat.mul_add_mod, Nat.mod_eq_of_lt hlt]
    rw [number_cons, List.length_cons, digits, hdiv, Nat.mod_eq_of_lt hd, ← digits_mod, hmod, ih hds]

/-- The higher part decides. -/
theorem add_mul_lt {P q q' r : Nat} (hr : r < P) (hq : q < q') (r' : Nat) :
    r + P * q < r' + P * q' :=
  calc r + P * q < P + P * q := Nat.add_lt_add_right hr _
    _ = P * (q + 1) := by ring
    _ ≤ P * q' := Nat.mul_le_mul_left P hq
    _ ≤ r' + P * q' := Nat.le_add_left _ _

/-- Written with glyphs in the order of the digits, numbers compare as texts of one length. -/
theorem map_digits_lt_iff {α : Type*} [LT α] {glyph : Nat → α} (hB : 0 < B)
    (hinj : ∀ i < B, ∀ j < B, glyph i = glyph j → i = j)
    (hlt : ∀ i < B, ∀ j < B, (glyph i < glyph j ↔ i < j)) (n k l : Nat) :
    (digits B n k).map glyph < (digits B n l).map glyph ↔ k % B ^ n < l % B ^ n := by
  induction n with
  | zero => simp [digits, Nat.mod_one]
  | succ n ih =>
    have hk : k / B ^ n % B < B := Nat.mod_lt _ hB
    have hl : l / B ^ n % B < B := Nat.mod_lt _ hB
    have heq : glyph (k / B ^ n % B) = glyph (l / B ^ n % B) ↔ k / B ^ n % B = l / B ^ n % B :=
      ⟨hinj _ hk _ hl, congrArg glyph⟩
    have hkr : k % B ^ n < B ^ n := Nat.mod_lt _ (Nat.pow_pos hB)
    have hlr : l % B ^ n < B ^ n := Nat.mod_lt _ (Nat.pow_pos hB)
    rw [digits, digits, List.map_cons, List.map_cons, List.cons_lt_cons_iff, ih,
      hlt _ hk _ hl, heq, pow_succ, Nat.mod_mul, Nat.mod_mul]
    constructor
    · rintro (hlt | ⟨he, hlt⟩)
      · exact add_mul_lt hkr hlt _
      · rw [he]
        omega
    · intro hlt
      rcases Nat.lt_trichotomy (k / B ^ n % B) (l / B ^ n % B) with h | h | h
      · exact Or.inl h
      · rw [h] at hlt
        exact Or.inr ⟨h, by omega⟩
      · exact absurd (add_mul_lt hlr h _) (Nat.lt_asymm hlt)

end Digits
