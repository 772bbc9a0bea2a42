-- Numbers as rows of lanes of one width, the lowest first, and the operations
-- on whole numbers that act on each lane alone.
import Mathlib

namespace Lanes

variable {α : Type*} {w k : Nat} {f g : α → Nat} {as : List α}

/-- The number whose lanes are the values of `f` along a list. -/
def pack (w : Nat) (f : α → Nat) (as : List α) : Nat := Nat.ofDigits (2 ^ w) (as.map f)

@[simp] theorem pack_nil : pack w f [] = 0 := rfl

theorem pack_cons (a : α) (as : List α) : pack w f (a :: as) = f a + 2 ^ w * pack w f as := by
  simp [pack, Nat.ofDigits_cons]

theorem pack_lt (hw : 0 < w) (hf : ∀ a ∈ as, f a < 2 ^ w) :
    pack w f as < 2 ^ (w * as.length) := by
  have hbase : 1 < 2 ^ w := Nat.one_lt_two_pow (by omega)
  have hlt := Nat.ofDigits_lt_base_pow_length (l := as.map f) hbase (by simpa using hf)
  rwa [List.length_map, ← pow_mul] at hlt

/-- Lanes that do not depend on the list depend on its length. -/
theorem pack_const (m : Nat) (as : List α) :
    pack w (fun _ => m) as = pack w (fun _ => m) (List.replicate as.length ()) := by
  simp [pack]

/-! ## Bits -/

theorem testBit_lane {b : Nat} (hb : b < 2 ^ w) (X i : Nat) :
    (b + 2 ^ w * X).testBit i = if i < w then b.testBit i else X.testBit (i - w) := by
  rw [Nat.add_comm, Nat.testBit_two_pow_mul_add _ hb]

theorem and_lane {b c : Nat} (hb : b < 2 ^ w) (hc : c < 2 ^ w) (X Y : Nat) :
    (b + 2 ^ w * X) &&& (c + 2 ^ w * Y) = (b &&& c) + 2 ^ w * (X &&& Y) := by
  have hbc : b &&& c < 2 ^ w := Nat.and_lt_two_pow b hc
  apply Nat.eq_of_testBit_eq
  intro i
  rw [Nat.testBit_and, testBit_lane hb, testBit_lane hc, testBit_lane hbc]
  split
  · rw [Nat.testBit_and]
  · rw [Nat.testBit_and]

/-- A mask does not see what is added above it. -/
theorem and_low {m : Nat} (hm : m < 2 ^ k) (u v : Nat) : (u + 2 ^ k * v) &&& m = u &&& m := by
  apply Nat.eq_of_testBit_eq
  intro i
  rw [Nat.testBit_and, Nat.testBit_and]
  by_cases hi : i < k
  · have hmod : (u + 2 ^ k * v) % 2 ^ k = u % 2 ^ k := Nat.add_mul_mod_self_left u (2 ^ k) v
    have hbit := congrArg (fun n => n.testBit i) hmod
    simp only [Nat.testBit_mod_two_pow, hi, decide_true, Bool.true_and] at hbit
    rw [hbit]
  · have hzero : m.testBit i = false := by
      apply Nat.testBit_lt_two_pow
      exact lt_of_lt_of_le hm (Nat.pow_le_pow_right (by norm_num) (by omega))
    rw [hzero, Bool.and_false, Bool.and_false]

/-- A shift moves the low bits of the next lane into the lane. -/
theorem shift_lane (hk : k ≤ w) (b X : Nat) :
    (b + 2 ^ w * X) >>> k = (b >>> k + 2 ^ (w - k) * (X % 2 ^ k)) + 2 ^ w * (X >>> k) := by
  have hpow : 2 ^ w = 2 ^ k * 2 ^ (w - k) := by
    rw [← pow_add, Nat.add_sub_cancel' hk]
  have hX := Nat.mod_add_div X (2 ^ k)
  simp only [Nat.shiftRight_eq_div_pow]
  calc (b + 2 ^ w * X) / 2 ^ k
      = b / 2 ^ k + 2 ^ (w - k) * X := by
        rw [hpow, Nat.mul_assoc, Nat.add_mul_div_left _ _ (by positivity)]
    _ = b / 2 ^ k + 2 ^ (w - k) * (X % 2 ^ k + 2 ^ k * (X / 2 ^ k)) := by rw [hX]
    _ = b / 2 ^ k + 2 ^ (w - k) * (X % 2 ^ k) + 2 ^ w * (X / 2 ^ k) := by
        rw [hpow]
        ring

/-- What a shift leaves of a lane and of the one above it fits the lane. -/
theorem shift_lane_lt (hk : k ≤ w) {b : Nat} (hb : b < 2 ^ w) (X : Nat) :
    b >>> k + 2 ^ (w - k) * (X % 2 ^ k) < 2 ^ w := by
  have hpow : 2 ^ w = 2 ^ k * 2 ^ (w - k) := by
    rw [← pow_add, Nat.add_sub_cancel' hk]
  have hX : X % 2 ^ k < 2 ^ k := Nat.mod_lt _ (by positivity)
  have hlow : b >>> k < 2 ^ (w - k) := by
    rw [Nat.shiftRight_eq_div_pow, Nat.div_lt_iff_lt_mul (by positivity), Nat.mul_comm, ← hpow]
    exact hb
  have hmul : 2 ^ (w - k) * (X % 2 ^ k + 1) ≤ 2 ^ (w - k) * 2 ^ k := Nat.mul_le_mul_left _ hX
  rw [hpow, Nat.mul_comm (2 ^ k)]
  rw [Nat.mul_add, Nat.mul_one] at hmul
  omega

/-! ## Lane by lane -/

theorem pack_add (f g : α → Nat) (as : List α) :
    pack w f as + pack w g as = pack w (fun a => f a + g a) as := by
  induction as with
  | nil => rfl
  | cons a as ih =>
    rw [pack_cons, pack_cons, pack_cons, ← ih]
    ring

/-- No lane borrows. -/
theorem pack_sub (hle : ∀ a ∈ as, g a ≤ f a) :
    pack w g as ≤ pack w f as ∧
      pack w f as - pack w g as = pack w (fun a => f a - g a) as := by
  have hsum : pack w f as = pack w g as + pack w (fun a => f a - g a) as := by
    rw [pack_add]
    unfold pack
    congr 1
    apply List.map_congr_left
    intro a ha
    have hale := hle a ha
    omega
  constructor
  · omega
  · omega

theorem pack_and (hf : ∀ a ∈ as, f a < 2 ^ w) (hg : ∀ a ∈ as, g a < 2 ^ w) :
    pack w f as &&& pack w g as = pack w (fun a => f a &&& g a) as := by
  induction as with
  | nil => simp
  | cons a as ih =>
    rw [List.forall_mem_cons] at hf hg
    rw [pack_cons, pack_cons, pack_cons, and_lane hf.1 hg.1, ih hf.2 hg.2]

/-- A mask behind a shift takes away what comes from the lane above. -/
theorem pack_shift_and (hk : k ≤ w) (hf : ∀ a ∈ as, f a < 2 ^ w)
    (hg : ∀ a ∈ as, g a < 2 ^ (w - k)) :
    pack w f as >>> k &&& pack w g as = pack w (fun a => f a >>> k &&& g a) as := by
  induction as with
  | nil => simp
  | cons a as ih =>
    rw [List.forall_mem_cons] at hf hg
    have hmask : g a < 2 ^ w :=
      lt_of_lt_of_le hg.1 (Nat.pow_le_pow_right (by norm_num) (Nat.sub_le w k))
    rw [pack_cons, pack_cons, pack_cons, shift_lane hk, and_lane (shift_lane_lt hk hf.1 _) hmask,
      and_low hg.1, ih hf.2 hg.2]

theorem pack_mod_le {c : Nat} (hk : k ≤ w) (hf : ∀ a ∈ as, f a % 2 ^ k ≤ c) :
    pack w f as % 2 ^ k ≤ c := by
  cases as with
  | nil => simp
  | cons a as =>
    have hpow : 2 ^ w = 2 ^ k * 2 ^ (w - k) := by
      rw [← pow_add, Nat.add_sub_cancel' hk]
    rw [pack_cons, hpow, Nat.mul_assoc, Nat.add_mul_mod_self_left]
    exact hf a (by simp)

/-- A number and its own shift, whose lanes have room for what comes from above. -/
theorem pack_add_shift_and {c : Nat} (hk : k ≤ w) (hlow : ∀ a ∈ as, f a % 2 ^ k ≤ c)
    (hroom : ∀ a ∈ as, f a + f a >>> k + 2 ^ (w - k) * c < 2 ^ w)
    (hg : ∀ a ∈ as, g a < 2 ^ (w - k)) :
    (pack w f as + pack w f as >>> k) &&& pack w g as =
      pack w (fun a => (f a + f a >>> k) &&& g a) as := by
  induction as with
  | nil => simp
  | cons a as ih =>
    rw [List.forall_mem_cons] at hlow hroom hg
    have hmask : g a < 2 ^ w :=
      lt_of_lt_of_le hg.1 (Nat.pow_le_pow_right (by norm_num) (Nat.sub_le w k))
    have habove : 2 ^ (w - k) * (pack w f as % 2 ^ k) ≤ 2 ^ (w - k) * c :=
      Nat.mul_le_mul_left _ (pack_mod_le hk hlow.2)
    have hlane : f a + f a >>> k + 2 ^ (w - k) * (pack w f as % 2 ^ k) < 2 ^ w := by
      have hfits := hroom.1
      omega
    have hsplit : pack w f (a :: as) + pack w f (a :: as) >>> k =
        (f a + f a >>> k + 2 ^ (w - k) * (pack w f as % 2 ^ k)) +
          2 ^ w * (pack w f as + pack w f as >>> k) := by
      rw [pack_cons, shift_lane hk]
      ring
    rw [hsplit, pack_cons, pack_cons, and_lane hlane hmask, and_low hg.1,
      ih hlow.2 hroom.2 hg.2]

/-! ## The sum of the lanes -/

/-- The number whose lanes are the sums of `f` up to each place. -/
def sums (w : Nat) (f : α → Nat) : Nat → List α → Nat
  | _, [] => 0
  | acc, a :: as => (acc + f a) + 2 ^ w * sums w f (acc + f a) as

/-- One more one, at the low end or at the high one. -/
theorem pack_one_succ (as : List α) :
    1 + 2 ^ w * pack w (fun _ => 1) as = pack w (fun _ => 1) as + 2 ^ (w * as.length) := by
  induction as with
  | nil => simp
  | cons a as ih =>
    rw [pack_cons, List.length_cons, Nat.mul_succ, pow_add]
    calc 1 + 2 ^ w * (1 + 2 ^ w * pack w (fun _ => 1) as)
        = 1 + 2 ^ w * (pack w (fun _ => 1) as + 2 ^ (w * as.length)) := by rw [ih]
      _ = 1 + 2 ^ w * pack w (fun _ => 1) as + 2 ^ (w * as.length) * 2 ^ w := by ring

/-- A product with a row of ones has the sums in its lanes. -/
theorem mul_ones (f : α → Nat) (acc : Nat) (as : List α) :
    ∃ q, (acc + pack w f as) * pack w (fun _ => 1) as =
      sums w f acc as + 2 ^ (w * as.length) * q := by
  induction as generalizing acc with
  | nil => exact ⟨0, by simp [sums]⟩
  | cons a as ih =>
    obtain ⟨q, hq⟩ := ih (acc + f a)
    refine ⟨q + pack w f as, ?_⟩
    have htop := pack_one_succ (w := w) as
    rw [pack_cons, pack_cons, sums, List.length_cons, Nat.mul_succ, pow_add]
    calc (acc + (f a + 2 ^ w * pack w f as)) * (1 + 2 ^ w * pack w (fun _ => 1) as)
        = (acc + f a) * (1 + 2 ^ w * pack w (fun _ => 1) as) +
            2 ^ w * pack w f as * (1 + 2 ^ w * pack w (fun _ => 1) as) := by ring
      _ = (acc + f a) * (1 + 2 ^ w * pack w (fun _ => 1) as) +
            2 ^ w * pack w f as * (pack w (fun _ => 1) as + 2 ^ (w * as.length)) := by rw [htop]
      _ = (acc + f a) + 2 ^ w * ((acc + f a + pack w f as) * pack w (fun _ => 1) as) +
            2 ^ (w * as.length) * 2 ^ w * pack w f as := by ring
      _ = (acc + f a) + 2 ^ w * (sums w f (acc + f a) as + 2 ^ (w * as.length) * q) +
            2 ^ (w * as.length) * 2 ^ w * pack w f as := by rw [hq]
      _ = acc + f a + 2 ^ w * sums w f (acc + f a) as +
            2 ^ (w * as.length) * 2 ^ w * (q + pack w f as) := by ring

theorem sums_lt {acc : Nat} (hsum : acc + (as.map f).sum < 2 ^ w) :
    sums w f acc as < 2 ^ (w * as.length) := by
  induction as generalizing acc with
  | nil => simp [sums]
  | cons a as ih =>
    rw [List.map_cons, List.sum_cons] at hsum
    have hrest : acc + f a + (as.map f).sum < 2 ^ w := by omega
    have hmul : 2 ^ w * (sums w f (acc + f a) as + 1) ≤ 2 ^ w * 2 ^ (w * as.length) :=
      Nat.mul_le_mul_left _ (ih hrest)
    rw [sums, List.length_cons, Nat.mul_succ, pow_add, Nat.mul_comm (2 ^ (w * as.length))]
    rw [Nat.mul_add, Nat.mul_one] at hmul
    omega

/-- The top lane of the sums is the whole sum. -/
theorem sums_top {acc : Nat} (a : α) (hsum : acc + ((a :: as).map f).sum < 2 ^ w) :
    sums w f acc (a :: as) / 2 ^ (w * as.length) = acc + ((a :: as).map f).sum := by
  induction as generalizing acc a with
  | nil => simp [sums]
  | cons b as ih =>
    rw [List.map_cons, List.sum_cons] at hsum ⊢
    have hrest : acc + f a + ((b :: as).map f).sum < 2 ^ w := by omega
    have hlane : acc + f a < 2 ^ w := by omega
    rw [sums, List.length_cons, Nat.mul_succ, Nat.add_comm (w * as.length), pow_add,
      ← Nat.div_div_eq_div_mul, Nat.add_mul_div_left _ _ (by positivity),
      Nat.div_eq_of_lt hlane, Nat.zero_add, ih b hrest]
    omega

/-- The product with a row of ones, cut off above the lanes, has the sum in its top lane. -/
theorem mul_ones_top (a : α) (hsum : ((a :: as).map f).sum < 2 ^ w) :
    pack w f (a :: as) * pack w (fun _ => 1) (a :: as) % 2 ^ (w * (a :: as).length) /
      2 ^ (w * as.length) = ((a :: as).map f).sum := by
  have hzero : 0 + ((a :: as).map f).sum < 2 ^ w := by omega
  obtain ⟨q, hq⟩ := mul_ones (w := w) f 0 (a :: as)
  rw [Nat.zero_add] at hq
  rw [hq, Nat.add_mul_mod_self_left, Nat.mod_eq_of_lt (sums_lt hzero), sums_top a hzero,
    Nat.zero_add]

/-! ## Counting ones -/

/-- The number of one bits among the low `n`. -/
def ones (n x : Nat) : Nat := (List.range n).countP x.testBit

theorem ones_le (n x : Nat) : ones n x ≤ n := by
  have hle := List.countP_le_length (p := x.testBit) (l := List.range n)
  rwa [List.length_range] at hle

theorem ones_lane {b : Nat} (hb : b < 2 ^ w) (n X : Nat) :
    ones (w + n) (b + 2 ^ w * X) = ones w b + ones n X := by
  unfold ones
  rw [List.range_add, List.countP_append, List.countP_map]
  congr 1
  · apply List.countP_congr
    intro i hi
    rw [testBit_lane hb, if_pos (List.mem_range.mp hi)]
  · apply List.countP_congr
    intro i _
    rw [Function.comp_apply, testBit_lane hb, if_neg (by omega), Nat.add_sub_cancel_left]

theorem ones_pack (hf : ∀ a ∈ as, f a < 2 ^ w) :
    ones (w * as.length) (pack w f as) = (as.map fun a => ones w (f a)).sum := by
  induction as with
  | nil => rfl
  | cons a as ih =>
    rw [List.forall_mem_cons] at hf
    rw [pack_cons, List.length_cons, Nat.mul_succ, Nat.add_comm (w * as.length),
      ones_lane hf.1, ih hf.2, List.map_cons, List.sum_cons]

end Lanes
