-- The MD5 hash and its comparison operators. The sixteen bytes of a hash
-- are overlaid by two words of the host, which is little-endian.
import Pwned.Library.LittleEndian

open LittleEndian

namespace pwned

structure Hash where
  upper : BitVec 64 := 0
  lower : BitVec 64 := 0
  isValid : Bool := false
deriving DecidableEq, Repr

namespace Hash

/-- `Hash::size`, the length of an MD5 digest. -/
def size : Nat := 16

/-- The bytes of the union. -/
def data (h : Hash) : List UInt8 := bytes 8 h.upper.toNat ++ bytes 8 h.lower.toNat

/-- The hash with the bytes of its union replaced. -/
def setData (h : Hash) (bs : List UInt8) : Hash :=
  { h with upper := BitVec.ofNat 64 (value (bs.take 8)),
           lower := BitVec.ofNat 64 (value (bs.drop 8)) }

/-! ## The comparison operators -/

/-- `operator==` -/
def eq (lhs rhs : Hash) : Bool :=
  lhs.upper == rhs.upper && lhs.lower == rhs.lower && lhs.isValid == rhs.isValid

/-- `operator<` -/
def lt (lhs rhs : Hash) : Bool :=
  if lhs.upper = rhs.upper then decide (lhs.lower < rhs.lower)
  else decide (lhs.upper < rhs.upper)

/-- `operator!=`, whose last comparison is not negated. -/
def ne (lhs rhs : Hash) : Bool :=
  lhs.upper != rhs.upper || lhs.lower != rhs.lower || lhs.isValid == rhs.isValid

/-- `operator<=` -/
def le (lhs rhs : Hash) : Bool := lhs.eq rhs || lhs.lt rhs

/-- `operator>` -/
def gt (lhs rhs : Hash) : Bool :=
  if lhs.upper = rhs.upper then decide (lhs.lower > rhs.lower)
  else decide (lhs.upper > rhs.upper)

/-- `operator>=` -/
def ge (lhs rhs : Hash) : Bool := lhs.eq rhs || lhs.gt rhs

/-- The 128-bit number that the two words spell. -/
def key (h : Hash) : Nat := h.upper.toNat * 2 ^ 64 + h.lower.toNat

theorem lt_iff (a b : Hash) : a.lt b = true ↔ a.key < b.key := by
  have ha := a.lower.isLt
  have hb := b.lower.isLt
  unfold lt key
  split
  · rename_i h
    rw [decide_eq_true_eq, BitVec.lt_def, h]
    omega
  · rename_i h
    have hne : a.upper.toNat ≠ b.upper.toNat := fun he => h (BitVec.eq_of_toNat_eq he)
    rw [decide_eq_true_eq, BitVec.lt_def]
    omega

theorem gt_iff (a b : Hash) : a.gt b = true ↔ b.key < a.key := by
  rw [← lt_iff b a]
  unfold gt lt
  by_cases h : a.upper = b.upper
  · simp [h]
  · simp [h, Ne.symm h]

/-- Two hashes of which neither is the greater. -/
theorem key_eq_of_not_lt_of_not_gt {a b : Hash} (hlt : ¬ a.lt b = true) (hgt : ¬ a.gt b = true) :
    a.key = b.key := by
  rw [lt_iff] at hlt
  rw [gt_iff] at hgt
  omega

/-- Two hashes with one key have the same words. -/
theorem words_of_key_eq {a b : Hash} (h : a.key = b.key) :
    a.upper = b.upper ∧ a.lower = b.lower := by
  have ha := a.lower.isLt
  have hb := b.lower.isLt
  unfold key at h
  exact ⟨BitVec.eq_of_toNat_eq (by omega), BitVec.eq_of_toNat_eq (by omega)⟩

theorem eq_iff (a b : Hash) : a.eq b = true ↔ a.key = b.key ∧ a.isValid = b.isValid := by
  unfold eq
  simp only [Bool.and_eq_true, beq_iff_eq]
  constructor
  · rintro ⟨⟨hu, hl⟩, hv⟩
    exact ⟨by simp [key, hu, hl], hv⟩
  · rintro ⟨hk, hv⟩
    exact ⟨words_of_key_eq hk, hv⟩

@[simp] theorem data_length (h : Hash) : h.data.length = 16 := by simp [data]

@[simp] theorem setData_isValid (h : Hash) (bs : List UInt8) : (h.setData bs).isValid = h.isValid :=
  rfl

theorem setData_data (h g : Hash) : h.setData g.data = { g with isValid := h.isValid } := by
  simp [setData, data]

end Hash

end pwned
