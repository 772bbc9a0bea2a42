-- The order of hashes: the laws of the operators, and the order of the hex
-- strings, which is that of the hashes.
import Pwned.HexPasswords
import Pwned.Library.Digits

open Digits

namespace pwned
namespace Hash

open UserPasswordReader (IsHexDigit digitsHash fromHex_of_wellFormed goodDigits_of_hex)

/-! ## The laws of the operators -/

/-- The operators belong to one total order. -/
structure Laws (a b c : Hash) : Prop where
  trichotomy : (a.lt b = true ∧ a.eq b = false ∧ a.gt b = false) ∨
    (a.lt b = false ∧ a.eq b = true ∧ a.gt b = false) ∨
    (a.lt b = false ∧ a.eq b = false ∧ a.gt b = true)
  ne : a.ne b = !a.eq b
  le : a.le b = true ↔ a.lt b = true ∨ a.eq b = true
  le_not_lt : a.le b = true ↔ b.lt a = false
  ge : a.ge b = b.le a
  trans : a.lt b = true → b.lt c = true → a.lt c = true

theorem gt_eq (a b : Hash) : a.gt b = b.lt a := by
  rw [Bool.eq_iff_iff, gt_iff, lt_iff]

theorem eq_comm (a b : Hash) : a.eq b = b.eq a := by
  rw [Bool.eq_iff_iff, eq_iff, eq_iff]
  exact ⟨fun h => ⟨h.1.symm, h.2.symm⟩, fun h => ⟨h.1.symm, h.2.symm⟩⟩

theorem lt_trans {a b c : Hash} (hab : a.lt b = true) (hbc : b.lt c = true) : a.lt c = true := by
  rw [lt_iff] at hab hbc ⊢
  exact Nat.lt_trans hab hbc

/-- The last comparison of `operator!=` spoils it for equal words only. -/
theorem ne_iff (a b : Hash) : a.ne b = true ↔ a.key ≠ b.key ∨ a.isValid = b.isValid := by
  have hwords : a.key = b.key ↔ a.upper = b.upper ∧ a.lower = b.lower := by
    refine ⟨words_of_key_eq, ?_⟩
    rintro ⟨hupper, hlower⟩
    rw [key, key, hupper, hlower]
  unfold ne
  rw [Ne, hwords, not_and_or]
  simp

/-- The operators obey the laws of a total order on two hashes exactly if their words differ. -/
theorem operators_are_one_order_iff (a b c : Hash) :
    Laws a b c ↔ ¬ (a.upper = b.upper ∧ a.lower = b.lower) := by
  constructor
  · rintro ⟨-, hne, -⟩ ⟨hupper, hlower⟩
    have hkey : a.key = b.key := by rw [key, key, hupper, hlower]
    have heq := eq_iff a b
    have hne' := ne_iff a b
    rw [hne] at hne'
    by_cases hvalid : a.isValid = b.isValid
    · simp_all
    · simp_all
  · intro hwords
    have hkey : a.key ≠ b.key := fun h => hwords (words_of_key_eq h)
    have hnot : a.eq b = false := by
      rw [Bool.eq_false_iff]
      exact fun h => hkey ((eq_iff a b).mp h).1
    have hlt := lt_iff a b
    have hgt := lt_iff b a
    refine ⟨?_, ?_, ?_, ?_, ?_, lt_trans⟩
    · rw [gt_eq]
      rcases Nat.lt_or_gt_of_ne hkey with h | h
      · exact Or.inl ⟨hlt.mpr h, hnot, by rw [Bool.eq_false_iff, Ne, hgt]; omega⟩
      · exact Or.inr (Or.inr ⟨by rw [Bool.eq_false_iff, Ne, hlt]; omega, hnot, hgt.mpr h⟩)
    · rw [hnot, Bool.not_false, ne_iff]
      exact Or.inl hkey
    · rw [le, hnot, Bool.false_or]
      simp
    · rw [le, hnot, Bool.false_or, hlt, Bool.eq_false_iff, Ne, hgt]
      omega
    · rw [ge, le, gt_eq, eq_comm]

/-- A hash is unequal to itself. -/
theorem a_hash_differs_from_itself : ¬ Laws {} {} {} := by
  intro h
  have hne := h.ne
  revert hne
  decide

/-! ## Hex digits -/

/-- `[0-9a-fA-F]` -/
def HexDigit (c : UInt8) : Prop := 48 ≤ c ∧ c ≤ 57 ∨ 97 ≤ c ∧ c ≤ 102 ∨ 65 ≤ c ∧ c ≤ 70

instance (c : UInt8) : Decidable (HexDigit c) := inferInstanceAs (Decidable (_ ∨ _))

def toLower (c : UInt8) : UInt8 := if 65 ≤ c ∧ c ≤ 90 then c + 32 else c

def toUpper (c : UInt8) : UInt8 := if 97 ≤ c ∧ c ≤ 122 then c - 32 else c

/-- The value of a digit. -/
def hexValue (c : UInt8) : Nat := (decodeHex c).toNat

theorem isHexDigit_iff (c : UInt8) : IsHexDigit c ↔ HexDigit c := by
  unfold IsHexDigit HexDigit decodeHex
  simp only [UInt8.le_iff_toNat_le, UInt8.reduceToNat]
  split_ifs <;> omega

theorem hexValue_lt (c : UInt8) : hexValue c < 16 := by
  have h := decodeHex_lt c
  unfold hexValue
  omega

theorem isHexDigit_hexDigit {n : Nat} (hn : n < 16) : IsHexDigit (hexDigit n) := by
  interval_cases n <;> decide

theorem hexValue_hexDigit {n : Nat} (hn : n < 16) : hexValue (hexDigit n) = n := by
  interval_cases n <;> decide

theorem hexDigit_lt_iff {i j : Nat} (hi : i < 16) (hj : j < 16) :
    hexDigit i < hexDigit j ↔ i < j := by
  unfold hexDigit
  rw [UInt8.lt_iff_toNat_lt, UInt8.toNat_ofNat', UInt8.toNat_ofNat']
  split_ifs <;> omega

/-- A digit is printed in its case. -/
theorem hexDigit_hexValue {c : UInt8} (h : HexDigit c) :
    hexDigit (hexValue c) = toLower c ∧ upperHexDigit (hexValue c) = toUpper c := by
  have hall : ∀ n : Nat, n < 256 → HexDigit (UInt8.ofNat n) →
      hexDigit (hexValue (UInt8.ofNat n)) = toLower (UInt8.ofNat n) ∧
        upperHexDigit (hexValue (UInt8.ofNat n)) = toUpper (UInt8.ofNat n) := by
    decide +kernel
  have hc := hall c.toNat c.toNat_lt
  rw [UInt8.ofNat_toNat] at hc
  exact hc h

/-! ## Hashes as texts -/

theorem hexWord_eq (w : BitVec 64) : hexWord w = (digits 16 16 w.toNat).map hexDigit := by
  rw [digits_eq_map, List.map_map]
  rfl

theorem upperHexWord_eq (w : BitVec 64) :
    upperHexWord w = (digits 16 16 w.toNat).map upperHexDigit := by
  rw [digits_eq_map, List.map_map]
  rfl

/-- The digits of the words are those of the key. -/
theorem digits_key (h : Hash) :
    digits 16 32 h.key = digits 16 16 h.upper.toNat ++ digits 16 16 h.lower.toNat := by
  have hlower : h.lower.toNat < 16 ^ 16 := h.lower.isLt
  have hsplit : h.key = 16 ^ 16 * h.upper.toNat + h.lower.toNat := by
    unfold key
    ring
  have hdiv : h.key / 16 ^ 16 = h.upper.toNat := by omega
  have hmod : h.key % 16 ^ 16 = h.lower.toNat := by omega
  rw [digits_append 16 16, hdiv, ← digits_mod 16 h.key, hmod]

theorem toString_eq (h : Hash) : h.toString = (digits 16 32 h.key).map hexDigit := by
  rw [digits_key, List.map_append, ← hexWord_eq, ← hexWord_eq]
  rfl

theorem toStringCase_true (h : Hash) :
    h.toStringCase true = (digits 16 32 h.key).map upperHexDigit := by
  rw [digits_key, List.map_append, ← upperHexWord_eq, ← upperHexWord_eq]
  rfl

theorem hexNumber_eq (s : List UInt8) : hexNumber s = number 16 (s.map hexValue) := by
  induction s with
  | nil => rfl
  | cons c s ih =>
    rw [hexNumber_cons, List.map_cons, number_cons, List.length_map, ih]
    rfl

theorem wellFormed_toString (h : Hash) : WellFormed h.toString := by
  rw [toString_eq]
  refine ⟨by simp, ?_⟩
  intro c hc
  obtain ⟨d, hd, rfl⟩ := List.mem_map.mp hc
  exact isHexDigit_hexDigit (digits_lt (by decide) d hd)

/-- The number that the text spells is the key. -/
theorem hexNumber_toString (h : Hash) : hexNumber h.toString = h.key := by
  have hvalues : ((digits 16 32 h.key).map hexDigit).map hexValue = digits 16 32 h.key := by
    rw [List.map_map]
    refine (List.map_congr_left ?_).trans (List.map_id _)
    exact fun d hd => hexValue_hexDigit (digits_lt (by decide) d hd)
  have hlt : h.key < 16 ^ 32 := h.key_lt
  rw [hexNumber_eq, toString_eq, hvalues, number_digits, Nat.mod_eq_of_lt hlt]

theorem fromHex_toString {h : Hash} (hvalid : h.isValid = true) : fromHex h.toString = h := by
  rw [fromHex_of_wellFormed (wellFormed_toString h), digitsHash, hexNumber_toString]
  obtain ⟨hupper, hlower⟩ := words_of_key_eq (key_ofKey h.key_lt)
  cases h
  simp_all

/-- The digits of a hash that was read are those of the text. -/
theorem digits_fromHex {s : List UInt8} (h : WellFormed s) :
    digits 16 32 (fromHex s).key = s.map hexValue := by
  have hvalues : ∀ d ∈ s.map hexValue, d < 16 := by
    intro d hd
    obtain ⟨c, -, rfl⟩ := List.mem_map.mp hd
    exact hexValue_lt c
  have hlen : (s.map hexValue).length = 32 := by rw [List.length_map, h.1]
  have hkey : (fromHex s).key = number 16 (s.map hexValue) := by
    rw [fromHex_key, prefixKey, if_pos h.1, goodDigits_of_hex (by rw [h.1]) h.2, h.1,
      Nat.sub_self, pow_zero, mul_one, hexNumber_eq]
  rw [hkey, ← hlen, digits_number (by decide) hvalues]

theorem toStringCase_fromHex {s : List UInt8} (h : WellFormed s) :
    (fromHex s).toStringCase false = s.map toLower ∧
      (fromHex s).toStringCase true = s.map toUpper := by
  have hdigit : ∀ c ∈ s, HexDigit c := fun c hc => (isHexDigit_iff c).mp (h.2 c hc)
  have hlower : (fromHex s).toStringCase false = (fromHex s).toString := rfl
  rw [hlower, toString_eq, toStringCase_true, digits_fromHex h, List.map_map, List.map_map]
  exact ⟨List.map_congr_left fun c hc => (hexDigit_hexValue (hdigit c hc)).1,
    List.map_congr_left fun c hc => (hexDigit_hexValue (hdigit c hc)).2⟩

theorem lt_iff_toString (a b : Hash) : a.lt b = true ↔ a.toString < b.toString := by
  have ha : a.key < 16 ^ 32 := a.key_lt
  have hb : b.key < 16 ^ 32 := b.key_lt
  have hinj : ∀ i < 16, ∀ j < 16, hexDigit i = hexDigit j → i = j := by
    intro i hi j hj he
    rw [← hexValue_hexDigit hi, he, hexValue_hexDigit hj]
  rw [lt_iff, toString_eq, toString_eq, map_digits_lt_iff (by decide) hinj
    (fun i hi j hj => hexDigit_lt_iff hi hj), Nat.mod_eq_of_lt ha, Nat.mod_eq_of_lt hb]

/-- Hex strings of 32 digits and valid hashes are the same thing in the same order. -/
theorem hex_and_hash_are_isomorphic :
    (∀ s, (fromHex s).isValid = true ↔ s.length = 32 ∧ ∀ c ∈ s, HexDigit c) ∧
      (∀ s, (fromHex s).isValid = true →
        (fromHex s).toStringCase false = s.map toLower ∧
          (fromHex s).toStringCase true = s.map toUpper) ∧
      (∀ h : Hash, h.isValid = true → fromHex h.toString = h) ∧
      ∀ a b : Hash, a.isValid = true → b.isValid = true →
        (a.lt b = true ↔ a.toString < b.toString) := by
  refine ⟨?_, ?_, fun h hvalid => fromHex_toString hvalid, fun a b _ _ => lt_iff_toString a b⟩
  · intro s
    rw [fromHex_isValid, WellFormed]
    simp only [← isHexDigit_iff]
    rfl
  · intro s hs
    exact toStringCase_fromHex ((fromHex_isValid s).mp hs)

theorem hex_and_hash_are_isomorphic_at_a_hash :
    fromHex (toString
        { upper := 0x6fb42da0e32e07b6, lower := 0x1c9f0251fe627a9c, isValid := true }) =
      { upper := 0x6fb42da0e32e07b6, lower := 0x1c9f0251fe627a9c, isValid := true } :=
  hex_and_hash_are_isomorphic.2.2.1 _ rfl

end Hash

end pwned
