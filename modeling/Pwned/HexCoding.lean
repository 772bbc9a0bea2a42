-- Hex strings as codes of bytes: what `hexToCharSeq` accepts, and what its
-- result spells.
import Pwned.HashOrder

namespace pwned
namespace HexCoding

open Hash (hexDigit hexValue HexDigit toLower isHexDigit_iff hexValue_lt isHexDigit_hexDigit
  hexValue_hexDigit hexDigit_hexValue)

/-- The two digits of each byte, the high one first. -/
def encodeHex (b : List UInt8) : List UInt8 :=
  b.flatMap fun c => [hexDigit (c.toNat / 16), hexDigit (c.toNat % 16)]

/-- The flag tells hex strings from others, and for them the result is the bytes that the
string encodes, in whatever case. -/
structure Decodes (s : List UInt8) : Prop where
  tells : (hexToCharSeq s).1 = true ↔ s.length % 2 = 0 ∧ ∀ c ∈ s, HexDigit c
  gives : (hexToCharSeq s).1 = true → encodeHex (hexToCharSeq s).2 = s.map toLower

/-! ## Two digits -/

theorem encodeHex_cons (c : UInt8) (b : List UInt8) : encodeHex (c :: b) =
    hexDigit (c.toNat / 16) :: hexDigit (c.toNat % 16) :: encodeHex b := rfl

theorem length_encodeHex (b : List UInt8) : (encodeHex b).length = 2 * b.length := by
  induction b with
  | nil => rfl
  | cons c b ih =>
    rw [encodeHex_cons, List.length_cons, List.length_cons, ih, List.length_cons]
    omega

/-- The byte of two digits. -/
def byteOf (a b : UInt8) : UInt8 := UInt8.ofNat (decodeHex a * 16 + decodeHex b).toNat

theorem toNat_byteOf {a b : UInt8} (ha : HexDigit a) (hb : HexDigit b) :
    (byteOf a b).toNat = 16 * hexValue a + hexValue b := by
  have hhi : 0 ≤ decodeHex a := (isHexDigit_iff a).mpr ha
  have hlo : 0 ≤ decodeHex b := (isHexDigit_iff b).mpr hb
  have hva := hexValue_lt a
  have hvb := hexValue_lt b
  have hvalue : (decodeHex a * 16 + decodeHex b).toNat = 16 * hexValue a + hexValue b := by
    unfold hexValue
    omega
  rw [byteOf, UInt8.toNat_ofNat', hvalue]
  omega

/-- The digits of the byte are the two that it was read from, in lower case. -/
theorem encodeHex_byteOf {a b : UInt8} (ha : HexDigit a) (hb : HexDigit b) (rest : List UInt8) :
    encodeHex (byteOf a b :: rest) = toLower a :: toLower b :: encodeHex rest := by
  have hva := hexValue_lt a
  have hvb := hexValue_lt b
  have hhi : (16 * hexValue a + hexValue b) / 16 = hexValue a := by omega
  have hlo : (16 * hexValue a + hexValue b) % 16 = hexValue b := by omega
  rw [encodeHex_cons, toNat_byteOf ha hb, hhi, hlo, (hexDigit_hexValue ha).1,
    (hexDigit_hexValue hb).1]

/-- The byte that the digits of a byte spell is that byte. -/
theorem byteOf_hexDigit (c : UInt8) :
    byteOf (hexDigit (c.toNat / 16)) (hexDigit (c.toNat % 16)) = c := by
  have hc := c.toNat_lt
  have hhi : c.toNat / 16 < 16 := by omega
  have hlo : c.toNat % 16 < 16 := by omega
  apply UInt8.toNat_inj.mp
  rw [toNat_byteOf ((isHexDigit_iff _).mp (isHexDigit_hexDigit hhi))
    ((isHexDigit_iff _).mp (isHexDigit_hexDigit hlo)), hexValue_hexDigit hhi,
    hexValue_hexDigit hlo]
  omega

/-! ## The loop -/

theorem hexPairs_cons {a b : UInt8} (ha : HexDigit a) (hb : HexDigit b) (rest : List UInt8) :
    hexPairs (a :: b :: rest) = ((hexPairs rest).1, byteOf a b :: (hexPairs rest).2) := by
  have hhi : 0 ≤ decodeHex a := (isHexDigit_iff a).mpr ha
  have hlo : 0 ≤ decodeHex b := (isHexDigit_iff b).mpr hb
  rw [hexPairs]
  dsimp only
  rw [if_pos ⟨hlo, hhi⟩]
  rfl

/-- A pair with a bad digit ends the loop. -/
theorem hexPairs_bad {a b : UInt8} (hbad : ¬ (HexDigit a ∧ HexDigit b)) (rest : List UInt8) :
    hexPairs (a :: b :: rest) = (false, []) := by
  have hnot : ¬ (0 ≤ decodeHex b ∧ 0 ≤ decodeHex a) := by
    rintro ⟨hlo, hhi⟩
    exact hbad ⟨(isHexDigit_iff a).mp hhi, (isHexDigit_iff b).mp hlo⟩
  rw [hexPairs]
  dsimp only
  rw [if_neg hnot]

/-- The loop runs through exactly the strings of good digits. -/
theorem hexPairs_ok_iff : ∀ s : List UInt8, s.length % 2 = 0 →
    ((hexPairs s).1 = true ↔ ∀ c ∈ s, HexDigit c)
  | [], _ => by simp [hexPairs]
  | [_], heven => by simp at heven
  | a :: b :: rest, heven => by
    have hrest : rest.length % 2 = 0 := by
      simp only [List.length_cons] at heven
      omega
    have ih := hexPairs_ok_iff rest hrest
    by_cases hab : HexDigit a ∧ HexDigit b
    · rw [hexPairs_cons hab.1 hab.2, ih, List.forall_mem_cons, List.forall_mem_cons]
      exact ⟨fun h => ⟨hab.1, hab.2, h⟩, fun h => h.2.2⟩
    · rw [hexPairs_bad hab]
      refine ⟨fun h => by simp at h, fun h => absurd ⟨?_, ?_⟩ hab⟩
      · exact h a (by simp)
      · exact h b (by simp)

theorem encodeHex_hexPairs : ∀ s : List UInt8, s.length % 2 = 0 → (∀ c ∈ s, HexDigit c) →
    encodeHex (hexPairs s).2 = s.map toLower
  | [], _, _ => rfl
  | [_], heven, _ => by simp at heven
  | a :: b :: rest, heven, hall => by
    have hrest : rest.length % 2 = 0 := by
      simp only [List.length_cons] at heven
      omega
    have ha : HexDigit a := hall a (by simp)
    have hb : HexDigit b := hall b (by simp)
    have ih := encodeHex_hexPairs rest hrest fun c hc => hall c (by simp [hc])
    rw [hexPairs_cons ha hb, encodeHex_byteOf ha hb, ih]
    rfl

theorem hexPairs_encodeHex (b : List UInt8) : hexPairs (encodeHex b) = (true, b) := by
  induction b with
  | nil => rfl
  | cons c rest ih =>
    have hc := c.toNat_lt
    have hhi : HexDigit (hexDigit (c.toNat / 16)) :=
      (isHexDigit_iff _).mp (isHexDigit_hexDigit (by omega))
    have hlo : HexDigit (hexDigit (c.toNat % 16)) :=
      (isHexDigit_iff _).mp (isHexDigit_hexDigit (by omega))
    rw [encodeHex_cons, hexPairs_cons hhi hlo, ih, byteOf_hexDigit]

/-! ## The whole function -/

/-- The loop is behind a test for an even length without an `else`: a string of odd length
passes as one that was decoded. -/
theorem decodes_strings_of_even_length (s b : List UInt8) :
    (Decodes s ↔ s.length % 2 = 0) ∧ hexToCharSeq (encodeHex b) = (true, b) := by
  refine ⟨⟨?_, ?_⟩, ?_⟩
  · intro h
    by_contra hodd
    have htrue : (hexToCharSeq s).1 = true := by
      unfold hexToCharSeq
      rw [if_neg hodd]
    exact hodd (h.tells.mp htrue).1
  · intro heven
    have hseq : hexToCharSeq s = hexPairs s := by
      unfold hexToCharSeq
      rw [if_pos heven]
    have hok := hexPairs_ok_iff s heven
    constructor
    · rw [hseq, hok]
      exact ⟨fun h => ⟨heven, h⟩, fun h => h.2⟩
    · rw [hseq]
      intro htrue
      exact encodeHex_hexPairs s heven (hok.mp htrue)
  · have heven : (encodeHex b).length % 2 = 0 := by
      rw [length_encodeHex]
      omega
    unfold hexToCharSeq
    rw [if_pos heven, hexPairs_encodeHex]

/-- `0` is half a byte. -/
theorem half_a_byte_passes : ¬ Decodes [48] := by
  intro h
  have hflag := h.tells
  simp [hexToCharSeq] at hflag

end HexCoding
end pwned
