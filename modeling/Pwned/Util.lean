-- The helpers that the tools share: hex digits and the population count.
import Mathlib

namespace pwned

/-- A hex digit's value, -1 for any other character. -/
def decodeHex (c : UInt8) : Int :=
  if 48 ≤ c ∧ c ≤ 57 then c.toNat - 48
  else if 97 ≤ c ∧ c ≤ 102 then c.toNat - 97 + 10
  else if 65 ≤ c ∧ c ≤ 70 then c.toNat - 65 + 10
  else -1

/-- The loop of `hexToCharSeq`. The bytes before a bad digit stay in the result. -/
def hexPairs : List UInt8 → Bool × List UInt8
  | a :: b :: rest =>
    let hi := decodeHex a
    let lo := decodeHex b
    if 0 ≤ lo ∧ 0 ≤ hi then
      let (ok, bytes) := hexPairs rest
      (ok, UInt8.ofNat (hi * 16 + lo).toNat :: bytes)
    else (false, [])
  | _ => (true, [])

def hexToCharSeq (seq : List UInt8) : Bool × List UInt8 :=
  if seq.length % 2 = 0 then hexPairs seq else (true, [])

/-- `popcnt64` as the build with `USE_POPCNT` computes it, by `_mm_popcnt_u64`. -/
def popcnt64 (x : BitVec 64) : Nat := x.cpop.toNat

/-- A number of `b` ones has `b` one bits. -/
theorem popcnt64_ones {b : Nat} (hb : b ≤ 63) : popcnt64 (BitVec.ofNat 64 (2 ^ b - 1)) = b := by
  have hbit : ∀ i < 64, (BitVec.ofNat 64 (2 ^ b - 1)).getLsbD i = decide (i < b) := by
    intro i hi
    rw [BitVec.getLsbD_ofNat, Nat.testBit_two_pow_sub_one]
    simp [hi]
  have hrec : ∀ n ≤ 64, (BitVec.ofNat 64 (2 ^ b - 1)).cpopNatRec n 0 = min n b := by
    intro n
    induction n with
    | zero => intro _; simp
    | succ n ih =>
      intro hn
      rw [BitVec.cpopNatRec_succ, BitVec.cpopNatRec_eq, hbit n (by omega), ih (by omega)]
      by_cases h : n < b
      · simp [h]; omega
      · simp [h]; omega
  unfold popcnt64 BitVec.cpop
  rw [hrec 64 le_rfl, BitVec.toNat_ofNat]
  omega

end pwned
