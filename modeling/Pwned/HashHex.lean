-- Hashes as hex strings. A string is read up to its first bad digit, and the
-- rest of the hash stays zero.
import Pwned.Hash
import Pwned.Util

open LittleEndian

namespace pwned

/-- `ntohll` on a little-endian host: the bytes of the word in reverse. -/
def ntohll (x : BitVec 64) : BitVec 64 := BitVec.ofNat 64 (value (bytes 8 x.toNat).reverse)

namespace Hash

def toHostByteOrder (h : Hash) : Hash := { h with upper := ntohll h.upper, lower := ntohll h.lower }

/-- The bytes that the loop of `fromHex` stores. -/
def fromHexBytes : List UInt8 → List UInt8
  | a :: b :: rest =>
    let hi := decodeHex a
    let lo := decodeHex b
    if 0 ≤ hi ∧ 0 ≤ lo then UInt8.ofNat (hi * 16 + lo).toNat :: fromHexBytes rest else []
  | _ => []

def fromHex (seq : List UInt8) : Hash :=
  let hash : Hash := {}
  let hash :=
    if seq.length = 2 * size then
      let bs := fromHexBytes seq
      { hash.setData (overwrite hash.data bs) with isValid := bs.length == size }
    else hash
  hash.toHostByteOrder

def hexDigit (n : Nat) : UInt8 := UInt8.ofNat (if n < 10 then 48 + n else 97 + (n - 10))

/-- The sixteen hex digits of a word. -/
def hexWord (w : BitVec 64) : List UInt8 :=
  (List.range 16).map fun i => hexDigit (w.toNat / 16 ^ (15 - i) % 16)

def toString (h : Hash) : List UInt8 := hexWord h.upper ++ hexWord h.lower

/-- A digit under `std::uppercase`. -/
def upperHexDigit (n : Nat) : UInt8 := UInt8.ofNat (if n < 10 then 48 + n else 65 + (n - 10))

def upperHexWord (w : BitVec 64) : List UInt8 :=
  (List.range 16).map fun i => upperHexDigit (w.toNat / 16 ^ (15 - i) % 16)

/-- `toString(uppercase)`, whose default is `false`. -/
def toStringCase (h : Hash) (uppercase : Bool) : List UInt8 :=
  if uppercase then upperHexWord h.upper ++ upperHexWord h.lower else h.toString

/-! ## The number that a string spells -/

/-- The digits of a string in front of the first pair with a bad one. -/
def goodDigits : List UInt8 → List UInt8
  | a :: b :: rest =>
    if 0 ≤ decodeHex a ∧ 0 ≤ decodeHex b then a :: b :: goodDigits rest else []
  | _ => []

/-- The number that hex digits spell. -/
def hexNumber (ds : List UInt8) : Nat := ds.foldl (fun n c => 16 * n + (decodeHex c).toNat) 0

/-- The good digits at the start of a string of 32 characters, followed by zeros. A string of
another length has none. -/
def prefixKey (seq : List UInt8) : Nat :=
  if seq.length = 32 then hexNumber (goodDigits seq) * 16 ^ (32 - (goodDigits seq).length) else 0

/-- Exactly 32 hex digits. -/
def WellFormed (seq : List UInt8) : Prop := seq.length = 32 ∧ ∀ c ∈ seq, 0 ≤ decodeHex c

instance (seq : List UInt8) : Decidable (WellFormed seq) := inferInstanceAs (Decidable (_ ∧ _))

/-- The hash whose words spell the number. -/
def ofKey (k : Nat) : Hash := { upper := BitVec.ofNat 64 (k / 2 ^ 64), lower := BitVec.ofNat 64 k }

theorem key_ofKey {k : Nat} (h : k < 2 ^ 128) : (ofKey k).key = k := by
  unfold key ofKey
  rw [BitVec.toNat_ofNat, BitVec.toNat_ofNat]
  omega

theorem key_lt (h : Hash) : h.key < 2 ^ 128 := by
  have hu := h.upper.isLt
  have hl := h.lower.isLt
  unfold key
  omega

/-- The words of a hash are those of its number. -/
theorem upper_ofKey (h : Hash) : (ofKey h.key).upper = h.upper :=
  (words_of_key_eq (key_ofKey h.key_lt)).1

theorem decodeHex_lt (c : UInt8) : decodeHex c < 16 := by
  unfold decodeHex
  simp only [UInt8.le_iff_toNat_le, UInt8.reduceToNat]
  split
  · omega
  · split
    · omega
    · split <;> omega

theorem ntohll_toNat (x : BitVec 64) : (ntohll x).toNat = value (bytes 8 x.toNat).reverse := by
  have hlt : value (bytes 8 x.toNat).reverse < 2 ^ 64 := (value_lt _).trans_eq (by simp)
  unfold ntohll
  rw [BitVec.toNat_ofNat, Nat.mod_eq_of_lt hlt]

/-- Two swaps of the bytes cancel. -/
theorem ntohll_ntohll (x : BitVec 64) : ntohll (ntohll x) = x := by
  have hbytes : bytes 8 (ntohll x).toNat = (bytes 8 x.toNat).reverse :=
    bytes_word (w := 64) _ (by simp) rfl
  rw [ntohll, hbytes, List.reverse_reverse, word_bytes 8 x rfl]

/-- In host order the key is the number that the bytes spell from the front. -/
theorem toHostByteOrder_key (h : Hash) : h.toHostByteOrder.key = value h.data.reverse := by
  unfold key toHostByteOrder data
  dsimp only
  rw [ntohll_toNat, ntohll_toNat, List.reverse_append, value_append, List.length_reverse,
    bytes_length]
  ring

theorem data_setData (h : Hash) {bs : List UInt8} (hbs : bs.length = 16) :
    (h.setData bs).data = bs := by
  have word : ∀ cs : List UInt8, cs.length = 8 →
      bytes 8 (BitVec.ofNat 64 (value cs)).toNat = cs := by
    intro cs hcs
    have hlt : value cs < 2 ^ 64 := (value_lt cs).trans_eq (by rw [hcs]; norm_num)
    rw [BitVec.toNat_ofNat, Nat.mod_eq_of_lt hlt, ← hcs, bytes_value]
  unfold setData data
  dsimp only
  rw [word _ (by simp [hbs]), word _ (by simp [hbs]), List.take_append_drop]

theorem hexNumber_cons (c : UInt8) (ds : List UInt8) :
    hexNumber (c :: ds) = (decodeHex c).toNat * 16 ^ ds.length + hexNumber ds := by
  have hfold : ∀ n, ds.foldl (fun n c => 16 * n + (decodeHex c).toNat) n
      = n * 16 ^ ds.length + hexNumber ds := by
    unfold hexNumber
    induction ds with
    | nil => simp
    | cons d ds ih =>
      intro n
      rw [List.foldl_cons, List.foldl_cons, ih, ih (16 * 0 + _), List.length_cons, pow_succ]
      ring
  unfold hexNumber
  rw [List.foldl_cons, hfold]
  simp [hexNumber]

theorem fromHexBytes_length (seq : List UInt8) :
    2 * (fromHexBytes seq).length = (goodDigits seq).length := by
  fun_induction goodDigits seq with
  | case1 a b rest h ih =>
    simp only [fromHexBytes, h, and_self, if_true, List.length_cons, ← ih]
    ring
  | case2 a b rest h => simp [fromHexBytes, h]
  | case3 seq hseq => simp [fromHexBytes]

theorem value_fromHexBytes (seq : List UInt8) :
    value (fromHexBytes seq).reverse = hexNumber (goodDigits seq) := by
  fun_induction goodDigits seq with
  | case1 a b rest h ih =>
    have ha := decodeHex_lt a
    have hb := decodeHex_lt b
    have hlen : (256 : Nat) ^ (fromHexBytes rest).length = 16 ^ (goodDigits rest).length := by
      rw [← fromHexBytes_length, pow_mul]
      norm_num
    have hbyte : (UInt8.ofNat (decodeHex a * 16 + decodeHex b).toNat).toNat
        = (decodeHex a).toNat * 16 + (decodeHex b).toNat := by
      rw [UInt8.toNat_ofNat']
      omega
    simp only [fromHexBytes, h, and_self, if_true, List.reverse_cons, value_append,
      List.length_reverse, ih, hlen, value_cons, value_nil, hbyte, hexNumber_cons,
      List.length_cons, pow_succ]
    ring
  | case2 a b rest h => simp [fromHexBytes, h, hexNumber]
  | case3 seq hseq => simp [fromHexBytes, hexNumber]

theorem goodDigits_length_le (seq : List UInt8) : (goodDigits seq).length ≤ seq.length := by
  fun_induction goodDigits seq with
  | case1 a b rest h ih =>
    simp only [List.length_cons]
    omega
  | case2 => simp
  | case3 => simp

/-- `fromHex` gives the number that the good digits spell, padded with zeros. -/
theorem fromHex_key (seq : List UInt8) : (fromHex seq).key = prefixKey seq := by
  unfold fromHex prefixKey
  dsimp only
  by_cases hseq : seq.length = 32
  · have hlen := fromHexBytes_length seq
    have hle := goodDigits_length_le seq
    have hdata : ({} : Hash).data = List.replicate 16 0 := by decide
    have hover : overwrite ({} : Hash).data (fromHexBytes seq)
        = fromHexBytes seq ++ List.replicate (16 - (fromHexBytes seq).length) 0 := by
      rw [overwrite, hdata, List.drop_replicate]
    have hpad : (256 : Nat) ^ (16 - (fromHexBytes seq).length)
        = 16 ^ (32 - (goodDigits seq).length) := by
      rw [show 32 - (goodDigits seq).length = 2 * (16 - (fromHexBytes seq).length) by omega,
        pow_mul]
      norm_num
    have hbs : (overwrite ({} : Hash).data (fromHexBytes seq)).length = 16 := by
      rw [hover, List.length_append, List.length_replicate]
      omega
    have hset := data_setData {} hbs
    rw [if_pos (by rw [hseq, size]), if_pos hseq, toHostByteOrder_key]
    unfold data at hset ⊢
    dsimp only
    rw [hset, ← data, hover, List.reverse_append, List.reverse_replicate, value_append,
      value_replicate_zero, List.length_replicate, value_fromHexBytes, hpad]
    ring
  · have hzero : ({} : Hash).toHostByteOrder.key = 0 := by decide
    rw [if_neg (by rwa [size]), if_neg hseq, hzero]

theorem goodDigits_length_eq {seq : List UInt8} (h : seq.length % 2 = 0) :
    (goodDigits seq).length = seq.length ↔ ∀ c ∈ seq, 0 ≤ decodeHex c := by
  fun_induction goodDigits seq with
  | case1 a b rest hab ih =>
    have hrest : rest.length % 2 = 0 := by
      simp only [List.length_cons] at h
      omega
    simp [ih hrest, hab]
  | case2 a b rest hab =>
    simp only [List.length_nil, List.length_cons, List.mem_cons, forall_eq_or_imp]
    constructor
    · intro h0
      omega
    · intro h0
      exact absurd ⟨h0.1, h0.2.1⟩ hab
  | case3 seq hseq =>
    rcases seq with _ | ⟨a, _ | ⟨b, rest⟩⟩
    · simp
    · simp at h
    · exact absurd rfl (hseq a b rest)

/-- The hash is valid for exactly 32 hex digits. -/
theorem fromHex_isValid (seq : List UInt8) : (fromHex seq).isValid = true ↔ WellFormed seq := by
  unfold fromHex WellFormed toHostByteOrder
  dsimp only
  by_cases hseq : seq.length = 32
  · have hlen := fromHexBytes_length seq
    rw [if_pos (by rw [hseq, size]), ← goodDigits_length_eq (by omega)]
    simp only [size, beq_iff_eq]
    omega
  · rw [if_neg (by rwa [size])]
    simp [hseq]

end Hash

end pwned
