-- Words as bytes, the least significant byte first, and files that are
-- rows of blocks of one size.
import Mathlib

namespace LittleEndian

/-- The low `n` bytes of `x`. -/
def bytes : Nat → Nat → List UInt8
  | 0, _ => []
  | n + 1, x => UInt8.ofNat x :: bytes n (x / 256)

/-- The number that the bytes hold. -/
def value (bs : List UInt8) : Nat := Nat.ofDigits 256 (bs.map UInt8.toNat)

/-- Bytes copied over the start of a buffer. The rest of the buffer stays. -/
def overwrite (old new : List UInt8) : List UInt8 := new ++ old.drop new.length

@[simp] theorem bytes_length (n x : Nat) : (bytes n x).length = n := by
  induction n generalizing x with
  | zero => rfl
  | succ n ih => simp [bytes, ih]

@[simp] theorem value_nil : value [] = 0 := rfl

theorem value_cons (b : UInt8) (bs : List UInt8) : value (b :: bs) = b.toNat + 256 * value bs :=
  Nat.ofDigits_cons

theorem value_append (as bs : List UInt8) :
    value (as ++ bs) = value as + 256 ^ as.length * value bs := by
  unfold value
  rw [List.map_append, Nat.ofDigits_append, List.length_map]

@[simp] theorem value_replicate_zero (n : Nat) : value (List.replicate n 0) = 0 := by
  unfold value
  rw [List.map_replicate]
  exact Nat.ofDigits_append_replicate_zero []

theorem value_bytes (n x : Nat) : value (bytes n x) = x % 256 ^ n := by
  induction n generalizing x with
  | zero => simp [bytes, Nat.mod_one]
  | succ n ih =>
    simp only [bytes, value_cons, ih, UInt8.toNat_ofNat']
    exact (pow_succ' 256 n ▸ Nat.mod_mul).symm

theorem value_lt (bs : List UInt8) : value bs < 256 ^ bs.length := by
  have hlt := Nat.ofDigits_lt_base_pow_length (b := 256) (l := bs.map UInt8.toNat) (by norm_num)
    (by simpa using fun b _ => b.toNat_lt)
  rwa [List.length_map] at hlt

theorem bytes_value (bs : List UInt8) : bytes bs.length (value bs) = bs := by
  induction bs with
  | nil => rfl
  | cons b bs ih =>
    have hb : b.toNat < 256 := b.toNat_lt
    have hdiv : (b.toNat + 256 * value bs) / 256 = value bs := by omega
    have hhead : UInt8.ofNat (b.toNat + 256 * value bs) = b := by
      apply UInt8.toNat_inj.mp
      rw [UInt8.toNat_ofNat']
      omega
    simp only [List.length_cons, bytes, value_cons, hdiv, hhead, ih]

/-- A word comes back from its bytes. -/
@[simp] theorem word_bytes {w : Nat} (n : Nat) (x : BitVec w) (h : w = 8 * n) :
    BitVec.ofNat w (value (bytes n x.toNat)) = x := by
  apply BitVec.eq_of_toNat_eq
  rw [BitVec.toNat_ofNat, value_bytes, show (256 : Nat) = 2 ^ 8 by norm_num, ← pow_mul, ← h,
    Nat.mod_mod, Nat.mod_eq_of_lt x.isLt]

/-- Bytes come back from their word. -/
theorem bytes_word {w n : Nat} (bs : List UInt8) (hbs : bs.length = n) (h : w = 8 * n) :
    bytes n (BitVec.ofNat w (value bs)).toNat = bs := by
  have hlt : value bs < 2 ^ w := by
    have hv := value_lt bs
    rwa [hbs, show (256 : Nat) = 2 ^ 8 by norm_num, ← pow_mul, ← h] at hv
  rw [BitVec.toNat_ofNat, Nat.mod_eq_of_lt hlt, ← hbs, bytes_value]

theorem overwrite_of_length {old new : List UInt8} (h : old.length ≤ new.length) :
    overwrite old new = new := by
  simp [overwrite, List.drop_eq_nil_of_le h]

@[simp] theorem overwrite_nil (old : List UInt8) : overwrite old [] = old := rfl

/-! ## Rows of blocks -/

section Blocks

variable {α β : Type*} {f : α → List β} {n : Nat}

theorem length_flatMap_of_block (hf : ∀ a, (f a).length = n) (l : List α) :
    (l.flatMap f).length = n * l.length := by
  induction l with
  | nil => simp
  | cons a l ih =>
    simp only [List.flatMap_cons, List.length_append, hf, ih, List.length_cons]
    ring

/-- The bytes from block `i` on are the blocks from `i` on. -/
theorem drop_flatMap_of_block (hf : ∀ a, (f a).length = n) (l : List α) (i : Nat) :
    (l.flatMap f).drop (n * i) = (l.drop i).flatMap f := by
  induction i generalizing l with
  | zero => simp
  | succ i ih =>
    cases l with
    | nil => simp
    | cons a l =>
      have hn : n * (i + 1) = (f a).length + n * i := by rw [hf]; ring
      rw [List.flatMap_cons, hn, List.drop_append, List.drop_succ_cons, ← ih]
      simp

end Blocks

end LittleEndian
