-- The population count of the build without the instruction: sums of bits in
-- parallel, and the shift that is read off the size of an index by it.
import Pwned.IndexedLookup
import Pwned.Library.Lanes

open LittleEndian Lanes

namespace pwned

/-- `popcnt64` as the build with `NO_POPCNT` computes it, which is the default. -/
def popcnt64Portable (x : BitVec 64) : Nat :=
  let m1 : BitVec 64 := 0x5555555555555555
  let m2 : BitVec 64 := 0x3333333333333333
  let m4 : BitVec 64 := 0x0f0f0f0f0f0f0f0f
  let h01 : BitVec 64 := 0x0101010101010101
  let x := x - ((x >>> 1) &&& m1)
  let x := (x &&& m2) + ((x >>> 2) &&& m2)
  let x := (x + (x >>> 4)) &&& m4
  ((x * h01) >>> 56).toNat

/-- `open(inputFilename, indexFilename)` in that build. -/
def PasswordInspector.openIndexedPortable (file index : List UInt8) : PasswordInspector :=
  let nKeys := BitVec.ofNat 64 (index.length / indexKeySize)
  { openFile file with
    mIndexFile := some { content := index },
    mShift := indexKeySize * 8 - popcnt64Portable (nKeys - 1) }

namespace PopCount

/-! ## The steps on one byte -/

/-- The counts of the pairs of bits. -/
def pairs (c : UInt8) : Nat := c.toNat - (c.toNat >>> 1 &&& 0x55)

/-- The counts of the two halves. -/
def halves (c : UInt8) : Nat := (pairs c &&& 0x33) + (pairs c >>> 2 &&& 0x33)

/-- The count of the byte. -/
def whole (c : UInt8) : Nat := halves c + halves c >>> 4 &&& 0x0f

/-- What the steps do to a byte: nothing leaves it, and the result is its count. -/
structure Counted (c : UInt8) : Prop where
  borrow : c.toNat >>> 1 &&& 0x55 ≤ c.toNat
  pairs_lt : pairs c < 256
  halves_le : halves c ≤ 0x44
  low_le : halves c % 16 ≤ 4
  whole_eq : whole c = ones 8 c.toNat

theorem counted (c : UInt8) : Counted c := by
  have hall : ∀ n : Nat, n < 256 →
      (UInt8.ofNat n).toNat >>> 1 &&& 0x55 ≤ (UInt8.ofNat n).toNat ∧
      pairs (UInt8.ofNat n) < 256 ∧ halves (UInt8.ofNat n) ≤ 0x44 ∧
      halves (UInt8.ofNat n) % 16 ≤ 4 ∧
      whole (UInt8.ofNat n) = ones 8 (UInt8.ofNat n).toNat := by
    decide +kernel
  have hc := hall c.toNat c.toNat_lt
  rw [UInt8.ofNat_toNat] at hc
  exact ⟨hc.1, hc.2.1, hc.2.2.1, hc.2.2.2.1, hc.2.2.2.2⟩

/-! ## The steps on the word -/

theorem pack_bytes (x : BitVec 64) : pack 8 UInt8.toNat (bytes 8 x.toNat) = x.toNat := by
  have hvalue : ∀ bs : List UInt8, pack 8 UInt8.toNat bs = value bs := by
    intro bs
    induction bs with
    | nil => rfl
    | cons b bs ih =>
      rw [pack_cons, ih]
      rfl
  rw [hvalue, value_bytes]
  have hx := x.isLt
  omega

/-- The masks are rows of one byte. -/
theorem pack_mask {bs : List UInt8} (hbs : bs.length = 8) (m : Nat) :
    pack 8 (fun _ => m) bs = m * 0x0101010101010101 := by
  rw [pack_const, hbs]
  simp only [List.replicate, pack_cons, pack_nil]
  ring

variable {bs : List UInt8} {x : BitVec 64}

/-- Behind a mask, a shift stays inside the bytes. -/
theorem shift_and_mask {f : UInt8 → Nat} {k m : Nat} {mask : BitVec 64} (hk : k ≤ 8)
    (hf : ∀ c, f c < 256) (hm : m < 2 ^ (8 - k)) (hmask : mask.toNat = pack 8 (fun _ => m) bs)
    (hx : x.toNat = pack 8 f bs) :
    (x >>> k &&& mask).toNat = pack 8 (fun c => f c >>> k &&& m) bs := by
  rw [BitVec.toNat_and, BitVec.toNat_ushiftRight, hx, hmask]
  exact pack_shift_and hk (fun c _ => hf c) fun _ _ => hm

/-- No byte borrows from the next one. -/
theorem pairs_step (hbs : bs.length = 8) (hx : x.toNat = pack 8 UInt8.toNat bs) :
    (x - (x >>> 1 &&& 0x5555555555555555)).toNat = pack 8 pairs bs := by
  have hmask : (0x5555555555555555 : BitVec 64).toNat = pack 8 (fun _ => 0x55) bs := by
    rw [pack_mask hbs]
    rfl
  have hand := shift_and_mask (k := 1) (by norm_num) UInt8.toNat_lt (by norm_num) hmask hx
  have hsub := pack_sub (w := 8) fun c (_ : c ∈ bs) => (counted c).borrow
  rw [BitVec.toNat_sub_of_le, hx, hand]
  · exact hsub.2
  · rw [BitVec.le_def, hx, hand]
    exact hsub.1

/-- No byte carries into the next one. -/
theorem halves_step (hbs : bs.length = 8) (hx : x.toNat = pack 8 pairs bs) :
    ((x &&& (0x3333333333333333 : BitVec 64)) +
      (x >>> 2 &&& (0x3333333333333333 : BitVec 64))).toNat = pack 8 halves bs := by
  have hmask : (0x3333333333333333 : BitVec 64).toNat = pack 8 (fun _ => 0x33) bs := by
    rw [pack_mask hbs]
    rfl
  have hlow : (x &&& (0x3333333333333333 : BitVec 64)).toNat =
      pack 8 (fun c => pairs c &&& 0x33) bs := by
    rw [BitVec.toNat_and, hx, hmask]
    exact pack_and (fun c _ => (counted c).pairs_lt) fun _ _ => by norm_num
  have hhigh := shift_and_mask (k := 2) (by norm_num) (fun c => (counted c).pairs_lt)
    (by norm_num) hmask hx
  rw [BitVec.toNat_add, hlow, hhigh, pack_add]
  apply Nat.mod_eq_of_lt
  have hlt : ∀ c ∈ bs, halves c < 2 ^ 8 := fun c _ =>
    lt_of_le_of_lt (counted c).halves_le (by norm_num)
  have hfits := pack_lt (by norm_num) hlt
  rwa [hbs] at hfits

/-- The low half of the next byte lands in the high half, which the mask clears. -/
theorem whole_step (hbs : bs.length = 8) (hx : x.toNat = pack 8 halves bs) :
    (x + x >>> 4 &&& 0x0f0f0f0f0f0f0f0f).toNat = pack 8 whole bs := by
  have hmask : (0x0f0f0f0f0f0f0f0f : BitVec 64).toNat = pack 8 (fun _ => 0x0f) bs := by
    rw [pack_mask hbs]
    rfl
  have hbound : pack 8 halves bs ≤ pack 8 (fun _ => 0x44) bs :=
    (pack_sub fun c _ => (counted c).halves_le).1
  have hroom : pack 8 halves bs + pack 8 halves bs >>> 4 < 2 ^ 64 := by
    rw [pack_mask hbs] at hbound
    rw [Nat.shiftRight_eq_div_pow]
    omega
  rw [BitVec.toNat_and, BitVec.toNat_add, BitVec.toNat_ushiftRight, hx,
    Nat.mod_eq_of_lt hroom, hmask]
  apply pack_add_shift_and (by norm_num) fun c _ => (counted c).low_le
  · intro c _
    have hc := (counted c).halves_le
    rw [Nat.shiftRight_eq_div_pow]
    omega
  · intro _ _
    norm_num

/-- The product with ones has the sum of the bytes on top. -/
theorem sum_step (hbs : bs.length = 8) (hx : x.toNat = pack 8 whole bs) :
    ((x * 0x0101010101010101) >>> 56).toNat = (bs.map whole).sum := by
  have hones : (0x0101010101010101 : BitVec 64).toNat = pack 8 (fun _ => 1) bs := by
    rw [pack_mask hbs]
    rfl
  have hcounts : ∀ n ∈ bs.map whole, n ≤ 8 := by
    simp only [List.forall_mem_map]
    intro c _
    rw [(counted c).whole_eq]
    exact ones_le 8 c.toNat
  have hsum := List.sum_le_card_nsmul _ 8 hcounts
  rw [List.length_map, hbs, smul_eq_mul] at hsum
  rw [BitVec.toNat_ushiftRight, BitVec.toNat_mul, hx, hones,
    Nat.shiftRight_eq_div_pow]
  cases bs with
  | nil => simp at hbs
  | cons c bs =>
    have hlen : bs.length = 7 := by simpa using hbs
    have htop := mul_ones_top (w := 8) (f := whole) c (by omega : ((c :: bs).map whole).sum < 2 ^ 8)
    rw [hbs, hlen] at htop
    exact htop

theorem popcnt64Portable_eq_ones (x : BitVec 64) : popcnt64Portable x = ones 64 x.toNat := by
  have hbs : (bytes 8 x.toNat).length = 8 := bytes_length 8 x.toNat
  have hx := pack_bytes x
  have hfits : ∀ c ∈ bytes 8 x.toNat, c.toNat < 2 ^ 8 := fun c _ => c.toNat_lt
  have hcount := ones_pack hfits
  rw [hbs, hx] at hcount
  have hpairs := pairs_step hbs hx.symm
  have hhalves := halves_step hbs hpairs
  have hwhole := whole_step hbs hhalves
  have hsum := sum_step hbs hwhole
  have hmap : (bytes 8 x.toNat).map whole = (bytes 8 x.toNat).map fun c => ones 8 c.toNat :=
    List.map_congr_left fun c _ => (counted c).whole_eq
  unfold popcnt64Portable
  dsimp only
  rw [hsum, hcount, hmap]

theorem popcnt64_eq_ones (x : BitVec 64) : popcnt64 x = ones 64 x.toNat := by
  have hrec : ∀ n, x.cpopNatRec n 0 = (List.range n).countP x.toNat.testBit := by
    intro n
    induction n with
    | zero => rfl
    | succ n ih =>
      rw [BitVec.cpopNatRec_succ, BitVec.cpopNatRec_eq, ih, List.range_succ,
        List.countP_append]
      cases hbit : x.toNat.testBit n <;> simp [BitVec.getLsbD, hbit]
  rw [popcnt64, BitVec.toNat_cpop, hrec]
  rfl

theorem popcnt64Portable_eq (x : BitVec 64) : popcnt64Portable x = popcnt64 x := by
  rw [popcnt64Portable_eq_ones, popcnt64_eq_ones]

/-! ## The shift of an index -/

open PasswordInspector (openIndexed openIndexedPortable openIndexed_mShift indexKeySize)

theorem openIndexedPortable_eq (file index : List UInt8) :
    openIndexedPortable file index = openIndexed file index := by
  unfold openIndexedPortable openIndexed
  simp only [popcnt64Portable_eq]

/-- Both builds count the one bits, and read off the size of an index the shift that it was
built with. -/
theorem both_builds_count_the_ones :
    (∀ x : BitVec 64, popcnt64Portable x = ((List.range 64).filter fun i => x.getLsbD i).length ∧
      popcnt64Portable x = popcnt64 x) ∧
    ∀ (b : Nat) (file index : List UInt8), index.length / indexKeySize = 2 ^ b →
      (openIndexedPortable file index).mShift = 64 - b ∧
        (openIndexed file index).mShift = 64 - b := by
  constructor
  · intro x
    refine ⟨?_, popcnt64Portable_eq x⟩
    rw [popcnt64Portable_eq_ones, ones, List.countP_eq_length_filter]
    rfl
  · intro b file index hlen
    rw [openIndexedPortable_eq]
    exact ⟨openIndexed_mShift hlen, openIndexed_mShift hlen⟩

/-- Four entries of two bits. -/
theorem both_builds_count_the_ones_four :
    (List.replicate 32 (0 : UInt8)).length / indexKeySize = 2 ^ 2 ∧
      (openIndexedPortable [] (List.replicate 32 0)).mShift = 62 := by
  have hlen : (List.replicate 32 (0 : UInt8)).length / indexKeySize = 2 ^ 2 := by decide
  exact ⟨hlen, (both_builds_count_the_ones.2 2 [] _ hlen).1⟩

end PopCount
end pwned
