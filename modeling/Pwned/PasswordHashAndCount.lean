-- One entry of an MD5:count file: 16 bytes of hash and 4 bytes of count.
-- A file of whole records is the list of its records, and reading it gives
-- them back one by one.
import Pwned.Library.InputStream
import Pwned.Hash

open LittleEndian

namespace pwned

structure PasswordHashAndCount where
  hash : Hash := {}
  count : BitVec 32 := 0
deriving DecidableEq, Repr

namespace PasswordHashAndCount

/-- `PasswordHashAndCount::size` -/
def size : Nat := Hash.size + 4

/-- `read(f)`. What a short read transferred stays in the hash or in the count. -/
def read (p : PasswordHashAndCount) (f : InputStream) :
    Bool × PasswordHashAndCount × InputStream :=
  let (hashBytes, f₁) := f.read Hash.size
  let p₁ := { p with hash := p.hash.setData (overwrite p.hash.data hashBytes) }
  if hashBytes.length ≠ Hash.size then (false, p₁, f₁)
  else
    let (countBytes, f₂) := f₁.read 4
    let p₂ := { p₁ with
      count := BitVec.ofNat 32 (value (overwrite (bytes 4 p₁.count.toNat) countBytes)) }
    (countBytes.length == 4, p₂, f₂)

/-- `read(f, pos)` -/
def readAt (p : PasswordHashAndCount) (f : InputStream) (pos : Int) :
    Bool × PasswordHashAndCount × InputStream :=
  p.read (f.seekg pos)

/-- The bytes that `dump(f)` writes. -/
def dump (p : PasswordHashAndCount) : List UInt8 := p.hash.data ++ bytes 4 p.count.toNat

end PasswordHashAndCount

/-! ## Records -/

/-- What one record of a file says: the words of the hash and the count. -/
structure Record where
  upper : BitVec 64
  lower : BitVec 64
  count : BitVec 32
deriving DecidableEq, Repr

namespace Record

/-- The record as it is after a read. A read never marks the hash as valid. -/
def phc (r : Record) : PasswordHashAndCount :=
  { hash := { upper := r.upper, lower := r.lower }, count := r.count }

def key (r : Record) : Nat := r.phc.hash.key

def encode (r : Record) : List UInt8 := r.phc.dump

/-- The record that the first 20 bytes hold. -/
def decode (bs : List UInt8) : Record :=
  { upper := BitVec.ofNat 64 (value (bs.take 8)),
    lower := BitVec.ofNat 64 (value ((bs.drop 8).take 8)),
    count := BitVec.ofNat 32 (value ((bs.drop 16).take 4)) }

@[simp] theorem phc_hash_key (r : Record) : r.phc.hash.key = r.key := rfl

@[simp] theorem phc_count (r : Record) : r.phc.count = r.count := rfl

@[simp] theorem phc_isValid (r : Record) : r.phc.hash.isValid = false := rfl

@[simp] theorem encode_length (r : Record) : r.encode.length = 20 := by
  simp [encode, PasswordHashAndCount.dump]

/-- A record comes back from its bytes. -/
theorem decode_encode (r : Record) (bs : List UInt8) : decode (r.encode ++ bs) = r := by
  have hnil : (bytes 8 r.upper.toNat).drop 16 = [] := List.drop_eq_nil_of_le (by simp)
  simp [decode, encode, PasswordHashAndCount.dump, Hash.data, phc, List.drop_append, hnil]

/-- Any 20 bytes are those of a record. -/
theorem encode_decode {bs : List UInt8} (h : bs.length = 20) : (decode bs).encode = bs := by
  have hupper := bytes_word (w := 64) (n := 8) (bs.take 8) (by simp [h]) rfl
  have hlower := bytes_word (w := 64) (n := 8) ((bs.drop 8).take 8) (by simp [h]) rfl
  have hcount := bytes_word (w := 32) (n := 4) ((bs.drop 16).take 4) (by simp [h]) rfl
  unfold decode encode phc PasswordHashAndCount.dump Hash.data
  dsimp only
  rw [hupper, hlower, hcount, ← List.take_add, ← List.take_add]
  exact List.take_of_length_le h.le

end Record

/-- The record that an entry is written as. -/
def PasswordHashAndCount.record (p : PasswordHashAndCount) : Record :=
  { upper := p.hash.upper, lower := p.hash.lower, count := p.count }

@[simp] theorem Record.record_phc (r : Record) : r.phc.record = r := rfl

@[simp] theorem PasswordHashAndCount.record_key (p : PasswordHashAndCount) :
    p.record.key = p.hash.key := rfl

@[simp] theorem PasswordHashAndCount.record_encode (p : PasswordHashAndCount) :
    p.record.encode = p.dump := rfl

/-! ## Files of whole records -/

/-- The bytes of a file of whole records. -/
def encodeAll (rs : List Record) : List UInt8 := rs.flatMap Record.encode

/-- The whole records of a file. -/
def decodeAll (bs : List UInt8) : List Record :=
  (List.range (bs.length / 20)).map fun i => Record.decode (bs.drop (20 * i))

/-- Strictly increasing by hash. -/
def StrictlyIncreasing (rs : List Record) : Prop := rs.Pairwise fun a b => a.key < b.key

instance (rs : List Record) : Decidable (StrictlyIncreasing rs) :=
  inferInstanceAs (Decidable (rs.Pairwise _))

@[simp] theorem encodeAll_nil : encodeAll [] = [] := rfl

@[simp] theorem encodeAll_cons (r : Record) (rs : List Record) :
    encodeAll (r :: rs) = r.encode ++ encodeAll rs := rfl

@[simp] theorem encodeAll_append (rs ss : List Record) :
    encodeAll (rs ++ ss) = encodeAll rs ++ encodeAll ss := List.flatMap_append

@[simp] theorem encodeAll_length (rs : List Record) : (encodeAll rs).length = 20 * rs.length :=
  length_flatMap_of_block Record.encode_length rs

theorem drop_encodeAll (rs : List Record) (i : Nat) :
    (encodeAll rs).drop (20 * i) = encodeAll (rs.drop i) :=
  drop_flatMap_of_block Record.encode_length rs i

theorem decodeAll_encodeAll (rs : List Record) : decodeAll (encodeAll rs) = rs := by
  apply List.ext_getElem
  · simp [decodeAll]
  · intro i h₁ h₂
    simp only [decodeAll, List.getElem_map, List.getElem_range, drop_encodeAll]
    rw [List.drop_eq_getElem_cons h₂, encodeAll_cons, Record.decode_encode]

theorem encodeAll_injective {rs ss : List Record} (h : encodeAll rs = encodeAll ss) : rs = ss := by
  rw [← decodeAll_encodeAll rs, h, decodeAll_encodeAll]

/-! ## Hashes and counts -/

/-- The hashes of the records, as numbers. -/
def keys (rs : List Record) : List Nat := rs.map Record.key

@[simp] theorem keys_nil : keys [] = [] := rfl

@[simp] theorem keys_cons (r : Record) (rs : List Record) : keys (r :: rs) = r.key :: keys rs := rfl

@[simp] theorem keys_append (rs ss : List Record) : keys (rs ++ ss) = keys rs ++ keys ss := by
  simp [keys]

theorem mem_keys {rs : List Record} {k : Nat} : k ∈ keys rs ↔ ∃ r ∈ rs, r.key = k := by
  simp [keys]

theorem strictlyIncreasing_concat {rs : List Record} {r : Record} :
    StrictlyIncreasing (rs ++ [r]) ↔ StrictlyIncreasing rs ∧ ∀ k ∈ keys rs, k < r.key := by
  simp [StrictlyIncreasing, List.pairwise_append, keys]

/-- The sum of the counts under one hash. -/
def tally (rs : List Record) (k : Nat) : Nat :=
  (rs.map fun r => if r.key = k then r.count.toNat else 0).sum

@[simp] theorem tally_nil (k : Nat) : tally [] k = 0 := rfl

@[simp] theorem tally_cons (r : Record) (rs : List Record) (k : Nat) :
    tally (r :: rs) k = (if r.key = k then r.count.toNat else 0) + tally rs k := by
  simp [tally]

@[simp] theorem tally_append (rs ss : List Record) (k : Nat) :
    tally (rs ++ ss) k = tally rs k + tally ss k := by
  simp [tally]

theorem tally_le (rs : List Record) (k : Nat) :
    tally rs k ≤ (rs.map fun r => r.count.toNat).sum := by
  apply List.sum_le_sum
  intro r _
  split
  · exact le_rfl
  · exact Nat.zero_le _

theorem tally_flatMap {α : Type*} (f : α → List Record) (l : List α) (k : Nat) :
    tally (l.flatMap f) k = (l.map fun a => tally (f a) k).sum := by
  induction l with
  | nil => rfl
  | cons a l ih => rw [List.flatMap_cons, tally_append, ih, List.map_cons, List.sum_cons]

theorem tally_perm {rs ss : List Record} (h : rs.Perm ss) (k : Nat) : tally rs k = tally ss k :=
  (h.map _).sum_eq

/-- The sums under all hashes together are the sum of all counts. -/
theorem sum_tally (ks : Finset Nat) {rs : List Record} (h : ∀ r ∈ rs, r.key ∈ ks) :
    ∑ k ∈ ks, tally rs k = (rs.map fun r => r.count.toNat).sum := by
  induction rs with
  | nil => simp
  | cons r rs ih =>
    simp only [tally_cons, Finset.sum_add_distrib, Finset.sum_ite_eq, h r (by simp), if_true,
      List.map_cons, List.sum_cons]
    rw [ih fun q hq => h q (by simp [hq])]

theorem tally_eq_zero {rs : List Record} {k : Nat} (h : ∀ r ∈ rs, r.key ≠ k) :
    tally rs k = 0 := by
  induction rs with
  | nil => rfl
  | cons r rs ih =>
    rw [tally_cons, if_neg (h r (by simp)), ih fun q hq => h q (by simp [hq])]

/-- In a strictly increasing file the sum under a hash is the count of its one record. -/
theorem StrictlyIncreasing.tally_eq {rs : List Record} (h : StrictlyIncreasing rs) {r : Record}
    (hr : r ∈ rs) : tally rs r.key = r.count.toNat := by
  induction rs with
  | nil => cases hr
  | cons q rs ih =>
    obtain ⟨hq, hrs⟩ := List.pairwise_cons.mp h
    rw [tally_cons]
    rcases List.mem_cons.mp hr with rfl | hr
    · rw [if_pos rfl, tally_eq_zero fun s hs => (hq s hs).ne', Nat.add_zero]
    · rw [if_neg (hq r hr).ne, Nat.zero_add, ih hrs hr]

/-! ## Reading a file of whole records -/

/-- The stream is good, and the records are what it has still to give. -/
structure Gives (f : InputStream) (rs : List Record) : Prop where
  good : f.good = true
  rest : f.content.drop f.pos = encodeAll rs
  pos_le : f.pos ≤ f.content.length

theorem gives_open (rs : List Record) : Gives { content := encodeAll rs } rs :=
  ⟨rfl, rfl, Nat.zero_le _⟩

theorem gives_seekg {f : InputStream} {rs : List Record} (hc : f.content = encodeAll rs)
    (hf : f.fail = false) {i : Nat} (hi : i ≤ rs.length) :
    Gives (f.seekg (20 * i : Nat)) (rs.drop i) := by
  refine ⟨InputStream.seekg_good _ hf, ?_, ?_⟩
  · rw [InputStream.seekg_nat _ hf]
    simp only [hc]
    exact drop_encodeAll rs i
  · rw [InputStream.seekg_nat _ hf]
    simp [hc, hi]

namespace PasswordHashAndCount

/-- A read in front of a record gives the record. The valid flag stays as it was. -/
theorem read_of_gives {f : InputStream} {r : Record} {rs : List Record}
    (p : PasswordHashAndCount) (hp : p.hash.isValid = false) (h : Gives f (r :: rs)) :
    ∃ g, p.read f = (true, r.phc, g) ∧ Gives g rs ∧ g.content = f.content ∧
      g.pos = f.pos + 20 := by
  obtain ⟨hg, hrest, hpos⟩ := h
  have hlen : f.content.length = f.pos + 20 * (rs.length + 1) := by
    have := congrArg List.length hrest
    simp only [List.length_drop, encodeAll_length, List.length_cons] at this
    omega
  have hhash : (f.content.drop f.pos).take 16 = r.phc.hash.data := by
    rw [hrest]
    simp [Record.encode, dump]
  have hcount : (f.content.drop (f.pos + 16)).take 4 = bytes 4 r.count.toNat := by
    rw [← List.drop_drop, hrest]
    simp [Record.encode, dump]
  have h16 := InputStream.read_of_le (n := 16) hg (by omega)
  have h4 := InputStream.read_of_le (s := { f with pos := f.pos + 16 }) (n := 4) hg
    (by simp only; omega)
  rw [hhash] at h16
  rw [hcount] at h4
  refine ⟨{ f with pos := f.pos + 20 }, ?_, ⟨hg, ?_, by simp only; omega⟩, rfl, rfl⟩
  · have hset := Hash.setData_data p.hash r.phc.hash
    have hdata : overwrite p.hash.data r.phc.hash.data = r.phc.hash.data :=
      overwrite_of_length (by simp)
    have hword : overwrite (bytes 4 p.count.toNat) (bytes 4 r.count.toNat) =
        bytes 4 r.count.toNat := overwrite_of_length (by simp)
    rw [hp] at hset
    simp only [read, Hash.size, h16, h4, Hash.data_length, ne_eq, not_true_eq_false, if_false,
      hdata, hset, hword, bytes_length]
    simp [Record.phc]
  · simp only
    rw [← List.drop_drop, hrest]
    simp

/-- A read at the end of the file leaves the entry as it was and fails the stream. -/
theorem read_at_end {f : InputStream} (p : PasswordHashAndCount) (h : Gives f []) :
    p.read f = (false, p, { f with eofbit := true, failbit := true }) := by
  obtain ⟨hg, hrest, _⟩ := h
  have hend : f.content.length ≤ f.pos := by
    have := congrArg List.length hrest
    simp at this
    omega
  rw [read, InputStream.read_at_end hg (by decide) hend]
  simp [Hash.size, Hash.setData_data]

/-- A read on a failed stream leaves the entry as it was. -/
theorem read_of_fail {f : InputStream} (p : PasswordHashAndCount) (h : f.fail = true) :
    p.read f = (false, p, { f with failbit := true }) := by
  rw [read, InputStream.read_of_not_good (InputStream.not_good_of_fail h)]
  simp [Hash.size, Hash.setData_data]

/-- A read of an empty file leaves the entry as it was. -/
theorem read_of_empty {f : InputStream} (p : PasswordHashAndCount) (h : f.content = []) :
    ∃ g, p.read f = (false, p, g) ∧ g.content = [] := by
  have hread : (f.read Hash.size).1 = [] := by
    unfold InputStream.read
    split <;> simp [h]
  refine ⟨(f.read Hash.size).2, ?_, by rw [InputStream.read_content, h]⟩
  unfold read
  dsimp only
  rw [hread]
  simp [Hash.size, Hash.setData_data]

end PasswordHashAndCount

/-! ## Short reads -/

/-- What stands in an entry when the bytes are read over it. -/
def PasswordHashAndCount.overlay (p : PasswordHashAndCount) (tail : List UInt8) : Record :=
  Record.decode (overwrite p.dump tail)

namespace PasswordHashAndCount

/-- The record of an entry whose bytes are given. -/
theorem decode_append (h : Hash) {hash count : List UInt8} (hh : hash.length = 16)
    (hc : count.length = 4) :
    Record.decode (hash ++ count) =
      record { hash := h.setData hash, count := BitVec.ofNat 32 (value count) } := by
  have h8 : (hash ++ count).take 8 = hash.take 8 := List.take_append_of_le_length (by omega)
  have h16 : ((hash ++ count).drop 8).take 8 = hash.drop 8 := by
    rw [List.drop_append_of_le_length (by omega), List.take_left' (by simp [hh])]
  have h20 : ((hash ++ count).drop 16).take 4 = count := by
    rw [List.drop_left' hh, List.take_of_length_le hc.le]
  unfold Record.decode record Hash.setData
  rw [h8, h16, h20]

/-- Bytes that are there already change nothing. -/
theorem overlay_of_prefix {p : PasswordHashAndCount} {tail : List UInt8} (h : tail <+: p.dump) :
    p.overlay tail = p.record := by
  obtain ⟨rest, hrest⟩ := h
  have hdump : overwrite p.dump tail = p.record.encode ++ [] := by
    rw [overwrite, ← hrest, List.drop_left, hrest, List.append_nil, record_encode]
  rw [overlay, hdump, Record.decode_encode]

/-- A read that comes to the end of the file leaves its bytes in the entry and fails the
stream. -/
theorem read_short {f : InputStream} (p : PasswordHashAndCount) {tail : List UInt8}
    (h : f.Holds tail) (hlen : tail.length < 20) :
    ∃ p' g, p.read f = (false, p', g) ∧ p'.record = p.overlay tail ∧
      p'.hash.isValid = p.hash.isValid ∧ g.content = f.content ∧ g.fail = true := by
  unfold read overlay dump
  by_cases h16 : tail.length < 16
  · obtain ⟨g, hread, hc, hf⟩ := h.read_short h16
    have hover : overwrite (p.hash.data ++ bytes 4 p.count.toNat) tail =
        overwrite p.hash.data tail ++ bytes 4 p.count.toNat := by
      unfold overwrite
      rw [List.drop_append_of_le_length (by simp; omega), List.append_assoc]
    have hlen16 : (overwrite p.hash.data tail).length = 16 := by
      simp [overwrite]
      omega
    rw [Hash.size, hread]
    dsimp only
    rw [if_pos (by omega), hover, decode_append p.hash hlen16 (bytes_length 4 _),
      word_bytes 4 p.count rfl]
    exact ⟨_, g, rfl, rfl, rfl, hc, hf⟩
  · have hsplit : tail = tail.take 16 ++ tail.drop 16 := (List.take_append_drop 16 tail).symm
    have hlen16 : (tail.take 16).length = 16 := by simp; omega
    rw [hsplit] at h
    obtain ⟨g₁, hread₁, hg₁⟩ := h.read hlen16
    obtain ⟨g, hread, hc, hf⟩ := hg₁.read_short (n := 4) (by simp; omega)
    have hc₁ : g₁.content = f.content := by
      have hcontent := InputStream.read_content f 16
      rw [hread₁] at hcontent
      exact hcontent
    have hdata : overwrite p.hash.data (tail.take 16) = tail.take 16 :=
      overwrite_of_length (by simp; omega)
    have hover : overwrite (p.hash.data ++ bytes 4 p.count.toNat) tail =
        tail.take 16 ++ overwrite (bytes 4 p.count.toNat) (tail.drop 16) := by
      unfold overwrite
      rw [← List.append_assoc, List.take_append_drop, List.drop_append,
        List.drop_eq_nil_of_le (by simp; omega), List.nil_append, Hash.data_length,
        List.length_drop]
    have hshort : (tail.drop 16).length ≠ 4 := by simp; omega
    rw [Hash.size, hread₁]
    dsimp only
    rw [if_neg (by omega), hread, hdata, hover,
      decode_append p.hash hlen16 (by simp [overwrite]; omega)]
    dsimp only
    refine ⟨_, g, ?_, rfl, rfl, by rw [hc, hc₁], hf⟩
    rw [beq_false_of_ne hshort]

/-- A read in front of a record gives the record, whatever comes behind it. -/
theorem read_of_holds {f : InputStream} {r : Record} {bs : List UInt8}
    (p : PasswordHashAndCount) (hp : p.hash.isValid = false) (h : f.Holds (r.encode ++ bs)) :
    ∃ g, p.read f = (true, r.phc, g) ∧ g.Holds bs ∧ g.content = f.content := by
  unfold Record.encode dump at h
  rw [List.append_assoc] at h
  obtain ⟨g₁, hread₁, hg₁⟩ := h.read (Hash.data_length _)
  obtain ⟨g, hread, hg⟩ := hg₁.read (bytes_length 4 _)
  have hc₁ := InputStream.read_content f 16
  have hc := InputStream.read_content g₁ 4
  rw [hread₁] at hc₁
  rw [hread] at hc
  have hdata : overwrite p.hash.data r.phc.hash.data = r.phc.hash.data :=
    overwrite_of_length (by simp)
  have hset := Hash.setData_data p.hash r.phc.hash
  have hword : overwrite (bytes 4 p.count.toNat) (bytes 4 r.phc.count.toNat) =
      bytes 4 r.phc.count.toNat := overwrite_of_length (by simp)
  rw [hp] at hset
  refine ⟨g, ?_, hg, hc.trans hc₁⟩
  unfold read
  rw [Hash.size, hread₁]
  dsimp only
  rw [if_neg (by simp), hread, hdata, hset, hword, bytes_length, word_bytes 4 r.phc.count rfl]
  rfl

end PasswordHashAndCount

end pwned
