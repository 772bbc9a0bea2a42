-- The index file as the table of bucket starts, built with every access to the
-- table checked.
import Pwned.Index

open LittleEndian

namespace pwned.index

/-! ## The builder with checked accesses -/

/-- An access to the table, nothing out of bounds. -/
def store (indexes : List (BitVec 64)) (idx pos : BitVec 64) : Option (List (BitVec 64)) :=
  if idx.toNat < indexes.length then some (indexes.set idx.toNat pos) else none

/-- The loop of the scan. It gives nothing where an access is out of bounds. -/
def scanChecked (shift : Nat) : Nat → Scan → Option (Option Scan)
  | 0, _ => none
  | fuel + 1, s =>
    if s.input.eofbit then some (some s)
    else
      let (_, phc, input) := s.phc.read s.input
      let idx := phc.hash.upper >>> shift
      if idx > s.lastIdx then
        let (tell, input) := input.tellg
        let pos := BitVec.ofInt 64 tell - BitVec.ofNat 64 PasswordHashAndCount.size
        match store s.indexes idx pos with
        | none => some none
        | some indexes => scanChecked shift fuel ⟨input, phc, indexes, idx, idx, pos⟩
      else scanChecked shift fuel { s with input, phc, idx }

/-- `main`: the bytes of the index file, if every access is in bounds. -/
def buildChecked (fuel : Nat) (bits : Nat) (file : List UInt8) : Option (Option (List UInt8)) :=
  let shift := 64 - bits
  let maxIdx : BitVec 64 := 1 + BitVec.allOnes 64 >>> shift
  let (_, phc, input) := ({} : PasswordHashAndCount).read { content := file }
  let indexes := List.replicate maxIdx.toNat (BitVec.allOnes 64)
  let lastIdx := phc.hash.upper >>> shift
  match store indexes lastIdx 0 with
  | none => some none
  | some indexes =>
    (scanChecked shift fuel ⟨input, phc, indexes, lastIdx, 0, 0⟩).map fun s =>
      s.bind fun s => (store s.indexes s.idx s.pos).map encodeTable

theorem store_of_lt {indexes : List (BitVec 64)} {idx : BitVec 64}
    (h : idx.toNat < indexes.length) (pos : BitVec 64) :
    store indexes idx pos = some (indexes.set idx.toNat pos) := by
  rw [store, if_pos h]

/-- The table has an entry for every bucket, and the last bucket is one. -/
structure Fits (bits : Nat) (s : Scan) : Prop where
  length : s.indexes.length = 2 ^ bits
  idx : s.idx.toNat < 2 ^ bits

/-- A table of all buckets takes every access of the loop. -/
theorem scanChecked_eq {bits : Nat} (hb : bits ≤ 64) (fuel : Nat) :
    ∀ s : Scan, Fits bits s →
      scanChecked (64 - bits) fuel s = (scan (64 - bits) fuel s).map some ∧
        ∀ s' ∈ scan (64 - bits) fuel s, Fits bits s' := by
  induction fuel with
  | zero =>
    intro s _
    exact ⟨rfl, by simp [scan]⟩
  | succ fuel ih =>
    intro s hs
    have hidx : ((s.phc.read s.input).2.1.hash.upper >>> (64 - bits)).toNat < 2 ^ bits :=
      bucket_lt hb _
    unfold scanChecked scan
    cases heof : s.input.eofbit with
    | true =>
      rw [if_pos rfl, if_pos rfl]
      refine ⟨rfl, ?_⟩
      intro s' hs'
      rw [← Option.some.inj hs']
      exact hs
    | false =>
      rw [if_neg Bool.false_ne_true, if_neg Bool.false_ne_true]
      dsimp only
      split_ifs
      · rw [store_of_lt (by rw [hs.length]; exact hidx)]
        exact ih _ ⟨by rw [List.length_set, hs.length], hidx⟩
      · exact ih _ ⟨hs.length, hidx⟩

/-- With at most 63 bits no access is out of bounds, for any file. -/
theorem buildChecked_eq {bits : Nat} (hb : bits ≤ 63) (file : List UInt8) (fuel : Nat) :
    buildChecked fuel bits file = (build fuel bits file).map some := by
  have hlen : (List.replicate (1 + BitVec.allOnes 64 >>> (64 - bits)).toNat
      (BitVec.allOnes 64)).length = 2 ^ bits := by
    rw [List.length_replicate, maxIdx_eq hb]
  have hfirst := bucket_lt (by omega : bits ≤ 64)
    (({} : PasswordHashAndCount).read { content := file }).2.1.hash.upper
  unfold buildChecked build
  dsimp only
  rw [store_of_lt (by rw [hlen]; exact hfirst)]
  dsimp only
  obtain ⟨hscan, hfits⟩ := scanChecked_eq (by omega : bits ≤ 64) fuel
    ⟨(({} : PasswordHashAndCount).read { content := file }).2.2,
      (({} : PasswordHashAndCount).read { content := file }).2.1,
      (List.replicate (1 + BitVec.allOnes 64 >>> (64 - bits)).toNat (BitVec.allOnes 64)).set
        ((({} : PasswordHashAndCount).read { content := file }).2.1.hash.upper >>>
          (64 - bits)).toNat 0, _, 0, 0⟩
    ⟨by rw [List.length_set, hlen], Nat.two_pow_pos bits⟩
  rw [hscan, Option.map_map, Option.map_map]
  apply Option.map_congr
  intro s hs
  obtain ⟨hlength, hidx⟩ := hfits s hs
  rw [Function.comp_apply, Function.comp_apply, Option.bind_some,
    store_of_lt (by rw [hlength]; exact hidx), Option.map_some]

/-! ## The entries -/

/-- Entry `k` of an index file. -/
def entryAt (index : List UInt8) (k : Nat) : Nat := value ((index.drop (8 * k)).take 8)

theorem entryAt_encodeTable {t : List (BitVec 64)} {k : Nat} (hk : k < t.length) :
    entryAt (encodeTable t) k = t[k].toNat := by
  have hblock : ∀ e : BitVec 64, (bytes 8 e.toNat).length = 8 := fun e => bytes_length 8 _
  unfold entryAt encodeTable
  rw [drop_flatMap_of_block hblock, List.drop_eq_getElem_cons hk, List.flatMap_cons,
    List.take_left' (hblock _), value_bytes]
  exact Nat.mod_eq_of_lt t[k].isLt

/-- The record is the first one of its bucket. -/
structure FirstOf (bits : Nat) (rs : List Record) (k i : Nat) : Prop where
  here : ∃ r, rs[i]? = some r ∧ bucket bits r.upper = k
  before : ∀ j < i, ∀ r, rs[j]? = some r → bucket bits r.upper ≠ k

theorem entry_of_first {bits : Nat} {rs : List Record} {k i : Nat} (h : FirstOf bits rs k i) :
    entry bits rs k = BitVec.ofNat 64 (20 * i) := by
  obtain ⟨⟨r, hr, hbucket⟩, hbefore⟩ := h
  obtain ⟨hi, hget⟩ := List.getElem?_eq_some_iff.mp hr
  have hfind : (rs.findIdx? fun r => bucket bits r.upper == k) = some i := by
    rw [List.findIdx?_eq_some_iff_getElem]
    refine ⟨hi, by rw [hget]; simpa using hbucket, ?_⟩
    intro j hj
    simpa using hbefore j hj _ (List.getElem?_eq_getElem _)
  rw [entry, hfind]

theorem entry_of_none {bits : Nat} {rs : List Record} {k : Nat}
    (h : ∀ r ∈ rs, bucket bits r.upper ≠ k) : entry bits rs k = BitVec.allOnes 64 := by
  have hfind : (rs.findIdx? fun r => bucket bits r.upper == k) = none := by
    rw [List.findIdx?_eq_none_iff]
    simpa using h
  rw [entry, hfind]

/-! ## The law -/

/-- The builder accesses its table in bounds, and writes one entry of 8 bytes for each bucket:
where the first record of the bucket starts, or all ones if there is none. -/
theorem the_index_is_the_table_of_bucket_starts {bits : Nat} (hb : 1 ≤ bits ∧ bits ≤ 60)
    {rs : List Record} (hne : rs ≠ []) (hs : StrictlyIncreasing rs) :
    ∃ index, Yields (fun fuel => build fuel bits (encodeAll rs)) index ∧
      Yields (fun fuel => buildChecked fuel bits (encodeAll rs)) (some index) ∧
      index.length = 8 * 2 ^ bits ∧ ∀ k < 2 ^ bits,
        (∀ i, FirstOf bits rs k i → entryAt index k = 20 * i % 2 ^ 64) ∧
        ((∀ r ∈ rs, bucket bits r.upper ≠ k) → entryAt index k = 2 ^ 64 - 1) := by
  have hblock : ∀ e : BitVec 64, (bytes 8 e.toNat).length = 8 := fun e => bytes_length 8 _
  have hbits : bits ≤ 63 := by omega
  have hyields := build_yields hbits hne hs
  have hchecked := hyields.map some
  simp only [← buildChecked_eq hbits] at hchecked
  refine ⟨_, hyields, hchecked, ?_, ?_⟩
  · rw [encodeTable, length_flatMap_of_block hblock, table_length]
  · intro k hk
    have hentry : entryAt (encodeTable (table bits rs)) k = (entry bits rs k).toNat := by
      rw [entryAt_encodeTable (by rwa [table_length])]
      simp [table]
    rw [hentry]
    refine ⟨?_, ?_⟩
    · intro i hi
      rw [entry_of_first hi, BitVec.toNat_ofNat]
    · intro hnone
      rw [entry_of_none hnone]
      rfl

theorem the_index_is_the_table_of_bucket_starts_two :
    ∃ index, Yields (fun fuel => build fuel 1 (encodeAll [⟨1, 0, 7⟩, ⟨2 ^ 63, 0, 9⟩])) index ∧
      Yields (fun fuel => buildChecked fuel 1 (encodeAll [⟨1, 0, 7⟩, ⟨2 ^ 63, 0, 9⟩]))
        (some index) ∧
      index.length = 8 * 2 ^ 1 ∧ ∀ k < 2 ^ 1,
        (∀ i, FirstOf 1 [⟨1, 0, 7⟩, ⟨2 ^ 63, 0, 9⟩] k i → entryAt index k = 20 * i % 2 ^ 64) ∧
        ((∀ r ∈ ([⟨1, 0, 7⟩, ⟨2 ^ 63, 0, 9⟩] : List Record), bucket 1 r.upper ≠ k) →
          entryAt index k = 2 ^ 64 - 1) :=
  the_index_is_the_table_of_bucket_starts (by decide) (List.cons_ne_nil _ _) (by decide +kernel)

end pwned.index
