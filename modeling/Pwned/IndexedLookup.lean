-- The lookup with an index: the bounds that the probe loops give bracket the
-- hash, so the index changes no answer.
import Pwned.Probe
import Pwned.Search

open LittleEndian

namespace pwned.PasswordInspector

open index

/-! ## The bounds that the index gives -/

theorem entry_free {bits k : Nat} {rs : List Record} (h : ∀ r ∈ rs, bucket bits r.upper ≠ k) :
    (entry bits rs k).toInt = -1 := by
  have hnone : (rs.findIdx? fun r => bucket bits r.upper == k) = none := by
    rw [List.findIdx?_eq_none_iff]
    intro r hr
    simpa using h r hr
  rw [entry, hnone]
  decide

theorem entry_start {bits k : Nat} {rs : List Record} (hsize : 20 * rs.length < 2 ^ 63)
    (h : ∃ r ∈ rs, bucket bits r.upper = k) :
    ∃ i, ∃ hi : i < rs.length, bucket bits rs[i].upper = k ∧
      (∀ j (hj : j < i), bucket bits rs[j].upper ≠ k) ∧
      (entry bits rs k).toInt = (20 * i : Nat) := by
  cases hf : rs.findIdx? fun r => bucket bits r.upper == k with
  | none =>
    obtain ⟨r, hr, hk⟩ := h
    have := List.findIdx?_eq_none_iff.mp hf r hr
    simp [hk] at this
  | some i =>
    obtain ⟨hi, hk, hfirst⟩ := List.findIdx?_eq_some_iff_getElem.mp hf
    have hnat : (BitVec.ofNat 64 (20 * i)).toNat = 20 * i := by
      rw [BitVec.toNat_ofNat, Nat.mod_eq_of_lt (by omega)]
    refine ⟨i, hi, by simpa using hk, fun j hj => by simpa using hfirst j hj, ?_⟩
    rw [entry, hf, BitVec.toInt_eq_toNat_of_lt (by rw [hnat]; omega), hnat]

/-- The records before the first one of a bucket are in earlier buckets. -/
theorem bucket_before {bits i : Nat} {rs : List Record} (hs : StrictlyIncreasing rs)
    (hi : i < rs.length)
    (hfirst : ∀ j (hj : j < i), bucket bits rs[j].upper ≠ bucket bits rs[i].upper) :
    ∀ r ∈ rs.take i, bucket bits r.upper < bucket bits rs[i].upper := by
  intro r hr
  obtain ⟨j, hj, rfl⟩ := List.getElem_of_mem hr
  simp only [List.length_take] at hj
  rw [List.getElem_take]
  have hkey := List.pairwise_iff_getElem.mp hs j i (by omega) hi (by omega)
  have hle := bucket_mono bits (a := rs[j].phc.hash) (b := rs[i].phc.hash) hkey
  exact lt_of_le_of_ne hle (hfirst j (by omega))

/-- The last bucket up to `k` that has a record. -/
theorem exists_last_bucket {bits k : Nat} {rs : List Record}
    (h : ∃ r ∈ rs, bucket bits r.upper ≤ k) :
    ∃ j ≤ k, (∃ r ∈ rs, bucket bits r.upper = j) ∧
      ∀ i ≤ k, j < i → ∀ r ∈ rs, bucket bits r.upper ≠ i := by
  classical
  obtain ⟨r, hr, hle⟩ := h
  let P := fun j => ∃ r ∈ rs, bucket bits r.upper = j
  have hP : P (bucket bits r.upper) := ⟨r, hr, rfl⟩
  refine ⟨Nat.findGreatest P k, Nat.findGreatest_le k, Nat.findGreatest_spec hle hP, ?_⟩
  intro i hi hgt r hr he
  exact Nat.findGreatest_is_greatest hgt hi ⟨r, hr, he⟩

/-- The first bucket behind `k` that has a record. -/
theorem exists_next_bucket {bits k : Nat} {rs : List Record}
    (h : ∃ r ∈ rs, k < bucket bits r.upper) :
    ∃ j, k < j ∧ (∃ r ∈ rs, bucket bits r.upper = j) ∧
      ∀ i < j, k < i → ∀ r ∈ rs, bucket bits r.upper ≠ i := by
  classical
  obtain ⟨r, hr, hlt⟩ := h
  have hex : ∃ j, k < j ∧ ∃ r ∈ rs, bucket bits r.upper = j := ⟨_, hlt, r, hr, rfl⟩
  refine ⟨Nat.find hex, (Nat.find_spec hex).1, (Nat.find_spec hex).2, ?_⟩
  intro i hi hki r hr he
  exact Nat.find_min hex hi ⟨hki, r, hr, he⟩

section Bounds

variable {bits : Nat} {rs : List Record} {hash : Hash} {f : InputStream}

theorem table_getElem {k : Nat} (hk : k < (table bits rs).length) :
    (table bits rs)[k] = entry bits rs k := by simp [table]

/-- The probe for the lower bound, where some record is in the bucket of the hash or before. -/
theorem lo_yields (hb : bits ≤ 64) (hs : StrictlyIncreasing rs) (hsize : 20 * rs.length < 2 ^ 63)
    (hc : f.content = encodeTable (table bits rs)) (hf : f.fail = false)
    (h : ∃ r ∈ rs, bucket bits r.upper ≤ bucket bits hash.upper) :
    ∃ e n g, ∃ a : Nat,
      Yields (fun fuel => probe (-8) fuel f (8 * bucket bits hash.upper : Nat) 0 0) (e, n, g) ∧
      g.content = f.content ∧ g.fail = false ∧ e.toInt = (20 * a : Nat) ∧ a ≤ rs.length ∧
      ∀ r ∈ rs.take a, bucket bits r.upper < bucket bits hash.upper := by
  have hlt := bucket_lt hb hash.upper
  obtain ⟨j, hj, hocc, hfree⟩ := exists_last_bucket h
  obtain ⟨a, ha, hbucket, hfirst, hint⟩ := entry_start hsize hocc
  have hlen := table_length bits rs
  obtain ⟨n, g, hy, hgc, hgf⟩ := probe_down hj (by omega)
    (by rw [table_getElem (by omega), hint]; omega)
    (fun i hi hji => by rw [table_getElem (by omega)]; exact entry_free (hfree i hi hji)) 0 0 hc hf
  rw [table_getElem (by omega)] at hy
  refine ⟨_, n, g, a, hy, hgc, hgf, hint, ha.le, ?_⟩
  intro r hr
  subst hbucket
  exact (bucket_before hs ha hfirst r hr).trans_le hj

/-- The probe for the upper bound, where some record is in a later bucket. -/
theorem hi_yields (hb : bits ≤ 64) (hs : StrictlyIncreasing rs) (hsize : 20 * rs.length < 2 ^ 63)
    (hc : f.content = encodeTable (table bits rs)) (hf : f.fail = false) (var : BitVec 64) (m : Nat)
    (h : ∃ r ∈ rs, bucket bits hash.upper < bucket bits r.upper) :
    ∃ e n g, ∃ i : Nat,
      Yields (fun fuel => probe 8 fuel f (8 * (bucket bits hash.upper + 1) : Nat) var m) (e, n, g) ∧
      e.toInt = (20 * i : Nat) ∧ i < rs.length ∧
      (∀ r ∈ rs.drop i, bucket bits hash.upper < bucket bits r.upper) ∧
      ∀ r ∈ rs.take i, bucket bits r.upper ≤ bucket bits hash.upper := by
  obtain ⟨j, hj, hocc, hfree⟩ := exists_next_bucket h
  obtain ⟨i, hi, hbucket, hfirst, hint⟩ := entry_start hsize hocc
  have hlen := table_length bits rs
  have hjlt : j < 2 ^ bits := hbucket ▸ bucket_lt hb _
  obtain ⟨n, g, hy⟩ := probe_up (t := table bits rs) (by omega)
    (by rw [table_getElem (by omega), hint]; omega) var m hc hf
    (show bucket bits hash.upper + 1 + (j - (bucket bits hash.upper + 1)) = j by omega)
    (fun k hk hlt => by
      rw [table_getElem (by omega)]
      exact entry_free (hfree k hk (by omega)))
  rw [table_getElem (by omega)] at hy
  refine ⟨_, n, g, i, hy, hint, hi, ?_, ?_⟩
  · intro r hr
    obtain ⟨k, hk, rfl⟩ := List.getElem_of_mem hr
    simp only [List.length_drop] at hk
    rw [List.getElem_drop]
    rcases Nat.eq_zero_or_pos k with hk0 | hk0
    · subst hk0
      simpa [hbucket] using hj
    · have hkey := List.pairwise_iff_getElem.mp hs i (i + k) hi (by omega) (by omega)
      have hle := bucket_mono bits (a := rs[i].phc.hash) (b := rs[i + k].phc.hash) hkey
      simp only [Record.phc] at hle
      omega
  · intro r hr
    have hlt := bucket_before hs hi (by rw [hbucket]; exact hfirst) r hr
    by_contra hgt
    exact hfree _ (by omega) (by omega) r (List.mem_of_mem_take hr) rfl

/-- Both probe loops end, and what they give brackets the hash. -/
structure Bounded (rs : List Record) (hash : Hash)
    (run : Nat → Option (Int × Int × Nat × InputStream)) (a b : Nat) : Prop where
  yields : ∃ n g, Yields run ((20 * a : Nat), 20 * b - 20, n, g)
  bracket : Bracket rs hash.key a b
  le : a ≤ b
  a_le : a ≤ rs.length
  b_le : b ≤ rs.length + 1

theorem fileSize_toInt (hsize : 20 * rs.length < 2 ^ 63) :
    (BitVec.ofInt 64 (encodeAll rs).length).toInt = 20 * (rs.length + 1 : Nat) - 20 := by
  rw [encodeAll_length, BitVec.ofInt_natCast]
  have hnat : (BitVec.ofNat 64 (20 * rs.length)).toNat = 20 * rs.length := by
    rw [BitVec.toNat_ofNat, Nat.mod_eq_of_lt (by omega)]
  rw [BitVec.toInt_eq_toNat_of_lt (by rw [hnat]; omega), hnat]
  omega

/-- The second of the two probe loops, from where the first one ended. -/
def upper (hash : Hash) (shift : Nat) (size : Int) (p : BitVec 64 × Nat × InputStream)
    (fuel : Nat) : Option (Int × Int × Nat × InputStream) :=
  (probe 8 fuel p.2.2 (entryOffset hash shift + 8) (BitVec.ofInt 64 size) p.2.1).map fun q =>
    (p.1.toInt, q.1.toInt, q.2)

theorem bounds_eq (shift : Nat) (size : Int) (fuel : Nat) :
    bounds f hash shift size fuel =
      (probe (-8) fuel f (entryOffset hash shift) 0 0).bind fun p =>
        upper hash shift size p fuel := by
  unfold bounds upper
  simp only [Option.map_eq_bind]
  rfl

theorem bounds_yields {shift : Nat} {size : Int} {lo hi : BitVec 64} {n m : Nat}
    {g g' : InputStream}
    (hlo : Yields (fun fuel => probe (-8) fuel f (entryOffset hash shift) 0 0) (lo, n, g))
    (hhi : Yields (fun fuel => probe 8 fuel g (entryOffset hash shift + 8)
      (BitVec.ofInt 64 size) n) (hi, m, g')) :
    Yields (bounds f hash shift size) (lo.toInt, hi.toInt, m, g') := by
  have hupper : Yields (upper hash shift size (lo, n, g)) (lo.toInt, hi.toInt, m, g') :=
    hhi.map fun q : BitVec 64 × Nat × InputStream => (lo.toInt, q.1.toInt, q.2)
  rw [funext (bounds_eq shift size)]
  exact hlo.bind (upper hash shift size) hupper

/-- The bounds are stuck where the first probe is. -/
theorem bounds_stuck_lo {shift : Nat} {size : Int}
    (hlo : ∀ fuel, probe (-8) fuel f (entryOffset hash shift) 0 0 = none) :
    Diverges (bounds f hash shift size) := by
  refine ⟨0, fun fuel _ => ?_⟩
  rw [bounds_eq, hlo, Option.bind_none]

theorem bounds_stuck_hi {shift : Nat} {size : Int} {lo : BitVec 64} {n : Nat} {g : InputStream}
    (hlo : Yields (fun fuel => probe (-8) fuel f (entryOffset hash shift) 0 0) (lo, n, g))
    (hhi : ∀ fuel, probe 8 fuel g (entryOffset hash shift + 8) (BitVec.ofInt 64 size) n = none) :
    Diverges (bounds f hash shift size) := by
  obtain ⟨m, hm⟩ := hlo
  refine ⟨m, fun fuel hf => ?_⟩
  have hp : probe (-8) fuel f _ 0 0 = _ := hm fuel hf
  rw [bounds_eq, hp, Option.bind_some, upper, hhi, Option.map_none]

/-- On a failed index stream the bounds are those of the whole file. -/
theorem bounds_failed (hsize : 20 * rs.length < 2 ^ 63) (hf : f.fail = true) (shift : Nat) :
    Bounded rs hash (bounds f hash shift (encodeAll rs).length) 0 (rs.length + 1) := by
  obtain ⟨g, hread, hgf⟩ := read_failed (entryOffset hash shift) hf
  obtain ⟨g', hread', -⟩ := read_failed (entryOffset hash shift + 8) hgf
  have hsz := fileSize_toInt hsize
  have hlo := probe_keeps (-8) hread (show (0 : BitVec 64).toInt ≠ -1 by decide) 0
  have hhi := probe_keeps 8 hread'
    (show (BitVec.ofInt 64 (encodeAll rs).length).toInt ≠ -1 by omega) 1
  have hy := bounds_yields hlo hhi
  rw [hsz] at hy
  exact ⟨⟨2, g', hy⟩, bracket_all rs _ (Nat.le_succ _), by omega, by omega, le_rfl⟩

theorem entryOffset_eq (hb : bits ≤ 60) :
    entryOffset hash (64 - bits) = (8 * bucket bits hash.upper : Nat) := by
  have hlt := bucket_lt (by omega : bits ≤ 64) hash.upper
  have hpow : 2 ^ bits ≤ 2 ^ 60 := Nat.pow_le_pow_right (by norm_num) hb
  have hnat : (hash.upper >>> (64 - bits) * BitVec.ofNat 64 indexKeySize).toNat =
      8 * bucket bits hash.upper := by
    rw [BitVec.toNat_mul, ← bucket]
    simp only [indexKeySize, BitVec.toNat_ofNat]
    omega
  simp only [entryOffset]
  rw [BitVec.toInt_eq_toNat_of_lt (by rw [hnat]; omega), hnat]

/-- Records in earlier buckets lie under the hash. -/
theorem below_of_bucket {rs : List Record}
    (h : ∀ r ∈ rs, bucket bits r.upper < bucket bits hash.upper) :
    ∀ r ∈ rs, r.key < hash.key := fun r hr =>
  key_lt_of_bucket_lt (a := r.phc.hash) (h r hr)

theorem above_of_bucket {rs : List Record}
    (h : ∀ r ∈ rs, bucket bits hash.upper < bucket bits r.upper) :
    ∀ r ∈ rs, hash.key < r.key := fun r hr =>
  key_lt_of_bucket_lt (b := r.phc.hash) (h r hr)

/-- What the two probes need to end: a record in the bucket of the hash or before it, and one
behind it, unless the bucket is the last of the table. -/
def Bracketed (bits : Nat) (rs : List Record) (hash : Hash) : Prop :=
  (∃ r ∈ rs, bucket bits r.upper ≤ bucket bits hash.upper) ∧
    (bucket bits hash.upper + 1 = 2 ^ bits ∨
      ∃ r ∈ rs, bucket bits hash.upper < bucket bits r.upper)

/-- On a live index stream the bounds bracket the hash. -/
theorem bounds_live (hb : bits ≤ 60) (hs : StrictlyIncreasing rs)
    (hsize : 20 * rs.length < 2 ^ 63) (hc : f.content = encodeTable (table bits rs))
    (hf : f.fail = false) (h : Bracketed bits rs hash) :
    ∃ a b, Bounded rs hash (bounds f hash (64 - bits) (encodeAll rs).length) a b := by
  obtain ⟨hbefore, hbehind⟩ := h
  obtain ⟨lo, n, g, a, hlo, hgc, hgf, hloInt, ha, hbelow⟩ :=
    lo_yields (by omega) hs hsize hc hf hbefore
  rw [← entryOffset_eq hb] at hlo
  have hnext : entryOffset hash (64 - bits) + 8 = (8 * (bucket bits hash.upper + 1) : Nat) := by
    rw [entryOffset_eq hb]
    omega
  have hsz := fileSize_toInt hsize
  by_cases hrec : ∃ r ∈ rs, bucket bits hash.upper < bucket bits r.upper
  · obtain ⟨hi, m, g', i, hhi, hhiInt, hi', habove, htake⟩ := hi_yields (by omega) hs hsize
      (by rw [hgc, hc]) hgf (BitVec.ofInt 64 (encodeAll rs).length) n hrec
    rw [← hnext] at hhi
    have hy := bounds_yields hlo hhi
    have hupper : hi.toInt = 20 * (i + 1 : Nat) - 20 := by omega
    rw [hloInt, hupper] at hy
    refine ⟨a, i + 1, ⟨m, g', hy⟩, ⟨below_of_bucket hbelow, ?_⟩, ?_, ha, by omega⟩
    · apply above_of_bucket
      intro r hr
      exact habove r (List.drop_subset_drop_left rs (Nat.le_succ i) hr)
    · -- a record before `a` is in an earlier bucket, one from `i` on in a later one
      by_contra hlt
      have hmem : rs[i] ∈ rs.take a := List.mem_take_iff_getElem.mpr ⟨i, by omega, rfl⟩
      have h₁ := hbelow _ hmem
      have h₂ := habove rs[i] (List.mem_drop_iff_getElem.mpr ⟨0, by omega, rfl⟩)
      omega
  · have hlast : bucket bits hash.upper + 1 = (table bits rs).length := by
      rw [table_length]
      exact hbehind.resolve_right hrec
    obtain ⟨g', hread, -⟩ := read_past (t := table bits rs) (by rw [hgc, hc]) hgf
    rw [← hlast, ← hnext] at hread
    have hhi := probe_keeps 8 hread
      (show (BitVec.ofInt 64 (encodeAll rs).length).toInt ≠ -1 by omega) n
    have hy := bounds_yields hlo hhi
    rw [hloInt, hsz] at hy
    exact ⟨a, rs.length + 1, ⟨_, _, hy⟩, ⟨below_of_bucket hbelow,
      by simp [List.drop_eq_nil_of_le]⟩, by omega, ha, le_rfl⟩

/-- Without records on both sides one of the probes never ends. -/
theorem bounds_stuck (hb : bits ≤ 60) (hs : StrictlyIncreasing rs)
    (hsize : 20 * rs.length < 2 ^ 63) (hc : f.content = encodeTable (table bits rs))
    (hf : f.fail = false) (size : Int) (h : ¬ Bracketed bits rs hash) :
    Diverges (bounds f hash (64 - bits) size) := by
  have hlt := bucket_lt (by omega : bits ≤ 64) hash.upper
  have hlen := table_length bits rs
  have hnext : entryOffset hash (64 - bits) + 8 = (8 * (bucket bits hash.upper + 1) : Nat) := by
    rw [entryOffset_eq hb]
    omega
  by_cases hbefore : ∃ r ∈ rs, bucket bits r.upper ≤ bucket bits hash.upper
  · obtain ⟨lo, n, g, a, hlo, hgc, hgf, -⟩ := lo_yields (by omega) hs hsize hc hf hbefore
    rw [← entryOffset_eq hb] at hlo
    have hno : ¬ (bucket bits hash.upper + 1 = 2 ^ bits ∨
        ∃ r ∈ rs, bucket bits hash.upper < bucket bits r.upper) := fun hr => h ⟨hbefore, hr⟩
    simp only [not_or, not_exists, not_and] at hno
    apply bounds_stuck_hi hlo
    intro fuel
    rw [hnext]
    apply probe_up_stuck (d := 2 ^ bits - (bucket bits hash.upper + 2)) _ _ _ (by rw [hgc, hc]) hgf
      (by omega)
    intro i hi hki
    rw [table_getElem hi]
    apply entry_free
    intro r hr he
    exact hno.2 r hr (by omega)
  · apply bounds_stuck_lo
    intro fuel
    rw [entryOffset_eq hb]
    apply probe_down_stuck (by omega) _ _ _ _ hc hf
    intro i hi
    rw [table_getElem (by omega)]
    apply entry_free
    intro r hr he
    exact hbefore ⟨r, hr, by omega⟩

end Bounds

/-! ## The inspector with an index -/

/-- The inspector was opened on the database and on the index built from it with `bits` bits. -/
structure ServesIndexed (ins : PasswordInspector) (db : Database) (bits : Nat)
    (f : InputStream) : Prop where
  index : ins.mIndexFile = some f
  indexContent : f.content = encodeTable (table bits db.records)
  content : ins.mInputFile.content = db.bytes
  fileSize : ins.mFileSize = db.bytes.length
  shift : ins.mShift = 64 - bits

theorem ones_eq {bits : Nat} (hb : bits ≤ 63) :
    BitVec.ofNat 64 (2 ^ bits) - 1 = BitVec.ofNat 64 (2 ^ bits - 1) := by
  have hlt : 2 ^ bits ≤ 2 ^ 63 := Nat.pow_le_pow_right (by norm_num) hb
  have hpos : 0 < 2 ^ bits := by positivity
  have hone : (1 : BitVec 64).toNat = 1 := rfl
  apply BitVec.eq_of_toNat_eq
  simp only [BitVec.toNat_sub, BitVec.toNat_ofNat, hone]
  omega

/-- The number of entries less one is a run of `b` ones. From 64 bits on the number of entries
wraps to zero, and less one it is all ones. -/
theorem popcnt64_entries (b : Nat) : popcnt64 (BitVec.ofNat 64 (2 ^ b) - 1) = min b 64 := by
  by_cases hb : b ≤ 63
  · rw [ones_eq hb, popcnt64_ones hb]
    omega
  · have hzero : BitVec.ofNat 64 (2 ^ b) = 0 := by
      apply BitVec.eq_of_toNat_eq
      rw [BitVec.toNat_ofNat]
      exact Nat.mod_eq_zero_of_dvd (Nat.pow_dvd_pow 2 (by omega))
    have hones : (0 : BitVec 64) - 1 = BitVec.allOnes 64 := by decide
    rw [hzero, hones, popcnt64, BitVec.cpop_allOnes, BitVec.toNat_ofNat]
    omega

theorem openIndexed_mShift {b : Nat} {file index : List UInt8}
    (h : index.length / indexKeySize = 2 ^ b) : (openIndexed file index).mShift = 64 - b := by
  unfold openIndexed
  dsimp only
  rw [h, popcnt64_entries, indexKeySize]
  omega

/-- The shift that is read off the size of the index is the one it was built with. -/
theorem openIndexed_shift {bits : Nat} (file : List UInt8) (rs : List Record) :
    (openIndexed file (encodeTable (table bits rs))).mShift = 64 - bits := by
  have hblock : ∀ e : BitVec 64, (bytes 8 e.toNat).length = 8 := by simp
  apply openIndexed_mShift
  rw [encodeTable, length_flatMap_of_block hblock, table_length]
  simp [indexKeySize]

theorem serves_openIndexed (db : Database) (bits : Nat) {data f : InputStream}
    (hdata : data.content = db.bytes) (hf : f.content = encodeTable (table bits db.records)) :
    ServesIndexed { openIndexed db.bytes (encodeTable (table bits db.records)) with
      mInputFile := data, mIndexFile := some f } db bits f :=
  ⟨rfl, hf, hdata, rfl, openIndexed_shift db.bytes _⟩

theorem serves_openIndexed_fresh (db : Database) (bits : Nat) :
    ServesIndexed (openIndexed db.bytes (encodeTable (table bits db.records))) db bits
      { content := encodeTable (table bits db.records) } :=
  serves_openIndexed db bits rfl rfl

/-- Both probe loops of the lookup end. -/
def ProbesEnd (ins : PasswordInspector) (hash : Hash) : Prop :=
  ∃ f, ins.mIndexFile = some f ∧ Ends (bounds f hash ins.mShift ins.mFileSize)

theorem ServesIndexed.probesEnd_iff {ins : PasswordInspector} {db : Database} {bits : Nat}
    {f : InputStream} (h : ServesIndexed ins db bits f) (hash : Hash) :
    ProbesEnd ins hash ↔ Ends (bounds f hash (64 - bits) (encodeAll db.records).length) := by
  rw [ProbesEnd, h.index, h.shift, h.fileSize]
  simp [Database.bytes]

/-- Where the probes end, the bounds bracket the hash, on a live index stream and on a failed
one. -/
theorem ServesIndexed.bounded {ins : PasswordInspector} {db : Database} {bits : Nat}
    {f : InputStream} (h : ServesIndexed ins db bits f) (hb : bits ≤ 60) {hash : Hash}
    (hends : ProbesEnd ins hash) :
    ∃ a b, Bounded db.records hash
      (bounds f hash (64 - bits) (encodeAll db.records).length) a b := by
  rw [h.probesEnd_iff] at hends
  cases hf : f.fail with
  | true => exact ⟨_, _, bounds_failed db.size_lt hf _⟩
  | false =>
    by_cases hbr : Bracketed bits db.records hash
    · exact bounds_live hb db.increasing db.size_lt h.indexContent hf hbr
    · exact absurd hends
        (bounds_stuck hb db.increasing db.size_lt h.indexContent hf _ hbr).not_ends

/-- The search between the bounds, and the inspector it leaves. -/
def within (ins : PasswordInspector) (hash : Hash) (p : Int × Int × Nat × InputStream)
    (fuel : Nat) : Option (PasswordHashAndCount × Nat × PasswordInspector) :=
  (search hash fuel ins.mInputFile {} p.1 p.2.1 p.2.2.1).map fun q =>
    (q.1, q.2.1, { ins with mInputFile := q.2.2, mIndexFile := some p.2.2.2 })

theorem binsearch_indexed {ins : PasswordInspector} {f : InputStream}
    (hi : ins.mIndexFile = some f) (hash : Hash) (fuel : Nat) :
    ins.binsearch fuel hash =
      (bounds f hash ins.mShift ins.mFileSize fuel).bind fun p => within ins hash p fuel := by
  unfold binsearch within
  rw [hi]
  simp only [Option.map_eq_bind]
  rfl

/-- A lookup in an empty file counts nothing, whatever the index. -/
theorem binsearch_empty {ins : PasswordInspector} (h : ins.mInputFile.content = []) {hash : Hash}
    {fuel : Nat} {p : PasswordHashAndCount × Nat × PasswordInspector}
    (hp : ins.binsearch fuel hash = some p) : p.1.count = 0 := by
  cases hi : ins.mIndexFile with
  | none =>
    unfold binsearch at hp
    rw [hi] at hp
    obtain ⟨q, hq, rfl⟩ := Option.map_eq_some_iff.mp hp
    exact search_empty fuel h rfl hq
  | some f =>
    rw [binsearch_indexed hi] at hp
    obtain ⟨b, -, hw⟩ := Option.bind_eq_some_iff.mp hp
    obtain ⟨q, hq, rfl⟩ := Option.map_eq_some_iff.mp hw
    exact search_empty fuel h rfl hq

/-- On a live data stream the answer is the stored count. -/
theorem ServesIndexed.binsearch_live {ins : PasswordInspector} {db : Database} {bits : Nat}
    {f : InputStream} (h : ServesIndexed ins db bits f) (hb : bits ≤ 60)
    (hf : ins.mInputFile.fail = false) {hash : Hash} (hends : ProbesEnd ins hash) :
    ∃ p, Yields (fun fuel => ins.binsearch fuel hash) p ∧
      p.1.count = stored db.records hash.key := by
  obtain ⟨a, b, hbounded⟩ := h.bounded hb hends
  obtain ⟨n, f', hy⟩ := hbounded.yields
  obtain ⟨p, m, g, hsearch, hp, -⟩ := search_yields db.increasing db.size_lt hash _ a b
    ins.mInputFile {} n rfl ⟨hbounded.bracket, hbounded.le, hbounded.a_le, hbounded.b_le,
      h.content, hf, rfl, fun _ => rfl⟩
  rw [← h.shift, ← Database.bytes, ← h.fileSize] at hy
  refine ⟨(p, m, { ins with mInputFile := g, mIndexFile := some f' }), ?_, hp⟩
  simp only [binsearch_indexed h.index]
  exact hy.bind (within ins hash) (hsearch.map _)

/-- Without records on both sides the lookup does not end. -/
theorem ServesIndexed.binsearch_diverges {ins : PasswordInspector} {db : Database} {bits : Nat}
    {f : InputStream} (h : ServesIndexed ins db bits f) (hb : bits ≤ 60) (hf : f.fail = false)
    {hash : Hash} (hbr : ¬ Bracketed bits db.records hash) :
    Diverges fun fuel => ins.binsearch fuel hash := by
  have hbounds := bounds_stuck hb db.increasing db.size_lt h.indexContent hf ins.mFileSize hbr
  simp only [binsearch_indexed h.index, h.shift]
  exact hbounds.bind (within ins hash)

theorem ServesIndexed.probesEnd_iff_bracketed {ins : PasswordInspector} {db : Database}
    {bits : Nat} {f : InputStream} (h : ServesIndexed ins db bits f) (hb : bits ≤ 60)
    (hf : f.fail = false) (hash : Hash) :
    ProbesEnd ins hash ↔ Bracketed bits db.records hash := by
  rw [h.probesEnd_iff]
  constructor
  · intro hends
    by_contra hbr
    exact (bounds_stuck hb db.increasing db.size_lt h.indexContent hf _ hbr).not_ends hends
  · intro hbr
    obtain ⟨a, b, hbounded⟩ := bounds_live hb db.increasing db.size_lt h.indexContent hf hbr
    obtain ⟨n, g, hy⟩ := hbounded.yields
    exact ⟨_, hy⟩

/-- The probes of a lookup in a fresh inspector end exactly if a record is in the bucket of the
hash or before it, and one is behind it unless that bucket is the last. -/
theorem probes_end_iff_bracketed (db : Database) (hne : db.records ≠ []) {bits : Nat}
    (hb : 1 ≤ bits ∧ bits ≤ 60) (hash : Hash) :
    ∃ index, Yields (fun fuel => build fuel bits db.bytes) index ∧
      (ProbesEnd (openIndexed db.bytes index) hash ↔ Bracketed bits db.records hash) := by
  refine ⟨_, build_yields (by omega) hne db.increasing, ?_⟩
  exact (serves_openIndexed_fresh db bits).probesEnd_iff_bracketed hb.2 rfl hash

/-- Two records in the two buckets of one bit. -/
def twoRecords : List Record := [⟨0, 5, 1⟩, ⟨0x8000000000000000, 7, 2⟩]

theorem probes_end_iff_bracketed_two_records :
    ∃ index, Yields (fun fuel => build fuel 1 (encodeAll twoRecords)) index ∧
      (ProbesEnd (openIndexed (encodeAll twoRecords) index) ⟨0, 6, true⟩ ↔
        Bracketed 1 twoRecords ⟨0, 6, true⟩) :=
  probes_end_iff_bracketed ⟨twoRecords, by decide, by decide⟩ (by decide)
    (by decide) ⟨0, 6, true⟩

/-- The bucket of the only record is not the last one: the lookup of that record does not
end. -/
theorem the_lookup_of_a_stored_hash_can_run_for_ever :
    ∃ index, Yields (fun fuel => build fuel 1 (encodeAll [⟨0, 5, 1⟩])) index ∧
      ¬ ProbesEnd (openIndexed (encodeAll [⟨0, 5, 1⟩]) index) ⟨0, 5, true⟩ := by
  let db : Database := ⟨[⟨0, 5, 1⟩], by decide, by decide⟩
  refine ⟨_, build_yields (by decide) (by decide) db.increasing, ?_⟩
  have hserves := serves_openIndexed_fresh db 1
  refine mt (hserves.probesEnd_iff_bracketed (by decide) rfl _).mp ?_
  rintro ⟨-, hlast | ⟨r, hr, hlt⟩⟩
  · revert hlast
    decide
  · revert r
    decide

/-- Where both probe loops end, the lookup with the index gives the count that a fresh one
without the index gives, whatever the state of the index stream. -/
theorem the_index_does_not_change_the_answer (db : Database) (hne : db.records ≠ []) {bits : Nat}
    (hb : 1 ≤ bits ∧ bits ≤ 60) {index : List UInt8}
    (hindex : Yields (fun fuel => build fuel bits db.bytes) index) (hash : Hash)
    {data f : InputStream} (hdata : data.content = db.bytes) (hgood : data.good = true)
    (hf : f.content = index)
    (hends : ProbesEnd { openIndexed db.bytes index with mInputFile := data, mIndexFile := some f }
      hash) :
    ∃ p q,
      Yields (fun fuel => binsearch fuel { openIndexed db.bytes index with
        mInputFile := data, mIndexFile := some f } hash) p ∧
      Yields (fun fuel => binsearch fuel (openFile db.bytes) hash) q ∧ p.1.count = q.1.count := by
  obtain rfl := hindex.unique (build_yields (by omega) hne db.increasing)
  have hserves := serves_openIndexed db bits hdata hf
  obtain ⟨p, hp, hcount⟩ := hserves.binsearch_live hb.2 (InputStream.fail_of_good hgood) hends
  obtain ⟨q, m, insq, hq, hqc, -, -⟩ := (serves_openFile db).binsearch_live rfl hash
  exact ⟨p, _, hp, hq, by rw [hcount, hqc]⟩

theorem the_index_does_not_change_the_answer_two_records :
    ∃ p q,
      Yields (fun fuel => binsearch fuel
        (openIndexed (encodeAll twoRecords)
          (encodeTable (table 1 twoRecords))) ⟨0, 6, true⟩) p ∧
      Yields (fun fuel => binsearch fuel
        (openFile (encodeAll twoRecords)) ⟨0, 6, true⟩) q ∧
      p.1.count = q.1.count := by
  let db : Database := ⟨twoRecords, by decide, by decide⟩
  have hserves := serves_openIndexed_fresh db 1
  have hbr : Bracketed 1 db.records ⟨0, 6, true⟩ :=
    ⟨⟨⟨0, 5, 1⟩, by decide⟩, Or.inr ⟨⟨0x8000000000000000, 7, 2⟩, by decide⟩⟩
  exact the_index_does_not_change_the_answer db (by decide) (by decide)
    (build_yields (by decide) (by decide) db.increasing) ⟨0, 6, true⟩ rfl rfl rfl
    ((hserves.probesEnd_iff_bracketed (by decide) rfl _).mpr hbr)

end pwned.PasswordInspector
