-- The index builder. The index file is a table with one entry for each
-- value of the top bits of a hash: where its first record starts, or all
-- ones for a bucket with no record.
import Pwned.Library.Fuel
import Pwned.Database

open LittleEndian

namespace pwned.index

/-- The variables of the scan. -/
structure Scan where
  input : InputStream
  phc : PasswordHashAndCount
  indexes : List (BitVec 64)
  lastIdx : BitVec 64
  idx : BitVec 64
  pos : BitVec 64
deriving DecidableEq, Repr

/-- The loop `while (!input.eof())`. -/
def scan (shift : Nat) : Nat → Scan → Option Scan
  | 0, _ => none
  | fuel + 1, s =>
    if s.input.eofbit then some s
    else
      let (_, phc, input) := s.phc.read s.input
      let idx := phc.hash.upper >>> shift
      if idx > s.lastIdx then
        let (tell, input) := input.tellg
        let pos := BitVec.ofInt 64 tell - BitVec.ofNat 64 PasswordHashAndCount.size
        scan shift fuel ⟨input, phc, s.indexes.set idx.toNat pos, idx, idx, pos⟩
      else scan shift fuel { s with input, phc, idx }

/-- The bytes of a table of 64-bit entries. -/
def encodeTable (t : List (BitVec 64)) : List UInt8 := t.flatMap fun e => bytes 8 e.toNat

/-- `main`: the bytes of the index file for a database file. -/
def build (fuel : Nat) (bits : Nat) (file : List UInt8) : Option (List UInt8) :=
  let shift := 64 - bits
  let maxIdx : BitVec 64 := 1 + BitVec.allOnes 64 >>> shift
  let (_, phc, input) := ({} : PasswordHashAndCount).read { content := file }
  let indexes := List.replicate maxIdx.toNat (BitVec.allOnes 64)
  let lastIdx := phc.hash.upper >>> shift
  let indexes := indexes.set lastIdx.toNat 0
  (scan shift fuel ⟨input, phc, indexes, lastIdx, 0, 0⟩).map fun s =>
    encodeTable (s.indexes.set s.idx.toNat s.pos)

/-! ## Buckets -/

/-- The bucket of a word: its top bits. -/
def bucket (bits : Nat) (upper : BitVec 64) : Nat := (upper >>> (64 - bits)).toNat

theorem bucket_eq (bits : Nat) (upper : BitVec 64) :
    bucket bits upper = upper.toNat / 2 ^ (64 - bits) := by
  simp [bucket, Nat.shiftRight_eq_div_pow]

theorem bucket_lt {bits : Nat} (hb : bits ≤ 64) (upper : BitVec 64) :
    bucket bits upper < 2 ^ bits := by
  rw [bucket_eq, Nat.div_lt_iff_lt_mul (by positivity), ← pow_add]
  have : bits + (64 - bits) = 64 := by omega
  rw [this]
  exact upper.isLt

theorem upper_le_of_key_lt {a b : Hash} (h : a.key < b.key) : a.upper.toNat ≤ b.upper.toNat := by
  have ha := a.lower.isLt
  have hb := b.lower.isLt
  unfold Hash.key at h
  omega

/-- A greater hash is in the same bucket or in a later one. -/
theorem bucket_mono (bits : Nat) {a b : Hash} (h : a.key < b.key) :
    bucket bits a.upper ≤ bucket bits b.upper := by
  rw [bucket_eq, bucket_eq]
  exact Nat.div_le_div_right (upper_le_of_key_lt h)

theorem key_lt_of_bucket_lt {bits : Nat} {a b : Hash}
    (h : bucket bits a.upper < bucket bits b.upper) : a.key < b.key := by
  by_contra hle
  rcases Nat.lt_or_eq_of_le (Nat.le_of_not_lt hle) with hlt | heq
  · exact absurd (bucket_mono bits hlt) (by omega)
  · rw [(Hash.words_of_key_eq heq).1] at h
    omega

/-! ## The table -/

/-- What the table says about a bucket. -/
def entry (bits : Nat) (rs : List Record) (k : Nat) : BitVec 64 :=
  match rs.findIdx? fun r => bucket bits r.upper == k with
  | some i => BitVec.ofNat 64 (20 * i)
  | none => BitVec.allOnes 64

def table (bits : Nat) (rs : List Record) : List (BitVec 64) :=
  (List.range (2 ^ bits)).map (entry bits rs)

@[simp] theorem table_length (bits : Nat) (rs : List Record) :
    (table bits rs).length = 2 ^ bits := by simp [table]

theorem table_set {bits : Nat} {rs ss : List Record} {k : Nat} {e : BitVec 64}
    (hk : entry bits ss k = e) (hne : ∀ j ≠ k, entry bits ss j = entry bits rs j) :
    (table bits rs).set k e = table bits ss := by
  apply List.ext_getElem
  · simp
  · intro j h₁ h₂
    rw [List.getElem_set]
    split
    · rename_i hj
      subst hj
      simp [table, hk]
    · rename_i hj
      simp [table, hne j (Ne.symm hj)]

/-- The entry of a bucket that already has a record does not change. -/
theorem entry_append_of_mem {bits : Nat} {rs : List Record} {r : Record} {k : Nat}
    (h : ∃ s ∈ rs, bucket bits s.upper = k) : entry bits (rs ++ [r]) k = entry bits rs k := by
  obtain ⟨s, hs, hk⟩ := h
  unfold entry
  rw [List.findIdx?_append]
  cases hf : rs.findIdx? fun r => bucket bits r.upper == k with
  | some i => rfl
  | none =>
    have := List.findIdx?_eq_none_iff.mp hf s hs
    simp [hk] at this

theorem entry_append_of_ne {bits : Nat} {rs : List Record} {r : Record} {k : Nat}
    (h : bucket bits r.upper ≠ k) : entry bits (rs ++ [r]) k = entry bits rs k := by
  unfold entry
  rw [List.findIdx?_append]
  simp [List.findIdx?_cons, h]

/-- The first record of a bucket makes its entry. -/
theorem entry_append_new {bits : Nat} {rs : List Record} {r : Record}
    (h : ∀ s ∈ rs, bucket bits s.upper ≠ bucket bits r.upper) :
    entry bits (rs ++ [r]) (bucket bits r.upper) = BitVec.ofNat 64 (20 * rs.length) := by
  have hnone : (rs.findIdx? fun s => bucket bits s.upper == bucket bits r.upper) = none := by
    rw [List.findIdx?_eq_none_iff]
    intro s hs
    simpa using h s hs
  unfold entry
  rw [List.findIdx?_append, hnone]
  simp [List.findIdx?_cons]

/-! ## The scan -/

/-- The scan has read the records of `init` and then `r`, and has `rest` still to read. -/
structure Scanned (bits : Nat) (init : List Record) (r : Record) (rest : List Record)
    (s : Scan) : Prop where
  gives : Gives s.input rest
  tell : s.input.pos = 20 * (init.length + 1)
  phc : s.phc = r.phc
  lastIdx : s.lastIdx = r.upper >>> (64 - bits)
  indexes : s.indexes = table bits (init ++ [r])
  pos : s.pos = entry bits (init ++ [r]) (bucket bits r.upper)

theorem scan_step {bits : Nat} {init rest : List Record} {r r' : Record} {s : Scan}
    (h : Scanned bits init r (r' :: rest) s)
    (hs : StrictlyIncreasing (init ++ r :: r' :: rest)) :
    ∃ s', Scanned bits (init ++ [r]) r' rest s' ∧
      ∀ fuel, scan (64 - bits) (fuel + 1) s = scan (64 - bits) fuel s' := by
  obtain ⟨g, hread, hgives, -, hgpos⟩ :=
    PasswordHashAndCount.read_of_gives s.phc (by rw [h.phc]; rfl) h.gives
  have heof : s.input.eofbit = false := ((InputStream.good_iff _).mp h.gives.good).1
  have hpair := List.pairwise_append.mp hs
  have hrr' : r.key < r'.key := (List.pairwise_cons.mp hpair.2.1).1 r' (by simp)
  have hle : bucket bits r.upper ≤ bucket bits r'.upper := bucket_mono bits hrr'
  have hseen : ∀ t ∈ init ++ [r], bucket bits t.upper ≤ bucket bits r.upper := by
    intro t ht
    rcases List.mem_append.mp ht with ht | ht
    · exact bucket_mono bits (hpair.2.2 t ht r (by simp))
    · rw [List.mem_singleton.mp ht]
  by_cases hnew : bucket bits r.upper < bucket bits r'.upper
  · -- the first record of a later bucket
    have hgt : r'.phc.hash.upper >>> (64 - bits) > s.lastIdx := by
      rw [h.lastIdx]
      exact BitVec.lt_def.mpr hnew
    have hpos : BitVec.ofInt 64 g.pos - BitVec.ofNat 64 PasswordHashAndCount.size =
        entry bits (init ++ [r] ++ [r']) (bucket bits r'.upper) := by
      rw [entry_append_new fun t ht => ((hseen t ht).trans_lt hnew).ne, hgpos, h.tell,
        BitVec.ofInt_natCast, BitVec.ofNat_add]
      simp [PasswordHashAndCount.size, Hash.size]
    obtain ⟨pos, hdef⟩ : ∃ pos, pos = BitVec.ofInt 64 g.pos -
        BitVec.ofNat 64 PasswordHashAndCount.size := ⟨_, rfl⟩
    rw [← hdef] at hpos
    refine ⟨⟨g, r'.phc, s.indexes.set (bucket bits r'.upper) pos, r'.upper >>> (64 - bits),
      r'.upper >>> (64 - bits), pos⟩, ⟨hgives, ?_, rfl, rfl, ?_, hpos⟩, ?_⟩
    · simp only [hgpos, h.tell, List.length_append, List.length_singleton]
      omega
    · simp only [h.indexes]
      exact table_set hpos.symm fun j hj => entry_append_of_ne (Ne.symm hj)
    · intro fuel
      rw [scan, heof]
      simp only [hread, hgt, if_true, InputStream.tellg, hgives.good, Bool.false_eq_true, if_false,
        ← hdef]
      rfl
  · -- another record of the bucket
    have hsame : bucket bits r'.upper = bucket bits r.upper := by omega
    have hgt : ¬ r'.phc.hash.upper >>> (64 - bits) > s.lastIdx := by
      rw [h.lastIdx]
      exact fun hlt => hnew (BitVec.lt_def.mp hlt)
    have hentry : entry bits (init ++ [r] ++ [r']) = entry bits (init ++ [r]) := by
      funext k
      by_cases hk : bucket bits r'.upper = k
      · exact entry_append_of_mem ⟨r, by simp, by omega⟩
      · exact entry_append_of_ne hk
    refine ⟨⟨g, r'.phc, s.indexes, s.lastIdx, r'.upper >>> (64 - bits), s.pos⟩,
      ⟨hgives, ?_, rfl, ?_, ?_, ?_⟩, ?_⟩
    · simp only [hgpos, h.tell, List.length_append, List.length_singleton]
      omega
    · simp only [h.lastIdx]
      exact BitVec.eq_of_toNat_eq hsame.symm
    · simp only [h.indexes, table, hentry]
    · simp only [h.pos, hentry, hsame]
    · intro fuel
      rw [scan, heof]
      simp only [hread, hgt, if_false, Bool.false_eq_true]
      rfl

/-- The turn after the last record reads nothing and ends the loop. -/
theorem scan_end {bits : Nat} {init : List Record} {r : Record} {s : Scan}
    (h : Scanned bits init r [] s) (fuel : Nat) :
    scan (64 - bits) (fuel + 2) s =
      some { s with
        input := { s.input with eofbit := true, failbit := true }, idx := s.lastIdx } := by
  have hread := PasswordHashAndCount.read_at_end s.phc h.gives
  have heof : s.input.eofbit = false := ((InputStream.good_iff _).mp h.gives.good).1
  have hidx : s.phc.hash.upper >>> (64 - bits) = s.lastIdx := by
    rw [h.phc, h.lastIdx]
    rfl
  have hgt : ¬ s.lastIdx > s.lastIdx := fun hlt => by
    have := BitVec.lt_def.mp hlt
    omega
  rw [scan, heof]
  simp only [hread, hidx, hgt, if_false, Bool.false_eq_true]
  rw [scan]
  simp

/-- The scan ends with the table of the whole file. The entry that `main` writes once more
after the loop is there already. -/
theorem scan_yields {bits : Nat} (rest : List Record) :
    ∀ {init : List Record} {r : Record} {s : Scan}, Scanned bits init r rest s →
      StrictlyIncreasing (init ++ r :: rest) →
      ∃ s', Yields (fun fuel => scan (64 - bits) fuel s) s' ∧
        s'.indexes.set s'.idx.toNat s'.pos = table bits (init ++ r :: rest) := by
  induction rest with
  | nil =>
    intro init r s h hs
    refine ⟨_, Yields.of_shift 2 (Yields.of_eq (scan_end h)), ?_⟩
    simp only [h.indexes, h.pos, h.lastIdx]
    exact table_set rfl fun j _ => rfl
  | cons r' rest ih =>
    intro init r s h hs
    have hlist : init ++ r :: r' :: rest = (init ++ [r]) ++ r' :: rest := by simp
    obtain ⟨s', h', hturn⟩ := scan_step h hs
    rw [hlist] at hs ⊢
    obtain ⟨s'', hy, htab⟩ := ih h' hs
    refine ⟨s'', Yields.of_shift 1 ?_, htab⟩
    simpa only [hturn] using hy

/-- `maxIdx` is the number of buckets. -/
theorem maxIdx_eq {bits : Nat} (hb : bits ≤ 63) :
    (1 + BitVec.allOnes 64 >>> (64 - bits)).toNat = 2 ^ bits := by
  have hlt : 2 ^ bits ≤ 2 ^ 63 := Nat.pow_le_pow_right (by norm_num) hb
  have hpos : 0 < 2 ^ (64 - bits) := by positivity
  obtain ⟨p, hp⟩ : ∃ p, 2 ^ bits = p + 1 := ⟨2 ^ bits - 1, by have := Nat.two_pow_pos bits; omega⟩
  have hpow : 2 ^ 64 = p * 2 ^ (64 - bits) + 2 ^ (64 - bits) := by
    rw [← Nat.succ_mul, Nat.succ_eq_add_one, ← hp, ← pow_add]
    congr 1
    omega
  have hshift : (2 ^ 64 - 1) / 2 ^ (64 - bits) = p := by
    apply Nat.div_eq_of_lt_le
    · omega
    · rw [Nat.succ_mul]
      omega
  rw [BitVec.toNat_add, BitVec.toNat_ushiftRight, Nat.shiftRight_eq_div_pow, BitVec.toNat_allOnes,
    hshift, hp]
  have hone : (1 : BitVec 64).toNat = 1 := rfl
  omega

/-- The builder writes the table of the file. -/
theorem build_yields {bits : Nat} (hb : bits ≤ 63) {rs : List Record} (hne : rs ≠ [])
    (hs : StrictlyIncreasing rs) :
    Yields (fun fuel => build fuel bits (encodeAll rs)) (encodeTable (table bits rs)) := by
  obtain ⟨r, rest, rfl⟩ := List.exists_cons_of_ne_nil hne
  obtain ⟨g, hread, hgives, -, hgpos⟩ :=
    PasswordHashAndCount.read_of_gives {} rfl (gives_open (r :: rest))
  have hfirst : (List.replicate (2 ^ bits) (BitVec.allOnes 64)).set (bucket bits r.upper) 0 =
      table bits [r] := by
    have hempty : List.replicate (2 ^ bits) (BitVec.allOnes 64) = table bits [] := by
      have hnone : entry bits [] = fun _ => BitVec.allOnes 64 := rfl
      simp only [table, hnone, List.map_const', List.length_range]
    rw [hempty]
    refine table_set ?_ fun j hj => ?_
    · simp [entry, List.findIdx?_cons]
    · simp [entry, List.findIdx?_cons, Ne.symm hj]
  have hstart : Scanned bits [] r rest ⟨g, r.phc, table bits [r], r.upper >>> (64 - bits), 0, 0⟩ :=
    ⟨hgives, by simpa using hgpos, rfl, rfl, rfl, by simp [entry, List.findIdx?_cons]⟩
  obtain ⟨s', hy, htab⟩ := scan_yields rest hstart hs
  have hmap := hy.map fun s => encodeTable (s.indexes.set s.idx.toNat s.pos)
  rw [htab] at hmap
  simp only [build, hread, maxIdx_eq hb]
  rw [← hfirst] at hmap
  exact hmap

end pwned.index
