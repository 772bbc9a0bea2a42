-- The laws of the lookup without an index. The search finds the stored
-- count, but a hash behind the last record makes it read behind the end of
-- the file, and the stream stays failed for every lookup after that.
import Pwned.PasswordInspector

open LittleEndian

namespace pwned.PasswordInspector

/-! ## One turn of the search -/

/-- The middle of the bracket from record `a` to before record `b`, whose inclusive upper bound
stands anywhere in the last record. -/
theorem middle_near {a b : Nat} {hi : Int} (hab : a < b) (hle : 20 * b - 20 ≤ hi)
    (hlt : hi < 20 * b) (hhi : hi < 2 ^ 63) :
    middle (20 * a : Nat) hi = (20 * ((a + b - 1) / 2) : Nat) := by
  unfold middle
  have hsize : (PasswordHashAndCount.size : Int) = 20 := rfl
  have hlo : ((20 * a : Nat) : Int) % 2 ^ 64 = 20 * a := by omega
  have hhi' : hi % 2 ^ 64 = hi := by omega
  have hsum : ((20 * a : Int) + hi) % 2 ^ 64 = 20 * a + hi := by omega
  simp only [hlo, hhi', hsum, hsize]
  rw [Int.tmod_eq_emod_of_nonneg (by omega)]
  omega

/-- One turn of the search in the bracket from record `a` to before record `b`. -/
theorem search_turn_near (hash : Hash) (fuel : Nat) (f : InputStream) (phc : PasswordHashAndCount)
    {a b : Nat} {hi : Int} (n : Nat) (hab : a < b) (hle : 20 * b - 20 ≤ hi) (hlt : hi < 20 * b)
    (hhi : hi < 2 ^ 63) :
    let m := (a + b - 1) / 2
    search hash (fuel + 1) f phc (20 * a : Nat) hi n =
      let (_, phc, f) := phc.readAt f (20 * m : Nat)
      if hash.gt phc.hash then search hash fuel f phc (20 * (m + 1) : Nat) hi (n + 1)
      else if hash.lt phc.hash then search hash fuel f phc (20 * a : Nat) (20 * m - 20) (n + 1)
      else some (phc, n + 1, f) := by
  intro m
  have hlohi : ((20 * a : Nat) : Int) ≤ hi := by omega
  have hsize : (PasswordHashAndCount.size : Int) = 20 := rfl
  have hnext : ((20 * m : Nat) : Int) + 20 = (20 * (m + 1) : Nat) := by omega
  have hprev : ((20 * m : Nat) : Int) - 20 = 20 * m - 20 := by omega
  rw [search, if_pos hlohi]
  simp only [middle_near hab hle hlt hhi, hsize]
  rw [hnext, hprev]

theorem search_turn (hash : Hash) (fuel : Nat) (f : InputStream) (phc : PasswordHashAndCount)
    {a b : Nat} (n : Nat) (hab : a < b) (hb : 20 * b < 2 ^ 63 + 20) :
    let m := (a + b - 1) / 2
    search hash (fuel + 1) f phc (20 * a : Nat) (20 * b - 20) n =
      let (_, phc, f) := phc.readAt f (20 * m : Nat)
      if hash.gt phc.hash then search hash fuel f phc (20 * (m + 1) : Nat) (20 * b - 20) (n + 1)
      else if hash.lt phc.hash then search hash fuel f phc (20 * a : Nat) (20 * m - 20) (n + 1)
      else some (phc, n + 1, f) :=
  search_turn_near hash fuel f phc n hab le_rfl (by omega) (by omega)

/-- The search stops when the bounds have crossed. -/
theorem search_crossed (hash : Hash) (fuel : Nat) (f : InputStream) (phc : PasswordHashAndCount)
    {lo hi : Int} (n : Nat) (h : hi < lo) :
    search hash (fuel + 1) f phc lo hi n = some ({ phc with count := 0 }, n, f) := by
  rw [search, if_neg (by omega)]

theorem search_stop (hash : Hash) (fuel : Nat) (f : InputStream) (phc : PasswordHashAndCount)
    {a b : Nat} (n : Nat) (hab : b ≤ a) :
    search hash (fuel + 1) f phc (20 * a : Nat) (20 * b - 20) n =
      some ({ phc with count := 0 }, n, f) :=
  search_crossed hash fuel f phc n (by omega)

/-- The state of a search on a stream that has not failed. The entry last read is not the one
that is looked for, unless it counts 0. -/
structure Searching (rs : List Record) (k : Nat) (f : InputStream) (phc : PasswordHashAndCount)
    (a b : Nat) : Prop where
  bracket : Bracket rs k a b
  le : a ≤ b
  a_le : a ≤ rs.length
  b_le : b ≤ rs.length + 1
  content : f.content = encodeAll rs
  live : f.fail = false
  isValid : phc.hash.isValid = false
  stale : phc.hash.key = k → phc.count = 0

/-- The read of a record that is there. -/
theorem readAt_record {rs : List Record} {f : InputStream} {phc : PasswordHashAndCount} {m : Nat}
    (hc : f.content = encodeAll rs) (hf : f.fail = false) (hv : phc.hash.isValid = false)
    (hm : m < rs.length) :
    ∃ g, phc.readAt f (20 * m : Nat) = (true, rs[m].phc, g) ∧ g.content = f.content ∧
      g.fail = false := by
  have hg := gives_seekg hc hf hm.le
  rw [List.drop_eq_getElem_cons hm] at hg
  obtain ⟨g, hread, hrest, hgc, -⟩ := PasswordHashAndCount.read_of_gives phc hv hg
  exact ⟨g, hread, by rw [hgc, InputStream.seekg_content], InputStream.fail_of_good hrest.good⟩

/-- The read behind the last record. -/
theorem readAt_end {rs : List Record} {f : InputStream} (phc : PasswordHashAndCount)
    (hc : f.content = encodeAll rs) (hf : f.fail = false) :
    ∃ g, phc.readAt f (20 * rs.length : Nat) = (false, phc, g) ∧ g.content = f.content ∧
      g.fail = true := by
  have hg := gives_seekg hc hf le_rfl
  rw [List.drop_length] at hg
  refine ⟨_, PasswordHashAndCount.read_at_end phc hg, ?_, ?_⟩
  · simp
  · simp [InputStream.fail]

theorem Searching.stored_eq_zero {rs : List Record} {k : Nat} {f : InputStream}
    {phc : PasswordHashAndCount} {b : Nat} (h : Searching rs k f phc rs.length b) :
    stored rs k = 0 := by
  apply stored_of_not_mem
  intro r hr
  exact (h.bracket.below r (by rwa [List.take_length])).ne

/-- The turn that reads behind the last record is the last but one. It fails the stream. -/
theorem search_end {rs : List Record} (hsize : 20 * rs.length < 2 ^ 63) {hash : Hash}
    {f : InputStream} {phc : PasswordHashAndCount} (n : Nat)
    (h : Searching rs hash.key f phc rs.length (rs.length + 1)) :
    ∃ p n' g, Yields (fun fuel => search hash fuel f phc (20 * rs.length : Nat)
        (20 * (rs.length + 1 : Nat) - 20) n) (p, n', g) ∧
      p.count = 0 ∧ g.content = f.content ∧ g.fail = true := by
  obtain ⟨g, hread, hgc, hgf⟩ := readAt_end phc h.content h.live
  have hm : (rs.length + (rs.length + 1) - 1) / 2 = rs.length := by omega
  have hturn := fun fuel => search_turn hash fuel f phc n (Nat.lt_succ_self rs.length) (by omega)
  simp only [Nat.succ_eq_add_one, hm, hread] at hturn
  by_cases hgt : hash.gt phc.hash = true
  · refine ⟨{ phc with count := 0 }, n + 1, g, Yields.of_shift 2 (Yields.of_eq ?_), rfl, hgc, hgf⟩
    intro fuel
    rw [hturn, if_pos hgt]
    exact search_stop hash fuel g phc (n + 1) le_rfl
  · by_cases hlt : hash.lt phc.hash = true
    · refine ⟨{ phc with count := 0 }, n + 1, g, Yields.of_shift 2 (Yields.of_eq ?_), rfl, hgc, hgf⟩
      intro fuel
      rw [hturn, if_neg hgt, if_pos hlt]
      exact search_stop hash fuel g phc (n + 1) le_rfl
    · have hkey : phc.hash.key = hash.key := (Hash.key_eq_of_not_lt_of_not_gt hlt hgt).symm
      refine ⟨phc, n + 1, g, Yields.of_shift 1 (Yields.of_eq ?_), h.stale hkey, hgc, hgf⟩
      intro fuel
      rw [hturn, if_neg hgt, if_neg hlt]

/-- The read on a failed stream. -/
theorem readAt_failed {f : InputStream} (phc : PasswordHashAndCount) (pos : Int)
    (hf : f.fail = true) :
    ∃ g, phc.readAt f pos = (false, phc, g) ∧ g.content = f.content ∧ g.fail = true := by
  have hseek : (f.seekg pos).fail = true := by
    rw [InputStream.seekg_of_fail pos hf]
    simp [InputStream.fail]
  refine ⟨_, PasswordHashAndCount.read_of_fail phc hseek, ?_, ?_⟩
  · simp
  · simp [InputStream.fail]

/-- A search in an empty file counts nothing. -/
theorem search_empty {hash : Hash} (fuel : Nat) :
    ∀ {f : InputStream} {phc : PasswordHashAndCount} {lo hi : Int} {n : Nat}
      {q : PasswordHashAndCount × Nat × InputStream}, f.content = [] → phc.count = 0 →
      search hash fuel f phc lo hi n = some q → q.1.count = 0 := by
  induction fuel with
  | zero =>
    intro f phc lo hi n q _ _ h
    cases h
  | succ fuel ih =>
    intro f phc lo hi n q hf hcount h
    obtain ⟨g, hread, hg⟩ := PasswordHashAndCount.read_of_empty phc
      (f := f.seekg (middle lo hi)) (by rw [InputStream.seekg_content, hf])
    unfold search at h
    simp only [PasswordHashAndCount.readAt, hread] at h
    split_ifs at h
    · exact ih hg hcount h
    · exact ih hg hcount h
    · cases h
      exact hcount
    · cases h
      rfl

/-! ## The whole search -/

/-- The search ends with the stored count. It leaves a failed stream exactly when the upper
bound is the size of the file and every record lies under the hash. -/
theorem search_yields {rs : List Record} (hs : StrictlyIncreasing rs)
    (hsize : 20 * rs.length < 2 ^ 63) (hash : Hash) (d : Nat) :
    ∀ (a b : Nat) (f : InputStream) (phc : PasswordHashAndCount) (n : Nat), b - a = d →
      Searching rs hash.key f phc a b →
      ∃ p n' g,
        Yields (fun fuel => search hash fuel f phc (20 * a : Nat) (20 * b - 20) n) (p, n', g) ∧
        p.count = stored rs hash.key ∧ g.content = f.content ∧
        (g.fail = true ↔ b = rs.length + 1 ∧ ∀ r ∈ rs, r.key < hash.key) := by
  induction d using Nat.strong_induction_on with
  | _ d ih =>
    intro a b f phc n hd h
    obtain ⟨hbr, hab, hale, hble, hc, hf, hv, hstale⟩ := h
    rcases Nat.eq_or_lt_of_le hab with hstop | hlt
    · -- an empty bracket: nothing is stored under the hash
      refine ⟨_, n, f, Yields.of_shift 1 (Yields.of_eq fun fuel => search_stop hash fuel f phc n
        hstop.ge), (hbr.stored_eq_zero hstop.ge).symm, rfl, ?_⟩
      rw [hf]
      simp only [Bool.false_eq_true, false_iff, not_and]
      omega
    · rcases Nat.lt_or_ge ((a + b - 1) / 2) rs.length with hm | hm
      · obtain ⟨g, hread, hgc, hgf⟩ := readAt_record hc hf hv hm
        have hturn := fun fuel => search_turn hash fuel f phc n hlt (by omega)
        generalize hmid : (a + b - 1) / 2 = m at hm hread hturn
        simp only [hread] at hturn
        by_cases hgt : hash.gt rs[m].phc.hash = true
        · have hkey := (Hash.gt_iff _ _).mp hgt
          obtain ⟨p, n', g', hy, hp, hg', hfail⟩ := ih (b - (m + 1)) (by omega) (m + 1) b g
            rs[m].phc (n + 1) rfl ⟨hbr.raise hs hm hkey, by omega, hm, hble, by rw [hgc, hc], hgf,
              rfl, fun he => absurd he (ne_of_lt hkey)⟩
          refine ⟨p, n', g', Yields.of_shift 1 ?_, hp, by rw [hg', hgc], hfail⟩
          simpa only [hturn, if_pos hgt] using hy
        · by_cases hlt' : hash.lt rs[m].phc.hash = true
          · have hkey := (Hash.lt_iff _ _).mp hlt'
            obtain ⟨p, n', g', hy, hp, hg', hfail⟩ := ih (m - a) (by omega) a m g
              rs[m].phc (n + 1) rfl ⟨hbr.lower hs hm hkey, by omega, hale, by omega,
                by rw [hgc, hc], hgf, rfl, fun he => absurd he (ne_of_gt hkey)⟩
            refine ⟨p, n', g', Yields.of_shift 1 ?_, hp, by rw [hg', hgc], ?_⟩
            · simpa only [hturn, if_neg hgt, if_pos hlt'] using hy
            · -- neither side: the bound moved to a record over the hash
              rw [hfail]
              constructor
              · rintro ⟨he, -⟩
                omega
              · rintro ⟨-, hall⟩
                exact absurd (hall _ (List.getElem_mem hm)) hkey.not_gt
          · have hkey : rs[m].key = hash.key := (Hash.key_eq_of_not_lt_of_not_gt hlt' hgt).symm
            refine ⟨rs[m].phc, n + 1, g, Yields.of_shift 1 (Yields.of_eq ?_), ?_, hgc, ?_⟩
            · intro fuel
              rw [hturn, if_neg hgt, if_neg hlt']
            · rw [← hkey, stored_of_mem hs (List.getElem_mem hm)]
              rfl
            · rw [hgf]
              simp only [Bool.false_eq_true, false_iff, not_and, not_forall]
              intro _
              exact ⟨rs[m], List.getElem_mem hm, by omega⟩
      · -- the middle is behind the last record only for the last two bounds
        have ha : a = rs.length := by omega
        have hb : b = rs.length + 1 := by omega
        subst ha hb
        have hsearch : Searching rs hash.key f phc rs.length (rs.length + 1) :=
          ⟨hbr, hab, hale, hble, hc, hf, hv, hstale⟩
        obtain ⟨p, n', g, hy, hp, hgc, hgf⟩ := search_end hsize n hsearch
        refine ⟨p, n', g, hy, by rw [hp, hsearch.stored_eq_zero], hgc, ?_⟩
        rw [hgf]
        simp only [true_iff, true_and]
        intro r hr
        exact hbr.below r (by rwa [List.take_length])

/-- On a failed stream the search ends too, and finds nothing. -/
theorem search_failed (hash : Hash) (d : Nat) :
    ∀ (a b : Nat) (f : InputStream) (phc : PasswordHashAndCount) (n : Nat), b - a = d → a ≤ b →
      20 * b < 2 ^ 63 + 20 → f.fail = true → (phc.hash.key = hash.key → phc.count = 0) →
      ∃ p n' g,
        Yields (fun fuel => search hash fuel f phc (20 * a : Nat) (20 * b - 20) n) (p, n', g) ∧
        p.count = 0 ∧ g.content = f.content ∧ g.fail = true := by
  induction d using Nat.strong_induction_on with
  | _ d ih =>
    intro a b f phc n hd hab hb hf hstale
    rcases Nat.eq_or_lt_of_le hab with hstop | hlt
    · exact ⟨_, n, f, Yields.of_shift 1 (Yields.of_eq fun fuel => search_stop hash fuel f phc n
        hstop.ge), rfl, rfl, hf⟩
    · have hturn := fun fuel => search_turn hash fuel f phc n hlt hb
      have hmid : (a + b - 1) / 2 < b ∧ a ≤ (a + b - 1) / 2 := by omega
      generalize (a + b - 1) / 2 = m at hmid hturn
      obtain ⟨g, hread, hgc, hgf⟩ := readAt_failed phc (20 * m : Nat) hf
      simp only [hread] at hturn
      by_cases hgt : hash.gt phc.hash = true
      · obtain ⟨p, n', g', hy, hp, hg', hfail⟩ := ih (b - (m + 1)) (by omega) (m + 1) b g phc
          (n + 1) rfl (by omega) hb hgf hstale
        refine ⟨p, n', g', Yields.of_shift 1 ?_, hp, by rw [hg', hgc], hfail⟩
        simpa only [hturn, if_pos hgt] using hy
      · by_cases hlt' : hash.lt phc.hash = true
        · obtain ⟨p, n', g', hy, hp, hg', hfail⟩ := ih (m - a) (by omega) a m g phc
            (n + 1) rfl (by omega) (by omega) hgf hstale
          refine ⟨p, n', g', Yields.of_shift 1 ?_, hp, by rw [hg', hgc], hfail⟩
          simpa only [hturn, if_neg hgt, if_pos hlt'] using hy
        · have hkey : phc.hash.key = hash.key := (Hash.key_eq_of_not_lt_of_not_gt hlt' hgt).symm
          refine ⟨phc, n + 1, g, Yields.of_shift 1 (Yields.of_eq ?_), hstale hkey, hgc, hgf⟩
          intro fuel
          rw [hturn, if_neg hgt, if_neg hlt']

/-- Whatever the search reads, it ends: every turn takes a record from the bracket. -/
theorem search_ends (hash : Hash) (d : Nat) :
    ∀ (a b : Nat) (f : InputStream) (phc : PasswordHashAndCount) (n : Nat), b - a = d →
      20 * b < 2 ^ 63 + 20 →
      Ends fun fuel => search hash fuel f phc (20 * a : Nat) (20 * b - 20) n := by
  induction d using Nat.strong_induction_on with
  | _ d ih =>
    intro a b f phc n hd hb
    rcases Nat.lt_or_ge a b with hlt | hstop
    · have hturn := fun fuel => search_turn hash fuel f phc n hlt hb
      have hmid : (a + b - 1) / 2 < b ∧ a ≤ (a + b - 1) / 2 := by omega
      generalize (a + b - 1) / 2 = m at hmid hturn
      rcases hread : phc.readAt f (20 * m : Nat) with ⟨ok, phc', g⟩
      simp only [hread] at hturn
      by_cases hgt : hash.gt phc'.hash = true
      · obtain ⟨q, hq⟩ := ih (b - (m + 1)) (by omega) (m + 1) b g phc' (n + 1) rfl hb
        refine ⟨q, Yields.of_shift 1 ?_⟩
        simpa only [hturn, if_pos hgt] using hq
      · by_cases hlt' : hash.lt phc'.hash = true
        · obtain ⟨q, hq⟩ := ih (m - a) (by omega) a m g phc' (n + 1) rfl (by omega)
          refine ⟨q, Yields.of_shift 1 ?_⟩
          simpa only [hturn, if_neg hgt, if_pos hlt'] using hq
        · refine ⟨(phc', n + 1, g), Yields.of_shift 1 (Yields.of_eq fun fuel => ?_)⟩
          rw [hturn, if_neg hgt, if_neg hlt']
    · exact ⟨_, Yields.of_shift 1 (Yields.of_eq fun fuel =>
        search_stop hash fuel f phc n hstop)⟩

/-! ## The inspector without an index -/

/-- The inspector was opened on the database without an index. -/
structure Serves (ins : PasswordInspector) (db : Database) : Prop where
  noIndex : ins.mIndexFile = none
  content : ins.mInputFile.content = db.bytes
  fileSize : ins.mFileSize = db.bytes.length

theorem serves_openFile (db : Database) : Serves (openFile db.bytes) db := ⟨rfl, rfl, rfl⟩

/-- Every record of the database lies under the hash. -/
def Behind (db : Database) (hash : Hash) : Prop := ∀ r ∈ db.records, r.key < hash.key

/-- Without an index the bounds are the start and the size of the file. -/
theorem binsearch_eq {ins : PasswordInspector} {rs : List Record} (hindex : ins.mIndexFile = none)
    (hsize : ins.mFileSize = (encodeAll rs).length) (hash : Hash) (fuel : Nat) :
    ins.binsearch fuel hash =
      (search hash fuel ins.mInputFile {} (20 * 0 : Nat) (20 * (rs.length + 1 : Nat) - 20) 0).map
        fun (phc, nReads, f) => (phc, nReads, { ins with mInputFile := f }) := by
  have hhi : (20 * (rs.length + 1 : Nat) - 20 : Int) = ins.mFileSize := by
    rw [hsize, encodeAll_length]
    omega
  rw [binsearch, hindex, hhi]
  rfl

theorem Serves.binsearch_eq {ins : PasswordInspector} {db : Database} (h : Serves ins db)
    (hash : Hash) (fuel : Nat) :
    ins.binsearch fuel hash =
      (search hash fuel ins.mInputFile {} (20 * 0 : Nat)
        (20 * (db.records.length + 1 : Nat) - 20) 0).map
        fun (phc, nReads, f) => (phc, nReads, { ins with mInputFile := f }) :=
  PasswordInspector.binsearch_eq h.noIndex h.fileSize hash fuel

/-- On a stream that has not failed, the answer is the stored count. The stream fails exactly
for a hash behind the whole file. -/
theorem Serves.binsearch_live {ins : PasswordInspector} {db : Database} (h : Serves ins db)
    (hf : ins.mInputFile.fail = false) (hash : Hash) :
    ∃ p n ins', Yields (fun fuel => ins.binsearch fuel hash) (p, n, ins') ∧
      p.count = stored db.records hash.key ∧ Serves ins' db ∧
      (ins'.mInputFile.fail = true ↔ Behind db hash) := by
  obtain ⟨p, n, g, hy, hp, hg, hfail⟩ := search_yields db.increasing db.size_lt hash _ 0
    (db.records.length + 1) ins.mInputFile {} 0 rfl
    ⟨bracket_all _ _ (Nat.le_succ _), by omega, by omega, le_rfl, h.content, hf, rfl, fun _ => rfl⟩
  refine ⟨p, n, { ins with mInputFile := g }, ?_, hp,
    ⟨h.noIndex, by rw [← h.content, ← hg], h.fileSize⟩, ?_⟩
  · simp only [h.binsearch_eq hash]
    exact hy.map _
  · simpa [Behind] using hfail

/-- The search on a fresh inspector ends and is exact: it gives the count that is stored under the
hash, and 0 where none is. -/
theorem the_search_is_exact (db : Database) (hash : Hash) :
    ∃ p nReads ins,
      Yields (fun fuel => (openFile db.bytes).binsearch fuel hash) (p, nReads, ins) ∧
      (∀ r ∈ db.records, r.key = hash.key → p.count = r.count) ∧
      ((∀ r ∈ db.records, r.key ≠ hash.key) → p.count = 0) := by
  obtain ⟨p, nReads, ins, hy, hp, -⟩ := (serves_openFile db).binsearch_live rfl hash
  refine ⟨p, nReads, ins, hy, fun r hr hk => ?_, fun hnone => ?_⟩
  · rw [hp, ← hk, stored_of_mem db.increasing hr]
  · rw [hp, stored_of_not_mem hnone]

/-- On a failed stream the answer is 0. -/
theorem Serves.binsearch_failed {ins : PasswordInspector} {db : Database} (h : Serves ins db)
    (hf : ins.mInputFile.fail = true) (hash : Hash) :
    ∃ p n ins', Yields (fun fuel => ins.binsearch fuel hash) (p, n, ins') ∧
      p.count = 0 ∧ Serves ins' db ∧ ins'.mInputFile.fail = true := by
  have hsize := db.size_lt
  obtain ⟨p, n, g, hy, hp, hg, hfail⟩ := search_failed hash _ 0 (db.records.length + 1)
    ins.mInputFile {} 0 rfl (by omega) (by omega) hf (fun _ => rfl)
  refine ⟨p, n, { ins with mInputFile := g }, ?_, hp,
    ⟨h.noIndex, by rw [← h.content, ← hg], h.fileSize⟩, hfail⟩
  simp only [h.binsearch_eq hash]
  exact hy.map _

/-- The lookups end. The stream has failed behind them exactly if it had failed before or one
of the hashes is behind the whole file. -/
theorem Serves.lookups_yields {db : Database} (hashes : List Hash) :
    ∀ {ins : PasswordInspector}, Serves ins db →
      ∃ ins', Yields (fun fuel => ins.lookups fuel hashes) ins' ∧ Serves ins' db ∧
        (ins'.mInputFile.fail = true ↔
          ins.mInputFile.fail = true ∨ ∃ g ∈ hashes, Behind db g) := by
  induction hashes with
  | nil =>
    intro ins h
    exact ⟨ins, Yields.of_eq fun _ => rfl, h, by simp⟩
  | cons hash rest ih =>
    intro ins h
    have hstep : ∃ p n ins₁, Yields (fun fuel => ins.binsearch fuel hash) (p, n, ins₁) ∧
        Serves ins₁ db ∧ (ins₁.mInputFile.fail = true ↔
          ins.mInputFile.fail = true ∨ Behind db hash) := by
      cases hf : ins.mInputFile.fail with
      | false =>
        obtain ⟨p, n, ins₁, hy, -, hs, hfail⟩ := h.binsearch_live hf hash
        exact ⟨p, n, ins₁, hy, hs, by simpa using hfail⟩
      | true =>
        obtain ⟨p, n, ins₁, hy, -, hs, hfail⟩ := h.binsearch_failed hf hash
        exact ⟨p, n, ins₁, hy, hs, by simpa using hfail⟩
    obtain ⟨p, n, ins₁, hy, hs, hfail⟩ := hstep
    obtain ⟨ins₂, hy₂, hs₂, hfail₂⟩ := ih hs
    have hrest := hy.bind (fun x fuel => PasswordInspector.lookups fuel x.2.2 rest) hy₂
    refine ⟨ins₂, hrest, hs₂, ?_⟩
    rw [hfail₂, hfail]
    simp [or_assoc]

/-! ## The law -/

/-- After the lookups, the answer for the hash is the answer of a fresh inspector. -/
def SameAnswerAfter (db : Database) (hashes : List Hash) (hash : Hash) : Prop :=
  ∃ ins p q, Yields (fun fuel => (openFile db.bytes).lookups fuel hashes) ins ∧
    Yields (fun fuel => ins.binsearch fuel hash) p ∧
    Yields (fun fuel => (openFile db.bytes).binsearch fuel hash) q ∧ p.1.count = q.1.count

/-- Lookups before make no difference exactly if none of them was for a hash behind the whole
file, or nothing is stored under the hash. -/
theorem lookups_before_make_no_difference_iff (db : Database) (hashes : List Hash) (hash : Hash) :
    SameAnswerAfter db hashes hash ↔
      (∀ g ∈ hashes, ¬ Behind db g) ∨ stored db.records hash.key = 0 := by
  obtain ⟨ins, hins, hs, hfail⟩ := (serves_openFile db).lookups_yields hashes
  obtain ⟨q, m, insq, hq, hqc, -, -⟩ := (serves_openFile db).binsearch_live rfl hash
  have hiff : ∀ p, Yields (fun fuel => ins.binsearch fuel hash) p →
      (SameAnswerAfter db hashes hash ↔ p.1.count = stored db.records hash.key) := by
    intro p hp
    constructor
    · rintro ⟨ins', p', q', hins', hp', hq', he⟩
      obtain rfl := hins.unique hins'
      rw [hp.unique hp', he, ← hq.unique hq', ← hqc]
    · intro he
      exact ⟨ins, p, _, hins, hp, hq, by rw [he, hqc]⟩
  cases hf : ins.mInputFile.fail with
  | false =>
    obtain ⟨p, n, ins', hy, hp, -, -⟩ := hs.binsearch_live hf hash
    rw [hiff _ hy]
    rw [hf] at hfail
    simp only [Bool.false_eq_true, false_iff, not_or, not_exists, not_and] at hfail
    simp only [hp, true_iff]
    exact Or.inl hfail.2
  | true =>
    obtain ⟨p, n, ins', hy, hp, -, -⟩ := hs.binsearch_failed hf hash
    rw [hiff _ hy]
    obtain ⟨g, hg, hbehind⟩ : ∃ g ∈ hashes, Behind db g := by
      simpa [openFile, InputStream.fail] using hfail.mp hf
    simp only [hp]
    constructor
    · intro he
      exact Or.inr he.symm
    · rintro (hall | he)
      · exact absurd hbehind (hall g hg)
      · exact he.symm

/-- A stored hash is not found any more after a lookup of a hash behind the last record. -/
theorem a_lookup_behind_the_file_hides_a_record :
    ¬ SameAnswerAfter ⟨[⟨0, 5, 1⟩], by decide, by decide⟩ [⟨0, 6, true⟩] ⟨0, 5, true⟩ := by
  rintro ⟨ins, p, q, hins, hp, hq, he⟩
  have hins' :
      Yields (fun fuel => (openFile (encodeAll [⟨0, 5, 1⟩])).lookups fuel [⟨0, 6, true⟩]) _ :=
    Yields.of_shift 4 (Yields.of_eq fun fuel => rfl)
  obtain rfl := hins.unique hins'
  have hp' := hp.unique (Yields.of_shift 4 (Yields.of_eq fun fuel => rfl))
  have hq' := hq.unique (Yields.of_shift 4 (Yields.of_eq fun fuel => rfl))
  rw [hp', hq'] at he
  revert he
  decide

end pwned.PasswordInspector
