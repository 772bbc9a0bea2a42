-- The lookup in a file whose last record is cut off. The read of that record
-- fails, but what it transferred stays and is compared like a record.
import Pwned.Search

open LittleEndian

namespace pwned

namespace PasswordInspector

/-! ## The search in a file that is cut off -/

/-- The entry that was read last when the search comes to the end of the file. -/
def lastEntry (rs : List Record) : PasswordHashAndCount := (rs.getLast?.map Record.phc).getD {}

/-- What stands in the entry after the read of the incomplete record. -/
def cut (rs : List Record) (tail : List UInt8) : Record := (lastEntry rs).overlay tail

theorem lastEntry_eq {rs : List Record} (h : 0 < rs.length) :
    lastEntry rs = rs[rs.length - 1].phc := by
  rw [lastEntry, List.getLast?_eq_getElem?, List.getElem?_eq_getElem (by omega)]
  rfl

/-- Nothing is stored under a hash that every record lies under. -/
theorem stored_eq_zero_of_behind {rs : List Record} {k : Nat} (h : ∀ r ∈ rs, r.key < k) :
    stored rs k = 0 := by
  apply stored_of_not_mem
  intro r hr
  exact (h r hr).ne

/-- A seek to a record, or to the incomplete one. -/
theorem holds_seekg {rs : List Record} {tail : List UInt8} {f : InputStream}
    (hc : f.content = encodeAll rs ++ tail) (hf : f.fail = false) {i : Nat} (hi : i ≤ rs.length) :
    (f.seekg (20 * i : Nat)).Holds (encodeAll (rs.drop i) ++ tail) := by
  refine ⟨InputStream.seekg_good _ hf, ?_⟩
  rw [InputStream.seekg_nat _ hf]
  simp only [hc]
  rw [List.drop_append_of_le_length (by simp; omega), drop_encodeAll]

/-- The state of a search in a file that is cut off, before it comes to the incomplete record. -/
structure SearchingCut (rs : List Record) (tail : List UInt8) (k : Nat) (f : InputStream)
    (phc : PasswordHashAndCount) (a b : Nat) (hi : Int) : Prop where
  bracket : Bracket rs k a b
  le : a ≤ b
  a_le : a ≤ rs.length
  le_hi : 20 * b - 20 ≤ hi
  hi_lt : hi < 20 * b
  hi_le : hi < 2 ^ 63
  b_le : b ≤ rs.length + 1
  /-- The upper bound moves below a record over the hash. -/
  above : b ≤ rs.length → ¬ ∀ r ∈ rs, r.key < k
  content : f.content = encodeAll rs ++ tail
  live : f.fail = false
  isValid : phc.hash.isValid = false
  /-- The lower bound comes to the end of the file from the last record. -/
  last : a = rs.length → b = rs.length + 1 → phc = lastEntry rs

/-- What the search in a file that is cut off counts. -/
def foundCut (rs : List Record) (tail : List UInt8) (k : Nat) : BitVec 32 :=
  if (∀ r ∈ rs, r.key < k) ∧ (cut rs tail).key = k then (cut rs tail).count else stored rs k

/-- The turn that reads the incomplete record ends the search. -/
theorem search_tail {rs : List Record} {tail : List UInt8} (htail : tail.length < 20)
    {hash : Hash} {f : InputStream} {phc : PasswordHashAndCount} {hi : Int} (n : Nat)
    (h : SearchingCut rs tail hash.key f phc rs.length (rs.length + 1) hi) :
    ∃ q, Yields (fun fuel => search hash fuel f phc (20 * rs.length : Nat) hi n) q ∧
      q.1.count = foundCut rs tail hash.key := by
  have hhold := holds_seekg h.content h.live le_rfl
  rw [List.drop_length, encodeAll_nil, List.nil_append] at hhold
  obtain ⟨p, g, hread, hp, hpv, -, -⟩ := phc.read_short hhold htail
  rw [h.last rfl rfl] at hp
  have hbehind : ∀ r ∈ rs, r.key < hash.key := by
    intro r hr
    exact h.bracket.below r (by rwa [List.take_length])
  have hm : (rs.length + (rs.length + 1) - 1) / 2 = rs.length := by omega
  have hhi := h.hi_lt
  have hturn := fun fuel => search_turn_near hash fuel f phc n (Nat.lt_succ_self rs.length)
    h.le_hi h.hi_lt h.hi_le
  simp only [Nat.succ_eq_add_one, hm, PasswordHashAndCount.readAt, hread] at hturn
  have hkey : p.hash.key = (cut rs tail).key := by
    rw [← PasswordHashAndCount.record_key, hp]
    rfl
  by_cases hgt : hash.gt p.hash = true
  · have hne := (Hash.gt_iff _ _).mp hgt
    refine ⟨({ p with count := 0 }, n + 1, g), Yields.of_shift 2 (Yields.of_eq fun fuel => ?_), ?_⟩
    · rw [hturn, if_pos hgt]
      exact search_crossed hash fuel g p (n + 1) (by push_cast; omega)
    · rw [foundCut, if_neg (by omega), stored_eq_zero_of_behind hbehind]
  · by_cases hlt : hash.lt p.hash = true
    · have hne := (Hash.lt_iff _ _).mp hlt
      refine ⟨({ p with count := 0 }, n + 1, g),
        Yields.of_shift 2 (Yields.of_eq fun fuel => ?_), ?_⟩
      · rw [hturn, if_neg hgt, if_pos hlt]
        exact search_crossed hash fuel g p (n + 1) (by push_cast; omega)
      · rw [foundCut, if_neg (by omega), stored_eq_zero_of_behind hbehind]
    · have hmatch := Hash.key_eq_of_not_lt_of_not_gt hlt hgt
      refine ⟨(p, n + 1, g), Yields.of_shift 1 (Yields.of_eq fun fuel => ?_), ?_⟩
      · rw [hturn, if_neg hgt, if_neg hlt]
      · rw [foundCut, if_pos ⟨hbehind, hkey.symm.trans hmatch.symm⟩, cut, ← hp]
        rfl

/-- The whole search in a file that is cut off. It reads the incomplete record if every record
lies under the hash, and comes to the stored count otherwise. -/
theorem search_cut_yields {rs : List Record} (hs : StrictlyIncreasing rs) {tail : List UInt8}
    (htail : tail.length < 20) (hash : Hash) (d : Nat) :
    ∀ (a b : Nat) (hi : Int) (f : InputStream) (phc : PasswordHashAndCount) (n : Nat), b - a = d →
      SearchingCut rs tail hash.key f phc a b hi →
      ∃ q, Yields (fun fuel => search hash fuel f phc (20 * a : Nat) hi n) q ∧
        q.1.count = foundCut rs tail hash.key := by
  induction d using Nat.strong_induction_on with
  | _ d ih =>
    intro a b hi f phc n hd h
    obtain ⟨hbr, hab, hale, hlehi, hhilt, hhi, hble, habove, hc, hf, hv, hlast⟩ := h
    have hstored : b ≤ rs.length → foundCut rs tail hash.key = stored rs hash.key :=
      fun hb => if_neg fun h => habove hb h.1
    rcases Nat.eq_or_lt_of_le hab with hstop | hlt
    · -- an empty bracket lies before the end of the file
      refine ⟨({ phc with count := 0 }, n, f), Yields.of_shift 1 (Yields.of_eq fun fuel =>
        search_crossed hash fuel f phc n (by push_cast; omega)), ?_⟩
      rw [hstored (by omega), hbr.stored_eq_zero hstop.ge]
    · rcases Nat.lt_or_ge ((a + b - 1) / 2) rs.length with hm | hm
      · have hturn := fun fuel => search_turn_near hash fuel f phc n hlt hlehi hhilt hhi
        generalize hmid : (a + b - 1) / 2 = m at hm hturn
        have hhold := holds_seekg hc hf hm.le
        rw [List.drop_eq_getElem_cons hm, encodeAll_cons, List.append_assoc] at hhold
        obtain ⟨g, hread, hg, hgc⟩ := phc.read_of_holds hv hhold
        rw [InputStream.seekg_content, hc] at hgc
        have hgf := InputStream.fail_of_good hg.good
        simp only [PasswordHashAndCount.readAt, hread] at hturn
        by_cases hgt : hash.gt rs[m].phc.hash = true
        · have hkey := (Hash.gt_iff _ _).mp hgt
          obtain ⟨q, hy, hq⟩ := ih (b - (m + 1)) (by omega) (m + 1) b hi g rs[m].phc (n + 1) rfl
            ⟨hbr.raise hs hm hkey, by omega, hm, hlehi, hhilt, hhi, hble, habove, hgc, hgf, rfl, by
              intro hend _
              rw [lastEntry_eq (by omega)]
              simp only [← hend, Nat.add_sub_cancel]⟩
          refine ⟨q, Yields.of_shift 1 ?_, hq⟩
          simpa only [hturn, if_pos hgt] using hy
        · by_cases hlt' : hash.lt rs[m].phc.hash = true
          · have hkey := (Hash.lt_iff _ _).mp hlt'
            obtain ⟨q, hy, hq⟩ := ih (m - a) (by omega) a m (20 * m - 20) g rs[m].phc (n + 1) rfl
              ⟨hbr.lower hs hm hkey, by omega, hale, le_rfl, by omega, by omega, by omega,
                fun _ hall => hkey.not_gt (hall rs[m] (List.getElem_mem hm)), hgc, hgf, rfl,
                by omega⟩
            refine ⟨q, Yields.of_shift 1 ?_, hq⟩
            simpa only [hturn, if_neg hgt, if_pos hlt'] using hy
          · have hkey : rs[m].key = hash.key := (Hash.key_eq_of_not_lt_of_not_gt hlt' hgt).symm
            refine ⟨(rs[m].phc, n + 1, g), Yields.of_shift 1 (Yields.of_eq fun fuel => ?_), ?_⟩
            · rw [hturn, if_neg hgt, if_neg hlt']
            · have hnot : foundCut rs tail hash.key = stored rs hash.key :=
                if_neg fun h => (h.1 rs[m] (List.getElem_mem hm)).ne hkey
              rw [hnot, ← hkey, stored_of_mem hs (List.getElem_mem hm)]
              rfl
      · -- the middle is the incomplete record only for the last two bounds
        obtain rfl : a = rs.length := by omega
        obtain rfl : b = rs.length + 1 := by omega
        exact search_tail htail n
          ⟨hbr, hab, hale, hlehi, hhilt, hhi, hble, habove, hc, hf, hv, hlast⟩

/-! ## The law -/

/-- `binsearch` counts the same in the file with the incomplete record as in the file without. -/
def SameCount (db : Database) (tail : List UInt8) (hash : Hash) : Prop :=
  ∃ p q, Yields (fun fuel => (openFile (db.bytes ++ tail)).binsearch fuel hash) p ∧
    Yields (fun fuel => (openFile db.bytes).binsearch fuel hash) q ∧ p.1.count = q.1.count

/-- What a fresh inspector finds in a file that is cut off. -/
theorem binsearch_cut (db : Database) {tail : List UInt8} (htail : tail.length < 20)
    (hsize : (db.bytes ++ tail).length < 2 ^ 63) (hash : Hash) :
    ∃ p, Yields (fun fuel => (openFile (db.bytes ++ tail)).binsearch fuel hash) p ∧
      p.1.count = foundCut db.records tail hash.key := by
  have hlen : ((db.bytes ++ tail).length : Int) = 20 * db.records.length + tail.length := by
    rw [List.length_append, Database.bytes, encodeAll_length]
    omega
  obtain ⟨q, hy, hq⟩ := search_cut_yields db.increasing htail hash _ 0 (db.records.length + 1)
    ((db.bytes ++ tail).length : Int) { content := db.bytes ++ tail } {} 0 rfl
    ⟨bracket_all _ _ (Nat.le_succ _), by omega, by omega, by omega, by omega, by omega, le_rfl,
      by omega, rfl, rfl, rfl, by
        intro hzero _
        have hnil : db.records = [] := List.eq_nil_of_length_eq_zero hzero.symm
        rw [lastEntry, hnil]
        rfl⟩
  exact ⟨_, hy.map _, hq⟩

/-- An incomplete last record makes no difference exactly if it is not matched: a record lies
at the hash or over it, or what the read of the incomplete record leaves in the entry of the
last record spells another hash or counts 0. -/
theorem an_incomplete_record_makes_no_difference_iff (db : Database) {tail : List UInt8}
    (htail : tail.length < 20) (hsize : (db.bytes ++ tail).length < 2 ^ 63) (hash : Hash) :
    SameCount db tail hash ↔
      ¬ (Behind db hash ∧ (cut db.records tail).key = hash.key ∧
        (cut db.records tail).count ≠ 0) := by
  obtain ⟨p, hp, hpc⟩ := binsearch_cut db htail hsize hash
  obtain ⟨q, m, insq, hq, hqc, -, -⟩ := (serves_openFile db).binsearch_live rfl hash
  have hiff : SameCount db tail hash ↔
      foundCut db.records tail hash.key = stored db.records hash.key := by
    constructor
    · rintro ⟨p', q', hp', hq', he⟩
      rw [← hpc, hp.unique hp', he, ← hq.unique hq', hqc]
    · intro he
      exact ⟨p, _, hp, hq, by rw [hpc, he, hqc]⟩
  rw [hiff, foundCut]
  by_cases hbehind : Behind db hash
  · have hzero : stored db.records hash.key = 0 := stored_eq_zero_of_behind hbehind
    by_cases hkey : (cut db.records tail).key = hash.key
    · rw [if_pos ⟨hbehind, hkey⟩, hzero]
      simp [hbehind, hkey]
    · rw [if_neg fun h => hkey h.2]
      simp [hkey]
  · rw [if_neg fun h => hbehind h.1]
    simp [hbehind]

/-- A stored hash is found, whatever comes behind the last record. -/
theorem an_incomplete_record_makes_no_difference_at_a_record :
    SameCount ⟨[⟨0, 5, 7⟩], by decide, by decide⟩ [1, 2, 3] ⟨0, 5, true⟩ :=
  (an_incomplete_record_makes_no_difference_iff ⟨[⟨0, 5, 7⟩], by decide, by decide⟩
    (by decide) (by decide) _).mpr fun h => by
      have hlt := h.1 ⟨0, 5, 7⟩ (List.mem_singleton.mpr rfl)
      revert hlt
      decide

/-- The hash of a record that lost its count is found, with the count of the record before. -/
theorem an_incomplete_record_is_matched :
    ¬ SameCount ⟨[⟨0, 5, 7⟩], by decide, by decide⟩ (Hash.data ⟨0, 6, true⟩) ⟨0, 6, true⟩ := by
  rintro ⟨p, q, hp, hq, he⟩
  have hp' := hp.unique (Yields.of_shift 4 (Yields.of_eq fun fuel => rfl))
  have hq' := hq.unique (Yields.of_shift 4 (Yields.of_eq fun fuel => rfl))
  rw [hp', hq'] at he
  revert he
  decide

end PasswordInspector

end pwned
