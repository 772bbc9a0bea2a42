-- The test set extractor. It picks hashes out of a file at even distances, or
-- draws hashes and keeps those that the file does not have.
import Pwned.WorkerSession

open pwned PasswordInspector

namespace pwned.TestSet

/-! ## The program -/

structure Options where
  N : Int := 20000
  writeLoadTestUrls : Bool := false
  testUrlPrefix : List UInt8 :=
    webservice.ascii "http://127.0.0.1:31337/v1/pwned/api/lookup?hash="

/-- What is written of an entry. -/
def Options.write (options : Options) (phc : PasswordHashAndCount) : List UInt8 :=
  if options.writeLoadTestUrls then options.testUrlPrefix ++ phc.hash.toString ++ [10]
  else phc.dump

/-- The state of the loop over the positions. -/
structure Picking where
  pos : Int := 0
  i : Int := 0
  phc : PasswordHashAndCount := {}
  input : InputStream
  out : List UInt8 := []

/-- One turn of the loop, whose offset is `size / N`. -/
def pickTurn (options : Options) (size offset : Int) (s : Picking) : Picking ⊕ List UInt8 :=
  if s.pos < size ∧ s.i < options.N then
    let idx := s.pos - s.pos.tmod PasswordHashAndCount.size
    let (ok, phc, input) := s.phc.readAt s.input idx
    let s := { s with phc, input, pos := s.pos + offset }
    .inl (if ok then { s with i := s.i + 1, out := s.out ++ options.write phc } else s)
  else .inr s.out

/-- One turn of the loop over the drawn hashes, which all go to one inspector. -/
def missTurn (options : Options) (fuel : Nat) (s : PasswordInspector × List UInt8) (hash : Hash) :
    Option (PasswordInspector × List UInt8) :=
  (s.1.binsearch fuel hash).map fun (p, _, ins) =>
    (ins, s.2 ++ if p.count = 0 then options.write { p with hash } else [])

/-- The program, which divides by `N` first. `drawn` is what the generator makes of its numbers. -/
def main (options : Options) (onlyNonExistent : Bool) (drawn : Nat → Hash) (file : List UInt8)
    (fuel : Nat) : Option (List UInt8) :=
  if options.N = 0 then none
  else
    let size : Int := file.length
    let offset := size.tdiv options.N
    if onlyNonExistent then
      (((List.range options.N.toNat).map drawn).foldlM (missTurn options fuel)
        (openFile file, [])).map Prod.snd
    else loop (pickTurn options size offset) fuel { input := { content := file } }

/-! ## The picked records -/

/-- The index of the `k`-th of `n` picks from a file of `size` bytes. -/
def pick (size n k : Nat) : Nat := k * (size / n) / 20

theorem pick_lt {m n k : Nat} (hm : 0 < m) (hk : k < n) : pick (20 * m) n k < m := by
  have hmul : n * (20 * m / n) ≤ 20 * m := Nat.mul_div_le _ _
  rcases Nat.eq_zero_or_pos (20 * m / n) with h0 | hpos
  · simp [pick, h0, hm]
  · have hlt : k * (20 * m / n) < n * (20 * m / n) := Nat.mul_lt_mul_of_pos_right hk hpos
    exact Nat.div_lt_of_lt_mul (by omega)

theorem pick_mono {size n i j : Nat} (h : i ≤ j) : pick size n i ≤ pick size n j :=
  Nat.div_le_div_right (Nat.mul_le_mul_right _ h)

/-- With no more picks than records the picks are apart. -/
theorem pick_lt_pick {m n i j : Nat} (hn : 0 < n) (hnm : n ≤ m) (h : i < j) :
    pick (20 * m) n i < pick (20 * m) n j := by
  have hoffset : 20 ≤ 20 * m / n := by
    rw [Nat.le_div_iff_mul_le hn]
    omega
  have hnext : i * (20 * m / n) + 20 ≤ j * (20 * m / n) := by
    calc i * (20 * m / n) + 20 ≤ (i + 1) * (20 * m / n) := by
          rw [Nat.add_mul, Nat.one_mul]
          omega
      _ ≤ j * (20 * m / n) := Nat.mul_le_mul_right _ h
  unfold pick
  omega

/-- The records that the first `k` of `n` picks give. -/
def picks (rs : List Record) (n k : Nat) : List Record :=
  (List.range k).filterMap fun j => rs[pick (20 * rs.length) n j]?

/-- The records that are picked. -/
def sample (rs : List Record) (n : Nat) : List Record := picks rs n n

theorem picks_succ {rs : List Record} {n k : Nat} (h : pick (20 * rs.length) n k < rs.length) :
    picks rs n (k + 1) = picks rs n k ++ [rs[pick (20 * rs.length) n k]] := by
  unfold picks
  rw [List.range_succ, List.filterMap_append]
  simp [h]

theorem sample_subset (rs : List Record) (n : Nat) : ∀ r ∈ sample rs n, r ∈ rs := by
  intro r hr
  obtain ⟨k, -, hk⟩ := List.mem_filterMap.mp hr
  exact List.mem_of_getElem? hk

theorem sample_eq_ofFn {rs : List Record} (hne : rs ≠ []) (n : Nat) :
    sample rs n = List.ofFn fun k : Fin n =>
      rs.get ⟨pick (20 * rs.length) n k, pick_lt (List.length_pos_iff.mpr hne) k.isLt⟩ := by
  unfold sample picks
  rw [List.ofFn_eq_map, ← List.map_coe_finRange_eq_range, List.filterMap_map, ← List.filterMap_eq_map]
  refine List.filterMap_congr fun k _ => ?_
  exact List.getElem?_eq_getElem (pick_lt (List.length_pos_iff.mpr hne) k.isLt)

/-- The picks are distinct exactly if there are enough records, and then in order. -/
theorem sample_increasing_iff {db : Database} {n : Nat} (hne : db.records ≠ []) (hn : 0 < n) :
    StrictlyIncreasing (sample db.records n) ↔ n ≤ db.records.length := by
  have hofFn := sample_eq_ofFn hne n
  constructor
  · intro hincreasing
    have hnodup : (sample db.records n).Nodup :=
      hincreasing.imp fun hlt he => absurd (he ▸ hlt) (lt_irrefl _)
    have hle := (hnodup.subperm (sample_subset db.records n)).length_le
    rwa [hofFn, List.length_ofFn] at hle
  · intro hle
    rw [hofFn]
    refine List.pairwise_ofFn.mpr fun i j hij => ?_
    exact List.pairwise_iff_getElem.mp db.increasing _ _ _ _ (pick_lt_pick hn hle hij)

/-! ## Existing hashes -/

variable {options : Options} {db : Database} {n : Nat}

/-- The loop has made `k` picks. -/
structure Picked (options : Options) (db : Database) (n : Nat) (s : Picking) (k : Nat) : Prop where
  le : k ≤ n
  pos : s.pos = (k * (20 * db.records.length / n) : Nat)
  i : s.i = k
  content : s.input.content = db.bytes
  live : s.input.fail = false
  isValid : s.phc.hash.isValid = false
  out : s.out = (picks db.records n k).flatMap fun r => options.write r.phc

theorem Picked.turn {s : Picking} {k : Nat} (h : Picked options db n s k) (hN : options.N = n)
    (hne : db.records ≠ []) (hk : k < n) :
    ∃ s', pickTurn options (20 * db.records.length : Nat) (20 * db.records.length / n : Nat) s =
      .inl s' ∧ Picked options db n s' (k + 1) := by
  have hlt := pick_lt (List.length_pos_iff.mpr hne) hk
  have hidx : s.pos - s.pos.tmod PasswordHashAndCount.size =
      (20 * pick (20 * db.records.length) n k : Nat) := by
    have hsize : (PasswordHashAndCount.size : Int) = 20 := rfl
    rw [h.pos, hsize, Int.tmod_eq_emod_of_nonneg (by omega), pick]
    omega
  obtain ⟨input, hread, hcontent, hlive⟩ := readAt_record h.content h.live h.isValid hlt
  have hinside : s.pos < (20 * db.records.length : Nat) ∧ s.i < options.N := by
    rw [h.pos, h.i, hN]
    unfold pick at hlt
    omega
  unfold pickTurn
  rw [if_pos hinside, hidx]
  dsimp only
  rw [hread]
  refine ⟨_, rfl, hk, ?_, ?_, hcontent.trans h.content, hlive, rfl, ?_⟩
  · rw [if_pos rfl]
    dsimp only
    rw [h.pos, ← Nat.cast_add, ← Nat.succ_mul]
  · rw [if_pos rfl]
    dsimp only
    rw [h.i, Nat.cast_succ]
  · rw [if_pos rfl]
    dsimp only
    rw [h.out, picks_succ hlt, List.flatMap_append, List.flatMap_singleton]

/-- After the last pick the loop stops. -/
theorem Picked.stop {s : Picking} (h : Picked options db n s n) (hN : options.N = n)
    (size offset : Int) : pickTurn options size offset s = .inr s.out := by
  unfold pickTurn
  rw [if_neg]
  rintro ⟨-, hlt⟩
  rw [h.i, hN] at hlt
  exact lt_irrefl _ hlt

/-- The loop ends with all picks made. -/
theorem Picked.run (hN : options.N = n) (hne : db.records ≠ []) {start : Picking}
    (h : Picked options db n start 0) :
    Yields (fun fuel => loop (pickTurn options (20 * db.records.length : Nat)
        (20 * db.records.length / n : Nat)) fuel start)
      ((sample db.records n).flatMap fun r => options.write r.phc) := by
  have hgo : ∀ s s', (∃ k, Picked options db n s k) →
      pickTurn options (20 * db.records.length : Nat) (20 * db.records.length / n : Nat) s =
        .inl s' → (∃ k, Picked options db n s' k) ∧ n - s'.i.toNat < n - s.i.toNat := by
    rintro s s' ⟨k, hk⟩ hturn
    rcases hk.le.lt_or_eq with hlt | rfl
    · obtain ⟨t, ht, hnext⟩ := hk.turn hN hne hlt
      rw [ht] at hturn
      obtain rfl := Sum.inl.inj hturn
      refine ⟨⟨k + 1, hnext⟩, ?_⟩
      rw [hk.i, hnext.i]
      omega
    · rw [hk.stop hN] at hturn
      cases hturn
  have hstop : ∀ s out, (∃ k, Picked options db n s k) →
      pickTurn options (20 * db.records.length : Nat) (20 * db.records.length / n : Nat) s =
        .inr out → out = (sample db.records n).flatMap fun r => options.write r.phc := by
    rintro s out ⟨k, hk⟩ hturn
    rcases hk.le.lt_or_eq with hlt | rfl
    · obtain ⟨t, ht, -⟩ := hk.turn hN hne hlt
      rw [ht] at hturn
      cases hturn
    · rw [hk.stop hN] at hturn
      rw [← Sum.inr.inj hturn, hk.out]
      rfl
  obtain ⟨out, hyields, hout⟩ := loop_yields _ _ _ (fun s => n - s.i.toNat) hgo hstop ⟨0, h⟩
  rwa [hout] at hyields

/-- From a file with records the extractor takes exactly `N` of them, at even distances. They are
in order, and without repetition exactly if the file has so many. -/
theorem existing_hashes_are_picked_evenly (hne : db.records ≠ []) (hn : 0 < n) (hN : options.N = n)
    (drawn : Nat → Hash) :
    Yields (main options false drawn db.bytes)
        ((sample db.records n).flatMap fun r => options.write r.phc) ∧
      (sample db.records n).length = n ∧
      (sample db.records n).Pairwise (fun a b => a.key ≤ b.key) ∧
      (∀ r ∈ sample db.records n, r ∈ db.records) ∧
      (StrictlyIncreasing (sample db.records n) ↔ n ≤ db.records.length) := by
  have hlength : db.bytes.length = 20 * db.records.length := encodeAll_length _
  refine ⟨?_, ?_, ?_, sample_subset _ _, sample_increasing_iff hne hn⟩
  · have hpicked : Picked options db n { input := { content := db.bytes } } 0 :=
      ⟨Nat.zero_le _, by simp, rfl, rfl, rfl, rfl, rfl⟩
    have hmain : main options false drawn db.bytes = fun fuel =>
        loop (pickTurn options (20 * db.records.length : Nat) (20 * db.records.length / n : Nat))
          fuel { input := { content := db.bytes } } := by
      funext fuel
      unfold main
      rw [if_neg (by omega), hlength, hN]
      rfl
    rw [hmain]
    exact hpicked.run hN hne
  · rw [sample_eq_ofFn hne, List.length_ofFn]
  · rw [sample_eq_ofFn hne]
    refine List.pairwise_ofFn.mpr fun i j hij => ?_
    rcases (pick_mono hij.le).lt_or_eq with hlt | heq
    · exact (List.pairwise_iff_getElem.mp db.increasing _ _ _ _ hlt).le
    · simp only [heq, le_refl]

def threeHashes : Database := ⟨[⟨0, 1, 1⟩, ⟨0, 2, 5⟩, ⟨7, 0, 2⟩], by decide, by decide⟩

theorem existing_hashes_are_picked_evenly_two :
    Yields (main { N := 2 } false (fun _ => {}) threeHashes.bytes)
        ((sample threeHashes.records 2).flatMap fun r => Options.write { N := 2 } r.phc) ∧
      (sample threeHashes.records 2).length = 2 ∧
      (sample threeHashes.records 2).Pairwise (fun a b => a.key ≤ b.key) ∧
      (∀ r ∈ sample threeHashes.records 2, r ∈ threeHashes.records) ∧
      (StrictlyIncreasing (sample threeHashes.records 2) ↔ 2 ≤ threeHashes.records.length) :=
  existing_hashes_are_picked_evenly (by decide) (by decide) rfl _

/-! ## Hashes that do not exist -/

/-- The drawn hashes of which nothing is found. After a draw behind all records nothing is found
any more. -/
def missing (db : Database) (n : Nat) (drawn : Nat → Hash) : List Hash :=
  (List.range n).filterMap fun i =>
    if stored db.records (drawn i).key = 0 ∨ ∃ j < i, Behind db (drawn j) then some (drawn i)
    else none

theorem missing_succ (db : Database) (n : Nat) (drawn : Nat → Hash) :
    missing db (n + 1) drawn = missing db n drawn ++
      if stored db.records (drawn n).key = 0 ∨ ∃ j < n, Behind db (drawn j) then [drawn n]
      else [] := by
  unfold missing
  rw [List.range_succ, List.filterMap_append, List.filterMap_cons, List.filterMap_nil]
  split_ifs
  · rfl
  · rfl

/-- The state of the loop after `k` draws. -/
structure Missed (options : Options) (db : Database) (drawn : Nat → Hash) (k : Nat)
    (s : PasswordInspector × List UInt8) : Prop where
  serves : Serves s.1 db
  fail : s.1.mInputFile.fail = true ↔ ∃ j < k, Behind db (drawn j)
  out : s.2 = (missing db k drawn).flatMap fun hash => options.write { hash, count := 0 }

theorem Missed.turn {drawn : Nat → Hash} {k : Nat} {s : PasswordInspector × List UInt8}
    (h : Missed options db drawn k s) :
    ∃ s', Yields (fun fuel => missTurn options fuel s (drawn k)) s' ∧
      Missed options db drawn (k + 1) s' := by
  obtain ⟨⟨p, nReads, ins⟩, hyields⟩ := h.serves.binsearch_ends (drawn k)
  obtain ⟨fuel, hfuel⟩ := id hyields
  obtain ⟨hcount, hserves, hfail⟩ := h.serves.binsearch_spec (hfuel fuel le_rfl)
  refine ⟨_, hyields.map _, hserves, ?_, ?_⟩
  · dsimp only at hfail ⊢
    rw [hfail, Bool.or_eq_true, h.fail, decide_eq_true_iff]
    constructor
    · rintro (⟨j, hj, hbehind⟩ | hbehind)
      · exact ⟨j, Nat.lt_succ_of_lt hj, hbehind⟩
      · exact ⟨k, Nat.lt_succ_self k, hbehind⟩
    · rintro ⟨j, hj, hbehind⟩
      rcases Nat.lt_succ_iff_lt_or_eq.mp hj with hlt | rfl
      · exact Or.inl ⟨j, hlt, hbehind⟩
      · exact Or.inr hbehind
  · have hzero : p.count = 0 ↔
        stored db.records (drawn k).key = 0 ∨ ∃ j < k, Behind db (drawn j) := by
      dsimp only at hcount
      rw [hcount, ← h.fail]
      split_ifs with hf
      · simp [hf]
      · simp [hf]
    dsimp only
    rw [h.out, missing_succ, List.flatMap_append]
    congr 1
    split_ifs with hp hmiss hmiss
    · obtain ⟨hash, count⟩ := p
      dsimp only at hp ⊢
      rw [hp, List.flatMap_singleton]
    · exact absurd (hzero.mp hp) hmiss
    · exact absurd (hzero.mpr hmiss) hp
    · rfl

theorem missed_run (options : Options) (db : Database) (drawn : Nat → Hash) (k : Nat) :
    ∃ s, Yields (fun fuel => ((List.range k).map drawn).foldlM (missTurn options fuel)
      (openFile db.bytes, [])) s ∧ Missed options db drawn k s := by
  induction k with
  | zero =>
    refine ⟨_, Yields.of_eq fun _ => rfl, serves_openFile db, ?_, rfl⟩
    exact iff_of_false Bool.false_ne_true (by simp)
  | succ k ih =>
    obtain ⟨s, hyields, hmissed⟩ := ih
    obtain ⟨s', hturn, hnext⟩ := hmissed.turn
    refine ⟨s', ?_, hnext⟩
    have hlist : (List.range (k + 1)).map drawn = (List.range k).map drawn ++ [drawn k] := by
      rw [List.range_succ, List.map_append, List.map_singleton]
    simp only [hlist, List.foldlM_append, List.foldlM_cons, List.foldlM_nil, bind_pure]
    exact hyields.bind (fun s fuel => missTurn options fuel s (drawn k)) hturn

/-- The extractor writes the drawn hashes of which nothing is stored, and all others that are
drawn after one behind all records. So what it writes does not exist exactly if none of those
does. -/
theorem missing_hashes_are_written_iff (options : Options) (hN : options.N = n) (hn : 0 < n)
    (db : Database) (drawn : Nat → Hash) :
    Yields (main options true drawn db.bytes)
        ((missing db n drawn).flatMap fun hash => options.write { hash, count := 0 }) ∧
      ((∀ hash ∈ missing db n drawn, stored db.records hash.key = 0) ↔
        ∀ i < n, (∃ j < i, Behind db (drawn j)) → stored db.records (drawn i).key = 0) := by
  constructor
  · obtain ⟨s, hyields, hmissed⟩ := missed_run options db drawn n
    have hmain : main options true drawn db.bytes = fun fuel =>
        (((List.range n).map drawn).foldlM (missTurn options fuel)
          (openFile db.bytes, [])).map Prod.snd := by
      funext fuel
      unfold main
      rw [if_neg (by omega), hN]
      rfl
    rw [hmain, ← hmissed.out]
    exact hyields.map Prod.snd
  · have hmem : ∀ hash, hash ∈ missing db n drawn ↔ ∃ i < n,
        (stored db.records (drawn i).key = 0 ∨ ∃ j < i, Behind db (drawn j)) ∧ drawn i = hash := by
      intro hash
      unfold missing
      simp only [List.mem_filterMap, List.mem_range, Option.ite_none_right_eq_some,
        Option.some.injEq]
    constructor
    · intro hall i hi hbehind
      exact hall _ ((hmem _).mpr ⟨i, hi, Or.inr hbehind, rfl⟩)
    · intro hall hash hhash
      obtain ⟨i, hi, hzero | hbehind, rfl⟩ := (hmem hash).mp hhash
      · exact hzero
      · exact hall i hi hbehind

/-- The second hash is drawn behind all records, so the third is written although it is stored. -/
def lastThenFirst (i : Nat) : Hash := if i = 1 then { upper := 8 } else { lower := 1 }

theorem missing_hashes_are_written_iff_three :
    Yields (main { N := 3 } true lastThenFirst threeHashes.bytes)
        ((missing threeHashes 3 lastThenFirst).flatMap fun hash =>
          Options.write { N := 3 } { hash, count := 0 }) ∧
      ((∀ hash ∈ missing threeHashes 3 lastThenFirst, stored threeHashes.records hash.key = 0) ↔
        ∀ i < 3, (∃ j < i, Behind threeHashes (lastThenFirst j)) →
          stored threeHashes.records (lastThenFirst i).key = 0) :=
  missing_hashes_are_written_iff { N := 3 } rfl (by decide) threeHashes lastThenFirst

end pwned.TestSet
