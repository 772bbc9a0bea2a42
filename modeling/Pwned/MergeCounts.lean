-- What a merge makes of the counts. The entry on top of the first queue is taken
-- twice, and so is the last entry of every input but the one that is left in the
-- end.
import Pwned.MergeResult

open pwned

namespace merger

/-- The records of all source files. -/
def allRecords (files : List SourceFile) : List Record := files.flatMap SourceFile.records

/-- The records that are taken a second time where the merge starts with the file `i` and the
file `j` is the last one in the queue. -/
def takenTwice (files : List SourceFile) (i j : Fin files.length) : List Record :=
  files[i].first :: (files.eraseIdx j).map SourceFile.last

/-- A merge can start with the file `i` and end with the file `j`. An input on top stays there
until it has been taken off, so with one record everywhere the first one is not the last. -/
structure StartsAndEnds (files : List SourceFile) (i j : Fin files.length) : Prop where
  first_least : ∀ src ∈ files, files[i].first.key ≤ src.first.key
  last_greatest : ∀ src ∈ files, src.last.key ≤ files[j].last.key
  apart : i = j → files.length = 1 ∨ files[i].first.key < files[j].last.key

/-! ## First and last records -/

theorem StrictlyIncreasing.le_getLastD {r : Record} {rs : List Record}
    (h : StrictlyIncreasing (r :: rs)) (d : Record) : r.key ≤ ((r :: rs).getLastD d).key := by
  rw [List.getLastD_cons]
  rcases List.mem_cons.mp (List.getLastD_mem_cons (l := rs) (a := r)) with he | hmem
  · rw [he]
  · exact ((List.pairwise_cons.mp h).1 _ hmem).le

namespace SourceFile

theorem first_mem (src : SourceFile) : src.first ∈ src.records := List.head_mem src.nonempty

theorem last_mem (src : SourceFile) : src.last ∈ src.records := List.getLast_mem src.nonempty

/-- A file whose first hash is its last has one record. -/
theorem length_eq_one {src : SourceFile} (h : src.last.key ≤ src.first.key) :
    src.records.length = 1 := by
  obtain ⟨records, hne, hinc⟩ := src
  cases records with
  | nil => exact absurd rfl hne
  | cons r rs =>
    cases rs with
    | nil => rfl
    | cons q rs =>
      have hlt := (List.pairwise_cons.mp hinc).1 ((q :: rs).getLast (by simp)) (by simp)
      simp only [last, first, List.head_cons, List.getLast_cons_cons] at h
      exact absurd h hlt.not_ge

end SourceFile

variable {Path : Type} {srcFiles : List Path} {files : List SourceFile}

theorem Opened.last {m : MergerInput Path} {src : SourceFile × Nat} (h : Opened srcFiles m src) :
    m.last = src.1.last := by
  rw [MergerInput.last, h.pending, List.getLastD_eq_getLast?,
    List.getLast?_eq_some_getLast src.1.nonempty]
  rfl

/-! ## What the turns keep of the counts -/

/-- The counts so far and the counts that the queue still owes make up those of the sources, with
the entry that the merge started with and the last entries of all inputs. -/
structure Counted (files : List SourceFile) (i : Fin files.length) (R : List Record)
    (m : MergerInput Path) (c : List (MergerInput Path)) : Prop where
  tallies : ∀ k, tally R k + ((m :: c).map (MergerInput.owed k)).sum ≡
    tally (allRecords files) k + tally (files[i].first :: files.map SourceFile.last) k [MOD 2 ^ 32]
  known : ∀ n ∈ m :: c, ∃ src, files[n.addr]? = some src ∧ n.last = src.last
  nodup : ((m :: c).map (·.addr)).Nodup
  firstGoes : (∀ src ∈ files, src.records.length = 1) → files.length ≠ 1 →
    (m.addr = i ∧ c ≠ [] ∧ m.pending.length ≤ 1) ∨ (i : Nat) ∉ (m :: c).map (·.addr)

variable {Q : PriorityQueue (@MergerInput.key Path)} {R R' : List Record}
  {m m' : MergerInput Path} {c c' : List (MergerInput Path)} {i j : Fin files.length}

theorem Moves.addr_mem (h : Moves m c (m' :: c')) {a : Nat}
    (ha : a ∈ (m' :: c').map (·.addr)) : a ∈ (m :: c).map (·.addr) := by
  have hmem := h.addrs.mem_iff.mp ha
  split at hmem
  · exact hmem
  · exact List.mem_cons_of_mem _ hmem

theorem Counted.go (h : Counted files i R m c) (hmoves : Moves m c (m' :: c'))
    (htally : ∀ k, tally R' k ≡ tally R k + tally [m.phc.record] k [MOD 2 ^ 32]) :
    Counted files i R' m' c' := by
  refine ⟨fun k => ?_, ?_, ?_, ?_⟩
  · have howed := hmoves.owed k
    calc tally R' k + ((m' :: c').map (MergerInput.owed k)).sum
        ≡ tally R k + tally [m.phc.record] k + ((m' :: c').map (MergerInput.owed k)).sum
          [MOD 2 ^ 32] := (htally k).add_right _
      _ = tally R k + ((m :: c).map (MergerInput.owed k)).sum := by rw [← howed]; ring
      _ ≡ _ [MOD 2 ^ 32] := h.tallies k
  · intro n hn
    obtain ⟨o, ho, haddr, -, hlast⟩ := hmoves.inputs n hn
    rw [haddr, hlast]
    exact h.known o ho
  · rw [hmoves.addrs.nodup_iff]
    split
    · exact h.nodup
    · exact (List.nodup_cons.mp h.nodup).2
  · intro hsingle hlen
    rcases h.firstGoes hsingle hlen with ⟨haddr, hc, hpending⟩ | hgone
    · rcases Nat.le_one_iff_eq_zero_or_eq_one.mp hpending with hzero | hone
      · -- the first input is exhausted, and this turn takes it off
        right
        have hv : m.isValid = false := by
          cases hv : m.isValid with
          | false => rfl
          | true =>
            have hmem := MergerInput.key_mem_pending hv
            rw [List.length_eq_zero_iff.mp hzero] at hmem
            cases hmem
        have hnot : m.addr ∉ c.map (·.addr) := (List.nodup_cons.mp h.nodup).1
        rw [haddr] at hnot
        rw [hmoves.addrs.mem_iff, hv]
        exact hnot
      · -- its one record is taken, and it stays on top
        left
        obtain ⟨m'', hpq, haddr'⟩ := hmoves.stays hone
        obtain ⟨rfl, rfl⟩ := List.cons.inj hpq
        have hload := hmoves.load
        simp only [List.map_cons, List.sum_cons, MergerInput.load] at hload
        exact ⟨haddr'.trans haddr, hc, by omega⟩
    · exact Or.inr (mt hmoves.addr_mem hgone)

theorem tally_map {α : Type*} (f : α → Record) (l : List α) (k : Nat) :
    tally (l.map f) k = (l.map fun a => tally [f a] k).sum := by
  rw [List.map_eq_flatMap, tally_flatMap]

theorem sum_owed {inputs : List (MergerInput Path)}
    (h : List.Forall₂ (Opened srcFiles) inputs files.zipIdx) (k : Nat) :
    (inputs.map (MergerInput.owed k)).sum =
      tally (allRecords files) k + tally (files.map SourceFile.last) k := by
  have howed : inputs.map (MergerInput.owed k) =
      files.map fun src => tally src.records k + tally [src.last] k := by
    have hzip : files.zipIdx.map (fun src => tally src.1.records k + tally [src.1.last] k) =
        (files.zipIdx.map Prod.fst).map fun src => tally src.records k + tally [src.last] k := by
      rw [List.map_map]
      rfl
    rw [map_eq_of_forall₂ (fun n src ho => by rw [MergerInput.owed, ho.pending, ho.last]) h, hzip,
      List.zipIdx_map_fst]
  rw [howed, List.sum_map_add, allRecords, tally_flatMap, tally_map]

/-- The first queue, with one input for every file. -/
structure Started (srcFiles : List Path) (files : List SourceFile) (m : MergerInput Path)
    (c : List (MergerInput Path)) : Prop where
  opened : ∀ n ∈ m :: c, ∃ src, files[n.addr]? = some src ∧ Opened srcFiles n (src, n.addr)
  addrs : ((m :: c).map (·.addr)).Perm (List.range files.length)
  owed : ∀ k, ((m :: c).map (MergerInput.owed k)).sum =
    tally (allRecords files) k + tally (files.map SourceFile.last) k

theorem started_of_inputs {inputs : List (MergerInput Path)} (hperm : (m :: c).Perm inputs)
    (hinputs : List.Forall₂ (Opened srcFiles) inputs files.zipIdx) :
    Started srcFiles files m c := by
  refine ⟨?_, ?_, fun k => ?_⟩
  · intro n hn
    obtain ⟨⟨src, a⟩, hmem, ho⟩ := exists_of_forall₂ hinputs (hperm.mem_iff.mp hn)
    obtain rfl : n.addr = a := ho.addr
    exact ⟨src, List.mem_zipIdx_iff_getElem?.mp hmem, ho⟩
  · have hinputs' : inputs.map (·.addr) = files.zipIdx.map Prod.snd :=
      map_eq_of_forall₂ (fun _ _ ho => ho.addr) hinputs
    rw [List.zipIdx_map_snd, ← List.range_eq_range'] at hinputs'
    exact hinputs' ▸ hperm.map _
  · rw [(hperm.map _).sum_eq, sum_owed hinputs]

/-- Every file has an input, which holds the first record. -/
theorem Started.exists_input (h : Started srcFiles files m c) {a : Nat} (ha : a < files.length) :
    ∃ n ∈ m :: c, n.addr = a ∧ n.key = files[a].first.key := by
  have hmem := h.addrs.mem_iff.mpr (List.mem_range.mpr ha)
  obtain ⟨n, hn, rfl⟩ := List.mem_map.mp hmem
  obtain ⟨src, hsrc, ho⟩ := h.opened n hn
  obtain ⟨hlt, rfl⟩ := List.getElem?_eq_some_iff.mp hsrc
  refine ⟨n, hn, rfl, ?_⟩
  rw [MergerInput.key, ho.phc, Record.phc_hash_key]

/-- The top was opened on a file whose first hash is the least. -/
theorem Started.counted (h : Started srcFiles files m c) (hq : Queue Q m c) :
    ∃ i : Fin files.length, m.addr = i ∧
      (∀ src ∈ files, files[i].first.key ≤ src.first.key) ∧
      Counted files i [m.phc.record] m c := by
  obtain ⟨src, hsrc, ho⟩ := h.opened m (by simp)
  obtain ⟨hlt, rfl⟩ := List.getElem?_eq_some_iff.mp hsrc
  have hkey : m.key = files[m.addr].first.key := by
    rw [MergerInput.key, ho.phc, Record.phc_hash_key]
  refine ⟨⟨m.addr, hlt⟩, rfl, ?_, ?_, ?_, ?_, ?_⟩
  · intro src hsrc
    obtain ⟨a, ha, rfl⟩ := List.getElem_of_mem hsrc
    obtain ⟨n, hn, -, hkey'⟩ := h.exists_input ha
    have hle : m.key ≤ n.key := by
      rcases List.mem_cons.mp hn with rfl | hn
      · exact le_rfl
      · exact hq.top_le n hn
    exact hkey.symm.trans_le (hle.trans_eq hkey')
  · intro k
    have hrecord : m.phc.record = files[m.addr].first := by rw [ho.phc, Record.record_phc]
    have heq : tally [files[m.addr].first] k +
        (tally (allRecords files) k + tally (files.map SourceFile.last) k) =
        tally (allRecords files) k +
          tally (files[m.addr].first :: files.map SourceFile.last) k := by
      simp only [tally_cons, tally_nil]
      omega
    rw [h.owed, hrecord]
    exact heq ▸ Nat.ModEq.refl _
  · intro n hn
    obtain ⟨src, hsrc, ho⟩ := h.opened n hn
    exact ⟨src, hsrc, ho.last⟩
  · exact h.addrs.nodup_iff.mpr List.nodup_range
  · intro hsingle hlen
    left
    refine ⟨rfl, ?_, ?_⟩
    · rintro rfl
      have hlength := h.addrs.length_eq
      simp only [List.map_cons, List.map_nil, List.length_singleton, List.length_range] at hlength
      exact hlen hlength.symm
    · rw [ho.pending]
      exact (hsingle _ (List.getElem_mem hlt)).le

/-- The last queue, of one exhausted input. -/
theorem Counted.stop (h : Counted files i R m []) (hv : m.isValid = false)
    (hhashes : ∀ k, InSources files k ↔ k ∈ keys R) (hmax : ∀ k ∈ keys R, k ≤ m.key)
    (hfirst : ∀ src ∈ files, files[i].first.key ≤ src.first.key) :
    ∃ j : Fin files.length, m.addr = j ∧ StartsAndEnds files i j ∧
      ∀ k, tally R k ≡ tally (allRecords files) k + tally (takenTwice files i j) k
        [MOD 2 ^ 32] := by
  obtain ⟨src, hsrc, hlast⟩ := h.known m (by simp)
  obtain ⟨hlt, rfl⟩ := List.getElem?_eq_some_iff.mp hsrc
  have hpending := MergerInput.pending_of_not_valid hv
  have hkey : files[m.addr].last.key = m.key := by
    rw [← hlast, MergerInput.last, hpending]
    rfl
  have hgreatest : ∀ src ∈ files, src.last.key ≤ files[m.addr].last.key := by
    intro src hsrc
    rw [hkey]
    apply hmax
    exact (hhashes _).mp ⟨src, hsrc, mem_keys.mpr ⟨_, src.last_mem, rfl⟩⟩
  refine ⟨⟨m.addr, hlt⟩, rfl, ⟨hfirst, hgreatest, ?_⟩, ?_⟩
  · intro hij
    by_contra hnot
    obtain ⟨hlen, hle⟩ := not_or.mp hnot
    have hsingle : ∀ src ∈ files, src.records.length = 1 := fun src hsrc =>
      SourceFile.length_eq_one
        ((hgreatest src hsrc).trans ((not_lt.mp hle).trans (hfirst src hsrc)))
    rcases h.firstGoes hsingle hlen with ⟨-, hc, -⟩ | hgone
    · exact hc rfl
    · simp [hij] at hgone
  · intro k
    have hperm := (List.getElem_cons_eraseIdx_perm hlt).map SourceFile.last
    have htaken : takenTwice files i ⟨m.addr, hlt⟩ =
        files[i].first :: (files.eraseIdx m.addr).map SourceFile.last := rfl
    have htwice : tally (files[i].first :: files.map SourceFile.last) k =
        tally (takenTwice files i ⟨m.addr, hlt⟩) k + tally [files[m.addr].last] k := by
      rw [tally_cons, ← tally_perm hperm k, List.map_cons, tally_cons, htaken, tally_cons,
        tally_cons, tally_nil]
      omega
    have howed : ([m].map (MergerInput.owed k)).sum = tally [files[m.addr].last] k := by
      rw [List.map_singleton, List.sum_singleton, MergerInput.owed, hpending, hlast, tally_nil,
        Nat.zero_add]
    have htallies := h.tallies k
    rw [howed, htwice, ← Nat.add_assoc] at htallies
    exact Nat.ModEq.add_right_cancel' _ htallies

/-! ## A queue for every start and end -/

/-- Inputs with one hash: the file `j` at its last record comes behind all others, and the file
`i` comes before the rest. -/
def tie (files : List SourceFile) (i j : Fin files.length) (m : MergerInput Path) : Nat :=
  if m.key = files[j].last.key ∧ m.addr = j then 2 else if m.addr = i then 0 else 1

theorem key_le_of_rank_le (f : MergerInput Path → Nat) (m n : MergerInput Path)
    (h : toLex (m.key, f m) ≤ toLex (n.key, f n)) : m.key ≤ n.key := by
  rcases Prod.Lex.toLex_le_toLex.mp h with hlt | ⟨heq, -⟩
  · exact hlt.le
  · exact heq.le

/-- The queue that is sorted by hash, and breaks ties by `tie`. -/
def choosing (files : List SourceFile) (i j : Fin files.length) :
    PriorityQueue (@MergerInput.key Path) :=
  PriorityQueue.sorted (fun m => toLex (m.key, tie files i j m)) (key_le_of_rank_le _)

/-- The top of the queue has the least tie of the inputs with its hash. -/
theorem tie_le (hq : Queue (choosing files i j) m c) {n : MergerInput Path} (hn : n ∈ c)
    (hkey : n.key ≤ m.key) : tie files i j m ≤ tie files i j n := by
  obtain ⟨m₀, hphc, haddr, hheap⟩ := hq.heap
  have hkey₀ : m₀.key = m.key := by simp only [MergerInput.key, hphc]
  have htie : tie files i j m₀ = tie files i j m := by simp only [tie, hkey₀, haddr]
  have hle := PriorityQueue.sorted_top_le hheap n hn
  rw [hkey₀, htie] at hle
  rcases Prod.Lex.toLex_le_toLex.mp hle with hlt | ⟨-, hle⟩
  · exact absurd hkey hlt.not_ge
  · exact hle

/-- The first queue has the file `i` on top. -/
theorem Started.top_addr (hstart : Started srcFiles files m c) (h : StartsAndEnds files i j)
    (hq : Queue (choosing files i j) m c) : m.addr = i := by
  obtain ⟨n, hn, haddr, hkey⟩ := hstart.exists_input i.isLt
  obtain ⟨src, hsrc, ho⟩ := hstart.opened m (by simp)
  obtain ⟨hlt, rfl⟩ := List.getElem?_eq_some_iff.mp hsrc
  have hmkey : m.key = files[m.addr].first.key := by
    rw [MergerInput.key, ho.phc, Record.phc_hash_key]
  rcases List.mem_cons.mp hn with rfl | hn
  · exact haddr
  · have hle : n.key ≤ m.key := by
      rw [hkey, hmkey]
      exact h.first_least _ (List.getElem_mem hlt)
    have htie := tie_le hq hn hle
    by_cases hlast : n.key = files[j].last.key ∧ n.addr = j
    · -- all hashes are one, so there is one file
      have hij : i = j := Fin.ext (haddr.symm.trans hlast.2)
      have hlen : files.length = 1 := by
        rcases h.apart hij with hlen | hlt
        · exact hlen
        · exact absurd (hkey.symm.trans hlast.1) hlt.ne
      have hi := i.isLt
      omega
    · unfold tie at htie
      rw [if_neg hlast, if_pos haddr] at htie
      split at htie
      · omega
      · split at htie
        · assumption
        · omega

theorem MergerInput.Sound.key_le_last (h : m.Sound) (hv : m.isValid = true) :
    m.key ≤ m.last.key := by
  have hinc := h.increasing
  rw [MergerInput.pending, if_pos hv] at hinc
  rw [MergerInput.last, MergerInput.pending, if_pos hv]
  exact StrictlyIncreasing.le_getLastD hinc _

/-- The file `j` is not taken off while others are in the queue. -/
theorem last_stays (h : StartsAndEnds files i j) (hq : Queue (choosing files i j) m c)
    (hcounted : Counted files i R m c) (hj : (j : Nat) ∈ (m :: c).map (·.addr))
    (hmoves : Moves m c (m' :: c')) : (j : Nat) ∈ (m' :: c').map (·.addr) := by
  rw [hmoves.addrs.mem_iff]
  cases hv : m.isValid with
  | true => exact hj
  | false =>
    rcases List.mem_cons.mp hj with haddr | hj
    · exfalso
      have hne : c ≠ [] := by
        rintro rfl
        have hlen := hmoves.addrs.length_eq
        rw [hv] at hlen
        cases hlen
      obtain ⟨n, rest, rfl⟩ := List.exists_cons_of_ne_nil hne
      have hmlast : m.key = files[j].last.key := by
        obtain ⟨src, hsrc, hlast⟩ := hcounted.known m (by simp)
        have hsrc' : files[(j : Nat)]? = some src := haddr ▸ hsrc
        obtain ⟨hlt, rfl⟩ := List.getElem?_eq_some_iff.mp hsrc'
        have hkey : m.last.key = m.key := by
          rw [MergerInput.last, MergerInput.pending_of_not_valid hv]
          rfl
        rw [← hkey, hlast]
        rfl
      have hnkey : n.key ≤ m.key := by
        obtain ⟨src, hsrc, hlast⟩ := hcounted.known n (by simp)
        have hle := (hq.sound n (by simp)).key_le_last (hq.live n (by simp))
        rw [hmlast]
        exact hle.trans (hlast ▸ h.last_greatest src (List.mem_of_getElem? hsrc))
      -- at its last record the file `j` is on top only where all others are at that record too
      have htie := tie_le hq (List.mem_cons_self ..) hnkey
      have hnodup := (List.nodup_cons.mp hcounted.nodup).1
      unfold tie at htie
      rw [if_pos ⟨hmlast, haddr.symm⟩] at htie
      split at htie
      · rename_i hlast
        simp [← haddr, hlast.2] at hnodup
      · split at htie <;> omega
    · exact hj

/-! ## The counts of a whole merge -/

section Counts

variable [DecidableEq Path] {fs : FileSystem Path} {dst : Path}

/-- The counts in the destination are the sums over the sources, with the counts of the records
that are taken twice, in 32 bits. -/
theorem Sources.counts (Q : PriorityQueue (@MergerInput.key Path))
    (h : Sources fs srcFiles files dst) (keeps : Bool)
    (progressed : Option (List (BitVec 64))) :
    ∃ d fs' calls out, MergeOperation.create Q fs srcFiles dst keeps = some d ∧
      Yields (fun fuel => execute Q fuel d fs progressed) (.ok (fs', calls)) ∧
      Merged fs (InSources files) dst keeps fs' out ∧
      ∃ i j, StartsAndEnds files i j ∧ ∀ k, tally out k ≡
        tally (allRecords files) k + tally (takenTwice files i j) k [MOD 2 ^ 32] := by
  obtain ⟨d, fs', calls, out, m, hcreate, hy, hmerged, hv, hmax, i, hfirst, hcounted⟩ :=
    h.runs (Q := Q) keeps progressed
      (J := fun R m c => ∃ i : Fin files.length,
        (∀ src ∈ files, files[i].first.key ≤ src.first.key) ∧ Counted files i R m c)
      (fun _ hJ hmoves htally => hJ.imp fun _ h => ⟨h.1, h.2.go hmoves htally⟩)
      (fun hq hperm hinputs =>
        ((started_of_inputs hperm hinputs).counted hq).imp fun _ h => h.2)
  obtain ⟨j, -, hse, htally⟩ := hcounted.stop hv hmerged.hashes hmax hfirst
  exact ⟨d, fs', calls, out, hcreate, hy, hmerged, i, j, hse, htally⟩

/-- Every start and end can happen. -/
theorem Sources.counts_choosing (h : Sources fs srcFiles files dst) (keeps : Bool)
    (progressed : Option (List (BitVec 64))) (hij : StartsAndEnds files i j) :
    ∃ d fs' calls out, MergeOperation.create (choosing files i j) fs srcFiles dst keeps = some d ∧
      Yields (fun fuel => execute (choosing files i j) fuel d fs progressed) (.ok (fs', calls)) ∧
      Merged fs (InSources files) dst keeps fs' out ∧ ∀ k, tally out k ≡
        tally (allRecords files) k + tally (takenTwice files i j) k [MOD 2 ^ 32] := by
  obtain ⟨d, fs', calls, out, m, hcreate, hy, hmerged, hv, hmax, hcounted, hmem⟩ :=
    h.runs (Q := choosing files i j) keeps progressed
      (J := fun R m c => Counted files i R m c ∧ (j : Nat) ∈ (m :: c).map (·.addr))
      (fun hq hJ hmoves htally =>
        ⟨hJ.1.go hmoves htally, last_stays hij hq hJ.1 hJ.2 hmoves⟩)
      (fun hq hperm hinputs => by
        have hstart := started_of_inputs hperm hinputs
        obtain ⟨i', haddr, -, hcounted⟩ := hstart.counted hq
        obtain rfl : i' = i := Fin.ext (haddr.symm.trans (hstart.top_addr hij hq))
        exact ⟨hcounted, hstart.addrs.mem_iff.mpr (List.mem_range.mpr j.isLt)⟩)
  obtain ⟨j', haddr, -, htally⟩ := hcounted.stop hv hmerged.hashes hmax hij.first_least
  obtain rfl : j = j' := Fin.ext (by simpa [haddr] using hmem)
  exact ⟨d, fs', calls, out, hcreate, hy, hmerged, htally⟩

/-- The merge writes every hash of the sources with the sum of its counts, and the counts in the
destination have the sum of all counts in the sources. -/
def Conserves (Q : PriorityQueue (@MergerInput.key Path)) (fs : FileSystem Path)
    (srcFiles : List Path) (files : List SourceFile) (dst : Path) (keeps : Bool)
    (progressed : Option (List (BitVec 64))) : Prop :=
  ∃ d fs' calls out, MergeOperation.create Q fs srcFiles dst keeps = some d ∧
    Yields (fun fuel => execute Q fuel d fs progressed) (.ok (fs', calls)) ∧
    fs'.files dst = some (encodeAll out) ∧
    (∀ k ∈ keys (allRecords files),
      ∃ r ∈ out, r.key = k ∧ r.count.toNat = tally (allRecords files) k) ∧
    (out.map fun r => r.count.toNat).sum = ((allRecords files).map fun r => r.count.toNat).sum

theorem inSources_iff_mem {k : Nat} : InSources files k ↔ k ∈ keys (allRecords files) := by
  simp only [InSources, mem_keys, allRecords, List.mem_flatMap]
  constructor
  · rintro ⟨src, hsrc, r, hr, hk⟩
    exact ⟨r, ⟨src, hsrc, hr⟩, hk⟩
  · rintro ⟨r, ⟨src, hsrc, hr⟩, hk⟩
    exact ⟨src, hsrc, r, hr, hk⟩

theorem takenTwice_subset (i j : Fin files.length) :
    ∀ r ∈ takenTwice files i j, r ∈ allRecords files := by
  intro r hr
  rcases List.mem_cons.mp hr with rfl | hr
  · exact List.mem_flatMap.mpr ⟨_, List.getElem_mem i.isLt, SourceFile.first_mem _⟩
  · obtain ⟨src, hsrc, rfl⟩ := List.mem_map.mp hr
    exact List.mem_flatMap.mpr ⟨src, List.mem_of_mem_eraseIdx hsrc, src.last_mem⟩

theorem conserves_iff {Q : PriorityQueue (@MergerInput.key Path)} {d : MergeOperation Path}
    {fs' : FileSystem Path} {calls progressed : Option (List (BitVec 64))} {out : List Record}
    {keeps : Bool} (hcreate : MergeOperation.create Q fs srcFiles dst keeps = some d)
    (hy : Yields (fun fuel => execute Q fuel d fs progressed) (.ok (fs', calls)))
    (hmerged : Merged fs (InSources files) dst keeps fs' out) :
    Conserves Q fs srcFiles files dst keeps progressed ↔
      ∀ k ∈ keys (allRecords files), tally out k = tally (allRecords files) k := by
  constructor
  · rintro ⟨d', fs'', calls', out', hcreate', hy', hwritten, hcounts, -⟩ k hk
    obtain rfl : d = d' := Option.some.inj (hcreate.symm.trans hcreate')
    have hfs := hy.unique hy'
    simp only [Except.ok.injEq, Prod.mk.injEq] at hfs
    obtain ⟨rfl, -⟩ := hfs
    obtain rfl : out = out' :=
      encodeAll_injective (Option.some.inj (hmerged.written.symm.trans hwritten))
    obtain ⟨r, hr, rfl, hcount⟩ := hcounts k hk
    rw [hmerged.increasing.tally_eq hr, hcount]
  · intro htally
    refine ⟨d, fs', calls, out, hcreate, hy, hmerged.written, fun k hk => ?_, ?_⟩
    · obtain ⟨r, hr, rfl⟩ :=
        mem_keys.mp ((hmerged.hashes k).mp (inSources_iff_mem.mpr hk))
      exact ⟨r, hr, rfl, by rw [← htally _ hk, hmerged.increasing.tally_eq hr]⟩
    · have hout : ∀ r ∈ out, r.key ∈ (keys (allRecords files)).toFinset := by
        intro r hr
        have hsource := (hmerged.hashes r.key).mpr (mem_keys.mpr ⟨r, hr, rfl⟩)
        exact List.mem_toFinset.mpr (inSources_iff_mem.mp hsource)
      have hall : ∀ r ∈ allRecords files, r.key ∈ (keys (allRecords files)).toFinset := by
        intro r hr
        exact List.mem_toFinset.mpr (mem_keys.mpr ⟨r, hr, rfl⟩)
      rw [← sum_tally _ hout, ← sum_tally _ hall]
      exact Finset.sum_congr rfl fun k hk => htally k (List.mem_toFinset.mp hk)

/-- A merge conserves the counts, whichever of the inputs with one hash its queue puts first,
exactly if the counts of the records that are taken twice vanish in 32 bits. -/
theorem a_merge_conserves_the_counts_iff (h : Sources fs srcFiles files dst)
    (hsum : ∀ k, tally (allRecords files) k < 2 ^ 32) (keeps : Bool)
    (progressed : Option (List (BitVec 64))) :
    (∀ Q, Conserves Q fs srcFiles files dst keeps progressed) ↔
      ∀ i j, StartsAndEnds files i j → ∀ k, 2 ^ 32 ∣ tally (takenTwice files i j) k := by
  constructor
  · intro hconserves i j hij k
    obtain ⟨d, fs', calls, out, hcreate, hy, hmerged, htally⟩ :=
      h.counts_choosing keeps progressed hij
    by_cases hk : k ∈ keys (allRecords files)
    · have hexact := (conserves_iff hcreate hy hmerged).mp (hconserves _) k hk
      have hmod := htally k
      unfold Nat.ModEq at hmod
      omega
    · have hzero : tally (takenTwice files i j) k = 0 := by
        apply tally_eq_zero
        rintro r hr rfl
        exact hk (mem_keys.mpr ⟨r, takenTwice_subset i j r hr, rfl⟩)
      rw [hzero]
      exact Nat.dvd_zero _
  · intro htwice Q
    obtain ⟨d, fs', calls, out, hcreate, hy, hmerged, i, j, hij, htally⟩ :=
      h.counts Q keeps progressed
    rw [conserves_iff hcreate hy hmerged]
    intro k hk
    obtain ⟨r, hr, rfl⟩ := mem_keys.mp ((hmerged.hashes k).mp (inSources_iff_mem.mpr hk))
    have hcount := hmerged.increasing.tally_eq hr
    have hlt := r.count.isLt
    have hall := hsum r.key
    have hmod := htally r.key
    have hdvd := htwice i j hij r.key
    unfold Nat.ModEq at hmod
    omega

end Counts

/-- Two files that share a hash. The counts at their ends are 0. -/
def zeroEnds : List SourceFile :=
  [⟨[⟨0, 1, 0⟩, ⟨0, 5, 3⟩, ⟨0, 9, 0⟩], by decide, by decide⟩,
    ⟨[⟨0, 2, 0⟩, ⟨0, 5, 4⟩, ⟨0, 8, 0⟩], by decide, by decide⟩]

theorem a_merge_conserves_the_counts_iff_zeroEnds :
    Conserves byHash (disk zeroEnds) [0, 1] zeroEnds 2 false none := by
  have hsum : ∀ k, tally (allRecords zeroEnds) k < 2 ^ 32 := fun k =>
    (tally_le _ k).trans_lt (by decide)
  have hzero : ∀ i j, ((takenTwice zeroEnds i j).map fun r => r.count.toNat).sum = 0 := by decide
  have hiff := a_merge_conserves_the_counts_iff (sources_disk (by decide)) hsum false none
  refine hiff.mpr (fun i j _ k => ?_) byHash
  rw [Nat.le_zero.mp ((tally_le _ k).trans_eq (hzero i j))]
  exact Nat.dvd_zero _

/-- A file of one record. -/
def single : List SourceFile := [⟨[⟨0, 5, 1⟩], by decide, by decide⟩]

/-- The merge of one file of one record doubles its count. -/
theorem the_merge_of_a_single_record_doubles_its_count :
    ¬ Conserves byHash (disk single) [0] single 1 false none := by
  intro hconserves
  obtain ⟨d, fs', calls, out, hcreate, hy, hmerged, i, j, -, htally⟩ :=
    (sources_disk (by decide : single ≠ [])).counts byHash false none
  have hkey : (⟨0, 5, 1⟩ : Record).key ∈ keys (allRecords single) := by decide
  have hexact := (conserves_iff hcreate hy hmerged).mp hconserves _ hkey
  have hmod := htally (⟨0, 5, 1⟩ : Record).key
  have hone : tally (allRecords single) (⟨0, 5, 1⟩ : Record).key = 1 := by decide
  have htwice : ∀ i j, tally (takenTwice single i j) (⟨0, 5, 1⟩ : Record).key = 1 := by decide
  rw [hexact, hone, htwice] at hmod
  exact absurd hmod (by decide)

end merger
