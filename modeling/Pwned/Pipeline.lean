-- From lists of passwords to an answer: the files are converted at once, the
-- chunks are merged in rounds, and a lookup counts the lines that give a hash.
import Pwned.ConverterProgram
import Pwned.HttpWorker
import Pwned.RoundCounts

namespace pwned

namespace Pipeline

open ConvertOperation ConvertThreads PasswordInspector webservice

open merger (SourceFile Settings Rounds Job SortedBySize mergeRounds cleanUp allRecords InSources
  passes MergerInput)

variable {n : Nat} {md5 : List UInt8 → Vector UInt8 16} {d : Fin n → ConvertOperation}
  {fs₀ : FileSystem Path} {s : Threads (Fin n)}

/-! ## The chunks of all conversions -/

/-- In how many lines of all files the hash with this key is found. -/
def linesGiving (md5 : List UInt8 → Vector UInt8 16) (d : Fin n → ConvertOperation) (k : Nat) :
    Nat :=
  ∑ i, lineCount md5 (UserPasswordReader.create (d i).inputFile (d i).options)
    ((d i).inputFile.content.splitOn 10) k

theorem linesGiving_pos_iff {k : Nat} : 0 < linesGiving md5 d k ↔
    ∃ i, ∃ line ∈ (d i).inputFile.content.splitOn 10,
      gives md5 (UserPasswordReader.create (d i).inputFile (d i).options) k line = true := by
  simp [linesGiving, Finset.sum_pos_iff, lineCount, List.countP_pos_iff]

def chunks (s : Threads (Fin n)) : List Chunk :=
  (List.finRange n).flatMap fun i => (s.vars i).chunks

/-- Conversions of readable files have come to their end by smooth steps. -/
structure Converted (md5 : List UInt8 → Vector UInt8 16) (d : Fin n → ConvertOperation)
    (fs₀ : FileSystem Path) (s : Threads (Fin n)) : Prop where
  readable : Readable d
  reached : Reaches (step md5 d) Smooth (start d fs₀) s
  finished : ∀ i, Finished s i

/-- The program that converts all files comes to such an end, however often it is paused. -/
theorem Converted.of_program {ops : List (Fin n)} {capacity : Nat}
    {p : ConverterProgram.Program (Fin n)} (hread : Readable d) (hnodup : ops.Nodup)
    (hall : ∀ i, i ∈ ops)
    (h : Reaches (ConverterProgram.step md5 d) ConverterProgram.Smooth
      (ConverterProgram.start d ops capacity fs₀) p)
    (hjoined : p.queue.main = .joined) : Converted md5 d fs₀ p.threads where
  readable := hread
  reached := ConverterProgram.threads_reached (fun _ _ hwork => hwork) h
  finished i := (ConverterProgram.complete_reached h).all_finished
    (ConverterProgram.accounts_reached hnodup h) hnodup hjoined i (hall i)

theorem Converted.counts (h : Converted md5 d fs₀ s) (i : Fin n) :
    CountsEveryLine md5 (UserPasswordReader.create (d i).inputFile (d i).options)
      ((d i).inputFile.content.splitOn 10) { s.vars i with fs := s.dir.fs } := by
  have hsound := h.reached.invariant (sound_start md5 h.readable fs₀) fun _ _ _ hs hok =>
    hs.step hok
  exact hsound.counts (h.finished i)

theorem mem_chunks {c : Chunk} : c ∈ chunks s ↔ ∃ i, c ∈ (s.vars i).chunks := by
  simp [chunks]

/-- A chunk is a file of records in order. -/
theorem Converted.chunk (h : Converted md5 d fs₀ s) {c : Chunk} (hc : c ∈ chunks s) :
    s.dir.fs.files c.path = some (encodeAll c.records) ∧ c.records ≠ [] ∧
      StrictlyIncreasing c.records := by
  obtain ⟨i, hc⟩ := mem_chunks.mp hc
  obtain ⟨hne, hinc, -⟩ := (h.counts i).chunk c hc
  exact ⟨(h.counts i).written.files c hc, hne, hinc⟩

theorem le_linesGiving (i : Fin n) (k : Nat) :
    lineCount md5 (UserPasswordReader.create (d i).inputFile (d i).options)
      ((d i).inputFile.content.splitOn 10) k ≤ linesGiving md5 d k :=
  Finset.single_le_sum (f := fun i => lineCount md5 (UserPasswordReader.create (d i).inputFile
    (d i).options) ((d i).inputFile.content.splitOn 10) k) (fun _ _ => Nat.zero_le _)
    (Finset.mem_univ i)

theorem chunkTally_eq (cs : List Chunk) (k : Nat) :
    chunkTally cs k = pwned.tally (cs.flatMap Chunk.records) k := (tally_flatMap _ _ k).symm

/-- The chunks together count every line of all files once. -/
theorem Converted.tally (h : Converted md5 d fs₀ s) {k : Nat}
    (hk : linesGiving md5 d k < 2 ^ 32) : chunkTally (chunks s) k = linesGiving md5 d k := by
  have hi : ∀ i, pwned.tally ((s.vars i).chunks.flatMap Chunk.records) k =
      lineCount md5 (UserPasswordReader.create (d i).inputFile (d i).options)
        ((d i).inputFile.content.splitOn 10) k := by
    intro i
    rw [← chunkTally_eq]
    exact (h.counts i).conserved k ((le_linesGiving i k).trans_lt hk)
  rw [chunkTally_eq, chunks, List.flatMap_assoc, tally_flatMap, funext hi, linesGiving,
    Fin.sum_univ_def]

/-- A hash is in a chunk exactly if a line gives it. -/
theorem Converted.mem_keys_iff (h : Converted md5 d fs₀ s) {k : Nat}
    (hk : linesGiving md5 d k < 2 ^ 32) :
    (∃ c ∈ chunks s, k ∈ keys c.records) ↔ 0 < linesGiving md5 d k := by
  constructor
  · rintro ⟨c, hc, hkey⟩
    obtain ⟨i, hci⟩ := mem_chunks.mp hc
    obtain ⟨r, hr, rfl⟩ := mem_keys.mp hkey
    obtain ⟨-, hinc, hpos⟩ := (h.counts i).chunk c hci
    have hcount := hpos r hr ((le_linesGiving i r.key).trans_lt hk)
    rw [← h.tally hk, chunkTally]
    have hle := List.single_le_sum (l := (chunks s).map fun c => pwned.tally c.records r.key)
      (fun _ _ => Nat.zero_le _) _ (List.mem_map_of_mem hc)
    rw [hinc.tally_eq hr] at hle
    omega
  · intro hpos
    rw [← h.tally hk, chunkTally] at hpos
    obtain ⟨m, hm, hpos⟩ := List.exists_mem_ne_zero_of_sum_ne_zero hpos.ne'
    obtain ⟨c, hc, rfl⟩ := List.mem_map.mp hm
    refine ⟨c, hc, ?_⟩
    by_contra hkey
    exact hpos (tally_eq_zero fun r hr hrk => hkey (mem_keys.mpr ⟨r, hr, hrk⟩))

/-! ## The merge of the chunks -/

variable {fs : FileSystem Path} {filenames inputFiles : List Path} {o : Settings Path}

/-- What the merger is told fits to the files: the destination is none of them, and the names that
it makes up are new. -/
structure Told (fs : FileSystem Path) (filenames : List Path) (o : Settings Path) : Prop where
  nonempty : filenames ≠ []
  apart : o.dstFile ∉ filenames
  atOnce : 2 ≤ o.maxFilesAtOnce
  unique : Function.Injective o.uniquePath
  fresh : ∀ k, o.uniquePath k ∉ filenames ∧ o.uniquePath k ≠ o.dstFile
  writable : ∀ p, p = o.dstFile ∨ p ∈ Set.range o.uniquePath → fs.writable p = true

/-- The chunk as a source file of the merger. -/
def sourceFile (c : Chunk) (h : c.records ≠ [] ∧ StrictlyIncreasing c.records) : SourceFile where
  records := c.records
  nonempty := h.1
  increasing := h.2

theorem contents_of_chunks : ∀ (cs : List Chunk)
    (hcs : ∀ c ∈ cs, c.records ≠ [] ∧ StrictlyIncreasing c.records),
    (∀ c ∈ cs, fs.files c.path = some (encodeAll c.records)) →
      List.Forall₂ (fun path src => fs.files path = some (encodeAll src.records))
        (cs.map Chunk.path) (cs.pmap sourceFile hcs)
  | [], _, _ => .nil
  | c :: cs, hcs, hfiles =>
    .cons (hfiles c (by simp))
      (contents_of_chunks cs (fun c hc => hcs c (by simp [hc])) fun c hc => hfiles c (by simp [hc]))

/-- The chunks are a job of the merger. -/
theorem Converted.job (h : Converted md5 d fs₀ s)
    (hfiles : filenames.Perm ((chunks s).map Chunk.path)) (htold : Told s.dir.fs filenames o) :
    ∃ files, Job s.dir.fs filenames files o ∧
      (files.map SourceFile.records).Perm ((chunks s).map Chunk.records) := by
  have hcontents := contents_of_chunks (chunks s) (fun c hc => (h.chunk hc).2)
    fun c hc => (h.chunk hc).1
  obtain ⟨files, hcontents', hperm⟩ := List.perm_comp_forall₂ hfiles hcontents
  refine ⟨files, ⟨hcontents', ?_, htold.apart, htold.atOnce, htold.unique, htold.fresh,
    htold.writable⟩, ?_⟩
  · rintro rfl
    cases hcontents'
    exact htold.nonempty rfl
  · have hrecords := hperm.map SourceFile.records
    simpa only [List.map_pmap, sourceFile, List.pmap_eq_map] using hrecords

/-- The destination holds a hash exactly if a line gives it, with a count that is at least the
number of such lines. -/
structure Holds (md5 : List UInt8 → Vector UInt8 16) (d : Fin n → ConvertOperation) (m : Nat)
    (out : List Record) : Prop where
  increasing : StrictlyIncreasing out
  hashes : ∀ k, linesGiving md5 d k < 2 ^ 32 → (k ∈ keys out ↔ 0 < linesGiving md5 d k)
  counts : ∀ k, m * linesGiving md5 d k < 2 ^ 32 →
    linesGiving md5 d k ≤ pwned.tally out k ∧ pwned.tally out k ≤ m * linesGiving md5 d k

/-- How many times as large as the number of lines a count can be. -/
def growth (filenames : List Path) (o : Settings Path) : Nat :=
  3 ^ passes filenames.length o.maxFilesAtOnce

theorem growth_pos (filenames : List Path) (o : Settings Path) : 0 < growth filenames o :=
  Nat.pow_pos (by decide)

theorem Converted.merged (h : Converted md5 d fs₀ s)
    (Q : PriorityQueue (@MergerInput.key Path))
    (hfiles : filenames.Perm ((chunks s).map Chunk.path)) (htold : Told s.dir.fs filenames o)
    (hsorted : SortedBySize s.dir.fs filenames inputFiles) :
    ∃ t out, Yields (fun fuel => mergeRounds Q o fuel { inputFiles, fs := s.dir.fs }) t ∧
      (cleanUp t).files o.dstFile = some (encodeAll out) ∧
      Holds md5 d (growth filenames o) out := by
  obtain ⟨files, hjob, hrecords⟩ := h.job hfiles htold
  obtain ⟨t, out, hy, hdone, hsettled⟩ := hjob.settles Q hsorted
  have hmem : ∀ rs, rs ∈ files.map SourceFile.records ↔ rs ∈ (chunks s).map Chunk.records :=
    fun rs => hrecords.mem_iff
  have hall : ∀ k, linesGiving md5 d k < 2 ^ 32 →
      pwned.tally (allRecords files) k = linesGiving md5 d k := by
    intro k hk
    have hperm : (allRecords files).Perm ((chunks s).flatMap Chunk.records) := hrecords.flatten
    rw [← h.tally hk, chunkTally_eq]
    exact tally_perm hperm k
  refine ⟨t, out, hy, hsettled.cleanUp hjob hdone, hsettled.increasing, fun k hk => ?_,
    fun k hk => ?_⟩
  · rw [hsettled.hashes, ← h.mem_keys_iff hk]
    constructor
    · rintro ⟨src, hsrc, hkey⟩
      obtain ⟨c, hc, he⟩ := List.mem_map.mp ((hmem _).mp (List.mem_map_of_mem hsrc))
      exact ⟨c, hc, he ▸ hkey⟩
    · rintro ⟨c, hc, hkey⟩
      obtain ⟨src, hsrc, he⟩ := List.mem_map.mp ((hmem _).mpr (List.mem_map_of_mem hc))
      exact ⟨src, hsrc, he ▸ hkey⟩
  · have hlt : linesGiving md5 d k < 2 ^ 32 :=
      (Nat.le_mul_of_pos_left _ (growth_pos filenames o)).trans_lt hk
    rw [← hall k hlt] at hk ⊢
    exact hsettled.bounds_passes k hk

/-! ## The answers -/

theorem stored_toNat {rs : List Record} (h : StrictlyIncreasing rs) (k : Nat) :
    (stored rs k).toNat = pwned.tally rs k := by
  by_cases hk : ∃ r ∈ rs, r.key = k
  · obtain ⟨r, hr, rfl⟩ := hk
    rw [stored_of_mem h hr, h.tally_eq hr]
  · have hno : ∀ r ∈ rs, r.key ≠ k := fun r hr hrk => hk ⟨r, hr, hrk⟩
    rw [stored_of_not_mem hno, tally_eq_zero hno]
    rfl

/-- A positive count is stored exactly if some line gives the hash. -/
theorem Holds.stored_ne_zero_iff {out : List Record} {m k : Nat} (hout : Holds md5 d m out)
    (hk : m * linesGiving md5 d k < 2 ^ 32) :
    stored out k ≠ 0 ↔ 0 < linesGiving md5 d k := by
  obtain ⟨hlo, hhi⟩ := hout.counts k hk
  have hzero : stored out k = 0 ↔ pwned.tally out k = 0 := by
    rw [← stored_toNat hout.increasing]
    exact ⟨fun h => by rw [h]; rfl, fun h => BitVec.eq_of_toNat_eq h⟩
  rw [Ne, hzero]
  constructor
  · intro hne
    by_contra hpos
    rw [Nat.eq_zero_of_not_pos hpos, Nat.mul_zero] at hhi
    omega
  · omega

/-- A fresh lookup in the merged chunks of smooth conversions finds a password exactly if a line of
one of the files gives its hash. The count is at least the number of such lines, and at most so
many times as large as the operations that a record goes through can make it. -/
theorem a_lookup_counts_the_lines (h : Converted md5 d fs₀ s)
    (Q : PriorityQueue (@MergerInput.key Path))
    (hfiles : filenames.Perm ((chunks s).map Chunk.path)) (htold : Told s.dir.fs filenames o)
    (hsorted : SortedBySize s.dir.fs filenames inputFiles) :
    ∃ t file, Yields (fun fuel => mergeRounds Q o fuel { inputFiles, fs := s.dir.fs }) t ∧
      (cleanUp t).files o.dstFile = some file ∧
      (file.length < 2 ^ 63 → ∀ pwd,
        growth filenames o * linesGiving md5 d (UserPasswordReader.hashOf md5 pwd).key < 2 ^ 32 →
        ∃ p, Yields (fun fuel =>
            (openFile file).binsearch fuel (UserPasswordReader.hashOf md5 pwd)) p ∧
          (p.1.count ≠ 0 ↔ ∃ i, ∃ line ∈ (d i).inputFile.content.splitOn 10,
            gives md5 (UserPasswordReader.create (d i).inputFile (d i).options)
              (UserPasswordReader.hashOf md5 pwd).key line = true) ∧
          linesGiving md5 d (UserPasswordReader.hashOf md5 pwd).key ≤ p.1.count.toNat ∧
          p.1.count.toNat ≤
            growth filenames o * linesGiving md5 d (UserPasswordReader.hashOf md5 pwd).key) := by
  obtain ⟨t, out, hy, hfile, hout⟩ := h.merged Q hfiles htold hsorted
  refine ⟨t, _, hy, hfile, fun hsize pwd hk => ?_⟩
  rw [encodeAll_length] at hsize
  have hserves := serves_openFile ⟨out, hout.increasing, hsize⟩
  obtain ⟨p, m, ins, hp, hcount, -⟩ :=
    hserves.binsearch_live rfl (UserPasswordReader.hashOf md5 pwd)
  refine ⟨_, hp, ?_, ?_⟩
  · rw [← linesGiving_pos_iff, ← hout.stored_ne_zero_iff hk]
    exact not_congr (by rw [hcount])
  · dsimp only at hcount ⊢
    rw [hcount, stored_toNat hout.increasing]
    exact hout.counts _ hk

/-- The hashes of the database depend on the lines only: neither on the memory of the conversions
and the order of their steps, nor on the order and the number of the files that the merger takes at
once. -/
theorem the_hashes_depend_on_the_lines_only (h : Converted md5 d fs₀ s)
    (Q : PriorityQueue (@MergerInput.key Path))
    (hfiles : filenames.Perm ((chunks s).map Chunk.path)) (htold : Told s.dir.fs filenames o)
    (hsorted : SortedBySize s.dir.fs filenames inputFiles)
    {d' : Fin n → ConvertOperation} {fs₀' : FileSystem Path} {s' : Threads (Fin n)}
    {filenames' inputFiles' : List Path} {o' : Settings Path}
    (h' : Converted md5 d' fs₀' s') (Q' : PriorityQueue (@MergerInput.key Path))
    (hfiles' : filenames'.Perm ((chunks s').map Chunk.path)) (htold' : Told s'.dir.fs filenames' o')
    (hsorted' : SortedBySize s'.dir.fs filenames' inputFiles') (σ : Equiv.Perm (Fin n))
    (hsame : ∀ i, (d' i).inputFile = (d (σ i)).inputFile ∧ (d' i).options = (d (σ i)).options)
    (hfit : ∀ k, linesGiving md5 d k < 2 ^ 32) :
    ∃ t t' out out',
      Yields (fun fuel => mergeRounds Q o fuel { inputFiles, fs := s.dir.fs }) t ∧
      Yields (fun fuel => mergeRounds Q' o' fuel
        { inputFiles := inputFiles', fs := s'.dir.fs }) t' ∧
      (cleanUp t).files o.dstFile = some (encodeAll out) ∧
      (cleanUp t').files o'.dstFile = some (encodeAll out') ∧ keys out = keys out' := by
  obtain ⟨t, out, hy, hfile, hout⟩ := h.merged Q hfiles htold hsorted
  obtain ⟨t', out', hy', hfile', hout'⟩ := h'.merged Q' hfiles' htold' hsorted'
  have hlines : ∀ k, linesGiving md5 d' k = linesGiving md5 d k := by
    intro k
    unfold linesGiving
    simp only [hsame]
    exact Equiv.sum_comp σ fun i => lineCount md5 (UserPasswordReader.create (d i).inputFile
      (d i).options) ((d i).inputFile.content.splitOn 10) k
  refine ⟨t, t', out, out', hy, hy', hfile, hfile', ?_⟩
  have hinc := List.pairwise_map.mpr hout.increasing
  have hinc' := List.pairwise_map.mpr hout'.increasing
  refine hinc.eq_of_mem_iff hinc' fun k => ?_
  have hk := hout.hashes k (hfit k)
  have hk' := hout'.hashes k (hlines k ▸ hfit k)
  rw [hlines] at hk'
  exact hk.trans hk'.symm

/-! ### Two conversions of one line each -/

section Two

def twoChunks : List Path := [[120, 45, 48, 48, 48, 49], [121, 45, 48, 48, 48, 49]]

/-- The destination `d` and intermediate files whose names are slashes. -/
def slashes (maxFilesAtOnce : Nat) : Settings Path where
  dstFile := [100]
  maxFilesAtOnce
  uniquePath k := List.replicate (k + 1) 47

/-- The queue that is sorted by hash. -/
def pathsByHash : PriorityQueue (@MergerInput.key Path) :=
  PriorityQueue.sorted MergerInput.key fun _ _ h => h

theorem converted_two : ∃ s, Converted firstByte oneLine emptyDirectory s ∧
    (chunks s).map Chunk.path = twoChunks ∧ SortedBySize s.dir.fs twoChunks twoChunks ∧
    ∀ maxFilesAtOnce, 2 ≤ maxFilesAtOnce → Told s.dir.fs twoChunks (slashes maxFilesAtOnce) := by
  have hrun : ((run (step firstByte oneLine) (start oneLine emptyDirectory) bothAtOnce).map
      fun s => (decide (∀ i, Finished s i), (chunks s).map Chunk.path,
        twoChunks.map fun p => ((s.dir.fs.files p).getD []).length)) =
      some (true, twoChunks, [20, 20]) := by
    decide +kernel
  have hmeets : Meets (step firstByte oneLine) Smooth (start oneLine emptyDirectory)
      bothAtOnce := by
    decide +kernel
  obtain ⟨s, hs, hstate⟩ := Option.map_eq_some_iff.mp hrun
  simp only [Prod.mk.injEq, decide_eq_true_eq] at hstate
  obtain ⟨hfinished, hpaths, hsizes⟩ := hstate
  have hreached := Reaches.of_meets hmeets hs
  have hwritable : s.dir.fs.writable = fun _ => true := reaches_writable hreached
  refine ⟨s, ⟨fun i => ⟨rfl, rfl⟩, hreached, hfinished⟩, hpaths, ⟨.rfl, ?_⟩, fun m hm => ?_⟩
  · simp only [twoChunks, List.map_cons, List.map_nil, List.cons.injEq, and_true] at hsizes
    simp [twoChunks, hsizes]
  · refine ⟨by decide, by simp [slashes, twoChunks], hm, fun a b h => ?_, fun k => ⟨?_, ?_⟩, fun p _ => ?_⟩
    · exact Nat.succ_injective (by simpa [slashes] using congrArg List.length h)
    · simp [slashes, twoChunks, List.replicate_succ]
    · simp [slashes, List.replicate_succ]
    · rw [hwritable]

theorem a_lookup_counts_the_lines_two :
    ∃ s, Converted firstByte oneLine emptyDirectory s ∧
      ∃ t file, Yields (fun fuel => mergeRounds pathsByHash (slashes 2) fuel
          { inputFiles := twoChunks, fs := s.dir.fs }) t ∧
        (cleanUp t).files [100] = some file ∧
        (file.length < 2 ^ 63 → ∀ pwd,
          growth twoChunks (slashes 2) *
              linesGiving firstByte oneLine (UserPasswordReader.hashOf firstByte pwd).key < 2 ^ 32 →
          ∃ p, Yields (fun fuel =>
              (openFile file).binsearch fuel (UserPasswordReader.hashOf firstByte pwd)) p ∧
            (p.1.count ≠ 0 ↔ ∃ i, ∃ line ∈ (oneLine i).inputFile.content.splitOn 10,
              gives firstByte (UserPasswordReader.create (oneLine i).inputFile (oneLine i).options)
                (UserPasswordReader.hashOf firstByte pwd).key line = true) ∧
            linesGiving firstByte oneLine (UserPasswordReader.hashOf firstByte pwd).key ≤
              p.1.count.toNat ∧
            p.1.count.toNat ≤ growth twoChunks (slashes 2) *
              linesGiving firstByte oneLine (UserPasswordReader.hashOf firstByte pwd).key) := by
  obtain ⟨s, hs, hpaths, hsorted, htold⟩ := converted_two
  exact ⟨s, hs, a_lookup_counts_the_lines hs pathsByHash (.of_eq hpaths.symm)
    (htold 2 le_rfl) hsorted⟩

theorem linesGiving_oneLine_le (k : Nat) : linesGiving firstByte oneLine k ≤ 2 := by
  have hone : ∀ i : Fin 2, ((oneLine i).inputFile.content.splitOn 10).length ≤ 1 := by decide
  have hcount : ∀ i ∈ Finset.univ, lineCount firstByte
      (UserPasswordReader.create (oneLine i).inputFile (oneLine i).options)
      ((oneLine i).inputFile.content.splitOn 10) k ≤ 1 :=
    fun i _ => List.countP_le_length.trans (hone i)
  exact Finset.sum_le_card_nsmul _ _ 1 hcount

/-- The merger takes the two chunks in one order or in the other. -/
theorem the_hashes_depend_on_the_lines_only_two :
    ∃ s, Converted firstByte oneLine emptyDirectory s ∧ ∃ t t' out out',
      Yields (fun fuel => mergeRounds pathsByHash (slashes 2) fuel
        { inputFiles := twoChunks, fs := s.dir.fs }) t ∧
      Yields (fun fuel => mergeRounds pathsByHash (slashes 3) fuel
        { inputFiles := twoChunks, fs := s.dir.fs }) t' ∧
      (cleanUp t).files [100] = some (encodeAll out) ∧
      (cleanUp t').files [100] = some (encodeAll out') ∧ keys out = keys out' := by
  obtain ⟨s, hs, hpaths, hsorted, htold⟩ := converted_two
  exact ⟨s, hs, the_hashes_depend_on_the_lines_only hs pathsByHash (.of_eq hpaths.symm)
    (htold 2 le_rfl) hsorted hs pathsByHash (.of_eq hpaths.symm) (htold 3 (by decide)) hsorted
    (Equiv.refl _) (fun _ => ⟨rfl, rfl⟩)
    fun k => (linesGiving_oneLine_le k).trans_lt (by decide)⟩

end Two

end Pipeline

end pwned
