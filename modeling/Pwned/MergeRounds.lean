-- The rounds of the merger: the work list of files is merged in chunks, the
-- results go to its back, and the last chunk goes to the destination.
import Pwned.MergeResult

open pwned

namespace merger

/-- The variables of the loop in `main`, with the inputs and the target of every operation so
far. -/
structure Rounds (Path : Type) where
  inputFiles : List Path
  intermediateFilenames : List Path := []
  fs : FileSystem Path
  operations : List (List Path × Path) := []

/-- What a round works on. -/
structure Chunk (Path : Type) where
  inputFileSlice : List Path
  rest : List Path
  isLastChunk : Bool
  targetFilename : Path

/-- What `main` is told, and the file names that it makes up: the `k`-th intermediate file is
`uniquePath k`. -/
structure Settings (Path : Type) where
  dstFile : Path
  maxFilesAtOnce : Nat
  uniquePath : Nat → Path

section Model

variable {Path : Type} [DecidableEq Path] (Q : PriorityQueue (@MergerInput.key Path))
  (o : Settings Path)

def Rounds.chunk (s : Rounds Path) : Chunk Path :=
  let inputFileSlice := s.inputFiles.take o.maxFilesAtOnce
  let isLastChunk := inputFileSlice.length == s.inputFiles.length
  { inputFileSlice, isLastChunk, rest := s.inputFiles.drop o.maxFilesAtOnce,
    targetFilename :=
      if isLastChunk then o.dstFile else o.uniquePath s.intermediateFilenames.length }

/-- The operation is made: an intermediate file is noted. -/
def Rounds.begin (s : Rounds Path) : Rounds Path :=
  let c := s.chunk o
  { s with
    intermediateFilenames :=
      if c.isLastChunk then s.intermediateFilenames
      else s.intermediateFilenames ++ [c.targetFilename],
    operations := s.operations ++ [(c.inputFileSlice, c.targetFilename)] }

/-- The chunk is merged: its files leave the work list, and an intermediate file joins it. -/
def Rounds.advance (s : Rounds Path) (c : Chunk Path) (fs : FileSystem Path) : Rounds Path :=
  { s with fs, inputFiles := if c.isLastChunk then c.rest else c.rest ++ [c.targetFilename] }

/-- `start` of an operation: an error of `execute` is reported and forgotten. -/
def startOperation (fuel : Nat) (d : MergeOperation Path) (fs : FileSystem Path) :
    Option (FileSystem Path) :=
  (execute Q fuel d fs (some [])).map fun
    | .ok (fs, _) => fs
    | .error _ => fs

/-- The loop of `main`, not cancelled. -/
def mergeRounds : Nat → Rounds Path → Option (Rounds Path)
  | 0, _ => none
  | fuel + 1, s =>
    if s.inputFiles.isEmpty then some s
    else do
      let c := s.chunk o
      let op ← MergeOperation.create Q s.fs c.inputFileSlice c.targetFilename false
      let fs ← startOperation Q fuel op s.fs
      mergeRounds fuel ((s.begin o).advance c fs)

/-- What stands behind the loop of `main`: the intermediate files are removed. -/
def cleanUp (s : Rounds Path) : FileSystem Path :=
  s.intermediateFilenames.foldl FileSystem.remove s.fs

end Model

/-- What `std::sort` by `InputFileLess` may leave: the files in decreasing order of size. -/
structure SortedBySize {Path : Type} (fs : FileSystem Path) (filenames inputFiles : List Path) :
    Prop where
  perm : inputFiles.Perm filenames
  decreasing : inputFiles.Pairwise fun a b =>
    ((fs.files b).getD []).length ≤ ((fs.files a).getD []).length

/-- A job of the merger: source files of records, a destination apart from them, and names for
the intermediate files that are new. -/
structure Job {Path : Type} (fs : FileSystem Path) (filenames : List Path)
    (files : List SourceFile) (o : Settings Path) : Prop where
  contents : List.Forall₂ (fun path src => fs.files path = some (encodeAll src.records))
    filenames files
  nonempty : files ≠ []
  apart : o.dstFile ∉ filenames
  atOnce : 2 ≤ o.maxFilesAtOnce
  unique : Function.Injective o.uniquePath
  fresh : ∀ k, o.uniquePath k ∉ filenames ∧ o.uniquePath k ≠ o.dstFile
  writable : ∀ p, p = o.dstFile ∨ p ∈ Set.range o.uniquePath → fs.writable p = true

/-- What the rounds before the last one need of a job: source files of records, and names for the
intermediate files that are new and can be written. -/
structure Workload {Path : Type} (fs : FileSystem Path) (filenames : List Path)
    (files : List SourceFile) (o : Settings Path) : Prop where
  contents : List.Forall₂ (fun path src => fs.files path = some (encodeAll src.records))
    filenames files
  nonempty : files ≠ []
  atOnce : 1 ≤ o.maxFilesAtOnce
  unique : Function.Injective o.uniquePath
  fresh : ∀ k, o.uniquePath k ∉ filenames
  writable : ∀ k, fs.writable (o.uniquePath k) = true

theorem Job.workload {Path : Type} {fs : FileSystem Path} {filenames : List Path}
    {files : List SourceFile} {o : Settings Path} (h : Job fs filenames files o) :
    Workload fs filenames files o :=
  ⟨h.contents, h.nonempty, one_le_two.trans h.atOnce, h.unique, fun k => (h.fresh k).1,
    fun k => h.writable _ (Or.inr ⟨k, rfl⟩)⟩

/-! ## One round -/

variable {Path : Type} {fs₀ : FileSystem Path} {filenames inputFiles : List Path}
  {originals files : List SourceFile} {o : Settings Path} {s : Rounds Path}

/-- What holds in front of every round. The files of the work list hold the records of `files`,
which have the hashes of the sources, and every file so far is an input of one operation or still
in the work list. -/
structure Pending (fs₀ : FileSystem Path) (filenames : List Path) (originals : List SourceFile)
    (o : Settings Path) (s : Rounds Path) (files : List SourceFile) : Prop where
  contents : List.Forall₂ (fun path src => s.fs.files path = some (encodeAll src.records))
    s.inputFiles files
  hashes : ∀ k, InSources files k ↔ InSources originals k
  made : s.intermediateFilenames = (List.range s.intermediateFilenames.length).map o.uniquePath
  used : ((s.operations.flatMap Prod.fst) ++ s.inputFiles).Perm
    (filenames ++ s.intermediateFilenames)
  targets : s.operations.map Prod.snd = s.intermediateFilenames
  writable : s.fs.writable = fs₀.writable

/-- What holds when the loop has ended. -/
structure Done (filenames : List Path) (originals : List SourceFile)
    (o : Settings Path) (s : Rounds Path) : Prop where
  merged : ∃ out, s.fs.files o.dstFile = some (encodeAll out) ∧ StrictlyIncreasing out ∧
    ∀ k, k ∈ keys out ↔ InSources originals k
  empty : s.inputFiles = []
  made : s.intermediateFilenames = (List.range s.intermediateFilenames.length).map o.uniquePath
  used : (s.operations.flatMap Prod.fst).Perm (filenames ++ s.intermediateFilenames)
  targets : s.operations.map Prod.snd = s.intermediateFilenames ++ [o.dstFile]

theorem inSources_append {fs gs : List SourceFile} {k : Nat} :
    InSources (fs ++ gs) k ↔ InSources fs k ∨ InSources gs k := by
  simp [InSources, or_and_right, exists_or]

theorem Pending.mem (h : Pending fs₀ filenames originals o s files) {p : Path}
    (hp : p ∈ s.inputFiles) :
    p ∈ filenames ∨ ∃ k < s.intermediateFilenames.length, o.uniquePath k = p := by
  have hmem := h.used.mem_iff.mp (List.mem_append_right _ hp)
  rcases List.mem_append.mp hmem with hmem | hmem
  · exact Or.inl hmem
  · right
    rw [h.made] at hmem
    simpa using hmem

theorem chunk_of_le (h : s.inputFiles.length ≤ o.maxFilesAtOnce) :
    s.chunk o = ⟨s.inputFiles, [], true, o.dstFile⟩ := by
  simp [Rounds.chunk, h]

theorem chunk_of_lt (h : o.maxFilesAtOnce < s.inputFiles.length) :
    s.chunk o = ⟨s.inputFiles.take o.maxFilesAtOnce, s.inputFiles.drop o.maxFilesAtOnce, false,
      o.uniquePath s.intermediateFilenames.length⟩ := by
  simp [Rounds.chunk, h.le, h.ne]

/-- The next intermediate file is none of the files of the work list. -/
theorem Pending.unique_not_mem (hwork : Workload fs₀ filenames originals o)
    (h : Pending fs₀ filenames originals o s files) :
    o.uniquePath s.intermediateFilenames.length ∉ s.inputFiles := by
  intro hmem
  rcases h.mem hmem with hmem | ⟨k, hk, he⟩
  · exact hwork.fresh _ hmem
  · exact hk.ne (hwork.unique he)

/-- Neither is the target of a round. -/
theorem Pending.target_not_mem (hjob : Job fs₀ filenames originals o)
    (h : Pending fs₀ filenames originals o s files) :
    (s.chunk o).targetFilename ∉ s.inputFiles := by
  rcases Nat.lt_or_ge o.maxFilesAtOnce s.inputFiles.length with hlt | hle
  · rw [chunk_of_lt hlt]
    exact h.unique_not_mem hjob.workload
  · rw [chunk_of_le hle]
    intro hmem
    rcases h.mem hmem with hmem | ⟨k, -, he⟩
    · exact hjob.apart hmem
    · exact (hjob.fresh k).2 he

theorem Pending.target_writable (hjob : Job fs₀ filenames originals o)
    (h : Pending fs₀ filenames originals o s files) :
    s.fs.writable (s.chunk o).targetFilename = true := by
  rw [h.writable]
  apply hjob.writable
  rcases Nat.lt_or_ge o.maxFilesAtOnce s.inputFiles.length with hlt | hle
  · rw [chunk_of_lt hlt]
    exact Or.inr ⟨_, rfl⟩
  · rw [chunk_of_le hle]
    exact Or.inl rfl

/-- The files of a chunk are sources of an operation with a target apart from them. -/
theorem Pending.sources_of (hwork : Workload fs₀ filenames originals o)
    (h : Pending fs₀ filenames originals o s files) (hne : s.inputFiles ≠ []) {dst : Path}
    (hdst : dst ∉ s.inputFiles) (hwritable : s.fs.writable dst = true) :
    Sources s.fs (s.chunk o).inputFileSlice (files.take o.maxFilesAtOnce) dst := by
  refine ⟨List.forall₂_take _ h.contents, ?_, ?_, hwritable⟩
  · have hlen := h.contents.length_eq
    have hpos := List.length_pos_iff.mpr hne
    have hatOnce := hwork.atOnce
    apply List.ne_nil_of_length_pos
    rw [List.length_take]
    omega
  · exact fun hmem => hdst (List.mem_of_mem_take hmem)

theorem Pending.sources (hjob : Job fs₀ filenames originals o)
    (h : Pending fs₀ filenames originals o s files) (hne : s.inputFiles ≠ []) :
    Sources s.fs (s.chunk o).inputFileSlice (files.take o.maxFilesAtOnce)
      (s.chunk o).targetFilename :=
  h.sources_of hjob.workload hne (h.target_not_mem hjob) (h.target_writable hjob)

/-- The last chunk is the whole work list, and its result is the destination. -/
theorem Pending.last (h : Pending fs₀ filenames originals o s files)
    (hle : s.inputFiles.length ≤ o.maxFilesAtOnce) {fs' : FileSystem Path} {out : List Record}
    (hmerged : Merged s.fs (InSources (files.take o.maxFilesAtOnce)) (s.chunk o).targetFilename
      false fs' out) :
    Done filenames originals o ((s.begin o).advance (s.chunk o) fs') := by
  have htake : files.take o.maxFilesAtOnce = files := by
    rw [List.take_of_length_le]
    rw [← h.contents.length_eq]
    exact hle
  rw [chunk_of_le hle, htake] at hmerged
  unfold Rounds.begin Rounds.advance
  simp only [chunk_of_le hle, if_true]
  refine ⟨⟨out, hmerged.written, hmerged.increasing, fun k => ?_⟩, rfl, h.made, ?_, ?_⟩
  · rw [← hmerged.hashes, h.hashes]
  · simpa using h.used
  · simp [h.targets]

/-- Another chunk makes an intermediate file, which joins the work list. -/
theorem Pending.next (hwork : Workload fs₀ filenames originals o)
    (h : Pending fs₀ filenames originals o s files)
    (hlt : o.maxFilesAtOnce < s.inputFiles.length) {fs' : FileSystem Path} {out : List Record}
    (hmerged : Merged s.fs (InSources (files.take o.maxFilesAtOnce)) (s.chunk o).targetFilename
      false fs' out) :
    ∃ files', Pending fs₀ filenames originals o ((s.begin o).advance (s.chunk o) fs') files' ∧
      ((s.begin o).advance (s.chunk o) fs').inputFiles.length =
        s.inputFiles.length - o.maxFilesAtOnce + 1 := by
  have hlen := h.contents.length_eq
  have hatOnce := hwork.atOnce
  have htarget := h.unique_not_mem hwork
  have hsplit : files.take o.maxFilesAtOnce ++ files.drop o.maxFilesAtOnce = files :=
    List.take_append_drop _ _
  have hout : out ≠ [] := by
    rintro rfl
    have hpos : 0 < (files.take o.maxFilesAtOnce).length := by
      rw [List.length_take]
      omega
    obtain ⟨src, hsrc⟩ := List.exists_mem_of_length_pos hpos
    obtain ⟨r, hr⟩ := List.exists_mem_of_ne_nil _ src.nonempty
    have hkey := (hmerged.hashes r.key).mp ⟨src, hsrc, mem_keys.mpr ⟨r, hr, rfl⟩⟩
    cases hkey
  refine ⟨files.drop o.maxFilesAtOnce ++ [⟨out, hout, hmerged.increasing⟩], ?_, ?_⟩
  · rw [chunk_of_lt hlt] at hmerged
    unfold Rounds.begin Rounds.advance
    simp only [chunk_of_lt hlt, Bool.false_eq_true, if_false]
    refine ⟨?_, fun k => ?_, ?_, ?_, ?_, ?_⟩
    · refine List.rel_append ?_ (List.Forall₂.cons hmerged.written List.Forall₂.nil)
      have hapart : ∀ p ∈ s.inputFiles.drop o.maxFilesAtOnce,
          p ≠ o.uniquePath s.intermediateFilenames.length := fun p hp he =>
        htarget (he ▸ List.mem_of_mem_drop hp)
      have hrest := List.forall₂_drop o.maxFilesAtOnce h.contents
      refine ((List.forall₂_and_left _ _).mpr ⟨hapart, hrest⟩).imp ?_
      rintro p src ⟨hp, hfile⟩
      rw [hmerged.frame.files rfl p hp, hfile]
    · have hnew : InSources [⟨out, hout, hmerged.increasing⟩] k ↔
          InSources (files.take o.maxFilesAtOnce) k := by
        rw [hmerged.hashes]
        simp [InSources]
      rw [← h.hashes, inSources_append, hnew, or_comm, ← inSources_append, hsplit]
    · rw [List.length_append, List.length_singleton, List.range_succ, List.map_append, ← h.made]
      rfl
    · have hused := h.used
      rw [← List.take_append_drop o.maxFilesAtOnce s.inputFiles] at hused
      simp only [List.flatMap_append, List.flatMap_cons, List.flatMap_nil, List.append_nil,
        List.append_assoc] at hused ⊢
      simpa only [List.append_assoc] using hused.append_right _
    · simp [h.targets]
    · rw [hmerged.frame.writable, h.writable]
  · unfold Rounds.begin Rounds.advance
    simp only [chunk_of_lt hlt, Bool.false_eq_true, if_false, List.length_append,
      List.length_drop, List.length_singleton]

theorem pending_start (hwork : Workload fs₀ filenames originals o)
    (hsorted : SortedBySize fs₀ filenames inputFiles) :
    ∃ files, Pending fs₀ filenames originals o { inputFiles, fs := fs₀ } files := by
  obtain ⟨files, hcontents, hperm⟩ := List.perm_comp_forall₂ hsorted.perm hwork.contents
  refine ⟨files, hcontents, fun k => ?_, rfl, ?_, rfl, rfl⟩
  · simp only [InSources, hperm.mem_iff]
  · simpa using hsorted.perm

theorem Done.dst_not_mem (hjob : Job fs₀ filenames originals o)
    (h : Done filenames originals o s) : o.dstFile ∉ s.intermediateFilenames := by
  intro hmem
  rw [h.made] at hmem
  obtain ⟨k, -, hk⟩ := List.mem_map.mp hmem
  exact (hjob.fresh k).2 hk

variable [DecidableEq Path] {Q : PriorityQueue (@MergerInput.key Path)}

theorem startOperation_yields {srcFiles : List Path} {dst : Path}
    (h : Sources s.fs srcFiles files dst) :
    ∃ op fs' out, MergeOperation.create Q s.fs srcFiles dst false = some op ∧
      Yields (fun fuel => startOperation Q fuel op s.fs) fs' ∧
      Merged s.fs (InSources files) dst false fs' out := by
  obtain ⟨op, fs', calls, out, hcreate, hy, hmerged⟩ := h.merges (Q := Q) false (some [])
  exact ⟨op, fs', out, hcreate, hy.map _, hmerged⟩

theorem mergeRounds_of_nil (h : s.inputFiles = []) :
    Yields (fun fuel => mergeRounds Q o fuel s) s := by
  refine Yields.of_shift 1 (Yields.of_eq fun fuel => ?_)
  simp [mergeRounds, h]

theorem mergeRounds_of_ne_nil (hne : s.inputFiles ≠ []) {op : MergeOperation Path}
    (hcreate : MergeOperation.create Q s.fs (s.chunk o).inputFileSlice (s.chunk o).targetFilename
      false = some op) (fuel : Nat) :
    mergeRounds Q o (fuel + 1) s = (startOperation Q fuel op s.fs).bind fun fs =>
      mergeRounds Q o fuel ((s.begin o).advance (s.chunk o) fs) := by
  have hempty : s.inputFiles.isEmpty = false := by simpa using hne
  simp only [mergeRounds, hempty, hcreate, Option.bind_eq_bind, Option.bind_some,
    Bool.false_eq_true, if_false]

/-- The rounds end: every round but the last makes the work list shorter. -/
theorem Pending.runs (hjob : Job fs₀ filenames originals o) (n : Nat) :
    ∀ {s : Rounds Path} {files : List SourceFile}, s.inputFiles.length = n →
      Pending fs₀ filenames originals o s files → s.inputFiles ≠ [] →
      ∃ s', Yields (fun fuel => mergeRounds Q o fuel s) s' ∧ Done filenames originals o s' := by
  induction n using Nat.strong_induction_on with
  | _ n ih =>
    intro s files hn h hne
    obtain ⟨op, fs', out, hcreate, hy, hmerged⟩ :=
      startOperation_yields (Q := Q) (h.sources hjob hne)
    have hround : ∀ {s'}, Yields (fun fuel => mergeRounds Q o fuel
        ((s.begin o).advance (s.chunk o) fs')) s' →
        Yields (fun fuel => mergeRounds Q o fuel s) s' := by
      intro s' hrest
      refine Yields.of_shift 1 ?_
      simp only [mergeRounds_of_ne_nil hne hcreate]
      exact hy.bind (fun fs fuel => mergeRounds Q o fuel
        ((s.begin o).advance (s.chunk o) fs)) hrest
    rcases Nat.lt_or_ge o.maxFilesAtOnce s.inputFiles.length with hlt | hle
    · obtain ⟨files', hpending, hlength⟩ := h.next hjob.workload hlt hmerged
      have hshorter : ((s.begin o).advance (s.chunk o) fs').inputFiles.length <
          s.inputFiles.length := by
        have hatOnce := hjob.atOnce
        omega
      have hne' : ((s.begin o).advance (s.chunk o) fs').inputFiles ≠ [] := by
        rw [chunk_of_lt hlt]
        simp [Rounds.advance]
      obtain ⟨s', hrest, hdone⟩ := ih _ (hn ▸ hshorter) rfl hpending hne'
      exact ⟨s', hround hrest, hdone⟩
    · have hdone := h.last hle hmerged
      exact ⟨_, hround (mergeRounds_of_nil hdone.empty), hdone⟩

theorem foldl_remove_files (ps : List Path) {p : Path} (hp : p ∉ ps) (fs : FileSystem Path) :
    (ps.foldl FileSystem.remove fs).files p = fs.files p := by
  induction ps generalizing fs with
  | nil => rfl
  | cons q ps ih =>
    simp only [List.mem_cons, not_or] at hp
    rw [List.foldl_cons, ih hp.2, FileSystem.remove_files_of_ne _ _ hp.1]

/-- The rounds end. Every file is an input of one operation, the operations make the intermediate
files and then the destination, and the destination holds the hashes of all sources in order. -/
theorem merging_in_rounds_loses_no_file (Q : PriorityQueue (@MergerInput.key Path))
    {fs : FileSystem Path} (hjob : Job fs filenames files o)
    (hsorted : SortedBySize fs filenames inputFiles) :
    ∃ s, Yields (fun fuel => mergeRounds Q o fuel { inputFiles, fs }) s ∧
      (s.operations.flatMap Prod.fst).Perm (filenames ++ s.intermediateFilenames) ∧
      s.operations.map Prod.snd = s.intermediateFilenames ++ [o.dstFile] ∧
      s.intermediateFilenames.Nodup ∧ (∀ p ∈ s.intermediateFilenames, p ∉ filenames) ∧
      ∃ out, (cleanUp s).files o.dstFile = some (encodeAll out) ∧ StrictlyIncreasing out ∧
        ∀ k, k ∈ keys out ↔ ∃ src ∈ files, k ∈ keys src.records := by
  obtain ⟨files', hpending⟩ := pending_start hjob.workload hsorted
  have hne : inputFiles ≠ [] := by
    intro hnil
    have hlen := hjob.contents.length_eq
    rw [← hsorted.perm.length_eq, hnil] at hlen
    exact hjob.nonempty (List.length_eq_zero_iff.mp hlen.symm)
  obtain ⟨s, hy, hdone⟩ := Pending.runs (Q := Q) hjob _ rfl hpending hne
  obtain ⟨out, hwritten, hinc, hhashes⟩ := hdone.merged
  refine ⟨s, hy, hdone.used, hdone.targets, ?_, ?_, out, ?_, hinc, hhashes⟩
  · rw [hdone.made]
    exact List.nodup_range.map hjob.unique
  · intro p hp
    rw [hdone.made] at hp
    obtain ⟨k, -, rfl⟩ := List.mem_map.mp hp
    exact (hjob.fresh k).1
  · rw [cleanUp, foldl_remove_files _ (hdone.dst_not_mem hjob), hwritten]

/-- Three files, to be merged two at once. -/
def three : List SourceFile := ⟨[⟨0, 7, 1⟩], by decide, by decide⟩ :: sharing

def twoAtOnce : Settings Nat := { dstFile := 3, maxFilesAtOnce := 2, uniquePath := (4 + ·) }

theorem merging_in_rounds_loses_no_file_three :
    ∃ s, Yields (fun fuel => mergeRounds byHash twoAtOnce fuel
        { inputFiles := [1, 0, 2], fs := disk three }) s ∧
      (s.operations.flatMap Prod.fst).Perm ([0, 1, 2] ++ s.intermediateFilenames) ∧
      s.operations.map Prod.snd = s.intermediateFilenames ++ [3] ∧
      s.intermediateFilenames.Nodup ∧ (∀ p ∈ s.intermediateFilenames, p ∉ [0, 1, 2]) ∧
      ∃ out, (cleanUp s).files 3 = some (encodeAll out) ∧ StrictlyIncreasing out ∧
        ∀ k, k ∈ keys out ↔ ∃ src ∈ three, k ∈ keys src.records := by
  have hjob : Job (disk three) [0, 1, 2] three twoAtOnce :=
    { contents := (sources_disk (by decide : three ≠ [])).contents
      nonempty := by decide
      apart := by decide
      atOnce := by decide
      unique := fun a b h => Nat.add_left_cancel h
      fresh := fun k => by simp [twoAtOnce]; omega
      writable := fun _ _ => rfl }
  exact merging_in_rounds_loses_no_file byHash hjob ⟨by decide, by decide⟩

end merger
