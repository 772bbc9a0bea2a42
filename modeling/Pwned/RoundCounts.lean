-- The counts over all rounds of a merge: an operation takes some records a
-- second time, so a count may grow with every operation that a record goes
-- through but never gets lost.
import Pwned.Library.Layers
import Pwned.MergeCounts
import Pwned.MergeRounds

open pwned

namespace merger

/-! ## One operation -/

theorem tally_single_le {r : Record} {rs : List Record} (h : r ∈ rs) (k : Nat) :
    tally [r] k ≤ tally rs k := by
  obtain ⟨as, bs, rfl⟩ := List.append_of_mem h
  rw [tally_append, tally_cons, tally_cons, tally_nil]
  omega

theorem tally_last_le (files : List SourceFile) (k : Nat) :
    tally (files.map SourceFile.last) k ≤ tally (allRecords files) k := by
  rw [allRecords, tally_flatMap, tally_map]
  exact List.sum_le_sum fun src _ => tally_single_le src.last_mem k

theorem tally_sublist {rs ss : List Record} (h : rs.Sublist ss) (k : Nat) :
    tally rs k ≤ tally ss k := (h.map _).sum_le_sum fun _ _ => Nat.zero_le _

/-- No hash is counted more than three times by one operation. -/
theorem tally_takenTwice_le (files : List SourceFile) (i j : Fin files.length) (k : Nat) :
    tally (takenTwice files i j) k ≤ 2 * tally (allRecords files) k := by
  have hfirst : tally [files[i].first] k ≤ tally (allRecords files) k :=
    tally_single_le (takenTwice_subset i j _ (List.mem_cons_self ..)) k
  have hlast := tally_last_le files k
  have herase : tally ((files.eraseIdx j).map SourceFile.last) k ≤
      tally (files.map SourceFile.last) k :=
    tally_sublist ((List.eraseIdx_sublist files j).map _) k
  have hsplit : tally (takenTwice files i j) k =
      tally [files[i].first] k + tally ((files.eraseIdx j).map SourceFile.last) k :=
    tally_append [files[i].first] _ k
  omega

theorem StrictlyIncreasing.tally_lt {rs : List Record} (h : StrictlyIncreasing rs) (k : Nat) :
    tally rs k < 2 ^ 32 := by
  by_cases hk : ∃ r ∈ rs, r.key = k
  · obtain ⟨r, hr, rfl⟩ := hk
    rw [pwned.StrictlyIncreasing.tally_eq h hr]
    exact r.count.isLt
  · rw [tally_eq_zero fun r hr hrk => hk ⟨r, hr, hrk⟩]
    decide

/-- The sums of the counts are at least those of the originals, and at most `n` times as large,
as long as that fits a count. -/
def Bounds (originals rs : List Record) (n : Nat) : Prop :=
  ∀ k, n * tally originals k < 2 ^ 32 →
    tally originals k ≤ tally rs k ∧ tally rs k ≤ n * tally originals k

theorem Bounds.mono {rs ss : List Record} {m n : Nat} (h : Bounds rs ss m) (hle : m ≤ n) :
    Bounds rs ss n := by
  intro k hk
  have hmul : m * tally rs k ≤ n * tally rs k := Nat.mul_le_mul_right _ hle
  obtain ⟨hlo, hhi⟩ := h k (hmul.trans_lt hk)
  exact ⟨hlo, hhi.trans hmul⟩

theorem Bounds.trans {rs ss ts : List Record} {m n : Nat} (h : Bounds rs ss m)
    (h' : Bounds ss ts n) (hn : 0 < n) : Bounds rs ts (n * m) := by
  intro k hk
  rw [Nat.mul_assoc] at hk ⊢
  obtain ⟨hlo, hhi⟩ := h k ((Nat.le_mul_of_pos_left _ hn).trans_lt hk)
  have hmul : n * tally ss k ≤ n * (m * tally rs k) := Nat.mul_le_mul_left _ hhi
  obtain ⟨hlo', hhi'⟩ := h' k (hmul.trans_lt hk)
  exact ⟨hlo.trans hlo', hhi'.trans hmul⟩

variable {Path : Type} {fs₀ : FileSystem Path} {filenames inputFiles : List Path}
  {originals files : List SourceFile} {o : Settings Path} {s : Rounds Path}

theorem bounds_of_counts {out : List Record} {i j : Fin files.length}
    (hinc : StrictlyIncreasing out)
    (hcounts : ∀ k, tally out k ≡
      tally (allRecords files) k + tally (takenTwice files i j) k [MOD 2 ^ 32]) :
    Bounds (allRecords files) out 3 := by
  intro k hk
  have htwice := tally_takenTwice_le files i j k
  have heq : tally out k = tally (allRecords files) k + tally (takenTwice files i j) k :=
    (hcounts k).eq_of_lt_of_lt (StrictlyIncreasing.tally_lt hinc k) (by omega)
  omega

/-! ## All rounds -/

theorem SourceFile.eq_of_records {a b : SourceFile} (h : a.records = b.records) : a = b := by
  cases a
  cases b
  cases h
  rfl

/-- Two lists of source files at the same paths are the same. -/
theorem contents_unique {fs : FileSystem Path} {paths : List Path} {gs : List SourceFile}
    (h : List.Forall₂ (fun path src => fs.files path = some (encodeAll src.records)) paths files)
    (h' : List.Forall₂ (fun path src => fs.files path = some (encodeAll src.records)) paths gs) :
    files = gs := by
  induction h generalizing gs with
  | nil =>
    cases h'
    rfl
  | cons hsrc _ ih =>
    cases h' with
    | cons hsrc' hrest =>
      have hrecords := encodeAll_injective (Option.some.inj (hsrc.symm.trans hsrc'))
      rw [SourceFile.eq_of_records hrecords, ih hrest]

/-- The work list behind a round: the files that were not in the chunk, and the result. -/
theorem Pending.next_files {files' : List SourceFile}
    (hwork : Workload fs₀ filenames originals o) (h : Pending fs₀ filenames originals o s files)
    (hlt : o.maxFilesAtOnce < s.inputFiles.length) {fs' : FileSystem Path} {out : List Record}
    {K : Nat → Prop} (hmerged : Merged s.fs K (s.chunk o).targetFilename false fs' out)
    (h' : Pending fs₀ filenames originals o ((s.begin o).advance (s.chunk o) fs') files') :
    ∃ src, src.records = out ∧ files' = files.drop o.maxFilesAtOnce ++ [src] := by
  have htarget := h.unique_not_mem hwork
  rw [chunk_of_lt hlt] at hmerged
  have hcontents := h'.contents
  unfold Rounds.begin Rounds.advance at hcontents
  simp only [chunk_of_lt hlt, Bool.false_eq_true, if_false] at hcontents
  have hgs := List.forall₂_take (s.inputFiles.drop o.maxFilesAtOnce).length hcontents
  have hlast := List.forall₂_drop (s.inputFiles.drop o.maxFilesAtOnce).length hcontents
  rw [List.take_left] at hgs
  rw [List.drop_left] at hlast
  have hrest : files.drop o.maxFilesAtOnce =
      files'.take (s.inputFiles.drop o.maxFilesAtOnce).length := by
    refine contents_unique (List.forall₂_drop o.maxFilesAtOnce h.contents) ?_
    have hapart : ∀ p ∈ s.inputFiles.drop o.maxFilesAtOnce,
        p ≠ o.uniquePath s.intermediateFilenames.length := fun p hp he =>
      htarget (he ▸ List.mem_of_mem_drop hp)
    refine ((List.forall₂_and_left _ _).mpr ⟨hapart, hgs⟩).imp ?_
    rintro p src ⟨hp, hfile⟩
    rw [← hmerged.frame.files rfl p hp, hfile]
  obtain ⟨src, hsrc, hnil⟩ : ∃ src,
      fs'.files (o.uniquePath s.intermediateFilenames.length) = some (encodeAll src.records) ∧
        files'.drop (s.inputFiles.drop o.maxFilesAtOnce).length = [src] := by
    generalize files'.drop (s.inputFiles.drop o.maxFilesAtOnce).length = last at hlast
    obtain _ | ⟨hfile, hnil⟩ := hlast
    cases hnil
    exact ⟨_, hfile, rfl⟩
  refine ⟨src, encodeAll_injective (Option.some.inj (hsrc.symm.trans hmerged.written)), ?_⟩
  rw [hrest, ← hnil, List.take_append_drop]

/-- The files of the work list are made of the parts, which are records of the originals with the
number of operations that they went through: each can have made a count three times as high. -/
structure MadeOf (originals files : List SourceFile) (parts : List (List Record × Nat)) :
    Prop where
  bounds : List.Forall₂ (fun src part => Bounds part.1 src.records (3 ^ part.2)) files parts
  perm : (parts.flatMap Prod.fst).Perm (allRecords originals)

theorem bounds_of_parts {parts : List (List Record × Nat)} {l : Nat}
    (h : List.Forall₂ (fun src part => Bounds part.1 src.records (3 ^ part.2)) files parts)
    (hl : ∀ part ∈ parts, part.2 ≤ l) :
    Bounds (parts.flatMap Prod.fst) (allRecords files) (3 ^ l) := by
  induction h with
  | nil => exact fun k _ => ⟨le_rfl, Nat.zero_le _⟩
  | cons hpart h ih =>
    rename_i src part files parts
    have hfirst := hpart.mono (Nat.pow_le_pow_right (by decide) (hl part (by simp)))
    intro k hk
    rw [List.flatMap_cons, tally_append, Nat.mul_add] at hk
    rw [List.flatMap_cons, tally_append, allRecords, List.flatMap_cons, tally_append, Nat.mul_add]
    obtain ⟨hlo, hhi⟩ := hfirst k (by omega)
    obtain ⟨hlo', hhi'⟩ := ih (fun part hp => hl part (by simp [hp])) k (by omega)
    exact ⟨Nat.add_le_add hlo hlo', Nat.add_le_add hhi hhi'⟩

/-- What a round makes of the parts. -/
theorem MadeOf.next {parts : List (List Record × Nat)} {src : SourceFile} {c l : Nat}
    (h : MadeOf originals files parts) (hl : ∀ part ∈ parts.take c, part.2 ≤ l)
    (hsrc : Bounds (allRecords (files.take c)) src.records 3) :
    MadeOf originals (files.drop c ++ [src])
      (parts.drop c ++ [((parts.take c).flatMap Prod.fst, l + 1)]) := by
  refine ⟨?_, ?_⟩
  · refine List.rel_append (List.forall₂_drop c h.bounds) (List.Forall₂.cons ?_ List.Forall₂.nil)
    rw [pow_succ']
    exact (bounds_of_parts (List.forall₂_take c h.bounds) hl).trans hsrc (by decide)
  · rw [List.flatMap_append, List.flatMap_singleton]
    refine List.perm_append_comm.trans ?_
    rw [← List.flatMap_append, List.take_append_drop]
    exact h.perm

theorem MadeOf.all {parts : List (List Record × Nat)} {l : Nat} {out : List Record}
    (h : MadeOf originals files parts) (hl : ∀ part ∈ parts, part.2 ≤ l)
    (hout : Bounds (allRecords files) out 3) : Bounds (allRecords originals) out (3 ^ (l + 1)) := by
  rw [pow_succ']
  have hparts := (bounds_of_parts h.bounds hl).trans hout (by decide)
  intro k hk
  rw [← tally_perm h.perm] at hk ⊢
  exact hparts k hk

/-- The operations for `n` files. -/
def operationCount (n maxFilesAtOnce : Nat) : Nat := 1 + (n - 2) / (maxFilesAtOnce - 1)

theorem operationCount_of_le {n c : Nat} (hc : 2 ≤ c) (h : n ≤ c) : operationCount n c = 1 := by
  rw [operationCount, Nat.div_eq_of_lt (by omega)]

theorem operationCount_of_lt {n c : Nat} (hc : 2 ≤ c) (h : c < n) :
    operationCount n c = operationCount (n - c + 1) c + 1 := by
  have hn : n - 2 = (n - c + 1 - 2) + (c - 1) := by omega
  rw [operationCount, operationCount, hn, Nat.add_div_right _ (by omega)]
  omega

/-- No record goes through more operations when `n` files are merged `maxFilesAtOnce` at once: a
result goes to the end of the list, so they are hardly more than the layers of a full tree. -/
def passes (n maxFilesAtOnce : Nat) : Nat := Nat.clog maxFilesAtOnce n + 1

/-- What the destination holds when the loop has ended. -/
structure Settled (originals : List SourceFile) (o : Settings Path) (files n : Nat)
    (s : Rounds Path) (out : List Record) : Prop where
  written : s.fs.files o.dstFile = some (encodeAll out)
  increasing : StrictlyIncreasing out
  hashes : ∀ k, k ∈ keys out ↔ InSources originals k
  operations : s.operations.length = n
  bounds : Bounds (allRecords originals) out (3 ^ n)
  bounds_passes : Bounds (allRecords originals) out (3 ^ passes files o.maxFilesAtOnce)

/-- A work list of a job of `n` files, with what its files are made of and how many operations
that took. -/
structure Grown (originals : List SourceFile) (o : Settings Path) (n : Nat) (s : Rounds Path)
    (files : List SourceFile) (parts : List (List Record × Nat)) : Prop where
  madeOf : MadeOf originals files parts
  layered : Layered o.maxFilesAtOnce n (parts.map Prod.snd)
  operations : ∀ part ∈ parts, part.2 ≤ s.operations.length

theorem Grown.next {n : Nat} {parts : List (List Record × Nat)} {src : SourceFile}
    {s' : Rounds Path} (h : Grown originals o n s files parts) (hatOnce : 2 ≤ o.maxFilesAtOnce)
    (hlt : o.maxFilesAtOnce < files.length)
    (hsrc : Bounds (allRecords (files.take o.maxFilesAtOnce)) src.records 3)
    (hops : s'.operations.length = s.operations.length + 1) :
    ∃ parts', Grown originals o n s' (files.drop o.maxFilesAtOnce ++ [src]) parts' := by
  have hlen := h.madeOf.bounds.length_eq
  obtain ⟨l, hl, hmax, hlayered⟩ := h.layered.step hatOnce (by simp; omega)
  rw [← List.map_take] at hl hmax
  obtain ⟨part, hpart, rfl⟩ := List.mem_map.mp hl
  refine ⟨_, h.madeOf.next (l := part.2) (fun q hq => hmax _ (List.mem_map_of_mem hq)) hsrc, ?_,
    fun q hq => ?_⟩
  · rw [List.map_append, List.map_drop]
    exact hlayered
  · rw [hops]
    rcases List.mem_append.mp hq with hq | hq
    · exact (h.operations q (List.mem_of_mem_drop hq)).trans (Nat.le_succ _)
    · rw [List.mem_singleton.mp hq]
      exact Nat.succ_le_succ (h.operations part (List.mem_of_mem_take hpart))

theorem Grown.last {n : Nat} {parts : List (List Record × Nat)} {out : List Record}
    (h : Grown originals o n s files parts) (hatOnce : 2 ≤ o.maxFilesAtOnce)
    (hout : Bounds (allRecords files) out 3) :
    Bounds (allRecords originals) out (3 ^ (s.operations.length + 1)) ∧
      Bounds (allRecords originals) out (3 ^ passes n o.maxFilesAtOnce) := by
  refine ⟨h.madeOf.all h.operations hout, h.madeOf.all (fun part hp => ?_) hout⟩
  exact h.layered.le_clog hatOnce _ (List.mem_map_of_mem hp)

variable [DecidableEq Path] {Q : PriorityQueue (@MergerInput.key Path)}

theorem startOperation_counts {srcFiles : List Path} {dst : Path}
    (h : Sources s.fs srcFiles files dst) :
    ∃ op fs' out, MergeOperation.create Q s.fs srcFiles dst false = some op ∧
      Yields (fun fuel => startOperation Q fuel op s.fs) fs' ∧
      Merged s.fs (InSources files) dst false fs' out ∧ Bounds (allRecords files) out 3 := by
  obtain ⟨op, fs', calls, out, hcreate, hy, hmerged, i, j, -, hcounts⟩ :=
    h.counts Q false (some [])
  exact ⟨op, fs', out, hcreate, hy.map _, hmerged, bounds_of_counts hmerged.increasing hcounts⟩

/-- The rounds take the number of operations for the files, and each operation takes the bounds of
the counts of its inputs three times as high. -/
theorem Pending.counts (hjob : Job fs₀ filenames originals o) {total : Nat} (n : Nat) :
    ∀ {s : Rounds Path} {files : List SourceFile} {parts : List (List Record × Nat)},
      s.inputFiles.length = n → Pending fs₀ filenames originals o s files → s.inputFiles ≠ [] →
      Grown originals o total s files parts →
      ∃ s' out, Yields (fun fuel => mergeRounds Q o fuel s) s' ∧
        Done filenames originals o s' ∧
        Settled originals o total (s.operations.length + operationCount n o.maxFilesAtOnce) s'
          out := by
  induction n using Nat.strong_induction_on with
  | _ n ih =>
    intro s files parts hn h hne hgrown
    obtain ⟨op, fs', out, hcreate, hy, hmerged, hout⟩ :=
      startOperation_counts (Q := Q) (h.sources hjob hne)
    have hround : ∀ {s'}, Yields (fun fuel => mergeRounds Q o fuel
        ((s.begin o).advance (s.chunk o) fs')) s' →
        Yields (fun fuel => mergeRounds Q o fuel s) s' := by
      intro s' hrest
      refine Yields.of_shift 1 ?_
      simp only [mergeRounds_of_ne_nil hne hcreate]
      exact hy.bind (fun fs fuel => mergeRounds Q o fuel
        ((s.begin o).advance (s.chunk o) fs)) hrest
    have hops : ((s.begin o).advance (s.chunk o) fs').operations.length =
        s.operations.length + 1 := by
      simp [Rounds.begin, Rounds.advance]
    have hatOnce := hjob.atOnce
    rcases Nat.lt_or_ge o.maxFilesAtOnce s.inputFiles.length with hlt | hle
    · obtain ⟨files', hpending, hlength⟩ := h.next hjob.workload hlt hmerged
      obtain ⟨src, rfl, rfl⟩ := h.next_files hjob.workload hlt hmerged hpending
      obtain ⟨parts', hgrown'⟩ :=
        hgrown.next hatOnce (h.contents.length_eq ▸ hlt) hout hops
      have hne' : ((s.begin o).advance (s.chunk o) fs').inputFiles ≠ [] :=
        List.ne_nil_of_length_pos (by omega)
      obtain ⟨s', out', hrest, hdone, hsettled⟩ :=
        ih _ (by omega) rfl hpending hne' hgrown'
      refine ⟨s', out', hround hrest, hdone, ?_⟩
      have hcount : s.operations.length + operationCount n o.maxFilesAtOnce =
          s.operations.length + 1 + operationCount (n - o.maxFilesAtOnce + 1) o.maxFilesAtOnce := by
        rw [operationCount_of_lt hatOnce (hn ▸ hlt)]
        omega
      rw [hcount, ← hops, ← hn, ← hlength]
      exact hsettled
    · have hdone := h.last hle hmerged
      have htake : files.take o.maxFilesAtOnce = files := by
        rw [List.take_of_length_le]
        rw [← h.contents.length_eq]
        exact hle
      rw [htake] at hout hmerged
      obtain ⟨hbounds, hpasses⟩ := hgrown.last hatOnce hout
      refine ⟨_, out, hround (mergeRounds_of_nil hdone.empty), hdone, ?_⟩
      rw [operationCount_of_le hatOnce (hn ▸ hle)]
      rw [chunk_of_le hle] at hmerged
      refine ⟨?_, hmerged.increasing, fun k => ?_, hops, hbounds, hpasses⟩
      · exact hmerged.written
      · rw [← hmerged.hashes, h.hashes]

/-- The merge of a job, from its start. -/
theorem Job.settles (Q : PriorityQueue (@MergerInput.key Path)) {fs : FileSystem Path}
    (hjob : Job fs filenames files o) (hsorted : SortedBySize fs filenames inputFiles) :
    ∃ s out, Yields (fun fuel => mergeRounds Q o fuel { inputFiles, fs }) s ∧
      Done filenames files o s ∧
      Settled files o filenames.length (operationCount filenames.length o.maxFilesAtOnce) s
        out := by
  obtain ⟨files', hpending⟩ := pending_start hjob.workload hsorted
  have hlen := hsorted.perm.length_eq
  have hne : inputFiles ≠ [] := by
    intro hnil
    rw [hnil, hjob.contents.length_eq] at hlen
    exact hjob.nonempty (List.length_eq_zero_iff.mp hlen.symm)
  have hfiles : files'.length = filenames.length := by
    rw [← hpending.contents.length_eq, hlen]
  have hpos := List.length_pos_iff.mpr hne
  have hgrown : Grown files o filenames.length { inputFiles, fs : Rounds Path } files'
      (files'.map fun src => (src.records, 0)) := by
    refine ⟨⟨?_, ?_⟩, ?_, ?_⟩
    · rw [List.forall₂_map_right_iff, List.forall₂_same]
      exact fun src _ k _ => ⟨le_rfl, (Nat.one_mul _).ge⟩
    · rw [List.flatMap_map]
      obtain ⟨gs, hcontents, hgs⟩ := List.perm_comp_forall₂ hsorted.perm hjob.contents
      rw [contents_unique hpending.contents hcontents]
      exact hgs.flatMap_right _
    · have hzero : (files'.map fun src => (src.records, 0)).map Prod.snd =
          List.replicate filenames.length 0 := by
        rw [List.map_map, ← hfiles]
        exact List.map_eq_replicate_iff.mpr fun _ _ => rfl
      rw [hzero]
      exact layered_replicate hjob.atOnce (by omega)
    · intro part hp
      obtain ⟨src, -, rfl⟩ := List.mem_map.mp hp
      exact Nat.zero_le _
  obtain ⟨s, out, hy, hdone, hsettled⟩ := Pending.counts (Q := Q) hjob _ hlen hpending hne hgrown
  rw [List.length_nil, Nat.zero_add] at hsettled
  exact ⟨s, out, hy, hdone, hsettled⟩

/-- The files that `cleanUp` removes are not the destination. -/
theorem Settled.cleanUp {total n : Nat} {out : List Record}
    (h : Settled originals o total n s out)
    (hjob : Job fs₀ filenames originals o) (hdone : Done filenames originals o s) :
    (merger.cleanUp s).files o.dstFile = some (encodeAll out) := by
  rw [merger.cleanUp, foldl_remove_files _ (hdone.dst_not_mem hjob), h.written]

/-- The rounds take one operation and another one for each `maxFilesAtOnce - 1` of the files beyond
two. What the destination counts under a hash is no less than the sources count together, and no
more than three times as much for every operation, as long as that fits 32 bits. -/
theorem merging_in_rounds_bounds_the_counts (Q : PriorityQueue (@MergerInput.key Path))
    {fs : FileSystem Path} (hjob : Job fs filenames files o)
    (hsorted : SortedBySize fs filenames inputFiles) :
    ∃ s out, Yields (fun fuel => mergeRounds Q o fuel { inputFiles, fs }) s ∧
      s.operations.length = 1 + (filenames.length - 2) / (o.maxFilesAtOnce - 1) ∧
      (cleanUp s).files o.dstFile = some (encodeAll out) ∧ StrictlyIncreasing out ∧
      ∀ k, 3 ^ s.operations.length * tally (allRecords files) k < 2 ^ 32 →
        tally (allRecords files) k ≤ tally out k ∧
          tally out k ≤ 3 ^ s.operations.length * tally (allRecords files) k := by
  obtain ⟨s, out, hy, hdone, hsettled⟩ := hjob.settles Q hsorted
  refine ⟨s, out, hy, hsettled.operations, hsettled.cleanUp hjob hdone, hsettled.increasing, ?_⟩
  rw [hsettled.operations]
  exact hsettled.bounds

theorem merging_in_rounds_bounds_the_counts_three :
    ∃ s out, Yields (fun fuel => mergeRounds byHash twoAtOnce fuel
        { inputFiles := [1, 0, 2], fs := disk three }) s ∧
      s.operations.length = 1 + ([0, 1, 2].length - 2) / (2 - 1) ∧
      (cleanUp s).files 3 = some (encodeAll out) ∧ StrictlyIncreasing out ∧
      ∀ k, 3 ^ s.operations.length * tally (allRecords three) k < 2 ^ 32 →
        tally (allRecords three) k ≤ tally out k ∧
          tally out k ≤ 3 ^ s.operations.length * tally (allRecords three) k := by
  have hjob : Job (disk three) [0, 1, 2] three twoAtOnce :=
    { contents := (sources_disk (by decide : three ≠ [])).contents
      nonempty := by decide
      apart := by decide
      atOnce := by decide
      unique := fun a b h => Nat.add_left_cancel h
      fresh := fun k => by simp [twoAtOnce]; omega
      writable := fun _ _ => rfl }
  exact merging_in_rounds_bounds_the_counts byHash hjob ⟨by decide, by decide⟩

end merger
