-- When the rounds of the merger end: one file at once is merged into one file,
-- and the work list stays as long as it was.
import Pwned.MergeRounds

open pwned

namespace merger

variable {Path : Type} [DecidableEq Path] {Q : PriorityQueue (@MergerInput.key Path)}

/-! ## The end of an operation -/

/-- What becomes of the queue depends on nothing else. -/
theorem next_pq_congr {d d' : MergeOperation Path} (fs fs' : FileSystem Path) (h : d.pq = d'.pq) :
    (next Q d fs).2.1.pq = (next Q d' fs').2.1.pq := by
  unfold next
  rw [h]
  cases d'.pq with
  | nil => simpa using h
  | cons m rest =>
    dsimp only
    split
    · split <;> rfl
    · split <;> split <;> rfl

theorem Merging.add_d (s : Merging Path) (p : PasswordHashAndCount) : (s.add p).d = s.d := by
  unfold Merging.add
  split <;> rfl

/-- The loop of `execute` goes on and ends with its queue, wherever it writes to. -/
theorem turn_congr {s s' : Merging Path} (h : s.d.pq = s'.d.pq) :
    (∀ u', turn Q s' = .inl u' → ∃ u, turn Q s = .inl u ∧ u.d.pq = u'.d.pq) ∧
      ∀ t', turn Q s' = .inr t' → ∃ t, turn Q s = .inr t := by
  have hpq := next_pq_congr (Q := Q) s.fs s'.fs h
  unfold turn
  dsimp only
  rw [hpq]
  constructor
  · intro u' hu'
    split at hu'
    · cases hu'
    · rename_i hgo
      rw [if_neg hgo]
      obtain rfl := Sum.inl.inj hu'
      refine ⟨_, rfl, ?_⟩
      rw [Merging.add_d, Merging.add_d]
  · intro t' ht'
    split at ht'
    · rename_i hstop
      rw [if_pos hstop]
      exact ⟨_, rfl⟩
    · cases ht'

theorem loop_ends_congr {s s' : Merging Path} (h : s.d.pq = s'.d.pq)
    (hends : Ends fun fuel => loop (turn Q) fuel s') : Ends fun fuel => loop (turn Q) fuel s := by
  obtain ⟨t', ht'⟩ := hends
  obtain ⟨t, ht, -⟩ := loop_simulates (turn Q) (turn Q) (fun s s' => s.d.pq = s'.d.pq)
    (fun _ _ => True) (fun s s' u' hs hu' => (turn_congr hs).1 u' hu')
    (fun s s' t' hs ht' => ((turn_congr hs).2 t' ht').imp fun _ ht => ⟨ht, trivial⟩) h ht'
  exact ⟨t, ht⟩

omit [DecidableEq Path] in
theorem create_dst {fs : FileSystem Path} {srcFiles : List Path} {dst : Path}
    {d : MergeOperation Path} (h : MergeOperation.create Q fs srcFiles dst false = some d)
    (dst' : Path) :
    MergeOperation.create Q fs srcFiles dst' false = some { d with dstFilePath := dst' } := by
  unfold MergeOperation.create at h ⊢
  cases hopen : openAll Q fs srcFiles 0 [] 0 with
  | none =>
    rw [hopen] at h
    cases h
  | some opened =>
    rw [hopen] at h
    obtain rfl := Option.some.inj h
    rfl

/-- The loop of an operation on source files ends. -/
theorem Sources.loop_ends {fs : FileSystem Path} {srcFiles : List Path} {files : List SourceFile}
    {dst : Path} (h : Sources fs srcFiles files dst) :
    ∃ d s, MergeOperation.create Q fs srcFiles dst false = some d ∧ s.d.pq = d.pq ∧ d.pq ≠ [] ∧
      Ends fun fuel => loop (turn Q) fuel s := by
  obtain ⟨d, s, m, c, inputs, hcreate, hstart, -, -, -, hinv, -⟩ :=
    h.starts (Q := Q) false (some [])
  obtain ⟨d', fs', calls, out, hcreate', hy, -⟩ := h.merges (Q := Q) false (some [])
  rw [hcreate] at hcreate'
  obtain rfl := Option.some.inj hcreate'
  simp only [execute, hstart] at hy
  obtain ⟨n, hn⟩ := hy.of_map
  obtain ⟨t, ht, -⟩ := hn n le_rfl
  have hpq : s.d.pq = d.pq ∧ d.pq ≠ [] := by
    unfold start at hstart
    split at hstart
    · cases hstart
    · rename_i hd
      split at hstart
      · obtain rfl := Option.some.inj (Except.ok.inj hstart)
        exact ⟨rfl, by simp [hd]⟩
      · cases hstart
  exact ⟨d, s, hcreate, hpq.1, hpq.2, t, loop_yields_of_eq (turn Q) ht⟩

/-- An operation on source files ends, wherever it writes to and whether it can. -/
theorem Sources.operation_ends {fs : FileSystem Path} {srcFiles : List Path}
    {files : List SourceFile} {dst : Path} (h : Sources fs srcFiles files dst) (dst' : Path) :
    ∃ op, MergeOperation.create Q fs srcFiles dst' false = some op ∧
      Ends fun fuel => startOperation Q fuel op fs := by
  obtain ⟨d, s, hcreate, hpq, hne, hends⟩ := h.loop_ends (Q := Q)
  refine ⟨{ d with dstFilePath := dst' }, create_dst hcreate dst', ?_⟩
  obtain ⟨top, rest, htop⟩ := List.exists_cons_of_ne_nil hne
  unfold startOperation execute start
  simp only [htop]
  by_cases hw : fs.writable dst' = true
  · obtain ⟨t, ht⟩ := loop_ends_congr (Q := Q)
      (s := { d := { d with dstFilePath := dst' }, fs := fs.create dst', current := top.phc,
              progressed := some [] }) hpq.symm hends
    rw [htop] at ht
    simp only [hw, if_true]
    exact ⟨_, (ht.map _).map _⟩
  · simp only [hw]
    exact ⟨fs, Yields.of_eq fun _ => rfl⟩

/-! ## The end of the rounds -/

/-- The loop of `main` goes on behind a round. -/
theorem mergeRounds_ends {o : Settings Path} {s : Rounds Path} (hne : s.inputFiles ≠ [])
    {op : MergeOperation Path}
    (hcreate : MergeOperation.create Q s.fs (s.chunk o).inputFileSlice (s.chunk o).targetFilename
      false = some op) {fs : FileSystem Path}
    (hop : Yields (fun fuel => startOperation Q fuel op s.fs) fs)
    (hrest : Ends fun fuel => mergeRounds Q o fuel ((s.begin o).advance (s.chunk o) fs)) :
    Ends fun fuel => mergeRounds Q o fuel s := by
  obtain ⟨t, ht⟩ := hrest
  refine ⟨t, Yields.of_shift 1 ?_⟩
  simp only [mergeRounds_of_ne_nil hne hcreate]
  exact hop.bind (fun fs fuel => mergeRounds Q o fuel ((s.begin o).advance (s.chunk o) fs)) ht

section Pending

variable {fs₀ : FileSystem Path} {filenames inputFiles : List Path}
  {originals files : List SourceFile} {o : Settings Path} {s : Rounds Path}

/-- A round before the last one replaces its chunk by one file. -/
theorem Pending.round (hwork : Workload fs₀ filenames originals o)
    (h : Pending fs₀ filenames originals o s files)
    (hlt : o.maxFilesAtOnce < s.inputFiles.length) :
    ∃ op fs' files', MergeOperation.create Q s.fs (s.chunk o).inputFileSlice
        (s.chunk o).targetFilename false = some op ∧
      Yields (fun fuel => startOperation Q fuel op s.fs) fs' ∧
      Pending fs₀ filenames originals o ((s.begin o).advance (s.chunk o) fs') files' ∧
      ((s.begin o).advance (s.chunk o) fs').inputFiles.length =
        s.inputFiles.length - o.maxFilesAtOnce + 1 := by
  have hne : s.inputFiles ≠ [] := List.ne_nil_of_length_pos (by omega)
  have htarget : (s.chunk o).targetFilename = o.uniquePath s.intermediateFilenames.length := by
    rw [chunk_of_lt hlt]
  have hwritable : s.fs.writable (s.chunk o).targetFilename = true := by
    rw [htarget, h.writable]
    exact hwork.writable _
  have hsources := h.sources_of hwork hne (htarget ▸ h.unique_not_mem hwork) hwritable
  obtain ⟨op, fs', out, hcreate, hy, hmerged⟩ := startOperation_yields (Q := Q) hsources
  obtain ⟨files', hpending, hlength⟩ := h.next hwork hlt hmerged
  exact ⟨op, fs', files', hcreate, hy, hpending, hlength⟩

/-- The last round empties the work list. -/
theorem Pending.last_round (hwork : Workload fs₀ filenames originals o)
    (h : Pending fs₀ filenames originals o s files) (hne : s.inputFiles ≠ [])
    (hle : s.inputFiles.length ≤ o.maxFilesAtOnce) :
    Ends fun fuel => mergeRounds Q o fuel s := by
  have hwritable : s.fs.writable (o.uniquePath s.intermediateFilenames.length) = true := by
    rw [h.writable]
    exact hwork.writable _
  have hsources := h.sources_of hwork hne (h.unique_not_mem hwork) hwritable
  obtain ⟨op, hcreate, fs', hy⟩ := hsources.operation_ends (Q := Q) (s.chunk o).targetFilename
  apply mergeRounds_ends hne hcreate hy
  refine ⟨_, mergeRounds_of_nil ?_⟩
  rw [chunk_of_le hle]
  rfl

/-- Two or more at once make the work list shorter in every round. -/
theorem Pending.ends (hwork : Workload fs₀ filenames originals o) (htwo : 2 ≤ o.maxFilesAtOnce)
    (n : Nat) :
    ∀ {s : Rounds Path} {files : List SourceFile}, s.inputFiles.length = n →
      Pending fs₀ filenames originals o s files → s.inputFiles ≠ [] →
      Ends fun fuel => mergeRounds Q o fuel s := by
  induction n using Nat.strong_induction_on with
  | _ n ih =>
    intro s files hn h hne
    rcases Nat.lt_or_ge o.maxFilesAtOnce s.inputFiles.length with hlt | hle
    · obtain ⟨op, fs', files', hcreate, hy, hpending, hlength⟩ := h.round (Q := Q) hwork hlt
      apply mergeRounds_ends hne hcreate hy
      apply ih _ _ rfl hpending
      · apply List.ne_nil_of_length_pos
        omega
      · omega
    · exact h.last_round hwork hne hle

/-- Two or more files. -/
def Crowded (fs₀ : FileSystem Path) (filenames : List Path) (originals : List SourceFile)
    (o : Settings Path) (s : Rounds Path) : Prop :=
  2 ≤ s.inputFiles.length ∧ ∃ files, Pending fs₀ filenames originals o s files

/-- One file at once is merged into one file, so every round is followed by another. -/
theorem Crowded.round (hwork : Workload fs₀ filenames originals o) (hone : o.maxFilesAtOnce = 1)
    (h : Crowded fs₀ filenames originals o s) :
    ∃ op fs', MergeOperation.create Q s.fs (s.chunk o).inputFileSlice
        (s.chunk o).targetFilename false = some op ∧
      Yields (fun fuel => startOperation Q fuel op s.fs) fs' ∧
      Crowded fs₀ filenames originals o ((s.begin o).advance (s.chunk o) fs') := by
  obtain ⟨htwo, files, hpending⟩ := h
  obtain ⟨op, fs', files', hcreate, hy, hpending', hlength⟩ :=
    hpending.round (Q := Q) hwork (by omega)
  exact ⟨op, fs', hcreate, hy, by omega, files', hpending'⟩

end Pending

/-- An operation gives one result. -/
theorem startOperation_unique {op : MergeOperation Path} {fs fs₁ fs₂ : FileSystem Path} {n : Nat}
    (h : startOperation Q n op fs = some fs₁)
    (hy : Yields (fun fuel => startOperation Q fuel op fs) fs₂) : fs₁ = fs₂ := by
  have hyields : Yields (fun fuel => startOperation Q fuel op fs) fs₁ := by
    unfold startOperation execute at h ⊢
    cases hstart : start op fs (some []) with
    | error e =>
      rw [hstart] at h
      exact Yields.of_eq fun _ => h
    | ok started =>
      rw [hstart] at h
      cases started with
      | none => exact Yields.of_eq fun _ => h
      | some s =>
        obtain ⟨res, hres, rfl⟩ := Option.map_eq_some_iff.mp h
        obtain ⟨t, ht, rfl⟩ := Option.map_eq_some_iff.mp hres
        exact ((loop_yields_of_eq (turn Q) ht).map _).map _
  exact hyields.unique hy

section Rounds

variable {fs₀ : FileSystem Path} {filenames inputFiles : List Path}
  {originals files : List SourceFile} {o : Settings Path} {s : Rounds Path}

theorem Crowded.goes_on (hwork : Workload fs₀ filenames originals o)
    (hone : o.maxFilesAtOnce = 1) (fuel : Nat) :
    ∀ {s : Rounds Path}, Crowded fs₀ filenames originals o s → mergeRounds Q o fuel s = none := by
  induction fuel with
  | zero => exact fun _ => rfl
  | succ fuel ih =>
    intro s h
    have hne : s.inputFiles ≠ [] := List.ne_nil_of_length_pos (by have := h.1; omega)
    obtain ⟨op, fs', hcreate, hy, hcrowded⟩ := h.round (Q := Q) hwork hone
    rw [mergeRounds_of_ne_nil hne hcreate]
    cases hop : startOperation Q fuel op s.fs with
    | none => rfl
    | some fs =>
      obtain rfl := startOperation_unique hop hy
      exact ih hcrowded

theorem Crowded.diverges (hwork : Workload fs₀ filenames originals o)
    (hone : o.maxFilesAtOnce = 1) (h : Crowded fs₀ filenames originals o s) :
    Diverges fun fuel => mergeRounds Q o fuel s :=
  ⟨0, fun fuel _ => h.goes_on hwork hone fuel⟩

end Rounds

/-! ## One file at once -/

def oneAtOnce : Settings Nat := { dstFile := 2, maxFilesAtOnce := 1, uniquePath := (3 + ·) }

theorem workload_disk {files : List SourceFile} (hne : files ≠ []) {o : Settings Nat}
    (hatOnce : 1 ≤ o.maxFilesAtOnce) (hunique : Function.Injective o.uniquePath)
    (hfresh : ∀ k, files.length ≤ o.uniquePath k) :
    Workload (disk files) (List.range files.length) files o :=
  ⟨(sources_disk hne).contents, hne, hatOnce, hunique,
    fun k h => absurd (hfresh k) (by simpa using h), fun _ => rfl⟩

end merger
