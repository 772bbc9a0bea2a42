-- Conversions that run at once. Each goes through the lines of its own file,
-- and they share the directory of their chunks.
import Pwned.ConvertNames

namespace pwned

namespace ConvertThreads

open ConvertOperation ConvertNames

/-- The directory, and the variables of `execute` in every conversion. -/
structure Threads (ι : Type) where
  dir : Directory ι
  /-- The files are those of the directory. -/
  vars : ι → Converting
  /-- What is still to be dumped into the open chunk. -/
  rest : ι → List PasswordHashAndCount

inductive Move (ι : Type)
  /-- A turn of the inner loop. -/
  | count (i : ι)
  /-- The inner loop is over, and the map is empty. -/
  | skip (i : ι)
  /-- The inner loop is over, and the map has been copied and sorted. -/
  | sort (i : ι)
  /-- The condition of the loop over the names. -/
  | test (i : ι)
  /-- `std::ofstream f(dstFilePath)` -/
  | create (i : ι)
  /-- `phc.dump(f)` -/
  | dump (i : ι)
  /-- `f.close()` -/
  | close (i : ι)

section Steps

variable {ι : Type} [DecidableEq ι] (md5 : List UInt8 → Vector UInt8 16)
  (d : ι → ConvertOperation)

/-- The condition of the inner loop. -/
def goesOn (d : ConvertOperation) (v : Converting) : Bool :=
  !v.reader.eof && !v.reader.bad && decide (v.memUsage < d.maxMem)

def Threads.set (s : Threads ι) (i : ι) (v : Converting) : Threads ι :=
  { s with vars := Function.update s.vars i v }

/-- A conversion notes the chunk for the path that it has chosen. -/
def noteChunk (fs : FileSystem Path) (dstFilePath : Path) (v : Converting) : Converting :=
  let chunk : Chunk :=
    { path := dstFilePath, existed := fs.fileExists dstFilePath,
      opened := fs.writable dstFilePath, passwordList := passwordList v.passwordCountSet }
  { v with chunks := v.chunks ++ [chunk] }

/-- One step of one of the conversions, none where the conversion stands elsewhere. -/
def step (s : Threads ι) : Move ι → Option (Threads ι)
  | .count i =>
    match s.dir.stage i with
    | .counting _ =>
      if goesOn (d i) (s.vars i) then some (s.set i (countLine md5 (s.vars i))) else none
    | _ => none
  | .skip i =>
    match s.dir.stage i with
    | .counting _ =>
      if !goesOn (d i) (s.vars i) && (s.vars i).passwordCountSet.isEmpty && !(s.vars i).reader.eof
      then some (s.set i (nextChunk (s.vars i)))
      else none
    | _ => none
  | .sort i =>
    if !goesOn (d i) (s.vars i) && !(s.vars i).passwordCountSet.isEmpty then
      (ConvertNames.step d s.dir (.sorted i (s.vars i).splitFileNum)).map fun dir => { s with dir }
    else none
  | .test i => (ConvertNames.step d s.dir (.test i)).map fun dir => { s with dir }
  | .create i =>
    match s.dir.stage i with
    | .chosen _ dstFilePath =>
      let v := noteChunk s.dir.fs dstFilePath (s.vars i)
      (ConvertNames.step d s.dir (.create i)).map fun dir =>
        if s.dir.fs.writable dstFilePath then
          { s.set i v with
            dir, rest := Function.update s.rest i (passwordList v.passwordCountSet) }
        else { s.set i (nextChunk v) with dir }
    | _ => none
  | .dump i =>
    match s.rest i with
    | phc :: rest =>
      (ConvertNames.step d s.dir (.dump i phc)).map fun dir =>
        { s with dir, rest := Function.update s.rest i rest }
    | [] => none
  | .close i =>
    match s.rest i with
    | [] =>
      (ConvertNames.step d s.dir (.close i)).map fun dir =>
        { s.set i (nextChunk (s.vars i)) with dir }
    | _ => none

/-- Every conversion has opened its reader. -/
def start (fs : FileSystem Path) : Threads ι where
  dir := ConvertNames.start fs
  vars i := nextChunk { reader := UserPasswordReader.create (d i).inputFile (d i).options, fs }
  rest _ := []

end Steps

/-! ## What one step can do -/

section Cases

variable {ι : Type} [DecidableEq ι] {md5 : List UInt8 → Vector UInt8 16}
  {d : ι → ConvertOperation} {s s' : Threads ι} {i : ι}

theorem step_count_iff : step md5 d s (.count i) = some s' ↔
    (∃ k, s.dir.stage i = .counting k) ∧ goesOn (d i) (s.vars i) = true ∧
      s' = s.set i (countLine md5 (s.vars i)) := by
  unfold step
  dsimp only
  split
  · rename_i k hi
    rw [Option.ite_none_right_eq_some, Option.some_inj, eq_comm (a := s')]
    simp [hi]
  · rename_i hi
    exact iff_of_false nofun fun h => h.1.elim hi

theorem step_skip_iff : step md5 d s (.skip i) = some s' ↔
    (∃ k, s.dir.stage i = .counting k) ∧ goesOn (d i) (s.vars i) = false ∧
      (s.vars i).passwordCountSet = [] ∧ (s.vars i).reader.eof = false ∧
      s' = s.set i (nextChunk (s.vars i)) := by
  unfold step
  dsimp only
  split
  · rename_i k hi
    rw [Option.ite_none_right_eq_some, Option.some_inj, eq_comm (a := s')]
    simp [hi, and_assoc]
  · rename_i hi
    exact iff_of_false nofun fun h => h.1.elim hi

theorem step_sort_iff : step md5 d s (.sort i) = some s' ↔
    (∃ k, s.dir.stage i = .counting k ∧ k < (s.vars i).splitFileNum) ∧
      goesOn (d i) (s.vars i) = false ∧ (s.vars i).passwordCountSet ≠ [] ∧
      s' = { s with dir := s.dir.goTo i (.searching (s.vars i).splitFileNum
        (s.vars i).splitFileNum ((d i).firstName (s.vars i).splitFileNum)) } := by
  unfold step ConvertNames.step
  dsimp only
  split
  · rename_i hgo
    rw [Bool.and_eq_true, Bool.not_eq_true', Bool.not_eq_true', List.isEmpty_eq_false_iff] at hgo
    split
    · rename_i k hi
      split
      · rename_i hk
        simp [hi, hk, hgo, eq_comm]
      · rename_i hk
        simp [hi, hk]
    · rename_i hi
      exact iff_of_false nofun fun ⟨⟨k, hk, _⟩, _⟩ => hi k hk
  · rename_i hgo
    refine iff_of_false nofun fun ⟨_, hfalse, hne, _⟩ => hgo ?_
    simp [hfalse, hne]

theorem step_test_iff : step md5 d s (.test i) = some s' ↔
    ∃ k n p, s.dir.stage i = .searching k n p ∧
      s' = { s with dir := s.dir.goTo i (if s.dir.fs.fileExists p = true ∧ n < 10000 then
        .searching k (n + 1) ((d i).numberedName k n) else .chosen k p) } := by
  unfold step ConvertNames.step
  dsimp only
  split
  · rename_i k n p hi
    rw [← apply_ite some, ← apply_ite (s.dir.goTo i), Option.map_some, Option.some_inj]
    constructor
    · exact fun h => ⟨k, n, p, hi, h.symm⟩
    · rintro ⟨k', n', p', hi', rfl⟩
      obtain ⟨rfl, rfl, rfl⟩ := ConvertNames.Stage.searching.inj (hi.symm.trans hi')
      rfl
  · rename_i hi
    exact iff_of_false nofun fun ⟨k, n, p, h, _⟩ => hi k n p h

theorem step_create_iff : step md5 d s (.create i) = some s' ↔
    ∃ k p, s.dir.stage i = .chosen k p ∧
      ((s.dir.fs.writable p = true ∧
        s' = { s.set i (noteChunk s.dir.fs p (s.vars i)) with
          dir := { s.dir with fs := s.dir.fs.create p }.goTo i (.writing k p),
          rest := Function.update s.rest i (passwordList (s.vars i).passwordCountSet) }) ∨
      (s.dir.fs.writable p = false ∧
        s' = { s.set i (nextChunk (noteChunk s.dir.fs p (s.vars i))) with
          dir := s.dir.goTo i (.counting k) })) := by
  unfold step ConvertNames.step
  dsimp only
  split
  · rename_i k p hi
    rw [hi]
    constructor
    · intro h
      refine ⟨k, p, rfl, ?_⟩
      dsimp only at h
      split at h
      · rename_i hw
        exact Or.inl ⟨hw, (Option.some.inj h).symm⟩
      · rename_i hw
        exact Or.inr ⟨by simpa using hw, (Option.some.inj h).symm⟩
    · rintro ⟨k', p', hi', h⟩
      obtain ⟨rfl, rfl⟩ := ConvertNames.Stage.chosen.inj hi'
      rcases h with ⟨hw, rfl⟩ | ⟨hw, rfl⟩ <;> simp [hw, noteChunk]
  · rename_i hi
    exact iff_of_false nofun fun ⟨k, p, h, _⟩ => hi k p h

theorem step_dump_iff : step md5 d s (.dump i) = some s' ↔
    ∃ k p phc rest, s.dir.stage i = .writing k p ∧ s.rest i = phc :: rest ∧
      s' = { s with
        dir := { s.dir with fs := s.dir.fs.append p phc.dump },
        rest := Function.update s.rest i rest } := by
  unfold step ConvertNames.step
  dsimp only
  split
  · rename_i phc rest hrest
    rw [hrest]
    split
    · rename_i k p hi
      rw [hi, Option.map_some, Option.some_inj]
      constructor
      · exact fun h => ⟨k, p, phc, rest, rfl, rfl, h.symm⟩
      · rintro ⟨k', p', phc', rest', hi', hrest', rfl⟩
        obtain ⟨rfl, rfl⟩ := ConvertNames.Stage.writing.inj hi'
        obtain ⟨rfl, rfl⟩ := List.cons.inj hrest'
        rfl
    · rename_i hi
      exact iff_of_false nofun fun ⟨k, p, _, _, h, _⟩ => hi k p h
  · rename_i hrest
    rw [hrest]
    exact iff_of_false nofun fun ⟨_, _, _, _, _, h, _⟩ => nomatch h

theorem step_close_iff : step md5 d s (.close i) = some s' ↔
    ∃ k p, s.dir.stage i = .writing k p ∧ s.rest i = [] ∧
      s' = { s.set i (nextChunk (s.vars i)) with dir := s.dir.goTo i (.counting k) } := by
  unfold step ConvertNames.step
  dsimp only
  split
  · rename_i hrest
    split
    · rename_i k p hi
      rw [hi, Option.map_some, Option.some_inj]
      constructor
      · exact fun h => ⟨k, p, rfl, hrest, h.symm⟩
      · rintro ⟨k', p', hi', -, rfl⟩
        obtain ⟨rfl, rfl⟩ := ConvertNames.Stage.writing.inj hi'
        rfl
    · rename_i hi
      exact iff_of_false nofun fun ⟨k, p, h, _⟩ => hi k p h
  · rename_i hrest
    exact iff_of_false nofun fun ⟨_, _, _, h, _⟩ => hrest h

end Cases

/-! ## What the conversions keep -/

section Keeps

/-- The variables as they are when the open chunk is closed. -/
def settled (stage : ConvertNames.Stage) (v : Converting) : Converting :=
  match stage with
  | .writing _ _ => nextChunk v
  | _ => v

/-- The chunks that are closed. -/
def closed (stage : ConvertNames.Stage) (v : Converting) : List Chunk :=
  match stage with
  | .writing _ _ => v.chunks.dropLast
  | _ => v.chunks

/-- How the variables of a conversion fit to where it stands. -/
def Standing (fs : FileSystem Path) (v : Converting) (rest : List PasswordHashAndCount) :
    ConvertNames.Stage → Prop
  | .counting last => last < v.splitFileNum
  | .searching k _ _ | .chosen k _ => k = v.splitFileNum ∧ v.passwordCountSet ≠ []
  | .writing k p =>
    k = v.splitFileNum ∧ ∃ chunks c dumped, v.chunks = chunks ++ [c] ∧ c.path = p ∧
      c.passwordList = dumped ++ rest ∧
      fs.files p = some (dumped.flatMap PasswordHashAndCount.dump)

/-- What a conversion keeps: its lines are counted, and its closed chunks are in their files. -/
structure Own (md5 : List UInt8 → Vector UInt8 16) (d : ConvertOperation) (fs : FileSystem Path)
    (stage : ConvertNames.Stage) (v : Converting) (rest : List PasswordHashAndCount) : Prop where
  counting : Counting md5 (UserPasswordReader.create d.inputFile d.options)
    (d.inputFile.content.splitOn 10) (settled stage v)
  standing : Standing fs v rest stage
  files : ∀ c ∈ closed stage v, fs.files c.path = some (encodeAll c.records)

variable {md5 : List UInt8 → Vector UInt8 16} {d : ConvertOperation} {fs fs' : FileSystem Path}
  {stage : ConvertNames.Stage} {v : Converting} {rest : List PasswordHashAndCount}

theorem closed_subset {c : Chunk} (hc : c ∈ closed stage v) : c ∈ v.chunks := by
  unfold closed at hc
  split at hc
  · exact List.mem_of_mem_dropLast hc
  · exact hc

/-- What others do to other files is nothing to a conversion. -/
theorem Own.frame (h : Own md5 d fs stage v rest)
    (hfs : ∀ c ∈ v.chunks, fs'.files c.path = fs.files c.path) : Own md5 d fs' stage v rest := by
  refine ⟨h.counting, ?_, fun c hc => ?_⟩
  · have hstanding := h.standing
    cases stage with
    | counting last => exact hstanding
    | searching k n p => exact hstanding
    | chosen k p => exact hstanding
    | writing k p =>
      obtain ⟨hk, chunks, c, dumped, hchunks, rfl, hlist, hfile⟩ := hstanding
      refine ⟨hk, chunks, c, dumped, hchunks, rfl, hlist, ?_⟩
      rw [hfs c (by rw [hchunks]; simp), hfile]
  · rw [hfs c (closed_subset hc), h.files c hc]

/-- Every chunk is a file. -/
theorem Own.exists (h : Own md5 d fs stage v rest) {c : Chunk} (hc : c ∈ v.chunks) :
    fs.files c.path ≠ none := by
  by_cases hclosed : c ∈ closed stage v
  · rw [h.files c hclosed]
    nofun
  · have hstanding := h.standing
    cases stage with
    | counting last => exact absurd hc hclosed
    | searching k n p => exact absurd hc hclosed
    | chosen k p => exact absurd hc hclosed
    | writing k p =>
      obtain ⟨-, chunks, c', dumped, hchunks, rfl, -, hfile⟩ := hstanding
      unfold closed at hclosed
      rw [hchunks, List.dropLast_concat] at hclosed
      rw [hchunks] at hc
      rcases List.mem_append.mp hc with hc | hc
      · exact absurd hc hclosed
      · rw [List.mem_singleton.mp hc, hfile]
        nofun

/-- The chunk that a conversion opens takes what is in the map. -/
theorem counting_noteChunk {r₀ : UserPasswordReader} {lines : List (List UInt8)}
    (h : Counting md5 r₀ lines v) (hne : v.passwordCountSet ≠ []) (p : Path) :
    Counting md5 r₀ lines (nextChunk (noteChunk fs p v)) := by
  have hrec := passwordList_records h.set.increasing
  refine ⟨h.settings, h.healthy, fun k hk => ?_, inOrder_nil, fun c hc => ?_⟩
  · have hk' := h.conserved k hk
    unfold nextChunk noteChunk
    dsimp only
    rw [chunkTally_concat, Chunk.records, hrec]
    exact hk'
  · rcases List.mem_append.mp hc with hc | hc
    · exact h.chunk c hc
    · rw [List.mem_singleton.mp hc, Chunk.records, hrec]
      refine ⟨fun hnil => hne ?_, h.set⟩
      rwa [records, List.map_eq_nil_iff] at hnil

theorem counting_nextChunk {r₀ : UserPasswordReader} {lines : List (List UInt8)}
    (h : Counting md5 r₀ lines v) (hempty : v.passwordCountSet = []) :
    Counting md5 r₀ lines (nextChunk v) := by
  refine ⟨h.settings, h.healthy, ?_, inOrder_nil, h.chunk⟩
  have hcons := h.conserved
  rwa [hempty] at hcons

end Keeps

/-! ## All conversions together -/

section Together

variable {ι : Type}

/-- What every smooth step keeps. -/
structure Sound (md5 : List UInt8 → Vector UInt8 16) (d : ι → ConvertOperation)
    (fs₀ : FileSystem Path) (s : Threads ι) : Prop where
  fresh : Fresh s.dir
  own : ∀ i, Own md5 (d i) s.dir.fs (s.dir.stage i) (s.vars i) (s.rest i)
  names : ∀ i, ((s.vars i).chunks.map Chunk.path).Nodup
  apart : ∀ i j, i ≠ j → ∀ c ∈ (s.vars i).chunks, ∀ c' ∈ (s.vars j).chunks, c.path ≠ c'.path
  new : ∀ i, ∀ c ∈ (s.vars i).chunks, fs₀.files c.path = none
  kept : ∀ p, (∀ i, ∀ c ∈ (s.vars i).chunks, p ≠ c.path) → s.dir.fs.files p = fs₀.files p

/-- The search for a name does not run out of numbers, and a name is opened while no other
conversion has chosen it. -/
def Undisturbed (s : Threads ι) : Move ι → Prop
  | .test i => ConvertNames.Undisturbed s.dir (.test i)
  | .create i => ConvertNames.Undisturbed s.dir (.create i)
  | _ => True

/-- The file that a conversion opens can be opened. If it cannot, the source drops the chunk. -/
def CanOpen (s : Threads ι) : Move ι → Prop
  | .create i => ∀ k p, s.dir.stage i = .chosen k p → s.dir.fs.writable p = true
  | _ => True

/-- An undisturbed step that opens no file in vain. -/
def Smooth (s : Threads ι) (a : Move ι) : Prop := Undisturbed s a ∧ CanOpen s a

/-- All files can be read to their end. -/
def Readable (d : ι → ConvertOperation) : Prop :=
  ∀ i, (d i).inputFile.isOpen = true ∧ (d i).inputFile.broken = false

theorem sound_start (md5 : List UInt8 → Vector UInt8 16)
    {d : ι → ConvertOperation} (hread : Readable d) (fs₀ : FileSystem Path) :
    Sound md5 d fs₀ (start d fs₀) := by
  refine ⟨nofun, fun i => ⟨?_, Nat.zero_lt_one, nofun⟩, fun i => List.nodup_nil, nofun, nofun,
    fun p _ => rfl⟩
  have hinput : (UserPasswordReader.create (d i).inputFile (d i).options).input =
      { content := (d i).inputFile.content } := by
    rw [UserPasswordReader.create_input _ _ (hread i).1, (hread i).2]
  have hlines := TextStream.lines_open (d i).inputFile.content false
  unfold start settled nextChunk
  dsimp only [ConvertNames.start]
  refine ⟨⟨rfl, rfl, rfl⟩, ?_, fun k _ => ?_, inOrder_nil, nofun⟩
  · rw [hinput]
    exact ⟨rfl, Or.inr hlines.good⟩
  · dsimp only
    rw [hinput, hlines.remaining_eq]
    exact Nat.zero_add _

theorem step_writable [DecidableEq ι] {md5 : List UInt8 → Vector UInt8 16}
    {d : ι → ConvertOperation} {s s' : Threads ι} {a : Move ι} (hs : step md5 d s a = some s') :
    s'.dir.fs.writable = s.dir.fs.writable := by
  cases a with
  | count i =>
    obtain ⟨-, -, rfl⟩ := step_count_iff.mp hs
    rfl
  | skip i =>
    obtain ⟨-, -, -, -, rfl⟩ := step_skip_iff.mp hs
    rfl
  | sort i =>
    obtain ⟨-, -, -, rfl⟩ := step_sort_iff.mp hs
    rfl
  | test i =>
    obtain ⟨k, n, p, -, rfl⟩ := step_test_iff.mp hs
    rfl
  | create i =>
    obtain ⟨k, p, -, ⟨-, rfl⟩ | ⟨-, rfl⟩⟩ := step_create_iff.mp hs <;> rfl
  | dump i =>
    obtain ⟨k, p, phc, rest, -, -, rfl⟩ := step_dump_iff.mp hs
    rfl
  | close i =>
    obtain ⟨k, p, -, -, rfl⟩ := step_close_iff.mp hs
    rfl

theorem reaches_writable [DecidableEq ι] {md5 : List UInt8 → Vector UInt8 16}
    {d : ι → ConvertOperation} {s s' : Threads ι} {ok : Threads ι → Move ι → Prop}
    (h : Reaches (step md5 d) ok s s') : s'.dir.fs.writable = s.dir.fs.writable := by
  induction h with
  | start => rfl
  | step _ _ hs ih => exact (step_writable hs).trans ih

/-- The conversion has read its file and closed its last chunk. -/
structure Finished (s : Threads ι) (i : ι) : Prop where
  counting : ∃ k, s.dir.stage i = .counting k
  eof : (s.vars i).reader.eof = true
  empty : (s.vars i).passwordCountSet = []

theorem Sound.counts {md5 : List UInt8 → Vector UInt8 16} {d : ι → ConvertOperation}
    {fs₀ : FileSystem Path} {s : Threads ι} (h : Sound md5 d fs₀ s) {i : ι} (hi : Finished s i) :
    CountsEveryLine md5 (UserPasswordReader.create (d i).inputFile (d i).options)
      ((d i).inputFile.content.splitOn 10) { s.vars i with fs := s.dir.fs } := by
  obtain ⟨k, hk⟩ := hi.counting
  have hown := h.own i
  rw [hk] at hown
  refine ⟨⟨h.names i, hown.files⟩, hown.counting.chunk, fun k hk => ?_⟩
  have hcons := hown.counting.conserved k hk
  unfold settled at hcons
  rw [hi.empty, TextStream.remaining_of_eof hi.eof] at hcons
  exact hcons

variable [DecidableEq ι] {md5 : List UInt8 → Vector UInt8 16} {d : ι → ConvertOperation}
  {fs₀ : FileSystem Path} {s s' : Threads ι} {a : Move ι}

/-- A conversion that changes no file but those of its chunks leaves the others in order. -/
theorem Sound.move (h : Sound md5 d fs₀ s) (i : ι) (hfresh : Fresh s'.dir)
    (hother : ∀ j ≠ i, s'.dir.stage j = s.dir.stage j ∧ s'.vars j = s.vars j ∧
      s'.rest j = s.rest j)
    (hown : Own md5 (d i) s'.dir.fs (s'.dir.stage i) (s'.vars i) (s'.rest i))
    (hnames : ((s'.vars i).chunks.map Chunk.path).Nodup)
    (hsub : ∀ c ∈ (s.vars i).chunks, c ∈ (s'.vars i).chunks)
    (hnew : ∀ c ∈ (s'.vars i).chunks, c ∈ (s.vars i).chunks ∨ s.dir.fs.files c.path = none)
    (hkept : ∀ p, (∀ c ∈ (s'.vars i).chunks, p ≠ c.path) →
      s'.dir.fs.files p = s.dir.fs.files p) : Sound md5 d fs₀ s' := by
  have hapart : ∀ j ≠ i, ∀ c ∈ (s.vars j).chunks, ∀ c' ∈ (s'.vars i).chunks,
      c.path ≠ c'.path := by
    intro j hj c hc c' hc' he
    rcases hnew c' hc' with hold | hnone
    · exact h.apart j i hj c hc c' hold he
    · exact (h.own j).exists hc (he ▸ hnone)
  have hchunks : ∀ j ≠ i, (s'.vars j).chunks = (s.vars j).chunks := by
    intro j hj
    rw [(hother j hj).2.1]
  refine ⟨hfresh, fun j => ?_, fun j => ?_, fun j j' hjj c hc c' hc' => ?_, fun j c hc => ?_,
    fun p hp => ?_⟩
  · by_cases hj : j = i
    · subst hj
      exact hown
    · obtain ⟨hstage, hvars, hrest⟩ := hother j hj
      rw [hstage, hvars, hrest]
      exact (h.own j).frame fun c hc => hkept c.path (hapart j hj c hc)
  · by_cases hj : j = i
    · subst hj
      exact hnames
    · rw [hchunks j hj]
      exact h.names j
  · by_cases hj : j = i
    · subst hj
      rw [hchunks j' hjj.symm] at hc'
      exact (hapart j' hjj.symm c' hc' c hc).symm
    · rw [hchunks j hj] at hc
      by_cases hj' : j' = i
      · subst hj'
        exact hapart j hj c hc c' hc'
      · rw [hchunks j' hj'] at hc'
        exact h.apart j j' hjj c hc c' hc'
  · by_cases hj : j = i
    · subst hj
      rcases hnew c hc with hold | hnone
      · exact h.new j c hold
      · rwa [← h.kept c.path fun j' c' hc' he => (h.own j').exists hc' (he ▸ hnone)]
    · rw [hchunks j hj] at hc
      exact h.new j c hc
  · rw [hkept p (hp i)]
    refine h.kept p fun j c hc => ?_
    by_cases hj : j = i
    · subst hj
      exact hp j c (hsub c hc)
    · rw [← hchunks j hj] at hc
      exact hp j c hc

@[simp] theorem set_vars (i : ι) (v : Converting) : (s.set i v).vars i = v :=
  Function.update_self ..

theorem set_vars_of_ne {i j : ι} (h : j ≠ i) (v : Converting) : (s.set i v).vars j = s.vars j :=
  Function.update_of_ne h ..

@[simp] theorem set_dir (i : ι) (v : Converting) : (s.set i v).dir = s.dir := rfl

@[simp] theorem set_rest (i : ι) (v : Converting) : (s.set i v).rest = s.rest := rfl

/-- A step that touches no file and no chunk. -/
theorem Sound.quiet (h : Sound md5 d fs₀ s) (i : ι) (stage : ConvertNames.Stage) (v : Converting)
    (hchosen : ∀ k p, stage = .chosen k p → s.dir.fs.fileExists p = false)
    (hchunks : v.chunks = (s.vars i).chunks)
    (hown : Own md5 (d i) s.dir.fs stage v (s.rest i)) :
    Sound md5 d fs₀ { s.set i v with dir := s.dir.goTo i stage } := by
  have hfresh : Fresh (s.dir.goTo i stage) := by
    intro j k p hj
    by_cases hji : j = i
    · subst hji
      rw [goTo_stage] at hj
      exact hchosen k p hj
    · rw [goTo_stage_of_ne hji] at hj
      exact h.fresh j k p hj
  refine h.move i hfresh (fun j hj => ⟨goTo_stage_of_ne hj _, set_vars_of_ne hj v, rfl⟩) ?_ ?_ ?_
    ?_ fun p _ => rfl
  · dsimp only
    rw [goTo_stage, set_vars]
    exact hown
  all_goals
    dsimp only
    rw [set_vars, hchunks]
  · exact h.names i
  · exact fun c hc => hc
  · exact fun c hc => Or.inl hc

theorem set_self (s : Threads ι) (i : ι) : s.set i (s.vars i) = s := by
  simp [Threads.set]

theorem goTo_self {s : Directory ι} {i : ι} {stage : ConvertNames.Stage} (h : s.stage i = stage) :
    s.goTo i stage = s := by
  simp [Directory.goTo, ← h]

theorem not_eof_of_goesOn {d : ConvertOperation} {v : Converting} (h : goesOn d v = true) :
    v.reader.eof = false := by
  simp only [goesOn, Bool.and_eq_true, Bool.not_eq_true'] at h
  exact h.1.1

theorem Sound.count (h : Sound md5 d fs₀ s) {i : ι}
    (hs : step md5 d s (.count i) = some s') : Sound md5 d fs₀ s' := by
  obtain ⟨⟨k, hi⟩, hgo, rfl⟩ := step_count_iff.mp hs
  have hquiet := h.quiet i (.counting k) (countLine md5 (s.vars i)) nofun rfl
  rw [goTo_self hi] at hquiet
  have hown := h.own i
  rw [hi] at hown
  exact hquiet ⟨(hown.counting.countLine (not_eof_of_goesOn hgo)).1, hown.standing, hown.files⟩

theorem Sound.skip (h : Sound md5 d fs₀ s) {i : ι}
    (hs : step md5 d s (.skip i) = some s') : Sound md5 d fs₀ s' := by
  obtain ⟨⟨k, hi⟩, -, hempty, -, rfl⟩ := step_skip_iff.mp hs
  have hquiet := h.quiet i (.counting k) (nextChunk (s.vars i)) nofun rfl
  rw [goTo_self hi] at hquiet
  have hown := h.own i
  rw [hi] at hown
  exact hquiet
    ⟨counting_nextChunk hown.counting hempty, Nat.lt_succ_of_lt hown.standing, hown.files⟩

theorem Sound.sort (h : Sound md5 d fs₀ s) {i : ι}
    (hs : step md5 d s (.sort i) = some s') : Sound md5 d fs₀ s' := by
  obtain ⟨⟨k, hi, hk⟩, -, hne, rfl⟩ := step_sort_iff.mp hs
  have hown := h.own i
  rw [hi] at hown
  have hquiet := h.quiet i (.searching (s.vars i).splitFileNum (s.vars i).splitFileNum
    ((d i).firstName (s.vars i).splitFileNum)) (s.vars i) nofun rfl
    ⟨hown.counting, ⟨rfl, hne⟩, hown.files⟩
  rwa [set_self] at hquiet

theorem Sound.test (h : Sound md5 d fs₀ s) {i : ι} (hok : Undisturbed s (.test i))
    (hs : step md5 d s (.test i) = some s') : Sound md5 d fs₀ s' := by
  obtain ⟨k, n, p, hi, rfl⟩ := step_test_iff.mp hs
  have hown := h.own i
  rw [hi] at hown
  have hquiet : ∀ stage, (∀ k p, stage = .chosen k p → s.dir.fs.fileExists p = false) →
      Own md5 (d i) s.dir.fs stage (s.vars i) (s.rest i) →
      Sound md5 d fs₀ { s with dir := s.dir.goTo i stage } := by
    intro stage hchosen hown'
    have hset := h.quiet i stage (s.vars i) hchosen rfl hown'
    rwa [set_self] at hset
  split
  · exact hquiet _ nofun ⟨hown.counting, hown.standing, hown.files⟩
  · rename_i hfree
    refine hquiet _ (fun k' p' he => ?_) ⟨hown.counting, hown.standing, hown.files⟩
    obtain ⟨rfl, rfl⟩ := ConvertNames.Stage.chosen.inj he
    by_contra htaken
    rw [Bool.not_eq_false] at htaken
    exact hfree ⟨htaken, hok k n p hi htaken⟩

theorem Sound.create (h : Sound md5 d fs₀ s) {i : ι} (hok : Smooth s (.create i))
    (hs : step md5 d s (.create i) = some s') : Sound md5 d fs₀ s' := by
  obtain ⟨k, p, hi, ⟨-, rfl⟩ | ⟨hw, -⟩⟩ := step_create_iff.mp hs
  · have hfree := h.fresh i k p hi
    have hnone : s.dir.fs.files p = none := by
      simpa [FileSystem.fileExists] using hfree
    have hother : ∀ c ∈ (s.vars i).chunks, c.path ≠ p := fun c hc he =>
      (h.own i).exists hc (he ▸ hnone)
    have hown := h.own i
    rw [hi] at hown
    obtain ⟨hk, hne⟩ := hown.standing
    have hfresh : Fresh ({ s.dir with fs := s.dir.fs.create p }.goTo i (.writing k p)) :=
      (fresh_create_iff h.fresh hi).mpr (hok.1 k p hi (hok.2 k p hi))
    have hvars : ((noteChunk s.dir.fs p (s.vars i)).chunks) = (s.vars i).chunks ++ _ := rfl
    refine h.move i hfresh (fun j hj => ⟨goTo_stage_of_ne hj _, set_vars_of_ne hj _,
      Function.update_of_ne hj ..⟩) ?_ ?_ ?_ ?_ ?_
    · dsimp only
      rw [goTo_stage, set_vars, Function.update_self, goTo_fs]
      refine ⟨counting_noteChunk hown.counting hne p, ⟨hk, _, _, [], rfl, rfl, rfl, ?_⟩, ?_⟩
      · exact FileSystem.create_files ..
      · intro c hc
        unfold closed at hc
        dsimp only at hc
        rw [hvars, List.dropLast_concat] at hc
        rw [FileSystem.create_files_of_ne _ _ (hother c hc)]
        exact hown.files c hc
    all_goals
      dsimp only
      rw [set_vars, hvars]
    · rw [List.map_append, List.nodup_append]
      refine ⟨h.names i, List.nodup_singleton _, ?_⟩
      intro q hq q' hq'
      obtain ⟨c, hc, rfl⟩ := List.mem_map.mp hq
      rw [List.map_singleton, List.mem_singleton] at hq'
      rw [hq']
      exact hother c hc
    · exact fun c hc => List.mem_append_left _ hc
    · intro c hc
      rcases List.mem_append.mp hc with hc | hc
      · exact Or.inl hc
      · rw [List.mem_singleton.mp hc]
        exact Or.inr hnone
    · intro q hq
      exact FileSystem.create_files_of_ne _ _
        (hq _ (List.mem_append_right _ (List.mem_singleton_self _)))
  · have hw' := hok.2 k p hi
    rw [hw] at hw'
    cases hw'

/-- The chunks of a conversion that writes: the open one is none of the others. -/
theorem path_ne_of_dropLast {chunks : List Chunk} {c c' : Chunk}
    (h : ((chunks ++ [c]).map Chunk.path).Nodup) (hc' : c' ∈ chunks) : c'.path ≠ c.path := by
  rw [List.map_append, List.nodup_append] at h
  exact h.2.2 _ (List.mem_map_of_mem hc') _ (by simp)

theorem Sound.dump (h : Sound md5 d fs₀ s) {i : ι}
    (hs : step md5 d s (.dump i) = some s') : Sound md5 d fs₀ s' := by
  obtain ⟨k, p, phc, rest, hi, hrest, rfl⟩ := step_dump_iff.mp hs
  have hown := h.own i
  rw [hi, hrest] at hown
  obtain ⟨hk, chunks, c, dumped, hchunks, rfl, hlist, hfile⟩ := hown.standing
  have hfresh : Fresh { s.dir with fs := s.dir.fs.append c.path phc.dump } := by
    intro j k' q hj
    rw [fileExists_append]
    exact h.fresh j k' q hj
  refine h.move i hfresh (fun j hj => ⟨rfl, rfl, Function.update_of_ne hj ..⟩) ?_ (h.names i)
    (fun c hc => hc) (fun c hc => Or.inl hc) ?_
  · dsimp only
    rw [Function.update_self, hi]
    refine ⟨hown.counting, ⟨hk, chunks, c, dumped ++ [phc], hchunks, rfl, ?_, ?_⟩, ?_⟩
    · rw [hlist, List.append_assoc]
      rfl
    · rw [FileSystem.append_files, hfile, Option.map_some, List.flatMap_append,
        List.flatMap_singleton]
    · intro c' hc'
      have hnames := h.names i
      have hfiles := hown.files c' hc'
      unfold closed at hc'
      dsimp only at hc'
      rw [hchunks] at hnames hc'
      rw [List.dropLast_concat] at hc'
      rw [FileSystem.append_files_of_ne _ _ (path_ne_of_dropLast hnames hc'), hfiles]
  · intro q hq
    exact FileSystem.append_files_of_ne _ _ (hq c (by rw [hchunks]; simp)) _

theorem Sound.close (h : Sound md5 d fs₀ s) {i : ι}
    (hs : step md5 d s (.close i) = some s') : Sound md5 d fs₀ s' := by
  obtain ⟨k, p, hi, hrest, rfl⟩ := step_close_iff.mp hs
  have hown := h.own i
  rw [hi, hrest] at hown
  obtain ⟨hk, chunks, c, dumped, hchunks, rfl, hlist, hfile⟩ := hown.standing
  refine h.quiet i (.counting k) (nextChunk (s.vars i)) nofun rfl
    ⟨hown.counting, ?_, fun c' hc' => ?_⟩
  · rw [hk]
    exact Nat.lt_succ_self _
  · have hclosed := hown.files c'
    unfold closed nextChunk at hc'
    unfold closed at hclosed
    dsimp only at hc' hclosed
    rw [hchunks] at hc' hclosed
    rw [List.dropLast_concat] at hclosed
    rcases List.mem_append.mp hc' with hc' | hc'
    · exact hclosed hc'
    · rw [List.append_nil] at hlist
      rw [List.mem_singleton.mp hc', hfile, Chunk.records, encodeAll_record, hlist]

theorem Sound.step (h : Sound md5 d fs₀ s) (hok : Smooth s a)
    (hs : step md5 d s a = some s') : Sound md5 d fs₀ s' := by
  cases a with
  | count i => exact h.count hs
  | skip i => exact h.skip hs
  | sort i => exact h.sort hs
  | test i => exact h.test hok.1 hs
  | create i => exact h.create hok hs
  | dump i => exact h.dump hs
  | close i => exact h.close hs

end Together

/-! ### Two conversions of one line each -/

section Two

/-- The line `a` in `x` and the line `b` in `y`. -/
def oneLine (i : Fin 2) : ConvertOperation :=
  { threeLines with
    srcFilePath := [if i = 0 then 120 else 121],
    inputFile := { content := [if i = 0 then 97 else 98] } }

def bothAtOnce : List (Move (Fin 2)) :=
  [.count 0, .count 1, .sort 1, .sort 0, .test 0, .test 1, .create 0, .create 1, .dump 1, .dump 0,
    .close 0, .close 1]

/-- Whether the stage is a search that may go on, or none. -/
def searchGoesOn (fs : FileSystem Path) : ConvertNames.Stage → Bool
  | .searching _ n p => !fs.fileExists p || n < 10000
  | _ => true

def chosenPath : ConvertNames.Stage → Option Path
  | .chosen _ p => some p
  | _ => none

theorem chosenPath_eq_some {stage : ConvertNames.Stage} {p : Path} :
    chosenPath stage = some p ↔ ∃ k, stage = .chosen k p := by
  cases stage <;> simp [chosenPath]

def isCounting : ConvertNames.Stage → Bool
  | .counting _ => true
  | _ => false

theorem isCounting_iff {stage : ConvertNames.Stage} :
    isCounting stage = true ↔ ∃ k, stage = .counting k := by
  cases stage <;> simp [isCounting]

variable {ι : Type}

theorem undisturbed_test_iff {s : Threads ι} {i : ι} :
    Undisturbed s (.test i) ↔ searchGoesOn s.dir.fs (s.dir.stage i) = true := by
  unfold Undisturbed ConvertNames.Undisturbed
  constructor
  · intro h
    rcases hi : s.dir.stage i with k | ⟨k, n, p⟩ | ⟨k, p⟩ | ⟨k, p⟩
    case searching =>
      rcases htaken : s.dir.fs.fileExists p with _ | _
      · simp [searchGoesOn, htaken]
      · simpa [searchGoesOn, htaken] using h k n p hi htaken
    all_goals rfl
  · intro h k n p hi htaken
    rw [hi] at h
    simpa [searchGoesOn, htaken] using h

theorem undisturbed_create_iff {s : Threads ι} {i : ι} :
    Undisturbed s (.create i) ↔ ∀ p ∈ chosenPath (s.dir.stage i), s.dir.fs.writable p = true →
      ∀ j ≠ i, chosenPath (s.dir.stage j) ≠ some p := by
  unfold Undisturbed ConvertNames.Undisturbed
  constructor
  · intro hnames p hp hopen j hj hp'
    obtain ⟨k, hi⟩ := chosenPath_eq_some.mp hp
    obtain ⟨k', hj'⟩ := chosenPath_eq_some.mp hp'
    exact hnames k p hi hopen j hj k' hj'
  · intro h k p hi hopen j hj k' hj'
    exact h p (chosenPath_eq_some.mpr ⟨k, hi⟩) hopen j hj (chosenPath_eq_some.mpr ⟨k', hj'⟩)

theorem canOpen_create_iff {s : Threads ι} {i : ι} :
    CanOpen s (.create i) ↔ ∀ p ∈ chosenPath (s.dir.stage i), s.dir.fs.writable p = true := by
  unfold CanOpen
  constructor
  · intro h p hp
    obtain ⟨k, hi⟩ := chosenPath_eq_some.mp hp
    exact h k p hi
  · exact fun h k p hi => h p (chosenPath_eq_some.mpr ⟨k, hi⟩)

theorem finished_iff {s : Threads ι} {i : ι} :
    Finished s i ↔ isCounting (s.dir.stage i) = true ∧ (s.vars i).reader.eof = true ∧
      (s.vars i).passwordCountSet.isEmpty = true := by
  rw [isCounting_iff, List.isEmpty_iff]
  exact ⟨fun h => ⟨h.counting, h.eof, h.empty⟩, fun h => ⟨h.1, h.2.1, h.2.2⟩⟩

instance (s : Threads ι) (i : ι) : Decidable (Finished s i) :=
  decidable_of_iff _ finished_iff.symm

instance [DecidableEq ι] [Fintype ι] (s : Threads ι) : ∀ a : Move ι, Decidable (Undisturbed s a)
  | .test _ => decidable_of_iff _ undisturbed_test_iff.symm
  | .create _ => decidable_of_iff _ undisturbed_create_iff.symm
  | .count _ | .skip _ | .sort _ | .dump _ | .close _ => .isTrue trivial

instance (s : Threads ι) : ∀ a : Move ι, Decidable (CanOpen s a)
  | .create _ => decidable_of_iff _ canOpen_create_iff.symm
  | .count _ | .skip _ | .sort _ | .test _ | .dump _ | .close _ => .isTrue trivial

instance [DecidableEq ι] [Fintype ι] (s : Threads ι) (a : Move ι) : Decidable (Smooth s a) :=
  inferInstanceAs (Decidable (_ ∧ _))

end Two

end ConvertThreads

end pwned
