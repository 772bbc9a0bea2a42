-- The names of the chunks while several conversions write into one
-- directory. To look whether a name is taken is one step and to open it is
-- another, and the other conversions move in between.
import Pwned.ConvertCounts
import Pwned.Library.Runs

namespace pwned

namespace ConvertNames

open ConvertOperation

/-- Where a conversion stands. -/
inductive Stage
  /-- It counts lines or is done. The number is that of its last chunk. -/
  | counting (splitFileNum : Nat)
  /-- It looks for a name for its chunk. -/
  | searching (splitFileNum n : Nat) (dstFilePath : Path)
  /-- It has left the loop over the names. -/
  | chosen (splitFileNum : Nat) (dstFilePath : Path)
  /-- The file is open. -/
  | writing (splitFileNum : Nat) (dstFilePath : Path)
deriving DecidableEq, Repr

structure Directory (ι : Type) where
  fs : FileSystem Path
  stage : ι → Stage

inductive Move (ι : Type)
  /-- A chunk with something in it is ready. -/
  | sorted (i : ι) (splitFileNum : Nat)
  /-- The condition of the loop over the names. -/
  | test (i : ι)
  /-- `std::ofstream f(dstFilePath)` -/
  | create (i : ι)
  /-- `phc.dump(f)` -/
  | dump (i : ι) (phc : PasswordHashAndCount)
  /-- `f.close()` -/
  | close (i : ι)

section Steps

variable {ι : Type} [DecidableEq ι] (d : ι → ConvertOperation)

def Directory.goTo (s : Directory ι) (i : ι) (stage : Stage) : Directory ι :=
  { s with stage := Function.update s.stage i stage }

/-- One step of one of the conversions, none where the conversion stands elsewhere. -/
def step (s : Directory ι) : Move ι → Option (Directory ι)
  | .sorted i splitFileNum =>
    match s.stage i with
    | .counting last =>
      if last < splitFileNum then
        some (s.goTo i (.searching splitFileNum splitFileNum ((d i).firstName splitFileNum)))
      else none
    | _ => none
  | .test i =>
    match s.stage i with
    | .searching splitFileNum n dstFilePath =>
      if s.fs.fileExists dstFilePath ∧ n < 10000 then
        some (s.goTo i
          (.searching splitFileNum (n + 1) ((d i).numberedName splitFileNum n)))
      else some (s.goTo i (.chosen splitFileNum dstFilePath))
    | _ => none
  | .create i =>
    match s.stage i with
    | .chosen splitFileNum dstFilePath =>
      if s.fs.writable dstFilePath then
        some ({ s with fs := s.fs.create dstFilePath }.goTo i (.writing splitFileNum dstFilePath))
      else some (s.goTo i (.counting splitFileNum))
    | _ => none
  | .dump i phc =>
    match s.stage i with
    | .writing _ dstFilePath => some { s with fs := s.fs.append dstFilePath phc.dump }
    | _ => none
  | .close i =>
    match s.stage i with
    | .writing splitFileNum _ => some (s.goTo i (.counting splitFileNum))
    | _ => none

/-- Nothing is converted yet. -/
def start (fs : FileSystem Path) : Directory ι := { fs, stage := fun _ => .counting 0 }

end Steps

/-! ## Fresh names -/

section Fresh

variable {ι : Type}

/-- No file exists where a conversion is about to open one. -/
def Fresh (s : Directory ι) : Prop :=
  ∀ i splitFileNum dstFilePath, s.stage i = .chosen splitFileNum dstFilePath →
    s.fs.fileExists dstFilePath = false

/-- The search does not run out of numbers, and a name is opened while no other conversion has
chosen it. -/
def Undisturbed (s : Directory ι) : Move ι → Prop
  | .test i => ∀ splitFileNum n dstFilePath,
      s.stage i = .searching splitFileNum n dstFilePath → s.fs.fileExists dstFilePath = true →
        n < 10000
  | .create i => ∀ splitFileNum dstFilePath,
      s.stage i = .chosen splitFileNum dstFilePath → s.fs.writable dstFilePath = true →
        ∀ j ≠ i, ∀ splitFileNum', s.stage j ≠ .chosen splitFileNum' dstFilePath
  | _ => True

variable [DecidableEq ι] {d : ι → ConvertOperation} {s s' : Directory ι} {a : Move ι}

@[simp] theorem goTo_fs (i : ι) (stage : Stage) : (s.goTo i stage).fs = s.fs := rfl

@[simp] theorem goTo_stage (i : ι) (stage : Stage) : (s.goTo i stage).stage i = stage :=
  Function.update_self ..

theorem goTo_stage_of_ne {i j : ι} (h : j ≠ i) (stage : Stage) :
    (s.goTo i stage).stage j = s.stage j := Function.update_of_ne h ..

/-- A conversion that chooses nothing leaves the names as they are. -/
theorem Fresh.goTo (h : Fresh s) (i : ι) {stage : Stage}
    (hstage : ∀ k p, stage ≠ .chosen k p) : Fresh (s.goTo i stage) := by
  intro j k p hj
  by_cases hji : j = i
  · subst hji
    rw [goTo_stage] at hj
    exact absurd hj (hstage k p)
  · rw [goTo_stage_of_ne hji] at hj
    exact h j k p hj

/-- A conversion that leaves the loop has a free name if the last one it looked at was. -/
theorem fresh_goTo_chosen_iff (h : Fresh s) (i : ι) (k : Nat) (p : Path) :
    Fresh (s.goTo i (.chosen k p)) ↔ s.fs.fileExists p = false := by
  constructor
  · intro hf
    exact hf i k p (goTo_stage i _)
  · intro hp j k' q hj
    by_cases hji : j = i
    · subst hji
      rw [goTo_stage] at hj
      obtain ⟨rfl, rfl⟩ := Stage.chosen.inj hj
      exact hp
    · rw [goTo_stage_of_ne hji] at hj
      exact h j k' q hj

@[simp] theorem fileExists_append (fs : FileSystem Path) (p q : Path) (bs : List UInt8) :
    (fs.append p bs).fileExists q = fs.fileExists q := by
  unfold FileSystem.fileExists
  by_cases hq : q = p
  · subst hq
    rw [FileSystem.append_files, Option.isSome_map]
  · rw [FileSystem.append_files_of_ne _ _ hq]

theorem fileExists_create_iff (fs : FileSystem Path) (p q : Path) :
    (fs.create p).fileExists q = false ↔ q ≠ p ∧ fs.fileExists q = false := by
  unfold FileSystem.fileExists
  by_cases hq : q = p
  · subst hq
    simp
  · rw [FileSystem.create_files_of_ne _ _ hq]
    simp [hq]

/-- To open a name takes it from the others that have chosen it. -/
theorem fresh_create_iff (h : Fresh s) {i : ι} {k : Nat} {p : Path}
    (hi : s.stage i = .chosen k p) :
    Fresh ({ s with fs := s.fs.create p }.goTo i (.writing k p)) ↔
      ∀ j ≠ i, ∀ k', s.stage j ≠ .chosen k' p := by
  constructor
  · intro hf j hji k' hj
    have hfree := hf j k' p (by rw [goTo_stage_of_ne hji]; exact hj)
    exact ((fileExists_create_iff s.fs p p).mp hfree).1 rfl
  · intro hother j k' q hj
    by_cases hji : j = i
    · subst hji
      rw [goTo_stage] at hj
      cases hj
    · rw [goTo_stage_of_ne hji] at hj
      refine (fileExists_create_iff s.fs p q).mpr ⟨fun hq => ?_, h j k' q hj⟩
      rw [hq] at hj
      exact hother j hji k' hj

theorem fresh_step_iff (h : Fresh s) (hs : step d s a = some s') :
    Fresh s' ↔ Undisturbed s a := by
  unfold step at hs
  cases a with
  | sorted i k =>
    dsimp only at hs
    split at hs
    · split at hs
      · rw [← Option.some.inj hs]
        exact iff_of_true (h.goTo i nofun) trivial
      · cases hs
    · cases hs
  | test i =>
    dsimp only at hs
    split at hs
    · rename_i k n p hi
      unfold Undisturbed
      split at hs
      · rename_i htaken
        rw [← Option.some.inj hs]
        refine iff_of_true (h.goTo i nofun) fun k' n' p' hi' _ => ?_
        rw [hi] at hi'
        obtain ⟨rfl, rfl, rfl⟩ := Stage.searching.inj hi'
        exact htaken.2
      · rename_i hfree
        rw [← Option.some.inj hs, fresh_goTo_chosen_iff h]
        constructor
        · intro hp k' n' p' hi' hp'
          rw [hi] at hi'
          obtain ⟨rfl, rfl, rfl⟩ := Stage.searching.inj hi'
          rw [hp] at hp'
          cases hp'
        · intro hn
          by_contra hp
          rw [Bool.not_eq_false] at hp
          exact hfree ⟨hp, hn k n p hi hp⟩
    · cases hs
  | create i =>
    dsimp only at hs
    split at hs
    · rename_i k p hi
      have hcond : Undisturbed s (.create i) ↔
          (s.fs.writable p = true → ∀ j ≠ i, ∀ k', s.stage j ≠ .chosen k' p) := by
        constructor
        · intro hu
          exact hu k p hi
        · intro hu k' p' hi'
          rw [hi] at hi'
          obtain ⟨rfl, rfl⟩ := Stage.chosen.inj hi'
          exact hu
      rw [hcond]
      split at hs
      · rename_i hw
        rw [← Option.some.inj hs, fresh_create_iff h hi, forall_prop_of_true hw]
      · rename_i hw
        rw [← Option.some.inj hs]
        exact iff_of_true (h.goTo i nofun) fun hw' => absurd hw' hw
    · cases hs
  | dump i phc =>
    dsimp only at hs
    split at hs
    · rw [← Option.some.inj hs]
      refine iff_of_true (fun j k p hj => ?_) trivial
      rw [fileExists_append]
      exact h j k p hj
    · cases hs
  | close i =>
    dsimp only at hs
    split at hs
    · rw [← Option.some.inj hs]
      exact iff_of_true (h.goTo i nofun) trivial
    · cases hs

/-- As long as no search runs out of numbers and no name is opened that two conversions have
chosen, every chunk goes to a new file. The first step of another kind ends that. -/
theorem no_chunk_overwrites_a_file_while_undisturbed (d : ι → ConvertOperation)
    (fs : FileSystem Path) (s : Directory ι)
    (h : Reaches (step d) Undisturbed (start fs) s) :
    Fresh s ∧ ∀ a s', step d s a = some s' → (Fresh s' ↔ Undisturbed s a) := by
  have hstart : Fresh (start fs : Directory ι) := by
    intro i k p hi
    cases hi
  have hfresh : Fresh s :=
    h.invariant hstart fun _ _ _ hf hok hs => (fresh_step_iff hf hs).mpr hok
  exact ⟨hfresh, fun a s' hs => fresh_step_iff hfresh hs⟩

theorem goTo_goTo (i : ι) (stage stage' : Stage) :
    (s.goTo i stage).goTo i stage' = s.goTo i stage' := by
  simp [Directory.goTo]

/-- The tests of a conversion that is alone follow the loop of the model of `execute`. -/
theorem run_searchName (d : ι → ConvertOperation) (i : ι) (k : Nat) {turns n : Nat} {p : Path}
    {s : Directory ι} (hn : turns = 10000 - n) (hi : s.stage i = .searching k n p) :
    ∃ m, run (step d) s (List.replicate m (.test i)) =
      some (s.goTo i (.chosen k ((d i).searchName s.fs.fileExists k turns n p))) := by
  induction turns generalizing n p s with
  | zero =>
    refine ⟨1, ?_⟩
    have hstop : ¬ (s.fs.fileExists p = true ∧ n < 10000) := by omega
    simp [run, step, hi, hstop, searchName]
  | succ turns ih =>
    unfold searchName
    split
    · rename_i htaken
      have hstep : step d s (.test i) =
          some (s.goTo i (.searching k (n + 1) ((d i).numberedName k n))) := by
        have hgo : s.fs.fileExists p = true ∧ n < 10000 := ⟨htaken, by omega⟩
        simp [step, hi, hgo]
      have hn' : turns = 10000 - (n + 1) := by omega
      obtain ⟨m, hm⟩ := ih hn' (goTo_stage i _)
      refine ⟨m + 1, ?_⟩
      rw [List.replicate_succ, run_cons hstep, hm, goTo_goTo]
      rfl
    · rename_i hfree
      exact ⟨1, by simp [run, step, hi, hfree]⟩

/-- A conversion that is alone while it searches chooses the name that `execute` gives its
chunk. -/
theorem run_outputName (d : ι → ConvertOperation) (i : ι) {last k : Nat} {s : Directory ι}
    (hi : s.stage i = .counting last) (hk : last < k) :
    ∃ m, run (step d) s (.sorted i k :: List.replicate m (.test i)) =
      some (s.goTo i (.chosen k ((d i).outputName s.fs.fileExists k))) := by
  have hstep : step d s (.sorted i k) = some (s.goTo i (.searching k k ((d i).firstName k))) := by
    simp [step, hi, hk]
  obtain ⟨m, hm⟩ := run_searchName d i k rfl (goTo_stage (s := s) i _)
  refine ⟨m, ?_⟩
  rw [run_cons hstep, hm, goTo_goTo]
  rfl

end Fresh

/-! ### Two files with one stem -/

/-- `a/x.txt` and `b/x.txt` -/
def oneStem (second : Bool) : ConvertOperation :=
  { threeLines with
    srcFilePath := (if second then 98 else 97) :: [47, 120, 46, 116, 120, 116] }

def firstRecord : PasswordHashAndCount := { count := 1 }

/-- Both look for the name of their first chunk before one of them opens it. -/
theorem two_conversions_open_one_file :
    ∃ s s' p, Reachable (step oneStem) (start emptyDirectory) s ∧
      s.stage true = .chosen 1 p ∧ s.fs.files p = some firstRecord.dump ∧
      step oneStem s (.create true) = some s' ∧ s'.fs.files p = some [] := by
  have hrun : run (step oneStem) (start emptyDirectory)
      [.sorted false 1, .sorted true 1, .test false, .test true, .create false,
        .dump false firstRecord, .close false] = some _ := rfl
  refine ⟨_, _, (oneStem true).firstName 1, reachable_of_run hrun, ?_, ?_, rfl, ?_⟩
  · decide +kernel
  · decide +kernel
  · decide +kernel

theorem no_chunk_overwrites_a_file_while_undisturbed_two_files :
    ∃ s, run (step oneStem) (start emptyDirectory)
        [.sorted true 1, .test true, .create true] = some s ∧
      Fresh s ∧ ∀ a s', step oneStem s a = some s' → (Fresh s' ↔ Undisturbed s a) := by
  refine ⟨_, rfl, no_chunk_overwrites_a_file_while_undisturbed oneStem emptyDirectory _ ?_⟩
  have hsorted : Undisturbed (start emptyDirectory) (.sorted true 1) := trivial
  refine .step (a := .create true)
    (.step (a := .test true) (.step (a := .sorted true 1) .start hsorted rfl) ?_ rfl) ?_ rfl
  · intro k n p hi _
    obtain ⟨-, rfl, -⟩ := Stage.searching.inj hi
    decide
  · intro k p _ _ j hj k' hj'
    cases j
    · cases hj'
    · exact hj rfl

end ConvertNames

end pwned
