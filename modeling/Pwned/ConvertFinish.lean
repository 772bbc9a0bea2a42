-- Conversions that run at once come to an end: every step has its cost, and
-- one can be taken until all of them are finished.
import Pwned.ConvertThreads

namespace pwned

namespace ConvertThreads

open ConvertOperation ConvertNames

/-! ## The cost of a step -/

section Cost

/-- How many steps a conversion may still take. A line may cost a turn, an entry of a chunk and a
chunk of its own, whose name is looked for in 10001 steps at most. -/
def cost (d : ConvertOperation) (v : Converting) (rest : List PasswordHashAndCount)
    (stage : ConvertNames.Stage) : Nat :=
  10007 * v.reader.input.remaining.length +
    match stage with
    | .counting _ =>
      v.passwordCountSet.length + (if v.passwordCountSet = [] then 0 else 10004) +
        if v.memUsage < d.maxMem then 0 else 1
    | .searching _ n _ => v.passwordCountSet.length + 3 + (10000 - n)
    | .chosen _ _ => v.passwordCountSet.length + 2
    | .writing _ _ => rest.length + 1

/-- The number of the chunk. -/
def Numbered (v : Converting) : ConvertNames.Stage → Prop
  | .counting last => last < v.splitFileNum
  | .searching k _ _ | .chosen k _ | .writing k _ => k = v.splitFileNum

/-- What a conversion keeps in every run. -/
structure Alive (v : Converting) (stage : ConvertNames.Stage) : Prop where
  healthy : v.reader.input.Healthy
  numbered : Numbered v stage

variable {md5 : List UInt8 → Vector UInt8 16} {d : ConvertOperation} {v : Converting}
  {rest : List PasswordHashAndCount}

theorem addOne_length (hash : Hash) (set : List (Hash × BitVec 32)) :
    (addOne hash set).length ≤ set.length + 1 := by
  induction set with
  | nil => exact le_rfl
  | cons i set ih =>
    unfold addOne
    split_ifs
    · exact le_rfl
    · simpa using ih
    · simp

theorem passwordList_length (set : List (Hash × BitVec 32)) :
    (passwordList set).length = set.length := by
  simp [passwordList]

theorem countLine_spec (h : v.reader.input.Healthy) (he : v.reader.eof = false) :
    (countLine md5 v).reader.input.Healthy ∧
      (countLine md5 v).reader.input.remaining.length + 1 = v.reader.input.remaining.length ∧
      (countLine md5 v).passwordCountSet.length ≤ v.passwordCountSet.length + 1 := by
  have hlines := TextStream.lines_remaining (h.good he)
  obtain ⟨l, ls, hls⟩ := List.exists_cons_of_ne_nil hlines.ne_nil
  rw [hls] at hlines
  obtain ⟨-, hhealthy, hrem⟩ :=
    UserPasswordReader.nextPasswordHash_of_lines md5 hlines h.unbroken
  unfold countLine
  dsimp only
  refine ⟨hhealthy, ?_, ?_⟩
  · rw [hrem, hls]
    rfl
  · split
    · exact addOne_length _ _
    · exact Nat.le_succ _

theorem cost_nextChunk (hmem : d.maxMem ≠ 0) (k : Nat) :
    cost d (nextChunk v) rest (.counting k) = 10007 * v.reader.input.remaining.length := by
  have hpos : (nextChunk v).memUsage < d.maxMem := by
    rw [BitVec.lt_def]
    exact Nat.pos_of_ne_zero fun h0 => hmem (BitVec.eq_of_toNat_eq h0)
  unfold cost
  dsimp only
  rw [if_pos hpos]
  simp [nextChunk]

/-- Where the inner loop is over before the end of the file, the memory is full. -/
theorem full_of_not_goesOn (h : v.reader.input.Healthy) (he : v.reader.eof = false)
    (hgo : goesOn d v = false) : ¬ v.memUsage < d.maxMem := by
  have hbad : v.reader.bad = false := ((TextStream.good_iff _).mp (h.good he)).2.2
  simpa [goesOn, he, hbad] using hgo

end Cost

/-! ## Every step costs something -/

section Ends

variable {ι : Type} [DecidableEq ι] {md5 : List UInt8 → Vector UInt8 16}
  {d : ι → ConvertOperation} {fs₀ : FileSystem Path} {s s' : Threads ι} {a : Move ι}

/-- The conversion that takes the step. -/
def Move.mover : Move ι → ι
  | .count i | .skip i | .sort i | .test i | .create i | .dump i | .close i => i

/-- A step leaves the other conversions where they are. -/
theorem step_other (hs : step md5 d s a = some s') {j : ι} (hj : j ≠ a.mover) :
    s'.dir.stage j = s.dir.stage j ∧ s'.vars j = s.vars j ∧ s'.rest j = s.rest j := by
  cases a with
  | count i =>
    obtain ⟨-, -, rfl⟩ := step_count_iff.mp hs
    exact ⟨rfl, set_vars_of_ne hj _, rfl⟩
  | skip i =>
    obtain ⟨-, -, -, -, rfl⟩ := step_skip_iff.mp hs
    exact ⟨rfl, set_vars_of_ne hj _, rfl⟩
  | sort i =>
    obtain ⟨-, -, -, rfl⟩ := step_sort_iff.mp hs
    exact ⟨goTo_stage_of_ne hj _, rfl, rfl⟩
  | test i =>
    obtain ⟨k, n, p, -, rfl⟩ := step_test_iff.mp hs
    exact ⟨goTo_stage_of_ne hj _, rfl, rfl⟩
  | create i =>
    obtain ⟨k, p, -, ⟨-, rfl⟩ | ⟨-, rfl⟩⟩ := step_create_iff.mp hs
    · exact ⟨goTo_stage_of_ne hj _, set_vars_of_ne hj _, Function.update_of_ne hj ..⟩
    · exact ⟨goTo_stage_of_ne hj _, set_vars_of_ne hj _, rfl⟩
  | dump i =>
    obtain ⟨k, p, phc, rest, -, -, rfl⟩ := step_dump_iff.mp hs
    exact ⟨rfl, rfl, Function.update_of_ne hj ..⟩
  | close i =>
    obtain ⟨k, p, -, -, rfl⟩ := step_close_iff.mp hs
    exact ⟨goTo_stage_of_ne hj _, set_vars_of_ne hj _, rfl⟩

/-- The conversion that takes a step stays alive and has one less to take. -/
theorem step_mover (hmem : ∀ i, (d i).maxMem ≠ 0) (hs : step md5 d s a = some s')
    (h : Alive (s.vars a.mover) (s.dir.stage a.mover)) :
    Alive (s'.vars a.mover) (s'.dir.stage a.mover) ∧
      cost (d a.mover) (s'.vars a.mover) (s'.rest a.mover) (s'.dir.stage a.mover) <
        cost (d a.mover) (s.vars a.mover) (s.rest a.mover) (s.dir.stage a.mover) := by
  cases a with
  | count i =>
    obtain ⟨⟨k, hi⟩, hgo, rfl⟩ := step_count_iff.mp hs
    dsimp only [Move.mover] at h ⊢
    rw [set_vars, set_dir, hi]
    rw [hi] at h
    obtain ⟨hhealthy, hlen, hset⟩ := countLine_spec h.healthy (not_eof_of_goesOn hgo)
    refine ⟨⟨hhealthy, h.numbered⟩, ?_⟩
    unfold cost
    dsimp only
    split_ifs <;> omega
  | skip i =>
    obtain ⟨⟨k, hi⟩, hgo, hempty, heof, rfl⟩ := step_skip_iff.mp hs
    dsimp only [Move.mover] at h ⊢
    rw [set_vars, set_dir, hi]
    rw [hi] at h
    refine ⟨⟨h.healthy, Nat.lt_succ_of_lt h.numbered⟩, ?_⟩
    rw [cost_nextChunk (hmem i)]
    unfold cost
    dsimp only
    rw [if_neg (full_of_not_goesOn h.healthy heof hgo)]
    omega
  | sort i =>
    obtain ⟨⟨k, hi, hk⟩, hgo, hne, rfl⟩ := step_sort_iff.mp hs
    dsimp only [Move.mover] at h ⊢
    rw [goTo_stage, hi]
    refine ⟨⟨h.healthy, rfl⟩, ?_⟩
    unfold cost
    dsimp only
    rw [if_neg hne]
    omega
  | test i =>
    obtain ⟨k, n, p, hi, rfl⟩ := step_test_iff.mp hs
    dsimp only [Move.mover] at h ⊢
    rw [goTo_stage, hi]
    rw [hi] at h
    split
    · rename_i htaken
      refine ⟨⟨h.healthy, h.numbered⟩, ?_⟩
      unfold cost
      dsimp only
      omega
    · refine ⟨⟨h.healthy, h.numbered⟩, ?_⟩
      unfold cost
      dsimp only
      omega
  | create i =>
    obtain ⟨k, p, hi, ⟨-, rfl⟩ | ⟨-, rfl⟩⟩ := step_create_iff.mp hs
    · dsimp only [Move.mover] at h ⊢
      rw [goTo_stage, set_vars, hi, Function.update_self]
      rw [hi] at h
      refine ⟨⟨h.healthy, h.numbered⟩, ?_⟩
      unfold cost noteChunk
      dsimp only
      rw [passwordList_length]
      omega
    · dsimp only [Move.mover] at h ⊢
      rw [goTo_stage, set_vars, hi]
      rw [hi] at h
      refine ⟨⟨h.healthy, ?_⟩, ?_⟩
      · rw [h.numbered]
        exact Nat.lt_succ_self _
      · rw [cost_nextChunk (hmem i)]
        unfold cost noteChunk
        dsimp only
        omega
  | dump i =>
    obtain ⟨k, p, phc, rest, hi, hrest, rfl⟩ := step_dump_iff.mp hs
    dsimp only [Move.mover] at h ⊢
    rw [hi, Function.update_self, hrest]
    rw [hi] at h
    refine ⟨h, ?_⟩
    unfold cost
    dsimp only
    rw [List.length_cons]
    omega
  | close i =>
    obtain ⟨k, p, hi, hrest, rfl⟩ := step_close_iff.mp hs
    dsimp only [Move.mover] at h ⊢
    rw [goTo_stage, set_vars, hi, hrest]
    rw [hi] at h
    refine ⟨⟨h.healthy, ?_⟩, ?_⟩
    · rw [h.numbered]
      exact Nat.lt_succ_self _
    · rw [cost_nextChunk (hmem i)]
      unfold cost
      dsimp only
      omega

/-- All conversions are alive. -/
def AllAlive (s : Threads ι) : Prop := ∀ i, Alive (s.vars i) (s.dir.stage i)

omit [DecidableEq ι] in
theorem allAlive_start (hread : Readable d) (fs₀ : FileSystem Path) : AllAlive (start d fs₀) := by
  intro i
  have hinput : (UserPasswordReader.create (d i).inputFile (d i).options).input =
      { content := (d i).inputFile.content } := by
    rw [UserPasswordReader.create_input _ _ (hread i).1, (hread i).2]
  refine ⟨?_, Nat.zero_lt_one⟩
  unfold start nextChunk
  dsimp only
  rw [hinput]
  exact ⟨rfl, Or.inr (TextStream.lines_open _ false).good⟩

theorem AllAlive.step (hmem : ∀ i, (d i).maxMem ≠ 0) (h : AllAlive s)
    (hs : step md5 d s a = some s') : AllAlive s' := by
  intro j
  by_cases hj : j = a.mover
  · subst hj
    exact (step_mover hmem hs (h _)).1
  · obtain ⟨hstage, hvars, -⟩ := step_other hs hj
    rw [hstage, hvars]
    exact h j

/-- A conversion that is not finished can take a step. -/
theorem exists_step (md5 : List UInt8 → Vector UInt8 16) (d : ι → ConvertOperation) {i : ι}
    (h : Alive (s.vars i) (s.dir.stage i)) (hi : ¬ Finished s i) :
    ∃ a t, a.mover = i ∧ ConvertThreads.step md5 d s a = some t := by
  rcases hst : s.dir.stage i with k | ⟨k, n, p⟩ | ⟨k, p⟩ | ⟨k, p⟩
  case counting =>
    rw [hst] at h
    rcases hgo : goesOn (d i) (s.vars i) with _ | _
    · by_cases hempty : (s.vars i).passwordCountSet = []
      · rcases heof : (s.vars i).reader.eof with _ | _
        · exact ⟨.skip i, _, rfl, step_skip_iff.mpr ⟨⟨k, hst⟩, hgo, hempty, heof, rfl⟩⟩
        · exact absurd ⟨⟨k, hst⟩, heof, hempty⟩ hi
      · exact ⟨.sort i, _, rfl, step_sort_iff.mpr ⟨⟨k, hst, h.numbered⟩, hgo, hempty, rfl⟩⟩
    · exact ⟨.count i, _, rfl, step_count_iff.mpr ⟨⟨k, hst⟩, hgo, rfl⟩⟩
  case searching => exact ⟨.test i, _, rfl, step_test_iff.mpr ⟨k, n, p, hst, rfl⟩⟩
  case chosen =>
    rcases hw : s.dir.fs.writable p with _ | _
    · exact ⟨.create i, _, rfl, step_create_iff.mpr ⟨k, p, hst, Or.inr ⟨hw, rfl⟩⟩⟩
    · exact ⟨.create i, _, rfl, step_create_iff.mpr ⟨k, p, hst, Or.inl ⟨hw, rfl⟩⟩⟩
  case writing =>
    rcases hrest : s.rest i with _ | ⟨phc, rest⟩
    · exact ⟨.close i, _, rfl, step_close_iff.mpr ⟨k, p, hst, hrest, rfl⟩⟩
    · exact ⟨.dump i, _, rfl, step_dump_iff.mpr ⟨k, p, phc, rest, hst, hrest, rfl⟩⟩

/-- Where no step can be taken all conversions are finished. -/
theorem AllAlive.stuck_iff (h : AllAlive s) :
    (∀ a, ConvertThreads.step md5 d s a = none) ↔ ∀ i, Finished s i := by
  constructor
  · intro hstuck i
    by_contra hi
    obtain ⟨a, t, -, ha⟩ := exists_step md5 d (h i) hi
    rw [hstuck a] at ha
    cases ha
  · intro hfinished a
    rw [Option.eq_none_iff_forall_ne_some]
    intro t ha
    obtain ⟨⟨k, hk⟩, heof, hempty⟩ := hfinished a.mover
    cases a with
    | count i =>
      have hnot := not_eof_of_goesOn (step_count_iff.mp ha).2.1
      rw [Move.mover] at heof
      rw [heof] at hnot
      cases hnot
    | skip i =>
      have hnot := (step_skip_iff.mp ha).2.2.2.1
      rw [Move.mover] at heof
      rw [heof] at hnot
      cases hnot
    | sort i => exact (step_sort_iff.mp ha).2.2.1 hempty
    | test i =>
      obtain ⟨k', n, p, hi, -⟩ := step_test_iff.mp ha
      exact nomatch hk.symm.trans hi
    | create i =>
      obtain ⟨k', p, hi, -⟩ := step_create_iff.mp ha
      exact nomatch hk.symm.trans hi
    | dump i =>
      obtain ⟨k', p, phc, rest, hi, -⟩ := step_dump_iff.mp ha
      exact nomatch hk.symm.trans hi
    | close i =>
      obtain ⟨k', p, hi, -⟩ := step_close_iff.mp ha
      exact nomatch hk.symm.trans hi

section Bound

variable [Fintype ι]

/-- How many steps all conversions together may still take. -/
def costs (d : ι → ConvertOperation) (s : Threads ι) : Nat :=
  ∑ i, cost (d i) (s.vars i) (s.rest i) (s.dir.stage i)

theorem costs_step (hmem : ∀ i, (d i).maxMem ≠ 0) (h : AllAlive s)
    (hs : step md5 d s a = some s') : costs d s' < costs d s := by
  refine Finset.sum_lt_sum (fun j _ => ?_) ⟨a.mover, Finset.mem_univ _, ?_⟩
  · by_cases hj : j = a.mover
    · subst hj
      exact (step_mover hmem hs (h _)).2.le
    · obtain ⟨hstage, hvars, hrest⟩ := step_other hs hj
      rw [hstage, hvars, hrest]
  · exact (step_mover hmem hs (h _)).2

omit [DecidableEq ι] in
theorem costs_start (hread : Readable d) (hmem : ∀ i, (d i).maxMem ≠ 0)
    (fs₀ : FileSystem Path) :
    costs d (start d fs₀) = 10007 * ∑ i, ((d i).inputFile.content.splitOn 10).length := by
  rw [costs, Finset.mul_sum]
  refine Finset.sum_congr rfl fun i _ => ?_
  have hinput : (UserPasswordReader.create (d i).inputFile (d i).options).input =
      { content := (d i).inputFile.content } := by
    rw [UserPasswordReader.create_input _ _ (hread i).1, (hread i).2]
  have hlines := TextStream.lines_open (d i).inputFile.content false
  refine (cost_nextChunk (hmem i) 0).trans ?_
  dsimp only
  rw [hinput, hlines.remaining_eq]

/-- In whatever order the conversions take their steps, disturbed or not, they take a bounded number
of them, and they are never stuck before all of them are finished. -/
theorem conversions_at_once_finish (md5 : List UInt8 → Vector UInt8 16) (hread : Readable d)
    (hmem : ∀ i, (d i).maxMem ≠ 0) (fs₀ : FileSystem Path) {moves : List (Move ι)}
    (h : run (step md5 d) (start d fs₀) moves = some s) :
    moves.length ≤ 10007 * ∑ i, ((d i).inputFile.content.splitOn 10).length ∧
      ((∀ a, step md5 d s a = none) ↔ ∀ i, Finished s i) := by
  obtain ⟨halive, hle⟩ := run_measure (costs d)
    (fun _ _ _ halive hs => ⟨halive.step hmem hs, costs_step hmem halive hs⟩)
    (allAlive_start hread fs₀) h
  rw [costs_start hread hmem] at hle
  exact ⟨by omega, halive.stuck_iff⟩

/-- The twelve steps of the two conversions are all that they take. -/
theorem conversions_at_once_finish_two :
    ∃ s, run (step firstByte oneLine) (start oneLine emptyDirectory) bothAtOnce = some s ∧
      bothAtOnce.length ≤
        10007 * ∑ i, ((oneLine i).inputFile.content.splitOn 10).length ∧
      ((∀ a, step firstByte oneLine s a = none) ↔ ∀ i, Finished s i) := by
  have hrun : (run (step firstByte oneLine) (start oneLine emptyDirectory) bothAtOnce).isSome := by
    decide +kernel
  obtain ⟨s, hs⟩ := Option.isSome_iff_exists.mp hrun
  exact ⟨s, hs, conversions_at_once_finish firstByte (fun i => ⟨rfl, rfl⟩)
    (fun i => by decide +revert) emptyDirectory hs⟩

end Bound

end Ends

end ConvertThreads

end pwned
