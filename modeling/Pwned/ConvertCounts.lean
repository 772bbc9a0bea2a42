-- What a conversion writes: every line with a hash is counted once, in one
-- of the chunks, and a chunk is a file of whole records in order.
import Pwned.ConvertOperation

namespace pwned

namespace ConvertOperation

/-! ## The map of a chunk -/

/-- What the entries of the map are written as. -/
def records (set : List (Hash × BitVec 32)) : List Record :=
  set.map fun i => PasswordHashAndCount.record { hash := i.1, count := i.2 }

def Chunk.records (c : Chunk) : List Record := c.passwordList.map PasswordHashAndCount.record

@[simp] theorem records_nil : records [] = [] := rfl

@[simp] theorem records_cons (i : Hash × BitVec 32) (set : List (Hash × BitVec 32)) :
    records (i :: set) =
      PasswordHashAndCount.record { hash := i.1, count := i.2 } :: records set := rfl

variable {hash : Hash} {set : List (Hash × BitVec 32)}

theorem mem_records_addOne {r : Record} (h : r ∈ records (addOne hash set)) :
    r.key = hash.key ∨ r ∈ records set := by
  induction set with
  | nil =>
    rw [addOne, records_cons, records_nil, List.mem_singleton] at h
    rw [h]
    exact Or.inl rfl
  | cons i set ih =>
    unfold addOne at h
    split_ifs at h with h₁ h₂
    · rcases List.mem_cons.mp h with rfl | h
      · exact Or.inl rfl
      · exact Or.inr h
    · rcases List.mem_cons.mp h with rfl | h
      · exact Or.inr (by simp)
      · exact (ih h).imp id (List.mem_cons_of_mem _)
    · rw [Hash.lt_iff] at h₁ h₂
      rcases List.mem_cons.mp h with rfl | h
      · exact Or.inl (by simp only [PasswordHashAndCount.record_key]; omega)
      · exact Or.inr (List.mem_cons_of_mem _ h)

theorem addOne_increasing (h : StrictlyIncreasing (records set)) :
    StrictlyIncreasing (records (addOne hash set)) := by
  induction set with
  | nil => exact List.pairwise_singleton _ _
  | cons i set ih =>
    obtain ⟨hi, hset⟩ := List.pairwise_cons.mp h
    unfold addOne
    split_ifs with h₁ h₂
    · rw [Hash.lt_iff] at h₁
      refine List.pairwise_cons.mpr ⟨fun r hr => ?_, h⟩
      rcases List.mem_cons.mp hr with rfl | hr
      · exact h₁
      · exact h₁.trans (hi r hr)
    · rw [Hash.lt_iff] at h₂
      refine List.pairwise_cons.mpr ⟨fun r hr => ?_, ih hset⟩
      rcases mem_records_addOne hr with hk | hr
      · rw [hk]
        exact h₂
      · exact hi r hr
    · exact List.pairwise_cons.mpr ⟨hi, hset⟩

theorem tally_entry (i : Hash × BitVec 32) (k : Nat) :
    tally (records (i :: set)) k = (if i.1.key = k then i.2.toNat else 0) + tally (records set) k :=
  tally_cons _ _ k

/-- The count of a hash goes up by one while its 32 bits hold it, and no other count changes. -/
theorem tally_addOne (k : Nat) (h : hash.key = k → tally (records set) k + 1 < 2 ^ 32) :
    tally (records (addOne hash set)) k =
      tally (records set) k + if hash.key = k then 1 else 0 := by
  induction set with
  | nil =>
    rw [addOne, tally_entry]
    simp
  | cons i set ih =>
    rw [tally_entry] at h ⊢
    unfold addOne
    by_cases h₁ : hash.lt i.1
    · rw [if_pos h₁, tally_entry, tally_entry, Nat.add_comm]
      rfl
    · rw [if_neg h₁]
      by_cases h₂ : i.1.lt hash
      · rw [if_pos h₂, tally_entry, ih fun hk => by have := h hk; omega, Nat.add_assoc]
      · rw [if_neg h₂, tally_entry]
        rw [Hash.lt_iff] at h₁ h₂
        have hk : i.1.key = hash.key := by omega
        dsimp only
        rw [hk] at h ⊢
        by_cases hkk : hash.key = k
        · have hone : (1 : BitVec 32).toNat = 1 := rfl
          have hlt := h hkk
          rw [if_pos hkk] at hlt ⊢
          rw [if_pos hkk, if_pos hkk, BitVec.toNat_add, hone, Nat.mod_eq_of_lt (by omega)]
          omega
        · simp only [if_neg hkk]
          omega

/-- The map in the order of its hashes is sorted already. -/
theorem passwordList_records (h : StrictlyIncreasing (records set)) :
    (passwordList set).map PasswordHashAndCount.record = records set := by
  have hle : (set.map fun i => (⟨i.1, i.2⟩ : PasswordHashAndCount)).Pairwise
      fun lhs rhs => (!rhs.hash.lt lhs.hash) = true := by
    rw [List.pairwise_map]
    unfold StrictlyIncreasing records at h
    rw [List.pairwise_map] at h
    refine h.imp fun {i j} hij => ?_
    rw [Bool.not_eq_true', Bool.eq_false_iff, Ne, Hash.lt_iff]
    exact hij.le.not_gt
  unfold passwordList
  rw [List.mergeSort_of_pairwise hle, List.map_map]
  rfl

/-! ## The lines -/

section Lines

variable (md5 : List UInt8 → Vector UInt8 16) (r₀ : UserPasswordReader)

/-- The reader finds the hash with this key in the line. -/
def gives (k : Nat) (line : List UInt8) : Bool :=
  (r₀.lineHash md5 line).isValid && (r₀.lineHash md5 line).key == k

/-- In how many of the lines the reader finds a hash. -/
def lineCount (lines : List (List UInt8)) (k : Nat) : Nat := lines.countP (gives md5 r₀ k)

/-- The sum of the counts of a hash over the chunks. -/
def chunkTally (chunks : List Chunk) (k : Nat) : Nat :=
  (chunks.map fun c => tally c.records k).sum

theorem chunkTally_concat (chunks : List Chunk) (c : Chunk) (k : Nat) :
    chunkTally (chunks ++ [c]) k = chunkTally chunks k + tally c.records k := by
  simp [chunkTally]

/-- Records in order, none with an empty count while the counts fit their 32 bits. -/
structure InOrder (lines : List (List UInt8)) (rs : List Record) : Prop where
  increasing : StrictlyIncreasing rs
  positive : ∀ r ∈ rs, lineCount md5 r₀ lines r.key < 2 ^ 32 → 0 < r.count.toNat

/-- The state between two turns: the lines that were read are counted in the chunks and in the
map, and the others are still to come. -/
structure Counting (lines : List (List UInt8)) (s : Converting) : Prop where
  settings : UserPasswordReader.SameSettings r₀ s.reader
  healthy : s.reader.input.Healthy
  conserved : ∀ k, lineCount md5 r₀ lines k < 2 ^ 32 →
    chunkTally s.chunks k + tally (records s.passwordCountSet) k +
      lineCount md5 r₀ s.reader.input.remaining k = lineCount md5 r₀ lines k
  set : InOrder md5 r₀ lines (records s.passwordCountSet)
  chunk : ∀ c ∈ s.chunks, c.records ≠ [] ∧ InOrder md5 r₀ lines c.records

variable {md5 r₀} {lines : List (List UInt8)} {s : Converting}

theorem inOrder_nil : InOrder md5 r₀ lines [] := ⟨List.Pairwise.nil, fun _ hr => nomatch hr⟩

theorem InOrder.addOne {set : List (Hash × BitVec 32)} (h : InOrder md5 r₀ lines (records set))
    {hash : Hash}
    (hlt : lineCount md5 r₀ lines hash.key < 2 ^ 32 →
      tally (records set) hash.key + 1 < 2 ^ 32) :
    InOrder md5 r₀ lines (records (addOne hash set)) := by
  refine ⟨addOne_increasing h.increasing, fun r hr hk => ?_⟩
  by_cases hkey : hash.key = r.key
  · have hlt' : tally (records set) r.key + 1 < 2 ^ 32 := by
      rw [← hkey] at hk ⊢
      exact hlt hk
    have hcount := tally_addOne r.key fun _ : hash.key = r.key => hlt'
    rw [(addOne_increasing h.increasing).tally_eq hr, if_pos hkey] at hcount
    omega
  · rcases mem_records_addOne hr with hk' | hr
    · exact absurd hk'.symm hkey
    · exact h.positive r hr hk

theorem lineCount_cons (l : List UInt8) (ls : List (List UInt8)) (k : Nat) :
    lineCount md5 r₀ (l :: ls) k =
      lineCount md5 r₀ ls k + if gives md5 r₀ k l then 1 else 0 := List.countP_cons

/-- A line goes from those that are still to come into the map. -/
theorem Counting.countLine (h : Counting md5 r₀ lines s) (he : s.reader.eof = false) :
    Counting md5 r₀ lines (countLine md5 s) ∧
      (countLine md5 s).reader.input.remaining.length + 1 = s.reader.input.remaining.length := by
  have hlines := TextStream.lines_remaining (h.healthy.good he)
  obtain ⟨l, ls, hls⟩ := List.exists_cons_of_ne_nil hlines.ne_nil
  have hcons := h.conserved
  rw [hls] at hlines hcons
  obtain ⟨hhash, hhealthy, hrem⟩ :=
    UserPasswordReader.nextPasswordHash_of_lines md5 hlines h.healthy.unbroken
  rw [h.settings.lineHash_eq] at hhash
  unfold ConvertOperation.countLine
  dsimp only
  rw [hhash, hrem, hls]
  simp only [lineCount_cons] at hcons
  refine ⟨⟨h.settings.trans (UserPasswordReader.sameSettings_nextPasswordHash md5 s.reader),
    hhealthy, ?_, ?_, h.chunk⟩, rfl⟩
  · intro k hk
    have hk' := hcons k hk
    dsimp only
    rw [hrem]
    split
    · rename_i hv
      have hgives : gives md5 r₀ k l = true ↔ (r₀.lineHash md5 l).key = k := by simp [gives, hv]
      rw [tally_addOne k fun hkey => by rw [if_pos (hgives.mpr hkey)] at hk'; omega]
      simp only [hgives] at hk'
      omega
    · rename_i hv
      have hgives : gives md5 r₀ k l = false := by simp [gives, hv]
      rw [hgives] at hk'
      exact hk'
  · dsimp only
    split
    · rename_i hv
      refine h.set.addOne fun hk => ?_
      have hk' := hcons _ hk
      have hgives : gives md5 r₀ (r₀.lineHash md5 l).key l = true := by simp [gives, hv]
      rw [if_pos hgives] at hk'
      omega
    · exact h.set

/-- A chunk takes what is in the map. -/
theorem Counting.nextChunk (h : Counting md5 r₀ lines s) (d : ConvertOperation) :
    Counting md5 r₀ lines (nextChunk (writeChunk d s)) := by
  have hrec := passwordList_records h.set.increasing
  unfold ConvertOperation.writeChunk
  split
  · rename_i hempty
    refine ⟨h.settings, h.healthy, ?_, inOrder_nil, h.chunk⟩
    have hcons := h.conserved
    rw [List.isEmpty_iff.mp hempty] at hcons
    exact hcons
  · rename_i hne
    refine ⟨h.settings, h.healthy, fun k hk => ?_, inOrder_nil, fun c hc => ?_⟩
    · have hk' := h.conserved k hk
      unfold ConvertOperation.nextChunk
      dsimp only
      rw [chunkTally_concat, Chunk.records, hrec]
      exact hk'
    · rcases List.mem_append.mp hc with hc | hc
      · exact h.chunk c hc
      · rw [List.mem_singleton.mp hc, Chunk.records, hrec]
        refine ⟨fun hnil => ?_, h.set⟩
        rw [records, List.map_eq_nil_iff] at hnil
        simp [hnil] at hne

end Lines

/-! ## The files -/

theorem encodeAll_record (l : List PasswordHashAndCount) :
    encodeAll (l.map PasswordHashAndCount.record) = l.flatMap PasswordHashAndCount.dump := by
  rw [encodeAll, List.flatMap_map]
  rfl

variable {d : ConvertOperation} {s : Converting}

@[simp] theorem writeChunk_reader : (writeChunk d s).reader = s.reader := by
  unfold writeChunk
  split <;> rfl

/-- Every chunk could be opened under a name that was not taken. -/
def FreshNames (s : Converting) : Prop := ∀ c ∈ s.chunks, c.existed = false ∧ c.opened = true

/-- Every chunk is in a file of its own. -/
structure Written (s : Converting) : Prop where
  names : (s.chunks.map Chunk.path).Nodup
  files : ∀ c ∈ s.chunks, s.fs.files c.path = some (encodeAll c.records)

/-- A chunk under a name that is not taken leaves the chunks before it as they are. -/
theorem Written.writeChunk (h : FreshNames s → Written s)
    (hfresh : FreshNames (writeChunk d s)) : Written (writeChunk d s) := by
  unfold ConvertOperation.writeChunk at hfresh ⊢
  split at hfresh
  · rename_i hempty
    rw [if_pos hempty]
    exact h hfresh
  · rename_i hne
    rw [if_neg hne]
    obtain ⟨hnew, hopen⟩ := hfresh _ (List.mem_append_right _ (List.mem_singleton_self _))
    have hs := h fun c hc => hfresh c (List.mem_append_left _ hc)
    have hnone : s.fs.files (d.outputName s.fs.fileExists s.splitFileNum) = none := by
      simpa [FileSystem.fileExists] using hnew
    have hother : ∀ c ∈ s.chunks, c.path ≠ d.outputName s.fs.fileExists s.splitFileNum := by
      intro c hc he
      have hc' := hs.files c hc
      rw [he, hnone] at hc'
      cases hc'
    dsimp only at hopen ⊢
    rw [if_pos hopen]
    constructor
    · rw [List.map_append, List.nodup_append]
      refine ⟨hs.names, List.nodup_singleton _, ?_⟩
      intro p hp q hq
      obtain ⟨c, hc, rfl⟩ := List.mem_map.mp hp
      rw [List.map_singleton, List.mem_singleton] at hq
      rw [hq]
      exact hother c hc
    · intro c hc
      rcases List.mem_append.mp hc with hc | hc
      · rw [FileSystem.append_files_of_ne _ _ (hother c hc),
          FileSystem.create_files_of_ne _ _ (hother c hc), hs.files c hc]
      · rw [List.mem_singleton.mp hc, FileSystem.append_files, FileSystem.create_files,
          Option.map_some, List.nil_append, Chunk.records, encodeAll_record]

/-! ## The whole conversion -/

section Execute

variable (md5 : List UInt8 → Vector UInt8 16)

/-- What the loops keep. -/
def Keeps (r₀ : UserPasswordReader) (lines : List (List UInt8)) (s : Converting) : Prop :=
  Counting md5 r₀ lines s ∧ (FreshNames s → Written s)

/-- The lines of the text are in the chunks, each in one. -/
structure CountsEveryLine (r₀ : UserPasswordReader) (lines : List (List UInt8)) (s : Converting) :
    Prop where
  written : Written s
  chunk : ∀ c ∈ s.chunks, c.records ≠ [] ∧ InOrder md5 r₀ lines c.records
  conserved : ∀ k, lineCount md5 r₀ lines k < 2 ^ 32 →
    chunkTally s.chunks k = lineCount md5 r₀ lines k

/-- Two for every line to come, and one where the chunk is full. -/
def work (d : ConvertOperation) (s : Converting) : Nat :=
  2 * s.reader.input.remaining.length + if s.memUsage < d.maxMem then 0 else 1

variable {md5} {r₀ : UserPasswordReader} {lines : List (List UInt8)}

theorem Keeps.turn_inl (hmem : d.maxMem ≠ 0) {s' : Converting} (h : Keeps md5 r₀ lines s)
    (ht : turn md5 d s = .inl s') : Keeps md5 r₀ lines s' ∧ work d s' < work d s := by
  unfold turn at ht
  split at ht
  · rename_i hgo
    simp only [Bool.and_eq_true, Bool.not_eq_true', decide_eq_true_eq] at hgo
    obtain ⟨hcount, hlen⟩ := h.1.countLine hgo.1.1
    rw [← Sum.inl.inj ht]
    refine ⟨⟨hcount, fun hf => ⟨(h.2 hf).names, (h.2 hf).files⟩⟩, ?_⟩
    unfold work
    rw [if_pos hgo.2]
    split <;> omega
  · rename_i hgo
    dsimp only at ht
    split at ht
    · cases ht
    · rename_i he
      rw [writeChunk_reader, Bool.not_eq_true] at he
      have hbad : s.reader.bad = false :=
        ((TextStream.good_iff _).mp (h.1.healthy.good he)).2.2
      rw [← Sum.inl.inj ht]
      have hwritten : FreshNames (writeChunk d s) → Written (writeChunk d s) :=
        Written.writeChunk h.2
      refine ⟨⟨h.1.nextChunk d, fun hf => ⟨(hwritten hf).names, (hwritten hf).files⟩⟩, ?_⟩
      have hfull : ¬ s.memUsage < d.maxMem := by simpa [he, hbad] using hgo
      have hpos : (nextChunk (writeChunk d s)).memUsage < d.maxMem := by
        rw [BitVec.lt_def]
        exact Nat.pos_of_ne_zero fun h0 => hmem (BitVec.eq_of_toNat_eq h0)
      unfold work
      rw [if_neg hfull, if_pos hpos]
      simp [nextChunk]

theorem Keeps.turn_inr {s' : Converting} (h : Keeps md5 r₀ lines s)
    (ht : turn md5 d s = .inr s') (hf : FreshNames s') : CountsEveryLine md5 r₀ lines s' := by
  unfold turn at ht
  split at ht
  · cases ht
  · dsimp only at ht
    split at ht
    · rename_i he
      rw [writeChunk_reader] at he
      rw [← Sum.inr.inj ht] at hf ⊢
      have hnext := h.1.nextChunk d
      refine ⟨Written.writeChunk h.2 hf, hnext.chunk, fun k hk => ?_⟩
      have hk' := hnext.conserved k hk
      unfold nextChunk at hk'
      rw [writeChunk_reader, TextStream.remaining_of_eof he] at hk'
      exact hk'
    · cases ht

/-- A conversion of a file that can be read ends, and every line is counted once. -/
theorem execute_counts (md5 : List UInt8 → Vector UInt8 16) (d : ConvertOperation)
    (fs : FileSystem Path) (hopen : d.inputFile.isOpen = true) (hb : d.inputFile.broken = false)
    (hmem : d.maxMem ≠ 0) :
    ∃ s, Yields (fun fuel => execute md5 d fuel fs) s ∧
      (FreshNames s →
        CountsEveryLine md5 (UserPasswordReader.create d.inputFile d.options)
          (d.inputFile.content.splitOn 10) s) := by
  let start : Converting := { reader := UserPasswordReader.create d.inputFile d.options, fs }
  let lines := d.inputFile.content.splitOn 10
  have hinput : start.reader.input = { content := d.inputFile.content } := by
    rw [UserPasswordReader.create_input d.inputFile d.options hopen, hb]
  have hlines := TextStream.lines_open d.inputFile.content false
  have hstart : Keeps md5 start.reader lines (nextChunk start) := by
    refine ⟨⟨⟨rfl, rfl, rfl⟩, ?_, fun k _ => ?_, inOrder_nil, nofun⟩,
      fun _ => ⟨List.nodup_nil, nofun⟩⟩
    · unfold nextChunk
      rw [hinput]
      exact ⟨rfl, Or.inr hlines.good⟩
    · unfold nextChunk
      dsimp only
      rw [hinput, hlines.remaining_eq]
      exact Nat.zero_add _
  obtain ⟨s, hs, hpost⟩ := loop_yields (turn md5 d) (Keeps md5 start.reader lines)
    (fun s => FreshNames s → CountsEveryLine md5 start.reader lines s) (work d)
    (fun s s' h ht => h.turn_inl hmem ht) (fun s s' h ht hf => h.turn_inr ht hf) hstart
  refine ⟨s, ?_, hpost⟩
  have heof : start.reader.eof = false := by
    unfold UserPasswordReader.eof
    rw [hinput]
  unfold execute
  simpa only [start, heof, Bool.false_eq_true, if_false] using hs

/-- The chunks of a text hold every hash as often as the lines give it. -/
theorem every_line_is_counted_once (md5 : List UInt8 → Vector UInt8 16) (d : ConvertOperation)
    (fs : FileSystem Path) (text : List UInt8) (hin : d.inputFile = { content := text })
    (hmem : d.maxMem ≠ 0) :
    ∃ s, Yields (fun fuel => execute md5 d fuel fs) s ∧
      (FreshNames s →
        CountsEveryLine md5 (UserPasswordReader.create d.inputFile d.options)
          (text.splitOn 10) s) := by
  have hcounts := execute_counts md5 d fs (by rw [hin]) (by rw [hin]) hmem
  have hcontent : d.inputFile.content = text := by rw [hin]
  rwa [hcontent] at hcounts

theorem execute_yields_of_eq {n : Nat}
    {fs : FileSystem Path}
    (h : execute md5 d n fs = some s) : Yields (fun fuel => execute md5 d fuel fs) s := by
  unfold execute at h ⊢
  dsimp only at h ⊢
  split at h
  · rename_i he
    simp only [if_pos he]
    exact Yields.of_eq fun _ => h
  · rename_i he
    simp only [if_neg he]
    exact loop_yields_of_eq _ h

end Execute

/-! ### A conversion of three lines -/

def firstByte (pwd : List UInt8) : Vector UInt8 16 := Vector.replicate 16 (pwd.headD 0)

/-- The lines `a`, `b` and `a`, each more than the memory holds. -/
def threeLines : ConvertOperation where
  srcFilePath := [120]
  dstPath := []
  outputExt := []
  maxMem := 68
  options := []
  inputFile := { content := [97, 10, 98, 10, 97] }

def emptyDirectory : FileSystem Path := ⟨fun _ => none, fun _ => true⟩

theorem every_line_is_counted_once_three_lines :
    ∃ s, Yields (fun fuel => execute firstByte threeLines fuel emptyDirectory) s ∧
      s.chunks.length = 3 ∧
      CountsEveryLine firstByte (UserPasswordReader.create threeLines.inputFile [])
        [[97], [98], [97]] s := by
  have hrun : ((execute firstByte threeLines 20 emptyDirectory).map fun s =>
      (s.chunks.length, s.chunks.all fun c => !c.existed && c.opened)) = some (3, true) := by
    decide +kernel
  obtain ⟨s', hs', hchunks⟩ := Option.map_eq_some_iff.mp hrun
  obtain ⟨hlen, hfresh⟩ := Prod.mk.inj hchunks
  obtain ⟨s, hs, hpost⟩ := every_line_is_counted_once firstByte threeLines emptyDirectory
    [97, 10, 98, 10, 97] rfl (by decide)
  obtain rfl := hs.unique (execute_yields_of_eq hs')
  refine ⟨s, hs, hlen, hpost fun c hc => ?_⟩
  simpa using List.all_eq_true.mp hfresh c hc

end ConvertOperation

end pwned
