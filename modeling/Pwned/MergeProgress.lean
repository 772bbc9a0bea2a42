-- The progress of a merge. The bar goes up to the number of whole records in
-- the sizes of a chunk, and the loop counts its turns.
import Pwned.MergeCounts

open pwned

namespace merger

/-! ## The bar -/

/-- A bar on which `width` cells can be filled. -/
structure ProgressBar where
  width : BitVec 32
  hi : BitVec 64 := 0

/-- The cells that `update` draws, filled ones first, and nothing where it divides by zero. -/
def ProgressBar.update (bar : ProgressBar) (value : BitVec 64) : Option (List Bool) :=
  if bar.hi = 0 then none
  else
    let w := ((bar.width.signExtend 64 * value / bar.hi).setWidth 32).toInt
    some (List.replicate w.toNat true ++ List.replicate (bar.width.toInt - w).toNat false)

/-- The value is on the bar, which draws no more cells than it has. -/
def ProgressBar.Shows (bar : ProgressBar) (v : BitVec 64) : Prop :=
  v ≤ bar.hi ∧ 0 < bar.hi ∧ ∃ cells ∈ bar.update v, cells.length ≤ bar.width.toNat

/-- A value on the bar of `main` draws its 32 cells. -/
theorem ProgressBar.shows_iff {hi v : BitVec 64} :
    ProgressBar.Shows ⟨32, hi⟩ v ↔ v ≤ hi ∧ 0 < hi := by
  refine ⟨fun h => ⟨h.1, h.2.1⟩, ?_⟩
  rintro ⟨hle, hpos⟩
  have hv : v.toNat ≤ hi.toNat := BitVec.le_def.mp hle
  have hhi : 0 < hi.toNat := BitVec.lt_def.mp hpos
  have hne : hi ≠ 0 := by
    rintro rfl
    exact absurd hhi (by decide)
  have hwidth : (BitVec.signExtend 64 (32 : BitVec 32)).toNat = 32 := by decide
  have hquot : (BitVec.signExtend 64 (32 : BitVec 32) * v / hi).toNat ≤ 32 := by
    rw [BitVec.toNat_udiv, BitVec.toNat_mul, hwidth]
    calc 32 * v.toNat % 2 ^ 64 / hi.toNat ≤ 32 * hi.toNat / hi.toNat :=
          Nat.div_le_div_right ((Nat.mod_le _ _).trans (Nat.mul_le_mul_left 32 hv))
      _ = 32 := Nat.mul_div_cancel _ hhi
  refine ⟨hle, hpos, _, by rw [update, if_neg hne]; rfl, ?_⟩
  set q := BitVec.signExtend 64 (32 : BitVec 32) * v / hi
  have hw : (q.setWidth 32).toInt = q.toNat := by
    rw [BitVec.toInt_eq_toNat_of_lt (by rw [BitVec.toNat_setWidth]; omega),
      BitVec.toNat_setWidth, Nat.mod_eq_of_lt (by omega)]
  have h32 : (32 : BitVec 32).toInt = 32 := by decide
  have hlen : (32 : BitVec 32).toNat = 32 := by decide
  rw [List.length_append, List.length_replicate, List.length_replicate, hw, h32, hlen]
  omega

variable {Path : Type}

/-- `chunkInputSize` of `main`. A file that does not exist has no size. -/
def chunkInputSize (fs : FileSystem Path) : List Path → BitVec 64 → Option (BitVec 64)
  | [], sum => some sum
  | path :: inputFileSlice, sum => do
    let content ← fs.files path
    chunkInputSize fs inputFileSlice (sum + BitVec.ofNat 64 content.length)

/-- The bar of `main` for a chunk. -/
def chunkBar (fs : FileSystem Path) (inputFileSlice : List Path) : Option ProgressBar :=
  (chunkInputSize fs inputFileSlice 0).map fun size =>
    { width := 32, hi := size / BitVec.ofNat 64 PasswordHashAndCount.size }

/-! ## The turns that are left -/

namespace MergerInput

/-- The number of turns that an input is still on top, from what its stream has left. -/
def turnsLeft (m : MergerInput Path) : Nat :=
  if m.isValid then (m.f.content.drop m.f.pos).length / 20 + 2 else 1

/-- A live input can be read on. -/
structure Readable (m : MergerInput Path) : Prop where
  flag : m.phc.hash.isValid = false
  good : m.isValid = true → ∃ bs, m.f.Holds bs

theorem turnsLeft_of_holds {m : MergerInput Path} (hv : m.isValid = true) {bs : List UInt8}
    (h : m.f.Holds bs) : m.turnsLeft = bs.length / 20 + 2 := by
  rw [turnsLeft, if_pos hv, h.rest]

/-- What a read of an open stream makes of an input. -/
theorem read_holds {m : MergerInput Path} (hflag : m.phc.hash.isValid = false)
    {bs : List UInt8} (h : m.f.Holds bs) :
    m.read.Readable ∧ m.read.turnsLeft = bs.length / 20 + 1 := by
  by_cases hlen : bs.length < 20
  · obtain ⟨p, g, hread, -, hp, -⟩ := m.phc.read_short h hlen
    have hdone : m.read.isValid = false := by simp [read, hread]
    refine ⟨⟨?_, ?_⟩, ?_⟩
    · simpa [read, hread] using hp.trans hflag
    · intro hv
      rw [hdone] at hv
      cases hv
    · rw [turnsLeft, hdone, Nat.div_eq_of_lt hlen]
      rfl
  · have hsplit : (Record.decode (bs.take 20)).encode ++ bs.drop 20 = bs := by
      rw [Record.encode_decode (by simp; omega), List.take_append_drop]
    rw [← hsplit] at h
    obtain ⟨g, hread, hg, -⟩ := m.phc.read_of_holds hflag h
    have hvalid : m.read.isValid = true := by simp [read, hread]
    have hholds : m.read.f.Holds (bs.drop 20) := by simpa [read, hread] using hg
    refine ⟨⟨by simp [read, hread], fun _ => ⟨_, hholds⟩⟩, ?_⟩
    rw [turnsLeft_of_holds hvalid hholds, List.length_drop]
    omega

theorem Readable.read {m : MergerInput Path} (h : m.Readable) (hv : m.isValid = true) :
    m.read.Readable ∧ m.read.turnsLeft + 1 = m.turnsLeft := by
  obtain ⟨bs, hbs⟩ := h.good hv
  obtain ⟨hreadable, hleft⟩ := read_holds h.flag hbs
  exact ⟨hreadable, by rw [hleft, turnsLeft_of_holds hv hbs]⟩

/-- An input that was just opened. -/
theorem openInput_spec (addr : Nat) (path : Path) (content : List UInt8) :
    (openInput addr path content).Readable ∧
      (openInput addr path content).turnsLeft = content.length / 20 + 1 :=
  read_holds rfl (InputStream.holds_open content)

end MergerInput

/-- The turns that are left of a queue. -/
def turnsOf (pq : List (MergerInput Path)) : Nat := (pq.map MergerInput.turnsLeft).sum

theorem turnsOf_perm {pq pq' : List (MergerInput Path)} (h : pq.Perm pq') :
    turnsOf pq = turnsOf pq' := (h.map _).sum_eq

@[simp] theorem turnsOf_cons (m : MergerInput Path) (c : List (MergerInput Path)) :
    turnsOf (m :: c) = m.turnsLeft + turnsOf c := rfl

section Turns

variable [DecidableEq Path] {Q : PriorityQueue (@MergerInput.key Path)}

/-- A turn takes one from the turns that are left. -/
theorem Advances.turnsOf {s : Merging Path} {m : MergerInput Path}
    {c pq : List (MergerInput Path)} {fs : FileSystem Path} (h : Advances Q s m c pq fs)
    (hread : ∀ n ∈ m :: c, n.Readable) :
    (∀ n ∈ pq, n.Readable) ∧ merger.turnsOf pq + 1 = merger.turnsOf (m :: c) := by
  obtain ⟨hm, hc⟩ := List.forall_mem_cons.mp hread
  cases h with
  | more hv hv' =>
    obtain ⟨hreadable, hleft⟩ := hm.read hv
    have hperm : (Q.push m.read (Q.pop c)).Perm (m.read :: c) :=
      (Q.push_perm _ _).trans ((Q.pop_perm c).cons _)
    refine ⟨?_, ?_⟩
    · intro n hn
      rcases List.mem_cons.mp (hperm.mem_iff.mp hn) with rfl | hn
      · exact hreadable
      · exact hc n hn
    · rw [turnsOf_perm hperm, turnsOf_cons, turnsOf_cons]
      omega
  | last hv hv' =>
    obtain ⟨hreadable, hleft⟩ := hm.read hv
    refine ⟨List.forall_mem_cons.mpr ⟨hreadable, hc⟩, ?_⟩
    rw [turnsOf_cons, turnsOf_cons]
    omega
  | drop hv hne =>
    refine ⟨fun n hn => hc n ((Q.mem_pop c n).mp hn), ?_⟩
    have hone : m.turnsLeft = 1 := by
      rw [MergerInput.turnsLeft, hv]
      rfl
    rw [turnsOf_perm (Q.pop_perm c), turnsOf_cons, hone, Nat.add_comm]

theorem next_fields (d : MergeOperation Path) (fs : FileSystem Path) :
    (next Q d fs).2.1.entriesProcessed = d.entriesProcessed ∧
      (next Q d fs).2.1.totalEntries = d.totalEntries := by
  unfold next
  split
  · exact ⟨rfl, rfl⟩
  · dsimp only
    split_ifs <;> exact ⟨rfl, rfl⟩

theorem Merging.add_progressed (s : Merging Path) (p : PasswordHashAndCount) :
    (s.add p).progressed = s.progressed ∧ (s.add p).d = s.d := by
  unfold Merging.add
  split_ifs <;> exact ⟨rfl, rfl⟩

/-- The number of entries between two calls of the callback. -/
def updateAfterEntries (totalEntries : BitVec 64) : Nat := max (totalEntries.toNat / 1000) 1

/-- A turn that goes on reports the counter if it is due, and counts. -/
theorem turn_progress {s s' : Merging Path} (h : turn Q s = .inl s') :
    s'.progressed = (if s.d.entriesProcessed.toNat % updateAfterEntries s.d.totalEntries = 0
      then s.progressed.map (· ++ [s.d.entriesProcessed]) else s.progressed) ∧
    s'.d.entriesProcessed = s.d.entriesProcessed + 1 ∧ s'.d.totalEntries = s.d.totalEntries := by
  obtain ⟨hprocessed, htotal⟩ := next_fields (Q := Q) s.d s.fs
  unfold turn at h
  dsimp only at h
  split at h
  · cases h
  · obtain rfl := Sum.inl.inj h
    rw [(Merging.add_progressed _ _).1, (Merging.add_progressed _ _).2]
    dsimp only
    rw [hprocessed, htotal]
    exact ⟨rfl, rfl, rfl⟩

/-- The last turn reports nothing. -/
theorem turn_last {s t : Merging Path} (h : turn Q s = .inr t) :
    t.progressed = s.progressed ∧ t.d.entriesProcessed = s.d.entriesProcessed := by
  have hprocessed := (next_fields (Q := Q) s.d s.fs).1
  unfold turn at h
  dsimp only at h
  split at h
  · obtain rfl := Sum.inr.inj h
    exact ⟨rfl, hprocessed⟩
  · cases h

/-- The values that are reported in the first turns. -/
def reported (updateAfterEntries : Nat) (turns : Nat) : List (BitVec 64) :=
  ((List.range turns).map (BitVec.ofNat 64)).filter fun v => v.toNat % updateAfterEntries = 0

/-- What holds in front of every turn: the turns so far and those that are left are all turns. -/
structure Counting (total : BitVec 64) (turns : Nat) (s : Merging Path) (n : Nat) : Prop where
  nonempty : s.d.pq ≠ []
  readable : ∀ m ∈ s.d.pq, m.Readable
  left : n + turnsOf s.d.pq = turns
  entries : s.d.totalEntries = total
  processed : s.d.entriesProcessed = BitVec.ofNat 64 n
  progressed : s.progressed = some (reported (updateAfterEntries total) n)

theorem reported_succ (u n : Nat) :
    reported u (n + 1) =
      reported u n ++ if (BitVec.ofNat 64 n).toNat % u = 0 then [BitVec.ofNat 64 n] else [] := by
  unfold reported
  rw [List.range_succ, List.map_append, List.filter_append]
  congr 1
  simp [List.filter_cons]

theorem Counting.go {total : BitVec 64} {turns n : Nat} {s s' : Merging Path}
    (h : Counting total turns s n) (hturn : turn Q s = .inl s') :
    Counting total turns s' (n + 1) := by
  obtain ⟨hne, hreadable, hleft, htotal, hprocessed, hprogressed⟩ := h
  obtain ⟨m, c, hpq⟩ := List.exists_cons_of_ne_nil hne
  obtain ⟨hreport, hcount, htotal'⟩ := turn_progress hturn
  rcases turn_cases (Q := Q) hpq with ⟨s₁, pq, fs, hturn₁, hadvances, htook⟩ | ⟨-, -, t, hturn₁, -⟩
  · obtain rfl : s₁ = s' := by
      rw [hturn₁] at hturn
      exact Sum.inl.inj hturn
    rw [hpq] at hreadable hleft
    obtain ⟨hreadable', hless⟩ := hadvances.turnsOf hreadable
    have hpq' := htook.pq
    refine ⟨?_, ?_, ?_, htotal'.trans htotal, ?_, ?_⟩
    · rw [hpq']
      cases hadvances with
      | more => exact Q.push_ne_nil _ _
      | last => exact List.cons_ne_nil _ _
      | drop _ hc => exact mt (Q.pop_eq_nil c).mp hc
    · rw [hpq']
      exact hreadable'
    · rw [hpq']
      omega
    · rw [hcount, hprocessed, BitVec.ofNat_add]
      rfl
    · rw [hreport, hprocessed, htotal, hprogressed, reported_succ]
      split_ifs
      · rfl
      · rw [List.append_nil]
  · rw [hturn₁] at hturn
    cases hturn

theorem Counting.stop {total : BitVec 64} {turns n : Nat} {s t : Merging Path}
    (h : Counting total turns s n) (hturn : turn Q s = .inr t) :
    n + 1 = turns ∧ t.progressed = some (reported (updateAfterEntries total) n) ∧
      t.d.entriesProcessed = BitVec.ofNat 64 n := by
  obtain ⟨hne, hreadable, hleft, htotal, hprocessed, hprogressed⟩ := h
  obtain ⟨m, c, hpq⟩ := List.exists_cons_of_ne_nil hne
  obtain ⟨hreport, hcount⟩ := turn_last hturn
  rcases turn_cases (Q := Q) hpq with ⟨s₁, pq, fs, hturn₁, -⟩ | ⟨hv, rfl, -⟩
  · rw [hturn₁] at hturn
    cases hturn
  · refine ⟨?_, hreport.trans hprogressed, hcount.trans hprocessed⟩
    have hone : m.turnsLeft = 1 := by
      rw [MergerInput.turnsLeft, hv]
      rfl
    rw [hpq, turnsOf_cons, hone] at hleft
    exact hleft

/-- The loop ends after one turn for every turn that is left. -/
theorem Counting.run {total : BitVec 64} {turns : Nat} {s : Merging Path}
    (h : Counting total turns s 0) :
    ∃ t n, Yields (fun fuel => loop (turn Q) fuel s) t ∧ n + 1 = turns ∧
      t.progressed = some (reported (updateAfterEntries total) n) ∧
      t.d.entriesProcessed = BitVec.ofNat 64 n := by
  obtain ⟨t, hy, n, hpost⟩ := loop_yields (turn Q) (fun s => ∃ n, Counting total turns s n)
    (fun t => ∃ n, n + 1 = turns ∧
      t.progressed = some (reported (updateAfterEntries total) n) ∧
      t.d.entriesProcessed = BitVec.ofNat 64 n)
    (fun s => merger.turnsOf s.d.pq)
    (by
      rintro s s' ⟨n, hn⟩ hturn
      have hn' := hn.go hturn
      have hleft := hn.left
      have hleft' := hn'.left
      exact ⟨⟨n + 1, hn'⟩, by omega⟩)
    (fun s t ⟨n, hn⟩ hturn => ⟨n, hn.stop hturn⟩) ⟨0, h⟩
  exact ⟨t, n, hy, hpost⟩

/-! ## Opening the inputs -/

omit [DecidableEq Path] in
theorem openAll_turns {fs : FileSystem Path} {srcFiles : List Path} {contents : List (List UInt8)}
    (h : srcFiles.map fs.files = contents.map some) (addr : Nat) (pq : List (MergerInput Path))
    (sum : BitVec 64) (hpq : ∀ m ∈ pq, m.Readable) :
    ∃ pq', openAll Q fs srcFiles addr pq sum =
        some (pq', sum + BitVec.ofNat 64 (contents.map List.length).sum) ∧
      (∀ m ∈ pq', m.Readable) ∧ pq'.length = pq.length + srcFiles.length ∧
      turnsOf pq' = turnsOf pq + (contents.map fun c => c.length / 20 + 1).sum := by
  induction srcFiles generalizing contents addr pq sum with
  | nil =>
    obtain rfl : contents = [] := by simpa using h.symm
    exact ⟨pq, by simp [openAll], hpq, rfl, rfl⟩
  | cons path srcFiles ih =>
    cases contents with
    | nil => cases h
    | cons content contents =>
      rw [List.map_cons, List.map_cons, List.cons.injEq] at h
      obtain ⟨hcontent, hrest⟩ := h
      obtain ⟨hreadable, hturns⟩ := MergerInput.openInput_spec addr path content
      have hpush : ∀ m ∈ Q.push (.openInput addr path content) pq, m.Readable := by
        intro m hm
        rcases (Q.mem_push _ _ _).mp hm with rfl | hm
        · exact hreadable
        · exact hpq m hm
      obtain ⟨pq', hopen, hreadable', hlen, hturns'⟩ :=
        ih hrest (addr + 1) _ (sum + BitVec.ofNat 64 content.length) hpush
      refine ⟨pq', ?_, hreadable', ?_, ?_⟩
      · rw [openAll, hcontent]
        refine hopen.trans ?_
        rw [List.map_cons, List.sum_cons, BitVec.ofNat_add, BitVec.add_assoc]
      · rw [hlen, (Q.push_perm _ _).length_eq, List.length_cons, List.length_cons]
        omega
      · rw [hturns', turnsOf_perm (Q.push_perm _ _), turnsOf_cons, hturns, List.map_cons,
          List.sum_cons]
        omega

omit [DecidableEq Path] in
theorem chunkInputSize_eq {fs : FileSystem Path} {srcFiles : List Path}
    {contents : List (List UInt8)} (h : srcFiles.map fs.files = contents.map some)
    (sum : BitVec 64) :
    chunkInputSize fs srcFiles sum =
      some (sum + BitVec.ofNat 64 (contents.map List.length).sum) := by
  induction srcFiles generalizing contents sum with
  | nil =>
    obtain rfl : contents = [] := by simpa using h.symm
    simp [chunkInputSize]
  | cons path srcFiles ih =>
    cases contents with
    | nil => cases h
    | cons content contents =>
      rw [List.map_cons, List.map_cons, List.cons.injEq] at h
      rw [chunkInputSize, h.1]
      refine (ih h.2 _).trans ?_
      rw [List.map_cons, List.sum_cons, BitVec.ofNat_add, BitVec.add_assoc]

/-- The calls of the callback in an execution. -/
def calls : Except MergerError (FileSystem Path × Option (List (BitVec 64))) → List (BitVec 64)
  | .ok (_, some progressed) => progressed
  | _ => []

/-- Every value that an execution reports to the bar of its chunk is on the bar. -/
def ProgressInRange (Q : PriorityQueue (@MergerInput.key Path)) (fs : FileSystem Path)
    (srcFiles : List Path) (dst : Path) : Prop :=
  ∃ bar d r, chunkBar fs srcFiles = some bar ∧
    MergeOperation.create Q fs srcFiles dst false = some d ∧
    Yields (fun fuel => execute Q fuel d fs (some [])) r ∧ ∀ v ∈ calls r, bar.Shows v

/-- The upper bound of the bar. -/
def barHi (contents : List (List UInt8)) : BitVec 64 :=
  BitVec.ofNat 64 (contents.map List.length).sum / BitVec.ofNat 64 PasswordHashAndCount.size

/-- What an execution reports: the due values of the counter, and at last the number of all turns
but one. -/
theorem execute_calls {fs : FileSystem Path} {srcFiles : List Path} (dst : Path)
    {contents : List (List UInt8)} (h : srcFiles.map fs.files = contents.map some) :
    ∃ d r, MergeOperation.create Q fs srcFiles dst false = some d ∧
      Yields (fun fuel => execute Q fuel d fs (some [])) r ∧
      ((srcFiles = [] ∨ fs.writable dst = false) ∧ calls r = [] ∨
        srcFiles ≠ [] ∧ fs.writable dst = true ∧
          ∃ n, n + 1 = (contents.map fun c => c.length / 20 + 1).sum ∧
            calls r = reported (updateAfterEntries (barHi contents)) n ++ [BitVec.ofNat 64 n]) := by
  obtain ⟨pq, hopen, hreadable, hlen, hturns⟩ :=
    openAll_turns (Q := Q) h 0 [] 0 (by simp)
  have hcreate : MergeOperation.create Q fs srcFiles dst false = some
      { pq, dstFilePath := dst, removeInputFilesAfterMerge := false,
        totalEntries := barHi contents } := by
    rw [MergeOperation.create, hopen]
    simp [barHi]
  cases hpq : pq with
  | nil =>
    have hsrc : srcFiles = [] := by
      rw [hpq] at hlen
      simpa using hlen.symm
    exact ⟨_, .ok (fs, some []), hcreate, Yields.of_eq fun fuel => by simp [execute, start, hpq],
      Or.inl ⟨Or.inl hsrc, rfl⟩⟩
  | cons m c =>
    have hsrc : srcFiles ≠ [] := by
      rintro rfl
      simp [hpq] at hlen
    cases hw : fs.writable dst with
    | false =>
      exact ⟨_, .error .cannotWriteToFile, hcreate,
        Yields.of_eq fun fuel => by simp [execute, start, hpq, hw], Or.inl ⟨Or.inr rfl, rfl⟩⟩
    | true =>
      have hcount : Counting (barHi contents) (contents.map fun c => c.length / 20 + 1).sum
          { d := { pq, dstFilePath := dst, removeInputFilesAfterMerge := false,
                   totalEntries := barHi contents },
            fs := fs.create dst, current := m.phc, progressed := some [] } 0 := by
        refine ⟨by simp [hpq], hreadable, ?_, rfl, rfl, rfl⟩
        rw [hturns]
        simp [turnsOf]
      obtain ⟨t, n, hy, hn, hprogressed, hprocessed⟩ := hcount.run (Q := Q)
      refine ⟨_, .ok (finish t), hcreate, ?_, Or.inr ⟨hsrc, rfl, n, hn, ?_⟩⟩
      · have hmap := hy.map fun t => (Except.ok (finish t) : Except MergerError _)
        simpa [execute, start, hpq, hw] using hmap
      · rw [finish, hprogressed, hprocessed]
        rfl

/-! ## The range -/

/-- The values that are reported stay below a bound if their number does. -/
theorem reported_le_iff {hi n : Nat} (hpos : 0 < hi) (hhi : 2 * hi < 2 ^ 64) :
    (∀ v ∈ reported (max (hi / 1000) 1) n ++ [BitVec.ofNat 64 n], v.toNat ≤ hi) ↔ n ≤ hi := by
  set u := max (hi / 1000) 1 with hu
  have hu_pos : 0 < u := Nat.lt_of_lt_of_le Nat.one_pos (le_max_right _ _)
  have hu_le : u ≤ hi := max_le (Nat.div_le_self _ _) hpos
  constructor
  · intro h
    by_contra hlt
    by_cases hn : n < 2 ^ 64
    · have hlast := h (BitVec.ofNat 64 n) (by simp)
      rw [BitVec.toNat_ofNat, Nat.mod_eq_of_lt hn] at hlast
      exact hlt hlast
    · -- the first due value above the bound is reported before the counter wraps
      have hdiv := Nat.div_add_mod hi u
      have hmod := Nat.mod_lt hi hu_pos
      have hdue : u * (hi / u + 1) = u * (hi / u) + u := Nat.mul_succ _ _
      have hvalue : (BitVec.ofNat 64 (u * (hi / u + 1))).toNat = u * (hi / u + 1) := by
        rw [BitVec.toNat_ofNat, Nat.mod_eq_of_lt (by omega)]
      have hmem : BitVec.ofNat 64 (u * (hi / u + 1)) ∈ reported u n := by
        unfold reported
        rw [List.mem_filter, hvalue, List.mem_map]
        exact ⟨⟨_, List.mem_range.mpr (by omega), rfl⟩, by simp⟩
      have hle := h _ (List.mem_append_left _ hmem)
      rw [hvalue] at hle
      omega
  · intro hle v hv
    rcases List.mem_append.mp hv with hv | hv
    · unfold reported at hv
      obtain ⟨i, hi', rfl⟩ := List.mem_map.mp (List.mem_of_mem_filter hv)
      have hlt := List.mem_range.mp hi'
      rw [BitVec.toNat_ofNat]
      exact (Nat.mod_le _ _).trans (by omega)
    · rw [List.mem_singleton.mp hv, BitVec.toNat_ofNat]
      exact (Nat.mod_le _ _).trans hle

/-- The whole records of the files and the bytes behind them. -/
theorem whole_records (contents : List (List UInt8)) :
    (contents.map fun c => c.length / 20 + 1).sum =
        (contents.map fun c => c.length / 20).sum + contents.length ∧
      20 * (contents.map fun c => c.length / 20).sum ≤ (contents.map List.length).sum ∧
      (contents.map List.length).sum ≤
        20 * (contents.map fun c => c.length / 20).sum + 19 * contents.length := by
  induction contents with
  | nil => exact ⟨rfl, le_rfl, le_rfl⟩
  | cons c contents ih =>
    obtain ⟨hturns, hlow, hhigh⟩ := ih
    simp only [List.map_cons, List.sum_cons, List.length_cons]
    omega

end Turns

/-- Two files of a record and a half. -/
def twoHalves : FileSystem Nat where
  files p := if p < 2 then some (List.replicate 30 0) else none
  writable _ := true

/-- Two files of one record each. -/
def twoRecords : FileSystem Nat where
  files p := if p < 2 then some (List.replicate 20 0) else none
  writable _ := true

end merger
