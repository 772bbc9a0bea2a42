-- The turns of a merge one after the other, whatever stands behind the records
-- of its files: a turn takes a whole record, or once more what an exhausted
-- input still holds.
import Pwned.MergeEntries
import Pwned.MergeResult
import Pwned.TruncatedLookup

open pwned

namespace merger

/-! ## Files with an incomplete record -/

/-- Whole records, and what is there of one more. -/
structure TailedFile where
  records : List Record
  tail : List UInt8
  increasing : StrictlyIncreasing records
  tail_lt : tail.length < 20

namespace TailedFile

def bytes (src : TailedFile) : List UInt8 := encodeAll src.records ++ src.tail

theorem nil_lt : ([] : List UInt8).length < 20 := by decide

/-- The file without its incomplete record. -/
def whole (src : TailedFile) : TailedFile := { src with tail := [], tail_lt := nil_lt }

/-- The last whole record. -/
def last (src : TailedFile) : Record := (PasswordInspector.lastEntry src.records).record

/-- What the last read leaves in the entry: the incomplete record over the last whole one. -/
def cut (src : TailedFile) : Record := PasswordInspector.cut src.records src.tail

/-- What is in the queue when the input is exhausted. An input without a whole record gets there
with what its first read left. -/
def held (src : TailedFile) : Record := if src.records = [] then src.cut else src.last

theorem last_of_concat {src : TailedFile} {rs : List Record} {r : Record}
    (h : src.records = rs ++ [r]) : src.last = r := by
  rw [last, PasswordInspector.lastEntry, h, List.getLast?_concat]
  rfl

theorem cut_whole (src : TailedFile) : src.whole.cut = src.last :=
  PasswordHashAndCount.overlay_of_prefix List.nil_prefix

theorem held_of_ne {src : TailedFile} (h : src.records ≠ []) : src.held = src.last := if_neg h

theorem held_of_eq {src : TailedFile} (h : src.records = []) : src.held = src.cut := if_pos h

theorem last_mem {src : TailedFile} (h : src.records ≠ []) : src.last ∈ src.records := by
  obtain ⟨rs, r, hrs⟩ := (List.eq_nil_or_concat' src.records).resolve_left h
  rw [last_of_concat hrs, hrs]
  exact List.mem_concat_self

theorem le_last {src : TailedFile} {r : Record} (hr : r ∈ src.records) :
    r.key ≤ src.last.key := by
  obtain ⟨rs, q, hrs⟩ :=
    (List.eq_nil_or_concat' src.records).resolve_left (List.ne_nil_of_mem hr)
  rw [last_of_concat hrs]
  have hinc := src.increasing
  rw [hrs] at hinc hr
  rcases List.mem_append.mp hr with hr | hr
  · exact ((strictlyIncreasing_concat.mp hinc).2 _ (mem_keys.mpr ⟨r, hr, rfl⟩)).le
  · rw [List.mem_singleton.mp hr]

end TailedFile

/-! ## Steps -/

/-- What a turn takes: a whole record of a file, or what its exhausted input holds. Files are
named by their numbers. -/
inductive Step where
  | whole (a : Nat) (r : Record)
  | again (a : Nat)
deriving DecidableEq

/-- The record that a step brings. -/
def Step.entry (files : List TailedFile) : Step → Record
  | .whole _ r => r
  | .again a => ((files[a]?).map TailedFile.cut).getD ⟨0, 0, 0⟩

/-- The whole records of a file that were taken. -/
def taken (L : List Step) (a : Nat) : List Record :=
  L.filterMap fun
    | .whole b r => if b = a then some r else none
    | .again _ => none

/-- The files whose exhausted inputs were taken off. -/
def agains (L : List Step) : List Nat :=
  L.filterMap fun
    | .whole _ _ => none
    | .again a => some a

@[simp] theorem taken_whole (L : List Step) (a b : Nat) (r : Record) :
    taken (L ++ [.whole b r]) a = taken L a ++ if b = a then [r] else [] := by
  unfold taken
  rw [List.filterMap_append]
  split <;> simp_all

@[simp] theorem taken_again (L : List Step) (a b : Nat) :
    taken (L ++ [.again b]) a = taken L a := by
  simp [taken]

@[simp] theorem agains_whole (L : List Step) (b : Nat) (r : Record) :
    agains (L ++ [.whole b r]) = agains L := by
  simp [agains]

@[simp] theorem agains_again (L : List Step) (b : Nat) :
    agains (L ++ [.again b]) = agains L ++ [b] := by
  simp [agains]

theorem mem_taken {L : List Step} {a : Nat} {r : Record} :
    r ∈ taken L a ↔ .whole a r ∈ L := by
  simp only [taken, List.mem_filterMap]
  constructor
  · rintro ⟨x, hx, he⟩
    cases x with
    | whole b q =>
      simp only [Option.ite_none_right_eq_some, Option.some.injEq] at he
      obtain ⟨rfl, rfl⟩ := he
      exact hx
    | again b => cases he
  · intro h
    exact ⟨_, h, by simp⟩

theorem mem_agains {L : List Step} {a : Nat} : a ∈ agains L ↔ .again a ∈ L := by
  simp only [agains, List.mem_filterMap]
  constructor
  · rintro ⟨x, hx, he⟩
    cases x with
    | whole b q => cases he
    | again b =>
      cases he
      exact hx
  · intro h
    exact ⟨_, h, rfl⟩

variable {Path : Type}

/-- The step of a turn with the input on top. -/
def MergerInput.step (m : MergerInput Path) : Step :=
  if m.isValid then .whole m.addr m.phc.record else .again m.addr

/-! ## Inputs -/

/-- An input on a file from which `seen` was taken: it is at the next record, or it is exhausted
and holds what the last read left. -/
structure OnFile (src : TailedFile) (seen : List Record) (m : MergerInput Path) : Prop where
  flag : m.phc.hash.isValid = false
  live : m.isValid = true → ∃ rest, src.records = seen ++ m.phc.record :: rest ∧
    m.f.Holds (encodeAll rest ++ src.tail)
  done : m.isValid = false → src.records = seen ∧ m.phc.record = src.cut

theorem OnFile.read {src : TailedFile} {seen : List Record} {m : MergerInput Path}
    (h : OnFile src seen m) (hv : m.isValid = true) :
    OnFile src (seen ++ [m.phc.record]) m.read ∧
      (m.read.isValid = true → m.key < m.read.key) := by
  obtain ⟨rest, hrecords, hf⟩ := h.live hv
  cases rest with
  | cons q rest =>
    rw [encodeAll_cons, List.append_assoc] at hf
    obtain ⟨g, hread, hg, -⟩ := m.phc.read_of_holds h.flag hf
    have hphc : m.read.phc = q.phc := by simp [MergerInput.read, hread]
    refine ⟨⟨by rw [hphc]; rfl, fun _ => ⟨rest, ?_, ?_⟩, fun hdone => ?_⟩, fun _ => ?_⟩
    · simp [hphc, hrecords]
    · simpa [MergerInput.read, hread] using hg
    · simp [MergerInput.read, hread] at hdone
    · have hinc := src.increasing
      rw [hrecords, StrictlyIncreasing, List.pairwise_append] at hinc
      have hlt := (List.pairwise_cons.mp hinc.2.1).1 q (by simp)
      rw [MergerInput.key, MergerInput.key, hphc]
      exact hlt
  | nil =>
    have hend : m.f.Holds src.tail := hf
    obtain ⟨p, g, hread, hp, hpv, -⟩ := m.phc.read_short hend src.tail_lt
    have hdone : m.read.isValid = false := by simp [MergerInput.read, hread]
    have hphc : m.read.phc = p := by simp [MergerInput.read, hread]
    refine ⟨⟨?_, ?_, fun _ => ⟨hrecords, ?_⟩⟩, ?_⟩
    · rw [hphc, hpv, h.flag]
    · simp [hdone]
    · have hlast : PasswordInspector.lastEntry src.records = m.phc := by
        rw [PasswordInspector.lastEntry, hrecords, List.getLast?_concat]
        exact MergerInput.phc_eq h.flag
      rw [hphc, hp, TailedFile.cut, PasswordInspector.cut, hlast]
    · simp [hdone]

theorem onFile_openInput (src : TailedFile) (addr : Nat) (path : Path) :
    OnFile src [] (MergerInput.openInput addr path src.bytes) := by
  have hf := InputStream.holds_open src.bytes
  unfold TailedFile.bytes at hf ⊢
  cases hrecords : src.records with
  | cons r rest =>
    rw [hrecords, encodeAll_cons, List.append_assoc] at hf
    obtain ⟨g, hread, hg, -⟩ := PasswordHashAndCount.read_of_holds {} rfl hf
    have hopen : MergerInput.openInput addr path (encodeAll (r :: rest) ++ src.tail) =
        { addr, path, phc := r.phc, isValid := true, f := g } := by
      rw [encodeAll_cons, List.append_assoc, MergerInput.openInput, MergerInput.read, hread]
    rw [hopen]
    refine ⟨rfl, fun _ => ⟨rest, ?_, hg⟩, fun hdone => ?_⟩
    · simp [hrecords]
    · cases hdone
  | nil =>
    rw [hrecords, encodeAll_nil, List.nil_append] at hf
    obtain ⟨p, g, hread, hp, hpv, -⟩ :=
      PasswordHashAndCount.read_short {} hf src.tail_lt
    have hopen : MergerInput.openInput addr path (encodeAll [] ++ src.tail) =
        { addr, path, phc := p, isValid := false, f := g } := by
      rw [encodeAll_nil, List.nil_append, MergerInput.openInput, MergerInput.read, hread]
    rw [hopen]
    refine ⟨hpv, fun hlive => ?_, fun _ => ⟨hrecords, ?_⟩⟩
    · cases hlive
    · rw [hp, TailedFile.cut, hrecords]
      rfl

/-! ## The queue -/

section Queue

variable {Q : PriorityQueue (@MergerInput.key Path)} {rank : Nat → Nat → Nat}
  {files : List TailedFile} {L : List Step} {m : MergerInput Path} {c : List (MergerInput Path)}

/-- The top of the queue has the least rank, which goes by the hash and may tell files apart
where hashes are equal. -/
structure Ranked (Q : PriorityQueue (@MergerInput.key Path)) (rank : Nat → Nat → Nat) :
    Prop where
  top_le : ∀ m c, Q.IsHeap (m :: c) → ∀ n ∈ c, rank m.key m.addr ≤ rank n.key n.addr
  of_lt : ∀ {k k'} a, k < k' → rank k a ≤ rank k' a
  key_le : ∀ {k k' a a'}, rank k a ≤ rank k' a' → k ≤ k'

/-- Every queue goes by the hash. -/
theorem ranked_key (Q : PriorityQueue (@MergerInput.key Path)) : Ranked Q fun k _ => k :=
  ⟨Q.top_le, fun _ h => h.le, id⟩

/-- What `next` makes of the queue. -/
def advance (Q : PriorityQueue (@MergerInput.key Path)) (m : MergerInput Path)
    (c : List (MergerInput Path)) : List (MergerInput Path) :=
  if m.isValid then
    if m.read.isValid then Q.push m.read (Q.pop c) else m.read :: c
  else Q.pop c

theorem advance_paths {n : MergerInput Path} (hn : n ∈ advance Q m c) :
    ∃ o ∈ m :: c, n.path = o.path := by
  have hpop := fun n => Q.mem_pop c n
  unfold advance at hn
  split at hn
  · split at hn
    · rw [Q.mem_push] at hn
      rcases hn with rfl | hn
      · exact ⟨m, by simp, rfl⟩
      · exact ⟨n, by simp [(hpop n).mp hn], rfl⟩
    · rcases List.mem_cons.mp hn with rfl | hn
      · exact ⟨m, by simp, rfl⟩
      · exact ⟨n, by simp [hn], rfl⟩
  · exact ⟨n, by simp [(hpop n).mp hn], rfl⟩

/-- The input is on one of the files. -/
def Placed (files : List TailedFile) (L : List Step) (m : MergerInput Path) : Prop :=
  ∃ src, files[m.addr]? = some src ∧ OnFile src (taken L m.addr) m

/-- The input waits for its turn: it is at a record, or it never had one. -/
def Waits (files : List TailedFile) (m : MergerInput Path) : Prop :=
  m.isValid = true ∨ ∃ src, files[m.addr]? = some src ∧ src.records = []

/-- The entry with which the input is in the heap, also after it was exhausted on top of it. -/
structure Heaped (Q : PriorityQueue (@MergerInput.key Path)) (files : List TailedFile)
    (m : MergerInput Path) (c : List (MergerInput Path)) (m₀ : MergerInput Path) : Prop where
  heap : Q.IsHeap (m₀ :: c)
  addr : m₀.addr = m.addr
  live : m.isValid = true → m₀.key = m.key
  done : m.isValid = false → ∀ src, files[m.addr]? = some src → m₀.key = src.held.key

/-- The queue behind the steps `L`, and what these tell of each other: no record of a file is
taken behind its exhausted input, and what is taken has no higher rank than the files whose
exhausted inputs follow. -/
structure Queued (Q : PriorityQueue (@MergerInput.key Path)) (rank : Nat → Nat → Nat)
    (files : List TailedFile) (L : List Step) (m : MergerInput Path)
    (c : List (MergerInput Path)) : Prop where
  placed : ∀ n ∈ m :: c, Placed files L n
  addrs : (agains L ++ (m :: c).map (·.addr)).Perm (List.range files.length)
  gone : ∀ a ∈ agains L, ∀ src, files[a]? = some src → taken L a = src.records
  known : ∀ a r, .whole a r ∈ L → a < files.length
  waits : ∀ n ∈ c, Waits files n
  top : ∃ m₀, Heaped Q files m c m₀ ∧ ∀ a r, .whole a r ∈ L → rank r.key a ≤ rank m₀.key m₀.addr
  behind : L.Pairwise fun x y => ∀ a b r, x = .again a → y = .whole b r → a ≠ b
  below : L.Pairwise fun x y => ∀ a r b src, x = .whole a r → y = .again b →
    files[b]? = some src → rank r.key a ≤ rank src.held.key b

theorem pairwise_concat {α : Type*} {R : α → α → Prop} {l : List α} {x : α} :
    (l ++ [x]).Pairwise R ↔ l.Pairwise R ∧ ∀ y ∈ l, R y x := by
  rw [List.pairwise_append]
  simp

theorem Placed.append {n : MergerInput Path} (h : Placed files L n) (hne : n.addr ≠ m.addr) :
    Placed files (L ++ [m.step]) n := by
  obtain ⟨src, hsrc, hn⟩ := h
  refine ⟨src, hsrc, ?_⟩
  unfold MergerInput.step
  split
  · rw [taken_whole, if_neg hne.symm, List.append_nil]
    exact hn
  · rw [taken_again]
    exact hn

/-- An input that waits is in the heap with what it holds. -/
theorem heaped_self (hheap : Q.IsHeap (m :: c)) (hm : Placed files L m) (hw : Waits files m) :
    Heaped Q files m c m := by
  refine ⟨hheap, rfl, fun _ => rfl, fun hv src hsrc => ?_⟩
  obtain ⟨src', hsrc', hon⟩ := hm
  obtain rfl : src' = src := Option.some.inj (hsrc'.symm.trans hsrc)
  obtain ⟨src'', hsrc'', hnil⟩ := hw.resolve_left (by simp [hv])
  obtain rfl : src'' = src' := Option.some.inj (hsrc''.symm.trans hsrc')
  rw [TailedFile.held_of_eq hnil, ← (hon.done hv).2]
  rfl

namespace Queued

theorem nodup (h : Queued Q rank files L m c) :
    (agains L ++ (m :: c).map (·.addr)).Nodup := h.addrs.nodup_iff.mpr List.nodup_range

theorem addr_ne (h : Queued Q rank files L m c) {n : MergerInput Path} (hn : n ∈ c) :
    n.addr ≠ m.addr := by
  have hnodup := (List.nodup_append.mp h.nodup).2.1
  rw [List.map_cons, List.nodup_cons] at hnodup
  intro he
  exact hnodup.1 (he ▸ List.mem_map_of_mem hn)

theorem addr_lt (h : Queued Q rank files L m c) : m.addr < files.length :=
  List.mem_range.mp (h.addrs.mem_iff.mp (by simp))

theorem not_again (h : Queued Q rank files L m c) : m.addr ∉ agains L := by
  intro hmem
  exact (List.nodup_append.mp h.nodup).2.2 _ hmem m.addr (by simp) rfl

/-- The step of the top brings what the top holds. -/
theorem entry (h : Queued Q rank files L m c) :
    m.phc.hash.isValid = false ∧ m.step.entry files = m.phc.record := by
  obtain ⟨src, hsrc, hm⟩ := h.placed m (by simp)
  refine ⟨hm.flag, ?_⟩
  unfold MergerInput.step
  split
  · rfl
  · rename_i hv
    rw [Step.entry, hsrc, (hm.done (by simpa using hv)).2]
    rfl

variable (rank) in
/-- The new top of a heap. -/
theorem top_of_heap {pq : List (MergerInput Path)} (hheap : Q.IsHeap pq)
    (hne : pq ≠ []) (hplaced : ∀ n ∈ pq, Placed files L n) (hwaits : ∀ n ∈ pq, Waits files n)
    (hle : ∀ n ∈ pq, ∀ a r, .whole a r ∈ L → rank r.key a ≤ rank n.key n.addr) :
    ∃ m' c', pq = m' :: c' ∧ (∀ n ∈ c', Waits files n) ∧
      ∃ m₀, Heaped Q files m' c' m₀ ∧
        ∀ a r, .whole a r ∈ L → rank r.key a ≤ rank m₀.key m₀.addr := by
  obtain ⟨m', c', rfl⟩ := List.exists_cons_of_ne_nil hne
  exact ⟨m', c', rfl, fun n hn => hwaits n (by simp [hn]), m',
    heaped_self hheap (hplaced m' (by simp)) (hwaits m' (by simp)), hle m' (by simp)⟩

/-- The whole records that were taken have no higher rank than the inputs that wait. -/
theorem taken_le (hrank : Ranked Q rank) (h : Queued Q rank files L m c) {n : MergerInput Path}
    (hn : n ∈ c) {a : Nat} {r : Record} (hr : .whole a r ∈ L) :
    rank r.key a ≤ rank n.key n.addr := by
  obtain ⟨m₀, hm₀, htop⟩ := h.top
  exact (htop a r hr).trans (hrank.top_le m₀ c hm₀.heap n hn)

/-- A live top has the least rank of all, and so has the record that it gives. -/
theorem live_le (hrank : Ranked Q rank) (h : Queued Q rank files L m c) (hv : m.isValid = true) :
    (∀ n ∈ c, rank m.key m.addr ≤ rank n.key n.addr) ∧
      ∀ a r, .whole a r ∈ L ++ [m.step] → rank r.key a ≤ rank m.key m.addr := by
  obtain ⟨m₀, hm₀, htop⟩ := h.top
  have hkey := hm₀.live hv
  rw [hkey, hm₀.addr] at htop
  refine ⟨fun n hn => ?_, fun a r hr => ?_⟩
  · have hle := hrank.top_le m₀ c hm₀.heap n hn
    rwa [hkey, hm₀.addr] at hle
  · rw [MergerInput.step, if_pos hv, List.mem_append, List.mem_singleton, Step.whole.injEq] at hr
    rcases hr with hr | ⟨rfl, rfl⟩
    · exact htop a r hr
    · exact le_rfl

/-- What a turn that takes a whole record tells of the steps. -/
theorem steps_whole (h : Queued Q rank files L m c) (hv : m.isValid = true) :
    agains (L ++ [m.step]) = agains L ∧
      (∀ a ∈ agains L, taken (L ++ [m.step]) a = taken L a) ∧
      (∀ a r, .whole a r ∈ L ++ [m.step] → a < files.length) ∧
      ((L ++ [m.step]).Pairwise fun x y => ∀ a b r, x = .again a → y = .whole b r → a ≠ b) ∧
      ((L ++ [m.step]).Pairwise fun x y => ∀ a r b src, x = .whole a r → y = .again b →
        files[b]? = some src → rank r.key a ≤ rank src.held.key b) := by
  rw [MergerInput.step, if_pos hv]
  refine ⟨agains_whole _ _ _, fun a ha => ?_, fun a r hr => ?_, ?_, ?_⟩
  · have hne : m.addr ≠ a := fun he => h.not_again (he ▸ ha)
    rw [taken_whole, if_neg hne, List.append_nil]
  · rw [List.mem_append, List.mem_singleton, Step.whole.injEq] at hr
    rcases hr with hr | ⟨rfl, -⟩
    · exact h.known a r hr
    · exact h.addr_lt
  · refine pairwise_concat.mpr ⟨h.behind, ?_⟩
    rintro _ hy a b r rfl hb rfl
    cases hb
    exact h.not_again (mem_agains.mpr hy)
  · refine pairwise_concat.mpr ⟨h.below, ?_⟩
    rintro y - a r b src - hb
    cases hb

/-- The inputs that are left behind a turn are still on their files. -/
theorem placed_rest (h : Queued Q rank files L m c) :
    ∀ n ∈ c, Placed files (L ++ [m.step]) n := by
  intro n hn
  exact (h.placed n (by simp [hn])).append (h.addr_ne hn)

/-- What a turn that takes a whole record keeps of the inputs and of the files that are gone. -/
theorem inputs_whole (h : Queued Q rank files L m c) (hv : m.isValid = true) :
    (∀ n ∈ m.read :: c, Placed files (L ++ [m.step]) n) ∧
      (agains (L ++ [m.step]) ++ (m.read :: c).map (·.addr)).Perm (List.range files.length) ∧
      ∀ a ∈ agains (L ++ [m.step]), ∀ src, files[a]? = some src →
        taken (L ++ [m.step]) a = src.records := by
  obtain ⟨hagains, htaken, -⟩ := h.steps_whole hv
  refine ⟨fun n hn => ?_, ?_, fun a ha src hsrc => ?_⟩
  · rcases List.mem_cons.mp hn with rfl | hn
    · obtain ⟨src, hsrc, hm⟩ := h.placed m (by simp)
      refine ⟨src, hsrc, ?_⟩
      rw [MergerInput.step, if_pos hv, MergerInput.read_addr, taken_whole, if_pos rfl]
      exact (hm.read hv).1
    · exact h.placed_rest n hn
  · rw [hagains]
    exact h.addrs
  · rw [hagains] at ha
    rw [htaken a ha, h.gone a ha src hsrc]

/-- A turn that comes to the next record of the top. -/
theorem more (hrank : Ranked Q rank) (h : Queued Q rank files L m c) (hv : m.isValid = true)
    (hr : m.read.isValid = true) :
    ∃ m' c', Q.push m.read (Q.pop c) = m' :: c' ∧ Queued Q rank files (L ++ [m.step]) m' c' := by
  obtain ⟨m₀, hm₀, -⟩ := h.top
  obtain ⟨src, -, hm⟩ := h.placed m (by simp)
  obtain ⟨hplaced, haddrs, hgone⟩ := h.inputs_whole hv
  obtain ⟨-, -, hknown, hbehind, hbelow⟩ := h.steps_whole hv
  obtain ⟨hc, hL⟩ := h.live_le hrank hv
  have hperm : (Q.push m.read (Q.pop c)).Perm (m.read :: c) :=
    (Q.push_perm _ _).trans ((Q.pop_perm c).cons _)
  have hwaits : ∀ n ∈ m.read :: c, Waits files n := by
    intro n hn
    rcases List.mem_cons.mp hn with rfl | hn
    · exact Or.inl hr
    · exact h.waits n hn
  have hle : ∀ n ∈ m.read :: c, rank m.key m.addr ≤ rank n.key n.addr := by
    intro n hn
    rcases List.mem_cons.mp hn with rfl | hn
    · exact hrank.of_lt _ ((hm.read hv).2 hr)
    · exact hc n hn
  obtain ⟨m', c', hpq, hwaits', htop⟩ := top_of_heap rank (L := L ++ [m.step])
    (Q.isHeap_push m.read _ (Q.isHeap_pop m₀ c hm₀.heap)) (Q.push_ne_nil _ _)
    (fun n hn => hplaced n (hperm.mem_iff.mp hn)) (fun n hn => hwaits n (hperm.mem_iff.mp hn))
    (fun n hn a r har => (hL a r har).trans (hle n (hperm.mem_iff.mp hn)))
  rw [hpq] at hperm
  exact ⟨m', c', hpq, fun n hn => hplaced n (hperm.mem_iff.mp hn),
    ((hperm.map _).append_left _).trans haddrs, hgone, hknown, hwaits', htop, hbehind, hbelow⟩

/-- A turn that exhausts the top, which stays where it is. -/
theorem last (hrank : Ranked Q rank) (h : Queued Q rank files L m c) (hv : m.isValid = true)
    (hr : m.read.isValid = false) : Queued Q rank files (L ++ [m.step]) m.read c := by
  obtain ⟨m₀, hm₀, -⟩ := h.top
  obtain ⟨src, hsrc, hm⟩ := h.placed m (by simp)
  obtain ⟨hplaced, haddrs, hgone⟩ := h.inputs_whole hv
  obtain ⟨-, -, hknown, hbehind, hbelow⟩ := h.steps_whole hv
  obtain ⟨-, hL⟩ := h.live_le hrank hv
  refine ⟨hplaced, haddrs, hgone, hknown, h.waits, ⟨m₀, ⟨hm₀.heap, hm₀.addr, ?_, ?_⟩, ?_⟩,
    hbehind, hbelow⟩
  · simp [hr]
  · intro _ src' hsrc'
    obtain rfl : src' = src := Option.some.inj (hsrc'.symm.trans hsrc)
    have hrecords := ((hm.read hv).1.done hr).1
    rw [TailedFile.held_of_ne (by simp [hrecords]), TailedFile.last_of_concat hrecords,
      hm₀.live hv]
    rfl
  · rw [hm₀.live hv, hm₀.addr]
    exact hL

/-- A turn that takes the exhausted top off. -/
theorem drop (hrank : Ranked Q rank) (h : Queued Q rank files L m c) (hv : m.isValid = false)
    (hne : Q.pop c ≠ []) :
    ∃ m' c', Q.pop c = m' :: c' ∧ Queued Q rank files (L ++ [m.step]) m' c' := by
  obtain ⟨m₀, hm₀, htop⟩ := h.top
  obtain ⟨src, hsrc, hm⟩ := h.placed m (by simp)
  have hmem : ∀ n ∈ Q.pop c, n ∈ c := fun n hn => (Q.mem_pop c n).mp hn
  have hstep : m.step = .again m.addr := by simp [MergerInput.step, hv]
  have hwhole : ∀ a r, .whole a r ∈ L ++ [m.step] → .whole a r ∈ L := by
    intro a r hr
    simpa [hstep] using hr
  obtain ⟨m', c', hpq, hwaits, htop'⟩ := top_of_heap rank (L := L ++ [m.step])
    (Q.isHeap_pop m₀ c hm₀.heap) hne (fun n hn => h.placed_rest n (hmem n hn))
    (fun n hn => h.waits n (hmem n hn))
    (fun n hn a r hr => h.taken_le hrank (hmem n hn) (hwhole a r hr))
  refine ⟨m', c', hpq, fun n hn => h.placed_rest n (hmem n (hpq ▸ hn)), ?_, ?_,
    fun a r hr => h.known a r (hwhole a r hr), hwaits, htop', ?_, ?_⟩
  · rw [hstep, agains_again, ← hpq, List.append_assoc]
    exact (((Q.pop_perm c).map _).cons m.addr |>.append_left _).trans h.addrs
  · intro a ha src' hsrc'
    rw [hstep, taken_again]
    rw [hstep, agains_again, List.mem_append, List.mem_singleton] at ha
    rcases ha with ha | rfl
    · exact h.gone a ha src' hsrc'
    · obtain rfl : src' = src := Option.some.inj (hsrc'.symm.trans hsrc)
      exact (hm.done hv).1.symm
  · refine pairwise_concat.mpr ⟨h.behind, ?_⟩
    rintro y - a b r - hb
    rw [hstep] at hb
    cases hb
  · refine pairwise_concat.mpr ⟨h.below, ?_⟩
    rintro _ hy a r b src' rfl hb hsrc'
    rw [hstep] at hb
    cases hb
    have hle := htop a r hy
    rwa [hm₀.addr, hm₀.done hv src' hsrc'] at hle

/-- A turn keeps the invariant of the queue, if it leaves an input in it. -/
theorem go (hrank : Ranked Q rank) (h : Queued Q rank files L m c) (hne : advance Q m c ≠ []) :
    ∃ m' c', advance Q m c = m' :: c' ∧ Queued Q rank files (L ++ [m.step]) m' c' := by
  unfold advance at hne ⊢
  cases hv : m.isValid with
  | true =>
    cases hr : m.read.isValid with
    | true => simpa using h.more hrank hv hr
    | false => exact ⟨m.read, c, by simp, h.last hrank hv hr⟩
  | false =>
    simp only [hv, Bool.false_eq_true, if_false] at hne
    simpa using h.drop hrank hv hne

end Queued

end Queue

/-! ## Turns -/

section Turn

variable [DecidableEq Path] {Q : PriorityQueue (@MergerInput.key Path)} {rank : Nat → Nat → Nat}
  {files : List TailedFile} {e : Record} {L : List Step} {s s' t : Merging Path}
  {m : MergerInput Path} {c pq : List (MergerInput Path)} {fs : FileSystem Path}

/-- The loop goes on unless the input on top is exhausted and the last one. -/
theorem turn_goes_iff (h : s.d.pq = m :: c) :
    (∃ s', turn Q s = .inl s') ↔ m.isValid = true ∨ c ≠ [] := by
  rcases turn_cases (Q := Q) h with ⟨s', pq, fs, hturn, hadv, -⟩ | ⟨hv, hc, t, hturn, -⟩
  · refine ⟨fun _ => ?_, fun _ => ⟨s', hturn⟩⟩
    cases hadv with
    | more hv => exact Or.inl hv
    | last hv => exact Or.inl hv
    | drop _ hc => exact Or.inr hc
  · simp [hturn, hv, hc]

theorem Advances.eq_advance (h : Advances Q s m c pq fs) :
    pq = advance Q m c ∧ advance Q m c ≠ [] := by
  cases h with
  | more hv hr => simp [advance, hv, hr, Q.push_ne_nil]
  | last hv hr => simp [advance, hv, hr]
  | drop hv hc => simp [advance, hv, Q.pop_eq_nil, hc]

/-- What is written and running is what the steps make of the first entry. -/
structure Written (files : List TailedFile) (e : Record) (L : List Step) (s : Merging Path) :
    Prop where
  out : s.fs.files s.d.dstFilePath =
    some (encodeAll (collectAll e (L.map (Step.entry files))).1)
  running : s.current.record = (collectAll e (L.map (Step.entry files))).2
  flag : s.current.hash.isValid = false

theorem Took.written {p : PasswordHashAndCount} {x : Step} (h : Took s p pq fs s')
    (hw : Written files e L s) (hfs : fs.files s.d.dstFilePath = s.fs.files s.d.dstFilePath)
    (hp : p.hash.isValid = false) (hx : x.entry files = p.record) :
    Written files e (L ++ [x]) s' := by
  have hkey : s.current.hash.eq p.hash = true ↔
      (collectAll e (L.map (Step.entry files))).2.key = p.record.key := by
    rw [Hash.eq_iff, hw.flag, hp, ← hw.running]
    exact and_iff_left rfl
  have hmap : (L ++ [x]).map (Step.entry files) = L.map (Step.entry files) ++ [p.record] := by
    rw [List.map_append, List.map_singleton, hx]
  rcases h.adds with ⟨he, hsfs, hcur⟩ | ⟨he, hsfs, hcur⟩
  · refine ⟨?_, ?_, ?_⟩
    · rw [hmap, collectAll_concat, collect, if_pos (hkey.mp he), hsfs, h.dst, hfs, hw.out]
    · rw [hmap, collectAll_concat, collect, if_pos (hkey.mp he), hcur, ← hw.running]
      rfl
    · rw [hcur]
      exact hw.flag
  · have hne := mt hkey.mpr (by simp [he])
    refine ⟨?_, ?_, ?_⟩
    · rw [hmap, collectAll_concat, collect, if_neg hne, hsfs, h.dst, FileSystem.append_files, hfs,
        hw.out, ← hw.running]
      simp
    · rw [hmap, collectAll_concat, collect, if_neg hne, hcur]
    · rw [hcur, hp]

/-- A merge behind the steps `L`, which started with the entry `e`. -/
structure Tracks (Q : PriorityQueue (@MergerInput.key Path)) (rank : Nat → Nat → Nat)
    (files : List TailedFile) (e : Record) (L : List Step) (s : Merging Path)
    (m : MergerInput Path) (c : List (MergerInput Path)) : Prop where
  written : Written files e L s
  queued : Queued Q rank files L m c
  pq : s.d.pq = m :: c
  apart : ∀ n ∈ m :: c, n.path ≠ s.d.dstFilePath

/-- A turn makes one step. -/
theorem Tracks.go (hrank : Ranked Q rank) (h : Tracks Q rank files e L s m c)
    (hturn : turn Q s = .inl s') :
    ∃ m' c', advance Q m c = m' :: c' ∧ Tracks Q rank files e (L ++ [m.step]) s' m' c' ∧
      s'.d.dstFilePath = s.d.dstFilePath := by
  rcases turn_cases (Q := Q) h.pq with ⟨s₁, pq, fs, hturn', hadv, htook⟩ | ⟨-, -, t, hturn', -⟩
  · rw [hturn'] at hturn
    cases hturn
    obtain ⟨hflag, hentry⟩ := h.queued.entry
    obtain ⟨rfl, hne⟩ := hadv.eq_advance
    obtain ⟨m', c', hpq, hq⟩ := h.queued.go hrank hne
    refine ⟨m', c', hpq, ⟨?_, hq, htook.pq.trans hpq, ?_⟩, htook.dst⟩
    · exact htook.written h.written (hadv.files_dst (h.apart m (by simp))) hflag hentry
    · intro n hn
      obtain ⟨o, ho, hpath⟩ := advance_paths (Q := Q) (m := m) (c := c) (hpq ▸ hn)
      rw [hpath, htook.dst]
      exact h.apart o ho
  · rw [hturn'] at hturn
    cases hturn

/-- The last turn writes the running entry. -/
theorem Tracks.stop (h : Tracks Q rank files e L s m c) (hturn : turn Q s = .inr t) :
    m.isValid = false ∧ c = [] ∧ t.fs.files s.d.dstFilePath =
      some (encodeAll (squash e (L.map (Step.entry files)))) := by
  rcases turn_cases (Q := Q) h.pq with ⟨s₁, pq, fs, hturn', -⟩ | ⟨hv, hc, t', hturn', hfs⟩
  · rw [hturn'] at hturn
    cases hturn
  · rw [hturn'] at hturn
    cases hturn
    refine ⟨hv, hc, ?_⟩
    rw [hfs, FileSystem.append_files, Merging.removed_files (h.apart m (by simp)), h.written.out,
      squash, ← h.written.running]
    simp

end Turn

/-! ## The steps of a whole merge -/

/-- What the steps `L` of a whole merge tell of each other. The file `f` is the last one in the
queue. -/
structure Course (rank : Nat → Nat → Nat) (files : List TailedFile) (L : List Step) (f : Nat) :
    Prop where
  files_perm : (agains L ++ [f]).Perm (List.range files.length)
  taken_eq : ∀ a src, files[a]? = some src → taken L a = src.records
  known : ∀ a r, .whole a r ∈ L → a < files.length
  behind : L.Pairwise fun x y => ∀ a b r, x = .again a → y = .whole b r → a ≠ b
  below : L.Pairwise fun x y => ∀ a r b src, x = .whole a r → y = .again b →
    files[b]? = some src → rank r.key a ≤ rank src.held.key b
  le_last : ∀ a r src, .whole a r ∈ L → files[f]? = some src → rank r.key a ≤ rank src.held.key f

theorem Queued.course {Q : PriorityQueue (@MergerInput.key Path)} {rank : Nat → Nat → Nat}
    {files : List TailedFile} {L : List Step} {m : MergerInput Path}
    (h : Queued Q rank files L m []) (hv : m.isValid = false) : Course rank files L m.addr := by
  refine ⟨h.addrs, fun a src hsrc => ?_, h.known, h.behind, h.below, fun a r src hr hsrc => ?_⟩
  · have hlt := (List.getElem?_eq_some_iff.mp hsrc).1
    have hmem := h.addrs.mem_iff.mpr (List.mem_range.mpr hlt)
    rw [List.map_singleton, List.mem_append, List.mem_singleton] at hmem
    rcases hmem with hmem | rfl
    · exact h.gone a hmem src hsrc
    · obtain ⟨src', hsrc', hm⟩ := h.placed m (by simp)
      obtain rfl : src' = src := Option.some.inj (hsrc'.symm.trans hsrc)
      exact (hm.done hv).1.symm
  · obtain ⟨m₀, hm₀, htop⟩ := h.top
    have hle := htop a r hr
    rwa [hm₀.addr, hm₀.done hv src hsrc] at hle

/-! ## The start -/

section Start

variable {Q : PriorityQueue (@MergerInput.key Path)} {rank : Nat → Nat → Nat}
  {files : List TailedFile}

theorem openAll_placed {fs : FileSystem Path} {srcFiles all : List Path} {rest : List TailedFile}
    (h : List.Forall₂ (fun path src => fs.files path = some src.bytes) srcFiles rest)
    (hall : ∀ p ∈ srcFiles, p ∈ all) (addr : Nat) (pq : List (MergerInput Path))
    (sum : BitVec 64) (hrest : files.drop addr = rest) (hheap : Q.IsHeap pq)
    (hplaced : ∀ n ∈ pq, Placed files [] n ∧ n.path ∈ all)
    (haddrs : (pq.map (·.addr)).Perm (List.range addr)) (hle : addr ≤ files.length) :
    ∃ pq' sum', openAll Q fs srcFiles addr pq sum = some (pq', sum') ∧ Q.IsHeap pq' ∧
      (∀ n ∈ pq', Placed files [] n ∧ n.path ∈ all) ∧
      (pq'.map (·.addr)).Perm (List.range files.length) := by
  induction h generalizing addr pq sum with
  | nil =>
    have hlen : files.length ≤ addr := List.drop_eq_nil_iff.mp hrest
    refine ⟨pq, sum, rfl, hheap, hplaced, ?_⟩
    rwa [← Nat.le_antisymm hle hlen]
  | cons hfile h ih =>
    rename_i path src srcFiles rest
    have hlt : addr < files.length := by
      by_contra hge
      rw [List.drop_eq_nil_of_le (by omega)] at hrest
      cases hrest
    rw [List.drop_eq_getElem_cons hlt, List.cons.injEq] at hrest
    obtain ⟨hsrc, hrest⟩ := hrest
    let mi := MergerInput.openInput addr path src.bytes
    have hmi : Placed files [] mi ∧ mi.path ∈ all := by
      refine ⟨⟨src, ?_, onFile_openInput src addr path⟩, hall path (by simp)⟩
      change files[addr]? = some src
      rw [List.getElem?_eq_getElem hlt, hsrc]
    have hperm := Q.push_perm mi pq
    obtain ⟨pq', sum', hopen, hheap', hplaced', haddrs'⟩ :=
      ih (fun p hp => hall p (by simp [hp])) (addr + 1) (Q.push mi pq)
        (sum + BitVec.ofNat 64 src.bytes.length) hrest (Q.isHeap_push mi pq hheap)
        (fun n hn => by
          rcases List.mem_cons.mp (hperm.mem_iff.mp hn) with rfl | hn
          · exact hmi
          · exact hplaced n hn)
        (by
          rw [List.range_succ]
          refine (hperm.map _).trans ?_
          rw [List.map_cons]
          exact (haddrs.cons _).trans (List.perm_append_singleton _ _).symm)
        (by omega)
    refine ⟨pq', sum', ?_, hheap', hplaced', haddrs'⟩
    simp only [openAll, hfile, Option.bind_eq_bind, Option.bind_some]
    exact hopen

/-- A heap of opened inputs before the first step. -/
theorem queued_nil {m : MergerInput Path} {c : List (MergerInput Path)}
    (hheap : Q.IsHeap (m :: c)) (hplaced : ∀ n ∈ m :: c, Placed files [] n)
    (haddrs : ((m :: c).map (·.addr)).Perm (List.range files.length)) :
    Queued Q rank files [] m c := by
  have hwaits : ∀ n ∈ m :: c, Waits files n := by
    intro n hn
    obtain ⟨src, hsrc, hon⟩ := hplaced n hn
    cases hv : n.isValid with
    | true => exact Or.inl hv
    | false => exact Or.inr ⟨src, hsrc, (hon.done hv).1⟩
  refine ⟨hplaced, haddrs, ?_, ?_, fun n hn => hwaits n (by simp [hn]),
    ⟨m, heaped_self hheap (hplaced m (by simp)) (hwaits m (by simp)), ?_⟩, List.Pairwise.nil,
    List.Pairwise.nil⟩
  · intro a ha
    cases ha
  · intro a r hr
    cases hr
  · intro a r hr
    cases hr

end Start

end merger
