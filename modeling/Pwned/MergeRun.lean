-- What the loop of a merge keeps: the heap of open inputs, the exhausted input
-- that stays on top for one more turn, and the running entry.
import Pwned.Merge

open pwned

namespace merger

variable {Path : Type}

/-! ## Inputs -/

namespace MergerInput

/-- What an input has still to give: the entry it holds and those behind it. An exhausted input
has nothing more to give. -/
def pending (m : MergerInput Path) : List Record :=
  if m.isValid then m.phc.record :: decodeAll (m.f.content.drop m.f.pos) else []

/-- The entry of an input is its first pending one, and the stream gives the others. -/
structure Sound (m : MergerInput Path) : Prop where
  flag : m.phc.hash.isValid = false
  gives : m.isValid = true → ∃ rs, Gives m.f rs
  increasing : StrictlyIncreasing m.pending

theorem phc_eq {p : PasswordHashAndCount} (h : p.hash.isValid = false) : p.record.phc = p := by
  obtain ⟨⟨upper, lower, isValid⟩, count⟩ := p
  simp only at h
  subst h
  rfl

theorem pending_of_gives {m : MergerInput Path} (hv : m.isValid = true) {rs : List Record}
    (h : Gives m.f rs) : m.pending = m.phc.record :: rs := by
  rw [pending, if_pos hv, h.rest, decodeAll_encodeAll]

theorem pending_of_not_valid {m : MergerInput Path} (hv : m.isValid = false) :
    m.pending = [] := by
  rw [pending, hv]
  rfl

@[simp] theorem read_addr (m : MergerInput Path) : m.read.addr = m.addr := rfl

@[simp] theorem read_path (m : MergerInput Path) : m.read.path = m.path := rfl

/-- A live input is read again: either its next entry takes the place of the first one, or it
was at its last entry, keeps it, and is exhausted. -/
theorem Sound.read_cases {m : MergerInput Path} (h : m.Sound) (hv : m.isValid = true) :
    (m.read.isValid = true ∧ m.read.Sound ∧ m.pending = m.phc.record :: m.read.pending) ∨
    (m.read.isValid = false ∧ m.read.Sound ∧ m.read.phc = m.phc ∧ m.pending = [m.phc.record]) := by
  obtain ⟨rs, hrs⟩ := h.gives hv
  have hpending := pending_of_gives hv hrs
  cases rs with
  | nil =>
    right
    have hread := PasswordHashAndCount.read_at_end m.phc hrs
    have hphc : m.read.phc = m.phc := by simp [read, hread]
    have hdone : m.read.isValid = false := by simp [read, hread]
    refine ⟨hdone, ⟨?_, ?_, ?_⟩, hphc, hpending⟩
    · rw [hphc]
      exact h.flag
    · simp [hdone]
    · rw [pending_of_not_valid hdone]
      exact List.Pairwise.nil
  | cons r rs =>
    left
    obtain ⟨g, hread, hg, -⟩ := PasswordHashAndCount.read_of_gives m.phc h.flag hrs
    have hvalid : m.read.isValid = true := by simp [read, hread]
    have hnext : m.read.pending = r :: rs := by
      have hgives : Gives m.read.f rs := by simpa [read, hread] using hg
      rw [pending_of_gives hvalid hgives]
      simp [read, hread]
    have hinc := h.increasing
    rw [hpending] at hinc
    refine ⟨hvalid, ⟨?_, ?_, ?_⟩, by rw [hpending, hnext]⟩
    · simp [read, hread]
    · intro _
      exact ⟨rs, by simpa [read, hread] using hg⟩
    · rw [hnext]
      exact (List.pairwise_cons.mp hinc).2

/-- The last entry that an input gives, which it still holds when it is exhausted. -/
def last (m : MergerInput Path) : Record := m.pending.getLastD m.phc.record

/-- What an input adds to the count of a hash before it leaves the queue: its pending entries,
and the last of them once more. -/
def owed (k : Nat) (m : MergerInput Path) : Nat := tally m.pending k + tally [m.last] k

/-- The number of turns that an input is on top. -/
def load (m : MergerInput Path) : Nat := m.pending.length + 1

theorem key_mem_pending {m : MergerInput Path} (hv : m.isValid = true) :
    m.key ∈ keys m.pending := by
  rw [pending, if_pos hv]
  simp [key]

end MergerInput

/-! ## The queue -/

section Queue

variable {Q : PriorityQueue (@MergerInput.key Path)}

/-- A heap of live inputs, but for the one on top, which may be exhausted. -/
structure Queue (Q : PriorityQueue (@MergerInput.key Path)) (m : MergerInput Path)
    (c : List (MergerInput Path)) : Prop where
  heap : ∃ m₀, m₀.phc = m.phc ∧ m₀.addr = m.addr ∧ Q.IsHeap (m₀ :: c)
  live : ∀ n ∈ c, n.isValid = true
  sound : ∀ n ∈ m :: c, n.Sound

theorem Queue.top_le {m : MergerInput Path} {c : List (MergerInput Path)} (h : Queue Q m c) :
    ∀ n ∈ c, m.key ≤ n.key := by
  obtain ⟨m₀, hphc, -, hheap⟩ := h.heap
  have hkey : m₀.key = m.key := by simp only [MergerInput.key, hphc]
  intro n hn
  exact hkey.symm.trans_le (Q.top_le m₀ c hheap n hn)

/-- A heap of live inputs is a queue. -/
theorem queue_of_heap {pq : List (MergerInput Path)} (hne : pq ≠ []) (hheap : Q.IsHeap pq)
    (hlive : ∀ n ∈ pq, n.isValid = true) (hsound : ∀ n ∈ pq, n.Sound) :
    ∃ m c, pq = m :: c ∧ Queue Q m c ∧ m.isValid = true := by
  obtain ⟨m, c, rfl⟩ := List.exists_cons_of_ne_nil hne
  exact ⟨m, c, rfl, ⟨⟨m, rfl, rfl, hheap⟩, fun n hn => hlive n (by simp [hn]), hsound⟩,
    hlive m (by simp)⟩

/-- What a turn keeps of the inputs in the queue, while it takes the entry of the top. -/
structure Moves (m : MergerInput Path) (c pq : List (MergerInput Path)) : Prop where
  inputs : ∀ n ∈ pq, ∃ o ∈ m :: c, n.addr = o.addr ∧ n.path = o.path ∧ n.last = o.last
  addrs : (pq.map (·.addr)).Perm ((if m.isValid then m :: c else c).map (·.addr))
  stays : m.pending.length = 1 → ∃ m', pq = m' :: c ∧ m'.addr = m.addr
  hashes : ∀ k, k = m.key ∨ (∃ n ∈ pq, k ∈ keys n.pending) ↔
    k = m.key ∨ ∃ n ∈ m :: c, k ∈ keys n.pending
  load : (pq.map MergerInput.load).sum < ((m :: c).map MergerInput.load).sum
  owed : ∀ k, (pq.map (MergerInput.owed k)).sum + tally [m.phc.record] k =
    ((m :: c).map (MergerInput.owed k)).sum

theorem moves_read {m : MergerInput Path} {c pq : List (MergerInput Path)}
    (hv : m.isValid = true) (hperm : pq.Perm (m.read :: c)) (hlast : m.read.last = m.last)
    (hpending : m.pending = m.phc.record :: m.read.pending)
    (hstays : m.read.pending = [] → pq = m.read :: c) : Moves m c pq := by
  refine ⟨?_, ?_, ?_, ?_, ?_, ?_⟩
  · intro n hn
    rcases List.mem_cons.mp (hperm.mem_iff.mp hn) with rfl | hn
    · exact ⟨m, by simp, rfl, rfl, hlast⟩
    · exact ⟨n, by simp [hn], rfl, rfl, rfl⟩
  · rw [if_pos hv]
    exact hperm.map _
  · intro hlen
    rw [hpending, List.length_cons, Nat.add_eq_right, List.length_eq_zero_iff] at hlen
    exact ⟨m.read, hstays hlen, rfl⟩
  · intro k
    simp only [hperm.mem_iff, List.mem_cons, exists_eq_or_imp, hpending, keys_cons,
      PasswordHashAndCount.record_key, MergerInput.key]
    tauto
  · rw [(hperm.map _).sum_eq]
    simp [MergerInput.load, hpending]
  · intro k
    rw [(hperm.map _).sum_eq]
    simp only [List.map_cons, List.sum_cons, MergerInput.owed, hlast, hpending, tally_cons]
    simp
    omega

theorem moves_drop {m : MergerInput Path} {c pq : List (MergerInput Path)}
    (hperm : pq.Perm c) (hv : m.isValid = false) : Moves m c pq := by
  have hpending := MergerInput.pending_of_not_valid hv
  refine ⟨?_, ?_, ?_, ?_, ?_, ?_⟩
  · intro n hn
    exact ⟨n, by simp [hperm.mem_iff.mp hn], rfl, rfl, rfl⟩
  · rw [hv]
    exact hperm.map _
  · rw [hpending]
    intro hlen
    cases hlen
  · intro k
    simp [hperm.mem_iff, hpending]
  · rw [(hperm.map _).sum_eq]
    simp [MergerInput.load]
  · intro k
    rw [(hperm.map _).sum_eq]
    simp [MergerInput.owed, MergerInput.last, hpending]
    omega

end Queue

/-! ## One turn -/

section Turn

variable [DecidableEq Path] {Q : PriorityQueue (@MergerInput.key Path)}

/-- The files after an exhausted input has left the queue. -/
def Merging.removed (s : Merging Path) (m : MergerInput Path) : FileSystem Path :=
  if s.d.removeInputFilesAfterMerge then s.fs.remove m.path else s.fs

/-- What `next` makes of a queue with the input `m` on top, where the loop goes on. -/
inductive Advances (Q : PriorityQueue (@MergerInput.key Path)) (s : Merging Path)
    (m : MergerInput Path) (c : List (MergerInput Path)) :
    List (MergerInput Path) → FileSystem Path → Prop where
  | more : m.isValid = true → m.read.isValid = true →
      Advances Q s m c (Q.push m.read (Q.pop c)) s.fs
  | last : m.isValid = true → m.read.isValid = false → Advances Q s m c (m.read :: c) s.fs
  | drop : m.isValid = false → c ≠ [] → Advances Q s m c (Q.pop c) (s.removed m)

/-- The entry `p` was added, with the queue and the files as `next` left them. -/
structure Took (s : Merging Path) (p : PasswordHashAndCount) (pq : List (MergerInput Path))
    (fs : FileSystem Path) (s' : Merging Path) : Prop where
  pq : s'.d.pq = pq
  dst : s'.d.dstFilePath = s.d.dstFilePath
  remove : s'.d.removeInputFilesAfterMerge = s.d.removeInputFilesAfterMerge
  adds : (s.current.hash.eq p.hash = true ∧ s'.fs = fs ∧
      s'.current = { s.current with count := s.current.count + p.count }) ∨
    (s.current.hash.eq p.hash = false ∧ s'.fs = fs.append s.d.dstFilePath s.current.dump ∧
      s'.current = p)

theorem took_add {s s₁ : Merging Path} (p : PasswordHashAndCount)
    (hdst : s₁.d.dstFilePath = s.d.dstFilePath)
    (hremove : s₁.d.removeInputFilesAfterMerge = s.d.removeInputFilesAfterMerge)
    (hcur : s₁.current = s.current) : Took s p s₁.d.pq s₁.fs (s₁.add p) := by
  unfold Merging.add
  rw [hcur, hdst]
  cases he : s.current.hash.eq p.hash with
  | true => exact ⟨rfl, hdst, hremove, Or.inl ⟨he, rfl, rfl⟩⟩
  | false => exact ⟨rfl, hdst, hremove, Or.inr ⟨he, rfl, rfl⟩⟩

/-- The loop goes on where `next` leaves an input in the queue. -/
theorem turn_of_next {s : Merging Path} {p : PasswordHashAndCount} {pq : List (MergerInput Path)}
    {fs : FileSystem Path} (hnext : next Q s.d s.fs = (p, { s.d with pq }, fs)) (hpq : pq ≠ []) :
    ∃ s', turn Q s = .inl s' ∧ Took s p pq fs s' := by
  have hne : pq.isEmpty = false := by simpa using hpq
  obtain ⟨s₁, hturn, hd, hr, hc, rfl, rfl⟩ : ∃ s₁ : Merging Path, turn Q s = .inl (s₁.add p) ∧
      s₁.d.dstFilePath = s.d.dstFilePath ∧
      s₁.d.removeInputFilesAfterMerge = s.d.removeInputFilesAfterMerge ∧
      s₁.current = s.current ∧ s₁.d.pq = pq ∧ s₁.fs = fs := by
    simp only [turn, hnext, hne, Bool.false_eq_true, if_false]
    exact ⟨_, rfl, rfl, rfl, rfl, rfl, rfl⟩
  exact ⟨_, hturn, took_add p hd hr hc⟩

/-- All that one turn can do. -/
theorem turn_cases {s : Merging Path} {m : MergerInput Path} {c : List (MergerInput Path)}
    (h : s.d.pq = m :: c) :
    (∃ s' pq fs, turn Q s = .inl s' ∧ Advances Q s m c pq fs ∧ Took s m.phc pq fs s') ∨
    (m.isValid = false ∧ c = [] ∧ ∃ t, turn Q s = .inr t ∧
      t.fs = (s.removed m).append s.d.dstFilePath s.current.dump) := by
  cases hv : m.isValid with
  | true =>
    left
    cases hr : m.read.isValid with
    | true =>
      have hnext : next Q s.d s.fs =
          (m.phc, { s.d with pq := Q.push m.read (Q.pop c) }, s.fs) := by
        simp only [next, h, hv, hr, if_true]
      obtain ⟨s', hturn, htook⟩ := turn_of_next hnext (Q.push_ne_nil _ _)
      exact ⟨s', _, _, hturn, Advances.more hv hr, htook⟩
    | false =>
      have hnext : next Q s.d s.fs = (m.phc, { s.d with pq := m.read :: c }, s.fs) := by
        simp only [next, h, hv, hr, if_true, Bool.false_eq_true, if_false]
      obtain ⟨s', hturn, htook⟩ := turn_of_next hnext (List.cons_ne_nil _ _)
      exact ⟨s', _, _, hturn, Advances.last hv hr, htook⟩
  | false =>
    by_cases hc : c = []
    · right
      have hempty : (Q.pop c).isEmpty = true := by simpa [Q.pop_eq_nil] using hc
      have hnext : next Q s.d s.fs = ({}, { s.d with pq := Q.pop c }, s.removed m) := by
        simp only [next, h, hv, hempty, Bool.false_eq_true, if_false, if_true, Merging.removed]
      refine ⟨rfl, hc, ?_⟩
      simp only [turn, hnext, hempty, if_true]
      exact ⟨_, rfl, rfl⟩
    · left
      have hne : (Q.pop c).isEmpty = false := by simpa [Q.pop_eq_nil] using hc
      have hnext : next Q s.d s.fs = (m.phc, { s.d with pq := Q.pop c }, s.removed m) := by
        simp only [next, h, hv, hne, Bool.false_eq_true, if_false, Merging.removed]
      obtain ⟨s', hturn, htook⟩ := turn_of_next hnext (mt (Q.pop_eq_nil c).mp hc)
      exact ⟨s', _, _, hturn, Advances.drop hv hc, htook⟩

/-! ## The running entry -/

/-- What has been written, with the running entry still to follow. -/
structure Running (s : Merging Path) (out : List Record) : Prop where
  flag : s.current.hash.isValid = false
  written : s.fs.files s.d.dstFilePath = some (encodeAll out)
  increasing : StrictlyIncreasing (out ++ [s.current.record])

/-- An entry that is not below the running one keeps the output in order. It adds its hash and
its count, in 32 bits. -/
theorem Took.running {s s' : Merging Path} {p : PasswordHashAndCount}
    {pq : List (MergerInput Path)} {fs : FileSystem Path} {out : List Record}
    (h : Took s p pq fs s') (hr : Running s out)
    (hfs : fs.files s.d.dstFilePath = s.fs.files s.d.dstFilePath)
    (hp : p.hash.isValid = false) (hle : s.current.hash.key ≤ p.hash.key) :
    ∃ out', Running s' out' ∧ s'.current.hash.key = p.hash.key ∧
      (∀ k, k ∈ keys (out' ++ [s'.current.record]) ↔
        k ∈ keys (out ++ [s.current.record]) ∨ k = p.hash.key) ∧
      ∀ k, tally (out' ++ [s'.current.record]) k ≡
        tally (out ++ [s.current.record]) k + tally [p.record] k [MOD 2 ^ 32] := by
  rcases h.adds with ⟨he, hsfs, hcur⟩ | ⟨he, hsfs, hcur⟩
  · -- the running entry stays and its count grows
    obtain ⟨hkey, -⟩ := (Hash.eq_iff _ _).mp he
    have hhash : s'.current.hash = s.current.hash := by rw [hcur]
    have hcount : s'.current.record.count = s.current.record.count + p.record.count := by
      rw [hcur, PasswordHashAndCount.record, PasswordHashAndCount.record,
        PasswordHashAndCount.record]
    refine ⟨out, ⟨?_, ?_, ?_⟩, ?_, ?_, ?_⟩
    · rw [hhash, hr.flag]
    · rw [hsfs, h.dst, hfs, hr.written]
    · have hinc := strictlyIncreasing_concat.mp hr.increasing
      apply strictlyIncreasing_concat.mpr
      simpa only [PasswordHashAndCount.record_key, hhash] using hinc
    · rw [hhash, hkey]
    · intro k
      simp [hhash, hkey]
    · intro k
      simp only [tally_append, tally_cons, tally_nil, hcount, PasswordHashAndCount.record_key,
        hhash, hkey, BitVec.toNat_add, Nat.ModEq]
      by_cases hk : p.hash.key = k
      · simp only [hk, if_true]
        omega
      · simp only [hk, if_false]
  · -- the running entry is written and the new one takes its place
    have hne : s.current.hash.key ≠ p.hash.key := by
      intro hk
      have := (Hash.eq_iff s.current.hash p.hash).mpr ⟨hk, by rw [hr.flag, hp]⟩
      rw [he] at this
      cases this
    refine ⟨out ++ [s.current.record], ⟨?_, ?_, ?_⟩, ?_, ?_, ?_⟩
    · rw [hcur, hp]
    · rw [hsfs, h.dst, FileSystem.append_files, hfs, hr.written]
      simp
    · rw [hcur]
      refine strictlyIncreasing_concat.mpr ⟨hr.increasing, ?_⟩
      intro k hk
      have hinc := (strictlyIncreasing_concat.mp hr.increasing).2
      simp only [keys_append, keys_cons, keys_nil, List.mem_append, List.mem_singleton] at hk
      rcases hk with hk | rfl
      · have := hinc k hk
        simp only [PasswordHashAndCount.record_key] at this ⊢
        omega
      · simp only [PasswordHashAndCount.record_key]
        omega
    · rw [hcur]
    · intro k
      simp [hcur, or_assoc]
    · intro k
      rw [hcur, tally_append]

/-- A turn leaves a queue behind, with nothing in it below the entry that was taken. -/
theorem Advances.queue {s : Merging Path} {m : MergerInput Path} {c pq : List (MergerInput Path)}
    {fs : FileSystem Path} (h : Advances Q s m c pq fs) (hq : Queue Q m c) :
    ∃ m' c', pq = m' :: c' ∧ Queue Q m' c' ∧ (m'.isValid = true ∨ m'.key = m.key) ∧
      m.key ≤ m'.key ∧ Moves m c pq := by
  have hm : m.Sound := hq.sound m (by simp)
  obtain ⟨m₀, hphc, haddr, hheap⟩ := hq.heap
  have hpop := Q.isHeap_pop m₀ c hheap
  cases h with
  | more hv hr =>
    rcases hm.read_cases hv with ⟨-, hread, hpending⟩ | ⟨hr', -⟩
    · have hperm : (Q.push m.read (Q.pop c)).Perm (m.read :: c) :=
        (Q.push_perm _ _).trans ((Q.pop_perm c).cons _)
      obtain ⟨rs, hrs⟩ : ∃ rs, m.read.pending = m.read.phc.record :: rs :=
        ⟨_, by rw [MergerInput.pending, if_pos hr]⟩
      have hlast : m.read.last = m.last := by
        simp only [MergerInput.last, hpending, hrs, List.getLastD_cons]
      have hle : m.key ≤ m.read.key := by
        have hinc := hm.increasing
        rw [hpending] at hinc
        obtain ⟨r, hr, hkey⟩ := mem_keys.mp (MergerInput.key_mem_pending hr)
        exact ((List.pairwise_cons.mp hinc).1 r hr).le.trans_eq hkey
      obtain ⟨m', c', hpq, hq', hv'⟩ := queue_of_heap (Q.push_ne_nil _ _)
        (Q.isHeap_push m.read _ hpop)
        (fun n hn => by
          rcases List.mem_cons.mp (hperm.mem_iff.mp hn) with rfl | hn
          · exact hr
          · exact hq.live n hn)
        (fun n hn => by
          rcases List.mem_cons.mp (hperm.mem_iff.mp hn) with rfl | hn
          · exact hread
          · exact hq.sound n (by simp [hn]))
      refine ⟨m', c', hpq, hq', Or.inl hv', ?_,
        moves_read hv hperm hlast hpending fun hnil => by rw [hrs] at hnil; cases hnil⟩
      have hmem : m' ∈ m.read :: c := hperm.mem_iff.mp (by simp [hpq])
      rcases List.mem_cons.mp hmem with rfl | hmem
      · exact hle
      · exact hq.top_le m' hmem
    · rw [hr] at hr'
      cases hr'
  | last hv hr =>
    rcases hm.read_cases hv with ⟨hr', -⟩ | ⟨-, hread, hsame, hpending⟩
    · rw [hr] at hr'
      cases hr'
    · have hkey : m.read.key = m.key := by simp only [MergerInput.key, hsame]
      have hdone := MergerInput.pending_of_not_valid hr
      have hlast : m.read.last = m.last := by
        simp [MergerInput.last, hdone, hpending, hsame]
      refine ⟨m.read, c, rfl, ⟨⟨m₀, by rw [hphc, hsame], haddr, hheap⟩, hq.live, ?_⟩,
        Or.inr hkey, hkey.ge,
        moves_read hv (List.Perm.refl _) hlast (by rw [hdone, hpending]) fun _ => rfl⟩
      intro n hn
      rcases List.mem_cons.mp hn with rfl | hn
      · exact hread
      · exact hq.sound n (by simp [hn])
  | drop hv hc =>
    obtain ⟨m', c', hpq, hq', hv'⟩ := queue_of_heap (mt (Q.pop_eq_nil c).mp hc) hpop
      (fun n hn => hq.live n ((Q.mem_pop c n).mp hn))
      (fun n hn => hq.sound n (by simp [(Q.mem_pop c n).mp hn]))
    refine ⟨m', c', hpq, hq', Or.inl hv', ?_, moves_drop (Q.pop_perm c) hv⟩
    exact hq.top_le m' ((Q.mem_pop c m').mp (by simp [hpq]))

/-! ## The invariant of the loop -/

/-- The files besides the destination are as they were, unless merged inputs are removed. -/
structure Frame (fs₀ : FileSystem Path) (dst : Path) (keeps : Bool) (fs : FileSystem Path) :
    Prop where
  writable : fs.writable = fs₀.writable
  files : keeps = false → ∀ p, p ≠ dst → fs.files p = fs₀.files p

theorem Frame.append {fs₀ fs : FileSystem Path} {dst : Path} {keeps : Bool}
    (h : Frame fs₀ dst keeps fs) (bs : List UInt8) : Frame fs₀ dst keeps (fs.append dst bs) := by
  refine ⟨h.writable, fun hk p hp => ?_⟩
  rw [FileSystem.append_files_of_ne _ _ hp, h.files hk p hp]

theorem Frame.removed {fs₀ : FileSystem Path} {s : Merging Path} (m : MergerInput Path)
    (h : Frame fs₀ s.d.dstFilePath s.d.removeInputFilesAfterMerge s.fs) :
    Frame fs₀ s.d.dstFilePath s.d.removeInputFilesAfterMerge (s.removed m) := by
  unfold Merging.removed
  split
  · rename_i hr
    exact ⟨h.writable, fun hk => by rw [hr] at hk; cases hk⟩
  · exact h

theorem Merging.removed_files {s : Merging Path} {m : MergerInput Path}
    (h : m.path ≠ s.d.dstFilePath) :
    (s.removed m).files s.d.dstFilePath = s.fs.files s.d.dstFilePath := by
  unfold Merging.removed
  split
  · exact FileSystem.remove_files_of_ne _ _ h.symm
  · rfl

theorem Advances.files_dst {s : Merging Path} {m : MergerInput Path}
    {c pq : List (MergerInput Path)} {fs : FileSystem Path} (h : Advances Q s m c pq fs)
    (hapart : m.path ≠ s.d.dstFilePath) :
    fs.files s.d.dstFilePath = s.fs.files s.d.dstFilePath := by
  cases h with
  | more => rfl
  | last => rfl
  | drop => exact Merging.removed_files hapart

theorem Advances.frame {fs₀ fs : FileSystem Path} {s : Merging Path} {m : MergerInput Path}
    {c pq : List (MergerInput Path)} (h : Advances Q s m c pq fs)
    (hframe : Frame fs₀ s.d.dstFilePath s.d.removeInputFilesAfterMerge s.fs) :
    Frame fs₀ s.d.dstFilePath s.d.removeInputFilesAfterMerge fs := by
  cases h with
  | more => exact hframe
  | last => exact hframe
  | drop => exact hframe.removed m

/-- What holds in front of every turn, with `m` on top of the queue. The hashes that have been
written, are running or are still pending are those of the sources. -/
structure Inv (Q : PriorityQueue (@MergerInput.key Path)) (fs₀ : FileSystem Path)
    (K : Nat → Prop) (s : Merging Path) (out : List Record) (m : MergerInput Path)
    (c : List (MergerInput Path)) : Prop where
  running : Running s out
  pq : s.d.pq = m :: c
  queue : Queue Q m c
  front : m.isValid = true ∨ m.key = s.current.hash.key
  above : s.current.hash.key ≤ m.key
  apart : ∀ n ∈ m :: c, n.path ≠ s.d.dstFilePath
  frame : Frame fs₀ s.d.dstFilePath s.d.removeInputFilesAfterMerge s.fs
  hashes : ∀ k, K k ↔
    k ∈ keys (out ++ [s.current.record]) ∨ ∃ n ∈ m :: c, k ∈ keys n.pending

section Inv

variable {fs₀ : FileSystem Path} {K : Nat → Prop} {s s' t : Merging Path} {out : List Record}
  {m : MergerInput Path} {c : List (MergerInput Path)}

theorem or_moved {A B E F : Prop} (h : B ∨ F ↔ B ∨ E) (hB : B → A ∨ E) :
    A ∨ E ↔ A ∨ B ∨ F := by tauto

/-- A turn keeps the invariant. -/
theorem Inv.go (h : Inv Q fs₀ K s out m c) (hturn : turn Q s = .inl s') :
    ∃ out' m' c', Inv Q fs₀ K s' out' m' c' ∧ Moves m c (m' :: c') ∧
      s'.d.dstFilePath = s.d.dstFilePath ∧
      s'.d.removeInputFilesAfterMerge = s.d.removeInputFilesAfterMerge ∧
      ∀ k, tally (out' ++ [s'.current.record]) k ≡
        tally (out ++ [s.current.record]) k + tally [m.phc.record] k [MOD 2 ^ 32] := by
  rcases turn_cases (Q := Q) h.pq with ⟨s₁, pq, fs, hturn', hadv, htook⟩ | ⟨-, -, t, hturn', -⟩
  · rw [hturn'] at hturn
    cases hturn
    have hm : m.Sound := h.queue.sound m (by simp)
    have hfs := hadv.files_dst (h.apart m (by simp))
    have hframe := hadv.frame h.frame
    obtain ⟨m', c', rfl, hq', hfront, hle, hmoves⟩ := hadv.queue h.queue
    obtain ⟨out', hrun, hkey, hkeys, htally⟩ := htook.running h.running hfs hm.flag h.above
    refine ⟨out', m', c', ⟨hrun, htook.pq, hq', ?_, ?_, ?_, ?_, ?_⟩, hmoves, htook.dst,
      htook.remove, htally⟩
    · rw [hkey]
      exact hfront
    · rw [hkey]
      exact hle
    · intro n hn
      obtain ⟨o, ho, -, hpath, -⟩ := hmoves.inputs n hn
      rw [hpath, htook.dst]
      exact h.apart o ho
    · rw [htook.dst, htook.remove]
      rcases htook.adds with ⟨-, hs', -⟩ | ⟨-, hs', -⟩
      · rw [hs']
        exact hframe
      · rw [hs']
        exact hframe.append _
    · intro k
      have hmoved := hmoves.hashes k
      have htaken : k = m.key → k ∈ keys (out ++ [s.current.record]) ∨
          ∃ n ∈ m :: c, k ∈ keys n.pending := by
        rintro rfl
        rcases h.front with hv | hkey
        · exact Or.inr ⟨m, by simp, MergerInput.key_mem_pending hv⟩
        · left
          simp [hkey]
      rw [h.hashes, hkeys, or_assoc]
      exact or_moved hmoved htaken
  · rw [hturn'] at hturn
    cases hturn

/-- The last turn writes the running entry. -/
theorem Inv.stop (h : Inv Q fs₀ K s out m c) (hturn : turn Q s = .inr t) :
    m.isValid = false ∧ c = [] ∧
      t.fs.files s.d.dstFilePath = some (encodeAll (out ++ [s.current.record])) ∧
      Frame fs₀ s.d.dstFilePath s.d.removeInputFilesAfterMerge t.fs ∧
      ∀ k, K k ↔ k ∈ keys (out ++ [s.current.record]) := by
  rcases turn_cases (Q := Q) h.pq with ⟨s₁, pq, fs, hturn', -, -⟩ | ⟨hv, hc, t', hturn', hfs⟩
  · rw [hturn'] at hturn
    cases hturn
  · rw [hturn'] at hturn
    cases hturn
    refine ⟨hv, hc, ?_, ?_, fun k => ?_⟩
    · rw [hfs, FileSystem.append_files, Merging.removed_files (h.apart m (by simp)),
        h.running.written]
      simp
    · rw [hfs]
      exact (h.frame.removed m).append _
    · have hpending := MergerInput.pending_of_not_valid hv
      rw [h.hashes]
      simp [hc, hpending]

/-- What a finished merge has made of the files: the destination holds the records `R`, in
order, with the hashes of the sources and no others. -/
structure Merged (fs₀ : FileSystem Path) (K : Nat → Prop) (dst : Path) (keeps : Bool)
    (fs : FileSystem Path) (R : List Record) : Prop where
  written : fs.files dst = some (encodeAll R)
  increasing : StrictlyIncreasing R
  hashes : ∀ k, K k ↔ k ∈ keys R
  frame : Frame fs₀ dst keeps fs

/-- The loop ends. What else every turn keeps, of the records up to the running one and of the
queue, holds in the end of the input that is left. -/
theorem run_yields {J : List Record → MergerInput Path → List (MergerInput Path) → Prop}
    (go : ∀ {R R' m c m' c'}, Queue Q m c → J R m c → Moves m c (m' :: c') →
      (∀ k, tally R' k ≡ tally R k + tally [m.phc.record] k [MOD 2 ^ 32]) → J R' m' c')
    (h : Inv Q fs₀ K s out m c) (hJ : J (out ++ [s.current.record]) m c) :
    ∃ t R m', Yields (fun fuel => loop (turn Q) fuel s) t ∧
      Merged fs₀ K s.d.dstFilePath s.d.removeInputFilesAfterMerge t.fs R ∧
      m'.isValid = false ∧ (∀ k ∈ keys R, k ≤ m'.key) ∧ J R m' [] := by
  have hrun := loop_yields (turn Q)
    (fun s' : Merging Path => ∃ out m c, Inv Q fs₀ K s' out m c ∧
      J (out ++ [s'.current.record]) m c ∧
      s'.d.dstFilePath = s.d.dstFilePath ∧
      s'.d.removeInputFilesAfterMerge = s.d.removeInputFilesAfterMerge)
    (fun t : Merging Path => ∃ R m',
      Merged fs₀ K s.d.dstFilePath s.d.removeInputFilesAfterMerge t.fs R ∧
      m'.isValid = false ∧ (∀ k ∈ keys R, k ≤ m'.key) ∧ J R m' [])
    (fun s' => (s'.d.pq.map MergerInput.load).sum) ?_ ?_ ⟨out, m, c, h, hJ, rfl, rfl⟩
  · obtain ⟨t, hy, R, m', hpost⟩ := hrun
    exact ⟨t, R, m', hy, hpost⟩
  · rintro s₁ s₂ ⟨out, m, c, hinv, hJ, hdst, hremove⟩ hturn
    obtain ⟨out', m', c', hinv', hmoves, hdst', hremove', htally⟩ := hinv.go hturn
    refine ⟨⟨out', m', c', hinv', go hinv.queue hJ hmoves htally, hdst'.trans hdst,
      hremove'.trans hremove⟩, ?_⟩
    rw [hinv.pq, hinv'.pq]
    exact hmoves.load
  · rintro s₁ t ⟨out, m, c, hinv, hJ, hdst, hremove⟩ hturn
    obtain ⟨hv, rfl, hwritten, hframe, hhashes⟩ := hinv.stop hturn
    rw [hdst] at hwritten hframe
    rw [hremove] at hframe
    refine ⟨out ++ [s₁.current.record], m, ⟨hwritten, hinv.running.increasing, hhashes, hframe⟩,
      hv, ?_, hJ⟩
    -- the input that is left was exhausted by the running entry
    have hkey : m.key = s₁.current.hash.key := hinv.front.resolve_left (by simp [hv])
    intro k hk
    rw [hkey]
    simp only [keys_append, keys_cons, keys_nil, List.mem_append, List.mem_singleton] at hk
    rcases hk with hk | rfl
    · exact ((strictlyIncreasing_concat.mp hinv.running.increasing).2 k hk).le
    · rfl

end Inv

end Turn

end merger
