-- The merge of files whose last record is incomplete, beside the merge of their
-- whole records. The two go step by step; what an exhausted input still holds is
-- all that can differ.
import Pwned.MergeCounts
import Pwned.MergeTrace

open pwned

namespace merger

variable {Path : Type}

/-! ## Inputs on a file and on its whole records -/

/-- What a queue of pointers can see of an input: the hash that is compared, and the pointer. -/
def MergerInput.look (m : MergerInput Path) : Nat × Nat := (m.key, m.addr)

theorem MergerInput.look_eq {m m' : MergerInput Path} (hrecord : m.phc.record = m'.phc.record)
    (haddr : m.addr = m'.addr) : m.look = m'.look := by
  have hkey : m.key = m'.key := by
    rw [MergerInput.key, MergerInput.key, ← PasswordHashAndCount.record_key, hrecord,
      PasswordHashAndCount.record_key]
  rw [look, look, hkey, haddr]

theorem OnFile.alike {src : TailedFile} {seen : List Record} {m m' : MergerInput Path}
    (h : OnFile src seen m) (h' : OnFile src.whole seen m') :
    m.isValid = m'.isValid ∧ (m.isValid = true → m.phc.record = m'.phc.record) := by
  cases hv : m.isValid with
  | true =>
    obtain ⟨rest, hrecords, -⟩ := h.live hv
    cases hv' : m'.isValid with
    | true =>
      obtain ⟨rest', hrecords', -⟩ := h'.live hv'
      have hsame := List.append_cancel_left (hrecords.symm.trans hrecords')
      exact ⟨rfl, fun _ => (List.cons.inj hsame).1⟩
    | false =>
      have hdone := hrecords.symm.trans (h'.done hv').1
      simp at hdone
  | false =>
    cases hv' : m'.isValid with
    | true =>
      obtain ⟨rest', hrecords', -⟩ := h'.live hv'
      have hdone := hrecords'.symm.trans (h.done hv).1
      simp at hdone
    | false => simp

/-- The queues of the two merges look the same behind the tops, which have one address. -/
structure Alongside (m : MergerInput Path) (c : List (MergerInput Path)) (m' : MergerInput Path)
    (c' : List (MergerInput Path)) : Prop where
  addr : m.addr = m'.addr
  rest : c.map MergerInput.look = c'.map MergerInput.look

section Alongside

variable {Q : PriorityQueue (@MergerInput.key Path)} {rank : Nat → Nat → Nat}
  {files : List TailedFile} {L : List Step} {m m' n n' : MergerInput Path}
  {c c' d d' : List (MergerInput Path)}

/-- Inputs on a file and on its whole records from which the same was taken. -/
theorem Placed.alike (h : Placed files L m) (h' : Placed (files.map TailedFile.whole) L m')
    (haddr : m.addr = m'.addr) :
    m.isValid = m'.isValid ∧ (m.isValid = true → m.phc.record = m'.phc.record) := by
  obtain ⟨src, hsrc, hm⟩ := h
  obtain ⟨src', hsrc', hm'⟩ := h'
  rw [← haddr] at hm'
  rw [List.getElem?_map, ← haddr, hsrc, Option.map_some, Option.some.injEq] at hsrc'
  subst hsrc'
  exact hm.alike hm'

theorem Alongside.top (h : Alongside m c m' c') (hq : Queued Q rank files L m c)
    (hq' : Queued Q rank (files.map TailedFile.whole) L m' c') :
    m.isValid = m'.isValid ∧ m.step = m'.step := by
  obtain ⟨hv, hrecord⟩ := (hq.placed m (by simp)).alike (hq'.placed m' (by simp)) h.addr
  refine ⟨hv, ?_⟩
  unfold MergerInput.step
  rw [← hv, h.addr]
  split
  · rename_i hlive
    rw [hrecord hlive]
  · rfl

theorem Alongside.nil_iff (h : Alongside m c m' c') : c = [] ↔ c' = [] := by
  have hlen := congrArg List.length h.rest
  rw [List.length_map, List.length_map] at hlen
  rw [← List.length_eq_zero_iff, hlen, List.length_eq_zero_iff]

/-- A queue that goes by hashes and pointers goes on the same way. -/
theorem Alongside.advance (hQ : Q.LooksAt MergerInput.look) (h : Alongside m c m' c')
    (hq : Queued Q rank files L m c)
    (hq' : Queued Q rank (files.map TailedFile.whole) L m' c')
    (hpq : merger.advance Q m c = n :: d) (hpq' : merger.advance Q m' c' = n' :: d') :
    Alongside n d n' d' := by
  obtain ⟨hv, hstep⟩ := h.top hq hq'
  have hpop := hQ.pop h.rest
  have hsplit : ∀ {pq pq' : List (MergerInput Path)}, pq = n :: d → pq' = n' :: d' →
      pq.map MergerInput.look = pq'.map MergerInput.look → Alongside n d n' d' := by
    rintro _ _ rfl rfl hlook
    rw [List.map_cons, List.map_cons, List.cons.injEq] at hlook
    exact ⟨(Prod.mk.inj hlook.1).2, hlook.2⟩
  unfold merger.advance at hpq hpq'
  cases hlive : m.isValid with
  | true =>
    have hlive' := hv.symm.trans hlive
    have hread := (hq.inputs_whole hlive).1 m.read (by simp)
    have hread' := (hq'.inputs_whole hlive').1 m'.read (by simp)
    rw [← hstep] at hread'
    have haddr : m.read.addr = m'.read.addr := by
      rw [MergerInput.read_addr, MergerInput.read_addr, h.addr]
    obtain ⟨hr, hrecord⟩ := hread.alike hread' haddr
    rw [if_pos hlive] at hpq
    rw [if_pos hlive', ← hr] at hpq'
    split at hpq
    · rename_i hmore
      rw [if_pos hmore] at hpq'
      exact hsplit hpq hpq' (hQ.push (MergerInput.look_eq (hrecord hmore) haddr) hpop)
    · rename_i hlast
      rw [if_neg hlast] at hpq'
      cases hpq
      cases hpq'
      exact ⟨h.addr, h.rest⟩
  | false =>
    have hdone : ¬ m.isValid = true := by simp [hlive]
    rw [if_neg hdone] at hpq
    rw [← hv, if_neg hdone] at hpq'
    exact hsplit hpq hpq' hpop

end Alongside

/-! ## The two merges -/

/-- A merge of the files at `srcFiles` into `dst`. One of them has a whole record. -/
structure TailedSources (fs : FileSystem Path) (srcFiles : List Path) (files : List TailedFile)
    (dst : Path) : Prop where
  contents : List.Forall₂ (fun path src => fs.files path = some src.bytes) srcFiles files
  some_record : ∃ src ∈ files, src.records ≠ []
  apart : dst ∉ srcFiles
  writable : fs.writable dst = true

/-- The hash occurs in one of the files. -/
def Stored (files : List TailedFile) (k : Nat) : Prop := ∃ src ∈ files, k ∈ keys src.records

/-- The whole records of a file. -/
def wholeRecords (bs : List UInt8) : List UInt8 := bs.take (20 * (bs.length / 20))

/-- The sources without those that have no whole record. -/
def withRecords (fs : FileSystem Path) (srcFiles : List Path) : List Path :=
  srcFiles.filter fun p => (fs.files p).any fun bs => 20 ≤ bs.length

theorem wholeRecords_bytes (src : TailedFile) :
    wholeRecords src.bytes = encodeAll src.records := by
  have hlt := src.tail_lt
  have hlen : 20 * (src.bytes.length / 20) = (encodeAll src.records).length := by
    rw [TailedFile.bytes, List.length_append, encodeAll_length]
    omega
  rw [wholeRecords, hlen, TailedFile.bytes, List.take_left]

theorem TailedFile.bytes_whole (src : TailedFile) : src.whole.bytes = encodeAll src.records :=
  List.append_nil _

/-- A file has a whole record exactly if it has 20 bytes. -/
theorem TailedFile.le_length_iff (src : TailedFile) :
    20 ≤ src.bytes.length ↔ src.records ≠ [] := by
  have hlt := src.tail_lt
  rw [TailedFile.bytes, List.length_append, encodeAll_length, Ne, ← List.length_eq_zero_iff]
  omega

section Sources

variable [DecidableEq Path] {Q : PriorityQueue (@MergerInput.key Path)}
  {rank : Nat → Nat → Nat} {files : List TailedFile} {fs : FileSystem Path}
  {srcFiles : List Path} {dst : Path}

/-- The files with the incomplete records of the sources cut off. -/
def cutOff (fs : FileSystem Path) (srcFiles : List Path) : FileSystem Path :=
  { fs with files := fun p =>
      if p ∈ srcFiles then (fs.files p).map wholeRecords else fs.files p }

/-- The merge writes the same as the merge of the whole records. -/
def SameOutput (Q : PriorityQueue (@MergerInput.key Path)) (fs : FileSystem Path)
    (srcFiles : List Path) (dst : Path) (keeps : Bool)
    (progressed : Option (List (BitVec 64))) : Prop :=
  ∃ d d' r r' calls calls', MergeOperation.create Q fs srcFiles dst keeps = some d ∧
    MergeOperation.create Q (cutOff fs srcFiles) (withRecords fs srcFiles) dst keeps = some d' ∧
    Yields (fun fuel => execute Q fuel d fs progressed) (.ok (r, calls)) ∧
    Yields (fun fuel => execute Q fuel d' (cutOff fs srcFiles) progressed) (.ok (r', calls')) ∧
    r.files dst = r'.files dst

theorem cutOff_files {p : Path} (hp : p ∈ srcFiles) {src : TailedFile}
    (h : fs.files p = some src.bytes) :
    (cutOff fs srcFiles).files p = some (encodeAll src.records) := by
  unfold cutOff
  dsimp only
  rw [if_pos hp, h, Option.map_some, wholeRecords_bytes]

theorem contents_whole {rest : List Path} {files : List TailedFile}
    (h : List.Forall₂ (fun path src => fs.files path = some src.bytes) rest files)
    (hall : ∀ p ∈ rest, p ∈ srcFiles) :
    List.Forall₂ (fun path src => (cutOff fs srcFiles).files path = some src.bytes) rest
      (files.map TailedFile.whole) := by
  induction h with
  | nil => exact List.Forall₂.nil
  | cons hfile h ih =>
    refine List.Forall₂.cons ?_ (ih fun p hp => hall p (by simp [hp]))
    rw [TailedFile.bytes_whole]
    exact cutOff_files (hall _ (by simp)) hfile

/-- The whole records of the sources are sources themselves. -/
theorem TailedSources.whole (h : TailedSources fs srcFiles files dst) :
    TailedSources (cutOff fs srcFiles) srcFiles (files.map TailedFile.whole) dst := by
  obtain ⟨src, hsrc, hne⟩ := h.some_record
  exact ⟨contents_whole h.contents fun _ hp => hp, ⟨src.whole, List.mem_map_of_mem hsrc, hne⟩,
    h.apart, h.writable⟩

theorem sources_contents {rest : List Path} {files : List TailedFile}
    (h : List.Forall₂ (fun path src => fs.files path = some src.bytes) rest files)
    (hall : ∀ p ∈ rest, p ∈ srcFiles) :
    ∃ sources : List SourceFile,
      List.Forall₂ (fun path src => (cutOff fs srcFiles).files path =
        some (encodeAll src.records)) (withRecords fs rest) sources ∧
      ∀ rs : List Record, (∃ s ∈ sources, s.records = rs) ↔
        rs ≠ [] ∧ ∃ src ∈ files, src.records = rs := by
  induction h with
  | nil => exact ⟨[], List.Forall₂.nil, by simp⟩
  | cons hfile h ih =>
    rename_i path src rest files
    obtain ⟨sources, hsources, hrecords⟩ := ih fun p hp => hall p (by simp [hp])
    unfold withRecords at hsources ⊢
    by_cases hne : src.records = []
    · refine ⟨sources, ?_, fun rs => ?_⟩
      · rw [List.filter_cons_of_neg]
        · exact hsources
        · simpa [hfile, src.le_length_iff] using hne
      · rw [hrecords]
        simp only [List.mem_cons, exists_eq_or_imp, hne]
        tauto
    · refine ⟨⟨src.records, hne, src.increasing⟩ :: sources, ?_, fun rs => ?_⟩
      · rw [List.filter_cons_of_pos]
        · exact List.Forall₂.cons (cutOff_files (hall path (by simp)) hfile) hsources
        · simpa [hfile, src.le_length_iff] using hne
      · simp only [List.mem_cons, exists_eq_or_imp, hrecords]
        constructor
        · rintro (rfl | ⟨hrs, hmem⟩)
          · exact ⟨hne, Or.inl rfl⟩
          · exact ⟨hrs, Or.inr hmem⟩
        · rintro ⟨hrs, rfl | hmem⟩
          · exact Or.inl rfl
          · exact Or.inr ⟨hrs, hmem⟩

/-- The files that have a whole record, as files of records. -/
theorem TailedSources.sources (h : TailedSources fs srcFiles files dst) :
    ∃ sources : List SourceFile, Sources (cutOff fs srcFiles) (withRecords fs srcFiles) sources dst ∧
      ∀ k, InSources sources k ↔ Stored files k := by
  obtain ⟨sources, hcontents, hrecords⟩ := sources_contents h.contents fun _ hp => hp
  refine ⟨sources, ⟨hcontents, ?_, ?_, h.writable⟩, fun k => ?_⟩
  · rintro rfl
    obtain ⟨src, hsrc, hne⟩ := h.some_record
    obtain ⟨s, hs, -⟩ := (hrecords src.records).mpr ⟨hne, src, hsrc, rfl⟩
    cases hs
  · intro hmem
    exact h.apart (List.mem_of_mem_filter hmem)
  · constructor
    · rintro ⟨s, hs, hk⟩
      obtain ⟨-, src, hsrc, he⟩ := (hrecords s.records).mp ⟨s, hs, rfl⟩
      exact ⟨src, hsrc, he ▸ hk⟩
    · rintro ⟨src, hsrc, hk⟩
      have hne : src.records ≠ [] := by
        intro hnil
        rw [hnil] at hk
        cases hk
      obtain ⟨s, hs, he⟩ := (hrecords src.records).mpr ⟨hne, src, hsrc, rfl⟩
      exact ⟨s, hs, he ▸ hk⟩

omit [DecidableEq Path] in
theorem TailedSources.withRecords_eq (h : TailedSources fs srcFiles files dst)
    (hne : ∀ src ∈ files, src.records ≠ []) : withRecords fs srcFiles = srcFiles := by
  apply List.filter_eq_self.mpr
  intro p hp
  obtain ⟨src, hsrc, hfile⟩ := exists_of_forall₂ h.contents hp
  rw [hfile, Option.any_some, decide_eq_true_eq, src.le_length_iff]
  exact hne src hsrc

/-- A merge starts behind no steps, with the entry on top as the running one. -/
theorem TailedSources.starts (rank : Nat → Nat → Nat)
    (h : TailedSources fs srcFiles files dst) (keeps : Bool) (progressed : Option (List (BitVec 64))) :
    ∃ d s m c sum, openAll Q fs srcFiles 0 [] 0 = some (m :: c, sum) ∧
      MergeOperation.create Q fs srcFiles dst keeps = some d ∧
      start d fs progressed = .ok (some s) ∧ s.d.dstFilePath = dst ∧
      Tracks Q rank files m.phc.record [] s m c := by
  obtain ⟨pq, sum, hopen, hheap, hplaced, haddrs⟩ := openAll_placed (Q := Q) h.contents
    (fun _ hp => hp) 0 [] 0 List.drop_zero Q.isHeap_nil (by simp) (List.Perm.refl _) (by omega)
  have hne : pq ≠ [] := by
    rintro rfl
    obtain ⟨src, hsrc, -⟩ := h.some_record
    have hlen := haddrs.length_eq
    rw [List.map_nil, List.length_nil, List.length_range] at hlen
    rw [List.length_eq_zero_iff.mp hlen.symm] at hsrc
    cases hsrc
  obtain ⟨m, c, rfl⟩ := List.exists_cons_of_ne_nil hne
  let d : MergeOperation Path :=
    { pq := m :: c, dstFilePath := dst, removeInputFilesAfterMerge := keeps,
      totalEntries := sum / BitVec.ofNat 64 PasswordHashAndCount.size }
  let s : Merging Path := { d, fs := fs.create dst, current := m.phc, progressed }
  have hcreate : MergeOperation.create Q fs srcFiles dst keeps = some d := by
    simp only [MergeOperation.create, hopen]
    rfl
  have hstart : start d fs progressed = .ok (some s) := if_pos h.writable
  have hqueued : Queued Q rank files [] m c :=
    queued_nil hheap (fun n hn => (hplaced n hn).1) haddrs
  have hwritten : Written files m.phc.record [] s :=
    ⟨FileSystem.create_files fs dst, rfl, hqueued.entry.1⟩
  refine ⟨d, s, m, c, sum, hopen, hcreate, hstart, rfl, hwritten, hqueued, rfl, ?_⟩
  intro n hn hdst
  exact h.apart ((show n.path = dst from hdst) ▸ (hplaced n hn).2)

/-! ## Step by step -/

omit [DecidableEq Path] in
theorem look_openInput {src : TailedFile} (hne : src.records ≠ []) (addr : Nat) (path : Path) :
    (MergerInput.openInput addr path src.bytes).look =
      (MergerInput.openInput addr path src.whole.bytes).look := by
  have hopen := onFile_openInput src addr path
  obtain ⟨-, hrecord⟩ := hopen.alike (onFile_openInput src.whole addr path)
  have hv : (MergerInput.openInput addr path src.bytes).isValid = true := by
    by_contra hv
    exact hne (hopen.done (by simpa using hv)).1
  exact MergerInput.look_eq (hrecord hv) rfl

omit [DecidableEq Path] in
theorem openAll_alike (hQ : Q.LooksAt MergerInput.look) {fs fs' : FileSystem Path}
    {rest : List Path} {files : List TailedFile} (hne : ∀ src ∈ files, src.records ≠ [])
    (h : List.Forall₂ (fun path src => fs.files path = some src.bytes) rest files)
    (h' : List.Forall₂ (fun path src => fs'.files path = some src.bytes) rest
      (files.map TailedFile.whole)) (addr : Nat) {pq pq' q q' : List (MergerInput Path)}
    {sum sum' t t' : BitVec 64} (hpq : pq.map MergerInput.look = pq'.map MergerInput.look)
    (hopen : openAll Q fs rest addr pq sum = some (q, t))
    (hopen' : openAll Q fs' rest addr pq' sum' = some (q', t')) :
    q.map MergerInput.look = q'.map MergerInput.look := by
  induction h generalizing addr pq pq' sum sum' with
  | nil =>
    cases hopen
    cases hopen'
    exact hpq
  | cons hfile h ih =>
    rename_i path src rest files
    obtain ⟨hfile', h'⟩ := List.forall₂_cons.mp h'
    simp only [openAll, hfile, Option.bind_eq_bind, Option.bind_some] at hopen
    simp only [openAll, hfile', Option.bind_eq_bind, Option.bind_some] at hopen'
    exact ih (fun src hsrc => hne src (by simp [hsrc])) h' (addr + 1)
      (hQ.push (look_openInput (hne src (by simp)) addr path) hpq) hopen hopen'

/-- The loop of an `execute` that ends. -/
theorem loop_of_execute {d : MergeOperation Path} {progressed : Option (List (BitVec 64))}
    {s : Merging Path} {r : FileSystem Path} {calls : Option (List (BitVec 64))}
    (hstart : start d fs progressed = .ok (some s))
    (hy : Yields (fun fuel => execute Q fuel d fs progressed) (.ok (r, calls))) :
    ∃ t, Yields (fun fuel => loop (turn Q) fuel s) t ∧ t.fs = r := by
  simp only [execute, hstart] at hy
  obtain ⟨n, hn⟩ := hy.of_map
  obtain ⟨t, ht, hok⟩ := hn n le_rfl
  exact ⟨t, loop_yields_of_eq _ ht, (Prod.mk.inj (Except.ok.inj hok)).1⟩

/-- The merge of the files and the merge of their whole records behind the same steps. -/
structure Both (Q : PriorityQueue (@MergerInput.key Path)) (rank : Nat → Nat → Nat)
    (files : List TailedFile) (e : Record) (dst : Path) (s s' : Merging Path) : Prop where
  tracks : ∃ L m c m' c', Tracks Q rank files e L s m c ∧
    Tracks Q rank (files.map TailedFile.whole) e L s' m' c' ∧ Alongside m c m' c'
  target : s.d.dstFilePath = dst
  target' : s'.d.dstFilePath = dst

/-- What the two merges have written in the end. -/
structure Wrote (rank : Nat → Nat → Nat) (files : List TailedFile) (e : Record)
    (L : List Step) (f : Nat) (out out' : Option (List UInt8)) : Prop where
  course : Course rank files L f
  out : out = some (encodeAll (squash e (L.map (Step.entry files))))
  out' : out' = some (encodeAll (squash e (L.map (Step.entry (files.map TailedFile.whole)))))

variable {e : Record} {s s' u' t' : Merging Path}

theorem Both.go (hQ : Q.LooksAt MergerInput.look) (hrank : Ranked Q rank)
    (h : Both Q rank files e dst s s') (hturn' : turn Q s' = .inl u') :
    ∃ u, turn Q s = .inl u ∧ Both Q rank files e dst u u' := by
  obtain ⟨L, m, c, m', c', htracks, htracks', halong⟩ := h.tracks
  obtain ⟨hv, hstep⟩ := halong.top htracks.queued htracks'.queued
  have hgoes := (turn_goes_iff htracks'.pq).mp ⟨u', hturn'⟩
  rw [← hv, Ne, ← halong.nil_iff] at hgoes
  obtain ⟨u, hturn⟩ := (turn_goes_iff htracks.pq).mpr hgoes
  obtain ⟨n, d, hpq, hn, hdst⟩ := htracks.go hrank hturn
  obtain ⟨n', d', hpq', hn', hdst'⟩ := htracks'.go hrank hturn'
  rw [← hstep] at hn'
  exact ⟨u, hturn, ⟨_, n, d, n', d', hn, hn',
    halong.advance hQ htracks.queued htracks'.queued hpq hpq'⟩, hdst.trans h.target,
    hdst'.trans h.target'⟩

theorem Both.stop (h : Both Q rank files e dst s s') (hturn' : turn Q s' = .inr t') :
    ∃ t, turn Q s = .inr t ∧ ∃ L f, Wrote rank files e L f (t.fs.files dst) (t'.fs.files dst) := by
  obtain ⟨L, m, c, m', c', htracks, htracks', halong⟩ := h.tracks
  obtain ⟨hv, -⟩ := halong.top htracks.queued htracks'.queued
  obtain ⟨hv', hc', hout'⟩ := htracks'.stop hturn'
  obtain rfl := halong.nil_iff.mpr hc'
  cases hturn : turn Q s with
  | inl u =>
    have hgoes := (turn_goes_iff htracks.pq).mp ⟨u, hturn⟩
    simp [hv, hv'] at hgoes
  | inr t =>
    obtain ⟨hdone, -, hout⟩ := htracks.stop hturn
    rw [h.target] at hout
    rw [h.target'] at hout'
    exact ⟨t, rfl, L, m.addr, htracks.queued.course hdone, hout, hout'⟩

/-- Both merges of files that all have a whole record end behind the same steps. The merge of the
whole records is in order. -/
theorem TailedSources.runs (hQ : Q.LooksAt MergerInput.look) (hrank : Ranked Q rank)
    (h : TailedSources fs srcFiles files dst) (hne : ∀ src ∈ files, src.records ≠ [])
    (keeps : Bool) (progressed : Option (List (BitVec 64))) :
    ∃ d d' r r' calls calls' e L f, MergeOperation.create Q fs srcFiles dst keeps = some d ∧
      MergeOperation.create Q (cutOff fs srcFiles) (withRecords fs srcFiles) dst keeps = some d' ∧
      Yields (fun fuel => execute Q fuel d fs progressed) (.ok (r, calls)) ∧
      Yields (fun fuel => execute Q fuel d' (cutOff fs srcFiles) progressed) (.ok (r', calls')) ∧
      Wrote rank files e L f (r.files dst) (r'.files dst) ∧
      Ordered (e :: L.map (Step.entry (files.map TailedFile.whole))) ∧
      ∀ k, k ∈ keys (e :: L.map (Step.entry (files.map TailedFile.whole))) ↔ Stored files k := by
  obtain ⟨sources, hsources, hstored⟩ := h.sources
  rw [h.withRecords_eq hne] at hsources ⊢
  obtain ⟨d', r', calls', out, hcreate', hy', hmerged⟩ := hsources.merges (Q := Q) keeps progressed
  obtain ⟨d, s, m, c, sum, hopen, hcreate, hstart, hdst, htracks⟩ :=
    h.starts (Q := Q) rank keeps progressed
  obtain ⟨d'', s', m', c', sum', hopen', hcreate'', hstart', hdst', htracks'⟩ :=
    h.whole.starts (Q := Q) rank keeps progressed
  obtain rfl : d'' = d' := Option.some.inj (hcreate''.symm.trans hcreate')
  have hlook := openAll_alike hQ hne h.contents h.whole.contents 0 rfl hopen hopen'
  rw [List.map_cons, List.map_cons, List.cons.injEq] at hlook
  have halong : Alongside m c m' c' := ⟨(Prod.mk.inj hlook.1).2, hlook.2⟩
  have hentry : m.phc.record = m'.phc.record := by
    obtain ⟨-, hrecord⟩ := (htracks.queued.placed m (by simp)).alike
      (htracks'.queued.placed m' (by simp)) halong.addr
    obtain ⟨src, hsrc, hm⟩ := htracks.queued.placed m (by simp)
    refine hrecord ?_
    by_contra hv
    exact hne src (List.mem_of_getElem? hsrc) (hm.done (by simpa using hv)).1
  rw [← hentry] at htracks'
  -- the loop of the whole records ends, and the other one follows it
  obtain ⟨t', hloop', rfl⟩ := loop_of_execute hstart' hy'
  obtain ⟨t, hloop, L, f, hwrote⟩ := loop_simulates (turn Q) (turn Q)
    (Both Q rank files m.phc.record dst)
    (fun t t' => ∃ L f, Wrote rank files m.phc.record L f (t.fs.files dst) (t'.fs.files dst))
    (fun _ _ _ hboth hturn' => hboth.go hQ hrank hturn')
    (fun _ _ _ hboth hturn' => hboth.stop hturn')
    ⟨⟨[], m, c, m', c', htracks, htracks', halong⟩, hdst, hdst'⟩ hloop'
  refine ⟨d, d'', t.fs, t'.fs, (finish t).2, calls', m.phc.record, L, f, hcreate, hcreate', ?_, hy',
    hwrote, ?_⟩
  · simp only [execute, hstart]
    exact hloop.map fun s => Except.ok (finish s)
  · have hout := encodeAll_injective
      (Option.some.inj (hmerged.written.symm.trans hwrote.out'))
    refine ⟨?_, fun k => ?_⟩
    · rw [← squash_increasing_iff, ← hout]
      exact hmerged.increasing
    · rw [← mem_keys_squash, ← hout, ← hmerged.hashes]
      exact hstored k

end Sources

end merger
