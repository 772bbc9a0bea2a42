-- What a whole merge makes of its source files, from the opening of the inputs to
-- the end of the loop.
import Pwned.MergeRun

open pwned

namespace merger

/-! ## The source files -/

/-- The records of a source file. -/
structure SourceFile where
  records : List Record
  nonempty : records ≠ []
  increasing : StrictlyIncreasing records

namespace SourceFile

def first (src : SourceFile) : Record := src.records.head src.nonempty

def last (src : SourceFile) : Record := src.records.getLast src.nonempty

end SourceFile

variable {Path : Type}

/-- A merge of the files at `srcFiles`, which hold the records of `files`, into `dst`. -/
structure Sources (fs : FileSystem Path) (srcFiles : List Path) (files : List SourceFile)
    (dst : Path) : Prop where
  contents : List.Forall₂ (fun path src => fs.files path = some (encodeAll src.records))
    srcFiles files
  nonempty : files ≠ []
  apart : dst ∉ srcFiles
  writable : fs.writable dst = true

/-- An input that has been opened on the source file with number `i`. -/
structure Opened (srcFiles : List Path) (m : MergerInput Path) (src : SourceFile × Nat) : Prop where
  addr : m.addr = src.2
  path : m.path ∈ srcFiles
  valid : m.isValid = true
  sound : m.Sound
  pending : m.pending = src.1.records
  phc : m.phc = src.1.first.phc

theorem opened_openInput {srcFiles : List Path} {path : Path} (hpath : path ∈ srcFiles)
    (src : SourceFile) (addr : Nat) :
    Opened srcFiles (MergerInput.openInput addr path (encodeAll src.records)) (src, addr) := by
  obtain ⟨records, hne, hinc⟩ := src
  obtain ⟨r, rs, rfl⟩ := List.exists_cons_of_ne_nil hne
  obtain ⟨g, hread, hg, -⟩ := PasswordHashAndCount.read_of_gives {} rfl (gives_open (r :: rs))
  have hopen : MergerInput.openInput addr path (encodeAll (r :: rs)) =
      { addr, path, phc := r.phc, isValid := true, f := g } := by
    simp only [MergerInput.openInput, MergerInput.read, hread]
  rw [hopen]
  have hpending : ({ addr, path, phc := r.phc, isValid := true, f := g } :
      MergerInput Path).pending = r :: rs := MergerInput.pending_of_gives rfl hg
  exact ⟨rfl, hpath, rfl, ⟨rfl, fun _ => ⟨rs, hg⟩, hpending ▸ hinc⟩, hpending, rfl⟩

theorem map_eq_of_forall₂ {α β γ : Type*} {R : α → β → Prop} {f : α → γ} {g : β → γ}
    (hfg : ∀ a b, R a b → f a = g b) {as : List α} {bs : List β} (h : List.Forall₂ R as bs) :
    as.map f = bs.map g := by
  induction h with
  | nil => rfl
  | cons hab _ ih => rw [List.map_cons, List.map_cons, hfg _ _ hab, ih]

theorem exists_of_forall₂ {α β : Type*} {R : α → β → Prop} {as : List α} {bs : List β}
    (h : List.Forall₂ R as bs) {a : α} (ha : a ∈ as) : ∃ b ∈ bs, R a b := by
  induction h with
  | nil => cases ha
  | cons hab _ ih =>
    rcases List.mem_cons.mp ha with rfl | ha
    · exact ⟨_, by simp, hab⟩
    · obtain ⟨b, hb, hr⟩ := ih ha
      exact ⟨b, by simp [hb], hr⟩

variable {Q : PriorityQueue (@MergerInput.key Path)}

/-- All source files are opened, and the queue is a heap of the inputs. -/
theorem openAll_opens {fs : FileSystem Path} {srcFiles all : List Path} {files : List SourceFile}
    (h : List.Forall₂ (fun path src => fs.files path = some (encodeAll src.records))
      srcFiles files) (hall : ∀ p ∈ srcFiles, p ∈ all) (addr : Nat) (pq : List (MergerInput Path))
    (sum : BitVec 64) (hheap : Q.IsHeap pq) :
    ∃ pq' sum' inputs, openAll Q fs srcFiles addr pq sum = some (pq', sum') ∧ Q.IsHeap pq' ∧
      pq'.Perm (inputs ++ pq) ∧ List.Forall₂ (Opened all) inputs (files.zipIdx addr) := by
  induction h generalizing addr pq sum with
  | nil => exact ⟨pq, sum, [], rfl, hheap, List.Perm.refl _, List.Forall₂.nil⟩
  | cons hfile h ih =>
    rename_i path src srcFiles files
    obtain ⟨pq', sum', inputs, hopen, hheap', hperm, hinputs⟩ :=
      ih (fun p hp => hall p (by simp [hp])) (addr + 1)
        (Q.push (MergerInput.openInput addr path (encodeAll src.records)) pq)
        (sum + BitVec.ofNat 64 (encodeAll src.records).length) (Q.isHeap_push _ _ hheap)
    refine ⟨pq', sum', MergerInput.openInput addr path (encodeAll src.records) :: inputs, ?_,
      hheap', ?_, List.Forall₂.cons (opened_openInput (hall path (by simp)) src addr) hinputs⟩
    · simp only [openAll, hfile, Option.bind_eq_bind, Option.bind_some, hopen]
    · exact hperm.trans ((List.Perm.append_left _ (Q.push_perm _ _)).trans List.perm_middle)

/-- The hash occurs in one of the files. -/
def InSources (files : List SourceFile) (k : Nat) : Prop := ∃ src ∈ files, k ∈ keys src.records

section Start

variable {fs : FileSystem Path} {srcFiles : List Path} {files : List SourceFile} {dst : Path}

theorem map_pending {inputs : List (MergerInput Path)}
    (h : List.Forall₂ (Opened srcFiles) inputs files.zipIdx) :
    inputs.map MergerInput.pending = files.map SourceFile.records := by
  have hzip : files.zipIdx.map (fun src => src.1.records) =
      (files.zipIdx.map Prod.fst).map SourceFile.records := by
    rw [List.map_map]
    rfl
  rw [map_eq_of_forall₂ (fun _ _ ho => ho.pending) h, hzip, List.zipIdx_map_fst]

theorem inSources_iff {inputs : List (MergerInput Path)}
    (h : List.Forall₂ (Opened srcFiles) inputs files.zipIdx) (k : Nat) :
    InSources files k ↔ ∃ n ∈ inputs, k ∈ keys n.pending := by
  have hex : ∀ {α : Type} (f : α → List Record) (l : List α),
      (∃ a ∈ l, k ∈ keys (f a)) ↔ ∃ rs ∈ l.map f, k ∈ keys rs := by
    intro α f l
    simp
  rw [InSources, hex SourceFile.records files, hex MergerInput.pending inputs, map_pending h]

/-- An operation on source files starts with a queue of live inputs, and the first entry of the
top is the running one. -/
theorem Sources.starts [DecidableEq Path] (h : Sources fs srcFiles files dst) (keeps : Bool)
    (progressed : Option (List (BitVec 64))) :
    ∃ d s m c inputs, MergeOperation.create Q fs srcFiles dst keeps = some d ∧
      start d fs progressed = .ok (some s) ∧ s.d.dstFilePath = dst ∧
      s.d.removeInputFilesAfterMerge = keeps ∧ s.current = m.phc ∧
      Inv Q fs (InSources files) s [] m c ∧ (m :: c).Perm inputs ∧
      List.Forall₂ (Opened srcFiles) inputs files.zipIdx := by
  obtain ⟨pq, sum, inputs, hopen, hheap, hperm, hinputs⟩ :=
    openAll_opens (Q := Q) h.contents (fun _ hp => hp) 0 [] 0 Q.isHeap_nil
  rw [List.append_nil] at hperm
  have hopened : ∀ n ∈ pq, ∃ src, Opened srcFiles n src := by
    intro n hn
    obtain ⟨src, -, ho⟩ := exists_of_forall₂ hinputs (hperm.mem_iff.mp hn)
    exact ⟨src, ho⟩
  have hne : pq ≠ [] := by
    intro hnil
    have hlen := hinputs.length_eq
    rw [← hperm.length_eq, hnil, List.length_zipIdx] at hlen
    exact h.nonempty (List.length_eq_zero_iff.mp hlen.symm)
  obtain ⟨m, c, rfl, hq, hv⟩ := queue_of_heap hne hheap
    (fun n hn => (hopened n hn).elim fun _ ho => ho.valid)
    (fun n hn => (hopened n hn).elim fun _ ho => ho.sound)
  let d : MergeOperation Path :=
    { pq := m :: c, dstFilePath := dst, removeInputFilesAfterMerge := keeps,
      totalEntries := sum / BitVec.ofNat 64 PasswordHashAndCount.size }
  let s : Merging Path := { d, fs := fs.create dst, current := m.phc, progressed }
  have hcreate : MergeOperation.create Q fs srcFiles dst keeps = some d := by
    simp only [MergeOperation.create, hopen]
    rfl
  have hstart : start d fs progressed = .ok (some s) := if_pos h.writable
  have hinv : Inv Q fs (InSources files) s [] m c := by
    refine ⟨⟨(hq.sound m (by simp)).flag, FileSystem.create_files fs dst,
      List.pairwise_singleton _ _⟩, rfl, hq, Or.inl hv, le_refl m.key, ?_, ⟨rfl, ?_⟩, ?_⟩
    · intro n hn hdst
      obtain ⟨src, ho⟩ := hopened n hn
      exact h.apart ((show n.path = dst from hdst) ▸ ho.path)
    · intro _ p hp
      exact FileSystem.create_files_of_ne fs dst hp
    · intro k
      rw [inSources_iff hinputs]
      simp only [← hperm.mem_iff]
      constructor
      · exact Or.inr
      · rintro (hk | hk)
        · refine ⟨m, by simp, ?_⟩
          have hmem := MergerInput.key_mem_pending hv
          simp only [List.nil_append, keys_cons, keys_nil, List.mem_singleton] at hk
          rw [hk]
          exact hmem
        · exact hk
  exact ⟨d, s, m, c, inputs, hcreate, hstart, rfl, rfl, rfl, hinv, hperm, hinputs⟩

/-- The merge ends, and the destination holds the hashes of the sources in order. What else every
turn keeps holds in the end of the input that is left. -/
theorem Sources.runs [DecidableEq Path] (h : Sources fs srcFiles files dst) (keeps : Bool)
    (progressed : Option (List (BitVec 64)))
    {J : List Record → MergerInput Path → List (MergerInput Path) → Prop}
    (go : ∀ {R R' m c m' c'}, Queue Q m c → J R m c → Moves m c (m' :: c') →
      (∀ k, tally R' k ≡ tally R k + tally [m.phc.record] k [MOD 2 ^ 32]) → J R' m' c')
    (hJ : ∀ {m c inputs}, Queue Q m c → (m :: c).Perm inputs →
      List.Forall₂ (Opened srcFiles) inputs files.zipIdx → J [m.phc.record] m c) :
    ∃ d fs' calls R m', MergeOperation.create Q fs srcFiles dst keeps = some d ∧
      Yields (fun fuel => execute Q fuel d fs progressed) (.ok (fs', calls)) ∧
      Merged fs (InSources files) dst keeps fs' R ∧ m'.isValid = false ∧
      (∀ k ∈ keys R, k ≤ m'.key) ∧ J R m' [] := by
  obtain ⟨d, s, m, c, inputs, hcreate, hstart, hdst, hkeeps, hcur, hinv, hperm, hinputs⟩ :=
    h.starts (Q := Q) keeps progressed
  have hJ₀ : J ([] ++ [s.current.record]) m c := by
    rw [hcur]
    exact hJ hinv.queue hperm hinputs
  obtain ⟨t, R, m', hy, hmerged, hv, hmax, hJ'⟩ := run_yields go hinv hJ₀
  rw [hdst, hkeeps] at hmerged
  refine ⟨d, t.fs, (finish t).2, R, m', hcreate, ?_, hmerged, hv, hmax, hJ'⟩
  simp only [execute, hstart]
  exact hy.map fun s => Except.ok (finish s)

theorem Sources.merges [DecidableEq Path] (h : Sources fs srcFiles files dst) (keeps : Bool)
    (progressed : Option (List (BitVec 64))) :
    ∃ d fs' calls out, MergeOperation.create Q fs srcFiles dst keeps = some d ∧
      Yields (fun fuel => execute Q fuel d fs progressed) (.ok (fs', calls)) ∧
      Merged fs (InSources files) dst keeps fs' out := by
  obtain ⟨d, fs', calls, out, -, hcreate, hy, hmerged, -⟩ :=
    h.runs (Q := Q) (J := fun _ _ _ => True) keeps progressed (fun _ _ _ _ => trivial)
      (fun _ _ _ => trivial)
  exact ⟨d, fs', calls, out, hcreate, hy, hmerged⟩

/-- A merge ends. It writes the hashes of its sources, each of them once and in order. -/
theorem a_merge_writes_the_union_in_order [DecidableEq Path]
    (Q : PriorityQueue (@MergerInput.key Path)) (h : Sources fs srcFiles files dst) (keeps : Bool)
    (progressed : Option (List (BitVec 64))) :
    ∃ d fs' calls out, MergeOperation.create Q fs srcFiles dst keeps = some d ∧
      Yields (fun fuel => execute Q fuel d fs progressed) (.ok (fs', calls)) ∧
      fs'.files dst = some (encodeAll out) ∧ StrictlyIncreasing out ∧
      ∀ k, k ∈ keys out ↔ ∃ src ∈ files, k ∈ keys src.records := by
  obtain ⟨d, fs', calls, out, hcreate, hy, hmerged⟩ := h.merges (Q := Q) keeps progressed
  exact ⟨d, fs', calls, out, hcreate, hy, hmerged.written, hmerged.increasing,
    fun k => (hmerged.hashes k).symm⟩

end Start

/-! ## An example of two files -/

/-- The queue that is sorted by hash. -/
def byHash : PriorityQueue (@MergerInput.key Nat) :=
  PriorityQueue.sorted MergerInput.key fun _ _ h => h

/-- Two files that share one hash. -/
def sharing : List SourceFile :=
  [⟨[⟨0, 5, 1⟩, ⟨0, 6, 2⟩], by decide, by decide⟩, ⟨[⟨0, 6, 3⟩], by decide, by decide⟩]

/-- The files of a list under the numbers of their places, on a machine that lets everything be
written. -/
def disk (files : List SourceFile) : FileSystem Nat where
  files p := (files[p]?).map fun src => encodeAll src.records
  writable _ := true

theorem sources_disk {files : List SourceFile} (h : files ≠ []) :
    Sources (disk files) (List.range files.length) files files.length := by
  refine ⟨?_, h, by simp, rfl⟩
  rw [List.forall₂_iff_get]
  refine ⟨by simp, fun i h₁ h₂ => ?_⟩
  simp only [List.get_eq_getElem, List.getElem_range, disk]
  rw [List.getElem?_eq_getElem h₂, Option.map_some]

theorem a_merge_writes_the_union_in_order_sharing :
    ∃ d fs' calls out, MergeOperation.create byHash (disk sharing) [0, 1] 2 false = some d ∧
      Yields (fun fuel => execute byHash fuel d (disk sharing) none) (.ok (fs', calls)) ∧
      fs'.files 2 = some (encodeAll out) ∧ StrictlyIncreasing out ∧
      ∀ k, k ∈ keys out ↔ ∃ src ∈ sharing, k ∈ keys src.records :=
  a_merge_writes_the_union_in_order byHash (sources_disk (by decide)) false none

end merger
