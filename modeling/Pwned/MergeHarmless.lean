-- When incomplete records change nothing in a merge: what the exhausted inputs
-- still hold has to be in order, under hashes that are stored, with the counts of
-- the last records.
import Pwned.MergeTails

open pwned

namespace merger

variable {Path : Type}

/-! ## The entries of the steps -/

section Entries

variable {rank : Nat → Nat → Nat} {files : List TailedFile} {L : List Step} {f : Nat}
  {e : Record}

/-- What the files with the given numbers leave. -/
def leftBy (left : TailedFile → Record) (files : List TailedFile) (a : Nat) : Record :=
  ((files[a]?).map left).getD ⟨0, 0, 0⟩

theorem leftBy_of_some {left : TailedFile → Record} {a : Nat} {src : TailedFile}
    (h : files[a]? = some src) : leftBy left files a = left src := by
  rw [leftBy, h]
  rfl

theorem entry_again (a : Nat) :
    Step.entry files (.again a) = leftBy TailedFile.cut files a := rfl

theorem entry_again_whole (a : Nat) :
    Step.entry (files.map TailedFile.whole) (.again a) = leftBy TailedFile.last files a := by
  have hcut : TailedFile.cut ∘ TailedFile.whole = TailedFile.last :=
    funext fun src => src.cut_whole
  rw [Step.entry, leftBy, List.getElem?_map, Option.map_map, hcut]

theorem entry_whole (a : Nat) (r : Record) : Step.entry files (.whole a r) = r := rfl

/-- The whole records among the steps. -/
def wholes (L : List Step) : List Record :=
  L.filterMap fun
    | .whole _ r => some r
    | .again _ => none

theorem tally_entries (files : List TailedFile) (L : List Step) (k : Nat) :
    tally (L.map (Step.entry files)) k =
      tally (wholes L) k + tally ((agains L).map (Step.entry files ∘ .again)) k := by
  induction L with
  | nil => rfl
  | cons x L ih =>
    rw [List.map_cons, tally_cons, ih]
    cases x with
    | whole a r =>
      have hw : wholes (.whole a r :: L) = r :: wholes L := rfl
      have ha : agains (.whole a r :: L) = agains L := rfl
      rw [hw, ha, tally_cons, entry_whole]
      omega
    | again a =>
      have hw : wholes (.again a :: L) = wholes L := rfl
      have ha : agains (.again a :: L) = a :: agains L := rfl
      rw [hw, ha, List.map_cons, tally_cons, Function.comp_apply]
      omega

/-- The exhausted inputs that were taken off are those of all files but the last one. -/
theorem Course.tally_agains (h : Course rank files L f) (left : TailedFile → Record) (k : Nat) :
    tally ((agains L).map (leftBy left files)) k = tally ((files.eraseIdx f).map left) k := by
  have hf : f < files.length := List.mem_range.mp (h.files_perm.mem_iff.mp (by simp))
  have hrange : (List.range files.length).map (leftBy left files) = files.map left := by
    apply List.ext_getElem
    · simp
    · intro i h₁ h₂
      rw [List.length_map] at h₂
      simp [leftBy, h₂]
  have hall := tally_perm (h.files_perm.map (leftBy left files)) k
  have herase := tally_perm ((List.getElem_cons_eraseIdx_perm hf).map left) k
  rw [hrange, List.map_append, tally_append, List.map_singleton,
    leftBy_of_some (List.getElem?_eq_getElem hf)] at hall
  rw [List.map_cons, tally_cons] at herase
  rw [tally_cons, tally_nil] at hall
  omega

theorem Course.tally_iff (h : Course rank files L f) (k : Nat) :
    tally (e :: L.map (Step.entry files)) k ≡
      tally (e :: L.map (Step.entry (files.map TailedFile.whole))) k [MOD 2 ^ 32] ↔
    tally ((files.eraseIdx f).map TailedFile.cut) k ≡
      tally ((files.eraseIdx f).map TailedFile.last) k [MOD 2 ^ 32] := by
  have hcut := h.tally_agains TailedFile.cut k
  have hlast := h.tally_agains TailedFile.last k
  have hcomp : Step.entry files ∘ .again = leftBy TailedFile.cut files := rfl
  have hcomp' : Step.entry (files.map TailedFile.whole) ∘ .again =
      leftBy TailedFile.last files := funext entry_again_whole
  rw [tally_cons, tally_cons, tally_entries, tally_entries, hcomp, hcomp', hcut, hlast,
    ← Nat.add_assoc, ← Nat.add_assoc]
  exact Nat.ModEq.add_iff_left rfl

theorem ordered_entries (g : Step → Record) :
    Ordered (e :: L.map g) ↔
      (∀ x ∈ L, e.key ≤ (g x).key) ∧ L.Pairwise fun x y => (g x).key ≤ (g y).key := by
  unfold Ordered keys
  rw [List.map_cons, List.pairwise_cons, List.map_map, List.pairwise_map]
  simp

/-! ## Harmless files -/

/-- The hash `k'` is the next one in the files above `k`. -/
structure NextAbove (files : List TailedFile) (k k' : Nat) : Prop where
  stored : Stored files k'
  lt : k < k'
  least : ∀ l, Stored files l → k < l → k' ≤ l

/-- What the exhausted input of the file `i` still holds comes in order, and its hash is in the
output anyway: it is the last hash of the file, or else the next one if no other file has the
last hash. -/
def InPlace (files : List TailedFile) (i : Fin files.length) : Prop :=
  files[i].cut.key = files[i].last.key ∨
    (∀ j : Fin files.length, j ≠ i → files[i].last.key ∉ keys files[j].records) ∧
      NextAbove files files[i].last.key files[i].cut.key

/-- Whichever of the files with the greatest last hash is the last one in the queue: what the
others still hold is in place and brings the counts of their last records. -/
def Harmless (files : List TailedFile) : Prop :=
  ∀ f : Fin files.length, (∀ src ∈ files, src.last.key ≤ files[f].last.key) →
    (∀ i : Fin files.length, i ≠ f → InPlace files i) ∧
      ∀ k, tally ((files.eraseIdx f).map TailedFile.cut) k ≡
        tally ((files.eraseIdx f).map TailedFile.last) k [MOD 2 ^ 32]

theorem InPlace.le {i : Fin files.length} (h : InPlace files i) :
    files[i].last.key ≤ files[i].cut.key := by
  rcases h with h | ⟨-, h⟩
  · exact h.ge
  · exact h.lt.le

theorem Stored.of_mem {i : Fin files.length} {r : Record} (h : r ∈ files[i].records) :
    Stored files r.key := ⟨files[i], List.getElem_mem i.isLt, mem_keys.mpr ⟨r, h, rfl⟩⟩

/-- What is left in place comes before every other stored hash that is not below it. -/
theorem InPlace.le_of_le {i j : Fin files.length} (h : InPlace files i) (hne : j ≠ i) {r : Record}
    (hr : r ∈ files[j].records) (hle : files[i].last.key ≤ r.key) : files[i].cut.key ≤ r.key := by
  rcases h with h | ⟨hother, h⟩
  · rw [h]
    exact hle
  · have hkey : files[i].last.key ≠ r.key := by
      intro he
      exact hother j hne (mem_keys.mpr ⟨r, hr, he.symm⟩)
    exact h.least r.key (Stored.of_mem hr) (lt_of_le_of_ne hle hkey)

namespace Course

theorem again_lt (h : Course rank files L f) {a : Nat} (ha : .again a ∈ L) : a < files.length :=
  List.mem_range.mp (h.files_perm.mem_iff.mp (by simp [mem_agains.mpr ha]))

theorem last_lt (h : Course rank files L f) : f < files.length :=
  List.mem_range.mp (h.files_perm.mem_iff.mp (by simp))

/-- The last file in the queue is not taken off. -/
theorem again_ne (h : Course rank files L f) {a : Nat} (ha : .again a ∈ L) : a ≠ f := by
  have hnodup := h.files_perm.nodup_iff.mpr List.nodup_range
  rintro rfl
  exact (List.nodup_append.mp hnodup).2.2 _ (mem_agains.mpr ha) _ (by simp) rfl

theorem again_mem (h : Course rank files L f) {a : Nat} (ha : a < files.length) (hne : a ≠ f) :
    .again a ∈ L := by
  have hmem := h.files_perm.mem_iff.mpr (List.mem_range.mpr ha)
  rw [List.mem_append, List.mem_singleton] at hmem
  exact mem_agains.mp (hmem.resolve_right hne)

theorem whole_iff (h : Course rank files L f) {i : Fin files.length} {r : Record} :
    .whole i r ∈ L ↔ r ∈ files[i].records := by
  rw [← mem_taken, h.taken_eq i files[i] (List.getElem?_eq_getElem i.isLt)]

theorem stored_iff (h : Course rank files L f) {k : Nat} :
    Stored files k ↔ ∃ a r, .whole a r ∈ L ∧ r.key = k := by
  constructor
  · rintro ⟨src, hsrc, hk⟩
    obtain ⟨r, hr, rfl⟩ := mem_keys.mp hk
    obtain ⟨i, hi, rfl⟩ := List.getElem_of_mem hsrc
    exact ⟨i, r, (h.whole_iff (i := ⟨i, hi⟩)).mpr hr, rfl⟩
  · rintro ⟨a, r, hr, rfl⟩
    have hlt := h.known a r hr
    exact Stored.of_mem ((h.whole_iff (i := ⟨a, hlt⟩)).mp hr)

theorem left_eq (h : Course rank files L f) {a : Nat} (ha : .again a ∈ L)
    (left : TailedFile → Record) :
    leftBy left files a = left (files[(⟨a, h.again_lt ha⟩ : Fin files.length)]) :=
  leftBy_of_some (List.getElem?_eq_getElem (h.again_lt ha))

/-- What is in place keeps the entries in order. -/
theorem ordered (h : Course rank files L f) (hne : ∀ src ∈ files, src.records ≠ [])
    (hplace : ∀ i : Fin files.length, i ≠ f → InPlace files i)
    (hord : Ordered (e :: L.map (Step.entry (files.map TailedFile.whole)))) :
    Ordered (e :: L.map (Step.entry files)) := by
  have hagain : ∀ {a} (ha : .again a ∈ L), InPlace files ⟨a, h.again_lt ha⟩ := fun ha =>
    hplace ⟨_, h.again_lt ha⟩ (h.again_ne ha)
  have hle : ∀ x ∈ L, (Step.entry (files.map TailedFile.whole) x).key ≤
      (Step.entry files x).key := by
    intro x hx
    cases x with
    | whole a r => exact le_rfl
    | again a =>
      rw [entry_again_whole, entry_again, h.left_eq hx, h.left_eq hx]
      exact (hagain hx).le
  obtain ⟨he, hpair⟩ := (ordered_entries _).mp hord
  refine (ordered_entries _).mpr ⟨fun x hx => (he x hx).trans (hle x hx), ?_⟩
  refine (hpair.and h.behind).imp_of_mem ?_
  rintro x y hx hy ⟨hxy, hbehind⟩
  cases x with
  | whole a r => exact hxy.trans (hle y hy)
  | again a =>
    rw [entry_again_whole, h.left_eq hx] at hxy
    rw [entry_again, h.left_eq hx]
    cases y with
    | whole b r =>
      have hb := h.known b r hy
      have hab := hbehind a b r rfl rfl
      exact (hagain hx).le_of_le (j := ⟨b, hb⟩) (fun he => hab (congrArg Fin.val he).symm)
        ((h.whole_iff (i := ⟨b, hb⟩)).mp hy) hxy
    | again b =>
      rw [entry_again_whole, h.left_eq hy] at hxy
      rw [entry_again, h.left_eq hy]
      by_cases hab : b = a
      · subst hab
        exact le_rfl
      · have hlast := TailedFile.last_mem (hne _ (List.getElem_mem (h.again_lt hy)))
        exact ((hagain hx).le_of_le (j := ⟨b, h.again_lt hy⟩)
          (fun he => hab (congrArg Fin.val he)) hlast hxy).trans (hagain hy).le

/-- What is in place brings no new hashes. -/
theorem keys_iff (h : Course rank files L f)
    (hplace : ∀ i : Fin files.length, i ≠ f → InPlace files i)
    (hstored : ∀ k, k ∈ keys (e :: L.map (Step.entry (files.map TailedFile.whole))) ↔
      Stored files k) (k : Nat) :
    k ∈ keys (e :: L.map (Step.entry files)) ↔ Stored files k := by
  have hmem : ∀ g : Step → Record, k ∈ keys (e :: L.map g) ↔
      k = e.key ∨ ∃ x ∈ L, (g x).key = k := by
    intro g
    simp [keys]
  rw [hmem]
  constructor
  · rintro (hk | ⟨x, hx, rfl⟩)
    · exact (hstored k).mp ((hmem _).mpr (Or.inl hk))
    · cases x with
      | whole a r => exact h.stored_iff.mpr ⟨a, r, hx, rfl⟩
      | again a =>
        rw [entry_again, h.left_eq hx]
        rcases hplace ⟨a, h.again_lt hx⟩ (h.again_ne hx) with hkey | ⟨-, hnext⟩
        · rw [hkey]
          refine (hstored _).mp (mem_keys.mpr ⟨_, ?_, rfl⟩)
          refine List.mem_cons_of_mem _ (List.mem_map.mpr ⟨_, hx, ?_⟩)
          rw [entry_again_whole, h.left_eq hx]
        · exact hnext.stored
  · intro hk
    obtain ⟨a, r, hr, rfl⟩ := h.stored_iff.mp hk
    exact Or.inr ⟨_, hr, rfl⟩

end Course

/-! ## A queue for every file with the last hash of another -/

/-- The rank of a hash where the file `j` comes behind all others that are at the hash `k`. -/
def lateRank (k j k' a : Nat) : Nat := 2 * k' + if k' = k ∧ a = j then 1 else 0

theorem le_of_lateRank_le {k j k₁ k₂ a₁ a₂ : Nat}
    (h : lateRank k j k₁ a₁ ≤ lateRank k j k₂ a₂) : k₁ ≤ k₂ := by
  unfold lateRank at h
  split at h <;> split at h <;> omega

theorem not_lateRank_le {k j k' a : Nat} (h : a ≠ j) (hle : k' ≤ k) :
    ¬ lateRank k j k j ≤ lateRank k j k' a := by
  simp only [lateRank, h, and_self, and_false, if_true, if_false]
  omega

/-- The queue that is sorted by this rank. -/
def late (k j : Nat) : PriorityQueue (@MergerInput.key Path) :=
  PriorityQueue.sorted (fun m => lateRank k j m.key m.addr) fun _ _ => le_of_lateRank_le

theorem late_looksAt (k j : Nat) :
    (late k j : PriorityQueue (@MergerInput.key Path)).LooksAt MergerInput.look := by
  refine PriorityQueue.sorted_looksAt _ fun m n hlook => ?_
  obtain ⟨hkey, haddr⟩ := Prod.mk.inj hlook
  rw [hkey, haddr]

theorem late_ranked (k j : Nat) :
    Ranked (late k j : PriorityQueue (@MergerInput.key Path)) (lateRank k j) where
  top_le _ _ h := PriorityQueue.sorted_top_le h
  of_lt := by
    intro k₁ k₂ a hlt
    unfold lateRank
    split <;> split <;> omega
  key_le := le_of_lateRank_le

/-- Two elements of a list stand in one order or the other. -/
theorem rel_or_rel {α : Type*} {R : α → α → Prop} {l : List α} (h : l.Pairwise R) {x y : α}
    (hx : x ∈ l) (hy : y ∈ l) (hne : x ≠ y) : R x y ∨ R y x := by
  have hsymm : Std.Symm fun a b => R a b ∨ R b a := ⟨fun _ _ => Or.symm⟩
  exact (h.imp (S := fun a b => R a b ∨ R b a) Or.inl).forall hx hy hne

namespace Course

variable {i j : Fin files.length}

/-- An exhausted input was at its last record before it is taken off. -/
theorem last_le_cut (h : Course rank files L f) (hne : ∀ src ∈ files, src.records ≠ [])
    (hord : Ordered (e :: L.map (Step.entry files))) (hi : .again i ∈ L) :
    files[i].last.key ≤ files[i].cut.key := by
  have hlast : .whole i files[i].last ∈ L :=
    h.whole_iff.mpr (TailedFile.last_mem (hne _ (List.getElem_mem i.isLt)))
  have hpair := ((ordered_entries _).mp hord).2.and h.behind
  rcases rel_or_rel hpair hi hlast (by simp) with ⟨-, hbehind⟩ | ⟨hle, -⟩
  · exact absurd rfl (hbehind i i _ rfl rfl)
  · rw [entry_again, h.left_eq hi] at hle
    exact hle

/-- What an exhausted input left comes before every record with a higher rank than its own last
one. -/
theorem cut_le (h : Course rank files L f) (hne : ∀ src ∈ files, src.records ≠ [])
    (hord : Ordered (e :: L.map (Step.entry files))) (hi : .again i ∈ L) {r : Record}
    (hr : .whole j r ∈ L) (hrank : ¬ rank r.key j ≤ rank files[i].last.key i) :
    files[i].cut.key ≤ r.key := by
  have hpair := ((ordered_entries _).mp hord).2.and h.below
  rcases rel_or_rel hpair hi hr (by simp) with ⟨hle, -⟩ | ⟨-, hbelow⟩
  · rw [entry_again, h.left_eq hi] at hle
    exact hle
  · have hle := hbelow j r i files[i] rfl rfl (List.getElem?_eq_getElem i.isLt)
    have hheld : files[i].held = files[i].last :=
      TailedFile.held_of_ne (hne _ (List.getElem_mem i.isLt))
    rw [hheld] at hle
    exact absurd hle hrank

/-- A record with a higher rank than the last one of a file stands in a file that is exhausted
later. -/
theorem again_of_rank (h : Course rank files L f) (hne : ∀ src ∈ files, src.records ≠ [])
    {r : Record} (hr : .whole j r ∈ L) (hrank : ¬ rank r.key j ≤ rank files[i].last.key i) :
    .again i ∈ L := by
  refine h.again_mem i.isLt ?_
  rintro rfl
  have hle := h.le_last j r files[i] hr (List.getElem?_eq_getElem i.isLt)
  have hheld : files[i].held = files[i].last :=
    TailedFile.held_of_ne (hne _ (List.getElem_mem i.isLt))
  rw [hheld] at hle
  exact hrank hle

/-- If another file has the last hash and comes behind, the hash has to stay. -/
theorem cut_eq_of_shared (h : Course (lateRank files[i].last.key j) files L f)
    (hne : ∀ src ∈ files, src.records ≠ []) (hord : Ordered (e :: L.map (Step.entry files)))
    (hji : j ≠ i) (hk : files[i].last.key ∈ keys files[j].records) :
    files[i].cut.key = files[i].last.key := by
  obtain ⟨r, hr, hkey⟩ := mem_keys.mp hk
  have hmem : .whole j r ∈ L := h.whole_iff.mpr hr
  have hrank : ¬ lateRank files[i].last.key j r.key j ≤
      lateRank files[i].last.key j files[i].last.key i := by
    rw [hkey]
    exact not_lateRank_le (fun hij => hji (Fin.ext hij.symm)) le_rfl
  have hagain := h.again_of_rank hne hmem hrank
  have hle := h.cut_le hne hord hagain hmem hrank
  rw [hkey] at hle
  exact le_antisymm hle (h.last_le_cut hne hord hagain)

/-- If no other file has the last hash, the hash has to stay or to become the next one. -/
theorem inPlace_of_alone (h : Course rank files L f)
    (hkey : ∀ {k k' a a'}, rank k a ≤ rank k' a' → k ≤ k')
    (hne : ∀ src ∈ files, src.records ≠ []) (hord : Ordered (e :: L.map (Step.entry files)))
    (halone : ∀ j : Fin files.length, j ≠ i → files[i].last.key ∉ keys files[j].records)
    (hagain : .again i ∈ L) (hstored : Stored files files[i].cut.key) : InPlace files i := by
  by_cases heq : files[i].cut.key = files[i].last.key
  · exact Or.inl heq
  · refine Or.inr ⟨halone, hstored, ?_, fun l hl hlt => ?_⟩
    · exact lt_of_le_of_ne (h.last_le_cut hne hord hagain) (Ne.symm heq)
    · obtain ⟨a, r, hr, rfl⟩ := h.stored_iff.mp hl
      exact h.cut_le (j := ⟨a, h.known a r hr⟩) hne hord hagain hr fun hle =>
        (hkey hle).not_gt hlt

end Course

end Entries

/-! ## The law -/

section Law

variable [DecidableEq Path] {files : List TailedFile} {fs : FileSystem Path}
  {srcFiles : List Path} {dst : Path}

/-- What makes the merge write the same: the entries that it takes are in order, with the same
hashes and counts. -/
theorem TailedSources.sameOutput_iff {Q : PriorityQueue (@MergerInput.key Path)}
    {rank : Nat → Nat → Nat} (hQ : Q.LooksAt MergerInput.look) (hrank : Ranked Q rank)
    (h : TailedSources fs srcFiles files dst) (hne : ∀ src ∈ files, src.records ≠ [])
    (keeps : Bool) (progressed : Option (List (BitVec 64))) :
    ∃ e L f, Course rank files L f ∧
      Ordered (e :: L.map (Step.entry (files.map TailedFile.whole))) ∧
      (∀ k, k ∈ keys (e :: L.map (Step.entry (files.map TailedFile.whole))) ↔ Stored files k) ∧
      (SameOutput Q fs srcFiles dst keeps progressed ↔
        Ordered (e :: L.map (Step.entry files)) ∧
        (∀ k, k ∈ keys (e :: L.map (Step.entry files)) ↔ Stored files k) ∧
        ∀ k, tally ((files.eraseIdx f).map TailedFile.cut) k ≡
          tally ((files.eraseIdx f).map TailedFile.last) k [MOD 2 ^ 32]) := by
  obtain ⟨d, d', r, r', calls, calls', e, L, f, hcreate, hcreate', hy, hy', hwrote, hord, hkeys⟩ :=
    h.runs hQ hrank hne keeps progressed
  refine ⟨e, L, f, hwrote.course, hord, hkeys, ?_⟩
  have hsquash := squash_eq_iff (L.map (Step.entry files)) hord
  simp only [hkeys, hwrote.course.tally_iff] at hsquash
  rw [← hsquash]
  constructor
  · rintro ⟨d₁, d₁', r₁, r₁', calls₁, calls₁', hcreate₁, hcreate₁', hy₁, hy₁', hsame⟩
    obtain rfl := Option.some.inj (hcreate₁.symm.trans hcreate)
    obtain rfl := Option.some.inj (hcreate₁'.symm.trans hcreate')
    have hr := (Prod.mk.inj (Except.ok.inj (hy₁.unique hy))).1
    have hr' := (Prod.mk.inj (Except.ok.inj (hy₁'.unique hy'))).1
    rw [hr, hr', hwrote.out, hwrote.out'] at hsame
    exact encodeAll_injective (Option.some.inj hsame)
  · intro hsame
    refine ⟨d, d', r, r', calls, calls', hcreate, hcreate', hy, hy', ?_⟩
    rw [hwrote.out, hwrote.out', hsame]

variable {keeps : Bool} {progressed : Option (List (BitVec 64))}

/-- The file that the queue keeps to the end has the greatest last hash. -/
theorem Course.greatest {rank : Nat → Nat → Nat} {L : List Step} {f : Nat}
    (h : Course rank files L f) (hkey : ∀ {k k' a a'}, rank k a ≤ rank k' a' → k ≤ k')
    (hne : ∀ src ∈ files, src.records ≠ []) :
    ∀ src ∈ files, src.last.key ≤ files[(⟨f, h.last_lt⟩ : Fin files.length)].last.key := by
  intro src hsrc
  obtain ⟨i, hi, rfl⟩ := List.getElem_of_mem hsrc
  have hmem : .whole i files[i].last ∈ L :=
    (h.whole_iff (i := ⟨i, hi⟩)).mpr (TailedFile.last_mem (hne _ hsrc))
  have hle := h.le_last i _ _ hmem (List.getElem?_eq_getElem h.last_lt)
  rw [TailedFile.held_of_ne (hne _ (List.getElem_mem h.last_lt))] at hle
  exact hkey hle

/-- Harmless files make the same output, however the queue breaks its ties. -/
theorem TailedSources.same_of_harmless (h : TailedSources fs srcFiles files dst)
    (hne : ∀ src ∈ files, src.records ≠ []) (hfiles : Harmless files)
    {Q : PriorityQueue (@MergerInput.key Path)} (hQ : Q.LooksAt MergerInput.look) :
    SameOutput Q fs srcFiles dst keeps progressed := by
  obtain ⟨e, L, f, hcourse, hord, hkeys, hiff⟩ :=
    h.sameOutput_iff hQ (ranked_key Q) hne keeps progressed
  obtain ⟨hplace, htally⟩ := hfiles ⟨f, hcourse.last_lt⟩ (hcourse.greatest id hne)
  have hplace' : ∀ i : Fin files.length, i ≠ f → InPlace files i := fun i hi =>
    hplace i fun he => hi (congrArg Fin.val he)
  exact hiff.mpr ⟨hcourse.ordered hne hplace' hord, hcourse.keys_iff hplace' hkeys, htally⟩

/-- A queue that keeps the file `f` to the end shows the counts of all others. -/
theorem TailedSources.tallies_of_same (h : TailedSources fs srcFiles files dst)
    (hne : ∀ src ∈ files, src.records ≠ [])
    (hall : ∀ Q : PriorityQueue (@MergerInput.key Path), Q.LooksAt MergerInput.look →
      SameOutput Q fs srcFiles dst keeps progressed) {f : Fin files.length}
    (hgreatest : ∀ src ∈ files, src.last.key ≤ files[f].last.key) (k : Nat) :
    tally ((files.eraseIdx f).map TailedFile.cut) k ≡
      tally ((files.eraseIdx f).map TailedFile.last) k [MOD 2 ^ 32] := by
  have hQ := @late_looksAt Path files[f].last.key f
  obtain ⟨e, L, f', hcourse, -, -, hiff⟩ :=
    h.sameOutput_iff hQ (late_ranked _ _) hne keeps progressed
  obtain rfl : f' = f := by
    by_contra hff
    have hmem : .whole f files[f].last ∈ L :=
      hcourse.whole_iff.mpr (TailedFile.last_mem (hne _ (List.getElem_mem f.isLt)))
    have hrank := not_lateRank_le (j := f) hff
      (hgreatest _ (List.getElem_mem hcourse.last_lt))
    exact hcourse.again_ne (hcourse.again_of_rank (i := ⟨f', hcourse.last_lt⟩) hne hmem hrank) rfl
  exact (hiff.mp (hall _ hQ)).2.2 k

/-- Where every queue makes the same output, what is left is in place. -/
theorem TailedSources.inPlace_of_same (h : TailedSources fs srcFiles files dst)
    (hne : ∀ src ∈ files, src.records ≠ [])
    (hall : ∀ Q : PriorityQueue (@MergerInput.key Path), Q.LooksAt MergerInput.look →
      SameOutput Q fs srcFiles dst keeps progressed) {f i : Fin files.length}
    (hgreatest : ∀ src ∈ files, src.last.key ≤ files[f].last.key) (hi : i ≠ f) :
    InPlace files i := by
  by_cases halone : ∀ j : Fin files.length, j ≠ i → files[i].last.key ∉ keys files[j].records
  · have hQ := @late_looksAt Path files[i].last.key f
    obtain ⟨e, L, f', hcourse, -, -, hiff⟩ :=
      h.sameOutput_iff hQ (late_ranked _ _) hne keeps progressed
    obtain ⟨hord, hkeys, -⟩ := hiff.mp (hall _ hQ)
    have hlast := TailedFile.last_mem (hne _ (List.getElem_mem f.isLt))
    have hlt : files[i].last.key < files[f].last.key := by
      refine lt_of_le_of_ne (hgreatest _ (List.getElem_mem i.isLt)) fun he => ?_
      exact halone f hi.symm (mem_keys.mpr ⟨_, hlast, he.symm⟩)
    have hagain := hcourse.again_of_rank (i := i) hne (hcourse.whole_iff.mpr hlast) fun hle =>
      (le_of_lateRank_le hle).not_gt hlt
    refine hcourse.inPlace_of_alone le_of_lateRank_le hne hord halone hagain ?_
    refine (hkeys _).mp (mem_keys.mpr ⟨files[i].cut, ?_, rfl⟩)
    refine List.mem_cons_of_mem _ (List.mem_map.mpr ⟨_, hagain, ?_⟩)
    exact hcourse.left_eq hagain TailedFile.cut
  · push Not at halone
    obtain ⟨j, hji, hk⟩ := halone
    have hQ := @late_looksAt Path files[i].last.key j
    obtain ⟨e, L, f', hcourse, -, -, hiff⟩ :=
      h.sameOutput_iff hQ (late_ranked _ _) hne keeps progressed
    exact Or.inl (hcourse.cut_eq_of_shared hne (hiff.mp (hall _ hQ)).1 hji hk)

/-- What a merge has written in the end, whatever its files hold. -/
theorem TailedSources.wrote (h : TailedSources fs srcFiles files dst)
    {Q : PriorityQueue (@MergerInput.key Path)} {d : MergeOperation Path} {r : FileSystem Path}
    {calls : Option (List (BitVec 64))}
    (hcreate : MergeOperation.create Q fs srcFiles dst keeps = some d)
    (hy : Yields (fun fuel => execute Q fuel d fs progressed) (.ok (r, calls))) :
    ∃ e L f, Course (fun k _ => k) files L f ∧
      r.files dst = some (encodeAll (squash e (L.map (Step.entry files)))) := by
  obtain ⟨d', s, m, c, sum, -, hcreate', hstart, hdst, htracks⟩ :=
    h.starts (Q := Q) (fun k _ => k) keeps progressed
  obtain rfl := Option.some.inj (hcreate'.symm.trans hcreate)
  obtain ⟨t, hloop, rfl⟩ := loop_of_execute hstart hy
  obtain ⟨L, f, hwrote⟩ := loop_post (turn Q)
    (fun s => s.d.dstFilePath = dst ∧
      ∃ L n c, Tracks Q (fun k _ => k) files m.phc.record L s n c)
    (fun t => ∃ L f, Course (fun k _ => k) files L f ∧
      t.fs.files dst = some (encodeAll (squash m.phc.record (L.map (Step.entry files)))))
    (by
      rintro s₁ s₂ ⟨hdst, L, n, c, hn⟩ hturn
      obtain ⟨n', c', -, hn', hdst'⟩ := hn.go (ranked_key Q) hturn
      exact ⟨hdst'.trans hdst, _, n', c', hn'⟩)
    (by
      rintro s₁ t ⟨hdst, L, n, c, hn⟩ hturn
      obtain ⟨hv, rfl, hout⟩ := hn.stop hturn
      exact ⟨L, n.addr, hn.queued.course hv, hdst ▸ hout⟩)
    ⟨hdst, [], m, c, htracks⟩ hloop
  exact ⟨_, L, f, hwrote⟩

/-- The bytes of a file without a whole record, filled up with zeros, spell a hash that is stored
or one behind all that are. -/
def Spells (files : List TailedFile) (src : TailedFile) : Prop :=
  Stored files src.cut.key ∨ ∀ k, Stored files k → k < src.cut.key

/-- An input without a whole record that spells no such hash adds the hash that it spells. -/
theorem TailedSources.not_same_of_empty (h : TailedSources fs srcFiles files dst)
    {src : TailedFile} (hsrc : src ∈ files) (hempty : src.records = [])
    (hspells : ¬ Spells files src) (Q : PriorityQueue (@MergerInput.key Path)) :
    ¬ SameOutput Q fs srcFiles dst keeps progressed := by
  rintro ⟨d, d', r, r', calls, calls', hcreate, hcreate', hy, hy', hsame⟩
  obtain ⟨hnot, hbelow⟩ := not_or.mp hspells
  obtain ⟨sources, hsources, hstored⟩ := h.sources
  obtain ⟨d₁', r₁', calls₁', out, hcreate₁', hy₁', hmerged⟩ :=
    hsources.merges (Q := Q) keeps progressed
  obtain rfl := Option.some.inj (hcreate₁'.symm.trans hcreate')
  have hr' := (Prod.mk.inj (Except.ok.inj (hy₁'.unique hy'))).1
  obtain ⟨e, L, f, hcourse, hout⟩ := h.wrote hcreate hy
  rw [hsame, ← hr', hmerged.written] at hout
  have hkeys : ∀ x ∈ L, Stored files (Step.entry files x).key := by
    intro x hx
    rw [← hstored, hmerged.hashes, encodeAll_injective (Option.some.inj hout), mem_keys_squash]
    exact mem_keys.mpr ⟨_, List.mem_cons_of_mem _ (List.mem_map_of_mem hx), rfl⟩
  obtain ⟨i, hi, rfl⟩ := List.getElem_of_mem hsrc
  have hget := List.getElem?_eq_getElem hi
  by_cases hif : i = f
  · -- the input stays to the end, so all hashes are below
    subst hif
    refine hbelow fun k hk => ?_
    obtain ⟨a, q, hq, rfl⟩ := hcourse.stored_iff.mp hk
    have hle := hcourse.le_last a q files[i] hq hget
    rw [TailedFile.held_of_eq hempty] at hle
    exact lt_of_le_of_ne hle fun he => hnot (by rw [← he]; exact hk)
  · have hmem := hkeys _ (hcourse.again_mem hi hif)
    rw [entry_again, leftBy_of_some hget] at hmem
    exact hnot hmem

/-- In a merge of files that all have a whole record, incomplete records change nothing, however
ties are broken, exactly if they are harmless. A file without a whole record changes the output
of every merge, unless it spells a hash that is stored or lies behind all others. -/
theorem incomplete_records_change_nothing_iff (h : TailedSources fs srcFiles files dst)
    (keeps : Bool) (progressed : Option (List (BitVec 64))) :
    ((∀ src ∈ files, src.records ≠ []) →
      ((∀ Q : PriorityQueue (@MergerInput.key Path), Q.LooksAt MergerInput.look →
        SameOutput Q fs srcFiles dst keeps progressed) ↔ Harmless files)) ∧
    ∀ src ∈ files, src.records = [] → ¬ Spells files src →
      ∀ Q, ¬ SameOutput Q fs srcFiles dst keeps progressed := by
  refine ⟨fun hne => ⟨fun hall f hgreatest => ⟨fun i hi => ?_, fun k => ?_⟩, ?_⟩, ?_⟩
  · exact h.inPlace_of_same hne hall hgreatest hi
  · exact h.tallies_of_same hne hall hgreatest k
  · exact fun hfiles Q hQ => h.same_of_harmless hne hfiles hQ
  · exact fun src hsrc hempty hspells Q => h.not_same_of_empty hsrc hempty hspells Q

end Law

/-! ## Examples of tailed files -/

/-- The files of a list under the numbers of their places. -/
def tailedDisk (files : List TailedFile) : FileSystem Nat where
  files p := (files[p]?).map TailedFile.bytes
  writable _ := true

theorem tailedSources_disk {files : List TailedFile} (h : ∃ src ∈ files, src.records ≠ []) :
    TailedSources (tailedDisk files) (List.range files.length) files files.length := by
  refine ⟨?_, h, by simp, rfl⟩
  rw [List.forall₂_iff_get]
  refine ⟨by simp, fun i h₁ h₂ => ?_⟩
  simp only [List.get_eq_getElem, List.getElem_range, tailedDisk]
  rw [List.getElem?_eq_getElem h₂, Option.map_some]

/-- A file that stops within a record that becomes the next one of the other file, without a
count, and one that stops within a record behind all others. -/
def harmless : List TailedFile :=
  [⟨[⟨0, 5, 0⟩], [0, 0, 0, 0, 0, 0, 0, 0, 7], by decide, by decide⟩,
    ⟨[⟨0, 4, 2⟩, ⟨0, 7, 3⟩], [1, 2, 3], by decide, by decide⟩]

theorem harmless_stored {k : Nat} : Stored harmless k ↔ k ∈ [5, 4, 7] := by
  have hkeys : (harmless.flatMap fun src => keys src.records) = [5, 4, 7] := by decide
  rw [← hkeys, List.mem_flatMap]
  rfl

theorem harmless_next : NextAbove harmless 5 7 := by
  refine ⟨harmless_stored.mpr (by simp), by decide, fun l hl hlt => ?_⟩
  rw [harmless_stored] at hl
  simp only [List.mem_cons, List.not_mem_nil, or_false] at hl
  omega

theorem harmless_harmless : Harmless harmless := by
  intro f hgreatest
  obtain rfl : f = ⟨1, by decide⟩ := by
    revert f
    decide
  refine ⟨fun i hi => ?_, fun k => ?_⟩
  · obtain rfl : i = ⟨0, by decide⟩ := by
      revert i
      decide
    have hlast : (TailedFile.last (harmless.get ⟨0, by decide⟩)).key = 5 := by decide
    have hcut : (TailedFile.cut (harmless.get ⟨0, by decide⟩)).key = 7 := by decide
    refine Or.inr ⟨by decide, ?_⟩
    change NextAbove harmless (TailedFile.last (harmless.get ⟨0, _⟩)).key
      (TailedFile.cut (harmless.get ⟨0, _⟩)).key
    rw [hlast, hcut]
    exact harmless_next
  · have hcut : (harmless.eraseIdx 1).map TailedFile.cut = [⟨0, 7, 0⟩] := by decide
    have hlast : (harmless.eraseIdx 1).map TailedFile.last = [⟨0, 5, 0⟩] := by decide
    change tally ((harmless.eraseIdx 1).map TailedFile.cut) k ≡
      tally ((harmless.eraseIdx 1).map TailedFile.last) k [MOD 2 ^ 32]
    rw [hcut, hlast]
    simp [tally]
    rfl

/-- A file of one whole record. -/
def TailedFile.single (r : Record) (tail : List UInt8) (h : tail.length < 20) : TailedFile :=
  ⟨[r], tail, List.pairwise_singleton _ _, h⟩

/-- Two files with one hash, one of which stops within a record. Which of them is the last one in
the queue is left to the queue. -/
def tied : List TailedFile :=
  [.single ⟨0, 7, 1⟩ [] TailedFile.nil_lt, .single ⟨0, 7, 2⟩ [1, 2, 3] (by decide)]

theorem tied_not_harmless : ¬ Harmless tied := by
  intro h
  obtain ⟨hplace, -⟩ := h ⟨0, by decide⟩ (by decide)
  rcases hplace ⟨1, by decide⟩ (by decide) with hkey | ⟨hother, -⟩
  · exact absurd hkey (by decide)
  · exact absurd (hother ⟨0, by decide⟩ (by decide)) (by decide)

/-- An input without a whole record writes a record that is in no file. -/
def hollow : List TailedFile :=
  [⟨[], [], .nil, TailedFile.nil_lt⟩, .single ⟨0, 5, 1⟩ [] TailedFile.nil_lt]

theorem hollow_not_spells : ¬ Spells hollow ⟨[], [], by decide, by decide⟩ := by
  rintro (hstored | hbehind)
  · revert hstored
    unfold Stored
    decide
  · exact absurd (hbehind 5 ⟨hollow[1], by simp [hollow], by decide⟩) (by decide)

theorem incomplete_records_change_nothing_iff_disks :
    (∀ Q : PriorityQueue (@MergerInput.key Nat), Q.LooksAt MergerInput.look →
      SameOutput Q (tailedDisk harmless) [0, 1] 2 false none) ∧
    (¬ ∀ Q : PriorityQueue (@MergerInput.key Nat), Q.LooksAt MergerInput.look →
      SameOutput Q (tailedDisk tied) [0, 1] 2 false none) ∧
    ∀ Q, ¬ SameOutput Q (tailedDisk hollow) [0, 1] 2 false none := by
  refine ⟨?_, ?_, ?_⟩
  · exact ((incomplete_records_change_nothing_iff (tailedSources_disk (by decide)) false none).1
      (by decide)).mpr harmless_harmless
  · exact fun hall => tied_not_harmless
      (((incomplete_records_change_nothing_iff (tailedSources_disk (by decide)) false none).1
        (by decide)).mp hall)
  · exact (incomplete_records_change_nothing_iff (tailedSources_disk (by decide)) false none).2 _
      List.mem_cons_self rfl hollow_not_spells

theorem an_empty_file_changes_the_output :
    TailedSources (tailedDisk hollow) [0, 1] hollow 2 ∧
      ¬ SameOutput byHash (tailedDisk hollow) [0, 1] 2 false none :=
  ⟨tailedSources_disk (by decide), (tailedSources_disk (by decide)).not_same_of_empty
    List.mem_cons_self rfl hollow_not_spells byHash⟩

end merger
