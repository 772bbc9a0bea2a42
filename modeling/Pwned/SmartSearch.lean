-- The search that starts near the place where a hash should stand. Its two
-- loops never leave the file, and what they find is not used.
import Pwned.Search

open LittleEndian

namespace pwned

/-- `Hash::read(f, pos)`. What a short read transferred stays in the hash. -/
def Hash.readAt (h : Hash) (f : InputStream) (pos : Int) : Bool × Hash × InputStream :=
  let (bs, f) := (f.seekg pos).read Hash.size
  (bs.length == Hash.size, h.setData (overwrite h.data bs), f)

namespace PasswordInspector

/-- One of the two loops with doubling offsets, which differ in their condition and in their
direction. It gives the positions of its reads. -/
def gallop (again : Hash → (pos offset : Int) → Bool) (direction : Int) :
    Nat → InputStream → Hash → (pos offset : Int) → List Int → Option (List Int × InputStream)
  | 0, _, _, _, _, _ => none
  | fuel + 1, f, h, pos, offset, probes =>
    if again h pos offset then
      let pos := pos + direction * offset
      let (_, h, f) := h.readAt f pos
      gallop again direction fuel f h pos (offset * 2) (probes ++ [pos])
    else some (probes, f)

/-- The condition of the loop that moves `lo` down. -/
def againDown (hash h0 : Hash) (lo loOffset : Int) : Bool := hash.lt h0 && decide (loOffset ≤ lo)

/-- The condition of the loop that moves `hi` up. -/
def againUp (fileSize : Int) (hash h1 : Hash) (hi hiOffset : Int) : Bool :=
  hash.gt h1 && decide (hi ≤ fileSize - hiOffset - PasswordHashAndCount.size)

/-- A position or an offset rounded down to a record. -/
def roundDown (x : Int) : Int := x - x.tmod PasswordHashAndCount.size

/-- The first reads and the loops of `smart_binsearch` around the estimate, which the
floating-point arithmetic gives: the positions of the reads, and the stream behind them. -/
def approach (fuel : Nat) (ins : PasswordInspector) (hash : Hash) (estimate : Int) :
    Option (List Int × InputStream) := do
  let potentialHitIdx := roundDown estimate
  let offset := roundDown (max (ins.mFileSize / 2 ^ 12) PasswordHashAndCount.size)
  let lo := max 0 (potentialHitIdx - offset)
  let hi := min (ins.mFileSize - PasswordHashAndCount.size) (potentialHitIdx + offset)
  let (_, h0, f) := ({} : Hash).readAt ins.mInputFile lo
  let (probes, f) ← gallop (againDown hash) (-1) fuel f h0 lo offset [lo]
  let (_, h1, f) := ({} : Hash).readAt f hi
  gallop (againUp ins.mFileSize hash) 1 fuel f h1 hi offset (probes ++ [hi])

/-- `smart_binsearch`, with the number of reads and the inspector it leaves behind. -/
def smart_binsearch (fuel : Nat) (ins : PasswordInspector) (hash : Hash) (estimate : Int) :
    Option (PasswordHashAndCount × Nat × PasswordInspector) := do
  let (probes, f) ← approach fuel ins hash estimate
  let (phc, nReads, ins) ← binsearch fuel { ins with mInputFile := f } hash
  some (phc, probes.length + nReads, ins)

/-! ## Reads inside the file -/

/-- The position of a record in a file of the given size. -/
structure InFile (size pos : Int) : Prop where
  record : (20 : Int) ∣ pos
  nonneg : 0 ≤ pos
  le : pos ≤ size - 20

/-- A read of a hash where a record stands keeps the stream good. -/
theorem hash_readAt {rs : List Record} {f : InputStream} (h : Hash) {pos : Int}
    (hc : f.content = encodeAll rs) (hf : f.fail = false)
    (hpos : InFile (20 * rs.length : Nat) pos) :
    (h.readAt f pos).2.2.content = encodeAll rs ∧ (h.readAt f pos).2.2.good = true := by
  obtain ⟨p, rfl⟩ := Int.eq_ofNat_of_zero_le hpos.nonneg
  have hle := hpos.le
  have hgood := InputStream.seekg_good p hf
  have hlen : (f.seekg p).pos + 16 ≤ (f.seekg p).content.length := by
    rw [InputStream.seekg_nat p hf]
    simp only [hc, encodeAll_length]
    omega
  unfold Hash.readAt
  rw [Hash.size, InputStream.read_of_le hgood hlen]
  exact ⟨by simp [hc], hgood⟩

/-! ## The loops -/

/-- A loop whose turns keep `Inv` and make the measure smaller reads inside the file only. -/
theorem gallop_yields (again : Hash → (pos offset : Int) → Bool) (direction : Int)
    {rs : List Record} (Inv : Int → Int → Prop) (measure : Int → Nat)
    (go : ∀ h pos offset, Inv pos offset → again h pos offset = true →
      Inv (pos + direction * offset) (offset * 2) ∧
        InFile (20 * rs.length : Nat) (pos + direction * offset) ∧
        measure (pos + direction * offset) < measure pos)
    {pos offset : Int} (hinv : Inv pos offset) :
    ∀ (f : InputStream) (h : Hash) (probes : List Int), f.content = encodeAll rs →
      f.good = true → (∀ p ∈ probes, InFile (20 * rs.length : Nat) p) →
      ∃ probes' g,
        Yields (fun fuel => gallop again direction fuel f h pos offset probes) (probes', g) ∧
        (∀ p ∈ probes', InFile (20 * rs.length : Nat) p) ∧ g.content = encodeAll rs ∧
        g.good = true := by
  induction hm : measure pos using Nat.strong_induction_on generalizing pos offset with
  | _ m ih =>
    intro f h probes hc hf hprobes
    by_cases hgo : again h pos offset = true
    · obtain ⟨hinv', hin, hlt⟩ := go h pos offset hinv hgo
      obtain ⟨hc', hf'⟩ := hash_readAt h hc (InputStream.fail_of_good hf) hin
      have hprobes' : ∀ p ∈ probes ++ [pos + direction * offset],
          InFile (20 * rs.length : Nat) p := by
        intro p hp
        rcases List.mem_append.mp hp with hp | hp
        · exact hprobes p hp
        · rw [List.mem_singleton.mp hp]
          exact hin
      obtain ⟨probes', g, hy, hrest⟩ := ih _ (hm ▸ hlt) hinv' rfl _ _ _ hc' hf' hprobes'
      refine ⟨probes', g, Yields.of_shift 1 ?_, hrest⟩
      simpa only [gallop, if_pos hgo] using hy
    · refine ⟨probes, f, Yields.of_shift 1 (Yields.of_eq fun fuel => ?_), hprobes, hc, hf⟩
      simp only [gallop, if_neg hgo]

/-- What the loop that moves down keeps. The offset stays below the size of the file, so that it
can be doubled. -/
structure Down (size lo loOffset : Int) : Prop where
  inFile : InFile size lo
  record : (20 : Int) ∣ loOffset
  pos : 0 < loOffset
  le : lo + loOffset ≤ size

/-- What the loop that moves up keeps. -/
structure Up (size hi hiOffset : Int) : Prop where
  inFile : InFile size hi
  record : (20 : Int) ∣ hiOffset
  pos : 0 < hiOffset
  le : hiOffset ≤ hi ∨ hi = size - 20

theorem Down.go {size : Int} {hash h : Hash} {lo loOffset : Int} (hd : Down size lo loOffset)
    (hgo : againDown hash h lo loOffset = true) :
    Down size (lo + -1 * loOffset) (loOffset * 2) ∧ InFile size (lo + -1 * loOffset) ∧
      (lo + -1 * loOffset).toNat < lo.toNat := by
  obtain ⟨⟨hrec, hnonneg, hle⟩, hoff, hpos, hsum⟩ := hd
  unfold againDown at hgo
  rw [Bool.and_eq_true, decide_eq_true_eq] at hgo
  have hin : InFile size (lo + -1 * loOffset) := ⟨by omega, by omega, by omega⟩
  exact ⟨⟨hin, by omega, by omega, by omega⟩, hin, by omega⟩

theorem Up.go {size : Int} {hash h : Hash} {hi hiOffset : Int} (hu : Up size hi hiOffset)
    (hgo : againUp size hash h hi hiOffset = true) :
    Up size (hi + 1 * hiOffset) (hiOffset * 2) ∧ InFile size (hi + 1 * hiOffset) ∧
      (size - (hi + 1 * hiOffset)).toNat < (size - hi).toNat := by
  obtain ⟨⟨hrec, hnonneg, hle⟩, hoff, hpos, hor⟩ := hu
  unfold againUp at hgo
  rw [Bool.and_eq_true, decide_eq_true_eq] at hgo
  have hsize : (PasswordHashAndCount.size : Int) = 20 := rfl
  rw [hsize] at hgo
  have hin : InFile size (hi + 1 * hiOffset) := ⟨by omega, by omega, by omega⟩
  exact ⟨⟨hin, by omega, by omega, by omega⟩, hin, by omega⟩

/-! ## The search -/

theorem roundDown_spec {x : Int} (hx : 0 ≤ x) :
    (20 : Int) ∣ roundDown x ∧ roundDown x ≤ x ∧ x < roundDown x + 20 ∧ 0 ≤ roundDown x := by
  unfold roundDown
  have hsize : (PasswordHashAndCount.size : Int) = 20 := rfl
  rw [hsize, Int.tmod_eq_emod_of_nonneg hx]
  omega

/-- The first bounds around an estimate inside the file. -/
theorem bounds_near {size estimate : Int} (hsize : (20 : Int) ∣ size) (hpos : 20 ≤ size)
    (hnonneg : 0 ≤ estimate) (hle : estimate ≤ size) :
    let offset := roundDown (max (size / 2 ^ 12) PasswordHashAndCount.size)
    Down size (max 0 (roundDown estimate - offset)) offset ∧
      Up size (min (size - PasswordHashAndCount.size) (roundDown estimate + offset)) offset := by
  intro offset
  have h20 : (PasswordHashAndCount.size : Int) = 20 := rfl
  obtain ⟨hidx, hidxle, -, hidxnonneg⟩ := roundDown_spec hnonneg
  have hmax : 20 ≤ max (size / 2 ^ 12) (PasswordHashAndCount.size : Int) ∧
      max (size / 2 ^ 12) (PasswordHashAndCount.size : Int) ≤ size := by omega
  obtain ⟨hoff, hoffle, hofflt, -⟩ :=
    roundDown_spec (x := max (size / 2 ^ 12) PasswordHashAndCount.size) (by omega)
  have hoffset : 20 ≤ offset ∧ offset ≤ size := by omega
  rw [h20]
  exact ⟨⟨⟨by omega, by omega, by omega⟩, hoff, by omega, by omega⟩,
    ⟨⟨by omega, by omega, by omega⟩, hoff, by omega, by omega⟩⟩

/-- The reads around an estimate inside the file end, and all of them are at records. -/
theorem approach_yields {rs : List Record} (hne : rs ≠ []) (hash : Hash) {estimate : Int}
    (hnonneg : 0 ≤ estimate) (hle : estimate ≤ (encodeAll rs).length) :
    ∃ probes f,
      Yields (fun fuel => approach fuel (openFile (encodeAll rs)) hash estimate) (probes, f) ∧
      (∀ pos ∈ probes, InFile (encodeAll rs).length pos) ∧ f.content = encodeAll rs ∧
      f.good = true := by
  have hlen := encodeAll_length rs
  have hrecords : 0 < rs.length := List.length_pos_iff.mpr hne
  have hsize : (20 : Int) ∣ (encodeAll rs).length := by omega
  obtain ⟨hdown, hup⟩ := bounds_near hsize (by omega) hnonneg hle
  unfold approach
  have hfile : (openFile (encodeAll rs)).mFileSize = (encodeAll rs).length := rfl
  simp only [hfile]
  generalize roundDown (max (((encodeAll rs).length : Int) / 2 ^ 12) PasswordHashAndCount.size) = offset
    at hdown hup ⊢
  generalize max 0 (roundDown estimate - offset) = lo at hdown ⊢
  generalize min (((encodeAll rs).length : Int) - PasswordHashAndCount.size)
    (roundDown estimate + offset) = hi at hup ⊢
  rw [hlen] at hdown hup ⊢
  obtain ⟨hc₀, hf₀⟩ := hash_readAt {} (f := (openFile (encodeAll rs)).mInputFile) rfl rfl hdown.inFile
  obtain ⟨probes, f, hy, hin, hc, hf⟩ := gallop_yields (againDown hash) (-1)
    (Down (20 * rs.length : Nat)) Int.toNat (fun h lo offset hd hgo => hd.go hgo) hdown
    _ (({} : Hash).readAt (openFile (encodeAll rs)).mInputFile lo).2.1 [lo] hc₀ hf₀
    (fun p hp => List.mem_singleton.mp hp ▸ hdown.inFile)
  obtain ⟨hc₁, hf₁⟩ := hash_readAt {} hc (InputStream.fail_of_good hf) hup.inFile
  have hprobes : ∀ p ∈ probes ++ [hi], InFile (20 * rs.length : Nat) p := by
    intro p hp
    rcases List.mem_append.mp hp with hp | hp
    · exact hin p hp
    · rw [List.mem_singleton.mp hp]
      exact hup.inFile
  obtain ⟨probes', g, hy', hin', hc', hf'⟩ := gallop_yields
    (againUp (20 * rs.length : Nat) hash) 1 (Up (20 * rs.length : Nat))
    (fun hi => ((20 * rs.length : Nat) - hi).toNat)
    (fun h hi offset hu hgo => hu.go hgo) hup _ (({} : Hash).readAt f hi).2.1 (probes ++ [hi])
    hc₁ hf₁ hprobes
  exact ⟨probes', g, hy.bind (fun x fuel => _) hy', hin', hc', hf'⟩

/-- Two streams on one file that have not failed are alike behind a seek. -/
theorem seekg_eq {f g : InputStream} (hc : g.content = f.content) (hf : f.fail = false)
    (hg : g.fail = false) (p : Nat) : g.seekg p = f.seekg p := by
  rw [InputStream.seekg_nat p hf, InputStream.seekg_nat p hg]
  unfold InputStream.fail at hf hg
  rw [Bool.or_eq_false_iff] at hf hg
  rw [hc, hf.1, hf.2, hg.1, hg.2]

/-- Two streams on one file that have not failed answer a search alike. -/
theorem search_congr (hash : Hash) {f g : InputStream} (hc : g.content = f.content)
    (hf : f.fail = false) (hg : g.fail = false) (phc : PasswordHashAndCount) (lo hi : Int)
    (n fuel : Nat) :
    (search hash fuel g phc lo hi n).map Prod.fst =
      (search hash fuel f phc lo hi n).map Prod.fst := by
  cases fuel with
  | zero => rfl
  | succ fuel =>
    by_cases hle : lo ≤ hi
    · obtain ⟨p, hp⟩ := Int.eq_ofNat_of_zero_le (show 0 ≤ middle lo hi from le_max_left _ _)
      rw [search, search, if_pos hle, if_pos hle]
      dsimp only
      rw [hp, PasswordHashAndCount.readAt, PasswordHashAndCount.readAt, seekg_eq hc hf hg]
    · rw [search, search, if_neg hle, if_neg hle]
      rfl

/-- The search around an estimate ends, reads at records only before the plain search, and gives
what the plain search gives on a fresh inspector. The order of the records plays no part in it. -/
theorem the_smart_search_agrees {rs : List Record} (hne : rs ≠ []) (hsize : 20 * rs.length < 2 ^ 63)
    (hash : Hash) (estimate : Int) (hnonneg : 0 ≤ estimate)
    (hle : estimate ≤ (encodeAll rs).length) :
    ∃ probes f p nReads ins nReads' ins',
      Yields (fun fuel => approach fuel (openFile (encodeAll rs)) hash estimate) (probes, f) ∧
      (∀ pos ∈ probes, (20 : Int) ∣ pos ∧ 0 ≤ pos ∧ pos ≤ ((encodeAll rs).length : Int) - 20) ∧
      f.good = true ∧
      Yields (fun fuel => (openFile (encodeAll rs)).smart_binsearch fuel hash estimate)
        (p, nReads, ins) ∧
      Yields (fun fuel => (openFile (encodeAll rs)).binsearch fuel hash) (p, nReads', ins') := by
  obtain ⟨probes, f, hy, hin, hc, hf⟩ := approach_yields hne hash hnonneg hle
  let near : PasswordInspector := { openFile (encodeAll rs) with mInputFile := f }
  have hnear := @binsearch_eq near rs rfl rfl hash
  have hfresh := @binsearch_eq (openFile (encodeAll rs)) rs rfl rfl hash
  have hends : ∀ g : InputStream, Ends fun fuel =>
      search hash fuel g {} (20 * 0 : Nat) (20 * (rs.length + 1 : Nat) - 20) 0 :=
    fun g => search_ends hash _ 0 (rs.length + 1) g {} 0 rfl (by omega)
  obtain ⟨⟨p, n, g⟩, hp⟩ := hends f
  obtain ⟨⟨q, n', g'⟩, hq⟩ := hends (openFile (encodeAll rs)).mInputFile
  have hpq : p = q := by
    have hsame := fun fuel => search_congr hash (f := (openFile (encodeAll rs)).mInputFile) hc rfl
      (InputStream.fail_of_good hf) {} ((20 * 0 : Nat) : Int) (20 * (rs.length + 1 : Nat) - 20) 0 fuel
    have hpmap := hp.map Prod.fst
    simp only [hsame] at hpmap
    exact hpmap.unique (hq.map Prod.fst)
  subst hpq
  have hnear_yields : Yields (fun fuel => near.binsearch fuel hash)
      (p, n, { near with mInputFile := g }) := by
    simp only [hnear]
    exact hp.map _
  refine ⟨probes, f, p, probes.length + n, { near with mInputFile := g }, n',
    { openFile (encodeAll rs) with mInputFile := g' }, hy,
    fun pos hpos => ⟨(hin pos hpos).record, (hin pos hpos).nonneg, (hin pos hpos).le⟩, hf, ?_, ?_⟩
  · have hrest : Yields (fun fuel => do
        let (phc, nReads, ins) ← near.binsearch fuel hash
        some (phc, probes.length + nReads, ins))
        (p, probes.length + n, { near with mInputFile := g }) :=
      hnear_yields.bind (fun x _ => some (x.1, probes.length + x.2.1, x.2.2))
        (Yields.of_eq fun _ => rfl)
    exact hy.bind (fun x fuel => do
      let (phc, nReads, ins) ←
        binsearch fuel { openFile (encodeAll rs) with mInputFile := x.2 } hash
      some (phc, x.1.length + nReads, ins)) hrest
  · simp only [hfresh]
    exact hq.map _

/-- Five records in no order. -/
def shuffled : List Record := [⟨0, 3, 1⟩, ⟨0, 9, 1⟩, ⟨0, 6, 1⟩, ⟨0, 1, 1⟩, ⟨0, 7, 1⟩]

/-- Around the middle of the file both loops make a turn. -/
theorem the_smart_search_agrees_shuffled :
    ∃ probes f p nReads ins nReads' ins',
      Yields (fun fuel => approach fuel (openFile (encodeAll shuffled)) ⟨0, 5, true⟩ 45)
        (probes, f) ∧
      probes = [20, 0, 60, 80] ∧
      (∀ pos ∈ probes, (20 : Int) ∣ pos ∧ 0 ≤ pos ∧
        pos ≤ ((encodeAll shuffled).length : Int) - 20) ∧
      f.good = true ∧
      Yields (fun fuel =>
          (openFile (encodeAll shuffled)).smart_binsearch fuel ⟨0, 5, true⟩ 45)
        (p, nReads, ins) ∧
      Yields (fun fuel => (openFile (encodeAll shuffled)).binsearch fuel ⟨0, 5, true⟩)
        (p, nReads', ins') := by
  obtain ⟨probes, f, p, nReads, ins, nReads', ins', hy, hrest⟩ :=
    @the_smart_search_agrees shuffled (by decide) (by decide) ⟨0, 5, true⟩ 45 (by decide)
      (by decide)
  have hruns : Yields (fun fuel =>
      (approach fuel (openFile (encodeAll shuffled)) ⟨0, 5, true⟩ 45).map Prod.fst)
      [20, 0, 60, 80] := Yields.of_shift 3 (Yields.of_eq fun _ => rfl)
  exact ⟨probes, f, p, nReads, ins, nReads', ins', hy, (hy.map Prod.fst).unique hruns, hrest⟩

end PasswordInspector

end pwned
