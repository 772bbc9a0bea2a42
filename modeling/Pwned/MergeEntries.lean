-- What the loop of a merge makes of the entries it takes, in whatever order they
-- come: neighbours with one hash become one record.
import Pwned.MergeRun

open pwned

namespace merger

/-! ## Entries one after the other -/

/-- What an entry makes of the records that are written and of the running one. -/
def collect (s : List Record × Record) (p : Record) : List Record × Record :=
  if s.2.key = p.key then (s.1, { s.2 with count := s.2.count + p.count })
  else (s.1 ++ [s.2], p)

/-- The written records and the running one behind the entries `es`, where the running one is `e`
at first. -/
def collectAll (e : Record) (es : List Record) : List Record × Record :=
  es.foldl collect ([], e)

/-- What is written for the entries. -/
def squash (e : Record) (es : List Record) : List Record :=
  (collectAll e es).1 ++ [(collectAll e es).2]

theorem collectAll_concat (e : Record) (es : List Record) (p : Record) :
    collectAll e (es ++ [p]) = collect (collectAll e es) p := by
  unfold collectAll
  rw [List.foldl_append, List.foldl_cons, List.foldl_nil]

theorem keys_concat (rs : List Record) (r : Record) : keys (rs ++ [r]) = keys rs ++ [r.key] := by
  rw [keys_append]
  rfl

/-- An entry with the hash of the running one is added to it. -/
theorem squash_of_eq {e p : Record} {es : List Record} (h : (collectAll e es).2.key = p.key) :
    squash e (es ++ [p]) = (collectAll e es).1 ++
      [{ (collectAll e es).2 with count := (collectAll e es).2.count + p.count }] := by
  unfold squash
  rw [collectAll_concat, collect, if_pos h]

theorem keys_squash_of_eq {e p : Record} {es : List Record}
    (h : (collectAll e es).2.key = p.key) : keys (squash e (es ++ [p])) = keys (squash e es) := by
  rw [squash_of_eq h, squash, keys_concat, keys_concat]
  rfl

/-- Any other entry takes the place of the running one. -/
theorem squash_of_ne {e p : Record} {es : List Record} (h : (collectAll e es).2.key ≠ p.key) :
    squash e (es ++ [p]) = squash e es ++ [p] := by
  unfold squash
  rw [collectAll_concat, collect, if_neg h]

theorem running_mem_squash (e : Record) (es : List Record) :
    (collectAll e es).2.key ∈ keys (squash e es) := by
  rw [squash, keys_concat]
  exact List.mem_concat_self

/-- The hashes that are taken are written, and no others. -/
theorem mem_keys_squash (e : Record) (es : List Record) (k : Nat) :
    k ∈ keys (squash e es) ↔ k ∈ keys (e :: es) := by
  induction es using List.reverseRecOn with
  | nil => rfl
  | append_singleton es p ih =>
    rw [← List.cons_append, keys_concat, List.mem_append, List.mem_singleton, ← ih]
    by_cases h : (collectAll e es).2.key = p.key
    · rw [keys_squash_of_eq h, ← h]
      exact ⟨Or.inl, fun hk => hk.elim id fun hk => hk ▸ running_mem_squash e es⟩
    · rw [squash_of_ne h, keys_concat, List.mem_append, List.mem_singleton]

/-- The counts that are taken under a hash are those that are written, in 32 bits. -/
theorem tally_squash (e : Record) (es : List Record) (k : Nat) :
    tally (squash e es) k ≡ tally (e :: es) k [MOD 2 ^ 32] := by
  induction es using List.reverseRecOn with
  | nil => exact Nat.ModEq.refl _
  | append_singleton es p ih =>
    have hadd : tally (squash e (es ++ [p])) k ≡
        tally (squash e es) k + tally [p] k [MOD 2 ^ 32] := by
      by_cases h : (collectAll e es).2.key = p.key
      · rw [squash_of_eq h, squash, tally_append, tally_append, Nat.add_assoc]
        refine Nat.ModEq.add_left _ ?_
        have hkey : Record.key { (collectAll e es).2 with
            count := (collectAll e es).2.count + p.count } = p.key := h
        simp only [tally_cons, tally_nil, hkey, h, BitVec.toNat_add, Nat.ModEq]
        split
        · omega
        · rfl
      · rw [squash_of_ne h, tally_append]
    calc tally (squash e (es ++ [p])) k ≡ tally (squash e es) k + tally [p] k [MOD 2 ^ 32] := hadd
      _ ≡ tally (e :: es) k + tally [p] k [MOD 2 ^ 32] := ih.add_right _
      _ = tally (e :: (es ++ [p])) k := by rw [← List.cons_append, tally_append]

/-! ## Entries in order -/

/-- The entries come in the order of their hashes. -/
def Ordered (es : List Record) : Prop := (keys es).Pairwise (· ≤ ·)

theorem strictlyIncreasing_iff_keys {rs : List Record} :
    StrictlyIncreasing rs ↔ (keys rs).Pairwise (· < ·) := List.pairwise_map.symm

/-- In a strictly increasing output the running entry is over all others. -/
theorem le_running {e : Record} {es : List Record} (h : StrictlyIncreasing (squash e es)) {k : Nat}
    (hk : k ∈ keys (e :: es)) : k ≤ (collectAll e es).2.key := by
  rw [← mem_keys_squash, squash, keys_concat, List.mem_append, List.mem_singleton] at hk
  rcases hk with hk | rfl
  · exact ((strictlyIncreasing_concat.mp h).2 k hk).le
  · rfl

/-- The output is in strict order exactly if the entries come in order. -/
theorem squash_increasing_iff (e : Record) (es : List Record) :
    StrictlyIncreasing (squash e es) ↔ Ordered (e :: es) := by
  induction es using List.reverseRecOn with
  | nil => simp [squash, collectAll, StrictlyIncreasing, Ordered]
  | append_singleton es p ih =>
    have hordered : Ordered (e :: (es ++ [p])) ↔
        Ordered (e :: es) ∧ ∀ k ∈ keys (e :: es), k ≤ p.key := by
      rw [← List.cons_append, Ordered, keys_concat, List.pairwise_append]
      simp [Ordered]
    rw [hordered, ← ih]
    by_cases h : (collectAll e es).2.key = p.key
    · rw [strictlyIncreasing_iff_keys, keys_squash_of_eq h, ← strictlyIncreasing_iff_keys]
      exact ⟨fun hs => ⟨hs, fun k hk => h ▸ le_running hs hk⟩, And.left⟩
    · rw [squash_of_ne h, strictlyIncreasing_concat]
      refine and_congr_right fun hs => ?_
      have hmem := running_mem_squash e es
      constructor
      · intro hlt k hk
        exact (hlt k ((mem_keys_squash e es k).mpr hk)).le
      · intro hle k hk
        have hrun := hle _ ((mem_keys_squash e es _).mp hmem)
        have hk' := le_running hs ((mem_keys_squash e es k).mp hk)
        omega

/-- A record of one output is in another one with the same hashes and counts. -/
theorem mem_of_tallies {rs ss : List Record} (hr : StrictlyIncreasing rs)
    (hs : StrictlyIncreasing ss) (hkeys : ∀ k ∈ keys rs, k ∈ keys ss)
    (htally : ∀ k, tally rs k ≡ tally ss k [MOD 2 ^ 32]) {r : Record} (hmem : r ∈ rs) :
    r ∈ ss := by
  obtain ⟨s, hsmem, hkey⟩ := mem_keys.mp (hkeys r.key (mem_keys.mpr ⟨r, hmem, rfl⟩))
  have hcount := htally r.key
  rw [hr.tally_eq hmem, ← hkey, hs.tally_eq hsmem] at hcount
  have hsame : r.count.toNat = s.count.toNat :=
    Nat.ModEq.eq_of_lt_of_lt hcount r.count.isLt s.count.isLt
  obtain ⟨hupper, hlower⟩ := Hash.words_of_key_eq (a := s.phc.hash) (b := r.phc.hash) hkey
  obtain rfl : s = r := by
    cases s
    cases r
    simp only [Record.mk.injEq]
    exact ⟨hupper, hlower, BitVec.eq_of_toNat_eq hsame.symm⟩
  exact hsmem

/-- Two outputs in strict order with the same hashes and counts are the same. -/
theorem eq_of_tallies {rs ss : List Record} (hr : StrictlyIncreasing rs)
    (hs : StrictlyIncreasing ss) (hkeys : ∀ k, k ∈ keys rs ↔ k ∈ keys ss)
    (htally : ∀ k, tally rs k ≡ tally ss k [MOD 2 ^ 32]) : rs = ss := by
  have hirrefl : Std.Irrefl fun a b : Record => a.key < b.key := ⟨fun a => lt_irrefl a.key⟩
  have hantisymm : Std.Antisymm fun a b : Record => a.key < b.key :=
    ⟨fun a b hab hba => absurd hba hab.not_gt⟩
  refine hr.eq_of_mem_iff hs fun r => ⟨?_, ?_⟩
  · exact mem_of_tallies hr hs (fun k => (hkeys k).mp) htally
  · exact mem_of_tallies hs hr (fun k => (hkeys k).mpr) fun k => (htally k).symm

/-- Entries make the same output as entries in order exactly if they are in order too and bring
the same hashes and counts. -/
theorem squash_eq_iff {e : Record} (es : List Record) {es' : List Record} (h : Ordered (e :: es')) :
    squash e es = squash e es' ↔ Ordered (e :: es) ∧
      (∀ k, k ∈ keys (e :: es) ↔ k ∈ keys (e :: es')) ∧
      ∀ k, tally (e :: es) k ≡ tally (e :: es') k [MOD 2 ^ 32] := by
  have h' := (squash_increasing_iff e es').mpr h
  constructor
  · intro heq
    refine ⟨(squash_increasing_iff e es).mp (heq ▸ h'), fun k => ?_, fun k => ?_⟩
    · rw [← mem_keys_squash, heq, mem_keys_squash]
    · have hk := tally_squash e es k
      rw [heq] at hk
      exact hk.symm.trans (tally_squash e es' k)
  · rintro ⟨hes, hkeys, htally⟩
    refine eq_of_tallies ((squash_increasing_iff e es).mpr hes) h' (fun k => ?_) fun k => ?_
    · rw [mem_keys_squash, hkeys, mem_keys_squash]
    · exact ((tally_squash e es k).trans (htally k)).trans (tally_squash e es' k).symm

end merger
