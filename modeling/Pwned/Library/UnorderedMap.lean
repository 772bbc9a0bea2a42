-- Maps whose entries come in an order that nobody promises. What such a map
-- holds is what its lookups give.
import Mathlib

/-- A `std::unordered_map`. -/
abbrev UnorderedMap (K V : Type) := AList fun _ : K => V

namespace UnorderedMap

variable {K V W : Type}

/-- The entries in some order. -/
def pairs (m : UnorderedMap K V) : List (K × V) := m.entries.map fun e => (e.1, e.2)

/-- The map with every value replaced in place. -/
def mapValues (f : V → W) (m : UnorderedMap K V) : UnorderedMap K W :=
  ⟨m.entries.map (.map id fun _ => f), m.nodupKeys.map₂ fun _ => f⟩

/-- The order of the iterations over a map. -/
structure Order (K : Type) where
  iterate : {V : Type} → UnorderedMap K V → List (K × V)
  perm : ∀ {V : Type} (m : UnorderedMap K V), (iterate m).Perm m.pairs

theorem pairs_length (m : UnorderedMap K V) : m.pairs.length = m.entries.length :=
  List.length_map ..

theorem pairs_keys (m : UnorderedMap K V) : m.pairs.map Prod.fst = m.keys := by
  unfold pairs AList.keys List.keys
  rw [List.map_map]
  rfl

theorem nodup_keys (m : UnorderedMap K V) : (m.pairs.map Prod.fst).Nodup := by
  rw [pairs_keys]
  exact m.keys_nodup

/-- The entries in the order that the machine chose. -/
def inOrder : Order K := ⟨fun m => m.pairs, fun _ => List.Perm.refl _⟩

section Iterate

variable (o : Order K) (m : UnorderedMap K V)

theorem Order.nodup_keys : ((o.iterate m).map Prod.fst).Nodup :=
  ((o.perm m).map Prod.fst).nodup_iff.mpr m.nodup_keys

theorem Order.mem_keys {k : K} : k ∈ (o.iterate m).map Prod.fst ↔ k ∈ m := by
  rw [((o.perm m).map Prod.fst).mem_iff, pairs_keys, AList.mem_keys]

end Iterate

variable [DecidableEq K]

/-- The map with the pairs of a list assigned one after the other. -/
def insertAll (m : UnorderedMap K V) (l : List (K × V)) : UnorderedMap K V :=
  l.foldl (fun m p => m.insert p.1 p.2) m

/-- `emplace(k, v)`: an entry that is there stays. -/
def emplace (m : UnorderedMap K V) (k : K) (v : V) : UnorderedMap K V :=
  if k ∈ m then m else m.insert k v

theorem mem_emplace {m : UnorderedMap K V} {k k' : K} {v : V} :
    k' ∈ m.emplace k v ↔ k' = k ∨ k' ∈ m := by
  unfold emplace
  split
  · rename_i h
    constructor
    · exact Or.inr
    · rintro (rfl | h')
      · exact h
      · exact h'
  · exact AList.mem_insert m

theorem lookup_emplace_ne {m : UnorderedMap K V} {k k' : K} {v : V} (h : k' ≠ k) :
    (m.emplace k v).lookup k' = m.lookup k' := by
  unfold emplace
  split
  · rfl
  · exact AList.lookup_insert_ne h

theorem lookup_emplace (m : UnorderedMap K V) (k : K) (v : V) :
    (m.emplace k v).lookup k = some ((m.lookup k).getD v) := by
  unfold emplace
  split
  · rename_i h
    obtain ⟨w, hw⟩ := Option.isSome_iff_exists.mp (AList.lookup_isSome.mpr h)
    rw [hw, Option.getD_some]
  · rename_i h
    rw [AList.lookup_insert, AList.lookup_eq_none.mpr h, Option.getD_none]

theorem mem_pairs {m : UnorderedMap K V} {k : K} {v : V} :
    (k, v) ∈ m.pairs ↔ m.lookup k = some v := by
  rw [← Option.mem_def, AList.mem_lookup_iff]
  simp [pairs]

/-- In a list of the entries a key is found with its value. -/
theorem find_of_perm {l : List (K × V)} {m : UnorderedMap K V} (h : l.Perm m.pairs) (k : K) :
    l.find? (·.1 == k) = (m.lookup k).map fun v => (k, v) := by
  cases hf : l.find? (·.1 == k) with
  | none =>
    rw [List.find?_eq_none] at hf
    cases hk : m.lookup k with
    | none => rfl
    | some v => exact absurd (beq_self_eq_true k) (hf (k, v) (h.mem_iff.mpr (mem_pairs.mpr hk)))
  | some found =>
    obtain ⟨k', v⟩ := found
    obtain rfl : k' = k := by simpa using List.find?_some hf
    rw [mem_pairs.mp (h.mem_iff.mp (List.mem_of_find?_eq_some hf)), Option.map_some]

theorem lookup_mapValues (f : V → W) (m : UnorderedMap K V) (k : K) :
    (m.mapValues f).lookup k = (m.lookup k).map f := List.dlookup_map₂ k

theorem mem_mapValues (f : V → W) (m : UnorderedMap K V) (k : K) :
    k ∈ m.mapValues f ↔ k ∈ m := by
  rw [← AList.lookup_isSome, lookup_mapValues, Option.isSome_map, AList.lookup_isSome]

@[simp] theorem insertAll_nil (m : UnorderedMap K V) : insertAll m [] = m := rfl

theorem insertAll_cons (m : UnorderedMap K V) (p : K × V) (l : List (K × V)) :
    insertAll m (p :: l) = insertAll (m.insert p.1 p.2) l := rfl

/-- The last assignment of a key wins. -/
theorem lookup_insertAll (l : List (K × V)) (k : K) :
    ∀ m : UnorderedMap K V,
      (insertAll m l).lookup k = (l.reverse.lookup k).or (m.lookup k) := by
  induction l with
  | nil =>
    intro m
    rfl
  | cons p l ih =>
    intro m
    rw [insertAll_cons, ih, List.reverse_cons, List.lookup_append, Option.or_assoc]
    by_cases hk : k = p.1
    · subst hk
      have hself : [p].lookup p.1 = some p.2 := List.lookup_cons_self
      rw [hself, AList.lookup_insert, Option.some_or]
    · rw [AList.lookup_insert_ne hk, List.lookup_cons, beq_false_of_ne hk]
      rfl

theorem mem_insertAll {k : K} (l : List (K × V)) :
    ∀ m : UnorderedMap K V, k ∈ insertAll m l ↔ k ∈ l.map Prod.fst ∨ k ∈ m := by
  induction l with
  | nil =>
    intro m
    simp
  | cons p l ih =>
    intro m
    rw [insertAll_cons, ih, AList.mem_insert, List.map_cons, List.mem_cons, ← or_assoc,
      or_comm (a := k = p.1)]

theorem lookup_insertAll_of_notMem {k : K} (l : List (K × V)) :
    ∀ m : UnorderedMap K V, k ∉ l.map Prod.fst → (insertAll m l).lookup k = m.lookup k := by
  induction l with
  | nil =>
    intro m _
    rfl
  | cons p l ih =>
    intro m h
    rw [List.map_cons, List.mem_cons, not_or] at h
    rw [insertAll_cons, ih _ h.2, AList.lookup_insert_ne h.1]

theorem lookup_insertAll_of_mem {k : K} {v : V} (l : List (K × V)) :
    ∀ m : UnorderedMap K V, (l.map Prod.fst).Nodup → (k, v) ∈ l →
      (insertAll m l).lookup k = some v := by
  induction l with
  | nil =>
    intro m _ h
    cases h
  | cons p l ih =>
    intro m hnd h
    rw [List.map_cons, List.nodup_cons] at hnd
    rw [insertAll_cons]
    rcases List.mem_cons.mp h with rfl | h
    · rw [lookup_insertAll_of_notMem l _ hnd.1, AList.lookup_insert]
    · exact ih _ hnd.2 h

/-- A map comes back from its entries, whatever their order. -/
theorem lookup_insertAll_of_perm {l : List (K × V)} {m : UnorderedMap K V} (h : l.Perm m.pairs)
    (k : K) : (insertAll ∅ l).lookup k = m.lookup k := by
  have hnd : (l.map Prod.fst).Nodup := (h.map Prod.fst).nodup_iff.mpr m.nodup_keys
  cases hm : m.lookup k with
  | none =>
    have hk : k ∉ l.map Prod.fst := by
      rw [(h.map Prod.fst).mem_iff, pairs_keys, ← AList.mem_keys, ← AList.lookup_eq_none, hm]
    rw [lookup_insertAll_of_notMem l ∅ hk, AList.lookup_empty]
  | some v => exact lookup_insertAll_of_mem l ∅ hnd (h.mem_iff.mpr (mem_pairs.mpr hm))

/-- Two maps with the same lookups have the same entries in some order. -/
theorem pairs_perm_of_lookup {m m' : UnorderedMap K V} (h : ∀ k, m.lookup k = m'.lookup k) :
    m.pairs.Perm m'.pairs := by
  refine (List.perm_ext_iff_of_nodup m.nodup_keys.of_map m'.nodup_keys.of_map).mpr ?_
  rintro ⟨k, v⟩
  rw [mem_pairs, mem_pairs, h]

/-- A map whose keys are in a list is not larger than the list without repetitions. -/
theorem length_le {m : UnorderedMap K V} {T : List K} (h : ∀ k ∈ m, k ∈ T) :
    m.entries.length ≤ T.dedup.length := by
  have hsub : m.keys ⊆ T.dedup := fun k hk => List.mem_dedup.mpr (h k (AList.mem_keys.mpr hk))
  have hle := (List.subperm_of_subset m.keys_nodup hsub).length_le
  rwa [AList.keys, List.keys, List.length_map] at hle

end UnorderedMap
