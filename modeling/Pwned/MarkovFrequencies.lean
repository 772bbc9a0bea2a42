-- The probabilities of a trained chain are relative frequencies, as long as
-- the sums of the counts fit 32 bits.
import Pwned.Library.Counting
import Pwned.MarkovTraining

open UnorderedMap

namespace pwned.markov

variable {S P : Type} [DecidableEq S]

/-! ## Counts of a list -/

/-- The map counts what is in the list. -/
def CountsOf (counts : UnorderedMap S Count) (l : List S) : Prop :=
  ∀ c, counts.lookup c = if c ∈ l then some (BitVec.ofNat 64 (l.count c)) else none

theorem countsOf_nil : CountsOf (∅ : UnorderedMap S Count) [] := fun c => AList.lookup_empty c

theorem CountsOf.mem_iff {counts : UnorderedMap S Count} {l : List S} (h : CountsOf counts l)
    (c : S) : c ∈ counts ↔ c ∈ l := by
  rw [← AList.lookup_isSome, h c]
  split <;> simp_all

theorem CountsOf.getD {counts : UnorderedMap S Count} {l : List S} (h : CountsOf counts l)
    (c : S) : (counts.lookup c).getD 0 = BitVec.ofNat 64 (l.count c) := by
  rw [h c]
  split
  · rfl
  · rename_i hc
    rw [List.count_eq_zero.mpr hc]
    rfl

theorem CountsOf.increment {counts : UnorderedMap S Count} {l : List S} (h : CountsOf counts l)
    (c : S) : CountsOf (increment counts c) (l ++ [c]) := by
  intro d
  unfold markov.increment
  rw [Counting.count_concat]
  by_cases hd : d = c
  · subst hd
    rw [AList.lookup_insert, h.getD, if_pos (by simp), if_pos rfl, BitVec.ofNat_add]
    rfl
  · rw [AList.lookup_insert_ne hd, h d, if_neg hd]
    simp [hd]

/-- What is counted for the first time has an entry of zero already. -/
theorem CountsOf.increment_emplace {counts : UnorderedMap S Count} {l : List S}
    (h : CountsOf counts l) (c : S) :
    CountsOf (markov.increment (counts.emplace c 0) c) (l ++ [c]) := by
  intro d
  rw [← h.increment c d]
  unfold markov.increment
  by_cases hd : d = c
  · subst hd
    rw [AList.lookup_insert, AList.lookup_insert, lookup_emplace, Option.getD_some]
  · rw [AList.lookup_insert_ne hd, AList.lookup_insert_ne hd, lookup_emplace_ne hd]

/-! ## What training counts -/

/-- The symbols behind `a` in a list of pairs of neighbours. -/
def followers (pairs : List (S × S)) (a : S) : List S :=
  (pairs.filter (·.1 = a)).map Prod.snd

theorem followers_concat (pairs : List (S × S)) (a b c : S) :
    followers (pairs ++ [(a, b)]) c =
      if c = a then followers pairs c ++ [b] else followers pairs c := by
  unfold followers
  rw [List.filter_append, List.map_append]
  by_cases h : c = a
  · simp [h]
  · simp [h, Ne.symm h]

theorem mem_followers {pairs : List (S × S)} {a b : S} :
    b ∈ followers pairs a ↔ (a, b) ∈ pairs := by
  simp [followers]

theorem count_followers (pairs : List (S × S)) (a b : S) :
    (followers pairs a).count b = pairs.count (a, b) := by
  unfold followers
  induction pairs with
  | nil => rfl
  | cons p pairs ih =>
    obtain ⟨c, d⟩ := p
    rw [List.filter_cons, List.count_cons]
    by_cases hc : c = a
    · subst hc
      simp only [decide_true, if_true, List.map_cons, List.count_cons, ih]
      by_cases hd : d = b <;> simp [hd]
    · simp [hc, ih]

theorem length_followers (pairs : List (S × S)) (a : S) :
    (followers pairs a).length = pairs.countP (·.1 = a) := by
  unfold followers
  rw [List.length_map, ← List.countP_eq_length_filter]

/-- The pairs of neighbours of a password. -/
def neighbours (pwd : List S) : List (S × S) := pwd.zip pwd.tail

namespace Chain

/-- The first symbols and the pairs of neighbours that a chain has counted. -/
structure Counted (chain : Chain S P) (firsts : List S) (pairs : List (S × S)) : Prop where
  firsts : CountsOf chain.mFirstSymbolCounts firsts
  probs : chain.mFirstSymbolProbs = ∅
  nodes : ∀ a, a ∈ chain.mNodes ↔ ∃ b, (a, b) ∈ pairs
  successors : ∀ a node, chain.mNodes.lookup a = some node →
    CountsOf node.mCounts (followers pairs a) ∧ node.mProbs = ∅

theorem counted_empty : Counted ({} : Chain S P) [] [] :=
  ⟨countsOf_nil, rfl, fun a => by simp, fun a node h => by simp at h⟩

variable {chain : Chain S P} {firsts : List S} {pairs : List (S × S)}

theorem Counted.addFirst (h : Counted chain firsts pairs) (a : S) :
    Counted (chain.addFirst a) (firsts ++ [a]) pairs :=
  ⟨h.firsts.increment_emplace a, h.probs, h.nodes, h.successors⟩

/-- The node that a pair is counted in, a new one where there is none. -/
theorem Counted.node (h : Counted chain firsts pairs) (a : S) :
    CountsOf ((chain.mNodes.lookup a).getD {}).mCounts (followers pairs a) ∧
      ((chain.mNodes.lookup a).getD {}).mProbs = ∅ := by
  cases hn : chain.mNodes.lookup a with
  | some node => exact h.successors a node hn
  | none =>
    have hnil : followers pairs a = [] := by
      rw [List.eq_nil_iff_forall_not_mem]
      intro b hb
      exact AList.lookup_eq_none.mp hn ((h.nodes a).mpr ⟨b, mem_followers.mp hb⟩)
    rw [hnil]
    exact ⟨countsOf_nil, rfl⟩

theorem Counted.addPair (h : Counted chain firsts pairs) (a b : S) :
    Counted (chain.addPair a b) firsts (pairs ++ [(a, b)]) := by
  refine ⟨h.firsts, h.probs, ?_, ?_⟩
  · intro c
    rw [mem_nodes_addPair, h.nodes c]
    constructor
    · rintro (rfl | ⟨d, hd⟩)
      · exact ⟨b, by simp⟩
      · exact ⟨d, by simp [hd]⟩
    · rintro ⟨d, hd⟩
      rcases List.mem_append.mp hd with hd | hd
      · exact Or.inr ⟨d, hd⟩
      · exact Or.inl (Prod.mk.inj (List.mem_singleton.mp hd)).1
  · intro c node hc
    rw [followers_concat]
    unfold Chain.addPair at hc
    by_cases hca : c = a
    · subst hca
      obtain ⟨hcounts, hprobs⟩ := h.node c
      rw [AList.lookup_insert, lookup_emplace, Option.some.injEq, Option.getD_some] at hc
      subst hc
      rw [if_pos rfl]
      exact ⟨hcounts.increment b, hprobs⟩
    · rw [AList.lookup_insert_ne hca, lookup_emplace_ne hca] at hc
      rw [if_neg hca]
      exact h.successors c node hc

theorem Counted.addPairs (pwd : List S) :
    ∀ {chain : Chain S P} {pairs : List (S × S)}, Counted chain firsts pairs →
      Counted (chain.addPairs pwd) firsts (pairs ++ neighbours pwd) := by
  induction pwd with
  | nil =>
    intro chain pairs h
    rwa [neighbours, List.zip_nil_left, List.append_nil]
  | cons a rest ih =>
    intro chain pairs h
    cases rest with
    | nil => rwa [neighbours, List.tail_cons, List.zip_nil_right, List.append_nil]
    | cons b rest =>
      have hrest := ih (h.addPair a b)
      rw [List.append_assoc] at hrest
      unfold Chain.addPairs
      exact hrest

theorem Counted.train (h : Counted chain firsts pairs) (pwd : List S) :
    Counted (chain.train pwd).2 (firsts ++ pwd.head?.toList) (pairs ++ neighbours pwd) := by
  cases pwd with
  | nil => simpa [Chain.train, neighbours] using h
  | cons a rest => exact Counted.addPairs (a :: rest) (h.addFirst a)

/-- A run of the training over a list of passwords. -/
theorem Counted.trainAll (pwds : List (List S)) :
    ∀ {chain : Chain S P} {firsts : List S} {pairs : List (S × S)}, Counted chain firsts pairs →
      Counted (pwds.foldl (fun (chain : Chain S P) pwd => (chain.train pwd).2) chain)
        (firsts ++ pwds.filterMap List.head?) (pairs ++ pwds.flatMap neighbours) := by
  induction pwds with
  | nil =>
    intro chain firsts pairs h
    simpa using h
  | cons pwd pwds ih =>
    intro chain firsts pairs h
    have hrest := ih (h.train pwd)
    have hfirsts : firsts ++ (pwd :: pwds).filterMap List.head? =
        firsts ++ pwd.head?.toList ++ pwds.filterMap List.head? := by
      cases pwd with
      | nil =>
        rw [List.filterMap_cons_none rfl, List.head?_nil, Option.toList_none, List.append_nil]
      | cons a rest => simp
    rw [hfirsts, List.flatMap_cons, ← List.append_assoc]
    exact hrest

end Chain

/-! ## The sum of the counts -/

omit [DecidableEq S] in
theorem sumCounts_toNat (counts : List (S × Count)) :
    (sumCounts counts).toNat = (counts.map fun b => b.2.toNat).sum % 2 ^ 32 := by
  have hfold : ∀ a : BitVec 32,
      (counts.foldl (fun (a : BitVec 32) b => (b.2 + a.setWidth 64).setWidth 32) a).toNat =
        (a.toNat + (counts.map fun b => b.2.toNat).sum) % 2 ^ 32 := by
    induction counts with
    | nil =>
      intro a
      simp [Nat.mod_eq_of_lt a.isLt]
    | cons b counts ih =>
      intro a
      rw [List.foldl_cons, ih, List.map_cons, List.sum_cons]
      simp only [BitVec.toNat_setWidth, BitVec.toNat_add]
      omega
  unfold sumCounts
  rw [BitVec.toNat_setWidth, hfold, Nat.mod_eq_of_lt]
  · simp
  · omega

section Sum

variable {counts : UnorderedMap S Count} {l : List S} (u : Unspecified S P)

theorem CountsOf.keys_perm (h : CountsOf counts l) :
    ((u.order.iterate counts).map Prod.fst).Perm l.dedup := by
  apply (List.perm_ext_iff_of_nodup (u.order.nodup_keys counts) l.nodup_dedup).mpr
  intro c
  rw [u.order.mem_keys, h.mem_iff, List.mem_dedup]

/-- The entry of a symbol tells how often it is in the list. -/
theorem CountsOf.entry (h : CountsOf counts l) (hlen : l.length < 2 ^ 64) {p : S × Count}
    (hp : p ∈ u.order.iterate counts) : p.2.toNat = l.count p.1 := by
  have hlook := mem_pairs.mp ((u.order.perm counts).mem_iff.mp hp)
  rw [h p.1] at hlook
  split at hlook
  · have hle := l.count_le_length (a := p.1)
    rw [← Option.some.inj hlook, BitVec.toNat_ofNat, Nat.mod_eq_of_lt (by omega)]
  · cases hlook

/-- The sum is the length of the list in 32 bits. -/
theorem CountsOf.sumCounts (h : CountsOf counts l) (hlen : l.length < 2 ^ 64) :
    (markov.sumCounts (u.order.iterate counts)).toNat = l.length % 2 ^ 32 := by
  have hmap : (u.order.iterate counts).map (fun b => b.2.toNat) =
      ((u.order.iterate counts).map Prod.fst).map fun c => l.count c := by
    rw [List.map_map]
    apply List.map_congr_left
    intro p hp
    exact h.entry u hlen hp
  rw [sumCounts_toNat, hmap, ((h.keys_perm u).map _).sum_eq]
  congr 1
  exact List.sum_map_count_dedup_eq_length l

/-! ## The probabilities of the counts -/

section Probabilities

variable [NatCast P] [Div P]

theorem lookup_assignProbs (h : CountsOf counts l) (hlen : l.length < 2 ^ 64) (c : S) :
    (assignProbs u counts (∅ : UnorderedMap S P)).lookup c =
      if c ∈ l then some ((l.count c : P) / ((l.length % 2 ^ 32 : ℕ) : P)) else none := by
  have hkeys := keys_assigned u counts (markov.sumCounts (u.order.iterate counts))
  unfold assignProbs
  dsimp only
  split
  · rename_i hc
    obtain ⟨count, hcount⟩ := Option.isSome_iff_exists.mp
      (AList.lookup_isSome.mpr ((h.mem_iff c).mpr hc))
    have hentry := (u.order.perm counts).mem_iff.mpr (mem_pairs.mpr hcount)
    have hmem := List.mem_map_of_mem
      (f := fun p => (p.1, (probOf p.2 (markov.sumCounts (u.order.iterate counts)) : P))) hentry
    rw [lookup_insertAll_of_mem _ ∅ (by rw [hkeys]; exact u.order.nodup_keys counts) hmem]
    unfold probOf
    rw [h.sumCounts u hlen, h.entry u hlen hentry]
  · rename_i hc
    apply lookup_insertAll_of_notMem
    rwa [hkeys, u.order.mem_keys, h.mem_iff]

end Probabilities

end Sum

/-! ## Exact frequencies -/

/-- The table gives the relative frequencies of the list. -/
def FrequenciesOf (probs : UnorderedMap S ℚ) (l : List S) : Prop :=
  ∀ c, probs.lookup c = if c ∈ l then some ((l.count c : ℚ) / l.length) else none

/-- The probabilities of a table of frequencies sum to 1. -/
theorem FrequenciesOf.sum_eq_one {probs : UnorderedMap S ℚ} {l : List S}
    (h : FrequenciesOf probs l) (hne : l ≠ []) : (probs.pairs.map Prod.snd).sum = 1 := by
  have hkeys : (probs.pairs.map Prod.fst).Perm l.dedup := by
    apply (List.perm_ext_iff_of_nodup probs.nodup_keys l.nodup_dedup).mpr
    intro c
    rw [pairs_keys, ← AList.mem_keys, ← AList.lookup_isSome, h c, List.mem_dedup]
    split <;> simp_all
  have hmap : probs.pairs.map Prod.snd =
      (probs.pairs.map Prod.fst).map fun c => (l.count c : ℚ) / l.length := by
    rw [List.map_map]
    apply List.map_congr_left
    intro p hp
    have hlook := h p.1
    rw [mem_pairs.mp hp] at hlook
    split at hlook
    · exact Option.some.inj hlook
    · cases hlook
  have hlen : (l.length : ℚ) ≠ 0 := by
    rw [Nat.cast_ne_zero]
    exact (List.length_pos_of_ne_nil hne).ne'
  have hcount : (l.dedup.map fun c => (l.count c : ℚ)).sum = l.length := by
    rw [← l.sum_map_count_dedup_eq_length, Nat.cast_list_sum, List.map_map]
    rfl
  rw [hmap, (hkeys.map _).sum_eq]
  have hdiv : (l.dedup.map fun c => (l.count c : ℚ) / l.length).sum =
      ((l.dedup.map fun c => (l.count c : ℚ)).sum) / l.length := by
    simp only [div_eq_mul_inv, List.sum_map_mul_right]
  rw [hdiv, hcount, div_self hlen]

section Exact

variable (u : Unspecified S ℚ) {counts : UnorderedMap S Count} {l : List S}

/-- The probabilities are the frequencies exactly when the sum fits 32 bits. -/
theorem frequenciesOf_iff (h : CountsOf counts l) (hlen : l.length < 2 ^ 64) :
    FrequenciesOf (assignProbs u counts ∅) l ↔ l.length < 2 ^ 32 := by
  constructor
  · intro hfreq
    by_contra hlarge
    have hne : l ≠ [] := List.ne_nil_of_length_pos (by omega)
    obtain ⟨c, hc⟩ := List.exists_mem_of_ne_nil l hne
    have hlook := (lookup_assignProbs u h hlen c).symm.trans (hfreq c)
    rw [if_pos hc, if_pos hc, Option.some.injEq] at hlook
    have hcount : (l.count c : ℚ) ≠ 0 := by
      rw [Nat.cast_ne_zero]
      exact (List.count_pos_iff.mpr hc).ne'
    have hden : ((l.length % 2 ^ 32 : ℕ) : ℚ) = l.length := by
      rw [div_eq_mul_inv, div_eq_mul_inv] at hlook
      exact inv_injective (mul_left_cancel₀ hcount hlook)
    have hmod := Nat.cast_injective hden
    omega
  · intro hsmall c
    rw [lookup_assignProbs u h hlen, Nat.mod_eq_of_lt hsmall]

end Exact

namespace Chain

/-- All pairs of neighbours in the passwords. -/
def adjacent (pwds : List (List S)) : List (S × S) := pwds.flatMap neighbours

/-- The probabilities of a chain are the relative frequencies in the passwords. -/
structure ExactFrequencies (chain : Chain S ℚ) (pwds : List (List S)) : Prop where
  first : ∀ c, chain.mFirstSymbolProbs.lookup c =
    if ∃ pwd ∈ pwds, pwd.head? = some c then
      some ((pwds.countP (·.head? = some c) : ℚ) / pwds.length) else none
  next : ∀ a b, ((chain.mNodes.lookup a).bind fun node => node.probability b) =
    if (a, b) ∈ adjacent pwds then
      some (((adjacent pwds).count (a, b) : ℚ) / (adjacent pwds).countP (·.1 = a)) else none
  firstSum : (chain.mFirstSymbolSortedProbs.map Prod.snd).sum = 1
  sums : ∀ a node, chain.mNodes.lookup a = some node →
    (node.mSortedProbs.map Prod.snd).sum = 1

/-! ## The trained chain -/

/-- The first symbols of the passwords. -/
def firstSymbols (pwds : List (List S)) : List S := pwds.filterMap List.head?

omit [DecidableEq S] in
theorem mem_firstSymbols {pwds : List (List S)} {c : S} :
    c ∈ firstSymbols pwds ↔ ∃ pwd ∈ pwds, pwd.head? = some c := List.mem_filterMap

theorem count_firstSymbols (pwds : List (List S)) (c : S) :
    (firstSymbols pwds).count c = pwds.countP (·.head? = some c) := by
  unfold firstSymbols
  rw [List.count_filterMap]
  apply List.countP_congr
  intro pwd _
  rw [beq_iff_eq, decide_eq_true_eq]

omit [DecidableEq S] in
theorem length_firstSymbols {pwds : List (List S)} (h : ∀ pwd ∈ pwds, pwd ≠ []) :
    (firstSymbols pwds).length = pwds.length := by
  unfold firstSymbols
  rw [List.length_filterMap_eq_countP, List.countP_eq_length]
  intro pwd hpwd
  rw [List.isSome_head?]
  simpa using h pwd hpwd

section Trained

variable (u : Unspecified S ℚ) (pwds : List (List S))

/-- The chain before the update. -/
theorem counted_training :
    Counted (pwds.foldl (fun (chain : Chain S ℚ) pwd => (chain.train pwd).2) {})
      (firstSymbols pwds) (adjacent pwds) := Counted.trainAll pwds counted_empty

theorem trained_firsts : ∃ counts : UnorderedMap S Count, CountsOf counts (firstSymbols pwds) ∧
    (trained u pwds).mFirstSymbolProbs = assignProbs u counts ∅ := by
  have h := counted_training pwds
  refine ⟨_, h.firsts, ?_⟩
  unfold trained Chain.update
  rw [h.probs]

theorem trained_node {a : S} {node : Node S ℚ}
    (hnode : (trained u pwds).mNodes.lookup a = some node) :
    (∃ b, (a, b) ∈ adjacent pwds) ∧ ∃ counts : UnorderedMap S Count,
      CountsOf counts (followers (adjacent pwds) a) ∧ node.mProbs = assignProbs u counts ∅ := by
  have h := counted_training pwds
  unfold trained Chain.update at hnode
  rw [lookup_mapValues, Option.map_eq_some_iff] at hnode
  obtain ⟨old, hold, rfl⟩ := hnode
  obtain ⟨hcounts, hprobs⟩ := h.successors a old hold
  refine ⟨(h.nodes a).mp (AList.lookup_isSome.mp (by rw [hold]; rfl)), _, hcounts, ?_⟩
  unfold Node.update Node.postprocess
  rw [hprobs]

theorem mem_nodes_trained (a : S) :
    a ∈ (trained u pwds).mNodes ↔ ∃ b, (a, b) ∈ adjacent pwds := by
  rw [← (counted_training pwds).nodes a]
  exact mem_mapValues _ _ a

variable {pwds}

omit u in
theorem first_iff (h : ∀ pwd ∈ pwds, pwd ≠ []) (probs : UnorderedMap S ℚ) :
    FrequenciesOf probs (firstSymbols pwds) ↔ ∀ c, probs.lookup c =
      if ∃ pwd ∈ pwds, pwd.head? = some c then
        some ((pwds.countP (·.head? = some c) : ℚ) / pwds.length) else none := by
  unfold FrequenciesOf
  simp only [mem_firstSymbols, count_firstSymbols, length_firstSymbols h]

theorem next_iff :
    (∀ a node, (trained u pwds).mNodes.lookup a = some node →
      FrequenciesOf node.mProbs (followers (adjacent pwds) a)) ↔
    ∀ a b, (((trained u pwds).mNodes.lookup a).bind fun node => node.probability b) =
      if (a, b) ∈ adjacent pwds then
        some (((adjacent pwds).count (a, b) : ℚ) / (adjacent pwds).countP (·.1 = a)) else none := by
  unfold FrequenciesOf
  simp only [mem_followers, count_followers, length_followers]
  constructor
  · intro h a b
    cases hn : (trained u pwds).mNodes.lookup a with
    | some node => exact h a node hn b
    | none =>
      have hnot : (a, b) ∉ adjacent pwds := by
        intro hmem
        exact AList.lookup_eq_none.mp hn ((mem_nodes_trained u pwds a).mpr ⟨b, hmem⟩)
      rw [if_neg hnot]
      rfl
  · intro h a node hn b
    have hb := h a b
    rw [hn] at hb
    exact hb

/-- The nodes give the frequencies exactly when no symbol is in front of too many others. -/
theorem nodes_iff (hpairs : ∀ a, (adjacent pwds).countP (·.1 = a) < 2 ^ 64) :
    (∀ a node, (trained u pwds).mNodes.lookup a = some node →
      FrequenciesOf node.mProbs (followers (adjacent pwds) a)) ↔
    ∀ a, (adjacent pwds).countP (·.1 = a) < 2 ^ 32 := by
  have hnode : ∀ a node, (trained u pwds).mNodes.lookup a = some node →
      (FrequenciesOf node.mProbs (followers (adjacent pwds) a) ↔
        (adjacent pwds).countP (·.1 = a) < 2 ^ 32) := by
    intro a node hn
    obtain ⟨-, counts, hcounts, hprobs⟩ := trained_node u pwds hn
    have hiff := frequenciesOf_iff u hcounts (by rw [length_followers]; exact hpairs a)
    rwa [length_followers, ← hprobs] at hiff
  constructor
  · intro h a
    cases hn : (trained u pwds).mNodes.lookup a with
    | some node => exact (hnode a node hn).mp (h a node hn)
    | none =>
      have hzero : (adjacent pwds).countP (·.1 = a) = 0 := by
        rw [List.countP_eq_zero]
        rintro ⟨c, b⟩ hmem hc
        obtain rfl : c = a := by simpa using hc
        exact AList.lookup_eq_none.mp hn ((mem_nodes_trained u pwds c).mpr ⟨b, hmem⟩)
      rw [hzero]
      norm_num
  · intro h a node hn
    exact (hnode a node hn).mpr (h a)

/-- Without a password there is no probability to add up. -/
theorem trained_nil_firstSum :
    ((trained u ([] : List (List S))).mFirstSymbolSortedProbs.map Prod.snd).sum = 0 := by
  obtain ⟨counts, hcounts, hprobs⟩ := trained_firsts u ([] : List (List S))
  have hnone : (trained u ([] : List (List S))).mFirstSymbolProbs.pairs = [] := by
    rw [List.eq_nil_iff_forall_not_mem]
    rintro ⟨c, p⟩ hmem
    rw [mem_pairs, hprobs, lookup_assignProbs u hcounts (by simp [firstSymbols])] at hmem
    simp [firstSymbols] at hmem
  rw [((updated_trained u []).firsts.map Prod.snd).sum_eq, hnone]
  rfl

/-- Training gives the exact frequencies exactly when there is a password, and neither the number
of passwords nor that of the pairs with one first symbol needs more than 32 bits. -/
theorem frequencies_are_exact_iff (u : Unspecified S ℚ) (pwds : List (List S))
    (hne : ∀ pwd ∈ pwds, pwd ≠ []) (hlen : pwds.length < 2 ^ 64)
    (hpairs : ∀ a, (adjacent pwds).countP (·.1 = a) < 2 ^ 64) :
    ExactFrequencies (trained u pwds) pwds ↔
      pwds ≠ [] ∧ pwds.length < 2 ^ 32 ∧ ∀ a, (adjacent pwds).countP (·.1 = a) < 2 ^ 32 := by
  obtain ⟨counts, hcounts, hprobs⟩ := trained_firsts u pwds
  have hupdated := updated_trained u pwds
  have hlength := length_firstSymbols hne
  have hfirst := frequenciesOf_iff u hcounts (by rwa [hlength])
  rw [hlength, ← hprobs] at hfirst
  constructor
  · intro h
    refine ⟨?_, hfirst.mp ((first_iff hne _).mpr h.first), ?_⟩
    · rintro rfl
      exact absurd ((trained_nil_firstSum u).symm.trans h.firstSum) zero_ne_one
    · apply (nodes_iff u hpairs).mp
      exact (next_iff u).mpr h.next
  · rintro ⟨hsome, hsmall, hsmalls⟩
    have hfreq := hfirst.mpr hsmall
    have hfreqs := (nodes_iff u hpairs).mpr hsmalls
    refine ⟨(first_iff hne _).mp hfreq, (next_iff u).mp hfreqs, ?_, ?_⟩
    · rw [(hupdated.firsts.map Prod.snd).sum_eq]
      apply hfreq.sum_eq_one
      apply List.ne_nil_of_length_pos
      rw [hlength]
      exact List.length_pos_of_ne_nil hsome
    · intro a node hn
      rw [((hupdated.nodes a node hn).map Prod.snd).sum_eq]
      apply (hfreqs a node hn).sum_eq_one
      obtain ⟨⟨b, hb⟩, -⟩ := trained_node u pwds hn
      exact List.ne_nil_of_mem (mem_followers.mpr hb)

end Trained

/-! ## Examples -/

/-- Maps in the order of their last assignments and a stable sort. -/
def ratAssigned : Unspecified ℕ ℚ where
  order := inOrder
  sort less l := l.mergeSort fun a b => !less b a
  sort_perm _ l := List.mergeSort_perm l _

theorem frequencies_are_exact_iff_two :
    ExactFrequencies (trained ratAssigned [[1, 2], [1]]) [[1, 2], [1]] := by
  have hle : ∀ a, (adjacent [[1, 2], [1]]).countP (·.1 = a) ≤ 1 := fun a => List.countP_le_length
  apply (frequencies_are_exact_iff ratAssigned [[1, 2], [1]] (by simp) (by simp) ?_).mpr
  · exact ⟨by simp, by simp, fun a => (hle a).trans_lt (by norm_num)⟩
  · exact fun a => (hle a).trans_lt (by norm_num)

/-- With `2 ^ 32` passwords of one symbol the sum is zero. -/
theorem a_full_counter_loses_the_frequencies :
    ¬ ExactFrequencies (trained ratAssigned (List.replicate (2 ^ 32) [1]))
      (List.replicate (2 ^ 32) [1]) := by
  intro h
  have hne : ∀ pwd ∈ List.replicate (2 ^ 32) [1], pwd ≠ [] := by
    intro pwd hpwd
    rw [List.eq_of_mem_replicate hpwd]
    exact List.cons_ne_nil 1 []
  obtain ⟨counts, hcounts, hprobs⟩ := trained_firsts ratAssigned (List.replicate (2 ^ 32) [1])
  have hlength := length_firstSymbols hne
  rw [List.length_replicate] at hlength
  have hfreq := (first_iff hne _).mpr h.first
  rw [hprobs, frequenciesOf_iff ratAssigned hcounts (by rw [hlength]; norm_num), hlength] at hfreq
  exact absurd hfreq (lt_irrefl _)

end Chain

end pwned.markov
