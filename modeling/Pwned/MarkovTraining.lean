-- The symbols of a Markov chain. Training adds no symbol that is not in the
-- passwords, and an update leaves the probabilities sorted.
import Pwned.MarkovChain

open UnorderedMap

namespace pwned.markov

variable {S P : Type}

/-- The successors of a node are among the symbols. -/
structure Node.Within (T : List S) (node : Node S P) : Prop where
  counts : ∀ d ∈ node.mCounts, d ∈ T
  probs : ∀ d ∈ node.mProbs, d ∈ T

theorem Node.within_empty (T : List S) : ({} : Node S P).Within T :=
  ⟨fun d hd => absurd hd (AList.notMem_empty d), fun d hd => absurd hd (AList.notMem_empty d)⟩

theorem sorted_perm [LT P] [DecidableLT P] (u : Unspecified S P) (probs : UnorderedMap S P) :
    (sorted u probs).Perm probs.pairs :=
  (u.sort_perm _ _).trans (u.order.perm probs)

variable [DecidableEq S]

/-- Every symbol that a chain knows is among the symbols. -/
structure Chain.Within (T : List S) (chain : Chain S P) : Prop where
  counts : ∀ c ∈ chain.mFirstSymbolCounts, c ∈ T
  probs : ∀ c ∈ chain.mFirstSymbolProbs, c ∈ T
  nodes : ∀ c ∈ chain.mNodes, c ∈ T
  successors : ∀ c node, chain.mNodes.lookup c = some node → node.Within T

/-! ## Training -/

theorem mem_increment {counts : UnorderedMap S Count} {c d : S} :
    d ∈ increment counts c ↔ d = c ∨ d ∈ counts := AList.mem_insert _

namespace Chain

theorem within_empty (T : List S) : ({} : Chain S P).Within T :=
  ⟨fun d hd => absurd hd (AList.notMem_empty d), fun d hd => absurd hd (AList.notMem_empty d),
    fun d hd => absurd hd (AList.notMem_empty d), fun c node h => by simp at h⟩

theorem Within.addFirst {T : List S} {chain : Chain S P} (h : chain.Within T) {a : S}
    (ha : a ∈ T) : (chain.addFirst a).Within T := by
  refine ⟨?_, h.probs, h.nodes, h.successors⟩
  intro d hd
  unfold Chain.addFirst at hd
  rcases mem_increment.mp hd with rfl | hd
  · exact ha
  · rcases mem_emplace.mp hd with rfl | hd
    · exact ha
    · exact h.counts d hd

theorem Within.addPair {T : List S} {chain : Chain S P} (h : chain.Within T) {a b : S}
    (ha : a ∈ T) (hb : b ∈ T) : (chain.addPair a b).Within T := by
  refine ⟨h.counts, h.probs, ?_, ?_⟩
  · intro c hc
    rcases (AList.mem_insert _).mp hc with rfl | hc
    · exact ha
    · rcases mem_emplace.mp hc with rfl | hc
      · exact ha
      · exact h.nodes c hc
  · intro c node hc
    unfold Chain.addPair at hc
    by_cases hca : c = a
    · subst hca
      have hold : ((chain.mNodes.lookup c).getD {}).Within T := by
        cases hlook : chain.mNodes.lookup c with
        | none => exact Node.within_empty T
        | some node => exact h.successors c node hlook
      rw [AList.lookup_insert, lookup_emplace, Option.some.injEq] at hc
      subst hc
      refine ⟨?_, hold.probs⟩
      intro d hd
      rcases mem_increment.mp hd with rfl | hd
      · exact hb
      · exact hold.counts d hd
    · rw [AList.lookup_insert_ne hca, lookup_emplace_ne hca] at hc
      exact h.successors c node hc

theorem Within.addPairs {T : List S} (pwd : List S) :
    ∀ {chain : Chain S P}, chain.Within T → (∀ c ∈ pwd, c ∈ T) → (chain.addPairs pwd).Within T := by
  induction pwd with
  | nil =>
    intro chain h _
    exact h
  | cons a rest ih =>
    intro chain h hT
    cases rest with
    | nil => exact h
    | cons b rest =>
      unfold Chain.addPairs
      exact ih (h.addPair (hT a (by simp)) (hT b (by simp)))
        fun c hc => hT c (List.mem_cons_of_mem a hc)

theorem Within.train {T : List S} {chain : Chain S P} (h : chain.Within T) {pwd : List S}
    (hT : ∀ c ∈ pwd, c ∈ T) : (chain.train pwd).2.Within T := by
  cases pwd with
  | nil => exact h
  | cons a rest => exact Within.addPairs (a :: rest) (h.addFirst (hT a (by simp))) hT

theorem counts_addPairs (pwd : List S) :
    ∀ chain : Chain S P, (chain.addPairs pwd).mFirstSymbolCounts = chain.mFirstSymbolCounts := by
  induction pwd with
  | nil =>
    intro chain
    rfl
  | cons a rest ih =>
    intro chain
    cases rest with
    | nil => rfl
    | cons b rest =>
      unfold Chain.addPairs
      rw [ih]
      rfl

/-- The first symbol of a password is counted. -/
theorem mem_counts_train {chain : Chain S P} {c : S} {pwd : List S} :
    c ∈ (chain.train pwd).2.mFirstSymbolCounts ↔
      pwd.head? = some c ∨ c ∈ chain.mFirstSymbolCounts := by
  cases pwd with
  | nil => simp [train]
  | cons a rest =>
    unfold train
    rw [counts_addPairs]
    unfold addFirst
    rw [mem_increment, mem_emplace, List.head?_cons, Option.some.injEq, eq_comm]
    constructor
    · rintro (h | h)
      · exact Or.inl h
      · exact h
    · exact Or.inr

theorem mem_counts_foldl_train (pwds : List (List S)) :
    ∀ {chain : Chain S P} {c : S}, (∃ pwd ∈ pwds, pwd.head? = some c) ∨
        c ∈ chain.mFirstSymbolCounts →
      c ∈ (pwds.foldl (fun (chain : Chain S P) pwd =>
        (chain.train pwd).2) chain).mFirstSymbolCounts := by
  induction pwds with
  | nil =>
    rintro chain c (⟨pwd, hmem, -⟩ | h)
    · cases hmem
    · exact h
  | cons w ws ih =>
    rintro chain c (⟨pwd, hmem, hhead⟩ | h)
    · rcases List.mem_cons.mp hmem with rfl | hmem
      · exact ih (Or.inr (mem_counts_train.mpr (Or.inl hhead)))
      · exact ih (Or.inl ⟨pwd, hmem, hhead⟩)
    · exact ih (Or.inr (mem_counts_train.mpr (Or.inr h)))

/-! A node stays, and the first symbol of a pair has one. -/

theorem mem_nodes_addPair {chain : Chain S P} {a b c : S} :
    c ∈ (chain.addPair a b).mNodes ↔ c = a ∨ c ∈ chain.mNodes := by
  unfold Chain.addPair
  rw [AList.mem_insert, mem_emplace]
  constructor
  · rintro (h | h)
    · exact Or.inl h
    · exact h
  · exact Or.inr

theorem mem_nodes_addPairs (pwd : List S) :
    ∀ {chain : Chain S P} {c : S}, c ∈ chain.mNodes → c ∈ (chain.addPairs pwd).mNodes := by
  induction pwd with
  | nil =>
    intro chain c h
    exact h
  | cons a rest ih =>
    intro chain c h
    cases rest with
    | nil => exact h
    | cons b rest =>
      unfold Chain.addPairs
      exact ih (mem_nodes_addPair.mpr (Or.inr h))

theorem mem_nodes_train {chain : Chain S P} {c : S} (pwd : List S) (h : c ∈ chain.mNodes) :
    c ∈ (chain.train pwd).2.mNodes := by
  cases pwd with
  | nil => exact h
  | cons a rest => exact mem_nodes_addPairs (a :: rest) h

theorem mem_nodes_train_pair (chain : Chain S P) (a b : S) (rest : List S) :
    a ∈ (chain.train (a :: b :: rest)).2.mNodes := by
  unfold Chain.train Chain.addPairs
  exact mem_nodes_addPairs (b :: rest) (mem_nodes_addPair.mpr (Or.inl rfl))

/-- Some password of two symbols gives the trained chain a node. -/
theorem exists_node_of_pair {pwds : List (List S)} (h : ∃ pwd ∈ pwds, 2 ≤ pwd.length) :
    ∀ chain : Chain S P,
      ∃ c, c ∈ (pwds.foldl (fun (chain : Chain S P) pwd => (chain.train pwd).2) chain).mNodes := by
  have hstay : ∀ (ws : List (List S)) (chain : Chain S P) (c : S), c ∈ chain.mNodes →
      c ∈ (ws.foldl (fun (chain : Chain S P) pwd => (chain.train pwd).2) chain).mNodes := by
    intro ws
    induction ws with
    | nil =>
      intro chain c hc
      exact hc
    | cons w ws ih =>
      intro chain c hc
      exact ih _ c (mem_nodes_train w hc)
  induction pwds with
  | nil =>
    obtain ⟨pwd, hmem, -⟩ := h
    cases hmem
  | cons w ws ih =>
    intro chain
    rw [List.foldl_cons]
    obtain ⟨pwd, hmem, hlen⟩ := h
    rcases List.mem_cons.mp hmem with rfl | hmem
    · rcases pwd with _ | ⟨a, _ | ⟨b, rest⟩⟩
      · simp at hlen
      · simp at hlen
      · exact ⟨a, hstay ws _ a (mem_nodes_train_pair chain a b rest)⟩
    · exact ih ⟨pwd, hmem, hlen⟩ _

end Chain

/-! ## Updating -/

section Update

variable [NatCast P] [Div P]

omit [DecidableEq S] in
theorem keys_assigned (u : Unspecified S P) (counts : UnorderedMap S Count) (sum : Count) :
    ((u.order.iterate counts).map fun p => (p.1, (probOf p.2 sum : P))).map Prod.fst =
      (u.order.iterate counts).map Prod.fst := by
  rw [List.map_map]
  rfl

theorem mem_assignProbs (u : Unspecified S P) {counts : UnorderedMap S Count}
    {probs : UnorderedMap S P} {d : S} :
    d ∈ assignProbs u counts probs ↔ d ∈ counts ∨ d ∈ probs := by
  unfold assignProbs
  dsimp only
  rw [mem_insertAll, keys_assigned, u.order.mem_keys]

variable [LT P] [DecidableLT P]

theorem Node.Within.update {T : List S} {node : Node S P} (h : node.Within T)
    (u : Unspecified S P) : (node.update u).Within T :=
  ⟨h.counts, fun d hd => ((mem_assignProbs u).mp hd).elim (h.counts d) (h.probs d)⟩

namespace Chain

theorem Within.update {T : List S} {chain : Chain S P} (h : chain.Within T)
    (u : Unspecified S P) : (chain.update u).Within T := by
  refine ⟨h.counts, ?_, ?_, ?_⟩
  · intro d hd
    exact ((mem_assignProbs u).mp hd).elim (h.counts d) (h.probs d)
  · intro c hc
    exact h.nodes c ((mem_mapValues _ _ c).mp hc)
  · intro c node hc
    unfold Chain.update at hc
    rw [lookup_mapValues, Option.map_eq_some_iff] at hc
    obtain ⟨old, hold, rfl⟩ := hc
    exact (h.successors c old hold).update u

theorem within_trained (u : Unspecified S P) (pwds : List (List S)) :
    (trained u pwds).Within pwds.flatten := by
  have hrun : ∀ (ws : List (List S)) (chain : Chain S P), chain.Within pwds.flatten →
      (∀ w ∈ ws, w ∈ pwds) →
      (ws.foldl (fun (chain : Chain S P) pwd => (chain.train pwd).2) chain).Within
        pwds.flatten := by
    intro ws
    induction ws with
    | nil =>
      intro chain h _
      exact h
    | cons w ws ih =>
      intro chain h hsub
      have hw : ∀ c ∈ w, c ∈ pwds.flatten := fun c hc =>
        List.mem_flatten.mpr ⟨w, hsub w (by simp), hc⟩
      exact ih _ (h.train hw) fun v hv => hsub v (List.mem_cons_of_mem w hv)
  exact (hrun pwds {} (within_empty _) fun _ h => h).update u

theorem mem_probs_trained (u : Unspecified S P) {pwds : List (List S)} {c : S}
    (h : ∃ pwd ∈ pwds, pwd.head? = some c) : c ∈ (trained u pwds).mFirstSymbolProbs :=
  (mem_assignProbs u).mpr (Or.inl (mem_counts_foldl_train pwds (Or.inl h)))

theorem nodes_trained_ne_nil (u : Unspecified S P) {pwds : List (List S)}
    (h : ∃ pwd ∈ pwds, 2 ≤ pwd.length) : (trained u pwds).mNodes.entries ≠ [] := by
  obtain ⟨c, hc⟩ := exists_node_of_pair (P := P) h {}
  have hmem : c ∈ (trained u pwds).mNodes := (mem_mapValues _ _ c).mpr hc
  intro h0
  rw [AList.mem_keys, AList.keys, h0] at hmem
  cases hmem

/-- The sorted probabilities are those of the maps. -/
structure Updated (chain : Chain S P) : Prop where
  firsts : chain.mFirstSymbolSortedProbs.Perm chain.mFirstSymbolProbs.pairs
  nodes : ∀ c node, chain.mNodes.lookup c = some node →
    node.mSortedProbs.Perm node.mProbs.pairs

theorem updated_update (u : Unspecified S P) (chain : Chain S P) : (chain.update u).Updated := by
  refine ⟨sorted_perm u _, ?_⟩
  intro c node hc
  unfold Chain.update at hc
  rw [lookup_mapValues, Option.map_eq_some_iff] at hc
  obtain ⟨old, -, rfl⟩ := hc
  exact sorted_perm u _

theorem updated_trained (u : Unspecified S P) (pwds : List (List S)) :
    (trained u pwds).Updated := updated_update u _

end Chain

end Update

end pwned.markov
