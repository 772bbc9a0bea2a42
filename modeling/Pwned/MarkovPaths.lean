-- The probability of a word: the loop follows the nodes, and an unseen
-- transition out of a node throws.
import Pwned.MarkovFrequencies

open UnorderedMap

namespace pwned.markov.Chain

variable {S : Type} [DecidableEq S]

/-! ## The probability of a path -/

section Path

variable (chain : Chain S ℚ)

/-- The probability of a first symbol, 0 where the chain has none. -/
def firstProbability (c : S) : ℚ := (chain.mFirstSymbolProbs.lookup c).getD 0

/-- The probability of `b` behind `a`, 0 where the chain has none. -/
def nextProbability (a b : S) : ℚ :=
  ((chain.mNodes.lookup a).bind fun node => node.probability b).getD 0

/-- The product over the transitions of a word. -/
def pathProduct (word : List S) : ℚ :=
  ((neighbours word).map fun p => chain.nextProbability p.1 p.2).prod

/-- The probability of a word. -/
def pathProbability (word : List S) : ℚ :=
  match word with
  | [] => 1
  | s :: rest => chain.firstProbability s * chain.pathProduct (s :: rest)

theorem pathProduct_singleton (a : S) : chain.pathProduct [a] = 1 := rfl

theorem pathProduct_cons (a b : S) (rest : List S) :
    chain.pathProduct (a :: b :: rest) =
      chain.nextProbability a b * chain.pathProduct (b :: rest) := rfl

end Path

/-- The first transition of the word that was not seen in training leaves a symbol with a
node. -/
inductive Breaks (pwds : List (List S)) : List S → Prop
  | here {a b : S} {rest : List S} (hnew : (a, b) ∉ adjacent pwds)
      (hnode : ∃ c, (a, c) ∈ adjacent pwds) : Breaks pwds (a :: b :: rest)
  | later {a b : S} {rest : List S} (hseen : (a, b) ∈ adjacent pwds)
      (hrest : Breaks pwds (b :: rest)) : Breaks pwds (a :: b :: rest)

/-! ## What a trained chain has seen -/

section Seen

variable (u : Unspecified S ℚ) (pwds : List (List S))

theorem mem_firsts_trained (c : S) :
    c ∈ (trained u pwds).mFirstSymbolProbs ↔ ∃ pwd ∈ pwds, pwd.head? = some c := by
  obtain ⟨counts, hcounts, hprobs⟩ := trained_firsts u pwds
  rw [hprobs, ← mem_firstSymbols, ← hcounts.mem_iff, mem_assignProbs]
  exact or_iff_left (AList.notMem_empty c)

/-- A node knows just the transitions that were seen. -/
theorem probability_eq_none_iff {a : S} {node : Node S ℚ}
    (hnode : (trained u pwds).mNodes.lookup a = some node) (b : S) :
    node.probability b = none ↔ (a, b) ∉ adjacent pwds := by
  obtain ⟨-, counts, hcounts, hprobs⟩ := trained_node u pwds hnode
  unfold Node.probability
  rw [AList.lookup_eq_none, hprobs, ← mem_followers, ← hcounts.mem_iff, mem_assignProbs]
  apply not_congr
  exact or_iff_left (AList.notMem_empty b)

/-- The first symbol is found in the sorted table as in the map. -/
theorem find_firsts (s : S) :
    (trained u pwds).mFirstSymbolSortedProbs.find? (·.1 == s) =
      ((trained u pwds).mFirstSymbolProbs.lookup s).map fun p => (s, p) := by
  have hperm := (updated_trained u pwds).firsts
  cases hs : (trained u pwds).mFirstSymbolProbs.lookup s with
  | none =>
    rw [Option.map_none, List.find?_eq_none]
    rintro ⟨c, p⟩ hmem heq
    obtain rfl : c = s := by simpa using heq
    rw [hperm.mem_iff, mem_pairs, hs] at hmem
    cases hmem
  | some p =>
    have hin := hperm.mem_iff.mpr (mem_pairs.mpr hs)
    cases hf : (trained u pwds).mFirstSymbolSortedProbs.find? (·.1 == s) with
    | none =>
      rw [List.find?_eq_none] at hf
      exact absurd (by simp) (hf (s, p) hin)
    | some found =>
      obtain ⟨c, q⟩ := found
      have hc : c = s := by simpa using List.find?_some hf
      have hmem := hperm.mem_iff.mp (List.mem_of_find?_eq_some hf)
      rw [hc, mem_pairs, hs] at hmem
      rw [hc, Option.some.inj hmem]
      rfl

end Seen

/-! ## The loop -/

section Follow

variable (u : Unspecified S ℚ) (pwds : List (List S))

/-- A transition out of a node, seen or not. -/
theorem follow_cons {a : S} {node : Node S ℚ}
    (hnode : (trained u pwds).mNodes.lookup a = some node) (p : ℚ) (b : S) (rest : List S) :
    (trained u pwds).follow (some node) p (b :: rest) =
      if (a, b) ∈ adjacent pwds then
        (trained u pwds).follow ((trained u pwds).mNodes.lookup b)
          (p * (trained u pwds).nextProbability a b) rest
      else none := by
  have hseen := probability_eq_none_iff u pwds hnode b
  have hstep : (trained u pwds).follow (some node) p (b :: rest) =
      (node.probability b).bind fun q =>
        (trained u pwds).follow ((trained u pwds).mNodes.lookup b) (p * q) rest := rfl
  rw [hstep]
  cases hp : node.probability b with
  | none =>
    rw [if_neg (hseen.mp hp)]
    rfl
  | some q =>
    have hmem : (a, b) ∈ adjacent pwds := by
      by_contra hnew
      rw [hseen.mpr hnew] at hp
      cases hp
    have hq : (trained u pwds).nextProbability a b = q := by
      unfold nextProbability
      rw [hnode, Option.bind_some, hp, Option.getD_some]
    rw [if_pos hmem, hq, Option.bind_some]

theorem exists_node {a : S} (h : ∃ c, (a, c) ∈ adjacent pwds) :
    ∃ node, (trained u pwds).mNodes.lookup a = some node := by
  rw [← mem_nodes_trained u, ← AList.lookup_isSome] at h
  exact Option.isSome_iff_exists.mp h

/-- `at` throws. -/
theorem follow_of_breaks {word : List S} (h : Breaks pwds word) :
    ∀ {a : S} {rest : List S}, word = a :: rest → ∀ p : ℚ,
      (trained u pwds).follow ((trained u pwds).mNodes.lookup a) p rest = none := by
  induction h with
  | here hnew hnode =>
    intro a rest heq p
    obtain ⟨rfl, rfl⟩ := List.cons.inj heq
    obtain ⟨node, hn⟩ := exists_node u pwds hnode
    rw [hn, follow_cons u pwds hn, if_neg hnew]
  | later hseen _ ih =>
    intro a rest heq p
    obtain ⟨rfl, rfl⟩ := List.cons.inj heq
    obtain ⟨node, hn⟩ := exists_node u pwds ⟨_, hseen⟩
    rw [hn, follow_cons u pwds hn, if_pos hseen]
    exact ih rfl _

/-- From a symbol on, the loop gives the product. -/
theorem follow_of_not_breaks (rest : List S) :
    ∀ (a : S) (p : ℚ), ¬ Breaks pwds (a :: rest) →
      (trained u pwds).follow ((trained u pwds).mNodes.lookup a) p rest =
        some (p * (trained u pwds).pathProduct (a :: rest)) := by
  induction rest with
  | nil =>
    intro a p _
    rw [pathProduct_singleton, mul_one]
    rfl
  | cons b rest ih =>
    intro a p h
    rw [pathProduct_cons]
    cases hn : (trained u pwds).mNodes.lookup a with
    | none =>
      -- nothing follows the symbol: the loop ends with 0
      have hzero : (trained u pwds).nextProbability a b = 0 := by
        unfold nextProbability
        rw [hn]
        rfl
      rw [hzero, zero_mul, mul_zero]
      rfl
    | some node =>
      have hsome : ∃ c, (a, c) ∈ adjacent pwds := by
        rw [← mem_nodes_trained u, ← AList.lookup_isSome, hn]
        rfl
      have hmem : (a, b) ∈ adjacent pwds := by
        by_contra hnew
        exact h (Breaks.here hnew hsome)
      rw [follow_cons u pwds hn, if_pos hmem, ← mul_assoc]
      apply ih
      exact fun hrest => h (Breaks.later hmem hrest)

/-- What `totalProbability` gives for a word. -/
theorem totalProbability_cons (s : S) (rest : List S) :
    (trained u pwds).totalProbability (s :: rest) =
      if ∃ pwd ∈ pwds, pwd.head? = some s then
        (trained u pwds).follow ((trained u pwds).mNodes.lookup s)
          ((trained u pwds).firstProbability s) rest
      else some 0 := by
  have hfirst := mem_firsts_trained u pwds s
  unfold totalProbability firstProbability
  dsimp only
  rw [find_firsts]
  cases hs : (trained u pwds).mFirstSymbolProbs.lookup s with
  | none =>
    rw [if_neg]
    · rfl
    · rw [← hfirst]
      exact AList.lookup_eq_none.mp hs
  | some p =>
    rw [if_pos]
    · rfl
    · rw [← hfirst, ← AList.lookup_isSome, hs]
      rfl

theorem firstProbability_of_new {s : S} (h : ¬ ∃ pwd ∈ pwds, pwd.head? = some s) :
    (trained u pwds).firstProbability s = 0 := by
  rw [← mem_firsts_trained u, ← AList.lookup_eq_none] at h
  unfold firstProbability
  rw [h]
  rfl

/-- The probability of a word comes out exactly when its first symbol is new, or the first new
transition of the word, if there is one, leaves a symbol without a node. -/
theorem the_total_probability_is_the_product_iff (word : List S) (hne : word ≠ []) :
    (trained u pwds).totalProbability word = some ((trained u pwds).pathProbability word) ↔
      ((∃ pwd ∈ pwds, pwd.head? = word.head?) → ¬ Breaks pwds word) := by
  obtain ⟨s, rest, rfl⟩ := List.exists_cons_of_ne_nil hne
  unfold pathProbability
  dsimp only
  rw [totalProbability_cons, List.head?_cons]
  by_cases hs : ∃ pwd ∈ pwds, pwd.head? = some s
  · rw [if_pos hs]
    constructor
    · intro heq _ hbreaks
      rw [follow_of_breaks u pwds hbreaks rfl] at heq
      cases heq
    · intro h
      exact follow_of_not_breaks u pwds rest s _ (h hs)
  · rw [if_neg hs, firstProbability_of_new u pwds hs, zero_mul]
    exact iff_of_true rfl fun h => absurd h hs

end Follow

theorem the_total_probability_is_the_product_iff_seen :
    (trained ratAssigned [[1, 2]]).totalProbability [1, 2] =
      some ((trained ratAssigned [[1, 2]]).pathProbability [1, 2]) := by
  apply (the_total_probability_is_the_product_iff ratAssigned [[1, 2]] [1, 2]
    (List.cons_ne_nil _ _)).mpr
  rintro - (⟨hnew, -⟩ | ⟨-, hrest⟩)
  · exact hnew (by decide)
  · cases hrest

/-- Nothing was seen between 1 and 1, but 1 has a node. -/
theorem an_unseen_transition_throws :
    ¬ (trained ratAssigned [[1, 2]]).totalProbability [1, 1] =
      some ((trained ratAssigned [[1, 2]]).pathProbability [1, 1]) := by
  have hbreaks : Breaks [[1, 2]] [1, 1] := Breaks.here (by decide) ⟨2, by decide⟩
  rw [totalProbability_cons, if_pos ⟨[1, 2], by simp, rfl⟩,
    follow_of_breaks ratAssigned _ hbreaks rfl]
  intro h
  cases h

end pwned.markov.Chain
