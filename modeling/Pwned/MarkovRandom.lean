-- Random symbols of a chain. The loop leaves its table at the first sum that
-- the draw is greater than.
import Pwned.Library.Cumulative
import Pwned.MarkovChain

open Cumulative

namespace pwned.markov

variable {S P : Type}

/-! ## The two functions -/

section Model

variable [Zero S] [Zero P] [Add P] [LT P] [DecidableLT P]

/-- The loop of `randomSuccessor` and `randomFirstSymbol`, for the draw `p`. -/
def drawSymbol (p : P) : P → List (S × P) → S
  | _, [] => 0
  | pAccumulated, symbol :: rest =>
    let pAccumulated := pAccumulated + symbol.2
    if pAccumulated < p then symbol.1 else drawSymbol p pAccumulated rest

/-- `randomSuccessor`, where `random()` gives `p`. -/
def Node.randomSuccessor (node : Node S P) (p : P) : S := drawSymbol p 0 node.mSortedProbs

/-- `randomFirstSymbol`, where `random()` gives `p`. -/
def Chain.randomFirstSymbol (chain : Chain S P) (p : P) : S :=
  drawSymbol p 0 chain.mFirstSymbolSortedProbs

end Model

/-! ## The distribution of a table -/

/-- Positive probabilities that sum to 1. -/
structure Proper (table : List (S × ℚ)) : Prop where
  pos : ∀ e ∈ table, 0 < e.2
  sum : (table.map Prod.snd).sum = 1

/-- `s` is the listed symbol whose interval holds the draw. -/
def Draws (table : List (S × ℚ)) (p : ℚ) (s : S) : Prop :=
  ∃ i e, table[i]? = some e ∧ Covers (table.map Prod.snd) i p ∧ e.1 = s

variable {table : List (S × ℚ)} {p : ℚ}

theorem Proper.weights (h : Proper table) : ∀ w ∈ table.map Prod.snd, 0 < w := by
  intro w hw
  obtain ⟨e, he, rfl⟩ := List.mem_map.mp hw
  exact h.pos e he

theorem upTo_one (e : S × ℚ) (table : List (S × ℚ)) :
    upTo ((e :: table).map Prod.snd) 1 = e.2 := by
  simp [upTo]

theorem covers_first {e : S × ℚ} (table : List (S × ℚ)) (h0 : 0 ≤ p) (hlt : p < e.2) :
    Covers ((e :: table).map Prod.snd) 0 p :=
  ⟨by simp, by rwa [upTo_zero], by rwa [zero_add, upTo_one]⟩

/-- A draw on the first sum belongs to the second entry, which there is: the first probability
is less than 1. -/
theorem Proper.covers_second {e : S × ℚ} (h : Proper (e :: table)) (heq : p = e.2)
    (h1 : p < 1) : Covers ((e :: table).map Prod.snd) 1 p := by
  have hlength : 1 < ((e :: table).map Prod.snd).length := by
    cases table with
    | nil =>
      have hsum := h.sum
      simp only [List.map_cons, List.map_nil, List.sum_singleton] at hsum
      linarith
    | cons e' table => simp
  refine ⟨hlength, by rw [upTo_one, heq], ?_⟩
  rw [heq, ← upTo_one e table]
  exact upTo_lt_succ h.weights hlength

theorem one_le_of_covers {e : S × ℚ} {i : ℕ} (h : Covers ((e :: table).map Prod.snd) i p)
    (hgt : e.2 < p) : 1 ≤ i := by
  rw [Nat.one_le_iff_ne_zero]
  rintro rfl
  have hlt := h.lt
  rw [zero_add, upTo_one] at hlt
  exact absurd hlt hgt.not_gt

/-- The draw lies in one interval, so it has one symbol. -/
theorem draws_iff_of_covers (h : Proper table) {i : ℕ} (hi : Covers (table.map Prod.snd) i p)
    (s : S) : Draws table p s ↔ (table[i]?).map Prod.fst = some s := by
  rw [Option.map_eq_some_iff]
  constructor
  · rintro ⟨j, e, he, hj, hs⟩
    rw [hj.unique h.weights hi] at he
    exact ⟨e, he, hs⟩
  · rintro ⟨e, he, hs⟩
    exact ⟨i, e, he, hi, hs⟩

/-! ## What the loop returns -/

section Draw

variable [Zero S]

/-- Once the draw is reached the sums only grow. -/
theorem drawSymbol_of_le (table : List (S × ℚ)) : ∀ acc : ℚ, p ≤ acc →
    (∀ e ∈ table, 0 < e.2) → drawSymbol p acc table = 0 := by
  induction table with
  | nil => exact fun _ _ _ => rfl
  | cons e table ih =>
    intro acc hle hpos
    have he := hpos e (by simp)
    unfold drawSymbol
    dsimp only
    rw [if_neg (by linarith)]
    apply ih _ (by linarith)
    exact fun e' he' => hpos e' (List.mem_cons_of_mem e he')

theorem drawSymbol_cons {e : S × ℚ} {table : List (S × ℚ)} (hpos : ∀ e' ∈ e :: table, 0 < e'.2) :
    drawSymbol p 0 (e :: table) = if e.2 < p then e.1 else 0 := by
  unfold drawSymbol
  dsimp only
  rw [zero_add]
  split
  · rfl
  · rename_i h
    apply drawSymbol_of_le _ _ (not_lt.mp h)
    exact fun e' he' => hpos e' (List.mem_cons_of_mem e he')

/-- The draw lies under the first probability and the first symbol is 0, or on it and the second
symbol is 0, or above it in the interval of an entry that lists the first symbol again. -/
def Lucky (table : List (S × ℚ)) (p : ℚ) : Prop :=
  (p < upTo (table.map Prod.snd) 1 ∧ (table[0]?).map Prod.fst = some 0) ∨
    (p = upTo (table.map Prod.snd) 1 ∧ (table[1]?).map Prod.fst = some 0) ∨
    ∃ i ≥ 1, Covers (table.map Prod.snd) i p ∧
      upTo (table.map Prod.snd) 1 < p ∧ (table[i]?).map Prod.fst = (table[0]?).map Prod.fst

/-- What the loop returns is the symbol of the draw only by luck. -/
theorem draws_drawSymbol_iff (h : Proper table) (h0 : 0 ≤ p) (h1 : p < 1) :
    Draws table p (drawSymbol p 0 table) ↔ Lucky table p := by
  cases table with
  | nil =>
    have hsum := h.sum
    simp at hsum
  | cons e table =>
    unfold Lucky
    rw [upTo_one, drawSymbol_cons h.pos]
    rcases lt_trichotomy p e.2 with hlt | heq | hgt
    · rw [if_neg hlt.not_gt, draws_iff_of_covers h (covers_first table h0 hlt)]
      constructor
      · exact fun hs => Or.inl ⟨hlt, hs⟩
      · rintro (⟨-, hs⟩ | ⟨heq, -⟩ | ⟨i, -, -, hgt, -⟩)
        · exact hs
        · exact absurd heq hlt.ne
        · exact absurd hgt hlt.not_gt
    · rw [if_neg heq.not_gt, draws_iff_of_covers h (h.covers_second heq h1)]
      constructor
      · exact fun hs => Or.inr (Or.inl ⟨heq, hs⟩)
      · rintro (⟨hlt, -⟩ | ⟨-, hs⟩ | ⟨i, -, -, hgt, -⟩)
        · exact absurd heq hlt.ne
        · exact hs
        · exact absurd heq hgt.ne'
    · rw [if_pos hgt]
      constructor
      · rintro ⟨i, e', he', hcovers, hs⟩
        refine Or.inr (Or.inr ⟨i, one_le_of_covers hcovers hgt, hcovers, hgt, ?_⟩)
        rw [he', Option.map_some, hs]
        rfl
      · rintro (⟨hlt, -⟩ | ⟨heq, -⟩ | ⟨i, -, hcovers, -, hs⟩)
        · exact absurd hlt hgt.not_gt
        · exact absurd heq hgt.ne'
        · exact (draws_iff_of_covers h hcovers e.1).mpr hs

end Draw

/-- Neither function returns the symbol of the draw but by luck. -/
theorem random_symbols_are_drawn_iff [Zero S] (h0 : 0 ≤ p) (h1 : p < 1) :
    (∀ node : Node S ℚ, Proper node.mSortedProbs →
      (Draws node.mSortedProbs p (node.randomSuccessor p) ↔ Lucky node.mSortedProbs p)) ∧
    ∀ chain : Chain S ℚ, Proper chain.mFirstSymbolSortedProbs →
      (Draws chain.mFirstSymbolSortedProbs p (chain.randomFirstSymbol p) ↔
        Lucky chain.mFirstSymbolSortedProbs p) :=
  ⟨fun _ h => draws_drawSymbol_iff h h0 h1, fun _ h => draws_drawSymbol_iff h h0 h1⟩

/-! ## Two symbols -/

/-- 1 and 2 with the same probability. -/
def evenNode : Node ℕ ℚ := { mSortedProbs := [(1, 1 / 2), (2, 1 / 2)] }

/-- 0 and 2 with the same probability. -/
def zeroNode : Node ℕ ℚ := { mSortedProbs := [(0, 1 / 2), (2, 1 / 2)] }

theorem proper_two (a b : ℕ) : Proper [(a, (1 / 2 : ℚ)), (b, 1 / 2)] := by
  constructor
  · intro e he
    simp only [List.mem_cons, List.not_mem_nil, or_false] at he
    rcases he with rfl | rfl <;> norm_num
  · norm_num

theorem random_symbols_are_drawn_iff_zero :
    Draws zeroNode.mSortedProbs (1 / 4) (zeroNode.randomSuccessor (1 / 4)) := by
  apply ((random_symbols_are_drawn_iff (by norm_num) (by norm_num)).1 zeroNode
    (proper_two 0 2)).mpr
  refine Or.inl ⟨?_, rfl⟩
  unfold zeroNode
  rw [upTo_one]
  norm_num

/-- A draw of 1/4 lies in the interval of 1, but 0 is returned. -/
theorem a_random_symbol_is_the_fallback :
    ¬ Draws evenNode.mSortedProbs (1 / 4) (evenNode.randomSuccessor (1 / 4)) := by
  have hproper : Proper evenNode.mSortedProbs := proper_two 1 2
  rw [Node.randomSuccessor, draws_drawSymbol_iff hproper (by norm_num) (by norm_num)]
  unfold Lucky evenNode
  rw [upTo_one]
  rintro (⟨-, hs⟩ | ⟨heq, -⟩ | ⟨i, -, -, hgt, -⟩)
  · cases hs
  · norm_num at heq
  · norm_num at hgt

end pwned.markov
