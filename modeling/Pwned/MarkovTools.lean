-- The two tools around the Markov chain: the generator trains a chain on a
-- file of passwords and saves it, and the lookup loads it and answers words.
import Pwned.MarkovFile
import Pwned.MarkovFrequencies
import Pwned.ReaderLines

open UnorderedMap pwned UserPasswordReader

namespace pwned.markov

variable {S P : Type} [DecidableEq S]

/-- `utf_to_utf`. A symbol takes a byte at least, and there are fewer than `2 ^ 32` symbols. -/
structure Utf (S : Type) [DecidableEq S] where
  convert : List UInt8 → List S
  length_le : ∀ pwd, (convert pwd).length ≤ pwd.length
  few : ∀ pwds : List (List UInt8), (pwds.map convert).flatten.dedup.length < 2 ^ 32

theorem Utf.convert_nil (utf : Utf S) : utf.convert [] = [] :=
  List.length_eq_zero_iff.mp (Nat.le_zero.mp (utf.length_le []))

/-- The end of `main` is reached, or an exception leaves it. -/
inductive Ending
  | success
  | exception
  deriving DecidableEq

/-! ## The generator -/

section Generator

variable [NatCast P] [Div P] [LT P] [DecidableLT P] [Stored S 4] [Stored P 8]

/-- `train`, with the conversion of the password. -/
def Chain.trainText (utf : Utf S) (chain : Chain S P) (pwd : List UInt8) : Bool × Chain S P :=
  if pwd.isEmpty then (false, chain) else chain.train (utf.convert pwd)

/-- The generator, from the stream of the password file to the bytes of the Markov file. Without a
size of the password file `fs::file_size` throws. A file that cannot be opened is only reported. -/
def Generator.main (utf : Utf S) (u : Unspecified S P) (inputFile : TextStream)
    (fileSize : Option Nat) (fuel : Nat) : Option (List UInt8 × Ending) :=
  let reader := create inputFile [.autoEvaluateHexEncodedPasswords]
  match fileSize with
  | none => some ([], .exception)
  | some _ =>
    (loop (passwordTurn fun (chain : Chain S P) pwd => (chain.trainText utf pwd).2) fuel
      (reader, {})).map fun chain => ((chain.update u).saveBinary u, .success)

end Generator

/-! ## The lookup -/

namespace Lookup

def isspace (c : UInt8) : Bool := c == 32 || (9 ≤ c && c ≤ 13)

/-- What `cin >> pwd` gives for a typed text. At its end the password stays empty. -/
def words (cin : List UInt8) : List (List UInt8) := (cin.splitOnP isspace).filter (· ≠ [])

/-- The loop over the typed passwords, with what is printed. -/
def answers (totalProbability : List UInt8 → Option P) : List (List UInt8) → List P × Ending
  | [] => ([], .success)
  | pwd :: rest =>
    match totalProbability pwd with
    | none => ([], .exception)
    | some p => ((p :: (answers totalProbability rest).1), (answers totalProbability rest).2)

def main [Zero P] [One P] [Neg P] [Mul P] [LT P] [DecidableLT P] [Stored S 4] [Stored P 8]
    (utf : Utf S) (u : Unspecified S P) (inputFile : InputStream) (cin : List UInt8) :
    List P × Ending :=
  let (_, chain, _) := Chain.loadBinary u {} inputFile true
  answers (fun pwd => chain.totalProbability (utf.convert pwd)) (words cin)

end Lookup

namespace Chain

/-! ## The symbols and pairs of some passwords -/

section Sizes

omit [DecidableEq S]

theorem length_firstSymbols_le (pwds : List (List S)) :
    (firstSymbols pwds).length ≤ pwds.flatten.length := by
  induction pwds with
  | nil => simp [firstSymbols]
  | cons pwd pwds ih =>
    unfold firstSymbols at ih ⊢
    cases pwd with
    | nil =>
      rw [List.filterMap_cons_none rfl]
      simpa using ih
    | cons c pwd =>
      simp only [List.filterMap_cons, List.head?_cons, List.length_cons, List.flatten_cons,
        List.length_append]
      omega

theorem length_adjacent_le (pwds : List (List S)) :
    (adjacent pwds).length ≤ pwds.flatten.length := by
  unfold adjacent
  rw [List.length_flatMap, List.length_flatten]
  apply List.sum_le_sum
  intro pwd _
  simp [neighbours]

theorem adjacent_eq_nil {pwds : List (List S)} (h : ¬ ∃ pwd ∈ pwds, 2 ≤ pwd.length) :
    adjacent pwds = [] := by
  unfold adjacent
  rw [List.flatMap_eq_nil_iff]
  intro pwd hpwd
  have hshort : pwd.length < 2 := not_le.mp fun hlong => h ⟨pwd, hpwd, hlong⟩
  apply List.eq_nil_of_length_eq_zero
  simp only [neighbours, List.length_zip, List.length_tail]
  omega

end Sizes

/-! ## The estimate of a word -/

section Estimate

variable [NatCast P] [Div P]

/-- How often `c` is in the list, of the length that fits the sum. -/
def ratio (l : List S) (c : S) : P := (l.count c : P) / ((l.length % 2 ^ 32 : ℕ) : P)

/-- The ratios along a word are multiplied from its first symbol on. It ends with 0 behind a symbol
that nothing followed, and does not come out at another new transition. -/
def estimateFrom [Zero P] [Mul P] (pairs : List (S × S)) : P → S → List S → Option P
  | p, _, [] => some p
  | p, a, b :: rest =>
    if b ∈ followers pairs a then estimateFrom pairs (p * ratio (followers pairs a) b) b rest
    else if followers pairs a = [] then some 0
    else none

/-- What the passwords say about a word. -/
def estimate [Zero P] [One P] [Neg P] [Mul P] (pwds : List (List S)) : List S → Option P
  | [] => some (-1)
  | s :: rest =>
    if s ∈ firstSymbols pwds then
      estimateFrom (adjacent pwds) (ratio (firstSymbols pwds) s) s rest
    else some 0

variable {pwds pwds' : List (List S)}

theorem ratio_perm {l l' : List S} (h : l.Perm l') (c : S) : (ratio l c : P) = ratio l' c := by
  unfold ratio
  rw [h.count_eq, h.length_eq]

theorem estimateFrom_perm [Zero P] [Mul P] {pairs pairs' : List (S × S)} (h : pairs.Perm pairs')
    (rest : List S) :
    ∀ (p : P) (a : S), estimateFrom pairs p a rest = estimateFrom pairs' p a rest := by
  induction rest with
  | nil => intro p a; rfl
  | cons b rest ih =>
    intro p a
    have hfollowers : (followers pairs a).Perm (followers pairs' a) := (h.filter _).map _
    have hnil : followers pairs a = [] ↔ followers pairs' a = [] := by
      rw [← List.length_eq_zero_iff, ← List.length_eq_zero_iff, hfollowers.length_eq]
    unfold estimateFrom
    simp only [hfollowers.mem_iff, hnil, ratio_perm hfollowers, ih]

/-- The estimates do not depend on the order of the passwords. -/
theorem estimate_perm [Zero P] [One P] [Neg P] [Mul P] (h : pwds.Perm pwds') (word : List S) :
    (estimate pwds word : Option P) = estimate pwds' word := by
  cases word with
  | nil => rfl
  | cons s rest =>
    have hfirsts : (firstSymbols pwds).Perm (firstSymbols pwds') := h.filterMap _
    have hpairs : (adjacent pwds).Perm (adjacent pwds') := h.flatMap_right _
    unfold estimate
    simp only [hfirsts.mem_iff, ratio_perm hfirsts, estimateFrom_perm hpairs]

end Estimate

section Trained

variable [NatCast P] [Div P] [LT P] [DecidableLT P] (u : Unspecified S P) {pwds : List (List S)}

theorem lookup_first (hlen : (firstSymbols pwds).length < 2 ^ 64) (c : S) :
    (trained u pwds).mFirstSymbolProbs.lookup c =
      if c ∈ firstSymbols pwds then some (ratio (firstSymbols pwds) c) else none := by
  have h : Counted (P := P) _ (firstSymbols pwds) (adjacent pwds) :=
    Counted.trainAll pwds counted_empty
  obtain ⟨counts, hcounts, hprobs⟩ : ∃ counts : UnorderedMap S Count,
      CountsOf counts (firstSymbols pwds) ∧
        (trained u pwds).mFirstSymbolProbs = assignProbs u counts ∅ := by
    refine ⟨_, h.firsts, ?_⟩
    unfold trained Chain.update
    rw [h.probs]
  rw [hprobs]
  exact lookup_assignProbs u hcounts hlen c

theorem probability_node (hlen : (adjacent pwds).length < 2 ^ 64) {a : S} {node : Node S P}
    (hnode : (trained u pwds).mNodes.lookup a = some node) (b : S) :
    node.probability b =
      if b ∈ followers (adjacent pwds) a then some (ratio (followers (adjacent pwds) a) b)
      else none := by
  have h : Counted (P := P) _ (firstSymbols pwds) (adjacent pwds) :=
    Counted.trainAll pwds counted_empty
  unfold trained Chain.update at hnode
  rw [lookup_mapValues, Option.map_eq_some_iff] at hnode
  obtain ⟨old, hold, rfl⟩ := hnode
  obtain ⟨hcounts, hprobs⟩ := h.successors a old hold
  have hshort : (followers (adjacent pwds) a).length < 2 ^ 64 := by
    rw [length_followers]
    exact lt_of_le_of_lt List.countP_le_length hlen
  unfold Node.update Node.postprocess Node.probability
  rw [hprobs]
  exact lookup_assignProbs u hcounts hshort b

theorem lookup_node_eq_none (a : S) :
    (trained u pwds).mNodes.lookup a = none ↔ followers (adjacent pwds) a = [] := by
  have h : Counted (P := P) _ (firstSymbols pwds) (adjacent pwds) :=
    Counted.trainAll pwds counted_empty
  rw [AList.lookup_eq_none, List.eq_nil_iff_forall_not_mem]
  unfold trained Chain.update
  rw [mem_mapValues, h.nodes a, not_exists]
  simp only [mem_followers]

theorem no_nodes (u : Unspecified S P) {pwds : List (List S)}
    (h : ¬ ∃ pwd ∈ pwds, 2 ≤ pwd.length) : (trained u pwds).mNodes.entries = [] := by
  rw [List.eq_nil_iff_forall_not_mem]
  rintro ⟨a, node⟩ hmem
  have hnone : (trained u pwds).mNodes.lookup a = none := by
    rw [lookup_node_eq_none, adjacent_eq_nil h]
    rfl
  rw [AList.lookup_eq_none] at hnone
  exact hnone (List.mem_keys_of_mem hmem)

variable [Zero P] [Mul P]

theorem follow_trained (hlen : (adjacent pwds).length < 2 ^ 64) (rest : List S) :
    ∀ (a : S) (p : P), (trained u pwds).follow ((trained u pwds).mNodes.lookup a) p rest =
      estimateFrom (adjacent pwds) p a rest := by
  induction rest with
  | nil => intro a p; rfl
  | cons b rest ih =>
    intro a p
    cases hnode : (trained u pwds).mNodes.lookup a with
    | none =>
      have hnil := (lookup_node_eq_none u a).mp hnode
      simp [follow, estimateFrom, hnil]
    | some node =>
      have hsome : followers (adjacent pwds) a ≠ [] := fun hnil => by
        rw [(lookup_node_eq_none u a).mpr hnil] at hnode
        cases hnode
      unfold follow estimateFrom
      rw [probability_node u hlen hnode b]
      split
      · exact ih b _
      · rfl

/-- The chain answers with the estimate, division by division and product by product. -/
theorem totalProbability_trained [One P] [Neg P] (hfirsts : (firstSymbols pwds).length < 2 ^ 64)
    (hlen : (adjacent pwds).length < 2 ^ 64) (word : List S) :
    (trained u pwds).totalProbability word = estimate pwds word := by
  cases word with
  | nil => rfl
  | cons s rest =>
    have hfind := find_of_perm (updated_trained u pwds).firsts s
    rw [lookup_first u hfirsts] at hfind
    by_cases hs : s ∈ firstSymbols pwds
    · simp only [totalProbability, estimate, hfind, hs, if_true, Option.map_some]
      exact follow_trained u hlen rest s _
    · simp only [totalProbability, estimate, hfind, hs, if_false, Option.map_none]

end Trained

/-- A chain without nodes and first symbols. -/
theorem totalProbability_empty [Zero P] [One P] [Neg P] [Mul P] (word : List S) :
    ({} : Chain S P).totalProbability word = if word = [] then some (-1) else some 0 := by
  cases word with
  | nil => rfl
  | cons s rest => rfl

end Chain

/-! ## From the text to the answers -/

section Tools

open Chain

variable (utf : Utf S)

/-- The passwords of a text as symbols. -/
def symbols (text : List UInt8) : List (List S) :=
  ((textLines text).map (passwordOf (guess text))).map utf.convert

theorem length_passwordOf (sep : Option UInt8) (line : List UInt8) :
    (passwordOf sep line).length ≤ line.length := by
  have hcr : (removeCR line).length ≤ line.length := List.length_filter_le _ _
  unfold passwordOf behindSeparator
  split
  · simp
  · cases sep with
    | none => exact hcr
    | some sep =>
      dsimp only
      split
      · have hdrop := (List.dropWhile_suffix (· != sep) (l := removeCR line)).length_le
        rw [List.length_tail]
        omega
      · exact hcr

theorem length_flatten_le_intercalate (ls : List (List UInt8)) :
    ls.flatten.length ≤ ([10].intercalate ls).length := by
  induction ls with
  | nil => simp
  | cons l ls ih =>
    cases ls with
    | nil => simp [List.intercalate]
    | cons l' ls =>
      simp only [List.intercalate, List.intersperse_cons_cons, List.flatten_cons,
        List.length_append] at ih ⊢
      omega

/-- The passwords have no more symbols than the text has bytes. -/
theorem length_symbols_le (text : List UInt8) :
    (symbols utf text).flatten.length ≤ text.length := by
  have hlines := length_flatten_le_intercalate (textLines text)
  rw [textLines, List.intercalate_splitOn, ← textLines] at hlines
  refine le_trans ?_ hlines
  unfold symbols
  rw [List.map_map, List.length_flatten, List.length_flatten, List.map_map]
  apply List.sum_le_sum
  intro line _
  exact (utf.length_le _).trans (length_passwordOf _ _)

/-- An empty password trains as nothing does. -/
theorem trainText_eq (chain : Chain S P) (pwd : List UInt8) :
    (chain.trainText utf pwd).2 = (chain.train (utf.convert pwd)).2 := by
  unfold trainText
  split
  · rename_i hempty
    rw [List.isEmpty_iff.mp hempty, utf.convert_nil]
    rfl
  · rfl

variable [NatCast P] [Div P] [LT P] [DecidableLT P] [Stored S 4] [Stored P 8]

/-- The generator writes the file of the chain that is trained on the passwords of the text. -/
theorem Generator.main_yields (u : Unspecified S P) (text : List UInt8) (size : Nat) :
    Yields (Generator.main utf u { content := text } (some size))
      ((trained u (symbols utf text)).saveBinary u, .success) := by
  have hloop := passwordTurn_yields
    (fun (chain : Chain S P) pwd => (chain.trainText utf pwd).2) text
    [.autoEvaluateHexEncodedPasswords] {}
  have hfold : ((textLines text).map (passwordOf (guess text))).foldl
      (fun (chain : Chain S P) pwd => (chain.trainText utf pwd).2) {} =
      (symbols utf text).foldl (fun (chain : Chain S P) pwd => (chain.train pwd).2) {} := by
    simp only [symbols, List.foldl_map, trainText_eq]
  rw [hfold] at hloop
  exact hloop.map _

/-- The generator does not end on a file that it cannot open or read to the end, as long as the
size of the file is known. -/
theorem Generator.main_ends_iff (u : Unspecified S P) (inputFile : TextStream)
    (fileSize : Option Nat) :
    Ends (Generator.main utf u inputFile fileSize) ↔
      fileSize = none ∨ inputFile.isOpen = true ∧ inputFile.broken = false := by
  cases fileSize with
  | none => exact ⟨fun _ => Or.inl rfl, fun _ => ⟨_, .of_eq fun _ => rfl⟩⟩
  | some size =>
    simp only [reduceCtorEq, false_or]
    constructor
    · intro hends
      by_contra hno
      exact ((passwordTurn_diverges _ (stuck_create _ hno) _).map _).not_ends hends
    · rintro ⟨hopen, hb⟩
      exact ⟨_, (passwordTurn_folds _ (healthy_create _ hopen hb) _).map _⟩

variable [Zero P] [One P] [Neg P] [Mul P]

/-- What the file of a trained chain says about a word. Without a pair of symbols it is empty. -/
def saved (pwds : List (List S)) (word : List S) : Option P :=
  if ∃ pwd ∈ pwds, 2 ≤ pwd.length then estimate pwds word
  else if word = [] then some (-1)
  else some 0

/-- What the lookup makes of the file of a trained chain. -/
theorem totalProbability_loaded (u v : Unspecified S P) {pwds : List (List S)}
    (hlen : pwds.flatten.length < 2 ^ 64) (hfew : pwds.flatten.dedup.length < 2 ^ 32)
    (word : List S) :
    (Chain.loadBinary v {} { content := (trained u pwds).saveBinary u } true).2.1.totalProbability
      word = saved pwds word := by
  unfold saved
  split
  · rename_i hpair
    have hu := updated_trained u pwds
    have hfits := (within_trained u pwds).fits hu hfew
    obtain ⟨is, hload⟩ := loadBinary_saveBinary u v hfits (nodes_trained_ne_nil u hpair) {}
    have hsame := (sameNodes_loaded u v hu.nodes).sameAnswers rfl
    rw [hload, hsame.totals]
    exact totalProbability_trained u ((length_firstSymbols_le pwds).trans_lt hlen)
      ((length_adjacent_le pwds).trans_lt hlen) word
  · rename_i hpair
    have hsave : (trained u pwds).saveBinary u = [] := by
      unfold saveBinary
      rw [if_pos (by rw [no_nodes u hpair]; rfl)]
    have hload : (Chain.loadBinary v {} { content := [] } true).2.1 = ({} : Chain S P) := rfl
    rw [hsave, hload, totalProbability_empty]

/-- The generator ends on every file that can be opened and read to its end, and on no other file of
a known size. The lookup on what it has written prints for one typed password after the other what
the lines of the text say about it, until one of them has no estimate. -/
theorem the_lookup_prints_the_estimates (u v : Unspecified S P) (size : Nat) :
    (∀ inputFile, Ends (Generator.main utf u inputFile (some size)) ↔
      inputFile.isOpen = true ∧ inputFile.broken = false) ∧
    ∀ text : List UInt8, text.length < 2 ^ 64 → ∃ file,
      Yields (Generator.main utf u { content := text } (some size)) (file, .success) ∧
      ∀ cin, Lookup.main utf v { content := file } cin =
        Lookup.answers (fun pwd => saved (symbols utf text) (utf.convert pwd))
          (Lookup.words cin) := by
  constructor
  · intro inputFile
    rw [Generator.main_ends_iff]
    simp
  · intro text hlen
    refine ⟨_, Generator.main_yields utf u text size, fun cin => ?_⟩
    have htotal := fun word => totalProbability_loaded u v
      ((length_symbols_le utf text).trans_lt hlen) (utf.few _) word
    unfold Lookup.main
    simp only [htotal]

omit [LT P] [DecidableLT P] [Stored S 4] [Stored P 8] in
theorem saved_perm {pwds pwds' : List (List S)} (h : pwds.Perm pwds') (word : List S) :
    (saved pwds word : Option P) = saved pwds' word := by
  unfold saved
  simp only [h.mem_iff]
  rw [estimate_perm h]

/-- The order of the lines makes no difference to the lookup, as long as the same separator is
guessed from the first of them, and neither do the orders of the hash maps. -/
theorem the_order_of_the_lines_makes_no_difference (u v u' v' : Unspecified S P)
    {text text' : List UInt8} (size size' : Nat) (cin : List UInt8) (hlen : text.length < 2 ^ 64)
    (hlines : (textLines text).Perm (textLines text')) (hguess : guess text = guess text') :
    ∃ file file', Yields (Generator.main utf u { content := text } (some size)) (file, .success) ∧
      Yields (Generator.main utf u' { content := text' } (some size')) (file', .success) ∧
      Lookup.main utf v { content := file } cin = Lookup.main utf v' { content := file' } cin := by
  have hsymbols : (symbols utf text).Perm (symbols utf text') := by
    unfold symbols
    rw [hguess]
    exact (hlines.map _).map _
  have hshort := (length_symbols_le utf text).trans_lt hlen
  have htotal := fun word => totalProbability_loaded u v hshort (utf.few _) word
  have hshort' : (symbols utf text').flatten.length < 2 ^ 64 := by
    rwa [← hsymbols.flatten.length_eq]
  have htotal' := fun word => totalProbability_loaded u' v' hshort' (utf.few _) word
  refine ⟨_, _, Generator.main_yields utf u text size, Generator.main_yields utf u' text' size', ?_⟩
  unfold Lookup.main
  simp only [htotal, htotal']
  congr 1
  funext pwd
  exact saved_perm hsymbols _

end Tools

/-! ### Two passwords -/

section Two

/-- The symbols of ASCII text. Other bytes are left out. -/
def asciiUtf : Utf (BitVec 32) where
  convert pwd := (pwd.filter (· < 128)).map fun c => BitVec.ofNat 32 c.toNat
  length_le pwd := by
    rw [List.length_map]
    exact List.length_filter_le _ _
  few pwds := by
    have hsub : (pwds.map fun pwd => (pwd.filter (· < 128)).map
        fun c : UInt8 => BitVec.ofNat 32 c.toNat).flatten.dedup ⊆
        (List.range 256).map (BitVec.ofNat 32) := by
      intro s hs
      obtain ⟨l, hl, hsl⟩ := List.mem_flatten.mp (List.mem_dedup.mp hs)
      obtain ⟨pwd, -, rfl⟩ := List.mem_map.mp hl
      obtain ⟨c, -, rfl⟩ := List.mem_map.mp hsl
      exact List.mem_map.mpr ⟨c.toNat, List.mem_range.mpr c.toNat_lt, rfl⟩
    have hle := ((List.nodup_dedup _).subperm hsub).length_le
    rw [List.length_map, List.length_range] at hle
    omega

/-- `ab` and `c` -/
def twoPasswords : List UInt8 := [97, 98, 10, 99]

def twoReversed : List UInt8 := [99, 10, 97, 98]

theorem the_lookup_prints_the_estimates_two :
    ∃ file, Yields (Generator.main asciiUtf Chain.asAssigned { content := twoPasswords } (some 4))
        (file, .success) ∧
      ∀ cin, Lookup.main asciiUtf Chain.asAssigned { content := file } cin =
        Lookup.answers (fun pwd => saved (symbols asciiUtf twoPasswords) (asciiUtf.convert pwd))
          (Lookup.words cin) :=
  (the_lookup_prints_the_estimates asciiUtf _ _ 4).2 twoPasswords (by decide)

theorem the_order_of_the_lines_makes_no_difference_two :
    ∃ file file',
      Yields (Generator.main asciiUtf Chain.asAssigned { content := twoPasswords } (some 4))
        (file, .success) ∧
      Yields (Generator.main asciiUtf Chain.asAssigned { content := twoReversed } (some 4))
        (file', .success) ∧
      Lookup.main asciiUtf Chain.asAssigned { content := file } [97, 98] =
        Lookup.main asciiUtf Chain.asAssigned { content := file' } [97, 98] :=
  the_order_of_the_lines_makes_no_difference asciiUtf _ _ _ _ 4 4 _ (by decide) (by decide +kernel)
    (by decide +kernel)

end Two

end pwned.markov
