-- Files with `\r\n` and with `\n` behind their lines. The carriage returns are
-- removed from a line only after its length was checked.
import Pwned.HexDetection

namespace pwned.UserPasswordReader

section LineEndings

variable (ls : List (List UInt8))

/-- The lines, each ended by `\n`. -/
def lfText : List UInt8 := ls.flatMap (· ++ [10])

/-- The lines, each ended by `\r\n`. -/
def crlfText : List UInt8 := ls.flatMap (· ++ [13, 10])

/-- Lines without line endings in them. -/
def Plain : Prop := ∀ l ∈ ls, 13 ∉ l ∧ 10 ∉ l

variable {ls}

theorem textLines_lf (h : Plain ls) : textLines (lfText ls) = ls ++ [[]] :=
  textLines_flatMap fun l hl => (h l hl).2

theorem textLines_crlf (h : Plain ls) :
    textLines (crlfText ls) = ls.map (· ++ [13]) ++ [[]] := by
  have htext : crlfText ls = (ls.map (· ++ [13])).flatMap (· ++ [10]) := by
    rw [List.flatMap_map]
    simp [crlfText]
  rw [htext]
  apply textLines_flatMap
  intro l hl
  obtain ⟨l', hl', rfl⟩ := List.mem_map.mp hl
  have hbreak := (h l' hl').2
  simp [hbreak]

theorem removeCR_self {l : List UInt8} (h : 13 ∉ l) : removeCR l = l := by
  rw [removeCR, List.filter_eq_self]
  intro c hc
  rw [bne_iff_ne]
  rintro rfl
  exact h hc

theorem removeCR_snoc {l : List UInt8} (h : 13 ∉ l) : removeCR (l ++ [13]) = l := by
  have hl := removeCR_self h
  rw [removeCR] at hl
  rw [removeCR, List.filter_append, hl]
  simp

/-! ## The first lines -/

/-- What is counted or asked of the first lines is the same when it is the same of each. -/
theorem countP_firstLines (h : Plain ls) {p : List UInt8 → Bool}
    (hp : ∀ l, 13 ∉ l → p (l ++ [13]) = p l) (n : Nat) :
    ((textLines (crlfText ls)).take n).countP p = ((textLines (lfText ls)).take n).countP p := by
  rw [textLines_crlf h, textLines_lf h, List.take_append, List.take_append, List.countP_append,
    List.countP_append, List.length_map, ← List.map_take, List.countP_map]
  congr 1
  apply List.countP_congr
  intro l hl
  rw [Function.comp_apply, hp l (h l (List.mem_of_mem_take hl)).1]

theorem any_firstLines (h : Plain ls) {p : List UInt8 → Bool}
    (hp : ∀ l, 13 ∉ l → p (l ++ [13]) = p l) (n : Nat) :
    ((textLines (crlfText ls)).take n).any p = ((textLines (lfText ls)).take n).any p := by
  have hcount := countP_firstLines h hp n
  rw [Bool.eq_iff_iff, List.any_eq_true, List.any_eq_true, ← List.countP_pos_iff,
    ← List.countP_pos_iff, hcount]

theorem guess_crlf (h : Plain ls) : guess (crlfText ls) = guess (lfText ls) := by
  unfold guess
  congr 1
  funext sep
  apply countP_firstLines h
  intro l hl
  rw [removeCR_snoc hl, removeCR_self hl]

theorem found_digest_crlf (h : Plain ls) (sep : UInt8) :
    found removeCR searchMD5 (crlfText ls) sep = found removeCR searchMD5 (lfText ls) sep := by
  apply any_firstLines h
  intro l hl
  rw [removeCR_snoc hl, removeCR_self hl]

/-- A match in front of a carriage return does not reach it. -/
theorem searchHex_snoc (l : List UInt8) : searchHex (l ++ [13]) = searchHex l := by
  rw [Bool.eq_iff_iff, searchHex_iff, searchHex_iff]
  constructor
  · rintro ⟨front, s, tail, hl, hs⟩
    rcases List.eq_nil_or_concat tail with rfl | ⟨tail, c, rfl⟩
    · have hlast := congrArg List.getLast? hl
      simp [wrapped] at hlast
    · rw [List.concat_eq_append, ← List.append_assoc] at hl
      exact ⟨front, s, tail, (List.append_inj' hl rfl).1, hs⟩
  · rintro ⟨front, s, tail, rfl, hs⟩
    exact ⟨front, s, tail ++ [13], by simp, hs⟩

theorem found_hex_crlf (h : Plain ls) {sep : UInt8} (hsep : sep ≠ 13) :
    found id searchHex (crlfText ls) sep = found id searchHex (lfText ls) sep := by
  apply any_firstLines h
  intro l _
  have hcontains : (l ++ [13]).contains sep = l.contains sep := by
    rw [Bool.eq_iff_iff, List.contains_iff_mem, List.contains_iff_mem]
    simp [hsep]
  simp only [id, hcontains, searchHex_snoc]

theorem settings_crlf (h : Plain ls) (options : List UserPasswordReaderOptions) :
    SameSettings (create { content := lfText ls } options)
      (create { content := crlfText ls } options) := by
  have hsep : (guess (lfText ls)).getD 0 ≠ 13 := by
    cases hg : guess (lfText ls) with
    | none => decide
    | some sep => exact ne_cr_of_mem (prevails_of_guess hg).mem
  refine ⟨?_, ?_, ?_⟩
  · rw [create_guessedSeparator, create_guessedSeparator, guess_crlf h]
  · rw [create_hex, create_hex, guess_crlf h, found_hex_crlf h hsep]
  · rw [create_digest, create_digest, guess_crlf h, found_digest_crlf h]

/-! ## One line -/

section Line

variable (md5 : List UInt8 → Vector UInt8 16) (r : UserPasswordReader)

/-- Only an empty password gives no hash. -/
theorem passwordHash_isValid {p : List UInt8} (h : p ≠ []) :
    (r.passwordHash md5 p).isValid = true := by
  by_cases hdigits : r.forceEvaluateMD5Hashes = true ∧ Hash.WellFormed p
  · rw [passwordHash_digits h hdigits]
    rfl
  · rw [passwordHash_rest h hdigits]
    split <;> rfl

theorem extractPassword_snoc {l : List UInt8} (h : 13 ∉ l) :
    r.extractPassword (l ++ [13]) = r.extractPassword l := by
  unfold extractPassword
  rw [removeCR_snoc h, removeCR_self h]

/-- The carriage return counts for the length of the line. -/
theorem linePassword_snoc {l : List UInt8} (h : 13 ∉ l) :
    r.linePassword (l ++ [13]) = if l.length = 200 then [] else r.linePassword l := by
  unfold linePassword
  rw [extractPassword_snoc r h, List.length_append, List.length_singleton]
  by_cases h200 : l.length = 200
  · rw [if_pos h200, if_pos (by omega)]
  · rw [if_neg h200]
    by_cases hnil : l = []
    · subst hnil
      simp [extractPassword, removeCR]
    · have hpos := List.length_pos_of_ne_nil hnil
      apply if_congr _ rfl rfl
      omega

theorem lineHash_snoc_iff {l : List UInt8} (h : 13 ∉ l) :
    r.lineHash md5 (l ++ [13]) = r.lineHash md5 l ↔
      (l.length = 200 → r.extractPassword l = []) := by
  unfold lineHash
  rw [linePassword_snoc r h]
  by_cases hl : l.length = 200
  · have hpassword : r.linePassword l = r.extractPassword l := by
      unfold linePassword
      rw [if_neg (by omega)]
    rw [if_pos hl, hpassword]
    constructor
    · intro heq _
      by_contra hne
      have hvalid := passwordHash_isValid md5 r hne
      rw [← heq] at hvalid
      cases hvalid
    · intro hnil
      rw [hnil hl]
  · rw [if_neg hl]
    exact ⟨fun _ h200 => absurd h200 hl, fun _ => rfl⟩

end Line

/-- Nothing is behind the separator: its first occurrence ends the line. -/
theorem behindSeparator_eq_nil_iff {text l : List UInt8} (h : 13 ∉ l) (hne : l ≠ []) :
    behindSeparator (guess text) l = [] ↔
      ∃ user sep, Prevails text sep ∧ l = user ++ [sep] ∧ sep ∉ user := by
  unfold behindSeparator
  rw [removeCR_self h]
  cases hg : guess text with
  | none =>
    constructor
    · intro hnil
      exact absurd hnil hne
    · rintro ⟨-, sep, hsep, -⟩
      rw [← guess_eq_some_iff, hg] at hsep
      cases hsep
  | some s =>
    dsimp only
    constructor
    · intro hnil
      split at hnil
      · rename_i hmem
        obtain ⟨user, rest, rfl, huser⟩ := List.eq_append_cons_of_mem hmem
        rw [dropWhile_append_of_not_mem huser, List.dropWhile_cons] at hnil
        simp only [bne_self_eq_false, Bool.false_eq_true, if_false, List.tail_cons] at hnil
        rw [hnil]
        exact ⟨user, s, prevails_of_guess hg, rfl, huser⟩
      · exact absurd hnil hne
    · rintro ⟨user, sep, hsep, rfl, huser⟩
      rw [← guess_eq_some_iff, hg] at hsep
      obtain rfl := Option.some.inj hsep
      rw [if_pos (by simp), dropWhile_append_of_not_mem huser]
      simp

/-! ## The whole file -/

section Files

variable (md5 : List UInt8 → Vector UInt8 16) (options : List UserPasswordReaderOptions)

theorem sameHashes_crlf_iff (h : Plain ls) :
    SameHashes md5 (create { content := crlfText ls } options)
        (create { content := lfText ls } options) ↔
      ∀ l ∈ ls, (create { content := lfText ls } options).lineHash md5 (l ++ [13]) =
        (create { content := lfText ls } options).lineHash md5 l := by
  obtain ⟨hcrlf, hcrlfLines⟩ := create_lines (crlfText ls) options
  obtain ⟨hlf, hlfLines⟩ := create_lines (lfText ls) options
  have hhash : (create { content := crlfText ls } options).lineHash md5 =
      (create { content := lfText ls } options).lineHash md5 := by
    funext l
    exact (settings_crlf h options).lineHash_eq md5 l
  rw [sameHashes_iff_map md5 hcrlf hlf, hcrlfLines, hlfLines, hhash, textLines_crlf h,
    textLines_lf h, List.map_append, List.map_append, List.append_cancel_right_eq, List.map_map,
    List.map_inj_left]
  rfl

/-- The line endings make no difference exactly when each line of 200 characters ends with its
first separator. -/
theorem line_endings_make_no_difference_iff (h : Plain ls) :
    SameHashes md5 (create { content := crlfText ls } options)
        (create { content := lfText ls } options) ↔
      ∀ l ∈ ls, l.length = 200 →
        ∃ user sep, Prevails (lfText ls) sep ∧ l = user ++ [sep] ∧ sep ∉ user := by
  rw [sameHashes_crlf_iff md5 options h]
  apply forall₂_congr
  intro l hl
  have hplain := (h l hl).1
  rw [lineHash_snoc_iff md5 _ hplain]
  apply imp_congr_right
  intro hlen
  have hne : l ≠ [] := List.ne_nil_of_length_pos (by omega)
  rw [extractPassword_eq (create_guessedSeparator _ _) (guess_ne_zero _),
    behindSeparator_eq_nil_iff hplain hne]

theorem line_endings_make_no_difference_iff_short :
    SameHashes (fun _ => Vector.replicate 16 0)
      (create { content := crlfText [[97, 58, 98], []] } [.autoEvaluateMD5Hashes])
      (create { content := lfText [[97, 58, 98], []] } [.autoEvaluateMD5Hashes]) := by
  apply (line_endings_make_no_difference_iff _ _ (by simp [Plain])).mpr
  simp

theorem plain_replicate (n : Nat) : Plain [List.replicate n 97] := by
  intro l hl
  obtain rfl := List.mem_singleton.mp hl
  constructor
  · intro h
    exact absurd (List.eq_of_mem_replicate h) (by decide)
  · intro h
    exact absurd (List.eq_of_mem_replicate h) (by decide)

/-- A password of 200 characters is lost with `\r\n`. -/
theorem a_long_line_depends_on_its_ending :
    ¬ ∀ md5 options, SameHashes md5
      (create { content := crlfText [List.replicate 200 97] } options)
      (create { content := lfText [List.replicate 200 97] } options) := by
  have hplain := plain_replicate 200
  intro h
  have hmem : List.replicate 200 97 ∈ [List.replicate 200 (97 : UInt8)] := List.mem_singleton_self _
  have hlines := (sameHashes_crlf_iff (fun _ => Vector.replicate 16 0) [] hplain).mp (h _ _) _ hmem
  have hempty := (lineHash_snoc_iff _ _ (hplain _ hmem).1).mp hlines List.length_replicate
  revert hempty
  decide +kernel

end Files

end LineEndings

end pwned.UserPasswordReader
