-- Files of user names and passwords: the lines of the reader are the pairs,
-- and the guess of the separator decides whether it gives the passwords.
import Pwned.ReaderLines

namespace pwned.UserPasswordReader

/-- A line of a file as one of its pairs. -/
structure Credential where
  user : List UInt8
  password : List UInt8
  user_separator : ∀ sep ∈ possibleSeparators, sep ∉ user
  user_break : 10 ∉ user
  password_break : 10 ∉ password
  password_ne : password ≠ []
  fits : user.length + 1 + password.length ≤ 200

namespace Credential

def line (c : Credential) : List UInt8 := c.user ++ 58 :: c.password

theorem line_break (c : Credential) : 10 ∉ c.line := by
  have huser := c.user_break
  have hpassword := c.password_break
  simp [line, huser, hpassword]

/-- The other separators of a line are in its password. -/
theorem contains_line (c : Credential) {sep : UInt8} (h : sep ∈ possibleSeparators)
    (hne : sep ≠ 58) : c.line.contains sep = c.password.contains sep := by
  have huser := c.user_separator sep h
  rw [Bool.eq_iff_iff, List.contains_iff_mem, List.contains_iff_mem]
  simp [line, huser, hne]

theorem contains_colon (c : Credential) : c.line.contains 58 = true := by
  rw [List.contains_iff_mem]
  simp [line]

theorem passwordOf_line (c : Credential) (sep : UInt8) :
    passwordOf (some sep) c.line = behindSeparator (some sep) c.line := by
  apply if_neg
  have hfits := c.fits
  simp [line]
  omega

end Credential

theorem not_mem_removeCR {sep : UInt8} {l : List UInt8} (h : sep ∉ l) : sep ∉ removeCR l :=
  fun hmem => h (List.mem_of_mem_filter hmem)

namespace Credential

/-- With the right separator the password comes out, without its `\r`. -/
theorem behind_colon (c : Credential) : behindSeparator (some 58) c.line = removeCR c.password := by
  have huser := not_mem_removeCR (c.user_separator 58 (by decide))
  have hline : removeCR c.line = removeCR c.user ++ 58 :: removeCR c.password := by
    simp [removeCR, line]
  unfold behindSeparator
  dsimp only
  rw [hline, if_pos (by simp), dropWhile_append_of_not_mem huser]
  rfl

/-- With another one a part of the password is lost. -/
theorem behind_other (c : Credential) {sep : UInt8} (h : sep ∈ possibleSeparators) (hne : sep ≠ 58)
    (hmem : sep ∈ c.password) : behindSeparator (some sep) c.line ≠ c.password := by
  have huser := not_mem_removeCR (c.user_separator sep h)
  have hline : removeCR c.line = (removeCR c.user ++ [58]) ++ removeCR c.password := by
    simp [removeCR, line]
  have hfront : sep ∉ removeCR c.user ++ [58] := by simp [huser, hne]
  have hin : sep ∈ removeCR c.password := by
    rw [removeCR, List.mem_filter]
    exact ⟨hmem, by simpa using ne_cr_of_mem h⟩
  intro heq
  unfold behindSeparator at heq
  dsimp only at heq
  rw [hline, if_pos (List.mem_append_right _ hin), dropWhile_append_of_not_mem hfront] at heq
  have hlen := congrArg List.length heq
  have hshort : ((removeCR c.password).dropWhile (· != sep)).length ≤ c.password.length :=
    (List.length_dropWhile_le _ _).trans (List.length_filter_le _ _)
  have hpos := List.length_pos_of_ne_nil c.password_ne
  rw [List.length_tail] at hlen
  omega

end Credential

/-! ## The text of a file -/

/-- The lines of a file, each of them ended, or with no line break behind the last one. -/
def joinLines (terminated : Bool) (ls : List (List UInt8)) : List UInt8 :=
  if terminated then ls.flatMap (· ++ [10]) else [10].intercalate ls

theorem textLines_joinLines (terminated : Bool) {ls : List (List UInt8)} (hne : ls ≠ [])
    (h : ∀ l ∈ ls, 10 ∉ l) :
    textLines (joinLines terminated ls) = ls ++ if terminated then [[]] else [] := by
  unfold textLines joinLines
  cases terminated with
  | false =>
    rw [if_neg (by simp), List.splitOn_intercalate _ h hne]
    simp
  | true =>
    exact textLines_flatMap h

/-! ## The passwords of the pairs -/

section Pairs

variable (terminated : Bool) (cs : List Credential)

/-- The text of the pairs. -/
def pairText : List UInt8 := joinLines terminated (cs.map Credential.line)

/-- In how many of the first lines the separator is. -/
theorem linesWith_pairText (hne : cs ≠ []) (sep : UInt8) :
    linesWith (pairText terminated cs) sep = (cs.take 500).countP (·.line.contains sep) := by
  have hbreak : ∀ l ∈ cs.map Credential.line, 10 ∉ l := by
    intro l hl
    obtain ⟨c, -, rfl⟩ := List.mem_map.mp hl
    exact c.line_break
  have hlast : ((if terminated then [[]] else [] : List (List UInt8)).take
      (500 - (cs.map Credential.line).length)).countP (·.contains sep) = 0 := by
    rw [List.countP_eq_zero]
    intro l hl
    have hmem := List.mem_of_mem_take hl
    split at hmem
    · simp [List.mem_singleton.mp hmem]
    · cases hmem
  unfold linesWith pairText
  rw [textLines_joinLines terminated (by simpa using hne) hbreak, List.take_append,
    List.countP_append, hlast, ← List.map_take, List.countP_map]
  rfl

variable {cs}

theorem linesWith_colon (hne : cs ≠ []) :
    linesWith (pairText terminated cs) 58 = (cs.take 500).length := by
  rw [linesWith_pairText terminated cs hne, List.countP_eq_length]
  exact fun c _ => c.contains_colon

theorem linesWith_le (hne : cs ≠ []) (sep : UInt8) :
    linesWith (pairText terminated cs) sep ≤ (cs.take 500).length := by
  rw [linesWith_pairText terminated cs hne]
  apply List.countP_le_length

/-- A separator that is in as many lines as the colon is in all of the first passwords. -/
theorem all_contain_of_le (hne : cs ≠ []) {sep : UInt8} (h : sep ∈ possibleSeparators)
    (hsep : sep ≠ 58)
    (hle : (cs.take 500).length ≤ linesWith (pairText terminated cs) sep) :
    ∀ c ∈ cs.take 500, sep ∈ c.password := by
  rw [linesWith_pairText terminated cs hne] at hle
  have hall := List.countP_eq_length.mp (le_antisymm List.countP_le_length hle)
  intro c hc
  rw [← List.contains_iff_mem, ← c.contains_line h hsep]
  exact hall c hc

theorem le_of_all_contain (hne : cs ≠ []) {sep : UInt8} (h : sep ∈ possibleSeparators)
    (hsep : sep ≠ 58) (hall : ∀ c ∈ cs.take 500, sep ∈ c.password) :
    (cs.take 500).length ≤ linesWith (pairText terminated cs) sep := by
  rw [linesWith_pairText terminated cs hne]
  apply le_of_eq
  symm
  rw [List.countP_eq_length]
  intro c hc
  rw [c.contains_line h hsep, List.contains_iff_mem]
  exact hall c hc

/-- No other separator with a smaller code than the colon is in all of the first passwords. -/
def ColonWins (cs : List Credential) : Prop :=
  ∀ sep ∈ [9, 32], ¬ ∀ c ∈ cs.take 500, sep ∈ c.password

theorem guess_pairText (hne : cs ≠ []) :
    ∃ sep ∈ possibleSeparators, guess (pairText terminated cs) = some sep ∧
      (cs.take 500).length ≤ linesWith (pairText terminated cs) sep := by
  have hguess := isGuess_guess (pairText terminated cs)
  have hcolon := linesWith_colon terminated hne
  have hpos : 0 < (cs.take 500).length := by
    have := List.length_pos_of_ne_nil hne
    rw [List.length_take]
    omega
  cases hg : guess (pairText terminated cs) with
  | none =>
    rw [hg] at hguess
    have h0 := hguess 58 (by decide)
    omega
  | some sep =>
    rw [hg] at hguess
    refine ⟨sep, hguess.1, rfl, ?_⟩
    rw [← hcolon]
    exact hguess.2.2 58 (by decide)

/-- The map of the separators is ordered by their codes, so a tie is won by the smaller one. -/
theorem guess_eq_colon_iff (hne : cs ≠ []) :
    guess (pairText terminated cs) = some 58 ↔ ColonWins cs := by
  constructor
  · intro hg sep hsep hall
    have hcases : sep ∈ possibleSeparators ∧ sep ≠ 58 ∧ sep < 58 := by
      simp only [List.mem_cons, List.not_mem_nil, or_false] at hsep
      rcases hsep with rfl | rfl <;> decide
    have hlt := linesWith_lt_of_guess hg hcases.1 hcases.2.2
    have hge := le_of_all_contain terminated hne hcases.1 hcases.2.1 hall
    rw [linesWith_colon terminated hne] at hlt
    omega
  · intro hwins
    obtain ⟨sep, hsep, hg, hle⟩ := guess_pairText terminated hne
    rw [hg]
    simp only [possibleSeparators, List.mem_cons, List.not_mem_nil, or_false] at hsep
    rcases hsep with rfl | rfl | rfl | rfl
    · have hall := all_contain_of_le terminated hne (by decide) (by decide) hle
      exact absurd hall (hwins 9 (by decide))
    · have hall := all_contain_of_le terminated hne (by decide) (by decide) hle
      exact absurd hall (hwins 32 (by decide))
    · rfl
    · have hcolon : (58 : UInt8) ∈ possibleSeparators := by decide
      have hlt := linesWith_lt_of_guess hg hcolon (by decide)
      have hmax := linesWith_le terminated hne 59
      rw [linesWith_colon terminated hne] at hlt
      omega

theorem textLines_pairText (hne : cs ≠ []) :
    textLines (pairText terminated cs) =
      cs.map Credential.line ++ if terminated then [[]] else [] := by
  apply textLines_joinLines terminated (by simpa using hne)
  intro l hl
  obtain ⟨c, -, rfl⟩ := List.mem_map.mp hl
  exact c.line_break

/-- The results of `nextPassword`, with an empty one behind a last line break. -/
def expectedPasswords (cs : List Credential) : List (List UInt8) :=
  cs.map Credential.password ++ if terminated then [[]] else []

/-- The reader gives the passwords when each line does. -/
theorem yields_expected_iff (hne : cs ≠ []) (options : List UserPasswordReaderOptions) :
    Yields (create { content := pairText terminated cs } options).passwords
        (expectedPasswords terminated cs) ↔
      ∀ c ∈ cs, passwordOf (guess (pairText terminated cs)) c.line = c.password := by
  have hlast : (if terminated then [[]] else [] : List (List UInt8)).map
      (passwordOf (guess (pairText terminated cs))) = if terminated then [[]] else [] := by
    cases terminated <;> rfl
  have hresults := create_passwords (pairText terminated cs) options
  rw [textLines_pairText terminated hne, List.map_append, List.map_map, hlast] at hresults
  unfold expectedPasswords
  constructor
  · intro h
    have heq := List.append_cancel_right (h.unique hresults)
    intro c hc
    exact (List.map_inj_left.mp heq c hc).symm
  · intro h
    have heq : cs.map (passwordOf (guess (pairText terminated cs)) ∘ Credential.line) =
        cs.map Credential.password := List.map_congr_left h
    rwa [heq] at hresults

/-- The passwords come out whole exactly when the colon is guessed and none of them has a
carriage return. -/
theorem pairs_give_their_passwords_iff (terminated : Bool) (cs : List Credential)
    (options : List UserPasswordReaderOptions) (hne : cs ≠ []) :
    Yields (create { content := pairText terminated cs } options).passwords
        (expectedPasswords terminated cs) ↔
      ColonWins cs ∧ ∀ c ∈ cs, 13 ∉ c.password := by
  rw [yields_expected_iff terminated hne]
  constructor
  · intro h
    obtain ⟨sep, hsep, hg, hle⟩ := guess_pairText terminated hne
    have hcolon : sep = 58 := by
      by_contra hother
      obtain ⟨c, hc⟩ := List.exists_mem_of_ne_nil (cs.take 500) (by simpa using hne)
      have hmem := all_contain_of_le terminated hne hsep hother hle c hc
      have hline := h c (List.mem_of_mem_take hc)
      rw [hg, c.passwordOf_line] at hline
      exact c.behind_other hsep hother hmem hline
    subst hcolon
    refine ⟨(guess_eq_colon_iff terminated hne).mp hg, ?_⟩
    intro c hc hcr
    have hline := h c hc
    rw [hg, c.passwordOf_line, c.behind_colon] at hline
    rw [← hline, removeCR, List.mem_filter] at hcr
    simp at hcr
  · rintro ⟨hwins, hcr⟩ c hc
    rw [(guess_eq_colon_iff terminated hne).mpr hwins, c.passwordOf_line, c.behind_colon]
    apply List.filter_eq_self.mpr
    intro b hb
    rw [bne_iff_ne]
    rintro rfl
    exact hcr c hc hb

/-- `u:x y` -/
def spacedCredential : Credential where
  user := [117]
  password := [120, 32, 121]
  user_separator := by simp [possibleSeparators]
  user_break := by simp
  password_break := by simp
  password_ne := by simp
  fits := by simp

/-- `a:b` -/
def plainCredential : Credential where
  user := [97]
  password := [98]
  user_separator := by simp [possibleSeparators]
  user_break := by simp
  password_break := by simp
  password_ne := by simp
  fits := by simp

theorem pairs_give_their_passwords_iff_run :
    Yields (create { content := pairText true [spacedCredential, plainCredential] } []).passwords
      [[120, 32, 121], [98], []] := by
  have hwins : ColonWins [spacedCredential, plainCredential] := by
    intro sep hsep hall
    have hmem := hall plainCredential (by simp)
    simp only [List.mem_cons, List.not_mem_nil, or_false] at hsep
    rcases hsep with rfl | rfl <;> simp [plainCredential] at hmem
  apply (pairs_give_their_passwords_iff true _ [] (List.cons_ne_nil _ _)).mpr
  refine ⟨hwins, ?_⟩
  simp [spacedCredential, plainCredential]

/-- A space in the only password is taken for the separator. -/
theorem a_spaced_password_is_cut :
    ¬ Yields (create { content := pairText false [spacedCredential] } []).passwords
      (expectedPasswords false [spacedCredential]) := by
  have hcut := create_passwords (pairText false [spacedCredential]) []
  intro h
  have heq := h.unique hcut
  revert heq
  decide +kernel

end Pairs

end pwned.UserPasswordReader
