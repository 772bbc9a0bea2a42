-- The detection of hex strings: it looks at the lines as they are, and the
-- passwords are taken out of them later.
import Pwned.HexPasswords
import Pwned.ReaderLines

namespace pwned.UserPasswordReader

/-- The line has the separator of the text, a zero byte where the text has none. -/
def HasSeparator (text line : List UInt8) : Prop :=
  (∃ sep, Prevails text sep ∧ sep ∈ line) ∨
    (∀ sep ∈ possibleSeparators, linesWith text sep = 0) ∧ 0 ∈ line

theorem hasSeparator_iff (text line : List UInt8) :
    HasSeparator text line ↔ (guess text).getD 0 ∈ line := by
  unfold HasSeparator
  cases hg : guess text with
  | none =>
    have hnone := (guess_eq_none_iff text).mp hg
    constructor
    · rintro (⟨sep, hsep, -⟩ | ⟨-, h⟩)
      · rw [← guess_eq_some_iff, hg] at hsep
        cases hsep
      · exact h
    · intro h
      exact .inr ⟨hnone, h⟩
  | some s =>
    have hs := prevails_of_guess hg
    constructor
    · rintro (⟨sep, hsep, h⟩ | ⟨hnone, -⟩)
      · rw [← guess_eq_some_iff, hg] at hsep
        rwa [Option.some.inj hsep]
      · exact absurd (hnone s hs.mem) hs.pos.ne'
    · intro h
      exact .inl ⟨s, hs, h⟩

theorem found_iff (prep : List UInt8 → List UInt8) (search : List UInt8 → Bool)
    (text : List UInt8) :
    found prep search text ((guess text).getD 0) = true ↔
      ∃ l ∈ (textLines text).take 500, HasSeparator text (prep l) ∧ search (prep l) = true := by
  unfold found
  rw [List.any_eq_true]
  apply exists_congr
  intro l
  rw [Bool.and_eq_true, List.contains_iff_mem, hasSeparator_iff]
  rfl

/-- The reader of a text with a single option. -/
def readerOf (text : List UInt8) (o : UserPasswordReaderOptions) : UserPasswordReader :=
  create { content := text } [o]

/-- A password with hex digits is in one of the first lines. -/
def HasHexPassword (text : List UInt8) : Prop :=
  ∃ l ∈ (textLines text).take 500, l.length ≤ 200 ∧
    ∃ s, (readerOf text .autoEvaluateHexEncodedPasswords).extractPassword l = wrapped s ∧
      s ≠ [] ∧ s.length % 2 = 0 ∧ ∀ c ∈ s, IsHexDigit c

theorem sameHashes_iff_map (md5 : List UInt8 → Vector UInt8 16) {r r' : UserPasswordReader}
    (hr : r.input.Healthy) (hr' : r'.input.Healthy) :
    SameHashes md5 r r' ↔
      r.input.remaining.map (r.lineHash md5) = r'.input.remaining.map (r'.lineHash md5) := by
  have hyields := hashes_yields md5 hr
  have hyields' := hashes_yields md5 hr'
  unfold SameHashes
  constructor
  · rintro ⟨out, hout, hout'⟩
    rw [hyields.unique hout, hyields'.unique hout']
  · intro h
    exact ⟨_, hyields, h ▸ hyields'⟩

/-- Two readers of one text give the same hashes when each line gives the same hash. -/
theorem sameHashes_iff (md5 : List UInt8 → Vector UInt8 16) (text : List UInt8)
    {r r' : UserPasswordReader} (hr : r.input.Healthy ∧
    r.input.remaining = textLines text) (hr' : r'.input.Healthy ∧
    r'.input.remaining = textLines text) :
    SameHashes md5 r r' ↔ ∀ l ∈ textLines text, r.lineHash md5 l = r'.lineHash md5 l := by
  rw [sameHashes_iff_map md5 hr.1 hr'.1, hr.2, hr'.2, List.map_inj_left]

section Detection

variable (text : List UInt8)

theorem settings_readerOf (o o' : UserPasswordReaderOptions)
    (hdigest : (readerOf text o).forceEvaluateMD5Hashes =
      (readerOf text o').forceEvaluateMD5Hashes)
    (hhex : (readerOf text o).forceEvaluateHexEncodedPasswords =
      (readerOf text o').forceEvaluateHexEncodedPasswords) :
    SameSettings (readerOf text o) (readerOf text o') := by
  refine ⟨?_, hhex.symm, hdigest.symm⟩
  unfold readerOf
  rw [create_guessedSeparator, create_guessedSeparator]

theorem extractPassword_readerOf (o o' : UserPasswordReaderOptions) (l : List UInt8) :
    (readerOf text o).extractPassword l = (readerOf text o').extractPassword l := by
  unfold readerOf extractPassword
  rw [create_guessedSeparator, create_guessedSeparator]

theorem sameHashes_readerOf_iff (md5 : List UInt8 → Vector UInt8 16)
    (o o' : UserPasswordReaderOptions) :
    SameHashes md5 (readerOf text o) (readerOf text o') ↔
      ∀ l ∈ textLines text, (readerOf text o).lineHash md5 l = (readerOf text o').lineHash md5 l :=
  sameHashes_iff md5 text (create_lines text _) (create_lines text _)

theorem digest_auto : (readerOf text .autoEvaluateHexEncodedPasswords).forceEvaluateMD5Hashes =
    false := create_digest text _

theorem digest_forced : (readerOf text .forceEvaluateHexEncodedPasswords).forceEvaluateMD5Hashes =
    false := create_digest text _

theorem hex_forced :
    (readerOf text .forceEvaluateHexEncodedPasswords).forceEvaluateHexEncodedPasswords = true :=
  create_hex text _

/-- One of the first lines has the separator and a hex string somewhere. -/
def Detected : Prop :=
  ∃ l ∈ (textLines text).take 500, HasSeparator text l ∧
    ∃ front s tail, l = front ++ wrapped s ++ tail ∧ IsGroup s

theorem hex_auto_iff :
    (readerOf text .autoEvaluateHexEncodedPasswords).forceEvaluateHexEncodedPasswords = true ↔
      Detected text := by
  have hauto := create_hex text [.autoEvaluateHexEncodedPasswords]
  have hflag : (readerOf text .autoEvaluateHexEncodedPasswords).forceEvaluateHexEncodedPasswords =
      found id searchHex text ((guess text).getD 0) := hauto
  unfold Detected
  rw [hflag, found_iff]
  simp only [id, searchHex_iff]

/-- What the forced reader makes of a hex string, and the other one while it has found none. -/
theorem lineHash_wrapped {r : UserPasswordReader} (hdigest : r.forceEvaluateMD5Hashes = false)
    {l s : List UInt8} (hl : l.length ≤ 200) (hs : r.extractPassword l = wrapped s)
    (hgroup : IsGroup s) (md5 : List UInt8 → Vector UInt8 16) :
    r.lineHash md5 l = if r.forceEvaluateHexEncodedPasswords = true then
      hashOf md5 (hexToCharSeq s).2 else hashOf md5 (wrapped s) := by
  have hpassword : r.linePassword l = wrapped s := by
    unfold linePassword
    rw [if_neg, hs]
    rintro (h | h)
    · omega
    · obtain rfl : l = [] := List.length_eq_zero_iff.mp (by omega)
      have hnil : r.extractPassword [] = [] := by simp [extractPassword, removeCR]
      rw [hnil] at hs
      cases hs
  have hne : wrapped s ≠ [] := by simp [wrapped]
  unfold lineHash
  rw [hpassword, passwordHash_rest hne (by simp [hdigest]),
    (matchHex_eq_some_iff _ _).mpr ⟨rfl, hgroup⟩]
  cases r.forceEvaluateHexEncodedPasswords <;> rfl

/-- With every digest the automatic reader gives the hashes of the forced one exactly when it
has detected a hex string. -/
theorem detection_equals_forcing_iff (h : HasHexPassword text) :
    (∀ md5, SameHashes md5 (readerOf text .autoEvaluateHexEncodedPasswords)
        (readerOf text .forceEvaluateHexEncodedPasswords)) ↔ Detected text := by
  have hdigest := (digest_auto text).trans (digest_forced text).symm
  rw [← hex_auto_iff]
  constructor
  · intro hsame
    by_contra hoff
    obtain ⟨l, hl, hlen, s, hs, hne, heven, hdig⟩ := h
    have hgroup : IsGroup s := ⟨hne, heven, fun c hc => isAlnum_of_isHexDigit (hdig c hc)⟩
    have hs' := hs
    rw [extractPassword_readerOf text _ .forceEvaluateHexEncodedPasswords] at hs'
    have hlines := (sameHashes_readerOf_iff text _ _ _).mp
      (hsame fun p => Vector.replicate 16 (if p = wrapped s then 1 else 0)) l
      (List.mem_of_mem_take hl)
    rw [lineHash_wrapped (digest_auto text) hlen hs hgroup,
      lineHash_wrapped (digest_forced text) hlen hs' hgroup, if_neg hoff,
      if_pos (hex_forced text)] at hlines
    apply hashOf_ne _ _ hlines.symm
    · rw [if_neg (hexToCharSeq_ne_wrapped s)]
    · rw [if_pos rfl]
  · intro hon md5
    have hsettings := settings_readerOf text _ _ hdigest (hon.trans (hex_forced text).symm)
    apply (sameHashes_readerOf_iff text md5 _ _).mpr
    intro l _
    exact (hsettings.lineHash_eq md5 l).symm

/-- `a:$HEX[61]` -/
def coloned : List UInt8 := [97, 58] ++ wrapped [54, 49]

theorem hasHexPassword_coloned : HasHexPassword coloned := by
  refine ⟨coloned, by decide +kernel, by decide, [54, 49], ?_, by simp, by simp, ?_⟩
  · decide +kernel
  · simp [IsHexDigit, decodeHex]

theorem detection_equals_forcing_iff_coloned :
    Detected coloned ∧ ∀ md5, SameHashes md5 (readerOf coloned .autoEvaluateHexEncodedPasswords)
      (readerOf coloned .forceEvaluateHexEncodedPasswords) := by
  have hprevails : Prevails coloned 58 := by
    rw [← guess_eq_some_iff]
    decide +kernel
  have hgroup : IsGroup [54, 49] := ⟨by simp, by simp, by simp [isAlnum]⟩
  have hdetected : Detected coloned := by
    refine ⟨coloned, by decide +kernel, .inl ⟨58, hprevails, by simp [coloned]⟩, ?_⟩
    exact ⟨[97, 58], [54, 49], [], by simp [coloned], hgroup⟩
  refine ⟨hdetected, ?_⟩
  apply (detection_equals_forcing_iff coloned hasHexPassword_coloned).mpr
  exact hdetected

/-- In a file of passwords alone nothing is detected. -/
theorem a_lone_hex_password_is_not_detected :
    ¬ (HasHexPassword (wrapped [54, 49]) →
      ∀ md5, SameHashes md5 (readerOf (wrapped [54, 49]) .autoEvaluateHexEncodedPasswords)
        (readerOf (wrapped [54, 49]) .forceEvaluateHexEncodedPasswords)) := by
  have hpassword : HasHexPassword (wrapped [54, 49]) := by
    refine ⟨wrapped [54, 49], by decide +kernel, by decide, [54, 49], ?_, by simp, by simp, ?_⟩
    · decide +kernel
    · simp [IsHexDigit, decodeHex]
  have hoff : (readerOf (wrapped [54, 49])
      .autoEvaluateHexEncodedPasswords).lineHash (fun p => Vector.replicate 16
        (if p = wrapped [54, 49] then 1 else 0)) (wrapped [54, 49]) ≠
      (readerOf (wrapped [54, 49])
        .forceEvaluateHexEncodedPasswords).lineHash (fun p => Vector.replicate 16
          (if p = wrapped [54, 49] then 1 else 0)) (wrapped [54, 49]) := by
    decide +kernel
  intro h
  apply hoff
  apply (sameHashes_readerOf_iff _ _ _ _).mp (h hpassword _)
  decide +kernel

end Detection

end pwned.UserPasswordReader
