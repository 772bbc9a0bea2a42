-- Passwords that are hashes or hex strings: which of them the reader decodes,
-- and what it makes of those that only look like one.
import Pwned.UserPasswordReader

namespace pwned.UserPasswordReader

/-! ## What the expressions match -/

/-- `$HEX[s]` -/
def wrapped (s : List UInt8) : List UInt8 := hexPrefix ++ s ++ [93]

/-- The group of `HexRegex`: pairs of letters and digits. -/
structure IsGroup (s : List UInt8) : Prop where
  ne_nil : s ≠ []
  even : s.length % 2 = 0
  alnum : ∀ c ∈ s, isAlnum c = true

theorem takeWhile_group {s : List UInt8} (h : ∀ c ∈ s, isAlnum c = true) (tail : List UInt8) :
    (s ++ 93 :: tail).takeWhile isAlnum = s := by
  have hstop : isAlnum 93 = false := by decide
  rw [List.takeWhile_append_of_pos h, List.takeWhile_cons, hstop]
  simp

theorem hexGroup_eq_some_iff (text s tail : List UInt8) :
    hexGroup text = some (s, tail) ↔ text = wrapped s ++ tail ∧ IsGroup s := by
  unfold hexGroup wrapped
  constructor
  · intro h
    split at h
    · rename_i hprefix
      obtain ⟨rest, rfl⟩ := List.isPrefixOf_iff_prefix.mp hprefix
      rw [List.drop_left] at h
      dsimp only at h
      split at h
      · rename_i tail' htail
        split at h
        · rename_i hgroup
          obtain ⟨rfl, rfl⟩ := Prod.mk.inj (Option.some.inj h)
          have htake := List.prefix_iff_eq_take.mp (List.takeWhile_prefix isAlnum (l := rest))
          have hrest := List.take_append_drop (rest.takeWhile isAlnum).length rest
          rw [← htake, htail] at hrest
          refine ⟨?_, hgroup.1, hgroup.2, fun c hc => List.mem_takeWhile_imp hc⟩
          simpa using hrest.symm
        · cases h
      · cases h
    · cases h
  · rintro ⟨rfl, hgroup⟩
    rw [if_pos (List.isPrefixOf_iff_prefix.mpr ⟨s ++ [93] ++ tail, by simp⟩)]
    have hdrop : (hexPrefix ++ s ++ [93] ++ tail).drop hexPrefix.length = s ++ 93 :: tail := by
      simp
    dsimp only
    rw [hdrop, takeWhile_group hgroup.alnum, List.drop_left]
    simp [hgroup.ne_nil, hgroup.even]

theorem matchHex_eq_some_iff (text s : List UInt8) :
    matchHex text = some s ↔ text = wrapped s ∧ IsGroup s := by
  unfold matchHex
  constructor
  · intro h
    split at h
    · rename_i group hgroup
      obtain rfl := Option.some.inj h
      simpa using (hexGroup_eq_some_iff _ _ _).mp hgroup
    · cases h
  · rintro ⟨rfl, hgroup⟩
    have hmatch := (hexGroup_eq_some_iff (wrapped s) s []).mpr ⟨by simp, hgroup⟩
    rw [hmatch]

theorem wrapped_injective {s s' : List UInt8} (h : wrapped s = wrapped s') : s = s' := by
  unfold wrapped at h
  simpa using h

/-- Whether `HexRegex` is found somewhere. -/
theorem searchHex_iff (text : List UInt8) :
    searchHex text = true ↔ ∃ front s tail, text = front ++ wrapped s ++ tail ∧ IsGroup s := by
  unfold searchHex
  rw [List.any_eq_true]
  constructor
  · rintro ⟨t, ht, hsome⟩
    obtain ⟨front, rfl⟩ := (List.mem_tails _ _).mp ht
    obtain ⟨⟨s, tail⟩, hgroup⟩ := Option.isSome_iff_exists.mp hsome
    obtain ⟨rfl, hs⟩ := (hexGroup_eq_some_iff _ _ _).mp hgroup
    exact ⟨front, s, tail, by rw [List.append_assoc], hs⟩
  · rintro ⟨front, s, tail, rfl, hs⟩
    refine ⟨wrapped s ++ tail, ?_, ?_⟩
    · rw [List.mem_tails]
      exact ⟨front, by rw [List.append_assoc]⟩
    · rw [(hexGroup_eq_some_iff _ _ _).mpr ⟨rfl, hs⟩]
      rfl

/-! ## Hex digits -/

def IsHexDigit (c : UInt8) : Prop := 0 ≤ decodeHex c

instance (c : UInt8) : Decidable (IsHexDigit c) := inferInstanceAs (Decidable (0 ≤ decodeHex c))

/-- The bytes that pairs of hex digits spell. -/
def unhex : List UInt8 → List UInt8
  | a :: b :: rest => UInt8.ofNat (decodeHex a * 16 + decodeHex b).toNat :: unhex rest
  | _ => []

theorem isAlnum_of_isHexDigit {c : UInt8} (h : IsHexDigit c) : isAlnum c = true := by
  unfold IsHexDigit decodeHex at h
  unfold isAlnum
  simp only [UInt8.le_iff_toNat_le, UInt8.reduceToNat, Bool.or_eq_true, Bool.and_eq_true,
    decide_eq_true_eq] at h ⊢
  split at h
  · omega
  · split at h
    · omega
    · split at h <;> omega

theorem hexPairs_of_hex {s : List UInt8} (h : ∀ c ∈ s, IsHexDigit c) :
    (hexPairs s).2 = unhex s := by
  fun_induction unhex s with
  | case1 a b rest ih =>
    have ha : IsHexDigit a := h a (by simp)
    have hb : IsHexDigit b := h b (by simp)
    have hrest := ih fun c hc => h c (by simp [hc])
    unfold hexPairs
    dsimp only
    rw [if_pos ⟨hb, ha⟩, hrest]
  | case2 s hs =>
    unfold hexPairs
    split
    · rename_i a b rest
      exact absurd rfl (hs a b rest)
    · rfl

theorem hexToCharSeq_of_hex {s : List UInt8} (heven : s.length % 2 = 0)
    (h : ∀ c ∈ s, IsHexDigit c) : (hexToCharSeq s).2 = unhex s := by
  unfold hexToCharSeq
  rw [if_pos heven, hexPairs_of_hex h]

theorem length_hexPairs_le (s : List UInt8) : (hexPairs s).2.length ≤ s.length := by
  fun_induction hexPairs s with
  | case1 a b rest hi lo h ok bytes hrest ih =>
    rw [hrest] at ih
    dsimp only at ih
    simp only [List.length_cons]
    omega
  | case2 => simp
  | case3 => simp

/-- What is decoded is shorter than the password. -/
theorem hexToCharSeq_ne_wrapped (s : List UInt8) : (hexToCharSeq s).2 ≠ wrapped s := by
  intro h
  have hlen := congrArg List.length h
  have hwrapped : (wrapped s).length = s.length + 6 := by
    simp [wrapped, hexPrefix]
  have hle : (hexToCharSeq s).2.length ≤ s.length := by
    unfold hexToCharSeq
    split
    · exact length_hexPairs_le s
    · simp
  omega

theorem goodDigits_of_hex {s : List UInt8} (heven : s.length % 2 = 0)
    (h : ∀ c ∈ s, IsHexDigit c) : Hash.goodDigits s = s := by
  fun_induction Hash.goodDigits s with
  | case1 a b rest hab ih =>
    have hrest : rest.length % 2 = 0 := by
      simp only [List.length_cons] at heven
      omega
    rw [ih hrest fun c hc => h c (by simp [hc])]
  | case2 a b rest hab => exact absurd ⟨h a (by simp), h b (by simp)⟩ hab
  | case3 s hs =>
    rcases s with _ | ⟨a, _ | ⟨b, rest⟩⟩
    · rfl
    · simp at heven
    · exact absurd rfl (hs a b rest)

/-- A hash with 32 hex digits. -/
def digitsHash (p : List UInt8) : Hash := { Hash.ofKey (Hash.hexNumber p) with isValid := true }

theorem fromHex_of_wellFormed {p : List UInt8} (h : Hash.WellFormed p) :
    Hash.fromHex p = digitsHash p := by
  have hvalid := (Hash.fromHex_isValid p).mpr h
  have hnumber : (Hash.fromHex p).key = Hash.hexNumber p := by
    rw [Hash.fromHex_key, Hash.prefixKey, if_pos h.1,
      goodDigits_of_hex (by rw [h.1]) h.2, h.1, Nat.sub_self, pow_zero, mul_one]
  have hkey : (digitsHash p).key = (Hash.fromHex p).key := by
    have hlt : Hash.hexNumber p < 2 ^ 128 := by
      rw [← hnumber]
      exact Hash.key_lt _
    rw [hnumber]
    exact Hash.key_ofKey hlt
  obtain ⟨hupper, hlower⟩ := Hash.words_of_key_eq hkey
  cases hf : Hash.fromHex p with
  | mk upper lower isValid =>
    rw [hf] at hupper hlower hvalid
    dsimp only at hupper hlower hvalid
    rw [← hupper, ← hlower, hvalid]
    rfl

/-! ## The hash of a password -/

section MD5

variable (md5 : List UInt8 → Vector UInt8 16)

/-- The hash that a password stands for. `digest` and `hex` tell whether MD5 hashes and hex
strings are decoded. -/
inductive StandsFor (digest hex : Bool) (p : List UInt8) : Hash → Prop
  | digits (hdigest : digest = true) (hp : Hash.WellFormed p) :
      StandsFor digest hex p (digitsHash p)
  | bytes (hnot : ¬ (digest = true ∧ Hash.WellFormed p)) (hhex : hex = true) (s : List UInt8)
      (hp : p = wrapped s) (hne : s ≠ []) (heven : s.length % 2 = 0)
      (hs : ∀ c ∈ s, IsHexDigit c) : StandsFor digest hex p (hashOf md5 (unhex s))
  | plain (hnot : ¬ (digest = true ∧ Hash.WellFormed p))
      (hplain : ¬ (hex = true ∧ ∃ s, p = wrapped s ∧ s ≠ [] ∧ s.length % 2 = 0 ∧
        ∀ c ∈ s, IsHexDigit c)) : StandsFor digest hex p (hashOf md5 p)

variable {md5}

theorem not_wellFormed_wrapped (s : List UInt8) : ¬ Hash.WellFormed (wrapped s) := by
  rintro ⟨-, h⟩
  have hdollar := h 36 (by simp [wrapped, hexPrefix])
  revert hdollar
  decide

theorem matchMD5_of_wellFormed {p : List UInt8} (h : Hash.WellFormed p) : matchMD5 p = true := by
  unfold matchMD5
  rw [Bool.and_eq_true, beq_iff_eq, List.all_eq_true]
  exact ⟨h.1, fun c hc => isAlnum_of_isHexDigit (h.2 c hc)⟩

/-- The first decoder: what it makes is kept when the password has 32 hex digits. -/
theorem passwordHash_digits {r : UserPasswordReader} {p : List UInt8} (hne : p ≠ [])
    (h : r.forceEvaluateMD5Hashes = true ∧ Hash.WellFormed p) :
    r.passwordHash md5 p = digitsHash p := by
  have hvalid := (Hash.fromHex_isValid p).mpr h.2
  unfold passwordHash
  rw [if_neg (by simpa using hne), h.1, matchMD5_of_wellFormed h.2]
  simp only [Bool.and_self, if_true, hvalid]
  exact fromHex_of_wellFormed h.2

/-- The second one and the last one. -/
theorem passwordHash_rest {r : UserPasswordReader} {p : List UInt8} (hne : p ≠ [])
    (h : ¬ (r.forceEvaluateMD5Hashes = true ∧ Hash.WellFormed p)) :
    r.passwordHash md5 p =
      match r.forceEvaluateHexEncodedPasswords, matchHex p with
      | true, some s => hashOf md5 (hexToCharSeq s).2
      | _, _ => hashOf md5 p := by
  unfold passwordHash
  rw [if_neg (by simpa using hne)]
  apply if_neg
  intro hvalid
  split at hvalid
  · rename_i hmatch
    rw [Bool.and_eq_true] at hmatch
    exact h ⟨hmatch.1, (Hash.fromHex_isValid p).mp hvalid⟩
  · cases hvalid

/-- `$HEX[s]` with letters and digits in pairs that are not all hex digits. -/
def LooksLikeHex (p : List UInt8) : Prop :=
  ∃ s, p = wrapped s ∧ IsGroup s ∧ ∃ c ∈ s, ¬ IsHexDigit c

/-- The digests of two texts tell them apart in their hashes. -/
theorem hashOf_ne {a b : List UInt8} (ha : md5 a = Vector.replicate 16 0)
    (hb : md5 b = Vector.replicate 16 1) : hashOf md5 a ≠ hashOf md5 b := by
  unfold hashOf
  rw [ha, hb]
  decide

/-- Every digest gives the right hash exactly when the password does not look like a hex string
while it is none. -/
theorem passwordHash_exact_iff {r : UserPasswordReader} {p : List UInt8} (hne : p ≠ []) :
    (∀ md5, StandsFor md5 r.forceEvaluateMD5Hashes r.forceEvaluateHexEncodedPasswords p
        (r.passwordHash md5 p)) ↔
      ¬ (r.forceEvaluateHexEncodedPasswords = true ∧ LooksLikeHex p) := by
  constructor
  · rintro h ⟨hhex, s, rfl, hgroup, c, hc, hbad⟩
    have hnot : ¬ (r.forceEvaluateMD5Hashes = true ∧ Hash.WellFormed (wrapped s)) :=
      fun hw => not_wellFormed_wrapped s hw.2
    have hmatch := (matchHex_eq_some_iff _ _).mpr ⟨rfl, hgroup⟩
    have hstands := h fun text => Vector.replicate 16 (if text = wrapped s then 1 else 0)
    rw [passwordHash_rest hne hnot, hhex, hmatch] at hstands
    dsimp only at hstands
    generalize hout : hashOf _ (hexToCharSeq s).2 = out at hstands
    cases hstands with
    | digits hdigest hp => exact hnot ⟨hdigest, hp⟩
    | bytes _ _ s' hp _ _ hs =>
      rw [← wrapped_injective hp] at hs
      exact hbad (hs c hc)
    | plain _ _ =>
      apply hashOf_ne _ _ hout
      · rw [if_neg (hexToCharSeq_ne_wrapped s)]
      · rw [if_pos rfl]
  · intro h md5
    by_cases hdigits : r.forceEvaluateMD5Hashes = true ∧ Hash.WellFormed p
    · rw [passwordHash_digits hne hdigits]
      exact .digits hdigits.1 hdigits.2
    · rw [passwordHash_rest hne hdigits]
      split
      · rename_i s hhex hmatch
        obtain ⟨rfl, hgroup⟩ := (matchHex_eq_some_iff _ _).mp hmatch
        have hs : ∀ c ∈ s, IsHexDigit c := by
          by_contra hbad
          push Not at hbad
          exact h ⟨hhex, s, rfl, hgroup, hbad⟩
        rw [hexToCharSeq_of_hex hgroup.even hs]
        exact .bytes hdigits hhex s rfl hgroup.ne_nil hgroup.even hs
      · rename_i hno
        apply StandsFor.plain hdigits
        rintro ⟨hhex, s, rfl, hs, heven, hdig⟩
        have hgroup : IsGroup s := ⟨hs, heven, fun c hc => isAlnum_of_isHexDigit (hdig c hc)⟩
        exact hno s hhex ((matchHex_eq_some_iff _ _).mpr ⟨rfl, hgroup⟩)

theorem nextPasswordHash_fst (r : UserPasswordReader) :
    (r.nextPasswordHash md5).1 = r.nextPassword.2.passwordHash md5 r.nextPassword.1 := rfl

/-- Every digest gives the right hash of the next password exactly when it does not look like a
hex string while it is none. -/
theorem next_hash_is_exact_iff (r : UserPasswordReader) (h : r.nextPassword.1 ≠ []) :
    (∀ md5, StandsFor md5 r.forceEvaluateMD5Hashes r.forceEvaluateHexEncodedPasswords
        r.nextPassword.1 (r.nextPasswordHash md5).1) ↔
      ¬ (r.forceEvaluateHexEncodedPasswords = true ∧ LooksLikeHex r.nextPassword.1) := by
  have hsame := r.sameSettings_nextPassword
  have hexact := passwordHash_exact_iff (r := r.nextPassword.2) h
  rw [hsame.digest, hsame.hex] at hexact
  exact hexact

/-- A reader that decodes hex strings, in front of the text. -/
def hexReader (text : List UInt8) : UserPasswordReader :=
  { input := { content := text }, forceEvaluateHexEncodedPasswords := true }

/-- `$HEX[61]` -/
theorem next_hash_is_exact_iff_hex :
    (hexReader (wrapped [54, 49])).nextPassword.1 = wrapped [54, 49] ∧
      ∀ md5, StandsFor md5 false true (wrapped [54, 49])
        ((hexReader (wrapped [54, 49])).nextPasswordHash md5).1 := by
  have hpassword : (hexReader (wrapped [54, 49])).nextPassword.1 = wrapped [54, 49] := by
    decide +kernel
  refine ⟨hpassword, ?_⟩
  apply (next_hash_is_exact_iff (hexReader (wrapped [54, 49])) (by decide +kernel)).mpr
  rintro ⟨-, s, hs, -, c, hc, hbad⟩
  rw [hpassword] at hs
  rw [← wrapped_injective hs] at hc
  have hall : ∀ d ∈ [54, 49], IsHexDigit d := by simp [IsHexDigit, decodeHex]
  exact hbad (hall c hc)

/-- `$HEX[zz]` stands for itself and is hashed like the empty text. -/
theorem a_false_hex_string_is_decoded :
    ¬ ∀ md5, StandsFor md5 false true (wrapped [122, 122])
      ((hexReader (wrapped [122, 122])).nextPasswordHash md5).1 := by
  have hpassword : (hexReader (wrapped [122, 122])).nextPassword.1 = wrapped [122, 122] := by
    decide +kernel
  have hgroup : IsGroup [122, 122] := ⟨by simp, by simp, by simp [isAlnum]⟩
  have hlooks : LooksLikeHex (wrapped [122, 122]) :=
    ⟨[122, 122], rfl, hgroup, 122, by simp, by decide⟩
  intro h
  apply (passwordHash_exact_iff (r := hexReader []) (p := wrapped [122, 122]) (by decide)).mp _
    ⟨rfl, hlooks⟩
  intro md5
  have hstands := h md5
  rw [nextPasswordHash_fst, hpassword] at hstands
  exact hstands

end MD5

end pwned.UserPasswordReader
