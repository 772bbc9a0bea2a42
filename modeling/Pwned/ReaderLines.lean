-- The passwords of a whole text: the first lines are read for the separator
-- and for the encodings, and then every line is read from the start.
import Pwned.Library.Fuel
import Pwned.Library.MaxElement
import Pwned.UserPasswordReader

namespace pwned.UserPasswordReader

/-! ## The first lines -/

section FirstLines

variable {input : TextStream}

theorem successfulSplits_eq (n : Nat) (h : input.Healthy) (line : List UInt8)
    (splits : UInt8 → Nat) (sep : UInt8) :
    (successfulSplits n input line splits).1 sep =
      splits sep + (input.remaining.take n).countP fun l => (removeCR l).contains sep := by
  induction n generalizing input line splits with
  | zero => simp [successfulSplits]
  | succ n ih =>
    unfold successfulSplits
    split
    · rename_i he
      simp [TextStream.remaining_of_eof he]
    · rename_i he
      have hlines := TextStream.lines_remaining (h.good (by simpa using he))
      cases hr : input.remaining with
      | nil => exact absurd hr hlines.ne_nil
      | cons l ls =>
        rw [hr] at hlines
        obtain ⟨hl, hnext, hrest⟩ := hlines.getline_next h.unbroken line
        dsimp only
        rw [ih hnext, hrest, hl, List.take_succ_cons, List.countP_cons]
        split <;> omega

theorem sniff_eq (prep : List UInt8 → List UInt8) (found : List UInt8 → Bool) (sep : UInt8)
    (n : Nat) (h : input.Healthy) (line : List UInt8) :
    (sniff prep found sep n input line).1 =
      (input.remaining.take n).any fun l => (prep l).contains sep && found (prep l) := by
  induction n generalizing input line with
  | zero => simp [sniff]
  | succ n ih =>
    unfold sniff
    split
    · rename_i he
      simp [TextStream.remaining_of_eof he]
    · rename_i he
      have hlines := TextStream.lines_remaining (h.good (by simpa using he))
      cases hr : input.remaining with
      | nil => exact absurd hr hlines.ne_nil
      | cons l ls =>
        rw [hr] at hlines
        obtain ⟨hl, hnext, hrest⟩ := hlines.getline_next h.unbroken line
        dsimp only
        rw [hl, List.take_succ_cons, List.any_cons]
        split
        · rename_i hfound
          rw [hfound, Bool.true_or]
        · rename_i hfound
          rw [ih hnext, hrest, Bool.eq_false_iff.mpr hfound, Bool.false_or]

end FirstLines

/-- The lines that `getline` splits off a text. Behind a last line break there is one more. -/
def textLines (text : List UInt8) : List (List UInt8) := text.splitOn 10

/-- In how many of the first lines the separator is. -/
def linesWith (text : List UInt8) (sep : UInt8) : Nat :=
  ((textLines text).take 500).countP (·.contains sep)

theorem healthy_open (text : List UInt8) : ({ content := text } : TextStream).Healthy :=
  ⟨rfl, .inr rfl⟩

theorem remaining_open (text : List UInt8) :
    ({ content := text } : TextStream).remaining = textLines text :=
  (TextStream.lines_open text false).remaining_eq

/-- Ended lines are lines with an empty one behind them. -/
theorem flatMap_eq_intercalate (ls : List (List UInt8)) :
    ls.flatMap (· ++ [10]) = [10].intercalate (ls ++ [[]]) := by
  induction ls with
  | nil => rfl
  | cons l ls ih =>
    rw [List.flatMap_cons, ih]
    cases ls with
    | nil => simp [List.intercalate]
    | cons l' ls => simp [List.intercalate]

theorem textLines_flatMap {ls : List (List UInt8)} (h : ∀ l ∈ ls, 10 ∉ l) :
    textLines (ls.flatMap (· ++ [10])) = ls ++ [[]] := by
  unfold textLines
  rw [flatMap_eq_intercalate]
  apply List.splitOn_intercalate
  · intro l hl
    rcases List.mem_append.mp hl with hl | hl
    · exact h l hl
    · simp [List.mem_singleton.mp hl]
  · simp

theorem contains_removeCR {sep : UInt8} (h : sep ≠ 13) (line : List UInt8) :
    (removeCR line).contains sep = line.contains sep := by
  rw [Bool.eq_iff_iff, List.contains_iff_mem, List.contains_iff_mem, removeCR, List.mem_filter]
  exact and_iff_left (by simpa using h)

theorem ne_cr_of_mem {sep : UInt8} (h : sep ∈ possibleSeparators) : sep ≠ 13 := by
  rintro rfl
  simp [possibleSeparators] at h

/-! ## The separator -/

/-- What the loop of `guessSeparator` counts in a text. -/
def firstSplits (text : List UInt8) (sep : UInt8) : Nat :=
  ((textLines text).take nTries).countP fun l => (removeCR l).contains sep

theorem firstSplits_eq (text : List UInt8) {sep : UInt8} (h : sep ∈ possibleSeparators) :
    firstSplits text sep = linesWith text sep := by
  unfold firstSplits linesWith
  apply List.countP_congr
  intro l _
  rw [contains_removeCR (ne_cr_of_mem h)]

/-- The separator that is guessed from a text. -/
def guess (text : List UInt8) : Option UInt8 := maxSep (firstSplits text)

/-- No separator is in one of the first lines, or `sep` is in a largest number of them. -/
def IsGuess (text : List UInt8) : Option UInt8 → Prop
  | none => ∀ sep ∈ possibleSeparators, linesWith text sep = 0
  | some sep => sep ∈ possibleSeparators ∧ 0 < linesWith text sep ∧
      ∀ sep' ∈ possibleSeparators, linesWith text sep' ≤ linesWith text sep

theorem maxSep_eq (splits : UInt8 → Nat) :
    maxSep splits =
      MaxElement.maxElement splits (possibleSeparators.filter fun sep => 0 < splits sep) := by
  unfold maxSep MaxElement.maxElement
  congr 1
  funext best sep
  cases best with
  | none => rfl
  | some b => rfl

theorem firstMax_guess {text : List UInt8} {sep : UInt8} (h : guess text = some sep) :
    MaxElement.FirstMax (firstSplits text)
      (possibleSeparators.filter fun sep => 0 < firstSplits text sep) sep := by
  apply MaxElement.maxElement_firstMax
  rw [← maxSep_eq]
  exact h

theorem isGuess_guess (text : List UInt8) : IsGuess text (guess text) := by
  cases hg : guess text with
  | none =>
    unfold guess at hg
    rw [maxSep_eq] at hg
    have hnil := (MaxElement.maxElement_eq_none_iff _ _).mp hg
    intro sep hsep
    have hpos := List.filter_eq_nil_iff.mp hnil sep hsep
    rw [← firstSplits_eq text hsep]
    simpa using hpos
  | some sep =>
    have hmax := firstMax_guess hg
    obtain ⟨hsep, hpos⟩ := List.mem_filter.mp hmax.mem
    rw [IsGuess, ← firstSplits_eq text hsep]
    refine ⟨hsep, by simpa using hpos, ?_⟩
    intro sep' hsep'
    rw [← firstSplits_eq text hsep']
    rcases Nat.eq_zero_or_pos (firstSplits text sep') with h0 | h0
    · rw [h0]
      apply Nat.zero_le
    · apply hmax.le
      rw [List.mem_filter]
      exact ⟨hsep', by simpa using h0⟩

/-- Of several separators in a largest number of lines the one with the smallest code is
guessed. -/
theorem linesWith_lt_of_guess {text : List UInt8} {sep sep' : UInt8} (h : guess text = some sep)
    (hsep' : sep' ∈ possibleSeparators) (hlt : sep' < sep) :
    linesWith text sep' < linesWith text sep := by
  have hmax := firstMax_guess h
  obtain ⟨hsep, hpos⟩ := List.mem_filter.mp hmax.mem
  rw [← firstSplits_eq text hsep, ← firstSplits_eq text hsep']
  rcases Nat.eq_zero_or_pos (firstSplits text sep') with h0 | h0
  · rw [h0]
    simpa using hpos
  · have hsorted : possibleSeparators.Pairwise (· < ·) := by decide
    apply hmax.lt_of_pairwise _ (hsorted.filter _) _ (UInt8.ne_of_lt hlt) (UInt8.lt_asymm hlt)
    rw [List.mem_filter]
    exact ⟨hsep', by simpa using h0⟩

/-- The separator is in more of the first lines than the others, and has the smallest code of
those that are in as many. -/
structure Prevails (text : List UInt8) (sep : UInt8) : Prop where
  mem : sep ∈ possibleSeparators
  pos : 0 < linesWith text sep
  wins : ∀ sep' ∈ possibleSeparators, linesWith text sep' < linesWith text sep ∨
    linesWith text sep' = linesWith text sep ∧ sep ≤ sep'

theorem prevails_of_guess {text : List UInt8} {sep : UInt8} (h : guess text = some sep) :
    Prevails text sep := by
  have hguess := isGuess_guess text
  rw [h] at hguess
  refine ⟨hguess.1, hguess.2.1, ?_⟩
  intro sep' hsep'
  by_cases hlt : sep' < sep
  · exact .inl (linesWith_lt_of_guess h hsep' hlt)
  · rcases lt_or_eq_of_le (hguess.2.2 sep' hsep') with hmore | hsame
    · exact .inl hmore
    · exact .inr ⟨hsame, UInt8.not_lt.mp hlt⟩

theorem guess_eq_some_iff (text : List UInt8) (sep : UInt8) :
    guess text = some sep ↔ Prevails text sep := by
  constructor
  · exact prevails_of_guess
  · intro h
    have hguess := isGuess_guess text
    cases hg : guess text with
    | none =>
      rw [hg] at hguess
      exact absurd (hguess sep h.mem) h.pos.ne'
    | some s =>
      have hs := prevails_of_guess hg
      have hle := hs.wins sep h.mem
      have hge := h.wins s hs.mem
      have heq : sep = s := by
        rcases hle with hless | ⟨hsame, hle⟩ <;> rcases hge with hless' | ⟨hsame', hge⟩
        · omega
        · omega
        · omega
        · exact UInt8.le_antisymm hge hle
      rw [heq]

theorem guess_eq_none_iff (text : List UInt8) :
    guess text = none ↔ ∀ sep ∈ possibleSeparators, linesWith text sep = 0 := by
  have hguess := isGuess_guess text
  cases hg : guess text with
  | none =>
    rw [hg] at hguess
    exact ⟨fun _ => hguess, fun _ => rfl⟩
  | some s =>
    rw [hg] at hguess
    constructor
    · intro h
      cases h
    · intro h
      exact absurd (h s hguess.1) hguess.2.1.ne'

/-! ## The reader of a text -/

/-- The reader before it has seen the text. -/
def unread (text : List UInt8) (options : List UserPasswordReaderOptions) : UserPasswordReader :=
  { input := { content := text },
    forceEvaluateMD5Hashes := options.contains .forceEvaluateMD5Hashes,
    forceEvaluateHexEncodedPasswords := options.contains .forceEvaluateHexEncodedPasswords,
    autoEvaluateMD5Hashes := options.contains .autoEvaluateMD5Hashes,
    autoEvaluateHexEncodedPasswords := options.contains .autoEvaluateHexEncodedPasswords }

theorem guessedSeparator_checks (r : UserPasswordReader) :
    r.checkForHexEncodedPasswords.checkForMD5Hashes.guessedSeparator = r.guessedSeparator := by
  unfold checkForHexEncodedPasswords checkForMD5Hashes rewind
  split_ifs <;> rfl

theorem guessSeparator_unread (text : List UInt8) (options : List UserPasswordReaderOptions) :
    (unread text options).guessSeparator.guessedSeparator = (guess text).getD 0 := by
  have hsplits : (successfulSplits nTries { content := text } [] fun _ => 0).1 =
      firstSplits text := by
    funext sep
    rw [successfulSplits_eq nTries (healthy_open text), remaining_open, Nat.zero_add]
    rfl
  unfold guess
  rw [← hsplits]
  rfl

theorem create_guessedSeparator (text : List UInt8) (options : List UserPasswordReaderOptions) :
    (create { content := text } options).guessedSeparator = (guess text).getD 0 :=
  (guessedSeparator_checks _).trans (guessSeparator_unread text options)

theorem healthy_create {input : TextStream} (options : List UserPasswordReaderOptions)
    (hopen : input.isOpen = true) (hb : input.broken = false) :
    (create input options).input.Healthy := by
  rw [create_input input options hopen, hb]
  exact healthy_open input.content

theorem create_lines (text : List UInt8) (options : List UserPasswordReaderOptions) :
    (create { content := text } options).input.Healthy ∧
      (create { content := text } options).input.remaining = textLines text := by
  rw [create_input _ options rfl]
  exact ⟨healthy_open text, remaining_open text⟩

theorem Rewound.lines {text : List UInt8} {r : UserPasswordReader}
    (h : Rewound { content := text } r) :
    r.input.Healthy ∧ r.input.remaining = textLines text := by
  obtain ⟨t, ht, he⟩ := h
  rw [he, TextStream.rewind_eq ht.isOpen, ht.content, ht.broken]
  exact ⟨healthy_open text, remaining_open text⟩

/-- One of the first lines has the separator and matches. -/
def found (prep : List UInt8 → List UInt8) (search : List UInt8 → Bool) (text : List UInt8)
    (sep : UInt8) : Bool :=
  ((textLines text).take nTries).any fun l => (prep l).contains sep && search (prep l)

theorem check_hex {text : List UInt8} {r : UserPasswordReader}
    (h : Rewound { content := text } r) :
    r.checkForHexEncodedPasswords.forceEvaluateHexEncodedPasswords =
      (r.forceEvaluateHexEncodedPasswords ||
        r.autoEvaluateHexEncodedPasswords && found id searchHex text r.guessedSeparator) := by
  obtain ⟨hhealthy, hrem⟩ := h.lines
  have hsniff := sniff_eq id searchHex r.guessedSeparator nTries hhealthy []
  rw [hrem] at hsniff
  unfold checkForHexEncodedPasswords
  cases hforce : r.forceEvaluateHexEncodedPasswords with
  | true => simp [hforce]
  | false =>
    cases hauto : r.autoEvaluateHexEncodedPasswords with
    | true => simpa [rewind, found] using hsniff
    | false => simp [rewind, hforce]

theorem check_digest {text : List UInt8} {r : UserPasswordReader}
    (h : Rewound { content := text } r) :
    r.checkForMD5Hashes.forceEvaluateMD5Hashes =
      (r.forceEvaluateMD5Hashes ||
        r.autoEvaluateMD5Hashes && found removeCR searchMD5 text r.guessedSeparator) := by
  obtain ⟨hhealthy, hrem⟩ := h.lines
  have hsniff := sniff_eq removeCR searchMD5 r.guessedSeparator nTries hhealthy []
  rw [hrem] at hsniff
  unfold checkForMD5Hashes
  cases hforce : r.forceEvaluateMD5Hashes with
  | true => simp [rewind, hforce]
  | false =>
    cases hauto : r.autoEvaluateMD5Hashes with
    | true => simpa [rewind, found] using hsniff
    | false => simp [rewind, hforce]

/-- The check of the hex strings leaves the other settings. -/
theorem settings_check_hex (r : UserPasswordReader) :
    r.checkForHexEncodedPasswords.guessedSeparator = r.guessedSeparator ∧
      r.checkForHexEncodedPasswords.forceEvaluateMD5Hashes = r.forceEvaluateMD5Hashes ∧
      r.checkForHexEncodedPasswords.autoEvaluateMD5Hashes = r.autoEvaluateMD5Hashes := by
  unfold checkForHexEncodedPasswords rewind
  split_ifs <;> exact ⟨rfl, rfl, rfl⟩

theorem hex_check_digest (r : UserPasswordReader) :
    r.checkForMD5Hashes.forceEvaluateHexEncodedPasswords =
      r.forceEvaluateHexEncodedPasswords := by
  unfold checkForMD5Hashes rewind
  split_ifs <;> rfl

/-- Hex strings are decoded if that is forced, or asked for and found. -/
theorem create_hex (text : List UInt8) (options : List UserPasswordReaderOptions) :
    (create { content := text } options).forceEvaluateHexEncodedPasswords =
      (options.contains .forceEvaluateHexEncodedPasswords ||
        options.contains .autoEvaluateHexEncodedPasswords &&
          found id searchHex text ((guess text).getD 0)) := by
  have hrewound := rewound_guessSeparator (TextStream.SameFile.refl (unread text options).input)
  have hcheck := check_hex hrewound
  rw [guessSeparator_unread] at hcheck
  exact (hex_check_digest _).trans hcheck

theorem create_digest (text : List UInt8) (options : List UserPasswordReaderOptions) :
    (create { content := text } options).forceEvaluateMD5Hashes =
      (options.contains .forceEvaluateMD5Hashes ||
        options.contains .autoEvaluateMD5Hashes &&
          found removeCR searchMD5 text ((guess text).getD 0)) := by
  have hrewound := rewound_checkForHexEncodedPasswords
    (rewound_guessSeparator (TextStream.SameFile.refl (unread text options).input))
  have hcheck := check_digest hrewound
  obtain ⟨hsep, hforce, hauto⟩ := settings_check_hex (unread text options).guessSeparator
  rw [hsep, hforce, hauto, guessSeparator_unread] at hcheck
  exact hcheck

/-! ## Reading to the end -/

section Results

variable {β : Type*} {next : UserPasswordReader → β × UserPasswordReader}

/-- One turn of `while (!eof())`, with the results so far. -/
def resultsTurn (next : UserPasswordReader → β × UserPasswordReader)
    (s : UserPasswordReader × List β) : (UserPasswordReader × List β) ⊕ List β :=
  if s.1.eof then .inr s.2
  else
    let (x, r) := next s.1
    .inl (r, s.2 ++ [x])

/-- The results of `next` until `eof()` holds. -/
def results (next : UserPasswordReader → β × UserPasswordReader) (r : UserPasswordReader)
    (fuel : Nat) : Option (List β) :=
  loop (resultsTurn next) fuel (r, [])

/-- The results so far and those of the lines that are still to come make `all`. -/
structure Reading (f : List UInt8 → β) (r : UserPasswordReader) (all : List β)
    (s : UserPasswordReader × List β) : Prop where
  settings : SameSettings r s.1
  healthy : s.1.input.Healthy
  out : s.2 ++ s.1.input.remaining.map f = all

/-- `next` gives `f` of the line in front of the reader and moves behind it. -/
def Reads (next : UserPasswordReader → β × UserPasswordReader) (f : List UInt8 → β)
    (r : UserPasswordReader) : Prop :=
  ∀ r' l ls, SameSettings r r' → r'.input.Lines (l :: ls) → r'.input.broken = false →
    (next r').1 = f l ∧ SameSettings r' (next r').2 ∧ (next r').2.input.Healthy ∧
      (next r').2.input.remaining = ls

variable {f : List UInt8 → β} {r : UserPasswordReader} {all : List β}

theorem Reading.go {s s' : UserPasswordReader × List β} (hnext : Reads next f r)
    (h : Reading f r all s) (ht : resultsTurn next s = .inl s') :
    Reading f r all s' ∧ s'.1.input.remaining.length < s.1.input.remaining.length := by
  unfold resultsTurn eof at ht
  split at ht
  · cases ht
  · rename_i he
    have hlines := TextStream.lines_remaining (h.healthy.good (by simpa using he))
    have hout := h.out
    cases hrem : s.1.input.remaining with
    | nil => exact absurd hrem hlines.ne_nil
    | cons l ls =>
      rw [hrem] at hlines hout
      obtain ⟨hval, hset, hhealthy, hrest⟩ := hnext s.1 l ls h.settings hlines h.healthy.unbroken
      obtain rfl := Sum.inl.inj ht
      refine ⟨⟨h.settings.trans hset, hhealthy, ?_⟩, ?_⟩
      · rw [hrest, hval, ← hout]
        simp
      · rw [hrest]
        apply Nat.lt_succ_self

theorem Reading.stop {s : UserPasswordReader × List β} {out : List β}
    (h : Reading f r all s) (ht : resultsTurn next s = .inr out) : out = all := by
  unfold resultsTurn eof at ht
  split at ht
  · rename_i he
    rw [← Sum.inr.inj ht, ← h.out, TextStream.remaining_of_eof he, List.map_nil, List.append_nil]
  · cases ht

theorem results_yields (hnext : Reads next f r) (h : r.input.Healthy) :
    Yields (results next r) (r.input.remaining.map f) := by
  have hstart : Reading f r (r.input.remaining.map f) (r, []) :=
    ⟨⟨rfl, rfl, rfl⟩, h, List.nil_append _⟩
  obtain ⟨out, hyields, hout⟩ := loop_yields (resultsTurn next)
    (Reading f r (r.input.remaining.map f)) (· = r.input.remaining.map f)
    (fun s => s.1.input.remaining.length) (fun _ _ hs => hs.go hnext) (fun _ _ hs => hs.stop)
    hstart
  rw [← hout]
  exact hyields

end Results

theorem SameSettings.linePassword_eq {r r' : UserPasswordReader} (h : SameSettings r r')
    (line : List UInt8) : r'.linePassword line = r.linePassword line := by
  unfold linePassword extractPassword
  rw [h.separator]

/-- A reader in front of a line gives its password and moves on. -/
theorem nextPassword_of_lines {r : UserPasswordReader} {l : List UInt8} {ls : List (List UInt8)}
    (h : r.input.Lines (l :: ls)) (hb : r.input.broken = false) :
    r.nextPassword.1 = r.linePassword l ∧ r.nextPassword.2.input.Healthy ∧
      r.nextPassword.2.input.remaining = ls := by
  obtain ⟨he, -, hbad⟩ := (TextStream.good_iff _).mp h.good
  obtain ⟨hline, hrest⟩ := h.getline_next hb r.currentLine
  unfold nextPassword eof bad
  rw [he, hbad]
  simp only [Bool.or_self, Bool.false_eq_true, if_false, hline]
  exact ⟨rfl, hrest⟩

/-- The passwords that the reader gives until the end of its file. -/
def passwords (r : UserPasswordReader) : Nat → Option (List (List UInt8)) :=
  results nextPassword r

theorem passwords_yields {r : UserPasswordReader} (h : r.input.Healthy) :
    Yields r.passwords (r.input.remaining.map r.linePassword) := by
  apply results_yields _ h
  intro r' l ls hsame hlines hb
  obtain ⟨hval, hrest⟩ := nextPassword_of_lines hlines hb
  rw [hval, hsame.linePassword_eq]
  exact ⟨rfl, sameSettings_nextPassword r', hrest⟩

/-- The hashes that the reader gives until the end of its file. -/
def hashes (md5 : List UInt8 → Vector UInt8 16) (r : UserPasswordReader) :
    Nat → Option (List Hash) := results (nextPasswordHash md5) r

theorem hashes_yields (md5 : List UInt8 → Vector UInt8 16) {r : UserPasswordReader}
    (h : r.input.Healthy) : Yields (r.hashes md5) (r.input.remaining.map (r.lineHash md5)) := by
  apply results_yields _ h
  intro r' l ls hsame hlines hb
  obtain ⟨hval, hrest⟩ := nextPasswordHash_of_lines md5 hlines hb
  rw [hval, hsame.lineHash_eq]
  exact ⟨rfl, sameSettings_nextPasswordHash md5 r', hrest⟩

/-- Both readers give the same hashes. -/
def SameHashes (md5 : List UInt8 → Vector UInt8 16) (r r' : UserPasswordReader) : Prop :=
  ∃ out, Yields (r.hashes md5) out ∧ Yields (r'.hashes md5) out

/-! ## The passwords of a text -/

/-- The line without `\r`, behind the first separator in it. -/
def behindSeparator (sep : Option UInt8) (line : List UInt8) : List UInt8 :=
  let line := removeCR line
  match sep with
  | none => line
  | some sep => if sep ∈ line then (line.dropWhile (· != sep)).tail else line

/-- The password of a line. -/
def passwordOf (sep : Option UInt8) (line : List UInt8) : List UInt8 :=
  if line = [] ∨ 200 < line.length then [] else behindSeparator sep line

/-- In front of the first separator nothing stops the search. -/
theorem dropWhile_append_of_not_mem {sep : UInt8} {l : List UInt8} (h : sep ∉ l)
    (rest : List UInt8) :
    (l ++ rest).dropWhile (· != sep) = rest.dropWhile (· != sep) := by
  rw [List.dropWhile_append, if_pos]
  rw [List.isEmpty_iff, List.dropWhile_eq_nil_iff]
  intro c hc
  rw [bne_iff_ne]
  rintro rfl
  exact h hc

theorem drop_idxOf (line : List UInt8) (sep : UInt8) :
    line.drop (line.idxOf sep + 1) = (line.dropWhile (· != sep)).tail := by
  rw [List.dropWhile_eq_drop_findIdx_not, List.tail_drop]
  congr 2
  unfold List.idxOf
  congr 1
  funext c
  cases hc : c == sep <;> simp [bne, hc]

theorem extractPassword_eq {r : UserPasswordReader} {sep : Option UInt8}
    (hr : r.guessedSeparator = sep.getD 0) (hsep : sep ≠ some 0) (line : List UInt8) :
    r.extractPassword line = behindSeparator sep line := by
  unfold extractPassword behindSeparator
  rw [hr]
  cases sep with
  | none => simp
  | some sep =>
    have hne : sep ≠ 0 := by
      rintro rfl
      exact hsep rfl
    simp only [Option.getD_some, ne_eq, hne, not_false_eq_true, true_and, drop_idxOf]

theorem linePassword_eq {r : UserPasswordReader} {sep : Option UInt8}
    (hr : r.guessedSeparator = sep.getD 0) (hsep : sep ≠ some 0) (line : List UInt8) :
    r.linePassword line = passwordOf sep line := by
  unfold linePassword passwordOf
  rw [extractPassword_eq hr hsep]
  apply if_congr _ rfl rfl
  rw [Nat.lt_one_iff, List.length_eq_zero_iff, or_comm]

theorem guess_ne_zero (text : List UInt8) : guess text ≠ some 0 := by
  intro h
  have hguess := isGuess_guess text
  rw [h] at hguess
  have hmem := hguess.1
  simp [possibleSeparators] at hmem

theorem create_linePassword (text : List UInt8) (options : List UserPasswordReaderOptions) :
    (create { content := text } options).linePassword = passwordOf (guess text) := by
  funext line
  exact linePassword_eq (create_guessedSeparator text options) (guess_ne_zero text) line

theorem create_passwords (text : List UInt8) (options : List UserPasswordReaderOptions) :
    Yields (create { content := text } options).passwords
      ((textLines text).map (passwordOf (guess text))) := by
  obtain ⟨hhealthy, hrem⟩ := create_lines text options
  rw [← create_linePassword text options, ← hrem]
  exact passwords_yields hhealthy

/-- Whatever was read ahead of them, every line of the text gives its password. -/
theorem every_line_gives_its_password (text : List UInt8)
    (options : List UserPasswordReaderOptions) :
    ∃ sep, IsGuess text sep ∧
      Yields (create { content := text } options).passwords
        ((textLines text).map (passwordOf sep)) :=
  ⟨guess text, isGuess_guess text, create_passwords text options⟩

/-! ## A loop over the passwords -/

section PasswordLoop

variable {β : Type*} (body : β → List UInt8 → β)

/-- One turn of `while (!eof())` with a body that takes the next password. -/
def passwordTurn (s : UserPasswordReader × β) : (UserPasswordReader × β) ⊕ β :=
  if s.1.eof then .inr s.2
  else
    let (pwd, r) := s.1.nextPassword
    .inl (r, body s.2 pwd)

/-- The loop folds the passwords that are still to come, turn by turn as they are read. -/
theorem passwordTurn_folds {r : UserPasswordReader} (h : r.input.Healthy) (b : β) :
    Yields (fun fuel => loop (passwordTurn body) fuel (r, b))
      ((r.input.remaining.map r.linePassword).foldl body b) := by
  have hgo : ∀ (s : UserPasswordReader × β) (s' u' : UserPasswordReader × _),
      s.1 = s'.1 ∧ s.2 = s'.2.foldl body b → resultsTurn nextPassword s' = .inl u' →
      ∃ u, passwordTurn body s = .inl u ∧ u.1 = u'.1 ∧ u.2 = u'.2.foldl body b := by
    rintro ⟨r, x⟩ ⟨r', pwds⟩ u' ⟨hr, hx⟩ hturn
    dsimp only at hr hx
    subst hr hx
    cases he : r.eof with
    | true => simp [resultsTurn, he] at hturn
    | false =>
      simp only [resultsTurn, he, Bool.false_eq_true, if_false, Sum.inl.injEq] at hturn
      subst hturn
      simp [passwordTurn, he]
  have hstop : ∀ (s : UserPasswordReader × β) (s' : UserPasswordReader × _) t',
      s.1 = s'.1 ∧ s.2 = s'.2.foldl body b → resultsTurn nextPassword s' = .inr t' →
      ∃ t, passwordTurn body s = .inr t ∧ t = t'.foldl body b := by
    rintro ⟨r, x⟩ ⟨r', pwds⟩ t' ⟨hr, hx⟩ hturn
    dsimp only at hr hx
    subst hr hx
    cases he : r.eof with
    | true =>
      simp only [resultsTurn, he, if_true, Sum.inr.injEq] at hturn
      subst hturn
      simp [passwordTurn, he]
    | false => simp [resultsTurn, he] at hturn
  obtain ⟨t, hyields, rfl⟩ := loop_simulates (passwordTurn body) (resultsTurn nextPassword) _ _
    hgo hstop (s := (r, b)) ⟨rfl, rfl⟩ (passwords_yields h)
  exact hyields

/-- The loop folds the passwords of the text. -/
theorem passwordTurn_yields (text : List UInt8) (options : List UserPasswordReaderOptions) (b : β) :
    Yields (fun fuel => loop (passwordTurn body) fuel (create { content := text } options, b))
      (((textLines text).map (passwordOf (guess text))).foldl body b) := by
  obtain ⟨hhealthy, hrem⟩ := create_lines text options
  have hfolds := passwordTurn_folds body hhealthy b
  rwa [hrem, create_linePassword] at hfolds

theorem passwordTurn_diverges {r : UserPasswordReader} (h : r.input.Stuck) (b : β) :
    Diverges fun fuel => loop (passwordTurn body) fuel (r, b) := by
  apply loop_diverges (passwordTurn body) (fun s => s.1.input.Stuck) _ h
  rintro ⟨r, b⟩ hs
  have he : r.eof = false := hs.not_eof
  unfold passwordTurn
  simp only [he, Bool.false_eq_true, if_false]
  exact ⟨_, rfl, stuck_nextPassword hs⟩

end PasswordLoop

end pwned.UserPasswordReader
