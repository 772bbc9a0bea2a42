-- The reader of lists of passwords. It guesses the separator and the
-- encoding from the first lines and then gives the hash of each line.
import Pwned.Library.TextStream
import Pwned.HashHex

namespace pwned

inductive UserPasswordReaderOptions
  | forceEvaluateMD5Hashes
  | forceEvaluateHexEncodedPasswords
  | autoEvaluateMD5Hashes
  | autoEvaluateHexEncodedPasswords
deriving DecidableEq, Repr

structure UserPasswordReader where
  input : TextStream
  guessedSeparator : UInt8 := 0
  forceEvaluateHexEncodedPasswords : Bool := false
  forceEvaluateMD5Hashes : Bool := false
  autoEvaluateHexEncodedPasswords : Bool := false
  autoEvaluateMD5Hashes : Bool := false
  currentLine : List UInt8 := []
deriving DecidableEq, Repr

namespace UserPasswordReader

def nTries : Nat := 500

def eof (r : UserPasswordReader) : Bool := r.input.eofbit

def bad (r : UserPasswordReader) : Bool := r.input.badbit

/-- A line without its `\r`. -/
def removeCR (line : List UInt8) : List UInt8 := line.filter (· != 13)

/-! ## The two regular expressions -/

/-- `[a-zA-Z0-9]` -/
def isAlnum (c : UInt8) : Bool :=
  (97 ≤ c && c ≤ 122) || (65 ≤ c && c ≤ 90) || (48 ≤ c && c ≤ 57)

/-- `MD5Regex` on the whole text. -/
def matchMD5 (text : List UInt8) : Bool := text.length == 32 && text.all isAlnum

/-- `MD5Regex` somewhere in the text. -/
def searchMD5 (text : List UInt8) : Bool := text.tails.any fun t => matchMD5 (t.take 32)

/-- `$HEX[` -/
def hexPrefix : List UInt8 := [36, 72, 69, 88, 91]

/-- `HexRegex` at the start of the text: the group, and the text behind the match. -/
def hexGroup (text : List UInt8) : Option (List UInt8 × List UInt8) :=
  if hexPrefix.isPrefixOf text then
    let rest := text.drop hexPrefix.length
    let group := rest.takeWhile isAlnum
    match rest.drop group.length with
    | 93 :: tail => if group ≠ [] ∧ group.length % 2 = 0 then some (group, tail) else none
    | _ => none
  else none

/-- `HexRegex` on the whole text. -/
def matchHex (text : List UInt8) : Option (List UInt8) :=
  match hexGroup text with
  | some (group, []) => some group
  | _ => none

/-- `HexRegex` somewhere in the text. -/
def searchHex (text : List UInt8) : Bool := text.tails.any fun t => (hexGroup t).isSome

/-! ## The first lines -/

/-- `input.clear()` and `input.seekg(0)`. -/
def rewind (r : UserPasswordReader) : UserPasswordReader :=
  { r with input := r.input.clear.seekBeg }

/-- `possibleSeparators`, in the order of their codes as the map keeps them. -/
def possibleSeparators : List UInt8 := [9, 32, 58, 59]

/-- The loop of `guessSeparator`: in how many of the lines each separator was found. -/
def successfulSplits : Nat → TextStream → List UInt8 → (UInt8 → Nat) →
    (UInt8 → Nat) × TextStream
  | 0, input, _, splits => (splits, input)
  | n + 1, input, line, splits =>
    if input.eofbit then (splits, input)
    else
      let (line, input) := input.getline line
      let line := removeCR line
      successfulSplits n input line fun sep =>
        if line.contains sep then splits sep + 1 else splits sep

/-- `std::max_element` of the splits: the first one with the most lines. -/
def maxSep (splits : UInt8 → Nat) : Option UInt8 :=
  (possibleSeparators.filter fun sep => 0 < splits sep).foldl (fun best sep =>
    match best with
    | none => some sep
    | some b => if splits b < splits sep then some sep else some b) none

def guessSeparator (r : UserPasswordReader) : UserPasswordReader :=
  let (splits, input) := successfulSplits nTries r.input [] fun _ => 0
  rewind { r with input, guessedSeparator := (maxSep splits).getD r.guessedSeparator }

/-- The loop of the two checks: whether one of the lines, prepared by `prep`, has the separator
and is found. -/
def sniff (prep : List UInt8 → List UInt8) (found : List UInt8 → Bool) (sep : UInt8) :
    Nat → TextStream → List UInt8 → Bool × TextStream
  | 0, input, _ => (false, input)
  | n + 1, input, line =>
    if input.eofbit then (false, input)
    else
      let (line, input) := input.getline line
      let line := prep line
      if line.contains sep && found line then (true, input)
      else sniff prep found sep n input line

def checkForMD5Hashes (r : UserPasswordReader) : UserPasswordReader :=
  if !r.forceEvaluateMD5Hashes && r.autoEvaluateMD5Hashes then
    let (hit, input) := sniff removeCR searchMD5 r.guessedSeparator nTries r.input []
    rewind { r with input, forceEvaluateMD5Hashes := hit }
  else rewind r

def checkForHexEncodedPasswords (r : UserPasswordReader) : UserPasswordReader :=
  if r.forceEvaluateHexEncodedPasswords then r
  else if r.autoEvaluateHexEncodedPasswords then
    let (hit, input) := sniff id searchHex r.guessedSeparator nTries r.input []
    rewind { r with input, forceEvaluateHexEncodedPasswords := hit }
  else rewind r

def evaluateContents (r : UserPasswordReader) : UserPasswordReader :=
  r.guessSeparator.checkForHexEncodedPasswords.checkForMD5Hashes

/-- The constructor. -/
def create (input : TextStream) (options : List UserPasswordReaderOptions) :
    UserPasswordReader :=
  evaluateContents
    { input,
      forceEvaluateMD5Hashes := options.contains .forceEvaluateMD5Hashes,
      forceEvaluateHexEncodedPasswords := options.contains .forceEvaluateHexEncodedPasswords,
      autoEvaluateMD5Hashes := options.contains .autoEvaluateMD5Hashes,
      autoEvaluateHexEncodedPasswords := options.contains .autoEvaluateHexEncodedPasswords }

/-! ## The hash of a line -/

def extractPassword (r : UserPasswordReader) (line : List UInt8) : List UInt8 :=
  let line := removeCR line
  if r.guessedSeparator ≠ 0 ∧ r.guessedSeparator ∈ line then
    line.drop (line.idxOf r.guessedSeparator + 1)
  else line

/-- The password in a line, none in one that is empty or longer than 200 characters. -/
def linePassword (r : UserPasswordReader) (line : List UInt8) : List UInt8 :=
  if 200 < line.length ∨ line.length < 1 then [] else r.extractPassword line

def nextPassword (r : UserPasswordReader) : List UInt8 × UserPasswordReader :=
  if r.eof || r.bad then ([], r)
  else
    let (line, input) := r.input.getline r.currentLine
    let r := { r with input, currentLine := line }
    (r.linePassword line, r)

section MD5

variable (md5 : List UInt8 → Vector UInt8 16)

/-- `Hash(pwd)` -/
def hashOf (pwd : List UInt8) : Hash :=
  { (({} : Hash).setData (md5 pwd).toList).toHostByteOrder with isValid := true }

/-- What `nextPasswordHash` makes of a password. -/
def passwordHash (r : UserPasswordReader) (pwd : List UInt8) : Hash :=
  if pwd.isEmpty then {}
  else
    let hash := if r.forceEvaluateMD5Hashes && matchMD5 pwd then Hash.fromHex pwd else {}
    if hash.isValid then hash
    else
      match r.forceEvaluateHexEncodedPasswords, matchHex pwd with
      | true, some group => hashOf md5 (hexToCharSeq group).2
      | _, _ => hashOf md5 pwd

def nextPasswordHash (r : UserPasswordReader) : Hash × UserPasswordReader :=
  let (pwd, r) := r.nextPassword
  (r.passwordHash md5 pwd, r)

end MD5

/-! ## The start of the file -/

theorem sameFile_successfulSplits (n : Nat) :
    ∀ (input : TextStream) (line : List UInt8) (splits : UInt8 → Nat),
      input.SameFile (successfulSplits n input line splits).2 := by
  induction n with
  | zero =>
    intro input line splits
    exact TextStream.SameFile.refl input
  | succ n ih =>
    intro input line splits
    unfold successfulSplits
    split
    · exact TextStream.SameFile.refl input
    · exact (input.sameFile_getline line).trans (ih _ _ _)

theorem sameFile_sniff (prep : List UInt8 → List UInt8) (found : List UInt8 → Bool)
    (sep : UInt8) (n : Nat) :
    ∀ (input : TextStream) (line : List UInt8),
      input.SameFile (sniff prep found sep n input line).2 := by
  induction n with
  | zero =>
    intro input line
    exact TextStream.SameFile.refl input
  | succ n ih =>
    intro input line
    unfold sniff
    split
    · exact TextStream.SameFile.refl input
    · dsimp only
      split
      · exact input.sameFile_getline line
      · exact (input.sameFile_getline line).trans (ih _ _)

/-- The stream stands where a rewind leaves it. -/
def Rewound (input : TextStream) (r : UserPasswordReader) : Prop :=
  ∃ t, input.SameFile t ∧ r.input = t.clear.seekBeg

theorem rewound_rewind {input : TextStream} {r : UserPasswordReader}
    (h : input.SameFile r.input) : Rewound input r.rewind := ⟨r.input, h, rfl⟩

theorem Rewound.sameFile {input : TextStream} {r : UserPasswordReader} (h : Rewound input r) :
    input.SameFile r.input := by
  obtain ⟨t, ht, he⟩ := h
  rw [he]
  exact ht.trans t.sameFile_rewind

theorem rewound_guessSeparator {input : TextStream} {r : UserPasswordReader}
    (h : input.SameFile r.input) : Rewound input r.guessSeparator :=
  rewound_rewind (h.trans (sameFile_successfulSplits nTries r.input [] _))

theorem rewound_checkForHexEncodedPasswords {input : TextStream} {r : UserPasswordReader}
    (h : Rewound input r) : Rewound input r.checkForHexEncodedPasswords := by
  unfold checkForHexEncodedPasswords
  split
  · exact h
  · split
    · have hs := sameFile_sniff id searchHex r.guessedSeparator nTries r.input []
      exact rewound_rewind (h.sameFile.trans hs)
    · exact rewound_rewind h.sameFile

theorem rewound_checkForMD5Hashes {input : TextStream} {r : UserPasswordReader}
    (h : Rewound input r) : Rewound input r.checkForMD5Hashes := by
  unfold checkForMD5Hashes
  split
  · have hs := sameFile_sniff removeCR searchMD5 r.guessedSeparator nTries r.input []
    exact rewound_rewind (h.sameFile.trans hs)
  · exact rewound_rewind h.sameFile

theorem rewound_create (input : TextStream) (options : List UserPasswordReaderOptions) :
    Rewound input (create input options) :=
  rewound_checkForMD5Hashes
    (rewound_checkForHexEncodedPasswords (rewound_guessSeparator (TextStream.SameFile.refl input)))

/-- The reader of an open file starts at its first line. -/
theorem create_input (input : TextStream) (options : List UserPasswordReaderOptions)
    (h : input.isOpen = true) :
    (create input options).input = { content := input.content, broken := input.broken } := by
  obtain ⟨t, ht, he⟩ := rewound_create input options
  rw [he, TextStream.rewind_eq (ht.isOpen.trans h), ht.content, ht.broken]

theorem create_input_closed (input : TextStream) (options : List UserPasswordReaderOptions)
    (h : input.isOpen = false) :
    (create input options).input.eofbit = false ∧ (create input options).input.failbit = true := by
  obtain ⟨t, ht, he⟩ := rewound_create input options
  rw [he]
  exact TextStream.rewind_closed (ht.isOpen.trans h)

/-- The reader of a file that cannot be opened or read to its end never comes to the end. -/
theorem stuck_create {input : TextStream} (options : List UserPasswordReaderOptions)
    (h : ¬ (input.isOpen = true ∧ input.broken = false)) : (create input options).input.Stuck := by
  by_cases hopen : input.isOpen = true
  · rw [create_input input options hopen]
    exact ⟨rfl, Or.inl (by simpa [hopen] using h)⟩
  · obtain ⟨he, hf⟩ := create_input_closed input options (by simpa using hopen)
    exact ⟨he, Or.inr (by simp [TextStream.good, hf])⟩

theorem stuck_nextPassword {r : UserPasswordReader} (h : r.input.Stuck) :
    r.nextPassword.2.input.Stuck := by
  unfold nextPassword
  split
  · exact h
  · exact h.getline r.currentLine

/-! ## One line after the other -/

section Lines

variable (md5 : List UInt8 → Vector UInt8 16)

/-- The hash that a line gives. -/
def lineHash (r : UserPasswordReader) (line : List UInt8) : Hash :=
  r.passwordHash md5 (r.linePassword line)

/-- The two readers make the same of a line. -/
structure SameSettings (r r' : UserPasswordReader) : Prop where
  separator : r'.guessedSeparator = r.guessedSeparator
  hex : r'.forceEvaluateHexEncodedPasswords = r.forceEvaluateHexEncodedPasswords
  digest : r'.forceEvaluateMD5Hashes = r.forceEvaluateMD5Hashes

theorem SameSettings.lineHash_eq {r r' : UserPasswordReader} (h : SameSettings r r')
    (line : List UInt8) : r'.lineHash md5 line = r.lineHash md5 line := by
  unfold lineHash passwordHash linePassword extractPassword
  rw [h.separator, h.hex, h.digest]

theorem SameSettings.trans {r r' r'' : UserPasswordReader} (h : SameSettings r r')
    (h' : SameSettings r' r'') : SameSettings r r'' :=
  ⟨h'.separator.trans h.separator, h'.hex.trans h.hex, h'.digest.trans h.digest⟩

theorem sameSettings_nextPassword (r : UserPasswordReader) :
    SameSettings r r.nextPassword.2 := by
  unfold nextPassword
  split <;> exact ⟨rfl, rfl, rfl⟩

theorem sameSettings_nextPasswordHash (r : UserPasswordReader) :
    SameSettings r (r.nextPasswordHash md5).2 := r.sameSettings_nextPassword

/-- A reader in front of a line gives its hash and moves on. -/
theorem nextPasswordHash_of_lines {r : UserPasswordReader} {l : List UInt8}
    {ls : List (List UInt8)} (h : r.input.Lines (l :: ls)) (hb : r.input.broken = false) :
    (r.nextPasswordHash md5).1 = r.lineHash md5 l ∧
      (r.nextPasswordHash md5).2.input.Healthy ∧
      (r.nextPasswordHash md5).2.input.remaining = ls := by
  obtain ⟨he, -, hbad⟩ := (TextStream.good_iff _).mp h.good
  obtain ⟨hline, hrest⟩ := h.getline_next hb r.currentLine
  unfold nextPasswordHash nextPassword eof bad lineHash
  rw [he, hbad]
  simp only [Bool.or_self, Bool.false_eq_true, if_false, hline]
  exact ⟨rfl, hrest⟩

end Lines

end UserPasswordReader

end pwned
