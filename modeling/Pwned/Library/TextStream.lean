-- An input file stream that is read line by line. Behind its content there
-- is the end of the file, or the device fails.
import Mathlib

structure TextStream where
  content : List UInt8
  isOpen : Bool := true
  /-- A read behind the content is an error of the device and not the end of the file. -/
  broken : Bool := false
  pos : Nat := 0
  eofbit : Bool := false
  failbit : Bool := false
  badbit : Bool := false
deriving DecidableEq, Repr

namespace TextStream

/-- A stream whose file could not be opened. -/
def closed : TextStream := { content := [], isOpen := false, failbit := true }

def good (s : TextStream) : Bool := !s.eofbit && !s.failbit && !s.badbit

/-- `fail()`: failbit or badbit. -/
def fail (s : TextStream) : Bool := s.failbit || s.badbit

/-- The stream behind its content. -/
def atEnd (s : TextStream) (got : List UInt8) : TextStream :=
  let s := { s with pos := s.pos + got.length, failbit := got.isEmpty }
  if s.broken then { s with badbit := true } else { s with eofbit := true }

/-- `std::getline(s, line)`. Without a line break it gives what is there up to the end. A stream
that is not good leaves the line as it was. -/
def getline (s : TextStream) (line : List UInt8) : List UInt8 × TextStream :=
  if s.good then
    let rest := s.content.drop s.pos
    let got := rest.takeWhile (· != 10)
    if got.length < rest.length then (got, { s with pos := s.pos + got.length + 1 })
    else (got, s.atEnd got)
  else (line, { s with failbit := true })

def clear (s : TextStream) : TextStream :=
  { s with eofbit := false, failbit := false, badbit := false }

/-- `seekg(0, beg)`, which fails where no file is open. -/
def seekBeg (s : TextStream) : TextStream :=
  if s.fail then { s with eofbit := false, failbit := true }
  else if s.isOpen then { s with eofbit := false, pos := 0 }
  else { s with eofbit := false, failbit := true }

/-! ## Lines -/

/-- The stream is good, and the lines are what it has still to give. Behind a last line break
there is an empty line. -/
structure Lines (s : TextStream) (ls : List (List UInt8)) : Prop where
  good : s.good = true
  rest : (s.content.drop s.pos).splitOn 10 = ls

theorem Lines.ne_nil {s : TextStream} {ls : List (List UInt8)} (h : s.Lines ls) : ls ≠ [] := by
  rw [← h.rest]
  exact List.splitOn_ne_nil 10 _

theorem good_iff (s : TextStream) :
    s.good = true ↔ s.eofbit = false ∧ s.failbit = false ∧ s.badbit = false := by
  simp [good, and_assoc]

/-- The first line, and the lines behind its line break. -/
theorem splitOn_eq (bs : List UInt8) :
    bs.splitOn 10 =
      if (bs.takeWhile (· != 10)).length < bs.length then
        bs.takeWhile (· != 10) :: (bs.drop ((bs.takeWhile (· != 10)).length + 1)).splitOn 10
      else [bs.takeWhile (· != 10)] := by
  induction bs with
  | nil => rfl
  | cons b bs ih =>
    rw [List.splitOn_cons_eq_if_modifyHead, List.takeWhile_cons]
    by_cases hb : b = 10
    · simp [hb]
    · have hne : (b != 10) = true := by simp [hb]
      have heq : (b == 10) = false := by simp [hb]
      simp only [heq, hne, if_true, Bool.false_eq_true, if_false, ih, List.length_cons,
        Nat.add_lt_add_iff_right, List.drop_succ_cons]
      split <;> rfl

/-- A line with others behind it. -/
theorem Lines.getline_cons {s : TextStream} {l : List UInt8} {ls : List (List UInt8)}
    (h : s.Lines (l :: ls)) (hne : ls ≠ []) (line : List UInt8) :
    ∃ n, s.getline line = (l, { s with pos := n }) ∧
      ({ s with pos := n } : TextStream).Lines ls := by
  have hrest := h.rest
  rw [splitOn_eq] at hrest
  unfold getline
  rw [if_pos h.good]
  dsimp only
  split at hrest
  · rename_i hlt
    rw [List.drop_drop] at hrest
    obtain ⟨hl, hls⟩ := List.cons.inj hrest
    refine ⟨s.pos + l.length + 1, ?_, ?_, ?_⟩
    · rw [if_pos hlt, hl]
    · exact h.good
    · rw [← hls, hl, Nat.add_assoc]
  · obtain ⟨-, hls⟩ := List.cons.inj hrest
    exact absurd hls.symm hne

/-- The last line. -/
theorem Lines.getline_last {s : TextStream} {l : List UInt8} (h : s.Lines [l])
    (line : List UInt8) : s.getline line = (l, s.atEnd l) := by
  have hrest := h.rest
  rw [splitOn_eq] at hrest
  unfold getline
  rw [if_pos h.good]
  dsimp only
  split at hrest
  · obtain ⟨-, hls⟩ := List.cons.inj hrest
    exact absurd hls (List.splitOn_ne_nil 10 _)
  · rename_i hlt
    rw [if_neg hlt, (List.cons.inj hrest).1]

/-- A stream that has failed without the end of the file stays so. -/
theorem getline_of_not_good {s : TextStream} (h : s.good = false) (line : List UInt8) :
    s.getline line = (line, { s with failbit := true }) := by
  unfold getline
  rw [if_neg (by simp [h])]

/-! ## The file behind a stream -/

/-- The two streams read one file. -/
structure SameFile (s t : TextStream) : Prop where
  content : t.content = s.content
  isOpen : t.isOpen = s.isOpen
  broken : t.broken = s.broken

theorem SameFile.refl (s : TextStream) : SameFile s s := ⟨rfl, rfl, rfl⟩

theorem SameFile.trans {s t u : TextStream} (h : SameFile s t) (h' : SameFile t u) : SameFile s u :=
  ⟨h'.content.trans h.content, h'.isOpen.trans h.isOpen, h'.broken.trans h.broken⟩

theorem sameFile_atEnd (s : TextStream) (got : List UInt8) : SameFile s (s.atEnd got) := by
  unfold atEnd
  dsimp only
  split <;> exact ⟨rfl, rfl, rfl⟩

theorem sameFile_getline (s : TextStream) (line : List UInt8) :
    SameFile s (s.getline line).2 := by
  unfold getline
  split
  · dsimp only
    split
    · exact ⟨rfl, rfl, rfl⟩
    · exact sameFile_atEnd s _
  · exact ⟨rfl, rfl, rfl⟩

theorem sameFile_rewind (s : TextStream) : SameFile s s.clear.seekBeg := by
  unfold seekBeg clear
  split_ifs <;> exact ⟨rfl, rfl, rfl⟩

/-- At the start of an open file every line is still to come. -/
theorem rewind_eq {s : TextStream} (h : s.isOpen = true) :
    s.clear.seekBeg = { content := s.content, broken := s.broken } := by
  unfold seekBeg clear fail
  simp [h]

theorem rewind_closed {s : TextStream} (h : s.isOpen = false) :
    s.clear.seekBeg.eofbit = false ∧ s.clear.seekBeg.failbit = true := by
  unfold seekBeg clear fail
  simp [h]

theorem lines_open (content : List UInt8) (broken : Bool) :
    ({ content, broken } : TextStream).Lines (content.splitOn 10) := ⟨by rfl, by rfl⟩

/-! ## What is still to come -/

/-- The lines that are still to come. -/
def remaining (s : TextStream) : List (List UInt8) :=
  if s.good then (s.content.drop s.pos).splitOn 10 else []

theorem lines_remaining {s : TextStream} (h : s.good = true) : s.Lines s.remaining :=
  ⟨h, by rw [remaining, if_pos h]⟩

theorem Lines.remaining_eq {s : TextStream} {ls : List (List UInt8)} (h : s.Lines ls) :
    s.remaining = ls := by
  rw [remaining, if_pos h.good, h.rest]

/-- The stream of a healthy device is good or at its end. -/
structure Healthy (s : TextStream) : Prop where
  unbroken : s.broken = false
  state : s.eofbit = true ∨ s.good = true

theorem Healthy.good {s : TextStream} (h : s.Healthy) (he : s.eofbit = false) : s.good = true := by
  rcases h.state with h | h
  · rw [he] at h
    cases h
  · exact h

theorem remaining_of_eof {s : TextStream} (h : s.eofbit = true) : s.remaining = [] := by
  simp [remaining, good, h]

/-- Every `getline` takes a line, and the last one brings the stream to its end. -/
theorem Lines.getline_next {s : TextStream} {l : List UInt8} {ls : List (List UInt8)}
    (h : s.Lines (l :: ls)) (hb : s.broken = false) (line : List UInt8) :
    (s.getline line).1 = l ∧ (s.getline line).2.Healthy ∧ (s.getline line).2.remaining = ls := by
  cases ls with
  | nil =>
    have heof : (s.atEnd l).eofbit = true := by simp [atEnd, hb]
    rw [h.getline_last]
    refine ⟨rfl, ⟨?_, Or.inl heof⟩, remaining_of_eof heof⟩
    rw [(sameFile_atEnd s l).broken, hb]
  | cons l' ls' =>
    obtain ⟨n, hn, hl⟩ := h.getline_cons (List.cons_ne_nil l' ls') line
    rw [hn]
    exact ⟨rfl, ⟨hb, Or.inr hl.good⟩, hl.remaining_eq⟩

/-! ## Streams without an end -/

/-- The stream is not at the end of its file and will not come to it. -/
structure Stuck (s : TextStream) : Prop where
  not_eof : s.eofbit = false
  cause : s.broken = true ∨ s.good = false

theorem Stuck.getline {s : TextStream} (h : s.Stuck) (line : List UInt8) :
    (s.getline line).2.Stuck := by
  by_cases hgood : s.good
  · have hb : s.broken = true := by simpa [hgood] using h.cause
    refine ⟨?_, Or.inl ((s.sameFile_getline line).broken.trans hb)⟩
    unfold TextStream.getline
    rw [if_pos hgood]
    dsimp only
    split
    · exact h.not_eof
    · simp [TextStream.atEnd, hb, h.not_eof]
  · rw [TextStream.getline_of_not_good (Bool.not_eq_true _ ▸ hgood)]
    exact ⟨h.not_eof, Or.inr (by simp [TextStream.good])⟩

end TextStream
