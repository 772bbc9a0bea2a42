-- An input file stream with its position and its three state bits. A read
-- that gets fewer bytes than it asked for sets eofbit and failbit, and a
-- stream that is not good transfers nothing.
import Mathlib

/-- An open `std::ifstream`, with the bytes that the file had when it was opened. -/
structure InputStream where
  content : List UInt8
  pos : Nat := 0
  eofbit : Bool := false
  failbit : Bool := false
  badbit : Bool := false
deriving DecidableEq, Repr

namespace InputStream

def good (s : InputStream) : Bool := !s.eofbit && !s.failbit && !s.badbit

/-- `fail()`: failbit or badbit. -/
def fail (s : InputStream) : Bool := s.failbit || s.badbit

/-- `read(s, n)`: the bytes transferred, `gcount()` of them. -/
def read (s : InputStream) (n : Nat) : List UInt8 × InputStream :=
  if s.good then
    let got := (s.content.drop s.pos).take n
    let short := decide (got.length < n)
    (got, { s with pos := s.pos + got.length, eofbit := short, failbit := short })
  else
    -- the sentry of a stream that is not good sets failbit
    ([], { s with failbit := true })

/-- `seekg(off)`: clears eofbit first, and does nothing more on a failed stream. -/
def seekg (s : InputStream) (off : Int) : InputStream :=
  if s.fail then { s with eofbit := false, failbit := true }
  else if off < 0 then { s with eofbit := false, failbit := true }
  else { s with eofbit := false, pos := off.toNat }

/-- `tellg()`: the position, or -1 on a stream that is not good. -/
def tellg (s : InputStream) : Int × InputStream :=
  if s.good then (s.pos, s) else (-1, { s with failbit := true })

/-! ## Reads -/

theorem good_iff (s : InputStream) :
    s.good = true ↔ s.eofbit = false ∧ s.failbit = false ∧ s.badbit = false := by
  simp [good, and_assoc]

theorem not_good_of_fail {s : InputStream} (h : s.fail = true) : s.good = false := by
  simp only [fail, Bool.or_eq_true] at h
  rcases h with h | h <;> simp [good, h]

theorem fail_of_good {s : InputStream} (h : s.good = true) : s.fail = false := by
  obtain ⟨_, hf, hb⟩ := (good_iff s).mp h
  simp [fail, hf, hb]

/-- A read of bytes that are there gives them and moves on. -/
theorem read_of_le {s : InputStream} {n : Nat} (hg : s.good = true)
    (h : s.pos + n ≤ s.content.length) :
    s.read n = ((s.content.drop s.pos).take n, { s with pos := s.pos + n }) := by
  obtain ⟨he, hf, _⟩ := (good_iff s).mp hg
  have hlen : ((s.content.drop s.pos).take n).length = n := by simp; omega
  simp only [read, hg, if_true, hlen]
  cases s
  simp_all

/-- A read at the end of the file gives nothing and fails the stream. -/
theorem read_at_end {s : InputStream} {n : Nat} (hg : s.good = true) (hn : 0 < n)
    (h : s.content.length ≤ s.pos) :
    s.read n = ([], { s with eofbit := true, failbit := true }) := by
  have hnil : s.content.drop s.pos = [] := List.drop_eq_nil_of_le h
  simp [read, hg, hnil, hn]

/-- A failed stream transfers nothing and stays failed. -/
theorem read_of_not_good {s : InputStream} {n : Nat} (hg : s.good = false) :
    s.read n = ([], { s with failbit := true }) := by
  simp [read, hg]

@[simp] theorem read_content (s : InputStream) (n : Nat) : (s.read n).2.content = s.content := by
  unfold read
  split <;> rfl

/-! ## Seeks -/

@[simp] theorem seekg_content (s : InputStream) (off : Int) :
    (s.seekg off).content = s.content := by
  unfold seekg
  split_ifs <;> rfl

theorem seekg_of_fail {s : InputStream} (off : Int) (h : s.fail = true) :
    s.seekg off = { s with eofbit := false, failbit := true } := by
  simp [seekg, h]

theorem seekg_nat {s : InputStream} (p : Nat) (h : s.fail = false) :
    s.seekg p = { s with eofbit := false, pos := p } := by
  simp [seekg, h]

theorem seekg_neg {s : InputStream} {off : Int} (h : off < 0) :
    s.seekg off = { s with eofbit := false, failbit := true } := by
  simp [seekg, h]

theorem seekg_good {s : InputStream} (p : Nat) (h : s.fail = false) :
    (s.seekg p).good = true := by
  rw [seekg_nat p h]
  simpa [good, fail] using h

/-! ## What a stream has still to give -/

/-- The stream is good, and the bytes are what it has still to give. -/
structure Holds (s : InputStream) (bs : List UInt8) : Prop where
  good : s.good = true
  rest : s.content.drop s.pos = bs

theorem holds_open (bs : List UInt8) : Holds { content := bs } bs := ⟨rfl, rfl⟩

theorem Holds.not_eof {s : InputStream} {bs : List UInt8} (h : s.Holds bs) : s.eofbit = false :=
  ((good_iff s).mp h.good).1

theorem Holds.read {s : InputStream} {as bs : List UInt8} {n : Nat} (h : s.Holds (as ++ bs))
    (hn : as.length = n) : ∃ s', s.read n = (as, s') ∧ s'.Holds bs := by
  obtain ⟨he, hf, hb⟩ := (good_iff s).mp h.good
  have hgot : (s.content.drop s.pos).take n = as := by
    rw [h.rest, ← hn, List.take_left]
  have hrest : s.content.drop (s.pos + n) = bs := by
    rw [← List.drop_drop, h.rest, ← hn, List.drop_left]
  refine ⟨{ s with pos := s.pos + n, eofbit := false, failbit := false }, ?_, ?_, hrest⟩
  · unfold InputStream.read
    simp only [h.good, if_true, hgot, hn, lt_irrefl, decide_false]
  · simp [InputStream.good, hb]

/-- A read of more than the stream has to give. -/
theorem Holds.read_short {s : InputStream} {bs : List UInt8} {n : Nat} (h : s.Holds bs)
    (hn : bs.length < n) :
    ∃ s', s.read n = (bs, s') ∧ s'.content = s.content ∧ s'.fail = true := by
  have hgot : (s.content.drop s.pos).take n = bs := by
    rw [h.rest, List.take_of_length_le hn.le]
  refine ⟨{ s with pos := s.pos + bs.length, eofbit := true, failbit := true }, ?_, rfl, rfl⟩
  unfold InputStream.read
  simp only [h.good, if_true, hgot, hn, decide_true]

theorem Holds.eof_of_short {s : InputStream} {bs : List UInt8} {n : Nat} (h : s.Holds bs)
    (hn : bs.length < n) : (s.read n).2.eofbit = true := by
  have hlen : ((s.content.drop s.pos).take n).length < n := by
    rwa [h.rest, List.take_of_length_le hn.le]
  unfold InputStream.read
  simp only [h.good, if_true, hlen, decide_true]

end InputStream
