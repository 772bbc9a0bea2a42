-- The tool that turns a file of big-endian records into a little-endian one.
-- Its loop looks for the end of the file before it reads.
import Pwned.HashHex
import Pwned.Library.Fuel
import Pwned.PasswordHashAndCount

open pwned

namespace be2le

/-- The variables of the loop in `main`, with what has been written. -/
structure Conversion where
  phc : PasswordHashAndCount := {}
  input : InputStream
  out : List UInt8 := []

/-- One turn of the loop. What `read` returns is not looked at. -/
def turn (s : Conversion) : Conversion ⊕ Conversion :=
  if s.input.eofbit then .inr s
  else
    let (_, phc, input) := s.phc.read s.input
    let phc := { phc with hash := phc.hash.toHostByteOrder }
    .inl { phc, input, out := s.out ++ phc.dump }

/-- What `main` writes for an input file with the bytes, when both files are open. -/
def main (fuel : Nat) (content : List UInt8) : Option (List UInt8) :=
  (loop turn fuel { input := { content } }).map Conversion.out

/-! ## Records -/

/-- The record with the bytes of its hash words swapped. -/
def swapped (r : Record) : Record := { r with upper := ntohll r.upper, lower := ntohll r.lower }

theorem swapped_swapped (r : Record) : swapped (swapped r) = r := by
  unfold swapped
  dsimp only
  rw [Hash.ntohll_ntohll, Hash.ntohll_ntohll]

theorem swapped_phc (r : Record) :
    { r.phc with hash := r.phc.hash.toHostByteOrder } = (swapped r).phc := rfl

/-- The record of an entry that was never read. -/
def blank : Record := { upper := 0, lower := 0, count := 0 }

/-! ## The loop -/

/-- The loop converts every record, and then what it holds once more. -/
theorem loop_writes (rs : List Record) :
    ∀ (r : Record) (input : InputStream) (out : List UInt8), Gives input rs →
      ∃ s, Yields (fun fuel => loop turn fuel { phc := (swapped r).phc, input, out }) s ∧
        s.out = out ++ encodeAll (rs.map swapped) ++ (rs.getLastD r).encode := by
  induction rs with
  | nil =>
    intro r input out hgives
    -- the read at the end of the file leaves the last record, which is swapped back
    have hread := PasswordHashAndCount.read_at_end (swapped r).phc hgives
    have heof : input.eofbit = false := ((InputStream.good_iff _).mp hgives.good).1
    refine ⟨{ phc := r.phc, input := { input with eofbit := true, failbit := true },
              out := out ++ r.encode }, ?_, by simp [encodeAll]⟩
    apply Yields.of_shift 2
    apply Yields.of_eq
    intro fuel
    have hturn : turn { phc := (swapped r).phc, input, out } = .inl
        { phc := r.phc, input := { input with eofbit := true, failbit := true },
          out := out ++ r.encode } := by
      unfold turn
      rw [if_neg (by simp [heof])]
      dsimp only
      rw [hread]
      dsimp only
      rw [swapped_phc, swapped_swapped]
      rfl
    rw [loop, hturn]
    rfl
  | cons q rs ih =>
    intro r input out hgives
    obtain ⟨input', hread, hgives', -⟩ :=
      PasswordHashAndCount.read_of_gives (swapped r).phc rfl hgives
    have heof : input.eofbit = false := ((InputStream.good_iff _).mp hgives.good).1
    have hturn : turn { phc := (swapped r).phc, input, out } = .inl
        { phc := (swapped q).phc, input := input', out := out ++ (swapped q).encode } := by
      unfold turn
      rw [if_neg (by simp [heof])]
      dsimp only
      rw [hread]
      dsimp only
      rw [swapped_phc]
      rfl
    obtain ⟨s, hy, hout⟩ := ih q input' (out ++ (swapped q).encode) hgives'
    refine ⟨s, Yields.of_shift 1 ?_, ?_⟩
    · simpa only [loop, hturn] using hy
    · rw [hout, List.map_cons, encodeAll_cons, List.getLastD_cons]
      simp only [List.append_assoc]

/-- The records are converted, and the last one follows as it was. -/
theorem main_writes (rs : List Record) :
    Yields (fun fuel => main fuel (encodeAll rs))
      (encodeAll (rs.map swapped ++ [rs.getLastD blank])) := by
  have hblank : ({} : PasswordHashAndCount) = (swapped blank).phc := by decide
  obtain ⟨s, hy, hout⟩ := loop_writes rs blank _ [] (gives_open rs)
  rw [← hblank] at hy
  have hmain := hy.map Conversion.out
  have hjoin : encodeAll (rs.map swapped ++ [rs.getLastD blank]) =
      [] ++ encodeAll (rs.map swapped) ++ (rs.getLastD blank).encode := by
    simp [encodeAll]
  rw [hjoin, ← hout]
  exact hmain

/-! ## The law -/

/-- The file is converted record by record. -/
def Converts (rs : List Record) : Prop :=
  Yields (fun fuel => main fuel (encodeAll rs)) (encodeAll (rs.map swapped))

/-- Two conversions give the file back. -/
def ComesBack (rs : List Record) : Prop :=
  ∃ out, Yields (fun fuel => main fuel (encodeAll rs)) out ∧
    Yields (fun fuel => main fuel out) (encodeAll rs)

/-- What is written has one record more than the file. -/
theorem length_of_yields {rs ss : List Record}
    (h : Yields (fun fuel => main fuel (encodeAll rs)) (encodeAll ss)) :
    ss.length = rs.length + 1 := by
  have hrecords := encodeAll_injective (h.unique (main_writes rs))
  rw [hrecords, List.length_append, List.length_map]
  rfl

/-- No file is converted record by record, and none comes back. -/
theorem never_converts (rs : List Record) : ¬ Converts rs ∧ ¬ ComesBack rs := by
  constructor
  · intro h
    have hlen := length_of_yields h
    rw [List.length_map] at hlen
    omega
  · rintro ⟨out, hout, hback⟩
    rw [hout.unique (main_writes rs)] at hback
    have hlen := length_of_yields hback
    rw [List.length_append, List.length_map] at hlen
    omega

/-- A file of one record becomes a file of two. -/
theorem one_record_becomes_two : ¬ Converts [⟨1, 2, 3⟩] := by
  intro hyields
  have hend : Yields (fun fuel => main fuel (encodeAll [⟨1, 2, 3⟩]))
      (encodeAll [swapped ⟨1, 2, 3⟩, ⟨1, 2, 3⟩]) :=
    Yields.of_shift 3 (Yields.of_eq fun _ => by rw [main]; rfl)
  have hlen := congrArg List.length (hyields.unique hend)
  revert hlen
  decide

end be2le
