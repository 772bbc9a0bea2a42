-- When a conversion ends. The outer loop looks for the end of the file only,
-- and a stream that fails for another reason never comes to it.
import Pwned.ConvertCounts

namespace pwned

namespace ConvertOperation

variable {md5 : List UInt8 → Vector UInt8 16} {d : ConvertOperation}

/-- No turn is the last one: the stream is stuck, or there is no memory for a line. -/
def GoesOn (d : ConvertOperation) (s : Converting) : Prop :=
  s.reader.input.Stuck ∨ s.reader.eof = false ∧ d.maxMem = 0

theorem GoesOn.not_eof {s : Converting} (h : GoesOn d s) : s.reader.eof = false := by
  rcases h with h | h
  · exact h.not_eof
  · exact h.1

theorem GoesOn.turn {s : Converting} (h : GoesOn d s) :
    ∃ s', ConvertOperation.turn md5 d s = .inl s' ∧ GoesOn d s' := by
  unfold ConvertOperation.turn
  by_cases hgo : (!s.reader.eof && !s.reader.bad && decide (s.memUsage < d.maxMem)) = true
  · rw [if_pos hgo]
    refine ⟨_, rfl, ?_⟩
    rcases h with h | h
    · exact Or.inl (UserPasswordReader.stuck_nextPassword h)
    · rw [h.2] at hgo
      simp at hgo
  · have he := h.not_eof
    rw [if_neg hgo]
    dsimp only
    rw [writeChunk_reader, he]
    refine ⟨_, rfl, ?_⟩
    unfold GoesOn nextChunk
    rw [writeChunk_reader]
    exact h

theorem execute_diverges (fs : FileSystem Path)
    (h : GoesOn d { reader := UserPasswordReader.create d.inputFile d.options, fs }) :
    Diverges fun fuel => execute md5 d fuel fs := by
  have hdiv : ∀ s, GoesOn d s → Diverges fun fuel => loop (turn md5 d) fuel s := fun s hs =>
    loop_diverges (turn md5 d) (GoesOn d) (fun _ hs => hs.turn) hs
  have he := h.not_eof
  unfold execute
  dsimp only at he ⊢
  simp only [he, Bool.false_eq_true, if_false]
  apply hdiv
  exact h

/-- A conversion ends if its file can be opened and read to the end and there is some memory. -/
theorem a_conversion_ends_iff (md5 : List UInt8 → Vector UInt8 16) (d : ConvertOperation)
    (fs : FileSystem Path) :
    Ends (fun fuel => execute md5 d fuel fs) ↔
      d.inputFile.isOpen = true ∧ d.inputFile.broken = false ∧ d.maxMem ≠ 0 := by
  constructor
  · intro hends
    by_contra hno
    refine Diverges.not_ends (execute_diverges fs ?_) hends
    by_cases hread : d.inputFile.isOpen = true ∧ d.inputFile.broken = false
    · have hinput := UserPasswordReader.create_input d.inputFile d.options hread.1
      refine Or.inr ⟨?_, by_contra fun hmem => hno ⟨hread.1, hread.2, hmem⟩⟩
      unfold UserPasswordReader.eof
      dsimp only
      rw [hinput]
    · exact Or.inl (UserPasswordReader.stuck_create d.options hread)
  · rintro ⟨hopen, hb, hmem⟩
    obtain ⟨s, hs, -⟩ := execute_counts md5 d fs hopen hb hmem
    exact ⟨s, hs⟩

/-- Without memory the conversion of the three lines goes on for ever, and so does one whose file
could not be opened. -/
theorem a_conversion_can_run_for_ever :
    ¬ Ends (fun fuel => execute firstByte { threeLines with maxMem := 0 } fuel emptyDirectory) ∧
      ¬ Ends (fun fuel =>
        execute firstByte { threeLines with inputFile := .closed } fuel emptyDirectory) := by
  constructor
  · apply (execute_diverges emptyDirectory ?_).not_ends
    exact Or.inr ⟨by decide +kernel, rfl⟩
  · apply (execute_diverges emptyDirectory ?_).not_ends
    exact Or.inl ⟨by decide +kernel, Or.inr (by decide +kernel)⟩

end ConvertOperation

end pwned
