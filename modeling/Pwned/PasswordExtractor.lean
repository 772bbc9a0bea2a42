-- The password extractor. `.ready` names the files it has processed, so that
-- a later run leaves them out.
import Pwned.ReaderLines

open pwned UserPasswordReader

namespace pwned.PasswordExtractor

abbrev Filename := List UInt8

/-! ## The program -/

/-- What a run finds and leaves: `.ready`, if there is one, and the files written. -/
structure Disk where
  ready : Option (List UInt8) := none
  outputs : Filename → Option (List UInt8) := fun _ => none

/-- The options of a run, and what it finds. -/
structure Run where
  /-- The output file, which is another file than `.ready`. -/
  outputFilename : Filename
  ignoreReady : Bool := false
  /-- The answer when the output file exists. -/
  c : UInt8 := 121
  /-- The regular files below the source directory, in the order of the iterator. -/
  filePaths : List Filename
  /-- The streams of the files, as the run opens them. -/
  inFile : Filename → TextStream
  /-- The output file can be opened. -/
  outFile : Bool := true
  /-- Other names of the output file. -/
  aliases : Filename → Bool := fun _ => false
  /-- What the output holds when the run has read it back. The buffers of both streams decide that,
  and it does not end if it grows as fast as it is read. -/
  readBack : List UInt8 → Option (List UInt8) := fun out => some (out ++ [10])
  /-- `.ready` cannot be read to its end. -/
  readyBroken : Bool := false
  /-- `.ready` can be opened for writing. -/
  readyFile : Bool := true

def Run.isOutput (run : Run) (filename : Filename) : Bool :=
  filename == run.outputFilename || run.aliases filename

inductive Exit
  | success
  | failure
  deriving DecidableEq

/-- `.txt` -/
def extension : List UInt8 := [46, 116, 120, 116]

def Run.inputFilenames (run : Run) : List Filename := run.filePaths.filter extension.isSuffixOf

/-- One turn of the loop over the lines of `.ready`. -/
def readyTurn (s : TextStream × List Filename) :
    (TextStream × List Filename) ⊕ List Filename :=
  if s.1.eofbit then .inr s.2
  else
    let (filename, input) := s.1.getline []
    .inl (input, s.2 ++ [filename])

/-- The names that are mapped to true. -/
def alreadyProcessed (ready : Option (List UInt8)) (broken : Bool) (fuel : Nat) :
    Option (List Filename) :=
  match ready with
  | none => some []
  | some text => loop readyTurn fuel ({ content := text, broken }, [])

/-- A password on a line of its own. -/
def writePassword (out pwd : List UInt8) : List UInt8 :=
  let pwd := pwd ++ [10]
  if pwd.isEmpty then out else out ++ pwd

def readerOptions : List UserPasswordReaderOptions := [.autoEvaluateHexEncodedPasswords]

/-- One turn of the loop over the files, with the texts of `.ready` and of the output file. -/
def fileTurn (run : Run) (processed : List Filename) (fuel : Nat)
    (s : List UInt8 × List UInt8) (inputFilename : Filename) :
    Option (List UInt8 × List UInt8) :=
  if inputFilename ∈ processed then some s
  else if !(run.inFile inputFilename).isOpen then some s
  else
    let out :=
      if run.isOutput inputFilename then run.readBack s.2
      else
        let reader := create (run.inFile inputFilename) readerOptions
        loop (passwordTurn writePassword) fuel (reader, s.2)
    out.map fun out => (s.1 ++ (inputFilename ++ [10]), out)

def main (run : Run) (fuel : Nat) (d : Disk) : Option (Exit × Disk) :=
  if (d.outputs run.outputFilename).isSome ∧ run.c ≠ 121 then some (.failure, d)
  else if run.inputFilenames.isEmpty then some (.failure, d)
  else if !run.outFile then some (.failure, d)
  else
    (if run.ignoreReady then some []
      else alreadyProcessed d.ready run.readyBroken fuel).bind fun processed =>
      let readyFile := if run.ignoreReady then [] else d.ready.getD []
      (run.inputFilenames.foldlM (fileTurn run processed fuel) (readyFile, [])).map
        fun (ready, out) =>
          (.success, { ready := if run.readyFile then some ready else d.ready,
                       outputs := Function.update d.outputs run.outputFilename (some out) })

/-- One run after the other. -/
def session (fuel : Nat) : List Run → Disk → Option (List (Exit × Disk))
  | [], _ => some []
  | run :: runs, d => do
    let (exit, d) ← main run fuel d
    let outcomes ← session fuel runs d
    return (exit, d) :: outcomes

/-! ## The file of names -/

/-- The names in `.ready`, which are its ended lines. -/
def names (text : List UInt8) : List Filename := (textLines text).dropLast

/-- Nothing, or a text that ends with a line break. -/
def Ended (text : List UInt8) : Prop := text = [] ∨ ∃ lines, text = lines ++ [10]

theorem ended_append (text : List UInt8) (filename : Filename) :
    Ended (text ++ (filename ++ [10])) := .inr ⟨text ++ filename, by simp⟩

theorem textLines_append {text : List UInt8} (h : Ended text) (rest : List UInt8) :
    textLines (text ++ rest) = names text ++ textLines rest := by
  unfold names textLines
  rcases h with rfl | ⟨lines, rfl⟩
  · simp
  · rw [List.append_assoc, List.singleton_append, List.splitOn_append_cons_self,
      List.splitOn_append_cons_self]
    simp

theorem textLines_of_ended {text : List UInt8} (h : Ended text) :
    textLines text = names text ++ [[]] := by
  have hlines := textLines_append h []
  rw [List.append_nil] at hlines
  simpa [textLines] using hlines

theorem names_append {text : List UInt8} (h : Ended text) (filename : Filename) :
    names (text ++ (filename ++ [10])) = names text ++ textLines filename := by
  have hline : textLines (filename ++ [10]) = textLines filename ++ [[]] := by
    unfold textLines
    rw [List.splitOn_append_cons_self]
    simp
  unfold names
  rw [textLines_append h, hline, ← List.append_assoc, List.dropLast_concat]
  rfl

theorem not_mem_of_mem_splitOn {mark : UInt8} (text : List UInt8) :
    ∀ l ∈ text.splitOn mark, mark ∉ l := by
  induction text with
  | nil => simp
  | cons c text ih =>
    rw [List.splitOn_cons_eq_if_modifyHead]
    split
    · intro l hl
      rcases List.mem_cons.mp hl with rfl | hl
      · simp
      · exact ih l hl
    · rename_i hc
      cases hsplit : text.splitOn mark with
      | nil => simp
      | cons l ls =>
        rw [hsplit] at ih
        simp only [List.modifyHead_cons, List.mem_cons, forall_eq_or_imp] at ih ⊢
        refine ⟨?_, ih.2⟩
        rintro (rfl | hmem)
        · simp at hc
        · exact ih.1 hmem

theorem textLines_of_not_mem {filename : Filename} (h : 10 ∉ filename) :
    textLines filename = [filename] := List.splitOn_eq_singleton h

/-- A name that was read as a line is the only line of it. -/
theorem textLines_of_mem {text : List UInt8} {filename : Filename} (h : filename ∈ names text) :
    textLines filename = [filename] :=
  textLines_of_not_mem (not_mem_of_mem_splitOn text _ (List.mem_of_mem_dropLast h))

theorem alreadyProcessed_yields (text : List UInt8) :
    Yields (alreadyProcessed (some text) false) (textLines text) := by
  let Inv (s : TextStream × List Filename) : Prop :=
    s.1.Healthy ∧ s.2 ++ s.1.remaining = textLines text
  have hgo : ∀ s s', Inv s → readyTurn s = .inl s' →
      Inv s' ∧ s'.1.remaining.length < s.1.remaining.length := by
    rintro ⟨input, filenames⟩ s' ⟨hhealthy, hall⟩ hturn
    cases he : input.eofbit with
    | true => simp [readyTurn, he] at hturn
    | false =>
      have hlines := TextStream.lines_remaining (hhealthy.good he)
      cases hrem : input.remaining with
      | nil => exact absurd hrem hlines.ne_nil
      | cons l ls =>
        rw [hrem] at hlines
        obtain ⟨hl, hnext, hls⟩ := hlines.getline_next hhealthy.unbroken []
        simp only [readyTurn, he, Bool.false_eq_true, if_false, Sum.inl.injEq] at hturn
        subst hturn
        refine ⟨⟨hnext, ?_⟩, ?_⟩
        · simpa [hl, hls, hrem] using hall
        · simp [hls]
  have hstop : ∀ s out, Inv s → readyTurn s = .inr out → out = textLines text := by
    rintro ⟨input, filenames⟩ out ⟨-, hall⟩ hturn
    cases he : input.eofbit with
    | true =>
      simp only [readyTurn, he, if_true, Sum.inr.injEq] at hturn
      rw [← hturn, ← hall, TextStream.remaining_of_eof he, List.append_nil]
    | false => simp [readyTurn, he] at hturn
  obtain ⟨out, hyields, rfl⟩ := loop_yields readyTurn Inv _ (fun s => s.1.remaining.length)
    hgo hstop (s := ({ content := text }, [])) ⟨healthy_open text, remaining_open text⟩
  exact hyields

/-! ## One run -/

/-- The passwords of a text, each on a line of its own. -/
def passwordLines (text : List UInt8) : List UInt8 :=
  (textLines text).flatMap fun line => passwordOf (guess text) line ++ [10]

theorem foldl_writePassword (pwds : List (List UInt8)) (out : List UInt8) :
    pwds.foldl writePassword out = out ++ pwds.flatMap (· ++ [10]) := by
  induction pwds generalizing out with
  | nil => simp
  | cons pwd pwds ih => simp [ih, writePassword]

theorem passwordLines_yields (text out : List UInt8) :
    Yields (fun fuel => loop (passwordTurn writePassword) fuel
        (create { content := text } readerOptions, out))
      (out ++ passwordLines text) := by
  have hloop := passwordTurn_yields writePassword text readerOptions out
  rw [foldl_writePassword, List.flatMap_map] at hloop
  exact hloop

namespace Run

variable (run : Run)

/-- The files that can be opened. -/
def offered : List Filename := run.inputFilenames.filter fun p => (run.inFile p).isOpen

/-- The files that are extracted where those of `done` are processed. -/
def takes (done : List Filename) : List Filename :=
  run.inputFilenames.filter fun p => p ∉ done ∧ (run.inFile p).isOpen

/-- What is written for a file. -/
def passwords (filename : Filename) : List UInt8 := passwordLines (run.inFile filename).content

/-- The inputs that can be opened can be read from their start to their end, and none of them is
the output. `.ready` can be read and written. -/
structure Smooth : Prop where
  apart : ∀ p ∈ run.offered, run.isOutput p = false
  reads : ∀ p ∈ run.offered, run.inFile p = { content := (run.inFile p).content }
  readyBroken : run.readyBroken = false
  readyFile : run.readyFile = true

/-- The run gets as far as the files. -/
def Goes (d : Disk) : Prop :=
  ((d.outputs run.outputFilename).isSome → run.c = 121) ∧ run.inputFilenames ≠ [] ∧
    run.outFile = true

/-- The names that the run leaves out, of those in `.ready`. -/
def kept (done : List Filename) : List Filename := if run.ignoreReady then [] else done

/-- The names in `.ready` behind a run. -/
def after (done : List Filename) : Exit → List Filename
  | .failure => done
  | .success => run.kept done ++ run.offered.flatMap textLines

theorem ne_nil_of_mem {p : Filename} (h : p ∈ run.inputFilenames) : p ≠ [] := by
  rintro rfl
  have hsuffix := (List.mem_filter.mp h).2
  simp [extension] at hsuffix

theorem takes_congr {done done' : List Filename}
    (h : ∀ p, p ≠ [] → (p ∈ done ↔ p ∈ done')) : run.takes done = run.takes done' := by
  apply List.filter_congr
  intro p hp
  simp only [h p (run.ne_nil_of_mem hp)]

theorem mem_kept_congr {done done' : List Filename} (h : ∀ p, p ∈ done ↔ p ∈ done') (p : Filename) :
    p ∈ run.kept done ↔ p ∈ run.kept done' := by
  unfold kept
  split
  · rfl
  · exact h p

theorem mem_after_congr {done done' : List Filename} (h : ∀ p, p ∈ done ↔ p ∈ done') (exit : Exit)
    (p : Filename) : p ∈ run.after done exit ↔ p ∈ run.after done' exit := by
  cases exit with
  | failure => exact h p
  | success =>
    unfold after
    rw [List.mem_append, List.mem_append, run.mem_kept_congr h]

/-- A file that is offered and not taken was a line already. -/
theorem mem_after_takes {done : List Filename} (h : ∀ p ∈ done, textLines p = [p]) (p : Filename) :
    p ∈ done ++ (run.takes done).flatMap textLines ↔
      p ∈ done ++ run.offered.flatMap textLines := by
  simp only [List.mem_append, List.mem_flatMap, takes, offered, List.mem_filter, decide_eq_true_eq]
  constructor
  · rintro (hp | ⟨q, ⟨hq, -, hopen⟩, hline⟩)
    · exact .inl hp
    · exact .inr ⟨q, ⟨hq, hopen⟩, hline⟩
  · rintro (hp | ⟨q, ⟨hq, hopen⟩, hline⟩)
    · exact .inl hp
    · by_cases hdone : q ∈ done
      · rw [h q hdone, List.mem_singleton] at hline
        exact .inl (hline ▸ hdone)
      · exact .inr ⟨q, ⟨hq, hdone, hopen⟩, hline⟩

end Run

/-- A file that is processed already or cannot be opened. -/
theorem fileTurn_skip {run : Run} {processed : List Filename} {p : Filename}
    (h : ¬ (p ∉ processed ∧ (run.inFile p).isOpen = true)) (fuel : Nat)
    (s : List UInt8 × List UInt8) : fileTurn run processed fuel s p = some s := by
  unfold fileTurn
  split
  · rfl
  · rename_i hp
    rw [if_pos (by simpa [hp] using h)]

/-- The passwords of a file go behind what was written. -/
theorem fileTurn_yields {run : Run} (h : run.Smooth) {processed : List Filename} {p : Filename}
    (hp : p ∈ run.offered) (hnew : p ∉ processed) (s : List UInt8 × List UInt8) :
    Yields (fun fuel => fileTurn run processed fuel s p)
      (s.1 ++ (p ++ [10]), s.2 ++ run.passwords p) := by
  have hopen : (run.inFile p).isOpen = true := (List.mem_filter.mp hp).2
  unfold fileTurn Run.passwords
  rw [h.reads p hp] at hopen ⊢
  simp only [hnew, h.apart p hp, Bool.not_true, Bool.false_eq_true, if_false]
  exact (passwordLines_yields _ s.2).map _

/-- The loop over the files takes those that are not processed. -/
theorem files_yield {run : Run} (h : run.Smooth) (processed : List Filename)
    (filenames : List Filename) (hall : ∀ p ∈ filenames, p ∈ run.inputFilenames) :
    ∀ ready out, Ended ready → ∃ ready', Ended ready' ∧
      names ready' = names ready ++
        (filenames.filter fun p => p ∉ processed ∧ (run.inFile p).isOpen).flatMap textLines ∧
      Yields (fun fuel => filenames.foldlM (fileTurn run processed fuel) (ready, out))
        (ready', out ++ (filenames.filter fun p =>
          p ∉ processed ∧ (run.inFile p).isOpen).flatMap run.passwords) := by
  induction filenames with
  | nil =>
    intro ready out hready
    exact ⟨ready, hready, by simp, .of_eq fun _ => by simp⟩
  | cons p filenames ih =>
    intro ready out hready
    have hrest := ih fun q hq => hall q (List.mem_cons_of_mem p hq)
    by_cases htake : p ∉ processed ∧ (run.inFile p).isOpen = true
    · obtain ⟨ready', hended, hnames, hyields⟩ :=
        hrest (ready ++ (p ++ [10])) (out ++ run.passwords p) (ended_append ready p)
      have hoffered : p ∈ run.offered := List.mem_filter.mpr ⟨hall p List.mem_cons_self, htake.2⟩
      have hfilter : ((p :: filenames).filter fun p => p ∉ processed ∧ (run.inFile p).isOpen) =
          p :: filenames.filter fun p => p ∉ processed ∧ (run.inFile p).isOpen :=
        List.filter_cons_of_pos (by simpa using htake)
      refine ⟨ready', hended, ?_, ?_⟩
      · rw [hnames, names_append hready, hfilter, List.flatMap_cons, List.append_assoc]
      · rw [hfilter, List.flatMap_cons, ← List.append_assoc]
        simp only [List.foldlM_cons, Option.bind_eq_bind]
        exact (fileTurn_yields h hoffered htake.1 (ready, out)).bind _ hyields
    · obtain ⟨ready', hended, hnames, hyields⟩ := hrest ready out hready
      have hfilter : ((p :: filenames).filter fun p => p ∉ processed ∧ (run.inFile p).isOpen) =
          filenames.filter fun p => p ∉ processed ∧ (run.inFile p).isOpen :=
        List.filter_cons_of_neg (by simpa using htake)
      rw [hfilter]
      simp only [List.foldlM_cons, Option.bind_eq_bind, fileTurn_skip htake, Option.bind_some]
      exact ⟨ready', hended, hnames, hyields⟩

namespace Disk

def Ended (d : Disk) : Prop := PasswordExtractor.Ended (d.ready.getD [])

def names (d : Disk) : List Filename := PasswordExtractor.names (d.ready.getD [])

end Disk

/-- What a run makes of the disk. -/
structure Outcome (run : Run) (d : Disk) (exit : Exit) (d' : Disk) : Prop where
  ended : d'.Ended
  goes : exit = .success ↔ run.Goes d
  failure : exit = .failure → d' = d
  names : ∀ p, p ∈ d'.names ↔ p ∈ run.after d.names exit
  outputs : exit = .success → d'.outputs = Function.update d.outputs run.outputFilename
    (some ((run.takes (run.kept d.names)).flatMap run.passwords))

theorem processed_yields {run : Run} (h : run.readyBroken = false) {d : Disk} (hd : d.Ended) :
    ∃ processed, Yields (fun fuel =>
        if run.ignoreReady then some []
        else alreadyProcessed d.ready run.readyBroken fuel) processed ∧
      ∀ p, p ≠ [] → (p ∈ processed ↔ p ∈ run.kept d.names) := by
  unfold Run.kept
  split
  · exact ⟨[], .of_eq fun _ => rfl, fun _ _ => Iff.rfl⟩
  · cases hready : d.ready with
    | none =>
      refine ⟨[], .of_eq fun _ => rfl, fun _ _ => ?_⟩
      simp [Disk.names, hready, names, textLines]
    | some text =>
      refine ⟨textLines text, h ▸ alreadyProcessed_yields text, fun p hp => ?_⟩
      unfold Disk.Ended at hd
      unfold Disk.names
      rw [hready, Option.getD_some] at hd ⊢
      simp [textLines_of_ended hd, hp]

theorem main_of_goes {run : Run} {d : Disk} (h : run.Goes d) (fuel : Nat) :
    main run fuel d =
      (if run.ignoreReady then some []
        else alreadyProcessed d.ready run.readyBroken fuel).bind fun processed =>
        (run.inputFilenames.foldlM (fileTurn run processed fuel)
          (if run.ignoreReady then [] else d.ready.getD [], [])).map fun (ready, out) =>
            (.success, { ready := if run.readyFile then some ready else d.ready,
                         outputs := Function.update d.outputs run.outputFilename (some out) }) := by
  obtain ⟨hanswer, hfiles, hopen⟩ := h
  unfold main
  rw [if_neg (by simpa using hanswer), if_neg (by simpa using hfiles), if_neg (by simp [hopen])]

theorem main_of_not_goes {run : Run} {d : Disk} (h : ¬ run.Goes d) (fuel : Nat) :
    main run fuel d = some (.failure, d) := by
  unfold main
  split
  · rfl
  · split
    · rfl
    · split
      · rfl
      · rename_i hanswer hfiles hopen
        refine absurd ⟨?_, ?_, ?_⟩ h
        · simpa using hanswer
        · simpa using hfiles
        · simpa using hopen

theorem main_yields {run : Run} (h : run.Smooth) {d : Disk} (hd : d.Ended) :
    ∃ exit d', Yields (fun fuel => main run fuel d) (exit, d') ∧ Outcome run d exit d' := by
  by_cases hgoes : run.Goes d
  · obtain ⟨processed, hprocessed, hmem⟩ := processed_yields h.readyBroken hd
    have hstart : Ended (if run.ignoreReady then [] else d.ready.getD []) := by
      split
      · exact .inl rfl
      · exact hd
    have hkept : names (if run.ignoreReady then [] else d.ready.getD []) = run.kept d.names := by
      unfold Run.kept
      split
      · rfl
      · rfl
    have hkeptLines : ∀ p ∈ run.kept d.names, textLines p = [p] := by
      rw [← hkept]
      exact fun _ => textLines_of_mem
    obtain ⟨ready, hended, hnames, hyields⟩ :=
      files_yield h processed run.inputFilenames (fun _ => id) _ [] hstart
    have htakes : (run.inputFilenames.filter fun p => p ∉ processed ∧ (run.inFile p).isOpen) =
        run.takes (run.kept d.names) := run.takes_congr hmem
    rw [htakes] at hnames hyields
    refine ⟨.success, ⟨some ready, Function.update d.outputs run.outputFilename
      (some ((run.takes (run.kept d.names)).flatMap run.passwords))⟩, ?_, hended, by simp [hgoes],
      nofun, fun p => ?_, fun _ => rfl⟩
    · simp only [main_of_goes hgoes, h.readyFile, if_true]
      exact hprocessed.bind _ (hyields.map _)
    · unfold Disk.names Run.after
      rw [Option.getD_some, hnames, hkept]
      exact run.mem_after_takes hkeptLines p
  · exact ⟨.failure, d, .of_eq (main_of_not_goes hgoes), hd, by simp [hgoes], fun _ => rfl,
      fun _ => Iff.rfl, nofun⟩

/-- The loop over the files does not come behind one whose reads fail. -/
theorem files_eq_none {run : Run} {processed : List Filename} {p : Filename} (hp : p ∉ processed)
    (hopen : (run.inFile p).isOpen = true) (hout : run.isOutput p = false)
    (hb : (run.inFile p).broken = true) (fuel : Nat) {filenames : List Filename}
    (hmem : p ∈ filenames) (s : List UInt8 × List UInt8) :
    filenames.foldlM (fileTurn run processed fuel) s = none := by
  have hturn : ∀ s, fileTurn run processed fuel s p = none := by
    intro s
    have hstuck : (create (run.inFile p) readerOptions).input.Stuck :=
      stuck_create readerOptions (by simp [hb])
    unfold fileTurn
    simp only [hp, hopen, hout, Bool.not_true, Bool.false_eq_true, if_false,
      (passwordTurn_diverges writePassword hstuck s.2).loop_eq_none, Option.map_none]
  induction filenames generalizing s with
  | nil => cases hmem
  | cons q filenames ih =>
    rw [List.foldlM_cons]
    rcases List.mem_cons.mp hmem with rfl | hmem
    · rw [hturn]
      rfl
    · cases fileTurn run processed fuel s q with
      | none => rfl
      | some s' => exact ih hmem s'

/-- A run that takes a file whose reads fail goes on for ever. -/
theorem main_diverges {run : Run} {d : Disk} (hd : d.Ended) (hgoes : run.Goes d)
    (hready : run.readyBroken = false) {p : Filename} (hp : p ∈ run.takes (run.kept d.names))
    (hout : run.isOutput p = false) (hb : (run.inFile p).broken = true) :
    Diverges fun fuel => main run fuel d := by
  obtain ⟨processed, ⟨enough, hprocessed⟩, hkept⟩ := processed_yields hready hd
  rw [← run.takes_congr hkept] at hp
  obtain ⟨hmem, hnew⟩ := List.mem_filter.mp hp
  obtain ⟨hnew, hopen⟩ := of_decide_eq_true hnew
  refine ⟨enough, fun fuel hfuel => ?_⟩
  dsimp only at hprocessed ⊢
  rw [main_of_goes hgoes, hprocessed fuel hfuel, Option.bind_some,
    files_eq_none hnew hopen hout hb fuel hmem, Option.map_none]

/-! ## One run after the other -/

/-- A run, and what it comes to. -/
abbrev Event := Run × Exit × Disk

/-- The names in `.ready` behind some runs. -/
def done (start : List Filename) (earlier : List Event) : List Filename :=
  earlier.foldl (fun done e => e.1.after done e.2.1) start

/-- The disk behind some runs. -/
def disk (start : Disk) (earlier : List Event) : Disk :=
  earlier.foldl (fun _ e => e.2.2) start

/-- The outcomes of one run after the other. -/
inductive Follows : Disk → List Event → Prop
  | nil {d : Disk} : Follows d []
  | cons {d d' : Disk} {run : Run} {exit : Exit} {rest : List Event}
      (hrun : Outcome run d exit d') (hrest : Follows d' rest) :
      Follows d ((run, exit, d') :: rest)

theorem session_yields {runs : List Run} (h : ∀ run ∈ runs, run.Smooth) :
    ∀ {d : Disk}, d.Ended → ∃ outcomes,
      Yields (fun fuel => session fuel runs d) outcomes ∧ outcomes.length = runs.length ∧
        Follows d (runs.zip outcomes) := by
  induction runs with
  | nil =>
    intro d _
    exact ⟨[], .of_eq fun _ => rfl, rfl, .nil⟩
  | cons run runs ih =>
    intro d hd
    obtain ⟨exit, d', hmain, houtcome⟩ := main_yields (h run List.mem_cons_self) hd
    obtain ⟨outcomes, hsession, hlength, hfollows⟩ :=
      ih (fun r hr => h r (List.mem_cons_of_mem run hr)) houtcome.ended
    refine ⟨(exit, d') :: outcomes, ?_, by simp [hlength], .cons houtcome hfollows⟩
    exact hmain.bind _ (hsession.bind _ (.of_eq fun _ => rfl))

/-- The outcome of a run behind others, told from what they were offered. -/
structure AsOffered (start : Disk) (marked : List Filename) (earlier : List Event) (run : Run)
    (exit : Exit) (d : Disk) : Prop where
  goes : exit = .success ↔ run.Goes (disk start earlier)
  failure : exit = .failure → d = disk start earlier
  outputs : exit = .success → d.outputs =
    Function.update (disk start earlier).outputs run.outputFilename
      (some ((run.takes (run.kept (done marked earlier))).flatMap run.passwords))

theorem Follows.asOffered {d : Disk} {events : List Event} (h : Follows d events) :
    ∀ marked : List Filename, (∀ p, p ∈ d.names ↔ p ∈ marked) →
      ∀ earlier run exit d' later, events = earlier ++ (run, exit, d') :: later →
        AsOffered d marked earlier run exit d' := by
  induction h with
  | nil =>
    intro marked _ earlier run exit d' later heq
    simp at heq
  | @cons d d₁ run₁ exit₁ rest hrun hrest ih =>
    intro marked hmarked earlier run exit d' later heq
    rcases List.cons_eq_append_iff.mp heq with ⟨rfl, hhead⟩ | ⟨earlier', rfl, hlater⟩
    · simp only [List.cons.injEq, Prod.mk.injEq] at hhead
      obtain ⟨⟨rfl, rfl, rfl⟩, -⟩ := hhead
      refine ⟨hrun.goes, hrun.failure, fun hexit => ?_⟩
      rw [hrun.outputs hexit]
      rw [run.takes_congr fun p _ => run.mem_kept_congr hmarked p]
      rfl
    · have hnames : ∀ p, p ∈ d₁.names ↔ p ∈ run₁.after marked exit₁ := fun p =>
        (hrun.names p).trans (run₁.mem_after_congr hmarked exit₁ p)
      have hrest' := ih _ hnames earlier' run exit d' later hlater
      exact ⟨hrest'.goes, hrest'.failure, hrest'.outputs⟩

/-- The run is smooth and regards `.ready`, no name has a line break, and none is listed twice. -/
structure Run.Proper (run : Run) : Prop extends Smooth run where
  regards : run.ignoreReady = false
  plain : ∀ p ∈ run.filePaths, 10 ∉ p
  nodup : run.filePaths.Nodup

/-- The run has written the passwords of these files. -/
def Wrote (e : Event) (taken : List Filename) : Prop :=
  match e.2.1 with
  | .failure => taken = []
  | .success => e.2.2.outputs e.1.outputFilename = some (taken.flatMap e.1.passwords)

namespace Run.Proper

variable {run : Run} (h : run.Proper)

include h

theorem textLines_of_offered {q : Filename} (hq : q ∈ run.offered) : textLines q = [q] :=
  textLines_of_not_mem (h.plain q (List.mem_filter.mp (List.mem_filter.mp hq).1).1)

theorem kept_eq (done : List Filename) : run.kept done = done := by
  unfold kept
  rw [h.regards, if_neg (by simp)]

theorem mem_after (done : List Filename) (p : Filename) :
    p ∈ run.after done .success ↔ p ∈ done ∨ p ∈ run.offered := by
  unfold after
  rw [h.kept_eq, List.mem_append, List.mem_flatMap]
  refine or_congr_right ⟨?_, fun hp => ⟨p, hp, ?_⟩⟩
  · rintro ⟨q, hq, hp⟩
    rw [h.textLines_of_offered hq, List.mem_singleton] at hp
    exact hp ▸ hq
  · rw [h.textLines_of_offered hp, List.mem_singleton]

theorem nodup_takes (done : List Filename) : (run.takes done).Nodup :=
  (h.nodup.filter _).filter _

end Run.Proper

theorem Run.mem_takes {run : Run} {done : List Filename} {p : Filename} :
    p ∈ run.takes done ↔ p ∉ done ∧ p ∈ run.offered := by
  simp only [takes, offered, List.mem_filter, decide_eq_true_eq]
  exact and_left_comm

theorem Follows.once {d : Disk} {events : List Event} (h : Follows d events)
    (hproper : ∀ e ∈ events, e.1.Proper) :
    ∃ taken, List.Forall₂ Wrote events taken ∧ taken.flatten.Nodup ∧
      ∀ p, p ∈ taken.flatten ↔
        p ∉ d.names ∧ ∃ e ∈ events, e.2.1 = .success ∧ p ∈ e.1.offered := by
  induction h with
  | nil => exact ⟨[], .nil, by simp, by simp⟩
  | @cons d d' run exit rest hrun hrest ih =>
    obtain ⟨taken, hwrote, hnodup, hmem⟩ := ih fun e he => hproper e (List.mem_cons_of_mem _ he)
    have hthis : run.Proper := hproper _ List.mem_cons_self
    cases exit with
    | failure =>
      obtain rfl := hrun.failure rfl
      refine ⟨[] :: taken, .cons rfl hwrote, hnodup, fun p => ?_⟩
      simp [hmem]
    | success =>
      have hnames : ∀ p, p ∈ d'.names ↔ p ∈ d.names ∨ p ∈ run.offered := fun p =>
        (hrun.names p).trans (hthis.mem_after _ p)
      have houtput : Wrote (run, .success, d') (run.takes d.names) := by
        unfold Wrote
        rw [hrun.outputs rfl, Function.update_self, hthis.kept_eq]
      refine ⟨run.takes d.names :: taken, .cons houtput hwrote, ?_, fun p => ?_⟩
      · rw [List.flatten_cons]
        refine (hthis.nodup_takes _).append hnodup fun p hp hlater => ?_
        have hnew : p ∉ d'.names := ((hmem p).mp hlater).1
        exact hnew ((hnames p).mpr (.inr (Run.mem_takes.mp hp).2))
      · rw [List.flatten_cons, List.mem_append, Run.mem_takes, hmem, hnames]
        simp only [List.mem_cons, exists_eq_or_imp, true_and]
        tauto

/-- From a directory without `.ready` on, whatever the runs find, each file that is offered to one
of them is extracted by one of them and by no other. -/
theorem a_file_is_extracted_once {runs : List Run} {outcomes : List (Exit × Disk)}
    (h : Yields (fun fuel => session fuel runs {}) outcomes) (hproper : ∀ run ∈ runs, run.Proper) :
    ∃ taken, List.Forall₂ Wrote (runs.zip outcomes) taken ∧ taken.flatten.Nodup ∧
      ∀ p, p ∈ taken.flatten ↔
        ∃ e ∈ runs.zip outcomes, e.2.1 = .success ∧ p ∈ e.1.offered := by
  have hstart : ({} : Disk).Ended := .inl rfl
  obtain ⟨outcomes', hyields, -, hfollows⟩ :=
    session_yields (fun run hrun => (hproper run hrun).toSmooth) hstart
  obtain rfl := hyields.unique h
  have hnone : ({} : Disk).names = [] := rfl
  obtain ⟨taken, hwrote, hnodup, hmem⟩ := hfollows.once fun e he =>
    hproper e.1 (List.of_mem_zip he).1
  refine ⟨taken, hwrote, hnodup, fun p => ?_⟩
  rw [hmem, hnone]
  simp

/-! ### Two runs -/

section Two

/-- Files whose names end with `.txt`, and each holds its first letter. -/
def letters (outputFilename : Filename) (filePaths : List Filename) : Run where
  outputFilename
  filePaths
  inFile p := { content := p.take 1 }

def aFile : Filename := 97 :: extension

def bFile : Filename := 98 :: extension

/-- The second run finds one more file. -/
def growing : List Run := [letters [120] [aFile], letters [121] [aFile, bFile]]

/-- The first file is in `.ready` already. -/
def aReady : Disk := { ready := some (aFile ++ [10]) }

theorem proper_growing : ∀ run ∈ growing, run.Proper := by
  intro run hrun
  simp only [growing, List.mem_cons, List.not_mem_nil, or_false] at hrun
  rcases hrun with rfl | rfl
  · exact ⟨⟨by decide, fun _ _ => rfl, rfl, rfl⟩, rfl, by decide, by decide⟩
  · exact ⟨⟨by decide, fun _ _ => rfl, rfl, rfl⟩, rfl, by decide, by decide⟩

theorem a_file_is_extracted_once_two :
    ∃ outcomes taken, Yields (fun fuel => session fuel growing {}) outcomes ∧
      List.Forall₂ Wrote (growing.zip outcomes) taken ∧ taken.flatten.Nodup ∧
      ∀ p, p ∈ taken.flatten ↔
        ∃ e ∈ growing.zip outcomes, e.2.1 = .success ∧ p ∈ e.1.offered := by
  obtain ⟨outcomes, hyields, -, -⟩ :=
    session_yields (fun run hrun => (proper_growing run hrun).toSmooth) (d := {}) (.inl rfl)
  obtain ⟨taken, htaken⟩ := a_file_is_extracted_once hyields proper_growing
  exact ⟨outcomes, taken, hyields, htaken⟩

end Two

end pwned.PasswordExtractor
