-- The merger with its threads: the main thread with its rounds, the thread of the
-- running operation, and the key thread, whose 'q' cancels. A step of one thread
-- is atomic, and the threads take turns in any order.
import Pwned.MergeRounds
import Pwned.MergeCounts

open pwned

namespace merger

/-- How the thread of an operation ended. -/
inductive Outcome where
  | finished | cancelled | notStarted | failed
deriving DecidableEq, Repr

/-- Where an operation is. -/
inductive Phase (Path : Type) where
  | idle
  | unscheduled (d : MergeOperation Path)
  | scheduled (d : MergeOperation Path)
  | running (s : Merging Path)
  | ended (outcome : Outcome) (fs : FileSystem Path)

/-- Where the main thread is in a round: in front of the `while`, behind `add`, in the joins of
`waitForFinished`, in front of its `reset`, in front of the test of `isCancelled`, behind the
loop. -/
inductive Place where
  | atWhile | added | joining | resetting | atTest | left
deriving DecidableEq, Repr

/-- `q` is pressed at most once: the key thread ends with it. -/
structure Session (Path : Type) where
  place : Place
  rounds : Rounds Path
  chunk : Chunk Path
  queueCancelled : Bool
  op : Phase Path
  opCancelled : Bool
  pressed : Bool

inductive Event where
  | main | op | cancel
deriving DecidableEq, Repr

section Model

variable {Path : Type} [DecidableEq Path] (Q : PriorityQueue (@MergerInput.key Path))
  (o : Settings Path)

def opens (inputFiles : List Path) (fs : FileSystem Path) : Session Path :=
  let rounds : Rounds Path := { inputFiles, fs }
  { place := .atWhile, rounds, chunk := rounds.chunk o, queueCancelled := false, op := .idle,
    opCancelled := false, pressed := false }

/-- The next step of the main thread. -/
def mainStep (s : Session Path) : Option (Session Path) :=
  match s.place with
  | .atWhile =>
    if s.rounds.inputFiles.isEmpty || s.queueCancelled then some { s with place := .left }
    else do
      let c := s.rounds.chunk o
      let d ← MergeOperation.create Q s.rounds.fs c.inputFileSlice c.targetFilename false
      some { s with
        place := .added, rounds := s.rounds.begin o, chunk := c, op := .unscheduled d,
        opCancelled := false }
  | .added =>
    match s.op with
    | .unscheduled d =>
      if s.queueCancelled then some { s with place := .joining }
      else some { s with place := .joining, op := .scheduled d }
    | _ => some { s with place := .joining }
  | .joining =>
    match s.op with
    | .ended _ fs => some { s with place := .resetting, rounds := { s.rounds with fs } }
    | _ => none
  | .resetting => some { s with place := .atTest, queueCancelled := false }
  | .atTest =>
    if s.queueCancelled then some { s with place := .atWhile }
    else some { s with place := .atWhile, rounds := s.rounds.advance s.chunk s.rounds.fs }
  | .left => none

/-- The next step of the thread of the operation: `start` and what stands before the loop of
`execute`, or one turn of that loop. -/
def opStep (s : Session Path) : Option (Session Path) :=
  match s.op with
  | .scheduled d =>
    if s.opCancelled then some { s with op := .ended .notStarted s.rounds.fs }
    else
      match start d s.rounds.fs (some []) with
      | .error _ => some { s with op := .ended .failed s.rounds.fs }
      | .ok none => some { s with op := .ended .finished s.rounds.fs }
      | .ok (some m) => some { s with op := .running m }
  | .running m =>
    if s.opCancelled then some { s with op := .ended .cancelled (finish m).1 }
    else
      match turn Q m with
      | .inl m => some { s with op := .running m }
      | .inr m => some { s with op := .ended .finished (finish m).1 }
  | _ => none

/-- `cancel` by the key thread. It waits for the operation only after it has set the flags, and
drops an operation that has not been scheduled. -/
def cancelStep (s : Session Path) : Option (Session Path) :=
  if s.pressed then none
  else
    let s := { s with pressed := true, queueCancelled := true }
    match s.op with
    | .idle => some s
    | .unscheduled _ => some { s with opCancelled := true, op := .ended .notStarted s.rounds.fs }
    | _ => some { s with opCancelled := true }

def step (e : Event) (s : Session Path) : Option (Session Path) :=
  match e with
  | .main => mainStep Q o s
  | .op => opStep Q s
  | .cancel => cancelStep s

/-- A run from the start, with the states and the events on the way. -/
inductive Run (inputFiles : List Path) (fs : FileSystem Path) :
    List (Session Path × Event) → Session Path → Prop where
  | start : Run inputFiles fs [] (opens o inputFiles fs)
  | step {τ : List (Session Path × Event)} {s s' : Session Path} {e : Event} :
      Run inputFiles fs τ s → step Q o e s = some s' → Run inputFiles fs ((s, e) :: τ) s'

end Model

namespace Session

variable {Path : Type}

/-- The loop of `execute` is running. -/
def Merging (s : Session Path) : Prop := ∃ m, s.op = .running m

/-- The number of rounds that have begun. -/
def round (s : Session Path) : Nat := s.rounds.operations.length

/-- The loop of the last operation was left because of the cancellation. -/
def WasCut (s : Session Path) : Prop := ∃ fs, s.op = .ended .cancelled fs

end Session

variable {Path : Type} {o : Settings Path} {s s' : Session Path}
  {τ : List (Session Path × Event)}

/-- `q` was pressed while the loop of the present round was running. -/
def Hit (τ : List (Session Path × Event)) (s : Session Path) : Prop :=
  ∃ x ∈ τ, x.2 = .cancel ∧ x.1.Merging ∧ x.1.round = s.round

/-- Where the operation may be, and what its flag says. -/
def PhaseOk (hit : Prop) (s : Session Path) : Prop :=
  match s.op with
  | .running _ => s.opCancelled = true ↔ hit
  | .ended .cancelled _ => hit
  | _ => ¬ hit

/-- What holds in every state of a run. -/
structure Tracked (τ : List (Session Path × Event)) (s : Session Path) : Prop where
  bound : ∀ x ∈ τ, x.1.round ≤ s.round
  pressed : Hit τ s → s.pressed = true
  phase : PhaseOk (Hit τ s) s
  ended : s.place = .resetting ∨ s.place = .atTest → ∃ outcome fs, s.op = .ended outcome fs
  reset : s.place = .atTest → Hit τ s → s.queueCancelled = false

/-- A step that neither cancels nor begins a round changes nothing in what has been hit. -/
theorem hit_cons (e : Event) (he : e = .cancel → ¬ s.Merging) (hround : s'.round = s.round) :
    Hit ((s, e) :: τ) s' ↔ Hit τ s := by
  unfold Hit
  simp only [List.mem_cons, exists_eq_or_imp, hround]
  constructor
  · rintro (⟨hc, hm, -⟩ | h)
    · exact absurd hm (he hc)
    · exact h
  · exact Or.inr

theorem bound_cons (e : Event) (h : Tracked τ s) (hround : s.round ≤ s'.round) :
    ∀ x ∈ (s, e) :: τ, x.1.round ≤ s'.round := by
  intro x hx
  rcases List.mem_cons.mp hx with rfl | hx
  · exact hround
  · exact (h.bound x hx).trans hround

/-- A cancellation while no loop is running hits nothing. -/
theorem Tracked.cancel_idle (h : Tracked τ s) (hpressed : s.pressed = false)
    (hmerging : ¬ s.Merging) (hround : s'.round = s.round) (hplace : s'.place = s.place)
    (hphase : PhaseOk False s')
    (hended : ∀ outcome fs, s.op = .ended outcome fs → s'.op = .ended outcome fs) :
    Tracked ((s, .cancel) :: τ) s' := by
  have hnot : ¬ Hit τ s := by
    intro hhit
    rw [h.pressed hhit] at hpressed
    cases hpressed
  have hhit : Hit ((s, .cancel) :: τ) s' ↔ False := by
    rw [hit_cons .cancel (fun _ => hmerging) hround]
    exact iff_of_false hnot id
  refine ⟨bound_cons _ h hround.ge, fun hh => (hhit.mp hh).elim, ?_, ?_,
    fun _ hh => (hhit.mp hh).elim⟩
  · rw [hhit]
    exact hphase
  · rw [hplace]
    intro hp
    obtain ⟨outcome, fs, hop⟩ := h.ended hp
    exact ⟨outcome, fs, hended _ _ hop⟩

/-- A step of the main thread within a round. -/
theorem Tracked.main_same (h : Tracked τ s) (hround : s'.round = s.round)
    (hpressed : s'.pressed = s.pressed) (hphase : PhaseOk (Hit τ s) s')
    (hended : s'.place = .resetting ∨ s'.place = .atTest →
      ∃ outcome fs, s'.op = .ended outcome fs)
    (hreset : s'.place = .atTest → Hit τ s → s'.queueCancelled = false) :
    Tracked ((s, .main) :: τ) s' := by
  have hhit : Hit ((s, .main) :: τ) s' ↔ Hit τ s := hit_cons .main (by simp) hround
  refine ⟨bound_cons _ h hround.ge, ?_, ?_, hended, ?_⟩
  · rw [hhit, hpressed]
    exact h.pressed
  · rw [hhit]
    exact hphase
  · rw [hhit]
    exact hreset

variable {Q : PriorityQueue (@MergerInput.key Path)}

theorem Tracked.cancel (h : Tracked τ s) (hstep : cancelStep s = some s') :
    Tracked ((s, .cancel) :: τ) s' := by
  unfold cancelStep at hstep
  split at hstep
  · cases hstep
  · rename_i hpressed
    simp only [Bool.not_eq_true] at hpressed
    have hnot : ¬ Hit τ s := by
      intro hhit
      rw [h.pressed hhit] at hpressed
      cases hpressed
    have hphase := h.phase
    unfold PhaseOk at hphase
    cases hop : s.op with
    | idle =>
      simp only [hop] at hstep
      cases hstep
      exact h.cancel_idle hpressed (by simp [Session.Merging, hop]) rfl rfl
        (by simp [PhaseOk]) (by simp [hop])
    | unscheduled d =>
      simp only [hop] at hstep
      cases hstep
      exact h.cancel_idle hpressed (by simp [Session.Merging, hop]) rfl rfl
        (by simp [PhaseOk]) (by simp [hop])
    | scheduled d =>
      simp only [hop] at hstep
      cases hstep
      exact h.cancel_idle hpressed (by simp [Session.Merging, hop]) rfl rfl
        (by simp [PhaseOk]) (by simp [hop])
    | ended outcome fs =>
      simp only [hop] at hstep hphase
      cases hstep
      refine h.cancel_idle hpressed (by simp [Session.Merging, hop]) rfl rfl ?_ (by simp [hop])
      cases outcome with
      | cancelled => exact absurd hphase hnot
      | finished => simp [PhaseOk]
      | notStarted => simp [PhaseOk]
      | failed => simp [PhaseOk]
    | running m =>
      -- the loop that is running has been hit
      simp only [hop] at hstep
      cases hstep
      have hhit : Hit ((s, .cancel) :: τ) { s with
          pressed := true, queueCancelled := true, opCancelled := true, op := .running m } :=
        ⟨(s, .cancel), by simp, rfl, ⟨m, hop⟩, rfl⟩
      have hplace : ¬ (s.place = .resetting ∨ s.place = .atTest) := by
        intro hp
        obtain ⟨outcome, fs, hended⟩ := h.ended hp
        rw [hop] at hended
        cases hended
      exact ⟨bound_cons _ h le_rfl, fun _ => rfl, iff_of_true rfl hhit,
        fun hp => absurd hp hplace, fun hp => absurd (Or.inr hp) hplace⟩

theorem Tracked.main (h : Tracked τ s) (hstep : mainStep Q o s = some s') :
    Tracked ((s, .main) :: τ) s' := by
  have hphase := h.phase
  unfold mainStep at hstep
  cases hplace : s.place with
  | atWhile =>
    simp only [hplace] at hstep
    split at hstep
    · cases hstep
      exact h.main_same rfl rfl hphase (by simp) (by simp)
    · -- a new round, which nothing has hit
      cases hcreate : MergeOperation.create Q s.rounds.fs (s.rounds.chunk o).inputFileSlice
          (s.rounds.chunk o).targetFilename false with
      | none => simp [hcreate] at hstep
      | some d =>
        simp only [hcreate, Option.bind_eq_bind, Option.bind_some, Option.some.injEq] at hstep
        subst hstep
        have hround : (s.rounds.begin o).operations.length = s.round + 1 := by
          simp [Rounds.begin, Session.round]
        have hnot : ∀ s' : Session Path, s'.round = s.round + 1 → ¬ Hit ((s, .main) :: τ) s' := by
          rintro s' hs' ⟨x, hx, hcancel, -, hx'⟩
          rcases List.mem_cons.mp hx with rfl | hx
          · cases hcancel
          · have := h.bound x hx
            omega
        refine ⟨bound_cons _ h (by simp only [Session.round, hround]; omega), ?_, hnot _ hround,
          by simp, by simp⟩
        exact fun hhit => absurd hhit (hnot _ hround)
  | added =>
    simp only [hplace] at hstep
    cases hop : s.op with
    | unscheduled d =>
      simp only [hop] at hstep
      have hnot : ¬ Hit τ s := by simpa [PhaseOk, hop] using hphase
      split at hstep
      · cases hstep
        exact h.main_same rfl rfl (by simpa [PhaseOk] using hnot) (by simp) (by simp)
      · cases hstep
        exact h.main_same rfl rfl (by simpa [PhaseOk] using hnot) (by simp) (by simp)
    | _ =>
      simp only [hop] at hstep
      cases hstep
      exact h.main_same rfl rfl (by simpa [PhaseOk, hop] using hphase) (by simp) (by simp)
  | joining =>
    simp only [hplace] at hstep
    cases hop : s.op with
    | ended outcome fs =>
      simp only [hop] at hstep
      cases hstep
      exact h.main_same rfl rfl (by simpa [PhaseOk, hop] using hphase)
        (fun _ => ⟨outcome, fs, rfl⟩) (by simp)
    | _ => simp [hop] at hstep
  | resetting =>
    simp only [hplace] at hstep
    cases hstep
    exact h.main_same rfl rfl hphase (fun _ => h.ended (Or.inl hplace)) (fun _ _ => rfl)
  | atTest =>
    simp only [hplace] at hstep
    split at hstep
    · cases hstep
      exact h.main_same rfl rfl hphase (by simp) (by simp)
    · cases hstep
      exact h.main_same rfl rfl hphase (by simp) (by simp)
  | left => simp [hplace] at hstep

variable [DecidableEq Path]

/-- What a step of the thread of the operation does. -/
theorem opStep_spec (hstep : opStep Q s = some s') {hit : Prop} (hphase : PhaseOk hit s) :
    (∃ op, s' = { s with op }) ∧ (¬ ∃ outcome fs, s.op = .ended outcome fs) ∧ PhaseOk hit s' := by
  unfold opStep at hstep
  unfold PhaseOk at hphase ⊢
  cases hop : s.op with
  | scheduled d =>
    simp only [hop] at hstep hphase
    split at hstep
    · cases hstep
      exact ⟨⟨_, rfl⟩, by simp, hphase⟩
    · rename_i hflag
      split at hstep
      · cases hstep
        exact ⟨⟨_, rfl⟩, by simp, hphase⟩
      · cases hstep
        exact ⟨⟨_, rfl⟩, by simp, hphase⟩
      · cases hstep
        exact ⟨⟨_, rfl⟩, by simp, iff_of_false hflag hphase⟩
  | running m =>
    simp only [hop] at hstep hphase
    split at hstep
    · rename_i hflag
      cases hstep
      exact ⟨⟨_, rfl⟩, by simp, hphase.mp hflag⟩
    · rename_i hflag
      split at hstep
      · cases hstep
        exact ⟨⟨_, rfl⟩, by simp, hphase⟩
      · cases hstep
        exact ⟨⟨_, rfl⟩, by simp, mt hphase.mpr hflag⟩
  | idle => simp [hop] at hstep
  | unscheduled d => simp [hop] at hstep
  | ended outcome fs => simp [hop] at hstep

theorem Tracked.op (h : Tracked τ s) (hstep : opStep Q s = some s') :
    Tracked ((s, .op) :: τ) s' := by
  obtain ⟨⟨op, rfl⟩, hnot, hphase⟩ := opStep_spec hstep h.phase
  have hhit : Hit ((s, .op) :: τ) { s with op } ↔ Hit τ s := hit_cons .op (by simp) rfl
  refine ⟨bound_cons _ h le_rfl, ?_, ?_, ?_, ?_⟩
  · rw [hhit]
    exact h.pressed
  · rw [hhit]
    exact hphase
  · exact fun hplace => absurd (h.ended hplace) hnot
  · rw [hhit]
    exact h.reset

theorem Run.tracked {inputFiles : List Path} {fs : FileSystem Path}
    (h : Run Q o inputFiles fs τ s) : Tracked τ s := by
  induction h with
  | start =>
    have hnot : ¬ Hit [] (opens o inputFiles fs) := by simp [Hit]
    exact ⟨by simp, fun hhit => absurd hhit hnot, hnot, by simp [opens], by simp [opens]⟩
  | @step τ s s' e _ hstep ih =>
    cases e with
    | main => exact ih.main hstep
    | op => exact ih.op hstep
    | cancel => exact ih.cancel hstep

/-- In front of the test, a merge that was cut is known to be one: the flag is still set, and
the work list stays as it is. -/
def Honest (Q : PriorityQueue (@MergerInput.key Path)) (o : Settings Path) (s : Session Path) :
    Prop :=
  s.place = .atTest → s.WasCut → s.queueCancelled = true ∧
    ∀ s', mainStep Q o s = some s' → s'.rounds.inputFiles = s.rounds.inputFiles

/-- In every run a cut merge passes as a finished one exactly if `q` was pressed while its loop
was running. -/
theorem honest_iff_not_cancelled_in_the_loop {inputFiles : List Path} {fs : FileSystem Path}
    (h : Run Q o inputFiles fs τ s) :
    Honest Q o s ↔ (s.place = .atTest →
      ∀ x ∈ τ, x.2 = .cancel → x.1.Merging → x.1.round ≠ s.round) := by
  have ht := h.tracked
  have hphase := ht.phase
  constructor
  · intro hhonest hplace x hx hcancel hmerging hround
    have hhit : Hit τ s := ⟨x, hx, hcancel, hmerging, hround⟩
    obtain ⟨outcome, fs, hop⟩ := ht.ended (Or.inr hplace)
    have hcut : s.WasCut := by
      cases outcome with
      | cancelled => exact ⟨fs, hop⟩
      | finished => simp [PhaseOk, hop, hhit] at hphase
      | notStarted => simp [PhaseOk, hop, hhit] at hphase
      | failed => simp [PhaseOk, hop, hhit] at hphase
    -- `reset` has cleared the flag, and nothing sets it again
    have hflag := (hhonest hplace hcut).1
    rw [ht.reset hplace hhit] at hflag
    cases hflag
  · rintro hnone hplace ⟨fs, hop⟩
    have hhit : Hit τ s := by simpa [PhaseOk, hop] using hphase
    obtain ⟨x, hx, hcancel, hmerging, hround⟩ := hhit
    exact absurd hround (hnone hplace x hx hcancel hmerging)

/-- A merge of one file, which is cancelled before its loop has made a turn. -/
theorem exists_cut_run :
    ∃ τ s, Run byHash twoAtOnce [0] (disk single) τ s ∧ s.place = .atTest ∧ s.WasCut ∧
      s.queueCancelled = false := by
  refine ⟨_, _, .step (e := .main) (.step (e := .main) (.step (e := .op) (.step (e := .cancel)
    (.step (e := .op) (.step (e := .main) (.step (e := .main) .start rfl) rfl) rfl) rfl) rfl)
    rfl) rfl, rfl, ⟨_, rfl⟩, rfl⟩

theorem honest_iff_not_cancelled_in_the_loop_cut :
    ∃ τ s, Run byHash twoAtOnce [0] (disk single) τ s ∧
      (Honest byHash twoAtOnce s ↔ (s.place = .atTest →
        ∀ x ∈ τ, x.2 = .cancel → x.1.Merging → x.1.round ≠ s.round)) := by
  obtain ⟨τ, s, h, -⟩ := exists_cut_run
  exact ⟨τ, s, h, honest_iff_not_cancelled_in_the_loop h⟩

theorem a_cut_merge_passes_as_a_finished_one :
    ¬ ∀ τ s, Run byHash twoAtOnce [0] (disk single) τ s → Honest byHash twoAtOnce s := by
  intro hall
  obtain ⟨τ, s, h, hplace, hcut, hflag⟩ := exists_cut_run
  have hset := (hall τ s h hplace hcut).1
  rw [hflag] at hset
  cases hset

end merger
