-- The program that converts lists of passwords: a queue of conversions, each
-- in a thread of its own, while keys pause, resume and cancel the queue.
import Pwned.ConvertFinish
import Pwned.QueueProgress

open Counting

namespace pwned

namespace ConverterProgram

open ConvertOperation ConvertNames ConvertThreads

/-! ## The operations of the program -/

/-- What the command line says. -/
structure Settings where
  dstDirectory : Path
  outputExt : List UInt8
  memFreeAssumedMBytes : BitVec 64
  numThreads : BitVec 32
  forceMD5 : Bool := false
  autoMD5 : Bool := false
  forceHex : Bool := false
  autoHex : Bool := false

namespace Settings

def defaultNumThreads : BitVec 32 := 4

variable (o : Settings)

/-- `numThreads`, or the default where it is zero. -/
def threads : BitVec 32 := if o.numThreads = 0 then defaultNumThreads else o.numThreads

/-- The memory of one conversion. -/
def maxMem : BitVec 64 := o.memFreeAssumedMBytes * 1024 * 1024 / o.threads.setWidth 64

def options : List UserPasswordReaderOptions :=
  (if o.forceMD5 then [.forceEvaluateMD5Hashes]
    else if o.autoMD5 then [.autoEvaluateMD5Hashes] else []) ++
  (if o.forceHex then [.forceEvaluateHexEncodedPasswords]
    else if o.autoHex then [.autoEvaluateHexEncodedPasswords] else [])

/-- `new ConvertOperation(filename, ...)` -/
def operation (filename : Path) (inputFile : TextStream) : ConvertOperation where
  srcFilePath := filename
  dstPath := o.dstDirectory
  outputExt := o.outputExt
  maxMem := o.maxMem
  options := o.options
  inputFile

end Settings

/-- `fs::file_size` of the source. -/
def priority (d : ConvertOperation) : Int := d.inputFile.content.length

/-! ## The program -/

/-- The queue, and what the operations do in `execute`. -/
structure Program (ι : Type) where
  queue : OperationQueue ι
  threads : Threads ι
  /-- The first look of `execute` at `isCancelled` is done. -/
  entered : ι → Bool := fun _ => false

inductive Move (ι : Type)
  /-- The main program, the scheduler, a thread outside of the conversion, or a key. -/
  | queue (a : pwned.Move ι)
  /-- `execute` looks at `isCancelled` and creates its reader. -/
  | enter (i : ι)
  /-- A step of a conversion. -/
  | work (a : ConvertThreads.Move ι)
  /-- `execute` returns. -/
  | leave (i : ι)

section Steps

variable {ι : Type} [DecidableEq ι] (md5 : List UInt8 → Vector UInt8 16)
  (d : ι → ConvertOperation)

/-- The operation is in `execute` and does not wait. -/
def Program.converts (s : Program ι) (i : ι) : Bool :=
  decide (s.queue.stage i = .executing) && s.entered i

/-- `execute` looks at `isPaused` only where no chunk is written. When it returns is no step of the
queue. -/
def Program.admits (s : Program ι) : pwned.Move ι → Bool
  | .thread i =>
    decide (s.queue.stage i ≠ .executing) || s.entered i && isCounting (s.threads.dir.stage i)
  | .returns _ => false
  | _ => true

/-- The loops are over, or the conversion is cancelled and behind its inner loop. -/
def Program.returns (s : Program ι) (i : ι) : Prop :=
  Finished s.threads i ∨ (s.queue.op i).isCancelled = true ∧
    isCounting (s.threads.dir.stage i) = true ∧ goesOn (d i) (s.threads.vars i) = false

instance (s : Program ι) (i : ι) : Decidable (s.returns d i) := by
  unfold Program.returns
  infer_instance

def step (s : Program ι) : Move ι → Option (Program ι)
  | .queue a =>
    if s.admits a then
      (OperationQueue.step (fun i => priority (d i)) s.queue a).map fun queue => { s with queue }
    else none
  | .enter i =>
    if s.queue.stage i = .executing ∧ s.entered i = false then
      if (s.queue.op i).isCancelled then some { s with queue := s.queue.goTo i .executed }
      else some { s with entered := Function.update s.entered i true }
    else none
  | .work a =>
    if s.converts a.mover then
      (ConvertThreads.step md5 d s.threads a).map fun threads => { s with threads }
    else none
  | .leave i =>
    if s.converts i ∧ s.returns d i then some { s with queue := s.queue.goTo i .executed }
    else none

/-- The operations are added to the queue. -/
def start (ops : List ι) (capacity : Nat) (fs : FileSystem Path) : Program ι where
  queue := OperationQueue.start ops capacity
  threads := ConvertThreads.start d fs

end Steps

/-! ## What one step can do -/

section Cases

variable {ι : Type} [DecidableEq ι] {md5 : List UInt8 → Vector UInt8 16}
  {d : ι → ConvertOperation} {s s' : Program ι}

/-- The steps of the program: one of the queue, one of a conversion, or into it and out of it. -/
inductive Steps (md5 : List UInt8 → Vector UInt8 16) (d : ι → ConvertOperation) (s : Program ι) :
    Move ι → Program ι → Prop
  | queue {a : pwned.Move ι} {queue : OperationQueue ι} (hreturns : ∀ i, a ≠ .returns i)
      (hs : OperationQueue.step (fun i => priority (d i)) s.queue a = some queue) :
      Steps md5 d s (.queue a) { s with queue }
  | enters {i : ι} (hstage : s.queue.stage i = .executing) (hnot : s.entered i = false) :
      Steps md5 d s (.enter i) { s with entered := Function.update s.entered i true }
  | turnsBack {i : ι} (hstage : s.queue.stage i = .executing)
      (hcancelled : (s.queue.op i).isCancelled = true) :
      Steps md5 d s (.enter i) { s with queue := s.queue.goTo i .executed }
  | works {a : ConvertThreads.Move ι} {threads : Threads ι}
      (hstage : s.queue.stage a.mover = .executing) (hentered : s.entered a.mover = true)
      (hs : ConvertThreads.step md5 d s.threads a = some threads) :
      Steps md5 d s (.work a) { s with threads }
  | leaves {i : ι} (hstage : s.queue.stage i = .executing) (hreturns : s.returns d i) :
      Steps md5 d s (.leave i) { s with queue := s.queue.goTo i .executed }

theorem steps_of_step {a : Move ι} (hs : step md5 d s a = some s') : Steps md5 d s a s' := by
  unfold step at hs
  cases a with
  | queue a =>
    dsimp only at hs
    split at hs
    · rename_i hadmits
      obtain ⟨queue, hqueue, rfl⟩ := Option.map_eq_some_iff.mp hs
      refine .queue (fun i hi => ?_) hqueue
      rw [hi] at hadmits
      cases hadmits
    · cases hs
  | enter i =>
    dsimp only at hs
    split at hs
    · rename_i hstage
      split at hs
      · rename_i hcancelled
        rw [← Option.some.inj hs]
        exact .turnsBack hstage.1 hcancelled
      · rw [← Option.some.inj hs]
        exact .enters hstage.1 hstage.2
    · cases hs
  | work a =>
    dsimp only at hs
    split at hs
    · rename_i hconverts
      obtain ⟨threads, hthreads, rfl⟩ := Option.map_eq_some_iff.mp hs
      rw [Program.converts, Bool.and_eq_true, decide_eq_true_eq] at hconverts
      exact .works hconverts.1 hconverts.2 hthreads
    · cases hs
  | leave i =>
    dsimp only at hs
    split at hs
    · rename_i hleaves
      have hstage := hleaves.1
      rw [Program.converts, Bool.and_eq_true, decide_eq_true_eq] at hstage
      rw [← Option.some.inj hs]
      exact .leaves hstage.1 hleaves.2
    · cases hs

/-- To return is a step of the queue. -/
theorem step_returns (priority : ι → Int) {q : OperationQueue ι} {i : ι}
    (h : q.stage i = .executing) :
    OperationQueue.step priority q (.returns i) = some (q.goTo i .executed) := by
  simp [OperationQueue.step, h]

end Cases

/-! ## What is behind `execute` is finished or cancelled -/

section Behind

variable {ι : Type} [DecidableEq ι]

/-- The thread of the operation has returned from `execute`, or never gets there. -/
def behind : Stage → Bool
  | .executed | .stopped | .finished | .left | .deleted | .ended => true
  | _ => false

/-- A step of the queue takes no operation back that is cancelled, and leads none behind `execute`
that is not. -/
structure Follows (q q' : OperationQueue ι) : Prop where
  cancelled : ∀ i, (q.op i).isCancelled = true → (q'.op i).isCancelled = true
  behind : ∀ i, behind (q'.stage i) = true →
    behind (q.stage i) = true ∨ (q.op i).isCancelled = true

variable {q q' : OperationQueue ι} {priority : ι → Int} {i : ι}

omit [DecidableEq ι] in
theorem follows_of_same (hop : ∀ j, (q'.op j).isCancelled = (q.op j).isCancelled)
    (hstage : q'.stage = q.stage) : Follows q q' :=
  ⟨fun j hj => by rwa [hop], fun j hj => Or.inl (by rwa [hstage] at hj)⟩

theorem follows_of_move {stage : Stage}
    (hop : ∀ j, (q'.op j).isCancelled = (q.op j).isCancelled)
    (hstage : q'.stage = Function.update q.stage i stage)
    (hmove : ConverterProgram.behind stage = true →
      ConverterProgram.behind (q.stage i) = true ∨ (q.op i).isCancelled = true) :
    Follows q q' := by
  refine ⟨fun j hj => by rwa [hop], fun j hj => ?_⟩
  rw [hstage] at hj
  by_cases hi : j = i
  · rw [hi] at hj ⊢
    rw [Function.update_self] at hj
    exact hmove hj
  · rw [Function.update_of_ne hi] at hj
    exact Or.inl hj

/-- To mark an operation as cancelled takes nothing back. -/
theorem follows_of_mark (hop : q'.op = Function.update q.op i { q.op i with isCancelled := true })
    (hstage : q'.stage = q.stage) : Follows q q' := by
  refine ⟨fun j hj => ?_, fun j hj => Or.inl (by rwa [hstage] at hj)⟩
  rw [hop]
  by_cases hi : j = i
  · rw [hi, Function.update_self]
  · rwa [Function.update_of_ne hi]

theorem follows_threadStep (hs : q.threadStep i = some q') : Follows q q' := by
  cases OperationQueue.threadStep_moves hs with
  | tested hst =>
    refine follows_of_move (i := i) (fun _ => rfl) rfl fun hbehind => Or.inr ?_
    split at hbehind
    · assumption
    · simp [behind] at hbehind
  | started | executes | wakes =>
    exact follows_of_move (OperationQueue.flag_update Operation.isCancelled rfl rfl) rfl
      (by simp [behind])
  | pauses | waits => exact follows_of_move (i := i) (fun _ => rfl) rfl (by simp [behind])
  | goesOn => exact follows_of_same (fun _ => rfl) rfl
  | stops hst | finishes hst =>
    exact follows_of_move (OperationQueue.flag_update Operation.isCancelled rfl rfl) rfl
      (by simp [behind, hst])
  | deletes hst | ends hst =>
    exact follows_of_move (i := i) (fun _ => rfl) rfl (by simp [behind, hst])
  | signals hst =>
    have hop : ((q.notifyOne i).goTo i .left).op = q.op := OperationQueue.notifyOne_op q i
    have hstage : ((q.notifyOne i).goTo i .left).stage = Function.update q.stage i .left := by
      rw [OperationQueue.goTo_stage, OperationQueue.notifyOne_stage]
    exact follows_of_move (fun j => by rw [hop]) hstage (by simp [behind, hst])

theorem follows_scheduleStep (hs : q.scheduleStep priority i = some q') : Follows q q' := by
  unfold OperationQueue.scheduleStep at hs
  split at hs
  · split at hs
    · rw [← Option.some.inj hs]
      exact follows_of_same (fun _ => rfl) rfl
    · split at hs
      · rw [← Option.some.inj hs]
        exact follows_of_move (i := i) (fun _ => rfl) rfl (by simp [behind])
      · cases hs
  · cases hs

theorem follows_cancelStep (hs : q.cancelStep = some q') : Follows q q' := by
  unfold OperationQueue.cancelStep at hs
  split at hs
  · cases hs
  · rw [← Option.some.inj hs]
    exact follows_of_mark rfl rfl
  · split at hs
    · rw [← Option.some.inj hs]
      exact follows_of_same (fun _ => rfl) rfl
    · cases hs
  · rw [← Option.some.inj hs]
    exact follows_of_same (fun _ => rfl) rfl
  · cases hs
  · rw [← Option.some.inj hs]
    exact follows_of_same (fun _ => rfl) rfl
  · rw [← Option.some.inj hs]
    exact follows_of_same (fun _ => rfl) rfl

theorem follows_pause (q : OperationQueue ι) : Follows q q.pause := by
  unfold OperationQueue.pause
  split_ifs
  · exact follows_of_same (fun _ => rfl) rfl
  · refine follows_of_same (fun j => ?_) rfl
    dsimp only
    split <;> rfl
  · exact follows_of_same (fun _ => rfl) rfl

omit [DecidableEq ι] in
theorem follows_resume (q : OperationQueue ι) : Follows q q.resume := by
  unfold OperationQueue.resume
  split_ifs
  · exact follows_of_same (fun _ => rfl) rfl
  · exact follows_of_same (fun _ => rfl) rfl
  · refine ⟨fun _ hj => hj, fun j hj => Or.inl ?_⟩
    dsimp only at hj
    split at hj
    · simp [behind] at hj
    · exact hj

/-- Only `execute` leads behind `execute`. -/
theorem follows_step {a : pwned.Move ι} (hreturns : ∀ i, a ≠ .returns i)
    (hs : OperationQueue.step priority q a = some q') : Follows q q' := by
  unfold OperationQueue.step at hs
  cases a with
  | main =>
    obtain ⟨-, hstage, hop⟩ := OperationQueue.mainStep_frame hs
    exact follows_of_same (fun j => by rw [hop]) hstage
  | scheduler =>
    obtain ⟨-, hstage, hop, -⟩ := OperationQueue.schedulerStep_frame hs
    exact follows_of_same (fun j => by rw [hop]) hstage
  | schedule i => exact follows_scheduleStep hs
  | thread i => exact follows_threadStep hs
  | returns i => exact absurd rfl (hreturns i)
  | pause => exact Option.some.inj hs ▸ follows_pause q
  | resume => exact Option.some.inj hs ▸ follows_resume q
  | cancel =>
    dsimp only at hs
    split at hs
    · rw [← Option.some.inj hs]
      exact follows_of_same (fun _ => rfl) rfl
    · cases hs
  | cancelling => exact follows_cancelStep hs
  | cancelTop i =>
    dsimp only at hs
    unfold OperationQueue.cancelTopStep at hs
    split at hs
    · rw [← Option.some.inj hs]
      exact follows_of_mark rfl rfl
    · cases hs

variable {md5 : List UInt8 → Vector UInt8 16} {d : ι → ConvertOperation} {ops : List ι}
  {capacity : Nat} {s s' : Program ι}

/-- An operation whose thread is behind `execute` is finished if nobody has cancelled it. -/
def Complete (s : Program ι) : Prop :=
  ∀ i, behind (s.queue.stage i) = true →
    Finished s.threads i ∨ (s.queue.op i).isCancelled = true

omit [DecidableEq ι] in
theorem complete_start (d : ι → ConvertOperation) (ops : List ι) (capacity : Nat)
    (fs₀ : FileSystem Path) : Complete (start d ops capacity fs₀) := by
  simp [Complete, start, OperationQueue.start, behind]

theorem finished_of_other {threads threads' : Threads ι} {a : ConvertThreads.Move ι}
    (hs : ConvertThreads.step md5 d threads a = some threads') (hi : i ≠ a.mover)
    (h : Finished threads i) : Finished threads' i := by
  obtain ⟨hstage, hvars, -⟩ := step_other hs hi
  exact ⟨hstage ▸ h.counting, hvars ▸ h.eof, hvars ▸ h.empty⟩

/-- An operation returns that is finished or cancelled. -/
theorem Complete.returns (h : Complete s)
    (hi : Finished s.threads i ∨ (s.queue.op i).isCancelled = true) :
    Complete { s with queue := s.queue.goTo i .executed } := by
  intro j hj
  by_cases heq : j = i
  · exact heq ▸ hi
  · apply h j
    rwa [OperationQueue.goTo_stage, Function.update_of_ne heq] at hj

theorem Complete.step (h : Complete s) {a : Move ι} (hs : step md5 d s a = some s') :
    Complete s' := by
  cases steps_of_step hs with
  | queue hreturns hqueue =>
    have hfollows := follows_step hreturns hqueue
    intro i hi
    rcases hfollows.behind i hi with hbehind | hcancelled
    · exact (h i hbehind).imp_right (hfollows.cancelled i)
    · exact Or.inr (hfollows.cancelled i hcancelled)
  | enters => exact h
  | turnsBack hstage hcancelled => exact h.returns (Or.inr hcancelled)
  | works hstage hentered hthreads =>
    intro i hi
    refine (h i hi).imp_left (finished_of_other hthreads ?_)
    rintro rfl
    rw [hstage] at hi
    cases hi
  | leaves hstage hreturns => exact h.returns (hreturns.imp_right And.left)

/-- Nobody cancels. -/
def NoCancel (_ : Program ι) (a : Move ι) : Prop := a ≠ .queue .cancel

/-- The queue of a program that nobody cancels is one that nobody cancels. -/
theorem accounts_step {a : Move ι} (h : OperationQueue.Accounts ops capacity s.queue)
    (hnodup : ops.Nodup) (ha : NoCancel s a) (hs : step md5 d s a = some s') :
    OperationQueue.Accounts ops capacity s'.queue := by
  cases steps_of_step hs with
  | queue hreturns hqueue =>
    refine h.step hnodup ?_ hqueue
    rintro rfl
    exact ha rfl
  | enters | works => exact h
  | turnsBack hstage | leaves hstage =>
    exact h.step hnodup (by simp [OperationQueue.NoCancel])
      (step_returns (fun i => priority (d i)) hstage)

/-- When the main program has joined the threads all conversions are finished. -/
theorem Complete.all_finished (h : Complete s)
    (haccounts : OperationQueue.Accounts ops capacity s.queue) (hnodup : ops.Nodup)
    (hjoined : s.queue.main = .joined) : ∀ i ∈ ops, Finished s.threads i := by
  intro i hi
  obtain ⟨hended, hall⟩ := haccounts.joins.joined hjoined
  have hplace := haccounts.books.unscheduled i
  rw [haccounts.schedules.done hended, List.count_nil, Nat.zero_add,
    List.count_eq_one_of_mem hnodup hi, ← haccounts.books.threads] at hplace
  have hthread : i ∈ s.queue.opThreads := List.count_pos_iff.mp (by omega)
  refine (h i (by simp [hall i hthread, behind])).resolve_right fun hcancelled => ?_
  simp [haccounts.uncancelled.op i] at hcancelled

/-! ## Every line is counted -/

/-- Nobody cancels, and the conversions take smooth steps. -/
def Smooth (s : Program ι) : Move ι → Prop
  | .queue a => a ≠ .cancel
  | .work a => ConvertThreads.Smooth s.threads a
  | _ => True

omit [DecidableEq ι] in
theorem noCancel_of_smooth {a : Move ι} (h : Smooth s a) : NoCancel s a := by
  rintro rfl
  exact h rfl

/-- No operation of the program is lost or executed twice. -/
theorem accounts_reached (hnodup : ops.Nodup) {fs₀ : FileSystem Path}
    (h : Reaches (step md5 d) Smooth (start d ops capacity fs₀) s) :
    OperationQueue.Accounts ops capacity s.queue := by
  induction h with
  | start => exact OperationQueue.accounts_start ops capacity
  | step _ ha hs ih => exact accounts_step ih hnodup (noCancel_of_smooth ha) hs

/-- The conversions of the program run as conversions at once do, if their steps are smooth. -/
theorem threads_reached {ok : Program ι → Move ι → Prop} {fs₀ : FileSystem Path}
    (hok : ∀ s b, ok s (.work b) → ConvertThreads.Smooth s.threads b)
    (h : Reaches (step md5 d) ok (start d ops capacity fs₀) s) :
    Reaches (ConvertThreads.step md5 d) ConvertThreads.Smooth (ConvertThreads.start d fs₀)
      s.threads := by
  refine h.project Program.threads fun s a s' ha hs => ?_
  cases steps_of_step hs with
  | @works b threads _ _ hthreads => exact Or.inr ⟨b, hok s b ha, hthreads⟩
  | queue | enters | turnsBack | leaves => exact Or.inl rfl

/-- The chunks of a conversion are what conversions at once make. -/
theorem sound_reached {ok : Program ι → Move ι → Prop} {fs₀ : FileSystem Path}
    (hread : Readable d) (hok : ∀ s b, ok s (.work b) → ConvertThreads.Smooth s.threads b)
    (h : Reaches (step md5 d) ok (start d ops capacity fs₀) s) : Sound md5 d fs₀ s.threads :=
  (threads_reached hok h).invariant (sound_start md5 hread fs₀) fun _ _ _ hs hok => hs.step hok

theorem complete_reached {ok : Program ι → Move ι → Prop} {fs₀ : FileSystem Path}
    (h : Reaches (step md5 d) ok (start d ops capacity fs₀) s) : Complete s :=
  h.invariant (complete_start d ops capacity fs₀) fun _ _ _ hs _ hstep => hs.step hstep

end Behind

/-! ### Two operations of one line each -/

section Two

/-- An operation from the scheduler to its end. Something may happen after the first line. -/
def wholeLife (i : Fin 2) (meanwhile : List (Move (Fin 2))) : List (Move (Fin 2)) :=
  [.queue .scheduler, .queue .scheduler, .queue .scheduler, .queue (.schedule i),
    .queue (.thread i), .queue (.thread i), .queue (.thread i), .enter i, .work (.count i)] ++
  meanwhile ++
  [.work (.sort i), .work (.test i), .work (.create i), .work (.dump i), .work (.close i),
    .leave i, .queue (.thread i), .queue (.thread i), .queue (.thread i), .queue (.thread i),
    .queue (.thread i)]

/-- The operation waits until the space key is pressed again. -/
def pauseAndResume (i : Fin 2) : List (Move (Fin 2)) :=
  [.queue .pause, .queue (.thread i), .queue (.thread i), .queue .resume, .queue (.thread i)]

def bothFiles (meanwhile : Fin 2 → List (Move (Fin 2))) : List (Move (Fin 2)) :=
  [.queue .main, .queue .main] ++
  ((List.finRange 2).flatMap fun i => wholeLife i (meanwhile i)) ++
  [.queue .scheduler, .queue .main, .queue .main, .queue .main, .queue .main]

instance (s : Program (Fin 2)) : ∀ a : Move (Fin 2), Decidable (Smooth s a)
  | .queue .cancel => .isFalse fun h => h rfl
  | .queue .main | .queue .scheduler | .queue (.schedule _) | .queue (.thread _)
  | .queue (.returns _) | .queue .pause | .queue .resume | .queue .cancelling
  | .queue (.cancelTop _) => .isTrue (by simp [Smooth])
  | .work a => inferInstanceAs (Decidable (ConvertThreads.Smooth s.threads a))
  | .enter _ | .leave _ => .isTrue trivial

end Two

/-! ## The program comes to its end -/

section Ends

variable {ι : Type} [DecidableEq ι] {md5 : List UInt8 → Vector UInt8 16}
  {d : ι → ConvertOperation} {ops : List ι} {capacity : Nat} {s s' : Program ι}

/-- Nobody pauses, resumes or cancels. -/
def LeftAlone (s : Program ι) : Move ι → Prop
  | .queue a => OperationQueue.LeftAlone s.queue a
  | _ => True

instance (s : Program ι) : ∀ a : Move ι, Decidable (LeftAlone s a)
  | .queue a => OperationQueue.decidableLeftAlone s.queue a
  | .enter _ | .work _ | .leave _ => .isTrue trivial

omit [DecidableEq ι] in
theorem noCancel_of_leftAlone {a : Move ι} (h : LeftAlone s a) : NoCancel s a := by
  rintro rfl
  exact h

/-- What a program that is left alone keeps. -/
structure Going (ops : List ι) (capacity : Nat) (s : Program ι) : Prop where
  accounts : OperationQueue.Accounts ops capacity s.queue
  complete : Complete s
  calm : OperationQueue.Calm s.queue
  alive : AllAlive s.threads

theorem going_start (hread : Readable d) (fs₀ : FileSystem Path) :
    Going ops capacity (start d ops capacity fs₀) :=
  ⟨OperationQueue.accounts_start ops capacity, complete_start d ops capacity fs₀,
    OperationQueue.calm_start ops capacity, allAlive_start hread fs₀⟩

/-- How many steps the program may still take: of the queue, of the conversions, and into them. -/
def toGo [Fintype ι] (d : ι → ConvertOperation) (ops : List ι) (s : Program ι) : Nat :=
  OperationQueue.work ops.length s.queue + costs d s.threads + ops.countP fun i => !s.entered i

theorem count_ops (h : OperationQueue.Books ops s.queue) (hnodup : ops.Nodup) {i : ι}
    (hi : s.queue.stage i = .executing) : ops.count i = 1 := by
  have hplace := h.unscheduled i
  rw [hi] at hplace
  have hmem : i ∈ ops := List.count_pos_iff.mp (by rw [← hplace]; simp [OperationQueue.phase,
    OperationQueue.Phase.threads])
  exact List.count_eq_one_of_mem hnodup hmem

theorem Going.step [Fintype ι] (h : Going ops capacity s) (hnodup : ops.Nodup)
    (hmem : ∀ i, (d i).maxMem ≠ 0) {a : Move ι} (ha : LeftAlone s a)
    (hs : step md5 d s a = some s') : Going ops capacity s' ∧ toGo d ops s' < toGo d ops s := by
  have haccounts := accounts_step h.accounts hnodup (noCancel_of_leftAlone ha) hs
  have hcomplete := h.complete.step hs
  cases steps_of_step hs with
  | queue hreturns hqueue =>
    obtain ⟨⟨-, hcalm⟩, hwork⟩ :=
      OperationQueue.work_step h.accounts hnodup h.calm ha hqueue
    refine ⟨⟨haccounts, hcomplete, hcalm, h.alive⟩, ?_⟩
    unfold toGo
    dsimp only
    omega
  | @enters i hstage hnot =>
    refine ⟨⟨haccounts, hcomplete, h.calm, h.alive⟩, ?_⟩
    have hcount := countP_update (p := fun b => !b) (f := s.entered) (b := true)
      (count_ops h.accounts.books hnodup hstage)
    rw [hnot] at hcount
    simp only [Bool.not_false, Bool.not_true, Bool.toNat_true, Bool.toNat_false] at hcount
    unfold toGo
    dsimp only
    omega
  | @turnsBack i hstage hcancelled => simp [h.accounts.uncancelled.op i] at hcancelled
  | works hstage hentered hthreads =>
    refine ⟨⟨haccounts, hcomplete, h.calm, h.alive.step hmem hthreads⟩, ?_⟩
    have hcosts := costs_step hmem h.alive hthreads
    unfold toGo
    dsimp only
    omega
  | @leaves i hstage hreturns =>
    have hqueue := step_returns (fun i => priority (d i)) hstage
    have hreturn : OperationQueue.LeftAlone s.queue (.returns i) := trivial
    obtain ⟨⟨-, hcalm⟩, hwork⟩ :=
      OperationQueue.work_step h.accounts hnodup h.calm hreturn hqueue
    refine ⟨⟨haccounts, hcomplete, hcalm, h.alive⟩, ?_⟩
    unfold toGo
    dsimp only
    omega

/-- Until all threads are joined the queue goes on, or a conversion does. -/
theorem Going.goes_on (md5 : List UInt8 → Vector UInt8 16) (d : ι → ConvertOperation)
    (h : Going ops capacity s) (hcapacity : 0 < capacity) (hjoined : s.queue.main ≠ .joined) :
    ∃ a, LeftAlone s a ∧ (ConverterProgram.step md5 d s a).isSome = true := by
  have hqueue : ∃ a, OperationQueue.LeftAlone s.queue a ∧
      (OperationQueue.step (fun i => priority (d i)) s.queue a).isSome = true :=
    OperationQueue.goes_on h.accounts h.calm hcapacity hjoined
  obtain ⟨a, ha, hsome⟩ := hqueue
  by_cases hreturns : ∃ i, a = .returns i
  · obtain ⟨i, rfl⟩ := hreturns
    have hstage : s.queue.stage i = .executing := by
      by_contra hne
      simp [OperationQueue.step, hne] at hsome
    cases hentered : s.entered i with
    | false =>
      exact ⟨.enter i, trivial, by
        simp [ConverterProgram.step, hstage, hentered, h.accounts.uncancelled.op i]⟩
    | true =>
      by_cases hfinished : Finished s.threads i
      · exact ⟨.leave i, trivial, by
          simp [ConverterProgram.step, Program.converts, Program.returns, hstage, hentered,
            hfinished]⟩
      · obtain ⟨b, t, rfl, hb⟩ := exists_step md5 d (h.alive i) hfinished
        exact ⟨.work b, trivial, by
          simp [ConverterProgram.step, Program.converts, hstage, hentered, hb]⟩
  · have hadmits : s.admits a = true := by
      cases a with
      | thread i => simp [Program.admits, show s.queue.stage i ≠ .executing from ha]
      | returns i => exact absurd ⟨i, rfl⟩ hreturns
      | main | scheduler | schedule | pause | resume | cancel | cancelling | cancelTop => rfl
    refine ⟨.queue a, ha, ?_⟩
    simp only [ConverterProgram.step, hadmits, if_true, Option.isSome_map]
    exact hsome

omit [DecidableEq ι] in
theorem toGo_start [Fintype ι] (hread : Readable d) (hmem : ∀ i, (d i).maxMem ≠ 0)
    (fs₀ : FileSystem Path) :
    toGo d ops (start d ops capacity fs₀) =
      15 * ops.length + 5 + 10007 * ∑ i, ((d i).inputFile.content.splitOn 10).length := by
  have hwork := OperationQueue.work_start ops capacity
  have hcosts := costs_start hread hmem fs₀
  have hcount : (ops.countP fun _ => !false) = ops.length := by simp
  unfold toGo start
  dsimp only
  rw [hwork, hcosts, hcount]
  omega

/-- A program that nobody pauses or cancels takes a bounded number of steps, in whatever order its
threads run and whether or not its conversions disturb one another: until all threads are joined
some step can be taken, and then all conversions are finished. -/
theorem the_converter_comes_to_its_end [Fintype ι] (md5 : List UInt8 → Vector UInt8 16)
    (d : ι → ConvertOperation) (hread : Readable d) (hmem : ∀ i, (d i).maxMem ≠ 0) (ops : List ι)
    (hnodup : ops.Nodup) (hcapacity : 0 < capacity) (fs₀ : FileSystem Path) (as : List (Move ι))
    (hmeets : Meets (step md5 d) LeftAlone (start d ops capacity fs₀) as)
    (hrun : run (step md5 d) (start d ops capacity fs₀) as = some s) :
    as.length ≤ 15 * ops.length + 5 +
        10007 * ∑ i, ((d i).inputFile.content.splitOn 10).length ∧
      (s.queue.main ≠ .joined → ∃ a, LeftAlone s a ∧ (step md5 d s a).isSome = true) ∧
      (s.queue.main = .joined → ∀ i ∈ ops, Finished s.threads i) := by
  obtain ⟨hgoing, hlength⟩ := hmeets.run_measure (toGo d ops)
    (fun _ _ _ hs ha hstep => Going.step hs hnodup hmem ha hstep) (going_start hread fs₀) hrun
  rw [toGo_start hread hmem] at hlength
  exact ⟨by omega, hgoing.goes_on md5 d hcapacity,
    hgoing.complete.all_finished hgoing.accounts hnodup⟩

theorem the_converter_comes_to_its_end_two :
    ∃ s, run (step firstByte oneLine) (start oneLine [0, 1] 1 emptyDirectory)
        (bothFiles fun _ => []) = some s ∧
      (bothFiles fun _ => []).length ≤ 35 +
        10007 * ∑ i, ((oneLine i).inputFile.content.splitOn 10).length ∧
      (s.queue.main ≠ .joined →
        ∃ a, LeftAlone s a ∧ (step firstByte oneLine s a).isSome = true) ∧
      (s.queue.main = .joined → ∀ i ∈ [0, 1], Finished s.threads i) := by
  have hsome : (run (step firstByte oneLine) (start oneLine [0, 1] 1 emptyDirectory)
      (bothFiles fun _ => [])).isSome = true := by
    decide +kernel
  have hmeets : Meets (step firstByte oneLine) LeftAlone
      (start oneLine [0, 1] 1 emptyDirectory) (bothFiles fun _ => []) := by
    decide +kernel
  obtain ⟨s, hs⟩ := Option.isSome_iff_exists.mp hsome
  exact ⟨s, hs, the_converter_comes_to_its_end firstByte oneLine (fun i => ⟨rfl, rfl⟩)
    (by decide) [0, 1] (by decide) Nat.one_pos emptyDirectory (bothFiles fun _ => []) hmeets hs⟩

end Ends

end ConverterProgram

end pwned
