-- The queue that runs the operations, and its threads: the main program, the
-- scheduler, a thread for each operation, and whoever pauses, resumes or
-- cancels. A move is a step of one of them, and the others move in between.
import Pwned.Library.Runs

namespace pwned

/-- The flags of an operation. -/
structure Operation where
  isRunning : Bool := false
  isFinished : Bool := false
  isCancelled : Bool := false
  isPaused : Bool := false
deriving DecidableEq, Repr

/-- Where the thread of an operation stands. -/
inductive Stage
  /-- There is no thread yet. -/
  | none
  /-- In front of `start()`. -/
  | spawned
  /-- In `start()`, where the flags are set. -/
  | entered | running
  /-- In `execute()`. -/
  | executing
  /-- `execute()` has seen `isPaused`. -/
  | polled
  /-- In `operationWait()`. -/
  | waiting
  /-- Behind `operationWait()`, `isPaused` is still set. -/
  | woken
  /-- Behind `execute()`, where the flags are set. -/
  | executed | stopped
  /-- In front of `finishedCondition.notify_one()`. -/
  | finished
  /-- Behind `start()`. -/
  | left
  /-- Behind `finished(op)`. -/
  | deleted
  /-- Behind `guard.notify()`. -/
  | ended
deriving DecidableEq, Repr

/-- Where the scheduler stands. -/
inductive Scheduler
  /-- There is no thread yet. -/
  | none
  /-- `!unscheduledOps.empty()` -/
  | testEmpty
  /-- `if (_isCancelled)` -/
  | testCancelled
  /-- `guard.wait()` -/
  | guardWait
  /-- In front of `mtx.lock()`, with a permit. -/
  | lock
  | ended
deriving DecidableEq, Repr

/-- Where the main program stands. -/
inductive Main (ι : Type)
  /-- In front of `execute(true)`. -/
  | adding
  /-- The scheduler is started, `_isRunning` is not set yet. -/
  | executing
  | waitForScheduled
  /-- In `waitForFinished()`, with the threads that are still to be joined. -/
  | waitForFinished (threads : List ι)
  /-- All threads are joined. -/
  | joined
deriving DecidableEq, Repr

/-- Which of the two loops of `cancel` an operation belongs to. -/
inductive Loop
  | running
  | unscheduled
deriving DecidableEq, Repr

/-- Where `cancel` stands. It holds the mutex of the queue all the while. -/
inductive Cancel (ι : Type)
  /-- In front of the next of the running operations. -/
  | next (ops : List ι)
  /-- The operation is marked as cancelled. -/
  | marked (loop : Loop) (op : ι) (ops : List ι)
  /-- In `waitForFinished()` of the operation. -/
  | waiting (loop : Loop) (op : ι) (ops : List ι)
  /-- The operation has signalled. -/
  | signalled (loop : Loop) (op : ι) (ops : List ι)
deriving DecidableEq, Repr

structure OperationQueue (ι : Type) where
  unscheduledOps : List ι
  runningOps : List ι := []
  opThreads : List ι := []
  /-- The free permits of the semaphore. -/
  guard : Nat
  isRunning : Bool := false
  isCancelled : Bool := false
  op : ι → Operation := fun _ => {}
  /-- The thread of each operation. -/
  stage : ι → Stage := fun _ => .none
  scheduler : Scheduler := .none
  main : Main ι := .adding
  /-- The call of `cancel` that holds the mutex. -/
  cancelling : Option (Cancel ι) := none
  /-- The operations whose `execute()` was called. -/
  executed : List ι := []
  /-- The operations that `finished` or `cancel` has deleted. -/
  deleted : List ι := []
  /-- `top()` was called on an empty queue. -/
  topOfEmpty : Bool := false

inductive Move (ι : Type)
  /-- The main program. -/
  | main
  /-- The scheduler up to the mutex. -/
  | scheduler
  /-- The locked section of the scheduler, with the operation that is on top. -/
  | schedule (i : ι)
  /-- The thread of an operation. -/
  | thread (i : ι)
  /-- `execute()` of the operation returns. -/
  | returns (i : ι)
  | pause
  | resume
  /-- A call of `cancel` takes the mutex. -/
  | cancel
  /-- `cancel` goes on. -/
  | cancelling
  /-- `cancel` turns to the unscheduled operation that is on top. -/
  | cancelTop (i : ι)

namespace OperationQueue

variable {ι : Type} [DecidableEq ι]

def goTo (s : OperationQueue ι) (i : ι) (stage : Stage) : OperationQueue ι :=
  { s with stage := Function.update s.stage i stage }

def setOp (s : OperationQueue ι) (i : ι) (f : Operation → Operation) : OperationQueue ι :=
  { s with op := Function.update s.op i (f (s.op i)) }

/-- `finishedCondition.notify_one()` of the operation wakes `cancel` where it waits for it. -/
def notifyOne (s : OperationQueue ι) (i : ι) : OperationQueue ι :=
  match s.cancelling with
  | some (.waiting loop op ops) =>
    if op = i then { s with cancelling := some (.signalled loop op ops) } else s
  | _ => s

/-- One step of the thread of an operation: `start()`, then `finished(op)` and
`guard.notify()`. -/
def threadStep (s : OperationQueue ι) (i : ι) : Option (OperationQueue ι) :=
  match s.stage i with
  | .none => none
  | .spawned => some (s.goTo i (if (s.op i).isCancelled then .left else .entered))
  | .entered => some ((s.setOp i fun o => { o with isRunning := true }).goTo i .running)
  | .running =>
    some { (s.setOp i fun o => { o with isPaused := false }).goTo i .executing with
      executed := s.executed ++ [i] }
  | .executing => some (if (s.op i).isPaused then s.goTo i .polled else s)
  | .polled => some (s.goTo i .waiting)
  | .waiting => none
  | .woken => some ((s.setOp i fun o => { o with isPaused := false }).goTo i .executing)
  | .executed => some ((s.setOp i fun o => { o with isRunning := false }).goTo i .stopped)
  | .stopped => some ((s.setOp i fun o => { o with isFinished := true }).goTo i .finished)
  | .finished => some ((s.notifyOne i).goTo i .left)
  | .left =>
    if s.cancelling.isNone then
      some { s.goTo i .deleted with
        runningOps := s.runningOps.filter (· ≠ i), deleted := s.deleted ++ [i] }
    else none
  | .deleted => some { s.goTo i .ended with guard := s.guard + 1 }
  | .ended => none

/-- The operation is on top of the unscheduled ones. -/
def isTop (priority : ι → Int) (s : OperationQueue ι) (i : ι) : Bool :=
  decide (i ∈ s.unscheduledOps) && s.unscheduledOps.all fun j => decide (priority j ≤ priority i)

/-- The locked section of the scheduler: the top goes to the running operations and gets a
thread. -/
def scheduleStep (priority : ι → Int) (s : OperationQueue ι) (i : ι) :
    Option (OperationQueue ι) :=
  if s.scheduler = .lock ∧ s.cancelling.isNone then
    if s.unscheduledOps.isEmpty then some { s with topOfEmpty := true }
    else if s.isTop priority i then
      some { s.goTo i .spawned with
        unscheduledOps := s.unscheduledOps.erase i, runningOps := s.runningOps ++ [i],
        opThreads := s.opThreads ++ [i], scheduler := .testEmpty }
    else none
  else none

def schedulerStep (s : OperationQueue ι) : Option (OperationQueue ι) :=
  match s.scheduler with
  | .none => none
  | .testEmpty =>
    some { s with scheduler := if s.unscheduledOps.isEmpty then .ended else .testCancelled }
  | .testCancelled => some { s with scheduler := if s.isCancelled then .ended else .guardWait }
  | .guardWait =>
    if s.guard = 0 then none else some { s with guard := s.guard - 1, scheduler := .lock }
  | .lock => none
  | .ended => none

/-- `execute(true)` and `waitForFinished()` up to its `reset()`. -/
def mainStep (s : OperationQueue ι) : Option (OperationQueue ι) :=
  match s.main with
  | .adding => some { s with scheduler := .testEmpty, main := .executing }
  | .executing => some { s with isRunning := true, main := .waitForScheduled }
  | .waitForScheduled =>
    if s.scheduler = .ended then some { s with main := .waitForFinished s.opThreads } else none
  | .waitForFinished [] => some { s with main := .joined }
  | .waitForFinished (i :: threads) =>
    if s.stage i = .ended then some { s with main := .waitForFinished threads } else none
  | .joined => none

/-- `pause()` -/
def pause (s : OperationQueue ι) : OperationQueue ι :=
  if s.isCancelled then s
  else if s.isRunning then
    { s with
      op := fun i => if i ∈ s.runningOps then { s.op i with isPaused := true } else s.op i,
      isRunning := false }
  else s

/-- `resume()` -/
def resume (s : OperationQueue ι) : OperationQueue ι :=
  if s.isCancelled then s
  else if s.isRunning then s
  else
    { s with
      stage := fun i => if s.stage i = .waiting then .woken else s.stage i,
      isRunning := true }

/-- A step of the call of `cancel` that holds the mutex. -/
def cancelStep (s : OperationQueue ι) : Option (OperationQueue ι) :=
  match s.cancelling with
  | none => none
  | some (.next (i :: ops)) =>
    some { s.setOp i fun o => { o with isCancelled := true } with
      cancelling := some (.marked .running i ops) }
  | some (.next []) => if s.unscheduledOps.isEmpty then some { s with cancelling := none } else none
  | some (.marked loop i ops) => some { s with cancelling := some (.waiting loop i ops) }
  | some (.waiting ..) => none
  | some (.signalled .running _ ops) => some { s with cancelling := some (.next ops) }
  | some (.signalled .unscheduled i ops) =>
    some { s with
      unscheduledOps := s.unscheduledOps.erase i, deleted := s.deleted ++ [i],
      cancelling := some (.next ops) }

/-- `cancel` marks the top of the unscheduled operations when it is through with the running
ones. -/
def cancelTopStep (priority : ι → Int) (s : OperationQueue ι) (i : ι) :
    Option (OperationQueue ι) :=
  if s.cancelling = some (.next []) ∧ s.isTop priority i then
    some { s.setOp i fun o => { o with isCancelled := true } with
      cancelling := some (.marked .unscheduled i []) }
  else none

def step (priority : ι → Int) (s : OperationQueue ι) : Move ι → Option (OperationQueue ι)
  | .main => s.mainStep
  | .scheduler => s.schedulerStep
  | .schedule i => s.scheduleStep priority i
  | .thread i => s.threadStep i
  | .returns i => if s.stage i = .executing then some (s.goTo i .executed) else none
  | .pause => some s.pause
  | .resume => some s.resume
  | .cancel =>
    if s.cancelling.isNone then
      some { s with isCancelled := true, cancelling := some (.next s.runningOps) }
    else none
  | .cancelling => s.cancelStep
  | .cancelTop i => s.cancelTopStep priority i

/-- The operations are added, and the semaphore has its permits. -/
def start (ops : List ι) (capacity : Nat) : OperationQueue ι :=
  { unscheduledOps := ops, guard := capacity }

/-! ## What the steps leave alone -/

section Frame

variable (s : OperationQueue ι) (i : ι)

@[simp] theorem goTo_stage (stage : Stage) :
    (s.goTo i stage).stage = Function.update s.stage i stage := rfl

@[simp] theorem goTo_op (stage : Stage) : (s.goTo i stage).op = s.op := rfl

@[simp] theorem goTo_isRunning (stage : Stage) : (s.goTo i stage).isRunning = s.isRunning := rfl

@[simp] theorem setOp_stage (f : Operation → Operation) : (s.setOp i f).stage = s.stage := rfl

@[simp] theorem setOp_op (f : Operation → Operation) :
    (s.setOp i f).op = Function.update s.op i (f (s.op i)) := rfl

@[simp] theorem notifyOne_stage : (s.notifyOne i).stage = s.stage := by
  unfold notifyOne
  split
  · split <;> rfl
  · rfl

@[simp] theorem notifyOne_op : (s.notifyOne i).op = s.op := by
  unfold notifyOne
  split
  · split <;> rfl
  · rfl

@[simp] theorem notifyOne_isRunning : (s.notifyOne i).isRunning = s.isRunning := by
  unfold notifyOne
  split
  · split <;> rfl
  · rfl

end Frame

/-! ## What a thread does -/

section Thread

variable {s s' : OperationQueue ι} {i : ι}

/-- The moves of the thread of an operation, with the stage that each starts at. -/
inductive ThreadMoves (s : OperationQueue ι) (i : ι) : OperationQueue ι → Prop
  | tested (h : s.stage i = .spawned) :
      ThreadMoves s i (s.goTo i (if (s.op i).isCancelled then .left else .entered))
  | started (h : s.stage i = .entered) :
      ThreadMoves s i ((s.setOp i fun o => { o with isRunning := true }).goTo i .running)
  | executes (h : s.stage i = .running) :
      ThreadMoves s i { (s.setOp i fun o => { o with isPaused := false }).goTo i .executing with
        executed := s.executed ++ [i] }
  | pauses (h : s.stage i = .executing) (hpaused : (s.op i).isPaused = true) :
      ThreadMoves s i (s.goTo i .polled)
  | goesOn (h : s.stage i = .executing) (hpaused : (s.op i).isPaused = false) : ThreadMoves s i s
  | waits (h : s.stage i = .polled) : ThreadMoves s i (s.goTo i .waiting)
  | wakes (h : s.stage i = .woken) :
      ThreadMoves s i ((s.setOp i fun o => { o with isPaused := false }).goTo i .executing)
  | stops (h : s.stage i = .executed) :
      ThreadMoves s i ((s.setOp i fun o => { o with isRunning := false }).goTo i .stopped)
  | finishes (h : s.stage i = .stopped) :
      ThreadMoves s i ((s.setOp i fun o => { o with isFinished := true }).goTo i .finished)
  | signals (h : s.stage i = .finished) : ThreadMoves s i ((s.notifyOne i).goTo i .left)
  | deletes (h : s.stage i = .left) (hidle : s.cancelling = none) :
      ThreadMoves s i { s.goTo i .deleted with
        runningOps := s.runningOps.filter (· ≠ i), deleted := s.deleted ++ [i] }
  | ends (h : s.stage i = .deleted) :
      ThreadMoves s i { s.goTo i .ended with guard := s.guard + 1 }

theorem threadStep_moves (hs : s.threadStep i = some s') : ThreadMoves s i s' := by
  unfold threadStep at hs
  cases h : s.stage i <;> rw [h] at hs <;> dsimp only at hs
  case none => cases hs
  case waiting => cases hs
  case ended => cases hs
  case executing =>
    rw [← Option.some.inj hs]
    split
    · exact .pauses h ‹_›
    · exact .goesOn h (Bool.not_eq_true _ ▸ ‹_›)
  case left =>
    split at hs
    · rename_i hidle
      rw [← Option.some.inj hs]
      exact .deletes h (Option.isNone_iff_eq_none.mp hidle)
    · cases hs
  all_goals rw [← Option.some.inj hs]
  case spawned => exact .tested h
  case entered => exact .started h
  case running => exact .executes h
  case polled => exact .waits h
  case woken => exact .wakes h
  case executed => exact .stops h
  case stopped => exact .finishes h
  case finished => exact .signals h
  case deleted => exact .ends h

end Thread

/-! ## What the others leave alone -/

omit [DecidableEq ι] in
theorem mainStep_frame {s s' : OperationQueue ι} (h : s.mainStep = some s') :
    s'.cancelling = s.cancelling ∧ s'.stage = s.stage ∧ s'.op = s.op := by
  unfold mainStep at h
  split at h
  · rw [← Option.some.inj h]
    exact ⟨rfl, rfl, rfl⟩
  · rw [← Option.some.inj h]
    exact ⟨rfl, rfl, rfl⟩
  · split at h
    · rw [← Option.some.inj h]
      exact ⟨rfl, rfl, rfl⟩
    · cases h
  · rw [← Option.some.inj h]
    exact ⟨rfl, rfl, rfl⟩
  · split at h
    · rw [← Option.some.inj h]
      exact ⟨rfl, rfl, rfl⟩
    · cases h
  · cases h

omit [DecidableEq ι] in
/-- The main program sets the queue running in one step only. -/
theorem mainStep_isRunning {s s' : OperationQueue ι} (h : s.mainStep = some s') :
    s.main = .executing ∧ s'.isRunning = true ∨
      s.main ≠ .executing ∧ s'.isRunning = s.isRunning := by
  unfold mainStep at h
  split at h
  · rename_i hm
    rw [← Option.some.inj h, hm]
    exact Or.inr ⟨nofun, rfl⟩
  · rename_i hm
    rw [← Option.some.inj h]
    exact Or.inl ⟨hm, rfl⟩
  · rename_i hm
    split at h
    · rw [← Option.some.inj h, hm]
      exact Or.inr ⟨nofun, rfl⟩
    · cases h
  · rename_i hm
    rw [← Option.some.inj h, hm]
    exact Or.inr ⟨nofun, rfl⟩
  · rename_i hm
    split at h
    · rw [← Option.some.inj h, hm]
      exact Or.inr ⟨nofun, rfl⟩
    · cases h
  · cases h

omit [DecidableEq ι] in
theorem schedulerStep_frame {s s' : OperationQueue ι} (h : s.schedulerStep = some s') :
    s'.cancelling = s.cancelling ∧ s'.stage = s.stage ∧ s'.op = s.op ∧
      s'.isRunning = s.isRunning := by
  unfold schedulerStep at h
  split at h
  · cases h
  · rw [← Option.some.inj h]
    exact ⟨rfl, rfl, rfl, rfl⟩
  · rw [← Option.some.inj h]
    exact ⟨rfl, rfl, rfl, rfl⟩
  · split at h
    · cases h
    · rw [← Option.some.inj h]
      exact ⟨rfl, rfl, rfl, rfl⟩
  · cases h
  · cases h

end OperationQueue

end pwned
