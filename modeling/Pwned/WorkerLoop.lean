-- The loop of a worker: it accepts a connection, reads a request, answers it
-- and begins again, while a timer closes the socket of a slow connection.
import Pwned.HttpWorker
import Pwned.Library.Runs

open pwned PasswordInspector

namespace webservice

namespace WorkerLoop

/-! ## The machine -/

/-- An asynchronous operation that has begun. -/
inductive Operation
  | accept
  | read
  | write (response : Response)
  /-- The wait of the timer, and the time from which its handler can run. -/
  | wait (ready : Option Nat)
deriving DecidableEq, Repr

/-- A worker between two handlers. -/
structure Serving where
  worker : HttpWorker
  /-- The operations under way. -/
  ops : List Operation := []
  /-- Whether `mSocket` is open. -/
  isOpen : Bool := false
  /-- The number of the connection, and the time of its accept. -/
  connection : Nat := 0
  acceptedAt : Nat := 0
  /-- For every byte the connection that it came from. -/
  mBuffer : List Nat := []
  mResponse : Option Response := none
  /-- `mReqTimeout.expiry()`, none for the greatest time point. -/
  expiry : Option Nat := none
  now : Nat := 0
  /-- An exception has left `run`. -/
  terminated : Bool := false
  /-- The requests that were answered, and the answers. -/
  requests : List Request := []
  responses : List Response := []

inductive Event
  | tick
  | accepted (ok : Bool)
  | arrived (length : Nat)
  /-- The read is over, with a request that took its bytes from the buffer, or with an error.
  The peer may be gone by now. -/
  | received (req : Option Request) (length : Nat) (connected : Bool)
  | written
  | timer
deriving DecidableEq, Repr

/-- `Timeout`, in seconds. -/
def Timeout : Nat := 60

/-- The waits end at once when the timer is set anew. -/
def cancelWait : Operation → Operation
  | .wait _ => .wait (some 0)
  | op => op

namespace Serving

def accept (s : Serving) : Serving :=
  { s with isOpen := false, mBuffer := [], ops := .accept :: s.ops }

def readRequest (s : Serving) : Serving := { s with ops := .read :: s.ops }

/-- `mReqTimeout.expires_at(expiry)` -/
def expiresAt (s : Serving) (expiry : Option Nat) : Serving :=
  { s with expiry, ops := s.ops.map cancelWait }

def expired (s : Serving) : Bool := s.expiry.any (· ≤ s.now)

def checkTimeout (s : Serving) : Serving :=
  let s := if s.expired then ({ s with isOpen := false }).expiresAt none else s
  { s with ops := .wait s.expiry :: s.ops }

def start (worker : HttpWorker) : Serving := ({ worker : Serving }).accept.checkTimeout

/-- The response is made and its write begins. -/
def respond (s : Serving) (req : Request) (response : Response) (worker : HttpWorker) : Serving :=
  { s with
    worker, mResponse := some response, ops := .write response :: s.ops,
    requests := s.requests ++ [req], responses := s.responses ++ [response] }

/-- `processRequest`. The log line of a `GET` asks for the remote endpoint, which throws when the
socket is closed or its peer is gone. -/
def processRequest (fuel : Nat) (s : Serving) (req : Request) (connected : Bool) :
    Option Serving :=
  if req.method_string = ascii "GET" ∧ ¬ (s.isOpen ∧ connected) then
    some { s with terminated := true }
  else
    (s.worker.processRequest fuel req).map fun (response, worker) =>
      s.respond req response worker

end Serving

/-- The handler of an operation of the socket that has been taken from those under way. -/
def isWrite : Operation → Bool
  | .write _ => true
  | _ => false

def isWait : Operation → Bool
  | .wait _ => true
  | _ => false

/-- Whether the handler of a wait can run. -/
def isReady (now : Nat) : Operation → Bool
  | .wait (some ready) => ready ≤ now
  | _ => false

/-- One event, none where it cannot happen. -/
def step (fuel : Nat) (s : Serving) (e : Event) : Option Serving :=
  if s.terminated then none
  else match e with
  | .tick => some { s with now := s.now + 1 }
  | .accepted ok =>
    if .accept ∈ s.ops then
      let s := { s with ops := s.ops.erase .accept }
      if ok then
        let s :=
          { s with isOpen := true, connection := s.connection + 1, acceptedAt := s.now }
        some (s.expiresAt (some (s.now + Timeout))).readRequest
      else some s.accept
    else none
  | .arrived length =>
    if .read ∈ s.ops ∧ s.isOpen then
      some { s with mBuffer := s.mBuffer ++ List.replicate length s.connection }
    else none
  | .received req length connected =>
    if .read ∈ s.ops then
      let s := { s with ops := s.ops.erase .read }
      match req with
      | none => some s.accept
      | some req =>
        if length ≤ s.mBuffer.length then
          ({ s with mBuffer := s.mBuffer.drop length }).processRequest fuel req connected
        else none
    else none
  | .written =>
    (s.ops.find? isWrite).map fun op =>
      ({ s with ops := s.ops.erase op, mResponse := none }).accept
  | .timer =>
    (s.ops.find? (isReady s.now)).map fun op => ({ s with ops := s.ops.erase op }).checkTimeout

/-! ## One operation of the socket and one wait -/

/-- What holds between two handlers: the operation of the socket, and the wait of the timer. -/
structure Sound (s : Serving) (op : Operation) (ready : Option Nat) : Prop where
  ops : s.ops.Perm [op, .wait ready]
  socket : isWait op = false
  response : ∀ r, s.mResponse = some r ↔ op = .write r
  accepting : op = .accept → s.isOpen = false ∧ s.mBuffer = []
  buffer : ∀ c ∈ s.mBuffer, c = s.connection
  expiry : s.isOpen = true → s.expiry = some (s.acceptedAt + Timeout)
  ready : ready = s.expiry ∨ ready = some 0

/-- What holds in a handler of the socket, where only the wait is under way. -/
structure Idle (s : Serving) (ready : Option Nat) : Prop where
  ops : s.ops = [.wait ready]
  response : s.mResponse = none
  buffer : ∀ c ∈ s.mBuffer, c = s.connection
  expiry : s.isOpen = true → s.expiry = some (s.acceptedAt + Timeout)
  ready : ready = s.expiry ∨ ready = some 0

variable {s s' : Serving} {op : Operation} {ready : Option Nat} {fuel : Nat} {e : Event}

theorem Sound.ne_wait (h : Sound s op ready) (t : Option Nat) : op ≠ .wait t := by
  rintro rfl
  cases h.socket

theorem Sound.mem_iff (h : Sound s op ready) {o : Operation} (ho : isWait o = false) :
    o ∈ s.ops ↔ o = op := by
  rw [h.ops.mem_iff]
  simp only [List.mem_cons, List.not_mem_nil, or_false]
  refine ⟨fun hmem => hmem.resolve_right ?_, Or.inl⟩
  rintro rfl
  cases ho

theorem Sound.erase (h : Sound s op ready) : s.ops.erase op = [.wait ready] := by
  have hperm := h.ops.erase op
  rw [List.erase_cons_head] at hperm
  exact List.perm_singleton.mp hperm

theorem Sound.erase_wait (h : Sound s op ready) : s.ops.erase (.wait ready) = [op] := by
  have hperm := h.ops.erase (.wait ready)
  rw [List.erase_cons_tail (by simpa using h.ne_wait ready), List.erase_cons_head] at hperm
  exact List.perm_singleton.mp hperm

/-- The operation of the socket ends. -/
theorem Sound.idle (h : Sound s op ready) : Idle { s with ops := s.ops.erase op, mResponse := none }
    ready :=
  ⟨h.erase, rfl, h.buffer, h.expiry, h.ready⟩

theorem Sound.no_response (h : Sound s op ready) (hop : isWrite op = false) :
    s.mResponse = none := by
  rw [Option.eq_none_iff_forall_ne_some]
  intro r hr
  rw [(h.response r).mp hr] at hop
  cases hop

theorem Sound.idle_reading (h : Sound s op ready) (hop : isWrite op = false) :
    Idle { s with ops := s.ops.erase op } ready :=
  ⟨h.erase, h.no_response hop, h.buffer, h.expiry, h.ready⟩

theorem Idle.accept (h : Idle s ready) : Sound s.accept .accept ready := by
  refine ⟨?_, rfl, fun r => ?_, fun _ => ⟨rfl, rfl⟩, nofun, nofun, h.ready⟩
  · rw [Serving.accept, h.ops]
  · rw [Serving.accept, h.response]
    exact iff_of_false nofun nofun

theorem Idle.readRequest (h : Idle s ready) : Sound s.readRequest .read ready := by
  refine ⟨?_, rfl, fun r => ?_, nofun, h.buffer, h.expiry, h.ready⟩
  · rw [Serving.readRequest, h.ops]
  · rw [Serving.readRequest, h.response]
    exact iff_of_false nofun nofun

theorem Idle.respond (h : Idle s ready) (req : Request) (response : Response)
    (worker : HttpWorker) :
    Sound (s.respond req response worker) (.write response) ready := by
  refine ⟨?_, rfl, fun r => ?_, nofun, h.buffer, h.expiry, h.ready⟩
  · rw [Serving.respond, h.ops]
  · simp [Serving.respond]

/-- A worker that has not terminated is up: one operation of its socket and one wait of its timer
are under way. -/
def Up (s : Serving) : Prop := s.terminated = true ∨ ∃ op ready, Sound s op ready

theorem Idle.processRequest (h : Idle s ready) {req : Request} {connected : Bool}
    (hs : s.processRequest fuel req connected = some s') : Up s' := by
  unfold Serving.processRequest at hs
  split at hs
  · rw [← Option.some.inj hs]
    exact Or.inl rfl
  · obtain ⟨p, -, rfl⟩ := Option.map_eq_some_iff.mp hs
    exact Or.inr ⟨_, _, h.respond req p.1 p.2⟩

/-- The timer looks at the time and waits again. -/
theorem Sound.checkTimeout (h : Sound s op ready) :
    Sound ({ s with ops := s.ops.erase (.wait ready) }).checkTimeout op
      ({ s with ops := s.ops.erase (.wait ready) }).checkTimeout.expiry := by
  have hcancel : cancelWait op = op := by
    cases op with
    | wait t => exact absurd rfl (h.ne_wait t)
    | _ => rfl
  unfold Serving.checkTimeout Serving.expiresAt
  dsimp only
  rw [h.erase_wait]
  split
  · rw [List.map_singleton, hcancel]
    exact ⟨List.Perm.swap .., h.socket, h.response, fun ha => ⟨rfl, (h.accepting ha).2⟩, h.buffer,
      nofun, Or.inl rfl⟩
  · exact ⟨List.Perm.swap .., h.socket, h.response, h.accepting, h.buffer, h.expiry, Or.inl rfl⟩

theorem Sound.find_isReady (h : Sound s op ready) {o : Operation}
    (ho : s.ops.find? (isReady s.now) = some o) :
    o = .wait ready ∧ ∃ t, ready = some t ∧ t ≤ s.now := by
  have hready := List.find?_some ho
  rcases o with _ | _ | r | _ | t
  case wait.some =>
    have hmem := h.ops.mem_iff.mp (List.mem_of_find?_eq_some ho)
    simp only [List.mem_cons, List.not_mem_nil, or_false] at hmem
    rcases hmem with hop | hwait
    · exact absurd hop.symm (h.ne_wait _)
    · exact ⟨hwait, t, (Operation.wait.inj hwait).symm, by simpa [isReady] using hready⟩
  all_goals cases hready

theorem Sound.find_isWrite (h : Sound s op ready) {o : Operation}
    (ho : s.ops.find? isWrite = some o) : o = op := by
  have hwrite := List.find?_some ho
  refine (h.mem_iff ?_).mp (List.mem_of_find?_eq_some ho)
  cases o with
  | write r => rfl
  | _ => cases hwrite

theorem step_of_terminated (h : s.terminated = true) : step fuel s e = none := by
  unfold step
  rw [if_pos h]

theorem Sound.step (h : Sound s op ready) (hs : step fuel s e = some s') : Up s' := by
  unfold WorkerLoop.step at hs
  split at hs
  · cases hs
  cases e with
  | tick =>
    rw [← Option.some.inj hs]
    exact Or.inr ⟨op, ready, h.ops, h.socket, h.response, h.accepting, h.buffer, h.expiry, h.ready⟩
  | accepted ok =>
    dsimp only at hs
    split at hs
    · rename_i hmem
      obtain rfl := (h.mem_iff rfl).mp hmem
      obtain ⟨-, hbuffer⟩ := h.accepting rfl
      split at hs
      · rw [← Option.some.inj hs]
        refine Or.inr ⟨.read, some 0, Idle.readRequest ⟨?_, h.no_response rfl, ?_,
          fun _ => rfl, Or.inr rfl⟩⟩
        · unfold Serving.expiresAt
          dsimp only
          rw [h.erase]
          rfl
        · unfold Serving.expiresAt
          dsimp only
          rw [hbuffer]
          nofun
      · rw [← Option.some.inj hs]
        exact Or.inr ⟨_, _, (h.idle_reading rfl).accept⟩
    · cases hs
  | arrived length =>
    dsimp only at hs
    split at hs
    · rename_i hmem
      obtain rfl := (h.mem_iff rfl).mp hmem.1
      rw [← Option.some.inj hs]
      refine Or.inr ⟨.read, ready, h.ops, h.socket, h.response, nofun, fun c hc => ?_, h.expiry,
        h.ready⟩
      rcases List.mem_append.mp hc with hc | hc
      · exact h.buffer c hc
      · exact List.eq_of_mem_replicate hc
    · cases hs
  | received req length connected =>
    dsimp only at hs
    split at hs
    · rename_i hmem
      obtain rfl := (h.mem_iff rfl).mp hmem
      cases req with
      | none =>
        rw [← Option.some.inj hs]
        exact Or.inr ⟨_, _, (h.idle_reading rfl).accept⟩
      | some req =>
        dsimp only at hs
        split at hs
        · have hidle := h.idle_reading rfl
          have hrest : Idle { s with ops := s.ops.erase .read, mBuffer := s.mBuffer.drop length }
              ready :=
            ⟨hidle.ops, hidle.response, fun c hc => h.buffer c (List.mem_of_mem_drop hc),
              hidle.expiry, hidle.ready⟩
          exact hrest.processRequest hs
        · cases hs
    · cases hs
  | written =>
    obtain ⟨o, ho, rfl⟩ := Option.map_eq_some_iff.mp hs
    obtain rfl := h.find_isWrite ho
    exact Or.inr ⟨_, _, h.idle.accept⟩
  | timer =>
    obtain ⟨o, ho, rfl⟩ := Option.map_eq_some_iff.mp hs
    obtain ⟨rfl, -⟩ := h.find_isReady ho
    exact Or.inr ⟨_, _, h.checkTimeout⟩

theorem Up.step (h : Up s) (hs : WorkerLoop.step fuel s e = some s') : Up s' := by
  rcases h with hterminated | ⟨op, ready, hsound⟩
  · rw [step_of_terminated hterminated] at hs
    cases hs
  · exact hsound.step hs

/-- No response waits while a request is read. -/
theorem Up.no_response {req : Option Request} {length : Nat} {connected : Bool} (h : Up s)
    (hs : WorkerLoop.step fuel s (.received req length connected) = some s') :
    s.mResponse = none := by
  rcases h with hterminated | ⟨op, ready, hsound⟩
  · rw [step_of_terminated hterminated] at hs
    cases hs
  · unfold WorkerLoop.step at hs
    dsimp only at hs
    split at hs
    · cases hs
    · split at hs
      · rename_i hmem
        obtain rfl := (hsound.mem_iff rfl).mp hmem
        exact hsound.no_response rfl
      · cases hs

theorem up_start (worker : HttpWorker) : Up (Serving.start worker) :=
  Or.inr ⟨.accept, none, List.Perm.swap .., rfl, fun _ => iff_of_false nofun nofun,
    fun _ => ⟨rfl, rfl⟩, nofun, nofun, Or.inl rfl⟩

theorem Up.of_reachable {worker : HttpWorker}
    (h : Reachable (WorkerLoop.step fuel) (Serving.start worker) s) : Up s :=
  h.invariant (up_start worker) fun _ _ _ hup _ hs => hup.step hs

/-- In every run a worker has one operation of its socket and one wait of its timer under way, a
response is kept exactly as long as its write goes on, and the buffer holds bytes of the current
connection only. -/
theorem a_worker_does_one_thing_at_a_time {worker : HttpWorker}
    (h : Reachable (step fuel) (Serving.start worker) s) (hup : s.terminated = false) :
    ∃ op ready, s.ops.Perm [op, .wait ready] ∧ isWait op = false ∧
      (∀ r, s.mResponse = some r ↔ op = .write r) ∧ ∀ c ∈ s.mBuffer, c = s.connection := by
  rcases Up.of_reachable h with hdown | ⟨op, ready, hsound⟩
  · rw [hup] at hdown
    cases hdown
  · exact ⟨op, ready, hsound.ops, hsound.socket, hsound.response, hsound.buffer⟩

/-- A connection whose request is answered, with a byte of the next one. -/
def answered : List Event :=
  [.accepted true, .arrived 26, .received (some ⟨ascii "GET", ascii "/v1/pwned/api/info"⟩) 25 true]

theorem a_worker_does_one_thing_at_a_time_answered :
    ∃ s, run (step 1) (Serving.start HttpWorker.service) answered = some s ∧ s.mBuffer = [1] ∧
      ∃ op ready, s.ops.Perm [op, .wait ready] ∧ isWait op = false ∧
        (∀ r, s.mResponse = some r ↔ op = .write r) ∧ ∀ c ∈ s.mBuffer, c = s.connection := by
  have hrun : (run (step 1) (Serving.start HttpWorker.service) answered).map
      (fun s => (s.terminated, s.mBuffer)) = some (false, [1]) := by
    decide +kernel
  obtain ⟨s, hs, hstate⟩ := Option.map_eq_some_iff.mp hrun
  obtain ⟨hup, hbuffer⟩ := Prod.mk.inj hstate
  exact ⟨s, hs, hbuffer, a_worker_does_one_thing_at_a_time (reachable_of_run hs) hup⟩

/-! ## The timer -/

theorem step_timer_iff (hup : s.terminated = false) : step fuel s .timer = some s' ↔
    ∃ o, s.ops.find? (isReady s.now) = some o ∧
      ({ s with ops := s.ops.erase o }).checkTimeout = s' := by
  unfold WorkerLoop.step
  rw [hup, if_neg Bool.false_ne_true, Option.map_eq_some_iff]

theorem checkTimeout_isOpen (s : Serving) :
    s.checkTimeout.isOpen = (s.isOpen && !s.expired) := by
  unfold Serving.checkTimeout Serving.expiresAt
  split
  · rename_i he
    simp [he]
  · rename_i he
    simp [he]

/-- A ready wait is found among the operations. -/
theorem Sound.exists_ready (h : Sound s op ready) {t : Nat} (ht : ready = some t)
    (hnow : t ≤ s.now) : ∃ o, s.ops.find? (isReady s.now) = some o := by
  rw [← Option.isSome_iff_exists, List.find?_isSome]
  refine ⟨.wait ready, h.ops.mem_iff.mpr (by simp), ?_⟩
  rw [ht]
  exact decide_eq_true hnow

/-- The timer does not close a connection before it has been open for a minute. From then on its
handler can run at any time, and closes it. -/
theorem the_timer_closes_after_a_minute {worker : HttpWorker}
    (h : Reachable (step fuel) (Serving.start worker) s) (hup : s.terminated = false)
    (hopen : s.isOpen = true) :
    (∀ t, step fuel s .timer = some t → (t.isOpen = false ↔ s.acceptedAt + Timeout ≤ s.now)) ∧
      (s.acceptedAt + Timeout ≤ s.now → ∃ t, step fuel s .timer = some t) := by
  rcases Up.of_reachable h with hdown | ⟨op, ready, hsound⟩
  · rw [hup] at hdown
    cases hdown
  have hexpiry := hsound.expiry hopen
  constructor
  · intro t ht
    obtain ⟨o, -, rfl⟩ := (step_timer_iff hup).mp ht
    rw [checkTimeout_isOpen]
    simp [Serving.expired, hopen, hexpiry]
  · intro hnow
    have hready : ∃ o, s.ops.find? (isReady s.now) = some o := by
      rcases hsound.ready with he | he
      · exact hsound.exists_ready (he.trans hexpiry) hnow
      · exact hsound.exists_ready he (Nat.zero_le _)
    obtain ⟨o, ho⟩ := hready
    exact ⟨_, (step_timer_iff hup).mpr ⟨o, ho, rfl⟩⟩

theorem the_timer_closes_after_a_minute_silent :
    ∃ s, run (step 1) (Serving.start HttpWorker.service)
        (.accepted true :: List.replicate 60 .tick) = some s ∧ s.isOpen = true ∧
      (∀ t, step 1 s .timer = some t → (t.isOpen = false ↔ s.acceptedAt + Timeout ≤ s.now)) ∧
      (s.acceptedAt + Timeout ≤ s.now → ∃ t, step 1 s .timer = some t) := by
  have hrun : (run (step 1) (Serving.start HttpWorker.service)
      (.accepted true :: List.replicate 60 .tick)).map (fun s => (s.terminated, s.isOpen)) =
        some (false, true) := by
    decide +kernel
  obtain ⟨s, hs, hstate⟩ := Option.map_eq_some_iff.mp hrun
  obtain ⟨hup, hopen⟩ := Prod.mk.inj hstate
  exact ⟨s, hs, hopen, the_timer_closes_after_a_minute (reachable_of_run hs) hup hopen⟩

end WorkerLoop

end webservice
