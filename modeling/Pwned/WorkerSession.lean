-- What a worker answers in a whole session: whatever comes between them, its
-- requests get the answers of the database, one after the other.
import Pwned.WorkerLoop

open pwned PasswordInspector

/-! ## Lookups with any fuel -/

namespace pwned.PasswordInspector

variable {hash : Hash} {fuel : Nat}

/-- A search that has ended gives the same with more fuel. -/
theorem search_succ : ∀ {f : InputStream} {phc : PasswordHashAndCount} {lo hi : Int} {n : Nat}
    {q : PasswordHashAndCount × Nat × InputStream}, search hash fuel f phc lo hi n = some q →
      search hash (fuel + 1) f phc lo hi n = some q := by
  induction fuel with
  | zero => exact nofun
  | succ fuel ih =>
    intro f phc lo hi n q h
    rw [search] at h ⊢
    split_ifs at h ⊢ with hle
    · dsimp only at h ⊢
      split_ifs at h ⊢
      · exact ih h
      · exact ih h
      · exact h
    · exact h

theorem search_yields_of_eq {f : InputStream} {phc : PasswordHashAndCount} {lo hi : Int} {n : Nat}
    {q : PasswordHashAndCount × Nat × InputStream} (h : search hash fuel f phc lo hi n = some q) :
    Yields (fun fuel => search hash fuel f phc lo hi n) q := by
  refine ⟨fuel, fun more hmore => ?_⟩
  induction more, hmore using Nat.le_induction with
  | base => exact h
  | succ m _ ih => exact search_succ ih

instance (db : Database) (hash : Hash) : Decidable (Behind db hash) :=
  inferInstanceAs (Decidable (∀ r ∈ db.records, r.key < hash.key))

/-- What any lookup on an open database gives, and what it leaves behind. -/
theorem Serves.binsearch_spec {ins : PasswordInspector} {db : Database} (h : Serves ins db)
    {p : PasswordHashAndCount × Nat × PasswordInspector}
    (hp : ins.binsearch fuel hash = some p) :
    p.1.count = (if ins.mInputFile.fail then 0 else stored db.records hash.key) ∧
      Serves p.2.2 db ∧
      p.2.2.mInputFile.fail = (ins.mInputFile.fail || decide (Behind db hash)) := by
  rw [h.binsearch_eq] at hp
  obtain ⟨q, hq, hqp⟩ := Option.map_eq_some_iff.mp hp
  have hyields : Yields (fun fuel => ins.binsearch fuel hash) p := by
    simp only [h.binsearch_eq]
    rw [← hqp]
    exact (search_yields_of_eq hq).map _
  rcases hf : ins.mInputFile.fail with _ | _
  · obtain ⟨phc, n, ins', hy, hcount, hserves, hfail⟩ := h.binsearch_live hf hash
    obtain rfl := hyields.unique hy
    refine ⟨hcount, hserves, ?_⟩
    rw [Bool.false_or, Bool.eq_iff_iff, hfail, decide_eq_true_iff]
  · obtain ⟨phc, n, ins', hy, hcount, hserves, hfail⟩ := h.binsearch_failed hf hash
    obtain rfl := hyields.unique hy
    exact ⟨hcount, hserves, hfail⟩

theorem Serves.binsearch_ends {ins : PasswordInspector} {db : Database} (h : Serves ins db)
    (hash : Hash) : Ends fun fuel => ins.binsearch fuel hash := by
  rcases hf : ins.mInputFile.fail with _ | _
  · obtain ⟨phc, n, ins', hy, -⟩ := h.binsearch_live hf hash
    exact ⟨_, hy⟩
  · obtain ⟨phc, n, ins', hy, -⟩ := h.binsearch_failed hf hash
    exact ⟨_, hy⟩

end pwned.PasswordInspector

namespace webservice

/-! ## The abstract service -/

/-- What the answers of a worker depend on: the database and its date, the base path, and whether
a lookup behind all records has failed the stream. -/
structure Service where
  db : Database
  basePath : List UInt8
  lastUpdated : Int
  failed : Bool := false

namespace Service

/-- The answer to one request, and the service behind it. -/
def answer (service : Service) (req : Request) : Response × Service :=
  if req.method_string = ascii "GET" then
    let uri := ({} : URI).parseTarget req.target
    match uri.mPath == service.basePath ++ ascii "/lookup", uri.find (ascii "hash") with
    | true, some value =>
      let hash := Hash.fromHex value
      let found := if service.failed then 0 else stored service.db.records hash.key
      (HttpWorker.makeResponse (.lookup hash.toString found),
        { service with failed := service.failed || decide (Behind service.db hash) })
    | _, _ =>
      if uri.mPath = service.basePath ++ ascii "/info" then
        (HttpWorker.makeResponse (.info service.db.records.length service.lastUpdated), service)
      else (HttpWorker.sendBadResponse .not_found [], service)
  else
    (HttpWorker.sendBadResponse .bad_request
      (ascii "Invalid request method '" ++ req.method_string ++ ascii "'\r\n"), service)

/-- The answers to a list of requests. -/
def answers (service : Service) : List Request → List Response × Service
  | [] => ([], service)
  | req :: reqs =>
    let (response, service) := service.answer req
    let (responses, service) := service.answers reqs
    (response :: responses, service)

theorem answers_concat (service : Service) (reqs : List Request) (req : Request) :
    service.answers (reqs ++ [req]) =
      ((service.answers reqs).1 ++ [((service.answers reqs).2.answer req).1],
        ((service.answers reqs).2.answer req).2) := by
  induction reqs generalizing service with
  | nil => rfl
  | cons r reqs ih => simp only [List.cons_append, answers, ih]

/-- The worker is in the state of the service. -/
structure Provides (worker : HttpWorker) (service : Service) : Prop where
  basePath : worker.mBasePath = service.basePath
  lastUpdated : worker.mLastUpdated = service.lastUpdated
  serves : Serves worker.mInspector service.db
  failed : worker.mInspector.mInputFile.fail = service.failed

variable {worker worker' : HttpWorker} {service : Service} {req : Request} {response : Response}
  {fuel : Nat}

theorem Provides.size (h : Provides worker service) :
    worker.mInspector.size = service.db.records.length := by
  unfold PasswordInspector.size
  rw [h.serves.fileSize, Database.bytes, encodeAll_length]
  exact Nat.mul_div_cancel_left _ (by decide)

/-- A worker that is not asked for a hash answers as the service does. -/
theorem Provides.info (h : Provides worker service) {path : List UInt8}
    (hp : (if path = service.basePath ++ ascii "/info" then
        some (HttpWorker.makeResponse (.info worker.mInspector.size worker.mLastUpdated), worker)
      else some (HttpWorker.sendBadResponse .not_found [], worker)) = some (response, worker')) :
    (response, service) = (if path = service.basePath ++ ascii "/info" then
        (HttpWorker.makeResponse (.info service.db.records.length service.lastUpdated), service)
      else (HttpWorker.sendBadResponse .not_found [], service)) ∧ Provides worker' service := by
  rw [h.size, h.lastUpdated] at hp
  split_ifs at hp ⊢
  · obtain ⟨rfl, rfl⟩ := Prod.mk.inj (Option.some.inj hp)
    exact ⟨rfl, h⟩
  · obtain ⟨rfl, rfl⟩ := Prod.mk.inj (Option.some.inj hp)
    exact ⟨rfl, h⟩

/-- A worker answers as the service does, and goes on as the service does. -/
theorem Provides.processRequest (h : Provides worker service)
    (hp : worker.processRequest fuel req = some (response, worker')) :
    response = (service.answer req).1 ∧ Provides worker' (service.answer req).2 := by
  unfold HttpWorker.processRequest HttpWorker.sendResponse at hp
  unfold answer
  rw [h.basePath] at hp
  by_cases hget : req.method_string = ascii "GET"
  · rw [if_pos hget] at hp ⊢
    dsimp only at hp ⊢
    rcases hpath : (({} : URI).parseTarget req.target).mPath ==
        service.basePath ++ ascii "/lookup" with _ | _
    · simp only [hpath] at hp ⊢
      obtain ⟨hresponse, hnext⟩ := h.info hp
      rw [← hresponse]
      exact ⟨rfl, hnext⟩
    · rcases hfind : (({} : URI).parseTarget req.target).find (ascii "hash") with _ | value
      · simp only [hpath, hfind] at hp ⊢
        obtain ⟨hresponse, hnext⟩ := h.info hp
        rw [← hresponse]
        exact ⟨rfl, hnext⟩
      · simp only [hpath, hfind] at hp ⊢
        obtain ⟨p, hsearch, he⟩ := Option.map_eq_some_iff.mp hp
        obtain ⟨rfl, rfl⟩ := Prod.mk.inj he
        obtain ⟨hcount, hserves, hfail⟩ := h.serves.binsearch_spec hsearch
        rw [h.failed] at hcount hfail
        rw [hcount]
        exact ⟨rfl, rfl, h.lastUpdated, hserves, hfail⟩
  · rw [if_neg hget] at hp ⊢
    obtain ⟨rfl, rfl⟩ := Prod.mk.inj (Option.some.inj hp)
    exact ⟨rfl, h⟩

theorem Provides.ends (h : Provides worker service) (req : Request) :
    Ends fun fuel => worker.processRequest fuel req := by
  unfold HttpWorker.processRequest HttpWorker.sendResponse
  split
  · dsimp only
    split
    · obtain ⟨p, hp⟩ := h.serves.binsearch_ends (Hash.fromHex _)
      exact ⟨_, hp.map _⟩
    · split
      · exact ⟨_, Yields.of_eq fun _ => rfl⟩
      · exact ⟨_, Yields.of_eq fun _ => rfl⟩
  · exact ⟨_, Yields.of_eq fun _ => rfl⟩

end Service

/-! ## Sessions -/

namespace WorkerLoop

variable {s s' : Serving} {fuel : Nat} {e : Event}

/-- A step leaves the worker as it is, or the worker answers the request that it received. -/
def Keeps (fuel : Nat) (s : Serving) (e : Event) (s' : Serving) : Prop :=
  (s'.worker = s.worker ∧ s'.requests = s.requests ∧ s'.responses = s.responses ∧
      (s'.mResponse = s.mResponse ∨ s'.mResponse = none)) ∨
    ∃ req length connected response, e = .received (some req) length connected ∧
      s.worker.processRequest fuel req = some (response, s'.worker) ∧
      s'.requests = s.requests ++ [req] ∧ s'.responses = s.responses ++ [response] ∧
      s'.mResponse = some response

theorem checkTimeout_keeps (s : Serving) : Keeps fuel s e s.checkTimeout := by
  unfold Serving.checkTimeout Serving.expiresAt
  dsimp only
  split
  · exact Or.inl ⟨rfl, rfl, rfl, Or.inl rfl⟩
  · exact Or.inl ⟨rfl, rfl, rfl, Or.inl rfl⟩

theorem processRequest_keeps {req : Request} {length : Nat} {connected : Bool}
    (hs : s.processRequest fuel req connected = some s') :
    Keeps fuel s (.received (some req) length connected) s' := by
  unfold Serving.processRequest at hs
  split at hs
  · rw [← Option.some.inj hs]
    exact Or.inl ⟨rfl, rfl, rfl, Or.inl rfl⟩
  · obtain ⟨p, hp, rfl⟩ := Option.map_eq_some_iff.mp hs
    exact Or.inr ⟨req, length, connected, p.1, rfl, hp, rfl, rfl, rfl⟩

theorem step_keeps (hs : step fuel s e = some s') : Keeps fuel s e s' := by
  unfold step at hs
  split at hs
  · cases hs
  cases e with
  | tick =>
    rw [← Option.some.inj hs]
    exact Or.inl ⟨rfl, rfl, rfl, Or.inl rfl⟩
  | accepted ok =>
    dsimp only at hs
    split_ifs at hs
    · rw [← Option.some.inj hs]
      exact Or.inl ⟨rfl, rfl, rfl, Or.inl rfl⟩
    · rw [← Option.some.inj hs]
      exact Or.inl ⟨rfl, rfl, rfl, Or.inl rfl⟩
  | arrived length =>
    dsimp only at hs
    split_ifs at hs
    rw [← Option.some.inj hs]
    exact Or.inl ⟨rfl, rfl, rfl, Or.inl rfl⟩
  | received req length connected =>
    dsimp only at hs
    split at hs
    · cases req with
      | none =>
        rw [← Option.some.inj hs]
        exact Or.inl ⟨rfl, rfl, rfl, Or.inl rfl⟩
      | some req =>
        dsimp only at hs
        split_ifs at hs
        exact (processRequest_keeps hs :)
    · cases hs
  | written =>
    obtain ⟨o, -, rfl⟩ := Option.map_eq_some_iff.mp hs
    exact Or.inl ⟨rfl, rfl, rfl, Or.inr rfl⟩
  | timer =>
    obtain ⟨o, -, rfl⟩ := Option.map_eq_some_iff.mp hs
    exact checkTimeout_keeps _

/-- The worker has answered its requests as the service does, and is where the service is. -/
def Agrees (service : Service) (s : Serving) : Prop :=
  s.responses = (service.answers s.requests).1 ∧
    Service.Provides s.worker (service.answers s.requests).2

theorem Agrees.step {service : Service} (h : Agrees service s) (hs : step fuel s e = some s') :
    Agrees service s' := by
  obtain ⟨hresponses, hprovides⟩ := h
  rcases step_keeps hs with ⟨hw, hq, hr, -⟩ | ⟨req, -, -, response, -, hp, hq, hr, -⟩
  · unfold Agrees
    rw [hw, hq, hr]
    exact ⟨hresponses, hprovides⟩
  · obtain ⟨hresponse, hnext⟩ := hprovides.processRequest hp
    unfold Agrees
    rw [hq, hr, Service.answers_concat, hresponses, hresponse]
    exact ⟨rfl, hnext⟩

theorem Agrees.of_reachable {service : Service} {worker : HttpWorker}
    (hworker : Service.Provides worker service)
    (h : Reachable (WorkerLoop.step fuel) (Serving.start worker) s) : Agrees service s :=
  h.invariant ⟨rfl, hworker⟩ fun _ _ _ hs _ => hs.step

/-- Whatever happens in between, a worker on a sorted database has given to all requests of a run
the answers of the service, and the answer to the next one ends. -/
theorem a_session_answers_as_the_service {service : Service} {worker : HttpWorker}
    (hworker : Service.Provides worker service)
    (h : Reachable (WorkerLoop.step fuel) (Serving.start worker) s) :
    s.responses = (service.answers s.requests).1 ∧
      ∀ req, Ends fun fuel => s.worker.processRequest fuel req := by
  obtain ⟨hresponses, hprovides⟩ := Agrees.of_reachable hworker h
  exact ⟨hresponses, hprovides.ends⟩

/-- A lookup that fails the stream and one that finds nothing any more. -/
def twoLookups : List Event :=
  [.accepted true,
    .received (some ⟨ascii "GET", ascii "/v1/pwned/api/lookup?hash=ff"⟩) 0 true, .written, .timer,
    .accepted true,
    .received (some ⟨ascii "GET", ascii "/v1/pwned/api/lookup?hash=8d"⟩) 0 true]

theorem a_session_answers_as_the_service_twice :
    ∃ s, run (WorkerLoop.step 8) (Serving.start HttpWorker.service) twoLookups = some s ∧
      s.requests.length = 2 ∧
      s.responses = (Service.answers ⟨HttpWorker.oneHash, ascii "/v1/pwned/api", 0, false⟩
        s.requests).1 ∧
      ∀ req, Ends fun fuel => s.worker.processRequest fuel req := by
  have hprovides : Service.Provides HttpWorker.service
      ⟨HttpWorker.oneHash, ascii "/v1/pwned/api", 0, false⟩ :=
    ⟨rfl, rfl, serves_openFile _, rfl⟩
  have hrun : (run (WorkerLoop.step 8) (Serving.start HttpWorker.service) twoLookups).map
      (fun s => s.requests.length) = some 2 := by
    decide +kernel
  obtain ⟨s, hs, hlength⟩ := Option.map_eq_some_iff.mp hrun
  exact ⟨s, hs, hlength, a_session_answers_as_the_service hprovides (reachable_of_run hs)⟩

end WorkerLoop

end webservice
