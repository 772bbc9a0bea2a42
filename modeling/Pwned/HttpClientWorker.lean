-- The workers of the load test. Each asks the service for the hash of a
-- random record of the database, waits for the answer and begins again
-- until its time is over.
import Pwned.WorkerSession

open pwned

namespace webservice

/-! ## A worker -/

/-- The asynchronous operation that is under way. -/
inductive Waiting
  | resolve
  | connect
  | handshake
  | write
  | read
  | shutdown
  | nothing
deriving DecidableEq, Repr

structure HttpClientWorker where
  mURI : URI
  /-- The numbers that the generator gives, and how many were drawn. -/
  mGen : Nat → BitVec 64
  drawn : Nat := 0
  mInputFile : InputStream
  mInputSize : BitVec 64
  mT0 : Nat
  mT1 : Nat
  mTStop : Nat := 0
  now : Nat
  waiting : Waiting := .nothing
  mResolverResults : Bool := false
  mSSLStream : Bool := false
  mReq : Request := ⟨[], []⟩
  mRequestCount : Nat := 0
  mRTTt0 : Nat := 0
  mRTT : List Nat := []
  /-- A division by zero has stopped the program. -/
  terminated : Bool := false
  /-- The requests that were counted, and their answers. -/
  counted : List (Request × Response) := []

/-- The handlers that can run, and the clock. -/
inductive ClientEvent
  | tick
  | resolved (ok : Bool)
  | connected (ok : Bool)
  | handshaken (ok : Bool)
  | written (ok : Bool)
  /-- The read is over, and the socket can be shut down or cannot. -/
  | received (res : Option Response) (ok : Bool)
  | down (ok : Bool)
deriving DecidableEq, Repr

/-- Whether `read_json` takes the body. -/
def Body.isJson : Body → Bool
  | .text _ => false
  | _ => true

namespace HttpClientWorker

/-- The constructor, on the bytes of the input file. `none` when the address throws. -/
def create (address file : List UInt8) (mGen : Nat → BitVec 64) (now runtime : Nat) :
    Option HttpClientWorker :=
  (({} : URI).parse address).map fun mURI =>
    { mURI, mGen, mInputFile := { content := file }, mInputSize := BitVec.ofNat 64 file.length,
      mT0 := now, mT1 := now + runtime, now }

def fail (w : HttpClientWorker) : HttpClientWorker := { w with waiting := .nothing }

def connect (w : HttpClientWorker) : HttpClientWorker := { w with waiting := .connect }

/-- The target of the request for a hash. -/
def target (w : HttpClientWorker) (hash : Hash) : List UInt8 :=
  w.mURI.mPath ++ (ascii "?hash=" ++ hash.toString)

def start (w : HttpClientWorker) : HttpClientWorker :=
  let w : HttpClientWorker :=
    { w with mSSLStream := w.mSSLStream || decide (w.mURI.mScheme = ascii "https") }
  if w.mInputSize = 0 then { w.fail with terminated := true }
  else
    let pos := (w.mGen w.drawn % w.mInputSize).toInt
    let idx := pos - pos.tmod PasswordHashAndCount.size
    let (ok, phc, f) := ({} : PasswordHashAndCount).readAt w.mInputFile idx
    let w := { w with drawn := w.drawn + 1, mInputFile := f }
    if ok then
      let w := { w with mReq := ⟨ascii "GET", w.target phc.hash⟩, mRTTt0 := w.now }
      if w.mResolverResults then w.connect else { w with waiting := .resolve }
    else w.fail

def restart (w : HttpClientWorker) : HttpClientWorker :=
  let w := { w with mTStop := w.now }
  if w.now < w.mT1 then ({ w with mSSLStream := false }).start else w.fail

def onRead (w : HttpClientWorker) (res : Response) (ok : Bool) : HttpClientWorker :=
  if res.body.isJson then
    let w := { w with
      mRTT := w.mRTT ++ [w.now - w.mRTTt0], mRequestCount := w.mRequestCount + 1,
      counted := w.counted ++ [(w.mReq, res)] }
    if w.mSSLStream then { w with waiting := .shutdown }
    else if ok then w.restart else w.fail
  else w.fail

/-- One event, none where it cannot happen. -/
def step (w : HttpClientWorker) (e : ClientEvent) : Option HttpClientWorker :=
  match e, w.waiting with
  | .tick, _ => some { w with now := w.now + 1 }
  | .resolved ok, .resolve =>
    some (if ok then ({ w with mResolverResults := true }).connect else w.fail)
  | .connected ok, .connect =>
    some (if ok then { w with waiting := if w.mSSLStream then .handshake else .write }
      else w.fail)
  | .handshaken ok, .handshake => some (if ok then { w with waiting := .write } else w.fail)
  | .written ok, .write => some (if ok then { w with waiting := .read } else w.fail)
  | .received res ok, .read => some (res.elim w.fail fun res => w.onRead res ok)
  | .down ok, .shutdown => some (if ok then w.restart else w.fail)
  | _, _ => none

/-! ## The requests -/

/-- The request asks under the path for the hash of a record. -/
def Good (db : Database) (path : List UInt8) (req : Request) : Prop :=
  ∃ x ∈ db.records,
    req = ⟨ascii "GET", path ++ (ascii "?hash=" ++ x.phc.hash.toString)⟩

/-- The worker reads the file of the database. -/
structure Loads (w : HttpClientWorker) (db : Database) : Prop where
  content : w.mInputFile.content = db.bytes
  live : w.mInputFile.fail = false
  size : w.mInputSize = BitVec.ofNat 64 db.bytes.length

/-- What `start` sets: the request, its time and the operation under way, and what it needs for
them. -/
structure Started (w w' : HttpClientWorker) : Prop where
  keeps : w' = { w with
    drawn := w'.drawn, mInputFile := w'.mInputFile, waiting := w'.waiting,
    mSSLStream := w'.mSSLStream, mReq := w'.mReq, mRTTt0 := w'.mRTTt0, terminated := w'.terminated }
  begins : w'.waiting ≠ .nothing →
    (w'.waiting = .resolve ∨ w'.waiting = .connect) ∧ w'.mRTTt0 = w.now
  draws : w'.waiting ≠ .nothing → w'.drawn ≠ w.drawn

variable {w w' : HttpClientWorker} {db : Database} {path : List UInt8} {e : ClientEvent}

theorem started (w : HttpClientWorker) : Started w w.start := by
  unfold start
  dsimp only
  split_ifs
  · exact ⟨rfl, fun h => absurd rfl h, fun h => absurd rfl h⟩
  · exact ⟨rfl, fun _ => ⟨Or.inr rfl, rfl⟩, fun _ => Nat.succ_ne_self _⟩
  · exact ⟨rfl, fun _ => ⟨Or.inl rfl, rfl⟩, fun _ => Nat.succ_ne_self _⟩
  · exact ⟨rfl, fun h => absurd rfl h, fun h => absurd rfl h⟩

/-- Any position rounds down to a record. -/
theorem Loads.readAt (h : w.Loads db) {pos : Nat} (hpos : pos < db.bytes.length) :
    ∃ x ∈ db.records, ∃ f,
      ({} : PasswordHashAndCount).readAt w.mInputFile
        ((pos : Int) - (pos : Int).tmod PasswordHashAndCount.size) = (true, x.phc, f) ∧
      f.content = db.bytes ∧ f.fail = false := by
  rw [Database.bytes, encodeAll_length] at hpos
  have hidx : (pos : Int) - (pos : Int).tmod PasswordHashAndCount.size = (20 * (pos / 20) : Nat) := by
    have hsize : (PasswordHashAndCount.size : Int) = 20 := rfl
    rw [hsize, Int.tmod_eq_emod_of_nonneg (by omega)]
    omega
  have hm : pos / 20 < db.records.length := by omega
  have hrecord : ∃ f, ({} : PasswordHashAndCount).readAt w.mInputFile (20 * (pos / 20) : Nat) =
      (true, db.records[pos / 20].phc, f) ∧ f.content = w.mInputFile.content ∧ f.fail = false :=
    PasswordInspector.readAt_record h.content h.live rfl hm
  obtain ⟨f, hread, hcontent, hlive⟩ := hrecord
  rw [hidx]
  exact ⟨_, List.getElem_mem hm, f, hread, hcontent.trans h.content, hlive⟩

/-- On a database with records every request asks for one of them. -/
theorem Loads.start (h : w.Loads db) : w.start.Loads db ∧
    (w.start.waiting ≠ .nothing → Good db w.mURI.mPath w.start.mReq) := by
  have hlt := db.size_lt
  have hlength : db.bytes.length = 20 * db.records.length := encodeAll_length _
  unfold HttpClientWorker.start
  dsimp only
  split_ifs with hzero hok
  · exact ⟨⟨h.content, h.live, h.size⟩, fun hne => absurd rfl hne⟩
  all_goals
    have hsize : w.mInputSize.toNat = db.bytes.length := by
      rw [h.size, BitVec.toNat_ofNat, Nat.mod_eq_of_lt (by omega)]
    have hpos : 0 < db.bytes.length := by
      rw [← hsize]
      exact Nat.pos_of_ne_zero fun h0 => hzero (BitVec.eq_of_toNat_eq h0)
    have hmod : (w.mGen w.drawn % w.mInputSize).toNat < db.bytes.length := by
      rw [BitVec.toNat_umod, hsize]
      exact Nat.mod_lt _ hpos
    have hint : (w.mGen w.drawn % w.mInputSize).toInt =
        ((w.mGen w.drawn % w.mInputSize).toNat : Int) :=
      BitVec.toInt_eq_toNat_of_lt (by omega)
    obtain ⟨x, hx, f, hread, hcontent, hlive⟩ := h.readAt hmod
    rw [hint, hread]
  · exact ⟨⟨hcontent, hlive, h.size⟩, fun _ => ⟨x, hx, rfl⟩⟩
  · exact ⟨⟨hcontent, hlive, h.size⟩, fun _ => ⟨x, hx, rfl⟩⟩
  · exact ⟨⟨hcontent, hlive, h.size⟩, fun hne => absurd rfl hne⟩

/-! ## What a handler does -/

/-- The order of the operations of one request. -/
inductive Follows : Waiting → Waiting → Prop
  | secure : Follows .connect .handshake
  | plain : Follows .connect .write
  | secured : Follows .handshake .write
  | written : Follows .write .read

/-- Everything that an event can do. -/
inductive Handles (w : HttpClientWorker) : ClientEvent → HttpClientWorker → Prop
  | tick : Handles w .tick { w with now := w.now + 1 }
  | fails (e : ClientEvent) : Handles w e w.fail
  | resolves (ok : Bool) (h : w.waiting = .resolve) :
      Handles w (.resolved ok) ({ w with mResolverResults := true }).connect
  | goesOn (e : ClientEvent) (next : Waiting) (h : Follows w.waiting next) :
      Handles w e { w with waiting := next }
  | reads (res : Response) (ok : Bool) (h : w.waiting = .read) :
      Handles w (.received (some res) ok) (w.onRead res ok)
  | restarts (ok : Bool) (h : w.waiting = .shutdown) : Handles w (.down ok) w.restart

theorem handles_of_step (hs : w.step e = some w') : Handles w e w' := by
  unfold step at hs
  split at hs
  · rw [← Option.some.inj hs]
    exact .tick
  · rename_i ok hwait
    rw [← Option.some.inj hs]
    split_ifs
    · exact .resolves _ hwait
    · exact .fails _
  · rename_i hwait
    rw [← Option.some.inj hs]
    split_ifs
    · exact .goesOn _ _ (hwait ▸ .secure)
    · exact .goesOn _ _ (hwait ▸ .plain)
    · exact .fails _
  · rename_i hwait
    rw [← Option.some.inj hs]
    split_ifs
    · exact .goesOn _ _ (hwait ▸ .secured)
    · exact .fails _
  · rename_i hwait
    rw [← Option.some.inj hs]
    split_ifs
    · exact .goesOn _ _ (hwait ▸ .written)
    · exact .fails _
  · rename_i res ok hwait
    rw [← Option.some.inj hs]
    cases res with
    | none => exact .fails _
    | some res => exact .reads res ok hwait
  · rename_i hwait
    rw [← Option.some.inj hs]
    split_ifs
    · exact .restarts _ hwait
    · exact .fails _
  · cases hs

/-- A handler goes from one operation to the next with the request that it has, or begins again.
It counts the request when its answer has been read. -/
structure Moves (w : HttpClientWorker) (e : ClientEvent) (w' : HttpClientWorker) : Prop where
  handshake : w'.waiting = .handshake → w.waiting = .connect ∨ w.waiting = .handshake
  write : w'.waiting = .write →
    (w.waiting = .connect ∨ w.waiting = .handshake ∨ w.waiting = .write) ∧ w'.mReq = w.mReq
  read : w'.waiting = .read → (w.waiting = .write ∨ w.waiting = .read) ∧ w'.mReq = w.mReq
  counted : w'.counted = w.counted ∨ ∃ res ok, e = .received (some res) ok ∧ w.waiting = .read ∧
    w'.counted = w.counted ++ [(w.mReq, res)]

/-- The worker does not wait in the middle of a request. -/
def Between (w : HttpClientWorker) : Prop :=
  w.waiting ≠ .handshake ∧ w.waiting ≠ .write ∧ w.waiting ≠ .read

theorem between_fail (w : HttpClientWorker) : w.fail.Between := ⟨nofun, nofun, nofun⟩

theorem between_start (w : HttpClientWorker) : w.start.Between := by
  by_cases hne : w.start.waiting = .nothing
  · simp [Between, hne]
  · rcases ((started w).begins hne).1 with h | h
    · simp [Between, h]
    · simp [Between, h]

theorem restart_spec (w : HttpClientWorker) :
    w.restart.Between ∧ w.restart.counted = w.counted := by
  unfold restart
  dsimp only
  split_ifs
  · refine ⟨between_start _, ?_⟩
    rw [(started _).keeps]
  · exact ⟨between_fail _, rfl⟩

theorem Between.moves (h : w'.Between) (hcounted : w'.counted = w.counted ∨
      ∃ res ok, e = .received (some res) ok ∧ w.waiting = .read ∧
        w'.counted = w.counted ++ [(w.mReq, res)]) : Moves w e w' :=
  ⟨fun hw => absurd hw h.1, fun hw => absurd hw h.2.1, fun hw => absurd hw h.2.2, hcounted⟩

theorem moves_fail (w : HttpClientWorker) : Moves w e w.fail :=
  (between_fail w).moves (Or.inl rfl)

theorem onRead_moves (hread : w.waiting = .read) (res : Response) (ok : Bool) :
    Moves w (.received (some res) ok) (w.onRead res ok) := by
  unfold onRead
  dsimp only
  split_ifs
  · exact ⟨nofun, nofun, nofun, Or.inr ⟨res, ok, rfl, hread, rfl⟩⟩
  · obtain ⟨hbetween, hcounted⟩ := restart_spec { w with
      mRTT := w.mRTT ++ [w.now - w.mRTTt0], mRequestCount := w.mRequestCount + 1,
      counted := w.counted ++ [(w.mReq, res)] }
    exact hbetween.moves (Or.inr ⟨res, ok, rfl, hread, hcounted⟩)
  · exact ⟨nofun, nofun, nofun, Or.inr ⟨res, ok, rfl, hread, rfl⟩⟩
  · exact moves_fail w

theorem step_moves (hs : w.step e = some w') : Moves w e w' := by
  cases handles_of_step hs with
  | tick =>
    exact ⟨Or.inr, fun h => ⟨Or.inr (Or.inr h), rfl⟩, fun h => ⟨Or.inr h, rfl⟩, Or.inl rfl⟩
  | fails => exact moves_fail w
  | resolves ok => exact ⟨nofun, nofun, nofun, Or.inl rfl⟩
  | goesOn e next hnext =>
    refine ⟨?_, ?_, ?_, Or.inl rfl⟩
    · rintro rfl
      generalize w.waiting = old at hnext
      cases hnext
      exact Or.inl rfl
    · rintro rfl
      refine ⟨?_, rfl⟩
      generalize w.waiting = old at hnext
      cases hnext
      · exact Or.inl rfl
      · exact Or.inr (Or.inl rfl)
    · rintro rfl
      refine ⟨?_, rfl⟩
      generalize w.waiting = old at hnext
      cases hnext
      exact Or.inl rfl
  | reads res ok hwait => exact onRead_moves hwait res ok
  | restarts ok =>
    obtain ⟨hbetween, hcounted⟩ := restart_spec w
    exact hbetween.moves (Or.inl hcounted)

/-- The worker reads the file of the database and asks under the path for its hashes. -/
structure Asks (w : HttpClientWorker) (db : Database) (path : List UInt8) : Prop
    extends Loads w db where
  under : w.mURI.mPath = path
  good : w.waiting ≠ .nothing → Good db path w.mReq

theorem Asks.fail (h : w.Asks db path) : w.fail.Asks db path :=
  ⟨⟨h.content, h.live, h.size⟩, h.under, fun hne => absurd rfl hne⟩

theorem asks_start (h : w.Loads db) (hpath : w.mURI.mPath = path) : w.start.Asks db path := by
  obtain ⟨hloads, hgood⟩ := h.start
  refine ⟨hloads, ?_, ?_⟩
  · rw [(started w).keeps, hpath]
  · rwa [hpath] at hgood

theorem asks_restart (h : w.Loads db) (hpath : w.mURI.mPath = path) : w.restart.Asks db path := by
  unfold HttpClientWorker.restart
  dsimp only
  split_ifs
  · exact asks_start ⟨h.content, h.live, h.size⟩ hpath
  · exact ⟨⟨h.content, h.live, h.size⟩, hpath, fun hne => absurd rfl hne⟩

theorem Asks.onRead (h : w.Asks db path) (hread : w.waiting = .read) (res : Response) (ok : Bool) :
    (w.onRead res ok).Asks db path := by
  unfold HttpClientWorker.onRead
  dsimp only
  split_ifs
  · exact ⟨⟨h.content, h.live, h.size⟩, h.under, fun _ => h.good (by simp [hread])⟩
  · exact asks_restart ⟨h.content, h.live, h.size⟩ h.under
  · exact ⟨⟨h.content, h.live, h.size⟩, h.under, fun hne => absurd rfl hne⟩
  · exact h.fail

theorem Asks.step (h : w.Asks db path) (hs : w.step e = some w') : w'.Asks db path := by
  cases handles_of_step hs with
  | tick => exact ⟨⟨h.content, h.live, h.size⟩, h.under, h.good⟩
  | fails => exact h.fail
  | resolves ok hwait =>
    exact ⟨⟨h.content, h.live, h.size⟩, h.under, fun _ => h.good (by simp [hwait])⟩
  | goesOn e next hnext =>
    refine ⟨⟨h.content, h.live, h.size⟩, h.under, fun _ => h.good fun hwait => ?_⟩
    rw [hwait] at hnext
    cases hnext
  | reads res ok hwait => exact h.onRead hwait res ok
  | restarts ok => exact asks_restart h.toLoads h.under

/-! ## The measured times -/

/-- A worker has a time for every request that it counted, one after the other. -/
structure Tallied (w : HttpClientWorker) : Prop where
  count : w.mRequestCount = w.mRTT.length
  counted : w.counted.length = w.mRTT.length
  sum : w.mT0 + w.mRTT.sum ≤ w.now

/-- And no measured time overlaps the one that runs. -/
structure Measured (w : HttpClientWorker) : Prop extends Tallied w where
  running : w.waiting ≠ .nothing → w.waiting ≠ .shutdown →
    w.mT0 + w.mRTT.sum ≤ w.mRTTt0 ∧ w.mRTTt0 ≤ w.now

theorem Tallied.fail (h : Tallied w) : Measured w.fail :=
  ⟨⟨h.count, h.counted, h.sum⟩, fun hne => absurd rfl hne⟩

theorem Tallied.start (h : Tallied w) : Measured w.start := by
  obtain ⟨hkeeps, hbegins, -⟩ := started w
  refine ⟨?_, fun hne _ => ?_⟩
  · rw [hkeeps]
    exact ⟨h.count, h.counted, h.sum⟩
  · obtain ⟨-, htime⟩ := hbegins hne
    rw [htime, hkeeps]
    exact ⟨h.sum, le_rfl⟩

theorem Tallied.restart (h : Tallied w) : Measured w.restart := by
  unfold HttpClientWorker.restart
  dsimp only
  split_ifs
  · exact Tallied.start ⟨h.count, h.counted, h.sum⟩
  · exact Tallied.fail ⟨h.count, h.counted, h.sum⟩

theorem Measured.onRead (h : Measured w) (hread : w.waiting = .read) (res : Response) (ok : Bool) :
    Measured (w.onRead res ok) := by
  obtain ⟨hbefore, hnow⟩ := h.running (by simp [hread]) (by simp [hread])
  have hnext : Tallied { w with
      mRTT := w.mRTT ++ [w.now - w.mRTTt0], mRequestCount := w.mRequestCount + 1,
      counted := w.counted ++ [(w.mReq, res)] } := by
    refine ⟨by simp [h.count], by simp [h.counted], ?_⟩
    simp only [List.sum_append, List.sum_singleton]
    omega
  unfold HttpClientWorker.onRead
  dsimp only
  split_ifs
  · exact ⟨⟨hnext.count, hnext.counted, hnext.sum⟩, fun _ hne => absurd rfl hne⟩
  · exact hnext.restart
  · exact hnext.fail
  · exact h.fail

theorem Measured.step (h : Measured w) (hs : w.step e = some w') : Measured w' := by
  cases handles_of_step hs with
  | tick =>
    refine ⟨⟨h.count, h.counted, Nat.le_succ_of_le h.sum⟩, fun hne hshut => ?_⟩
    obtain ⟨hbefore, hnow⟩ := h.running hne hshut
    exact ⟨hbefore, Nat.le_succ_of_le hnow⟩
  | fails => exact h.fail
  | resolves ok hwait =>
    exact ⟨⟨h.count, h.counted, h.sum⟩, fun _ _ => h.running (by simp [hwait]) (by simp [hwait])⟩
  | goesOn e next hnext =>
    refine ⟨⟨h.count, h.counted, h.sum⟩, fun _ _ => h.running ?_ ?_⟩
    all_goals
      intro hwait
      rw [hwait] at hnext
      cases hnext
  | reads res ok hwait => exact h.onRead hwait res ok
  | restarts ok => exact h.restart

/-- What the constructor makes, whatever time it is. -/
theorem measured_create {address file : List UInt8} {mGen : Nat → BitVec 64} {now runtime : Nat}
    (h : create address file mGen now runtime = some w) : Tallied w := by
  obtain ⟨uri, -, rfl⟩ := Option.map_eq_some_iff.mp h
  exact ⟨rfl, rfl, le_rfl⟩

theorem create_clock {address file : List UInt8} {mGen : Nat → BitVec 64} {now runtime : Nat}
    (h : create address file mGen now runtime = some w) : w.now = now ∧ w.mRTT = [] := by
  obtain ⟨uri, -, rfl⟩ := Option.map_eq_some_iff.mp h
  exact ⟨rfl, rfl⟩

/-! ## The round trips -/

/-- A request was begun, and its answer is not read. -/
def UnderWay (w : HttpClientWorker) : Prop := w.waiting ≠ .nothing ∧ w.waiting ≠ .shutdown

structure RoundTrip where
  begun : Nat
  answered : Nat

/-- The round trips of a run, as a clock beside the worker takes them: a request begins when its
record is drawn and is over when its answer is counted. The one under way was begun at `since`. -/
def roundTrips (since : Nat) (w : HttpClientWorker) : List ClientEvent → List RoundTrip
  | [] => []
  | e :: es =>
    match w.step e with
    | none => []
    | some w' =>
      (if w'.counted.length = w.counted.length then [] else [⟨since, w'.now⟩]) ++
        roundTrips (if w'.drawn = w.drawn then since else w'.now) w' es

/-- What a step does to the clock and to the measured times. -/
structure Times (w w' : HttpClientWorker) : Prop where
  now_le : w.now ≤ w'.now
  goesOn : UnderWay w' → w'.drawn = w.drawn → UnderWay w ∧ w'.mRTTt0 = w.mRTTt0 ∧
    w'.counted.length = w.counted.length
  begins : UnderWay w' → w'.drawn ≠ w.drawn → w'.mRTTt0 = w'.now
  counts : (w'.counted.length = w.counted.length ∧ w'.mRTT = w.mRTT) ∨
    (UnderWay w ∧ w'.counted.length ≠ w.counted.length ∧
      w'.mRTT = w.mRTT ++ [w'.now - w.mRTTt0])

theorem not_underWay_fail (w : HttpClientWorker) : ¬ UnderWay w.fail := fun h => h.1 rfl

/-- A step from one operation of a request to the next, or from none to none. -/
theorem times_of_same (hnow : w.now ≤ w'.now) (hunder : UnderWay w' → UnderWay w)
    (hstart : w'.mRTTt0 = w.mRTTt0) (hdrawn : w'.drawn = w.drawn)
    (hcounted : w'.counted = w.counted) (htimes : w'.mRTT = w.mRTT) : Times w w' :=
  ⟨hnow, fun h _ => ⟨hunder h, hstart, by rw [hcounted]⟩, fun _ hne => absurd hdrawn hne,
    Or.inl ⟨by rw [hcounted], htimes⟩⟩

/-- What a worker does that begins again, or stops when its time is over. -/
theorem restart_times (w : HttpClientWorker) : w.restart.now = w.now ∧
    w.restart.counted = w.counted ∧ w.restart.mRTT = w.mRTT ∧
    (UnderWay w.restart → w.restart.drawn ≠ w.drawn ∧ w.restart.mRTTt0 = w.now) := by
  unfold restart
  dsimp only
  split_ifs
  · obtain ⟨hkeeps, hbegins, hdraws⟩ := started { w with mTStop := w.now, mSSLStream := false }
    refine ⟨?_, ?_, ?_, fun h => ⟨hdraws h.1, (hbegins h.1).2⟩⟩
    all_goals rw [hkeeps]
  · exact ⟨rfl, rfl, rfl, fun h => absurd h (not_underWay_fail _)⟩

theorem onRead_times (hread : w.waiting = .read) (res : Response) (ok : Bool) :
    Times w (w.onRead res ok) := by
  have hunder : UnderWay w := ⟨by simp [hread], by simp [hread]⟩
  have hlen : ∀ x : Request × Response, (w.counted ++ [x]).length ≠ w.counted.length := by simp
  unfold onRead
  dsimp only
  split_ifs
  · exact ⟨le_rfl, fun h => absurd rfl h.2, fun h => absurd rfl h.2, Or.inr ⟨hunder, hlen _, rfl⟩⟩
  · obtain ⟨hnow, hcounted, htimes, hbegins⟩ := restart_times { w with
      mRTT := w.mRTT ++ [w.now - w.mRTTt0], mRequestCount := w.mRequestCount + 1,
      counted := w.counted ++ [(w.mReq, res)] }
    refine ⟨hnow.ge, fun h hdrawn => absurd hdrawn (hbegins h).1, fun h _ => ?_,
      Or.inr ⟨hunder, ?_, ?_⟩⟩
    · rw [(hbegins h).2, hnow]
    · rw [hcounted]
      exact hlen _
    · rw [htimes, hnow]
  · exact ⟨le_rfl, fun h => absurd h (not_underWay_fail _), fun h => absurd h (not_underWay_fail _),
      Or.inr ⟨hunder, hlen _, rfl⟩⟩
  · exact times_of_same le_rfl (fun h => absurd h (not_underWay_fail _)) rfl rfl rfl rfl

theorem step_times (hs : w.step e = some w') : Times w w' := by
  cases handles_of_step hs with
  | tick => exact times_of_same (Nat.le_succ _) id rfl rfl rfl rfl
  | fails => exact times_of_same le_rfl (fun h => absurd h (not_underWay_fail _)) rfl rfl rfl rfl
  | resolves ok hwait =>
    exact times_of_same le_rfl (fun _ => ⟨by simp [hwait], by simp [hwait]⟩) rfl rfl rfl rfl
  | goesOn e next hnext =>
    refine times_of_same le_rfl (fun _ => ?_) rfl rfl rfl rfl
    generalize hwait : w.waiting = old at hnext
    cases hnext <;> exact ⟨by simp [hwait], by simp [hwait]⟩
  | reads res ok hwait => exact onRead_times hwait res ok
  | restarts ok hwait =>
    obtain ⟨hnow, hcounted, htimes, hbegins⟩ := restart_times w
    exact ⟨hnow.ge, fun h hdrawn => absurd hdrawn (hbegins h).1,
      fun h _ => by rw [(hbegins h).2, hnow], Or.inl ⟨by rw [hcounted], htimes⟩⟩

/-- The time is not before the begin of the request under way, and not before now if there is
none. -/
def NotBefore (since : Nat) (w : HttpClientWorker) (t : Nat) : Prop :=
  (UnderWay w → since ≤ t) ∧ (¬ UnderWay w → w.now ≤ t)

theorem NotBefore.step {since t : Nat} (hw : Times w w') (hsince : since ≤ w.now)
    (h : NotBefore (if w'.drawn = w.drawn then since else w'.now) w' t) :
    NotBefore since w t ∧ (w'.counted.length ≠ w.counted.length → w'.now ≤ t) := by
  have hnow := hw.now_le
  have hlater : w'.now ≤ t → NotBefore since w t ∧
      (w'.counted.length ≠ w.counted.length → w'.now ≤ t) :=
    fun hle => ⟨⟨fun _ => by omega, fun _ => by omega⟩, fun _ => hle⟩
  by_cases hunder : UnderWay w'
  · have hle := h.1 hunder
    split at hle
    · rename_i hdrawn
      obtain ⟨hold, -, hcounted⟩ := hw.goesOn hunder hdrawn
      exact ⟨⟨fun _ => hle, fun hnot => absurd hold hnot⟩, fun hne => absurd hcounted hne⟩
    · exact hlater hle
  · exact hlater (h.2 hunder)

/-- What a run does to the measured times. -/
structure Trips (since : Nat) (w w' : HttpClientWorker) (trips : List RoundTrip) : Prop where
  measured : w'.mRTT = w.mRTT ++ trips.map fun t => t.answered - t.begun
  ordered : trips.Pairwise fun t u => t.answered ≤ u.begun
  within : ∀ t ∈ trips, NotBefore since w t.begun ∧ t.begun ≤ t.answered ∧ t.answered ≤ w'.now
  before : UnderWay w' → NotBefore since w w'.mRTTt0 ∧ ∀ t ∈ trips, t.answered ≤ w'.mRTTt0

/-- A step before the run that counts no answer. -/
theorem Trips.uncounted {v : HttpClientWorker} {since : Nat} {trips : List RoundTrip}
    (hv : Times w v) (hsince : since ≤ w.now) (htimes : v.mRTT = w.mRTT)
    (h : Trips (if v.drawn = w.drawn then since else v.now) v w' trips) :
    Trips since w w' trips := by
  refine ⟨by rw [h.measured, htimes], h.ordered, fun t ht => ?_, fun hunder => ?_⟩
  · obtain ⟨hbefore, hle⟩ := h.within t ht
    exact ⟨(hbefore.step hv hsince).1, hle⟩
  · obtain ⟨hbefore, hall⟩ := h.before hunder
    exact ⟨(hbefore.step hv hsince).1, hall⟩

/-- A step before the run that counts an answer: its round trip is over before all others. -/
theorem Trips.counted {v : HttpClientWorker} {since : Nat} {trips : List RoundTrip}
    (hv : Times w v) (hsince : since ≤ w.now) (hend : v.now ≤ w'.now) (hunder : UnderWay w)
    (hcounted : v.counted.length ≠ w.counted.length)
    (htimes : v.mRTT = w.mRTT ++ [v.now - since])
    (h : Trips (if v.drawn = w.drawn then since else v.now) v w' trips) :
    Trips since w w' (⟨since, v.now⟩ :: trips) := by
  refine ⟨?_, List.pairwise_cons.mpr ⟨fun t ht => ?_, h.ordered⟩, fun t ht => ?_,
    fun hunder' => ?_⟩
  · rw [h.measured, htimes, List.map_cons, List.append_assoc]
    rfl
  · exact ((h.within t ht).1.step hv hsince).2 hcounted
  · rcases List.mem_cons.mp ht with rfl | ht
    · exact ⟨⟨fun _ => le_rfl, fun hnot => absurd hunder hnot⟩, hsince.trans hv.now_le, hend⟩
    · obtain ⟨hbefore, hle⟩ := h.within t ht
      exact ⟨(hbefore.step hv hsince).1, hle⟩
  · obtain ⟨hbefore, hall⟩ := h.before hunder'
    obtain ⟨hbefore', hlast⟩ := hbefore.step hv hsince
    refine ⟨hbefore', fun t ht => ?_⟩
    rcases List.mem_cons.mp ht with rfl | ht
    · exact hlast hcounted
    · exact hall t ht

theorem roundTrips_spec {es : List ClientEvent} (since : Nat)
    (hrun : run HttpClientWorker.step w es = some w') (hsince : since ≤ w.now)
    (hbegun : UnderWay w → w.mRTTt0 = since) :
    w.now ≤ w'.now ∧ Trips since w w' (roundTrips since w es) := by
  induction es generalizing w since with
  | nil =>
    rw [← Option.some.inj hrun]
    refine ⟨le_rfl, by simp [roundTrips], List.Pairwise.nil, nofun, fun hunder => ⟨?_, nofun⟩⟩
    exact ⟨fun _ => (hbegun hunder).ge, fun hnot => absurd hunder hnot⟩
  | cons e es ih =>
    obtain ⟨v, hs, hrest⟩ := Option.bind_eq_some_iff.mp hrun
    have hv := step_times hs
    have hnow := hv.now_le
    obtain ⟨hend, htrips⟩ := ih (if v.drawn = w.drawn then since else v.now) hrest
      (by split <;> omega) (fun hunder => by
        split
        · rename_i hdrawn
          obtain ⟨hold, hstart, -⟩ := hv.goesOn hunder hdrawn
          rw [hstart, hbegun hold]
        · rename_i hdrawn
          exact hv.begins hunder hdrawn)
    have hcons : roundTrips since w (e :: es) =
        (if v.counted.length = w.counted.length then [] else [⟨since, v.now⟩]) ++
          roundTrips (if v.drawn = w.drawn then since else v.now) v es := by
      rw [roundTrips, hs]
    refine ⟨hnow.trans hend, ?_⟩
    rw [hcons]
    rcases hv.counts with ⟨hcounted, htimes⟩ | ⟨hunder, hcounted, htimes⟩
    · rw [if_pos hcounted, List.nil_append]
      exact htrips.uncounted hv hsince htimes
    · rw [if_neg hcounted, List.singleton_append]
      rw [hbegun hunder] at htimes
      exact htrips.counted hv hsince hend hunder hcounted htimes

/-- In every run of a load test worker the measured times are those of a clock beside it, one for
every request that was counted, from the draw of its record to its answer. The round trips follow
one another: together they are no longer than the run, and when a request is under way they were
all over when it began. -/
theorem a_load_test_measures_one_request_after_the_other {address file : List UInt8}
    {mGen : Nat → BitVec 64} {now runtime : Nat}
    (hcreate : create address file mGen now runtime = some w) {es : List ClientEvent}
    (hrun : run HttpClientWorker.step w.start es = some w') :
    w'.mRequestCount = w'.mRTT.length ∧ w'.counted.length = w'.mRTT.length ∧
      w'.mRTT = (roundTrips now w.start es).map (fun t => t.answered - t.begun) ∧
      ((roundTrips now w.start es).Pairwise fun t u => t.answered ≤ u.begun) ∧
      (∀ t ∈ roundTrips now w.start es,
        now ≤ t.begun ∧ t.begun ≤ t.answered ∧ t.answered ≤ w'.now) ∧
      w'.mT0 + w'.mRTT.sum ≤ w'.now ∧
      (UnderWay w' → w'.mT0 + w'.mRTT.sum ≤ w'.mRTTt0 ∧
        ∀ t ∈ roundTrips now w.start es, t.answered ≤ w'.mRTTt0) := by
  have hmeasured : Measured w' :=
    (reachable_of_run hrun).invariant (measured_create hcreate).start fun _ _ _ hs _ => hs.step
  obtain ⟨hnow, htimes⟩ := create_clock hcreate
  obtain ⟨hkeeps, hbegins, -⟩ := started w
  have hstart : w.start.now = now := by rw [hkeeps, hnow]
  obtain ⟨-, htrips⟩ := roundTrips_spec now hrun hstart.ge
    fun hunder => (hbegins hunder.1).2.trans hnow
  refine ⟨hmeasured.count, hmeasured.counted, ?_, htrips.ordered, fun t ht => ?_, hmeasured.sum,
    fun hunder => ⟨(hmeasured.running hunder.1 hunder.2).1, (htrips.before hunder).2⟩⟩
  · rw [htrips.measured, hkeeps, htimes, List.nil_append]
  · obtain ⟨hbefore, hle⟩ := htrips.within t ht
    refine ⟨?_, hle⟩
    by_cases hunder : UnderWay w.start
    · exact hbefore.1 hunder
    · exact hstart ▸ hbefore.2 hunder

/-- The address of the lookups, as it is parsed. -/
def lookupURI : URI where
  mPath := ascii "/v1/pwned/api/lookup"
  mScheme := ascii "http"
  mHost := ascii "localhost"
  mPort := 80

def loader : HttpClientWorker where
  mURI := lookupURI
  mGen _ := 7
  mInputFile := { content := HttpWorker.oneHash.bytes }
  mInputSize := 20
  mT0 := 0
  mT1 := 3
  now := 0

theorem create_loader :
    create (ascii "http://localhost/v1/pwned/api/lookup") HttpWorker.oneHash.bytes
      (fun _ => 7) 0 3 = some loader := by
  have hparse : ({} : URI).parse (ascii "http://localhost/v1/pwned/api/lookup") =
      some lookupURI := by
    decide +kernel
  rw [create, hparse]
  rfl

/-- Two requests, one answered after two ticks, the other after one, when the time is over. -/
def twoRequests : List ClientEvent :=
  [.resolved true, .connected true, .written true, .tick, .tick,
    .received (some (HttpWorker.makeResponse (.info 1 0))) true, .connected true, .tick,
    .written true, .received (some (HttpWorker.makeResponse (.info 1 0))) true]

theorem a_load_test_measures_one_request_after_the_other_twice :
    ∃ w, run HttpClientWorker.step loader.start twoRequests = some w ∧ w.mRTT = [2, 1] ∧
      w.mRTT = (roundTrips 0 loader.start twoRequests).map (fun t => t.answered - t.begun) ∧
      ((roundTrips 0 loader.start twoRequests).Pairwise fun t u => t.answered ≤ u.begun) ∧
      w.mT0 + w.mRTT.sum ≤ w.now := by
  have hrun : (run HttpClientWorker.step loader.start twoRequests).map mRTT = some [2, 1] := by
    decide +kernel
  obtain ⟨w, hw, htimes⟩ := Option.map_eq_some_iff.mp hrun
  obtain ⟨-, -, htrips, hordered, -, hsum, -⟩ :=
    a_load_test_measures_one_request_after_the_other create_loader hw
  exact ⟨w, hw, htimes, htrips, hordered, hsum⟩

end HttpClientWorker

end webservice
