-- The web service. A lookup answers with the count of whatever hash the hex
-- decoder left, so a malformed one can be reported as pwned.
import Pwned.HashHex
import Pwned.IndexedLookup
import Pwned.Uri

open pwned PasswordInspector

namespace webservice

/-! ## The worker -/

inductive Status
  | ok
  | bad_request
  | not_found
deriving DecidableEq, Repr

/-- What the body of a response holds. -/
inductive Body
  | lookup (hash : List UInt8) (found : BitVec 32)
  | info (count : Nat) (lastUpdate : Int)
  | text (error : List UInt8)
deriving DecidableEq, Repr

structure Response where
  result : Status
  body : Body
deriving DecidableEq, Repr

structure Request where
  method_string : List UInt8
  target : List UInt8
deriving DecidableEq, Repr

structure HttpWorker where
  mBasePath : List UInt8
  mInspector : PasswordInspector
  mLastUpdated : Int
deriving DecidableEq, Repr

namespace HttpWorker

def makeResponse (msg : Body) : Response := ⟨.ok, msg⟩

def sendBadResponse (status : Status) (error : List UInt8) : Response := ⟨status, .text error⟩

/-- The response, and the worker whose inspector the lookup has moved. -/
def sendResponse (fuel : Nat) (worker : HttpWorker) (target : List UInt8) :
    Option (Response × HttpWorker) :=
  let uri := ({} : URI).parseTarget target
  match uri.mPath == worker.mBasePath ++ ascii "/lookup", uri.find (ascii "hash") with
  | true, some value =>
    let hash := Hash.fromHex value
    (worker.mInspector.binsearch fuel hash).map fun (phc, _, ins) =>
      (makeResponse (.lookup hash.toString phc.count), { worker with mInspector := ins })
  | _, _ =>
    if uri.mPath = worker.mBasePath ++ ascii "/info" then
      some (makeResponse (.info worker.mInspector.size worker.mLastUpdated), worker)
    else some (sendBadResponse .not_found [], worker)

def processRequest (fuel : Nat) (worker : HttpWorker) (req : Request) :
    Option (Response × HttpWorker) :=
  if req.method_string = ascii "GET" then worker.sendResponse fuel req.target
  else
    some (sendBadResponse .bad_request
      (ascii "Invalid request method '" ++ req.method_string ++ ascii "'\r\n"), worker)

/-! ## What a lookup answers -/

/-- A target that looks up `value`. -/
structure Asks (worker : HttpWorker) (target value : List UInt8) : Prop where
  path : (({} : URI).parseTarget target).mPath = worker.mBasePath ++ ascii "/lookup"
  query : (({} : URI).parseTarget target).find (ascii "hash") = some value

theorem Asks.sendResponse_eq {worker : HttpWorker} {target value : List UInt8}
    (h : Asks worker target value) (fuel : Nat) :
    worker.sendResponse fuel target =
      (worker.mInspector.binsearch fuel (Hash.fromHex value)).map fun (phc, _, ins) =>
        (makeResponse (.lookup (Hash.fromHex value).toString phc.count),
          { worker with mInspector := ins }) := by
  unfold sendResponse
  simp only [h.path, h.query, beq_self_eq_true]

/-- The worker answers the target with a positive count. -/
def Reports (worker : HttpWorker) (target : List UInt8) : Prop :=
  ∃ result hash found worker', Yields (fun fuel => worker.sendResponse fuel target)
    (⟨result, .lookup hash found⟩, worker') ∧ 0 < found

/-- A reported target has a lookup that ends with a positive count. -/
theorem Asks.binsearch_of_reports {worker : HttpWorker} {target value : List UInt8}
    (h : Asks worker target value) (hr : Reports worker target) :
    ∃ enough, ∀ fuel ≥ enough, ∃ p,
      worker.mInspector.binsearch fuel (Hash.fromHex value) = some p ∧ p.1.count ≠ 0 := by
  obtain ⟨result, hash, found, worker', hy, hpos⟩ := hr
  simp only [h.sendResponse_eq] at hy
  obtain ⟨enough, hall⟩ := hy.of_map
  refine ⟨enough, fun fuel hf => ?_⟩
  obtain ⟨p, hp, he⟩ := hall fuel hf
  simp only [makeResponse, Prod.mk.injEq, Response.mk.injEq, Body.lookup.injEq] at he
  obtain ⟨⟨-, -, rfl⟩, -⟩ := he
  exact ⟨p, hp, (BitVec.pos_iff_ne_zero ..).mp hpos⟩

/-- The lookup counts what is stored under what the decoder left of the value. -/
theorem Asks.reports_iff {worker : HttpWorker} {target value : List UInt8}
    (h : Asks worker target value) {p : PasswordHashAndCount × Nat × PasswordInspector}
    (hp : Yields (fun fuel => worker.mInspector.binsearch fuel (Hash.fromHex value)) p) :
    Reports worker target ↔ p.1.count ≠ 0 := by
  constructor
  · intro hr
    obtain ⟨m, hm⟩ := hp
    obtain ⟨n, hn⟩ := h.binsearch_of_reports hr
    obtain ⟨q, hq, hne⟩ := hn (max m n) (le_max_right _ _)
    have hsome := (hm (max m n) (le_max_left _ _)).symm.trans hq
    rwa [Option.some.inj hsome]
  · intro hne
    unfold Reports
    simp only [h.sendResponse_eq]
    exact ⟨_, _, _, _, hp.map _, (BitVec.pos_iff_ne_zero ..).mpr hne⟩

/-! ## Fresh inspectors -/

/-- The inspector that the worker opens on a database, without an index file or with the one
that was built from the database with `bits` bits. -/
inductive Fresh (db : Database) : Option Nat → PasswordInspector → Prop
  | plain : Fresh db none (openFile db.bytes)
  | indexed {bits : Nat} {file : List UInt8} (hb : 1 ≤ bits ∧ bits ≤ 60)
      (h : Yields (fun fuel => index.build fuel bits db.bytes) file) :
      Fresh db (some bits) (openIndexed db.bytes file)

/-- The lookup of the hash ends. -/
def Answers (db : Database) : Option Nat → Hash → Prop
  | none, _ => True
  | some bits, hash => Bracketed bits db.records hash

theorem answers_congr (db : Database) (bits : Option Nat) {a b : Hash} (h : a.upper = b.upper) :
    Answers db bits a ↔ Answers db bits b := by
  cases bits with
  | none => exact Iff.rfl
  | some bits =>
    unfold Answers Bracketed
    dsimp only
    rw [h]

theorem Fresh.binsearch_yields {db : Database} {bits : Option Nat} {ins : PasswordInspector}
    (h : Fresh db bits ins) (hne : db.records ≠ []) {hash : Hash} (ha : Answers db bits hash) :
    ∃ p, Yields (fun fuel => ins.binsearch fuel hash) p ∧
      p.1.count = stored db.records hash.key := by
  cases h with
  | plain =>
    obtain ⟨p, n, ins', hy, hcount, -⟩ := (serves_openFile db).binsearch_live rfl hash
    exact ⟨_, hy, hcount⟩
  | @indexed bits _ hb h =>
    obtain rfl := h.unique (index.build_yields (by omega) hne db.increasing)
    have hserves := serves_openIndexed_fresh db bits
    exact hserves.binsearch_live hb.2 rfl ((hserves.probesEnd_iff_bracketed hb.2 rfl hash).mpr ha)

theorem Fresh.binsearch_diverges {db : Database} {bits : Option Nat} {ins : PasswordInspector}
    (h : Fresh db bits ins) (hne : db.records ≠ []) {hash : Hash} (ha : ¬ Answers db bits hash) :
    Diverges fun fuel => ins.binsearch fuel hash := by
  cases h with
  | plain => exact absurd trivial ha
  | indexed hb h =>
    obtain rfl := h.unique (index.build_yields (by omega) hne db.increasing)
    exact (serves_openIndexed_fresh db _).binsearch_diverges hb.2 rfl ha

theorem Fresh.content {db : Database} {bits : Option Nat} {ins : PasswordInspector}
    (h : Fresh db bits ins) : ins.mInputFile.content = db.bytes := by
  cases h <;> rfl

/-- A fresh worker reports a target exactly if a positive count is stored under the hash that
the decoder leaves, and its lookup ends. -/
theorem Fresh.reports_iff {db : Database} {bits : Option Nat} {worker : HttpWorker}
    (h : Fresh db bits worker.mInspector) {target value : List UInt8}
    (hasks : Asks worker target value) :
    Reports worker target ↔ stored db.records (Hash.prefixKey value) ≠ 0 ∧
      Answers db bits (Hash.ofKey (Hash.prefixKey value)) := by
  have hkey := Hash.fromHex_key value
  have hans := answers_congr db bits (Hash.upper_ofKey (Hash.fromHex value))
  rw [← hkey, hans]
  by_cases hne : db.records = []
  · have hzero : stored db.records (Hash.fromHex value).key = 0 :=
      stored_of_not_mem (by simp [hne])
    have hempty : worker.mInspector.mInputFile.content = [] := by
      rw [h.content, Database.bytes, hne]
      rfl
    refine iff_of_false ?_ (fun hc => hc.1 hzero)
    intro hr
    obtain ⟨n, hn⟩ := hasks.binsearch_of_reports hr
    obtain ⟨p, hp, hcount⟩ := hn n le_rfl
    exact hcount (binsearch_empty hempty hp)
  · by_cases ha : Answers db bits (Hash.fromHex value)
    · obtain ⟨p, hp, hcount⟩ := h.binsearch_yields hne ha
      rw [hasks.reports_iff hp, hcount]
      simp [ha]
    · refine iff_of_false ?_ (fun hc => ha hc.2)
      intro hr
      obtain ⟨m, hm⟩ := h.binsearch_diverges hne ha
      obtain ⟨n, hn⟩ := hasks.binsearch_of_reports hr
      obtain ⟨p, hp, -⟩ := hn (max m n) (le_max_right _ _)
      cases (hm (max m n) (le_max_left _ _)).symm.trans hp

/-- A malformed hash is known as such, and still not reported only if nothing is stored under
its good digits padded with zeros, or if the lookup of that hash does not end. -/
theorem a_malformed_hash_is_not_reported_iff (db : Database) {bits : Option Nat}
    {worker : HttpWorker} (h : Fresh db bits worker.mInspector) {target value : List UInt8}
    (hasks : Asks worker target value) (hbad : ¬ Hash.WellFormed value) :
    (Hash.fromHex value).isValid = false ∧
      (¬ Reports worker target ↔ stored db.records (Hash.prefixKey value) = 0 ∨
        ¬ Answers db bits (Hash.ofKey (Hash.prefixKey value))) := by
  constructor
  · rwa [← Hash.fromHex_isValid, Bool.not_eq_true] at hbad
  · rw [h.reports_iff hasks, not_and_or, not_not]

/-- A database with one hash that ends in zeros, and a worker that has it open. -/
def oneHash : Database := ⟨[⟨0x8d00000000000000, 0, 1⟩], by decide, by decide⟩

def service : HttpWorker := ⟨ascii "/v1/pwned/api", openFile oneHash.bytes, 0⟩

/-- Two good digits and thirty bad ones. -/
def twoDigits : List UInt8 := ascii "8dxxxxxxxxxxxxxxxxxxxxxxxxxxxxxx"

theorem asks_service (text : List UInt8) (h : text = twoDigits ∨ text = ascii "8d") :
    Asks service (ascii "/v1/pwned/api/lookup?hash=" ++ text) text := by
  rcases h with rfl | rfl
  · exact ⟨by decide, by decide⟩
  · exact ⟨by decide, by decide⟩

theorem a_malformed_hash_can_be_reported :
    Fresh oneHash none service.mInspector ∧
      Asks service (ascii "/v1/pwned/api/lookup?hash=" ++ twoDigits) twoDigits ∧
      ¬ Hash.WellFormed twoDigits ∧
      Reports service (ascii "/v1/pwned/api/lookup?hash=" ++ twoDigits) := by
  have hfresh : Fresh oneHash none service.mInspector := Fresh.plain
  have hasks := asks_service twoDigits (Or.inl rfl)
  have hbad : ¬ Hash.WellFormed twoDigits := fun h => absurd (h.2 120 (by decide)) (by decide)
  exact ⟨hfresh, hasks, hbad, (hfresh.reports_iff hasks).mpr ⟨by decide, trivial⟩⟩

theorem a_malformed_hash_is_not_reported_iff_short :
    (Hash.fromHex (ascii "8d")).isValid = false ∧
      (¬ Reports service (ascii "/v1/pwned/api/lookup?hash=" ++ ascii "8d") ↔
        stored oneHash.records (Hash.prefixKey (ascii "8d")) = 0 ∨
          ¬ Answers oneHash none (Hash.ofKey (Hash.prefixKey (ascii "8d")))) :=
  a_malformed_hash_is_not_reported_iff oneHash Fresh.plain (asks_service _ (Or.inr rfl)) (by decide)

end HttpWorker

end webservice
