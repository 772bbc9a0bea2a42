-- The load test and the service together: any number of workers on both
-- sides, and the connections between them.
import Pwned.HashOrder
import Pwned.HttpClientWorker
import Pwned.TargetRoundTrip

open pwned PasswordInspector

namespace webservice

/-! ## The system -/

/-- A client, and how many connections it had begun with this one. -/
abbrev Connection (ι : Type) := ι × Nat

/-- A connection can be accepted from the time on that its client connects, a request can be read
from the time on that its write begins, and so can its answer. -/
structure LoadTest (ι κ : Type) where
  clients : ι → HttpClientWorker
  workers : κ → WorkerLoop.Serving
  serial : ι → Nat := fun _ => 0
  /-- The connections that are to be accepted. -/
  backlog : List (Connection ι) := []
  /-- The connection that a worker has accepted last. -/
  peer : κ → Option (Connection ι) := fun _ => none
  sent : Connection ι → Option Request := fun _ => none
  replied : Connection ι → Option Response := fun _ => none

inductive Move (ι κ : Type)
  | client (i : ι) (e : ClientEvent)
  /-- A worker accepts one of the connections that wait for it. -/
  | accept (j : κ) (c : Connection ι)
  | worker (j : κ) (e : WorkerLoop.Event)
deriving DecidableEq, Repr

namespace LoadTest

variable {ι κ : Type} [DecidableEq ι] [DecidableEq κ]

def connection (s : LoadTest ι κ) (i : ι) : Connection ι := (i, s.serial i)

def moveClient (s : LoadTest ι κ) (i : ι) (w : HttpClientWorker) : LoadTest ι κ :=
  let old := (s.clients i).waiting
  let s : LoadTest ι κ := { s with clients := Function.update s.clients i w }
  if w.waiting = .connect ∧ old ≠ .connect then
    { s with
      serial := Function.update s.serial i (s.serial i + 1),
      backlog := s.backlog ++ [(i, s.serial i + 1)] }
  else if w.waiting = .write ∧ old ≠ .write then
    { s with sent := Function.update s.sent (s.connection i) (some w.mReq) }
  else s

def accept (s : LoadTest ι κ) (j : κ) (c : Connection ι) (t : WorkerLoop.Serving) :
    LoadTest ι κ :=
  { s with
    workers := Function.update s.workers j t, peer := Function.update s.peer j (some c),
    backlog := s.backlog.erase c }

def moveWorker (s : LoadTest ι κ) (j : κ) (e : WorkerLoop.Event) (t : WorkerLoop.Serving) :
    LoadTest ι κ :=
  let s : LoadTest ι κ := { s with workers := Function.update s.workers j t }
  match e with
  | .received (some _) _ _ =>
    match s.peer j, t.mResponse with
    | some c, some response => { s with replied := Function.update s.replied c (some response) }
    | _, _ => s
  | _ => s

/-- What a party takes from a connection is there. -/
def allows (s : LoadTest ι κ) : Move ι κ → Bool
  | .client i (.received (some res) _) => s.replied (s.connection i) = some res
  | .accept _ c => c ∈ s.backlog
  | .worker _ (.accepted true) => false
  | .worker j (.received (some req) _ _) => (s.peer j).bind s.sent = some req
  | _ => true

def step (fuel : Nat) (s : LoadTest ι κ) (m : Move ι κ) : Option (LoadTest ι κ) :=
  if s.allows m then
    match m with
    | .client i e => ((s.clients i).step e).map (s.moveClient i)
    | .accept j c => (WorkerLoop.step fuel (s.workers j) (.accepted true)).map (s.accept j c)
    | .worker j e => (WorkerLoop.step fuel (s.workers j) e).map (s.moveWorker j e)
  else none

end LoadTest

/-! ## The answer to a good request -/

namespace URI

/-- No path has a question mark. -/
theorem mPath_of_parse {text : List UInt8} {uri : URI} (h : ({} : URI).parse text = some uri) :
    63 ∉ uri.mPath := by
  unfold parse at h
  dsimp only at h
  rcases hmatch : RE.search text with _ | m
  · simp only [hmatch] at h
    rw [← Option.some.inj h]
    exact List.not_mem_nil
  · simp only [hmatch] at h
    obtain ⟨uri', -, h⟩ := Option.bind_eq_some_iff.mp h
    rw [← Option.some.inj h]
    dsimp only
    rw [(foldl_assigns addValidParam_assigns _ _).path]
    have hguarded : RE.guarded (fun n c => n != 5 || c != 63) = true := by decide +kernel
    intro hmem
    simpa using Regex.search_guarded hguarded hmatch 5 63 hmem

theorem not_mem_toString (hash : Hash) {mark : UInt8} (hmark : decodeHex mark < 0) :
    mark ∉ hash.toString :=
  fun hmem => absurd ((Hash.wellFormed_toString hash).2 mark hmem) (by omega)

/-- The target of a lookup gives its path and the text of the hash. -/
theorem parseTarget_lookup {path : List UInt8} (hpath : 63 ∉ path) (hash : Hash) :
    (({} : URI).parseTarget (path ++ (ascii "?hash=" ++ hash.toString))).mPath = path ∧
      (({} : URI).parseTarget (path ++ (ascii "?hash=" ++ hash.toString))).find (ascii "hash") =
        some hash.toString := by
  have hmarks : ∀ mark ∈ [63, 35, 38, 61], mark ∉ ascii "hash" ∧ decodeHex mark < 0 := by
    decide +kernel
  have hfree : Free [63, 35, 38, 61] [(ascii "hash", hash.toString)] := by
    intro param hparam mark hmark
    rw [List.mem_singleton.mp hparam]
    obtain ⟨hkey, hdigit⟩ := hmarks mark hmark
    exact ⟨hkey, not_mem_toString hash hdigit⟩
  have htext : ascii "?hash=" ++ hash.toString =
      63 :: renderParams [(ascii "hash", hash.toString)] := by
    simp [renderParams, renderParam, ascii]
  have hquestion : 63 ∉ renderParams [(ascii "hash", hash.toString)] :=
    not_mem_renderParams (by decide) (by decide) (hfree.mono (by simp))
  have hsharp : 35 ∉ renderParams [(ascii "hash", hash.toString)] :=
    not_mem_renderParams (by decide) (by decide) (hfree.mono (by simp))
  rw [htext]
  obtain ⟨hp, hq, -⟩ := parseTarget_query (renderParams [(ascii "hash", hash.toString)]) hpath
  refine ⟨hp, ?_⟩
  rw [hq, before_of_not_mem hquestion, before_of_not_mem hsharp,
    lastValue_renderParams (hfree.mono (by simp))]
  simp

end URI

namespace Service

open HttpClientWorker

/-- The path of the lookups. -/
def lookupPath (service : Service) : List UInt8 := service.basePath ++ ascii "/lookup"

/-- The hash of a stored record is answered with its count. -/
theorem answer_good {service : Service} (hlive : service.failed = false)
    (hpath : 63 ∉ service.lookupPath) {x : Record} (hx : x ∈ service.db.records) :
    service.answer ⟨ascii "GET", service.lookupPath ++ (ascii "?hash=" ++ x.phc.hash.toString)⟩ =
      (HttpWorker.makeResponse (.lookup x.phc.hash.toString x.count), service) := by
  obtain ⟨hp, hq⟩ := URI.parseTarget_lookup hpath x.phc.hash
  obtain ⟨db, basePath, lastUpdated, failed⟩ := service
  obtain rfl : failed = false := hlive
  let hash : Hash := { x.phc.hash with isValid := true }
  have hfrom : Hash.fromHex x.phc.hash.toString = hash := Hash.fromHex_toString (h := hash) rfl
  have hstored : stored db.records hash.key = x.count := stored_of_mem db.increasing hx
  have hnot : ¬ Behind db hash := fun hbehind => absurd (hbehind x hx) (lt_irrefl _)
  unfold answer
  rw [if_pos rfl]
  dsimp only
  rw [hp, hq, lookupPath, beq_self_eq_true]
  dsimp only
  rw [hfrom, decide_eq_false hnot, if_neg Bool.false_ne_true, hstored]
  rfl

end Service

namespace LoadTest

open HttpClientWorker WorkerLoop

/-! ## The invariant -/

section

variable {ι κ : Type} (service : Service)

/-- The request is for a stored hash, and the response is the answer to it. -/
def Answered (req : Request) (response : Response) : Prop :=
  Good service.db service.lookupPath req ∧ response = (service.answer req).1

structure Sound (s : LoadTest ι κ) : Prop where
  asks : ∀ i, (s.clients i).Asks service.db service.lookupPath
  counted : ∀ i, ∀ p ∈ (s.clients i).counted, Answered service p.1 p.2
  /-- A client has no more connections than it has begun. -/
  fresh : ∀ i k, s.serial i < k → s.sent (i, k) = none
  unsent : ∀ i, (s.clients i).waiting = .connect ∨ (s.clients i).waiting = .handshake →
    s.sent (s.connection i) = none
  sent : ∀ i, (s.clients i).waiting = .write ∨ (s.clients i).waiting = .read →
    s.sent (s.connection i) = some (s.clients i).mReq
  good : ∀ c req, s.sent c = some req → Good service.db service.lookupPath req
  up : ∀ j, Up (s.workers j)
  provides : ∀ j, Service.Provides (s.workers j).worker service
  replied : ∀ c response, s.replied c = some response →
    ∃ req, s.sent c = some req ∧ response = (service.answer req).1

end

variable {ι κ : Type} {service : Service} {s s' : LoadTest ι κ} {fuel : Nat}

/-- The answer to a good request leaves the service as it is. -/
theorem answer_keeps (hlive : service.failed = false) (hpath : 63 ∉ service.lookupPath)
    {req : Request} (h : Good service.db service.lookupPath req) :
    (service.answer req).2 = service := by
  obtain ⟨x, hx, rfl⟩ := h
  rw [Service.answer_good hlive hpath hx]

/-! ## A handler of a client -/

/-- What a client has read is the answer to its request. -/
theorem Sound.answered (h : Sound service s) {i : ι} (hread : (s.clients i).waiting = .read)
    {response : Response} (hreplied : s.replied (s.connection i) = some response) :
    Answered service (s.clients i).mReq response := by
  obtain ⟨req, hsent, hanswer⟩ := h.replied _ response hreplied
  rw [h.sent i (Or.inr hread)] at hsent
  rw [← Option.some.inj hsent] at hanswer
  exact ⟨(h.asks i).good (by simp [hread]), hanswer⟩

section

variable [DecidableEq ι]

theorem Sound.counted_step (h : Sound service s) {i : ι} {e : ClientEvent}
    (hallows : s.allows (.client i e) = true) {w : HttpClientWorker}
    (hs : (s.clients i).step e = some w) : ∀ p ∈ w.counted, Answered service p.1 p.2 := by
  rcases (step_moves hs).counted with hsame | ⟨response, ok, rfl, hread, hmore⟩
  · rw [hsame]
    exact h.counted i
  · rw [hmore]
    intro p hp
    rcases List.mem_append.mp hp with hp | hp
    · exact h.counted i p hp
    · rw [List.mem_singleton.mp hp]
      exact h.answered hread (of_decide_eq_true hallows)

/-- The client begins a connection. -/
theorem Sound.begins (h : Sound service s) {i : ι} {w : HttpClientWorker}
    (hasks : w.Asks service.db service.lookupPath)
    (hcounted : ∀ p ∈ w.counted, Answered service p.1 p.2) (hconnect : w.waiting = .connect) :
    Sound service { s with
      clients := Function.update s.clients i w,
      serial := Function.update s.serial i (s.serial i + 1),
      backlog := s.backlog ++ [(i, s.serial i + 1)] } := by
  refine ⟨?_, ?_, ?_, ?_, ?_, h.good, h.up, h.provides, h.replied⟩
  · exact (Function.forall_update_iff s.clients fun _ c => c.Asks _ _).mpr
      ⟨hasks, fun i' _ => h.asks i'⟩
  · exact (Function.forall_update_iff s.clients
      fun _ c => ∀ p ∈ c.counted, Answered service p.1 p.2).mpr ⟨hcounted, fun i' _ => h.counted i'⟩
  · intro i' k hk
    dsimp only at hk
    by_cases hi : i' = i
    · subst hi
      rw [Function.update_self] at hk
      exact h.fresh i' k (by omega)
    · rw [Function.update_of_ne hi] at hk
      exact h.fresh i' k hk
  · intro i' hwait
    unfold connection
    dsimp only at hwait ⊢
    by_cases hi : i' = i
    · subst hi
      rw [Function.update_self]
      exact h.fresh i' _ (Nat.lt_succ_self _)
    · rw [Function.update_of_ne hi] at hwait ⊢
      exact h.unsent i' hwait
  · intro i' hwait
    unfold connection
    dsimp only at hwait ⊢
    by_cases hi : i' = i
    · subst hi
      rw [Function.update_self, hconnect] at hwait
      rcases hwait with hwait | hwait
      · cases hwait
      · cases hwait
    · rw [Function.update_of_ne hi] at hwait
      rw [Function.update_of_ne hi, Function.update_of_ne hi]
      exact h.sent i' hwait

/-- The client begins to write its request. -/
theorem Sound.writes (h : Sound service s) {i : ι} {w : HttpClientWorker}
    (hasks : w.Asks service.db service.lookupPath)
    (hcounted : ∀ p ∈ w.counted, Answered service p.1 p.2) (hwrite : w.waiting = .write)
    (hunsent : s.sent (s.connection i) = none) :
    Sound service { s with
      clients := Function.update s.clients i w,
      sent := Function.update s.sent (s.connection i) (some w.mReq) } := by
  have hkeep : ∀ c req, s.sent c = some req →
      Function.update s.sent (s.connection i) (some w.mReq) c = some req := by
    intro c req hreq
    have hne : c ≠ s.connection i := by
      rintro rfl
      rw [hunsent] at hreq
      cases hreq
    rwa [Function.update_of_ne hne]
  refine ⟨?_, ?_, ?_, ?_, ?_, ?_, h.up, h.provides, ?_⟩
  · exact (Function.forall_update_iff s.clients fun _ c => c.Asks _ _).mpr
      ⟨hasks, fun i' _ => h.asks i'⟩
  · exact (Function.forall_update_iff s.clients
      fun _ c => ∀ p ∈ c.counted, Answered service p.1 p.2).mpr ⟨hcounted, fun i' _ => h.counted i'⟩
  · intro i' k hk
    dsimp only at hk ⊢
    have hne : (i', k) ≠ s.connection i := by
      intro he
      obtain ⟨rfl, rfl⟩ := Prod.mk.inj he
      exact lt_irrefl _ hk
    rw [Function.update_of_ne hne]
    exact h.fresh i' k hk
  · intro i' hwait
    dsimp only at hwait ⊢
    by_cases hi : i' = i
    · subst hi
      rw [Function.update_self, hwrite] at hwait
      rcases hwait with hwait | hwait
      · cases hwait
      · cases hwait
    · have hne : s.connection i' ≠ s.connection i := fun he => hi (congrArg Prod.fst he)
      rw [Function.update_of_ne hi] at hwait
      exact (Function.update_of_ne hne ..).trans (h.unsent i' hwait)
  · intro i' hwait
    dsimp only at hwait ⊢
    by_cases hi : i' = i
    · subst hi
      rw [Function.update_self]
      exact Function.update_self ..
    · rw [Function.update_of_ne hi] at hwait ⊢
      exact hkeep _ _ (h.sent i' hwait)
  · intro c req hreq
    dsimp only at hreq
    by_cases hc : c = s.connection i
    · rw [hc, Function.update_self] at hreq
      rw [← Option.some.inj hreq]
      exact hasks.good (by simp [hwrite])
    · rw [Function.update_of_ne hc] at hreq
      exact h.good c req hreq
  · intro c response hresponse
    obtain ⟨req, hreq, hanswer⟩ := h.replied c response hresponse
    exact ⟨req, hkeep c req hreq, hanswer⟩

/-- The client does neither. -/
theorem Sound.goes (h : Sound service s) {i : ι} {w : HttpClientWorker}
    (hasks : w.Asks service.db service.lookupPath)
    (hcounted : ∀ p ∈ w.counted, Answered service p.1 p.2)
    (hunsent : w.waiting = .connect ∨ w.waiting = .handshake → s.sent (s.connection i) = none)
    (hsent : w.waiting = .write ∨ w.waiting = .read →
      s.sent (s.connection i) = some w.mReq) :
    Sound service { s with clients := Function.update s.clients i w } := by
  refine ⟨?_, ?_, h.fresh, ?_, ?_, h.good, h.up, h.provides, h.replied⟩
  · exact (Function.forall_update_iff s.clients fun _ c => c.Asks _ _).mpr
      ⟨hasks, fun i' _ => h.asks i'⟩
  · exact (Function.forall_update_iff s.clients
      fun _ c => ∀ p ∈ c.counted, Answered service p.1 p.2).mpr ⟨hcounted, fun i' _ => h.counted i'⟩
  · exact (Function.forall_update_iff s.clients
      fun i' c => c.waiting = .connect ∨ c.waiting = .handshake →
        s.sent (s.connection i') = none).mpr ⟨hunsent, fun i' _ => h.unsent i'⟩
  · exact (Function.forall_update_iff s.clients
      fun i' c => c.waiting = .write ∨ c.waiting = .read →
        s.sent (s.connection i') = some c.mReq).mpr ⟨hsent, fun i' _ => h.sent i'⟩

theorem Sound.moveClient (h : Sound service s) {i : ι} {e : ClientEvent}
    (hallows : s.allows (.client i e) = true) {w : HttpClientWorker}
    (hs : (s.clients i).step e = some w) : Sound service (s.moveClient i w) := by
  have hmoves := step_moves hs
  have hasks := (h.asks i).step hs
  have hcounted := h.counted_step hallows hs
  unfold LoadTest.moveClient
  dsimp only
  split_ifs with hconnect hwrite
  · exact h.begins hasks hcounted hconnect.1
  · obtain ⟨hwrite, hold⟩ := hwrite
    refine h.writes hasks hcounted hwrite (h.unsent i ?_)
    rcases (hmoves.write hwrite).1 with hc | hc | hc
    · exact Or.inl hc
    · exact Or.inr hc
    · exact absurd hc hold
  · refine h.goes hasks hcounted (fun hw => h.unsent i ?_) fun hw => ?_
    · rcases hw with hw | hw
      · exact Or.inl (by_contra fun hold => hconnect ⟨hw, hold⟩)
      · exact hmoves.handshake hw
    · rcases hw with hw | hw
      · have hold : (s.clients i).waiting = .write := by_contra fun hold => hwrite ⟨hw, hold⟩
        rw [(hmoves.write hw).2]
        exact h.sent i (Or.inl hold)
      · obtain ⟨hold, hreq⟩ := hmoves.read hw
        rw [hreq]
        exact h.sent i hold

end

/-! ## A handler of the service -/

/-- The request that a worker receives was sent to it, and it takes no other one. -/
theorem Sound.received [DecidableEq ι] (h : Sound service s) {j : κ} {req : Request} {length : Nat}
    {connected : Bool} (hallows : s.allows (.worker j (.received (some req) length connected)) = true) :
    ∃ c, s.peer j = some c ∧ s.sent c = some req ∧ Good service.db service.lookupPath req := by
  obtain ⟨c, hpeer, hsent⟩ := Option.bind_eq_some_iff.mp (of_decide_eq_true hallows)
  exact ⟨c, hpeer, hsent, h.good c req hsent⟩

/-- A worker stays the service, and what it answers is the answer of the service. -/
theorem Sound.serves (h : Sound service s) (hlive : service.failed = false)
    (hpath : 63 ∉ service.lookupPath) {j : κ} {e : Event}
    (hgood : ∀ req length connected, e = .received (some req) length connected →
      Good service.db service.lookupPath req)
    {t : Serving} (hs : WorkerLoop.step fuel (s.workers j) e = some t) :
    Service.Provides t.worker service ∧
      ∀ req length connected, e = .received (some req) length connected →
        ∀ response, t.mResponse = some response → response = (service.answer req).1 := by
  rcases step_keeps hs with ⟨hw, -, -, hresponse⟩ | ⟨req, length, connected, response, rfl, hp, -, -, hr⟩
  · rw [hw]
    refine ⟨h.provides j, ?_⟩
    rintro req length connected rfl response ht
    rw [(h.up j).no_response hs, or_self] at hresponse
    rw [hresponse] at ht
    cases ht
  · obtain ⟨hanswer, hnext⟩ := (h.provides j).processRequest hp
    rw [answer_keeps hlive hpath (hgood _ _ _ rfl)] at hnext
    refine ⟨hnext, ?_⟩
    intro req' length' connected' he response' ht
    obtain ⟨hreq, -⟩ := Event.received.inj he
    rw [hr] at ht
    rw [← Option.some.inj ht, ← Option.some.inj hreq, hanswer]

variable [DecidableEq ι] [DecidableEq κ]

omit [DecidableEq ι] in
theorem Sound.works (h : Sound service s) {j : κ} {t : Serving} (hup : Up t)
    (hprovides : Service.Provides t.worker service) (backlog : List (Connection ι))
    (peer : κ → Option (Connection ι)) {replied : Connection ι → Option Response}
    (hreplied : ∀ c response, replied c = some response →
      ∃ req, s.sent c = some req ∧ response = (service.answer req).1) :
    Sound service
      { s with workers := Function.update s.workers j t, backlog, peer, replied } := by
  refine ⟨h.asks, h.counted, h.fresh, h.unsent, h.sent, h.good, ?_, ?_, hreplied⟩
  · exact (Function.forall_update_iff s.workers fun _ t => Up t).mpr ⟨hup, fun j' _ => h.up j'⟩
  · exact (Function.forall_update_iff s.workers
      fun _ t => Service.Provides t.worker service).mpr ⟨hprovides, fun j' _ => h.provides j'⟩

theorem Sound.accept (h : Sound service s) (hlive : service.failed = false)
    (hpath : 63 ∉ service.lookupPath) {j : κ} {c : Connection ι} {t : Serving}
    (hs : WorkerLoop.step fuel (s.workers j) (.accepted true) = some t) :
    Sound service (s.accept j c t) := by
  obtain ⟨hprovides, -⟩ := h.serves hlive hpath (e := .accepted true) nofun hs
  exact h.works ((h.up j).step hs) hprovides _ _ h.replied

theorem Sound.moveWorker (h : Sound service s) (hlive : service.failed = false)
    (hpath : 63 ∉ service.lookupPath) {j : κ} {e : Event} (hallows : s.allows (.worker j e) = true)
    {t : Serving} (hs : WorkerLoop.step fuel (s.workers j) e = some t) :
    Sound service (s.moveWorker j e t) := by
  have hgood : ∀ req length connected, e = .received (some req) length connected →
      Good service.db service.lookupPath req := by
    rintro req length connected rfl
    obtain ⟨-, -, -, hgood⟩ := h.received hallows
    exact hgood
  obtain ⟨hprovides, hresponse⟩ := h.serves hlive hpath hgood hs
  have hup := (h.up j).step hs
  unfold LoadTest.moveWorker
  dsimp only
  split
  · rename_i req length connected
    obtain ⟨c, hpeer, hsent, -⟩ := h.received hallows
    split
    · rename_i c' response hpeer' ht
      rw [hpeer] at hpeer'
      obtain rfl := Option.some.inj hpeer'
      refine h.works hup hprovides _ _ fun c' response' hreplied => ?_
      by_cases hc : c' = c
      · rw [hc, Function.update_self] at hreplied
        rw [hc, ← Option.some.inj hreplied]
        exact ⟨req, hsent, hresponse req length connected rfl response ht⟩
      · rw [Function.update_of_ne hc] at hreplied
        exact h.replied c' response' hreplied
    · exact h.works hup hprovides _ _ h.replied
  · exact h.works hup hprovides _ _ h.replied

/-! ## The law -/

theorem Sound.step (h : Sound service s) (hlive : service.failed = false)
    (hpath : 63 ∉ service.lookupPath) {m : Move ι κ} (hs : LoadTest.step fuel s m = some s') :
    Sound service s' := by
  unfold LoadTest.step at hs
  split_ifs at hs with hallows
  cases m with
  | client i e =>
    obtain ⟨w, hw, rfl⟩ := Option.map_eq_some_iff.mp hs
    exact h.moveClient hallows hw
  | accept j c =>
    obtain ⟨t, ht, rfl⟩ := Option.map_eq_some_iff.mp hs
    exact h.accept hlive hpath ht
  | worker j e =>
    obtain ⟨t, ht, rfl⟩ := Option.map_eq_some_iff.mp hs
    exact h.moveWorker hlive hpath hallows ht

/-- The clients have been started, and so have the workers, which are all alike. -/
def begin (clients : ι → HttpClientWorker) (worker : HttpWorker) : LoadTest ι κ where
  clients i := (clients i).start
  workers _ := Serving.start worker

/-- The worker has the database open, under the path of the address of the service. -/
structure Opened (db : Database) (worker : HttpWorker) : Prop where
  inspector : worker.mInspector = openFile db.bytes
  address : ∃ address uri, ({} : URI).parse address = some uri ∧ worker.mBasePath = uri.mPath

/-- The client was made for the file of the database, and for the lookups of the worker. -/
structure Aims (db : Database) (worker : HttpWorker) (w : HttpClientWorker) : Prop where
  create : ∃ address mGen now runtime,
    HttpClientWorker.create address db.bytes mGen now runtime = some w
  path : w.mURI.mPath = worker.mBasePath ++ ascii "/lookup"

omit [DecidableEq ι] [DecidableEq κ] in
theorem start_waiting {w : HttpClientWorker} (h : w.mResolverResults = false) :
    w.start.waiting = .nothing ∨ w.start.waiting = .resolve := by
  unfold HttpClientWorker.start
  dsimp only
  split_ifs with hzero hok hresolved
  · exact Or.inl rfl
  · rw [h] at hresolved
    cases hresolved
  · exact Or.inr rfl
  · exact Or.inl rfl

omit [DecidableEq ι] [DecidableEq κ] in
theorem sound_begin {db : Database} {worker : HttpWorker} {clients : ι → HttpClientWorker}
    (hopened : Opened db worker) (hclients : ∀ i, Aims db worker (clients i)) :
    Sound ⟨db, worker.mBasePath, worker.mLastUpdated, false⟩
      (begin clients worker : LoadTest ι κ) := by
  have hstart : ∀ i, (clients i).Loads db ∧ (clients i).counted = [] ∧
      (clients i).mResolverResults = false := by
    intro i
    obtain ⟨⟨address, mGen, now, runtime, hcreate⟩, -⟩ := hclients i
    obtain ⟨uri, -, hw⟩ := Option.map_eq_some_iff.mp hcreate
    rw [← hw]
    exact ⟨⟨rfl, rfl, rfl⟩, rfl, rfl⟩
  have hprovides : Service.Provides worker ⟨db, worker.mBasePath, worker.mLastUpdated, false⟩ := by
    refine ⟨rfl, rfl, ?_, ?_⟩
    · rw [hopened.inspector]
      exact serves_openFile db
    · rw [hopened.inspector]
      rfl
  have hidle : ∀ i, (clients i).start.waiting = .nothing ∨ (clients i).start.waiting = .resolve :=
    fun i => start_waiting (hstart i).2.2
  refine ⟨fun i => asks_start (hstart i).1 (hclients i).path, fun i => ?_, fun _ _ _ => rfl,
    fun _ _ => rfl, fun i hwait => ?_, nofun, fun _ => up_start worker, fun _ => hprovides, nofun⟩
  · have hcounted : (clients i).start.counted = [] := by
      rw [(started _).keeps]
      exact (hstart i).2.1
    intro p hp
    rw [show ((begin clients worker : LoadTest ι κ).clients i).counted = [] from hcounted] at hp
    cases hp
  · have hwait' : (clients i).start.waiting = .write ∨ (clients i).start.waiting = .read := hwait
    rcases hidle i with hi | hi
    · simp [hi] at hwait'
    · simp [hi] at hwait'

/-- Every client moves by its own steps. -/
theorem step_clients {m : Move ι κ} (hs : LoadTest.step fuel s m = some s') (i : ι) :
    s'.clients i = s.clients i ∨ ∃ e, (s.clients i).step e = some (s'.clients i) := by
  unfold LoadTest.step at hs
  split_ifs at hs
  cases m with
  | client i' e =>
    obtain ⟨w, hw, rfl⟩ := Option.map_eq_some_iff.mp hs
    have hclients : (s.moveClient i' w).clients = Function.update s.clients i' w := by
      unfold LoadTest.moveClient
      dsimp only
      split_ifs
      all_goals rfl
    rw [hclients]
    by_cases hi : i = i'
    · subst hi
      rw [Function.update_self]
      exact Or.inr ⟨e, hw⟩
    · exact Or.inl (Function.update_of_ne hi ..)
  | accept j c =>
    obtain ⟨t, -, rfl⟩ := Option.map_eq_some_iff.mp hs
    exact Or.inl rfl
  | worker j e =>
    obtain ⟨t, -, rfl⟩ := Option.map_eq_some_iff.mp hs
    left
    unfold LoadTest.moveWorker
    dsimp only
    split
    · split
      · rfl
      · rfl
    · rfl

theorem measured_of_reachable {db : Database} {worker : HttpWorker}
    {clients : ι → HttpClientWorker} (hclients : ∀ i, Aims db worker (clients i))
    (h : Reachable (LoadTest.step fuel) (begin clients worker : LoadTest ι κ) s) :
    ∀ i, Measured (s.clients i) := by
  induction h with
  | start =>
    intro i
    obtain ⟨⟨address, mGen, now, runtime, hcreate⟩, -⟩ := hclients i
    exact (measured_create hcreate).start
  | step _ _ hstep ih =>
    intro i
    rcases step_clients hstep i with hi | ⟨e, he⟩
    · rw [hi]
      exact ih i
    · exact (ih i).step he

/-- In every run of a load test on the database that the service has open, every client counts
exactly the answers that it got, each of them the stored count of the hash it had asked for, and
so is the next answer that it can read. -/
theorem a_load_test_gets_the_stored_counts {db : Database} {worker : HttpWorker}
    {clients : ι → HttpClientWorker} (hopened : Opened db worker)
    (hclients : ∀ i, Aims db worker (clients i))
    (h : Reachable (LoadTest.step fuel) (begin clients worker : LoadTest ι κ) s) (i : ι) :
    (s.clients i).mRequestCount = (s.clients i).counted.length ∧
      (∀ p ∈ (s.clients i).counted, ∃ x ∈ db.records,
        p.1.target = worker.mBasePath ++ ascii "/lookup" ++
          (ascii "?hash=" ++ x.phc.hash.toString) ∧
        p.2 = HttpWorker.makeResponse (.lookup x.phc.hash.toString x.count)) ∧
      ∀ response, (s.clients i).waiting = .read → s.replied (s.connection i) = some response →
        ∃ x ∈ db.records, (s.clients i).mReq.target = worker.mBasePath ++ ascii "/lookup" ++
            (ascii "?hash=" ++ x.phc.hash.toString) ∧
          response = HttpWorker.makeResponse (.lookup x.phc.hash.toString x.count) := by
  let service : Service := ⟨db, worker.mBasePath, worker.mLastUpdated, false⟩
  have hpath : 63 ∉ service.lookupPath := by
    obtain ⟨address, uri, hparse, hbase⟩ := hopened.address
    have hbase' : 63 ∉ worker.mBasePath := hbase ▸ URI.mPath_of_parse hparse
    rw [Service.lookupPath, List.mem_append, not_or]
    exact ⟨hbase', by decide⟩
  have hsound : Sound service s :=
    h.invariant (sound_begin hopened hclients) fun _ _ _ hs _ hstep => hs.step rfl hpath hstep
  have hlookup : ∀ req response, Answered service req response → ∃ x ∈ db.records,
      req.target = worker.mBasePath ++ ascii "/lookup" ++
        (ascii "?hash=" ++ x.phc.hash.toString) ∧
      response = HttpWorker.makeResponse (.lookup x.phc.hash.toString x.count) := by
    rintro req response ⟨⟨x, hx, rfl⟩, rfl⟩
    exact ⟨x, hx, rfl, congrArg Prod.fst (Service.answer_good rfl hpath hx)⟩
  have hmeasured := measured_of_reachable hclients h i
  refine ⟨hmeasured.count.trans hmeasured.counted.symm, fun p hp => ?_, fun response hread hr => ?_⟩
  · exact hlookup _ _ (hsound.counted i p hp)
  · exact hlookup _ _ (hsound.answered hread hr)

/-! ## One request -/

/-- The text of the one hash. -/
def oneText : List UInt8 := ascii "8d000000000000000000000000000000"

def oneRequest : List (Move (Fin 1) (Fin 1)) :=
  [.client 0 (.resolved true), .accept 0 (0, 1), .client 0 (.connected true),
    .worker 0 (.received (some ⟨ascii "GET", ascii "/v1/pwned/api/lookup?hash=" ++ oneText⟩) 0 true),
    .client 0 (.written true),
    .client 0 (.received (some (HttpWorker.makeResponse (.lookup oneText 1))) true)]

theorem a_load_test_gets_the_stored_counts_one :
    ∃ s : LoadTest (Fin 1) (Fin 1),
      run (LoadTest.step 8) (begin (fun _ => loader) HttpWorker.service) oneRequest = some s ∧
      (s.clients 0).counted.length = 1 ∧
      (s.clients 0).mRequestCount = (s.clients 0).counted.length ∧
      (∀ p ∈ (s.clients 0).counted, ∃ x ∈ HttpWorker.oneHash.records,
        p.1.target = HttpWorker.service.mBasePath ++ ascii "/lookup" ++
          (ascii "?hash=" ++ x.phc.hash.toString) ∧
        p.2 = HttpWorker.makeResponse (.lookup x.phc.hash.toString x.count)) ∧
      ∀ response, (s.clients 0).waiting = .read → s.replied (s.connection 0) = some response →
        ∃ x ∈ HttpWorker.oneHash.records,
          (s.clients 0).mReq.target = HttpWorker.service.mBasePath ++ ascii "/lookup" ++
            (ascii "?hash=" ++ x.phc.hash.toString) ∧
          response = HttpWorker.makeResponse (.lookup x.phc.hash.toString x.count) := by
  have hrun : (run (LoadTest.step 8) (begin (fun _ => loader) HttpWorker.service) oneRequest).map
      (fun s => (s.clients 0).counted.length) = some 1 := by
    decide +kernel
  have hservice : (({} : URI).parse (ascii "http://localhost/v1/pwned/api")).map URI.mPath =
      some HttpWorker.service.mBasePath := by
    decide +kernel
  obtain ⟨uri, huri, hpath⟩ := Option.map_eq_some_iff.mp hservice
  have hopened : Opened HttpWorker.oneHash HttpWorker.service := ⟨rfl, _, uri, huri, hpath.symm⟩
  have haims : ∀ _ : Fin 1, Aims HttpWorker.oneHash HttpWorker.service loader := fun _ =>
    ⟨⟨_, _, _, _, create_loader⟩, rfl⟩
  obtain ⟨s, hs, hlength⟩ := Option.map_eq_some_iff.mp hrun
  exact ⟨s, hs, hlength,
    a_load_test_gets_the_stored_counts hopened haims (reachable_of_run hs) 0⟩

end LoadTest

end webservice
