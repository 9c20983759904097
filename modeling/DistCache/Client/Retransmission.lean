import DistCache.Client.State
import DistCache.Lib.Transition

/-!
The requests of a client that have not been answered, and the timers that send them again.

The master has one timer and so has each address.  A request takes over the timer of its peer, and a
message that arrives stops it, so a request is sent again only if it is alone with its peer until it is
answered.  As long as every step keeps to that (`Session.Ok`) each unanswered request has a timer that runs
for it, and the first step that does not leaves one without (`unanswered_guarded_iff`).
-/

namespace DistCache

open Lib

/-- The timer comes to its callback, which sends `massage`. -/
structure ReSendMassage.Guards (r : ReSendMassage) (massage : Str) : Prop where
  armed : r.timer.Armed
  massage : r.massage = massage

namespace Client

/-- A message of the master answers the request for the key that it names. -/
def masterAnswers (message : Str) (o : Outgoing) : Bool :=
  match split message sharp with
  | [_, key, _] => o == ⟨.master, key⟩
  | _ => false

/-- The key of a request to a cache server. -/
def keyOf (massage : Str) : Str := massage.takeWhile (· ≠ sharp)

/-- A message of a cache server answers the requests for the key that it names, of the address that it
names. -/
def serverAnswers (message : Str) (o : Outgoing) : Bool :=
  match split message sharp with
  | state :: key :: addr :: _ => (state == lit "SUCCESS" || state == lit "FAILED") &&
      o.peer == .cacheServer addr && keyOf o.massage == key
  | _ => false

/-- The callback of the timer of its peer sends the request now. -/
def resends (c : Client) (o : Outgoing) : Bool :=
  match c.slot o.peer with
  | some r => r.timer.fires && r.massage == o.massage
  | none => false

/-- Each of these requests has a timer that runs for it. -/
def Guarded (c : Client) (waiting : List Outgoing) : Prop :=
  ∀ o ∈ waiting, ∃ r, c.slot o.peer = some r ∧ r.Guards o.massage

/-- The request takes the timer of its peer from no other one. -/
def Free (waiting : List Outgoing) (o : Outgoing) : Prop :=
  ∀ o' ∈ waiting, o'.peer = o.peer → o'.massage = o.massage

variable {c c' : Client} {waiting : List Outgoing} {o : Outgoing} {out : Option Outgoing} {peer : Peer}
  {message value : Str}

/-! ### What a handler does to the requests that wait -/

lemma Sends.guarded_iff (hs : Sends c c' (some o)) : c'.Guarded (o :: waiting) ↔
    (∀ o' ∈ waiting, o'.peer ≠ o.peer → ∃ r, c.slot o'.peer = some r ∧ r.Guards o'.massage) ∧
      Free waiting o := by
  cases hs with
  | request hother hslot harmed _ =>
    constructor
    · intro hg
      refine ⟨fun o' ho' hne => ?_, fun o' ho' heq => ?_⟩
      · obtain ⟨r, hr, hguards⟩ := hg o' (List.mem_cons_of_mem _ ho')
        exact ⟨r, by rw [← hother _ hne, hr], hguards⟩
      · obtain ⟨r, hr, hguards⟩ := hg o' (List.mem_cons_of_mem _ ho')
        rw [heq, hslot, Option.some.injEq] at hr
        rw [← hguards.massage, ← hr]
    · rintro ⟨hothers, hfree⟩ o' ho'
      by_cases heq : o'.peer = o.peer
      · have hmassage : o.massage = o'.massage := by
          rcases List.mem_cons.mp ho' with rfl | ho'
          · rfl
          · exact (hfree o' ho' heq).symm
        rw [heq, hslot]
        exact ⟨_, rfl, harmed, hmassage⟩
      · have hmem : o' ∈ waiting :=
          (List.mem_cons.mp ho').resolve_left fun hsame => heq (by rw [hsame])
        obtain ⟨r, hr, hguards⟩ := hothers o' hmem heq
        exact ⟨r, by rw [hother _ heq, hr], hguards⟩

lemma Sends.guarded_nothing_iff (hs : Sends c c' none) : c'.Guarded waiting ↔ c.Guarded waiting := by
  cases hs with
  | nothing hslot =>
    unfold Guarded
    simp only [hslot]

lemma Sends.guarded_iff_free (hs : Sends c c' out) (hg : c.Guarded waiting) :
    c'.Guarded (out.toList ++ waiting) ↔ ∀ o ∈ out, Free waiting o := by
  cases out with
  | none => exact iff_of_true (hs.guarded_nothing_iff.mpr hg) nofun
  | some o =>
    rw [Option.toList_some, List.singleton_append, hs.guarded_iff]
    constructor
    · rintro ⟨-, hfree⟩ o' ho'
      cases ho'
      exact hfree
    · exact fun hfree => ⟨fun o' ho' _ => hg o' ho', hfree o rfl⟩

/-- No stopped timer runs for a request. -/
lemma Stops.not_guarded (hs : Stops c c' peer) (hmem : o ∈ waiting) (hpeer : o.peer = peer) :
    ¬ c'.Guarded waiting := by
  intro hg
  obtain ⟨r, -, hnew⟩ := hs.stopped
  obtain ⟨r', hr', hguards⟩ := hg o hmem
  rw [hpeer, hnew, Option.some.injEq] at hr'
  subst hr'
  exact Bool.false_ne_true hguards.armed.running

lemma Stops.guarded_iff (hs : Stops c c' peer) (hg : c.Guarded waiting) (answers : Outgoing → Bool) :
    c'.Guarded (waiting.filter fun o => ! answers o) ↔ ∀ o ∈ waiting, o.peer = peer → answers o := by
  constructor
  · intro hg' o ho hpeer
    by_contra hanswers
    rw [Bool.not_eq_true] at hanswers
    exact hs.not_guarded (List.mem_filter.mpr ⟨ho, by rw [hanswers]; rfl⟩) hpeer hg'
  · intro hall o ho
    obtain ⟨ho, hanswers⟩ := List.mem_filter.mp ho
    have hne : o.peer ≠ peer := fun hpeer => by
      rw [hall o ho hpeer] at hanswers
      cases hanswers
    rw [hs.other _ hne]
    exact hg o ho

lemma resends_eq {r : ReSendMassage} (hr : c.slot o.peer = some r) (hguards : r.Guards o.massage) :
    c.resends o = r.timer.fires := by
  have hsame : (r.massage == o.massage) = true := beq_iff_eq.mpr hguards.massage
  rw [resends, hr]
  dsimp only
  rw [hsame, Bool.and_true]

/-- A request whose timer comes to its callback does not wait any more, unless it could not be sent. -/
lemma timerHandler_guarded_iff (hsound : c.Sound) (hg : c.Guarded waiting) (up : Peer → Bool) :
    c.timerHandler.Guarded (waiting.filter fun o => ! (up o.peer && c.resends o)) ↔
      ∀ o ∈ waiting, c.resends o → up o.peer := by
  constructor
  · intro hg' o ho hresends
    by_contra hup
    rw [Bool.not_eq_true] at hup
    obtain ⟨r, hr, hguards⟩ := hg o ho
    obtain ⟨r', hr', hguards'⟩ := hg' o (List.mem_filter.mpr ⟨ho, by rw [hup]; rfl⟩)
    rw [timerHandler_slot, hr, Option.map_some, Option.some.injEq] at hr'
    subst hr'
    rw [resends_eq hr hguards] at hresends
    have hstopped := (hsound _ _ hr).tick_of_fires hresends
    rw [hguards'.armed.running] at hstopped
    cases hstopped
  · intro hall o ho
    obtain ⟨ho, hleft⟩ := List.mem_filter.mp ho
    obtain ⟨r, hr, hguards⟩ := hg o ho
    refine ⟨{ r with timer := r.timer.tick }, by rw [timerHandler_slot, hr]; rfl, ?_, hguards.massage⟩
    refine hguards.armed.tick ?_
    rw [← resends_eq hr hguards]
    by_contra hresends
    rw [Bool.not_eq_false] at hresends
    rw [hall o ho hresends, hresends] at hleft
    cases hleft

/-! ### The messages -/

lemma peer_of_masterRequest (ho : o ∈ c.masterRequest message value) : o.peer ≠ .master := by
  unfold masterRequest modeRequest at ho
  split at ho
  next =>
    split_ifs at ho
    · cases ho
      nofun
    · cases ho
      nofun
    · cases ho
    · cases ho
  next => cases ho

lemma peer_of_masterAnswers (h : masterAnswers message o = true) : o.peer = .master := by
  unfold masterAnswers at h
  split at h
  next => rw [eq_of_beq h]
  next => cases h

/-- After a message of the master, and the request to a cache server that it leads to. -/
lemma Stops.guarded_sends_iff {c₁ : Client} (hstops : Stops c c₁ .master)
    (hsends : Sends c₁ c' (c.masterRequest message value)) (hg : c.Guarded waiting) :
    c'.Guarded ((c.masterRequest message value).toList ++
        waiting.filter fun o => ! masterAnswers message o) ↔
      (∀ o ∈ waiting, o.peer = .master → masterAnswers message o) ∧
        ∀ o ∈ c.masterRequest message value, Free waiting o := by
  have hmid := hstops.guarded_iff hg (masterAnswers message)
  cases hout : c.masterRequest message value with
  | none =>
    rw [hout] at hsends
    rw [Option.toList_none, List.nil_append, hsends.guarded_nothing_iff, hmid]
    exact (and_iff_left nofun).symm
  | some o =>
    have hpeer : o.peer ≠ .master := peer_of_masterRequest hout
    rw [hout] at hsends
    rw [Option.toList_some, List.singleton_append, hsends.guarded_iff, ← hmid]
    constructor
    · rintro ⟨hothers, hfree⟩
      refine ⟨fun o' ho' => ?_, fun o₁ ho₁ o' ho' heq => ?_⟩
      · by_cases heq : o'.peer = o.peer
        · rw [hstops.other _ (heq ▸ hpeer)]
          exact hg o' (List.mem_filter.mp ho').1
        · exact hothers o' ho' heq
      · cases ho₁
        refine hfree o' (List.mem_filter.mpr ⟨ho', ?_⟩) heq
        rw [Bool.not_eq_true', Bool.eq_false_iff]
        exact fun hanswers => hpeer (heq ▸ peer_of_masterAnswers hanswers)
    · rintro ⟨hguarded, hfree⟩
      exact ⟨fun o' ho' _ => hguarded o' ho',
        fun o' ho' => hfree o rfl o' (List.mem_filter.mp ho').1⟩

end Client

/-! ### Runs -/

/-- A client in a run, the keys that a pass of `check_cache_server_request_map` has still to send, and the
requests sent that have been neither answered nor sent again. -/
structure Session where
  client : Client
  lost : List Str
  waiting : List Outgoing

namespace Session

open Client

inductive Event where
  | child (message value : Str)
  | master (message value : Str)
  | cacheServer (message : Str)
  /-- A pass begins, and comes to the addresses in this order. -/
  | check (order : List Str)
  /-- It sends the next key. -/
  | resend
  /-- `timer_handler`, when these peers can be sent to. -/
  | tick (up : Peer → Bool)

/-- The handlers run one after the other, and `timer_handler` interrupts a pass between two keys. -/
def step (s : Session) : Event → Option Session
  | .child message value =>
    if s.lost = [] then
      (s.client.dealwithChild message value).map fun r => { s with
        client := r.1
        waiting := r.2.toList ++ s.waiting }
    else none
  | .master message value =>
    if s.lost = [] then
      (s.client.dealwithMaster message value).map fun r => { s with
        client := r.1
        waiting := r.2.toList ++ s.waiting.filter fun o => ! masterAnswers message o }
    else none
  | .cacheServer message =>
    if s.lost = [] then
      (s.client.dealwithCacheServer message).map fun client => { s with
        client
        waiting := s.waiting.filter fun o => ! serverAnswers message o }
    else none
  | .check order =>
    -- the lists are cleared at once: nothing else reads them before the pass is over
    if s.lost = [] ∧ order.Nodup ∧ order.toFinset = s.client.requestMap.keys then
      some { s with client := s.client.clearLost, lost := s.client.lostKeys order }
    else none
  | .resend =>
    match s.lost with
    | key :: lost => some
      { client := s.client.sendRequestToMaster key
        lost
        waiting := ⟨.master, key⟩ :: s.waiting }
    | [] => none
  | .tick up => some { s with
      client := s.client.timerHandler
      waiting := s.waiting.filter fun o => ! (up o.peer && s.client.resends o) }

def Init (s : Session) : Prop :=
  ∃ mode cacheSizeLocal, s = ⟨.new mode cacheSizeLocal, [], []⟩

/-- Every request that waits has a timer that runs and sends it again. -/
def Guarded (s : Session) : Prop := s.client.Guarded s.waiting

/-- A request is sent only when no other one to its peer waits; a message that stops a timer answers all
that wait for that peer; what comes due can be sent. -/
def Ok (s : Session) : Event → Prop
  | .child message value => ∀ o ∈ s.client.childRequest message value, Free s.waiting o
  | .master message value =>
    (∀ o ∈ s.waiting, o.peer = .master → masterAnswers message o) ∧
      ∀ o ∈ s.client.masterRequest message value, Free s.waiting o
  | .cacheServer message => ∀ addr ∈ serverStops message,
      ∀ o ∈ s.waiting, o.peer = .cacheServer addr → serverAnswers message o
  | .check _ => True
  | .resend => ∀ key ∈ s.lost.head?, Free s.waiting ⟨.master, key⟩
  | .tick up => ∀ o ∈ s.waiting, s.client.resends o → up o.peer

instance decidableFree (waiting : List Outgoing) (o : Outgoing) : Decidable (Free waiting o) :=
  inferInstanceAs (Decidable (∀ o' ∈ waiting, o'.peer = o.peer → o'.massage = o.massage))

instance decidableOk (s : Session) : (e : Event) → Decidable (s.Ok e)
  | .child message value =>
    inferInstanceAs (Decidable (∀ o ∈ s.client.childRequest message value, Free s.waiting o))
  | .master message value =>
    inferInstanceAs (Decidable ((∀ o ∈ s.waiting, o.peer = .master → masterAnswers message o) ∧
      ∀ o ∈ s.client.masterRequest message value, Free s.waiting o))
  | .cacheServer message =>
    inferInstanceAs (Decidable (∀ addr ∈ serverStops message,
      ∀ o ∈ s.waiting, o.peer = .cacheServer addr → serverAnswers message o))
  | .check _ => isTrue trivial
  | .resend => inferInstanceAs (Decidable (∀ key ∈ s.lost.head?, Free s.waiting ⟨.master, key⟩))
  | .tick up => inferInstanceAs (Decidable (∀ o ∈ s.waiting, s.client.resends o → up o.peer))

variable {s s' : Session} {e : Event}

/-! ### The steps, one by one -/

/-- What a step does to the timers and to the requests that wait. -/
inductive Did (s : Session) : Event → Session → Prop
  | child {message value : Str} {c : Client} (hsends : Sends s.client c (s.client.childRequest message value)) :
      Did s (.child message value) { s with
        client := c
        waiting := (s.client.childRequest message value).toList ++ s.waiting }
  | master {message value : Str} {c c' : Client} (hstops : Stops s.client c .master)
      (hsends : Sends c c' (s.client.masterRequest message value)) :
      Did s (.master message value) { s with
        client := c'
        waiting := (s.client.masterRequest message value).toList ++
          s.waiting.filter fun o => ! masterAnswers message o }
  | cacheServer {message addr : Str} {c : Client} (haddr : serverStops message = some addr)
      (hstops : Stops s.client c (.cacheServer addr)) : Did s (.cacheServer message) { s with
        client := c
        waiting := s.waiting.filter fun o => ! serverAnswers message o }
  | other {message : Str} (hnone : serverStops message = none) : Did s (.cacheServer message) { s with
        waiting := s.waiting.filter fun o => ! serverAnswers message o }
  | check {order : List Str} : Did s (.check order)
      { s with client := s.client.clearLost, lost := s.client.lostKeys order }
  | resend {key : Str} {lost : List Str} (hlost : s.lost = key :: lost)
      (hsends : Sends s.client (s.client.sendRequestToMaster key) (some ⟨.master, key⟩)) :
      Did s .resend ⟨s.client.sendRequestToMaster key, lost, ⟨.master, key⟩ :: s.waiting⟩
  | tick {up : Peer → Bool} : Did s (.tick up) { s with
      client := s.client.timerHandler
      waiting := s.waiting.filter fun o => ! (up o.peer && s.client.resends o) }

lemma did_of_step (hsound : s.client.Sound) (h : s.step e = some s') : s.Did e s' := by
  cases e with
  | child message value =>
    simp only [step] at h
    split_ifs at h
    obtain ⟨⟨c, out⟩, hc, rfl⟩ := Option.map_eq_some_iff.mp h
    obtain ⟨rfl, hsends⟩ := sends_dealwithChild hsound hc
    exact .child hsends
  | master message value =>
    simp only [step] at h
    split_ifs at h
    obtain ⟨⟨c, out⟩, hc, rfl⟩ := Option.map_eq_some_iff.mp h
    obtain ⟨rfl, c₁, hstops, hsends⟩ := sends_dealwithMaster hsound hc
    exact .master hstops hsends
  | cacheServer message =>
    simp only [step] at h
    split_ifs at h
    obtain ⟨c, hc, rfl⟩ := Option.map_eq_some_iff.mp h
    rcases dealwithCacheServer_cases hc with ⟨addr, haddr, hstops⟩ | ⟨hnone, rfl⟩
    · exact .cacheServer haddr hstops
    · exact .other hnone
  | check order =>
    simp only [step] at h
    split_ifs at h
    cases h
    exact .check
  | resend =>
    simp only [step] at h
    split at h
    next key lost hlost =>
      cases h
      exact .resend hlost (sends_sendRequestToMaster hsound key)
    next => cases h
  | tick up =>
    cases h
    exact .tick

lemma Did.sound (hd : s.Did e s') (hsound : s.client.Sound) : s'.client.Sound := by
  cases hd with
  | child hsends | resend _ hsends => exact hsends.sound hsound
  | master hstops hsends => exact hsends.sound (hstops.sound hsound)
  | cacheServer _ hstops => exact hstops.sound hsound
  | other => exact hsound
  | check => exact fun peer r hr => hsound peer r (by cases peer <;> exact hr)
  | tick =>
    intro peer r hr
    rw [timerHandler_slot] at hr
    obtain ⟨r₀, hr₀, rfl⟩ := Option.map_eq_some_iff.mp hr
    exact (hsound peer r₀ hr₀).tick

/-- After a step each request is guarded exactly when the step keeps to the condition. -/
lemma Did.guarded_iff (hd : s.Did e s') (hsound : s.client.Sound) (hg : s.Guarded) :
    s'.Guarded ↔ s.Ok e := by
  cases hd with
  | child hsends => exact hsends.guarded_iff_free hg
  | master hstops hsends => exact hstops.guarded_sends_iff hsends hg
  | @cacheServer message addr c haddr hstops =>
    refine (hstops.guarded_iff hg (serverAnswers message)).trans ?_
    constructor
    · intro hall addr' haddr' o ho hpeer
      rw [haddr] at haddr'
      cases haddr'
      exact hall o ho hpeer
    · exact fun hok => hok addr haddr
  | other hnone =>
    refine iff_of_true (fun o ho => hg o (List.mem_filter.mp ho).1) fun addr haddr => ?_
    rw [hnone] at haddr
    cases haddr
  | check => exact iff_of_true (fun o ho => by cases hpeer : o.peer <;> exact hpeer ▸ hg o ho) trivial
  | resend hlost hsends =>
    refine (hsends.guarded_iff_free hg).trans ?_
    constructor
    · intro hfree key hkey
      rw [hlost] at hkey
      cases hkey
      exact hfree _ rfl
    · intro hok o ho
      cases ho
      exact hok _ (by rw [hlost]; rfl)
  | tick => exact timerHandler_guarded_iff hsound hg _

/-! ### Every run -/

lemma sound_of_reach {ok : Session → Event → Prop} (h : Reach Init step ok s) : s.client.Sound := by
  refine h.invariant (I := fun s => s.client.Sound) ?_ fun s e s' _ hsound _ hs =>
    (did_of_step hsound hs).sound hsound
  rintro _ ⟨mode, cacheSizeLocal, rfl⟩
  exact sound_new mode cacheSizeLocal

/-- **Unanswered requests.**  After a run in which every step keeps to the condition, each request that has
been neither answered nor sent again has a timer that runs and sends it; after one more step that is so
exactly when the step keeps to the condition too. -/
theorem unanswered_guarded_iff (h : Reach Init step Ok s) :
    s.Guarded ∧ ∀ e s', s.step e = some s' → (s'.Guarded ↔ s.Ok e) := by
  have hg : s.Guarded := by
    refine h.invariant (I := Guarded) ?_ fun s e s' hr hg hok hs => ?_
    · rintro _ ⟨mode, cacheSizeLocal, rfl⟩
      exact List.forall_mem_nil _
    · have hsound := sound_of_reach hr
      exact ((did_of_step hsound hs).guarded_iff hsound hg).mpr hok
  have hsound := sound_of_reach h
  exact ⟨hg, fun e s' hs => (did_of_step hsound hs).guarded_iff hsound hg⟩

/-- A client that reads, before the first message. -/
def newReader : Session := ⟨.new 'r'.toUInt8 2, [], []⟩

lemma init_newReader : Init newReader := ⟨_, _, rfl⟩

/-- One key after the other: the request to the cache server has a timer. -/
theorem guarded_in_turn : ∃ s, path step Ok newReader
    [.child (lit "CHILD#a") [], .tick fun _ => true, .master (lit "MASTER#a#127.0.0.1:9002") [],
      .cacheServer (lit "SUCCESS#a#127.0.0.1:9002#1"), .child (lit "CHILD#a") []] = some s ∧
    s.waiting = [⟨.cacheServer (lit "127.0.0.1:9002"), lit "a"⟩] ∧ s.Guarded := by
  have hrun : (path step Ok newReader
      [.child (lit "CHILD#a") [], .tick fun _ => true, .master (lit "MASTER#a#127.0.0.1:9002") [],
        .cacheServer (lit "SUCCESS#a#127.0.0.1:9002#1"), .child (lit "CHILD#a") []]).map waiting =
      some [⟨.cacheServer (lit "127.0.0.1:9002"), lit "a"⟩] := by
    decide +kernel
  obtain ⟨s, hs, hwaiting⟩ := Option.map_eq_some_iff.mp hrun
  exact ⟨s, hs, hwaiting, (unanswered_guarded_iff (reach_of_path init_newReader hs)).1⟩

/-- Two keys before the master answers: the timer sends the second one again, and the first one waits for
ever. -/
theorem first_key_unguarded : ∃ s, Reach Init step (fun _ _ => True) s ∧
    s.waiting = [⟨.master, lit "a"⟩] ∧ ¬ s.Guarded := by
  have hrun : (path step (fun _ _ => True) newReader
      [.child (lit "CHILD#a") [], .child (lit "CHILD#b") [], .tick fun _ => true, .tick fun _ => true,
        .tick fun _ => true, .tick fun _ => true, .tick fun _ => true]).map (fun s =>
          (s.waiting, s.client.master.timer.running)) = some ([⟨.master, lit "a"⟩], false) := by
    decide +kernel
  obtain ⟨s, hs, hf⟩ := Option.map_eq_some_iff.mp hrun
  rw [Prod.mk.injEq] at hf
  refine ⟨s, reach_of_path init_newReader hs, hf.1, fun hg => ?_⟩
  obtain ⟨r, hr, hguards⟩ := hg ⟨.master, lit "a"⟩ (by rw [hf.1]; exact List.mem_singleton_self _)
  cases hr
  rw [hguards.armed.running] at hf
  cases hf.2

end Session

end DistCache
