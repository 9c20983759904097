import DistCache.Client.Fields
import DistCache.Fleet.Reads
import DistCache.Master.Pairing

/-!
The handlers of the whole system do not fail.

A client reads past the fields of a message that is too short, and stops a timer through a null pointer when
a reply names an address that it has not sent to.  The other parts of the system send it nothing of the
kind: from new clients and servers, while the master is in one state in which it has an address for every
key, every event that can come is handled, whatever the order of the messages (`handles_every_event`).
-/

namespace DistCache

open Lib

namespace Client

variable {c c' c'' : Client} {out : Option Outgoing} {l : List Outgoing} {addr : Str} {peer : Peer}

/-- The address has a timer. -/
def HasTimer (c : Client) (addr : Str) : Prop := (c.slot (.cacheServer addr)).isSome = true

/-- The timers stay, and every address that is sent to has one. -/
structure Keeps (c c' : Client) (out : List Outgoing) : Prop where
  old : ∀ addr, c.HasTimer addr → c'.HasTimer addr
  new : ∀ o ∈ out, ∀ addr, o.peer = .cacheServer addr → c'.HasTimer addr

lemma Keeps.of_slot (hslot : ∀ peer, c'.slot peer = c.slot peer) : Keeps c c' [] where
  old addr h := by
    rw [HasTimer, hslot]
    exact h
  new o ho := absurd ho List.not_mem_nil

lemma Keeps.trans (h : Keeps c c' []) (h' : Keeps c' c'' l) : Keeps c c'' l :=
  ⟨fun addr ha => h'.old addr (h.old addr ha), h'.new⟩

lemma Sends.keeps (hs : Sends c c' out) : Keeps c c' out.toList := by
  cases hs with
  | nothing hslot => exact .of_slot hslot
  | @request o t hother hslot _ _ =>
    have hnew : ∀ addr, o.peer = .cacheServer addr → c'.HasTimer addr := by
      intro addr hpeer
      rw [HasTimer, ← hpeer, hslot]
      rfl
    refine ⟨fun addr ha => ?_, fun o' ho' addr hpeer => ?_⟩
    · by_cases hpeer : Peer.cacheServer addr = o.peer
      · exact hnew addr hpeer.symm
      · rw [HasTimer, hother _ hpeer]
        exact ha
    · rw [Option.toList_some, List.mem_singleton] at ho'
      subst ho'
      exact hnew addr hpeer

lemma Stops.keeps (hs : Stops c c' peer) : Keeps c c' [] := by
  refine ⟨fun addr ha => ?_, fun o ho => absurd ho List.not_mem_nil⟩
  by_cases hpeer : Peer.cacheServer addr = peer
  · obtain ⟨r, -, hnew⟩ := hs.stopped
    rw [HasTimer, hpeer, hnew]
    rfl
  · rw [HasTimer, hs.other _ hpeer]
    exact ha

/-- A tick keeps the timers, and only timers send. -/
lemma keeps_timerHandler (c : Client) (order : List Str) : Keeps c c.timerHandler (c.resent order) := by
  have htick : ∀ addr, c.timerHandler.HasTimer addr ↔ c.HasTimer addr := fun addr => by
    rw [HasTimer, timerHandler_slot, Option.isSome_map]
    rfl
  refine ⟨fun addr => (htick addr).mpr, fun o ho addr hpeer => (htick addr).mpr ?_⟩
  rcases List.mem_append.mp ho with ho | ho
  · split_ifs at ho
    · rw [List.mem_singleton.mp ho] at hpeer
      cases hpeer
    · exact absurd ho List.not_mem_nil
  · obtain ⟨addr', -, ho⟩ := List.mem_filterMap.mp ho
    obtain ⟨r, hr, ho⟩ := Option.bind_eq_some_iff.mp ho
    split_ifs at ho
    cases ho
    cases hpeer
    exact Option.isSome_of_eq_some hr

/-! ### What the handlers survive -/

variable {m : Master} {key value : Word}

/-- An address that the master gives can be taken apart. -/
lemma two_fields (h : m.Places key addr) : ∃ ip port l, split addr colon = ip :: port :: l := by
  simp only [Master.Places, Master.handleClientMessage, Option.bind_eq_bind, Option.bind_eq_some_iff,
    Option.pure_def, Option.some.injEq] at h
  obtain ⟨fd, -, e, -, ip, -, port, hport, rfl⟩ := h
  have hport := (mem_splitSharp (List.mem_of_getElem? hport)).ne_nil
  apply split_two_iff.mpr
  by_cases hcolon : colon ∈ ip
  · obtain ⟨f, rest, rfl, hf⟩ := List.eq_append_cons_of_mem hcolon
    exact ⟨f, rest ++ colon :: port, hf, by simp, by simp⟩
  · exact ⟨ip, port, hcolon, hport, rfl⟩

lemma exists_requestByMode (h : m.Places key addr) (k v : Str) : ∃ r, c.requestByMode addr k v = some r := by
  obtain ⟨ip, port, l, hsplit⟩ := two_fields h
  have hrequest (w : Str) : ∃ c', c.requestToCacheServer addr k w = some c' := by
    unfold requestToCacheServer
    rw [hsplit]
    exact ⟨_, rfl⟩
  unfold requestByMode
  split_ifs
  · obtain ⟨c', hc'⟩ := hrequest []
    rw [hc']
    exact ⟨_, rfl⟩
  · obtain ⟨c', hc'⟩ := hrequest v
    rw [hc']
    exact ⟨_, rfl⟩
  · exact ⟨_, rfl⟩

lemma Proper.exists_dealwithChild (h : c.Proper m.Places) (key value : Word) :
    ∃ r, c.dealwithChild (lit "CHILD#" ++ key) value = some r := by
  unfold Client.dealwithChild
  rw [split_child]
  dsimp only
  rw [if_pos rfl]
  split
  next addr localLru hget =>
    have hplaces : m.Places key addr := h.placed.of_get (by rw [hget])
    exact exists_requestByMode hplaces _ _
  next => exact ⟨_, rfl⟩

lemma exists_dealwithMaster (c : Client) (h : m.Places key addr) (value : Word) :
    ∃ r, c.dealwithMaster (lit "MASTER#" ++ key ++ sharp :: addr) value = some r := by
  unfold Client.dealwithMaster
  rw [split_master key h.isField]
  dsimp only
  rw [if_pos rfl]
  exact exists_requestByMode h _ _

lemma exists_dealwithCacheServer {message state k : Str} {l : List Str}
    (hsplit : split message sharp = state :: k :: addr :: l) (htimer : c.HasTimer addr) :
    ∃ c', c.dealwithCacheServer message = some c' := by
  obtain ⟨r, hr⟩ := Option.isSome_iff_exists.mp htimer
  have herase := eraseItemFromRequestMap_slot c addr k (.cacheServer addr)
  rw [hr] at herase
  have hstop (c₁ : Client) (hc₁ : c₁.slot (.cacheServer addr) = some r) : ∃ c', c₁.stopTimer addr = some c' := by
    unfold stopTimer
    rw [show c₁.cacheServerTimers.lookup addr = some r from hc₁]
    exact ⟨_, rfl⟩
  unfold dealwithCacheServer
  rw [hsplit]
  dsimp only
  split_ifs
  · exact hstop _ herase
  · exact hstop _ herase
  · exact ⟨c, rfl⟩

end Client

/-- The reply of a request names the address of its server. -/
lemma Answered.Current.split {d : Answered} {before : List Answered} (h : d.Current before) :
    ∃ state k l, Client.split d.reply sharp = state :: k :: d.addr :: l := by
  unfold Current at h
  split at h
  next key value hd => exact ⟨_, _, _, h⟩
  next key hd =>
    by_cases hheld : key.1 ∈ Request.held 10 (requestsAt d.addr before)
    · obtain ⟨v, -, h⟩ := h.1 hheld
      exact ⟨_, _, _, h⟩
    · exact ⟨_, _, _, h.2 hheld⟩

namespace Fleet

open Client

variable {m : Master} {f f' : Fleet} {i : ℕ} {c : Client} {out : List Outgoing} {x : Packet} {e : Event}
  {value : Word}

/-- A client has a timer for every address from which a reply to it can come. -/
structure Timed (f : Fleet) : Prop where
  mail : ∀ i addr message, Packet.request i addr message ∈ f.mail → (f.clients i).HasTimer addr
  log : ∀ h ∈ f.log, (f.clients h.client).HasTimer h.addr

lemma timed_init (h : Init f) : f.Timed := by
  refine ⟨fun i addr message hx => ?_, fun e he => ?_⟩
  · rw [h.mail] at hx
    exact absurd hx List.not_mem_nil
  · rw [h.log] at he
    exact absurd he List.not_mem_nil

lemma hasTimer_update {addr : Str} {j : ℕ} (hc : Keeps (f.clients i) c out)
    (h : (f.clients j).HasTimer addr) : (Function.update f.clients i c j).HasTimer addr := by
  by_cases hj : j = i
  · subst hj
    rw [Function.update_self]
    exact hc.old addr h
  · rw [Function.update_of_ne hj]
    exact h

lemma Timed.post (h : f.Timed) (hc : Keeps (f.clients i) c out) : (f.post i c out).Timed := by
  refine ⟨fun j addr message hx => ?_, fun e he => hasTimer_update hc (h.log e he)⟩
  rcases List.mem_append.mp hx with hx | hx
  · exact hasTimer_update hc (h.mail j addr message hx)
  · obtain ⟨o, ho, heq⟩ := List.mem_map.mp hx
    unfold Outgoing.packet at heq
    split at heq
    next => cases heq
    next addr' hpeer =>
      cases heq
      dsimp only [Fleet.post]
      rw [Function.update_self]
      exact hc.new o ho addr hpeer

lemma Timed.lose (h : f.Timed) (n : ℕ) : ({ f with mail := f.mail.eraseIdx n } : Fleet).Timed :=
  ⟨fun i addr message hx => h.mail i addr message (List.mem_of_mem_eraseIdx hx), h.log⟩

lemma Timed.receive (h : f.Timed) (hi : f.Consistent m)
    (hx : ∀ i addr message, x = .request i addr message → (f.clients i).HasTimer addr)
    (hs : f.receive m value x = some f') : f'.Timed := by
  cases x with
  | lookup i key =>
    obtain ⟨text, -, rfl⟩ := Option.map_eq_some_iff.mp hs
    refine ⟨fun j addr message hmem => ?_, h.log⟩
    rcases List.mem_append.mp hmem with hmem | hmem
    · exact h.mail j addr message hmem
    · cases List.mem_singleton.mp hmem
  | location i message =>
    simp only [Fleet.receive] at hs
    split_ifs at hs
    obtain ⟨⟨c, out⟩, hc, rfl⟩ := Option.map_eq_some_iff.mp hs
    obtain ⟨-, c₁, hstops, hsends⟩ := sends_dealwithMaster (hi.clients i).sound hc
    exact h.post (hstops.keeps.trans hsends.keeps)
  | request i addr message =>
    simp only [Fleet.receive] at hs
    split at hs
    next =>
      cases hs
      exact h
    next c hc =>
      obtain ⟨r, hr, rfl⟩ := Option.map_eq_some_iff.mp hs
      refine ⟨fun j addr' message' hmem => ?_, fun e he => ?_⟩
      · rcases List.mem_append.mp hmem with hmem | hmem
        · exact h.mail j addr' message' hmem
        · cases List.mem_singleton.mp hmem
      · rcases List.mem_append.mp he with he | he
        · exact h.log e he
        · rw [List.mem_singleton.mp he]
          exact hx i addr message rfl
  | reply i message =>
    simp only [Fleet.receive] at hs
    split_ifs at hs
    obtain ⟨c, hc, rfl⟩ := Option.map_eq_some_iff.mp hs
    refine h.post ?_
    rcases dealwithCacheServer_cases hc with ⟨addr, -, hstops⟩ | ⟨-, rfl⟩
    · exact hstops.keeps
    · exact .of_slot fun _ => rfl

/-- Every step keeps the timers. -/
lemma Timed.step (h : f.Timed) (hi : f.Consistent m) (hs : f.step m e = some f') : f'.Timed := by
  cases e with
  | child i key value =>
    simp only [Fleet.step] at hs
    split_ifs at hs
    obtain ⟨⟨c, out⟩, hc, rfl⟩ := Option.map_eq_some_iff.mp hs
    exact h.post (sends_dealwithChild (hi.clients i).sound hc).2.keeps
  | deliver n value =>
    obtain ⟨x, hx, hs⟩ := Option.bind_eq_some_iff.mp hs
    refine (h.lose n).receive (hi.lose n) (fun i addr message heq => ?_) hs
    exact h.mail i addr message (heq ▸ List.mem_of_getElem? hx)
  | lose n =>
    cases hs
    exact h.lose n
  | check i order =>
    simp only [Fleet.step] at hs
    split_ifs at hs
    cases hs
    have hpost : (f.post i (f.clients i).clearLost []).Timed :=
      h.post (.of_slot fun peer => by cases peer <;> rfl)
    exact ⟨hpost.mail, hpost.log⟩
  | resend i =>
    simp only [Fleet.step] at hs
    split at hs
    next key lost hlost =>
      cases hs
      have hpost := h.post (sends_sendRequestToMaster (hi.clients i).sound key).keeps
      exact ⟨hpost.mail, hpost.log⟩
    next => cases hs
  | tick i order =>
    simp only [Fleet.step] at hs
    split_ifs at hs
    cases hs
    exact h.post (keeps_timerHandler _ order)

lemma timed_of_reach (h : Reach Init (step m) (fun _ _ => True) f) : f.Timed :=
  h.invariant (fun _ => timed_init) fun _ _ _ hr hi _ hs => hi.step (consistent_of_reach hr) hs

/-- The receiver of a message is in its loop. -/
def Ready (f : Fleet) : Packet → Prop
  | .location i _ | .reply i _ => f.lost i = []
  | .lookup .. | .request .. => True

instance decidableReady (f : Fleet) : (x : Packet) → Decidable (f.Ready x)
  | .location i _ | .reply i _ => inferInstanceAs (Decidable (f.lost i = []))
  | .lookup .. | .request .. => isTrue trivial

/-- The event can come: the client is in its loop, the message is there, a pass has a key left, and the
orders are orders of what the maps hold. -/
def Possible (f : Fleet) : Event → Prop
  | .child i _ _ => f.lost i = []
  | .deliver n _ => ∃ x, f.mail[n]? = some x ∧ f.Ready x
  | .lose _ => True
  | .check i order => f.lost i = [] ∧ order.Nodup ∧ order.toFinset = (f.clients i).requestMap.keys
  | .resend i => f.lost i ≠ []
  | .tick i order => order.Nodup ∧ order.toFinset = (f.clients i).cacheServerTimers.keys

/-- A message that is proper can be handled. -/
lemma Consistent.exists_receive (h : f.Consistent m) (htimed : f.Timed)
    (hplaces : ∀ key : Word, ∃ addr, m.Places key addr) (hx : x.Proper m.Places f.log)
    (hfree : f.Ready x) (value : Word) : ∃ f', f.receive m value x = some f' := by
  cases x with
  | lookup i key =>
    obtain ⟨addr, haddr⟩ := hplaces ⟨key, hx⟩
    have htext : m.startClient key = some (lit "MASTER#" ++ key ++ sharp :: addr) := by
      rw [Master.startClient, show m.handleClientMessage key = some addr from haddr]
      rfl
    exact ⟨_, Option.map_eq_some_iff.mpr ⟨_, htext, rfl⟩⟩
  | location i message =>
    obtain ⟨key, addr, haddr, rfl⟩ := hx
    obtain ⟨r, hr⟩ := exists_dealwithMaster (f.clients i) haddr value
    have hlost : f.lost i = [] := hfree
    simp only [Fleet.receive]
    rw [if_pos hlost, hr]
    exact ⟨_, rfl⟩
  | request i addr message =>
    obtain ⟨request, rfl, haddr⟩ := hx
    simp only [Fleet.receive]
    split
    next => exact ⟨f, rfl⟩
    next c hc =>
      obtain ⟨l, hrec⟩ := h.recorded
      obtain ⟨c', reply, hchat, -⟩ := (hrec.served addr c hc).answered haddr.isField request
      rw [hchat]
      exact ⟨_, rfl⟩
  | reply i message =>
    obtain ⟨e, he, rfl, rfl⟩ := hx
    have htimer := htimed.log e he
    obtain ⟨l, hrec⟩ := h.recorded
    rw [hrec.log] at he
    obtain ⟨d, hd, rfl⟩ := List.mem_map.mp he
    obtain ⟨before, after, heq⟩ := List.append_of_mem hd
    obtain ⟨state, k, tail, hsplit⟩ := (hrec.right before d after heq).current.split
    obtain ⟨c, hc⟩ := exists_dealwithCacheServer (c := f.clients d.client) hsplit htimer
    have hlost : f.lost d.entry.client = [] := hfree
    simp only [Fleet.receive]
    rw [if_pos hlost]
    exact ⟨_, Option.map_eq_some_iff.mpr ⟨c, hc, rfl⟩⟩

lemma Consistent.exists_step (h : f.Consistent m) (htimed : f.Timed)
    (hplaces : ∀ key : Word, ∃ addr, m.Places key addr) (he : f.Possible e) : ∃ f', f.step m e = some f' := by
  cases e with
  | child i key value =>
    obtain ⟨r, hr⟩ := (h.clients i).exists_dealwithChild key value
    have hlost : f.lost i = [] := he
    simp only [Fleet.step]
    rw [if_pos hlost, hr]
    exact ⟨_, rfl⟩
  | deliver n value =>
    obtain ⟨x, hx, hfree⟩ := he
    obtain ⟨f', hf'⟩ := (h.lose n).exists_receive (htimed.lose n) hplaces
      (h.mail x (List.mem_of_getElem? hx)) hfree value
    refine ⟨f', ?_⟩
    simp only [Fleet.step]
    rw [hx, Option.bind_some]
    exact hf'
  | lose n => exact ⟨_, rfl⟩
  | check i order => exact ⟨_, if_pos he⟩
  | resend i =>
    obtain ⟨key, lost, hlost⟩ := List.exists_cons_of_ne_nil he
    simp only [Fleet.step, hlost]
    exact ⟨_, rfl⟩
  | tick i order => exact ⟨_, if_pos he⟩

/-- A master that serves one of its reached states answers every key. -/
lemma exists_places {w : World} (hw : Reach World.Init World.step
      (fun w e => World.Atomic w e ∧ World.PopsSound w e) w) (hidle : w.shrinking = none)
    (hring : w.master.cacheAddrHash.key2Index.keys.Nonempty) (key : Str) :
    ∃ addr, w.master.Places key addr := by
  have hi := World.ringInv_of_reach (hw.mono fun _ _ hok => hok.1.undisturbed)
  obtain ⟨p, hp⟩ := exists_clockwise hring (murmur3_32 key)
  obtain ⟨index, hindex⟩ := Finmap.mem_iff.mp (Finmap.mem_keys.mp (clockwise_mem hp))
  have hlt := hi.lookup_lt hidle hindex
  have hfd : w.master.lookupFd key = some w.master.fdNode[index] := by
    have hserver : w.master.cacheAddrHash.getServer key = some p := hp
    simp only [Master.lookupFd, Master.lookupIndex, hserver, hindex, Option.bind_eq_bind, Option.bind_some]
    exact List.getElem?_eq_getElem hlt
  obtain ⟨e, ip, port, -, -, -, -, haddr⟩ := (World.sound_of_reach hw).handleClientMessage hfd
  exact ⟨_, haddr⟩

/-- **Nothing fails.**  The master stays in a state that it has reached with only time between the halves of a
shrink (`Atomic`) and while what is taken off its stacks waits (`PopsSound`); no shrink is under way, and the
ring is not empty.  Then from new clients and servers that have served nobody, in every interleaving of the
whole system, every event that can come is handled: no client reads past a message or stops a timer that is
not there. -/
theorem handles_every_event {w : World} (hw : Reach World.Init World.step
      (fun w e => World.Atomic w e ∧ World.PopsSound w e) w) (hidle : w.shrinking = none)
    (hring : w.master.cacheAddrHash.key2Index.keys.Nonempty)
    (h : Reach Init (step w.master) (fun _ _ => True) f) (he : f.Possible e) :
    ∃ f', f.step w.master e = some f' :=
  (consistent_of_reach h).exists_step (timed_of_reach h)
    (fun key => exists_places hw hidle hring key) he

/-- The reply to a read is on its way, and the reader can take it. -/
theorem handles_every_event_twoClients : ∃ w f f',
    path World.step (fun w e => World.Atomic w e ∧ World.PopsSound w e) (World.start 1638316800)
      World.onePrimary = some w ∧
    path (step w.master) (fun _ _ => True) twoClients writeThenRead = some f ∧
    f.step w.master (.deliver 0 (word "1" (by decide))) = some f' := by
  have hrun : ((path World.step (fun w e => World.Atomic w e ∧ World.PopsSound w e) (World.start 1638316800)
      World.onePrimary).bind fun w =>
        (path (step w.master) (fun _ _ => True) twoClients writeThenRead).map fun f =>
          (w.shrinking.isNone, decide (w.master.cacheAddrHash.key2Index.keys = ∅),
            f.mail[0]?.map fun x => decide (f.Ready x))) = some (true, false, some true) := by
    decide +kernel
  obtain ⟨w, hw, hf⟩ := Option.bind_eq_some_iff.mp hrun
  obtain ⟨f, hf, hfacts⟩ := Option.map_eq_some_iff.mp hf
  simp only [Prod.mk.injEq, Option.isNone_iff_eq_none, decide_eq_false_iff_not] at hfacts
  obtain ⟨hidle, hring, hmail⟩ := hfacts
  obtain ⟨x, hx, hready⟩ := Option.map_eq_some_iff.mp hmail
  obtain ⟨f', hf'⟩ := handles_every_event (e := .deliver 0 (word "1" (by decide)))
    (reach_of_path ⟨_, rfl⟩ hw) hidle (Finset.nonempty_iff_ne_empty.mpr hring)
    (reach_of_path init_twoClients hf) ⟨x, hx, of_decide_eq_true hready⟩
  exact ⟨w, f, f', hw, hf, hf'⟩

end Fleet

end DistCache
