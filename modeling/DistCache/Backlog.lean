import DistCache.Sends
import DistCache.Lib.Inbox

/-!
How late a cache hears of a change.

The callback of `Heartbeat` sends a heartbeat and then takes one message, if one is there.  The master answers
each heartbeat with one message, and sends the messages on changes besides.  So what is sent besides the
answers, and what a callback did not find, is never made up for: the messages that wait are as many
(`backlog_stays`).
-/

namespace DistCache

open Lib

/-- A cache and its connection: the heartbeats and the messages on their way, and the numbers of callbacks that
found no message and of messages that are no answers. -/
structure CacheLink where
  cache : Cache
  beats : List Str
  inbox : List Str
  misses : ℕ
  extras : ℕ

namespace CacheLink

/-- The callback of `Heartbeat`.  Without a message its buffer is empty, and a cache that is not initialised
does not read it. -/
def callback (flowOff : Str → ℤ) (l : CacheLink) : Option CacheLink :=
  let beats := l.beats ++ [l.cache.heartMessage]
  match l.inbox with
  | message :: inbox => (l.cache.receive flowOff message).map fun cache => { l with cache, beats, inbox }
  | [] =>
    if l.cache.initialFlag then (l.cache.readFromMaster flowOff []).map fun cache =>
      { l with cache, beats, misses := l.misses + 1 }
    else some { l with beats, misses := l.misses + 1 }

/-- The master has sent `messages`, of which `answers` are answers. -/
def posted (l : CacheLink) (messages : List Str) (answers : ℕ) : CacheLink :=
  { l with inbox := l.inbox ++ messages, extras := l.extras + (messages.length - answers) }

/-- What has been sent by either side and has not been read. -/
def waiting (l : CacheLink) : ℕ := l.beats.length + l.inbox.length

end CacheLink

/-- The world of the master, and the connections that are open. -/
structure Links where
  world : World
  links : ℤ → Option CacheLink

namespace Links

inductive Event where
  /-- A cache is started and connects. -/
  | accept (fd cacheSizeLocal : ℤ) (status ip portClient portCache : Str)
  /-- The timer of a cache runs out. -/
  | callback (fd : ℤ)
  /-- The master reads a heartbeat. -/
  | read (fd : ℤ)
  /-- A pass of `periodicDetectCache` comes to the entry `fd`. -/
  | detect (fd : ℤ)
  /-- `shrinkageCapacity` up to its broadcast. -/
  | shrinkBegin
  /-- `shrinkageCapacity` after its wait. -/
  | shrinkEnd
  /-- A second passes. -/
  | tick

/-- A piece of a thread of the master, which answers a heartbeat of `answered`. -/
def master (s : Links) (e : DistCache.Event) (answered : Option ℤ) : Option Links :=
  (s.world.exec e).map fun r => ⟨r.1, fun fd =>
    if fd ∈ r.1.openFds then (s.links fd).map fun l =>
      l.posted (addressed r.2 fd) (if answered = some fd then 1 else 0)
    else none⟩

/-- The state after an event. -/
def step (flowOff : Str → ℤ) (s : Links) : Event → Option Links
  | .accept fd cacheSizeLocal status ip portClient portCache =>
    (s.master (.accept fd) none).map fun s => { s with
      links := Function.update s.links fd <| some
        ⟨Cache.new cacheSizeLocal status ip portClient portCache, [], [], 0, 0⟩ }
  | .callback fd => do
    let l ← s.links fd
    let l ← l.callback flowOff
    return { s with links := Function.update s.links fd (some l) }
  | .read fd => do
    let l ← s.links fd
    match l.beats with
    | beat :: beats =>
      master { s with links := Function.update s.links fd (some { l with beats }) } (.receive fd beat) (some fd)
    | [] => none
  | .detect fd => s.master (.detect fd) none
  | .shrinkBegin => s.master .shrinkBegin none
  | .shrinkEnd => s.master .shrinkEnd none
  | .tick => s.master .tick none

/-- The master has started, and no cache is there. -/
def Init (s : Links) : Prop := ∃ t₀, s = ⟨World.start t₀, fun _ => none⟩

variable {flowOff : Str → ℤ} {s s' : Links} {l l' : CacheLink} {fd a : ℤ} {e : Event}

/-! ### What is never made up for -/

/-- What waits is what was sent besides the answers, and what was not found. -/
structure Balanced (l : CacheLink) : Prop where
  beats : ∀ beat ∈ l.beats, beat.head? = some 120
  waiting : l.waiting = l.misses + l.extras

/-- Nothing is taken back. -/
structure Grows (l l' : CacheLink) : Prop where
  misses : l.misses ≤ l'.misses
  extras : l.extras ≤ l'.extras

lemma Grows.refl (l : CacheLink) : Grows l l := ⟨le_rfl, le_rfl⟩

lemma Balanced.callback (h : Balanced l) (hl : l.callback flowOff = some l') :
    Balanced l' ∧ Grows l l' := by
  have hbeats : ∀ beat ∈ l.beats ++ [l.cache.heartMessage], beat.head? = some 120 := by
    intro beat hbeat
    rcases List.mem_append.mp hbeat with hbeat | hbeat
    · exact h.beats beat hbeat
    · rw [List.mem_singleton.mp hbeat]
      rfl
  have hwaiting := h.waiting
  unfold CacheLink.waiting at hwaiting
  unfold CacheLink.callback at hl
  split at hl
  next message inbox hinbox =>
    obtain ⟨cache, -, rfl⟩ := Option.map_eq_some_iff.mp hl
    rw [hinbox, List.length_cons] at hwaiting
    refine ⟨⟨hbeats, ?_⟩, le_rfl, le_rfl⟩
    simp only [CacheLink.waiting, List.length_append, List.length_singleton]
    omega
  next hinbox =>
    have hmiss : ∀ cache : Cache, Balanced { l with
        cache := cache
        beats := l.beats ++ [l.cache.heartMessage]
        misses := l.misses + 1 } := by
      intro cache
      refine ⟨hbeats, ?_⟩
      simp only [CacheLink.waiting, List.length_append, List.length_singleton]
      omega
    split_ifs at hl
    · obtain ⟨cache, -, rfl⟩ := Option.map_eq_some_iff.mp hl
      exact ⟨hmiss cache, Nat.le_succ _, le_rfl⟩
    · cases hl
      exact ⟨hmiss l.cache, Nat.le_succ _, le_rfl⟩

/-- A message besides the answers. -/
lemma Balanced.posted (h : Balanced l) (messages : List Str) :
    Balanced (l.posted messages 0) ∧ Grows l (l.posted messages 0) := by
  have hwaiting := h.waiting
  refine ⟨⟨h.beats, ?_⟩, le_rfl, Nat.le_add_right _ _⟩
  simp only [CacheLink.waiting, CacheLink.posted, List.length_append] at hwaiting ⊢
  omega

/-- A heartbeat is read, and its answer is among the messages. -/
lemma Balanced.answered {beat : Str} {beats messages : List Str} (h : Balanced l)
    (hbeats : l.beats = beat :: beats) (hmessages : messages ≠ []) :
    Balanced ({ l with beats := beats }.posted messages 1) ∧
      Grows l ({ l with beats := beats }.posted messages 1) := by
  have hwaiting := h.waiting
  have hpos := List.length_pos_iff.mpr hmessages
  refine ⟨⟨fun x hx => h.beats x (hbeats ▸ List.mem_cons_of_mem beat hx), ?_⟩, le_rfl, Nat.le_add_right _ _⟩
  simp only [CacheLink.waiting, CacheLink.posted, hbeats, List.length_cons, List.length_append] at hwaiting ⊢
  omega

/-- A heartbeat is answered. -/
lemma addressed_receive_ne_nil {w w' : World} {beat : Str} {sends : List (ℤ × Str)}
    (h : w.exec (.receive fd beat) = some (w', sends)) (hbeat : beat.head? = some 120) :
    addressed sends fd ≠ [] := by
  simp only [World.exec] at h
  split_ifs at h
  obtain ⟨out, hout, heq⟩ := Option.map_eq_some_iff.mp h
  cases heq
  rw [Master.receive, if_pos hbeat] at hout
  obtain ⟨out₁, answer, -, -, hsends, -, -⟩ := Master.heartbeat_sends hout
  rw [hsends, addressed_append, addressed_cons, if_pos rfl]
  simp

/-! ### A step -/

/-- All connections are balanced. -/
def Inv (s : Links) : Prop := ∀ a l, s.links a = some l → Balanced l

/-- What a piece of a thread of the master leaves of a connection. -/
lemma master_links {ev : DistCache.Event} {answered : Option ℤ} (h : s.master ev answered = some s')
    (hl' : s'.links a = some l') : ∃ w' sends l, s.world.exec ev = some (w', sends) ∧ s.links a = some l ∧
      l' = l.posted (addressed sends a) (if answered = some a then 1 else 0) := by
  obtain ⟨⟨w', sends⟩, hw, rfl⟩ := Option.map_eq_some_iff.mp h
  dsimp only at hl'
  split_ifs at hl' <;> obtain ⟨l, hl, rfl⟩ := Option.map_eq_some_iff.mp hl'
  · rename_i ha
    exact ⟨w', sends, l, hw, hl, by rw [if_pos ha]⟩
  · rename_i ha
    exact ⟨w', sends, l, hw, hl, by rw [if_neg ha]⟩

lemma master_none {ev : DistCache.Event} (hi : s.Inv) (h : s.master ev none = some s')
    (hl' : s'.links a = some l') : Balanced l' ∧ ∃ l, s.links a = some l ∧ Grows l l' := by
  obtain ⟨-, sends, l, -, hl, rfl⟩ := master_links h hl'
  obtain ⟨hbalanced, hgrows⟩ := (hi a l hl).posted (addressed sends a)
  exact ⟨hbalanced, l, hl, hgrows⟩

lemma master_read {beat : Str} {beats : List Str} (hi : s.Inv) (hl : s.links fd = some l)
    (hbeats : l.beats = beat :: beats)
    (h : master { s with links := Function.update s.links fd (some { l with beats }) }
      (.receive fd beat) (some fd) = some s')
    (hl' : s'.links a = some l') : Balanced l' ∧ ∃ l, s.links a = some l ∧ Grows l l' := by
  obtain ⟨w', sends, l₁, hw, hl₁, rfl⟩ := master_links h hl'
  dsimp only at hl₁
  by_cases ha : a = fd
  · subst ha
    rw [Function.update_self, Option.some.injEq] at hl₁
    subst hl₁
    have hbalanced := hi a l hl
    have hne := addressed_receive_ne_nil hw (hbalanced.beats beat (hbeats ▸ List.mem_cons_self))
    rw [if_pos rfl]
    exact ⟨(hbalanced.answered hbeats hne).1, l, hl, (hbalanced.answered hbeats hne).2⟩
  · rw [Function.update_of_ne ha] at hl₁
    have hne : ¬ some fd = some a := fun heq => ha (Option.some.inj heq).symm
    rw [if_neg hne]
    obtain ⟨hbalanced, hgrows⟩ := (hi a l₁ hl₁).posted (addressed sends a)
    exact ⟨hbalanced, l₁, hl₁, hgrows⟩

/-- A connection that is there after a step is balanced; it was there before, and nothing of it is taken back,
if it has not just been opened. -/
lemma step_links (hi : s.Inv) (h : s.step flowOff e = some s') (hl' : s'.links a = some l') :
    Balanced l' ∧ ((∀ size status ip portClient portCache, e ≠ .accept a size status ip portClient portCache) →
      ∃ l, s.links a = some l ∧ Grows l l') := by
  cases e with
  | accept fd size status ip portClient portCache =>
    obtain ⟨s₁, hs₁, rfl⟩ := Option.map_eq_some_iff.mp h
    by_cases ha : a = fd
    · subst ha
      dsimp only at hl'
      rw [Function.update_self, Option.some.injEq] at hl'
      subst hl'
      exact ⟨⟨fun beat hbeat => absurd hbeat List.not_mem_nil, rfl⟩, fun hne => absurd rfl (hne _ _ _ _ _)⟩
    · dsimp only at hl'
      rw [Function.update_of_ne ha] at hl'
      obtain ⟨hbalanced, hgrows⟩ := master_none hi hs₁ hl'
      exact ⟨hbalanced, fun _ => hgrows⟩
  | callback fd =>
    simp only [step, Option.bind_eq_bind, Option.bind_eq_some_iff, Option.pure_def, Option.some.injEq] at h
    obtain ⟨l₀, hl₀, l₁, hl₁, rfl⟩ := h
    dsimp only at hl'
    by_cases ha : a = fd
    · subst ha
      rw [Function.update_self, Option.some.injEq] at hl'
      subst hl'
      obtain ⟨hbalanced, hgrows⟩ := (hi a l₀ hl₀).callback hl₁
      exact ⟨hbalanced, fun _ => ⟨l₀, hl₀, hgrows⟩⟩
    · rw [Function.update_of_ne ha] at hl'
      exact ⟨hi a l' hl', fun _ => ⟨l', hl', .refl l'⟩⟩
  | read fd =>
    simp only [step, Option.bind_eq_bind, Option.bind_eq_some_iff] at h
    obtain ⟨l₀, hl₀, h⟩ := h
    split at h
    next beat beats hbeats =>
      obtain ⟨hbalanced, hgrows⟩ := master_read hi hl₀ hbeats h hl'
      exact ⟨hbalanced, fun _ => hgrows⟩
    next => cases h
  | detect | shrinkBegin | shrinkEnd | tick =>
    obtain ⟨hbalanced, hgrows⟩ := master_none hi h hl'
    exact ⟨hbalanced, fun _ => hgrows⟩

lemma inv_of_reach {ok : Links → Event → Prop} (h : Reach Init (step flowOff) ok s) : s.Inv := by
  refine h.invariant ?_ fun s e s' _ hi _ hs a l' hl' => (step_links hi hs hl').1
  rintro _ ⟨t₀, rfl⟩ a l hl
  cases hl

/-- The connection `fd` is not opened anew. -/
def Keeps (fd : ℤ) (_s : Links) : Event → Prop
  | .accept a .. => a ≠ fd
  | _ => True

instance decidableKeeps (fd : ℤ) (s : Links) : (e : Event) → Decidable (s.Keeps fd e)
  | .accept a .. => inferInstanceAs (Decidable (a ≠ fd))
  | .callback _ | .read _ | .detect _ | .shrinkBegin | .shrinkEnd | .tick => isTrue trivial

lemma Grows.trans {l'' : CacheLink} (h : Grows l l') (h' : Grows l' l'') : Grows l l'' :=
  ⟨h.misses.trans h'.misses, h.extras.trans h'.extras⟩

/-- A connection that lasts to the end of a run was there at its start. -/
lemma grows_of_run (hi : s.Inv) (hrun : Relation.ReflTransGen (Move (step flowOff) (Keeps fd)) s s') :
    s'.Inv ∧ ∀ l', s'.links fd = some l' → ∃ l, s.links fd = some l ∧ Grows l l' := by
  induction hrun with
  | refl => exact ⟨hi, fun l' hl' => ⟨l', hl', .refl l'⟩⟩
  | tail _ hmove ih =>
    obtain ⟨e, hok, hs⟩ := hmove
    refine ⟨fun a l' hl' => (step_links ih.1 hs hl').1, fun l'' hl'' => ?_⟩
    have hother : ∀ size status ip portClient portCache, e ≠ .accept fd size status ip portClient portCache := by
      rintro size status ip portClient portCache rfl
      exact hok rfl
    obtain ⟨l', hl', hgrows'⟩ := (step_links ih.1 hs hl'').2 hother
    obtain ⟨l, hl, hgrows⟩ := ih.2 l' hl'
    exact ⟨l, hl, hgrows.trans hgrows'⟩

/-- **What waits does not get less.**  In any run, the heartbeats and messages of a connection that have not been
read are as many as the messages besides the answers and the callbacks that found no message, and as long as
the connection lasts they never become fewer. -/
theorem backlog_stays (h : Reach Init (step flowOff) (fun _ _ => True) s) (hl : s.links fd = some l)
    (hrun : Relation.ReflTransGen (Move (step flowOff) (Keeps fd)) s s') (hl' : s'.links fd = some l') :
    l.waiting = l.misses + l.extras ∧ l'.waiting = l'.misses + l'.extras ∧ l.misses ≤ l'.misses ∧
      l.extras ≤ l'.extras ∧ l.waiting ≤ l'.waiting := by
  have hi := inv_of_reach h
  obtain ⟨hi', hgrows⟩ := grows_of_run hi hrun
  obtain ⟨l₀, hl₀, hgrows⟩ := hgrows l' hl'
  obtain rfl : l₀ = l := Option.some.inj (hl₀.symm.trans hl)
  have hwaiting := (hi fd l₀ hl).waiting
  have hwaiting' := (hi' fd l' hl').waiting
  have hmisses := hgrows.misses
  have hextras := hgrows.extras
  exact ⟨hwaiting, hwaiting', hmisses, hextras, by omega⟩

/-- The first heartbeat of a primary, and its answer. -/
def firstBeat : List Event :=
  [.accept 5 10 (lit "P") (lit "127.0.0.1") (lit "8001") (lit "9001"), .callback 5, .read 5]

/-- It finds no message, and the list and the notice of its own join come besides the answer: three messages
wait, and after the next heartbeat there are no fewer. -/
theorem backlog_stays_firstBeat : ∃ s s' l l',
    path (step fun _ => 0) (fun _ _ => True) ⟨World.start 1638316800, fun _ => none⟩ firstBeat = some s ∧
    path (step fun _ => 0) (Keeps 5) s [.callback 5, .read 5] = some s' ∧
    s.links 5 = some l ∧ s'.links 5 = some l' ∧ l.misses = 1 ∧ l.extras = 2 ∧ l.waiting ≤ l'.waiting := by
  have hrun : (path (step fun _ => 0) (fun _ _ => True) ⟨World.start 1638316800, fun _ => none⟩ firstBeat).bind
      (fun s => (path (step fun _ => 0) (Keeps 5) s [.callback 5, .read 5]).bind fun s' =>
        (s.links 5).bind fun l => (s'.links 5).map fun _ => (l.misses, l.extras)) = some (1, 2) := by
    decide +kernel
  obtain ⟨s, hs, hf⟩ := Option.bind_eq_some_iff.mp hrun
  obtain ⟨s', hs', hf⟩ := Option.bind_eq_some_iff.mp hf
  obtain ⟨l, hl, hf⟩ := Option.bind_eq_some_iff.mp hf
  obtain ⟨l', hl', hcounts⟩ := Option.map_eq_some_iff.mp hf
  obtain ⟨hmisses, hextras⟩ := Prod.mk.inj hcounts
  obtain ⟨_, rfl, hrun⟩ : Reach (fun s₀ => s₀ = s) (step fun _ => 0) (Keeps 5) s' := reach_of_path rfl hs'
  have hstays := backlog_stays (reach_of_path ⟨_, rfl⟩ hs) hl hrun hl'
  exact ⟨_, s', l, l', hs, hs', hl, hl', hmisses, hextras, hstays.2.2.2.2⟩

end Links

end DistCache
