import DistCache.Fleet.State
import DistCache.Lib.Transition

/-!
The addresses that the clients hold and that the messages in flight carry.

As long as the master names only some places for a key, these are all that its clients keep, send and
receive (`Held.step`).  A step hands at most one request to a cache server (`Serves`).
-/

namespace DistCache

open Lib

/-- What is right for some places is right for more of them. -/
lemma Outgoing.Proper.mono {places places' : Str → Str → Prop} {o : Outgoing}
    (hle : ∀ key addr, places key addr → places' key addr) (h : o.Proper places) : o.Proper places' := by
  unfold Outgoing.Proper at h ⊢
  split at h
  next => exact h
  next addr _ =>
    obtain ⟨request, htext, hplaces⟩ := h
    exact ⟨request, htext, hle _ _ hplaces⟩

lemma Client.Proper.mono {places places' : Str → Str → Prop} {c : Client}
    (hle : ∀ key addr, places key addr → places' key addr) (h : c.Proper places) : c.Proper places' where
  sound := h.sound
  placed := h.placed.mono hle
  slots peer r hr hrunning := (h.slots peer r hr hrunning).mono hle
  listed := h.listed

/-- A message in flight is what it should be; a reply has been given to its client. -/
def Packet.Proper (places : Str → Str → Prop) (log : List Handled) : Packet → Prop
  | .lookup _ key => IsField key
  | .location _ message => ∃ (key : Word) (addr : Str), places key addr ∧
      message = lit "MASTER#" ++ key ++ sharp :: addr
  | .request _ addr message => ∃ request : Request, message = request.text ∧ places request.key addr
  | .reply i message => ∃ h ∈ log, h.client = i ∧ h.reply = message

lemma Packet.Proper.mono {places places' : Str → Str → Prop} {log log' : List Handled} {x : Packet}
    (hle : ∀ key addr, places key addr → places' key addr) (hlog : log ⊆ log') (h : x.Proper places log) :
    x.Proper places' log' := by
  cases x with
  | lookup i key => exact h
  | location i message =>
    obtain ⟨key, addr, hplaces, hmessage⟩ := h
    exact ⟨key, addr, hle _ _ hplaces, hmessage⟩
  | request i addr message =>
    obtain ⟨request, hmessage, hplaces⟩ := h
    exact ⟨request, hmessage, hle _ _ hplaces⟩
  | reply i message =>
    obtain ⟨e, he, hclient, hreply⟩ := h
    exact ⟨e, hlog he, hclient, hreply⟩

namespace Fleet

variable {m : Master} {places places' : Str → Str → Prop} {f f' : Fleet} {i n : ℕ} {c : Client}
  {out : List Outgoing} {x : Packet} {value : Word} {e : Event}

/-- Nothing that the clients hold and nothing in flight is wrong. -/
structure Held (places : Str → Str → Prop) (f : Fleet) : Prop where
  clients : ∀ i, (f.clients i).Proper places
  lost : ∀ i, ∀ key ∈ f.lost i, IsField key
  mail : ∀ x ∈ f.mail, x.Proper places f.log

lemma held_init (places : Str → Str → Prop) (h : Init f) : f.Held places := by
  refine ⟨fun i => ?_, fun i key hkey => ?_, fun x hx => ?_⟩
  · obtain ⟨mode, cacheSizeLocal, hc⟩ := h.clients i
    rw [hc]
    exact Client.proper_new places mode cacheSizeLocal
  · rw [h.lost] at hkey
    exact absurd hkey List.not_mem_nil
  · rw [h.mail] at hx
    exact absurd hx List.not_mem_nil

lemma Held.mono (h : f.Held places) (hle : ∀ key addr, places key addr → places' key addr) :
    f.Held places' where
  clients i := (h.clients i).mono hle
  lost := h.lost
  mail x hx := (h.mail x hx).mono hle (List.Subset.refl _)

/-- The cache servers are no part of it. -/
lemma Held.setServers (h : f.Held places) (servers : Str → Option Cache) :
    ({ f with servers } : Fleet).Held places :=
  ⟨h.clients, h.lost, h.mail⟩

/-! ### Steps -/

lemma proper_packet (i : ℕ) {o : Outgoing} (ho : o.Proper places) (log : List Handled) :
    (o.packet i).Proper places log := by
  unfold Outgoing.packet
  unfold Outgoing.Proper at ho
  split at ho
  next => exact ho
  next => exact ho

/-- A handler that keeps its client proper and sends proper requests. -/
lemma Held.post (h : f.Held places) (hc : c.Proper places) (hout : ∀ o ∈ out, o.Proper places) :
    (f.post i c out).Held places := by
  refine ⟨fun j => ?_, h.lost, fun x hx => ?_⟩
  · dsimp only [Fleet.post]
    by_cases hj : j = i
    · subst hj
      rw [Function.update_self]
      exact hc
    · rw [Function.update_of_ne hj]
      exact h.clients j
  · rcases List.mem_append.mp hx with hx | hx
    · exact h.mail x hx
    · obtain ⟨o, ho, rfl⟩ := List.mem_map.mp hx
      exact proper_packet i (hout o ho) f.log

lemma Held.lose (h : f.Held places) (n : ℕ) :
    ({ f with mail := f.mail.eraseIdx n } : Fleet).Held places :=
  ⟨h.clients, h.lost, fun x hx => h.mail x (List.mem_of_mem_eraseIdx hx)⟩

lemma Held.setLost (h : f.Held places) {keys : List Str} (hkeys : ∀ key ∈ keys, IsField key) :
    ({ f with lost := Function.update f.lost i keys } : Fleet).Held places := by
  refine ⟨h.clients, fun j => ?_, h.mail⟩
  dsimp only
  by_cases hj : j = i
  · subst hj
    rw [Function.update_self]
    exact hkeys
  · rw [Function.update_of_ne hj]
    exact h.lost j

/-- A message that is proper arrives. -/
lemma Held.receive (h : f.Held places) (hle : ∀ key addr, m.Places key addr → places key addr)
    (hfield : ∀ key addr, places key addr → IsField addr) (hx : x.Proper places f.log)
    (hs : f.receive m value x = some f') : f'.Held places := by
  cases x with
  | lookup i key =>
    obtain ⟨text, htext, rfl⟩ := Option.map_eq_some_iff.mp hs
    refine ⟨h.clients, h.lost, fun x hx' => ?_⟩
    rcases List.mem_append.mp hx' with hx' | hx'
    · exact h.mail x hx'
    · rw [List.mem_singleton.mp hx']
      obtain ⟨addr, haddr, htext⟩ := Option.bind_eq_some_iff.mp htext
      cases htext
      exact ⟨⟨key, hx⟩, addr, hle _ _ haddr, rfl⟩
  | location i message =>
    obtain ⟨key, addr, hplaces, rfl⟩ := hx
    simp only [Fleet.receive] at hs
    split_ifs at hs
    obtain ⟨⟨c, out⟩, hc, rfl⟩ := Option.map_eq_some_iff.mp hs
    obtain ⟨hproper, hout⟩ := (h.clients i).dealwithMaster hplaces (hfield _ _ hplaces) hc
    exact h.post hproper fun o ho => hout o (Option.mem_toList.mp ho)
  | request i addr message =>
    simp only [Fleet.receive] at hs
    split at hs
    next =>
      cases hs
      exact h
    next c hc =>
      obtain ⟨r, hr, rfl⟩ := Option.map_eq_some_iff.mp hs
      refine ⟨h.clients, h.lost, fun x hx' => ?_⟩
      rcases List.mem_append.mp hx' with hx' | hx'
      · exact (h.mail x hx').mono (fun _ _ hplaces => hplaces) (List.subset_append_left _ _)
      · rw [List.mem_singleton.mp hx']
        exact ⟨_, List.mem_append_right _ (List.mem_singleton_self _), rfl, rfl⟩
  | reply i message =>
    simp only [Fleet.receive] at hs
    split_ifs at hs
    obtain ⟨c, hc, rfl⟩ := Option.map_eq_some_iff.mp hs
    exact h.post ((h.clients i).dealwithCacheServer hc) fun o ho => absurd ho List.not_mem_nil

/-- **Every step** keeps the clients and the mail right. -/
lemma Held.step (h : f.Held places) (hle : ∀ key addr, m.Places key addr → places key addr)
    (hfield : ∀ key addr, places key addr → IsField addr) (hs : f.step m e = some f') :
    f'.Held places := by
  cases e with
  | child i key value =>
    simp only [Fleet.step] at hs
    split_ifs at hs
    obtain ⟨⟨c, out⟩, hc, rfl⟩ := Option.map_eq_some_iff.mp hs
    obtain ⟨hproper, hout⟩ := (h.clients i).dealwithChild hc
    exact h.post hproper fun o ho => hout o (Option.mem_toList.mp ho)
  | deliver n value =>
    obtain ⟨x, hx, hs⟩ := Option.bind_eq_some_iff.mp hs
    exact (h.lose n).receive hle hfield (h.mail x (List.mem_of_getElem? hx)) hs
  | lose n =>
    cases hs
    exact h.lose n
  | check i order =>
    simp only [Fleet.step] at hs
    split_ifs at hs
    cases hs
    exact (h.post (h.clients i).clearLost fun o ho => absurd ho List.not_mem_nil).setLost
      fun key hkey => Client.isField_lostKeys (h.clients i).listed hkey
  | resend i =>
    simp only [Fleet.step] at hs
    split at hs
    next key lost hlost =>
      cases hs
      have hkeys : ∀ k ∈ key :: lost, IsField k := hlost ▸ h.lost i
      have hkey := hkeys key List.mem_cons_self
      refine (h.post ((h.clients i).sendRequestToMaster hkey) fun o ho => ?_).setLost
        fun k hk => hkeys k (List.mem_cons_of_mem _ hk)
      rw [List.mem_singleton.mp ho]
      exact hkey
    next => cases hs
  | tick i order =>
    simp only [Fleet.step] at hs
    split_ifs at hs
    cases hs
    exact h.post (h.clients i).timerHandler (h.clients i).resent

/-! ### What a step does to the cache servers -/

/-- A step leaves the cache servers alone, or one of them handles a request in flight. -/
inductive Serves (f f' : Fleet) : Prop
  | nothing (hservers : f'.servers = f.servers) (hlog : f'.log = f.log)
  | request {i : ℕ} {addr message : Str} {c : Cache} {r : Cache × Str}
      (hmail : .request i addr message ∈ f.mail) (hc : f.servers addr = some c)
      (hr : c.clientChat message = some r)
      (hservers : f'.servers = Function.update f.servers addr (some r.1))
      (hlog : f'.log = f.log ++ [⟨addr, i, message, r.2⟩])

lemma serves_of_step (hs : f.step m e = some f') : f.Serves f' := by
  cases e with
  | child i key value =>
    simp only [Fleet.step] at hs
    split_ifs at hs
    obtain ⟨r, -, rfl⟩ := Option.map_eq_some_iff.mp hs
    exact .nothing rfl rfl
  | deliver n value =>
    obtain ⟨x, hx, hs⟩ := Option.bind_eq_some_iff.mp hs
    cases x with
    | lookup i key =>
      obtain ⟨text, -, rfl⟩ := Option.map_eq_some_iff.mp hs
      exact .nothing rfl rfl
    | location i message | reply i message =>
      simp only [Fleet.receive] at hs
      split_ifs at hs
      obtain ⟨r, -, rfl⟩ := Option.map_eq_some_iff.mp hs
      exact .nothing rfl rfl
    | request i addr message =>
      simp only [Fleet.receive] at hs
      split at hs
      next =>
        cases hs
        exact .nothing rfl rfl
      next c hc =>
        obtain ⟨r, hr, rfl⟩ := Option.map_eq_some_iff.mp hs
        exact .request (List.mem_of_getElem? hx) hc hr rfl rfl
  | lose n =>
    cases hs
    exact .nothing rfl rfl
  | check i order | tick i order =>
    simp only [Fleet.step] at hs
    split_ifs at hs
    cases hs
    exact .nothing rfl rfl
  | resend i =>
    simp only [Fleet.step] at hs
    split at hs
    next key lost hlost =>
      cases hs
      exact .nothing rfl rfl
    next => cases hs

end Fleet

end DistCache
