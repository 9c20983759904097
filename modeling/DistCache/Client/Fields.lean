import DistCache.Client.State
import DistCache.Lib.Faults

/-!
The fields that the handlers of the client read.

`dealwith_master` counts the fields of a message before it reads them.  `dealwith_child` and
`dealwith_cache_server` do not, and the latter stops the timer of whatever address it reads.  The handlers
are stated once more with the reason why they end (`toOption_handle`), and `readable_iff` says which
messages they can take.
-/

namespace DistCache

open Lib

/-- Why a handler of the client ends early. -/
inductive MessageFault where
  /-- `message_array[i]` is past the end. -/
  | field (i : ℕ)
  /-- `stop` is called through a null pointer. -/
  | nullTimer
  /-- `parse_str_addr` reads a field of an address that is not there. -/
  | ipPort
  deriving DecidableEq

/-- What a handler gets, and from whom.  The handlers take a `const char *`, so what `start` has read into
`message_` ends for them at its first zero byte. -/
inductive Incoming where
  /-- From the pipe; with what `strRand` gives. -/
  | child (message value : Str)
  | master (message value : Str)
  | cacheServer (message : Str)

namespace Client

/-! ### Texts with two fields, and with three -/

section Split

variable {flag : UInt8} {f s : Str}

/-- A text has a field in front of its first separator, or is one, or there is nothing to read. -/
lemma split_cases (flag : UInt8) (s : Str) : s = [] ∧ split s flag = [] ∨
    (s ≠ [] ∧ flag ∉ s ∧ split s flag = [s]) ∨
    ∃ f rest, flag ∉ f ∧ s = f ++ flag :: rest ∧ split s flag = f :: split rest flag := by
  by_cases hs : s = []
  · subst hs
    exact .inl ⟨rfl, rfl⟩
  by_cases hflag : flag ∈ s
  · obtain ⟨f, rest, rfl, hf⟩ := List.eq_append_cons_of_mem hflag
    exact .inr (.inr ⟨f, rest, hf, rfl, split_cons hf rest⟩)
  · exact .inr (.inl ⟨hs, hflag, split_last hs hflag⟩)

lemma split_eq_nil_iff : split s flag = [] ↔ s = [] := by
  obtain ⟨hs, h⟩ | ⟨hs, -, h⟩ | ⟨f, rest, -, rfl, h⟩ := split_cases flag s
  · exact iff_of_true h hs
  · exact iff_of_false (by rw [h]; simp) hs
  · exact iff_of_false (by rw [h]; simp) (by simp)

/-- No field has the separator. -/
lemma not_mem_of_mem_split (hf : f ∈ split s flag) : flag ∉ f := by
  induction hn : s.length using Nat.strong_induction_on generalizing s with
  | _ n ih =>
    obtain ⟨-, h⟩ | ⟨-, hs, h⟩ | ⟨g, rest, hg, rfl, h⟩ := split_cases flag s
    · rw [h] at hf
      exact absurd hf List.not_mem_nil
    · rw [h] at hf
      exact List.mem_singleton.mp hf ▸ hs
    · rw [h] at hf
      rcases List.mem_cons.mp hf with rfl | hf
      · exact hg
      · refine ih rest.length ?_ hf rfl
        rw [← hn, List.length_append, List.length_cons]
        omega

/-- A field more than those of the rest. -/
lemma split_eq_cons_cons_iff {l : List Str} (hl : l ≠ []) : split s flag = f :: l ↔
    ∃ rest, flag ∉ f ∧ s = f ++ flag :: rest ∧ split rest flag = l := by
  constructor
  · intro h
    obtain ⟨-, heq⟩ | ⟨-, -, heq⟩ | ⟨f', rest, hf, hs, heq⟩ := split_cases flag s
    · cases heq.symm.trans h
    · cases heq.symm.trans h
      exact absurd rfl hl
    · cases heq.symm.trans h
      exact ⟨rest, hf, hs, rfl⟩
  · rintro ⟨rest, hf, rfl, rfl⟩
    exact split_cons hf rest

lemma split_eq_takeWhile_cons (flag : UInt8) (hs : s ≠ []) : ∃ l, split s flag = s.takeWhile (· ≠ flag) :: l := by
  obtain ⟨n, hn⟩ : ∃ n, s.length = n + 1 :=
    Nat.exists_eq_succ_of_ne_zero (List.length_pos_iff.mpr hs).ne'
  rw [split, hn, splitFrom, getline, if_neg hs]
  exact ⟨_, rfl⟩

/-- There are two fields when something follows the first separator. -/
lemma split_two_iff : (∃ f g l, split s flag = f :: g :: l) ↔
    ∃ f rest, flag ∉ f ∧ rest ≠ [] ∧ s = f ++ flag :: rest := by
  constructor
  · rintro ⟨f, g, l, h⟩
    obtain ⟨rest, hf, hs, hrest⟩ := (split_eq_cons_cons_iff (List.cons_ne_nil g l)).mp h
    refine ⟨f, rest, hf, fun hnil => ?_, hs⟩
    rw [split_eq_nil_iff.mpr hnil] at hrest
    cases hrest
  · rintro ⟨f, rest, hf, hrest, rfl⟩
    obtain ⟨l, hl⟩ := split_eq_takeWhile_cons flag hrest
    exact ⟨f, _, l, by rw [split_cons hf, hl]⟩

/-- There are three when something follows the second one. -/
lemma split_three_iff {p : Str → Str → Prop} :
    (∃ f g h l, split s flag = f :: g :: h :: l ∧ p f h) ↔
    ∃ f g rest, flag ∉ f ∧ flag ∉ g ∧ rest ≠ [] ∧ s = f ++ flag :: (g ++ flag :: rest) ∧
      p f (rest.takeWhile (· ≠ flag)) := by
  constructor
  · rintro ⟨f, g, h, l, hsplit, hp⟩
    obtain ⟨t, hf, rfl, ht⟩ := (split_eq_cons_cons_iff (List.cons_ne_nil g _)).mp hsplit
    obtain ⟨rest, hg, rfl, hrest⟩ := (split_eq_cons_cons_iff (List.cons_ne_nil h l)).mp ht
    have hne : rest ≠ [] := fun hnil => by
      rw [split_eq_nil_iff.mpr hnil] at hrest
      cases hrest
    obtain ⟨l', hl'⟩ := split_eq_takeWhile_cons flag hne
    cases hrest.symm.trans hl'
    exact ⟨f, g, rest, hf, hg, hne, rfl, hp⟩
  · rintro ⟨f, g, rest, hf, hg, hne, rfl, hp⟩
    obtain ⟨l, hl⟩ := split_eq_takeWhile_cons flag hne
    exact ⟨f, g, _, l, by rw [split_cons hf, split_cons hg, hl], hp⟩

end Split

/-! ### The handlers with their faults -/

/-- `dealwith_child`. -/
def checkedChild (c : Client) (message value : Str) : Except MessageFault (Client × Option Outgoing) := do
  let messageArray := split message sharp
  let key ← orFault messageArray[1]? (.field 1)
  let head ← orFault messageArray[0]? (.field 0)
  if head = lit "CHILD" then
    match c.localLru.get key with
    | (some addr, localLru) => orFault ({ c with localLru }.requestByMode addr key value) .ipPort
    | (none, _) => return (c.sendRequestToMaster key, some ⟨.master, key⟩)
  else return (c, none)

/-- `dealwith_master`. -/
def checkedMaster (c : Client) (message value : Str) : Except MessageFault (Client × Option Outgoing) := do
  let c := { c with master := { c.master with timer := c.master.timer.stop } }
  let messageArray := split message sharp
  if messageArray.length ≠ 3 then return (c, none)
  else
    let state ← orFault messageArray[0]? (.field 0)
    let key ← orFault messageArray[1]? (.field 1)
    if state = lit "MASTER" then
      let addr ← orFault messageArray[2]? (.field 2)
      orFault ({ c with localLru := c.localLru.put key addr }.requestByMode addr key value) .ipPort
    else return (c, none)

/-- `dealwith_cache_server`.  It prints the value if there are four fields. -/
def checkedCacheServer (c : Client) (message : Str) : Except MessageFault (Client × Option Outgoing) := do
  let messageArray := split message sharp
  let state ← orFault messageArray[0]? (.field 0)
  let key ← orFault messageArray[1]? (.field 1)
  let addr ← orFault messageArray[2]? (.field 2)
  if state = lit "SUCCESS" then
    let c ← orFault ((c.eraseItemFromRequestMap addr key).stopTimer addr) .nullTimer
    if messageArray.length = 4 then
      let _value ← orFault messageArray[3]? (.field 3)
      return (c, none)
    else return (c, none)
  else if state = lit "FAILED" then
    let c := c.eraseItemFromRequestMap addr key
    let c ← orFault ({ c with localLru := c.localLru.erase key }.stopTimer addr) .nullTimer
    return (c, none)
  else return (c, none)

/-- The handler for a message. -/
def handle (c : Client) : Incoming → Except MessageFault (Client × Option Outgoing)
  | .child message value => c.checkedChild message value
  | .master message value => c.checkedMaster message value
  | .cacheServer message => c.checkedCacheServer message

variable {c : Client} {message value state key addr : Str} {l : List Str}

lemma checkedChild_of_split (h : split message sharp = state :: key :: l) :
    c.checkedChild message value =
      if state = lit "CHILD" then
        match c.localLru.get key with
        | (some addr, localLru) => orFault ({ c with localLru }.requestByMode addr key value) .ipPort
        | (none, _) => .ok (c.sendRequestToMaster key, some ⟨.master, key⟩)
      else .ok (c, none) := by
  rw [checkedChild, h]
  rfl

lemma checkedMaster_of_split (h : split message sharp = [state, key, addr]) :
    c.checkedMaster message value =
      (let c := { c with master := { c.master with timer := c.master.timer.stop } }
      if state = lit "MASTER" then
        orFault ({ c with localLru := c.localLru.put key addr }.requestByMode addr key value) .ipPort
      else .ok (c, none)) := by
  rw [checkedMaster, h]
  rfl

lemma checkedCacheServer_of_split (h : split message sharp = state :: key :: addr :: l) :
    c.checkedCacheServer message =
      if state = lit "SUCCESS" then
        orFault ((c.eraseItemFromRequestMap addr key).stopTimer addr) .nullTimer >>= fun c => .ok (c, none)
      else if state = lit "FAILED" then
        orFault ({ c.eraseItemFromRequestMap addr key with
          localLru := (c.eraseItemFromRequestMap addr key).localLru.erase key }.stopTimer addr) .nullTimer
          >>= fun c => .ok (c, none)
      else .ok (c, none) := by
  rw [checkedCacheServer, h]
  cases l with
  | nil => rfl
  | cons value l =>
    -- the fourth field is there, so whether it is printed makes no difference
    simp only [List.getElem?_cons_zero, List.getElem?_cons_succ, orFault_some, ok_bind, ite_self]
    rfl

/-- A message with less than two fields ends `dealwith_child`. -/
lemma checkedChild_short (h : ∀ head key l, split message sharp ≠ head :: key :: l) :
    c.checkedChild message value = .error (.field 1) := by
  rw [checkedChild]
  match hsplit : split message sharp with
  | [] => rfl
  | [head] => rfl
  | head :: key :: l => exact absurd hsplit (h head key l)

/-- A message without three fields is no message for `dealwith_master`. -/
lemma checkedMaster_other (h : ∀ state key addr, split message sharp ≠ [state, key, addr]) :
    c.checkedMaster message value =
      .ok ({ c with master := { c.master with timer := c.master.timer.stop } }, none) := by
  have hlen : (split message sharp).length ≠ 3 := fun hlen => by
    obtain ⟨state, key, addr, hsplit⟩ := List.length_eq_three.mp hlen
    exact h state key addr hsplit
  rw [checkedMaster]
  dsimp only
  rw [if_pos hlen]
  rfl

/-- A message with less than three fields ends `dealwith_cache_server`. -/
lemma checkedCacheServer_short (h : ∀ state key addr l, split message sharp ≠ state :: key :: addr :: l) :
    ∃ i, c.checkedCacheServer message = .error (.field i) := by
  rw [checkedCacheServer]
  match hsplit : split message sharp with
  | [] => exact ⟨0, rfl⟩
  | [state] => exact ⟨1, rfl⟩
  | [state, key] => exact ⟨2, rfl⟩
  | state :: key :: addr :: l => exact absurd hsplit (h state key addr l)

/-- **The same handlers.**  What is left when the reasons are forgotten is what the client does. -/
theorem toOption_handle (c : Client) (r : Incoming) : (c.handle r).toOption =
    match r with
    | .child message value => c.dealwithChild message value
    | .master message value => c.dealwithMaster message value
    | .cacheServer message => (c.dealwithCacheServer message).map fun c => (c, none) := by
  cases r with
  | child message value =>
    dsimp only [handle]
    unfold dealwithChild
    split
    next head key l hsplit =>
      rw [checkedChild_of_split hsplit, toOption_ite]
      refine if_congr Iff.rfl ?_ rfl
      obtain ⟨addr | _, localLru⟩ := c.localLru.get key
      · rfl
      · exact toOption_orFault
    next h => rw [checkedChild_short h]; rfl
  | master message value =>
    dsimp only [handle]
    unfold dealwithMaster
    dsimp only
    split
    next state key addr hsplit =>
      rw [checkedMaster_of_split hsplit]
      dsimp only
      rw [toOption_ite, toOption_orFault]
      rfl
    next h => rw [checkedMaster_other h]; rfl
  | cacheServer message =>
    dsimp only [handle]
    unfold dealwithCacheServer
    split
    next state key addr l hsplit =>
      rw [checkedCacheServer_of_split hsplit]
      simp only [toOption_ite, toOption_bind, toOption_orFault, toOption_ok, apply_ite (Option.map _),
        Option.map_eq_bind]
      rfl
    next h =>
      obtain ⟨i, hfault⟩ := checkedCacheServer_short h
      rw [hfault]
      rfl

/-! ### Messages that can be read -/

/-- The handler reads fields that are there, and does not call `stop` through a null pointer. -/
def Readable (c : Client) (r : Incoming) : Prop := Avoids (· ≠ .ipPort) (c.handle r)

/-- What a handler takes for granted. -/
def Expects (c : Client) : Incoming → Prop
  | .child message _ => ∃ head rest, sharp ∉ head ∧ rest ≠ [] ∧ message = head ++ sharp :: rest
  | .master _ _ => True
  | .cacheServer message => ∃ state key rest, sharp ∉ state ∧ sharp ∉ key ∧ rest ≠ [] ∧
      message = state ++ sharp :: (key ++ sharp :: rest) ∧
      (state = lit "SUCCESS" ∨ state = lit "FAILED" →
        rest.takeWhile (· ≠ sharp) ∈ c.cacheServerTimers)

lemma avoids_ipPort {α : Type} {o : Option α} :
    Avoids (· ≠ MessageFault.ipPort) (orFault o MessageFault.ipPort) := avoids_orFault (not_not_intro rfl)

lemma readable_child_iff : c.Readable (.child message value) ↔
    ∃ head key l, split message sharp = head :: key :: l := by
  unfold Readable
  dsimp only [handle]
  by_cases h : ∃ head key l, split message sharp = head :: key :: l
  · refine iff_of_true ?_ h
    obtain ⟨head, key, l, hsplit⟩ := h
    rw [checkedChild_of_split hsplit]
    split_ifs
    · split
      · exact avoids_ipPort
      · exact avoids_ok
    · exact avoids_ok
  · refine iff_of_false ?_ h
    rw [checkedChild_short fun head key l hsplit => h ⟨head, key, l, hsplit⟩, avoids_error_iff]
    exact not_not_intro nofun

lemma readable_master : c.Readable (.master message value) := by
  unfold Readable
  dsimp only [handle]
  by_cases h : ∃ state key addr, split message sharp = [state, key, addr]
  · obtain ⟨state, key, addr, hsplit⟩ := h
    rw [checkedMaster_of_split hsplit]
    dsimp only
    split_ifs
    · exact avoids_ipPort
    · exact avoids_ok
  · rw [checkedMaster_other fun state key addr hsplit => h ⟨state, key, addr, hsplit⟩]
    exact avoids_ok

/-- The timer that is stopped has to be there. -/
lemma avoids_stopTimer_iff {addr : Str} : Avoids (· ≠ MessageFault.ipPort)
    (orFault (c.stopTimer addr) MessageFault.nullTimer >>= fun c => .ok (c, (none : Option Outgoing))) ↔
    addr ∈ c.cacheServerTimers := by
  rw [avoids_bind_iff, avoids_orFault_iff nofun, and_iff_left fun _ _ => avoids_ok]
  unfold stopTimer
  simp only [Option.map_eq_some_iff, Finmap.mem_iff]
  constructor
  · rintro ⟨c', r, hr, -⟩
    exact ⟨r, hr⟩
  · rintro ⟨r, hr⟩
    exact ⟨_, r, hr, rfl⟩

lemma cacheServerTimers_eraseItemFromRequestMap (c : Client) (addr key : Str) :
    (c.eraseItemFromRequestMap addr key).cacheServerTimers = c.cacheServerTimers := by
  unfold eraseItemFromRequestMap
  split <;> rfl

lemma readable_cacheServer_iff : c.Readable (.cacheServer message) ↔
    ∃ state key addr l, split message sharp = state :: key :: addr :: l ∧
      (state = lit "SUCCESS" ∨ state = lit "FAILED" → addr ∈ c.cacheServerTimers) := by
  unfold Readable
  dsimp only [handle]
  by_cases h : ∃ state key addr l, split message sharp = state :: key :: addr :: l
  · obtain ⟨state, key, addr, l, hsplit⟩ := h
    have hread : (∃ state' key' addr' l', split message sharp = state' :: key' :: addr' :: l' ∧
        (state' = lit "SUCCESS" ∨ state' = lit "FAILED" → addr' ∈ c.cacheServerTimers)) ↔
        (state = lit "SUCCESS" ∨ state = lit "FAILED" → addr ∈ c.cacheServerTimers) := by
      constructor
      · rintro ⟨state', key', addr', l', hsplit', htimer⟩
        cases hsplit.symm.trans hsplit'
        exact htimer
      · exact fun htimer => ⟨state, key, addr, l, hsplit, htimer⟩
    have htimers := cacheServerTimers_eraseItemFromRequestMap c addr key
    rw [hread, checkedCacheServer_of_split hsplit]
    by_cases hsuccess : state = lit "SUCCESS"
    · rw [if_pos hsuccess, avoids_stopTimer_iff, htimers]
      exact ⟨fun h _ => h, fun h => h (.inl hsuccess)⟩
    · rw [if_neg hsuccess]
      by_cases hfailed : state = lit "FAILED"
      · rw [if_pos hfailed, avoids_stopTimer_iff]
        dsimp only
        rw [htimers]
        exact ⟨fun h _ => h, fun h => h (.inr hfailed)⟩
      · rw [if_neg hfailed]
        exact iff_of_true avoids_ok fun h => absurd h (not_or.mpr ⟨hsuccess, hfailed⟩)
  · refine iff_of_false ?_ ?_
    · obtain ⟨i, hfault⟩ := checkedCacheServer_short fun state key addr l hsplit =>
        h ⟨state, key, addr, l, hsplit⟩
      rw [hfault, avoids_error_iff]
      exact not_not_intro nofun
    · rintro ⟨state, key, addr, l, hsplit, -⟩
      exact h ⟨state, key, addr, l, hsplit⟩

/-- **Fields.**  Whatever the client reads from the master it can take.  From the child it can take what has
something after its first separator, and from a cache server what has something after its second one, and
names an address with a timer if it is an answer. -/
theorem readable_iff (c : Client) (r : Incoming) : c.Readable r ↔ c.Expects r := by
  cases r with
  | child message value => exact readable_child_iff.trans split_two_iff
  | master message value => exact iff_of_true readable_master trivial
  | cacheServer message =>
    exact readable_cacheServer_iff.trans (split_three_iff (p := fun state addr =>
      state = lit "SUCCESS" ∨ state = lit "FAILED" → addr ∈ c.cacheServerTimers))

/-- The peer has closed, fields are missing, and a cache server is not known by the address that it
names. -/
theorem readable_not : ∃ c : Client, c = new 'r'.toUInt8 1000 ∧ ¬ c.Readable (.child [] []) ∧
    ¬ c.Readable (.child (lit "CHILD#") []) ∧ ¬ c.Readable (.cacheServer []) ∧
    ¬ c.Readable (.cacheServer (lit "SUCCESS#AAD#")) ∧
    ¬ c.Readable (.cacheServer (lit "FAILED#AAD#127.0.0.1:8001")) := by
  refine ⟨_, rfl, ?_, ?_, ?_, ?_, ?_⟩
  · rw [readable_child_iff]
    rintro ⟨_, _, _, ⟨⟩⟩
  · rw [readable_child_iff]
    rintro ⟨_, _, _, ⟨⟩⟩
  · rw [readable_cacheServer_iff]
    rintro ⟨_, _, _, _, ⟨⟩, -⟩
  · rw [readable_cacheServer_iff]
    rintro ⟨_, _, _, _, ⟨⟩, -⟩
  · rw [readable_cacheServer_iff]
    rintro ⟨_, _, _, _, ⟨⟩, h⟩
    exact absurd (h (.inr rfl)) Finmap.notMem_empty

end Client

end DistCache
