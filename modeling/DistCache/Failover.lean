import DistCache.Cache.CacheList
import DistCache.Master.Addresses

/-!
A failover as the caches see it.

When a primary with a backup is dead, the master puts the backup in its place in `fd_node` and sends the
two addresses to every primary.  The message is built and read as the format says, but the branch of
`ReadFromMaster` that reads it changes a copy of the entry that it finds, so `cache_list` keeps the address
of the dead primary (`failover_replaces_iff`).
-/

namespace DistCache

open Lib

variable {x y origin backup : Str × Str} {flowOff : Str → ℤ}

/-! ### The message -/

/-- The text `ip:port` of an address. -/
def colonAddr (x : Str × Str) : Str := x.1 ++ colon :: x.2

/-- The message `C#origin_ip:origin_port#backup_ip:backup_port`. -/
def failoverMsg (origin backup : Str × Str) : Str :=
  Cache.tagged 67 (colonAddr origin, colonAddr backup)

/-- An address that came in a message of at most `BUF_SIZE` characters. -/
structure FitsAddr (x : Str × Str) : Prop where
  ip : IsField x.1
  port : IsField x.2
  length_lt : (joinAddr x).length < bufSize

lemma FitsAddr.isField (hx : FitsAddr x) : IsField (colonAddr x) where
  ne_nil := by simp [colonAddr]
  sharp_free := by
    have hne : sharp ≠ colon := by decide
    simp [colonAddr, hx.ip.sharp_free, hx.port.sharp_free, hne]

lemma FitsAddr.colon_length_lt (hx : FitsAddr x) : (colonAddr x).length < bufSize := by
  have hlt := hx.length_lt
  simp only [joinAddr, colonAddr, List.length_append, List.length_cons] at hlt ⊢
  exact hlt

/-- The two texts in the message are taken apart as if they were the ip and the port of an address. -/
lemma FitsAddr.isAddr (hx : FitsAddr x) (hy : FitsAddr y) : IsAddr (colonAddr x, colonAddr y) where
  ip := hx.isField
  port := hy.isField
  ip_lt := hx.colon_length_lt
  port_lt := hy.colon_length_lt

lemma FitsAddr.slice_joinAddr (hx : FitsAddr x) : slice (joinAddr x) = some x :=
  slice_append hx.ip.sharp_free x.2

lemma sharpToColon_joinAddr (hx : FitsAddr x) :
    Master.sharpToColon (joinAddr x) = some (colonAddr x) := by
  have hall : ∀ c ∈ x.1, decide (c ≠ sharp) = true := fun c hc => by
    simpa using ne_of_mem_of_not_mem hc hx.ip.sharp_free
  have hmem : sharp ∈ joinAddr x := by simp [joinAddr]
  unfold Master.sharpToColon
  rw [if_pos hmem]
  unfold joinAddr
  rw [List.takeWhile_append_of_pos hall, List.dropWhile_append_of_pos hall,
    List.takeWhile_cons_of_neg (by simp), List.dropWhile_cons_of_neg (by simp), List.append_nil]
  rfl

/-! ### What a cache makes of it -/

namespace Cache

variable {c c' : Cache} {o b : Str}

/-- The index that the inner `slice` happens to return lies in the text. -/
def InText (flowOff : Str → ℤ) (s : Str) : Prop := toSize (flowOff s + 1) ≤ s.length

instance decidableInText (flowOff : Str → ℤ) (s : Str) : Decidable (InText flowOff s) :=
  inferInstanceAs (Decidable (_ ≤ _))

/-- The cache ignores the message, or what the inner `slice` happens to return throws nothing. -/
def Survives (flowOff : Str → ℤ) (c : Cache) (origin backup : Str × Str) : Prop :=
  c.status = lit "K" ∨ InText flowOff (colonAddr origin) ∧ InText flowOff (colonAddr backup)

/-- The branch `C` leaves the cache as it is, or throws. -/
lemma failover_iff (h : IsAddr (o, b)) (ho : 2 ≤ o.length) :
    c.failover flowOff (tagged 67 (o, b)) ((2 + o.length : ℕ) : ℤ) = some c' ↔
      c' = c ∧ InText flowOff o ∧ InText flowOff b := by
  have hip : part (tagged 67 (o, b)) ((2 + o.length : ℕ) : ℤ) 1 = some o := part_ip h
  have hport : part (tagged 67 (o, b)) ((2 + o.length : ℕ) : ℤ) 2 = some b := part_port h
  have hone : ∀ i : ℤ, part o i 1 = some ((o.drop 2).take (toSize (i - 2))) := fun i => by
    unfold part substr
    rw [if_pos rfl, if_pos ho]
  have htwo : part o (flowOff o) 2 = if toSize (flowOff o + 1) ≤ o.length then
      some ((o.drop (toSize (flowOff o + 1))).take (toSize (o.length - flowOff o - 1))) else none := by
    unfold part substr
    rw [if_neg (by decide)]
  unfold failover
  rw [hip, hport]
  simp only [Option.bind_eq_bind, Option.bind_some, hone, htwo]
  unfold InText substr
  rw [if_pos (Nat.zero_le _)]
  by_cases h₁ : toSize (flowOff o + 1) ≤ o.length
  · by_cases h₂ : toSize (flowOff b + 1) ≤ b.length
    · simp [h₁, h₂, eq_comm]
    · simp [h₁, h₂]
  · simp [h₁]

/-- The message of a failover leaves the cache as it is, or its reader throws. -/
theorem readFromMaster_failover_iff (hx : FitsAddr origin) (hy : FitsAddr backup) :
    c.readFromMaster flowOff (failoverMsg origin backup) = some c' ↔
      c' = c ∧ c.Survives flowOff origin backup := by
  have haddr := hx.isAddr hy
  have hlen : 2 ≤ (colonAddr origin).length := by
    have hip := List.length_pos_iff.mpr hx.ip.ne_nil
    simp only [colonAddr, List.length_append, List.length_cons]
    omega
  have hhead : (failoverMsg origin backup).take 1 = lit "C" := rfl
  have hspear : spearFrom2 (failoverMsg origin backup) = some (2 + (colonAddr origin).length) :=
    spearFrom2_tagged haddr
  unfold readFromMaster Survives
  rw [hspear, hhead]
  simp only [Option.bind_eq_bind, Option.bind_some, lit_inj, String.reduceEq, if_true, if_false]
  by_cases hstatus : c.status = lit "K"
  · simp [hstatus, eq_comm]
  · rw [if_neg hstatus, failoverMsg, failover_iff haddr hlen]
    simp [hstatus]

end Cache

/-- The backup in the place of the primary. -/
def replaceAddr (origin backup x : Str × Str) : Str × Str := if x = origin then backup else x

lemma map_replaceAddr_eq_iff {l : List (Str × Str)} :
    l.map (replaceAddr origin backup) = l ↔ (origin ∈ l → origin = backup) := by
  have hid : l.map (replaceAddr origin backup) = l ↔ ∀ x ∈ l, replaceAddr origin backup x = id x := by
    rw [← List.map_inj_left, List.map_id]
  rw [hid]
  constructor
  · intro h hmem
    have horigin := h origin hmem
    rw [replaceAddr, if_pos rfl] at horigin
    exact horigin.symm
  · intro h x hx
    unfold replaceAddr
    split_ifs with heq
    · subst heq
      exact (h hx).symm
    · rfl

/-! ### The list of a cache and `fd_node` -/

section Agrees

variable {m m' : Master} {fd pair : ℤ} {l : List (Str × Str)}

/-- The address of a connection as a cache keeps it. -/
def cacheAddr? (t : Map ℤ FdMap) (a : ℤ) : Option (Str × Str) := (addr t a).bind slice

/-- The list holds the addresses of the entries of `fd_node`, in their order. -/
def Agrees (l : List (Str × Str)) (m : Master) : Prop :=
  m.fdNode.map (cacheAddr? m.cachesList) = l.map some

instance decidableAgrees (l : List (Str × Str)) (m : Master) : Decidable (Agrees l m) := by
  unfold Agrees; infer_instance

lemma Agrees.mem (h : Agrees l m) (hfd : fd ∈ m.fdNode)
    (ho : cacheAddr? m.cachesList fd = some origin) : origin ∈ l := by
  have hmem : some origin ∈ m.fdNode.map (cacheAddr? m.cachesList) :=
    List.mem_map.mpr ⟨fd, hfd, ho⟩
  rw [h, List.mem_map] at hmem
  obtain ⟨x, hx, heq⟩ := hmem
  exact Option.some.inj heq ▸ hx

/-- Erasing a record takes its address from the positions of its descriptor. -/
lemma map_cacheAddr?_erase {nodes : List ℤ} {t t' : Map ℤ FdMap}
    (haddr : addr t' = Function.update (addr t) fd none) (ho : cacheAddr? t fd = some origin) :
    nodes.map (cacheAddr? t') = nodes.map (cacheAddr? t) ↔ fd ∉ nodes := by
  rw [List.map_inj_left]
  constructor
  · intro h hmem
    have hfd := h fd hmem
    rw [ho, cacheAddr?, haddr, Function.update_self] at hfd
    cases hfd
  · intro h a ha
    rw [cacheAddr?, cacheAddr?, haddr, Function.update_of_ne (ne_of_mem_of_not_mem ha h)]

/-- A list that agreed before the failover and is left alone. -/
lemma agrees_iff (hnode : m'.fdNode = m.fdNode.set (m.fdNode.idxOf fd) pair) (hne : pair ≠ fd)
    (haddr : addr m'.cachesList = Function.update (addr m.cachesList) fd none)
    (ho : cacheAddr? m.cachesList fd = some origin) (hb : cacheAddr? m.cachesList pair = some backup)
    (h : Agrees l m) : Agrees l m' ↔ (fd ∈ m.fdNode → origin = backup ∧ fd ∉ m.fdNode.erase fd) := by
  unfold Agrees at h ⊢
  rw [← h, hnode]
  by_cases hfd : fd ∈ m.fdNode
  · obtain ⟨l₁, l₂, hl₁, hl, hset, herase⟩ := exists_split_at (b := pair) hfd
    have hfirst := (map_cacheAddr?_erase haddr ho).mpr hl₁
    have hpair : cacheAddr? m'.cachesList pair = some backup := by
      rw [cacheAddr?, haddr, Function.update_of_ne hne]
      exact hb
    have hleft : fd ∉ l₁ ++ l₂ ↔ fd ∉ l₂ := by
      rw [List.mem_append, or_iff_right hl₁]
    rw [hset, herase, hl, List.map_append, List.map_append, List.map_cons, List.map_cons, hfirst, hpair,
      ho, List.append_cancel_left_eq, List.cons.injEq, map_cacheAddr?_erase haddr ho, hleft,
      Option.some.injEq, eq_comm, imp_iff_right (by simp)]
  · rw [List.set_eq_of_length_le (List.idxOf_eq_length hfd).ge]
    exact iff_of_true ((map_cacheAddr?_erase haddr ho).mpr hfd) fun hmem => absurd hmem hfd

end Agrees

/-- The cache reads the message and survives, its list has the backup for every entry of the primary, and
it agrees with `fd_node` again if it did before. -/
def Replaces (flowOff : Str → ℤ) (c : Cache) (m m' : Master) (origin backup : Str × Str) : Prop :=
  ∃ c', c.readFromMaster flowOff (failoverMsg origin backup) = some c' ∧
    c'.cacheList = c.cacheList.map (replaceAddr origin backup) ∧
    (Agrees c.cacheList m → Agrees c'.cacheList m')

/-- When nothing has to be replaced: the primary has no entry in the list, or the address of its backup;
and where the list agreed, no second position of `fd_node` is left without a record. -/
structure NothingToReplace (flowOff : Str → ℤ) (c : Cache) (m : Master) (fd : ℤ)
    (origin backup : Str × Str) : Prop where
  survives : c.Survives flowOff origin backup
  same : origin ∈ c.cacheList → origin = backup
  once : Agrees c.cacheList m → fd ∉ m.fdNode.erase fd

namespace World

variable {w w' : World} {fd : ℤ} {e : FdMap} {sends : List (ℤ × Str)}

/-- A message fits into the buffer that it is received in. -/
def Fits (_w : World) : Event → Prop
  | .receive _ msg => msg.length ≤ bufSize
  | _ => True

instance decidableFits (w : World) : (e : Event) → Decidable (w.Fits e)
  | .receive _ msg => inferInstanceAs (Decidable (msg.length ≤ bufSize))
  | .accept _ | .detect _ | .shrinkBegin | .shrinkEnd | .tick => isTrue trivial

/-- The address for caches is the placeholder, or one that came in a message. -/
def Received (_ipPort ipCache : Str) : Prop := ipCache = noAddr ∨ ∃ x, FitsAddr x ∧ ipCache = joinAddr x

/-- The address of a first heartbeat is shorter than the heartbeat. -/
lemma first_received {m : Master} {msg r : Str} (hf : m.First fd msg r e) (hfits : msg.length ≤ bufSize) :
    Received e.ipPort e.ipCache := by
  obtain ⟨-, -, hip, -, hcache, -, -⟩ := hf
  rename_i it ip portClient portCache status
  obtain ⟨f₀, f₂, rest, hsplit⟩ : ∃ f₀ f₂ rest, splitSharp msg = f₀ :: ip :: f₂ :: portCache :: rest := by
    rcases h : splitSharp msg with _ | ⟨f₀, _ | ⟨f₁, _ | ⟨f₂, _ | ⟨f₃, rest⟩⟩⟩⟩ <;>
      rw [h] at hip hcache <;> simp at hip hcache
    exact ⟨f₀, f₂, rest, by rw [hip, hcache]⟩
  have hfield : ∀ f ∈ [f₀, ip, f₂, portCache], IsField f := fun f hf => by
    refine mem_splitSharp (s := msg) ?_
    rw [hsplit]
    simp only [List.mem_cons, List.not_mem_nil, or_false] at hf ⊢
    tauto
  have hlen : (splitSharp msg).flatten.length ≤ msg.length :=
    (split_flatten_sublist msg [sharp]).length_le
  have h₀ := List.length_pos_iff.mpr (hfield f₀ (by simp)).ne_nil
  have h₂ := List.length_pos_iff.mpr (hfield f₂ (by simp)).ne_nil
  rw [hsplit] at hlen
  simp only [List.flatten_cons, List.length_append] at hlen
  refine .inr ⟨(ip, portCache), ⟨hfield ip (by simp), hfield portCache (by simp), ?_⟩, rfl⟩
  simp only [joinAddr, List.length_append, List.length_cons]
  omega

lemma received_of_reach (h : Reach Init step Fits w) : AllAddressed Received w.master.cachesList :=
  allAddressed_of_reach (.inl rfl) (fun _ _ _ _ _ hok hf => first_received hf hok) h

/-- Where `periodicDetectCache` finds a `'#'` the address came in a message. -/
lemma Received.of_sharp {ipPort ipCache str : Str} (h : Received ipPort ipCache)
    (hsharp : Master.sharpToColon ipCache = some str) :
    ∃ x, FitsAddr x ∧ ipCache = joinAddr x ∧ str = colonAddr x := by
  rcases h with rfl | ⟨x, hx, rfl⟩
  · have hnone : Master.sharpToColon noAddr = none := by decide
    rw [hnone] at hsharp
    cases hsharp
  · rw [sharpToColon_joinAddr hx, Option.some.injEq] at hsharp
    exact ⟨x, hx, rfl, hsharp.symm⟩

/-- The death of a primary that has a backup. -/
lemma exec_detect_paired (hk : w.Keyed) (he : w.master.cachesList.lookup fd = some e)
    (hs : e.status = statusP) (hpair : 0 < e.pairFd)
    (hdead : w.master.heartBeatDetect w.timeNow fd = some false)
    (h : w.exec (.detect fd) = some (w', sends)) : ∃ b str1 str2, e.pairFd ≠ fd ∧
      w.master.cachesList.lookup e.pairFd = some b ∧ Master.sharpToColon e.ipCache = some str1 ∧
      Master.sharpToColon b.ipCache = some str2 ∧
      w'.master.fdNode = w.master.fdNode.set (w.master.fdNode.idxOf fd) e.pairFd ∧
      w'.master.cachesList = (w.master.cachesList.insert e.pairFd
        { b with status := statusP, pairFd := -1 }).erase fd ∧
      sends = w'.master.fdNode.map fun fdi => (fdi, lit "C#" ++ str1 ++ sharp :: str2) := by
  simp only [exec] at h
  obtain ⟨out, hout, hw⟩ := Option.map_eq_some_iff.mp h
  rw [Prod.mk.injEq] at hw
  obtain ⟨rfl, rfl⟩ := hw
  rcases Master.detect_cases (fun a e he => ⟨(hk a e he).1, (hk a e he).2.1⟩) hout with
    ⟨halive, -⟩ | ⟨-, o, hd, rfl⟩
  · rw [hdead] at halive
    cases halive
  · have hrec : ∀ {f}, w.master.cachesList.lookup fd = some f → f = e := fun hf => by
      rw [he, Option.some.injEq] at hf
      exact hf.symm
    have hPR : statusP ≠ statusR := by decide
    cases hd with
    | replica hf hR => exact absurd (hrec hf ▸ hR) (hs ▸ hPR)
    | paired hf _ _ hne hb h₁ h₂ =>
      obtain rfl := hrec hf
      exact ⟨_, _, _, hne, hb, h₁, h₂, rfl, rfl, rfl⟩
    | alone hf _ hno => exact absurd (hrec hf ▸ hpair) hno
    | stray hf _ hno => exact absurd (hrec hf ▸ hpair) hno
    | other hf hP => exact absurd (hrec hf ▸ hs) hP

/-- **Failover.**  Every primary is sent the addresses of the primary that died and of its backup, and a
cache that reads them has the backup in its list for the primary only where nothing had to be replaced. -/
theorem failover_replaces_iff (h : Reach Init step Fits w)
    (he : w.master.cachesList.lookup fd = some e) (hs : e.status = statusP) (hpair : 0 < e.pairFd)
    (hdead : w.master.heartBeatDetect w.timeNow fd = some false)
    (hx : w.exec (.detect fd) = some (w', sends)) : ∃ origin backup,
      cacheAddr? w.master.cachesList fd = some origin ∧
      cacheAddr? w.master.cachesList e.pairFd = some backup ∧
      sends = w'.master.fdNode.map (fun fdi => (fdi, failoverMsg origin backup)) ∧
      ∀ (flowOff : Str → ℤ) (c : Cache), Replaces flowOff c w.master w'.master origin backup ↔
        NothingToReplace flowOff c w.master fd origin backup := by
  have hall := received_of_reach h
  obtain ⟨b, str1, str2, hne, hb, h₁, h₂, hnode, hlist, hsends⟩ :=
    exec_detect_paired (keyed_of_reach h) he hs hpair hdead hx
  obtain ⟨origin, horigin, hecache, rfl⟩ := (hall fd e he).of_sharp h₁
  obtain ⟨backup, hbackup, hbcache, rfl⟩ := (hall _ b hb).of_sharp h₂
  have ho : cacheAddr? w.master.cachesList fd = some origin := by
    rw [cacheAddr?, addr_of_lookup he, hecache]
    exact horigin.slice_joinAddr
  have hp : cacheAddr? w.master.cachesList e.pairFd = some backup := by
    rw [cacheAddr?, addr_of_lookup hb, hbcache]
    exact hbackup.slice_joinAddr
  have haddr : addr w'.master.cachesList = Function.update (addr w.master.cachesList) fd none := by
    have hsame : addr (w.master.cachesList.insert e.pairFd
        { b with status := statusP, pairFd := -1 }) = addr w.master.cachesList :=
      addr_insert_same hb rfl
    rw [hlist, addr_erase, hsame]
  refine ⟨origin, backup, ho, hp, hsends, fun flowOff c => ?_⟩
  unfold Replaces
  simp only [Cache.readFromMaster_failover_iff horigin hbackup]
  constructor
  · rintro ⟨c', ⟨rfl, hsurvives⟩, hmap, hagain⟩
    have hsame := map_replaceAddr_eq_iff.mp hmap.symm
    refine ⟨hsurvives, hsame, fun hagrees => ?_⟩
    have hafter := (agrees_iff hnode hne haddr ho hp hagrees).mp (hagain hagrees)
    by_cases hfd : fd ∈ w.master.fdNode
    · exact (hafter hfd).2
    · exact fun hmem => hfd (List.mem_of_mem_erase hmem)
  · rintro ⟨hsurvives, hsame, honce⟩
    refine ⟨c, ⟨rfl, hsurvives⟩, (map_replaceAddr_eq_iff.mpr hsame).symm, fun hagrees => ?_⟩
    exact (agrees_iff hnode hne haddr ho hp hagrees).mpr fun hfd =>
      ⟨hsame (hagrees.mem hfd ho), honce hagrees⟩

/-- A primary and its backup, and the primary falls silent. -/
theorem failover_replaces_iff_joinPair : ∃ w w' sends origin backup,
    path step Fits (start 1638316800) (joinPair ++ fiveSeconds) = some w ∧
    w.exec (.detect 5) = some (w', sends) ∧
    sends = w'.master.fdNode.map (fun fdi => (fdi, failoverMsg origin backup)) ∧
    ∀ (flowOff : Str → ℤ) (c : Cache), Replaces flowOff c w.master w'.master origin backup ↔
      NothingToReplace flowOff c w.master 5 origin backup := by
  have hrun : (path step Fits (start 1638316800) (joinPair ++ fiveSeconds)).map (fun w =>
      (w.master.heartBeatDetect w.timeNow 5, (w.exec (.detect 5)).isSome,
        (w.master.cachesList.lookup 5).map fun e => (e.status, e.pairFd))) =
      some (some false, true, some (statusP, 6)) := by
    decide +kernel
  obtain ⟨w, hw, hf⟩ := Option.map_eq_some_iff.mp hrun
  rw [Prod.mk.injEq, Prod.mk.injEq] at hf
  obtain ⟨hdead, hexec, hrec⟩ := hf
  obtain ⟨⟨w', sends⟩, hx⟩ := Option.isSome_iff_exists.mp hexec
  obtain ⟨e, he, hpair⟩ := Option.map_eq_some_iff.mp hrec
  rw [Prod.mk.injEq] at hpair
  obtain ⟨origin, backup, -, -, hsends, hiff⟩ := failover_replaces_iff (reach_of_path ⟨_, rfl⟩ hw) he
    hpair.1 (by rw [hpair.2]; decide) hdead hx
  exact ⟨w, w', sends, origin, backup, hw, hx, hsends, hiff⟩

/-- The backup at port 9002 takes the place of the primary at port 9001.  The other primary is told so, and
its inner `slice` returns what it is meant to; its list has port 9001 afterwards. -/
theorem failover_keeps_dead : ∃ w w' sends c c',
    Reach Init step Fits w ∧ w.exec (.detect 5) = some (w', sends) ∧
    (7, failoverMsg (lit "127.0.0.1", lit "9001") (lit "127.0.0.1", lit "9002")) ∈ sends ∧
    Agrees (Cache.cacheList c) w.master ∧
    c.readFromMaster (fun s => (s.takeWhile (· ≠ colon)).length)
      (failoverMsg (lit "127.0.0.1", lit "9001") (lit "127.0.0.1", lit "9002")) = some c' ∧
    (lit "127.0.0.1", lit "9001") ∈ c'.cacheList ∧
    c'.cacheList ≠ c.cacheList.map
      (replaceAddr (lit "127.0.0.1", lit "9001") (lit "127.0.0.1", lit "9002")) ∧
    ¬ Agrees c'.cacheList w'.master := by
  have hrun : (path step Fits (start 1638316800) (joinPair ++
      [.accept 7, .receive 7 (lit "x#127.0.0.1#8003#9003#P")] ++ fiveSeconds)).bind (fun w =>
      (w.exec (.detect 5)).map fun r =>
        (decide (r.2 = [6, 7].map fun fdi => (fdi, lit "C#127.0.0.1:9001#127.0.0.1:9002")),
          decide (Agrees [(lit "127.0.0.1", lit "9001"), (lit "127.0.0.1", lit "9003")] w.master),
          decide (Agrees [(lit "127.0.0.1", lit "9001"), (lit "127.0.0.1", lit "9003")] r.1.master))) =
      some (true, true, false) := by
    decide +kernel
  obtain ⟨w, hw, hf⟩ := Option.bind_eq_some_iff.mp hrun
  obtain ⟨⟨w', sends⟩, hx, hf⟩ := Option.map_eq_some_iff.mp hf
  rw [Prod.mk.injEq, Prod.mk.injEq, decide_eq_true_iff, decide_eq_true_iff, decide_eq_false_iff_not] at hf
  obtain ⟨hsends, hbefore, hafter⟩ := hf
  have hfits : FitsAddr (lit "127.0.0.1", lit "9001") ∧ FitsAddr (lit "127.0.0.1", lit "9002") := by
    constructor <;> exact ⟨⟨by decide, by decide⟩, ⟨by decide, by decide⟩, by decide⟩
  refine ⟨w, w', sends, { Cache.new 100 (lit "P") (lit "127.0.0.1") (lit "8003") (lit "9003") with
    cacheList := [(lit "127.0.0.1", lit "9001"), (lit "127.0.0.1", lit "9003")] }, _,
    reach_of_path ⟨_, rfl⟩ hw, hx, ?_, hbefore,
    (Cache.readFromMaster_failover_iff hfits.1 hfits.2).mpr ⟨rfl, .inr ⟨by decide, by decide⟩⟩,
    by decide, by decide, hafter⟩
  dsimp only at hsends
  rw [hsends]
  decide

end World

end DistCache
