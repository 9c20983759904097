import DistCache.Cache.Messages

/-!
What the messages of the master make of `cache_list`: the first one, which lists all caches, and
those that announce a newcomer, a shrink or a death.
-/

namespace DistCache

/-- The text `ip#port` of an address. -/
def joinAddr (x : Str × Str) : Str := x.1 ++ sharp :: x.2

/-- `BUF_SIZE`, the size of the buffers that a message is copied to. -/
def bufSize : ℕ := 0xFFFF

/-- Both parts of the address are fields that fit into a message. -/
structure IsAddr (x : Str × Str) : Prop where
  ip : IsField x.1
  port : IsField x.2
  ip_lt : x.1.length < bufSize
  port_lt : x.2.length < bufSize

namespace Cache

variable {c c' : Cache} {flowOff : Str → ℤ} {x y : Str × Str} {l : List (Str × Str)} {message : Str}

/-! ### The first message -/

lemma unpack_append {f : Str} (hf : sharp ∉ f) (rest tmp : Str) (count : ℕ) (ip port : List Str) :
    unpack (f ++ rest) tmp count ip port = unpack rest (tmp ++ f) count ip port := by
  induction f generalizing tmp with
  | nil => simp
  | cons a f ih =>
    rw [List.mem_cons, not_or] at hf
    rw [List.cons_append, unpack, if_pos (Ne.symm hf.1), ih hf.2]
    simp

/-- The message is taken apart into the addresses it was made from. -/
lemma unpack_addrs (hx : sharp ∉ x.1 ∧ sharp ∉ x.2) (hl : ∀ y ∈ l, sharp ∉ y.1 ∧ sharp ∉ y.2) {count : ℕ}
    (hcount : count % 2 = 0) (ip port : List Str) :
    unpack (joinAddr x ++ l.flatMap fun y => sharp :: joinAddr y) [] count ip port =
      (ip ++ (x :: l).map Prod.fst, port ++ (x :: l).map Prod.snd) := by
  induction l generalizing x count ip port with
  | nil =>
    have hport := unpack_append hx.2 [] [] (count + 1) (ip ++ [x.1]) port
    simp only [List.append_nil, List.nil_append] at hport
    rw [joinAddr, List.flatMap_nil, List.append_nil, unpack_append hx.1, unpack,
      if_neg (by simp), if_pos hcount, List.nil_append, hport]
    rfl
  | cons y l ih =>
    have hodd : ¬ (count + 1) % 2 = 0 := by omega
    have hrest := ih (hl y List.mem_cons_self) (fun z hz => hl z (List.mem_cons_of_mem y hz))
      (show (count + 2) % 2 = 0 by omega) (ip ++ [x.1]) (port ++ [x.2])
    rw [joinAddr, List.flatMap_cons, List.append_assoc, List.cons_append,
      unpack_append hx.1, unpack, if_neg (by simp), if_pos hcount,
      unpack_append hx.2, List.cons_append, unpack, if_neg (by simp), if_neg hodd]
    simp only [List.nil_append]
    rw [hrest]
    simp

/-- The first message is appended to the list. -/
lemma initial_addrs (c : Cache) (hne : l ≠ []) (hl : ∀ y ∈ l, sharp ∉ y.1 ∧ sharp ∉ y.2) :
    c.initial (((l.map joinAddr).flatMap fun a => sharp :: a).drop 1) =
      { c with cacheList := c.cacheList ++ l, isInitialed := successInit } := by
  obtain ⟨x, l, rfl⟩ := List.exists_cons_of_ne_nil hne
  have hmsg : (((x :: l).map joinAddr).flatMap fun a => sharp :: a).drop 1 =
      joinAddr x ++ l.flatMap fun y => sharp :: joinAddr y := by
    simp [List.flatMap_map]
  have hne : joinAddr x ++ l.flatMap (fun y => sharp :: joinAddr y) ≠ [] := by simp [joinAddr]
  have hunpack := unpack_addrs (hl x List.mem_cons_self)
    (fun y hy => hl y (List.mem_cons_of_mem x hy)) (Nat.zero_mod 2) [] []
  have hzip : (l.map Prod.fst).zip (l.map Prod.snd) = l :=
    (List.zip_of_prod rfl rfl).symm
  rw [hmsg, initial, if_neg hne, hunpack]
  simp [hzip]

/-- The address for other caches. -/
def cacheAddr (c : Cache) : Str × Str := (c.localCacheIP, c.portForCache)

/-- A primary past its first message, at the address `own`, that keeps the list `l`. -/
structure Listed (own : Str × Str) (l : List (Str × Str)) (c : Cache) : Prop where
  flag : c.initialFlag = true
  status : c.status = lit "P"
  addr : c.cacheAddr = own
  list : c.cacheList = l

variable (flowOff)

/-- The first message of a primary becomes its list. -/
lemma receive_first (hflag : c.initialFlag = false) (hstatus : c.status = lit "P")
    (hlist : c.cacheList = []) (hne : l ≠ []) (hl : ∀ y ∈ l, IsAddr y) :
    ∃ c', c.receive flowOff (((l.map joinAddr).flatMap fun a => sharp :: a).drop 1) = some c' ∧
      Listed c.cacheAddr l c' := by
  have hfree : ∀ y ∈ l, sharp ∉ y.1 ∧ sharp ∉ y.2 := fun y hy =>
    ⟨(hl y hy).ip.sharp_free, (hl y hy).port.sharp_free⟩
  refine ⟨{ c with cacheList := l, isInitialed := successInit, initialFlag := true }, ?_, rfl, hstatus, rfl,
    rfl⟩
  unfold receive
  rw [hflag, initial_addrs c hne hfree, hlist]
  rfl

/-! ### The later messages -/

lemma toSize_natCast {n : ℕ} (hn : n < bufSize) : toSize n = n := by
  unfold toSize
  unfold bufSize at hn
  omega

/-- The message `h#ip#port`. -/
def tagged (h : UInt8) (x : Str × Str) : Str := h :: sharp :: joinAddr x

lemma spearFrom2_tagged {h : UInt8} (hx : IsAddr x) :
    spearFrom2 (tagged h x) = some (2 + x.1.length) := by
  unfold spearFrom2 tagged joinAddr
  rw [if_neg (by simp), if_neg (by simp)]
  simp [spear_append hx.ip.sharp_free]

lemma part_ip {h : UInt8} (hx : IsAddr x) :
    part (tagged h x) ((2 + x.1.length : ℕ) : ℤ) 1 = some x.1 := by
  have hlen : ((2 + x.1.length : ℕ) : ℤ) - 2 = (x.1.length : ℕ) := by omega
  unfold part
  rw [if_pos rfl, hlen, toSize_natCast hx.ip_lt]
  simp [substr, tagged, joinAddr]

lemma part_port {h : UInt8} (hx : IsAddr x) :
    part (tagged h x) ((2 + x.1.length : ℕ) : ℤ) 2 = some x.2 := by
  have hip := hx.ip_lt
  have hpos : ((2 + x.1.length : ℕ) : ℤ) + 1 = (x.1.length + 3 : ℕ) := by omega
  have hlen : ((tagged h x).length : ℤ) - ((2 + x.1.length : ℕ) : ℤ) - 1 = (x.2.length : ℕ) := by
    simp only [tagged, joinAddr, List.length_cons, List.length_append]
    omega
  have hsize : toSize ((x.1.length + 3 : ℕ) : ℤ) = (h :: sharp :: x.1).length + 1 := by
    unfold toSize
    unfold bufSize at hip
    simp only [List.length_cons]
    omega
  unfold part
  rw [if_neg (by decide), hpos, hlen, toSize_natCast hx.port_lt, hsize]
  exact substr_right (h :: sharp :: x.1) x.2 sharp le_rfl

lemma Listed.status_ne (hc : Listed y l c) : c.status ≠ lit "K" := by
  rw [hc.status]
  decide

/-- A newcomer is announced: it goes to the end of the list, unless it is the cache itself. -/
lemma Listed.newcomer (hc : Listed y l c) (hx : IsAddr x) :
    ∃ c', c.receive flowOff (lit "N#" ++ joinAddr x) = some c' ∧
      Listed y (if x = y then l else l ++ [x]) c' := by
  have hmsg : lit "N#" ++ joinAddr x = tagged 78 x := rfl
  have hhead : (tagged 78 x).take 1 = lit "N" := rfl
  have hself : (x.1 ≠ c.localCacheIP ∨ x.2 ≠ c.portForCache) ↔ ¬ x = y := by
    rw [← hc.addr, Prod.ext_iff, not_and_or]
    rfl
  refine ⟨{ c with
    cacheList := if x = y then l else l ++ [x]
    cacheListUpdateFlag := true }, ?_, hc.flag, hc.status, hc.addr, rfl⟩
  rw [hmsg, receive, if_pos hc.flag, readFromMaster, spearFrom2_tagged hx, hhead]
  simp only [Option.bind_eq_bind, Option.bind_some, if_neg hc.status_ne, lit_inj,
    String.reduceEq, if_true, if_false, part_ip hx, part_port hx, updateCache, hself, Option.pure_def]
  split_ifs <;> simp [hc.list]

/-- Another cache of the list is shrunk. -/
lemma Listed.shrunk (hc : Listed y l c) (hx : IsAddr x) (hne : x ≠ y) (hmem : x ∈ l) :
    ∃ c', c.receive flowOff (lit "K#" ++ joinAddr x) = some c' ∧ Listed y (l.erase x) c' := by
  have hmsg : lit "K#" ++ joinAddr x = tagged 75 x := rfl
  have hhead : (tagged 75 x).take 1 = lit "K" := rfl
  have hother : ¬ (x.1 = c.localCacheIP ∧ x.2 = c.portForCache) := by
    rw [← hc.addr] at hne
    exact fun h => hne (Prod.ext h.1 h.2)
  refine ⟨{ c with
    dyingCacheIP := x.1
    dyingCachePort := x.2
    cacheList := l.erase x
    cacheListUpdateFlag := true }, ?_, hc.flag, hc.status, hc.addr, rfl⟩
  rw [hmsg, receive, if_pos hc.flag, readFromMaster, spearFrom2_tagged hx, hhead]
  simp only [Option.bind_eq_bind, Option.bind_some, if_neg hc.status_ne, if_true, dying,
    part_ip hx, part_port hx, updateCache, eraseCache, lit_inj, String.reduceEq, if_false, Prod.mk.eta,
    hc.list, if_pos hmem, Option.pure_def, if_neg hother]

/-- A cache that has been told to die, and keeps the list `l`. -/
structure Dying (l : List (Str × Str)) (c : Cache) : Prop where
  flag : c.initialFlag = true
  status : c.status = lit "K"
  list : c.cacheList = l

/-- The cache is itself shrunk: it takes its own address off its list. -/
lemma Listed.dying (hc : Listed y l c) (hy : IsAddr y) (hmem : y ∈ l) :
    ∃ c', c.receive flowOff (lit "K#" ++ joinAddr y) = some c' ∧ Dying (l.erase y) c' := by
  have hmsg : lit "K#" ++ joinAddr y = tagged 75 y := rfl
  have hhead : (tagged 75 y).take 1 = lit "K" := rfl
  have hown : y.1 = c.localCacheIP ∧ y.2 = c.portForCache := by
    rw [← hc.addr]
    exact ⟨rfl, rfl⟩
  refine ⟨{ c with
    status := lit "K"
    dyingCacheIP := y.1
    dyingCachePort := y.2
    cacheList := l.erase y
    cacheListUpdateFlag := true }, ?_, hc.flag, rfl, rfl⟩
  rw [hmsg, receive, if_pos hc.flag, readFromMaster, spearFrom2_tagged hy, hhead]
  simp only [Option.bind_eq_bind, Option.bind_some, if_neg hc.status_ne, if_true, Cache.dying,
    part_ip hy, part_port hy, updateCache, eraseCache, lit_inj, String.reduceEq, if_false, Prod.mk.eta,
    hc.list, if_pos hmem, Option.pure_def, if_pos hown]

/-- What comes later is ignored. -/
lemma Dying.ignores (hc : Dying l c) (hmsg : 2 ≤ message.length) :
    c.receive flowOff message = some c := by
  have hne : message ≠ [] := List.ne_nil_of_length_pos (by omega)
  have hspear : spearFrom2 message = some (2 + spear (message.drop 2)) := by
    rw [spearFrom2, if_neg hne, if_neg (by omega)]
  rw [receive, if_pos hc.flag, readFromMaster, hspear, Option.bind_eq_bind, Option.bind_some]
  exact if_pos hc.status

/-- A cache of the list has died. -/
lemma Listed.dead (hc : Listed y l c) (hx : IsAddr x) (hmem : x ∈ l) :
    ∃ c', c.receive flowOff (lit "D#" ++ joinAddr x) = some c' ∧ Listed y (l.erase x) c' := by
  have hmsg : lit "D#" ++ joinAddr x = tagged 68 x := rfl
  have hhead : (tagged 68 x).take 1 = lit "D" := rfl
  refine ⟨{ c with cacheList := l.erase x }, ?_, hc.flag, hc.status, hc.addr, rfl⟩
  rw [hmsg, receive, if_pos hc.flag, readFromMaster, spearFrom2_tagged hx, hhead]
  simp only [Option.bind_eq_bind, Option.bind_some, if_neg hc.status_ne, lit_inj,
    String.reduceEq, if_true, if_false, part_ip hx, part_port hx, eraseCache, Prod.mk.eta, hc.list,
    if_pos hmem]

/-- The answer to a heartbeat of a primary without a backup leaves the list. -/
lemma Listed.answer (hc : Listed y l c) :
    ∃ c', c.receive flowOff (lit "P#None") = some c' ∧ Listed y l c' := by
  have hspear : spearFrom2 (lit "P#None") = some 6 := by decide
  have hhead : (lit "P#None").take 1 = lit "P" := by decide
  have hrest : substr (lit "P#None") 2 (toSize ((lit "P#None").length - 2)) = some (lit "None") := by
    decide
  refine ⟨{ c with
    status := lit "P"
    prStatus := lit "P"
    targetIP := lit "None"
    targetPort := lit "None" }, ?_, hc.flag, rfl, hc.addr, hc.list⟩
  rw [receive, if_pos hc.flag, readFromMaster, hspear, hhead]
  simp only [Option.bind_eq_bind, Option.bind_some, if_neg hc.status_ne, lit_inj,
    String.reduceEq, if_true, if_false, setTarget, hrest, Option.pure_def]

end Cache

end DistCache
