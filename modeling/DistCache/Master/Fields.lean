import DistCache.Lib.Faults
import DistCache.Master.World

/-!
The fields of a heartbeat that the master reads, and what it has written by then.

`split` gives no empty fields, so a heartbeat that is cut short, or has an empty field, has fewer than five.
Nothing tests how many there are before they are read: the test in `handleHeartBeatResponse` has an empty
branch.  The functions are stated once more with the field that is missing and the tables at that moment
(`toOption_checkedHeartbeat`).
-/

namespace DistCache

open Lib

/-- Why the heartbeat branch ends early. -/
inductive HeartFault where
  /-- `vtmsg[i]` is not there; these are the tables. -/
  | field (i : ℕ) (master : Master)
  /-- `operator[]` makes a null entry, and it is dereferenced. -/
  | nullEntry

namespace Master

/-! ### The functions with their faults -/

/-- `firstHeartbeat`.  The addresses are written before the role is read. -/
def checkedFirst (m : Master) (fd : ℤ) (vtmsg : List Str) : Except HeartFault Out := do
  let it ← orFault (m.cachesList.lookup fd) .nullEntry
  let ip ← orFault vtmsg[1]? (.field 1 m)
  let portClient ← orFault vtmsg[2]? (.field 2 m)
  let portCache ← orFault vtmsg[3]? (.field 3 m)
  let told := { m with cachesList := m.cachesList.insert fd { it with
    ipPort := ip ++ sharp :: portClient
    ipCache := ip ++ sharp :: portCache } }
  let role ← orFault vtmsg[4]? (.field 4 told)
  let status ← orFault role.head? (.field 4 told)
  let m := { m with cachesList := m.cachesList.insert fd (it.register ip portClient portCache status) }
  if role = lit "P" then orFault (m.joinPrimary fd) .nullEntry
  else if role = lit "R" then orFault (m.joinReplica fd) .nullEntry
  else return { master := m }

/-- `handleHeartBeatResponse`. -/
def checkedResponse (m : Master) (timeNow : ℤ) (msg : Str) : Except HeartFault Master := do
  let vtmsg := splitSharp msg
  let ip ← orFault vtmsg[1]? (.field 1 m)
  let port ← orFault vtmsg[2]? (.field 2 m)
  return { m with cacheAddrMap := m.cacheAddrMap.insert (ip ++ sharp :: port) timeNow }

/-- The branch of `start_cache` for a message that begins with `'x'`. -/
def checkedHeartbeat (m : Master) (timeNow fd : ℤ) (msg : Str) : Except HeartFault Out := do
  let it ← orFault (m.cachesList.lookup fd) .nullEntry
  let out ← (if it.ipPort = noAddr then m.checkedFirst fd (splitSharp msg) else pure { master := m })
  let answer ← orFault (out.master.reply fd) .nullEntry
  let m ← out.master.checkedResponse timeNow msg
  return { master := m, sends := out.sends ++ [(fd, answer)] }

variable {m : Master} {timeNow fd : ℤ} {msg x ip port : Str} {l : List Str} {it : FdMap}

/-- **The same functions.**  What is left when the reasons are forgotten is what the master does. -/
theorem toOption_checkedHeartbeat (m : Master) (timeNow fd : ℤ) (msg : Str) :
    (m.checkedHeartbeat timeNow fd msg).toOption = m.heartbeat timeNow fd msg := by
  have hfirst (vtmsg : List Str) : (m.checkedFirst fd vtmsg).toOption = m.firstHeartbeat fd vtmsg := by
    simp only [checkedFirst, firstHeartbeat, toOption_bind, toOption_orFault, toOption_ite, toOption_pure,
      Option.bind_eq_bind, Option.pure_def]
  have hresponse (m : Master) : (m.checkedResponse timeNow msg).toOption =
      m.handleHeartBeatResponse timeNow msg := by
    simp only [checkedResponse, handleHeartBeatResponse, toOption_bind, toOption_orFault, toOption_pure,
      Option.bind_eq_bind, Option.pure_def]
  simp only [checkedHeartbeat, heartbeat, toOption_bind, toOption_orFault, toOption_ite, toOption_pure,
    hfirst, hresponse, Option.bind_eq_bind, Option.pure_def]

/-! ### Messages that are too short -/

/-- A field that is not there is read. -/
def MissesField : HeartFault → Prop
  | .field _ _ => True
  | .nullEntry => False

/-- The tables afterwards are those from before. -/
def Unchanged (m : Master) : Except HeartFault Out → Prop
  | .ok out => out.master = m
  | .error (.field _ m') => m' = m
  | .error .nullEntry => False

/-- The fields of a heartbeat: on the first one of a connection all are read, and later
`handleHeartBeatResponse` tests for four. -/
def fieldsNeeded (m : Master) (fd : ℤ) : ℕ :=
  match m.cachesList.lookup fd with
  | some it => if it.ipPort = noAddr then 5 else 4
  | none => 5

/-- No field is read that is not there, and a message with too few fields changes no table. -/
def Careful (m : Master) (timeNow fd : ℤ) (msg : Str) : Prop :=
  Avoids MissesField (m.checkedHeartbeat timeNow fd msg) ∧
    ((splitSharp msg).length < m.fieldsNeeded fd → m.Unchanged (m.checkedHeartbeat timeNow fd msg))

/-- The message has the time of its address once more, and no other news. -/
structure Repeats (m : Master) (timeNow fd : ℤ) (msg : Str) (it : FdMap) (x ip port : Str) : Prop where
  record : m.cachesList.lookup fd = some it
  told : it.ipPort ≠ noAddr
  partner : it.pairFd > -1 → it.pairFd ∈ m.cachesList
  fields : splitSharp msg = [x, ip, port]
  time : m.cacheAddrMap.lookup (ip ++ sharp :: port) = some timeNow

/-- The messages that are handled as they should be. -/
def Complete (m : Master) (timeNow fd : ℤ) (msg : Str) : Prop :=
  m.fieldsNeeded fd ≤ (splitSharp msg).length ∨ ∃ it x ip port, m.Repeats timeNow fd msg it x ip port

/-! ### Each function -/

lemma not_avoids_field {α : Type} {i : ℕ} : ¬ Avoids MissesField (.error (.field i m) : Except HeartFault α) :=
  fun h => avoids_error_iff.mp h trivial

lemma avoids_nullEntry {α : Type} : Avoids MissesField (.error .nullEntry : Except HeartFault α) :=
  avoids_error_iff.mpr not_false

lemma avoids_orNull {α : Type} {o : Option α} : Avoids MissesField (orFault o .nullEntry) :=
  avoids_orFault not_false

lemma exists_three (h : 3 ≤ l.length) : ∃ x ip port rest, l = x :: ip :: port :: rest := by
  match l with
  | [] | [_] | [_, _] =>
    simp only [List.length_cons, List.length_nil] at h
    omega
  | x :: ip :: port :: rest => exact ⟨x, ip, port, rest, rfl⟩

lemma checkedResponse_of_fields (h : splitSharp msg = x :: ip :: port :: l) :
    m.checkedResponse timeNow msg =
      .ok { m with cacheAddrMap := m.cacheAddrMap.insert (ip ++ sharp :: port) timeNow } := by
  rw [checkedResponse, h]
  rfl

lemma checkedResponse_short (m : Master) (timeNow : ℤ) (h : (splitSharp msg).length < 3) :
    ∃ i, m.checkedResponse timeNow msg = .error (.field i m) := by
  rw [checkedResponse]
  match hsplit : splitSharp msg with
  | [] => exact ⟨1, rfl⟩
  | [x] => exact ⟨1, rfl⟩
  | [x, ip] => exact ⟨2, rfl⟩
  | x :: ip :: port :: l =>
    rw [hsplit, List.length_cons, List.length_cons, List.length_cons] at h
    omega

/-- The first heartbeat reads the role in any case. -/
lemma checkedFirst_short (hrec : m.cachesList.lookup fd = some it) (h : l.length < 5) :
    ∃ i m', m.checkedFirst fd l = .error (.field i m') := by
  rw [checkedFirst, hrec, orFault_some, ok_bind]
  match l with
  | [] => exact ⟨1, _, rfl⟩
  | [x] => exact ⟨1, _, rfl⟩
  | [x, ip] => exact ⟨2, _, rfl⟩
  | [x, ip, portClient] => exact ⟨3, _, rfl⟩
  | [x, ip, portClient, portCache] => exact ⟨4, _, rfl⟩
  | x :: ip :: portClient :: portCache :: role :: l =>
    simp only [List.length_cons] at h
    omega

lemma avoids_checkedFirst (hfields : ∀ f ∈ l, f ≠ []) (h : 5 ≤ l.length) :
    Avoids MissesField (m.checkedFirst fd l) := by
  match l with
  | [] | [_] | [_, _] | [_, _, _] | [_, _, _, _] =>
    simp only [List.length_cons, List.length_nil] at h
    omega
  | x :: ip :: portClient :: portCache :: role :: l =>
    obtain ⟨status, rest, hrole⟩ := List.exists_cons_of_ne_nil (hfields role (by simp))
    rw [checkedFirst, avoids_bind_iff]
    refine ⟨avoids_orNull, fun it _ => ?_⟩
    subst hrole
    simp only [List.getElem?_cons_zero, List.getElem?_cons_succ, orFault_some, ok_bind, List.head?_cons]
    split_ifs
    · exact avoids_orNull
    · exact avoids_orNull
    · exact avoids_pure

/-- There is an answer when the partner has a record. -/
lemma exists_reply_iff (hrec : m.cachesList.lookup fd = some it) :
    (∃ answer, m.reply fd = some answer) ↔ (it.pairFd > -1 → it.pairFd ∈ m.cachesList) := by
  rw [reply, hrec, Option.bind_eq_bind, Option.bind_some]
  split_ifs with hpair
  · rw [forall_prop_of_true hpair, Finmap.mem_iff]
    simp only [Option.bind_eq_some_iff, Option.pure_def]
    constructor
    · rintro ⟨_, e, he, -⟩
      exact ⟨e, he⟩
    · rintro ⟨e, he⟩
      exact ⟨_, e, he, rfl⟩
  · exact iff_of_true ⟨_, rfl⟩ fun h => absurd h hpair

/-! ### The three kinds of connections -/

/-- There is no record, and a null entry is made. -/
lemma careful_none_iff (hrec : m.cachesList.lookup fd = none) :
    m.Careful timeNow fd msg ↔ 5 ≤ (splitSharp msg).length := by
  have hnull : m.checkedHeartbeat timeNow fd msg = .error .nullEntry := by
    rw [checkedHeartbeat, hrec]
    rfl
  unfold Careful fieldsNeeded
  rw [hnull, hrec, and_iff_right avoids_nullEntry, ← not_lt]
  exact Iff.rfl

/-- The first heartbeat. -/
lemma careful_first_iff (hrec : m.cachesList.lookup fd = some it) (hno : it.ipPort = noAddr) :
    m.Careful timeNow fd msg ↔ 5 ≤ (splitSharp msg).length := by
  unfold Careful fieldsNeeded
  rw [checkedHeartbeat, hrec, orFault_some, ok_bind]
  dsimp only
  rw [if_pos hno, if_pos hno]
  rcases Nat.lt_or_ge (splitSharp msg).length 5 with hlt | hge
  · obtain ⟨i, m', hfirst⟩ := checkedFirst_short hrec hlt
    rw [hfirst]
    exact iff_of_false (fun h => not_avoids_field h.1) (by omega)
  · refine iff_of_true ⟨?_, fun h => absurd h (by omega)⟩ hge
    obtain ⟨x, ip, port, l, hsplit⟩ := exists_three (show 3 ≤ (splitSharp msg).length by omega)
    rw [avoids_bind_iff]
    refine ⟨avoids_checkedFirst (fun f hf => (mem_splitSharp hf).ne_nil) hge, fun out _ => ?_⟩
    rw [avoids_bind_iff]
    refine ⟨avoids_orNull, fun answer _ => ?_⟩
    rw [checkedResponse_of_fields hsplit, ok_bind]
    exact avoids_pure

lemma insert_cacheAddrMap_iff {addr : Str} :
    { m with cacheAddrMap := m.cacheAddrMap.insert addr timeNow } = m ↔
      m.cacheAddrMap.lookup addr = some timeNow := by
  constructor
  · intro h
    rw [← congrArg cacheAddrMap h]
    exact Finmap.lookup_insert _
  · intro h
    have hsame : m.cacheAddrMap.insert addr timeNow = m.cacheAddrMap := by
      refine Finmap.ext_lookup fun addr' => ?_
      by_cases haddr : addr' = addr
      · rw [haddr, Finmap.lookup_insert, h]
      · rw [Finmap.lookup_insert_of_ne _ haddr]
    rw [hsame]

/-- A first heartbeat without its role has written the addresses. -/
lemma checkedHeartbeat_four {portClient portCache : Str} (hrec : m.cachesList.lookup fd = some it)
    (hno : it.ipPort = noAddr) (hsplit : splitSharp msg = [x, ip, portClient, portCache]) :
    m.checkedHeartbeat timeNow fd msg = .error (.field 4 { m with
      cachesList := m.cachesList.insert fd { it with
        ipPort := ip ++ sharp :: portClient
        ipCache := ip ++ sharp :: portCache } }) := by
  rw [checkedHeartbeat, hrec, orFault_some, ok_bind, if_pos hno, checkedFirst, hrec, hsplit]
  rfl

/-- A later heartbeat. -/
lemma careful_told_iff (hrec : m.cachesList.lookup fd = some it) (htold : it.ipPort ≠ noAddr) :
    m.Careful timeNow fd msg ↔
      4 ≤ (splitSharp msg).length ∨ ∃ x ip port, m.Repeats timeNow fd msg it x ip port := by
  have hrun : m.checkedHeartbeat timeNow fd msg =
      (orFault (m.reply fd) HeartFault.nullEntry >>= fun answer =>
        m.checkedResponse timeNow msg >>= fun m => .ok { master := m, sends := [(fd, answer)] }) := by
    rw [checkedHeartbeat, hrec, orFault_some, ok_bind, if_neg htold]
    rfl
  have hthree : (∃ x ip port, m.Repeats timeNow fd msg it x ip port) → (splitSharp msg).length = 3 := by
    rintro ⟨x, ip, port, h⟩
    rw [h.fields]
    rfl
  unfold Careful fieldsNeeded
  rw [hrun, hrec]
  dsimp only
  rw [if_neg htold]
  cases hreply : m.reply fd with
  | none =>
    rw [orFault_none, error_bind, and_iff_right avoids_nullEntry, ← not_lt]
    refine ⟨.inl, fun h => h.elim id ?_⟩
    rintro ⟨x, ip, port, h⟩
    obtain ⟨answer, hanswer⟩ := (exists_reply_iff hrec).mpr h.partner
    cases hreply.symm.trans hanswer
  | some answer =>
    rw [orFault_some, ok_bind]
    rcases Nat.lt_or_ge (splitSharp msg).length 3 with hlt | hge
    · obtain ⟨i, hfault⟩ := checkedResponse_short m timeNow hlt
      rw [hfault, error_bind]
      refine iff_of_false (fun h => not_avoids_field h.1) fun h => ?_
      have hlen := h.imp id hthree
      omega
    obtain ⟨x, ip, port, l, hsplit⟩ := exists_three hge
    rw [checkedResponse_of_fields hsplit, ok_bind, and_iff_right avoids_ok]
    show (_ → _ = m) ↔ _
    rw [insert_cacheAddrMap_iff]
    cases l with
    | nil =>
      have hpartner := (exists_reply_iff hrec).mp ⟨answer, hreply⟩
      rw [hsplit]
      constructor
      · exact fun h => .inr ⟨x, ip, port, hrec, htold, hpartner, hsplit, h (Nat.lt_succ_self 3)⟩
      · rintro (h | ⟨x', ip', port', h⟩) -
        · exact absurd h (Nat.not_succ_le_self 3)
        · cases hsplit.symm.trans h.fields
          exact h.time
    | cons portCache l =>
      rw [hsplit]
      refine iff_of_true (fun h => ?_) (.inl ?_)
      · simp only [List.length_cons] at h
        omega
      · simp only [List.length_cons]
        omega

/-- **Heartbeats.**  Only fields that are there are read, and a message with too few changes no table,
exactly when the message has all its fields, or repeats the address and the time that are known. -/
theorem careful_iff (m : Master) (timeNow fd : ℤ) (msg : Str) :
    m.Careful timeNow fd msg ↔ m.Complete timeNow fd msg := by
  unfold Complete fieldsNeeded
  cases hrec : m.cachesList.lookup fd with
  | none =>
    have hnot : ¬ ∃ it x ip port, m.Repeats timeNow fd msg it x ip port := by
      rintro ⟨it, x, ip, port, h⟩
      cases hrec.symm.trans h.record
    rw [careful_none_iff hrec, or_iff_left hnot]
  | some it =>
    have hsame : (∃ it x ip port, m.Repeats timeNow fd msg it x ip port) ↔
        ∃ x ip port, m.Repeats timeNow fd msg it x ip port := by
      constructor
      · rintro ⟨it', x, ip, port, h⟩
        cases hrec.symm.trans h.record
        exact ⟨x, ip, port, h⟩
      · exact fun h => ⟨it, h⟩
    dsimp only
    rw [hsame]
    split_ifs with hno
    · have hnot : ¬ ∃ x ip port, m.Repeats timeNow fd msg it x ip port := by
        rintro ⟨x, ip, port, h⟩
        exact h.told hno
      rw [careful_first_iff hrec hno, or_iff_left hnot]
    · exact careful_told_iff hrec hno

end Master

namespace World

/-- The first heartbeat of a connection without its role, whose addresses are written, and later heartbeats
with one field and with two. -/
theorem careful_not : ∃ w w', path step Atomic (start 1638316800) [.accept 5] = some w ∧
    path step Atomic w [.receive 5 (lit "x#127.0.0.1#8001#9001#P"), .tick] = some w' ∧
    (∃ m', w.master.checkedHeartbeat w.timeNow 5 (lit "x#127.0.0.1#8001#9001") = .error (.field 4 m') ∧
      (m'.cachesList.lookup 5).map FdMap.ipPort = some (lit "127.0.0.1#8001")) ∧
    ¬ w.master.Careful w.timeNow 5 (lit "x#127.0.0.1#8001#9001") ∧
    ¬ w'.master.Careful w'.timeNow 5 (lit "x#127.0.0.1") ∧
    ¬ w'.master.Careful w'.timeNow 5 (lit "x#127.0.0.1#8001") := by
  have hrun : (path step Atomic (start 1638316800) [.accept 5]).bind (fun w =>
      (w.master.cachesList.lookup 5).map FdMap.ipPort) = some noAddr := by
    decide +kernel
  have hrun' : ((path step Atomic (start 1638316800) [.accept 5]).bind fun w =>
      path step Atomic w [.receive 5 (lit "x#127.0.0.1#8001#9001#P"), .tick]).bind (fun w =>
        (w.master.cachesList.lookup 5).map fun it => (decide (it.ipPort ≠ noAddr), w.timeNow,
          w.master.cacheAddrMap.lookup (lit "127.0.0.1#8001"))) =
      some (true, 1638316801, some 1638316800) := by
    decide +kernel
  obtain ⟨w, hw, hf⟩ := Option.bind_eq_some_iff.mp hrun
  obtain ⟨it, hrec, hno⟩ := Option.map_eq_some_iff.mp hf
  rw [hw, Option.bind_some] at hrun'
  obtain ⟨w', hw', hf'⟩ := Option.bind_eq_some_iff.mp hrun'
  obtain ⟨it', hrec', hf'⟩ := Option.map_eq_some_iff.mp hf'
  simp only [Prod.mk.injEq, decide_eq_true_iff] at hf'
  obtain ⟨htold, htime, hlast⟩ := hf'
  have hsplit : splitSharp (lit "x#127.0.0.1#8001") = [lit "x", lit "127.0.0.1", lit "8001"] := by decide
  refine ⟨w, w', hw, hw', ?_, fun h => ?_, fun h => ?_, fun h => ?_⟩
  · have hfields : splitSharp (lit "x#127.0.0.1#8001#9001") =
        [lit "x", lit "127.0.0.1", lit "8001", lit "9001"] := by decide
    refine ⟨_, Master.checkedHeartbeat_four hrec hno hfields, ?_⟩
    rw [Finmap.lookup_insert]
    rfl
  · exact absurd ((Master.careful_first_iff hrec hno).mp h) (by decide)
  · rcases (Master.careful_told_iff hrec' htold).mp h with h | ⟨x, ip, port, h⟩
    · exact absurd h (by decide)
    · cases (show splitSharp (lit "x#127.0.0.1") = [lit "x", lit "127.0.0.1"] by decide).symm.trans h.fields
  · rcases (Master.careful_told_iff hrec' htold).mp h with h | ⟨x, ip, port, h⟩
    · exact absurd h (by decide)
    · cases hsplit.symm.trans h.fields
      have hnow := hlast.symm.trans h.time
      rw [htime] at hnow
      exact absurd hnow (by decide)

end World

end DistCache
