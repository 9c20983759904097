import DistCache.Buffers
import DistCache.Client.Workload
import DistCache.Cluster
import DistCache.Master.Takeover

/-!
Where a client connects to.

The address of a cache goes through five texts: the heartbeat, the record of the master, `ip:port`, the answer
to the client and its fields.  At the one end `server_socket` reads the port with `stoi`, at the other
`parse_str_addr` with `atol` what lies behind the first colon.  In an orderly run of primaries the client
comes out where the cache listens (`reaches_server`).
-/

namespace DistCache

open Lib

/-! ### Numbers in texts -/

def isDigit (c : UInt8) : Bool := 48 ≤ c ∧ c ≤ 57

/-- The sign of a number and what comes after it. -/
def signed : Str → ℤ × Str
  | [] => (1, [])
  | c :: s => if c = 45 then (-1, s) else if c = 43 then (1, s) else (1, c :: s)

/-- The number that decimal digits write. -/
def digitsValue (digits : Str) : ℕ := digits.foldl (fun n c => 10 * n + (c.toNat - 48)) 0

/-- `strtol` at base 10, `none` where it finds no digit. -/
def strtol (s : Str) : Option ℤ :=
  let (sign, s) := signed (s.dropWhile isSpace)
  let digits := s.takeWhile isDigit
  if digits = [] then none else some (sign * digitsValue digits)

/-- `stoi`, which throws where there is no digit and where the number is no `int`. -/
def stoi (s : Str) : Option ℤ :=
  (strtol s).bind fun n => if -2 ^ 31 ≤ n ∧ n < 2 ^ 31 then some n else none

/-- `atol`: `strtol` gives the nearest `long`, and 0 where there is no digit. -/
def atol (s : Str) : ℤ := max (-2 ^ 63) (min (2 ^ 63 - 1) ((strtol s).getD 0))

/-- A number as the `uint16_t` that `htons` takes. -/
def toPort (n : ℤ) : UInt16 := UInt16.ofInt n

/-- The address that `server_socket` listens at, and the one that `client_socket` connects to. -/
def serverSocket (serverIP serverPort : Str) : Option (Str × UInt16) :=
  (stoi serverPort).map fun n => (serverIP, toPort n)

/-- `parse_str_addr`. -/
def parseStrAddr (strAddr : Str) : Option (Str × UInt16) :=
  match Client.split strAddr colon with
  | ip :: port :: _ => some (ip, toPort (atol port))
  | _ => none

variable {s f rest ip port : Str} {n : ℤ} {c : UInt8} {p : UInt8 → Bool}

/-! ### A number ends at a colon -/

lemma takeWhile_stop (hc : p c = false) (f rest : Str) : (f ++ c :: rest).takeWhile p = f.takeWhile p := by
  induction f with
  | nil => exact List.takeWhile_cons_of_neg (by simp [hc])
  | cons a f ih =>
    rw [List.cons_append, List.takeWhile_cons, List.takeWhile_cons, ih]

lemma dropWhile_stop (hc : p c = false) (f rest : Str) :
    (f ++ c :: rest).dropWhile p = f.dropWhile p ++ c :: rest := by
  induction f with
  | nil => exact List.dropWhile_cons_of_neg (by simp [hc])
  | cons a f ih =>
    rw [List.cons_append, List.dropWhile_cons, List.dropWhile_cons]
    split_ifs
    · exact ih
    · rfl

lemma signed_stop (f rest : Str) :
    signed (f ++ colon :: rest) = ((signed f).1, (signed f).2 ++ colon :: rest) := by
  cases f with
  | nil => rfl
  | cons a f =>
    simp only [List.cons_append, signed]
    split_ifs <;> rfl

lemma strtol_stop (f rest : Str) : strtol (f ++ colon :: rest) = strtol f := by
  have hspace : isSpace colon = false := by decide
  have hdigit : isDigit colon = false := by decide
  simp only [strtol, dropWhile_stop hspace, signed_stop, takeWhile_stop hdigit]

/-- What comes behind a colon does not count. -/
lemma strtol_takeWhile (s : Str) : strtol (s.takeWhile (· ≠ colon)) = strtol s := by
  have happend := List.takeWhile_append_dropWhile (p := fun c => decide (c ≠ colon)) (l := s)
  have hnot := List.head?_dropWhile_not (fun c => decide (c ≠ colon)) s
  cases hd : s.dropWhile (· ≠ colon) with
  | nil => rw [List.takeWhile_eq_self_iff.mpr (List.dropWhile_eq_nil_iff.mp hd)]
  | cons c rest =>
    rw [hd] at happend hnot
    have hc : c = colon := by simpa using hnot
    subst hc
    rw [← strtol_stop _ rest, happend]

lemma atol_of_stoi (h : stoi s = some n) : atol s = n := by
  obtain ⟨m, hm, h⟩ := Option.bind_eq_some_iff.mp h
  split_ifs at h with hint
  cases h
  rw [atol, hm, Option.getD_some]
  omega

lemma ne_nil_of_stoi (h : stoi s = some n) : s ≠ [] := by
  rintro rfl
  cases h

/-- **The two readers agree** on where a cache listens, when its ip has no colon. -/
lemma parseStrAddr_serverSocket {endpoint : Str × UInt16} (hip : colon ∉ ip)
    (h : serverSocket ip port = some endpoint) : parseStrAddr (ip ++ colon :: port) = some endpoint := by
  obtain ⟨n, hn, rfl⟩ := Option.map_eq_some_iff.mp h
  obtain ⟨l, hport⟩ := Client.split_eq_takeWhile_cons colon (ne_nil_of_stoi hn)
  have hnumber : stoi (port.takeWhile (· ≠ colon)) = some n := by
    rw [stoi, strtol_takeWhile]
    exact hn
  rw [parseStrAddr, Client.split_cons hip, hport]
  dsimp only
  rw [atol_of_stoi hnumber]

namespace Cluster

variable {flowOff : Str → ℤ} {c : Cluster} {fd : ℤ}

/-- **Where a client connects to.**  Primaries join, die and are shrunk, none of them joins or dies in the wait of
a shrink, and one that joins has an address of its own (`Orderly`).  Then the client that asks for a key of a
primary gets a text of three fields: the third one is the address that the cache gives in its replies, and the
client reads it as the address at which the cache of the key listens, when the ip has no colon and `stoi`
takes the port. -/
theorem reaches_server (h : Reach Init (step flowOff) Orderly c) {key : Word}
    (hk : c.world.master.lookupFd key = some fd) : ∃ p text, c.procs fd = some p ∧
      c.world.master.startClient key = some text ∧
      Client.split text sharp = [lit "MASTER", key, p.cache.address] ∧
      ∀ endpoint, colon ∉ p.cache.localCacheIP →
        serverSocket p.cache.localCacheIP p.cache.portForClient = some endpoint →
          parseStrAddr p.cache.address = some endpoint := by
  have hi : c.Agree flowOff :=
    h.invariant (fun _ => agree_init) fun _ _ _ _ hi hok hs => hi.step hok hs
  have hfd : fd ∈ c.world.master.fdNode := by
    obtain ⟨i, -, hfd⟩ := Option.bind_eq_some_iff.mp hk
    exact List.mem_of_getElem? hfd
  obtain ⟨p, hp, hprim, hrec⟩ := hi.node fd hfd
  have hip : IsField p.cache.localCacheIP := hprim.addr.ip
  have hsplit : splitSharp (p.cache.record fd).ipPort = [p.cache.localCacheIP, p.cache.portForClient] :=
    splitSharp_pair hip hprim.portForClient
  have hanswer : c.world.master.handleClientMessage key = some p.cache.address := by
    rw [Master.handleClientMessage_eq, hk, Option.bind_some, hrec, Option.map_some, Option.bind_some, hsplit]
    rfl
  have haddress : IsField p.cache.address := by
    have hne : sharp ≠ colon := by decide
    refine ⟨by simp [Cache.address], ?_⟩
    simp [Cache.address, hip.sharp_free, hprim.portForClient.sharp_free, hne]
  refine ⟨p, lit "MASTER#" ++ key ++ sharp :: p.cache.address, hp, ?_, ?_, fun endpoint hcolon hsocket => ?_⟩
  · rw [Master.startClient, hanswer]
    rfl
  · have htext : lit "MASTER#" ++ key ++ sharp :: p.cache.address =
        lit "MASTER" ++ sharp :: (key ++ sharp :: p.cache.address) := by
      rw [show lit "MASTER#" = lit "MASTER" ++ [sharp] from rfl]
      simp
    rw [htext]
    exact Client.split_three ⟨by decide, by decide⟩ key.2 haddress
  · exact parseStrAddr_serverSocket hcolon hsocket

/-- The key `AAD`, when there is one primary. -/
theorem reaches_server_onePrimary : ∃ c p text, path (step fun _ => 0) Orderly
    ⟨World.start 1638316800, fun _ => none⟩ (firstDies.take 2) = some c ∧ c.procs 5 = some p ∧
    c.world.master.startClient (lit "AAD") = some text ∧
    Client.split text sharp = [lit "MASTER", lit "AAD", p.cache.address] ∧
    parseStrAddr p.cache.address = some (lit "127.0.0.1", 8001) := by
  have hrun : (path (step fun _ => 0) Orderly ⟨World.start 1638316800, fun _ => none⟩ (firstDies.take 2)).bind
      (fun c => (c.procs 5).map fun p => (c.world.master.lookupFd (lit "AAD"), p.cache.localCacheIP,
        serverSocket p.cache.localCacheIP p.cache.portForClient)) =
      some (some 5, lit "127.0.0.1", some (lit "127.0.0.1", 8001)) := by
    decide +kernel
  obtain ⟨c, hc, hf⟩ := Option.bind_eq_some_iff.mp hrun
  obtain ⟨p, hp, hf⟩ := Option.map_eq_some_iff.mp hf
  simp only [Prod.mk.injEq] at hf
  obtain ⟨hk, hip, hsocket⟩ := hf
  let key : Word := ⟨lit "AAD", by decide, by decide⟩
  obtain ⟨q, text, hq, htext, hsplit, hreaches⟩ :=
    reaches_server (reach_of_path ⟨_, rfl⟩ hc) (show c.world.master.lookupFd key.1 = some 5 from hk)
  obtain rfl : p = q := Option.some.inj (hp.symm.trans hq)
  exact ⟨c, p, text, hc, hp, htext, hsplit, hreaches _ (by rw [hip]; decide) hsocket⟩

end Cluster

end DistCache
