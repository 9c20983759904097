import DistCache.Client.Requests
import DistCache.Lib.Recency

/-!
Which reads succeed, said by the replies alone.

The server forgets the least recently used key.  A read that fails uses no key, so what counts as a use is
what was answered with `SUCCESS`: the server holds the ten keys that were used last, and a read succeeds iff
fewer than ten other keys have been used since the last use of its own (`succeeds_iff_reused`).
-/

namespace DistCache

open Lib

namespace Request

/-- The state that the client reads from a reply. -/
def Succeeds (reply : Str) : Prop := (Client.split reply sharp).head? = some (lit "SUCCESS")

instance (reply : Str) : Decidable (Succeeds reply) := inferInstanceAs (Decidable (_ = _))

/-- The keys of the requests that succeeded, in order. -/
def used (answered : List (Request × Str)) : List Str :=
  (answered.filter fun a => Succeeds a.2).map fun a => a.1.key.1

variable {request : Request} {reply addr : Str} {history : List Request} {answered : List (Request × Str)}

lemma used_concat_of_succeeds (h : Succeeds reply) :
    used (answered ++ [(request, reply)]) = used answered ++ [request.key.1] := by
  unfold used
  rw [List.filter_append, List.filter_cons_of_pos (by simpa using h), List.map_append]
  rfl

lemma used_concat_of_fails (h : ¬ Succeeds reply) : used (answered ++ [(request, reply)]) = used answered := by
  unfold used
  rw [List.filter_append, List.filter_cons_of_neg (by simpa using h), List.filter_nil, List.append_nil]

/-- A request succeeds when it is a write or its key is held. -/
lemma succeeds_iff (h : request.Answers addr history (Client.split reply sharp)) :
    Succeeds reply ↔ (∃ key value, request = .write key value) ∨ request.key.1 ∈ held 10 history := by
  have hne : lit "FAILED" ≠ lit "SUCCESS" := by decide
  unfold Succeeds
  cases request with
  | write key value =>
    rw [Answers] at h
    rw [h]
    exact iff_of_true rfl (.inl ⟨key, value, rfl⟩)
  | read key =>
    rw [Answers] at h
    split_ifs at h with hmem
    · obtain ⟨v, -, hfields⟩ := h
      rw [hfields]
      exact iff_of_true rfl (.inr hmem)
    · rw [h]
      refine iff_of_false (fun heq => hne (Option.some.inj heq)) ?_
      rintro (⟨_, _, heq⟩ | hmem')
      · cases heq
      · exact hmem hmem'

/-- A request that succeeds brings its key to the front. -/
lemma hold_of_succeeds {n : ℕ} {l : List Str} (hl : l.length ≤ n)
    (h : (∃ key value, request = .write key value) ∨ request.key.1 ∈ l) :
    hold n l request = (request.key.1 :: l.filter (· ≠ request.key.1)).take n := by
  cases request with
  | write key value => rfl
  | read key =>
    have hmem : key.1 ∈ l := by
      rcases h with ⟨_, _, heq⟩ | hmem
      · cases heq
      · exact hmem
    have hlen := length_hold_le hl (.read key)
    rw [hold, if_pos hmem, bringFirst] at hlen ⊢
    exact (List.take_of_length_le hlen).symm

lemma hold_of_fails {n : ℕ} {l : List Str}
    (h : ¬ ((∃ key value, request = .write key value) ∨ request.key.1 ∈ l)) : hold n l request = l := by
  cases request with
  | write key value => exact absurd (.inl ⟨key, value, rfl⟩) h
  | read key => exact if_neg fun hmem => h (.inr hmem)

/-- One more request. -/
lemma held_step (hheld : held 10 history = (recent (used answered)).take 10)
    (h : request.Answers addr history (Client.split reply sharp)) :
    held 10 (history ++ [request]) = (recent (used (answered ++ [(request, reply)]))).take 10 := by
  rw [held_concat]
  by_cases hsucceeds : Succeeds reply
  · rw [hold_of_succeeds (length_held_le 10 history) ((succeeds_iff h).mp hsucceeds), hheld,
      take_front_take, used_concat_of_succeeds hsucceeds]
  · rw [hold_of_fails (mt (succeeds_iff h).mpr hsucceeds), hheld, used_concat_of_fails hsucceeds]

/-- What is held are the ten keys used last. -/
lemma held_eq_recent {requests : List Request} {replies : List Str} (hlen : replies.length = requests.length)
    (hall : ∀ (i : ℕ) request reply, requests[i]? = some request → replies[i]? = some reply →
      request.Answers addr (requests.take i) (Client.split reply sharp)) {i : ℕ} (hi : i ≤ requests.length) :
    held 10 (requests.take i) = (recent (used ((requests.zip replies).take i))).take 10 := by
  induction i with
  | zero => rfl
  | succ i ih =>
    have hrequest : requests[i]? = some requests[i] := List.getElem?_eq_getElem hi
    have hreply : replies[i]? = some replies[i] := List.getElem?_eq_getElem (by omega)
    have hzip : (requests.zip replies)[i]? = some (requests[i], replies[i]) :=
      List.getElem?_zip_eq_some.mpr ⟨hrequest, hreply⟩
    have htake : (requests.zip replies).take (i + 1) =
        (requests.zip replies).take i ++ [(requests[i], replies[i])] := by
      rw [List.take_add_one, hzip]
      rfl
    rw [List.take_add_one, hrequest, htake]
    exact held_step (ih (by omega)) (hall i _ _ hrequest hreply)

end Request

/-- The requests leave the reference map in the server. -/
lemma Cache.Served.of_chat {c c' : Cache} {addr : Str} {history requests : List Request} {replies : List Str}
    (hc : Served addr history c) (haddr : IsField addr)
    (h : c.chat (requests.map Request.text) = some (c', replies)) : Served addr (history ++ requests) c' := by
  induction requests generalizing c history replies with
  | nil =>
    cases h
    rwa [List.append_nil]
  | cons request requests ih =>
    obtain ⟨c₁, reply, hchat, hc₁, -⟩ := hc.answered haddr request
    rw [List.map_cons, Cache.chat, hchat] at h
    simp only [Option.bind_eq_bind, Option.bind_some, Option.bind_eq_some_iff, Option.pure_def,
      Option.some.injEq] at h
    obtain ⟨⟨c₂, replies₂⟩, hrest, h⟩ := h
    cases h
    have hserved := ih hc₁ hrest
    rwa [List.append_assoc, List.singleton_append] at hserved

/-- **Reads and what was used since.**  Whatever requests the clients of a cache server send, a write
succeeds, and a read succeeds iff the requests before it that succeeded have used its key, and since its
last use fewer than ten other keys.  The server then holds the ten keys used last, in that order. -/
theorem succeeds_iff_reused (cacheSizeLocal : ℤ) (status : Str) (ip portForClient : Word)
    (portForCache : Str) (requests : List Request) : ∃ c replies,
      (Cache.new cacheSizeLocal status ip portForClient portForCache).chat
        (requests.map Request.text) = some (c, replies) ∧
      c.mainCache.keys = (recent (Request.used (requests.zip replies))).take 10 ∧
      ∀ (i : ℕ) request reply, requests[i]? = some request → replies[i]? = some reply →
        (Request.Succeeds reply ↔ (∃ key value, request = .write key value) ∨
          ∃ pre post, Request.used ((requests.zip replies).take i) = pre ++ request.key.1 :: post ∧
            request.key.1 ∉ post ∧ post.dedup.length < 10) := by
  have haddr : IsField (ip.1 ++ colon :: portForClient.1) := by
    have hne : sharp ≠ colon := by decide
    exact ⟨by simp, by simp [ip.2.sharp_free, portForClient.2.sharp_free, hne]⟩
  have hnew := Cache.served_new cacheSizeLocal status ip portForClient portForCache
  obtain ⟨c, replies, hchat, hlen, hall⟩ := hnew.chat haddr requests
  have hserved := hnew.of_chat haddr hchat
  refine ⟨c, replies, hchat, ?_, fun i request reply hrequest hreply => ?_⟩
  · have hheld := Request.held_eq_recent hlen hall le_rfl
    have hzip : (requests.zip replies).take requests.length = requests.zip replies :=
      List.take_of_length_le (by rw [List.length_zip]; omega)
    rw [List.take_length, hzip] at hheld
    rw [hserved.keys, List.nil_append, hheld]
  · have hi : i ≤ requests.length := (List.getElem?_eq_some_iff.mp hrequest).1.le
    rw [Request.succeeds_iff (hall i request reply hrequest hreply), List.nil_append,
      Request.held_eq_recent hlen hall hi, mem_take_recent]

end DistCache
