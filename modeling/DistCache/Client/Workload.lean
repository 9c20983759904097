import DistCache.Cache.CacheList
import DistCache.Client.Fields
import DistCache.Lib.While

/-!
The child process of a client, which gives its parent the keys.

Without a file the keys are random.  With one they are read by `while (!eof()) >> key`.  The stream is at
its end only once a read has come to it, so a file that ends in white space gives its last key twice, and a
file without a word gives the key that there was before: the empty one, at the start, in which the parent
finds no field.
-/

namespace DistCache

open Lib

/-! ### Random keys -/

/-- `KEY_LENGTH`. -/
def keyLength : ℕ := 3

/-- A character of `strRand`. -/
def randChar (random : ℕ) : UInt8 :=
  let tmp := (random % 36).toUInt8
  if tmp < 10 then tmp + 48 else tmp - 10 + 65

/-- `strRand`, where `random` are the numbers drawn. -/
def strRand (random : List ℕ) : Str := random.map randChar

/-- It is a digit or a letter. -/
lemma le_randChar (random : ℕ) : 48 ≤ randChar random := by
  have hall : ∀ n < 36, 48 ≤ randChar n := by decide
  have hmod : randChar random = randChar (random % 36) := by
    unfold randChar
    rw [Nat.mod_mod]
  rw [hmod]
  exact hall _ (Nat.mod_lt _ (by decide))

/-! ### Keys from a file -/

/-- `isspace`. -/
def isSpace (c : UInt8) : Bool := c = 32 ∨ 9 ≤ c ∧ c ≤ 13

/-- An `std::ifstream`: what is left to read, and its two bits. -/
structure Ifstream where
  rest : Str
  eofbit : Bool
  failbit : Bool

namespace Ifstream

/-- The stream on a file, `none` where it cannot be opened. -/
def opened : Option Str → Ifstream
  | some s => ⟨s, false, false⟩
  | none => ⟨[], false, true⟩

/-- `operator>>` of a string.  A read that finds no character leaves the string. -/
def extract (f : Ifstream) (key : Str) : Ifstream × Str :=
  if f.eofbit ∨ f.failbit then ({ f with failbit := true }, key)
  else
    let rest := f.rest.dropWhile isSpace
    if rest = [] then (⟨[], true, true⟩, key)
    else
      let after := rest.dropWhile (! isSpace ·)
      (⟨after, after.isEmpty, false⟩, rest.takeWhile (! isSpace ·))

end Ifstream

/-- The child: `key_list_file`, `key`, and the messages that it has written into the pipe. -/
structure Child where
  file : Ifstream
  key : Str
  sent : List Str

namespace Child

/-- Before the first pass. -/
def start : Child := ⟨.opened none, [], []⟩

/-- `send_key_to_father`. -/
def sendKeyToFather (c : Child) (key : Str) : Child := { c with sent := c.sent ++ [lit "CHILD#" ++ key] }

/-- A turn of the loop on the file. -/
def turn (c : Child) : Option Child :=
  let (file, key) := c.file.extract c.key
  some ({ c with file, key }.sendKeyToFather key)

/-- The loop on a file. -/
def pass (fuel : ℕ) (c : Child) (file : Option Str) : Option Child :=
  whileLoop (fun c => !c.file.eofbit) turn fuel { c with file := .opened file }

/-- One pass after the other, where the file may change in between. -/
def passes (fuel : ℕ) (c : Child) (files : List Str) : Option Child :=
  files.foldlM (fun c s => c.pass fuel (some s)) c

end Child

/-! ### Words -/

/-- The words of a text. -/
def words (s : Str) : List Str := (s.splitOnP isSpace).filter (· ≠ [])

/-- The text is empty or ends in white space. -/
def EndsInSpace (s : Str) : Prop := ∀ c ∈ s.getLast?, isSpace c

instance decidableEndsInSpace (s : Str) : Decidable (EndsInSpace s) :=
  inferInstanceAs (Decidable (∀ c ∈ s.getLast?, isSpace c))

/-- The keys of a pass after the key `key`. -/
def keysOf (s key : Str) : List Str :=
  words s ++ if EndsInSpace s then [(words s).getLastD key] else []

/-- The keys of the passes. -/
def keysFrom : List Str → Str → List Str
  | [], _ => []
  | s :: files, key => keysOf s key ++ keysFrom files ((words s).getLastD key)

variable {s pre w after key : Str} {c : UInt8}

lemma words_nil : words [] = [] := by simp [words, List.splitOnP_nil]

lemma words_space (hc : isSpace c = true) (s : Str) : words (c :: s) = words s := by
  unfold words
  rw [List.splitOnP_cons_eq_if_modifyHead, if_pos hc, List.filter_cons_of_neg (by simp)]

lemma words_spaces (hpre : ∀ c ∈ pre, isSpace c = true) (s : Str) : words (pre ++ s) = words s := by
  induction pre with
  | nil => rfl
  | cons c pre ih =>
    rw [List.forall_mem_cons] at hpre
    rw [List.cons_append, words_space hpre.1, ih hpre.2]

/-- The word at the front. -/
lemma words_append (hne : w ≠ []) (hw : ∀ c ∈ w, isSpace c = false)
    (hafter : ∀ c ∈ after.head?, isSpace c = true) : words (w ++ after) = w :: words after := by
  cases after with
  | nil =>
    rw [List.append_nil, words_nil, words, List.splitOnP_eq_singleton hw, List.filter_cons_of_pos (by simpa)]
    rfl
  | cons c after =>
    have hc : isSpace c = true := hafter c rfl
    rw [words_space hc, words, List.splitOnP_append_cons_of_forall_mem hw c hc,
      List.filter_cons_of_pos (by simpa)]
    rfl

/-- What a read finds: white space only, or a word behind white space. -/
inductive Front (s : Str) : Prop
  | blank (hs : ∀ c ∈ s, isSpace c = true)
  | word {pre w after : Str} (hs : s = pre ++ (w ++ after)) (hpre : ∀ c ∈ pre, isSpace c = true) (hne : w ≠ [])
      (hw : ∀ c ∈ w, isSpace c = false) (hafter : ∀ c ∈ after.head?, isSpace c = true)

lemma front (s : Str) : Front s := by
  by_cases hs : s.dropWhile isSpace = []
  · exact .blank (List.dropWhile_eq_nil_iff.mp hs)
  · have hhead := List.head_dropWhile_not isSpace hs
    have hsplit : s = s.takeWhile isSpace ++ ((s.dropWhile isSpace).takeWhile (! isSpace ·) ++
        (s.dropWhile isSpace).dropWhile (! isSpace ·)) := by
      rw [List.takeWhile_append_dropWhile, List.takeWhile_append_dropWhile]
    refine .word hsplit (fun c => List.mem_takeWhile_imp) ?_ (fun c hc => by simpa using List.mem_takeWhile_imp hc)
      fun c hc => ?_
    · obtain ⟨c, r, hr⟩ := List.exists_cons_of_ne_nil hs
      simp only [hr, List.head_cons] at hhead ⊢
      rw [List.takeWhile_cons_of_pos (by simp [hhead])]
      exact List.cons_ne_nil _ _
    · have hnot := List.head?_dropWhile_not (! isSpace ·) (s.dropWhile isSpace)
      rw [hc] at hnot
      simpa using hnot

lemma extract_blank (hs : ∀ c ∈ s, isSpace c = true) (key : Str) :
    (Ifstream.opened (some s)).extract key = (⟨[], true, true⟩, key) := by
  unfold Ifstream.extract Ifstream.opened
  rw [if_neg (by simp), List.dropWhile_eq_nil_iff.mpr hs]
  exact if_pos rfl

lemma extract_word (hpre : ∀ c ∈ pre, isSpace c = true) (hne : w ≠ []) (hw : ∀ c ∈ w, isSpace c = false)
    (hafter : ∀ c ∈ after.head?, isSpace c = true) (key : Str) :
    (Ifstream.opened (some (pre ++ (w ++ after)))).extract key = (⟨after, after.isEmpty, false⟩, w) := by
  have hrest : (pre ++ (w ++ after)).dropWhile isSpace = w ++ after := by
    obtain ⟨c, r, rfl⟩ := List.exists_cons_of_ne_nil hne
    rw [List.dropWhile_append_of_pos hpre, List.cons_append,
      List.dropWhile_cons_of_neg (by simp [hw c List.mem_cons_self])]
  have hall : ∀ c ∈ w, (! isSpace c) = true := fun c hc => by simp [hw c hc]
  have htake : (w ++ after).takeWhile (! isSpace ·) = w := by
    rw [List.takeWhile_append_of_pos hall]
    cases after with
    | nil => simp
    | cons c after => simp [hafter c rfl]
  have hdrop : (w ++ after).dropWhile (! isSpace ·) = after := by
    rw [List.dropWhile_append_of_pos hall]
    cases after with
    | nil => rfl
    | cons c after => simp [hafter c rfl]
  unfold Ifstream.extract Ifstream.opened
  rw [if_neg (by simp)]
  dsimp only
  rw [hrest, if_neg (by simp [hne]), htake, hdrop]

lemma endsInSpace_blank (hs : ∀ c ∈ s, isSpace c = true) : EndsInSpace s :=
  fun c hc => hs c (List.mem_of_getLast? hc)

lemma endsInSpace_word (hne : w ≠ []) (hw : ∀ c ∈ w, isSpace c = false) :
    EndsInSpace (pre ++ (w ++ after)) ↔ after ≠ [] ∧ EndsInSpace after := by
  unfold EndsInSpace
  rw [List.getLast?_append_of_ne_nil _ (by simp [hne])]
  by_cases hafter : after = []
  · subst hafter
    refine iff_of_false (fun h => ?_) (by simp)
    have hlast := h (w.getLast hne) (by rw [List.append_nil, List.getLast?_eq_getLast_of_ne_nil hne]; rfl)
    rw [hw _ (List.getLast_mem hne)] at hlast
    cases hlast
  · rw [List.getLast?_append_of_ne_nil _ hafter]
    simp [hafter]

/-! ### A pass -/

lemma keysOf_blank (hs : ∀ c ∈ s, isSpace c = true) (key : Str) : keysOf s key = [key] := by
  have hnil : words s = [] := by
    have h := words_spaces hs []
    rwa [List.append_nil, words_nil] at h
  rw [keysOf, hnil, if_pos (endsInSpace_blank hs)]
  rfl

lemma keysOf_word (hpre : ∀ c ∈ pre, isSpace c = true) (hne : w ≠ []) (hw : ∀ c ∈ w, isSpace c = false)
    (hafter : ∀ c ∈ after.head?, isSpace c = true) (key : Str) :
    keysOf (pre ++ (w ++ after)) key = w :: if after = [] then [] else keysOf after w := by
  unfold keysOf
  rw [words_spaces hpre, words_append hne hw hafter]
  simp only [endsInSpace_word hne hw, List.getLastD_cons]
  by_cases hnil : after = []
  · rw [if_neg fun hboth => hboth.1 hnil, if_pos hnil, hnil, words_nil]
    rfl
  · rw [if_neg hnil, List.cons_append]
    simp only [ne_eq, hnil, not_false_eq_true, true_and]

lemma lastOf_word (hpre : ∀ c ∈ pre, isSpace c = true) (hne : w ≠ []) (hw : ∀ c ∈ w, isSpace c = false)
    (hafter : ∀ c ∈ after.head?, isSpace c = true) (key : Str) :
    (words (pre ++ (w ++ after))).getLastD key = (words after).getLastD w := by
  rw [words_spaces hpre, words_append hne hw hafter, List.getLastD_cons]

namespace Child

variable {fuel : ℕ} {sent : List Str}

/-- The loop ends, and has sent the keys. -/
lemma loop_file (hfuel : s.length < fuel) (key : Str) (sent : List Str) : ∃ file,
    whileLoop (fun c => !c.file.eofbit) turn fuel ⟨.opened (some s), key, sent⟩ =
      some ⟨file, (words s).getLastD key, sent ++ (keysOf s key).map fun key => lit "CHILD#" ++ key⟩ := by
  induction fuel generalizing s key sent with
  | zero => omega
  | succ fuel ih =>
    rcases front s with hs | ⟨rfl, hpre, hne, hw, hafter⟩
    · have hturn : turn ⟨.opened (some s), key, sent⟩ =
          some ⟨⟨[], true, true⟩, key, sent ++ [lit "CHILD#" ++ key]⟩ := by
        simp only [turn, extract_blank hs, sendKeyToFather]
      have hnil : (words s).getLastD key = key := by
        have h := words_spaces hs []
        rw [List.append_nil, words_nil] at h
        rw [h]
        rfl
      rw [whileLoop_of_turn rfl hturn, whileLoop_of_not rfl, keysOf_blank hs, hnil]
      exact ⟨_, rfl⟩
    · rename_i pre w after
      have hturn : turn ⟨.opened (some (pre ++ (w ++ after))), key, sent⟩ =
          some ⟨⟨after, after.isEmpty, false⟩, w, sent ++ [lit "CHILD#" ++ w]⟩ := by
        simp only [turn, extract_word hpre hne hw hafter, sendKeyToFather]
      rw [whileLoop_of_turn rfl hturn, keysOf_word hpre hne hw hafter, lastOf_word hpre hne hw hafter]
      by_cases hnil : after = []
      · subst hnil
        rw [whileLoop_of_not rfl, words_nil, if_pos rfl]
        exact ⟨_, rfl⟩
      · have hopen : (⟨after, after.isEmpty, false⟩ : Ifstream) = .opened (some after) := by
          rw [List.isEmpty_eq_false_iff.mpr hnil]
          rfl
        have hpos := List.length_pos_iff.mpr hne
        simp only [List.length_append] at hfuel
        obtain ⟨file, hloop⟩ := ih (s := after) (by omega) w (sent ++ [lit "CHILD#" ++ w])
        rw [hopen, hloop, if_neg hnil, List.map_cons, List.append_assoc]
        exact ⟨file, rfl⟩

/-- The passes end, and have sent the keys. -/
lemma passes_sent {files : List Str} (hfuel : ∀ s ∈ files, s.length < fuel) (c : Child) :
    ∃ c', c.passes fuel files = some c' ∧
      c'.sent = c.sent ++ (keysFrom files c.key).map fun key => lit "CHILD#" ++ key := by
  induction files generalizing c with
  | nil => exact ⟨c, rfl, (List.append_nil _).symm⟩
  | cons s files ih =>
    rw [List.forall_mem_cons] at hfuel
    obtain ⟨file, hloop⟩ := loop_file hfuel.1 c.key c.sent
    obtain ⟨c', hc', hsent⟩ := ih hfuel.2
      ⟨file, (words s).getLastD c.key, c.sent ++ (keysOf s c.key).map fun key => lit "CHILD#" ++ key⟩
    refine ⟨c', ?_, ?_⟩
    · rw [passes, List.foldlM_cons, pass, hloop]
      exact hc'
    · rw [hsent, keysFrom, List.map_append, List.append_assoc]

/-- Where the file cannot be opened the bit that the loop waits for is never set: it sends the key that there
was before, again and again. -/
theorem pass_unopened (fuel : ℕ) (c : Child) : c.pass fuel none = none ∧
    ∀ n, ∃ c' : Child, (fun c => c.bind turn)^[n] (some { c with file := .opened none }) = some c' ∧
      c'.sent = c.sent ++ List.replicate n (lit "CHILD#" ++ c.key) := by
  have hturn : ∀ sent, turn ⟨.opened none, c.key, sent⟩ =
      some ⟨.opened none, c.key, sent ++ [lit "CHILD#" ++ c.key]⟩ := fun sent => rfl
  constructor
  · have hloop : ∀ fuel sent,
        whileLoop (fun c => !c.file.eofbit) turn fuel ⟨.opened none, c.key, sent⟩ = none := by
      intro fuel
      induction fuel with
      | zero => exact fun sent => rfl
      | succ fuel ih =>
        intro sent
        rw [whileLoop_of_turn rfl (hturn sent)]
        exact ih _
    exact hloop fuel c.sent
  · intro n
    refine ⟨⟨.opened none, c.key, c.sent ++ List.replicate n (lit "CHILD#" ++ c.key)⟩, ?_, rfl⟩
    induction n with
    | zero => simp
    | succ n ih =>
      rw [Function.iterate_succ_apply', ih, Option.bind_some, hturn, List.replicate_succ', List.append_assoc]

end Child

/-! ### What the parent makes of it -/

/-- What the parent reads: `BUF_SIZE` bytes from the message on, up to the first zero.  Without a zero it reads
past its buffer. -/
def fromPipe (message : Str) : Option Str :=
  let bytes := (message ++ [0]).take bufSize
  if bytes.contains 0 then some (bytes.takeWhile (· ≠ 0)) else none

/-- The parent finds the key in the message. -/
def Arrives (key : Str) : Prop :=
  ∃ text, fromPipe (lit "CHILD#" ++ key) = some text ∧ Client.split text sharp = [lit "CHILD", key]

/-- A key that is read as it is. -/
structure Plain (key : Str) : Prop where
  field : IsField key
  zero_free : 0 ∉ key
  length_lt : key.length + 6 < bufSize

lemma takeWhile_append_zero {message : Str} (h : 0 ∉ message) (rest : Str) :
    (message ++ 0 :: rest).takeWhile (· ≠ 0) = message := by
  have hall : ∀ c ∈ message, decide (c ≠ 0) = true := fun c hc => by
    simpa using ne_of_mem_of_not_mem hc h
  rw [List.takeWhile_append_of_pos hall, List.takeWhile_cons_of_neg (by simp), List.append_nil]

lemma Plain.arrives (h : Plain key) : Arrives key := by
  have hzero : 0 ∉ lit "CHILD#" ++ key := by
    rw [List.mem_append, not_or]
    exact ⟨by decide, h.zero_free⟩
  have htake : (lit "CHILD#" ++ key ++ [0]).take bufSize = lit "CHILD#" ++ key ++ [0] := by
    have hlt := h.length_lt
    have hlen : (lit "CHILD#").length = 6 := by decide
    refine List.take_of_length_le ?_
    rw [List.length_append, List.length_append, List.length_singleton]
    omega
  refine ⟨lit "CHILD#" ++ key, ?_, ?_⟩
  · unfold fromPipe
    dsimp only
    rw [htake, if_pos (by simp), takeWhile_append_zero hzero]
  · have hcons : Client.split (lit "CHILD#" ++ key) sharp = lit "CHILD" :: Client.split key sharp :=
      Client.split_cons (f := lit "CHILD") (by decide) key
    rw [hcons, Client.split_last h.field.ne_nil h.field.sharp_free]

/-- A text with these fields is at least as long as the message. -/
lemma length_le_of_split {text : Str} (h : Client.split text sharp = [lit "CHILD", key]) :
    (lit "CHILD#" ++ key).length ≤ text.length ∧ sharp ∉ key := by
  obtain ⟨rest, -, rfl, hrest⟩ := (Client.split_eq_cons_cons_iff (List.cons_ne_nil key [])).mp h
  have hlen : (lit "CHILD#").length = (lit "CHILD").length + 1 := by decide
  obtain ⟨-, hnil⟩ | ⟨-, hfree, hone⟩ | ⟨f, rest, hf, rfl, hcons⟩ := Client.split_cases sharp rest
  · rw [hnil] at hrest
    cases hrest
  · rw [hone, List.cons.injEq] at hrest
    rw [← hrest.1]
    refine ⟨?_, hfree⟩
    simp only [List.length_append, List.length_cons, hlen]
    omega
  · rw [hcons, List.cons.injEq] at hrest
    rw [← hrest.1]
    refine ⟨?_, hf⟩
    simp only [List.length_append, List.length_cons, hlen]
    omega

lemma arrives_iff : Arrives key ↔ Plain key := by
  refine ⟨fun h => ?_, fun h => h.arrives⟩
  obtain ⟨text, htext, hsplit⟩ := h
  obtain ⟨hle, hfree⟩ := length_le_of_split hsplit
  have hchild : (lit "CHILD#").length = 6 := by decide
  generalize hmessage : lit "CHILD#" ++ key = message at htext hle
  unfold fromPipe at htext
  dsimp only at htext
  split_ifs at htext with hzero
  cases htext
  rw [List.contains_iff_mem] at hzero
  -- the zero is the one behind the message, so nothing of the message is missing
  have hlt : (((message ++ [0]).take bufSize).takeWhile (· ≠ 0)).length <
      ((message ++ [0]).take bufSize).length := by
    refine lt_of_le_of_ne (List.takeWhile_prefix _).length_le fun hsame => ?_
    have hself := (List.takeWhile_prefix _).eq_of_length hsame
    simpa using List.takeWhile_eq_self_iff.mp hself 0 hzero
  have hbound : message.length + 1 ≤ bufSize := by
    rw [List.length_take] at hlt
    omega
  have htake : (message ++ [0]).take bufSize = message ++ [0] :=
    List.take_of_length_le (by simpa using hbound)
  rw [htake] at hle hsplit
  have hwhole : (message ++ [0]).takeWhile (· ≠ 0) = message := by
    have htext := List.prefix_of_prefix_length_le (List.prefix_append message [0])
      (List.takeWhile_prefix (l := message ++ [0]) fun c => decide (c ≠ 0)) hle
    have hlen : ((message ++ [0]).takeWhile (· ≠ 0)).length ≤ message.length := by
      rw [htake, List.length_append, List.length_singleton] at hlt
      omega
    exact (htext.eq_of_length_le hlen).symm
  have hfree0 : 0 ∉ message := fun hmem => by
    rw [← hwhole] at hmem
    simpa using List.mem_takeWhile_imp hmem
  rw [hwhole, ← hmessage] at hsplit
  subst hmessage
  refine ⟨⟨fun hnil => ?_, hfree⟩, fun hmem => hfree0 (List.mem_append_right _ hmem), ?_⟩
  · subst hnil
    exact absurd hsplit (by decide)
  · rw [List.length_append] at hbound
    omega

/-- Without a file every key is found. -/
theorem random_arrives {random : List ℕ} (h : random.length = keyLength) : Arrives (strRand random) := by
  have hfree : ∀ c < 48, c ∉ strRand random := fun c hc hmem => by
    obtain ⟨n, -, rfl⟩ := List.mem_map.mp hmem
    exact UInt8.not_lt.mpr (le_randChar n) hc
  have hlen : (strRand random).length = keyLength := by rw [strRand, List.length_map, h]
  refine arrives_iff.mpr ⟨⟨fun hnil => ?_, hfree sharp (by decide)⟩, hfree 0 (by decide), ?_⟩
  · rw [hnil] at hlen
    cases hlen
  · rw [hlen]
    decide

/-! ### The keys of the passes -/

lemma words_ne_nil (hmem : w ∈ words s) : w ≠ [] := by
  simpa using (List.mem_filter.mp hmem).2

/-- A file without a word is white space. -/
lemma endsInSpace_of_words (h : words s = []) : EndsInSpace s := by
  rcases front s with hs | ⟨rfl, hpre, hne, hw, hafter⟩
  · exact endsInSpace_blank hs
  · rw [words_spaces hpre, words_append hne hw hafter] at h
    cases h

/-- The last key of a pass is a word, or the file has none and it is the one before. -/
lemma lastOf_cases (s key : Str) :
    (words s).getLastD key ∈ words s ∨ words s = [] ∧ (words s).getLastD key = key := by
  cases words s with
  | nil => exact .inr ⟨rfl, rfl⟩
  | cons x l =>
    left
    rw [List.getLastD_cons]
    exact List.getLastD_mem_cons

/-- What holds of all words holds of all keys, if it holds of the key before the first pass or the first file
has a word. -/
lemma forall_keysFrom {p : Str → Prop} {files : List Str} (hwords : ∀ s ∈ files, ∀ w ∈ words s, p w)
    (hfirst : p key ∨ ∀ s ∈ files.head?, words s ≠ []) : ∀ k ∈ keysFrom files key, p k := by
  induction files generalizing key with
  | nil => exact fun k hk => absurd hk List.not_mem_nil
  | cons s files ih =>
    rw [List.forall_mem_cons] at hwords
    have hlast : p ((words s).getLastD key) := by
      rcases lastOf_cases s key with hmem | ⟨hnil, hsame⟩
      · exact hwords.1 _ hmem
      · rw [hsame]
        exact hfirst.resolve_right fun h => h s rfl hnil
    intro k hk
    rcases List.mem_append.mp hk with hk | hk
    · rcases List.mem_append.mp hk with hk | hk
      · exact hwords.1 k hk
      · split_ifs at hk
        · rw [List.mem_singleton.mp hk]
          exact hlast
        · cases hk
    · exact ih hwords.2 (.inl hlast) k hk

lemma mem_keysFrom {files : List Str} (hs : s ∈ files) (hw : w ∈ words s) (key : Str) :
    w ∈ keysFrom files key := by
  induction files generalizing key with
  | nil => cases hs
  | cons s' files ih =>
    rcases List.mem_cons.mp hs with rfl | hs
    · exact List.mem_append_left _ (List.mem_append_left _ hw)
    · exact List.mem_append_right _ (ih hs _)

/-- **The keys from a file.**  Whatever the file holds in each pass, the passes end, and what the child sends
are the words of the file in order, with the last key again after a pass over a file that ends in white space.
The parent finds each of the keys in its message exactly when the first file has a word, and no word has a
separator or a zero or is too long for the buffer. -/
theorem file_keys (files : List Str) (fuel : ℕ) (hfuel : ∀ s ∈ files, s.length < fuel) :
    (∃ c, Child.start.passes fuel files = some c ∧
      c.sent = (keysFrom files []).map fun key => lit "CHILD#" ++ key) ∧
    ((∀ key ∈ keysFrom files [], Arrives key) ↔ (∀ s ∈ files.head?, words s ≠ []) ∧
      ∀ s ∈ files, ∀ w ∈ words s, sharp ∉ w ∧ 0 ∉ w ∧ w.length + 6 < bufSize) := by
  constructor
  · exact Child.passes_sent hfuel Child.start
  · simp only [arrives_iff]
    constructor
    · refine fun h => ⟨fun s hs hnil => ?_, fun s hs w hw => ?_⟩
      · obtain ⟨files, rfl⟩ := List.head?_eq_some_iff.mp hs
        have hkeys : keysOf s [] = [[]] := by
          rw [keysOf, hnil, if_pos (endsInSpace_of_words hnil)]
          rfl
        have hmem : [] ∈ keysFrom (s :: files) [] := by
          refine List.mem_append_left _ ?_
          rw [hkeys]
          exact List.mem_cons_self
        exact (h [] hmem).field.ne_nil rfl
      · have hplain := h w (mem_keysFrom hs hw [])
        exact ⟨hplain.field.sharp_free, hplain.zero_free, hplain.length_lt⟩
    · rintro ⟨hfirst, hwords⟩
      refine forall_keysFrom (fun s hs w hw => ?_) (.inr hfirst)
      obtain ⟨hfree, hzero, hlt⟩ := hwords s hs w hw
      exact ⟨⟨words_ne_nil hw, hfree⟩, hzero, hlt⟩

/-- A file with a line end after its last key, in two passes: `BAD` comes four times. -/
theorem file_keys_twice : ∃ c, Child.start.passes 10 [lit "AAD\nBAD\n", lit "AAD\nBAD\n"] = some c ∧
    c.sent = [lit "CHILD#AAD", lit "CHILD#BAD", lit "CHILD#BAD", lit "CHILD#AAD", lit "CHILD#BAD",
      lit "CHILD#BAD"] := by
  obtain ⟨c, hc, hsent⟩ := (file_keys [lit "AAD\nBAD\n", lit "AAD\nBAD\n"] 10 (by decide)).1
  refine ⟨c, hc, hsent.trans ?_⟩
  decide +kernel

end DistCache
