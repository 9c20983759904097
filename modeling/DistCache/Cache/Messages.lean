import DistCache.Cache.State

/-!
What a message of the master does to a cache.  It writes the members that the callback owns, which
`Told` lists with the two statuses, and no others: the store, the address of the cache and the plan
of its migration belong to the threads that serve clients and migrate entries.
-/

namespace DistCache

namespace Cache

variable {c c' : Cache} {flowOff : Str → ℤ} {ip port st message : Str} {i : ℤ} {pair : Str × Str}

/-- `c'` is `c` with other values of what the callback writes. -/
def Told (c c' : Cache) : Prop :=
  ∃ status prStatus list flag dyingIP dyingPort targetIP targetPort inited initial,
    c' = { c with
      status := status
      prStatus := prStatus
      cacheList := list
      cacheListUpdateFlag := flag
      dyingCacheIP := dyingIP
      dyingCachePort := dyingPort
      targetIP := targetIP
      targetPort := targetPort
      isInitialed := inited
      initialFlag := initial }

/-! ### The functions that a message calls -/

lemma eraseCache_eq (h : c.eraseCache pair = some c') :
    c' = { c with cacheList := c.cacheList.erase pair } := by
  unfold eraseCache at h
  split_ifs at h
  cases h
  rfl

lemma updateCache_cases (h : c.updateCache ip port st = some c') :
    ∃ list dyingIP dyingPort, c' = { c with
      cacheList := list
      dyingCacheIP := dyingIP
      dyingCachePort := dyingPort
      cacheListUpdateFlag := true } := by
  simp only [updateCache, Option.bind_eq_bind, Option.bind_eq_some_iff, Option.pure_def,
    Option.some.injEq] at h
  obtain ⟨c₁, h, rfl⟩ := h
  split_ifs at h
  · cases h
    exact ⟨_, _, _, rfl⟩
  · cases h
    exact ⟨_, _, _, rfl⟩
  · rw [eraseCache_eq h]
    exact ⟨_, _, _, rfl⟩
  · cases h
    exact ⟨_, _, _, rfl⟩

lemma setTarget_cases (h : c.setTarget message i = some c') :
    ∃ targetIP targetPort, c' = { c with targetIP := targetIP, targetPort := targetPort } := by
  simp only [setTarget, Option.bind_eq_bind, Option.bind_eq_some_iff, Option.pure_def] at h
  obtain ⟨rest, -, h⟩ := h
  split_ifs at h
  · cases h
    exact ⟨_, _, rfl⟩
  · simp only [Option.bind_eq_some_iff, Option.some.injEq] at h
    obtain ⟨ip, -, port, -, rfl⟩ := h
    exact ⟨_, _, rfl⟩

lemma failover_eq (h : c.failover flowOff message i = some c') : c' = c := by
  simp only [failover, Option.bind_eq_bind, Option.bind_eq_some_iff, Option.pure_def,
    Option.some.injEq] at h
  obtain ⟨-, -, -, -, -, -, -, -, -, -, -, -, rfl⟩ := h
  rfl

lemma dying_cases (h : c.dying message i = some c') :
    ∃ status list dyingIP dyingPort, c' = { c with
      status := status
      cacheList := list
      dyingCacheIP := dyingIP
      dyingCachePort := dyingPort
      cacheListUpdateFlag := true } := by
  simp only [dying, Option.bind_eq_bind, Option.bind_eq_some_iff, Option.pure_def] at h
  obtain ⟨ip, -, port, -, c₁, hc₁, h⟩ := h
  obtain ⟨list, dyingIP, dyingPort, rfl⟩ := updateCache_cases hc₁
  split_ifs at h <;> cases h <;> exact ⟨_, _, _, _, rfl⟩

/-! ### A message -/

/-- **What a message can do.**  It writes what the callback owns; only one that announces a shrink
makes the status `K`, and the role in the heartbeats can only become `P`. -/
theorem readFromMaster_cases (h : c.readFromMaster flowOff message = some c') :
    c.Told c' ∧ (c'.status = c.status ∨ message.take 1 = lit "K" ∨ c'.status ≠ lit "K") ∧
      (c'.prStatus = c.prStatus ∨ c'.prStatus = lit "P") := by
  simp only [readFromMaster, Option.bind_eq_bind, Option.bind_eq_some_iff, Option.pure_def] at h
  obtain ⟨spear, -, h⟩ := h
  have hne : lit "P" ≠ lit "K" ∧ lit "R" ≠ lit "K" := by decide
  split_ifs at h with hdying hK hN hP hR hC hD
  · cases h
    exact ⟨⟨_, _, _, _, _, _, _, _, _, _, rfl⟩, .inl rfl, .inl rfl⟩
  · obtain ⟨_, _, _, _, rfl⟩ := dying_cases h
    exact ⟨⟨_, _, _, _, _, _, _, _, _, _, rfl⟩, .inr (.inl hK), .inl rfl⟩
  · simp only [Option.bind_eq_some_iff] at h
    obtain ⟨ip, -, port, -, h⟩ := h
    obtain ⟨_, _, _, rfl⟩ := updateCache_cases h
    exact ⟨⟨_, _, _, _, _, _, _, _, _, _, rfl⟩, .inl rfl, .inl rfl⟩
  · rw [hP] at h
    obtain ⟨_, _, rfl⟩ := setTarget_cases h
    exact ⟨⟨_, _, _, _, _, _, _, _, _, _, rfl⟩, .inr (.inr hne.1), .inr rfl⟩
  · rw [hR] at h
    obtain ⟨_, _, rfl⟩ := setTarget_cases h
    exact ⟨⟨_, _, _, _, _, _, _, _, _, _, rfl⟩, .inr (.inr hne.2), .inl rfl⟩
  · rw [failover_eq h]
    exact ⟨⟨_, _, _, _, _, _, _, _, _, _, rfl⟩, .inl rfl, .inl rfl⟩
  · simp only [Option.bind_eq_some_iff] at h
    obtain ⟨ip, -, port, -, h⟩ := h
    rw [eraseCache_eq h]
    exact ⟨⟨_, _, _, _, _, _, _, _, _, _, rfl⟩, .inl rfl, .inl rfl⟩
  · cases h
    exact ⟨⟨_, _, _, _, _, _, _, _, _, _, rfl⟩, .inl rfl, .inl rfl⟩

/-- The mark of the first message is the callback's own. -/
lemma initialFlag_readFromMaster (h : c.readFromMaster flowOff message = some c') :
    c'.initialFlag = c.initialFlag := by
  simp only [readFromMaster, Option.bind_eq_bind, Option.bind_eq_some_iff, Option.pure_def] at h
  obtain ⟨spear, -, h⟩ := h
  split_ifs at h with hdying hK hN hP hR hC hD
  · cases h
    rfl
  · obtain ⟨_, _, _, _, rfl⟩ := dying_cases h
    rfl
  · simp only [Option.bind_eq_some_iff] at h
    obtain ⟨ip, -, port, -, h⟩ := h
    obtain ⟨_, _, _, rfl⟩ := updateCache_cases h
    rfl
  · obtain ⟨_, _, rfl⟩ := setTarget_cases h
    rfl
  · obtain ⟨_, _, rfl⟩ := setTarget_cases h
    rfl
  · rw [failover_eq h]
  · simp only [Option.bind_eq_some_iff] at h
    obtain ⟨ip, -, port, -, h⟩ := h
    rw [eraseCache_eq h]
  · cases h
    rfl

/-- Only a message that announces a shrink can change the status to `K`. -/
lemma status_readFromMaster (hhead : message.take 1 ≠ lit "K")
    (h : c.readFromMaster flowOff message = some c') (hK : c'.status = lit "K") :
    c.status = lit "K" := by
  obtain ⟨-, hsame | hhead' | hne, -⟩ := readFromMaster_cases h
  · exact hsame.symm.trans hK
  · exact absurd hhead' hhead
  · exact absurd hK hne

/-- The callback on a message: the first one of a primary writes the list of caches and the marks
of the initialisation. -/
theorem receive_cases (h : c.receive flowOff message = some c') :
    c.Told c' ∧ (c'.prStatus = c.prStatus ∨ c'.prStatus = lit "P") := by
  unfold receive at h
  split_ifs at h
  · obtain ⟨htold, -, hpr⟩ := readFromMaster_cases h
    exact ⟨htold, hpr⟩
  · have hinitial : ∃ list inited, c.initial message = { c with
        cacheList := list
        isInitialed := inited } := by
      unfold initial
      split_ifs
      · exact ⟨_, _, rfl⟩
      · dsimp only
        split_ifs <;> exact ⟨_, _, rfl⟩
    obtain ⟨list, inited, hinitial⟩ := hinitial
    rw [hinitial] at h
    dsimp only at h
    split_ifs at h
    cases h
    exact ⟨⟨_, _, _, _, _, _, _, _, _, _, rfl⟩, .inl rfl⟩

/-- After any message the first one has been read. -/
lemma initialFlag_receive (h : c.receive flowOff message = some c') : c'.initialFlag = true := by
  unfold receive at h
  split_ifs at h with hflag
  · rw [initialFlag_readFromMaster h]
    exact hflag
  · dsimp only at h
    split_ifs at h
    cases h
    rfl

end Cache

end DistCache
