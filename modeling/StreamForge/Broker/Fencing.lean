import StreamForge.Broker.GroupCalls

/-!
# Fencing

Two promises about who may move a group's offsets.

A member that was removed never gets back in: its id has a number in it that is
not given out again, so no later state of the group has a member of that name
(`Retired.step`), and every call under it is refused. A commit by a member is
written only while the member, its generation and its assignment are current.

A standalone commit is meant for groups without members. The section that
checks this looks at the group that the lookup found. If the lookup found none,
nothing is checked and nothing is locked, and a member may have joined since.
-/

namespace StreamForge

open Transition

namespace GroupCoordinator

/-! ## Member ids -/

theorem formatMemberId_ne_nil (groupId : Bytes) (counter : UInt64) (rand : UInt16) :
    formatMemberId groupId counter rand ≠ [] := by
  simp [formatMemberId]

variable {groupId id : Bytes} {mgr : TopicManager} {s s' : CallSystem} {a : CallAction}
    {P : CallSystem → CallAction → Prop}

/-- **Ids with different numbers are different**, whatever their random part. -/
theorem formatMemberId_inj {k k' : UInt64} {rand rand' : UInt16}
    (h : formatMemberId groupId k rand = formatMemberId groupId k' rand') : k = k' := by
  unfold formatMemberId at h
  simp only at h
  -- the random part and the two dashes have fixed lengths
  obtain ⟨hfront, -⟩ := List.append_inj' h rfl
  obtain ⟨hfront, -⟩ := List.append_inj' hfront rfl
  rw [List.append_assoc, List.append_assoc (groupId ++ ascii "-")] at hfront
  have hdigits := congrArg Decimal.ofDecimal (List.append_cancel_left hfront)
  rw [Decimal.ofDecimal_zeros, Decimal.ofDecimal_zeros] at hdigits
  unfold toString at hdigits
  rw [Decimal.ofDecimal_toDecimal, Decimal.ofDecimal_toDecimal] at hdigits
  exact UInt64.toNat_inj.mp hdigits

/-- `id` is a member of the group now. -/
def Member (c : GroupCoordinator) (groupId id : Bytes) : Prop :=
  ∃ g, c.groups.lookup groupId = some g ∧ id ∈ g.members

theorem mem_of_subscribe {g g' : Group} {topics : List Bytes} {strategy : AssignorStrategy}
    (h : subscribe g topics strategy = .ok g') :
    id ∈ g'.members ↔ id ∈ g.members := by
  obtain ⟨-, rfl⟩ | ⟨-, -, -, rfl⟩ := subscribe_cases h <;> exact Iff.rfl

theorem GroupChange.mem {offered : List Bytes → Prop} {k k' : UInt64} {flag : Bool}
    {g g' : Option Group} (h : GroupChange mgr offered k k' groupId flag g g') {x' : Group}
    (hg' : g' = some x') (hid : id ∈ x'.members) :
    (∃ x, g = some x ∧ id ∈ x.members) ∨
      k' = k + 1 ∧ ∃ rand, id = formatMemberId groupId k rand := by
  cases h with
  | same _ => exact Or.inl ⟨x', hg', hid⟩
  | created topics strategy =>
    cases hg'
    exact absurd (AList.mem_keys.mp hid) (by simp [AList.keys, List.keys])
  | subscribed topics strategy hempty =>
    cases hg'
    exact Or.inl ⟨_, rfl, hid⟩
  | joined member rand _ hsub hcounter =>
    cases hg'
    rw [mem_rebalanceUnlocked, AList.mem_insert] at hid
    rcases hid with rfl | hid
    · exact Or.inr ⟨hcounter, rand, rfl⟩
    · exact Or.inl ⟨_, rfl, (mem_of_subscribe hsub).mp hid⟩
  | refreshed hm _ =>
    cases hg'
    rw [AList.mem_insert] at hid
    refine Or.inl ⟨_, rfl, ?_⟩
    rcases hid with rfl | hid
    · exact AList.lookup_isSome.mp (by rw [hm]; rfl)
    · exact hid
  | removed id' hsub _ _ =>
    cases hg'
    exact Or.inl ⟨_, rfl, hsub id (mem_afterRemoval.mp hid)⟩

theorem joinLookup_memberCounter {c c' : GroupCoordinator} {topics : List Bytes}
    {strategy : AssignorStrategy} (h : c.joinLookup groupId topics strategy = .ok c') :
    c'.memberCounter = c.memberCounter := by
  obtain rfl | ⟨-, -, rfl⟩ := joinLookup_cases h <;> rfl

/-- The section of a join touches its own group only, and the counter only for a
new member. -/
theorem joinGroup_scope (c : GroupCoordinator) (mgr : TopicManager) (groupId memberId : Bytes)
    (sessionTimeoutMs : UInt32) (topics : List Bytes) (strategy : AssignorStrategy) (env : Env) :
    let c' := (c.joinGroup mgr groupId memberId sessionTimeoutMs topics strategy env).2
    (∀ id, id ≠ groupId → c'.groups.lookup id = c.groups.lookup id) ∧
      (memberId ≠ [] → c'.memberCounter = c.memberCounter) := by
  have hinsert : ∀ g : Group, ∀ id, id ≠ groupId →
      (c.groups.insert groupId g).lookup id = c.groups.lookup id :=
    fun g id hid => AList.lookup_insert_ne hid
  have houtcome := joinOutcome c mgr groupId memberId sessionTimeoutMs topics strategy env
  generalize c.joinGroup mgr groupId memberId sessionTimeoutMs topics strategy env = res
    at houtcome ⊢
  cases houtcome with
  | refused _ => exact ⟨fun _ _ => rfl, fun _ => rfl⟩
  | subscribed _ _ _ => exact ⟨hinsert _, fun _ => rfl⟩
  | added hnew _ _ _ _ _ => exact ⟨hinsert _, fun hid => absurd hnew hid⟩
  | refreshed _ _ _ _ => exact ⟨hinsert _, fun _ => rfl⟩

/-- **Only the section of a join without a member id gives one out.** -/
theorem Step.memberCounter {s s' : GroupSystem} {a : Action} (h : Step s a s') :
    s'.coordinator.memberCounter = s.coordinator.memberCounter ∨
      ∃ call env, a = .joinGroup call env ∧ call.memberId = [] ∧
        ∀ id, id ≠ call.groupId →
          s'.coordinator.groups.lookup id = s.coordinator.groups.lookup id := by
  cases h with
  | storage _ => exact Or.inl rfl
  | joinCheck _ => exact Or.inl rfl
  | joinLookup _ hlookup => exact Or.inl (joinLookup_memberCounter hlookup)
  | joinRefused _ _ => exact Or.inl rfl
  | @joinGroup call _ _ env _ =>
    obtain ⟨hothers, hkept⟩ := joinGroup_scope s.coordinator s.mgr call.groupId call.memberId
      call.sessionTimeoutMs call.topics (strategyOf call.strategy) env
    by_cases hid : call.memberId = []
    · exact Or.inr ⟨call, env, rfl, hid, hothers⟩
    · exact Or.inl (hkept hid)
  | heartbeat groupId memberId generation env =>
    left
    simp only [GroupCoordinator.heartbeat]
    split
    · rfl
    · split
      · rfl
      · split <;> rfl
  | leave groupId memberId =>
    left
    simp only [GroupCoordinator.leave]
    split
    · rfl
    · split <;> rfl
  | expire groupId now =>
    left
    simp only [expireLoop]
    split <;> rfl
  | commit _ _ _ _ _ => exact Or.inl rfl

/-! ## Ids are not given out again -/

/-- What is known about ids as long as fewer than 2^64 were generated. -/
structure IdInv (s : CallSystem) : Prop where
  counter : s.coordinator.memberCounter.toNat = (s.issued + 1) % 2 ^ 64
  ids : ∀ groupId id, Member s.coordinator groupId id →
    ∃ k rand, id = formatMemberId groupId k rand ∧ k.toNat ≤ s.issued

theorem CallStep.quiet {a : Action} {s' : GroupSystem} (hcommit : a.isCommit = false)
    (hstep : Step s.toGroupSystem a s')
    (hcounter : s'.coordinator.memberCounter = s.coordinator.memberCounter) :
    CallStep s (.other a) { s with toGroupSystem := s' } := by
  have h := CallStep.other hcommit hstep
  rw [hcounter, UInt64.sub_self] at h
  exact h

theorem CallStep.giving {a : Action} {s' : GroupSystem} (hcommit : a.isCommit = false)
    (hstep : Step s.toGroupSystem a s')
    (hcounter : s'.coordinator.memberCounter = s.coordinator.memberCounter + 1) :
    CallStep s (.other a) { s with toGroupSystem := s', issued := s.issued + 1 } := by
  have h := CallStep.other hcommit hstep
  rw [hcounter, UInt64.add_comm, UInt64.add_sub_cancel] at h
  exact h

theorem CallStep.issued (h : CallStep s a s') :
    s'.coordinator.memberCounter = s.coordinator.memberCounter ∧ s'.issued = s.issued ∨
      s'.coordinator.memberCounter = s.coordinator.memberCounter + 1 ∧
        s'.issued = s.issued + 1 := by
  cases h with
  | other hcommit hstep =>
    rcases hstep.changes.counter with heq | heq
    · exact Or.inl ⟨heq, by simp [heq]⟩
    · refine Or.inr ⟨heq, ?_⟩
      have hone : s.coordinator.memberCounter + 1 - s.coordinator.memberCounter = 1 := by
        rw [UInt64.add_comm, UInt64.add_sub_cancel]
      simp only [heq, hone]
      rfl
  | commitCheck _ => exact Or.inl ⟨rfl, rfl⟩
  | commitLookup _ => exact Or.inl ⟨rfl, rfl⟩
  | commitSection _ _ => exact Or.inl ⟨rfl, rfl⟩

theorem CallStep.member (h : CallStep s a s') (hid : Member s'.coordinator groupId id) :
    Member s.coordinator groupId id ∨
      s'.issued = s.issued + 1 ∧
        ∃ rand, id = formatMemberId groupId s.coordinator.memberCounter rand := by
  obtain ⟨g', hg', hmem⟩ := hid
  rcases (h.changes.group groupId).mem hg' hmem with hold | ⟨hcounter, hnew⟩
  · exact Or.inl hold
  · rcases h.issued with ⟨hsame, -⟩ | ⟨-, hissued⟩
    · -- the counter cannot stay and go on
      rw [hsame] at hcounter
      exact absurd hcounter (by simp)
    · exact Or.inr ⟨hissued, hnew⟩

theorem CallStep.joins (h : CallStep s a s') (hid : Member s'.coordinator groupId id)
    (hnew : ¬Member s.coordinator groupId id) :
    ∃ call env, a = .other (.joinGroup call env) ∧ call.memberId = [] ∧ call.groupId = groupId := by
  obtain ⟨g', hg', hmem⟩ := hid
  rcases (h.changes.group groupId).mem hg' hmem with hold | ⟨hcounter, -⟩
  · exact absurd hold hnew
  have hmoved : s'.coordinator.memberCounter ≠ s.coordinator.memberCounter := by
    rw [hcounter]
    simp
  cases h with
  | other _ hstep =>
    rcases hstep.memberCounter with hsame | ⟨call, env, rfl, hempty, hothers⟩
    · exact absurd hsame hmoved
    · refine ⟨call, env, rfl, hempty, ?_⟩
      by_contra hne
      exact hnew ⟨g', (hothers groupId (Ne.symm hne)).symm.trans hg', hmem⟩
  | commitCheck _ => exact absurd rfl hmoved
  | commitLookup _ => exact absurd rfl hmoved
  | commitSection _ _ => exact absurd rfl hmoved

theorem IdInv.step (h : IdInv s) (hstep : CallStep s a s') (hfew : s'.issued < 2 ^ 64) :
    IdInv s' := by
  have hissued := hstep.issued
  constructor
  · rcases hissued with ⟨hcounter, heq⟩ | ⟨hcounter, heq⟩
    · rw [hcounter, heq]
      exact h.counter
    · have hold := h.counter
      rw [hcounter, heq, UInt64.toNat_add, hold]
      have hone : (1 : UInt64).toNat = 1 := rfl
      omega
  · intro groupId id hid
    rcases hstep.member hid with hold | ⟨heq, rand, rfl⟩
    · obtain ⟨k, rand, hk, hle⟩ := h.ids groupId id hold
      exact ⟨k, rand, hk, by rcases hissued with ⟨-, heq⟩ | ⟨-, heq⟩ <;> omega⟩
    · refine ⟨_, rand, rfl, ?_⟩
      have hold := h.counter
      omega

theorem CallStep.issued_le (h : CallStep s a s') : s.issued ≤ s'.issued := by
  rcases h.issued with ⟨-, heq⟩ | ⟨-, heq⟩ <;> omega

theorem CallSteps.issued_le (h : CallSteps s s') : s.issued ≤ s'.issued := by
  induction h with
  | refl => exact Nat.le_refl _
  | tail _ hstep ih =>
    obtain ⟨a, hstep⟩ := hstep
    exact ih.trans hstep.issued_le

theorem CallInit.idInv (h : CallInit s) : IdInv s := by
  obtain ⟨⟨-, hgroups, -⟩, hcounter, -, hissued⟩ := h
  refine ⟨by rw [hcounter, hissued]; rfl, ?_⟩
  rintro groupId id ⟨g, hg, -⟩
  rw [hgroups] at hg
  cases hg

theorem CallReachable.idInv (h : CallReachable P s) (hfew : s.issued < 2 ^ 64) : IdInv s :=
  Reach.invariant (I := fun s => s.issued < 2 ^ 64 → IdInv s) (fun _ hs _ => hs.idInv)
    (fun _ _ _ hi _ hs hfew => (hi (Nat.lt_of_le_of_lt hs.issued_le hfew)).step hs hfew) h hfew

/-- `id` was given out in this group and is not a member any more. -/
def Retired (s : CallSystem) (groupId id : Bytes) : Prop :=
  ¬Member s.coordinator groupId id ∧
    ∃ k rand, id = formatMemberId groupId k rand ∧ k.toNat ≤ s.issued

/-- **A retired id stays retired.** -/
theorem Retired.step (h : Retired s groupId id) (hinv : IdInv s) (hstep : CallStep s a s')
    (hfew : s'.issued < 2 ^ 64) : Retired s' groupId id := by
  obtain ⟨hgone, k, rand, hk, hle⟩ := h
  refine ⟨?_, k, rand, hk, hle.trans hstep.issued_le⟩
  intro hback
  rcases hstep.member hback with hold | ⟨hissued, rand', hnew⟩
  · exact hgone hold
  · have heq := formatMemberId_inj (hk.symm.trans hnew)
    have hcounter := hinv.counter
    rw [← heq] at hcounter
    omega

theorem Retired.steps (h : Retired s groupId id) (hinv : IdInv s) (hsteps : CallSteps s s')
    (hfew : s'.issued < 2 ^ 64) : Retired s' groupId id := by
  suffices hboth : Retired s' groupId id ∧ IdInv s' from hboth.1
  induction hsteps with
  | refl => exact ⟨h, hinv⟩
  | tail _ hstep ih =>
    obtain ⟨a, hstep⟩ := hstep
    obtain ⟨hret, hinv'⟩ := ih (Nat.lt_of_le_of_lt hstep.issued_le hfew)
    exact ⟨hret.step hinv' hstep hfew, hinv'.step hstep hfew⟩

/-! ## Calls under a retired id -/

/-- Every call that carries `id` is answered with an error, and so is every join
and every commit that has yet to enter its last section. -/
structure Fenced (s : CallSystem) (groupId id : Bytes) : Prop where
  join : ∀ sessionTimeoutMs topics strategy env,
    (s.coordinator.join s.mgr groupId id sessionTimeoutMs topics strategy env).1.errorCode ≠ 0
  joinGroup : ∀ sessionTimeoutMs topics strategy env,
    (s.coordinator.joinGroup s.mgr groupId id sessionTimeoutMs topics strategy env).1.errorCode ≠ 0
  heartbeat : ∀ generation env, (s.coordinator.heartbeat groupId id generation env).1.errorCode ≠ 0
  leave : (s.coordinator.leave s.mgr groupId id).1.errorCode ≠ 0
  commit : ∀ generation entries env,
    (s.coordinator.commit s.store s.mgr groupId id generation entries env).1.errorCode ≠ 0
  commitSection : ∀ generation entries found env,
    (s.persist ⟨groupId, id, generation, entries⟩ found env).1.errorCode ≠ 0

section Refused

variable {c : GroupCoordinator} {mgr : TopicManager} {groupId id : Bytes}

theorem lookup_none_of_not_member (h : ¬Member c groupId id) {g : Group}
    (hg : c.groups.lookup groupId = some g) : g.members.lookup id = none :=
  AList.lookup_eq_none.mpr fun hid => h ⟨g, hg, hid⟩

theorem joinGroup_refused (h : ¬Member c groupId id) (hid : id ≠ []) (sessionTimeoutMs : UInt32)
    (topics : List Bytes) (strategy : AssignorStrategy) (env : Env) :
    (c.joinGroup mgr groupId id sessionTimeoutMs topics strategy env).1.errorCode ≠ 0 := by
  have houtcome := joinOutcome c mgr groupId id sessionTimeoutMs topics strategy env
  generalize c.joinGroup mgr groupId id sessionTimeoutMs topics strategy env = res at houtcome ⊢
  cases houtcome with
  | refused hcode => exact hcode
  | subscribed _ _ hcode => exact hcode
  | added hnew _ _ _ _ _ => exact absurd hnew hid
  | refreshed _ hg hm _ => cases (lookup_none_of_not_member h hg).symm.trans hm

theorem checkTopics_errorCode {topics : List Bytes} {res : CallResult}
    (h : checkTopics mgr topics = some res) : res.errorCode ≠ 0 := by
  induction topics with
  | nil => cases h
  | cons t rest ih =>
    unfold checkTopics at h
    split at h
    · cases h
      exact refused_ne (by decide)
    · split at h
      · cases h
        exact refused_ne (by decide)
      · exact ih h

theorem checkJoin_errorCode {sessionTimeoutMs : UInt32} {topics : List Bytes} {strategy : UInt8}
    {res : CallResult}
    (h : c.checkJoin mgr groupId sessionTimeoutMs topics strategy = some res) :
    res.errorCode ≠ 0 := by
  unfold checkJoin at h
  split at h
  · cases h
    exact refused_ne (by decide)
  · split at h
    · cases h
      exact refused_ne (by decide)
    · split at h
      · cases h
        exact refused_ne (by decide)
      · split at h
        · cases h
          exact refused_ne (by decide)
        · exact checkTopics_errorCode h

theorem join_refused (h : ¬Member c groupId id) (hid : id ≠ []) (sessionTimeoutMs : UInt32)
    (topics : List Bytes) (strategy : UInt8) (env : Env) :
    (c.join mgr groupId id sessionTimeoutMs topics strategy env).1.errorCode ≠ 0 := by
  unfold join
  cases hcheck : c.checkJoin mgr groupId sessionTimeoutMs topics strategy with
  | some res => exact checkJoin_errorCode hcheck
  | none =>
    simp only
    cases hlookup : c.joinLookup groupId topics (strategyOf strategy) with
    | error res =>
      unfold joinLookup at hlookup
      split at hlookup
      · cases hlookup
      · split at hlookup
        · cases hlookup
          exact refused_ne (by decide)
        · cases hlookup
    | ok c' =>
      refine joinGroup_refused ?_ hid sessionTimeoutMs topics _ env
      -- a group that was just made has no members
      rintro ⟨g', hg', hmem⟩
      have hcounter : c'.memberCounter = c.memberCounter := joinLookup_memberCounter hlookup
      have hchanges : Changes mgr (· = topics) (fun _ => false) c c' := changes_joinLookup hlookup
      rcases (hchanges.group groupId).mem hg' hmem with hold | ⟨hnext, -⟩
      · exact h hold
      · rw [hcounter] at hnext
        exact absurd hnext (by simp)

theorem heartbeat_refused (h : ¬Member c groupId id) (generation : UInt32) (env : Env) :
    (c.heartbeat groupId id generation env).1.errorCode ≠ 0 := by
  unfold heartbeat
  cases hg : c.groups.lookup groupId with
  | none => exact refused_ne (by decide)
  | some g =>
    simp only [lookup_none_of_not_member h hg]
    exact refused_ne (by decide)

theorem leave_refused (h : ¬Member c groupId id) : (c.leave mgr groupId id).1.errorCode ≠ 0 := by
  unfold leave
  cases hg : c.groups.lookup groupId with
  | none => exact refused_ne (by decide)
  | some g =>
    simp only [lookup_none_of_not_member h hg, Option.isNone_none, if_true]
    exact refused_ne (by decide)

end Refused

theorem persist_checks {call : CommitCall} {found : Bool} {env : Env}
    (h : (s.persist call found env).1.errorCode = 0 ∨
      (s.persist call found env).2 ≠ (s.store, s.mgr)) :
    checkCaller (if found then s.coordinator.groups.lookup call.groupId else none) call.groupId
        call.memberId call.generation call.entries = none ∧
      checkOffsets s.mgr call.entries = none := by
  unfold CallSystem.persist at h
  rcases commitSection_cases s.store s.mgr (if found then s.coordinator.groups.lookup call.groupId
    else none) call.groupId call.memberId call.generation call.entries env with
    ⟨res, heq, hne⟩ | ⟨hcaller, hoffsets, -⟩
  · rw [heq] at h
    rcases h with hok | htrace
    · exact absurd hok hne
    · exact absurd rfl htrace
  · exact ⟨hcaller, hoffsets⟩

theorem persist_refused (h : ¬Member s.coordinator groupId id) (hid : id ≠ []) (generation : UInt32)
    (entries : List OffsetCommitRequestEntry) (found : Bool) (env : Env) :
    (s.persist ⟨groupId, id, generation, entries⟩ found env).1.errorCode ≠ 0 := by
  intro hok
  obtain ⟨hcaller, -⟩ := persist_checks (Or.inl hok)
  obtain ⟨g, m, hg, hm, -⟩ := member_of_checkCaller hid hcaller
  cases found with
  | false => cases hg
  | true => exact h ⟨g, hg, AList.lookup_isSome.mp (by rw [hm]; rfl)⟩

theorem commit_refused {c : GroupCoordinator} {store : OffsetStore} (h : ¬Member c groupId id)
    (hid : id ≠ []) (generation : UInt32) (entries : List OffsetCommitRequestEntry) (env : Env) :
    (c.commit store mgr groupId id generation entries env).1.errorCode ≠ 0 := by
  rcases commit_cases c store mgr groupId id generation entries env with
    ⟨res, heq, hne⟩ | ⟨-, hcaller, -⟩
  · rw [heq]
    exact hne
  · obtain ⟨g, m, hg, hm, -⟩ := member_of_checkCaller hid hcaller
    exact absurd ⟨g, hg, AList.lookup_isSome.mp (by rw [hm]; rfl)⟩ h

theorem Retired.fenced (h : Retired s groupId id) : Fenced s groupId id := by
  obtain ⟨hgone, k, rand, rfl, -⟩ := h
  have hid := formatMemberId_ne_nil groupId k rand
  exact ⟨join_refused hgone hid, joinGroup_refused hgone hid, heartbeat_refused hgone,
    leave_refused hgone, commit_refused hgone hid, persist_refused hgone hid⟩

/-! ## Commits of members -/

/-- Checked entries stay valid: no partition disappears. -/
def PendingInv (s : CallSystem) : Prop :=
  ∀ e ∈ s.commits, ∀ entry ∈ e.1.entries, ∃ t p,
    s.mgr.getTopic entry.topic = some t ∧ t.getPartition entry.partition.toNat = some p

theorem partition_extends {mgr' : TopicManager} (hext : Extends mgr mgr') {topic : Bytes} {i : ℕ}
    (h : ∃ t p, mgr.getTopic topic = some t ∧ t.getPartition i = some p) :
    ∃ t p, mgr'.getTopic topic = some t ∧ t.getPartition i = some p := by
  obtain ⟨t, p, ht, hp⟩ := h
  obtain ⟨t', ht', hnum⟩ := hext.kept topic t ht
  have hlt : i < t.partitions.length := (List.getElem?_eq_some_iff.mp hp).1
  have hlt' : i < t'.partitions.length := by
    unfold Topic.numPartitions at hnum
    omega
  exact ⟨t', t'.partitions[i], ht', List.getElem?_eq_getElem hlt'⟩

theorem extends_commitSection (store : OffsetStore) (group : Option Group)
    (groupId memberId : Bytes) (generation : UInt32) (entries : List OffsetCommitRequestEntry)
    (env : Env) : Extends mgr
      (commitSection store mgr group groupId memberId generation entries env).2.2 := by
  rcases commitSection_cases store mgr group groupId memberId generation entries env with
    ⟨res, heq, -⟩ | ⟨-, -, heq⟩
  · rw [heq]
    exact Extends.refl mgr
  · rw [heq]
    exact extends_commitTo store _ _ _ _

theorem PendingInv.extends (h : PendingInv s) (hext : Extends s.mgr s'.mgr)
    (hsub : ∀ e ∈ s'.commits, ∃ e' ∈ s.commits, e'.1 = e.1) : PendingInv s' := by
  intro e he entry hentry
  obtain ⟨e', he', heq⟩ := hsub e he
  exact partition_extends hext (h e' he' entry (heq ▸ hentry))

theorem PendingInv.step (h : PendingInv s) (hstep : CallStep s a s') : PendingInv s' := by
  cases hstep with
  | other _ hstep => exact h.extends hstep.extends fun e he => ⟨e, he, rfl⟩
  | commitCheck hcheck =>
    intro e he
    rcases List.mem_cons.mp he with rfl | he
    · exact partition_of_checkEntries hcheck
    · exact h e he
  | commitLookup hpending =>
    refine h.extends (Extends.refl _) fun e he => ?_
    rw [hpending]
    simp only [List.mem_append, List.mem_cons] at he ⊢
    rcases he with he | rfl | he
    · exact ⟨e, Or.inl he, rfl⟩
    · exact ⟨_, Or.inr (Or.inl rfl), rfl⟩
    · exact ⟨e, Or.inr (Or.inr he), rfl⟩
  | commitSection env hpending =>
    refine h.extends (extends_commitSection _ _ _ _ _ _ _) fun e he => ⟨e, ?_, rfl⟩
    rcases List.mem_append.mp he with he | he <;> simp [hpending, he]

theorem CallReachable.pendingInv (h : CallReachable P s) : PendingInv s := by
  refine Reach.invariant (fun s hs => ?_) (fun _ _ _ hi _ hs => hi.step hs) h
  intro e he
  rw [hs.commits] at he
  cases he

/-- A member's commit that may be written: the member, its generation and its
partitions are current, and no offset is beyond its partition. -/
def CommitCurrent (s : CallSystem) (call : CommitCall) : Prop :=
  ∃ g m, s.coordinator.groups.lookup call.groupId = some g ∧
    g.members.lookup call.memberId = some m ∧ call.generation = g.generation ∧
    ∀ entry ∈ call.entries, (⟨entry.topic, entry.partition⟩ : TopicPartition) ∈ m.assignment ∧
      ∃ t p, s.mgr.getTopic entry.topic = some t ∧
        t.getPartition entry.partition.toNat = some p ∧ entry.offset ≤ p.nextOffset

theorem CallReachable.commitCurrent (h : CallReachable P s) {call : CommitCall} {found : Bool}
    {env : Env} (hpending : (call, .located found) ∈ s.commits) (hid : call.memberId ≠ [])
    (hok : (s.persist call found env).1.errorCode = 0) : CommitCurrent s call := by
  obtain ⟨hcaller, hoffsets⟩ := persist_checks (Or.inl hok)
  obtain ⟨g, m, hg, hm, hgen, hassigned⟩ := member_of_checkCaller hid hcaller
  cases found with
  | false => cases hg
  | true =>
    refine ⟨g, m, hg, hm, hgen, fun entry hentry => ⟨hassigned entry hentry, ?_⟩⟩
    obtain ⟨t, p, ht, hp⟩ := h.pendingInv _ hpending entry hentry
    have hle := le_of_checkOffsets hoffsets entry hentry
    simp only [highWatermark, ht, Option.bind_some, hp, Option.map_some, Option.getD_some] at hle
    exact ⟨t, p, ht, hp, hle⟩

/-! ## A small group -/

theorem topicsFit_of_entries (h : ∀ e ∈ mgr.topics.entries, e.2.numPartitions < 65536) :
    TopicsFit mgr :=
  fun _ _ ht => h _ (AList.mem_lookup_iff.mp ht)

/-- The topic `t` with one record, and the topic of the offset store. -/
def stocked : TopicManager :=
  let mgr := (oneTopic.createTopic OffsetStore.internalOffsetsTopic 1 0 0 0).2
  match mgr.getTopic (ascii "t") with
  | none => mgr
  | some t =>
    match t.produceBatch 0 [([], [1])] 0 [] (mgr.partDirs (ascii "t")) with
    | (_, _, t, dirs) => mgr.setTopic (ascii "t") t dirs

def groupMade : GroupCoordinator where
  groups := (∅ : AList fun _ : Bytes => Group).insert (ascii "g")
    ⟨ascii "g", 0, .Range, [ascii "t"], .Empty, ∅⟩

def joinedOnce : GroupCoordinator :=
  (groupMade.joinGroup stocked (ascii "g") [] 10000 [ascii "t"] .Range {}).2

/-- A state over `stocked`, with the commits that are on their way. -/
def serving (coordinator : GroupCoordinator) (commits : List (CommitCall × CommitPhase))
    (issued : ℕ) : CallSystem where
  mgr := stocked
  coordinator
  store := { opened := true }
  pending := []
  commits
  issued

theorem reachable_serving : CallReachable P (serving {} [] 0) :=
  .init ⟨⟨topicsFit_of_entries (by decide +kernel), rfl, rfl⟩, rfl, rfl, rfl⟩

theorem steps_joinedOnce (commits : List (CommitCall × CommitPhase)) :
    let call := firstJoin [ascii "t"]
    ∃ s₁ s₂, CallStep (serving {} commits 0) (.other (.joinCheck call)) s₁ ∧
      CallStep s₁ (.other (.joinLookup call)) s₂ ∧
      CallStep s₂ (.other (.joinGroup call {})) (serving joinedOnce commits 1) ∧
      CallAction.changesMembers s₂ (ascii "g") (.other (.joinGroup call {})) = true := by
  have hcheck : ({} : GroupCoordinator).checkJoin stocked (ascii "g") 10000
    [ascii "t"] 0 = none := by
    decide +kernel
  have hcounter : joinedOnce.memberCounter = 1 + 1 := by decide +kernel
  have hcode : (groupMade.joinGroup stocked (ascii "g") [] 10000 [ascii "t"] .Range {}).1.errorCode
      = 0 := by decide +kernel
  refine ⟨_, _, CallStep.quiet rfl (@Step.joinCheck _ (firstJoin [ascii "t"]) hcheck) rfl,
    CallStep.quiet rfl (@Step.joinLookup _ (firstJoin [ascii "t"]) [] [] groupMade rfl rfl) rfl,
    CallStep.giving rfl (@Step.joinGroup _ (firstJoin [ascii "t"]) [] [] {} rfl) hcounter, ?_⟩
  exact decide_eq_true hcode

theorem reachable_joinedOnce {commits : List (CommitCall × CommitPhase)}
    (h : CallReachable (fun _ _ => True) (serving {} commits 0)) :
    CallReachable (fun _ _ => True) (serving joinedOnce commits 1) := by
  obtain ⟨s₁, s₂, hcheck, hlookup, hjoin, -⟩ := steps_joinedOnce commits
  exact ((h.step trivial hcheck).step trivial hlookup).step trivial hjoin

def memberCommit : CommitCall :=
  ⟨ascii "g", formatMemberId (ascii "g") 1 0, 1, [⟨ascii "t", 0, 1⟩]⟩

theorem reachable_memberCommit {commits : List (CommitCall × CommitPhase)}
    (h : CallReachable (fun _ _ => True) (serving joinedOnce commits 1)) :
    CallReachable (fun _ _ => True)
      (serving joinedOnce ((memberCommit, .located true) :: commits) 1) := by
  have hcheck : checkEntries stocked memberCommit.entries = none := by decide +kernel
  have hchecked := h.step trivial (@CallStep.commitCheck _ memberCommit hcheck)
  exact hchecked.step trivial (@CallStep.commitLookup _ memberCommit [] commits rfl)

/-- **Zombie fencing.** A member's commit is written only while it is current; and
once an id has left its group, every later call under it is refused. -/
theorem zombie_fencing {s : CallSystem} (h : CallReachable (fun _ _ => True) s) :
    (∀ call found env, (call, .located found) ∈ s.commits → call.memberId ≠ [] →
      (s.persist call found env).1.errorCode = 0 → CommitCurrent s call) ∧
    ∀ a s₁ s₂ groupId id, CallStep s a s₁ → Member s.coordinator groupId id →
      ¬Member s₁.coordinator groupId id → CallSteps s₁ s₂ → s₂.issued < 2 ^ 64 →
      Fenced s₂ groupId id := by
  refine ⟨fun call found env hpending hid hok => h.commitCurrent hpending hid hok, ?_⟩
  intro a s₁ s₂ groupId id hstep hmember hgone hsteps hfew
  have hfew₁ : s₁.issued < 2 ^ 64 := Nat.lt_of_le_of_lt hsteps.issued_le hfew
  have hinv := h.idInv (Nat.lt_of_le_of_lt hstep.issued_le hfew₁)
  obtain ⟨k, rand, hk, hle⟩ := hinv.ids groupId id hmember
  have hretired : Retired s₁ groupId id := ⟨hgone, k, rand, hk, hle.trans hstep.issued_le⟩
  exact (hretired.steps (hinv.step hstep hfew₁) hsteps hfew).fenced

/-- A member commits, and is fenced once it has left. -/
theorem zombie_fencing_after_leave :
    CommitCurrent (serving joinedOnce [(memberCommit, .located true)] 1) memberCommit ∧
      ∃ s, Fenced s (ascii "g") (formatMemberId (ascii "g") 1 0) := by
  have hreach := reachable_memberCommit (reachable_joinedOnce reachable_serving)
  obtain ⟨hcommit, hfenced⟩ := zombie_fencing hreach
  have hleave := @CallStep.other (serving joinedOnce [(memberCommit, .located true)] 1) _ _ rfl
    (Step.leave (ascii "g") (formatMemberId (ascii "g") 1 0))
  refine ⟨hcommit memberCommit true {} (List.mem_cons_self ..) (by decide) (by decide +kernel),
    _, hfenced _ _ _ _ _ hleave ⟨_, rfl, by decide +kernel⟩ ?_ .refl (by decide +kernel)⟩
  rintro ⟨g, hg, hmem⟩
  cases hg
  exact absurd hmem (by decide +kernel)

/-! ## Standalone commits -/

def CommitCall.standalone (call : CommitCall) : Bool := isStandalone call.memberId call.generation

/-- No member joins a group for the first time while a standalone commit that has
found no such group is between its two sections. -/
def NoOvertaking (s : CallSystem) : CallAction → Prop
  | .other (.joinGroup join _) => join.memberId = [] → ∀ call : CommitCall,
      (call, CommitPhase.located false) ∈ s.commits → call.standalone = true →
      call.groupId ≠ join.groupId
  | _ => True

/-- Where the lookup found no group there are still no members. -/
def UnseenInv (s : CallSystem) : Prop :=
  ∀ call : CommitCall, (call, CommitPhase.located false) ∈ s.commits → call.standalone = true →
    ∀ id, ¬Member s.coordinator call.groupId id

theorem UnseenInv.step (h : UnseenInv s) (hguard : NoOvertaking s a) (hstep : CallStep s a s') :
    UnseenInv s' := by
  -- a commit that was between its sections before
  have hold : ∀ call : CommitCall, (call, CommitPhase.located false) ∈ s.commits →
      call.standalone = true → ∀ id, ¬Member s'.coordinator call.groupId id := by
    intro call hpending hcall id hid
    obtain ⟨join, env, rfl, hempty, hgroup⟩ := hstep.joins hid (h call hpending hcall id)
    exact hguard hempty call hpending hcall hgroup.symm
  intro call hpending hcall id hid
  cases hstep with
  | other _ _ => exact hold call hpending hcall id hid
  | commitCheck _ =>
    rcases List.mem_cons.mp hpending with heq | hpending
    · cases heq
    · exact hold call hpending hcall id hid
  | commitLookup hcommits =>
    rw [hcommits] at hold
    rcases List.mem_append.mp hpending with hpre | hpost
    · exact hold call (List.mem_append_left _ hpre) hcall id hid
    · rcases List.mem_cons.mp hpost with heq | hpost
      · -- this is the lookup
        obtain ⟨g, hg, -⟩ := hid
        simp only [Prod.mk.injEq, CommitPhase.located.injEq] at heq
        rw [← heq.1, hg] at heq
        cases heq.2
      · exact hold call (List.mem_append_right _ (List.mem_cons_of_mem _ hpost)) hcall id hid
  | commitSection env hcommits =>
    rw [hcommits] at hold
    rcases List.mem_append.mp hpending with hpre | hpost
    · exact hold call (List.mem_append_left _ hpre) hcall id hid
    · exact hold call (List.mem_append_right _ (List.mem_cons_of_mem _ hpost)) hcall id hid

theorem CallReachable.unseenInv (h : CallReachable NoOvertaking s) : UnseenInv s := by
  refine Reach.invariant (fun s hs => ?_) (fun _ _ _ hi hg hs => hi.step hg hs) h
  intro call hpending
  rw [hs.commits] at hpending
  cases hpending

/-- **Standalone commits find no members** if no first join overtakes them. -/
theorem standalone_commit_unshared {s : CallSystem} (h : CallReachable NoOvertaking s)
    {call : CommitCall} {found : Bool} (hpending : (call, .located found) ∈ s.commits)
    (hcall : call.standalone = true) (env : Env)
    (hpersist : (s.persist call found env).1.errorCode = 0 ∨
      (s.persist call found env).2 ≠ (s.store, s.mgr)) :
    ∀ id, ¬Member s.coordinator call.groupId id := by
  cases found with
  | false => exact h.unseenInv call hpending hcall
  | true =>
    rintro id ⟨g, hg, hmem⟩
    obtain ⟨hcaller, -⟩ := persist_checks hpersist
    rw [if_pos rfl, hg] at hcaller
    exact AssocMap.ne_nil_of_mem hmem (empty_of_checkCaller hcall hcaller)

/-- A consumer without a group sets the offset of `t` back. -/
def standaloneCommit : CommitCall := ⟨ascii "g", [], 0xFFFFFFFF, [⟨ascii "t", 0, 0⟩]⟩

theorem reachable_standaloneCommit (hP : ∀ s a, (∀ a', a ≠ .other a') → P s a) :
    CallReachable P (serving {} [(standaloneCommit, .located false)] 0) := by
  have hcheck : checkEntries stocked standaloneCommit.entries = none := by decide +kernel
  have hchecked := (reachable_serving (P := P)).step (hP _ _ (by simp))
    (@CallStep.commitCheck _ standaloneCommit hcheck)
  exact hchecked.step (hP _ _ (by simp)) (@CallStep.commitLookup _ standaloneCommit [] [] rfl)

theorem standalone_commit_unshared_alone :
    (((serving {} [(standaloneCommit, .located false)] 0).persist standaloneCommit false
      {}).1.errorCode
        = 0) ∧
      ¬∃ id, Member (serving {} [(standaloneCommit, .located false)] 0).coordinator
        (ascii "g") id := by
  have hreach : CallReachable NoOvertaking (serving {} [(standaloneCommit, .located false)] 0) := by
    refine reachable_standaloneCommit fun s a ha => ?_
    cases a with
    | other a' => exact absurd rfl (ha a')
    | _ => trivial
  have hok : ((serving {} [(standaloneCommit, .located false)] 0).persist standaloneCommit false
      {}).1.errorCode = 0 := by decide +kernel
  exact ⟨hok, not_exists.mpr
    (standalone_commit_unshared hreach (List.mem_cons_self ..) rfl {} (Or.inl hok))⟩

/-- The member has committed its offset; the standalone commit is still between
its sections. -/
def overtaken : CallSystem :=
  let s := serving joinedOnce [(memberCommit, .located true), (standaloneCommit, .located false)] 1
  { s with
    store := (s.persist memberCommit true {}).2.1
    mgr := (s.persist memberCommit true {}).2.2
    commits := [(standaloneCommit, .located false)] }

/-- **A first join overtakes a standalone commit**, which is accepted all the same
and sets back the offset that the member has committed. -/
theorem member_offset_set_back :
    CallReachable (fun _ _ => True) overtaken ∧
      (∃ id, Member overtaken.coordinator (ascii "g") id) ∧
      overtaken.store.get (ascii "g") (ascii "t") 0 = 1 ∧
      CallStep overtaken (.commitSection standaloneCommit {}) { overtaken with
        store := (overtaken.persist standaloneCommit false {}).2.1
        mgr := (overtaken.persist standaloneCommit false {}).2.2
        commits := [] } ∧
      (overtaken.persist standaloneCommit false {}).1.errorCode = 0 ∧
      (overtaken.persist standaloneCommit false {}).2.1.get (ascii "g") (ascii "t") 0 = 0 := by
  have hlocated := reachable_memberCommit (reachable_joinedOnce
    (reachable_standaloneCommit fun _ _ _ => trivial))
  have hreach := hlocated.step trivial
    (@CallStep.commitSection _ memberCommit [] [(standaloneCommit, .located false)] true {} rfl)
  exact ⟨hreach, ⟨formatMemberId (ascii "g") 1 0, _, rfl, by decide +kernel⟩, by decide +kernel,
    @CallStep.commitSection _ standaloneCommit [] [] false {} rfl, by decide +kernel,
    by decide +kernel⟩

end GroupCoordinator

end StreamForge
