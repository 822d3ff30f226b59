import StreamForge.Broker.Ownership

/-!
# Group calls, section by section

The coordinator's calls as other threads see them. `commit` checks its entries,
looks its group up under the lock of the registry, and then checks its caller
and writes the offsets, under the group's lock if there was a group to lock.
Other calls come in between. The rest of the system is that of `Step`, with
the ids given out so far counted beside it.

A section changes each group in one of six ways (`GroupChange`). Everything
about runs is derived from that list; the sections are not unfolded again.
-/

namespace StreamForge

open Transition

/-! ## The checks of a commit -/

section Checks

open GroupCoordinator

variable {mgr : TopicManager}

theorem refused_ne {code : UInt16} (h : code ≠ 0) {st : Status} : (refused code st).errorCode ≠ 0 :=
  h

variable {entries : List OffsetCommitRequestEntry} {res : CallResult} {groupId memberId : Bytes}
    {generation : UInt32}

theorem checkEntries_errorCode (h : checkEntries mgr entries = some res) : res.errorCode ≠ 0 := by
  induction entries with
  | nil => cases h
  | cons entry rest ih =>
    unfold checkEntries at h
    split at h
    · cases h
      exact refused_ne (by decide)
    · split at h
      · cases h
        exact refused_ne (by decide)
      · split at h
        · cases h
          exact refused_ne (by decide)
        · exact ih h

theorem checkOffsets_errorCode (h : checkOffsets mgr entries = some res) : res.errorCode ≠ 0 := by
  induction entries with
  | nil => cases h
  | cons entry rest ih =>
    unfold checkOffsets at h
    simp only at h
    split at h
    · cases h
      exact refused_ne (by decide)
    · exact ih h

theorem checkCaller_errorCode {group : Option Group}
    (h : checkCaller group groupId memberId generation entries = some res) :
    res.errorCode ≠ 0 := by
  unfold checkCaller at h
  split at h
  · split at h
    · cases h
    · split at h
      · cases h
      · cases h
        exact refused_ne (by decide)
  · split at h
    · cases h
      exact refused_ne (by decide)
    · split at h
      · cases h
        exact refused_ne (by decide)
      · split at h
        · cases h
          exact refused_ne (by decide)
        · unfold checkAssigned at h
          split at h
          · cases h
          · cases h
            exact refused_ne (by decide)

/-- **What the check-and-persist section does**: nothing, with an error code, or
what the offset store makes of it. -/
theorem commitSection_cases (store : OffsetStore) (mgr : TopicManager) (group : Option Group)
    (groupId memberId : Bytes) (generation : UInt32) (entries : List OffsetCommitRequestEntry)
    (env : Env) :
    (∃ res, commitSection store mgr group groupId memberId generation entries env =
        (res, store, mgr) ∧ res.errorCode ≠ 0) ∨
      checkCaller group groupId memberId generation entries = none ∧
      checkOffsets mgr entries = none ∧
      commitSection store mgr group groupId memberId generation entries env =
        (if (store.commitTo groupId (itemsOf entries env) mgr env.systemMs env.faults).1.ok then
          accepted
          else refused ErrorCode.INTERNAL_ERROR
            (store.commitTo groupId (itemsOf entries env) mgr env.systemMs env.faults).1,
          (store.commitTo groupId (itemsOf entries env) mgr env.systemMs env.faults).2) := by
  unfold commitSection
  cases hcaller : checkCaller group groupId memberId generation entries with
  | some res => exact Or.inl ⟨res, rfl, checkCaller_errorCode hcaller⟩
  | none =>
    simp only
    cases hoffsets : checkOffsets mgr entries with
    | some res => exact Or.inl ⟨res, rfl, checkOffsets_errorCode hoffsets⟩
    | none => exact Or.inr ⟨trivial, rfl, rfl⟩

theorem commit_cases (c : GroupCoordinator) (store : OffsetStore) (mgr : TopicManager)
    (groupId memberId : Bytes) (generation : UInt32) (entries : List OffsetCommitRequestEntry)
    (env : Env) :
    (∃ res, c.commit store mgr groupId memberId generation entries env = (res, store, mgr) ∧
        res.errorCode ≠ 0) ∨
      checkEntries mgr entries = none ∧
      checkCaller (c.groups.lookup groupId) groupId memberId generation entries = none ∧
      checkOffsets mgr entries = none ∧
      c.commit store mgr groupId memberId generation entries env =
        (if (store.commitTo groupId (itemsOf entries env) mgr env.systemMs env.faults).1.ok then
          accepted
          else refused ErrorCode.INTERNAL_ERROR
            (store.commitTo groupId (itemsOf entries env) mgr env.systemMs env.faults).1,
          (store.commitTo groupId (itemsOf entries env) mgr env.systemMs env.faults).2) := by
  unfold GroupCoordinator.commit
  cases hentries : checkEntries mgr entries with
  | some res => exact Or.inl ⟨res, rfl, checkEntries_errorCode hentries⟩
  | none =>
    rcases commitSection_cases store mgr (c.groups.lookup groupId) groupId memberId generation
      entries env with hrefused | ⟨hcaller, hoffsets, heq⟩
    · exact Or.inl hrefused
    · exact Or.inr ⟨rfl, hcaller, hoffsets, heq⟩

theorem of_checkEntries (h : checkEntries mgr entries = none) : ∀ entry ∈ entries,
      TopicManager.isReserved entry.topic = false ∧ ∃ t p,
        mgr.getTopic entry.topic = some t ∧ t.getPartition entry.partition.toNat = some p := by
  induction entries with
  | nil => simp
  | cons entry rest ih =>
    unfold checkEntries at h
    split at h
    · cases h
    · rename_i hreserved
      cases ht : mgr.getTopic entry.topic with
      | none =>
        rw [ht] at h
        cases h
      | some t =>
        rw [ht] at h
        cases hp : t.getPartition entry.partition.toNat with
        | none =>
          simp only [hp] at h
          cases h
        | some p =>
          simp only [hp] at h
          intro e he
          rcases List.mem_cons.mp he with rfl | he
          · exact ⟨Bool.eq_false_iff.mpr hreserved, t, p, ht, hp⟩
          · exact ih h e he

theorem partition_of_checkEntries (h : checkEntries mgr entries = none) : ∀ entry ∈ entries, ∃ t p,
      mgr.getTopic entry.topic = some t ∧ t.getPartition entry.partition.toNat = some p :=
  fun entry hentry => (of_checkEntries h entry hentry).2

theorem le_of_checkOffsets (h : checkOffsets mgr entries = none) :
    ∀ entry ∈ entries, entry.offset ≤ highWatermark mgr entry.topic entry.partition := by
  induction entries with
  | nil => simp
  | cons entry rest ih =>
    unfold checkOffsets at h
    simp only at h
    split at h
    · cases h
    · rename_i hle
      intro e he
      rcases List.mem_cons.mp he with rfl | he
      · exact UInt64.not_lt.mp hle
      · exact ih h e he

/-- A caller that is a member passes only with the group's generation and its own
partitions. -/
theorem member_of_checkCaller {group : Option Group} (hid : memberId ≠ [])
    (h : checkCaller group groupId memberId generation entries = none) :
    ∃ g m, group = some g ∧ g.members.lookup memberId = some m ∧ generation = g.generation ∧
      ∀ entry ∈ entries, (⟨entry.topic, entry.partition⟩ : TopicPartition) ∈ m.assignment := by
  have hmember : isStandalone memberId generation = false := by simp [isStandalone, hid]
  unfold checkCaller at h
  rw [hmember] at h
  simp only [Bool.false_eq_true, if_false] at h
  split at h
  · cases h
  · rename_i g
    split at h
    · cases h
    · rename_i m hm
      split at h
      · cases h
      · rename_i hgen
        refine ⟨g, m, rfl, hm, by simpa using hgen, ?_⟩
        unfold checkAssigned at h
        split at h
        · rename_i hfind
          intro e he
          simpa using List.find?_eq_none.mp hfind e he
        · cases h

/-- A standalone caller passes only in a group without members. -/
theorem empty_of_checkCaller {g : Group} (hcall : isStandalone memberId generation = true)
    (h : checkCaller (some g) groupId memberId generation entries = none) :
    g.members.entries = [] := by
  unfold checkCaller at h
  rw [hcall] at h
  simp only [if_true] at h
  split at h
  · rename_i hempty
    exact List.isEmpty_iff.mp hempty
  · cases h

end Checks

namespace GroupCoordinator

/-! ## Commits in two sections -/

structure CommitCall where
  groupId : Bytes
  memberId : Bytes
  generation : UInt32
  entries : List OffsetCommitRequestEntry

/-- How far a commit has got: its entries are checked, or the registry was asked
for its group and had it or not. -/
inductive CommitPhase where
  | checked
  | located (found : Bool)

/-- `issued` counts the member ids generated so far. -/
structure CallSystem extends GroupSystem where
  commits : List (CommitCall × CommitPhase) := []
  issued : ℕ := 0

inductive CallAction where
  | other (a : Action)
  | commitCheck (call : CommitCall)
  | commitLookup (call : CommitCall)
  | commitSection (call : CommitCall) (env : Env)

def Action.isCommit : Action → Bool
  | .commit _ _ _ _ _ => true
  | _ => false

/-- The check-and-persist section as the state finds it. A group that the lookup
did not find is not looked for again. -/
def CallSystem.persist (s : CallSystem) (call : CommitCall) (found : Bool) (env : Env) :
    CallResult × OffsetStore × TopicManager :=
  commitSection s.store s.mgr (if found then s.coordinator.groups.lookup call.groupId else none)
    call.groupId call.memberId call.generation call.entries env

inductive CallStep (s : CallSystem) : CallAction → CallSystem → Prop where
  | other {a : Action} {s' : GroupSystem} : a.isCommit = false → Step s.toGroupSystem a s' →
      CallStep s (.other a) { s with
        toGroupSystem := s'
        issued := s.issued + (s'.coordinator.memberCounter - s.coordinator.memberCounter).toNat }
  | commitCheck {call : CommitCall} : checkEntries s.mgr call.entries = none →
      CallStep s (.commitCheck call) { s with commits := (call, .checked) :: s.commits }
  | commitLookup {call : CommitCall} {pre post : List (CommitCall × CommitPhase)} :
      s.commits = pre ++ (call, .checked) :: post →
      CallStep s (.commitLookup call) { s with
        commits := pre ++
          (call, .located (s.coordinator.groups.lookup call.groupId).isSome) :: post }
  | commitSection {call : CommitCall} {pre post : List (CommitCall × CommitPhase)} {found : Bool}
      (env : Env) : s.commits = pre ++ (call, .located found) :: post →
      CallStep s (.commitSection call env) { s with
        store := (s.persist call found env).2.1
        mgr := (s.persist call found env).2.2
        commits := pre ++ post }

structure CallInit (s : CallSystem) : Prop where
  init : Init s.toGroupSystem
  counter : s.coordinator.memberCounter = 1
  commits : s.commits = []
  issued : s.issued = 0

def CallReachable (P : CallSystem → CallAction → Prop) : CallSystem → Prop :=
  Reach CallInit CallStep P

def CallSteps : CallSystem → CallSystem → Prop :=
  Relation.ReflTransGen fun s s' => ∃ a, CallStep s a s'

/-! ## What a section does to a group -/

/-- **The actions that change who is in a group**: the section of a join that adds
a member, a leave that is accepted, and an expiry that finds someone to remove. -/
def Action.changesMembers (s : GroupSystem) (groupId : Bytes) : Action → Bool
  | .joinGroup call env => call.groupId == groupId && (call.memberId.isEmpty &&
      (s.coordinator.joinGroup s.mgr call.groupId call.memberId call.sessionTimeoutMs call.topics
        (strategyOf call.strategy) env).1.errorCode == 0)
  | .leave group memberId => group == groupId &&
      (s.coordinator.leave s.mgr group memberId).1.errorCode == 0
  | .expire group now => group == groupId &&
      decide (0 < (expireLoop s.mgr now [group] s.coordinator).1)
  | _ => false

def CallAction.changesMembers (s : CallSystem) (groupId : Bytes) : CallAction → Bool
  | .other a => a.changesMembers s.toGroupSystem groupId
  | _ => false

/-- **The changes of a group** in one section, by a coordinator whose id counter
goes from `counter` to `counter'`. The topics come from a join that has offered
them; the flag says whether the members change. -/
inductive GroupChange (mgr : TopicManager) (offered : List Bytes → Prop) (counter counter' : UInt64)
    (groupId : Bytes) : Bool → Option Group → Option Group → Prop where
  | same (g : Option Group) : GroupChange mgr offered counter counter' groupId false g g
  | created (topics : List Bytes) (strategy : AssignorStrategy) :
      GroupChange mgr offered counter counter' groupId false none
        (some { groupId, strategy, subscribedTopics := topics })
  | subscribed {g : Group} (topics : List Bytes) (strategy : AssignorStrategy) :
      g.members.entries = [] → GroupChange mgr offered counter counter' groupId false (some g)
        (some { g with strategy, subscribedTopics := topics })
  | joined {g g' : Group} {topics : List Bytes} {strategy : AssignorStrategy}
      (member : MemberMetadata) (rand : UInt16) : offered topics →
      subscribe g topics strategy = .ok g' → counter' = counter + 1 →
      GroupChange mgr offered counter counter' groupId true (some g)
        (some (rebalanceUnlocked mgr { g' with
          members := g'.members.insert (formatMemberId groupId counter rand) member
          generation := g'.generation + 1 }))
  | refreshed {g : Group} {id : Bytes} {m m' : MemberMetadata} : g.members.lookup id = some m →
      m'.assignment = m.assignment → GroupChange mgr offered counter counter' groupId false (some g)
        (some { g with members := g.members.insert id m' })
  | removed {g : Group} {members : AList fun _ : Bytes => MemberMetadata} (id : Bytes) :
      (∀ x ∈ members, x ∈ g.members) → id ∈ g.members → id ∉ members →
      GroupChange mgr offered counter counter' groupId true (some g)
        (some (afterRemoval mgr { g with members }))

structure Changes (mgr : TopicManager) (offered : List Bytes → Prop) (changed : Bytes → Bool)
    (c c' : GroupCoordinator) : Prop where
  group : ∀ id, GroupChange mgr offered c.memberCounter c'.memberCounter id (changed id)
    (c.groups.lookup id) (c'.groups.lookup id)
  counter : c'.memberCounter = c.memberCounter ∨ c'.memberCounter = c.memberCounter + 1

section Sections

variable {mgr : TopicManager} {offered : List Bytes → Prop} {c : GroupCoordinator}

theorem Changes.refl (mgr : TopicManager) (offered : List Bytes → Prop) (c : GroupCoordinator) :
    Changes mgr offered (fun _ => false) c c :=
  ⟨fun _ => .same _, Or.inl rfl⟩

variable {groupId id : Bytes} {g : Group} {topics : List Bytes} {strategy : AssignorStrategy}

theorem changes_stay {flag : Bool} (hflag : flag = false) :
    Changes mgr offered (fun id => groupId == id && flag) c c := by
  refine ⟨fun id => ?_, Or.inl rfl⟩
  rw [hflag, Bool.and_false]
  exact .same _

theorem changes_insert {counter : UInt64} {flag flag' : Bool} (hflag : flag = flag')
    (hchange : GroupChange mgr offered c.memberCounter counter groupId flag'
      (c.groups.lookup groupId) (some g))
    (hcounter : counter = c.memberCounter ∨ counter = c.memberCounter + 1) :
    Changes mgr offered (fun id => groupId == id && flag) c
      { c with memberCounter := counter, groups := c.groups.insert groupId g } := by
  refine ⟨fun id => ?_, hcounter⟩
  rw [AssocMap.lookup_insert_eq, hflag]
  split
  · rename_i hid
    rw [hid, beq_self_eq_true, Bool.true_and]
    exact hchange
  · rename_i hid
    rw [beq_false_of_ne (Ne.symm hid), Bool.false_and]
    exact .same _

theorem changes_insert_quiet
    (hchange : GroupChange mgr offered c.memberCounter c.memberCounter groupId false
      (c.groups.lookup groupId) (some g)) :
    Changes mgr offered (fun _ => false) c { c with groups := c.groups.insert groupId g } := by
  have hinsert := changes_insert rfl hchange (Or.inl rfl)
  simp only [Bool.and_false] at hinsert
  exact hinsert

theorem changes_joinLookup {c' : GroupCoordinator}
    (h : c.joinLookup groupId topics strategy = .ok c') :
    Changes mgr offered (fun _ => false) c c' := by
  obtain rfl | ⟨hnone, -, rfl⟩ := joinLookup_cases h
  · exact .refl mgr offered c'
  · exact changes_insert_quiet (by rw [hnone]; exact .created topics strategy)

theorem GroupChange.of_subscribe {g' : Group} (h : subscribe g topics strategy = .ok g')
    (counter counter' : UInt64) (groupId : Bytes) :
    GroupChange mgr offered counter counter' groupId false (some g) (some g') := by
  obtain ⟨hempty, rfl⟩ | ⟨-, -, -, rfl⟩ := subscribe_cases h
  · exact .subscribed topics strategy hempty
  · exact .same _

theorem changes_joinGroup (groupId memberId : Bytes) (sessionTimeoutMs : UInt32)
    (topics : List Bytes) (strategy : AssignorStrategy) (env : Env) (hoffered : offered topics) :
    Changes mgr offered (fun id => groupId == id && (memberId.isEmpty &&
        (c.joinGroup mgr groupId memberId sessionTimeoutMs topics strategy env).1.errorCode == 0)) c
      (c.joinGroup mgr groupId memberId sessionTimeoutMs topics strategy env).2 := by
  have houtcome := joinOutcome c mgr groupId memberId sessionTimeoutMs topics strategy env
  generalize c.joinGroup mgr groupId memberId sessionTimeoutMs topics strategy env = res
    at houtcome ⊢
  cases houtcome with
  | refused hcode => exact changes_stay (by simp [notJoined, hcode])
  | subscribed hg hsub hcode =>
    refine changes_insert (show _ = false by simp [notJoined, hcode]) ?_ (Or.inl rfl)
    rw [hg]
    exact .of_subscribe hsub _ _ groupId
  | added hnew hg hsub _ hid hg₁ =>
    refine changes_insert (show _ = true by rw [hnew]; rfl) ?_ (Or.inr rfl)
    rw [hg, hg₁, hid]
    exact .joined _ env.rand hoffered hsub rfl
  | refreshed hold hg hm hg₁ =>
    refine changes_insert (show _ = false by simp [hold]) ?_ (Or.inl rfl)
    rw [hg, hg₁]
    exact .refreshed hm rfl

theorem changes_heartbeat (groupId memberId : Bytes) (generation : UInt32) (env : Env) :
    Changes mgr offered (fun _ => false) c (c.heartbeat groupId memberId generation env).2 := by
  unfold heartbeat
  cases hg : c.groups.lookup groupId with
  | none => exact .refl mgr offered c
  | some g =>
    simp only
    cases hm : g.members.lookup memberId with
    | none => exact .refl mgr offered c
    | some m =>
      simp only
      split
      · exact .refl mgr offered c
      · exact changes_insert_quiet (by rw [hg]; exact .refreshed hm rfl)

theorem changes_leave (groupId memberId : Bytes) :
    Changes mgr offered (fun id => groupId == id &&
      (c.leave mgr groupId memberId).1.errorCode == 0) c (c.leave mgr groupId memberId).2 := by
  unfold leave
  cases hg : c.groups.lookup groupId with
  | none => exact changes_stay rfl
  | some g =>
    simp only
    split
    · exact changes_stay rfl
    · rename_i hsome
      have hmem : memberId ∈ g.members := by
        rw [Bool.not_eq_true, Option.isNone_eq_false_iff] at hsome
        exact AList.lookup_isSome.mp hsome
      refine changes_insert rfl ?_ (Or.inl rfl)
      rw [hg]
      refine .removed memberId (fun x hx => ?_) hmem ?_
      · exact (AList.mem_erase.mp hx).2
      · exact fun hx => (AList.mem_erase.mp hx).1 rfl

theorem mem_rebalanceUnlocked : id ∈ (rebalanceUnlocked mgr g).members ↔ id ∈ g.members := by
  unfold rebalanceUnlocked
  split
  · exact Iff.rfl
  · rw [AList.mem_keys, AList.mem_keys, AssocMap.keys_mapValues]

theorem mem_afterRemoval : id ∈ (afterRemoval mgr g).members ↔ id ∈ g.members := by
  unfold afterRemoval
  simp only
  split
  · exact Iff.rfl
  · exact mem_rebalanceUnlocked

theorem mem_foldl_erase {members : AList fun _ : Bytes => MemberMetadata} (ids : List Bytes)
    {x : Bytes} : x ∈ ids.foldl (fun ms id => ms.erase id) members ↔ x ∈ members ∧ x ∉ ids := by
  induction ids generalizing members with
  | nil => simp
  | cons id rest ih =>
    rw [List.foldl_cons, ih, AList.mem_erase, List.mem_cons]
    tauto

theorem GroupChange.expireGroup (now : ℤ) (g : Group) (counter counter' : UInt64)
    (groupId : Bytes) :
    GroupChange mgr offered counter counter' groupId (decide (0 < (expireGroup mgr now g).1))
      (some g)
      (some (expireGroup mgr now g).2) := by
  unfold GroupCoordinator.expireGroup
  simp only
  split
  · exact .same _
  · rename_i hids
    have hne : expiredIds now g ≠ [] := by simpa using hids
    obtain ⟨id, hid⟩ := List.exists_mem_of_ne_nil _ hne
    have hmem : id ∈ g.members := by
      obtain ⟨e, he, rfl⟩ := List.mem_map.mp hid
      exact AList.mem_keys.mpr (List.mem_map_of_mem (List.mem_filter.mp he).1)
    rw [decide_eq_true (List.length_pos_iff.mpr hne)]
    refine .removed id (fun x hx => ?_) hmem ?_
    · exact ((mem_foldl_erase _).mp hx).1
    · exact fun hx => ((mem_foldl_erase _).mp hx).2 hid

theorem changes_expire (now : ℤ) (groupId : Bytes) :
    Changes mgr offered (fun id => groupId == id && decide
      (0 < (expireLoop mgr now [groupId] c).1)) c
      (expireLoop mgr now [groupId] c).2 := by
  cases hg : c.groups.lookup groupId with
  | none =>
    simp only [expireLoop, hg]
    exact changes_stay rfl
  | some g =>
    simp only [expireLoop, hg, Nat.add_zero]
    refine changes_insert rfl ?_ (Or.inl rfl)
    rw [hg]
    exact .expireGroup now g _ _ groupId

end Sections

def GroupSystem.Offered (s : GroupSystem) (topics : List Bytes) : Prop :=
  ∃ e ∈ s.pending, e.1.topics = topics

/-- **One step changes each group in one of the six ways.** -/
theorem Step.changes {s s' : GroupSystem} {a : Action} (h : Step s a s') :
    Changes s.mgr s.Offered (fun id => a.changesMembers s id) s.coordinator s'.coordinator := by
  cases h with
  | storage _ => exact .refl _ _ _
  | joinCheck _ => exact .refl _ _ _
  | joinLookup _ hok => exact changes_joinLookup hok
  | joinRefused _ _ => exact .refl _ _ _
  | @joinGroup call pre post env hpending =>
    exact changes_joinGroup _ _ _ _ _ env ⟨(call, .located), by simp [hpending], rfl⟩
  | heartbeat groupId memberId generation env => exact changes_heartbeat _ _ _ env
  | leave groupId memberId => exact changes_leave groupId memberId
  | expire groupId now => exact changes_expire now groupId
  | commit _ _ _ _ _ => exact .refl _ _ _

theorem CallStep.changes {s s' : CallSystem} {a : CallAction} (h : CallStep s a s') :
    Changes s.mgr s.Offered (fun id => a.changesMembers s id) s.coordinator s'.coordinator := by
  cases h with
  | other _ hstep => exact hstep.changes
  | commitCheck _ => exact .refl _ _ _
  | commitLookup _ => exact .refl _ _ _
  | commitSection _ _ => exact .refl _ _ _

end GroupCoordinator

end StreamForge
