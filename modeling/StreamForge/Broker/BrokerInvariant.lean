import StreamForge.Broker.MessageHandler
import StreamForge.Broker.StorageInvariant

/-!
# The broker as a process

`server_main` recovers the topics and then the committed offsets, the workers
handle requests, and two background threads run retention passes and expire
group members. A restart keeps the data directory.

`BrokerInv` is the invariant of all runs: the storage holds its histories, the
cache of committed offsets is what a replay of their log would build, and every
group has a valid id. `step_spec` says what one event adds to the histories,
and `start_spec` that a start finds them again.
-/

namespace StreamForge

open FileTrace OffsetStore MessageHandler

/-! ## The process -/

/-- The start of `server_main`: the topics first, then the committed offsets. -/
def Broker.start (config : StorageConfig) (coordinatorConfig : CoordinatorConfig)
    (dataDir : DataDir) (nowMs : Int64) : Except Status Broker :=
  match TopicManager.openAndRecoverAll config dataDir with
  | (st, manager) =>
    if !st.ok then .error st
    else
      match OffsetStore.openAndRecover manager nowMs with
      | (st, store, manager) =>
        if !st.ok then .error st
        else .ok { manager, store, coordinator := { config := coordinatorConfig } }

inductive Event where
  | request (req : Frame) (env : Env)
  | retention (clock : Bytes → ℕ → Int64)
  | expire (env : Env)
  | restart (config : StorageConfig) (coordinatorConfig : CoordinatorConfig) (nowMs : Int64)

/-- Only a restart can fail as a whole. -/
def Broker.step (b : Broker) : Event → Except Status Broker
  | .request req env => .ok (handleRequest b req env).2
  | .retention clock =>
    .ok { b with manager := (RetentionManager.runOnePass b.manager false [] clock).2 }
  | .expire env => .ok { b with coordinator := (b.coordinator.expireMembers b.manager env).2 }
  | .restart config coordinatorConfig nowMs =>
    Broker.start config coordinatorConfig b.manager.dataDir nowMs

def Broker.run (b : Broker) : List Event → Except Status Broker
  | [] => .ok b
  | e :: rest =>
    match b.step e with
    | .error st => .error st
    | .ok b => b.run rest

/-- `P` holds of every event of the run, in the state it finds. -/
def Broker.Throughout (P : Broker → Event → Prop) (b : Broker) : List Event → Prop
  | [] => True
  | e :: rest => P b e ∧ ∀ b', b.step e = .ok b' → b'.Throughout P rest

def Event.count : Event → ℕ
  | .request req _ =>
    if req.type = MessageType.PRODUCE then
      ((decodeBody ProduceRequest.decode req.body).map (·.records.length)).getD 0
    else if req.type = MessageType.COMMIT_OFFSET then
      ((decodeBody CommitOffsetRequest.decode req.body).map (·.entries.length)).getD 0
    else 0
  | _ => 0

def Event.NoFaults : Event → Prop
  | .request _ env => env.faults = []
  | _ => True

def CommitOffsetRequest.requestEntries (msg : CommitOffsetRequest) :
    List OffsetCommitRequestEntry :=
  msg.entries.map fun e => ⟨e.topic, e.partition, e.offset⟩

/-! ## Groups -/

namespace GroupCoordinator

def ValidIds (c : GroupCoordinator) : Prop := ∀ id ∈ c.groups, validateGroupId id = true

section ValidIds

variable {c : GroupCoordinator} {mgr : TopicManager}

variable {id : Bytes}

theorem ValidIds.insert (h : c.ValidIds) (hid : validateGroupId id = true) (counter : UInt64)
    (g : Group) :
    ValidIds { c with memberCounter := counter, groups := c.groups.insert id g } := by
  intro id' hmem
  rcases (AList.mem_insert _).mp hmem with rfl | hmem
  · exact hid
  · exact h id' hmem

theorem ValidIds.of_lookup (h : c.ValidIds) {g : Group} (hg : c.groups.lookup id = some g) :
    validateGroupId id = true :=
  h id (AList.lookup_isSome.mp (by rw [hg]; rfl))

theorem ValidIds.joinGroup (h : c.ValidIds) (groupId memberId : Bytes) (sessionTimeoutMs : UInt32)
    (topics : List Bytes) (strategy : AssignorStrategy) (env : Env) :
    (c.joinGroup mgr groupId memberId sessionTimeoutMs topics strategy env).2.ValidIds := by
  have houtcome := joinOutcome c mgr groupId memberId sessionTimeoutMs topics strategy env
  generalize c.joinGroup mgr groupId memberId sessionTimeoutMs topics strategy env = res
    at houtcome ⊢
  cases houtcome with
  | refused _ => exact h
  | subscribed hg _ _ => exact h.insert (h.of_lookup hg) _ _
  | added _ hg _ _ _ _ => exact h.insert (h.of_lookup hg) _ _
  | refreshed _ hg _ _ => exact h.insert (h.of_lookup hg) _ _

theorem ValidIds.joinLookup (h : c.ValidIds) {groupId : Bytes}
    (hid : validateGroupId groupId = true) {topics : List Bytes} {strategy : AssignorStrategy}
    {c' : GroupCoordinator} (hlookup : c.joinLookup groupId topics strategy = .ok c') :
    c'.ValidIds := by
  obtain rfl | ⟨-, -, rfl⟩ := joinLookup_cases hlookup
  · exact h
  · exact h.insert hid _ _

theorem valid_of_checkJoin {groupId : Bytes} {sessionTimeoutMs : UInt32} {topics : List Bytes}
    {strategy : UInt8} (h : c.checkJoin mgr groupId sessionTimeoutMs topics strategy = none) :
    validateGroupId groupId = true := by
  unfold checkJoin at h
  by_contra hbad
  rw [Bool.not_eq_true] at hbad
  simp [hbad] at h

theorem ValidIds.join (h : c.ValidIds) (groupId memberId : Bytes) (sessionTimeoutMs : UInt32)
    (topics : List Bytes) (strategy : UInt8) (env : Env) :
    (c.join mgr groupId memberId sessionTimeoutMs topics strategy env).2.ValidIds := by
  unfold GroupCoordinator.join
  cases hcheck : c.checkJoin mgr groupId sessionTimeoutMs topics strategy with
  | some res => exact h
  | none =>
    cases hfound : c.joinLookup groupId topics (strategyOf strategy) with
    | error res => exact h
    | ok c' => exact (h.joinLookup (valid_of_checkJoin hcheck) hfound).joinGroup _ _ _ _ _ _

theorem ValidIds.heartbeat (h : c.ValidIds) (groupId memberId : Bytes) (generation : UInt32)
    (env : Env) : (c.heartbeat groupId memberId generation env).2.ValidIds := by
  unfold GroupCoordinator.heartbeat
  cases hg : c.groups.lookup groupId with
  | none => exact h
  | some g =>
    simp only
    cases g.members.lookup memberId with
    | none => exact h
    | some m =>
      simp only
      split
      · exact h
      · exact h.insert (h.of_lookup hg) _ _

theorem ValidIds.leave (h : c.ValidIds) (groupId memberId : Bytes) :
    (c.leave mgr groupId memberId).2.ValidIds := by
  unfold GroupCoordinator.leave
  cases hg : c.groups.lookup groupId with
  | none => exact h
  | some g =>
    simp only
    split
    · exact h
    · exact h.insert (h.of_lookup hg) _ _

theorem ValidIds.expireLoop (now : ℤ) : ∀ (ids : List Bytes) {c : GroupCoordinator}, c.ValidIds →
    (GroupCoordinator.expireLoop mgr now ids c).2.ValidIds := by
  intro ids
  induction ids with
  | nil => exact id
  | cons id rest ih =>
    intro c h
    unfold GroupCoordinator.expireLoop
    cases hg : c.groups.lookup id with
    | none => exact ih h
    | some g => exact ih (h.insert (h.of_lookup hg) _ _)

end ValidIds

end GroupCoordinator

/-! ## The log of committed offsets -/

theorem cacheItems_eq_replay (groupId : Bytes) (items : List OffsetCommitItem) (ts : Int64) :
    ∀ (next : UInt64) (cache : OffsetCache),
    cacheItems groupId items cache = replay cache (assign next ts (batchOf groupId items)) := by
  induction items with
  | nil => exact fun _ _ => rfl
  | cons item rest ih =>
    intro next cache
    have hvalue := decodeValue_encodeValue item.offset item.timestampMs
    simp only [cacheItems, batchOf, List.foldl_cons, List.map_cons, assign, replay, hvalue]
    exact ih _ _

theorem replay_append (cache : OffsetCache) (a b : List Record) :
    replay cache (a ++ b) = replay (replay cache a) b := List.foldl_append

section Load

variable {p : Partition} {d : Disk} {hist : History}

theorem loadCache_ok (h : Holds p d hist) (hroom : hist.records.length < 2 ^ 64)
    (hearly : hist.earliest = 0) (hall : ∀ r ∈ hist.records, Loadable r) :
    loadCache p (Fs.start d) = (.OK, replay ∅ hist.records) := by
  have hzero : p.earliestOffset.toNat = 0 := h.2.trans hearly
  have hnext := h.1.next_toNat hroom
  have hload := @loadLoop_ok _ h.1 hroom (p.nextOffset.toNat - p.earliestOffset.toNat + 1)
    p.earliestOffset ∅ (UInt64.le_refl _) (by simp only; omega) (by simp only at hnext ⊢; omega)
    (by rw [hzero]; exact hall)
  rw [hzero] at hload
  unfold loadCache
  rw [hzero]
  exact hload

theorem loadCache_corrupt (h : Holds p d hist) (hroom : hist.records.length < 2 ^ 64)
    (hearly : hist.earliest = 0) (hbad : ∃ r ∈ hist.records, ¬Loadable r) :
    (loadCache p (Fs.start d)).1.code = .Corrupt := by
  have hzero : p.earliestOffset.toNat = 0 := h.2.trans hearly
  have hnext := h.1.next_toNat hroom
  exact @loadLoop_corrupt _ h.1 hroom (p.nextOffset.toNat - p.earliestOffset.toNat + 1)
    p.earliestOffset ∅ (UInt64.le_refl _) (by simp only at hnext ⊢; omega)
      (by rw [hzero]; exact hbad)

end Load

section Open

variable {mgr : TopicManager} {hists : Histories}

theorem internalTopic_spec (h : ManagerInv mgr hists) (nowMs : Int64) :
    ∃ t mgr', internalTopic mgr nowMs = (.ok t, mgr') ∧
      mgr'.getTopic internalOffsetsTopic = some t ∧ ManagerInv mgr' hists := by
  unfold internalTopic
  cases ht : mgr.getTopic internalOffsetsTopic with
  | some t => exact ⟨t, mgr, rfl, ht, h⟩
  | none =>
    rcases h.createTopic internalOffsetsTopic 1 0 0 nowMs with
      ⟨st, -, hinvalid | hlow | hhigh | hknown⟩ | ⟨t, mgr', heq, -, -, ht', -, hinv⟩
    · exact absurd (by decide) hinvalid
    · omega
    · omega
    · rw [ht] at hknown
      cases hknown
    · simp only [heq]
      exact ⟨t, mgr', rfl, ht', hinv⟩

/-- `OffsetStore::open_and_recover` replays the partition of the internal topic. -/
theorem openAndRecover_eq (h : ManagerInv mgr hists) (nowMs : Int64) :
    ∃ t p mgr', OffsetStore.openAndRecover mgr nowMs =
        ((loadCache p (Fs.start (mgr'.partDirs internalOffsetsTopic 0))).1,
          ⟨true, (loadCache p (Fs.start (mgr'.partDirs internalOffsetsTopic 0))).2⟩, mgr') ∧
      mgr'.getTopic internalOffsetsTopic = some t ∧ t.getPartition 0 = some p ∧
      Holds p (mgr'.partDirs internalOffsetsTopic 0) (hists internalOffsetsTopic 0) ∧
      ManagerInv mgr' hists := by
  obtain ⟨t, mgr', htopic, ht, hinv⟩ := internalTopic_spec h nowMs
  obtain ⟨dir, hdir, htinv⟩ := hinv.topic ht
  obtain ⟨p, hp⟩ : ∃ p, t.partitions[0]? = some p :=
    ⟨_, List.getElem?_eq_getElem htinv.pos⟩
  refine ⟨t, p, mgr', ?_, ht, hp, ?_, hinv⟩
  · unfold OffsetStore.openAndRecover
    simp only [htopic, Topic.getPartition, hp]
  · rw [partDirs_eq hdir]
    exact htinv.parts 0 p hp

/-- **`OffsetStore::open_and_recover`** rebuilds the cache from the log, or
fails on a record that cannot be loaded. -/
theorem openAndRecover_offsets (h : ManagerInv mgr hists) (hroom : hists.HasRoom)
    (hearly : (hists internalOffsetsTopic 0).earliest = 0) (nowMs : Int64) :
    ∃ st cache mgr', OffsetStore.openAndRecover mgr nowMs = (st, ⟨true, cache⟩, mgr') ∧
      ManagerInv mgr' hists ∧ (mgr'.getTopic internalOffsetsTopic).isSome = true ∧
      ((∀ r ∈ (hists internalOffsetsTopic 0).records, Loadable r) →
        st = .OK ∧ cache = replay ∅ (hists internalOffsetsTopic 0).records) ∧
      ((∃ r ∈ (hists internalOffsetsTopic 0).records, ¬Loadable r) → st.code = .Corrupt) := by
  obtain ⟨t, p, mgr', heq, ht, -, hheld, hinv⟩ := openAndRecover_eq h nowMs
  refine ⟨_, _, mgr', heq, hinv, by rw [ht]; rfl, ?_, ?_⟩
  · intro hall
    rw [loadCache_ok hheld (hroom _ 0) hearly hall]
    exact ⟨rfl, rfl⟩
  · exact loadCache_corrupt hheld (hroom _ 0) hearly

end Open

/-- **The invariant of the broker.** -/
structure BrokerInv (b : Broker) (hists : Histories) : Prop where
  storage : ManagerInv b.manager hists
  internal : (b.manager.getTopic internalOffsetsTopic).isSome = true
  kept : (hists internalOffsetsTopic 0).earliest = 0
  opened : b.store.opened = true
  cache : b.store.cache = replay ∅ (hists internalOffsetsTopic 0).records
  coordinated : b.hasCoordinator = true
  groups : b.coordinator.ValidIds

/-- **A start on a data directory** succeeds with the same histories if the
committed offsets can be loaded, and fails if not. -/
theorem DataInv.start {dataDir : DataDir} {hists : Histories} (h : DataInv dataDir hists)
    (hroom : hists.HasRoom) (hkept : (hists internalOffsetsTopic 0).earliest = 0)
    (config : StorageConfig) (coordinatorConfig : CoordinatorConfig) (nowMs : Int64) :
    ((∀ r ∈ (hists internalOffsetsTopic 0).records, Loadable r) ∧
      ∃ b, Broker.start config coordinatorConfig dataDir nowMs = .ok b ∧ BrokerInv b hists) ∨
    ((∃ r ∈ (hists internalOffsetsTopic 0).records, ¬Loadable r) ∧
      ∃ st, Broker.start config coordinatorConfig dataDir nowMs = .error st) := by
  obtain ⟨mgr1, htopics, hinv1⟩ := h.openAndRecoverAll config
  obtain ⟨st, cache, mgr2, hoffsets, hinv2, hinternal, hok, hcorrupt⟩ :=
    openAndRecover_offsets hinv1 hroom hkept nowMs
  by_cases hall : ∀ r ∈ (hists internalOffsetsTopic 0).records, Loadable r
  · obtain ⟨rfl, hcache⟩ := hok hall
    refine Or.inl ⟨hall, ⟨mgr2, ⟨true, cache⟩, { config := coordinatorConfig }, true⟩, ?_, hinv2,
      hinternal, hkept, rfl, hcache, rfl, ?_⟩
    · unfold Broker.start
      simp only [htopics, Status.if_not_ok, hoffsets]
    · intro id hid
      cases hid
  · have hbad : ∃ r ∈ (hists internalOffsetsTopic 0).records, ¬Loadable r := by simpa using hall
    have hfail : st.ok = false := by
      unfold Status.ok
      rw [hcorrupt hbad]
      rfl
    refine Or.inr ⟨hbad, st, ?_⟩
    unfold Broker.start
    simp only [htopics, Status.if_not_ok, hoffsets, hfail, Bool.not_false, if_true]

variable {hists : Histories}

theorem start_spec {mgr : TopicManager} (h : ManagerInv mgr hists) (hroom : hists.HasRoom)
    (hkept : (hists internalOffsetsTopic 0).earliest = 0)
    (hall : ∀ r ∈ (hists internalOffsetsTopic 0).records, Loadable r) (config : StorageConfig)
    (coordinatorConfig : CoordinatorConfig) (nowMs : Int64) :
    ∃ b, Broker.start config coordinatorConfig mgr.dataDir nowMs = .ok b ∧ BrokerInv b hists := by
  rcases (h.dataInv hroom).start hroom hkept config coordinatorConfig nowMs with
    ⟨-, hok⟩ | ⟨⟨r, hr, hbad⟩, -⟩
  · exact hok
  · exact absurd (hall r hr) hbad

theorem DataInv.brokerInv {dataDir : DataDir} (h : DataInv dataDir hists) (hroom : hists.HasRoom)
    (hkept : (hists internalOffsetsTopic 0).earliest = 0) {config : StorageConfig}
    {coordinatorConfig : CoordinatorConfig} {nowMs : Int64} {b : Broker}
    (heq : Broker.start config coordinatorConfig dataDir nowMs = .ok b) : BrokerInv b hists := by
  rcases h.start hroom hkept config coordinatorConfig nowMs with ⟨-, b', heq', hinv⟩ | ⟨-, st, heq'⟩
  · cases heq.symm.trans heq'
    exact hinv
  · cases heq.symm.trans heq'

/-! ## What an event adds -/

def Broker.acceptsCommit (b : Broker) (msg : CommitOffsetRequest) : Bool :=
  (GroupCoordinator.checkEntries b.manager msg.requestEntries).isNone &&
    (GroupCoordinator.checkCaller (b.coordinator.groups.lookup msg.groupId) msg.groupId msg.memberId
      msg.generation msg.requestEntries).isNone &&
    (GroupCoordinator.checkOffsets b.manager msg.requestEntries).isNone

/-- The keys and values that an event adds to the log of committed offsets. -/
def Broker.committed (b : Broker) : Event → List (Bytes × Bytes)
  | .request req env =>
    if req.type = MessageType.COMMIT_OFFSET then
      match decodeBody CommitOffsetRequest.decode req.body with
      | none => []
      | some msg =>
        if b.acceptsCommit msg then
          batchOf msg.groupId (GroupCoordinator.itemsOf msg.requestEntries env)
        else []
    else []
  | _ => []

/-- At most `n` records more in every history, and `batch` in the log of
committed offsets. -/
structure Grows (hists hists' : Histories) (n : ℕ) (batch : List (Bytes × Bytes)) : Prop where
  length_le : ∀ name i, (hists' name i).records.length ≤ (hists name i).records.length + n
  internal : ∃ nowMs, hists' internalOffsetsTopic 0 =
    (hists internalOffsetsTopic 0).append nowMs batch

/-- The broker after an event that adds at most `n` records. -/
def Advanced (hists : Histories) (n : ℕ) (batch : List (Bytes × Bytes)) (b : Broker) : Prop :=
  ∃ hists', BrokerInv b hists' ∧ Grows hists hists' n batch

theorem History.append_nil (h : History) (nowMs : Int64) : h.append nowMs [] = h := by
  simp [History.append, assign]

section Step

variable {b : Broker} {hists : Histories}

theorem Grows.refl (n : ℕ) : Grows hists hists n [] where
  length_le := fun _ _ => Nat.le_add_right _ _
  internal := ⟨0, (History.append_nil _ 0).symm⟩

theorem BrokerInv.unchanged (h : BrokerInv b hists) (n : ℕ) : Advanced hists n [] b :=
  ⟨hists, h, Grows.refl n⟩

theorem BrokerInv.setCoordinator (h : BrokerInv b hists) (n : ℕ) {coordinator : GroupCoordinator}
    (hids : coordinator.ValidIds) : Advanced hists n [] { b with coordinator } :=
  ⟨hists, { h with groups := hids }, Grows.refl n⟩

theorem BrokerInv.createTopic (h : BrokerInv b hists) (name : Bytes) (n : ℕ)
    (retentionMs retentionBytes : UInt64) (nowMs : Int64) :
    BrokerInv { b with
      manager := (b.manager.createTopic name n retentionMs retentionBytes nowMs).2 } hists := by
  rcases h.storage.createTopic name n retentionMs retentionBytes nowMs with
    ⟨st, heq, -⟩ | ⟨t, mgr, heq, -, hnone, -, hother, hinv⟩
  · rw [heq]
    exact h
  · rw [heq]
    -- the internal topic was there before, so it is another one
    have hne : internalOffsetsTopic ≠ name := by
      intro hsame
      have := h.internal
      rw [hsame, hnone] at this
      cases this
    refine { h with storage := hinv, internal := ?_ }
    simp only
    rw [hother _ hne]
    exact h.internal

theorem BrokerInv.handleCreateTopic (h : BrokerInv b hists) (req : Frame) (env : Env) (n : ℕ) :
    Advanced hists n [] (handleCreateTopic b req env).2 := by
  unfold MessageHandler.handleCreateTopic
  cases decodeBody CreateTopicRequest.decode req.body with
  | none => exact h.unchanged n
  | some msg =>
    simp only
    split
    · exact h.unchanged n
    · split
      · exact h.unchanged n
      · split
        · exact h.unchanged n
        · generalize (if msg.hasRetention then msg.retentionMs else 0) = ms
          generalize (if msg.hasRetention then msg.retentionBytes else 0) = bytes
          have hcreated := h.createTopic msg.topic msg.partitions.toNat ms bytes env.systemMs
          rcases heq : b.manager.createTopic msg.topic msg.partitions.toNat ms bytes env.systemMs
            with ⟨res, mgr⟩
          rw [heq] at hcreated
          cases res with
          | error st => exact hcreated.unchanged n
          | ok t => exact hcreated.unchanged n

theorem BrokerInv.setTopic (h : BrokerInv b hists) {name : Bytes}
    (hne : internalOffsetsTopic ≠ name) {t : Topic} {parts : PartDirs} {hist : ℕ → History}
    (hset : ManagerInv (b.manager.setTopic name t parts) (Function.update hists name hist)) :
    BrokerInv { b with manager := b.manager.setTopic name t parts }
      (Function.update hists name hist) where
  storage := hset
  internal := by
    simp only
    rw [getTopic_setTopic, if_neg hne]
    exact h.internal
  kept := by
    rw [Function.update_of_ne hne]
    exact h.kept
  opened := h.opened
  cache := by
    rw [Function.update_of_ne hne]
    exact h.cache
  coordinated := h.coordinated
  groups := h.groups

variable {env : Env} {groupId : Bytes} {items : List OffsetCommitItem}

variable {n : ℕ} {batch : List (Bytes × Bytes)} {req : Frame}

theorem BrokerInv.handleProduce (h : BrokerInv b hists) (req : Frame) (hfaults : env.faults = [])
    (hcount : ∀ msg, decodeBody ProduceRequest.decode req.body = some msg → msg.records.length ≤ n)
    (hroom : ∀ name i, (hists name i).records.length + n < 2 ^ 64) :
    Advanced hists n [] (handleProduce b req env).2 := by
  unfold MessageHandler.handleProduce
  cases hdecode : decodeBody ProduceRequest.decode req.body with
  | none => exact h.unchanged n
  | some msg =>
    simp only
    split
    · exact h.unchanged n
    · rename_i hreserved
      split
      · exact h.unchanged n
      · cases ht : b.manager.getTopic msg.topic with
        | none => exact h.unchanged n
        | some t =>
          obtain ⟨dir, hdir, hinv⟩ := h.storage.topic ht
          have hn := hcount msg hdecode
          have hsmall : ∀ item ∈ msg.records, item.1.length + item.2.length < 2 ^ 32 - 28 := by
            intro item hitem
            have hlen := (ProduceRequest.lengths_of_decode hdecode).2 item hitem
            unfold maxFrameLength at hlen
            omega
          obtain ⟨res, chosen, ps, keyFallback, rrCounter, dirs, hist, heq, hlen, hparts, hres⟩ :=
            hinv.produceBatch msg.partition env.systemMs hsmall
              (fun i => lt_of_le_of_lt (Nat.add_le_add_left hn _) (hroom msg.topic i))
          have hset := @ManagerInv.setTopic _ _ h.storage _ _ ht
            { t with partitions := ps, keyFallback, rrCounter } dirs hist rfl hlen rfl rfl hparts
          have hne : internalOffsetsTopic ≠ msg.topic := by
            intro hsame
            rw [← hsame] at hreserved
            exact hreserved (by decide)
          have hgrows : Grows hists (Function.update hists msg.topic hist) n [] := by
            refine ⟨?_, 0, ?_⟩
            · intro name i
              by_cases hname : name = msg.topic
              · subst hname
                rw [Function.update_self]
                cases res with
                | error st =>
                  rw [show hist = hists msg.topic from hres]
                  omega
                | ok offset =>
                  rw [hres.2]
                  by_cases hi : i = chosen
                  · subst hi
                    rw [Function.update_self]
                    simp only [History.append, List.length_append, length_assign]
                    omega
                  · rw [Function.update_of_ne hi]
                    omega
              · rw [Function.update_of_ne hname]
                omega
            · rw [Function.update_of_ne hne, History.append_nil]
          simp only [partDirs_eq hdir, hfaults, heq]
          cases res with
          | error st => exact ⟨_, h.setTopic hne hset, hgrows⟩
          | ok offset => exact ⟨_, h.setTopic hne hset, hgrows⟩

/-! ## Commits -/

theorem length_batchOf (hgroup : groupId.length < 65536)
    (htopics : ∀ item ∈ items, item.topic.length < 65536) :
    ∀ kv ∈ batchOf groupId items, kv.1.length + kv.2.length < 131100 := by
  intro kv hkv
  obtain ⟨item, hitem, rfl⟩ := List.mem_map.mp hkv
  have htopic := htopics item hitem
  have hpart := @Decimal.length_toDecimal_le item.partition.toNat 5 (by norm_num)
    (lt_of_lt_of_le item.partition.toNat_lt (by norm_num))
  simp only [makeKey, toString, List.length_append, List.length_singleton, length_encodeValue]
  omega

theorem refusesBatch_small (hne : batch ≠ [])
    (hsmall : ∀ kv ∈ batch, kv.1.length + kv.2.length < 131100) :
    Partition.refusesBatch batch = false := by
  simp only [Partition.refusesBatch, Bool.or_eq_false_iff, List.isEmpty_eq_false_iff,
    List.any_eq_false]
  refine ⟨hne, fun kv hkv => ?_⟩
  have hkv := hsmall kv hkv
  have hsize : Partition.recordSize kv.1 kv.2 = 28 + (kv.1.length + kv.2.length) := by
    unfold Partition.recordSize
    rw [u32_of_lt (by omega : kv.1.length + kv.2.length < 2 ^ 32), u32_of_lt (by omega)]
  rw [Partition.recordTooLarge, hsize, decide_eq_true_eq]
  unfold maxRecordSize
  omega

/-- What the partition of the internal topic makes of a commit: its records are
added, or the batch is refused and nothing changes. -/
theorem Holds.commit {p : Partition} {d : Disk} {hist : History} (h : Holds p d hist)
    {store : OffsetStore} (hopened : store.opened = true)
    (hsmall : ∀ kv ∈ batchOf groupId items, kv.1.length + kv.2.length < 2 ^ 32 - 28) (nowMs : Int64)
    (hroom : hist.records.length + items.length < 2 ^ 64) :
    ∃ st cache p' fs batch, store.commit groupId items p nowMs [] (Fs.start d) =
        (st, { store with cache }, p', fs) ∧
      Holds p' fs.dir (hist.append nowMs batch) ∧
      cache = replay store.cache (assign (UInt64.ofNat hist.records.length) nowMs batch) ∧
      (batch = [] ∨ batch = batchOf groupId items) ∧
      ((items = [] ∨ Partition.refusesBatch (batchOf groupId items) = false) →
        st = .OK ∧ batch = batchOf groupId items) := by
  have hbatch : (batchOf groupId items).length = items.length := by simp [batchOf]
  unfold OffsetStore.commit
  cases hempty : items.isEmpty with
  | true =>
    obtain rfl := List.isEmpty_iff.mp hempty
    refine ⟨.OK, store.cache, p, Fs.start d, [], rfl, ?_, rfl, Or.inl rfl, fun _ => ⟨rfl, rfl⟩⟩
    rw [History.append_nil]
    exact h
  | false =>
    have hready : (!store.opened) = false := by rw [hopened, Bool.not_true]
    simp only [hready, Bool.false_eq_true, if_false]
    cases hfit : Partition.refusesBatch (batchOf groupId items) with
    | true =>
      obtain ⟨st, heq⟩ := appendBatch_refused hfit p nowMs [] (Fs.start d)
      refine ⟨st, store.cache, p, Fs.start d, [], by simp only [heq], ?_, rfl, Or.inl rfl, ?_⟩
      · rw [History.append_nil]
        exact h
      · rintro (rfl | hfalse)
        · cases hempty
        · cases hfalse
    | false =>
      obtain ⟨p', fs, heq, hheld⟩ := h.appendBatch nowMs hsmall hfit (by rw [hbatch]; exact hroom)
      refine ⟨.OK, cacheItems groupId items store.cache, p', p'.flush fs, batchOf groupId items,
        by simp only [heq], ?_, ?_, Or.inr rfl, fun _ => ⟨rfl, rfl⟩⟩
      · rw [flush_dir]
        exact hheld
      · exact cacheItems_eq_replay groupId items nowMs _ _

def Histories.commit (hists : Histories) (nowMs : Int64) (batch : List (Bytes × Bytes)) :
    Histories :=
  Function.update hists internalOffsetsTopic (Function.update (hists internalOffsetsTopic) 0
    ((hists internalOffsetsTopic 0).append nowMs batch))

theorem Histories.commit_internal (hists : Histories) (nowMs : Int64)
    (batch : List (Bytes × Bytes)) : hists.commit nowMs batch internalOffsetsTopic 0 =
      (hists internalOffsetsTopic 0).append nowMs batch := by
  rw [Histories.commit, Function.update_self, Function.update_self]

/-- **A commit** of the offset store adds its records to the log, or is refused,
and keeps the cache in step with it. -/
theorem BrokerInv.commitTo_logged (h : BrokerInv b hists)
    (hsmall : ∀ kv ∈ batchOf groupId items, kv.1.length + kv.2.length < 2 ^ 32 - 28) (nowMs : Int64)
    (hroom : (hists internalOffsetsTopic 0).records.length + items.length < 2 ^ 64) :
    ∃ st store manager batch, b.store.commitTo groupId items b.manager nowMs [] =
        (st, store, manager) ∧
      BrokerInv { b with store, manager } (hists.commit nowMs batch) ∧
      (batch = [] ∨ batch = batchOf groupId items) ∧
      ((items = [] ∨ Partition.refusesBatch (batchOf groupId items) = false) →
        st = .OK ∧ batch = batchOf groupId items) := by
  obtain ⟨t, ht⟩ := Option.isSome_iff_exists.mp h.internal
  obtain ⟨dir, hdir, hinv⟩ := h.storage.topic ht
  obtain ⟨p, hp⟩ : ∃ p, t.partitions[0]? = some p := ⟨_, List.getElem?_eq_getElem hinv.pos⟩
  obtain ⟨st, cache, p', fs, batch, hcommit, hheld', hcache, hbatch, hfits⟩ :=
    (hinv.parts 0 p hp).commit h.opened hsmall nowMs hroom
  set t' : Topic := { t with partitions := t.partitions.set 0 p' } with ht'
  have hset := @ManagerInv.setTopic _ _ h.storage _ _ ht t' (Function.update dir.parts 0 fs.dir) _
    rfl (by simp [ht', Topic.numPartitions]) rfl rfl (holds_set hinv.parts hheld')
  refine ⟨st, { b.store with cache },
    b.manager.setTopic internalOffsetsTopic t' (Function.update dir.parts 0 fs.dir), batch, ?_,
    ⟨hset, ?_, ?_, h.opened, ?_, h.coordinated, h.groups⟩, hbatch, hfits⟩
  · unfold OffsetStore.commitTo
    simp only [ht, Topic.getPartition, hp, partDirs_eq hdir, hcommit, ht']
  · simp only [getTopic_setTopic, if_true, Option.isSome_some]
  · rw [Histories.commit_internal]
    exact h.kept
  · rw [Histories.commit_internal, History.append, replay_append, ← h.cache]
    exact hcache

theorem Grows.commit (hists : Histories) (nowMs : Int64) (hlen : batch.length ≤ n) :
    Grows hists (hists.commit nowMs batch) n batch := by
  refine ⟨?_, nowMs, hists.commit_internal nowMs batch⟩
  intro name i
  unfold Histories.commit
  by_cases hname : name = internalOffsetsTopic
  · subst hname
    rw [Function.update_self]
    by_cases hi : i = 0
    · subst hi
      rw [Function.update_self]
      simp only [History.append, List.length_append, length_assign]
      omega
    · rw [Function.update_of_ne hi]
      omega
  · rw [Function.update_of_ne hname]
    omega

theorem BrokerInv.commitTo_sized (h : BrokerInv b hists)
    (hsmall : ∀ kv ∈ batchOf groupId items, kv.1.length + kv.2.length < 2 ^ 32 - 28) (nowMs : Int64)
    (hroom : (hists internalOffsetsTopic 0).records.length + items.length < 2 ^ 64) :
    ∃ st store manager batch, b.store.commitTo groupId items b.manager nowMs [] =
        (st, store, manager) ∧
      Advanced hists items.length batch { b with store, manager } ∧
      ((items = [] ∨ Partition.refusesBatch (batchOf groupId items) = false) →
        st = .OK ∧ batch = batchOf groupId items) := by
  obtain ⟨st, store, manager, batch, heq, hinv, hbatch, hfits⟩ :=
    h.commitTo_logged hsmall nowMs hroom
  have hlen : batch.length ≤ items.length := by
    rcases hbatch with rfl | rfl
    · exact Nat.zero_le _
    · simp [batchOf]
  exact ⟨st, store, manager, batch, heq, ⟨_, hinv, Grows.commit hists nowMs hlen⟩, hfits⟩

theorem BrokerInv.commitTo (h : BrokerInv b hists) (hgroup : groupId.length < 65536)
    (htopics : ∀ item ∈ items, item.topic.length < 65536) (nowMs : Int64)
    (hroom : (hists internalOffsetsTopic 0).records.length + items.length < 2 ^ 64) :
    ∃ store manager, b.store.commitTo groupId items b.manager nowMs [] = (.OK, store, manager) ∧
      Advanced hists items.length (batchOf groupId items) { b with store, manager } := by
  have hsmall := length_batchOf hgroup htopics
  obtain ⟨st, store, manager, batch, heq, hadv, hfits⟩ := h.commitTo_sized
    (fun kv hkv => by have := hsmall kv hkv; omega) nowMs hroom
  have hfit : items = [] ∨ Partition.refusesBatch (batchOf groupId items) = false := by
    by_cases hne : batchOf groupId items = []
    · exact Or.inl (List.map_eq_nil_iff.mp hne)
    · exact Or.inr (refusesBatch_small hne hsmall)
  obtain ⟨rfl, rfl⟩ := hfits hfit
  exact ⟨store, manager, heq, hadv⟩

/-- What COMMIT_OFFSET does with a decoded commit: nothing, with an error code,
or all of it. -/
theorem BrokerInv.commit (h : BrokerInv b hists) {msg : CommitOffsetRequest}
    (hgroup : msg.groupId.length < 65536)
    (htopics : ∀ entry ∈ msg.entries, entry.topic.length < 65536) (hfaults : env.faults = [])
    (hroom : (hists internalOffsetsTopic 0).records.length + msg.entries.length < 2 ^ 64) :
    ∃ res store manager, b.coordinator.commit b.store b.manager msg.groupId msg.memberId
        msg.generation msg.requestEntries env = (res, store, manager) ∧
      Advanced hists msg.entries.length
        (if b.acceptsCommit msg then
          batchOf msg.groupId (GroupCoordinator.itemsOf msg.requestEntries env) else [])
        { b with store, manager } := by
  unfold GroupCoordinator.commit Broker.acceptsCommit
  cases hentries : GroupCoordinator.checkEntries b.manager msg.requestEntries with
  | some res => exact ⟨res, b.store, b.manager, rfl, h.unchanged _⟩
  | none =>
    simp only [GroupCoordinator.commitSection]
    cases hcaller : GroupCoordinator.checkCaller (b.coordinator.groups.lookup msg.groupId)
        msg.groupId msg.memberId msg.generation msg.requestEntries with
    | some res => exact ⟨res, b.store, b.manager, rfl, h.unchanged _⟩
    | none =>
      simp only
      cases hoffsets : GroupCoordinator.checkOffsets b.manager msg.requestEntries with
      | some res => exact ⟨res, b.store, b.manager, rfl, h.unchanged _⟩
      | none =>
        have hlen : (GroupCoordinator.itemsOf msg.requestEntries env).length =
            msg.entries.length := by
          simp [GroupCoordinator.itemsOf, CommitOffsetRequest.requestEntries]
        have hitems : ∀ item ∈ GroupCoordinator.itemsOf msg.requestEntries env,
            item.topic.length < 65536 := by
          intro item hitem
          obtain ⟨entry, hentry, rfl⟩ := List.mem_map.mp hitem
          obtain ⟨wire, hwire, rfl⟩ := List.mem_map.mp hentry
          exact htopics wire hwire
        obtain ⟨store, manager, heq, hadv⟩ := h.commitTo hgroup hitems env.systemMs
          (by rw [hlen]; exact hroom)
        rw [hlen] at hadv
        simp only [hfaults, heq, Status.ok_OK, if_true]
        exact ⟨_, store, manager, rfl, hadv⟩

theorem BrokerInv.handleCommitOffset (h : BrokerInv b hists)
    (htype : req.type = MessageType.COMMIT_OFFSET) (hfaults : env.faults = [])
    (hroom : ∀ name i, (hists name i).records.length + (Event.request req env).count < 2 ^ 64) :
    Advanced hists (Event.request req env).count (b.committed (.request req env))
      (handleCommitOffset b req env).2 := by
  have hproduce : req.type ≠ MessageType.PRODUCE := by
    rw [htype]
    decide
  simp only [Event.count, if_neg hproduce, if_pos htype, Broker.committed] at hroom ⊢
  unfold MessageHandler.handleCommitOffset
  cases hdecode : decodeBody CommitOffsetRequest.decode req.body with
  | none => exact h.unchanged _
  | some msg =>
    rw [hdecode] at hroom
    obtain ⟨hgroup, htopics⟩ := CommitOffsetRequest.lengths_of_decode hdecode
    obtain ⟨res, store, manager, heq, hadv⟩ :=
      h.commit hgroup htopics hfaults (hroom internalOffsetsTopic 0)
    unfold CommitOffsetRequest.requestEntries at heq
    simp only [heq]
    by_cases hcode : res.errorCode ≠ 0
    · rw [if_pos hcode]
      exact hadv
    · rw [if_neg hcode]
      exact hadv

/-- What `handle_request` does: most requests leave the broker as it is. -/
inductive Handled (b : Broker) (req : Frame) (env : Env) : Frame × Broker → Prop where
  | unchanged (resp : Frame) : Handled b req env (resp, b)
  | createTopic : Handled b req env (handleCreateTopic b req env)
  | produce (h : req.type = MessageType.PRODUCE) : Handled b req env (handleProduce b req env)
  | joinGroup (resp : Frame) {msg : JoinGroupRequest} (htype : req.type = MessageType.JOIN_GROUP)
      (hmsg : decodeBody JoinGroupRequest.decode req.body = some msg) :
      Handled b req env (resp, { b with coordinator := (b.coordinator.join b.manager msg.groupId
        msg.memberId msg.sessionTimeoutMs msg.topics msg.strategy env).2 })
  | heartbeat (resp : Frame) (groupId memberId : Bytes) (generation : UInt32) :
      Handled b req env (resp,
        { b with coordinator := (b.coordinator.heartbeat groupId memberId generation env).2 })
  | leaveGroup (resp : Frame) (groupId memberId : Bytes) : Handled b req env (resp,
      { b with coordinator := (b.coordinator.leave b.manager groupId memberId).2 })
  | commitOffset (h : req.type = MessageType.COMMIT_OFFSET) :
      Handled b req env (handleCommitOffset b req env)

theorem handled_joinGroup (env : Env) (htype : req.type = MessageType.JOIN_GROUP) :
    Handled b req env (handleJoinGroup b req env) := by
  unfold handleJoinGroup
  cases hmsg : decodeBody JoinGroupRequest.decode req.body with
  | none => exact .unchanged _
  | some msg =>
    exact iteInduction (fun _ => .joinGroup _ htype hmsg) fun _ => .joinGroup _ htype hmsg

theorem handled_heartbeat (b : Broker) (req : Frame) (env : Env) :
    Handled b req env (handleHeartbeat b req env) := by
  unfold handleHeartbeat
  split
  · exact .unchanged _
  · exact iteInduction (fun _ => .heartbeat _ _ _ _) fun _ => .heartbeat _ _ _ _

theorem handled_leaveGroup (b : Broker) (req : Frame) (env : Env) :
    Handled b req env (handleLeaveGroup b req) := by
  unfold handleLeaveGroup
  split
  · exact .unchanged _
  · exact iteInduction (fun _ => .leaveGroup _ _ _) fun _ => .leaveGroup _ _ _

theorem handled (b : Broker) (req : Frame) (env : Env) :
    Handled b req env (handleRequest b req env) := by
  have hwith : ∀ handle : Unit → Frame × Broker, Handled b req env (handle ()) →
      Handled b req env (withCoordinator b req handle) :=
    fun _ h => iteInduction (fun _ => h) fun _ => .unchanged _
  unfold MessageHandler.handleRequest
  refine iteInduction (fun _ => .unchanged _) fun _ => ?_
  refine iteInduction (fun _ => .unchanged _) fun _ => ?_
  refine iteInduction (fun _ => .createTopic) fun _ => ?_
  refine iteInduction .produce fun _ => ?_
  refine iteInduction (fun _ => .unchanged _) fun _ => ?_
  refine iteInduction (fun _ => .unchanged _) fun _ => ?_
  refine iteInduction (fun _ => .unchanged _) fun _ => ?_
  refine iteInduction (fun h => hwith _ (handled_joinGroup env h)) fun _ => ?_
  refine iteInduction (fun _ => hwith _ (handled_heartbeat b req env)) fun _ => ?_
  refine iteInduction (fun _ => hwith _ (handled_leaveGroup b req env)) fun _ => ?_
  refine iteInduction (fun h => hwith _ (.commitOffset h)) fun _ => ?_
  refine iteInduction (fun _ => hwith _ (.unchanged _)) fun _ => ?_
  exact iteInduction (fun _ => hwith _ (.unchanged _)) fun _ => .unchanged _

theorem handleRequest_commit (hcoord : b.hasCoordinator = true)
    (htype : req.type = MessageType.COMMIT_OFFSET) (env : Env) :
    handleRequest b req env = handleCommitOffset b req env := by
  unfold handleRequest withCoordinator
  rw [htype, hcoord]
  rfl

/-- **Every request keeps the invariant**, and what it adds to the log of
committed offsets is known. -/
theorem BrokerInv.handleRequest (h : BrokerInv b hists) (req : Frame) {env : Env}
    (hfaults : env.faults = [])
    (hroom : ∀ name i, (hists name i).records.length + (Event.request req env).count < 2 ^ 64) :
    Advanced hists (Event.request req env).count (b.committed (.request req env))
      (handleRequest b req env).2 := by
  by_cases hcommit : req.type = MessageType.COMMIT_OFFSET
  · rw [handleRequest_commit h.coordinated hcommit]
    exact h.handleCommitOffset hcommit hfaults hroom
  · have hnone : b.committed (.request req env) = [] := by
      simp only [Broker.committed, if_neg hcommit]
    rw [hnone]
    have hhandled := handled b req env
    generalize MessageHandler.handleRequest b req env = res at hhandled ⊢
    cases hhandled with
    | unchanged resp => exact h.unchanged _
    | createTopic => exact h.handleCreateTopic req env _
    | produce hproduce =>
      refine h.handleProduce req hfaults ?_ hroom
      intro msg hmsg
      simp only [Event.count, if_pos hproduce, hmsg]
      exact le_refl _
    | joinGroup resp _ _ => exact h.setCoordinator _ (h.groups.join _ _ _ _ _ _)
    | heartbeat resp _ _ _ => exact h.setCoordinator _ (h.groups.heartbeat _ _ _ _)
    | leaveGroup resp _ _ => exact h.setCoordinator _ (h.groups.leave _ _)
    | commitOffset htype => exact absurd htype hcommit

/-- **Every event of a running broker keeps the invariant.** -/
theorem BrokerInv.step (h : BrokerInv b hists) {e : Event} (hfaults : e.NoFaults)
    (hroom : ∀ name i, (hists name i).records.length + e.count < 2 ^ 64)
    (hrunning : ∀ config coordinatorConfig nowMs, e ≠ .restart config coordinatorConfig nowMs) :
    ∃ b', b.step e = .ok b' ∧ Advanced hists e.count (b.committed e) b' := by
  cases e with
  | request req env => exact ⟨_, rfl, h.handleRequest req hfaults hroom⟩
  | retention clock =>
    obtain ⟨n, mgr, hists', heq, hinv, hrecords, hreserved, hsome⟩ :=
      scanTopics_spec false clock b.manager.topics.keys h.storage
        (fun name i => lt_of_le_of_lt (Nat.le_add_right _ _) (hroom name i))
    have hinternal : hists' internalOffsetsTopic = hists internalOffsetsTopic :=
      hreserved _ (by decide)
    have hpass : RetentionManager.runOnePass b.manager false [] clock = (n, mgr) := heq
    refine ⟨_, rfl, hists', ?_, ?_, 0, ?_⟩
    · rw [hpass]
      exact { h with
        storage := hinv
        internal := (hsome _).trans h.internal
        kept := by rw [hinternal]; exact h.kept
        cache := by rw [hinternal]; exact h.cache }
    · intro name i
      rw [hrecords]
      exact Nat.le_add_right _ _
    · rw [hinternal]
      exact (History.append_nil _ 0).symm
  | expire env =>
    exact ⟨_, rfl, h.setCoordinator _ (GroupCoordinator.ValidIds.expireLoop _ _ h.groups)⟩
  | restart config coordinatorConfig nowMs => exact absurd rfl (hrunning _ _ _)

end Step

end StreamForge
