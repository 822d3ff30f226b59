import StreamForge.Foundation.AssocMap
import StreamForge.Broker.Assignor
import StreamForge.Broker.OffsetStore

/-!
# The group coordinator

`GroupCoordinator`. A call looks its group up under the lock of the registry
and then works on the group under the group's own lock; groups are never
removed from the registry. The two parts of a call are separate definitions
here (`joinLookup` and `joinGroup`, and so on), so that calls can be
interleaved between them, and the call itself runs one after the other.

Clock readings are nanoseconds of the steady clock.
-/

namespace StreamForge

namespace ErrorCode

def UNKNOWN_TYPE : UInt16 := 1
def UNKNOWN_TOPIC : UInt16 := 4
def TOPIC_ALREADY_EXISTS : UInt16 := 5
def INVALID_TOPIC_NAME : UInt16 := 6
def INVALID_PARTITION : UInt16 := 7
def OFFSET_OUT_OF_RANGE : UInt16 := 8
def RECORD_TOO_LARGE : UInt16 := 9
def MALFORMED_BODY : UInt16 := 10
def CORRUPT_DATA : UInt16 := 11
def INTERNAL_ERROR : UInt16 := 12
def INVALID_ARGUMENT : UInt16 := 13
def UNKNOWN_GROUP_OR_MEMBER : UInt16 := 14
def ILLEGAL_GENERATION : UInt16 := 15
def PARTITION_NOT_ASSIGNED : UInt16 := 16

end ErrorCode

/-! ## State -/

inductive GroupState where
  | Empty
  | Stable
deriving DecidableEq

structure CoordinatorConfig where
  minSessionTimeoutMs : UInt32 := 1000
  maxSessionTimeoutMs : UInt32 := 60000
  maxMembersPerGroup : ℕ := 64
  maxGroups : ℕ := 1024

structure MemberMetadata where
  memberId : Bytes
  sessionTimeoutMs : UInt32
  lastHeartbeat : ℤ
  assignment : List TopicPartition := []

structure Group where
  groupId : Bytes
  generation : UInt32 := 0
  strategy : AssignorStrategy
  subscribedTopics : List Bytes
  state : GroupState := .Empty
  members : AList (fun _ : Bytes => MemberMetadata) := ∅

structure GroupCoordinator where
  config : CoordinatorConfig := {}
  memberCounter : UInt64 := 1
  groups : AList (fun _ : Bytes => Group) := ∅

/-- Status and wire error code of a call; code 0 is success. -/
structure CallResult where
  status : Status
  errorCode : UInt16

structure JoinResult extends CallResult where
  memberId : Bytes := []
  generation : UInt32 := 0
  heartbeatIntervalMs : UInt32 := 0
  assignment : List TopicPartition := []

structure OffsetCommitRequestEntry where
  topic : Bytes
  partition : UInt16
  offset : UInt64

structure TopicPartitionQuery where
  topic : Bytes
  partition : UInt16

structure MemberDescription where
  memberId : Bytes
  sessionTimeoutMs : UInt32
  msSinceHeartbeat : UInt32
  assignment : List TopicPartition

structure GroupDescription extends CallResult where
  groupId : Bytes := []
  generation : UInt32 := 0
  state : Bytes := []
  strategy : UInt8 := 0
  members : List MemberDescription := []

/-- What a call takes from outside: the two clocks, the random part of a member
id, and the faults of its file operations. -/
structure Env where
  systemMs : Int64 := 0
  clock : ℤ := 0
  rand : UInt16 := 0
  faults : List Faults := []

/-- `duration_cast<milliseconds>` of a steady-clock duration. -/
def toMillis (ns : ℤ) : ℤ := ns.tdiv 1000000

namespace GroupCoordinator

def groupChar (c : UInt8) : Bool := TopicManager.topicChar c

def validateGroupId (groupId : Bytes) : Bool :=
  !groupId.isEmpty && decide (groupId.length ≤ 64) && !TopicManager.isReserved groupId &&
    decide (groupId.head? ≠ some 46) && decide (groupId.getLast? ≠ some 46) &&
    groupId.all groupChar

def hexDigit (n : ℕ) : UInt8 := if n < 10 then UInt8.ofNat (48 + n) else UInt8.ofNat (87 + n)

/-- The format `%s-%08llu-%04x`. -/
def formatMemberId (groupId : Bytes) (counter : UInt64) (rand : UInt16) : Bytes :=
  let digits := toString counter.toNat
  groupId ++ ascii "-" ++ List.replicate (8 - digits.length) 48 ++ digits ++ ascii "-" ++
    [hexDigit (rand.toNat / 4096), hexDigit (rand.toNat / 256 % 16),
      hexDigit (rand.toNat / 16 % 16), hexDigit (rand.toNat % 16)]

/-! ## Rebalancing -/

def topicPartitions (mgr : TopicManager) (topics : List Bytes) : List (Bytes × UInt16) :=
  topics.filterMap fun name =>
    (mgr.getTopic name).map fun t => (name, UInt16.ofNat t.numPartitions)

def sortedMembers (g : Group) : List Bytes := g.members.keys.insertionSort (· ≤ ·)

def rebalanceUnlocked (mgr : TopicManager) (g : Group) : Group :=
  if g.members.entries.isEmpty then { g with state := .Empty }
  else
    let assignments := Assignor.assign g.strategy (sortedMembers g)
      (topicPartitions mgr g.subscribedTopics)
    { g with
      members := AssocMap.mapValues (fun id m => { m with assignment := assignments id }) g.members
      state := .Stable }

/-! ## Joining -/

def refused (errorCode : UInt16) (status : Status) : CallResult := ⟨status, errorCode⟩

def accepted : CallResult := ⟨.OK, 0⟩

def checkTopics (mgr : TopicManager) : List Bytes → Option CallResult
  | [] => none
  | t :: rest =>
    if TopicManager.isReserved t then
      some (refused ErrorCode.INVALID_TOPIC_NAME
        (.invalidArgument (ascii "Cannot subscribe to reserved topic: " ++ t)))
    else if (mgr.getTopic t).isNone then
      some (refused ErrorCode.UNKNOWN_TOPIC (.notFound (ascii "Subscribed topic not found: " ++ t)))
    else checkTopics mgr rest

/-- The checks of `join` before any lock is taken. -/
def checkJoin (c : GroupCoordinator) (mgr : TopicManager) (groupId : Bytes)
    (sessionTimeoutMs : UInt32) (topics : List Bytes) (strategy : UInt8) : Option CallResult :=
  if !validateGroupId groupId then
    some (refused ErrorCode.INVALID_ARGUMENT (.invalidArgument (ascii "Invalid group ID")))
  else if topics.isEmpty then
    some (refused ErrorCode.INVALID_ARGUMENT
      (.invalidArgument (ascii "Subscribed topics list cannot be empty")))
  else if sessionTimeoutMs < c.config.minSessionTimeoutMs ∨
      c.config.maxSessionTimeoutMs < sessionTimeoutMs then
    some (refused ErrorCode.INVALID_ARGUMENT
      (.invalidArgument (ascii "Session timeout out of bounds")))
  else if 1 < strategy then
    some (refused ErrorCode.INVALID_ARGUMENT
      (.invalidArgument (ascii "Invalid assignment strategy")))
  else checkTopics mgr topics

def strategyOf (strategy : UInt8) : AssignorStrategy :=
  if strategy = 0 then .Range else .RoundRobin

/-- The section under the registry lock: find the group or make it. -/
def joinLookup (c : GroupCoordinator) (groupId : Bytes) (topics : List Bytes)
    (strategy : AssignorStrategy) : Except CallResult GroupCoordinator :=
  match c.groups.lookup groupId with
  | some _ => .ok c
  | none =>
    if c.config.maxGroups ≤ c.groups.entries.length then
      .error (refused ErrorCode.INVALID_ARGUMENT
        (.invalidArgument (ascii "Maximum groups limit reached")))
    else .ok { c with
      groups := c.groups.insert groupId { groupId, strategy, subscribedTopics := topics } }

/-- The strategy and the topics of a group are those of the join that found it
without members; later joins must repeat them. -/
def subscribe (g : Group) (topics : List Bytes) (strategy : AssignorStrategy) :
    Except CallResult Group :=
  if g.members.entries.isEmpty then .ok { g with strategy, subscribedTopics := topics }
  else if g.strategy ≠ strategy then
    .error (refused ErrorCode.INVALID_ARGUMENT
      (.invalidArgument (ascii "Strategy mismatch for group")))
  else if g.subscribedTopics ≠ topics then
    .error (refused ErrorCode.INVALID_ARGUMENT
      (.invalidArgument (ascii "Topic subscription mismatch for group")))
  else .ok g

def notJoined (res : CallResult) : JoinResult := { toCallResult := res }

def joined (g : Group) (memberId : Bytes) (sessionTimeoutMs : UInt32) : JoinResult where
  toCallResult := accepted
  memberId
  generation := g.generation
  heartbeatIntervalMs := sessionTimeoutMs / 3
  assignment := ((g.members.lookup memberId).map MemberMetadata.assignment).getD []

/-- A new member: a fresh id, a new generation, a rebalance. -/
def addMember (c : GroupCoordinator) (mgr : TopicManager) (groupId : Bytes) (g : Group)
    (sessionTimeoutMs : UInt32) (env : Env) : JoinResult × GroupCoordinator :=
  if c.config.maxMembersPerGroup ≤ g.members.entries.length then
    (notJoined (refused ErrorCode.INVALID_ARGUMENT
        (.invalidArgument (ascii "Maximum members limit reached for group"))),
      { c with groups := c.groups.insert groupId g })
  else
    let newId := formatMemberId groupId c.memberCounter env.rand
    let member : MemberMetadata :=
      { memberId := newId, sessionTimeoutMs, lastHeartbeat := env.clock }
    let g := rebalanceUnlocked mgr { g with
      members := g.members.insert newId member
      generation := g.generation + 1 }
    (joined g newId sessionTimeoutMs,
      { c with memberCounter := c.memberCounter + 1, groups := c.groups.insert groupId g })

def refreshMember (c : GroupCoordinator) (groupId : Bytes) (g : Group) (memberId : Bytes)
    (sessionTimeoutMs : UInt32) (env : Env) : JoinResult × GroupCoordinator :=
  match g.members.lookup memberId with
  | none =>
    (notJoined (refused ErrorCode.UNKNOWN_GROUP_OR_MEMBER
        (.notFound (ascii "Unknown member ID in group"))),
      { c with groups := c.groups.insert groupId g })
  | some m =>
    let m := { m with lastHeartbeat := env.clock, sessionTimeoutMs }
    let g := { g with members := g.members.insert memberId m }
    (joined g memberId sessionTimeoutMs, { c with groups := c.groups.insert groupId g })

/-- The section under the group's lock. The group exists, since it was found
before; a group without members takes over topics and strategy even when the
join fails afterwards. -/
def joinGroup (c : GroupCoordinator) (mgr : TopicManager) (groupId memberId : Bytes)
    (sessionTimeoutMs : UInt32) (topics : List Bytes) (strategy : AssignorStrategy) (env : Env) :
    JoinResult × GroupCoordinator :=
  match c.groups.lookup groupId with
  | none => (notJoined (refused ErrorCode.INTERNAL_ERROR .OK), c)
  | some g =>
    match subscribe g topics strategy with
    | .error res => (notJoined res, c)
    | .ok g =>
      if memberId.isEmpty then c.addMember mgr groupId g sessionTimeoutMs env
      else c.refreshMember groupId g memberId sessionTimeoutMs env

def join (c : GroupCoordinator) (mgr : TopicManager) (groupId memberId : Bytes)
    (sessionTimeoutMs : UInt32) (topics : List Bytes) (strategy : UInt8) (env : Env) :
    JoinResult × GroupCoordinator :=
  match c.checkJoin mgr groupId sessionTimeoutMs topics strategy with
  | some res => (notJoined res, c)
  | none =>
    match c.joinLookup groupId topics (strategyOf strategy) with
    | .error res => (notJoined res, c)
    | .ok c => c.joinGroup mgr groupId memberId sessionTimeoutMs topics (strategyOf strategy) env

/-! ## Heartbeats, leaving, expiry -/

def heartbeat (c : GroupCoordinator) (groupId memberId : Bytes) (generation : UInt32) (env : Env) :
    CallResult × GroupCoordinator :=
  match c.groups.lookup groupId with
  | none =>
    (refused ErrorCode.UNKNOWN_GROUP_OR_MEMBER (.notFound (ascii "Unknown group")), c)
  | some g =>
    match g.members.lookup memberId with
    | none =>
      (refused ErrorCode.UNKNOWN_GROUP_OR_MEMBER (.notFound (ascii "Unknown member")), c)
    | some m =>
      if generation ≠ g.generation then
        (refused ErrorCode.ILLEGAL_GENERATION (.invalidArgument (ascii "Illegal generation")), c)
      else
        let m := { m with lastHeartbeat := env.clock }
        let g := { g with members := g.members.insert memberId m }
        (accepted, { c with groups := c.groups.insert groupId g })

def afterRemoval (mgr : TopicManager) (g : Group) : Group :=
  let g := { g with generation := g.generation + 1 }
  if g.members.entries.isEmpty then { g with state := .Empty } else rebalanceUnlocked mgr g

def leave (c : GroupCoordinator) (mgr : TopicManager) (groupId memberId : Bytes) :
    CallResult × GroupCoordinator :=
  match c.groups.lookup groupId with
  | none =>
    (refused ErrorCode.UNKNOWN_GROUP_OR_MEMBER (.notFound (ascii "Unknown group")), c)
  | some g =>
    if (g.members.lookup memberId).isNone then
      (refused ErrorCode.UNKNOWN_GROUP_OR_MEMBER (.notFound (ascii "Unknown member")), c)
    else
      let g := afterRemoval mgr { g with members := g.members.erase memberId }
      (accepted, { c with groups := c.groups.insert groupId g })

def isExpired (now : ℤ) (m : MemberMetadata) : Bool :=
  decide ((m.sessionTimeoutMs.toNat : ℤ) < toMillis (now - m.lastHeartbeat))

def expiredIds (now : ℤ) (g : Group) : List Bytes :=
  (g.members.entries.filter fun e => isExpired now e.2).map Sigma.fst

/-- The section of `expire_members` for one group. -/
def expireGroup (mgr : TopicManager) (now : ℤ) (g : Group) : ℕ × Group :=
  let ids := expiredIds now g
  if ids.isEmpty then (0, g)
  else (ids.length,
    afterRemoval mgr { g with members := ids.foldl (fun ms id => ms.erase id) g.members })

def expireLoop (mgr : TopicManager) (now : ℤ) : List Bytes → GroupCoordinator → ℕ × GroupCoordinator
  | [], c => (0, c)
  | id :: rest, c =>
    match c.groups.lookup id with
    | none => expireLoop mgr now rest c
    | some g =>
      let (n, g) := expireGroup mgr now g
      let (total, c) := expireLoop mgr now rest { c with groups := c.groups.insert id g }
      (n + total, c)

def expireMembers (c : GroupCoordinator) (mgr : TopicManager) (env : Env) : ℕ × GroupCoordinator :=
  expireLoop mgr env.clock c.groups.keys c

/-! ## Committing -/

def checkEntries (mgr : TopicManager) : List OffsetCommitRequestEntry → Option CallResult
  | [] => none
  | entry :: rest =>
    if TopicManager.isReserved entry.topic then
      some (refused ErrorCode.INVALID_TOPIC_NAME
        (.invalidArgument (ascii "Cannot commit offsets for reserved topic: " ++ entry.topic)))
    else
      match mgr.getTopic entry.topic with
      | none => some (refused ErrorCode.UNKNOWN_TOPIC
          (.notFound (ascii "Topic not found: " ++ entry.topic)))
      | some t =>
        match t.getPartition entry.partition.toNat with
        | none => some (refused ErrorCode.INVALID_PARTITION
            (.invalidArgument (ascii "Invalid partition: " ++ toString entry.partition.toNat)))
        | some _ => checkEntries mgr rest

def isStandalone (memberId : Bytes) (generation : UInt32) : Bool :=
  memberId.isEmpty && generation == 0xFFFFFFFF

def checkAssigned (m : MemberMetadata) (memberId : Bytes)
    (entries : List OffsetCommitRequestEntry) : Option CallResult :=
  match entries.find? fun e => !m.assignment.contains ⟨e.topic, e.partition⟩ with
  | none => none
  | some e => some (refused ErrorCode.PARTITION_NOT_ASSIGNED
      (.invalidArgument (ascii "Partition " ++ e.topic ++ ascii ":" ++ toString e.partition.toNat ++
        ascii " is not assigned to member " ++ memberId)))

/-- May this caller commit for the group that the lookup found? -/
def checkCaller (group : Option Group) (groupId memberId : Bytes) (generation : UInt32)
    (entries : List OffsetCommitRequestEntry) : Option CallResult :=
  if isStandalone memberId generation then
    match group with
    | none => none
    | some g =>
      if g.members.entries.isEmpty then none
      else some (refused ErrorCode.ILLEGAL_GENERATION
        (.invalidArgument (ascii "Standalone commit rejected: group has active members")))
  else
    match group with
    | none => some (refused ErrorCode.UNKNOWN_GROUP_OR_MEMBER
        (.notFound (ascii "Unknown group: " ++ groupId)))
    | some g =>
      match g.members.lookup memberId with
      | none => some (refused ErrorCode.UNKNOWN_GROUP_OR_MEMBER
          (.notFound (ascii "Unknown member: " ++ memberId)))
      | some m =>
        if generation ≠ g.generation then
          some (refused ErrorCode.ILLEGAL_GENERATION
            (.invalidArgument (ascii "Illegal generation (expected " ++
              toString g.generation.toNat ++ ascii ", got " ++ toString generation.toNat ++
              ascii ")")))
        else checkAssigned m memberId entries

def highWatermark (mgr : TopicManager) (topic : Bytes) (partition : UInt16) : UInt64 :=
  (((mgr.getTopic topic).bind fun t => t.getPartition partition.toNat).map
    Partition.nextOffset).getD 0

def checkOffsets (mgr : TopicManager) : List OffsetCommitRequestEntry → Option CallResult
  | [] => none
  | entry :: rest =>
    let hw := highWatermark mgr entry.topic entry.partition
    if hw < entry.offset then
      some (refused ErrorCode.OFFSET_OUT_OF_RANGE
        (.offsetOutOfRange (ascii "Commit offset (" ++ toString entry.offset.toNat ++
          ascii ") exceeds high watermark (" ++ toString hw.toNat ++ ascii ")")))
    else checkOffsets mgr rest

def itemsOf (entries : List OffsetCommitRequestEntry) (env : Env) : List OffsetCommitItem :=
  entries.map fun e =>
    ⟨e.topic, e.partition, e.offset, Int64.ofInt (toMillis env.clock)⟩

/-- The check-and-persist section, with the group that the lookup found. -/
def commitSection (store : OffsetStore) (mgr : TopicManager) (group : Option Group)
    (groupId memberId : Bytes) (generation : UInt32) (entries : List OffsetCommitRequestEntry)
    (env : Env) : CallResult × OffsetStore × TopicManager :=
  match checkCaller group groupId memberId generation entries with
  | some res => (res, store, mgr)
  | none =>
    match checkOffsets mgr entries with
    | some res => (res, store, mgr)
    | none =>
      match store.commitTo groupId (itemsOf entries env) mgr env.systemMs env.faults with
      | (st, store, mgr) =>
        (if st.ok then accepted else refused ErrorCode.INTERNAL_ERROR st, store, mgr)

def commit (c : GroupCoordinator) (store : OffsetStore) (mgr : TopicManager)
    (groupId memberId : Bytes) (generation : UInt32) (entries : List OffsetCommitRequestEntry)
    (env : Env) : CallResult × OffsetStore × TopicManager :=
  match checkEntries mgr entries with
  | some res => (res, store, mgr)
  | none => commitSection store mgr (c.groups.lookup groupId) groupId memberId generation
      entries env

/-! ## Queries -/

def fetchOffsets (store : OffsetStore) (groupId : Bytes) (queries : List TopicPartitionQuery) :
    List Int64 :=
  queries.map fun q => store.get groupId q.topic q.partition

def describe (c : GroupCoordinator) (groupId : Bytes) (env : Env) : GroupDescription :=
  match c.groups.lookup groupId with
  | none => ⟨refused ErrorCode.UNKNOWN_GROUP_OR_MEMBER
      (.notFound (ascii "Unknown group: " ++ groupId)), [], 0, [], 0, []⟩
  | some g => {
      toCallResult := accepted
      groupId := g.groupId
      generation := g.generation
      state := ascii (if g.state = .Empty then "Empty" else "Stable")
      strategy := if g.strategy = .Range then 0 else 1
      members := g.members.entries.map fun e => {
        memberId := e.1
        sessionTimeoutMs := e.2.sessionTimeoutMs
        msSinceHeartbeat := UInt32.ofNat (toMillis (env.clock - e.2.lastHeartbeat)).toNat
        assignment := e.2.assignment } }

def assignedEntries (g : Group) : List TopicPartition :=
  g.members.entries.flatMap fun e => e.2.assignment

def debugCheckInvariants (c : GroupCoordinator) (mgr : TopicManager) (groupId : Bytes) : Bool :=
  match c.groups.lookup groupId with
  | none => true
  | some g =>
    if g.members.entries.isEmpty then g.state == .Empty
    else
      (g.subscribedTopics.all fun name =>
        match mgr.getTopic name with
        | none => false
        | some t => (List.range t.numPartitions).all fun p =>
          (assignedEntries g).count ⟨name, UInt16.ofNat p⟩ == 1) &&
      (assignedEntries g).all fun tp =>
        match mgr.getTopic tp.topic with
        | none => false
        | some t => decide (tp.partition.toNat < t.numPartitions)

/-! ## What a join does -/

section Join

variable {c c' : GroupCoordinator} {g g' : Group} {groupId : Bytes} {topics : List Bytes}
  {strategy : AssignorStrategy}

theorem subscribe_cases (h : subscribe g topics strategy = .ok g') :
    (g.members.entries = [] ∧ g' = { g with strategy, subscribedTopics := topics }) ∨
      g.members.entries ≠ [] ∧ g.strategy = strategy ∧ g.subscribedTopics = topics ∧ g' = g := by
  unfold subscribe at h
  split at h
  · rename_i hempty
    cases h
    exact .inl ⟨List.isEmpty_iff.mp hempty, rfl⟩
  rename_i hempty
  split at h
  · cases h
  rename_i hstrategy
  split at h
  · cases h
  rename_i htopics
  cases h
  exact .inr ⟨fun hnil => hempty (List.isEmpty_iff.mpr hnil), not_not.mp hstrategy,
    not_not.mp htopics, rfl⟩

theorem joinLookup_cases (h : c.joinLookup groupId topics strategy = .ok c') : c' = c ∨
    c.groups.lookup groupId = none ∧ c.groups.entries.length < c.config.maxGroups ∧ c' = { c with
      groups := c.groups.insert groupId { groupId, strategy, subscribedTopics := topics } } := by
  unfold joinLookup at h
  split at h
  · cases h
    exact .inl rfl
  rename_i hnone
  split at h
  · cases h
  rename_i hroom
  cases h
  exact .inr ⟨hnone, not_le.mp hroom, rfl⟩

theorem subscribe_errorCode {res : CallResult} (h : subscribe g topics strategy = .error res) :
    res.errorCode ≠ 0 := by
  unfold subscribe at h
  split at h
  · cases h
  split at h
  · cases h
    decide
  split at h
  · cases h
    decide
  · cases h

end Join

section JoinOutcome

variable (c : GroupCoordinator) (mgr : TopicManager) (groupId memberId : Bytes)
  (sessionTimeoutMs : UInt32) (topics : List Bytes) (strategy : AssignorStrategy) (env : Env)

/-- **What the last section of a join does.** It is refused, before or after the topics are
taken over; or a member is added, or one that is there is refreshed. -/
inductive JoinOutcome : JoinResult × GroupCoordinator → Prop where
  | refused {res : CallResult} (h : res.errorCode ≠ 0) : JoinOutcome (notJoined res, c)
  | subscribed {g g' : Group} {res : CallResult} (hg : c.groups.lookup groupId = some g)
      (hsub : subscribe g topics strategy = .ok g') (h : res.errorCode ≠ 0) :
      JoinOutcome (notJoined res, { c with groups := c.groups.insert groupId g' })
  | added {g g' g₁ : Group} {newId : Bytes} (hnew : memberId = [])
      (hg : c.groups.lookup groupId = some g) (hsub : subscribe g topics strategy = .ok g')
      (hroom : g'.members.entries.length < c.config.maxMembersPerGroup)
      (hid : newId = formatMemberId groupId c.memberCounter env.rand)
      (hg₁ : g₁ = rebalanceUnlocked mgr { g' with
        members := g'.members.insert newId ⟨newId, sessionTimeoutMs, env.clock, []⟩
        generation := g'.generation + 1 }) :
      JoinOutcome (joined g₁ newId sessionTimeoutMs,
        { c with memberCounter := c.memberCounter + 1, groups := c.groups.insert groupId g₁ })
  | refreshed {g g₁ : Group} {m : MemberMetadata} (hold : memberId ≠ [])
      (hg : c.groups.lookup groupId = some g) (hm : g.members.lookup memberId = some m)
      (hg₁ : g₁ = { g with
        members := g.members.insert memberId
          { m with lastHeartbeat := env.clock, sessionTimeoutMs } }) :
      JoinOutcome (joined g₁ memberId sessionTimeoutMs,
        { c with groups := c.groups.insert groupId g₁ })

theorem joinOutcome : JoinOutcome c mgr groupId memberId sessionTimeoutMs topics strategy env
    (c.joinGroup mgr groupId memberId sessionTimeoutMs topics strategy env) := by
  unfold joinGroup
  cases hg : c.groups.lookup groupId with
  | none => exact .refused (by decide)
  | some g =>
    simp only
    cases hsub : subscribe g topics strategy with
    | error res => exact .refused (subscribe_errorCode hsub)
    | ok g' =>
      simp only
      split
      · rename_i hnew
        unfold addMember
        split
        · refine .subscribed hg hsub ?_
          decide
        · rename_i hroom
          exact .added (List.isEmpty_iff.mp hnew) hg hsub (not_le.mp hroom) rfl rfl
      · rename_i hold
        unfold refreshMember
        cases hm : g'.members.lookup memberId with
        | none =>
          refine .subscribed hg hsub ?_
          decide
        | some m =>
          -- only a group with members is left as it is
          obtain ⟨hnil, rfl⟩ | ⟨-, -, -, rfl⟩ := subscribe_cases hsub
          · exact absurd hnil (AssocMap.ne_nil_of_lookup hm)
          · exact .refreshed (fun hnil => hold (List.isEmpty_iff.mpr hnil)) hg hm rfl

end JoinOutcome

end GroupCoordinator

end StreamForge
