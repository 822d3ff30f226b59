import StreamForge.Broker.GroupCoordinator
import StreamForge.Broker.WireFormat

/-!
# The request handler

`MessageHandler::handle_request` on the state of the broker: the topic manager
with its data directory, the offset store and the group coordinator. Every
handler decodes its body, makes its own checks and answers with one frame.
-/

namespace StreamForge

open FileTrace BodyWriter

/-- `hasCoordinator` says that the handler was given one. -/
structure Broker where
  manager : TopicManager
  store : OffsetStore
  coordinator : GroupCoordinator
  hasCoordinator : Bool := true

namespace MessageHandler

def mapStatusToErrorCode (status : Status) : UInt16 :=
  match status.code with
  | .NotFound => ErrorCode.UNKNOWN_TOPIC
  | .AlreadyExists => ErrorCode.TOPIC_ALREADY_EXISTS
  | .InvalidArgument => ErrorCode.INVALID_ARGUMENT
  | .Corrupt => ErrorCode.CORRUPT_DATA
  | .OffsetOutOfRange => ErrorCode.OFFSET_OUT_OF_RANGE
  | .RecordTooLarge => ErrorCode.RECORD_TOO_LARGE
  | .IoError => ErrorCode.INTERNAL_ERROR
  | .OK => ErrorCode.INTERNAL_ERROR

def statusFrame (requestId : UInt32) (status : Status) : Frame :=
  createErrorFrame requestId (mapStatusToErrorCode status) status.message

def reservedFrame (requestId : UInt32) : Frame :=
  createErrorFrame requestId ErrorCode.INVALID_TOPIC_NAME
    (ascii "Topic name starting with '__' is reserved")

def unknownTopicFrame (requestId : UInt32) (topic : Bytes) : Frame :=
  createErrorFrame requestId ErrorCode.UNKNOWN_TOPIC
    (ascii "Topic '" ++ topic ++ ascii "' not found")

def malformedFrame (requestId : UInt32) (name : String) : Frame :=
  createErrorFrame requestId ErrorCode.MALFORMED_BODY
    (ascii "Malformed " ++ ascii name ++ ascii " body")

def decodeBody {α : Type} (decode : BodyReader α) (body : Bytes) : Option α :=
  (decode.run body).map Prod.fst

theorem decodeBody_eq_some {α : Type} {decode : BodyReader α} {P : α → Prop} {encode : α → Bytes}
    (h : Exact decode P encode) {body : Bytes} {m : α} :
    decodeBody decode body = some m ↔ P m ∧ body = encode m := by
  rw [decodeBody, Option.map_eq_some_iff]
  constructor
  · rintro ⟨⟨_, rest⟩, hrun, rfl⟩
    obtain ⟨hP, hbody, -⟩ := (h _ _ _).mp hrun
    exact ⟨hP, hbody⟩
  · rintro ⟨hP, hbody⟩
    exact ⟨(m, []), (h _ _ _).mpr ⟨hP, hbody, rfl⟩, rfl⟩

/-! ## Topics -/

def handleCreateTopic (b : Broker) (req : Frame) (env : Env) : Frame × Broker :=
  match decodeBody CreateTopicRequest.decode req.body with
  | none => (malformedFrame req.requestId "CREATE_TOPIC", b)
  | some msg =>
    if msg.partitions = 0 then
      (createErrorFrame req.requestId ErrorCode.INVALID_ARGUMENT
        (ascii "Partitions count must be > 0"), b)
    else if TopicManager.isReserved msg.topic then (reservedFrame req.requestId, b)
    else
      match TopicManager.validateTopicName msg.topic with
      | some err => (createErrorFrame req.requestId ErrorCode.INVALID_TOPIC_NAME
          (ascii "Invalid topic name: " ++ err), b)
      | none =>
        let retentionMs := if msg.hasRetention then msg.retentionMs else 0
        let retentionBytes := if msg.hasRetention then msg.retentionBytes else 0
        match b.manager.createTopic msg.topic msg.partitions.toNat retentionMs retentionBytes
            env.systemMs with
        | (.error st, manager) => (statusFrame req.requestId st, { b with manager })
        | (.ok _, manager) =>
          (makeFrame MessageType.CREATE_TOPIC_OK req.requestId [], { b with manager })

def handleProduce (b : Broker) (req : Frame) (env : Env) : Frame × Broker :=
  match decodeBody ProduceRequest.decode req.body with
  | none => (malformedFrame req.requestId "PRODUCE", b)
  | some msg =>
    if TopicManager.isReserved msg.topic then (reservedFrame req.requestId, b)
    else if msg.records.isEmpty then
      (createErrorFrame req.requestId ErrorCode.INVALID_ARGUMENT
        (ascii "PRODUCE batch cannot be empty"), b)
    else
      match b.manager.getTopic msg.topic with
      | none => (unknownTopicFrame req.requestId msg.topic, b)
      | some topic =>
        match topic.produceBatch msg.partition msg.records env.systemMs env.faults
            (b.manager.partDirs msg.topic) with
        | (res, chosen, topic, dirs) =>
          let b := { b with manager := b.manager.setTopic msg.topic topic dirs }
          match res with
          | .error st => (statusFrame req.requestId st, b)
          | .ok baseOffset =>
            let resp : ProduceResponse :=
              ⟨UInt16.ofNat chosen, baseOffset, countOf msg.records⟩
            (makeFrame MessageType.PRODUCE_OK req.requestId resp.encode, b)

def fetchResponse (msg : FetchRequest) (hw earliest : UInt64) (records : List Record) :
    FetchResponse where
  nextOffset := match records.getLast? with
    | none => msg.startOffset
    | some r => r.offset + 1
  highWatermark := hw
  earliestOffset := earliest
  recordCount := countOf records
  records := records

def fetchFrom (req : Frame) (msg : FetchRequest) (part : Partition) (fs : FileSystem) : Frame :=
  let hw := part.nextOffset
  let earliest := part.earliestOffset
  if msg.startOffset = hw then
    makeFrame MessageType.FETCH_OK req.requestId (FetchResponse.encode ⟨hw, hw, earliest, 0, []⟩)
  else if hw < msg.startOffset ∨ msg.startOffset < earliest then
    createErrorFrame req.requestId ErrorCode.OFFSET_OUT_OF_RANGE
      (ascii "Start offset " ++ toString msg.startOffset.toNat ++
        ascii " out of valid range [" ++ toString earliest.toNat ++ ascii ", " ++
        toString hw.toNat ++ ascii ")")
  else
    let clampedMaxBytes := min msg.maxBytes.toNat 1048500
    let rr := part.read fs msg.startOffset msg.maxMessages.toNat clampedMaxBytes
    if !rr.status.ok then statusFrame req.requestId rr.status
    else
      makeFrame MessageType.FETCH_OK req.requestId (fetchResponse msg hw earliest rr.records).encode

def handleFetch (b : Broker) (req : Frame) : Frame :=
  match decodeBody FetchRequest.decode req.body with
  | none => malformedFrame req.requestId "FETCH"
  | some msg =>
    if TopicManager.isReserved msg.topic then reservedFrame req.requestId
    else if msg.maxBytes = 0 ∨ msg.maxMessages = 0 then
      createErrorFrame req.requestId ErrorCode.INVALID_ARGUMENT
        (ascii "max_bytes and max_messages must be > 0")
    else
      match b.manager.getTopic msg.topic with
      | none => unknownTopicFrame req.requestId msg.topic
      | some topic =>
        match topic.getPartition msg.partition.toNat with
        | none => createErrorFrame req.requestId ErrorCode.INVALID_PARTITION
            (ascii "Partition " ++ toString msg.partition.toNat ++ ascii " out of range")
        | some part => fetchFrom req msg part
            (Fs.start (b.manager.partDirs msg.topic msg.partition.toNat))

def listTopicsResponse (b : Broker) : ListTopicsResponse :=
  let topics := (b.manager.listTopics.filter fun t => !TopicManager.isReserved t.name).map
    fun t => ⟨t.name, UInt16.ofNat t.numPartitions⟩
  { count := countOf topics, topics }

def handleListTopics (b : Broker) (req : Frame) : Frame :=
  match decodeBody ListTopicsRequest.decode req.body with
  | none => malformedFrame req.requestId "LIST_TOPICS"
  | some _ => makeFrame MessageType.TOPICS req.requestId (listTopicsResponse b).encode

def describeTopicResponse (t : Topic) : DescribeTopicResponse where
  name := t.name
  partitions := UInt16.ofNat t.numPartitions
  partitionOffsets := t.partitions.map fun p =>
    ⟨p.earliestOffset, p.nextOffset, UInt32.ofNat p.segments.length⟩
  retentionMs := t.retentionMs
  retentionBytes := t.retentionBytes
  degraded := if t.isDegraded then 1 else 0

def handleDescribeTopic (b : Broker) (req : Frame) : Frame :=
  match decodeBody DescribeTopicRequest.decode req.body with
  | none => malformedFrame req.requestId "DESCRIBE_TOPIC"
  | some msg =>
    if TopicManager.isReserved msg.topic then reservedFrame req.requestId
    else
      match b.manager.getTopic msg.topic with
      | none => unknownTopicFrame req.requestId msg.topic
      | some t => makeFrame MessageType.TOPIC_DESCRIPTION req.requestId
          (describeTopicResponse t).encode

/-! ## Groups -/

def callFrame (requestId : UInt32) (res : CallResult) : Frame :=
  createErrorFrame requestId res.errorCode res.status.message

def assignmentWire (assignment : List TopicPartition) : List TopicPartitionWire :=
  assignment.map fun tp => ⟨tp.topic, tp.partition⟩

def joinGroupResponse (res : JoinResult) : JoinGroupResponse where
  memberId := res.memberId
  generation := res.generation
  heartbeatIntervalMs := res.heartbeatIntervalMs
  count := countOf res.assignment
  assignments := assignmentWire res.assignment

def handleJoinGroup (b : Broker) (req : Frame) (env : Env) : Frame × Broker :=
  match decodeBody JoinGroupRequest.decode req.body with
  | none => (malformedFrame req.requestId "JOIN_GROUP", b)
  | some msg =>
    match b.coordinator.join b.manager msg.groupId msg.memberId msg.sessionTimeoutMs msg.topics
        msg.strategy env with
    | (res, coordinator) =>
      let b := { b with coordinator }
      if res.errorCode ≠ 0 then (callFrame req.requestId res.toCallResult, b)
      else (makeFrame MessageType.JOIN_GROUP_OK req.requestId (joinGroupResponse res).encode, b)

def handleHeartbeat (b : Broker) (req : Frame) (env : Env) : Frame × Broker :=
  match decodeBody HeartbeatRequest.decode req.body with
  | none => (malformedFrame req.requestId "HEARTBEAT", b)
  | some msg =>
    match b.coordinator.heartbeat msg.groupId msg.memberId msg.generation env with
    | (res, coordinator) =>
      let b := { b with coordinator }
      if res.errorCode ≠ 0 then (callFrame req.requestId res, b)
      else (makeFrame MessageType.HEARTBEAT_OK req.requestId [], b)

def handleLeaveGroup (b : Broker) (req : Frame) : Frame × Broker :=
  match decodeBody LeaveGroupRequest.decode req.body with
  | none => (malformedFrame req.requestId "LEAVE_GROUP", b)
  | some msg =>
    match b.coordinator.leave b.manager msg.groupId msg.memberId with
    | (res, coordinator) =>
      let b := { b with coordinator }
      if res.errorCode ≠ 0 then (callFrame req.requestId res, b)
      else (makeFrame MessageType.LEAVE_GROUP_OK req.requestId [], b)

def handleCommitOffset (b : Broker) (req : Frame) (env : Env) : Frame × Broker :=
  match decodeBody CommitOffsetRequest.decode req.body with
  | none => (malformedFrame req.requestId "COMMIT_OFFSET", b)
  | some msg =>
    match b.coordinator.commit b.store b.manager msg.groupId msg.memberId msg.generation
        (msg.entries.map fun e => ⟨e.topic, e.partition, e.offset⟩) env with
    | (res, store, manager) =>
      let b := { b with store, manager }
      if res.errorCode ≠ 0 then (callFrame req.requestId res, b)
      else (makeFrame MessageType.COMMIT_OK req.requestId [], b)

def fetchOffsetResponse (store : OffsetStore) (msg : FetchOffsetRequest) : FetchOffsetResponse :=
  let queries : List TopicPartitionQuery := msg.queries.map fun q => ⟨q.topic, q.partition⟩
  let offsets := GroupCoordinator.fetchOffsets store msg.groupId queries
  { count := countOf queries
    offsets := (queries.zip offsets).map fun (q, o) => ⟨q.topic, q.partition, o⟩ }

def handleFetchOffset (b : Broker) (req : Frame) : Frame :=
  match decodeBody FetchOffsetRequest.decode req.body with
  | none => malformedFrame req.requestId "FETCH_OFFSET"
  | some msg =>
    makeFrame MessageType.OFFSETS req.requestId (fetchOffsetResponse b.store msg).encode

def describeGroupResponse (desc : GroupDescription) : DescribeGroupResponse where
  groupId := desc.groupId
  generation := desc.generation
  state := desc.state
  strategy := desc.strategy
  memberCount := countOf desc.members
  members := desc.members.map fun m =>
    ⟨m.memberId, m.sessionTimeoutMs, m.msSinceHeartbeat, countOf m.assignment,
      assignmentWire m.assignment⟩

def handleDescribeGroup (b : Broker) (req : Frame) (env : Env) : Frame :=
  match decodeBody DescribeGroupRequest.decode req.body with
  | none => malformedFrame req.requestId "DESCRIBE_GROUP"
  | some msg =>
    let desc := b.coordinator.describe msg.groupId env
    if desc.errorCode ≠ 0 then callFrame req.requestId desc.toCallResult
    else
      makeFrame MessageType.GROUP_DESCRIPTION req.requestId (describeGroupResponse desc).encode

def withCoordinator (b : Broker) (req : Frame) (handle : Unit → Frame × Broker) : Frame × Broker :=
  if b.hasCoordinator then handle ()
  else (createErrorFrame req.requestId ErrorCode.INTERNAL_ERROR
    (ascii "Coordinator unavailable"), b)

def handleRequest (b : Broker) (req : Frame) (env : Env) : Frame × Broker :=
  if req.type = MessageType.PING then (makeFrame MessageType.PONG req.requestId [], b)
  else if req.type = MessageType.ECHO then
    (makeFrame MessageType.ECHO_REPLY req.requestId req.body, b)
  else if req.type = MessageType.CREATE_TOPIC then handleCreateTopic b req env
  else if req.type = MessageType.PRODUCE then handleProduce b req env
  else if req.type = MessageType.FETCH then (handleFetch b req, b)
  else if req.type = MessageType.LIST_TOPICS then (handleListTopics b req, b)
  else if req.type = MessageType.DESCRIBE_TOPIC then (handleDescribeTopic b req, b)
  else if req.type = MessageType.JOIN_GROUP then
    withCoordinator b req fun _ => handleJoinGroup b req env
  else if req.type = MessageType.HEARTBEAT then
    withCoordinator b req fun _ => handleHeartbeat b req env
  else if req.type = MessageType.LEAVE_GROUP then
    withCoordinator b req fun _ => handleLeaveGroup b req
  else if req.type = MessageType.COMMIT_OFFSET then
    withCoordinator b req fun _ => handleCommitOffset b req env
  else if req.type = MessageType.FETCH_OFFSET then
    withCoordinator b req fun _ => (handleFetchOffset b req, b)
  else if req.type = MessageType.DESCRIBE_GROUP then
    withCoordinator b req fun _ => (handleDescribeGroup b req env, b)
  else (createErrorFrame req.requestId ErrorCode.UNKNOWN_TYPE
    (ascii "Unknown message type: 0x" ++ toString req.type.toNat), b)

end MessageHandler

theorem ProduceRequest.lengths_of_decode {body : Bytes} {msg : ProduceRequest}
    (h : MessageHandler.decodeBody ProduceRequest.decode body = some msg) :
    msg.records.length < 65536 ∧ ∀ item ∈ msg.records,
      item.1.length ≤ maxFrameLength ∧ item.2.length ≤ maxFrameLength := by
  obtain ⟨⟨-, hcount, hall⟩, -⟩ := (MessageHandler.decodeBody_eq_some exact_decode).mp h
  exact ⟨hcount ▸ msg.recordCount.toNat_lt, hall⟩

theorem CommitOffsetRequest.lengths_of_decode {body : Bytes} {msg : CommitOffsetRequest}
    (h : MessageHandler.decodeBody CommitOffsetRequest.decode body = some msg) :
    msg.groupId.length < 65536 ∧ ∀ entry ∈ msg.entries, entry.topic.length < 65536 := by
  obtain ⟨⟨hgroup, -, -, hall⟩, -⟩ := (MessageHandler.decodeBody_eq_some exact_decode).mp h
  exact ⟨Nat.lt_succ_of_le hgroup, fun entry hentry => Nat.lt_succ_of_le (hall entry hentry)⟩

end StreamForge
