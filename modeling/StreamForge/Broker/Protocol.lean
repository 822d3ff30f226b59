import StreamForge.Foundation.ByteReader
import StreamForge.Storage.RecordCodec

/-!
# The wire protocol

`BodyReader`, `BodyWriter` and the message structs, each with its `encode` and
its `decode`. The fields are read in the order of the source, with its checks
between them, into a fresh struct.
-/

namespace StreamForge

open BigEndian ByteReader

def maxFrameLength : ℕ := 1024 * 1024

/-! ## Reading -/

/-- What a `decode` does with its `BodyReader`: `Reader.exec` is the class
itself, on `m_data`, `m_size` and `m_cursor`, and `Reader.run` the same on the
bytes behind the cursor. -/
abbrev BodyReader := Reader

namespace BodyReader

def remaining : BodyReader ℕ := Reader.left

def take (n : ℕ) : BodyReader Bytes := Reader.bytes n

def require (cond : Bool) : BodyReader Unit := Reader.guarded cond

def requireEmpty : BodyReader Unit := Reader.atEnd

def readU8 : BodyReader UInt8 := return UInt8.ofNat (ofBE (← take 1))
def readU16 : BodyReader UInt16 := return UInt16.ofNat (ofBE (← take 2))
def readU32 : BodyReader UInt32 := return UInt32.ofNat (ofBE (← take 4))
def readI32 : BodyReader Int32 := return (← readU32).toInt32
def readU64 : BodyReader UInt64 := return UInt64.ofNat (ofBE (← take 8))
def readI64 : BodyReader Int64 := return (← readU64).toInt64

def readString : BodyReader Bytes := do
  let len ← readU16
  take len.toNat

def readBytes : BodyReader Bytes := do
  let len ← readU32
  require (decide (len.toNat ≤ maxFrameLength))
  take len.toNat

def repeated {α : Type} (n : ℕ) (read : BodyReader α) : BodyReader (List α) :=
  Reader.repeated n read

end BodyReader

/-! ## Writing -/

namespace BodyWriter

def writeU8 (v : UInt8) : Bytes := toBE 1 v.toNat
def writeU16 (v : UInt16) : Bytes := toBE 2 v.toNat
def writeU32 (v : UInt32) : Bytes := toBE 4 v.toNat
def writeI32 (v : Int32) : Bytes := writeU32 v.toUInt32
def writeU64 (v : UInt64) : Bytes := toBE 8 v.toNat
def writeI64 (v : Int64) : Bytes := writeU64 v.toUInt64

/-- The length is cut to 16 bits, the bytes are not. -/
def writeString (s : Bytes) : Bytes := writeU16 (UInt16.ofNat s.length) ++ s
def writeBytes (bs : Bytes) : Bytes := writeU32 (UInt32.ofNat bs.length) ++ bs

end BodyWriter

open BodyReader BodyWriter

/-! ## Requests

`encode` writes the size of a list, cut to 16 bits, and not the count field
that `decode` fills in.
-/

/-- `static_cast<uint16_t>` of the size of a list. -/
def countOf {α : Type} (xs : List α) : UInt16 := UInt16.ofNat xs.length

structure CreateTopicRequest where
  topic : Bytes
  partitions : UInt16
  retentionMs : UInt64 := 0
  retentionBytes : UInt64 := 0
  hasRetention : Bool := false
  deriving DecidableEq

def CreateTopicRequest.decode : BodyReader CreateTopicRequest := do
  let topic ← readString
  let partitions ← readU16
  if 0 < (← remaining) then
    let retentionMs ← BodyReader.readU64
    let retentionBytes ← BodyReader.readU64
    requireEmpty
    return ⟨topic, partitions, retentionMs, retentionBytes, true⟩
  else
    requireEmpty
    return ⟨topic, partitions, 0, 0, false⟩

def CreateTopicRequest.encode (m : CreateTopicRequest) : Bytes :=
  writeString m.topic ++ writeU16 m.partitions ++
    if m.hasRetention then
      BodyWriter.writeU64 m.retentionMs ++ BodyWriter.writeU64 m.retentionBytes
    else []

structure ProduceRequest where
  topic : Bytes
  partition : Int32
  recordCount : UInt16
  records : List (Bytes × Bytes)
  deriving DecidableEq

/-- `ProduceRecordPayload`: the key and the value. -/
def ProduceRequest.readRecord : BodyReader (Bytes × Bytes) := do
  let key ← readBytes
  let value ← readBytes
  return (key, value)

def ProduceRequest.encodeRecord (rec : Bytes × Bytes) : Bytes :=
  writeBytes rec.1 ++ writeBytes rec.2

def ProduceRequest.decode : BodyReader ProduceRequest := do
  let topic ← readString
  let partition ← readI32
  let recordCount ← readU16
  let records ← repeated recordCount.toNat readRecord
  requireEmpty
  return ⟨topic, partition, recordCount, records⟩

def ProduceRequest.encode (m : ProduceRequest) : Bytes :=
  writeString m.topic ++ writeI32 m.partition ++ writeU16 (countOf m.records) ++
    m.records.flatMap encodeRecord

structure FetchRequest where
  topic : Bytes
  partition : UInt16
  startOffset : UInt64
  maxBytes : UInt32
  maxMessages : UInt32
  deriving DecidableEq

def FetchRequest.decode : BodyReader FetchRequest := do
  let topic ← readString
  let partition ← readU16
  let startOffset ← BodyReader.readU64
  let maxBytes ← BodyReader.readU32
  let maxMessages ← BodyReader.readU32
  requireEmpty
  return ⟨topic, partition, startOffset, maxBytes, maxMessages⟩

def FetchRequest.encode (m : FetchRequest) : Bytes :=
  writeString m.topic ++ writeU16 m.partition ++ BodyWriter.writeU64 m.startOffset ++
    BodyWriter.writeU32 m.maxBytes ++ BodyWriter.writeU32 m.maxMessages

structure ListTopicsRequest where
  deriving DecidableEq

/-- The `decode` of a struct without fields. -/
def decodeEmpty {α : Type} (m : α) : BodyReader α := do
  requireEmpty
  return m

def ListTopicsRequest.decode : BodyReader ListTopicsRequest := decodeEmpty {}
def ListTopicsRequest.encode (_ : ListTopicsRequest) : Bytes := []

structure DescribeTopicRequest where
  topic : Bytes
  deriving DecidableEq

def DescribeTopicRequest.decode : BodyReader DescribeTopicRequest := do
  let topic ← readString
  requireEmpty
  return ⟨topic⟩

def DescribeTopicRequest.encode (m : DescribeTopicRequest) : Bytes := writeString m.topic

structure JoinGroupRequest where
  groupId : Bytes
  memberId : Bytes
  sessionTimeoutMs : UInt32
  strategy : UInt8
  topicCount : UInt16
  topics : List Bytes
  deriving DecidableEq

def JoinGroupRequest.decode : BodyReader JoinGroupRequest := do
  let groupId ← readString
  let memberId ← readString
  let sessionTimeoutMs ← BodyReader.readU32
  let strategy ← readU8
  let topicCount ← readU16
  require (decide (topicCount.toNat * 2 ≤ (← remaining)))
  let topics ← repeated topicCount.toNat readString
  requireEmpty
  return ⟨groupId, memberId, sessionTimeoutMs, strategy, topicCount, topics⟩

def JoinGroupRequest.encode (m : JoinGroupRequest) : Bytes :=
  writeString m.groupId ++ writeString m.memberId ++ BodyWriter.writeU32 m.sessionTimeoutMs ++
    writeU8 m.strategy ++ writeU16 (countOf m.topics) ++ m.topics.flatMap writeString

structure HeartbeatRequest where
  groupId : Bytes
  memberId : Bytes
  generation : UInt32
  deriving DecidableEq

def HeartbeatRequest.decode : BodyReader HeartbeatRequest := do
  let groupId ← readString
  let memberId ← readString
  let generation ← BodyReader.readU32
  requireEmpty
  return ⟨groupId, memberId, generation⟩

def HeartbeatRequest.encode (m : HeartbeatRequest) : Bytes :=
  writeString m.groupId ++ writeString m.memberId ++ BodyWriter.writeU32 m.generation

structure LeaveGroupRequest where
  groupId : Bytes
  memberId : Bytes
  deriving DecidableEq

def LeaveGroupRequest.decode : BodyReader LeaveGroupRequest := do
  let groupId ← readString
  let memberId ← readString
  requireEmpty
  return ⟨groupId, memberId⟩

def LeaveGroupRequest.encode (m : LeaveGroupRequest) : Bytes :=
  writeString m.groupId ++ writeString m.memberId

structure CommitOffsetItemWire where
  topic : Bytes
  partition : UInt16
  offset : UInt64
  deriving DecidableEq

structure CommitOffsetRequest where
  groupId : Bytes
  memberId : Bytes
  generation : UInt32
  count : UInt16
  entries : List CommitOffsetItemWire
  deriving DecidableEq

def CommitOffsetRequest.readEntry : BodyReader CommitOffsetItemWire := do
  let topic ← readString
  let partition ← readU16
  let offset ← BodyReader.readU64
  return ⟨topic, partition, offset⟩

def CommitOffsetRequest.encodeEntry (e : CommitOffsetItemWire) : Bytes :=
  writeString e.topic ++ writeU16 e.partition ++ BodyWriter.writeU64 e.offset

def CommitOffsetRequest.decode : BodyReader CommitOffsetRequest := do
  let groupId ← readString
  let memberId ← readString
  let generation ← BodyReader.readU32
  let count ← readU16
  require (decide (count.toNat * 12 ≤ (← remaining)))
  let entries ← repeated count.toNat readEntry
  requireEmpty
  return ⟨groupId, memberId, generation, count, entries⟩

def CommitOffsetRequest.encode (m : CommitOffsetRequest) : Bytes :=
  writeString m.groupId ++ writeString m.memberId ++ BodyWriter.writeU32 m.generation ++
    writeU16 (countOf m.entries) ++ m.entries.flatMap encodeEntry

structure FetchOffsetQueryWire where
  topic : Bytes
  partition : UInt16
  deriving DecidableEq

structure FetchOffsetRequest where
  groupId : Bytes
  count : UInt16
  queries : List FetchOffsetQueryWire
  deriving DecidableEq

def FetchOffsetRequest.readQuery : BodyReader FetchOffsetQueryWire := do
  let topic ← readString
  let partition ← readU16
  return ⟨topic, partition⟩

def FetchOffsetRequest.encodeQuery (q : FetchOffsetQueryWire) : Bytes :=
  writeString q.topic ++ writeU16 q.partition

def FetchOffsetRequest.decode : BodyReader FetchOffsetRequest := do
  let groupId ← readString
  let count ← readU16
  require (decide (count.toNat * 4 ≤ (← remaining)))
  let queries ← repeated count.toNat readQuery
  requireEmpty
  return ⟨groupId, count, queries⟩

def FetchOffsetRequest.encode (m : FetchOffsetRequest) : Bytes :=
  writeString m.groupId ++ writeU16 (countOf m.queries) ++ m.queries.flatMap encodeQuery

structure DescribeGroupRequest where
  groupId : Bytes
  deriving DecidableEq

def DescribeGroupRequest.decode : BodyReader DescribeGroupRequest := do
  let groupId ← readString
  requireEmpty
  return ⟨groupId⟩

def DescribeGroupRequest.encode (m : DescribeGroupRequest) : Bytes := writeString m.groupId

/-! ## Responses -/

structure CreateTopicResponse where
  deriving DecidableEq

def CreateTopicResponse.encode (_ : CreateTopicResponse) : Bytes := []
def CreateTopicResponse.decode : BodyReader CreateTopicResponse := decodeEmpty {}

structure ProduceResponse where
  partition : UInt16
  baseOffset : UInt64
  count : UInt16
  deriving DecidableEq

def ProduceResponse.encode (r : ProduceResponse) : Bytes :=
  writeU16 r.partition ++ BodyWriter.writeU64 r.baseOffset ++ writeU16 r.count

def ProduceResponse.decode : BodyReader ProduceResponse := do
  let partition ← readU16
  let baseOffset ← BodyReader.readU64
  let count ← readU16
  requireEmpty
  return ⟨partition, baseOffset, count⟩

structure FetchResponse where
  nextOffset : UInt64
  highWatermark : UInt64
  earliestOffset : UInt64
  recordCount : UInt16
  records : List Record
  deriving DecidableEq

/-- A record in a FETCH response, `FetchRecordWire`. -/
def FetchResponse.encodeRecord (r : Record) : Bytes :=
  BodyWriter.writeU64 r.offset ++ writeI64 r.timestampMs ++ writeBytes r.key ++ writeBytes r.value

def FetchResponse.readRecord : BodyReader Record := do
  let offset ← BodyReader.readU64
  let timestampMs ← readI64
  let key ← readBytes
  let value ← readBytes
  return ⟨offset, timestampMs, key, value⟩

def FetchResponse.encode (r : FetchResponse) : Bytes :=
  BodyWriter.writeU64 r.nextOffset ++ BodyWriter.writeU64 r.highWatermark ++
    BodyWriter.writeU64 r.earliestOffset ++ writeU16 (countOf r.records) ++
    r.records.flatMap encodeRecord

def FetchResponse.decode : BodyReader FetchResponse := do
  let nextOffset ← BodyReader.readU64
  let highWatermark ← BodyReader.readU64
  let earliestOffset ← BodyReader.readU64
  let recordCount ← readU16
  let records ← repeated recordCount.toNat readRecord
  requireEmpty
  return ⟨nextOffset, highWatermark, earliestOffset, recordCount, records⟩

structure TopicInfoWire where
  name : Bytes
  partitions : UInt16
  deriving DecidableEq

structure ListTopicsResponse where
  count : UInt16
  topics : List TopicInfoWire
  deriving DecidableEq

def ListTopicsResponse.encodeTopic (t : TopicInfoWire) : Bytes :=
  writeString t.name ++ writeU16 t.partitions

def ListTopicsResponse.readTopic : BodyReader TopicInfoWire := do
  let name ← readString
  let partitions ← readU16
  return ⟨name, partitions⟩

def ListTopicsResponse.encode (r : ListTopicsResponse) : Bytes :=
  writeU16 (countOf r.topics) ++ r.topics.flatMap encodeTopic

def ListTopicsResponse.decode : BodyReader ListTopicsResponse := do
  let count ← readU16
  let topics ← repeated count.toNat readTopic
  requireEmpty
  return ⟨count, topics⟩

structure PartitionOffsetWire where
  earliest : UInt64
  nextOffset : UInt64
  segmentCount : UInt32
  deriving DecidableEq

structure DescribeTopicResponse where
  name : Bytes
  partitions : UInt16
  partitionOffsets : List PartitionOffsetWire
  retentionMs : UInt64
  retentionBytes : UInt64
  degraded : UInt8
  deriving DecidableEq

def DescribeTopicResponse.encodeOffsets (po : PartitionOffsetWire) : Bytes :=
  BodyWriter.writeU64 po.earliest ++ BodyWriter.writeU64 po.nextOffset ++
    BodyWriter.writeU32 po.segmentCount

/-- The body of an older broker has no segment counts. -/
def DescribeTopicResponse.readOffsets (extended : Bool) : BodyReader PartitionOffsetWire := do
  let earliest ← BodyReader.readU64
  let nextOffset ← BodyReader.readU64
  if extended then
    let segmentCount ← BodyReader.readU32
    return ⟨earliest, nextOffset, segmentCount⟩
  else return ⟨earliest, nextOffset, 1⟩

def DescribeTopicResponse.encode (r : DescribeTopicResponse) : Bytes :=
  writeString r.name ++ writeU16 r.partitions ++ r.partitionOffsets.flatMap encodeOffsets ++
    BodyWriter.writeU64 r.retentionMs ++ BodyWriter.writeU64 r.retentionBytes ++ writeU8 r.degraded

def DescribeTopicResponse.decode : BodyReader DescribeTopicResponse := do
  let name ← readString
  let partitions ← readU16
  -- The version of the format is told by the number of bytes that follow.
  let extended := decide (partitions.toNat * 20 ≤ (← remaining))
  let partitionOffsets ← repeated partitions.toNat (readOffsets extended)
  if extended && decide (17 ≤ (← remaining)) then
    let retentionMs ← BodyReader.readU64
    let retentionBytes ← BodyReader.readU64
    let degraded ← readU8
    requireEmpty
    return ⟨name, partitions, partitionOffsets, retentionMs, retentionBytes, degraded⟩
  else
    requireEmpty
    return ⟨name, partitions, partitionOffsets, 0, 0, 0⟩

structure TopicPartitionWire where
  topic : Bytes
  partition : UInt16
  deriving DecidableEq

def TopicPartitionWire.encode (tp : TopicPartitionWire) : Bytes :=
  writeString tp.topic ++ writeU16 tp.partition

def TopicPartitionWire.read : BodyReader TopicPartitionWire := do
  let topic ← readString
  let partition ← readU16
  return ⟨topic, partition⟩

structure JoinGroupResponse where
  memberId : Bytes
  generation : UInt32
  heartbeatIntervalMs : UInt32
  count : UInt16
  assignments : List TopicPartitionWire
  deriving DecidableEq

def JoinGroupResponse.encode (r : JoinGroupResponse) : Bytes :=
  writeString r.memberId ++ BodyWriter.writeU32 r.generation ++
    BodyWriter.writeU32 r.heartbeatIntervalMs ++ writeU16 (countOf r.assignments) ++
    r.assignments.flatMap TopicPartitionWire.encode

def JoinGroupResponse.decode : BodyReader JoinGroupResponse := do
  let memberId ← readString
  let generation ← BodyReader.readU32
  let heartbeatIntervalMs ← BodyReader.readU32
  let count ← readU16
  require (decide (count.toNat * 4 ≤ (← remaining)))
  let assignments ← repeated count.toNat TopicPartitionWire.read
  requireEmpty
  return ⟨memberId, generation, heartbeatIntervalMs, count, assignments⟩

structure HeartbeatResponse where
  deriving DecidableEq

def HeartbeatResponse.encode (_ : HeartbeatResponse) : Bytes := []
def HeartbeatResponse.decode : BodyReader HeartbeatResponse := decodeEmpty {}

structure LeaveGroupResponse where
  deriving DecidableEq

def LeaveGroupResponse.encode (_ : LeaveGroupResponse) : Bytes := []
def LeaveGroupResponse.decode : BodyReader LeaveGroupResponse := decodeEmpty {}

structure CommitOffsetResponse where
  deriving DecidableEq

def CommitOffsetResponse.encode (_ : CommitOffsetResponse) : Bytes := []
def CommitOffsetResponse.decode : BodyReader CommitOffsetResponse := decodeEmpty {}

structure OffsetEntryWire where
  topic : Bytes
  partition : UInt16
  offset : Int64
  deriving DecidableEq

structure FetchOffsetResponse where
  count : UInt16
  offsets : List OffsetEntryWire
  deriving DecidableEq

def FetchOffsetResponse.encodeEntry (o : OffsetEntryWire) : Bytes :=
  writeString o.topic ++ writeU16 o.partition ++ writeI64 o.offset

def FetchOffsetResponse.readEntry : BodyReader OffsetEntryWire := do
  let topic ← readString
  let partition ← readU16
  let offset ← readI64
  return ⟨topic, partition, offset⟩

def FetchOffsetResponse.encode (r : FetchOffsetResponse) : Bytes :=
  writeU16 (countOf r.offsets) ++ r.offsets.flatMap encodeEntry

def FetchOffsetResponse.decode : BodyReader FetchOffsetResponse := do
  let count ← readU16
  require (decide (count.toNat * 12 ≤ (← remaining)))
  let offsets ← repeated count.toNat readEntry
  requireEmpty
  return ⟨count, offsets⟩

structure MemberDescriptionWire where
  memberId : Bytes
  sessionTimeoutMs : UInt32
  msSinceHeartbeat : UInt32
  count : UInt16
  assignment : List TopicPartitionWire
  deriving DecidableEq

structure DescribeGroupResponse where
  groupId : Bytes
  generation : UInt32
  state : Bytes
  strategy : UInt8
  memberCount : UInt16
  members : List MemberDescriptionWire
  deriving DecidableEq

def DescribeGroupResponse.encodeMember (m : MemberDescriptionWire) : Bytes :=
  writeString m.memberId ++ BodyWriter.writeU32 m.sessionTimeoutMs ++
    BodyWriter.writeU32 m.msSinceHeartbeat ++ writeU16 (countOf m.assignment) ++
    m.assignment.flatMap TopicPartitionWire.encode

def DescribeGroupResponse.readMember : BodyReader MemberDescriptionWire := do
  let memberId ← readString
  let sessionTimeoutMs ← BodyReader.readU32
  let msSinceHeartbeat ← BodyReader.readU32
  let count ← readU16
  require (decide (count.toNat * 4 ≤ (← remaining)))
  let assignment ← repeated count.toNat TopicPartitionWire.read
  return ⟨memberId, sessionTimeoutMs, msSinceHeartbeat, count, assignment⟩

def DescribeGroupResponse.encode (r : DescribeGroupResponse) : Bytes :=
  writeString r.groupId ++ BodyWriter.writeU32 r.generation ++ writeString r.state ++
    writeU8 r.strategy ++ writeU16 (countOf r.members) ++ r.members.flatMap encodeMember

def DescribeGroupResponse.decode : BodyReader DescribeGroupResponse := do
  let groupId ← readString
  let generation ← BodyReader.readU32
  let state ← readString
  let strategy ← readU8
  let memberCount ← readU16
  let members ← repeated memberCount.toNat readMember
  requireEmpty
  return ⟨groupId, generation, state, strategy, memberCount, members⟩

def headerSize : ℕ := 5

structure Frame where
  length : ℕ
  type : UInt8
  requestId : UInt32
  body : Bytes

namespace MessageType

def PING : UInt8 := 0x01
def ECHO : UInt8 := 0x02
def CREATE_TOPIC : UInt8 := 0x10
def PRODUCE : UInt8 := 0x11
def FETCH : UInt8 := 0x12
def LIST_TOPICS : UInt8 := 0x13
def DESCRIBE_TOPIC : UInt8 := 0x14
def JOIN_GROUP : UInt8 := 0x20
def HEARTBEAT : UInt8 := 0x21
def LEAVE_GROUP : UInt8 := 0x22
def COMMIT_OFFSET : UInt8 := 0x23
def FETCH_OFFSET : UInt8 := 0x24
def DESCRIBE_GROUP : UInt8 := 0x25
def PONG : UInt8 := 0x81
def ECHO_REPLY : UInt8 := 0x82
def CREATE_TOPIC_OK : UInt8 := 0x90
def PRODUCE_OK : UInt8 := 0x91
def FETCH_OK : UInt8 := 0x92
def TOPICS : UInt8 := 0x93
def TOPIC_DESCRIPTION : UInt8 := 0x94
def JOIN_GROUP_OK : UInt8 := 0xA0
def HEARTBEAT_OK : UInt8 := 0xA1
def LEAVE_GROUP_OK : UInt8 := 0xA2
def COMMIT_OK : UInt8 := 0xA3
def OFFSETS : UInt8 := 0xA4
def GROUP_DESCRIPTION : UInt8 := 0xA5
def MSG_ERROR : UInt8 := 0xFF

end MessageType

def makeFrame (type : UInt8) (requestId : UInt32) (body : Bytes) : Frame :=
  ⟨u32 (headerSize + u32 body.length), type, requestId, body⟩

def createErrorFrame (requestId : UInt32) (errorCode : UInt16) (message : Bytes) : Frame :=
  makeFrame MessageType.MSG_ERROR requestId (writeU16 errorCode ++ message)

end StreamForge
