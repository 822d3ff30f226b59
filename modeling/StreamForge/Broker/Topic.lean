import StreamForge.Storage.Partition

/-!
# Topics

`Partitioner`, `Topic` and `TopicManager`. A topic is a directory with a
`topic.meta` text file and one directory per partition; the manager keeps the
topics it has loaded by name.

`TopicManager` carries the data directory it works on. A restart keeps that
directory and nothing else.
-/

namespace StreamForge

open FileTrace

/-- `std::to_string` of a signed value. -/
def toStringSigned (n : ℤ) : Bytes :=
  if n < 0 then ascii "-" ++ toString n.natAbs else toString n.natAbs

/-- `RoundRobinPartitioner::partition`: the chosen partition and the counter. -/
def roundRobinPartition (counter : UInt32) (numPartitions : ℕ) : ℕ × UInt32 :=
  if numPartitions = 0 then (0, counter) else (counter.toNat % numPartitions, counter + 1)

def fnv1a32 (data : Bytes) : UInt32 :=
  data.foldl (fun hash b => (hash ^^^ b.toUInt32) * 16777619) 2166136261

/-- `KeyHashPartitioner::partition`; the counter belongs to its fallback. -/
def keyHashPartition (counter : UInt32) (key : Bytes) (numPartitions : ℕ) : ℕ × UInt32 :=
  if numPartitions = 0 then (0, counter)
  else if key.isEmpty then roundRobinPartition counter numPartitions
  else ((fnv1a32 key).toNat % numPartitions, counter)

/-! ## Topics -/

structure Topic where
  name : Bytes
  retentionMs : UInt64
  retentionBytes : UInt64
  partitions : List Partition
  keyFallback : UInt32 := 0
  rrCounter : UInt32 := 0

/-- A partition directory that does not exist is an empty one. -/
abbrev PartDirs := ℕ → Disk

namespace Topic

def new (name : Bytes) (numPartitions : ℕ) (topicDir : Bytes) (config : StorageConfig)
    (retentionMs retentionBytes : UInt64) : Topic where
  name
  retentionMs
  retentionBytes
  partitions := (List.range numPartitions).map fun i =>
    Partition.new (UInt32.ofNat i) (topicDir ++ ascii "\\" ++ toString i) config

def numPartitions (t : Topic) : ℕ := t.partitions.length

def getPartition (t : Topic) (partitionId : ℕ) : Option Partition := t.partitions[partitionId]?

/-- The loop of `Topic::open_and_recover`, from partition `i` on. -/
def openPartitions (i : ℕ) : List Partition → PartDirs → Status × List Partition × PartDirs
  | [], dirs => (.OK, [], dirs)
  | p :: rest, dirs =>
    match p.openAndRecover (Fs.start (dirs i)) with
    | (st, p, fs) =>
      let dirs := Function.update dirs i fs.dir
      if !st.ok then (st, p :: rest, dirs)
      else
        match openPartitions (i + 1) rest dirs with
        | (st, rest, dirs) => (st, p :: rest, dirs)

def openAndRecover (t : Topic) (dirs : PartDirs) : Status × Topic × PartDirs :=
  match openPartitions 0 t.partitions dirs with
  | (st, partitions, dirs) => (st, { t with partitions }, dirs)

/-- The partition `produce_batch` chooses when the client leaves it to the
server. -/
def choosePartition (t : Topic) (firstKey : Bytes) : ℕ × Topic :=
  if firstKey.isEmpty then
    let (chosen, counter) := roundRobinPartition t.rrCounter t.numPartitions
    (chosen, { t with rrCounter := counter })
  else
    let (chosen, counter) := keyHashPartition t.keyFallback firstKey t.numPartitions
    (chosen, { t with keyFallback := counter })

/-- Returns the offset of the first record and the chosen partition. -/
def produceBatch (t : Topic) (partition : Int32) (records : List (Bytes × Bytes)) (nowMs : Int64)
    (fts : List Faults) (dirs : PartDirs) :
    Except Status UInt64 × ℕ × Topic × PartDirs :=
  match records with
  | [] => (.error (.invalidArgument (ascii "Cannot produce empty record batch")), 0, t, dirs)
  | first :: _ =>
    if partition < -1 ∨ (t.partitions.length : ℤ) ≤ partition.toInt then
      (.error (.invalidArgument (ascii "Invalid partition ID " ++
        toStringSigned partition.toInt)), 0, t, dirs)
    else
      let (chosen, t) :=
        if partition = -1 then t.choosePartition first.1 else (partition.toInt.toNat, t)
      match t.partitions[chosen]? with
      | none => (.error (.ioError []), chosen, t, dirs)
      | some p =>
        match p.appendBatch records nowMs fts (Fs.start (dirs chosen)) with
        | (res, p, fs) => (res, chosen, { t with partitions := t.partitions.set chosen p },
            Function.update dirs chosen fs.dir)

def isDegraded (t : Topic) : Bool := t.partitions.any Partition.isDegraded

end Topic

/-! ## The data directory -/

structure TopicDir where
  topicMeta : Option Bytes := none
  parts : PartDirs := fun _ => ∅

abbrev DataDir := AList (fun _ : Bytes => TopicDir)

structure TopicManager where
  config : StorageConfig
  topics : AList (fun _ : Bytes => Topic) := ∅
  dataDir : DataDir := ∅

namespace TopicManager

def isAlnum (c : UInt8) : Bool :=
  (48 ≤ c && c ≤ 57) || (65 ≤ c && c ≤ 90) || (97 ≤ c && c ≤ 122)

def toUpper (c : UInt8) : UInt8 := if 97 ≤ c && c ≤ 122 then c - 32 else c

def topicChar (c : UInt8) : Bool := isAlnum c || c == 46 || c == 95 || c == 45

def reservedNames : List Bytes := ["CON", "PRN", "AUX", "NUL", "COM1", "COM2", "COM3", "COM4",
  "COM5", "COM6", "COM7", "COM8", "COM9", "LPT1", "LPT2", "LPT3", "LPT4", "LPT5", "LPT6", "LPT7",
  "LPT8", "LPT9"].map ascii

/-- The error text, `none` for a valid name. -/
def validateTopicName (name : Bytes) : Option Bytes :=
  if name.isEmpty then some (ascii "Topic name cannot be empty")
  else if name.length > 249 then
    some (ascii "Topic name exceeds maximum length of 249 characters")
  else
    match name.find? fun c => !topicChar c with
    | some c => some (ascii "Topic name contains invalid character: '" ++ [c] ++ ascii "'")
    | none =>
      if name = ascii "." ∨ name = ascii ".." then
        some (ascii "Topic name cannot be '.' or '..'")
      else if name.head? = some 46 ∨ name.getLast? = some 46 then
        some (ascii "Topic name cannot start or end with '.'")
      else if name.map toUpper ∈ reservedNames then
        some (ascii "Topic name '" ++ name ++ ascii "' is a Windows reserved device name")
      else none

def isReserved (name : Bytes) : Bool := (ascii "__").isPrefixOf name

/-! ## The metadata file -/

def saveTopicMetadata (t : Topic) (nowMs : Int64) : Bytes :=
  ascii "partitions=" ++ toString t.numPartitions ++ ascii "\n" ++
    (ascii "created_ms=" ++ toStringSigned nowMs.toInt ++ ascii "\n" ++
      (ascii "retention_ms=" ++ toString t.retentionMs.toNat ++ ascii "\n" ++
        (ascii "retention_bytes=" ++ toString t.retentionBytes.toNat ++ ascii "\n")))

structure TopicMetadata where
  partitions : ℕ := 0
  retentionMs : UInt64
  retentionBytes : UInt64

/-- One line `key=value`. A number that cannot be parsed is ignored; `unsigned
long` has 32 bits on the platform of the source. -/
def metadataLine (m : TopicMetadata) (line : Bytes) : TopicMetadata :=
  match line.span (· != 61) with
  | (_, []) => m
  | (key, _ :: val) =>
    if key = ascii "partitions" then
      match Decimal.parseUnsigned 32 val with
      | some (n, _) => { m with partitions := n }
      | none => m
    else if key = ascii "retention_ms" then
      match Decimal.parseUnsigned 64 val with
      | some (n, _) => { m with retentionMs := UInt64.ofNat n }
      | none => m
    else if key = ascii "retention_bytes" then
      match Decimal.parseUnsigned 64 val with
      | some (n, _) => { m with retentionBytes := UInt64.ofNat n }
      | none => m
    else m

def topicPath (config : StorageConfig) (name : Bytes) : Bytes :=
  config.dataDir ++ ascii "\\" ++ name

def loadTopicMetadata (config : StorageConfig) (name : Bytes) (file : Option Bytes) :
    Except Status TopicMetadata :=
  match file with
  | none => .error (.notFound (ascii "Topic metadata file missing: " ++ topicPath config name ++
      ascii "\\topic.meta"))
  | some content =>
    let m := (content.splitOnP (· == 10)).foldl metadataLine
      { retentionMs := config.defaultRetentionMs
        retentionBytes := config.defaultRetentionBytes }
    if m.partitions = 0 then
      .error (.corrupt (ascii "Invalid partitions count in metadata file: " ++
        topicPath config name ++ ascii "\\topic.meta"))
    else .ok m

/-! ## Loading and creating -/

/-- The loop over the directories. A directory that is not a topic is skipped,
one that cannot be recovered ends the start. -/
def recoverTopics (mgr : TopicManager) : List (Sigma fun _ : Bytes => TopicDir) →
    Status × TopicManager
  | [] => (.OK, mgr)
  | ⟨name, dir⟩ :: rest =>
    if (validateTopicName name).isSome then mgr.recoverTopics rest
    else
      match loadTopicMetadata mgr.config name dir.topicMeta with
      | .error _ => mgr.recoverTopics rest
      | .ok m =>
        match (Topic.new name m.partitions (topicPath mgr.config name) mgr.config m.retentionMs
            m.retentionBytes).openAndRecover dir.parts with
        | (st, t, parts) =>
          let mgr := { mgr with dataDir := mgr.dataDir.insert name { dir with parts } }
          if !st.ok then (st, mgr)
          else recoverTopics { mgr with topics := mgr.topics.insert name t } rest

/-- `open_and_recover_all` of a new manager on a data directory. -/
def openAndRecoverAll (config : StorageConfig) (dataDir : DataDir) : Status × TopicManager :=
  recoverTopics { config, dataDir } dataDir.entries

def createTopic (mgr : TopicManager) (name : Bytes) (partitions : ℕ)
    (retentionMs retentionBytes : UInt64) (nowMs : Int64) : Except Status Topic × TopicManager :=
  match validateTopicName name with
  | some err => (.error (.invalidArgument err), mgr)
  | none =>
    if partitions < 1 ∨ 64 < partitions then
      (.error (.invalidArgument (ascii "Partitions count must be between 1 and 64")), mgr)
    else if (mgr.topics.lookup name).isSome then
      (.error (.alreadyExists (ascii "Topic '" ++ name ++ ascii "' already exists")), mgr)
    else
      let retentionMs := if retentionMs = 0 then mgr.config.defaultRetentionMs else retentionMs
      let retentionBytes :=
        if retentionBytes = 0 ∧ 0 < mgr.config.defaultRetentionBytes then
          mgr.config.defaultRetentionBytes
        else retentionBytes
      let dir := (mgr.dataDir.lookup name).getD {}
      if dir.topicMeta.isSome then
        (.error (.alreadyExists (ascii "Topic metadata already exists on disk for '" ++ name ++
          ascii "'")), mgr)
      else
        match (Topic.new name partitions (topicPath mgr.config name) mgr.config retentionMs
            retentionBytes).openAndRecover dir.parts with
        | (st, t, parts) =>
          if !st.ok then
            (.error st, { mgr with dataDir := mgr.dataDir.insert name { dir with parts } })
          else
            let topicMeta := some (saveTopicMetadata t nowMs)
            (.ok t, { mgr with
              topics := mgr.topics.insert name t
              dataDir := mgr.dataDir.insert name { topicMeta, parts } })

def getTopic (mgr : TopicManager) (name : Bytes) : Option Topic := mgr.topics.lookup name

def listTopics (mgr : TopicManager) : List Topic := mgr.topics.entries.map Sigma.snd

def partDirs (mgr : TopicManager) (name : Bytes) : PartDirs :=
  ((mgr.dataDir.lookup name).getD {}).parts

def setTopic (mgr : TopicManager) (name : Bytes) (t : Topic) (parts : PartDirs) : TopicManager :=
  { mgr with
    topics := mgr.topics.insert name t
    dataDir := mgr.dataDir.insert name { (mgr.dataDir.lookup name).getD {} with parts } }

end TopicManager

end StreamForge
