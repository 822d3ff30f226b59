import StreamForge.Broker.Topic

/-!
# Committed offsets

`OffsetStore`: committed offsets are records of partition 0 of the internal
topic `__consumer_offsets`, with the key `group|topic|partition`. The cache
holds the last value of every key and is rebuilt from the log at start-up,
where a key that cannot be parsed ends the start.

The store's partition is an object of the topic manager; `commit` and
`loadCache` take it as an argument together with its files.
-/

namespace StreamForge

open FileTrace

structure OffsetCommitItem where
  topic : Bytes
  partition : UInt16
  offset : UInt64
  timestampMs : Int64

structure OffsetEntry where
  offset : Int64
  timestampMs : Int64
deriving DecidableEq

abbrev OffsetCache := AList (fun _ : Bytes => OffsetEntry)

/-- `opened` says that `m_offsets_partition` is set. -/
structure OffsetStore where
  opened : Bool := false
  cache : OffsetCache := ∅

namespace OffsetStore

def internalOffsetsTopic : Bytes := ascii "__consumer_offsets"

/-! ## Keys and values -/

def pipe : UInt8 := 124

def makeKey (groupId topic : Bytes) (partition : UInt16) : Bytes :=
  groupId ++ [pipe] ++ topic ++ [pipe] ++ toString partition.toNat

/-- `std::stoul` reads an `unsigned long`, 32 bits wide on the platform of the
source. -/
def parseKey (key : Bytes) : Option (Bytes × Bytes × ℕ) :=
  match key.span (· != pipe) with
  | (_, []) => none
  | (group, _ :: rest) =>
    match rest.span (· != pipe) with
    | (_, []) => none
    | (topic, _ :: part) =>
      if group.isEmpty || topic.isEmpty || part.isEmpty then none
      else
        match Decimal.parseUnsigned 32 part with
        | none => none
        | some (p, idx) =>
          if idx ≠ part.length ∨ 0xFFFF < p then none else some (group, topic, p)

def encodeValue (offset : UInt64) (timestampMs : Int64) : Bytes :=
  writeU64 offset.toNat ++ writeU64 timestampMs.toUInt64.toNat

def decodeValue (value : Bytes) : OffsetEntry where
  offset := (UInt64.ofNat (readU64 value)).toInt64
  timestampMs := (UInt64.ofNat (readU64 (value.drop 8))).toInt64

/-! ## Recovery -/

def loadRecord (cache : OffsetCache) (rec : Record) : Except Status OffsetCache :=
  match parseKey rec.key with
  | none => .error (.corrupt (ascii "Corrupt key in " ++ internalOffsetsTopic ++
      ascii " at offset " ++ toString rec.offset.toNat))
  | some _ =>
    if rec.value.length ≠ 16 then
      .error (.corrupt (ascii "Corrupt value size (" ++ toString rec.value.length ++
        ascii " != 16) in " ++ internalOffsetsTopic ++ ascii " at offset " ++
        toString rec.offset.toNat))
    else .ok (cache.insert rec.key (decodeValue rec.value))

/-- The inner loop over the records of one read; `curr` is `curr_offset`. -/
def loadRecords : List Record → UInt64 → OffsetCache → Except Status (UInt64 × OffsetCache)
  | [], curr, cache => .ok (curr, cache)
  | rec :: rest, _, cache =>
    match loadRecord cache rec with
    | .error st => .error st
    | .ok cache => loadRecords rest (rec.offset + 1) cache

/-- The outer loop. Every round but the last reads at least one record. -/
def loadLoop (p : Partition) (fs : FileSystem) (highWatermark : UInt64) :
    ℕ → UInt64 → OffsetCache → Status × OffsetCache
  | 0, _, cache => (.OK, cache)
  | fuel + 1, curr, cache =>
    if curr < highWatermark then
      let res := p.read fs curr 1000 (1024 * 1024)
      if !res.status.ok then
        (.corrupt (ascii "Failed to read " ++ internalOffsetsTopic ++ ascii " at offset " ++
          toString curr.toNat ++ ascii ": " ++ res.status.message), cache)
      else if res.records.isEmpty then (.OK, cache)
      else
        match loadRecords res.records curr cache with
        | .error st => (st, cache)
        | .ok (curr, cache) => loadLoop p fs highWatermark fuel curr cache
    else (.OK, cache)

def loadCache (p : Partition) (fs : FileSystem) : Status × OffsetCache :=
  loadLoop p fs p.nextOffset (p.nextOffset.toNat - p.earliestOffset.toNat + 1) p.earliestOffset ∅

def internalTopic (mgr : TopicManager) (nowMs : Int64) : Except Status Topic × TopicManager :=
  match mgr.getTopic internalOffsetsTopic with
  | some t => (.ok t, mgr)
  | none =>
    match mgr.createTopic internalOffsetsTopic 1 0 0 nowMs with
    | (.error st, mgr) => (.error (.ioError (ascii "Failed to create " ++ internalOffsetsTopic ++
        ascii ": " ++ st.message)), mgr)
    | (.ok t, mgr) => (.ok t, mgr)

/-- `OffsetStore::open_and_recover`. -/
def openAndRecover (mgr : TopicManager) (nowMs : Int64) : Status × OffsetStore × TopicManager :=
  match internalTopic mgr nowMs with
  | (.error st, mgr) => (st, {}, mgr)
  | (.ok t, mgr) =>
    match t.getPartition 0 with
    | none => (.ioError (ascii "Failed to access partition 0 of " ++ internalOffsetsTopic), {}, mgr)
    | some p =>
      match loadCache p (Fs.start (mgr.partDirs internalOffsetsTopic 0)) with
      | (st, cache) => (st, { opened := true, cache }, mgr)

/-! ## Committing -/

def batchOf (groupId : Bytes) (items : List OffsetCommitItem) : List (Bytes × Bytes) :=
  items.map fun item =>
    (makeKey groupId item.topic item.partition, encodeValue item.offset item.timestampMs)

/-- The cache after a commit: later items win. -/
def cacheItems (groupId : Bytes) (items : List OffsetCommitItem) (cache : OffsetCache) :
    OffsetCache :=
  items.foldl (fun cache item => cache.insert (makeKey groupId item.topic item.partition)
    ⟨item.offset.toInt64, item.timestampMs⟩) cache

/-- `OffsetStore::commit`. The batch is flushed whatever `sync_on_append` is. -/
def commit (store : OffsetStore) (groupId : Bytes) (items : List OffsetCommitItem) (p : Partition)
    (nowMs : Int64) (fts : List Faults) (fs : FileSystem) :
    Status × OffsetStore × Partition × FileSystem :=
  if items.isEmpty then (.OK, store, p, fs)
  else if !store.opened then
    (.ioError (ascii "OffsetStore partition not initialized"), store, p, fs)
  else
    match p.appendBatch (batchOf groupId items) nowMs fts fs with
    | (.error st, p, fs) => (st, store, p, fs)
    | (.ok _, p, fs) =>
      (.OK, { store with cache := cacheItems groupId items store.cache }, p, p.flush fs)

/-- `commit` on the partition of the internal topic. -/
def commitTo (store : OffsetStore) (groupId : Bytes) (items : List OffsetCommitItem)
    (mgr : TopicManager) (nowMs : Int64) (fts : List Faults) :
    Status × OffsetStore × TopicManager :=
  match mgr.getTopic internalOffsetsTopic with
  | none => (if items.isEmpty then .OK else
      .ioError (ascii "OffsetStore partition not initialized"), store, mgr)
  | some t =>
    match t.getPartition 0 with
    | none => (if items.isEmpty then .OK else
        .ioError (ascii "OffsetStore partition not initialized"), store, mgr)
    | some p =>
      let dirs := mgr.partDirs internalOffsetsTopic
      match store.commit groupId items p nowMs fts (Fs.start (dirs 0)) with
      | (st, store, p, fs) =>
        (st, store, mgr.setTopic internalOffsetsTopic
          { t with partitions := t.partitions.set 0 p } (Function.update dirs 0 fs.dir))

def get (store : OffsetStore) (groupId topic : Bytes) (partition : UInt16) : Int64 :=
  match store.cache.lookup (makeKey groupId topic partition) with
  | some entry => entry.offset
  | none => -1

end OffsetStore

end StreamForge
