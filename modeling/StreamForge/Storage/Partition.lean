import Mathlib.Data.List.Sort
import StreamForge.Storage.LogSegment

/-!
# Partitions

`Partition`: the ordered list of segments of one directory, the last of which
takes the appends. Every operation that changes the partition's fields does so
under the exclusive lock, so each of them is one function from state to state.
Retention drops the lock before it removes files; by then no segment of the
partition owns those files, and the operation is modelled as a whole.
-/

namespace StreamForge

open FileTrace FileHandle

structure Partition where
  partitionId : UInt32 := 0
  partitionDir : Bytes := []
  config : StorageConfig := {}
  nextOffset : UInt64 := 0
  segments : List LogSegment := []
  isDegraded : Bool := false

namespace Partition

def new (partitionId : UInt32) (partitionDir : Bytes) (config : StorageConfig) : Partition :=
  { partitionId, partitionDir, config }

def newSegment (p : Partition) (base : UInt64) : LogSegment :=
  { baseOffset := base
    partitionDir := p.partitionDir
    indexIntervalBytes := p.config.indexIntervalBytes }

def earliestOffset (p : Partition) : UInt64 :=
  match p.segments with
  | [] => 0
  | seg :: _ => seg.baseOffset

/-! ## Recovery -/

/-- The base offsets of the `.log` files, sorted. -/
def listBaseOffsets (d : Disk) : List UInt64 :=
  ((d.keys.filter fun f => f.kind = .log).map FileName.base).insertionSort (· ≤ ·)

/-- The branch of the recovery loop for a segment that is not the last. -/
def recoverSealed (p : Partition) (seg : LogSegment) (fs : FileSystem) :
    Status × Partition × FileSystem :=
  if !seg.hasSealedMarker fs then
    match seg.recoverAndRebuildIndex fs with
    | (st, _, seg, fs) =>
      if !st.ok then (st, p, fs)
      else
        let (seg, fs) := seg.sealSegment fs
        -- a marker that cannot be written is only logged
        let (_, fs) := seg.writeSealedMarker {} fs
        let fs := (seg.flush fs).exec .flushDir
        (.OK, { p with segments := p.segments ++ [seg] }, fs)
  else if p.config.fullScan then
    let (_, report, seg, fs) := seg.verifyAndRebuildFull fs
    let (seg, fs) := seg.sealSegment fs
    (.OK, { p with
      segments := p.segments ++ [seg]
      isDegraded := p.isDegraded || decide (0 < report.corruptionCount) }, fs)
  else
    let valid := seg.verifyQuick fs
    let (seg, fs) := seg.sealSegment fs
    (.OK, { p with
      segments := p.segments ++ [seg]
      isDegraded := p.isDegraded || !valid }, fs)

def recoverActive (p : Partition) (seg : LogSegment) (fs : FileSystem) :
    Status × Partition × FileSystem :=
  match seg.recoverAndRebuildIndex fs with
  | (st, next, seg, fs) =>
    if !st.ok then (st, { p with nextOffset := next }, fs)
    else (.OK, { p with nextOffset := next, segments := p.segments ++ [seg] }, fs)

def recoverSegments (p : Partition) : List UInt64 → FileSystem → Status × Partition × FileSystem
  | [], fs => (.OK, p, fs)
  | base :: rest, fs =>
    match (p.newSegment base).openFiles {} fs with
    | (st, seg, fs) =>
      if !st.ok then (st, p, fs)
      else
        match (if rest.isEmpty then p.recoverActive seg fs else p.recoverSealed seg fs) with
        | (st, p, fs) => if !st.ok then (st, p, fs) else recoverSegments p rest fs

def openAndRecover (p : Partition) (fs : FileSystem) : Status × Partition × FileSystem :=
  let bases := listBaseOffsets fs.dir
  let bases := if bases.isEmpty then [0] else bases
  match recoverSegments { p with segments := [] } bases fs with
  | (st, p, fs) =>
    if !st.ok then (st, p, fs)
    else
      match p.segments.getLast? with
      | none => (.OK, p, fs)
      | some active =>
        (.OK, if p.nextOffset < active.baseOffset then
          { p with nextOffset := active.baseOffset } else p, fs)

/-! ## Appending -/

def rollSegmentUnlocked (p : Partition) (ft : Faults) (fs : FileSystem) :
    Status × Partition × FileSystem :=
  match (p.newSegment p.nextOffset).openFiles ft fs with
  | (st, newSeg, fs) =>
    if !st.ok then (st, p, fs)
    else
      let fs := fs.exec .flushDir
      match p.segments.getLast? with
      | none => (.OK, { p with segments := [newSeg] }, fs)
      | some oldSeg =>
        let (oldSeg, fs) := oldSeg.sealSegment fs
        let p := { p with segments := p.segments.dropLast ++ [oldSeg, newSeg] }
        match oldSeg.writeSealedMarker ft fs with
        | (st, fs) =>
          if !st.ok then (st, p, fs)
          else (.OK, p, (oldSeg.flush fs).exec .flushDir)

/-- The `uint32_t record_size` of both append paths. -/
def recordSize (key value : Bytes) : ℕ := u32 (28 + u32 (key.length + value.length))

def recordTooLarge (key value : Bytes) : Bool := decide (maxRecordSize < recordSize key value)

/-- The roll test; `log_size_bytes()` is 64 bits wide, so the sum is exact. -/
def needsRoll (p : Partition) (active : LogSegment) (key value : Bytes) : Bool :=
  decide (0 < active.logSizeBytes) &&
    decide (p.config.segmentMaxBytes.toNat < active.logSizeBytes + recordSize key value)

/-- Roll when there is no active segment, then when the active one is full. -/
def makeRoom (p : Partition) (key value : Bytes) (ft : Faults) (fs : FileSystem) :
    Status × Partition × FileSystem :=
  match (if p.segments.isEmpty then p.rollSegmentUnlocked ft fs else (.OK, p, fs)) with
  | (st, p, fs) =>
    if !st.ok then (st, p, fs)
    else
      match p.segments.getLast? with
      | none => (.OK, p, fs)
      | some active =>
        if p.needsRoll active key value then p.rollSegmentUnlocked ft fs else (.OK, p, fs)

/-- What `append_with_timestamp` and the loop of `append_batch` do with one
record: roll if needed, write it at the next offset, advance. -/
def appendRecord (p : Partition) (key value : Bytes) (timestampMs : Int64) (sync : Bool)
    (ft : Faults) (fs : FileSystem) : Status × Partition × FileSystem :=
  match p.makeRoom key value ft fs with
  | (st, p, fs) =>
    if !st.ok then (st, p, fs)
    else
      match p.segments.getLast? with
      | none => (.ioError [], p, fs)
      | some active =>
        let record : Record := { offset := p.nextOffset, timestampMs, key, value }
        match active.appendWithTimestamp record timestampMs sync ft fs with
        | (st, active, fs) =>
          let p := { p with segments := p.segments.dropLast ++ [active] }
          if !st.ok then (st, p, fs)
          else (.OK, { p with nextOffset := p.nextOffset + 1 }, fs)

def tooLargeStatus (key value : Bytes) : Status :=
  .recordTooLarge (ascii "Record size (" ++ toString (recordSize key value) ++
    ascii ") exceeds maximum limit of 1 MiB")

/-- Returns the assigned offset. `Partition::append` is this function at the
system clock. -/
def appendWithTimestamp (p : Partition) (key value : Bytes) (timestampMs : Int64) (ft : Faults)
    (fs : FileSystem) : Except Status UInt64 × Partition × FileSystem :=
  if recordTooLarge key value then (.error (tooLargeStatus key value), p, fs)
  else
    match p.appendRecord key value timestampMs p.config.syncOnAppend ft fs with
    | (st, p', fs) => (if st.ok then .ok p.nextOffset else .error st, p', fs)

/-- The loop of `append_batch`. The environment gives each record its own
faults. -/
def appendRecords (p : Partition) (nowMs : Int64) :
    List (Bytes × Bytes) → List Faults → FileSystem → Status × Partition × FileSystem
  | [], _, fs => (.OK, p, fs)
  | (key, value) :: rest, fts, fs =>
    match p.appendRecord key value nowMs false (fts.headD {}) fs with
    | (st, p, fs) => if !st.ok then (st, p, fs) else appendRecords p nowMs rest fts.tail fs

/-- `Partition::flush`, also the last step of a synchronous batch. -/
def flush (p : Partition) (fs : FileSystem) : FileSystem :=
  p.segments.foldl (fun fs seg => seg.flush fs) fs

def appendBatch (p : Partition) (batch : List (Bytes × Bytes)) (nowMs : Int64)
    (fts : List Faults) (fs : FileSystem) : Except Status UInt64 × Partition × FileSystem :=
  if batch.isEmpty then
    (.error (.invalidArgument (ascii "Cannot append empty batch")), p, fs)
  else
    match batch.find? (fun item => recordTooLarge item.1 item.2) with
    | some item => (.error (tooLargeStatus item.1 item.2), p, fs)
    | none =>
      match p.appendRecords nowMs batch fts fs with
      | (st, p', fs) =>
        if !st.ok then (.error st, p', fs)
        else (.ok p.nextOffset, p', if p.config.syncOnAppend then p'.flush fs else fs)

/-! ## Reading -/

structure ReadResult where
  records : List Record
  status : Status

structure ReadState where
  records : List Record := []
  totalBytesRead : ℕ := 0
  totalMessagesRead : ℕ := 0

/-- The inner loop over one segment. `some st` is a `return` with that status,
`none` goes on with the next segment. -/
def readLoop (seg : LogSegment) (fs : FileSystem) (startOffset : UInt64)
    (maxMessages maxBytes : ℕ) : ℕ → ℕ → ReadState → ReadState × Option Status
  | 0, _, s => (s, none)
  | fuel + 1, pos, s =>
    if pos < seg.logSizeBytes then
      match seg.readRecordAt fs pos with
      | .error st => if st.code = .OffsetOutOfRange then (s, none) else (s, some st)
      | .ok rec =>
        let recBytes := recordSize rec.key rec.value
        if rec.offset < startOffset then
          readLoop seg fs startOffset maxMessages maxBytes fuel (pos + recBytes) s
        else
          let s := {
            records := s.records ++ [rec]
            totalBytesRead := s.totalBytesRead + recBytes
            totalMessagesRead := s.totalMessagesRead + 1 }
          if maxMessages ≤ s.totalMessagesRead || maxBytes ≤ s.totalBytesRead then
            (s, some .OK)
          else readLoop seg fs startOffset maxMessages maxBytes fuel (pos + recBytes) s
    else (s, none)

def readSegments (fs : FileSystem) (startOffset : UInt64) (maxMessages maxBytes : ℕ) :
    List LogSegment → ReadState → ReadResult
  | [], s => ⟨s.records, .OK⟩
  | seg :: rest, s =>
    match readLoop seg fs startOffset maxMessages maxBytes (seg.logSizeBytes + 1)
        (seg.lookupFilePosition startOffset) s with
    | (s, some st) => ⟨s.records, st⟩
    | (s, none) => readSegments fs startOffset maxMessages maxBytes rest s

/-- The search for `seg_idx`: the segments from the first one whose successor
starts behind `startOffset`. -/
def fromSegIdx (startOffset : UInt64) : List LogSegment → List LogSegment
  | seg :: next :: rest =>
    if next.baseOffset ≤ startOffset then fromSegIdx startOffset (next :: rest)
    else seg :: next :: rest
  | segs => segs

def read (p : Partition) (fs : FileSystem) (startOffset : UInt64) (maxMessages maxBytes : ℕ) :
    ReadResult :=
  if startOffset = p.nextOffset then ⟨[], .OK⟩
  else if p.nextOffset < startOffset || startOffset < p.earliestOffset then
    ⟨[], .offsetOutOfRange (ascii "Start offset " ++ toString startOffset.toNat ++
      ascii " out of valid range [" ++ toString p.earliestOffset.toNat ++ ascii ", " ++
      toString p.nextOffset.toNat ++ ascii ")")⟩
  else readSegments fs startOffset maxMessages maxBytes (fromSegIdx startOffset p.segments) {}

/-! ## Retention -/

structure DeletionCandidate where
  baseOffset : UInt64
  records : UInt64
  bytes : ℕ
deriving DecidableEq

def expired (retentionMs : UInt64) (nowMs : Int64) (seg : LogSegment) : Bool :=
  decide (0 < seg.maxTimestampMs) && decide (retentionMs.toInt64 < nowMs - seg.maxTimestampMs)

/-- How many of the oldest segments are given up to get down to
`retention_bytes`. -/
def deletableBySize (retentionBytes : UInt64) : UInt64 → List LogSegment → ℕ
  | _, [] => 0
  | currentTotal, seg :: rest =>
    if retentionBytes < currentTotal then
      deletableBySize retentionBytes (currentTotal - UInt64.ofNat seg.logSizeBytes) rest + 1
    else 0

/-- The sum wraps, here as in the loop above. -/
def totalBytes (p : Partition) : UInt64 :=
  p.segments.foldl (fun total seg => total + UInt64.ofNat seg.logSizeBytes) 0

def deletableCount (p : Partition) (retentionMs retentionBytes : UInt64) (nowMs : Int64) : ℕ :=
  let closed := p.segments.dropLast
  let byAge := if 0 < retentionMs then (closed.takeWhile (expired retentionMs nowMs)).length else 0
  let bySize := if 0 < retentionBytes then
    deletableBySize retentionBytes p.totalBytes closed else 0
  let count := max byAge bySize
  if p.segments.length ≤ count then p.segments.length - 1 else count

def candidate (seg : LogSegment) : DeletionCandidate :=
  ⟨seg.baseOffset, seg.recordCount, seg.logSizeBytes⟩

def removeFiles (fs : FileSystem) (base : UInt64) : FileSystem :=
  ((fs.exec (.remove ⟨base, .log⟩)).exec (.remove ⟨base, .index⟩)).exec (.remove ⟨base, .sealed⟩)

/-- Returns `out_deleted`; the status is always OK. -/
def scanAndDeleteSegments (p : Partition) (retentionMs retentionBytes : UInt64) (dryRun : Bool)
    (nowMs : Int64) (fs : FileSystem) : List DeletionCandidate × Partition × FileSystem :=
  if p.segments.length ≤ 1 then ([], p, fs)
  else
    let count := p.deletableCount retentionMs retentionBytes nowMs
    if count = 0 then ([], p, fs)
    else
      let outDeleted := (p.segments.take count).map candidate
      if dryRun then (outDeleted, p, fs)
      else
        let fs := outDeleted.foldl (fun fs c => removeFiles fs c.baseOffset) fs
        (outDeleted, { p with segments := p.segments.drop count }, fs.exec .flushDir)

end Partition

end StreamForge
