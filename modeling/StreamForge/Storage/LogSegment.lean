import StreamForge.Foundation.FileTrace
import StreamForge.Storage.OffsetIndex

/-!
# Log segments

`LogSegment` and the part of `FileHandle` it uses. A segment is three files of
the partition directory: `<base>.log`, `<base>.index` and, once the segment is
closed, `<base>.sealed`. The operations take the file system they run on and
return it with the operations they issued appended to its trace.

Writes always go to the physical end of a file, while the position of a record
is taken from the in-memory size; nothing here assumes the two agree.
-/

namespace StreamForge

open FileTrace

/-! ## Files -/

inductive FileKind where
  | log
  | index
  | sealed
deriving DecidableEq

/-- `<base>.<kind>`, the base printed with twenty digits by
`format_base_offset`. Both directions of that spelling are exact for 64-bit
offsets, so a file is named by the pair. -/
structure FileName where
  base : UInt64
  kind : FileKind
deriving DecidableEq

abbrev Disk := Dir FileName
abbrev FileSystem := Fs FileName

/-- What the environment does to the I/O of one record's append. An `open` can
fail; a write can stop after `some k` bytes. The default is no failure. -/
structure Faults where
  openLog : Bool := false
  openIndex : Bool := false
  loadIndex : Bool := false
  openSealed : Bool := false
  sealedWrite : Option ℕ := none
  logWrite : Option ℕ := none
  indexWrite : Option ℕ := none
deriving DecidableEq

namespace FileHandle

def content (fs : FileSystem) (f : FileName) : Bytes := (fs.dir.lookup f).getD []

/-- `FileHandle::write`: append, and succeed when everything was written. -/
def write (fs : FileSystem) (f : FileName) (bytes : Bytes) (limit : Option ℕ) : Bool × FileSystem :=
  let written := match limit with
    | none => bytes
    | some k => bytes.take k
  (written.length == bytes.length, fs.exec (.append f written))

/-- `FileHandle::read_at` on the bytes of a file: all or nothing. -/
def readAt (file : Bytes) (fileOffset size : ℕ) : Option Bytes :=
  if fileOffset + size ≤ file.length then some ((file.drop fileOffset).take size) else none

end FileHandle

open FileHandle

/-! ## The segment in memory -/

structure LogSegment where
  baseOffset : UInt64
  partitionDir : Bytes
  indexIntervalBytes : UInt32
  index : List IndexEntry := []
  logSizeBytes : ℕ := 0
  bytesSinceLastIndex : ℕ := 0
  isSealed : Bool := false
  runningCrcRaw : UInt32 := Crc32.initialCrc
  recordCount : UInt64 := 0
  lastOffset : UInt64 := 0
  maxTimestampMs : Int64 := 0

/-- The `.sealed` sidecar. -/
structure SealedMarker where
  magic : ℕ
  recordCount : UInt64
  lastOffset : UInt64
  crc32OfWholeLog : UInt32
  maxTimestampMs : Int64

def sealedMagic : ℕ := 0x5346534C

/-- The packed struct is written as it lies in memory: little-endian. -/
def SealedMarker.bytes (m : SealedMarker) : Bytes :=
  (BigEndian.toBE 4 m.magic).reverse ++ (BigEndian.toBE 8 m.recordCount.toNat).reverse ++
    (BigEndian.toBE 8 m.lastOffset.toNat).reverse ++
    (BigEndian.toBE 4 m.crc32OfWholeLog.toNat).reverse ++
    (BigEndian.toBE 8 m.maxTimestampMs.toUInt64.toNat).reverse

def SealedMarker.ofBytes (bs : Bytes) : SealedMarker where
  magic := BigEndian.ofBE (bs.take 4).reverse
  recordCount := UInt64.ofNat (BigEndian.ofBE ((bs.drop 4).take 8).reverse)
  lastOffset := UInt64.ofNat (BigEndian.ofBE ((bs.drop 12).take 8).reverse)
  crc32OfWholeLog := UInt32.ofNat (BigEndian.ofBE ((bs.drop 20).take 4).reverse)
  maxTimestampMs := (UInt64.ofNat (BigEndian.ofBE ((bs.drop 24).take 8).reverse)).toInt64

/-- `sizeof(SealedMarker)`. -/
def sealedMarkerSize : ℕ := 32

namespace LogSegment

def formatBaseOffset (baseOffset : UInt64) : Bytes :=
  let digits := toString baseOffset.toNat
  List.replicate (20 - digits.length) 48 ++ digits

def path (seg : LogSegment) (extension : String) : Bytes :=
  seg.partitionDir ++ ascii "\\" ++ formatBaseOffset seg.baseOffset ++ ascii extension

def logFile (seg : LogSegment) : FileName := ⟨seg.baseOffset, .log⟩
def indexFile (seg : LogSegment) : FileName := ⟨seg.baseOffset, .index⟩
def sealedFile (seg : LogSegment) : FileName := ⟨seg.baseOffset, .sealed⟩

def hasSealedMarker (seg : LogSegment) (fs : FileSystem) : Bool :=
  (fs.dir.lookup seg.sealedFile).isSome

def writeSealedMarker (seg : LogSegment) (ft : Faults) (fs : FileSystem) : Status × FileSystem :=
  if ft.openSealed then
    (.ioError (ascii "Failed to open sealed marker file: " ++ seg.path ".sealed"), fs)
  else
    let fs := fs.exec (.create seg.sealedFile)
    let marker : SealedMarker := {
      magic := sealedMagic
      recordCount := seg.recordCount
      lastOffset := seg.lastOffset
      crc32OfWholeLog := Crc32.finalize seg.runningCrcRaw
      maxTimestampMs := seg.maxTimestampMs }
    match write fs seg.sealedFile marker.bytes ft.sealedWrite with
    | (false, fs) => (.ioError (ascii "Failed to write sealed marker to file"), fs)
    | (true, fs) => (.OK, fs.exec (.flush seg.sealedFile))

/-- A marker shorter than the struct is refused by `read_at`. -/
def readSealedMarker (seg : LogSegment) (fs : FileSystem) : Except Status SealedMarker :=
  match fs.dir.lookup seg.sealedFile with
  | none => .error (.notFound (ascii "Sealed marker file not found: " ++ seg.path ".sealed"))
  | some file =>
    match readAt file 0 sealedMarkerSize with
    | none => .error (.corrupt (ascii "Sealed marker file corrupted or incomplete: " ++
        seg.path ".sealed"))
    | some bs =>
      if (SealedMarker.ofBytes bs).magic ≠ sealedMagic then
        .error (.corrupt (ascii "Invalid sealed marker magic header in " ++ seg.path ".sealed"))
      else .ok (SealedMarker.ofBytes bs)

/-- The bytes the index does not cover yet, as `open` estimates them. -/
def bytesSinceOnOpen (index : List IndexEntry) (logSizeBytes : ℕ) : ℕ :=
  match index.getLast? with
  | none => logSizeBytes
  | some e => if e.filePosition ≤ logSizeBytes then logSizeBytes - e.filePosition else 0

/-- `LogSegment::open`. -/
def openFiles (seg : LogSegment) (ft : Faults) (fs : FileSystem) :
    Status × LogSegment × FileSystem :=
  if ft.openLog then
    (.ioError (ascii "Failed to open log file: " ++ seg.path ".log"), seg, fs)
  else
    let fs := fs.exec (.create seg.logFile)
    if ft.openIndex then
      (.ioError (ascii "Failed to open index file: " ++ seg.path ".index"), seg, fs)
    else
      let fs := fs.exec (.create seg.indexFile)
      let logSize := u32 (content fs seg.logFile).length
      -- an empty index file is accepted without being read
      if ft.loadIndex && (content fs seg.indexFile).length != 0 then
        (.ioError (ascii "Failed to load index file: " ++ seg.path ".index"),
          { seg with logSizeBytes := logSize, index := [] }, fs)
      else
        let entries := OffsetIndex.loadEntries (content fs seg.indexFile)
        let seg := { seg with
          logSizeBytes := logSize
          index := entries
          bytesSinceLastIndex := bytesSinceOnOpen entries logSize }
        match seg.readSealedMarker fs with
        | .error _ => (.OK, seg, fs)
        | .ok marker => (.OK, { seg with
            recordCount := marker.recordCount
            lastOffset := marker.lastOffset
            maxTimestampMs := marker.maxTimestampMs
            isSealed := true }, fs)

def flush (seg : LogSegment) (fs : FileSystem) : FileSystem :=
  (fs.exec (.flush seg.logFile)).exec (.flush seg.indexFile)

/-- `LogSegment::seal`. -/
def sealSegment (seg : LogSegment) (fs : FileSystem) : LogSegment × FileSystem :=
  ({ seg with isSealed := true }, seg.flush fs)

/-! ## Appending -/

/-- `static_cast<uint32_t>(record.offset - m_base_offset)`. -/
def relOffset (seg : LogSegment) (offset : UInt64) : ℕ := u32 (offset - seg.baseOffset).toNat

def indexDue (seg : LogSegment) : Bool :=
  seg.index.isEmpty || decide (seg.indexIntervalBytes.toNat ≤ seg.bytesSinceLastIndex)

def recordWritten (seg : LogSegment) (record : Record) (encoded : Bytes) : LogSegment :=
  { seg with
    logSizeBytes := u32 (seg.logSizeBytes + u32 encoded.length)
    runningCrcRaw := Crc32.update seg.runningCrcRaw encoded
    recordCount := seg.recordCount + 1
    lastOffset := record.offset
    maxTimestampMs := if seg.maxTimestampMs < record.timestampMs then record.timestampMs
      else seg.maxTimestampMs }

def appendWithTimestamp (seg : LogSegment) (record : Record) (customTs : Int64)
    (syncOnAppend : Bool) (ft : Faults) (fs : FileSystem) : Status × LogSegment × FileSystem :=
  if seg.isSealed then
    (.ioError (ascii "Cannot append to a sealed log segment"), seg, fs)
  else
    let record := { record with timestampMs := customTs }
    let encoded := RecordCodec.encode record
    if encoded.length > maxRecordSize then
      (.recordTooLarge (ascii "Record size " ++ toString encoded.length ++
        ascii " exceeds 1 MiB limit"), seg, fs)
    else
      let recordPos := seg.logSizeBytes
      match write fs seg.logFile encoded ft.logWrite with
      | (false, fs) => (.ioError (ascii "Failed to write record to log file"), seg, fs)
      | (true, fs) =>
        let due := seg.indexDue
        let seg := seg.recordWritten record encoded
        if due then
          -- the entry is in memory before its write is known to have succeeded
          let entry : IndexEntry := ⟨seg.relOffset record.offset, recordPos⟩
          let seg := { seg with index := seg.index ++ [entry] }
          match write fs seg.indexFile (OffsetIndex.encodeEntry entry) ft.indexWrite with
          | (false, fs) => (.ioError (ascii "Failed to append index entry"), seg, fs)
          | (true, fs) =>
            let seg := { seg with bytesSinceLastIndex := 0 }
            (.OK, seg, if syncOnAppend then seg.flush fs else fs)
        else
          let seg := { seg with
            bytesSinceLastIndex := u32 (seg.bytesSinceLastIndex + u32 encoded.length) }
          (.OK, seg, if syncOnAppend then seg.flush fs else fs)

def append (seg : LogSegment) (record : Record) (syncOnAppend : Bool) (ft : Faults)
    (fs : FileSystem) : Status × LogSegment × FileSystem :=
  seg.appendWithTimestamp record record.timestampMs syncOnAppend ft fs

def readRecordAt (seg : LogSegment) (fs : FileSystem) (filePosition : ℕ) : Except Status Record :=
  if filePosition ≥ seg.logSizeBytes then
    .error (.offsetOutOfRange (ascii "File position beyond log size"))
  else
    match readAt (content fs seg.logFile) filePosition 28 with
    | none => .error (.corrupt (ascii "Failed to read record header at position " ++
        toString filePosition))
    | some header =>
      let length := readU32 header
      if length < 24 || length > maxRecordSize then
        .error (.corrupt (ascii "Invalid record length (" ++ toString length ++
          ascii ") at position " ++ toString filePosition))
      else
        match readAt (content fs seg.logFile) filePosition (u32 (4 + length)) with
        | none => .error (.corrupt (ascii "Failed to read complete record buffer at position " ++
            toString filePosition))
        | some buffer => RecordCodec.decode buffer

def lookupFilePosition (seg : LogSegment) (targetOffset : UInt64) : ℕ :=
  if targetOffset ≤ seg.baseOffset then 0
  else OffsetIndex.lookup seg.index (seg.relOffset targetOffset)

end LogSegment

/-! ## Scanning a log

`recover_and_rebuild_index` and `verify_and_rebuild_full` run the same loop
over the log; they differ in what they report. -/

structure ScanState where
  currentPos : ℕ := 0
  bytesSinceIdx : ℕ := 0
  index : List IndexEntry := []
  runningCrcRaw : UInt32 := Crc32.initialCrc
  recordCount : UInt64 := 0
  lastOffset : UInt64
  maxTimestampMs : Int64 := 0
  nextOffset : UInt64
  bytesScanned : UInt64 := 0

def ScanState.accept (s : ScanState) (base : UInt64) (interval : UInt32) (record : Record)
    (buf : Bytes) : ScanState :=
  let due := s.index.isEmpty || decide (interval.toNat ≤ s.bytesSinceIdx)
  { currentPos := u32 (s.currentPos + u32 buf.length)
    bytesSinceIdx := u32 ((if due then 0 else s.bytesSinceIdx) + u32 buf.length)
    index := if due then s.index ++ [⟨u32 (record.offset - base).toNat, s.currentPos⟩]
      else s.index
    runningCrcRaw := Crc32.update s.runningCrcRaw buf
    recordCount := s.recordCount + 1
    lastOffset := record.offset
    maxTimestampMs := if s.maxTimestampMs < record.timestampMs then record.timestampMs
      else s.maxTimestampMs
    nextOffset := record.offset + 1
    bytesScanned := s.bytesScanned + UInt64.ofNat (u32 buf.length) }

/-- One round: `none` where the source breaks out of the loop. -/
def scanStep (file : Bytes) (logSize : ℕ) (base : UInt64) (interval : UInt32) (s : ScanState) :
    Option ScanState :=
  if u32 (s.currentPos + 28) > logSize then none
  else
    match readAt file s.currentPos 28 with
    | none => none
    | some header =>
      let length := readU32 header
      if length < 24 || length > maxRecordSize then none
      else if u32 (s.currentPos + u32 (4 + length)) > logSize then none
      else
        match readAt file s.currentPos (u32 (4 + length)) with
        | none => none
        | some buf =>
          match RecordCodec.decode buf with
          | .error _ => none
          | .ok record => some (s.accept base interval record buf)

/-- The loop, and whether it was left by a `break`. Every round consumes at
least 28 bytes, so the log size is enough fuel. -/
def scanLoop (file : Bytes) (logSize : ℕ) (base : UInt64) (interval : UInt32) :
    ℕ → ScanState → ScanState × Bool
  | 0, s => (s, false)
  | fuel + 1, s =>
    if s.currentPos < logSize then
      match scanStep file logSize base interval s with
      | none => (s, true)
      | some s' => scanLoop file logSize base interval fuel s'
    else (s, false)

namespace LogSegment

def scan (seg : LogSegment) (fs : FileSystem) : ScanState × Bool :=
  let file := content fs seg.logFile
  scanLoop file (u32 file.length) seg.baseOffset seg.indexIntervalBytes (file.length + 1)
    { lastOffset := seg.baseOffset, nextOffset := seg.baseOffset }

def rewriteFile (fs : FileSystem) (f : FileName) (entries : List IndexEntry) : FileSystem :=
  let fs := fs.exec (.truncate f 0)
  if entries.isEmpty then fs else fs.exec (.append f (OffsetIndex.encodeEntries entries))

/-- The common end of both scans: cut the log at the last good record, take
over the counters, rewrite the index. -/
def adoptScan (seg : LogSegment) (s : ScanState) (fs : FileSystem) : LogSegment × FileSystem :=
  let logSize := u32 (content fs seg.logFile).length
  let fs := if s.currentPos < logSize then fs.exec (.truncate seg.logFile s.currentPos) else fs
  ({ seg with
      index := s.index
      logSizeBytes := if s.currentPos < logSize then s.currentPos else logSize
      bytesSinceLastIndex := s.bytesSinceIdx
      runningCrcRaw := s.runningCrcRaw
      recordCount := s.recordCount
      lastOffset := s.lastOffset
      maxTimestampMs := s.maxTimestampMs },
    rewriteFile fs seg.indexFile s.index)

/-- Returns `out_next_offset` besides the status. -/
def recoverAndRebuildIndex (seg : LogSegment) (fs : FileSystem) :
    Status × UInt64 × LogSegment × FileSystem :=
  let s := (seg.scan fs).1
  let (seg, fs) := seg.adoptScan s fs
  (.OK, s.nextOffset, seg, fs)

/-- The three out-parameters of `verify_and_rebuild_full`, which its caller
passes in as zero. A `break` counts as one corruption; the records validated
are the ones counted. -/
structure FullScanReport where
  bytesScanned : UInt64
  recordsValidated : UInt64
  corruptionCount : UInt64

def verifyAndRebuildFull (seg : LogSegment) (fs : FileSystem) :
    Status × FullScanReport × LogSegment × FileSystem :=
  let (s, broke) := seg.scan fs
  let (seg, fs) := seg.adoptScan s fs
  (.OK, ⟨s.bytesScanned, s.recordCount, if broke then 1 else 0⟩, seg, fs)

/-- Where `verify_quick` looks for the last record. -/
def quickLastPos (seg : LogSegment) : ℕ :=
  if seg.baseOffset ≤ seg.lastOffset && decide (0 < seg.recordCount) then
    seg.lookupFilePosition seg.lastOffset
  else
    match seg.index.getLast? with
    | none => 0
    | some e => e.filePosition

/-- `verify_quick`: the value it leaves in `out_valid`. -/
def verifyQuick (seg : LogSegment) (fs : FileSystem) : Bool :=
  if seg.logSizeBytes = 0 then true
  else if seg.logSizeBytes < 28 then false
  else if seg.index.any (fun e => decide (seg.logSizeBytes ≤ e.filePosition)) then false
  else
    match seg.readRecordAt fs 0 with
    | .error _ => false
    | .ok _ =>
      if seg.quickLastPos < seg.logSizeBytes then
        match seg.readRecordAt fs seg.quickLastPos with
        | .error _ => false
        | .ok _ => true
      else true

end LogSegment

end StreamForge
