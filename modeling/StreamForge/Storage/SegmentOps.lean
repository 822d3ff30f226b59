import StreamForge.Storage.Layout

/-!
# What the segment operations do

One lemma for each operation of `LogSegment` when nothing fails: the state it
returns and the list of file operations it issues. Everything about kills and
restarts is derived from these lists; the bodies are not unfolded again.
-/

namespace StreamForge

open FileTrace FileHandle

/-! ## Lookups after a list of operations -/

theorem content_execAll (fs : FileSystem) (ops : List (FileOp FileName)) (f : FileName) :
    content (fs.execAll ops) f = ((applyAll fs.dir ops).lookup f).getD [] := rfl

theorem write_none (fs : FileSystem) (f : FileName) (bs : Bytes) :
    write fs f bs none = (true, fs.execAll [.append f bs]) := by
  simp [write, Fs.exec_eq_execAll]

namespace LogSegment

def openOps (seg : LogSegment) : List (FileOp FileName) :=
  [.create seg.logFile, .create seg.indexFile]

theorem lookup_openOps (seg : LogSegment) (d : Disk) (f : FileName) :
    (applyAll d seg.openOps).lookup f =
      if f = seg.indexFile ∨ f = seg.logFile then some ((d.lookup f).getD []) else d.lookup f := by
  have hne : seg.indexFile ≠ seg.logFile := by simp [indexFile, logFile]
  simp only [openOps, applyAll_cons, applyAll_nil, lookup_create]
  by_cases hi : f = seg.indexFile
  · subst hi
    simp [hne]
  · by_cases hl : f = seg.logFile
    · subst hl
      simp [Ne.symm hne]
    · simp [hi, hl]

theorem index_exists_after_open (seg : LogSegment) (d : Disk) :
    (applyAll d seg.openOps).lookup seg.indexFile ≠ none := by
  rw [lookup_openOps, if_pos (Or.inl rfl)]
  simp

def opened (seg : LogSegment) (d : Disk) : LogSegment :=
  let logSize := u32 ((d.lookup seg.logFile).getD []).length
  let entries := OffsetIndex.loadEntries ((d.lookup seg.indexFile).getD [])
  { seg with
    logSizeBytes := logSize
    index := entries
    bytesSinceLastIndex := bytesSinceOnOpen entries logSize }

def withMarker (seg : LogSegment) (marker : SealedMarker) : LogSegment :=
  { seg with
    recordCount := marker.recordCount
    lastOffset := marker.lastOffset
    maxTimestampMs := marker.maxTimestampMs
    isSealed := true }

theorem openFiles_eq (seg : LogSegment) (fs : FileSystem) :
    seg.openFiles {} fs =
      match (seg.opened fs.dir).readSealedMarker (fs.execAll seg.openOps) with
      | .error _ => (.OK, seg.opened fs.dir, fs.execAll seg.openOps)
      | .ok marker => (.OK, (seg.opened fs.dir).withMarker marker, fs.execAll seg.openOps) := by
  have hlog : content (fs.execAll seg.openOps) seg.logFile =
      (fs.dir.lookup seg.logFile).getD [] := by
    rw [content_execAll, lookup_openOps, if_pos (Or.inr rfl)]
    rfl
  have hindex : content (fs.execAll seg.openOps) seg.indexFile =
      (fs.dir.lookup seg.indexFile).getD [] := by
    rw [content_execAll, lookup_openOps, if_pos (Or.inl rfl)]
    rfl
  have hfs : (fs.exec (.create seg.logFile)).exec (.create seg.indexFile) =
      fs.execAll seg.openOps := by
    rw [Fs.exec_eq_execAll, Fs.exec_eq_execAll, Fs.execAll_execAll]
    rfl
  unfold openFiles
  simp only [hfs, hlog, hindex, Bool.false_eq_true, if_false, Bool.false_and]
  rfl

theorem openFiles_unsealed (seg : LogSegment) (fs : FileSystem)
    (hsealed : fs.dir.lookup seg.sealedFile = none) :
    seg.openFiles {} fs = (.OK, seg.opened fs.dir, fs.execAll seg.openOps) := by
  have hmarker : (fs.execAll seg.openOps).dir.lookup (seg.opened fs.dir).sealedFile = none := by
    have hfile : (seg.opened fs.dir).sealedFile = seg.sealedFile := rfl
    rw [hfile, Fs.execAll_dir, lookup_openOps,
      if_neg (by simp [sealedFile, indexFile, logFile]), hsealed]
  rw [openFiles_eq]
  unfold readSealedMarker
  rw [hmarker]

/-- A marker changes the flag and three counters, never the index or the size. -/
theorem openFiles_spec (seg : LogSegment) (fs : FileSystem) :
    ∃ seg', seg.openFiles {} fs = (.OK, seg', fs.execAll seg.openOps) ∧
      seg'.baseOffset = seg.baseOffset ∧ seg'.indexIntervalBytes = seg.indexIntervalBytes ∧
      seg'.logSizeBytes = u32 ((fs.dir.lookup seg.logFile).getD []).length ∧
      seg'.index = OffsetIndex.loadEntries ((fs.dir.lookup seg.indexFile).getD []) := by
  rw [openFiles_eq]
  split
  · exact ⟨_, rfl, rfl, rfl, rfl, rfl⟩
  · exact ⟨_, rfl, rfl, rfl, rfl, rfl⟩

/-! ## Markers and flushes -/

def flushOps (seg : LogSegment) : List (FileOp FileName) :=
  [.flush seg.logFile, .flush seg.indexFile]

theorem flush_eq (seg : LogSegment) (fs : FileSystem) : seg.flush fs = fs.execAll seg.flushOps := by
  simp only [flush, flushOps, Fs.exec_eq_execAll, Fs.execAll_execAll]
  rfl

def marker (seg : LogSegment) : SealedMarker where
  magic := sealedMagic
  recordCount := seg.recordCount
  lastOffset := seg.lastOffset
  crc32OfWholeLog := Crc32.finalize seg.runningCrcRaw
  maxTimestampMs := seg.maxTimestampMs

def markerOps (seg : LogSegment) : List (FileOp FileName) :=
  [.create seg.sealedFile, .append seg.sealedFile seg.marker.bytes, .flush seg.sealedFile]

theorem writeSealedMarker_eq (seg : LogSegment) (fs : FileSystem) :
    seg.writeSealedMarker {} fs = (.OK, fs.execAll seg.markerOps) := by
  unfold writeSealedMarker
  simp only [Bool.false_eq_true, if_false, write_none, Fs.exec_eq_execAll, Fs.execAll_execAll]
  rfl

theorem lookup_markerOps (seg : LogSegment) (d : Disk) {f : FileName} (hf : f ≠ seg.sealedFile) :
    (applyAll d seg.markerOps).lookup f = d.lookup f := by
  simp only [markerOps, applyAll_cons, applyAll_nil, apply_flush, lookup_append, lookup_create,
    if_neg hf]

/-! ## Appending -/

def newEntry (seg : LogSegment) (record : Record) : IndexEntry :=
  ⟨seg.relOffset record.offset, seg.logSizeBytes⟩

def appended (seg : LogSegment) (record : Record) : LogSegment :=
  let encoded := RecordCodec.encode record
  let written := seg.recordWritten record encoded
  if seg.indexDue then
    { written with index := seg.index ++ [seg.newEntry record], bytesSinceLastIndex := 0 }
  else { written with bytesSinceLastIndex := u32 (seg.bytesSinceLastIndex + u32 encoded.length) }

theorem appended_runningCrcRaw (seg : LogSegment) (r : Record) :
    (seg.appended r).runningCrcRaw = Crc32.update seg.runningCrcRaw (RecordCodec.encode r) := by
  unfold appended
  split <;> simp only [recordWritten]

def indexOps (seg : LogSegment) (record : Record) : List (FileOp FileName) :=
  if seg.indexDue then
    [.append seg.indexFile (OffsetIndex.encodeEntry (seg.newEntry record))]
  else []

/-- The log write, the index write if one is due, and the flush if asked for. -/
def appendOps (seg : LogSegment) (record : Record) (sync : Bool) : List (FileOp FileName) :=
  .append seg.logFile (RecordCodec.encode record) ::
    (seg.indexOps record ++ if sync then seg.flushOps else [])

theorem appendWithTimestamp_eq (seg : LogSegment) (record : Record) (sync : Bool)
    (fs : FileSystem) (hsealed : seg.isSealed = false) (hfits : record.Fits) :
    seg.appendWithTimestamp record record.timestampMs sync {} fs =
      (.OK, seg.appended record, fs.execAll (seg.appendOps record sync)) := by
  have hsize : ¬(RecordCodec.encode record).length > maxRecordSize := by
    rw [RecordCodec.length_encode_of_fits hfits]
    exact Nat.not_lt.mpr hfits
  unfold appendWithTimestamp
  rw [hsealed, if_neg Bool.false_ne_true]
  simp only [write_none]
  rw [if_neg hsize]
  by_cases hdue : seg.indexDue = true
  · -- the index entry is written as well
    cases sync <;>
      simp [hdue, appended, appendOps, indexOps, newEntry, flush_eq, Fs.execAll_execAll,
        recordWritten, relOffset, indexFile, flushOps, logFile]
  · have hdue' : seg.indexDue = false := by simpa using hdue
    cases sync <;>
      simp [hdue', appended, appendOps, indexOps, flush_eq, Fs.execAll_execAll, recordWritten,
        indexFile, flushOps, logFile]

@[simp] theorem appended_baseOffset (seg : LogSegment) (record : Record) :
    (seg.appended record).baseOffset = seg.baseOffset := by
  unfold appended
  split <;> rfl

@[simp] theorem appended_isSealed (seg : LogSegment) (record : Record) :
    (seg.appended record).isSealed = seg.isSealed := by
  unfold appended
  split <;> rfl

theorem appended_logSizeBytes (seg : LogSegment) (record : Record) :
    (seg.appended record).logSizeBytes =
      u32 (seg.logSizeBytes + u32 (RecordCodec.encode record).length) := by
  unfold appended
  split <;> rfl

theorem appended_index (seg : LogSegment) (record : Record) :
    (seg.appended record).index =
      if seg.indexDue then seg.index ++ [seg.newEntry record] else seg.index := by
  unfold appended
  split <;> simp_all [recordWritten]

def adoptOps (seg : LogSegment) (s : ScanState) (logSize : ℕ) : List (FileOp FileName) :=
  (if s.currentPos < logSize then [.truncate seg.logFile s.currentPos] else []) ++
    .truncate seg.indexFile 0 ::
      if s.index.isEmpty then [] else [.append seg.indexFile (OffsetIndex.encodeEntries s.index)]

theorem adoptScan_fs (seg : LogSegment) (s : ScanState) (fs : FileSystem) :
    (seg.adoptScan s fs).2 = fs.execAll (seg.adoptOps s (u32 (content fs seg.logFile).length)) := by
  unfold adoptScan adoptOps rewriteFile
  by_cases hcut : s.currentPos < u32 (content fs seg.logFile).length <;>
    by_cases hempty : s.index.isEmpty = true <;>
    simp [hcut, hempty, Fs.exec_eq_execAll, Fs.execAll_execAll]

end LogSegment

end StreamForge
