import StreamForge.Storage.Recovery

/-!
# Recovery of one segment, from any bytes

`recover_and_rebuild_index` and `verify_and_rebuild_full` on a log file with any
content below 4 GiB. Both keep the longest beginning of the file that splits into
valid blocks, take their counters from it, and find nothing more to do when they
are run again (`KeepsBlocks`).

The loops call `RecordCodec::decode` on every block, so what they do is only
defined while `decode` stays inside the buffer it is given. `decodeCalls` lists
those buffers; a block whose key length wraps is where it does not
(`recoversExactly_iff`).
-/

namespace StreamForge

open FileTrace FileHandle

def Splits (log : Bytes) : Prop :=
  ∃ bs : List Block, (∀ b ∈ bs, b.Valid) ∧ log = bs.flatMap Block.bytes

structure LongestValid (log kept : Bytes) : Prop where
  front : kept <+: log
  splits : Splits kept
  longest : ∀ p, p <+: log → Splits p → p <+: kept

theorem longestValid_keptOf (log : Bytes) : LongestValid log (keptOf log) where
  front := ⟨cutOf log, kept_append_cut log⟩
  splits := ⟨blocksOf log, valid_of_mem_blocksOf log, rfl⟩
  longest := by
    rintro p ⟨rest, rfl⟩ ⟨bs, hbs, rfl⟩
    rw [keptOf, blocksOf_flatMap_append hbs rest, List.flatMap_append]
    exact List.prefix_append _ _

/-! ## The second loop -/

/-- The variables of the loop of `verify_and_rebuild_full`. -/
structure FullScanState where
  currentPos : ℕ := 0
  bytesSinceIdx : ℕ := 0
  index : List IndexEntry := []
  runningCrcRaw : UInt32 := Crc32.initialCrc
  recordCount : UInt64 := 0
  lastOffset : UInt64
  maxTimestampMs : Int64 := 0
  bytesScanned : UInt64 := 0
  recordsValidated : UInt64 := 0
  corruptionCount : UInt64 := 0

/-- The loop as `verify_and_rebuild_full` has it: every `break` counts a
corruption, every record is counted twice. -/
def fullScanLoop (file : Bytes) (logSize : ℕ) (base : UInt64) (interval : UInt32) :
    ℕ → FullScanState → FullScanState
  | 0, s => s
  | fuel + 1, s =>
    if s.currentPos < logSize then
      let corrupt := { s with corruptionCount := s.corruptionCount + 1 }
      if u32 (s.currentPos + 28) > logSize then corrupt
      else
        match readAt file s.currentPos 28 with
        | none => corrupt
        | some header =>
          let length := readU32 header
          if length < 24 || length > maxRecordSize then corrupt
          else
            let totalSize := u32 (4 + length)
            if u32 (s.currentPos + totalSize) > logSize then corrupt
            else
              match readAt file s.currentPos totalSize with
              | none => corrupt
              | some buf =>
                match RecordCodec.decode buf with
                | .error _ => corrupt
                | .ok record =>
                  let relOffset := u32 (record.offset - base).toNat
                  let due := s.index.isEmpty || decide (interval.toNat ≤ s.bytesSinceIdx)
                  fullScanLoop file logSize base interval fuel { s with
                    index := if due then s.index ++ [⟨relOffset, s.currentPos⟩] else s.index
                    runningCrcRaw := Crc32.update s.runningCrcRaw buf
                    recordCount := s.recordCount + 1
                    lastOffset := record.offset
                    maxTimestampMs := if s.maxTimestampMs < record.timestampMs then
                      record.timestampMs else s.maxTimestampMs
                    bytesSinceIdx := u32 ((if due then 0 else s.bytesSinceIdx) + u32 buf.length)
                    recordsValidated := s.recordsValidated + 1
                    bytesScanned := s.bytesScanned + UInt64.ofNat (u32 buf.length)
                    currentPos := u32 (s.currentPos + u32 buf.length) }
    else s

/-- The scan of `verify_and_rebuild_full`. -/
def LogSegment.fullScan (seg : LogSegment) (fs : FileSystem) : FullScanState :=
  let file := content fs seg.logFile
  fullScanLoop file (u32 file.length) seg.baseOffset seg.indexIntervalBytes (file.length + 1)
    { lastOffset := seg.baseOffset }

/-- The state of the second loop that goes with a state of the first. -/
def FullScanState.of (s : ScanState) (corruptionCount : UInt64) : FullScanState where
  currentPos := s.currentPos
  bytesSinceIdx := s.bytesSinceIdx
  index := s.index
  runningCrcRaw := s.runningCrcRaw
  recordCount := s.recordCount
  lastOffset := s.lastOffset
  maxTimestampMs := s.maxTimestampMs
  bytesScanned := s.bytesScanned
  recordsValidated := s.recordCount
  corruptionCount := corruptionCount

/-- **The two loops agree**, step by step. -/
theorem fullScanLoop_eq (file : Bytes) (logSize : ℕ) (base : UInt64) (interval : UInt32)
    (fuel : ℕ) : ∀ (s : ScanState), fullScanLoop file logSize base interval fuel (.of s 0) =
      .of (scanLoop file logSize base interval fuel s).1
        (if (scanLoop file logSize base interval fuel s).2 then 1 else 0) := by
  induction fuel with
  | zero =>
    intro s
    rfl
  | succ fuel ih =>
    intro s
    rw [fullScanLoop, scanLoop]
    by_cases hmore : s.currentPos < logSize
    · have hmore' : (FullScanState.of s 0).currentPos < logSize := hmore
      have hpos : (FullScanState.of s 0).currentPos = s.currentPos := rfl
      rw [if_pos hmore', if_pos hmore]
      unfold scanStep
      rw [hpos]
      split
      · rfl
      cases readAt file s.currentPos 28 with
      | none => rfl
      | some header =>
        dsimp only
        split
        · rfl
        split
        · rfl
        cases readAt file s.currentPos (u32 (4 + readU32 header)) with
        | none => rfl
        | some buf =>
          have hcases : (∃ st, RecordCodec.decode buf = .error st) ∨
              ∃ record, RecordCodec.decode buf = .ok record := by
            cases RecordCodec.decode buf <;> simp
          rcases hcases with ⟨st, hdecode⟩ | ⟨record, hdecode⟩
          · simp only [hdecode]
            rfl
          · simp only [hdecode]
            exact ih (s.accept base interval record buf)
    · have hmore' : ¬(FullScanState.of s 0).currentPos < logSize := hmore
      rw [if_neg hmore', if_neg hmore]
      rfl

theorem LogSegment.fullScan_eq (seg : LogSegment) (fs : FileSystem) :
    seg.fullScan fs = .of (seg.scan fs).1 (if (seg.scan fs).2 then 1 else 0) :=
  fullScanLoop_eq _ _ _ _ _ (ScanState.start seg.baseOffset)

/-! ## Calls of `decode` -/

def decodeCallsFrom (file : Bytes) (logSize : ℕ) (base : UInt64) (interval : UInt32) :
    ℕ → ScanState → List Bytes
  | 0, _ => []
  | fuel + 1, s =>
    if s.currentPos < logSize then
      (decodeCall file logSize s).toList ++
        match scanStep file logSize base interval s with
        | none => []
        | some s' => decodeCallsFrom file logSize base interval fuel s'
    else []

/-- The buffers a scan of the segment hands to `decode`. -/
def LogSegment.decodeCalls (seg : LogSegment) (fs : FileSystem) : List Bytes :=
  let file := content fs seg.logFile
  decodeCallsFrom file (u32 file.length) seg.baseOffset seg.indexIntervalBytes (file.length + 1)
    (.start seg.baseOffset)

section Calls

variable {file : Bytes} {base : UInt64} {interval : UInt32} {s : ScanState}

/-- **The calls of a scan**: one for every block, and perhaps one that is
refused. -/
theorem mem_decodeCallsFrom (hlen : file.length < 2 ^ 32) (fuel : ℕ) : ∀ s : ScanState,
    s.currentPos ≤ file.length → file.length - s.currentPos < fuel →
    (∀ b ∈ blocksOf (file.drop s.currentPos),
      b.bytes ∈ decodeCallsFrom file file.length base interval fuel s) ∧
    ∀ buf ∈ decodeCallsFrom file file.length base interval fuel s,
      (∃ b ∈ blocksOf (file.drop s.currentPos), b.bytes = buf) ∨
        ∃ st, RecordCodec.decode buf = .error st := by
  induction fuel with
  | zero =>
    intro s _ hfuel
    exact absurd hfuel (Nat.not_lt_zero _)
  | succ fuel ih =>
    intro s hpos hfuel
    rw [decodeCallsFrom]
    by_cases hmore : s.currentPos < file.length
    · rw [if_pos hmore]
      by_cases hitem : ∃ b rest, nextBlock (file.drop s.currentPos) = .item b rest
      · obtain ⟨b, rest, hnext⟩ := hitem
        obtain ⟨hahead, hinside, hrest⟩ := accept_of_item base interval hlen hnext
        have hih := ih (s.accept base interval b.record b.bytes) hinside (by omega)
        rw [hrest] at hih
        rw [scanStep_of_item hlen hnext, decodeCall_of_item hlen hnext, (blocksOf_of_item hnext).1]
        refine ⟨?_, ?_⟩
        · intro x hx
          rcases List.mem_cons.mp hx with rfl | hx
          · simp
          · exact List.mem_append_right _ (hih.1 x hx)
        · intro buf hbuf
          rcases List.mem_append.mp hbuf with hbuf | hbuf
          · exact Or.inl ⟨b, by simp, by simpa [eq_comm] using hbuf⟩
          · rcases hih.2 buf hbuf with ⟨x, hx, rfl⟩ | herr
            · exact Or.inl ⟨x, List.mem_cons_of_mem _ hx, rfl⟩
            · exact Or.inr herr
      · have hnone : ∀ b rest, nextBlock (file.drop s.currentPos) ≠ .item b rest :=
          fun b rest h => hitem ⟨b, rest, h⟩
        rw [scanStep_of_no_item hnone, (blocksOf_of_no_item hnone).1, List.append_nil]
        refine ⟨by simp, ?_⟩
        intro buf hbuf
        exact Or.inr (decode_of_no_item hnone (by simpa using hbuf))
    · rw [if_neg hmore, List.drop_eq_nil_of_le (by omega), (blocksOf_of_no_item nextBlock_nil).1]
      simp

end Calls

theorem reads_inside_iff {b : Block} (hb : b.Valid) :
    (∀ a ∈ RecordCodec.reads b.bytes, a.Inside b.bytes.length) ↔ ¬RecordCodec.KeyWraps b.bytes := by
  constructor
  · intro hinside hwraps
    have hread := hinside _ (RecordCodec.decode_of_keyWraps hwraps).2
    have hkey := hwraps.2
    have hmost := hb.most
    have hlength := hb.length
    unfold maxRecordSize at hmost
    rcases hread with h0 | h0
    · dsimp only at h0
      omega
    · dsimp only at h0
      omega
  · intro hwraps
    exact (RecordCodec.decodesExactly_of_not_keyWraps hwraps).inside

theorem reads_inside_of_error {buf : Bytes} {st : Status}
    (h : RecordCodec.decode buf = .error st) : ∀ a ∈ RecordCodec.reads buf,
      a.Inside buf.length := by
  refine (RecordCodec.decodesExactly_of_not_keyWraps ?_).inside
  intro hwraps
  rw [(RecordCodec.decode_of_keyWraps hwraps).1] at h
  cases h

/-! ## What recovery leaves -/

/-- The outcome of a recovery that keeps the blocks `bs` of `log`. -/
structure KeepsBlocks (seg : LogSegment) (fs : FileSystem) (log : Bytes) (bs : List Block)
    (next : UInt64) (seg' : LogSegment) (fs' : FileSystem) : Prop where
  valid : ∀ b ∈ bs, b.Valid
  longest : LongestValid log (bs.flatMap Block.bytes)
  file : fs'.dir.lookup seg.logFile = some (bs.flatMap Block.bytes)
  others : ∀ f, f ≠ seg.logFile → f ≠ seg.indexFile → fs'.dir.lookup f = fs.dir.lookup f
  size : seg'.logSizeBytes = (bs.flatMap Block.bytes).length
  count : seg'.recordCount = UInt64.ofNat bs.length
  last : seg'.lastOffset = lastOffsetOf seg.baseOffset (recordsOf bs)
  maxTs : seg'.maxTimestampMs = maxTimestamp (recordsOf bs)
  crc : seg'.runningCrcRaw = Crc32.update Crc32.initialCrc (bs.flatMap Block.bytes)
  next_eq : next = nextOffsetOf seg.baseOffset (recordsOf bs)
  /-- A second recovery changes nothing. -/
  again : ∃ fs'', seg'.recoverAndRebuildIndex fs' = (.OK, next, seg', fs'') ∧
    ∀ f, fs''.dir.lookup f = fs'.dir.lookup f
  /-- Of records followed by a part of one more, the complete ones are kept. -/
  torn : ∀ rs r tail, (∀ x ∈ rs, x.Encodable) → r.Encodable → tail <+: RecordCodec.encode r →
    tail ≠ RecordCodec.encode r → log = encodeAll rs ++ tail → recordsOf bs = rs ∧
      bs.flatMap Block.bytes = encodeAll rs
  /-- The full scan leaves the same segment and files. -/
  full : seg.verifyAndRebuildFull fs = (.OK, ⟨(seg.fullScan fs).bytesScanned,
    (seg.fullScan fs).recordsValidated, (seg.fullScan fs).corruptionCount⟩, seg', fs')
  corrupt : 0 < (seg.fullScan fs).corruptionCount ↔ bs.flatMap Block.bytes ≠ log

/-- Recovery of `log` is defined, ends, and does what it is meant to do. -/
structure RecoversExactly (seg : LogSegment) (fs : FileSystem) (log : Bytes) : Prop where
  inside : ∀ buf ∈ seg.decodeCalls fs, ∀ a ∈ RecordCodec.reads buf, a.Inside buf.length
  terminates : ∀ fuel, log.length < fuel → scanLoop log log.length seg.baseOffset
    seg.indexIntervalBytes fuel (.start seg.baseOffset) = seg.scan fs
  outcome : ∃ bs next seg' fs', seg.recoverAndRebuildIndex fs = (.OK, next, seg', fs') ∧
    KeepsBlocks seg fs log bs next seg' fs'

section Recovered

variable {seg : LogSegment} {fs : FileSystem} {log : Bytes}

def scanEnd (seg : LogSegment) (log : Bytes) : ScanState :=
  (ScanState.start seg.baseOffset).acceptAll seg.baseOffset seg.indexIntervalBytes (blocksOf log)

theorem scanEnd_counts (hlen : log.length < 2 ^ 32) :
    ScanCounts seg.baseOffset (blocksOf log) (scanEnd seg log) :=
  scanCounts_acceptAll _ (Nat.lt_of_le_of_lt (length_keptOf_le log) hlen)

theorem content_of_lookup (h : fs.dir.lookup seg.logFile = some log) :
    content fs seg.logFile = log := by
  rw [content, h]
  rfl

theorem lookup_adoptScan (hlog : fs.dir.lookup seg.logFile = some log)
    (hindex : fs.dir.lookup seg.indexFile ≠ none) (hlen : log.length < 2 ^ 32) (f : FileName) :
    (seg.adoptScan (scanEnd seg log) fs).2.dir.lookup f =
      if f = seg.logFile then some (keptOf log)
      else if f = seg.indexFile then some (OffsetIndex.encodeEntries (scanEnd seg log).index)
      else fs.dir.lookup f := by
  have hpos : (scanEnd seg log).currentPos = (keptOf log).length := (scanEnd_counts hlen).pos
  have hne : seg.logFile ≠ seg.indexFile := by simp [LogSegment.logFile, LogSegment.indexFile]
  have hle := length_keptOf_le log
  set cut : List (FileOp FileName) := if (scanEnd seg log).currentPos < log.length then
    [.truncate seg.logFile (scanEnd seg log).currentPos] else [] with hcut
  have hlookup : ∀ g, (applyAll fs.dir cut).lookup g =
      if g = seg.logFile then some (keptOf log) else fs.dir.lookup g := by
    intro g
    have htake : log.take (keptOf log).length = keptOf log :=
      (List.prefix_iff_eq_take.mp (longestValid_keptOf log).front).symm
    rw [hcut, hpos]
    split
    · rw [applyAll_cons, applyAll_nil, lookup_truncate]
      split
      · rw [hlog, Option.map_some, resize_of_le hle, htake]
      · rfl
    · rename_i hnot
      have hall : keptOf log = log := by
        rw [← htake]
        exact List.take_of_length_le (by omega)
      rw [applyAll_nil, hall]
      split
      · rename_i hg
        rw [hg, hlog]
      · rfl
  have hops : seg.adoptOps (scanEnd seg log) (u32 (content fs seg.logFile).length) =
      cut ++ rewriteOps seg.indexFile (scanEnd seg log).index := by
    rw [content_of_lookup hlog, u32_of_lt hlen]
    rfl
  rw [LogSegment.adoptScan_fs, hops, Fs.execAll_dir, applyAll_append]
  by_cases hf : f = seg.indexFile
  · subst hf
    rw [lookup_rewriteOps _ (by rw [hlookup, if_neg hne.symm]; exact hindex), if_neg hne.symm,
      if_pos rfl]
  · rw [lookup_rewriteOps_ne _ hf, hlookup, if_neg hf]

theorem recoverAndRebuildIndex_eq (hlog : fs.dir.lookup seg.logFile = some log)
    (hlen : log.length < 2 ^ 32) : seg.recoverAndRebuildIndex fs =
      (.OK, (scanEnd seg log).nextOffset, seg.adoptScan (scanEnd seg log) fs) := by
  unfold LogSegment.recoverAndRebuildIndex
  rw [scan_eq (content_of_lookup hlog) hlen]
  rfl

theorem adoptScan_seg (hlog : fs.dir.lookup seg.logFile = some log) (hlen : log.length < 2 ^ 32) :
    (seg.adoptScan (scanEnd seg log) fs).1 =
      { seg with
        index := (scanEnd seg log).index
        logSizeBytes := (keptOf log).length
        bytesSinceLastIndex := (scanEnd seg log).bytesSinceIdx
        runningCrcRaw := (scanEnd seg log).runningCrcRaw
        recordCount := (scanEnd seg log).recordCount
        lastOffset := (scanEnd seg log).lastOffset
        maxTimestampMs := (scanEnd seg log).maxTimestampMs } := by
  have hpos : (scanEnd seg log).currentPos = (keptOf log).length := (scanEnd_counts hlen).pos
  have hle := length_keptOf_le log
  have hsize : (if (scanEnd seg log).currentPos < u32 (content fs seg.logFile).length then
      (scanEnd seg log).currentPos else u32 (content fs seg.logFile).length) =
      (keptOf log).length := by
    rw [content_of_lookup hlog, u32_of_lt hlen, hpos]
    split <;> omega
  unfold LogSegment.adoptScan
  dsimp only
  rw [hsize]

theorem scanEnd_congr {seg' : LogSegment} (hbase : seg'.baseOffset = seg.baseOffset)
    (hinterval : seg'.indexIntervalBytes = seg.indexIntervalBytes) (log : Bytes) :
    scanEnd seg' log = scanEnd seg log := by
  unfold scanEnd
  rw [hbase, hinterval]

theorem scanEnd_keptOf (seg : LogSegment) (log : Bytes) :
    scanEnd seg (keptOf log) = scanEnd seg log := by
  unfold scanEnd
  rw [blocksOf_keptOf]

theorem recover_again (hlog : fs.dir.lookup seg.logFile = some log)
    (hindex : fs.dir.lookup seg.indexFile ≠ none) (hlen : log.length < 2 ^ 32)
    {seg' : LogSegment} {fs' : FileSystem}
    (heq : seg.adoptScan (scanEnd seg log) fs = (seg', fs')) :
    ∃ fs'', seg'.recoverAndRebuildIndex fs' = (.OK, (scanEnd seg log).nextOffset, seg', fs'') ∧
      ∀ f, fs''.dir.lookup f = fs'.dir.lookup f := by
  have hseg := @adoptScan_seg seg fs log hlog hlen
  have hfiles := lookup_adoptScan hlog hindex hlen
  rw [heq] at hseg hfiles
  dsimp only at hseg hfiles
  have hkept : (keptOf log).length < 2 ^ 32 := Nat.lt_of_le_of_lt (length_keptOf_le log) hlen
  have hbase : seg'.baseOffset = seg.baseOffset := by rw [hseg]
  have hlogFile : seg'.logFile = seg.logFile := by rw [LogSegment.logFile, hbase]; rfl
  have hindexFile : seg'.indexFile = seg.indexFile := by rw [LogSegment.indexFile, hbase]; rfl
  have hlog' : fs'.dir.lookup seg'.logFile = some (keptOf log) := by
    rw [hlogFile, hfiles, if_pos rfl]
  have hne : seg.indexFile ≠ seg.logFile := by simp [LogSegment.logFile, LogSegment.indexFile]
  have hindex' : fs'.dir.lookup seg'.indexFile ≠ none := by
    rw [hindexFile, hfiles, if_neg hne, if_pos rfl]
    simp
  have hend : scanEnd seg' (keptOf log) = scanEnd seg log := by
    rw [scanEnd_congr hbase (by rw [hseg]), scanEnd_keptOf]
  refine ⟨(seg'.adoptScan (scanEnd seg' (keptOf log)) fs').2, ?_, ?_⟩
  · rw [recoverAndRebuildIndex_eq hlog' hkept, hend]
    refine congrArg (Prod.mk _) (congrArg (Prod.mk _) (Prod.ext ?_ rfl))
    have hseg' := adoptScan_seg hlog' hkept
    rw [hend] at hseg'
    rw [hseg', keptOf_keptOf, hseg]
  · intro f
    rw [lookup_adoptScan hlog' hindex' hkept, hlogFile, hindexFile, hend, keptOf_keptOf, hfiles f]
    split
    · rfl
    · split <;> rfl

theorem verifyAndRebuildFull_eq (hlog : fs.dir.lookup seg.logFile = some log)
    (hlen : log.length < 2 ^ 32) : seg.verifyAndRebuildFull fs =
      (.OK, ⟨(seg.fullScan fs).bytesScanned, (seg.fullScan fs).recordsValidated,
        (seg.fullScan fs).corruptionCount⟩, seg.adoptScan (scanEnd seg log) fs) := by
  unfold LogSegment.verifyAndRebuildFull
  rw [seg.fullScan_eq, scan_eq (content_of_lookup hlog) hlen]
  rfl

theorem corruptionCount_pos_iff (hlog : fs.dir.lookup seg.logFile = some log)
    (hlen : log.length < 2 ^ 32) :
    0 < (seg.fullScan fs).corruptionCount ↔ keptOf log ≠ log := by
  have hcut : keptOf log ≠ log ↔ cutOf log ≠ [] := not_congr cutOf_eq_nil_iff.symm
  rw [hcut, seg.fullScan_eq, scan_eq (content_of_lookup hlog) hlen]
  show 0 < (if decide (cutOf log ≠ []) = true then (1 : UInt64) else 0) ↔ _
  by_cases hnil : cutOf log = []
  · simp [hnil]
  · simp [hnil]

/-- **What recovery does to any log.** -/
theorem keepsBlocks (hlog : fs.dir.lookup seg.logFile = some log)
    (hindex : fs.dir.lookup seg.indexFile ≠ none) (hlen : log.length < 2 ^ 32) :
    ∃ bs next seg' fs', seg.recoverAndRebuildIndex fs = (.OK, next, seg', fs') ∧
      KeepsBlocks seg fs log bs next seg' fs' := by
  have hcounts := @scanEnd_counts seg log hlen
  have hseg := @adoptScan_seg seg fs log hlog hlen
  have hfiles := lookup_adoptScan hlog hindex hlen
  have hagain := @recover_again seg fs log hlog hindex hlen
  have hfull := verifyAndRebuildFull_eq hlog hlen
  refine ⟨blocksOf log, (scanEnd seg log).nextOffset, (seg.adoptScan (scanEnd seg log) fs).1,
    (seg.adoptScan (scanEnd seg log) fs).2, recoverAndRebuildIndex_eq hlog hlen, ?_⟩
  refine ⟨valid_of_mem_blocksOf log, longestValid_keptOf log, ?_, ?_, ?_, ?_, ?_, ?_, ?_, ?_,
    hagain rfl, ?_, hfull, corruptionCount_pos_iff hlog hlen⟩
  · rw [hfiles, if_pos rfl]
    rfl
  · intro f hf hi
    rw [hfiles, if_neg hf, if_neg hi]
  · rw [hseg]
    rfl
  · rw [hseg]
    exact hcounts.count
  · rw [hseg]
    exact hcounts.last
  · rw [hseg]
    exact hcounts.maxTs
  · rw [hseg]
    exact hcounts.crc
  · exact hcounts.next
  · rintro rs r tail hrs hr hpre hne rfl
    have hlt : tail.length < r.size := by
      rw [← RecordCodec.length_encode hr.size_lt]
      refine Nat.lt_of_le_of_ne hpre.length_le ?_
      intro hlength
      exact hne (hpre.eq_of_length hlength)
    rw [blocksOf_encodeAll hrs (nextBlock_torn hr hpre hlt), recordsOf_map_block, flatMap_block]
    exact ⟨rfl, rfl⟩

/-- No run of valid blocks that the log begins with has a wrapped key length. -/
def NoKeyWraps (log : Bytes) : Prop :=
  ∀ bs : List Block, (∀ b ∈ bs, b.Valid) → bs.flatMap Block.bytes <+: log →
    ∀ b ∈ bs, ¬RecordCodec.KeyWraps b.bytes

theorem noKeyWraps_iff : NoKeyWraps log ↔ ∀ b ∈ blocksOf log, ¬RecordCodec.KeyWraps b.bytes := by
  constructor
  · intro hno
    exact hno (blocksOf log) (valid_of_mem_blocksOf log) (longestValid_keptOf log).front
  · rintro hno bs hbs ⟨rest, rfl⟩ b hb
    refine hno b ?_
    rw [blocksOf_flatMap_append hbs rest]
    exact List.mem_append_left _ hb

theorem noKeyWraps_encodeAll {rs : List Record} (h : ∀ r ∈ rs, r.Encodable) :
    NoKeyWraps (encodeAll rs) := by
  have hblocks := blocksOf_encodeAll h nextBlock_nil
  rw [List.append_nil] at hblocks
  rw [noKeyWraps_iff, hblocks]
  rintro b hb ⟨-, hkey⟩
  obtain ⟨r, hr, rfl⟩ := List.mem_map.mp hb
  have hsize := (h r hr).size_lt
  have hfield := RecordCodec.keyLen_encode hsize []
  rw [List.append_nil] at hfield
  have hlt : 2 ^ 32 - 24 ≤ r.key.length := hfield ▸ hkey
  unfold Record.size at hsize
  omega

/-- **The calls of a scan stay inside their buffers** unless a key length wraps. -/
theorem decodeCalls_inside_iff (hcontent : content fs seg.logFile = log)
    (hlen : log.length < 2 ^ 32) :
    (∀ buf ∈ seg.decodeCalls fs, ∀ a ∈ RecordCodec.reads buf, a.Inside buf.length) ↔
      NoKeyWraps log := by
  obtain ⟨hcalls, hcalled⟩ := @mem_decodeCallsFrom log seg.baseOffset seg.indexIntervalBytes hlen
    (log.length + 1) (.start seg.baseOffset) (Nat.zero_le _)
    (by show log.length - 0 < log.length + 1; omega)
  have hdecodeCalls : seg.decodeCalls fs = decodeCallsFrom log log.length seg.baseOffset
      seg.indexIntervalBytes (log.length + 1) (.start seg.baseOffset) := by
    unfold LogSegment.decodeCalls
    simp only [hcontent, u32_of_lt hlen]
  rw [← hdecodeCalls] at hcalls hcalled
  have hvalid := valid_of_mem_blocksOf log
  rw [noKeyWraps_iff]
  constructor
  · intro hinside b hb
    rw [← reads_inside_iff (hvalid b hb)]
    exact hinside _ (hcalls b hb)
  · intro hno buf hbuf
    rcases hcalled buf hbuf with ⟨b, hb, rfl⟩ | ⟨st, herr⟩
    · rw [reads_inside_iff (hvalid b hb)]
      exact hno b hb
    · exact reads_inside_of_error herr

/-- **Recovery is exact but for wrapped key lengths.** -/
theorem recoversExactly_iff (seg : LogSegment) (fs : FileSystem) (log index : Bytes)
    (hlog : fs.dir.lookup seg.logFile = some log)
    (hindex : fs.dir.lookup seg.indexFile = some index) (hlen : log.length < 2 ^ 32) :
    RecoversExactly seg fs log ↔ ∀ bs : List Block, (∀ b ∈ bs, b.Valid) →
      bs.flatMap Block.bytes <+: log → ∀ b ∈ bs, ¬RecordCodec.KeyWraps b.bytes := by
  have hcontent := content_of_lookup hlog
  constructor
  · rintro ⟨hinside, -, -⟩
    exact (decodeCalls_inside_iff hcontent hlen).mp hinside
  · intro hno
    refine ⟨(decodeCalls_inside_iff hcontent hlen).mpr hno, ?_,
      keepsBlocks hlog (by rw [hindex]; simp) hlen⟩
    intro fuel hfuel
    rw [scan_eq hcontent hlen]
    exact scanLoop_eq hlen fuel _ (Nat.zero_le _) (by show log.length - 0 < fuel; omega)

end Recovered

def segmentZero : LogSegment := { baseOffset := 0, partitionDir := [], indexIntervalBytes := 4096 }

def logAlone (log : Bytes) : FileSystem :=
  Fs.start (((∅ : Disk).insert ⟨0, .log⟩ log).insert ⟨0, .index⟩ [])

def tornLog : Bytes := RecordCodec.encode ⟨0, 7, [1], [2, 3]⟩ ++ [0, 0, 0]

theorem blocksOf_tornLog : blocksOf tornLog = [Record.block ⟨0, 7, [1], [2, 3]⟩] := by
  have hrs : ∀ r ∈ [(⟨0, 7, [1], [2, 3]⟩ : Record)], r.Encodable := by
    simp only [List.mem_singleton, forall_eq]
    unfold Record.Encodable
    decide
  have htail : ∀ b rest, nextBlock [0, 0, 0] ≠ .item b rest := by simp [nextBlock]
  exact blocksOf_encodeAll hrs htail

theorem recoversExactly_tornLog : RecoversExactly segmentZero (logAlone tornLog) tornLog := by
  refine (recoversExactly_iff segmentZero (logAlone tornLog) tornLog [] rfl rfl
    (by decide +kernel)).mpr ?_
  refine noKeyWraps_iff.mpr ?_
  intro b hb hwraps
  rw [blocksOf_tornLog, List.mem_singleton] at hb
  subst hb
  have hsmall : RecordCodec.keyField (Record.block ⟨0, 7, [1], [2, 3]⟩).bytes = 1 := by
    decide +kernel
  have hkey := hwraps.2
  rw [hsmall] at hkey
  omega

/-- Recovery of a log that is one block with a wrapped key length leaves the
buffer. -/
theorem wrappedKey_not_recovered :
    ¬RecoversExactly segmentZero (logAlone RecordCodec.wrappedKey) RecordCodec.wrappedKey := by
  rintro ⟨hinside, -, -⟩
  have hcall : RecordCodec.wrappedKey ∈
      segmentZero.decodeCalls (logAlone RecordCodec.wrappedKey) := by decide +kernel
  have hread := hinside _ hcall _ (RecordCodec.decode_of_keyWraps RecordCodec.keyWraps_wrappedKey).2
  rcases hread with h0 | h0
  · exact absurd h0 (by decide +kernel)
  · exact absurd h0 (by decide +kernel)

end StreamForge
