import Mathlib.Order.Bounds.Basic
import StreamForge.Storage.Counters
import StreamForge.Storage.CrashConsistency
import StreamForge.Storage.OffsetWrap

/-!
# What the marker of a closed segment says

`write_sealed_marker` writes down four values that were kept up while the segment
was filled: record by record by appends, and from the start again by every
recovery scan. This file proves that they are the values of the log as a whole.
The CRC is what is new here (`Summed`); the counters are those of `Told`.
-/

namespace StreamForge

open FileTrace FileHandle

/-! ## Markers and logs -/

/-- **The marker summarises the records.** -/
structure SealedMarker.Summarises (m : SealedMarker) (rs : List Record) : Prop where
  count : m.recordCount.toNat = rs.length
  last : rs.getLast?.map Record.offset = some m.lastOffset
  crc : m.crc32OfWholeLog = Crc32.calculate (encodeAll rs)
  maxTs : IsGreatest (insert 0 {t : ℤ | ∃ r ∈ rs, r.timestampMs.toInt = t}) m.maxTimestampMs.toInt

def MarkerRight (d : Disk) (base : UInt64) : Prop :=
  ∃ m rs, d.lookup ⟨base, .sealed⟩ = some (SealedMarker.bytes m) ∧
    d.lookup ⟨base, .log⟩ = some (encodeAll rs) ∧ (∀ r ∈ rs, Record.Fits r) ∧ m.Summarises rs

theorem maxTimestamp_isGreatest (rs : List Record) :
    IsGreatest (insert 0 {t : ℤ | ∃ r ∈ rs, r.timestampMs.toInt = t}) (maxTimestamp rs).toInt := by
  obtain ⟨hzero, hle⟩ := @le_maxTimestamp rs
  constructor
  · rcases hzero.eq_or_lt with heq | hlt
    · exact Or.inl heq.symm
    · obtain ⟨r, hr, heq⟩ := maxTimestamp_mem hlt
      exact Or.inr ⟨r, hr, by rw [heq]⟩
  · rintro t (rfl | ⟨r, hr, rfl⟩)
    · exact hzero
    · exact hle r hr

theorem lastOffsetOf_eq {rs : List Record} (h : rs ≠ []) :
    rs.getLast?.map Record.offset = some (lastOffsetOf 0 rs) := by
  rw [lastOffsetOf, List.getLast?_eq_some_getLast h]
  rfl

theorem MarkerTells.summarises {m : SealedMarker} {rs : List Record} (h : MarkerTells m.bytes rs)
    (hmagic : m.magic = sealedMagic) (hcrc : m.crc32OfWholeLog = Crc32.calculate (encodeAll rs))
    (hne : rs ≠ []) (hlen : (encodeAll rs).length < 2 ^ 32) : m.Summarises rs := by
  obtain ⟨m', hread, hcount, hlast, hmax⟩ := h
  rw [markerIn_bytes hmagic, Option.some.injEq] at hread
  subst hread
  have hfew := length_le_encodeAll rs
  refine ⟨?_, ?_, hcrc, ?_⟩
  · rw [hcount, UInt64.toNat_ofNat_of_lt' (show rs.length < 2 ^ 64 by omega)]
  · rw [hlast hne]
    exact lastOffsetOf_eq hne
  · rw [hmax]
    exact maxTimestamp_isGreatest rs

/-! ## The running CRC -/

/-- An open segment keeps the CRC of its log, and a closed one has it in its
marker. -/
def Summed (_limit : UInt32) (seg : LogSegment) (fl : Files) : Prop :=
  (fl .sealed = none → seg.runningCrcRaw = Crc32.update Crc32.initialCrc (encodeAll fl.records)) ∧
  ∀ file, fl .sealed = some file → ∃ m : SealedMarker, file = m.bytes ∧ m.magic = sealedMagic ∧
    m.crc32OfWholeLog = Crc32.calculate (encodeAll fl.records)

theorem Summed.of_unmarked {limit : UInt32} {seg : LogSegment} {fl : Files}
    (h : seg.runningCrcRaw = Crc32.update Crc32.initialCrc (encodeAll fl.records))
    (hnone : fl .sealed = none) : Summed limit seg fl := by
  refine ⟨fun _ => h, ?_⟩
  intro file hfile
  rw [hnone] at hfile
  cases hfile

theorem scanned_runningCrcRaw (seg : LogSegment) {log : Bytes} (hlen : log.length < 2 ^ 32) :
    (seg.scanned log).runningCrcRaw = Crc32.update Crc32.initialCrc (keptOf log) :=
  (@scanEnd_counts seg log hlen).crc

variable {d : Disk} {base : UInt64}

theorem recoveredSegment_runningCrcRaw (p : Partition) {last : Bool}
    (hlen : (logOf d base).length < 2 ^ 32) (hbranch : branchOf p d base last ≠ .quick) :
    (recoveredSegment p d base last).runningCrcRaw =
      Crc32.update Crc32.initialCrc (keptOf (logOf d base)) := by
  have hscan := scanned_runningCrcRaw ((p.newSegment base).openedMarked d) hlen
  unfold recoveredSegment
  dsimp only
  split
  · exact hscan
  · exact hscan
  · exact hscan
  · rename_i hquick
    exact absurd hquick hbranch

theorem recoveredFile_marked (p : Partition) {file : Bytes} (last : Bool)
    (h : d.lookup ⟨base, .sealed⟩ = some file) :
    recoveredFile p d base last .sealed = some file := by
  have hbranch : branchOf p d base last ≠ .unmarked := by
    unfold branchOf
    rw [h]
    cases last with
    | true => simp
    | false => cases p.config.fullScan <;> simp
  rw [recoveredFile, if_neg hbranch, h]

theorem recoveredFile_unmarked (p : Partition) (h : d.lookup ⟨base, .sealed⟩ = none) :
    branchOf p d base false = .unmarked ∧
      recoveredFile p d base false .sealed =
        some (recoveredSegment p d base false).marker.bytes := by
  have hbranch : branchOf p d base false = .unmarked := by simp [branchOf, h]
  exact ⟨hbranch, by rw [recoveredFile, if_pos hbranch]⟩

theorem recovered_crc (p : Partition) (hlen : (logOf d base).length < 2 ^ 32)
    (h : d.lookup ⟨base, .sealed⟩ = none) :
    (recoveredSegment p d base false).marker.crc32OfWholeLog =
      Crc32.calculate (keptOf (logOf d base)) := by
  obtain ⟨hbranch, -⟩ := recoveredFile_unmarked p h
  show Crc32.finalize (recoveredSegment p d base false).runningCrcRaw = _
  rw [recoveredSegment_runningCrcRaw p hlen (by rw [hbranch]; simp)]
  rfl

theorem summed_law : SegmentLaw Summed where
  new := by
    intro limit p base fl hopen hnil
    refine .of_unmarked ?_ hopen.unmarked
    rw [hnil]
    rfl
  write := by
    intro limit seg fl fl' r hsum hopen _ _ _ _ hopen' hrecords
    refine .of_unmarked ?_ hopen'.unmarked
    rw [LogSegment.appended_runningCrcRaw, hsum.1 hopen.unmarked, hrecords, encodeAll_append,
      encodeAll_singleton, Crc32.update_append]
  close := by
    rintro limit seg fl fl' ⟨hcrc, -⟩ hopen _ hkeep hmark
    have hrecords : fl'.records = fl.records := by
      rw [Files.records, hkeep .log (by simp)]
      rfl
    refine ⟨fun hnone => ?_, ?_⟩
    · rw [hmark] at hnone
      cases hnone
    · intro file hfile
      rw [hmark] at hfile
      cases hfile
      refine ⟨seg.marker, rfl, rfl, ?_⟩
      show Crc32.finalize seg.runningCrcRaw = _
      rw [hcrc hopen.unmarked, hrecords]
      rfl
  rescan := by
    intro limit p d seg _ hopen hopen'
    refine .of_unmarked ?_ hopen'.unmarked
    have hlog : some (keptOf (logOf d seg.baseOffset)) = _ := hopen'.log
    rw [recoveredSegment_runningCrcRaw p hopen.length_log (by simp [branchOf]),
      Option.some.inj hlog]
  reload := by
    rintro limit p d seg ⟨-, hmarker⟩ hclosed hclosed'
    have hlog : some (if _ then logOf d seg.baseOffset else keptOf (logOf d seg.baseOffset)) = _ :=
      hclosed'.log
    cases hfile : d.lookup ⟨seg.baseOffset, .sealed⟩ with
    | some file =>
      have hkeep := recoveredFile_marked p false hfile
      refine ⟨?_, ?_⟩
      · intro hnone
        rw [hkeep] at hnone
        cases hnone
      intro file' hfile'
      rw [hkeep, Option.some.injEq] at hfile'
      subst hfile'
      rw [recoveredFile_records]
      exact hmarker file hfile
    | none =>
      obtain ⟨hbranch, hnew⟩ := recoveredFile_unmarked p hfile
      rw [if_neg (by rw [hbranch]; simp)] at hlog
      refine ⟨?_, ?_⟩
      · intro hnone
        rw [hnew] at hnone
        cases hnone
      intro file hfile'
      rw [hnew, Option.some.injEq] at hfile'
      refine ⟨_, hfile'.symm, rfl, ?_⟩
      rw [recovered_crc p hclosed.length_log hfile, Option.some.inj hlog]

/-! ## The marker of every closed segment -/

/-- **In a run without failures** every marker on disk is right. -/
theorem Reached.markerRight {p : Partition} {fs : FileSystem} (h : Reached p fs) {file : Bytes}
    (hfile : fs.dir.lookup ⟨base, .sealed⟩ = some file) :
    MarkerRight fs.dir base := by
  have hbase := h.housed ⟨base, .sealed⟩ (by rw [hfile]; simp)
  obtain ⟨seg, hseg, rfl⟩ := List.mem_map.mp hbase
  obtain ⟨m, rfl, hmagic, hcrc⟩ := (h.throughout summed_law seg hseg).2 file hfile
  have htells := (h.throughout told_law seg hseg).2 _ hfile
  -- the segment is closed, so its log is that of a segment behind it
  rcases h.opened with hfresh | ⟨pre, s, start, hinv, hchain, -⟩
  · rw [hfresh.lookup_none] at hfile
    cases hfile
  obtain ⟨closed, active, hsegs, -, -⟩ := hinv.segments
  rw [hsegs] at hseg
  rcases List.mem_append.mp hseg with hseg | hseg
  · have hon := hinv.closedOn hchain hsegs hseg
    exact ⟨m, _, hfile, hon.log, hon.fits, htells.summarises hmagic hcrc hon.ne hon.len⟩
  · obtain rfl := List.mem_singleton.mp hseg
    have hnone : fs.dir.lookup ⟨seg.baseOffset, .sealed⟩ = none :=
      (hinv.openOn hchain hsegs).2.unmarked
    rw [hnone] at hfile
    cases hfile

theorem SegFiles.recoveredLog (p : Partition) {x : SegmentData} (h : SegFiles d x [])
    (last : Bool) :
    logOf d x.base = encodeAll x.records ∧ keptOf (logOf d x.base) = encodeAll x.records ∧
      recoveredFile p d x.base last .log = some (encodeAll x.records) := by
  have hlog : logOf d x.base = encodeAll x.records := by
    rw [logOf, h.log, Option.getD_some, List.append_nil]
  have hkept : keptOf (logOf d x.base) = encodeAll x.records := by
    have hblocks := blocksOf_encodeAll (fun r hr => (h.fits r hr).encodable) nextBlock_nil
    rw [List.append_nil] at hblocks
    rw [hlog, keptOf, hblocks, flatMap_block]
  refine ⟨hlog, hkept, ?_⟩
  rw [recoveredFile, hkept, hlog, ite_self]

theorem markerRight_recovered (p : Partition) {d' : Disk} {x : SegmentData} (h : SegFiles d x [])
    (hne : x.records ≠ []) (hnone : d.lookup ⟨x.base, .sealed⟩ = none)
    (hfiles : ∀ k, d'.lookup ⟨x.base, k⟩ = recoveredFile p d x.base false k) :
    MarkerRight d' x.base := by
  obtain ⟨hbranch, hmarker⟩ := recoveredFile_unmarked p hnone
  obtain ⟨hlog, hkept, hfile⟩ := h.recoveredLog p false
  have hlen : (logOf d x.base).length < 2 ^ 32 := by
    rw [hlog]
    simpa using h.len
  have htally := @Tally.recovered p d x.base false hlen
    (fun hquick => by rw [hbranch] at hquick; cases hquick)
  rw [h.recordsAt] at htally
  refine ⟨_, x.records, (hfiles .sealed).trans hmarker, (hfiles .log).trans hfile, h.fits, ?_⟩
  refine htally.markerTells.summarises rfl ?_ hne (hlog ▸ hlen)
  rw [recovered_crc p hlen hnone, hkept]

theorem DiskInv.length_logOf {segs : List SegmentData} {tail : Bytes} (h : DiskInv d segs tail)
    (base : UInt64) : (logOf d base).length < 2 ^ 32 := by
  cases hlog : d.lookup ⟨base, .log⟩ with
  | none => simp [logOf, hlog]
  | some log =>
    have hmem := (h.listing base).mp (by rw [hlog]; simp)
    obtain rfl | ⟨pre, s, rfl⟩ := List.eq_nil_or_concat' segs
    · cases hmem
    obtain ⟨-, hlist, hclosed, hfiles, -, -, -⟩ := diskInv_snoc.mp h
    rcases (hlist base).mp (by rw [hlog]; simp) with hb | rfl
    · obtain ⟨x, hx, rfl⟩ := List.mem_map.mp hb
      rw [logOf, (hclosed x hx).files.log, Option.getD_some]
      exact (hclosed x hx).files.len
    · rw [logOf, hfiles.log, Option.getD_some]
      exact hfiles.len

section ClosedSegments

variable {p p' : Partition} {d d' : Disk} {pre : List SegmentData} {s : SegmentData} {tail : Bytes}

theorem isLast_of_mem_closed (h : DiskInv d (pre ++ [s]) tail) {x : SegmentData} (hx : x ∈ pre) :
    isLast (basesOf d) x.base = false := by
  obtain ⟨⟨start, hchain⟩, -, -, -, -, -, -⟩ := diskInv_snoc.mp h
  rw [h.basesOf, List.map_append, List.map_singleton, isLast, List.getLast?_concat]
  refine decide_eq_false ?_
  rw [Option.some_inj]
  exact (UInt64.ne_of_lt (base_lt_of_mem hchain hx)).symm

/-- The closed segments of a recovered partition, one for each base but the last. -/
theorem RecoveredAny.dropLast_eq (h : RecoveredAny p p' d d')
    (hdisk : DiskInv d (pre ++ [s]) tail) :
    p'.segments.dropLast = pre.map fun x => recoveredSegment p d x.base false := by
  have hbases : (basesOf d).dropLast = pre.map SegmentData.base := by
    rw [hdisk.basesOf, List.map_append, List.map_singleton, List.dropLast_concat]
  rw [h.segments, recoveredSegments, ← List.map_dropLast, hbases, List.map_map]
  refine List.map_congr_left ?_
  intro x hx
  show recoveredSegment p d x.base (isLast (basesOf d) x.base) = _
  rw [isLast_of_mem_closed hdisk hx]

theorem RecoveredAny.files_closed (h : RecoveredAny p p' d d')
    (hdisk : DiskInv d (pre ++ [s]) tail) {x : SegmentData} (hx : x ∈ pre) (k : FileKind) :
    d'.lookup ⟨x.base, k⟩ = recoveredFile p d x.base false k := by
  have hmem : x.base ∈ basesOf d := by
    rw [hdisk.basesOf]
    exact List.mem_map_of_mem (List.mem_append_left _ hx)
  rw [h.inside x.base hmem k, isLast_of_mem_closed hdisk hx]

end ClosedSegments

/-- **After a kill** recovery writes the markers that are missing. -/
theorem Survives.markerRight {hist : List Record} {lo : ℕ} (h : Survives hist lo d)
    (p : Partition) :
    ∃ p' fs', p.openAndRecover (Fs.start d) = (.OK, p', fs') ∧
      ∀ seg ∈ p'.segments.dropLast, d.lookup ⟨seg.baseOffset, .sealed⟩ = none →
        MarkerRight fs'.dir seg.baseOffset := by
  obtain ⟨-, ⟨segs, tail, hne, hdisk, hchain, -⟩ | ⟨hdisk, -⟩⟩ := h
  · obtain ⟨p', fs', heq, hrec⟩ := openAndRecover_any p (Fs.start d) hdisk.length_logOf
    refine ⟨p', fs', heq, ?_⟩
    obtain rfl | ⟨pre, s, rfl⟩ := List.eq_nil_or_concat' segs
    · exact absurd rfl hne
    intro seg hseg hnone
    rw [hrec.dropLast_eq hdisk] at hseg
    obtain ⟨x, hx, rfl⟩ := List.mem_map.mp hseg
    rw [recoveredSegment_baseOffset] at hnone ⊢
    obtain ⟨-, -, hclosed, -, -, -, -⟩ := diskInv_snoc.mp hdisk
    obtain ⟨-, hrecords, -, -⟩ := chained_snoc.mp hchain
    exact markerRight_recovered p (hclosed x hx).files (hrecords x hx) hnone
      (hrec.files_closed hdisk hx)
  · obtain ⟨p', fs', heq, hrec⟩ := openAndRecover_any p (Fs.start d) hdisk.length_logOf
    refine ⟨p', fs', heq, ?_⟩
    intro seg hseg
    have hbases : basesOf d = [0] := by
      rw [basesOf, hdisk.listBaseOffsets]
      rfl
    change RecoveredAny p p' d fs'.dir at hrec
    rw [hrec.segments, hbases] at hseg
    cases hseg

/-- **The marker summarises the whole log.** In every state of a run without failures the
marker files are right, over however many process lifetimes the segment was filled; and
after a kill at any point the recovery that completes writes right markers for the closed
segments that have none. -/
theorem sealed_marker_summarises :
    (∀ p fs, Reached p fs → ∀ base file, fs.dir.lookup ⟨base, .sealed⟩ = some file →
      MarkerRight fs.dir base) ∧
    ∀ st n op d d' full, Life st n → Op.Sized op → n + op.count < 2 ^ 64 →
      Killed st.fs.dir (issued st op) d → Interrupted st.part d d' →
      ∃ p' fs', (reopened st.part full).openAndRecover (Fs.start d') = (.OK, p', fs') ∧
        ∀ seg ∈ p'.segments.dropLast, d'.lookup ⟨seg.baseOffset, .sealed⟩ = none →
          MarkerRight fs'.dir seg.baseOffset := by
  constructor
  · intro p fs h base file hfile
    exact h.markerRight hfile
  · intro st n op d d' full hlife hsized hroom hkill hint
    obtain ⟨hinv, hlen⟩ := hlife.runInv (by omega)
    obtain ⟨k, lo, -, -, hsurv⟩ := hinv.kills hsized (by omega) d hkill
    have hflight := length_inFlight_le st op
    refine (hsurv.interrupted hint ?_).markerRight (reopened st.part full)
    rw [List.length_append, List.length_take]
    omega

def refilled : RunState :=
  run (RunState.init (Partition.new 0 [] { segmentMaxBytes := 56 }))
    [.append [] [] 5, .restart false, .append [] [] 9, .append [] [] 7]

def singleRecord : RunState :=
  run (RunState.init (Partition.new 0 [] { segmentMaxBytes := 30 })) [.append [] [] 5]

/-- The second record killed when the files of its segment exist and the marker of
the first does not. -/
def killedInRoll : Disk :=
  applyAll singleRecord.fs.dir ((issued singleRecord (.append [] [] 6)).take 2)

theorem sealed_marker_summarises_refilled : MarkerRight refilled.fs.dir 0 ∧
    ∃ p' fs', (reopened singleRecord.part false).openAndRecover (Fs.start killedInRoll) =
        (.OK, p', fs') ∧
      ∀ seg ∈ p'.segments.dropLast, killedInRoll.lookup ⟨seg.baseOffset, .sealed⟩ = none →
        MarkerRight fs'.dir seg.baseOffset := by
  constructor
  · have hsome : (refilled.fs.dir.lookup ⟨0, .sealed⟩).isSome = true := by decide +kernel
    obtain ⟨file, hfile⟩ := Option.isSome_iff_exists.mp hsome
    refine sealed_marker_summarises.1 refilled.part refilled.fs ?_ 0 file hfile
    refine reached_run 0 [] { segmentMaxBytes := 56 } ?_ (by decide)
    simp only [List.mem_cons, List.not_mem_nil, or_false, forall_eq_or_imp, forall_eq, Op.Sized]
    decide
  · refine sealed_marker_summarises.2 singleRecord 1
      (.append [] [] 6) killedInRoll killedInRoll false
      ?_ (show 0 + 0 < 2 ^ 32 - 28 by decide) (by decide)
      (Killed.of_prefix (List.take_prefix _ _) _) (Interrupted.never _)
    exact Life.operate (.append [] [] 5) (Life.fresh 0 [] { segmentMaxBytes := 30 })
      (show 0 + 0 < 2 ^ 32 - 28 by decide)

/-- **The promise has a limit**: behind 2^64 records a segment can be opened and
closed a second time, and then its file holds two markers. -/
theorem marker_fails_at_wrap : (∀ op ∈ edgeOps 18446744073709551613, op.Sized) ∧
    ¬∀ base file, (reusedEdge 18446744073709551613).fs.dir.lookup ⟨base, .sealed⟩ = some file →
      MarkerRight (reusedEdge 18446744073709551613).fs.dir base := by
  refine ⟨edgeOps_sized _, ?_⟩
  intro hright
  obtain ⟨m, m', hfile⟩ := @reusedEdge_markers 18446744073709551613 (by norm_num)
  obtain ⟨m'', rs, hfile', -⟩ := hright _ _ hfile
  rw [hfile, Option.some.injEq] at hfile'
  have hlen := congrArg List.length hfile'
  rw [List.length_append, m.length_bytes, m'.length_bytes, m''.length_bytes] at hlen
  exact absurd hlen (by decide)

end StreamForge
