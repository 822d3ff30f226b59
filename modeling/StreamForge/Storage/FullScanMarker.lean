import StreamForge.Storage.RollCrash

/-!
# Markers after a full scan

`verify_and_rebuild_full` cuts a damaged log, rebuilds its index and recounts its
records, but leaves the `.sealed` file as it is. So what the marker says afterwards
is what it said before: it is right only if the part of the log that was kept has the
same summary as the log that was sealed (`SameSummary`), and any damage that costs a
record makes it wrong. A later quick start takes its counters from there.
-/

namespace StreamForge

open FileTrace FileHandle

/-! ## Markers and logs -/

/-- **The marker states the values of the log**: count, last offset, CRC-32 of all
bytes and largest timestamp. -/
structure SealedMarker.States (m : SealedMarker) (log : Bytes) : Prop where
  count : m.recordCount.toNat = (recordsOf (blocksOf log)).length
  last : (recordsOf (blocksOf log)).getLast?.map Record.offset = some m.lastOffset
  crc : m.crc32OfWholeLog = Crc32.calculate log
  maxTs : IsGreatest {t : ℤ | ∃ r ∈ recordsOf (blocksOf log), r.timestampMs.toInt = t}
    m.maxTimestampMs.toInt

structure SameSummary (rs : List Record) (log : Bytes) : Prop where
  count : (recordsOf (blocksOf log)).length = rs.length
  last : (recordsOf (blocksOf log)).getLast?.map Record.offset = rs.getLast?.map Record.offset
  crc : Crc32.calculate (keptOf log) = Crc32.calculate (encodeAll rs)
  maxTs : maxTimestamp (recordsOf (blocksOf log)) = maxTimestamp rs
  /-- Not all timestamps are negative. -/
  notBefore : ∃ r ∈ recordsOf (blocksOf log), 0 ≤ r.timestampMs.toInt

variable {m : SealedMarker} {rs : List Record} {d : Disk} {base : UInt64}

theorem SealedMarker.Summarises.maxTimestamp_eq (h : m.Summarises rs) :
    m.maxTimestampMs = maxTimestamp rs :=
  Int64.toInt_inj.mp (h.maxTs.unique (maxTimestamp_isGreatest rs))

theorem isGreatest_maxTimestamp_iff {rs' : List Record} :
    IsGreatest {t : ℤ | ∃ r ∈ rs', r.timestampMs.toInt = t} (maxTimestamp rs).toInt ↔
      maxTimestamp rs' = maxTimestamp rs ∧ ∃ r ∈ rs', 0 ≤ r.timestampMs.toInt := by
  constructor
  · intro hmax
    obtain ⟨r, hr, heq⟩ := hmax.1
    have hpos : ∃ r ∈ rs', 0 ≤ r.timestampMs.toInt := ⟨r, hr, heq ▸ (@le_maxTimestamp rs).1⟩
    have hmax' := (maxTimestamp_isGreatest_iff rs').mpr hpos
    exact ⟨Int64.toInt_inj.mp (hmax'.unique hmax), hpos⟩
  · rintro ⟨heq, hpos⟩
    rw [← heq]
    exact (maxTimestamp_isGreatest_iff rs').mpr hpos

theorem SealedMarker.Summarises.states_iff (h : m.Summarises rs) (log : Bytes) :
    m.States (keptOf log) ↔ SameSummary rs log := by
  constructor
  · rintro ⟨hcount, hlast, hcrc, hmax⟩
    rw [blocksOf_keptOf] at hcount hlast hmax
    rw [h.maxTimestamp_eq, isGreatest_maxTimestamp_iff] at hmax
    exact ⟨hcount.symm.trans h.count, hlast.trans h.last.symm, hcrc.symm.trans h.crc, hmax.1,
      hmax.2⟩
  · rintro ⟨hcount, hlast, hcrc, hmax, hpos⟩
    refine ⟨?_, ?_, ?_, ?_⟩
    · rw [blocksOf_keptOf, h.count, hcount]
    · rw [blocksOf_keptOf, hlast, h.last]
    · rw [h.crc, hcrc]
    · rw [blocksOf_keptOf, h.maxTimestamp_eq, isGreatest_maxTimestamp_iff]
      exact ⟨hmax, hpos⟩

/-! ## The start after the scan -/

/-- What a full scan should leave of a segment that was sealed: it read only inside
its buffers, the marker on disk states the values of the log, and a later quick
start that finds the segment valid has the counters of the log. -/
structure FullScanAgrees (p : Partition) (d : Disk) (base : UInt64) : Prop where
  inside : ∀ buf ∈ (p.newSegment base).decodeCalls (Fs.start d),
    ∀ a ∈ RecordCodec.reads buf, a.Inside buf.length
  states : ∀ p' fs', p.openAndRecover (Fs.start d) = (.OK, p', fs') →
    ∃ m : SealedMarker, m.magic = sealedMagic ∧
      fs'.dir.lookup ⟨base, .sealed⟩ = some m.bytes ∧ m.States (logOf fs'.dir base)
  certified : ∀ p' fs', p.openAndRecover (Fs.start d) = (.OK, p', fs') → ∀ q : Partition,
    ((q.newSegment base).openedMarked fs'.dir).verifyQuick (Fs.start fs'.dir) = true →
      Counts ((q.newSegment base).openedMarked fs'.dir) (recordsAt fs'.dir base)

theorem SealedMarker.States.counts (h : m.States (logOf d base)) (hmagic : m.magic = sealedMagic)
    (hfile : d.lookup ⟨base, .sealed⟩ = some m.bytes) (q : Partition) :
    Counts ((q.newSegment base).openedMarked d) (recordsAt d base) := by
  have hfile' : d.lookup (q.newSegment base).sealedFile = some m.bytes := hfile
  have hopened : (q.newSegment base).openedMarked d =
    ((q.newSegment base).opened d).withMarker m := by
    unfold LogSegment.openedMarked
    rw [hfile', markerIn_bytes hmagic]
  rw [hopened]
  exact ⟨h.count, h.last, h.maxTs⟩

theorem isLast_of_mem_dropLast (h : base ∈ (basesOf d).dropLast) :
    isLast (basesOf d) base = false := by
  have hnodup : (basesOf d).Nodup := (basesOf_sorted d).imp UInt64.ne_of_lt
  rw [isLast, List.getLast?_eq_some_getLast (basesOf_ne_nil d)]
  refine decide_eq_false ?_
  rw [Option.some_inj]
  rintro rfl
  rw [← List.dropLast_append_getLast (basesOf_ne_nil d)] at hnodup
  exact (List.nodup_append.mp hnodup).2.2 _ h _ (List.mem_singleton_self _) rfl

theorem fullScan_files {p p' : Partition} {d' : Disk} (hrec : RecoveredAny p p' d d')
    (hfull : p.config.fullScan = true) (hbase : base ∈ (basesOf d).dropLast) {file : Bytes}
    (hfile : d.lookup ⟨base, .sealed⟩ = some file) :
    d'.lookup ⟨base, .sealed⟩ = some file ∧ logOf d' base = keptOf (logOf d base) := by
  have hfiles := hrec.inside base (List.dropLast_subset _ hbase)
  rw [isLast_of_mem_dropLast hbase] at hfiles
  have hbranch : branchOf p d base false = .full := by simp [branchOf, hfile, hfull]
  constructor
  · rw [hfiles, recoveredFile_marked p false hfile]
  · rw [logOf, hfiles, recoveredFile, hbranch, if_neg (by simp), Option.getD_some]

/-- **When a full scan leaves marker and log in agreement.** The segment was sealed
with the records `rs`; its log may now be any bytes, as may the rest of the
directory. -/
theorem full_scan_agrees_iff {p : Partition} (hfull : p.config.fullScan = true) {d : Disk}
    (hlen : ∀ base, (logOf d base).length < 2 ^ 32) {base : UInt64}
    (hbase : base ∈ (basesOf d).dropLast) {m : SealedMarker} {rs : List Record}
    (hmagic : m.magic = sealedMagic) (hfile : d.lookup ⟨base, .sealed⟩ = some m.bytes)
    (hm : m.Summarises rs) :
    FullScanAgrees p d base ↔ NoKeyWraps (logOf d base) ∧ SameSummary rs (logOf d base) := by
  obtain ⟨p', fs', heq, hrec⟩ := openAndRecover_any p (Fs.start d) hlen
  change RecoveredAny p p' d fs'.dir at hrec
  obtain ⟨hfile', hlog⟩ := fullScan_files hrec hfull hbase hfile
  have hinside := @decodeCalls_inside_iff (p.newSegment base) (Fs.start d) (logOf d base) rfl
    (hlen base)
  rw [← hinside, ← hm.states_iff]
  constructor
  · rintro ⟨hin, hstates, -⟩
    refine ⟨hin, ?_⟩
    obtain ⟨m', hmagic', hfile'', hm'⟩ := hstates p' fs' heq
    rw [hfile', Option.some.injEq] at hfile''
    obtain rfl : m = m' := by
      rw [← m.ofBytes_bytes (by rw [hmagic]; decide), hfile'',
        m'.ofBytes_bytes (by rw [hmagic']; decide)]
    rwa [hlog] at hm'
  · rintro ⟨hin, hstates⟩
    rw [← hlog] at hstates
    refine ⟨hin, ?_, ?_⟩
    · rintro p'' fs'' heq'
      rw [heq] at heq'
      cases heq'
      exact ⟨m, hmagic, hfile', hstates⟩
    · rintro p'' fs'' heq' q -
      rw [heq] at heq'
      cases heq'
      exact hstates.counts hmagic hfile' q

/-! ## A log that lost a record -/

def markerOf (rs : List Record) : SealedMarker where
  magic := sealedMagic
  recordCount := UInt64.ofNat rs.length
  lastOffset := lastOffsetOf 0 rs
  crc32OfWholeLog := Crc32.calculate (encodeAll rs)
  maxTimestampMs := maxTimestamp rs

theorem markerOf_summarises (hne : rs ≠ []) (hlen : rs.length < 2 ^ 64) :
    (markerOf rs).Summarises rs where
  count := UInt64.toNat_ofNat_of_lt' hlen
  last := lastOffsetOf_eq hne
  crc := rfl
  maxTs := maxTimestamp_isGreatest rs

def refilledRecords : List Record := [⟨0, 5, [], []⟩, ⟨1, 9, [], []⟩]

/-- The directory of `refilled` with another log in place of the closed one. -/
def refilledWith (log : Bytes) : Disk := refilled.fs.dir.insert ⟨0, .log⟩ log

def fullStart : Partition := Partition.new 0 [] { startupScan := ascii "full" }

theorem length_logOf_refilledWith {log : Bytes} (h : log.length < 2 ^ 32) (base : UInt64) :
    (logOf (refilledWith log) base).length < 2 ^ 32 := by
  have hreached : Reached refilled.part refilled.fs := by
    refine reached_run 0 [] { segmentMaxBytes := 56 } ?_ (by decide)
    simp only [List.mem_cons, List.not_mem_nil, or_false, forall_eq_or_imp, forall_eq, Op.Sized]
    decide
  unfold logOf refilledWith
  by_cases hbase : base = 0
  · rw [hbase, AList.lookup_insert]
    exact h
  · rw [AList.lookup_insert_ne (by simpa using hbase)]
    exact (hreached.opened.whole base).2

/-- Damage behind the last record is cut, and the marker is right. -/
theorem full_scan_agrees_behind_last :
    FullScanAgrees fullStart (refilledWith (encodeAll refilledRecords ++ [1, 2, 3])) 0 := by
  refine (full_scan_agrees_iff (by decide) (length_logOf_refilledWith (by decide +kernel))
    (by decide +kernel) rfl (by decide +kernel) (markerOf_summarises (by decide)
      (by decide : refilledRecords.length < 2 ^ 64))).mpr ⟨?_, ?_⟩
  · have hkept : keptOf (logOf (refilledWith (encodeAll refilledRecords ++ [1, 2, 3])) 0) =
        encodeAll refilledRecords := by decide +kernel
    rw [noKeyWraps_iff, ← blocksOf_keptOf, hkept, ← noKeyWraps_iff]
    refine noKeyWraps_encodeAll ?_
    simp only [refilledRecords, List.mem_cons, List.not_mem_nil, or_false, forall_eq_or_imp,
      forall_eq, Record.Encodable]
    decide
  · exact ⟨by decide +kernel, by decide +kernel, by decide +kernel, by decide +kernel,
      by decide +kernel⟩

/-- **The old marker stays**: the closed log lost its second record, and a quick start
behind the full scan finds the segment valid and counts two. -/
theorem full_scan_keeps_old_marker :
    let res := fullStart.openAndRecover
      (Fs.start (refilledWith (RecordCodec.encode ⟨0, 5, [], []⟩)))
    let seg := (refilled.part.newSegment 0).openedMarked res.2.2.dir
    ¬FullScanAgrees fullStart (refilledWith (RecordCodec.encode ⟨0, 5, [], []⟩)) 0 ∧
      seg.verifyQuick (Fs.start res.2.2.dir) = true ∧ seg.recordCount = 2 ∧
      (recordsAt res.2.2.dir 0).length = 1 := by
  intro res seg
  have hvalid : seg.verifyQuick (Fs.start res.2.2.dir) = true := by decide +kernel
  have htwo : seg.recordCount = 2 := by decide +kernel
  have hone : (recordsAt res.2.2.dir 0).length = 1 := by decide +kernel
  have hok : res.1 = .OK := by decide +kernel
  refine ⟨?_, hvalid, htwo, hone⟩
  intro hagrees
  have hcounts := hagrees.certified res.2.1 res.2.2 (by rw [← hok]) refilled.part hvalid
  have hcount := hcounts.count
  rw [hone] at hcount
  change seg.recordCount.toNat = 1 at hcount
  rw [htwo] at hcount
  exact absurd hcount (by decide)

end StreamForge
