import StreamForge.Storage.SegmentRule

/-!
# The counters of the segments

Beside its index a segment keeps how many records it has, the offset of the last
one and the largest timestamp; retention decides by them. They are kept up by
appends, recomputed by scans, and written to and read from the `.sealed` marker.
`Tallied` says that in memory and in the markers they are those of the records in
the log files. For one segment this is `Told`, a law of segments, so it holds in
every state of a run without failures (`Reached.tallied`).
-/

namespace StreamForge

open FileTrace FileHandle BigEndian

/-! ## Counters and markers -/

structure Tally (seg : LogSegment) (rs : List Record) : Prop where
  count : seg.recordCount = UInt64.ofNat rs.length
  last : rs ≠ [] → seg.lastOffset = lastOffsetOf 0 rs
  maxTs : seg.maxTimestampMs = maxTimestamp rs

/-- A marker file that can be read and gives the counters of `rs`. -/
def MarkerTells (file : Bytes) (rs : List Record) : Prop :=
  ∃ marker, markerIn (some file) = some marker ∧ marker.recordCount = UInt64.ofNat rs.length ∧
    (rs ≠ [] → marker.lastOffset = lastOffsetOf 0 rs) ∧ marker.maxTimestampMs = maxTimestamp rs

/-- **The counters agree with the logs**, in memory and in the markers. -/
structure Tallied (segs : List LogSegment) (d : Disk) : Prop where
  segments : ∀ seg ∈ segs, Tally seg (recordsAt d seg.baseOffset)
  markers : ∀ base file, d.lookup ⟨base, .sealed⟩ = some file → MarkerTells file (recordsAt d base)

variable {rs : List Record} {seg : LogSegment} {d : Disk} {pre : List SegmentData} {s : SegmentData}

theorem lastOffsetOf_default (h : rs ≠ []) (a b : UInt64) :
    lastOffsetOf a rs = lastOffsetOf b rs := by
  unfold lastOffsetOf
  rw [List.getLast?_eq_some_getLast h]
  rfl

theorem Tally.new (p : Partition) (base : UInt64) : Tally (p.newSegment base) [] where
  count := rfl
  last h := absurd rfl h
  maxTs := rfl

theorem Tally.appended (h : Tally seg rs) (r : Record) : Tally (seg.appended r) (rs ++ [r]) := by
  have hcount : (seg.appended r).recordCount = seg.recordCount + 1 := by
    unfold LogSegment.appended
    split <;> rfl
  have hlast : (seg.appended r).lastOffset = r.offset := by
    unfold LogSegment.appended
    split <;> rfl
  have hmax : (seg.appended r).maxTimestampMs =
      if seg.maxTimestampMs < r.timestampMs then r.timestampMs else seg.maxTimestampMs := by
    unfold LogSegment.appended
    split <;> rfl
  refine ⟨?_, ?_, ?_⟩
  · rw [hcount, h.count, List.length_append, UInt64.ofNat_add]
    rfl
  · intro _
    rw [hlast]
    simp [lastOffsetOf]
  · rw [hmax, h.maxTs, maxTimestamp_snoc]

theorem Tally.scanned (seg : LogSegment) {log : Bytes} (hlen : log.length < 2 ^ 32) :
    Tally (seg.scanned log) (recordsOf (blocksOf log)) := by
  have hcounts := @scanEnd_counts seg log hlen
  refine ⟨?_, ?_, hcounts.maxTs⟩
  · show (scanEnd seg log).recordCount = _
    rw [hcounts.count, recordsOf, List.length_map]
  · intro hne
    show (scanEnd seg log).lastOffset = _
    rw [hcounts.last]
    exact lastOffsetOf_default hne _ _

theorem Tally.of_counters {seg' : LogSegment} (h : Tally seg rs)
    (hcount : seg'.recordCount = seg.recordCount) (hlast : seg'.lastOffset = seg.lastOffset)
    (hmax : seg'.maxTimestampMs = seg.maxTimestampMs) : Tally seg' rs :=
  ⟨hcount.trans h.count, fun hne => hlast.trans (h.last hne), hmax.trans h.maxTs⟩

/-! ## Markers are read back -/

theorem ofBE_reverse_toBE {w n : ℕ} (h : n < 256 ^ w) : ofBE (toBE w n).reverse.reverse = n := by
  rw [List.reverse_reverse]
  exact ofBE_toBE_of_lt h

theorem SealedMarker.length_bytes (m : SealedMarker) : m.bytes.length = sealedMarkerSize := by
  simp [SealedMarker.bytes, sealedMarkerSize]

theorem SealedMarker.ofBytes_bytes (m : SealedMarker) (h : m.magic < 256 ^ 4) :
    SealedMarker.ofBytes m.bytes = m := by
  have hlen : ∀ w n : ℕ, (toBE w n).reverse.length = w := by simp
  have hcount := ofBE_reverse_toBE (w := 8) (n := m.recordCount.toNat) (by
    have := m.recordCount.toNat_lt
    norm_num at this ⊢
    exact this)
  have hlast := ofBE_reverse_toBE (w := 8) (n := m.lastOffset.toNat) (by
    have := m.lastOffset.toNat_lt
    norm_num at this ⊢
    exact this)
  have hcrc := ofBE_reverse_toBE (w := 4) (n := m.crc32OfWholeLog.toNat) (by
    have := m.crc32OfWholeLog.toNat_lt
    norm_num at this ⊢
    exact this)
  have hmax := ofBE_reverse_toBE (w := 8) (n := m.maxTimestampMs.toUInt64.toNat) (by
    have := m.maxTimestampMs.toUInt64.toNat_lt
    norm_num at this ⊢
    exact this)
  -- the fields one after the other
  have h0 : m.bytes.drop 0 = (toBE 4 m.magic).reverse ++ ((toBE 8 m.recordCount.toNat).reverse ++
      ((toBE 8 m.lastOffset.toNat).reverse ++ ((toBE 4 m.crc32OfWholeLog.toNat).reverse ++
        ((toBE 8 m.maxTimestampMs.toUInt64.toNat).reverse ++ [])))) := by
    simp [SealedMarker.bytes]
  have h4 := RecordCodec.drop_field h0 (hlen 4 _)
  have h12 := RecordCodec.drop_field h4 (hlen 8 _)
  have h20 := RecordCodec.drop_field h12 (hlen 8 _)
  have h24 := RecordCodec.drop_field h20 (hlen 4 _)
  rw [List.drop_zero] at h0
  norm_num at h4 h12 h20 h24
  have hmagicF : m.bytes.take 4 = (toBE 4 m.magic).reverse := by
    rw [h0]
    exact List.take_left' (hlen 4 _)
  have hmaxF : (m.bytes.drop 24).take 8 = (toBE 8 m.maxTimestampMs.toUInt64.toNat).reverse := by
    rw [h24]
    exact List.take_of_length_le (Nat.le_of_eq (hlen 8 _))
  unfold SealedMarker.ofBytes
  rw [hmagicF, hmaxF, h4, h12, h20, List.take_left' (hlen 8 _), List.take_left' (hlen 8 _),
    List.take_left' (hlen 4 _), hcount, hlast, hcrc, hmax, ofBE_reverse_toBE h,
    UInt64.ofNat_toNat, UInt64.ofNat_toNat, UInt32.ofNat_toNat, UInt64.ofNat_toNat,
    Int64.toInt64_toUInt64]

theorem markerIn_bytes {m : SealedMarker} (h : m.magic = sealedMagic) :
    markerIn (some m.bytes) = some m := by
  have hread : readAt m.bytes 0 sealedMarkerSize = some m.bytes := by
    rw [readAt_of_le (by rw [m.length_bytes, Nat.zero_add]), List.drop_zero, ← m.length_bytes,
      List.take_length]
  have hback := m.ofBytes_bytes (by rw [h]; decide)
  rw [markerIn, Option.bind_some, hread, Option.bind_some, hback, if_neg (not_not.mpr h)]

theorem Tally.markerTells (h : Tally seg rs) : MarkerTells seg.marker.bytes rs :=
  ⟨seg.marker, markerIn_bytes rfl, h.count, h.last, h.maxTs⟩

/-! ## Segment by segment -/

theorem recoveredFile_records (p : Partition) (d : Disk) (base : UInt64) (last : Bool) :
    Files.records (recoveredFile p d base last) = recordsAt d base := by
  show recordsOf (blocksOf (if _ then logOf d base else keptOf (logOf d base))) = _
  split
  · rfl
  · rw [blocksOf_keptOf]
    rfl

/-- **A recovered segment** has counted the records of its log, by a scan or out of
its marker. -/
theorem Tally.recovered (p : Partition) {d : Disk} {base : UInt64} {last : Bool}
    (hlen : (logOf d base).length < 2 ^ 32)
    (hmarker : branchOf p d base last = .quick →
      ∀ file, d.lookup ⟨base, .sealed⟩ = some file → MarkerTells file (recordsAt d base)) :
    Tally (recoveredSegment p d base last) (recordsAt d base) := by
  have hscan := Tally.scanned ((p.newSegment base).openedMarked d) hlen
  unfold recoveredSegment
  dsimp only
  split
  · exact hscan
  · exact hscan.of_counters rfl rfl rfl
  · exact hscan.of_counters rfl rfl rfl
  · rename_i hbranch
    obtain ⟨-, -, file, hfile⟩ := branchOf_quick hbranch
    obtain ⟨marker, hread, hcount, hlast, hmax⟩ := hmarker hbranch file hfile
    have hfile' : d.lookup (p.newSegment base).sealedFile = some file := hfile
    have hopened : (p.newSegment base).openedMarked d =
        ((p.newSegment base).opened d).withMarker marker := by
      unfold LogSegment.openedMarked
      rw [hfile', hread]
    rw [hopened]
    exact ⟨hcount, hlast, hmax⟩

def Told (_limit : UInt32) (seg : LogSegment) (fl : Files) : Prop :=
  Tally seg fl.records ∧ ∀ file, fl .sealed = some file → MarkerTells file fl.records

theorem Told.of_unmarked {limit : UInt32} {fl : Files} (h : Tally seg fl.records)
    (hnone : fl .sealed = none) : Told limit seg fl := by
  refine ⟨h, ?_⟩
  intro file hfile
  rw [hnone] at hfile
  cases hfile

theorem OnFiles.length_log (h : OnFiles seg (filesOf d seg.baseOffset)) :
    (logOf d seg.baseOffset).length < 2 ^ 32 := by
  have hlog : d.lookup ⟨seg.baseOffset, .log⟩ = _ := h.log
  rw [logOf, hlog]
  exact h.len

theorem told_law : SegmentLaw Told where
  new := by
    intro limit p base fl hopen hnil
    refine .of_unmarked ?_ hopen.unmarked
    rw [hnil]
    exact Tally.new p base
  write := by
    intro limit seg fl fl' r htold _ _ _ _ _ hopen hrecords
    refine .of_unmarked ?_ hopen.unmarked
    rw [hrecords]
    exact htold.1.appended r
  close := by
    rintro limit seg fl fl' ⟨htally, -⟩ _ _ hkeep hmark
    have hrecords : fl'.records = fl.records := by
      rw [Files.records, hkeep .log (by simp)]
      rfl
    refine ⟨hrecords ▸ htally.of_counters rfl rfl rfl, ?_⟩
    intro file hfile
    rw [hmark] at hfile
    cases hfile
    exact hrecords ▸ htally.markerTells
  rescan := by
    intro limit p d seg _ hopen hopen'
    refine .of_unmarked ?_ hopen'.unmarked
    rw [recoveredFile_records]
    exact Tally.recovered p hopen.length_log fun hquick => by cases hquick
  reload := by
    rintro limit p d seg ⟨-, hmarker⟩ hclosed -
    have htally : Tally (recoveredSegment p d seg.baseOffset false) (recordsAt d seg.baseOffset) :=
      Tally.recovered p hclosed.length_log fun _ => hmarker
    refine ⟨by rwa [recoveredFile_records], ?_⟩
    intro file hfile
    rw [recoveredFile_records]
    unfold recoveredFile at hfile
    dsimp only at hfile
    split at hfile
    · cases hfile
      exact htally.markerTells
    · exact hmarker file hfile

def RunState.Tallied (st : RunState) : Prop := StreamForge.Tallied st.part.segments st.fs.dir

theorem Reached.tallied {p : Partition} {fs : FileSystem} (h : Reached p fs) :
    Tallied p.segments fs.dir where
  segments seg hseg := (h.throughout told_law seg hseg).1
  markers base file hfile := by
    have hbase := h.housed ⟨base, .sealed⟩ (by rw [hfile]; simp)
    obtain ⟨seg, hseg, rfl⟩ := List.mem_map.mp hbase
    exact (h.throughout told_law seg hseg).2 file hfile

/-- **The counters over whole runs.** -/
theorem run_tallied (partitionId : UInt32) (partitionDir : Bytes) (config : StorageConfig)
    (ops : List Op) (hsized : ∀ op ∈ ops, op.Sized) (hroom : handedIn ops < 2 ^ 64) :
    (run (RunState.init (Partition.new partitionId partitionDir config)) ops).Tallied :=
  (reached_run partitionId partitionDir config hsized hroom).tallied

/-! ## The records a partition holds -/

def Partition.recordsHeld (p : Partition) (d : Disk) : List Record :=
  p.segments.flatMap fun seg => recordsAt d seg.baseOffset

/-- The offsets held are `earliest_offset`, …, `next_offset - 1`, in this order. -/
def NoHoles (p : Partition) (d : Disk) : Prop :=
  (p.recordsHeld d).map (fun r => r.offset.toNat) =
    List.range' p.earliestOffset.toNat (p.nextOffset.toNat - p.earliestOffset.toNat)

theorem DiskInv.recordsAt_of_mem {x : SegmentData} (h : DiskInv d (pre ++ [s]) [])
    (hx : x ∈ pre ++ [s]) : recordsAt d x.base = x.records := by
  rcases List.mem_append.mp hx with hx | hx
  · exact h.recordsAt_closed hx
  · rw [List.mem_singleton.mp hx]
    exact h.recordsAt_active

theorem PartInv.recordsHeld {p : Partition} (h : PartInv p d pre s) :
    p.recordsHeld d = flat (pre ++ [s]) := by
  calc p.recordsHeld d
      = (p.segments.map LogSegment.baseOffset).flatMap (recordsAt d) := by
        rw [List.flatMap_map]
        rfl
    _ = (pre ++ [s]).flatMap fun x => recordsAt d x.base := by
        rw [map_base_eq h.forall₂, List.flatMap_map]
    _ = flat (pre ++ [s]) := List.flatMap_congr fun x hx => h.disk.recordsAt_of_mem hx

theorem Running.earliest {st : RunState} {start : ℕ} (h : Running st pre s start) :
    st.part.earliestOffset.toNat = start := by
  have hmatch := h.inv.forall₂
  have hchain := h.chain
  unfold Partition.earliestOffset
  cases hx : pre ++ [s] with
  | nil => simp at hx
  | cons x rest =>
    rw [hx] at hmatch hchain
    obtain ⟨seg, segs, hm, -, hsegs⟩ := List.forall₂_cons_right_iff.mp hmatch
    rw [hsegs]
    show seg.baseOffset.toNat = start
    rw [hm.base]
    exact hchain.1

/-- **A run without failures leaves no holes.** -/
theorem RunInv.noHoles {st : RunState} (h : RunInv st) (hroom : st.acked.length < 2 ^ 64) :
    NoHoles st.part st.fs.dir := by
  have hnext := h.next_toNat hroom
  obtain ⟨-, ⟨hfresh, -⟩ | ⟨pre, s, start, hrun⟩⟩ := h
  · simp [NoHoles, Partition.recordsHeld, Partition.earliestOffset, hfresh.segments, hfresh.next]
  · have hend := hrun.end_eq
    rw [NoHoles, hrun.inv.recordsHeld, hrun.chain.consecutive.map_offset, hrun.earliest, hnext]
    congr 1
    omega

end StreamForge
