import StreamForge.Storage.MarkerSummary

/-!
# A kill inside a roll

`roll_segment_unlocked` creates the files of the new segment first, so a kill
inside it can leave the old segment closed without a marker or with a part of one.
A missing marker is made good by the next recovery, which scans the log. A part of
a marker is not: `has_sealed_marker` finds the file, `read_sealed_marker` refuses it,
and a quick start goes on with counters that nobody has set.

`metadata_after_roll_crash_iff` says exactly when the counters of the closed segments
are right after the next start.
-/

namespace StreamForge

open FileTrace FileHandle

/-! ## The counters of one closed segment -/

/-- **The counters are those of the log**: how many records it holds, the offset of
the last one and the largest timestamp. -/
structure Counts (seg : LogSegment) (rs : List Record) : Prop where
  count : seg.recordCount.toNat = rs.length
  last : rs.getLast?.map Record.offset = some seg.lastOffset
  maxTs : IsGreatest {t : ℤ | ∃ r ∈ rs, r.timestampMs.toInt = t} seg.maxTimestampMs.toInt

def MetadataRight (d : Disk) (seg : LogSegment) : Prop :=
  ∃ rs, d.lookup seg.logFile = some (encodeAll rs) ∧ (∀ r ∈ rs, Record.Fits r) ∧ Counts seg rs

/-- The running maximum starts at 0, so it is the largest timestamp unless all are
negative. -/
theorem maxTimestamp_isGreatest_iff (rs : List Record) :
    IsGreatest {t : ℤ | ∃ r ∈ rs, r.timestampMs.toInt = t} (maxTimestamp rs).toInt ↔
      ∃ r ∈ rs, 0 ≤ r.timestampMs.toInt := by
  obtain ⟨hzero, hle⟩ := @le_maxTimestamp rs
  constructor
  · rintro ⟨⟨r, hr, heq⟩, -⟩
    exact ⟨r, hr, heq ▸ hzero⟩
  · rintro ⟨r, hr, hpos⟩
    constructor
    · rcases hzero.eq_or_lt with heq | hlt
      · exact ⟨r, hr, le_antisymm (hle r hr) (heq ▸ hpos)⟩
      · obtain ⟨r', hr', heq⟩ := maxTimestamp_mem hlt
        exact ⟨r', hr', by rw [heq]⟩
    · rintro t ⟨r', hr', rfl⟩
      exact hle r' hr'

theorem Tally.counts_iff {seg : LogSegment} {rs : List Record} (h : Tally seg rs) (hne : rs ≠ [])
    (hlen : (encodeAll rs).length < 2 ^ 32) :
    Counts seg rs ↔ ∃ r ∈ rs, 0 ≤ r.timestampMs.toInt := by
  rw [← maxTimestamp_isGreatest_iff, ← h.maxTs]
  constructor
  · exact Counts.maxTs
  · intro hmax
    have hfew := length_le_encodeAll rs
    refine ⟨?_, ?_, hmax⟩
    · rw [h.count, UInt64.toNat_ofNat_of_lt' (show rs.length < 2 ^ 64 by omega)]
    · rw [h.last hne]
      exact lastOffsetOf_eq hne

variable {file : Bytes} {d : Disk} {base : UInt64} {p : Partition}

theorem markerIn_short (h : file.length < sealedMarkerSize) : markerIn (some file) = none := by
  rw [markerIn, Option.bind_some, readAt, if_neg (by rw [Nat.zero_add]; exact Nat.not_le.mpr h)]
  rfl

/-- **A quick start on a part of a marker** leaves the count at 0. -/
theorem recordCount_of_short (p : Partition) (hquick : p.config.fullScan = false)
    (hfile : d.lookup ⟨base, .sealed⟩ = some file) (hshort : file.length < sealedMarkerSize) :
    (recoveredSegment p d base false).recordCount = 0 := by
  have hbranch : branchOf p d base false = .quick := by
    simp [branchOf, hfile, hquick]
  have hfile' : d.lookup (p.newSegment base).sealedFile = some file := hfile
  unfold recoveredSegment
  rw [hbranch]
  show ((p.newSegment base).openedMarked d).recordCount = 0
  unfold LogSegment.openedMarked
  rw [hfile', markerIn_short hshort]
  rfl

section Closed

variable {p : Partition} {d : Disk} {x : SegmentData}

/-- The condition on the files of one closed segment: a quick start finds no part of
a marker, and not all timestamps are negative. -/
def MarkerUsable (full : Bool) (d : Disk) (base : UInt64) : Prop :=
  (full = true ∨ ∀ file, d.lookup ⟨base, .sealed⟩ = some file → sealedMarkerSize ≤ file.length) ∧
    ∃ r ∈ recordsAt d base, 0 ≤ r.timestampMs.toInt

/-- **One closed segment**, whose marker is missing, right or too short. -/
theorem counts_recovered_iff (h : SegFiles d x []) (hne : x.records ≠ [])
    (hmark : ∀ file, d.lookup ⟨x.base, .sealed⟩ = some file →
      MarkerTells file x.records ∨ file.length < sealedMarkerSize) :
    Counts (recoveredSegment p d x.base false) x.records ↔
      MarkerUsable p.config.fullScan d x.base := by
  have hlog : logOf d x.base = encodeAll x.records := by
    rw [logOf, h.log, Option.getD_some, List.append_nil]
  have hlen : (encodeAll x.records).length < 2 ^ 32 := by simpa using h.len
  rw [MarkerUsable, h.recordsAt]
  by_cases husable : p.config.fullScan = true ∨
      ∀ file, d.lookup ⟨x.base, .sealed⟩ = some file → sealedMarkerSize ≤ file.length
  · rw [and_iff_right husable]
    have htally : Tally (recoveredSegment p d x.base false) (recordsAt d x.base) := by
      refine Tally.recovered p (hlog ▸ hlen) ?_
      intro hquick file hfile
      obtain ⟨-, hscan, -⟩ := branchOf_quick hquick
      rcases husable with hfull | hwhole
      · rw [hfull] at hscan
        cases hscan
      · rw [h.recordsAt]
        rcases hmark file hfile with htells | hshort
        · exact htells
        · exact absurd (hwhole file hfile) (Nat.not_le.mpr hshort)
    rw [h.recordsAt] at htally
    exact htally.counts_iff hne hlen
  · -- the counters were never set
    rw [not_or] at husable
    obtain ⟨hquick, hsome⟩ := husable
    push Not at hsome
    obtain ⟨file, hfile, hshort⟩ := hsome
    have hzero := recordCount_of_short p (Bool.not_eq_true _ ▸ hquick) hfile hshort
    constructor
    · intro hcounts
      have hcount := hcounts.count
      rw [hzero] at hcount
      exact absurd (List.length_eq_zero_iff.mp hcount.symm) hne
    · rintro ⟨hfull | hwhole, -⟩
      · exact absurd hfull hquick
      · exact absurd (hwhole file hfile) (Nat.not_le.mpr hshort)

end Closed

def rollIssued (p : Partition) (d : Disk) : List (FileOp FileName) :=
  (p.rollSegmentUnlocked {} (Fs.start d)).2.2.trace

/-- What a kill inside a roll leaves: the logs and markers that were there, and of
the marker of the old segment nothing or its first bytes. -/
structure MidRoll (p : Partition) (old : LogSegment) (d e : Disk) : Prop where
  logs : ∀ base, base ≠ p.nextOffset → e.lookup ⟨base, .log⟩ = d.lookup ⟨base, .log⟩
  markers : ∀ base, base ≠ old.baseOffset → e.lookup ⟨base, .sealed⟩ = d.lookup ⟨base, .sealed⟩
  marker : ∀ file, e.lookup old.sealedFile = some file → ∃ k, file = old.marker.bytes.take k

section Kills

variable {p : Partition} {old : LogSegment} {d e : Disk}

theorem MidRoll.of_lookup {e' : Disk} (h : MidRoll p old d e)
    (hsame : ∀ f : FileName, f.kind ≠ .index → f ≠ ⟨p.nextOffset, .log⟩ →
      e'.lookup f = e.lookup f) :
    MidRoll p old d e' where
  logs base hbase := (hsame _ (by simp) (by simpa using hbase)).trans (h.logs base hbase)
  markers base hbase := (hsame _ (by simp) (by simp)).trans (h.markers base hbase)
  marker file hfile := by
    rw [hsame _ (by simp [LogSegment.sealedFile]) (by simp [LogSegment.sealedFile])] at hfile
    exact h.marker file hfile

theorem MidRoll.of_marker {e' : Disk} (h : MidRoll p old d e) {k : ℕ}
    (hself : e'.lookup old.sealedFile = some (old.marker.bytes.take k))
    (hsame : ∀ f, f ≠ old.sealedFile → e'.lookup f = e.lookup f) : MidRoll p old d e' where
  logs base hbase := (hsame _ (by simp [LogSegment.sealedFile])).trans (h.logs base hbase)
  markers base hbase := (hsame _ (by simpa [LogSegment.sealedFile] using hbase)).trans
    (h.markers base hbase)
  marker file hfile := ⟨k, Option.some.inj (hfile.symm.trans hself)⟩

/-- **Every kill inside a roll.** -/
theorem holdsThroughout_midRoll (p : Partition) {old : LogSegment} {d : Disk}
    (hnone : d.lookup old.sealedFile = none) :
    HoldsThroughout (MidRoll p old d) d (p.rollOps old) := by
  have hstart : MidRoll p old d d := ⟨fun _ _ => rfl, fun _ _ => rfl, fun file hfile => by
    rw [hnone] at hfile
    cases hfile⟩
  have hlog : MidRoll p old d ((FileOp.create (p.newSegment p.nextOffset).logFile).apply d) :=
    hstart.of_lookup fun f _ hf => (lookup_create d _ f).trans (if_neg hf)
  have hopen : MidRoll p old d (applyAll d (p.newSegment p.nextOffset).openOps) :=
    hlog.of_lookup fun f hf _ => (lookup_create _ _ f).trans
      (if_neg fun heq => hf (by rw [heq]; rfl))
  set d2 := applyAll d (p.newSegment p.nextOffset).openOps with hd2
  have hnone2 : d2.lookup old.sealedFile = none := by
    rw [hd2, LogSegment.lookup_openOps, if_neg (by
      simp [LogSegment.sealedFile, LogSegment.indexFile, LogSegment.logFile]), hnone]
  have hcreate : MidRoll p old d ((FileOp.create old.sealedFile).apply d2) := by
    refine @MidRoll.of_marker p old d d2 _ hopen 0 ?_ ?_
    · rw [lookup_create, if_pos rfl, hnone2]
      rfl
    · exact fun f hf => (lookup_create _ _ f).trans (if_neg hf)
  have hwrite : ∀ k, MidRoll p old d ((FileOp.append old.sealedFile (old.marker.bytes.take k)).apply
      ((FileOp.create old.sealedFile).apply d2)) := by
    intro k
    refine @MidRoll.of_marker p old d d2 _ hopen k ?_ ?_
    · rw [lookup_append, if_pos rfl, lookup_create, if_pos rfl, hnone2]
      rfl
    · intro f hf
      rw [lookup_append, if_neg hf, lookup_create, if_neg hf]
  have hwhole := hwrite old.marker.bytes.length
  rw [List.take_length] at hwhole
  have hmarks : HoldsThroughout (MidRoll p old d) d2 old.markerOps := by
    refine HoldsThroughout.cons (by simp) hopen ?_
    refine HoldsThroughout.cons_append hcreate (fun k => hwrite k) ?_
    exact HoldsThroughout.cons (by simp) hwhole (HoldsThroughout.nil hwhole)
  refine HoldsThroughout.cons (by simp) hstart ?_
  refine HoldsThroughout.cons (by simp) hlog ?_
  refine HoldsThroughout.cons (by simp) hopen ?_
  refine HoldsThroughout.append (holdsThroughout_flushOps hopen old) ?_
  refine HoldsThroughout.append hmarks ?_
  refine HoldsThroughout.append (holdsThroughout_flushOps hmarks.final old) ?_
  exact HoldsThroughout.cons (by simp) hmarks.final (HoldsThroughout.nil hmarks.final)

end Kills

/-! ## The next start -/

theorem forall_closed_bases {pre : List SegmentData} {s : SegmentData} {tail : Bytes}
    (h : DiskInv d (pre ++ [s]) tail) (P : UInt64 → Prop) :
    (∀ base ∈ (basesOf d).dropLast, P base) ↔ ∀ x ∈ pre, P x.base := by
  rw [h.basesOf, List.map_append, List.map_singleton, List.dropLast_concat, List.forall_mem_map]

theorem metadataRight_iff {d' : Disk} {x : SegmentData} (h : SegFiles d x [])
    (hlog : d'.lookup ⟨x.base, .log⟩ = recoveredFile p d x.base false .log) :
    MetadataRight d' (recoveredSegment p d x.base false) ↔
      Counts (recoveredSegment p d x.base false) x.records := by
  obtain ⟨-, -, hfile⟩ := h.recoveredLog p false
  have hlookup : d'.lookup (recoveredSegment p d x.base false).logFile =
      some (encodeAll x.records) := by
    rw [LogSegment.logFile, recoveredSegment_baseOffset, hlog, hfile]
  constructor
  · rintro ⟨rs, hrs, hfits, hcounts⟩
    rw [hlookup, Option.some.injEq] at hrs
    rwa [encodeAll_injective (fun r hr => (h.fits r hr).encodable)
      (fun r hr => (hfits r hr).encodable) hrs]
  · exact fun hcounts => ⟨x.records, hlookup, h.fits, hcounts⟩

theorem MidRoll.tells {fs : FileSystem} (h : Reached p fs) {old : LogSegment}
    (hold : old ∈ p.segments) {e : Disk} (hmid : MidRoll p old fs.dir e) (hne : base ≠ p.nextOffset)
    (hfile : e.lookup ⟨base, .sealed⟩ = some file) :
    MarkerTells file (recordsAt e base) ∨ file.length < sealedMarkerSize := by
  have hrecords : recordsAt e base = recordsAt fs.dir base := recordsAt_congr (hmid.logs base hne)
  rw [hrecords]
  by_cases hbase : base = old.baseOffset
  · subst hbase
    obtain ⟨k, rfl⟩ := hmid.marker file hfile
    rcases Nat.lt_or_ge k sealedMarkerSize with hshort | hwhole
    · right
      rw [List.length_take]
      exact (Nat.min_le_left _ _).trans_lt hshort
    · left
      rw [List.take_of_length_le (old.marker.length_bytes ▸ hwhole)]
      exact (h.tallied.segments old hold).markerTells
  · left
    rw [hmid.markers base hbase] at hfile
    exact h.tallied.markers base file hfile

/-- **Kills inside a roll.** After the next start, quick or full, the counters of all
closed segments are those of their logs if and only if a quick start finds no part
of a marker and no closed segment has negative timestamps only. -/
theorem metadata_after_roll_crash_iff {p : Partition} {fs : FileSystem} (h : Reached p fs)
    (hrolls : p.segments = [] ∨ ∃ key value, p.rollsFor key value = true) {e : Disk}
    (hkill : Killed fs.dir (rollIssued p fs.dir) e) (full : Bool) :
    ∃ p' fs', (reopened p full).openAndRecover (Fs.start e) = (.OK, p', fs') ∧
      ((∀ seg ∈ p'.segments.dropLast, MetadataRight fs'.dir seg) ↔
        ∀ base ∈ (basesOf e).dropLast, MarkerUsable full e base) := by
  rcases h.opened with hfresh | ⟨pre, s, start, hinv, hchain, hroom⟩
  · -- nothing is closed yet
    have hissued : rollIssued p fs.dir = firstRollOps p := by
      rw [rollIssued, @Fresh.roll_eq p (Fs.start fs.dir) hfresh {} rfl rfl]
      exact List.nil_append _
    rw [hissued] at hkill
    have hdisk : DiskInv e [] [] ∨ ∃ tail, DiskInv e ([] ++ [⟨0, []⟩]) tail := by
      rcases hfresh.kills_newFiles e hkill with rfl | hdisk
      · exact Or.inl hfresh.disk
      · exact Or.inr hdisk
    have hbases : basesOf e = [0] := by
      rcases hdisk with hdisk | ⟨tail, hdisk⟩
      · rw [basesOf, hdisk.listBaseOffsets]
        rfl
      · exact hdisk.basesOf
    have hlen : ∀ base, (logOf e base).length < 2 ^ 32 := by
      rcases hdisk with hdisk | ⟨tail, hdisk⟩
      · exact hdisk.length_logOf
      · exact hdisk.length_logOf
    obtain ⟨p', fs', heq, hrec⟩ := openAndRecover_any (reopened p full) (Fs.start e) hlen
    change RecoveredAny (reopened p full) p' e fs'.dir at hrec
    refine ⟨p', fs', heq, ?_⟩
    rw [hrec.segments, hbases]
    simp [recoveredSegments]
  · have hempty : p.segments ≠ [] := by
      obtain ⟨closed, active, hsegs, -⟩ := hinv.segments
      simp [hsegs]
    obtain ⟨key, value, hroll⟩ := hrolls.resolve_left hempty
    obtain ⟨-, hne⟩ := @PartInv.makeRoom_roll p (Fs.start fs.dir) pre s hinv key value hroll
    have hnext := (hinv.next_toNat hchain hroom).trans (chained_end hchain).symm
    obtain ⟨p1, closed, active, hsegs, hroll_eq, -, -, -, -, hhold⟩ :=
      @PartInv.roll p (Fs.start fs.dir) pre s start hinv hchain hne hnext
    have hissued : rollIssued p fs.dir = p.rollOps active := by
      rw [rollIssued, hroll_eq]
      exact List.nil_append _
    rw [hissued] at hkill
    have hmid : MidRoll p active fs.dir e :=
      holdsThroughout_midRoll p (hinv.openOn hchain hsegs).2.unmarked e hkill
    obtain ⟨segs, tail, hsome, hdisk, hchain', hflat⟩ := hhold e hkill
    obtain rfl | ⟨pre', s', rfl⟩ := List.eq_nil_or_concat' segs
    · exact absurd rfl hsome
    obtain ⟨p', fs', heq, hrec⟩ :=
      openAndRecover_any (reopened p full) (Fs.start e) hdisk.length_logOf
    change RecoveredAny (reopened p full) p' e fs'.dir at hrec
    refine ⟨p', fs', heq, ?_⟩
    rw [hrec.dropLast_eq hdisk, List.forall_mem_map, forall_closed_bases hdisk]
    obtain ⟨-, -, hclosed, -, -, -, -⟩ := diskInv_snoc.mp hdisk
    obtain ⟨-, hrecords, -, -⟩ := chained_snoc.mp hchain'
    refine forall₂_congr ?_
    intro x hx
    rw [metadataRight_iff (hclosed x hx).files (hrec.files_closed hdisk hx .log)]
    have hbase : x.base ≠ p.nextOffset := by
      intro heq
      have hlt := UInt64.lt_iff_toNat_lt.mp (base_lt_of_mem hchain' hx)
      have hend := chained_end hchain
      have hend' := chained_end hchain'
      rw [heq] at hlt
      rw [hflat] at hend'
      omega
    have hscan : (reopened p full).config.fullScan = full := by
      cases full <;> rfl
    rw [counts_recovered_iff (hclosed x hx).files (hrecords x hx) ?_, hscan]
    intro file hfile
    rw [← (hclosed x hx).files.recordsAt]
    exact hmid.tells h (by rw [hsegs]; simp) hbase hfile

def unmarkedRoll : Disk :=
  applyAll singleRecord.fs.dir ((rollIssued singleRecord.part singleRecord.fs.dir).take 5)

def emptyMarkerRoll : Disk :=
  applyAll singleRecord.fs.dir ((rollIssued singleRecord.part singleRecord.fs.dir).take 6)

theorem metadata_after_roll_crash_unmarked :
    (∀ base ∈ (basesOf unmarkedRoll).dropLast, MarkerUsable false unmarkedRoll base) ∧
    ∃ p' fs', (reopened singleRecord.part false).openAndRecover (Fs.start unmarkedRoll) =
        (.OK, p', fs') ∧ ∀ seg ∈ p'.segments.dropLast, MetadataRight fs'.dir seg := by
  have husable : ∀ base ∈ (basesOf unmarkedRoll).dropLast,
    MarkerUsable false unmarkedRoll base := by
    have hbases : (basesOf unmarkedRoll).dropLast = [0] := by decide +kernel
    have hnone : unmarkedRoll.lookup ⟨0, .sealed⟩ = none := by decide +kernel
    have hpos : ∃ r ∈ recordsAt unmarkedRoll 0, 0 ≤ r.timestampMs.toInt := by decide +kernel
    rw [hbases]
    intro base hbase
    obtain rfl := List.mem_singleton.mp hbase
    refine ⟨Or.inr ?_, hpos⟩
    intro file hfile
    rw [hnone] at hfile
    cases hfile
  refine ⟨husable, ?_⟩
  have hreached : Reached singleRecord.part singleRecord.fs := by
    refine reached_run 0 [] { segmentMaxBytes := 30 } ?_ (by decide)
    intro op hop
    obtain rfl := List.mem_singleton.mp hop
    exact (show 0 + 0 < 2 ^ 32 - 28 by decide)
  obtain ⟨p', fs', heq, hiff⟩ := @metadata_after_roll_crash_iff singleRecord.part singleRecord.fs
    hreached (Or.inr ⟨[], [], by decide +kernel⟩) unmarkedRoll
    (Killed.of_prefix (List.take_prefix _ _) _) false
  exact ⟨p', fs', heq, hiff.mpr husable⟩

/-- **A part of a marker costs the counters**: the closed segment has a record, and
its count is 0. -/
theorem metadata_lost_with_empty_marker : singleRecord.part.rollsFor [] [] = true ∧
    Killed singleRecord.fs.dir (rollIssued singleRecord.part singleRecord.fs.dir) emptyMarkerRoll ∧
    ∀ p' fs', (reopened singleRecord.part false).openAndRecover (Fs.start emptyMarkerRoll) =
        (.OK, p', fs') → ¬∀ seg ∈ p'.segments.dropLast, MetadataRight fs'.dir seg := by
  refine ⟨by decide +kernel, Killed.of_prefix (List.take_prefix _ _) _, ?_⟩
  intro p' fs' heq hright
  set res := (reopened singleRecord.part false).openAndRecover (Fs.start emptyMarkerRoll)
  have hclosed : (res.2.1.segments.dropLast.map fun seg => (seg.baseOffset, seg.recordCount)) =
      [(0, 0)] := by decide +kernel
  have hlog : res.2.2.dir.lookup ⟨0, .log⟩ ≠ some [] := by decide +kernel
  rw [heq] at hclosed hlog
  obtain ⟨seg, hseg, hpair⟩ := List.mem_map.mp (hclosed ▸ List.mem_singleton_self _)
  obtain ⟨hbase, hzero⟩ := Prod.mk.inj hpair
  obtain ⟨rs, hfile, -, hcounts⟩ := hright seg hseg
  have hcount := hcounts.count
  rw [hzero] at hcount
  obtain rfl : rs = [] := List.length_eq_zero_iff.mp hcount.symm
  rw [LogSegment.logFile, hbase] at hfile
  exact hlog hfile

end StreamForge
