import StreamForge.Storage.SegmentRule

/-!
# A run beyond the last offset

Offsets are 64 bits wide and `m_next_offset` is incremented without a check, so
what is proved over runs of fewer than 2^64 records need not hold beyond. `edge` is
a run of exactly 2^64 records, with the last of them alone in its segment; the
files that use it show how invariants of segments end there.
-/

namespace StreamForge

open FileTrace FileHandle LogSegment StreamForge.Partition

/-! ## An append that rolls -/

/-- The partition behind a record that went into a segment of its own. -/
def Partition.rolledWith (p : Partition) (closed : List LogSegment) (r : Record) : Partition :=
  { p with
    segments := closed ++ [(p.newSegment p.nextOffset).appended r]
    nextOffset := p.nextOffset + 1 }

variable {p : Partition} {pre : List SegmentData} {r : Record} {closed : List LogSegment}
    {active : LogSegment} {st : RunState}

theorem PartInv.appendRecord_rolls {fs : FileSystem} {s : SegmentData} {start : ℕ}
    (h : PartInv p fs.dir pre s) (hchain : Chained start (pre ++ [s])) (hr : r.Fits)
    (hnext : p.nextOffset.toNat = s.base.toNat + s.records.length) (hoff : r.offset = p.nextOffset)
    (hroll : p.rollsFor r.key r.value = true) (sync : Bool) :
    ∃ closed fs', p.appendRecord r.key r.value r.timestampMs sync {} fs =
        (.OK, p.rolledWith closed r, fs') ∧
      PartInv (p.rolledWith closed r) fs'.dir (pre ++ [s]) ⟨p.nextOffset, [r]⟩ ∧
      Chained start ((pre ++ [s]) ++ [⟨p.nextOffset, [r]⟩]) := by
  obtain ⟨closed, active, hsegs, -, hactive⟩ := h.segments
  obtain ⟨hmake, hne⟩ := h.makeRoom_roll hroll
  have hroom := hmake.trans (rollSegmentUnlocked_eq fs hsegs (h.next_absent hne hnext (by simp)))
  have hsame : ∀ f, f ≠ ⟨s.base, .sealed⟩ → (applyAll fs.dir (p.rollOps active)).lookup f =
      (applyAll fs.dir (p.newSegment p.nextOffset).openOps).lookup f :=
    fun f hf => lookup_rollOps p fs.dir active (by rwa [sealedFile, hactive.base])
  have hinv := h.rolled hne hnext hsegs hsame
  have hchain' := chained_next hchain hne hnext
  rw [@opened_blank p fs.dir p.nextOffset (h.next_absent hne hnext (by simp))
    (h.next_index hne hnext)] at hroom hinv
  have hsplit : closed ++ [{ active with isSealed := true }, p.newSegment p.nextOffset] =
      (closed ++ [{ active with isSealed := true }]) ++ [p.newSegment p.nextOffset] := by simp
  obtain ⟨closed', active', hsegs', hclosed', hactive'⟩ := hinv.segments
  obtain ⟨rfl, hlast⟩ := List.append_inj' (hsegs'.symm.trans hsplit) rfl
  obtain rfl : active' = p.newSegment p.nextOffset := List.singleton_inj.mp hlast
  obtain ⟨hdisk, hmatch, hchain2, -⟩ := appendActive_spec hinv.disk hactive' hchain' hr
    (by rw [hoff]; rfl) (by simpa using RecordCodec.size_lt_of_fits hr) sync
  have happ := appendRecord_of_room hroom hsplit rfl hoff hr sync
  refine ⟨closed ++ [({ active with isSealed := true } : LogSegment)], _, happ, ?_, hchain2⟩
  rw [Fs.execAll_dir, Fs.execAll_dir]
  exact ⟨hdisk, ⟨_, _, rfl, hclosed', hmatch⟩, rfl⟩

theorem PartInv.appendRecord_active {fs : FileSystem} {s : SegmentData} {start : ℕ}
    (h : PartInv p fs.dir pre s) (hchain : Chained start (pre ++ [s])) (hr : r.Fits)
    (hnext : p.nextOffset.toNat = s.base.toNat + s.records.length) (hoff : r.offset = p.nextOffset)
    (sync : Bool) :
    ∃ p' fs' pre' base rs, p.appendRecord r.key r.value r.timestampMs sync {} fs = (.OK, p', fs') ∧
      PartInv p' fs'.dir pre' ⟨base, rs ++ [r]⟩ ∧ Chained start (pre' ++ [⟨base, rs ++ [r]⟩]) ∧
      flat (pre' ++ [⟨base, rs ++ [r]⟩]) = flat (pre ++ [s]) ++ [r] := by
  cases hroll : p.rollsFor r.key r.value with
  | true =>
    obtain ⟨closed, fs', heq, hinv, hchain'⟩ := h.appendRecord_rolls hchain hr hnext hoff hroll sync
    refine ⟨_, fs', _, p.nextOffset, [], heq, hinv, hchain', ?_⟩
    rw [flat_append, flat_singleton, List.nil_append]
  | false =>
    obtain ⟨hmake, hlen⟩ := h.makeRoom_stay hr hroll
    obtain ⟨p', ops, heq, hwrote⟩ := h.writeRecord hchain hr hmake hoff hnext hlen sync
    refine ⟨p', _, pre, s.base, s.records, heq, hwrote.inv, hwrote.chain, ?_⟩
    rw [flat_append, flat_append, flat_singleton, flat_singleton, List.append_assoc]

theorem step_append_eq {st : RunState} {key value : Bytes} {ts : Int64} {p' : Partition}
    {fs' : FileSystem} (hfit : recordTooLarge key value = false)
    (h : st.part.appendRecord key value ts st.part.config.syncOnAppend {} st.fs = (.OK, p', fs')) :
    step st (.append key value ts) =
      ⟨p', fs', st.acked ++ [⟨st.part.nextOffset, ts, key, value⟩]⟩ := by
  simp only [step, Partition.appendWithTimestamp, hfit, Bool.false_eq_true, if_false, h,
    Status.ok_OK, if_true]

/-! ## The last offset -/

theorem settings_kept (limit interval : UInt32) : Unbroken fun p _ =>
    p.config.segmentMaxBytes = limit ∧ p.config.indexIntervalBytes = interval := by
  intro p d p' d' hchange h
  cases hchange with
  | write => exact h
  | roll => exact h
  | first => exact h
  | drop => exact h
  | recover full hopened heq =>
    rw [(hopened.recovered heq).1.config]
    exact h

/-- A value whose record does not fit a segment of `edgeConfig` beside another. -/
def bigValue : Bytes := [0, 0, 0, 0, 0]

def edgeConfig : StorageConfig := { segmentMaxBytes := 60, indexIntervalBytes := 0 }

/-- Records for all offsets but the last two, a big one, and the record for the
last offset. -/
def edgeOps (n : ℕ) : List Op :=
  emptyAppends (n + 1) ++ [.append [] bigValue 0] ++ [.append [] [] 0]

def edge (n : ℕ) : RunState := run (RunState.init (Partition.new 0 [] edgeConfig)) (edgeOps n)

theorem bigValue_not_tooLarge : recordTooLarge [] bigValue = false := by decide

theorem blank_fits (offset : UInt64) : (⟨offset, 0, [], []⟩ : Record).Fits :=
  show 28 + 0 + 0 ≤ maxRecordSize by decide

theorem bigValue_fits (offset : UInt64) : (⟨offset, 0, [], bigValue⟩ : Record).Fits :=
  show 28 + 0 + 5 ≤ maxRecordSize by decide

theorem edgeOps_sized (n : ℕ) : ∀ op ∈ edgeOps n, op.Sized := by
  intro op hop
  simp only [edgeOps, List.mem_append, List.mem_singleton] at hop
  rcases hop with (hop | rfl) | rfl
  · exact emptyAppends_sized _ op hop
  · exact (show 0 + bigValue.length < 2 ^ 32 - 28 by decide)
  · exact (show 0 + 0 < 2 ^ 32 - 28 by decide)

theorem handedIn_emptyAppends (n : ℕ) : handedIn (emptyAppends n) = n := by
  simp [handedIn, emptyAppends, Op.count]

/-- **The state behind 2^64 records.** -/
structure AtEdge (st : RunState) (q : Partition) (closed : List LogSegment)
    (pre : List SegmentData) : Prop where
  part : st.part = q.rolledWith closed ⟨q.nextOffset, 0, [], []⟩
  inv : PartInv st.part st.fs.dir pre ⟨q.nextOffset, [⟨q.nextOffset, 0, [], []⟩]⟩
  chain : Chained 0 (pre ++ [⟨q.nextOffset, [⟨q.nextOffset, 0, [], []⟩]⟩])
  last : q.nextOffset.toNat = 18446744073709551615
  limit : q.config.segmentMaxBytes = 60
  interval : q.config.indexIntervalBytes = 0

theorem edge_spec {n : ℕ} (hn : n + 3 = 2 ^ 64) : ∃ q closed pre, AtEdge (edge n) q closed pre := by
  obtain ⟨hlen, pre0, s0, hrun0⟩ := run_emptyAppends 0 [] edgeConfig n (by omega)
  set st0 := run (RunState.init (Partition.new 0 [] edgeConfig)) (emptyAppends (n + 1)) with hst0
  have hend0 := hrun0.end_eq
  have hnext0 := (hrun0.inv.next_toNat hrun0.chain (by omega)).trans (chained_end hrun0.chain).symm
  -- the big record is in the active segment, whether it made a segment of its own or not
  have hbig := bigValue_fits st0.part.nextOffset
  obtain ⟨p1, fs1, pre1, base1, rs1, heq1, hinv1, hchain1, hflat1⟩ :=
    hrun0.inv.appendRecord_active hrun0.chain hbig hnext0 rfl st0.part.config.syncOnAppend
  have hstep1 := step_append_eq bigValue_not_tooLarge heq1
  have hlen1 := congrArg List.length hflat1
  rw [List.length_append, List.length_singleton] at hlen1
  have hnext1 := (hinv1.next_toNat hchain1 (by omega)).trans (chained_end hchain1).symm
  -- so the next one does not fit beside it
  have hsettings : p1.config.segmentMaxBytes = 60 ∧ p1.config.indexIntervalBytes = 0 := by
    have hrun1 := run_changes (runInv_init 0 [] edgeConfig) rfl
      (emptyAppends (n + 1) ++ [.append [] bigValue 0])
      (fun op hop => edgeOps_sized n op (List.mem_append_left _ hop)) (by
        rw [handedIn, List.map_append, List.sum_append]
        change handedIn (emptyAppends (n + 1)) + 1 < 2 ^ 64
        rw [handedIn_emptyAppends]
        omega)
    have hkept := (settings_kept 60 0).changes hrun1 ⟨rfl, rfl⟩
    rw [run_snoc, ← hst0, hstep1] at hkept
    exact hkept
  obtain ⟨closed1, active, hsegs1, -, hactive1⟩ := hinv1.segments
  have hroll : p1.rollsFor [] [] = true := by
    have hsize : active.logSizeBytes = (encodeAll rs1).length + 33 := by
      rw [hactive1.size, encodeAll_append, encodeAll_singleton, List.length_append,
        RecordCodec.length_encode_of_fits hbig]
      rfl
    have hempty : recordSize [] [] = 28 := by decide
    rw [rollsFor, hsegs1, List.getLast?_concat, Option.any_some, needsRoll,
      hsettings.1, hsize, hempty, Bool.and_eq_true, decide_eq_true_eq, decide_eq_true_eq]
    exact ⟨Nat.succ_pos _, by rw [show (60 : UInt32).toNat = 60 from rfl]; omega⟩
  obtain ⟨closed, fs2, heq2, hinv2, hchain2⟩ :=
    hinv1.appendRecord_rolls hchain1 (blank_fits _) hnext1 rfl hroll p1.config.syncOnAppend
  have hstep2 := @step_append_eq ⟨p1, fs1, st0.acked ++ [⟨st0.part.nextOffset, 0, [], bigValue⟩]⟩
    [] [] 0 _ _ emptyRecord_not_tooLarge heq2
  refine ⟨p1, closed, pre1 ++ [⟨base1, rs1 ++ [⟨st0.part.nextOffset, 0, [], bigValue⟩]⟩], ?_⟩
  rw [edge, edgeOps, run_snoc, run_snoc, ← hst0, hstep1, hstep2]
  refine ⟨rfl, hinv2, hchain2, ?_, hsettings.1, hsettings.2⟩
  have hend1 := chained_end hchain1
  omega

/-- The run with offset 0 assigned once more. -/
def pastEdge (n : ℕ) : RunState := step (edge n) (.append [] [] 0)

theorem pastEdge_entry {n : ℕ} (hn : n + 3 = 2 ^ 64) :
    ∃ seg ∈ (pastEdge n).part.segments, seg.baseOffset.toNat = 18446744073709551615 ∧
      ∃ e ∈ seg.index, e.relativeOffset = 1 := by
  obtain ⟨q, closed, pre, h⟩ := edge_spec hn
  have hsegs : (edge n).part.segments =
      closed ++ [(q.newSegment q.nextOffset).appended ⟨q.nextOffset, 0, [], []⟩] := by
    rw [h.part]
    rfl
  have hzero : (edge n).part.nextOffset = 0 := by
    rw [h.part]
    show q.nextOffset + 1 = 0
    apply UInt64.toNat_inj.mp
    rw [UInt64.toNat_add, h.last]
    rfl
  -- two empty records fit a segment
  have hstay : (edge n).part.rollsFor [] [] = false := by
    obtain ⟨closed', active, hsegs', -, hactive⟩ := h.inv.segments
    have hsize : active.logSizeBytes = 28 := by
      rw [hactive.size, encodeAll_singleton, RecordCodec.length_encode_of_fits (blank_fits _)]
      rfl
    have hlimit : (edge n).part.config.segmentMaxBytes = 60 := by
      rw [h.part]
      exact h.limit
    rw [rollsFor, hsegs', List.getLast?_concat, Option.any_some, needsRoll, hsize, hlimit]
    decide
  obtain ⟨hmake, -⟩ :=
    @PartInv.makeRoom_stay _ _ _ _ h.inv _ (blank_fits (edge n).part.nextOffset) hstay
  have hunsealed : ((q.newSegment q.nextOffset).appended ⟨q.nextOffset, 0, [], []⟩).isSealed =
      false := appended_isSealed _ _
  have happ := appendRecord_of_room hmake hsegs hunsealed rfl (blank_fits _)
    (edge n).part.config.syncOnAppend
  have hstep := step_append_eq emptyRecord_not_tooLarge happ
  refine ⟨((q.newSegment q.nextOffset).appended ⟨q.nextOffset, 0, [], []⟩).appended
    ⟨(edge n).part.nextOffset, 0, [], []⟩, ?_, ?_, ?_⟩
  · rw [pastEdge, hstep]
    simp
  · rw [appended_baseOffset, appended_baseOffset]
    exact h.last
  · have hdue : ((q.newSegment q.nextOffset).appended ⟨q.nextOffset, 0, [], []⟩).indexDue =
      true := by
      have hinterval : ((q.newSegment q.nextOffset).appended
          ⟨q.nextOffset, 0, [], []⟩).indexIntervalBytes = 0 := by
        unfold appended
        split <;> exact h.interval
      rw [indexDue, hinterval, Bool.or_eq_true, decide_eq_true_eq]
      exact Or.inr (Nat.zero_le _)
    rw [appended_index, if_pos hdue]
    refine ⟨_, List.mem_append_right _ (List.mem_singleton_self _), ?_⟩
    show relOffset _ (edge n).part.nextOffset = 1
    have hbase : q.nextOffset = 18446744073709551615 := UInt64.toNat_inj.mp h.last
    rw [relOffset, hzero, appended_baseOffset]
    show u32 (0 - q.nextOffset).toNat = 1
    rw [hbase]
    rfl

/-! ## A base offset used twice

A restart behind the last offset raises the next offset to the base of the active
segment, and the next roll opens that segment a second time. -/

theorem rollSegmentUnlocked_marked (fs : FileSystem) (hsegs : p.segments = closed ++ [active]) :
    p.rollSegmentUnlocked {} fs =
      (.OK, { p with segments := closed ++ [{ active with isSealed := true },
        (p.newSegment p.nextOffset).openedMarked fs.dir] }, fs.execAll (p.rollOps active)) := by
  unfold rollSegmentUnlocked
  rw [openFiles_marked]
  simp only [Status.if_not_ok, hsegs, List.getLast?_concat, List.dropLast_concat, sealSegment,
    writeSealedMarker_eq, flush_eq, Fs.exec_eq_execAll,
    Fs.execAll_execAll]
  simp only [rollOps, List.append_assoc, List.cons_append, List.nil_append]
  rfl

theorem makeRoom_of_needsRoll {key value : Bytes} (hsegs : p.segments = closed ++ [active])
    (hneeds : p.needsRoll active key value = true) (ft : Faults) (fs : FileSystem) :
    p.makeRoom key value ft fs = p.rollSegmentUnlocked ft fs := by
  have hempty : p.segments.isEmpty = false := by simp [hsegs]
  have hlast : p.segments.getLast? = some active := by simp [hsegs]
  simp only [makeRoom, hempty, Bool.false_eq_true, if_false, Status.ok_OK,
    Bool.not_true, hlast, hneeds, if_true]

theorem lookup_rollOps_sealed (p : Partition) (d : Disk) (old : LogSegment) :
    (applyAll d (p.rollOps old)).lookup old.sealedFile =
      some ((d.lookup old.sealedFile).getD [] ++ old.marker.bytes) := by
  have hend : applyAll d (p.rollOps old) =
      applyAll (applyAll d (p.newSegment p.nextOffset).openOps) old.markerOps := rfl
  have hopen : (applyAll d (p.newSegment p.nextOffset).openOps).lookup old.sealedFile =
      d.lookup old.sealedFile := by
    rw [lookup_openOps, if_neg (by simp [sealedFile, indexFile, logFile])]
  rw [hend, markerOps, applyAll_cons, applyAll_cons, applyAll_cons, applyAll_nil,
    apply_flush, lookup_append, if_pos rfl, lookup_create, if_pos rfl, hopen, Option.map_some]

theorem lookup_sealed_append (seg : LogSegment) (hr : r.Fits) (sync : Bool) (fs : FileSystem)
    (base : UInt64) :
    (seg.appendWithTimestamp r r.timestampMs sync {} fs).2.2.dir.lookup ⟨base, .sealed⟩ =
      fs.dir.lookup ⟨base, .sealed⟩ := by
  cases hsealed : seg.isSealed with
  | true =>
    unfold LogSegment.appendWithTimestamp
    rw [if_pos hsealed]
  | false =>
    rw [seg.appendWithTimestamp_eq r sync fs hsealed hr, Fs.execAll_dir]
    exact lookup_appendOps (by simp [logFile]) (by simp [indexFile])

/-- **An append that rolls**, whatever becomes of its record: the marker of the old
segment is behind the one that was there. -/
theorem step_rolls_sealed {value : Bytes} (hsegs : st.part.segments = closed ++ [active])
    (hneeds : st.part.needsRoll active [] value = true)
    (hfit : recordTooLarge [] value = false)
    (hr : ∀ offset, (⟨offset, 0, [], value⟩ : Record).Fits) :
    (step st (.append [] value 0)).fs.dir.lookup active.sealedFile =
      some ((st.fs.dir.lookup active.sealedFile).getD [] ++ active.marker.bytes) := by
  have hroom := (makeRoom_of_needsRoll hsegs hneeds {} st.fs).trans
    (rollSegmentUnlocked_marked st.fs hsegs)
  have hfs : (step st (.append [] value 0)).fs =
      (st.part.appendRecord [] value 0 st.part.config.syncOnAppend {} st.fs).2.2 := by
    rcases hres : st.part.appendRecord [] value 0 st.part.config.syncOnAppend {} st.fs with
      ⟨status, p', fs'⟩
    cases hok : status.ok <;> simp [step, Partition.appendWithTimestamp, hfit, hres, hok]
  have hmarker := lookup_rollOps_sealed st.part st.fs.dir active
  set opened := (st.part.newSegment st.part.nextOffset).openedMarked st.fs.dir
  have hframe := lookup_sealed_append opened (hr st.part.nextOffset)
    st.part.config.syncOnAppend (st.fs.execAll (st.part.rollOps active)) active.baseOffset
  rw [hfs, ← hmarker, ← Fs.execAll_dir]
  refine Eq.trans ?_ hframe
  have hlast : (closed ++ [{ active with isSealed := true }, opened]).getLast? = some opened := by
    simp
  unfold appendRecord
  rw [hroom]
  simp only [Status.if_not_ok, hlast]
  rcases hres : opened.appendWithTimestamp ⟨st.part.nextOffset, 0, [], value⟩ 0
    st.part.config.syncOnAppend {} (st.fs.execAll (st.part.rollOps active)) with ⟨status, seg, fs'⟩
  cases status.ok <;> simp <;> rfl

/-- A restart behind the last offset, and two records that roll. -/
def reusedEdge (n : ℕ) : RunState :=
  step (step (step (edge n) (.restart false)) (.append [] bigValue 0)) (.append [] bigValue 0)

theorem needsRoll_bigValue (hlimit : p.config.segmentMaxBytes = 60)
    (hsize : 28 ≤ active.logSizeBytes) :
    p.needsRoll active [] bigValue = true := by
  have hbig : recordSize [] bigValue = 33 := by decide
  rw [needsRoll, hlimit, hbig, Bool.and_eq_true, decide_eq_true_eq, decide_eq_true_eq,
    show (60 : UInt32).toNat = 60 from rfl]
  omega

structure Rolls (p : Partition) (base : UInt64) (closed : List LogSegment) (active : LogSegment) :
    Prop where
  segments : p.segments = closed ++ [active]
  base : active.baseOffset = base
  size : 28 ≤ active.logSizeBytes
  limit : p.config.segmentMaxBytes = 60

/-- **The restart** takes the base of the active segment for the next offset. -/
theorem AtEdge.restart {q : Partition} (h : AtEdge st q closed pre) : ∃ closed' active,
      Rolls (step st (.restart false)).part q.nextOffset closed' active ∧
      (step st (.restart false)).part.nextOffset = q.nextOffset ∧
      (step st (.restart false)).fs.dir.lookup ⟨q.nextOffset, .sealed⟩ = none ∧
      (step st (.restart false)).fs.dir.lookup ⟨q.nextOffset, .log⟩ =
        some (RecordCodec.encode ⟨q.nextOffset, 0, [], []⟩) := by
  have hlast := h.last
  obtain ⟨p1, ops, heq, hinv⟩ := @openAndRecover_wrapped (reopened st.part false)
    (Fs.start st.fs.dir) _ _ _ h.inv.disk (show q.nextOffset.toNat + 1 = 2 ^ 64 by omega)
    (show 0 < q.nextOffset.toNat by omega)
  have hlimit : p1.config.segmentMaxBytes = 60 := by
    obtain ⟨p', fs', heq', hrec⟩ := openAndRecover_any (reopened st.part false)
      (Fs.start st.fs.dir) fun base => (h.inv.disk.whole base).2
    rw [heq] at heq'
    cases heq'
    refine (congrArg StorageConfig.segmentMaxBytes hrec.config).trans ?_
    rw [h.part]
    exact h.limit
  have hstep : step st (.restart false) =
      ⟨{ p1 with nextOffset := q.nextOffset }, (Fs.start st.fs.dir).execAll ops, st.acked⟩ := by
    simp only [step, heq]
  rw [hstep]
  obtain ⟨closed', active, hsegs, -, hactive⟩ := hinv.segments
  obtain ⟨-, hopen⟩ := hinv.openOn h.chain hsegs
  obtain ⟨-, -, -, hfiles, -, -, -⟩ := diskInv_snoc.mp hinv.disk
  refine ⟨closed', active, ⟨hsegs, hactive.base, ?_, hlimit⟩, rfl, ?_, ?_⟩
  · rw [hactive.size, encodeAll_singleton, RecordCodec.length_encode_of_fits (blank_fits _)]
    exact Nat.le_add_right 28 _
  · have hnone := hopen.unmarked
    rw [hactive.base] at hnone
    exact hnone
  · rw [Fs.execAll_dir, hfiles.log, encodeAll_singleton, List.append_nil]

/-- **The roll onto the same base**: the old segment gets its marker, and the new
one goes on with the same log. -/
theorem Rolls.reuse {base : UInt64} (h : Rolls st.part base closed active)
    (hnext : st.part.nextOffset = base) (hnone : st.fs.dir.lookup ⟨base, .sealed⟩ = none)
    (hlog : st.fs.dir.lookup ⟨base, .log⟩ = some (RecordCodec.encode ⟨base, 0, [], []⟩)) :
    ∃ closed' active', Rolls (step st (.append [] bigValue 0)).part base closed' active' ∧
      (step st (.append [] bigValue 0)).fs.dir.lookup ⟨base, .sealed⟩ =
        some active.marker.bytes := by
  have hneeds := needsRoll_bigValue h.limit h.size
  have hmarker := step_rolls_sealed h.segments hneeds bigValue_not_tooLarge bigValue_fits
  rw [sealedFile, h.base, hnone, Option.getD_none, List.nil_append] at hmarker
  have hroom := (makeRoom_of_needsRoll h.segments hneeds {} st.fs).trans
    (rollSegmentUnlocked_eq st.fs h.segments (hnext ▸ hnone))
  set opened := (st.part.newSegment st.part.nextOffset).opened st.fs.dir
  have hsplit : closed ++ [{ active with isSealed := true }, opened] =
      (closed ++ [{ active with isSealed := true }]) ++ [opened] := by simp
  have happ := @appendRecord_of_room _ _ _ _ _ _ ⟨st.part.nextOffset, 0, [], bigValue⟩ hroom hsplit
    rfl rfl (bigValue_fits _) st.part.config.syncOnAppend
  have hstep := step_append_eq bigValue_not_tooLarge happ
  have hsize : opened.logSizeBytes = 28 := by
    show u32 ((st.fs.dir.lookup ⟨st.part.nextOffset, .log⟩).getD []).length = 28
    rw [hnext, hlog, Option.getD_some, RecordCodec.length_encode_of_fits (blank_fits _)]
    rfl
  refine ⟨closed ++ [({ active with isSealed := true } : LogSegment)],
    opened.appended ⟨st.part.nextOffset, 0, [], bigValue⟩, ⟨?_, ?_, ?_, ?_⟩, hmarker⟩
  · rw [hstep]
  · rw [appended_baseOffset]
    exact hnext
  · rw [appended_logSizeBytes, RecordCodec.length_encode_of_fits (bigValue_fits _), hsize]
    exact (show 28 ≤ u32 (28 + u32 33) by decide)
  · rw [hstep]
    exact h.limit

/-- **Two markers in one file.** -/
theorem reusedEdge_markers {n : ℕ} (hn : n + 3 = 2 ^ 64) : ∃ m m' : SealedMarker,
    (reusedEdge n).fs.dir.lookup ⟨18446744073709551615, .sealed⟩ = some (m.bytes ++ m'.bytes) := by
  obtain ⟨q, closed, pre, h⟩ := edge_spec hn
  obtain ⟨closed1, active1, hrolls1, hnext1, hnone1, hlog1⟩ := h.restart
  obtain ⟨closed2, active2, hrolls2, hmarker2⟩ := hrolls1.reuse hnext1 hnone1 hlog1
  have hmarker := step_rolls_sealed hrolls2.segments
    (needsRoll_bigValue hrolls2.limit hrolls2.size) bigValue_not_tooLarge bigValue_fits
  have hbase : q.nextOffset = 18446744073709551615 := UInt64.toNat_inj.mp h.last
  rw [sealedFile, hrolls2.base, hmarker2, Option.getD_some, hbase] at hmarker
  refine ⟨active1.marker, active2.marker, ?_⟩
  rw [reusedEdge]
  exact hmarker

end StreamForge
