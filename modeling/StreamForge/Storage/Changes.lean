import Mathlib.Logic.Relation
import StreamForge.Storage.AnyRecovery
import StreamForge.Storage.LongRecords

/-!
# What the steps of a run change

Without failures every operation on a partition comes down to five changes of its
segments and their files: a record is written to the active segment, a segment is
closed behind a new one, the first segment is made, old segments are removed, and
a restart builds the segments anew from the files. `Change` lists them with all
that is known where they happen, `run_changes` takes a whole run apart into them,
and `Reached.kept` is the rule that follows: what every change keeps holds in every
state of every run, inside its batches too.
-/

namespace StreamForge

open FileTrace FileHandle StreamForge.Partition

/-! ## Logs that are made of records -/

def recordsAt (d : Disk) (base : UInt64) : List Record := recordsOf (blocksOf (logOf d base))

variable {d : Disk} {p : Partition}

variable {d' : Disk} {base : UInt64} {st : RunState}

theorem recordsAt_congr (h : d'.lookup ⟨base, .log⟩ = d.lookup ⟨base, .log⟩) :
    recordsAt d' base = recordsAt d base := by
  unfold recordsAt logOf
  rw [h]

theorem recordsAt_of_lookup {rs : List Record} (hlog : d.lookup ⟨base, .log⟩ = some (encodeAll rs))
    (hrs : ∀ r ∈ rs, r.Fits) :
    recordsAt d base = rs := by
  have hblocks := blocksOf_encodeAll (fun r hr => (hrs r hr).encodable) nextBlock_nil
  rw [List.append_nil] at hblocks
  rw [recordsAt, logOf, hlog, Option.getD_some, hblocks, recordsOf_map_block]

section Directory

variable {d : Disk} {pre : List SegmentData} {s : SegmentData}

variable {x : SegmentData}

theorem SegFiles.recordsAt (h : SegFiles d x []) : recordsAt d x.base = x.records :=
  recordsAt_of_lookup (by simpa using h.log) h.fits

theorem DiskInv.recordsAt_closed (h : DiskInv d (pre ++ [s]) []) (hx : x ∈ pre) :
    recordsAt d x.base = x.records := by
  obtain ⟨-, -, hclosed, -, -, -, -⟩ := diskInv_snoc.mp h
  exact (hclosed x hx).files.recordsAt

theorem DiskInv.recordsAt_active (h : DiskInv d (pre ++ [s]) []) :
    recordsAt d s.base = s.records := by
  obtain ⟨-, -, -, hfiles, -, -, -⟩ := diskInv_snoc.mp h
  exact hfiles.recordsAt

theorem DiskInv.whole (h : DiskInv d (pre ++ [s]) []) (base : UInt64) :
    cutOf (logOf d base) = [] ∧ (logOf d base).length < 2 ^ 32 := by
  obtain ⟨-, hlist, hclosed, hfiles, -, -, -⟩ := diskInv_snoc.mp h
  have hfile : ∀ x : SegmentData, SegFiles d x [] →
      cutOf (logOf d x.base) = [] ∧ (logOf d x.base).length < 2 ^ 32 := by
    intro x hx
    have hlog : logOf d x.base = encodeAll x.records := by
      rw [logOf, hx.log, Option.getD_some, List.append_nil]
    have hblocks := blocksOf_encodeAll (fun r hr => (hx.fits r hr).encodable) nextBlock_nil
    rw [List.append_nil] at hblocks
    rw [hlog, cutOf_eq_nil_iff, keptOf, hblocks, flatMap_block]
    exact ⟨rfl, by simpa using hx.len⟩
  cases hlog : d.lookup ⟨base, .log⟩ with
  | none =>
    have hnil : logOf d base = [] := by rw [logOf, hlog]; rfl
    rw [hnil]
    exact ⟨(blocksOf_of_no_item nextBlock_nil).2, by simp⟩
  | some log =>
    rcases (hlist base).mp (by rw [hlog]; simp) with hb | rfl
    · obtain ⟨x, hx, rfl⟩ := List.mem_map.mp hb
      exact hfile x (hclosed x hx).files
    · exact hfile s hfiles

end Directory

/-! ## The files behind each operation -/

section Append

variable {p : Partition} {d : Disk} {pre : List SegmentData} {s : SegmentData}

theorem PartInv.forall₂ (h : PartInv p d pre s) :
    List.Forall₂ SegMatch p.segments (pre ++ [s]) := by
  obtain ⟨closed, active, hsegs, hclosed, hactive⟩ := h.segments
  rw [hsegs]
  exact List.rel_append (hclosed.imp fun _ _ hm => hm.1)
    (List.Forall₂.cons hactive.toSegMatch List.Forall₂.nil)

theorem PartInv.mem_segments (h : PartInv p d pre s) {closed : List LogSegment}
    {active : LogSegment} (hsegs : p.segments = closed ++ [active]) :
    (∀ seg ∈ closed, ∃ x ∈ pre, seg.baseOffset = x.base) ∧ active.baseOffset = s.base ∧
      active.isSealed = false := by
  obtain ⟨closed', active', hsegs', hclosed, hactive⟩ := h.segments
  obtain ⟨rfl, hlast⟩ := List.append_inj' (hsegs'.symm.trans hsegs) rfl
  obtain rfl : active' = active := List.singleton_inj.mp hlast
  refine ⟨?_, hactive.base, hactive.unsealed⟩
  intro seg hseg
  obtain ⟨i, hi⟩ := List.mem_iff_getElem?.mp hseg
  obtain ⟨x, hx, hm, -⟩ := exists_partner hclosed hi
  exact ⟨x, List.mem_of_getElem? hx, hm.base⟩

variable {f : FileName}

theorem lookup_appendOps {seg : LogSegment} {r : Record} {sync : Bool} (hl : f ≠ seg.logFile)
    (hi : f ≠ seg.indexFile) :
    (applyAll d (seg.appendOps r sync)).lookup f = d.lookup f := by
  have hflush : ∀ e : Disk, applyAll e (if sync then seg.flushOps else []) = e := by
    intro e
    cases sync <;> rfl
  rw [LogSegment.appendOps, applyAll_cons, applyAll_append, hflush, lookup_indexOps seg r _ hi,
    lookup_append, if_neg hl]

theorem lookup_rollOps (p : Partition) (d : Disk) (old : LogSegment) (hf : f ≠ old.sealedFile) :
    (applyAll d (p.rollOps old)).lookup f =
      (applyAll d (p.newSegment p.nextOffset).openOps).lookup f := by
  have hend : applyAll d (p.rollOps old) =
      applyAll (applyAll d (p.newSegment p.nextOffset).openOps) old.markerOps := rfl
  rw [hend, LogSegment.lookup_markerOps old _ hf]

end Append

theorem lookup_removeBases (bases : List UInt64) (d : Disk) (f : FileName) :
    (applyAll d (bases.flatMap removeOps)).lookup f =
      if f.base ∈ bases then none else d.lookup f := by
  induction bases generalizing d with
  | nil => simp
  | cons b bases ih =>
    rw [List.flatMap_cons, applyAll_append, ih]
    by_cases hf : f.base ∈ bases
    · rw [if_pos hf, if_pos (List.mem_cons_of_mem _ hf)]
    · rw [if_neg hf]
      by_cases hb : f.base = b
      · rw [if_pos (by simp [hb])]
        obtain ⟨x, k⟩ := f
        dsimp only at hb
        subst hb
        cases k <;> simp [removeOps, lookup_remove]
      · rw [lookup_removeOps hb, if_neg (by simp [hb, hf])]

theorem lookup_removed (segs : List LogSegment) (fs : FileSystem) (f : FileName) :
    (((segs.map candidate).foldl
      (fun fs c => removeFiles fs c.baseOffset) fs).exec .flushDir).dir.lookup f =
      if f.base ∈ segs.map LogSegment.baseOffset then none else fs.dir.lookup f := by
  have hops : ((segs.map candidate).flatMap fun c => removeOps c.baseOffset) =
      (segs.map LogSegment.baseOffset).flatMap removeOps := by
    rw [List.flatMap_map, List.flatMap_map]
    rfl
  rw [foldl_removeFiles_eq, hops]
  exact lookup_removeBases _ _ f

theorem Fresh.whole (h : Fresh p d) (base : UInt64) :
    cutOf (logOf d base) = [] ∧ (logOf d base).length < 2 ^ 32 := by
  have hnil : logOf d base = [] := by rw [logOf, h.lookup_none]; rfl
  rw [hnil]
  exact ⟨(blocksOf_of_no_item nextBlock_nil).2, by simp⟩

/-! ## Changes -/

def Opened (p : Partition) (d : Disk) : Prop :=
  Fresh p d ∨ ∃ pre s start, PartInv p d pre s ∧ Chained start (pre ++ [s]) ∧
    start + (flat (pre ++ [s])).length < 2 ^ 64

/-- **One change** to the segments of a partition and to its directory. -/
inductive Change : Partition × Disk → Partition × Disk → Prop where
  | write {p : Partition} {d : Disk} {pre : List SegmentData} {s : SegmentData} {start : ℕ}
      {closed : List LogSegment} {active : LogSegment} {r : Record} (sync : Bool) :
      PartInv p d pre s → Chained start (pre ++ [s]) → p.segments = closed ++ [active] →
      r.Fits → r.offset = p.nextOffset → p.nextOffset.toNat = s.base.toNat + s.records.length →
      p.rollsFor r.key r.value = false →
      Change (p, d) ({ p with
        segments := closed ++ [active.appended r]
        nextOffset := p.nextOffset + 1 }, applyAll d (active.appendOps r sync))
  | roll {p : Partition} {d : Disk} {pre : List SegmentData} {s : SegmentData} {start : ℕ}
      {closed : List LogSegment} {active : LogSegment} :
      PartInv p d pre s → Chained start (pre ++ [s]) → s.records ≠ [] →
      p.nextOffset.toNat = s.base.toNat + s.records.length → p.segments = closed ++ [active] →
      Change (p, d) ({ p with segments := closed ++ [{ active with isSealed := true },
        (p.newSegment p.nextOffset).opened d] }, applyAll d (p.rollOps active))
  | first {p : Partition} {d : Disk} : Fresh p d →
      Change (p, d) (firstRoll p d, applyAll d (firstRollOps p))
  | drop {p : Partition} {d d' : Disk} (n : ℕ) :
      (p.segments.map LogSegment.baseOffset).Nodup →
      (∀ f : FileName, d'.lookup f =
        if f.base ∈ (p.segments.take n).map LogSegment.baseOffset then none else d.lookup f) →
      Change (p, d) ({ p with segments := p.segments.drop n }, d')
  | recover {p p' : Partition} {d : Disk} {fs' : FileSystem} (full : Bool) : Opened p d →
      (reopened p full).openAndRecover (Fs.start d) = (.OK, p', fs') → Change (p, d) (p', fs'.dir)

abbrev Changes := Relation.ReflTransGen Change

theorem Opened.whole (h : Opened p d) (base : UInt64) :
    cutOf (logOf d base) = [] ∧ (logOf d base).length < 2 ^ 32 := by
  rcases h with hfresh | ⟨pre, s, start, hinv, -⟩
  · exact hfresh.whole base
  · exact hinv.disk.whole base

theorem DiskInv.basesOf {pre : List SegmentData} {s : SegmentData} {tail : Bytes}
    (h : DiskInv d (pre ++ [s]) tail) : basesOf d = (pre ++ [s]).map SegmentData.base := by
  rw [StreamForge.basesOf, h.listBaseOffsets, if_neg (by simp)]

theorem Fresh.basesOf (h : Fresh p d) : basesOf d = [0] := by
  rw [StreamForge.basesOf, h.disk.listBaseOffsets]
  rfl

theorem Opened.recovered {p p' : Partition} {d : Disk} {fs' : FileSystem} {full : Bool}
    (h : Opened p d)
    (heq : (reopened p full).openAndRecover (Fs.start d) = (.OK, p', fs')) :
    RecoveredAny (reopened p full) p' d fs'.dir ∧ ∃ pre s start, PartInv p' fs'.dir pre s ∧
      Chained start (pre ++ [s]) ∧ basesOf d = (pre ++ [s]).map SegmentData.base := by
  constructor
  · obtain ⟨p1, fs1, heq1, hrec⟩ := openAndRecover_any (reopened p full) (Fs.start d)
      fun base => (h.whole base).2
    rw [heq] at heq1
    cases heq1
    exact hrec
  rcases h with hfresh | ⟨pre, s, start, hinv, hchain, hroom⟩
  · obtain ⟨p1, ops, heq1, hinv, -, -, -⟩ :=
      @openAndRecover_empty (reopened p full) (Fs.start d) hfresh.disk
    rw [heq] at heq1
    cases heq1
    exact ⟨[], ⟨0, []⟩, 0, hinv, chained_snoc.mpr ⟨trivial, by simp, rfl, Consecutive.nil _⟩,
      hfresh.basesOf⟩
  · obtain ⟨p1, ops, heq1, hinv1, -, -, -⟩ :=
      @openAndRecover_spec (reopened p full) (Fs.start d) pre s [] start hinv.disk hchain hroom
    rw [heq] at heq1
    cases heq1
    exact ⟨pre, s, start, hinv1, hchain, hinv.disk.basesOf⟩

theorem lookup_of_dropped {n : ℕ} (hbases : (p.segments.map LogSegment.baseOffset).Nodup)
    (hlookup : ∀ f : FileName, d'.lookup f =
      if f.base ∈ (p.segments.take n).map LogSegment.baseOffset then none else d.lookup f)
    {seg : LogSegment} (hseg : seg ∈ p.segments.drop n) (k : FileKind) :
    d'.lookup ⟨seg.baseOffset, k⟩ = d.lookup ⟨seg.baseOffset, k⟩ := by
  rw [hlookup]
  refine if_neg ?_
  intro hmem
  rw [← List.take_append_drop n p.segments, List.map_append] at hbases
  exact (List.nodup_append.mp hbases).2.2 _ hmem _ (List.mem_map_of_mem hseg) rfl

section Append

variable {p : Partition} {fs : FileSystem} {pre : List SegmentData} {s : SegmentData} {start : ℕ}

theorem PartInv.appendRecord_changes (h : PartInv p fs.dir pre s)
    (hchain : Chained start (pre ++ [s])) {r : Record} (hr : r.Fits)
    (hnext : p.nextOffset.toNat = s.base.toNat + s.records.length)
    (hoff : r.offset = p.nextOffset) (sync : Bool) :
    ∃ p' fs', p.appendRecord r.key r.value r.timestampMs sync {} fs = (.OK, p', fs') ∧
      Changes (p, fs.dir) (p', fs'.dir) := by
  obtain ⟨closed, active, hsegs, -, hactive⟩ := h.segments
  cases hroll : p.rollsFor r.key r.value with
  | false =>
    obtain ⟨hmake, -⟩ := h.makeRoom_stay hr hroll
    exact ⟨_, _, appendRecord_of_room hmake hsegs hactive.unsealed hoff hr sync,
      .single (.write sync h hchain hsegs hr hoff hnext hroll)⟩
  | true =>
    obtain ⟨hmake, hne⟩ := h.makeRoom_roll hroll
    have hroom := hmake.trans (rollSegmentUnlocked_eq fs hsegs (h.next_absent hne hnext (by simp)))
    have hrolled := Change.roll h hchain hne hnext hsegs
    have hsame : ∀ f, f ≠ ⟨s.base, .sealed⟩ → (applyAll fs.dir (p.rollOps active)).lookup f =
        (applyAll fs.dir (p.newSegment p.nextOffset).openOps).lookup f :=
      fun f hf => lookup_rollOps p fs.dir active (by rwa [LogSegment.sealedFile, hactive.base])
    have hinv := h.rolled hne hnext hsegs hsame
    have hsplit : closed ++ [{ active with isSealed := true },
        (p.newSegment p.nextOffset).opened fs.dir] =
        (closed ++ [{ active with isSealed := true }]) ++
          [(p.newSegment p.nextOffset).opened fs.dir] := by simp
    refine ⟨_, _, appendRecord_of_room hroom hsplit rfl hoff hr sync, ?_⟩
    refine .tail (.single hrolled) ?_
    exact .write sync hinv (chained_next hchain hne hnext) hsplit hr hoff rfl
      (hinv.stays_of_empty rfl _ _)

end Append

/-- **The loop of `append_batch`**, record by record. -/
theorem BatchReady.changes {start : ℕ} (nowMs : Int64) (batch : List (Bytes × Bytes)) :
    ∀ {p : Partition} {fs : FileSystem} {pre : List SegmentData} {s : SegmentData},
    BatchReady start p fs.dir pre s batch →
    ∃ p' fs', p.appendRecords nowMs batch [] fs = (.OK, p', fs') ∧
      Changes (p, fs.dir) (p', fs'.dir) := by
  induction batch with
  | nil => exact fun _ => ⟨_, _, rfl, .refl⟩
  | cons item rest ih =>
    obtain ⟨key, value⟩ := item
    intro p fs pre s h
    have hr := h.fits nowMs
    obtain ⟨p1, ops1, heq1, hadd1⟩ := h.inv.appendRecord h.chain hr h.next rfl false
    obtain ⟨p1', fs1', heq1', hchg1⟩ := h.inv.appendRecord_changes h.chain hr h.next rfl false
    obtain ⟨pre1, s1, hinv1, hchain1, hflat1⟩ := hadd1.inv
    obtain ⟨rfl, rfl⟩ : p1 = p1' ∧ fs.execAll ops1 = fs1' := by
      have heq := heq1.symm.trans heq1'
      simp only [Prod.mk.injEq, true_and] at heq
      exact heq
    obtain ⟨p2, fs2, heq2, hchg2⟩ := @ih p1 (fs.execAll ops1) pre1 s1 (h.tail hinv1 hchain1 hflat1)
    refine ⟨p2, fs2, ?_, hchg1.trans hchg2⟩
    unfold appendRecords
    rw [List.headD_nil, heq1]
    simp only [Status.if_not_ok, List.tail_nil, heq2]

section Calls

variable {p : Partition} {fs : FileSystem} {pre : List SegmentData} {s : SegmentData} {start : ℕ}

theorem PartInv.appendWithTimestamp_changes (h : PartInv p fs.dir pre s)
    (hchain : Chained start (pre ++ [s])) {key value : Bytes} (ts : Int64)
    (hsmall : key.length + value.length < 2 ^ 32 - 28)
    (hroom : start + (flat (pre ++ [s])).length < 2 ^ 64) :
    ∀ res, p.appendWithTimestamp key value ts {} fs = res →
      Changes (p, fs.dir) (res.2.1, res.2.2.dir) := by
  rintro _ rfl
  cases hlarge : recordTooLarge key value with
  | true =>
    rw [appendWithTimestamp_refused hlarge]
  | false =>
    have hr : (⟨p.nextOffset, ts, key, value⟩ : Record).Fits :=
      (recordTooLarge_iff hsmall).mp hlarge
    have hnext := (h.next_toNat hchain hroom).trans (chained_end hchain).symm
    obtain ⟨p', fs', heq, hchg⟩ := h.appendRecord_changes hchain hr hnext rfl p.config.syncOnAppend
    unfold appendWithTimestamp
    rw [hlarge, if_neg Bool.false_ne_true, heq]
    exact hchg

theorem PartInv.appendBatch_changes (h : PartInv p fs.dir pre s)
    (hchain : Chained start (pre ++ [s])) {batch : List (Bytes × Bytes)} (nowMs : Int64)
    (hsmall : ∀ item ∈ batch, item.1.length + item.2.length < 2 ^ 32 - 28)
    (hroom : start + (flat (pre ++ [s])).length + batch.length ≤ 2 ^ 64) :
    ∀ res, p.appendBatch batch nowMs [] fs = res → Changes (p, fs.dir) (res.2.1, res.2.2.dir) := by
  rintro _ rfl
  cases hfit : refusesBatch batch with
  | true =>
    obtain ⟨status, heq⟩ := appendBatch_refused hfit p nowMs [] fs
    rw [heq]
  | false =>
    obtain ⟨p', fs', heq, hchg⟩ := BatchReady.changes nowMs batch
      ⟨h, hchain, hsmall, recordTooLarge_of_refusesBatch hfit, hroom⟩
    rw [appendBatch_accepted hfit, heq]
    simp only [Status.if_not_ok]
    cases p.config.syncOnAppend with
    | true =>
      rw [if_pos rfl, Partition.flush, foldl_flush_eq, Fs.execAll_dir, applyAll_flushAllOps]
      exact hchg
    | false => exact hchg

theorem scanAndDeleteSegments_changes (hbases : (p.segments.map LogSegment.baseOffset).Nodup)
    (retentionMs retentionBytes : UInt64) (dryRun : Bool) (nowMs : Int64) :
    ∀ res, p.scanAndDeleteSegments retentionMs retentionBytes dryRun nowMs fs = res →
      Changes (p, fs.dir) (res.2.1, res.2.2.dir) := by
  rintro _ rfl
  unfold scanAndDeleteSegments
  split
  · exact .refl
  dsimp only
  split
  · exact .refl
  split
  · exact .refl
  exact .single (.drop _ hbases (lookup_removed _ fs))

end Calls

/-! ## Steps and runs -/

section Step

variable {st : RunState} {pre : List SegmentData} {s : SegmentData} {start : ℕ}

theorem Running.bases_nodup (h : Running st pre s start) :
    (st.part.segments.map LogSegment.baseOffset).Nodup := by
  rw [map_base_eq h.inv.forall₂]
  exact h.chain.bases_sorted.1.imp UInt64.ne_of_lt

theorem RunInv.opened (h : RunInv st) (hroom : st.acked.length < 2 ^ 64) :
    Opened st.part st.fs.dir := by
  obtain ⟨-, ⟨hfresh, -⟩ | ⟨pre, s, start, hrun⟩⟩ := h
  · exact Or.inl hfresh
  · exact Or.inr ⟨pre, s, start, hrun.inv, hrun.chain, by rw [hrun.end_eq]; exact hroom⟩

def RunState.Changes (st st' : RunState) : Prop :=
  StreamForge.Changes (st.part, st.fs.dir) (st'.part, st'.fs.dir)

theorem Running.append_changes (h : Running st pre s start) {key value : Bytes} (ts : Int64)
    (hsmall : key.length + value.length < 2 ^ 32 - 28) (hroom : st.acked.length < 2 ^ 64) :
    st.Changes (step st (.append key value ts)) := by
  have hend := h.end_eq
  have hres := h.inv.appendWithTimestamp_changes h.chain ts hsmall (by omega) _ rfl
  unfold step
  dsimp only
  split
  · rename_i heq
    rw [heq] at hres
    exact hres
  · rename_i heq
    rw [heq] at hres
    exact hres

theorem Running.batch_changes (h : Running st pre s start) {items : List (Bytes × Bytes)}
    (nowMs : Int64) (hsmall : ∀ item ∈ items, item.1.length + item.2.length < 2 ^ 32 - 28)
    (hroom : st.acked.length + items.length < 2 ^ 64) :
    st.Changes (step st (.batch items nowMs)) := by
  have hend := h.end_eq
  have hres := h.inv.appendBatch_changes h.chain nowMs hsmall (by omega) _ rfl
  unfold step
  dsimp only
  split
  · rename_i heq
    rw [heq] at hres
    exact hres
  · rename_i heq
    rw [heq] at hres
    exact hres

end Step

/-- **Every step is a sequence of changes.** -/
theorem step_changes (h : RunInv st) {op : Op} (hsized : op.Sized)
    (hroom : st.acked.length + op.count < 2 ^ 64) : st.Changes (step st op) := by
  cases op with
  | append key value ts =>
    obtain ⟨-, ⟨hfresh, hacked⟩ | ⟨pre, s, start, hrun⟩⟩ := h
    · cases hlarge : recordTooLarge key value with
      | true =>
        simp only [step, appendWithTimestamp_refused hlarge]
        exact .refl
      | false =>
        have hrolled := (hfresh.running hacked).append_changes ts hsized (by simp [hacked])
        have heq : step st (.append key value ts) =
            step ⟨firstRoll st.part st.fs.dir, st.fs.execAll (firstRollOps st.part), st.acked⟩
              (.append key value ts) := by
          simp only [step, hfresh.appendWithTimestamp_eq ts hlarge]
        rw [heq]
        exact .head (.first hfresh) hrolled
    · exact hrun.append_changes ts hsized (by omega)
  | batch items nowMs =>
    obtain ⟨-, ⟨hfresh, hacked⟩ | ⟨pre, s, start, hrun⟩⟩ := h
    · cases hfit : refusesBatch items with
      | true =>
        obtain ⟨status, heq⟩ := appendBatch_refused hfit st.part nowMs [] st.fs
        simp only [step, heq]
        exact .refl
      | false =>
        have hrolled := (hfresh.running hacked).batch_changes nowMs hsized hroom
        have heq : step st (.batch items nowMs) =
            step ⟨firstRoll st.part st.fs.dir, st.fs.execAll (firstRollOps st.part), st.acked⟩
              (.batch items nowMs) := by
          simp only [step, hfresh.appendBatch_eq nowMs hfit]
        rw [heq]
        exact .head (.first hfresh) hrolled
    · exact hrun.batch_changes nowMs hsized hroom
  | retain retentionMs retentionBytes dryRun nowMs =>
    have hbases : (st.part.segments.map LogSegment.baseOffset).Nodup := by
      obtain ⟨-, ⟨hfresh, -⟩ | ⟨pre, s, start, hrun⟩⟩ := h
      · simp [hfresh.segments]
      · exact hrun.bases_nodup
    exact scanAndDeleteSegments_changes hbases retentionMs retentionBytes dryRun nowMs _ rfl
  | restart full =>
    have hopened := h.opened (by simpa [Op.count] using hroom)
    obtain ⟨p', fs', heq, -⟩ := openAndRecover_any (reopened st.part full)
      (Fs.start st.fs.dir) fun base => (hopened.whole base).2
    have hstep : step st (.restart full) = ⟨p', fs', st.acked⟩ := by
      simp only [step, heq]
    rw [hstep]
    exact .single (.recover full hopened heq)

theorem run_changes (h : RunInv st) (hacked : st.acked = []) (ops : List Op)
    (hsized : ∀ op ∈ ops, op.Sized) (hroom : handedIn ops < 2 ^ 64) : st.Changes (run st ops) := by
  induction ops using List.reverseRecOn with
  | nil => exact .refl
  | append_singleton ops op ih =>
    have hsum : handedIn (ops ++ [op]) = handedIn ops + op.count := by simp [handedIn]
    rw [hsum] at hroom
    have hbefore := fun o ho => hsized o (List.mem_append_left [op] ho)
    obtain ⟨hinv, hlen⟩ := run_runInv h hacked ops hbefore (by omega)
    rw [run_snoc]
    exact (ih hbefore (by omega)).trans (step_changes hinv (hsized op (by simp)) (by omega))

section Loop

variable {st : RunState} {p : Partition} {fs : FileSystem} {nowMs : Int64}
  {batch : List (Bytes × Bytes)}

theorem Running.loop {pre : List SegmentData} {s : SegmentData} {start : ℕ}
    (h : Running st pre s start)
    (hsmall : ∀ item ∈ batch, item.1.length + item.2.length < 2 ^ 32 - 28)
    (hlarge : ∀ item ∈ batch, recordTooLarge item.1 item.2 = false)
    (hroom : st.acked.length + batch.length < 2 ^ 64)
    (heq : st.part.appendRecords nowMs batch [] st.fs = (.OK, p, fs)) :
    Changes (st.part, st.fs.dir) (p, fs.dir) ∧ Opened p fs.dir := by
  have hend := h.end_eq
  have hready : BatchReady start st.part st.fs.dir pre s batch :=
    ⟨h.inv, h.chain, hsmall, hlarge, by omega⟩
  obtain ⟨p1, ops, heq1, hadd⟩ := appendRecords_spec batch hready
  obtain ⟨p2, fs2, heq2, hchg⟩ := hready.changes nowMs batch
  rw [heq] at heq1 heq2
  cases heq1
  cases heq2
  obtain ⟨pre', s', hinv, hchain, hflat⟩ := hadd.inv
  refine ⟨hchg, Or.inr ⟨pre', s', start, hinv, hchain, ?_⟩⟩
  rw [hflat, List.length_append, length_assign]
  omega

/-- The loop of `append_batch` in any state of a run, after any number of
records. -/
theorem RunInv.loop (h : RunInv st)
    (hsmall : ∀ item ∈ batch, item.1.length + item.2.length < 2 ^ 32 - 28)
    (hlarge : ∀ item ∈ batch, recordTooLarge item.1 item.2 = false)
    (hroom : st.acked.length + batch.length < 2 ^ 64)
    (heq : st.part.appendRecords nowMs batch [] st.fs = (.OK, p, fs)) :
    Changes (st.part, st.fs.dir) (p, fs.dir) ∧ Opened p fs.dir := by
  obtain ⟨-, ⟨hfresh, hacked⟩ | ⟨pre, s, start, hrun⟩⟩ := h
  · cases batch with
    | nil =>
      cases heq
      exact ⟨.refl, Or.inl hfresh⟩
    | cons item rest =>
      rw [@Fresh.appendRecords_eq st.part st.fs hfresh [] rfl rfl _ (by simp)] at heq
      obtain ⟨hchg, hopened⟩ := (hfresh.running hacked).loop hsmall hlarge hroom heq
      exact ⟨.head (.first hfresh) hchg, hopened⟩
  · exact hrun.loop hsmall hlarge hroom heq

end Loop

def Unbroken (I : Partition → Disk → Prop) : Prop :=
  ∀ ⦃p d p' d'⦄, Change (p, d) (p', d') → I p d → I p' d'

theorem Unbroken.changes {I : Partition → Disk → Prop} (h : Unbroken I) {a b : Partition × Disk}
    (hab : Changes a b) (ha : I a.1 a.2) : I b.1 b.2 := by
  induction hab with
  | refl => exact ha
  | tail _ hstep ih => exact h hstep ih

/-- **The states of fault-free runs**: behind any operations on a new partition,
also inside the loop of a batch whose first records `batch` are. Records may be of
any length, as long as `encode` copies nothing beyond its buffer. -/
def Reached (p : Partition) (fs : FileSystem) : Prop :=
  ∃ partitionId partitionDir config ops nowMs batch, (∀ op ∈ ops, Op.InBuffer op) ∧
    (∀ item ∈ batch, recordTooLarge item.1 item.2 = false ∧ RecordCodec.InBuffer item.1 item.2) ∧
    handedIn ops + batch.length < 2 ^ 64 ∧
    let st := run (RunState.init (Partition.new partitionId partitionDir config)) ops
    st.part.appendRecords nowMs batch [] st.fs = (.OK, p, fs)

theorem reached_run (partitionId : UInt32) (partitionDir : Bytes) (config : StorageConfig)
    {ops : List Op} (hsized : ∀ op ∈ ops, op.Sized) (hroom : handedIn ops < 2 ^ 64) :
    let st := run (RunState.init (Partition.new partitionId partitionDir config)) ops
    Reached st.part st.fs :=
  ⟨partitionId, partitionDir, config, ops, 0, [], fun op hop => (hsized op hop).inBuffer, by simp,
    hroom, rfl⟩

section Reached

variable {p : Partition} {fs : FileSystem}

theorem Reached.changes (h : Reached p fs) :
    (∃ p₀, Fresh p₀ ∅ ∧ Changes (p₀, ∅) (p, fs.dir)) ∧ Opened p fs.dir := by
  obtain ⟨partitionId, partitionDir, config, ops, nowMs, batch, hops, hbatch, hroom, heq⟩ := h
  have hinit := runInv_init partitionId partitionDir config
  have hle := handedIn_flatMap_stored ops
  have hsized : ∀ o ∈ ops.flatMap Op.stored, o.Sized := by
    intro o ho
    obtain ⟨op, hop, ho⟩ := List.mem_flatMap.mp ho
    exact Op.sized_stored (hops op hop) o ho
  obtain ⟨hinv, hlen⟩ := run_runInv hinit rfl (ops.flatMap Op.stored) hsized (by omega)
  have hrun := run_changes hinit rfl (ops.flatMap Op.stored) hsized (by omega)
  obtain ⟨hpart, hfs⟩ :=
    run_stored (RunState.init (Partition.new partitionId partitionDir config)) ops
  dsimp only at heq
  rw [hpart, hfs, ← appendRecords_cut] at heq
  obtain ⟨hchg, hopened⟩ :=
    @RunInv.loop _ p fs nowMs (batch.map fun kv => (cut kv.1, cut kv.2)) hinv
    (by
      intro item hitem
      obtain ⟨kv, hkv, rfl⟩ := List.mem_map.mp hitem
      exact cut_small (hbatch kv hkv).2)
    (by
      intro item hitem
      obtain ⟨kv, hkv, rfl⟩ := List.mem_map.mp hitem
      exact (recordTooLarge_cut kv.1 kv.2).trans (hbatch kv hkv).1)
    (by rw [List.length_map]; omega) heq
  exact ⟨⟨_, ⟨rfl, rfl, DiskInv.empty⟩, hrun.trans hchg⟩, hopened⟩

theorem Reached.opened (h : Reached p fs) : Opened p fs.dir := h.changes.2

/-- **What every change keeps holds in every state of every run.** -/
theorem Reached.kept {I : Partition → Disk → Prop} (h : Reached p fs) (hkept : Unbroken I)
    (hfresh : ∀ p d, Fresh p d → I p d) : I p fs.dir := by
  obtain ⟨p₀, hp₀, hchg⟩ := h.changes.1
  exact hkept.changes hchg (hfresh _ _ hp₀)

end Reached

end StreamForge
