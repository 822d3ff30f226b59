import Mathlib.Data.List.Induction
import StreamForge.Storage.Recovery
import StreamForge.Storage.Retention

/-!
# Whole runs of a partition

A run is any sequence of appends, batches, retention passes and restarts, from
a partition object on an empty directory. Beside the partition and its files
the run keeps the list of records that were acknowledged, as it follows from
the offsets the calls returned.

`RunInv` is the invariant of all runs; the offset counter has 64 bits, so it is
kept as long as fewer than 2^64 records are handed in.
-/

namespace StreamForge

open FileTrace FileHandle StreamForge.Partition

inductive Op where
  | append (key value : Bytes) (timestampMs : Int64)
  | batch (items : List (Bytes × Bytes)) (nowMs : Int64)
  | retain (retentionMs retentionBytes : UInt64) (dryRun : Bool) (nowMs : Int64)
  | restart (full : Bool)

def Op.count : Op → ℕ
  | .append _ _ _ => 1
  | .batch items _ => items.length
  | .retain _ _ _ _ => 0
  | .restart _ => 0

def Op.Sized : Op → Prop
  | .append key value _ => key.length + value.length < 2 ^ 32 - 28
  | .batch items _ => ∀ item ∈ items, item.1.length + item.2.length < 2 ^ 32 - 28
  | .retain _ _ _ _ => True
  | .restart _ => True

structure RunState where
  part : Partition
  fs : FileSystem
  acked : List Record

def reopened (p : Partition) (full : Bool) : Partition :=
  Partition.new p.partitionId p.partitionDir
    { p.config with startupScan := ascii (if full then "full" else "quick") }

def step (st : RunState) : Op → RunState
  | .append key value ts =>
    match st.part.appendWithTimestamp key value ts {} st.fs with
    | (.ok offset, p, fs) => ⟨p, fs, st.acked ++ [⟨offset, ts, key, value⟩]⟩
    | (.error _, p, fs) => ⟨p, fs, st.acked⟩
  | .batch items nowMs =>
    match st.part.appendBatch items nowMs [] st.fs with
    | (.ok offset, p, fs) => ⟨p, fs, st.acked ++ assign offset nowMs items⟩
    | (.error _, p, fs) => ⟨p, fs, st.acked⟩
  | .retain retentionMs retentionBytes dryRun nowMs =>
    match st.part.scanAndDeleteSegments retentionMs retentionBytes dryRun nowMs st.fs with
    | (_, p, fs) => ⟨p, fs, st.acked⟩
  | .restart full =>
    match (reopened st.part full).openAndRecover (Fs.start st.fs.dir) with
    | (_, p, fs) => ⟨p, fs, st.acked⟩

def run (st : RunState) (ops : List Op) : RunState := ops.foldl step st

def RunState.init (p : Partition) : RunState := ⟨p, Fs.start ∅, []⟩

theorem run_snoc (st : RunState) (ops : List Op) (op : Op) :
    run st (ops ++ [op]) = step (run st ops) op := by
  simp [run]

/-! ## A partition that was never opened -/

structure Fresh (p : Partition) (d : Disk) : Prop where
  segments : p.segments = []
  next : p.nextOffset = 0
  disk : DiskInv d [] []

def firstRoll (p : Partition) (d : Disk) : Partition :=
  { p with segments := [(p.newSegment p.nextOffset).opened d] }

def firstRollOps (p : Partition) : List (FileOp FileName) :=
  (p.newSegment p.nextOffset).openOps ++ [.flushDir]

variable {p : Partition} {d : Disk} {fs : FileSystem} {value : Bytes} {start : ℕ} {rs : List Record}
    {st : RunState} {pre : List SegmentData} {s : SegmentData}

theorem Fresh.lookup_none (h : Fresh p d) (f : FileName) : d.lookup f = none := by
  by_contra hf
  obtain ⟨s, hs, -⟩ := h.disk.recent f hf
  simp at hs

theorem Fresh.roll_eq {p : Partition} {fs : FileSystem} (h : Fresh p fs.dir) {ft : Faults}
    (hlog : ft.openLog = false) (hindex : ft.openIndex = false) :
    p.rollSegmentUnlocked ft fs = (.OK, firstRoll p fs.dir, fs.execAll (firstRollOps p)) := by
  have hopen := @openFiles_new p fs ft p.nextOffset hlog hindex (by rw [h.lookup_none]; rfl)
  rw [LogSegment.openFiles_unsealed (p.newSegment p.nextOffset) fs (h.lookup_none _)] at hopen
  unfold rollSegmentUnlocked
  rw [hopen]
  simp only [Status.if_not_ok, h.segments,
    List.getLast?_nil, Fs.exec_eq_execAll, Fs.execAll_execAll]
  rfl

theorem Fresh.inv {p : Partition} {fs : FileSystem} (h : Fresh p fs.dir) :
    PartInv (firstRoll p fs.dir) (applyAll fs.dir (firstRollOps p)) [] ⟨0, []⟩ := by
  set d1 := (FileOp.create ⟨0, .log⟩).apply fs.dir with hd1
  set d2 := (FileOp.create ⟨0, .index⟩).apply d1 with hd2
  have hinv1 : DiskInv d1 ([] ++ [⟨0, []⟩]) [] := by
    refine (h.disk.blank 0).firstSegment ?_ ?_
    · rw [hd1, lookup_create, if_pos rfl, h.lookup_none]
      rfl
    · intro f hf
      rw [hd1, lookup_create, if_neg hf]
  have hinv2 : DiskInv d2 ([] ++ [⟨0, []⟩]) [] := by
    refine hinv1.setActiveIndex ?_
    intro f hf
    exact (lookup_create d1 ⟨0, .index⟩ f).trans (if_neg hf)
  have hend : applyAll fs.dir (firstRollOps p) = d2 := by
    rw [firstRollOps, h.next]
    rfl
  have hindex2 : d2.lookup ⟨0, .index⟩ = some [] := by
    rw [hd2, lookup_create, if_pos rfl, hd1, lookup_create, if_neg (by simp), h.lookup_none]
    rfl
  obtain ⟨hsize, hindex⟩ := @opened_of_absent p fs.dir p.nextOffset (h.lookup_none _)
    (by rw [h.lookup_none]; rfl)
  rw [hend]
  refine ⟨hinv2, ⟨[], (p.newSegment p.nextOffset).opened fs.dir, rfl, List.Forall₂.nil, ?_⟩, ?_⟩
  · refine ⟨⟨h.next, by simpa using hsize, hindex ▸ IndexSound.nil _⟩, rfl, ?_, fun _ => rfl⟩
    rw [hindex, hindex2]
    rfl
  · simp [firstRoll, h.next]

variable {ft : Faults} {i : ℕ} {segs : List LogSegment} {xs : List SegmentData}

theorem Fresh.makeRoom_eq (h : Fresh p fs.dir) (hlog : ft.openLog = false)
    (hindex : ft.openIndex = false) (key value : Bytes) :
    p.makeRoom key value ft fs =
      (firstRoll p fs.dir).makeRoom key value ft (fs.execAll (firstRollOps p)) := by
  simp only [makeRoom, h.segments, List.isEmpty_nil, if_true, h.roll_eq hlog hindex,
    firstRoll, List.isEmpty_cons, Bool.false_eq_true, if_false, Status.ok_OK, Bool.not_true]

theorem Fresh.appendRecord_eq (h : Fresh p fs.dir) (hlog : ft.openLog = false)
    (hindex : ft.openIndex = false) (key value : Bytes) (ts : Int64) (sync : Bool) :
    p.appendRecord key value ts sync ft fs =
      (firstRoll p fs.dir).appendRecord key value ts sync ft (fs.execAll (firstRollOps p)) := by
  unfold appendRecord
  rw [h.makeRoom_eq hlog hindex]

theorem Fresh.appendWithTimestamp_eq (h : Fresh p fs.dir) {key : Bytes} (ts : Int64)
    (hfit : recordTooLarge key value = false) :
    p.appendWithTimestamp key value ts {} fs =
      (firstRoll p fs.dir).appendWithTimestamp key value ts {} (fs.execAll (firstRollOps p)) := by
  unfold appendWithTimestamp
  rw [hfit, if_neg Bool.false_ne_true, if_neg Bool.false_ne_true, h.appendRecord_eq rfl rfl]
  rfl

theorem Fresh.appendRecords_eq {p : Partition} {fs : FileSystem} (h : Fresh p fs.dir)
    {fts : List Faults} (hlog : (fts.headD {}).openLog = false)
    (hindex : (fts.headD {}).openIndex = false) {batch : List (Bytes × Bytes)} (hne : batch ≠ [])
    (nowMs : Int64) : p.appendRecords nowMs batch fts fs =
      (firstRoll p fs.dir).appendRecords nowMs batch fts (fs.execAll (firstRollOps p)) := by
  cases batch with
  | nil => exact absurd rfl hne
  | cons item rest =>
    obtain ⟨key, value⟩ := item
    unfold appendRecords
    rw [h.appendRecord_eq hlog hindex]

theorem Fresh.appendBatch_eq (h : Fresh p fs.dir) {batch : List (Bytes × Bytes)} (nowMs : Int64)
    (hfit : refusesBatch batch = false) :
    p.appendBatch batch nowMs [] fs =
      (firstRoll p fs.dir).appendBatch batch nowMs [] (fs.execAll (firstRollOps p)) := by
  have hne : batch ≠ [] := by
    rintro rfl
    cases hfit
  rw [appendBatch_accepted hfit, appendBatch_accepted hfit,
    @Fresh.appendRecords_eq p fs h [] rfl rfl _ hne]
  rfl

/-! ## The invariant of a run -/

theorem Consecutive.append {a b : List Record} (ha : Consecutive start a)
    (hb : Consecutive (start + a.length) b) : Consecutive start (a ++ b) := by
  intro i r hr
  by_cases hi : i < a.length
  · rw [List.getElem?_append_left hi] at hr
    exact ha i r hr
  · rw [List.getElem?_append_right (by omega)] at hr
    have := hb _ r hr
    omega

theorem Consecutive.drop (h : Consecutive start rs) (n : ℕ) :
    Consecutive (start + n) (rs.drop n) := by
  intro i r hr
  rw [List.getElem?_drop] at hr
  have := h _ r hr
  omega

theorem Consecutive.map_offset (h : Consecutive start rs) :
    rs.map (fun r => r.offset.toNat) = List.range' start rs.length := by
  apply List.ext_getElem
  · simp
  · intro i hi _
    rw [List.getElem_map, List.getElem_range', Nat.one_mul]
    exact h i _ (List.getElem?_eq_getElem (by simpa using hi))

theorem Consecutive.getLast (h : Consecutive start rs) (hne : 0 < rs.length)
    (hroom : start + rs.length < 2 ^ 64) :
    ∃ last, rs.getLast? = some last ∧ (last.offset + 1).toNat = start + rs.length := by
  have hin : rs.length - 1 < rs.length := by omega
  have hlast := List.getElem?_eq_getElem hin
  refine ⟨rs[rs.length - 1], by rw [List.getLast?_eq_getElem?, hlast], ?_⟩
  have hoff := h _ _ hlast
  have hone : (1 : UInt64).toNat = 1 := rfl
  rw [UInt64.toNat_add, hone]
  omega

theorem consecutive_assign (ts : Int64) (batch : List (Bytes × Bytes)) :
    ∀ {next : UInt64}, next.toNat + batch.length ≤ 2 ^ 64 →
    Consecutive next.toNat (assign next ts batch) := by
  induction batch with
  | nil =>
    intro next _
    exact Consecutive.nil _
  | cons item rest ih =>
    intro next h
    simp only [List.length_cons] at h
    intro i r hr
    cases i with
    | zero =>
      simp only [assign, List.getElem?_cons_zero, Option.some.injEq] at hr
      simp [← hr]
    | succ i =>
      simp only [assign, List.getElem?_cons_succ] at hr
      -- a record that is there leaves room for the increment
      have hi : i < rest.length := by
        have := (List.getElem?_eq_some_iff.mp hr).1
        simpa using this
      have hone : (next + 1).toNat = next.toNat + 1 := by
        rw [UInt64.toNat_add]
        have : (1 : UInt64).toNat = 1 := rfl
        omega
      have := ih (by omega) i r hr
      omega

/-- A partition in use: the directory holds the acknowledged records from
`start` on. -/
structure Running (st : RunState) (pre : List SegmentData) (s : SegmentData) (start : ℕ) :
    Prop where
  inv : PartInv st.part st.fs.dir pre s
  chain : Chained start (pre ++ [s])
  le : start ≤ st.acked.length
  stored : flat (pre ++ [s]) = st.acked.drop start

/-- **The invariant of a run.** -/
def RunInv (st : RunState) : Prop :=
  Consecutive 0 st.acked ∧
    ((Fresh st.part st.fs.dir ∧ st.acked = []) ∨ ∃ pre s start, Running st pre s start)

theorem Running.end_eq (h : Running st pre s start) :
    start + (flat (pre ++ [s])).length = st.acked.length := by
  have hle := h.le
  rw [h.stored, List.length_drop]
  omega

theorem Running.next_toNat (h : Running st pre s start) (hroom : st.acked.length < 2 ^ 64) :
    st.part.nextOffset.toNat = st.acked.length := by
  have hend := h.end_eq
  rw [h.inv.next_toNat h.chain (by omega)]
  exact hend

theorem RunInv.next_toNat (h : RunInv st) (hroom : st.acked.length < 2 ^ 64) :
    st.part.nextOffset.toNat = st.acked.length := by
  obtain ⟨-, ⟨hfresh, hacked⟩ | ⟨pre, s, start, hrun⟩⟩ := h
  · rw [hfresh.next, hacked]
    rfl
  · exact hrun.next_toNat hroom

theorem Running.extended (h : Running st pre s start) (hcons : Consecutive 0 st.acked)
    {new : List Record} (hnew : Consecutive st.acked.length new) {p' : Partition} {fs' : FileSystem}
    (hinv : ∃ pre' s', PartInv p' fs'.dir pre' s' ∧ Chained start (pre' ++ [s']) ∧
      flat (pre' ++ [s']) = flat (pre ++ [s]) ++ new) :
    RunInv ⟨p', fs', st.acked ++ new⟩ := by
  obtain ⟨pre', s', hinv, hchain, hflat⟩ := hinv
  refine ⟨hcons.append (by simpa using hnew), Or.inr ⟨pre', s', start, hinv, hchain, ?_, ?_⟩⟩
  · have := h.le
    simp only [List.length_append]
    omega
  · rw [hflat, h.stored, List.drop_append_of_le_length h.le]

theorem Running.added (h : Running st pre s start) (hcons : Consecutive 0 st.acked)
    {new : List Record} (hnew : Consecutive st.acked.length new) {p' : Partition}
    {ops : List (FileOp FileName)}
    (hadd : Added start (flat (pre ++ [s])) new st.part p' st.fs ops) :
    RunInv ⟨p', st.fs.execAll ops, st.acked ++ new⟩ :=
  h.extended hcons hnew hadd.inv

theorem Fresh.running {st : RunState} (h : Fresh st.part st.fs.dir) (hacked : st.acked = []) :
    Running ⟨firstRoll st.part st.fs.dir, st.fs.execAll (firstRollOps st.part), st.acked⟩
      [] ⟨0, []⟩ 0 where
  inv := h.inv
  chain := chained_snoc.mpr ⟨trivial, by simp, rfl, Consecutive.nil _⟩
  le := Nat.zero_le _
  stored := by simp [hacked]

section Step

variable {st : RunState} {pre : List SegmentData} {s : SegmentData} {start : ℕ}

theorem Running.step_append (h : Running st pre s start) (hcons : Consecutive 0 st.acked)
    (key value : Bytes) (ts : Int64) (hsmall : key.length + value.length < 2 ^ 32 - 28)
    (hroom : st.acked.length < 2 ^ 64) :
    RunInv (step st (.append key value ts)) ∧
      (step st (.append key value ts)).acked.length ≤ st.acked.length + 1 := by
  have hend := h.end_eq
  by_cases hlarge : recordTooLarge key value = true
  · simp only [step, appendWithTimestamp_refused hlarge]
    exact ⟨⟨hcons, Or.inr ⟨pre, s, start, h⟩⟩, by omega⟩
  · obtain ⟨p', ops, heq, hadd⟩ :=
      appendWithTimestamp_ok h.inv h.chain ts hsmall (by simpa using hlarge) (by omega)
    simp only [step, heq]
    refine ⟨h.added hcons ?_ hadd, by simp⟩
    have hnext := h.next_toNat hroom
    rw [← List.nil_append [_]]
    exact (Consecutive.nil _).snoc (by simpa using hnext)

theorem Running.step_batch (h : Running st pre s start) (hcons : Consecutive 0 st.acked)
    (items : List (Bytes × Bytes)) (nowMs : Int64)
    (hsmall : ∀ item ∈ items, item.1.length + item.2.length < 2 ^ 32 - 28)
    (hroom : st.acked.length + items.length < 2 ^ 64) :
    RunInv (step st (.batch items nowMs)) ∧
      (step st (.batch items nowMs)).acked.length ≤ st.acked.length + items.length := by
  cases hfit : refusesBatch items with
  | true =>
    obtain ⟨status, heq⟩ := appendBatch_refused hfit st.part nowMs [] st.fs
    simp only [step, heq]
    exact ⟨⟨hcons, Or.inr ⟨pre, s, start, h⟩⟩, by omega⟩
  | false =>
    have hend := h.end_eq
    obtain ⟨p', ops, heq, hadd⟩ := appendBatch_ok h.inv h.chain nowMs hsmall hfit (by omega)
    simp only [step, heq]
    have hnext := h.next_toNat (by omega)
    refine ⟨h.added hcons ?_ hadd, by simp⟩
    rw [← hnext]
    exact consecutive_assign nowMs items (by omega)

/-- What is left behind the first `m` segments is a later suffix of the history. -/
theorem Running.suffix (h : Running st pre s start) {m : ℕ} (hm : m ≤ pre.length) :
    Chained (start + (flat (pre.take m)).length) (pre.drop m ++ [s]) ∧
      start + (flat (pre.take m)).length ≤ st.acked.length ∧
      flat (pre.drop m ++ [s]) = st.acked.drop (start + (flat (pre.take m)).length) := by
  have hdrop : (pre ++ [s]).drop m = pre.drop m ++ [s] := List.drop_append_of_le_length hm
  have htake : (pre ++ [s]).take m = pre.take m := List.take_append_of_le_length hm
  have hchain := h.chain.drop m
  rw [hdrop, htake] at hchain
  have hsplit : flat (pre ++ [s]) = flat (pre.take m) ++ flat (pre.drop m ++ [s]) := by
    rw [← flat_append, ← List.append_assoc, List.take_append_drop]
  have hend := h.end_eq
  rw [hsplit, List.length_append] at hend
  refine ⟨hchain, by omega, ?_⟩
  have hstored := h.stored
  rw [hsplit] at hstored
  have := congrArg (List.drop (flat (pre.take m)).length) hstored
  rw [List.drop_left' rfl, List.drop_drop] at this
  exact this

theorem Running.step_retain (h : Running st pre s start) (hcons : Consecutive 0 st.acked)
    (retentionMs retentionBytes : UInt64) (dryRun : Bool) (nowMs : Int64) :
    RunInv (step st (.retain retentionMs retentionBytes dryRun nowMs)) ∧
      (step st (.retain retentionMs retentionBytes dryRun nowMs)).acked = st.acked := by
  obtain ⟨cs, p', ops, n, heq, hret⟩ :=
    scanAndDeleteSegments_spec h.inv retentionMs retentionBytes dryRun nowMs
  obtain ⟨hchain, hle, hstored⟩ := h.suffix hret.le
  simp only [step, heq, and_true]
  exact ⟨hcons, Or.inr ⟨pre.drop n, s, _, hret.inv, hchain, hle, hstored⟩⟩

theorem Running.step_restart (h : Running st pre s start) (hcons : Consecutive 0 st.acked)
    (full : Bool) (hroom : st.acked.length < 2 ^ 64) :
    RunInv (step st (.restart full)) ∧ (step st (.restart full)).acked = st.acked := by
  have hend := h.end_eq
  obtain ⟨p', ops, heq, hinv, -, -, -⟩ := @openAndRecover_spec (reopened st.part full)
    (Fs.start st.fs.dir) pre s [] start h.inv.disk h.chain (by omega)
  simp only [step, heq, and_true]
  exact ⟨hcons, Or.inr ⟨pre, s, start, hinv, h.chain, h.le, h.stored⟩⟩

end Step

/-- **Every step keeps the invariant.** -/
theorem step_runInv {st : RunState} (h : RunInv st) {op : Op} (hsized : op.Sized)
    (hroom : st.acked.length + op.count < 2 ^ 64) :
    RunInv (step st op) ∧ (step st op).acked.length ≤ st.acked.length + op.count := by
  obtain ⟨hcons, hfresh | ⟨pre, s, start, hrun⟩⟩ := h
  · obtain ⟨hfresh, hacked⟩ := hfresh
    have hrolled := hfresh.running hacked
    cases op with
    | append key value ts =>
      by_cases hlarge : recordTooLarge key value = true
      · simp only [step, appendWithTimestamp_refused hlarge]
        exact ⟨⟨hcons, Or.inl ⟨hfresh, hacked⟩⟩, by omega⟩
      · have heq := hfresh.appendWithTimestamp_eq ts (by simpa using hlarge)
        have := hrolled.step_append hcons key value ts hsized (by simp [hacked])
        simpa only [step, heq, Op.count] using this
    | batch items nowMs =>
      cases hfit : refusesBatch items with
      | true =>
        obtain ⟨status, heq⟩ := appendBatch_refused hfit st.part nowMs [] st.fs
        simp only [step, heq]
        exact ⟨⟨hcons, Or.inl ⟨hfresh, hacked⟩⟩, by omega⟩
      | false =>
        have heq := hfresh.appendBatch_eq nowMs hfit
        have := hrolled.step_batch hcons items nowMs hsized hroom
        simpa only [step, heq, Op.count] using this
    | retain retentionMs retentionBytes dryRun nowMs =>
      have hnone : st.part.scanAndDeleteSegments retentionMs retentionBytes dryRun nowMs st.fs =
          ([], st.part, st.fs) := by
        simp [scanAndDeleteSegments, hfresh.segments]
      simp only [step, hnone]
      exact ⟨⟨hcons, Or.inl ⟨hfresh, hacked⟩⟩, by omega⟩
    | restart full =>
      obtain ⟨p', ops, heq, hinv, -, -, -⟩ := @openAndRecover_empty (reopened st.part full)
        (Fs.start st.fs.dir) hfresh.disk
      simp only [step, heq]
      refine ⟨⟨hcons, Or.inr ⟨[], ⟨0, []⟩, 0, hinv, ?_, Nat.zero_le _, by simp [hacked]⟩⟩,
        by omega⟩
      exact chained_snoc.mpr ⟨trivial, by simp, rfl, Consecutive.nil _⟩
  · cases op with
    | append key value ts => exact hrun.step_append hcons key value ts hsized (by omega)
    | batch items nowMs => exact hrun.step_batch hcons items nowMs hsized hroom
    | retain retentionMs retentionBytes dryRun nowMs =>
      obtain ⟨hinv, hacked⟩ := hrun.step_retain hcons retentionMs retentionBytes dryRun nowMs
      exact ⟨hinv, by rw [hacked]; omega⟩
    | restart full =>
      obtain ⟨hinv, hacked⟩ := hrun.step_restart hcons full (by omega)
      exact ⟨hinv, by rw [hacked]; omega⟩

def handedIn (ops : List Op) : ℕ := (ops.map Op.count).sum

theorem runInv_init (partitionId : UInt32) (partitionDir : Bytes) (config : StorageConfig) :
    RunInv (RunState.init (Partition.new partitionId partitionDir config)) :=
  ⟨Consecutive.nil 0, Or.inl ⟨⟨rfl, rfl, DiskInv.empty⟩, rfl⟩⟩

/-- **Every run keeps the invariant**, by induction from its end. -/
theorem run_runInv (h : RunInv st) (hacked : st.acked = []) (ops : List Op)
    (hsized : ∀ op ∈ ops, op.Sized) (hroom : handedIn ops < 2 ^ 64) :
    RunInv (run st ops) ∧ (run st ops).acked.length ≤ handedIn ops := by
  induction ops using List.reverseRecOn with
  | nil => exact ⟨h, by simp [run, hacked]⟩
  | append_singleton ops op ih =>
    have hsum : handedIn (ops ++ [op]) = handedIn ops + op.count := by simp [handedIn]
    rw [hsum] at hroom ⊢
    obtain ⟨hinv, hlen⟩ := ih (fun o ho => hsized o (by simp [ho])) (by omega)
    rw [run_snoc]
    obtain ⟨hinv', hlen'⟩ := step_runInv hinv (hsized op (by simp)) (by omega)
    exact ⟨hinv', by omega⟩

/-! ## The log invariant -/

/-- Where segment `i` ends: the next base, or the next offset for the last one. -/
def segmentEnd (p : Partition) (i : ℕ) : UInt64 :=
  ((p.segments[i + 1]?).map LogSegment.baseOffset).getD p.nextOffset

/-- What a partition promises about its segments and its log files. -/
structure LogInvariant (p : Partition) (d : Disk) : Prop where
  bases : (p.segments.map LogSegment.baseOffset).Pairwise (· < ·)
  logs : ∀ i seg, p.segments[i]? = some seg → ∃ rs, d.lookup seg.logFile = some (encodeAll rs) ∧
    Consecutive seg.baseOffset.toNat rs ∧
    seg.baseOffset.toNat + rs.length = (segmentEnd p i).toNat
  closed : ∀ seg ∈ p.segments.dropLast, seg.isSealed = true ∧ 0 < seg.logSizeBytes
  size : ∀ seg ∈ p.segments, (d.lookup seg.logFile).map List.length = some seg.logSizeBytes

theorem Chained.getElem {segs : List SegmentData} (h : Chained start segs) {x : SegmentData}
    (hx : segs[i]? = some x) :
    Consecutive x.base.toNat x.records ∧
      ∀ y, segs[i + 1]? = some y → y.base.toNat = x.base.toNat + x.records.length := by
  induction segs generalizing start i with
  | nil => simp at hx
  | cons a rest ih =>
    obtain ⟨hb, hc, -, hrest⟩ := h
    cases i with
    | zero =>
      simp only [List.getElem?_cons_zero, Option.some.injEq] at hx
      subst hx
      refine ⟨hb ▸ hc, ?_⟩
      intro y hy
      cases rest with
      | nil => simp at hy
      | cons y' rest =>
        simp only [List.getElem?_cons_succ, List.getElem?_cons_zero, Option.some.injEq] at hy
        subst hy
        rw [hrest.1, hb]
    | succ i =>
      simp only [List.getElem?_cons_succ] at hx ⊢
      exact ih hrest hx

theorem map_base_eq (h : List.Forall₂ SegMatch segs xs) :
    segs.map LogSegment.baseOffset = xs.map SegmentData.base := by
  induction h with
  | nil => rfl
  | cons hm _ ih => simp only [List.map_cons, hm.base, ih]

theorem exists_partner {R : LogSegment → SegmentData → Prop} (h : List.Forall₂ R segs xs)
    {seg : LogSegment} (hseg : segs[i]? = some seg) : ∃ x, xs[i]? = some x ∧ R seg x := by
  induction h generalizing i with
  | nil => simp at hseg
  | cons hm _ ih =>
    cases i with
    | zero =>
      simp only [List.getElem?_cons_zero, Option.some.injEq] at hseg
      exact ⟨_, rfl, hseg ▸ hm⟩
    | succ i => exact ih hseg

theorem PartInv.logInvariant (h : PartInv p d pre s) (hchain : Chained start (pre ++ [s]))
    (hroom : start + (flat (pre ++ [s])).length < 2 ^ 64) : LogInvariant p d := by
  obtain ⟨closed, active, hsegs, hclosed, hactive⟩ := h.segments
  obtain ⟨-, -, hcl, hfiles, -, -, -⟩ := diskInv_snoc.mp h.disk
  have hmatch : List.Forall₂ SegMatch p.segments (pre ++ [s]) := by
    rw [hsegs]
    exact List.rel_append (hclosed.imp fun _ _ hm => hm.1)
      (List.Forall₂.cons hactive.toSegMatch List.Forall₂.nil)
  have hlog : ∀ x ∈ pre ++ [s], d.lookup ⟨x.base, .log⟩ = some (encodeAll x.records) := by
    intro x hx
    rcases List.mem_append.mp hx with hx | hx
    · simpa using (hcl x hx).files.log
    · rw [List.mem_singleton.mp hx]
      simpa using hfiles.log
  have hfile : ∀ seg x, SegMatch seg x → seg.logFile = ⟨x.base, .log⟩ := by
    intro seg x hm
    rw [LogSegment.logFile, hm.base]
  have hlen := hmatch.length_eq
  refine ⟨?_, ?_, ?_, ?_⟩
  · rw [map_base_eq hmatch]
    exact hchain.bases_sorted.1
  · intro i seg hseg
    obtain ⟨x, hx, hm⟩ := exists_partner hmatch hseg
    obtain ⟨hcons, hnext⟩ := hchain.getElem hx
    refine ⟨x.records, ?_, hm.base ▸ hcons, ?_⟩
    · rw [hfile seg x hm]
      exact hlog x (List.mem_of_getElem? hx)
    · unfold segmentEnd
      cases hsucc : p.segments[i + 1]? with
      | some seg' =>
        obtain ⟨y, hy, hm'⟩ := exists_partner hmatch hsucc
        simp only [Option.map_some, Option.getD_some, hm.base, hm'.base]
        exact (hnext y hy).symm
      | none =>
        -- the last segment
        have hi := (List.getElem?_eq_some_iff.mp hx).1
        have hge := List.getElem?_eq_none_iff.mp hsucc
        have hlast : i = pre.length := by
          simp only [List.length_append, List.length_singleton] at hi hlen
          omega
        rw [hlast, List.getElem?_concat_length] at hx
        cases hx
        simp only [Option.map_none, Option.getD_none, hm.base]
        rw [h.next_toNat hchain hroom]
        exact chained_end hchain
  · intro seg hseg
    rw [hsegs, List.dropLast_concat] at hseg
    obtain ⟨i, hi⟩ := List.mem_iff_getElem?.mp hseg
    obtain ⟨x, hx, hm, hsealed⟩ := exists_partner hclosed hi
    refine ⟨hsealed, ?_⟩
    rw [hm.size, List.length_pos_iff, ne_eq, encodeAll_eq_nil]
    exact (chained_snoc.mp hchain).2.1 x (List.mem_of_getElem? hx)
  · intro seg hseg
    obtain ⟨i, hi⟩ := List.mem_iff_getElem?.mp hseg
    obtain ⟨x, hx, hm⟩ := exists_partner hmatch hi
    rw [hfile seg x hm, hlog x (List.mem_of_getElem? hx), hm.size]
    rfl

theorem RunInv.logInvariant (h : RunInv st) (hroom : st.acked.length < 2 ^ 64) :
    LogInvariant st.part st.fs.dir := by
  obtain ⟨-, ⟨hfresh, -⟩ | ⟨pre, s, start, hrun⟩⟩ := h
  · refine ⟨?_, ?_, ?_, ?_⟩ <;> simp [hfresh.segments]
  · have hend := hrun.end_eq
    exact hrun.inv.logInvariant hrun.chain (by omega)

/-- **The log invariant over whole runs.** While fewer than 2^64 records are
handed in, every run from an empty directory leaves the segments as promised,
and the acknowledged offsets are `0, 1, 2, …`. -/
theorem run_log_invariant (partitionId : UInt32) (partitionDir : Bytes) (config : StorageConfig)
    (ops : List Op) (hsized : ∀ op ∈ ops, op.Sized) (hroom : handedIn ops < 2 ^ 64) :
    let st := run (RunState.init (Partition.new partitionId partitionDir config)) ops
    LogInvariant st.part st.fs.dir ∧ Consecutive 0 st.acked := by
  obtain ⟨hinv, hlen⟩ := run_runInv (runInv_init partitionId partitionDir config) rfl ops
    hsized hroom
  exact ⟨hinv.logInvariant (by omega), hinv.1⟩

/-- A run with a batch, a restart, a retention pass and an append. -/
theorem run_log_invariant_mixed :
    let ops : List Op := [.batch [([1], [2]), ([], [3])] 7, .restart true,
      .retain 0 1 false 9, .append [4] [] 8]
    let st := run (RunState.init (Partition.new 0 [] { segmentMaxBytes := 30 })) ops
    LogInvariant st.part st.fs.dir ∧ Consecutive 0 st.acked :=
  run_log_invariant 0 [] { segmentMaxBytes := 30 } _
    (by
      simp only [List.mem_cons, List.not_mem_nil, or_false, forall_eq_or_imp, forall_eq, Op.Sized]
      decide)
    (by decide)

/-! ## Where the counter wraps -/

def emptyAppends (n : ℕ) : List Op := List.replicate n (.append [] [] 0)

theorem emptyAppends_succ (n : ℕ) : emptyAppends (n + 1) = emptyAppends n ++ [.append [] [] 0] :=
  List.replicate_succ'

theorem emptyAppends_sized (n : ℕ) : ∀ op ∈ emptyAppends n, op.Sized := by
  intro op hop
  rw [List.eq_of_mem_replicate hop]
  simp [Op.Sized]

theorem emptyRecord_not_tooLarge : recordTooLarge [] [] = false := by decide

theorem Running.step_empty (h : Running st pre s 0) (hroom : st.acked.length < 2 ^ 64) :
    ∃ pre' s', Running (step st (.append [] [] 0)) pre' s' 0 ∧
      (step st (.append [] [] 0)).acked.length = st.acked.length + 1 ∧
      (step st (.append [] [] 0)).part.nextOffset = st.part.nextOffset + 1 := by
  have hend := h.end_eq
  obtain ⟨p', ops, heq, hadd⟩ := appendWithTimestamp_ok h.inv h.chain 0 (by simp)
    emptyRecord_not_tooLarge (by omega)
  obtain ⟨pre', s', hinv, hchain, hflat⟩ := hadd.inv
  simp only [step, heq]
  refine ⟨pre', s', ⟨hinv, hchain, Nat.zero_le _, ?_⟩, by simp, hadd.next⟩
  rw [hflat, h.stored, List.drop_zero, List.drop_zero]

theorem run_emptyAppends (partitionId : UInt32) (partitionDir : Bytes) (config : StorageConfig)
    (n : ℕ) (hn : n < 2 ^ 64) :
    let st := run (RunState.init (Partition.new partitionId partitionDir config))
      (emptyAppends (n + 1))
    st.acked.length = n + 1 ∧ ∃ pre s, Running st pre s 0 := by
  induction n with
  | zero =>
    set st0 := RunState.init (Partition.new partitionId partitionDir config) with hst0
    have hfresh : Fresh st0.part st0.fs.dir := ⟨rfl, rfl, DiskInv.empty⟩
    have heq := hfresh.appendWithTimestamp_eq 0 emptyRecord_not_tooLarge
    obtain ⟨pre, s, hrun, hlen, -⟩ :=
      (hfresh.running rfl).step_empty (by simp [hst0, RunState.init])
    have hstep : run st0 (emptyAppends 1) = step ⟨firstRoll st0.part st0.fs.dir,
        st0.fs.execAll (firstRollOps st0.part), st0.acked⟩ (.append [] [] 0) := by
      change step st0 (.append [] [] 0) = _
      simp only [step, heq]
    simp only [Nat.zero_add, hstep]
    exact ⟨hlen, pre, s, hrun⟩
  | succ n ih =>
    obtain ⟨hlen, pre, s, hrun⟩ := ih (by omega)
    rw [emptyAppends_succ, run_snoc]
    obtain ⟨pre', s', hrun', hlen', -⟩ := hrun.step_empty (by omega)
    exact ⟨by rw [hlen', hlen], pre', s', hrun'⟩

theorem wrapped_run (partitionId : UInt32) (partitionDir : Bytes) (config : StorageConfig) (n : ℕ)
    (hn : n + 1 = 2 ^ 64) :
    let st := run (RunState.init (Partition.new partitionId partitionDir config))
      (emptyAppends (n + 1))
    st.part.nextOffset = 0 ∧ st.acked.length = 2 ^ 64 ∧ ∃ pre s, Running st pre s 0 := by
  obtain ⟨hlen, pre, s, hrun⟩ := run_emptyAppends partitionId partitionDir config n (by omega)
  refine ⟨?_, hlen.trans hn, pre, s, hrun⟩
  have hend := hrun.end_eq
  have hbase := chained_end hrun.chain
  apply UInt64.toNat_inj.mp
  rw [hrun.inv.next, UInt64.toNat_add, UInt64.toNat_ofNat']
  have h0 : (0 : UInt64).toNat = 0 := rfl
  omega

theorem not_logInvariant_of_wrapped (h : PartInv p d pre s) (hchain : Chained start (pre ++ [s]))
    (hnext : p.nextOffset = 0) (htotal : start + (flat (pre ++ [s])).length = 2 ^ 64) :
    ¬LogInvariant p d := by
  intro hlog
  obtain ⟨closed, active, hsegs, -, hactive⟩ := h.segments
  have hlast : p.segments[closed.length]? = some active := by
    rw [hsegs, List.getElem?_concat_length]
  obtain ⟨rs, hfile, -, hrange⟩ := hlog.logs _ _ hlast
  have hend : segmentEnd p closed.length = 0 := by
    unfold segmentEnd
    rw [hsegs, List.getElem?_eq_none (by simp)]
    exact hnext
  have h0 : (0 : UInt64).toNat = 0 := rfl
  rw [hend, h0] at hrange
  have hrs : rs = [] := List.length_eq_zero_iff.mp (by omega)
  obtain ⟨-, -, -, hfiles, -, -, -⟩ := diskInv_snoc.mp h.disk
  have hbase := s.base.toNat_lt
  have htotal' := chained_end hchain
  have hstored : encodeAll rs = encodeAll s.records := by
    rw [LogSegment.logFile, hactive.base, hfiles.log, List.append_nil] at hfile
    exact (Option.some.inj hfile).symm
  rw [hrs, encodeAll_nil] at hstored
  have hempty : s.records = [] := encodeAll_eq_nil.mp hstored.symm
  rw [hempty, List.length_nil] at htotal'
  omega

/-- **The promise has a limit**: 2^64 empty records make the counter wrap. -/
theorem log_invariant_fails_at_wrap : (∀ op ∈ emptyAppends (18446744073709551615 + 1), op.Sized) ∧
    ¬LogInvariant
      (run (RunState.init (Partition.new 0 [] {})) (emptyAppends (18446744073709551615 + 1))).part
      (run (RunState.init (Partition.new 0 [] {}))
        (emptyAppends (18446744073709551615 + 1))).fs.dir := by
  refine ⟨emptyAppends_sized _, ?_⟩
  obtain ⟨hnext, hlen, pre, s, hrun⟩ := wrapped_run 0 [] {} 18446744073709551615 (by norm_num)
  have hend := hrun.end_eq
  exact not_logInvariant_of_wrapped hrun.inv hrun.chain hnext (by omega)

/-! ## Where the lengths wrap -/

def cut (b : Bytes) : Bytes := b.take (u32 b.length)

theorem length_cut (b : Bytes) : (cut b).length = u32 b.length := by
  unfold cut u32
  rw [List.length_take, Nat.min_eq_left (Nat.mod_le _ _)]

theorem u32_length_cut (b : Bytes) : u32 (cut b).length = u32 b.length := by
  rw [length_cut, u32_of_lt (u32_lt _)]

theorem cut_cut (b : Bytes) : (cut b).take (u32 b.length) = b.take (u32 b.length) := by
  unfold cut
  rw [List.take_take, Nat.min_self]

theorem encode_cut (r : Record) :
    RecordCodec.encode { r with key := cut r.key, value := cut r.value } =
      RecordCodec.encode r := by
  unfold RecordCodec.encode
  simp only [u32_length_cut, cut_cut]

theorem recordSize_cut (key value : Bytes) :
    recordSize (cut key) (cut value) = recordSize key value := by
  unfold recordSize
  rw [length_cut, length_cut]
  simp [u32]

theorem recordTooLarge_cut (key value : Bytes) :
    recordTooLarge (cut key) (cut value) = recordTooLarge key value := by
  unfold recordTooLarge
  rw [recordSize_cut]

theorem segment_append_cut (seg : LogSegment) (r : Record) (ts : Int64) (sync : Bool) (ft : Faults)
    (fs : FileSystem) :
    seg.appendWithTimestamp { r with key := cut r.key, value := cut r.value } ts sync ft fs =
      seg.appendWithTimestamp r ts sync ft fs := by
  unfold LogSegment.appendWithTimestamp
  dsimp only
  rw [← encode_cut { r with timestampMs := ts }]
  rfl

/-- **A record is appended as what its lengths leave of it.** -/
theorem appendRecord_cut (p : Partition) (key value : Bytes) (ts : Int64) (sync : Bool)
    (ft : Faults)
    (fs : FileSystem) :
    p.appendRecord (cut key) (cut value) ts sync ft fs =
      p.appendRecord key value ts sync ft fs := by
  have hroom : p.makeRoom (cut key) (cut value) ft fs = p.makeRoom key value ft fs := by
    unfold makeRoom needsRoll
    rw [recordSize_cut]
  have hseg : ∀ (seg : LogSegment) (offset : UInt64) (fs : FileSystem),
      seg.appendWithTimestamp ⟨offset, ts, cut key, cut value⟩ ts sync ft fs =
        seg.appendWithTimestamp ⟨offset, ts, key, value⟩ ts sync ft fs :=
    fun seg offset fs => segment_append_cut seg ⟨offset, ts, key, value⟩ ts sync ft fs
  unfold appendRecord
  simp only [hroom, hseg]

theorem appendRecords_cut (nowMs : Int64) (batch : List (Bytes × Bytes)) :
    ∀ (p : Partition) (fts : List Faults) (fs : FileSystem),
    p.appendRecords nowMs (batch.map fun kv => (cut kv.1, cut kv.2)) fts fs =
      p.appendRecords nowMs batch fts fs := by
  induction batch with
  | nil => exact fun _ _ _ => rfl
  | cons kv rest ih =>
    intro p fts fs
    simp only [List.map_cons, appendRecords, appendRecord_cut, ih]

theorem appendBatch_cut (p : Partition) (batch : List (Bytes × Bytes)) (nowMs : Int64)
    (fts : List Faults) (fs : FileSystem) :
    p.appendBatch (batch.map fun kv => (cut kv.1, cut kv.2)) nowMs fts fs =
      p.appendBatch batch nowMs fts fs := by
  have hlarge : (fun item : Bytes × Bytes => recordTooLarge item.1 item.2) ∘
      (fun kv : Bytes × Bytes => (cut kv.1, cut kv.2)) =
      fun item : Bytes × Bytes => recordTooLarge item.1 item.2 :=
    funext fun kv => recordTooLarge_cut kv.1 kv.2
  unfold appendBatch
  rw [List.isEmpty_map, List.find?_map, hlarge]
  cases batch.find? fun item => recordTooLarge item.1 item.2 with
  | none => simp only [Option.map_none, appendRecords_cut]
  | some item => simp only [Option.map_some, tooLargeStatus, recordSize_cut]

theorem appendWithTimestamp_overlong (p : Partition) (hvalue : value.length = 2 ^ 32) (ts : Int64)
    (ft : Faults) (fs : FileSystem) :
    p.appendWithTimestamp [] value ts ft fs = p.appendWithTimestamp [] [] ts ft fs := by
  have hcut : cut value = [] := by
    unfold cut
    rw [hvalue]
    rfl
  have hlarge := recordTooLarge_cut [] value
  have hrecord := fun sync => appendRecord_cut p [] value ts sync ft fs
  rw [hcut] at hlarge hrecord
  unfold appendWithTimestamp
  simp only [← hlarge, ← hrecord]
  rw [show cut ([] : Bytes) = [] from rfl, emptyRecord_not_tooLarge]
  rfl

/-- One append of such a value: the empty value is stored, the given one
acknowledged. -/
theorem run_overlong (hvalue : value.length = 2 ^ 32) (config : StorageConfig) :
    run (RunState.init (Partition.new 0 [] config)) [.append [] value 0] =
      { run (RunState.init (Partition.new 0 [] config)) [.append [] [] 0] with
        acked := [⟨0, 0, [], value⟩] } ∧
    (run (RunState.init (Partition.new 0 [] config)) [.append [] [] 0]).acked =
      [⟨0, 0, [], []⟩] := by
  set st0 := RunState.init (Partition.new 0 [] config)
  have hfresh : Fresh st0.part st0.fs.dir := ⟨rfl, rfl, DiskInv.empty⟩
  have heq := hfresh.appendWithTimestamp_eq 0 emptyRecord_not_tooLarge
  have hrolled := hfresh.running rfl
  obtain ⟨p', ops, happ, -⟩ := appendWithTimestamp_ok hrolled.inv hrolled.chain 0 (by simp)
    emptyRecord_not_tooLarge (by simp)
  have hnext : (firstRoll st0.part st0.fs.dir).nextOffset = 0 := rfl
  have hover := appendWithTimestamp_overlong st0.part hvalue 0 {} st0.fs
  simp only [run, List.foldl_cons, List.foldl_nil, step, hover, heq, happ, hnext]
  exact ⟨rfl, rfl⟩

end StreamForge
