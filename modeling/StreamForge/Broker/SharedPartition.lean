import Mathlib.Logic.Relation
import StreamForge.Broker.StorageInvariant

/-!
# A partition and its threads

A partition of a running broker as its threads see it. `append`, a retention
pass and a whole `append_batch` hold the lock of the partition, but `next_offset`
and `earliest_offset` do not ask for it: they see a batch while it is being
written. So a batch takes one step to lock, one for every record and one to
unlock, and anything that needs no lock may come in between.

`Track` is what the callers know: every record that was appended, and every
batch that was acknowledged. What one step does to it is one of five things
(`Track.Step`).
-/

namespace StreamForge

open FileTrace

/-! ## The partition -/

structure Ack where
  base : UInt64
  nowMs : Int64
  batch : List (Bytes × Bytes)

def Ack.records (a : Ack) : List Record := assign a.base a.nowMs a.batch

structure OpenBatch extends Ack where
  left : List (Bytes × Bytes)

structure Track where
  log : List Record := []
  acks : List Ack := []
  writing : Option OpenBatch := none

def Track.left (t : Track) : List (Bytes × Bytes) := (t.writing.map OpenBatch.left).getD []

structure Shared extends Track where
  part : Partition
  dir : Disk

namespace Shared

def new (partitionId : UInt32) (partitionDir : Bytes) (config : StorageConfig) : Shared where
  part := Partition.new partitionId partitionDir config
  dir := ∅

def append (s : Shared) (key value : Bytes) (timestampMs : Int64) : Shared :=
  match s.part.appendWithTimestamp key value timestampMs {} (Fs.start s.dir) with
  | (.ok offset, part, fs) => { s with
      part, dir := fs.dir
      log := s.log ++ [⟨offset, timestampMs, key, value⟩]
      acks := s.acks ++ [⟨offset, timestampMs, [(key, value)]⟩] }
  | (.error _, part, fs) => { s with part, dir := fs.dir }

def lock (s : Shared) (batch : List (Bytes × Bytes)) (nowMs : Int64) : Shared :=
  { s with writing := some ⟨⟨s.part.nextOffset, nowMs, batch⟩, batch⟩ }

/-- One round of the loop; an error ends it. -/
def write (s : Shared) (w : OpenBatch) (key value : Bytes) (rest : List (Bytes × Bytes)) : Shared :=
  match s.part.appendRecord key value w.nowMs false {} (Fs.start s.dir) with
  | (st, part, fs) =>
    if st.ok then { s with
      part, dir := fs.dir
      log := s.log ++ [⟨s.part.nextOffset, w.nowMs, key, value⟩]
      writing := some { w with left := rest } }
    else { s with part, dir := fs.dir, writing := none }

def unlock (s : Shared) (w : OpenBatch) : Shared :=
  { s with
    dir := (if s.part.config.syncOnAppend then s.part.flush (Fs.start s.dir)
      else Fs.start s.dir).dir
    acks := s.acks ++ [w.toAck]
    writing := none }

def retain (s : Shared) (retentionMs retentionBytes : UInt64) (dryRun : Bool) (nowMs : Int64) :
    Shared :=
  match s.part.scanAndDeleteSegments retentionMs retentionBytes dryRun nowMs (Fs.start s.dir) with
  | (_, part, fs) => { s with part, dir := fs.dir }

def restart (s : Shared) (partitionId : UInt32) (partitionDir : Bytes) (config : StorageConfig) :
    Shared :=
  match (Partition.new partitionId partitionDir config).openAndRecover (Fs.start s.dir) with
  | (_, part, fs) => { s with part, dir := fs.dir, writing := none }

end Shared

inductive SharedOp where
  | append (key value : Bytes) (timestampMs : Int64)
  | lock (batch : List (Bytes × Bytes)) (nowMs : Int64)
  | write
  | unlock
  | retain (retentionMs retentionBytes : UInt64) (dryRun : Bool) (nowMs : Int64)

/-- **One step of some thread.** -/
inductive Work (s : Shared) : SharedOp → Shared → Prop where
  | append (key value : Bytes) (timestampMs : Int64) : s.writing = none →
      Work s (.append key value timestampMs) (s.append key value timestampMs)
  | lock (batch : List (Bytes × Bytes)) (nowMs : Int64) : s.writing = none →
      Partition.refusesBatch batch = false → Work s (.lock batch nowMs) (s.lock batch nowMs)
  | write {w : OpenBatch} {key value : Bytes} {rest : List (Bytes × Bytes)} : s.writing = some w →
      w.left = (key, value) :: rest → Work s .write (s.write w key value rest)
  | unlock {w : OpenBatch} : s.writing = some w → w.left = [] → Work s .unlock (s.unlock w)
  | retain (retentionMs retentionBytes : UInt64) (dryRun : Bool) (nowMs : Int64) :
      s.writing = none →
      Work s (.retain retentionMs retentionBytes dryRun nowMs)
        (s.retain retentionMs retentionBytes dryRun nowMs)

/-- Any number of steps that satisfy `P` in the states they find. -/
def Works (P : Shared → SharedOp → Prop) : Shared → Shared → Prop :=
  Relation.ReflTransGen fun s s' => ∃ op, P s op ∧ Work s op s'

inductive Lived (P : Shared → SharedOp → Prop) : Shared → Prop where
  | new (partitionId : UInt32) (partitionDir : Bytes) (config : StorageConfig) :
      Lived P (Shared.new partitionId partitionDir config)
  | work {s s' : Shared} {op : SharedOp} : Lived P s → P s op → Work s op s' → Lived P s'
  | restart {s : Shared} (partitionId : UInt32) (partitionDir : Bytes) (config : StorageConfig) :
      Lived P s → s.writing = none → Lived P (s.restart partitionId partitionDir config)

/-- The limits of the types: records shorter than 2^32 - 28 bytes, and fewer
than 2^64 of them. -/
def SharedOp.Within (s : Shared) : SharedOp → Prop
  | .append key value _ => key.length + value.length < 2 ^ 32 - 28 ∧ s.log.length + 1 < 2 ^ 64
  | .lock batch _ => (∀ item ∈ batch, item.1.length + item.2.length < 2 ^ 32 - 28) ∧
      s.log.length + batch.length < 2 ^ 64
  | _ => True

instance (s : Shared) : ∀ op : SharedOp, Decidable (op.Within s)
  | .append _ _ _ => inferInstanceAs (Decidable (_ ∧ _))
  | .lock _ _ => inferInstanceAs (Decidable (_ ∧ _))
  | .write => isTrue trivial
  | .unlock => isTrue trivial
  | .retain _ _ _ _ => isTrue trivial

/-! ## What a step does -/

/-- **The changes of a track.** Offsets are positions in the log. -/
inductive Track.Step (t : Track) : Track → Prop where
  | same : Track.Step t t
  | append (key value : Bytes) (timestampMs : Int64) : t.writing = none → Track.Step t { t with
      log := t.log ++ [⟨UInt64.ofNat t.log.length, timestampMs, key, value⟩]
      acks := t.acks ++ [⟨UInt64.ofNat t.log.length, timestampMs, [(key, value)]⟩] }
  | lock {batch : List (Bytes × Bytes)} (nowMs : Int64) : t.writing = none → batch ≠ [] →
      Track.Step t { t with
        writing := some ⟨⟨UInt64.ofNat t.log.length, nowMs, batch⟩, batch⟩ }
  | write {w : OpenBatch} {key value : Bytes} {rest : List (Bytes × Bytes)} : t.writing = some w →
      w.left = (key, value) :: rest → Track.Step t { t with
        log := t.log ++ [⟨UInt64.ofNat t.log.length, w.nowMs, key, value⟩]
        writing := some { w with left := rest } }
  | unlock {w : OpenBatch} : t.writing = some w → w.left = [] → Track.Step t { t with
      acks := t.acks ++ [w.toAck]
      writing := none }

theorem Track.Step.log_grows {t t' : Track} (h : t.Step t') : t.log <+: t'.log := by
  cases h with
  | same => exact List.prefix_rfl
  | append key value timestampMs _ => exact List.prefix_append ..
  | lock nowMs _ _ => exact List.prefix_rfl
  | write _ _ => exact List.prefix_append ..
  | unlock _ _ => exact List.prefix_rfl

structure TrackInv (t : Track) : Prop where
  room : t.log.length + t.left.length < 2 ^ 64
  sized : ∀ item ∈ t.left, item.1.length + item.2.length < 2 ^ 32 - 28
  fits : ∀ item ∈ t.left, Partition.recordTooLarge item.1 item.2 = false

/-- **The invariant of a partition in use.** -/
structure SharedInv (s : Shared) : Prop extends TrackInv s.toTrack where
  holds : Holds s.part s.dir ⟨s.log, s.part.earliestOffset.toNat⟩

section Step

variable {s s' : Shared}

theorem SharedInv.log_lt (h : SharedInv s) : s.log.length < 2 ^ 64 :=
  lt_of_le_of_lt (Nat.le_add_right _ _) h.room

theorem SharedInv.nextOffset (h : SharedInv s) : s.part.nextOffset = UInt64.ofNat s.log.length :=
  h.holds.nextOffset h.log_lt

theorem SharedInv.next_toNat (h : SharedInv s) : s.part.nextOffset.toNat = s.log.length :=
  h.holds.1.next_toNat h.log_lt

theorem SharedInv.consecutive (h : SharedInv s) : Consecutive 0 s.log := h.holds.1.1

theorem SharedInv.earliest_le (h : SharedInv s) : s.part.earliestOffset.toNat ≤ s.log.length :=
  h.holds.earliest_le

theorem Track.left_of_none {t : Track} (h : t.writing = none) : t.left = [] := by
  rw [Track.left, h]
  rfl

theorem trackInv_idle {t : Track} (hwriting : t.writing = none) (hroom : t.log.length < 2 ^ 64) :
    TrackInv t where
  room := by
    rw [Track.left_of_none hwriting]
    exact hroom
  sized := by simp [Track.left_of_none hwriting]
  fits := by simp [Track.left_of_none hwriting]

theorem sharedInv_new (partitionId : UInt32) (partitionDir : Bytes) (config : StorageConfig) :
    SharedInv (Shared.new partitionId partitionDir config) where
  toTrackInv := trackInv_idle rfl (by simp [Shared.new])
  holds := holds_new partitionId partitionDir config

theorem sharedInv_idle {earliest : ℕ} (hwriting : s.writing = none)
    (hholds : Holds s.part s.dir ⟨s.log, earliest⟩) (hroom : s.log.length < 2 ^ 64) :
    SharedInv s where
  toTrackInv := trackInv_idle hwriting hroom
  holds := ⟨hholds.1, rfl⟩

theorem SharedInv.append (h : SharedInv s) (hwriting : s.writing = none) {key value : Bytes}
    (timestampMs : Int64) (hsmall : key.length + value.length < 2 ^ 32 - 28)
    (hroom : s.log.length + 1 < 2 ^ 64) :
    SharedInv (s.append key value timestampMs) ∧
      s.toTrack.Step (s.append key value timestampMs).toTrack := by
  unfold Shared.append
  cases hlarge : Partition.recordTooLarge key value with
  | true =>
    rw [appendWithTimestamp_refused hlarge]
    exact ⟨sharedInv_idle hwriting h.holds h.log_lt, .same⟩
  | false =>
    obtain ⟨p', fs, heq, hholds, -⟩ :=
      h.holds.appendRecord timestampMs s.part.config.syncOnAppend hsmall hlarge h.log_lt
    have happ : s.part.appendWithTimestamp key value timestampMs {} (Fs.start s.dir) =
        (.ok s.part.nextOffset, p', fs) := by
      rw [Partition.appendWithTimestamp, hlarge, if_neg Bool.false_ne_true, heq]
      rfl
    rw [happ]
    simp only [h.nextOffset]
    exact ⟨sharedInv_idle hwriting hholds (by simpa using hroom), .append _ _ _ hwriting⟩

theorem SharedInv.write (h : SharedInv s) {w : OpenBatch} {key value : Bytes}
    {rest : List (Bytes × Bytes)} (hwriting : s.writing = some w)
    (hleft : w.left = (key, value) :: rest) :
    SharedInv (s.write w key value rest) ∧ s.toTrack.Step (s.write w key value rest).toTrack := by
  have hall : s.left = (key, value) :: rest := by
    rw [Track.left, hwriting]
    exact hleft
  obtain ⟨hroom, hsized, hfits⟩ := h.toTrackInv
  rw [hall] at hroom hsized hfits
  obtain ⟨p', fs, heq, hholds, -⟩ := h.holds.appendRecord w.nowMs false
    (hsized (key, value) (by simp)) (hfits (key, value) (by simp)) h.log_lt
  unfold Shared.write
  rw [heq]
  simp only [Status.ok_OK, if_true, h.nextOffset]
  refine ⟨⟨⟨?_, ?_, ?_⟩, hholds.1, rfl⟩, .write hwriting hleft⟩
  · simp only [Track.left, Option.map_some, Option.getD_some, List.length_append,
      List.length_cons, List.length_nil] at hroom ⊢
    omega
  · exact fun item hitem => hsized item (List.mem_cons_of_mem _ hitem)
  · exact fun item hitem => hfits item (List.mem_cons_of_mem _ hitem)

theorem SharedInv.unlock (h : SharedInv s) {w : OpenBatch} (hwriting : s.writing = some w)
    (hleft : w.left = []) :
    SharedInv (s.unlock w) ∧ s.toTrack.Step (s.unlock w).toTrack := by
  have hdir : (s.unlock w).dir = s.dir := by
    unfold Shared.unlock
    dsimp only
    split
    · exact flush_dir _ _
    · rfl
  refine ⟨@sharedInv_idle _ s.part.earliestOffset.toNat rfl ?_ h.log_lt, .unlock hwriting hleft⟩
  rw [hdir]
  exact h.holds

/-- **Every step keeps the invariant** and changes the track in one of the five
ways. -/
theorem SharedInv.step (h : SharedInv s) {op : SharedOp} (hin : op.Within s)
    (hwork : Work s op s') :
    SharedInv s' ∧ s.toTrack.Step s'.toTrack := by
  cases hwork with
  | append key value timestampMs hwriting => exact h.append hwriting timestampMs hin.1 hin.2
  | lock batch nowMs hwriting hfit =>
    refine ⟨⟨⟨hin.2, hin.1, recordTooLarge_of_refusesBatch hfit⟩, h.holds⟩, ?_⟩
    unfold Shared.lock
    simp only [h.nextOffset]
    refine .lock nowMs hwriting ?_
    rintro rfl
    cases hfit
  | write hwriting hleft => exact h.write hwriting hleft
  | unlock hwriting hleft => exact h.unlock hwriting hleft
  | retain retentionMs retentionBytes dryRun nowMs hwriting =>
    obtain ⟨cs, p', fs, earliest, heq, hholds⟩ :=
      h.holds.scanAndDeleteSegments h.log_lt retentionMs retentionBytes dryRun nowMs
    unfold Shared.retain
    rw [heq]
    exact ⟨@sharedInv_idle _ earliest hwriting hholds h.log_lt, .same⟩

end Step

section Runs

variable {s s' : Shared} {P : Shared → SharedOp → Prop}

theorem Works.mono {Q : Shared → SharedOp → Prop} (h : Works P s s')
    (hPQ : ∀ s op, P s op → Q s op) :
    Works Q s s' := by
  refine Relation.ReflTransGen.mono ?_ _ _ h
  rintro s₁ s₂ ⟨op, hP, hwork⟩
  exact ⟨op, hPQ _ _ hP, hwork⟩

/-- **A run keeps the invariant**, and the log only grows. -/
theorem SharedInv.works (h : SharedInv s) (hworks : Works (fun s op => op.Within s) s s') :
    SharedInv s' ∧ s.log <+: s'.log := by
  induction hworks with
  | refl => exact ⟨h, List.prefix_rfl⟩
  | tail _ hstep ih =>
    obtain ⟨op, hin, hwork⟩ := hstep
    obtain ⟨hinv, hchange⟩ := ih.1.step hin hwork
    exact ⟨hinv, ih.2.trans hchange.log_grows⟩

theorem SharedInv.restart (h : SharedInv s) (partitionId : UInt32)
    (partitionDir : Bytes) (config : StorageConfig) :
    SharedInv (s.restart partitionId partitionDir config) := by
  obtain ⟨q, fs, heq, hholds⟩ :=
    h.holds.recovers h.log_lt (Partition.new partitionId partitionDir config)
  unfold Shared.restart
  rw [heq]
  exact sharedInv_idle rfl hholds h.log_lt

theorem Lived.sharedInv (h : Lived (fun s op => op.Within s) s) : SharedInv s := by
  induction h with
  | new partitionId partitionDir config => exact sharedInv_new partitionId partitionDir config
  | work _ hin hwork ih => exact (ih.step hin hwork).1
  | restart partitionId partitionDir config _ _ ih =>
    exact ih.restart partitionId partitionDir config

theorem Lived.works (h : Lived P s) (hworks : Works P s s') : Lived P s' := by
  induction hworks with
  | refl => exact h
  | tail _ hstep ih =>
    obtain ⟨op, hP, hwork⟩ := hstep
    exact ih.work hP hwork

end Runs

end StreamForge
