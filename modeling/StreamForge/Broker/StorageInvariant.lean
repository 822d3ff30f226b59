import StreamForge.Broker.OffsetReplay
import StreamForge.Broker.RetentionManager
import StreamForge.Foundation.AssocMap

/-!
# The storage of a broker

What the storage of a broker is for: it keeps, for every topic and partition,
the records it has acknowledged, from the earliest that retention has left.
`Histories` is that abstract state, and `ManagerInv` relates it to the topic
manager and its data directory: every loaded topic has a directory with its
metadata file, every directory belongs to a loaded topic, and each partition
holds its history.

A start on the same data directory finds the same histories
(`ManagerInv.openAndRecoverAll`); topics can be created, batches appended and
segments given up without losing track of them.
-/

namespace StreamForge

open FileTrace RetentionManager

structure History where
  records : List Record := []
  earliest : ℕ := 0

/-- The abstract append: offsets are positions. -/
def History.append (h : History) (nowMs : Int64) (batch : List (Bytes × Bytes)) : History :=
  { h with records := h.records ++ assign (UInt64.ofNat h.records.length) nowMs batch }

abbrev Histories := Bytes → ℕ → History

/-! ## One partition -/

def Holds (p : Partition) (d : Disk) (h : History) : Prop :=
  RunInv ⟨p, Fs.start d, h.records⟩ ∧ p.earliestOffset.toNat = h.earliest

theorem flush_dir (p : Partition) (fs : FileSystem) : (p.flush fs).dir = fs.dir := by
  unfold Partition.flush
  rw [foldl_flush_eq, Fs.execAll_dir, applyAll_flushAllOps]

section Holds

variable {p : Partition} {d : Disk} {hist : History}

theorem RunInv.start {fs : FileSystem} {acked : List Record} (h : RunInv ⟨p, fs, acked⟩) :
    RunInv ⟨p, Fs.start fs.dir, acked⟩ := by
  obtain ⟨hcons, hfresh | ⟨pre, s, start, hrun⟩⟩ := h
  · exact ⟨hcons, Or.inl hfresh⟩
  · exact ⟨hcons, Or.inr ⟨pre, s, start, hrun.inv, hrun.chain, hrun.le, hrun.stored⟩⟩

theorem holds_new (partitionId : UInt32) (partitionDir : Bytes) (config : StorageConfig) :
    Holds (Partition.new partitionId partitionDir config) ∅ {} :=
  ⟨runInv_init partitionId partitionDir config, rfl⟩

theorem Holds.nextOffset (h : Holds p d hist) (hroom : hist.records.length < 2 ^ 64) :
    p.nextOffset = UInt64.ofNat hist.records.length := by
  rw [← h.1.next_toNat hroom]
  simp

/-- A recovery of the directory finds the history, whatever the configuration is. -/
def Recovers (d : Disk) (hist : History) : Prop :=
  ∀ q : Partition, ∃ q' fs, q.openAndRecover (Fs.start d) = (.OK, q', fs) ∧ Holds q' fs.dir hist

theorem Holds.recovers (h : Holds p d hist) (hroom : hist.records.length < 2 ^ 64) :
    Recovers d hist := by
  intro q
  have hsurvives : Survives hist.records hist.earliest d := by
    rw [← h.2]
    obtain ⟨-, ⟨hfresh, hnil⟩ | ⟨pre, s, start, hrun⟩⟩ := h.1
    · rw [hfresh.earliest]
      exact hfresh.survives hnil
    · rw [hrun.inv.earliest hrun.chain]
      exact hrun.survives
  obtain ⟨q', ops, pre, s, heq, -, hrun, -⟩ := hsurvives.recover hroom q
  exact ⟨q', _, heq, RunInv.start ⟨h.1.1, Or.inr ⟨pre, s, _, hrun⟩⟩, hrun.inv.earliest hrun.chain⟩

variable {st : RunState} {pre : List SegmentData} {s : SegmentData} {start : ℕ}
    {batch : List (Bytes × Bytes)} {key value : Bytes}

theorem Running.appendBatch (h : Running st pre s start) (hcons : Consecutive 0 st.acked)
    (nowMs : Int64) (hsmall : ∀ item ∈ batch, item.1.length + item.2.length < 2 ^ 32 - 28)
    (hfit : Partition.refusesBatch batch = false)
    (hroom : st.acked.length + batch.length < 2 ^ 64) :
    ∃ p' fs, st.part.appendBatch batch nowMs [] st.fs = (.ok st.part.nextOffset, p', fs) ∧
      RunInv ⟨p', fs, st.acked ++ assign st.part.nextOffset nowMs batch⟩ ∧
      p'.earliestOffset.toNat = start := by
  have hend := h.end_eq
  have hnext := h.next_toNat (by omega)
  obtain ⟨p', ops, heq, hadd⟩ := appendBatch_ok h.inv h.chain nowMs hsmall hfit (by omega)
  have hnew : Consecutive st.acked.length (assign st.part.nextOffset nowMs batch) := by
    rw [← hnext]
    exact consecutive_assign nowMs batch (by omega)
  obtain ⟨pre', s', hinv, hchain, -⟩ := hadd.inv
  exact ⟨p', _, heq, h.added hcons hnew hadd, hinv.earliest hchain⟩

theorem Holds.appendBatch (h : Holds p d hist) (nowMs : Int64)
    (hsmall : ∀ item ∈ batch, item.1.length + item.2.length < 2 ^ 32 - 28)
    (hfit : Partition.refusesBatch batch = false)
    (hroom : hist.records.length + batch.length < 2 ^ 64) :
    ∃ p' fs, p.appendBatch batch nowMs [] (Fs.start d) =
        (.ok (UInt64.ofNat hist.records.length), p', fs) ∧
      Holds p' fs.dir (hist.append nowMs batch) := by
  have hnext := h.nextOffset (by omega)
  obtain ⟨⟨hcons, hstate⟩, hearly⟩ := h
  rcases hstate with ⟨hfresh, hnil⟩ | ⟨pre, s, start, hrun⟩
  · have hrolled := hfresh.running hnil
    obtain ⟨p', fs, heq, hinv, hstart⟩ := hrolled.appendBatch hcons nowMs hsmall hfit hroom
    have hzero := hfresh.earliest
    refine ⟨p', fs, ?_, ?_, ?_⟩
    · rw [hfresh.appendBatch_eq nowMs hfit, heq, ← hnext]
      rfl
    · rw [History.append, ← hnext]
      exact hinv.start
    · rw [hstart, History.append, ← hearly, hzero]
      rfl
  · obtain ⟨p', fs, heq, hinv, hstart⟩ := hrun.appendBatch hcons nowMs hsmall hfit hroom
    refine ⟨p', fs, by rw [heq, hnext], ?_, ?_⟩
    · rw [History.append, ← hnext]
      exact hinv.start
    · rw [hstart, History.append, ← hearly, hrun.inv.earliest hrun.chain]

theorem Running.appendRecord (h : Running st pre s start) (hcons : Consecutive 0 st.acked)
    (ts : Int64) (sync : Bool) (hsmall : key.length + value.length < 2 ^ 32 - 28)
    (hfit : Partition.recordTooLarge key value = false) (hroom : st.acked.length < 2 ^ 64) :
    ∃ p' fs, st.part.appendRecord key value ts sync {} st.fs = (.OK, p', fs) ∧
      RunInv ⟨p', fs, st.acked ++ [⟨st.part.nextOffset, ts, key, value⟩]⟩ ∧
      p'.earliestOffset.toNat = start ∧ p'.nextOffset = st.part.nextOffset + 1 := by
  have hend := h.end_eq
  have hnext := h.next_toNat hroom
  have hr : (⟨st.part.nextOffset, ts, key, value⟩ : Record).Fits :=
    (recordTooLarge_iff hsmall).mp hfit
  have hlast : st.part.nextOffset.toNat = s.base.toNat + s.records.length :=
    (h.inv.next_toNat h.chain (by omega)).trans (chained_end h.chain).symm
  obtain ⟨p', ops, heq, hadd⟩ := h.inv.appendRecord h.chain hr hlast rfl sync
  have hnew : Consecutive st.acked.length [⟨st.part.nextOffset, ts, key, value⟩] := by
    rw [← List.nil_append [_]]
    exact (Consecutive.nil _).snoc (by simpa using hnext)
  obtain ⟨pre', s', hinv, hchain, -⟩ := hadd.inv
  exact ⟨p', _, heq, h.added hcons hnew hadd, hinv.earliest hchain, hadd.next⟩

theorem Holds.appendRecord (h : Holds p d hist) (ts : Int64) (sync : Bool)
    (hsmall : key.length + value.length < 2 ^ 32 - 28)
    (hfit : Partition.recordTooLarge key value = false) (hroom : hist.records.length < 2 ^ 64) :
    ∃ p' fs, p.appendRecord key value ts sync {} (Fs.start d) = (.OK, p', fs) ∧
      Holds p' fs.dir (hist.append ts [(key, value)]) ∧ p'.nextOffset = p.nextOffset + 1 := by
  have hnext := h.nextOffset hroom
  have happend : hist.append ts [(key, value)] =
      { hist with records := hist.records ++ [⟨p.nextOffset, ts, key, value⟩] } := by
    rw [History.append, ← hnext]
    rfl
  rw [happend]
  obtain ⟨⟨hcons, hstate⟩, hearly⟩ := h
  rcases hstate with ⟨hfresh, hnil⟩ | ⟨pre, s, start, hrun⟩
  · have hrolled := hfresh.running hnil
    obtain ⟨p', fs, heq, hinv, hstart, hone⟩ := hrolled.appendRecord hcons ts sync hsmall hfit hroom
    refine ⟨p', fs, ?_, ⟨hinv.start, ?_⟩, hone⟩
    · exact (hfresh.appendRecord_eq rfl rfl key value ts sync).trans heq
    · rw [hstart, ← hearly, hfresh.earliest]
      rfl
  · obtain ⟨p', fs, heq, hinv, hstart, hone⟩ := hrun.appendRecord hcons ts sync hsmall hfit hroom
    exact ⟨p', fs, heq, ⟨hinv.start, by rw [hstart, ← hearly, hrun.inv.earliest hrun.chain]⟩, hone⟩

theorem Holds.earliest_le (h : Holds p d hist) : hist.earliest ≤ hist.records.length := by
  obtain ⟨⟨-, ⟨hfresh, -⟩ | ⟨pre, s, start, hrun⟩⟩, hearly⟩ := h
  · rw [← hearly, hfresh.earliest]
    exact Nat.zero_le _
  · rw [← hearly, hrun.inv.earliest hrun.chain]
    exact hrun.le

theorem Holds.scanAndDeleteSegments (h : Holds p d hist) (hroom : hist.records.length < 2 ^ 64)
    (retentionMs retentionBytes : UInt64) (dryRun : Bool) (nowMs : Int64) :
    ∃ cs p' fs earliest, p.scanAndDeleteSegments retentionMs retentionBytes dryRun nowMs
      (Fs.start d) = (cs, p', fs) ∧ Holds p' fs.dir { hist with earliest } := by
  have hstep := (@step_runInv _ h.1 (.retain retentionMs retentionBytes dryRun nowMs) trivial
    (by simpa [Op.count] using hroom)).1
  exact ⟨_, _, _, _, rfl, hstep.start, rfl⟩

end Holds

/-! ## The metadata file -/

namespace TopicManager

variable {b : UInt8}

theorem toString_notMem {n : ℕ} (h : Decimal.isDigit b = false) : b ∉ toString n := by
  intro hb
  rw [Decimal.isDigit_of_mem_toDecimal hb] at h
  cases h

theorem toStringSigned_notMem {n : ℤ} (h : Decimal.isDigit b = false) (hb : b ≠ 45) :
    b ∉ toStringSigned n := by
  unfold toStringSigned
  split
  · rw [List.mem_append, not_or]
    exact ⟨by simpa [ascii] using hb, toString_notMem h⟩
  · exact toString_notMem h

theorem parseUnsigned_toString {w n : ℕ} (h : n < 2 ^ w) :
    Decimal.parseUnsigned w (toString n) = some (n, (toString n).length) := by
  have := @Decimal.parseUnsigned_toDecimal w n h [] (by simp)
  rwa [List.append_nil] at this

theorem splitOnP_saveTopicMetadata (t : Topic) (nowMs : Int64) :
    (saveTopicMetadata t nowMs).splitOnP (· == 10) =
      [ascii "partitions" ++ 61 :: toString t.numPartitions,
        ascii "created_ms" ++ 61 :: toStringSigned nowMs.toInt,
        ascii "retention_ms" ++ 61 :: toString t.retentionMs.toNat,
        ascii "retention_bytes" ++ 61 :: toString t.retentionBytes.toNat, []] := by
  have hline : ∀ (key : String) (val rest : Bytes), 10 ∉ ascii key → 10 ∉ val →
      List.splitOnP (· == 10) (ascii key ++ 61 :: val ++ 10 :: rest) =
        (ascii key ++ 61 :: val) :: rest.splitOnP (· == 10) := by
    intro key val rest hkey hval
    refine List.splitOnP_append_cons_of_forall_mem ?_ 10 rfl rest
    intro x hx
    rw [beq_eq_false_iff_ne]
    rintro rfl
    simp [hkey, hval] at hx
  have hsave : saveTopicMetadata t nowMs =
      ascii "partitions" ++ 61 :: toString t.numPartitions ++ 10 ::
      (ascii "created_ms" ++ 61 :: toStringSigned nowMs.toInt ++ 10 ::
      (ascii "retention_ms" ++ 61 :: toString t.retentionMs.toNat ++ 10 ::
      (ascii "retention_bytes" ++ 61 :: toString t.retentionBytes.toNat ++ 10 :: []))) := by
    have hnl : ascii "\n" = [10] := rfl
    have hkeys : ascii "partitions=" = ascii "partitions" ++ [61] ∧
        ascii "created_ms=" = ascii "created_ms" ++ [61] ∧
        ascii "retention_ms=" = ascii "retention_ms" ++ [61] ∧
        ascii "retention_bytes=" = ascii "retention_bytes" ++ [61] := by decide
    unfold saveTopicMetadata
    rw [hnl, hkeys.1, hkeys.2.1, hkeys.2.2.1, hkeys.2.2.2]
    simp only [List.append_assoc, List.cons_append, List.nil_append]
  have hdigit : Decimal.isDigit 10 = false := rfl
  rw [hsave, hline _ _ _ (by decide) (toString_notMem hdigit),
    hline _ _ _ (by decide) (toStringSigned_notMem hdigit (by decide)),
    hline _ _ _ (by decide) (toString_notMem hdigit),
    hline _ _ _ (by decide) (toString_notMem hdigit)]
  rfl

/-- **What `save_topic_metadata` writes is read back.** -/
theorem loadTopicMetadata_save (config : StorageConfig) (name : Bytes) {t : Topic} (nowMs : Int64)
    (hpos : 1 ≤ t.numPartitions) (hle : t.numPartitions ≤ 64) :
    loadTopicMetadata config name (some (saveTopicMetadata t nowMs)) =
      .ok ⟨t.numPartitions, t.retentionMs, t.retentionBytes⟩ := by
  have hspan : ∀ (key : String) (val : Bytes), 61 ∉ ascii key →
      (ascii key ++ 61 :: val).span (· != 61) = (ascii key, 61 :: val) :=
    fun key val hkey => span_separator hkey val
  have hpart : ∀ m, metadataLine m (ascii "partitions" ++ 61 :: toString t.numPartitions) =
      { m with partitions := t.numPartitions } := by
    intro m
    unfold metadataLine
    rw [hspan _ _ (by decide)]
    simp [@parseUnsigned_toString 32 t.numPartitions (by omega)]
  have hcreated : ∀ m val, metadataLine m (ascii "created_ms" ++ 61 :: val) = m := by
    intro m val
    have hne : ascii "created_ms" ≠ ascii "partitions" ∧ ascii "created_ms" ≠ ascii "retention_ms" ∧
        ascii "created_ms" ≠ ascii "retention_bytes" := by decide
    unfold metadataLine
    rw [hspan _ _ (by decide)]
    simp [hne]
  have hms : ∀ m, metadataLine m (ascii "retention_ms" ++ 61 :: toString t.retentionMs.toNat) =
      { m with retentionMs := t.retentionMs } := by
    intro m
    have hne : ascii "retention_ms" ≠ ascii "partitions" := by decide
    unfold metadataLine
    rw [hspan _ _ (by decide)]
    simp [hne, @parseUnsigned_toString 64 t.retentionMs.toNat (UInt64.toNat_lt _)]
  have hbytes : ∀ m, metadataLine m
      (ascii "retention_bytes" ++ 61 :: toString t.retentionBytes.toNat) =
      { m with retentionBytes := t.retentionBytes } := by
    intro m
    have hne : ascii "retention_bytes" ≠ ascii "partitions" ∧
        ascii "retention_bytes" ≠ ascii "retention_ms" := by decide
    unfold metadataLine
    rw [hspan _ _ (by decide)]
    simp [hne, @parseUnsigned_toString 64 t.retentionBytes.toNat (UInt64.toNat_lt _)]
  have hempty : ∀ m, metadataLine m [] = m := fun m => rfl
  unfold loadTopicMetadata
  simp only [splitOnP_saveTopicMetadata, List.foldl_cons, List.foldl_nil, hpart, hcreated, hms,
    hbytes, hempty]
  rw [if_neg (by omega)]

end TopicManager

/-! ## One topic -/

structure TopicInv (name : Bytes) (t : Topic) (dir : TopicDir) (hist : ℕ → History) : Prop where
  name_eq : t.name = name
  valid : TopicManager.validateTopicName name = none
  topicMeta : ∃ nowMs, dir.topicMeta = some (TopicManager.saveTopicMetadata t nowMs)
  pos : 1 ≤ t.numPartitions
  le : t.numPartitions ≤ 64
  parts : ∀ i p, t.partitions[i]? = some p → Holds p (dir.parts i) (hist i)

variable {hist : ℕ → History} {name : Bytes} {t : Topic} {dir : TopicDir}

variable {ps : List Partition} {d : Disk} {dirs : PartDirs}

theorem holds_cons {i : ℕ} {p : Partition} {dirs' : PartDirs} (hp : Holds p d (hist i))
    (hrest : ∀ j q, ps[j]? = some q → Holds q (dirs' (i + 1 + j)) (hist (i + 1 + j)))
    (hframe : ∀ k < i + 1, dirs' k = Function.update dirs i d k) :
    (∀ j q, (p :: ps)[j]? = some q → Holds q (dirs' (i + j)) (hist (i + j))) ∧
      ∀ k < i, dirs' k = dirs k := by
  constructor
  · intro j q hq
    cases j with
    | zero =>
      obtain rfl : p = q := by simpa using hq
      rw [Nat.add_zero, hframe i (by omega), Function.update_self]
      exact hp
    | succ j =>
      have := hrest j q (by simpa using hq)
      rwa [show i + 1 + j = i + (j + 1) by omega] at this
  · intro k hk
    rw [hframe k (by omega), Function.update_of_ne (by omega)]

/-- The loop of `Topic::open_and_recover` over the partitions from `i` on: each
of them finds its history, and the directories before `i` are not touched. -/
theorem openPartitions_spec : ∀ (ps : List Partition) (i : ℕ) (dirs : PartDirs),
    (∀ j < ps.length, Recovers (dirs (i + j)) (hist (i + j))) →
    ∃ ps' dirs', Topic.openPartitions i ps dirs = (.OK, ps', dirs') ∧ ps'.length = ps.length ∧
      (∀ j p, ps'[j]? = some p → Holds p (dirs' (i + j)) (hist (i + j))) ∧
      ∀ k < i, dirs' k = dirs k := by
  intro ps
  induction ps with
  | nil =>
    intro i dirs _
    exact ⟨[], dirs, rfl, rfl, by simp, fun _ _ => rfl⟩
  | cons p rest ih =>
    intro i dirs hold
    obtain ⟨p', fs, hopen, hp'⟩ := hold 0 (by simp) p
    simp only [Nat.add_zero] at hopen hp'
    have hrest : ∀ j < rest.length,
        Recovers (Function.update dirs i fs.dir (i + 1 + j)) (hist (i + 1 + j)) := by
      intro j hj
      rw [Function.update_of_ne (by omega), show i + 1 + j = i + (j + 1) by omega]
      exact hold (j + 1) (by simpa using hj)
    obtain ⟨ps', dirs', heq, hlen, hall, hframe⟩ := ih (i + 1) _ hrest
    refine ⟨p' :: ps', dirs', ?_, by simp [hlen], holds_cons hp' hall hframe⟩
    simp only [Topic.openPartitions, hopen, Status.if_not_ok, heq]

/-- **A topic object on directories that hold histories** opens, with those
histories. -/
theorem Topic.openAndRecover_spec (t : Topic) {hist : ℕ → History} (dirs : PartDirs)
    (hold : ∀ i < t.numPartitions, Recovers (dirs i) (hist i)) :
    ∃ ps dirs', t.openAndRecover dirs = (.OK, { t with partitions := ps }, dirs') ∧
      ps.length = t.numPartitions ∧ ∀ i p, ps[i]? = some p → Holds p (dirs' i) (hist i) := by
  obtain ⟨ps, dirs', heq, hlen, hall, -⟩ := openPartitions_spec t.partitions 0 dirs
    (by simpa [Topic.numPartitions] using hold)
  refine ⟨ps, dirs', ?_, hlen, by simpa using hall⟩
  unfold Topic.openAndRecover
  rw [heq]

theorem numPartitions_new (name : Bytes) (n : ℕ) (topicDir : Bytes) (config : StorageConfig)
    (retentionMs retentionBytes : UInt64) :
    (Topic.new name n topicDir config retentionMs retentionBytes).numPartitions = n := by
  simp [Topic.new, Topic.numPartitions]

theorem saveTopicMetadata_congr {t t' : Topic} (hn : t'.numPartitions = t.numPartitions)
    (hms : t'.retentionMs = t.retentionMs) (hbytes : t'.retentionBytes = t.retentionBytes)
    (nowMs : Int64) :
    TopicManager.saveTopicMetadata t' nowMs = TopicManager.saveTopicMetadata t nowMs := by
  unfold TopicManager.saveTopicMetadata
  rw [hn, hms, hbytes]

structure DirInv (name : Bytes) (dir : TopicDir) (hist : ℕ → History) : Prop where
  valid : TopicManager.validateTopicName name = none
  topicMeta : ∃ (t : Topic) (nowMs : Int64), 1 ≤ t.numPartitions ∧ t.numPartitions ≤ 64 ∧
    dir.topicMeta = some (TopicManager.saveTopicMetadata t nowMs) ∧
    ∀ i < t.numPartitions, Recovers (dir.parts i) (hist i)

theorem TopicInv.dirInv (h : TopicInv name t dir hist)
    (hroom : ∀ i, (hist i).records.length < 2 ^ 64) :
    DirInv name dir hist where
  valid := h.valid
  topicMeta := by
    obtain ⟨nowMs, hmeta⟩ := h.topicMeta
    refine ⟨t, nowMs, h.pos, h.le, hmeta, fun i hi => ?_⟩
    exact (h.parts i t.partitions[i] (List.getElem?_eq_getElem hi)).recovers (hroom i)

/-- **A start on the directory of a topic** finds its metadata and its
histories. -/
theorem DirInv.recover {name : Bytes} {dir : TopicDir} {hist : ℕ → History}
    (h : DirInv name dir hist) (config : StorageConfig) :
    ∃ m t' parts, TopicManager.loadTopicMetadata config name dir.topicMeta = .ok m ∧
      (Topic.new name m.partitions (TopicManager.topicPath config name) config m.retentionMs
        m.retentionBytes).openAndRecover dir.parts = (.OK, t', parts) ∧
      TopicInv name t' { dir with parts } hist := by
  obtain ⟨t, nowMs, hpos, hle, hmeta, hold⟩ := h.topicMeta
  have hload := TopicManager.loadTopicMetadata_save config name nowMs hpos hle
  have hn := numPartitions_new name t.numPartitions (TopicManager.topicPath config name) config
    t.retentionMs t.retentionBytes
  set new := Topic.new name t.numPartitions (TopicManager.topicPath config name) config
    t.retentionMs t.retentionBytes
  obtain ⟨ps, dirs', heq, hlen, hall⟩ := new.openAndRecover_spec dir.parts (by rwa [hn])
  rw [hn] at hlen
  have htext := @saveTopicMetadata_congr t { new with partitions := ps } hlen rfl rfl nowMs
  refine ⟨_, _, dirs', hmeta ▸ hload, heq, rfl, h.valid, ⟨nowMs, ?_⟩, ?_, ?_, hall⟩
  · rw [hmeta, htext]
  · exact hpos.trans hlen.ge
  · exact hlen.le.trans hle

theorem holds_set (h : ∀ i p, ps[i]? = some p → Holds p (dirs i) (hist i)) {k : ℕ} {q : Partition}
    {new : History} (hq : Holds q d new) :
    ∀ i p, (ps.set k q)[i]? = some p →
      Holds p (Function.update dirs k d i) (Function.update hist k new i) := by
  intro i p hp
  rw [List.getElem?_set] at hp
  by_cases hik : k = i
  · subst hik
    simp only [if_true] at hp
    split at hp
    · obtain rfl : q = p := by simpa using hp
      rwa [Function.update_self, Function.update_self]
    · cases hp
  · rw [if_neg hik] at hp
    rw [Function.update_of_ne (Ne.symm hik), Function.update_of_ne (Ne.symm hik)]
    exact h i p hp

theorem choosePartition_eq (t : Topic) (key : Bytes) :
    ∃ chosen keyFallback rrCounter,
      t.choosePartition key = (chosen, { t with keyFallback, rrCounter }) := by
  unfold Topic.choosePartition
  split
  · exact ⟨_, t.keyFallback, _, rfl⟩
  · exact ⟨_, _, t.rrCounter, rfl⟩

def Produced (hist hist' : ℕ → History) (records : List (Bytes × Bytes)) (nowMs : Int64)
    (chosen : ℕ) : Except Status UInt64 → Prop
  | .error _ => hist' = hist
  | .ok offset => offset = UInt64.ofNat (hist chosen).records.length ∧
      hist' = Function.update hist chosen ((hist chosen).append nowMs records)

/-- **A batch for a topic** fails and changes no history, or is added to the
history of the chosen partition. -/
theorem TopicInv.produceBatch (h : TopicInv name t dir hist) (partition : Int32)
    {records : List (Bytes × Bytes)} (nowMs : Int64)
    (hsmall : ∀ item ∈ records, item.1.length + item.2.length < 2 ^ 32 - 28)
    (hroom : ∀ i, (hist i).records.length + records.length < 2 ^ 64) :
    ∃ res chosen ps keyFallback rrCounter dirs hist',
      t.produceBatch partition records nowMs [] dir.parts =
        (res, chosen, { t with partitions := ps, keyFallback, rrCounter }, dirs) ∧
      ps.length = t.numPartitions ∧ (∀ i p, ps[i]? = some p → Holds p (dirs i) (hist' i)) ∧
      Produced hist hist' records nowMs chosen res := by
  unfold Topic.produceBatch
  cases records with
  | nil => exact ⟨_, _, _, _, _, _, hist, rfl, rfl, h.parts, rfl⟩
  | cons first rest =>
    simp only
    by_cases hrange : partition < -1 ∨ (t.partitions.length : ℤ) ≤ partition.toInt
    · rw [if_pos hrange]
      exact ⟨_, _, _, _, _, _, hist, rfl, rfl, h.parts, rfl⟩
    · rw [if_neg hrange]
      have hchoice : ∃ chosen keyFallback rrCounter,
          (if partition = -1 then t.choosePartition first.1 else (partition.toInt.toNat, t)) =
            (chosen, { t with keyFallback, rrCounter }) := by
        split
        · exact choosePartition_eq t first.1
        · exact ⟨_, t.keyFallback, t.rrCounter, rfl⟩
      obtain ⟨chosen, keyFallback, rrCounter, hchoice⟩ := hchoice
      rw [hchoice]
      simp only
      cases hp : t.partitions[chosen]? with
      | none => exact ⟨_, _, _, _, _, _, hist, rfl, rfl, h.parts, rfl⟩
      | some p =>
        have hheld := h.parts chosen p hp
        cases hfit : Partition.refusesBatch (first :: rest) with
        | true =>
          obtain ⟨st, heq⟩ := appendBatch_refused hfit p nowMs [] (Fs.start (dir.parts chosen))
          simp only [heq]
          refine ⟨_, _, _, _, _, _, hist, rfl, by simp [Topic.numPartitions], ?_, rfl⟩
          have hset := holds_set h.parts (k := chosen) hheld
          rw [Function.update_eq_self, Function.update_eq_self] at hset
          rwa [Fs.start_dir, Function.update_eq_self]
        | false =>
          obtain ⟨p', fs, heq, hheld'⟩ := hheld.appendBatch nowMs hsmall hfit (hroom chosen)
          simp only [heq]
          exact ⟨_, _, _, _, _, _, _, rfl, by simp [Topic.numPartitions],
            holds_set h.parts hheld', rfl, rfl⟩

theorem scanPartitions_spec (hroom : ∀ i, (hist i).records.length < 2 ^ 64)
    (retentionMs retentionBytes : UInt64) (dryRun : Bool) (clock : ℕ → Int64) :
    ∀ (ps : List Partition) (i : ℕ) (dirs : PartDirs),
    (∀ j p, ps[j]? = some p → Holds p (dirs (i + j)) (hist (i + j))) →
    ∃ (n : ℕ) (ps' : List Partition) (dirs' : PartDirs) (hist' : ℕ → History),
      scanPartitions retentionMs retentionBytes dryRun clock i ps dirs =
        (n, ps', dirs') ∧ ps'.length = ps.length ∧
      (∀ k, (hist' k).records = (hist k).records) ∧
      (∀ j p, ps'[j]? = some p → Holds p (dirs' (i + j)) (hist' (i + j))) ∧
      ∀ k < i, dirs' k = dirs k := by
  intro ps
  induction ps with
  | nil =>
    intro i dirs _
    exact ⟨0, [], dirs, hist, rfl, rfl, fun _ => rfl, by simp, fun _ _ => rfl⟩
  | cons p rest ih =>
    intro i dirs hold
    obtain ⟨cs, p', fs, earliest, hscan, hp'⟩ :=
      (hold 0 p rfl).scanAndDeleteSegments (hroom _) retentionMs retentionBytes dryRun (clock i)
    simp only [Nat.add_zero] at hscan hp'
    have hrest : ∀ j q, rest[j]? = some q →
        Holds q (Function.update dirs i fs.dir (i + 1 + j)) (hist (i + 1 + j)) := by
      intro j q hq
      have := hold (j + 1) q hq
      rwa [Function.update_of_ne (by omega), show i + 1 + j = i + (j + 1) by omega]
    obtain ⟨n, ps', dirs', hist', heq, hlen, hrecords, hall, hframe⟩ := ih (i + 1) _ hrest
    refine ⟨cs.length + n, p' :: ps', dirs',
      Function.update hist' i { hist i with earliest }, ?_, by simp [hlen], ?_, ?_⟩
    · simp only [scanPartitions, hscan, heq]
    · intro k
      by_cases hk : k = i
      · rw [hk, Function.update_self]
      · rw [Function.update_of_ne hk, hrecords]
    · refine holds_cons (by rwa [Function.update_self]) ?_ hframe
      intro j q hq
      rw [Function.update_of_ne (by omega)]
      exact hall j q hq

/-- **A retention pass over a topic** leaves its records in the history. -/
theorem TopicInv.scanTopic (h : TopicInv name t dir hist)
    (hroom : ∀ i, (hist i).records.length < 2 ^ 64) (dryRun : Bool) (clock : ℕ → Int64) :
    ∃ (n : ℕ) (ps : List Partition) (dirs : PartDirs) (hist' : ℕ → History),
      scanTopic t dir.parts dryRun clock =
        (n, { t with partitions := ps }, dirs) ∧ ps.length = t.numPartitions ∧
      (∀ i p, ps[i]? = some p → Holds p (dirs i) (hist' i)) ∧
      (∀ i, (hist' i).records = (hist i).records) ∧
      (TopicManager.isReserved name = true → hist' = hist) := by
  unfold RetentionManager.scanTopic
  split
  · exact ⟨0, t.partitions, dir.parts, hist, rfl, rfl, h.parts, fun _ => rfl, fun _ => rfl⟩
  · rename_i hname
    rw [h.name_eq] at hname
    split
    · exact ⟨0, t.partitions, dir.parts, hist, rfl, rfl, h.parts, fun _ => rfl, fun _ => rfl⟩
    · obtain ⟨n, ps, dirs, hist', heq, hlen, hrecords, hall, -⟩ := scanPartitions_spec hroom
        t.retentionMs t.retentionBytes dryRun clock t.partitions 0 dir.parts
        (by simpa using h.parts)
      rw [heq]
      exact ⟨n, ps, dirs, hist', rfl, hlen, by simpa using hall, hrecords,
        fun hres => absurd hres hname⟩

/-! ## The manager -/

/-- What the manager and the data directory know about one name: nothing, or a
topic and its directory. -/
def SlotInv (mgr : TopicManager) (name : Bytes) (hist : ℕ → History) : Prop :=
  (mgr.topics.lookup name = none ∧ mgr.dataDir.lookup name = none ∧ hist = fun _ => {}) ∨
    ∃ t dir, mgr.topics.lookup name = some t ∧ mgr.dataDir.lookup name = some dir ∧
      TopicInv name t dir hist

def ManagerInv (mgr : TopicManager) (hists : Histories) : Prop :=
  ∀ name, SlotInv mgr name (hists name)

def Histories.HasRoom (hists : Histories) : Prop := ∀ name i, (hists name i).records.length < 2 ^ 64

theorem managerInv_empty (config : StorageConfig) :
    ManagerInv { config } fun _ _ => {} := fun _ => Or.inl ⟨rfl, rfl, rfl⟩

section Manager

variable {mgr : TopicManager} {hists : Histories}

variable {name : Bytes}

theorem ManagerInv.topic (h : ManagerInv mgr hists) {t : Topic} (ht : mgr.getTopic name = some t) :
    ∃ dir, mgr.dataDir.lookup name = some dir ∧ TopicInv name t dir (hists name) := by
  rcases h name with ⟨hnone, -, -⟩ | ⟨t', dir, ht', hdir, hinv⟩
  · cases hnone.symm.trans ht
  · cases ht'.symm.trans ht
    exact ⟨dir, hdir, hinv⟩

theorem ManagerInv.setTopic (h : ManagerInv mgr hists) {name : Bytes} {t : Topic}
    (ht : mgr.getTopic name = some t) {t' : Topic} {parts : PartDirs} {hist : ℕ → History}
    (hname : t'.name = t.name) (hn : t'.numPartitions = t.numPartitions)
    (hms : t'.retentionMs = t.retentionMs) (hbytes : t'.retentionBytes = t.retentionBytes)
    (hparts : ∀ i p, t'.partitions[i]? = some p → Holds p (parts i) (hist i)) :
    ManagerInv (mgr.setTopic name t' parts) (Function.update hists name hist) := by
  obtain ⟨dir, hdir, hinv⟩ := h.topic ht
  obtain ⟨nowMs, hmeta⟩ := hinv.topicMeta
  intro name'
  by_cases heq : name' = name
  · subst heq
    right
    refine ⟨t', { dir with parts }, ?_, ?_, ?_⟩
    · simp [TopicManager.setTopic]
    · simp [TopicManager.setTopic, hdir]
    · rw [Function.update_self]
      refine ⟨hname.trans hinv.name_eq, hinv.valid, ⟨nowMs, ?_⟩, hn ▸ hinv.pos, hn ▸ hinv.le,
        hparts⟩
      rw [hmeta, saveTopicMetadata_congr hn hms hbytes]
  · rw [Function.update_of_ne heq]
    have := h name'
    simpa [SlotInv, TopicManager.setTopic, AssocMap.lookup_insert_eq, heq] using this

theorem recoverTopics_spec : ∀ (rest : List (Sigma fun _ : Bytes => TopicDir)) (mgr : TopicManager),
    (∀ e ∈ rest, DirInv e.1 e.2 (hists e.1)) →
    (∀ name, name ∉ rest.keys → SlotInv mgr name (hists name)) →
    ∃ mgr', mgr.recoverTopics rest = (.OK, mgr') ∧ mgr'.config = mgr.config ∧
      ManagerInv mgr' hists := by
  intro rest
  induction rest with
  | nil =>
    intro mgr _ hdone
    exact ⟨mgr, rfl, rfl, fun name => hdone name (by simp)⟩
  | cons e rest ih =>
    intro mgr hpending hdone
    obtain ⟨name, dir⟩ := e
    have hdir : DirInv name dir (hists name) := hpending ⟨name, dir⟩ (by simp)
    obtain ⟨m, t', parts, hload, hopen, hinv⟩ := hdir.recover mgr.config
    obtain ⟨mgr', heq, hconfig, hmgr⟩ := ih
      { mgr with
        topics := mgr.topics.insert name t'
        dataDir := mgr.dataDir.insert name { dir with parts } }
      (fun e he => hpending e (List.mem_cons_of_mem _ he))
      (by
        intro name' hname'
        by_cases hsame : name' = name
        · subst hsame
          exact Or.inr ⟨t', { dir with parts }, by simp, by simp, hinv⟩
        · have := hdone name' (by simp [hsame, hname'])
          simpa [SlotInv, AssocMap.lookup_insert_eq, hsame] using this)
    refine ⟨mgr', ?_, hconfig, hmgr⟩
    have hvalid := hdir.valid
    simp only [TopicManager.recoverTopics, hvalid, Option.isSome_none, Bool.false_eq_true,
      if_false, hload, hopen, Status.ok_OK, Bool.not_true]
    exact heq

def DataInv (dataDir : DataDir) (hists : Histories) : Prop :=
  ∀ name, dataDir.lookup name = none ∧ hists name = (fun _ => {}) ∨
    ∃ dir, dataDir.lookup name = some dir ∧ DirInv name dir (hists name)

theorem dataInv_empty : DataInv ∅ fun _ _ => {} := fun _ => Or.inl ⟨rfl, rfl⟩

theorem ManagerInv.dataInv (h : ManagerInv mgr hists) (hroom : hists.HasRoom) :
    DataInv mgr.dataDir hists := by
  intro name
  rcases h name with ⟨-, hnone, hnil⟩ | ⟨t, dir, -, hdir, hinv⟩
  · exact Or.inl ⟨hnone, hnil⟩
  · exact Or.inr ⟨dir, hdir, hinv.dirInv (hroom name)⟩

/-- **A start on the data directory** loads every topic with its histories. -/
theorem DataInv.openAndRecoverAll {dataDir : DataDir} (h : DataInv dataDir hists)
    (config : StorageConfig) :
    ∃ mgr', TopicManager.openAndRecoverAll config dataDir = (.OK, mgr') ∧
      ManagerInv mgr' hists := by
  obtain ⟨mgr', heq, -, hmgr⟩ := recoverTopics_spec dataDir.entries { config, dataDir }
    (by
      intro e he
      have hlookup := @AssocMap.lookup_of_mem _ _ _ dataDir e.1 e.2 he
      rcases h e.1 with ⟨hnone, -⟩ | ⟨dir, hdir, hinv⟩
      · cases hnone.symm.trans hlookup
      · cases hdir.symm.trans hlookup
        exact hinv)
    (by
      intro name hname
      have hnone : dataDir.lookup name = none := AList.lookup_eq_none.mpr hname
      rcases h name with ⟨-, hnil⟩ | ⟨dir, hdir, -⟩
      · exact Or.inl ⟨rfl, hnone, hnil⟩
      · cases hnone.symm.trans hdir)
  exact ⟨mgr', heq, hmgr⟩

theorem ManagerInv.openAndRecoverAll (h : ManagerInv mgr hists) (hroom : hists.HasRoom)
    (config : StorageConfig) :
    ∃ mgr', TopicManager.openAndRecoverAll config mgr.dataDir = (.OK, mgr') ∧
      ManagerInv mgr' hists :=
  (h.dataInv hroom).openAndRecoverAll config

/-- **Creating a topic** is refused, or adds a topic with empty histories. -/
theorem ManagerInv.createTopic (h : ManagerInv mgr hists) (name : Bytes) (n : ℕ)
    (retentionMs retentionBytes : UInt64) (nowMs : Int64) :
    (∃ st, mgr.createTopic name n retentionMs retentionBytes nowMs = (.error st, mgr) ∧
      (TopicManager.validateTopicName name ≠ none ∨ n < 1 ∨ 64 < n ∨
        (mgr.getTopic name).isSome = true)) ∨
    ∃ t mgr', mgr.createTopic name n retentionMs retentionBytes nowMs = (.ok t, mgr') ∧
      t.numPartitions = n ∧ mgr.getTopic name = none ∧ mgr'.getTopic name = some t ∧
      (∀ other, other ≠ name → mgr'.getTopic other = mgr.getTopic other) ∧
      ManagerInv mgr' hists := by
  unfold TopicManager.createTopic
  cases hvalid : TopicManager.validateTopicName name with
  | some err => exact Or.inl ⟨_, rfl, Or.inl (by simp)⟩
  | none =>
    by_cases hn : n < 1 ∨ 64 < n
    · left
      simp only [if_pos hn]
      exact ⟨_, rfl, by tauto⟩
    · by_cases hknown : (mgr.topics.lookup name).isSome = true
      · left
        simp only [if_neg hn, if_pos hknown]
        exact ⟨_, rfl, by unfold TopicManager.getTopic; tauto⟩
      · right
        have hnone : mgr.topics.lookup name = none := by simpa using hknown
        have hslot : mgr.dataDir.lookup name = none ∧ hists name = fun _ => {} := by
          rcases h name with ⟨-, hdir, hnil⟩ | ⟨t, dir, ht, -, -⟩
          · exact ⟨hdir, hnil⟩
          · cases hnone.symm.trans ht
        -- the directory is new: every partition starts empty
        have hopen := fun (t : Topic) => @Topic.openAndRecover_spec t (fun _ => {})
          (fun _ => ∅) (fun i _ => (holds_new 0 [] {}).recovers (by simp))
        simp only [if_neg hn, if_neg hknown, hslot.1, Option.getD_none, Option.isSome_none,
          Bool.false_eq_true, if_false]
        generalize hms : (if retentionMs = 0 then mgr.config.defaultRetentionMs
          else retentionMs) = ms
        generalize hbytes : (if retentionBytes = 0 ∧ 0 < mgr.config.defaultRetentionBytes then
          mgr.config.defaultRetentionBytes else retentionBytes) = bytes
        have hcount := numPartitions_new name n (TopicManager.topicPath mgr.config name)
          mgr.config ms bytes
        obtain ⟨ps, dirs', heq, hlen, hall⟩ := hopen (Topic.new name n
          (TopicManager.topicPath mgr.config name) mgr.config ms bytes)
        rw [hcount] at hlen
        simp only [heq, Status.if_not_ok]
        refine ⟨_, _, rfl, hlen, hnone, by simp [TopicManager.getTopic], ?_, ?_⟩
        · intro other hother
          simp [TopicManager.getTopic, hother]
        · intro name'
          by_cases hsame : name' = name
          · subst hsame
            refine Or.inr ⟨_, _, AList.lookup_insert _, AList.lookup_insert _, ?_⟩
            rw [hslot.2]
            refine ⟨rfl, hvalid, ⟨nowMs, rfl⟩, ?_, ?_, hall⟩
            · exact hlen.symm ▸ (by omega : 1 ≤ n)
            · exact hlen.symm ▸ (by omega : n ≤ 64)
          · have := h name'
            simpa [SlotInv, AssocMap.lookup_insert_eq, hsame] using this

theorem ManagerInv.exists_created (h : ManagerInv mgr hists) {n : ℕ}
    (hvalid : TopicManager.validateTopicName name = none) (hpos : 1 ≤ n) (hle : n ≤ 64)
    (retentionMs retentionBytes : UInt64) (nowMs : Int64) :
    ∃ t, (mgr.createTopic name n retentionMs retentionBytes nowMs).2.getTopic name = some t := by
  rcases h.createTopic name n retentionMs retentionBytes nowMs with
    ⟨st, heq, hinvalid | hlow | hhigh | hknown⟩ | ⟨t, mgr, heq, -, -, ht, -, -⟩
  · exact absurd hvalid hinvalid
  · exact absurd hlow (Nat.not_lt.mpr hpos)
  · exact absurd hhigh (Nat.not_lt.mpr hle)
  · rw [heq]
    exact Option.isSome_iff_exists.mp hknown
  · rw [heq]
    exact ⟨t, ht⟩

theorem partDirs_eq {dir : TopicDir} (h : mgr.dataDir.lookup name = some dir) :
    mgr.partDirs name = dir.parts := by
  unfold TopicManager.partDirs
  rw [h]
  rfl

theorem getTopic_setTopic (name other : Bytes) (t : Topic) (parts : PartDirs) :
    (mgr.setTopic name t parts).getTopic other =
      if other = name then some t else mgr.getTopic other :=
  AssocMap.lookup_insert_eq _ _ _ _

theorem scanTopics_spec (dryRun : Bool) (clock : Bytes → ℕ → Int64) :
    ∀ (names : List Bytes) {mgr : TopicManager} {hists : Histories}, ManagerInv mgr hists →
    hists.HasRoom → ∃ n mgr' hists', scanTopics dryRun clock names mgr =
        (n, mgr') ∧ ManagerInv mgr' hists' ∧
      (∀ name i, (hists' name i).records = (hists name i).records) ∧
      (∀ name, TopicManager.isReserved name = true → hists' name = hists name) ∧
      ∀ name, (mgr'.getTopic name).isSome = (mgr.getTopic name).isSome := by
  intro names
  induction names with
  | nil =>
    intro mgr hists h _
    exact ⟨0, mgr, hists, rfl, h, fun _ _ => rfl, fun _ _ => rfl, fun _ => rfl⟩
  | cons name rest ih =>
    intro mgr hists h hroom
    unfold scanTopics
    cases ht : mgr.getTopic name with
    | none => exact ih h hroom
    | some t =>
      obtain ⟨dir, hdir, hinv⟩ := h.topic ht
      obtain ⟨n, ps, dirs, hist, heq, hlen, hall, hrecords, hres⟩ :=
        hinv.scanTopic (hroom name) dryRun (clock name)
      rw [← partDirs_eq hdir] at heq
      have hset := @ManagerInv.setTopic _ _ h _ _ ht
        { t with partitions := ps } dirs hist rfl hlen rfl rfl hall
      have hsame : ∀ name' i, (Function.update hists name hist name' i).records =
          (hists name' i).records := by
        intro name' i
        by_cases hname : name' = name
        · rw [hname, Function.update_self, hrecords]
        · rw [Function.update_of_ne hname]
      obtain ⟨total, mgr', hists', heq', hinv', hrecords', hres', hsome⟩ :=
        ih hset (fun name' i => by rw [hsame]; exact hroom name' i)
      refine ⟨n + total, mgr', hists', by simp only [heq, heq'], hinv', ?_, ?_, ?_⟩
      · intro name' i
        rw [hrecords', hsame]
      · intro name' hname'
        rw [hres' name' hname']
        by_cases hname : name' = name
        · subst hname
          rw [Function.update_self, hres hname']
        · rw [Function.update_of_ne hname]
      · intro name'
        rw [hsome, getTopic_setTopic]
        split
        · rename_i hname
          rw [hname, ht]
          rfl
        · rfl

end Manager

end StreamForge
