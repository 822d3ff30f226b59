import StreamForge.Broker.BrokerInvariant
import StreamForge.Broker.SharedPartition
import StreamForge.Foundation.Transition

/-!
# The broker at work

PRODUCE and COMMIT_OFFSET in the steps in which other threads see them, with
retention passes, new topics, group calls and clean restarts in between.

A PRODUCE chooses its partition, waits for its lock and then writes its batch record
by record (`SharedPartition`). A commit that has passed the checks of its entries and
its caller compares one offset after the other with the next offset of its partition,
for which it needs no lock, and then hands all of them to the offset store. The lock
of the group, which a commit holds meanwhile, is left out: it would only forbid some
of the runs. Nor is it said what the group calls do.
-/

namespace StreamForge

open FileTrace OffsetStore MessageHandler Transition TopicManager GroupCoordinator

/-! ## The choice of a partition -/

/-- `produce_batch` up to the call of the partition: the partition, and the topic
with its counters moved. -/
def Topic.choose (t : Topic) (partition : Int32) (records : List (Bytes × Bytes)) :
    Option (ℕ × Topic) :=
  match records with
  | [] => none
  | first :: _ =>
    if partition < -1 ∨ (t.partitions.length : ℤ) ≤ partition.toInt then none
    else some (if partition = -1 then t.choosePartition first.1 else (partition.toInt.toNat, t))

section Choose

variable {t t' : Topic} {partition : Int32} {records : List (Bytes × Bytes)} {chosen : ℕ}

/-- The rest of `produce_batch` is `append_batch` on the chosen partition. -/
theorem Topic.produceBatch_choose (h : t.choose partition records = some (chosen, t'))
    {p : Partition} (hp : t'.partitions[chosen]? = some p) (nowMs : Int64) (fts : List Faults)
    (dirs : PartDirs) : t.produceBatch partition records nowMs fts dirs =
      match p.appendBatch records nowMs fts (Fs.start (dirs chosen)) with
      | (res, p, fs) => (res, chosen, { t' with partitions := t'.partitions.set chosen p },
          Function.update dirs chosen fs.dir) := by
  unfold Topic.choose at h
  unfold Topic.produceBatch
  cases records with
  | nil => cases h
  | cons first rest =>
    simp only at h ⊢
    split at h
    · cases h
    · rename_i hrange
      rw [if_neg hrange]
      simp only [Option.some.injEq] at h
      simp only [h, hp]

theorem choosePartition_lt (hpos : 0 < t.numPartitions) (key : Bytes) :
    (t.choosePartition key).1 < t.numPartitions := by
  unfold Topic.choosePartition keyHashPartition roundRobinPartition
  simp only [hpos.ne', if_false]
  split
  · exact Nat.mod_lt _ hpos
  · exact Nat.mod_lt _ hpos

/-- The chosen partition exists, and only the counters have moved. -/
theorem Topic.choose_spec (hpos : 0 < t.numPartitions)
    (h : t.choose partition records = some (chosen, t')) :
    chosen < t.numPartitions ∧ ∃ keyFallback rrCounter, t' = { t with keyFallback, rrCounter } := by
  unfold Topic.choose at h
  cases records with
  | nil => cases h
  | cons first rest =>
    simp only at h
    split at h
    · cases h
    · rename_i hrange
      rw [not_or, Int32.not_lt, not_le] at hrange
      obtain ⟨hlow, hhigh⟩ := hrange
      split at h
      · obtain ⟨chosen', keyFallback, rrCounter, heq⟩ := choosePartition_eq t first.1
        have hlt := choosePartition_lt hpos first.1
        rw [heq] at h hlt
        cases h
        exact ⟨hlt, keyFallback, rrCounter, rfl⟩
      · rename_i hne
        cases h
        refine ⟨?_, t.keyFallback, t.rrCounter, rfl⟩
        have hlowInt := Int32.le_iff_toInt_le.mp hlow
        have hneInt : partition.toInt ≠ -1 := fun heq => hne (Int32.toInt_inj.mp heq)
        have hone : (-1 : Int32).toInt = -1 := by decide
        unfold Topic.numPartitions
        omega

end Choose

/-! ## The system -/

section SetAt

variable {α : Type}

/-- Something that every partition has, with one of them replaced. -/
def setAt (f : Bytes → ℕ → α) (name : Bytes) (p : ℕ) (x : α) : Bytes → ℕ → α :=
  Function.update f name (Function.update (f name) p x)

theorem setAt_apply (f : Bytes → ℕ → α) (name name' : Bytes) (p p' : ℕ) (x : α) :
    setAt f name p x name' p' = if name' = name ∧ p' = p then x else f name' p' := by
  unfold setAt
  by_cases hname : name' = name
  · subst hname
    simp [Function.update_apply]
  · simp [hname]

end SetAt

structure OpenCommit where
  msg : CommitOffsetRequest
  unchecked : List OffsetCommitRequestEntry

/-- `produces` wait for the partition they have chosen, `writers` hold its lock.
`tracks` are those of the partitions that clients can name, `committed` counts
the offsets that were handed to the offset store. -/
structure Live where
  mgr : TopicManager
  store : OffsetStore
  coordinator : GroupCoordinator
  tracks : Bytes → ℕ → Track := fun _ _ => {}
  produces : List (ProduceRequest × ℕ) := []
  writers : Bytes → ℕ → Option ProduceRequest := fun _ _ => none
  answered : List (ProduceRequest × ProduceResponse) := []
  commits : List OpenCommit := []
  committed : ℕ := 0

namespace Live

def ofBroker (b : Broker) : Live where
  mgr := b.manager
  store := b.store
  coordinator := b.coordinator

def shared (l : Live) (name : Bytes) (p : ℕ) : Option Shared :=
  ((l.mgr.getTopic name).bind fun t => t.getPartition p).map fun part =>
    { l.tracks name p with part, dir := l.mgr.partDirs name p }

def put (l : Live) (name : Bytes) (p : ℕ) (s : Shared) : Live :=
  match l.mgr.getTopic name with
  | none => l
  | some t => { l with
      mgr := l.mgr.setTopic name { t with partitions := t.partitions.set p s.part }
        (Function.update (l.mgr.partDirs name) p s.dir)
      tracks := setAt l.tracks name p s.toTrack }

def setWriter (l : Live) (name : Bytes) (p : ℕ) (writer : Option ProduceRequest) : Live :=
  { l with writers := setAt l.writers name p writer }

def plain (l : Live) : Broker := ⟨l.mgr, l.store, {}, true⟩

end Live

inductive LiveAction where
  | choose (req : Frame)
  | lock (msg : ProduceRequest) (p : ℕ) (nowMs : Int64)
  | refuse (msg : ProduceRequest) (p : ℕ)
  | write (name : Bytes) (p : ℕ)
  | answer (name : Bytes) (p : ℕ)
  | openCommit (req : Frame)
  | checkOffset (msg : CommitOffsetRequest)
  | dropCommit (msg : CommitOffsetRequest)
  | persist (msg : CommitOffsetRequest) (env : Env)
  | retain (name : Bytes) (p : ℕ) (dryRun : Bool) (nowMs : Int64)
  | createTopic (name : Bytes) (n : ℕ) (retentionMs retentionBytes : UInt64) (nowMs : Int64)
  | groups
  | restart (config : StorageConfig) (coordinatorConfig : CoordinatorConfig) (nowMs : Int64)

/-- **The steps of the broker**, without I/O failures. -/
inductive LiveStep (l : Live) : LiveAction → Live → Prop where
  | choose {req : Frame} {msg : ProduceRequest} {t t' : Topic} {p : ℕ} :
      decodeBody ProduceRequest.decode req.body = some msg →
      isReserved msg.topic = false → l.mgr.getTopic msg.topic = some t →
      t.choose msg.partition msg.records = some (p, t') →
      LiveStep l (.choose req) { l with
        mgr := l.mgr.setTopic msg.topic t' (l.mgr.partDirs msg.topic)
        produces := (msg, p) :: l.produces }
  | lock {msg : ProduceRequest} {p : ℕ} {pre post : List (ProduceRequest × ℕ)} {s : Shared}
      (nowMs : Int64) : l.produces = pre ++ (msg, p) :: post → l.shared msg.topic p = some s →
      s.writing = none → Partition.refusesBatch msg.records = false →
      LiveStep l (.lock msg p nowMs)
        { (l.put msg.topic p (s.lock msg.records nowMs)).setWriter msg.topic p (some msg) with
          produces := pre ++ post }
  | refuse {msg : ProduceRequest} {p : ℕ} {pre post : List (ProduceRequest × ℕ)} :
      l.produces = pre ++ (msg, p) :: post → Partition.refusesBatch msg.records = true →
      LiveStep l (.refuse msg p) { l with produces := pre ++ post }
  | write {name : Bytes} {p : ℕ} {s : Shared} {w : OpenBatch} {key value : Bytes}
      {rest : List (Bytes × Bytes)} : l.shared name p = some s → s.writing = some w →
      w.left = (key, value) :: rest →
      LiveStep l (.write name p) (l.put name p (s.write w key value rest))
  | answer {name : Bytes} {p : ℕ} {msg : ProduceRequest} {s : Shared} {w : OpenBatch} :
      l.writers name p = some msg → l.shared name p = some s → s.writing = some w → w.left = [] →
      LiveStep l (.answer name p)
        { (l.put name p (s.unlock w)).setWriter name p none with
          answered := l.answered ++
            [(msg, ⟨UInt16.ofNat p, w.base, UInt16.ofNat msg.records.length⟩)] }
  | openCommit {req : Frame} {msg : CommitOffsetRequest} :
      decodeBody CommitOffsetRequest.decode req.body = some msg →
      checkEntries l.mgr msg.requestEntries = none →
      checkCaller (l.coordinator.groups.lookup msg.groupId) msg.groupId msg.memberId
        msg.generation msg.requestEntries = none →
      LiveStep l (.openCommit req) { l with commits := ⟨msg, msg.requestEntries⟩ :: l.commits }
  | checkOffset {msg : CommitOffsetRequest} {entry : OffsetCommitRequestEntry}
      {rest : List OffsetCommitRequestEntry} {pre post : List OpenCommit} :
      l.commits = pre ++ ⟨msg, entry :: rest⟩ :: post →
      entry.offset ≤ highWatermark l.mgr entry.topic entry.partition →
      LiveStep l (.checkOffset msg) { l with commits := pre ++ ⟨msg, rest⟩ :: post }
  | dropCommit {msg : CommitOffsetRequest} {entries : List OffsetCommitRequestEntry}
      {pre post : List OpenCommit} : l.commits = pre ++ ⟨msg, entries⟩ :: post →
      LiveStep l (.dropCommit msg) { l with commits := pre ++ post }
  | persist {msg : CommitOffsetRequest} {pre post : List OpenCommit} (env : Env) :
      l.commits = pre ++ ⟨msg, []⟩ :: post →
      LiveStep l (.persist msg env) { l with
        store := (l.store.commitTo msg.groupId (itemsOf msg.requestEntries env)
          l.mgr env.systemMs []).2.1
        mgr := (l.store.commitTo msg.groupId (itemsOf msg.requestEntries env)
          l.mgr env.systemMs []).2.2
        commits := pre ++ post
        committed := l.committed + msg.entries.length }
  | retain {name : Bytes} {p : ℕ} {t : Topic} {s : Shared} (dryRun : Bool) (nowMs : Int64) :
      isReserved name = false → l.mgr.getTopic name = some t →
      ¬(t.retentionMs = 0 ∧ t.retentionBytes = 0) → l.shared name p = some s → s.writing = none →
      LiveStep l (.retain name p dryRun nowMs)
        (l.put name p (s.retain t.retentionMs t.retentionBytes dryRun nowMs))
  | createTopic (name : Bytes) (n : ℕ) (retentionMs retentionBytes : UInt64) (nowMs : Int64) :
      isReserved name = false →
      LiveStep l (.createTopic name n retentionMs retentionBytes nowMs) { l with
        mgr := (l.mgr.createTopic name n retentionMs retentionBytes nowMs).2 }
  | groups (coordinator : GroupCoordinator) : LiveStep l .groups { l with coordinator }
  | restart {config : StorageConfig} {coordinatorConfig : CoordinatorConfig} {nowMs : Int64}
      {b : Broker} : (∀ name p, (l.tracks name p).writing = none) →
      Broker.start config coordinatorConfig l.mgr.dataDir nowMs = .ok b →
      LiveStep l (.restart config coordinatorConfig nowMs) { l with
        mgr := b.manager
        store := b.store
        coordinator := b.coordinator
        produces := []
        writers := fun _ _ => none
        commits := [] }

def LiveInit (l : Live) : Prop :=
  ∃ config coordinatorConfig nowMs b,
    Broker.start config coordinatorConfig ∅ nowMs = .ok b ∧ l = Live.ofBroker b

/-- Fewer than `n` records in the partition of a PRODUCE, and fewer than 2^64
committed offsets. -/
def LiveAction.Room (n : ℕ) (l : Live) : LiveAction → Prop
  | .lock msg p _ => (l.tracks msg.topic p).log.length + msg.records.length < n
  | .persist msg _ => l.committed + msg.entries.length < 2 ^ 64
  | _ => True

def LiveReachable (P : Live → LiveAction → Prop) : Live → Prop := Reach LiveInit LiveStep P

/-! ## Topics stay -/

def TopicManager.Keeps (mgr mgr' : TopicManager) : Prop :=
  ∀ name t, mgr.getTopic name = some t →
    ∃ t', mgr'.getTopic name = some t' ∧ t'.numPartitions = t.numPartitions

section Keeps

variable {mgr mgr' : TopicManager} {hists hists' : Histories} {name : Bytes} {t t' : Topic}

theorem TopicManager.Keeps.refl (mgr : TopicManager) : mgr.Keeps mgr := fun _ t ht => ⟨t, ht, rfl⟩

theorem keeps_setTopic (ht : mgr.getTopic name = some t) (hn : t'.numPartitions = t.numPartitions)
    (parts : PartDirs) : mgr.Keeps (mgr.setTopic name t' parts) := by
  intro other x hx
  rw [getTopic_setTopic]
  by_cases hother : other = name
  · subst hother
    cases ht.symm.trans hx
    exact ⟨t', if_pos rfl, hn⟩
  · exact ⟨x, by rw [if_neg hother, hx], rfl⟩

theorem keeps_commitTo (store : OffsetStore) (groupId : Bytes) (items : List OffsetCommitItem)
    (nowMs : Int64) (fts : List Faults) :
    mgr.Keeps (store.commitTo groupId items mgr nowMs fts).2.2 := by
  unfold OffsetStore.commitTo
  cases ht : mgr.getTopic internalOffsetsTopic with
  | none => exact .refl mgr
  | some t =>
    simp only
    cases t.getPartition 0 with
    | none => exact .refl mgr
    | some p => exact keeps_setTopic ht (by simp [Topic.numPartitions]) _

theorem ManagerInv.keeps_createTopic (h : ManagerInv mgr hists) (name : Bytes) (n : ℕ)
    (retentionMs retentionBytes : UInt64) (nowMs : Int64) :
    mgr.Keeps (mgr.createTopic name n retentionMs retentionBytes nowMs).2 := by
  rcases h.createTopic name n retentionMs retentionBytes nowMs with
    ⟨st, heq, -⟩ | ⟨t, mgr', heq, -, hnone, -, hother, -⟩
  · rw [heq]
    exact .refl mgr
  · rw [heq]
    intro other x hx
    have hne : other ≠ name := by
      rintro rfl
      cases hnone.symm.trans hx
    exact ⟨x, (hother other hne).trans hx, rfl⟩

theorem recoverTopics_topicMeta (name : Bytes) (rest : List (Sigma fun _ : Bytes => TopicDir)) :
    ∀ {mgr : TopicManager},
    (∀ e ∈ rest, (mgr.dataDir.lookup e.1).map TopicDir.topicMeta = some e.2.topicMeta) →
    ((mgr.recoverTopics rest).2.dataDir.lookup name).map TopicDir.topicMeta =
      (mgr.dataDir.lookup name).map TopicDir.topicMeta := by
  induction rest with
  | nil => exact fun _ => rfl
  | cons e rest ih =>
    intro mgr hentries
    obtain ⟨topic, dir⟩ := e
    have hrest : ∀ e ∈ rest, (mgr.dataDir.lookup e.1).map TopicDir.topicMeta =
        some e.2.topicMeta := fun e he => hentries e (List.mem_cons_of_mem _ he)
    have hinsert : ∀ (parts : PartDirs) (other : Bytes),
        ((mgr.dataDir.insert topic { dir with parts }).lookup other).map TopicDir.topicMeta =
          (mgr.dataDir.lookup other).map TopicDir.topicMeta := by
      intro parts other
      rw [AssocMap.lookup_insert_eq]
      split
      · rename_i hother
        rw [hother]
        exact (hentries ⟨topic, dir⟩ (by simp)).symm
      · rfl
    unfold recoverTopics
    split
    · exact ih hrest
    · split
      · exact ih hrest
      · simp only
        split
        · exact hinsert _ name
        · refine (ih ?_).trans (hinsert _ name)
          intro e he
          exact (hinsert _ e.1).trans (hrest e he)

theorem ManagerInv.keeps_of_topicMeta (h : ManagerInv mgr hists) (h' : ManagerInv mgr' hists')
    (hmeta : ∀ name, (mgr'.dataDir.lookup name).map TopicDir.topicMeta =
      (mgr.dataDir.lookup name).map TopicDir.topicMeta) : mgr.Keeps mgr' := by
  intro name t ht
  obtain ⟨dir, hdir, hinv⟩ := h.topic ht
  have hname := hmeta name
  rw [hdir] at hname
  rcases h' name with ⟨-, hnone, -⟩ | ⟨t', dir', ht', hdir', hinv'⟩
  · rw [hnone] at hname
    cases hname
  · rw [hdir'] at hname
    refine ⟨t', ht', ?_⟩
    obtain ⟨nowMs, hsave⟩ := hinv.topicMeta
    obtain ⟨nowMs', hsave'⟩ := hinv'.topicMeta
    have hload := loadTopicMetadata_save mgr.config name nowMs hinv.pos hinv.le
    have hload' := loadTopicMetadata_save mgr.config name nowMs' hinv'.pos hinv'.le
    rw [← hsave', Option.some.inj hname, hsave, hload] at hload'
    exact (congrArg TopicManager.TopicMetadata.partitions (Except.ok.inj hload')).symm

theorem openAndRecover_manager (mgr : TopicManager) (nowMs : Int64) :
    (OffsetStore.openAndRecover mgr nowMs).2.2 = (internalTopic mgr nowMs).2 := by
  unfold OffsetStore.openAndRecover
  rcases internalTopic mgr nowMs with ⟨st | t, mgr'⟩
  · rfl
  · simp only
    cases t.getPartition 0 with
    | none => rfl
    | some p => rfl

/-- **A restart keeps the topics.** -/
theorem ManagerInv.keeps_start (h : ManagerInv mgr hists) (hroom : hists.HasRoom)
    {config : StorageConfig} {coordinatorConfig : CoordinatorConfig} {nowMs : Int64} {b : Broker}
    (heq : Broker.start config coordinatorConfig mgr.dataDir nowMs = .ok b) :
    mgr.Keeps b.manager := by
  obtain ⟨mgr₁, htopics, hinv₁⟩ := h.openAndRecoverAll hroom config
  have hkeeps₁ : mgr.Keeps mgr₁ := by
    refine h.keeps_of_topicMeta hinv₁ fun name => ?_
    have hmeta := @recoverTopics_topicMeta name mgr.dataDir.entries
      { config, dataDir := mgr.dataDir }
      (fun e he => by rw [@AssocMap.lookup_of_mem _ _ _ mgr.dataDir e.1 e.2 he]; rfl)
    unfold TopicManager.openAndRecoverAll at htopics
    rwa [htopics] at hmeta
  have hkeeps₂ : mgr₁.Keeps (internalTopic mgr₁ nowMs).2 := by
    have hcreated := hinv₁.keeps_createTopic internalOffsetsTopic 1 0 0 nowMs
    unfold internalTopic
    cases mgr₁.getTopic internalOffsetsTopic with
    | some t => exact .refl mgr₁
    | none =>
      revert hcreated
      rcases mgr₁.createTopic internalOffsetsTopic 1 0 0 nowMs with ⟨st | t, mgr₂⟩
      · exact id
      · exact id
  have hmanager : b.manager = (internalTopic mgr₁ nowMs).2 := by
    rw [← openAndRecover_manager]
    unfold Broker.start at heq
    simp only [htopics, Status.if_not_ok] at heq
    split at heq
    · cases heq
    · cases heq
      rfl
  intro name t ht
  obtain ⟨t₁, ht₁, hn₁⟩ := hkeeps₁ name t ht
  obtain ⟨t₂, ht₂, hn₂⟩ := hkeeps₂ name t₁ ht₁
  rw [hmanager]
  exact ⟨t₂, ht₂, hn₂.trans hn₁⟩

end Keeps

/-- **The invariant of the broker at work.** The partitions that clients can
name hold the logs of their tracks, and the others nothing but committed
offsets. -/
structure LiveInv (l : Live) (hists : Histories) : Prop where
  broker : BrokerInv l.plain hists
  logs : ∀ name p, isReserved name = false → (hists name p).records = (l.tracks name p).log
  tracks : ∀ name p, TrackInv (l.tracks name p)
  reserved : ∀ name p, isReserved name = true →
    (hists name p).records.length ≤ l.committed ∧ (l.tracks name p).writing = none
  committed_lt : l.committed < 2 ^ 64
  produces : ∀ e ∈ l.produces, isReserved e.1.topic = false ∧
    ∀ item ∈ e.1.records, item.1.length + item.2.length < 2 ^ 32 - 28
  commits : ∀ c ∈ l.commits, c.msg.groupId.length < 65536 ∧
    ∀ entry ∈ c.msg.entries, entry.topic.length < 65536

/-- **What a step does** to the topics, to the tracks and to the log of committed
offsets. -/
structure Effect (l : Live) (hists : Histories) (a : LiveAction) (l' : Live) (hists' : Histories) :
    Prop where
  topics : l.mgr.Keeps l'.mgr
  tracks : ∀ name p, (l.tracks name p).Step (l'.tracks name p)
  internal : ∃ nowMs batch,
    hists' internalOffsetsTopic 0 = (hists internalOffsetsTopic 0).append nowMs batch ∧
      (batch = [] ∨ ∃ msg env, a = .persist msg env ∧
        batch = batchOf msg.groupId (itemsOf msg.requestEntries env))

variable {l : Live} {name : Bytes} {p : ℕ} {s : Shared}

theorem Live.shared_eq_some (h : l.shared name p = some s) :
    ∃ t part, l.mgr.getTopic name = some t ∧ t.partitions[p]? = some part ∧
      s = { l.tracks name p with part, dir := l.mgr.partDirs name p } := by
  obtain ⟨part, hpart, rfl⟩ := Option.map_eq_some_iff.mp h
  obtain ⟨t, ht, hp⟩ := Option.bind_eq_some_iff.mp hpart
  exact ⟨t, part, ht, hp, rfl⟩

theorem Live.shared_of_topic {t : Topic} {part : Partition} (ht : l.mgr.getTopic name = some t)
    (hpart : t.partitions[p]? = some part) :
    l.shared name p = some { l.tracks name p with part, dir := l.mgr.partDirs name p } := by
  rw [Live.shared, ht, Option.bind_some, Topic.getPartition, hpart]
  rfl

theorem Live.shared_track (h : l.shared name p = some s) : s.toTrack = l.tracks name p := by
  obtain ⟨t, part, -, -, rfl⟩ := Live.shared_eq_some h
  rfl

theorem Live.put_tracks (h : l.shared name p = some s) (s' : Shared) :
    (l.put name p s').tracks = setAt l.tracks name p s'.toTrack := by
  obtain ⟨t, part, ht, -, -⟩ := Live.shared_eq_some h
  unfold Live.put
  simp only [ht]

section Put

variable (l : Live) (name : Bytes) (p : ℕ) (s : Shared)

theorem Live.put_eq : ∃ mgr tracks, l.put name p s = { l with mgr, tracks } := by
  unfold Live.put
  split
  · exact ⟨l.mgr, l.tracks, rfl⟩
  · exact ⟨_, _, rfl⟩

@[simp] theorem Live.put_coordinator : (l.put name p s).coordinator = l.coordinator := by
  obtain ⟨mgr, tracks, heq⟩ := l.put_eq name p s
  rw [heq]

@[simp] theorem Live.put_writers : (l.put name p s).writers = l.writers := by
  obtain ⟨mgr, tracks, heq⟩ := l.put_eq name p s
  rw [heq]

@[simp] theorem Live.put_answered : (l.put name p s).answered = l.answered := by
  obtain ⟨mgr, tracks, heq⟩ := l.put_eq name p s
  rw [heq]

@[simp] theorem Live.put_produces : (l.put name p s).produces = l.produces := by
  obtain ⟨mgr, tracks, heq⟩ := l.put_eq name p s
  rw [heq]

@[simp] theorem Live.put_commits : (l.put name p s).commits = l.commits := by
  obtain ⟨mgr, tracks, heq⟩ := l.put_eq name p s
  rw [heq]

@[simp] theorem Live.put_committed : (l.put name p s).committed = l.committed := by
  obtain ⟨mgr, tracks, heq⟩ := l.put_eq name p s
  rw [heq]

end Put

theorem Live.shared_put (h : l.shared name p = some s) (s' : Shared) :
    (l.put name p s').shared name p = some s' := by
  obtain ⟨t, part, ht, hp, -⟩ := Live.shared_eq_some h
  obtain ⟨hlt, -⟩ := List.getElem?_eq_some_iff.mp hp
  unfold Live.put Live.shared
  simp only [ht, getTopic_setTopic, if_true, Option.bind_some, Topic.getPartition,
    List.getElem?_set_self hlt, Option.map_some, setAt_apply, and_self]
  simp [partDirs, setTopic]

theorem internal_ne (h : isReserved name = false) : internalOffsetsTopic ≠ name := by
  rintro rfl
  revert h
  decide

section LiveInv

variable {l l' : Live} {hists : Histories} {name : Bytes} {p : ℕ} {s s' : Shared}

theorem LiveInv.hasRoom (h : LiveInv l hists) : hists.HasRoom := by
  intro name p
  cases hres : isReserved name with
  | true => exact lt_of_le_of_lt (h.reserved name p hres).1 h.committed_lt
  | false =>
    rw [h.logs name p hres]
    exact lt_of_le_of_lt (Nat.le_add_right _ _) (h.tracks name p).room

theorem LiveInv.shared (h : LiveInv l hists) (hres : isReserved name = false)
    (hs : l.shared name p = some s) : SharedInv s := by
  obtain ⟨t, part, ht, hp, rfl⟩ := Live.shared_eq_some hs
  obtain ⟨dir, hdir, hinv⟩ := h.broker.storage.topic ht
  have hholds := hinv.parts p part hp
  refine ⟨h.tracks name p, ?_, rfl⟩
  rw [← h.logs name p hres]
  simp only
  rw [show l.mgr.partDirs name = dir.parts from partDirs_eq hdir]
  exact hholds.1

/-- **One partition at work**: the others do not notice. -/
theorem LiveInv.put (h : LiveInv l hists) (hres : isReserved name = false)
    (hs : l.shared name p = some s) (hinv : SharedInv s') :
    LiveInv (l.put name p s') (setAt hists name p ⟨s'.log, s'.part.earliestOffset.toNat⟩) := by
  obtain ⟨t, part, ht, hp, rfl⟩ := Live.shared_eq_some hs
  obtain ⟨dir, hdir, htopic⟩ := h.broker.storage.topic ht
  have hparts : l.mgr.partDirs name = dir.parts := partDirs_eq hdir
  unfold Live.put
  simp only [ht, hparts]
  have hset := @ManagerInv.setTopic _ _ h.broker.storage _ _ ht
    { t with partitions := t.partitions.set p s'.part } (Function.update dir.parts p s'.dir) _
    rfl (by simp [Topic.numPartitions]) rfl rfl (holds_set htopic.parts hinv.holds)
  refine ⟨h.broker.setTopic (internal_ne hres) hset, ?_, ?_, ?_, h.committed_lt, h.produces,
    h.commits⟩
  · intro name' p' hname'
    simp only [setAt_apply]
    split
    · rfl
    · exact h.logs name' p' hname'
  · intro name' p'
    simp only [setAt_apply]
    split
    · exact hinv.toTrackInv
    · exact h.tracks name' p'
  · intro name' p' hname'
    have hne : ¬(name' = name ∧ p' = p) := by
      rintro ⟨rfl, -⟩
      cases hres.symm.trans hname'
    simp only [setAt_apply, if_neg hne]
    exact h.reserved name' p' hname'

theorem Live.put_effect (hres : isReserved name = false)
    (hs : l.shared name p = some s) (hstep : s.toTrack.Step s'.toTrack) (hist : History)
    (a : LiveAction) : Effect l hists a (l.put name p s') (setAt hists name p hist) := by
  obtain ⟨t, part, ht, -, rfl⟩ := Live.shared_eq_some hs
  unfold Live.put
  simp only [ht]
  refine ⟨keeps_setTopic ht (by simp [Topic.numPartitions]) _, ?_, 0, [], ?_, Or.inl rfl⟩
  · intro name' p'
    simp only [setAt_apply]
    split
    · rename_i hsame
      obtain ⟨rfl, rfl⟩ := hsame
      exact hstep
    · exact .same
  · rw [History.append_nil, setAt_apply, if_neg fun hsame => internal_ne hres hsame.1]

theorem LiveInv.work (h : LiveInv l hists) (hres : isReserved name = false)
    (hs : l.shared name p = some s) {op : SharedOp} (hwork : Work s op s') (hin : op.Within s)
    (a : LiveAction) :
    ∃ hists', LiveInv (l.put name p s') hists' ∧ Effect l hists a (l.put name p s') hists' := by
  obtain ⟨hinv, hstep⟩ := (h.shared hres hs).step hin hwork
  exact ⟨_, h.put hres hs hinv, Live.put_effect hres hs hstep _ a⟩

theorem Effect.silent {a : LiveAction} (htopics : l.mgr.Keeps l'.mgr)
    (htracks : l'.tracks = l.tracks) :
    Effect l hists a l' hists where
  topics := htopics
  tracks := fun name p => by
    rw [htracks]
    exact .same
  internal := ⟨0, [], (History.append_nil _ 0).symm, Or.inl rfl⟩

theorem LiveInv.not_reserved (h : LiveInv l hists) (hs : l.shared name p = some s) {w : OpenBatch}
    (hwriting : s.writing = some w) : isReserved name = false := by
  cases hres : isReserved name with
  | false => rfl
  | true =>
    have hidle := (h.reserved name p hres).2
    rw [← Live.shared_track hs, hwriting] at hidle
    cases hidle

theorem LiveInv.choose (h : LiveInv l hists) {req : Frame} {msg : ProduceRequest} {t t' : Topic}
    (hdecode : decodeBody ProduceRequest.decode req.body = some msg)
    (hres : isReserved msg.topic = false) (ht : l.mgr.getTopic msg.topic = some t)
    (hchoose : t.choose msg.partition msg.records = some (p, t')) :
    LiveInv { l with
        mgr := l.mgr.setTopic msg.topic t' (l.mgr.partDirs msg.topic)
        produces := (msg, p) :: l.produces } hists ∧
      l.mgr.Keeps (l.mgr.setTopic msg.topic t' (l.mgr.partDirs msg.topic)) := by
  obtain ⟨dir, hdir, hinv⟩ := h.broker.storage.topic ht
  obtain ⟨-, keyFallback, rrCounter, rfl⟩ := Topic.choose_spec hinv.pos hchoose
  have hset := @ManagerInv.setTopic _ _ h.broker.storage _ _ ht { t with keyFallback, rrCounter }
    (l.mgr.partDirs msg.topic) (hists msg.topic) rfl rfl rfl rfl
    (by rw [show l.mgr.partDirs msg.topic = dir.parts from partDirs_eq hdir]; exact hinv.parts)
  have hbroker := h.broker.setTopic (internal_ne hres) hset
  rw [Function.update_eq_self] at hbroker
  refine ⟨{ h with broker := hbroker, produces := ?_ }, ?_⟩
  · intro e he
    rcases List.mem_cons.mp he with rfl | he
    · refine ⟨hres, fun item hitem => ?_⟩
      have hlen := (ProduceRequest.lengths_of_decode hdecode).2 item hitem
      unfold maxFrameLength at hlen
      omega
    · exact h.produces e he
  · apply keeps_setTopic ht
    rfl

theorem mem_of_removed {α : Type} {xs pre post : List α} {x y : α} (h : xs = pre ++ x :: post)
    (hy : y ∈ pre ++ post) : y ∈ xs := by
  rw [h]
  simp only [List.mem_append, List.mem_cons] at hy ⊢
  tauto

theorem LiveInv.persist (h : LiveInv l hists) {msg : CommitOffsetRequest}
    {pre post : List OpenCommit}
    (env : Env) (hmem : l.commits = pre ++ ⟨msg, []⟩ :: post)
    (hroom : l.committed + msg.entries.length < 2 ^ 64) {store : OffsetStore} {mgr : TopicManager}
    {st : Status} (heq : l.store.commitTo msg.groupId
      (itemsOf msg.requestEntries env) l.mgr env.systemMs [] = (st, store, mgr)) :
    ∃ hists', LiveInv { l with
        store
        mgr
        commits := pre ++ post
        committed := l.committed + msg.entries.length } hists' ∧
      Effect l hists (.persist msg env) { l with
        store
        mgr
        commits := pre ++ post
        committed := l.committed + msg.entries.length } hists' := by
  set items := itemsOf msg.requestEntries env with hitems
  have hlen : items.length = msg.entries.length := by
    simp [hitems, itemsOf, CommitOffsetRequest.requestEntries]
  obtain ⟨hgroup, htopics⟩ := h.commits ⟨msg, []⟩ (by simp [hmem])
  have hsmall : ∀ kv ∈ batchOf msg.groupId items, kv.1.length + kv.2.length < 2 ^ 32 - 28 := by
    intro kv hkv
    refine lt_of_lt_of_le (length_batchOf hgroup ?_ kv hkv) (by norm_num)
    simpa [hitems, itemsOf, CommitOffsetRequest.requestEntries] using htopics
  have hinternal := (h.reserved internalOffsetsTopic 0 (by decide)).1
  obtain ⟨st', store', mgr', batch, heq', hinv, hbatch, -⟩ :=
    h.broker.commitTo_logged hsmall env.systemMs (by omega)
  obtain ⟨rfl, rfl, rfl⟩ : st' = st ∧ store' = store ∧ mgr' = mgr := by
    have := heq'.symm.trans heq
    simpa using this
  have hcount : batch.length ≤ msg.entries.length := by
    rcases hbatch with rfl | rfl
    · exact Nat.zero_le _
    · simp [batchOf, hlen]
  have hkeeps := @keeps_commitTo l.mgr l.store msg.groupId items env.systemMs []
  rw [heq] at hkeeps
  have hset : hists.commit env.systemMs batch = setAt hists internalOffsetsTopic 0
      ((hists internalOffsetsTopic 0).append env.systemMs batch) := rfl
  refine ⟨hists.commit env.systemMs batch, ⟨hinv, ?_, h.tracks, ?_, hroom, h.produces, ?_⟩,
    hkeeps, fun _ _ => .same, env.systemMs, batch, hists.commit_internal _ _, ?_⟩
  · intro name p hname
    rw [hset, setAt_apply, if_neg fun hsame => internal_ne hname hsame.1.symm]
    exact h.logs name p hname
  · intro name p hname
    refine ⟨?_, (h.reserved name p hname).2⟩
    have hold := (h.reserved name p hname).1
    simp only [hset, setAt_apply]
    split
    · simp only [History.append, List.length_append, length_assign]
      omega
    · omega
  · exact fun c hc => h.commits c (mem_of_removed hmem hc)
  · rcases hbatch with rfl | rfl
    · exact Or.inl rfl
    · exact Or.inr ⟨msg, env, rfl, rfl⟩

/-- **Every step keeps the invariant**, with its effect on the histories. -/
theorem LiveInv.step (h : LiveInv l hists) {a : LiveAction} (hroom : a.Room (2 ^ 64) l)
    (hstep : LiveStep l a l') : ∃ hists', LiveInv l' hists' ∧ Effect l hists a l' hists' := by
  cases hstep with
  | choose hdecode hres ht hchoose =>
    obtain ⟨hinv, hkeeps⟩ := h.choose hdecode hres ht hchoose
    exact ⟨hists, hinv, .silent hkeeps rfl⟩
  | lock nowMs hmem hs hwriting hfit =>
    rename_i msg p pre post s
    obtain ⟨hres, hsized⟩ := h.produces (msg, p) (by simp [hmem])
    have hin : (SharedOp.lock msg.records nowMs).Within s := by
      refine ⟨hsized, ?_⟩
      rw [Live.shared_track hs]
      exact hroom
    obtain ⟨hists', hinv, heffect⟩ :=
      h.work hres hs (.lock msg.records nowMs hwriting hfit) hin (.lock msg p nowMs)
    exact ⟨hists', { hinv with produces := fun e he => h.produces e (mem_of_removed hmem he) },
      heffect.topics, heffect.tracks, heffect.internal⟩
  | refuse hmem hfit =>
    exact ⟨hists, { h with produces := fun e he => h.produces e (mem_of_removed hmem he) },
      .silent (.refl _) rfl⟩
  | write hs hwriting hleft =>
    exact h.work (h.not_reserved hs hwriting) hs (.write hwriting hleft) trivial _
  | answer hwriter hs hwriting hleft =>
    rename_i name p msg s w
    obtain ⟨hists', hinv, heffect⟩ :=
      h.work (h.not_reserved hs hwriting) hs (.unlock hwriting hleft) trivial (.answer name p)
    exact ⟨hists', { hinv with }, heffect.topics, heffect.tracks, heffect.internal⟩
  | openCommit hdecode hentries hcaller =>
    refine ⟨hists, { h with commits := ?_ }, .silent (.refl _) rfl⟩
    intro c hc
    rcases List.mem_cons.mp hc with rfl | hc
    · exact CommitOffsetRequest.lengths_of_decode hdecode
    · exact h.commits c hc
  | checkOffset hmem hle =>
    rename_i msg entry rest pre post
    refine ⟨hists, { h with commits := ?_ }, .silent (.refl _) rfl⟩
    intro c hc
    rcases List.mem_append.mp hc with hpre | hpost
    · exact h.commits c (mem_of_removed hmem (List.mem_append_left _ hpre))
    · rcases List.mem_cons.mp hpost with rfl | hpost
      · exact h.commits ⟨msg, entry :: rest⟩ (by simp [hmem])
      · exact h.commits c (mem_of_removed hmem (List.mem_append_right _ hpost))
  | dropCommit hmem =>
    exact ⟨hists, { h with commits := fun c hc => h.commits c (mem_of_removed hmem hc) },
      .silent (.refl _) rfl⟩
  | persist env hmem => exact h.persist env hmem hroom rfl
  | retain dryRun nowMs hres ht hlimits hs hwriting =>
    exact h.work hres hs (.retain _ _ dryRun nowMs hwriting) trivial _
  | createTopic name n retentionMs retentionBytes nowMs hres =>
    exact ⟨hists, { h with broker := h.broker.createTopic name n retentionMs retentionBytes nowMs },
      .silent (h.broker.storage.keeps_createTopic _ _ _ _ _) rfl⟩
  | groups coordinator => exact ⟨hists, { h with }, .silent (.refl _) rfl⟩
  | restart hidle hstart =>
    have hstarted := (h.broker.storage.dataInv h.hasRoom).brokerInv h.hasRoom h.broker.kept hstart
    refine ⟨hists, { h with
      broker := { hstarted with coordinated := rfl, groups := h.broker.groups }
      produces := ?_
      commits := ?_ }, .silent (h.broker.storage.keeps_start h.hasRoom hstart) rfl⟩
    · intro e he
      cases he
    · intro c hc
      cases hc

theorem liveInv_init (hinit : LiveInit l) : LiveInv l fun _ _ => {} := by
  obtain ⟨config, coordinatorConfig, nowMs, b, hstart, rfl⟩ := hinit
  have hbroker := dataInv_empty.brokerInv (fun _ _ => by simp) rfl hstart
  refine ⟨{ hbroker with coordinated := rfl, groups := ?_ }, fun _ _ _ => rfl,
    fun _ _ => trackInv_idle rfl (by simp [Live.ofBroker]), fun _ _ _ => ⟨Nat.le_refl _, rfl⟩,
    by simp [Live.ofBroker], ?_, ?_⟩
  · intro id hid
    cases hid
  · intro e he
    cases he
  · intro c hc
    cases hc

/-- **The invariant holds in every reachable state.** -/
theorem LiveReachable.liveInv (h : LiveReachable (fun l a => a.Room (2 ^ 64) l) l) :
    ∃ hists, LiveInv l hists := by
  refine Reach.invariant (I := fun l => ∃ hists, LiveInv l hists)
    (fun _ hinit => ⟨_, liveInv_init hinit⟩) ?_ h
  rintro l a l' ⟨hists, hinv⟩ hroom hstep
  obtain ⟨hists', hinv', -⟩ := hinv.step hroom hstep
  exact ⟨hists', hinv'⟩

end LiveInv

def Track.size (t : Track) : ℕ := t.log.length + t.left.length

section Room

variable {l l' : Live} {n : ℕ}

theorem Shared.size_write {s : Shared} {w : OpenBatch} {key value : Bytes}
    {rest : List (Bytes × Bytes)} (hwriting : s.writing = some w)
    (hleft : w.left = (key, value) :: rest) : (s.write w key value rest).size ≤ s.size := by
  have hsize : s.size = s.log.length + (rest.length + 1) := by
    simp [Track.size, Track.left, hwriting, hleft]
  rw [hsize]
  unfold Shared.write
  rcases s.part.appendRecord key value w.nowMs false {} (Fs.start s.dir) with ⟨st, part, fs⟩
  simp only
  split
  · simp only [Track.size, Track.left, List.length_append, List.length_singleton, Option.map_some,
      Option.getD_some]
    omega
  · simp [Track.size, Track.left]

/-- **A partition never gets more records than there is room for.** -/
theorem LiveStep.size_lt {a : LiveAction} (h : ∀ name p, (l.tracks name p).size < n)
    (hroom : a.Room n l) (hstep : LiveStep l a l') : ∀ name p, (l'.tracks name p).size < n := by
  -- a step in one partition
  have hput : ∀ {name p s} (s' : Shared), l.shared name p = some s → s'.size < n →
      ∀ name' p', ((l.put name p s').tracks name' p').size < n := by
    intro name p s s' hs hlt name' p'
    rw [Live.put_tracks hs, setAt_apply]
    split
    · exact hlt
    · exact h name' p'
  cases hstep with
  | choose _ _ _ _ => exact h
  | lock nowMs hmem hs hwriting hfit =>
    rename_i msg p pre post s
    refine hput _ hs ?_
    have hlt : (l.tracks msg.topic p).log.length + msg.records.length < n := hroom
    rw [← Live.shared_track hs] at hlt
    exact hlt
  | refuse _ _ => exact h
  | write hs hwriting hleft =>
    refine hput _ hs (lt_of_le_of_lt (Shared.size_write hwriting hleft) ?_)
    rw [Live.shared_track hs]
    exact h _ _
  | answer hwriter hs hwriting hleft =>
    rename_i name p msg s w
    refine hput _ hs (lt_of_le_of_lt ?_ (h name p))
    rw [← Live.shared_track hs]
    simp [Shared.unlock, Track.size, Track.left]
  | openCommit _ _ _ => exact h
  | checkOffset _ _ => exact h
  | dropCommit _ => exact h
  | persist _ _ => exact h
  | retain dryRun nowMs hres ht hlimits hs hwriting =>
    rename_i name p t s
    refine hput _ hs ?_
    have hsame := h name p
    rw [← Live.shared_track hs] at hsame
    exact hsame
  | createTopic _ _ _ _ _ _ => exact h
  | groups _ => exact h
  | restart _ _ => exact h

theorem LiveReachable.room_mono {m : ℕ} (hle : n ≤ m)
    (h : LiveReachable (fun l a => a.Room n l) l) :
    LiveReachable (fun l a => a.Room m l) l := by
  refine h.mono ?_
  intro l a hroom
  cases a with
  | lock msg p nowMs => exact lt_of_lt_of_le hroom hle
  | persist msg env => exact hroom
  | _ => trivial

theorem LiveReachable.size_lt (hpos : 0 < n) (h : LiveReachable (fun l a => a.Room n l) l) :
    ∀ name p, (l.tracks name p).size < n := by
  refine Reach.invariant (I := fun l => ∀ name p, (l.tracks name p).size < n) ?_ ?_ h
  · rintro l ⟨config, coordinatorConfig, nowMs, b, -, rfl⟩ name p
    exact hpos
  · exact fun l a l' hinv hroom hstep => hstep.size_lt hinv hroom

end Room

end StreamForge
