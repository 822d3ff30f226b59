import StreamForge.Broker.RefusedCall
import StreamForge.Broker.Restart

/-!
# Committed offsets

The offsets of all groups are kept in one flat map, under the key
`group|topic|partition`. Group ids are not checked on the way there and may
contain the separator; topic names and partition numbers may not, and reading a
key from its end gives all three parts back (`makeKey_inj`). So the flat map is
a last-writer-wins map of triples, for any group ids.

Offsets come in as unsigned numbers and go out as signed ones.
-/

namespace StreamForge

open AssocMap OffsetStore GroupCoordinator

theorem append_separator_inj {c : UInt8} {a a' b b' : Bytes} (hb : c ∉ b) (hb' : c ∉ b')
    (h : a ++ c :: b = a' ++ c :: b') : a = a' ∧ b = b' := by
  rcases List.append_eq_append_iff.mp h with ⟨d, rfl, hd⟩ | ⟨d, rfl, hd⟩
  · cases d with
    | nil => exact ⟨(List.append_nil a).symm, (List.cons.inj hd).2⟩
    | cons x d =>
      obtain ⟨-, rfl⟩ := List.cons.inj hd
      exact absurd (List.mem_append_right d (List.mem_cons_self ..)) hb
  · cases d with
    | nil => exact ⟨List.append_nil a', (List.cons.inj hd).2.symm⟩
    | cons x d =>
      obtain ⟨-, rfl⟩ := List.cons.inj hd
      exact absurd (List.mem_append_right d (List.mem_cons_self ..)) hb'

/-- **Keys of different triples are different**, whatever the group ids are. -/
theorem makeKey_inj {g g' t t' : Bytes} {p p' : UInt16} (ht : pipe ∉ t) (ht' : pipe ∉ t')
    (h : makeKey g t p = makeKey g' t' p') : (g, t, p) = (g', t', p') := by
  have hkey : ∀ (g t : Bytes) (p : UInt16),
      makeKey g t p = (g ++ pipe :: t) ++ pipe :: toString p.toNat := by
    intro g t p
    simp [makeKey]
  rw [hkey, hkey] at h
  obtain ⟨hfront, hpart⟩ := append_separator_inj (pipe_notMem_toString _) (pipe_notMem_toString _) h
  obtain ⟨rfl, rfl⟩ := append_separator_inj ht ht' hfront
  have hnat := congrArg Decimal.ofDecimal hpart
  unfold toString at hnat
  rw [Decimal.ofDecimal_toDecimal, Decimal.ofDecimal_toDecimal] at hnat
  rw [UInt16.toNat_inj.mp hnat]

/-! ## Topic names -/

def NamesValid (mgr : TopicManager) : Prop :=
  ∀ name t, mgr.getTopic name = some t → TopicManager.validateTopicName name = none

section Names

variable {mgr mgr' : TopicManager} {name : Bytes} {t : Topic}

theorem NamesValid.insert (h : NamesValid mgr) (heq : mgr'.topics = mgr.topics.insert name t)
    (hname : TopicManager.validateTopicName name = none) : NamesValid mgr' := by
  intro other t' ht'
  unfold TopicManager.getTopic at ht'
  rw [heq, lookup_insert_eq] at ht'
  split at ht'
  · rename_i hother
    rw [hother]
    exact hname
  · exact h other t' ht'

theorem NamesValid.setTopic (h : NamesValid mgr) (ht : mgr.getTopic name = some t) (t' : Topic)
    (parts : PartDirs) : NamesValid (mgr.setTopic name t' parts) :=
  h.insert rfl (h name t ht)

theorem NamesValid.createTopic (h : NamesValid mgr) (name : Bytes) (n : ℕ)
    (retentionMs retentionBytes : UInt64) (nowMs : Int64) :
    NamesValid (mgr.createTopic name n retentionMs retentionBytes nowMs).2 := by
  rcases createTopic_topics mgr name n retentionMs retentionBytes nowMs with
    heq | ⟨t, heq, -, -, -, hname⟩
  · intro other x hx
    unfold TopicManager.getTopic at hx
    rw [heq] at hx
    exact h other x hx
  · exact h.insert heq hname

theorem NamesValid.recoverTopics (entries : List (Sigma fun _ : Bytes => TopicDir)) :
    ∀ {mgr : TopicManager}, NamesValid mgr → NamesValid (mgr.recoverTopics entries).2 := by
  induction entries with
  | nil => exact fun h => h
  | cons e rest ih =>
    intro mgr h
    obtain ⟨name, dir⟩ := e
    unfold TopicManager.recoverTopics
    split
    · exact ih h
    · rename_i hname
      have hvalid : TopicManager.validateTopicName name = none := by simpa using hname
      split
      · exact ih h
      · split
        simp only
        split
        · exact h
        · exact ih (h.insert rfl hvalid)

theorem namesValid_openAndRecoverAll (config : StorageConfig) (dataDir : DataDir) :
    NamesValid (TopicManager.openAndRecoverAll config dataDir).2 :=
  NamesValid.recoverTopics _ fun _ _ ht => nomatch ht

theorem NamesValid.commitTo (h : NamesValid mgr) (store : OffsetStore) (groupId : Bytes)
    (items : List OffsetCommitItem) (nowMs : Int64) (fts : List Faults) :
    NamesValid (store.commitTo groupId items mgr nowMs fts).2.2 := by
  unfold OffsetStore.commitTo
  cases ht : mgr.getTopic internalOffsetsTopic with
  | none => exact h
  | some t =>
    simp only
    split
    · exact h
    · exact h.setTopic ht _ _

end Names

/-- What other requests do to the topics: one more topic, or work on the
partitions of one. -/
inductive StorageWork (mgr : TopicManager) : TopicManager → Prop where
  | createTopic (name : Bytes) (n : ℕ) (retentionMs retentionBytes : UInt64) (nowMs : Int64) :
      StorageWork mgr (mgr.createTopic name n retentionMs retentionBytes nowMs).2
  | setTopic {name : Bytes} {t t' : Topic} (parts : PartDirs) : mgr.getTopic name = some t →
      t'.numPartitions = t.numPartitions → StorageWork mgr (mgr.setTopic name t' parts)

theorem StorageWork.namesValid {mgr mgr' : TopicManager} (h : StorageWork mgr mgr')
    (hnames : NamesValid mgr) : NamesValid mgr' := by
  cases h with
  | createTopic name n retentionMs retentionBytes nowMs =>
    exact hnames.createTopic name n retentionMs retentionBytes nowMs
  | setTopic parts ht _ => exact hnames.setTopic ht _ _

theorem StorageWork.extends {mgr mgr' : TopicManager} (h : StorageWork mgr mgr') :
    Extends mgr mgr' := by
  cases h with
  | createTopic name n retentionMs retentionBytes nowMs => exact extends_createTopic ..
  | @setTopic name t t' parts ht hnum =>
    refine extends_insert rfl (fun old hold => ?_) fun hfit => hnum ▸ hfit name t ht
    cases ht.symm.trans hold
    exact hnum

abbrev OffsetKey := Bytes × Bytes × UInt16

def GroupCoordinator.CallAction.keepsStorage : CallAction → Bool
  | .other .storage => false
  | .commitSection _ _ => false
  | _ => true

def GroupCoordinator.CallSystem.accepted (s : CallSystem) (call : CommitCall) (found : Bool)
    (env : Env) : List (OffsetKey × UInt64) :=
  if (s.persist call found env).1.errorCode = 0 then
    call.entries.map fun e => ((call.groupId, e.topic, e.partition), e.offset)
  else []

inductive CommitRun (s : CallSystem) : List (OffsetKey × UInt64) → CallSystem → Prop where
  | refl : CommitRun s [] s
  | storage {log : List (OffsetKey × UInt64)} {s₁ : CallSystem} {mgr : TopicManager} :
      CommitRun s log s₁ → StorageWork s₁.mgr mgr → CommitRun s log { s₁ with mgr := mgr }
  | call {log : List (OffsetKey × UInt64)} {s₁ s₂ : CallSystem} {a : CallAction} :
      CommitRun s log s₁ → CallStep s₁ a s₂ → a.keepsStorage = true → CommitRun s log s₂
  | commit {log : List (OffsetKey × UInt64)} {s₁ : CallSystem} {call : CommitCall} {found : Bool}
      {pre post : List (CommitCall × CommitPhase)} (env : Env) : CommitRun s log s₁ →
      s₁.commits = pre ++ (call, .located found) :: post →
      CommitRun s (log ++ s₁.accepted call found env) { s₁ with
        store := (s₁.persist call found env).2.1
        mgr := (s₁.persist call found env).2.2
        commits := pre ++ post }

theorem keepsStorage_eq {s s' : CallSystem} {a : CallAction} (h : CallStep s a s')
    (ha : a.keepsStorage = true) : s'.mgr = s.mgr ∧ s'.store = s.store := by
  cases h with
  | other hcommit hstep =>
    cases hstep with
    | storage _ => cases ha
    | commit _ _ _ _ _ => cases hcommit
    | _ => exact ⟨rfl, rfl⟩
  | commitCheck _ => exact ⟨rfl, rfl⟩
  | commitLookup _ => exact ⟨rfl, rfl⟩
  | commitSection _ _ => cases ha

/-! ## The map -/

/-- The flat map holds the last value of every triple. -/
def CacheOf (cache : OffsetCache) (log : List (OffsetKey × UInt64)) : Prop :=
  ∀ g t p, pipe ∉ t → (cache.lookup (makeKey g t p)).map OffsetEntry.offset =
    (lastWritten log (g, t, p)).map UInt64.toInt64

theorem CacheOf.insert {cache : OffsetCache} {log : List (OffsetKey × UInt64)}
    (h : CacheOf cache log)
    (groupId : Bytes) {topic : Bytes} (htopic : pipe ∉ topic) (partition : UInt16) (offset : UInt64)
    (timestampMs : Int64) :
    CacheOf (cache.insert (makeKey groupId topic partition) ⟨offset.toInt64, timestampMs⟩)
      (log ++ [((groupId, topic, partition), offset)]) := by
  intro g t p ht
  rw [lookup_insert_eq, lastWritten_snoc]
  by_cases hkey : (g, t, p) = (groupId, topic, partition)
  · cases hkey
    rw [if_pos rfl, if_pos rfl]
    rfl
  · rw [if_neg hkey, if_neg fun heq => hkey (makeKey_inj ht htopic heq)]
    exact h g t p ht

theorem CacheOf.cacheItems {entries : List OffsetCommitRequestEntry} {groupId : Bytes} {env : Env}
    (htopics : ∀ e ∈ entries, pipe ∉ e.topic) : ∀ {cache : OffsetCache}
    {log : List (OffsetKey × UInt64)}, CacheOf cache log →
    CacheOf (cacheItems groupId (itemsOf entries env) cache)
      (log ++ entries.map fun e => ((groupId, e.topic, e.partition), e.offset)) := by
  induction entries with
  | nil =>
    intro cache log h
    simpa [itemsOf, OffsetStore.cacheItems] using h
  | cons e rest ih =>
    intro cache log h
    have hfirst := h.insert groupId (htopics e (by simp)) e.partition e.offset
      (Int64.ofInt (toMillis env.clock))
    have hrest := ih (fun e he => htopics e (List.mem_cons_of_mem _ he)) hfirst
    rw [List.append_assoc] at hrest
    exact hrest

theorem persist_cache (s : CallSystem) (call : CommitCall) (found : Bool) (env : Env) :
    (s.persist call found env).2.1.cache =
      if (s.persist call found env).1.errorCode = 0 then
        cacheItems call.groupId (itemsOf call.entries env) s.store.cache
      else s.store.cache := by
  unfold CallSystem.persist
  rcases commitSection_cases s.store s.mgr (if found then s.coordinator.groups.lookup call.groupId
    else none) call.groupId call.memberId call.generation call.entries env with
    ⟨res, heq, hne⟩ | ⟨-, -, heq⟩
  · rw [heq, if_neg hne]
  · rw [heq]
    simp only
    rw [commitTo_store]
    split
    · rfl
    · rfl

structure LedgerInv (s : CallSystem) (log : List (OffsetKey × UInt64)) : Prop where
  names : NamesValid s.mgr
  pending : PendingInv s
  cache : CacheOf s.store.cache log

section Ledger

variable {s : CallSystem} {log : List (OffsetKey × UInt64)}

theorem LedgerInv.pipe_notMem (h : LedgerInv s log) {call : CommitCall} {phase : CommitPhase}
    (hcall : (call, phase) ∈ s.commits) : ∀ e ∈ call.entries, pipe ∉ e.topic := by
  intro e he
  obtain ⟨t, p, ht, -⟩ := h.pending _ hcall e he
  exact (separable_of_topicName (h.names e.topic t ht)).2

theorem LedgerInv.commit (h : LedgerInv s log) {call : CommitCall} {found : Bool}
    {pre post : List (CommitCall × CommitPhase)} (env : Env)
    (hcommits : s.commits = pre ++ (call, .located found) :: post) :
    LedgerInv { s with
      store := (s.persist call found env).2.1
      mgr := (s.persist call found env).2.2
      commits := pre ++ post } (log ++ s.accepted call found env) := by
  refine ⟨?_, h.pending.step (CallStep.commitSection env hcommits), ?_⟩
  · simp only [CallSystem.persist]
    rcases commitSection_cases s.store s.mgr (if found then s.coordinator.groups.lookup call.groupId
      else none) call.groupId call.memberId call.generation call.entries env with
      ⟨res, heq, -⟩ | ⟨-, -, heq⟩
    · rw [heq]
      exact h.names
    · rw [heq]
      exact h.names.commitTo s.store call.groupId _ _ _
  · simp only
    rw [persist_cache]
    unfold CallSystem.accepted
    split
    · have hcall : (call, CommitPhase.located found) ∈ s.commits := by simp [hcommits]
      exact h.cache.cacheItems (h.pipe_notMem hcall)
    · rw [List.append_nil]
      exact h.cache

theorem CommitRun.ledgerInv {s₀ : CallSystem} (hrun : CommitRun s₀ log s) (h : LedgerInv s₀ []) :
    LedgerInv s log := by
  induction hrun with
  | refl => exact h
  | storage _ hwork ih =>
    exact ⟨hwork.namesValid ih.names,
      ih.pending.step (CallStep.quiet rfl (Step.storage hwork.extends) rfl), ih.cache⟩
  | call _ hstep ha ih =>
    obtain ⟨hmgr, hstore⟩ := keepsStorage_eq hstep ha
    exact ⟨hmgr ▸ ih.names, ih.pending.step hstep, hstore ▸ ih.cache⟩
  | commit env _ hcommits ih => exact ih.commit env hcommits

end Ledger

structure FreshOffsets (s : CallSystem) : Prop where
  mgr : ∃ config dataDir, s.mgr = (TopicManager.openAndRecoverAll config dataDir).2
  cache : s.store.cache = ∅
  commits : s.commits = []

theorem FreshOffsets.ledgerInv {s : CallSystem} (h : FreshOffsets s) : LedgerInv s [] := by
  obtain ⟨⟨config, dataDir, hmgr⟩, hcache, hcommits⟩ := h
  refine ⟨hmgr ▸ namesValid_openAndRecoverAll config dataDir, ?_, ?_⟩
  · intro e he
    rw [hcommits] at he
    cases he
  · intro g t p _
    rw [hcache]
    rfl

/-- **Last writer wins**, per group, topic and partition: a query for a topic that
exists is answered with the last offset accepted for exactly its triple. -/
theorem fetch_last_accepted {s₀ s : CallSystem} {log : List (OffsetKey × UInt64)}
    (hstart : FreshOffsets s₀) (hrun : CommitRun s₀ log s) (groupId : Bytes)
    {queries : List TopicPartitionQuery}
    (htopics : ∀ q ∈ queries, (s.mgr.getTopic q.topic).isSome = true) :
    fetchOffsets s.store groupId queries = queries.map fun q =>
      ((lastWritten log (groupId, q.topic, q.partition)).map UInt64.toInt64).getD (-1) := by
  have hinv := hrun.ledgerInv hstart.ledgerInv
  refine List.map_congr_left fun q hq => ?_
  obtain ⟨t, ht⟩ := Option.isSome_iff_exists.mp (htopics q hq)
  have hpipe := (separable_of_topicName (hinv.names q.topic t ht)).2
  rw [← hinv.cache groupId q.topic q.partition hpipe]
  unfold OffsetStore.get
  cases s.store.cache.lookup (makeKey groupId q.topic q.partition) with
  | none => rfl
  | some entry => rfl

/-- A broker that has started on `dataDir`, before any join or commit. -/
def fresh (dataDir : DataDir) : CallSystem where
  mgr := (TopicManager.openAndRecoverAll {} dataDir).2
  coordinator := {}
  store := { opened := true }
  pending := []

theorem freshOffsets_fresh (dataDir : DataDir) : FreshOffsets (fresh dataDir) :=
  ⟨⟨{}, dataDir, rfl⟩, rfl, rfl⟩

/-- The topic of the offset store is made by its `open_and_recover`. -/
def ready (dataDir : DataDir) : CallSystem :=
  { fresh dataDir with mgr := ((fresh dataDir).mgr.createTopic internalOffsetsTopic 1 0 0 0).2 }

theorem commitRun_ready (dataDir : DataDir) : CommitRun (fresh dataDir) [] (ready dataDir) :=
  CommitRun.refl.storage (.createTopic internalOffsetsTopic 1 0 0 0)

def committed (dataDir : DataDir) (call : CommitCall) : CallSystem :=
  { ready dataDir with
    store := ((ready dataDir).persist call false {}).2.1
    mgr := ((ready dataDir).persist call false {}).2.2 }

theorem commitRun_committed {dataDir : DataDir} {call : CommitCall}
    (hcheck : checkEntries (ready dataDir).mgr call.entries = none) :
    CommitRun (fresh dataDir) ((ready dataDir).accepted call false {})
      (committed dataDir call) := by
  have hchecked := (commitRun_ready dataDir).call (CallStep.commitCheck hcheck) rfl
  have hlocated := hchecked.call (@CallStep.commitLookup _ call [] [] rfl) rfl
  exact CommitRun.commit {} hlocated rfl

/-- A data directory with the topic `t`, whose partition begins at `base`. -/
def startingAt (base : UInt64) : DataDir :=
  (∅ : DataDir).insert (ascii "t")
    { topicMeta := some (ascii "partitions=1\n")
      parts := fun _ => (∅ : Disk).insert ⟨base, .log⟩ [] }

def pipedCommit : CommitCall :=
  ⟨ascii "g|t|0", [], 0xFFFFFFFF, [⟨ascii "t", 0, 5⟩, ⟨ascii "t", 0, 4⟩]⟩

/-- The second entry wins, and the group `g` has committed nothing. -/
theorem fetch_last_accepted_piped :
    fetchOffsets (committed (startingAt 5) pipedCommit).store (ascii "g|t|0")
      [⟨ascii "t", 0⟩] = [4] ∧
      fetchOffsets (committed (startingAt 5) pipedCommit).store (ascii "g")
        [⟨ascii "t", 0⟩] = [-1] := by
  have hlog : (ready (startingAt 5)).accepted pipedCommit false {} =
      [((ascii "g|t|0", ascii "t", 0), 5), ((ascii "g|t|0", ascii "t", 0), 4)] := by
    decide +kernel
  have hcheck : checkEntries (ready (startingAt 5)).mgr pipedCommit.entries = none := by
    decide +kernel
  have hrun := commitRun_committed hcheck
  rw [hlog] at hrun
  have hstart := freshOffsets_fresh (startingAt 5)
  have htopics : ∀ q ∈ [(⟨ascii "t", 0⟩ : TopicPartitionQuery)],
      ((committed (startingAt 5) pipedCommit).mgr.getTopic q.topic).isSome = true := by
    decide +kernel
  rw [fetch_last_accepted hstart hrun _ htopics, fetch_last_accepted hstart hrun _ htopics]
  decide

def lastOffsetCommit : CommitCall :=
  ⟨ascii "g", [], 0xFFFFFFFF, [⟨ascii "t", 0, 18446744073709551615⟩]⟩

/-- **Offset 2^64 - 1 reads as -1**, as if nothing had been committed. -/
theorem last_offset_reads_as_none :
    ∃ s₀ s, ∃ log : List (OffsetKey × UInt64), FreshOffsets s₀ ∧ CommitRun s₀ log s ∧
      (s.mgr.getTopic (ascii "t")).isSome = true ∧
      lastWritten log (ascii "g", ascii "t", 0) = some 18446744073709551615 ∧
      fetchOffsets s.store (ascii "g") [⟨ascii "t", 0⟩] = [-1] := by
  refine ⟨_, committed (startingAt 18446744073709551615) lastOffsetCommit, _, freshOffsets_fresh _,
    commitRun_committed ?_, ?_, ?_, ?_⟩
  · decide +kernel
  · decide +kernel
  · decide +kernel
  · decide +kernel

end StreamForge
