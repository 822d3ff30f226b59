import StreamForge.Broker.Restart

/-!
# The internal topics

Topics whose name begins with `__` are the broker's own. Whatever the clients send
and whichever retention passes run in between, such a topic changes only by what
`OffsetStore::commit` appends. And brokers that differ in nothing but the contents of
such topics answer the requests about topics and the joins alike.

Both rest on one fact about CREATE_TOPIC and PRODUCE: what they answer and write is
read off one name that is not reserved (`Edit`).
-/

namespace StreamForge

open OffsetStore MessageHandler GroupCoordinator RetentionManager

namespace TopicManager

def dirOf (mgr : TopicManager) (name : Bytes) : TopicDir := (mgr.dataDir.lookup name).getD {}

def Named (mgr : TopicManager) : Prop := ∀ name t, mgr.getTopic name = some t → t.name = name

/-- The topics a client may see. -/
def visible (mgr : TopicManager) : List (Sigma fun _ : Bytes => Topic) :=
  mgr.topics.entries.filter fun e => !isReserved e.1

structure SameAt (mgr mgr' : TopicManager) (name : Bytes) : Prop where
  topic : mgr'.getTopic name = mgr.getTopic name
  dir : mgr'.dirOf name = mgr.dirOf name

inductive Edit where
  | keep
  | dir (d : TopicDir)
  | topic (t : Topic) (d : TopicDir)

def edit (mgr : TopicManager) (name : Bytes) : Edit → TopicManager
  | .keep => mgr
  | .dir d => { mgr with dataDir := mgr.dataDir.insert name d }
  | .topic t d =>
    { mgr with topics := mgr.topics.insert name t, dataDir := mgr.dataDir.insert name d }

def Edit.Fits (name : Bytes) : Edit → Prop
  | .topic t _ => t.name = name
  | _ => True

variable {mgr mgr' : TopicManager} {name other : Bytes} {e : Edit}

theorem SameAt.refl (mgr : TopicManager) (name : Bytes) : SameAt mgr mgr name := ⟨rfl, rfl⟩

theorem SameAt.trans {mgr'' : TopicManager} (h : SameAt mgr mgr' name)
    (h' : SameAt mgr' mgr'' name) : SameAt mgr mgr'' name :=
  ⟨h'.topic.trans h.topic, h'.dir.trans h.dir⟩

theorem SameAt.partDirs (h : SameAt mgr mgr' name) : mgr'.partDirs name = mgr.partDirs name :=
  congrArg TopicDir.parts h.dir

theorem lookup_insert_congr {β : Type} {m m' : AList fun _ : Bytes => β}
    (h : m'.lookup other = m.lookup other) (name : Bytes) (b : β) :
    (m'.insert name b).lookup other = (m.insert name b).lookup other := by
  rw [AssocMap.lookup_insert_eq, AssocMap.lookup_insert_eq, h]

theorem getD_insert_congr {m m' : DataDir}
    (h : (m'.lookup other).getD {} = (m.lookup other).getD {}) (name : Bytes) (d : TopicDir) :
    ((m'.insert name d).lookup other).getD {} = ((m.insert name d).lookup other).getD {} := by
  rw [AssocMap.lookup_insert_eq, AssocMap.lookup_insert_eq]
  split
  · rfl
  · exact h

theorem SameAt.edit (h : SameAt mgr mgr' other) (name : Bytes) (e : Edit) :
    SameAt (mgr.edit name e) (mgr'.edit name e) other := by
  cases e with
  | keep => exact h
  | dir d => exact ⟨h.topic, getD_insert_congr h.dir name d⟩
  | topic t d => exact ⟨lookup_insert_congr h.topic name t, getD_insert_congr h.dir name d⟩

theorem sameAt_edit (mgr : TopicManager) (e : Edit) (h : other ≠ name) :
    SameAt mgr (mgr.edit name e) other := by
  cases e with
  | keep => exact SameAt.refl mgr other
  | dir d => exact ⟨rfl, by simp [TopicManager.edit, dirOf, h]⟩
  | topic t d => exact ⟨AList.lookup_insert_ne h, by simp [TopicManager.edit, dirOf, h]⟩

theorem Named.edit (h : mgr.Named) (he : e.Fits name) : (mgr.edit name e).Named := by
  cases e with
  | keep => exact h
  | dir d => exact h
  | topic t d =>
    intro other t' ht'
    rw [show (mgr.edit name (.topic t d)).getTopic other = _ from
      AssocMap.lookup_insert_eq _ _ _ _] at ht'
    split at ht'
    · rename_i hother
      cases ht'
      rw [hother]
      exact he
    · exact h other t' ht'

theorem setTopic_eq (mgr : TopicManager) (name : Bytes) (t : Topic) (parts : PartDirs) :
    mgr.setTopic name t parts = mgr.edit name (.topic t { mgr.dirOf name with parts }) := rfl

/-- **CREATE_TOPIC reads and writes one name.** -/
theorem createTopic_edit (hconfig : mgr'.config = mgr.config) (h : SameAt mgr mgr' name) (n : ℕ)
    (ms bytes : UInt64) (nowMs : Int64) : ∃ res e, Edit.Fits name e ∧
      mgr.createTopic name n ms bytes nowMs = (res, mgr.edit name e) ∧
      mgr'.createTopic name n ms bytes nowMs = (res, mgr'.edit name e) := by
  have htopic : mgr'.topics.lookup name = mgr.topics.lookup name := h.topic
  have hdir : (mgr'.dataDir.lookup name).getD {} = (mgr.dataDir.lookup name).getD {} := h.dir
  unfold createTopic
  simp only [hconfig, htopic, hdir]
  cases validateTopicName name with
  | some err => exact ⟨_, .keep, trivial, rfl, rfl⟩
  | none =>
    simp only
    split
    · exact ⟨_, .keep, trivial, rfl, rfl⟩
    split
    · exact ⟨_, .keep, trivial, rfl, rfl⟩
    split
    · exact ⟨_, .keep, trivial, rfl, rfl⟩
    generalize (if ms = 0 then mgr.config.defaultRetentionMs else ms) = ms'
    generalize (if bytes = 0 ∧ 0 < mgr.config.defaultRetentionBytes then
      mgr.config.defaultRetentionBytes else bytes) = bytes'
    split
    · refine ⟨_, .dir _, trivial, rfl, ?_⟩
      rw [edit, hconfig]
    · refine ⟨_, .topic _ _, ?_, rfl, ?_⟩
      · rfl
      · rw [edit, hconfig]

theorem Named.recoverTopics : ∀ (dirs : List (Sigma fun _ : Bytes => TopicDir))
    {mgr : TopicManager}, mgr.Named → (mgr.recoverTopics dirs).2.Named := by
  intro dirs
  induction dirs with
  | nil => exact fun h => h
  | cons d rest ih =>
    obtain ⟨name, dir⟩ := d
    intro mgr h
    unfold TopicManager.recoverTopics
    split
    · exact ih h
    split
    · exact ih h
    simp only
    split
    · exact h
    · exact ih (h.edit (e := .topic _ _) rfl)

end TopicManager

open TopicManager

/-! ## The handlers that write topics -/

section Handlers

variable {b b' : Broker}

def EditsAlike (b b' : Broker) (r r' : Frame × Broker) : Prop :=
  ∃ resp name e, isReserved name = false ∧ Edit.Fits name e ∧
    r = (resp, { b with manager := b.manager.edit name e }) ∧
    r' = (resp, { b' with manager := b'.manager.edit name e })

theorem EditsAlike.refused (resp : Frame) : EditsAlike b b' (resp, b) (resp, b') :=
  ⟨resp, [], .keep, rfl, trivial, rfl, rfl⟩

theorem handleCreateTopic_edit (hconfig : b'.manager.config = b.manager.config)
    (h : ∀ name, isReserved name = false → SameAt b.manager b'.manager name) (req : Frame)
    (env : Env) : EditsAlike b b' (handleCreateTopic b req env) (handleCreateTopic b' req env) := by
  unfold handleCreateTopic
  cases decodeBody CreateTopicRequest.decode req.body with
  | none => exact .refused _
  | some msg =>
    simp only
    split
    · exact .refused _
    by_cases hreserved : isReserved msg.topic = true
    · rw [if_pos hreserved, if_pos hreserved]
      exact .refused _
    rw [if_neg hreserved, if_neg hreserved]
    cases validateTopicName msg.topic with
    | some err => exact .refused _
    | none =>
      have hname := Bool.eq_false_iff.mpr hreserved
      obtain ⟨res, e, hfits, heq, heq'⟩ := createTopic_edit hconfig (h _ hname)
        msg.partitions.toNat (if msg.hasRetention then msg.retentionMs else 0)
        (if msg.hasRetention then msg.retentionBytes else 0) env.systemMs
      simp only [heq, heq']
      cases res with
      | error st => exact ⟨_, _, e, hname, hfits, rfl, rfl⟩
      | ok t => exact ⟨_, _, e, hname, hfits, rfl, rfl⟩

theorem name_produceBatch (t : Topic) (partition : Int32) (records : List (Bytes × Bytes))
    (nowMs : Int64) (fts : List Faults) (dirs : PartDirs) :
    (t.produceBatch partition records nowMs fts dirs).2.2.1.name = t.name := by
  have hchosen : ∀ key, (t.choosePartition key).2.name = t.name := by
    intro key
    unfold Topic.choosePartition
    split <;> rfl
  unfold Topic.produceBatch
  cases records with
  | nil => rfl
  | cons first rest =>
    simp only
    split
    · rfl
    have hname : (if partition = -1 then t.choosePartition first.1
        else (partition.toInt.toNat, t)).2.name = t.name := by
      split
      · exact hchosen _
      · rfl
    split <;> exact hname

theorem handleProduce_edit (hnamed : b.manager.Named)
    (h : ∀ name, isReserved name = false → SameAt b.manager b'.manager name) (req : Frame)
    (env : Env) : EditsAlike b b' (handleProduce b req env) (handleProduce b' req env) := by
  unfold handleProduce
  cases decodeBody ProduceRequest.decode req.body with
  | none => exact .refused _
  | some msg =>
    simp only
    by_cases hreserved : isReserved msg.topic = true
    · rw [if_pos hreserved, if_pos hreserved]
      exact .refused _
    have hname := Bool.eq_false_iff.mpr hreserved
    have hsame := h _ hname
    rw [if_neg hreserved, if_neg hreserved, hsame.topic, hsame.partDirs]
    split
    · exact .refused _
    cases ht : b.manager.getTopic msg.topic with
    | none => exact .refused _
    | some t =>
      have hkept := name_produceBatch t msg.partition msg.records env.systemMs env.faults
        (b.manager.partDirs msg.topic)
      simp only [setTopic_eq, hsame.dir]
      generalize t.produceBatch msg.partition msg.records env.systemMs env.faults
        (b.manager.partDirs msg.topic) = r at hkept ⊢
      obtain ⟨res, chosen, t', dirs⟩ := r
      have hfits : Edit.Fits msg.topic
        (.topic t' { b.manager.dirOf msg.topic with parts := dirs }) :=
        hkept.trans (hnamed _ t ht)
      cases res with
      | error st => exact ⟨_, _, _, hname, hfits, rfl, rfl⟩
      | ok base => exact ⟨_, _, _, hname, hfits, rfl, rfl⟩

end Handlers

inductive BrokerCall where
  | frame (req : Frame) (env : Env)
  | retention (dryRun : Bool) (specificTopic : Bytes) (clock : Bytes → ℕ → Int64)
  | expire (env : Env)

def Broker.serve (b : Broker) : BrokerCall → Broker
  | .frame req env => (handleRequest b req env).2
  | .retention dryRun specificTopic clock =>
    { b with manager := (runOnePass b.manager dryRun specificTopic clock).2 }
  | .expire env => { b with coordinator := (b.coordinator.expireMembers b.manager env).2 }

/-- A COMMIT_OFFSET that passes every check, and what `OffsetStore::commit` makes of the topics. -/
structure Broker.Commits (b : Broker) (call : BrokerCall) (mgr : TopicManager) : Prop where
  accepted : ∃ req env msg, call = .frame req env ∧ req.type = MessageType.COMMIT_OFFSET ∧
    decodeBody CommitOffsetRequest.decode req.body = some msg ∧
    b.acceptsCommit msg = true ∧
    mgr = (b.store.commitTo msg.groupId (itemsOf msg.requestEntries env) b.manager
      env.systemMs env.faults).2.2
  others : ∀ name, name ≠ internalOffsetsTopic → SameAt b.manager mgr name

/-- **The internal topics are left alone** but for the commits. -/
def Broker.Shielded (b : Broker) (call : BrokerCall) : Prop :=
  (∀ name, isReserved name = true → SameAt b.manager (b.serve call).manager name) ∨
    b.Commits call (b.serve call).manager

section Run

variable {b : Broker}

/-- **The broker starts with its topics under their names.** -/
theorem named_of_start {config : StorageConfig} {coordinatorConfig : CoordinatorConfig}
    {dataDir : DataDir} {nowMs : Int64} {b : Broker}
    (h : Broker.start config coordinatorConfig dataDir nowMs = .ok b) : b.manager.Named := by
  have hnone : ({ config, dataDir } : TopicManager).Named := fun _ _ ht => by cases ht
  have hnamed := hnone.recoverTopics dataDir.entries
  unfold Broker.start openAndRecoverAll at h
  simp only at h
  split at h
  · cases h
  split at h
  · cases h
  cases h
  generalize (recoverTopics _ _).2 = mgr at hnamed ⊢
  have hinternal : (internalTopic mgr nowMs).2.Named := by
    unfold internalTopic
    split
    · exact hnamed
    · obtain ⟨res, e, hfits, heq, -⟩ := createTopic_edit rfl (SameAt.refl mgr internalOffsetsTopic)
        1 0 0 nowMs
      rw [heq]
      cases res <;> exact hnamed.edit hfits
  unfold OffsetStore.openAndRecover
  generalize internalTopic mgr nowMs = r at hinternal ⊢
  obtain ⟨res, mgr'⟩ := r
  cases res with
  | error st => exact hinternal
  | ok t =>
    simp only
    split <;> exact hinternal

theorem name_scanTopic (t : Topic) (dirs : PartDirs) (dryRun : Bool) (clock : ℕ → Int64) :
    (scanTopic t dirs dryRun clock).2.1.name = t.name := by
  unfold scanTopic
  split
  · rfl
  · split <;> rfl

theorem scanTopics_reserved (dryRun : Bool) (clock : Bytes → ℕ → Int64) : ∀ (names : List Bytes)
    {mgr : TopicManager}, mgr.Named → (scanTopics dryRun clock names mgr).2.Named ∧
      ∀ name, isReserved name = true → SameAt mgr (scanTopics dryRun clock names mgr).2 name := by
  intro names
  induction names with
  | nil => exact fun h => ⟨h, fun _ _ => .refl _ _⟩
  | cons scanned rest ih =>
    intro mgr h
    unfold scanTopics
    cases ht : mgr.getTopic scanned with
    | none => exact ih h
    | some t =>
      have hname := h _ t ht
      have hkept := name_scanTopic t (mgr.partDirs scanned) dryRun (clock scanned)
      simp only [setTopic_eq]
      obtain ⟨hnamed, hsame⟩ := ih (h.edit (e := .topic _ _) (hkept.trans hname))
      refine ⟨hnamed, fun name hreserved => .trans ?_ (hsame name hreserved)⟩
      by_cases heq : name = scanned
      · subst heq
        unfold scanTopic
        rw [hname, if_pos hreserved]
        constructor
        · exact (AList.lookup_insert _).trans ht.symm
        · show ((mgr.dataDir.insert name _).lookup name).getD {} = mgr.dirOf name
          rw [AList.lookup_insert]
          rfl
      · exact sameAt_edit mgr _ heq

theorem commitTo_edit (hnamed : b.manager.Named) (groupId : Bytes) (items : List OffsetCommitItem)
    (nowMs : Int64) (fts : List Faults) : ∃ e, Edit.Fits internalOffsetsTopic e ∧
      (b.store.commitTo groupId items b.manager nowMs fts).2.2 =
        b.manager.edit internalOffsetsTopic e := by
  unfold commitTo
  cases ht : b.manager.getTopic internalOffsetsTopic with
  | none => exact ⟨.keep, trivial, rfl⟩
  | some t =>
    simp only
    split
    · exact ⟨.keep, trivial, rfl⟩
    · refine ⟨.topic _ _, ?_, rfl⟩
      exact hnamed _ t ht

/-- **A commit** is refused, or it is handed to the store. -/
theorem handleCommitOffset_manager (req : Frame) (env : Env) :
    (handleCommitOffset b req env).2 = b ∨
      ∃ msg, decodeBody CommitOffsetRequest.decode req.body = some msg ∧
        b.acceptsCommit msg = true ∧
        let res := b.store.commitTo msg.groupId (itemsOf msg.requestEntries env)
          b.manager env.systemMs env.faults
        (handleCommitOffset b req env).2 =
          { b with store := res.2.1, manager := res.2.2 } := by
  unfold handleCommitOffset
  cases hdecode : decodeBody CommitOffsetRequest.decode req.body with
  | none => exact .inl rfl
  | some msg =>
    rcases commit_cases b.coordinator b.store b.manager msg.groupId msg.memberId
      msg.generation msg.requestEntries env with
      ⟨res, heq, -⟩ | ⟨hentries, hcaller, hoffsets, heq⟩
    · unfold CommitOffsetRequest.requestEntries at heq
      simp only [heq]
      split <;> exact .inl rfl
    · refine .inr ⟨msg, rfl, ?_, ?_⟩
      · rw [Broker.acceptsCommit, hentries, hcaller, hoffsets]
        rfl
      · unfold CommitOffsetRequest.requestEntries at heq ⊢
        simp only [heq]
        split <;> rfl

theorem Shielded.of_edit (h : b.manager.Named) {name : Bytes} {e : Edit}
    (hname : isReserved name = false) (hfits : e.Fits name) {call : BrokerCall}
    (heq : b.serve call = { b with manager := b.manager.edit name e }) :
    b.Shielded call ∧ (b.serve call).manager.Named := by
  unfold Broker.Shielded
  rw [heq]
  refine ⟨.inl fun other hother => sameAt_edit _ e ?_, h.edit hfits⟩
  rintro rfl
  rw [hname] at hother
  cases hother

theorem Shielded.of_eq (h : b.manager.Named) {call : BrokerCall}
    (heq : (b.serve call).manager = b.manager) :
    b.Shielded call ∧ (b.serve call).manager.Named := by
  unfold Broker.Shielded
  rw [heq]
  exact ⟨.inl fun _ _ => .refl _ _, h⟩

theorem shielded (h : b.manager.Named) (call : BrokerCall) :
    b.Shielded call ∧ (b.serve call).manager.Named := by
  have hself : ∀ name, isReserved name = false → SameAt b.manager b.manager name :=
    fun name _ => .refl _ name
  cases call with
  | retention dryRun specificTopic clock =>
    obtain ⟨hnamed, hsame⟩ := scanTopics_reserved dryRun clock
      (if specificTopic.isEmpty then b.manager.topics.keys else [specificTopic]) h
    exact ⟨.inl hsame, hnamed⟩
  | expire env => exact Shielded.of_eq h rfl
  | frame req env =>
    have hhandled := handled b req env
    generalize hres : handleRequest b req env = res at hhandled
    have hserve : b.serve (.frame req env) = res.2 := congrArg Prod.snd hres
    have hmanager := congrArg Broker.manager hserve
    cases hhandled with
    | unchanged resp => exact Shielded.of_eq h hmanager
    | createTopic =>
      obtain ⟨resp, name, e, hname, hfits, hedit, -⟩ := handleCreateTopic_edit rfl hself req env
      exact Shielded.of_edit h hname hfits (hserve.trans (congrArg Prod.snd hedit))
    | produce =>
      obtain ⟨resp, name, e, hname, hfits, hedit, -⟩ := handleProduce_edit h hself req env
      exact Shielded.of_edit h hname hfits (hserve.trans (congrArg Prod.snd hedit))
    | joinGroup resp _ _ => exact Shielded.of_eq h hmanager
    | heartbeat resp _ _ _ => exact Shielded.of_eq h hmanager
    | leaveGroup resp _ _ => exact Shielded.of_eq h hmanager
    | commitOffset htype =>
      rcases handleCommitOffset_manager (b := b) req env with heq | ⟨msg, hdecode, hok, heq⟩
      · exact Shielded.of_eq h (hmanager.trans (congrArg Broker.manager heq))
      · obtain ⟨e, hfits, hedit⟩ := commitTo_edit h msg.groupId
          (itemsOf msg.requestEntries env) env.systemMs env.faults
        have hstored := hmanager.trans (congrArg Broker.manager heq)
        have hedited := hstored.trans hedit
        refine ⟨.inr ⟨⟨req, env, msg, rfl, htype, hdecode, hok, hstored⟩, ?_⟩, ?_⟩
        · intro name hname
          rw [hedited]
          exact sameAt_edit _ e hname
        · rw [hedited]
          exact h.edit hfits

end Run

/-! ## Two runs -/

def topicRequests : List UInt8 :=
  [MessageType.CREATE_TOPIC, MessageType.PRODUCE, MessageType.FETCH, MessageType.LIST_TOPICS,
    MessageType.DESCRIBE_TOPIC, MessageType.JOIN_GROUP]

def Broker.responses (b : Broker) : List (Frame × Env) → List Frame
  | [] => []
  | (req, env) :: rest =>
    (handleRequest b req env).1 :: (handleRequest b req env).2.responses rest

/-- **Two brokers that differ in the contents of internal topics only.** The numbers of
partitions are those of the topics, not their contents. -/
structure Broker.Alike (b b' : Broker) : Prop where
  named : b.manager.Named
  named_right : b'.manager.Named
  config : b'.manager.config = b.manager.config
  same : ∀ name, isReserved name = false → SameAt b.manager b'.manager name
  visible : b'.manager.visible = b.manager.visible
  counts : ∀ name, (b'.manager.getTopic name).map Topic.numPartitions =
    (b.manager.getTopic name).map Topic.numPartitions
  coordinator : b'.coordinator = b.coordinator
  hasCoordinator : b'.hasCoordinator = b.hasCoordinator
  cache : b'.store.cache = b.store.cache

section TwoRuns

variable {b b' : Broker}

theorem TopicManager.Named.listed {mgr : TopicManager} (h : mgr.Named) :
    mgr.listTopics.filter (fun t => !isReserved t.name) = mgr.visible.map Sigma.snd := by
  unfold listTopics TopicManager.visible
  rw [List.filter_map]
  congr 1
  apply List.filter_congr
  rintro ⟨name, t⟩ hmem
  rw [Function.comp_apply, h name t (AssocMap.lookup_of_mem hmem)]

theorem visible_insert (mgr : TopicManager) {name : Bytes} (hname : isReserved name = false)
    (t : Topic) (d : TopicDir) :
    (mgr.edit name (.topic t d)).visible = ⟨name, t⟩ :: mgr.visible.kerase name := by
  unfold TopicManager.visible List.kerase
  rw [List.eraseP_filter]
  show ((⟨name, t⟩ : Sigma fun _ : Bytes => Topic) :: mgr.topics.entries.kerase name).filter _ = _
  rw [List.filter_cons_of_pos (by simp [hname])]
  unfold List.kerase
  congr 2
  congr 1
  ext x
  by_cases hx : name = x.1
  · simp [← hx, hname]
  · simp [hx]

/-- **The same edit keeps two brokers alike.** -/
theorem Broker.Alike.edit (h : b.Alike b') {name : Bytes} (hname : isReserved name = false)
    {e : Edit} (hfits : e.Fits name) : Broker.Alike { b with manager := b.manager.edit name e }
      { b' with manager := b'.manager.edit name e } where
  named := h.named.edit hfits
  named_right := h.named_right.edit hfits
  config := by cases e <;> exact h.config
  same := fun other hother => (h.same other hother).edit name e
  visible := by
    cases e with
    | keep => exact h.visible
    | dir d => exact h.visible
    | topic t d =>
      simp only
      rw [visible_insert _ hname, visible_insert _ hname, h.visible]
  counts := by
    intro other
    by_cases hother : other = name
    · rw [hother, ((h.same name hname).edit name e).topic]
    · simp only
      rw [(sameAt_edit _ e hother).topic, (sameAt_edit _ e hother).topic]
      exact h.counts other
  coordinator := h.coordinator
  hasCoordinator := h.hasCoordinator
  cache := h.cache

theorem Broker.Alike.of_edits (h : b.Alike b') {r r' : Frame × Broker} (hr : EditsAlike b b' r r') :
    r'.1 = r.1 ∧ r.2.Alike r'.2 := by
  obtain ⟨resp, name, e, hname, hfits, rfl, rfl⟩ := hr
  exact ⟨rfl, h.edit hname hfits⟩

theorem join_congr {mgr mgr' : TopicManager} (h : ∀ name,
      (mgr'.getTopic name).map Topic.numPartitions = (mgr.getTopic name).map Topic.numPartitions)
    (c : GroupCoordinator) (groupId memberId : Bytes) (timeout : UInt32) (topics : List Bytes)
    (strategy : UInt8) (env : Env) :
    c.join mgr' groupId memberId timeout topics strategy env =
      c.join mgr groupId memberId timeout topics strategy env := by
  have hnone : ∀ name, (mgr'.getTopic name).isNone = (mgr.getTopic name).isNone := by
    intro name
    rw [← Option.isNone_map, h, Option.isNone_map]
  have hcheck : checkTopics mgr' topics = checkTopics mgr topics := by
    induction topics with
    | nil => rfl
    | cons t rest ih => simp only [checkTopics, hnone, ih]
  have hcounts : ∀ topics, topicPartitions mgr' topics = topicPartitions mgr topics := by
    intro topics
    unfold topicPartitions
    apply List.filterMap_congr
    intro name _
    have := congrArg (Option.map fun n => (name, UInt16.ofNat n)) (h name)
    rwa [Option.map_map, Option.map_map] at this
  unfold GroupCoordinator.join checkJoin joinGroup addMember rebalanceUnlocked
  simp only [hcheck, hcounts]

theorem Broker.Alike.join (h : b.Alike b') (req : Frame) (env : Env) :
    (withCoordinator b' req fun _ => handleJoinGroup b' req env).1 =
      (withCoordinator b req fun _ => handleJoinGroup b req env).1 ∧
    (withCoordinator b req fun _ => handleJoinGroup b req env).2.Alike
      (withCoordinator b' req fun _ => handleJoinGroup b' req env).2 := by
  unfold withCoordinator handleJoinGroup
  rw [h.hasCoordinator]
  split
  · split
    · exact ⟨rfl, h⟩
    · simp only [h.coordinator, join_congr h.counts]
      split <;> exact ⟨rfl, { h with coordinator := rfl, hasCoordinator := rfl }⟩
  · exact ⟨rfl, h⟩

/-- **One request of two brokers that are alike.** -/
theorem Broker.Alike.step (h : b.Alike b') {req : Frame} (htype : req.type ∈ topicRequests)
    (env : Env) : (handleRequest b' req env).1 = (handleRequest b req env).1 ∧
      (handleRequest b req env).2.Alike (handleRequest b' req env).2 := by
  unfold handleRequest
  simp only [topicRequests, List.mem_cons, List.not_mem_nil, or_false] at htype
  rcases htype with htype | htype | htype | htype | htype | htype <;> rw [htype]
  · exact h.of_edits (handleCreateTopic_edit h.config h.same req env)
  · exact h.of_edits (handleProduce_edit h.named h.same req env)
  · refine ⟨?_, h⟩
    show handleFetch b' req = handleFetch b req
    unfold handleFetch
    split
    · rfl
    · split
      · rfl
      · rename_i hname
        have hsame := h.same _ (Bool.eq_false_iff.mpr hname)
        rw [hsame.topic, hsame.partDirs]
  · refine ⟨?_, h⟩
    show handleListTopics b' req = handleListTopics b req
    unfold handleListTopics listTopicsResponse
    rw [h.named.listed, h.named_right.listed, h.visible]
  · refine ⟨?_, h⟩
    show handleDescribeTopic b' req = handleDescribeTopic b req
    unfold handleDescribeTopic
    split
    · rfl
    · split
      · rfl
      · rename_i hname
        rw [(h.same _ (Bool.eq_false_iff.mpr hname)).topic]
  · exact h.join req env

theorem responses_congr (reqs : List (Frame × Env)) :
    ∀ {b b' : Broker}, b.Alike b' → (∀ r ∈ reqs, r.1.type ∈ topicRequests) →
      b'.responses reqs = b.responses reqs := by
  induction reqs with
  | nil => exact fun _ _ => rfl
  | cons r rest ih =>
    intro b b' h htypes
    obtain ⟨hresp, hnext⟩ := h.step (htypes r (List.mem_cons_self ..)) r.2
    have hrest := ih hnext fun r' hr' => htypes r' (List.mem_cons_of_mem _ hr')
    rw [Broker.responses, Broker.responses, hresp, hrest]

/-- **Clients neither touch nor see the internal topics.** After any calls, the next one
leaves them as they are or is an accepted commit. Brokers that differ in their contents
only answer alike. -/
theorem internal_topics_shielded {config : StorageConfig} {coordinatorConfig : CoordinatorConfig}
    {dataDir : DataDir} {nowMs : Int64} {b : Broker}
    (h : Broker.start config coordinatorConfig dataDir nowMs = .ok b) :
    (∀ (calls : List BrokerCall) (call : BrokerCall), (calls.foldl Broker.serve b).Shielded call) ∧
      ∀ b₁ b₂ : Broker, b₁.Alike b₂ → ∀ reqs : List (Frame × Env),
        (∀ r ∈ reqs, r.1.type ∈ topicRequests) → b₂.responses reqs = b₁.responses reqs := by
  have hnamed : ∀ calls : List BrokerCall, (calls.foldl Broker.serve b).manager.Named := by
    intro calls
    induction calls using List.reverseRecOn with
    | nil => exact named_of_start h
    | append_singleton calls call ih =>
      rw [List.foldl_concat]
      exact (shielded ih call).2
  exact ⟨fun calls call => (shielded (hnamed calls) call).1,
    fun _ _ halike reqs htypes => responses_congr reqs halike htypes⟩

section Example

theorem visible_insert_reserved (mgr : TopicManager) {name : Bytes} (hname : isReserved name = true)
    (t : Topic) (d : TopicDir) : (mgr.edit name (.topic t d)).visible = mgr.visible := by
  show ((⟨name, t⟩ : Sigma fun _ : Bytes => Topic) :: mgr.topics.entries.kerase name).filter _ =
    mgr.topics.entries.filter _
  rw [List.filter_cons_of_neg (by simp [hname])]
  induction mgr.topics.entries with
  | nil => rfl
  | cons x entries ih =>
    by_cases hx : name = x.1
    · rw [List.kerase_cons_eq hx, List.filter_cons_of_neg (by simp [← hx, hname])]
    · rw [List.kerase_cons_ne hx, List.filter_cons, List.filter_cons, ih]

/-- The broker after a commit of two offsets whose second record cannot be written. -/
def Broker.halfCommitted (b : Broker) : Broker :=
  { b with manager := (b.store.commitTo (ascii "g") [⟨ascii "t", 0, 7, 0⟩, ⟨ascii "t", 1, 8, 0⟩]
      b.manager 5 [{}, { logWrite := some 0 }]).2.2 }

theorem alike_edit (h : b.manager.Named) {name : Bytes} (hname : isReserved name = true) {t : Topic}
    (hfits : t.name = name) (d : TopicDir)
    (hcount : (b.manager.getTopic name).map Topic.numPartitions = some t.numPartitions) :
    b.Alike { b with manager := b.manager.edit name (.topic t d) } where
  named := h
  named_right := h.edit hfits
  config := rfl
  same := by
    intro other hother
    refine sameAt_edit b.manager (.topic t d) ?_
    rintro rfl
    exact Bool.false_ne_true (hother.symm.trans hname)
  visible := visible_insert_reserved _ hname t d
  counts := by
    intro other
    show ((b.manager.topics.insert name t).lookup other).map _ = _
    rw [AssocMap.lookup_insert_eq]
    split
    · rename_i hother
      rw [hother]
      exact hcount.symm
    · rfl
  coordinator := rfl
  hasCoordinator := rfl
  cache := rfl

theorem alike_halfCommitted (h : b.manager.Named) : b.Alike b.halfCommitted := by
  have hself : b.Alike b :=
    ⟨h, h, rfl, fun name _ => SameAt.refl _ name, rfl, fun _ => rfl, rfl, rfl, rfl⟩
  unfold Broker.halfCommitted commitTo
  cases ht : b.manager.getTopic internalOffsetsTopic with
  | none => exact hself
  | some t =>
    cases hp : t.getPartition 0 with
    | none => simpa only [hp] using hself
    | some p =>
      simp only [hp, setTopic_eq]
      refine alike_edit h rfl ?_ _ ?_
      · exact h _ t ht
      · simp [ht, Topic.numPartitions]

def Broker.offsetLogEnds (b : Broker) : Option (List UInt64) :=
  (b.manager.getTopic internalOffsetsTopic).map (·.partitions.map Partition.nextOffset)

/-- The offset log of the second broker has the first record of a commit that failed. -/
theorem internal_topics_shielded_half_commit : ∃ b, Broker.start {} {} ∅ 0 = .ok b ∧
    (∀ (calls : List BrokerCall) (call : BrokerCall), (calls.foldl Broker.serve b).Shielded call) ∧
    b.offsetLogEnds = some [0] ∧ b.halfCommitted.offsetLogEnds = some [1] ∧
    ∀ reqs : List (Frame × Env), (∀ r ∈ reqs, r.1.type ∈ topicRequests) →
      b.halfCommitted.responses reqs = b.responses reqs := by
  have hends : (Broker.start {} {} ∅ 0).toOption.map (fun b =>
      (b.offsetLogEnds, b.halfCommitted.offsetLogEnds)) = some (some [0], some [1]) := by
    decide +kernel
  cases hstart : Broker.start {} {} ∅ 0 with
  | error st =>
    rw [hstart] at hends
    cases hends
  | ok b =>
    rw [hstart] at hends
    obtain ⟨hend, hend'⟩ := Prod.mk.inj (Option.some.inj hends)
    obtain ⟨hshielded, hresponses⟩ := internal_topics_shielded hstart
    exact ⟨b, rfl, hshielded, hend, hend',
      hresponses _ _ (alike_halfCommitted (named_of_start hstart))⟩

end Example

end TwoRuns

end StreamForge
