import StreamForge.Broker.Restart
import StreamForge.Storage.FailedBatch

/-!
# Commits that fail

A commit is one batch for the log of committed offsets. The cache is only
touched when the batch was appended, so a failed commit does not show in the
running process; it shows after a restart if a record of it is in the log.
-/

namespace StreamForge

open FileTrace OffsetStore Transition MessageHandler GroupCoordinator

/-- The answers to FETCH_OFFSET are the same, now and after a restart. -/
structure OffsetsUntouched (b b' : Broker) : Prop where
  running : ∀ req, handleFetchOffset b' req = handleFetchOffset b req
  restarted : ∀ config coordinatorConfig nowMs b'',
    Broker.start config coordinatorConfig b'.manager.dataDir nowMs = .ok b'' →
    ∀ req, handleFetchOffset b'' req = handleFetchOffset b req

/-- The next offset of the log of committed offsets, as the partition `q` finds it
when it is opened on its files. -/
def Broker.offsetLogEnd (b : Broker) (q : Partition) : UInt64 :=
  (q.openAndRecover (Fs.start (b.manager.partDirs internalOffsetsTopic 0))).2.1.nextOffset

def Broker.BatchWritesNothing (b : Broker) (groupId : Bytes) (items : List OffsetCommitItem)
    (fts : List Faults) : Prop :=
  ∀ t p, b.manager.getTopic internalOffsetsTopic = some t → t.getPartition 0 = some p →
    p.writesNothing (batchOf groupId items) fts
      (Fs.start (b.manager.partDirs internalOffsetsTopic 0)) = true

/-- The commit is malformed, or the coordinator refuses it, or its batch leaves
nothing in the log. -/
def Broker.CommitLogsNothing (b : Broker) (req : Frame) (env : Env) : Prop :=
  decodeBody CommitOffsetRequest.decode req.body = none ∨
    ∃ msg, decodeBody CommitOffsetRequest.decode req.body = some msg ∧
      (b.acceptsCommit msg = false ∨
        b.BatchWritesNothing msg.groupId (itemsOf msg.requestEntries env) env.faults)

section Commit

variable {b : Broker} {hists : Histories}

theorem handleFetchOffset_congr {b b' : Broker} (h : b'.store.cache = b.store.cache) (req : Frame) :
    handleFetchOffset b' req = handleFetchOffset b req := by
  have hget : ∀ groupId queries, fetchOffsets b'.store groupId queries =
      fetchOffsets b.store groupId queries := by
    intro groupId queries
    simp only [fetchOffsets, OffsetStore.get, h]
  simp only [handleFetchOffset, fetchOffsetResponse, hget]

theorem BrokerInv.offsetsUntouched (h : BrokerInv b hists) (hroom : hists.HasRoom) {b' : Broker}
    (hstore : b'.store = b.store) (hdata : DataInv b'.manager.dataDir hists) :
    OffsetsUntouched b b' where
  running := handleFetchOffset_congr (by rw [hstore])
  restarted config coordinatorConfig nowMs b'' hstart := by
    have hinv := hdata.brokerInv hroom h.kept hstart
    exact handleFetchOffset_congr (hinv.cache.trans h.cache.symm)

/-- **A failed batch on the files**: the records it leaves move the next offset. -/
theorem Holds.failed_batch {p : Partition} {d : Disk} {hist : History} (h : Holds p d hist)
    {items : List (Bytes × Bytes)} {nowMs : Int64} {fts : List Faults}
    (hsized : ∀ item ∈ items, item.1.length + item.2.length < 2 ^ 32 - 28)
    (hroom : hist.records.length + items.length < 2 ^ 64) {e : Status} {p' : Partition}
    {fs' : FileSystem} (herr : p.appendBatch items nowMs fts (Fs.start d) = (.error e, p', fs')) :
    ((∀ q : Partition, (q.openAndRecover (Fs.start fs'.dir)).2.1.nextOffset =
        (q.openAndRecover (Fs.start d)).2.1.nextOffset) ↔
      p.writesNothing items fts (Fs.start d) = true) ∧
    (p.writesNothing items fts (Fs.start d) = true → Recovers fs'.dir hist) := by
  set st : RunState := ⟨p, Fs.start d, []⟩ with hst
  have hlogged : Logged st hist.records := ⟨h.1, by omega⟩
  have hcall : call st (.batch items nowMs fts) = ⟨p', fs', []⟩ := by simp only [call, hst, herr]
  obtain ⟨more, hleft⟩ := @Logged.leftBehind st hist.records items nowMs fts hlogged
    ⟨hsized, by rw [hlogged.next]; exact hroom⟩ ⟨e, by rw [hst, herr]⟩
  have hvis := hleft.visible
  have hmany := hleft.length_le
  obtain ⟨hbefore, hle⟩ := hlogged.visible
  rw [hcall] at hvis
  have hmoved : ∀ q : Partition, (q.openAndRecover (Fs.start fs'.dir)).2.1.nextOffset.toNat =
      (q.openAndRecover (Fs.start d)).2.1.nextOffset.toNat + more.length := by
    intro q
    obtain ⟨q₁, ops₁, _, _, heq₁, -, -, -, hnext₁⟩ := hbefore.recover (by
      rw [List.length_drop]
      omega) q
    obtain ⟨q₂, ops₂, _, _, heq₂, -, -, -, hnext₂⟩ := hvis.recover (by
      rw [List.length_append, List.length_drop]
      omega) q
    rw [show q.openAndRecover (Fs.start d) = _ from heq₁, heq₂, hnext₁, hnext₂, List.length_append,
      Nat.add_assoc]
  rw [← hleft.nothing]
  refine ⟨⟨?_, ?_⟩, ?_⟩
  · intro hsame
    have hq := hmoved p
    rw [hsame p] at hq
    exact List.length_eq_zero_iff.mp (by omega)
  · rintro rfl q
    exact UInt64.toNat_inj.mp (hmoved q)
  · rintro rfl q
    rw [List.append_nil] at hvis
    obtain ⟨q', fs'', heq, hlogged', hearly⟩ := Logged.recovered h.1.1 hlogged.room hle hvis q []
    exact ⟨q', fs'', heq, hlogged'.inv.start, hearly.trans h.2⟩

theorem BrokerInv.dataInv_set (h : BrokerInv b hists) (hroom : hists.HasRoom) {t : Topic}
    {dir : TopicDir} (ht : b.manager.getTopic internalOffsetsTopic = some t)
    (hdir : b.manager.dataDir.lookup internalOffsetsTopic = some dir) {d : Disk}
    (hd : Recovers d (hists internalOffsetsTopic 0)) (t' : Topic) :
    DataInv (b.manager.setTopic internalOffsetsTopic t' (Function.update dir.parts 0 d)).dataDir
      hists := by
  intro name
  by_cases hname : name = internalOffsetsTopic
  · subst hname
    obtain ⟨dir', hdir', hinv⟩ := h.storage.topic ht
    cases hdir.symm.trans hdir'
    obtain ⟨t0, nowMs, hpos, hle, hmeta, hold⟩ := (hinv.dirInv (hroom _)).topicMeta
    refine Or.inr ⟨{ dir with parts := Function.update dir.parts 0 d }, ?_, hinv.valid, t0, nowMs,
      hpos, hle, hmeta, fun i hi => ?_⟩
    · simp [TopicManager.setTopic, hdir]
    · by_cases hi0 : i = 0
      · subst hi0
        simpa using hd
      · simpa [Function.update_of_ne hi0] using hold i hi
  · rcases (h.storage.dataInv hroom) name with ⟨hnone, hnil⟩ | ⟨dir', hdir', hinv⟩
    · exact Or.inl ⟨by simp [TopicManager.setTopic, hname, hnone], hnil⟩
    · exact Or.inr ⟨dir', by simp [TopicManager.setTopic, hname, hdir'], hinv⟩

/-- What a failed commit leaves of the broker `b`, if `nothing` says when its batch
writes nothing. -/
structure CommitFailed (b b' : Broker) (hists : Histories) (nothing : Prop) : Prop where
  store : b'.store = b.store
  logEnd : (∀ q, b'.offsetLogEnd q = b.offsetLogEnd q) ↔ nothing
  data : nothing → DataInv b'.manager.dataDir hists

/-- **A failed commit of the offset store**, whatever made it fail. -/
theorem BrokerInv.commitTo_failed (h : BrokerInv b hists) {groupId : Bytes}
    (hgroup : groupId.length < 65536) {items : List OffsetCommitItem}
    (htopics : ∀ item ∈ items, item.topic.length < 65536) {nowMs : Int64} {fts : List Faults}
    (hroom : ∀ name i, (hists name i).records.length + items.length < 2 ^ 64)
    (herr : (b.store.commitTo groupId items b.manager nowMs fts).1.ok = false) :
    CommitFailed b { b with
      store := (b.store.commitTo groupId items b.manager nowMs fts).2.1
      manager := (b.store.commitTo groupId items b.manager nowMs fts).2.2 } hists
      (b.BatchWritesNothing groupId items fts) := by
  obtain ⟨t, ht⟩ := Option.isSome_iff_exists.mp h.internal
  obtain ⟨dir, hdir, hinv⟩ := h.storage.topic ht
  obtain ⟨p, hp⟩ : ∃ p, t.partitions[0]? = some p := ⟨_, List.getElem?_eq_getElem hinv.pos⟩
  have hlen : (batchOf groupId items).length = items.length := by simp [batchOf]
  have hempty : items.isEmpty = false := by
    cases hitems : items.isEmpty with
    | false => rfl
    | true =>
      simp [OffsetStore.commitTo, OffsetStore.commit, ht, Topic.getPartition, hp, hitems] at herr
  have hnothing : b.BatchWritesNothing groupId items fts ↔
      p.writesNothing (batchOf groupId items) fts (Fs.start (dir.parts 0)) = true := by
    unfold Broker.BatchWritesNothing
    rw [partDirs_eq hdir]
    constructor
    · exact fun hall => hall t p ht hp
    · intro hstop t' p' ht' hp'
      cases ht.symm.trans ht'
      cases hp.symm.trans hp'
      exact hstop
  unfold OffsetStore.commitTo OffsetStore.commit at herr ⊢
  simp only [ht, Topic.getPartition, hp, partDirs_eq hdir, hempty, h.opened, Bool.not_true,
    Bool.false_eq_true, if_false] at herr ⊢
  generalize hbatch : p.appendBatch (batchOf groupId items) nowMs fts (Fs.start (dir.parts 0)) = res
    at herr ⊢
  obtain ⟨res, p', fs'⟩ := res
  cases res with
  | ok offset => simp at herr
  | error e =>
    have hsmall := length_batchOf hgroup htopics
    obtain ⟨hlogEnd, hrecovers⟩ := (hinv.parts 0 p hp).failed_batch
      (fun kv hkv => by have := hsmall kv hkv; omega)
      (by rw [hlen]; exact hroom internalOffsetsTopic 0) hbatch
    rw [hnothing]
    refine ⟨rfl, ?_, fun hstop => h.dataInv_set (.of_total hroom) ht hdir (hrecovers hstop) _⟩
    rw [← hlogEnd]
    unfold Broker.offsetLogEnd
    rw [partDirs_eq hdir]
    simp [TopicManager.setTopic, TopicManager.partDirs]

theorem commit_of_accepts {msg : CommitOffsetRequest} (store : OffsetStore) (env : Env)
    (h : b.acceptsCommit msg = true) :
    b.coordinator.commit store b.manager msg.groupId msg.memberId msg.generation
        msg.requestEntries env =
      (if (store.commitTo msg.groupId (itemsOf msg.requestEntries env) b.manager env.systemMs
          env.faults).1.ok then accepted
        else refused ErrorCode.INTERNAL_ERROR (store.commitTo msg.groupId
          (itemsOf msg.requestEntries env) b.manager env.systemMs env.faults).1,
        (store.commitTo msg.groupId (itemsOf msg.requestEntries env) b.manager env.systemMs
          env.faults).2) := by
  simp only [Broker.acceptsCommit, Bool.and_eq_true, Option.isNone_iff_eq_none] at h
  obtain ⟨⟨hchecked, hcaller⟩, hoffsets⟩ := h
  simp only [GroupCoordinator.commit, GroupCoordinator.commitSection, hchecked, hcaller, hoffsets]

/-- **A COMMIT_OFFSET that is answered with an error** leaves every committed
offset as it was if it left nothing in the log. -/
theorem BrokerInv.commit_failed (h : BrokerInv b hists) {req : Frame} {env : Env}
    (htype : req.type = MessageType.COMMIT_OFFSET)
    (hroom : ∀ name i, (hists name i).records.length + (Event.request req env).count < 2 ^ 64)
    (herr : (MessageHandler.handleRequest b req env).1.type = MessageType.MSG_ERROR) :
    CommitFailed b (MessageHandler.handleRequest b req env).2 hists
      (b.CommitLogsNothing req env) := by
  have hsame : b.CommitLogsNothing req env → CommitFailed b b hists (b.CommitLogsNothing req env) :=
    fun hnothing => ⟨rfl, iff_of_true (fun _ => rfl) hnothing,
      fun _ => h.storage.dataInv (.of_total hroom)⟩
  have hproduce : req.type ≠ MessageType.PRODUCE := by
    rw [htype]
    decide
  rw [handleRequest_commit h.coordinated htype] at herr ⊢
  unfold MessageHandler.handleCommitOffset at herr ⊢
  cases hdecode : decodeBody CommitOffsetRequest.decode req.body with
  | none => exact hsame (.inl hdecode)
  | some msg =>
    simp only [Event.count, if_neg hproduce, if_pos htype, hdecode] at hroom
    have hlengths := CommitOffsetRequest.lengths_of_decode hdecode
    simp only [hdecode] at herr
    have hentries : (msg.entries.map fun e => (⟨e.topic, e.partition, e.offset⟩ :
        OffsetCommitRequestEntry)) = msg.requestEntries := rfl
    rw [hentries] at herr
    simp only [hentries]
    by_cases haccepts : b.acceptsCommit msg = true
    swap
    · rcases commit_cases b.coordinator b.store b.manager msg.groupId msg.memberId
        msg.generation msg.requestEntries env with ⟨res, heq, hne⟩ |
          ⟨hchecked, hcaller, hoffsets, -⟩
      · simp only [heq, if_pos hne]
        exact hsame (.inr ⟨msg, hdecode, .inl (Bool.eq_false_iff.mpr haccepts)⟩)
      · rw [Broker.acceptsCommit, hchecked, hcaller, hoffsets] at haccepts
        exact absurd rfl haccepts
    · have heq := commit_of_accepts b.store env haccepts
      have hnothing : b.CommitLogsNothing req env ↔
          b.BatchWritesNothing msg.groupId (itemsOf msg.requestEntries env) env.faults := by
        unfold Broker.CommitLogsNothing
        simp [hdecode, haccepts]
      have hlen : (itemsOf msg.requestEntries env).length = msg.entries.length := by
        simp [itemsOf, CommitOffsetRequest.requestEntries]
      have hitems : ∀ item ∈ itemsOf msg.requestEntries env, item.topic.length < 65536 := by
        intro item hitem
        obtain ⟨entry, hentry, rfl⟩ := List.mem_map.mp hitem
        obtain ⟨wire, hwire, rfl⟩ := List.mem_map.mp hentry
        exact hlengths.2 wire hwire
      have hfailed := @BrokerInv.commitTo_failed b hists h msg.groupId hlengths.1
        (itemsOf msg.requestEntries env) hitems env.systemMs env.faults
        (by rw [hlen]; exact hroom)
      generalize b.store.commitTo msg.groupId (itemsOf msg.requestEntries env)
        b.manager env.systemMs env.faults = res at heq hfailed
      obtain ⟨st, store, manager⟩ := res
      simp only [heq] at herr ⊢
      cases hok : st.ok with
      | true =>
        -- this one was answered with COMMIT_OK
        have hcode : ¬accepted.errorCode ≠ 0 := by decide
        have htypes : MessageType.COMMIT_OK ≠ MessageType.MSG_ERROR := by decide
        simp only [hok, if_true, if_neg hcode] at herr
        exact absurd herr htypes
      | false =>
        have hcode : (refused ErrorCode.INTERNAL_ERROR st).errorCode ≠ 0 := refused_ne (by decide)
        simp only [Bool.false_eq_true, if_false, if_pos hcode]
        rw [hnothing]
        exact hfailed hok

end Commit

/-- **Batches are all or nothing** exactly if they stop before their first record
is in the log. A commit that is answered with an error leaves the log as it was
exactly if it is malformed or refused or its batch stops there, and then no answer
to FETCH_OFFSET changes. -/
theorem failed_batch_untouched_iff (config : StorageConfig) (coordinatorConfig : CoordinatorConfig)
    (nowMs : Int64) :
    (∀ st, Reach Started CallStep (fun st c => c.InRange st ∧ c.Each CleanFault st) st →
      ∀ items nowMs fts, (Call.batch items nowMs fts).InRange st →
      (∃ e, (st.part.appendBatch items nowMs fts st.fs).1 = .error e) →
      (Untouched st (call st (.batch items nowMs fts)) ↔
        st.part.writesNothing items fts st.fs = true)) ∧
    ∀ b events b' req env,
      Broker.start config coordinatorConfig ∅ nowMs = .ok b → (∀ e ∈ events, e.NoFaults) →
      Event.total events + (Event.request req env).count < 2 ^ 64 → b.run events = .ok b' →
      req.type = MessageType.COMMIT_OFFSET →
      (handleRequest b' req env).1.type = MessageType.MSG_ERROR →
      ((∀ q, (handleRequest b' req env).2.offsetLogEnd q = b'.offsetLogEnd q) ↔
        b'.CommitLogsNothing req env) ∧
      (b'.CommitLogsNothing req env → OffsetsUntouched b' (handleRequest b' req env).2) := by
  constructor
  · intro st hreach items nowMs fts hrange herr
    obtain ⟨log, hlogged⟩ := reach_exists_logged hreach
    exact hlogged.untouched_iff hrange herr
  · intro b events b' req env hstart hfaults hroom hrun htype herr
    have hinv := ((managerInv_empty config).dataInv (by intro name i; simp)).brokerInv
      (by intro name i; simp) rfl hstart
    obtain ⟨hists, hinv', hroom', -⟩ := hinv.run_ok events hfaults (by simpa using hroom) hrun
    obtain ⟨hstore, hlogEnd, hdata⟩ := hinv'.commit_failed htype hroom' herr
    refine ⟨hlogEnd, fun hnothing => ?_⟩
    exact hinv'.offsetsUntouched (.of_total hroom') hstore (hdata hnothing)

/-- A batch and a commit whose first record cannot be written. -/
theorem failed_batch_untouched_first :
    Untouched (call (RunState.init (Partition.new 0 [] {})) (.append [7] [8] 4 {}))
      (call (call (RunState.init (Partition.new 0 [] {})) (.append [7] [8] 4 {}))
        (.batch [([1], [2]), ([3], [4])] 5 [{ logWrite := some 3 }])) ∧
    ∃ b b', Broker.start {} {} ∅ 0 = .ok b ∧ b.run [.request createRequest {}] = .ok b' ∧
      OffsetsUntouched b' (handleRequest b' (standaloneCommit (ascii "g"))
        { faults := [{ logWrite := some 0 }] }).2 := by
  constructor
  · refine ((failed_batch_untouched_iff {} {} 0).1 _ ((Reach.init ⟨0, [], {}, rfl⟩).step
      (a := .append [7] [8] 4 {}) ⟨⟨by decide, by decide +kernel⟩, fun _ => ?_⟩ rfl) _ _ _ ?_
        ?_).mpr ?_
    · exact ⟨rfl, fun k hk => (nomatch hk), by decide +kernel⟩
    · exact ⟨by decide, by decide +kernel⟩
    · exact ⟨.ioError (ascii "Failed to write record to log file"), by decide +kernel⟩
    · decide +kernel
  · have herr : ((Broker.start {} {} ∅ 0).toOption.map fun b =>
        (handleRequest (handleRequest b createRequest {}).2
          (standaloneCommit (ascii "g")) { faults := [{ logWrite := some 0 }] }).1.type) =
        some MessageType.MSG_ERROR := by decide +kernel
    cases hstart : Broker.start {} {} ∅ 0 with
    | error st =>
      rw [hstart] at herr
      cases herr
    | ok b =>
      rw [hstart] at herr
      refine ⟨b, _, rfl, rfl, (failed_batch_untouched_iff {} {} 0).2 b [.request createRequest {}] _
        (standaloneCommit (ascii "g")) { faults := [{ logWrite := some 0 }] } hstart
        (by simp [Event.NoFaults]) (by decide) rfl rfl (Option.some.inj herr) |>.2
          (.inr ⟨_, decode_commit_named, .inr ?_⟩)⟩
      intro t p _ _
      have hshort : Faults.logShort { logWrite := some 0 } (Partition.recordSize
          (makeKey (ascii "g") (ascii "t") 0) (encodeValue 0 (Int64.ofInt (toMillis 0)))) =
            true := by
        decide +kernel
      rw [Partition.writesNothing, Bool.or_eq_true]
      exact Or.inr (by simp [batchOf, itemsOf, CommitOffsetRequest.requestEntries,
        Partition.leavesUnwritten, hshort])

/-- The second record of the batch cannot be written: the first one stays. A
commit of two offsets that fails in this way has changed the first of them after
a restart. -/
theorem half_batch_stays :
    (∃ st : RunState, st = call (RunState.init (Partition.new 0 [] {}))
        (.batch [([1], [2]), ([3], [4])] 5 [{}, { logWrite := some 0 }]) ∧
      ((Partition.new 0 [] {}).appendBatch [([1], [2]), ([3], [4])] 5 [{}, { logWrite := some 0 }]
        (Fs.start ∅)).1 = .error (.ioError (ascii "Failed to write record to log file")) ∧
      st.part.nextOffset = 1 ∧ (st.part.read st.fs 0 10 1000).records = [⟨0, 5, [1], [2]⟩]) ∧
    ∃ res, res = OffsetStore.commit ⟨true, ∅⟩ (ascii "g")
      [⟨ascii "t", 0, 7, 0⟩, ⟨ascii "t", 1, 8, 0⟩]
        (Partition.new 0 [] {}) 5 [{}, { logWrite := some 0 }] (Fs.start ∅) ∧
      res.1.ok = false ∧ res.2.1.get (ascii "g") (ascii "t") 0 = -1 ∧
      ∃ back, back = (Partition.new 0 [] {}).openAndRecover (Fs.start res.2.2.2.dir) ∧
        back.1 = .OK ∧
        OffsetStore.get ⟨true, (loadCache back.2.1 back.2.2).2⟩ (ascii "g") (ascii "t") 0 = 7 := by
  refine ⟨⟨_, rfl, ?_, ?_, ?_⟩, _, rfl, ?_, ?_, _, rfl, ?_, ?_⟩
  · decide +kernel
  · decide +kernel
  · decide +kernel
  · decide +kernel
  · decide +kernel
  · decide +kernel
  · decide +kernel

end StreamForge
