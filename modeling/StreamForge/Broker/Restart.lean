import StreamForge.Broker.BrokerInvariant
import StreamForge.Broker.GroupCalls

/-!
# Restarting the broker

Whether the next start succeeds is decided by the log of committed offsets:
`OffsetStore::open_and_recover` gives up at the first key it cannot parse. A
member of a group commits under a group id that `join` has validated. A
standalone commit is let through with any group id, and one that is empty or
has the separator in it writes a key that no later start accepts.
-/

namespace StreamForge

open OffsetStore MessageHandler TopicManager

structure StartsCleanly (dataDir : DataDir) : Prop where
  topics : ∀ config, (openAndRecoverAll config dataDir).1 = .OK
  offsets : ∀ config nowMs, (OffsetStore.openAndRecover
    (openAndRecoverAll config dataDir).2 nowMs).1 = .OK

def Broker.KeysReadBack (b : Broker) : Event → Prop
  | .request req env => req.type = MessageType.COMMIT_OFFSET →
      (handleRequest b req env).1.type = MessageType.COMMIT_OK →
      ∀ msg, decodeBody CommitOffsetRequest.decode req.body = some msg →
      ∀ entry ∈ msg.entries, parseKey (makeKey msg.groupId entry.topic entry.partition) =
        some (msg.groupId, entry.topic, entry.partition.toNat)
  | _ => True

/-- A commit outside of any group, which the coordinator lets through without
looking at the group id. -/
def Broker.Poisons (b : Broker) : Event → Prop
  | .request req _ => req.type = MessageType.COMMIT_OFFSET ∧
      ∃ msg, decodeBody CommitOffsetRequest.decode req.body = some msg ∧
        GroupCoordinator.isStandalone msg.memberId msg.generation = true ∧ msg.entries ≠ [] ∧
        GroupCoordinator.checkEntries b.manager msg.requestEntries = none ∧
        GroupCoordinator.checkOffsets b.manager msg.requestEntries = none ∧
        (msg.groupId = [] ∨ pipe ∈ msg.groupId)
  | _ => False

/-! ## Names and group ids -/

/-- What makes a group id survive the replay. -/
def Separable (name : Bytes) : Prop := name ≠ [] ∧ pipe ∉ name

theorem not_separable {name : Bytes} : ¬Separable name ↔ name = [] ∨ pipe ∈ name := by
  unfold Separable
  tauto

theorem separable_of_topicName {name : Bytes} (h : validateTopicName name = none) :
    Separable name := by
  unfold validateTopicName at h
  split at h
  · cases h
  · rename_i hempty
    split at h
    · cases h
    · split at h
      · cases h
      · rename_i hchars
        refine ⟨by simpa using hempty, fun hpipe => ?_⟩
        have := List.find?_eq_none.mp hchars pipe hpipe
        exact absurd this (by decide)

theorem separable_of_groupId {groupId : Bytes}
    (h : GroupCoordinator.validateGroupId groupId = true) : Separable groupId := by
  simp only [GroupCoordinator.validateGroupId, Bool.and_eq_true, Bool.not_eq_true',
    List.all_eq_true] at h
  obtain ⟨⟨⟨⟨⟨hempty, -⟩, -⟩, -⟩, -⟩, hchars⟩ := h
  refine ⟨by simpa using hempty, fun hpipe => ?_⟩
  exact absurd (hchars pipe hpipe) (by decide)

theorem loadable_iff {groupId topic : Bytes} (htopic : Separable topic) (partition : UInt16)
    (offset : UInt64) (timestampMs now : Int64) (value : UInt64) :
    Loadable ⟨offset, now, makeKey groupId topic partition, encodeValue value timestampMs⟩ ↔
      Separable groupId := by
  unfold Loadable
  constructor
  · rintro ⟨hkey, -⟩
    by_contra hbad
    rw [parseKey_makeKey_none (not_separable.mp hbad)] at hkey
    cases hkey
  · intro hgroup
    refine ⟨?_, length_encodeValue _ _⟩
    rw [parseKey_makeKey hgroup.1 hgroup.2 htopic.1 htopic.2]
    rfl

/-! ## Accepted commits -/

section Accepted

open GroupCoordinator

variable {mgr : TopicManager}

theorem getTopic_of_checkEntries {entries : List OffsetCommitRequestEntry}
    (h : checkEntries mgr entries = none) :
    ∀ entry ∈ entries, (mgr.getTopic entry.topic).isSome = true := by
  intro entry hentry
  obtain ⟨t, p, ht, -⟩ := partition_of_checkEntries h entry hentry
  rw [ht]
  rfl

end Accepted

section Loads

variable {b : Broker} {hists : Histories}

variable {req : Frame} {env : Env} {msg : CommitOffsetRequest}

theorem acceptsCommit_of_ok (hcoord : b.hasCoordinator = true)
    (htype : req.type = MessageType.COMMIT_OFFSET)
    (hdecode : decodeBody CommitOffsetRequest.decode req.body = some msg)
    (hok : (handleRequest b req env).1.type = MessageType.COMMIT_OK) :
    b.acceptsCommit msg = true := by
  rw [handleRequest_commit hcoord htype] at hok
  unfold handleCommitOffset at hok
  rw [hdecode] at hok
  simp only at hok
  have hcode : (b.coordinator.commit b.store b.manager msg.groupId msg.memberId msg.generation
      msg.requestEntries env).1.errorCode = 0 := by
    by_contra hne
    unfold CommitOffsetRequest.requestEntries at hne
    rw [if_pos hne] at hok
    have herror : MessageType.MSG_ERROR ≠ MessageType.COMMIT_OK := by decide
    exact herror hok
  rcases commit_cases b.coordinator b.store b.manager msg.groupId msg.memberId
    msg.generation msg.requestEntries env with ⟨res, heq, hne⟩ | ⟨hentries, hcaller, hoffsets, -⟩
  · rw [heq] at hcode
    exact absurd hcode hne
  · rw [Broker.acceptsCommit, hentries, hcaller, hoffsets]
    rfl

/-- The group id of an accepted commit, unless the commit is a poisonous one. -/
theorem BrokerInv.separable_of_accepted (h : BrokerInv b hists)
    (htype : req.type = MessageType.COMMIT_OFFSET)
    (hdecode : decodeBody CommitOffsetRequest.decode req.body = some msg)
    (haccept : b.acceptsCommit msg = true) (hne : msg.entries ≠ []) :
    Separable msg.groupId ↔ ¬b.Poisons (.request req env) := by
  simp only [Broker.acceptsCommit, Bool.and_eq_true, Option.isNone_iff_eq_none] at haccept
  obtain ⟨⟨hentries, hcaller⟩, hoffsets⟩ := haccept
  constructor
  · rintro hsep ⟨-, msg', hdecode', -, -, -, -, hbad⟩
    cases hdecode.symm.trans hdecode'
    exact not_separable.mpr hbad hsep
  · intro hclean
    by_cases hstandalone : GroupCoordinator.isStandalone msg.memberId msg.generation = true
    · by_contra hbad
      exact hclean ⟨htype, msg, hdecode, hstandalone, hne, hentries, hoffsets,
        not_separable.mp hbad⟩
    · -- a member commits for a group that is registered
      cases hgroup : b.coordinator.groups.lookup msg.groupId with
      | none =>
        rw [hgroup] at hcaller
        unfold GroupCoordinator.checkCaller at hcaller
        rw [if_neg hstandalone] at hcaller
        cases hcaller
      | some g => exact separable_of_groupId (h.groups.of_lookup hgroup)

theorem BrokerInv.acceptsCommit_of_poisons (h : BrokerInv b hists)
    (hpoison : b.Poisons (.request req env)) :
    ∃ msg, decodeBody CommitOffsetRequest.decode req.body = some msg ∧
      b.acceptsCommit msg = true ∧ msg.entries ≠ [] := by
  obtain ⟨-, msg, hdecode, hstandalone, hne, hentries, hoffsets, hbad⟩ := hpoison
  refine ⟨msg, hdecode, ?_, hne⟩
  have hcaller : GroupCoordinator.checkCaller (b.coordinator.groups.lookup msg.groupId) msg.groupId
      msg.memberId msg.generation msg.requestEntries = none := by
    unfold GroupCoordinator.checkCaller
    rw [if_pos hstandalone]
    cases hgroup : b.coordinator.groups.lookup msg.groupId with
    | none => rfl
    | some g =>
      exact absurd (separable_of_groupId (h.groups.of_lookup hgroup)) (not_separable.mpr hbad)
  simp [Broker.acceptsCommit, hentries, hcaller, hoffsets]

theorem BrokerInv.separable_topics (h : BrokerInv b hists) (haccept : b.acceptsCommit msg = true) :
    ∀ entry ∈ msg.entries, Separable entry.topic := by
  intro entry hentry
  simp only [Broker.acceptsCommit, Bool.and_eq_true, Option.isNone_iff_eq_none] at haccept
  have hknown := getTopic_of_checkEntries haccept.1.1 ⟨entry.topic, entry.partition, entry.offset⟩
    (List.mem_map.mpr ⟨entry, hentry, rfl⟩)
  obtain ⟨t, ht⟩ := Option.isSome_iff_exists.mp hknown
  obtain ⟨dir, -, hinv⟩ := h.storage.topic ht
  exact separable_of_topicName hinv.valid

theorem loadable_assign (next : UInt64) (ts : Int64) (batch : List (Bytes × Bytes)) :
    (∀ r ∈ assign next ts batch, Loadable r) ↔ ∀ kv ∈ batch, Loadable ⟨0, 0, kv.1, kv.2⟩ := by
  induction batch generalizing next with
  | nil => simp [assign]
  | cons kv rest ih =>
    simp only [assign, List.forall_mem_cons, ih]
    exact Iff.rfl

/-- **What an event adds to the log can be loaded again**, exactly if it is not
poisonous. -/
theorem BrokerInv.loadable_committed (h : BrokerInv b hists) (e : Event) (next : UInt64)
    (ts : Int64) : (∀ r ∈ assign next ts (b.committed e), Loadable r) ↔ ¬b.Poisons e := by
  rw [loadable_assign]
  cases e with
  | request req env =>
    by_cases htype : req.type = MessageType.COMMIT_OFFSET
    · simp only [Broker.committed, if_pos htype]
      cases hdecode : decodeBody CommitOffsetRequest.decode req.body with
      | none =>
        refine iff_of_true (by simp) ?_
        rintro ⟨-, msg, hsome, -⟩
        cases hdecode.symm.trans hsome
      | some msg =>
        simp only
        by_cases haccept : b.acceptsCommit msg = true ∧ msg.entries ≠ []
        · obtain ⟨haccept, hne⟩ := haccept
          have htopics := h.separable_topics haccept
          rw [if_pos haccept, ← h.separable_of_accepted htype hdecode haccept hne]
          constructor
          · intro hall
            obtain ⟨entry, rest, hcons⟩ := List.exists_cons_of_ne_nil hne
            have hmem : entry ∈ msg.entries := by simp [hcons]
            have hfirst := hall _ (List.mem_map.mpr ⟨_, List.mem_map.mpr ⟨_, List.mem_map.mpr
              ⟨entry, hmem, rfl⟩, rfl⟩, rfl⟩)
            exact (loadable_iff (htopics entry hmem) entry.partition 0 _ 0 _).mp hfirst
          · intro hsep kv hkv
            obtain ⟨item, hitem, rfl⟩ := List.mem_map.mp hkv
            obtain ⟨request, hrequest, rfl⟩ := List.mem_map.mp hitem
            obtain ⟨entry, hentry, rfl⟩ := List.mem_map.mp hrequest
            exact (loadable_iff (htopics entry hentry) _ 0 _ 0 _).mpr hsep
        · refine iff_of_true ?_ ?_
          · split
            · rename_i haccepted
              have hnil : msg.entries = [] := by
                by_contra hne
                exact haccept ⟨haccepted, hne⟩
              simp [batchOf, GroupCoordinator.itemsOf, CommitOffsetRequest.requestEntries, hnil]
            · simp
          · intro hpoison
            obtain ⟨msg', hdecode', haccepted, hne⟩ := h.acceptsCommit_of_poisons hpoison
            cases hdecode.symm.trans hdecode'
            exact haccept ⟨haccepted, hne⟩
    · refine iff_of_true (by simp [Broker.committed, htype]) ?_
      rintro ⟨hcommit, -⟩
      exact htype hcommit
  | retention clock => exact iff_of_true (by simp [Broker.committed]) id
  | expire env => exact iff_of_true (by simp [Broker.committed]) id
  | restart config coordinatorConfig nowMs => exact iff_of_true (by simp [Broker.committed]) id

theorem BrokerInv.keysReadBack (h : BrokerInv b hists) {e : Event} (hclean : ¬b.Poisons e) :
    b.KeysReadBack e := by
  cases e with
  | request req env =>
    intro htype hok msg hdecode entry hentry
    have haccept := acceptsCommit_of_ok h.coordinated htype hdecode hok
    have hne : msg.entries ≠ [] := List.ne_nil_of_mem hentry
    have hsep := (h.separable_of_accepted htype hdecode haccept hne).mpr hclean
    have htopic := h.separable_topics haccept entry hentry
    exact parseKey_makeKey hsep.1 hsep.2 htopic.1 htopic.2 _
  | retention clock => trivial
  | expire env => trivial
  | restart config coordinatorConfig nowMs => trivial

end Loads

/-! ## The next start -/

def Event.total (events : List Event) : ℕ := (events.map Event.count).sum

section Run

variable {b : Broker} {hists : Histories}

theorem Histories.HasRoom.of_total {n : ℕ}
    (h : ∀ name i, (hists name i).records.length + n < 2 ^ 64) : hists.HasRoom :=
  fun name i => lt_of_le_of_lt (Nat.le_add_right _ n) (h name i)

theorem Grows.room {hists' : Histories} {n m : ℕ} {batch : List (Bytes × Bytes)}
    (h : Grows hists hists' n batch)
    (hroom : ∀ name i, (hists name i).records.length + (n + m) < 2 ^ 64) :
    ∀ name i, (hists' name i).records.length + m < 2 ^ 64 := by
  intro name i
  have hle := h.length_le name i
  have hlt := hroom name i
  omega

theorem BrokerInv.startsCleanly (h : BrokerInv b hists) (hroom : hists.HasRoom)
    (hall : ∀ r ∈ (hists internalOffsetsTopic 0).records, Loadable r) :
    StartsCleanly b.manager.dataDir := by
  constructor
  · intro config
    obtain ⟨mgr, heq, -⟩ := h.storage.openAndRecoverAll hroom config
    rw [heq]
  · intro config nowMs
    obtain ⟨mgr, heq, hinv⟩ := h.storage.openAndRecoverAll hroom config
    obtain ⟨st, cache, mgr', hopen, -, -, hok, -⟩ := openAndRecover_offsets hinv hroom h.kept nowMs
    rw [heq, hopen]
    exact (hok hall).1

theorem BrokerInv.not_starts (h : BrokerInv b hists) (hroom : hists.HasRoom)
    (hbad : ∃ r ∈ (hists internalOffsetsTopic 0).records, ¬Loadable r) (config : StorageConfig)
    (nowMs : Int64) :
    ∃ mgr st store mgr', openAndRecoverAll config b.manager.dataDir = (.OK, mgr) ∧
      OffsetStore.openAndRecover mgr nowMs = (st, store, mgr') ∧ st.code = .Corrupt := by
  obtain ⟨mgr, heq, hinv⟩ := h.storage.openAndRecoverAll hroom config
  obtain ⟨st, cache, mgr', hopen, -, -, -, hcorrupt⟩ :=
    openAndRecover_offsets hinv hroom h.kept nowMs
  exact ⟨mgr, st, _, mgr', heq, hopen, hcorrupt hbad⟩

theorem BrokerInv.not_startsCleanly (h : BrokerInv b hists) (hroom : hists.HasRoom)
    (hbad : ∃ r ∈ (hists internalOffsetsTopic 0).records, ¬Loadable r) :
    ¬StartsCleanly b.manager.dataDir := by
  intro hclean
  obtain ⟨mgr, st, store, mgr', htopics, hopen, hcode⟩ := h.not_starts hroom hbad {} 0
  have hok := hclean.offsets {} 0
  rw [htopics, hopen] at hok
  subst hok
  cases hcode

/-- **A run that gets to its end** has kept the invariant. -/
theorem BrokerInv.run_ok (events : List Event) :
    ∀ {b : Broker} {hists : Histories}, BrokerInv b hists → (∀ e ∈ events, e.NoFaults) →
    ∀ {n : ℕ}, (∀ name i, (hists name i).records.length + (Event.total events + n) < 2 ^ 64) →
    ∀ {b'}, b.run events = .ok b' → ∃ hists', BrokerInv b' hists' ∧
      (∀ name i, (hists' name i).records.length + n < 2 ^ 64) ∧
      (hists internalOffsetsTopic 0).records ⊆ (hists' internalOffsetsTopic 0).records := by
  induction events with
  | nil =>
    intro b hists h _ n hroom b' hrun
    cases hrun
    exact ⟨hists, h, by simpa [Event.total] using hroom, List.Subset.refl _⟩
  | cons e rest ih =>
    intro b hists h hfaults n hroom b' hrun
    have htotal : Event.total (e :: rest) = e.count + Event.total rest := by simp [Event.total]
    rw [htotal, Nat.add_assoc] at hroom
    have hrest : ∀ x ∈ rest, x.NoFaults := fun x hx => hfaults x (List.mem_cons_of_mem _ hx)
    by_cases hrestart : ∃ config coordinatorConfig nowMs,
        e = .restart config coordinatorConfig nowMs
    · obtain ⟨config, coordinatorConfig, nowMs, rfl⟩ := hrestart
      cases hstart : Broker.start config coordinatorConfig b.manager.dataDir nowMs with
      | error st =>
        simp only [Broker.run, Broker.step, hstart] at hrun
        cases hrun
      | ok b1 =>
        simp only [Broker.run, Broker.step, hstart] at hrun
        have hall : hists.HasRoom := .of_total hroom
        exact ih ((h.storage.dataInv hall).brokerInv hall h.kept hstart) hrest
          (fun name i => by have := hroom name i; omega) hrun
    · obtain ⟨b1, hstep, hists1, hinv1, hgrows⟩ := h.step (hfaults e (by simp))
        (fun name i => by have := hroom name i; omega)
        (fun config coordinatorConfig nowMs he => hrestart ⟨_, _, _, he⟩)
      simp only [Broker.run, hstep] at hrun
      obtain ⟨hists', hinv', hroom', hkept⟩ := ih hinv1 hrest (hgrows.room hroom) hrun
      obtain ⟨nowMs, hlog⟩ := hgrows.internal
      refine ⟨hists', hinv', hroom', List.Subset.trans ?_ hkept⟩
      rw [hlog]
      exact List.subset_append_left ..

/-- **A record that cannot be loaded stays**, whatever is done afterwards. -/
theorem BrokerInv.poisoned_run (h : BrokerInv b hists) {events : List Event}
    (hfaults : ∀ e ∈ events, e.NoFaults)
    (hroom : ∀ name i, (hists name i).records.length + Event.total events < 2 ^ 64)
    (hbad : ∃ r ∈ (hists internalOffsetsTopic 0).records, ¬Loadable r) {b' : Broker}
    (hrun : b.run events = .ok b') : ¬StartsCleanly b'.manager.dataDir := by
  obtain ⟨hists', hinv', hroom', hkept⟩ := h.run_ok events hfaults (n := 0) hroom hrun
  obtain ⟨r, hr, hload⟩ := hbad
  exact hinv'.not_startsCleanly (.of_total hroom') ⟨r, hkept hr, hload⟩

/-- **The run lemma**: from a log that can be loaded, the next start succeeds
exactly if no event was poisonous. By induction on the events. -/
theorem BrokerInv.run_iff (events : List Event) :
    ∀ {b : Broker} {hists : Histories}, BrokerInv b hists → (∀ e ∈ events, e.NoFaults) →
    (∀ name i, (hists name i).records.length + Event.total events < 2 ^ 64) →
    (∀ r ∈ (hists internalOffsetsTopic 0).records, Loadable r) →
    ((∃ b', b.run events = .ok b' ∧ StartsCleanly b'.manager.dataDir) ∧
      b.Throughout Broker.KeysReadBack events ↔ b.Throughout (fun b e => ¬b.Poisons e) events) := by
  induction events with
  | nil =>
    intro b hists h _ hroom hall
    exact iff_of_true ⟨⟨b, rfl, h.startsCleanly (.of_total hroom) hall⟩, trivial⟩ trivial
  | cons e rest ih =>
    intro b hists h hfaults hroom hall
    have htotal : Event.total (e :: rest) = e.count + Event.total rest := by simp [Event.total]
    rw [htotal] at hroom
    have hrest : ∀ x ∈ rest, x.NoFaults := fun x hx => hfaults x (List.mem_cons_of_mem _ hx)
    by_cases hpoison : b.Poisons e
    · -- the poisoned record makes every later start fail
      refine iff_of_false ?_ (fun hall => hall.1 hpoison)
      rintro ⟨⟨b', hrun, hclean⟩, -⟩
      obtain ⟨b1, hstep, hists1, hinv1, hgrows⟩ := h.step (hfaults e (by simp))
        (fun name i => by have := hroom name i; omega)
        (fun config coordinatorConfig nowMs he => by rw [he] at hpoison; exact hpoison)
      simp only [Broker.run, hstep] at hrun
      obtain ⟨nowMs, hlog⟩ := hgrows.internal
      have hnew := (h.loadable_committed e
        (UInt64.ofNat (hists internalOffsetsTopic 0).records.length) nowMs).not.mpr
        (not_not.mpr hpoison)
      simp only [not_forall] at hnew
      obtain ⟨r, hr, hload⟩ := hnew
      refine hinv1.poisoned_run hrest (hgrows.room hroom) ⟨r, ?_, hload⟩ hrun hclean
      rw [hlog]
      exact List.mem_append_right _ hr
    · have hnext : ∃ b1 hists1, b.step e = .ok b1 ∧ BrokerInv b1 hists1 ∧
          (∀ name i, (hists1 name i).records.length + Event.total rest < 2 ^ 64) ∧
          ∀ r ∈ (hists1 internalOffsetsTopic 0).records, Loadable r := by
        by_cases hrestart : ∃ config coordinatorConfig nowMs,
            e = .restart config coordinatorConfig nowMs
        · obtain ⟨config, coordinatorConfig, nowMs, rfl⟩ := hrestart
          obtain ⟨b1, hstart, hinv1⟩ := start_spec h.storage (.of_total hroom) h.kept hall config
            coordinatorConfig nowMs
          exact ⟨b1, hists, hstart, hinv1, fun name i => by have := hroom name i; omega, hall⟩
        · obtain ⟨b1, hstep, hists1, hinv1, hgrows⟩ := h.step (hfaults e (by simp))
            (fun name i => by have := hroom name i; omega)
            (fun config coordinatorConfig nowMs he => hrestart ⟨_, _, _, he⟩)
          obtain ⟨nowMs, hlog⟩ := hgrows.internal
          refine ⟨b1, hists1, hstep, hinv1, hgrows.room hroom, ?_⟩
          rw [hlog]
          intro r hr
          rcases List.mem_append.mp hr with hr | hr
          · exact hall r hr
          · exact (h.loadable_committed e _ nowMs).mpr hpoison r hr
      obtain ⟨b1, hists1, hstep, hinv1, hroom1, hall1⟩ := hnext
      have hkeys := h.keysReadBack hpoison
      have hrun := ih hinv1 hrest hroom1 hall1
      simp only [Broker.run, Broker.Throughout, hstep, hkeys, hpoison, not_false_eq_true,
        true_and, Except.ok.injEq, forall_eq']
      exact hrun

end Run

/-! ## One commit -/

def createRequest : Frame :=
  makeFrame MessageType.CREATE_TOPIC 1 (BodyWriter.writeString (ascii "t") ++ BodyWriter.writeU16 1)

/-- A standalone COMMIT_OFFSET of offset 0 for partition 0 of `t`. -/
def standaloneCommit (groupId : Bytes) : Frame :=
  makeFrame MessageType.COMMIT_OFFSET 2 (BodyWriter.writeString groupId ++
    (BodyWriter.writeString [] ++ (BodyWriter.writeU32 0xFFFFFFFF ++ (BodyWriter.writeU16 1 ++
      (BodyWriter.writeString (ascii "t") ++ (BodyWriter.writeU16 0 ++ BodyWriter.writeU64 0))))))

theorem decode_createRequest :
    decodeBody CreateTopicRequest.decode createRequest.body = some ⟨ascii "t", 1, 0, 0, false⟩ := by
  rfl

theorem decode_commit_empty :
    decodeBody CommitOffsetRequest.decode (standaloneCommit []).body =
      some ⟨[], [], 0xFFFFFFFF, 1, [⟨ascii "t", 0, 0⟩]⟩ := by
  rfl

theorem decode_commit_named :
    decodeBody CommitOffsetRequest.decode (standaloneCommit (ascii "g")).body =
      some ⟨ascii "g", [], 0xFFFFFFFF, 1, [⟨ascii "t", 0, 0⟩]⟩ := by
  rfl

theorem BrokerInv.created {b : Broker} {hists : Histories} (h : BrokerInv b hists) (env : Env) :
    ∃ t, (MessageHandler.handleRequest b createRequest env).2.manager.getTopic (ascii "t") =
      some t := by
  have hhandler : MessageHandler.handleRequest b createRequest env =
      MessageHandler.handleCreateTopic b createRequest env := rfl
  have hvalid : validateTopicName (ascii "t") = none := by decide
  have hreserved : isReserved (ascii "t") = false := by decide
  have hcount : ¬(1 : UInt16) = 0 := by decide
  rw [hhandler]
  unfold MessageHandler.handleCreateTopic
  rw [decode_createRequest]
  simp only [if_neg hcount, hreserved, Bool.false_eq_true, if_false, hvalid]
  obtain ⟨t, ht⟩ := h.storage.exists_created hvalid (by decide : 1 ≤ (1 : UInt16).toNat) (by decide)
    0 0 env.systemMs
  revert ht
  rcases b.manager.createTopic (ascii "t") (1 : UInt16).toNat 0 0 env.systemMs with ⟨st | t', mgr⟩
  · exact fun ht => ⟨t, ht⟩
  · exact fun ht => ⟨t, ht⟩

theorem BrokerInv.poisons_commit {b : Broker} {hists : Histories} (h : BrokerInv b hists)
    {t : Topic} (ht : b.manager.getTopic (ascii "t") = some t) (env : Env) :
    b.Poisons (.request (standaloneCommit []) env) := by
  obtain ⟨dir, -, hinv⟩ := h.storage.topic ht
  have hpart : t.getPartition (0 : UInt16).toNat = some (t.partitions.get ⟨0, hinv.pos⟩) :=
    List.getElem?_eq_getElem hinv.pos
  have hreserved : isReserved (ascii "t") = false := by decide
  refine ⟨rfl, _, decode_commit_empty, rfl, by simp, ?_, ?_, Or.inl rfl⟩
  · simp only [CommitOffsetRequest.requestEntries, List.map_cons, List.map_nil,
      GroupCoordinator.checkEntries, hreserved, Bool.false_eq_true, if_false, ht, hpart]
  · simp [CommitOffsetRequest.requestEntries, GroupCoordinator.checkOffsets]

/-- **The next start succeeds**, and every key of an accepted commit is read
back, exactly if no standalone commit in the run named a group id that is empty
or has the separator in it. -/
theorem next_start_ok_iff (config : StorageConfig) (coordinatorConfig : CoordinatorConfig)
    (nowMs : Int64) (events : List Event) (hfaults : ∀ e ∈ events, e.NoFaults)
    (hroom : Event.total events < 2 ^ 64) :
    ∃ b, Broker.start config coordinatorConfig ∅ nowMs = .ok b ∧
      ((∃ b', b.run events = .ok b' ∧ StartsCleanly b'.manager.dataDir) ∧
        b.Throughout Broker.KeysReadBack events ↔
      b.Throughout (fun b e => ¬b.Poisons e) events) := by
  obtain ⟨b, hstart, hinv⟩ := start_spec (managerInv_empty config)
    (by intro name i; simp) rfl (by simp) config coordinatorConfig nowMs
  exact ⟨b, hstart, hinv.run_iff events hfaults (by simpa using hroom) (by simp)⟩

/-- A commit for the group `g`, and a start after it. -/
theorem next_start_ok_after_commit :
    ∃ b b', Broker.start {} {} ∅ 0 = .ok b ∧
      b.run [.request createRequest {}, .request (standaloneCommit (ascii "g")) {}] = .ok b' ∧
      StartsCleanly b'.manager.dataDir := by
  obtain ⟨b, hstart, hiff⟩ := next_start_ok_iff {} {} 0
    [.request createRequest {}, .request (standaloneCommit (ascii "g")) {}]
    (by simp [Event.NoFaults]) (by decide)
  have hclean : b.Throughout (fun b e => ¬b.Poisons e)
      [.request createRequest {}, .request (standaloneCommit (ascii "g")) {}] := by
    refine ⟨?_, fun b1 _ => ⟨?_, fun _ _ => trivial⟩⟩
    · rintro ⟨htype, -⟩
      exact absurd htype (by decide)
    · rintro ⟨-, msg, hdecode, -, -, -, -, hbad⟩
      cases decode_commit_named.symm.trans hdecode
      exact absurd hbad (by decide)
  obtain ⟨⟨b', hrun, hstarts⟩, -⟩ := hiff.mpr hclean
  exact ⟨b, b', hstart, hrun, hstarts⟩

/-- **A commit without a group id** is accepted, and no configuration starts on
what it leaves behind. -/
theorem start_corrupt_after_empty_group :
    ∃ b b', Broker.start {} {} ∅ 0 = .ok b ∧
      b.run [.request createRequest {}, .request (standaloneCommit []) {}] = .ok b' ∧
      ∀ config nowMs, (OffsetStore.openAndRecover
        (openAndRecoverAll config b'.manager.dataDir).2 nowMs).1.code = .Corrupt := by
  obtain ⟨b, hstart, hinv⟩ := start_spec (managerInv_empty {})
    (by intro name i; simp) rfl (by simp) {} {} 0
  have hcreate : (Event.request createRequest {}).count = 0 := rfl
  have hcommit : (Event.request (standaloneCommit []) {}).count = 1 := rfl
  obtain ⟨hists1, hinv1, hgrows1⟩ := @BrokerInv.handleRequest _ _ hinv createRequest {} rfl
    (by intro name i; rw [hcreate]; simp)
  rw [hcreate] at hgrows1
  obtain ⟨t, ht⟩ := hinv.created {}
  have hpoison := hinv1.poisons_commit ht {}
  have hroom1 : ∀ name i, (hists1 name i).records.length + 1 < 2 ^ 64 :=
    hgrows1.room (by intro name i; simp)
  obtain ⟨hists2, hinv2, hgrows2⟩ := @BrokerInv.handleRequest _ _ hinv1 (standaloneCommit []) {} rfl
    (by rw [hcommit]; exact hroom1)
  rw [hcommit] at hgrows2
  obtain ⟨nowMs, hlog⟩ := hgrows2.internal
  have hnew := (hinv1.loadable_committed _
    (UInt64.ofNat (hists1 internalOffsetsTopic 0).records.length) nowMs).not.mpr
    (not_not.mpr hpoison)
  simp only [not_forall] at hnew
  obtain ⟨r, hr, hload⟩ := hnew
  have hbad : ∃ r ∈ (hists2 internalOffsetsTopic 0).records, ¬Loadable r :=
    ⟨r, by rw [hlog]; exact List.mem_append_right _ hr, hload⟩
  refine ⟨b, _, hstart, rfl, fun config nowMs => ?_⟩
  obtain ⟨mgr, st, store, mgr', htopics, hopen, hcode⟩ :=
    hinv2.not_starts (.of_total (hgrows2.room (m := 0) (by simpa using hroom1))) hbad config nowMs
  rw [htopics, hopen]
  exact hcode

end StreamForge
