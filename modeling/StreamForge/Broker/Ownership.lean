import StreamForge.Broker.GroupCoordinator
import StreamForge.Foundation.Dealing
import StreamForge.Foundation.Transition

/-!
# Partition ownership

Each partition of a group's topics belongs to exactly one member. Both
assignors deal out all partitions of the topics they are given, each of them
once (`assign_perm`); the coordinator keeps the assignments of a group equal to
what its assignor makes of the current members and topics.

The topics a group is given are those of the join that found it without
members. The check of that join lets a topic be named twice, and then each of
its partitions is dealt out twice.
-/

namespace StreamForge

open Dealing Transition

namespace Assignor

/-! ## The assignors -/

theorem foldl_push (pushes : List (Bytes × TopicPartition)) (result : Assignments) (id : Bytes) :
    pushes.foldl push result id = result id ++ dealt pushes id := by
  induction pushes generalizing result with
  | nil => simp
  | cons e rest ih =>
    obtain ⟨member, tp⟩ := e
    rw [List.foldl_cons, ih]
    by_cases h : member = id
    · subst h
      rw [dealt_cons_self, push, Function.update_self, List.append_assoc]
      rfl
    · rw [dealt_cons_of_ne h, push, Function.update_of_ne (Ne.symm h)]

theorem runPushes_eq (pushes : List (Bytes × TopicPartition)) :
    runPushes pushes = dealt pushes := by
  funext id
  exact (foldl_push pushes _ id).trans (List.nil_append _)

def everyPartition (topicPartitions : List (Bytes × UInt16)) : List TopicPartition :=
  topicPartitions.flatMap fun (topic, numParts) =>
    (List.range numParts.toNat).map fun p => ⟨topic, UInt16.ofNat p⟩

/-- The blocks of `RangeAssignor` follow each other without gap or overlap. -/
theorem range_blocks {numParts numMembers : ℕ} (hpos : 0 < numMembers) :
    ((List.range numMembers).flatMap fun i =>
      (List.range (numParts / numMembers + if i < numParts % numMembers then 1 else 0)).map
        fun p => i * (numParts / numMembers) + min i (numParts % numMembers) + p) =
      List.range numParts := by
  have hmod := Nat.mod_lt numParts hpos
  have hdiv := Nat.div_add_mod numParts numMembers
  generalize numParts / numMembers = base at hdiv ⊢
  generalize numParts % numMembers = extra at hmod hdiv ⊢
  have hstep : ∀ i, (i + 1) * base + min (i + 1) extra - (i * base + min i extra) =
      base + if i < extra then 1 else 0 := by
    intro i
    rw [Nat.add_mul, Nat.one_mul]
    split <;> omega
  have hmono : ∀ i, i * base + min i extra ≤ (i + 1) * base + min (i + 1) extra := by
    intro i
    rw [Nat.add_mul, Nat.one_mul]
    omega
  have hblocks := flatMap_range_blocks (fun i => i * base + min i extra) (by simp) hmono numMembers
  simp only [hstep] at hblocks
  rw [hblocks, Nat.min_eq_right hmod.le]
  exact congrArg List.range hdiv

variable {members : List Bytes}

theorem rangePushes_snd (hne : members ≠ []) (topicPartitions : List (Bytes × UInt16)) :
    (rangePushes members topicPartitions).map Prod.snd = everyPartition topicPartitions := by
  have hpos : 0 < members.length := List.length_pos_iff.mpr hne
  unfold rangePushes everyPartition
  simp only [List.map_flatMap, List.map_map]
  refine List.flatMap_congr fun tp _ => ?_
  obtain ⟨topic, numParts⟩ := tp
  simp only
  -- which member gets a block does not matter here
  have hindex : ∀ f : ℕ → List TopicPartition,
      (members.zipIdx.flatMap fun e => f e.2) = (List.range members.length).flatMap f := by
    intro f
    rw [← List.flatMap_map, List.zipIdx_map_snd, List.range_eq_range']
  have hblocks := congrArg (List.map fun p => (⟨topic, UInt16.ofNat p⟩ : TopicPartition))
    (@range_blocks numParts.toNat members.length hpos)
  rw [List.map_flatMap] at hblocks
  rw [← hblocks, ← hindex]
  refine List.flatMap_congr fun e _ => ?_
  rw [List.map_map]
  rfl

theorem rangePushes_fst (topicPartitions : List (Bytes × UInt16)) :
    ∀ e ∈ rangePushes members topicPartitions, e.1 ∈ members := by
  intro e he
  obtain ⟨tp, -, he⟩ := List.mem_flatMap.mp he
  obtain ⟨⟨member, i⟩, hmember, he⟩ := List.mem_flatMap.mp he
  obtain ⟨p, -, rfl⟩ := List.mem_map.mp he
  exact List.fst_mem_of_mem_zipIdx hmember

theorem roundRobinPushes_snd (members : List Bytes) (topicPartitions : List (Bytes × UInt16)) :
    ((roundRobinPushes members topicPartitions).map Prod.snd).Perm
      (everyPartition topicPartitions) := by
  unfold roundRobinPushes
  rw [List.map_map]
  have hfst : (Prod.snd ∘ fun (e : TopicPartition × ℕ) =>
      (members.getD (e.2 % members.length) [], e.1)) = Prod.fst := rfl
  rw [hfst, List.zipIdx_map_fst]
  exact List.perm_insertionSort _ _

theorem roundRobinPushes_fst (hne : members ≠ []) (topicPartitions : List (Bytes × UInt16)) :
    ∀ e ∈ roundRobinPushes members topicPartitions, e.1 ∈ members := by
  intro e he
  obtain ⟨⟨tp, i⟩, -, rfl⟩ := List.mem_map.mp he
  have hlt : i % members.length < members.length := Nat.mod_lt _ (List.length_pos_iff.mpr hne)
  simp only
  rw [List.getD_eq_getElem?_getD, List.getElem?_eq_getElem hlt]
  exact List.getElem_mem hlt

/-- **Both assignors deal out every partition once.** -/
theorem assign_perm (strategy : AssignorStrategy) (hne : members ≠ []) (hnodup : members.Nodup)
    (topicPartitions : List (Bytes × UInt16)) :
    (members.flatMap (assign strategy members topicPartitions)).Perm
      (everyPartition topicPartitions) := by
  have hempty : members.isEmpty = false := List.isEmpty_eq_false_iff.mpr hne
  cases strategy with
  | Range =>
    simp only [assign, hempty, Bool.false_eq_true, if_false, runPushes_eq]
    rw [← rangePushes_snd hne]
    exact flatMap_dealt_perm hnodup (rangePushes_fst topicPartitions)
  | RoundRobin =>
    simp only [assign, hempty, Bool.false_eq_true, if_false, runPushes_eq]
    exact (flatMap_dealt_perm hnodup (roundRobinPushes_fst hne topicPartitions)).trans
      (roundRobinPushes_snd members topicPartitions)

variable {topicPartitions : List (Bytes × UInt16)}

theorem mem_everyPartition {tp : TopicPartition} :
    tp ∈ everyPartition topicPartitions ↔
      ∃ numParts, (tp.topic, numParts) ∈ topicPartitions ∧ tp.partition < numParts := by
  unfold everyPartition
  constructor
  · intro h
    obtain ⟨⟨topic, numParts⟩, hmem, h⟩ := List.mem_flatMap.mp h
    obtain ⟨p, hp, rfl⟩ := List.mem_map.mp h
    refine ⟨numParts, hmem, ?_⟩
    rw [List.mem_range] at hp
    rw [UInt16.lt_iff_toNat_lt]
    exact (UInt16.toNat_ofNat_of_lt' (hp.trans numParts.toNat_lt)).trans_lt hp
  · rintro ⟨numParts, hmem, hlt⟩
    refine List.mem_flatMap.mpr ⟨(tp.topic, numParts), hmem, List.mem_map.mpr
      ⟨tp.partition.toNat, ?_, ?_⟩⟩
    · exact List.mem_range.mpr (UInt16.lt_iff_toNat_lt.mp hlt)
    · simp

theorem nodup_everyPartition (h : (topicPartitions.map Prod.fst).Nodup) :
    (everyPartition topicPartitions).Nodup := by
  unfold everyPartition
  rw [List.nodup_flatMap]
  constructor
  · rintro ⟨topic, numParts⟩ -
    refine List.Nodup.map_on ?_ List.nodup_range
    intro p hp q hq heq
    rw [List.mem_range] at hp hq
    have hval := congrArg (fun tp : TopicPartition => tp.partition.toNat) heq
    simp only at hval
    rwa [UInt16.toNat_ofNat_of_lt' (hp.trans numParts.toNat_lt),
      UInt16.toNat_ofNat_of_lt' (hq.trans numParts.toNat_lt)] at hval
  · refine (List.pairwise_map.mp h).imp ?_
    rintro ⟨topic, n⟩ ⟨topic', n'⟩ hne tp htp htp'
    obtain ⟨p, -, rfl⟩ := List.mem_map.mp htp
    obtain ⟨q, -, heq⟩ := List.mem_map.mp htp'
    exact hne (congrArg TopicPartition.topic heq).symm

end Assignor

namespace GroupCoordinator

/-! ## One group -/

variable {mgr : TopicManager} {topics : List Bytes}

theorem mem_topicPartitions {name : Bytes} {numParts : UInt16} :
    (name, numParts) ∈ topicPartitions mgr topics ↔
      name ∈ topics ∧ ∃ t, mgr.getTopic name = some t ∧
        numParts = UInt16.ofNat t.numPartitions := by
  simp only [topicPartitions, List.mem_filterMap, Option.map_eq_some_iff, Prod.mk.injEq]
  constructor
  · rintro ⟨name', hmem, t, ht, rfl, rfl⟩
    exact ⟨hmem, t, ht, rfl⟩
  · rintro ⟨hmem, t, ht, rfl⟩
    exact ⟨name, hmem, t, ht, rfl, rfl⟩

theorem nodup_topicPartitions {mgr : TopicManager} {topics : List Bytes} (h : topics.Nodup) :
    ((topicPartitions mgr topics).map Prod.fst).Nodup := by
  have hfilter : (topicPartitions mgr topics).map Prod.fst =
      topics.filter fun name => (mgr.getTopic name).isSome := by
    unfold topicPartitions
    induction topics with
    | nil => rfl
    | cons name rest ih =>
      have ih := ih (List.nodup_cons.mp h).2
      cases ht : mgr.getTopic name with
      | none => simp [ht, ih]
      | some t => simp [ht, ih]
  rw [hfilter]
  exact h.filter _

/-- **The invariant of a group.** With members, its topics exist and are listed
once, and the assignments are what the assignor makes of them, for some order
of the members. -/
structure GroupInv (mgr : TopicManager) (g : Group) : Prop where
  empty : g.members.entries = [] → g.state = .Empty
  known : g.members.entries ≠ [] → ∀ t ∈ g.subscribedTopics, (mgr.getTopic t).isSome = true
  nodup : g.members.entries ≠ [] → g.subscribedTopics.Nodup
  assigned : ∃ order : List Bytes, order.Perm g.members.keys ∧
    ∀ id m, g.members.lookup id = some m → m.assignment =
      Assignor.assign g.strategy order (topicPartitions mgr g.subscribedTopics) id

def TopicsFit (mgr : TopicManager) : Prop :=
  ∀ name t, mgr.getTopic name = some t → t.numPartitions < 65536

section Group

variable {mgr : TopicManager} {g : Group}

theorem GroupInv.assignedEntries_perm (h : GroupInv mgr g) (hne : g.members.entries ≠ []) :
    (assignedEntries g).Perm
      (Assignor.everyPartition (topicPartitions mgr g.subscribedTopics)) := by
  obtain ⟨order, hperm, hassigned⟩ := h.assigned
  set hand := Assignor.assign g.strategy order (topicPartitions mgr g.subscribedTopics)
  have hkeys : assignedEntries g = g.members.keys.flatMap hand := by
    have hkeys : g.members.keys = g.members.entries.map Sigma.fst := rfl
    rw [hkeys, List.flatMap_map]
    refine List.flatMap_congr fun e he => ?_
    exact hassigned e.1 e.2 (AssocMap.lookup_of_mem he)
  have horder : order ≠ [] := by
    rintro rfl
    have hnil : g.members.entries.map Sigma.fst = [] := hperm.symm.eq_nil
    exact hne (List.map_eq_nil_iff.mp hnil)
  rw [hkeys]
  refine (hperm.symm.flatMap_right hand).trans ?_
  exact Assignor.assign_perm g.strategy horder (hperm.nodup_iff.mpr g.members.keys_nodup) _

/-- **Exclusive and complete ownership** of a group with members: every
partition of its topics is assigned once, and nothing else is. -/
structure Exclusive (mgr : TopicManager) (g : Group) : Prop where
  once : ∀ name ∈ g.subscribedTopics, ∃ t, mgr.getTopic name = some t ∧
    ∀ p < t.numPartitions, (assignedEntries g).count ⟨name, UInt16.ofNat p⟩ = 1
  inRange : ∀ tp ∈ assignedEntries g, ∃ t, mgr.getTopic tp.topic = some t ∧
    tp.partition.toNat < t.numPartitions

theorem GroupInv.exclusive (h : GroupInv mgr g) (hfit : TopicsFit mgr)
    (hne : g.members.entries ≠ []) : Exclusive mgr g := by
  have hperm := h.assignedEntries_perm hne
  have hnodup := Assignor.nodup_everyPartition (@nodup_topicPartitions mgr _ (h.nodup hne))
  constructor
  · intro name hname
    obtain ⟨t, ht⟩ := Option.isSome_iff_exists.mp (h.known hne name hname)
    refine ⟨t, ht, fun p hp => ?_⟩
    have hlt := hfit name t ht
    rw [hperm.count_eq]
    refine List.count_eq_one_of_mem hnodup (Assignor.mem_everyPartition.mpr
      ⟨UInt16.ofNat t.numPartitions, mem_topicPartitions.mpr ⟨hname, t, ht, rfl⟩, ?_⟩)
    rw [UInt16.lt_iff_toNat_lt, UInt16.toNat_ofNat_of_lt' hlt,
      UInt16.toNat_ofNat_of_lt' (hp.trans hlt)]
    exact hp
  · intro tp htp
    obtain ⟨numParts, hmem, hlt⟩ := Assignor.mem_everyPartition.mp (hperm.mem_iff.mp htp)
    obtain ⟨-, t, ht, rfl⟩ := mem_topicPartitions.mp hmem
    refine ⟨t, ht, ?_⟩
    rwa [UInt16.lt_iff_toNat_lt, UInt16.toNat_ofNat_of_lt' (hfit _ t ht)] at hlt

theorem groupInv_empty (hnil : g.members.entries = []) (hstate : g.state = .Empty) :
    GroupInv mgr g := by
  refine ⟨fun _ => hstate, fun hne => absurd hnil hne, fun hne => absurd hnil hne,
    g.members.keys, List.Perm.refl _, ?_⟩
  intro id m hm
  exact absurd hnil (AssocMap.ne_nil_of_lookup hm)

theorem groupInv_rebalance (hknown : ∀ t ∈ g.subscribedTopics, (mgr.getTopic t).isSome = true)
    (hnodup : g.subscribedTopics.Nodup) : GroupInv mgr (rebalanceUnlocked mgr g) := by
  unfold rebalanceUnlocked
  cases hempty : g.members.entries.isEmpty with
  | true =>
    rw [if_pos rfl]
    exact groupInv_empty (List.isEmpty_iff.mp hempty) rfl
  | false =>
    simp only [Bool.false_eq_true, if_false]
    refine ⟨?_, fun _ => hknown, fun _ => hnodup, sortedMembers g, ?_, ?_⟩
    · intro hnil
      have hnil' : g.members.entries = [] := List.map_eq_nil_iff.mp hnil
      rw [hnil'] at hempty
      cases hempty
    · rw [AssocMap.keys_mapValues]
      exact List.perm_insertionSort _ _
    · intro id m hm
      rw [AssocMap.lookup_mapValues, Option.map_eq_some_iff] at hm
      obtain ⟨m', -, rfl⟩ := hm
      rfl

theorem GroupInv.setMember (h : GroupInv mgr g) {id : Bytes} {m m' : MemberMetadata}
    (hm : g.members.lookup id = some m) (hsame : m'.assignment = m.assignment) :
    GroupInv mgr { g with members := g.members.insert id m' } := by
  have hne : g.members.entries ≠ [] := AssocMap.ne_nil_of_lookup hm
  have hid : id ∈ g.members := AList.lookup_isSome.mp (by rw [hm]; rfl)
  have hkeys : (g.members.insert id m').keys.Perm g.members.keys := by
    rw [AList.keys_insert]
    exact (@List.perm_cons_erase Bytes instBEqOfDecidableEq _ id _ (AList.mem_keys.mp hid)).symm
  obtain ⟨order, hperm, hassigned⟩ := h.assigned
  refine ⟨?_, fun _ => h.known hne, fun _ => h.nodup hne, order, hperm.trans hkeys.symm, ?_⟩
  · intro hnil
    rw [AList.entries_insert] at hnil
    cases hnil
  · intro id' x hx
    simp only at hx
    rw [AssocMap.lookup_insert_eq] at hx
    split at hx
    · rename_i heq
      cases hx
      rw [heq, hsame]
      exact hassigned id m hm
    · exact hassigned id' x hx

variable {mgr' : TopicManager} {topics : List Bytes}

theorem topicPartitions_kept
    (hkept : ∀ name t, mgr.getTopic name = some t → ∃ t', mgr'.getTopic name = some t' ∧
      t'.numPartitions = t.numPartitions)
    (hknown : ∀ t ∈ topics, (mgr.getTopic t).isSome = true) :
    topicPartitions mgr' topics = topicPartitions mgr topics := by
  unfold topicPartitions
  refine List.filterMap_congr fun name hname => ?_
  obtain ⟨t, ht⟩ := Option.isSome_iff_exists.mp (hknown name hname)
  obtain ⟨t', ht', hn⟩ := hkept name t ht
  rw [ht, ht', Option.map_some, Option.map_some, hn]

theorem known_kept
    (hkept : ∀ name t, mgr.getTopic name = some t → ∃ t', mgr'.getTopic name = some t' ∧
      t'.numPartitions = t.numPartitions)
    (hknown : ∀ t ∈ topics, (mgr.getTopic t).isSome = true) :
    ∀ t ∈ topics, (mgr'.getTopic t).isSome = true := by
  intro name hname
  obtain ⟨t, ht⟩ := Option.isSome_iff_exists.mp (hknown name hname)
  obtain ⟨t', ht', -⟩ := hkept name t ht
  rw [ht']
  rfl

theorem GroupInv.extends (h : GroupInv mgr g)
    (hkept : ∀ name t, mgr.getTopic name = some t → ∃ t', mgr'.getTopic name = some t' ∧
      t'.numPartitions = t.numPartitions) :
    GroupInv mgr' g := by
  by_cases hnil : g.members.entries = []
  · exact groupInv_empty hnil (h.empty hnil)
  · have hknown := h.known hnil
    refine ⟨h.empty, fun _ => known_kept hkept hknown, h.nodup, ?_⟩
    rw [topicPartitions_kept hkept hknown]
    exact h.assigned

theorem GroupInv.subscribe (h : GroupInv mgr g) {strategy : AssignorStrategy} {g' : Group}
    (hok : subscribe g topics strategy = .ok g')
    (hknown : ∀ t ∈ topics, (mgr.getTopic t).isSome = true) :
    GroupInv mgr g' ∧ (∀ t ∈ g'.subscribedTopics, (mgr.getTopic t).isSome = true) ∧
      ((g.members.entries = [] → topics.Nodup) → g'.subscribedTopics.Nodup) := by
  obtain ⟨hnil, rfl⟩ | ⟨hne, -, -, rfl⟩ := subscribe_cases hok
  · exact ⟨groupInv_empty hnil (h.empty hnil), hknown, fun hnodup => hnodup hnil⟩
  · exact ⟨h, h.known hne, fun _ => h.nodup hne⟩

theorem GroupInv.afterRemoval (h : GroupInv mgr g) (hne : g.members.entries ≠ [])
    (members : AList fun _ : Bytes => MemberMetadata) :
    GroupInv mgr (afterRemoval mgr { g with members }) := by
  unfold GroupCoordinator.afterRemoval
  simp only
  split
  · rename_i hempty
    exact groupInv_empty (List.isEmpty_iff.mp hempty) rfl
  · exact groupInv_rebalance (h.known hne) (h.nodup hne)

theorem GroupInv.expireGroup (h : GroupInv mgr g) (now : ℤ) :
    GroupInv mgr (expireGroup mgr now g).2 := by
  unfold GroupCoordinator.expireGroup
  simp only
  split
  · exact h
  · rename_i hids
    refine h.afterRemoval ?_ _
    intro hnil
    simp [expiredIds, hnil] at hids

end Group

/-! ## Concurrent calls

A call holds no lock between its critical sections, so other calls may come in
between. Only `join` has several sections that matter here: the checks, the
lookup under the registry's lock, and the work under the group's lock.
`expire_members` takes the groups one by one, and heartbeat, leave and commit
change a group or the store in one section. -/

structure JoinCall where
  groupId : Bytes
  memberId : Bytes
  sessionTimeoutMs : UInt32
  topics : List Bytes
  strategy : UInt8

inductive JoinPhase where
  | checked
  | located

structure GroupSystem where
  mgr : TopicManager
  coordinator : GroupCoordinator
  store : OffsetStore
  pending : List (JoinCall × JoinPhase) := []

/-- What other requests may do to the topics: none disappears or changes its
partition count, and new ones fit. -/
structure Extends (mgr mgr' : TopicManager) : Prop where
  kept : ∀ name t, mgr.getTopic name = some t →
    ∃ t', mgr'.getTopic name = some t' ∧ t'.numPartitions = t.numPartitions
  fit : TopicsFit mgr → TopicsFit mgr'

inductive Action where
  | storage
  | joinCheck (call : JoinCall)
  | joinLookup (call : JoinCall)
  | joinGroup (call : JoinCall) (env : Env)
  | heartbeat (groupId memberId : Bytes) (generation : UInt32) (env : Env)
  | leave (groupId memberId : Bytes)
  | expire (groupId : Bytes) (now : ℤ)
  | commit (groupId memberId : Bytes) (generation : UInt32)
      (entries : List OffsetCommitRequestEntry) (env : Env)

inductive Step (s : GroupSystem) : Action → GroupSystem → Prop where
  | storage {mgr : TopicManager} : Extends s.mgr mgr → Step s .storage { s with mgr }
  | joinCheck {call : JoinCall} : s.coordinator.checkJoin s.mgr call.groupId call.sessionTimeoutMs
        call.topics call.strategy = none →
      Step s (.joinCheck call) { s with pending := (call, .checked) :: s.pending }
  | joinLookup {call : JoinCall} {pre post : List (JoinCall × JoinPhase)}
      {coordinator : GroupCoordinator} : s.pending = pre ++ (call, .checked) :: post →
      s.coordinator.joinLookup call.groupId call.topics (strategyOf call.strategy) =
        .ok coordinator →
      Step s (.joinLookup call) { s with coordinator, pending := pre ++ (call, .located) :: post }
  | joinRefused {call : JoinCall} {pre post : List (JoinCall × JoinPhase)} {res : CallResult} :
      s.pending = pre ++ (call, .checked) :: post →
      s.coordinator.joinLookup call.groupId call.topics (strategyOf call.strategy) = .error res →
      Step s (.joinLookup call) { s with pending := pre ++ post }
  | joinGroup {call : JoinCall} {pre post : List (JoinCall × JoinPhase)} (env : Env) :
      s.pending = pre ++ (call, .located) :: post →
      Step s (.joinGroup call env) { s with
        coordinator := (s.coordinator.joinGroup s.mgr call.groupId call.memberId
          call.sessionTimeoutMs call.topics (strategyOf call.strategy) env).2
        pending := pre ++ post }
  | heartbeat (groupId memberId : Bytes) (generation : UInt32) (env : Env) :
      Step s (.heartbeat groupId memberId generation env) { s with
        coordinator := (s.coordinator.heartbeat groupId memberId generation env).2 }
  | leave (groupId memberId : Bytes) : Step s (.leave groupId memberId) { s with
        coordinator := (s.coordinator.leave s.mgr groupId memberId).2 }
  | expire (groupId : Bytes) (now : ℤ) : Step s (.expire groupId now) { s with
        coordinator := (expireLoop s.mgr now [groupId] s.coordinator).2 }
  | commit (groupId memberId : Bytes) (generation : UInt32)
      (entries : List OffsetCommitRequestEntry) (env : Env) :
      Step s (.commit groupId memberId generation entries env) { s with
        store := (s.coordinator.commit s.store s.mgr groupId memberId generation entries env).2.1
        mgr := (s.coordinator.commit s.store s.mgr groupId memberId generation entries env).2.2 }

def Init (s : GroupSystem) : Prop :=
  TopicsFit s.mgr ∧ s.coordinator.groups = ∅ ∧ s.pending = []

def Reachable (P : GroupSystem → Action → Prop) : GroupSystem → Prop :=
  Reach Init Step P

/-- A new member that finds its group without members names no topic twice. -/
def DistinctTopics (s : GroupSystem) : Action → Prop
  | .joinGroup call _ => call.memberId = [] →
      ∀ g, s.coordinator.groups.lookup call.groupId = some g →
      g.members.entries = [] → call.topics.Nodup
  | _ => True

structure SystemInv (s : GroupSystem) : Prop where
  fit : TopicsFit s.mgr
  groups : ∀ id g, s.coordinator.groups.lookup id = some g → GroupInv s.mgr g
  pending : ∀ e ∈ s.pending, ∀ t ∈ e.1.topics, (s.mgr.getTopic t).isSome = true

/-! ## What happens to the topics -/

section Topics

variable {mgr : TopicManager}

theorem Extends.refl (mgr : TopicManager) : Extends mgr mgr :=
  ⟨fun _ t ht => ⟨t, ht, rfl⟩, id⟩

theorem extends_insert {mgr' : TopicManager} {name : Bytes} {t : Topic}
    (heq : mgr'.topics = mgr.topics.insert name t)
    (hkept : ∀ old, mgr.getTopic name = some old → t.numPartitions = old.numPartitions)
    (hfit : TopicsFit mgr → t.numPartitions < 65536) : Extends mgr mgr' := by
  have hget : ∀ other, mgr'.getTopic other =
      if other = name then some t else mgr.getTopic other := by
    intro other
    unfold TopicManager.getTopic
    rw [heq]
    exact AssocMap.lookup_insert_eq _ _ _ _
  constructor
  · intro other x hx
    rw [hget]
    split
    · rename_i hname
      exact ⟨t, rfl, hkept x (hname ▸ hx)⟩
    · exact ⟨x, hx, rfl⟩
  · intro hall other x hx
    rw [hget] at hx
    split at hx
    · cases hx
      exact hfit hall
    · exact hall other x hx

theorem length_openPartitions (ps : List Partition) :
    ∀ (i : ℕ) (dirs : PartDirs), (Topic.openPartitions i ps dirs).2.1.length = ps.length := by
  induction ps with
  | nil => exact fun _ _ => rfl
  | cons p rest ih =>
    intro i dirs
    unfold Topic.openPartitions
    simp only
    split
    · rfl
    · simp [ih]

theorem createTopic_topics (mgr : TopicManager) (name : Bytes) (n : ℕ)
    (retentionMs retentionBytes : UInt64) (nowMs : Int64) :
    (mgr.createTopic name n retentionMs retentionBytes nowMs).2.topics = mgr.topics ∨
    ∃ t, (mgr.createTopic name n retentionMs retentionBytes nowMs).2.topics =
        mgr.topics.insert name t ∧
      t.numPartitions = n ∧ n ≤ 64 ∧ mgr.getTopic name = none ∧
      TopicManager.validateTopicName name = none := by
  unfold TopicManager.createTopic
  split
  · exact Or.inl rfl
  · rename_i hname
    by_cases hn : n < 1 ∨ 64 < n
    · rw [if_pos hn]
      exact Or.inl rfl
    · rw [if_neg hn]
      by_cases hknown : (mgr.topics.lookup name).isSome = true
      · rw [if_pos hknown]
        exact Or.inl rfl
      · rw [if_neg hknown]
        simp only
        generalize (if retentionMs = 0 then mgr.config.defaultRetentionMs else retentionMs) = ms
        generalize (if retentionBytes = 0 ∧ 0 < mgr.config.defaultRetentionBytes then
          mgr.config.defaultRetentionBytes else retentionBytes) = bytes
        split
        · exact Or.inl rfl
        · split
          · exact Or.inl rfl
          · refine Or.inr
              ⟨_, rfl, ?_, by omega, by simpa [TopicManager.getTopic] using hknown, hname⟩
            unfold Topic.openAndRecover Topic.numPartitions
            simp only
            rw [length_openPartitions]
            simp [Topic.new]

theorem extends_createTopic (mgr : TopicManager) (name : Bytes) (n : ℕ)
    (retentionMs retentionBytes : UInt64) (nowMs : Int64) :
    Extends mgr (mgr.createTopic name n retentionMs retentionBytes nowMs).2 := by
  rcases createTopic_topics mgr name n retentionMs retentionBytes nowMs with
    heq | ⟨t, heq, hcount, hle, hnone, -⟩
  · have hget : ∀ other, (mgr.createTopic name n retentionMs retentionBytes nowMs).2.getTopic other
        = mgr.getTopic other := by
      intro other
      unfold TopicManager.getTopic
      rw [heq]
    exact ⟨fun other x hx => ⟨x, (hget other).trans hx, rfl⟩,
      fun hall other x hx => hall other x ((hget other).symm.trans hx)⟩
  · refine extends_insert heq ?_ (fun _ => by omega)
    intro old hold
    cases hnone.symm.trans hold

theorem extends_commitTo (store : OffsetStore) (groupId : Bytes) (items : List OffsetCommitItem)
    (nowMs : Int64) (fts : List Faults) :
    Extends mgr (store.commitTo groupId items mgr nowMs fts).2.2 := by
  unfold OffsetStore.commitTo
  cases ht : mgr.getTopic OffsetStore.internalOffsetsTopic with
  | none => exact Extends.refl mgr
  | some t =>
    simp only
    split
    · exact Extends.refl mgr
    · have hlen : ∀ p, (t.partitions.set 0 p).length = t.numPartitions := by
        simp [Topic.numPartitions]
      refine extends_insert rfl ?_ ?_
      · intro old hold
        cases ht.symm.trans hold
        exact hlen _
      · intro hall
        exact (hlen _).trans_lt (hall _ t ht)

theorem extends_commit (c : GroupCoordinator) (store : OffsetStore) (groupId memberId : Bytes)
    (generation : UInt32) (entries : List OffsetCommitRequestEntry) (env : Env) :
    Extends mgr (c.commit store mgr groupId memberId generation entries env).2.2 := by
  unfold GroupCoordinator.commit
  split
  · exact Extends.refl mgr
  · unfold commitSection
    split
    · exact Extends.refl mgr
    · split
      · exact Extends.refl mgr
      · exact extends_commitTo store _ _ _ _

end Topics

/-! ## Every step keeps the invariant -/

theorem known_of_checkTopics (h : checkTopics mgr topics = none) :
    ∀ t ∈ topics, (mgr.getTopic t).isSome = true := by
  induction topics with
  | nil => simp
  | cons t rest ih =>
    unfold checkTopics at h
    split at h
    · cases h
    · split at h
      · cases h
      · rename_i hsome
        intro x hx
        rcases List.mem_cons.mp hx with rfl | hx
        · rwa [Bool.not_eq_true, Option.isNone_eq_false_iff] at hsome
        · exact ih h x hx

variable {c : GroupCoordinator} {P : GroupSystem → Action → Prop}

theorem known_of_checkJoin {groupId : Bytes} {sessionTimeoutMs : UInt32} {strategy : UInt8}
    (h : c.checkJoin mgr groupId sessionTimeoutMs topics strategy = none) :
    ∀ t ∈ topics, (mgr.getTopic t).isSome = true := by
  unfold checkJoin at h
  split at h
  · cases h
  · split at h
    · cases h
    · split at h
      · cases h
      · split at h
        · cases h
        · exact known_of_checkTopics h

theorem forall_groups_insert {groups : AList fun _ : Bytes => Group}
    (h : ∀ id g, groups.lookup id = some g → GroupInv mgr g) {id : Bytes} {g : Group}
    (hg : GroupInv mgr g) : ∀ id' g', (groups.insert id g).lookup id' = some g' →
      GroupInv mgr g' := by
  intro id' g' hlookup
  rw [AssocMap.lookup_insert_eq] at hlookup
  split at hlookup
  · cases hlookup
    exact hg
  · exact h id' g' hlookup

section Sections

variable {c : GroupCoordinator} {mgr : TopicManager}

variable {groupId : Bytes}

theorem groups_joinGroup (h : ∀ id g, c.groups.lookup id = some g → GroupInv mgr g)
    {memberId : Bytes} (sessionTimeoutMs : UInt32) (strategy : AssignorStrategy) (env : Env)
    (hknown : ∀ t ∈ topics, (mgr.getTopic t).isSome = true)
    (hnodup : memberId = [] → ∀ g, c.groups.lookup groupId = some g → g.members.entries = [] →
      topics.Nodup) :
    ∀ id g, (c.joinGroup mgr groupId memberId sessionTimeoutMs topics strategy env).2.groups.lookup
      id = some g → GroupInv mgr g := by
  have houtcome := joinOutcome c mgr groupId memberId sessionTimeoutMs topics strategy env
  generalize c.joinGroup mgr groupId memberId sessionTimeoutMs topics strategy env = res
    at houtcome ⊢
  cases houtcome with
  | refused _ => exact h
  | subscribed hg hsub _ =>
    exact forall_groups_insert h ((h groupId _ hg).subscribe hsub hknown).1
  | added hnew hg hsub _ _ hg₁ =>
    obtain ⟨-, hknown', hnodup'⟩ := (h groupId _ hg).subscribe hsub hknown
    rw [hg₁]
    exact forall_groups_insert h (groupInv_rebalance hknown' (hnodup' (hnodup hnew _ hg)))
  | refreshed _ hg hm hg₁ =>
    rw [hg₁]
    exact forall_groups_insert h ((h groupId _ hg).setMember hm rfl)

theorem groups_joinLookup (h : ∀ id g, c.groups.lookup id = some g → GroupInv mgr g)
    {strategy : AssignorStrategy} {c' : GroupCoordinator}
    (hok : c.joinLookup groupId topics strategy = .ok c') :
    ∀ id g, c'.groups.lookup id = some g → GroupInv mgr g := by
  obtain rfl | ⟨-, -, rfl⟩ := joinLookup_cases hok
  · exact h
  · exact forall_groups_insert h (groupInv_empty rfl rfl)

theorem groups_heartbeat (h : ∀ id g, c.groups.lookup id = some g → GroupInv mgr g)
    (groupId memberId : Bytes) (generation : UInt32) (env : Env) :
    ∀ id g, (c.heartbeat groupId memberId generation env).2.groups.lookup id = some g →
      GroupInv mgr g := by
  unfold GroupCoordinator.heartbeat
  cases hg : c.groups.lookup groupId with
  | none => exact h
  | some g =>
    simp only
    cases hm : g.members.lookup memberId with
    | none => exact h
    | some m =>
      simp only
      split
      · exact h
      · exact forall_groups_insert h ((h groupId g hg).setMember hm rfl)

theorem groups_leave (h : ∀ id g, c.groups.lookup id = some g → GroupInv mgr g)
    (groupId memberId : Bytes) :
    ∀ id g, (c.leave mgr groupId memberId).2.groups.lookup id = some g → GroupInv mgr g := by
  unfold GroupCoordinator.leave
  cases hg : c.groups.lookup groupId with
  | none => exact h
  | some g =>
    simp only
    split
    · exact h
    · rename_i hm
      refine forall_groups_insert h ((h groupId g hg).afterRemoval ?_ _)
      intro hnil
      have hmembers : g.members = ∅ := AList.ext hnil
      rw [hmembers] at hm
      exact hm rfl

theorem groups_expireLoop (now : ℤ) (ids : List Bytes) :
    ∀ {c : GroupCoordinator}, (∀ id g, c.groups.lookup id = some g → GroupInv mgr g) →
    ∀ id g, (expireLoop mgr now ids c).2.groups.lookup id = some g → GroupInv mgr g := by
  induction ids with
  | nil => exact fun h => h
  | cons id rest ih =>
    intro c h
    unfold GroupCoordinator.expireLoop
    cases hg : c.groups.lookup id with
    | none => exact ih h
    | some g => exact ih (forall_groups_insert h ((h id g hg).expireGroup now))

end Sections

variable {s s' : GroupSystem} {a : Action}

theorem Step.extends (h : Step s a s') : Extends s.mgr s'.mgr := by
  cases h with
  | storage hext => exact hext
  | commit groupId memberId generation entries env =>
    exact extends_commit s.coordinator s.store groupId memberId generation entries env
  | _ => exact Extends.refl _

theorem Step.pending_cases (h : Step s a s') :
    ∀ e ∈ s'.pending, (∃ e' ∈ s.pending, e'.1 = e.1) ∨
      s.coordinator.checkJoin s.mgr e.1.groupId e.1.sessionTimeoutMs e.1.topics
        e.1.strategy = none := by
  intro e he
  cases h with
  | joinCheck hcheck =>
    rcases List.mem_cons.mp he with rfl | he
    · exact Or.inr hcheck
    · exact Or.inl ⟨e, he, rfl⟩
  | @joinLookup call pre post c' hpending hok =>
    simp only [List.mem_append, List.mem_cons] at he
    rcases he with he | rfl | he
    · exact Or.inl ⟨e, by simp [hpending, he], rfl⟩
    · exact Or.inl ⟨(call, .checked), by simp [hpending], rfl⟩
    · exact Or.inl ⟨e, by simp [hpending, he], rfl⟩
  | joinRefused hpending herr =>
    rcases List.mem_append.mp he with he | he <;> exact Or.inl ⟨e, by simp [hpending, he], rfl⟩
  | joinGroup env hpending =>
    rcases List.mem_append.mp he with he | he <;> exact Or.inl ⟨e, by simp [hpending, he], rfl⟩
  | _ => exact Or.inl ⟨e, he, rfl⟩

theorem Step.pending_known (h : Step s a s')
    (hknown : ∀ e ∈ s.pending, ∀ t ∈ e.1.topics, (s.mgr.getTopic t).isSome = true) :
    ∀ e ∈ s'.pending, ∀ t ∈ e.1.topics, (s'.mgr.getTopic t).isSome = true := by
  intro e he
  rcases h.pending_cases e he with ⟨e', he', heq⟩ | hcheck
  · exact known_kept h.extends.kept (heq ▸ hknown e' he')
  · exact known_kept h.extends.kept (known_of_checkJoin hcheck)

/-- **Every step keeps the invariant**, if the topics of a first join are
distinct. -/
theorem SystemInv.step (h : SystemInv s) (hdistinct : DistinctTopics s a) (hstep : Step s a s') :
    SystemInv s' := by
  refine ⟨hstep.extends.fit h.fit, ?_, hstep.pending_known h.pending⟩
  cases hstep with
  | storage hext => exact fun id g hg => (h.groups id g hg).extends hext.kept
  | joinCheck _ => exact h.groups
  | joinLookup _ hok => exact groups_joinLookup h.groups hok
  | joinRefused _ _ => exact h.groups
  | @joinGroup call pre post env hpending =>
    have hknown := h.pending (call, .located) (by simp [hpending])
    exact groups_joinGroup h.groups _ _ env hknown hdistinct
  | heartbeat groupId memberId generation env =>
    exact groups_heartbeat h.groups groupId memberId generation env
  | leave groupId memberId => exact groups_leave h.groups groupId memberId
  | expire groupId now => exact groups_expireLoop now [groupId] h.groups
  | commit groupId memberId generation entries env =>
    exact fun id g hg => (h.groups id g hg).extends
      (extends_commit s.coordinator s.store groupId memberId generation entries env).kept

theorem Init.systemInv (h : Init s) : SystemInv s := by
  obtain ⟨hfit, hgroups, hpending⟩ := h
  refine ⟨hfit, ?_, by simp [hpending]⟩
  intro id g hg
  rw [hgroups] at hg
  cases hg

theorem Reachable.systemInv (h : Reachable DistinctTopics s) : SystemInv s :=
  Reach.invariant (fun _ hs => hs.systemInv) (fun _ _ _ hi hdistinct hs => hi.step hdistinct hs) h

def Steps : GroupSystem → GroupSystem → Prop :=
  Relation.ReflTransGen fun s s' => ∃ a, Step s a s'

theorem steps_join (s : GroupSystem) (call : JoinCall) (env : Env) :
    Steps s { s with coordinator := (s.coordinator.join s.mgr call.groupId call.memberId
      call.sessionTimeoutMs call.topics call.strategy env).2 } := by
  unfold GroupCoordinator.join
  cases hcheck : s.coordinator.checkJoin s.mgr call.groupId call.sessionTimeoutMs call.topics
      call.strategy with
  | some res => exact .refl
  | none =>
    have hfirst : Steps s { s with pending := (call, .checked) :: s.pending } :=
      .single ⟨_, .joinCheck hcheck⟩
    simp only
    cases hlookup : s.coordinator.joinLookup call.groupId call.topics
        (strategyOf call.strategy) with
    | error res =>
      exact hfirst.tail ⟨_, @Step.joinRefused { s with pending := (call, .checked) :: s.pending }
        call [] s.pending res rfl hlookup⟩
    | ok c =>
      have hsecond := hfirst.tail ⟨_, @Step.joinLookup
        { s with pending := (call, .checked) :: s.pending } call [] s.pending c rfl hlookup⟩
      exact hsecond.tail ⟨_, @Step.joinGroup
        { s with coordinator := c, pending := (call, .located) :: s.pending } call [] s.pending
        env rfl⟩

theorem SystemInv.debugCheckInvariants (h : SystemInv s) (groupId : Bytes) :
    s.coordinator.debugCheckInvariants s.mgr groupId = true := by
  unfold GroupCoordinator.debugCheckInvariants
  cases hg : s.coordinator.groups.lookup groupId with
  | none => rfl
  | some g =>
    have hinv := h.groups groupId g hg
    simp only
    by_cases hnil : g.members.entries = []
    · rw [if_pos (List.isEmpty_iff.mpr hnil), hinv.empty hnil]
      rfl
    · have hne : g.members.entries.isEmpty = false := List.isEmpty_eq_false_iff.mpr hnil
      obtain ⟨honce, hrange⟩ := hinv.exclusive h.fit hnil
      rw [hne]
      simp only [Bool.false_eq_true, if_false, Bool.and_eq_true, List.all_eq_true]
      constructor
      · intro name hname
        obtain ⟨t, ht, hcount⟩ := honce name hname
        rw [ht]
        simp only [List.all_eq_true, List.mem_range, beq_iff_eq]
        exact hcount
      · intro tp htp
        obtain ⟨t, ht, hlt⟩ := hrange tp htp
        rw [ht]
        exact decide_eq_true hlt

/-! ## The first join of a group -/

def oneTopic : TopicManager := (TopicManager.createTopic { config := {} } (ascii "t") 1 0 0 0).2

def firstJoin (topics : List Bytes) : JoinCall := ⟨ascii "g", [], 10000, topics, 0⟩

def afterFirstJoin (topics : List Bytes) : GroupCoordinator :=
  (({} : GroupCoordinator).join oneTopic (ascii "g") [] 10000 topics 0 {}).2

theorem reachable_topic (numPartitions : ℕ) (hP : ∀ s, P s .storage) : Reachable P
      ⟨(TopicManager.createTopic { config := {} } (ascii "t") numPartitions 0 0 0).2, {}, {},
        []⟩ := by
  have hempty : TopicsFit { config := {} } := by
    intro name t ht
    cases ht
  have hinit : Reach Init Step P ⟨{ config := {} }, {}, {}, []⟩ := .init ⟨hempty, rfl, rfl⟩
  exact hinit.step (hP _) (Step.storage (extends_createTopic _ (ascii "t") numPartitions 0 0 0))

/-- The sections of one join. -/
theorem Reachable.join {mgr : TopicManager} {store : OffsetStore}
    (h : Reachable P ⟨mgr, c, store, []⟩) (call : JoinCall) (env : Env)
    (hP : ∀ s a, (∀ call' env, a = .joinGroup call' env → call' = call) → P s a) :
    Reachable P ⟨mgr, (c.join mgr call.groupId call.memberId call.sessionTimeoutMs call.topics
      call.strategy env).2, store, []⟩ := by
  unfold GroupCoordinator.join
  cases hcheck : c.checkJoin mgr call.groupId call.sessionTimeoutMs call.topics call.strategy with
  | some res => exact h
  | none =>
    have hchecked := Reach.step h (hP _ _ (by simp)) (Step.joinCheck hcheck)
    cases hlookup : c.joinLookup call.groupId call.topics (strategyOf call.strategy) with
    | error res =>
      exact hchecked.step (hP _ _ (by simp)) (@Step.joinRefused _ call [] [] res rfl hlookup)
    | ok c' =>
      have hlocated := hchecked.step (hP _ _ (by simp))
        (@Step.joinLookup _ call [] [] c' rfl hlookup)
      exact hlocated.step (hP _ _ (by rintro _ _ heq; cases heq; rfl))
        (@Step.joinGroup _ call [] [] env rfl)

/-- **Exclusive and complete partition ownership** in every state that
concurrent calls reach, if a new member that finds its group without members
names no topic twice. -/
theorem reachable_exclusive {s : GroupSystem} (h : Reachable DistinctTopics s) (groupId : Bytes) :
    s.coordinator.debugCheckInvariants s.mgr groupId = true ∧
      ∀ g, s.coordinator.groups.lookup groupId = some g → g.members.entries ≠ [] →
        Exclusive s.mgr g :=
  ⟨h.systemInv.debugCheckInvariants groupId,
    fun g hg hne => (h.systemInv.groups groupId g hg).exclusive h.systemInv.fit hne⟩

def threePartitions : TopicManager :=
  (TopicManager.createTopic { config := {} } (ascii "t") 3 0 0 0).2

def twoMembers : GroupCoordinator :=
  ((({} : GroupCoordinator).join threePartitions (ascii "g") [] 10000 [ascii "t"] 0 {}).2.join
    threePartitions (ascii "g") [] 10000 [ascii "t"] 0 { rand := 1 }).2

/-- Two members share three partitions. -/
theorem reachable_exclusive_two_members :
    twoMembers.debugCheckInvariants threePartitions (ascii "g") = true ∧
      ∃ g, twoMembers.groups.lookup (ascii "g") = some g ∧
        g.members.entries.map (·.2.assignment.length) = [1, 2] ∧ Exclusive threePartitions g := by
  have hdistinct : ∀ s a, (∀ call env, a = .joinGroup call env → call = firstJoin [ascii "t"]) →
      DistinctTopics s a := by
    intro s a hcall
    cases a with
    | joinGroup call env =>
      intro _ g _ _
      rw [hcall call env rfl]
      exact List.nodup_singleton _
    | _ => trivial
  have hfirst := (reachable_topic 3 fun _ => trivial).join (firstJoin [ascii "t"]) {} hdistinct
  have hsecond := hfirst.join (firstJoin [ascii "t"]) { rand := 1 } hdistinct
  obtain ⟨hcheck, hexclusive⟩ := reachable_exclusive hsecond (ascii "g")
  have hmembers : (twoMembers.groups.lookup (ascii "g")).map
      (fun g => g.members.entries.map (·.2.assignment.length)) = some [1, 2] := by decide +kernel
  obtain ⟨g, hg, hlengths⟩ := Option.map_eq_some_iff.mp hmembers
  refine ⟨hcheck, g, hg, hlengths, hexclusive g hg ?_⟩
  intro hnil
  rw [hnil] at hlengths
  cases hlengths

/-- **A topic named twice** is accepted, and its partition is assigned twice. -/
theorem repeated_topic_assigned_twice :
    ∃ s, Reachable (fun _ _ => True) s ∧
      s.coordinator.debugCheckInvariants s.mgr (ascii "g") = false ∧
      ∃ g, s.coordinator.groups.lookup (ascii "g") = some g ∧
        (assignedEntries g).count ⟨ascii "t", 0⟩ = 2 :=
  ⟨⟨oneTopic, afterFirstJoin [ascii "t", ascii "t"], {}, []⟩,
    (reachable_topic 1 fun _ => trivial).join (firstJoin [ascii "t", ascii "t"]) {}
      fun _ _ _ => trivial, by decide +kernel, _, rfl, by decide +kernel⟩

end GroupCoordinator

end StreamForge
