import StreamForge.Broker.Fencing
import StreamForge.Broker.OffsetReplay

/-!
# Refused calls

What a call of the coordinator leaves behind when it returns an error. A
heartbeat, a leave and a commit leave nothing. A join makes the group, or gives
an empty group its topics and strategy, before it looks for the member or at
the number of members; if it fails then, the group stays as it is.
-/

namespace StreamForge

open Transition

namespace GroupCoordinator

inductive GroupCall where
  | join (groupId memberId : Bytes) (sessionTimeoutMs : UInt32) (topics : List Bytes)
      (strategy : UInt8)
  | heartbeat (groupId memberId : Bytes) (generation : UInt32)
  | leave (groupId memberId : Bytes)
  | commit (groupId memberId : Bytes) (generation : UInt32)
      (entries : List OffsetCommitRequestEntry)

def GroupCall.run (s : GroupSystem) (env : Env) : GroupCall → CallResult × GroupSystem
  | .join groupId memberId sessionTimeoutMs topics strategy =>
    let (res, coordinator) :=
      s.coordinator.join s.mgr groupId memberId sessionTimeoutMs topics strategy env
    (res.toCallResult, { s with coordinator })
  | .heartbeat groupId memberId generation =>
    let (res, coordinator) := s.coordinator.heartbeat groupId memberId generation env
    (res, { s with coordinator })
  | .leave groupId memberId =>
    let (res, coordinator) := s.coordinator.leave s.mgr groupId memberId
    (res, { s with coordinator })
  | .commit groupId memberId generation entries =>
    let (res, store, mgr) :=
      s.coordinator.commit s.store s.mgr groupId memberId generation entries env
    (res, { s with store, mgr })

structure NoTrace (s s' : GroupSystem) : Prop where
  groups : ∀ id, s'.coordinator.groups.lookup id = s.coordinator.groups.lookup id
  cache : s'.store.cache = s.store.cache

/-- A join that is stopped by the first checks or by the limit of groups, or that
finds its group with members or with the same topics and strategy. -/
def GroupCall.Settled (s : GroupSystem) : GroupCall → Prop
  | .join groupId _ sessionTimeoutMs topics strategy =>
    (∃ res, s.coordinator.checkJoin s.mgr groupId sessionTimeoutMs topics strategy = some res) ∨
    (∃ res, s.coordinator.joinLookup groupId topics (strategyOf strategy) = .error res) ∨
    ∃ g, s.coordinator.groups.lookup groupId = some g ∧ (g.members.entries ≠ [] ∨
      g.strategy = strategyOf strategy ∧ g.subscribedTopics = topics)
  | _ => True

section Plain

variable {c : GroupCoordinator} {groupId memberId : Bytes}

theorem heartbeat_error {generation : UInt32} {env : Env}
    (h : (c.heartbeat groupId memberId generation env).1.errorCode ≠ 0) :
    (c.heartbeat groupId memberId generation env).2 = c := by
  unfold heartbeat at h ⊢
  split
  · rfl
  · rename_i g hg
    rw [hg] at h
    simp only at h ⊢
    split
    · rfl
    · rename_i m hm
      rw [hm] at h
      simp only at h ⊢
      split
      · rfl
      · rename_i hgen
        rw [if_neg hgen] at h
        exact absurd rfl h

theorem leave_error {mgr : TopicManager} (h : (c.leave mgr groupId memberId).1.errorCode ≠ 0) :
    (c.leave mgr groupId memberId).2 = c := by
  unfold leave at h ⊢
  split
  · rfl
  · rename_i g hg
    rw [hg] at h
    simp only at h ⊢
    split
    · rfl
    · rename_i hmember
      rw [if_neg hmember] at h
      exact absurd rfl h

theorem commit_error {store : OffsetStore} {mgr : TopicManager} {generation : UInt32}
    {entries : List OffsetCommitRequestEntry} {env : Env}
    (h : (c.commit store mgr groupId memberId generation entries env).1.errorCode ≠ 0) :
    (c.commit store mgr groupId memberId generation entries env).2.1 = store := by
  rcases commit_cases c store mgr groupId memberId generation entries env with
    ⟨res, heq, -⟩ | ⟨-, -, -, heq⟩
  · rw [heq]
  · rw [heq] at h ⊢
    cases hok : (store.commitTo groupId (itemsOf entries env) mgr env.systemMs env.faults).1.ok with
    | true =>
      rw [hok] at h
      exact absurd rfl h
    | false => rw [OffsetStore.commitTo_store, hok, if_neg Bool.false_ne_true]

end Plain

/-! ## Joins -/

section Join

variable {mgr : TopicManager} {c : GroupCoordinator} {g g' : Group} {groupId memberId : Bytes}
  {sessionTimeoutMs : UInt32} {topics : List Bytes} {strategy : AssignorStrategy} {env : Env}

theorem subscribe_eq_iff (h : subscribe g topics strategy = .ok g') :
    g' = g ↔ g.members.entries ≠ [] ∨ g.strategy = strategy ∧ g.subscribedTopics = topics := by
  obtain ⟨hnil, rfl⟩ | ⟨hne, -, -, rfl⟩ := subscribe_cases h
  · constructor
    · intro heq
      exact Or.inr ⟨congrArg Group.strategy heq.symm, congrArg Group.subscribedTopics heq.symm⟩
    · rintro (hne | ⟨rfl, rfl⟩)
      · exact absurd hnil hne
      · rfl
  · exact ⟨fun _ => Or.inl hne, fun _ => rfl⟩

theorem members_of_subscribe_error {res : CallResult}
    (h : subscribe g topics strategy = .error res) : g.members.entries ≠ [] := by
  intro hnil
  unfold subscribe at h
  rw [if_pos (List.isEmpty_iff.mpr hnil)] at h
  cases h

theorem joinGroup_error (hg : c.groups.lookup groupId = some g)
    (hsub : subscribe g topics strategy = .ok g')
    (h : (c.joinGroup mgr groupId memberId sessionTimeoutMs topics strategy env).1.errorCode ≠ 0) :
    (c.joinGroup mgr groupId memberId sessionTimeoutMs topics strategy env).2 =
      { c with groups := c.groups.insert groupId g' } := by
  unfold joinGroup at h ⊢
  rw [hg] at h ⊢
  simp only [hsub] at h ⊢
  split
  · rename_i hnew
    rw [if_pos hnew] at h
    unfold addMember at h ⊢
    split
    · rfl
    · rename_i hroom
      rw [if_neg hroom] at h
      exact absurd rfl h
  · rename_i hnew
    rw [if_neg hnew] at h
    unfold refreshMember at h ⊢
    split
    · rfl
    · rename_i m hm
      rw [hm] at h
      exact absurd rfl h

theorem insert_unchanged_iff (hg : c.groups.lookup groupId = some g) :
    (∀ id, (c.groups.insert groupId g').lookup id = c.groups.lookup id) ↔ g' = g := by
  constructor
  · intro h
    have heq := h groupId
    rw [AList.lookup_insert, hg] at heq
    exact Option.some.inj heq
  · rintro rfl id
    rw [AssocMap.lookup_insert_eq]
    split
    · rename_i hid
      rw [hid, hg]
    · rfl

theorem GroupChange.isSome {offered : List Bytes → Prop} {k k' : UInt64} {flag : Bool}
    {og og' : Option Group} (h : GroupChange mgr offered k k' groupId flag og og')
    (hsome : og.isSome = true) : og'.isSome = true := by
  cases h with
  | same _ => exact hsome
  | created _ _ => rfl
  | subscribed _ _ _ => rfl
  | joined _ _ _ _ _ => rfl
  | refreshed _ _ => rfl
  | removed _ _ _ _ => rfl

/-- **A failed section of a join** on a group that was there before the call. -/
theorem joinGroup_unchanged_iff (hg : c.groups.lookup groupId = some g)
    (h : (c.joinGroup mgr groupId memberId sessionTimeoutMs topics strategy env).1.errorCode ≠ 0) :
    (∀ id, (c.joinGroup mgr groupId memberId sessionTimeoutMs topics strategy
        env).2.groups.lookup id = c.groups.lookup id) ↔
      g.members.entries ≠ [] ∨ g.strategy = strategy ∧ g.subscribedTopics = topics := by
  cases hsub : subscribe g topics strategy with
  | error res =>
    have hsame : (c.joinGroup mgr groupId memberId sessionTimeoutMs topics strategy env).2 = c := by
      simp only [joinGroup, hg, hsub]
    rw [hsame]
    exact ⟨fun _ => Or.inl (members_of_subscribe_error hsub), fun _ _ => rfl⟩
  | ok g' =>
    rw [joinGroup_error hg hsub h, ← subscribe_eq_iff hsub]
    exact insert_unchanged_iff hg

theorem join_unchanged_iff {strategy : UInt8}
    (h : (c.join mgr groupId memberId sessionTimeoutMs topics strategy env).1.errorCode ≠ 0) :
    (∀ id, (c.join mgr groupId memberId sessionTimeoutMs topics strategy env).2.groups.lookup id =
        c.groups.lookup id) ↔
      (∃ res, c.checkJoin mgr groupId sessionTimeoutMs topics strategy = some res) ∨
      (∃ res, c.joinLookup groupId topics (strategyOf strategy) = .error res) ∨
      ∃ g, c.groups.lookup groupId = some g ∧ (g.members.entries ≠ [] ∨
        g.strategy = strategyOf strategy ∧ g.subscribedTopics = topics) := by
  unfold join at h ⊢
  cases hcheck : c.checkJoin mgr groupId sessionTimeoutMs topics strategy with
  | some res => exact ⟨fun _ => Or.inl ⟨res, rfl⟩, fun _ _ => rfl⟩
  | none =>
    simp only [hcheck] at h ⊢
    cases hlookup : c.joinLookup groupId topics (strategyOf strategy) with
    | error res => exact ⟨fun _ => Or.inr (Or.inl ⟨res, rfl⟩), fun _ _ => rfl⟩
    | ok c' =>
      simp only [hlookup] at h ⊢
      cases hg : c.groups.lookup groupId with
      | none =>
        -- the group was made for this call, and it stays
        have hmade : (c'.groups.lookup groupId).isSome = true := by
          unfold joinLookup at hlookup
          simp only [hg] at hlookup
          split at hlookup
          · cases hlookup
          · cases hlookup
            simp
        have hchanges := @changes_joinGroup mgr (· = topics) c' groupId memberId sessionTimeoutMs
          topics (strategyOf strategy) env rfl
        have hstays := (hchanges.group groupId).isSome hmade
        constructor
        · intro hsame
          rw [hsame groupId, hg] at hstays
          cases hstays
        · rintro (⟨res, hres⟩ | ⟨res, hres⟩ | ⟨g, hnone, -⟩)
          · cases hres
          · cases hres
          · cases hnone
      | some g =>
        have hsame : c' = c := by
          unfold joinLookup at hlookup
          simp only [hg] at hlookup
          cases hlookup
          rfl
        rw [hsame] at h ⊢
        rw [joinGroup_unchanged_iff hg h]
        constructor
        · intro hsettled
          exact Or.inr (Or.inr ⟨g, rfl, hsettled⟩)
        · rintro (⟨res, hres⟩ | ⟨res, hres⟩ | ⟨g', hg', hsettled⟩)
          · cases hres
          · cases hres
          · cases hg'
            exact hsettled

end Join

/-- **A call that returns an error leaves no trace**, a join exactly when it is
settled before its group is touched. -/
theorem refused_call_no_trace_iff (s : GroupSystem) (call : GroupCall) (env : Env)
    (h : (call.run s env).1.errorCode ≠ 0) :
    NoTrace s (call.run s env).2 ↔ call.Settled s := by
  cases call with
  | join groupId memberId sessionTimeoutMs topics strategy =>
    have hiff := join_unchanged_iff h
    exact ⟨fun htrace => hiff.mp htrace.groups, fun hsettled => ⟨hiff.mpr hsettled, rfl⟩⟩
  | heartbeat groupId memberId generation =>
    have hsame := heartbeat_error h
    exact ⟨fun _ => trivial, fun _ => ⟨fun id => congrArg (fun c => c.groups.lookup id) hsame, rfl⟩⟩
  | leave groupId memberId =>
    have hsame := leave_error h
    exact ⟨fun _ => trivial, fun _ => ⟨fun id => congrArg (fun c => c.groups.lookup id) hsame, rfl⟩⟩
  | commit groupId memberId generation entries =>
    have hsame := commit_error h
    exact ⟨fun _ => trivial, fun _ => ⟨fun _ => rfl, congrArg OffsetStore.cache hsame⟩⟩

/-- A member that comes back with another strategy while the group has members. -/
theorem refused_call_no_trace_mismatch :
    (GroupCall.run (serving joinedOnce [] 1).toGroupSystem {}
      (.join (ascii "g") [] 10000 [ascii "t"]
        1)).1.errorCode = ErrorCode.INVALID_ARGUMENT ∧
      NoTrace (serving joinedOnce [] 1).toGroupSystem (GroupCall.run
        (serving joinedOnce [] 1).toGroupSystem {}
          (.join (ascii "g") [] 10000 [ascii "t"] 1)).2 := by
  have hcode : (GroupCall.run (serving joinedOnce [] 1).toGroupSystem {} (.join (ascii "g") [] 10000
      [ascii "t"] 1)).1.errorCode = ErrorCode.INVALID_ARGUMENT := by decide +kernel
  refine ⟨hcode, (refused_call_no_trace_iff _ _ _ ?_).mpr (Or.inr (Or.inr ⟨_, rfl, Or.inl ?_⟩))⟩
  · rw [hcode]
    decide
  · decide +kernel

theorem reachable_steps {s s' : GroupSystem} (h : Reachable (fun _ _ => True) s)
    (hsteps : Steps s s') : Reachable (fun _ _ => True) s' := by
  induction hsteps with
  | refl => exact h
  | tail _ hstep ih =>
    obtain ⟨a, hstep⟩ := hstep
    exact ih.step trivial hstep

/-- The id of a member that was never there. -/
def ghostJoin (strategy : UInt8) : GroupCall :=
  .join (ascii "g") (ascii "ghost") 10000 [ascii "t"] strategy

/-- **An unknown member makes a group, and sets its strategy**: both joins are
answered with UNKNOWN_GROUP_OR_MEMBER. -/
theorem refused_join_leaves_group :
    ∃ s s', Reachable (fun _ _ => True) s ∧ Reachable (fun _ _ => True) s' ∧
      s' = (GroupCall.run s {} (ghostJoin 0)).2 ∧
      (GroupCall.run s {} (ghostJoin 0)).1.errorCode = ErrorCode.UNKNOWN_GROUP_OR_MEMBER ∧
      s.coordinator.groups.lookup (ascii "g") = none ∧
      (s'.coordinator.groups.lookup (ascii "g")).map Group.strategy = some .Range ∧
      (GroupCall.run s' {} (ghostJoin 1)).1.errorCode = ErrorCode.UNKNOWN_GROUP_OR_MEMBER ∧
      ((GroupCall.run s' {} (ghostJoin 1)).2.coordinator.groups.lookup (ascii "g")).map
        Group.strategy = some .RoundRobin := by
  have hinit : Reachable (fun _ _ => True) (serving {} [] 0).toGroupSystem :=
    .init ⟨topicsFit_of_entries (by decide +kernel), rfl, rfl⟩
  refine ⟨_, _, hinit, reachable_steps hinit (steps_join _
    ⟨ascii "g", ascii "ghost", 10000, [ascii "t"], 0⟩ {}), rfl, ?_, rfl, ?_, ?_, ?_⟩
  · decide +kernel
  · decide +kernel
  · decide +kernel
  · decide +kernel

end GroupCoordinator

end StreamForge
