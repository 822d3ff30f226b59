import StreamForge.Broker.GroupCalls

/-!
# The registry of groups and the reaper

`expire_members` reads the clock once, lists the groups under the lock of the
registry, and then locks them one by one; joins, heartbeats and leaves of other
threads come in between. The system of `Step` is put on a clock here: `join` and
`heartbeat` read it in the section under the group's lock, and every pass of the
reaper keeps the value it has read. Beside a pass stand the members that have joined,
come back or sent a heartbeat since then.

One statement says what a section may do to the registry (`Section`); the bounds of
the registry and the heartbeats that a pass compares with follow from it.
-/

namespace StreamForge

open Transition

namespace GroupCoordinator

def InRange (config : CoordinatorConfig) (sessionTimeoutMs : UInt32) : Prop :=
  config.minSessionTimeoutMs ≤ sessionTimeoutMs ∧ sessionTimeoutMs ≤ config.maxSessionTimeoutMs

structure GroupBounds (config : CoordinatorConfig) (g : Group) : Prop where
  empty_iff : g.state = .Empty ↔ g.members.entries = []
  few : g.members.entries.length ≤ config.maxMembersPerGroup
  timeouts : ∀ id m, g.members.lookup id = some m → InRange config m.sessionTimeoutMs

/-- **The registry invariant.** -/
structure RegistryBounds (c : GroupCoordinator) : Prop where
  few : c.groups.entries.length ≤ c.config.maxGroups
  groups : ∀ id g, c.groups.lookup id = some g → GroupBounds c.config g

/-! ## What a section does -/

variable {config : CoordinatorConfig} {mgr : TopicManager} {c c' : GroupCoordinator}
variable {clock : ℤ} {offered : UInt32 → Prop}

/-- A group that a section writes back, against the one it found. A heartbeat is the
clock's value or an old one, and a session timeout is one that a join has offered
or an old one. -/
structure Rewritten (config : CoordinatorConfig) (clock : ℤ) (offered : UInt32 → Prop)
    (old : Option Group) (g : Group) : Prop where
  empty_iff : (∀ g₀, old = some g₀ → (g₀.state = .Empty ↔ g₀.members.entries = [])) →
    (g.state = .Empty ↔ g.members.entries = [])
  few : (∀ g₀, old = some g₀ → g₀.members.entries.length ≤ config.maxMembersPerGroup) →
    g.members.entries.length ≤ config.maxMembersPerGroup
  heartbeat : ∀ id m, g.members.lookup id = some m → m.lastHeartbeat = clock ∨
    ∃ g₀ m₀, old = some g₀ ∧ g₀.members.lookup id = some m₀ ∧ m.lastHeartbeat = m₀.lastHeartbeat
  timeout : ∀ id m, g.members.lookup id = some m → offered m.sessionTimeoutMs ∨
    ∃ g₀ m₀, old = some g₀ ∧ g₀.members.lookup id = some m₀ ∧
      m.sessionTimeoutMs = m₀.sessionTimeoutMs

structure Section (clock : ℤ) (offered : UInt32 → Prop) (c c' : GroupCoordinator) : Prop where
  config : c'.config = c.config
  few : c.groups.entries.length ≤ c.config.maxGroups → c'.groups.entries.length ≤ c.config.maxGroups
  group : ∀ id g, c'.groups.lookup id = some g → c.groups.lookup id = some g ∨
    Rewritten c.config clock offered (c.groups.lookup id) g

theorem Section.refl (clock : ℤ) (offered : UInt32 → Prop) (c : GroupCoordinator) :
    Section clock offered c c :=
  ⟨rfl, fun h => h, fun _ _ hg => .inl hg⟩

variable {groupId memberId : Bytes} {g : Group} {topics : List Bytes} {strategy : AssignorStrategy}
    {sessionTimeoutMs : UInt32} {now : ℤ} {s s' : GroupSystem} {a : Action}

theorem Section.insert {counter : UInt64}
    (hold : groupId ∈ c.groups ∨ c.groups.entries.length < c.config.maxGroups)
    (hg : Rewritten c.config clock offered (c.groups.lookup groupId) g) :
    Section clock offered c
      { c with memberCounter := counter, groups := c.groups.insert groupId g } := by
  refine ⟨rfl, ?_, ?_⟩
  · intro hfew
    rcases hold with hmem | hroom
    · exact (AssocMap.length_insert_of_mem hmem g).trans_le hfew
    · exact (AssocMap.length_insert_le ..).trans hroom
  · intro id g' hg'
    rw [AssocMap.lookup_insert_eq] at hg'
    split at hg'
    · rename_i hid
      cases hg'
      rw [hid]
      exact .inr hg
    · exact .inl hg'

/-! ### Groups that are written back -/

section Groups

variable {g g₀ : Group}

theorem Rewritten.of_same (hmembers : g.members = g₀.members) (hstate : g.state = g₀.state) :
    Rewritten config clock offered (some g₀) g := by
  refine ⟨fun h => ?_, fun h => ?_, fun id m hm => .inr ⟨g₀, m, rfl, ?_, rfl⟩,
    fun id m hm => .inr ⟨g₀, m, rfl, ?_, rfl⟩⟩
  · rw [hmembers, hstate]
    exact h g₀ rfl
  · rw [hmembers]
    exact h g₀ rfl
  · rwa [← hmembers]
  · rwa [← hmembers]

theorem Rewritten.refreshed {id : Bytes} {m m₀ : MemberMetadata}
    (hm₀ : g₀.members.lookup id = some m₀)
    (hclock : m.lastHeartbeat = clock)
    (htimeout : offered m.sessionTimeoutMs ∨ m.sessionTimeoutMs = m₀.sessionTimeoutMs) :
    Rewritten config clock offered (some g₀) { g₀ with members := g₀.members.insert id m } := by
  have hmem : id ∈ g₀.members := AList.lookup_isSome.mp (Option.isSome_iff_exists.mpr ⟨m₀, hm₀⟩)
  refine ⟨fun h => ?_, fun h => ?_, ?_, ?_⟩
  · rw [h g₀ rfl]
    exact iff_of_false (AssocMap.ne_nil_of_lookup hm₀) (AssocMap.insert_ne_nil _ _ _)
  · exact (AssocMap.length_insert_of_mem hmem m).trans_le (h g₀ rfl)
  · intro id' m' hm'
    rw [AssocMap.lookup_insert_eq] at hm'
    split at hm'
    · cases hm'
      exact .inl hclock
    · exact .inr ⟨g₀, m', rfl, hm', rfl⟩
  · intro id' m' hm'
    rw [AssocMap.lookup_insert_eq] at hm'
    split at hm'
    · rename_i hid
      cases hm'
      rw [hid]
      exact htimeout.imp_right fun h => ⟨g₀, m₀, rfl, hm₀, h⟩
    · exact .inr ⟨g₀, m', rfl, hm', rfl⟩

/-- A rebalance makes the state fit the members, and changes nothing of a member but its
assignment. -/
theorem Rewritten.rebalanced {old : Option Group}
    (hfew : (∀ g₀, old = some g₀ → g₀.members.entries.length ≤ config.maxMembersPerGroup) →
      g.members.entries.length ≤ config.maxMembersPerGroup)
    (hheartbeat : ∀ id m, g.members.lookup id = some m → m.lastHeartbeat = clock ∨
      ∃ g₀ m₀, old = some g₀ ∧ g₀.members.lookup id = some m₀ ∧ m.lastHeartbeat = m₀.lastHeartbeat)
    (htimeout : ∀ id m, g.members.lookup id = some m → offered m.sessionTimeoutMs ∨
      ∃ g₀ m₀, old = some g₀ ∧ g₀.members.lookup id = some m₀ ∧
        m.sessionTimeoutMs = m₀.sessionTimeoutMs) :
    Rewritten config clock offered old (rebalanceUnlocked mgr g) := by
  unfold rebalanceUnlocked
  split
  · rename_i hempty
    exact ⟨fun _ => iff_of_true rfl (List.isEmpty_iff.mp hempty), hfew, hheartbeat, htimeout⟩
  · rename_i hsome
    rw [List.isEmpty_iff] at hsome
    simp only
    have hlength : ∀ f : Bytes → MemberMetadata → MemberMetadata,
        (AssocMap.mapValues f g.members).entries.length = g.members.entries.length :=
      fun f => List.length_map _
    refine ⟨fun _ => iff_of_false nofun fun hnil => ?_,
      fun h => (hlength _).trans_le (hfew h), ?_, ?_⟩
    · refine hsome (List.length_eq_zero_iff.mp ?_)
      rw [← hlength, hnil, List.length_nil]
    · intro id m hm
      rw [AssocMap.lookup_mapValues] at hm
      obtain ⟨m', hm', rfl⟩ := Option.map_eq_some_iff.mp hm
      exact hheartbeat id m' hm'
    · intro id m hm
      rw [AssocMap.lookup_mapValues] at hm
      obtain ⟨m', hm', rfl⟩ := Option.map_eq_some_iff.mp hm
      exact htimeout id m' hm'

theorem Rewritten.removed {members : AList fun _ : Bytes => MemberMetadata}
    (hlength : members.entries.length ≤ g₀.members.entries.length)
    (hsub : ∀ id m, members.lookup id = some m → g₀.members.lookup id = some m) :
    Rewritten config clock offered (some g₀) (afterRemoval mgr { g₀ with members }) := by
  have hfew : (∀ g, some g₀ = some g → g.members.entries.length ≤ config.maxMembersPerGroup) →
      members.entries.length ≤ config.maxMembersPerGroup :=
    fun h => hlength.trans (h g₀ rfl)
  unfold afterRemoval
  simp only
  split
  · rename_i hempty
    exact ⟨fun _ => iff_of_true rfl (List.isEmpty_iff.mp hempty), hfew,
      fun id m hm => .inr ⟨g₀, m, rfl, hsub id m hm, rfl⟩,
      fun id m hm => .inr ⟨g₀, m, rfl, hsub id m hm, rfl⟩⟩
  · exact .rebalanced hfew (fun id m hm => .inr ⟨g₀, m, rfl, hsub id m hm, rfl⟩)
      fun id m hm => .inr ⟨g₀, m, rfl, hsub id m hm, rfl⟩

end Groups

/-! ### The sections of the calls -/

theorem mem_groups_of_lookup (h : c.groups.lookup groupId = some g) : groupId ∈ c.groups :=
  AList.lookup_isSome.mp (Option.isSome_iff_exists.mpr ⟨g, h⟩)

theorem section_joinLookup (h : c.joinLookup groupId topics strategy = .ok c') :
    Section clock offered c c' := by
  obtain rfl | ⟨hnone, hroom, rfl⟩ := joinLookup_cases h
  · exact .refl clock offered c'
  · refine .insert (.inr hroom) ?_
    rw [hnone]
    exact ⟨fun _ => iff_of_true rfl rfl, fun _ => Nat.zero_le _, nofun, nofun⟩

theorem members_of_subscribe {g' : Group} (h : subscribe g topics strategy = .ok g') :
    g'.members = g.members ∧ g'.state = g.state := by
  obtain ⟨-, rfl⟩ | ⟨-, -, -, rfl⟩ := subscribe_cases h <;> exact ⟨rfl, rfl⟩

theorem section_joinGroup (groupId memberId : Bytes) (topics : List Bytes)
    (strategy : AssignorStrategy) (env : Env) (hoffered : offered sessionTimeoutMs) :
    Section env.clock offered c
      (c.joinGroup mgr groupId memberId sessionTimeoutMs topics strategy env).2 := by
  have houtcome := joinOutcome c mgr groupId memberId sessionTimeoutMs topics strategy env
  generalize c.joinGroup mgr groupId memberId sessionTimeoutMs topics strategy env = res
    at houtcome ⊢
  cases houtcome with
  | refused _ => exact .refl env.clock offered c
  | subscribed hg hsub _ =>
    obtain ⟨hmembers, hstate⟩ := members_of_subscribe hsub
    refine .insert (.inl (mem_groups_of_lookup hg)) ?_
    rw [hg]
    exact .of_same hmembers hstate
  | @added g g' _ newId _ hg hsub hroom _ hg₁ =>
    have hmembers := (members_of_subscribe hsub).1
    refine .insert (.inl (mem_groups_of_lookup hg)) ?_
    rw [hg, hg₁]
    refine .rebalanced (fun _ => ?_) ?_ ?_
    · exact (AssocMap.length_insert_le ..).trans hroom
    · intro id m hm
      rw [AssocMap.lookup_insert_eq] at hm
      split at hm
      · cases hm
        exact .inl rfl
      · rw [hmembers] at hm
        exact .inr ⟨g, m, rfl, hm, rfl⟩
    · intro id m hm
      rw [AssocMap.lookup_insert_eq] at hm
      split at hm
      · cases hm
        exact .inl hoffered
      · rw [hmembers] at hm
        exact .inr ⟨g, m, rfl, hm, rfl⟩
  | refreshed _ hg hm hg₁ =>
    refine .insert (.inl (mem_groups_of_lookup hg)) ?_
    rw [hg, hg₁]
    exact .refreshed hm rfl (.inl hoffered)

theorem section_heartbeat (groupId memberId : Bytes) (generation : UInt32) (env : Env) :
    Section env.clock offered c (c.heartbeat groupId memberId generation env).2 := by
  unfold heartbeat
  rcases hg : c.groups.lookup groupId with _ | g
  · exact .refl env.clock offered c
  · simp only
    rcases hm : g.members.lookup memberId with _ | m
    · exact .refl env.clock offered c
    · simp only
      split
      · exact .refl env.clock offered c
      · refine .insert (.inl (mem_groups_of_lookup hg)) ?_
        rw [hg]
        exact .refreshed hm rfl (.inr rfl)

theorem section_leave (groupId memberId : Bytes) :
    Section clock offered c (c.leave mgr groupId memberId).2 := by
  unfold leave
  rcases hg : c.groups.lookup groupId with _ | g
  · exact .refl clock offered c
  · simp only
    split
    · exact .refl clock offered c
    · refine .insert (.inl (mem_groups_of_lookup hg)) ?_
      rw [hg]
      refine .removed (AssocMap.length_erase_le ..) ?_
      intro id m hm
      by_cases hid : id = memberId
      · rw [hid, AList.lookup_erase] at hm
        cases hm
      · rwa [AList.lookup_erase_ne hid] at hm

theorem rewritten_expireGroup (now : ℤ) (g : Group) :
    Rewritten config clock offered (some g) (expireGroup mgr now g).2 := by
  unfold expireGroup
  simp only
  split
  · exact .of_same rfl rfl
  · refine .removed (AssocMap.length_foldl_erase_le ..) ?_
    intro id m hm
    rw [AssocMap.lookup_foldl_erase] at hm
    split at hm
    · cases hm
    · exact hm

theorem section_expire (now : ℤ) (groupId : Bytes) :
    Section clock offered c (expireLoop mgr now [groupId] c).2 := by
  rcases hg : c.groups.lookup groupId with _ | g
  · simp only [expireLoop, hg]
    exact .refl clock offered c
  · simp only [expireLoop, hg]
    refine .insert (.inl (mem_groups_of_lookup hg)) ?_
    rw [hg]
    exact rewritten_expireGroup now g

/-! ### What follows -/

/-- **The bounds** are kept by every section that is offered timeouts in range. -/
theorem RegistryBounds.section (h : c.RegistryBounds) (hs : Section clock offered c c')
    (hoffered : ∀ t, offered t → InRange c.config t) : c'.RegistryBounds := by
  refine ⟨hs.config ▸ hs.few h.few, ?_⟩
  intro id g hg
  rw [hs.config]
  rcases hs.group id g hg with hg | hnew
  · exact h.groups id g hg
  · refine ⟨hnew.empty_iff fun g₀ hg₀ => (h.groups id g₀ hg₀).empty_iff,
      hnew.few fun g₀ hg₀ => (h.groups id g₀ hg₀).few, ?_⟩
    intro memberId m hm
    rcases hnew.timeout memberId m hm with hnew | ⟨g₀, m₀, hg₀, hm₀, heq⟩
    · exact hoffered _ hnew
    · rw [heq]
      exact (h.groups id g₀ hg₀).timeouts memberId m₀ hm₀

/-- The member's heartbeat is not older than `now`. -/
def SeenSince (c : GroupCoordinator) (now : ℤ) (groupId memberId : Bytes) : Prop :=
  ∀ g m, c.groups.lookup groupId = some g → g.members.lookup memberId = some m →
    now ≤ m.lastHeartbeat

theorem SeenSince.section (h : c.SeenSince now groupId memberId) (hs : Section clock offered c c')
    (hclock : now ≤ clock) : c'.SeenSince now groupId memberId := by
  intro g m hg hm
  rcases hs.group groupId g hg with hg | hnew
  · exact h g m hg hm
  · rcases hnew.heartbeat memberId m hm with heq | ⟨g₀, m₀, hg₀, hm₀, heq⟩
    · exact hclock.trans_eq heq.symm
    · exact (h g₀ m₀ hg₀ hm₀).trans_eq heq.symm

def GroupSystem.OfferedTimeout (s : GroupSystem) (sessionTimeoutMs : UInt32) : Prop :=
  ∃ e ∈ s.pending, e.1.sessionTimeoutMs = sessionTimeoutMs

/-- The clock is read in the section under the group's lock. -/
def Action.ReadsClock (clock : ℤ) : Action → Prop
  | .joinGroup _ env => env.clock = clock
  | .heartbeat _ _ _ env => env.clock = clock
  | _ => True

theorem Step.section (h : Step s a s') (hclock : a.ReadsClock clock) :
    Section clock s.OfferedTimeout s.coordinator s'.coordinator := by
  cases h with
  | storage _ => exact .refl _ _ _
  | joinCheck _ => exact .refl _ _ _
  | joinLookup _ hok => exact section_joinLookup hok
  | joinRefused _ _ => exact .refl _ _ _
  | @joinGroup call pre post env hpending =>
    obtain rfl : env.clock = clock := hclock
    exact section_joinGroup _ _ _ _ env ⟨(call, .located), by simp [hpending], rfl⟩
  | heartbeat groupId memberId generation env =>
    obtain rfl : env.clock = clock := hclock
    exact section_heartbeat groupId memberId generation env
  | leave groupId memberId => exact section_leave groupId memberId
  | expire groupId now => exact section_expire now groupId
  | commit _ _ _ _ _ => exact .refl _ _ _

theorem inRange_of_checkJoin {strategy : UInt8}
    (h : c.checkJoin mgr groupId sessionTimeoutMs topics strategy = none) :
    InRange c.config sessionTimeoutMs := by
  unfold checkJoin at h
  split at h
  · cases h
  · split at h
    · cases h
    · split at h
      · cases h
      · rename_i hrange
        rw [not_or] at hrange
        exact ⟨UInt32.not_lt.mp hrange.1, UInt32.not_lt.mp hrange.2⟩

structure InBounds (s : GroupSystem) : Prop where
  registry : s.coordinator.RegistryBounds
  pending : ∀ t, s.OfferedTimeout t → InRange s.coordinator.config t

theorem InBounds.step (h : InBounds s) (hstep : Step s a s') (hclock : a.ReadsClock clock) :
    InBounds s' := by
  have hs := hstep.section hclock
  refine ⟨h.registry.section hs h.pending, ?_⟩
  rintro t ⟨e, he, rfl⟩
  rw [hs.config]
  rcases hstep.pending_cases e he with ⟨e', he', heq⟩ | hcheck
  · exact h.pending _ ⟨e', he', by rw [heq]⟩
  · exact inRange_of_checkJoin hcheck

/-! ## The reaper -/

/-- A call of `expire_members`: the clock value it has read, the groups it has still to
lock, once it has listed them, and the members that were refreshed since it read
the clock. `listed` and `locked` keep what the call has listed and locked so far. -/
structure ExpiryPass where
  now : ℤ
  groups : Option (List Bytes) := none
  refreshed : List (Bytes × Bytes) := []
  listed : List Bytes := []
  locked : List Bytes := []

structure ReaperSystem extends GroupSystem where
  clock : ℤ := 0
  passes : List ExpiryPass := []

/-- The members that a step makes join, come back or send an accepted heartbeat. -/
def Action.refreshes (s : GroupSystem) : Action → List (Bytes × Bytes)
  | .joinGroup call env =>
    let res := (s.coordinator.joinGroup s.mgr call.groupId call.memberId call.sessionTimeoutMs
      call.topics (strategyOf call.strategy) env).1
    if res.errorCode = 0 then [(call.groupId, res.memberId)] else []
  | .heartbeat groupId memberId generation env =>
    if (s.coordinator.heartbeat groupId memberId generation env).1.errorCode = 0 then
      [(groupId, memberId)]
    else []
  | _ => []

def Action.isExpire : Action → Bool
  | .expire _ _ => true
  | _ => false

inductive ReaperAction where
  | elapse (ns : ℕ)
  | call (a : Action)
  | beginPass
  | listGroups (pass : ExpiryPass)
  | lockGroup (pass : ExpiryPass) (groupId : Bytes)
  | endPass (pass : ExpiryPass)

/-- The steps of the callers, and those of any number of passes beside them. -/
inductive ReaperStep (s : ReaperSystem) : ReaperAction → ReaperSystem → Prop where
  | elapse (ns : ℕ) : ReaperStep s (.elapse ns) { s with clock := s.clock + ns }
  | call {a : Action} {s' : GroupSystem} : a.isExpire = false → a.ReadsClock s.clock →
      Step s.toGroupSystem a s' → ReaperStep s (.call a) { s with
        toGroupSystem := s'
        passes := s.passes.map fun p =>
          { p with refreshed := p.refreshed ++ a.refreshes s.toGroupSystem } }
  | beginPass : ReaperStep s .beginPass { s with passes := { now := s.clock } :: s.passes }
  | listGroups {pass : ExpiryPass} {pre post : List ExpiryPass} : s.passes = pre ++ pass :: post →
      pass.groups = none → ReaperStep s (.listGroups pass) { s with
        passes := pre ++ { pass with
          groups := some s.coordinator.groups.keys
          listed := s.coordinator.groups.keys } :: post }
  | lockGroup {pass : ExpiryPass} {pre post : List ExpiryPass} {groupId : Bytes}
      {rest : List Bytes} :
      s.passes = pre ++ pass :: post → pass.groups = some (groupId :: rest) →
      ReaperStep s (.lockGroup pass groupId) { s with
        coordinator := (expireLoop s.mgr pass.now [groupId] s.coordinator).2
        passes := pre ++ { pass with
          groups := some rest
          locked := pass.locked ++ [groupId] } :: post }
  | endPass {pass : ExpiryPass} {pre post : List ExpiryPass} : s.passes = pre ++ pass :: post →
      pass.groups = some [] → ReaperStep s (.endPass pass) { s with passes := pre ++ post }

def ReaperInit (s : ReaperSystem) : Prop := Init s.toGroupSystem ∧ s.passes = []

def ReaperReachable : ReaperSystem → Prop := Reach ReaperInit ReaperStep fun _ _ => True

def ReaperSteps : ReaperSystem → ReaperSystem → Prop :=
  Relation.ReflTransGen fun s s' => ∃ a, ReaperStep s a s'

/-! ## Refreshed members -/

theorem seenSince_insert {counter : UInt64}
    (h : ∀ m, g.members.lookup memberId = some m → m.lastHeartbeat = now) :
    SeenSince { c with memberCounter := counter, groups := c.groups.insert groupId g } now groupId
      memberId := by
  intro g' m hg' hm
  simp only [AList.lookup_insert, Option.some.injEq] at hg'
  subst hg'
  exact (h m hm).ge

theorem lastHeartbeat_rebalance
    (h : ∀ m, g.members.lookup memberId = some m → m.lastHeartbeat = now) :
    ∀ m, (rebalanceUnlocked mgr g).members.lookup memberId = some m → m.lastHeartbeat = now := by
  unfold rebalanceUnlocked
  split
  · exact h
  · intro m hm
    rw [AssocMap.lookup_mapValues] at hm
    obtain ⟨m', hm', rfl⟩ := Option.map_eq_some_iff.mp hm
    exact h m' hm'

theorem seenSince_joinGroup {env : Env}
    (h : (c.joinGroup mgr groupId memberId sessionTimeoutMs topics strategy env).1.errorCode = 0) :
    (c.joinGroup mgr groupId memberId sessionTimeoutMs topics strategy env).2.SeenSince env.clock
      groupId (c.joinGroup mgr groupId memberId sessionTimeoutMs topics strategy
        env).1.memberId := by
  have hfresh : ∀ (g : Group) (id : Bytes) (m₀ m : MemberMetadata), m₀.lastHeartbeat = env.clock →
      (g.members.insert id m₀).lookup id = some m → m.lastHeartbeat = env.clock := by
    intro g id m₀ m hm₀ hm
    rw [AList.lookup_insert] at hm
    cases hm
    exact hm₀
  have houtcome := joinOutcome c mgr groupId memberId sessionTimeoutMs topics strategy env
  generalize c.joinGroup mgr groupId memberId sessionTimeoutMs topics strategy env = res
    at houtcome h ⊢
  cases houtcome with
  | refused hcode => exact absurd h hcode
  | subscribed _ _ hcode => exact absurd h hcode
  | @added _ g' _ _ _ _ _ _ _ hg₁ =>
    rw [hg₁]
    exact seenSince_insert (lastHeartbeat_rebalance fun m hm => hfresh g' _ _ m rfl hm)
  | @refreshed g _ _ _ _ _ hg₁ =>
    rw [hg₁]
    exact seenSince_insert fun m' hm' => hfresh g _ _ m' rfl hm'

theorem seenSince_heartbeat {generation : UInt32} {env : Env}
    (h : (c.heartbeat groupId memberId generation env).1.errorCode = 0) :
    (c.heartbeat groupId memberId generation env).2.SeenSince env.clock groupId memberId := by
  unfold heartbeat at h ⊢
  rcases hg : c.groups.lookup groupId with _ | g
  · rw [hg] at h
    exact absurd h (show ErrorCode.UNKNOWN_GROUP_OR_MEMBER ≠ 0 by decide)
  · simp only [hg] at h ⊢
    rcases hm : g.members.lookup memberId with _ | m
    · simp only [hm] at h
      exact absurd h (show ErrorCode.UNKNOWN_GROUP_OR_MEMBER ≠ 0 by decide)
    · simp only [hm] at h ⊢
      split at h
      · exact absurd h (show ErrorCode.ILLEGAL_GENERATION ≠ 0 by decide)
      · rename_i hgeneration
        rw [if_neg hgeneration]
        refine seenSince_insert fun m' hm' => ?_
        rw [AList.lookup_insert] at hm'
        cases hm'
        rfl

theorem Step.refreshes (h : Step s a s') (hclock : a.ReadsClock clock) :
    ∀ k ∈ a.refreshes s, s'.coordinator.SeenSince clock k.1 k.2 := by
  intro k hk
  cases h with
  | @joinGroup call pre post env hpending =>
    obtain rfl : env.clock = clock := hclock
    simp only [Action.refreshes] at hk
    split at hk
    · rename_i hok
      rw [List.mem_singleton.mp hk]
      exact seenSince_joinGroup hok
    · cases hk
  | heartbeat groupId memberId generation env =>
    obtain rfl : env.clock = clock := hclock
    simp only [Action.refreshes] at hk
    split at hk
    · rename_i hok
      rw [List.mem_singleton.mp hk]
      exact seenSince_heartbeat hok
    · cases hk
  | _ => cases hk

/-! ## Runs with a reaper -/

/-- What a pass has listed is what it has locked and what it has still to lock. -/
structure ExpiryPass.InOrder (p : ExpiryPass) : Prop where
  once : p.listed.Nodup
  split : ∀ rest, p.groups = some rest → p.locked ++ rest = p.listed
  unlisted : p.groups = none → p.locked = []

structure ReaperInv (s : ReaperSystem) : Prop where
  bounds : InBounds s.toGroupSystem
  past : ∀ p ∈ s.passes, p.now ≤ s.clock
  inOrder : ∀ p ∈ s.passes, p.InOrder
  seen : ∀ p ∈ s.passes, ∀ k ∈ p.refreshed, s.coordinator.SeenSince p.now k.1 k.2

theorem SeenSince.mono {now' : ℤ} (h : c.SeenSince now groupId memberId) (hle : now' ≤ now) :
    c.SeenSince now' groupId memberId :=
  fun g m hg hm => hle.trans (h g m hg hm)

variable {s s' : ReaperSystem} {pass : ExpiryPass}

theorem passes_replace {pass' : ExpiryPass} {pre post : List ExpiryPass}
    (hpasses : s.passes = pre ++ pass :: post) (hnow : pass.now = pass'.now)
    (hrefreshed : pass.refreshed = pass'.refreshed) :
    ∀ p ∈ pre ++ pass' :: post, ∃ q ∈ s.passes, q.now = p.now ∧ q.refreshed = p.refreshed := by
  intro p hp
  rw [hpasses]
  rcases List.mem_append.mp hp with hp | hp
  · exact ⟨p, List.mem_append_left _ hp, rfl, rfl⟩
  · rcases List.mem_cons.mp hp with rfl | hp
    · exact ⟨pass, List.mem_append_right _ (List.mem_cons_self ..), hnow, hrefreshed⟩
    · exact ⟨p, List.mem_append_right _ (List.mem_cons_of_mem _ hp), rfl, rfl⟩

theorem inOrder_replace {pass' : ExpiryPass} {pre post : List ExpiryPass}
    (hpasses : s.passes = pre ++ pass :: post) (h : ∀ p ∈ s.passes, p.InOrder)
    (hpass : pass.InOrder → pass'.InOrder) : ∀ p ∈ pre ++ pass' :: post, p.InOrder := by
  rw [hpasses, List.forall_mem_append, List.forall_mem_cons] at h
  rw [List.forall_mem_append, List.forall_mem_cons]
  exact ⟨h.1, hpass h.2.1, h.2.2⟩

theorem ReaperInv.of_passes (h : ReaperInv s) (hbounds : InBounds s'.toGroupSystem)
    (hclock : s'.clock = s.clock)
    (hs : Section s.clock s.OfferedTimeout s.coordinator s'.coordinator)
    (hpasses : ∀ p ∈ s'.passes, ∃ q ∈ s.passes, q.now = p.now ∧ q.refreshed = p.refreshed)
    (horder : ∀ p ∈ s'.passes, p.InOrder) : ReaperInv s' := by
  refine ⟨hbounds, ?_, horder, ?_⟩
  · intro p hp
    obtain ⟨q, hq, hnow, -⟩ := hpasses p hp
    rw [hclock, ← hnow]
    exact h.past q hq
  · intro p hp k hk
    obtain ⟨q, hq, hnow, hrefreshed⟩ := hpasses p hp
    rw [← hrefreshed] at hk
    rw [← hnow]
    exact (h.seen q hq k hk).section hs (h.past q hq)

theorem ReaperInv.step {s s' : ReaperSystem} {a : ReaperAction} (h : ReaperInv s)
    (hstep : ReaperStep s a s') : ReaperInv s' := by
  cases hstep with
  | elapse ns =>
    exact ⟨h.bounds, fun p hp => (h.past p hp).trans (Int.le_add_of_nonneg_right ns.cast_nonneg),
      h.inOrder, h.seen⟩
  | @call a s' hcall hclock hstep =>
    refine ⟨h.bounds.step hstep hclock, ?_, ?_, ?_⟩
    · intro p hp
      obtain ⟨q, hq, rfl⟩ := List.mem_map.mp hp
      exact h.past q hq
    · intro p hp
      obtain ⟨q, hq, rfl⟩ := List.mem_map.mp hp
      obtain ⟨honce, hsplit, hunlisted⟩ := h.inOrder q hq
      exact ⟨honce, hsplit, hunlisted⟩
    · intro p hp k hk
      obtain ⟨q, hq, rfl⟩ := List.mem_map.mp hp
      rcases List.mem_append.mp hk with hk | hk
      · exact (h.seen q hq k hk).section (hstep.section hclock) (h.past q hq)
      · exact (hstep.refreshes hclock k hk).mono (h.past q hq)
  | beginPass =>
    refine ⟨h.bounds, ?_, ?_, ?_⟩
    · intro p hp
      rcases List.mem_cons.mp hp with rfl | hp
      · exact le_rfl
      · exact h.past p hp
    · intro p hp
      rcases List.mem_cons.mp hp with rfl | hp
      · exact ⟨List.nodup_nil, nofun, fun _ => rfl⟩
      · exact h.inOrder p hp
    · intro p hp
      rcases List.mem_cons.mp hp with rfl | hp
      · nofun
      · exact h.seen p hp
  | @listGroups pass pre post hpasses hnone =>
    refine h.of_passes h.bounds rfl (.refl _ _ _) (passes_replace hpasses rfl rfl)
      (inOrder_replace hpasses h.inOrder fun horder => ?_)
    refine ⟨s.coordinator.groups.keys_nodup, ?_, nofun⟩
    rintro rest ⟨⟩
    rw [horder.unlisted hnone, List.nil_append]
  | @lockGroup pass pre post groupId rest hpasses hgroups =>
    have hstep : Step s.toGroupSystem (.expire groupId pass.now) _ := .expire groupId pass.now
    have hclock : Action.ReadsClock s.clock (.expire groupId pass.now) := trivial
    refine h.of_passes (h.bounds.step hstep hclock) rfl (hstep.section hclock)
      (passes_replace hpasses rfl rfl) (inOrder_replace hpasses h.inOrder fun horder => ?_)
    refine ⟨horder.once, ?_, nofun⟩
    rintro _ ⟨⟩
    rw [List.append_assoc, List.singleton_append]
    exact horder.split _ hgroups
  | @endPass pass pre post hpasses _ =>
    have hsub : ∀ p ∈ pre ++ post, p ∈ s.passes := by
      intro p hp
      rw [hpasses]
      rcases List.mem_append.mp hp with hp | hp
      · exact List.mem_append_left _ hp
      · exact List.mem_append_right _ (List.mem_cons_of_mem _ hp)
    exact h.of_passes h.bounds rfl (.refl _ _ _) (fun p hp => ⟨p, hsub p hp, rfl, rfl⟩)
      fun p hp => h.inOrder p (hsub p hp)

theorem ReaperReachable.inv {s : ReaperSystem} (h : ReaperReachable s) : ReaperInv s := by
  refine Reach.invariant ?_ (fun _ _ _ hinv _ hstep => hinv.step hstep) h
  rintro s ⟨⟨-, hgroups, hpending⟩, hpasses⟩
  refine ⟨⟨⟨?_, ?_⟩, ?_⟩, ?_, ?_, ?_⟩
  · rw [hgroups]
    exact Nat.zero_le _
  · intro id g hg
    rw [hgroups] at hg
    cases hg
  · rintro t ⟨e, he, -⟩
    rw [hpending] at he
    cases he
  · rw [hpasses]
    nofun
  · rw [hpasses]
    nofun
  · intro p hp
    rw [hpasses] at hp
    cases hp

/-! ## What a pass removes -/

/-- The members that a pass with this clock value finds expired. -/
def ExpiredAt (now : ℤ) (m : MemberMetadata) : Prop :=
  (m.sessionTimeoutMs.toNat : ℤ) < toMillis (now - m.lastHeartbeat)

theorem mem_expiredIds :
    memberId ∈ expiredIds now g ↔ ∃ m, g.members.lookup memberId = some m ∧ ExpiredAt now m := by
  unfold expiredIds
  rw [List.mem_map]
  constructor
  · rintro ⟨⟨id, m⟩, he, rfl⟩
    obtain ⟨he, hexpired⟩ := List.mem_filter.mp he
    exact ⟨m, AssocMap.lookup_of_mem he, by simpa [isExpired, ExpiredAt] using hexpired⟩
  · rintro ⟨m, hm, hexpired⟩
    refine ⟨⟨memberId, m⟩, List.mem_filter.mpr ⟨AList.mem_lookup_iff.mp hm, ?_⟩, rfl⟩
    simpa [isExpired, ExpiredAt] using hexpired

/-- **One group**: exactly the expired members are gone. -/
theorem mem_expireGroup (mgr : TopicManager) (now : ℤ) (g : Group) (memberId : Bytes) :
    memberId ∈ (expireGroup mgr now g).2.members ↔
      ∃ m, g.members.lookup memberId = some m ∧ ¬ ExpiredAt now m := by
  have hremoved : memberId ∈ (expireGroup mgr now g).2.members ↔
      memberId ∈ g.members ∧ memberId ∉ expiredIds now g := by
    unfold expireGroup
    simp only
    split
    · rename_i hnone
      rw [List.isEmpty_iff.mp hnone]
      simp
    · rw [mem_afterRemoval, mem_foldl_erase]
  rw [hremoved, mem_expiredIds, ← AList.lookup_isSome, Option.isSome_iff_exists]
  constructor
  · rintro ⟨⟨m, hm⟩, hnot⟩
    exact ⟨m, hm, fun hexpired => hnot ⟨m, hm, hexpired⟩⟩
  · rintro ⟨m, hm, hnot⟩
    refine ⟨⟨m, hm⟩, ?_⟩
    rintro ⟨m', hm', hexpired⟩
    cases hm.symm.trans hm'
    exact hnot hexpired

theorem not_expiredAt {m : MemberMetadata} (h : now ≤ m.lastHeartbeat) : ¬ ExpiredAt now m := by
  have hneg : toMillis (now - m.lastHeartbeat) ≤ 0 := by
    have hpos : 0 ≤ (-(now - m.lastHeartbeat)).tdiv 1000000 :=
      Int.tdiv_nonneg (by omega) (by decide)
    rw [Int.neg_tdiv] at hpos
    exact Int.neg_nonneg.mp hpos
  exact not_lt_of_ge (hneg.trans (Int.natCast_nonneg _))

/-- **The section of a pass under the lock of one group.** -/
structure ExpiresExactly (pass : ExpiryPass) (groupId : Bytes) (c c' : GroupCoordinator) :
    Prop where
  members : ∀ g, c.groups.lookup groupId = some g → ∃ g', c'.groups.lookup groupId = some g' ∧
    ∀ memberId, memberId ∈ g'.members ↔
      ∃ m, g.members.lookup memberId = some m ∧ ¬ ExpiredAt pass.now m
  others : ∀ id, id ≠ groupId → c'.groups.lookup id = c.groups.lookup id
  refreshed : ∀ g g' memberId, c.groups.lookup groupId = some g →
    c'.groups.lookup groupId = some g' →
    (groupId, memberId) ∈ pass.refreshed → memberId ∈ g.members → memberId ∈ g'.members

theorem lookup_expireLoop (mgr : TopicManager) (now : ℤ) (ids : List Bytes) (id : Bytes) :
    ∀ c : GroupCoordinator, ids.Nodup → (expireLoop mgr now ids c).2.groups.lookup id =
      if id ∈ ids then (c.groups.lookup id).map fun g => (expireGroup mgr now g).2
      else c.groups.lookup id := by
  induction ids with
  | nil => exact fun _ _ => rfl
  | cons groupId rest ih =>
    intro c hnodup
    obtain ⟨hnot, hrest⟩ := List.nodup_cons.mp hnodup
    unfold expireLoop
    cases hg : c.groups.lookup groupId with
    | none =>
      simp only [ih c hrest, List.mem_cons]
      by_cases hid : id = groupId
      · subst hid
        simp [hg]
      · simp [hid]
    | some g =>
      simp only [ih _ hrest, List.mem_cons, AssocMap.lookup_insert_eq]
      by_cases hid : id = groupId
      · subst hid
        simp [hg, hnot]
      · simp [hid]

/-- **A call of `expire_members`** that nothing comes between. -/
structure ExpiresAll (now : ℤ) (c c' : GroupCoordinator) : Prop where
  groups : ∀ id, id ∈ c'.groups ↔ id ∈ c.groups
  members : ∀ id g g', c.groups.lookup id = some g → c'.groups.lookup id = some g' →
    ∀ memberId, memberId ∈ g'.members ↔ ∃ m, g.members.lookup memberId = some m ∧ ¬ ExpiredAt now m

theorem expiresAll_expireMembers (c : GroupCoordinator) (mgr : TopicManager) (env : Env) :
    ExpiresAll env.clock c (c.expireMembers mgr env).2 := by
  have hlookup : ∀ id, (c.expireMembers mgr env).2.groups.lookup id =
      (c.groups.lookup id).map fun g => (expireGroup mgr env.clock g).2 := by
    intro id
    refine (lookup_expireLoop mgr env.clock _ id c c.groups.keys_nodup).trans ?_
    split
    · rfl
    · rename_i hnot
      rw [AList.lookup_eq_none.mpr hnot]
      rfl
  refine ⟨?_, ?_⟩
  · intro id
    rw [← AList.lookup_isSome, ← AList.lookup_isSome, hlookup, Option.isSome_map]
  · intro id g g' hg hg'
    rw [hlookup, hg, Option.map_some, Option.some.injEq] at hg'
    subst hg'
    exact mem_expireGroup mgr env.clock g

theorem expireLoop_cons (mgr : TopicManager) (now : ℤ) (id : Bytes) (rest : List Bytes)
    (c : GroupCoordinator) : (expireLoop mgr now (id :: rest) c).2 =
      (expireLoop mgr now rest (expireLoop mgr now [id] c).2).2 := by
  cases hg : c.groups.lookup id with
  | none => simp only [expireLoop, hg]
  | some g => simp only [expireLoop, hg]

/-- The loop of a pass, by induction on the groups it has still to lock. -/
theorem steps_expireLoop (ids : List Bytes) : ∀ (s : ReaperSystem) (pass : ExpiryPass)
    (post : List ExpiryPass), s.passes = pass :: post → pass.groups = some ids →
    ReaperSteps s { s with
      coordinator := (expireLoop s.mgr pass.now ids s.coordinator).2
      passes := post } := by
  induction ids with
  | nil =>
    intro s pass post hpasses hgroups
    exact .single ⟨_, @ReaperStep.endPass s pass [] post hpasses hgroups⟩
  | cons id rest ih =>
    intro s pass post hpasses hgroups
    rw [expireLoop_cons]
    exact .head ⟨_, @ReaperStep.lockGroup s pass [] post id rest hpasses hgroups⟩
      (ih _ { pass with groups := some rest, locked := pass.locked ++ [id] } post rfl rfl)

theorem steps_expireMembers (s : ReaperSystem) (env : Env) (hclock : env.clock = s.clock) :
    ReaperSteps s { s with coordinator := (s.coordinator.expireMembers s.mgr env).2 } := by
  have hlist := @ReaperStep.listGroups { s with passes := { now := s.clock } :: s.passes }
    { now := s.clock } [] s.passes rfl rfl
  set keys := s.coordinator.groups.keys
  let pass : ExpiryPass := { now := s.clock, groups := some keys, listed := keys }
  have hloop := steps_expireLoop keys { s with passes := pass :: s.passes } pass s.passes rfl rfl
  unfold expireMembers
  rw [hclock]
  exact .head ⟨_, .beginPass⟩ (.head ⟨_, hlist⟩ hloop)

theorem ReaperInv.expiresExactly (h : ReaperInv s)
    (hstep : ReaperStep s (.lockGroup pass groupId) s') :
    ExpiresExactly pass groupId s.coordinator s'.coordinator := by
  cases hstep with
  | @lockGroup _ pre post _ rest hpasses _ =>
    have hpass : pass ∈ s.passes := by
      rw [hpasses]
      exact List.mem_append_right _ (List.mem_cons_self ..)
    have hlookup := fun id => lookup_expireLoop s.mgr pass.now [groupId] id s.coordinator
      (List.nodup_singleton _)
    have hexact : ∀ g, s.coordinator.groups.lookup groupId = some g →
        (expireLoop s.mgr pass.now [groupId] s.coordinator).2.groups.lookup groupId =
          some (expireGroup s.mgr pass.now g).2 := by
      intro g hg
      rw [hlookup, if_pos (List.mem_singleton_self _), hg]
      rfl
    refine ⟨?_, ?_, ?_⟩
    · intro g hg
      exact ⟨_, hexact g hg, mem_expireGroup s.mgr pass.now g⟩
    · intro id hid
      exact (hlookup id).trans (if_neg (by rwa [List.mem_singleton]))
    · intro g g' memberId hg hg' hrefreshed hmem
      cases (hexact g hg).symm.trans hg'
      obtain ⟨m, hm⟩ := Option.isSome_iff_exists.mp (AList.lookup_isSome.mpr hmem)
      have hseen := h.seen pass hpass (groupId, memberId) hrefreshed g m hg hm
      exact (mem_expireGroup ..).mpr ⟨m, hm, not_expiredAt hseen⟩

theorem ReaperInv.locked_eq (h : ReaperInv s) (hstep : ReaperStep s (.endPass pass) s') :
    pass.locked = pass.listed ∧ pass.listed.Nodup := by
  cases hstep with
  | @endPass _ pre post hpasses hgroups =>
    have hmem : pass ∈ s.passes := by
      rw [hpasses]
      exact List.mem_append_right _ (List.mem_cons_self ..)
    have horder := h.inOrder pass hmem
    have hsplit := horder.split [] hgroups
    rw [List.append_nil] at hsplit
    exact ⟨hsplit, horder.once⟩

/-- **The registry invariant and exact expiry**, whatever calls and passes come between each
other: a pass that locks a group removes exactly the members that have expired by the clock
value it has read, none of which was refreshed since, and it ends when it has locked each
group it listed, once. A call of `expire_members` is such a pass. -/
theorem registry_bounds_and_expiry {s : ReaperSystem} (h : ReaperReachable s) :
    s.coordinator.RegistryBounds ∧
      (∀ pass groupId s', ReaperStep s (.lockGroup pass groupId) s' →
        ExpiresExactly pass groupId s.coordinator s'.coordinator) ∧
      (∀ pass s', ReaperStep s (.endPass pass) s' → pass.locked = pass.listed ∧ pass.listed.Nodup) ∧
      ∀ env : Env, env.clock = s.clock →
        let c' := (s.coordinator.expireMembers s.mgr env).2
        ReaperSteps s { s with coordinator := c' } ∧ ExpiresAll env.clock s.coordinator c' := by
  have hinv := h.inv
  refine ⟨hinv.bounds.registry, ?_, ?_, ?_⟩
  · exact fun pass groupId s' hstep => hinv.expiresExactly hstep
  · exact fun pass s' hstep => hinv.locked_eq hstep
  · intro env hclock
    exact ⟨steps_expireMembers s env hclock, expiresAll_expireMembers s.coordinator s.mgr env⟩

/-- The state after a first join and 20 seconds, when a pass has listed the groups. -/
def beforeExpiry : ReaperSystem where
  mgr := oneTopic
  coordinator := afterFirstJoin [ascii "t"]
  store := {}
  clock := 20 * 10 ^ 9
  passes := [{ now := 20 * 10 ^ 9, groups := some [ascii "g"], listed := [ascii "g"] }]

theorem ReaperReachable.call {s s' : GroupSystem} {a : Action}
    (h : ReaperReachable ⟨s, clock, []⟩) (hstep : Step s a s') (hcall : a.isExpire = false)
    (hclock : a.ReadsClock clock) : ReaperReachable ⟨s', clock, []⟩ :=
  Reach.step h trivial (.call hcall hclock hstep)

theorem reachable_beforeExpiry : ReaperReachable beforeExpiry := by
  have hempty : TopicsFit { config := {} } := by
    intro name t ht
    cases ht
  have hinit : ReaperReachable ⟨⟨{ config := {} }, {}, {}, []⟩, 0, []⟩ :=
    .init ⟨⟨hempty, rfl, rfl⟩, rfl⟩
  have htopic := hinit.call (.storage (extends_createTopic _ (ascii "t") 1 0 0 0)) rfl trivial
  have hchecked := htopic.call (@Step.joinCheck _ (firstJoin [ascii "t"]) rfl) rfl trivial
  have hlocated := hchecked.call
    (@Step.joinLookup _ (firstJoin [ascii "t"]) [] [] _ rfl rfl) rfl trivial
  have hjoined := hlocated.call (@Step.joinGroup _ (firstJoin [ascii "t"]) [] [] {} rfl) rfl rfl
  have hlater := Reach.step hjoined trivial (.elapse (20 * 10 ^ 9))
  have hbegun := hlater.step trivial .beginPass
  exact hbegun.step trivial (@ReaperStep.listGroups _ { now := 20 * 10 ^ 9 } [] [] rfl rfl)

/-- The member of the first join has missed its session timeout of 10 seconds. -/
theorem registry_bounds_and_expiry_first_join :
    (afterFirstJoin [ascii "t"]).RegistryBounds ∧
      ExpiresExactly { now := 20 * 10 ^ 9, groups := some [ascii "g"], listed := [ascii "g"] }
        (ascii "g") (afterFirstJoin [ascii "t"])
        (expireLoop oneTopic (20 * 10 ^ 9) [ascii "g"] (afterFirstJoin [ascii "t"])).2 ∧
      ExpiresAll (20 * 10 ^ 9) (afterFirstJoin [ascii "t"])
        ((afterFirstJoin [ascii "t"]).expireMembers oneTopic { clock := 20 * 10 ^ 9 }).2 := by
  obtain ⟨hbounds, hexpires, -, hcall⟩ := registry_bounds_and_expiry reachable_beforeExpiry
  refine ⟨hbounds, ?_, (hcall { clock := 20 * 10 ^ 9 } rfl).2⟩
  exact hexpires _ _ _ (@ReaperStep.lockGroup beforeExpiry _ [] [] (ascii "g") [] rfl rfl)

end GroupCoordinator

end StreamForge
