import StreamForge.Broker.Fencing

/-!
# Generations

A generation of a group stands for one assignment. The counter goes up with
every section that changes the members (`GroupChange.generation`), and the
other sections leave members and assignments as they are
(`GroupChange.assignments`), also those that give an empty group new topics.

At every moment the assignments are what the assignor makes of the sorted
members and the topics (`Balanced`). They depend on nothing else, neither on
the order of the joins nor on that of the hash map.
-/

namespace StreamForge

open Transition

namespace GroupCoordinator

/-! ## What a generation stands for -/

/-- The counter of a group; groups start at 0. -/
def generationOf (group : Option Group) : UInt32 := (group.map Group.generation).getD 0

def assignmentOf (group : Option Group) (id : Bytes) : Option (List TopicPartition) :=
  group.bind fun g => (g.members.lookup id).map MemberMetadata.assignment

theorem rebalanceUnlocked_generation (mgr : TopicManager) (g : Group) :
    (rebalanceUnlocked mgr g).generation = g.generation := by
  unfold rebalanceUnlocked
  split <;> rfl

theorem afterRemoval_generation (mgr : TopicManager) (g : Group) :
    (afterRemoval mgr g).generation = g.generation + 1 := by
  unfold afterRemoval
  simp only
  split
  · rfl
  · rw [rebalanceUnlocked_generation]

variable {g g' : Group} {topics : List Bytes} {strategy : AssignorStrategy} {mgr : TopicManager}
    {s : CallSystem}

theorem subscribe_generation (h : subscribe g topics strategy = .ok g') :
    g'.generation = g.generation := by
  obtain ⟨-, rfl⟩ | ⟨-, -, -, rfl⟩ := subscribe_cases h <;> rfl

section Change

variable {mgr : TopicManager} {offered : List Bytes → Prop} {k k' : UInt64} {groupId : Bytes}
  {og og' : Option Group}

/-- **The generation counts the changes of members.** -/
theorem GroupChange.generation {flag : Bool}
    (h : GroupChange mgr offered k k' groupId flag og og') :
    generationOf og' = generationOf og + if flag = true then 1 else 0 := by
  cases h with
  | same _ => simp
  | created _ _ => simp [generationOf]
  | subscribed _ _ _ => simp [generationOf]
  | joined member rand _ hsub _ =>
    simp only [generationOf, Option.map_some, Option.getD_some, if_true]
    rw [rebalanceUnlocked_generation, subscribe_generation hsub]
  | refreshed _ _ => simp [generationOf]
  | removed id _ _ _ =>
    simp only [generationOf, Option.map_some, Option.getD_some, if_true]
    rw [afterRemoval_generation]

/-- **Without such a change nobody's assignment changes.** -/
theorem GroupChange.assignments (h : GroupChange mgr offered k k' groupId false og og')
    (id : Bytes) : assignmentOf og' id = assignmentOf og id := by
  cases h with
  | same _ => rfl
  | created _ _ => rfl
  | subscribed _ _ _ => rfl
  | @refreshed g id' m m' hm hsame =>
    simp only [assignmentOf, Option.bind_some, AssocMap.lookup_insert_eq]
    split
    · rename_i hid
      rw [hid, hm, Option.map_some, Option.map_some, hsame]
    · rfl

end Change

/-! ## Assignments are those of the assignor -/

theorem sortedMembers_congr (h : ∀ id, id ∈ g.members ↔ id ∈ g'.members) :
    sortedMembers g = sortedMembers g' := by
  have hperm : g.members.keys.Perm g'.members.keys := by
    rw [List.perm_ext_iff_of_nodup g.members.keys_nodup g'.members.keys_nodup]
    exact h
  exact List.Perm.eq_of_pairwise' (List.pairwise_insertionSort _ _)
    (List.pairwise_insertionSort _ _)
    ((List.perm_insertionSort _ _).trans (hperm.trans (List.perm_insertionSort _ _).symm))

/-- **The assignments of a group with members.** -/
structure Balanced (mgr : TopicManager) (g : Group) : Prop where
  known : ∀ t ∈ g.subscribedTopics, (mgr.getTopic t).isSome = true
  assigned : ∀ id m, g.members.lookup id = some m → m.assignment =
    Assignor.assign g.strategy (sortedMembers g) (topicPartitions mgr g.subscribedTopics) id

section Balance

variable {mgr : TopicManager} {g : Group}

theorem balanced_rebalance (hknown : ∀ t ∈ g.subscribedTopics, (mgr.getTopic t).isSome = true)
    (hne : (rebalanceUnlocked mgr g).members.entries ≠ []) :
    Balanced mgr (rebalanceUnlocked mgr g) := by
  have hmembers : ∀ id, id ∈ (rebalanceUnlocked mgr g).members ↔ id ∈ g.members :=
    fun id => mem_rebalanceUnlocked
  have hsorted := sortedMembers_congr hmembers
  unfold rebalanceUnlocked at hne hsorted ⊢
  split at hne
  · rename_i hempty
    exact absurd (List.isEmpty_iff.mp hempty) hne
  · rename_i hempty
    rw [if_neg hempty] at hsorted ⊢
    refine ⟨hknown, fun id m hm => ?_⟩
    rw [hsorted]
    rw [AssocMap.lookup_mapValues, Option.map_eq_some_iff] at hm
    obtain ⟨m', -, rfl⟩ := hm
    rfl

theorem Balanced.refresh (h : Balanced mgr g) {id : Bytes} {m m' : MemberMetadata}
    (hm : g.members.lookup id = some m) (hsame : m'.assignment = m.assignment) :
    Balanced mgr { g with members := g.members.insert id m' } := by
  have hmembers : ∀ x, x ∈ g.members.insert id m' ↔ x ∈ g.members := by
    intro x
    rw [AList.mem_insert]
    refine ⟨?_, Or.inr⟩
    rintro (rfl | hx)
    · exact AList.lookup_isSome.mp (by rw [hm]; rfl)
    · exact hx
  have hsorted : sortedMembers { g with members := g.members.insert id m' } = sortedMembers g :=
    sortedMembers_congr hmembers
  refine ⟨h.known, fun x mx hx => ?_⟩
  rw [hsorted]
  simp only [AssocMap.lookup_insert_eq] at hx
  split at hx
  · rename_i hid
    cases hx
    rw [hid, hsame]
    exact h.assigned id m hm
  · exact h.assigned x mx hx

theorem Balanced.extends {mgr' : TopicManager} (h : Balanced mgr g) (hext : Extends mgr mgr') :
    Balanced mgr' g := by
  refine ⟨known_kept hext.kept h.known, ?_⟩
  rw [topicPartitions_kept hext.kept h.known]
  exact h.assigned

end Balance

def BalancedGroup (mgr : TopicManager) (group : Option Group) : Prop :=
  ∀ g, group = some g → g.members.entries ≠ [] → Balanced mgr g

theorem known_of_subscribe (h : BalancedGroup mgr (some g))
    (hknown : ∀ t ∈ topics, (mgr.getTopic t).isSome = true)
    (hsub : subscribe g topics strategy = .ok g') :
    ∀ t ∈ g'.subscribedTopics, (mgr.getTopic t).isSome = true := by
  obtain ⟨-, rfl⟩ | ⟨hne, -, -, rfl⟩ := subscribe_cases hsub
  · exact hknown
  · exact (h g' rfl hne).known

theorem GroupChange.balanced {offered : List Bytes → Prop} {k k' : UInt64} {groupId : Bytes}
    {flag : Bool} {og og' : Option Group} (h : GroupChange mgr offered k k' groupId flag og og')
    (hbalanced : BalancedGroup mgr og)
    (hoffered : ∀ topics, offered topics → ∀ t ∈ topics, (mgr.getTopic t).isSome = true) :
    BalancedGroup mgr og' := by
  intro g' hg' hne
  cases h with
  | same _ => exact hbalanced g' hg' hne
  | created _ _ =>
    cases hg'
    exact absurd rfl hne
  | subscribed _ _ hempty =>
    cases hg'
    exact absurd hempty hne
  | joined member rand htopics hsub _ =>
    cases hg'
    have hknown := known_of_subscribe hbalanced (hoffered _ htopics) hsub
    exact balanced_rebalance hknown hne
  | refreshed hm hsame =>
    cases hg'
    exact (hbalanced _ rfl (AssocMap.ne_nil_of_lookup hm)).refresh hm hsame
  | @removed g members id _ hid _ =>
    cases hg'
    have hold : Balanced mgr g := hbalanced g rfl (AssocMap.ne_nil_of_mem hid)
    unfold afterRemoval at hne ⊢
    simp only at hne ⊢
    split at hne
    · rename_i hempty
      exact absurd (List.isEmpty_iff.mp hempty) hne
    · rename_i hempty
      rw [if_neg hempty]
      exact balanced_rebalance hold.known hne

structure BalanceInv (s : CallSystem) : Prop where
  groups : ∀ id, BalancedGroup s.mgr (s.coordinator.groups.lookup id)
  pending : ∀ e ∈ s.pending, ∀ t ∈ e.1.topics, (s.mgr.getTopic t).isSome = true

theorem CallStep.extends {s' : CallSystem} {a : CallAction} (h : CallStep s a s') :
    Extends s.mgr s'.mgr := by
  cases h with
  | other _ hstep => exact hstep.extends
  | commitSection env _ => exact extends_commitSection _ _ _ _ _ _ _
  | _ => exact Extends.refl _

theorem BalanceInv.step {s s' : CallSystem} {a : CallAction} (h : BalanceInv s)
    (hstep : CallStep s a s') : BalanceInv s' := by
  have hext := hstep.extends
  constructor
  · intro id g hg hne
    have hoffered : ∀ topics, s.Offered topics → ∀ t ∈ topics,
      (s.mgr.getTopic t).isSome = true := by
      rintro topics ⟨e, he, rfl⟩
      exact h.pending e he
    exact ((hstep.changes.group id).balanced (h.groups id) hoffered g hg hne).extends hext
  · cases hstep with
    | other _ hstep => exact hstep.pending_known h.pending
    | commitCheck _ => exact h.pending
    | commitLookup _ => exact h.pending
    | commitSection _ _ => exact fun e he => known_kept hext.kept (h.pending e he)

theorem CallInit.balanceInv (h : CallInit s) : BalanceInv s := by
  obtain ⟨⟨-, hgroups, hpending⟩, -, -, -⟩ := h
  constructor
  · intro id g hg
    rw [hgroups] at hg
    cases hg
  · intro e he
    rw [hpending] at he
    cases he

/-- A run in which the members of the group change `n` times. -/
inductive GroupRun (groupId : Bytes) (s : CallSystem) : ℕ → CallSystem → Prop where
  | refl : GroupRun groupId s 0 s
  | tail {n : ℕ} {s₁ s₂ : CallSystem} {a : CallAction} : GroupRun groupId s n s₁ →
      CallStep s₁ a s₂ → GroupRun groupId s (n + (a.changesMembers s₁ groupId).toNat) s₂

section Run

variable {groupId : Bytes} {s s' : CallSystem} {n : ℕ}

theorem GroupRun.generation (h : GroupRun groupId s n s') :
    generationOf (s'.coordinator.groups.lookup groupId) =
      generationOf (s.coordinator.groups.lookup groupId) + UInt32.ofNat n := by
  induction h with
  | refl => simp
  | @tail n s₁ s₂ a _ hstep ih =>
    rw [(hstep.changes.group groupId).generation, ih]
    cases a.changesMembers s₁ groupId with
    | true => simp [UInt32.ofNat_add, UInt32.add_assoc]
    | false => simp

theorem GroupRun.assignments (h : GroupRun groupId s n s') (hn : n = 0) (id : Bytes) :
    assignmentOf (s'.coordinator.groups.lookup groupId) id =
      assignmentOf (s.coordinator.groups.lookup groupId) id := by
  induction h with
  | refl => rfl
  | @tail n s₁ s₂ a _ hstep ih =>
    have hquiet : a.changesMembers s₁ groupId = false := by
      cases hflag : a.changesMembers s₁ groupId with
      | false => rfl
      | true =>
        rw [hflag] at hn
        cases hn
    have hchange := hstep.changes.group groupId
    rw [hquiet] at hchange
    rw [hchange.assignments id, ih (by omega)]

theorem GroupRun.extends (h : GroupRun groupId s n s') : Extends s.mgr s'.mgr := by
  induction h with
  | refl => exact Extends.refl _
  | tail _ hstep ih =>
    refine ⟨fun name t ht => ?_, fun hfit => hstep.extends.fit (ih.fit hfit)⟩
    obtain ⟨t₁, ht₁, hn₁⟩ := ih.kept name t ht
    obtain ⟨t₂, ht₂, hn₂⟩ := hstep.extends.kept name t₁ ht₁
    exact ⟨t₂, ht₂, hn₂.trans hn₁⟩

theorem GroupRun.balanceInv (h : GroupRun groupId s n s') (hs : BalanceInv s) : BalanceInv s' := by
  induction h with
  | refl => exact hs
  | tail _ hstep ih => exact ih.step hstep

end Run

/-- **A generation identifies one assignment.** A section that changes the members adds one
to the generation, all others nothing; at the same generation members and assignments are
the same; and they are always what the assignor makes of the sorted members and the topics.
-/
theorem generation_identifies_assignment {groupId : Bytes} {s₀ s₁ s₂ : CallSystem} {n k : ℕ}
    (hinit : CallInit s₀) (h₁ : GroupRun groupId s₀ n s₁) (h₂ : GroupRun groupId s₁ k s₂)
    (hfew : n + k < 2 ^ 32) :
    (∀ a s₃, CallStep s₂ a s₃ → generationOf (s₃.coordinator.groups.lookup groupId) =
        generationOf (s₂.coordinator.groups.lookup groupId) +
          if a.changesMembers s₂ groupId = true then 1 else 0) ∧
      (generationOf (s₂.coordinator.groups.lookup groupId)).toNat =
        (generationOf (s₁.coordinator.groups.lookup groupId)).toNat + k ∧
      ∀ g₁ g₂, s₁.coordinator.groups.lookup groupId = some g₁ →
        s₂.coordinator.groups.lookup groupId = some g₂ →
        (g₁.generation = g₂.generation → ∀ id, (g₁.members.lookup id).map
          MemberMetadata.assignment =
          (g₂.members.lookup id).map MemberMetadata.assignment) ∧
        (g₂.members.entries ≠ [] → Balanced s₂.mgr g₂) ∧
        ((∀ id, id ∈ g₁.members ↔ id ∈ g₂.members) → g₁.strategy = g₂.strategy →
          g₁.subscribedTopics = g₂.subscribedTopics → ∀ id,
          (g₁.members.lookup id).map MemberMetadata.assignment =
            (g₂.members.lookup id).map MemberMetadata.assignment) := by
  have hstart : generationOf (s₀.coordinator.groups.lookup groupId) = 0 := by
    rw [hinit.init.2.1]
    rfl
  have hgen₁ := h₁.generation
  have hgen₂ := h₂.generation
  rw [hstart, UInt32.zero_add] at hgen₁
  have hcount : (generationOf (s₁.coordinator.groups.lookup groupId)).toNat = n := by
    rw [hgen₁]
    exact UInt32.toNat_ofNat_of_lt' (Nat.lt_of_le_of_lt (Nat.le_add_right n k) hfew)
  have hgrown : (generationOf (s₂.coordinator.groups.lookup groupId)).toNat = n + k := by
    rw [hgen₂, hgen₁, ← UInt32.ofNat_add]
    exact UInt32.toNat_ofNat_of_lt' hfew
  refine ⟨fun a s₃ hstep => (hstep.changes.group groupId).generation, by rw [hgrown, hcount],
    fun g₁ g₂ hg₁ hg₂ => ⟨fun heq id => ?_, ?_, ?_⟩⟩
  · -- the same counter: nothing has changed in between
    rw [hg₁] at hcount
    rw [hg₂] at hgrown
    have hk : k = 0 := by
      simp only [generationOf, Option.map_some, Option.getD_some] at hcount hgrown
      rw [heq] at hcount
      omega
    have hsame := h₂.assignments hk id
    rw [hg₁, hg₂] at hsame
    exact hsame.symm
  · exact ((h₂.balanceInv (h₁.balanceInv hinit.balanceInv)).groups groupId) g₂ hg₂
  · intro hmembers hstrategy htopics id
    have hinv₁ := h₁.balanceInv hinit.balanceInv
    have hinv₂ := h₂.balanceInv hinv₁
    cases hm₁ : g₁.members.lookup id with
    | none =>
      have hm₂ : g₂.members.lookup id = none := by
        rw [AList.lookup_eq_none, ← hmembers, ← AList.lookup_eq_none]
        exact hm₁
      rw [hm₂]
    | some m₁ =>
      obtain ⟨m₂, hm₂⟩ := Option.isSome_iff_exists.mp (AList.lookup_isSome.mpr
        ((hmembers id).mp (AList.lookup_isSome.mp (by rw [hm₁]; rfl))))
      have hb₁ := (hinv₁.groups groupId g₁ hg₁ (AssocMap.ne_nil_of_lookup hm₁)).extends h₂.extends
      have hb₂ := hinv₂.groups groupId g₂ hg₂ (AssocMap.ne_nil_of_lookup hm₂)
      rw [hm₂, Option.map_some, Option.map_some, hb₁.assigned id m₁ hm₁, hb₂.assigned id m₂ hm₂,
        sortedMembers_congr hmembers, hstrategy, htopics]

/-- The first join of a group is its first generation. -/
theorem generation_identifies_first_assignment :
    (generationOf (joinedOnce.groups.lookup (ascii "g"))).toNat = 1 ∧
      ∃ g, joinedOnce.groups.lookup (ascii "g") = some g ∧ Balanced stocked g := by
  obtain ⟨s₁, s₂, hcheck, hlookup, hjoin, hchanges⟩ := steps_joinedOnce []
  have hinit : CallInit (serving {} [] 0) :=
    ⟨⟨topicsFit_of_entries (by decide +kernel), rfl, rfl⟩, rfl, rfl, rfl⟩
  have hrun : GroupRun (ascii "g") (serving {} [] 0) 1 (serving joinedOnce [] 1) := by
    have hstart : GroupRun (ascii "g") (serving {} [] 0) 0 (serving {} [] 0) := .refl
    have h := ((hstart.tail hcheck).tail hlookup).tail hjoin
    rw [hchanges] at h
    exact h
  obtain ⟨-, hcount, -⟩ := generation_identifies_assignment hinit .refl hrun (by decide)
  obtain ⟨-, -, hpoints⟩ := generation_identifies_assignment hinit hrun .refl (by decide)
  obtain ⟨-, hbalanced, -⟩ := hpoints _ _ rfl rfl
  exact ⟨hcount, _, rfl, hbalanced (by decide +kernel)⟩

end GroupCoordinator

end StreamForge
