import StreamForge.Broker.Ownership

/-!
# Fair shares

What the two assignors return is a map with an entry for every member
(`assignMap`), filled by the pushes. Both deal out all partitions of the topics,
each to one member (`exactCover_assignMap`). `RangeAssignor` deals in blocks: of each
topic a member gets a run of partitions, in the order of the members, and runs
differ by one partition at most (`inRuns_assignMap`). `RoundRobinAssignor` deals in
turns, so that it is the whole hands that differ by one at most.
-/

namespace StreamForge

open Dealing

namespace Assignor

/-! ## The map that is returned -/

abbrev AssignmentMap := AList fun _ : Bytes => List TopicPartition

/-- `result[m] = {}` for every member. -/
def emptyHands (sortedMembers : List Bytes) : AssignmentMap :=
  sortedMembers.foldl (fun result m => result.insert m []) ∅

/-- `result[member].push_back(tp)`, where `operator[]` adds an entry if there is none. -/
def pushBack (result : AssignmentMap) (entry : Bytes × TopicPartition) : AssignmentMap :=
  result.insert entry.1 ((result.lookup entry.1).getD [] ++ [entry.2])

/-- `assign` with the entries of the map it returns. -/
def assignMap (strategy : AssignorStrategy) (sortedMembers : List Bytes)
    (topicPartitions : List (Bytes × UInt16)) : AssignmentMap :=
  let result := emptyHands sortedMembers
  if sortedMembers.isEmpty then result
  else
    match strategy with
    | .Range => (rangePushes sortedMembers topicPartitions).foldl pushBack result
    | .RoundRobin => (roundRobinPushes sortedMembers topicPartitions).foldl pushBack result

theorem lookup_emptyHands (members : List Bytes) (id : Bytes) :
    (emptyHands members).lookup id = if id ∈ members then some [] else none := by
  unfold emptyHands
  induction members using List.reverseRecOn with
  | nil => simp
  | append_singleton members m ih =>
    rw [List.foldl_append, List.foldl_cons, List.foldl_nil, AssocMap.lookup_insert_eq, ih]
    by_cases h : id = m
    · simp [h]
    · simp [h]

variable {members : List Bytes} {id : Bytes}

theorem lookup_foldl_pushBack {pushes : List (Bytes × TopicPartition)}
    (hpushes : ∀ e ∈ pushes, e.1 ∈ members) (id : Bytes) :
    (pushes.foldl pushBack (emptyHands members)).lookup id =
      if id ∈ members then some (dealt pushes id) else none := by
  induction pushes using List.reverseRecOn with
  | nil => exact lookup_emptyHands members id
  | append_singleton pushes e ih =>
    obtain ⟨m, tp⟩ := e
    have hm : m ∈ members := hpushes (m, tp) (by simp)
    have hold := ih fun e he => hpushes e (List.mem_append_left _ he)
    rw [List.foldl_append, List.foldl_cons, List.foldl_nil, pushBack, AssocMap.lookup_insert_eq]
    by_cases h : id = m
    · subst h
      rw [if_pos rfl, hold, if_pos hm, if_pos hm]
      simp [dealt]
    · rw [if_neg h, hold]
      simp [dealt, Ne.symm h]

/-- **The map has the lists of `assign`**, for the members and nobody else. -/
theorem lookup_assignMap (strategy : AssignorStrategy) (hne : members ≠ [])
    (topicPartitions : List (Bytes × UInt16)) (id : Bytes) :
    (assignMap strategy members topicPartitions).lookup id =
      if id ∈ members then some (assign strategy members topicPartitions id) else none := by
  have hempty : members.isEmpty = false := List.isEmpty_eq_false_iff.mpr hne
  cases strategy with
  | Range =>
    simp only [assignMap, assign, hempty, Bool.false_eq_true, if_false, runPushes_eq]
    exact lookup_foldl_pushBack (rangePushes_fst topicPartitions) id
  | RoundRobin =>
    simp only [assignMap, assign, hempty, Bool.false_eq_true, if_false, runPushes_eq]
    exact lookup_foldl_pushBack (roundRobinPushes_fst hne topicPartitions) id

/-- Every member has an entry and nobody else; every partition of the topics is in the
list of one member, once, and nothing else is in a list. -/
structure ExactCover (members : List Bytes) (topicPartitions : List (Bytes × UInt16))
    (result : AssignmentMap) : Prop where
  entries : ∀ id, (result.lookup id).isSome = true ↔ id ∈ members
  owned : ∀ topic numParts, (topic, numParts) ∈ topicPartitions → ∀ p < numParts,
    ∃! id, ∃ hand, result.lookup id = some hand ∧ ⟨topic, p⟩ ∈ hand
  once : ∀ id hand, result.lookup id = some hand → hand.Nodup
  nothingElse : ∀ id hand, result.lookup id = some hand → ∀ tp ∈ hand,
    ∃ numParts, (tp.topic, numParts) ∈ topicPartitions ∧ tp.partition < numParts

theorem exactCover_assignMap (strategy : AssignorStrategy) (hne : members ≠ [])
    (hnodup : members.Nodup) {topicPartitions : List (Bytes × UInt16)}
    (htopics : (topicPartitions.map Prod.fst).Nodup) :
    ExactCover members topicPartitions (assignMap strategy members topicPartitions) := by
  have hlookup := lookup_assignMap strategy hne topicPartitions
  have hperm := assign_perm strategy hne hnodup topicPartitions
  have hdistinct := hperm.nodup_iff.mpr (nodup_everyPartition htopics)
  obtain ⟨hhand, hapart⟩ := List.nodup_flatMap.mp hdistinct
  have hsome : ∀ {id hand}, (assignMap strategy members topicPartitions).lookup id = some hand →
      id ∈ members ∧ assign strategy members topicPartitions id = hand := by
    intro id hand h
    rw [hlookup] at h
    split at h
    · rename_i hid
      exact ⟨hid, Option.some.inj h⟩
    · cases h
  refine ⟨?_, ?_, ?_, ?_⟩
  · intro id
    rw [hlookup]
    split <;> simp [*]
  · intro topic numParts hmem p hp
    have hlisted : (⟨topic, p⟩ : TopicPartition) ∈ everyPartition topicPartitions :=
      mem_everyPartition.mpr ⟨numParts, hmem, hp⟩
    obtain ⟨id, hid, htp⟩ := List.mem_flatMap.mp (hperm.mem_iff.mpr hlisted)
    refine ⟨id, ⟨_, (hlookup id).trans (if_pos hid), htp⟩, ?_⟩
    rintro id' ⟨hand, hhand', htp'⟩
    obtain ⟨hid', rfl⟩ := hsome hhand'
    by_contra hother
    have hsymm : Std.Symm (Function.onFun List.Disjoint
        (assign strategy members topicPartitions)) := ⟨fun _ _ h => h.symm⟩
    exact hapart.forall hid' hid hother htp' htp
  · intro id hand h
    obtain ⟨hid, rfl⟩ := hsome h
    exact hhand id hid
  · intro id hand h tp htp
    obtain ⟨hid, rfl⟩ := hsome h
    exact mem_everyPartition.mp (hperm.mem_iff.mp (List.mem_flatMap.mpr ⟨id, hid, htp⟩))

/-! ## Runs and turns -/

def handOf (result : AssignmentMap) (id : Bytes) : List TopicPartition := (result.lookup id).getD []

theorem handOf_assignMap (strategy : AssignorStrategy) (hne : members ≠ [])
    (topicPartitions : List (Bytes × UInt16)) (hid : id ∈ members) :
    handOf (assignMap strategy members topicPartitions) id =
      assign strategy members topicPartitions id := by
  rw [handOf, lookup_assignMap strategy hne, if_pos hid]
  rfl

/-- The partitions of the topic are cut into one run for each member, in their order:
that of member `i` goes from `start i` to `start (i + 1)`. No run is more than one
partition longer than another. -/
structure InRuns (members : List Bytes) (result : AssignmentMap) (topic : Bytes)
    (numParts : UInt16) (start : ℕ → ℕ) : Prop where
  first : start 0 = 0
  last : start members.length = numParts.toNat
  ordered : Monotone start
  run : ∀ i id, members[i]? = some id →
    ((handOf result id).filter fun tp => tp.topic = topic).map (fun tp => tp.partition.toNat) =
      List.range' (start i) (start (i + 1) - start i)
  even : ∀ i < members.length, ∀ j < members.length,
    start (i + 1) - start i ≤ start (j + 1) - start j + 1

/-- Where `RangeAssignor` begins the run of member `i`. -/
def runStart (numParts numMembers i : ℕ) : ℕ :=
  i * (numParts / numMembers) + min i (numParts % numMembers)

theorem runStart_succ (numParts numMembers i : ℕ) :
    runStart numParts numMembers (i + 1) = runStart numParts numMembers i +
      (numParts / numMembers + if i < numParts % numMembers then 1 else 0) := by
  unfold runStart
  rw [Nat.add_mul, Nat.one_mul]
  split <;> omega

theorem runStart_last {numMembers : ℕ} (numParts : ℕ) (hpos : 0 < numMembers) :
    runStart numParts numMembers numMembers = numParts := by
  have hmod := Nat.mod_lt numParts hpos
  unfold runStart
  rw [Nat.min_eq_right hmod.le]
  exact Nat.div_add_mod numParts numMembers

theorem runStart_mono (numParts numMembers : ℕ) : Monotone (runStart numParts numMembers) := by
  apply monotone_nat_of_le_succ
  intro i
  rw [runStart_succ]
  exact Nat.le_add_right _ _

theorem dealt_rangePushes (hnodup : members.Nodup) (topicPartitions : List (Bytes × UInt16)) {i : ℕ}
    (hid : members[i]? = some id) :
    dealt (rangePushes members topicPartitions) id = topicPartitions.flatMap fun e =>
      (List.range' (runStart e.2.toNat members.length i)
        (runStart e.2.toNat members.length (i + 1) - runStart e.2.toNat members.length i)).map
          fun p => ⟨e.1, UInt16.ofNat p⟩ := by
  unfold rangePushes
  rw [dealt_flatMap]
  refine List.flatMap_congr ?_
  rintro ⟨topic, numParts⟩ -
  rw [runStart_succ, Nat.add_sub_cancel_left, List.range'_eq_map_range, List.map_map]
  have hblocks := dealt_blocks hnodup (fun j =>
    (List.range (numParts.toNat / members.length +
      if j < numParts.toNat % members.length then 1 else 0)).map fun p =>
        (⟨topic, UInt16.ofNat (runStart numParts.toNat members.length j + p)⟩ : TopicPartition)) hid
  simp only [List.map_map] at hblocks
  exact hblocks

/-- **`RangeAssignor` deals in runs.** -/
theorem inRuns_assignMap (hne : members ≠ []) (hnodup : members.Nodup)
    {topicPartitions : List (Bytes × UInt16)} (htopics : (topicPartitions.map Prod.fst).Nodup)
    {topic : Bytes} {numParts : UInt16} (hmem : (topic, numParts) ∈ topicPartitions) :
    InRuns members (assignMap .Range members topicPartitions) topic numParts
      (runStart numParts.toNat members.length) := by
  have hpos : 0 < members.length := List.length_pos_iff.mpr hne
  have hlast := runStart_last numParts.toNat hpos
  have hmono := runStart_mono numParts.toNat members.length
  refine ⟨by simp [runStart], hlast, hmono, ?_, ?_⟩
  · intro i id hid
    have hempty : members.isEmpty = false := List.isEmpty_eq_false_iff.mpr hne
    rw [handOf_assignMap .Range hne _ (List.mem_of_getElem? hid)]
    simp only [assign, hempty, Bool.false_eq_true, if_false, runPushes_eq]
    rw [dealt_rangePushes hnodup topicPartitions hid, List.filter_flatMap,
      flatMap_only htopics.of_map hmem]
    · -- the run itself; its numbers fit into 16 bits
      rw [List.filter_eq_self.mpr, List.map_map]
      · refine (List.map_congr_left ?_).trans (List.map_id _)
        intro p hp
        have hlt : i + 1 ≤ members.length := (List.getElem?_eq_some_iff.mp hid).1
        have hup := (hmono hlt).trans_eq hlast
        have hle := hmono (Nat.le_add_right i 1)
        rw [List.mem_range'_1, Nat.add_sub_cancel' hle] at hp
        exact UInt16.toNat_ofNat_of_lt' ((hp.2.trans_le hup).trans numParts.toNat_lt)
      · intro tp htp
        obtain ⟨p, -, rfl⟩ := List.mem_map.mp htp
        exact decide_eq_true rfl
    · -- other entries are for other topics
      rintro ⟨topic', numParts'⟩ hmem' hother
      rw [List.filter_eq_nil_iff]
      intro tp htp
      obtain ⟨p, -, rfl⟩ := List.mem_map.mp htp
      rw [decide_eq_true_iff]
      intro hsame
      exact hother (List.inj_on_of_nodup_map htopics hmem' hmem hsame)
  · intro i _ j _
    rw [runStart_succ, runStart_succ, Nat.add_sub_cancel_left, Nat.add_sub_cancel_left]
    split <;> split <;> omega

/-- **`RoundRobinAssignor` deals in turns.** -/
theorem length_handOf_roundRobin_le (hnodup : members.Nodup)
    (topicPartitions : List (Bytes × UInt16)) {id' : Bytes} (hid : id ∈ members)
    (hid' : id' ∈ members) :
    (handOf (assignMap .RoundRobin members topicPartitions) id).length ≤
      (handOf (assignMap .RoundRobin members topicPartitions) id').length + 1 := by
  have hne : members ≠ [] := List.ne_nil_of_mem hid
  have hempty : members.isEmpty = false := List.isEmpty_eq_false_iff.mpr hne
  rw [handOf_assignMap .RoundRobin hne _ hid, handOf_assignMap .RoundRobin hne _ hid']
  simp only [assign, hempty, Bool.false_eq_true, if_false, runPushes_eq]
  exact length_dealt_turns_le hnodup (allPartitions topicPartitions) [] hid hid'

/-- **Both assignors partition the work fairly.** -/
theorem assignors_fair (members : List Bytes) (topicPartitions : List (Bytes × UInt16))
    (hne : members ≠ []) (hdistinct : members.Nodup)
    (htopics : (topicPartitions.map Prod.fst).Nodup) :
    (∀ strategy, ExactCover members topicPartitions (assignMap strategy members topicPartitions)) ∧
    (∀ topic numParts, (topic, numParts) ∈ topicPartitions →
      ∃ start, InRuns members (assignMap .Range members topicPartitions) topic numParts start) ∧
    ∀ id ∈ members, ∀ id' ∈ members,
      (handOf (assignMap .RoundRobin members topicPartitions) id).length ≤
        (handOf (assignMap .RoundRobin members topicPartitions) id').length + 1 := by
  refine ⟨?_, ?_, ?_⟩
  · intro strategy
    exact exactCover_assignMap strategy hne hdistinct htopics
  · intro topic numParts hmem
    exact ⟨_, inRuns_assignMap hne hdistinct htopics hmem⟩
  · intro id hid id' hid'
    exact length_handOf_roundRobin_le hdistinct topicPartitions hid hid'

/-- Three members and two topics, one of them with fewer partitions than members. -/
theorem assignors_fair_three :
    ExactCover [[1], [2], [3]] [([97], 2), ([98], 5)]
      (assignMap .RoundRobin [[1], [2], [3]] [([97], 2), ([98], 5)]) ∧
    ∃ start, InRuns [[1], [2], [3]] (assignMap .Range [[1], [2], [3]] [([97], 2), ([98], 5)])
      [98] 5 start := by
  obtain ⟨hcover, hruns, -⟩ := assignors_fair [[1], [2], [3]] [([97], 2), ([98], 5)] (by decide)
    (by decide) (by decide)
  exact ⟨hcover .RoundRobin, hruns [98] 5 (by simp)⟩

end Assignor

end StreamForge
