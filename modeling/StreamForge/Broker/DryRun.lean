import StreamForge.Broker.InternalTopics
import StreamForge.Storage.RetentionExact

/-!
# The dry run of a retention pass

`run_one_pass` counts the segments it deletes, and with `dry_run` the ones it would
delete. What a real pass leaves is said partition by partition: each loses a prefix
of its segments, with their files, and nothing else changes. The number it returns
is what the partitions lose together, and a dry run at the same clocks returns the
same number.
-/

namespace StreamForge

open FileTrace TopicManager

/-- The first `k` segments of the partition are gone, and their files. -/
structure Partition.Loses (k : ℕ) (p : Partition) (d : Disk) (p' : Partition) (d' : Disk) :
    Prop where
  few : k ≤ p.segments.length
  partition : p' = { p with segments := p.segments.drop k }
  files : ∀ f : FileName, d'.lookup f =
    if f.base ∈ (p.segments.take k).map LogSegment.baseOffset then none else d.lookup f

structure Topic.Pruned (t : Topic) (dir : TopicDir) (t' : Topic) (dir' : TopicDir) : Prop where
  topic : t' = { t with partitions := t'.partitions }
  topicMeta : dir'.topicMeta = dir.topicMeta
  partitions : t'.partitions.length = t.partitions.length
  loses : ∀ (i : ℕ) (p p' : Partition), t.partitions[i]? = some p → t'.partitions[i]? = some p' →
    ∃ k, p.Loses k (dir.parts i) p' (dir'.parts i)
  beyond : ∀ i, t.partitions.length ≤ i → dir'.parts i = dir.parts i

theorem Topic.Pruned.refl (t : Topic) (dir : TopicDir) : t.Pruned dir t dir where
  topic := rfl
  topicMeta := rfl
  partitions := rfl
  loses i p p' hp hp' := by
    rw [hp, Option.some.injEq] at hp'
    subst hp'
    exact ⟨0, Nat.zero_le _, rfl, fun f => by simp⟩
  beyond _ _ := rfl

/-- Every topic is pruned, and what is in the data directory for no topic is as it
was. -/
structure TopicManager.Pruned (mgr mgr' : TopicManager) : Prop where
  topics : ∀ name t, mgr.getTopic name = some t →
    ∃ t', mgr'.getTopic name = some t' ∧ t.Pruned (mgr.dirOf name) t' (mgr'.dirOf name)
  others : ∀ name, mgr.getTopic name = none → SameAt mgr mgr' name

def Topic.segmentCount (t : Topic) : ℕ := (t.partitions.map fun p => p.segments.length).sum

def TopicManager.segmentCount (mgr : TopicManager) : ℕ :=
  (mgr.topics.entries.map fun e => e.2.segmentCount).sum

namespace RetentionManager

section OneTopic

variable (ms bytes : UInt64) (clock : ℕ → Int64)

theorem loses_scanAndDeleteSegments (p : Partition) (now : Int64) (fs : FileSystem) :
    let res := p.scanAndDeleteSegments ms bytes false now fs
    p.Loses res.1.length fs.dir res.2.1 res.2.2.dir ∧
      res.2.1.segments.length + res.1.length = p.segments.length := by
  intro res
  obtain ⟨hreported, hpartition, hfiles⟩ := (scanAndDeleteSegments_eq p ms bytes now fs).1
  set k := p.deletableCount ms bytes now
  have hle : k ≤ p.segments.length := by
    rcases Nat.eq_zero_or_pos p.segments.length with hzero | hpos
    · have hnil := List.length_eq_zero_iff.mp hzero
      simp [k, Partition.deletableCount, hnil]
    · exact (deletableCount_lt hpos ms bytes now).le
  have hlength : res.1.length = k := by
    rw [show res.1 = _ from hreported, List.length_map, List.length_take, Nat.min_eq_left hle]
  rw [hlength]
  refine ⟨⟨hle, hpartition, hfiles⟩, ?_⟩
  rw [show res.2.1 = _ from hpartition, List.length_drop]
  omega

theorem scanAndDeleteSegments_dryRun (p : Partition) (now : Int64) (fs fs' : FileSystem) :
    p.scanAndDeleteSegments ms bytes true now fs =
      ((p.scanAndDeleteSegments ms bytes false now fs').1, p, fs) := by
  rw [(scanAndDeleteSegments_eq p ms bytes now fs).2,
    (scanAndDeleteSegments_eq p ms bytes now fs').1.reported]

theorem scanPartitions_dryRun (parts : List Partition) : ∀ (i : ℕ) (dirs dirs' : PartDirs),
    scanPartitions ms bytes true clock i parts dirs =
      ((scanPartitions ms bytes false clock i parts dirs').1, parts, dirs) := by
  induction parts with
  | nil => exact fun _ _ _ => rfl
  | cons p rest ih =>
    intro i dirs dirs'
    have hfirst := scanAndDeleteSegments_dryRun ms bytes p (clock i) (Fs.start (dirs i))
      (Fs.start (dirs' i))
    have hkept : Function.update dirs i (Fs.start (dirs i)).dir = dirs := Function.update_eq_self ..
    unfold scanPartitions
    simp only [hfirst, hkept]
    rw [ih (i + 1) dirs]

/-- **The partitions of one topic**, by induction on the list. Later partitions keep
their directories until their turn comes. -/
theorem scanPartitions_prunes (parts : List Partition) : ∀ (i : ℕ) (dirs : PartDirs),
    let res := scanPartitions ms bytes false clock i parts dirs
    res.2.1.length = parts.length ∧
      (∀ (j : ℕ) (p p' : Partition), parts[j]? = some p → res.2.1[j]? = some p' →
        ∃ k, p.Loses k (dirs (i + j)) p' (res.2.2 (i + j))) ∧
      (∀ j, j < i ∨ i + parts.length ≤ j → res.2.2 j = dirs j) ∧
      (res.2.1.map fun p => p.segments.length).sum + res.1 =
        (parts.map fun p => p.segments.length).sum := by
  induction parts with
  | nil => exact fun i dirs => ⟨rfl, by simp, fun _ _ => rfl, rfl⟩
  | cons p rest ih =>
    intro i dirs res
    obtain ⟨hloses, hcount⟩ := loses_scanAndDeleteSegments ms bytes p (clock i) (Fs.start (dirs i))
    set scanned := p.scanAndDeleteSegments ms bytes false (clock i)
      (Fs.start (dirs i))
    obtain ⟨hlength, hrest, hbeyond, hsum⟩ := ih (i + 1) (Function.update dirs i scanned.2.2.dir)
    set later := scanPartitions ms bytes false clock (i + 1) rest
      (Function.update dirs i scanned.2.2.dir)
    have hres : res = (scanned.1.length + later.1, scanned.2.1 :: later.2.1, later.2.2) := rfl
    rw [hres]
    dsimp only
    refine ⟨?_, ?_, ?_, ?_⟩
    · rw [List.length_cons, List.length_cons, hlength]
    · intro j q q' hq hq'
      cases j with
      | zero =>
        rw [List.getElem?_cons_zero, Option.some.injEq] at hq hq'
        subst hq hq'
        rw [Nat.add_zero, hbeyond i (Or.inl (Nat.lt_succ_self i)), Function.update_self]
        exact ⟨_, hloses⟩
      | succ j =>
        rw [List.getElem?_cons_succ] at hq hq'
        obtain ⟨k, hk⟩ := hrest j q q' hq hq'
        rw [Function.update_of_ne (by omega), show i + 1 + j = i + (j + 1) by omega] at hk
        exact ⟨k, hk⟩
    · intro j hj
      rw [List.length_cons] at hj
      rw [hbeyond j (by omega), Function.update_of_ne (by omega)]
    · simp only [List.map_cons, List.sum_cons]
      omega

theorem scanTopic_dryRun (t : Topic) (dirs dirs' : PartDirs) :
    scanTopic t dirs true clock = ((scanTopic t dirs' false clock).1, t, dirs) := by
  unfold scanTopic
  split
  · rfl
  split
  · rfl
  · rw [scanPartitions_dryRun _ _ clock t.partitions 0 dirs dirs']

theorem scanTopic_prunes (t : Topic) (dir : TopicDir) :
    let res := scanTopic t dir.parts false clock
    t.Pruned dir res.2.1 { dir with parts := res.2.2 } ∧
      res.2.1.segmentCount + res.1 = t.segmentCount := by
  unfold scanTopic
  split
  · exact ⟨Topic.Pruned.refl t dir, rfl⟩
  split
  · exact ⟨Topic.Pruned.refl t dir, rfl⟩
  · obtain ⟨hlength, hloses, hbeyond, hsum⟩ :=
      scanPartitions_prunes t.retentionMs t.retentionBytes clock t.partitions 0 dir.parts
    refine ⟨⟨rfl, rfl, hlength, ?_, ?_⟩, hsum⟩
    · intro i p p' hp hp'
      have hi := hloses i p p' hp hp'
      rw [Nat.zero_add] at hi
      exact hi
    · intro i hi
      exact hbeyond i (Or.inr (by omega))

end OneTopic

section AllTopics

variable (clock : Bytes → ℕ → Int64)

variable {mgr mgr' : TopicManager} {scanned name : Bytes} {t t' : Topic} {dirs : PartDirs}

theorem sameAt_setTopic_of_ne (hname : name ≠ scanned) :
    SameAt mgr (mgr.setTopic scanned t dirs) name := by
  rw [setTopic_eq]
  exact sameAt_edit mgr _ hname

theorem sameAt_setTopic (ht : mgr.getTopic scanned = some t) (name : Bytes) :
    SameAt mgr (mgr.setTopic scanned t (mgr.partDirs scanned)) name := by
  by_cases hname : name = scanned
  · subst hname
    exact ⟨by rw [ht]; exact AList.lookup_insert _, by simp [dirOf, setTopic, partDirs]⟩
  · exact sameAt_setTopic_of_ne hname

theorem segmentCount_setTopic (ht : mgr.getTopic scanned = some t) :
    (mgr.setTopic scanned t' dirs).segmentCount + t.segmentCount =
      mgr.segmentCount + t'.segmentCount :=
  AssocMap.sum_insert_of_lookup ht t' Topic.segmentCount

/-- One topic is pruned, and then the others: the later pass leaves it as it is. -/
theorem pruned_setTopic (ht : mgr.getTopic scanned = some t)
    (hone : t.Pruned (mgr.dirOf scanned) t' { mgr.dirOf scanned with parts := dirs })
    (hkept : SameAt (mgr.setTopic scanned t' dirs) mgr' scanned)
    (hpruned : (mgr.setTopic scanned t' dirs).Pruned mgr') : mgr.Pruned mgr' := by
  refine ⟨fun name t₀ ht₀ => ?_, fun name hnone => ?_⟩
  · by_cases hname : name = scanned
    · subst hname
      rw [ht, Option.some.injEq] at ht₀
      subst ht₀
      refine ⟨t', hkept.topic.trans (AList.lookup_insert _), ?_⟩
      rw [hkept.dir]
      simpa [dirOf, setTopic] using hone
    · have hset : SameAt mgr (mgr.setTopic scanned t' dirs) name := sameAt_setTopic_of_ne hname
      obtain ⟨t₁, ht₁, hp⟩ := hpruned.topics name t₀ (hset.topic.trans ht₀)
      rw [hset.dir] at hp
      exact ⟨t₁, ht₁, hp⟩
  · have hname : name ≠ scanned := by
      rintro rfl
      cases ht.symm.trans hnone
    have hset : SameAt mgr (mgr.setTopic scanned t' dirs) name := sameAt_setTopic_of_ne hname
    exact hset.trans (hpruned.others name (hset.topic.trans hnone))

theorem scanTopics_dryRun (names : List Bytes) :
    ∀ {mgr mgr' : TopicManager}, names.Nodup →
      (∀ name ∈ names, mgr'.getTopic name = mgr.getTopic name) →
      (scanTopics true clock names mgr).1 = (scanTopics false clock names mgr').1 ∧
        ∀ name, SameAt mgr (scanTopics true clock names mgr).2 name := by
  induction names with
  | nil => exact fun _ _ => ⟨rfl, SameAt.refl _⟩
  | cons scanned rest ih =>
    intro mgr mgr' hnodup hsame
    obtain ⟨hnot, hrest⟩ := List.nodup_cons.mp hnodup
    obtain ⟨hfirst, hothers⟩ := List.forall_mem_cons.mp hsame
    unfold scanTopics
    rw [hfirst]
    cases ht : mgr.getTopic scanned with
    | none => exact ih hrest hothers
    | some t =>
      have hkept := sameAt_setTopic ht
      simp only [scanTopic_dryRun _ t (mgr.partDirs scanned) (mgr'.partDirs scanned)]
      obtain ⟨deleted, t', dirs'⟩ := scanTopic t (mgr'.partDirs scanned) false (clock scanned)
      obtain ⟨hcount, hstate⟩ := @ih _ (mgr'.setTopic scanned t' dirs') hrest fun name hname => by
        rw [(hkept name).topic, ← hothers name hname]
        exact AList.lookup_insert_ne (ne_of_mem_of_not_mem hname hnot)
      exact ⟨congrArg _ hcount, fun name => (hkept name).trans (hstate name)⟩

/-- The pass over the listed topics: those on the list are pruned, the others stay,
and the number is the loss. -/
theorem scanTopics_prunes (names : List Bytes) : ∀ {mgr : TopicManager}, names.Nodup →
    let res := scanTopics false clock names mgr
    (∀ name ∉ names, SameAt mgr res.2 name) ∧ mgr.Pruned res.2 ∧
      res.2.segmentCount + res.1 = mgr.segmentCount := by
  induction names with
  | nil =>
    intro mgr _
    refine ⟨fun _ _ => SameAt.refl _ _, ⟨?_, fun _ _ => SameAt.refl _ _⟩, rfl⟩
    exact fun name t ht => ⟨t, ht, Topic.Pruned.refl t _⟩
  | cons scanned rest ih =>
    intro mgr hnodup res
    obtain ⟨hnot, hrest⟩ := List.nodup_cons.mp hnodup
    have hres : res = scanTopics false clock (scanned :: rest) mgr := rfl
    unfold scanTopics at hres
    cases ht : mgr.getTopic scanned with
    | none =>
      rw [ht] at hres
      rw [hres]
      obtain ⟨hothers, hpruned, hsum⟩ := @ih mgr hrest
      exact ⟨fun name hname => hothers name fun h => hname (List.mem_cons_of_mem _ h),
        hpruned, hsum⟩
    | some t =>
      rw [ht] at hres
      obtain ⟨hone, hlost⟩ := scanTopic_prunes (clock scanned) t (mgr.dirOf scanned)
      set one := scanTopic t (mgr.partDirs scanned) false (clock scanned)
      obtain ⟨hothers, hpruned, hsum⟩ := @ih (mgr.setTopic scanned one.2.1 one.2.2) hrest
      set later := scanTopics false clock rest (mgr.setTopic scanned one.2.1 one.2.2)
      have hres' : res = (one.1 + later.1, later.2) := hres
      rw [hres']
      refine ⟨?_, pruned_setTopic ht hone (hothers scanned hnot) hpruned, ?_⟩
      · intro name hname
        rw [List.mem_cons, not_or] at hname
        exact (sameAt_setTopic_of_ne hname.1).trans (hothers name hname.2)
      · have hcount := @segmentCount_setTopic _ _ _ one.2.1 one.2.2 ht
        have hlost' : one.2.1.segmentCount + one.1 = t.segmentCount := hlost
        show later.2.segmentCount + (one.1 + later.1) = mgr.segmentCount
        omega

end AllTopics

/-- **A dry run tells the truth**: it changes nothing, and its number is what the
partitions lose in a real pass at the same clocks. -/
theorem dry_run_predicts (mgr : TopicManager) (specificTopic : Bytes) (clock : Bytes → ℕ → Int64) :
    let dry := runOnePass mgr true specificTopic clock
    let real := runOnePass mgr false specificTopic clock
    (∀ name, SameAt mgr dry.2 name) ∧ mgr.Pruned real.2 ∧ dry.1 = real.1 ∧
      real.2.segmentCount + dry.1 = mgr.segmentCount := by
  intro dry real
  have hnodup : (if specificTopic.isEmpty then mgr.topics.keys else [specificTopic]).Nodup := by
    split
    · exact mgr.topics.keys_nodup
    · exact List.nodup_singleton _
  obtain ⟨hcount, hsame⟩ := @scanTopics_dryRun clock _ mgr mgr hnodup fun _ _ => rfl
  obtain ⟨-, hpruned, hsum⟩ := @scanTopics_prunes clock _ mgr hnodup
  exact ⟨hsame, hpruned, hcount, (congrArg (real.2.segmentCount + ·) hcount).trans hsum⟩

end RetentionManager

end StreamForge
