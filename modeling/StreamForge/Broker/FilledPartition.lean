import StreamForge.Broker.LiveBroker

/-!
# Partitions with any number of records

A topic `t` that is filled with empty records, one PRODUCE after the other. There
is such a run for every number of records below 2^64, and one more PRODUCE in
each of them. This is how the limits of the types are met.
-/

namespace StreamForge

open FileTrace OffsetStore MessageHandler Transition

/-! ## One PRODUCE -/

def blankRequest : ProduceRequest := ⟨ascii "t", 0, 1, [([], [])]⟩

def blankFrame : Frame := makeFrame MessageType.PRODUCE 1 blankRequest.encode

theorem decode_blankFrame :
    decodeBody ProduceRequest.decode blankFrame.body = some blankRequest := by
  rfl

theorem blank_not_refused : Partition.refusesBatch blankRequest.records = false := by decide

structure Shared.OneMore (s s' : Shared) : Prop where
  log : s'.log = s.log ++ [⟨s.part.nextOffset, 0, [], []⟩]
  acks : s'.acks = s.acks ++ [⟨s.part.nextOffset, 0, blankRequest.records⟩]
  writing : s'.writing = none
  next : s'.part.nextOffset = s.part.nextOffset + 1

/-- **One more record**, also where its offset is the last one. -/
theorem SharedInv.oneMore {s : Shared} (h : SharedInv s) :
    ∃ s₁ w, (s.lock blankRequest.records 0).write
        ⟨⟨s.part.nextOffset, 0, blankRequest.records⟩, blankRequest.records⟩ [] [] [] = s₁ ∧
      s₁.writing = some w ∧ w.left = [] ∧ w.base = s.part.nextOffset ∧ s.OneMore (s₁.unlock w) := by
  obtain ⟨p', fs, heq, -, hnext⟩ := h.holds.appendRecord 0 false (by decide)
    (show Partition.recordTooLarge [] [] = false by decide) h.log_lt
  have hwrite : (s.lock blankRequest.records 0).write
      ⟨⟨s.part.nextOffset, 0, blankRequest.records⟩, blankRequest.records⟩ [] [] [] =
      { s.lock blankRequest.records 0 with
        part := p', dir := fs.dir
        log := s.log ++ [⟨s.part.nextOffset, 0, [], []⟩]
        writing := some ⟨⟨s.part.nextOffset, 0, blankRequest.records⟩, []⟩ } := by
    unfold Shared.write
    rw [show (s.lock blankRequest.records 0).part = s.part from rfl,
      show (s.lock blankRequest.records 0).dir = s.dir from rfl, heq]
    rfl
  exact ⟨_, _, hwrite, rfl, rfl, rfl, rfl, rfl, rfl, hnext⟩

theorem partDirs_setTopic (mgr : TopicManager) (name : Bytes) (t : Topic) (parts : PartDirs) :
    (mgr.setTopic name t parts).partDirs name = parts := by
  simp [TopicManager.partDirs, TopicManager.setTopic]

structure Live.OneMore (l : Live) (s s' : Shared) (l' : Live) : Prop where
  shared : l'.shared (ascii "t") 0 = some s'
  produced : s.OneMore s'
  answered : l'.answered = l.answered ++ [(blankRequest, ⟨0, s.part.nextOffset, 1⟩)]
  coordinator : l'.coordinator = l.coordinator
  committed : l'.committed = l.committed

/-- **A PRODUCE from its choice of the partition to its answer.** Only the lock
asks for room. -/
theorem LiveReachable.produce {P : Live → LiveAction → Prop} {l : Live} (h : LiveReachable P l)
    {s : Shared} (hs : l.shared (ascii "t") 0 = some s) (hinv : SharedInv s)
    (hidle : s.writing = none) (hchoose : ∀ l, P l (.choose blankFrame))
    (hlock : ∀ l', l'.tracks = l.tracks → P l' (.lock blankRequest 0 0))
    (hwrite : ∀ l, P l (.write (ascii "t") 0)) (hanswer : ∀ l, P l (.answer (ascii "t") 0)) :
    ∃ l' s', LiveReachable P l' ∧ l.OneMore s s' l' := by
  obtain ⟨t, part, ht, hp, hsEq⟩ := Live.shared_eq_some hs
  obtain ⟨hlen, -⟩ := List.getElem?_eq_some_iff.mp hp
  have hchosen : t.choose blankRequest.partition blankRequest.records = some (0, t) := by
    have hin : ¬((0 : Int32) < -1 ∨ (t.partitions.length : ℤ) ≤ (0 : Int32).toInt) := by
      rw [not_or, Int32.not_lt, not_le]
      exact ⟨by decide, by rw [show (0 : Int32).toInt = 0 from rfl]; omega⟩
    have hexplicit : ¬(0 : Int32) = -1 := by decide
    show (if (0 : Int32) < -1 ∨ (t.partitions.length : ℤ) ≤ (0 : Int32).toInt then none else _) = _
    rw [if_neg hin]
    show some (if (0 : Int32) = -1 then _ else _) = _
    rw [if_neg hexplicit]
    rfl
  -- the choice
  have h₁ := h.step (hchoose l) (LiveStep.choose decode_blankFrame (by decide) ht hchosen)
  set l₁ : Live := { l with
    mgr := l.mgr.setTopic blankRequest.topic t (l.mgr.partDirs blankRequest.topic)
    produces := (blankRequest, 0) :: l.produces } with hl₁
  have hs₁ : l₁.shared (ascii "t") 0 = some s := by
    rw [hsEq, hl₁]
    simp only [Live.shared, blankRequest, getTopic_setTopic, if_true, Option.bind_some,
      Topic.getPartition, hp, Option.map_some, partDirs_setTopic]
  -- the lock, the record and the answer
  have h₂ := h₁.step (hlock l₁ rfl)
    (@LiveStep.lock l₁ blankRequest 0 [] l.produces s 0 rfl hs₁ hidle blank_not_refused)
  set l₂ : Live := { (l₁.put blankRequest.topic 0 (s.lock blankRequest.records 0)).setWriter
    blankRequest.topic 0 (some blankRequest) with produces := [] ++ l.produces }
  have hs₂ : l₂.shared (ascii "t") 0 = some (s.lock blankRequest.records 0) :=
    Live.shared_put hs₁ (s.lock blankRequest.records 0)
  have hanswered : l₂.answered = l.answered := Live.put_answered l₁ _ _ _
  have hcoordinator : l₂.coordinator = l.coordinator := Live.put_coordinator l₁ _ _ _
  have hcommitted : l₂.committed = l.committed := Live.put_committed l₁ _ _ _
  obtain ⟨s', w, heq, hwriting, hleft, hbase, hproduced⟩ := hinv.oneMore
  have h₃ := h₂.step (hwrite _) (@LiveStep.write l₂ (ascii "t") 0 _ _ [] [] [] hs₂ rfl rfl)
  rw [heq] at h₃
  have hs₃ := Live.shared_put hs₂ s'
  have hwriter : (l₂.put (ascii "t") 0 s').writers (ascii "t") 0 = some blankRequest := by
    rw [Live.put_writers]
    exact (setAt_apply (l₁.put blankRequest.topic 0 (s.lock blankRequest.records 0)).writers
      blankRequest.topic (ascii "t") 0 0 (some blankRequest)).trans (if_pos ⟨rfl, rfl⟩)
  have h₄ := h₃.step (hanswer _)
    (@LiveStep.answer _ (ascii "t") 0 blankRequest _ w hwriter hs₃ hwriting hleft)
  refine ⟨_, _, h₄, Live.shared_put hs₃ (s'.unlock w), hproduced, ?_, ?_, ?_⟩
  · show (l₂.put _ _ _).answered ++ _ = _
    rw [Live.put_answered, hanswered, hbase]
    rfl
  · exact (Live.put_coordinator (l₂.put (ascii "t") 0 s') (ascii "t") 0 (s'.unlock w)).trans
      ((Live.put_coordinator l₂ _ _ _).trans hcoordinator)
  · exact (Live.put_committed (l₂.put (ascii "t") 0 s') (ascii "t") 0 (s'.unlock w)).trans
      ((Live.put_committed l₂ _ _ _).trans hcommitted)

/-- The first partition of `t` with `n` records and no batch in progress, in a
broker without groups and with `k` commits; on the way there was room for `m` records. -/
structure Filled (m : ℕ) (l : Live) (s : Shared) (n k : ℕ) : Prop where
  reachable : LiveReachable (fun l a => a.Room m l) l
  shared : l.shared (ascii "t") 0 = some s
  idle : s.writing = none
  log : s.log.length = n
  groups : l.coordinator.groups = ∅
  committed : l.committed = k

section Filled

variable {m n k : ℕ} {l : Live} {s : Shared}

theorem Filled.sharedInv (h : Filled m l s n k) (hm : m ≤ 2 ^ 64) : SharedInv s := by
  obtain ⟨hists, hinv⟩ := (h.reachable.room_mono hm).liveInv
  exact hinv.shared (by decide) h.shared

theorem start_coordinator {config : StorageConfig} {coordinatorConfig : CoordinatorConfig}
    {dataDir : DataDir} {nowMs : Int64} {b : Broker}
    (h : Broker.start config coordinatorConfig dataDir nowMs = .ok b) :
    b.coordinator = { config := coordinatorConfig } := by
  unfold Broker.start at h
  simp only at h
  split at h
  · cases h
  · split at h
    · cases h
    · cases h
      rfl

theorem filled_zero (hm : m ≤ 2 ^ 64) : ∃ l s, Filled m l s 0 0 := by
  rcases dataInv_empty.start (fun _ _ => by simp) rfl {} {} 0 with
    ⟨-, b, hstart, hinv⟩ | ⟨⟨r, hr, -⟩, -⟩
  · have hinit : LiveReachable (fun l a => a.Room m l) (Live.ofBroker b) :=
      .init ⟨{}, {}, 0, b, hstart, rfl⟩
    have hcreated : LiveReachable (fun l a => a.Room m l) _ :=
      hinit.step (show LiveAction.Room _ _ (.createTopic (ascii "t") 1 0 0 0) from trivial)
        (.createTopic (ascii "t") 1 0 0 0 (by decide))
    obtain ⟨t, ht⟩ := hinv.storage.exists_created (show TopicManager.validateTopicName (ascii "t") =
      none by decide) (Nat.le_refl 1) (by decide) 0 0 0
    obtain ⟨hists, hlive⟩ := (hcreated.room_mono hm).liveInv
    obtain ⟨dir, -, htopic⟩ := hlive.broker.storage.topic ht
    obtain ⟨part, hpart⟩ : ∃ part, t.partitions[0]? = some part :=
      ⟨_, List.getElem?_eq_getElem htopic.pos⟩
    refine ⟨_, _, hcreated, Live.shared_of_topic ht hpart, rfl, rfl, ?_, rfl⟩
    show b.coordinator.groups = ∅
    rw [start_coordinator hstart]
  · cases hr

theorem Filled.produce (h : Filled m l s n k) (hn : n + 1 < m) (hm : m ≤ 2 ^ 64) :
    ∃ l' s', Filled m l' s' (n + 1) k ∧ l.OneMore s s' l' := by
  have hlog : (l.tracks (ascii "t") 0).log.length = n := by
    rw [← Live.shared_track h.shared]
    exact h.log
  obtain ⟨l', s', hreach, hmore⟩ := h.reachable.produce h.shared (h.sharedInv hm) h.idle
    (fun _ => trivial)
    (fun l' htracks => by
      show (l'.tracks (ascii "t") 0).log.length + 1 < m
      rw [htracks, hlog]
      exact hn)
    (fun _ => trivial) (fun _ => trivial)
  refine ⟨l', s', ⟨hreach, hmore.shared, hmore.produced.writing, ?_, ?_, ?_⟩, hmore⟩
  · rw [hmore.produced.log, List.length_append, h.log]
    rfl
  · rw [hmore.coordinator, h.groups]
  · rw [hmore.committed, h.committed]

/-- **There is a run with any number of records** that there is room for. -/
theorem exists_filled (hn : n < m) (hm : m ≤ 2 ^ 64) : ∃ l s, Filled m l s n 0 := by
  induction n with
  | zero => exact filled_zero hm
  | succ n ih =>
    obtain ⟨l, s, h⟩ := ih (Nat.lt_of_succ_lt hn)
    obtain ⟨l', s', h', -⟩ := h.produce hn hm
    exact ⟨l', s', h'⟩

end Filled

end StreamForge
