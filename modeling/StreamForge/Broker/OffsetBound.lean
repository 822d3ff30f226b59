import StreamForge.Broker.CommittedOffsets
import StreamForge.Broker.ConcurrentFetch
import StreamForge.Broker.FilledPartition
import StreamForge.Storage.RetentionExact

/-!
# Committed offsets and the log

A commit compares its offsets with next offsets that it reads without a lock, and
hands them to another component later. It does no harm: a log only grows, through
appends, retention and restarts, and the committed offsets are kept in a log of
their own, in which every record says something true about the partition it names
(`Live.Stored`).

An offset is stored with 64 bits and read as a signed number. So this ends at 2^63
records, before the offsets themselves do.
-/

namespace StreamForge

open FileTrace OffsetStore MessageHandler GroupCoordinator

/-! ## Offsets of the log -/

def Live.Names (l : Live) (name : Bytes) (p : ℕ) : Prop :=
  TopicManager.isReserved name = false ∧ ∃ t, l.mgr.getTopic name = some t ∧ p < t.numPartitions

/-- One with at least `offset` records appended to it. -/
def Live.Covers (l : Live) (name : Bytes) (p : ℕ) (offset : UInt64) : Prop :=
  l.Names name p ∧ offset.toNat ≤ (l.tracks name p).log.length

/-- A record of the internal log: an offset that its partition has reached. -/
def Live.Stored (l : Live) (r : Record) : Prop :=
  ∃ (g name : Bytes) (p : UInt16) (offset : UInt64) (timestampMs : Int64),
    r.key = makeKey g name p ∧ r.value = encodeValue offset timestampMs ∧
      l.Covers name p.toNat offset

section Covers

variable {l l' : Live} {hists hists' : Histories} {a : LiveAction} {name : Bytes} {p : ℕ}

theorem Live.Names.step (h : l.Names name p) (heffect : Effect l hists a l' hists') :
    l'.Names name p := by
  obtain ⟨hreserved, t, ht, hlt⟩ := h
  obtain ⟨t', ht', hn⟩ := heffect.topics name t ht
  exact ⟨hreserved, t', ht', hn ▸ hlt⟩

theorem Live.Covers.step {offset : UInt64} (h : l.Covers name p offset)
    (heffect : Effect l hists a l' hists') : l'.Covers name p offset :=
  ⟨h.1.step heffect, h.2.trans (heffect.tracks name p).log_grows.length_le⟩

theorem Live.Stored.step {r : Record} (h : l.Stored r) (heffect : Effect l hists a l' hists') :
    l'.Stored r := by
  obtain ⟨g, name, p, offset, timestampMs, hkey, hvalue, hcovers⟩ := h
  exact ⟨g, name, p, offset, timestampMs, hkey, hvalue, hcovers.step heffect⟩

theorem Live.Names.shared (h : l.Names name p) : ∃ s, l.shared name p = some s := by
  obtain ⟨-, t, ht, hlt⟩ := h
  exact ⟨_, Live.shared_of_topic ht (List.getElem?_eq_getElem hlt)⟩

theorem Live.names_of_checkEntries {entries : List OffsetCommitRequestEntry}
    (h : checkEntries l.mgr entries = none) :
    ∀ entry ∈ entries, l.Names entry.topic entry.partition.toNat := by
  intro entry hentry
  obtain ⟨hreserved, t, part, ht, hpart⟩ := of_checkEntries h entry hentry
  exact ⟨hreserved, t, ht, (List.getElem?_eq_some_iff.mp hpart).1⟩

theorem LiveInv.highWatermark (h : LiveInv l hists) {p : UInt16} (hnames : l.Names name p.toNat) :
    (GroupCoordinator.highWatermark l.mgr name p).toNat = (l.tracks name p.toNat).log.length := by
  obtain ⟨s, hs⟩ := hnames.shared
  have hnext := (h.shared hnames.1 hs).next_toNat
  obtain ⟨t, part, ht, hpart, rfl⟩ := Live.shared_eq_some hs
  rw [GroupCoordinator.highWatermark, ht, Option.bind_some, Topic.getPartition, hpart]
  exact hnext

end Covers

/-- **What is stored, and what is about to be.** Every entry of a commit on its way
names a partition, and its offset is covered as soon as it has been compared. -/
structure BoundInv (l : Live) (hists : Histories) : Prop extends LiveInv l hists where
  stored : ∀ r ∈ (hists internalOffsetsTopic 0).records, l.Stored r
  named : ∀ c ∈ l.commits, ∀ entry ∈ c.msg.requestEntries, l.Names entry.topic entry.partition.toNat
  compared : ∀ c ∈ l.commits, ∀ entry ∈ c.msg.requestEntries,
    entry ∈ c.unchecked ∨ l.Covers entry.topic entry.partition.toNat entry.offset

section BoundInv

variable {l l' : Live} {hists hists' : Histories} {a : LiveAction}

theorem LiveStep.commits_cases (h : LiveStep l a l') {c : OpenCommit} (hc : c ∈ l'.commits) :
    c ∈ l.commits ∨
      (c.unchecked = c.msg.requestEntries ∧ checkEntries l.mgr c.msg.requestEntries = none) ∨
      ∃ entry, ⟨c.msg, entry :: c.unchecked⟩ ∈ l.commits ∧
        entry.offset ≤ highWatermark l.mgr entry.topic entry.partition := by
  cases h with
  | choose _ _ _ _ => exact Or.inl hc
  | lock nowMs _ _ _ _ =>
    simp only [Live.setWriter, Live.put_commits] at hc
    exact Or.inl hc
  | refuse _ _ => exact Or.inl hc
  | write _ _ _ =>
    rw [Live.put_commits] at hc
    exact Or.inl hc
  | answer _ _ _ _ =>
    simp only [Live.setWriter, Live.put_commits] at hc
    exact Or.inl hc
  | openCommit _ hentries _ =>
    rcases List.mem_cons.mp hc with rfl | hc
    · exact Or.inr (Or.inl ⟨rfl, hentries⟩)
    · exact Or.inl hc
  | @checkOffset msg entry rest pre post hmem hle =>
    rcases List.mem_append.mp hc with hpre | hpost
    · exact Or.inl (mem_of_removed hmem (List.mem_append_left _ hpre))
    · rcases List.mem_cons.mp hpost with rfl | hpost
      · exact Or.inr (Or.inr ⟨entry, by simp [hmem], hle⟩)
      · exact Or.inl (mem_of_removed hmem (List.mem_append_right _ hpost))
  | dropCommit hmem => exact Or.inl (mem_of_removed hmem hc)
  | persist _ hmem => exact Or.inl (mem_of_removed hmem hc)
  | retain _ _ _ _ _ _ _ =>
    rw [Live.put_commits] at hc
    exact Or.inl hc
  | createTopic _ _ _ _ _ _ => exact Or.inl hc
  | groups _ => exact Or.inl hc
  | restart _ _ => cases hc

theorem BoundInv.covered (h : BoundInv l hists) {msg : CommitOffsetRequest} {env : Env}
    (hstep : LiveStep l (.persist msg env) l') :
    ∀ entry ∈ msg.requestEntries, l.Covers entry.topic entry.partition.toNat entry.offset := by
  intro entry hentry
  cases hstep with
  | persist _ hmem =>
    rcases h.compared ⟨msg, []⟩ (by simp [hmem]) entry hentry with hunchecked | hcovers
    · cases hunchecked
    · exact hcovers

/-- **Every step keeps the committed offsets within the log.** -/
theorem BoundInv.step (h : BoundInv l hists) (hroom : a.Room (2 ^ 64) l) (hstep : LiveStep l a l') :
    ∃ hists', BoundInv l' hists' := by
  obtain ⟨hists', hinv, heffect⟩ := h.toLiveInv.step hroom hstep
  refine ⟨hists', hinv, ?_, ?_, ?_⟩
  · obtain ⟨nowMs, batch, hinternal, hbatch⟩ := heffect.internal
    intro r hr
    rw [hinternal] at hr
    rcases List.mem_append.mp hr with hold | hnew
    · exact (h.stored r hold).step heffect
    · rcases hbatch with rfl | ⟨msg, env, rfl, rfl⟩
      · cases hnew
      · -- a record of the commit that was persisted
        obtain ⟨item, hitem, heq⟩ := List.mem_map.mp (mem_assign hnew)
        obtain ⟨entry, hentry, rfl⟩ := List.mem_map.mp hitem
        obtain ⟨hkey, hvalue⟩ := Prod.mk.inj heq
        exact ⟨msg.groupId, entry.topic, entry.partition, entry.offset, _, hkey.symm, hvalue.symm,
          (h.covered hstep entry hentry).step heffect⟩
  · intro c hc entry hentry
    rcases hstep.commits_cases hc with hold | ⟨-, hentries⟩ | ⟨first, hold, -⟩
    · exact (h.named c hold entry hentry).step heffect
    · exact (Live.names_of_checkEntries hentries entry hentry).step heffect
    · exact (h.named _ hold entry hentry).step heffect
  · intro c hc entry hentry
    rcases hstep.commits_cases hc with hold | ⟨hunchecked, -⟩ | ⟨first, hold, hle⟩
    · exact (h.compared c hold entry hentry).imp_right fun hcovers => hcovers.step heffect
    · exact Or.inl (hunchecked ▸ hentry)
    · have hnamed := h.named _ hold entry hentry
      rcases h.compared _ hold entry hentry with hmem | hcovers
      · rcases List.mem_cons.mp hmem with rfl | hmem
        · right
          refine ⟨hnamed.step heffect, ?_⟩
          have hlog := (heffect.tracks entry.topic entry.partition.toNat).log_grows.length_le
          rw [UInt64.le_iff_toNat_le, h.highWatermark hnamed] at hle
          exact hle.trans hlog
        · exact Or.inl hmem
      · exact Or.inr (hcovers.step heffect)

theorem LiveReachable.boundInv (h : LiveReachable (fun l a => a.Room (2 ^ 64) l) l) :
    ∃ hists, BoundInv l hists := by
  refine Transition.Reach.invariant (I := fun l => ∃ hists, BoundInv l hists) ?_ ?_ h
  · intro l hinit
    refine ⟨_, liveInv_init hinit, ?_, ?_, ?_⟩
    · intro r hr
      cases hr
    · obtain ⟨config, coordinatorConfig, nowMs, b, -, rfl⟩ := hinit
      intro c hc
      cases hc
    · obtain ⟨config, coordinatorConfig, nowMs, b, -, rfl⟩ := hinit
      intro c hc
      cases hc
  · rintro l a l' ⟨hists, hinv⟩ hroom hstep
    exact hinv.step hroom hstep

end BoundInv

/-! ## What a consumer gets back -/

theorem mem_of_lookup_replay {key : Bytes} {entry : OffsetEntry} (rs : List Record) :
    ∀ {cache : OffsetCache}, (replay cache rs).lookup key = some entry →
    cache.lookup key = some entry ∨ ∃ r ∈ rs, r.key = key ∧ decodeValue r.value = entry := by
  induction rs with
  | nil => exact fun h => Or.inl h
  | cons r rs ih =>
    intro cache h
    rcases ih h with hcache | ⟨r', hr', hrest⟩
    · rw [AssocMap.lookup_insert_eq] at hcache
      split at hcache
      · rename_i hkey
        exact Or.inr ⟨r, List.mem_cons_self, hkey.symm, Option.some.inj hcache⟩
      · exact Or.inl hcache
    · exact Or.inr ⟨r', List.mem_cons_of_mem _ hr', hrest⟩

/-- **A stored offset from which a consumer can resume**: it is between 0 and the
next offset, and a FETCH from there, whatever other threads do meanwhile, is told
that it is out of range only if it was below the earliest offset at some moment. -/
structure Resumable (s : Shared) (offset : Int64) : Prop where
  nonneg : 0 ≤ offset
  le_next : offset.toInt ≤ s.part.nextOffset.toNat
  fetch : ∀ (msg : FetchRequest) (text : Bytes) (s' : Shared), msg.startOffset = offset.toUInt64 →
    Fetch Limits Limits msg s (.error ErrorCode.OFFSET_OUT_OF_RANGE text) s' →
    ∃ m, Works Limits s m ∧ Works Limits m s' ∧ msg.startOffset < m.part.earliestOffset

theorem toInt_toInt64_of_lt {n : UInt64} (h : n.toNat < 2 ^ 63) : n.toInt64.toInt = n.toNat := by
  rw [toInt_toInt64, signedLimit, if_pos h]

theorem SharedInv.resumable {s : Shared} (h : SharedInv s) (hroom : s.log.length < 2 ^ 63)
    {offset : UInt64} (hle : offset.toNat ≤ s.log.length) : Resumable s offset.toInt64 := by
  have hint := toInt_toInt64_of_lt (lt_of_le_of_lt hle hroom)
  refine ⟨?_, ?_, ?_⟩
  · rw [Int64.le_iff_toInt_le, hint]
    exact Int.natCast_nonneg _
  · rw [hint, h.next_toNat]
    exact_mod_cast hle
  · intro msg text s' hstart hfetch
    rw [UInt64.toUInt64_toInt64] at hstart
    have hstartLe : msg.startOffset ≤ s.part.nextOffset := by
      rw [UInt64.le_iff_toNat_le, h.next_toNat, hstart]
      exact hle
    cases h.fetch hstartLe hfetch with
    | removed hbefore hafter hbelow => exact ⟨_, hbefore, hafter, hbelow⟩

section Cache

variable {l : Live} {hists : Histories}

theorem BoundInv.lookup (h : BoundInv l hists) {key : Bytes} {entry : OffsetEntry}
    (hentry : l.store.cache.lookup key = some entry) :
    ∃ (g name : Bytes) (p : UInt16) (offset : UInt64), key = makeKey g name p ∧
      entry.offset = offset.toInt64 ∧ l.Covers name p.toNat offset := by
  have hcache : l.store.cache = replay ∅ (hists internalOffsetsTopic 0).records := h.broker.cache
  rw [hcache] at hentry
  rcases mem_of_lookup_replay _ hentry with hnone | ⟨r, hr, hkey, hvalue⟩
  · cases hnone
  · obtain ⟨g, name, p, offset, timestampMs, hkey', hvalue', hcovers⟩ := h.stored r hr
    refine ⟨g, name, p, offset, hkey.symm.trans hkey', ?_, hcovers⟩
    rw [← hvalue, hvalue', decodeValue_encodeValue]

theorem LiveInv.pipe_notMem (h : LiveInv l hists) {name : Bytes} {t : Topic}
    (ht : l.mgr.getTopic name = some t) : pipe ∉ name := by
  obtain ⟨dir, -, hinv⟩ := h.broker.storage.topic ht
  exact (separable_of_topicName hinv.valid).2

/-- **Committed offsets never run ahead of the log.** Whatever is stored is stored
for a partition that exists, and whatever is stored for a partition is an offset
from which a consumer can resume. -/
theorem committed_offsets_within_log (h : LiveReachable (fun l a => a.Room (2 ^ 63) l) l) :
    (∀ key entry, l.store.cache.lookup key = some entry → ∃ g name p s,
        key = makeKey g name p ∧ l.shared name p.toNat = some s ∧ Resumable s entry.offset) ∧
      ∀ g name p s, l.shared name p.toNat = some s → l.store.get g name p ≠ -1 →
        Resumable s (l.store.get g name p) := by
  obtain ⟨hists, hinv⟩ := (h.room_mono (by norm_num)).boundInv
  have hsize := h.size_lt (by norm_num)
  have hresume : ∀ {name : Bytes} {p : ℕ} {offset : UInt64} {s : Shared},
      l.Covers name p offset → l.shared name p = some s → Resumable s offset.toInt64 := by
    intro name p offset s hcovers hs
    have hlog := Nat.lt_of_le_of_lt (Nat.le_add_right _ _) (hsize name p)
    have hle := hcovers.2
    rw [← Live.shared_track hs] at hlog hle
    exact (hinv.shared hcovers.1.1 hs).resumable hlog hle
  constructor
  · intro key entry hentry
    obtain ⟨g, name, p, offset, hkey, hoffset, hcovers⟩ := hinv.lookup hentry
    obtain ⟨s, hs⟩ := hcovers.1.shared
    exact ⟨g, name, p, s, hkey, hs, hoffset ▸ hresume hcovers hs⟩
  · intro g name p s hs hget
    unfold OffsetStore.get at hget ⊢
    cases hentry : l.store.cache.lookup (makeKey g name p) with
    | none =>
      rw [hentry] at hget
      exact absurd rfl hget
    | some entry =>
      obtain ⟨g', name', p', offset, hkey, hoffset, hcovers⟩ := hinv.lookup hentry
      -- the triple of the query is the one the offset was stored for
      obtain ⟨t, -, ht, -, -⟩ := Live.shared_eq_some hs
      obtain ⟨-, t', ht', -⟩ := hcovers.1
      cases makeKey_inj (hinv.pipe_notMem ht) (hinv.pipe_notMem ht') hkey
      show Resumable s entry.offset
      rw [hoffset]
      exact hresume hcovers hs

end Cache

/-! ## A commit of the next offset -/

def commitRequest (offset : UInt64) : CommitOffsetRequest :=
  ⟨ascii "g", [], 0xFFFFFFFF, 1, [⟨ascii "t", 0, offset⟩]⟩

def commitFrame (offset : UInt64) : Frame :=
  makeFrame MessageType.COMMIT_OFFSET 2 (commitRequest offset).encode

theorem decode_commitFrame (offset : UInt64) :
    decodeBody CommitOffsetRequest.decode (commitFrame offset).body =
      some (commitRequest offset) := by
  refine (decodeBody_eq_some CommitOffsetRequest.exact_decode).mpr ⟨⟨?_, ?_, ?_, ?_⟩, rfl⟩
  · exact (by decide : Short (ascii "g"))
  · exact (by decide : Short ([] : Bytes))
  · rfl
  · intro e he
    cases List.mem_singleton.mp he
    exact (by decide : Short (ascii "t"))

/-- A commit of all that was produced passes the checks of the handler. -/
theorem Filled.checked {m n k : ℕ} {l : Live} {s : Shared} (h : Filled m l s n k)
    (hm : m ≤ 2 ^ 64) :
    let msg := commitRequest (UInt64.ofNat n)
    checkEntries l.mgr msg.requestEntries = none ∧
      checkCaller (l.coordinator.groups.lookup msg.groupId) msg.groupId msg.memberId
        msg.generation msg.requestEntries = none ∧
      UInt64.ofNat n ≤ highWatermark l.mgr (ascii "t") 0 := by
  obtain ⟨hists, hinv⟩ := (h.reachable.room_mono hm).liveInv
  obtain ⟨t, part, ht, hpart, -⟩ := Live.shared_eq_some h.shared
  have hpos : 0 < t.numPartitions := (List.getElem?_eq_some_iff.mp hpart).1
  have hnames : l.Names (ascii "t") (0 : UInt16).toNat := ⟨by decide, t, ht, hpos⟩
  refine ⟨?_, ?_, ?_⟩
  · have hreserved : TopicManager.isReserved (ascii "t") = false := by decide
    simp only [commitRequest, CommitOffsetRequest.requestEntries, List.map_cons, List.map_nil,
      checkEntries, hreserved, Bool.false_eq_true, if_false, ht]
    rw [show t.getPartition (0 : UInt16).toNat = some part from hpart]
  · rw [h.groups]
    rfl
  · have hlog : (l.tracks (ascii "t") (0 : UInt16).toNat).log.length = n := by
      rw [show (0 : UInt16).toNat = 0 from rfl, ← Live.shared_track h.shared]
      exact h.log
    rw [UInt64.le_iff_toNat_le, hinv.highWatermark hnames, hlog, UInt64.toNat_ofNat']
    exact Nat.mod_le _ _

/-- **Everything that was produced is committed.** -/
theorem Filled.commit {m n k : ℕ} {l : Live} {s : Shared} (h : Filled m l s n k) (hm : m ≤ 2 ^ 64)
    (hk : k + 1 < 2 ^ 64) : ∃ l' s' entry, Filled m l' s' n (k + 1) ∧
      l'.store.cache.lookup (makeKey (ascii "g") (ascii "t") 0) = some entry ∧
      entry.offset = (UInt64.ofNat n).toInt64 := by
  obtain ⟨hists, hinv⟩ := (h.reachable.room_mono hm).liveInv
  obtain ⟨t, part, ht, hpart, -⟩ := Live.shared_eq_some h.shared
  have hpos : 0 < t.numPartitions := (List.getElem?_eq_some_iff.mp hpart).1
  obtain ⟨hentries, hcaller, hle⟩ := h.checked hm
  set offset := UInt64.ofNat n
  have h₁ := h.reachable.step (show LiveAction.Room _ _
    (.openCommit (commitFrame offset)) from trivial)
    (.openCommit (decode_commitFrame offset) hentries hcaller)
  have h₂ := h₁.step (show LiveAction.Room _ _ (.checkOffset (commitRequest offset)) from trivial)
    (@LiveStep.checkOffset _ (commitRequest offset) ⟨ascii "t", 0, offset⟩ [] [] l.commits rfl hle)
  have hroom : l.committed + 1 < 2 ^ 64 := by
    rw [h.committed]
    exact hk
  have h₃ := h₂.step (show LiveAction.Room _ _ (.persist (commitRequest offset) {}) from hroom)
    (@LiveStep.persist _ (commitRequest offset) [] l.commits {} rfl)
  -- the offset store accepts what was compared
  set items := itemsOf (commitRequest offset).requestEntries {}
  have htopics : ∀ item ∈ items, item.topic.length < 65536 := by
    intro item hitem
    cases List.mem_singleton.mp hitem
    exact (show (ascii "t").length < 65536 by decide)
  have hinternal := (hinv.reserved internalOffsetsTopic 0 (by decide)).1
  obtain ⟨store, mgr, hcommit, -⟩ :=
    hinv.broker.commitTo (show (ascii "g").length < 65536 by decide)
    htopics 0 (lt_of_le_of_lt (Nat.add_le_add_right hinternal 1) hroom)
  change l.store.commitTo (ascii "g") items l.mgr 0 [] = (.OK, store, mgr) at hcommit
  have hstore := commitTo_store l.store (ascii "g") items l.mgr 0 []
  have hkeeps := @keeps_commitTo l.mgr l.store (ascii "g") items 0 []
  rw [hcommit] at hstore hkeeps
  obtain ⟨t', ht', hn⟩ := hkeeps _ t ht
  change LiveReachable _ { l with
    store := (l.store.commitTo (ascii "g") items l.mgr 0 []).2.1
    mgr := (l.store.commitTo (ascii "g") items l.mgr 0 []).2.2
    commits := l.commits
    committed := l.committed + 1 } at h₃
  rw [hcommit] at h₃
  obtain ⟨s', hs'⟩ := @Live.Names.shared { l with store, mgr, committed := l.committed + 1 }
    (ascii "t") 0 ⟨by decide, t', ht', hn ▸ hpos⟩
  have htrack : s'.toTrack = s.toTrack :=
    (Live.shared_track hs').trans (Live.shared_track h.shared).symm
  refine ⟨_, s', ⟨offset.toInt64, Int64.ofInt (toMillis ({} : Env).clock)⟩,
    ⟨h₃, hs', ?_, ?_, h.groups, congrArg (· + 1) h.committed⟩, ?_, rfl⟩
  · rw [htrack, h.idle]
  · rw [htrack, h.log]
  · rw [hstore]
    exact AList.lookup_insert _

/-- A commit, two more records, and a commit behind them. -/
theorem committed_offsets_within_log_two :
    ∃ l s, LiveReachable (fun l a => a.Room (2 ^ 63) l) l ∧ l.committed = 2 ∧
      l.shared (ascii "t") 0 = some s ∧ l.store.get (ascii "g") (ascii "t") 0 = 3 ∧
      Resumable s 3 := by
  obtain ⟨l₀, s₀, hone⟩ := @exists_filled (2 ^ 63) 1 (by norm_num) (by norm_num)
  obtain ⟨l₁, s₁, -, hfirst, -⟩ := hone.commit (by norm_num) (by norm_num)
  obtain ⟨l₂, s₂, htwo, -⟩ := hfirst.produce (by norm_num) (by norm_num)
  obtain ⟨l₃, s₃, hthree, -⟩ := htwo.produce (by norm_num) (by norm_num)
  obtain ⟨l, s, entry, hsecond, hentry, hoffset⟩ := hthree.commit (by norm_num) (by norm_num)
  have hget : l.store.get (ascii "g") (ascii "t") 0 = 3 := by
    rw [OffsetStore.get, hentry]
    exact hoffset
  have hresumable := (committed_offsets_within_log hsecond.reachable).2 (ascii "g") (ascii "t") 0 s
    hsecond.shared (by rw [hget]; decide)
  rw [hget] at hresumable
  exact ⟨l, s, hsecond.reachable, hsecond.committed, hsecond.shared, hget, hresumable⟩

/-- **Offset 2^63 is stored as a negative number**, though the partition has as many
records. -/
theorem committed_offset_negative :
    ∃ l s, LiveReachable (fun l a => a.Room (2 ^ 64) l) l ∧ l.shared (ascii "t") 0 = some s ∧
      ∃ entry, l.store.cache.lookup (makeKey (ascii "g") (ascii "t") 0) = some entry ∧
        entry.offset < 0 := by
  obtain ⟨l₀, s₀, hfilled⟩ := @exists_filled (2 ^ 64) (2 ^ 63) (by norm_num) (by norm_num)
  obtain ⟨l, s, entry, hcommitted, hentry, hoffset⟩ := hfilled.commit (by norm_num) (by norm_num)
  refine ⟨l, s, hcommitted.reachable, hcommitted.shared, entry, hentry, ?_⟩
  rw [hoffset]
  decide

end StreamForge
