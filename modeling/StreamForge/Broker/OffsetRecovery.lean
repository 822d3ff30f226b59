import StreamForge.Broker.BrokerInvariant

/-!
# Recovering the committed offsets

A commit writes the cache and the log, and a start rebuilds the cache from the
log, page by page. Both come to the same map: a commit puts into the cache what
a replay of its records puts there, and the pages of the replay, cut by a
number of messages and by bytes, are the whole log from its first offset on,
each record once (`consumed`).

A key is stored with a 32-bit length, so two keys that differ by their first
2^32 bytes can be one on disk.
-/

namespace StreamForge

open FileTrace

namespace OffsetStore

/-! ## The pages of a replay -/

def consumed (p : Partition) (fs : FileSystem) (highWatermark : UInt64) : ℕ → UInt64 → List Record
  | 0, _ => []
  | fuel + 1, curr =>
    if curr < highWatermark then
      let records := (p.read fs curr 1000 (1024 * 1024)).records
      match records.getLast? with
      | none => []
      | some last => records ++ consumed p fs highWatermark fuel (last.offset + 1)
    else []

/-- A page that loads: all of it is replayed, and the next one begins behind it. -/
theorem loadRecords_eq {rs : List Record} : ∀ {curr curr' : UInt64} {cache cache' : OffsetCache},
    loadRecords rs curr cache = .ok (curr', cache') →
    cache' = replay cache rs ∧ curr' = (rs.getLast?.map fun r => r.offset + 1).getD curr := by
  induction rs with
  | nil =>
    intro curr curr' cache cache' h
    cases h
    exact ⟨rfl, rfl⟩
  | cons r rest ih =>
    intro curr curr' cache cache' h
    by_cases hr : Loadable r
    · rw [loadRecords, loadRecord_ok hr] at h
      obtain ⟨hcache, hcurr⟩ := ih h
      refine ⟨hcache, ?_⟩
      rw [hcurr, List.getLast?_cons]
      cases rest.getLast? with
      | none => rfl
      | some last => rfl
    · obtain ⟨st, heq, -⟩ := loadRecord_error hr cache
      rw [loadRecords, heq] at h
      cases h

theorem loadRecords_error_status {rs : List Record} : ∀ {curr : UInt64} {cache : OffsetCache}
    {st : Status}, loadRecords rs curr cache = .error st → st.ok = false := by
  induction rs with
  | nil =>
    intro curr cache st h
    cases h
  | cons r rest ih =>
    intro curr cache st h
    by_cases hr : Loadable r
    · rw [loadRecords, loadRecord_ok hr] at h
      exact ih h
    · obtain ⟨st', heq, hcode⟩ := loadRecord_error hr cache
      rw [loadRecords, heq] at h
      cases h
      rw [Status.ok, hcode]
      rfl

/-- **A replay that ends well is the replay of what it has read.** -/
theorem loadLoop_consumed (p : Partition) (fs : FileSystem) (highWatermark : UInt64) :
    ∀ (fuel : ℕ) (curr : UInt64) (cache : OffsetCache),
    (loadLoop p fs highWatermark fuel curr cache).1.ok = true →
    (loadLoop p fs highWatermark fuel curr cache).2 =
      replay cache (consumed p fs highWatermark fuel curr) := by
  intro fuel
  induction fuel with
  | zero => exact fun _ _ _ => rfl
  | succ fuel ih =>
    intro curr cache h
    unfold loadLoop at h ⊢
    unfold consumed
    by_cases hlt : curr < highWatermark
    · simp only [if_pos hlt] at h ⊢
      generalize p.read fs curr 1000 (1024 * 1024) = res at h ⊢
      cases hstatus : res.status.ok with
      | false =>
        rw [hstatus] at h
        cases h
      | true =>
        simp only [hstatus, Bool.not_true, Bool.false_eq_true, if_false] at h ⊢
        cases hlast : res.records.getLast? with
        | none =>
          rw [List.getLast?_eq_none_iff.mp hlast]
          rfl
        | some last =>
          have hne : res.records.isEmpty = false := by
            rw [List.isEmpty_eq_false_iff]
            rintro hnil
            rw [hnil] at hlast
            cases hlast
          simp only [hne, Bool.false_eq_true, if_false] at h ⊢
          cases hload : loadRecords res.records curr cache with
          | error st =>
            simp only [hload] at h
            rw [loadRecords_error_status hload] at h
            cases h
          | ok next =>
            obtain ⟨curr', cache'⟩ := next
            obtain ⟨rfl, rfl⟩ := loadRecords_eq hload
            simp only [hload, hlast, Option.map_some, Option.getD_some] at h ⊢
            rw [ih _ _ h]
            exact (List.foldl_append ..).symm
    · simp only [if_neg hlt]
      rfl

section Pages

variable {st : RunState}

theorem page_last (hinv : RunInv st) (hroom : st.acked.length < 2 ^ 64) {curr k : ℕ} (hk : 0 < k)
    (hle : curr + k ≤ st.acked.length) :
    ∃ last, ((st.acked.drop curr).take k).getLast? = some last ∧
      (last.offset + 1).toNat = curr + k := by
  have hlen : ((st.acked.drop curr).take k).length = k := by
    rw [List.length_take, List.length_drop]
    omega
  have hlast := ((hinv.1.drop curr).take k).getLast (by omega) (by omega)
  rwa [hlen, Nat.zero_add] at hlast

/-- **The pages are the rest of the log.** The induction is on the fuel, as that
of `loadLoop_ok`. -/
theorem consumed_eq (hinv : RunInv st) (hroom : st.acked.length < 2 ^ 64) :
    ∀ {fuel : ℕ} {curr : UInt64}, st.part.earliestOffset ≤ curr →
    st.acked.length - curr.toNat < fuel →
    consumed st.part st.fs st.part.nextOffset fuel curr = st.acked.drop curr.toNat := by
  intro fuel
  induction fuel with
  | zero => intro curr _ hfuel; omega
  | succ fuel ih =>
    intro curr hearly hfuel
    have hnext := hinv.next_toNat hroom
    unfold consumed
    by_cases hlt : curr < st.part.nextOffset
    · obtain ⟨k, hk, hle, hread⟩ := read_chunk hinv hroom hearly hlt
      obtain ⟨last, hlast, hoff⟩ := page_last hinv hroom hk hle
      have hearly' : st.part.earliestOffset ≤ last.offset + 1 := by
        have := UInt64.le_iff_toNat_le.mp hearly
        exact UInt64.le_iff_toNat_le.mpr (by omega)
      simp only [if_pos hlt, hread, hlast]
      rw [ih hearly' (by omega), hoff, ← List.drop_drop, List.take_append_drop]
    · rw [if_neg hlt, eq_comm, List.drop_eq_nil_iff]
      have := UInt64.lt_iff_toNat_lt.not.mp hlt
      omega

theorem loadLoop_enough (hinv : RunInv st) (hroom : st.acked.length < 2 ^ 64) (extra : ℕ) :
    ∀ {fuel : ℕ} {curr : UInt64} {cache : OffsetCache}, st.part.earliestOffset ≤ curr →
    st.acked.length - curr.toNat < fuel →
    loadLoop st.part st.fs st.part.nextOffset (fuel + extra) curr cache =
      loadLoop st.part st.fs st.part.nextOffset fuel curr cache := by
  intro fuel
  induction fuel with
  | zero => intro curr cache _ hfuel; omega
  | succ fuel ih =>
    intro curr cache hearly hfuel
    have hnext := hinv.next_toNat hroom
    rw [Nat.add_right_comm]
    unfold loadLoop
    by_cases hlt : curr < st.part.nextOffset
    · obtain ⟨k, hk, hle, hread⟩ := read_chunk hinv hroom hearly hlt
      obtain ⟨last, hlast, hoff⟩ := page_last hinv hroom hk hle
      have hearly' : st.part.earliestOffset ≤ last.offset + 1 := by
        have := UInt64.le_iff_toNat_le.mp hearly
        exact UInt64.le_iff_toNat_le.mpr (by omega)
      simp only [if_pos hlt, hread]
      cases hload : loadRecords ((st.acked.drop curr.toNat).take k) curr cache with
      | error status => rfl
      | ok next =>
        obtain ⟨curr', cache'⟩ := next
        obtain ⟨-, rfl⟩ := loadRecords_eq hload
        simp only [hlast, Option.map_some, Option.getD_some]
        rw [ih hearly' (by omega)]
    · simp only [if_neg hlt]

end Pages

/-- **What one replay of a partition does**: it ends after at most as many rounds
as there are records, and, if it ends well, the cache is made of every record
from the first offset to the next one, each taken once. -/
structure Replayed (p : Partition) (fs : FileSystem) (status : Status) (cache : OffsetCache) :
    Prop where
  terminates : ∀ fuel, p.nextOffset.toNat - p.earliestOffset.toNat < fuel →
    loadLoop p fs p.nextOffset fuel p.earliestOffset ∅ = (status, cache)
  loaded : status.ok = true → ∀ fuel, p.nextOffset.toNat - p.earliestOffset.toNat < fuel →
    cache = replay ∅ (consumed p fs p.nextOffset fuel p.earliestOffset)
  once : ∀ fuel, p.nextOffset.toNat - p.earliestOffset.toNat < fuel →
    (consumed p fs p.nextOffset fuel p.earliestOffset).map (fun r => r.offset.toNat) =
      List.range' p.earliestOffset.toNat (p.nextOffset.toNat - p.earliestOffset.toNat)

theorem loadCache_replayed {p : Partition} {d : Disk} {hist : History} (h : Holds p d hist)
    (hroom : hist.records.length < 2 ^ 64) :
    Replayed p (Fs.start d) (loadCache p (Fs.start d)).1 (loadCache p (Fs.start d)).2 := by
  have hnext : p.nextOffset.toNat = hist.records.length := h.1.next_toNat hroom
  have hterm : ∀ fuel, p.nextOffset.toNat - p.earliestOffset.toNat < fuel →
      loadLoop p (Fs.start d) p.nextOffset fuel p.earliestOffset ∅ = loadCache p (Fs.start d) := by
    intro fuel hfuel
    obtain ⟨extra, rfl⟩ := Nat.exists_eq_add_of_lt hfuel
    rw [Nat.add_right_comm]
    exact loadLoop_enough h.1 hroom extra (UInt64.le_refl _) (by simp only; omega)
  refine ⟨hterm, ?_, ?_⟩
  · intro hok fuel hfuel
    rw [← hterm fuel hfuel] at hok ⊢
    exact loadLoop_consumed _ _ _ _ _ _ hok
  · intro fuel hfuel
    have hcons := h.1.1.drop p.earliestOffset.toNat
    rw [Nat.zero_add] at hcons
    have hpages := @consumed_eq _ h.1 hroom fuel p.earliestOffset (UInt64.le_refl _)
      (by simp only; omega)
    rw [hpages, hcons.map_offset, List.length_drop, hnext]

end OffsetStore

open OffsetStore

/-! ## Lives of the store -/

structure OffsetLog where
  store : OffsetStore
  mgr : TopicManager

namespace OffsetLog

/-- What a process does with the store: calls of `commit`, and a clean end with
a start on the files. -/
inductive Op where
  | commit (groupId : Bytes) (items : List OffsetCommitItem) (nowMs : Int64)
  | restart (config : StorageConfig) (nowMs : Int64)

/-- The start of a process, as far as the committed offsets are concerned. -/
def openAndRecover (config : StorageConfig) (dataDir : DataDir) (nowMs : Int64) :
    Status × OffsetLog :=
  match TopicManager.openAndRecoverAll config dataDir with
  | (st, mgr) =>
    if !st.ok then (st, ⟨{}, mgr⟩)
    else
      match OffsetStore.openAndRecover mgr nowMs with
      | (st, store, mgr) => (st, ⟨store, mgr⟩)

/-- A restart that fails ends the life of the store. -/
def step (s : OffsetLog) : Op → Option OffsetLog
  | .commit groupId items nowMs =>
    match s.store.commitTo groupId items s.mgr nowMs [] with
    | (_, store, mgr) => some ⟨store, mgr⟩
  | .restart config nowMs =>
    match openAndRecover config s.mgr.dataDir nowMs with
    | (st, s) => if st.ok then some s else none

def lives (config : StorageConfig) (nowMs : Int64) (ops : List Op) : Option OffsetLog :=
  ops.foldlM step (openAndRecover config ∅ nowMs).2

def Op.count : Op → ℕ
  | .commit _ items _ => items.length
  | .restart _ _ => 0

/-- Every key fits, with the 16 bytes of its value, into one record. -/
def Op.Sized : Op → Prop
  | .commit groupId items _ =>
    ∀ item ∈ items, (makeKey groupId item.topic item.partition).length < 2 ^ 32 - 44
  | .restart _ _ => True

def broker (s : OffsetLog) : Broker := ⟨s.mgr, s.store, {}, true⟩

/-- **The invariant**: the cache is what the log says, and no history is longer
than `n`. -/
def LogInv (n : ℕ) (s : OffsetLog) : Prop :=
  ∃ hists, BrokerInv s.broker hists ∧ ∀ name i, (hists name i).records.length ≤ n

section Start

variable {dataDir : DataDir} {hists : Histories}

/-- **A start** replays the log of the data directory. If it succeeds, the store
stands for the same histories, and it succeeds if every record can be loaded. -/
theorem openAndRecover_spec (h : DataInv dataDir hists) (hroom : hists.HasRoom)
    (hkept : (hists internalOffsetsTopic 0).earliest = 0) (config : StorageConfig) (nowMs : Int64) :
    ∃ st s t p, openAndRecover config dataDir nowMs = (st, s) ∧
      s.mgr.getTopic internalOffsetsTopic = some t ∧ t.getPartition 0 = some p ∧
      Replayed p (Fs.start (s.mgr.partDirs internalOffsetsTopic 0)) st s.store.cache ∧
      (st.ok = true → BrokerInv s.broker hists) ∧
      ((∀ r ∈ (hists internalOffsetsTopic 0).records, Loadable r) → st.ok = true) := by
  obtain ⟨mgr, htopics, hinv⟩ := h.openAndRecoverAll config
  obtain ⟨t, p, mgr', heq, ht, hp, hheld, hinv'⟩ := openAndRecover_eq hinv nowMs
  have hopen : openAndRecover config dataDir nowMs =
      ((loadCache p (Fs.start (mgr'.partDirs internalOffsetsTopic 0))).1,
        ⟨⟨true, (loadCache p (Fs.start (mgr'.partDirs internalOffsetsTopic 0))).2⟩, mgr'⟩) := by
    unfold openAndRecover
    simp only [htopics, Status.if_not_ok, heq]
  refine ⟨_, _, t, p, hopen, ht, hp, loadCache_replayed hheld (hroom _ 0), ?_, ?_⟩
  · intro hok
    have hall : ∀ r ∈ (hists internalOffsetsTopic 0).records, Loadable r := by
      intro r hr
      by_contra hbad
      have hcode := loadCache_corrupt hheld (hroom _ 0) hkept ⟨r, hr, hbad⟩
      rw [Status.ok, hcode] at hok
      cases hok
    refine ⟨hinv', by rw [broker, ht]; rfl, hkept, rfl, ?_, rfl, ?_⟩
    · rw [broker, loadCache_ok hheld (hroom _ 0) hkept hall]
    · intro id hid
      cases hid
  · intro hall
    rw [loadCache_ok hheld (hroom _ 0) hkept hall]
    rfl

end Start

theorem logInv_init (config : StorageConfig) (nowMs : Int64) :
    LogInv 0 (openAndRecover config ∅ nowMs).2 := by
  obtain ⟨st, s, -, -, heq, -, -, -, hinv, hok⟩ := openAndRecover_spec dataInv_empty
    (fun _ _ => by simp) rfl config nowMs
  rw [heq]
  exact ⟨_, hinv (hok (by simp)), fun _ _ => Nat.le_refl _⟩

theorem LogInv.step {n : ℕ} {s s' : OffsetLog} {op : Op} (h : LogInv n s) (hsized : op.Sized)
    (hroom : n + op.count < 2 ^ 64) (hstep : s.step op = some s') : LogInv (n + op.count) s' := by
  obtain ⟨hists, hinv, hlen⟩ := h
  cases op with
  | commit groupId items nowMs =>
    have hsmall : ∀ kv ∈ batchOf groupId items, kv.1.length + kv.2.length < 2 ^ 32 - 28 := by
      intro kv hkv
      obtain ⟨item, hitem, rfl⟩ := List.mem_map.mp hkv
      have := hsized item hitem
      show (makeKey groupId item.topic item.partition).length +
        (encodeValue item.offset item.timestampMs).length < 2 ^ 32 - 28
      rw [length_encodeValue]
      omega
    have hlog := hlen internalOffsetsTopic 0
    simp only [Op.count] at hroom
    obtain ⟨st, store, manager, batch, heq, ⟨hists', hinv', hgrows⟩, -⟩ :=
      hinv.commitTo_sized hsmall nowMs (by omega)
    have hcommit : s.store.commitTo groupId items s.mgr nowMs [] = (st, store, manager) := heq
    simp only [OffsetLog.step, hcommit, Option.some.injEq] at hstep
    subst hstep
    refine ⟨hists', hinv', fun name i => ?_⟩
    have := hgrows.length_le name i
    have := hlen name i
    simp only [Op.count]
    omega
  | restart config nowMs =>
    have hfits : hists.HasRoom := by
      intro name i
      have := hlen name i
      simp only [Op.count] at hroom
      omega
    obtain ⟨st, s₁, -, -, heq, -, -, -, hopen, -⟩ :=
      openAndRecover_spec (hinv.storage.dataInv hfits) hfits hinv.kept config nowMs
    have hmgr : s.broker.manager = s.mgr := rfl
    rw [hmgr] at heq
    simp only [OffsetLog.step, heq] at hstep
    split at hstep
    · rename_i hok
      cases hstep
      exact ⟨hists, hopen hok, hlen⟩
    · cases hstep

theorem LogInv.run {ops : List Op} : ∀ {n : ℕ} {s s' : OffsetLog}, LogInv n s →
    (∀ op ∈ ops, op.Sized) → n + (ops.map Op.count).sum < 2 ^ 64 →
    ops.foldlM OffsetLog.step s = some s' → LogInv (n + (ops.map Op.count).sum) s' := by
  induction ops with
  | nil =>
    intro n s s' h _ _ hrun
    cases hrun
    exact h
  | cons op rest ih =>
    intro n s s' h hsized hroom hrun
    obtain ⟨s₁, hstep, hrest⟩ := Option.bind_eq_some_iff.mp hrun
    simp only [List.map_cons, List.sum_cons, ← Nat.add_assoc] at hroom ⊢
    exact ih (h.step (hsized op (by simp)) (by omega) hstep)
      (fun x hx => hsized x (List.mem_cons_of_mem _ hx)) hroom hrest

/-- **Replay reproduces the cache.** After any life of the store the next start
replays every record of the log once, and if it succeeds, the map it has made is
the one that the process had when it ended. -/
theorem replay_reproduces_cache (config : StorageConfig) (nowMs : Int64) {ops : List Op}
    {s : OffsetLog} (hlives : lives config nowMs ops = some s) (hsized : ∀ op ∈ ops, op.Sized)
    (hroom : (ops.map Op.count).sum < 2 ^ 64) (config' : StorageConfig) (nowMs' : Int64) :
    ∃ st s' t p, openAndRecover config' s.mgr.dataDir nowMs' = (st, s') ∧
      s'.mgr.getTopic internalOffsetsTopic = some t ∧ t.getPartition 0 = some p ∧
      Replayed p (Fs.start (s'.mgr.partDirs internalOffsetsTopic 0)) st s'.store.cache ∧
      (st.ok = true → s'.store.cache = s.store.cache) := by
  obtain ⟨hists, hinv, hlen⟩ := (logInv_init config nowMs).run hsized (by omega) hlives
  have hfits : hists.HasRoom := by
    intro name i
    have := hlen name i
    omega
  obtain ⟨st, s', t, p, heq, ht, hp, hreplayed, hopen, -⟩ :=
    openAndRecover_spec (hinv.storage.dataInv hfits) hfits hinv.kept config' nowMs'
  refine ⟨st, s', t, p, heq, ht, hp, hreplayed, fun hok => ?_⟩
  exact (hopen hok).cache.trans hinv.cache.symm

def twoBatches : List Op :=
  [.commit (ascii "g") [⟨ascii "t", 0, 3, 10⟩, ⟨ascii "t", 1, 4, 10⟩, ⟨ascii "t", 0, 5, 11⟩] 0,
    .restart {} 0, .commit (ascii "g") [⟨ascii "t", 0, 7, 12⟩] 1]

theorem replay_reproduces_two_batches : ∃ s s', lives {} 0 twoBatches = some s ∧
    (openAndRecover {} s.mgr.dataDir 2).2 = s' ∧ s'.store.cache = s.store.cache ∧
    s'.store.cache.lookup (ascii "g|t|0") = some ⟨7, 12⟩ ∧
    s'.store.cache.lookup (ascii "g|t|1") = some ⟨4, 10⟩ := by
  have hread : ((lives {} 0 twoBatches).map fun s =>
      match openAndRecover {} s.mgr.dataDir 2 with
      | (st, s') => (st.ok, s'.store.cache.lookup (ascii "g|t|0"),
          s'.store.cache.lookup (ascii "g|t|1"))) =
      some (true, some ⟨7, 12⟩, some ⟨4, 10⟩) := by decide +kernel
  obtain ⟨s, hs, hread⟩ := Option.map_eq_some_iff.mp hread
  have hsized : ∀ op ∈ twoBatches, op.Sized := by
    intro op hop
    simp only [twoBatches, List.mem_cons, List.not_mem_nil, or_false] at hop
    rcases hop with rfl | rfl | rfl
    · show ∀ item ∈ _, _
      decide
    · trivial
    · show ∀ item ∈ _, _
      decide
  obtain ⟨st, s', -, -, heq, -, -, -, hcache⟩ :=
    replay_reproduces_cache {} 0 hs hsized (by decide) {} 2
  simp only [heq, Prod.mk.injEq] at hread
  exact ⟨s, s', hs, by rw [heq], hcache hread.1, hread.2.1, hread.2.2⟩

/-! ### Keys that a 32-bit length cuts -/

/-- **Commits whose keys are the same on disk** leave the same files. -/
theorem commitTo_cut {groupId short : Bytes} {items : List OffsetCommitItem}
    (hcut : (batchOf groupId items).map (fun kv => (cut kv.1, cut kv.2)) = batchOf short items)
    (store : OffsetStore) (mgr : TopicManager) (nowMs : Int64) :
    (store.commitTo groupId items mgr nowMs []).1 = (store.commitTo short items mgr nowMs []).1 ∧
      (store.commitTo groupId items mgr nowMs []).2.2 =
        (store.commitTo short items mgr nowMs []).2.2 := by
  have hcommit : ∀ (p : Partition) (fs : FileSystem),
      (store.commit groupId items p nowMs [] fs).1 = (store.commit short items p nowMs [] fs).1 ∧
        (store.commit groupId items p nowMs [] fs).2.2 =
          (store.commit short items p nowMs [] fs).2.2 := by
    intro p fs
    unfold OffsetStore.commit
    rw [← hcut, appendBatch_cut]
    split
    · exact ⟨rfl, rfl⟩
    · split
      · exact ⟨rfl, rfl⟩
      · rcases p.appendBatch (batchOf groupId items) nowMs [] fs with ⟨_ | _, p', fs'⟩
        · exact ⟨rfl, rfl⟩
        · exact ⟨rfl, rfl⟩
  unfold OffsetStore.commitTo
  cases mgr.getTopic internalOffsetsTopic with
  | none => exact ⟨rfl, rfl⟩
  | some t =>
    rcases Option.eq_none_or_eq_some (t.getPartition 0) with hp | ⟨p, hp⟩
    · simp only [hp, and_self]
    · simp only [hp]
      have hboth := hcommit p (Fs.start (mgr.partDirs internalOffsetsTopic 0))
      revert hboth
      rcases store.commit groupId items p nowMs [] _ with ⟨st, store₁, p₁, fs₁⟩
      rcases store.commit short items p nowMs [] _ with ⟨st', store₂, p₂, fs₂⟩
      rintro ⟨hstatus, hrest⟩
      cases hrest
      exact ⟨hstatus, rfl⟩

section Overlong

variable {filler : Bytes}

/-- A group id of 2^32 + 1 bytes that begins with a whole key. -/
def overlongGroup (filler : Bytes) : Bytes := ascii "g|t|0" ++ filler

theorem overlong_key (hfiller : filler.length = 2 ^ 32 - 4) :
    (makeKey (overlongGroup filler) (ascii "t") 0).length = 2 ^ 32 + 5 ∧
      cut (makeKey (overlongGroup filler) (ascii "t") 0) = makeKey (ascii "g") (ascii "t") 0 := by
  have hkey : makeKey (overlongGroup filler) (ascii "t") 0 =
      ascii "g|t|0" ++ (filler ++ ascii "|t|0") := by
    simp only [makeKey, overlongGroup, List.append_assoc]
    rfl
  have hfive : (ascii "g|t|0").length = 5 := rfl
  have hfour : (ascii "|t|0").length = 4 := rfl
  have hlen : (makeKey (overlongGroup filler) (ascii "t") 0).length = 2 ^ 32 + 5 := by
    rw [hkey, List.length_append, List.length_append]
    omega
  refine ⟨hlen, ?_⟩
  have hu32 : u32 (2 ^ 32 + 5) = 5 := by decide
  rw [cut, hlen, hu32, hkey, ← hfive, List.take_left']
  · rfl
  · rfl

def itemSeven : OffsetCommitItem := ⟨ascii "t", 0, 7, 0⟩

theorem overlong_batch (hfiller : filler.length = 2 ^ 32 - 4) :
    (batchOf (overlongGroup filler) [itemSeven]).map (fun kv => (cut kv.1, cut kv.2)) =
      batchOf (ascii "g") [itemSeven] := by
  have hvalue : cut (encodeValue 7 0) = encodeValue 7 0 := by decide
  simp only [batchOf, itemSeven, List.map_cons, List.map_nil, (overlong_key hfiller).2, hvalue]

end Overlong

def newLog : OffsetLog := (openAndRecover {} ∅ 0).2

def logOfG : TopicManager := (newLog.store.commitTo (ascii "g") [itemSeven] newLog.mgr 0 []).2.2

/-- One commit for a group id of 2^32 + 1 bytes: the process remembers its key,
the log has that of the group "g". -/
theorem overlong_key_recovered_as_other : ∃ ops s, lives {} 0 ops = some s ∧
    (openAndRecover {} s.mgr.dataDir 0).1.ok = true ∧
    s.store.cache.lookup (ascii "g|t|0") = none ∧
    (openAndRecover {} s.mgr.dataDir 0).2.store.cache.lookup (ascii "g|t|0") = some ⟨7, 0⟩ := by
  obtain ⟨filler, hfiller⟩ : ∃ filler : Bytes, filler.length = 2 ^ 32 - 4 :=
    ⟨List.replicate (2 ^ 32 - 4) 120, List.length_replicate⟩
  obtain ⟨hstatus, hmgr⟩ := commitTo_cut (overlong_batch hfiller) newLog.store newLog.mgr 0
  have hshort : (newLog.store.commitTo (ascii "g") [itemSeven] newLog.mgr 0 []).1.ok = true := by
    decide +kernel
  have hempty : newLog.store.cache.lookup (ascii "g|t|0") = none := by decide +kernel
  have hreopen : (openAndRecover {} logOfG.dataDir 0).1.ok = true ∧
      (openAndRecover {} logOfG.dataDir 0).2.store.cache.lookup (ascii "g|t|0") = some ⟨7, 0⟩ := by
    decide +kernel
  have hne : ascii "g|t|0" ≠ makeKey (overlongGroup filler) (ascii "t") 0 := by
    intro heq
    have hlen := (overlong_key hfiller).1
    rw [← heq] at hlen
    cases hlen
  have hstore := commitTo_store newLog.store (overlongGroup filler) [itemSeven] newLog.mgr 0 []
  rw [hstatus, if_pos hshort] at hstore
  set store : OffsetStore := { newLog.store with
    cache := cacheItems (overlongGroup filler) [itemSeven] newLog.store.cache } with hcached
  have hcommit : newLog.store.commitTo (overlongGroup filler) [itemSeven] newLog.mgr 0 [] =
      ((newLog.store.commitTo (ascii "g") [itemSeven] newLog.mgr 0 []).1, store, logOfG) := by
    rw [← hstatus, ← hstore, logOfG, ← hmgr]
  have hstep : newLog.step (.commit (overlongGroup filler) [itemSeven] 0) =
    some ⟨store, logOfG⟩ := by
    simp only [step, hcommit]
  refine ⟨[.commit (overlongGroup filler) [itemSeven] 0], ⟨store, logOfG⟩, ?_, hreopen.1, ?_, ?_⟩
  · rw [lives, List.foldlM_cons]
    exact Option.bind_eq_some_iff.mpr ⟨_, hstep, rfl⟩
  · rw [hcached]
    exact (AList.lookup_insert_ne hne).trans hempty
  · dsimp only
    exact hreopen.2

end OffsetLog

end StreamForge
