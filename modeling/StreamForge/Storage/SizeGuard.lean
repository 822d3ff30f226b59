import StreamForge.Storage.Counters

/-!
# The record size guard

Both append paths compute the size of a record in 32 bits before they compare it
with the limit, and `encode` computes the size of its buffer the same way. For a
record whose true size is above the limit but small modulo 2^32 the guard lets it
through. `size_guard_exact_iff` says that there is no other way for it to be wrong,
in any state that a run without failures reaches, earlier records of any length
included.
-/

namespace StreamForge

open FileTrace FileHandle StreamForge.Partition

/-! ## Exact guards -/

def trueSize (item : Bytes × Bytes) : ℕ := 28 + item.1.length + item.2.length

theorem recordTooLarge_iff_mod (item : Bytes × Bytes) :
    recordTooLarge item.1 item.2 = true ↔ maxRecordSize < trueSize item % 2 ^ 32 := by
  unfold recordTooLarge recordSize trueSize u32
  rw [decide_eq_true_iff]
  have hmod : (28 + (item.1.length + item.2.length) % 2 ^ 32) % 2 ^ 32 =
      (28 + item.1.length + item.2.length) % 2 ^ 32 := by omega
  rw [hmod]

def Partition.logBytes (p : Partition) (d : Disk) : Bytes :=
  p.segments.flatMap fun seg => logOf d seg.baseOffset

/-- What a call with these records should do: refuse exactly those with a record above
the limit, and otherwise write the records as they are. -/
structure GuardExact (p : Partition) (fs : FileSystem) (items : List (Bytes × Bytes)) (ts : Int64)
    (res : Except Status UInt64 × Partition × FileSystem) : Prop where
  inside : (∀ item ∈ items, recordTooLarge item.1 item.2 = false) →
    ∀ item ∈ items, RecordCodec.InBuffer item.1 item.2
  refuses : (∃ st, res.1 = .error st ∧ st.code = .RecordTooLarge) ↔
    ∃ item ∈ items, maxRecordSize < trueSize item
  unchanged : (∃ item ∈ items, maxRecordSize < trueSize item) → res.2 = (p, fs)
  accepts : (∀ item ∈ items, trueSize item ≤ maxRecordSize) → res.1 = .ok p.nextOffset
  writes : (∀ item ∈ items, trueSize item ≤ maxRecordSize) →
    res.2.1.logBytes res.2.2.dir = p.logBytes fs.dir ++ encodeAll (assign p.nextOffset ts items)
  readBack : (∀ item ∈ items, trueSize item ≤ maxRecordSize) →
    ∀ r ∈ assign p.nextOffset ts items,
      (RecordCodec.encode r).length = 28 + r.key.length + r.value.length ∧
      ∀ rest, RecordCodec.decode (RecordCodec.encode r ++ rest) = .ok r

/-- The call returned the next offset and added these records to the logs. -/
def WroteAll (p : Partition) (fs : FileSystem) (rs : List Record)
    (res : Except Status UInt64 × Partition × FileSystem) : Prop :=
  res.1 = .ok p.nextOffset ∧ res.2.1.logBytes res.2.2.dir = p.logBytes fs.dir ++ encodeAll rs

def Misjudged (items : List (Bytes × Bytes)) : Prop :=
  (∀ item ∈ items, trueSize item % 2 ^ 32 ≤ maxRecordSize) ∧
    ∃ item ∈ items, maxRecordSize < trueSize item

/-- **The guard is exact unless it misjudges**, for any call that refuses what the
guard refuses and writes the rest. -/
theorem guardExact_iff {p : Partition} {fs : FileSystem} {items : List (Bytes × Bytes)} {ts : Int64}
    {res : Except Status UInt64 × Partition × FileSystem}
    (hrefused : ∀ item ∈ items, recordTooLarge item.1 item.2 = true →
      ∃ st, res = (.error st, p, fs) ∧ st.code = .RecordTooLarge)
    (haccepted : (∀ item ∈ items, recordTooLarge item.1 item.2 = false) →
      (∀ item ∈ items, RecordCodec.InBuffer item.1 item.2) →
      WroteAll p fs (assign p.nextOffset ts items) res) :
    GuardExact p fs items ts res ↔ ¬Misjudged items := by
  have hseen : (∀ item ∈ items, recordTooLarge item.1 item.2 = false) ↔
      ∀ item ∈ items, trueSize item % 2 ^ 32 ≤ maxRecordSize := by
    refine forall₂_congr fun item _ => ?_
    rw [← Bool.not_eq_true, recordTooLarge_iff_mod, Nat.not_lt]
  have hmax : maxRecordSize < 2 ^ 32 := by decide
  constructor
  · rintro h ⟨hnone, hsome⟩
    rw [← hseen] at hnone
    obtain ⟨hok, -⟩ := haccepted hnone (h.inside hnone)
    obtain ⟨st, herror, -⟩ := h.refuses.mpr hsome
    rw [hok] at herror
    cases herror
  · intro hjudged
    by_cases hnone : ∀ item ∈ items, recordTooLarge item.1 item.2 = false
    · have hfit : ∀ item ∈ items, trueSize item ≤ maxRecordSize := by
        by_contra hlarge
        push Not at hlarge
        exact hjudged ⟨hseen.mp hnone, hlarge⟩
      have hlarge : ¬∃ item ∈ items, maxRecordSize < trueSize item := by
        rintro ⟨item, hitem, hlt⟩
        exact absurd (hfit item hitem) (Nat.not_le.mpr hlt)
      have hinside : ∀ item ∈ items, RecordCodec.InBuffer item.1 item.2 := by
        intro item hitem
        have hle := hfit item hitem
        unfold trueSize at hle
        rw [RecordCodec.inBuffer_iff, u32_of_lt (by omega), u32_of_lt (by omega)]
        omega
      obtain ⟨hok, hlogs⟩ := haccepted hnone hinside
      refine ⟨fun _ => hinside, ⟨?_, fun h => absurd h hlarge⟩, fun h => absurd h hlarge,
        fun _ => hok, fun _ => hlogs, ?_⟩
      · rintro ⟨st, herror, -⟩
        rw [hok] at herror
        cases herror
      · intro _ r hr
        have hfits : r.Fits := hfit _ (mem_assign hr)
        exact ⟨RecordCodec.length_encode_of_fits hfits,
          fun rest => RecordCodec.decode_encode hfits rest⟩
    · push Not at hnone
      obtain ⟨item, hitem, hlarge⟩ := hnone
      rw [ne_eq, Bool.not_eq_false] at hlarge
      obtain ⟨st, hres, hcode⟩ := hrefused item hitem hlarge
      have hlt : maxRecordSize < trueSize item :=
        Nat.lt_of_lt_of_le ((recordTooLarge_iff_mod item).mp hlarge) (Nat.mod_le _ _)
      have hsome : ∃ item ∈ items, maxRecordSize < trueSize item := ⟨item, hitem, hlt⟩
      have hnot : ¬∀ item ∈ items, trueSize item ≤ maxRecordSize := by
        intro hall
        exact absurd (hall item hitem) (Nat.not_le.mpr hlt)
      rw [hres]
      refine ⟨?_, ⟨fun _ => hsome, fun _ => ⟨st, rfl, hcode⟩⟩, fun _ => rfl,
        fun h => absurd h hnot, fun h => absurd h hnot, fun h => absurd h hnot⟩
      intro hnone
      rw [hnone item hitem] at hlarge
      cases hlarge

/-! ## What an accepted call writes -/

theorem PartInv.logBytes {p : Partition} {d : Disk} {pre : List SegmentData} {s : SegmentData}
    (h : PartInv p d pre s) : p.logBytes d = encodeAll (flat (pre ++ [s])) := by
  have hlog : ∀ x ∈ pre ++ [s], logOf d x.base = encodeAll x.records := by
    obtain ⟨-, -, hclosed, hfiles, -, -, -⟩ := diskInv_snoc.mp h.disk
    have hfile : ∀ x : SegmentData, SegFiles d x [] → logOf d x.base = encodeAll x.records := by
      intro x hx
      rw [logOf, hx.log, Option.getD_some, List.append_nil]
    intro x hx
    rcases List.mem_append.mp hx with hx | hx
    · exact hfile x (hclosed x hx).files
    · rw [List.mem_singleton.mp hx]
      exact hfile s hfiles
  calc p.logBytes d
      = (p.segments.map LogSegment.baseOffset).flatMap (logOf d) := by
        rw [List.flatMap_map]
        rfl
    _ = (pre ++ [s]).flatMap fun x => logOf d x.base := by
        rw [map_base_eq h.forall₂, List.flatMap_map]
    _ = (pre ++ [s]).flatMap fun x => encodeAll x.records := List.flatMap_congr hlog
    _ = encodeAll (flat (pre ++ [s])) := by
        simp only [encodeAll, flat, List.flatMap_assoc]

theorem Added.logBytes {start : ℕ} {old new : List Record} {p p' : Partition} {fs : FileSystem}
    {ops : List (FileOp FileName)} (h : Added start old new p p' fs ops) :
    p'.logBytes (fs.execAll ops).dir = encodeAll old ++ encodeAll new := by
  obtain ⟨pre, s, hinv, -, hflat⟩ := h.inv
  rw [Fs.execAll_dir, hinv.logBytes, hflat, encodeAll_append]

theorem RunInv.append_wrote {st : RunState} (h : RunInv st) (hroom : st.acked.length < 2 ^ 64)
    {key value : Bytes} (ts : Int64) (hsmall : key.length + value.length < 2 ^ 32 - 28)
    (hfit : recordTooLarge key value = false) :
    WroteAll st.part st.fs (assign st.part.nextOffset ts [(key, value)])
      (st.part.appendWithTimestamp key value ts {} st.fs) := by
  obtain ⟨-, ⟨hfresh, hacked⟩ | ⟨pre, s, start, hrun⟩⟩ := h
  · have hrolled := hfresh.running hacked
    obtain ⟨p', ops, heq, hadd⟩ :=
      appendWithTimestamp_ok hrolled.inv hrolled.chain ts hsmall hfit (by simp)
    rw [hfresh.appendWithTimestamp_eq ts hfit, heq]
    refine ⟨rfl, ?_⟩
    rw [hadd.logBytes, logBytes, hfresh.segments]
    rfl
  · have hend := hrun.end_eq
    obtain ⟨p', ops, heq, hadd⟩ :=
      appendWithTimestamp_ok hrun.inv hrun.chain ts hsmall hfit (by omega)
    rw [heq]
    refine ⟨rfl, ?_⟩
    rw [hadd.logBytes, hrun.inv.logBytes]
    rfl

theorem RunInv.batch_wrote {st : RunState} (h : RunInv st) {items : List (Bytes × Bytes)}
    (hroom : st.acked.length + items.length < 2 ^ 64) (nowMs : Int64)
    (hsmall : ∀ item ∈ items, item.1.length + item.2.length < 2 ^ 32 - 28)
    (hfit : refusesBatch items = false) :
    WroteAll st.part st.fs (assign st.part.nextOffset nowMs items)
      (st.part.appendBatch items nowMs [] st.fs) := by
  obtain ⟨-, ⟨hfresh, hacked⟩ | ⟨pre, s, start, hrun⟩⟩ := h
  · have hrolled := hfresh.running hacked
    obtain ⟨p', ops, heq, hadd⟩ :=
      appendBatch_ok hrolled.inv hrolled.chain nowMs hsmall hfit (by simp; omega)
    rw [hfresh.appendBatch_eq nowMs hfit, heq]
    refine ⟨rfl, ?_⟩
    rw [hadd.logBytes, logBytes, hfresh.segments]
    rfl
  · have hend := hrun.end_eq
    obtain ⟨p', ops, heq, hadd⟩ := appendBatch_ok hrun.inv hrun.chain nowMs hsmall hfit (by omega)
    rw [heq]
    refine ⟨rfl, ?_⟩
    rw [hadd.logBytes, hrun.inv.logBytes]

theorem runInv_stored (partitionId : UInt32) (partitionDir : Bytes) (config : StorageConfig)
    (ops : List Op) (hops : ∀ op ∈ ops, op.InBuffer) (hroom : handedIn ops < 2 ^ 64) :
    ∃ st, RunInv st ∧ st.acked.length ≤ handedIn ops ∧
      (run (RunState.init (Partition.new partitionId partitionDir config)) ops).Same st := by
  have hle := handedIn_flatMap_stored ops
  obtain ⟨hinv, hlen⟩ := run_runInv (runInv_init partitionId partitionDir config) rfl
    (ops.flatMap Op.stored) (by
      intro o ho
      obtain ⟨op, hop, ho⟩ := List.mem_flatMap.mp ho
      exact Op.sized_stored (hops op hop) o ho) (by omega)
  exact ⟨_, hinv, by omega, run_stored _ ops⟩

section Guards

variable {st : RunState} (h : RunInv st)
include h

theorem append_guardExact_iff (hroom : st.acked.length + 1 < 2 ^ 64) (key value : Bytes)
    (ts : Int64) :
    GuardExact st.part st.fs [(key, value)] ts (st.part.appendWithTimestamp key value ts {} st.fs) ↔
      ¬Misjudged [(key, value)] := by
  refine guardExact_iff ?_ ?_
  · intro item hitem hlarge
    rw [List.mem_singleton.mp hitem] at hlarge
    exact ⟨_, appendWithTimestamp_refused hlarge st.part ts {} st.fs, rfl⟩
  · intro hnone hinside
    have hwrote := h.append_wrote (by omega) ts (cut_small (hinside _ List.mem_cons_self))
      (by rw [recordTooLarge_cut]; exact hnone _ List.mem_cons_self)
    rw [appendWithTimestamp_cut] at hwrote
    refine ⟨hwrote.1, ?_⟩
    rw [hwrote.2]
    exact congrArg (_ ++ ·) (encodeAll_assign_cut st.part.nextOffset ts [(key, value)])

theorem batch_guardExact_iff {batch : List (Bytes × Bytes)} (hne : batch ≠ [])
    (hroom : st.acked.length + batch.length < 2 ^ 64) (nowMs : Int64) :
    GuardExact st.part st.fs batch nowMs (st.part.appendBatch batch nowMs [] st.fs) ↔
      ¬Misjudged batch := by
  refine guardExact_iff ?_ ?_
  · intro item hitem hlarge
    have hsome : (batch.find? fun item => recordTooLarge item.1 item.2).isSome :=
      List.find?_isSome.mpr ⟨item, hitem, hlarge⟩
    obtain ⟨found, hfound⟩ := Option.isSome_iff_exists.mp hsome
    refine ⟨tooLargeStatus found.1 found.2, ?_, rfl⟩
    unfold appendBatch
    rw [hfound, if_neg (by simpa using hne)]
  · intro hnone hinside
    have hfit : refusesBatch batch = false := by
      rw [refusesBatch, Bool.or_eq_false_iff, List.any_eq_false]
      exact ⟨by simpa using hne, fun item hitem => by simp [hnone item hitem]⟩
    have hwrote := @RunInv.batch_wrote st h (batch.map fun kv => (cut kv.1, cut kv.2))
      (by simpa using hroom) nowMs (by
        intro item hitem
        obtain ⟨kv, hkv, rfl⟩ := List.mem_map.mp hitem
        exact cut_small (hinside kv hkv)) (by rw [refusesBatch_cut]; exact hfit)
    rw [appendBatch_cut] at hwrote
    refine ⟨hwrote.1, ?_⟩
    rw [hwrote.2, encodeAll_assign_cut]

end Guards

/-- **The size guard is exact for all lengths but those that wrap.** In every state of a run
without failures an append or a batch is refused exactly for a record above the limit and
otherwise written as it is, unless every record is small enough modulo 2^32 and one is not.
-/
theorem size_guard_exact_iff (partitionId : UInt32) (partitionDir : Bytes) (config : StorageConfig)
    (ops : List Op) (hops : ∀ op ∈ ops, op.InBuffer) (nowMs : Int64) :
    let st := run (RunState.init (Partition.new partitionId partitionDir config)) ops
    (∀ key value, handedIn ops + 1 < 2 ^ 64 →
      (GuardExact st.part st.fs [(key, value)] nowMs
        (st.part.appendWithTimestamp key value nowMs {} st.fs) ↔ ¬Misjudged [(key, value)])) ∧
    ∀ batch, batch ≠ [] → handedIn ops + batch.length < 2 ^ 64 →
      (GuardExact st.part st.fs batch nowMs (st.part.appendBatch batch nowMs [] st.fs) ↔
        ¬Misjudged batch) := by
  intro st
  constructor
  · intro key value hroom
    obtain ⟨st', hinv, hlen, hpart, hfs⟩ :=
      runInv_stored partitionId partitionDir config ops hops (by omega)
    rw [show st.part = st'.part from hpart, show st.fs = st'.fs from hfs]
    exact append_guardExact_iff hinv (by omega) key value nowMs
  · intro batch hne hroom
    obtain ⟨st', hinv, hlen, hpart, hfs⟩ :=
      runInv_stored partitionId partitionDir config ops hops (by omega)
    rw [show st.part = st'.part from hpart, show st.fs = st'.fs from hfs]
    exact batch_guardExact_iff hinv hne (by omega) nowMs

/-- One small record in the log, and one more. -/
theorem size_guard_exact_small :
    let st := run (RunState.init (Partition.new 0 [] {})) [.append [1] [2] 5]
    GuardExact st.part st.fs [([3], [4])] 6 (st.part.appendWithTimestamp [3] [4] 6 {} st.fs) := by
  refine ((size_guard_exact_iff 0 [] {} [.append [1] [2] 5] ?_ 6).1 [3] [4] (by decide)).mpr ?_
  · intro op hop
    rw [List.mem_singleton.mp hop]
    intro _
    rw [RecordCodec.inBuffer_iff]
    decide
  · rintro ⟨-, item, hitem, hlt⟩
    rw [List.mem_singleton.mp hitem] at hlt
    exact absurd hlt (by decide)

theorem not_guardExact_overlong {value : Bytes} (hvalue : value.length = 2 ^ 32) :
    ¬GuardExact (Partition.new 0 [] {}) (Fs.start ∅) [([], value)] 0
      ((Partition.new 0 [] {}).appendWithTimestamp [] value 0 {} (Fs.start ∅)) := by
  intro hexact
  have hlarge : maxRecordSize < trueSize ([], value) := by
    unfold trueSize maxRecordSize
    dsimp only
    omega
  obtain ⟨st, herror, -⟩ := hexact.refuses.mpr ⟨_, List.mem_cons_self, hlarge⟩
  rw [appendWithTimestamp_overlong _ hvalue] at herror
  have hok : ((Partition.new 0 [] {}).appendWithTimestamp [] [] 0 {} (Fs.start ∅)).1 = .ok 0 := by
    decide +kernel
  rw [hok] at herror
  cases herror

/-- A value of 4 GiB is let through and stored as the empty one. -/
theorem overlong_let_through :
    ¬GuardExact (Partition.new 0 [] {}) (Fs.start ∅) [([], List.replicate (2 ^ 32) 88)] 0
      ((Partition.new 0 [] {}).appendWithTimestamp [] (List.replicate (2 ^ 32) 88) 0 {}
        (Fs.start ∅)) :=
  not_guardExact_overlong List.length_replicate

end StreamForge
