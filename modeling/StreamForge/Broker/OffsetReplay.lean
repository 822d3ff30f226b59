import Mathlib.Data.List.TakeDrop
import StreamForge.Broker.OffsetStore
import StreamForge.Storage.CrashConsistency

/-!
# Replaying the committed offsets

What `OffsetStore::open_and_recover` makes of the internal partition: if every
record that is left of its log can be loaded, the replay ends with the last
value of every key, and one record that cannot be loaded ends it with
`Corrupt`. A record of a commit can be loaded exactly if its group id is not
empty and has no `|` in it; the key is then parsed back to what it was made of.
-/

namespace StreamForge

open FileTrace

theorem span_separator {c : UInt8} {a : Bytes} (ha : c ∉ a) (b : Bytes) :
    (a ++ c :: b).span (· != c) = (a, c :: b) := by
  have hall : ∀ x ∈ a, (x != c) = true := by
    intro x hx
    rw [bne_iff_ne]
    rintro rfl
    exact ha hx
  rw [List.span_eq_takeWhile_dropWhile, List.takeWhile_append_of_pos hall,
    List.dropWhile_append_of_pos hall]
  simp

namespace OffsetStore

theorem pipe_notMem_toString (n : ℕ) : pipe ∉ toString n := by
  intro h
  exact absurd (Decimal.isDigit_of_mem_toDecimal h) (by decide)

/-- **What was made of a group id without separators is parsed back.** -/
theorem parseKey_makeKey {groupId topic : Bytes} (hgroup : groupId ≠ []) (hpipe : pipe ∉ groupId)
    (htopic : topic ≠ []) (htpipe : pipe ∉ topic) (partition : UInt16) :
    parseKey (makeKey groupId topic partition) = some (groupId, topic, partition.toNat) := by
  have hkey : makeKey groupId topic partition =
      groupId ++ pipe :: (topic ++ pipe :: toString partition.toNat) := by
    simp [makeKey]
  have hlt := partition.toNat_lt
  have hparse := @Decimal.parseUnsigned_toDecimal 32 partition.toNat (by omega) [] (by simp)
  rw [List.append_nil] at hparse
  have hne := Decimal.toDecimal_ne_nil partition.toNat
  unfold parseKey
  rw [hkey, span_separator hpipe]
  simp only [span_separator htpipe]
  have hempty : (groupId.isEmpty || topic.isEmpty || (toString partition.toNat).isEmpty) =
    false := by
    simp [hgroup, htopic, toString, hne]
  have hsmall : ¬((toString partition.toNat).length ≠ (toString partition.toNat).length ∨
      0xFFFF < partition.toNat) := by
    omega
  rw [hempty, if_neg Bool.false_ne_true]
  unfold toString at hsmall ⊢
  rw [hparse]
  simp only [hsmall, if_false]

theorem parseUnsigned_pipe {part : Bytes} (h : pipe ∈ part) (p idx : ℕ)
    (hparse : Decimal.parseUnsigned 32 part = some (p, idx)) : idx ≠ part.length := by
  rintro rfl
  exact absurd (Decimal.parseUnsigned_whole hparse h) (by decide)

/-- **A group id that is empty or has a separator is lost.** The separator ends
up in the partition number. -/
theorem parseKey_makeKey_none {groupId : Bytes} (h : groupId = [] ∨ pipe ∈ groupId)
    (topic : Bytes) (partition : UInt16) : parseKey (makeKey groupId topic partition) = none := by
  have hkey : makeKey groupId topic partition =
      groupId ++ pipe :: (topic ++ pipe :: toString partition.toNat) := by
    simp [makeKey]
  rw [hkey]
  rcases h with rfl | hpipe
  · have hspan := @span_separator pipe [] (by simp) (topic ++ pipe :: toString partition.toNat)
    unfold parseKey
    rw [hspan]
    dsimp only
    split
    · rfl
    · simp
  · -- the first separator is inside the group id, so two more follow
    obtain ⟨a, b, rfl, ha⟩ := List.eq_append_cons_of_mem hpipe
    have hrest : ∃ c d, b ++ pipe :: (topic ++ pipe :: toString partition.toNat) = c ++ pipe :: d ∧
        pipe ∉ c ∧ pipe ∈ d := by
      by_cases hb : pipe ∈ b
      · obtain ⟨c, d, rfl, hc⟩ := List.eq_append_cons_of_mem hb
        exact ⟨c, d ++ pipe :: (topic ++ pipe :: toString partition.toNat), by simp, hc, by simp⟩
      · exact ⟨b, topic ++ pipe :: toString partition.toNat, rfl, hb, by simp⟩
    obtain ⟨c, d, hcd, hc, hd⟩ := hrest
    have hsplit : (a ++ pipe :: b) ++ pipe :: (topic ++ pipe :: toString partition.toNat) =
        a ++ pipe :: (c ++ pipe :: d) := by
      rw [← hcd]
      simp
    unfold parseKey
    rw [hsplit, span_separator ha]
    simp only [span_separator hc]
    split
    · rfl
    · cases hparse : Decimal.parseUnsigned 32 d with
      | none => rfl
      | some res =>
        have hidx := parseUnsigned_pipe hd res.1 res.2 hparse
        simp [hidx]

/-- Whatever is parsed has names without separators, and none of them is empty. -/
theorem names_of_parseKey {key group topic : Bytes} {p : ℕ}
    (h : parseKey key = some (group, topic, p)) :
    (group ≠ [] ∧ pipe ∉ group) ∧ topic ≠ [] ∧ pipe ∉ topic := by
  have hspan : ∀ s : Bytes, pipe ∉ (s.span (· != pipe)).1 := by
    intro s hmem
    rw [List.span_eq_takeWhile_dropWhile] at hmem
    exact absurd (List.mem_takeWhile_imp hmem) (by simp)
  unfold parseKey at h
  split at h
  · cases h
  · rename_i g _ rest hkey
    have hgroup := hspan key
    rw [hkey] at hgroup
    split at h
    · cases h
    · rename_i t _ part hrest
      have htopic := hspan rest
      rw [hrest] at htopic
      split at h
      · cases h
      · rename_i hempty
        simp only [Bool.or_eq_true, List.isEmpty_iff, not_or] at hempty
        split at h
        · cases h
        · split at h
          · cases h
          · cases h
            exact ⟨⟨hempty.1.1, hgroup⟩, hempty.1.2, htopic⟩

/-- **A key is parsed back to what it was made of** exactly if its group id and its
topic are not empty and have no separator in them. -/
theorem parseKey_makeKey_iff (groupId topic : Bytes) (partition : UInt16) :
    parseKey (makeKey groupId topic partition) = some (groupId, topic, partition.toNat) ↔
      (groupId ≠ [] ∧ pipe ∉ groupId) ∧ topic ≠ [] ∧ pipe ∉ topic := by
  constructor
  · exact names_of_parseKey
  · rintro ⟨⟨hgroup, hpipe⟩, htopic, htpipe⟩
    exact parseKey_makeKey hgroup hpipe htopic htpipe partition

@[simp] theorem length_encodeValue (offset : UInt64) (timestampMs : Int64) :
    (encodeValue offset timestampMs).length = 16 := by
  simp [encodeValue]

theorem decodeValue_encodeValue (offset : UInt64) (timestampMs : Int64) :
    decodeValue (encodeValue offset timestampMs) = ⟨offset.toInt64, timestampMs⟩ := by
  have hfirst := readU64_writeU64 offset (writeU64 timestampMs.toUInt64.toNat)
  have hsecond := readU64_writeU64 timestampMs.toUInt64 []
  rw [List.append_nil] at hsecond
  have hdrop : (encodeValue offset timestampMs).drop 8 = writeU64 timestampMs.toUInt64.toNat := by
    rw [encodeValue, List.drop_left' (length_writeU64 _)]
  unfold decodeValue
  rw [hdrop, hsecond, encodeValue, hfirst]
  simp

/-- A record the replay accepts. -/
def Loadable (r : Record) : Prop := (parseKey r.key).isSome = true ∧ r.value.length = 16

instance (r : Record) : Decidable (Loadable r) := inferInstanceAs (Decidable (_ ∧ _))

/-- The cache after a list of records: the last value of every key. -/
def replay (cache : OffsetCache) (rs : List Record) : OffsetCache :=
  rs.foldl (fun cache r => cache.insert r.key (decodeValue r.value)) cache

theorem loadRecord_ok {r : Record} (h : Loadable r) (cache : OffsetCache) :
    loadRecord cache r = .ok (cache.insert r.key (decodeValue r.value)) := by
  obtain ⟨parsed, hparsed⟩ := Option.isSome_iff_exists.mp h.1
  unfold loadRecord
  rw [hparsed]
  simp [h.2]

theorem loadRecord_error {r : Record} (h : ¬Loadable r) (cache : OffsetCache) :
    ∃ st, loadRecord cache r = .error st ∧ st.code = .Corrupt := by
  unfold loadRecord
  cases hparsed : parseKey r.key with
  | none => exact ⟨_, rfl, rfl⟩
  | some parsed =>
    have hlen : r.value.length ≠ 16 := by
      intro hlen
      exact h ⟨by rw [hparsed]; rfl, hlen⟩
    simp only [hlen, ne_eq, not_false_eq_true, if_true]
    exact ⟨_, rfl, rfl⟩

theorem loadRecords_ok {rs : List Record} (hall : ∀ r ∈ rs, Loadable r) :
    ∀ {curr : UInt64} {cache : OffsetCache}, Consecutive curr.toNat rs →
    curr.toNat + rs.length < 2 ^ 64 →
    ∃ curr', loadRecords rs curr cache = .ok (curr', replay cache rs) ∧
      curr'.toNat = curr.toNat + rs.length := by
  induction rs with
  | nil =>
    intro curr cache _ _
    exact ⟨curr, rfl, rfl⟩
  | cons r rest ih =>
    intro curr cache hcons hroom
    simp only [List.length_cons] at hroom ⊢
    have hoff : r.offset.toNat = curr.toNat := hcons 0 r rfl
    have hone : (r.offset + 1).toNat = curr.toNat + 1 := by
      rw [UInt64.toNat_add]
      have : (1 : UInt64).toNat = 1 := rfl
      omega
    have hrest : Consecutive (r.offset + 1).toNat rest := by
      intro i x hx
      have := hcons (i + 1) x hx
      omega
    obtain ⟨curr', heq, hcurr⟩ := @ih (fun x hx => hall x (List.mem_cons_of_mem _ hx))
      (r.offset + 1) (cache.insert r.key (decodeValue r.value)) hrest (by omega)
    refine ⟨curr', ?_, by omega⟩
    rw [loadRecords, loadRecord_ok (hall r (by simp))]
    exact heq

theorem loadRecords_error {rs : List Record} (h : ∃ r ∈ rs, ¬Loadable r) :
    ∀ (curr : UInt64) (cache : OffsetCache),
    ∃ st, loadRecords rs curr cache = .error st ∧ st.code = .Corrupt := by
  induction rs with
  | nil => simp at h
  | cons r rest ih =>
    intro curr cache
    by_cases hr : Loadable r
    · have hrest : ∃ x ∈ rest, ¬Loadable x := by
        obtain ⟨x, hx, hbad⟩ := h
        rcases List.mem_cons.mp hx with rfl | hx
        · exact absurd hr hbad
        · exact ⟨x, hx, hbad⟩
      rw [loadRecords, loadRecord_ok hr]
      exact ih hrest _ _
    · obtain ⟨st, heq, hcode⟩ := loadRecord_error hr cache
      rw [loadRecords, heq]
      exact ⟨st, rfl, hcode⟩

/-- **The cache changes only after the batch is in the log**, whatever fails. -/
theorem commit_store (store : OffsetStore) (groupId : Bytes) (items : List OffsetCommitItem)
    (p : Partition) (nowMs : Int64) (fts : List Faults) (fs : FileSystem) :
    (store.commit groupId items p nowMs fts fs).2.1 =
      if (store.commit groupId items p nowMs fts fs).1.ok = true then
        { store with cache := cacheItems groupId items store.cache }
      else store := by
  unfold commit
  cases items with
  | nil => rfl
  | cons item rest =>
    simp only [List.isEmpty_cons, Bool.false_eq_true, if_false]
    cases hopened : store.opened with
    | false => rfl
    | true =>
      simp only [Bool.not_true, Bool.false_eq_true, if_false]
      rcases hres : p.appendBatch (batchOf groupId (item :: rest)) nowMs fts fs with ⟨res, p', fs'⟩
      cases res with
      | error st =>
        simp only
        rw [appendBatch_error_status hres, if_neg Bool.false_ne_true]
      | ok base => rfl

theorem commitTo_store (store : OffsetStore) (groupId : Bytes) (items : List OffsetCommitItem)
    (mgr : TopicManager) (nowMs : Int64) (fts : List Faults) :
    (store.commitTo groupId items mgr nowMs fts).2.1 =
      if (store.commitTo groupId items mgr nowMs fts).1.ok = true then
        { store with cache := cacheItems groupId items store.cache }
      else store := by
  have hmissing : store = if (if items.isEmpty then Status.OK else
      .ioError (ascii "OffsetStore partition not initialized")).ok = true then
        { store with cache := cacheItems groupId items store.cache } else store := by
    cases items <;> rfl
  unfold commitTo
  cases mgr.getTopic internalOffsetsTopic with
  | none => exact hmissing
  | some t =>
    rcases Option.eq_none_or_eq_some (t.getPartition 0) with hp | ⟨p, hp⟩
    · simp only [hp]
      exact hmissing
    · simp only [hp]
      exact commit_store store groupId items p nowMs fts _

end OffsetStore

/-! ## The loop over the log -/

theorem scanned_eq_take (maxMessages maxBytes : ℕ) {rs : List Record} (h : rs ≠ []) :
    ∃ k, 0 < k ∧ k ≤ rs.length ∧ scanned maxMessages maxBytes rs = rs.take k := by
  have hgen : ∀ rs : List Record, ∀ msgs bytes, rs ≠ [] → ∃ k, 0 < k ∧ k ≤ rs.length ∧
      scannedFrom maxMessages maxBytes msgs bytes rs = rs.take k := by
    intro rs
    induction rs with
    | nil => simp
    | cons r rest ih =>
      intro msgs bytes _
      unfold scannedFrom
      split
      · exact ⟨1, by omega, by simp, by simp⟩
      · by_cases hrest : rest = []
        · subst hrest
          exact ⟨1, by omega, by simp, by simp [scannedFrom]⟩
        · obtain ⟨k, hk, hle, heq⟩ := ih (msgs + 1) (bytes + r.size) hrest
          exact ⟨k + 1, by omega, by simpa using hle, by simp [heq]⟩
  exact hgen rs 0 0 h

namespace OffsetStore

section Loop

variable {st : RunState}

/-- One read of the loop: a non-empty run of records from `curr` on. -/
theorem read_chunk (hinv : RunInv st) (hroom : st.acked.length < 2 ^ 64) {curr : UInt64}
    (hearly : st.part.earliestOffset ≤ curr) (hlt : curr < st.part.nextOffset) :
    ∃ k, 0 < k ∧ curr.toNat + k ≤ st.acked.length ∧
      st.part.read st.fs curr 1000 (1024 * 1024) =
        ⟨(st.acked.drop curr.toNat).take k, .OK⟩ := by
  have hnext := hinv.next_toNat hroom
  have hltNat := UInt64.lt_iff_toNat_lt.mp hlt
  have hread := (hinv.readsAsScanned hroom curr 1000 (1024 * 1024)).inside hlt hearly
  rw [List.take_of_length_le (by rw [List.length_drop]; omega)] at hread
  have hne : st.acked.drop curr.toNat ≠ [] := by
    rw [ne_eq, List.drop_eq_nil_iff]
    omega
  obtain ⟨k, hk, hle, heq⟩ := scanned_eq_take 1000 (1024 * 1024) hne
  rw [List.length_drop] at hle
  refine ⟨k, hk, by omega, ?_⟩
  rw [hread, heq]

/-- **The replay of a log whose records can all be loaded** ends well, with the
last value of every key. The induction is on the fuel, which bounds the records
still to come. -/
theorem loadLoop_ok (hinv : RunInv st) (hroom : st.acked.length < 2 ^ 64) :
    ∀ {fuel : ℕ} {curr : UInt64} {cache : OffsetCache}, st.part.earliestOffset ≤ curr →
    curr.toNat ≤ st.acked.length → st.acked.length - curr.toNat < fuel →
    (∀ r ∈ st.acked.drop curr.toNat, Loadable r) →
    loadLoop st.part st.fs st.part.nextOffset fuel curr cache =
      (.OK, replay cache (st.acked.drop curr.toNat)) := by
  intro fuel
  induction fuel with
  | zero => intro curr cache _ _ hfuel; omega
  | succ fuel ih =>
    intro curr cache hearly hle hfuel hall
    have hnext := hinv.next_toNat hroom
    unfold loadLoop
    by_cases hlt : curr < st.part.nextOffset
    · obtain ⟨k, hk, hkle, hread⟩ := read_chunk hinv hroom hearly hlt
      set rest := st.acked.drop curr.toNat with hrest
      have hlen : (rest.take k).length = k := by
        rw [List.length_take, hrest, List.length_drop]
        omega
      have hcons : Consecutive curr.toNat (rest.take k) := by
        have := (hinv.1.drop curr.toNat).take k
        rwa [Nat.zero_add] at this
      obtain ⟨curr', heq, hcurr⟩ := @loadRecords_ok (rest.take k)
        (fun r hr => hall r (List.mem_of_mem_take hr)) curr cache hcons (by omega)
      have hne : (rest.take k).isEmpty = false := by
        rw [List.isEmpty_eq_false_iff, ← List.length_pos_iff]
        omega
      have hdrop : st.acked.drop curr'.toNat = rest.drop k := by
        rw [hcurr, hlen, hrest, List.drop_drop]
      have hstep := @ih curr' (replay cache (rest.take k))
        (UInt64.le_iff_toNat_le.mpr (by
          have := UInt64.le_iff_toNat_le.mp hearly
          omega))
        (by omega) (by omega)
        (by rw [hdrop]; exact fun r hr => hall r (List.mem_of_mem_drop hr))
      simp only [if_pos hlt, hread, Status.if_not_ok, hne, heq, hstep, hdrop]
      rw [replay, replay, ← List.foldl_append, List.take_append_drop]
      rfl
    · have hend : st.acked.drop curr.toNat = [] := by
        rw [List.drop_eq_nil_iff]
        have := UInt64.lt_iff_toNat_lt.not.mp hlt
        omega
      rw [if_neg hlt, hend]
      rfl

/-- **One record that cannot be loaded ends the replay.** -/
theorem loadLoop_corrupt (hinv : RunInv st) (hroom : st.acked.length < 2 ^ 64) :
    ∀ {fuel : ℕ} {curr : UInt64} {cache : OffsetCache}, st.part.earliestOffset ≤ curr →
    st.acked.length - curr.toNat < fuel → (∃ r ∈ st.acked.drop curr.toNat, ¬Loadable r) →
    (loadLoop st.part st.fs st.part.nextOffset fuel curr cache).1.code = .Corrupt := by
  intro fuel
  induction fuel with
  | zero => intro curr cache _ hfuel; omega
  | succ fuel ih =>
    intro curr cache hearly hfuel hbad
    have hnext := hinv.next_toNat hroom
    have hlt : curr < st.part.nextOffset := by
      obtain ⟨r, hr, -⟩ := hbad
      have := List.length_pos_of_mem hr
      rw [List.length_drop] at this
      exact UInt64.lt_iff_toNat_lt.mpr (by omega)
    obtain ⟨k, hk, hkle, hread⟩ := read_chunk hinv hroom hearly hlt
    set rest := st.acked.drop curr.toNat with hrest
    have hlen : (rest.take k).length = k := by
      rw [List.length_take, hrest, List.length_drop]
      omega
    have hne : (rest.take k).isEmpty = false := by
      rw [List.isEmpty_eq_false_iff, ← List.length_pos_iff]
      omega
    unfold loadLoop
    simp only [if_pos hlt, hread, Status.if_not_ok, hne]
    by_cases hchunk : ∃ r ∈ rest.take k, ¬Loadable r
    · obtain ⟨status, heq, hcode⟩ := loadRecords_error hchunk curr cache
      rw [heq]
      exact hcode
    · -- it comes later
      rw [not_exists] at hchunk
      have hgood : ∀ r ∈ rest.take k, Loadable r := by
        intro r hr
        by_contra hload
        exact hchunk r ⟨hr, hload⟩
      have hcons : Consecutive curr.toNat (rest.take k) := by
        have := (hinv.1.drop curr.toNat).take k
        rwa [Nat.zero_add] at this
      obtain ⟨curr', heq, hcurr⟩ := @loadRecords_ok _ hgood curr cache hcons (by omega)
      have hdrop : st.acked.drop curr'.toNat = rest.drop k := by
        rw [hcurr, hlen, hrest, List.drop_drop]
      rw [heq]
      refine ih ?_ (by omega) ?_
      · have := UInt64.le_iff_toNat_le.mp hearly
        exact UInt64.le_iff_toNat_le.mpr (by omega)
      · obtain ⟨r, hr, hload⟩ := hbad
        rw [← List.take_append_drop k rest, List.mem_append] at hr
        rcases hr with hr | hr
        · exact absurd (hgood r hr) hload
        · exact ⟨r, hdrop ▸ hr, hload⟩

end Loop

end OffsetStore

end StreamForge
