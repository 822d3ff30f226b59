import StreamForge.Storage.PartitionRun

/-!
# Reading

`Partition::read` finds its way through a segment search, a sparse index and
the log itself. The specification knows nothing of these: a reader is fed the
acknowledged records from the start offset on until a limit is reached
(`scanned`).

The comparison goes through a filter. Inside a segment the code skips records
below the start offset one by one, which is a filter; the index and the segment
search only leave out records the filter would drop anyway.
-/

namespace StreamForge

open FileTrace FileHandle

/-! ## The plain scan -/

/-- The records up to and including the one at which a limit is reached, given
the messages and bytes taken so far. -/
def scannedFrom (maxMessages maxBytes : ℕ) : ℕ → ℕ → List Record → List Record
  | _, _, [] => []
  | msgs, bytes, r :: rest =>
    if maxMessages ≤ msgs + 1 || maxBytes ≤ bytes + r.size then [r]
    else r :: scannedFrom maxMessages maxBytes (msgs + 1) (bytes + r.size) rest

def scanned (maxMessages maxBytes : ℕ) (rs : List Record) : List Record :=
  scannedFrom maxMessages maxBytes 0 0 rs

/-- Every record has its 28 bytes of header, so the byte limit bounds their number. -/
theorem length_scanned_bytes (maxMessages maxBytes : ℕ) (rs : List Record) :
    28 * (scanned maxMessages maxBytes rs).length ≤ maxBytes + 28 := by
  have hgen : ∀ (rs : List Record) (msgs bytes : ℕ),
      28 * (scannedFrom maxMessages maxBytes msgs bytes rs).length ≤ maxBytes - bytes + 28 := by
    intro rs
    induction rs with
    | nil => simp [scannedFrom]
    | cons r rest ih =>
      intro msgs bytes
      have hsize : 28 ≤ r.size := by
        rw [Record.size]
        omega
      unfold scannedFrom
      split
      · simp
      · rename_i hgo
        simp only [Bool.or_eq_true, decide_eq_true_eq, not_or, Nat.not_le] at hgo
        have := ih (msgs + 1) (bytes + r.size)
        rw [List.length_cons]
        omega
  exact hgen rs 0 0

def ReadState.push (s : Partition.ReadState) (r : Record) : Partition.ReadState :=
  ⟨s.records ++ [r], s.totalBytesRead + r.size, s.totalMessagesRead + 1⟩

def feed (maxMessages maxBytes : ℕ) : Partition.ReadState → List Record → Partition.ReadState × Bool
  | s, [] => (s, false)
  | s, r :: rest =>
    if maxMessages ≤ s.totalMessagesRead + 1 || maxBytes ≤ s.totalBytesRead + r.size then
      (ReadState.push s r, true)
    else feed maxMessages maxBytes (ReadState.push s r) rest

theorem feed_records (maxMessages maxBytes : ℕ) (rs : List Record) :
    ∀ s : Partition.ReadState, (feed maxMessages maxBytes s rs).1.records =
      s.records ++ scannedFrom maxMessages maxBytes s.totalMessagesRead s.totalBytesRead rs := by
  induction rs with
  | nil =>
    intro s
    simp [feed, scannedFrom]
  | cons r rest ih =>
    intro s
    unfold feed scannedFrom
    split
    · rfl
    · rw [ih]
      simp [ReadState.push]

variable {maxMessages maxBytes : ℕ} {pre : List SegmentData} {st : RunState}

variable {a : List Record} {fs : FileSystem} {start : ℕ} {p : Partition} {s : SegmentData}
    {startOffset : UInt64} {r : Record}

theorem feed_append_of_stopped :
    ∀ {s s' : Partition.ReadState}, feed maxMessages maxBytes s a = (s', true) →
    ∀ b, feed maxMessages maxBytes s (a ++ b) = (s', true) := by
  induction a with
  | nil =>
    intro s s' h
    simp [feed] at h
  | cons r rest ih =>
    intro s s' h b
    rw [List.cons_append]
    unfold feed at h ⊢
    split
    · rename_i hlimit
      rw [if_pos hlimit] at h
      exact h
    · rename_i hlimit
      rw [if_neg hlimit] at h
      exact ih h b

theorem feed_append_of_going :
    ∀ {s s' : Partition.ReadState}, feed maxMessages maxBytes s a = (s', false) →
    ∀ b, feed maxMessages maxBytes s (a ++ b) = feed maxMessages maxBytes s' b := by
  induction a with
  | nil =>
    intro s s' h b
    cases h
    rfl
  | cons r rest ih =>
    intro s s' h b
    rw [List.cons_append]
    unfold feed at h
    split at h
    · cases h
    · rename_i hlimit
      rw [feed, if_neg hlimit]
      exact ih h b

def wanted (startOffset : UInt64) (rs : List Record) : List Record :=
  rs.filter fun r => decide (startOffset ≤ r.offset)

section Segment

variable {seg : LogSegment} {fs : FileSystem} {x : SegmentData} {startOffset : UInt64}
  {maxMessages maxBytes : ℕ}

/-- What a reader needs of a segment. It never looks at bytes behind the records. -/
structure Readable (fs : FileSystem) (seg : LogSegment) (x : SegmentData) : Prop
    extends SegMatch seg x where
  log : ∃ tail, fs.dir.lookup ⟨x.base, .log⟩ = some (encodeAll x.records ++ tail)
  fits : ∀ r ∈ x.records, r.Fits
  consecutive : Consecutive x.base.toNat x.records

/-- **The inner loop is a filter.** By induction on the fuel, which covers the
records still to come. -/
theorem readLoop_spec (h : Readable fs seg x) (fuel : ℕ) :
    ∀ (k : ℕ) (s : Partition.ReadState), k ≤ x.records.length → x.records.length - k < fuel →
    Partition.readLoop seg fs startOffset maxMessages maxBytes fuel (posOf x.records k) s =
      ((feed maxMessages maxBytes s (wanted startOffset (x.records.drop k))).1,
        if (feed maxMessages maxBytes s (wanted startOffset (x.records.drop k))).2 then some .OK
        else none) := by
  induction fuel with
  | zero =>
    intro k s _ hfuel
    omega
  | succ fuel ih =>
    intro k s hk hfuel
    rcases Nat.lt_or_eq_of_le hk with hlt | heq
    · set r := x.records[k]
      have hget : x.records[k]? = some r := List.getElem?_eq_getElem hlt
      have hfit : r.Fits := h.fits r (List.getElem_mem hlt)
      obtain ⟨tail, hlog⟩ := h.log
      have hread : seg.readRecordAt fs (posOf x.records k) = .ok r :=
        readRecordAt_posOf h.base h.size hlog h.fits hget
      have hpos : posOf x.records k < seg.logSizeBytes := by
        rw [h.size]
        exact posOf_lt hlt
      have hnext : posOf x.records k + Partition.recordSize r.key r.value =
          posOf x.records (k + 1) := by
        rw [recordSize_of_fits hfit, ← RecordCodec.length_encode_of_fits hfit]
        exact (Blocks.blockStart_succ _ hget).symm
      have hdrop : x.records.drop k = r :: x.records.drop (k + 1) := List.drop_eq_getElem_cons hlt
      unfold Partition.readLoop
      rw [if_pos hpos, hread]
      dsimp only
      rw [hnext, recordSize_of_fits hfit]
      by_cases hlow : r.offset < startOffset
      · have hskip : wanted startOffset (x.records.drop k) =
            wanted startOffset (x.records.drop (k + 1)) := by
          rw [hdrop, wanted, List.filter_cons_of_neg (by simpa using hlow)]
          rfl
        rw [if_pos hlow, hskip]
        exact ih (k + 1) s hlt (by omega)
      · have htake : wanted startOffset (x.records.drop k) =
            r :: wanted startOffset (x.records.drop (k + 1)) := by
          rw [hdrop, wanted, List.filter_cons_of_pos (by simpa using hlow)]
          rfl
        rw [if_neg hlow, htake, feed]
        split
        · rfl
        · exact ih (k + 1) (ReadState.push s r) hlt (by omega)
    · have hend : posOf x.records k = seg.logSizeBytes := by
        rw [heq, h.size]
        exact Blocks.blockStart_length _ _
      unfold Partition.readLoop
      rw [hend, if_neg (Nat.lt_irrefl _), heq, List.drop_length]
      rfl

theorem wanted_from_index (h : Readable fs seg x) :
    ∃ k, k ≤ x.records.length ∧ seg.lookupFilePosition startOffset = posOf x.records k ∧
      wanted startOffset (x.records.drop k) = wanted startOffset x.records := by
  unfold LogSegment.lookupFilePosition
  split
  · exact ⟨0, Nat.zero_le _, by simp [posOf], by simp⟩
  · rename_i hgt
    obtain ⟨k, hle, hk, heq⟩ := lookup_sound h.sound (seg.relOffset startOffset)
    refine ⟨k, by omega, heq, ?_⟩
    -- everything before entry `k` is below the start offset
    have hbase : seg.baseOffset ≤ startOffset := UInt64.le_of_lt (UInt64.not_le.mp hgt)
    have hrel : k ≤ startOffset.toNat - x.base.toNat := by
      have hmod : seg.relOffset startOffset ≤ (startOffset - seg.baseOffset).toNat := Nat.mod_le _ _
      rw [UInt64.toNat_sub_of_le _ _ hbase, h.base] at hmod
      omega
    have hle' := UInt64.le_iff_toNat_le.mp hbase
    rw [h.base] at hle'
    have hnone : wanted startOffset (x.records.take k) = [] := by
      rw [wanted, List.filter_eq_nil_iff]
      intro r hr
      obtain ⟨i, hi⟩ := List.mem_iff_getElem?.mp hr
      have hik : i < k := by
        have := (List.getElem?_eq_some_iff.mp hi).1
        rw [List.length_take] at this
        omega
      rw [List.getElem?_take_of_lt hik] at hi
      have hoff := h.consecutive i r hi
      rw [decide_eq_true_iff, UInt64.le_iff_toNat_le]
      omega
    conv_rhs => rw [← List.take_append_drop k x.records]
    unfold wanted at hnone ⊢
    rw [List.filter_append, hnone, List.nil_append]

end Segment

section Segments

variable {fs : FileSystem} {startOffset : UInt64} {maxMessages maxBytes : ℕ}

theorem wanted_append (a b : List Record) :
    wanted startOffset (a ++ b) = wanted startOffset a ++ wanted startOffset b :=
  List.filter_append ..

/-- **The outer loop** feeds the segments one after the other. -/
theorem readSegments_spec {segs : List LogSegment} {xs : List SegmentData}
    (h : List.Forall₂ (Readable fs) segs xs) :
    ∀ s : Partition.ReadState,
    Partition.readSegments fs startOffset maxMessages maxBytes segs s =
      ⟨(feed maxMessages maxBytes s (wanted startOffset (flat xs))).1.records, .OK⟩ := by
  induction h with
  | nil =>
    intro s
    rfl
  | @cons seg x segs xs hx _ ih =>
    intro s
    obtain ⟨k, hk, hpos, hwanted⟩ := @wanted_from_index seg fs x startOffset hx
    have hcount := length_le_encodeAll x.records
    have hloop := @readLoop_spec seg fs x startOffset maxMessages maxBytes hx
      (seg.logSizeBytes + 1) k s hk (by rw [hx.size]; omega)
    have hflat : wanted startOffset (flat (x :: xs)) =
        wanted startOffset x.records ++ wanted startOffset (flat xs) := by
      rw [← wanted_append]
      rfl
    rw [hwanted] at hloop
    unfold Partition.readSegments
    rw [hpos, hloop, hflat]
    cases hfeed : feed maxMessages maxBytes s (wanted startOffset x.records) with
    | mk s' stopped =>
      cases stopped with
      | true => rw [feed_append_of_stopped hfeed]; rfl
      | false =>
        rw [feed_append_of_going hfeed]
        exact ih s'

/-- **The segment search** leaves out only segments that end before the start. -/
theorem fromSegIdx_spec {segs : List LogSegment} {xs : List SegmentData}
    (h : List.Forall₂ (Readable fs) segs xs) :
    ∀ {start : ℕ}, Chained start xs → ∃ xs', List.Forall₂ (Readable fs)
        (Partition.fromSegIdx startOffset segs) xs' ∧
      wanted startOffset (flat xs') = wanted startOffset (flat xs) := by
  induction h with
  | nil =>
    intro start _
    exact ⟨[], List.Forall₂.nil, rfl⟩
  | @cons seg x segs xs hx hrest ih =>
    intro start hchain
    cases hrest with
    | nil => exact ⟨[x], List.Forall₂.cons hx List.Forall₂.nil, rfl⟩
    | @cons next y segs xs hy hrest =>
      unfold Partition.fromSegIdx
      split
      · rename_i hle
        obtain ⟨xs', hxs', hwanted⟩ := ih hchain.2.2.2
        refine ⟨xs', hxs', hwanted.trans ?_⟩
        -- the records of `x` all come before `y`
        have hnone : wanted startOffset x.records = [] := by
          rw [wanted, List.filter_eq_nil_iff]
          intro r hr
          obtain ⟨i, hi⟩ := List.mem_iff_getElem?.mp hr
          have hlt := (List.getElem?_eq_some_iff.mp hi).1
          have hoff := hchain.2.1 i r hi
          have hybase : y.base.toNat = start + x.records.length := hchain.2.2.2.1
          have hle' := UInt64.le_iff_toNat_le.mp hle
          rw [hy.base] at hle'
          rw [decide_eq_true_iff, UInt64.le_iff_toNat_le]
          omega
        have hsplit : flat (x :: y :: xs) = x.records ++ flat (y :: xs) := rfl
        rw [hsplit, wanted_append, hnone, List.nil_append]
      · exact ⟨x :: y :: xs, List.Forall₂.cons hx (List.Forall₂.cons hy hrest), rfl⟩

theorem wanted_of_consecutive {rs : List Record} : ∀ {start : ℕ}, Consecutive start rs →
    wanted startOffset rs = rs.drop (startOffset.toNat - start) := by
  induction rs with
  | nil =>
    intro start _
    simp [wanted]
  | cons r rest ih =>
    intro start h
    have hoff : r.offset.toNat = start := by simpa using h 0 r rfl
    have hrest : Consecutive (start + 1) rest := by
      intro i x hx
      have := h (i + 1) x (by simpa using hx)
      omega
    by_cases hle : startOffset ≤ r.offset
    · have hle' := UInt64.le_iff_toNat_le.mp hle
      have hzero : startOffset.toNat - start = 0 := by omega
      have hzero' : startOffset.toNat - (start + 1) = 0 := by omega
      have hall := ih hrest
      rw [hzero', List.drop_zero] at hall
      unfold wanted at hall ⊢
      rw [List.filter_cons_of_pos (by simpa using hle), hall, hzero, List.drop_zero]
    · have hgt : start < startOffset.toNat := by
        rw [UInt64.le_iff_toNat_le] at hle
        omega
      have hsucc : startOffset.toNat - start = (startOffset.toNat - (start + 1)) + 1 := by omega
      unfold wanted at ih ⊢
      rw [List.filter_cons_of_neg (by simpa using hle), ih hrest, hsucc, List.drop_succ_cons]

end Segments

/-! ## The whole read -/

theorem readable_closed {closed : List LogSegment} (h : List.Forall₂ ClosedMatch closed pre)
    (hfiles : ∀ x ∈ pre, SegFiles fs.dir x [])
    (hcons : ∀ x ∈ pre, Consecutive x.base.toNat x.records) :
    List.Forall₂ (Readable fs) closed pre := by
  induction h with
  | nil => exact List.Forall₂.nil
  | @cons seg x closed pre hm _ ih =>
    have hx := hfiles x (by simp)
    refine List.Forall₂.cons ⟨hm.1, ⟨[], hx.log⟩, hx.fits, hcons x (by simp)⟩ ?_
    exact ih (fun y hy => hfiles y (List.mem_cons_of_mem _ hy))
      fun y hy => hcons y (List.mem_cons_of_mem _ hy)

theorem PartInv.readable {p : Partition} {fs : FileSystem} {pre : List SegmentData}
    {s : SegmentData} {start : ℕ} (h : PartInv p fs.dir pre s)
    (hchain : Chained start (pre ++ [s])) :
    List.Forall₂ (Readable fs) p.segments (pre ++ [s]) := by
  obtain ⟨closed, active, hsegs, hclosed, hactive⟩ := h.segments
  obtain ⟨-, -, hcl, hfiles, -, -, -⟩ := diskInv_snoc.mp h.disk
  have hcons : ∀ x ∈ pre ++ [s], Consecutive x.base.toNat x.records := by
    intro x hx
    obtain ⟨i, hi⟩ := List.mem_iff_getElem?.mp hx
    exact (hchain.getElem hi).1
  rw [hsegs]
  refine List.rel_append ?_ (List.Forall₂.cons ?_ List.Forall₂.nil)
  · exact readable_closed hclosed (fun x hx => (hcl x hx).files)
      fun x hx => hcons x (List.mem_append_left _ hx)
  · exact ⟨hactive.toSegMatch, ⟨[], hfiles.log⟩, hfiles.fits, hcons s (by simp)⟩

theorem readSegments_eq_scanned {segs : List LogSegment} {xs : List SegmentData}
    (h : List.Forall₂ (Readable fs) segs xs) (hchain : Chained start xs) (startOffset : UInt64)
    (maxMessages maxBytes : ℕ) :
    Partition.readSegments fs startOffset maxMessages maxBytes
        (Partition.fromSegIdx startOffset segs) {} =
      ⟨scanned maxMessages maxBytes ((flat xs).drop (startOffset.toNat - start)), .OK⟩ := by
  obtain ⟨xs', hxs', hwanted⟩ := @fromSegIdx_spec fs startOffset segs xs h start hchain
  rw [readSegments_spec hxs', hwanted, wanted_of_consecutive hchain.consecutive, feed_records]
  rfl

theorem PartInv.earliest {d : Disk} (h : PartInv p d pre s) (hchain : Chained start (pre ++ [s])) :
    p.earliestOffset.toNat = start := by
  obtain ⟨closed, active, hsegs, hclosed, hactive⟩ := h.segments
  cases hclosed with
  | nil =>
    obtain ⟨-, -, hbase, -⟩ := chained_snoc.mp hchain
    simp only [Partition.earliestOffset, hsegs, List.nil_append, hactive.base]
    simpa using hbase
  | @cons seg x closed pre hm _ =>
    simp only [Partition.earliestOffset, hsegs, List.cons_append, hm.1.base]
    exact hchain.1

/-- **What a read returns**, in terms of the acknowledged records: an error
outside the range, nothing at its end, and otherwise the plain scan of the
records from the start offset up to the next offset. -/
structure ReadsAsScanned (st : RunState) (startOffset : UInt64) (maxMessages maxBytes : ℕ) :
    Prop where
  outside : (st.part.read st.fs startOffset maxMessages maxBytes).status.code =
      .OffsetOutOfRange ∧ (st.part.read st.fs startOffset maxMessages maxBytes).records = [] ↔
    startOffset ≠ st.part.nextOffset ∧
      (st.part.nextOffset < startOffset ∨ startOffset < st.part.earliestOffset)
  atEnd : startOffset = st.part.nextOffset →
    st.part.read st.fs startOffset maxMessages maxBytes = ⟨[], .OK⟩
  inside : startOffset < st.part.nextOffset → st.part.earliestOffset ≤ startOffset →
    st.part.read st.fs startOffset maxMessages maxBytes =
      ⟨scanned maxMessages maxBytes ((st.acked.drop startOffset.toNat).take
        (st.part.nextOffset.toNat - startOffset.toNat)), .OK⟩

theorem read_atEnd (p : Partition) (fs : FileSystem) (maxMessages maxBytes : ℕ) :
    p.read fs p.nextOffset maxMessages maxBytes = ⟨[], .OK⟩ := by
  unfold Partition.read
  rw [if_pos rfl]

theorem read_outside (h : p.nextOffset < startOffset ∨ startOffset < p.earliestOffset)
    (hne : startOffset ≠ p.nextOffset) (fs : FileSystem) (maxMessages maxBytes : ℕ) :
    (p.read fs startOffset maxMessages maxBytes).status.code = .OffsetOutOfRange ∧
      (p.read fs startOffset maxMessages maxBytes).records = [] := by
  unfold Partition.read
  rw [if_neg hne, if_pos (by simpa using h)]
  exact ⟨rfl, rfl⟩

theorem read_inside {p : Partition} {startOffset : UInt64} (hlt : startOffset < p.nextOffset)
    (hle : p.earliestOffset ≤ startOffset) (fs : FileSystem) (maxMessages maxBytes : ℕ) :
    p.read fs startOffset maxMessages maxBytes = Partition.readSegments fs startOffset
      maxMessages maxBytes (Partition.fromSegIdx startOffset p.segments) {} := by
  have hne : startOffset ≠ p.nextOffset := UInt64.ne_of_lt hlt
  have hin : ¬(decide (p.nextOffset < startOffset) || decide (startOffset < p.earliestOffset)) =
      true := by
    rw [Bool.or_eq_true, decide_eq_true_iff, decide_eq_true_iff]
    rintro (h | h)
    · exact UInt64.lt_asymm h hlt
    · exact UInt64.not_le.mpr h hle
  unfold Partition.read
  rw [if_neg hne, if_neg hin]

/-- The out-of-range answer is given exactly outside the range, once the answer
inside is known to be OK. -/
theorem readsAsScanned_of_inside
    (h : startOffset < st.part.nextOffset → st.part.earliestOffset ≤ startOffset →
      st.part.read st.fs startOffset maxMessages maxBytes =
        ⟨scanned maxMessages maxBytes ((st.acked.drop startOffset.toNat).take
          (st.part.nextOffset.toNat - startOffset.toNat)), .OK⟩) :
    ReadsAsScanned st startOffset maxMessages maxBytes := by
  refine ⟨⟨?_, ?_⟩, ?_, h⟩
  · rintro ⟨hcode, -⟩
    have hne : startOffset ≠ st.part.nextOffset := by
      rintro rfl
      rw [read_atEnd] at hcode
      cases hcode
    refine ⟨hne, ?_⟩
    by_contra hin
    rw [not_or, UInt64.not_lt, UInt64.not_lt] at hin
    rw [h (UInt64.lt_of_le_of_ne hin.1 hne) hin.2] at hcode
    cases hcode
  · rintro ⟨hne, hout⟩
    exact read_outside hout hne _ _ _
  · rintro rfl
    exact read_atEnd _ _ _ _

theorem RunInv.readsAsScanned (h : RunInv st) (hroom : st.acked.length < 2 ^ 64)
    (startOffset : UInt64) (maxMessages maxBytes : ℕ) :
    ReadsAsScanned st startOffset maxMessages maxBytes := by
  apply readsAsScanned_of_inside
  intro hlt hle
  obtain ⟨-, ⟨hfresh, -⟩ | ⟨pre, s, start, hrun⟩⟩ := h
  · -- nothing lies below offset 0
    rw [hfresh.next] at hlt
    exact absurd hlt UInt64.not_lt_zero
  · have hnext := hrun.next_toNat hroom
    have hearly := hrun.inv.earliest hrun.chain
    have hle' := UInt64.le_iff_toNat_le.mp hle
    have hlt' := UInt64.lt_iff_toNat_lt.mp hlt
    rw [read_inside hlt hle, readSegments_eq_scanned (hrun.inv.readable hrun.chain) hrun.chain,
      hrun.stored, List.drop_drop]
    have hsum : start + (startOffset.toNat - start) = startOffset.toNat := by omega
    have hall : (st.acked.drop startOffset.toNat).take
        (st.part.nextOffset.toNat - startOffset.toNat) = st.acked.drop startOffset.toNat := by
      apply List.take_of_length_le
      rw [List.length_drop, hnext]
    rw [hsum, hall]

theorem scannedFrom_head (maxMessages maxBytes msgs bytes : ℕ) (r : Record) (rest : List Record) :
    ∃ more, scannedFrom maxMessages maxBytes msgs bytes (r :: rest) = r :: more := by
  unfold scannedFrom
  split
  · exact ⟨[], rfl⟩
  · exact ⟨_, rfl⟩

theorem RunInv.read_at (h : RunInv st) (hroom : st.acked.length < 2 ^ 64) (hr : r ∈ st.acked)
    (hkept : st.part.earliestOffset.toNat ≤ r.offset.toNat) (maxMessages maxBytes : ℕ) :
    ∃ rest, st.part.read st.fs r.offset maxMessages maxBytes = ⟨r :: rest, .OK⟩ := by
  obtain ⟨i, hi⟩ := List.mem_iff_getElem?.mp hr
  have hlt : i < st.acked.length := (List.getElem?_eq_some_iff.mp hi).1
  have hoff : r.offset.toNat = i := by simpa using h.1 i r hi
  have hnext := h.next_toNat hroom
  have hread := (h.readsAsScanned hroom r.offset maxMessages maxBytes).inside
    (UInt64.lt_iff_toNat_lt.mpr (by omega)) (UInt64.le_iff_toNat_le.mpr hkept)
  rw [hoff, List.take_of_length_le (by rw [List.length_drop]; omega),
    List.drop_eq_getElem_cons hlt, (List.getElem?_eq_some_iff.mp hi).2] at hread
  obtain ⟨more, hmore⟩ := scannedFrom_head maxMessages maxBytes 0 0 r (st.acked.drop (i + 1))
  exact ⟨more, by rw [hread, scanned, hmore]⟩

/-- **Indexed reads equal the plain scan**, in every state of every run that
hands in fewer than 2^64 records. -/
theorem run_reads_as_scanned (partitionId : UInt32) (partitionDir : Bytes)
    (config : StorageConfig) (ops : List Op) (hsized : ∀ op ∈ ops, op.Sized)
    (hroom : handedIn ops < 2 ^ 64) (startOffset : UInt64) (maxMessages maxBytes : ℕ) :
    ReadsAsScanned (run (RunState.init (Partition.new partitionId partitionDir config)) ops)
      startOffset maxMessages maxBytes := by
  obtain ⟨hinv, hlen⟩ := run_runInv (runInv_init partitionId partitionDir config) rfl ops
    hsized hroom
  exact hinv.readsAsScanned (by omega) startOffset maxMessages maxBytes

/-- A read across two segments, after a restart. -/
theorem run_reads_as_scanned_two_segments :
    ReadsAsScanned (run (RunState.init (Partition.new 0 [] { segmentMaxBytes := 30 }))
      [.append [1] [2] 5, .append [] [3] 6, .restart false]) 0 10 1000 :=
  run_reads_as_scanned 0 [] { segmentMaxBytes := 30 } _
    (by
      simp only [List.mem_cons, List.not_mem_nil, or_false, forall_eq_or_imp, forall_eq, Op.Sized]
      decide)
    (by decide) 0 10 1000

/-! ## Reads after the counter wrapped -/

theorem length_scannedFrom_le (maxMessages maxBytes : ℕ) (rs : List Record) :
    ∀ msgs bytes, (scannedFrom maxMessages maxBytes msgs bytes rs).length ≤ rs.length := by
  induction rs with
  | nil =>
    intro msgs bytes
    simp [scannedFrom]
  | cons r rest ih =>
    intro msgs bytes
    unfold scannedFrom
    split
    · simp
    · have := ih (msgs + 1) (bytes + r.size)
      simp only [List.length_cons]
      omega

theorem length_scanned_two {rs : List Record} (hlen : 2 ≤ rs.length)
    (hbytes : ∀ r ∈ rs, r.size < maxBytes) : (scanned 2 maxBytes rs).length = 2 := by
  match rs, hlen, hbytes with
  | a :: b :: rest, _, hbytes =>
    have ha := hbytes a (by simp)
    have hgo : ¬(decide (2 ≤ 0 + 1) || decide (maxBytes ≤ 0 + a.size)) = true := by
      rw [Bool.or_eq_true, decide_eq_true_iff, decide_eq_true_iff]
      omega
    have hstop : (decide (2 ≤ 0 + 1 + 1) || decide (maxBytes ≤ 0 + a.size + b.size)) = true := by
      rw [Bool.or_eq_true, decide_eq_true_iff]
      exact Or.inl (le_refl _)
    rw [scanned, scannedFrom, if_neg hgo, scannedFrom, if_pos hstop]
    rfl

/-- After 2^64 records and a restart, the next offset is the base of the active
segment, and a read from just below it runs on past it. -/
theorem not_readsAsScanned_of_wrapped (hrun : Running st pre s 0)
    (hlen : st.acked.length = 2 ^ 64) :
    ¬∀ startOffset maxMessages maxBytes,
      ReadsAsScanned (step st (.restart false)) startOffset maxMessages maxBytes := by
  intro hall
  have hend := hrun.end_eq
  have htotal := chained_end hrun.chain
  have hfiles := (diskInv_snoc.mp hrun.inv.disk).2.2.2.1
  have hcount := length_le_encodeAll s.records
  have hbytes := hfiles.len
  rw [List.append_nil] at hbytes
  have hb := s.base.toNat_lt
  obtain ⟨p', ops, heq, hinv⟩ := @openAndRecover_wrapped (reopened st.part false)
    (Fs.start st.fs.dir) pre s [] hrun.inv.disk (by omega) (by omega)
  have hstep : step st (.restart false) =
      ⟨{ p' with nextOffset := s.base }, (Fs.start st.fs.dir).execAll ops, st.acked⟩ := by
    simp only [step, heq]
  rw [hstep] at hall
  -- one below the next offset
  have hone : (1 : UInt64).toNat = 1 := rfl
  have hbelow : (s.base - 1).toNat = s.base.toNat - 1 := by
    rw [UInt64.toNat_sub_of_le _ _ (UInt64.le_iff_toNat_le.mpr (by omega)), hone]
  have hlt : s.base - 1 < s.base := UInt64.lt_iff_toNat_lt.mpr (by omega)
  have hearly := hinv.earliest hrun.chain
  have hle : p'.earliestOffset ≤ s.base - 1 := UInt64.le_iff_toNat_le.mpr (by omega)
  have hfits : ∀ r ∈ flat (pre ++ [s]), r.size < 2097152 := by
    intro r hr
    obtain ⟨x, hx, hrx⟩ := List.mem_flatMap.mp hr
    have hfit : r.Fits := by
      rcases List.mem_append.mp hx with hx | hx
      · exact ((diskInv_snoc.mp hrun.inv.disk).2.2.1 x hx).files.fits r hrx
      · rw [List.mem_singleton.mp hx] at hrx
        exact hfiles.fits r hrx
    unfold Record.Fits maxRecordSize at hfit
    omega
  have hcode := (hall (s.base - 1) 2 2097152).inside hlt hle
  have hread : ({ p' with nextOffset := s.base } : Partition).read
      ((Fs.start st.fs.dir).execAll ops) (s.base - 1) 2 2097152 =
      ⟨scanned 2 2097152 ((flat (pre ++ [s])).drop ((s.base - 1).toNat - 0)), .OK⟩ := by
    have hreadable : List.Forall₂ (Readable ((Fs.start st.fs.dir).execAll ops)) p'.segments
        (pre ++ [s]) :=
          @PartInv.readable p' ((Fs.start st.fs.dir).execAll ops) pre s 0 hinv hrun.chain
    rw [@read_inside { p' with nextOffset := s.base } _ hlt hle]
    exact readSegments_eq_scanned hreadable hrun.chain _ _ _
  dsimp only at hcode
  rw [hread] at hcode
  have hrecords := congrArg (fun res => res.records.length) hcode
  dsimp only at hrecords
  rw [length_scanned_two (by rw [List.length_drop]; omega)
    fun r hr => hfits r (List.mem_of_mem_drop hr)] at hrecords
  have hshort := length_scannedFrom_le 2 2097152 ((st.acked.drop (s.base - 1).toNat).take
    (s.base.toNat - (s.base - 1).toNat)) 0 0
  rw [List.length_take] at hshort
  unfold scanned at hrecords
  omega

theorem ReadsAsScanned.first_record {r' : Record} (hacked : st.acked = [r])
    (h : ReadsAsScanned st 0 1 1) (h' : ReadsAsScanned { st with acked := [r'] } 0 1 1)
    (hnext : st.part.nextOffset.toNat = 1) (hearly : st.part.earliestOffset.toNat = 0) :
    r = r' := by
  have hlt : (0 : UInt64) < st.part.nextOffset := UInt64.lt_iff_toNat_lt.mpr (by rw [hnext]; decide)
  have hle : st.part.earliestOffset ≤ 0 := UInt64.le_iff_toNat_le.mpr (by rw [hearly]; decide)
  have hone : st.part.nextOffset.toNat - (0 : UInt64).toNat = 1 := by rw [hnext]; rfl
  have hread := (h.inside hlt hle).symm.trans (h'.inside hlt hle)
  have hrecords := congrArg (fun res => res.records) hread
  simp only [hone, hacked] at hrecords
  simpa [scanned, scannedFrom] using hrecords

theorem not_readsAsScanned_overlong {value : Bytes} (hvalue : value.length = 2 ^ 32)
    (config : StorageConfig) :
    ¬∀ startOffset maxMessages maxBytes, ReadsAsScanned
      (run (RunState.init (Partition.new 0 [] config)) [.append [] value 0])
      startOffset maxMessages maxBytes := by
  intro hall
  obtain ⟨hover, hacked⟩ := run_overlong hvalue config
  obtain ⟨hinv, -⟩ := run_runInv (runInv_init 0 [] config) rfl [.append [] [] 0]
    (by simp [Op.Sized]) (by simp [handedIn, Op.count])
  obtain ⟨hlen, pre, s, hrun⟩ := run_emptyAppends 0 [] config 0 (by norm_num)
  set st := run (RunState.init (Partition.new 0 [] config)) [.append [] [] 0]
  have hfull := hall 0 1 1
  rw [hover] at hfull
  have hsame := (hinv.readsAsScanned (by rw [hacked]; simp) 0 1 1).first_record hacked hfull
    ((hrun.next_toNat (by omega)).trans hlen) (hrun.inv.earliest hrun.chain)
  have hnil : value = [] := by simpa using (congrArg Record.value hsame).symm
  rw [hnil] at hvalue
  cases hvalue

/-- **Reads have two limits**: the counter must not wrap, and neither may the
length of a value. -/
theorem reads_fail_beyond_limits :
    (¬∀ startOffset maxMessages maxBytes, ReadsAsScanned
      (run (RunState.init (Partition.new 0 [] {}))
        (emptyAppends (18446744073709551615 + 1) ++ [.restart false]))
      startOffset maxMessages maxBytes) ∧
    ¬∀ startOffset maxMessages maxBytes, ReadsAsScanned
      (run (RunState.init (Partition.new 0 [] {})) [.append [] (List.replicate (2 ^ 32) 88) 0])
      startOffset maxMessages maxBytes := by
  refine ⟨?_, not_readsAsScanned_overlong List.length_replicate {}⟩
  obtain ⟨-, hlen, pre, s, hrun⟩ := wrapped_run 0 [] {} 18446744073709551615 (by norm_num)
  rw [run_snoc]
  exact not_readsAsScanned_of_wrapped hrun hlen

end StreamForge
