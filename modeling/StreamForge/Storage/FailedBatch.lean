import StreamForge.Storage.FaultyRun

/-!
# Batches that fail

`append_batch` writes its records one by one and returns the first error. It is
all or nothing exactly when it stops before the first record is in the log: a
record that got there is found by the next recovery, and from the second record
on the running process has already moved its next offset.
-/

namespace StreamForge

open FileTrace FileHandle Transition

structure SameView (st st' : RunState) : Prop where
  next : st'.part.nextOffset = st.part.nextOffset
  read : ∀ startOffset maxMessages maxBytes,
    st'.part.read st'.fs startOffset maxMessages maxBytes =
      st.part.read st.fs startOffset maxMessages maxBytes

structure Untouched (st st' : RunState) : Prop where
  running : SameView st st'
  restarted : ∀ full, SameView st (call st' (.restart full))

/-- The batch is refused, or its first record does not get into the log. -/
def Partition.writesNothing (p : Partition) (items : List (Bytes × Bytes)) (fts : List Faults)
    (fs : FileSystem) : Bool :=
  refusesBatch items ||
    items.head?.any fun item => p.leavesUnwritten item.1 item.2 (fts.headD {}) fs

section View

variable {st st' : RunState} {start : ℕ} {stored : List Record}

theorem Visible.sameView (h : Visible start stored st.part st.fs)
    (h' : Visible start stored st'.part st'.fs) (hnext : st'.part.nextOffset = st.part.nextOffset) :
    SameView st st' :=
  ⟨hnext, h.read_eq h' hnext⟩

theorem Visible.restart (h : Visible start stored st.part st.fs)
    (hroom : start + stored.length < 2 ^ 64) (full : Bool) :
    Visible start stored (call st (.restart full)).part (call st (.restart full)).fs ∧
      (call st (.restart full)).part.nextOffset.toNat = start + stored.length := by
  obtain ⟨p', ops, pre, s, heq, hinv, hchain, hflat, hnext⟩ :=
    h.recover hroom (reopened st.part full)
  simp only [call, heq]
  exact ⟨hflat ▸ @PartInv.visible p' ((Fs.start st.fs.dir).execAll ops) pre s start hinv
    hchain, hnext⟩

theorem Visible.untouched (h : Visible start stored st.part st.fs)
    (hend : st.part.nextOffset.toNat = start + stored.length)
    (h' : Visible start stored st'.part st'.fs) (hnext : st'.part.nextOffset = st.part.nextOffset) :
    Untouched st st' where
  running := h.sameView h' hnext
  restarted full := by
    have hroom : start + stored.length < 2 ^ 64 := hend ▸ st.part.nextOffset.toNat_lt
    obtain ⟨hvis, hnext'⟩ := h'.restart hroom full
    exact h.sameView hvis (UInt64.toNat_inj.mp (hnext'.trans hend.symm))

theorem Visible.not_untouched (hend : st.part.nextOffset.toNat = start + stored.length)
    {more : List Record} (hmore : more ≠ []) (h' : Visible start (stored ++ more) st'.part st'.fs)
    (hroom : start + (stored ++ more).length < 2 ^ 64) : ¬Untouched st st' := by
  intro hsame
  obtain ⟨-, hnext'⟩ := h'.restart hroom true
  rw [(hsame.restarted true).next, hend, List.length_append] at hnext'
  have := List.length_pos_iff.mpr hmore
  omega

end View

section Batch

variable {st : RunState} {log : List Record} {items : List (Bytes × Bytes)} {nowMs : Int64}
  {fts : List Faults}

theorem writesNothing_accepted (hfit : Partition.refusesBatch items = false) (p : Partition)
    (fts : List Faults) (fs : FileSystem) : p.writesNothing items fts fs = true ↔
      ∃ item, items.head? = some item ∧
        p.leavesUnwritten item.1 item.2 (fts.headD {}) fs = true := by
  rw [Partition.writesNothing, hfit, Bool.false_or, Option.any_eq_true]

theorem call_batch_error (hfit : Partition.refusesBatch items = false)
    (herr : (st.part.appendRecords nowMs items fts st.fs).1.ok = false) :
    call st (.batch items nowMs fts) = ⟨(st.part.appendRecords nowMs items fts st.fs).2.1,
      (st.part.appendRecords nowMs items fts st.fs).2.2, st.acked⟩ := by
  simp only [call, appendBatch_accepted hfit, herr, Bool.not_false, if_true]

theorem appendRecords_of_batch_error (hfit : Partition.refusesBatch items = false)
    (herr : ∃ e, (st.part.appendBatch items nowMs fts st.fs).1 = .error e) :
    (st.part.appendRecords nowMs items fts st.fs).1.ok = false := by
  obtain ⟨e, herr⟩ := herr
  rw [appendBatch_accepted hfit] at herr
  cases hok : (st.part.appendRecords nowMs items fts st.fs).1.ok with
  | false => rfl
  | true => simp [hok] at herr

/-- What a failed batch leaves behind what was visible: `more`, which is nothing
exactly if no record got into the log. -/
structure LeftBehind (start : ℕ) (stored : List Record) (items : List (Bytes × Bytes))
    (fts : List Faults) (st st' : RunState) (more : List Record) : Prop where
  visible : Visible start (stored ++ more) st'.part st'.fs
  length_le : more.length ≤ items.length
  nothing : more = [] ↔ st.part.writesNothing items fts st.fs = true
  next : more = [] → st'.part.nextOffset = st.part.nextOffset

theorem Running.leftBehind {pre : List SegmentData} {s : SegmentData} {start : ℕ}
    (h : Running ⟨st.part, st.fs, log⟩ pre s start)
    (hsized : ∀ item ∈ items, item.1.length + item.2.length < 2 ^ 32 - 28)
    (hroom : log.length + items.length < 2 ^ 64) (hfit : Partition.refusesBatch items = false)
    (herr : (st.part.appendRecords nowMs items fts st.fs).1.ok = false) :
    ∃ more, LeftBehind start (flat (pre ++ [s])) items fts st (call st (.batch items nowMs fts))
      more := by
  have hend := h.end_eq
  obtain ⟨p', ops, n, m, heq, hstopped, hzero⟩ :=
    @appendRecords_error start nowMs items st.part st.fs
    pre s fts ⟨h.inv, h.chain, hsized, recordTooLarge_of_refusesBatch
      hfit, by simp only at hend; omega⟩
    herr
  have hlen := hstopped.lt
  rw [length_assign] at hlen
  have hnil : (assign st.part.nextOffset nowMs items).take m = [] ↔ m = 0 := by
    rw [← List.length_eq_zero_iff, List.length_take, length_assign]
    omega
  rw [call_batch_error hfit herr, heq]
  refine ⟨(assign st.part.nextOffset nowMs items).take m, hstopped.visible, ?_, ?_, ?_⟩
  · rw [List.length_take, length_assign]
    exact Nat.min_le_right _ _
  · rw [hnil, hzero, writesNothing_accepted hfit]
  · intro hmore
    -- the loop has not counted a record either
    obtain rfl : n = 0 := by
      rcases hstopped.reached with hmn | hmn
      · exact hmn.symm.trans (hnil.mp hmore)
      · have := hnil.mp hmore
        omega
    simpa using hstopped.next

theorem Fresh.leftBehind (h : Fresh st.part st.fs.dir)
    (hsized : ∀ item ∈ items, item.1.length + item.2.length < 2 ^ 32 - 28)
    (hroom : items.length < 2 ^ 64) (hfit : Partition.refusesBatch items = false)
    (herr : (st.part.appendRecords nowMs items fts st.fs).1.ok = false) :
    ∃ more, LeftBehind 0 [] items fts st (call st (.batch items nowMs fts)) more := by
  cases items with
  | nil => cases hfit
  | cons item rest =>
    obtain ⟨key, value⟩ := item
    by_cases hfail : (fts.headD {}).openLog = true ∨ (fts.headD {}).openIndex = true
    · -- no segment could be opened
      obtain ⟨ops, hroomErr, heq, hleft, -⟩ := h.makeRoom_failed hfail key value
      have happ := appendRecord_of_makeRoom_error hroomErr nowMs false
      have hloop := @appendRecords_cons_error nowMs st.part key value rest fts st.fs
        (by rw [happ]; exact hroomErr)
      rw [call_batch_error hfit herr, hloop, happ, heq]
      refine ⟨[], hleft.visible, Nat.zero_le _, ⟨fun _ => ?_, fun _ => rfl⟩, fun _ => hleft.next⟩
      exact (writesNothing_accepted hfit ..).mpr
        ⟨(key, value), rfl, by rw [Partition.leavesUnwritten, hroomErr]; rfl⟩
    · rw [not_or, Bool.not_eq_true, Bool.not_eq_true] at hfail
      have hloop := h.appendRecords_eq hfail.1 hfail.2 (List.cons_ne_nil (key, value) rest) nowMs
      have herr' := herr
      rw [hloop] at herr'
      obtain ⟨more, hmore⟩ := @Running.leftBehind (rolledFirst st) [] _ nowMs fts [] ⟨0, []⟩ 0
        (@Fresh.running ⟨st.part, st.fs, []⟩ h rfl) hsized (by simpa using hroom) hfit herr'
      have hcall : call st (.batch ((key, value) :: rest) nowMs fts) =
          call (rolledFirst st) (.batch ((key, value) :: rest) nowMs fts) := by
        rw [call_batch_error hfit herr, @call_batch_error (rolledFirst st) _ nowMs fts hfit herr',
          hloop]
        rfl
      have hwrites : st.part.writesNothing ((key, value) :: rest) fts st.fs =
          (rolledFirst st).part.writesNothing ((key, value) :: rest) fts (rolledFirst st).fs := by
        simp only [Partition.writesNothing, List.head?_cons, Option.any_some,
          h.leavesUnwritten_eq hfail.1 hfail.2]
        rfl
      rw [hcall]
      exact ⟨more, hmore.visible, hmore.length_le, by rw [hwrites]; exact hmore.nothing, hmore.next⟩

/-- **What a failed batch leaves behind**, whatever made it fail. -/
theorem Logged.leftBehind (h : Logged st log) (hrange : (Call.batch items nowMs fts).InRange st)
    (herr : ∃ e, (st.part.appendBatch items nowMs fts st.fs).1 = .error e) :
    ∃ more, LeftBehind st.part.earliestOffset.toNat
      (log.drop st.part.earliestOffset.toNat) items fts
      st (call st (.batch items nowMs fts)) more := by
  obtain ⟨hsized, hroom⟩ := hrange
  rw [h.next] at hroom
  simp only [Call.count] at hroom
  cases hfit : Partition.refusesBatch items with
  | true =>
    obtain ⟨status, heq⟩ := appendBatch_refused hfit st.part nowMs fts st.fs
    have hcall : call st (.batch items nowMs fts) = st := by simp only [call, heq]
    rw [hcall]
    refine ⟨[], by rw [List.append_nil]; exact h.visible.1, Nat.zero_le _, ?_, fun _ => rfl⟩
    simp [Partition.writesNothing, hfit]
  | false =>
    have hloop := appendRecords_of_batch_error hfit herr
    obtain ⟨-, ⟨hfresh, hnil⟩ | ⟨pre, s, start, hrun⟩⟩ := h.inv
    · have hzero := (@Fresh.visible st.part st.fs hfresh).earliest
      have hlog : log = [] := hnil
      rw [hzero, hlog]
      exact @Fresh.leftBehind st items nowMs fts hfresh hsized (by omega) hfit hloop
    · have hstart : st.part.earliestOffset.toNat = start := hrun.inv.earliest hrun.chain
      rw [hstart, ← hrun.stored]
      exact hrun.leftBehind hsized hroom hfit hloop

/-- **All or nothing**: a batch that fails leaves no trace if and only if it is
refused or its first record does not get into the log. -/
theorem Logged.untouched_iff (h : Logged st log) (hrange : (Call.batch items nowMs fts).InRange st)
    (herr : ∃ e, (st.part.appendBatch items nowMs fts st.fs).1 = .error e) :
    Untouched st (call st (.batch items nowMs fts)) ↔
      st.part.writesNothing items fts st.fs = true := by
  obtain ⟨more, hleft⟩ := h.leftBehind hrange herr
  obtain ⟨hvis, hle⟩ := h.visible
  have hend : st.part.nextOffset.toNat =
      st.part.earliestOffset.toNat + (log.drop st.part.earliestOffset.toNat).length := by
    rw [h.next, List.length_drop]
    omega
  have hroom := hrange.2
  have hlen := hleft.length_le
  rw [← hleft.nothing]
  constructor
  · intro hsame
    by_contra hmore
    refine Visible.not_untouched hend hmore hleft.visible ?_ hsame
    rw [List.length_append]
    simp only [Call.count] at hroom
    omega
  · rintro rfl
    have hvis' := hleft.visible
    rw [List.append_nil] at hvis'
    exact hvis.untouched hend hvis' (hleft.next rfl)

end Batch

end StreamForge
