import StreamForge.Storage.PartitionRead

/-!
# Appends that fail

An `open` may fail and a write may stop after any number of its bytes. An
operation that reports OK has then done exactly what it does when nothing fails;
one that reports an error has stopped where it failed.

What is left behind an error is described by what can be told from outside
(`Visible`): the records that readers of the running process and a recovery of
the directory find. A record whose append failed is among them if and only if its
bytes were all in the log before the failure.
-/

namespace StreamForge

open FileTrace FileHandle

/-! ## OK means that nothing failed -/

variable {fs fs' : FileSystem} {bs : Bytes} {limit : Option ℕ} {start : ℕ} {stored : List Record}
    {p : Partition}

theorem write_of_ok {f : FileName} (h : (write fs f bs limit).1 = true) :
    write fs f bs limit = write fs f bs none := by
  cases limit with
  | none => rfl
  | some k =>
    have hlen : (bs.take k).length = bs.length := by simpa [write] using h
    have htake : bs.take k = bs := List.take_of_length_le (by rw [List.length_take] at hlen; omega)
    simp [write, htake]

namespace LogSegment

variable {seg : LogSegment} {ft : Faults} {fs : FileSystem}

theorem openFiles_of_ok (h : (seg.openFiles ft fs).1.ok = true) :
    seg.openFiles ft fs = seg.openFiles {} fs := by
  unfold openFiles at h ⊢
  cases hlog : ft.openLog with
  | true => simp [hlog] at h
  | false =>
    cases hindex : ft.openIndex with
    | true => simp [hlog, hindex] at h
    | false =>
      simp only [hlog, hindex, Bool.false_eq_true, if_false, Bool.false_and] at h ⊢
      split at h
      · simp at h
      · rename_i hload
        rw [if_neg hload]

theorem writeSealedMarker_of_ok (h : (seg.writeSealedMarker ft fs).1.ok = true) :
    seg.writeSealedMarker ft fs = seg.writeSealedMarker {} fs := by
  unfold writeSealedMarker at h ⊢
  cases hopen : ft.openSealed with
  | true => simp [hopen] at h
  | false =>
    simp only [hopen, Bool.false_eq_true, if_false] at h ⊢
    have hwrite : ∀ fs bs, (write fs seg.sealedFile bs ft.sealedWrite).1 = true →
        write fs seg.sealedFile bs ft.sealedWrite = write fs seg.sealedFile bs none :=
      fun _ _ => write_of_ok
    split at h
    · simp at h
    · rename_i fs' heq
      rw [← hwrite _ _ (by rw [heq]), heq]

theorem appendWithTimestamp_of_ok {record : Record} {ts : Int64} {sync : Bool}
    (h : (seg.appendWithTimestamp record ts sync ft fs).1.ok = true) :
    seg.appendWithTimestamp record ts sync ft fs =
      seg.appendWithTimestamp record ts sync {} fs := by
  unfold appendWithTimestamp at h ⊢
  split
  · rfl
  · rename_i hsealed
    rw [if_neg hsealed] at h
    dsimp only at h ⊢
    split
    · rfl
    · rename_i hsize
      rw [if_neg hsize] at h
      split at h
      · simp at h
      · rename_i fs' hlog
        have hlog' := write_of_ok (congrArg Prod.fst hlog)
        rw [← hlog', hlog]
        dsimp only
        split at h
        · rename_i hdue
          rw [if_pos hdue]
          split at h
          · simp at h
          · rename_i fs'' hindex
            rw [← write_of_ok (congrArg Prod.fst hindex), hindex]
            rw [if_pos hdue]
        · rename_i hdue
          rw [if_neg hdue, if_neg hdue]

end LogSegment

namespace Partition

variable {p : Partition} {key value : Bytes} {ft : Faults} {fs : FileSystem}

theorem rollSegmentUnlocked_of_ok (h : (p.rollSegmentUnlocked ft fs).1.ok = true) :
    p.rollSegmentUnlocked ft fs = p.rollSegmentUnlocked {} fs := by
  unfold rollSegmentUnlocked at h ⊢
  have hopen := @LogSegment.openFiles_of_ok (p.newSegment p.nextOffset) ft fs
  generalize (p.newSegment p.nextOffset).openFiles ft fs = res at h hopen ⊢
  obtain ⟨st, seg, fs1⟩ := res
  cases hst : st.ok with
  | false => simp [hst] at h
  | true =>
    rw [← hopen hst]
    simp only [hst, Bool.not_true, Bool.false_eq_true, if_false] at h ⊢
    cases hlast : p.segments.getLast? with
    | none => rfl
    | some old =>
      simp only [hlast] at h ⊢
      have hmark := @LogSegment.writeSealedMarker_of_ok
        (old.sealSegment (fs1.exec .flushDir)).1 ft (old.sealSegment (fs1.exec .flushDir)).2
      generalize (old.sealSegment (fs1.exec .flushDir)).1.writeSealedMarker ft
        (old.sealSegment (fs1.exec .flushDir)).2 = res at h hmark ⊢
      obtain ⟨st', fs2⟩ := res
      cases hst' : st'.ok with
      | false => simp [hst'] at h
      | true =>
        rw [← hmark hst']
        simp only [hst']

theorem makeRoom_of_ok (h : (p.makeRoom key value ft fs).1.ok = true) :
    p.makeRoom key value ft fs = p.makeRoom key value {} fs := by
  unfold makeRoom at h ⊢
  have hfirst : ∀ st p1 fs1, (if p.segments.isEmpty then p.rollSegmentUnlocked ft fs
      else (.OK, p, fs)) = (st, p1, fs1) → st.ok = true →
      (if p.segments.isEmpty then p.rollSegmentUnlocked {} fs
        else (.OK, p, fs)) = (st, p1, fs1) := by
    intro st p1 fs1 heq hst
    by_cases hempty : p.segments.isEmpty = true
    · rw [if_pos hempty] at heq ⊢
      rw [← rollSegmentUnlocked_of_ok (by rw [heq]; exact hst), heq]
    · rw [if_neg hempty] at heq ⊢
      exact heq
  generalize (if p.segments.isEmpty then p.rollSegmentUnlocked ft fs else (.OK, p, fs)) = res
    at h hfirst ⊢
  obtain ⟨st, p1, fs1⟩ := res
  cases hst : st.ok with
  | false => simp [hst] at h
  | true =>
    rw [hfirst st p1 fs1 rfl hst]
    simp only [hst, Bool.not_true, Bool.false_eq_true, if_false] at h ⊢
    split
    · rfl
    · rename_i active hactive
      simp only [hactive] at h
      by_cases hroll : p1.needsRoll active key value = true
      · rw [if_pos hroll] at h ⊢
        rw [if_pos hroll]
        exact rollSegmentUnlocked_of_ok h
      · rw [if_neg hroll, if_neg hroll]

theorem appendRecord_of_ok {ts : Int64} {sync : Bool}
    (h : (p.appendRecord key value ts sync ft fs).1.ok = true) :
    p.appendRecord key value ts sync ft fs = p.appendRecord key value ts sync {} fs := by
  unfold appendRecord at h ⊢
  have hroom := @makeRoom_of_ok p key value ft fs
  generalize p.makeRoom key value ft fs = res at h hroom ⊢
  obtain ⟨st, p1, fs1⟩ := res
  cases hst : st.ok with
  | false => simp [hst] at h
  | true =>
    rw [← hroom hst]
    simp only [hst, Bool.not_true, Bool.false_eq_true, if_false] at h ⊢
    cases hlast : p1.segments.getLast? with
    | none => rfl
    | some active =>
      simp only [hlast] at h ⊢
      have happ := @LogSegment.appendWithTimestamp_of_ok active ft fs1
        ⟨p1.nextOffset, ts, key, value⟩ ts sync
      generalize active.appendWithTimestamp ⟨p1.nextOffset, ts, key, value⟩ ts sync ft fs1 = res
        at h happ ⊢
      obtain ⟨st', active', fs2⟩ := res
      cases hst' : st'.ok with
      | false => simp [hst'] at h
      | true =>
        rw [← happ hst']
        simp only [hst']

end Partition

/-! ## What can be told from outside -/

/-- The records that a reader of the partition sees, and that a recovery of its
directory finds, are `stored`, from offset `start` on. -/
structure Visible (start : ℕ) (stored : List Record) (p : Partition) (fs : FileSystem) : Prop where
  readable : ∃ xs, List.Forall₂ (Readable fs) p.segments xs ∧ Chained start xs ∧ flat xs = stored
  earliest : p.earliestOffset.toNat = start
  disk : Holding start stored fs.dir ∨ DiskInv fs.dir [] [] ∧ start = 0 ∧ stored = []

theorem PartInv.visible {p : Partition} {fs : FileSystem} {pre : List SegmentData} {s : SegmentData}
    {start : ℕ} (h : PartInv p fs.dir pre s) (hchain : Chained start (pre ++ [s])) :
    Visible start (flat (pre ++ [s])) p fs where
  readable := ⟨pre ++ [s], h.readable hchain, hchain, rfl⟩
  earliest := h.earliest hchain
  disk := Or.inl (h.holding hchain)

theorem Fresh.visible {p : Partition} {fs : FileSystem} (h : Fresh p fs.dir) :
    Visible 0 [] p fs where
  readable := ⟨[], by rw [h.segments]; exact List.Forall₂.nil, trivial, rfl⟩
  earliest := by simp [Partition.earliestOffset, h.segments]
  disk := Or.inr ⟨h.disk, rfl, rfl⟩

theorem Visible.grown (h : Visible start stored p fs) (hgrown : Grown fs.dir fs'.dir)
    (hdisk : Holding start stored fs'.dir) : Visible start stored p fs' where
  readable := by
    obtain ⟨xs, hread, hchain, hflat⟩ := h.readable
    refine ⟨xs, hread.imp ?_, hchain, hflat⟩
    intro seg x hx
    obtain ⟨tail, hlog⟩ := hx.log
    obtain ⟨more, hmore⟩ := hgrown _ _ hlog
    exact ⟨hx.toSegMatch, ⟨tail ++ more, by rw [hmore, List.append_assoc]⟩, hx.fits, hx.consecutive⟩
  earliest := h.earliest
  disk := Or.inl hdisk

/-- **Reads depend on what is visible only**, and on the next offset. -/
theorem Visible.read_eq {p' : Partition} (h : Visible start stored p fs)
    (h' : Visible start stored p' fs') (hnext : p'.nextOffset = p.nextOffset) (startOffset : UInt64)
    (maxMessages maxBytes : ℕ) :
    p'.read fs' startOffset maxMessages maxBytes = p.read fs startOffset maxMessages maxBytes := by
  have hearliest : p'.earliestOffset = p.earliestOffset :=
    UInt64.toNat_inj.mp (h'.earliest.trans h.earliest.symm)
  obtain ⟨xs, hread, hchain, hflat⟩ := h.readable
  obtain ⟨xs', hread', hchain', hflat'⟩ := h'.readable
  unfold Partition.read
  rw [hnext, hearliest, readSegments_eq_scanned hread hchain,
    readSegments_eq_scanned hread' hchain', hflat, hflat']

/-- **A recovery brings back** what is visible. -/
theorem Visible.recover {start : ℕ} {stored : List Record} {p : Partition} {fs : FileSystem}
    (h : Visible start stored p fs) (hroom : start + stored.length < 2 ^ 64) (q : Partition) :
    ∃ p' ops pre s, q.openAndRecover (Fs.start fs.dir) = (.OK, p', (Fs.start fs.dir).execAll ops) ∧
      PartInv p' (applyAll fs.dir ops) pre s ∧ Chained start (pre ++ [s]) ∧
      flat (pre ++ [s]) = stored ∧ p'.nextOffset.toNat = start + stored.length := by
  rcases h.disk with ⟨segs, tail, hne, hdisk, hchain, rfl⟩ | ⟨hdisk, rfl, rfl⟩
  · obtain ⟨pre, s, rfl⟩ := (List.eq_nil_or_concat segs).resolve_left hne
    rw [List.concat_eq_append] at hdisk hchain hroom ⊢
    obtain ⟨p', ops, heq, hinv, -, -, -⟩ :=
      @openAndRecover_spec q (Fs.start fs.dir) pre s tail start hdisk hchain hroom
    exact ⟨p', ops, pre, s, heq, hinv, hchain, rfl, hinv.next_toNat hchain hroom⟩
  · obtain ⟨p', ops, heq, hinv, -, -, -⟩ := @openAndRecover_empty q (Fs.start fs.dir) hdisk
    have hchain : Chained 0 ([] ++ [⟨0, []⟩]) :=
      chained_snoc.mpr ⟨trivial, by simp, rfl, Consecutive.nil _⟩
    exact ⟨p', ops, [], ⟨0, []⟩, heq, hinv, hchain, rfl, hinv.next_toNat hchain (by simp)⟩

/-! ## Failed rolls -/

section Faulty

variable {p : Partition} {fs : FileSystem} {pre : List SegmentData} {s : SegmentData} {start : ℕ}
  {ft : Faults}

structure Kept (start : ℕ) (stored : List Record) (p p' : Partition) (fs : FileSystem)
    (ops : List (FileOp FileName)) : Prop where
  inv : ∃ pre s, PartInv p' (applyAll fs.dir ops) pre s ∧ Chained start (pre ++ [s]) ∧
    flat (pre ++ [s]) = stored
  next : p'.nextOffset = p.nextOffset

/-- A failed operation that leaves `stored` visible. -/
structure Left (start : ℕ) (stored : List Record) (p p' : Partition) (fs : FileSystem)
    (ops : List (FileOp FileName)) : Prop where
  visible : Visible start stored p' (fs.execAll ops)
  next : p'.nextOffset = p.nextOffset

theorem Kept.left {stored : List Record} {p p' : Partition} {ops : List (FileOp FileName)}
    (h : Kept start stored p p' fs ops) : Left start stored p p' fs ops where
  visible := by
    obtain ⟨pre, s, hinv, hchain, hflat⟩ := h.inv
    exact hflat ▸ @PartInv.visible p' (fs.execAll ops) pre s start hinv hchain
  next := h.next

/-- A marker that could not be written: only its own file is affected. -/
theorem writeSealedMarker_error {seg : LogSegment} {fs : FileSystem}
    (h : (seg.writeSealedMarker ft fs).1.ok = false) :
    ∃ ops, (seg.writeSealedMarker ft fs).2 = fs.execAll ops ∧
      ∀ d f, f ≠ seg.sealedFile → (applyAll d ops).lookup f = d.lookup f := by
  unfold LogSegment.writeSealedMarker at h ⊢
  cases hopen : ft.openSealed with
  | true => exact ⟨[], by rw [if_pos rfl, Fs.execAll_nil], fun _ _ _ => rfl⟩
  | false =>
    simp only [hopen, Bool.false_eq_true, if_false, Fs.exec_eq_execAll] at h ⊢
    split at h
    · rename_i fs' heq
      have hfs := congrArg Prod.snd heq
      simp only [write, Fs.exec_eq_execAll, Fs.execAll_execAll] at hfs
      refine ⟨_, hfs.symm, ?_⟩
      intro d f hf
      simp [lookup_append, lookup_create, hf]
    · simp at h

/-- **A roll that fails.** Either memory and directory are still in step, or the
log of the new segment was created and its index was not. -/
theorem PartInv.roll_error (h : PartInv p fs.dir pre s) (hchain : Chained start (pre ++ [s]))
    (hne : s.records ≠ []) (hnext : p.nextOffset.toNat = s.base.toNat + s.records.length)
    (herr : (p.rollSegmentUnlocked ft fs).1.ok = false) :
    ∃ p' ops, (p.rollSegmentUnlocked ft fs).2 = (p', fs.execAll ops) ∧
      (Kept start (flat (pre ++ [s])) p p' fs ops ∨
        ft.openIndex = true ∧ Left start (flat (pre ++ [s])) p p' fs ops) := by
  cases hlog : ft.openLog with
  | true =>
    refine ⟨p, [], ?_, Or.inl ⟨⟨pre, s, h, hchain, rfl⟩, rfl⟩⟩
    simp [Partition.rollSegmentUnlocked, LogSegment.openFiles, hlog, Fs.execAll_nil]
  | false =>
    cases hindex : ft.openIndex with
    | true =>
      refine ⟨p, [.create ⟨p.nextOffset, .log⟩], ?_, Or.inr ⟨rfl, ?_, rfl⟩⟩
      · simp [Partition.rollSegmentUnlocked, LogSegment.openFiles, hlog, hindex,
          Fs.exec_eq_execAll, LogSegment.logFile, Partition.newSegment]
      · refine (h.visible hchain).grown (grown_applyAll (by simp [FileOp.Adds]) _) ?_
        refine ⟨_, [], by simp, h.newLog hne hnext, chained_next hchain hne hnext, ?_⟩
        rw [flat_append, flat_singleton, List.append_nil]
    | false =>
      obtain ⟨closed, active, hsegs, -, hactive⟩ := h.segments
      have hopen := @openFiles_new p fs ft _ hlog hindex (h.next_index hne hnext)
      rw [LogSegment.openFiles_unsealed (p.newSegment p.nextOffset) fs
        (h.next_absent hne hnext (by simp))] at hopen
      have hsealedFile : active.sealedFile = ⟨s.base, .sealed⟩ := by
        rw [LogSegment.sealedFile, hactive.base]
      unfold Partition.rollSegmentUnlocked at herr ⊢
      rw [hopen] at herr ⊢
      simp only [Status.if_not_ok, hsegs,
        List.getLast?_concat, List.dropLast_concat, LogSegment.sealSegment, LogSegment.flush_eq,
        Fs.exec_eq_execAll, Fs.execAll_execAll] at herr ⊢
      -- only the marker is left to fail
      have hmark := @writeSealedMarker_error ft { active with isSealed := true }
        (fs.execAll ((p.newSegment p.nextOffset).openOps ++ [.flushDir] ++ active.flushOps))
      generalize LogSegment.writeSealedMarker { active with isSealed := true } ft (fs.execAll
        ((p.newSegment p.nextOffset).openOps ++ [.flushDir] ++ active.flushOps)) = res
        at herr hmark ⊢
      obtain ⟨st, fs'⟩ := res
      cases hst : st.ok with
      | true => simp [hst] at herr
      | false =>
        obtain ⟨ops, hfs, hsame⟩ := hmark hst
        simp only [Fs.execAll_execAll] at hfs
        simp only [hfs, Bool.not_false, if_true]
        refine ⟨_, _, rfl, Or.inl ⟨⟨pre ++ [s], ⟨p.nextOffset, []⟩,
          h.rolled hne hnext hsegs ?_, chained_next hchain hne hnext, ?_⟩, rfl⟩⟩
        · intro f hf
          rw [applyAll_append, hsame _ f (hsealedFile ▸ hf), applyAll_append, applyAll_append]
          rfl
        · rw [flat_append, flat_singleton, List.append_nil]

theorem PartInv.makeRoom_error (h : PartInv p fs.dir pre s) (hchain : Chained start (pre ++ [s]))
    (hnext : p.nextOffset.toNat = s.base.toNat + s.records.length) {key value : Bytes}
    (herr : (p.makeRoom key value ft fs).1.ok = false) :
    ∃ p' ops, (p.makeRoom key value ft fs).2 = (p', fs.execAll ops) ∧
      (Kept start (flat (pre ++ [s])) p p' fs ops ∨
        ft.openIndex = true ∧ Left start (flat (pre ++ [s])) p p' fs ops) := by
  obtain ⟨closed, active, hsegs, -, hactive⟩ := h.segments
  have hempty : p.segments.isEmpty = false := by simp [hsegs]
  have hlast : p.segments.getLast? = some active := by simp [hsegs]
  by_cases hroll : p.needsRoll active key value = true
  · have hne : s.records ≠ [] := by
      intro hnil
      simp [Partition.needsRoll, hactive.size, hnil] at hroll
    have heq : p.makeRoom key value ft fs = p.rollSegmentUnlocked ft fs := by
      simp only [Partition.makeRoom, hempty, Bool.false_eq_true, if_false, Status.ok_OK,
        Bool.not_true, hlast, hroll, if_true]
    rw [heq] at herr ⊢
    exact h.roll_error hchain hne hnext herr
  · simp [Partition.makeRoom, hempty, hlast, hroll] at herr

end Faulty

/-! ## Short writes -/

def Faults.logShort (ft : Faults) (size : ℕ) : Bool := ft.logWrite.any fun k => decide (k < size)

def Faults.indexShort (ft : Faults) : Bool := ft.indexWrite.any fun k => decide (k < 8)

theorem write_short {k : ℕ} (h : k < bs.length) (fs : FileSystem) (f : FileName) :
    write fs f bs (some k) = (false, fs.execAll [.append f (bs.take k)]) := by
  have hne : (bs.take k).length ≠ bs.length := by
    rw [List.length_take]
    omega
  simp only [write, Fs.exec_eq_execAll, beq_eq_false_iff_ne.mpr hne]

theorem write_whole (h : (limit.any fun k => decide (k < bs.length)) = false) (fs : FileSystem)
    (f : FileName) : write fs f bs limit = (true, fs.execAll [.append f bs]) := by
  rw [← write_none]
  apply write_of_ok
  cases limit with
  | none => simp [write]
  | some k =>
    have hle : bs.length ≤ k := by simpa using h
    simp [write, List.take_of_length_le hle]

namespace LogSegment

variable {seg : LogSegment} {record : Record} {ft : Faults}

theorem encode_sizes (hfits : record.Fits) : (RecordCodec.encode record).length = record.size ∧
    ¬(RecordCodec.encode record).length > maxRecordSize := by
  have hlen := RecordCodec.length_encode_of_fits hfits
  rw [hlen]
  exact ⟨rfl, Nat.not_lt.mpr hfits⟩

variable {k : ℕ}

theorem appendWithTimestamp_logShort (hsealed : seg.isSealed = false) (hfits : record.Fits)
    (hk : ft.logWrite = some k) (hlt : k < record.size) (sync : Bool) (fs : FileSystem) :
    seg.appendWithTimestamp record record.timestampMs sync ft fs =
      (.ioError (ascii "Failed to write record to log file"), seg,
        fs.execAll [.append seg.logFile ((RecordCodec.encode record).take k)]) := by
  obtain ⟨hlen, hsize⟩ := encode_sizes hfits
  unfold appendWithTimestamp
  rw [hsealed, if_neg Bool.false_ne_true]
  simp only [hk, write_short (hlen ▸ hlt)]
  rw [if_neg hsize]

theorem appendWithTimestamp_indexShort (hsealed : seg.isSealed = false) (hfits : record.Fits)
    (hlog : ft.logShort record.size = false) (hdue : seg.indexDue = true)
    (hk : ft.indexWrite = some k) (hlt : k < 8) (sync : Bool) (fs : FileSystem) :
    seg.appendWithTimestamp record record.timestampMs sync ft fs =
      (.ioError (ascii "Failed to append index entry"),
        { seg.appended record with bytesSinceLastIndex := seg.bytesSinceLastIndex },
        fs.execAll [.append seg.logFile (RecordCodec.encode record),
          .append seg.indexFile ((OffsetIndex.encodeEntry (seg.newEntry record)).take k)]) := by
  obtain ⟨hlen, hsize⟩ := encode_sizes hfits
  unfold appendWithTimestamp
  rw [hsealed, if_neg Bool.false_ne_true]
  simp only [write_whole (hlen ▸ hlog)]
  rw [if_neg hsize]
  simp only [hdue, if_true, hk]
  rw [write_short (by rw [OffsetIndex.length_encodeEntry]; exact hlt)]
  simp only [appended, hdue, if_true, Fs.execAll_execAll]
  rfl

theorem appendWithTimestamp_whole (hsealed : seg.isSealed = false) (hfits : record.Fits)
    (hlog : ft.logShort record.size = false) (hindex : seg.indexDue = true → ft.indexShort = false)
    (sync : Bool) (fs : FileSystem) :
    (seg.appendWithTimestamp record record.timestampMs sync ft fs).1.ok = true := by
  obtain ⟨hlen, hsize⟩ := encode_sizes hfits
  unfold appendWithTimestamp
  rw [hsealed, if_neg Bool.false_ne_true]
  simp only [write_whole (hlen ▸ hlog)]
  rw [if_neg hsize]
  by_cases hdue : seg.indexDue = true
  · have hentry : ∀ e : IndexEntry,
        (ft.indexWrite.any fun k => decide (k < (OffsetIndex.encodeEntry e).length)) = false := by
      intro e
      rw [OffsetIndex.length_encodeEntry]
      exact hindex hdue
    simp only [hdue, if_true, write_whole (hentry _), Status.ok_OK]
  · simp only [hdue, Bool.false_eq_true, if_false, Status.ok_OK]

end LogSegment

/-! ## One record -/

namespace Partition

/-- The append fails before the record is in the log. -/
def leavesUnwritten (p : Partition) (key value : Bytes) (ft : Faults) (fs : FileSystem) : Bool :=
  !(p.makeRoom key value ft fs).1.ok || ft.logShort (recordSize key value)

/-- The append fails after that, at the index. -/
def indexWriteFails (p : Partition) (key value : Bytes) (ft : Faults) (fs : FileSystem) : Bool :=
  !p.leavesUnwritten key value ft fs && ft.indexShort &&
    (p.makeRoom key value ft fs).2.1.segments.getLast?.any LogSegment.indexDue

end Partition

section Record

variable {p : Partition} {fs : FileSystem} {pre : List SegmentData} {s : SegmentData} {start : ℕ}
  {ft : Faults} {r : Record}

theorem appendRecord_placed {p1 : Partition} {fs1 : FileSystem} {closed : List LogSegment}
    {active : LogSegment} (hroom : p.makeRoom r.key r.value ft fs = (.OK, p1, fs1))
    (hsegs : p1.segments = closed ++ [active]) (hoff : r.offset = p1.nextOffset) (sync : Bool) :
    p.appendRecord r.key r.value r.timestampMs sync ft fs =
      match active.appendWithTimestamp r r.timestampMs sync ft fs1 with
      | (st, active, fs2) =>
        if !st.ok then (st, { p1 with segments := closed ++ [active] }, fs2)
        else (.OK, { p1 with segments := closed ++ [active], nextOffset := p1.nextOffset + 1 },
          fs2) := by
  have hrec : (⟨p1.nextOffset, r.timestampMs, r.key, r.value⟩ : Record) = r := by rw [← hoff]
  unfold Partition.appendRecord
  rw [hroom]
  simp only [Status.if_not_ok, hsegs, List.getLast?_concat, List.dropLast_concat, hrec]

theorem appendRecord_of_makeRoom_error {key value : Bytes}
    (h : (p.makeRoom key value ft fs).1.ok = false) (ts : Int64) (sync : Bool) :
    p.appendRecord key value ts sync ft fs = p.makeRoom key value ft fs := by
  unfold Partition.appendRecord
  generalize p.makeRoom key value ft fs = res at h ⊢
  obtain ⟨st, p1, fs1⟩ := res
  simp only at h
  simp only [h, Bool.not_false, if_true]

/-- **The record did not get into the log**: the append fails and nothing can be
told from outside. If the write stopped before its first byte, and every file of
a new segment could be created, memory and directory stay in step. -/
theorem PartInv.appendRecord_unwritten (h : PartInv p fs.dir pre s)
    (hchain : Chained start (pre ++ [s])) (hr : r.Fits)
    (hnext : p.nextOffset.toNat = s.base.toNat + s.records.length) (hoff : r.offset = p.nextOffset)
    (sync : Bool) (hun : p.leavesUnwritten r.key r.value ft fs = true) :
    ∃ p' ops, (p.appendRecord r.key r.value r.timestampMs sync ft fs).1.ok = false ∧
      (p.appendRecord r.key r.value r.timestampMs sync ft fs).2 = (p', fs.execAll ops) ∧
      Left start (flat (pre ++ [s])) p p' fs ops ∧
      (ft.openIndex = false → (∀ k, ft.logWrite = some k → k = 0 ∨ r.size ≤ k) →
        Kept start (flat (pre ++ [s])) p p' fs ops) := by
  cases hok : (p.makeRoom r.key r.value ft fs).1.ok with
  | false =>
    obtain ⟨p', ops, heq, hkept⟩ := h.makeRoom_error hchain hnext hok
    have happ := appendRecord_of_makeRoom_error hok r.timestampMs sync
    refine ⟨p', ops, by rw [happ]; exact hok, by rw [happ]; exact heq, ?_, ?_⟩
    · rcases hkept with hkept | ⟨-, hleft⟩
      · exact hkept.left
      · exact hleft
    · intro hindex _
      rcases hkept with hkept | ⟨htrue, -⟩
      · exact hkept
      · rw [hindex] at htrue
        cases htrue
  | true =>
    obtain ⟨p1, ops1, pre1, s1, heq, hinv, hchain1, hflat, hn1, -, -, hlen, -⟩ :=
      h.makeRoom hchain hr hnext
    rw [← Partition.makeRoom_of_ok hok] at heq
    obtain ⟨closed, active, hsegs, hclosed, hactive⟩ := hinv.segments
    -- the log write stopped after `k` bytes
    have hshort : ft.logShort r.size = true := by
      simpa [Partition.leavesUnwritten, hok, recordSize_of_fits hr] using hun
    obtain ⟨k, hk, hlt⟩ : ∃ k, ft.logWrite = some k ∧ k < r.size := by
      simpa [Faults.logShort, Option.any_eq_true] using hshort
    have hlogFile : active.logFile = ⟨s1.base, .log⟩ := by rw [LogSegment.logFile, hactive.base]
    have happ := appendRecord_placed heq hsegs (hoff.trans hn1.symm) sync
    rw [LogSegment.appendWithTimestamp_logShort hactive.unsealed hr hk hlt] at happ
    simp only [Status.ok_ioError, Bool.not_false, if_true, Fs.execAll_execAll, ← hsegs] at happ
    have hdisk := hinv.disk.logTorn hr hlen hlt
    have hdir : ((fs.execAll ops1).execAll
        [.append active.logFile ((RecordCodec.encode r).take k)]).dir =
        (FileOp.append ⟨s1.base, .log⟩ ((RecordCodec.encode r).take k)).apply
          (applyAll fs.dir ops1) := by
      rw [← hlogFile]
      rfl
    refine ⟨_, _, by rw [happ]; rfl, by rw [happ], ⟨?_, hn1⟩, ?_⟩
    · rw [← hflat, ← Fs.execAll_execAll]
      refine (@PartInv.visible p1 (fs.execAll ops1) pre1 s1 start hinv hchain1).grown
        (grown_applyAll (by simp [FileOp.Adds]) _) ?_
      rw [hdir]
      exact ⟨pre1 ++ [s1], _, by simp, hdisk, hchain1, rfl⟩
    · intro _ hzero
      obtain rfl : k = 0 := by
        rcases hzero k hk with hz | hle
        · exact hz
        · omega
      refine ⟨⟨pre1, s1, ?_, hchain1, hflat⟩, hn1⟩
      rw [List.take_zero] at hdisk
      rw [applyAll_append, applyAll_cons, applyAll_nil, hlogFile, List.take_zero]
      refine ⟨hdisk, ⟨closed, active, hsegs, hclosed, hactive.toSegMatch, hactive.unsealed, ?_,
        hactive.first⟩, hinv.next⟩
      rw [lookup_append, if_neg (by simp)]
      exact hactive.indexFile

/-- **The record got into the log and its index entry did not**: the append fails
as well, but the record is there for readers and for a recovery. -/
theorem PartInv.appendRecord_unindexed (h : PartInv p fs.dir pre s)
    (hchain : Chained start (pre ++ [s])) (hr : r.Fits)
    (hnext : p.nextOffset.toNat = s.base.toNat + s.records.length) (hoff : r.offset = p.nextOffset)
    (sync : Bool) (hfail : p.indexWriteFails r.key r.value ft fs = true) :
    ∃ p' ops, (p.appendRecord r.key r.value r.timestampMs sync ft fs).1.ok = false ∧
      (p.appendRecord r.key r.value r.timestampMs sync ft fs).2 = (p', fs.execAll ops) ∧
      Left start (flat (pre ++ [s]) ++ [r]) p p' fs ops := by
  simp only [Partition.indexWriteFails, Partition.leavesUnwritten, Bool.and_eq_true,
    Bool.not_eq_true', Bool.or_eq_false_iff, Bool.not_eq_false'] at hfail
  obtain ⟨⟨⟨hok, hlog⟩, hshort⟩, hdue⟩ := hfail
  rw [recordSize_of_fits hr] at hlog
  obtain ⟨p1, ops1, pre1, s1, heq, hinv, hchain1, hflat, hn1, -, hnext1, hlen, -⟩ :=
    h.makeRoom hchain hr hnext
  rw [← Partition.makeRoom_of_ok hok] at heq
  obtain ⟨closed, active, hsegs, hclosed, hactive⟩ := hinv.segments
  have hdue : active.indexDue = true := by
    simpa only [heq, hsegs, List.getLast?_concat, Option.any_some] using hdue
  obtain ⟨k, hk, hlt⟩ : ∃ k, ft.indexWrite = some k ∧ k < 8 := by
    simpa [Faults.indexShort, Option.any_eq_true] using hshort
  have hlogFile : active.logFile = ⟨s1.base, .log⟩ := by rw [LogSegment.logFile, hactive.base]
  have hindexFile :
    active.indexFile = ⟨s1.base, .index⟩ := by rw [LogSegment.indexFile, hactive.base]
  have hoff1 : r.offset.toNat = s1.base.toNat + s1.records.length := by
    rw [hoff, ← hn1]
    exact hnext1
  have happ := appendRecord_placed heq hsegs (hoff.trans hn1.symm) sync
  rw [LogSegment.appendWithTimestamp_indexShort hactive.unsealed hr hlog hdue hk hlt] at happ
  simp only [Status.ok_ioError, Bool.not_false, if_true, Fs.execAll_execAll] at happ
  set s' : SegmentData := ⟨s1.base, s1.records ++ [r]⟩ with hs'
  have hdisk : DiskInv ((FileOp.append ⟨s1.base, .log⟩ (RecordCodec.encode r)).apply
      (applyAll fs.dir ops1)) (pre1 ++ [s']) [] := hinv.disk.logWhole hr hoff1 hlen
  have hchain' : Chained start (pre1 ++ [s']) := by
    obtain ⟨hpre, hne, hbase, hcons⟩ := chained_snoc.mp hchain1
    exact chained_snoc.mpr ⟨hpre, hne, hbase, hcons.snoc (hbase ▸ hoff1)⟩
  have hflat' : flat (pre1 ++ [s']) = flat (pre ++ [s]) ++ [r] := by simp [hs', ← hflat]
  set torn := (OffsetIndex.encodeEntry (active.newEntry r)).take k
  set d' := applyAll fs.dir (ops1 ++ [.append active.logFile (RecordCodec.encode r),
    .append active.indexFile torn]) with hd'
  have hd'same : ∀ f, f ≠ ⟨s1.base, .index⟩ → d'.lookup f =
      ((FileOp.append ⟨s1.base, .log⟩ (RecordCodec.encode r)).apply
        (applyAll fs.dir ops1)).lookup f := by
    intro f hf
    rw [hd', applyAll_append, applyAll_cons, applyAll_cons, applyAll_nil, lookup_append,
      if_neg (hindexFile ▸ hf), hlogFile]
  have hdisk' : DiskInv d' (pre1 ++ [s']) [] := hdisk.setActiveIndex hd'same
  obtain ⟨-, -, hcl, hfiles, -, -, -⟩ := diskInv_snoc.mp hdisk'
  have hcons : ∀ x ∈ pre1 ++ [s'], Consecutive x.base.toNat x.records := by
    intro x hx
    obtain ⟨i, hi⟩ := List.mem_iff_getElem?.mp hx
    exact (hchain'.getElem hi).1
  -- the segment in memory is the one after a successful append but for one counter
  have hmatch : SegMatch
      { active.appended r with bytesSinceLastIndex := active.bytesSinceLastIndex } s' := by
    have := hactive.toSegMatch.appended hactive.first hr hoff1 hlen
    exact ⟨this.base, this.size, this.sound⟩
  refine ⟨{ p1 with segments := closed ++
      [{ active.appended r with bytesSinceLastIndex := active.bytesSinceLastIndex }] },
    ops1 ++ [.append active.logFile (RecordCodec.encode r), .append active.indexFile torn],
    congrArg (fun res => res.1.ok) happ, congrArg Prod.snd happ, ⟨?_, ?_, Or.inl ?_⟩, hn1⟩
  · refine ⟨pre1 ++ [s'], ?_, hchain', hflat'⟩
    refine List.rel_append ?_ (List.Forall₂.cons ?_ List.Forall₂.nil)
    · exact readable_closed hclosed (fun x hx => (hcl x hx).files)
        fun x hx => hcons x (List.mem_append_left _ hx)
    · exact ⟨hmatch, ⟨[], hfiles.log⟩, hfiles.fits, hcons s' (by simp)⟩
  · -- the first segment is the one before the append, or has its base
    have hearly := hinv.earliest hchain1
    rw [← hearly]
    cases closed with
    | nil => simp [Partition.earliestOffset, hsegs]
    | cons seg closed => simp [Partition.earliestOffset, hsegs]
  · exact ⟨pre1 ++ [s'], [], by simp, hdisk', hchain', hflat'⟩

/-- **Neither of the two**: the append succeeds. -/
theorem PartInv.appendRecord_whole (h : PartInv p fs.dir pre s)
    (hchain : Chained start (pre ++ [s])) (hr : r.Fits)
    (hnext : p.nextOffset.toNat = s.base.toNat + s.records.length) (hoff : r.offset = p.nextOffset)
    (sync : Bool) (hun : p.leavesUnwritten r.key r.value ft fs = false)
    (hfail : p.indexWriteFails r.key r.value ft fs = false) :
    ∃ p' ops, p.appendRecord r.key r.value r.timestampMs sync ft fs = (.OK, p', fs.execAll ops) ∧
      Added start (flat (pre ++ [s])) [r] p p' fs ops := by
  obtain ⟨hok, hlog⟩ : (p.makeRoom r.key r.value ft fs).1.ok = true ∧
    ft.logShort r.size = false := by
    simpa [Partition.leavesUnwritten, recordSize_of_fits hr] using hun
  obtain ⟨p1, ops1, pre1, s1, heq, hinv, -, -, hn1, -, -, -, -⟩ := h.makeRoom hchain hr hnext
  rw [← Partition.makeRoom_of_ok hok] at heq
  obtain ⟨closed, active, hsegs, -, hactive⟩ := hinv.segments
  have hindex : active.indexDue = true → ft.indexShort = false := by
    intro hdue
    simpa [Partition.indexWriteFails, hun, heq, hsegs, hdue] using hfail
  have hwhole := LogSegment.appendWithTimestamp_whole hactive.unsealed hr hlog hindex sync
    (fs.execAll ops1)
  have happ := appendRecord_placed heq hsegs (hoff.trans hn1.symm) sync
  have hdone : (p.appendRecord r.key r.value r.timestampMs sync ft fs).1.ok = true := by
    rw [happ]
    generalize active.appendWithTimestamp r r.timestampMs sync ft (fs.execAll ops1) =
      res at hwhole ⊢
    obtain ⟨st, active', fs2⟩ := res
    simp only at hwhole
    simp [hwhole]
  rw [Partition.appendRecord_of_ok hdone]
  exact h.appendRecord hchain hr hnext hoff sync

end Record

/-! ## Batches -/

/-- A batch loop that stopped at record `n` with the first `m` records in the log. -/
structure Stopped (start : ℕ) (old new : List Record) (p p' : Partition) (fs : FileSystem)
    (ops : List (FileOp FileName)) (n m : ℕ) : Prop where
  lt : n < new.length
  reached : m = n ∨ m = n + 1
  visible : Visible start (old ++ new.take m) p' (fs.execAll ops)
  next : p'.nextOffset = p.nextOffset + UInt64.ofNat n

section Batch

variable {start : ℕ} {nowMs : Int64}

theorem appendRecords_cons_error {p : Partition} {key value : Bytes} {rest : List (Bytes × Bytes)}
    {fts : List Faults} {fs : FileSystem}
    (h : (p.appendRecord key value nowMs false (fts.headD {}) fs).1.ok = false) :
    p.appendRecords nowMs ((key, value) :: rest) fts fs =
      p.appendRecord key value nowMs false (fts.headD {}) fs := by
  rw [Partition.appendRecords]
  generalize p.appendRecord key value nowMs false (fts.headD {}) fs = res at h ⊢
  obtain ⟨st, p1, fs1⟩ := res
  simp only at h
  simp [h]

variable {p : Partition} {fs : FileSystem}

theorem appendRecords_cons_ok {p1 : Partition} {key value : Bytes} {rest : List (Bytes × Bytes)}
    {fts : List Faults} {fs1 : FileSystem}
    (h : p.appendRecord key value nowMs false (fts.headD {}) fs = (.OK, p1, fs1)) :
    p.appendRecords nowMs ((key, value) :: rest) fts fs =
      p1.appendRecords nowMs rest fts.tail fs1 := by
  rw [Partition.appendRecords, h]
  simp

/-- **A batch that fails** leaves the records behind that were written before the
failure, and counts those that were acknowledged to the loop. None is left if and
only if the first one did not get into the log. -/
theorem appendRecords_error (batch : List (Bytes × Bytes)) :
    ∀ {p : Partition} {fs : FileSystem} {pre : List SegmentData} {s : SegmentData}
      {fts : List Faults}, BatchReady start p fs.dir pre s batch →
    (p.appendRecords nowMs batch fts fs).1.ok = false →
    ∃ p' ops n m, (p.appendRecords nowMs batch fts fs).2 = (p', fs.execAll ops) ∧
      Stopped start (flat (pre ++ [s])) (assign p.nextOffset nowMs batch) p p' fs ops n m ∧
      (m = 0 ↔ ∃ item, batch.head? = some item ∧
        p.leavesUnwritten item.1 item.2 (fts.headD {}) fs = true) := by
  induction batch with
  | nil =>
    intro p fs pre s fts _ herr
    simp [Partition.appendRecords] at herr
  | cons item rest ih =>
    obtain ⟨key, value⟩ := item
    intro p fs pre s fts h herr
    set r : Record := ⟨p.nextOffset, nowMs, key, value⟩
    have hr : r.Fits := h.fits nowMs
    have hnew : assign p.nextOffset nowMs ((key, value) :: rest) =
        r :: assign (p.nextOffset + 1) nowMs rest := rfl
    have hhead : (∃ item, ((key, value) :: rest).head? = some item ∧
        p.leavesUnwritten item.1 item.2 (fts.headD {}) fs = true) ↔
        p.leavesUnwritten key value (fts.headD {}) fs = true := by simp
    rw [hhead, hnew]
    cases hun : p.leavesUnwritten key value (fts.headD {}) fs with
    | true =>
      obtain ⟨p', ops, hfirst, heq, hleft, -⟩ :=
        h.inv.appendRecord_unwritten h.chain hr h.next rfl false hun
      refine ⟨p', ops, 0, 0, by rw [appendRecords_cons_error hfirst]; exact heq, ?_, by simp⟩
      exact ⟨by simp, Or.inl rfl, by simpa using hleft.visible, by simp [hleft.next]⟩
    | false =>
      cases hfail : p.indexWriteFails key value (fts.headD {}) fs with
      | true =>
        obtain ⟨p', ops, hfirst, heq, hleft⟩ :=
          h.inv.appendRecord_unindexed h.chain hr h.next rfl false hfail
        refine ⟨p', ops, 0, 1, by rw [appendRecords_cons_error hfirst]; exact heq, ?_, by simp⟩
        exact ⟨by simp, Or.inr rfl, by simpa using hleft.visible, by simp [hleft.next]⟩
      | false =>
        obtain ⟨p1, ops1, heq1, hadd⟩ :=
          h.inv.appendRecord_whole h.chain hr h.next rfl false hun hfail
        obtain ⟨pre1, s1, hinv1, hchain1, hflat1⟩ := hadd.inv
        have hnext1 : p1.nextOffset = p.nextOffset + 1 := hadd.next
        rw [appendRecords_cons_ok heq1] at herr ⊢
        obtain ⟨p', ops, n, m, heq, hstopped, -⟩ := @ih p1 (fs.execAll ops1) pre1 s1 fts.tail
          (h.tail hinv1 hchain1 hflat1) herr
        rw [hnext1] at hstopped
        refine ⟨p', ops1 ++ ops, n + 1, m + 1, by rw [heq, Fs.execAll_execAll], ?_, by simp⟩
        refine ⟨?_, ?_, ?_, ?_⟩
        · have := hstopped.lt
          simp only [List.length_cons]
          omega
        · rcases hstopped.reached with hm | hm
          · exact Or.inl (by rw [hm])
          · exact Or.inr (by rw [hm])
        · have := hstopped.visible
          rw [hflat1, Fs.execAll_execAll] at this
          simpa using this
        · rw [hstopped.next, hnext1, UInt64.ofNat_add, UInt64.add_assoc, UInt64.add_comm 1]
          rfl

/-- What may go wrong with a record without memory and directory getting out of
step: the log write may fail if no byte of it got written, and a roll may fail if
it does not leave a log without an index behind. -/
structure CleanFault (p : Partition) (key value : Bytes) (ft : Faults) (fs : FileSystem) :
    Prop where
  roll : ft.openIndex = false
  log : ∀ k, ft.logWrite = some k → k = 0 ∨ Partition.recordSize key value ≤ k
  index : p.indexWriteFails key value ft fs = false

/-- `Q` holds of every record that a batch gets to, in the state that finds it. -/
def Partition.AlongBatch (Q : Partition → Bytes → Bytes → Faults → FileSystem → Prop)
    (nowMs : Int64) : Partition → List (Bytes × Bytes) → List Faults → FileSystem → Prop
  | _, [], _, _ => True
  | p, (key, value) :: rest, fts, fs =>
    Q p key value (fts.headD {}) fs ∧
      match p.appendRecord key value nowMs false (fts.headD {}) fs with
      | (st, p', fs') => st.ok = true → AlongBatch Q nowMs p' rest fts.tail fs'

/-- A loop that has left the first `n` records in the log, in step with memory. -/
structure Progressed (start : ℕ) (old new : List Record) (p p' : Partition) (fs : FileSystem)
    (ops : List (FileOp FileName)) (n : ℕ) : Prop where
  le : n ≤ new.length
  inv : ∃ pre s, PartInv p' (applyAll fs.dir ops) pre s ∧ Chained start (pre ++ [s]) ∧
    flat (pre ++ [s]) = old ++ new.take n
  next : p'.nextOffset = p.nextOffset + UInt64.ofNat n

theorem Kept.progressed {old new : List Record} {p' : Partition} {ops : List (FileOp FileName)}
    (h : Kept start old p p' fs ops) :
    Progressed start old new p p' fs ops 0 where
  le := Nat.zero_le _
  inv := by simpa using h.inv
  next := by simp [h.next]

theorem PartInv.appendRecord_clean {pre : List SegmentData} {s : SegmentData} {ft : Faults}
    {r : Record} (h : PartInv p fs.dir pre s) (hchain : Chained start (pre ++ [s])) (hr : r.Fits)
    (hnext : p.nextOffset.toNat = s.base.toNat + s.records.length) (hoff : r.offset = p.nextOffset)
    (sync : Bool) (hclean : CleanFault p r.key r.value ft fs) :
    ∃ p' ops, (p.appendRecord r.key r.value r.timestampMs sync ft fs).2 = (p', fs.execAll ops) ∧
      (((p.appendRecord r.key r.value r.timestampMs sync ft fs).1.ok = false ∧
          Kept start (flat (pre ++ [s])) p p' fs ops) ∨
        (p.appendRecord r.key r.value r.timestampMs sync ft fs).1 = .OK ∧
          Added start (flat (pre ++ [s])) [r] p p' fs ops) := by
  cases hun : p.leavesUnwritten r.key r.value ft fs with
  | true =>
    obtain ⟨p', ops, herr, heq, -, hkept⟩ := h.appendRecord_unwritten hchain hr hnext hoff sync hun
    have hlog := hclean.log
    rw [recordSize_of_fits hr] at hlog
    exact ⟨p', ops, heq, Or.inl ⟨herr, hkept hclean.roll hlog⟩⟩
  | false =>
    obtain ⟨p', ops, heq, hadd⟩ := h.appendRecord_whole hchain hr hnext hoff sync hun hclean.index
    exact ⟨p', ops, by rw [heq], Or.inr ⟨by rw [heq], hadd⟩⟩

theorem appendRecords_clean (batch : List (Bytes × Bytes)) :
    ∀ {p : Partition} {fs : FileSystem} {pre : List SegmentData} {s : SegmentData}
      {fts : List Faults}, BatchReady start p fs.dir pre s batch →
    p.AlongBatch CleanFault nowMs batch fts fs →
    ∃ p' ops n, (p.appendRecords nowMs batch fts fs).2 = (p', fs.execAll ops) ∧
      Progressed start (flat (pre ++ [s])) (assign p.nextOffset nowMs batch) p p' fs ops n ∧
      ((p.appendRecords nowMs batch fts fs).1.ok = true → n = batch.length) := by
  induction batch with
  | nil =>
    intro p fs pre s fts h _
    refine ⟨p, [], 0, by simp [Partition.appendRecords, Fs.execAll_nil], ?_, fun _ => rfl⟩
    exact ⟨Nat.zero_le _, ⟨pre, s, h.inv, h.chain, by simp⟩, by simp⟩
  | cons item rest ih =>
    obtain ⟨key, value⟩ := item
    intro p fs pre s fts h hclean
    obtain ⟨hfirst, hrest⟩ := hclean
    obtain ⟨p1, ops1, heq1, ⟨herr, hkept⟩ | ⟨hok, hadd⟩⟩ :=
      h.inv.appendRecord_clean h.chain (h.fits nowMs) h.next rfl false hfirst
    · have hloop := @appendRecords_cons_error nowMs p key value rest fts fs herr
      refine ⟨p1, ops1, 0, by rw [hloop]; exact heq1, hkept.progressed, ?_⟩
      intro hok
      rw [hloop] at hok
      exact absurd (hok.symm.trans herr) (by decide)
    · have heq : p.appendRecord key value nowMs false (fts.headD {}) fs =
          (.OK, p1, fs.execAll ops1) := Prod.ext hok heq1
      rw [heq] at hrest
      obtain ⟨pre1, s1, hinv1, hchain1, hflat1⟩ := hadd.inv
      have hnext1 : p1.nextOffset = p.nextOffset + 1 := hadd.next
      obtain ⟨p', ops, n, heq', hadv, hall⟩ := @ih p1 (fs.execAll ops1) pre1 s1 fts.tail
        (h.tail hinv1 hchain1 hflat1) (hrest rfl)
      rw [appendRecords_cons_ok heq]
      refine ⟨p', ops1 ++ ops, n + 1, by rw [heq', Fs.execAll_execAll], ?_,
        fun h => by rw [hall h, List.length_cons]⟩
      rw [hnext1, hflat1] at hadv
      obtain ⟨pre2, s2, hinv2, hchain2, hflat2⟩ := hadv.inv
      refine ⟨?_, ⟨pre2, s2, ?_, hchain2, ?_⟩, ?_⟩
      · simpa [assign] using hadv.le
      · rw [applyAll_append]
        exact hinv2
      · rw [hflat2, List.append_assoc]
        rfl
      · rw [hadv.next, hnext1, UInt64.ofNat_add, UInt64.add_assoc, UInt64.add_comm 1]
        rfl

end Batch

section Fresh

variable {p : Partition} {fs : FileSystem} {ft : Faults} {key value : Bytes}

theorem Fresh.makeRoom_failed (h : Fresh p fs.dir) (hfail : ft.openLog = true ∨ ft.openIndex = true)
    (key value : Bytes) :
    ∃ ops, (p.makeRoom key value ft fs).1.ok = false ∧
      (p.makeRoom key value ft fs).2 = (p, fs.execAll ops) ∧ Left 0 [] p p fs ops ∧
      (ft.openIndex = false → ops = []) := by
  have hroom : ∀ st fs', p.rollSegmentUnlocked ft fs = (st, p, fs') → st.ok = false →
      p.makeRoom key value ft fs = (st, p, fs') := by
    intro st fs' heq hst
    simp [Partition.makeRoom, h.segments, heq, hst]
  cases hlog : ft.openLog with
  | true =>
    have heq : p.rollSegmentUnlocked ft fs = (.ioError (ascii "Failed to open log file: " ++
        (p.newSegment p.nextOffset).path ".log"), p, fs) := by
      simp [Partition.rollSegmentUnlocked, LogSegment.openFiles, hlog]
    refine ⟨[], ?_, ?_, ⟨?_, rfl⟩, fun _ => rfl⟩
    · rw [hroom _ _ heq rfl]
      rfl
    · rw [hroom _ _ heq rfl, Fs.execAll_nil]
    · rw [Fs.execAll_nil]
      exact h.visible
  | false =>
    have hindex : ft.openIndex = true := hfail.resolve_left (by simp [hlog])
    have heq : p.rollSegmentUnlocked ft fs = (.ioError (ascii "Failed to open index file: " ++
        (p.newSegment p.nextOffset).path ".index"), p, fs.execAll [.create ⟨0, .log⟩]) := by
      simp [Partition.rollSegmentUnlocked, LogSegment.openFiles, hlog, hindex, Fs.exec_eq_execAll,
        LogSegment.logFile, Partition.newSegment, h.next]
    refine ⟨[.create ⟨0, .log⟩], ?_, ?_, ⟨?_, rfl⟩,
      fun hno => absurd (hno.symm.trans hindex) (by decide)⟩
    · rw [hroom _ _ heq rfl]
      rfl
    · rw [hroom _ _ heq rfl]
    · refine h.visible.grown (grown_applyAll (by simp [FileOp.Adds]) _) ?_
      have hdisk : DiskInv ((FileOp.create ⟨0, .log⟩).apply fs.dir) ([] ++ [⟨0, []⟩]) [] := by
        refine (h.disk.blank 0).firstSegment ?_ ?_
        · rw [lookup_create, if_pos rfl, h.lookup_none]
          rfl
        · intro f hf
          rw [lookup_create, if_neg hf]
      exact ⟨[] ++ [(⟨0, []⟩ : SegmentData)], [], by simp, hdisk,
        chained_snoc.mpr ⟨trivial, by simp, rfl, Consecutive.nil _⟩, rfl⟩

theorem Fresh.leavesUnwritten_eq (h : Fresh p fs.dir) (hlog : ft.openLog = false)
    (hindex : ft.openIndex = false) (key value : Bytes) : p.leavesUnwritten key value ft fs =
      (firstRoll p fs.dir).leavesUnwritten key value ft (fs.execAll (firstRollOps p)) := by
  unfold Partition.leavesUnwritten
  rw [h.makeRoom_eq hlog hindex]

theorem Fresh.cleanFault (h : Fresh p fs.dir) (hlog : ft.openLog = false)
    (hclean : CleanFault p key value ft fs) :
    CleanFault (firstRoll p fs.dir) key value ft (fs.execAll (firstRollOps p)) where
  roll := hclean.roll
  log := hclean.log
  index := by
    have := hclean.index
    unfold Partition.indexWriteFails at this ⊢
    rwa [h.leavesUnwritten_eq hlog hclean.roll, h.makeRoom_eq hlog hclean.roll] at this

end Fresh

end StreamForge
