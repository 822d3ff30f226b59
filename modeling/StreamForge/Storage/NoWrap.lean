import StreamForge.Storage.SparseIndex

/-!
# The 32-bit counters of a segment

Sizes, file positions and relative offsets are `uint32_t`, and every sum of them is
taken modulo 2^32. This file proves that in a run without failures the reduced
values are the exact ones, for every `segment_max_bytes` and every index interval:
each log stays within the larger of `segment_max_bytes` and one record
(`Bounded`), and every counter is the length of a part of it.

`m_bytes_since_last_index` has no exact value that the log alone would determine:
an append counts from behind the record it indexed last, the scans and `open` count
from its beginning. `BytesSince` allows both.
-/

namespace StreamForge

open FileTrace FileHandle

/-! ## Bytes since the last entry -/

/-- `n` is the exact number of bytes from the last indexed record on, or from the
record behind it; without an entry, the whole log. -/
def BytesSince (rs : List Record) (index : List IndexEntry) (n : ℕ) : Prop :=
  ∃ k, n = (encodeAll (rs.drop k)).length ∧
    match index.getLast? with
    | none => k = 0
    | some e => k = e.relativeOffset ∨ k = e.relativeOffset + 1

variable {rs : List Record} {index : List IndexEntry} {base : UInt64} {s : ScanState}

theorem BytesSince.le {n : ℕ} (h : BytesSince rs index n) : n ≤ (encodeAll rs).length := by
  obtain ⟨k, rfl, -⟩ := h
  have hsplit := congrArg List.length (encodeAll_append (rs.take k) (rs.drop k))
  rw [List.take_append_drop, List.length_append] at hsplit
  exact hsplit ▸ Nat.le_add_left _ _

theorem BytesSince.keep {n : ℕ} (h : BytesSince rs index n) (hsound : IndexSound rs index)
    (r : Record) :
    BytesSince (rs ++ [r]) index (n + (RecordCodec.encode r).length) := by
  obtain ⟨k, rfl, hk⟩ := h
  have hle : k ≤ rs.length := by
    cases hlast : index.getLast? with
    | none =>
      rw [hlast] at hk
      exact hk ▸ Nat.zero_le _
    | some e =>
      rw [hlast] at hk
      obtain ⟨j, hj, rfl⟩ := hsound.mem (List.mem_of_getLast? hlast)
      change k = j ∨ k = j + 1 at hk
      omega
  refine ⟨k, ?_, hk⟩
  rw [List.drop_append_of_le_length hle, encodeAll_append, encodeAll_singleton, List.length_append]

theorem bytesSince_behind (rs : List Record) (index : List IndexEntry) (r : Record) (pos : ℕ) :
    BytesSince (rs ++ [r]) (index ++ [⟨rs.length, pos⟩]) 0 := by
  refine ⟨rs.length + 1, ?_, ?_⟩
  · rw [List.drop_of_length_le (by simp)]
    rfl
  · rw [List.getLast?_concat]
    exact Or.inr rfl

theorem bytesSince_from (rs : List Record) (index : List IndexEntry) (r : Record) (pos : ℕ) :
    BytesSince (rs ++ [r]) (index ++ [⟨rs.length, pos⟩]) (RecordCodec.encode r).length := by
  refine ⟨rs.length, ?_, ?_⟩
  · rw [List.drop_left, encodeAll_singleton]
  · rw [List.getLast?_concat]
    exact Or.inl rfl

theorem bytesSince_onOpen (hsound : IndexSound rs index) :
    BytesSince rs index (LogSegment.bytesSinceOnOpen index (encodeAll rs).length) := by
  unfold BytesSince LogSegment.bytesSinceOnOpen
  cases hlast : index.getLast? with
  | none => exact ⟨0, rfl, rfl⟩
  | some e =>
    have hmem := List.mem_of_getLast? hlast
    obtain ⟨j, hj, rfl⟩ := hsound.mem hmem
    have hlt := hsound.filePosition_lt hmem
    refine ⟨j, ?_, Or.inl rfl⟩
    dsimp only
    rw [if_pos (Nat.le_of_lt hlt)]
    have hsplit := congrArg List.length (encodeAll_append (rs.take j) (rs.drop j))
    rw [List.take_append_drop, List.length_append] at hsplit
    rw [hsplit]
    exact Nat.add_sub_cancel_left _ _

inductive ScanVisits (file : Bytes) (base : UInt64) (interval : UInt32) : ScanState → Prop where
  | start : ScanVisits file base interval (ScanState.start base)
  | next {s s' : ScanState} : ScanVisits file base interval s → s.currentPos < u32 file.length →
      scanStep file (u32 file.length) base interval s = some s' → ScanVisits file base interval s'

theorem BytesSince.accept (h : BytesSince rs s.index s.bytesSinceIdx) (hgood : ScanGood base rs s)
    {r : Record} (hoff : r.offset.toNat = base.toNat + rs.length)
    (hlen : (encodeAll (rs ++ [r])).length < 2 ^ 32) (interval : UInt32) :
    BytesSince (rs ++ [r]) (s.accept base interval r (RecordCodec.encode r)).index
      (s.accept base interval r (RecordCodec.encode r)).bytesSinceIdx := by
  have hkeep := h.keep hgood.sound r
  have hcount := length_le_encodeAll rs
  have hle := hkeep.le
  rw [encodeAll_append, encodeAll_singleton, List.length_append] at hlen
  have hrel := relOffset_eq hoff (by omega)
  have henc : u32 (RecordCodec.encode r).length = (RecordCodec.encode r).length :=
    u32_of_lt (by omega)
  unfold ScanState.accept
  simp only [henc, hrel]
  split
  · rw [Nat.zero_add, henc]
    exact bytesSince_from rs s.index r s.currentPos
  · rw [u32_of_lt]
    · exact hkeep
    · rw [encodeAll_append, encodeAll_singleton, List.length_append] at hle
      omega

/-- The state behind the records `rs`, exact in every counter. -/
structure ScanExact (base : UInt64) (rs : List Record) (s : ScanState) : Prop
    extends ScanGood base rs s where
  since : BytesSince rs s.index s.bytesSinceIdx

theorem scanExact_acceptAll (interval : UInt32) (hcons : Consecutive base.toNat rs)
    (hlen : (encodeAll rs).length < 2 ^ 32) :
    ScanExact base rs ((ScanState.start base).acceptAll base interval (rs.map Record.block)) := by
  refine ⟨scanGood_acceptAll interval hcons hlen, ?_⟩
  induction rs using List.reverseRecOn with
  | nil => exact ⟨0, rfl, rfl⟩
  | append_singleton rs r ih =>
    have hbefore : (encodeAll rs).length < 2 ^ 32 := by
      rw [encodeAll_append, List.length_append] at hlen
      omega
    have hcons' := hcons.take rs.length
    rw [List.take_left] at hcons'
    have hgood := scanGood_acceptAll interval hcons' hbefore
    rw [List.map_append, List.map_singleton, ScanState.acceptAll_snoc]
    exact (ih hcons' hbefore).accept hgood (hcons rs.length r (by simp)) hlen interval

/-- **A scan counts exactly** at every record of a log that is whole. The induction
is on the rounds; `k` records are behind the position. -/
theorem ScanVisits.exact {interval : UInt32} (hfits : ∀ r ∈ rs, r.Fits)
    (hcons : Consecutive base.toNat rs) (hlen : (encodeAll rs).length < 2 ^ 32)
    (h : ScanVisits (encodeAll rs) base interval s) :
    ∃ k, k ≤ rs.length ∧ ScanExact base (rs.take k) s := by
  induction h with
  | start => exact ⟨0, Nat.zero_le _, ScanGood.start base, 0, rfl, rfl⟩
  | @next s s' _ hpos hstep ih =>
    obtain ⟨k, hk, hs⟩ := ih
    rw [u32_of_lt hlen] at hpos hstep
    have hlt : k < rs.length := by
      by_contra hge
      rw [hs.pos, List.take_of_length_le (by omega)] at hpos
      exact Nat.lt_irrefl _ hpos
    have hget : rs[k]? = some rs[k] := List.getElem?_eq_getElem hlt
    have htake : rs.take (k + 1) = rs.take k ++ [rs[k]] := by
      rw [List.take_add_one, hget]
      rfl
    have hfile : encodeAll rs =
        encodeAll (rs.take k) ++ (RecordCodec.encode rs[k] ++ encodeAll (rs.drop (k + 1))) := by
      rw [← encodeAll_singleton, ← encodeAll_append, ← encodeAll_append, List.singleton_append,
        ← List.drop_eq_getElem_cons hlt, List.take_append_drop]
    have hoff : rs[k].offset.toNat = base.toNat + (rs.take k).length := by
      rw [List.length_take, Nat.min_eq_left hk]
      exact hcons k _ hget
    have hnew : (encodeAll (rs.take k ++ [rs[k]])).length < 2 ^ 32 := by
      rw [hfile] at hlen
      rw [encodeAll_append, encodeAll_singleton]
      simp only [List.length_append] at hlen ⊢
      omega
    have hnext : nextBlock ((encodeAll rs).drop s.currentPos) =
        .item rs[k].block (encodeAll (rs.drop (k + 1))) := by
      refine nextBlock_item_iff.mpr ⟨(hfits _ (List.getElem_mem hlt)).encodable.valid, ?_⟩
      rw [hs.pos, hfile]
      exact List.drop_left' rfl
    rw [scanStep_of_item hlen hnext, Option.some.injEq] at hstep
    subst hstep
    refine ⟨k + 1, hlt, ?_⟩
    rw [htake]
    exact ⟨hs.accept hoff hnew interval, hs.since.accept hs.toScanGood hoff hnew interval⟩

/-- **Nothing behind the end of the file is accepted**, whatever is in the file and
whether or not a sum of the bounds tests wraps. -/
theorem scanStep_inside {file : Bytes} {logSize : ℕ} {interval : UInt32} {s' : ScanState}
    (h : scanStep file logSize base interval s = some s') :
    ∃ record buf, s' = s.accept base interval record buf ∧ RecordCodec.decode buf = .ok record ∧
      buf.length = 4 + readU32 buf ∧ s.currentPos + buf.length ≤ file.length ∧
      buf = (file.drop s.currentPos).take buf.length := by
  rw [scanStep_eq] at h
  obtain ⟨buf, hcall, h⟩ := Option.bind_eq_some_iff.mp h
  obtain ⟨record, hdecode, rfl⟩ := Option.map_eq_some_iff.mp h
  obtain ⟨hleast, -, hlength, hdrop⟩ := decodeCall_eq_some hcall
  refine ⟨record, buf, rfl, ?_, hlength, ?_, ?_⟩
  · cases hres : RecordCodec.decode buf with
    | error st =>
      rw [hres] at hdecode
      cases hdecode
    | ok r =>
      rw [hres] at hdecode
      cases hdecode
      rfl
  · have hlen := congrArg List.length hdrop
    rw [List.length_drop, List.length_append] at hlen
    omega
  · rw [hdrop, List.take_left]

/-- The log is within its limit, and the count of bytes is exact. -/
def Bounded (limit : UInt32) (seg : LogSegment) (fl : Files) : Prop :=
  (encodeAll fl.records).length ≤ max limit.toNat maxRecordSize ∧
    BytesSince fl.records seg.index seg.bytesSinceLastIndex

theorem bytesSince_scanned {seg : LogSegment} {fl : Files} {log : Bytes}
    (hlog : log = encodeAll fl.records) (hfits : ∀ r ∈ fl.records, r.Fits)
    (hlen : (encodeAll fl.records).length < 2 ^ 32)
    (hcons : Consecutive seg.baseOffset.toNat fl.records) :
    BytesSince fl.records (seg.scanned log).index (seg.scanned log).bytesSinceLastIndex := by
  have hblocks := blocksOf_encodeAll (fun r hr => (hfits r hr).encodable) nextBlock_nil
  rw [List.append_nil] at hblocks
  have hs := (scanExact_acceptAll seg.indexIntervalBytes hcons hlen).since
  show BytesSince fl.records (scanEnd seg log).index (scanEnd seg log).bytesSinceIdx
  unfold scanEnd
  rw [hlog, hblocks]
  exact hs

theorem openedMarked_bytesSince (seg : LogSegment) (d : Disk) :
    (seg.openedMarked d).bytesSinceLastIndex =
      LogSegment.bytesSinceOnOpen (seg.openedMarked d).index (seg.openedMarked d).logSizeBytes := by
  unfold LogSegment.openedMarked
  split <;> rfl

theorem OnFiles.bytesSince_recovered {p : Partition} {d : Disk} {seg : LogSegment} {last : Bool}
    (h : OnFiles seg (filesOf d seg.baseOffset))
    (h' : OnFiles (recoveredSegment p d seg.baseOffset last)
      (recoveredFile p d seg.baseOffset last)) :
    BytesSince (recordsAt d seg.baseOffset) (recoveredSegment p d seg.baseOffset last).index
      (recoveredSegment p d seg.baseOffset last).bytesSinceLastIndex := by
  have hlog : logOf d seg.baseOffset = encodeAll (filesOf d seg.baseOffset).records := by
    have hlookup : d.lookup ⟨seg.baseOffset, .log⟩ = _ := h.log
    rw [logOf, hlookup, Option.getD_some]
  obtain ⟨hbase, -, -, -, -⟩ := (p.newSegment seg.baseOffset).openedMarked_spec d
  have hscan := @bytesSince_scanned ((p.newSegment seg.baseOffset).openedMarked d) _ _ hlog h.fits
    h.len (by rw [hbase]; exact h.consecutive)
  have hsound := h'.sound
  have hsize := h'.size
  rw [recoveredFile_records] at hsound hsize
  unfold recoveredSegment at hsound hsize ⊢
  dsimp only at hsound hsize ⊢
  split
  · exact hscan
  · exact hscan
  · exact hscan
  · rename_i hquick
    rw [hquick] at hsound hsize
    dsimp only at hsound hsize ⊢
    rw [openedMarked_bytesSince, hsize]
    exact bytesSince_onOpen hsound

theorem bounded_law : SegmentLaw Bounded where
  new := by
    intro limit p base fl _ hnil
    rw [Bounded, hnil]
    exact ⟨Nat.zero_le _, 0, rfl, rfl⟩
  write := by
    rintro limit seg fl fl' r ⟨-, hsince⟩ hopen hr hoff hlen hlimit - hrecords
    have hsize := RecordCodec.length_encode_of_fits hr
    have hkeep := hsince.keep hopen.sound r
    have hle := hkeep.le
    rw [Bounded, hrecords]
    rw [encodeAll_append, encodeAll_singleton, List.length_append, hsize] at hle
    constructor
    · rw [encodeAll_append, encodeAll_singleton, List.length_append, hsize]
      rcases hlimit with hnil | hle
      · rw [hnil]
        exact (Nat.zero_add _).le.trans (hr.trans (Nat.le_max_right _ _))
      · exact hle.trans (Nat.le_max_left _ _)
    · have hcount := length_le_encodeAll fl.records
      have hrel : seg.relOffset r.offset = fl.records.length := relOffset_eq hoff (by omega)
      have henc : u32 (RecordCodec.encode r).length = (RecordCodec.encode r).length :=
        u32_of_lt (by omega)
      unfold LogSegment.appended
      dsimp only
      split
      · rw [LogSegment.newEntry, hrel]
        exact bytesSince_behind _ _ r _
      · dsimp only [LogSegment.recordWritten]
        rw [henc, u32_of_lt (by omega)]
        exact hkeep
  close := by
    rintro limit seg fl fl' ⟨hbound, hsince⟩ _ _ hkeep _
    have hrecords : fl'.records = fl.records := by
      rw [Files.records, hkeep .log (by simp)]
      rfl
    rw [Bounded, hrecords]
    exact ⟨hbound, hsince⟩
  rescan := by
    rintro limit p d seg ⟨hbound, -⟩ hopen hopen'
    rw [Bounded, recoveredFile_records]
    exact ⟨hbound, hopen.bytesSince_recovered hopen'.toOnFiles⟩
  reload := by
    rintro limit p d seg ⟨hbound, -⟩ hclosed hclosed'
    rw [Bounded, recoveredFile_records]
    exact ⟨hbound, hclosed.bytesSince_recovered hclosed'.toOnFiles⟩

/-! ## No counter wraps -/

/-- **The counters of a segment are exact**: those it keeps, those in its index, and
those of every scan of its log. -/
structure ExactCounters (limit : UInt32) (seg : LogSegment) (rs : List Record) : Prop where
  bound : (encodeAll rs).length ≤ max limit.toNat maxRecordSize
  size : seg.logSizeBytes = (encodeAll rs).length
  since : BytesSince rs seg.index seg.bytesSinceLastIndex
  entries : ∀ e ∈ seg.index, ∃ before r after, rs = before ++ r :: after ∧
    e.filePosition = (encodeAll before).length ∧
    r.offset.toNat = seg.baseOffset.toNat + e.relativeOffset
  scans : ∀ interval s, ScanVisits (encodeAll rs) seg.baseOffset interval s →
    ∃ done rest, rs = done ++ rest ∧ s.currentPos = (encodeAll done).length ∧
      BytesSince done s.index s.bytesSinceIdx ∧
      ∀ e ∈ s.index, ∃ before r after, done = before ++ r :: after ∧
        e.filePosition = (encodeAll before).length ∧
        r.offset.toNat = seg.baseOffset.toNat + e.relativeOffset

/-- **No 32-bit counter of a segment wraps** in a run without failures, and no scan
of any file accepts a record that is not wholly inside the file. -/
theorem no_counter_wraps :
    (∀ p fs, Reached p fs → ∀ seg ∈ p.segments, ∃ rs,
      fs.dir.lookup seg.logFile = some (encodeAll rs) ∧
      ExactCounters p.config.segmentMaxBytes seg rs) ∧
    ∀ file base interval s s', scanStep file (u32 file.length) base interval s = some s' →
      ∃ record buf, s' = s.accept base interval record buf ∧ RecordCodec.decode buf = .ok record ∧
        buf.length = 4 + readU32 buf ∧ s.currentPos + buf.length ≤ file.length ∧
        buf = (file.drop s.currentPos).take buf.length := by
  constructor
  · intro p fs h seg hseg
    obtain ⟨hbound, hsince⟩ := h.throughout bounded_law seg hseg
    have hon := h.onFiles hseg
    refine ⟨_, hon.log, hbound, hon.size, hsince, fun e he => hon.sound.starts
      hon.consecutive he, ?_⟩
    intro interval s hvisits
    obtain ⟨k, -, hs⟩ := hvisits.exact hon.fits hon.consecutive hon.len
    refine ⟨_, _, (List.take_append_drop k _).symm, hs.pos, hs.since, ?_⟩
    exact fun e he => hs.sound.starts (hon.consecutive.take k) he
  · intro file base interval s s' h
    exact scanStep_inside h

theorem no_counter_wraps_reloaded :
    (∀ seg ∈ indexedRun.part.segments, ∃ rs,
      indexedRun.fs.dir.lookup seg.logFile = some (encodeAll rs) ∧
      ExactCounters indexedRun.part.config.segmentMaxBytes seg rs) ∧
    ∃ record buf, buf.length = 4 + readU32 buf ∧ RecordCodec.decode buf = .ok record ∧
      0 + buf.length ≤ (RecordCodec.encode ⟨0, 5, [], [1]⟩).length := by
  constructor
  · refine no_counter_wraps.1 _ _ (reached_run 0 [] _ ?_ (by decide))
    simp only [List.mem_cons, List.not_mem_nil, or_false, forall_eq_or_imp, forall_eq, Op.Sized]
    decide
  · have hstep : (scanStep (RecordCodec.encode ⟨0, 5, [], [1]⟩) (u32 (RecordCodec.encode
        ⟨0, 5, [], [1]⟩).length) 0 0 (ScanState.start 0)).isSome = true := by decide +kernel
    obtain ⟨s', hs'⟩ := Option.isSome_iff_exists.mp hstep
    obtain ⟨record, buf, -, hdecode, hlength, hinside, -⟩ := no_counter_wraps.2 _ _ _ _ _ hs'
    exact ⟨record, buf, hlength, hdecode, hinside⟩

/-- **The promise has a limit**: behind the last offset, relative offsets are no
longer what lies between an offset and the base. -/
theorem counters_fail_at_wrap : (∀ op ∈ edgeOps 18446744073709551613, op.Sized) ∧
    ¬∀ seg ∈ (pastEdge 18446744073709551613).part.segments, ∃ rs,
      (pastEdge 18446744073709551613).fs.dir.lookup seg.logFile = some (encodeAll rs) ∧
      ExactCounters (pastEdge 18446744073709551613).part.config.segmentMaxBytes seg rs := by
  refine ⟨edgeOps_sized _, ?_⟩
  intro hexact
  obtain ⟨seg, hseg, hbase, e, he, hone⟩ := @pastEdge_entry 18446744073709551613 (by norm_num)
  obtain ⟨rs, -, hcounters⟩ := hexact seg hseg
  obtain ⟨-, r, -, -, -, hoff⟩ := hcounters.entries e he
  have hlt := r.offset.toNat_lt
  omega

end StreamForge
