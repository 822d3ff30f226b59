import StreamForge.Storage.BlockRead
import StreamForge.Storage.Counters

/-!
# What the quick check sees

`verify_quick` looks at the first record and at the record that the index gives for
the last offset, and an empty log passes. The index has an entry only every
`index_interval_bytes`, so the second record it looks at is usually not the last one.
`verifyQuick_iff` says what passes; `quick_check_iff` says for which logs, indexes and
markers this is enough for the last record to be there, and for a log that lost its
last record when this is noticed.
-/

namespace StreamForge

open FileTrace FileHandle

/-- The buffers `verify_quick` hands to `decode`. -/
def LogSegment.quickCalls (seg : LogSegment) (fs : FileSystem) : List Bytes :=
  if seg.logSizeBytes < 28 then []
  else if seg.index.any (fun e => decide (seg.logSizeBytes ≤ e.filePosition)) then []
  else
    (seg.recordCall fs 0).toList ++
      match seg.readRecordAt fs 0 with
      | .error _ => []
      | .ok _ =>
        if seg.quickLastPos < seg.logSizeBytes then
          (seg.recordCall fs seg.quickLastPos).toList
        else []

/-- The entries of the index lie in the log, and blocks begin at its start and at
`pos`. -/
structure SpotChecked (log : Bytes) (index : List IndexEntry) (pos : ℕ) : Prop where
  inRange : ∀ e ∈ index, e.filePosition < log.length
  first : ∃ b, BlockAt log 0 b
  last : ∃ b, BlockAt log pos b

theorem lookup_mem (es : List IndexEntry) (target : ℕ) :
    OffsetIndex.lookup es target = 0 ∨ ∃ e ∈ es, OffsetIndex.lookup es target = e.filePosition := by
  unfold OffsetIndex.lookup
  cases es with
  | nil => exact Or.inl rfl
  | cons e es =>
    right
    dsimp only
    split
    · exact ⟨e, List.mem_cons_self, rfl⟩
    · cases hget : (e :: es)[BinarySearch.upperBound
          (fun e => decide (target < e.relativeOffset)) (e :: es) - 1]? with
      | none => exact ⟨e, List.mem_cons_self, rfl⟩
      | some e' => exact ⟨e', List.mem_of_getElem? hget, rfl⟩

theorem quickLastPos_mem (seg : LogSegment) :
    seg.quickLastPos = 0 ∨ ∃ e ∈ seg.index, seg.quickLastPos = e.filePosition := by
  unfold LogSegment.quickLastPos LogSegment.lookupFilePosition
  split
  · split
    · exact Or.inl rfl
    · exact lookup_mem seg.index _
  · cases hlast : seg.index.getLast? with
    | none => exact Or.inl rfl
    | some e => exact Or.inr ⟨e, List.mem_of_getLast? hlast, rfl⟩

section Check

variable {seg : LogSegment} {fs : FileSystem} {log : Bytes}
variable (hcontent : content fs seg.logFile = log) (hsize : seg.logSizeBytes = log.length)
  (hlen : log.length < 2 ^ 32)

theorem any_beyond_iff (hsize : seg.logSizeBytes = log.length) :
    seg.index.any (fun e => decide (seg.logSizeBytes ≤ e.filePosition)) = true ↔
      ¬∀ e ∈ seg.index, e.filePosition < log.length := by
  rw [List.any_eq_true]
  push Not
  refine exists_congr fun e => and_congr_right fun _ => ?_
  rw [decide_eq_true_iff, hsize]

theorem quickLastPos_lt (hsize : seg.logSizeBytes = log.length)
    (hin : ∀ e ∈ seg.index, e.filePosition < log.length) (hpos : 0 < seg.logSizeBytes) :
    seg.quickLastPos < seg.logSizeBytes := by
  rcases quickLastPos_mem seg with hzero | ⟨e, he, hentry⟩
  · rw [hzero]
    exact hpos
  · rw [hentry, hsize]
    exact hin e he

include hcontent hsize hlen

theorem verifyQuick_iff :
    seg.verifyQuick fs = true ↔ log = [] ∨ SpotChecked log seg.index seg.quickLastPos := by
  unfold LogSegment.verifyQuick
  by_cases hzero : seg.logSizeBytes = 0
  · rw [if_pos hzero]
    exact iff_of_true rfl (Or.inl (List.length_eq_zero_iff.mp (hsize ▸ hzero)))
  have hne : log ≠ [] := by
    rintro rfl
    exact hzero hsize
  rw [if_neg hzero, or_iff_right hne]
  by_cases hshort : seg.logSizeBytes < 28
  · rw [if_pos hshort]
    refine iff_of_false (by simp) ?_
    rintro ⟨-, ⟨b, hb⟩, -⟩
    have hroom := hb.lt
    have hmin := hb.1.length_le.1
    omega
  rw [if_neg hshort]
  by_cases hbeyond : seg.index.any (fun e => decide (seg.logSizeBytes ≤ e.filePosition)) = true
  · rw [if_pos hbeyond]
    refine iff_of_false (by simp) ?_
    rintro ⟨hin, -, -⟩
    exact (any_beyond_iff hsize).mp hbeyond hin
  have hin : ∀ e ∈ seg.index, e.filePosition < log.length := by
    by_contra hnot
    exact hbeyond ((any_beyond_iff hsize).mpr hnot)
  rw [if_neg hbeyond]
  have hpos := quickLastPos_lt hsize hin (by omega)
  have hread : ∀ pos, (∃ r, seg.readRecordAt fs pos = .ok r) ↔ ∃ b, BlockAt log pos b := by
    intro pos
    constructor
    · rintro ⟨r, hr⟩
      obtain ⟨b, hb, -⟩ := (readRecordAt_ok_iff hcontent hsize hlen).mp hr
      exact ⟨b, hb⟩
    · rintro ⟨b, hb⟩
      exact ⟨_, readRecordAt_of_blockAt hcontent hsize hlen hb⟩
  cases hfirst : seg.readRecordAt fs 0 with
  | error st =>
    refine iff_of_false (by simp) ?_
    rintro ⟨-, hb, -⟩
    obtain ⟨r, hr⟩ := (hread 0).mpr hb
    rw [hfirst] at hr
    cases hr
  | ok r =>
    dsimp only
    rw [if_pos hpos]
    cases hlast : seg.readRecordAt fs seg.quickLastPos with
    | error st =>
      refine iff_of_false (by simp) ?_
      rintro ⟨-, -, hb⟩
      obtain ⟨r, hr⟩ := (hread _).mpr hb
      rw [hlast] at hr
      cases hr
    | ok r' => exact iff_of_true rfl ⟨hin, (hread 0).mp ⟨r, hfirst⟩, (hread _).mp ⟨r', hlast⟩⟩

/-- **The calls of the quick check stay inside their buffers** unless one of the two
blocks has a wrapped key length. -/
theorem quickCalls_inside_iff :
    (∀ buf ∈ seg.quickCalls fs, ∀ a ∈ RecordCodec.reads buf, a.Inside buf.length) ↔
      ((∀ e ∈ seg.index, e.filePosition < log.length) → ∀ b, BlockAt log 0 b →
        ¬RecordCodec.KeyWraps b.bytes ∧
          ∀ b', BlockAt log seg.quickLastPos b' → ¬RecordCodec.KeyWraps b'.bytes) := by
  have hcall : ∀ pos, (∀ buf ∈ (seg.recordCall fs pos).toList, ∀ a ∈ RecordCodec.reads buf,
      a.Inside buf.length) ↔ ∀ b, BlockAt log pos b → ¬RecordCodec.KeyWraps b.bytes := by
    intro pos
    rw [← recordCall_inside_iff hcontent hsize hlen]
    refine forall_congr' fun buf => ?_
    rw [Option.mem_toList]
  unfold LogSegment.quickCalls
  by_cases hshort : seg.logSizeBytes < 28
  · rw [if_pos hshort]
    refine iff_of_true (by simp) ?_
    intro _ b hb
    have hroom := hb.lt
    have hmin := hb.1.length_le.1
    omega
  rw [if_neg hshort]
  by_cases hbeyond : seg.index.any (fun e => decide (seg.logSizeBytes ≤ e.filePosition)) = true
  · rw [if_pos hbeyond]
    exact iff_of_true (by simp) fun hin => absurd hin ((any_beyond_iff hsize).mp hbeyond)
  have hin : ∀ e ∈ seg.index, e.filePosition < log.length := by
    by_contra hnot
    exact hbeyond ((any_beyond_iff hsize).mpr hnot)
  rw [if_neg hbeyond, List.forall_mem_append, hcall, forall_prop_of_true hin]
  cases hfirst : seg.readRecordAt fs 0 with
  | error st =>
    have hnone : ∀ b, ¬BlockAt log 0 b := by
      intro b hb
      rw [readRecordAt_of_blockAt hcontent hsize hlen hb] at hfirst
      cases hfirst
    exact iff_of_true ⟨fun b hb => absurd hb (hnone b), by simp⟩
      fun b hb => absurd hb (hnone b)
  | ok r =>
    obtain ⟨b, hb, -⟩ := (readRecordAt_ok_iff hcontent hsize hlen).mp hfirst
    have hpos := quickLastPos_lt hsize hin (by omega)
    dsimp only
    rw [if_pos hpos, hcall]
    constructor
    · rintro ⟨h0, hlast⟩ b' hb'
      exact ⟨h0 b' hb', hlast⟩
    · intro hboth
      exact ⟨fun b' hb' => (hboth b' hb').1, (hboth b hb).2⟩

end Check

/-- What `verify_quick` should do for a segment whose marker gives `lastOffset`: read
inside its buffers, and pass only logs that begin with a record and have, where a
scan from the start comes across it, one with the last offset. -/
structure ChecksLast (seg : LogSegment) (fs : FileSystem) (log : Bytes) (lastOffset : UInt64) :
    Prop where
  inside : ∀ buf ∈ seg.quickCalls fs, ∀ a ∈ RecordCodec.reads buf, a.Inside buf.length
  first : seg.verifyQuick fs = true → ∃ b, BlockAt log 0 b
  last : seg.verifyQuick fs = true → ∃ r ∈ recordsOf (blocksOf log), r.offset = lastOffset

/-- The condition on the log, the index and the position the index gives for the last
offset. -/
structure LastAssured (log : Bytes) (index : List IndexEntry) (pos : ℕ) (lastOffset : UInt64) :
    Prop where
  unwrapped : (∀ e ∈ index, e.filePosition < log.length) → ∀ b, BlockAt log 0 b →
    ¬RecordCodec.KeyWraps b.bytes ∧ ∀ b', BlockAt log pos b' → ¬RecordCodec.KeyWraps b'.bytes
  present : (∃ r ∈ recordsOf (blocksOf log), r.offset = lastOffset) ∨
    log ≠ [] ∧ ¬SpotChecked log index pos

theorem blockAt_zero_of_mem {log : Bytes} {r : Record} (h : r ∈ recordsOf (blocksOf log)) :
    ∃ b, BlockAt log 0 b := by
  by_contra hnone
  have hno : ∀ b rest, nextBlock log ≠ .item b rest := by
    intro b rest hnext
    exact hnone ⟨b, blockAt_iff.mpr ⟨rest, hnext⟩⟩
  rw [(blocksOf_of_no_item hno).1] at h
  cases h

theorem checksLast_iff_assured {seg : LogSegment} {fs : FileSystem} {log : Bytes}
    (hcontent : content fs seg.logFile = log) (hsize : seg.logSizeBytes = log.length)
    (hlen : log.length < 2 ^ 32) (lastOffset : UInt64) :
    ChecksLast seg fs log lastOffset ↔ LastAssured log seg.index seg.quickLastPos lastOffset := by
  have hinside := quickCalls_inside_iff hcontent hsize hlen
  have hvalid := verifyQuick_iff hcontent hsize hlen
  constructor
  · rintro ⟨hin, -, hlast⟩
    refine ⟨hinside.mp hin, ?_⟩
    by_cases hpass : seg.verifyQuick fs = true
    · exact Or.inl (hlast hpass)
    · rw [hvalid, not_or] at hpass
      exact Or.inr hpass
  · rintro ⟨hwraps, hpresent⟩
    have hlast : seg.verifyQuick fs = true →
        ∃ r ∈ recordsOf (blocksOf log), r.offset = lastOffset := by
      intro hpass
      rcases hpresent with hfound | ⟨hne, hnot⟩
      · exact hfound
      · rcases hvalid.mp hpass with hnil | hspot
        · exact absurd hnil hne
        · exact absurd hspot hnot
    refine ⟨hinside.mpr hwraps, ?_, hlast⟩
    intro hpass
    obtain ⟨r, hr, -⟩ := hlast hpass
    exact blockAt_zero_of_mem hr

/-! ## A log that lost its last record -/

/-- The records before the last are intact, and no record begins behind them. -/
def LostLast (rs : List Record) (log : Bytes) : Prop :=
  ∃ tail, log = encodeAll rs.dropLast ++ tail ∧ ∀ b, ¬BlockAt tail 0 b

theorem Record.Fits.blockAt {r : Record} (h : r.Fits) {log rest : Bytes} {pos : ℕ}
    (hdrop : log.drop pos = RecordCodec.encode r ++ rest) : BlockAt log pos r.block :=
  ⟨h.encodable.valid, rest, hdrop.symm⟩

section Lost

variable {seg : LogSegment} {rs : List Record} {log : Bytes}

theorem LostLast.blockAt (h : LostLast rs log) (hfits : ∀ r ∈ rs, r.Fits) {k : ℕ}
    (hk : k < rs.length - 1) : ∃ b, BlockAt log (posOf rs k) b := by
  obtain ⟨tail, rfl, -⟩ := h
  have hk' : k < rs.dropLast.length := by rwa [List.length_dropLast]
  have hpos : posOf rs k = posOf rs.dropLast k := by
    have hne : rs ≠ [] := by
      rintro rfl
      exact absurd hk (Nat.not_lt_zero _)
    conv_lhs => rw [← List.dropLast_append_getLast hne]
    exact Blocks.blockStart_append _ (Nat.le_of_lt hk') _
  have hle : posOf rs.dropLast k ≤ (encodeAll rs.dropLast).length := Nat.le_of_lt (posOf_lt hk')
  have hdrop : (encodeAll rs.dropLast ++ tail).drop (posOf rs k) =
      RecordCodec.encode rs.dropLast[k] ++ (encodeAll (rs.dropLast.drop (k + 1)) ++ tail) := by
    rw [hpos, List.drop_append_of_le_length hle, ← List.append_assoc]
    refine congrArg (· ++ tail) ?_
    show (encodeAll rs.dropLast).drop (Blocks.blockStart RecordCodec.encode rs.dropLast k) = _
    rw [encodeAll, Blocks.drop_blockStart, List.drop_eq_getElem_cons hk', List.flatMap_cons]
    rfl
  exact ⟨_, (hfits _ (List.dropLast_subset _ (List.getElem_mem hk'))).blockAt hdrop⟩

theorem LostLast.not_blockAt (h : LostLast rs log) (hne : rs ≠ []) (b : Block) :
    ¬BlockAt log (posOf rs (rs.length - 1)) b := by
  obtain ⟨tail, rfl, hnone⟩ := h
  have hpos : posOf rs (rs.length - 1) = (encodeAll rs.dropLast).length := by
    conv_lhs => rw [← List.dropLast_append_getLast hne]
    rw [posOf, Blocks.blockStart_append _ (by simp)]
    have hlength : (rs.dropLast ++ [rs.getLast hne]).length - 1 = rs.dropLast.length := by simp
    rw [hlength]
    exact Blocks.blockStart_length _ _
  rw [hpos]
  rintro ⟨hb, hpre⟩
  rw [List.drop_left' rfl] at hpre
  exact hnone b ⟨hb, by simpa using hpre⟩

/-- **When the loss of the last record is seen**: only if the index has an entry for
that very record, or it was the only one and something is left of it. -/
theorem LostLast.spotChecked_iff (h : LostLast rs log) (hlen : log.length < 2 ^ 32)
    (hfits : ∀ r ∈ rs, r.Fits) (hne : rs ≠ []) (hsound : IndexSound rs seg.index)
    (hlast : seg.lastOffset.toNat = seg.baseOffset.toNat + (rs.length - 1))
    (hcount : 0 < seg.recordCount) :
    SpotChecked log seg.index seg.quickLastPos ↔
      ¬(rs.length = 1 ∨ entryAt rs (rs.length - 1) ∈ seg.index) := by
  have hpos : 0 < rs.length := List.length_pos_iff.mpr hne
  have hle : seg.baseOffset ≤ seg.lastOffset := UInt64.le_iff_toNat_le.mpr (by omega)
  have hquick : seg.quickLastPos = seg.lookupFilePosition seg.lastOffset := by
    unfold LogSegment.quickLastPos
    rw [if_pos (by simp [hle, hcount])]
  have hbound : rs.length - 1 < 2 ^ 32 := by
    obtain ⟨tail, rfl, -⟩ := h
    have hcountLe := length_le_encodeAll rs.dropLast
    rw [List.length_dropLast] at hcountLe
    rw [List.length_append] at hlen
    omega
  by_cases hone : rs.length = 1
  · -- the only record was the first one too
    refine iff_of_false ?_ (by simp [hone])
    rintro ⟨-, ⟨b, hb⟩, -⟩
    have hzero : posOf rs (rs.length - 1) = 0 := by rw [hone]; simp [posOf]
    exact h.not_blockAt hne b (by rwa [hzero])
  have hlookup : seg.quickLastPos = OffsetIndex.lookup seg.index (rs.length - 1) := by
    rw [hquick, LogSegment.lookupFilePosition, if_neg, LogSegment.relOffset,
      relOffset_eq hlast hbound]
    rw [UInt64.le_iff_toNat_le]
    omega
  obtain ⟨k, hk, hentry, heq, hgreatest⟩ := lookup_greatest hsound (rs.length - 1)
  rw [hlookup, heq]
  by_cases hown : entryAt rs (rs.length - 1) ∈ seg.index
  · have hkeq : k = rs.length - 1 := Nat.le_antisymm hk (hgreatest _ hown (Nat.le_refl _))
    refine iff_of_false ?_ (by simp [hown])
    rintro ⟨-, -, b, hb⟩
    rw [hkeq] at hb
    exact h.not_blockAt hne b hb
  · have hklt : k < rs.length - 1 := by
      rcases Nat.lt_or_eq_of_le hk with hlt | hkeq
      · exact hlt
      · rcases hentry with ⟨-, hzero⟩ | hmem
        · omega
        · exact absurd (hkeq ▸ hmem) hown
    refine iff_of_true ⟨?_, ?_, h.blockAt hfits hklt⟩ (by simp [hone, hown])
    · intro e he
      obtain ⟨j, hj, rfl⟩ := hsound.mem he
      have hjlt : j < rs.length - 1 := by
        rcases Nat.lt_or_eq_of_le (show j ≤ rs.length - 1 by omega) with hlt | hjeq
        · exact hlt
        · exact absurd (hjeq ▸ he) hown
      obtain ⟨b, hb⟩ := h.blockAt hfits hjlt
      have hroom := hb.lt
      have hmin := hb.1.length_le.1
      show posOf rs j < log.length
      omega
    · obtain ⟨b, hb⟩ := h.blockAt hfits (show 0 < rs.length - 1 by omega)
      have hzero : posOf rs 0 = 0 := by simp [posOf]
      exact ⟨b, by rwa [hzero] at hb⟩

end Lost

/-! ## Segments with a marker -/

/-- **What the quick check of a segment with a marker is worth.** It is as good as promised
exactly under `LastAssured`; and if the log has lost its last record while the index still
has its entries, this is noticed exactly when one of them is for that record, or when it was
the only record and something is left of it. -/
theorem quick_check_iff (p : Partition) (d : Disk) (base : UInt64) (marker : SealedMarker)
    (hmarker : markerIn (d.lookup ⟨base, .sealed⟩) = some marker) (hcount : 0 < marker.recordCount)
    (hlen : (logOf d base).length < 2 ^ 32) :
    let seg := (p.newSegment base).openedMarked d
    let log := logOf d base
    (ChecksLast seg (Fs.start d) log marker.lastOffset ↔
      LastAssured log seg.index seg.quickLastPos marker.lastOffset) ∧
    ∀ rs, rs ≠ [] → (∀ r ∈ rs, r.Fits) →
      marker.lastOffset.toNat = base.toNat + (rs.length - 1) → IndexSound rs seg.index →
      LostLast rs log → (seg.verifyQuick (Fs.start d) = false ↔
        log ≠ [] ∧ (rs.length = 1 ∨ entryAt rs (rs.length - 1) ∈ seg.index)) := by
  intro seg log
  obtain ⟨hbase, -, -, hsize, -⟩ := (p.newSegment base).openedMarked_spec d
  have hopened : seg = ((p.newSegment base).opened d).withMarker marker := by
    show LogSegment.openedMarked _ d = _
    unfold LogSegment.openedMarked
    rw [show markerIn (d.lookup (p.newSegment base).sealedFile) = some marker from hmarker]
  have hsize' : seg.logSizeBytes = log.length := by
    have hu : u32 log.length = log.length := u32_of_lt hlen
    rw [← hu]
    exact hsize
  have hcontent : content (Fs.start d) seg.logFile = log := by
    show (d.lookup (LogSegment.logFile ((p.newSegment base).openedMarked d))).getD [] = _
    rw [LogSegment.logFile, hbase]
    rfl
  refine ⟨checksLast_iff_assured hcontent hsize' hlen _, ?_⟩
  intro rs hne hfits hlast hsound hlost
  have hlast' : seg.lastOffset.toNat = seg.baseOffset.toNat + (rs.length - 1) := by
    rw [show seg.baseOffset = base from hbase, ← hlast, hopened]
    rfl
  have hcount' : 0 < seg.recordCount := by
    rw [hopened]
    exact hcount
  have hspot := hlost.spotChecked_iff hlen hfits hne hsound hlast' hcount'
  rw [← Bool.not_eq_true, verifyQuick_iff hcontent hsize' hlen, not_or, hspot, not_not]

/-- The marker of a segment with `count` records from offset 0 on. -/
def markerFor (count : UInt64) : SealedMarker := ⟨sealedMagic, count, count - 1, 0, 7⟩

def sealedDir (log index : Bytes) (count : UInt64) : Disk :=
  (((∅ : Disk).insert ⟨0, .log⟩ log).insert ⟨0, .index⟩ index).insert ⟨0, .sealed⟩
    (markerFor count).bytes

theorem markerIn_sealedDir (log index : Bytes) (count : UInt64) :
    markerIn ((sealedDir log index count).lookup ⟨0, .sealed⟩) = some (markerFor count) := by
  rw [sealedDir, AList.lookup_insert]
  exact markerIn_bytes rfl

theorem logOf_sealedDir (log index : Bytes) (count : UInt64) :
    logOf (sealedDir log index count) 0 = log := by
  rw [logOf, sealedDir, AList.lookup_insert_ne (by simp), AList.lookup_insert_ne (by simp),
    AList.lookup_insert]
  rfl

def firstRecord : Bytes := RecordCodec.encode ⟨0, 7, [], [1]⟩

theorem noKeyWraps_firstRecord : NoKeyWraps firstRecord := by
  have hno := @noKeyWraps_encodeAll [⟨0, 7, [], [1]⟩] (by
    intro r hr
    rw [List.mem_singleton.mp hr]
    unfold Record.Encodable
    decide)
  rwa [encodeAll_singleton] at hno

theorem offsets_firstRecord : (recordsOf (blocksOf firstRecord)).map Record.offset = [0] := by
  decide +kernel

/-- One record, and no index. -/
theorem quick_check_one_record :
    ChecksLast (((Partition.new 0 [] {}).newSegment 0).openedMarked (sealedDir firstRecord [] 1))
      (Fs.start (sealedDir firstRecord [] 1)) (logOf (sealedDir firstRecord [] 1) 0) 0 := by
  have hlog := logOf_sealedDir firstRecord [] 1
  refine (quick_check_iff (Partition.new 0 [] {}) (sealedDir firstRecord [] 1) 0 (markerFor 1)
    (markerIn_sealedDir _ _ _) (by decide) ?_).1.mpr ⟨?_, Or.inl ?_⟩
  · rw [hlog]
    decide +kernel
  · have hpos : (((Partition.new 0 [] {}).newSegment 0).openedMarked
        (sealedDir firstRecord [] 1)).quickLastPos = 0 := by
      decide +kernel
    have hfirst : ∀ b, BlockAt firstRecord 0 b → ¬RecordCodec.KeyWraps b.bytes := by
      rintro b ⟨hb, hpre⟩
      exact noKeyWraps_firstRecord [b] (by simpa using hb) (by simpa using hpre) b (by simp)
    rw [hlog, hpos]
    intro _ b hb
    exact ⟨hfirst b hb, hfirst⟩
  · rw [hlog]
    have hmem : (0 : UInt64) ∈ (recordsOf (blocksOf firstRecord)).map Record.offset := by
      rw [offsets_firstRecord]
      exact List.mem_singleton.mpr rfl
    exact List.mem_map.mp hmem

/-- The second of two records is gone; the index has an entry for the first. -/
theorem quick_check_misses_last :
    ¬ChecksLast (((Partition.new 0 [] {}).newSegment 0).openedMarked
        (sealedDir firstRecord (OffsetIndex.encodeEntries [⟨0, 0⟩]) 2))
      (Fs.start (sealedDir firstRecord (OffsetIndex.encodeEntries [⟨0, 0⟩]) 2))
      (logOf (sealedDir firstRecord (OffsetIndex.encodeEntries [⟨0, 0⟩]) 2) 0)
      (markerFor 2).lastOffset := by
  rintro ⟨-, -, hlast⟩
  obtain ⟨r, hr, hoff⟩ := hlast (by decide +kernel)
  rw [logOf_sealedDir] at hr
  have hmem := List.mem_map_of_mem (f := Record.offset) hr
  rw [offsets_firstRecord, hoff] at hmem
  exact absurd hmem (by decide)

end StreamForge
