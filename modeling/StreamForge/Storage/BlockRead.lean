import StreamForge.Storage.SegmentRecovery

/-!
# Reading at any position of a log

`read_record_at` trusts the position it is given. On a log of any content it returns
a record exactly when a block begins there (`readRecordAt_ok_iff`), whether or not a
scan from the start would come across that block.
-/

namespace StreamForge

open FileTrace FileHandle

namespace LogSegment

/-- The buffer `read_record_at` hands to `decode`. -/
def recordCall (seg : LogSegment) (fs : FileSystem) (filePosition : ℕ) : Option Bytes :=
  if filePosition ≥ seg.logSizeBytes then none
  else
    match readAt (content fs seg.logFile) filePosition 28 with
    | none => none
    | some header =>
      let length := readU32 header
      if length < 24 || length > maxRecordSize then none
      else readAt (content fs seg.logFile) filePosition (u32 (4 + length))

variable {seg : LogSegment} {fs : FileSystem} {pos : ℕ}

theorem readRecordAt_of_call {buf : Bytes} (h : seg.recordCall fs pos = some buf) :
    seg.readRecordAt fs pos = RecordCodec.decode buf := by
  unfold readRecordAt
  unfold recordCall at h
  by_cases hpos : pos ≥ seg.logSizeBytes
  · rw [if_pos hpos] at h
    cases h
  rw [if_neg hpos] at h ⊢
  cases hheader : readAt (content fs seg.logFile) pos 28 with
  | none =>
    rw [hheader] at h
    cases h
  | some header =>
    rw [hheader] at h
    dsimp only at h ⊢
    by_cases hrange : (decide (readU32 header < 24) ||
        decide (readU32 header > maxRecordSize)) = true
    · rw [if_pos hrange] at h
      cases h
    · rw [if_neg hrange] at h ⊢
      rw [h]

theorem readRecordAt_of_no_call (h : seg.recordCall fs pos = none) :
    ∃ st, seg.readRecordAt fs pos = .error st ∧ (pos < seg.logSizeBytes → st.code = .Corrupt) := by
  unfold readRecordAt
  unfold recordCall at h
  by_cases hpos : pos ≥ seg.logSizeBytes
  · rw [if_pos hpos]
    exact ⟨_, rfl, fun hlt => absurd hlt (Nat.not_lt.mpr hpos)⟩
  rw [if_neg hpos] at h ⊢
  cases hheader : readAt (content fs seg.logFile) pos 28 with
  | none => exact ⟨_, rfl, fun _ => rfl⟩
  | some header =>
    rw [hheader] at h
    dsimp only at h ⊢
    by_cases hrange : (decide (readU32 header < 24) ||
        decide (readU32 header > maxRecordSize)) = true
    · rw [if_pos hrange]
      exact ⟨_, rfl, fun _ => rfl⟩
    · rw [if_neg hrange] at h ⊢
      rw [h]
      exact ⟨_, rfl, fun _ => rfl⟩

end LogSegment

def BlockAt (log : Bytes) (pos : ℕ) (b : Block) : Prop := b.Valid ∧ b.bytes <+: log.drop pos

variable {log : Bytes} {pos : ℕ} {b : Block}

theorem blockAt_iff : BlockAt log pos b ↔ ∃ rest, nextBlock (log.drop pos) = .item b rest := by
  constructor
  · rintro ⟨hb, rest, hrest⟩
    exact ⟨rest, nextBlock_item_iff.mpr ⟨hb, hrest.symm⟩⟩
  · rintro ⟨rest, hnext⟩
    obtain ⟨hb, hdrop⟩ := nextBlock_item_iff.mp hnext
    exact ⟨hb, rest, hdrop.symm⟩

theorem BlockAt.lt (h : BlockAt log pos b) : pos + b.bytes.length ≤ log.length := by
  obtain ⟨hb, hpre⟩ := h
  have hlength := hpre.length_le
  have hmin := hb.length_le.1
  rw [List.length_drop] at hlength
  omega

section Position

variable {seg : LogSegment} {fs : FileSystem} {log : Bytes} {pos : ℕ}
variable (hcontent : content fs seg.logFile = log) (hsize : seg.logSizeBytes = log.length)
  (hlen : log.length < 2 ^ 32)
include hcontent hsize hlen

theorem recordCall_eq (s : ScanState) (hs : s.currentPos = pos) :
    seg.recordCall fs pos = decodeCall log log.length s := by
  unfold LogSegment.recordCall decodeCall
  rw [hcontent, hsize, hs]
  by_cases hheader : pos + 28 ≤ log.length
  · rw [if_neg (by omega), if_neg (by rw [u32_of_lt (by omega)]; omega), readAt_of_le hheader]
    dsimp only
    split
    · rfl
    rename_i hrange
    rw [Bool.or_eq_true, decide_eq_true_iff, decide_eq_true_iff] at hrange
    set length := readU32 ((log.drop pos).take 28)
    have htotal : u32 (4 + length) = 4 + length := by
      unfold maxRecordSize at hrange
      exact u32_of_lt (by omega)
    rw [htotal]
    by_cases hwhole : pos + (4 + length) ≤ log.length
    · rw [if_neg (by rw [u32_of_lt (by omega)]; omega)]
    · -- what cannot be read is not handed over, however the position wraps
      have hnone : readAt log pos (4 + length) = none := if_neg hwhole
      rw [hnone]
      split <;> rfl
  · have hnone : readAt log pos 28 = none := if_neg hheader
    rw [hnone]
    dsimp only
    rw [ite_self, ite_self]

variable {r : Record} {b : Block}

/-- What is handed to `decode` and accepted is the block at the position. -/
theorem blockAt_of_call {buf : Bytes} (hcall : seg.recordCall fs pos = some buf)
    (hdecode : RecordCodec.decode buf = .ok r) : BlockAt log pos ⟨r, buf⟩ := by
  rw [recordCall_eq hcontent hsize hlen { ScanState.start 0 with currentPos := pos } rfl] at hcall
  exact blockAt_iff.mpr ⟨_, nextBlock_of_decodeCall hcall hdecode⟩

theorem recordCall_of_blockAt (h : BlockAt log pos b) : seg.recordCall fs pos = some b.bytes := by
  obtain ⟨rest, hnext⟩ := blockAt_iff.mp h
  rw [recordCall_eq hcontent hsize hlen { ScanState.start 0 with currentPos := pos } rfl]
  exact decodeCall_of_item hlen hnext

theorem readRecordAt_of_blockAt (h : BlockAt log pos b) :
    seg.readRecordAt fs pos = .ok b.record := by
  rw [LogSegment.readRecordAt_of_call (recordCall_of_blockAt hcontent hsize hlen h)]
  exact h.1.decodes

/-- **Reading at a position** gives the record of the block that begins there. -/
theorem readRecordAt_ok_iff :
    seg.readRecordAt fs pos = .ok r ↔ ∃ b, BlockAt log pos b ∧ b.record = r := by
  constructor
  · intro hread
    cases hcall : seg.recordCall fs pos with
    | none =>
      obtain ⟨st, herror, -⟩ := LogSegment.readRecordAt_of_no_call hcall
      rw [herror] at hread
      cases hread
    | some buf =>
      rw [LogSegment.readRecordAt_of_call hcall] at hread
      exact ⟨⟨r, buf⟩, blockAt_of_call hcontent hsize hlen hcall hread, rfl⟩
  · rintro ⟨b, hb, rfl⟩
    exact readRecordAt_of_blockAt hcontent hsize hlen hb

/-- A call stays inside its buffer unless it is for a block with a wrapped key
length. -/
theorem recordCall_inside_iff :
    (∀ buf, seg.recordCall fs pos = some buf → ∀ a ∈ RecordCodec.reads buf, a.Inside buf.length) ↔
      ∀ b, BlockAt log pos b → ¬RecordCodec.KeyWraps b.bytes := by
  constructor
  · intro hinside b hb
    rw [← reads_inside_iff hb.1]
    exact hinside _ (recordCall_of_blockAt hcontent hsize hlen hb)
  · intro hno buf hcall
    cases hdecode : RecordCodec.decode buf with
    | error st => exact reads_inside_of_error hdecode
    | ok r =>
      have hb := blockAt_of_call hcontent hsize hlen hcall hdecode
      have hread := (reads_inside_iff hb.1).mpr (hno _ hb)
      exact hread

end Position

end StreamForge
