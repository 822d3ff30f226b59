import StreamForge.Foundation.Incremental
import StreamForge.Storage.RecordDecoding
import StreamForge.Storage.SegmentScan

/-!
# What a scan finds in any log

A log is meant to be a sequence of blocks: a length field in the range the scan
allows, as many further bytes, and a record that decodes. `nextBlock` says what
is at the front of a byte string, without positions, and is a scanner.

On every file shorter than 4 GiB the loop of `recover_and_rebuild_index` goes over
exactly the blocks of this scanner (`scanLoop_eq`). Its 32-bit positions can wrap
close to the end of such a file, but then the read that follows fails. Of whole
records followed by a torn one the scan keeps the records (`scan_spec`), whatever the
checksum is: a torn record is already refused by its length.
-/

namespace StreamForge

open FileTrace FileHandle Incremental

/-! ## Blocks -/

structure Block where
  record : Record
  bytes : Bytes

structure Block.Valid (b : Block) : Prop where
  least : 24 ≤ readU32 b.bytes
  most : readU32 b.bytes ≤ maxRecordSize
  length : b.bytes.length = 4 + readU32 b.bytes
  decodes : RecordCodec.decode b.bytes = .ok b.record

variable {b : Block} {log : Bytes} {bs : List Block} {rs : List Record} {r : Record}

theorem Block.Valid.length_le (h : b.Valid) : 28 ≤ b.bytes.length ∧ b.bytes.length < 2 ^ 32 := by
  have hleast := h.least
  have hmost := h.most
  have hlength := h.length
  unfold maxRecordSize at hmost
  omega

def nextBlock (log : Bytes) : Next UInt8 Block Unit :=
  if log.length < 28 then .more
  else
    let length := readU32 log
    if length < 24 ∨ maxRecordSize < length then .stop ()
    else if log.length < 4 + length then .more
    else
      match RecordCodec.decode (log.take (4 + length)) with
      | .error _ => .stop ()
      | .ok record => .item ⟨record, log.take (4 + length)⟩ (log.drop (4 + length))

theorem readU32_take_of_le (log : Bytes) {n : ℕ} (h : 4 ≤ n) :
    readU32 (log.take n) = readU32 log := by
  rw [readU32, readU32, List.take_take, Nat.min_eq_left h]

variable {rest tail : Bytes} {seg : LogSegment} {fs : FileSystem} {base : UInt64}

theorem nextBlock_item_iff : nextBlock log = .item b rest ↔ b.Valid ∧ log = b.bytes ++ rest := by
  constructor
  · intro h
    unfold nextBlock at h
    split at h
    · cases h
    dsimp only at h
    split at h
    · cases h
    rename_i hrange
    split at h
    · cases h
    rename_i hwhole
    split at h
    · cases h
    rename_i record hdecode
    cases h
    have hfield := readU32_take_of_le log (n := 4 + readU32 log) (by omega)
    refine ⟨⟨?_, ?_, ?_, hdecode⟩, (List.take_append_drop _ _).symm⟩
    · rw [hfield]
      omega
    · rw [hfield]
      omega
    · rw [hfield, List.length_take]
      omega
  · rintro ⟨hb, rfl⟩
    obtain ⟨hmin, -⟩ := hb.length_le
    have hleast := hb.least
    have hmost := hb.most
    have hlength := hb.length
    have hfield := readU32_append (show 4 ≤ b.bytes.length by omega) rest
    have hlog : (b.bytes ++ rest).length = b.bytes.length + rest.length := List.length_append
    unfold nextBlock
    rw [if_neg (by omega)]
    dsimp only
    rw [hfield, if_neg (by omega), if_neg (by omega), ← hlength, List.take_left' rfl,
      List.drop_left' rfl, hb.decodes]

theorem nextBlock_stop_append (more : Bytes) (h : nextBlock log = .stop ()) :
    nextBlock (log ++ more) = .stop () := by
  unfold nextBlock at h
  split at h
  · cases h
  rename_i hheader
  have hfield := readU32_append (show 4 ≤ log.length by omega) more
  have hlen : (log ++ more).length = log.length + more.length := List.length_append
  unfold nextBlock
  rw [if_neg (by omega)]
  dsimp only at h ⊢
  rw [hfield]
  split at h
  · rename_i hrange
    rw [if_pos hrange]
  rename_i hrange
  rw [if_neg hrange]
  split at h
  · cases h
  rename_i hwhole
  rw [if_neg (by omega), List.take_append_of_le_length (by omega)]
  split at h
  · rfl
  · cases h

def logScanner : Scanner UInt8 Block Unit where
  next := nextBlock
  shorter h := by
    obtain ⟨hb, rfl⟩ := nextBlock_item_iff.mp h
    obtain ⟨hmin, -⟩ := hb.length_le
    rw [List.length_append]
    omega
  item_append ys h := by
    obtain ⟨hb, rfl⟩ := nextBlock_item_iff.mp h
    exact nextBlock_item_iff.mpr ⟨hb, List.append_assoc _ _ _⟩
  stop_append ys h := nextBlock_stop_append ys h

def blocksOf (log : Bytes) : List Block := logScanner.items log

/-- What a scan keeps of a log. -/
def keptOf (log : Bytes) : Bytes := (blocksOf log).flatMap Block.bytes

def cutOf (log : Bytes) : Bytes := logScanner.left log

theorem kept_append_cut (log : Bytes) : keptOf log ++ cutOf log = log :=
  Scanner.pieces_append_left (fun h => (nextBlock_item_iff.mp h).2) log

theorem cutOf_eq_nil_iff : cutOf log = [] ↔ keptOf log = log := by
  have hsplit := kept_append_cut log
  constructor
  · intro h
    rwa [h, List.append_nil] at hsplit
  · intro h
    rw [h] at hsplit
    simpa using hsplit

theorem length_keptOf_le (log : Bytes) : (keptOf log).length ≤ log.length := by
  have hlen := congrArg List.length (kept_append_cut log)
  rw [List.length_append] at hlen
  omega

theorem blocksOf_of_item (h : nextBlock log = .item b rest) :
    blocksOf log = b :: blocksOf rest ∧ cutOf log = cutOf rest :=
  ⟨Scanner.items_item h, Scanner.left_item h⟩

theorem blocksOf_of_no_item {log : Bytes} (h : ∀ b rest, nextBlock log ≠ .item b rest) :
    blocksOf log = [] ∧ cutOf log = log := by
  have hscan : logScanner.scan log = ([], log) := Scanner.scan_of_no_item h
  exact ⟨congrArg Prod.fst hscan, congrArg Prod.snd hscan⟩

theorem Block.Valid.next {b : Block} (h : b.Valid) : logScanner.next b.bytes = .item b [] :=
  nextBlock_item_iff.mpr ⟨h, (List.append_nil _).symm⟩

theorem blocksOf_flatMap_append (h : ∀ b ∈ bs, b.Valid) (rest : Bytes) :
    blocksOf (bs.flatMap Block.bytes ++ rest) = bs ++ blocksOf rest :=
  Scanner.pieces_prefix_items (fun b hb => (h b hb).next) rfl

theorem valid_of_mem_blocksOf (log : Bytes) : ∀ b ∈ blocksOf log, b.Valid := by
  intro b hb
  cases hnext : nextBlock log with
  | item b' rest =>
    rw [(blocksOf_of_item hnext).1, List.mem_cons] at hb
    rcases hb with rfl | hb
    · exact (nextBlock_item_iff.mp hnext).1
    · exact valid_of_mem_blocksOf rest b hb
  | more =>
    rw [(blocksOf_of_no_item (by simp [hnext])).1] at hb
    cases hb
  | stop e =>
    rw [(blocksOf_of_no_item (by simp [hnext])).1] at hb
    cases hb
termination_by log.length
decreasing_by exact logScanner.shorter hnext

theorem blocksOf_keptOf (log : Bytes) : blocksOf (keptOf log) = blocksOf log := by
  have h := blocksOf_flatMap_append (valid_of_mem_blocksOf log) []
  have hnil : blocksOf [] = [] := (blocksOf_of_no_item (by simp [nextBlock])).1
  rwa [List.append_nil, hnil, List.append_nil] at h

theorem keptOf_keptOf (log : Bytes) : keptOf (keptOf log) = keptOf log := by
  rw [keptOf, blocksOf_keptOf]
  rfl

/-! ## One round -/

/-- The buffer a round of the loop hands to `decode`, if it gets that far. -/
def decodeCall (file : Bytes) (logSize : ℕ) (s : ScanState) : Option Bytes :=
  if u32 (s.currentPos + 28) > logSize then none
  else
    match readAt file s.currentPos 28 with
    | none => none
    | some header =>
      let length := readU32 header
      if length < 24 || length > maxRecordSize then none
      else if u32 (s.currentPos + u32 (4 + length)) > logSize then none
      else readAt file s.currentPos (u32 (4 + length))

theorem scanStep_eq (file : Bytes) (logSize : ℕ) (base : UInt64) (interval : UInt32)
    (s : ScanState) : scanStep file logSize base interval s =
      (decodeCall file logSize s).bind fun buf => (RecordCodec.decode buf).toOption.map
        fun record =>
        s.accept base interval record buf := by
  unfold scanStep decodeCall
  split
  · rfl
  cases readAt file s.currentPos 28 with
  | none => rfl
  | some header =>
    dsimp only
    split
    · rfl
    split
    · rfl
    cases readAt file s.currentPos (u32 (4 + readU32 header)) with
    | none => rfl
    | some buf =>
      dsimp only [Option.bind_some]
      cases RecordCodec.decode buf <;> rfl

section Round

variable {file : Bytes} {base : UInt64} {interval : UInt32} {s : ScanState}

variable {buf : Bytes}

variable {pos n : ℕ} {rest : Bytes}

theorem readAt_eq_some (h : readAt file pos n = some buf) :
    pos + n ≤ file.length ∧ buf = (file.drop pos).take n := by
  unfold readAt at h
  split at h
  · rename_i hle
    cases h
    exact ⟨hle, rfl⟩
  · cases h

theorem readAt_of_le (h : pos + n ≤ file.length) :
    readAt file pos n = some ((file.drop pos).take n) := if_pos h

/-- What is handed to `decode` has the length its own field announces. A position
that wraps passes the size tests, but nothing can be read there. -/
theorem decodeCall_eq_some {logSize : ℕ} (h : decodeCall file logSize s = some buf) :
    24 ≤ readU32 buf ∧ readU32 buf ≤ maxRecordSize ∧ buf.length = 4 + readU32 buf ∧
      file.drop s.currentPos = buf ++ file.drop (s.currentPos + buf.length) := by
  unfold decodeCall at h
  split at h
  · cases h
  split at h
  · cases h
  rename_i header hheader
  obtain ⟨hroom, rfl⟩ := readAt_eq_some hheader
  dsimp only at h
  rw [readU32_take_of_le _ (by omega)] at h
  set rest := file.drop s.currentPos with hrest
  split at h
  · cases h
  rename_i hrange
  rw [Bool.or_eq_true, decide_eq_true_iff, decide_eq_true_iff] at hrange
  split at h
  · cases h
  have htotal : u32 (4 + readU32 rest) = 4 + readU32 rest := by
    unfold maxRecordSize at hrange
    exact u32_of_lt (by omega)
  rw [htotal] at h
  obtain ⟨hwhole, hbuf⟩ := readAt_eq_some h
  rw [← hrest] at hbuf
  subst hbuf
  have hfield := readU32_take_of_le rest (n := 4 + readU32 rest) (by omega)
  have hlen : (rest.take (4 + readU32 rest)).length = 4 + readU32 rest := by
    rw [List.length_take, hrest, List.length_drop, ← hrest]
    omega
  refine ⟨by omega, by omega, by omega, ?_⟩
  rw [hlen, ← List.drop_drop, ← hrest, List.take_append_drop]

theorem decodeCall_of_item (hlen : file.length < 2 ^ 32)
    (h : nextBlock (file.drop s.currentPos) = .item b rest) :
    decodeCall file file.length s = some b.bytes := by
  obtain ⟨hb, hdrop⟩ := nextBlock_item_iff.mp h
  obtain ⟨hmin, -⟩ := hb.length_le
  have hleast := hb.least
  have hmost := hb.most
  have hlength := hb.length
  have hroom : s.currentPos + b.bytes.length ≤ file.length := by
    have := congrArg List.length hdrop
    rw [List.length_drop, List.length_append] at this
    omega
  have hfield : readU32 ((file.drop s.currentPos).take 28) = readU32 b.bytes := by
    rw [readU32_take_of_le _ (by omega), hdrop, readU32_append (by omega)]
  have htotal : u32 (4 + readU32 b.bytes) = b.bytes.length := by
    rw [hlength]
    exact u32_of_lt (by omega)
  have hrange : ¬(decide (readU32 b.bytes < 24) || decide (readU32 b.bytes > maxRecordSize)) =
      true := by
    rw [Bool.or_eq_true, decide_eq_true_iff, decide_eq_true_iff]
    omega
  unfold decodeCall
  rw [if_neg (by rw [u32_of_lt (by omega)]; omega), readAt_of_le (by omega)]
  dsimp only
  rw [hfield, if_neg hrange, htotal, if_neg (by rw [u32_of_lt (by omega)]; omega),
    readAt_of_le hroom, hdrop, List.take_left' rfl]

theorem scanStep_of_item (hlen : file.length < 2 ^ 32)
    (h : nextBlock (file.drop s.currentPos) = .item b rest) :
    scanStep file file.length base interval s = some (s.accept base interval b.record b.bytes) := by
  rw [scanStep_eq, decodeCall_of_item hlen h, Option.bind_some, (nextBlock_item_iff.mp h).1.decodes]
  rfl

theorem accept_of_item (base : UInt64) (interval : UInt32) (hlen : file.length < 2 ^ 32)
    (h : nextBlock (file.drop s.currentPos) = .item b rest) :
    let s' := s.accept base interval b.record b.bytes
    s.currentPos < s'.currentPos ∧ s'.currentPos ≤ file.length ∧
      file.drop s'.currentPos = rest := by
  obtain ⟨hb, hdrop⟩ := nextBlock_item_iff.mp h
  obtain ⟨hmin, hmax⟩ := hb.length_le
  have hlength := congrArg List.length hdrop
  rw [List.length_drop, List.length_append] at hlength
  have hstep : (s.accept base interval b.record b.bytes).currentPos =
      s.currentPos + b.bytes.length := by
    show u32 (s.currentPos + u32 b.bytes.length) = _
    rw [u32_of_lt hmax, u32_of_lt (by omega)]
  have hrest : file.drop (s.currentPos + b.bytes.length) = rest := by
    rw [← List.drop_drop, hdrop, List.drop_left' rfl]
  dsimp only
  rw [hstep]
  exact ⟨by omega, by omega, hrest⟩

theorem readRecordAt_of_item {seg : LogSegment} {fs : FileSystem} (hpos : pos < seg.logSizeBytes)
    (h : nextBlock ((content fs seg.logFile).drop pos) = .item b rest) :
    seg.readRecordAt fs pos = .ok b.record := by
  obtain ⟨hb, hdrop⟩ := nextBlock_item_iff.mp h
  obtain ⟨hmin, hmax⟩ := hb.length_le
  have hleast := hb.least
  have hmost := hb.most
  have hlength := hb.length
  have hroom : pos + b.bytes.length ≤ (content fs seg.logFile).length := by
    have := congrArg List.length hdrop
    rw [List.length_drop, List.length_append] at this
    omega
  have hfield : readU32 (((content fs seg.logFile).drop pos).take 28) = readU32 b.bytes := by
    rw [readU32_take_of_le _ (by omega), hdrop, readU32_append (by omega)]
  have hrange : ¬(decide (readU32 b.bytes < 24) || decide (readU32 b.bytes > maxRecordSize)) =
      true := by
    rw [Bool.or_eq_true, decide_eq_true_iff, decide_eq_true_iff]
    omega
  unfold LogSegment.readRecordAt
  rw [if_neg (by omega), readAt_of_le (by omega)]
  dsimp only
  rw [hfield, if_neg hrange, ← hlength, u32_of_lt hmax, readAt_of_le hroom, hdrop,
    List.take_left' rfl]
  exact hb.decodes

theorem nextBlock_of_decodeCall {record : Record} (hcall : decodeCall file file.length s = some buf)
    (hdecode : RecordCodec.decode buf = .ok record) :
    nextBlock (file.drop s.currentPos) =
      .item ⟨record, buf⟩ (file.drop (s.currentPos + buf.length)) := by
  obtain ⟨hleast, hmost, hlength, hdrop⟩ := decodeCall_eq_some hcall
  exact nextBlock_item_iff.mpr ⟨⟨hleast, hmost, hlength, hdecode⟩, hdrop⟩

theorem decode_of_no_item (h : ∀ b rest, nextBlock (file.drop s.currentPos) ≠ .item b rest)
    (hcall : decodeCall file file.length s = some buf) :
    ∃ st, RecordCodec.decode buf = .error st := by
  cases hdecode : RecordCodec.decode buf with
  | error st => exact ⟨st, rfl⟩
  | ok record => exact absurd (nextBlock_of_decodeCall hcall hdecode) (h _ _)

theorem scanStep_of_no_item (h : ∀ b rest, nextBlock (file.drop s.currentPos) ≠ .item b rest) :
    scanStep file file.length base interval s = none := by
  rw [scanStep_eq]
  cases hcall : decodeCall file file.length s with
  | none => rfl
  | some buf =>
    obtain ⟨st, hst⟩ := decode_of_no_item h hcall
    rw [Option.bind_some, hst]
    rfl

end Round

def ScanState.acceptAll (base : UInt64) (interval : UInt32) (s : ScanState) (bs : List Block) :
    ScanState :=
  bs.foldl (fun s b => s.accept base interval b.record b.bytes) s

theorem ScanState.acceptAll_cons (base : UInt64) (interval : UInt32) (s : ScanState) (b : Block)
    (bs : List Block) : s.acceptAll base interval (b :: bs) =
      (s.accept base interval b.record b.bytes).acceptAll base interval bs := rfl

theorem ScanState.acceptAll_snoc (base : UInt64) (interval : UInt32) (s : ScanState)
    (bs : List Block) (b : Block) : s.acceptAll base interval (bs ++ [b]) =
      (s.acceptAll base interval bs).accept base interval b.record b.bytes := by
  simp [acceptAll]

/-- **The loop from any position**: it accepts the blocks that follow and is left
by a `break` if something is left behind them. The fuel only has to cover the
bytes that are still to come. -/
theorem scanLoop_eq {file : Bytes} {base : UInt64} {interval : UInt32}
    (hlen : file.length < 2 ^ 32) (fuel : ℕ) : ∀ s : ScanState, s.currentPos ≤ file.length →
    file.length - s.currentPos < fuel →
    scanLoop file file.length base interval fuel s =
      (s.acceptAll base interval (blocksOf (file.drop s.currentPos)),
        decide (cutOf (file.drop s.currentPos) ≠ [])) := by
  induction fuel with
  | zero =>
    intro s _ hfuel
    exact absurd hfuel (Nat.not_lt_zero _)
  | succ fuel ih =>
    intro s hpos hfuel
    rw [scanLoop]
    by_cases hmore : s.currentPos < file.length
    · rw [if_pos hmore]
      by_cases hitem : ∃ b rest, nextBlock (file.drop s.currentPos) = .item b rest
      · obtain ⟨b, rest, hnext⟩ := hitem
        obtain ⟨hahead, hinside, hrest⟩ := accept_of_item base interval hlen hnext
        obtain ⟨hblocks, hcut⟩ := blocksOf_of_item hnext
        have hih := ih (s.accept base interval b.record b.bytes) hinside (by omega)
        rw [hrest] at hih
        rw [scanStep_of_item hlen hnext, hblocks, hcut, ScanState.acceptAll_cons]
        exact hih
      · have hnone : ∀ b rest, nextBlock (file.drop s.currentPos) ≠ .item b rest :=
          fun b rest h => hitem ⟨b, rest, h⟩
        obtain ⟨hblocks, hcut⟩ := blocksOf_of_no_item hnone
        rw [scanStep_of_no_item hnone, hblocks, hcut]
        have hne : file.drop s.currentPos ≠ [] := by
          rw [ne_eq, List.drop_eq_nil_iff]
          omega
        rw [decide_eq_true hne]
        rfl
    · rw [if_neg hmore, List.drop_eq_nil_of_le (by omega)]
      obtain ⟨hblocks, hcut⟩ := @blocksOf_of_no_item [] (by simp [nextBlock])
      rw [hblocks, hcut]
      rfl

/-- **A scan of any file** below 4 GiB. -/
theorem scan_eq (hlog : content fs seg.logFile = log) (hlen : log.length < 2 ^ 32) :
    seg.scan fs = ((ScanState.start seg.baseOffset).acceptAll seg.baseOffset seg.indexIntervalBytes
      (blocksOf log), decide (cutOf log ≠ [])) := by
  have h := @scanLoop_eq log seg.baseOffset seg.indexIntervalBytes hlen (log.length + 1)
    (ScanState.start seg.baseOffset) (Nat.zero_le _)
    (by show log.length - 0 < log.length + 1; omega)
  unfold LogSegment.scan
  simp only [hlog, u32_of_lt hlen]
  exact h

/-! ## Counters -/

/-- The largest timestamp, as the loops compute it: never below zero. -/
def maxTimestamp (rs : List Record) : Int64 :=
  rs.foldl (fun m r => if m < r.timestampMs then r.timestampMs else m) 0

theorem maxTimestamp_snoc (rs : List Record) (r : Record) : maxTimestamp (rs ++ [r]) =
    if maxTimestamp rs < r.timestampMs then r.timestampMs else maxTimestamp rs := by
  unfold maxTimestamp
  rw [List.foldl_append]
  rfl

theorem le_maxTimestamp {rs : List Record} : 0 ≤ (maxTimestamp rs).toInt ∧
    ∀ r ∈ rs, r.timestampMs.toInt ≤ (maxTimestamp rs).toInt := by
  induction rs using List.reverseRecOn with
  | nil => exact ⟨by decide, by simp⟩
  | append_singleton rs x ih =>
    obtain ⟨hzero, hle⟩ := ih
    rw [maxTimestamp_snoc]
    split
    · rename_i hlt
      rw [Int64.lt_iff_toInt_lt] at hlt
      refine ⟨by omega, ?_⟩
      intro r hr
      rcases List.mem_append.mp hr with hr | hr
      · have := hle r hr
        omega
      · rw [List.mem_singleton.mp hr]
    · rename_i hge
      rw [Int64.lt_iff_toInt_lt] at hge
      refine ⟨hzero, ?_⟩
      intro r hr
      rcases List.mem_append.mp hr with hr | hr
      · exact hle r hr
      · rw [List.mem_singleton.mp hr]
        omega

theorem maxTimestamp_mem (h : 0 < (maxTimestamp rs).toInt) :
    ∃ r ∈ rs, r.timestampMs = maxTimestamp rs := by
  induction rs using List.reverseRecOn with
  | nil => exact absurd h (by decide)
  | append_singleton rs x ih =>
    rw [maxTimestamp_snoc] at h ⊢
    split at h
    · rename_i hlt
      rw [if_pos hlt]
      exact ⟨x, by simp, rfl⟩
    · rename_i hge
      rw [if_neg hge]
      obtain ⟨r, hr, heq⟩ := ih h
      exact ⟨r, List.mem_append_left _ hr, heq⟩

/-- The offset of the last record, or `default`. -/
def lastOffsetOf (default : UInt64) (rs : List Record) : UInt64 :=
  (rs.getLast?.map Record.offset).getD default

def nextOffsetOf (base : UInt64) (rs : List Record) : UInt64 :=
  (rs.getLast?.map fun r => r.offset + 1).getD base

def recordsOf (bs : List Block) : List Record := bs.map Block.record

structure ScanCounts (base : UInt64) (bs : List Block) (s : ScanState) : Prop where
  pos : s.currentPos = (bs.flatMap Block.bytes).length
  count : s.recordCount = UInt64.ofNat bs.length
  last : s.lastOffset = lastOffsetOf base (recordsOf bs)
  maxTs : s.maxTimestampMs = maxTimestamp (recordsOf bs)
  crc : s.runningCrcRaw = Crc32.update Crc32.initialCrc (bs.flatMap Block.bytes)
  next : s.nextOffset = nextOffsetOf base (recordsOf bs)

theorem Crc32.update_append (raw : UInt32) (a b : Bytes) :
    Crc32.update raw (a ++ b) = Crc32.update (Crc32.update raw a) b := by
  simp [Crc32.update]

theorem scanCounts_start (base : UInt64) : ScanCounts base [] (ScanState.start base) where
  pos := rfl
  count := rfl
  last := rfl
  maxTs := rfl
  crc := rfl
  next := rfl

theorem ScanCounts.accept {s : ScanState} (h : ScanCounts base bs s) (interval : UInt32)
    (hlen : ((bs ++ [b]).flatMap Block.bytes).length < 2 ^ 32) :
    ScanCounts base (bs ++ [b]) (s.accept base interval b.record b.bytes) := by
  have hflat : (bs ++ [b]).flatMap Block.bytes = bs.flatMap Block.bytes ++ b.bytes := by simp
  rw [hflat, List.length_append] at hlen
  refine ⟨?_, ?_, ?_, ?_, ?_, ?_⟩
  · rw [hflat, List.length_append]
    show u32 (s.currentPos + u32 b.bytes.length) = _
    rw [u32_of_lt (show b.bytes.length < 2 ^ 32 by omega), h.pos, u32_of_lt hlen]
  · show s.recordCount + 1 = _
    rw [h.count, List.length_append, UInt64.ofNat_add]
    rfl
  · simp [ScanState.accept, lastOffsetOf, recordsOf]
  · show (if s.maxTimestampMs < b.record.timestampMs then _ else _) = _
    rw [h.maxTs]
    simp only [recordsOf, List.map_append]
    exact (maxTimestamp_snoc _ _).symm
  · rw [hflat, Crc32.update_append, ← h.crc]
    rfl
  · simp [ScanState.accept, nextOffsetOf, recordsOf]

theorem scanCounts_acceptAll (interval : UInt32) (hlen : (bs.flatMap Block.bytes).length < 2 ^ 32) :
    ScanCounts base bs ((ScanState.start base).acceptAll base interval bs) := by
  induction bs using List.reverseRecOn with
  | nil => exact scanCounts_start base
  | append_singleton bs b ih =>
    rw [ScanState.acceptAll_snoc]
    refine (ih ?_).accept interval hlen
    rw [List.flatMap_append, List.length_append] at hlen
    omega

/-! ## Logs made of encoded records -/

/-- Records the format has room for: the limit is on the length field. -/
def Record.Encodable (r : Record) : Prop := 24 + r.key.length + r.value.length ≤ maxRecordSize

theorem Record.Encodable.size_le (h : r.Encodable) : r.size ≤ maxRecordSize + 4 := by
  unfold Record.Encodable at h
  unfold Record.size
  omega

theorem Record.Encodable.size_lt (h : r.Encodable) : r.size < 2 ^ 32 := by
  have hle := h.size_le
  unfold maxRecordSize at hle
  omega

theorem Record.Fits.encodable (h : r.Fits) : r.Encodable := by
  unfold Record.Fits Record.size at h
  unfold Record.Encodable
  omega

def Record.block (r : Record) : Block := ⟨r, RecordCodec.encode r⟩

theorem Record.Encodable.valid (h : r.Encodable) : r.block.Valid := by
  have hlen := RecordCodec.length_encode h.size_lt
  have hfield := RecordCodec.readU32_encode_of_lt h.size_lt []
  rw [List.append_nil] at hfield
  have hle := h.size_le
  have hmin := min_size r
  have hread : readU32 r.block.bytes = r.size - 4 := hfield
  refine ⟨?_, ?_, ?_, ?_⟩
  · rw [hread]
    omega
  · rw [hread]
    omega
  · rw [hread]
    show (RecordCodec.encode r).length = _
    omega
  · have h0 := RecordCodec.decode_encode_of_le hle []
    rwa [List.append_nil] at h0

theorem flatMap_block (rs : List Record) :
    (rs.map Record.block).flatMap Block.bytes = encodeAll rs := by
  rw [List.flatMap_map]
  rfl

/-- An interrupted write leaves no block: the length field asks for more bytes
than there are. -/
theorem nextBlock_torn (hr : r.Encodable) (hpre : tail <+: RecordCodec.encode r)
    (hlt : tail.length < r.size) (b : Block) (rest : Bytes) :
    nextBlock tail ≠ .item b rest := by
  intro h
  obtain ⟨hb, rfl⟩ := nextBlock_item_iff.mp h
  obtain ⟨hmin, -⟩ := hb.length_le
  have hlength := hb.length
  obtain ⟨q, hq⟩ := hpre
  have hfield := RecordCodec.readU32_encode_of_lt hr.size_lt []
  rw [List.append_nil, ← hq, List.append_assoc, readU32_append (by omega)] at hfield
  rw [List.length_append] at hlt
  omega

/-- **The blocks of a log of records** with a torn one behind them. -/
theorem blocksOf_encodeAll (hrs : ∀ r ∈ rs, r.Encodable)
    (htail : ∀ b rest, nextBlock tail ≠ .item b rest) :
    blocksOf (encodeAll rs ++ tail) = rs.map Record.block := by
  have hvalid : ∀ b ∈ rs.map Record.block, b.Valid := by
    intro b hb
    obtain ⟨r, hr, rfl⟩ := List.mem_map.mp hb
    exact (hrs r hr).valid
  have h := blocksOf_flatMap_append hvalid tail
  rw [flatMap_block, (blocksOf_of_no_item htail).1, List.append_nil] at h
  exact h

theorem nextBlock_nil (b : Block) (rest : Bytes) : nextBlock [] ≠ .item b rest := by
  simp [nextBlock]

theorem Torn.no_item (h : Torn tail) (b : Block) (rest : Bytes) :
    nextBlock tail ≠ .item b rest := by
  rcases h with rfl | ⟨r, hr, hpre, hlt⟩
  · exact nextBlock_nil b rest
  · exact nextBlock_torn hr.encodable hpre hlt b rest

theorem scanGood_acceptAll (interval : UInt32) (hcons : Consecutive base.toNat rs)
    (hlen : (encodeAll rs).length < 2 ^ 32) :
    ScanGood base rs ((ScanState.start base).acceptAll base interval (rs.map Record.block)) := by
  induction rs using List.reverseRecOn with
  | nil => exact ScanGood.start base
  | append_singleton rs r ih =>
    have hbefore : (encodeAll rs).length < 2 ^ 32 := by
      rw [encodeAll_append, List.length_append] at hlen
      omega
    have hcons' := hcons.take rs.length
    rw [List.take_left] at hcons'
    rw [List.map_append, List.map_singleton, ScanState.acceptAll_snoc]
    exact (ih hcons' hbefore).accept (hcons rs.length r (by simp)) hlen interval

/-- **A scan finds the whole records**, and reports a corruption exactly when
something is left behind them. -/
theorem scan_spec (hfile : content fs seg.logFile = encodeAll rs ++ tail) (htorn : Torn tail)
    (hfits : ∀ r ∈ rs, r.Fits) (hcons : Consecutive seg.baseOffset.toNat rs)
    (hlen : (encodeAll rs ++ tail).length < 2 ^ 32) :
    ∃ s, seg.scan fs = (s, decide (tail ≠ [])) ∧ ScanGood seg.baseOffset rs s := by
  have hblocks := blocksOf_encodeAll (fun r hr => (hfits r hr).encodable) htorn.no_item
  have hcut : cutOf (encodeAll rs ++ tail) = tail := by
    have hsplit := kept_append_cut (encodeAll rs ++ tail)
    rw [keptOf, hblocks, flatMap_block] at hsplit
    exact List.append_cancel_left hsplit
  have hscan := scan_eq hfile hlen
  rw [hblocks, hcut] at hscan
  rw [List.length_append] at hlen
  exact ⟨_, hscan, scanGood_acceptAll _ hcons (by omega)⟩

@[simp] theorem recordsOf_map_block (rs : List Record) : recordsOf (rs.map Record.block) = rs := by
  simp [recordsOf, Record.block, Function.comp_def]

theorem encodeAll_injective {rs' : List Record} (hrs : ∀ r ∈ rs, r.Encodable)
    (hrs' : ∀ r ∈ rs', r.Encodable) (h : encodeAll rs = encodeAll rs') : rs = rs' := by
  have h1 := blocksOf_encodeAll hrs nextBlock_nil
  have h2 := blocksOf_encodeAll hrs' nextBlock_nil
  rw [h, h2] at h1
  have hrecords := congrArg recordsOf h1
  rwa [recordsOf_map_block, recordsOf_map_block, eq_comm] at hrecords

end StreamForge
