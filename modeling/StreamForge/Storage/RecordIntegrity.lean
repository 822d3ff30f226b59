import StreamForge.Foundation.ShiftRegister
import StreamForge.Storage.LogBlocks
import StreamForge.Storage.SegmentOps

/-!
# What a stored record guarantees

A record that was written is read back, whatever follows it; a part of it is never
taken for a record; so a log says where its records begin and end
(`record_encoding_roundtrip`). The checksum is the CRC-32 of its definition, bit by
bit, and can be taken piece by piece (`calculate_eq_bitSerial`).

A record that was changed is refused as long as the change stays within four bytes
on one side of the checksum field's end (`burst_is_corrupt`): `Crc32` is a shift
register of 32 bits whose polynomial has its highest bit set, and such a register
tells two inputs apart that differ in no more bits in a row than it has.
-/

namespace StreamForge

/-! ## The checksum as a shift register -/

namespace Crc32

def polynomial : BitVec 32 := 0xEDB88320#32

theorem tableRound_toBitVec (crc : UInt32) :
    (tableRound crc).toBitVec = ShiftRegister.round polynomial crc.toBitVec := by
  have hbit : (crc &&& 1).toBitVec = BitVec.setWidth 32 (BitVec.ofBool (crc.toBitVec.getLsbD 0)) :=
    BitVec.and_one_eq_setWidth_ofBool_getLsbD
  have hzero : crc &&& 1 ≠ 0 ↔ crc.toBitVec.getLsbD 0 = true := by
    rw [← UInt32.toBitVec_inj.ne, hbit]
    cases crc.toBitVec.getLsbD 0 <;> decide
  unfold tableRound ShiftRegister.round
  by_cases hodd : crc.toBitVec.getLsbD 0 = true
  · rw [if_pos (hzero.mpr hodd), if_pos hodd]
    rfl
  · rw [if_neg (mt hzero.mp hodd), if_neg hodd]
    rfl

theorem tableRounds_toBitVec (n : ℕ) (crc : UInt32) :
    (tableRound^[n] crc).toBitVec = (ShiftRegister.round polynomial)^[n] crc.toBitVec := by
  induction n with
  | zero => rfl
  | succ n ih =>
    rw [Function.iterate_succ_apply', Function.iterate_succ_apply', tableRound_toBitVec, ih]

theorem getTable_getD {i : ℕ} (h : i < 256) :
    getTable.getD i 0 = tableRound^[8] (UInt32.ofNat i) := by
  simp [getTable, List.getD_eq_getElem?_getD, h]

theorem update_byte (raw : UInt32) (b : UInt8) :
    ((raw >>> 8) ^^^ getTable.getD ((raw ^^^ b.toUInt32) &&& 0xFF).toNat 0).toBitVec =
      (ShiftRegister.round polynomial)^[8] (raw.toBitVec ^^^ ShiftRegister.low b) := by
  have hindex : ((raw ^^^ b.toUInt32) &&& 0xFF).toNat < 256 := by
    rw [UInt32.toNat_and]
    exact Nat.lt_of_le_of_lt Nat.and_le_right (by decide)
  have hhigh : (raw.toBitVec ^^^ ShiftRegister.low b) >>> 8 = raw.toBitVec >>> 8 := by
    apply BitVec.eq_of_getLsbD_eq
    intro i _
    rw [BitVec.getLsbD_ushiftRight, BitVec.getLsbD_xor, BitVec.getLsbD_ushiftRight,
      ShiftRegister.getLsbD_low_of_ge b (Nat.le_add_right 8 i), Bool.xor_false]
  rw [getTable_getD hindex, UInt32.ofNat_toNat, UInt32.toBitVec_xor, tableRounds_toBitVec,
    ShiftRegister.rounds_eight polynomial (raw.toBitVec ^^^ _), hhigh]
  rfl

/-- **The checksum loop is the shift register.** -/
theorem update_toBitVec (raw : UInt32) (data : Bytes) :
    (update raw data).toBitVec = ShiftRegister.feed polynomial raw.toBitVec data := by
  induction data generalizing raw with
  | nil => rfl
  | cons b data ih => rw [ShiftRegister.feed_cons, ← update_byte, ← ih]; rfl

/-- **CRC-32 by definition**: all ones at first, one bit of the data after the other,
and every bit turned over at the end. -/
def bitSerial (data : Bytes) : UInt32 :=
  ⟨ShiftRegister.serial polynomial 0xFFFFFFFF#32 data ^^^ 0xFFFFFFFF#32⟩

theorem runningCrcRaw_appended (rs : List Record) (seg : LogSegment) :
    (rs.foldl LogSegment.appended seg).runningCrcRaw = update seg.runningCrcRaw (encodeAll rs) := by
  induction rs generalizing seg with
  | nil => rfl
  | cons r rs ih =>
    rw [List.foldl_cons, ih, LogSegment.appended_runningCrcRaw, ← update_append]
    rfl

/-- **The table computes the bit-serial checksum**, and pieces can be checked one after
the other: so a segment knows the checksum of its log without reading it. -/
theorem calculate_eq_bitSerial :
    (∀ data, calculate data = bitSerial data) ∧
      (∀ raw a b, update (update raw a) b = update raw (a ++ b)) ∧
      ∀ (seg : LogSegment) (rs : List Record),
        (rs.foldl LogSegment.appended seg).runningCrcRaw =
          update seg.runningCrcRaw (encodeAll rs) := by
  refine ⟨fun data => ?_, fun raw a b => (update_append raw a b).symm,
    fun seg rs => runningCrcRaw_appended rs seg⟩
  apply UInt32.toBitVec_inj.mp
  show (update initialCrc data).toBitVec ^^^ 0xFFFFFFFF#32 = _
  rw [update_toBitVec, ShiftRegister.feed_eq_serial polynomial (by decide)]
  rfl

/-- The check value of CRC-32. -/
example : calculate (ascii "123456789") = 0xCBF43926 := by decide +kernel

theorem calculate_burst {a b : Bytes} (hlen : a.length = b.length) (hfour : a.length ≤ 4)
    (pre post : Bytes) (h : calculate (pre ++ a ++ post) = calculate (pre ++ b ++ post)) :
    a = b := by
  have hraw : update initialCrc (pre ++ a ++ post) = update initialCrc (pre ++ b ++ post) :=
    UInt32.xor_left_inj _ |>.mp h
  have hbits := congrArg UInt32.toBitVec hraw
  rw [update_toBitVec, update_toBitVec] at hbits
  exact ShiftRegister.feed_burst polynomial rfl hlen (by omega) _ pre post hbits

end Crc32

/-! ## Whole records -/

namespace RecordCodec

/-- The encoding of a record is read back whatever follows it, and no part of it is
taken for a record. -/
structure SelfDelimiting (r : Record) : Prop where
  readBack : ∀ tail, decode (encode r ++ tail) = .ok r
  whole : ∀ part, part <+: encode r → part ≠ encode r → ∃ st, decode part = .error st

theorem selfDelimiting_of_fits {r : Record} (h : r.Fits) : SelfDelimiting r := by
  refine ⟨decode_encode h, ?_⟩
  rintro part hpre hne
  apply (refused_of_not_checked _).1
  intro hchecked
  -- the length field is there and asks for the whole record
  obtain ⟨rest, hrest⟩ := hpre
  have hfield : readU32 part = r.size - 4 := by
    have hheader := hchecked.header
    rw [← readU32_append (by omega) rest, hrest, ← List.append_nil (encode r)]
    exact readU32_encode h []
  have hmin : 28 ≤ r.size := min_size r
  have hwhole := hchecked.whole
  have hsplit : part.length + rest.length = r.size := by
    rw [← List.length_append, hrest, length_encode_of_fits h]
  have hnil : rest = [] := List.length_eq_zero_iff.mp (by omega)
  rw [hnil, List.append_nil] at hrest
  exact hne hrest

end RecordCodec

/-- A log of these records says what they are: the scan finds them and nothing else, and
no other records have the same log. -/
structure SplitsBack (rs : List Record) : Prop where
  records : recordsOf (blocksOf (encodeAll rs)) = rs
  rest : cutOf (encodeAll rs) = []
  unique : ∀ rs', (∀ r ∈ rs', r.Fits) → encodeAll rs' = encodeAll rs → rs' = rs

theorem splits_of_fits {rs : List Record} (h : ∀ r ∈ rs, r.Fits) : SplitsBack rs := by
  have hblocks : blocksOf (encodeAll rs) = rs.map Record.block := by
    have := blocksOf_encodeAll (fun r hr => (h r hr).encodable) nextBlock_nil
    rwa [List.append_nil] at this
  refine ⟨?_, ?_, ?_⟩
  · rw [hblocks, recordsOf_map_block]
  · rw [cutOf_eq_nil_iff, keptOf, hblocks, flatMap_block]
  · intro rs' hrs' hlog
    exact encodeAll_injective (fun r hr => (hrs' r hr).encodable)
      (fun r hr => (h r hr).encodable) hlog

/-- **Record encoding round-trips and is self-delimiting**, so that logs split back
into their records. -/
theorem record_encoding_roundtrip :
    (∀ r : Record, 28 + r.key.length + r.value.length ≤ maxRecordSize →
      RecordCodec.SelfDelimiting r) ∧
    ∀ rs : List Record, (∀ r ∈ rs, 28 + r.key.length + r.value.length ≤ maxRecordSize) →
      SplitsBack rs :=
  ⟨fun _ h => RecordCodec.selfDelimiting_of_fits h, fun _ h => splits_of_fits h⟩

/-- A record with a key and no value, written before 1970. -/
def earlyRecord : Record := { offset := 7, timestampMs := -1, key := [107], value := [] }

theorem record_encoding_roundtrip_early :
    RecordCodec.SelfDelimiting earlyRecord ∧ SplitsBack [earlyRecord, {}] := by
  refine ⟨record_encoding_roundtrip.1 earlyRecord (by decide), ?_⟩
  refine record_encoding_roundtrip.2 [earlyRecord, {}] ?_
  decide

/-! ## Changed records -/

/-- The new string is as long as the old one and differs from it, but only within `n`
bytes from `pos` on. -/
structure ChangedWithin (pos n : ℕ) (old new : Bytes) : Prop where
  length : new.length = old.length
  before : new.take pos = old.take pos
  behind : new.drop (pos + n) = old.drop (pos + n)
  changed : new ≠ old

theorem ChangedWithin.split {pos n : ℕ} {old new : Bytes} (h : ChangedWithin pos n old new) :
    ∃ pre a b post, old = pre ++ a ++ post ∧ new = pre ++ b ++ post ∧
      a.length = b.length ∧ a.length ≤ n ∧ a ≠ b := by
  have hold : old = old.take pos ++ (old.drop pos).take n ++ old.drop (pos + n) := by
    rw [List.append_assoc, ← List.drop_drop, List.take_append_drop, List.take_append_drop]
  have hnew : new = old.take pos ++ (new.drop pos).take n ++ old.drop (pos + n) := by
    rw [← h.before, ← h.behind, List.append_assoc, ← List.drop_drop, List.take_append_drop,
      List.take_append_drop]
  refine ⟨_, _, _, _, hold, hnew, ?_, ?_, ?_⟩
  · rw [List.length_take, List.length_take, List.length_drop, List.length_drop, h.length]
  · exact List.length_take_le _ _
  · intro hsame
    apply h.changed
    rw [hnew, ← hsame]
    exact hold.symm

namespace RecordCodec

theorem decode_of_wrong_crc {buffer : Bytes} (hheader : 28 ≤ buffer.length)
    (hleast : 24 ≤ readU32 buffer) (hmost : readU32 buffer ≤ maxRecordSize)
    (hwhole : 4 + readU32 buffer ≤ buffer.length)
    (hcrc : readU32 (buffer.drop 4) ≠
      (Crc32.calculate ((buffer.drop 8).take (readU32 buffer - 4))).toNat) :
    ∃ msg, decode buffer = .error (.corrupt msg) := by
  have htotal : u32 (4 + readU32 buffer) = 4 + readU32 buffer := by
    unfold maxRecordSize at hmost
    exact u32_of_lt (by omega)
  unfold decode
  rw [if_neg (by omega)]
  dsimp only
  rw [if_neg (by omega), if_neg (by omega), htotal, if_neg (by omega), if_pos hcrc]
  exact ⟨_, rfl⟩

section Changed

variable {r : Record} {buffer : Bytes} (h : r.Fits) (hlen : buffer.length = (encode r).length)
include h hlen

/-- As long as the length field is the old one, a buffer of the old length is refused
unless its checksum is right. -/
theorem corrupt_of_wrong_crc (hfield : buffer.take 4 = (encode r).take 4)
    (hcrc : readU32 (buffer.drop 4) ≠ (Crc32.calculate (buffer.drop 8)).toNat) :
    ∃ msg, decode buffer = .error (.corrupt msg) := by
  have hsize := length_encode_of_fits h
  have hmin : 28 ≤ r.size := min_size r
  have hread : readU32 buffer = r.size - 4 := by
    have hencoded := readU32_encode h []
    rw [List.append_nil] at hencoded
    rw [← hencoded, readU32, hfield]
    rfl
  have hfits : r.size ≤ maxRecordSize := h
  have hall : (buffer.drop 8).take (readU32 buffer - 4) = buffer.drop 8 := by
    apply List.take_of_length_le
    rw [List.length_drop]
    omega
  refine decode_of_wrong_crc ?_ ?_ ?_ ?_ ?_
  · omega
  · omega
  · omega
  · omega
  · rwa [hall]

theorem corrupt_of_crc_field {pos n : ℕ} (hpos : 4 ≤ pos) (hn : pos + n ≤ 8)
    (hchange : ChangedWithin pos n (encode r) buffer) :
    ∃ msg, decode buffer = .error (.corrupt msg) := by
  have hsize := length_encode_of_fits h
  have hmin : 28 ≤ r.size := min_size r
  have hfield : buffer.take 4 = (encode r).take 4 := by
    have := congrArg (List.take 4) hchange.before
    rwa [List.take_take, List.take_take, Nat.min_eq_left hpos] at this
  have hcovered : buffer.drop 8 = payload r := by
    have := congrArg (List.drop (8 - (pos + n))) hchange.behind
    rw [List.drop_drop, List.drop_drop, Nat.add_sub_cancel' hn] at this
    rw [this, ← List.append_nil (encode r), drop8_encode (size_lt_of_fits h), List.append_nil]
  apply corrupt_of_wrong_crc h hlen hfield
  rw [hcovered]
  intro hsame
  -- with the right checksum nothing would have changed
  apply hchange.changed
  have hstored : (buffer.drop 4).take 4 = writeU32 (Crc32.calculate (payload r)).toNat := by
    rw [← hsame]
    exact (writeU32_readU32 (by rw [List.length_drop]; omega)).symm
  have hlength : (encode r).take 4 = writeU32 (r.size - 4) := by
    rw [encode_eq (size_lt_of_fits h), List.append_assoc]
    exact List.take_left' (length_writeU32 _)
  rw [encode_eq (size_lt_of_fits h), ← hlength, ← hfield, ← hstored, ← hcovered, ← List.take_add,
    List.take_append_drop]

theorem corrupt_of_covered {pos n : ℕ} (hpos : 8 ≤ pos) (hn : n ≤ 4)
    (hchange : ChangedWithin pos n (encode r) buffer) :
    ∃ msg, decode buffer = .error (.corrupt msg) := by
  have hheader : buffer.take 8 = (encode r).take 8 := by
    have := congrArg (List.take 8) hchange.before
    rwa [List.take_take, List.take_take, Nat.min_eq_left hpos] at this
  have hfield : buffer.take 4 = (encode r).take 4 := by
    have := congrArg (List.take 4) hheader
    rwa [List.take_take, List.take_take] at this
  have hstored : readU32 (buffer.drop 4) = (Crc32.calculate (payload r)).toNat := by
    have hsame : (buffer.drop 4).take 4 = ((encode r).drop 4).take 4 := by
      rw [List.take_drop, List.take_drop, hheader]
    have hencoded := drop4_encode (size_lt_of_fits h) []
    rw [List.append_nil] at hencoded
    rw [readU32, hsame, hencoded]
    exact readU32_writeU32 (Crc32.calculate (payload r)).toNat_lt _
  have hpayload : payload r = (encode r).drop 8 := by
    have := drop8_encode (size_lt_of_fits h) []
    rw [List.append_nil, List.append_nil] at this
    exact this.symm
  have hcovered : ChangedWithin (pos - 8) n (payload r) (buffer.drop 8) := by
    rw [hpayload]
    refine ⟨?_, ?_, ?_, ?_⟩
    · rw [List.length_drop, List.length_drop, hlen]
    · rw [List.take_drop, List.take_drop, Nat.add_sub_cancel' hpos, hchange.before]
    · have hbehind := hchange.behind
      rw [List.drop_drop, List.drop_drop, show 8 + (pos - 8 + n) = pos + n by omega, hbehind]
    · intro hsame
      apply hchange.changed
      rw [← List.take_append_drop 8 buffer, hheader, hsame, List.take_append_drop]
  apply corrupt_of_wrong_crc h hlen hfield
  rw [hstored]
  intro hsame
  obtain ⟨pre, a, b, post, hold, hnew, hlength, hle, hne⟩ := hcovered.split
  rw [hold, hnew] at hsame
  exact hne (Crc32.calculate_burst hlength (hle.trans hn) pre post (UInt32.toNat_inj.mp hsame))

end Changed

end RecordCodec

/-- **Stored corruption up to four bytes is always caught**: a change within four
consecutive bytes of the checksum field, or of what lies behind it, makes `decode`
return `Corrupt`. -/
theorem burst_is_corrupt (r : Record) (hfits : 28 + r.key.length + r.value.length ≤ maxRecordSize)
    (buffer : Bytes) (pos n : ℕ) (hn : n ≤ 4) (hregion : 4 ≤ pos ∧ pos + n ≤ 8 ∨ 8 ≤ pos)
    (hchange : ChangedWithin pos n (RecordCodec.encode r) buffer) :
    ∃ msg, RecordCodec.decode buffer = .error (.corrupt msg) := by
  rcases hregion with ⟨hpos, hend⟩ | hpos
  · exact RecordCodec.corrupt_of_crc_field hfits hchange.length hpos hend hchange
  · exact RecordCodec.corrupt_of_covered hfits hchange.length hpos hn hchange

/-- The key of a record overwritten. -/
theorem burst_is_corrupt_key : ∃ msg,
    RecordCodec.decode ((RecordCodec.encode earlyRecord).take 28 ++ [108]) =
      .error (.corrupt msg) := by
  apply burst_is_corrupt earlyRecord (by decide) _ 28 1 (by decide) (Or.inr (by decide))
  refine ⟨?_, ?_, ?_, ?_⟩
  all_goals decide +kernel

end StreamForge
