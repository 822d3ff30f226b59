import StreamForge.Foundation.BigEndian
import StreamForge.Storage.Base

/-!
# Records on disk

`Crc32` and `RecordCodec`: the checksum and the layout of one record in a
`.log` file.

A record is a 28-byte header (length, checksum, offset, timestamp, key
length) followed by the key and the value; the length field counts everything
after itself and the checksum covers everything after the checksum field. The
results used later are `decode_encode` (what was written is read back, and the
bytes after it do not matter) and `readU32_encode` (the length field can be
read before the rest is known to be there).
-/

namespace StreamForge

open BigEndian

/-! ## CRC-32 -/

namespace Crc32

def initialCrc : UInt32 := 0xFFFFFFFF

/-- One round of the table construction. -/
def tableRound (crc : UInt32) : UInt32 :=
  if crc &&& 1 ≠ 0 then (crc >>> 1) ^^^ 0xEDB88320 else crc >>> 1

def getTable : List UInt32 := (List.range 256).map fun i => tableRound^[8] (UInt32.ofNat i)

def update (raw : UInt32) (data : Bytes) : UInt32 :=
  data.foldl (fun raw b =>
    (raw >>> 8) ^^^ getTable.getD ((raw ^^^ b.toUInt32) &&& 0xFF).toNat 0) raw

def finalize (raw : UInt32) : UInt32 := raw ^^^ 0xFFFFFFFF

def calculate (data : Bytes) : UInt32 := finalize (update initialCrc data)

end Crc32

/-! ## Fields -/

/-- The source swaps the bytes and copies the result out on a little-endian
host: big-endian on the wire. -/
def readU32 (buffer : Bytes) : ℕ := ofBE (buffer.take 4)
def writeU32 (value : ℕ) : Bytes := toBE 4 value
def readU64 (buffer : Bytes) : ℕ := ofBE (buffer.take 8)
def writeU64 (value : ℕ) : Bytes := toBE 8 value

@[simp] theorem length_writeU32 (n : ℕ) : (writeU32 n).length = 4 := length_toBE 4 n
@[simp] theorem length_writeU64 (n : ℕ) : (writeU64 n).length = 8 := length_toBE 8 n

theorem readU32_writeU32 {n : ℕ} (h : n < 2 ^ 32) (rest : Bytes) :
    readU32 (writeU32 n ++ rest) = n := by
  rw [readU32, List.take_left' (length_writeU32 n)]
  exact ofBE_toBE_of_lt (by norm_num at h ⊢; exact h)

theorem readU64_writeU64 (n : UInt64) (rest : Bytes) :
    readU64 (writeU64 n.toNat ++ rest) = n.toNat := by
  rw [readU64, List.take_left' (length_writeU64 _)]
  have h := n.toNat_lt
  exact ofBE_toBE_of_lt (by norm_num at h ⊢; exact h)

theorem readU32_append {xs : Bytes} (h : 4 ≤ xs.length) (ys : Bytes) :
    readU32 (xs ++ ys) = readU32 xs := by
  unfold readU32
  rw [List.take_append_of_le_length h]

theorem readU32_lt (buffer : Bytes) : readU32 buffer < 2 ^ 32 := by
  have hlt := ofBE_lt (buffer.take 4)
  have hlen : (buffer.take 4).length ≤ 4 := by simp
  calc readU32 buffer < 256 ^ (buffer.take 4).length := hlt
    _ ≤ 256 ^ 4 := Nat.pow_le_pow_right (by norm_num) hlen
    _ = 2 ^ 32 := by norm_num

/-! ## Records -/

structure Record where
  offset : UInt64 := 0
  timestampMs : Int64 := 0
  key : Bytes := []
  value : Bytes := []
deriving DecidableEq

def Record.size (r : Record) : ℕ := 28 + r.key.length + r.value.length

def Record.Fits (r : Record) : Prop := r.size ≤ maxRecordSize

namespace RecordCodec

/-- `RecordCodec::encode`. From `|key| + |value| ≥ 2^32 - 28` on the source's
buffer is too small for what it copies into it; below that the two lengths and
their sum are exact. -/
def encode (r : Record) : Bytes :=
  let keyLen := u32 r.key.length
  let valueLen := u32 r.value.length
  let length := u32 (24 + keyLen + valueLen)
  let body := writeU64 r.offset.toNat ++ writeU64 r.timestampMs.toUInt64.toNat ++
    writeU32 keyLen ++ r.key.take keyLen ++ r.value.take valueLen
  let crc := Crc32.calculate (body.take (length - 4))
  writeU32 length ++ writeU32 crc.toNat ++ body

def decode (buffer : Bytes) : Except Status Record :=
  if buffer.length < 28 then
    .error (.corrupt (ascii "Buffer size less than record header size (28 bytes)"))
  else
    let length := readU32 buffer
    if length < 24 then
      .error (.corrupt (ascii "Invalid record length field: " ++ toString length))
    else if length > maxRecordSize then
      .error (.recordTooLarge (ascii "Record length " ++ toString length ++
        ascii " exceeds maximum limit of 1 MiB"))
    else if buffer.length < u32 (4 + length) then
      .error (.corrupt (ascii "Incomplete record payload buffer"))
    else
      let storedCrc := readU32 (buffer.drop 4)
      let computedCrc := (Crc32.calculate ((buffer.drop 8).take (length - 4))).toNat
      if storedCrc ≠ computedCrc then
        .error (.corrupt (ascii "CRC mismatch. Stored: " ++ toString storedCrc ++
          ascii ", computed: " ++ toString computedCrc))
      else
        let keyLen := readU32 (buffer.drop 24)
        -- the sum is a `uint32_t`: a key length near 2^32 passes this test
        if u32 (24 + keyLen) > length then
          .error (.corrupt (ascii "Invalid key length in record header"))
        else
          let valueLen := sub32 (sub32 length 24) keyLen
          .ok {
            offset := UInt64.ofNat (readU64 (buffer.drop 8))
            timestampMs := (UInt64.ofNat (readU64 (buffer.drop 16))).toInt64
            key := (buffer.drop 28).take keyLen
            value := (buffer.drop (28 + keyLen)).take valueLen }

/-! ## The layout of a record that fits -/

def payload (r : Record) : Bytes :=
  writeU64 r.offset.toNat ++ writeU64 r.timestampMs.toUInt64.toNat ++
    writeU32 r.key.length ++ r.key ++ r.value

theorem length_payload (r : Record) : (payload r).length = r.size - 8 := by
  simp only [payload, Record.size, List.length_append, length_writeU32, length_writeU64]
  omega

variable {r : Record}

theorem encode_eq (h : r.size < 2 ^ 32) :
    encode r = writeU32 (r.size - 4) ++ writeU32 (Crc32.calculate (payload r)).toNat ++
      payload r := by
  have hk : u32 r.key.length = r.key.length := u32_of_lt (by unfold Record.size at h; omega)
  have hv : u32 r.value.length = r.value.length := u32_of_lt (by unfold Record.size at h; omega)
  have hl : u32 (24 + r.key.length + r.value.length) = r.size - 4 := by
    rw [u32_of_lt (by unfold Record.size at h; omega)]
    unfold Record.size
    omega
  have hbody : (payload r).take (r.size - 4 - 4) = payload r := by
    apply List.take_of_length_le
    rw [length_payload]
    omega
  simp only [encode, hk, hv, hl, List.take_length]
  rw [show writeU64 r.offset.toNat ++ writeU64 r.timestampMs.toUInt64.toNat ++
    writeU32 r.key.length ++ r.key ++ r.value = payload r from rfl, hbody]

theorem length_encode (h : r.size < 2 ^ 32) : (encode r).length = r.size := by
  rw [encode_eq h, List.length_append, List.length_append, length_payload, length_writeU32,
    length_writeU32]
  unfold Record.size
  omega

theorem size_lt_of_fits (h : r.Fits) : r.size < 2 ^ 32 := by
  unfold Record.Fits maxRecordSize at h
  omega

theorem length_encode_of_fits (h : r.Fits) : (encode r).length = r.size :=
  length_encode (size_lt_of_fits h)

theorem readU32_encode_of_lt (h : r.size < 2 ^ 32) (rest : Bytes) :
    readU32 (encode r ++ rest) = r.size - 4 := by
  rw [encode_eq h, List.append_assoc, List.append_assoc]
  exact readU32_writeU32 (by omega) _

theorem readU32_encode (h : r.Fits) (rest : Bytes) : readU32 (encode r ++ rest) = r.size - 4 :=
  readU32_encode_of_lt (size_lt_of_fits h) rest

theorem drop_field {a b c : Bytes} {m n : ℕ} (h : a.drop m = b ++ c) (hb : b.length = n) :
    a.drop (m + n) = c := by
  rw [← List.drop_drop, h, List.drop_left' hb]

section Layout

variable {r : Record} (h : r.size < 2 ^ 32) (tail : Bytes)
include h

theorem drop4_encode : (encode r ++ tail).drop 4 =
    writeU32 (Crc32.calculate (payload r)).toNat ++ (payload r ++ tail) := by
  have h0 : (encode r ++ tail).drop 0 = writeU32 (r.size - 4) ++
      (writeU32 (Crc32.calculate (payload r)).toNat ++ (payload r ++ tail)) := by
    rw [List.drop_zero, encode_eq h, List.append_assoc, List.append_assoc]
  exact drop_field h0 (length_writeU32 _)

theorem drop8_encode : (encode r ++ tail).drop 8 = payload r ++ tail :=
  drop_field (drop4_encode h tail) (length_writeU32 _)

theorem drop16_encode : (encode r ++ tail).drop 16 = writeU64 r.timestampMs.toUInt64.toNat ++
    (writeU32 r.key.length ++ (r.key ++ (r.value ++ tail))) := by
  have h8 : (encode r ++ tail).drop 8 = writeU64 r.offset.toNat ++
      (writeU64 r.timestampMs.toUInt64.toNat ++
        (writeU32 r.key.length ++ (r.key ++ (r.value ++ tail)))) := by
    rw [drop8_encode h]
    simp only [payload, List.append_assoc]
  exact drop_field h8 (length_writeU64 _)

theorem drop24_encode : (encode r ++ tail).drop 24 =
    writeU32 r.key.length ++ (r.key ++ (r.value ++ tail)) :=
  drop_field (drop16_encode h tail) (length_writeU64 _)

theorem drop28_encode : (encode r ++ tail).drop 28 = r.key ++ (r.value ++ tail) :=
  drop_field (drop24_encode h tail) (length_writeU32 _)

theorem keyLen_encode : readU32 ((encode r ++ tail).drop 24) = r.key.length := by
  rw [drop24_encode h]
  exact readU32_writeU32 (by unfold Record.size at h; omega) _

end Layout

/-- **What was written is read back**, whatever follows it in the buffer. The
limit is on the length field, which does not count itself. -/
theorem decode_encode_of_le (h : r.size ≤ maxRecordSize + 4) (tail : Bytes) :
    decode (encode r ++ tail) = .ok r := by
  have hs : r.size < 2 ^ 32 := by unfold maxRecordSize at h; omega
  have hlen := length_encode hs
  have hmin : 28 ≤ r.size := by unfold Record.size; omega
  have hbuf : (encode r ++ tail).length = r.size + tail.length := by
    rw [List.length_append, hlen]
  -- the values the checks look at
  have hread : readU32 (encode r ++ tail) = r.size - 4 := readU32_encode_of_lt hs tail
  have hcrc : readU32 ((encode r ++ tail).drop 4) = (Crc32.calculate (payload r)).toNat := by
    rw [drop4_encode hs]
    exact readU32_writeU32 (Crc32.calculate (payload r)).toNat_lt _
  have hbody : ((encode r ++ tail).drop 8).take (r.size - 4 - 4) = payload r := by
    rw [drop8_encode hs]
    apply List.take_left'
    rw [length_payload]
    omega
  have hkey := keyLen_encode hs tail
  have hoff : readU64 ((encode r ++ tail).drop 8) = r.offset.toNat := by
    rw [drop8_encode hs]
    simp only [payload, List.append_assoc]
    exact readU64_writeU64 r.offset _
  have hts : readU64 ((encode r ++ tail).drop 16) = r.timestampMs.toUInt64.toNat := by
    rw [drop16_encode hs]
    exact readU64_writeU64 r.timestampMs.toUInt64 _
  have hval := drop_field (drop28_encode hs tail) rfl
  have hkv : u32 (24 + r.key.length) = 24 + r.key.length :=
    u32_of_lt (by unfold Record.size at hs; omega)
  have htotal : u32 (4 + (r.size - 4)) = r.size := by
    rw [u32_of_lt (by omega)]
    omega
  have hvl : sub32 (sub32 (r.size - 4) 24) r.key.length = r.value.length := by
    have hsz : r.size = 28 + r.key.length + r.value.length := rfl
    have hbody : sub32 (r.size - 4) 24 = r.size - 28 := by
      rw [sub32_of_le (by omega) (by omega)]
      omega
    rw [hbody, sub32_of_le (by omega) (by omega)]
    omega
  unfold decode
  rw [if_neg (by omega)]
  simp only [hread]
  rw [if_neg (by omega), if_neg (by omega), htotal, if_neg (by omega), hcrc, hbody,
    if_neg (by simp), hkey, hkv, if_neg (by unfold Record.size; omega), hoff, hts, hvl,
    drop28_encode hs, hval]
  simp

theorem decode_encode (h : r.Fits) (tail : Bytes) : decode (encode r ++ tail) = .ok r :=
  decode_encode_of_le (Nat.le_add_right_of_le h) tail

end RecordCodec

end StreamForge
