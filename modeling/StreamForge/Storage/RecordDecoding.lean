import StreamForge.Storage.RecordCodec

/-!
# Decoding arbitrary bytes

`RecordCodec::decode` is given whatever a file holds. `reads` lists the ranges
of the buffer it looks at, in the order of the source, so that "inside the
buffer" can be said of each of them.

Up to the key length everything is checked before it is used. The key length
itself is only checked in a 32-bit sum: from 2^32 - 24 on the sum wraps, the
check passes, and the key is copied from behind the buffer. Apart from these
buffers (`KeyWraps`) decoding is exact: it accepts the buffers that begin with
an encoding, and returns the record that was encoded (`decodesExactly_iff`).
-/

namespace StreamForge

open BigEndian

/-! ## Fields read and written back -/

theorem writeU32_readU32 {bs : Bytes} (h : 4 ≤ bs.length) : writeU32 (readU32 bs) = bs.take 4 := by
  have hlen : (bs.take 4).length = 4 := by rw [List.length_take]; omega
  have hback := toBE_ofBE (bs.take 4)
  rwa [hlen] at hback

theorem writeU64_readU64 {bs : Bytes} (h : 8 ≤ bs.length) : writeU64 (readU64 bs) = bs.take 8 := by
  have hlen : (bs.take 8).length = 8 := by rw [List.length_take]; omega
  have hback := toBE_ofBE (bs.take 8)
  rwa [hlen] at hback

theorem readU64_lt (buffer : Bytes) : readU64 buffer < 2 ^ 64 := by
  have hlen : (buffer.take 8).length ≤ 8 := by simp
  calc readU64 buffer < 256 ^ (buffer.take 8).length := ofBE_lt _
    _ ≤ 256 ^ 8 := Nat.pow_le_pow_right (by norm_num) hlen
    _ = 2 ^ 64 := by norm_num

theorem take_then {bs : Bytes} (i m n : ℕ) :
    (bs.drop i).take m ++ (bs.drop (i + m)).take n = (bs.drop i).take (m + n) := by
  rw [List.take_add, List.drop_drop]

namespace RecordCodec

structure Access where
  pos : ℕ
  count : ℕ
deriving DecidableEq

def Access.Inside (size : ℕ) (a : Access) : Prop := a.count = 0 ∨ a.pos + a.count ≤ size

/-- The ranges `decode` reads: the length, then the checksum and what it covers,
then the other three fields of the header, then key and value. -/
def reads (buffer : Bytes) : List Access :=
  if buffer.length < 28 then []
  else
    let length := readU32 buffer
    if length < 24 then [⟨0, 4⟩]
    else if length > maxRecordSize then [⟨0, 4⟩]
    else if buffer.length < u32 (4 + length) then [⟨0, 4⟩]
    else
      let storedCrc := readU32 (buffer.drop 4)
      let computedCrc := (Crc32.calculate ((buffer.drop 8).take (length - 4))).toNat
      let checksum : List Access := [⟨0, 4⟩, ⟨4, 4⟩, ⟨8, length - 4⟩]
      if storedCrc ≠ computedCrc then checksum
      else
        let keyLen := readU32 (buffer.drop 24)
        let header : List Access := checksum ++ [⟨8, 8⟩, ⟨16, 8⟩, ⟨24, 4⟩]
        if u32 (24 + keyLen) > length then header
        else
          let valueLen := sub32 (sub32 length 24) keyLen
          header ++ [⟨28, keyLen⟩, ⟨28 + keyLen, valueLen⟩]

/-! ## The checks in front of the key -/

structure Checked (buffer : Bytes) : Prop where
  header : 28 ≤ buffer.length
  least : 24 ≤ readU32 buffer
  most : readU32 buffer ≤ maxRecordSize
  whole : 4 + readU32 buffer ≤ buffer.length
  crc : readU32 (buffer.drop 4) =
    (Crc32.calculate ((buffer.drop 8).take (readU32 buffer - 4))).toNat

def keyField (buffer : Bytes) : ℕ := readU32 (buffer.drop 24)

/-- The key length makes the 32-bit sum of the last check wrap. -/
def KeyWraps (buffer : Bytes) : Prop := Checked buffer ∧ 2 ^ 32 - 24 ≤ keyField buffer

def fields (buffer : Bytes) : Record where
  offset := UInt64.ofNat (readU64 (buffer.drop 8))
  timestampMs := (UInt64.ofNat (readU64 (buffer.drop 16))).toInt64
  key := (buffer.drop 28).take (keyField buffer)
  value := (buffer.drop (28 + keyField buffer)).take
    (sub32 (sub32 (readU32 buffer) 24) (keyField buffer))

section Checks

variable {buffer : Bytes}

theorem Checked.total (h : Checked buffer) : u32 (4 + readU32 buffer) = 4 + readU32 buffer := by
  have hmost := h.most
  unfold maxRecordSize at hmost
  exact u32_of_lt (by omega)

theorem decode_of_checked (h : Checked buffer) :
    decode buffer = if u32 (24 + keyField buffer) > readU32 buffer then
      .error (.corrupt (ascii "Invalid key length in record header")) else .ok (fields buffer) := by
  have hheader := h.header
  have hleast := h.least
  have hmost := h.most
  have hwhole := h.whole
  unfold decode
  rw [if_neg (by omega)]
  dsimp only
  rw [if_neg (by omega), if_neg (by omega), h.total, if_neg (by omega), if_neg (not_not.mpr h.crc)]
  rfl

theorem reads_of_checked (h : Checked buffer) :
    reads buffer = [⟨0, 4⟩, ⟨4, 4⟩, ⟨8, readU32 buffer - 4⟩, ⟨8, 8⟩, ⟨16, 8⟩, ⟨24, 4⟩] ++
      if u32 (24 + keyField buffer) > readU32 buffer then [] else
        [⟨28, keyField buffer⟩,
          ⟨28 + keyField buffer, sub32 (sub32 (readU32 buffer) 24) (keyField buffer)⟩] := by
  have hheader := h.header
  have hleast := h.least
  have hmost := h.most
  have hwhole := h.whole
  unfold reads
  rw [if_neg (by omega)]
  dsimp only
  rw [if_neg (by omega), if_neg (by omega), h.total, if_neg (by omega), if_neg (not_not.mpr h.crc)]
  unfold keyField
  split <;> rfl

theorem refused_of_not_checked (h : ¬Checked buffer) :
    (∃ st, decode buffer = .error st) ∧ ∀ a ∈ reads buffer, a.Inside buffer.length := by
  unfold decode reads
  by_cases hheader : buffer.length < 28
  · rw [if_pos hheader, if_pos hheader]
    exact ⟨⟨_, rfl⟩, by simp⟩
  have hinside : ∀ a ∈ ([⟨0, 4⟩] : List Access), a.Inside buffer.length := by
    rintro a ha
    rw [List.mem_singleton.mp ha]
    exact Or.inr (by show 0 + 4 ≤ _; omega)
  rw [if_neg hheader, if_neg hheader]
  dsimp only
  by_cases hleast : readU32 buffer < 24
  · rw [if_pos hleast, if_pos hleast]
    exact ⟨⟨_, rfl⟩, hinside⟩
  rw [if_neg hleast, if_neg hleast]
  by_cases hmost : readU32 buffer > maxRecordSize
  · rw [if_pos hmost, if_pos hmost]
    exact ⟨⟨_, rfl⟩, hinside⟩
  rw [if_neg hmost, if_neg hmost]
  have htotal : u32 (4 + readU32 buffer) = 4 + readU32 buffer := by
    unfold maxRecordSize at hmost
    exact u32_of_lt (by omega)
  rw [htotal]
  by_cases hwhole : buffer.length < 4 + readU32 buffer
  · rw [if_pos hwhole, if_pos hwhole]
    exact ⟨⟨_, rfl⟩, hinside⟩
  rw [if_neg hwhole, if_neg hwhole]
  have hcrc : readU32 (buffer.drop 4) ≠
      (Crc32.calculate ((buffer.drop 8).take (readU32 buffer - 4))).toNat := by
    intro heq
    exact h ⟨by omega, by omega, by omega, by omega, heq⟩
  rw [if_pos hcrc, if_pos hcrc]
  refine ⟨⟨_, rfl⟩, ?_⟩
  simp only [List.mem_cons, List.not_mem_nil, or_false, forall_eq_or_imp, forall_eq]
  exact ⟨Or.inr (by show 0 + 4 ≤ _; omega), Or.inr (by show 4 + 4 ≤ _; omega),
    Or.inr (by show 8 + (_ - 4) ≤ _; omega)⟩

theorem checked_of_decode {r : Record} (h : decode buffer = .ok r) : Checked buffer := by
  by_contra hnot
  obtain ⟨⟨st, hst⟩, -⟩ := refused_of_not_checked hnot
  rw [hst] at h
  cases h

/-! ## Key lengths that do not wrap -/

theorem keySum_of_lt (h : keyField buffer < 2 ^ 32 - 24) :
    u32 (24 + keyField buffer) = 24 + keyField buffer := u32_of_lt (by omega)

variable (hc : Checked buffer) (hkey : 24 + keyField buffer ≤ readU32 buffer)

include hc hkey

theorem valueLen_eq : sub32 (sub32 (readU32 buffer) 24) (keyField buffer) =
    readU32 buffer - 24 - keyField buffer := by
  have hlt := readU32_lt buffer
  rw [sub32_of_le hc.least hlt, sub32_of_le (by omega) (by omega)]

theorem length_fields_key : (fields buffer).key.length = keyField buffer := by
  have hwhole := hc.whole
  show ((buffer.drop 28).take (keyField buffer)).length = _
  rw [List.length_take, List.length_drop]
  omega

theorem length_fields_value :
    (fields buffer).value.length = readU32 buffer - 24 - keyField buffer := by
  have hwhole := hc.whole
  show ((buffer.drop (28 + keyField buffer)).take (sub32 _ _)).length = _
  rw [valueLen_eq hc hkey, List.length_take, List.length_drop]
  omega

theorem size_fields : (fields buffer).size = 4 + readU32 buffer := by
  have hleast := hc.least
  unfold Record.size
  rw [length_fields_key hc hkey, length_fields_value hc hkey]
  omega

theorem payload_fields : payload (fields buffer) = (buffer.drop 8).take (readU32 buffer - 4) := by
  have hwhole := hc.whole
  have hleast := hc.least
  have hoff : writeU64 (fields buffer).offset.toNat = (buffer.drop 8).take 8 := by
    show writeU64 (UInt64.ofNat (readU64 (buffer.drop 8))).toNat = _
    rw [UInt64.toNat_ofNat_of_lt' (readU64_lt _)]
    exact writeU64_readU64 (by rw [List.length_drop]; omega)
  have hts : writeU64 (fields buffer).timestampMs.toUInt64.toNat = (buffer.drop 16).take 8 := by
    show writeU64 (UInt64.ofNat (readU64 (buffer.drop 16))).toInt64.toUInt64.toNat = _
    rw [UInt64.toUInt64_toInt64, UInt64.toNat_ofNat_of_lt' (readU64_lt _)]
    exact writeU64_readU64 (by rw [List.length_drop]; omega)
  have hklen : writeU32 (fields buffer).key.length = (buffer.drop 24).take 4 := by
    rw [length_fields_key hc hkey]
    exact writeU32_readU32 (by rw [List.length_drop]; omega)
  have hvalue : (fields buffer).value =
      (buffer.drop (28 + keyField buffer)).take (readU32 buffer - 24 - keyField buffer) := by
    show (buffer.drop _).take (sub32 _ _) = _
    rw [valueLen_eq hc hkey]
  have hk : (fields buffer).key = (buffer.drop 28).take (keyField buffer) := rfl
  unfold payload
  rw [hoff, hts, hklen, hk, hvalue, take_then 8 8 8, take_then 8 16 4,
    take_then 8 20 (keyField buffer), show 28 + keyField buffer =
      8 + (20 + keyField buffer) by omega, take_then]
  congr 1
  omega

/-- **Encoding what was decoded** gives the bytes it was decoded from. -/
theorem encode_fields : encode (fields buffer) = buffer.take (4 + readU32 buffer) := by
  have hsize := size_fields hc hkey
  have hmost := hc.most
  have hheader := hc.header
  have hleast := hc.least
  have hlt : (fields buffer).size < 2 ^ 32 := by
    unfold maxRecordSize at hmost
    omega
  have hlen : writeU32 ((fields buffer).size - 4) = (buffer.drop 0).take 4 := by
    rw [hsize, Nat.add_sub_cancel_left]
    exact writeU32_readU32 (by omega)
  have hcrc : writeU32 (Crc32.calculate (payload (fields buffer))).toNat =
      (buffer.drop 4).take 4 := by
    rw [payload_fields hc hkey, ← hc.crc]
    exact writeU32_readU32 (by rw [List.length_drop]; omega)
  rw [encode_eq hlt, hlen, hcrc, payload_fields hc hkey, take_then 0 4 4, take_then 0 8,
    List.drop_zero]
  congr 1
  omega

theorem reads_inside : ∀ a ∈ reads buffer, a.Inside buffer.length := by
  have hwhole := hc.whole
  have hleast := hc.least
  have hlt := readU32_lt buffer
  rw [reads_of_checked hc, if_neg (by rw [keySum_of_lt (by omega)]; omega), valueLen_eq hc hkey]
  simp only [List.cons_append, List.nil_append, List.mem_cons, List.not_mem_nil, or_false,
    forall_eq_or_imp, forall_eq]
  refine ⟨Or.inr ?_, Or.inr ?_, Or.inr ?_, Or.inr ?_, Or.inr ?_, Or.inr ?_, Or.inr ?_, Or.inr ?_⟩
  all_goals
    dsimp only
    omega

end Checks

/-! ## Exactness -/

/-- What decoding is meant to be: it stays inside the buffer, a record it returns
encodes to the front of the buffer, and it returns one for every buffer that
begins with an encoding. -/
structure DecodesExactly (buffer : Bytes) : Prop where
  inside : ∀ a ∈ reads buffer, a.Inside buffer.length
  encodes : ∀ r, decode buffer = .ok r →
    28 + r.key.length + r.value.length = 4 + readU32 buffer ∧
      encode r = buffer.take (4 + readU32 buffer)
  accepts : (∃ r, decode buffer = .ok r) ↔
    ∃ r : Record, 24 + r.key.length + r.value.length ≤ maxRecordSize ∧ encode r <+: buffer

theorem decode_of_keyWraps {buffer : Bytes} (h : KeyWraps buffer) :
    decode buffer = .ok (fields buffer) ∧ ⟨28, keyField buffer⟩ ∈ reads buffer := by
  obtain ⟨hc, hkey⟩ := h
  have hlt : keyField buffer < 2 ^ 32 := readU32_lt _
  have hleast := hc.least
  have hpass : ¬u32 (24 + keyField buffer) > readU32 buffer := by
    unfold u32
    omega
  rw [decode_of_checked hc, reads_of_checked hc, if_neg hpass, if_neg hpass]
  exact ⟨rfl, by simp⟩

/-- Key lengths that wrap are read from outside, unless the buffer has 4 GiB; then
the record is longer than its length field. -/
theorem not_exact_of_keyWraps {buffer : Bytes} (h : KeyWraps buffer) : ¬DecodesExactly buffer := by
  rintro ⟨hinside, hencodes, -⟩
  obtain ⟨hdecode, hmem⟩ := decode_of_keyWraps h
  obtain ⟨hc, hkey⟩ := h
  have hmost := hc.most
  unfold maxRecordSize at hmost
  obtain ⟨hsize, -⟩ := hencodes _ hdecode
  have hread := hinside _ hmem
  have hklen : (fields buffer).key.length = keyField buffer := by
    show ((buffer.drop 28).take (keyField buffer)).length = _
    rw [List.length_take, List.length_drop]
    rcases hread with h0 | h0
    · dsimp only at h0
      omega
    · dsimp only at h0
      omega
  omega

theorem decodesExactly_of_not_keyWraps {buffer : Bytes} (h : ¬KeyWraps buffer) :
    DecodesExactly buffer := by
  have hencodes : ∀ r, decode buffer = .ok r → Checked buffer ∧
      24 + keyField buffer ≤ readU32 buffer ∧ r = fields buffer := by
    intro r hr
    have hc := checked_of_decode hr
    have hkey : keyField buffer < 2 ^ 32 - 24 := by
      by_contra hnot
      exact h ⟨hc, by omega⟩
    rw [decode_of_checked hc, keySum_of_lt hkey] at hr
    split at hr
    · cases hr
    · rename_i hle
      cases hr
      exact ⟨hc, by omega, rfl⟩
  refine ⟨?_, ?_, ?_⟩
  · by_cases hc : Checked buffer
    · by_cases hle : 24 + keyField buffer ≤ readU32 buffer
      · exact reads_inside hc hle
      · -- the key length is refused before anything is read with it
        have hkey : keyField buffer < 2 ^ 32 - 24 := by
          by_contra hnot
          exact h ⟨hc, by omega⟩
        have hwhole := hc.whole
        have hleast := hc.least
        rw [reads_of_checked hc, keySum_of_lt hkey, if_pos (by omega)]
        simp only [List.append_nil, List.mem_cons, List.not_mem_nil, or_false, forall_eq_or_imp,
          forall_eq]
        refine ⟨Or.inr ?_, Or.inr ?_, Or.inr ?_, Or.inr ?_, Or.inr ?_, Or.inr ?_⟩
        all_goals
          dsimp only
          omega
    · exact (refused_of_not_checked hc).2
  · intro r hr
    obtain ⟨hc, hle, rfl⟩ := hencodes r hr
    exact ⟨size_fields hc hle, encode_fields hc hle⟩
  · constructor
    · rintro ⟨r, hr⟩
      obtain ⟨hc, hle, rfl⟩ := hencodes r hr
      have hsize := size_fields hc hle
      have hmost := hc.most
      unfold Record.size at hsize
      refine ⟨fields buffer, by omega, ?_⟩
      rw [encode_fields hc hle]
      exact List.take_prefix _ _
    · rintro ⟨r, hr, tail, rfl⟩
      exact ⟨r, decode_encode_of_le (by unfold Record.size; omega) tail⟩

/-- **Decoding is exact but for wrapped key lengths.** -/
theorem decodesExactly_iff (buffer : Bytes) : DecodesExactly buffer ↔ ¬KeyWraps buffer :=
  ⟨fun h hwraps => not_exact_of_keyWraps hwraps h, decodesExactly_of_not_keyWraps⟩

/-- A header with the checksum of what follows it and the key length 2^32 - 24. -/
def wrappedKey : Bytes :=
  [0, 0, 0, 24, 0x52, 0xBD, 0x3E, 0xA9, 0, 0, 0, 0, 0, 0, 0, 0, 0, 0, 0, 0, 0, 0, 0, 0,
    0xFF, 0xFF, 0xFF, 0xE8]

theorem keyWraps_wrappedKey : KeyWraps wrappedKey := by
  refine ⟨⟨?_, ?_, ?_, ?_, ?_⟩, ?_⟩
  all_goals decide +kernel

/-- It is accepted, with a key of 4294967272 bytes that begins where the buffer
ends. -/
theorem wrappedKey_not_exact : decode wrappedKey = .ok (fields wrappedKey) ∧
    ⟨28, 4294967272⟩ ∈ reads wrappedKey ∧ wrappedKey.length = 28 ∧
    ¬DecodesExactly wrappedKey := by
  obtain ⟨hdecode, hmem⟩ := decode_of_keyWraps keyWraps_wrappedKey
  exact ⟨hdecode, hmem, rfl, not_exact_of_keyWraps keyWraps_wrappedKey⟩

end RecordCodec

end StreamForge
