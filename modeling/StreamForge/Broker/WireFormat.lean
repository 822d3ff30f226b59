import StreamForge.Broker.Protocol

/-!
# What the decoders accept

Each `decode` is compared with its `encode`. `Exact` says that the decoder
accepts the encodings of the well-formed values of its struct and nothing else;
it holds for every struct but `DescribeTopicResponse`, whose decoder also takes
the bodies of an older broker. The proofs read a decoder from the top: each
field turns into an equation on the bytes in front of it.

The results on all structs together are about a fresh `BodyReader` on a body.
-/

namespace StreamForge

open BigEndian ByteReader BodyReader BodyWriter
open ByteReader.Reader hiding repeated

/-! ## Fields -/

/-- At most 65535 elements, the most a 16-bit count can tell. -/
def Short {α : Type} (xs : List α) : Prop := xs.length ≤ 65535

instance {α : Type} (xs : List α) : Decidable (Short xs) := inferInstanceAs (Decidable (_ ≤ _))

variable {α : Type} {xs : List α} {count : UInt16}

theorem toNat_countOf (h : Short xs) : (countOf xs).toNat = xs.length := by
  unfold countOf Short at *
  rw [UInt16.toNat_ofNat', Nat.mod_eq_of_lt]
  omega

theorem countOf_eq (h : xs.length = count.toNat) : countOf xs = count := by
  rw [countOf, h, UInt16.ofNat_toNat]

theorem short_of_count (h : xs.length = count.toNat) : Short xs := by
  have hlt := count.toNat_lt
  unfold Short
  omega

def Counted {α : Type} (count : UInt16) (xs : List α) : Prop := count.toNat = xs.length

theorem counted_iff : Counted count xs ↔ Short xs ∧ count = countOf xs := by
  constructor
  · intro h
    exact ⟨short_of_count h.symm, (countOf_eq h.symm).symm⟩
  · rintro ⟨hshort, rfl⟩
    exact toNat_countOf hshort

theorem codes_readU8 : Codes readU8 (fun _ => True) writeU8 :=
  codes_fixed 1 UInt8.toNat_lt (fun _ => UInt8.ofNat_toNat) (fun _ h => UInt8.toNat_ofNat_of_lt' h)

theorem codes_readU16 : Codes readU16 (fun _ => True) writeU16 :=
  codes_fixed 2 UInt16.toNat_lt (fun _ => UInt16.ofNat_toNat)
    (fun _ h => UInt16.toNat_ofNat_of_lt' h)

theorem codes_readU32 : Codes BodyReader.readU32 (fun _ => True) BodyWriter.writeU32 :=
  codes_fixed 4 UInt32.toNat_lt (fun _ => UInt32.ofNat_toNat)
    (fun _ h => UInt32.toNat_ofNat_of_lt' h)

theorem codes_readU64 : Codes BodyReader.readU64 (fun _ => True) BodyWriter.writeU64 :=
  codes_fixed 8 UInt64.toNat_lt (fun _ => UInt64.ofNat_toNat)
    (fun _ h => UInt64.toNat_ofNat_of_lt' h)

theorem codes_readI32 : Codes readI32 (fun _ => True) writeI32 :=
  codes_readU32.map (fun u _ => UInt32.toUInt32_toInt32 u) Int32.toInt32_toUInt32

theorem codes_readI64 : Codes readI64 (fun _ => True) writeI64 :=
  codes_readU64.map (fun u _ => UInt64.toUInt64_toInt64 u) Int64.toInt64_toUInt64

theorem codes_readString : Codes readString Short writeString := by
  intro body s rest
  have htake : ∀ (len : UInt16) mid, run (take len.toNat) mid = some (s, rest) ↔
      s.length = len.toNat ∧ mid = s ++ rest := fun len mid => codes_bytes _ mid s rest
  simp only [readString, codes_readU16.bind_iff, true_and, htake]
  constructor
  · rintro ⟨len, _, rfl, hlen, rfl⟩
    refine ⟨short_of_count hlen, ?_⟩
    show _ = writeU16 (countOf s) ++ s ++ rest
    rw [countOf_eq hlen, List.append_assoc]
  · rintro ⟨hshort, rfl⟩
    refine ⟨countOf s, s ++ rest, ?_, (toNat_countOf hshort).symm, rfl⟩
    exact List.append_assoc (writeU16 (countOf s)) s rest

theorem codes_readBytes : Codes readBytes (fun bs => bs.length ≤ maxFrameLength) writeBytes := by
  intro body bs rest
  have htake : ∀ (len : UInt32) mid, run (take len.toNat) mid = some (bs, rest) ↔
      bs.length = len.toNat ∧ mid = bs ++ rest := fun len mid => codes_bytes _ mid bs rest
  simp only [readBytes, codes_readU32.bind_iff, true_and, require, guarded_bind_eq_some, htake,
    decide_eq_true_eq]
  constructor
  · rintro ⟨len, _, rfl, hle, hlen, rfl⟩
    refine ⟨hlen.symm ▸ hle, ?_⟩
    rw [writeBytes, hlen, UInt32.ofNat_toNat, List.append_assoc]
  · rintro ⟨hle, rfl⟩
    have hlen : (UInt32.ofNat bs.length).toNat = bs.length := by
      unfold maxFrameLength at hle
      exact UInt32.toNat_ofNat_of_lt' (lt_of_le_of_lt hle (by decide))
    refine ⟨UInt32.ofNat bs.length, bs ++ rest, ?_, hlen.symm ▸ hle, hlen.symm, rfl⟩
    rw [writeBytes, List.append_assoc]

section Counted

variable {α β : Type} {P : α → Prop} {enc : α → Bytes} {read : BodyReader α}
  {f : UInt16 → List α → BodyReader β} {body rest : Bytes} {y : β}

theorem counted_bind_iff (h : Codes read P enc) :
    run (readU16 >>= fun count => repeated count.toNat read >>= f count) body = some (y, rest) ↔
      ∃ xs, Short xs ∧ (∀ x ∈ xs, P x) ∧ ∃ mid,
        body = writeU16 (countOf xs) ++ (xs.flatMap enc ++ mid) ∧
          run (f (countOf xs) xs) mid = some (y, rest) := by
  simp only [codes_readU16.bind_iff, true_and, repeated, (h.repeated _).bind_iff]
  constructor
  · rintro ⟨count, _, rfl, xs, ⟨hlen, hall⟩, mid, rfl, hf⟩
    refine ⟨xs, short_of_count hlen, hall, mid, ?_, ?_⟩
    · rw [countOf_eq hlen]
    · rw [countOf_eq hlen]
      exact hf
  · rintro ⟨xs, hshort, hall, mid, rfl, hf⟩
    exact ⟨countOf xs, _, rfl, xs, ⟨(toNat_countOf hshort).symm, hall⟩, mid, rfl, hf⟩

theorem le_length_flatMap {k : ℕ} {xs : List α} (h : ∀ x ∈ xs, k ≤ (enc x).length) :
    xs.length * k ≤ (xs.flatMap enc).length := by
  induction xs with
  | nil => simp
  | cons x xs ih =>
    have hx := h x (by simp)
    have hxs := ih fun z hz => h z (by simp [hz])
    rw [List.flatMap_cons, List.length_append, List.length_cons, Nat.succ_mul]
    omega

/-- **The size check before a loop refuses nothing** that the loop would accept,
if no element takes fewer bytes than the check counts for it. -/
theorem checked_bind_iff {k : ℕ} (h : Codes read P enc) (hk : ∀ x, k ≤ (enc x).length) :
    run (readU16 >>= fun count => remaining >>= fun left =>
        require (decide (count.toNat * k ≤ left)) >>= fun _ =>
        repeated count.toNat read >>= f count) body = some (y, rest) ↔
      ∃ xs, Short xs ∧ (∀ x ∈ xs, P x) ∧ ∃ mid,
        body = writeU16 (countOf xs) ++ (xs.flatMap enc ++ mid) ∧
          run (f (countOf xs) xs) mid = some (y, rest) := by
  rw [← counted_bind_iff h]
  simp only [codes_readU16.bind_iff, true_and, remaining, left_bind_eq_some, require,
    guarded_bind_eq_some, decide_eq_true_eq, repeated, (h.repeated _).bind_iff]
  constructor
  · rintro ⟨count, mid, rfl, -, hrest⟩
    exact ⟨count, mid, rfl, hrest⟩
  · rintro ⟨count, _, rfl, xs, ⟨hlen, hall⟩, mid, rfl, hf⟩
    refine ⟨count, _, rfl, ?_, xs, ⟨hlen, hall⟩, mid, rfl, hf⟩
    calc count.toNat * k = xs.length * k := by rw [hlen]
      _ ≤ (xs.flatMap enc).length := le_length_flatMap fun x _ => hk x
      _ ≤ (xs.flatMap enc ++ mid).length := by simp

end Counted

/-! ## Messages -/

/-- **A decoder is exact** if it accepts the encodings of the values with `P`
and nothing else, and leaves no byte behind. -/
def Exact {α : Type} (decode : BodyReader α) (P : α → Prop) (encode : α → Bytes) : Prop :=
  ∀ body m rest, run decode body = some (m, rest) ↔ P m ∧ body = encode m ∧ rest = []

theorem requireEmpty_pure_iff {x y : α} {body rest : Bytes} :
    run (requireEmpty >>= fun _ => pure x) body = some (y, rest) ↔
      y = x ∧ body = [] ∧ rest = [] := by
  rw [requireEmpty, atEnd_bind_eq_some, pure_eq_some]
  constructor
  · rintro ⟨rfl, rfl, rfl⟩
    exact ⟨rfl, rfl, rfl⟩
  · rintro ⟨rfl, rfl, rfl⟩
    exact ⟨rfl, rfl, rfl⟩

/-! ### Requests -/

/-- Without `has_retention` the two retention fields are not sent. -/
def CreateTopicRequest.WellFormed (m : CreateTopicRequest) : Prop :=
  Short m.topic ∧ (m.hasRetention = false → m.retentionMs = 0 ∧ m.retentionBytes = 0)

theorem CreateTopicRequest.exact_decode : Exact decode WellFormed encode := by
  rintro body ⟨topic, partitions, retentionMs, retentionBytes, hasRetention⟩ rest
  simp only [decode, codes_readString.bind_iff, codes_readU16.bind_iff, true_and, remaining,
    left_bind_eq_some, encode, List.append_assoc]
  constructor
  · rintro ⟨topic, htopic, _, rfl, partitions, mid, rfl, htail⟩
    by_cases hmid : 0 < mid.length
    · simp only [if_pos hmid, codes_readU64.bind_iff, true_and, requireEmpty_pure_iff] at htail
      obtain ⟨_, _, rfl, _, _, rfl, ⟨⟩, rfl, rfl⟩ := htail
      exact ⟨⟨htopic, by simp⟩, by simp, rfl⟩
    · simp only [if_neg hmid, requireEmpty_pure_iff] at htail
      obtain ⟨⟨⟩, rfl, rfl⟩ := htail
      exact ⟨⟨htopic, by simp⟩, by simp, rfl⟩
  · rintro ⟨⟨htopic, hzero⟩, rfl, rfl⟩
    refine ⟨topic, htopic, _, rfl, partitions, _, rfl, ?_⟩
    cases hasRetention with
    | false =>
      obtain ⟨rfl, rfl⟩ : retentionMs = 0 ∧ retentionBytes = 0 := hzero rfl
      exact requireEmpty_pure_iff.mpr ⟨rfl, rfl, rfl⟩
    | true =>
      have hpos : 0 < (BodyWriter.writeU64 retentionMs ++
        BodyWriter.writeU64 retentionBytes).length := by
        simp [BodyWriter.writeU64]
      simp only [if_true, if_pos hpos, codes_readU64.bind_iff, true_and, requireEmpty_pure_iff]
      exact ⟨retentionMs, _, rfl, retentionBytes, [], by simp, rfl, rfl, trivial⟩

def ProduceRequest.WellFormed (m : ProduceRequest) : Prop :=
  Short m.topic ∧ Counted m.recordCount m.records ∧
    ∀ rec ∈ m.records, rec.1.length ≤ maxFrameLength ∧ rec.2.length ≤ maxFrameLength

theorem ProduceRequest.codes_readRecord : Codes readRecord
    (fun rec => rec.1.length ≤ maxFrameLength ∧ rec.2.length ≤ maxFrameLength) encodeRecord := by
  rintro body ⟨key, value⟩ rest
  simp only [readRecord, codes_readBytes.bind_iff, pure_eq_some, encodeRecord, List.append_assoc]
  constructor
  · rintro ⟨_, hkey, _, rfl, _, hvalue, _, rfl, ⟨⟩, rfl⟩
    exact ⟨⟨hkey, hvalue⟩, rfl⟩
  · rintro ⟨⟨hkey, hvalue⟩, rfl⟩
    exact ⟨key, hkey, _, rfl, value, hvalue, _, rfl, rfl, rfl⟩

theorem ProduceRequest.exact_decode : Exact decode WellFormed encode := by
  rintro body ⟨topic, partition, count, records⟩ rest
  simp only [decode, codes_readString.bind_iff, codes_readI32.bind_iff, true_and,
    counted_bind_iff codes_readRecord, requireEmpty_pure_iff, encode, List.append_assoc]
  constructor
  · rintro ⟨_, htopic, _, rfl, _, _, rfl, _, hshort, hall, _, rfl, ⟨⟩, rfl, rfl⟩
    exact ⟨⟨htopic, toNat_countOf hshort, hall⟩, by simp, rfl⟩
  · rintro ⟨⟨htopic, hcount, hall⟩, rfl, rfl⟩
    obtain ⟨hshort, rfl⟩ : Short records ∧ count = countOf records := counted_iff.mp hcount
    exact ⟨topic, htopic, _, rfl, partition, _, rfl, records, hshort, hall,
      [], by simp, rfl, rfl, rfl⟩

def FetchRequest.WellFormed (m : FetchRequest) : Prop := Short m.topic

theorem FetchRequest.exact_decode : Exact decode WellFormed encode := by
  rintro body ⟨topic, partition, startOffset, maxBytes, maxMessages⟩ rest
  simp only [decode, codes_readString.bind_iff, codes_readU16.bind_iff, codes_readU64.bind_iff,
    codes_readU32.bind_iff, true_and, requireEmpty_pure_iff, encode, List.append_assoc]
  constructor
  · rintro ⟨_, htopic, _, rfl, _, _, rfl, _, _, rfl, _, _, rfl, _, _, rfl, ⟨⟩, rfl, rfl⟩
    exact ⟨htopic, by simp, rfl⟩
  · rintro ⟨htopic, rfl, rfl⟩
    exact ⟨topic, htopic, _, rfl, partition, _, rfl, startOffset, _, rfl, maxBytes, _, rfl,
      maxMessages, [], by simp, rfl, rfl, rfl⟩

theorem exact_decodeEmpty {m : α} (h : ∀ m' : α, m' = m) :
    Exact (decodeEmpty m) (fun _ => True) (fun _ => []) := by
  intro body m' rest
  rw [decodeEmpty, requireEmpty_pure_iff, true_and]
  constructor
  · rintro ⟨-, hbody, hrest⟩
    exact ⟨hbody, hrest⟩
  · rintro ⟨hbody, hrest⟩
    exact ⟨h m', hbody, hrest⟩

theorem ListTopicsRequest.exact_decode : Exact decode (fun _ => True) encode :=
  exact_decodeEmpty fun _ => rfl

def DescribeTopicRequest.WellFormed (m : DescribeTopicRequest) : Prop := Short m.topic

theorem DescribeTopicRequest.exact_decode : Exact decode WellFormed encode := by
  rintro body ⟨topic⟩ rest
  simp only [decode, codes_readString.bind_iff, requireEmpty_pure_iff, encode]
  constructor
  · rintro ⟨_, htopic, _, rfl, ⟨⟩, rfl, rfl⟩
    exact ⟨htopic, by simp, rfl⟩
  · rintro ⟨htopic, rfl, rfl⟩
    exact ⟨topic, htopic, [], by simp, rfl, rfl, rfl⟩

def JoinGroupRequest.WellFormed (m : JoinGroupRequest) : Prop :=
  Short m.groupId ∧ Short m.memberId ∧ Counted m.topicCount m.topics ∧ ∀ t ∈ m.topics, Short t

theorem two_le_length_writeString (s : Bytes) : 2 ≤ (writeString s).length := by
  simp [writeString, writeU16]

theorem JoinGroupRequest.exact_decode : Exact decode WellFormed encode := by
  rintro body ⟨groupId, memberId, sessionTimeoutMs, strategy, count, topics⟩ rest
  simp only [decode, codes_readString.bind_iff, codes_readU32.bind_iff, codes_readU8.bind_iff,
    true_and, checked_bind_iff codes_readString two_le_length_writeString, requireEmpty_pure_iff,
    encode, List.append_assoc]
  constructor
  · rintro ⟨_, hgroup, _, rfl, _, hmember, _, rfl, _, _, rfl, _, _, rfl, _, hshort, hall, _, rfl,
      ⟨⟩, rfl, rfl⟩
    exact ⟨⟨hgroup, hmember, toNat_countOf hshort, hall⟩, by simp, rfl⟩
  · rintro ⟨⟨hgroup, hmember, hcount, hall⟩, rfl, rfl⟩
    obtain ⟨hshort, rfl⟩ : Short topics ∧ count = countOf topics := counted_iff.mp hcount
    exact ⟨groupId, hgroup, _, rfl, memberId, hmember, _, rfl, sessionTimeoutMs, _, rfl,
      strategy, _, rfl, topics, hshort, hall, [], by simp, rfl, rfl, rfl⟩

def HeartbeatRequest.WellFormed (m : HeartbeatRequest) : Prop := Short m.groupId ∧ Short m.memberId

theorem HeartbeatRequest.exact_decode : Exact decode WellFormed encode := by
  rintro body ⟨groupId, memberId, generation⟩ rest
  simp only [decode, codes_readString.bind_iff, codes_readU32.bind_iff, true_and,
    requireEmpty_pure_iff, encode, List.append_assoc]
  constructor
  · rintro ⟨_, hgroup, _, rfl, _, hmember, _, rfl, _, _, rfl, ⟨⟩, rfl, rfl⟩
    exact ⟨⟨hgroup, hmember⟩, by simp, rfl⟩
  · rintro ⟨⟨hgroup, hmember⟩, rfl, rfl⟩
    exact ⟨groupId, hgroup, _, rfl, memberId, hmember, _, rfl, generation,
      [], by simp, rfl, rfl, rfl⟩

def LeaveGroupRequest.WellFormed (m : LeaveGroupRequest) : Prop :=
  Short m.groupId ∧ Short m.memberId

theorem LeaveGroupRequest.exact_decode : Exact decode WellFormed encode := by
  rintro body ⟨groupId, memberId⟩ rest
  simp only [decode, codes_readString.bind_iff, requireEmpty_pure_iff, encode]
  constructor
  · rintro ⟨_, hgroup, _, rfl, _, hmember, _, rfl, ⟨⟩, rfl, rfl⟩
    exact ⟨⟨hgroup, hmember⟩, by simp, rfl⟩
  · rintro ⟨⟨hgroup, hmember⟩, rfl, rfl⟩
    exact ⟨groupId, hgroup, _, rfl, memberId, hmember, [], by simp, rfl, rfl, rfl⟩

def CommitOffsetRequest.WellFormed (m : CommitOffsetRequest) : Prop :=
  Short m.groupId ∧ Short m.memberId ∧ Counted m.count m.entries ∧ ∀ e ∈ m.entries, Short e.topic

theorem CommitOffsetRequest.codes_readEntry :
    Codes readEntry (fun e => Short e.topic) encodeEntry := by
  rintro body ⟨topic, partition, offset⟩ rest
  simp only [readEntry, codes_readString.bind_iff, codes_readU16.bind_iff, codes_readU64.bind_iff,
    true_and, pure_eq_some, encodeEntry, List.append_assoc]
  constructor
  · rintro ⟨_, htopic, _, rfl, _, _, rfl, _, _, rfl, ⟨⟩, rfl⟩
    exact ⟨htopic, rfl⟩
  · rintro ⟨htopic, rfl⟩
    exact ⟨topic, htopic, _, rfl, partition, _, rfl, offset, _, rfl, rfl, rfl⟩

theorem CommitOffsetRequest.le_length_encodeEntry (e : CommitOffsetItemWire) :
    12 ≤ (encodeEntry e).length := by
  simp [encodeEntry, writeString, writeU16, BodyWriter.writeU64]
  omega

theorem CommitOffsetRequest.exact_decode : Exact decode WellFormed encode := by
  rintro body ⟨groupId, memberId, generation, count, entries⟩ rest
  simp only [decode, codes_readString.bind_iff, codes_readU32.bind_iff, true_and,
    checked_bind_iff codes_readEntry le_length_encodeEntry, requireEmpty_pure_iff, encode,
    List.append_assoc]
  constructor
  · rintro ⟨_, hgroup, _, rfl, _, hmember, _, rfl, _, _, rfl, _, hshort, hall, _, rfl, ⟨⟩, rfl, rfl⟩
    exact ⟨⟨hgroup, hmember, toNat_countOf hshort, hall⟩, by simp, rfl⟩
  · rintro ⟨⟨hgroup, hmember, hcount, hall⟩, rfl, rfl⟩
    obtain ⟨hshort, rfl⟩ : Short entries ∧ count = countOf entries := counted_iff.mp hcount
    exact ⟨groupId, hgroup, _, rfl, memberId, hmember, _, rfl, generation, _, rfl, entries, hshort,
      hall, [], by simp, rfl, rfl, rfl⟩

def FetchOffsetRequest.WellFormed (m : FetchOffsetRequest) : Prop :=
  Short m.groupId ∧ Counted m.count m.queries ∧ ∀ q ∈ m.queries, Short q.topic

theorem FetchOffsetRequest.codes_readQuery :
    Codes readQuery (fun q => Short q.topic) encodeQuery := by
  rintro body ⟨topic, partition⟩ rest
  simp only [readQuery, codes_readString.bind_iff, codes_readU16.bind_iff, true_and, pure_eq_some,
    encodeQuery, List.append_assoc]
  constructor
  · rintro ⟨_, htopic, _, rfl, _, _, rfl, ⟨⟩, rfl⟩
    exact ⟨htopic, rfl⟩
  · rintro ⟨htopic, rfl⟩
    exact ⟨topic, htopic, _, rfl, partition, _, rfl, rfl, rfl⟩

theorem FetchOffsetRequest.le_length_encodeQuery (q : FetchOffsetQueryWire) :
    4 ≤ (encodeQuery q).length := by
  simp [encodeQuery, writeString, writeU16]
  omega

theorem FetchOffsetRequest.exact_decode : Exact decode WellFormed encode := by
  rintro body ⟨groupId, count, queries⟩ rest
  simp only [decode, codes_readString.bind_iff, checked_bind_iff codes_readQuery
    le_length_encodeQuery, requireEmpty_pure_iff, encode, List.append_assoc]
  constructor
  · rintro ⟨_, hgroup, _, rfl, _, hshort, hall, _, rfl, ⟨⟩, rfl, rfl⟩
    exact ⟨⟨hgroup, toNat_countOf hshort, hall⟩, by simp, rfl⟩
  · rintro ⟨⟨hgroup, hcount, hall⟩, rfl, rfl⟩
    obtain ⟨hshort, rfl⟩ : Short queries ∧ count = countOf queries := counted_iff.mp hcount
    exact ⟨groupId, hgroup, _, rfl, queries, hshort, hall, [], by simp, rfl, rfl, rfl⟩

def DescribeGroupRequest.WellFormed (m : DescribeGroupRequest) : Prop := Short m.groupId

theorem DescribeGroupRequest.exact_decode : Exact decode WellFormed encode := by
  rintro body ⟨groupId⟩ rest
  simp only [decode, codes_readString.bind_iff, requireEmpty_pure_iff, encode]
  constructor
  · rintro ⟨_, hgroup, _, rfl, ⟨⟩, rfl, rfl⟩
    exact ⟨hgroup, by simp, rfl⟩
  · rintro ⟨hgroup, rfl, rfl⟩
    exact ⟨groupId, hgroup, [], by simp, rfl, rfl, rfl⟩

/-! ### Responses -/

theorem ProduceResponse.exact_decode : Exact decode (fun _ => True) encode := by
  rintro body ⟨partition, baseOffset, count⟩ rest
  simp only [decode, codes_readU16.bind_iff, codes_readU64.bind_iff, true_and,
    requireEmpty_pure_iff, encode, List.append_assoc]
  constructor
  · rintro ⟨_, _, rfl, _, _, rfl, _, _, rfl, ⟨⟩, rfl, rfl⟩
    exact ⟨by simp, rfl⟩
  · rintro ⟨rfl, rfl⟩
    exact ⟨partition, _, rfl, baseOffset, _, rfl, count, [], by simp, rfl, rfl, rfl⟩

def FetchResponse.WellFormed (r : FetchResponse) : Prop :=
  Counted r.recordCount r.records ∧
    ∀ rec ∈ r.records, rec.key.length ≤ maxFrameLength ∧ rec.value.length ≤ maxFrameLength

theorem FetchResponse.codes_readRecord : Codes readRecord
    (fun rec => rec.key.length ≤ maxFrameLength ∧ rec.value.length ≤ maxFrameLength)
    encodeRecord := by
  rintro body ⟨offset, timestampMs, key, value⟩ rest
  simp only [readRecord, codes_readU64.bind_iff, codes_readI64.bind_iff, codes_readBytes.bind_iff,
    true_and, pure_eq_some, encodeRecord, List.append_assoc]
  constructor
  · rintro ⟨_, _, rfl, _, _, rfl, _, hkey, _, rfl, _, hvalue, _, rfl, ⟨⟩, rfl⟩
    exact ⟨⟨hkey, hvalue⟩, rfl⟩
  · rintro ⟨⟨hkey, hvalue⟩, rfl⟩
    exact ⟨offset, _, rfl, timestampMs, _, rfl, key, hkey, _, rfl, value, hvalue, _, rfl, rfl, rfl⟩

theorem FetchResponse.exact_decode : Exact decode WellFormed encode := by
  rintro body ⟨nextOffset, highWatermark, earliestOffset, count, records⟩ rest
  simp only [decode, codes_readU64.bind_iff, true_and, counted_bind_iff codes_readRecord,
    requireEmpty_pure_iff, encode, List.append_assoc]
  constructor
  · rintro ⟨_, _, rfl, _, _, rfl, _, _, rfl, _, hshort, hall, _, rfl, ⟨⟩, rfl, rfl⟩
    exact ⟨⟨toNat_countOf hshort, hall⟩, by simp, rfl⟩
  · rintro ⟨⟨hcount, hall⟩, rfl, rfl⟩
    obtain ⟨hshort, rfl⟩ : Short records ∧ count = countOf records := counted_iff.mp hcount
    exact ⟨nextOffset, _, rfl, highWatermark, _, rfl, earliestOffset, _, rfl, records, hshort, hall,
      [], by simp, rfl, rfl, rfl⟩

def ListTopicsResponse.WellFormed (r : ListTopicsResponse) : Prop :=
  Counted r.count r.topics ∧ ∀ t ∈ r.topics, Short t.name

theorem ListTopicsResponse.codes_readTopic :
    Codes readTopic (fun t => Short t.name) encodeTopic := by
  rintro body ⟨name, partitions⟩ rest
  simp only [readTopic, codes_readString.bind_iff, codes_readU16.bind_iff, true_and, pure_eq_some,
    encodeTopic, List.append_assoc]
  constructor
  · rintro ⟨_, hname, _, rfl, _, _, rfl, ⟨⟩, rfl⟩
    exact ⟨hname, rfl⟩
  · rintro ⟨hname, rfl⟩
    exact ⟨name, hname, _, rfl, partitions, _, rfl, rfl, rfl⟩

theorem ListTopicsResponse.exact_decode : Exact decode WellFormed encode := by
  rintro body ⟨count, topics⟩ rest
  simp only [decode, counted_bind_iff codes_readTopic, requireEmpty_pure_iff, encode]
  constructor
  · rintro ⟨_, hshort, hall, _, rfl, ⟨⟩, rfl, rfl⟩
    exact ⟨⟨toNat_countOf hshort, hall⟩, by simp, rfl⟩
  · rintro ⟨⟨hcount, hall⟩, rfl, rfl⟩
    obtain ⟨hshort, rfl⟩ : Short topics ∧ count = countOf topics := counted_iff.mp hcount
    exact ⟨topics, hshort, hall, [], by simp, rfl, rfl, rfl⟩

def DescribeTopicResponse.WellFormed (r : DescribeTopicResponse) : Prop :=
  Short r.name ∧ Counted r.partitions r.partitionOffsets

theorem DescribeTopicResponse.codes_readOffsets :
    Codes (readOffsets true) (fun _ => True) encodeOffsets := by
  rintro body ⟨earliest, nextOffset, segmentCount⟩ rest
  simp only [readOffsets, if_true, codes_readU64.bind_iff, codes_readU32.bind_iff, true_and,
    pure_eq_some, encodeOffsets, List.append_assoc]
  constructor
  · rintro ⟨_, _, rfl, _, _, rfl, _, _, rfl, ⟨⟩, rfl⟩
    rfl
  · rintro rfl
    exact ⟨earliest, _, rfl, nextOffset, _, rfl, segmentCount, _, rfl, rfl, rfl⟩

theorem DescribeTopicResponse.length_encodeOffsets (po : PartitionOffsetWire) :
    (encodeOffsets po).length = 20 := by
  simp [encodeOffsets, BodyWriter.writeU64, BodyWriter.writeU32]

/-- The decoder takes the format of a body from its size, so that it also
accepts bodies that `encode` does not write; what `encode` writes is always
read in the format it was written in. -/
theorem DescribeTopicResponse.decode_encode {r : DescribeTopicResponse} (h : r.WellFormed) :
    run decode r.encode = some (r, []) := by
  obtain ⟨name, partitions, offsets, retentionMs, retentionBytes, degraded⟩ := r
  obtain ⟨hname, hcount⟩ := h
  simp only [decode, codes_readString.bind_iff, codes_readU16.bind_iff, true_and, remaining,
    left_bind_eq_some, encode, List.append_assoc]
  refine ⟨name, hname, _, rfl, partitions, _, rfl, ?_⟩
  -- Every partition takes 20 bytes, and the tail 17 more.
  have hoffsets : (offsets.flatMap encodeOffsets).length = partitions.toNat * 20 := by
    rw [List.length_flatMap, List.map_congr_left fun po _ => length_encodeOffsets po, hcount]
    simp
  have htail : (BodyWriter.writeU64 retentionMs ++ (BodyWriter.writeU64 retentionBytes ++
      writeU8 degraded)).length = 17 := by
    simp [BodyWriter.writeU64, writeU8]
  have hextended : partitions.toNat * 20 ≤ (offsets.flatMap encodeOffsets ++
      (BodyWriter.writeU64 retentionMs ++ (BodyWriter.writeU64 retentionBytes ++
        writeU8 degraded))).length := by
    rw [List.length_append, hoffsets]
    exact Nat.le_add_right _ _
  rw [decide_eq_true hextended]
  simp only [Bool.true_and, repeated, (codes_readOffsets.repeated _).bind_iff]
  refine ⟨offsets, ⟨hcount.symm, fun _ _ => trivial⟩, _, rfl, ?_⟩
  simp only [left_bind_eq_some, htail, le_refl, decide_true, if_true, codes_readU64.bind_iff,
    codes_readU8.bind_iff, true_and, requireEmpty_pure_iff]
  exact ⟨retentionMs, _, rfl, retentionBytes, _, rfl, degraded, [], by simp, rfl, rfl, trivial⟩

theorem TopicPartitionWire.codes_read : Codes read (fun tp => Short tp.topic) encode := by
  rintro body ⟨topic, partition⟩ rest
  simp only [read, codes_readString.bind_iff, codes_readU16.bind_iff, true_and,
    pure_eq_some, encode, List.append_assoc]
  constructor
  · rintro ⟨_, htopic, _, rfl, _, _, rfl, ⟨⟩, rfl⟩
    exact ⟨htopic, rfl⟩
  · rintro ⟨htopic, rfl⟩
    exact ⟨topic, htopic, _, rfl, partition, _, rfl, rfl, rfl⟩

theorem TopicPartitionWire.le_length_encode (tp : TopicPartitionWire) : 4 ≤ tp.encode.length := by
  simp [encode, writeString, writeU16]
  omega

def JoinGroupResponse.WellFormed (r : JoinGroupResponse) : Prop :=
  Short r.memberId ∧ Counted r.count r.assignments ∧ ∀ tp ∈ r.assignments, Short tp.topic

theorem JoinGroupResponse.exact_decode : Exact decode WellFormed encode := by
  rintro body ⟨memberId, generation, heartbeatIntervalMs, count, assignments⟩ rest
  simp only [decode, codes_readString.bind_iff, codes_readU32.bind_iff, true_and,
    checked_bind_iff TopicPartitionWire.codes_read TopicPartitionWire.le_length_encode,
    requireEmpty_pure_iff, encode, List.append_assoc]
  constructor
  · rintro ⟨_, hmember, _, rfl, _, _, rfl, _, _, rfl, _, hshort, hall, _, rfl, ⟨⟩, rfl, rfl⟩
    exact ⟨⟨hmember, toNat_countOf hshort, hall⟩, by simp, rfl⟩
  · rintro ⟨⟨hmember, hcount, hall⟩, rfl, rfl⟩
    obtain ⟨hshort, rfl⟩ : Short assignments ∧ count = countOf assignments := counted_iff.mp hcount
    exact ⟨memberId, hmember, _, rfl, generation, _, rfl, heartbeatIntervalMs, _, rfl, assignments,
      hshort, hall, [], by simp, rfl, rfl, rfl⟩

def FetchOffsetResponse.WellFormed (r : FetchOffsetResponse) : Prop :=
  Counted r.count r.offsets ∧ ∀ o ∈ r.offsets, Short o.topic

theorem FetchOffsetResponse.codes_readEntry :
    Codes readEntry (fun o => Short o.topic) encodeEntry := by
  rintro body ⟨topic, partition, offset⟩ rest
  simp only [readEntry, codes_readString.bind_iff, codes_readU16.bind_iff, codes_readI64.bind_iff,
    true_and, pure_eq_some, encodeEntry, List.append_assoc]
  constructor
  · rintro ⟨_, htopic, _, rfl, _, _, rfl, _, _, rfl, ⟨⟩, rfl⟩
    exact ⟨htopic, rfl⟩
  · rintro ⟨htopic, rfl⟩
    exact ⟨topic, htopic, _, rfl, partition, _, rfl, offset, _, rfl, rfl, rfl⟩

theorem FetchOffsetResponse.le_length_encodeEntry (o : OffsetEntryWire) :
    12 ≤ (encodeEntry o).length := by
  simp [encodeEntry, writeString, writeU16, writeI64, BodyWriter.writeU64]
  omega

theorem FetchOffsetResponse.exact_decode : Exact decode WellFormed encode := by
  rintro body ⟨count, offsets⟩ rest
  simp only [decode, checked_bind_iff codes_readEntry le_length_encodeEntry, requireEmpty_pure_iff,
    encode]
  constructor
  · rintro ⟨_, hshort, hall, _, rfl, ⟨⟩, rfl, rfl⟩
    exact ⟨⟨toNat_countOf hshort, hall⟩, by simp, rfl⟩
  · rintro ⟨⟨hcount, hall⟩, rfl, rfl⟩
    obtain ⟨hshort, rfl⟩ : Short offsets ∧ count = countOf offsets := counted_iff.mp hcount
    exact ⟨offsets, hshort, hall, [], by simp, rfl, rfl, rfl⟩

def MemberDescriptionWire.WellFormed (m : MemberDescriptionWire) : Prop :=
  Short m.memberId ∧ Counted m.count m.assignment ∧ ∀ tp ∈ m.assignment, Short tp.topic

def DescribeGroupResponse.WellFormed (r : DescribeGroupResponse) : Prop :=
  Short r.groupId ∧ Short r.state ∧ Counted r.memberCount r.members ∧ ∀ m ∈ r.members, m.WellFormed

theorem DescribeGroupResponse.codes_readMember :
    Codes readMember MemberDescriptionWire.WellFormed encodeMember := by
  rintro body ⟨memberId, sessionTimeoutMs, msSinceHeartbeat, count, assignment⟩ rest
  simp only [readMember, codes_readString.bind_iff, codes_readU32.bind_iff, true_and,
    checked_bind_iff TopicPartitionWire.codes_read TopicPartitionWire.le_length_encode,
    pure_eq_some, encodeMember, List.append_assoc]
  constructor
  · rintro ⟨_, hmember, _, rfl, _, _, rfl, _, _, rfl, _, hshort, hall, _, rfl, ⟨⟩, rfl⟩
    exact ⟨⟨hmember, toNat_countOf hshort, hall⟩, rfl⟩
  · rintro ⟨⟨hmember, hcount, hall⟩, rfl⟩
    obtain ⟨hshort, rfl⟩ : Short assignment ∧ count = countOf assignment := counted_iff.mp hcount
    exact ⟨memberId, hmember, _, rfl, sessionTimeoutMs, _, rfl, msSinceHeartbeat, _, rfl,
      assignment, hshort, hall, _, rfl, rfl, rfl⟩

theorem DescribeGroupResponse.exact_decode : Exact decode WellFormed encode := by
  rintro body ⟨groupId, generation, state, strategy, count, members⟩ rest
  simp only [decode, codes_readString.bind_iff, codes_readU32.bind_iff, codes_readU8.bind_iff,
    true_and, counted_bind_iff codes_readMember, requireEmpty_pure_iff, encode, List.append_assoc]
  constructor
  · rintro ⟨_, hgroup, _, rfl, _, _, rfl, _, hstate, _, rfl, _, _, rfl, _, hshort, hall, _, rfl, ⟨⟩,
      rfl, rfl⟩
    exact ⟨⟨hgroup, hstate, toNat_countOf hshort, hall⟩, by simp, rfl⟩
  · rintro ⟨⟨hgroup, hstate, hcount, hall⟩, rfl, rfl⟩
    obtain ⟨hshort, rfl⟩ : Short members ∧ count = countOf members := counted_iff.mp hcount
    exact ⟨groupId, hgroup, _, rfl, generation, _, rfl, state, hstate, _, rfl, strategy, _, rfl,
      members, hshort, hall, [], by simp, rfl, rfl, rfl⟩

/-! ## A fresh reader on a body -/

/-- `decode` with a fresh `BodyReader` on a body: the answer with the cursor
behind it, and the indices of `m_data` that were read. -/
def BodyReader.onBody {α : Type} (decode : BodyReader α) (body : Bytes) (beyond : ℕ → UInt8) :
    Option (α × ℕ) × List ℕ :=
  exec (memoryOf body beyond) body.length decode 0

theorem onBody_eq (decode : BodyReader α) (body : Bytes) (beyond : ℕ → UInt8) :
    (onBody decode body beyond).1 =
      (run decode body).map fun (x, rest) => (x, body.length - rest.length) := by
  rw [onBody, exec_eq _ _ _ (Nat.zero_le _), behind_memoryOf]

theorem Exact.onBody {decode : BodyReader α} {P : α → Prop} {encode : α → Bytes}
    (h : Exact decode P encode) (body : Bytes) (beyond : ℕ → UInt8) (m : α) (cursor : ℕ) :
    (BodyReader.onBody decode body beyond).1 = some (m, cursor) ↔
      P m ∧ body = encode m ∧ cursor = body.length := by
  rw [onBody_eq, Option.map_eq_some_iff]
  constructor
  · rintro ⟨⟨m', rest⟩, hrun, heq⟩
    obtain ⟨hP, hbody, rfl⟩ := (h _ _ _).mp hrun
    obtain ⟨rfl, rfl⟩ := Prod.mk.inj heq
    exact ⟨hP, hbody, rfl⟩
  · rintro ⟨hP, hbody, rfl⟩
    exact ⟨(m, []), (h _ _ _).mpr ⟨hP, hbody, rfl⟩, rfl⟩

theorem Exact.inject {β : Type} {decode : BodyReader α} {P : α → Prop} {encode : α → Bytes}
    (h : Exact decode P encode) {c : α → β} {Q : β → Prop} {encode' : β → Bytes}
    (hQ : ∀ y, Q y ↔ ∃ x, c x = y ∧ P x) (hencode : ∀ x, encode' (c x) = encode x) :
    Exact (do return c (← decode)) Q encode' := by
  intro body y rest
  simp only [bind_eq_some, pure_eq_some, h _ _ _, hQ]
  constructor
  · rintro ⟨x, _, ⟨hP, rfl, rfl⟩, rfl, rfl⟩
    exact ⟨⟨x, rfl, hP⟩, (hencode x).symm, rfl⟩
  · rintro ⟨⟨x, rfl, hP⟩, rfl, rfl⟩
    exact ⟨x, [], ⟨hP, hencode x, rfl⟩, rfl, rfl⟩

/-! ## The requests together -/

inductive RequestType where
  | CREATE_TOPIC | PRODUCE | FETCH | LIST_TOPICS | DESCRIBE_TOPIC
  | JOIN_GROUP | HEARTBEAT | LEAVE_GROUP | COMMIT_OFFSET | FETCH_OFFSET | DESCRIBE_GROUP
  deriving DecidableEq

inductive Request where
  | createTopic (m : CreateTopicRequest)
  | produce (m : ProduceRequest)
  | fetch (m : FetchRequest)
  | listTopics (m : ListTopicsRequest)
  | describeTopic (m : DescribeTopicRequest)
  | joinGroup (m : JoinGroupRequest)
  | heartbeat (m : HeartbeatRequest)
  | leaveGroup (m : LeaveGroupRequest)
  | commitOffset (m : CommitOffsetRequest)
  | fetchOffset (m : FetchOffsetRequest)
  | describeGroup (m : DescribeGroupRequest)
  deriving DecidableEq

namespace Request

def type : Request → RequestType
  | createTopic _ => .CREATE_TOPIC
  | produce _ => .PRODUCE
  | fetch _ => .FETCH
  | listTopics _ => .LIST_TOPICS
  | describeTopic _ => .DESCRIBE_TOPIC
  | joinGroup _ => .JOIN_GROUP
  | heartbeat _ => .HEARTBEAT
  | leaveGroup _ => .LEAVE_GROUP
  | commitOffset _ => .COMMIT_OFFSET
  | fetchOffset _ => .FETCH_OFFSET
  | describeGroup _ => .DESCRIBE_GROUP

def encode : Request → Bytes
  | createTopic m => m.encode
  | produce m => m.encode
  | fetch m => m.encode
  | listTopics m => m.encode
  | describeTopic m => m.encode
  | joinGroup m => m.encode
  | heartbeat m => m.encode
  | leaveGroup m => m.encode
  | commitOffset m => m.encode
  | fetchOffset m => m.encode
  | describeGroup m => m.encode

/-- The `decode` of the struct of a type. -/
def decode : RequestType → BodyReader Request
  | .CREATE_TOPIC => return createTopic (← CreateTopicRequest.decode)
  | .PRODUCE => return produce (← ProduceRequest.decode)
  | .FETCH => return fetch (← FetchRequest.decode)
  | .LIST_TOPICS => return listTopics (← ListTopicsRequest.decode)
  | .DESCRIBE_TOPIC => return describeTopic (← DescribeTopicRequest.decode)
  | .JOIN_GROUP => return joinGroup (← JoinGroupRequest.decode)
  | .HEARTBEAT => return heartbeat (← HeartbeatRequest.decode)
  | .LEAVE_GROUP => return leaveGroup (← LeaveGroupRequest.decode)
  | .COMMIT_OFFSET => return commitOffset (← CommitOffsetRequest.decode)
  | .FETCH_OFFSET => return fetchOffset (← FetchOffsetRequest.decode)
  | .DESCRIBE_GROUP => return describeGroup (← DescribeGroupRequest.decode)

/-- Strings and lists of at most 65535 elements, keys and values of at most a
frame, and count fields that tell the size of their list. -/
def WellFormed : Request → Prop
  | createTopic m => m.WellFormed
  | produce m => m.WellFormed
  | fetch m => m.WellFormed
  | listTopics _ => True
  | describeTopic m => m.WellFormed
  | joinGroup m => m.WellFormed
  | heartbeat m => m.WellFormed
  | leaveGroup m => m.WellFormed
  | commitOffset m => m.WellFormed
  | fetchOffset m => m.WellFormed
  | describeGroup m => m.WellFormed

theorem exact_decode (t : RequestType) :
    Exact (decode t) (fun m => m.type = t ∧ m.WellFormed) encode := by
  cases t with
  | CREATE_TOPIC =>
    refine CreateTopicRequest.exact_decode.inject (fun m => ?_) fun _ => rfl
    cases m <;> simp [type, WellFormed]
  | PRODUCE =>
    refine ProduceRequest.exact_decode.inject (fun m => ?_) fun _ => rfl
    cases m <;> simp [type, WellFormed]
  | FETCH =>
    refine FetchRequest.exact_decode.inject (fun m => ?_) fun _ => rfl
    cases m <;> simp [type, WellFormed]
  | LIST_TOPICS =>
    refine ListTopicsRequest.exact_decode.inject (fun m => ?_) fun _ => rfl
    cases m <;> simp [type, WellFormed]
    exact ⟨{}⟩
  | DESCRIBE_TOPIC =>
    refine DescribeTopicRequest.exact_decode.inject (fun m => ?_) fun _ => rfl
    cases m <;> simp [type, WellFormed]
  | JOIN_GROUP =>
    refine JoinGroupRequest.exact_decode.inject (fun m => ?_) fun _ => rfl
    cases m <;> simp [type, WellFormed]
  | HEARTBEAT =>
    refine HeartbeatRequest.exact_decode.inject (fun m => ?_) fun _ => rfl
    cases m <;> simp [type, WellFormed]
  | LEAVE_GROUP =>
    refine LeaveGroupRequest.exact_decode.inject (fun m => ?_) fun _ => rfl
    cases m <;> simp [type, WellFormed]
  | COMMIT_OFFSET =>
    refine CommitOffsetRequest.exact_decode.inject (fun m => ?_) fun _ => rfl
    cases m <;> simp [type, WellFormed]
  | FETCH_OFFSET =>
    refine FetchOffsetRequest.exact_decode.inject (fun m => ?_) fun _ => rfl
    cases m <;> simp [type, WellFormed]
  | DESCRIBE_GROUP =>
    refine DescribeGroupRequest.exact_decode.inject (fun m => ?_) fun _ => rfl
    cases m <;> simp [type, WellFormed]

end Request

/-- **Request decoders accept exactly the encodings.** On any body `decode` reads only bytes
of the body. It answers `m` just in case `m` is a request of its type and the body is
`encode` of `m`; so no two bodies give the same request. -/
theorem request_decoders_accept_encodings (t : RequestType) (body : Bytes) (beyond : ℕ → UInt8) :
    (∀ i ∈ (BodyReader.onBody (Request.decode t) body beyond).2, i < body.length) ∧
    (∀ m cursor, (BodyReader.onBody (Request.decode t) body beyond).1 = some (m, cursor) ↔
      (m.type = t ∧ m.WellFormed) ∧ body = m.encode ∧ cursor = body.length) ∧
    ∀ body' beyond' m cursor cursor',
      (BodyReader.onBody (Request.decode t) body beyond).1 = some (m, cursor) →
      (BodyReader.onBody (Request.decode t) body' beyond').1 = some (m, cursor') →
        body = body' := by
  have hexact := (Request.exact_decode t).onBody
  refine ⟨?_, hexact body beyond, ?_⟩
  · exact exec_inside _ _ _ (Nat.zero_le _)
  · intro body' beyond' m cursor cursor' h h'
    obtain ⟨-, hbody, -⟩ := (hexact _ _ _ _).mp h
    obtain ⟨-, hbody', -⟩ := (hexact _ _ _ _).mp h'
    exact hbody.trans hbody'.symm

/-! ## The responses together -/

inductive ResponseType where
  | CREATE_TOPIC_OK | PRODUCE_OK | FETCH_OK | TOPICS | TOPIC_DESCRIPTION
  | JOIN_GROUP_OK | HEARTBEAT_OK | LEAVE_GROUP_OK | COMMIT_OK | OFFSETS | GROUP_DESCRIPTION
  deriving DecidableEq

inductive Response where
  | createTopic (r : CreateTopicResponse)
  | produce (r : ProduceResponse)
  | fetch (r : FetchResponse)
  | listTopics (r : ListTopicsResponse)
  | describeTopic (r : DescribeTopicResponse)
  | joinGroup (r : JoinGroupResponse)
  | heartbeat (r : HeartbeatResponse)
  | leaveGroup (r : LeaveGroupResponse)
  | commitOffset (r : CommitOffsetResponse)
  | fetchOffset (r : FetchOffsetResponse)
  | describeGroup (r : DescribeGroupResponse)
  deriving DecidableEq

namespace Response

def type : Response → ResponseType
  | createTopic _ => .CREATE_TOPIC_OK
  | produce _ => .PRODUCE_OK
  | fetch _ => .FETCH_OK
  | listTopics _ => .TOPICS
  | describeTopic _ => .TOPIC_DESCRIPTION
  | joinGroup _ => .JOIN_GROUP_OK
  | heartbeat _ => .HEARTBEAT_OK
  | leaveGroup _ => .LEAVE_GROUP_OK
  | commitOffset _ => .COMMIT_OK
  | fetchOffset _ => .OFFSETS
  | describeGroup _ => .GROUP_DESCRIPTION

def encode : Response → Bytes
  | createTopic r => r.encode
  | produce r => r.encode
  | fetch r => r.encode
  | listTopics r => r.encode
  | describeTopic r => r.encode
  | joinGroup r => r.encode
  | heartbeat r => r.encode
  | leaveGroup r => r.encode
  | commitOffset r => r.encode
  | fetchOffset r => r.encode
  | describeGroup r => r.encode

def decode : ResponseType → BodyReader Response
  | .CREATE_TOPIC_OK => return createTopic (← CreateTopicResponse.decode)
  | .PRODUCE_OK => return produce (← ProduceResponse.decode)
  | .FETCH_OK => return fetch (← FetchResponse.decode)
  | .TOPICS => return listTopics (← ListTopicsResponse.decode)
  | .TOPIC_DESCRIPTION => return describeTopic (← DescribeTopicResponse.decode)
  | .JOIN_GROUP_OK => return joinGroup (← JoinGroupResponse.decode)
  | .HEARTBEAT_OK => return heartbeat (← HeartbeatResponse.decode)
  | .LEAVE_GROUP_OK => return leaveGroup (← LeaveGroupResponse.decode)
  | .COMMIT_OK => return commitOffset (← CommitOffsetResponse.decode)
  | .OFFSETS => return fetchOffset (← FetchOffsetResponse.decode)
  | .GROUP_DESCRIPTION => return describeGroup (← DescribeGroupResponse.decode)

/-- As for the requests; `partitions` is the count of the offsets. -/
def WellFormed : Response → Prop
  | createTopic _ => True
  | produce _ => True
  | fetch r => r.WellFormed
  | listTopics r => r.WellFormed
  | describeTopic r => r.WellFormed
  | joinGroup r => r.WellFormed
  | heartbeat _ => True
  | leaveGroup _ => True
  | commitOffset _ => True
  | fetchOffset r => r.WellFormed
  | describeGroup r => r.WellFormed

theorem decode_of_exact {α : Type} {decode : BodyReader α} {P : α → Prop} {encode : α → Bytes}
    (h : Exact decode P encode) (c : α → Response) {r : α} (hr : P r) :
    run (do return c (← decode)) (encode r) = some (c r, []) := by
  rw [bind_eq_some]
  exact ⟨r, [], (h _ _ _).mpr ⟨hr, rfl, rfl⟩, rfl⟩

theorem decode_encode {r : Response} (h : r.WellFormed) :
    run (decode r.type) r.encode = some (r, []) := by
  cases r with
  | createTopic r => rfl
  | produce r => exact decode_of_exact ProduceResponse.exact_decode produce trivial
  | fetch r => exact decode_of_exact FetchResponse.exact_decode fetch h
  | listTopics r => exact decode_of_exact ListTopicsResponse.exact_decode listTopics h
  | describeTopic r =>
    show run (do return describeTopic (← DescribeTopicResponse.decode)) r.encode = _
    rw [run_bind, DescribeTopicResponse.decode_encode h]
    rfl
  | joinGroup r => exact decode_of_exact JoinGroupResponse.exact_decode joinGroup h
  | heartbeat r => rfl
  | leaveGroup r => rfl
  | commitOffset r => rfl
  | fetchOffset r => exact decode_of_exact FetchOffsetResponse.exact_decode fetchOffset h
  | describeGroup r => exact decode_of_exact DescribeGroupResponse.exact_decode describeGroup h

end Response

/-! ## Every message -/

inductive Message where
  | request (m : Request)
  | response (r : Response)

namespace Message

def WellFormed : Message → Prop
  | request m => m.WellFormed
  | response r => r.WellFormed

def encode : Message → Bytes
  | request m => m.encode
  | response r => r.encode

/-- The `decode` of the struct a message is a value of. -/
def decodeLike : Message → BodyReader Message
  | request m => return request (← Request.decode m.type)
  | response r => return response (← Response.decode r.type)

theorem decodeLike_encode {m : Message} (h : m.WellFormed) :
    run m.decodeLike m.encode = some (m, []) := by
  cases m with
  | request m =>
    show run (do return request (← Request.decode m.type)) m.encode = _
    rw [run_bind, (Request.exact_decode m.type _ m []).mpr ⟨⟨rfl, h⟩, rfl, rfl⟩]
    rfl
  | response r =>
    show run (do return response (← Response.decode r.type)) r.encode = _
    rw [run_bind, Response.decode_encode h]
    rfl

end Message

/-- **Every message survives the wire.** A fresh `BodyReader` on what `encode`
wrote gives the value back, with the cursor behind the last byte. -/
theorem message_survives_wire (m : Message) (h : m.WellFormed) (beyond : ℕ → UInt8) :
    (BodyReader.onBody m.decodeLike m.encode beyond).1 = some (m, m.encode.length) := by
  rw [onBody_eq, Message.decodeLike_encode h]
  rfl

def describedGroup : Message :=
  .response (.describeGroup ⟨[103], 2, [83], 0, 1, [⟨[109], 3000, 7, 1, [⟨[116], 4⟩]⟩]⟩)

theorem describedGroup_survives_wire :
    (BodyReader.onBody describedGroup.decodeLike describedGroup.encode fun _ => 0).1 =
      some (describedGroup, 31) :=
  message_survives_wire describedGroup
    ⟨by decide, by decide, rfl, by
      rintro m (_ | ⟨_, ⟨⟩⟩)
      refine ⟨by decide, rfl, ?_⟩
      rintro tp (_ | ⟨_, ⟨⟩⟩)
      decide⟩ fun _ => 0

end StreamForge
