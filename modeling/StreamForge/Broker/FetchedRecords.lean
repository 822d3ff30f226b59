import StreamForge.Broker.ConcurrentFetch
import StreamForge.Storage.RecordDecoding

/-!
# What a FETCH sends

The count of a FETCH response has 16 bits and `encode` cuts the number of records to them.
`read` stops at the byte limit, and no record takes less than 28 bytes, so there are never
too many; whatever lies in the files, the client's `decode` gives the response back.
-/

namespace StreamForge

open FileTrace FileHandle MessageHandler

namespace Partition

theorem size_le_of_readRecordAt {seg : LogSegment} {fs : FileSystem} {pos : ℕ} {r : Record}
    (h : seg.readRecordAt fs pos = .ok r) : r.size ≤ maxRecordSize + 4 := by
  unfold LogSegment.readRecordAt readAt at h
  simp only at h
  split at h
  · cases h
  split at h
  · cases h
  split at h
  · cases h
  rename_i header hheader hrange
  rw [Bool.or_eq_true, decide_eq_true_iff, decide_eq_true_iff] at hrange
  split at h
  · cases h
  rename_i buf hbuf
  have hlength : buf.length ≤ maxRecordSize + 4 := by
    split at hbuf
    · cases hbuf
      have hcut := Nat.mod_le (4 + readU32 header) (2 ^ 32)
      rw [List.length_take, u32]
      omega
    · cases hbuf
  have hchecked := RecordCodec.checked_of_decode h
  have hleast := hchecked.header
  rw [RecordCodec.decode_of_checked hchecked] at h
  split at h
  · cases h
  · cases h
    simp only [Record.size, RecordCodec.fields, List.length_take, List.length_drop]
    omega

section Read

variable (fs : FileSystem) (startOffset : UInt64) (maxMessages : ℕ) {maxBytes : ℕ} {s : ReadState}

/-- What has been collected before a limit is reached. Every record has 28 bytes of header. -/
structure Collected (maxBytes : ℕ) (s : ReadState) : Prop where
  sizes : ∀ r ∈ s.records, r.size ≤ maxRecordSize + 4
  count : 28 * s.records.length ≤ s.totalBytesRead
  limit : s.totalBytesRead ≤ maxBytes

/-- What is returned. The last record may pass the limit. -/
structure Returned (maxBytes : ℕ) (records : List Record) : Prop where
  sizes : ∀ r ∈ records, r.size ≤ maxRecordSize + 4
  count : 28 * records.length ≤ maxBytes + 28

theorem Collected.returned (h : Collected maxBytes s) : Returned maxBytes s.records :=
  ⟨h.sizes, (h.count.trans h.limit).trans (Nat.le_add_right ..)⟩

theorem readLoop_returned (seg : LogSegment) (fuel pos : ℕ) (h : Collected maxBytes s) :
    let res := readLoop seg fs startOffset maxMessages maxBytes fuel pos s
    Returned maxBytes res.1.records ∧ (res.2 = none → Collected maxBytes res.1) := by
  induction fuel generalizing pos s with
  | zero => exact ⟨h.returned, fun _ => h⟩
  | succ fuel ih =>
    unfold readLoop
    split
    · cases hread : seg.readRecordAt fs pos with
      | error st =>
        simp only
        split
        · exact ⟨h.returned, fun _ => h⟩
        · exact ⟨h.returned, fun hnone => by cases hnone⟩
      | ok r =>
        have hsize := size_le_of_readRecordAt hread
        have hbytes : 28 ≤ recordSize r.key r.value := by
          unfold Record.size maxRecordSize at hsize
          rw [recordSize_eq (by omega)]
          omega
        have hsizes := List.forall_mem_append.mpr ⟨h.sizes, List.forall_mem_singleton.mpr hsize⟩
        have hcount := h.count
        have hlimit := h.limit
        simp only
        split
        · exact ih _ h
        · split
          · refine ⟨⟨hsizes, ?_⟩, fun hnone => by cases hnone⟩
            rw [List.length_append, List.length_singleton]
            omega
          · rename_i hgo
            rw [Bool.not_eq_true, Bool.or_eq_false_iff] at hgo
            refine ih _ ⟨hsizes, ?_, (not_le.mp (of_decide_eq_false hgo.2)).le⟩
            simp only [List.length_append, List.length_singleton]
            omega
    · exact ⟨h.returned, fun _ => h⟩

theorem readSegments_returned (segs : List LogSegment) (h : Collected maxBytes s) :
    Returned maxBytes (readSegments fs startOffset maxMessages maxBytes segs s).records := by
  induction segs generalizing s with
  | nil => exact h.returned
  | cons seg rest ih =>
    obtain ⟨hreturned, hgo⟩ := readLoop_returned fs startOffset maxMessages seg
      (seg.logSizeBytes + 1) (seg.lookupFilePosition startOffset) h
    unfold readSegments
    split
    · rename_i heq
      rw [heq] at hreturned
      exact hreturned
    · rename_i heq
      rw [heq] at hgo
      exact ih (hgo rfl)

/-- **What one read returns**, whatever is in the files. -/
theorem read_returned (p : Partition) (maxBytes : ℕ) :
    Returned maxBytes (p.read fs startOffset maxMessages maxBytes).records := by
  have hnone : Returned maxBytes [] := ⟨fun _ hr => (by cases hr), Nat.zero_le _⟩
  unfold Partition.read
  split
  · exact hnone
  split
  · exact hnone
  · exact readSegments_returned fs startOffset maxMessages _
      ⟨hnone.sizes, Nat.zero_le _, Nat.zero_le _⟩

end Read

end Partition

/-- **Every FETCH response decodes** to the value that was encoded: from any partition and any
files, and with any offsets, as other threads may come in between the three calls. -/
theorem fetch_response_decodes (msg : FetchRequest) (hw earliest : UInt64) (part : Partition)
    (fs : FileSystem) {resp : FetchResponse} (h : (fetchBounds msg hw earliest).getD
      (fetchRead msg hw earliest (fetchCall msg part fs)) = .ok resp) :
    FetchResponse.decode.run resp.encode = some (resp, []) := by
  suffices hresp : resp.WellFormed from (FetchResponse.exact_decode _ _ _).mpr ⟨hresp, rfl, rfl⟩
  have hread := Partition.read_returned fs msg.startOffset msg.maxMessages.toNat part
    (min msg.maxBytes.toNat 1048500)
  unfold fetchBounds at h
  split at h
  · cases h
    exact ⟨rfl, fun _ hr => by cases hr⟩
  split at h
  · cases h
  rw [Option.getD_none] at h
  unfold fetchRead at h
  split at h
  · cases h
  cases h
  refine ⟨toNat_countOf ?_, fun r hr => ?_⟩
  · have hcount := hread.count
    unfold Short fetchCall
    omega
  · have hsize := hread.sizes r hr
    unfold Record.size maxRecordSize at hsize
    unfold maxFrameLength
    omega

/-- One record is stored and fetched. -/
theorem fetch_response_decodes_one : ∃ resp : FetchResponse, resp.records.length = 1 ∧
    FetchResponse.decode.run resp.encode = some (resp, []) := by
  let stored := (Partition.new 0 [] {}).appendWithTimestamp [] [7] 5 {} (Fs.start ∅)
  let msg : FetchRequest := ⟨ascii "t", 0, 0, 9, 9⟩
  have h : (fetchBounds msg 1 0).getD (fetchRead msg 1 0 (fetchCall msg stored.2.1 stored.2.2)) =
      .ok ⟨1, 1, 0, 1, [⟨0, 5, [], [7]⟩]⟩ := by
    decide +kernel
  exact ⟨_, rfl, fetch_response_decodes _ _ _ _ _ h⟩

end StreamForge
