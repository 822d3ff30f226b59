import StreamForge.Storage.PartitionRun
import StreamForge.Storage.RecordDecoding

/-!
# Records longer than their length fields

A key or a value of 2^32 bytes or more is stored as what its 32-bit length leaves
of it, and `encode` computes the size of its buffer the same way. As long as its
copies stay inside that buffer (`RecordCodec.InBuffer`), an operation on long
records does to partition and files what the operation on the shortened ones does
(`run_stored`); so what holds over runs of short records holds over all of them.
-/

namespace StreamForge

open FileTrace FileHandle

/-! ## The buffer of `encode` -/

namespace RecordCodec

def bufferSize (key value : Bytes) : ℕ := u32 (4 + u32 (24 + u32 key.length + u32 value.length))

/-- The ranges of its buffer `encode` touches: length, offset, timestamp and key
length, the key, the value, then what the checksum covers and the checksum. -/
def touches (key value : Bytes) : List Access :=
  let keyLen := u32 key.length
  let valueLen := u32 value.length
  let length := u32 (24 + keyLen + valueLen)
  [⟨0, 4⟩, ⟨8, 8⟩, ⟨16, 8⟩, ⟨24, 4⟩, ⟨28, keyLen⟩, ⟨28 + keyLen, valueLen⟩,
    ⟨8, sub32 length 4⟩, ⟨4, 4⟩]

/-- The copies stay inside the buffer. -/
def InBuffer (key value : Bytes) : Prop :=
  ∀ a ∈ touches key value, a.Inside (bufferSize key value)

theorem inBuffer_iff {key value : Bytes} :
    InBuffer key value ↔ 28 + u32 key.length + u32 value.length < 2 ^ 32 := by
  unfold InBuffer touches bufferSize
  set k := u32 key.length
  set v := u32 value.length
  have hklt : k < 2 ^ 32 := u32_lt _
  have hvlt : v < 2 ^ 32 := u32_lt _
  constructor
  · intro h
    by_contra hover
    have hsize := u32_lt (4 + u32 (24 + k + v))
    rcases Nat.eq_zero_or_pos v with hzero | hpos
    · rcases h ⟨28, k⟩ (by simp) with hcount | hin
      · simp only at hcount
        omega
      · simp only at hin
        omega
    · rcases h ⟨28 + k, v⟩ (by simp) with hcount | hin
      · simp only at hcount
        omega
      · simp only at hin
        omega
  · intro h
    have hlength : u32 (24 + k + v) = 24 + k + v := u32_of_lt (by omega)
    have hsize : u32 (4 + (24 + k + v)) = 28 + k + v := by
      rw [u32_of_lt (by omega)]
      omega
    have hsub : sub32 (24 + k + v) 4 = 20 + k + v := by
      unfold sub32 u32
      omega
    dsimp only
    rw [hlength, hsize, hsub]
    intro a ha
    simp only [List.mem_cons, List.not_mem_nil, or_false] at ha
    right
    rcases ha with rfl | rfl | rfl | rfl | rfl | rfl | rfl | rfl <;> simp only <;> omega

end RecordCodec

/-! ## Appends that wrap -/

theorem appendWithTimestamp_cut (p : Partition) (key value : Bytes) (ts : Int64) (ft : Faults)
    (fs : FileSystem) :
    p.appendWithTimestamp (cut key) (cut value) ts ft fs =
      p.appendWithTimestamp key value ts ft fs := by
  unfold Partition.appendWithTimestamp Partition.tooLargeStatus
  rw [recordTooLarge_cut, recordSize_cut, appendRecord_cut]

theorem refusesBatch_cut (batch : List (Bytes × Bytes)) :
    Partition.refusesBatch (batch.map fun kv => (cut kv.1, cut kv.2)) =
      Partition.refusesBatch batch := by
  unfold Partition.refusesBatch
  rw [List.isEmpty_map, List.any_map]
  congr 2
  exact funext fun kv => recordTooLarge_cut kv.1 kv.2

variable {key value : Bytes} {st st' : RunState}

theorem cut_small (h : RecordCodec.InBuffer key value) :
    (cut key).length + (cut value).length < 2 ^ 32 - 28 := by
  rw [RecordCodec.inBuffer_iff] at h
  rw [length_cut, length_cut]
  omega

theorem encodeAll_assign_cut (next : UInt64) (ts : Int64) (batch : List (Bytes × Bytes)) :
    encodeAll (assign next ts (batch.map fun kv => (cut kv.1, cut kv.2))) =
      encodeAll (assign next ts batch) := by
  induction batch generalizing next with
  | nil => rfl
  | cons kv rest ih =>
    have hhead := encode_cut ⟨next, ts, kv.1, kv.2⟩
    simp only [List.map_cons, assign, encodeAll, List.flatMap_cons] at ih ⊢
    rw [ih]
    exact congrArg (· ++ _) hhead

/-- Copies never leave the buffer when the operation gets as far as `encode`. -/
def Op.InBuffer : Op → Prop
  | .append key value _ =>
    Partition.recordTooLarge key value = false → RecordCodec.InBuffer key value
  | .batch items _ => Partition.refusesBatch items = false →
      ∀ item ∈ items, RecordCodec.InBuffer item.1 item.2
  | .retain _ _ _ _ => True
  | .restart _ => True

/-- The operation as far as the files are concerned: nothing if it is refused, and
otherwise with what the lengths leave of the records. -/
def Op.stored : Op → List Op
  | .append key value ts =>
    if Partition.recordTooLarge key value then [] else [.append (cut key) (cut value) ts]
  | .batch items nowMs =>
    if Partition.refusesBatch items then []
    else [.batch (items.map fun kv => (cut kv.1, cut kv.2)) nowMs]
  | op => [op]

theorem Op.sized_stored {op : Op} (h : op.InBuffer) : ∀ o ∈ op.stored, o.Sized := by
  cases op with
  | append key value ts =>
    rw [Op.stored]
    split
    · simp
    · rename_i hfit
      intro o ho
      rw [List.mem_singleton.mp ho]
      exact cut_small (h (by simpa using hfit))
  | batch items nowMs =>
    rw [Op.stored]
    split
    · simp
    · rename_i hfit
      intro o ho
      rw [List.mem_singleton.mp ho]
      intro item hitem
      obtain ⟨kv, hkv, rfl⟩ := List.mem_map.mp hitem
      exact cut_small (h (by simpa using hfit) kv hkv)
  | retain retentionMs retentionBytes dryRun nowMs =>
    intro o ho
    rw [List.mem_singleton.mp ho]
    trivial
  | restart full =>
    intro o ho
    rw [List.mem_singleton.mp ho]
    trivial

theorem handedIn_stored (op : Op) : handedIn op.stored ≤ op.count := by
  cases op with
  | append key value ts =>
    rw [Op.stored]
    split <;> simp [handedIn, Op.count]
  | batch items nowMs =>
    rw [Op.stored]
    split <;> simp [handedIn, Op.count]
  | retain retentionMs retentionBytes dryRun nowMs => simp [Op.stored, handedIn]
  | restart full => simp [Op.stored, handedIn]

def RunState.Same (st st' : RunState) : Prop := st.part = st'.part ∧ st.fs = st'.fs

theorem step_append_same (h : st.Same st') {key' value' : Bytes} {ts : Int64}
    (heq : st.part.appendWithTimestamp key' value' ts {} st.fs =
      st.part.appendWithTimestamp key value ts {} st.fs) :
    (step st (.append key value ts)).Same (step st' (.append key' value' ts)) := by
  obtain ⟨hpart, hfs⟩ := h
  unfold step
  dsimp only
  rw [← hpart, ← hfs, heq]
  rcases st.part.appendWithTimestamp key value ts {} st.fs with ⟨_ | _, p, fs⟩ <;> exact ⟨rfl, rfl⟩

theorem step_batch_same (h : st.Same st') {items items' : List (Bytes × Bytes)} {nowMs : Int64}
    (heq : st.part.appendBatch items' nowMs [] st.fs = st.part.appendBatch items nowMs [] st.fs) :
    (step st (.batch items nowMs)).Same (step st' (.batch items' nowMs)) := by
  obtain ⟨hpart, hfs⟩ := h
  unfold step
  dsimp only
  rw [← hpart, ← hfs, heq]
  rcases st.part.appendBatch items nowMs [] st.fs with ⟨_ | _, p, fs⟩ <;> exact ⟨rfl, rfl⟩

/-- **One operation** leaves the files that what is stored of it leaves. -/
theorem step_stored (h : st.Same st') (op : Op) : (step st op).Same (run st' op.stored) := by
  cases op with
  | append key value ts =>
    rw [Op.stored]
    split
    · rename_i hlarge
      show (step st (.append key value ts)).Same st'
      simp only [step, appendWithTimestamp_refused hlarge]
      exact h
    · exact step_append_same h (appendWithTimestamp_cut st.part key value ts {} st.fs)
  | batch items nowMs =>
    rw [Op.stored]
    split
    · rename_i hlarge
      obtain ⟨status, heq⟩ := appendBatch_refused hlarge st.part nowMs [] st.fs
      show (step st (.batch items nowMs)).Same st'
      simp only [step, heq]
      exact h
    · exact step_batch_same h (appendBatch_cut st.part items nowMs [] st.fs)
  | retain retentionMs retentionBytes dryRun nowMs =>
    obtain ⟨hpart, hfs⟩ := h
    simp only [Op.stored, run, List.foldl_cons, List.foldl_nil, step, hpart, hfs]
    exact ⟨rfl, rfl⟩
  | restart full =>
    obtain ⟨hpart, hfs⟩ := h
    simp only [Op.stored, run, List.foldl_cons, List.foldl_nil, step, hpart, hfs]
    exact ⟨rfl, rfl⟩

/-- **A run** leaves the files that what is stored of it leaves. -/
theorem run_stored (st : RunState) (ops : List Op) :
    (run st ops).Same (run st (ops.flatMap Op.stored)) := by
  induction ops using List.reverseRecOn with
  | nil => exact ⟨rfl, rfl⟩
  | append_singleton ops op ih =>
    have hrun : run st ((ops ++ [op]).flatMap Op.stored) =
        run (run st (ops.flatMap Op.stored)) op.stored := by
      simp [run]
    rw [run_snoc, hrun]
    exact step_stored ih op

theorem handedIn_flatMap_stored (ops : List Op) :
    handedIn (ops.flatMap Op.stored) ≤ handedIn ops := by
  induction ops with
  | nil => exact Nat.le_refl _
  | cons op ops ih =>
    have hop := handedIn_stored op
    simp only [handedIn, List.flatMap_cons, List.map_append, List.sum_append, List.map_cons,
      List.sum_cons] at hop ih ⊢
    exact Nat.add_le_add hop ih

theorem inBuffer_of_small (h : key.length + value.length < 2 ^ 32 - 28) :
    RecordCodec.InBuffer key value := by
  rw [RecordCodec.inBuffer_iff, u32_of_lt (by omega), u32_of_lt (by omega)]
  omega

theorem Op.Sized.inBuffer {op : Op} (h : op.Sized) : op.InBuffer := by
  cases op with
  | append key value ts => exact fun _ => inBuffer_of_small h
  | batch items nowMs => exact fun _ item hitem => inBuffer_of_small (h item hitem)
  | retain => trivial
  | restart => trivial

end StreamForge
