import StreamForge.Storage.LogSegment

/-!
# What a scan keeps of a log

Recovery reads a log from the start and stops at the first thing that is not a
record. `ScanGood` is the state of the loop once it has accepted the records `rs`
of a log: its position, a sound index of them and the offset that comes next.
`ScanGood.accept` takes it over one more record.
-/

namespace StreamForge

open FileTrace FileHandle Blocks

/-! ## Logs -/

/-- The records carry the offsets `start, start + 1, …`. -/
def Consecutive (start : ℕ) (rs : List Record) : Prop :=
  ∀ i r, rs[i]? = some r → r.offset.toNat = start + i

/-- What an interrupted write leaves behind the last whole record. -/
def Torn (tail : Bytes) : Prop :=
  tail = [] ∨ ∃ r : Record, r.Fits ∧ tail <+: RecordCodec.encode r ∧ tail.length < r.size

theorem Torn.nil : Torn [] := Or.inl rfl

theorem Consecutive.nil (start : ℕ) : Consecutive start [] := by
  intro i r h
  simp at h

variable {rs : List Record} {r : Record} {n : ℕ} {base : UInt64}

theorem Consecutive.snoc {start : ℕ} (h : Consecutive start rs)
    (hr : r.offset.toNat = start + rs.length) : Consecutive start (rs ++ [r]) := by
  intro i x hx
  rcases Nat.lt_trichotomy i rs.length with hi | hi | hi
  · rw [List.getElem?_append_left hi] at hx
    exact h i x hx
  · subst hi
    rw [List.getElem?_concat_length] at hx
    cases hx
    exact hr
  · rw [List.getElem?_eq_none (by simp; omega)] at hx
    cases hx

theorem Consecutive.take {start : ℕ} (h : Consecutive start rs) (n : ℕ) :
    Consecutive start (rs.take n) := by
  intro i r hr
  by_cases hi : i < n
  · rw [List.getElem?_take_of_lt hi] at hr
    exact h i r hr
  · rw [List.getElem?_eq_none (by rw [List.length_take]; omega)] at hr
    cases hr

theorem min_size (r : Record) : 28 ≤ r.size := by
  unfold Record.size
  omega

/-! ## What the loop has accepted -/

/-- The loop has accepted exactly `rs`. -/
structure ScanGood (base : UInt64) (rs : List Record) (s : ScanState) : Prop where
  pos : s.currentPos = (encodeAll rs).length
  sound : IndexSound rs s.index
  first : s.index = [] → rs = []
  next : s.nextOffset = base + UInt64.ofNat rs.length

def ScanState.start (base : UInt64) : ScanState := { lastOffset := base, nextOffset := base }

theorem ScanGood.start (base : UInt64) : ScanGood base [] (ScanState.start base) where
  pos := rfl
  sound := IndexSound.nil []
  first := fun _ => rfl
  next := by simp [ScanState.start]

theorem relOffset_eq {offset : UInt64} (h : offset.toNat = base.toNat + n) (hn : n < 2 ^ 32) :
    u32 (offset - base).toNat = n := by
  have hle : base ≤ offset := UInt64.le_iff_toNat_le.mpr (by omega)
  rw [UInt64.toNat_sub_of_le _ _ hle, h, Nat.add_sub_cancel_left, u32_of_lt hn]

theorem offset_eq {offset : UInt64} (h : offset.toNat = base.toNat + n) :
    offset = base + UInt64.ofNat n := by
  have hlt := offset.toNat_lt
  apply UInt64.toNat_inj.mp
  rw [UInt64.toNat_add, UInt64.toNat_ofNat']
  omega

theorem ScanGood.accept {s : ScanState} (h : ScanGood base rs s)
    (hoff : r.offset.toNat = base.toNat + rs.length)
    (hlen : (encodeAll (rs ++ [r])).length < 2 ^ 32) (interval : UInt32) :
    ScanGood base (rs ++ [r]) (s.accept base interval r (RecordCodec.encode r)) := by
  rw [encodeAll_append, encodeAll_singleton, List.length_append] at hlen
  have hcount := length_le_encodeAll rs
  have hrel := relOffset_eq hoff (by omega)
  have henc : u32 (RecordCodec.encode r).length = (RecordCodec.encode r).length :=
    u32_of_lt (by omega)
  refine ⟨?_, ?_, ?_, ?_⟩
  · rw [encodeAll_append, encodeAll_singleton, List.length_append]
    simp only [ScanState.accept, henc, h.pos]
    exact u32_of_lt hlen
  · simp only [ScanState.accept, hrel, h.pos]
    split
    · exact h.sound.push h.first r
    · exact h.sound.append [r]
  · intro hnil
    simp only [ScanState.accept] at hnil
    split at hnil
    · simp at hnil
    · rename_i hdue
      simp [hnil] at hdue
  · simp only [ScanState.accept, offset_eq hoff, List.length_append, List.length_singleton]
    rw [UInt64.ofNat_add, UInt64.add_assoc]
    rfl

end StreamForge
