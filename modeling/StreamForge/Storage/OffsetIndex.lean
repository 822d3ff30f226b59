import StreamForge.Foundation.BinarySearch
import StreamForge.Foundation.Blocks
import StreamForge.Storage.RecordCodec

/-!
# The sparse offset index

`OffsetIndex`: a list of `(relative offset, file position)` pairs, kept in
memory and in the `.index` file, that tells `read` where to start scanning.

An index is *sound* for the records of a segment (`IndexSound`) when it lists
some of them, in order and starting with the first, at the positions where
they really begin. Soundness is kept when records are appended, when an entry
is added for the newest record, and when the index loses a suffix; and a
lookup in a sound index never lands behind its target (`lookup_sound`).
-/

namespace StreamForge

open BinarySearch Blocks

structure IndexEntry where
  relativeOffset : ℕ
  filePosition : ℕ
deriving DecidableEq

namespace OffsetIndex

def lookup (entries : List IndexEntry) (targetRelativeOffset : ℕ) : ℕ :=
  match entries with
  | [] => 0
  | first :: _ =>
    let it := upperBound (fun e => decide (targetRelativeOffset < e.relativeOffset)) entries
    if it = 0 then first.filePosition
    else ((entries[it - 1]?).getD first).filePosition

/-- One entry as `append_to_file` and `rewrite_file` write it. -/
def encodeEntry (e : IndexEntry) : Bytes := writeU32 e.relativeOffset ++ writeU32 e.filePosition

def encodeEntries (entries : List IndexEntry) : Bytes := entries.flatMap encodeEntry

/-- The entries `load_from_file` finds in a file: a trailing fragment shorter
than an entry is dropped. -/
def loadEntries (file : Bytes) : List IndexEntry :=
  (List.range (file.length / 8)).map fun i =>
    ⟨readU32 (file.drop (i * 8)), readU32 (file.drop (i * 8 + 4))⟩

@[simp] theorem length_encodeEntry (e : IndexEntry) : (encodeEntry e).length = 8 := by
  simp [encodeEntry]

theorem length_encodeEntries (es : List IndexEntry) :
    (encodeEntries es).length = 8 * es.length := by
  induction es with
  | nil => rfl
  | cons e es ih =>
    rw [encodeEntries, List.flatMap_cons, List.length_append, length_encodeEntry, List.length_cons]
    unfold encodeEntries at ih
    omega

/-! ## Loading what was written -/

def EntriesFit (es : List IndexEntry) : Prop :=
  ∀ e ∈ es, e.relativeOffset < 2 ^ 32 ∧ e.filePosition < 2 ^ 32

theorem blockStart_encodeEntry (es : List IndexEntry) {i : ℕ} (h : i ≤ es.length) :
    blockStart encodeEntry es i = i * 8 := by
  have hlen := length_encodeEntries (es.take i)
  rw [List.length_take, Nat.min_eq_left h] at hlen
  unfold blockStart
  unfold encodeEntries at hlen
  omega

/-- **A cut index file loads as a cut index.** -/
theorem loadEntries_cut {es : List IndexEntry} (hfit : EntriesFit es) {p : Bytes}
    (h : p <+: encodeEntries es) : loadEntries p = es.take (p.length / 8) := by
  have hplen : p.length ≤ 8 * es.length := length_encodeEntries es ▸ h.length_le
  apply List.ext_getElem?
  intro i
  by_cases hi : i < p.length / 8
  · have hes : i < es.length := by omega
    obtain ⟨q, hq⟩ := h
    have hget : es[i]? = some es[i] := List.getElem?_eq_getElem hes
    have hdrop : (p ++ q).drop (i * 8) = encodeEntry es[i] ++
      (es.drop (i + 1)).flatMap encodeEntry := by
      rw [hq, ← blockStart_encodeEntry es (Nat.le_of_lt hes), encodeEntries, drop_blockStart,
        List.drop_eq_getElem_cons hes, List.flatMap_cons]
    have hp : p.drop (i * 8) ++ q = encodeEntry es[i] ++ (es.drop (i + 1)).flatMap encodeEntry := by
      rw [← hdrop, List.drop_append_of_le_length (by omega)]
    -- the eight bytes of the entry are all inside `p`
    have hentry : encodeEntry es[i] <+: p.drop (i * 8) := by
      have hwhole : encodeEntry es[i] <+: p.drop (i * 8) ++ q := hp ▸ List.prefix_append _ _
      refine List.prefix_of_prefix_length_le hwhole (List.prefix_append _ _) ?_
      rw [length_encodeEntry, List.length_drop]
      omega
    obtain ⟨s, hs⟩ := hentry
    obtain ⟨hrel, hpos⟩ := hfit es[i] (List.getElem_mem hes)
    have h1 : readU32 (p.drop (i * 8)) = es[i].relativeOffset := by
      rw [← hs, encodeEntry, List.append_assoc]
      exact readU32_writeU32 hrel _
    have h2 : readU32 (p.drop (i * 8 + 4)) = es[i].filePosition := by
      rw [← List.drop_drop, ← hs, encodeEntry, List.append_assoc,
        List.drop_left' (length_writeU32 _)]
      exact readU32_writeU32 hpos _
    rw [List.getElem?_take_of_lt hi, hget]
    simp [loadEntries, hi, h1, h2]
  · rw [List.getElem?_eq_none (by simpa [loadEntries] using hi),
      List.getElem?_eq_none (by rw [List.length_take]; omega)]

theorem loadEntries_encodeEntries {es : List IndexEntry} (hfit : EntriesFit es) :
    loadEntries (encodeEntries es) = es := by
  rw [loadEntries_cut hfit (List.prefix_refl _), length_encodeEntries,
    Nat.mul_div_cancel_left _ (by norm_num), List.take_length]

theorem readU32_take {c : Bytes} {n i : ℕ} (h : i + 4 ≤ n) :
    readU32 ((c.take n).drop i) = readU32 (c.drop i) := by
  rw [readU32, readU32, List.drop_take, List.take_take, Nat.min_eq_left (by omega)]

theorem loadEntries_take (c : Bytes) (n : ℕ) :
    loadEntries (c.take n) = (loadEntries c).take ((c.take n).length / 8) := by
  unfold loadEntries
  have hlen : (c.take n).length ≤ n ∧ (c.take n).length ≤ c.length := by
    rw [List.length_take]
    omega
  rw [← List.map_take, List.take_range, Nat.min_eq_left (Nat.div_le_div_right hlen.2)]
  refine List.map_congr_left ?_
  intro i hi
  rw [List.mem_range] at hi
  rw [readU32_take (by omega), readU32_take (by omega)]

end OffsetIndex

/-! ## Concatenated records -/

def encodeAll (rs : List Record) : Bytes := rs.flatMap RecordCodec.encode

def posOf (rs : List Record) (k : ℕ) : ℕ := blockStart RecordCodec.encode rs k

@[simp] theorem encodeAll_nil : encodeAll [] = [] := rfl

theorem encodeAll_append (rs rs' : List Record) :
    encodeAll (rs ++ rs') = encodeAll rs ++ encodeAll rs' := by
  simp [encodeAll]

theorem encodeAll_singleton (r : Record) : encodeAll [r] = RecordCodec.encode r := by
  simp [encodeAll]

theorem length_encode_pos (r : Record) : 0 < (RecordCodec.encode r).length := by
  simp [RecordCodec.encode]

variable {rs : List Record} {es : List IndexEntry}

theorem encodeAll_eq_nil : encodeAll rs = [] ↔ rs = [] := by
  cases rs with
  | nil => simp
  | cons r rs =>
    have h := length_encode_pos r
    simp only [encodeAll, List.flatMap_cons, List.append_eq_nil_iff, reduceCtorEq, iff_false]
    rintro ⟨h0, -⟩
    simp [h0] at h

theorem length_le_encodeAll (rs : List Record) : rs.length ≤ (encodeAll rs).length := by
  induction rs with
  | nil => simp
  | cons r rs ih =>
    have h := length_encode_pos r
    simp only [encodeAll, List.flatMap_cons, List.length_append, List.length_cons] at ih ⊢
    omega

theorem posOf_lt {rs : List Record} {k : ℕ} (h : k < rs.length) :
    posOf rs k < (encodeAll rs).length :=
  blockStart_lt _ (fun r _ => length_encode_pos r) h

/-! ## Soundness -/

def entryAt (rs : List Record) (k : ℕ) : IndexEntry := ⟨k, posOf rs k⟩

/-- The index lists some of the records, in order, starting with the first. -/
def IndexSound (rs : List Record) (es : List IndexEntry) : Prop :=
  ∃ ks : List ℕ, es = ks.map (entryAt rs) ∧ ks.Pairwise (· < ·) ∧
    (∀ k ∈ ks, k < rs.length) ∧ ∀ k, ks.head? = some k → k = 0

theorem IndexSound.nil (rs : List Record) : IndexSound rs [] :=
  ⟨[], by simp⟩

theorem IndexSound.append (h : IndexSound rs es) (rs' : List Record) :
    IndexSound (rs ++ rs') es := by
  obtain ⟨ks, rfl, hsorted, hlt, hhead⟩ := h
  refine ⟨ks, ?_, hsorted, ?_, hhead⟩
  · apply List.map_congr_left
    intro k hk
    simp [entryAt, posOf, blockStart_append _ (Nat.le_of_lt (hlt k hk))]
  · intro k hk
    have := hlt k hk
    simp
    omega

/-- An entry for the newest record, unless it would skip the first one. -/
theorem IndexSound.push (h : IndexSound rs es) (hfirst : es = [] → rs = []) (r : Record) :
    IndexSound (rs ++ [r]) (es ++ [⟨rs.length, (encodeAll rs).length⟩]) := by
  obtain ⟨ks, heq, hsorted, hlt, hhead⟩ := h.append [r]
  obtain ⟨ks', heq', -, hlt', -⟩ := h
  have hks : ks = ks' := by
    have hmap := congrArg (List.map IndexEntry.relativeOffset) (heq.symm.trans heq')
    simpa [entryAt, Function.comp_def] using hmap
  subst hks
  refine ⟨ks ++ [rs.length], ?_, ?_, ?_, ?_⟩
  · rw [List.map_append, ← heq]
    simp [entryAt, posOf, blockStart_append, blockStart_length, encodeAll]
  · refine List.pairwise_append.mpr ⟨hsorted, List.pairwise_singleton _ _, ?_⟩
    intro a ha b hb
    rw [List.mem_singleton.mp hb]
    exact hlt' a ha
  · intro k hk
    rcases List.mem_append.mp hk with hk | hk
    · exact hlt k hk
    · simp [List.mem_singleton.mp hk]
  · intro k hk
    cases ks with
    | nil =>
      have hrs : rs = [] := hfirst (by simpa using heq)
      simpa [hrs] using hk.symm
    | cons a ks => exact hhead k (by simpa using hk)

theorem IndexSound.take (h : IndexSound rs es) (n : ℕ) : IndexSound rs (es.take n) := by
  obtain ⟨ks, rfl, hsorted, hlt, hhead⟩ := h
  refine ⟨ks.take n, by rw [List.map_take], hsorted.sublist (List.take_sublist _ _),
    fun k hk => hlt k (List.mem_of_mem_take hk), ?_⟩
  intro k hk
  cases ks with
  | nil => simp at hk
  | cons a ks =>
    cases n with
    | zero => simp at hk
    | succ n => exact hhead k (by simpa using hk)

theorem IndexSound.fit (h : IndexSound rs es) (hlen : (encodeAll rs).length < 2 ^ 32) :
    OffsetIndex.EntriesFit es := by
  obtain ⟨ks, rfl, -, hlt, -⟩ := h
  intro e he
  obtain ⟨k, hk, rfl⟩ := List.mem_map.mp he
  have h1 := posOf_lt (hlt k hk)
  have h2 := length_le_encodeAll rs
  have h3 := hlt k hk
  exact ⟨by simp only [entryAt]; omega, by simp only [entryAt]; omega⟩

theorem IndexSound.filePosition_lt (h : IndexSound rs es) {e : IndexEntry} (he : e ∈ es) :
    e.filePosition < (encodeAll rs).length := by
  obtain ⟨ks, rfl, -, hlt, -⟩ := h
  obtain ⟨k, hk, rfl⟩ := List.mem_map.mp he
  exact posOf_lt (hlt k hk)

theorem IndexSound.mem (h : IndexSound rs es) {e : IndexEntry} (he : e ∈ es) :
    ∃ k, k < rs.length ∧ e = entryAt rs k := by
  obtain ⟨ks, rfl, -, hlt, -⟩ := h
  obtain ⟨k, hk, rfl⟩ := List.mem_map.mp he
  exact ⟨k, hlt k hk, rfl⟩

theorem lookup_greatest (h : IndexSound rs es) (target : ℕ) :
    ∃ k, k ≤ target ∧ (es = [] ∧ k = 0 ∨ entryAt rs k ∈ es) ∧
      OffsetIndex.lookup es target = posOf rs k ∧
      ∀ j, entryAt rs j ∈ es → j ≤ target → j ≤ k := by
  obtain ⟨ks, rfl, hsorted, hlt, hhead⟩ := h
  cases ks with
  | nil => exact ⟨0, by omega, Or.inl ⟨rfl, rfl⟩, by simp [OffsetIndex.lookup, posOf], by simp⟩
  | cons a ks =>
    obtain rfl : a = 0 := hhead a rfl
    set es := (0 :: ks).map (entryAt rs) with hes
    set p : IndexEntry → Bool := fun e => decide (target < e.relativeOffset) with hp
    have hmono : BinarySearch.Monotone p es := by
      rw [hes]
      refine List.pairwise_map.mpr (hsorted.imp ?_)
      intro x y hxy hx
      simp only [hp, entryAt, decide_eq_true_eq] at hx ⊢
      omega
    obtain ⟨hle, hlo, hhi⟩ := upperBound_spec hmono
    have hne : upperBound p es ≠ 0 := by
      intro h0
      have := hhi 0 (entryAt rs 0) (by omega) (by simp [hes])
      simp [hp, entryAt] at this
    have hlen : es.length = (0 :: ks).length := by simp [hes]
    have hlast : upperBound p es - 1 < (0 :: ks).length := by omega
    have hgets : ∀ i (hi : i < (0 :: ks).length), es[i]? = some (entryAt rs ((0 :: ks)[i])) := by
      intro i hi
      rw [hes, List.getElem?_map, List.getElem?_eq_getElem hi]
      rfl
    have hget := hgets _ hlast
    have hfalse := hlo _ _ (by omega) hget
    refine ⟨(0 :: ks)[upperBound p es - 1], ?_, Or.inr (List.mem_of_getElem? hget), ?_, ?_⟩
    · simpa [hp, entryAt] using hfalse
    · have hcons : es = entryAt rs 0 :: ks.map (entryAt rs) := by simp [hes]
      rw [show OffsetIndex.lookup es target = if upperBound p es = 0 then
        (entryAt rs 0).filePosition else
        ((es[upperBound p es - 1]?).getD (entryAt rs 0)).filePosition from by
          rw [hcons]; rfl, if_neg hne, hget]
      rfl
    · intro j hj hjt
      obtain ⟨x, hx, hxj⟩ := List.mem_map.mp (hes ▸ hj)
      obtain rfl : x = j := congrArg IndexEntry.relativeOffset hxj
      obtain ⟨i, hi, hix⟩ := List.getElem_of_mem hx
      -- an entry at or behind the boundary is above the target
      have hbefore : i < upperBound p es := by
        by_contra hge
        have := hhi i _ (by omega) (hgets i hi)
        rw [hix] at this
        simp only [hp, entryAt, decide_eq_true_eq] at this
        omega
      rcases Nat.lt_or_eq_of_le (show i ≤ upperBound p es - 1 by omega) with hlt' | heq
      · rw [← hix]
        exact Nat.le_of_lt (List.pairwise_iff_getElem.mp hsorted i _ hi hlast hlt')
      · subst heq
        exact Nat.le_of_eq hix.symm

/-- **A lookup never lands behind its target**: it returns the start of the
log or the position of a record whose relative offset is at most the target. -/
theorem lookup_sound (h : IndexSound rs es) (target : ℕ) :
    ∃ k, k ≤ target ∧ (k = 0 ∨ k < rs.length) ∧ OffsetIndex.lookup es target = posOf rs k := by
  obtain ⟨k, hle, hk, heq, -⟩ := lookup_greatest h target
  refine ⟨k, hle, ?_, heq⟩
  rcases hk with ⟨-, hzero⟩ | hmem
  · exact Or.inl hzero
  · obtain ⟨j, hj, hentry⟩ := h.mem hmem
    obtain rfl : k = j := congrArg IndexEntry.relativeOffset hentry
    exact Or.inr hj

end StreamForge
