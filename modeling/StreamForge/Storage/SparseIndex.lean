import StreamForge.Storage.Counters
import StreamForge.Storage.OffsetWrap

/-!
# The sparse index of every segment

Appends, the `.index` file of a quick start and the two scans count the bytes between
two entries differently, so which records are indexed depends on the history; that the
entries are in order, begin with the first record and point at records does not
(`SparseIndex`).

`IndexSound` says so of one list. What this file adds is that the list is never
empty beside a log that is not, neither in memory nor in the file that a later
quick start will trust (`Indexed`).
-/

namespace StreamForge

open FileTrace FileHandle

/-! ## The invariant in memory and on disk -/

/-- The index in memory and the one in the file begin with the first record. -/
def Indexed (_limit : UInt32) (seg : LogSegment) (fl : Files) : Prop :=
  (seg.index = [] → fl.records = []) ∧
  ∃ es, fl .index = some (OffsetIndex.encodeEntries es) ∧ IndexSound fl.records es ∧
    (es = [] → fl.records = [])

theorem OpenOn.indexed {limit : UInt32} {seg : LogSegment} {fl : Files} (h : OpenOn seg fl) :
    Indexed limit seg fl :=
  ⟨h.first, seg.index, h.indexFile, h.sound, h.first⟩

theorem accept_index_ne_nil (s : ScanState) (base : UInt64) (interval : UInt32) (r : Record)
    (buf : Bytes) : (s.accept base interval r buf).index ≠ [] := by
  show (if s.index.isEmpty || _ then _ else _) ≠ _
  split
  · simp
  · rename_i hdue
    intro hnil
    simp [hnil] at hdue

theorem scanned_index_ne_nil (seg : LogSegment) {log : Bytes} (h : blocksOf log ≠ []) :
    (seg.scanned log).index ≠ [] := by
  show ((ScanState.start seg.baseOffset).acceptAll _ _ (blocksOf log)).index ≠ []
  obtain hnil | ⟨bs, b, hbs⟩ := List.eq_nil_or_concat' (blocksOf log)
  · exact absurd hnil h
  · rw [hbs, ScanState.acceptAll_snoc]
    exact accept_index_ne_nil _ _ _ _ _

theorem indexed_law : SegmentLaw Indexed where
  new hopen _ := hopen.indexed
  write _ _ _ _ _ _ hopen _ := hopen.indexed
  close := by
    rintro limit seg fl fl' - hopen _ hkeep -
    have hrecords : fl'.records = fl.records := by
      rw [Files.records, hkeep .log (by simp)]
      rfl
    refine ⟨hrecords ▸ hopen.first, seg.index, ?_, hrecords ▸ hopen.sound, hrecords ▸ hopen.first⟩
    rw [hkeep .index (by simp)]
    exact hopen.indexFile
  rescan _ _ hopen := hopen.indexed
  reload := by
    rintro limit p d seg ⟨-, es, hfile, hsound, hne⟩ hclosed hclosed'
    have hrecords := recoveredFile_records p d seg.baseOffset false
    have hsome : recordsAt d seg.baseOffset ≠ [] := hclosed.ne
    by_cases hbranch : branchOf p d seg.baseOffset false = .quick
    · -- the file is loaded and stays as it is
      have hlookup : d.lookup ⟨seg.baseOffset, .index⟩ =
        some (OffsetIndex.encodeEntries es) := hfile
      have hindex : (recoveredSegment p d seg.baseOffset false).index = es := by
        obtain ⟨-, -, -, -, hloaded⟩ := (p.newSegment seg.baseOffset).openedMarked_spec d
        change _ = OffsetIndex.loadEntries ((d.lookup ⟨seg.baseOffset, .index⟩).getD []) at hloaded
        unfold recoveredSegment
        rw [hbranch]
        show ((p.newSegment seg.baseOffset).openedMarked d).index = es
        rw [hloaded, hlookup, Option.getD_some,
          OffsetIndex.loadEntries_encodeEntries (hsound.fit hclosed.len)]
      refine ⟨?_, es, ?_, ?_, ?_⟩
      · rw [hindex, hrecords]
        exact hne
      · rw [recoveredFile, if_pos hbranch, hlookup]
        rfl
      · rw [hrecords]
        exact hsound
      · rw [hrecords]
        exact hne
    · -- the list is built anew and written to the file
      have hindex : (recoveredSegment p d seg.baseOffset false).index ≠ [] := by
        have hblocks : blocksOf (logOf d seg.baseOffset) ≠ [] := by
          intro hnil
          exact hsome (by rw [recordsAt, hnil]; rfl)
        have hscan := scanned_index_ne_nil ((p.newSegment seg.baseOffset).openedMarked d) hblocks
        unfold recoveredSegment
        dsimp only
        split
        · exact hscan
        · exact hscan
        · exact hscan
        · rename_i hquick
          exact absurd hquick hbranch
      refine ⟨fun hnil => absurd hnil hindex, _, ?_, hclosed'.sound, fun hnil => absurd hnil hindex⟩
      rw [recoveredFile, if_neg hbranch]

/-! ## The sparse index -/

/-- **The sparse index of a segment** whose log holds the records `rs`. -/
structure SparseIndex (seg : LogSegment) (rs : List Record) : Prop where
  empty_iff : seg.index = [] ↔ encodeAll rs = []
  first : ∀ e, seg.index.head? = some e → e = ⟨0, 0⟩
  increasing : seg.index.Pairwise fun a b =>
    a.relativeOffset < b.relativeOffset ∧ a.filePosition < b.filePosition
  /-- Every entry points at the record of its offset. -/
  starts : ∀ e ∈ seg.index, ∃ before r after, rs = before ++ r :: after ∧
    e.filePosition = (encodeAll before).length ∧
    r.offset.toNat = seg.baseOffset.toNat + e.relativeOffset
  /-- A lookup finds the entry with the largest offset not above its target. -/
  lookup : ∀ t : UInt64, (∃ r ∈ rs, r.offset = t) →
    ∃ e ∈ seg.index, seg.lookupFilePosition t = e.filePosition ∧
      seg.baseOffset.toNat + e.relativeOffset ≤ t.toNat ∧
      ∀ e' ∈ seg.index, seg.baseOffset.toNat + e'.relativeOffset ≤ t.toNat →
        e'.relativeOffset ≤ e.relativeOffset

theorem posOf_strictMono {rs : List Record} {i j : ℕ} (hij : i < j) (hj : j ≤ rs.length) :
    posOf rs i < posOf rs j := by
  have hsplit := Blocks.blockStart_append (f := RecordCodec.encode)
    (show i ≤ (rs.take j).length by rw [List.length_take]; omega) (rs.drop j)
  rw [List.take_append_drop] at hsplit
  have hlt := @posOf_lt (rs.take j) i (by rw [List.length_take]; omega)
  rw [posOf, hsplit]
  exact hlt

theorem IndexSound.starts {rs : List Record} {es : List IndexEntry} (h : IndexSound rs es)
    {base : ℕ} (hcons : Consecutive base rs) {e : IndexEntry} (he : e ∈ es) :
    ∃ before r after, rs = before ++ r :: after ∧ e.filePosition = (encodeAll before).length ∧
      r.offset.toNat = base + e.relativeOffset := by
  obtain ⟨k, hk, rfl⟩ := h.mem he
  refine ⟨rs.take k, rs[k], rs.drop (k + 1), ?_, rfl, ?_⟩
  · rw [← List.drop_eq_getElem_cons hk, List.take_append_drop]
  · exact hcons k _ (List.getElem?_eq_getElem hk)

theorem IndexSound.sparse {seg : LogSegment} {rs : List Record} (h : IndexSound rs seg.index)
    (hcons : Consecutive seg.baseOffset.toNat rs) (hlen : (encodeAll rs).length < 2 ^ 32)
    (hne : seg.index = [] → rs = []) : SparseIndex seg rs := by
  have hfew := length_le_encodeAll rs
  refine ⟨?_, ?_, ?_, fun e he => h.starts hcons he, ?_⟩
  · rw [encodeAll_eq_nil]
    refine ⟨hne, ?_⟩
    rintro rfl
    obtain ⟨ks, hks, -, hlt, -⟩ := h
    rw [hks, List.map_eq_nil_iff, List.eq_nil_iff_forall_not_mem]
    intro k hk
    exact absurd (hlt k hk) (by simp)
  · intro e he
    obtain ⟨ks, hks, -, -, hhead⟩ := h
    rw [hks, List.head?_map] at he
    obtain ⟨k, hk, rfl⟩ := Option.map_eq_some_iff.mp he
    rw [hhead k hk, entryAt, posOf, Blocks.blockStart_zero]
  · obtain ⟨ks, hks, hsorted, hlt, -⟩ := h
    rw [hks, List.pairwise_map]
    refine hsorted.imp_of_mem ?_
    intro a b _ hb hab
    exact ⟨hab, posOf_strictMono hab (Nat.le_of_lt (hlt b hb))⟩
  · rintro t ⟨r, hr, rfl⟩
    obtain ⟨i, hi⟩ := List.mem_iff_getElem?.mp hr
    have hoff := hcons i r hi
    have hi' : i < rs.length := (List.getElem?_eq_some_iff.mp hi).1
    have hrel : seg.relOffset r.offset = i := relOffset_eq hoff (by omega)
    obtain ⟨k, hk, hmem, hpos, hmax⟩ := lookup_greatest h i
    have hentry : entryAt rs k ∈ seg.index := by
      rcases hmem with ⟨hnil, -⟩ | hmem
      · rw [hne hnil] at hr
        cases hr
      · exact hmem
    refine ⟨entryAt rs k, hentry, ?_, ?_, ?_⟩
    · unfold LogSegment.lookupFilePosition
      split
      · rename_i hle
        have hzero : i = 0 := by
          have := UInt64.le_iff_toNat_le.mp hle
          omega
        obtain rfl : k = 0 := by omega
        rw [entryAt, posOf, Blocks.blockStart_zero]
      · rw [hrel, hpos]
        rfl
    · rw [hoff]
      exact Nat.add_le_add_left hk _
    · intro e' he' hle
      obtain ⟨j, -, rfl⟩ := h.mem he'
      refine hmax j he' ?_
      rw [hoff] at hle
      exact Nat.le_of_add_le_add_left hle

/-- **In every state of a run without failures**, every segment has a sparse index
of its log, whatever the index interval. -/
theorem sparse_index_everywhere {p : Partition} {fs : FileSystem} (h : Reached p fs) :
    ∀ seg ∈ p.segments, ∃ rs, fs.dir.lookup seg.logFile = some (encodeAll rs) ∧
      SparseIndex seg rs := by
  intro seg hseg
  have hindexed := h.throughout indexed_law seg hseg
  have hon := h.onFiles hseg
  exact ⟨_, hon.log, hon.sound.sparse hon.consecutive hon.len hindexed.1⟩

/-- Two segments, the first of them loaded from its files by a quick start and the
second one rebuilt and appended to. -/
def indexedRun : RunState :=
  run (RunState.init (Partition.new 0 [] { segmentMaxBytes := 90, indexIntervalBytes := 28 }))
    [.batch [([], []), ([], []), ([], []), ([], [])] 5, .restart false, .append [] [] 9]

theorem sparse_index_everywhere_reloaded :
    (indexedRun.part.segments.map fun seg => seg.index) = [[⟨0, 0⟩, ⟨2, 56⟩], [⟨0, 0⟩, ⟨1, 28⟩]] ∧
      ∀ seg ∈ indexedRun.part.segments, ∃ rs,
        indexedRun.fs.dir.lookup seg.logFile = some (encodeAll rs) ∧ SparseIndex seg rs := by
  refine ⟨by decide +kernel, ?_⟩
  refine sparse_index_everywhere (reached_run 0 [] _ ?_ (by decide))
  simp only [List.mem_cons, List.not_mem_nil, or_false, forall_eq_or_imp, forall_eq, Op.Sized]
  decide

/-- **The promise has a limit**: the record behind the last offset gets offset 0 and
is entered beside a base of 2^64 - 1. -/
theorem sparse_index_fails_at_wrap : (∀ op ∈ edgeOps 18446744073709551613, op.Sized) ∧
    ¬∀ seg ∈ (pastEdge 18446744073709551613).part.segments, ∃ rs,
      (pastEdge 18446744073709551613).fs.dir.lookup seg.logFile = some (encodeAll rs) ∧
      SparseIndex seg rs := by
  refine ⟨edgeOps_sized _, ?_⟩
  intro hsparse
  obtain ⟨seg, hseg, hbase, e, he, hone⟩ := @pastEdge_entry 18446744073709551613 (by norm_num)
  obtain ⟨rs, -, hindex⟩ := hsparse seg hseg
  obtain ⟨-, r, -, -, -, hoff⟩ := hindex.starts e he
  have hlt := r.offset.toNat_lt
  omega

end StreamForge
