import StreamForge.Storage.Changes

/-!
# Invariants of single segments

Most of what holds of a partition holds segment by segment: it ties one segment
in memory to its three files. `SegmentLaw` lists what such a property has to
survive (a record more, the roll that closes the segment, a restart that reads the
files back), each with what is known of the segment there; that the other segments
and their files are untouched is proved once, in `SegmentLaw.kept`.
-/

namespace StreamForge

open FileTrace FileHandle LogSegment

/-! ## A segment and its files -/

abbrev Files := FileKind → Option Bytes

def filesOf (d : Disk) (base : UInt64) : Files := fun k => d.lookup ⟨base, k⟩

def Files.records (fl : Files) : List Record := recordsOf (blocksOf ((fl .log).getD []))

structure OnFiles (seg : LogSegment) (fl : Files) : Prop where
  log : fl .log = some (encodeAll fl.records)
  fits : ∀ r ∈ fl.records, r.Fits
  len : (encodeAll fl.records).length < 2 ^ 32
  consecutive : Consecutive seg.baseOffset.toNat fl.records
  size : seg.logSizeBytes = (encodeAll fl.records).length
  sound : IndexSound fl.records seg.index

structure OpenOn (seg : LogSegment) (fl : Files) : Prop extends OnFiles seg fl where
  unsealed : seg.isSealed = false
  unmarked : fl .sealed = none
  indexFile : fl .index = some (OffsetIndex.encodeEntries seg.index)
  first : seg.index = [] → fl.records = []

structure ClosedOn (seg : LogSegment) (fl : Files) : Prop extends OnFiles seg fl where
  ne : fl.records ≠ []

section Directory

variable {p : Partition} {d : Disk} {pre : List SegmentData} {s : SegmentData} {start : ℕ}

variable {seg : LogSegment}

theorem SegFiles.onFiles {x : SegmentData} (h : SegFiles d x [])
    (hcons : Consecutive x.base.toNat x.records) (hmatch : SegMatch seg x) :
    (filesOf d seg.baseOffset).records = x.records ∧ OnFiles seg (filesOf d seg.baseOffset) := by
  have hrecords : (filesOf d seg.baseOffset).records = x.records := by
    rw [hmatch.base]
    exact h.recordsAt
  refine ⟨hrecords, ?_, ?_, ?_, ?_, ?_, ?_⟩
  · rw [hrecords, filesOf, hmatch.base, h.log, List.append_nil]
  · rw [hrecords]
    exact h.fits
  · rw [hrecords]
    simpa using h.len
  · rw [hrecords, hmatch.base]
    exact hcons
  · rw [hrecords]
    exact hmatch.size
  · rw [hrecords]
    exact hmatch.sound

theorem ActiveMatch.openOn (hdisk : DiskInv d (pre ++ [s]) []) (hchain : Chained start (pre ++ [s]))
    (h : ActiveMatch d seg s) :
    (filesOf d seg.baseOffset).records = s.records ∧ OpenOn seg (filesOf d seg.baseOffset) := by
  obtain ⟨-, -, -, hfiles, hsealed, -, -⟩ := diskInv_snoc.mp hdisk
  obtain ⟨-, -, hbase, hcons⟩ := chained_snoc.mp hchain
  obtain ⟨hrecords, hon⟩ := hfiles.onFiles (hbase ▸ hcons) h.toSegMatch
  refine ⟨hrecords, hon, h.unsealed, ?_, ?_, ?_⟩
  · rw [filesOf, h.base, hsealed]
  · rw [filesOf, h.base, h.indexFile]
  · rw [hrecords]
    exact h.first

variable {closed : List LogSegment} {active : LogSegment}

theorem PartInv.openOn (h : PartInv p d pre s) (hchain : Chained start (pre ++ [s]))
    (hsegs : p.segments = closed ++ [active]) :
    (filesOf d active.baseOffset).records = s.records ∧
      OpenOn active (filesOf d active.baseOffset) := by
  obtain ⟨closed', active', hsegs', -, hactive⟩ := h.segments
  obtain ⟨-, hlast⟩ := List.append_inj' (hsegs'.symm.trans hsegs) rfl
  obtain rfl : active' = active := List.singleton_inj.mp hlast
  exact hactive.openOn h.disk hchain

theorem PartInv.closedOn (h : PartInv p d pre s) (hchain : Chained start (pre ++ [s]))
    (hsegs : p.segments = closed ++ [active]) (hseg : seg ∈ closed) :
    ClosedOn seg (filesOf d seg.baseOffset) := by
  obtain ⟨closed', active', hsegs', hmatch, -⟩ := h.segments
  obtain ⟨rfl, -⟩ := List.append_inj' (hsegs'.symm.trans hsegs) rfl
  obtain ⟨i, hi⟩ := List.mem_iff_getElem?.mp hseg
  obtain ⟨x, hx, hm, -⟩ := exists_partner hmatch hi
  have hmem := List.mem_of_getElem? hx
  obtain ⟨-, -, hclosed, -, -, -, -⟩ := diskInv_snoc.mp h.disk
  obtain ⟨hpre, hne, -, -⟩ := chained_snoc.mp hchain
  obtain ⟨hrecords, hon⟩ := (hclosed x hmem).files.onFiles (hpre.getElem hx).1 hm
  exact ⟨hon, hrecords ▸ hne x hmem⟩

end Directory

/-- **What a property of a segment and its files has to survive.** Its first
argument is `segment_max_bytes`. -/
structure SegmentLaw (L : UInt32 → LogSegment → Files → Prop) : Prop where
  new : ∀ {limit : UInt32} {p : Partition} {base : UInt64} {fl : Files},
    OpenOn (p.newSegment base) fl → fl.records = [] → L limit (p.newSegment base) fl
  write : ∀ {limit seg fl fl' r}, L limit seg fl → OpenOn seg fl → r.Fits →
    r.offset.toNat = seg.baseOffset.toNat + fl.records.length →
    (encodeAll fl.records).length + r.size < 2 ^ 32 →
    (fl.records = [] ∨ (encodeAll fl.records).length + r.size ≤ limit.toNat) →
    OpenOn (seg.appended r) fl' → fl'.records = fl.records ++ [r] → L limit (seg.appended r) fl'
  close : ∀ {limit seg fl fl'}, L limit seg fl → OpenOn seg fl → fl.records ≠ [] →
    (∀ k, k ≠ .sealed → fl' k = fl k) → fl' .sealed = some seg.marker.bytes →
    L limit { seg with isSealed := true } fl'
  /-- The active segment is scanned again. -/
  rescan : ∀ {limit p d seg}, L limit seg (filesOf d seg.baseOffset) →
    OpenOn seg (filesOf d seg.baseOffset) →
    OpenOn (recoveredSegment p d seg.baseOffset true) (recoveredFile p d seg.baseOffset true) →
    L limit (recoveredSegment p d seg.baseOffset true) (recoveredFile p d seg.baseOffset true)
  /-- A closed segment is read back, scanned or not. -/
  reload : ∀ {limit p d seg}, L limit seg (filesOf d seg.baseOffset) →
    ClosedOn seg (filesOf d seg.baseOffset) →
    ClosedOn (recoveredSegment p d seg.baseOffset false) (recoveredFile p d seg.baseOffset false) →
    L limit (recoveredSegment p d seg.baseOffset false) (recoveredFile p d seg.baseOffset false)

def Throughout (L : UInt32 → LogSegment → Files → Prop) (p : Partition) (d : Disk) : Prop :=
  ∀ seg ∈ p.segments, L p.config.segmentMaxBytes seg (filesOf d seg.baseOffset)

variable {d : Disk} {p : Partition} {fs : FileSystem}

variable {seg : LogSegment} {base : UInt64}

theorem filesOf_appendOps {r : Record} {sync : Bool} (hb : base ≠ seg.baseOffset) :
    filesOf (applyAll d (seg.appendOps r sync)) base = filesOf d base := by
  funext k
  exact lookup_appendOps (by simp [logFile, hb]) (by simp [indexFile, hb])

theorem filesOf_rollOps {old : LogSegment} (hold : base ≠ old.baseOffset)
    (hnew : base ≠ p.nextOffset) :
    filesOf (applyAll d (p.rollOps old)) base = filesOf d base := by
  funext k
  rw [filesOf, lookup_rollOps p d old (by simp [sealedFile, hold])]
  exact (lookup_opened p d p.nextOffset _).trans (if_neg (by simp [hnew]))

theorem filesOf_rollOps_old {p : Partition} {d : Disk} {old : LogSegment}
    (hnew : old.baseOffset ≠ p.nextOffset) (hsealed : filesOf d old.baseOffset .sealed = none) :
    (∀ k, k ≠ .sealed →
      filesOf (applyAll d (p.rollOps old)) old.baseOffset k = filesOf d old.baseOffset k) ∧
      filesOf (applyAll d (p.rollOps old)) old.baseOffset .sealed = some old.marker.bytes := by
  constructor
  · intro k hk
    rw [filesOf, lookup_rollOps p d old (by simp [sealedFile, hk])]
    exact (lookup_opened p d p.nextOffset _).trans (if_neg (by simp [hnew]))
  · refine @lookup_markerOps_self old (applyAll d (p.newSegment p.nextOffset).openOps) ?_
    exact (lookup_opened p d p.nextOffset _).trans ((if_neg (by simp [sealedFile])).trans hsealed)

theorem opened_blank {p : Partition} {d : Disk} {base : UInt64}
    (hlog : d.lookup ⟨base, .log⟩ = none) (hindex : (d.lookup ⟨base, .index⟩).getD [] = []) :
    (p.newSegment base).opened d = p.newSegment base := by
  have hl : (d.lookup (p.newSegment base).logFile).getD [] = [] := by
    show (d.lookup ⟨base, .log⟩).getD [] = []
    rw [hlog]
    rfl
  have hi : (d.lookup (p.newSegment base).indexFile).getD [] = [] := hindex
  unfold opened
  rw [hl, hi]
  rfl

theorem blocksOf_nil : blocksOf [] = [] := (blocksOf_of_no_item nextBlock_nil).1

theorem recoveredSegment_blank (p : Partition) (h : ∀ f, d.lookup f = none) :
    recoveredSegment p d 0 true = p.newSegment 0 := by
  have hopened : (p.newSegment 0).openedMarked d = p.newSegment 0 := by
    unfold openedMarked
    rw [h]
    exact opened_blank (h _) (by rw [h]; rfl)
  have hlog : logOf d 0 = [] := by rw [logOf, h]; rfl
  show ((p.newSegment 0).openedMarked d).scanned (logOf d 0) = _
  rw [hopened, hlog]
  unfold LogSegment.scanned scanEnd keptOf
  rw [blocksOf_nil]
  rfl

section Laws

variable {L : UInt32 → LogSegment → Files → Prop}

variable {p : Partition} {d : Disk} {pre : List SegmentData} {s : SegmentData} {start : ℕ}

variable {closed : List LogSegment} {active : LogSegment} {p' : Partition} {d' : Disk} {full : Bool}
    {pre' : List SegmentData} {s' : SegmentData} {start' : ℕ}

theorem SegmentLaw.kept_write (hL : SegmentLaw L) {r : Record} (sync : Bool) (h : PartInv p d pre s)
    (hchain : Chained start (pre ++ [s])) (hsegs : p.segments = closed ++ [active]) (hr : r.Fits)
    (hoff : r.offset = p.nextOffset) (hnext : p.nextOffset.toNat = s.base.toNat + s.records.length)
    (hstay : p.rollsFor r.key r.value = false) (hI : Throughout L p d) :
    Throughout L { p with
      segments := closed ++ [active.appended r]
      nextOffset := p.nextOffset + 1 } (applyAll d (active.appendOps r sync)) := by
  obtain ⟨hrecords, hopen⟩ := h.openOn hchain hsegs
  obtain ⟨hclosed, hbase, -⟩ := h.mem_segments hsegs
  obtain ⟨-, hlen⟩ := @PartInv.makeRoom_stay p (Fs.start d) _ _ h _ hr hstay
  obtain ⟨closed', active', hsegs', -, hactive⟩ := h.segments
  obtain ⟨-, hlast⟩ := List.append_inj' (hsegs'.symm.trans hsegs) rfl
  obtain rfl : active' = active := List.singleton_inj.mp hlast
  obtain ⟨hdisk, hactive', hchain', -⟩ :=
    appendActive_spec h.disk hactive hchain hr (hoff ▸ hnext) hlen sync
  obtain ⟨hrecords', hopen'⟩ := hactive'.openOn hdisk hchain'
  rw [appended_baseOffset] at hrecords' hopen'
  -- the roll test let the record stay
  have hlimit : s.records = [] ∨
      (encodeAll s.records).length + r.size ≤ p.config.segmentMaxBytes.toNat := by
    have hneeds : p.needsRoll active' r.key r.value = false := by
      simpa [Partition.rollsFor, hsegs] using hstay
    rw [Partition.needsRoll, recordSize_of_fits hr, hactive.size, Bool.and_eq_false_iff,
      decide_eq_false_iff_not, decide_eq_false_iff_not] at hneeds
    rcases hneeds with hzero | hle
    · left
      by_contra hne
      exact hzero (List.length_pos_iff.mpr fun hnil => hne (encodeAll_eq_nil.mp hnil))
    · exact Or.inr (Nat.not_lt.mp hle)
  intro seg hseg
  rcases List.mem_append.mp hseg with hseg | hseg
  · obtain ⟨x, hx, hxb⟩ := hclosed seg hseg
    have hne : seg.baseOffset ≠ active'.baseOffset := by
      rw [hxb, hbase]
      exact UInt64.ne_of_lt (base_lt_of_mem hchain hx)
    rw [filesOf_appendOps hne]
    exact hI seg (by rw [hsegs]; exact List.mem_append_left _ hseg)
  · rw [List.mem_singleton.mp hseg, appended_baseOffset]
    refine hL.write (hI active' (by rw [hsegs]; simp)) hopen hr ?_ ?_ ?_ hopen' ?_
    · rw [hrecords, hbase, hoff]
      exact hnext
    · rw [hrecords]
      exact hlen
    · rw [hrecords]
      exact hlimit
    · rw [hrecords, hrecords']

theorem SegmentLaw.kept_roll (hL : SegmentLaw L) (h : PartInv p d pre s)
    (hchain : Chained start (pre ++ [s])) (hne : s.records ≠ [])
    (hnext : p.nextOffset.toNat = s.base.toNat + s.records.length)
    (hsegs : p.segments = closed ++ [active]) (hI : Throughout L p d) :
    Throughout L { p with segments := closed ++ [{ active with isSealed := true },
      (p.newSegment p.nextOffset).opened d] } (applyAll d (p.rollOps active)) := by
  obtain ⟨hrecords, hopen⟩ := h.openOn hchain hsegs
  obtain ⟨hclosed, hbase, -⟩ := h.mem_segments hsegs
  have hpos : 0 < s.records.length := List.length_pos_iff.mpr hne
  have hlt : s.base < p.nextOffset := UInt64.lt_iff_toNat_lt.mpr (by omega)
  have hblank := @opened_blank p d p.nextOffset (h.next_absent hne hnext (by simp))
    (h.next_index hne hnext)
  have hsame : ∀ f, f ≠ ⟨s.base, .sealed⟩ → (applyAll d (p.rollOps active)).lookup f =
      (applyAll d (p.newSegment p.nextOffset).openOps).lookup f :=
    fun f hf => lookup_rollOps p d active (by rwa [sealedFile, hbase])
  have hsplit : closed ++ [{ active with isSealed := true }, (p.newSegment p.nextOffset).opened d] =
      (closed ++ [{ active with isSealed := true }]) ++
        [(p.newSegment p.nextOffset).opened d] := by simp
  obtain ⟨hrecordsN, hopenN⟩ :=
    (h.rolled hne hnext hsegs hsame).openOn (chained_next hchain hne hnext) hsplit
  intro seg hseg
  rcases List.mem_append.mp hseg with hseg | hseg
  · obtain ⟨x, hx, hxb⟩ := hclosed seg hseg
    have hxlt := base_lt_of_mem hchain hx
    rw [filesOf_rollOps (by rw [hxb, hbase]; exact UInt64.ne_of_lt hxlt)
      (by rw [hxb]; exact UInt64.ne_of_lt (UInt64.lt_trans hxlt hlt))]
    exact hI seg (by rw [hsegs]; exact List.mem_append_left _ hseg)
  rcases List.mem_cons.mp hseg with rfl | hseg
  · obtain ⟨hkeep, hmark⟩ := @filesOf_rollOps_old p d active
      (by rw [hbase]; exact UInt64.ne_of_lt hlt) hopen.unmarked
    exact hL.close (hI active (by rw [hsegs]; simp)) hopen (hrecords ▸ hne) hkeep hmark
  · rw [List.mem_singleton.mp hseg]
    rw [hblank] at hrecordsN hopenN ⊢
    exact hL.new hopenN hrecordsN

theorem SegmentLaw.kept_first (hL : SegmentLaw L) (h : Fresh p d) :
    Throughout L (firstRoll p d) (applyAll d (firstRollOps p)) := by
  have hinv := @Fresh.inv p (Fs.start d) h
  have hchain : Chained 0 ([] ++ [⟨0, []⟩]) :=
    chained_snoc.mpr ⟨trivial, by simp, rfl, Consecutive.nil _⟩
  obtain ⟨hrecords, hopen⟩ := hinv.openOn hchain (List.nil_append _).symm
  have hblank := @opened_blank p d p.nextOffset (h.lookup_none _) (by rw [h.lookup_none]; rfl)
  intro seg hseg
  rw [List.mem_singleton.mp hseg]
  change (filesOf _ ((p.newSegment p.nextOffset).opened d).baseOffset).records = _ at hrecords
  change OpenOn ((p.newSegment p.nextOffset).opened d) _ at hopen
  rw [hblank] at hrecords hopen ⊢
  exact hL.new hopen hrecords

theorem SegmentLaw.kept_restart (hL : SegmentLaw L) (h : PartInv p d pre s)
    (hchain : Chained start (pre ++ [s])) (h' : PartInv p' d' pre' s')
    (hchain' : Chained start' (pre' ++ [s'])) (hrec : RecoveredAny (reopened p full) p' d d')
    (hbases : basesOf d = (pre' ++ [s']).map SegmentData.base) (hI : Throughout L p d) :
    Throughout L p' d' := by
  obtain ⟨closed, active, hsegs, hmatch, hactive⟩ := h.segments
  obtain ⟨closed', active', hsegs', -, -⟩ := h'.segments
  obtain ⟨hclosed', hbase', -⟩ := h'.mem_segments hsegs'
  -- the segments of both partitions have the same bases
  obtain ⟨hpre, hlast⟩ : pre.map SegmentData.base = pre'.map SegmentData.base ∧
      s.base = s'.base := by
    have hsame := h.disk.basesOf.symm.trans hbases
    rw [List.map_append, List.map_append] at hsame
    obtain ⟨hpre, hs⟩ := List.append_inj' hsame rfl
    exact ⟨hpre, List.singleton_inj.mp hs⟩
  have hconfig : p'.config.segmentMaxBytes = p.config.segmentMaxBytes := by
    rw [hrec.config]
    rfl
  have hfiles : ∀ base ∈ basesOf d, filesOf d' base =
      recoveredFile (reopened p full) d base (isLast (basesOf d) base) := by
    intro base hb
    funext k
    exact hrec.inside base hb k
  have hself : ∀ seg ∈ p'.segments, seg.baseOffset ∈ basesOf d ∧
      seg = recoveredSegment (reopened p full) d seg.baseOffset
        (isLast (basesOf d) seg.baseOffset) := by
    intro seg hseg
    rw [hrec.segments] at hseg
    obtain ⟨base, hb, rfl⟩ := List.mem_map.mp hseg
    rw [recoveredSegment_baseOffset]
    exact ⟨hb, rfl⟩
  have hlastIff : ∀ base, isLast (basesOf d) base = decide (s'.base = base) := by
    intro base
    rw [isLast, hbases, List.map_append, List.map_singleton, List.getLast?_concat]
    exact decide_eq_decide.mpr Option.some_inj
  intro seg hseg
  rw [hconfig]
  obtain ⟨hb, heq⟩ := hself seg hseg
  rw [hsegs'] at hseg
  rcases List.mem_append.mp hseg with hseg | hseg
  · obtain ⟨x, hx, hxb⟩ := hclosed' seg hseg
    have hnot : isLast (basesOf d) seg.baseOffset = false := by
      rw [hlastIff, hxb]
      exact decide_eq_false (UInt64.ne_of_lt (base_lt_of_mem hchain' hx)).symm
    -- the segment it was before
    have hmem : seg.baseOffset ∈ closed.map baseOffset := by
      rw [map_base_eq (hmatch.imp fun _ _ hm => hm.1), hpre, hxb]
      exact List.mem_map_of_mem hx
    obtain ⟨old, hold, hob⟩ := List.mem_map.mp hmem
    have hafter := h'.closedOn hchain' hsegs' hseg
    rw [hfiles _ hb, hnot] at hafter ⊢
    rw [hnot] at heq
    rw [heq, recoveredSegment_baseOffset] at hafter ⊢
    rw [← hob] at hafter ⊢
    exact hL.reload (hI old (by rw [hsegs]; exact List.mem_append_left _ hold))
      (h.closedOn hchain hsegs hold) hafter
  · obtain rfl := List.mem_singleton.mp hseg
    have hthis : isLast (basesOf d) seg.baseOffset = true := by
      rw [hlastIff, hbase']
      exact decide_eq_true rfl
    have hob : active.baseOffset = seg.baseOffset := by
      rw [hactive.base, hlast, hbase']
    have hafter := (h'.openOn hchain' hsegs').2
    rw [hfiles _ hb, hthis] at hafter ⊢
    rw [hthis] at heq
    rw [heq, recoveredSegment_baseOffset] at hafter ⊢
    rw [← hob] at hafter ⊢
    exact hL.rescan (hI active (by rw [hsegs]; simp)) (h.openOn hchain hsegs).2 hafter

theorem SegmentLaw.kept_start (hL : SegmentLaw L) (h : Fresh p d) (h' : PartInv p' d' pre' s')
    (hchain' : Chained start' (pre' ++ [s'])) (hrec : RecoveredAny (reopened p full) p' d d') :
    Throughout L p' d' := by
  have hsegs : p'.segments = [] ++ [(reopened p full).newSegment 0] := by
    rw [hrec.segments, h.basesOf, List.nil_append, ← recoveredSegment_blank _ h.lookup_none]
    rfl
  obtain ⟨-, hopen⟩ := h'.openOn hchain' hsegs
  intro seg hseg
  rw [hsegs, List.nil_append] at hseg
  rw [List.mem_singleton.mp hseg]
  refine hL.new hopen ?_
  have hlog : d'.lookup ⟨0, .log⟩ = some (keptOf (logOf d 0)) := by
    have hinside := hrec.inside 0 (by rw [h.basesOf]; simp) .log
    rw [h.basesOf] at hinside
    exact hinside
  have hnil : logOf d 0 = [] := by rw [logOf, h.lookup_none]; rfl
  show recordsAt d' 0 = []
  rw [recordsAt, logOf, hlog, hnil, Option.getD_some, keptOf, blocksOf_nil]
  exact congrArg recordsOf blocksOf_nil

/-- **The rule for segments.** -/
theorem SegmentLaw.kept (hL : SegmentLaw L) : Unbroken (Throughout L) := by
  intro p d p' d' hchange hI
  cases hchange with
  | write sync h hchain hsegs hr hoff hnext hstay =>
    exact hL.kept_write sync h hchain hsegs hr hoff hnext hstay hI
  | roll h hchain hne hnext hsegs => exact hL.kept_roll h hchain hne hnext hsegs hI
  | first h => exact hL.kept_first h
  | drop n hbases hlookup =>
    intro seg hseg
    have hfiles : filesOf d' seg.baseOffset = filesOf d seg.baseOffset :=
      funext fun k => lookup_of_dropped hbases hlookup hseg k
    rw [hfiles]
    exact hI seg (List.drop_subset _ _ hseg)
  | recover full hopened heq =>
    obtain ⟨hrec, pre', s', start', hinv', hchain', hbases⟩ := hopened.recovered heq
    rcases hopened with hfresh | ⟨pre, s, start, hinv, hchain, -⟩
    · exact hL.kept_start hfresh hinv' hchain' hrec
    · exact hL.kept_restart hinv hchain hinv' hchain' hrec hbases hI

end Laws

theorem Reached.throughout {L : UInt32 → LogSegment → Files → Prop} (hL : SegmentLaw L)
    (h : Reached p fs) : Throughout L p fs.dir := by
  refine h.kept hL.kept ?_
  intro p d hfresh seg hseg
  rw [hfresh.segments] at hseg
  cases hseg

theorem Reached.onFiles (h : Reached p fs) (hseg : seg ∈ p.segments) :
    OnFiles seg (filesOf fs.dir seg.baseOffset) := by
  rcases h.opened with hfresh | ⟨pre, s, start, hinv, hchain, -⟩
  · rw [hfresh.segments] at hseg
    cases hseg
  obtain ⟨closed, active, hsegs, -, -⟩ := hinv.segments
  rw [hsegs] at hseg
  rcases List.mem_append.mp hseg with hseg | hseg
  · exact (hinv.closedOn hchain hsegs hseg).toOnFiles
  · obtain rfl := List.mem_singleton.mp hseg
    exact (hinv.openOn hchain hsegs).2.toOnFiles

def Housed (p : Partition) (d : Disk) : Prop :=
  ∀ f, d.lookup f ≠ none → f.base ∈ p.segments.map baseOffset

theorem housed_kept : Unbroken Housed := by
  intro p d p' d' hchange hI f hf
  cases hchange with
  | @write p d pre s start closed active r sync h hchain hsegs hr hoff hnext hstay =>
    have hbases : (closed ++ [active.appended r]).map baseOffset = p.segments.map baseOffset := by
      simp [hsegs]
    show f.base ∈ (closed ++ [active.appended r]).map baseOffset
    rw [hbases]
    by_cases hb : f.base = active.baseOffset
    · rw [hb, hsegs]
      simp
    · refine hI f ?_
      rwa [lookup_appendOps (by rintro rfl; exact hb rfl) (by rintro rfl; exact hb rfl)] at hf
  | @roll p d pre s start closed active h hchain hne hnext hsegs =>
    show f.base ∈ (closed ++ [{ active with isSealed := true },
      (p.newSegment p.nextOffset).opened d]).map baseOffset
    by_cases hnew : f.base = p.nextOffset
    · simp [hnew, opened, Partition.newSegment]
    by_cases hb : f.base = active.baseOffset
    · simp [hb]
    have hold := hI f (by
      rw [lookup_rollOps p d active (by rintro rfl; exact hb rfl), lookup_opened,
        if_neg (by rintro (rfl | rfl) <;> exact hnew rfl)] at hf
      exact hf)
    rw [hsegs] at hold
    simp only [List.map_append, List.mem_append, List.map_cons, List.map_nil,
      List.mem_singleton] at hold
    rcases hold with hold | hold
    · simp [hold]
    · exact absurd hold hb
  | first h =>
    show f.base ∈ [p.nextOffset]
    by_contra hb
    rw [List.mem_singleton] at hb
    have hnone : (applyAll d (p.newSegment p.nextOffset).openOps).lookup f = none := by
      rw [lookup_opened, if_neg (by rintro (rfl | rfl) <;> exact hb rfl), h.lookup_none]
    exact hf hnone
  | drop n hbases hlookup =>
    rw [hlookup] at hf
    split at hf
    · exact absurd rfl hf
    · rename_i hnot
      have hold := hI f hf
      rw [← List.take_append_drop n p.segments, List.map_append] at hold
      exact (List.mem_append.mp hold).resolve_left hnot
  | @recover p p' d fs' full hopened heq =>
    obtain ⟨hrec, -⟩ := hopened.recovered heq
    have hbases : p'.segments.map baseOffset = basesOf d := by
      rw [hrec.segments, recoveredSegments, List.map_map]
      exact List.map_id'' (fun base => recoveredSegment_baseOffset _ _ _ _) _
    rw [hbases]
    by_contra hb
    rw [hrec.outside f hb] at hf
    have hold := hI f hf
    rcases hopened with hfresh | ⟨pre, s, start, hinv, -, -⟩
    · rw [hfresh.segments] at hold
      cases hold
    · rw [map_base_eq hinv.forall₂, ← hinv.disk.basesOf] at hold
      exact hb hold

theorem Reached.housed (h : Reached p fs) : Housed p fs.dir := by
  refine h.kept housed_kept ?_
  intro p d hfresh f hf
  exact absurd (hfresh.lookup_none f) hf

end StreamForge
