import StreamForge.Storage.SegmentOps

/-!
# The partition invariant: appends and rolls

`PartInv` ties a running partition to its directory: every segment in memory
has the size and a sound index of the segment it stands for, only the last one
is open, and the next offset is one past the last record.

Two things are proved of each operation together: the invariant holds again
when it is done, and at every point at which the process may be killed on the
way the directory is still one that recovery can read (`Holding`).
-/

namespace StreamForge

open FileTrace FileHandle StreamForge.Partition LogSegment

structure SegMatch (seg : LogSegment) (s : SegmentData) : Prop where
  base : seg.baseOffset = s.base
  size : seg.logSizeBytes = (encodeAll s.records).length
  sound : IndexSound s.records seg.index

/-- The segment that takes the appends: its index file is the index. -/
structure ActiveMatch (d : Disk) (seg : LogSegment) (s : SegmentData) : Prop
    extends SegMatch seg s where
  unsealed : seg.isSealed = false
  indexFile : d.lookup ⟨s.base, .index⟩ = some (OffsetIndex.encodeEntries seg.index)
  first : seg.index = [] → s.records = []

def ClosedMatch (seg : LogSegment) (s : SegmentData) : Prop :=
  SegMatch seg s ∧ seg.isSealed = true

/-- **The partition invariant.** -/
structure PartInv (p : Partition) (d : Disk) (pre : List SegmentData) (s : SegmentData) : Prop where
  disk : DiskInv d (pre ++ [s]) []
  segments : ∃ closed active, p.segments = closed ++ [active] ∧
    List.Forall₂ ClosedMatch closed pre ∧ ActiveMatch d active s
  next : p.nextOffset = s.base + UInt64.ofNat s.records.length

/-- The directory holds exactly the records `rs` from offset `start` on,
perhaps with a torn record behind them. -/
def Holding (start : ℕ) (rs : List Record) (d : Disk) : Prop :=
  ∃ segs tail, segs ≠ [] ∧ DiskInv d segs tail ∧ Chained start segs ∧ flat segs = rs

variable {p p' : Partition} {d : Disk} {pre : List SegmentData} {s : SegmentData} {start : ℕ}
    {r : Record} {seg : LogSegment} {new : List Record} {fs : FileSystem}
    {batch : List (Bytes × Bytes)}

theorem PartInv.holding (h : PartInv p d pre s) (hstart : Chained start (pre ++ [s])) :
    Holding start (flat (pre ++ [s])) d :=
  ⟨pre ++ [s], [], by simp, h.disk, hstart, rfl⟩

/-! ## One record into the active segment -/

theorem length_encodeAll_snoc {rs : List Record} (hr : r.Fits)
    (h : (encodeAll rs).length + r.size < 2 ^ 32) :
    (encodeAll (rs ++ [r])).length < 2 ^ 32 := by
  rw [encodeAll_append, encodeAll_singleton, List.length_append,
    RecordCodec.length_encode_of_fits hr]
  exact h

theorem SegMatch.appended (h : SegMatch seg s) (hfirst : seg.index = [] → s.records = [])
    (hr : r.Fits) (hoff : r.offset.toNat = s.base.toNat + s.records.length)
    (hlen : (encodeAll s.records).length + r.size < 2 ^ 32) :
    SegMatch (seg.appended r) ⟨s.base, s.records ++ [r]⟩ := by
  have hcount := length_le_encodeAll s.records
  have hsize := RecordCodec.length_encode_of_fits hr
  have hentry : seg.newEntry r = ⟨s.records.length, (encodeAll s.records).length⟩ := by
    unfold newEntry relOffset
    rw [h.base, relOffset_eq hoff (by omega), h.size]
  refine ⟨?_, ?_, ?_⟩
  · rw [appended_baseOffset]
    exact h.base
  · have hu : u32 r.size = r.size := u32_of_lt (by omega)
    rw [appended_logSizeBytes, h.size, hsize, hu, u32_of_lt hlen, encodeAll_append,
      encodeAll_singleton, List.length_append, hsize]
  · rw [appended_index, hentry]
    split
    · exact h.sound.push hfirst r
    · exact h.sound.append [r]

theorem appended_index_ne_nil (seg : LogSegment) (r : Record) : (seg.appended r).index ≠ [] := by
  rw [appended_index]
  split
  · simp
  · rename_i hdue
    intro hnil
    simp [indexDue, hnil] at hdue

theorem lookup_indexOps (seg : LogSegment) (r : Record) (d : Disk) {f : FileName}
    (hf : f ≠ seg.indexFile) : (applyAll d (seg.indexOps r)).lookup f = d.lookup f := by
  unfold indexOps
  split
  · simp [lookup_append, hf]
  · simp

theorem applyAll_flushOps (seg : LogSegment) (d : Disk) : applyAll d seg.flushOps = d := rfl

theorem lookup_indexOps_self (r : Record)
    (h : d.lookup seg.indexFile = some (OffsetIndex.encodeEntries seg.index)) :
    (applyAll d (seg.indexOps r)).lookup seg.indexFile =
      some (OffsetIndex.encodeEntries (seg.appended r).index) := by
  rw [appended_index]
  unfold indexOps
  split
  · simp [lookup_append, h, OffsetIndex.encodeEntries]
  · simpa using h

theorem lookup_logWrite {f : FileName} {c bs : Bytes} (h : d.lookup f = some c) (g : FileName) :
    ((FileOp.append f bs).apply d).lookup g =
      if g = f then some (c ++ bs) else d.lookup g := by
  rw [lookup_append, h]
  rfl

/-- The index file of the active segment is free: recovery rebuilds it. -/
theorem DiskInv.setActiveIndex {d' : Disk} {tail : Bytes} (h : DiskInv d (pre ++ [s]) tail)
    (hsame : ∀ f, f ≠ ⟨s.base, .index⟩ → d'.lookup f = d.lookup f) :
    DiskInv d' (pre ++ [s]) tail := by
  obtain ⟨⟨start, hchain⟩, -, hclosed, -, -, -, hrecent⟩ := diskInv_snoc.mp h
  refine h.setIndex ?_ ?_ ?_
  · intro f hf
    refine hsame f ?_
    rintro rfl
    exact hf rfl
  · intro x hx hmarker
    have hne : x.base ≠ s.base := UInt64.ne_of_lt (base_lt_of_mem hchain hx)
    rw [hsame _ (by simpa using hne)]
    exact (hclosed x hx).index hmarker
  · intro b hb
    by_cases hbs : b = s.base
    · exact Or.inl (hbs ▸ UInt64.le_refl _)
    · have hkeep := hsame ⟨b, .index⟩ (by simpa using hbs)
      rw [hkeep] at hb ⊢
      exact (hrecent _ hb).imp_right And.right

section LogWrite

variable {d : Disk} {pre : List SegmentData} {s : SegmentData} {r : Record}

theorem DiskInv.logTorn (h : DiskInv d (pre ++ [s]) []) (hr : r.Fits)
    (hlen : (encodeAll s.records).length + r.size < 2 ^ 32) {k : ℕ} (hk : k < r.size) :
    DiskInv ((FileOp.append ⟨s.base, .log⟩ ((RecordCodec.encode r).take k)).apply d)
      (pre ++ [s]) ((RecordCodec.encode r).take k) := by
  obtain ⟨⟨start, hchain⟩, -, -, hfiles, -, -, -⟩ := diskInv_snoc.mp h
  obtain ⟨-, -, hbase, hcons⟩ := chained_snoc.mp hchain
  rw [← hbase] at hcons
  have hsize := RecordCodec.length_encode_of_fits hr
  have hlog : d.lookup ⟨s.base, .log⟩ = some (encodeAll s.records) := by
    simpa using hfiles.log
  refine h.setActive ?_ ?_ hcons hfiles.fits ?_ ?_
  · rw [lookup_logWrite hlog, if_pos rfl]
  · intro f hf
    rw [lookup_logWrite hlog, if_neg hf]
  · rw [List.length_append, List.length_take]
    omega
  · exact Or.inr ⟨r, hr, List.take_prefix _ _, by rw [List.length_take]; omega⟩

theorem DiskInv.logWhole (h : DiskInv d (pre ++ [s]) []) (hr : r.Fits)
    (hoff : r.offset.toNat = s.base.toNat + s.records.length)
    (hlen : (encodeAll s.records).length + r.size < 2 ^ 32) :
    DiskInv ((FileOp.append ⟨s.base, .log⟩ (RecordCodec.encode r)).apply d)
      (pre ++ [⟨s.base, s.records ++ [r]⟩]) [] := by
  obtain ⟨⟨start, hchain⟩, -, -, hfiles, -, -, -⟩ := diskInv_snoc.mp h
  obtain ⟨-, -, hbase, hcons⟩ := chained_snoc.mp hchain
  rw [← hbase] at hcons
  have hlog : d.lookup ⟨s.base, .log⟩ = some (encodeAll s.records) := by
    simpa using hfiles.log
  refine h.setActive ?_ ?_ (hcons.snoc hoff) ?_ ?_ Torn.nil
  · rw [lookup_logWrite hlog, if_pos rfl, encodeAll_append, encodeAll_singleton, List.append_nil]
  · intro f hf
    rw [lookup_logWrite hlog, if_neg hf]
  · intro x hx
    rcases List.mem_append.mp hx with hx | hx
    · exact hfiles.fits x hx
    · rw [List.mem_singleton.mp hx]
      exact hr
  · rw [List.append_nil]
    exact length_encodeAll_snoc hr hlen

end LogWrite

theorem holdsThroughout_flushOps {P : Disk → Prop} (h : P d) (seg : LogSegment) :
    HoldsThroughout P d seg.flushOps := by
  refine HoldsThroughout.cons (by simp) h ?_
  exact HoldsThroughout.cons (by simp) h (HoldsThroughout.nil h)

/-- The directory while `new` is being written behind the active segment. -/
def Writing (pre : List SegmentData) (s : SegmentData) (new : List Record) (e : Disk) : Prop :=
  ∃ k tail, DiskInv e (pre ++ [⟨s.base, s.records ++ new.take k⟩]) tail

theorem DiskInv.writing {e : Disk} {pre : List SegmentData} {s : SegmentData} {tail : Bytes}
    (h : DiskInv e (pre ++ [s]) tail) (new : List Record) : Writing pre s new e :=
  ⟨0, tail, by simpa using h⟩

theorem DiskInv.written {e : Disk} {tail : Bytes}
    (h : DiskInv e (pre ++ [⟨s.base, s.records ++ new⟩]) tail) :
    Writing pre s new e :=
  ⟨new.length, tail, by simpa using h⟩

theorem Writing.holding {e : Disk} (h : Writing pre s new e)
    (hchain : Chained start (pre ++ [⟨s.base, s.records ++ new⟩])) :
    ∃ k, Holding start (flat (pre ++ [s]) ++ new.take k) e := by
  obtain ⟨k, tail, hdisk⟩ := h
  obtain ⟨hpre, hne, hbase, hcons⟩ := chained_snoc.mp hchain
  refine ⟨k, _, tail, by simp, hdisk, chained_snoc.mpr ⟨hpre, hne, hbase, ?_⟩, by simp⟩
  have htake := hcons.take (s.records.length + k)
  rwa [List.take_length_add_append] at htake

/-- **One record into the active segment**, at the end and at every kill. -/
theorem appendActive_spec (hdisk : DiskInv d (pre ++ [s]) []) (hactive : ActiveMatch d seg s)
    (hchain : Chained start (pre ++ [s])) (hr : r.Fits)
    (hoff : r.offset.toNat = s.base.toNat + s.records.length)
    (hlen : (encodeAll s.records).length + r.size < 2 ^ 32) (sync : Bool) :
    DiskInv (applyAll d (seg.appendOps r sync)) (pre ++ [⟨s.base, s.records ++ [r]⟩]) [] ∧
    ActiveMatch (applyAll d (seg.appendOps r sync)) (seg.appended r)
      ⟨s.base, s.records ++ [r]⟩ ∧
    Chained start (pre ++ [⟨s.base, s.records ++ [r]⟩]) ∧
    HoldsThroughout (Writing pre s [r]) d (seg.appendOps r sync) := by
  set s' : SegmentData := ⟨s.base, s.records ++ [r]⟩
  have hlogFile : seg.logFile = ⟨s.base, .log⟩ := by rw [logFile, hactive.base]
  have hindexFile : seg.indexFile = ⟨s.base, .index⟩ := by rw [indexFile, hactive.base]
  have hchain' : Chained start (pre ++ [s']) := by
    obtain ⟨hpre, hne, hbase, hcons⟩ := chained_snoc.mp hchain
    exact chained_snoc.mpr ⟨hpre, hne, hbase, hcons.snoc (hbase ▸ hoff)⟩
  set d1 := (FileOp.append ⟨s.base, .log⟩ (RecordCodec.encode r)).apply d with hd1
  have hdisk1 : DiskInv d1 (pre ++ [s']) [] := hdisk.logWhole hr hoff hlen
  -- from here on only the index file of the active segment changes
  have hindexSame : ∀ e : Disk, (∀ f, f ≠ ⟨s.base, .index⟩ → e.lookup f = d1.lookup f) →
      DiskInv e (pre ++ [s']) [] := fun e he => hdisk1.setActiveIndex he
  have hnew : ∀ e, DiskInv e (pre ++ [s']) [] → Writing pre s [r] e := fun e he => he.written
  set d2 := applyAll d1 (seg.indexOps r) with hd2
  have hd2same : ∀ f, f ≠ ⟨s.base, .index⟩ → d2.lookup f = d1.lookup f := by
    intro f hf
    rw [hd2, lookup_indexOps seg r d1 (hindexFile ▸ hf)]
  have hflush : ∀ e : Disk, applyAll e (if sync then seg.flushOps else []) = e := by
    intro e
    cases sync <;> rfl
  have hend : applyAll d (seg.appendOps r sync) = d2 := by
    rw [appendOps, applyAll_cons, applyAll_append, hlogFile, hflush]
  have hindex1 : d1.lookup seg.indexFile = some (OffsetIndex.encodeEntries seg.index) := by
    rw [hd1, lookup_append, hindexFile, if_neg (by simp)]
    exact hactive.indexFile
  refine ⟨hend ▸ hindexSame d2 hd2same, ?_, hchain', ?_⟩
  · rw [hend]
    refine ⟨hactive.toSegMatch.appended hactive.first hr hoff hlen, ?_, ?_, ?_⟩
    · rw [appended_isSealed]
      exact hactive.unsealed
    · rw [← hindexFile]
      exact lookup_indexOps_self r hindex1
    · intro hnil
      exact absurd hnil (appended_index_ne_nil seg r)
  · rw [appendOps, hlogFile]
    refine HoldsThroughout.cons_append (hdisk.writing _) ?_ ?_
    · intro k
      by_cases hk : k < r.size
      · exact (hdisk.logTorn hr hlen hk).writing _
      · have hsize := RecordCodec.length_encode_of_fits hr
        rw [List.take_of_length_le (by omega)]
        exact hnew _ hdisk1
    · have hd2inv : DiskInv d2 (pre ++ [s']) [] := hindexSame d2 hd2same
      refine HoldsThroughout.append ?_ ?_
      · unfold indexOps
        split
        · refine HoldsThroughout.cons_append (hnew _ hdisk1) ?_ ?_
          · intro k
            refine hnew _ (hindexSame _ ?_)
            intro f hf
            rw [lookup_append, if_neg (hindexFile ▸ hf)]
          · refine HoldsThroughout.nil (hnew _ (hindexSame _ ?_))
            intro f hf
            rw [lookup_append, if_neg (hindexFile ▸ hf)]
        · exact HoldsThroughout.nil (hnew _ hdisk1)
      · cases sync with
        | false => exact HoldsThroughout.nil (hnew _ hd2inv)
        | true => exact holdsThroughout_flushOps (hnew _ hd2inv) seg

/-! ## Rolling -/

theorem holdsThroughout_markerOps {d : Disk} {pre : List SegmentData} {s x : SegmentData}
    {tail : Bytes} {seg : LogSegment} (h : DiskInv d (pre ++ [s]) tail) (hx : x ∈ pre)
    (hbase : seg.baseOffset = x.base)
    (hindex : IndexSound x.records
      (OffsetIndex.loadEntries ((d.lookup ⟨x.base, .index⟩).getD []))) :
    HoldsThroughout (fun e => DiskInv e (pre ++ [s]) tail) d seg.markerOps := by
  have hsealedFile : seg.sealedFile = ⟨x.base, .sealed⟩ := by rw [sealedFile, hbase]
  have hcreate : ∀ f, f ≠ ⟨x.base, .sealed⟩ →
      ((FileOp.create ⟨x.base, .sealed⟩).apply d).lookup f = d.lookup f := by
    intro f hf
    rw [lookup_create, if_neg hf]
  have hwrite : ∀ bs f, f ≠ ⟨x.base, .sealed⟩ →
      ((FileOp.append ⟨x.base, .sealed⟩ bs).apply
        ((FileOp.create ⟨x.base, .sealed⟩).apply d)).lookup f = d.lookup f := by
    intro bs f hf
    rw [lookup_append, if_neg hf, hcreate f hf]
  have hmark : ∀ bs, DiskInv ((FileOp.append ⟨x.base, .sealed⟩ bs).apply
      ((FileOp.create ⟨x.base, .sealed⟩).apply d)) (pre ++ [s]) tail :=
    fun bs => h.setSealed hx (hwrite bs) hindex
  rw [markerOps, hsealedFile]
  refine HoldsThroughout.cons (by simp) h ?_
  refine HoldsThroughout.cons_append (h.setSealed hx hcreate hindex) (fun k => hmark _) ?_
  exact HoldsThroughout.cons (by simp) (hmark _) (HoldsThroughout.nil (hmark _))

/-- Everything `roll_segment_unlocked` does to the files: the new segment first,
then the old one is flushed and gets its marker. -/
def Partition.rollOps (p : Partition) (old : LogSegment) : List (FileOp FileName) :=
  (p.newSegment p.nextOffset).openOps ++ (.flushDir :: (old.flushOps ++
    (old.markerOps ++ (old.flushOps ++ [.flushDir]))))

theorem rollSegmentUnlocked_eq {closed : List LogSegment} {active : LogSegment} (fs : FileSystem)
    (hsegs : p.segments = closed ++ [active])
    (hsealed : fs.dir.lookup ⟨p.nextOffset, .sealed⟩ = none) :
    p.rollSegmentUnlocked {} fs =
      (.OK, { p with segments := closed ++ [{ active with isSealed := true },
        (p.newSegment p.nextOffset).opened fs.dir] }, fs.execAll (p.rollOps active)) := by
  have hopen := openFiles_unsealed (p.newSegment p.nextOffset) fs hsealed
  unfold rollSegmentUnlocked
  rw [hopen]
  simp only [Status.if_not_ok, hsegs, List.getLast?_concat, List.dropLast_concat, sealSegment,
    writeSealedMarker_eq, flush_eq, Fs.exec_eq_execAll,
    Fs.execAll_execAll]
  simp only [rollOps, List.append_assoc, List.cons_append, List.nil_append]
  rfl

theorem opened_of_absent {p : Partition} {d : Disk} {base : UInt64}
    (hlog : d.lookup ⟨base, .log⟩ = none) (hindex : (d.lookup ⟨base, .index⟩).getD [] = []) :
    ((p.newSegment base).opened d).logSizeBytes = 0 ∧
      ((p.newSegment base).opened d).index = [] := by
  have hl : d.lookup (p.newSegment base).logFile = none := hlog
  have hi : (d.lookup (p.newSegment base).indexFile).getD [] = [] := hindex
  simp only [opened, hl, hi]
  exact ⟨rfl, rfl⟩

theorem openFiles_new {p : Partition} {fs : FileSystem} {ft : Faults} {base : UInt64}
    (hlog : ft.openLog = false) (hindex : ft.openIndex = false)
    (habsent : (fs.dir.lookup ⟨base, .index⟩).getD [] = []) :
    (p.newSegment base).openFiles ft fs = (p.newSegment base).openFiles {} fs := by
  have hcontent : content ((fs.exec (.create (p.newSegment base).logFile)).exec
      (.create (p.newSegment base).indexFile)) (p.newSegment base).indexFile = [] := by
    rw [Fs.exec_eq_execAll, Fs.exec_eq_execAll, Fs.execAll_execAll, content_execAll]
    have hnone : (fs.dir.lookup (p.newSegment base).indexFile).getD [] = [] := habsent
    exact (congrArg (fun c => Option.getD c []) ((p.newSegment base).lookup_openOps fs.dir _)).trans
      (by rw [if_pos (Or.inl rfl), hnone]; rfl)
  unfold openFiles
  simp only [hlog, hindex, hcontent, Bool.false_eq_true, if_false, List.length_nil,
    bne_self_eq_false, Bool.and_false]

section Roll

variable {p : Partition} {d : Disk} {pre : List SegmentData} {s : SegmentData} {start : ℕ}

theorem PartInv.next_stray (h : PartInv p d pre s) (hne : s.records ≠ [])
    (hnext : p.nextOffset.toNat = s.base.toNat + s.records.length) {k : FileKind}
    (hk : d.lookup ⟨p.nextOffset, k⟩ ≠ none) : Stray d ⟨p.nextOffset, k⟩ := by
  have hpos : 0 < s.records.length := List.length_pos_iff.mpr hne
  have hlt : s.base < p.nextOffset := UInt64.lt_iff_toNat_lt.mpr (by omega)
  obtain ⟨-, -, -, -, -, -, hrecent⟩ := diskInv_snoc.mp h.disk
  rcases hrecent _ hk with hle | hstray
  · exact absurd (UInt64.lt_of_le_of_lt hle hlt) (UInt64.lt_irrefl _)
  · exact hstray

theorem PartInv.next_absent (h : PartInv p d pre s) (hne : s.records ≠ [])
    (hnext : p.nextOffset.toNat = s.base.toNat + s.records.length) {k : FileKind}
    (hkind : k ≠ .index) : d.lookup ⟨p.nextOffset, k⟩ = none := by
  by_contra hk
  exact hkind (h.next_stray hne hnext hk).1

theorem PartInv.next_index (h : PartInv p d pre s) (hne : s.records ≠ [])
    (hnext : p.nextOffset.toNat = s.base.toNat + s.records.length) :
    (d.lookup ⟨p.nextOffset, .index⟩).getD [] = [] := by
  by_cases hk : d.lookup ⟨p.nextOffset, .index⟩ = none
  · rw [hk]
    rfl
  · rw [(h.next_stray hne hnext hk).2]
    rfl

theorem chained_next (hchain : Chained start (pre ++ [s])) (hne : s.records ≠ []) {base : UInt64}
    (hbase : base.toNat = s.base.toNat + s.records.length) :
    Chained start ((pre ++ [s]) ++ [⟨base, []⟩]) := by
  obtain ⟨-, hpne, hsbase, -⟩ := chained_snoc.mp hchain
  refine chained_snoc.mpr ⟨hchain, ?_, ?_, Consecutive.nil _⟩
  · intro x hx
    rcases List.mem_append.mp hx with hx | hx
    · exact hpne x hx
    · rw [List.mem_singleton.mp hx]
      exact hne
  · simp only [flat_append, flat_singleton, List.length_append]
    omega

theorem PartInv.newLog (h : PartInv p d pre s) (hne : s.records ≠ [])
    (hnext : p.nextOffset.toNat = s.base.toNat + s.records.length) :
    DiskInv ((FileOp.create ⟨p.nextOffset, .log⟩).apply d)
      ((pre ++ [s]) ++ [⟨p.nextOffset, []⟩]) [] := by
  refine h.disk.newSegment hne hnext ?_ ?_
  · rw [lookup_create, if_pos rfl, h.next_absent hne hnext (by simp)]
    rfl
  · intro f hf
    rw [lookup_create, if_neg hf]

theorem PartInv.newFiles (h : PartInv p d pre s) (hne : s.records ≠ [])
    (hnext : p.nextOffset.toNat = s.base.toNat + s.records.length) :
    DiskInv (applyAll d (p.newSegment p.nextOffset).openOps)
        ((pre ++ [s]) ++ [⟨p.nextOffset, []⟩]) [] ∧
      (applyAll d (p.newSegment p.nextOffset).openOps).lookup ⟨p.nextOffset, .index⟩ = some [] ∧
      IndexSound s.records (OffsetIndex.loadEntries
        (((applyAll d (p.newSegment p.nextOffset).openOps).lookup ⟨s.base, .index⟩).getD [])) := by
  obtain ⟨closed, active, -, -, hactive⟩ := h.segments
  obtain ⟨-, -, -, hfiles, -, -, -⟩ := diskInv_snoc.mp h.disk
  have hpos : 0 < s.records.length := List.length_pos_iff.mpr hne
  have hlt : s.base < p.nextOffset := UInt64.lt_iff_toNat_lt.mpr (by omega)
  have hlookup := (p.newSegment p.nextOffset).lookup_openOps d
  refine ⟨(h.newLog hne hnext).setActiveIndex ?_, ?_, ?_⟩
  · intro f hf
    exact (lookup_create _ ⟨p.nextOffset, .index⟩ f).trans (if_neg hf)
  · have hself := hlookup (p.newSegment p.nextOffset).indexFile
    rw [if_pos (Or.inl rfl)] at hself
    exact hself.trans (congrArg some (h.next_index hne hnext))
  · -- the index file of the old segment, which its marker is going to vouch for
    have hneb : s.base ≠ p.nextOffset := UInt64.ne_of_lt hlt
    have hfit := hactive.sound.fit (by simpa using hfiles.len)
    rw [hlookup, if_neg (by simp [indexFile, logFile, newSegment, hneb]),
      hactive.indexFile, Option.getD_some, OffsetIndex.loadEntries_encodeEntries hfit]
    exact hactive.sound

/-- The partition after a roll. The marker of the old segment may be anything: it
is written last. -/
theorem PartInv.rolled (h : PartInv p d pre s) (hne : s.records ≠ [])
    (hnext : p.nextOffset.toNat = s.base.toNat + s.records.length) {closed : List LogSegment}
    {active : LogSegment} (hsegs : p.segments = closed ++ [active]) {d' : Disk}
    (hsame : ∀ f, f ≠ ⟨s.base, .sealed⟩ →
      d'.lookup f = (applyAll d (p.newSegment p.nextOffset).openOps).lookup f) :
    PartInv { p with segments := closed ++ [{ active with isSealed := true },
      (p.newSegment p.nextOffset).opened d] } d' (pre ++ [s]) ⟨p.nextOffset, []⟩ := by
  obtain ⟨closed', active', hsegs', hclosed, hactive⟩ := h.segments
  obtain ⟨rfl, hlast⟩ := List.append_inj' (hsegs'.symm.trans hsegs) rfl
  obtain rfl : active' = active := List.singleton_inj.mp hlast
  obtain ⟨hinv, hindexFile, hsound⟩ := h.newFiles hne hnext
  obtain ⟨hsize, hindex⟩ := @opened_of_absent p d p.nextOffset
    (h.next_absent hne hnext (by simp)) (h.next_index hne hnext)
  refine ⟨hinv.setSealed (by simp) hsame hsound, ⟨closed' ++ [{ active' with isSealed := true }],
    (p.newSegment p.nextOffset).opened d, by simp, ?_, ?_⟩, by simp⟩
  · refine List.rel_append hclosed (List.Forall₂.cons ⟨?_, rfl⟩ List.Forall₂.nil)
    exact ⟨hactive.base, hactive.size, hactive.sound⟩
  · refine ⟨⟨rfl, by simpa using hsize, hindex ▸ IndexSound.nil _⟩, rfl, ?_, fun _ => rfl⟩
    rw [hindex, hsame _ (by simp), hindexFile]
    rfl

/-- Closing the old segment behind the new one: its flush, its marker, and the
flushes of both. -/
theorem PartInv.kills_seal (h : PartInv p d pre s) (hne : s.records ≠ [])
    (hnext : p.nextOffset.toNat = s.base.toNat + s.records.length) {closed : List LogSegment}
    {active : LogSegment} (hsegs : p.segments = closed ++ [active]) :
    HoldsThroughout (fun e => DiskInv e ((pre ++ [s]) ++ [⟨p.nextOffset, []⟩]) [])
      (applyAll d (p.newSegment p.nextOffset).openOps)
      (active.flushOps ++ (active.markerOps ++ (active.flushOps ++ [.flushDir]))) := by
  obtain ⟨closed', active', hsegs', -, hactive⟩ := h.segments
  obtain ⟨-, hlast⟩ := List.append_inj' (hsegs'.symm.trans hsegs) rfl
  obtain rfl : active' = active := List.singleton_inj.mp hlast
  obtain ⟨hinv, -, hsound⟩ := h.newFiles hne hnext
  have hmarks := holdsThroughout_markerOps hinv (by simp) hactive.base hsound
  refine HoldsThroughout.append (holdsThroughout_flushOps hinv active') ?_
  refine HoldsThroughout.append hmarks ?_
  refine HoldsThroughout.append (holdsThroughout_flushOps hmarks.final active') ?_
  exact HoldsThroughout.cons (by simp) hmarks.final (HoldsThroughout.nil hmarks.final)

end Roll

/-- **A roll behind a non-empty segment.** No record moves, and a kill anywhere
inside leaves the same records on disk. -/
theorem PartInv.roll {p : Partition} {fs : FileSystem} {pre : List SegmentData} {s : SegmentData}
    {start : ℕ} (h : PartInv p fs.dir pre s) (hchain : Chained start (pre ++ [s]))
    (hne : s.records ≠ []) (hnext : p.nextOffset.toNat = s.base.toNat + s.records.length) :
    ∃ p' closed active, p.segments = closed ++ [active] ∧
      p.rollSegmentUnlocked {} fs = (.OK, p', fs.execAll (p.rollOps active)) ∧
      PartInv p' (applyAll fs.dir (p.rollOps active)) (pre ++ [s]) ⟨p.nextOffset, []⟩ ∧
      Chained start ((pre ++ [s]) ++ [⟨p.nextOffset, []⟩]) ∧
      p'.nextOffset = p.nextOffset ∧ p'.config = p.config ∧
      HoldsThroughout (Holding start (flat (pre ++ [s]))) fs.dir (p.rollOps active) := by
  obtain ⟨closed, active, hsegs, -, hactive⟩ := h.segments
  have hchain' := chained_next hchain hne hnext
  obtain ⟨hinv, -, -⟩ := h.newFiles hne hnext
  set d := fs.dir
  set d2 := applyAll d (p.newSegment p.nextOffset).openOps
  have hsealedFile : active.sealedFile = ⟨s.base, .sealed⟩ := by
    rw [sealedFile, hactive.base]
  have hend : applyAll d (p.rollOps active) = applyAll d2 active.markerOps := rfl
  have hrolled : PartInv _ (applyAll d (p.rollOps active)) _ _ := h.rolled hne hnext hsegs <| by
    intro f hf
    rw [hend, lookup_markerOps active d2 (hsealedFile ▸ hf)]
  have hhold : ∀ e, DiskInv e ((pre ++ [s]) ++ [⟨p.nextOffset, []⟩]) [] →
      Holding start (flat (pre ++ [s])) e :=
    fun e he => ⟨_, [], by simp, he, hchain', by rw [flat_append, flat_singleton, List.append_nil]⟩
  refine ⟨_, closed, active, hsegs,
    rollSegmentUnlocked_eq fs hsegs (h.next_absent hne hnext (by simp)), hrolled, hchain', rfl,
      rfl, ?_⟩
  refine HoldsThroughout.cons (by simp) (h.holding hchain) ?_
  refine HoldsThroughout.cons (by simp) (hhold _ (h.newLog hne hnext)) ?_
  exact HoldsThroughout.cons (by simp) (hhold _ hinv) ((h.kills_seal hne hnext hsegs).mono hhold)

/-! ## One record -/

theorem recordSize_eq {key value : Bytes} (h : key.length + value.length < 2 ^ 32 - 28) :
    recordSize key value = 28 + key.length + value.length := by
  unfold recordSize
  rw [u32_of_lt (show key.length + value.length < 2 ^ 32 by omega), u32_of_lt (by omega)]
  omega

theorem recordTooLarge_iff (h : r.key.length + r.value.length < 2 ^ 32 - 28) :
    recordTooLarge r.key r.value = false ↔ r.Fits := by
  unfold recordTooLarge Record.Fits Record.size
  rw [recordSize_eq h, decide_eq_false_iff_not, Nat.not_lt]

theorem recordSize_of_fits (h : r.Fits) : recordSize r.key r.value = r.size := by
  have hlt := RecordCodec.size_lt_of_fits h
  unfold Record.size at hlt
  exact recordSize_eq (by omega)

/-- What an operation that adds the records `new` leaves behind: the invariant
at the end, and at every kill a prefix of them behind what was there. -/
structure Added (start : ℕ) (old new : List Record) (p p' : Partition) (fs : FileSystem)
    (ops : List (FileOp FileName)) : Prop where
  inv : ∃ pre s, PartInv p' (applyAll fs.dir ops) pre s ∧ Chained start (pre ++ [s]) ∧
    flat (pre ++ [s]) = old ++ new
  next : p'.nextOffset = p.nextOffset + UInt64.ofNat new.length
  config : p'.config = p.config
  kills : HoldsThroughout (fun e => ∃ k, Holding start (old ++ new.take k) e) fs.dir ops

def Partition.rollsFor (p : Partition) (key value : Bytes) : Bool :=
  p.segments.getLast?.any fun active => p.needsRoll active key value

section MakeRoom

variable {p : Partition} {fs : FileSystem} {pre : List SegmentData} {s : SegmentData}

theorem PartInv.stays_of_empty {d : Disk} (h : PartInv p d pre s) (hnil : s.records = [])
    (key value : Bytes) : p.rollsFor key value = false := by
  obtain ⟨closed, active, hsegs, -, hactive⟩ := h.segments
  simp [rollsFor, hsegs, needsRoll, hactive.size, hnil]

theorem PartInv.makeRoom_roll (h : PartInv p fs.dir pre s) {key value : Bytes}
    (hroll : p.rollsFor key value = true) :
    p.makeRoom key value {} fs = p.rollSegmentUnlocked {} fs ∧ s.records ≠ [] := by
  obtain ⟨closed, active, hsegs, -, hactive⟩ := h.segments
  have hempty : p.segments.isEmpty = false := by simp [hsegs]
  have hlast : p.segments.getLast? = some active := by simp [hsegs]
  have hneeds : p.needsRoll active key value = true := by
    simpa [rollsFor, hlast] using hroll
  constructor
  · simp only [makeRoom, hempty, Bool.false_eq_true, if_false, Status.ok_OK,
      Bool.not_true, hlast, hneeds, if_true]
  · intro hnil
    simp [needsRoll, hactive.size, hnil] at hneeds

/-- An empty segment takes any record, another one only up to its limit. -/
theorem PartInv.makeRoom_stay (h : PartInv p fs.dir pre s) {r : Record} (hr : r.Fits)
    (hstay : p.rollsFor r.key r.value = false) :
    p.makeRoom r.key r.value {} fs = (.OK, p, fs) ∧
      (encodeAll s.records).length + r.size < 2 ^ 32 := by
  obtain ⟨closed, active, hsegs, -, hactive⟩ := h.segments
  have hsize := recordSize_of_fits hr
  have hrlt := RecordCodec.size_lt_of_fits hr
  have hempty : p.segments.isEmpty = false := by simp [hsegs]
  have hlast : p.segments.getLast? = some active := by simp [hsegs]
  have hneeds : p.needsRoll active r.key r.value = false := by
    simpa [rollsFor, hlast] using hstay
  constructor
  · simp only [makeRoom, hempty, Bool.false_eq_true, if_false, Status.ok_OK,
      Bool.not_true, hlast, hneeds]
  · have hmax := p.config.segmentMaxBytes.toNat_lt
    simp only [needsRoll, hsize, hactive.size, Bool.and_eq_false_iff,
      decide_eq_false_iff_not, Nat.not_lt] at hneeds
    omega

end MakeRoom

theorem PartInv.makeRoom (h : PartInv p fs.dir pre s) (hchain : Chained start (pre ++ [s]))
    (hr : r.Fits) (hnext : p.nextOffset.toNat = s.base.toNat + s.records.length) :
    ∃ p' ops pre' s', p.makeRoom r.key r.value {} fs = (.OK, p', fs.execAll ops) ∧
      PartInv p' (applyAll fs.dir ops) pre' s' ∧ Chained start (pre' ++ [s']) ∧
      flat (pre' ++ [s']) = flat (pre ++ [s]) ∧ p'.nextOffset = p.nextOffset ∧
      p'.config = p.config ∧ p'.nextOffset.toNat = s'.base.toNat + s'.records.length ∧
      (encodeAll s'.records).length + r.size < 2 ^ 32 ∧
      HoldsThroughout (Holding start (flat (pre ++ [s]))) fs.dir ops := by
  cases hroll : p.rollsFor r.key r.value with
  | true =>
    have hrlt := RecordCodec.size_lt_of_fits hr
    obtain ⟨hmake, hne⟩ := h.makeRoom_roll hroll
    obtain ⟨p', closed, active, -, heq, hinv, hchain', hn, hc, hkill⟩ := h.roll hchain hne hnext
    refine ⟨p', _, _, _, hmake.trans heq, hinv, hchain', ?_, hn, hc, ?_, ?_, hkill⟩
    · rw [flat_append, flat_singleton, List.append_nil]
    · simp [hn]
    · simpa using hrlt
  | false =>
    obtain ⟨hmake, hlen⟩ := h.makeRoom_stay hr hroll
    exact ⟨p, [], pre, s, by rw [hmake, Fs.execAll_nil], h, hchain, rfl, rfl, rfl, hnext, hlen,
      HoldsThroughout.nil (h.holding hchain)⟩

structure Wrote (start : ℕ) (pre : List SegmentData) (s : SegmentData) (new : List Record)
    (p p' : Partition) (d : Disk) (ops : List (FileOp FileName)) : Prop where
  inv : PartInv p' (applyAll d ops) pre ⟨s.base, s.records ++ new⟩
  chain : Chained start (pre ++ [⟨s.base, s.records ++ new⟩])
  next : p'.nextOffset = p.nextOffset + UInt64.ofNat new.length
  config : p'.config = p.config
  kills : HoldsThroughout (Writing pre s new) d ops

theorem appendRecord_of_room {p p1 : Partition} {fs fs1 : FileSystem} {closed : List LogSegment}
    {active : LogSegment} {r : Record}
    (hroom : p.makeRoom r.key r.value {} fs = (.OK, p1, fs1))
    (hsegs : p1.segments = closed ++ [active]) (hunsealed : active.isSealed = false)
    (hrec : r.offset = p1.nextOffset) (hr : r.Fits) (sync : Bool) :
    p.appendRecord r.key r.value r.timestampMs sync {} fs =
      (.OK, { p1 with
        segments := closed ++ [active.appended r]
        nextOffset := p1.nextOffset + 1 }, fs1.execAll (active.appendOps r sync)) := by
  have hself : (⟨p1.nextOffset, r.timestampMs, r.key, r.value⟩ : Record) = r := by rw [← hrec]
  have happ := active.appendWithTimestamp_eq r sync fs1 hunsealed hr
  unfold appendRecord
  rw [hroom]
  simp only [Status.if_not_ok, hsegs, List.getLast?_concat, hself, happ, List.dropLast_concat]

theorem PartInv.writeRecord {p1 : Partition} {fs1 : FileSystem} (h : PartInv p1 fs1.dir pre s)
    (hchain : Chained start (pre ++ [s])) (hr : r.Fits)
    (hroom : p.makeRoom r.key r.value {} fs = (.OK, p1, fs1)) (hrec : r.offset = p1.nextOffset)
    (hnext : p1.nextOffset.toNat = s.base.toNat + s.records.length)
    (hlen : (encodeAll s.records).length + r.size < 2 ^ 32) (sync : Bool) :
    ∃ p' ops, p.appendRecord r.key r.value r.timestampMs sync {} fs =
        (.OK, p', fs1.execAll (ops ++ if sync then
          [.flush ⟨s.base, .log⟩, .flush ⟨s.base, .index⟩] else [])) ∧
      Wrote start pre s [r] p1 p' fs1.dir (ops ++ if sync then
        [.flush ⟨s.base, .log⟩, .flush ⟨s.base, .index⟩] else []) := by
  obtain ⟨closed, active, hsegs, hclosed, hactive⟩ := h.segments
  obtain ⟨hdisk, hmatch, hchain', hkill⟩ :=
    appendActive_spec h.disk hactive hchain hr (hrec ▸ hnext) hlen sync
  have hops : active.appendOps r sync =
      (.append active.logFile (RecordCodec.encode r) :: active.indexOps r) ++ if sync then
        [.flush ⟨s.base, .log⟩, .flush ⟨s.base, .index⟩] else [] := by
    rw [← hactive.base]
    rfl
  refine ⟨{ p1 with segments := closed ++ [active.appended r], nextOffset := p1.nextOffset + 1 },
    .append active.logFile (RecordCodec.encode r) :: active.indexOps r, ?_, ?_⟩
  · rw [← hops]
    exact appendRecord_of_room hroom hsegs hactive.unsealed hrec hr sync
  · rw [← hops]
    refine ⟨⟨hdisk, ⟨closed, active.appended r, rfl, hclosed, hmatch⟩, ?_⟩, hchain', rfl,
      rfl, hkill⟩
    simp only [h.next, List.length_append, List.length_singleton, UInt64.ofNat_add,
      UInt64.add_assoc]
    rfl

/-- **One record**: `append_with_timestamp` behind its size check, and one round
of the batch loop. -/
theorem PartInv.appendRecord (h : PartInv p fs.dir pre s) (hchain : Chained start (pre ++ [s]))
    (hr : r.Fits) (hnext : p.nextOffset.toNat = s.base.toNat + s.records.length)
    (hoff : r.offset = p.nextOffset) (sync : Bool) :
    ∃ p' ops, p.appendRecord r.key r.value r.timestampMs sync {} fs =
        (.OK, p', fs.execAll ops) ∧ Added start (flat (pre ++ [s])) [r] p p' fs ops := by
  obtain ⟨p1, ops1, pre1, s1, heq, hinv, hchain1, hflat, hn1, hc1, hnext1, hlen, hkill1⟩ :=
    h.makeRoom hchain hr hnext
  obtain ⟨p', ops2, happ, hwrote⟩ :=
    hinv.writeRecord hchain1 hr heq (hoff.trans hn1.symm) hnext1 hlen sync
  generalize (ops2 ++ if sync then [.flush ⟨s1.base, .log⟩, .flush ⟨s1.base, .index⟩] else [] :
    List (FileOp FileName)) = ops2' at happ hwrote
  refine ⟨p', ops1 ++ ops2', by rw [happ, Fs.execAll_execAll], ⟨_, _, ?_, hwrote.chain, ?_⟩,
    hwrote.next.trans (by rw [hn1]), hwrote.config.trans hc1, ?_⟩
  · rw [applyAll_append]
    exact hwrote.inv
  · simp [← hflat]
  · refine HoldsThroughout.append (hkill1.mono ?_) (hwrote.kills.mono ?_)
    · intro e he
      exact ⟨0, by simpa using he⟩
    · intro e he
      rw [← hflat]
      exact he.holding hwrote.chain

/-! ## Batches -/

theorem chained_end (h : Chained start (pre ++ [s])) :
    s.base.toNat + s.records.length = start + (flat (pre ++ [s])).length := by
  obtain ⟨-, -, hbase, -⟩ := chained_snoc.mp h
  simp only [flat_append, flat_singleton, List.length_append]
  omega

theorem PartInv.next_toNat (h : PartInv p d pre s) (hchain : Chained start (pre ++ [s]))
    (hroom : start + (flat (pre ++ [s])).length < 2 ^ 64) :
    p.nextOffset.toNat = start + (flat (pre ++ [s])).length := by
  have hend := chained_end hchain
  rw [h.next, UInt64.toNat_add, UInt64.toNat_ofNat']
  omega

def assign (next : UInt64) (timestampMs : Int64) : List (Bytes × Bytes) → List Record
  | [] => []
  | (key, value) :: rest => ⟨next, timestampMs, key, value⟩ :: assign (next + 1) timestampMs rest

@[simp] theorem length_assign (next : UInt64) (ts : Int64) (batch : List (Bytes × Bytes)) :
    (assign next ts batch).length = batch.length := by
  induction batch generalizing next with
  | nil => rfl
  | cons item rest ih => simp [assign, ih]

theorem map_assign (next : UInt64) (ts : Int64) (batch : List (Bytes × Bytes)) :
    (assign next ts batch).map (fun r => (r.key, r.value)) = batch := by
  induction batch generalizing next with
  | nil => rfl
  | cons item rest ih => simp [assign, ih]

theorem mem_assign {next : UInt64} {ts : Int64} (hr : r ∈ assign next ts batch) :
    (r.key, r.value) ∈ batch := by
  rw [← map_assign next ts batch]
  exact List.mem_map_of_mem hr

theorem Added.trans {old a b : List Record} {p'' : Partition} {ops ops' : List (FileOp FileName)}
    (ha : Added start old a p p' fs ops)
    (hb : Added start (old ++ a) b p' p'' (fs.execAll ops) ops') :
    Added start old (a ++ b) p p'' fs (ops ++ ops') where
  inv := by
    obtain ⟨pre, s, hinv, hchain, hflat⟩ := hb.inv
    refine ⟨pre, s, ?_, hchain, by rw [hflat, List.append_assoc]⟩
    rw [applyAll_append]
    exact hinv
  next := by
    rw [hb.next, ha.next, List.length_append, UInt64.ofNat_add, UInt64.add_assoc]
  config := hb.config.trans ha.config
  kills := by
    refine HoldsThroughout.append (ha.kills.mono ?_) (hb.kills.mono ?_)
    · rintro e ⟨k, hk⟩
      refine ⟨min k a.length, ?_⟩
      rw [List.take_append_of_le_length (Nat.min_le_right _ _)]
      rcases Nat.le_total k a.length with hle | hle
      · rw [Nat.min_eq_left hle]
        exact hk
      · rw [Nat.min_eq_right hle, List.take_length]
        rw [List.take_of_length_le hle] at hk
        exact hk
    · rintro e ⟨k, hk⟩
      refine ⟨a.length + k, ?_⟩
      rw [List.take_length_add_append, ← List.append_assoc]
      exact hk

/-- A batch that the loop gets through: every record fits, and there are offsets for all. -/
structure BatchReady (start : ℕ) (p : Partition) (d : Disk) (pre : List SegmentData)
    (s : SegmentData)
    (batch : List (Bytes × Bytes)) : Prop where
  inv : PartInv p d pre s
  chain : Chained start (pre ++ [s])
  small : ∀ item ∈ batch, item.1.length + item.2.length < 2 ^ 32 - 28
  large : ∀ item ∈ batch, recordTooLarge item.1 item.2 = false
  room : start + (flat (pre ++ [s])).length + batch.length ≤ 2 ^ 64

section Loop

variable {key value : Bytes} {batch : List (Bytes × Bytes)}

theorem BatchReady.next (h : BatchReady start p d pre s ((key, value) :: batch)) :
    p.nextOffset.toNat = s.base.toNat + s.records.length := by
  have hroom := h.room
  rw [List.length_cons] at hroom
  exact (h.inv.next_toNat h.chain (by omega)).trans (chained_end h.chain).symm

theorem BatchReady.fits (h : BatchReady start p d pre s ((key, value) :: batch)) (nowMs : Int64) :
    (⟨p.nextOffset, nowMs, key, value⟩ : Record).Fits :=
  (recordTooLarge_iff (h.small (key, value) (by simp))).mp (h.large (key, value) (by simp))

theorem BatchReady.tail (h : BatchReady start p d pre s ((key, value) :: batch)) {d' : Disk}
    {pre' : List SegmentData} {s' : SegmentData} {r : Record} (hinv : PartInv p' d' pre' s')
    (hchain : Chained start (pre' ++ [s']))
    (hflat : flat (pre' ++ [s']) = flat (pre ++ [s]) ++ [r]) :
    BatchReady start p' d' pre' s' batch := by
  refine ⟨hinv, hchain, fun x hx => h.small x (List.mem_cons_of_mem _ hx),
    fun x hx => h.large x (List.mem_cons_of_mem _ hx), ?_⟩
  have hroom := h.room
  rw [List.length_cons] at hroom
  rw [hflat, List.length_append, List.length_singleton]
  omega

end Loop

/-- **The batch loop.** The induction is on the records still to be written;
`old` grows by one in each round. -/
theorem appendRecords_spec {start : ℕ} {nowMs : Int64} (batch : List (Bytes × Bytes)) :
    ∀ {p : Partition} {fs : FileSystem} {pre : List SegmentData} {s : SegmentData},
    BatchReady start p fs.dir pre s batch →
    ∃ p' ops, p.appendRecords nowMs batch [] fs = (.OK, p', fs.execAll ops) ∧
      Added start (flat (pre ++ [s])) (assign p.nextOffset nowMs batch) p p' fs ops := by
  induction batch with
  | nil =>
    intro p fs pre s h
    refine ⟨p, [], by simp [appendRecords, Fs.execAll_nil], ?_⟩
    exact ⟨⟨pre, s, h.inv, h.chain, by simp [assign]⟩, by simp [assign], rfl,
      HoldsThroughout.nil ⟨0, by simpa using h.inv.holding h.chain⟩⟩
  | cons item rest ih =>
    obtain ⟨key, value⟩ := item
    intro p fs pre s h
    obtain ⟨p1, ops1, heq1, hadd1⟩ := h.inv.appendRecord h.chain (h.fits nowMs) h.next rfl false
    obtain ⟨pre1, s1, hinv1, hchain1, hflat1⟩ := hadd1.inv
    obtain ⟨p2, ops2, heq2, hadd2⟩ := @ih p1 (fs.execAll ops1) pre1 s1 (h.tail hinv1 hchain1 hflat1)
    have hnext1 : p1.nextOffset = p.nextOffset + 1 := hadd1.next
    refine ⟨p2, ops1 ++ ops2, ?_, ?_⟩
    · unfold appendRecords
      rw [List.headD_nil, heq1]
      simp only [Status.if_not_ok, List.tail_nil, heq2, Fs.execAll_execAll]
    · rw [hflat1, hnext1] at hadd2
      exact hadd1.trans hadd2

/-! ## The public operations -/

def flushAllOps (segs : List LogSegment) : List (FileOp FileName) :=
  segs.flatMap flushOps

theorem foldl_flush_eq (segs : List LogSegment) (fs : FileSystem) :
    segs.foldl (fun fs seg => seg.flush fs) fs = fs.execAll (flushAllOps segs) := by
  induction segs generalizing fs with
  | nil => simp [flushAllOps, Fs.execAll_nil]
  | cons seg segs ih =>
    rw [List.foldl_cons, ih, flush_eq, Fs.execAll_execAll]
    simp [flushAllOps]

theorem applyAll_flushAllOps (segs : List LogSegment) (d : Disk) :
    applyAll d (flushAllOps segs) = d := by
  induction segs with
  | nil => rfl
  | cons seg segs ih =>
    rw [flushAllOps, List.flatMap_cons, applyAll_append, applyAll_flushOps]
    exact ih

theorem holdsThroughout_flushAllOps {P : Disk → Prop} (h : P d) (segs : List LogSegment) :
    HoldsThroughout P d (flushAllOps segs) := by
  induction segs with
  | nil => exact HoldsThroughout.nil h
  | cons seg segs ih =>
    rw [flushAllOps, List.flatMap_cons]
    exact HoldsThroughout.append (holdsThroughout_flushOps h seg) ih

theorem Added.flush {old : List Record} {ops : List (FileOp FileName)}
    (h : Added start old new p p' fs ops) (segs : List LogSegment) :
    Added start old new p p' fs (ops ++ flushAllOps segs) where
  inv := by
    rw [applyAll_append, applyAll_flushAllOps]
    exact h.inv
  next := h.next
  config := h.config
  kills := HoldsThroughout.append h.kills (holdsThroughout_flushAllOps h.kills.final segs)

/-- The checks of `append_batch` before anything is written. -/
def Partition.refusesBatch (batch : List (Bytes × Bytes)) : Bool :=
  batch.isEmpty || batch.any fun item => recordTooLarge item.1 item.2

theorem appendBatch_refused (h : refusesBatch batch = true) (p : Partition)
    (nowMs : Int64) (fts : List Faults) (fs : FileSystem) :
    ∃ st, p.appendBatch batch nowMs fts fs = (.error st, p, fs) := by
  unfold appendBatch
  cases hempty : batch.isEmpty with
  | true => exact ⟨_, rfl⟩
  | false =>
    simp only [Bool.false_eq_true, if_false]
    cases hfind : batch.find? (fun item => recordTooLarge item.1 item.2) with
    | some item => exact ⟨_, rfl⟩
    | none =>
      simp only [refusesBatch, hempty, Bool.false_or, List.any_eq_true] at h
      obtain ⟨item, hitem, hlarge⟩ := h
      exact absurd hlarge (by simpa using List.find?_eq_none.mp hfind item hitem)

theorem appendBatch_error_status {nowMs : Int64} {fts : List Faults} {fs' : FileSystem}
    {st : Status} (h : p.appendBatch batch nowMs fts fs = (.error st, p', fs')) :
    st.ok = false := by
  unfold appendBatch at h
  split at h
  · cases h
    rfl
  · split at h
    · cases h
      rfl
    · split at h
      rename_i st' _ _ _
      split at h
      · rename_i hst
        cases h
        simpa using hst
      · cases h

theorem recordTooLarge_of_refusesBatch (h : refusesBatch batch = false) :
    ∀ item ∈ batch, recordTooLarge item.1 item.2 = false := by
  simp only [refusesBatch, Bool.or_eq_false_iff, List.any_eq_false] at h
  exact fun item hitem => by simpa using h.2 item hitem

theorem appendBatch_accepted (h : refusesBatch batch = false) (p : Partition)
    (nowMs : Int64) (fts : List Faults) (fs : FileSystem) : p.appendBatch batch nowMs fts fs =
      match p.appendRecords nowMs batch fts fs with
      | (st, p', fs) =>
        if !st.ok then (.error st, p', fs)
        else (.ok p.nextOffset, p', if p.config.syncOnAppend then p'.flush fs else fs) := by
  have hfit := recordTooLarge_of_refusesBatch h
  have hfind : batch.find? (fun item => recordTooLarge item.1 item.2) = none :=
    List.find?_eq_none.mpr fun item hitem => by simp [hfit item hitem]
  have hempty : batch.isEmpty = false := by
    simp only [refusesBatch, Bool.or_eq_false_iff] at h
    exact h.1
  unfold appendBatch
  rw [hfind, hempty]
  rfl

section PublicOps

variable {p : Partition} {fs : FileSystem} {pre : List SegmentData} {s : SegmentData} {start : ℕ}

theorem appendWithTimestamp_refused {key value : Bytes}
    (h : recordTooLarge key value = true) (p : Partition) (ts : Int64) (ft : Faults)
    (fs : FileSystem) : p.appendWithTimestamp key value ts ft fs =
      (.error (tooLargeStatus key value), p, fs) := by
  unfold Partition.appendWithTimestamp
  rw [if_pos h]

/-- **A single append** that is not refused adds its record at the next offset. -/
theorem appendWithTimestamp_ok (h : PartInv p fs.dir pre s)
    (hchain : Chained start (pre ++ [s])) {key value : Bytes} (ts : Int64)
    (hsmall : key.length + value.length < 2 ^ 32 - 28)
    (hfit : recordTooLarge key value = false)
    (hroom : start + (flat (pre ++ [s])).length < 2 ^ 64) :
    ∃ p' ops, p.appendWithTimestamp key value ts {} fs = (.ok p.nextOffset, p', fs.execAll ops) ∧
      Added start (flat (pre ++ [s])) [⟨p.nextOffset, ts, key, value⟩] p p' fs ops := by
  have hr : (⟨p.nextOffset, ts, key, value⟩ : Record).Fits := (recordTooLarge_iff hsmall).mp hfit
  have hnext := (h.next_toNat hchain hroom).trans (chained_end hchain).symm
  obtain ⟨p', ops, heq, hadd⟩ := h.appendRecord hchain hr hnext rfl p.config.syncOnAppend
  refine ⟨p', ops, ?_, hadd⟩
  unfold Partition.appendWithTimestamp
  rw [hfit, if_neg Bool.false_ne_true, heq]
  rfl

/-- **A batch** that is not refused adds all its records. -/
theorem appendBatch_ok (h : PartInv p fs.dir pre s)
    (hchain : Chained start (pre ++ [s])) {batch : List (Bytes × Bytes)} (nowMs : Int64)
    (hsmall : ∀ item ∈ batch, item.1.length + item.2.length < 2 ^ 32 - 28)
    (hfit : refusesBatch batch = false)
    (hroom : start + (flat (pre ++ [s])).length + batch.length ≤ 2 ^ 64) :
    ∃ p' ops, p.appendBatch batch nowMs [] fs = (.ok p.nextOffset, p', fs.execAll ops) ∧
      Added start (flat (pre ++ [s])) (assign p.nextOffset nowMs batch) p p' fs ops := by
  rw [appendBatch_accepted hfit]
  obtain ⟨p', ops, heq, hadd⟩ := @appendRecords_spec start nowMs batch p fs pre s
    ⟨h, hchain, hsmall, recordTooLarge_of_refusesBatch hfit, hroom⟩
  by_cases hsync : p.config.syncOnAppend = true
  · refine ⟨p', ops ++ flushAllOps p'.segments, ?_, hadd.flush p'.segments⟩
    simp only [heq, Status.if_not_ok, hsync,
      if_true, Partition.flush, foldl_flush_eq, Fs.execAll_execAll]
  · refine ⟨p', ops, ?_, hadd⟩
    simp only [heq, Status.if_not_ok, if_neg hsync]

end PublicOps

end StreamForge
