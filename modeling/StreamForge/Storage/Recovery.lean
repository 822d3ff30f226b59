import StreamForge.Storage.LogBlocks
import StreamForge.Storage.PartitionInvariant

/-!
# Recovery

`open_and_recover` on any directory a killed process can have left behind. It
walks over the segments; each closed one goes through one of three branches
(no marker, full scan, quick check) and the last one is cut at its torn tail.
None of the branches loses or changes a whole record, and a kill inside
recovery leaves a directory that recovery can read again, with the same
records.
-/

namespace StreamForge

open FileTrace FileHandle

/-! ## Rewriting an index file -/

def rewriteOps (f : FileName) (es : List IndexEntry) : List (FileOp FileName) :=
  .truncate f 0 :: if es.isEmpty then [] else [.append f (OffsetIndex.encodeEntries es)]

variable {d : Disk} {f : FileName} {seg : LogSegment} {x : SegmentData}

theorem lookup_rewriteOps_ne {g : FileName} (es : List IndexEntry) (hg : g ≠ f) :
    (applyAll d (rewriteOps f es)).lookup g = d.lookup g := by
  unfold rewriteOps
  split
  · simp [lookup_truncate, hg]
  · simp [lookup_truncate, lookup_append, hg]

theorem lookup_rewriteOps (es : List IndexEntry) (h : d.lookup f ≠ none) :
    (applyAll d (rewriteOps f es)).lookup f = some (OffsetIndex.encodeEntries es) := by
  obtain ⟨c, hc⟩ := Option.ne_none_iff_exists'.mp h
  unfold rewriteOps
  split
  · rename_i hempty
    have hnil : es = [] := by simpa using hempty
    simp [lookup_truncate, hc, hnil, OffsetIndex.encodeEntries]
  · simp [lookup_truncate, lookup_append, hc]

theorem holdsThroughout_rewriteOps {P : Disk → Prop} {es : List IndexEntry} (hd : P d)
    (hex : d.lookup f ≠ none)
    (h : ∀ (e : Disk) (bs : Bytes), (∀ g, g ≠ f → e.lookup g = d.lookup g) →
      bs <+: OffsetIndex.encodeEntries es → e.lookup f = some bs → P e) :
    HoldsThroughout P d (rewriteOps f es) := by
  obtain ⟨c, hc⟩ := Option.ne_none_iff_exists'.mp hex
  set d1 := (FileOp.truncate f 0).apply d with hd1
  have hsame1 : ∀ g, g ≠ f → d1.lookup g = d.lookup g := by
    intro g hg
    rw [hd1, lookup_truncate, if_neg hg]
  have hself1 : d1.lookup f = some [] := by
    rw [hd1, lookup_truncate, if_pos rfl, hc]
    simp
  have hP1 : P d1 := h d1 [] hsame1 (List.nil_prefix) hself1
  have hwrite : ∀ bs, bs <+: OffsetIndex.encodeEntries es → P ((FileOp.append f bs).apply d1) := by
    intro bs hbs
    refine h _ bs ?_ hbs ?_
    · intro g hg
      rw [lookup_append, if_neg hg, hsame1 g hg]
    · rw [lookup_append, if_pos rfl, hself1]
      rfl
  unfold rewriteOps
  refine HoldsThroughout.cons (by simp) hd ?_
  split
  · exact HoldsThroughout.nil hP1
  · refine HoldsThroughout.cons_append hP1 ?_ ?_
    · intro k
      exact hwrite _ (List.take_prefix _ _)
    · exact HoldsThroughout.nil (hwrite _ (List.prefix_refl _))

namespace LogSegment

theorem adoptOps_eq (seg : LogSegment) {s : ScanState} {rs : List Record} {base : UInt64}
    (hgood : ScanGood base rs s) (tail : Bytes) :
    seg.adoptOps s (encodeAll rs ++ tail).length =
      (if tail = [] then [] else [.truncate seg.logFile (encodeAll rs).length]) ++
        rewriteOps seg.indexFile s.index := by
  have hcut : s.currentPos < (encodeAll rs ++ tail).length ↔ tail ≠ [] := by
    rw [hgood.pos, List.length_append, ← List.length_pos_iff]
    omega
  unfold adoptOps rewriteOps
  by_cases htail : tail = []
  · rw [if_neg (by rw [hcut]; simpa using htail), if_pos htail]
  · rw [if_pos (hcut.mpr htail), if_neg htail, hgood.pos]

theorem adoptScan_match {seg : LogSegment} {fs : FileSystem} {s : ScanState}
    {x : SegmentData} {tail : Bytes} (hbase : seg.baseOffset = x.base)
    (hgood : ScanGood seg.baseOffset x.records s)
    (hfile : content fs seg.logFile = encodeAll x.records ++ tail)
    (hlen : (encodeAll x.records ++ tail).length < 2 ^ 32) :
    SegMatch (seg.adoptScan s fs).1 x ∧ (seg.adoptScan s fs).1.index = s.index ∧
      (seg.adoptScan s fs).1.isSealed = seg.isSealed := by
  refine ⟨⟨hbase, ?_, hgood.sound⟩, rfl, rfl⟩
  simp only [adoptScan, hfile, u32_of_lt hlen, hgood.pos]
  rw [List.length_append]
  split <;> omega

end LogSegment

theorem readRecordAt_posOf {fs : FileSystem} {tail : Bytes} (hbase : seg.baseOffset = x.base)
    (hsize : seg.logSizeBytes = (encodeAll x.records).length)
    (hlog : fs.dir.lookup ⟨x.base, .log⟩ = some (encodeAll x.records ++ tail))
    (hfits : ∀ r ∈ x.records, r.Fits) {k : ℕ} {r : Record} (hk : x.records[k]? = some r) :
    seg.readRecordAt fs (posOf x.records k) = .ok r := by
  have hlt : k < x.records.length := (List.getElem?_eq_some_iff.mp hk).1
  have hr : r.Fits := hfits r (List.mem_of_getElem? hk)
  have hpos := posOf_lt hlt
  have hcontent : content fs seg.logFile = encodeAll x.records ++ tail := by
    rw [content, LogSegment.logFile, hbase, hlog]
    rfl
  have hsplit : encodeAll x.records ++ tail = encodeAll (x.records.take k) ++
      (RecordCodec.encode r ++ (encodeAll (x.records.drop (k + 1)) ++ tail)) := by
    have hrs : x.records = x.records.take k ++ r :: x.records.drop (k + 1) := by
      obtain ⟨h1, h2⟩ := List.getElem?_eq_some_iff.mp hk
      rw [← h2, ← List.drop_eq_getElem_cons h1, List.take_append_drop]
    conv_lhs => rw [hrs]
    simp [encodeAll]
  have hnext : nextBlock ((content fs seg.logFile).drop (posOf x.records k)) =
      .item r.block (encodeAll (x.records.drop (k + 1)) ++ tail) := by
    refine nextBlock_item_iff.mpr ⟨hr.encodable.valid, ?_⟩
    rw [hcontent, hsplit]
    exact List.drop_left' rfl
  exact readRecordAt_of_item (by omega) hnext

theorem quickLastPos_spec (h : SegMatch seg x) :
    ∃ k, (k = 0 ∨ k < x.records.length) ∧ seg.quickLastPos = posOf x.records k := by
  unfold LogSegment.quickLastPos LogSegment.lookupFilePosition
  split
  · split
    · exact ⟨0, Or.inl rfl, by simp [posOf]⟩
    · obtain ⟨k, -, hk, heq⟩ := lookup_sound h.sound (seg.relOffset seg.lastOffset)
      exact ⟨k, hk, heq⟩
  · cases hlast : seg.index.getLast? with
    | none => exact ⟨0, Or.inl rfl, by simp [posOf]⟩
    | some e =>
      obtain ⟨k, hk, rfl⟩ := h.sound.mem (List.mem_of_getLast? hlast)
      exact ⟨k, Or.inr hk, rfl⟩

/-- **The quick check passes** on a segment whose log and index are good. -/
theorem verifyQuick_spec {fs : FileSystem} (h : SegMatch seg x) (hfiles : SegFiles fs.dir x []) :
    seg.verifyQuick fs = true := by
  unfold LogSegment.verifyQuick
  by_cases hnil : x.records = []
  · rw [if_pos (by rw [h.size, hnil]; rfl)]
  · have hpos : 0 < x.records.length := List.length_pos_iff.mpr hnil
    have hread : ∀ k, k < x.records.length →
        ∃ r, seg.readRecordAt fs (posOf x.records k) = .ok r := by
      intro k hk
      exact ⟨_, readRecordAt_posOf h.base h.size hfiles.log hfiles.fits
        (List.getElem?_eq_getElem hk)⟩
    have hmin : 28 ≤ (encodeAll x.records).length := by
      obtain ⟨r, rest, hrs⟩ := List.exists_cons_of_ne_nil hnil
      have hr : r.Fits := hfiles.fits r (by simp [hrs])
      have hsize := RecordCodec.length_encode_of_fits hr
      have := min_size r
      rw [hrs, encodeAll, List.flatMap_cons, List.length_append]
      omega
    have hindex : seg.index.any (fun e => decide (seg.logSizeBytes ≤ e.filePosition)) = false := by
      rw [List.any_eq_false]
      intro e he
      have := h.sound.filePosition_lt he
      simp only [decide_eq_true_eq, h.size]
      omega
    rw [if_neg (by rw [h.size]; omega), if_neg (by rw [h.size]; omega), hindex,
      if_neg Bool.false_ne_true]
    obtain ⟨r, hr⟩ := hread 0 hpos
    rw [show posOf x.records 0 = 0 by simp [posOf]] at hr
    rw [hr]
    obtain ⟨k, hk, heq⟩ := quickLastPos_spec h
    have hklt : k < x.records.length := by omega
    obtain ⟨r', hr'⟩ := hread k hklt
    dsimp only
    rw [heq, hr']
    split <;> rfl

/-! ## Closed segments -/

section Closed

variable {d d' : Disk} {pre : List SegmentData} {s x : SegmentData} {tail : Bytes}

theorem eq_of_base_eq {start : ℕ} (hchain : Chained start (pre ++ [s])) {y : SegmentData}
    (hx : x ∈ pre) (hy : y ∈ pre) (h : y.base = x.base) : y = x :=
  List.inj_on_of_nodup_map ((chained_snoc.mp hchain).1.bases_sorted.1.imp UInt64.ne_of_lt) hy hx h

theorem DiskInv.setClosedIndex (h : DiskInv d (pre ++ [s]) tail) (hx : x ∈ pre)
    (hsame : ∀ f, f ≠ ⟨x.base, .index⟩ → d'.lookup f = d.lookup f) {es : List IndexEntry}
    (hsound : IndexSound x.records es) {bs : Bytes} (hbs : bs <+: OffsetIndex.encodeEntries es)
    (hindex : d'.lookup ⟨x.base, .index⟩ = some bs) : DiskInv d' (pre ++ [s]) tail := by
  obtain ⟨⟨start, hchain⟩, -, hclosed, -, -, -, hrecent⟩ := diskInv_snoc.mp h
  have hlen : (encodeAll x.records).length < 2 ^ 32 := by
    simpa using (hclosed x hx).files.len
  refine h.setIndex ?_ ?_ ?_
  · intro f hf
    refine hsame f ?_
    rintro rfl
    exact hf rfl
  · intro y hy hmarker
    by_cases hyx : y.base = x.base
    · obtain rfl := eq_of_base_eq hchain hx hy hyx
      rw [hindex, Option.getD_some, OffsetIndex.loadEntries_cut (hsound.fit hlen) hbs]
      exact hsound.take _
    · rw [hsame _ (by simpa using hyx)]
      exact (hclosed y hy).index hmarker
  · intro b hb
    by_cases hbx : b = x.base
    · exact Or.inl (hbx ▸ UInt64.le_of_lt (base_lt_of_mem hchain hx))
    · have hkeep := hsame ⟨b, .index⟩ (by simpa using hbx)
      rw [hkeep] at hb ⊢
      exact (hrecent _ hb).imp_right And.right

theorem DiskInv.openClosed (h : DiskInv d (pre ++ [s]) tail) (hx : x ∈ pre)
    (hsame : ∀ f, d'.lookup f = d.lookup f ∨
      f = ⟨x.base, .index⟩ ∧ d'.lookup f = some ((d.lookup f).getD [])) :
    DiskInv d' (pre ++ [s]) tail := by
  obtain ⟨⟨start, hchain⟩, -, hclosed, -, -, -, hrecent⟩ := diskInv_snoc.mp h
  refine h.setIndex ?_ ?_ ?_
  · intro f hf
    rcases hsame f with heq | ⟨rfl, -⟩
    · exact heq
    · exact absurd rfl hf
  · intro y hy hmarker
    have hidx := (hclosed y hy).index hmarker
    rcases hsame ⟨y.base, .index⟩ with heq | ⟨-, heq⟩
    · rw [heq]
      exact hidx
    · rw [heq, Option.getD_some]
      exact hidx
  · intro b hb
    rcases hsame ⟨b, .index⟩ with heq | ⟨heq, -⟩
    · rw [heq] at hb ⊢
      exact (hrecent _ hb).imp_right And.right
    · have hbx : b = x.base := congrArg FileName.base heq
      exact Or.inl (hbx ▸ UInt64.le_of_lt (base_lt_of_mem hchain hx))

theorem lookup_create_of_some {f : FileName} {c : Bytes} (h : d.lookup f = some c) (g : FileName) :
    ((FileOp.create f).apply d).lookup g = d.lookup g := by
  rw [lookup_create]
  split
  · rename_i hg
    rw [hg, h]
    rfl
  · rfl

theorem holdsThroughout_openClosed {seg : LogSegment} (h : DiskInv d (pre ++ [s]) tail)
    (hx : x ∈ pre) (hbase : seg.baseOffset = x.base) :
    HoldsThroughout (fun e => DiskInv e (pre ++ [s]) tail) d seg.openOps := by
  obtain ⟨-, -, hclosed, -, -, -, -⟩ := diskInv_snoc.mp h
  have hlogFile : seg.logFile = ⟨x.base, .log⟩ := by rw [LogSegment.logFile, hbase]
  have hindexFile : seg.indexFile = ⟨x.base, .index⟩ := by rw [LogSegment.indexFile, hbase]
  have hcreate := fun g => @lookup_create_of_some d _ _ (hclosed x hx).files.log g
  rw [LogSegment.openOps, hlogFile, hindexFile]
  refine HoldsThroughout.cons (by simp) h ?_
  refine HoldsThroughout.cons (by simp) (h.openClosed hx fun f => Or.inl (hcreate f)) ?_
  refine HoldsThroughout.nil (h.openClosed hx fun f => ?_)
  rw [lookup_create]
  split
  · rename_i hf
    exact Or.inr ⟨hf, by rw [hcreate, hf]⟩
  · exact Or.inl (hcreate f)

end Closed

/-! ## The three branches for a closed segment -/

/-- What the loop has to know about a closed segment it went over. -/
structure RecoveredClosed (p p' : Partition) (x : SegmentData) : Prop where
  segments : ∃ seg, p'.segments = p.segments ++ [seg] ∧ ClosedMatch seg x
  degraded : p'.isDegraded = p.isDegraded
  next : p'.nextOffset = p.nextOffset
  config : p'.config = p.config
  dir : p'.partitionDir = p.partitionDir

def Partition.withClosed (p : Partition) (seg : LogSegment) : Partition :=
  { p with segments := p.segments ++ [{ seg with isSealed := true }] }

theorem recoveredClosed_withClosed {p : Partition} (h : SegMatch seg x) :
    RecoveredClosed p (p.withClosed seg) x where
  segments := ⟨_, rfl, ⟨h.base, h.size, h.sound⟩, rfl⟩
  degraded := rfl
  next := rfl
  config := rfl
  dir := rfl

section Branches

variable {fs : FileSystem} {pre : List SegmentData} {s x : SegmentData} {tail : Bytes}
  {p : Partition} {seg : LogSegment}

theorem scan_closed (hfiles : SegFiles fs.dir x []) (hbase : seg.baseOffset = x.base)
    (hcons : Consecutive x.base.toNat x.records) :
    ∃ sc, seg.scan fs = (sc, false) ∧ ScanGood seg.baseOffset x.records sc ∧
      SegMatch (seg.adoptScan sc fs).1 x ∧
      (seg.adoptScan sc fs).2 = fs.execAll (rewriteOps ⟨x.base, .index⟩ sc.index) := by
  have hlogFile : seg.logFile = ⟨x.base, .log⟩ := by rw [LogSegment.logFile, hbase]
  have hindexFile : seg.indexFile = ⟨x.base, .index⟩ := by rw [LogSegment.indexFile, hbase]
  have hfile : content fs seg.logFile = encodeAll x.records ++ [] := by
    rw [content, hlogFile, hfiles.log]
    rfl
  obtain ⟨sc, hscan, hgood⟩ := scan_spec hfile Torn.nil hfiles.fits (hbase ▸ hcons) hfiles.len
  refine ⟨sc, by simpa using hscan, hgood,
    (LogSegment.adoptScan_match hbase hgood hfile hfiles.len).1, ?_⟩
  rw [LogSegment.adoptScan_fs, hfile, u32_of_lt hfiles.len, LogSegment.adoptOps_eq seg hgood,
    if_pos rfl, hindexFile, List.nil_append]

/-- **Every branch takes the segment over as it is.** -/
theorem recoverSealed_spec (hdisk : DiskInv fs.dir (pre ++ [s]) tail) (hx : x ∈ pre)
    (hmatch : fs.dir.lookup ⟨x.base, .sealed⟩ ≠ none → SegMatch seg x)
    (hbase : seg.baseOffset = x.base) (hindex : fs.dir.lookup ⟨x.base, .index⟩ ≠ none) :
    ∃ p' ops, p.recoverSealed seg fs = (.OK, p', fs.execAll ops) ∧ RecoveredClosed p p' x ∧
      HoldsThroughout (fun e => DiskInv e (pre ++ [s]) tail) fs.dir ops := by
  obtain ⟨⟨start, hchain⟩, -, hclosed, -, -, -, -⟩ := diskInv_snoc.mp hdisk
  have hfiles := (hclosed x hx).files
  have hcons : Consecutive x.base.toNat x.records := by
    obtain ⟨a, b, rfl⟩ := List.append_of_mem hx
    have hdrop := (chained_snoc.mp hchain).1.drop a.length
    rw [List.drop_left' rfl] at hdrop
    obtain ⟨hb, hc, -, -⟩ := hdrop
    exact hb ▸ hc
  obtain ⟨sc, hscan, hgood, hsegm, hfs⟩ := @scan_closed fs x seg hfiles hbase hcons
  -- both scanning branches rewrite the index file
  have hrewrite : HoldsThroughout (fun e => DiskInv e (pre ++ [s]) tail) fs.dir
      (rewriteOps ⟨x.base, .index⟩ sc.index) := by
    refine holdsThroughout_rewriteOps hdisk hindex ?_
    intro e bs hsame hbs hself
    exact hdisk.setClosedIndex hx hsame hgood.sound hbs hself
  set seg2 := (seg.adoptScan sc fs).1
  unfold Partition.recoverSealed
  by_cases hmark : seg.hasSealedMarker fs = true
  · have hpresent : fs.dir.lookup ⟨x.base, .sealed⟩ ≠ none := by
      rw [LogSegment.hasSealedMarker, LogSegment.sealedFile, hbase] at hmark
      exact Option.isSome_iff_ne_none.mp hmark
    rw [hmark]
    by_cases hfull : p.config.fullScan = true
    · -- full scan
      refine ⟨p.withClosed seg2, rewriteOps ⟨x.base, .index⟩ sc.index ++ seg2.flushOps, ?_,
        recoveredClosed_withClosed hsegm,
        hrewrite.append (holdsThroughout_flushOps hrewrite.final seg2)⟩
      simp only [Bool.not_true, Bool.false_eq_true, if_false, hfull, if_true,
        LogSegment.verifyAndRebuildFull, hscan, hfs, LogSegment.sealSegment, LogSegment.flush_eq,
        Fs.execAll_execAll, UInt64.lt_irrefl, decide_false, Bool.or_false]
      rfl
    · -- quick check
      have hquick := verifyQuick_spec (hmatch hpresent) hfiles
      refine ⟨p.withClosed seg, seg.flushOps, ?_,
        recoveredClosed_withClosed (hmatch hpresent), holdsThroughout_flushOps hdisk seg⟩
      simp only [Bool.not_true, Bool.false_eq_true, if_false, hfull, hquick,
        LogSegment.sealSegment, LogSegment.flush_eq, Bool.or_false]
      rfl
  · -- no marker
    have hmark' : seg.hasSealedMarker fs = false := by simpa using hmark
    have hafter : IndexSound x.records (OffsetIndex.loadEntries
        (((applyAll fs.dir (rewriteOps ⟨x.base, .index⟩ sc.index)).lookup
          ⟨x.base, .index⟩).getD [])) := by
      have hlen : (encodeAll x.records).length < 2 ^ 32 := by simpa using hfiles.len
      rw [lookup_rewriteOps _ hindex, Option.getD_some,
        OffsetIndex.loadEntries_encodeEntries (hgood.sound.fit hlen)]
      exact hgood.sound
    have hmarks := @holdsThroughout_markerOps _ pre s x tail seg2 hrewrite.final hx
      hsegm.base hafter
    refine ⟨p.withClosed seg2, rewriteOps ⟨x.base, .index⟩ sc.index ++ (seg2.flushOps ++
      (seg2.markerOps ++ (seg2.flushOps ++ [.flushDir]))), ?_,
      recoveredClosed_withClosed hsegm, ?_⟩
    · simp only [hmark', Bool.not_false, if_true, LogSegment.recoverAndRebuildIndex, hscan,
        Status.if_not_ok, hfs, LogSegment.sealSegment,
        LogSegment.writeSealedMarker_eq, LogSegment.flush_eq, Fs.exec_eq_execAll,
        Fs.execAll_execAll, List.append_assoc]
      rfl
    · refine hrewrite.append ?_
      refine (holdsThroughout_flushOps hrewrite.final seg2).append ?_
      refine hmarks.append ?_
      refine (holdsThroughout_flushOps hmarks.final seg2).append ?_
      exact HoldsThroughout.cons (by simp) hmarks.final (HoldsThroughout.nil hmarks.final)

end Branches

/-! ## The active segment -/

/-- Kills inside recovery only ever change how much of a torn tail is left. -/
def Recoverable (segs : List SegmentData) (d : Disk) : Prop := ∃ tail, DiskInv d segs tail

section Active

variable {fs : FileSystem} {pre : List SegmentData} {s : SegmentData} {tail : Bytes}
  {p : Partition} {seg : LogSegment}

theorem DiskInv.cutTail {d : Disk} (h : DiskInv d (pre ++ [s]) tail) :
    DiskInv ((FileOp.truncate ⟨s.base, .log⟩ (encodeAll s.records).length).apply d)
      (pre ++ [s]) [] := by
  obtain ⟨⟨start, hchain⟩, -, -, hfiles, -, -, -⟩ := diskInv_snoc.mp h
  obtain ⟨-, -, hbase, hcons⟩ := chained_snoc.mp hchain
  have hlen := hfiles.len
  rw [List.length_append] at hlen
  refine h.setActive ?_ ?_ (hbase ▸ hcons) hfiles.fits ?_ Torn.nil
  · rw [lookup_truncate, if_pos rfl, hfiles.log, Option.map_some,
      resize_of_le (by simp), List.take_left' rfl, List.append_nil]
  · intro f hf
    rw [lookup_truncate, if_neg hf]
  · rw [List.append_nil]
    omega

/-- **The active segment** is cut at its torn tail and gets a fresh index. -/
theorem recoverActive_spec (hdisk : DiskInv fs.dir (pre ++ [s]) tail)
    (hbase : seg.baseOffset = s.base) (hunsealed : seg.isSealed = false)
    (hindex : fs.dir.lookup ⟨s.base, .index⟩ ≠ none) :
    ∃ p' ops seg', p.recoverActive seg fs = (.OK, p', fs.execAll ops) ∧
      p'.segments = p.segments ++ [seg'] ∧
      p'.nextOffset = s.base + UInt64.ofNat s.records.length ∧
      p'.isDegraded = p.isDegraded ∧ p'.config = p.config ∧
      DiskInv (applyAll fs.dir ops) (pre ++ [s]) [] ∧
      ActiveMatch (applyAll fs.dir ops) seg' s ∧
      HoldsThroughout (Recoverable (pre ++ [s])) fs.dir ops := by
  obtain ⟨⟨start, hchain⟩, -, -, hfiles, -, htorn, -⟩ := diskInv_snoc.mp hdisk
  obtain ⟨-, -, hsbase, hcons⟩ := chained_snoc.mp hchain
  rw [← hsbase, ← hbase] at hcons
  have hlogFile : seg.logFile = ⟨s.base, .log⟩ := by rw [LogSegment.logFile, hbase]
  have hindexFile : seg.indexFile = ⟨s.base, .index⟩ := by rw [LogSegment.indexFile, hbase]
  have hfile : content fs seg.logFile = encodeAll s.records ++ tail := by
    rw [content, hlogFile, hfiles.log]
    rfl
  obtain ⟨sc, hscan, hgood⟩ := scan_spec hfile htorn hfiles.fits hcons hfiles.len
  obtain ⟨hmatch, hidx, hsl⟩ := LogSegment.adoptScan_match hbase hgood hfile hfiles.len
  set cut : List (FileOp FileName) :=
    if tail = [] then [] else [.truncate ⟨s.base, .log⟩ (encodeAll s.records).length] with hcut
  have hfs : (seg.adoptScan sc fs).2 = fs.execAll (cut ++
    rewriteOps ⟨s.base, .index⟩ sc.index) := by
    rw [LogSegment.adoptScan_fs, hfile, u32_of_lt hfiles.len, LogSegment.adoptOps_eq seg hgood,
      hlogFile, hindexFile]
  -- the cut first
  have hcutinv : DiskInv (applyAll fs.dir cut) (pre ++ [s]) [] ∧
      HoldsThroughout (Recoverable (pre ++ [s])) fs.dir cut ∧
      (applyAll fs.dir cut).lookup ⟨s.base, .index⟩ = fs.dir.lookup ⟨s.base, .index⟩ := by
    by_cases htail : tail = []
    · rw [hcut, if_pos htail]
      subst htail
      exact ⟨hdisk, HoldsThroughout.nil ⟨_, hdisk⟩, rfl⟩
    · rw [hcut, if_neg htail]
      refine ⟨hdisk.cutTail, ?_, ?_⟩
      · exact HoldsThroughout.cons (by simp) ⟨_, hdisk⟩ (HoldsThroughout.nil ⟨_, hdisk.cutTail⟩)
      · simp [lookup_truncate]
  obtain ⟨hinv1, hkill1, hidx1⟩ := hcutinv
  have hindex1 : (applyAll fs.dir cut).lookup ⟨s.base, .index⟩ ≠ none := by
    rw [hidx1]
    exact hindex
  have hinv2 : DiskInv (applyAll fs.dir (cut ++ rewriteOps ⟨s.base, .index⟩ sc.index))
      (pre ++ [s]) [] := by
    rw [applyAll_append]
    exact hinv1.setActiveIndex fun f hf => lookup_rewriteOps_ne _ hf
  refine ⟨{ p with
      nextOffset := sc.nextOffset
      segments := p.segments ++ [(seg.adoptScan sc fs).1] },
    cut ++ rewriteOps ⟨s.base, .index⟩ sc.index, (seg.adoptScan sc fs).1, ?_, rfl, ?_, rfl, rfl,
    hinv2, ⟨hmatch, hsl.trans hunsealed, ?_, ?_⟩, ?_⟩
  · simp only [Partition.recoverActive, LogSegment.recoverAndRebuildIndex, hscan, Status.if_not_ok,
      hfs]
  · rw [← hbase]
    exact hgood.next
  · rw [hidx, applyAll_append]
    exact lookup_rewriteOps _ hindex1
  · intro hnil
    exact hgood.first (hidx ▸ hnil)
  · refine hkill1.append ?_
    refine holdsThroughout_rewriteOps ⟨_, hinv1⟩ hindex1 ?_
    intro e bs hsame _ _
    exact ⟨_, hinv1.setActiveIndex hsame⟩

theorem openActive_spec (hdisk : DiskInv fs.dir (pre ++ [s]) tail) (seg : LogSegment)
    (hbase : seg.baseOffset = s.base) :
    seg.openFiles {} fs = (.OK, seg.opened fs.dir, fs.execAll seg.openOps) ∧
      DiskInv (applyAll fs.dir seg.openOps) (pre ++ [s]) tail ∧
      (applyAll fs.dir seg.openOps).lookup ⟨s.base, .index⟩ ≠ none ∧
      HoldsThroughout (Recoverable (pre ++ [s])) fs.dir seg.openOps := by
  obtain ⟨-, -, -, hfiles, hsealed, -, -⟩ := diskInv_snoc.mp hdisk
  have hlogFile : seg.logFile = ⟨s.base, .log⟩ := by rw [LogSegment.logFile, hbase]
  have hindexFile : seg.indexFile = ⟨s.base, .index⟩ := by rw [LogSegment.indexFile, hbase]
  have hsealedFile : seg.sealedFile = ⟨s.base, .sealed⟩ := by rw [LogSegment.sealedFile, hbase]
  have hcreate := fun g => @lookup_create_of_some fs.dir _ _ hfiles.log g
  set d1 := (FileOp.create ⟨s.base, .log⟩).apply fs.dir
  have hinv1 : DiskInv d1 (pre ++ [s]) tail := hdisk.setActiveIndex fun f _ => hcreate f
  have hinv2 : DiskInv ((FileOp.create ⟨s.base, .index⟩).apply d1) (pre ++ [s]) tail := by
    refine hinv1.setActiveIndex ?_
    intro f hf
    rw [lookup_create, if_neg hf]
  refine ⟨LogSegment.openFiles_unsealed seg fs (hsealedFile ▸ hsealed), ?_, ?_, ?_⟩
  · rw [LogSegment.openOps, hlogFile, hindexFile]
    exact hinv2
  · rw [← hindexFile]
    exact seg.index_exists_after_open fs.dir
  · rw [LogSegment.openOps, hlogFile, hindexFile]
    refine HoldsThroughout.cons (by simp) ⟨_, hdisk⟩ ?_
    exact HoldsThroughout.cons (by simp) ⟨_, hinv1⟩ (HoldsThroughout.nil ⟨_, hinv2⟩)

end Active

/-! ## The whole of recovery -/

/-- One round of the loop over a closed segment: open, then one of the branches. -/
theorem recoverClosed_spec {fs : FileSystem} {pre : List SegmentData} {s x : SegmentData}
    {tail : Bytes} {p : Partition} (hdisk : DiskInv fs.dir (pre ++ [s]) tail) (hx : x ∈ pre) :
    ∃ seg p' ops ops', (p.newSegment x.base).openFiles {} fs = (.OK, seg, fs.execAll ops) ∧
      p.recoverSealed seg (fs.execAll ops) = (.OK, p', (fs.execAll ops).execAll ops') ∧
      RecoveredClosed p p' x ∧
      HoldsThroughout (fun e => DiskInv e (pre ++ [s]) tail) fs.dir (ops ++ ops') := by
  obtain ⟨-, -, hclosed, -, -, -, -⟩ := diskInv_snoc.mp hdisk
  have hfiles := (hclosed x hx).files
  have hlen : (encodeAll x.records).length < 2 ^ 32 := by simpa using hfiles.len
  set seg0 := p.newSegment x.base
  have hkill := @holdsThroughout_openClosed fs.dir pre s x tail seg0 hdisk hx rfl
  obtain ⟨seg, hopen, hbase, -, hsize, hindex⟩ := LogSegment.openFiles_spec seg0 fs
  have hlookup := seg0.lookup_openOps fs.dir
  have hmatch : (applyAll fs.dir seg0.openOps).lookup ⟨x.base, .sealed⟩ ≠ none →
      SegMatch seg x := by
    intro hmarker
    rw [hlookup, if_neg (by simp [LogSegment.indexFile, LogSegment.logFile])] at hmarker
    refine ⟨hbase, ?_, ?_⟩
    · have hlog : fs.dir.lookup seg0.logFile = some (encodeAll x.records ++ []) := hfiles.log
      rw [hsize, hlog, Option.getD_some, List.append_nil, u32_of_lt hlen]
    · rw [hindex]
      exact (hclosed x hx).index hmarker
  have hindexThere : (applyAll fs.dir seg0.openOps).lookup ⟨x.base, .index⟩ ≠ none :=
    seg0.index_exists_after_open fs.dir
  obtain ⟨p', ops', heq, hrec, hkill'⟩ := @recoverSealed_spec (fs.execAll seg0.openOps) pre s x tail
    p seg hkill.final hx hmatch hbase hindexThere
  exact ⟨seg, p', seg0.openOps, ops', hopen, heq, hrec, hkill.append hkill'⟩

/-- **The recovery loop**, by induction on the closed segments still to come. -/
theorem recoverSegments_spec {s : SegmentData} {tail : Bytes} (mid : List SegmentData) :
    ∀ {done : List SegmentData} {p : Partition} {fs : FileSystem},
    DiskInv fs.dir ((done ++ mid) ++ [s]) tail → List.Forall₂ ClosedMatch p.segments done →
    ∃ p' ops, p.recoverSegments ((mid ++ [s]).map SegmentData.base) fs = (.OK, p', fs.execAll ops) ∧
      PartInv p' (applyAll fs.dir ops) (done ++ mid) s ∧
      p'.isDegraded = p.isDegraded ∧ p'.config = p.config ∧
      HoldsThroughout (Recoverable ((done ++ mid) ++ [s])) fs.dir ops := by
  induction mid with
  | nil =>
    intro done p fs hdisk hclosed
    simp only [List.append_nil] at hdisk ⊢
    obtain ⟨hopen, hinv, hindex, hkill⟩ := openActive_spec hdisk (p.newSegment s.base) rfl
    obtain ⟨p', ops, seg', heq, hsegs, hnext, hdeg, hconf, hdisk', hmatch, hkill'⟩ :=
      @recoverActive_spec (fs.execAll (p.newSegment s.base).openOps) done s tail p
        ((p.newSegment s.base).opened fs.dir) hinv rfl rfl hindex
    refine ⟨p', (p.newSegment s.base).openOps ++ ops, ?_, ?_, hdeg, hconf, hkill.append hkill'⟩
    · simp only [List.nil_append, List.map_cons, List.map_nil, Partition.recoverSegments, hopen,
        Status.if_not_ok, List.isEmpty_nil, if_true,
        heq, Fs.execAll_execAll]
    · rw [applyAll_append]
      exact ⟨hdisk', ⟨p.segments, seg', hsegs, hclosed, hmatch⟩, hnext⟩
  | cons x mid ih =>
    intro done p fs hdisk hclosed
    have hx : x ∈ done ++ x :: mid := by simp
    obtain ⟨seg, p1, ops1, ops2, hopen, heq, hrec, hkill⟩ :=
      @recoverClosed_spec fs (done ++ x :: mid) s x tail p hdisk hx
    obtain ⟨seg', hsegs, hcm⟩ := hrec.segments
    have hsplit : done ++ x :: mid = (done ++ [x]) ++ mid := by simp
    have hclosed1 : List.Forall₂ ClosedMatch p1.segments (done ++ [x]) := by
      rw [hsegs]
      exact List.rel_append hclosed (List.Forall₂.cons hcm List.Forall₂.nil)
    have hdisk1 : DiskInv ((fs.execAll ops1).execAll ops2).dir
        (((done ++ [x]) ++ mid) ++ [s]) tail := by
      rw [← hsplit, Fs.execAll_execAll]
      exact hkill.final
    obtain ⟨p', ops3, heq3, hinv, hdeg, hconf, hkill3⟩ :=
      @ih (done ++ [x]) p1 ((fs.execAll ops1).execAll ops2) hdisk1 hclosed1
    refine ⟨p', (ops1 ++ ops2) ++ ops3, ?_, ?_, hdeg.trans hrec.degraded,
      hconf.trans hrec.config, ?_⟩
    · have hrest : ((mid ++ [s]).map SegmentData.base).isEmpty = false := by simp
      simp only [List.cons_append, List.map_cons, Partition.recoverSegments, hopen,
        Status.if_not_ok, Bool.false_eq_true, if_false, hrest, heq, heq3]
      rw [Fs.execAll_execAll, Fs.execAll_execAll, List.append_assoc]
    · rw [hsplit, applyAll_append]
      rw [Fs.execAll_execAll] at hinv
      exact hinv
    · refine HoldsThroughout.append (hkill.mono fun e he => ⟨tail, he⟩) ?_
      rw [Fs.execAll_execAll] at hkill3
      rw [hsplit]
      exact hkill3

/-- **Recovery.** On any directory that satisfies the invariant, short of 2^64
records, `open_and_recover` succeeds, keeps every whole record and marks
nothing degraded. -/
theorem openAndRecover_spec {p : Partition} {fs : FileSystem} {pre : List SegmentData}
    {s : SegmentData} {tail : Bytes} {start : ℕ} (hdisk : DiskInv fs.dir (pre ++ [s]) tail)
    (hchain : Chained start (pre ++ [s]))
    (hroom : start + (flat (pre ++ [s])).length < 2 ^ 64) :
    ∃ p' ops, p.openAndRecover fs = (.OK, p', fs.execAll ops) ∧
      PartInv p' (applyAll fs.dir ops) pre s ∧ p'.isDegraded = p.isDegraded ∧
      p'.config = p.config ∧ HoldsThroughout (Recoverable (pre ++ [s])) fs.dir ops := by
  have hlist := hdisk.listBaseOffsets
  have hne : ((pre ++ [s]).map SegmentData.base).isEmpty = false := by simp
  obtain ⟨p', ops, heq, hinv, hdeg, hconf, hkill⟩ :=
    @recoverSegments_spec s tail pre [] { p with segments := [] } fs (by simpa using hdisk)
      List.Forall₂.nil
  simp only [List.nil_append] at hinv hkill
  have hnext := hinv.next_toNat hchain hroom
  have hend := chained_end hchain
  obtain ⟨closed, active, hsegs, -, hactive⟩ := hinv.segments
  have hle : ¬p'.nextOffset < active.baseOffset := by
    rw [hactive.base, UInt64.lt_iff_toNat_lt]
    omega
  refine ⟨p', ops, ?_, hinv, hdeg, hconf, hkill⟩
  simp only [Partition.openAndRecover, hlist, hne, Bool.false_eq_true, if_false, heq,
    Status.ok_OK, Bool.not_true, hsegs, List.getLast?_concat, hle]

theorem Blank.listBaseOffsets {base : UInt64} (h : Blank d base) :
    Partition.listBaseOffsets d = [] := by
  have hlogs : d.keys.filter (fun f => f.kind = .log) = [] := by
    refine List.filter_eq_nil_iff.mpr ?_
    intro f hf hkind
    have hlog : f.kind = .log := by simpa using hkind
    exact AList.lookup_eq_none.mp (h.lookup_none (by rw [hlog]; simp)) hf
  unfold Partition.listBaseOffsets
  rw [hlogs]
  rfl

theorem openAndRecover_blank {p : Partition} {fs : FileSystem} (hblank : Blank fs.dir 0) :
    ∃ p' ops, p.openAndRecover fs = (.OK, p', fs.execAll ops) ∧
      PartInv p' (applyAll fs.dir ops) [] ⟨0, []⟩ ∧ p'.isDegraded = p.isDegraded ∧
      p'.config = p.config ∧
      HoldsThroughout (fun e => e = fs.dir ∨ Recoverable [⟨0, []⟩] e) fs.dir ops := by
  set seg0 := ({ p with segments := [] } : Partition).newSegment 0 with hseg0
  set d1 := (FileOp.create ⟨0, .log⟩).apply fs.dir with hd1
  have hinv1 : DiskInv d1 ([] ++ [⟨0, []⟩]) [] := by
    refine hblank.firstSegment ?_ ?_
    · rw [hd1, lookup_create, if_pos rfl, hblank.lookup_none (by simp)]
      rfl
    · intro f hf
      rw [hd1, lookup_create, if_neg hf]
  have hinv2 : DiskInv (applyAll fs.dir seg0.openOps) ([] ++ [⟨0, []⟩]) [] := by
    refine hinv1.setActiveIndex ?_
    intro f hf
    exact (lookup_create d1 ⟨0, .index⟩ f).trans (if_neg hf)
  have hopen := LogSegment.openFiles_unsealed seg0 fs
    (hblank.lookup_none (by simp [LogSegment.sealedFile]))
  have hindex : (fs.execAll seg0.openOps).dir.lookup ⟨0, .index⟩ ≠ none :=
    seg0.index_exists_after_open fs.dir
  obtain ⟨p', ops, seg', heq, hsegs, hnext, hdeg, hconf, hdisk', hmatch, hkill⟩ :=
    @recoverActive_spec (fs.execAll seg0.openOps) [] ⟨0, []⟩ [] { p with segments := [] }
      (seg0.opened fs.dir) hinv2 rfl rfl hindex
  have hlist := hblank.listBaseOffsets
  refine ⟨p', seg0.openOps ++ ops, ?_, ?_, hdeg, hconf, ?_⟩
  · have hbase : seg'.baseOffset = 0 := hmatch.base
    simp only [Partition.openAndRecover, hlist, List.isEmpty_nil, if_true,
      Partition.recoverSegments, ← hseg0, hopen, Status.if_not_ok, if_false, heq, hsegs,
      List.nil_append, List.getLast?_singleton, hbase, UInt64.not_lt_zero, Fs.execAll_execAll]
  · rw [applyAll_append]
    exact ⟨hdisk', ⟨[], seg', hsegs, List.Forall₂.nil, hmatch⟩, hnext⟩
  · refine HoldsThroughout.append ?_ (hkill.mono fun e he => Or.inr he)
    refine HoldsThroughout.cons (by simp) (Or.inl rfl) ?_
    refine HoldsThroughout.cons (by simp) (Or.inr ⟨_, hinv1⟩) ?_
    exact HoldsThroughout.nil (Or.inr ⟨_, hinv2⟩)

theorem openAndRecover_empty {p : Partition} {fs : FileSystem} (hdisk : DiskInv fs.dir [] []) :
    ∃ p' ops, p.openAndRecover fs = (.OK, p', fs.execAll ops) ∧
      PartInv p' (applyAll fs.dir ops) [] ⟨0, []⟩ ∧ p'.isDegraded = p.isDegraded ∧
      p'.config = p.config ∧
      HoldsThroughout (fun e => DiskInv e [] [] ∨ Recoverable [⟨0, []⟩] e) fs.dir ops := by
  obtain ⟨p', ops, heq, hinv, hdeg, hconf, hkill⟩ := @openAndRecover_blank p fs (hdisk.blank 0)
  refine ⟨p', ops, heq, hinv, hdeg, hconf, hkill.mono ?_⟩
  rintro e (rfl | he)
  · exact Or.inl hdisk
  · exact Or.inr he

/-- Recovery of a directory whose last offset is 2^64 - 1: the next offset comes
out as 0 and is then raised to the base of the active segment. -/
theorem openAndRecover_wrapped {p : Partition} {fs : FileSystem} {pre : List SegmentData}
    {s : SegmentData} {tail : Bytes} (hdisk : DiskInv fs.dir (pre ++ [s]) tail)
    (htotal : s.base.toNat + s.records.length = 2 ^ 64) (hbase : 0 < s.base.toNat) :
    ∃ p' ops, p.openAndRecover fs = (.OK, { p' with nextOffset := s.base }, fs.execAll ops) ∧
      PartInv p' (applyAll fs.dir ops) pre s := by
  have hlist := hdisk.listBaseOffsets
  have hne : ((pre ++ [s]).map SegmentData.base).isEmpty = false := by simp
  obtain ⟨p', ops, heq, hinv, -, -, -⟩ :=
    @recoverSegments_spec s tail pre [] { p with segments := [] } fs (by simpa using hdisk)
      List.Forall₂.nil
  simp only [List.nil_append] at hinv
  have hzero : p'.nextOffset.toNat = 0 := by
    rw [hinv.next, UInt64.toNat_add, UInt64.toNat_ofNat']
    omega
  obtain ⟨closed, active, hsegs, -, hactive⟩ := hinv.segments
  have hlt : p'.nextOffset < s.base := by
    rw [UInt64.lt_iff_toNat_lt]
    omega
  refine ⟨p', ops, ?_, hinv⟩
  simp only [Partition.openAndRecover, hlist, hne, Bool.false_eq_true, if_false, heq,
    Status.ok_OK, Bool.not_true, hsegs, List.getLast?_concat, hlt, if_true, hactive.base]

end StreamForge
