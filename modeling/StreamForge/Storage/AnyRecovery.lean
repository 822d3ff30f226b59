import StreamForge.Storage.SegmentRecovery

/-!
# Recovery of any directory

`open_and_recover` on whatever files it finds, as long as no log is too long for
the 32-bit sizes. Without I/O failures it always succeeds, and every round of its
loop touches the files of its own segment only; so what becomes of a segment is a
function of the files it had before (`recoveredSegment`, `recoveredFile`), and the
outcome of the whole loop is read off base by base (`recoverSegments_any`).
-/

namespace StreamForge

open FileTrace FileHandle

/-! ## Markers -/

def markerIn (file : Option Bytes) : Option SealedMarker :=
  file.bind fun c => (readAt c 0 sealedMarkerSize).bind fun bs =>
    if (SealedMarker.ofBytes bs).magic ≠ sealedMagic then none else some (SealedMarker.ofBytes bs)

theorem readSealedMarker_toOption (seg : LogSegment) (fs : FileSystem) :
    (seg.readSealedMarker fs).toOption = markerIn (fs.dir.lookup seg.sealedFile) := by
  unfold LogSegment.readSealedMarker markerIn
  cases fs.dir.lookup seg.sealedFile with
  | none => rfl
  | some file =>
    rw [Option.bind_some]
    dsimp only
    cases readAt file 0 sealedMarkerSize with
    | none => rfl
    | some bs =>
      rw [Option.bind_some]
      dsimp only
      split <;> rfl

namespace LogSegment

/-- The segment behind `open`: sizes and index off the files, and the counters of
the marker if there is a readable one. -/
def openedMarked (seg : LogSegment) (d : Disk) : LogSegment :=
  match markerIn (d.lookup seg.sealedFile) with
  | none => seg.opened d
  | some marker => (seg.opened d).withMarker marker

theorem openFiles_marked (seg : LogSegment) (fs : FileSystem) :
    seg.openFiles {} fs = (.OK, seg.openedMarked fs.dir, fs.execAll seg.openOps) := by
  have hsealed : (fs.execAll seg.openOps).dir.lookup (seg.opened fs.dir).sealedFile =
      fs.dir.lookup seg.sealedFile := by
    show (applyAll fs.dir seg.openOps).lookup seg.sealedFile = _
    rw [lookup_openOps, if_neg (by simp [sealedFile, indexFile, logFile])]
  have hmarker := readSealedMarker_toOption (seg.opened fs.dir) (fs.execAll seg.openOps)
  rw [hsealed] at hmarker
  rw [openFiles_eq, openedMarked, ← hmarker]
  cases (seg.opened fs.dir).readSealedMarker (fs.execAll seg.openOps) <;> rfl

theorem openedMarked_spec (seg : LogSegment) (d : Disk) :
    (seg.openedMarked d).baseOffset = seg.baseOffset ∧
      (seg.openedMarked d).partitionDir = seg.partitionDir ∧
      (seg.openedMarked d).indexIntervalBytes = seg.indexIntervalBytes ∧
      (seg.openedMarked d).logSizeBytes = u32 ((d.lookup seg.logFile).getD []).length ∧
      (seg.openedMarked d).index = OffsetIndex.loadEntries ((d.lookup seg.indexFile).getD []) := by
  unfold openedMarked
  split <;> exact ⟨rfl, rfl, rfl, rfl, rfl⟩

/-- The segment behind a scan of `log`. -/
def scanned (seg : LogSegment) (log : Bytes) : LogSegment :=
  { seg with
    index := (scanEnd seg log).index
    logSizeBytes := (keptOf log).length
    bytesSinceLastIndex := (scanEnd seg log).bytesSinceIdx
    runningCrcRaw := (scanEnd seg log).runningCrcRaw
    recordCount := (scanEnd seg log).recordCount
    lastOffset := (scanEnd seg log).lastOffset
    maxTimestampMs := (scanEnd seg log).maxTimestampMs }

end LogSegment

inductive Branch where
  | active
  | unmarked
  | full
  | quick
deriving DecidableEq

def branchOf (p : Partition) (d : Disk) (base : UInt64) (last : Bool) : Branch :=
  if last then .active
  else if (d.lookup ⟨base, .sealed⟩).isNone then .unmarked
  else if p.config.fullScan then .full
  else .quick

variable {p : Partition} {d : Disk} {base : UInt64} {last : Bool} {rest : List UInt64}

theorem branchOf_quick (h : branchOf p d base last = .quick) :
    last = false ∧ p.config.fullScan = false ∧ ∃ file, d.lookup ⟨base, .sealed⟩ = some file := by
  unfold branchOf at h
  cases last with
  | true => cases h
  | false =>
    cases hfile : d.lookup ⟨base, .sealed⟩ with
    | none =>
      rw [hfile] at h
      cases h
    | some file =>
      rw [hfile] at h
      cases hfull : p.config.fullScan with
      | true =>
        rw [hfull] at h
        cases h
      | false => exact ⟨rfl, rfl, file, rfl⟩

def logOf (d : Disk) (base : UInt64) : Bytes := (d.lookup ⟨base, .log⟩).getD []

def recoveredSegment (p : Partition) (d : Disk) (base : UInt64) (last : Bool) : LogSegment :=
  let seg := (p.newSegment base).openedMarked d
  match branchOf p d base last with
  | .active => seg.scanned (logOf d base)
  | .unmarked => { seg.scanned (logOf d base) with isSealed := true }
  | .full => { seg.scanned (logOf d base) with isSealed := true }
  | .quick => { seg with isSealed := true }

theorem recoveredSegment_baseOffset (p : Partition) (d : Disk) (base : UInt64) (last : Bool) :
    (recoveredSegment p d base last).baseOffset = base := by
  obtain ⟨hbase, -, -, -, -⟩ := (p.newSegment base).openedMarked_spec d
  unfold recoveredSegment
  dsimp only
  split <;> exact hbase

theorem index_recoveredSegment (h : branchOf p d base last ≠ .quick) :
    (recoveredSegment p d base last).index =
      (((p.newSegment base).openedMarked d).scanned (logOf d base)).index := by
  unfold recoveredSegment
  dsimp only
  split
  · rfl
  · rfl
  · rfl
  · contradiction

def recoveredFile (p : Partition) (d : Disk) (base : UInt64) (last : Bool) : FileKind → Option Bytes
  | .log => some (if branchOf p d base last = .quick then logOf d base else keptOf (logOf d base))
  | .index => some (if branchOf p d base last = .quick then (d.lookup ⟨base, .index⟩).getD []
      else OffsetIndex.encodeEntries (recoveredSegment p d base last).index)
  | .sealed => if branchOf p d base last = .unmarked then
      some (recoveredSegment p d base last).marker.bytes else d.lookup ⟨base, .sealed⟩

/-- The round reports damage: only segments with a marker can. -/
def reportsDamage (p : Partition) (d : Disk) (base : UInt64) (last : Bool) : Bool :=
  match branchOf p d base last with
  | .active => false
  | .unmarked => false
  | .full => decide (cutOf (logOf d base) ≠ [])
  | .quick => !((p.newSegment base).openedMarked d).verifyQuick (Fs.start d)

def FilesRecovered (p : Partition) (d d' : Disk) (base : UInt64) (last : Bool) : Prop :=
  ∀ f : FileName, d'.lookup f =
    if f.base = base then recoveredFile p d base last f.kind else d.lookup f

section OneSegment

variable {p : Partition} {fs : FileSystem} {base : UInt64}

theorem lookup_opened (p : Partition) (d : Disk) (base : UInt64) (f : FileName) :
    (applyAll d (p.newSegment base).openOps).lookup f =
      if f = ⟨base, .index⟩ ∨ f = ⟨base, .log⟩ then some ((d.lookup f).getD []) else d.lookup f :=
  (p.newSegment base).lookup_openOps d f

theorem lookup_opened_sealed (p : Partition) (d : Disk) (base : UInt64) :
    (applyAll d (p.newSegment base).openOps).lookup ⟨base, .sealed⟩ = d.lookup ⟨base, .sealed⟩ := by
  rw [lookup_opened, if_neg (by simp)]

theorem lookup_opened_log (p : Partition) (d : Disk) (base : UInt64) :
    (applyAll d (p.newSegment base).openOps).lookup ⟨base, .log⟩ = some (logOf d base) := by
  rw [lookup_opened, if_pos (Or.inr rfl)]
  rfl

theorem lookup_opened_index (p : Partition) (d : Disk) (base : UInt64) :
    (applyAll d (p.newSegment base).openOps).lookup ⟨base, .index⟩ =
      some ((d.lookup ⟨base, .index⟩).getD []) := by
  rw [lookup_opened, if_pos (Or.inl rfl)]

theorem openedMarked_files (p : Partition) (d : Disk) (base : UInt64) :
    let seg := (p.newSegment base).openedMarked d
    seg.logFile = ⟨base, .log⟩ ∧ seg.indexFile = ⟨base, .index⟩ ∧
      seg.sealedFile = ⟨base, .sealed⟩ := by
  obtain ⟨hbase, -, -, -, -⟩ := (p.newSegment base).openedMarked_spec d
  unfold LogSegment.logFile LogSegment.indexFile LogSegment.sealedFile
  dsimp only
  rw [hbase]
  exact ⟨rfl, rfl, rfl⟩

theorem file_cases (f : FileName) (base : UInt64) :
    f.base ≠ base ∨ f = ⟨base, .log⟩ ∨ f = ⟨base, .index⟩ ∨ f = ⟨base, .sealed⟩ := by
  obtain ⟨b, k⟩ := f
  by_cases hb : b = base
  · subst hb
    cases k
    · exact Or.inr (Or.inl rfl)
    · exact Or.inr (Or.inr (Or.inl rfl))
    · exact Or.inr (Or.inr (Or.inr rfl))
  · exact Or.inl hb

theorem ne_of_base_ne {f : FileName} (h : f.base ≠ base) (k : FileKind) : f ≠ ⟨base, k⟩ := by
  rintro rfl
  exact h rfl

theorem scan_opened (p : Partition) (fs : FileSystem) (base : UInt64)
    (hlen : (logOf fs.dir base).length < 2 ^ 32) :
    let seg := (p.newSegment base).openedMarked fs.dir
    let fs1 := fs.execAll (p.newSegment base).openOps
    seg.recoverAndRebuildIndex fs1 = (.OK, (scanEnd seg (logOf fs.dir base)).nextOffset,
        seg.scanned (logOf fs.dir base), (seg.adoptScan (scanEnd seg (logOf fs.dir base)) fs1).2) ∧
      seg.verifyAndRebuildFull fs1 = (.OK, ⟨(seg.fullScan fs1).bytesScanned,
        (seg.fullScan fs1).recordsValidated, (seg.fullScan fs1).corruptionCount⟩,
        seg.scanned (logOf fs.dir base), (seg.adoptScan (scanEnd seg (logOf fs.dir base)) fs1).2) ∧
      (0 < (seg.fullScan fs1).corruptionCount ↔ cutOf (logOf fs.dir base) ≠ []) ∧
      ∀ f, (seg.adoptScan (scanEnd seg (logOf fs.dir base)) fs1).2.dir.lookup f =
        if f = ⟨base, .log⟩ then some (keptOf (logOf fs.dir base))
        else if f = ⟨base, .index⟩ then
          some (OffsetIndex.encodeEntries (seg.scanned (logOf fs.dir base)).index)
        else fs.dir.lookup f := by
  intro seg fs1
  obtain ⟨hlogFile, hindexFile, -⟩ : seg.logFile = ⟨base, .log⟩ ∧ seg.indexFile = ⟨base, .index⟩ ∧
    seg.sealedFile = ⟨base, .sealed⟩ := openedMarked_files p fs.dir base
  have hlog : fs1.dir.lookup seg.logFile = some (logOf fs.dir base) := by
    rw [hlogFile]
    exact lookup_opened_log p fs.dir base
  have hindex : fs1.dir.lookup seg.indexFile ≠ none := by
    rw [hindexFile]
    show (applyAll fs.dir _).lookup _ ≠ _
    rw [lookup_opened_index]
    simp
  have hseg := adoptScan_seg hlog hlen
  refine ⟨?_, ?_, ?_, ?_⟩
  · rw [recoverAndRebuildIndex_eq hlog hlen, ← Prod.mk.eta (p := seg.adoptScan _ _), hseg]
    rfl
  · rw [verifyAndRebuildFull_eq hlog hlen, ← Prod.mk.eta (p := seg.adoptScan _ _), hseg]
    rfl
  · rw [corruptionCount_pos_iff hlog hlen]
    exact not_congr cutOf_eq_nil_iff.symm
  · intro f
    rw [lookup_adoptScan hlog hindex hlen, hlogFile, hindexFile]
    by_cases hl : f = ⟨base, .log⟩
    · rw [if_pos hl, if_pos hl]
    rw [if_neg hl, if_neg hl]
    by_cases hi : f = ⟨base, .index⟩
    · rw [if_pos hi, if_pos hi]
      rfl
    rw [if_neg hi, if_neg hi]
    show (applyAll fs.dir _).lookup f = _
    rw [lookup_opened, if_neg (by rintro (h | h); exacts [hi h, hl h])]

variable {d' : Disk}

theorem filesRecovered_of (hlog : d'.lookup ⟨base, .log⟩ = recoveredFile p d base last .log)
    (hindex : d'.lookup ⟨base, .index⟩ = recoveredFile p d base last .index)
    (hsealed : d'.lookup ⟨base, .sealed⟩ = recoveredFile p d base last .sealed)
    (hother : ∀ f : FileName, f.base ≠ base → d'.lookup f = d.lookup f) :
    FilesRecovered p d d' base last := by
  intro f
  rcases file_cases f base with hf | rfl | rfl | rfl
  · rw [if_neg hf]
    exact hother f hf
  · rw [if_pos rfl]
    exact hlog
  · rw [if_pos rfl]
    exact hindex
  · rw [if_pos rfl]
    exact hsealed

theorem filesRecovered_scan (hquick : branchOf p d base last ≠ .quick)
    (hmarked : branchOf p d base last ≠ .unmarked)
    (hfiles : ∀ f, d'.lookup f =
      if f = ⟨base, .log⟩ then some (keptOf (logOf d base))
      else if f = ⟨base, .index⟩ then some (OffsetIndex.encodeEntries
        (((p.newSegment base).openedMarked d).scanned (logOf d base)).index)
      else d.lookup f) : FilesRecovered p d d' base last := by
  refine filesRecovered_of ?_ ?_ ?_ ?_
  · rw [hfiles, if_pos rfl, recoveredFile, if_neg hquick]
  · rw [hfiles, if_neg (by simp), if_pos rfl, recoveredFile, if_neg hquick,
      index_recoveredSegment hquick]
  · rw [hfiles, if_neg (by simp), if_neg (by simp), recoveredFile, if_neg hmarked]
  · intro f hf
    rw [hfiles, if_neg (ne_of_base_ne hf _), if_neg (ne_of_base_ne hf _)]

structure RoundSpec (p p' : Partition) (d d' : Disk) (base : UInt64) (last : Bool) : Prop where
  segments : p'.segments = p.segments ++ [recoveredSegment p d base last]
  files : FilesRecovered p d d' base last
  degraded : p'.isDegraded = (p.isDegraded || reportsDamage p d base last)
  next : p'.nextOffset = if last then
    nextOffsetOf base (recordsOf (blocksOf (logOf d base))) else p.nextOffset
  config : p'.config = p.config
  dir : p'.partitionDir = p.partitionDir

theorem recoverActive_any (p : Partition) (fs : FileSystem) (base : UInt64)
    (hlen : (logOf fs.dir base).length < 2 ^ 32) :
    ∃ p' fs', p.recoverActive ((p.newSegment base).openedMarked fs.dir)
        (fs.execAll (p.newSegment base).openOps) = (.OK, p', fs') ∧
      RoundSpec p p' fs.dir fs'.dir base true := by
  obtain ⟨hrecover, -, -, hfiles⟩ := scan_opened p fs base hlen
  obtain ⟨hbase, -, -, -, -⟩ := (p.newSegment base).openedMarked_spec fs.dir
  set seg := (p.newSegment base).openedMarked fs.dir
  refine ⟨{ p with
      nextOffset := (scanEnd seg (logOf fs.dir base)).nextOffset
      segments := p.segments ++ [seg.scanned (logOf fs.dir base)] },
    (seg.adoptScan (scanEnd seg (logOf fs.dir base))
      (fs.execAll (p.newSegment base).openOps)).2, ?_, rfl, ?_, ?_, ?_, rfl, rfl⟩
  · unfold Partition.recoverActive
    rw [hrecover]
    rfl
  · exact filesRecovered_scan (by simp [branchOf]) (by simp [branchOf]) hfiles
  · exact (Bool.or_false _).symm
  · have hcounts := @scanEnd_counts seg (logOf fs.dir base) hlen
    rw [if_pos rfl]
    show (scanEnd seg _).nextOffset = _
    rw [hcounts.next, hbase]
    rfl

theorem verifyQuick_congr {seg : LogSegment} {fs fs' : FileSystem}
    (h : content fs seg.logFile = content fs' seg.logFile) :
    seg.verifyQuick fs = seg.verifyQuick fs' := by
  have hread : ∀ pos, seg.readRecordAt fs pos = seg.readRecordAt fs' pos := by
    intro pos
    unfold LogSegment.readRecordAt
    rw [h]
  unfold LogSegment.verifyQuick
  rw [hread, hread]

/-- The marker file after `write_sealed_marker` on a segment that had none. -/
theorem lookup_markerOps_self {seg : LogSegment} {d : Disk} (h : d.lookup seg.sealedFile = none) :
    (applyAll d seg.markerOps).lookup seg.sealedFile = some seg.marker.bytes := by
  rw [LogSegment.markerOps, applyAll_cons, applyAll_cons, applyAll_cons, applyAll_nil, apply_flush,
    lookup_append, if_pos rfl, lookup_create, if_pos rfl, h, Option.getD_none, Option.map_some,
    List.nil_append]

theorem hasSealedMarker_opened (p : Partition) (fs : FileSystem) (base : UInt64) :
    ((p.newSegment base).openedMarked fs.dir).hasSealedMarker
      (fs.execAll (p.newSegment base).openOps) = (fs.dir.lookup ⟨base, .sealed⟩).isSome := by
  obtain ⟨-, -, hsealedFile⟩ := openedMarked_files p fs.dir base
  rw [LogSegment.hasSealedMarker, hsealedFile]
  exact congrArg Option.isSome (lookup_opened_sealed p fs.dir base)

def Partition.SealedRound (p : Partition) (fs : FileSystem) (base : UInt64) : Prop :=
  ∃ p' fs', p.recoverSealed ((p.newSegment base).openedMarked fs.dir)
      (fs.execAll (p.newSegment base).openOps) = (.OK, p', fs') ∧
    RoundSpec p p' fs.dir fs'.dir base false

theorem recoverSealed_unmarked (hlen : (logOf fs.dir base).length < 2 ^ 32)
    (hfile : fs.dir.lookup ⟨base, .sealed⟩ = none) : p.SealedRound fs base := by
  unfold Partition.SealedRound
  obtain ⟨hrecover, -, -, hfiles⟩ := scan_opened p fs base hlen
  obtain ⟨-, -, hsealedFile⟩ := openedMarked_files p fs.dir base
  have hmarked := hasSealedMarker_opened p fs base
  have hbranch : branchOf p fs.dir base false = .unmarked := by simp [branchOf, hfile]
  set seg := (p.newSegment base).openedMarked fs.dir
  set seg' : LogSegment := { seg.scanned (logOf fs.dir base) with isSealed := true }
  set fs2 := (seg.adoptScan (scanEnd seg (logOf fs.dir base))
    (fs.execAll (p.newSegment base).openOps)).2
  have hrec : recoveredSegment p fs.dir base false = seg' := by
    unfold recoveredSegment
    rw [hbranch]
  have hsealedFile' : seg'.sealedFile = ⟨base, .sealed⟩ := hsealedFile
  refine ⟨{ p with segments := p.segments ++ [seg'] },
    fs2.execAll (seg'.flushOps ++ (seg'.markerOps ++ (seg'.flushOps ++ [.flushDir]))), ?_,
    ⟨by rw [hrec], ?_, ?_, rfl, rfl, rfl⟩⟩
  · unfold Partition.recoverSealed
    simp only [hmarked, hfile, Option.isSome_none, Bool.not_false, if_true, hrecover,
      Status.if_not_ok, LogSegment.sealSegment, LogSegment.writeSealedMarker_eq,
      LogSegment.flush_eq, Fs.exec_eq_execAll, Fs.execAll_execAll, List.append_assoc]
    rfl
  · have hend : ∀ f, (fs2.execAll (seg'.flushOps ++ (seg'.markerOps ++
        (seg'.flushOps ++ [.flushDir])))).dir.lookup f =
        (applyAll fs2.dir seg'.markerOps).lookup f := fun f => rfl
    have hkeep : ∀ f, f ≠ ⟨base, .sealed⟩ →
        (applyAll fs2.dir seg'.markerOps).lookup f = fs2.dir.lookup f :=
      fun f hf => seg'.lookup_markerOps fs2.dir (hsealedFile' ▸ hf)
    refine filesRecovered_of ?_ ?_ ?_ ?_
    · rw [hend, hkeep _ (by simp), hfiles, if_pos rfl, recoveredFile, hbranch]
      rfl
    · rw [hend, hkeep _ (by simp), hfiles, if_neg (by simp), if_pos rfl, recoveredFile, hbranch,
        hrec]
      rfl
    · have hnone : fs2.dir.lookup seg'.sealedFile = none := by
        rw [hsealedFile', hfiles, if_neg (by simp), if_neg (by simp), hfile]
      have hself := lookup_markerOps_self hnone
      rw [hsealedFile'] at hself
      rw [hend, hself, recoveredFile, hbranch, hrec]
      rfl
    · intro f hf
      rw [hend, hkeep _ (ne_of_base_ne hf _), hfiles, if_neg (ne_of_base_ne hf _),
        if_neg (ne_of_base_ne hf _)]
  · unfold reportsDamage
    rw [hbranch]
    exact (Bool.or_false _).symm

theorem recoverSealed_full (hlen : (logOf fs.dir base).length < 2 ^ 32)
    (hfile : (fs.dir.lookup ⟨base, .sealed⟩).isSome = true) (hfull : p.config.fullScan = true) :
    p.SealedRound fs base := by
  unfold Partition.SealedRound
  obtain ⟨-, hverify, hcorrupt, hfiles⟩ := scan_opened p fs base hlen
  have hmarked := hasSealedMarker_opened p fs base
  have hbranch : branchOf p fs.dir base false = .full := by
    simp [branchOf, Option.isSome_iff_ne_none.mp hfile, hfull]
  set seg := (p.newSegment base).openedMarked fs.dir
  set fs1 := fs.execAll (p.newSegment base).openOps
  have hrec : recoveredSegment p fs.dir base false =
      { seg.scanned (logOf fs.dir base) with isSealed := true } := by
    unfold recoveredSegment
    rw [hbranch]
  refine ⟨{ p with
      segments := p.segments ++ [{ seg.scanned (logOf fs.dir base) with isSealed := true }]
      isDegraded := p.isDegraded || decide (0 < (seg.fullScan fs1).corruptionCount) },
    (seg.adoptScan (scanEnd seg (logOf fs.dir base)) fs1).2.execAll
      (seg.scanned (logOf fs.dir base)).flushOps, ?_, ⟨by rw [hrec], ?_, ?_, rfl, rfl, rfl⟩⟩
  · unfold Partition.recoverSealed
    simp only [hmarked, hfile, Bool.not_true, Bool.false_eq_true, if_false, hfull, if_true,
      hverify, LogSegment.sealSegment, LogSegment.flush_eq]
  · exact filesRecovered_scan (by rw [hbranch]; simp) (by rw [hbranch]; simp) hfiles
  · unfold reportsDamage
    rw [hbranch]
    show (p.isDegraded || _) = (p.isDegraded || _)
    rw [decide_eq_decide.mpr hcorrupt]

/-- The spot check changes no file; `open` has created those that were missing. -/
theorem recoverSealed_quick (hfile : (fs.dir.lookup ⟨base, .sealed⟩).isSome = true)
    (hfull : p.config.fullScan = false) : p.SealedRound fs base := by
  unfold Partition.SealedRound
  obtain ⟨hlogFile, -, -⟩ := openedMarked_files p fs.dir base
  have hmarked := hasSealedMarker_opened p fs base
  have hbranch : branchOf p fs.dir base false = .quick := by
    simp [branchOf, Option.isSome_iff_ne_none.mp hfile, hfull]
  set seg := (p.newSegment base).openedMarked fs.dir
  set fs1 := fs.execAll (p.newSegment base).openOps
  have hrec : recoveredSegment p fs.dir base false = { seg with isSealed := true } := by
    unfold recoveredSegment
    rw [hbranch]
  have hlog1 : fs1.dir.lookup ⟨base, .log⟩ = some (logOf fs.dir base) :=
    lookup_opened_log p fs.dir base
  have hquick : seg.verifyQuick fs1 = seg.verifyQuick (Fs.start fs.dir) := by
    refine verifyQuick_congr ?_
    rw [content, content, hlogFile, hlog1]
    rfl
  refine ⟨{ p with
      segments := p.segments ++ [{ seg with isSealed := true }]
      isDegraded := p.isDegraded || !seg.verifyQuick fs1 },
    fs1.execAll seg.flushOps, ?_, ⟨by rw [hrec], ?_, ?_, rfl, rfl, rfl⟩⟩
  · unfold Partition.recoverSealed
    simp only [hmarked, hfile, Bool.not_true, Bool.false_eq_true, if_false, hfull,
      LogSegment.sealSegment, LogSegment.flush_eq]
  · have hend : ∀ f, (fs1.execAll seg.flushOps).dir.lookup f = fs1.dir.lookup f := fun f => rfl
    refine filesRecovered_of ?_ ?_ ?_ ?_
    · rw [hend, hlog1, recoveredFile, hbranch]
      rfl
    · rw [hend, recoveredFile, hbranch]
      exact lookup_opened_index p fs.dir base
    · rw [hend, recoveredFile, hbranch]
      exact lookup_opened_sealed p fs.dir base
    · intro f hf
      rw [hend]
      exact (lookup_opened p fs.dir base f).trans (if_neg (by
        rintro (h | h)
        · exact ne_of_base_ne hf _ h
        · exact ne_of_base_ne hf _ h))
  · unfold reportsDamage
    rw [hbranch, hquick]

theorem recoverSealed_any (p : Partition) (fs : FileSystem) (base : UInt64)
    (hlen : (logOf fs.dir base).length < 2 ^ 32) : p.SealedRound fs base := by
  cases hfile : (fs.dir.lookup ⟨base, .sealed⟩).isSome with
  | false => exact recoverSealed_unmarked hlen (Option.not_isSome_iff_eq_none.mp (by simp [hfile]))
  | true =>
    cases hfull : p.config.fullScan with
    | true => exact recoverSealed_full hlen hfile hfull
    | false => exact recoverSealed_quick hfile hfull

end OneSegment

def isLast (bases : List UInt64) (base : UInt64) : Bool := decide (bases.getLast? = some base)

def recoveredSegments (p : Partition) (d : Disk) (bases : List UInt64) : List LogSegment :=
  bases.map fun base => recoveredSegment p d base (isLast bases base)

def anyDamage (p : Partition) (d : Disk) (bases : List UInt64) : Bool :=
  bases.any fun base => reportsDamage p d base (isLast bases base)

section Congr

variable {p p' : Partition} {d d' : Disk} {base : UInt64}

theorem round_congr (hconfig : p'.config = p.config) (hdir : p'.partitionDir = p.partitionDir)
    (hfiles : ∀ k, d'.lookup ⟨base, k⟩ = d.lookup ⟨base, k⟩) (last : Bool) :
    recoveredSegment p' d' base last = recoveredSegment p d base last ∧
      (∀ k, recoveredFile p' d' base last k = recoveredFile p d base last k) ∧
      reportsDamage p' d' base last = reportsDamage p d base last ∧
      logOf d' base = logOf d base := by
  have hnew : p'.newSegment base = p.newSegment base := by
    unfold Partition.newSegment
    rw [hconfig, hdir]
  have hlog : logOf d' base = logOf d base := by
    unfold logOf
    rw [hfiles]
  have hopened : (p'.newSegment base).openedMarked d' = (p.newSegment base).openedMarked d := by
    have hs : d'.lookup (p.newSegment base).sealedFile = d.lookup (p.newSegment base).sealedFile :=
      hfiles .sealed
    have hl : d'.lookup (p.newSegment base).logFile = d.lookup (p.newSegment base).logFile :=
      hfiles .log
    have hi : d'.lookup (p.newSegment base).indexFile = d.lookup (p.newSegment base).indexFile :=
      hfiles .index
    rw [hnew]
    unfold LogSegment.openedMarked LogSegment.opened
    rw [hs, hl, hi]
  have hbranch : branchOf p' d' base last = branchOf p d base last := by
    unfold branchOf
    rw [hconfig, hfiles]
  have hseg : recoveredSegment p' d' base last = recoveredSegment p d base last := by
    unfold recoveredSegment
    rw [hopened, hbranch, hlog]
  refine ⟨hseg, ?_, ?_, hlog⟩
  · intro k
    unfold recoveredFile
    rw [hbranch, hlog, hseg, hfiles, hfiles]
  · have hquick : ((p.newSegment base).openedMarked d).verifyQuick (Fs.start d') =
        ((p.newSegment base).openedMarked d).verifyQuick (Fs.start d) := by
      refine verifyQuick_congr ?_
      have hfile : ((p.newSegment base).openedMarked d).logFile = ⟨base, .log⟩ := by
        rw [LogSegment.logFile, ((p.newSegment base).openedMarked_spec d).1]
        rfl
      rw [content, content, hfile]
      show Option.getD (d'.lookup _) [] = Option.getD (d.lookup _) []
      rw [hfiles]
    unfold reportsDamage
    rw [hbranch, hlog, hopened, hquick]

end Congr

/-- The outcome of the loop over `bases`. -/
structure LoopSpec (p p' : Partition) (d d' : Disk) (bases : List UInt64) : Prop where
  segments : p'.segments = p.segments ++ recoveredSegments p d bases
  inside : ∀ base ∈ bases, ∀ k, d'.lookup ⟨base, k⟩ = recoveredFile p d base (isLast bases base) k
  outside : ∀ f : FileName, f.base ∉ bases → d'.lookup f = d.lookup f
  degraded : p'.isDegraded = (p.isDegraded || anyDamage p d bases)
  next : p'.nextOffset = (bases.getLast?.map fun base =>
    nextOffsetOf base (recordsOf (blocksOf (logOf d base)))).getD p.nextOffset
  config : p'.config = p.config
  dir : p'.partitionDir = p.partitionDir

theorem isLast_singleton (base : UInt64) : isLast [base] base = true := by simp [isLast]

theorem isLast_head (hne : rest ≠ []) (hnot : base ∉ rest) :
    isLast (base :: rest) base = false := by
  rw [isLast, decide_eq_false_iff_not, List.getLast?_cons_of_ne_nil hne]
  intro h
  exact hnot (List.mem_of_getLast? h)

theorem isLast_tail {x : UInt64} (hx : x ∈ rest) : isLast (base :: rest) x = isLast rest x := by
  rw [isLast, isLast, List.getLast?_cons_of_ne_nil (List.ne_nil_of_mem hx)]

theorem LoopSpec.cons {p p1 p' : Partition} {d d1 d' : Disk} {base : UInt64} {rest : List UInt64}
    (hne : rest ≠ []) (hnot : base ∉ rest) (h1 : RoundSpec p p1 d d1 base false)
    (h : LoopSpec p1 p' d1 d' rest) : LoopSpec p p' d d' (base :: rest) := by
  have hlast := isLast_head hne hnot
  have hkeep : ∀ x ∈ rest, ∀ k, d1.lookup ⟨x, k⟩ = d.lookup ⟨x, k⟩ := by
    intro x hx k
    have hxb : x ≠ base := by
      rintro rfl
      exact hnot hx
    rw [h1.files, if_neg hxb]
  have hcongr := fun x (hx : x ∈ rest) => round_congr h1.config h1.dir (hkeep x hx) (isLast rest x)
  refine ⟨?_, ?_, ?_, ?_, ?_, h.config.trans h1.config, h.dir.trans h1.dir⟩
  · rw [h.segments, h1.segments, List.append_assoc, recoveredSegments, recoveredSegments,
      List.map_cons, hlast]
    refine congrArg _ (congrArg (List.cons _) (List.map_congr_left ?_))
    intro x hx
    rw [isLast_tail hx]
    exact (hcongr x hx).1
  · intro x hx k
    rcases List.mem_cons.mp hx with rfl | hx
    · rw [h.outside ⟨x, k⟩ hnot, h1.files, if_pos rfl, hlast]
    · rw [h.inside x hx k, isLast_tail hx]
      exact (hcongr x hx).2.1 k
  · intro f hf
    rw [List.mem_cons, not_or] at hf
    rw [h.outside f hf.2, h1.files, if_neg hf.1]
  · rw [h.degraded, h1.degraded, Bool.or_assoc, anyDamage, anyDamage, List.any_cons, hlast]
    refine congrArg _ (congrArg _ ?_)
    rw [Bool.eq_iff_iff, List.any_eq_true, List.any_eq_true]
    refine exists_congr fun x => and_congr_right fun hx => ?_
    rw [isLast_tail hx, (hcongr x hx).2.2.1]
  · rw [h.next, List.getLast?_cons_of_ne_nil hne]
    cases hget : rest.getLast? with
    | none => exact absurd (List.getLast?_eq_none_iff.mp hget) hne
    | some x =>
      have hx := List.mem_of_getLast? hget
      rw [Option.map_some, Option.map_some, (hcongr x hx).2.2.2]
      rfl

theorem LoopSpec.single {p' : Partition} {d' : Disk} (h : RoundSpec p p' d d' base true) :
    LoopSpec p p' d d' [base] := by
  have hlast := isLast_singleton base
  refine ⟨?_, ?_, ?_, ?_, ?_, h.config, h.dir⟩
  · rw [h.segments, recoveredSegments, List.map_singleton, hlast]
  · intro x hx k
    rw [List.mem_singleton.mp hx, h.files, if_pos rfl, hlast]
  · intro f hf
    rw [h.files, if_neg (by simpa using hf)]
  · rw [h.degraded, anyDamage, List.any_cons, List.any_nil, Bool.or_false, hlast]
  · rw [h.next, if_pos rfl]
    rfl

theorem recoverSegments_any (bases : List UInt64) : ∀ (p : Partition) (fs : FileSystem),
    bases.Nodup → (∀ base ∈ bases, (logOf fs.dir base).length < 2 ^ 32) →
    ∃ p' fs', p.recoverSegments bases fs = (.OK, p', fs') ∧ LoopSpec p p' fs.dir fs'.dir bases := by
  induction bases with
  | nil =>
    intro p fs _ _
    exact ⟨p, fs, rfl, by simp [recoveredSegments], by simp, fun _ _ => rfl,
      by simp [anyDamage], rfl, rfl, rfl⟩
  | cons base rest ih =>
    intro p fs hnodup hlen
    obtain ⟨hnot, hnodup⟩ := List.nodup_cons.mp hnodup
    unfold Partition.recoverSegments
    rw [LogSegment.openFiles_marked]
    simp only [Status.if_not_ok]
    by_cases hrest : rest = []
    · subst hrest
      obtain ⟨p', fs', heq, hspec⟩ := recoverActive_any p fs base (hlen base (by simp))
      refine ⟨p', fs', ?_, LoopSpec.single hspec⟩
      simp only [List.isEmpty_nil, if_true, heq, Status.if_not_ok]
      rfl
    · obtain ⟨p1, fs1, heq1, hspec1⟩ := recoverSealed_any p fs base (hlen base (by simp))
      have hlen1 : ∀ x ∈ rest, (logOf fs1.dir x).length < 2 ^ 32 := by
        intro x hx
        have hxb : x ≠ base := by
          rintro rfl
          exact hnot hx
        have hlog : logOf fs1.dir x = logOf fs.dir x := by
          unfold logOf
          rw [hspec1.files, if_neg hxb]
        rw [hlog]
        exact hlen x (List.mem_cons_of_mem _ hx)
      obtain ⟨p', fs', heq, hspec⟩ := ih p1 fs1 hnodup hlen1
      refine ⟨p', fs', ?_, LoopSpec.cons hrest hnot hspec1 hspec⟩
      have hempty : rest.isEmpty = false := by simpa using hrest
      simp only [hempty, Bool.false_eq_true, if_false, heq1, Status.ok_OK, Bool.not_true, heq]

/-! ## `open_and_recover` -/

/-- The base offsets the loop goes over: an empty directory gets a first segment. -/
def basesOf (d : Disk) : List UInt64 :=
  if (Partition.listBaseOffsets d).isEmpty then [0] else Partition.listBaseOffsets d

theorem basesOf_ne_nil (d : Disk) : basesOf d ≠ [] := by
  unfold basesOf
  split
  · simp
  · rename_i h
    simpa using h

theorem basesOf_sorted (d : Disk) : (basesOf d).Pairwise (· < ·) := by
  unfold basesOf
  split
  · exact List.pairwise_singleton _ _
  · exact listBaseOffsets_sorted d

/-- The next offset the loop found, but not below the active segment. -/
def recoveredNext (d : Disk) : UInt64 :=
  let active := (basesOf d).getLast (basesOf_ne_nil d)
  let next := nextOffsetOf active (recordsOf (blocksOf (logOf d active)))
  if next < active then active else next

/-- **`open_and_recover` on any directory.** -/
structure RecoveredAny (p p' : Partition) (d d' : Disk) : Prop where
  segments : p'.segments = recoveredSegments p d (basesOf d)
  inside : ∀ base ∈ basesOf d, ∀ k,
    d'.lookup ⟨base, k⟩ = recoveredFile p d base (isLast (basesOf d) base) k
  outside : ∀ f : FileName, f.base ∉ basesOf d → d'.lookup f = d.lookup f
  degraded : p'.isDegraded = (p.isDegraded || anyDamage p d (basesOf d))
  next : p'.nextOffset = recoveredNext d
  config : p'.config = p.config

theorem getLast?_recoveredSegments (p : Partition) (d : Disk) {bases : List UInt64}
    (hne : bases ≠ []) : ∃ seg, (recoveredSegments p d bases).getLast? = some seg ∧
      seg.baseOffset = bases.getLast hne := by
  refine ⟨recoveredSegment p d (bases.getLast hne) (isLast bases (bases.getLast hne)), ?_, ?_⟩
  · rw [recoveredSegments, List.getLast?_map, List.getLast?_eq_some_getLast hne, Option.map_some]
  · exact recoveredSegment_baseOffset p d _ _

theorem openAndRecover_any (p : Partition) (fs : FileSystem)
    (hlen : ∀ base, (logOf fs.dir base).length < 2 ^ 32) :
    ∃ p' fs', p.openAndRecover fs = (.OK, p', fs') ∧ RecoveredAny p p' fs.dir fs'.dir := by
  have hnodup : (basesOf fs.dir).Nodup := (basesOf_sorted fs.dir).imp UInt64.ne_of_lt
  have hne := basesOf_ne_nil fs.dir
  obtain ⟨p1, fs1, heq, hspec⟩ := recoverSegments_any (basesOf fs.dir) { p with segments := [] } fs
    hnodup (fun base _ => hlen base)
  have hsegs : p1.segments = recoveredSegments p fs.dir (basesOf fs.dir) := hspec.segments
  obtain ⟨active, hactive, hbase⟩ := getLast?_recoveredSegments p fs.dir hne
  have hnext := hspec.next
  rw [List.getLast?_eq_some_getLast hne, Option.map_some, Option.getD_some] at hnext
  refine ⟨if p1.nextOffset < active.baseOffset then
    { p1 with nextOffset := active.baseOffset } else p1, fs1, ?_, ?_⟩
  · have hbases : (if (Partition.listBaseOffsets fs.dir).isEmpty then [0] else
        Partition.listBaseOffsets fs.dir) = basesOf fs.dir := rfl
    unfold Partition.openAndRecover
    dsimp only
    rw [hbases, heq]
    simp only [Status.if_not_ok, hsegs, hactive]
  · have hrec : RecoveredAny p { p1 with nextOffset := recoveredNext fs.dir } fs.dir fs1.dir :=
      ⟨hsegs, hspec.inside, hspec.outside, hspec.degraded, rfl, hspec.config⟩
    have hnextEq : recoveredNext fs.dir =
        if p1.nextOffset < active.baseOffset then active.baseOffset else p1.nextOffset := by
      unfold recoveredNext
      dsimp only
      rw [hbase, hnext]
    split
    · rename_i hlt
      rw [if_pos hlt] at hnextEq
      rw [hnextEq] at hrec
      exact hrec
    · rename_i hlt
      rw [if_neg hlt] at hnextEq
      rw [hnextEq] at hrec
      exact hrec

/-! ## The second start -/

section Again

variable {p p' : Partition} {d d' : Disk} {base : UInt64} {last : Bool}

theorem RecoveredAny.basesOf_eq (h : RecoveredAny p p' d d') : basesOf d' = basesOf d := by
  have hlisted : Partition.listBaseOffsets d' = basesOf d := by
    refine List.Pairwise.eq_of_mem_iff (listBaseOffsets_sorted d') (basesOf_sorted d) fun x => ?_
    rw [mem_listBaseOffsets]
    constructor
    · intro hsome
      by_contra hnot
      rw [h.outside _ hnot, ← mem_listBaseOffsets] at hsome
      rw [basesOf, if_neg (by simp [List.ne_nil_of_mem hsome])] at hnot
      exact hnot hsome
    · intro hx
      rw [h.inside x hx]
      rfl
  rw [basesOf, hlisted, if_neg (by simp [basesOf_ne_nil])]

theorem index_recoveredSegment_eq (h : branchOf p d base last ≠ .quick) :
    (recoveredSegment p d base last).index =
      (scanEnd (p.newSegment base) (logOf d base)).index := by
  obtain ⟨hbase, -, hinterval, -, -⟩ := (p.newSegment base).openedMarked_spec d
  exact (index_recoveredSegment h).trans
    (congrArg ScanState.index (scanEnd_congr hbase hinterval (logOf d base)))

/-- **One segment.** Its files are what recovery would make of them. -/
theorem round_settled (h : ∀ k, d'.lookup ⟨base, k⟩ = recoveredFile p d base last k) :
    (∀ k, recoveredFile p d' base last k = d'.lookup ⟨base, k⟩) ∧
      (p.config.fullScan = true → reportsDamage p d' base last = false) := by
  have hbranch : branchOf p d' base last =
      if last then .active else if p.config.fullScan then .full else .quick := by
    unfold branchOf
    rw [h .sealed]
    unfold recoveredFile branchOf
    cases last with
    | true => rfl
    | false => cases hsealed : d.lookup ⟨base, .sealed⟩ <;> cases p.config.fullScan <;> simp
  by_cases hquick : branchOf p d' base last = .quick
  · refine ⟨fun k => ?_, fun hfull => ?_⟩
    · unfold recoveredFile logOf
      rw [hquick]
      cases k with
      | log => rw [h .log]; rfl
      | index => rw [h .index]; rfl
      | «sealed» => rfl
    · rw [hquick, hfull] at hbranch
      cases last <;> cases hbranch
  have hquick' : branchOf p d base last ≠ .quick := by
    intro hq
    obtain ⟨rfl, hfull, -⟩ := branchOf_quick hq
    rw [hbranch, hfull] at hquick
    exact hquick rfl
  have hlog : logOf d' base = keptOf (logOf d base) := by
    rw [logOf, h .log, recoveredFile, if_neg hquick']
    rfl
  refine ⟨fun k => ?_, fun _ => ?_⟩
  · cases k with
    | log =>
      rw [h .log, recoveredFile, recoveredFile, if_neg hquick, if_neg hquick', hlog, keptOf_keptOf]
    | index =>
      rw [h .index, recoveredFile, recoveredFile, if_neg hquick, if_neg hquick',
        index_recoveredSegment_eq hquick, index_recoveredSegment_eq hquick', hlog, scanEnd_keptOf]
    | «sealed» =>
      rw [recoveredFile, hbranch]
      cases last <;> cases p.config.fullScan <;> rfl
  · unfold reportsDamage
    rw [hlog, cutOf_eq_nil_iff.mpr (keptOf_keptOf _)]
    split
    · rfl
    · rfl
    · rfl
    · contradiction

/-- **The second start** finds everything as the first has left it: no file changes, the next
offset is the same, and a full scan, which has cut off all damage, reports none. -/
theorem second_start_changes_nothing (p : Partition) (fs : FileSystem)
    (hlen : ∀ base, (logOf fs.dir base).length < 2 ^ 32) :
    ∃ p₁ fs₁ p₂ fs₂, p.openAndRecover fs = (.OK, p₁, fs₁) ∧
      p.openAndRecover (Fs.start fs₁.dir) = (.OK, p₂, fs₂) ∧
      (∀ f, fs₂.dir.lookup f = fs₁.dir.lookup f) ∧ p₂.nextOffset = p₁.nextOffset ∧
      (p.config.fullScan = true → p₂.isDegraded = p.isDegraded) := by
  obtain ⟨p₁, fs₁, heq₁, h₁⟩ := openAndRecover_any p fs hlen
  have hlen₁ : ∀ base, (logOf fs₁.dir base).length < 2 ^ 32 := by
    intro base
    refine Nat.lt_of_le_of_lt ?_ (hlen base)
    by_cases hbase : base ∈ basesOf fs.dir
    · rw [logOf, h₁.inside base hbase, recoveredFile, Option.getD_some]
      split
      · exact le_rfl
      · exact length_keptOf_le _
    · rw [logOf, h₁.outside ⟨base, .log⟩ hbase]
      exact le_rfl
  obtain ⟨p₂, fs₂, heq₂, h₂⟩ := openAndRecover_any p (Fs.start fs₁.dir) hlen₁
  have hbases : basesOf (Fs.start fs₁.dir).dir = basesOf fs.dir := h₁.basesOf_eq
  have hrounds := fun base hbase => round_settled (h₁.inside base hbase)
  refine ⟨p₁, fs₁, p₂, fs₂, heq₁, heq₂, ?_, ?_, ?_⟩
  · rintro ⟨base, k⟩
    by_cases hbase : base ∈ basesOf fs.dir
    · rw [h₂.inside base (hbases ▸ hbase), hbases]
      exact (hrounds base hbase).1 k
    · exact h₂.outside ⟨base, k⟩ (hbases ▸ hbase)
  · have hne := basesOf_ne_nil fs.dir
    set active := (basesOf fs.dir).getLast hne with hactive
    have hlog : blocksOf (logOf fs₁.dir active) = blocksOf (logOf fs.dir active) := by
      rw [logOf, h₁.inside active (List.getLast_mem _), isLast, List.getLast?_eq_some_getLast hne,
        decide_eq_true rfl]
      exact blocksOf_keptOf _
    rw [h₂.next, h₁.next]
    unfold recoveredNext
    simp only [hbases, ← hactive]
    rw [← hlog]
    rfl
  · intro hfull
    rw [h₂.degraded, hbases, anyDamage, List.any_eq_false.mpr, Bool.or_false]
    intro base hbase hdamage
    exact Bool.noConfusion (hdamage.symm.trans ((hrounds base hbase).2 hfull))

/-- The second record of the closed segment is damaged, the log of the active one ends in
a torn record, and both index files are stale. -/
def damagedDir : Disk :=
  [((⟨0, .log⟩ : FileName), RecordCodec.encode ⟨0, 7, [1], [2]⟩ ++
      (RecordCodec.encode ⟨1, 7, [1], [3]⟩).set 29 4),
    (⟨0, .index⟩, [9, 9, 9]), (⟨0, .sealed⟩, [5]),
    (⟨2, .log⟩, RecordCodec.encode ⟨2, 7, [], [9]⟩ ++ [0, 0, 0]),
    (⟨2, .index⟩, [0, 0, 0, 0, 0, 0, 0, 44])].foldl (fun d file => d.insert file.1 file.2) ∅

def fullScanOf (d : Disk) : Status × Partition × FileSystem :=
  (Partition.new 0 [] { startupScan := ascii "full" }).openAndRecover (Fs.start d)

theorem second_start_changes_nothing_damaged : ∃ p₁ fs₁ p₂ fs₂,
    fullScanOf damagedDir = (.OK, p₁, fs₁) ∧ fullScanOf fs₁.dir = (.OK, p₂, fs₂) ∧
    (∀ f, fs₂.dir.lookup f = fs₁.dir.lookup f) ∧
    (p₁.isDegraded, p₂.isDegraded, p₂.nextOffset) = (true, false, 3) ∧
    fs₁.dir.lookup ⟨0, .log⟩ = some (RecordCodec.encode ⟨0, 7, [1], [2]⟩) ∧
    fs₁.dir.lookup ⟨2, .log⟩ = some (RecordCodec.encode ⟨2, 7, [], [9]⟩) := by
  have hshort : ∀ file ∈ damagedDir.entries, file.2.length < 2 ^ 32 := by decide +kernel
  obtain ⟨p₁, fs₁, p₂, fs₂, h₁, h₂, hfiles, hnext, hdegraded⟩ := second_start_changes_nothing
    (Partition.new 0 [] { startupScan := ascii "full" }) (Fs.start damagedDir) (by
      intro base
      show ((damagedDir.lookup ⟨base, .log⟩).getD []).length < 2 ^ 32
      cases hfile : damagedDir.lookup ⟨base, .log⟩ with
      | none => decide
      | some file => exact hshort ⟨_, file⟩ (AList.mem_lookup_iff.mp hfile))
  have hfirst : ((fullScanOf damagedDir).2.1.isDegraded, (fullScanOf damagedDir).2.1.nextOffset,
      (fullScanOf damagedDir).2.2.dir.lookup ⟨0, .log⟩,
      (fullScanOf damagedDir).2.2.dir.lookup ⟨2, .log⟩) =
        (true, 3, some (RecordCodec.encode ⟨0, 7, [1], [2]⟩),
          some (RecordCodec.encode ⟨2, 7, [], [9]⟩)) := by decide +kernel
  rw [show fullScanOf damagedDir = _ from h₁] at hfirst
  simp only [Prod.mk.injEq] at hfirst
  refine ⟨p₁, fs₁, p₂, fs₂, h₁, h₂, hfiles, ?_, hfirst.2.2⟩
  rw [hfirst.1, hdegraded (by decide), hnext, hfirst.2.1]
  rfl

end Again

end StreamForge
