import StreamForge.Storage.Counters

/-!
# Holes that recovery reports

A partition that was opened with a full scan and is not degraded should hold every
offset from the earliest to the next one. Recovery cuts what it cannot read from the
end of every log, but sets the flag only for segments with a `.sealed` marker, and it
never compares the offsets of records with each other or with the names of the files.
`holesReported_iff` says for which directories it keeps the promise all the same.
-/

namespace StreamForge

open FileTrace FileHandle

/-! ## The directory before -/

def firstBase (d : Disk) : UInt64 := (basesOf d).head (basesOf_ne_nil d)
def activeBase (d : Disk) : UInt64 := (basesOf d).getLast (basesOf_ne_nil d)

def offsetsIn (d : Disk) : List ℕ :=
  (basesOf d).flatMap fun base => (recordsAt d base).map fun r => r.offset.toNat

/-- The valid parts of the logs have no hole between, before or behind them. -/
structure Contiguous (d : Disk) : Prop where
  offsets : offsetsIn d = List.range' (firstBase d).toNat (offsetsIn d).length
  room : (firstBase d).toNat + (offsetsIn d).length < 2 ^ 64
  reached : (activeBase d).toNat ≤ (firstBase d).toNat + (offsetsIn d).length
  empty : recordsAt d (activeBase d) = [] →
    (activeBase d).toNat = (firstBase d).toNat + (offsetsIn d).length

/-- A segment with a marker, not the last, has bytes behind its longest valid part. -/
def DamageMarked (d : Disk) : Prop :=
  ∃ base ∈ basesOf d, base ≠ activeBase d ∧ d.lookup ⟨base, .sealed⟩ ≠ none ∧
    keptOf (logOf d base) ≠ logOf d base

theorem isLast_iff {d : Disk} {base : UInt64} :
    isLast (basesOf d) base = true ↔ base = activeBase d := by
  rw [isLast, decide_eq_true_iff, List.getLast?_eq_some_getLast (basesOf_ne_nil d),
    Option.some.injEq]
  exact eq_comm

theorem head?_basesOf (d : Disk) : (basesOf d).head? = some (firstBase d) :=
  List.head?_eq_some_head (basesOf_ne_nil d)

theorem firstBase_le_activeBase (d : Disk) : (firstBase d).toNat ≤ (activeBase d).toNat := by
  have hsorted := basesOf_sorted d
  have hmem : activeBase d ∈ basesOf d := List.getLast_mem _
  obtain ⟨rest, hbases⟩ := List.head?_eq_some_iff.mp (head?_basesOf d)
  rw [hbases] at hsorted hmem
  rcases List.mem_cons.mp hmem with hx | hx
  · rw [hx]
  · exact Nat.le_of_lt (UInt64.lt_iff_toNat_lt.mp ((List.pairwise_cons.mp hsorted).1 _ hx))

/-! ## The partition after -/

section After

variable {p p' : Partition} {d d' : Disk}

theorem RecoveredAny.recordsAt (h : RecoveredAny p p' d d') (hfull : p.config.fullScan = true)
    {base : UInt64} (hbase : base ∈ basesOf d) : recordsAt d' base = recordsAt d base := by
  have hnotQuick : branchOf p d base (isLast (basesOf d) base) ≠ .quick := by
    intro hquick
    obtain ⟨-, hnot, -⟩ := branchOf_quick hquick
    rw [hfull] at hnot
    cases hnot
  have hlog : logOf d' base = keptOf (logOf d base) := by
    rw [logOf, h.inside base hbase .log, recoveredFile, if_neg hnotQuick, Option.getD_some]
  rw [StreamForge.recordsAt, StreamForge.recordsAt, hlog, blocksOf_keptOf]

theorem RecoveredAny.bases (h : RecoveredAny p p' d d') :
    p'.segments.map LogSegment.baseOffset = basesOf d := by
  rw [h.segments, recoveredSegments, List.map_map]
  refine (List.map_congr_left fun base _ => ?_).trans (List.map_id _)
  exact recoveredSegment_baseOffset p d base _

theorem RecoveredAny.offsets (h : RecoveredAny p p' d d') (hfull : p.config.fullScan = true) :
    (p'.recordsHeld d').map (fun r => r.offset.toNat) = offsetsIn d := by
  calc (p'.recordsHeld d').map (fun r => r.offset.toNat)
      = ((p'.segments.map LogSegment.baseOffset).flatMap (StreamForge.recordsAt d')).map
          fun r => r.offset.toNat := by
        rw [List.flatMap_map]
        rfl
    _ = (basesOf d).flatMap fun base =>
          (StreamForge.recordsAt d' base).map fun r => r.offset.toNat := by
        rw [h.bases, List.map_flatMap]
    _ = offsetsIn d := List.flatMap_congr fun base hbase => by rw [h.recordsAt hfull hbase]

theorem RecoveredAny.earliest (h : RecoveredAny p p' d d') : p'.earliestOffset = firstBase d := by
  have hhead := head?_basesOf d
  rw [← h.bases] at hhead
  unfold Partition.earliestOffset
  cases hsegs : p'.segments with
  | nil =>
    rw [hsegs] at hhead
    cases hhead
  | cons seg segs =>
    rw [hsegs] at hhead
    exact Option.some.inj hhead

theorem RecoveredAny.isDegraded_iff (h : RecoveredAny p p' d d') (hfull : p.config.fullScan = true)
    (hp : p.isDegraded = false) : p'.isDegraded = true ↔ DamageMarked d := by
  rw [h.degraded, hp, Bool.false_or, anyDamage, List.any_eq_true]
  refine exists_congr fun base => and_congr_right fun _ => ?_
  unfold reportsDamage branchOf
  rw [hfull]
  by_cases hlast : isLast (basesOf d) base = true
  · rw [if_pos hlast]
    constructor
    · intro hreport
      cases hreport
    · rintro ⟨hne, -, -⟩
      exact absurd (isLast_iff.mp hlast) hne
  · have hne : base ≠ activeBase d := fun heq => hlast (isLast_iff.mpr heq)
    rw [if_neg hlast]
    cases hfile : d.lookup ⟨base, .sealed⟩ with
    | none =>
      simp only [Option.isNone_none, if_true]
      constructor
      · intro hreport
        cases hreport
      · rintro ⟨-, hmarked, -⟩
        exact absurd rfl hmarked
    | some file =>
      simp only [Option.isNone_some, Bool.false_eq_true, if_false, if_true, decide_eq_true_eq,
        ne_eq, cutOf_eq_nil_iff]
      constructor
      · intro hcut
        exact ⟨hne, by simp, hcut⟩
      · rintro ⟨-, -, hcut⟩
        exact hcut

theorem activeBase_le_recoveredNext (d : Disk) :
    (activeBase d).toNat ≤ (recoveredNext d).toNat := by
  unfold recoveredNext
  dsimp only
  split
  · exact Nat.le_refl _
  · rename_i hge
    exact UInt64.le_iff_toNat_le.mp (UInt64.not_lt.mp hge)

theorem recoveredNext_of_empty {d : Disk} (h : recordsAt d (activeBase d) = []) :
    recoveredNext d = activeBase d := by
  have hnext : nextOffsetOf (activeBase d) (StreamForge.recordsAt d (activeBase d)) =
      activeBase d := by
    rw [h]
    rfl
  show (if nextOffsetOf (activeBase d) (StreamForge.recordsAt d (activeBase d)) < activeBase d then
    activeBase d else nextOffsetOf (activeBase d) (StreamForge.recordsAt d (activeBase d))) = _
  rw [hnext, if_neg (UInt64.lt_irrefl _)]

theorem offsetsIn_split (d : Disk) : ∃ before, offsetsIn d =
    before ++ (recordsAt d (activeBase d)).map fun r => r.offset.toNat := by
  refine ⟨(basesOf d).dropLast.flatMap fun base =>
    (recordsAt d base).map fun r => r.offset.toNat, ?_⟩
  unfold offsetsIn
  conv_lhs => rw [← List.dropLast_append_getLast (basesOf_ne_nil d)]
  rw [List.flatMap_append, List.flatMap_singleton]
  rfl

/-- **There is no hole after recovery exactly when there was none before.** -/
theorem RecoveredAny.noHoles_iff (h : RecoveredAny p p' d d') (hfull : p.config.fullScan = true) :
    NoHoles p' d' ↔ Contiguous d := by
  have hle := firstBase_le_activeBase d
  have hactive := activeBase_le_recoveredNext d
  rw [NoHoles, h.offsets hfull, h.earliest, h.next]
  constructor
  · intro hoffsets
    have hlength : (offsetsIn d).length = (recoveredNext d).toNat - (firstBase d).toNat := by
      rw [hoffsets, List.length_range']
    have hlt := (recoveredNext d).toNat_lt
    refine ⟨?_, by omega, by omega, ?_⟩
    · rw [hlength]
      exact hoffsets
    · intro hempty
      have hnext := recoveredNext_of_empty hempty
      rw [hnext] at hlength hactive
      omega
  · intro hc
    have hnext : (recoveredNext d).toNat = (firstBase d).toNat + (offsetsIn d).length := by
      by_cases hempty : StreamForge.recordsAt d (activeBase d) = []
      · rw [recoveredNext_of_empty hempty]
        exact hc.empty hempty
      · -- the last record is the last of the range
        obtain ⟨before, hsplit⟩ := offsetsIn_split d
        obtain ⟨last, hlast⟩ := Option.isSome_iff_exists.mp (List.getLast?_isSome.mpr hempty)
        have hends : (offsetsIn d).getLast? = some last.offset.toNat := by
          rw [hsplit, List.getLast?_append, List.getLast?_map, hlast]
          rfl
        have hpos : 0 < (offsetsIn d).length := by
          rw [hsplit, List.length_append, List.length_map]
          have := List.length_pos_iff.mpr hempty
          omega
        rw [hc.offsets, List.getLast?_range', if_neg (by omega), Option.some.injEq] at hends
        have hroom := hc.room
        have hone : (1 : UInt64).toNat = 1 := rfl
        have hafter : (last.offset + 1).toNat = (firstBase d).toNat + (offsetsIn d).length := by
          rw [UInt64.toNat_add, hone]
          omega
        have hreached := hc.reached
        have hnotBelow : ¬last.offset + 1 < activeBase d := by
          rw [UInt64.lt_iff_toNat_lt]
          omega
        have heq : nextOffsetOf (activeBase d) (StreamForge.recordsAt d (activeBase d)) =
            last.offset + 1 := by
          rw [nextOffsetOf, hlast]
          rfl
        show (if nextOffsetOf (activeBase d) (StreamForge.recordsAt d (activeBase d)) <
          activeBase d then activeBase d else
          nextOffsetOf (activeBase d) (StreamForge.recordsAt d (activeBase d))).toNat = _
        rw [heq, if_neg hnotBelow]
        exact hafter
    rw [hnext, Nat.add_sub_cancel_left]
    exact hc.offsets

end After

/-- Opening the directory reads only inside the buffers it allocates, and a hole sets
the flag. -/
structure HolesReported (p : Partition) (d : Disk) : Prop where
  inside : ∀ base ∈ basesOf d, ∀ buf ∈ (p.newSegment base).decodeCalls (Fs.start d),
    ∀ a ∈ RecordCodec.reads buf, a.Inside buf.length
  reported : ∀ p' fs', p.openAndRecover (Fs.start d) = (.OK, p', fs') → p'.isDegraded = false →
    NoHoles p' fs'.dir

/-- **Which holes a full scan reports.** -/
theorem holesReported_iff (partitionId : UInt32) (partitionDir : Bytes) (config : StorageConfig)
    (hfull : config.fullScan = true) (d : Disk)
    (hlen : ∀ base, (logOf d base).length < 2 ^ 32) :
    HolesReported (Partition.new partitionId partitionDir config) d ↔
      (∀ base ∈ basesOf d, NoKeyWraps (logOf d base)) ∧ (DamageMarked d ∨ Contiguous d) := by
  set p := Partition.new partitionId partitionDir config
  obtain ⟨p', fs', heq, hrec⟩ := openAndRecover_any p (Fs.start d) hlen
  have hdegraded := hrec.isDegraded_iff hfull rfl
  have hholes := hrec.noHoles_iff hfull
  have hinside : ∀ base, (∀ buf ∈ (p.newSegment base).decodeCalls (Fs.start d),
      ∀ a ∈ RecordCodec.reads buf, a.Inside buf.length) ↔ NoKeyWraps (logOf d base) :=
    fun base => decodeCalls_inside_iff rfl (hlen base)
  constructor
  · rintro ⟨hin, hreported⟩
    refine ⟨fun base hbase => (hinside base).mp (hin base hbase), ?_⟩
    by_cases hdamage : DamageMarked d
    · exact Or.inl hdamage
    · refine Or.inr (hholes.mp (hreported p' fs' heq ?_))
      rw [← Bool.not_eq_true, hdegraded]
      exact hdamage
  · rintro ⟨hwraps, hcases⟩
    refine ⟨fun base hbase => (hinside base).mpr (hwraps base hbase), ?_⟩
    intro q fs heq' hflag
    rw [heq] at heq'
    cases heq'
    rcases hcases with hdamage | hcontiguous
    · rw [hdegraded.mpr hdamage] at hflag
      cases hflag
    · exact hholes.mpr hcontiguous

def fullConfig : StorageConfig := { startupScan := ascii "full" }

def twoLogs (first : Bytes) : Disk :=
  ((∅ : Disk).insert ⟨0, .log⟩ first).insert ⟨2, .log⟩ (RecordCodec.encode ⟨2, 7, [], [9]⟩)

def wholeLog : Bytes := encodeAll [⟨0, 7, [1], [2]⟩, ⟨1, 7, [], [3]⟩]

theorem logOf_twoLogs (first : Bytes) (base : UInt64) : logOf (twoLogs first) base =
    if base = 2 then RecordCodec.encode ⟨2, 7, [], [9]⟩ else if base = 0 then first else [] := by
  unfold logOf twoLogs
  by_cases h2 : base = 2
  · rw [if_pos h2, h2, AList.lookup_insert]
    rfl
  · rw [if_neg h2, AList.lookup_insert_ne (by simpa using h2)]
    by_cases h0 : base = 0
    · rw [if_pos h0, h0, AList.lookup_insert]
      rfl
    · rw [if_neg h0, AList.lookup_insert_ne (by simpa using h0)]
      rfl

theorem length_logOf_twoLogs {first : Bytes} (h : first.length < 2 ^ 32) (base : UInt64) :
    (logOf (twoLogs first) base).length < 2 ^ 32 := by
  rw [logOf_twoLogs]
  split
  · decide +kernel
  · split
    · exact h
    · decide

theorem holesReported_wholeLog :
    HolesReported (Partition.new 0 [] fullConfig) (twoLogs wholeLog) := by
  refine (holesReported_iff 0 [] fullConfig (by decide) (twoLogs wholeLog)
    (length_logOf_twoLogs (by decide +kernel))).mpr ⟨?_, Or.inr ⟨?_, ?_, ?_, ?_⟩⟩
  · intro base _
    rw [logOf_twoLogs]
    have hfits : ∀ rs : List Record, (∀ r ∈ rs, r.key.length + r.value.length ≤ 2) →
        NoKeyWraps (encodeAll rs) := by
      intro rs hrs
      refine noKeyWraps_encodeAll fun r hr => ?_
      have hle := hrs r hr
      unfold Record.Encodable maxRecordSize
      omega
    split
    · rw [← encodeAll_singleton]
      exact hfits _ (by decide)
    · split
      · exact hfits _ (by decide)
      · exact hfits [] (by decide)
  · decide +kernel
  · decide +kernel
  · decide +kernel
  · decide +kernel

/-- The last byte of record 1 is lost, and with it the record. -/
theorem hole_not_reported :
    ¬HolesReported (Partition.new 0 [] fullConfig) (twoLogs wholeLog.dropLast) := by
  rintro ⟨-, hreported⟩
  obtain ⟨p', fs', heq, hrec⟩ := openAndRecover_any (Partition.new 0 [] fullConfig)
    (Fs.start (twoLogs wholeLog.dropLast)) (length_logOf_twoLogs (by decide +kernel))
  have hunmarked : ¬DamageMarked (twoLogs wholeLog.dropLast) := by
    rintro ⟨base, hbase, -, hmarked, -⟩
    have hnone : ((basesOf (twoLogs wholeLog.dropLast)).all fun base =>
        ((twoLogs wholeLog.dropLast).lookup ⟨base, .sealed⟩).isNone) = true := by decide +kernel
    exact hmarked (Option.isNone_iff_eq_none.mp (List.all_eq_true.mp hnone base hbase))
  have hflag : p'.isDegraded = false := by
    rw [← Bool.not_eq_true, hrec.isDegraded_iff (by decide) rfl]
    exact hunmarked
  have hcontiguous := (hrec.noHoles_iff (by decide)).mp (hreported p' fs' heq hflag)
  exact absurd hcontiguous.offsets (by decide +kernel)

end StreamForge
