import StreamForge.Storage.Counters

/-!
# What a retention pass removes

`scan_and_delete_segments` goes by the counters of the segments, so what it does
is stated with the records they count. Two things are shown for every state a run
without failures reaches: which prefix of the segments a pass gives up
(`retention_removes_prefix`), and when the age limit spares every record that is
young enough (`age_retention_keeps_young_iff`).

Both turn on the arithmetic of the age test. The limit arrives as an unsigned
64-bit number and is compared as a signed one, so from 2^63 on it is negative; and
the age itself is a signed 64-bit difference. The size test adds the sizes up in an
unsigned 64-bit number, exact as long as the files hold fewer than 2^64 bytes.
-/

namespace StreamForge

open FileTrace FileHandle StreamForge.Partition

/-! ## The age test -/

def signedLimit (retentionMs : ℕ) : ℤ :=
  if retentionMs < 2 ^ 63 then retentionMs else retentionMs - 2 ^ 64

/-- The age as a signed 64-bit difference; it is never too large, but may be too far
below zero. -/
def wrappedAge (age : ℤ) : ℤ := if -2 ^ 63 ≤ age then age else age + 2 ^ 64

theorem toInt_toInt64 (n : UInt64) : n.toInt64.toInt = signedLimit n.toNat := by
  show n.toBitVec.toInt = _
  have hbits : n.toBitVec.toNat = n.toNat := rfl
  have hlt := n.toNat_lt
  rw [BitVec.toInt_eq_toNat_cond, hbits, signedLimit]
  split <;> split <;> omega

theorem toInt_sub_eq {a b : Int64} (hb : 0 < b.toInt) :
    (a - b).toInt = wrappedAge (a.toInt - b.toInt) := by
  have ha := a.toInt_lt
  have ha' := a.le_toInt
  have hb' := b.toInt_lt
  rw [Int64.toInt_sub, wrappedAge]
  split
  · exact Int.bmod_eq_of_le (by norm_num; omega) (by norm_num; omega)
  · rw [← Int.add_bmod_right]
    exact Int.bmod_eq_of_le (by norm_num; omega) (by norm_num; omega)

/-- The segment with this largest timestamp is older than the limit. -/
def OldEnough (retentionMs : ℕ) (nowMs maxTimestampMs : ℤ) : Prop :=
  0 < maxTimestampMs ∧ (retentionMs : ℤ) < nowMs - maxTimestampMs

instance (retentionMs : ℕ) (nowMs maxTimestampMs : ℤ) :
    Decidable (OldEnough retentionMs nowMs maxTimestampMs) := by
  unfold OldEnough
  infer_instance

/-- The segment with this largest timestamp passes for older than the limit. -/
def TakenForOld (retentionMs : ℕ) (nowMs maxTimestampMs : ℤ) : Prop :=
  0 < maxTimestampMs ∧ signedLimit retentionMs < wrappedAge (nowMs - maxTimestampMs)

theorem expired_iff {retentionMs : UInt64} {nowMs : Int64} {seg : LogSegment} :
    expired retentionMs nowMs seg = true ↔
      TakenForOld retentionMs.toNat nowMs.toInt seg.maxTimestampMs.toInt := by
  have hzero : (0 : Int64).toInt = 0 := rfl
  unfold expired TakenForOld
  rw [Bool.and_eq_true, decide_eq_true_iff, decide_eq_true_iff, Int64.lt_iff_toInt_lt,
    Int64.lt_iff_toInt_lt, hzero, toInt_toInt64]
  constructor
  · rintro ⟨hpos, hlt⟩
    rw [toInt_sub_eq hpos] at hlt
    exact ⟨hpos, hlt⟩
  · rintro ⟨hpos, hlt⟩
    rw [toInt_sub_eq hpos]
    exact ⟨hpos, hlt⟩

variable {retentionMs : ℕ} {p : Partition}

/-- A segment that is older than the limit always passes: its age is a positive
number, so the limit is below 2^63. -/
theorem OldEnough.takenForOld {nowMs : Int64} {maxTimestampMs : ℤ}
    (h : OldEnough retentionMs nowMs.toInt maxTimestampMs) :
    TakenForOld retentionMs nowMs.toInt maxTimestampMs := by
  obtain ⟨hpos, hlt⟩ := h
  have hnow := nowMs.toInt_lt
  refine ⟨hpos, ?_⟩
  rw [signedLimit, if_pos (by omega), wrappedAge, if_pos (by omega)]
  exact hlt

theorem takenForOld_iff {nowMs maxTimestampMs : ℤ} (hms : retentionMs < 2 ^ 63)
    (hage : -2 ^ 63 ≤ nowMs - maxTimestampMs) :
    TakenForOld retentionMs nowMs maxTimestampMs ↔ OldEnough retentionMs nowMs maxTimestampMs := by
  rw [TakenForOld, signedLimit, if_pos hms, wrappedAge, if_pos hage]
  rfl

theorem oldEnough_iff_records {rs : List Record} {nowMs : ℤ} (hpos : 0 < (maxTimestamp rs).toInt) :
    OldEnough retentionMs nowMs (maxTimestamp rs).toInt ↔
      ∀ r ∈ rs, (retentionMs : ℤ) < nowMs - r.timestampMs.toInt := by
  constructor
  · rintro ⟨-, hlt⟩ r hr
    have := le_maxTimestamp.2 r hr
    omega
  · intro h
    obtain ⟨r, hr, heq⟩ := maxTimestamp_mem hpos
    have := h r hr
    rw [heq] at this
    exact ⟨hpos, this⟩

/-! ## The two prefixes -/

/-- `a` is the length of the longest leading run of `xs` with the property. -/
structure LeadingRun {α : Type} (P : α → Prop) (xs : List α) (a : ℕ) : Prop where
  le : a ≤ xs.length
  run : ∀ i x, i < a → xs[i]? = some x → P x
  longest : ∀ x, xs[a]? = some x → ¬P x

theorem leadingRun_takeWhile {α : Type} {P : α → Prop} {q : α → Bool} (xs : List α)
    (h : ∀ x ∈ xs, q x = true ↔ P x) : LeadingRun P xs (xs.takeWhile q).length := by
  induction xs with
  | nil => exact ⟨Nat.le_refl _, by simp, by simp⟩
  | cons y ys ih =>
    obtain ⟨hle, hrun, hlongest⟩ := ih fun x hx => h x (List.mem_cons_of_mem _ hx)
    have hy := h y (by simp)
    cases hq : q y with
    | false =>
      rw [List.takeWhile_cons_of_neg (by simp [hq])]
      refine ⟨Nat.zero_le _, by simp, ?_⟩
      intro x hx
      simp only [List.length_nil, List.getElem?_cons_zero, Option.some.injEq] at hx
      subst hx
      rw [← hy, hq]
      simp
    | true =>
      rw [List.takeWhile_cons_of_pos hq, List.length_cons]
      refine ⟨by rw [List.length_cons]; omega, ?_, ?_⟩
      · intro i x hi hx
        cases i with
        | zero =>
          simp only [List.getElem?_cons_zero, Option.some.injEq] at hx
          exact hx ▸ hy.mp hq
        | succ i => exact hrun i x (by omega) (by simpa using hx)
      · intro x hx
        exact hlongest x (by simpa using hx)

/-- How many of the oldest of `n` segments have to go to get the others down to
`limit` bytes: the least number that does it without the last one, or all but the
last. No limit removes nothing. -/
structure SizePrefix (sizes : List ℕ) (limit s : ℕ) : Prop where
  unlimited : limit = 0 → s = 0
  limited : 0 < limit → IsLeast { k | k ≤ sizes.length - 1 ∧ (sizes.drop k).sum ≤ limit } s ∨
    (∀ k, k ≤ sizes.length - 1 → limit < (sizes.drop k).sum) ∧ s = sizes.length - 1

theorem deletableBySize_le (limit : UInt64) (closed : List LogSegment) :
    ∀ total, deletableBySize limit total closed ≤ closed.length := by
  induction closed with
  | nil => exact fun _ => Nat.le_refl _
  | cons seg closed ih =>
    intro total
    unfold deletableBySize
    split
    · exact Nat.succ_le_succ (ih _)
    · exact Nat.zero_le _

/-- **The size loop**, by induction on the segments it may give up. The running
total is what is left from the current one on, so it never wraps. -/
theorem deletableBySize_spec (limit : UInt64) (closed : List LogSegment) (rest : List ℕ) :
    ∀ total : UInt64, total.toNat = ((closed.map LogSegment.logSizeBytes) ++ rest).sum →
    let k := deletableBySize limit total closed
    (∀ i < k, limit.toNat < (((closed.map LogSegment.logSizeBytes) ++ rest).drop i).sum) ∧
      (k < closed.length →
        (((closed.map LogSegment.logSizeBytes) ++ rest).drop k).sum ≤ limit.toNat) := by
  induction closed with
  | nil =>
    intro total _
    simp [deletableBySize]
  | cons seg closed ih =>
    rintro total htotal
    simp only [List.map_cons, List.cons_append, List.sum_cons] at htotal ⊢
    have hlt := total.toNat_lt
    have hseg : (UInt64.ofNat seg.logSizeBytes).toNat = seg.logSizeBytes :=
      UInt64.toNat_ofNat_of_lt' (by rw [UInt64.size]; omega)
    unfold deletableBySize
    split
    · rename_i hover
      have hleft : (total - UInt64.ofNat seg.logSizeBytes).toNat =
          ((closed.map LogSegment.logSizeBytes) ++ rest).sum := by
        rw [UInt64.toNat_sub_of_le _ _ (by rw [UInt64.le_iff_toNat_le]; omega), hseg]
        omega
      rw [UInt64.lt_iff_toNat_lt] at hover
      obtain ⟨hbefore, hafter⟩ := ih _ hleft
      refine ⟨?_, ?_⟩
      · intro i hi
        cases i with
        | zero =>
          rw [List.drop_zero, List.sum_cons]
          omega
        | succ i => exact hbefore i (by omega)
      · intro hk
        rw [List.length_cons] at hk
        exact hafter (by omega)
    · rename_i hunder
      rw [UInt64.lt_iff_toNat_lt] at hunder
      refine ⟨fun i hi => absurd hi (Nat.not_lt_zero _), ?_⟩
      intro _
      rw [List.drop_zero, List.sum_cons]
      omega

def Partition.sizes (p : Partition) : List ℕ := p.segments.map LogSegment.logSizeBytes

/-- Below 2^64 bytes the running sum is exact. -/
theorem toNat_foldl_logSizeBytes (segs : List LogSegment) :
    ∀ total : UInt64, total.toNat + (segs.map LogSegment.logSizeBytes).sum < 2 ^ 64 →
      (segs.foldl (fun total seg => total + UInt64.ofNat seg.logSizeBytes) total).toNat =
        total.toNat + (segs.map LogSegment.logSizeBytes).sum := by
  induction segs with
  | nil => exact fun _ _ => rfl
  | cons seg segs ih =>
    intro total hfit
    rw [List.map_cons, List.sum_cons] at hfit ⊢
    have hstep : (total + UInt64.ofNat seg.logSizeBytes).toNat =
      total.toNat + seg.logSizeBytes := by
      rw [UInt64.toNat_add, UInt64.toNat_ofNat_of_lt' (by rw [UInt64.size]; omega)]
      exact Nat.mod_eq_of_lt (by omega)
    rw [List.foldl_cons, ih _ (by omega), hstep]
    omega

theorem toNat_totalBytes (hfit : p.sizes.sum < 2 ^ 64) : p.totalBytes.toNat = p.sizes.sum := by
  have hsum := toNat_foldl_logSizeBytes p.segments 0
    (by rw [UInt64.toNat_zero, Nat.zero_add]; exact hfit)
  rw [UInt64.toNat_zero, Nat.zero_add] at hsum
  exact hsum

theorem sizePrefix_deletableBySize {closed : List LogSegment} {active : LogSegment}
    (hsegs : p.segments = closed ++ [active]) (hfit : p.sizes.sum < 2 ^ 64) (limit : UInt64) :
    SizePrefix p.sizes limit.toNat (if 0 < limit then
      deletableBySize limit p.totalBytes closed else 0) := by
  have hsizes : p.sizes = closed.map LogSegment.logSizeBytes ++ [active.logSizeBytes] := by
    rw [sizes, hsegs, List.map_append]
    rfl
  have hlength : p.sizes.length - 1 = closed.length := by simp [hsizes]
  have hpos : 0 < limit ↔ 0 < limit.toNat := UInt64.lt_iff_toNat_lt
  have hle := deletableBySize_le limit closed p.totalBytes
  obtain ⟨hbefore, hafter⟩ := deletableBySize_spec limit closed [active.logSizeBytes] p.totalBytes
    (by rw [toNat_totalBytes hfit, hsizes])
  rw [← hsizes] at hbefore hafter
  refine ⟨?_, ?_⟩
  · intro hzero
    rw [if_neg (by rw [hpos]; omega)]
  · intro hlimit
    rw [if_pos (hpos.mpr hlimit), hlength]
    set k := deletableBySize limit p.totalBytes closed
    have hleast : (p.sizes.drop k).sum ≤ limit.toNat →
        IsLeast { k | k ≤ closed.length ∧ (p.sizes.drop k).sum ≤ limit.toNat } k := by
      intro hfits
      refine ⟨⟨hle, hfits⟩, ?_⟩
      rintro i ⟨-, hi⟩
      by_contra hlt
      have := hbefore i (by omega)
      omega
    by_cases hfits : (p.sizes.drop k).sum ≤ limit.toNat
    · exact Or.inl (hleast hfits)
    · -- not even the active segment alone is small enough
      have hall : k = closed.length := by
        by_contra hne
        exact hfits (hafter (by omega))
      refine Or.inr ⟨?_, hall⟩
      intro i hi
      by_cases hik : i < k
      · exact hbefore i hik
      · rw [show i = k by omega]
        omega

/-- The effect of a pass that removes the first `k` segments. -/
structure PassRemoves (p : Partition) (fs : FileSystem) (k : ℕ)
    (res : List Partition.DeletionCandidate × Partition × FileSystem) : Prop where
  reported : res.1 = (p.segments.take k).map candidate
  partition : res.2.1 = { p with segments := p.segments.drop k }
  files : ∀ f : FileName, res.2.2.dir.lookup f =
    if f.base ∈ (p.segments.take k).map LogSegment.baseOffset then none else fs.dir.lookup f

/-- **A pass** removes as many segments as it counts, and a dry run reports the
same ones. -/
theorem scanAndDeleteSegments_eq (p : Partition) (retentionMs retentionBytes : UInt64)
    (nowMs : Int64) (fs : FileSystem) :
    let k := p.deletableCount retentionMs retentionBytes nowMs
    PassRemoves p fs k (p.scanAndDeleteSegments retentionMs retentionBytes false nowMs fs) ∧
      p.scanAndDeleteSegments retentionMs retentionBytes true nowMs fs =
        ((p.segments.take k).map candidate, p, fs) := by
  intro k
  have hsame : k = 0 → PassRemoves p fs k ([], p, fs) ∧
      (([], p, fs) : List Partition.DeletionCandidate × Partition × FileSystem) =
        ((p.segments.take k).map candidate, p, fs) := by
    intro hk
    rw [hk]
    exact ⟨⟨rfl, rfl, fun f => by simp⟩, rfl⟩
  unfold scanAndDeleteSegments
  by_cases hone : p.segments.length ≤ 1
  · rw [if_pos hone, if_pos hone]
    refine hsame ?_
    by_cases hzero : p.segments.length = 0
    · have hnil := List.length_eq_zero_iff.mp hzero
      simp [k, deletableCount, hnil]
    · have hlt := deletableCount_lt (p := p) (by omega) retentionMs retentionBytes nowMs
      omega
  · rw [if_neg hone, if_neg hone]
    dsimp only
    by_cases hzero : p.deletableCount retentionMs retentionBytes nowMs = 0
    · rw [if_pos hzero, if_pos hzero]
      exact hsame hzero
    · rw [if_neg hzero, if_neg hzero]
      simp only [Bool.false_eq_true, if_false, if_true]
      exact ⟨⟨rfl, rfl, lookup_removed _ fs⟩, rfl⟩

theorem deletableCount_eq {closed : List LogSegment} {active : LogSegment}
    (hsegs : p.segments = closed ++ [active]) (retentionMs retentionBytes : UInt64)
    (nowMs : Int64) :
    p.deletableCount retentionMs retentionBytes nowMs =
      max (if 0 < retentionMs then (closed.takeWhile (expired retentionMs nowMs)).length
          else 0)
        (if 0 < retentionBytes then
          deletableBySize retentionBytes p.totalBytes closed else 0) := by
  have hdrop : p.segments.dropLast = closed := by rw [hsegs, List.dropLast_concat]
  have hage : (closed.takeWhile (expired retentionMs nowMs)).length ≤ closed.length :=
    (List.takeWhile_prefix _).length_le
  have hsize := deletableBySize_le retentionBytes closed p.totalBytes
  have hlength : p.segments.length = closed.length + 1 := by simp [hsegs]
  unfold deletableCount
  dsimp only
  rw [hdrop, if_neg]
  rw [hlength, Nat.not_le, Nat.lt_succ_iff]
  refine max_le ?_ ?_
  · split <;> omega
  · split <;> omega

structure Known (p : Partition) (d : Disk) : Prop where
  nodup : (p.segments.map LogSegment.baseOffset).Nodup
  tally : ∀ seg ∈ p.segments, Tally seg (recordsAt d seg.baseOffset)
  size : ∀ seg ∈ p.segments, seg.logSizeBytes = (logOf d seg.baseOffset).length
  few : ∀ seg ∈ p.segments, (recordsAt d seg.baseOffset).length < 2 ^ 64

theorem known_of_runInv {st : RunState} (h : RunInv st) (ht : st.Tallied)
    (hroom : st.acked.length < 2 ^ 64) : Known st.part st.fs.dir := by
  have hlog := h.logInvariant hroom
  refine ⟨hlog.bases.imp UInt64.ne_of_lt, ht.segments, ?_, ?_⟩
  · intro seg hseg
    have hsize := hlog.size seg hseg
    obtain ⟨log, hlookup, hlen⟩ := Option.map_eq_some_iff.mp hsize
    have hfile : st.fs.dir.lookup ⟨seg.baseOffset, .log⟩ = some log := hlookup
    rw [logOf, hfile]
    exact hlen.symm
  · obtain ⟨-, ⟨hfresh, -⟩ | ⟨pre, s, start, hrun⟩⟩ := h
    · simp [hfresh.segments]
    · intro seg hseg
      have hsub : (recordsAt st.fs.dir seg.baseOffset).length ≤
          (st.part.recordsHeld st.fs.dir).length := by
        have hmem : recordsAt st.fs.dir seg.baseOffset ∈
            st.part.segments.map fun seg => recordsAt st.fs.dir seg.baseOffset :=
          List.mem_map.mpr ⟨seg, hseg, rfl⟩
        rw [recordsHeld, List.flatMap_def]
        exact (List.sublist_flatten_of_mem hmem).length_le
      rw [hrun.inv.recordsHeld] at hsub
      have hend := hrun.end_eq
      omega

theorem known_of_run (partitionId : UInt32) (partitionDir : Bytes) (config : StorageConfig)
    (ops : List Op) (hsized : ∀ op ∈ ops, op.Sized) (hroom : handedIn ops < 2 ^ 64) :
    let st := run (RunState.init (Partition.new partitionId partitionDir config)) ops
    RunInv st ∧ st.acked.length < 2 ^ 64 ∧ Known st.part st.fs.dir := by
  have hinit := runInv_init partitionId partitionDir config
  obtain ⟨hinv, hlen⟩ := run_runInv hinit rfl ops hsized hroom
  have htallied := run_tallied partitionId partitionDir config ops hsized hroom
  exact ⟨hinv, by omega, known_of_runInv hinv htallied (by omega)⟩

def maxTimestampAt (d : Disk) (seg : LogSegment) : ℤ :=
  (maxTimestamp (recordsAt d seg.baseOffset)).toInt

/-! ## Young records are kept -/

/-- A pass by age removes only records older than the limit. -/
def KeepsYoung (p : Partition) (fs : FileSystem) (retentionMs : UInt64) (nowMs : Int64) : Prop :=
  let p' := (p.scanAndDeleteSegments retentionMs 0 false nowMs fs).2.1
  ∀ seg ∈ p.segments, seg.baseOffset ∉ p'.segments.map LogSegment.baseOffset →
    ∀ r ∈ recordsAt fs.dir seg.baseOffset,
      (retentionMs.toNat : ℤ) < nowMs.toInt - r.timestampMs.toInt

def firstYoung (p : Partition) (d : Disk) (retentionMs : UInt64) (nowMs : Int64) :
    Option LogSegment :=
  (p.segments.dropLast.dropWhile fun seg =>
    decide (OldEnough retentionMs.toNat nowMs.toInt (maxTimestampAt d seg))).head?

/-- A looser test takes only what the stricter one takes when it stops at the same
element. -/
theorem forall_takeWhile_iff {α : Type} {P : α → Prop} [DecidablePred P] {q : α → Bool}
    (xs : List α) (h : ∀ x ∈ xs, P x → q x = true) :
    (∀ x ∈ xs.takeWhile q, P x) ↔
      ∀ x, (xs.dropWhile fun x => decide (P x)).head? = some x → q x = false := by
  induction xs with
  | nil => simp
  | cons y ys ih =>
    by_cases hy : P y
    · rw [List.takeWhile_cons_of_pos (h y (by simp) hy), List.dropWhile_cons_of_pos (by simpa),
        List.forall_mem_cons, ih fun x hx => h x (List.mem_cons_of_mem _ hx)]
      exact and_iff_right hy
    · rw [List.dropWhile_cons_of_neg (by simpa)]
      cases hq : q y with
      | false => simp [hq]
      | true =>
        rw [List.takeWhile_cons_of_pos hq]
        simp [hy, hq]

theorem mem_take_iff (hnodup : (p.segments.map LogSegment.baseOffset).Nodup) {k : ℕ}
    {seg : LogSegment} (hseg : seg ∈ p.segments) :
    seg.baseOffset ∉ (p.segments.drop k).map LogSegment.baseOffset ↔ seg ∈ p.segments.take k := by
  rw [← List.take_append_drop k p.segments, List.map_append] at hnodup
  have hdisjoint := (List.nodup_append.mp hnodup).2.2
  rw [← List.take_append_drop k p.segments] at hseg
  constructor
  · intro hgone
    rcases List.mem_append.mp hseg with hseg | hseg
    · exact hseg
    · exact absurd (List.mem_map_of_mem hseg) hgone
  · intro htake hkept
    exact hdisjoint _ (List.mem_map_of_mem htake) _ hkept rfl

theorem keepsYoung_iff {fs : FileSystem} (h : Known p fs.dir) {retentionMs : UInt64}
    (hms : 0 < retentionMs) (nowMs : Int64) :
    KeepsYoung p fs retentionMs nowMs ↔
      ∀ seg, firstYoung p fs.dir retentionMs nowMs = some seg →
        ¬TakenForOld retentionMs.toNat nowMs.toInt (maxTimestampAt fs.dir seg) := by
  set k := p.deletableCount retentionMs 0 nowMs with hk
  set closed := p.segments.dropLast with hclosed
  have hmax : ∀ seg ∈ closed, seg.maxTimestampMs.toInt = maxTimestampAt fs.dir seg := by
    intro seg hseg
    rw [(h.tally seg (List.dropLast_subset _ hseg)).maxTs]
    rfl
  have hexpired : ∀ seg ∈ closed, expired retentionMs nowMs seg = true ↔
      TakenForOld retentionMs.toNat nowMs.toInt (maxTimestampAt fs.dir seg) := by
    intro seg hseg
    rw [expired_iff, hmax seg hseg]
  -- the segments removed are the leading ones that pass for expired
  have htake : p.segments.take k = closed.takeWhile (expired retentionMs nowMs) := by
    rcases List.eq_nil_or_concat p.segments with hnil | ⟨xs, active, hsegs⟩
    · simp [hclosed, hnil]
    · rw [List.concat_eq_append] at hsegs
      have hxs : closed = xs := by rw [hclosed, hsegs, List.dropLast_concat]
      rw [hk, deletableCount_eq hsegs, if_pos hms, if_neg (by decide), Nat.max_zero, hxs, hsegs,
        List.take_append_of_le_length (List.takeWhile_prefix _).length_le]
      exact List.prefix_iff_eq_take.mp (List.takeWhile_prefix _) |>.symm
  have hkeeps : KeepsYoung p fs retentionMs nowMs ↔
      ∀ seg ∈ closed.takeWhile (expired retentionMs nowMs),
        OldEnough retentionMs.toNat nowMs.toInt (maxTimestampAt fs.dir seg) := by
    have hpass := (scanAndDeleteSegments_eq p retentionMs 0 nowMs fs).1.partition
    unfold KeepsYoung
    dsimp only
    rw [hpass, ← htake]
    have hold : ∀ seg ∈ p.segments.take k,
        (OldEnough retentionMs.toNat nowMs.toInt (maxTimestampAt fs.dir seg) ↔
          ∀ r ∈ recordsAt fs.dir seg.baseOffset,
            (retentionMs.toNat : ℤ) < nowMs.toInt - r.timestampMs.toInt) := by
      intro seg hseg
      rw [htake] at hseg
      have hq := List.mem_takeWhile_imp hseg
      have hin := (List.takeWhile_prefix _).subset hseg
      exact oldEnough_iff_records ((hexpired seg hin).mp hq).1
    constructor
    · intro hyoung seg hseg
      have hin := List.take_subset _ _ hseg
      exact (hold seg hseg).mpr (hyoung seg hin ((mem_take_iff h.nodup hin).mpr hseg))
    · intro hyoung seg hin hgone
      have hseg := (mem_take_iff h.nodup hin).mp hgone
      exact (hold seg hseg).mp (hyoung seg hseg)
  rw [hkeeps, forall_takeWhile_iff closed fun seg hseg hold =>
    (hexpired seg hseg).mpr hold.takenForOld]
  refine forall_congr' fun seg => imp_congr_right fun hfirst => ?_
  have hin : seg ∈ closed := (List.dropWhile_suffix _).subset (List.mem_of_head? hfirst)
  rw [← hexpired seg hin, Bool.not_eq_true]

/-- **Age retention keeps young records** exactly when the oldest closed segment
that is not past the limit is not taken for one that is. Limits from 2^63 on are
compared as negative numbers, and ages below -2^63 as positive ones. -/
theorem age_retention_keeps_young_iff (partitionId : UInt32) (partitionDir : Bytes)
    (config : StorageConfig) (ops : List Op) (hsized : ∀ op ∈ ops, op.Sized)
    (hroom : handedIn ops < 2 ^ 64) {retentionMs : UInt64} (hms : 0 < retentionMs)
    (nowMs : Int64) :
    let st := run (RunState.init (Partition.new partitionId partitionDir config)) ops
    KeepsYoung st.part st.fs retentionMs nowMs ↔
      ∀ seg, firstYoung st.part st.fs.dir retentionMs nowMs = some seg →
        ¬TakenForOld retentionMs.toNat nowMs.toInt (maxTimestampAt st.fs.dir seg) :=
  keepsYoung_iff (known_of_run partitionId partitionDir config ops hsized hroom).2.2 hms nowMs

def threeSegments : RunState :=
  run (RunState.init (Partition.new 0 [] { segmentMaxBytes := 30 }))
    [.append [] [] 5, .append [] [] 60, .append [] [] 6]

/-- With a limit of 50 the first segment goes and the second is the oldest young
one. -/
theorem age_retention_keeps_young_three :
    KeepsYoung threeSegments.part threeSegments.fs 50 100 := by
  refine (age_retention_keeps_young_iff 0 [] { segmentMaxBytes := 30 }
    [.append [] [] 5, .append [] [] 60, .append [] [] 6] ?_ (by decide) (by decide) 100).mpr ?_
  · simp only [List.mem_cons, List.not_mem_nil, or_false, forall_eq_or_imp, forall_eq, Op.Sized]
    decide
  · intro seg hseg
    have hmax : (firstYoung threeSegments.part threeSegments.fs.dir 50 100).map
        (maxTimestampAt threeSegments.fs.dir) = some 60 := by
      decide +kernel
    have heq : maxTimestampAt threeSegments.fs.dir seg = 60 := by
      rw [show firstYoung threeSegments.part threeSegments.fs.dir 50 100 =
        some seg from hseg] at hmax
      exact Option.some.inj hmax
    rintro ⟨-, hlt⟩
    rw [show maxTimestampAt (run _ _).fs.dir seg = 60 from heq] at hlt
    exact absurd hlt (by decide)

/-- The largest limit there is removes what is less than a second old. -/
theorem age_retention_removes_young : ¬KeepsYoung threeSegments.part threeSegments.fs (-1) 100 := by
  unfold KeepsYoung
  decide +kernel

/-! ## Exactly the right prefix -/

def sizeAt (d : Disk) (seg : LogSegment) : ℕ := (logOf d seg.baseOffset).length

/-- **What a pass does**, with the first `max a s` segments removed: the `a` leading
segments past the age limit, or the `s` that are too many bytes. -/
structure RemovesPrefix (p : Partition) (fs : FileSystem) (retentionMs retentionBytes : UInt64)
    (nowMs : Int64) (a s : ℕ)
    (res : List Partition.DeletionCandidate × Partition × FileSystem) : Prop where
  byAge : LeadingRun (fun seg => 0 < retentionMs ∧
    OldEnough retentionMs.toNat nowMs.toInt (maxTimestampAt fs.dir seg)) p.segments.dropLast a
  bySize : SizePrefix (p.segments.map (sizeAt fs.dir)) retentionBytes.toNat s
  partition : res.2.1 = { p with segments := p.segments.drop (max a s) }
  files : ∀ f : FileName, res.2.2.dir.lookup f =
    if f.base ∈ (p.segments.take (max a s)).map LogSegment.baseOffset then none
    else fs.dir.lookup f
  active : p.segments.getLast? = res.2.1.segments.getLast?
  earliest : ∀ seg, p.segments[max a s]? = some seg → res.2.1.earliestOffset = seg.baseOffset
  contiguous : NoHoles res.2.1 res.2.2.dir
  within : retentionBytes = 0 ∨ res.2.1.segments.length ≤ 1 ∨
    (res.2.1.segments.map (sizeAt res.2.2.dir)).sum ≤ retentionBytes.toNat
  reported : res.1 = (p.segments.take (max a s)).map fun seg => ⟨seg.baseOffset,
    UInt64.ofNat (recordsAt fs.dir seg.baseOffset).length, sizeAt fs.dir seg⟩
  counted : ∀ seg ∈ p.segments, (recordsAt fs.dir seg.baseOffset).length < 2 ^ 64

def RetainsExactly (p : Partition) (fs : FileSystem) (retentionMs retentionBytes : UInt64)
    (nowMs : Int64) : Prop :=
  let res := p.scanAndDeleteSegments retentionMs retentionBytes false nowMs fs
  (∃ a s, RemovesPrefix p fs retentionMs retentionBytes nowMs a s res) ∧
    p.scanAndDeleteSegments retentionMs retentionBytes true nowMs fs = (res.1, p, fs)

def AgesFit (p : Partition) (d : Disk) (nowMs : Int64) : Prop :=
  ∀ seg ∈ p.segments.dropLast, -2 ^ 63 ≤ nowMs.toInt - maxTimestampAt d seg

/-- The log files together are within the running total of the size loop. -/
def BytesFit (p : Partition) (d : Disk) : Prop := (p.segments.map (sizeAt d)).sum < 2 ^ 64

theorem SizePrefix.within {sizes : List ℕ} {limit s k : ℕ} (h : SizePrefix sizes limit s)
    (hk : s ≤ k) : limit = 0 ∨ (sizes.drop k).length ≤ 1 ∨ (sizes.drop k).sum ≤ limit := by
  rcases Nat.eq_zero_or_pos limit with hzero | hpos
  · exact Or.inl hzero
  · refine Or.inr ?_
    rcases h.limited hpos with ⟨⟨-, hsum⟩, -⟩ | ⟨-, rfl⟩
    · refine Or.inr (le_trans ?_ hsum)
      have hsub : List.Sublist (sizes.drop k) (sizes.drop s) := by
        rw [show k = s + (k - s) by omega, ← List.drop_drop]
        exact List.drop_sublist _ _
      exact hsub.sum_le_sum (fun _ _ => Nat.zero_le _)
    · left
      rw [List.length_drop]
      omega

section Exact

variable {st : RunState} {retentionMs retentionBytes : UInt64} {nowMs : Int64}

variable {p : Partition} {d : Disk} {fs : FileSystem} {k : ℕ}
    {res : List Partition.DeletionCandidate × Partition × FileSystem}

theorem leadingRun_byAge (h : Known p d) (hms : retentionMs.toNat < 2 ^ 63)
    (hage : AgesFit p d nowMs) :
    LeadingRun (fun seg => 0 < retentionMs ∧
        OldEnough retentionMs.toNat nowMs.toInt (maxTimestampAt d seg)) p.segments.dropLast
      (if 0 < retentionMs then
        (p.segments.dropLast.takeWhile (expired retentionMs nowMs)).length else 0) := by
  split
  · rename_i hpos
    refine leadingRun_takeWhile _ ?_
    intro seg hseg
    have hmax := (h.tally seg (List.dropLast_subset _ hseg)).maxTs
    rw [expired_iff, hmax, and_iff_right hpos]
    exact takenForOld_iff hms (hage seg hseg)
  · rename_i hzero
    exact ⟨Nat.zero_le _, fun i x hi => absurd hi (Nat.not_lt_zero _), fun x _ hx => hzero hx.1⟩

theorem Known.sizes (h : Known p d) : p.segments.map (sizeAt d) = p.sizes :=
  List.map_congr_left fun seg hseg => (h.size seg hseg).symm

theorem Known.candidates (h : Known p d) (k : ℕ) :
    (p.segments.take k).map candidate = (p.segments.take k).map fun seg =>
      ⟨seg.baseOffset, UInt64.ofNat (recordsAt d seg.baseOffset).length, sizeAt d seg⟩ := by
  refine List.map_congr_left fun seg hseg => ?_
  have hin := List.take_subset _ _ hseg
  rw [candidate, (h.tally seg hin).count, h.size seg hin]
  rfl

theorem PassRemoves.sizes (h : PassRemoves p fs k res)
    (hnodup : (p.segments.map LogSegment.baseOffset).Nodup) :
    res.2.1.segments.map (sizeAt res.2.2.dir) = (p.segments.map (sizeAt fs.dir)).drop k := by
  rw [h.partition, ← List.map_drop]
  refine List.map_congr_left fun seg hseg => ?_
  have hkept : seg.baseOffset ∉ (p.segments.take k).map LogSegment.baseOffset := by
    rw [← List.take_append_drop k p.segments, List.map_append] at hnodup
    intro hmem
    exact (List.nodup_append.mp hnodup).2.2 _ hmem _ (List.mem_map_of_mem hseg) rfl
  rw [sizeAt, sizeAt, logOf, logOf, h.files, if_neg hkept]

theorem PassRemoves.active (h : PassRemoves p fs k res) (hk : k < p.segments.length) :
    p.segments.getLast? = res.2.1.segments.getLast? := by
  rw [h.partition, List.getLast?_drop, if_neg (by omega)]

theorem PassRemoves.earliest (h : PassRemoves p fs k res) {seg : LogSegment}
    (hseg : p.segments[k]? = some seg) :
    res.2.1.earliestOffset = seg.baseOffset := by
  obtain ⟨hk, rfl⟩ := List.getElem?_eq_some_iff.mp hseg
  rw [h.partition, earliestOffset, List.drop_eq_getElem_cons hk]

theorem noHoles_after_pass (hinv : RunInv st) (hroom : st.acked.length < 2 ^ 64) :
    let res := st.part.scanAndDeleteSegments retentionMs retentionBytes false nowMs st.fs
    NoHoles res.2.1 res.2.2.dir := by
  obtain ⟨hinv', hlen⟩ := @step_runInv st hinv (.retain retentionMs retentionBytes false nowMs)
    trivial (by simpa [Op.count] using hroom)
  exact hinv'.noHoles (by simp only [Op.count] at hlen; omega)

theorem retainsExactly_of_runInv (hinv : RunInv st) (hroom : st.acked.length < 2 ^ 64)
    (h : Known st.part st.fs.dir) (hms : retentionMs.toNat < 2 ^ 63)
    (hage : AgesFit st.part st.fs.dir nowMs) (hfit : BytesFit st.part st.fs.dir) :
    RetainsExactly st.part st.fs retentionMs retentionBytes nowMs := by
  obtain ⟨hpass, hdry⟩ := scanAndDeleteSegments_eq st.part retentionMs retentionBytes nowMs st.fs
  refine ⟨?_, by rw [hdry, hpass.reported]⟩
  have hbyAge := leadingRun_byAge h hms hage
  have hholes : NoHoles _ _ :=
    @noHoles_after_pass st retentionMs retentionBytes nowMs hinv hroom
  rcases List.eq_nil_or_concat st.part.segments with hnil | ⟨closed, active, hsegs⟩
  · -- a partition without segments
    have hk : st.part.deletableCount retentionMs retentionBytes nowMs = max 0 0 := by
      simp [deletableCount, hnil]
    rw [hk] at hpass
    refine ⟨0, 0, ?_, ?_, hpass.partition, hpass.files, ?_, fun _ hseg => hpass.earliest hseg,
      hholes, ?_, ?_, h.few⟩
    · simpa [hnil] using hbyAge
    · rw [hnil]
      refine ⟨fun _ => rfl, fun _ => Or.inl ⟨by simp, fun _ _ => Nat.zero_le _⟩⟩
    · rw [hpass.partition, Nat.max_self, List.drop_zero]
    · rw [hpass.partition, hnil]
      simp
    · rw [hpass.reported, h.candidates]
  · rw [List.concat_eq_append] at hsegs
    have hdrop : st.part.segments.dropLast = closed := by rw [hsegs, List.dropLast_concat]
    have hbySize := sizePrefix_deletableBySize hsegs (h.sizes ▸ hfit) retentionBytes
    have hlt := @deletableCount_lt st.part (by simp [hsegs]) retentionMs retentionBytes nowMs
    rw [deletableCount_eq hsegs] at hpass hlt
    rw [← hdrop] at hpass hlt hbySize
    rw [← h.sizes] at hbySize
    set a := if 0 < retentionMs then
      (st.part.segments.dropLast.takeWhile (expired retentionMs nowMs)).length else 0
    refine ⟨a, _, hbyAge, hbySize, hpass.partition, hpass.files, hpass.active hlt,
      fun _ hseg => hpass.earliest hseg, hholes, ?_, ?_, h.few⟩
    · have hwithin := hbySize.within (le_max_right a _)
      rw [← hpass.sizes h.nodup, List.length_map] at hwithin
      rcases hwithin with hzero | hone | hfits
      · exact Or.inl (UInt64.toNat_inj.mp hzero)
      · exact Or.inr (Or.inl hone)
      · exact Or.inr (Or.inr hfits)
    · rw [hpass.reported, h.candidates]

end Exact

/-- **Retention removes exactly the right prefix** in every state of a run without
failures, as long as the difference of the age test and the sum of the size loop do
not wrap. -/
theorem retention_removes_prefix (partitionId : UInt32) (partitionDir : Bytes)
    (config : StorageConfig) (ops : List Op) (hsized : ∀ op ∈ ops, op.Sized)
    (hroom : handedIn ops < 2 ^ 64) {retentionMs : UInt64} (hms : retentionMs.toNat < 2 ^ 63)
    (retentionBytes : UInt64) (nowMs : Int64) :
    let st := run (RunState.init (Partition.new partitionId partitionDir config)) ops
    AgesFit st.part st.fs.dir nowMs → BytesFit st.part st.fs.dir →
      RetainsExactly st.part st.fs retentionMs retentionBytes nowMs := by
  intro st hage hfit
  obtain ⟨hinv, hlen, hknown⟩ := known_of_run partitionId partitionDir config ops hsized hroom
  exact retainsExactly_of_runInv hinv hlen hknown hms hage hfit

theorem retention_removes_prefix_three :
    RetainsExactly threeSegments.part threeSegments.fs 50 40 100 := by
  refine retention_removes_prefix 0 [] { segmentMaxBytes := 30 }
    [.append [] [] 5, .append [] [] 60, .append [] [] 6] ?_ (by decide) (by decide) 40 100 ?_ ?_
  · simp only [List.mem_cons, List.not_mem_nil, or_false, forall_eq_or_imp, forall_eq, Op.Sized]
    decide
  · have hfit : AgesFit threeSegments.part threeSegments.fs.dir 100 := by
      unfold AgesFit
      decide +kernel
    exact hfit
  · have hfit : BytesFit threeSegments.part threeSegments.fs.dir := by
      unfold BytesFit
      decide +kernel
    exact hfit

/-- A record from the far future, and a clock before the epoch: the difference wraps
and the segment is removed. -/
theorem retention_removes_future :
    let st := run (RunState.init (Partition.new 0 [] { segmentMaxBytes := 30 }))
      [.append [] [] (2 ^ 63 - 1), .append [] [] 6]
    ¬RetainsExactly st.part st.fs 50 0 (-2) := by
  intro st hexact
  obtain ⟨⟨a, s, hremoves⟩, -⟩ := hexact
  have hleft : (st.part.scanAndDeleteSegments 50 0 false (-2) st.fs).2.1.segments.length = 1 := by
    decide +kernel
  have hall : st.part.segments.length = 2 := by decide +kernel
  have hyoung : ∀ seg ∈ st.part.segments.dropLast,
      ¬OldEnough 50 (-2) (maxTimestampAt st.fs.dir seg) := by
    decide +kernel
  have hs : s = 0 := hremoves.bySize.unlimited rfl
  have ha : a = 0 := by
    by_contra hne
    have hzero : 0 < st.part.segments.dropLast.length := by
      rw [List.length_dropLast]
      omega
    have hfirst := List.getElem?_eq_getElem hzero
    exact hyoung _ (List.getElem_mem hzero) (hremoves.byAge.run 0 _ (by omega) hfirst).2
  have hpart := congrArg (fun p => p.segments.length) hremoves.partition
  simp only [ha, hs, Nat.max_self, List.drop_zero] at hpart
  omega

end StreamForge
