import StreamForge.Storage.PartitionInvariant

/-!
# Retention

`scan_and_delete_segments` gives up some of the oldest segments, whatever its
arguments and the clock. It never reaches the active one, so the invariant
holds of what is left; while the files are being removed the directory holds
one of the suffixes in between.
-/

namespace StreamForge

open FileTrace FileHandle

def removeOps (base : UInt64) : List (FileOp FileName) :=
  [.remove ⟨base, .log⟩, .remove ⟨base, .index⟩, .remove ⟨base, .sealed⟩]

theorem removeFiles_eq (fs : FileSystem) (base : UInt64) :
    Partition.removeFiles fs base = fs.execAll (removeOps base) := by
  simp only [Partition.removeFiles, removeOps, Fs.exec_eq_execAll, Fs.execAll_execAll]
  rfl

theorem foldl_removeFiles_eq (cs : List Partition.DeletionCandidate) (fs : FileSystem) :
    cs.foldl (fun fs c => Partition.removeFiles fs c.baseOffset) fs =
      fs.execAll (cs.flatMap fun c => removeOps c.baseOffset) := by
  induction cs generalizing fs with
  | nil => simp [Fs.execAll_nil]
  | cons c cs ih =>
    rw [List.foldl_cons, ih, removeFiles_eq, Fs.execAll_execAll, List.flatMap_cons]

variable {d : Disk} {f : FileName} {pre : List SegmentData} {p : Partition} {fs : FileSystem}
    {s : SegmentData}

theorem lookup_removeOps {base : UInt64} (h : f.base ≠ base) :
    (applyAll d (removeOps base)).lookup f = d.lookup f := by
  have hne : ∀ k, f ≠ ⟨base, k⟩ := by
    rintro k rfl
    exact h rfl
  simp [removeOps, lookup_remove, hne]

/-- **Removing the oldest segment**, file by file. The first removal already
takes it out of the log; the other two clean up. -/
theorem holdsThroughout_removeOps {d : Disk} {x s : SegmentData} {mid : List SegmentData}
    (h : DiskInv d (x :: mid ++ [s]) []) :
    HoldsThroughout (fun e => DiskInv e (x :: mid ++ [s]) [] ∨ DiskInv e (mid ++ [s]) [])
        d (removeOps x.base) ∧
      DiskInv (applyAll d (removeOps x.base)) (mid ++ [s]) [] := by
  obtain ⟨⟨start, hchain⟩, -⟩ := diskInv_snoc.mp h
  have hnot : x.base ∉ (mid ++ [s]).map SegmentData.base := by
    have hpair := hchain.bases_sorted.1
    rw [List.cons_append, List.map_cons] at hpair
    intro hmem
    exact UInt64.lt_irrefl _ ((List.pairwise_cons.mp hpair).1 _ hmem)
  have hgone : ∀ (e : Disk) f, ((FileOp.remove f).apply e).lookup f = none := by
    intro e f
    rw [lookup_remove, if_pos rfl]
  have hsame : ∀ (e : Disk) f g, g ≠ f → ((FileOp.remove f).apply e).lookup g = e.lookup g := by
    intro e f g hg
    rw [lookup_remove, if_neg hg]
  have h1 := h.removeLog (hgone d _) (hsame d _)
  have h2 := h1.removeOrphan hnot (hgone _ ⟨x.base, .index⟩) (hsame _ _)
  have h3 := h2.removeOrphan hnot (hgone _ ⟨x.base, .sealed⟩) (hsame _ _)
  refine ⟨?_, h3⟩
  refine HoldsThroughout.cons (by simp) (Or.inl h) ?_
  refine HoldsThroughout.cons (by simp) (Or.inr h1) ?_
  refine HoldsThroughout.cons (by simp) (Or.inr h2) ?_
  exact HoldsThroughout.nil (Or.inr h3)

/-- **Removing the oldest segments one after the other.** -/
theorem holdsThroughout_removeAll {s : SegmentData} (old : List SegmentData) :
    ∀ {d : Disk} {mid : List SegmentData}, DiskInv d ((old ++ mid) ++ [s]) [] →
    HoldsThroughout (fun e => ∃ n, n ≤ old.length ∧ DiskInv e ((old ++ mid).drop n ++ [s]) []) d
      (old.flatMap fun x => removeOps x.base) ∧
    DiskInv (applyAll d (old.flatMap fun x => removeOps x.base)) (mid ++ [s]) [] := by
  induction old with
  | nil =>
    intro d mid h
    exact ⟨HoldsThroughout.nil ⟨0, by simp, by simpa using h⟩, by simpa using h⟩
  | cons x old ih =>
    intro d mid h
    obtain ⟨hkill, hinv⟩ := @holdsThroughout_removeOps d x s (old ++ mid) h
    obtain ⟨hkill', hinv'⟩ := ih hinv
    rw [List.flatMap_cons, applyAll_append]
    refine ⟨HoldsThroughout.append (hkill.mono ?_) (hkill'.mono ?_), hinv'⟩
    · rintro e (he | he)
      · exact ⟨0, by simp, by simpa using he⟩
      · exact ⟨1, by simp, by simpa using he⟩
    · rintro e ⟨n, hn, he⟩
      exact ⟨n + 1, by simp; omega, by simpa using he⟩

theorem lookup_removeAll {old : List SegmentData} (h : ∀ x ∈ old, f.base ≠ x.base) :
    (applyAll d (old.flatMap fun x => removeOps x.base)).lookup f = d.lookup f := by
  induction old generalizing d with
  | nil => rfl
  | cons x old ih =>
    rw [List.flatMap_cons, applyAll_append, ih fun y hy => h y (List.mem_cons_of_mem _ hy)]
    exact lookup_removeOps (h x (by simp))

theorem forall₂_flatMap_removeOps {closed : List LogSegment}
    (h : List.Forall₂ ClosedMatch closed pre) :
    ((closed.map Partition.candidate).flatMap fun c => removeOps c.baseOffset) =
      pre.flatMap fun x => removeOps x.base := by
  induction h with
  | nil => rfl
  | cons hm _ ih =>
    simp only [List.map_cons, List.flatMap_cons, ih, Partition.candidate, hm.1.base]

theorem deletableCount_lt {p : Partition} (h : 0 < p.segments.length)
    (retentionMs retentionBytes : UInt64) (nowMs : Int64) :
    p.deletableCount retentionMs retentionBytes nowMs < p.segments.length := by
  have hcap : ∀ count : ℕ,
      (if p.segments.length ≤ count then p.segments.length - 1 else count) <
        p.segments.length := by
    intro count
    split <;> omega
  exact hcap _

/-- The oldest `n` closed segments are gone, at a kill perhaps fewer of them. -/
structure Retained (p p' : Partition) (fs : FileSystem) (ops : List (FileOp FileName))
    (pre : List SegmentData) (s : SegmentData) (n : ℕ) : Prop where
  le : n ≤ pre.length
  inv : PartInv p' (applyAll fs.dir ops) (pre.drop n) s
  next : p'.nextOffset = p.nextOffset
  config : p'.config = p.config
  kills : HoldsThroughout (fun e => ∃ m, m ≤ n ∧ DiskInv e (pre.drop m ++ [s]) []) fs.dir ops

theorem Retained.none (h : PartInv p fs.dir pre s) : Retained p p fs [] pre s 0 where
  le := Nat.zero_le _
  inv := by simpa using h
  next := rfl
  config := rfl
  kills := HoldsThroughout.nil ⟨0, le_refl _, by simpa using h.disk⟩

/-- **A retention pass** drops some `n` closed segments from the front. -/
theorem scanAndDeleteSegments_spec (h : PartInv p fs.dir pre s)
    (retentionMs retentionBytes : UInt64) (dryRun : Bool) (nowMs : Int64) :
    ∃ cs p' ops n, p.scanAndDeleteSegments retentionMs retentionBytes dryRun nowMs fs =
        (cs, p', fs.execAll ops) ∧ Retained p p' fs ops pre s n := by
  obtain ⟨closed, active, hsegs, hclosed, hactive⟩ := h.segments
  have hlen := hclosed.length_eq
  -- every early return leaves the partition as it is
  have hsame : ∀ cs : List Partition.DeletionCandidate, ∃ cs' p' ops n,
      (cs, p, fs) = (cs', p', fs.execAll ops) ∧ Retained p p' fs ops pre s n :=
    fun cs => ⟨cs, p, [], 0, by rw [Fs.execAll_nil], Retained.none h⟩
  unfold Partition.scanAndDeleteSegments
  split
  · exact hsame _
  dsimp only
  split
  · exact hsame _
  split
  · exact hsame _
  set n := p.deletableCount retentionMs retentionBytes nowMs
  have hnle : n ≤ pre.length := by
    have hcount : p.segments.length = pre.length + 1 := by simp [hsegs, hlen]
    have hlt := deletableCount_lt (by omega) retentionMs retentionBytes nowMs (p := p)
    omega
  have htake : p.segments.take n = closed.take n := by
    rw [hsegs, List.take_append_of_le_length (by omega)]
  have hdrop : p.segments.drop n = closed.drop n ++ [active] := by
    rw [hsegs, List.drop_append_of_le_length (by omega)]
  have hops := forall₂_flatMap_removeOps (List.forall₂_take n hclosed)
  have hsplit : pre.take n ++ pre.drop n = pre := List.take_append_drop n pre
  obtain ⟨hkill, hinv⟩ := @holdsThroughout_removeAll s (pre.take n) fs.dir (pre.drop n)
    (by rw [hsplit]; exact h.disk)
  obtain ⟨⟨start, hchain⟩, -⟩ := diskInv_snoc.mp h.disk
  have hother : ∀ x ∈ pre.take n, (⟨s.base, .index⟩ : FileName).base ≠ x.base := by
    intro x hx heq
    exact UInt64.ne_of_lt (base_lt_of_mem hchain (List.mem_of_mem_take hx)) heq.symm
  refine ⟨(p.segments.take n).map Partition.candidate, { p with segments := p.segments.drop n },
    ((pre.take n).flatMap fun x => removeOps x.base) ++ [.flushDir], n, ?_, hnle,
    ⟨?_, ⟨closed.drop n, active, hdrop, List.forall₂_drop n hclosed, ?_⟩, h.next⟩, rfl, rfl, ?_⟩
  · rw [foldl_removeFiles_eq, htake, hops, Fs.exec_eq_execAll, Fs.execAll_execAll]
  · rw [applyAll_append]
    exact hinv
  · refine ⟨hactive.toSegMatch, hactive.unsealed, ?_, hactive.first⟩
    rw [applyAll_append]
    exact (lookup_removeAll hother).trans hactive.indexFile
  · have hkill' := hkill.mono (Q := fun e => ∃ m, m ≤ n ∧ DiskInv e (pre.drop m ++ [s]) []) (by
      rintro e ⟨m, hm, he⟩
      rw [hsplit] at he
      rw [List.length_take] at hm
      exact ⟨m, by omega, he⟩)
    exact hkill'.append (HoldsThroughout.cons (by simp) hkill'.final
      (HoldsThroughout.nil hkill'.final))

end StreamForge
