import StreamForge.Storage.Partition
import StreamForge.Storage.SegmentScan

/-!
# What a partition directory holds

The abstract view of a partition directory: a list of segments, each a base
offset with its records (`SegmentData`), whose offsets run on without a gap
from the first record of the first segment (`Chained`).

`DiskInv d segs tail` connects it to the files. It is what holds at *every*
point at which the process can die, so it says little about the files that
recovery rebuilds. Each file operation the broker issues keeps it, possibly
changing the abstract view.
-/

namespace StreamForge

open FileTrace FileHandle

/-! ## The abstract view -/

structure SegmentData where
  base : UInt64
  records : List Record

def flat (segs : List SegmentData) : List Record := segs.flatMap SegmentData.records

@[simp] theorem flat_nil : flat [] = [] := rfl

@[simp] theorem flat_append (a b : List SegmentData) : flat (a ++ b) = flat a ++ flat b := by
  simp [flat]

@[simp] theorem flat_singleton (s : SegmentData) : flat [s] = s.records := by
  simp [flat]

/-- Every segment begins where the one before it ends, and only the last may
be empty. -/
def Chained : ℕ → List SegmentData → Prop
  | _, [] => True
  | start, s :: rest =>
    s.base.toNat = start ∧ Consecutive start s.records ∧ (rest ≠ [] → s.records ≠ []) ∧
      Chained (start + s.records.length) rest

variable {start : ℕ} {pre segs : List SegmentData} {s x : SegmentData} {d d' : Disk} {tail : Bytes}
    {base : UInt64}

theorem chained_snoc :
    Chained start (pre ++ [s]) ↔
      Chained start pre ∧ (∀ x ∈ pre, x.records ≠ []) ∧ s.base.toNat = start + (flat pre).length ∧
        Consecutive (start + (flat pre).length) s.records := by
  induction pre generalizing start with
  | nil => simp [Chained]
  | cons a pre ih =>
    have hlen : start + (flat (a :: pre)).length =
        start + a.records.length + (flat pre).length := by
      simp [flat, Nat.add_assoc]
    simp only [List.cons_append, Chained, ih, List.mem_cons, forall_eq_or_imp, hlen]
    constructor
    · rintro ⟨hb, hc, hne, hpre, hall, hlast⟩
      exact ⟨⟨hb, hc, fun _ => hne (by simp), hpre⟩, ⟨hne (by simp), hall⟩, hlast⟩
    · rintro ⟨⟨hb, hc, -, hpre⟩, ⟨hne, hall⟩, hlast⟩
      exact ⟨hb, hc, fun _ => hne, hpre, hall, hlast⟩

theorem Chained.drop (h : Chained start segs) (n : ℕ) :
    Chained (start + (flat (segs.take n)).length) (segs.drop n) := by
  induction segs generalizing start n with
  | nil => simp [Chained]
  | cons s rest ih =>
    cases n with
    | zero => simpa using h
    | succ n =>
      obtain ⟨-, -, -, hrest⟩ := h
      have hlen : start + (flat ((s :: rest).take (n + 1))).length =
          start + s.records.length + (flat (rest.take n)).length := by
        simp [flat, Nat.add_assoc]
      rw [hlen, List.drop_succ_cons]
      exact ih hrest n

theorem Chained.consecutive (h : Chained start segs) : Consecutive start (flat segs) := by
  induction segs generalizing start with
  | nil => exact Consecutive.nil start
  | cons s rest ih =>
    obtain ⟨-, hc, -, hrest⟩ := h
    intro i r hr
    simp only [flat, List.flatMap_cons] at hr
    by_cases hi : i < s.records.length
    · rw [List.getElem?_append_left hi] at hr
      exact hc i r hr
    · rw [List.getElem?_append_right (by omega)] at hr
      have := ih hrest _ r hr
      omega

theorem Chained.bases_sorted (h : Chained start segs) :
    (segs.map SegmentData.base).Pairwise (· < ·) ∧ ∀ s ∈ segs, start ≤ s.base.toNat := by
  induction segs generalizing start with
  | nil => simp
  | cons s rest ih =>
    obtain ⟨hb, -, hne, hrest⟩ := h
    obtain ⟨hsorted, hge⟩ := ih hrest
    refine ⟨List.pairwise_cons.mpr ⟨?_, hsorted⟩, ?_⟩
    · intro b hmem
      obtain ⟨x, hx, rfl⟩ := List.mem_map.mp hmem
      have hpos : 0 < s.records.length := List.length_pos_iff.mpr (hne (List.ne_nil_of_mem hx))
      have := hge x hx
      exact UInt64.lt_iff_toNat_lt.mpr (by omega)
    · intro x hx
      rcases List.mem_cons.mp hx with rfl | hx
      · omega
      · have := hge x hx
        omega

/-! ## The files -/

structure SegFiles (d : Disk) (s : SegmentData) (tail : Bytes) : Prop where
  log : d.lookup ⟨s.base, .log⟩ = some (encodeAll s.records ++ tail)
  fits : ∀ r ∈ s.records, r.Fits
  len : (encodeAll s.records ++ tail).length < 2 ^ 32

/-- A segment that is no longer written to. Once its marker exists a quick
startup trusts its index file. -/
structure ClosedFiles (d : Disk) (s : SegmentData) : Prop where
  files : SegFiles d s []
  index : d.lookup ⟨s.base, .sealed⟩ ≠ none →
    IndexSound s.records (OffsetIndex.loadEntries ((d.lookup ⟨s.base, .index⟩).getD []))

/-- An index file without a byte in it. A power loss in the middle of a roll can
leave the index of a segment whose log it took. -/
def Stray (d : Disk) (f : FileName) : Prop :=
  f.kind = .index ∧ d.lookup f = some []

theorem Stray.frame {f : FileName} (h : Stray d f) (hsame : d'.lookup f = d.lookup f) :
    Stray d' f :=
  ⟨h.1, hsame.trans h.2⟩

/-- **The directory invariant.** -/
structure DiskInv (d : Disk) (segs : List SegmentData) (tail : Bytes) : Prop where
  chained : ∃ start, Chained start segs
  listing : ∀ b, d.lookup ⟨b, .log⟩ ≠ none ↔ b ∈ segs.map SegmentData.base
  closed : ∀ s ∈ segs.dropLast, ClosedFiles d s
  active : ∀ s, segs.getLast? = some s → SegFiles d s tail ∧ d.lookup ⟨s.base, .sealed⟩ = none
  torn : Torn tail
  /-- Files that retention left behind are older than the active segment. -/
  recent : ∀ f, d.lookup f ≠ none → ∃ s, segs.getLast? = some s ∧ (f.base ≤ s.base ∨ Stray d f)

theorem DiskInv.empty : DiskInv ∅ [] [] where
  chained := ⟨0, trivial⟩
  listing := by simp
  closed := by simp
  active := by simp
  torn := Torn.nil
  recent := by simp

theorem listBaseOffsets_sorted (d : Disk) : (Partition.listBaseOffsets d).Pairwise (· < ·) := by
  set logs := (d.keys.filter fun f => f.kind = .log).map FileName.base
  have hperm : (logs.insertionSort (· ≤ ·)).Perm logs := List.perm_insertionSort _ _
  have hnodup : logs.Nodup := by
    refine List.Nodup.map_on ?_ (List.Nodup.filter _ (AList.keys_nodup d))
    rintro ⟨a, ka⟩ ha ⟨b, kb⟩ hb hab
    simp only [List.mem_filter, decide_eq_true_eq] at ha hb hab
    rw [ha.2, hb.2, hab]
  have hle : (logs.insertionSort (· ≤ ·)).Pairwise (· ≤ ·) := by
    have : @Std.Total UInt64 (· ≤ ·) := ⟨fun a b => UInt64.le_total a b⟩
    have : IsTrans UInt64 (· ≤ ·) := ⟨fun _ _ _ => UInt64.le_trans⟩
    exact List.pairwise_insertionSort _ _
  refine (hle.and (hperm.nodup_iff.mpr hnodup)).imp ?_
  rintro a b ⟨hab, hne⟩
  exact UInt64.lt_of_le_of_ne hab hne

theorem mem_listBaseOffsets {base : UInt64} :
    base ∈ Partition.listBaseOffsets d ↔ (d.lookup ⟨base, .log⟩).isSome = true := by
  unfold Partition.listBaseOffsets
  rw [(List.perm_insertionSort _ _).mem_iff, AList.lookup_isSome]
  simp only [List.mem_map, List.mem_filter, decide_eq_true_eq]
  constructor
  · rintro ⟨⟨x, k⟩, ⟨hx, rfl⟩, rfl⟩
    exact hx
  · intro hb
    exact ⟨⟨base, .log⟩, ⟨hb, rfl⟩, rfl⟩

/-- **The listing of a directory** is the list of base offsets: recovery sorts
what it finds, and there is only one sorted list with those members. -/
theorem DiskInv.listBaseOffsets (h : DiskInv d segs tail) :
    Partition.listBaseOffsets d = segs.map SegmentData.base := by
  obtain ⟨start, hchain⟩ := h.chained
  refine List.Pairwise.eq_of_mem_iff (listBaseOffsets_sorted d) hchain.bases_sorted.1 ?_
  intro b
  rw [mem_listBaseOffsets, ← h.listing b, Option.isSome_iff_ne_none]

/-! ## File operations and the invariant -/

theorem diskInv_snoc :
    DiskInv d (pre ++ [s]) tail ↔ (∃ start, Chained start (pre ++ [s])) ∧
      (∀ b, d.lookup ⟨b, .log⟩ ≠ none ↔ b ∈ pre.map SegmentData.base ∨ b = s.base) ∧
      (∀ x ∈ pre, ClosedFiles d x) ∧ SegFiles d s tail ∧ d.lookup ⟨s.base, .sealed⟩ = none ∧
      Torn tail ∧ ∀ f, d.lookup f ≠ none → f.base ≤ s.base ∨ Stray d f := by
  constructor
  · intro h
    obtain ⟨hfiles, hsealed⟩ := h.active s (by simp)
    refine ⟨h.chained, ?_, ?_, hfiles, hsealed, h.torn, ?_⟩
    · intro b
      simpa using h.listing b
    · intro x hx
      exact h.closed x (by simpa using hx)
    · intro f hf
      obtain ⟨x, hx, hle⟩ := h.recent f hf
      rw [List.getLast?_concat] at hx
      cases hx
      exact hle
  · rintro ⟨hchain, hlist, hclosed, hfiles, hsealed, htorn, hrecent⟩
    refine ⟨hchain, ?_, ?_, ?_, htorn, ?_⟩
    · intro b
      simpa using hlist b
    · intro x hx
      exact hclosed x (by simpa using hx)
    · intro x hx
      rw [List.getLast?_concat] at hx
      cases hx
      exact ⟨hfiles, hsealed⟩
    · intro f hf
      exact ⟨s, by simp, hrecent f hf⟩

theorem ClosedFiles.frame (h : ClosedFiles d x)
    (hsame : ∀ k, d'.lookup ⟨x.base, k⟩ = d.lookup ⟨x.base, k⟩) : ClosedFiles d' x where
  files := ⟨by rw [hsame]; exact h.files.log, h.files.fits, h.files.len⟩
  index := by
    rw [hsame, hsame]
    exact h.index

theorem base_lt_of_mem (h : Chained start (pre ++ [s])) (hx : x ∈ pre) : x.base < s.base := by
  have hsorted := h.bases_sorted.1
  rw [List.map_append] at hsorted
  exact (List.pairwise_append.mp hsorted).2.2 _ (List.mem_map_of_mem hx) _ (by simp)

/-- **Writing the active log**: the file changes to `rs` and a torn tail, and
nothing else does. Appends, torn appends and the cut of a torn tail are all of
this form. -/
theorem DiskInv.setActive {tail' : Bytes} {rs : List Record} (h : DiskInv d (pre ++ [s]) tail)
    (hlog : d'.lookup ⟨s.base, .log⟩ = some (encodeAll rs ++ tail'))
    (hsame : ∀ f, f ≠ ⟨s.base, .log⟩ → d'.lookup f = d.lookup f)
    (hcons : Consecutive s.base.toNat rs) (hfits : ∀ r ∈ rs, r.Fits)
    (hlen : (encodeAll rs ++ tail').length < 2 ^ 32) (htorn : Torn tail') :
    DiskInv d' (pre ++ [⟨s.base, rs⟩]) tail' := by
  obtain ⟨⟨start, hchain⟩, hlist, hclosed, hfiles, hsealed, -, hrecent⟩ := diskInv_snoc.mp h
  refine diskInv_snoc.mpr ⟨⟨start, ?_⟩, ?_, ?_, ⟨hlog, hfits, hlen⟩, ?_, htorn, ?_⟩
  · obtain ⟨hpre, hne, hbase, -⟩ := chained_snoc.mp hchain
    exact chained_snoc.mpr ⟨hpre, hne, hbase, hbase ▸ hcons⟩
  · intro b
    rw [← hlist b]
    by_cases hb : b = s.base
    · subst hb
      simp [hlog, hfiles.log]
    · rw [hsame _ (by simpa using hb)]
  · intro x hx
    have hlt := base_lt_of_mem hchain hx
    refine (hclosed x hx).frame fun k => hsame _ ?_
    intro heq
    exact UInt64.ne_of_lt hlt (congrArg FileName.base heq)
  · rw [hsame _ (by simp)]
    exact hsealed
  · intro f hf
    by_cases hfs : f = ⟨s.base, .log⟩
    · subst hfs
      exact Or.inl (UInt64.le_refl _)
    · rw [hsame f hfs] at hf
      exact (hrecent f hf).imp_right fun hstray => hstray.frame (hsame f hfs)

/-- **Writing index files**: anything goes, as long as the indexes a quick
startup would trust stay sound and no entry appears beyond the active segment. -/
theorem DiskInv.setIndex (h : DiskInv d (pre ++ [s]) tail)
    (hsame : ∀ f, f.kind ≠ .index → d'.lookup f = d.lookup f)
    (hindex : ∀ x ∈ pre, d.lookup ⟨x.base, .sealed⟩ ≠ none →
      IndexSound x.records (OffsetIndex.loadEntries ((d'.lookup ⟨x.base, .index⟩).getD [])))
    (hnew : ∀ b, d'.lookup ⟨b, .index⟩ ≠ none → b ≤ s.base ∨ d'.lookup ⟨b, .index⟩ = some []) :
    DiskInv d' (pre ++ [s]) tail := by
  obtain ⟨hchain, hlist, hclosed, hfiles, hsealed, htorn, hrecent⟩ := diskInv_snoc.mp h
  refine diskInv_snoc.mpr ⟨hchain, ?_, ?_, ⟨?_, hfiles.fits, hfiles.len⟩, ?_, htorn, ?_⟩
  · intro b
    rw [hsame _ (by simp), hlist b]
  · intro x hx
    refine ⟨⟨?_, (hclosed x hx).files.fits, (hclosed x hx).files.len⟩, ?_⟩
    · rw [hsame _ (by simp)]
      exact (hclosed x hx).files.log
    · rw [hsame _ (by simp)]
      exact hindex x hx
  · rw [hsame _ (by simp)]
    exact hfiles.log
  · rw [hsame _ (by simp)]
    exact hsealed
  · rintro ⟨b, k⟩ hf
    cases k with
    | index => exact (hnew b hf).imp_right fun hempty => ⟨rfl, hempty⟩
    | log =>
      rw [hsame _ (by simp)] at hf
      exact (hrecent _ hf).imp_right fun hstray => hstray.frame (hsame _ (by simp))
    | sealed =>
      rw [hsame _ (by simp)] at hf
      exact (hrecent _ hf).imp_right fun hstray => hstray.frame (hsame _ (by simp))

/-- **Writing the marker of a closed segment** whose index file is sound. -/
theorem DiskInv.setSealed (h : DiskInv d (pre ++ [s]) tail) (hx : x ∈ pre)
    (hsame : ∀ f, f ≠ ⟨x.base, .sealed⟩ → d'.lookup f = d.lookup f)
    (hindex : IndexSound x.records (OffsetIndex.loadEntries
      ((d.lookup ⟨x.base, .index⟩).getD []))) :
    DiskInv d' (pre ++ [s]) tail := by
  obtain ⟨⟨start, hchain⟩, hlist, hclosed, hfiles, hsealed, htorn, hrecent⟩ := diskInv_snoc.mp h
  have hlt := base_lt_of_mem hchain hx
  refine diskInv_snoc.mpr ⟨⟨start, hchain⟩, ?_, ?_, ⟨?_, hfiles.fits, hfiles.len⟩, ?_, htorn, ?_⟩
  · intro b
    rw [hsame _ (by simp), hlist b]
  · intro y hy
    refine ⟨⟨?_, (hclosed y hy).files.fits, (hclosed y hy).files.len⟩, ?_⟩
    · rw [hsame _ (by simp)]
      exact (hclosed y hy).files.log
    · intro hmarker
      rw [hsame _ (by simp)]
      by_cases hyx : y.base = x.base
      · -- bases determine segments
        obtain rfl : y = x := by
          have hinj := List.inj_on_of_nodup_map
            ((chained_snoc.mp hchain).1.bases_sorted.1.imp UInt64.ne_of_lt)
          exact hinj hy hx hyx
        exact hindex
      · rw [hsame _ (by simpa using hyx)] at hmarker
        exact (hclosed y hy).index hmarker
  · rw [hsame _ (by simp)]
    exact hfiles.log
  · rw [hsame _ ?_]
    · exact hsealed
    · intro heq
      exact UInt64.ne_of_lt hlt (congrArg FileName.base heq).symm
  · intro f hf
    by_cases hfx : f = ⟨x.base, .sealed⟩
    · subst hfx
      exact Or.inl (UInt64.le_of_lt hlt)
    · rw [hsame f hfx] at hf
      exact (hrecent f hf).imp_right fun hstray => hstray.frame (hsame f hfx)

/-- **A new active segment** behind a non-empty one. From here on the old one
counts as closed, although it has no marker yet. -/
theorem DiskInv.newSegment (h : DiskInv d (pre ++ [s]) []) (hne : s.records ≠ [])
    (hbase : base.toNat = s.base.toNat + s.records.length) (hlog : d'.lookup ⟨base, .log⟩ = some [])
    (hsame : ∀ f, f ≠ ⟨base, .log⟩ → d'.lookup f = d.lookup f) :
    DiskInv d' ((pre ++ [s]) ++ [⟨base, []⟩]) [] := by
  obtain ⟨⟨start, hchain⟩, hlist, hclosed, hfiles, hsealed, -, hrecent⟩ := diskInv_snoc.mp h
  have hpos : 0 < s.records.length := List.length_pos_iff.mpr hne
  have hlt : s.base < base := UInt64.lt_iff_toNat_lt.mpr (by omega)
  have hbelow : ∀ f, d.lookup f ≠ none → f.base < base ∨ Stray d f := fun f hf =>
    (hrecent f hf).imp_left fun hle => UInt64.lt_of_le_of_lt hle hlt
  -- the closed segments all have smaller bases, so their files are untouched
  have hkeep : ∀ b, b < base → ∀ k, d'.lookup ⟨b, k⟩ = d.lookup ⟨b, k⟩ := by
    intro b hb k
    refine hsame _ ?_
    intro heq
    exact UInt64.ne_of_lt hb (congrArg FileName.base heq)
  obtain ⟨hpre, hpne, hsbase, hscons⟩ := chained_snoc.mp hchain
  refine diskInv_snoc.mpr ⟨⟨start, ?_⟩, ?_, ?_, ⟨?_, by simp, by simp⟩, ?_, Torn.nil, ?_⟩
  · refine chained_snoc.mpr ⟨hchain, ?_, ?_, Consecutive.nil _⟩
    · intro x hx
      rcases List.mem_append.mp hx with hx | hx
      · exact hpne x hx
      · rw [List.mem_singleton.mp hx]
        exact hne
    · simp only [flat_append, flat_singleton, List.length_append]
      omega
  · intro b
    by_cases hb : b = base
    · subst hb
      simp [hlog]
    · rw [hsame _ (by simpa using hb), hlist b]
      simp [hb]
  · intro x hx
    rcases List.mem_append.mp hx with hx | hx
    · have hxb := UInt64.lt_trans (base_lt_of_mem hchain hx) hlt
      exact (hclosed x hx).frame (hkeep _ hxb)
    · rw [List.mem_singleton.mp hx]
      have hcl : ClosedFiles d s := ⟨hfiles, fun hmarker => absurd hsealed hmarker⟩
      exact hcl.frame (hkeep _ hlt)
  · simpa using hlog
  · rw [hsame _ (by simp)]
    by_contra hold
    rcases hbelow _ hold with hlow | ⟨hkind, -⟩
    · exact UInt64.lt_irrefl _ hlow
    · exact absurd hkind (by simp)
  · intro f hf
    by_cases hfb : f = ⟨base, .log⟩
    · subst hfb
      exact Or.inl (UInt64.le_refl _)
    · rw [hsame f hfb] at hf
      exact (hbelow f hf).imp UInt64.le_of_lt fun hstray => hstray.frame (hsame f hfb)

/-- No segment at all. The index file of the first one may be there: a power loss
may have taken the log it belongs to. -/
def Blank (d : Disk) (base : UInt64) : Prop :=
  ∀ f, d.lookup f ≠ none → f = ⟨base, .index⟩ ∨ Stray d f

theorem Blank.lookup_none (h : Blank d base) {f : FileName} (hf : f.kind ≠ .index) :
    d.lookup f = none := by
  by_contra hsome
  rcases h f hsome with rfl | ⟨hkind, -⟩
  · exact hf rfl
  · exact hf hkind

theorem DiskInv.blank (h : DiskInv d [] []) (base : UInt64) : Blank d base := by
  intro f hf
  obtain ⟨s, hs, -⟩ := h.recent f hf
  simp at hs

theorem Blank.firstSegment (h : Blank d base) (hlog : d'.lookup ⟨base, .log⟩ = some [])
    (hsame : ∀ f, f ≠ ⟨base, .log⟩ → d'.lookup f = d.lookup f) :
    DiskInv d' [⟨base, []⟩] [] := by
  rw [← List.nil_append [(⟨base, []⟩ : SegmentData)]]
  refine diskInv_snoc.mpr ⟨⟨base.toNat, ?_⟩, ?_, by simp, ⟨?_, by simp, by simp⟩, ?_, Torn.nil, ?_⟩
  · exact chained_snoc.mpr ⟨trivial, by simp, by simp, Consecutive.nil _⟩
  · intro b
    by_cases hb : b = base
    · subst hb
      simp [hlog]
    · rw [hsame _ (by simpa using hb), h.lookup_none (by simp)]
      simp [hb]
  · simpa using hlog
  · rw [hsame _ (by simp), h.lookup_none (by simp)]
  · intro f hf
    by_cases hfb : f = ⟨base, .log⟩
    · subst hfb
      exact Or.inl (UInt64.le_refl _)
    · rw [hsame f hfb] at hf
      rcases h f hf with rfl | hstray
      · exact Or.inl (UInt64.le_refl _)
      · exact Or.inr (hstray.frame (hsame f hfb))

/-- **Removing the oldest log** removes the oldest segment. -/
theorem DiskInv.removeLog {mid : List SegmentData} (h : DiskInv d (x :: mid ++ [s]) tail)
    (hlog : d'.lookup ⟨x.base, .log⟩ = none)
    (hsame : ∀ f, f ≠ ⟨x.base, .log⟩ → d'.lookup f = d.lookup f) :
    DiskInv d' (mid ++ [s]) tail := by
  obtain ⟨⟨start, hchain⟩, hlist, hclosed, hfiles, hsealed, htorn, hrecent⟩ := diskInv_snoc.mp h
  have hsorted : ∀ y ∈ mid ++ [s], x.base < y.base := by
    intro y hy
    have hpair := hchain.bases_sorted.1
    rw [List.cons_append, List.map_cons] at hpair
    exact (List.pairwise_cons.mp hpair).1 _ (List.mem_map_of_mem hy)
  have hkeep : ∀ y ∈ mid ++ [s], ∀ k, d'.lookup ⟨y.base, k⟩ = d.lookup ⟨y.base, k⟩ := by
    intro y hy k
    refine hsame _ ?_
    intro heq
    exact UInt64.ne_of_lt (hsorted y hy) (congrArg FileName.base heq).symm
  have hchain' := hchain.drop 1
  rw [List.cons_append, List.drop_succ_cons, List.drop_zero] at hchain'
  refine diskInv_snoc.mpr ⟨⟨_, hchain'⟩, ?_, ?_, ⟨?_, hfiles.fits, hfiles.len⟩, ?_, htorn, ?_⟩
  · intro b
    by_cases hb : b = x.base
    · subst hb
      refine ⟨fun hf => absurd hlog hf, fun hmem => ?_⟩
      have hex : ∃ y ∈ mid ++ [s], y.base = x.base := by
        rcases hmem with hmem | hmem
        · obtain ⟨y, hy, hyb⟩ := List.mem_map.mp hmem
          exact ⟨y, List.mem_append_left _ hy, hyb⟩
        · exact ⟨s, by simp, hmem.symm⟩
      obtain ⟨y, hy, hyb⟩ := hex
      exact absurd hyb.symm (UInt64.ne_of_lt (hsorted y hy))
    · rw [hsame _ (by simpa using hb), hlist b]
      simp [hb]
  · intro y hy
    exact (hclosed y (List.mem_cons_of_mem _ hy)).frame (hkeep y (List.mem_append_left _ hy))
  · rw [hkeep s (by simp)]
    exact hfiles.log
  · rw [hkeep s (by simp)]
    exact hsealed
  · intro f hf
    by_cases hfx : f = ⟨x.base, .log⟩
    · exact absurd hlog (hfx ▸ hf)
    · rw [hsame f hfx] at hf
      exact (hrecent f hf).imp_right fun hstray => hstray.frame (hsame f hfx)

theorem DiskInv.removeOrphan {g : FileName} (h : DiskInv d (pre ++ [s]) tail)
    (hg : g.base ∉ (pre ++ [s]).map SegmentData.base) (hgone : d'.lookup g = none)
    (hsame : ∀ f, f ≠ g → d'.lookup f = d.lookup f) : DiskInv d' (pre ++ [s]) tail := by
  obtain ⟨hchain, hlist, hclosed, hfiles, hsealed, htorn, hrecent⟩ := diskInv_snoc.mp h
  have hkeep : ∀ y ∈ pre ++ [s], ∀ k, d'.lookup ⟨y.base, k⟩ = d.lookup ⟨y.base, k⟩ := by
    intro y hy k
    refine hsame _ ?_
    intro heq
    exact hg (heq ▸ List.mem_map_of_mem hy)
  refine diskInv_snoc.mpr ⟨hchain, ?_, ?_, ⟨?_, hfiles.fits, hfiles.len⟩, ?_, htorn, ?_⟩
  · intro b
    by_cases hb : (⟨b, .log⟩ : FileName) = g
    · have hbase : b = g.base := congrArg FileName.base hb
      rw [hb, hgone]
      simp only [ne_eq, not_true_eq_false, false_iff]
      simpa [hbase] using hg
    · rw [hsame _ hb, hlist b]
  · intro y hy
    exact (hclosed y hy).frame (hkeep y (List.mem_append_left _ hy))
  · rw [hkeep s (by simp)]
    exact hfiles.log
  · rw [hkeep s (by simp)]
    exact hsealed
  · intro f hf
    by_cases hfg : f = g
    · exact absurd hgone (hfg ▸ hf)
    · rw [hsame f hfg] at hf
      exact (hrecent f hf).imp_right fun hstray => hstray.frame (hsame f hfg)

end StreamForge
