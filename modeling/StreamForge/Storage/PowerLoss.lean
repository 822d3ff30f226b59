import StreamForge.Storage.CrashConsistency
import StreamForge.Storage.FaultyAppend

/-!
# Power losses

A kill keeps every byte that was written. A power loss keeps only what was
flushed, and it cuts the files independently of one another, so it can reach
directories that no kill leaves.

The log of every closed segment and the flushed part of the active one are
secured (`Secured`). As long as the active segment is flushed before the next
one is created, what a power loss takes is then always the end of the log:
`Writing.powerLoss` while records are written, `PartInv.roll_safe` while a
segment is closed.
-/

namespace StreamForge

open FileTrace FileHandle Blocks

variable {rs old : List Record} {tail : Bytes} {d d' : Disk} {p : Partition}

theorem encodeAll_cut {bs : Bytes} (hfits : ∀ r ∈ rs, r.Fits) (htorn : Torn tail)
    (hbs : bs <+: encodeAll rs ++ tail) :
    ∃ k tail', bs = encodeAll (rs.take k) ++ tail' ∧ Torn tail' := by
  rcases Nat.le_total bs.length (encodeAll rs).length with hle | hle
  · have hcut : bs <+: encodeAll rs :=
      List.prefix_of_prefix_length_le hbs (List.prefix_append _ _) hle
    obtain ⟨m, t, -, rfl, hnil | ⟨r, hr, hpre, hlt⟩⟩ := prefix_cases RecordCodec.encode hcut
    · exact ⟨m, t, rfl, Or.inl hnil⟩
    · have hfit := hfits r (List.mem_of_getElem? hr)
      rw [RecordCodec.length_encode_of_fits hfit] at hlt
      exact ⟨m, t, rfl, Or.inr ⟨r, hfit, hpre, hlt⟩⟩
  · -- only the torn record is shorter
    obtain ⟨rest, rfl⟩ := List.prefix_of_prefix_length_le (List.prefix_append _ _) hbs hle
    have hrest : rest <+: tail := (List.prefix_append_right_inj _).mp hbs
    refine ⟨rs.length, rest, by rw [List.take_length], ?_⟩
    rcases htorn with rfl | ⟨r, hr, hpre, hlt⟩
    · exact Or.inl (List.prefix_nil.mp hrest)
    · exact Or.inr ⟨r, hr, hrest.trans hpre, Nat.lt_of_le_of_lt hrest.length_le hlt⟩

/-- **Losing what is not secured**: the closed logs are whole, the active one has
kept the records `rs`, and every other file has lost its end or is gone. A new
index file without a byte in it does no harm. -/
theorem DiskInv.lose {pre : List SegmentData} {s : SegmentData} {tail' : Bytes}
    (h : DiskInv d (pre ++ [s]) tail)
    (hclosedLog : ∀ x ∈ pre, d'.lookup ⟨x.base, .log⟩ = d.lookup ⟨x.base, .log⟩)
    (hlog : d'.lookup ⟨s.base, .log⟩ = some (encodeAll rs ++ tail')) (hrs : rs <+: s.records)
    (hlen : (encodeAll rs ++ tail').length < 2 ^ 32) (htorn : Torn tail')
    (hrest : ∀ f, d'.lookup f = none ∨ (∃ c n, d.lookup f = some c ∧
      d'.lookup f = some (c.take n)) ∨ Stray d' f) :
    DiskInv d' (pre ++ [⟨s.base, rs⟩]) tail' := by
  obtain ⟨⟨start, hchain⟩, hlist, hclosed, hfiles, hsealed, -, hrecent⟩ := diskInv_snoc.mp h
  have hold : ∀ f, f.kind ≠ .index → d'.lookup f ≠ none → d.lookup f ≠ none := by
    intro f hkind hf
    rcases hrest f with hnone | ⟨c, n, hc, -⟩ | ⟨hindex, -⟩
    · exact absurd hnone hf
    · simp [hc]
    · exact absurd hindex hkind
  refine diskInv_snoc.mpr ⟨⟨start, ?_⟩, ?_, ?_, ⟨hlog, ?_, hlen⟩, ?_, htorn, ?_⟩
  · obtain ⟨hpre, hne, hbase, hcons⟩ := chained_snoc.mp hchain
    refine chained_snoc.mpr ⟨hpre, hne, hbase, ?_⟩
    rw [List.prefix_iff_eq_take.mp hrs]
    exact hcons.take _
  · intro b
    constructor
    · exact fun hb => (hlist b).mp (hold _ (by simp) hb)
    · rintro (hb | rfl)
      · obtain ⟨x, hx, rfl⟩ := List.mem_map.mp hb
        rw [hclosedLog x hx, (hclosed x hx).files.log]
        simp
      · simp [hlog]
  · intro x hx
    refine ⟨⟨(hclosedLog x hx).trans (hclosed x hx).files.log, (hclosed x hx).files.fits,
      (hclosed x hx).files.len⟩, ?_⟩
    intro hmarker
    have hsound := (hclosed x hx).index (hold _ (by simp) hmarker)
    rcases hrest ⟨x.base, .index⟩ with hnone | ⟨c, n, hc, hleft⟩ | ⟨-, hempty⟩
    · rw [hnone]
      exact IndexSound.nil _
    · rw [hc] at hsound
      rw [hleft, Option.getD_some, OffsetIndex.loadEntries_take]
      exact hsound.take _
    · rw [hempty]
      exact IndexSound.nil _
  · exact fun r hr => hfiles.fits r (hrs.subset hr)
  · by_contra hmarker
    exact hold _ (by simp) hmarker hsealed
  · intro f hf
    rcases hrest f with hnone | ⟨c, n, hc, hleft⟩ | hstray
    · exact absurd hnone hf
    · rcases hrecent f (by simp [hc]) with hle | ⟨hkind, hempty⟩
      · exact Or.inl hle
      · obtain rfl : c = [] := Option.some.inj (hc.symm.trans hempty)
        exact Or.inr ⟨hkind, by simpa using hleft⟩
    · exact Or.inr hstray

/-! ## Securing a partition -/

/-- No power loss takes a record of these segments. -/
def Secured (D : Durable FileName) (segs : List SegmentData) : Prop :=
  ∀ x ∈ segs, D.Keeps ⟨x.base, .log⟩ (encodeAll x.records)

section Writing

variable {D : Durable FileName} {d' : Disk} {pre : List SegmentData} {s : SegmentData}
  {new : List Record} {ops : List (FileOp FileName)}

theorem Writing.begins {e : Disk} (h : Writing pre s new e) {x : SegmentData}
    (hx : x ∈ pre ++ [s]) : Begins ⟨x.base, .log⟩ (encodeAll x.records) e := by
  obtain ⟨k, tail, hdisk⟩ := h
  obtain ⟨-, -, hclosed, hfiles, -, -, -⟩ := diskInv_snoc.mp hdisk
  rcases List.mem_append.mp hx with hx | hx
  · exact ⟨[], (hclosed x hx).files.log⟩
  · rw [List.mem_singleton.mp hx]
    refine ⟨encodeAll (new.take k) ++ tail, ?_⟩
    rw [hfiles.log, encodeAll_append, List.append_assoc]

theorem Secured.runAll (h : Secured D (pre ++ [s]))
    (hops : HoldsThroughout (Writing pre s new) D.dir ops) : Secured (D.runAll ops) (pre ++ [s]) :=
  fun x hx => (h x hx).runAll (hops.mono fun _ he => he.begins hx)

/-- **A power loss while `new` is written** behind a secured log. -/
theorem Writing.powerLoss (h : Writing pre s new D.dir) (hsec : Secured D (pre ++ [s]))
    (hloss : PowerLoss D d') : Writing pre s new d' := by
  obtain ⟨k, tail, hdisk⟩ := h
  obtain ⟨-, -, hclosed, hfiles, -, htorn, -⟩ := diskInv_snoc.mp hdisk
  have hlog : D.dir.lookup ⟨s.base, .log⟩ =
      some (encodeAll s.records ++ (encodeAll (new.take k) ++ tail)) := by
    rw [hfiles.log, encodeAll_append, List.append_assoc]
  obtain ⟨n, hleft⟩ := (hsec s (by simp)).powerLoss hloss hlog
  obtain ⟨j, tail', hcut, htorn'⟩ := encodeAll_cut
    (fun r hr => hfiles.fits r (List.mem_append_right _ hr)) htorn (List.take_prefix n _)
  have hrs : encodeAll (s.records ++ (new.take k).take j) ++ tail' =
      encodeAll s.records ++ (encodeAll (new.take k) ++ tail).take n := by
    rw [encodeAll_append, List.append_assoc, ← hcut]
  have hlen := hfiles.len
  refine ⟨min j k, tail', ?_⟩
  rw [← List.take_take]
  refine hdisk.lose ?_ (by rw [hrs]; exact hleft) ?_ ?_ htorn' ?_
  · intro x hx
    have hx' := (hclosed x hx).files.log
    obtain ⟨n', hn'⟩ := (hsec x (List.mem_append_left _ hx)).powerLoss hloss hx'
    rw [hn', hx', List.take_nil]
  · exact (List.prefix_append_right_inj _).mpr (List.take_prefix _ _)
  · simp only [encodeAll_append, List.length_append] at hlen
    rw [hrs, List.length_append, List.length_take, List.length_append]
    omega
  · intro f
    by_cases hf : d'.lookup f = none
    · exact Or.inl hf
    · obtain ⟨c, n, hc, -, hn⟩ := hloss.of_some hf
      exact Or.inr (Or.inl ⟨c, n, hc, hn⟩)

/-- Before the first flush nothing is sure, not even that there is a log. -/
theorem Writing.powerLoss_first (h : Writing [] ⟨0, []⟩ new D.dir) (hloss : PowerLoss D d') :
    Writing [] ⟨0, []⟩ new d' ∨ Blank d' 0 := by
  obtain ⟨k, tail, hdisk⟩ := h
  obtain ⟨-, -, -, hfiles, hsealed, htorn, hrecent⟩ := diskInv_snoc.mp hdisk
  have hrest : ∀ f, d'.lookup f ≠ none →
      ∃ c n, D.dir.lookup f = some c ∧ d'.lookup f = some (c.take n) := by
    intro f hf
    obtain ⟨c, n, hc, -, hn⟩ := hloss.of_some hf
    exact ⟨c, n, hc, hn⟩
  by_cases hlog : d'.lookup ⟨0, .log⟩ = none
  · right
    rintro ⟨b, kind⟩ hf
    obtain ⟨c, n, hc, hn⟩ := hrest _ hf
    rcases hrecent _ (by rw [hc]; simp) with hle | ⟨hkind, hempty⟩
    · obtain rfl : b = 0 := UInt64.le_zero_iff.mp hle
      cases kind with
      | log => exact absurd hlog hf
      | index => exact Or.inl rfl
      | sealed => exact absurd (hsealed.symm.trans hc) (by simp)
    · rw [hempty] at hc
      obtain rfl := Option.some.inj hc
      exact Or.inr ⟨hkind, by simpa using hn⟩
  · left
    obtain ⟨c, n, hc, hn⟩ := hrest _ hlog
    obtain rfl : encodeAll (new.take k) ++ tail = c := by
      have hfull := hfiles.log
      rw [hc] at hfull
      simpa using (Option.some.inj hfull).symm
    obtain ⟨j, tail', hcut, htorn'⟩ := encodeAll_cut hfiles.fits htorn (List.take_prefix n _)
    have hlen := hfiles.len
    refine ⟨min j k, tail', ?_⟩
    rw [← List.take_take]
    refine hdisk.lose (by simp) ?_ ?_ ?_ htorn' ?_
    · rw [hn]
      exact congrArg some hcut
    · simpa using List.take_prefix j _
    · simp only [List.nil_append] at hcut hlen ⊢
      rw [← hcut, List.length_take]
      omega
    · intro f
      by_cases hf : d'.lookup f = none
      · exact Or.inl hf
      · exact Or.inr (Or.inl (hrest f hf))

/-- Nothing can be lost but what is written from now on. The first segment of a
directory has nothing to lose while it is empty. -/
def Anchored (D : Durable FileName) (pre : List SegmentData) (s : SegmentData) : Prop :=
  Secured D (pre ++ [s]) ∨ pre = [] ∧ s = ⟨0, []⟩

/-- What a power loss leaves of a partition that held `old` and was writing
`new`. -/
def Salvaged (old new : List Record) (d : Disk) : Prop :=
  (∃ k, Holding 0 (old ++ new.take k) d) ∨ Blank d 0 ∧ old = []

/-- **Writes behind an anchored log** are safe: being able to recover from a kill
is enough. -/
theorem Anchored.safe (h : Anchored D pre s)
    (hchain : Chained 0 (pre ++ [⟨s.base, s.records ++ new⟩]))
    (hops : HoldsThroughout (Writing pre s new) D.dir ops) :
    SafeThroughout (Salvaged (flat (pre ++ [s])) new) D ops := by
  intro a ha d' hloss
  have hwriting : Writing pre s new (D.runAll a).dir := by
    rw [Durable.runAll_dir]
    exact hops _ (Killed.of_prefix ha _)
  rcases h with hsec | ⟨rfl, rfl⟩
  · have hleft := hwriting.powerLoss (hsec.runAll (hops.of_prefix ha)) hloss
    exact Or.inl (hleft.holding hchain)
  · rcases hwriting.powerLoss_first hloss with hleft | hblank
    · exact Or.inl (hleft.holding hchain)
    · exact Or.inr ⟨hblank, rfl⟩

end Writing

variable {D : Durable FileName}

theorem Blank.powerLoss {base : UInt64} (h : Blank D.dir base) (hloss : PowerLoss D d') :
    Blank d' base := by
  intro f hf
  obtain ⟨c, n, hc, -, hn⟩ := hloss.of_some hf
  rcases h f (by simp [hc]) with rfl | ⟨hkind, hempty⟩
  · exact Or.inl rfl
  · obtain rfl : c = [] := Option.some.inj (hc.symm.trans hempty)
    exact Or.inr ⟨hkind, by simpa using hn⟩

theorem Blank.safe {ops : List (FileOp FileName)} (h : Blank D.dir 0)
    (hops : HoldsThroughout (fun e => e = D.dir ∨ Recoverable [⟨0, []⟩] e) D.dir ops) :
    SafeThroughout (Salvaged [] []) D ops := by
  intro a ha d' hloss
  have hchain : Chained 0 ([] ++ [⟨0, []⟩]) :=
    chained_snoc.mpr ⟨trivial, by simp, rfl, Consecutive.nil _⟩
  rcases hops _ (Killed.of_prefix ha _) with heq | ⟨tail, hdisk⟩
  · refine Or.inr ⟨Blank.powerLoss ?_ hloss, rfl⟩
    rw [Durable.runAll_dir, heq]
    exact h
  · have hwriting : Writing [] ⟨0, []⟩ [] (D.runAll a).dir := by
      rw [Durable.runAll_dir]
      exact @DiskInv.writing _ [] ⟨0, []⟩ tail hdisk []
    rcases hwriting.powerLoss_first hloss with hleft | hblank
    · exact Or.inl (hleft.holding hchain)
    · exact Or.inr ⟨hblank, rfl⟩

section Roll

variable {p : Partition} {D : Durable FileName} {d' : Disk} {pre : List SegmentData}
  {s : SegmentData}

/-- **A power loss between the creation of a segment and the flush of the
directory** may take the new log, or leave its index alone. The old log is
whole, so nothing is missing between the two. -/
theorem DiskInv.lose_newSegment {d : Disk} {base : UInt64} (hold : DiskInv d (pre ++ [s]) [])
    (hnew : DiskInv D.dir ((pre ++ [s]) ++ [⟨base, []⟩]) []) (hsec : Secured D (pre ++ [s]))
    (hsame : ∀ f, f ≠ ⟨base, .log⟩ → f ≠ ⟨base, .index⟩ → D.dir.lookup f = d.lookup f)
    (hindex : (D.dir.lookup ⟨base, .index⟩).getD [] = []) (hloss : PowerLoss D d') :
    Recoverable (pre ++ [s]) d' ∨ Recoverable ((pre ++ [s]) ++ [⟨base, []⟩]) d' := by
  obtain ⟨-, -, hclosed, hfiles, -, -, -⟩ := diskInv_snoc.mp hnew
  obtain ⟨-, -, hclosed', hfiles', -, -, -⟩ := diskInv_snoc.mp hold
  -- the old logs are whole
  have hkept : ∀ x ∈ pre ++ [s], d'.lookup ⟨x.base, .log⟩ = some (encodeAll x.records) := by
    intro x hx
    obtain ⟨n, hn⟩ := (hsec x hx).powerLoss hloss (hclosed x hx).files.log
    rw [hn, List.take_nil, List.append_nil]
  by_cases hlog : d'.lookup ⟨base, .log⟩ = none
  · left
    refine ⟨[], hold.lose ?_ ?_ (List.prefix_refl _) hfiles'.len Torn.nil ?_⟩
    · intro x hx
      rw [hkept x (List.mem_append_left _ hx), (hclosed' x hx).files.log, List.append_nil]
    · rw [hkept s (by simp), List.append_nil]
    · intro f
      by_cases hf : d'.lookup f = none
      · exact Or.inl hf
      · obtain ⟨c, n, hc, -, hn⟩ := hloss.of_some hf
        by_cases hfi : f = ⟨base, .index⟩
        · subst hfi
          obtain rfl : c = [] := by simpa [hc] using hindex
          exact Or.inr (Or.inr ⟨rfl, by simpa using hn⟩)
        · have hfl : f ≠ ⟨base, .log⟩ := by
            rintro rfl
            exact hf hlog
          exact Or.inr (Or.inl ⟨c, n, (hsame f hfl hfi).symm.trans hc, hn⟩)
  · right
    obtain ⟨c, n, hc, -, hn⟩ := hloss.of_some hlog
    have hnil : c = [] := by
      have hempty := hfiles.log
      rw [hc] at hempty
      simpa using hempty
    subst hnil
    refine ⟨[], hnew.lose ?_ (by simpa using hn) (List.prefix_refl _) (by simp) Torn.nil ?_⟩
    · intro x hx
      rw [hkept x hx, (hclosed x hx).files.log, List.append_nil]
    · intro f
      by_cases hf : d'.lookup f = none
      · exact Or.inl hf
      · obtain ⟨c, n, hc, -, hn⟩ := hloss.of_some hf
        exact Or.inr (Or.inl ⟨c, n, hc, hn⟩)

/-- **A roll is safe when the old segment is flushed before it begins.** -/
theorem PartInv.roll_safe (h : PartInv p D.dir pre s) (hchain : Chained 0 (pre ++ [s]))
    (hne : s.records ≠ []) (hnext : p.nextOffset.toNat = s.base.toNat + s.records.length)
    (hsec : Secured D (pre ++ [s])) {closed : List LogSegment} {active : LogSegment}
    (hsegs : p.segments = closed ++ [active]) :
    SafeThroughout (Salvaged (flat (pre ++ [s])) []) D (p.rollOps active) ∧
      Secured (D.runAll (p.rollOps active)) ((pre ++ [s]) ++ [⟨p.nextOffset, []⟩]) := by
  set base := p.nextOffset
  set D1 := D.run (.create ⟨base, .log⟩) with hD1
  set D2 := D1.run (.create ⟨base, .index⟩) with hD2
  set D3 := D2.run .flushDir
  have hinv1 : DiskInv D1.dir ((pre ++ [s]) ++ [⟨base, []⟩]) [] := by
    rw [hD1, Durable.run_dir]
    exact h.newLog hne hnext
  obtain ⟨hinv2', hindex2, -⟩ := h.newFiles hne hnext
  have hdir2 : D2.dir = applyAll D.dir (p.newSegment base).openOps := by
    rw [hD2, Durable.run_dir, hD1, Durable.run_dir]
    rfl
  have hinv2 : DiskInv D2.dir ((pre ++ [s]) ++ [⟨base, []⟩]) [] := hdir2 ▸ hinv2'
  -- what was secured stays secured
  have hsec1 : Secured D1 (pre ++ [s]) := fun x hx =>
    (hsec x hx).run ((hinv1.writing []).begins (List.mem_append_left _ hx))
  have hsec2 : Secured D2 (pre ++ [s]) := fun x hx =>
    (hsec1 x hx).run ((hinv2.writing []).begins (List.mem_append_left _ hx))
  have hsec3 : Secured D3 ((pre ++ [s]) ++ [⟨base, []⟩]) := by
    intro x hx
    rcases List.mem_append.mp hx with hx | hx
    · exact (hsec2 x hx).run ((hinv2.writing []).begins (List.mem_append_left _ hx))
    · rw [List.mem_singleton.mp hx]
      obtain ⟨-, -, -, hfiles, -, -, -⟩ := diskInv_snoc.mp hinv2
      exact Durable.keeps_flushDir hfiles.log
  have hseal : HoldsThroughout (Writing (pre ++ [s]) ⟨base, []⟩ []) D3.dir
      (active.flushOps ++ (active.markerOps ++ (active.flushOps ++ [.flushDir]))) := by
    have hkills := h.kills_seal hne hnext hsegs
    rw [← hdir2] at hkills
    exact hkills.mono fun e he => he.writing []
  have hflat : flat ((pre ++ [s]) ++ [⟨base, []⟩]) = flat (pre ++ [s]) := by
    rw [flat_append, flat_singleton, List.append_nil]
  have hchain' := chained_next hchain hne hnext
  have hsalvage : ∀ e, Recoverable (pre ++ [s]) e ∨ Recoverable ((pre ++ [s]) ++ [⟨base, []⟩]) e →
      Salvaged (flat (pre ++ [s])) [] e := by
    rintro e (⟨tail, he⟩ | ⟨tail, he⟩)
    · exact Or.inl ⟨0, _, tail, by simp, he, hchain, by simp⟩
    · exact Or.inl ⟨0, _, tail, by simp, he, hchain', by simpa using hflat⟩
  have hrest := Anchored.safe (Or.inl hsec3) (by simpa using hchain') hseal
  rw [hflat] at hrest
  constructor
  · refine SafeThroughout.cons ?_ (SafeThroughout.cons ?_ (SafeThroughout.cons ?_ hrest))
    · intro e hloss
      obtain ⟨k, tail, he⟩ := (h.disk.writing []).powerLoss hsec hloss
      exact hsalvage e (Or.inl ⟨tail, by simpa using he⟩)
    · intro e hloss
      refine hsalvage e (h.disk.lose_newSegment hinv1 hsec1 ?_ ?_ hloss)
      · intro f hf _
        rw [hD1, Durable.run_dir, lookup_create, if_neg hf]
      · rw [hD1, Durable.run_dir, lookup_create, if_neg (by simp)]
        exact h.next_index hne hnext
    · intro e hloss
      refine hsalvage e (h.disk.lose_newSegment hinv2 hsec2 ?_ ?_ hloss)
      · intro f hf hfi
        rw [hD2, Durable.run_dir, lookup_create, if_neg hfi, hD1, Durable.run_dir, lookup_create,
          if_neg hf]
      · rw [hdir2, hindex2]
        rfl
  · exact hsec3.runAll hseal

end Roll

/-! ## Room for a record -/

/-- The partition holds the records `old`, and no power loss takes one of them. -/
def Ready (p : Partition) (D : Durable FileName) (old : List Record) : Prop :=
  (∃ pre s, PartInv p D.dir pre s ∧ Chained 0 (pre ++ [s]) ∧ flat (pre ++ [s]) = old ∧
    Anchored D pre s) ∨ Fresh p D.dir ∧ old = []

theorem Ready.next_toNat (h : Ready p D old) (hroom : old.length < 2 ^ 64) :
    p.nextOffset.toNat = old.length := by
  rcases h with ⟨pre, s, hinv, hchain, rfl, -⟩ | ⟨hfresh, rfl⟩
  · rw [hinv.next_toNat hchain (by omega), Nat.zero_add]
  · rw [hfresh.next]
    rfl

/-- Where the partition is once `ops` have made room for a record. -/
structure Room (p p1 : Partition) (D : Durable FileName) (old : List Record)
    (ops : List (FileOp FileName)) (key value : Bytes) (pre : List SegmentData) (s : SegmentData) :
    Prop where
  inv : PartInv p1 (applyAll D.dir ops) pre s
  chain : Chained 0 (pre ++ [s])
  stored : flat (pre ++ [s]) = old
  anchored : Anchored (D.runAll ops) pre s
  next : p1.nextOffset = p.nextOffset
  config : p1.config = p.config
  stays : p1.rollsFor key value = false
  safe : SafeThroughout (Salvaged old []) D ops

section MakeRoom

variable {p : Partition} {D : Durable FileName} {fs : FileSystem} {pre : List SegmentData}
  {s : SegmentData} {old : List Record}

variable {r : Record}

theorem PartInv.room (h : PartInv p fs.dir pre s) (hdir : fs.dir = D.dir)
    (hchain : Chained 0 (pre ++ [s])) (hanch : Anchored D pre s)
    (hnext : p.nextOffset.toNat = s.base.toNat + s.records.length) (hr : r.Fits) :
    ∃ p1 ops pre1 s1, p.makeRoom r.key r.value {} fs = (.OK, p1, fs.execAll ops) ∧
      Room p p1 D (flat (pre ++ [s])) ops r.key r.value pre1 s1 := by
  cases hroll : p.rollsFor r.key r.value with
  | true =>
    obtain ⟨hmake, hne⟩ := h.makeRoom_roll hroll
    obtain ⟨p1, closed, active, hsegs, heq, hinv, hchain', hn, hc, -⟩ := h.roll hchain hne hnext
    have hsec : Secured D (pre ++ [s]) := by
      rcases hanch with hsec | ⟨-, rfl⟩
      · exact hsec
      · exact absurd rfl hne
    obtain ⟨hsafe, hsec'⟩ := PartInv.roll_safe (hdir ▸ h) hchain hne hnext hsec hsegs
    refine ⟨p1, _, _, _, hmake.trans heq, hdir ▸ hinv, hchain', ?_, Or.inl hsec', hn, hc,
      hinv.stays_of_empty rfl _ _, hsafe⟩
    rw [flat_append, flat_singleton, List.append_nil]
  | false =>
    obtain ⟨hmake, -⟩ := h.makeRoom_stay hr hroll
    refine ⟨p, [], pre, s, by rw [hmake, Fs.execAll_nil], hdir ▸ h, hchain, rfl, hanch, rfl, rfl,
      hroll, ?_⟩
    exact hanch.safe (by simpa using hchain)
      (HoldsThroughout.nil (DiskInv.writing (hdir ▸ h.disk) []))

/-- **Making room** loses nothing, whether the partition has to roll, has to
make its first segment or has room already. -/
theorem Ready.makeRoom (h : Ready p D old) (hdir : fs.dir = D.dir) (hroom : old.length < 2 ^ 64)
    (hr : r.Fits) :
    ∃ p1 ops pre s, p.makeRoom r.key r.value {} fs = (.OK, p1, fs.execAll ops) ∧
      Room p p1 D old ops r.key r.value pre s := by
  have hlen := h.next_toNat hroom
  rcases h with ⟨pre, s, hinv, hchain, rfl, hanch⟩ | ⟨hfresh, rfl⟩
  · have hend := chained_end hchain
    exact PartInv.room (hdir ▸ hinv) hdir hchain hanch (by omega) hr
  · rw [← hdir] at hfresh
    have hinv := hfresh.inv
    have hstays := hinv.stays_of_empty rfl r.key r.value
    obtain ⟨hmake, -⟩ := @PartInv.makeRoom_stay _ (fs.execAll (firstRollOps p)) _ _ hinv r hr hstays
    refine ⟨firstRoll p fs.dir, firstRollOps p, [], ⟨0, []⟩,
      (hfresh.makeRoom_eq rfl rfl _ _).trans hmake, hdir ▸ hinv, ?_, rfl, Or.inr ⟨rfl, rfl⟩, rfl,
      rfl, hstays, ?_⟩
    · exact chained_snoc.mpr ⟨trivial, by simp, rfl, Consecutive.nil _⟩
    · exact Blank.safe (hdir ▸ hfresh.disk.blank 0) (hdir ▸ hfresh.kills_newFiles)

end MakeRoom

/-! ## Writing the records -/

section Write

variable {start : ℕ} {pre : List SegmentData} {s : SegmentData} {a b new old : List Record}
  {p p1 p' p'' : Partition} {d e : Disk} {D : Durable FileName} {ops ops' : List (FileOp FileName)}
  {key value : Bytes}

theorem Writing.mono_left (h : Writing pre s a e) (b : List Record) : Writing pre s (a ++ b) e := by
  obtain ⟨k, tail, hdisk⟩ := h
  refine ⟨min k a.length, tail, ?_⟩
  rw [List.take_append_of_le_length (Nat.min_le_right _ _), ← List.take_take, List.take_length]
  exact hdisk

theorem Writing.behind (h : Writing pre ⟨s.base, s.records ++ a⟩ b e) :
    Writing pre s (a ++ b) e := by
  obtain ⟨k, tail, hdisk⟩ := h
  refine ⟨a.length + k, tail, ?_⟩
  rw [List.take_length_add_append, ← List.append_assoc]
  exact hdisk

theorem Wrote.trans (ha : Wrote start pre s a p p' d ops)
    (hb : Wrote start pre ⟨s.base, s.records ++ a⟩ b p' p'' (applyAll d ops) ops') :
    Wrote start pre s (a ++ b) p p'' d (ops ++ ops') where
  inv := by
    rw [applyAll_append, ← List.append_assoc]
    exact hb.inv
  chain := by
    rw [← List.append_assoc]
    exact hb.chain
  next := by
    rw [hb.next, ha.next, List.length_append, UInt64.ofNat_add, UInt64.add_assoc]
  config := hb.config.trans ha.config
  kills := HoldsThroughout.append (ha.kills.mono fun _ he => he.mono_left b)
    (hb.kills.mono fun _ he => he.behind)

theorem Wrote.flush (h : Wrote start pre s new p p' d ops) (segs : List LogSegment) :
    Wrote start pre s new p p' d (ops ++ flushAllOps segs) where
  inv := by
    rw [applyAll_append, applyAll_flushAllOps]
    exact h.inv
  chain := h.chain
  next := h.next
  config := h.config
  kills := HoldsThroughout.append h.kills (holdsThroughout_flushAllOps h.kills.final segs)

def flushesOf (base : UInt64) : List (FileOp FileName) :=
  [.flush ⟨base, .log⟩, .flush ⟨base, .index⟩]

theorem PartInv.flushAllOps_eq (h : PartInv p d pre s) :
    ∃ closed, flushAllOps p.segments = closed ++ flushesOf s.base := by
  obtain ⟨closed, active, hsegs, -, hactive⟩ := h.segments
  refine ⟨flushAllOps closed, ?_⟩
  rw [hsegs, flushAllOps, List.flatMap_append, List.flatMap_singleton, ← hactive.base]
  rfl

/-- **Records that are written and then flushed are secured.** -/
theorem Wrote.secured (h : Wrote start pre s new p p' D.dir (ops ++ flushesOf s.base))
    (hanch : Anchored D pre s) :
    Secured (D.runAll (ops ++ flushesOf s.base)) (pre ++ [⟨s.base, s.records ++ new⟩]) := by
  obtain ⟨-, -, -, hfiles, -, -, -⟩ := diskInv_snoc.mp h.inv.disk
  intro x hx
  rcases List.mem_append.mp hx with hx | hx
  · rcases hanch with hsec | ⟨rfl, -⟩
    · exact hsec.runAll h.kills x (List.mem_append_left _ hx)
    · cases hx
  · rw [List.mem_singleton.mp hx, Durable.runAll_append]
    have hlog : (D.runAll ops).dir.lookup ⟨s.base, .log⟩ = some (encodeAll (s.records ++ new)) := by
      rw [Durable.runAll_dir, ← List.append_nil (encodeAll _), ← hfiles.log, applyAll_append]
      rfl
    have hkeeps := Durable.keeps_flush hlog
    exact Durable.Keeps.run hkeeps (show Begins _ _
      (Durable.run _ (.flush ⟨s.base, .index⟩)).dir from
      hkeeps.begins)

structure Stored (p' : Partition) (D : Durable FileName) (old new : List Record)
    (ops : List (FileOp FileName)) : Prop where
  ready : Ready p' (D.runAll ops) (old ++ new)
  safe : SafeThroughout (Salvaged old new) D ops

theorem Salvaged.mono (h : Salvaged old [] e) (new : List Record) : Salvaged old new e := by
  rcases h with ⟨k, hk⟩ | hblank
  · exact Or.inl ⟨0, by simpa using hk⟩
  · exact Or.inr hblank

theorem Room.flushed (h : Room p p1 D old ops key value pre s)
    (hwrote : Wrote 0 pre s new p1 p' (applyAll D.dir ops) (ops' ++ flushesOf s.base)) :
    Stored p' D old new (ops ++ (ops' ++ flushesOf s.base)) := by
  rw [← Durable.runAll_dir] at hwrote
  have hsec := hwrote.secured h.anchored
  have hsafe := h.anchored.safe hwrote.chain hwrote.kills
  rw [h.stored] at hsafe
  refine ⟨Or.inl ⟨_, _, ?_, hwrote.chain, ?_, Or.inl ?_⟩,
    (h.safe.mono fun _ he => he.mono new).append hsafe⟩
  · rw [Durable.runAll_append, Durable.runAll_dir]
    exact hwrote.inv
  · rw [← h.stored]
    simp
  · rw [Durable.runAll_append]
    exact hsec

theorem Ready.stored_nothing (h : Ready p D old) : Stored p D old [] [] := by
  refine ⟨by simpa using h, ?_⟩
  rcases h with ⟨pre, s, hinv, hchain, rfl, hanch⟩ | ⟨hfresh, rfl⟩
  · exact hanch.safe (by simpa using hchain) (HoldsThroughout.nil (hinv.disk.writing []))
  · exact Blank.safe (hfresh.disk.blank 0) (HoldsThroughout.nil (Or.inl rfl))

/-! ## Batches that roll at most at their first record -/

def Stays (p : Partition) (key value : Bytes) (_ : Faults) (_ : FileSystem) : Prop :=
  p.rollsFor key value = false

/-- No record of the batch but the first one makes the partition roll. -/
def Partition.RollsFirst (p : Partition) (nowMs : Int64) (batch : List (Bytes × Bytes))
    (fs : FileSystem) : Prop :=
  match batch with
  | [] => True
  | (key, value) :: rest =>
    match p.appendRecord key value nowMs false {} fs with
    | (st, p', fs') => st.ok = true → p'.AlongBatch Stays nowMs rest [] fs'

theorem appendRecord_of_makeRoom {fs fs1 : FileSystem}
    (h : p.makeRoom key value {} fs = (.OK, p1, fs1))
    (h1 : p1.makeRoom key value {} fs1 = (.OK, p1, fs1)) (ts : Int64) (sync : Bool) :
    p.appendRecord key value ts sync {} fs = p1.appendRecord key value ts sync {} fs1 := by
  unfold Partition.appendRecord
  rw [h, h1]

end Write

/-- **The batch loop without a roll.** The induction is on the records still to be
written; the active segment grows by one in each round. -/
theorem appendRecords_inPlace {start : ℕ} {nowMs : Int64} {pre : List SegmentData}
    (batch : List (Bytes × Bytes)) :
    ∀ {p : Partition} {fs : FileSystem} {s : SegmentData},
    BatchReady start p fs.dir pre s batch →
    p.AlongBatch Stays nowMs batch [] fs →
    ∃ p' ops, p.appendRecords nowMs batch [] fs = (.OK, p', fs.execAll ops) ∧
      Wrote start pre s (assign p.nextOffset nowMs batch) p p' fs.dir ops := by
  induction batch with
  | nil =>
    intro p fs s h _
    refine ⟨p, [], by simp [Partition.appendRecords, Fs.execAll_nil], ?_⟩
    simp only [assign]
    exact ⟨by simpa using h.inv, by simpa using h.chain, by simp, rfl,
      HoldsThroughout.nil (h.inv.disk.writing [])⟩
  | cons item rest ih =>
    obtain ⟨key, value⟩ := item
    intro p fs s h halong
    set r : Record := ⟨p.nextOffset, nowMs, key, value⟩
    have hr : r.Fits := h.fits nowMs
    obtain ⟨hstays, hrest⟩ := halong
    obtain ⟨hmake, hlen⟩ := h.inv.makeRoom_stay hr hstays
    obtain ⟨p1, ops1, heq1, hwrote1⟩ := h.inv.writeRecord h.chain hr hmake rfl h.next hlen false
    simp only [Bool.false_eq_true, if_false, List.append_nil] at heq1 hwrote1
    have heq1' : p.appendRecord key value nowMs false {} fs = (.OK, p1, fs.execAll ops1) := heq1
    simp only [List.headD_nil, heq1'] at hrest
    have hflat : flat (pre ++ [⟨s.base, s.records ++ [r]⟩]) = flat (pre ++ [s]) ++ [r] := by simp
    obtain ⟨p2, ops2, heq2, hwrote2⟩ := @ih p1 (fs.execAll ops1) ⟨s.base, s.records ++ [r]⟩
      (h.tail hwrote1.inv hwrote1.chain hflat) (hrest rfl)
    have hnext1 : p1.nextOffset = p.nextOffset + 1 := hwrote1.next
    refine ⟨p2, ops1 ++ ops2, ?_, ?_⟩
    · unfold Partition.appendRecords
      rw [List.headD_nil, heq1']
      simp only [Status.if_not_ok, List.tail_nil, heq2, Fs.execAll_execAll]
    · rw [hnext1] at hwrote2
      exact hwrote1.trans hwrote2

section Calls

variable {p : Partition} {D : Durable FileName} {fs : FileSystem} {old : List Record}

theorem Ready.appendRecord (h : Ready p D old) (hdir : fs.dir = D.dir)
    (hroom : old.length < 2 ^ 64) {r : Record} (hr : r.Fits) (hoff : r.offset = p.nextOffset) :
    ∃ p' ops, p.appendRecord r.key r.value r.timestampMs true {} fs = (.OK, p', fs.execAll ops) ∧
      Stored p' D old [r] ops := by
  obtain ⟨p1, ops1, pre, s, hmake, hmade⟩ := h.makeRoom hdir hroom hr
  have hinv : PartInv p1 (fs.execAll ops1).dir pre s := by
    rw [Fs.execAll_dir, hdir]
    exact hmade.inv
  have hlen := congrArg List.length hmade.stored
  have hnext := (hinv.next_toNat hmade.chain (by omega)).trans (chained_end hmade.chain).symm
  obtain ⟨-, hsize⟩ := hinv.makeRoom_stay hr hmade.stays
  obtain ⟨p', ops2, heq, hwrote⟩ := hinv.writeRecord hmade.chain hr hmake
    (hoff.trans hmade.next.symm) hnext hsize true
  refine ⟨p', ops1 ++ (ops2 ++ flushesOf s.base), ?_, hmade.flushed ?_⟩
  · rw [heq, Fs.execAll_execAll]
    rfl
  · rw [Fs.execAll_dir, hdir] at hwrote
    exact hwrote

variable {batch : List (Bytes × Bytes)} {nowMs : Int64}

theorem Ready.appendRecords (h : Ready p D old) (hdir : fs.dir = D.dir)
    (hfit : Partition.refusesBatch batch = false)
    (hsmall : ∀ item ∈ batch, item.1.length + item.2.length < 2 ^ 32 - 28)
    (hroom : old.length + batch.length < 2 ^ 64) (hroll : p.RollsFirst nowMs batch fs) :
    ∃ p' ops1 ops2 p1 key value pre s,
      p.appendRecords nowMs batch [] fs = (.OK, p', fs.execAll (ops1 ++ ops2)) ∧
      Room p p1 D old ops1 key value pre s ∧
      Wrote 0 pre s (assign p.nextOffset nowMs batch) p1 p' (applyAll D.dir ops1) ops2 := by
  have hlarge := recordTooLarge_of_refusesBatch hfit
  cases batch with
  | nil => cases hfit
  | cons item rest =>
    obtain ⟨key, value⟩ := item
    set r : Record := ⟨p.nextOffset, nowMs, key, value⟩
    have hr : r.Fits :=
      (recordTooLarge_iff (hsmall (key, value) (by simp))).mp (hlarge (key, value) (by simp))
    obtain ⟨p1, ops1, pre, s, hmake, hmade⟩ := h.makeRoom hdir (by omega) hr
    have hinv : PartInv p1 (fs.execAll ops1).dir pre s := by
      rw [Fs.execAll_dir, hdir]
      exact hmade.inv
    obtain ⟨hmake1, -⟩ := hinv.makeRoom_stay hr hmade.stays
    have hsame := appendRecord_of_makeRoom hmake hmake1 nowMs false
    -- behind the first record the batch is that of the partition with room
    have halong : p1.AlongBatch Stays nowMs ((key, value) :: rest) [] (fs.execAll ops1) := by
      refine ⟨hmade.stays, ?_⟩
      simp only [Partition.RollsFirst] at hroll
      rw [show p.appendRecord key value nowMs false {} fs = _ from hsame] at hroll
      exact hroll
    have hlen := congrArg List.length hmade.stored
    obtain ⟨p', ops2, heq, hwrote⟩ := @appendRecords_inPlace 0 nowMs pre ((key, value) :: rest)
      p1 (fs.execAll ops1) s ⟨hinv, hmade.chain, hsmall, hlarge, by omega⟩ halong
    refine ⟨p', ops1, ops2, p1, key, value, pre, s, ?_, hmade, ?_⟩
    · rw [← Fs.execAll_execAll, ← heq]
      unfold Partition.appendRecords
      rw [List.headD_nil, show p.appendRecord key value nowMs false {} fs = _ from hsame]
    · rw [Fs.execAll_dir, hdir, hmade.next] at hwrote
      exact hwrote

theorem Ready.appendWithTimestamp (h : Ready p D old) (hdir : fs.dir = D.dir)
    (hsync : p.config.syncOnAppend = true) {key value : Bytes} (ts : Int64)
    (hsmall : key.length + value.length < 2 ^ 32 - 28) (hroom : old.length < 2 ^ 64)
    (hfit : Partition.recordTooLarge key value = false) :
    ∃ p' ops, p.appendWithTimestamp key value ts {} fs = (.ok p.nextOffset, p', fs.execAll ops) ∧
      Stored p' D old [⟨p.nextOffset, ts, key, value⟩] ops := by
  have hr : (⟨p.nextOffset, ts, key, value⟩ : Record).Fits := (recordTooLarge_iff hsmall).mp hfit
  obtain ⟨p', ops, heq, hstored⟩ := h.appendRecord hdir hroom hr rfl
  refine ⟨p', ops, ?_, hstored⟩
  unfold Partition.appendWithTimestamp
  rw [hfit, if_neg Bool.false_ne_true, hsync, heq]
  rfl

/-- **A batch, then a flush**: either the one of `sync_on_append`, or the one the
caller makes. -/
theorem Ready.appendBatch (h : Ready p D old) (hdir : fs.dir = D.dir)
    (hfit : Partition.refusesBatch batch = false)
    (hsmall : ∀ item ∈ batch, item.1.length + item.2.length < 2 ^ 32 - 28)
    (hroom : old.length + batch.length < 2 ^ 64) (hroll : p.RollsFirst nowMs batch fs) :
    ∃ p' fs', p.appendBatch batch nowMs [] fs = (.ok p.nextOffset, p', fs') ∧
      (p.config.syncOnAppend = true → ∃ ops, fs' = fs.execAll ops ∧
        Stored p' D old (assign p.nextOffset nowMs batch) ops) ∧
      ∃ ops, p'.flush fs' = fs.execAll ops ∧
        Stored p' D old (assign p.nextOffset nowMs batch) ops := by
  obtain ⟨p', ops1, ops2, p1, key, value, pre, s, heq, hmade, hwrote⟩ :=
    h.appendRecords hdir hfit hsmall hroom hroll
  obtain ⟨closed, hflush⟩ := hwrote.inv.flushAllOps_eq
  have hstored : ∀ ops, Wrote 0 pre s (assign p.nextOffset nowMs batch) p1 p' (applyAll D.dir ops1)
      ops → Stored p' D old (assign p.nextOffset nowMs batch)
        (ops1 ++ (ops ++ flushAllOps p'.segments)) := by
    intro ops hops
    have hflushed := hops.flush p'.segments
    rw [hflush, ← List.append_assoc ops] at hflushed ⊢
    exact hmade.flushed hflushed
  rw [appendBatch_accepted hfit, heq]
  simp only [Status.if_not_ok]
  refine ⟨p', _, rfl, ?_, ?_⟩
  · intro hsync
    refine ⟨ops1 ++ (ops2 ++ flushAllOps p'.segments), ?_, hstored ops2 hwrote⟩
    rw [if_pos hsync, Partition.flush, foldl_flush_eq, Fs.execAll_execAll, List.append_assoc]
  · by_cases hsync : p.config.syncOnAppend = true
    · refine ⟨_, ?_, hstored (ops2 ++ flushAllOps p'.segments) (hwrote.flush p'.segments)⟩
      rw [if_pos hsync, Partition.flush, Partition.flush, foldl_flush_eq, foldl_flush_eq,
        Fs.execAll_execAll, Fs.execAll_execAll]
      simp only [List.append_assoc]
    · refine ⟨_, ?_, hstored ops2 hwrote⟩
      rw [if_neg hsync, Partition.flush, foldl_flush_eq, Fs.execAll_execAll, List.append_assoc]

end Calls

theorem Salvaged.settled {new : List Record} (h : Salvaged old new d) :
    ∃ k, Salvaged (old ++ new.take k) [] d := by
  rcases h with ⟨k, hk⟩ | ⟨hblank, rfl⟩
  · exact ⟨k, Or.inl ⟨0, by simpa using hk⟩⟩
  · exact ⟨0, Or.inr ⟨hblank, rfl⟩⟩

/-- **Recovery makes the partition ready again**, and a power loss on the way takes
nothing. -/
theorem Salvaged.recover {log : List Record} {d : Disk} (h : Salvaged log [] d)
    (hroom : log.length < 2 ^ 64) (q : Partition) :
    ∃ p' ops, q.openAndRecover (Fs.start d) = (.OK, p', (Fs.start d).execAll ops) ∧
      Ready p' ((Durable.found d).runAll ops) log ∧
      SafeThroughout (Salvaged log []) (Durable.found d) ops := by
  rcases h with ⟨k, segs, tail, hne, hdisk, hchain, hflat⟩ | ⟨hblank, rfl⟩
  · rw [List.take_nil, List.append_nil] at hflat
    subst hflat
    obtain rfl | ⟨pre, s, rfl⟩ := List.eq_nil_or_concat' segs
    · exact absurd rfl hne
    · obtain ⟨p', ops, heq, hinv, -, -, hkill⟩ := @openAndRecover_spec q (Fs.start d) pre s tail 0
        hdisk hchain (by omega)
      have hwriting : HoldsThroughout (Writing pre s []) (Durable.found d).dir ops :=
        hkill.mono fun e ⟨_, he⟩ => he.writing []
      have hsec : Secured (Durable.found d) (pre ++ [s]) := fun x hx =>
        Durable.keeps_found ((hdisk.writing []).begins hx)
      refine ⟨p', ops, heq, Or.inl ⟨pre, s, ?_, hchain, rfl, Or.inl (hsec.runAll hwriting)⟩, ?_⟩
      · rw [Durable.runAll_dir]
        exact hinv
      · exact Anchored.safe (Or.inl hsec) (by simpa using hchain) hwriting
  · obtain ⟨p', ops, heq, hinv, -, -, hkill⟩ := @openAndRecover_blank q (Fs.start d) hblank
    refine ⟨p', ops, heq, Or.inl ⟨[], ⟨0, []⟩, ?_, ?_, rfl, Or.inr ⟨rfl, rfl⟩⟩,
      Blank.safe hblank hkill⟩
    · rw [Durable.runAll_dir]
      exact hinv
    · exact chained_snoc.mpr ⟨trivial, by simp, rfl, Consecutive.nil _⟩

theorem Ready.runInv {log : List Record} (h : Ready p D log) {fs : FileSystem}
    (hdir : fs.dir = D.dir) : RunInv ⟨p, fs, log⟩ := by
  rcases h with ⟨pre, s, hinv, hchain, rfl, -⟩ | ⟨hfresh, rfl⟩
  · exact ⟨hchain.consecutive, Or.inr ⟨pre, s, 0, hdir ▸ hinv, hchain, Nat.zero_le _, rfl⟩⟩
  · exact ⟨Consecutive.nil 0, Or.inl ⟨hdir ▸ hfresh, rfl⟩⟩

end StreamForge
