import Mathlib.Data.List.AList
import Mathlib.Data.Set.Basic
import Mathlib.Logic.Function.Basic

/-!
# File operations, kills and power losses

A program that keeps its data in the files of one directory is judged by the
sequence of file operations it issues (`FileOp`), in three ways:

- `applyAll`: what the directory holds once all operations have run;
- `Killed`: what it may hold when the process dies on the way. Operations
  take effect in order and a write may stop after any number of its bytes;
- `PowerLoss`: what may be left of it after a power loss, when every file
  keeps at least what was flushed.

`HoldsThroughout P d ops` says that `P` survives a kill anywhere in `ops`,
`SafeThroughout` says the same of a power loss; both are established operation by
operation. What a flush has secured once (`Durable.Keeps`) stays secured as long as
the operations leave it in place, which is a matter of kills alone
(`Durable.Keeps.runAll`).
-/

namespace FileTrace

variable {Name : Type} [DecidableEq Name]

abbrev Dir (Name : Type) := AList (fun _ : Name => List UInt8)

inductive FileOp (Name : Type) where
  | create (f : Name)
  | append (f : Name) (bs : List UInt8)
  | truncate (f : Name) (n : ℕ)
  | remove (f : Name)
  | flush (f : Name)
  | flushDir
deriving DecidableEq

/-- Set a file's length: cut, or pad with zeros. -/
def resize (n : ℕ) (bs : List UInt8) : List UInt8 :=
  bs.take n ++ List.replicate (n - bs.length) 0

/-! ## Running operations to the end -/

/-- `create` opens an existing file as it is. Appending to, or truncating, a
file that is no longer in the directory leaves the directory alone. -/
def FileOp.apply (d : Dir Name) : FileOp Name → Dir Name
  | .create f => if f ∈ d then d else d.insert f []
  | .append f bs =>
    match d.lookup f with
    | none => d
    | some c => d.insert f (c ++ bs)
  | .truncate f n =>
    match d.lookup f with
    | none => d
    | some c => d.insert f (resize n c)
  | .remove f => d.erase f
  | .flush _ => d
  | .flushDir => d

def applyAll (d : Dir Name) (ops : List (FileOp Name)) : Dir Name :=
  ops.foldl FileOp.apply d

@[simp] theorem applyAll_nil (d : Dir Name) : applyAll d [] = d := rfl

@[simp] theorem applyAll_cons (d : Dir Name) (op : FileOp Name) (ops : List (FileOp Name)) :
    applyAll d (op :: ops) = applyAll (op.apply d) ops := rfl

theorem applyAll_append (d : Dir Name) (a b : List (FileOp Name)) :
    applyAll d (a ++ b) = applyAll (applyAll d a) b := by
  simp [applyAll, List.foldl_append]

@[simp] theorem apply_flush (d : Dir Name) (f : Name) : (FileOp.flush f).apply d = d := rfl

@[simp] theorem apply_flushDir (d : Dir Name) : FileOp.flushDir.apply d = d := rfl

theorem lookup_create (d : Dir Name) (f g : Name) :
    ((FileOp.create f).apply d).lookup g =
      if g = f then some ((d.lookup f).getD []) else d.lookup g := by
  by_cases hf : f ∈ d
  · obtain ⟨c, hc⟩ := Option.isSome_iff_exists.mp (AList.lookup_isSome.mpr hf)
    by_cases hg : g = f
    · subst hg
      simp [FileOp.apply, hf, hc]
    · simp [FileOp.apply, hf, hg]
  · have hnone : d.lookup f = none := AList.lookup_eq_none.mpr hf
    by_cases hg : g = f
    · subst hg
      simp [FileOp.apply, hf, hnone]
    · simp [FileOp.apply, hf, hg]

theorem lookup_append (d : Dir Name) (f g : Name) (bs : List UInt8) :
    ((FileOp.append f bs).apply d).lookup g =
      if g = f then (d.lookup f).map (· ++ bs) else d.lookup g := by
  by_cases hg : g = f
  · subst hg
    cases hc : d.lookup g <;> simp [FileOp.apply, hc]
  · cases hc : d.lookup f <;> simp [FileOp.apply, hc, hg]

theorem lookup_truncate (d : Dir Name) (f g : Name) (n : ℕ) :
    ((FileOp.truncate f n).apply d).lookup g =
      if g = f then (d.lookup f).map (resize n) else d.lookup g := by
  by_cases hg : g = f
  · subst hg
    cases hc : d.lookup g <;> simp [FileOp.apply, hc]
  · cases hc : d.lookup f <;> simp [FileOp.apply, hc, hg]

theorem lookup_remove (d : Dir Name) (f g : Name) :
    ((FileOp.remove f).apply d).lookup g = if g = f then none else d.lookup g := by
  by_cases hg : g = f
  · subst hg
    simp [FileOp.apply]
  · simp [FileOp.apply, hg]

@[simp] theorem resize_zero (bs : List UInt8) : resize 0 bs = [] := by
  simp [resize]

@[simp] theorem length_resize (n : ℕ) (bs : List UInt8) : (resize n bs).length = n := by
  simp only [resize, List.length_append, List.length_take, List.length_replicate]
  omega

variable {bs : List UInt8} {b : List (FileOp Name)} {Q : Dir Name → Prop} {d' : Dir Name}

theorem resize_of_le {n : ℕ} (h : n ≤ bs.length) : resize n bs = bs.take n := by
  simp [resize, Nat.sub_eq_zero_of_le h]

/-! ## Operations that only add -/

def FileOp.Adds : FileOp Name → Prop
  | .truncate _ _ => False
  | .remove _ => False
  | _ => True

def Grown (d d' : Dir Name) : Prop :=
  ∀ f c, d.lookup f = some c → ∃ more, d'.lookup f = some (c ++ more)

theorem FileOp.Adds.grown {op : FileOp Name} (h : op.Adds) (d : Dir Name) :
    Grown d (op.apply d) := by
  intro f c hc
  cases op with
  | create g =>
    refine ⟨[], ?_⟩
    rw [lookup_create, List.append_nil]
    split
    · rename_i hfg
      rw [← hfg, hc]
      rfl
    · exact hc
  | append g bs =>
    rw [lookup_append]
    split
    · rename_i hfg
      exact ⟨bs, by rw [← hfg, hc]; rfl⟩
    · exact ⟨[], by rw [hc, List.append_nil]⟩
  | truncate g n => exact h.elim
  | remove g => exact h.elim
  | flush g => exact ⟨[], by rw [apply_flush, hc, List.append_nil]⟩
  | flushDir => exact ⟨[], by rw [apply_flushDir, hc, List.append_nil]⟩

variable {ops a : List (FileOp Name)} {P : Dir Name → Prop} {d : Dir Name} {f : Name}

theorem grown_applyAll (h : ∀ op ∈ ops, op.Adds) (d : Dir Name) : Grown d (applyAll d ops) := by
  induction ops generalizing d with
  | nil => exact fun f c hc => ⟨[], by rw [applyAll_nil, hc, List.append_nil]⟩
  | cons op ops ih =>
    intro f c hc
    obtain ⟨a, ha⟩ := (h op (List.mem_cons_self ..)).grown d f c hc
    obtain ⟨b, hb⟩ := ih (fun o ho => h o (List.mem_cons_of_mem _ ho)) (op.apply d) f _ ha
    exact ⟨a ++ b, by rw [applyAll_cons, hb, List.append_assoc]⟩

/-! ## A program's view: the directory together with the trace that made it -/

structure Fs (Name : Type) where
  dir : Dir Name
  trace : List (FileOp Name)

/-- The file system of a process that has just been started on `d`. -/
def Fs.start (d : Dir Name) : Fs Name := ⟨d, []⟩

omit [DecidableEq Name] in
@[simp] theorem Fs.start_dir (d : Dir Name) : (Fs.start d).dir = d := rfl

def Fs.exec (fs : Fs Name) (op : FileOp Name) : Fs Name :=
  ⟨op.apply fs.dir, fs.trace ++ [op]⟩

def Fs.execAll (fs : Fs Name) (ops : List (FileOp Name)) : Fs Name :=
  ⟨applyAll fs.dir ops, fs.trace ++ ops⟩

@[simp] theorem Fs.execAll_dir (fs : Fs Name) (ops : List (FileOp Name)) :
    (fs.execAll ops).dir = applyAll fs.dir ops := rfl

@[simp] theorem Fs.execAll_trace (fs : Fs Name) (ops : List (FileOp Name)) :
    (fs.execAll ops).trace = fs.trace ++ ops := rfl

theorem Fs.exec_eq_execAll (fs : Fs Name) (op : FileOp Name) : fs.exec op = fs.execAll [op] := rfl

theorem Fs.execAll_nil (fs : Fs Name) : fs.execAll [] = fs := by
  simp [Fs.execAll]

theorem Fs.execAll_execAll (fs : Fs Name) (a b : List (FileOp Name)) :
    (fs.execAll a).execAll b = fs.execAll (a ++ b) := by
  simp [Fs.execAll, applyAll_append]

/-- `Killed d ops d'`: a process that set out to run `ops` on `d` was killed
and left `d'`. -/
inductive Killed : Dir Name → List (FileOp Name) → Dir Name → Prop where
  | here (d : Dir Name) (ops : List (FileOp Name)) : Killed d ops d
  | torn (d : Dir Name) (f : Name) (bs : List UInt8) (k : ℕ) (ops : List (FileOp Name)) :
      Killed d (.append f bs :: ops) ((FileOp.append f (bs.take k)).apply d)
  | later {d : Dir Name} {op : FileOp Name} {ops : List (FileOp Name)} {d' : Dir Name} :
      Killed (op.apply d) ops d' → Killed d (op :: ops) d'

def HoldsThroughout (P : Dir Name → Prop) (d : Dir Name) (ops : List (FileOp Name)) : Prop :=
  ∀ d', Killed d ops d' → P d'

theorem HoldsThroughout.nil (h : P d) : HoldsThroughout P d [] := by
  intro d' hk
  cases hk
  exact h

theorem HoldsThroughout.cons {P : Dir Name → Prop} {d : Dir Name} {op : FileOp Name}
    {ops : List (FileOp Name)} (hop : ∀ f bs, op ≠ .append f bs) (h : P d)
    (hrest : HoldsThroughout P (op.apply d) ops) : HoldsThroughout P d (op :: ops) := by
  intro d' hk
  cases hk with
  | here => exact h
  | torn _ f bs => exact absurd rfl (hop f bs)
  | later hk => exact hrest d' hk

theorem HoldsThroughout.cons_append (h : P d)
    (htorn : ∀ k, P ((FileOp.append f (bs.take k)).apply d))
    (hrest : HoldsThroughout P ((FileOp.append f bs).apply d) ops) :
    HoldsThroughout P d (.append f bs :: ops) := by
  intro d' hk
  cases hk with
  | here => exact h
  | torn _ _ _ k => exact htorn k
  | later hk => exact hrest d' hk

theorem HoldsThroughout.append (ha : HoldsThroughout P d a)
    (hb : HoldsThroughout P (applyAll d a) b) : HoldsThroughout P d (a ++ b) := by
  induction a generalizing d with
  | nil => exact hb
  | cons op a ih =>
    intro d' hk
    cases hk with
    | here => exact ha _ (.here _ _)
    | torn _ f bs k => exact ha _ (.torn _ f bs k a)
    | later hk => exact ih (fun d'' h => ha d'' (.later h)) hb d' hk

theorem Killed.done (d : Dir Name) (ops : List (FileOp Name)) : Killed d ops (applyAll d ops) := by
  induction ops generalizing d with
  | nil => exact .here d []
  | cons op ops ih => exact .later (ih (op.apply d))

theorem HoldsThroughout.final (h : HoldsThroughout P d ops) : P (applyAll d ops) :=
  h _ (Killed.done d ops)

theorem HoldsThroughout.mono (h : HoldsThroughout P d ops) (hpq : ∀ d, P d → Q d) :
    HoldsThroughout Q d ops :=
  fun d' hk => hpq d' (h d' hk)

theorem Killed.append (h : Killed (applyAll d a) ops d') : Killed d (a ++ ops) d' := by
  induction a generalizing d with
  | nil => exact h
  | cons op a ih => exact .later (ih h)

theorem Killed.of_prefix (h : a <+: ops) (d : Dir Name) : Killed d ops (applyAll d a) := by
  obtain ⟨b, rfl⟩ := h
  exact .append (.here _ b)

theorem HoldsThroughout.of_prefix (h : HoldsThroughout P d ops) (ha : a <+: ops) :
    HoldsThroughout P d a := by
  obtain ⟨b, rfl⟩ := ha
  intro d' hk
  induction hk with
  | here d a => exact h _ (.here d _)
  | torn d f bs k a => exact h _ (.torn d f bs k _)
  | later _ ih => exact ih fun d' hk => h d' (.later hk)

/-! ## Power losses -/

/-- A directory together with what a power loss cannot take: how many bytes of
each file are flushed, and which files are sure to be found again. -/
structure Durable (Name : Type) where
  dir : Dir Name
  synced : Name → ℕ
  sure : Name → Bool

namespace Durable

/-- What a process finds when it starts has survived already. -/
def found (d : Dir Name) : Durable Name where
  dir := d
  synced f := ((d.lookup f).getD []).length
  sure _ := true

/-- A new file has nothing flushed, and it takes a flush of the file or of the
directory to be sure of it. -/
def run (D : Durable Name) : FileOp Name → Durable Name
  | .create f =>
    if f ∈ D.dir then D
    else ⟨D.dir.insert f [], Function.update D.synced f 0, Function.update D.sure f false⟩
  | .append f bs => { D with dir := (FileOp.append f bs).apply D.dir }
  | .truncate f n =>
    { D with
      dir := (FileOp.truncate f n).apply D.dir
      synced := Function.update D.synced f (min (D.synced f) n) }
  | .remove f => { D with dir := (FileOp.remove f).apply D.dir }
  | .flush f =>
    { D with
      synced := Function.update D.synced f ((D.dir.lookup f).getD []).length
      sure := Function.update D.sure f true }
  | .flushDir => { D with sure := fun _ => true }

def runAll (D : Durable Name) (ops : List (FileOp Name)) : Durable Name :=
  ops.foldl run D

@[simp] theorem runAll_nil (D : Durable Name) : D.runAll [] = D := rfl

@[simp] theorem runAll_cons (D : Durable Name) (op : FileOp Name) (ops : List (FileOp Name)) :
    D.runAll (op :: ops) = (D.run op).runAll ops := rfl

theorem runAll_append (D : Durable Name) (a b : List (FileOp Name)) :
    D.runAll (a ++ b) = (D.runAll a).runAll b := by
  simp [runAll, List.foldl_append]

@[simp] theorem run_dir (D : Durable Name) (op : FileOp Name) :
    (D.run op).dir = op.apply D.dir := by
  cases op with
  | create f =>
    by_cases hf : f ∈ D.dir
    · simp [run, FileOp.apply, hf]
    · simp [run, FileOp.apply, hf]
  | append f bs => rfl
  | truncate f n => rfl
  | remove f => rfl
  | flush f => rfl
  | flushDir => rfl

@[simp] theorem runAll_dir (D : Durable Name) (ops : List (FileOp Name)) :
    (D.runAll ops).dir = applyAll D.dir ops := by
  induction ops generalizing D with
  | nil => rfl
  | cons op ops ih => rw [runAll_cons, ih, run_dir, applyAll_cons]

end Durable

/-- The file is there and starts with the bytes `c`. -/
def Begins (f : Name) (c : List UInt8) (d : Dir Name) : Prop :=
  ∃ more, d.lookup f = some (c ++ more)

namespace Durable

/-- The bytes `c` at the front of `f` survive every power loss. -/
structure Keeps (D : Durable Name) (f : Name) (c : List UInt8) : Prop where
  begins : Begins f c D.dir
  sure : D.sure f = true
  synced : c.length ≤ D.synced f

variable {c : List UInt8} {D : Durable Name}

theorem keeps_found {d : Dir Name} (h : Begins f c d) : (found d).Keeps f c := by
  refine ⟨h, rfl, ?_⟩
  obtain ⟨more, hmore⟩ := h
  simp [found, hmore]

theorem keeps_flush (h : D.dir.lookup f = some c) : (D.run (.flush f)).Keeps f c := by
  refine ⟨⟨[], by rw [run_dir, apply_flush, h, List.append_nil]⟩, ?_, ?_⟩
  · simp [run]
  · simp [run, h]

theorem keeps_flushDir (h : D.dir.lookup f = some c) : (D.run .flushDir).Keeps f [] :=
  ⟨⟨c, h⟩, rfl, Nat.zero_le _⟩

theorem Keeps.run (h : D.Keeps f c) {op : FileOp Name} (hop : Begins f c (D.run op).dir) :
    (D.run op).Keeps f c := by
  refine ⟨hop, ?_, ?_⟩ <;> obtain ⟨⟨more, hmore⟩, hsure, hsynced⟩ := h
  · cases op with
    | create g =>
      have hmem : f ∈ D.dir := AList.lookup_isSome.mp (by rw [hmore]; rfl)
      by_cases hg : g ∈ D.dir
      · simpa [Durable.run, hg] using hsure
      · have hne : f ≠ g := fun heq => hg (heq ▸ hmem)
        simpa [Durable.run, hg, hne] using hsure
    | append g bs => exact hsure
    | truncate g n => exact hsure
    | remove g => exact hsure
    | flush g =>
      by_cases hg : f = g
      · simp [Durable.run, hg]
      · simpa [Durable.run, hg] using hsure
    | flushDir => rfl
  · cases op with
    | create g =>
      have hmem : f ∈ D.dir := AList.lookup_isSome.mp (by rw [hmore]; rfl)
      by_cases hg : g ∈ D.dir
      · simpa [Durable.run, hg] using hsynced
      · have hne : f ≠ g := fun heq => hg (heq ▸ hmem)
        simpa [Durable.run, hg, hne] using hsynced
    | append g bs => exact hsynced
    | truncate g n =>
      by_cases hg : f = g
      · -- the cut is behind `c`, because `c` is still there after it
        subst hg
        obtain ⟨left, hleft⟩ := hop
        rw [run_dir, lookup_truncate, if_pos rfl, hmore] at hleft
        have hlen := congrArg List.length (Option.some.inj hleft)
        rw [length_resize, List.length_append] at hlen
        simp only [Durable.run, Function.update_self]
        omega
      · simpa [Durable.run, hg] using hsynced
    | remove g => exact hsynced
    | flush g =>
      by_cases hg : f = g
      · subst hg
        simp [Durable.run, hmore]
      · simpa [Durable.run, hg] using hsynced
    | flushDir => exact hsynced

theorem Keeps.runAll (h : D.Keeps f c) {ops : List (FileOp Name)}
    (hops : HoldsThroughout (Begins f c) D.dir ops) :
    (D.runAll ops).Keeps f c := by
  induction ops generalizing D with
  | nil => exact h
  | cons op ops ih =>
    have hrest : HoldsThroughout (Begins f c) (D.run op).dir ops := by
      rw [run_dir]
      exact fun d' hk => hops d' (.later hk)
    exact ih (h.run (hrest _ (.here _ _))) hrest

end Durable

variable {D : Durable Name}

/-- `PowerLoss D d'`: a power loss on `D` left `d'`. Each file on its own keeps its
flushed bytes and any number of those behind them. -/
def PowerLoss (D : Durable Name) (d' : Dir Name) : Prop :=
  ∀ f, (d'.lookup f = none ∧ (D.dir.lookup f = none ∨ D.sure f = false)) ∨
    ∃ c n, D.dir.lookup f = some c ∧ D.synced f ≤ n ∧ d'.lookup f = some (c.take n)

theorem PowerLoss.of_some (h : PowerLoss D d') (hf : d'.lookup f ≠ none) :
    ∃ c n, D.dir.lookup f = some c ∧ D.synced f ≤ n ∧ d'.lookup f = some (c.take n) := by
  rcases h f with ⟨hnone, -⟩ | hleft
  · exact absurd hnone hf
  · exact hleft

theorem Durable.Keeps.powerLoss {c : List UInt8} (h : D.Keeps f c) (hloss : PowerLoss D d')
    {more : List UInt8} (hmore : D.dir.lookup f = some (c ++ more)) :
    ∃ n, d'.lookup f = some (c ++ more.take n) := by
  rcases hloss f with ⟨-, hgone | hunsure⟩ | ⟨c', n, hc', hn, hleft⟩
  · rw [hmore] at hgone
    cases hgone
  · rw [h.sure] at hunsure
    cases hunsure
  · rw [hmore] at hc'
    obtain rfl := Option.some.inj hc'
    have hle := h.synced
    refine ⟨n - c.length, ?_⟩
    rw [hleft, List.take_append, List.take_of_length_le (by omega)]

theorem powerLoss_truncate {D : Durable Name} {f : Name} {n : ℕ} (hsynced : D.synced f ≤ n)
    (hn : n ≤ ((D.dir.lookup f).getD []).length) :
    PowerLoss D ((FileOp.truncate f n).apply D.dir) := by
  intro g
  rw [lookup_truncate]
  by_cases hg : g = f
  · subst hg
    rw [if_pos rfl]
    cases hc : D.dir.lookup g with
    | none => exact Or.inl ⟨rfl, Or.inl rfl⟩
    | some c =>
      rw [hc, Option.getD_some] at hn
      exact Or.inr ⟨c, n, rfl, hsynced, by rw [Option.map_some, resize_of_le hn]⟩
  · rw [if_neg hg]
    cases hc : D.dir.lookup g with
    | none => exact Or.inl ⟨rfl, Or.inl rfl⟩
    | some b =>
      refine Or.inr ⟨b, max (D.synced g) b.length, rfl, le_max_left _ _, ?_⟩
      rw [List.take_of_length_le (le_max_right _ _)]

/-- `P` holds of whatever a power loss anywhere in `ops` leaves. A write that is
only begun is covered by the one that is complete and not flushed. -/
def SafeThroughout (P : Dir Name → Prop) (D : Durable Name) (ops : List (FileOp Name)) : Prop :=
  ∀ a, a <+: ops → ∀ d', PowerLoss (D.runAll a) d' → P d'

theorem SafeThroughout.cons {P : Dir Name → Prop} {D : Durable Name} {op : FileOp Name}
    {ops : List (FileOp Name)} (h : ∀ d', PowerLoss D d' → P d')
    (hrest : SafeThroughout P (D.run op) ops) : SafeThroughout P D (op :: ops) := by
  intro a ha d' hloss
  cases a with
  | nil => exact h d' hloss
  | cons op' a =>
    obtain ⟨rfl, htail⟩ := List.cons_prefix_cons.mp ha
    exact hrest a htail d' hloss

theorem SafeThroughout.append (ha : SafeThroughout P D a) (hb : SafeThroughout P (D.runAll a) b) :
    SafeThroughout P D (a ++ b) := by
  induction a generalizing D with
  | nil => exact hb
  | cons op a ih =>
    refine SafeThroughout.cons (fun d' hloss => ha [] List.nil_prefix d' hloss) (ih ?_ hb)
    exact fun x hx => ha (op :: x) (List.cons_prefix_cons.mpr ⟨rfl, hx⟩)

theorem SafeThroughout.mono (h : SafeThroughout P D ops) (hpq : ∀ d, P d → Q d) :
    SafeThroughout Q D ops :=
  fun a ha d' hloss => hpq d' (h a ha d' hloss)

end FileTrace
