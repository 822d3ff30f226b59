import StreamForge.Storage.PartitionRead

/-!
# Crash consistency

A process that runs a partition may be killed between any two of its file
operations and inside any write, also while it recovers. This file follows a
partition through any number of such lives.

`issued` is what an operation does to the files, read off the trace, and
`Killed` says what a kill leaves of it. `Survives` is the promise about the
directory that is left: it holds every acknowledged record that retention had
not given up, a prefix of what was being written, and nothing else. It is
kept by every kill inside recovery (`Survives.recover`), so however often
recovery is interrupted, the one that is completed finds it.
-/

namespace StreamForge

open FileTrace FileHandle StreamForge.Partition

/-! ## Lives and kills -/

/-- The file operations of a recovery that starts on the directory `d`. -/
def recoverOps (p : Partition) (full : Bool) (d : Disk) : List (FileOp FileName) :=
  ((reopened p full).openAndRecover (Fs.start d)).2.2.trace

def issued (st : RunState) : Op → List (FileOp FileName)
  | .restart full => recoverOps st.part full st.fs.dir
  | op => (step st op).fs.trace.drop st.fs.trace.length

def inFlight (st : RunState) : Op → List Record
  | .append key value ts => assign st.part.nextOffset ts [(key, value)]
  | .batch items nowMs => assign st.part.nextOffset nowMs items
  | .retain _ _ _ _ => []
  | .restart _ => []

/-- Recovery was started and killed any number of times. -/
inductive Interrupted (p : Partition) : Disk → Disk → Prop where
  | never (d : Disk) : Interrupted p d d
  | again {d e e' : Disk} (full : Bool) : Interrupted p d e →
      Killed e (recoverOps p full e) e' → Interrupted p d e'

/-- The completed recovery. Its next offset tells how many of the records in
flight are part of the history from here on. -/
def revived (st : RunState) (op : Op) (full : Bool) (d : Disk) : RunState :=
  match (reopened st.part full).openAndRecover (Fs.start d) with
  | (_, p, fs) =>
    ⟨p, fs, st.acked ++ (inFlight st op).take (p.nextOffset.toNat - st.acked.length)⟩

/-- `Life st n`: a partition got to `st` by operations, kills and recoveries in
which `n` records were handed in. -/
inductive Life : RunState → ℕ → Prop where
  | fresh (partitionId : UInt32) (partitionDir : Bytes) (config : StorageConfig) :
      Life (RunState.init (Partition.new partitionId partitionDir config)) 0
  | operate {st : RunState} {n : ℕ} (op : Op) : Life st n → op.Sized →
      Life (step st op) (n + op.count)
  | crash {st : RunState} {n : ℕ} {d d' : Disk} (op : Op) (full : Bool) : Life st n → op.Sized →
      Killed st.fs.dir (issued st op) d → Interrupted st.part d d' →
      Life (revived st op full d') (n + op.count)

/-! ## What survives -/

/-- The directory holds the history from `lo` on: as segments, or as nothing
before the first file exists. -/
def Survives (hist : List Record) (lo : ℕ) (d : Disk) : Prop :=
  lo ≤ hist.length ∧ (Holding lo (hist.drop lo) d ∨ (DiskInv d [] [] ∧ hist = []))

variable {st : RunState} {lo : ℕ} {d : Disk} {p : Partition} {op : Op}

theorem Running.survives {pre : List SegmentData} {s : SegmentData} (h : Running st pre s lo) :
    Survives st.acked lo st.fs.dir := by
  refine ⟨h.le, Or.inl ?_⟩
  rw [← h.stored]
  exact h.inv.holding h.chain

/-- **Recovery on what survived** keeps the promise at every kill, and when it
is done the partition runs on the same history. -/
theorem Survives.recover {hist : List Record} {lo : ℕ} {d : Disk} (h : Survives hist lo d)
    (hroom : hist.length < 2 ^ 64) (p : Partition) :
    ∃ p' ops pre s, p.openAndRecover (Fs.start d) =
        (.OK, p', (Fs.start d).execAll ops) ∧ p'.isDegraded = p.isDegraded ∧
      Running ⟨p', (Fs.start d).execAll ops, hist⟩ pre s lo ∧
      HoldsThroughout (Survives hist lo) d ops := by
  obtain ⟨hle, ⟨segs, tail, hne, hdisk, hchain, hflat⟩ | ⟨hdisk, hnil⟩⟩ := h
  · obtain rfl | ⟨pre, s, rfl⟩ := List.eq_nil_or_concat' segs
    · exact absurd rfl hne
    · have htotal : lo + (flat (pre ++ [s])).length < 2 ^ 64 := by
        rw [hflat, List.length_drop]
        omega
      obtain ⟨p', ops, heq, hinv, hdeg, -, hkill⟩ := @openAndRecover_spec p
        (Fs.start d) pre s tail lo hdisk hchain htotal
      refine ⟨p', ops, pre, s, heq, hdeg, ⟨hinv, hchain, hle, hflat⟩, hkill.mono ?_⟩
      rintro e ⟨tail', he⟩
      exact ⟨hle, Or.inl ⟨_, tail', hne, he, hchain, hflat⟩⟩
  · subst hnil
    obtain rfl : lo = 0 := Nat.le_zero.mp hle
    obtain ⟨p', ops, heq, hinv, hdeg, -, hkill⟩ := @openAndRecover_empty p (Fs.start d) hdisk
    have hchain : Chained 0 ([] ++ [⟨0, []⟩]) :=
      chained_snoc.mpr ⟨trivial, by simp, rfl, Consecutive.nil _⟩
    refine ⟨p', ops, [], ⟨0, []⟩, heq, hdeg, ⟨hinv, hchain, hle, rfl⟩, hkill.mono ?_⟩
    rintro e (he | ⟨tail', he⟩)
    · exact ⟨hle, Or.inr ⟨he, rfl⟩⟩
    · exact ⟨hle, Or.inl ⟨_, tail', by simp, he, hchain, rfl⟩⟩

variable {hist : List Record} {d' : Disk} {fs : FileSystem}

theorem Survives.recoverOps (h : Survives hist lo d) (hroom : hist.length < 2 ^ 64) (p : Partition)
    (full : Bool) :
    HoldsThroughout (Survives hist lo) d (recoverOps p full d) := by
  obtain ⟨p', ops, pre, s, heq, -, -, hkill⟩ := h.recover hroom (reopened p full)
  have htrace : StreamForge.recoverOps p full d = ops := by
    unfold StreamForge.recoverOps
    rw [heq]
    exact List.nil_append ops
  rw [htrace]
  exact hkill

theorem Survives.interrupted (hint : Interrupted p d d') (h : Survives hist lo d)
    (hroom : hist.length < 2 ^ 64) :
    Survives hist lo d' := by
  induction hint with
  | never => exact h
  | again full _ hkill ih => exact ih.recoverOps hroom p full _ hkill

/-! ## Kills inside an operation -/

/-- What a kill inside `op` may leave: the records in flight come in order, and
only what a retention pass decides to delete may be missing. -/
def SurvivesKill (st : RunState) (op : Op) (e : Disk) : Prop :=
  ∃ k lo, st.part.earliestOffset.toNat ≤ lo ∧ lo ≤ (step st op).part.earliestOffset.toNat ∧
    Survives (st.acked ++ (inFlight st op).take k) lo e

theorem trace_execAll (fs : FileSystem) (ops : List (FileOp FileName)) :
    (fs.execAll ops).trace.drop fs.trace.length = ops := by
  rw [Fs.execAll_trace, List.drop_left' rfl]

section Kills

variable {st : RunState} {pre : List SegmentData} {s : SegmentData} {start : ℕ}

theorem Running.kills_added (h : Running st pre s start) {p' : Partition}
    {ops : List (FileOp FileName)} (hpart : (step st op).part = p')
    (hadd : Added start (flat (pre ++ [s])) (inFlight st op) st.part p' st.fs ops) :
    HoldsThroughout (SurvivesKill st op) st.fs.dir ops := by
  obtain ⟨pre', s', hinv', hchain', -⟩ := hadd.inv
  have hbefore := h.inv.earliest h.chain
  have hafter := hinv'.earliest hchain'
  refine hadd.kills.mono ?_
  rintro e ⟨k, he⟩
  refine ⟨k, start, hbefore.le, hpart ▸ hafter.ge, ?_, Or.inl ?_⟩
  · have := h.le
    rw [List.length_append]
    omega
  · rw [List.drop_append_of_le_length h.le, ← h.stored]
    exact he

theorem Running.kills_none (h : Running st pre s start) (hstep : (step st op).part = st.part) :
    HoldsThroughout (SurvivesKill st op) st.fs.dir [] := by
  have hearly := h.inv.earliest h.chain
  refine HoldsThroughout.nil ⟨0, start, hearly.le, ?_, ?_⟩
  · rw [hstep]
    exact hearly.ge
  · rw [List.take_zero, List.append_nil]
    exact h.survives

theorem Running.kills_append (h : Running st pre s start) (key value : Bytes) (ts : Int64)
    (hsmall : key.length + value.length < 2 ^ 32 - 28) (hroom : st.acked.length < 2 ^ 64) :
    HoldsThroughout (SurvivesKill st (.append key value ts)) st.fs.dir
      (issued st (.append key value ts)) := by
  have hend := h.end_eq
  by_cases hlarge : recordTooLarge key value = true
  · have hrefused := appendWithTimestamp_refused hlarge st.part ts {} st.fs
    have hissued : issued st (.append key value ts) = [] := by
      simp only [issued, step, hrefused]
      exact List.drop_length
    rw [hissued]
    exact h.kills_none (by simp only [step, hrefused])
  · obtain ⟨p', ops, heq, hadd⟩ :=
      appendWithTimestamp_ok h.inv h.chain ts hsmall (by simpa using hlarge) (by omega)
    have hissued : issued st (.append key value ts) = ops := by
      simp only [issued, step, heq]
      exact trace_execAll st.fs ops
    rw [hissued]
    exact h.kills_added (by simp only [step, heq]) hadd

theorem Running.kills_batch (h : Running st pre s start) (items : List (Bytes × Bytes))
    (nowMs : Int64) (hsmall : ∀ item ∈ items, item.1.length + item.2.length < 2 ^ 32 - 28)
    (hroom : st.acked.length + items.length < 2 ^ 64) :
    HoldsThroughout (SurvivesKill st (.batch items nowMs)) st.fs.dir
      (issued st (.batch items nowMs)) := by
  cases hfit : refusesBatch items with
  | true =>
    obtain ⟨status, heq⟩ := appendBatch_refused hfit st.part nowMs [] st.fs
    have hissued : issued st (.batch items nowMs) = [] := by
      simp only [issued, step, heq]
      exact List.drop_length
    rw [hissued]
    exact h.kills_none (by simp only [step, heq])
  | false =>
    have hend := h.end_eq
    obtain ⟨p', ops, heq, hadd⟩ := appendBatch_ok h.inv h.chain nowMs hsmall hfit (by omega)
    have hissued : issued st (.batch items nowMs) = ops := by
      simp only [issued, step, heq]
      exact trace_execAll st.fs ops
    rw [hissued]
    exact h.kills_added (by simp only [step, heq]) hadd

theorem Running.kills_retain (h : Running st pre s start) (retentionMs retentionBytes : UInt64)
    (dryRun : Bool) (nowMs : Int64) :
    HoldsThroughout (SurvivesKill st (.retain retentionMs retentionBytes dryRun nowMs)) st.fs.dir
      (issued st (.retain retentionMs retentionBytes dryRun nowMs)) := by
  obtain ⟨cs, p', ops, n, heq, hret⟩ :=
    scanAndDeleteSegments_spec h.inv retentionMs retentionBytes dryRun nowMs
  have hissued : issued st (.retain retentionMs retentionBytes dryRun nowMs) = ops := by
    simp only [issued, step, heq]
    exact trace_execAll st.fs ops
  have hbefore := h.inv.earliest h.chain
  have hafter := hret.inv.earliest (h.suffix hret.le).1
  rw [hissued]
  refine hret.kills.mono ?_
  rintro e ⟨m, hm, he⟩
  obtain ⟨hchain, hle, hstored⟩ := h.suffix (hm.trans hret.le)
  -- fewer segments removed, fewer records lost
  have hmono : (flat (pre.take m)).length ≤ (flat (pre.take n)).length := by
    have hsplit := List.take_append_drop m (pre.take n)
    rw [List.take_take, Nat.min_eq_left hm] at hsplit
    have hlen := congrArg (fun l => (flat l).length) hsplit
    simp only [flat_append, List.length_append] at hlen
    omega
  refine ⟨0, start + (flat (pre.take m)).length, by omega, ?_, ?_⟩
  · simp only [step, heq]
    omega
  · rw [List.take_zero, List.append_nil]
    exact ⟨hle, Or.inl ⟨_, [], by simp, he, hchain, hstored⟩⟩

theorem Running.kills_restart (h : Running st pre s start) (full : Bool)
    (hroom : st.acked.length < 2 ^ 64) :
    HoldsThroughout (SurvivesKill st (.restart full)) st.fs.dir (issued st (.restart full)) := by
  obtain ⟨p', ops, pre', s', heq, -, hrun, -⟩ := h.survives.recover hroom (reopened st.part full)
  have hbefore := h.inv.earliest h.chain
  have hafter := hrun.inv.earliest hrun.chain
  refine (h.survives.recoverOps hroom st.part full).mono ?_
  intro e he
  refine ⟨0, start, hbefore.le, ?_, by simpa using he⟩
  simp only [step, heq]
  exact hafter.ge

end Kills

/-- The roll that a first append makes: the files are not there, or they are
empty. -/
theorem Fresh.kills_newFiles (h : Fresh p fs.dir) :
    HoldsThroughout (fun e => e = fs.dir ∨ Recoverable [⟨0, []⟩] e) fs.dir (firstRollOps p) := by
  set d1 := (FileOp.create ⟨p.nextOffset, .log⟩).apply fs.dir with hd1
  have hinv1 : DiskInv d1 ([] ++ [⟨0, []⟩]) [] := by
    refine (h.disk.blank 0).firstSegment ?_ ?_
    · rw [hd1, h.next, lookup_create, if_pos rfl, h.lookup_none]
      rfl
    · intro f hf
      rw [hd1, h.next, lookup_create, if_neg hf]
  have hdone : DiskInv ((FileOp.create ⟨p.nextOffset, .index⟩).apply d1) ([] ++ [⟨0, []⟩]) [] :=
    h.inv.disk
  refine HoldsThroughout.cons (by simp) (Or.inl rfl) ?_
  refine HoldsThroughout.cons (by simp) (Or.inr ⟨_, hinv1⟩) ?_
  exact HoldsThroughout.cons (by simp) (Or.inr ⟨_, hdone⟩) (HoldsThroughout.nil (Or.inr ⟨_, hdone⟩))

theorem Fresh.kills_firstRoll (h : Fresh p fs.dir) :
    HoldsThroughout (Survives [] 0) fs.dir (firstRollOps p) := by
  have hchain : Chained 0 ([] ++ [⟨0, []⟩]) :=
    chained_snoc.mpr ⟨trivial, by simp, rfl, Consecutive.nil _⟩
  refine h.kills_newFiles.mono ?_
  rintro e (rfl | ⟨tail, he⟩)
  · exact ⟨le_refl _, Or.inr ⟨h.disk, rfl⟩⟩
  · exact ⟨le_refl _, Or.inl ⟨_, tail, by simp, he, hchain, rfl⟩⟩

section FreshKills

variable {st : RunState}

theorem Fresh.earliest {p : Partition} {d : Disk} (h : Fresh p d) : p.earliestOffset = 0 := by
  unfold earliestOffset
  rw [h.segments]

theorem Fresh.survives (h : Fresh st.part st.fs.dir) (hacked : st.acked = []) :
    Survives st.acked 0 st.fs.dir :=
  ⟨Nat.zero_le _, Or.inr ⟨h.disk, hacked⟩⟩

theorem Fresh.survivesKill (h : Fresh st.part st.fs.dir) (hacked : st.acked = []) (op : Op)
    {e : Disk} (he : Survives [] 0 e) : SurvivesKill st op e := by
  refine ⟨0, 0, ?_, Nat.zero_le _, ?_⟩
  · rw [h.earliest]
    exact le_refl _
  · rw [List.take_zero, List.append_nil, hacked]
    exact he

theorem Fresh.kills_added (h : Fresh st.part st.fs.dir) (hacked : st.acked = []) {p' : Partition}
    {ops : List (FileOp FileName)}
    (hadd : Added 0 [] (inFlight st op) (firstRoll st.part st.fs.dir) p'
      (st.fs.execAll (firstRollOps st.part)) ops) :
    HoldsThroughout (SurvivesKill st op) st.fs.dir (firstRollOps st.part ++ ops) := by
  refine HoldsThroughout.append (h.kills_firstRoll.mono fun e he => h.survivesKill hacked op he) ?_
  refine hadd.kills.mono ?_
  rintro e ⟨k, he⟩
  refine ⟨k, 0, ?_, Nat.zero_le _, Nat.zero_le _, Or.inl ?_⟩
  · rw [h.earliest]
    exact le_refl _
  · rw [hacked, List.drop_zero]
    exact he

theorem Fresh.kills_none (h : Fresh st.part st.fs.dir) (hacked : st.acked = []) (op : Op) :
    HoldsThroughout (SurvivesKill st op) st.fs.dir [] :=
  HoldsThroughout.nil (h.survivesKill hacked op (hacked ▸ h.survives hacked))

theorem Fresh.kills (h : Fresh st.part st.fs.dir) (hacked : st.acked = []) (hsized : op.Sized)
    (hroom : op.count < 2 ^ 64) :
    HoldsThroughout (SurvivesKill st op) st.fs.dir (issued st op) := by
  have hrolled := h.running hacked
  cases op with
  | append key value ts =>
    by_cases hlarge : recordTooLarge key value = true
    · have hrefused := appendWithTimestamp_refused hlarge st.part ts {} st.fs
      have hissued : issued st (.append key value ts) = [] := by
        simp only [issued, step, hrefused]
        exact List.drop_length
      rw [hissued]
      exact h.kills_none hacked _
    · have hfit : recordTooLarge key value = false := by simpa using hlarge
      obtain ⟨p', ops, heq, hadd⟩ :=
        appendWithTimestamp_ok hrolled.inv hrolled.chain ts hsized hfit (by simp)
      rw [← h.appendWithTimestamp_eq ts hfit, Fs.execAll_execAll] at heq
      have hissued : issued st (.append key value ts) = firstRollOps st.part ++ ops := by
        simp only [issued, step, heq]
        exact trace_execAll st.fs _
      rw [hissued]
      exact h.kills_added hacked hadd
  | batch items nowMs =>
    cases hfit : refusesBatch items with
    | true =>
      obtain ⟨status, heq⟩ := appendBatch_refused hfit st.part nowMs [] st.fs
      have hissued : issued st (.batch items nowMs) = [] := by
        simp only [issued, step, heq]
        exact List.drop_length
      rw [hissued]
      exact h.kills_none hacked _
    | false =>
      obtain ⟨p', ops, heq, hadd⟩ := appendBatch_ok hrolled.inv hrolled.chain nowMs hsized hfit
        (by simpa [Op.count] using hroom.le)
      rw [← h.appendBatch_eq nowMs hfit, Fs.execAll_execAll] at heq
      have hissued : issued st (.batch items nowMs) = firstRollOps st.part ++ ops := by
        simp only [issued, step, heq]
        exact trace_execAll st.fs _
      rw [hissued]
      exact h.kills_added hacked hadd
  | retain retentionMs retentionBytes dryRun nowMs =>
    have hnone : st.part.scanAndDeleteSegments retentionMs retentionBytes dryRun nowMs st.fs =
        ([], st.part, st.fs) := by
      simp [scanAndDeleteSegments, h.segments]
    have hissued : issued st (.retain retentionMs retentionBytes dryRun nowMs) = [] := by
      simp only [issued, step, hnone]
      exact List.drop_length
    rw [hissued]
    exact h.kills_none hacked _
  | restart full =>
    have hroom' : st.acked.length < 2 ^ 64 := by simp [hacked]
    refine ((h.survives hacked).recoverOps hroom' st.part full).mono ?_
    intro e he
    exact h.survivesKill hacked _ (hacked ▸ he)

end FreshKills

/-- **A kill anywhere inside a step** leaves what was promised. -/
theorem RunInv.kills (h : RunInv st) (hsized : op.Sized)
    (hroom : st.acked.length + op.count < 2 ^ 64) :
    HoldsThroughout (SurvivesKill st op) st.fs.dir (issued st op) := by
  obtain ⟨-, ⟨hfresh, hacked⟩ | ⟨pre, s, start, hrun⟩⟩ := h
  · exact hfresh.kills hacked hsized (by omega)
  · cases op with
    | append key value ts => exact hrun.kills_append key value ts hsized (by omega)
    | batch items nowMs => exact hrun.kills_batch items nowMs hsized hroom
    | retain retentionMs retentionBytes dryRun nowMs =>
      exact hrun.kills_retain retentionMs retentionBytes dryRun nowMs
    | restart full => exact hrun.kills_restart full (by omega)

/-! ## Revival -/

theorem length_inFlight_le (st : RunState) (op : Op) : (inFlight st op).length ≤ op.count := by
  cases op <;> simp [inFlight, Op.count]

theorem RunInv.consecutive_inFlight (h : RunInv st) (hroom : st.acked.length + op.count < 2 ^ 64) :
    Consecutive st.acked.length (inFlight st op) := by
  have hnext : st.part.nextOffset.toNat = st.acked.length := by
    obtain ⟨-, ⟨hfresh, hacked⟩ | ⟨pre, s, start, hrun⟩⟩ := h
    · rw [hfresh.next, hacked]
      rfl
    · exact hrun.next_toNat (by omega)
  cases op with
  | append key value ts =>
    rw [← hnext] at hroom ⊢
    exact consecutive_assign ts _ hroom.le
  | batch items nowMs =>
    rw [← hnext] at hroom ⊢
    exact consecutive_assign nowMs items hroom.le
  | retain _ _ _ _ => exact Consecutive.nil _
  | restart _ => exact Consecutive.nil _

/-- **Revival.** After a kill, however often recovery is interrupted, the
completed one runs on the acknowledged records and a prefix of those in
flight. -/
theorem RunInv.revived (h : RunInv st) (hsized : op.Sized)
    (hroom : st.acked.length + op.count < 2 ^ 64) (hkill : Killed st.fs.dir (issued st op) d)
    (hint : Interrupted st.part d d') (full : Bool) :
    ((reopened st.part full).openAndRecover (Fs.start d')).1 = .OK ∧
      (revived st op full d').part.isDegraded = false ∧
      Consecutive 0 (revived st op full d').acked ∧
      (revived st op full d').acked.length ≤ st.acked.length + op.count ∧
      ∃ pre s lo, Running (revived st op full d') pre s lo ∧
        st.part.earliestOffset.toNat ≤ lo ∧ lo ≤ (step st op).part.earliestOffset.toNat := by
  obtain ⟨k, lo, hbefore, hafter, hsurv⟩ := h.kills hsized hroom d hkill
  set hist := st.acked ++ (inFlight st op).take k with hhist
  have hflight := length_inFlight_le st op
  have hlen : hist.length ≤ st.acked.length + op.count := by
    rw [hhist, List.length_append, List.length_take]
    omega
  have hcons : Consecutive 0 hist := by
    refine h.1.append ?_
    rw [Nat.zero_add]
    exact (h.consecutive_inFlight hroom).take k
  obtain ⟨p', ops, pre, s, heq, hdeg, hrun, -⟩ :=
    (hsurv.interrupted hint (by omega)).recover (by omega) (reopened st.part full)
  have hnext : p'.nextOffset.toNat = hist.length := hrun.next_toNat (by dsimp only; omega)
  -- the next offset shows how much of the operation was written
  have htake : (inFlight st op).take (p'.nextOffset.toNat - st.acked.length) =
      (inFlight st op).take k := by
    rw [hnext, hhist, List.length_append, List.length_take, Nat.add_sub_cancel_left]
    rcases Nat.le_total k (inFlight st op).length with hle | hle
    · rw [Nat.min_eq_left hle]
    · rw [Nat.min_eq_right hle, List.take_length, List.take_of_length_le hle]
  have hrevived : StreamForge.revived st op full d' = ⟨p', (Fs.start d').execAll ops, hist⟩ := by
    unfold StreamForge.revived
    rw [heq]
    simp only [htake, hhist]
  rw [hrevived]
  exact ⟨by rw [heq], hdeg, hcons, hlen, pre, s, lo, hrun, hbefore, hafter⟩

theorem Life.runInv {n : ℕ} (h : Life st n) (hroom : n < 2 ^ 64) :
    RunInv st ∧ st.acked.length ≤ n := by
  induction h with
  | fresh partitionId partitionDir config =>
    exact ⟨runInv_init partitionId partitionDir config, le_refl _⟩
  | operate op _ hsized ih =>
    obtain ⟨hinv, hlen⟩ := ih (by omega)
    obtain ⟨hinv', hlen'⟩ := step_runInv hinv hsized (by omega)
    exact ⟨hinv', by omega⟩
  | crash op full _ hsized hkill hint ih =>
    obtain ⟨hinv, hlen⟩ := ih (by omega)
    obtain ⟨-, -, hcons, hlen', pre, s, lo, hrun, -⟩ :=
      hinv.revived hsized (by omega) hkill hint full
    exact ⟨⟨hcons, Or.inr ⟨pre, s, lo, hrun⟩⟩, by omega⟩

/-! ## Crash consistency -/

/-- What the completed recovery promises after a kill inside `op`. The history
it runs on (`revived`) is the acknowledged records and a prefix of those in
flight. -/
structure CrashConsistent (st : RunState) (op : Op) (full : Bool) (d : Disk) : Prop where
  status : ((reopened st.part full).openAndRecover (Fs.start d)).1 = .OK
  notDegraded : (revived st op full d).part.isDegraded = false
  log : LogInvariant (revived st op full d).part (revived st op full d).fs.dir
  offsets : Consecutive 0 (revived st op full d).acked
  next : (revived st op full d).part.nextOffset.toNat = (revived st op full d).acked.length
  /-- Every record is read back as it was appended, and nothing else is. -/
  reads : ∀ startOffset maxMessages maxBytes,
    ReadsAsScanned (revived st op full d) startOffset maxMessages maxBytes
  /-- Only what retention decided to delete may be missing at the front. -/
  earliest : st.part.earliestOffset.toNat ≤ (revived st op full d).part.earliestOffset.toNat ∧
    (revived st op full d).part.earliestOffset.toNat ≤ (step st op).part.earliestOffset.toNat
  nextAppend : ∀ key value ts, key.length + value.length < 2 ^ 32 - 28 →
    recordTooLarge key value = false →
    ((revived st op full d).part.appendWithTimestamp key value ts {}
      (revived st op full d).fs).1 = .ok (revived st op full d).part.nextOffset

/-- **Crash consistency.** In every life in which fewer than 2^64 records are
handed in, a kill anywhere inside an operation, followed by any number of
interrupted recoveries, is repaired by the recovery that completes. -/
theorem life_crash_consistent {st : RunState} {n : ℕ} (hlife : Life st n) {op : Op}
    (hsized : op.Sized) (hroom : n + op.count < 2 ^ 64) {d d' : Disk}
    (hkill : Killed st.fs.dir (issued st op) d) (hint : Interrupted st.part d d') (full : Bool) :
    CrashConsistent st op full d' := by
  obtain ⟨hinv, hlen⟩ := hlife.runInv (by omega)
  obtain ⟨hok, hdeg, hcons, hlen', pre, s, lo, hrun, hbefore, hafter⟩ :=
    hinv.revived hsized (by omega) hkill hint full
  have hinv' : RunInv (revived st op full d') := ⟨hcons, Or.inr ⟨pre, s, lo, hrun⟩⟩
  have hroom' : (revived st op full d').acked.length < 2 ^ 64 := by omega
  have hearly := hrun.inv.earliest hrun.chain
  refine ⟨hok, hdeg, hinv'.logInvariant hroom', hcons, hrun.next_toNat hroom',
    hinv'.readsAsScanned hroom', ⟨by omega, by omega⟩, ?_⟩
  intro key value ts hsmall hfit
  have hend := hrun.end_eq
  obtain ⟨p', ops, heq, -⟩ := appendWithTimestamp_ok hrun.inv hrun.chain ts hsmall hfit (by omega)
  rw [heq]

def smallSegments : RunState := RunState.init (Partition.new 0 [] { segmentMaxBytes := 30 })

/-- The second record of this batch rolls. -/
def rolledBatch : Op := .batch [([1], [2]), ([], [3])] 7

/-- The batch is killed inside the write of its second record, and the recovery behind it
when it has cut the torn record off. -/
theorem life_crash_consistent_batch : ∃ d d', Killed ∅ (issued smallSegments rolledBatch) d ∧
    d.lookup ⟨1, .log⟩ = some ((RecordCodec.encode ⟨1, 7, [], [3]⟩).take 5) ∧
    Interrupted smallSegments.part d d' ∧ d'.lookup ⟨1, .log⟩ = some [] ∧
    CrashConsistent smallSegments rolledBatch true d' := by
  have hops : issued smallSegments rolledBatch = (issued smallSegments rolledBatch).take 16 ++
      .append ⟨1, .log⟩ (RecordCodec.encode ⟨1, 7, [], [3]⟩) ::
        (issued smallSegments rolledBatch).drop 17 := by decide +kernel
  have hkill : ∃ d, Killed ∅ (issued smallSegments rolledBatch) d ∧
      d = (FileOp.append ⟨1, .log⟩ ((RecordCodec.encode ⟨1, 7, [], [3]⟩).take 5)).apply
        (applyAll ∅ ((issued smallSegments rolledBatch).take 16)) := by
    refine ⟨_, ?_, rfl⟩
    rw [hops]
    exact .append (.torn _ _ _ 5 _)
  obtain ⟨d, hkill, hd⟩ := hkill
  have hint := Interrupted.again true (.never d)
    (Killed.of_prefix (List.take_prefix 9 (recoverOps smallSegments.part true d)) d)
  refine ⟨d, _, hkill, by rw [hd]; decide +kernel, hint, by rw [hd]; decide +kernel, ?_⟩
  refine life_crash_consistent (Life.fresh 0 [] { segmentMaxBytes := 30 }) ?_ (by decide) hkill hint
    true
  simp only [rolledBatch, Op.Sized, List.mem_cons, List.not_mem_nil, or_false, forall_eq_or_imp,
    forall_eq]
  decide

theorem not_crashConsistent_overlong {value : Bytes} (hvalue : value.length = 2 ^ 32)
    (config : StorageConfig) :
    let st := run (RunState.init (Partition.new 0 [] config)) [.append [] value 0]
    ¬CrashConsistent st (.retain 0 0 true 0) false st.fs.dir := by
  intro st hcrash
  obtain ⟨hover, hacked⟩ := run_overlong hvalue config
  obtain ⟨hinv, -⟩ := run_runInv (runInv_init 0 [] config) rfl [.append [] [] 0]
    (by simp [Op.Sized]) (by simp [handedIn, Op.count])
  set st1 := run (RunState.init (Partition.new 0 [] config)) [.append [] [] 0]
  obtain ⟨hlen, pre, s, hrun⟩ : st1.acked.length = 0 + 1 ∧ ∃ pre s, Running st1 pre s 0 :=
    run_emptyAppends 0 [] config 0 (by norm_num)
  obtain ⟨p', ops, pre', s', heq, -, hrun', -⟩ :=
    hrun.survives.recover (by rw [hacked]; simp) (reopened st1.part false)
  set st2 : RunState := ⟨p', (Fs.start st1.fs.dir).execAll ops, st1.acked⟩ with hst2
  have hinv' : RunInv st2 := ⟨hinv.1, Or.inr ⟨pre', s', 0, hrun'⟩⟩
  have hacked' : st2.acked = [⟨0, 0, [], []⟩] := hacked
  -- the same recovery, with the value that was acknowledged
  have hrevived : revived st (.retain 0 0 true 0) false st.fs.dir =
      { st2 with acked := [⟨0, 0, [], value⟩] } := by
    change revived (run _ _) _ _ (run _ _).fs.dir = _
    rw [hover]
    simp only [revived, heq, inFlight, List.take_nil, List.append_nil, hst2]
  have hfull := hcrash.reads 0 1 1
  rw [hrevived] at hfull
  have hsame := (hinv'.readsAsScanned (by rw [hacked']; simp) 0 1 1).first_record hacked' hfull
    ((hrun'.next_toNat (by rw [hacked']; simp)).trans hlen) (hrun'.inv.earliest hrun'.chain)
  have hnil : value = [] := by simpa using (congrArg Record.value hsame).symm
  rw [hnil] at hvalue
  cases hvalue

theorem not_crashConsistent_of_full (hlen : st.acked.length = 2 ^ 64) (op : Op) (full : Bool)
    (d : Disk) : ¬CrashConsistent st op full d := by
  intro hcrash
  have hnext := hcrash.next
  have hlt := (revived st op full d).part.nextOffset.toNat_lt
  have hmore : st.acked.length ≤ (revived st op full d).acked.length := by
    unfold revived
    rw [List.length_append]
    exact Nat.le_add_right _ _
  omega

/-- **Crash consistency has the two limits of reads**: a kill right after the
2^64th append, and one right after a value of 2^32 bytes. -/
theorem crash_consistency_fails_beyond_limits :
    ¬CrashConsistent
      (run (RunState.init (Partition.new 0 [] {})) (emptyAppends (18446744073709551615 + 1)))
      (.retain 0 0 true 0) false
      (run (RunState.init (Partition.new 0 [] {}))
        (emptyAppends (18446744073709551615 + 1))).fs.dir ∧
    ¬CrashConsistent
      (run (RunState.init (Partition.new 0 [] {})) [.append [] (List.replicate (2 ^ 32) 88) 0])
      (.retain 0 0 true 0) false
      (run (RunState.init (Partition.new 0 [] {}))
        [.append [] (List.replicate (2 ^ 32) 88) 0]).fs.dir := by
  refine ⟨?_, not_crashConsistent_overlong List.length_replicate {}⟩
  obtain ⟨-, hlen, -⟩ := wrapped_run 0 [] {} 18446744073709551615 (by norm_num)
  exact not_crashConsistent_of_full hlen _ _ _

end StreamForge
