import StreamForge.Foundation.Transition
import StreamForge.Storage.FaultyAppend

/-!
# Runs with failing I/O

Appends, batches, retention passes and restarts of one partition, where each
record comes with the faults it meets. The run keeps the records whose call
returned OK.

As long as every fault is a clean one the partition holds a log that contains all
of them (`Logged`); a batch may have left more. The two ways in which the code
gets out of step are an index write that fails behind a complete log write, which
makes it give out an offset twice, and a log write that fails half way, which
moves every later record of the segment away from where it is looked for.
-/

namespace StreamForge

open FileTrace FileHandle Transition StreamForge.Partition

inductive Call where
  | append (key value : Bytes) (timestampMs : Int64) (ft : Faults)
  | batch (items : List (Bytes × Bytes)) (nowMs : Int64) (fts : List Faults)
  | retain (retentionMs retentionBytes : UInt64) (dryRun : Bool) (nowMs : Int64)
  | restart (full : Bool)

def call (st : RunState) : Call → RunState
  | .append key value ts ft =>
    match st.part.appendWithTimestamp key value ts ft st.fs with
    | (.ok offset, p, fs) => ⟨p, fs, st.acked ++ [⟨offset, ts, key, value⟩]⟩
    | (.error _, p, fs) => ⟨p, fs, st.acked⟩
  | .batch items nowMs fts =>
    match st.part.appendBatch items nowMs fts st.fs with
    | (.ok offset, p, fs) => ⟨p, fs, st.acked ++ assign offset nowMs items⟩
    | (.error _, p, fs) => ⟨p, fs, st.acked⟩
  | .retain retentionMs retentionBytes dryRun nowMs =>
    match st.part.scanAndDeleteSegments retentionMs retentionBytes dryRun nowMs st.fs with
    | (_, p, fs) => ⟨p, fs, st.acked⟩
  | .restart full =>
    match (reopened st.part full).openAndRecover (Fs.start st.fs.dir) with
    | (_, p, fs) => ⟨p, fs, st.acked⟩

def Started (st : RunState) : Prop :=
  ∃ partitionId partitionDir config,
    st = RunState.init (Partition.new partitionId partitionDir config)

namespace Call

def count : Call → ℕ
  | append _ _ _ _ => 1
  | batch items _ _ => items.length
  | retain _ _ _ _ => 0
  | restart _ => 0

def Sized : Call → Prop
  | append key value _ _ => key.length + value.length < 2 ^ 32 - 28
  | batch items _ _ => ∀ item ∈ items, item.1.length + item.2.length < 2 ^ 32 - 28
  | retain _ _ _ _ => True
  | restart _ => True

instance : (c : Call) → Decidable c.Sized
  | append key value _ _ => inferInstanceAs (Decidable (key.length + value.length < 2 ^ 32 - 28))
  | batch items _ _ => inferInstanceAs
      (Decidable (∀ item ∈ items, item.1.length + item.2.length < 2 ^ 32 - 28))
  | retain _ _ _ _ => inferInstanceAs (Decidable True)
  | restart _ => inferInstanceAs (Decidable True)

def InRange (st : RunState) (c : Call) : Prop :=
  c.Sized ∧ st.part.nextOffset.toNat + c.count < 2 ^ 64

/-- `Q` holds of every record the call gets to, in the state that finds it. -/
def Each (Q : Partition → Bytes → Bytes → Faults → FileSystem → Prop) (st : RunState) : Call → Prop
  | append key value _ ft =>
    recordTooLarge key value = false → Q st.part key value ft st.fs
  | batch items nowMs fts =>
    refusesBatch items = false → st.part.AlongBatch Q nowMs items fts st.fs
  | retain _ _ _ _ => True
  | restart _ => True

/-- A retention pass is the only call that gives records up. -/
def Keeps : Call → Prop
  | retain _ _ _ _ => False
  | _ => True

end Call

variable {Q R : Partition → Bytes → Bytes → Faults → FileSystem → Prop} {nowMs : Int64}
    {batch : List (Bytes × Bytes)} {st : RunState} {c : Call}

theorem Partition.AlongBatch.mono
    (hQR : ∀ p key value ft fs, Q p key value ft fs → R p key value ft fs) :
    ∀ {p : Partition} {fts : List Faults} {fs : FileSystem},
    p.AlongBatch Q nowMs batch fts fs → p.AlongBatch R nowMs batch fts fs := by
  induction batch with
  | nil => exact fun _ => trivial
  | cons item rest ih =>
    intro p fts fs h
    exact ⟨hQR _ _ _ _ _ h.1, fun hok => ih (h.2 hok)⟩

theorem Call.Each.mono (hQR : ∀ p key value ft fs, Q p key value ft fs → R p key value ft fs)
    (h : c.Each Q st) : c.Each R st := by
  cases c with
  | append key value ts ft => exact fun hfit => hQR _ _ _ _ _ (h hfit)
  | batch items nowMs fts => exact fun hfit => (h hfit).mono hQR
  | retain retentionMs retentionBytes dryRun nowMs => trivial
  | restart full => trivial

/-! ## The log behind a run -/

/-- **The invariant of clean runs**: the partition holds what retention has left
of `log`, in step with its directory. -/
structure Logged (st : RunState) (log : List Record) : Prop where
  inv : RunInv ⟨st.part, st.fs, log⟩
  room : log.length < 2 ^ 64

section Logged

variable {st : RunState} {log : List Record}

theorem Logged.next (h : Logged st log) : st.part.nextOffset.toNat = log.length :=
  h.inv.next_toNat h.room

theorem Logged.visible (h : Logged st log) :
    Visible st.part.earliestOffset.toNat (log.drop st.part.earliestOffset.toNat) st.part st.fs ∧
      st.part.earliestOffset.toNat ≤ log.length := by
  obtain ⟨-, ⟨hfresh, hnil⟩ | ⟨pre, s, start, hrun⟩⟩ := h.inv
  · have hvis := @Fresh.visible st.part st.fs hfresh
    rw [hvis.earliest]
    exact ⟨by rw [List.drop_zero, show log = [] from hnil]; exact hvis, Nat.zero_le _⟩
  · have hvis := @PartInv.visible st.part st.fs pre s start hrun.inv hrun.chain
    rw [hvis.earliest]
    exact ⟨by rw [← hrun.stored]; exact hvis, hrun.le⟩

theorem logged_started (h : Started st) : Logged st [] ∧ st.acked = [] := by
  obtain ⟨partitionId, partitionDir, config, rfl⟩ := h
  exact ⟨⟨runInv_init partitionId partitionDir config, by simp⟩, rfl⟩

theorem Logged.recovered {start : ℕ} {p : Partition} {fs : FileSystem} (hcons : Consecutive 0 log)
    (hroom : log.length < 2 ^ 64) (hle : start ≤ log.length)
    (h : Visible start (log.drop start) p fs) (q : Partition) (acked : List Record) :
    ∃ p' fs', q.openAndRecover (Fs.start fs.dir) = (.OK, p', fs') ∧
      Logged ⟨p', fs', acked⟩ log ∧ p'.earliestOffset.toNat = start := by
  have hlen : start + (log.drop start).length = log.length := by
    rw [List.length_drop]
    omega
  obtain ⟨p', ops, pre, s, heq, hinv, hchain, hflat, -⟩ := h.recover (by omega) q
  exact ⟨p', _, heq, ⟨⟨hcons, Or.inr ⟨pre, s, start, hinv, hchain, hle, hflat⟩⟩, hroom⟩,
    hinv.earliest hchain⟩

end Logged

/-- What a call may add: some of its records, and all of them if it returned OK. -/
structure CallAdds (st : RunState) (log : List Record) (st' : RunState) (new : List Record) :
    Prop where
  logged : Logged st' (log ++ new)
  acked : st'.acked = st.acked ∨ st'.acked = st.acked ++ new
  earliest : st'.part.earliestOffset.toNat = st.part.earliestOffset.toNat

section Clean

variable {st : RunState} {log : List Record}

theorem Logged.restart (h : Logged st log) (full : Bool) :
    CallAdds st log (call st (.restart full)) [] := by
  obtain ⟨hvis, hle⟩ := h.visible
  obtain ⟨p', fs', heq, hlogged, hearly⟩ :=
    Logged.recovered h.inv.1 h.room hle hvis (reopened st.part full) st.acked
  have hcall : call st (.restart full) = ⟨p', fs', st.acked⟩ := by simp only [call, heq]
  rw [hcall]
  exact ⟨by rw [List.append_nil]; exact hlogged, Or.inl rfl, hearly⟩

theorem Running.logged {pre : List SegmentData} {s : SegmentData} {start : ℕ}
    (h : Running ⟨st.part, st.fs, log⟩ pre s start) (hcons : Consecutive 0 log) {new : List Record}
    (hnew : Consecutive log.length new) (hroom : (log ++ new).length < 2 ^ 64) {st' : RunState}
    (hinv : ∃ pre' s', PartInv st'.part st'.fs.dir pre' s' ∧ Chained start (pre' ++ [s']) ∧
      flat (pre' ++ [s']) = flat (pre ++ [s]) ++ new)
    (hacked : st'.acked = st.acked ∨ st'.acked = st.acked ++ new) :
    CallAdds st log st' new where
  logged := ⟨h.extended hcons hnew hinv, hroom⟩
  acked := hacked
  earliest := by
    obtain ⟨pre', s', hinv, hchain, -⟩ := hinv
    rw [hinv.earliest hchain]
    exact (h.inv.earliest h.chain).symm

theorem append_clean {pre : List SegmentData} {s : SegmentData} {start : ℕ} {key value : Bytes}
    {ts : Int64} {ft : Faults} (h : Running ⟨st.part, st.fs, log⟩ pre s start)
    (hcons : Consecutive 0 log) (hsized : key.length + value.length < 2 ^ 32 - 28)
    (hroom : log.length + 1 < 2 ^ 64) (hfit : recordTooLarge key value = false)
    (hclean : CleanFault st.part key value ft st.fs) :
    ∃ new, CallAdds st log (call st (.append key value ts ft)) new := by
  have hr : (⟨st.part.nextOffset, ts, key, value⟩ : Record).Fits :=
    (recordTooLarge_iff hsized).mp hfit
  have hend := h.end_eq
  have hnext : st.part.nextOffset.toNat = log.length := h.next_toNat (by simp only; omega)
  have hbase := (h.inv.next_toNat h.chain (by simp only at hend; omega)).trans
    (chained_end h.chain).symm
  have happ : st.part.appendWithTimestamp key value ts ft st.fs =
      match st.part.appendRecord key value ts st.part.config.syncOnAppend ft st.fs with
      | (status, p', fs) =>
        (if status.ok then .ok st.part.nextOffset else .error status, p', fs) := by
    unfold appendWithTimestamp
    rw [hfit, if_neg Bool.false_ne_true]
  obtain ⟨p', ops, heq, ⟨herr, hkept⟩ | ⟨hok, hadd⟩⟩ :=
    h.inv.appendRecord_clean h.chain hr hbase rfl st.part.config.syncOnAppend hclean
  · have hcall : call st (.append key value ts ft) = ⟨p', st.fs.execAll ops, st.acked⟩ := by
      simp only [call, happ, heq, herr, Bool.false_eq_true, if_false]
    rw [hcall]
    refine ⟨[], h.logged hcons (Consecutive.nil _) ?_ (by simpa using hkept.inv) (Or.inl rfl)⟩
    rw [List.append_nil]
    omega
  · have hcall : call st (.append key value ts ft) =
        ⟨p', st.fs.execAll ops, st.acked ++ [⟨st.part.nextOffset, ts, key, value⟩]⟩ := by
      simp only [call, happ, heq, hok, Status.ok_OK, if_true]
    rw [hcall]
    refine ⟨_, h.logged hcons ?_ ?_ hadd.inv (Or.inr rfl)⟩
    · rw [← List.nil_append [_]]
      exact (Consecutive.nil _).snoc (by simpa using hnext)
    · rw [List.length_append, List.length_singleton]
      exact hroom

theorem batch_clean {pre : List SegmentData} {s : SegmentData} {start : ℕ}
    {items : List (Bytes × Bytes)} {nowMs : Int64} {fts : List Faults}
    (h : Running ⟨st.part, st.fs, log⟩ pre s start) (hcons : Consecutive 0 log)
    (hsized : ∀ item ∈ items, item.1.length + item.2.length < 2 ^ 32 - 28)
    (hroom : log.length + items.length < 2 ^ 64) (hfit : refusesBatch items = false)
    (hclean : st.part.AlongBatch CleanFault nowMs items fts st.fs) :
    ∃ new, CallAdds st log (call st (.batch items nowMs fts)) new := by
  have hend := h.end_eq
  have hnext : st.part.nextOffset.toNat = log.length := h.next_toNat (by simp only; omega)
  obtain ⟨p', ops, n, heq, hprog, hall⟩ :=
    @appendRecords_clean start nowMs items st.part st.fs pre s
    fts ⟨h.inv, h.chain, hsized, recordTooLarge_of_refusesBatch
      hfit, by simp only at hend; omega⟩ hclean
  have hnew : Consecutive log.length (assign st.part.nextOffset nowMs items) := by
    rw [← hnext]
    exact consecutive_assign nowMs items (by omega)
  have hlen : (log ++ (assign st.part.nextOffset nowMs items).take n).length < 2 ^ 64 := by
    rw [List.length_append, List.length_take, length_assign]
    omega
  have hbatch := appendBatch_accepted hfit st.part nowMs fts st.fs
  generalize hres : st.part.appendRecords nowMs items fts st.fs = res at heq hall hbatch
  obtain ⟨status, rest⟩ := res
  simp only at heq hall
  subst heq
  cases hok : status.ok with
  | false =>
    have hcall : call st (.batch items nowMs fts) = ⟨p', st.fs.execAll ops, st.acked⟩ := by
      simp only [call, hbatch, hok, Bool.not_false, if_true]
    rw [hcall]
    exact ⟨_, h.logged hcons (hnew.take n) hlen hprog.inv (Or.inl rfl)⟩
  | true =>
    have htake : (assign st.part.nextOffset nowMs items).take n =
      assign st.part.nextOffset nowMs items := by
      rw [hall hok, ← length_assign st.part.nextOffset nowMs items, List.take_length]
    simp only [call, hbatch, hok, Bool.not_true, Bool.false_eq_true, if_false]
    refine ⟨_, h.logged hcons (hnew.take n) hlen ?_ (Or.inr (by rw [htake]))⟩
    split
    · simp only [Partition.flush, foldl_flush_eq, Fs.execAll_execAll, Fs.execAll_dir,
        applyAll_append, applyAll_flushAllOps]
      exact hprog.inv
    · exact hprog.inv

/-- The state after the roll that the first append of a fresh partition makes. -/
def rolledFirst (st : RunState) : RunState :=
  ⟨firstRoll st.part st.fs.dir, st.fs.execAll (firstRollOps st.part), st.acked⟩

theorem Fresh.call_append {key value : Bytes} {ts : Int64} {ft : Faults}
    (h : Fresh st.part st.fs.dir) (hfit : recordTooLarge key value = false)
    (hclean : CleanFault st.part key value ft st.fs) :
    call st (.append key value ts ft) = st ∨
      call st (.append key value ts ft) = call (rolledFirst st) (.append key value ts ft) ∧
        CleanFault (rolledFirst st).part key value ft (rolledFirst st).fs := by
  cases hlog : ft.openLog with
  | true =>
    obtain ⟨ops, herr, heq, -, hops⟩ := h.makeRoom_failed (Or.inl hlog) key value
    rw [hops hclean.roll, Fs.execAll_nil] at heq
    refine Or.inl ?_
    have happ := appendRecord_of_makeRoom_error herr ts st.part.config.syncOnAppend
    simp only [call, appendWithTimestamp, hfit, Bool.false_eq_true, if_false, happ, heq, herr]
  | false =>
    refine Or.inr ⟨?_, h.cleanFault hlog hclean⟩
    simp only [call, rolledFirst, appendWithTimestamp, hfit, Bool.false_eq_true, if_false,
      h.appendRecord_eq hlog hclean.roll]
    rfl

theorem Fresh.call_batch {items : List (Bytes × Bytes)} {nowMs : Int64} {fts : List Faults}
    (h : Fresh st.part st.fs.dir) (hfit : refusesBatch items = false)
    (hclean : st.part.AlongBatch CleanFault nowMs items fts st.fs) :
    call st (.batch items nowMs fts) = st ∨
      call st (.batch items nowMs fts) = call (rolledFirst st) (.batch items nowMs fts) ∧
        (rolledFirst st).part.AlongBatch CleanFault nowMs items fts (rolledFirst st).fs := by
  cases items with
  | nil => cases hfit
  | cons item rest =>
    obtain ⟨key, value⟩ := item
    obtain ⟨hfirst, hrest⟩ := hclean
    cases hlog : (fts.headD {}).openLog with
    | true =>
      obtain ⟨ops, herr, heq, -, hops⟩ := h.makeRoom_failed (Or.inl hlog) key value
      rw [hops hfirst.roll, Fs.execAll_nil] at heq
      refine Or.inl ?_
      have happ := appendRecord_of_makeRoom_error herr nowMs false
      have hloop := @appendRecords_cons_error nowMs st.part key value rest fts st.fs
        (by rw [happ]; exact herr)
      simp only [call, appendBatch_accepted hfit, hloop, happ, heq, herr, Bool.not_false, if_true]
    | false =>
      refine Or.inr ⟨?_, h.cleanFault hlog hfirst, ?_⟩
      · simp only [call, rolledFirst, appendBatch_accepted hfit,
          h.appendRecords_eq hlog hfirst.roll (List.cons_ne_nil _ _)]
        rfl
      · rw [h.appendRecord_eq hlog hfirst.roll] at hrest
        exact hrest

theorem Fresh.callAdds (h : Fresh st.part st.fs.dir) {st' : RunState} {new : List Record}
    (hadds : CallAdds (rolledFirst st) log st' new) : CallAdds st log st' new where
  logged := hadds.logged
  acked := hadds.acked
  earliest := by
    rw [hadds.earliest, (@Fresh.visible st.part st.fs h).earliest]
    exact h.inv.earliest (chained_snoc.mpr ⟨trivial, by simp, rfl, Consecutive.nil _⟩)

/-- **A call with clean faults** adds some of its records behind the log. -/
theorem Logged.callAdds (h : Logged st log) {c : Call} (hkeeps : c.Keeps) (hrange : c.InRange st)
    (hclean : c.Each CleanFault st) : ∃ new, CallAdds st log (call st c) new := by
  obtain ⟨hsized, hroom⟩ := hrange
  rw [h.next] at hroom
  have hsame : call st c = st → ∃ new, CallAdds st log (call st c) new := by
    intro heq
    rw [heq]
    exact ⟨[], by rw [List.append_nil]; exact h, Or.inl rfl, rfl⟩
  obtain ⟨hcons, hstate⟩ := h.inv
  cases c with
  | append key value ts ft =>
    simp only [Call.count] at hroom
    cases hfit : recordTooLarge key value with
    | true => exact hsame (by simp only [call, appendWithTimestamp_refused hfit])
    | false =>
      rcases hstate with ⟨hfresh, hnil⟩ | ⟨pre, s, start, hrun⟩
      · rcases @Fresh.call_append st key value ts ft hfresh hfit (hclean hfit) with heq |
          ⟨heq, hclean'⟩
        · exact hsame heq
        · rw [heq]
          obtain ⟨new, hadds⟩ := @append_clean (rolledFirst st) log [] ⟨0, []⟩ 0 key value ts ft
            (hfresh.running hnil) hcons hsized hroom hfit hclean'
          exact ⟨new, @Fresh.callAdds st log hfresh _ new hadds⟩
      · exact append_clean hrun hcons hsized hroom hfit (hclean hfit)
  | batch items nowMs fts =>
    simp only [Call.count] at hroom
    cases hfit : refusesBatch items with
    | true =>
      obtain ⟨status, heq⟩ := appendBatch_refused hfit st.part nowMs fts st.fs
      exact hsame (by simp only [call, heq])
    | false =>
      rcases hstate with ⟨hfresh, hnil⟩ | ⟨pre, s, start, hrun⟩
      · rcases @Fresh.call_batch st items nowMs fts hfresh hfit (hclean hfit) with heq |
          ⟨heq, hclean'⟩
        · exact hsame heq
        · rw [heq]
          obtain ⟨new, hadds⟩ := @batch_clean (rolledFirst st) log [] ⟨0, []⟩ 0 items nowMs fts
            (hfresh.running hnil) hcons hsized hroom hfit hclean'
          exact ⟨new, @Fresh.callAdds st log hfresh _ new hadds⟩
      · exact batch_clean hrun hcons hsized hroom hfit (hclean hfit)
  | retain retentionMs retentionBytes dryRun nowMs => exact hkeeps.elim
  | restart full => exact ⟨[], h.restart full⟩

end Clean

def CallStep (st : RunState) (c : Call) (st' : RunState) : Prop := st' = call st c

/-- **Clean runs** keep a log; without retention it starts at offset 0 and
contains what was acknowledged. -/
theorem reach_logged {P : RunState → Call → Prop}
    (hP : ∀ st c, P st c → c.Keeps ∧ c.InRange st ∧ c.Each CleanFault st)
    (h : Reach Started CallStep P st) :
    ∃ log, Logged st log ∧ st.part.earliestOffset.toNat = 0 ∧ ∀ r ∈ st.acked, r ∈ log := by
  refine Reach.invariant (I := fun st => ∃ log, Logged st log ∧
    st.part.earliestOffset.toNat = 0 ∧ ∀ r ∈ st.acked, r ∈ log) ?_ ?_ h
  · intro st hst
    obtain ⟨hlogged, hacked⟩ := logged_started hst
    obtain ⟨partitionId, partitionDir, config, rfl⟩ := hst
    exact ⟨[], hlogged, rfl, by simp [hacked]⟩
  · rintro st c _ ⟨log, hlogged, hzero, hacked⟩ hguard rfl
    obtain ⟨hkeeps, hrange, hclean⟩ := hP st c hguard
    obtain ⟨new, hadds⟩ := hlogged.callAdds hkeeps hrange hclean
    refine ⟨log ++ new, hadds.logged, hadds.earliest.trans hzero, ?_⟩
    intro r hr
    rcases hadds.acked with heq | heq
    · rw [heq] at hr
      exact List.mem_append_left _ (hacked r hr)
    · rw [heq] at hr
      rcases List.mem_append.mp hr with hr | hr
      · exact List.mem_append_left _ (hacked r hr)
      · exact List.mem_append_right _ hr

theorem Logged.retain {st : RunState} {log : List Record} (h : Logged st log)
    (retentionMs retentionBytes : UInt64) (dryRun : Bool) (nowMs : Int64) :
    Logged (call st (.retain retentionMs retentionBytes dryRun nowMs)) log :=
  ⟨(@step_runInv _ h.inv (.retain retentionMs retentionBytes dryRun nowMs) trivial
    (by simpa [Op.count] using h.room)).1, h.room⟩

theorem reach_exists_logged
    (h : Reach Started CallStep (fun st c => c.InRange st ∧ c.Each CleanFault st) st) :
    ∃ log, Logged st log := by
  refine Reach.invariant (I := fun st => ∃ log, Logged st log) ?_ ?_ h
  · intro st hst
    exact ⟨[], (logged_started hst).1⟩
  · rintro st c _ ⟨log, hlogged⟩ ⟨hrange, hclean⟩ rfl
    cases c with
    | retain retentionMs retentionBytes dryRun nowMs =>
      exact ⟨log, hlogged.retain retentionMs retentionBytes dryRun nowMs⟩
    | append key value ts ft =>
      obtain ⟨new, hadds⟩ := hlogged.callAdds (c := .append key value ts ft) trivial hrange hclean
      exact ⟨_, hadds.logged⟩
    | batch items nowMs fts =>
      obtain ⟨new, hadds⟩ := hlogged.callAdds (c := .batch items nowMs fts) trivial hrange hclean
      exact ⟨_, hadds.logged⟩
    | restart full => exact ⟨_, (hlogged.restart full).logged⟩

/-! ## Log writes that fail -/

/-- What an acknowledgement promises: the record can be read, now and after a
restart, and the sizes in memory are those of the files. -/
structure AckedReadable (st : RunState) : Prop where
  running : ∀ r ∈ st.acked, ∀ maxMessages maxBytes,
    ∃ rest, st.part.read st.fs r.offset maxMessages maxBytes = ⟨r :: rest, .OK⟩
  restarted : ∀ full, ∀ r ∈ st.acked, ∀ maxMessages maxBytes, ∃ rest,
    (call st (.restart full)).part.read (call st (.restart full)).fs r.offset maxMessages maxBytes =
      ⟨r :: rest, .OK⟩
  sizes : ∀ seg ∈ st.part.segments,
    (st.fs.dir.lookup seg.logFile).map List.length = some seg.logSizeBytes

theorem Logged.ackedReadable {log : List Record} (h : Logged st log)
    (hzero : st.part.earliestOffset.toNat = 0) (hacked : ∀ r ∈ st.acked, r ∈ log) :
    AckedReadable st where
  running r hr := h.inv.read_at h.room (hacked r hr) (by simp only; omega)
  restarted full r hr := by
    have hrestart := h.restart full
    have hlogged := hrestart.logged
    rw [List.append_nil] at hlogged
    have hearly := hrestart.earliest
    exact hlogged.inv.read_at hlogged.room (hacked r hr) (by simp only; omega)
  sizes := by
    have hroom := h.room
    obtain ⟨-, ⟨hfresh, -⟩ | ⟨pre, s, start, hrun⟩⟩ := h.inv
    · have hnone : st.part.segments = [] := hfresh.segments
      simp [hnone]
    · have hend := hrun.end_eq
      exact (hrun.inv.logInvariant hrun.chain (by simp only at hend; omega)).size

def LogFault (_ : Partition) (_ _ : Bytes) (ft : Faults) (_ : FileSystem) : Prop :=
  ft = { logWrite := ft.logWrite }

/-- A log write that fails has written nothing. -/
def WholeOrNothing (_ : Partition) (key value : Bytes) (ft : Faults) (_ : FileSystem) : Prop :=
  ∀ k, ft.logWrite = some k → k = 0 ∨ recordSize key value ≤ k

variable {p : Partition} {key value : Bytes} {ft : Faults} {fs : FileSystem} {rs : List Record}

theorem cleanFault_of_log (hlog : LogFault p key value ft fs)
    (hwhole : WholeOrNothing p key value ft fs) :
    CleanFault p key value ft fs := by
  rw [LogFault] at hlog
  refine ⟨by rw [hlog], hwhole, ?_⟩
  have hindex : ft.indexShort = false := by
    rw [hlog]
    rfl
  simp [indexWriteFails, hindex]

theorem Partition.AlongBatch.and : ∀ {p : Partition} {fts : List Faults} {fs : FileSystem},
    p.AlongBatch Q nowMs batch fts fs → p.AlongBatch R nowMs batch fts fs →
    p.AlongBatch (fun p key value ft fs => Q p key value ft fs ∧ R p key value ft fs)
      nowMs batch fts fs := by
  induction batch with
  | nil => exact fun _ _ => trivial
  | cons item rest ih =>
    intro p fts fs hQ hR
    exact ⟨⟨hQ.1, hR.1⟩, fun hok => ih (hQ.2 hok) (hR.2 hok)⟩

theorem Call.Each.and (hQ : c.Each Q st) (hR : c.Each R st) :
    c.Each (fun p key value ft fs => Q p key value ft fs ∧ R p key value ft fs) st := by
  cases c with
  | append key value ts ft => exact fun hfit => ⟨hQ hfit, hR hfit⟩
  | batch items nowMs fts => exact fun hfit => (hQ hfit).and (hR hfit)
  | retain retentionMs retentionBytes dryRun nowMs => trivial
  | restart full => trivial

/-- **Acknowledged records survive failed log writes** in every run in which those
writes leave nothing in the file. -/
theorem acked_readable_of_whole_writes {st : RunState}
    (h : Reach Started CallStep
      (fun st c => c.Keeps ∧ c.InRange st ∧ c.Each LogFault st ∧ c.Each WholeOrNothing st) st) :
    AckedReadable st := by
  obtain ⟨log, hlogged, hzero, hacked⟩ := reach_logged
    (fun st c hguard => ⟨hguard.1, hguard.2.1, (hguard.2.2.1.and hguard.2.2.2).mono
      fun _ _ _ _ _ hboth => cleanFault_of_log hboth.1 hboth.2⟩) h
  exact hlogged.ackedReadable hzero hacked

/-- A write that fails with nothing written, between two that succeed. -/
theorem acked_readable_after_failed_write :
    AckedReadable (call (call (call (RunState.init (Partition.new 0 [] {}))
      (.append [1] [2] 5 {})) (.append [3] [4] 6 { logWrite := some 0 }))
        (.append [5] [6] 7 {})) := by
  refine acked_readable_of_whole_writes ((((Reach.init ⟨0, [], {}, rfl⟩).step
    (a := .append [1] [2] 5 {}) ?_ rfl).step (a := .append [3] [4] 6 { logWrite := some 0 }) ?_
    rfl).step (a := .append [5] [6] 7 {}) ?_ rfl)
  · exact ⟨trivial, ⟨by decide, by decide +kernel⟩, fun _ => rfl, fun _ k hk => nomatch hk⟩
  · exact ⟨trivial, ⟨by decide, by decide +kernel⟩, fun _ => rfl,
      fun _ k hk => Or.inl (Option.some.inj hk).symm⟩
  · exact ⟨trivial, ⟨by decide, by decide +kernel⟩, fun _ => rfl, fun _ k hk => nomatch hk⟩

/-- Five bytes of the second record stay in the file, and the third lands behind
them. -/
theorem acked_unreadable_after_short_write :
    ∃ st : RunState, st = [Call.append [1] [2] 5 {}, .append [3] [4] 6 { logWrite := some 5 },
        .append [5] [6] 7 {}].foldl call (RunState.init (Partition.new 0 [] {})) ∧
      ⟨1, 7, [5], [6]⟩ ∈ st.acked ∧
      (∀ rest, st.part.read st.fs 1 10 1000 ≠ ⟨⟨1, 7, [5], [6]⟩ :: rest, .OK⟩) ∧
      (∀ rest, (call st (.restart true)).part.read (call st (.restart true)).fs 1 10 1000 ≠
        ⟨⟨1, 7, [5], [6]⟩ :: rest, .OK⟩) ∧
      ∃ seg ∈ st.part.segments,
        (st.fs.dir.lookup seg.logFile).map List.length ≠ some seg.logSizeBytes := by
  refine ⟨_, rfl, by decide +kernel, ?_, ?_, ?_⟩
  · intro rest h
    have hhead := congrArg (fun res => res.records.head?.map Record.offset) h
    revert hhead
    simp only [List.head?_cons, Option.map_some]
    decide +kernel
  · intro rest h
    have hhead := congrArg (fun res => res.records.head?.map Record.offset) h
    revert hhead
    simp only [List.head?_cons, Option.map_some]
    decide +kernel
  · decide +kernel

/-! ## Index writes that fail -/

def logRecords : ℕ → Bytes → List Record
  | 0, _ => []
  | fuel + 1, file =>
    match RecordCodec.decode file with
    | .error _ => []
    | .ok record => record :: logRecords fuel (file.drop (4 + readU32 file))

def storedRecords (d : Disk) : List Record :=
  (listBaseOffsets d).flatMap fun base =>
    let file := (d.lookup ⟨base, .log⟩).getD []
    logRecords file.length file

theorem logRecords_encodeAll :
    ∀ fuel, rs.length ≤ fuel → (∀ r ∈ rs, r.Fits) → logRecords fuel (encodeAll rs) = rs := by
  induction rs with
  | nil =>
    intro fuel _ _
    cases fuel <;> rfl
  | cons r rest ih =>
    intro fuel hfuel hfits
    obtain ⟨fuel, rfl⟩ : ∃ n, fuel = n + 1 :=
      ⟨fuel - 1, by simp only [List.length_cons] at hfuel; omega⟩
    have hr : r.Fits := hfits r (List.mem_cons_self ..)
    have hsize : 4 + (r.size - 4) = (RecordCodec.encode r).length := by
      rw [RecordCodec.length_encode_of_fits hr]
      unfold Record.size
      omega
    have hfile : encodeAll (r :: rest) = RecordCodec.encode r ++ encodeAll rest := rfl
    rw [hfile, logRecords, RecordCodec.decode_encode hr]
    simp only
    rw [RecordCodec.readU32_encode hr, hsize, List.drop_left,
      ih fuel (by simpa using hfuel) fun x hx => hfits x (List.mem_cons_of_mem _ hx)]

theorem DiskInv.storedRecords {d : Disk} {segs : List SegmentData} (h : DiskInv d segs []) :
    storedRecords d = flat segs := by
  have hfiles : ∀ s ∈ segs, SegFiles d s [] := by
    intro s hs
    rcases List.eq_nil_or_concat segs with rfl | ⟨pre, last, rfl⟩
    · cases hs
    rw [List.concat_eq_append] at hs h
    rcases List.mem_append.mp hs with hs | hs
    · exact (h.closed s (by simpa using hs)).files
    · obtain rfl : s = last := by simpa using hs
      exact (h.active s (by simp)).1
  rw [StreamForge.storedRecords, h.listBaseOffsets, flat, List.flatMap_map]
  refine List.flatMap_congr fun s hs => ?_
  have hlog := (hfiles s hs).log
  rw [List.append_nil] at hlog
  simp only [hlog, Option.getD_some]
  exact logRecords_encodeAll _ (length_le_encodeAll _) (hfiles s hs).fits

structure OffsetsUnique (st : RunState) : Prop where
  stored : ((storedRecords st.fs.dir).map Record.offset).Nodup
  reads : ∀ startOffset maxMessages maxBytes,
    ((st.part.read st.fs startOffset maxMessages maxBytes).records).Sublist st.acked

theorem scannedFrom_sublist (maxMessages maxBytes : ℕ) (rs : List Record) :
    ∀ msgs bytes, (scannedFrom maxMessages maxBytes msgs bytes rs).Sublist rs := by
  induction rs with
  | nil =>
    intro msgs bytes
    exact List.Sublist.refl _
  | cons r rest ih =>
    intro msgs bytes
    unfold scannedFrom
    split
    · exact (List.nil_sublist rest).cons_cons r
    · exact (ih _ _).cons_cons r

theorem Consecutive.nodup {start : ℕ} (h : Consecutive start rs) :
    (rs.map Record.offset).Nodup := by
  rw [List.nodup_iff_injective_getElem]
  rintro ⟨i, hi⟩ ⟨j, hj⟩ heq
  rw [List.length_map] at hi hj
  simp only [List.getElem_map] at heq
  have hat := h i _ (List.getElem?_eq_getElem hi)
  have hat' := h j _ (List.getElem?_eq_getElem hj)
  rw [heq] at hat
  simp only [Fin.mk.injEq]
  omega

theorem RunInv.storedRecords (h : RunInv st) :
    ∃ start, storedRecords st.fs.dir = st.acked.drop start := by
  obtain ⟨-, ⟨hfresh, -⟩ | ⟨pre, s, start, hrun⟩⟩ := h
  · exact ⟨st.acked.length, by rw [hfresh.disk.storedRecords, List.drop_length, flat_nil]⟩
  · exact ⟨start, by rw [hrun.inv.disk.storedRecords, hrun.stored]⟩

theorem RunInv.offsetsUnique (h : RunInv st) (hroom : st.acked.length < 2 ^ 64) :
    OffsetsUnique st where
  stored := by
    obtain ⟨start, hstored⟩ := h.storedRecords
    rw [hstored, List.map_drop]
    exact (Consecutive.nodup h.1).sublist (List.drop_sublist _ _)
  reads startOffset maxMessages maxBytes := by
    have hread := h.readsAsScanned hroom startOffset maxMessages maxBytes
    by_cases hend : startOffset = st.part.nextOffset
    · rw [hread.atEnd hend]
      exact List.nil_sublist _
    · by_cases hout : st.part.nextOffset < startOffset ∨ startOffset < st.part.earliestOffset
      · rw [(hread.outside.mpr ⟨hend, hout⟩).2]
        exact List.nil_sublist _
      · rw [not_or, UInt64.not_lt, UInt64.not_lt] at hout
        rw [hread.inside (UInt64.lt_of_le_of_ne hout.1 hend) hout.2]
        exact ((scannedFrom_sublist _ _ _ _ _).trans (List.take_sublist _ _)).trans
          (List.drop_sublist _ _)

/-- Only index writes fail, and they write nothing then. -/
def IndexFault (_ : Partition) (_ _ : Bytes) (ft : Faults) (_ : FileSystem) : Prop :=
  ft = {} ∨ ft = { indexWrite := some 0 }

def IndexWritten (p : Partition) (key value : Bytes) (ft : Faults) (fs : FileSystem) : Prop :=
  p.indexWriteFails key value ft fs = false

theorem appendRecord_indexWritten (hft : IndexFault p key value ft fs)
    (hdone : IndexWritten p key value ft fs) (ts : Int64) (sync : Bool) :
    p.appendRecord key value ts sync ft fs = p.appendRecord key value ts sync {} fs := by
  rcases hft with rfl | rfl
  · rfl
  have hroom : p.makeRoom key value { indexWrite := some 0 } fs = p.makeRoom key value {} fs := rfl
  unfold IndexWritten indexWriteFails leavesUnwritten at hdone
  unfold appendRecord
  rw [hroom] at hdone ⊢
  generalize p.makeRoom key value {} fs = res at hdone ⊢
  obtain ⟨status, p1, fs1⟩ := res
  simp only at hdone ⊢
  cases hok : status.ok with
  | false => simp
  | true =>
    cases hlast : p1.segments.getLast? with
    | none => simp
    | some active =>
      -- an entry that is not due is not written, so the fault is not met
      have hdue : active.indexDue = false := by
        simpa [hok, hlast, Faults.logShort, Faults.indexShort] using hdone
      simp only [LogSegment.appendWithTimestamp, hdue, Bool.not_true, Bool.false_eq_true, if_false]

theorem appendRecords_indexWritten : ∀ {p : Partition} {fts : List Faults} {fs : FileSystem},
    p.AlongBatch IndexFault nowMs batch fts fs → p.AlongBatch IndexWritten nowMs batch fts fs →
    p.appendRecords nowMs batch fts fs = p.appendRecords nowMs batch [] fs := by
  induction batch with
  | nil =>
    intro p fts fs _ _
    rfl
  | cons item rest ih =>
    obtain ⟨key, value⟩ := item
    rintro p fts fs ⟨hft, hfts⟩ ⟨hdone, hdones⟩
    have hfirst := appendRecord_indexWritten hft hdone nowMs false
    rw [hfirst] at hfts hdones
    rw [appendRecords, appendRecords, hfirst, List.headD_nil, List.tail_nil]
    generalize p.appendRecord key value nowMs false {} fs = res at hfts hdones ⊢
    obtain ⟨status, p1, fs1⟩ := res
    cases hok : status.ok with
    | false => simp [hok]
    | true => simpa [hok] using ih (hfts hok) (hdones hok)

def Call.op : Call → Op
  | .append key value ts _ => .append key value ts
  | .batch items nowMs _ => .batch items nowMs
  | .retain retentionMs retentionBytes dryRun nowMs =>
    .retain retentionMs retentionBytes dryRun nowMs
  | .restart full => .restart full

theorem call_eq_step (hft : c.Each IndexFault st) (hdone : c.Each IndexWritten st) :
    call st c = step st c.op := by
  cases c with
  | append key value ts ft =>
    cases hfit : recordTooLarge key value with
    | true => simp only [call, step, Call.op, appendWithTimestamp_refused hfit]
    | false =>
      have happ : st.part.appendWithTimestamp key value ts ft st.fs =
          st.part.appendWithTimestamp key value ts {} st.fs := by
        simp only [appendWithTimestamp, appendRecord_indexWritten (hft hfit) (hdone hfit)]
      simp only [call, happ]
      rfl
  | batch items nowMs fts =>
    cases hfit : refusesBatch items with
    | true =>
      simp only [call, step, Call.op]
      obtain ⟨status, heq⟩ := appendBatch_refused hfit st.part nowMs fts st.fs
      obtain ⟨status', heq'⟩ := appendBatch_refused hfit st.part nowMs [] st.fs
      rw [heq, heq']
    | false =>
      have happ : st.part.appendBatch items nowMs fts st.fs =
          st.part.appendBatch items nowMs [] st.fs := by
        simp only [appendBatch_accepted hfit, appendRecords_indexWritten (hft hfit) (hdone hfit)]
      simp only [call, happ]
      rfl
  | retain retentionMs retentionBytes dryRun nowMs => rfl
  | restart full => rfl

/-- **Offsets stay unique** in every run in which no index write fails. -/
theorem offsets_unique_of_index_written {st : RunState}
    (h : Reach Started CallStep
      (fun st c => c.InRange st ∧ c.Each IndexFault st ∧ c.Each IndexWritten st) st) :
    OffsetsUnique st := by
  suffices hinv : RunInv st ∧ st.acked.length < 2 ^ 64 from hinv.1.offsetsUnique hinv.2
  refine Reach.invariant (I := fun st => RunInv st ∧ st.acked.length < 2 ^ 64) ?_ ?_ h
  · rintro st ⟨partitionId, partitionDir, config, rfl⟩
    exact ⟨runInv_init partitionId partitionDir config, by simp [RunState.init]⟩
  · rintro st c _ ⟨hinv, hlen⟩ ⟨⟨hsized, hroom⟩, hft, hdone⟩ rfl
    rw [call_eq_step hft hdone]
    rw [hinv.next_toNat hlen] at hroom
    have hcount : c.op.count = c.count := by cases c <;> rfl
    have hop : c.op.Sized := by cases c <;> exact hsized
    obtain ⟨hinv', hlen'⟩ := step_runInv hinv hop (by rw [hcount]; exact hroom)
    exact ⟨hinv', by omega⟩

/-- An index entry that is not due cannot fail. -/
theorem offsets_unique_entry_not_due :
    OffsetsUnique (call (call (RunState.init (Partition.new 0 [] {})) (.append [1] [2] 5 {}))
      (.append [3] [4] 6 { indexWrite := some 0 })) := by
  refine offsets_unique_of_index_written (((Reach.init ⟨0, [], {}, rfl⟩).step
    (a := .append [1] [2] 5 {}) ?_ rfl).step
    (a := .append [3] [4] 6 { indexWrite := some 0 }) ?_ rfl)
  · refine ⟨⟨by decide, by decide +kernel⟩, fun _ => Or.inl rfl, fun _ => ?_⟩
    unfold IndexWritten
    decide +kernel
  · refine ⟨⟨by decide, by decide +kernel⟩, fun _ => Or.inr rfl, fun _ => ?_⟩
    unfold IndexWritten
    decide +kernel

/-- The first record is in the log when its index write fails, and the second
gets the same offset. -/
theorem offset_given_twice :
    ∃ st : RunState, st = [Call.append [1] [2] 5 { indexWrite := some 0 },
      .append [3] [4] 6 {}].foldl
        call (RunState.init (Partition.new 0 [] {})) ∧
      st.acked = [⟨0, 6, [3], [4]⟩] ∧
      storedRecords st.fs.dir = [⟨0, 5, [1], [2]⟩, ⟨0, 6, [3], [4]⟩] ∧
      (st.part.read st.fs 0 10 1000).records = [⟨0, 5, [1], [2]⟩, ⟨0, 6, [3], [4]⟩] := by
  refine ⟨_, rfl, ?_, ?_, ?_⟩
  · decide +kernel
  · decide +kernel
  · decide +kernel

end StreamForge
