import StreamForge.Foundation.Transition
import StreamForge.Broker.OffsetStore
import StreamForge.Storage.PowerLoss

/-!
# Durability of acknowledged records

A machine runs one partition, with `sync_on_append` or as the partition of the
offset store, loses its power in the middle of a call or of a recovery, and is
started again, any number of times.

What breaks the promise of an acknowledgement is a roll in the middle of a batch:
the new segment is created, and its directory flushed, while the old log still has
records that are not. A power loss in between leaves the new segment and takes the
end of the old one (`hole_after_power_loss`). As long as a batch rolls at its first
record only, no recovery finds a hole (`recovers_all_of_rollsFirst`).
-/

namespace StreamForge

open FileTrace Transition

/-! ## The machine -/

inductive SyncCall where
  | append (key value : Bytes) (timestampMs : Int64)
  | batch (items : List (Bytes × Bytes)) (nowMs : Int64)
  | commit (groupId : Bytes) (items : List OffsetCommitItem) (nowMs : Int64)

structure Host where
  part : Partition
  store : OffsetStore
  disk : Durable FileName
  acked : List Record

/-- What a call leaves: the partition, the store, the files, and the records it
acknowledged. -/
structure Served where
  part : Partition
  store : OffsetStore
  fs : FileSystem
  acked : List Record

namespace Host

def serve (h : Host) : SyncCall → Served
  | .append key value ts =>
    match h.part.appendWithTimestamp key value ts {} (Fs.start h.disk.dir) with
    | (.ok offset, p, fs) => ⟨p, h.store, fs, [⟨offset, ts, key, value⟩]⟩
    | (.error _, p, fs) => ⟨p, h.store, fs, []⟩
  | .batch items nowMs =>
    match h.part.appendBatch items nowMs [] (Fs.start h.disk.dir) with
    | (.ok offset, p, fs) => ⟨p, h.store, fs, assign offset nowMs items⟩
    | (.error _, p, fs) => ⟨p, h.store, fs, []⟩
  | .commit groupId items nowMs =>
    match h.store.commit groupId items h.part nowMs [] (Fs.start h.disk.dir) with
    | (st, store, p, fs) =>
      ⟨p, store, fs, if st.ok then
        assign h.part.nextOffset nowMs (OffsetStore.batchOf groupId items) else []⟩

def after (h : Host) (c : SyncCall) : Host :=
  ⟨(h.serve c).part, (h.serve c).store, h.disk.runAll (h.serve c).fs.trace,
    h.acked ++ (h.serve c).acked⟩

end Host

/-- The machine is running, or it is off and only its files are left. The records
acknowledged so far are remembered beside it. -/
inductive Machine where
  | up (host : Host)
  | down (dir : Disk) (acked : List Record)

inductive PowerEvent where
  | call (c : SyncCall)
  | lossIn (c : SyncCall)
  | boot (q : Partition) (store : OffsetStore)
  | lossInBoot (q : Partition)

/-- The file operations of a recovery by `q`. -/
def bootOps (q : Partition) (d : Disk) : List (FileOp FileName) :=
  (q.openAndRecover (Fs.start d)).2.2.trace

inductive PowerStep : Machine → PowerEvent → Machine → Prop where
  | call (h : Host) (c : SyncCall) : PowerStep (.up h) (.call c) (.up (h.after c))
  | loss {h : Host} {c : SyncCall} {a : List (FileOp FileName)} {d' : Disk} :
      a <+: (h.serve c).fs.trace → PowerLoss (h.disk.runAll a) d' →
      PowerStep (.up h) (.lossIn c) (.down d' h.acked)
  | boot (d : Disk) (acked : List Record) (q : Partition) (store : OffsetStore) :
      PowerStep (.down d acked) (.boot q store)
        (.up ⟨(q.openAndRecover (Fs.start d)).2.1, store,
          (Durable.found d).runAll (bootOps q d), acked⟩)
  | bootLoss {d d' : Disk} {acked : List Record} {q : Partition} {a : List (FileOp FileName)} :
      a <+: bootOps q d → PowerLoss ((Durable.found d).runAll a) d' →
      PowerStep (.down d acked) (.lossInBoot q) (.down d' acked)

inductive PowerInit : Machine → Prop where
  | off : PowerInit (.down ∅ [])
  | fresh (partitionId : UInt32) (partitionDir : Bytes) (config : StorageConfig)
      (store : OffsetStore) :
      PowerInit (.up ⟨Partition.new partitionId partitionDir config, store, Durable.found ∅, []⟩)

/-! ## What is asked of the calls -/

namespace SyncCall

def items : SyncCall → List (Bytes × Bytes)
  | append key value _ => [(key, value)]
  | batch items _ => items
  | commit groupId items _ => OffsetStore.batchOf groupId items

def timestamp : SyncCall → Int64
  | append _ _ ts => ts
  | batch _ nowMs => nowMs
  | commit _ _ nowMs => nowMs

def Flushed (h : Host) : SyncCall → Prop
  | append _ _ _ => h.part.config.syncOnAppend = true
  | batch _ _ => h.part.config.syncOnAppend = true
  | commit _ _ _ => True

def InRange (h : Host) (c : SyncCall) : Prop :=
  (∀ item ∈ c.items, item.1.length + item.2.length < 2 ^ 32 - 28) ∧
    h.part.nextOffset.toNat + c.items.length < 2 ^ 64

structure Safe (h : Host) (c : SyncCall) : Prop where
  flushed : c.Flushed h
  inRange : c.InRange h
  rolls : h.part.RollsFirst c.timestamp c.items (Fs.start h.disk.dir)

end SyncCall

/-- Every call of the run is safe, also those that a power loss cuts short. -/
def SafeCalls : Machine → PowerEvent → Prop
  | .up h, .call c => c.Safe h
  | .up h, .lossIn c => c.Safe h
  | _, _ => True

/-- The call lost nothing of `old`, and what it acknowledged is stored. -/
def Served.Stores (r : Served) (D : Durable FileName) (old : List Record) (n : ℕ) : Prop :=
  ∃ ops new, r.fs = (Fs.start D.dir).execAll ops ∧ Stored r.part D old new ops ∧
    (∀ x ∈ r.acked, x ∈ new) ∧ new.length ≤ n

section Serve

variable {h : Host} {old : List Record}

theorem Ready.stores_nothing (hready : Ready h.part h.disk old) (store : OffsetStore) (n : ℕ) :
    Served.Stores ⟨h.part, store, Fs.start h.disk.dir, []⟩ h.disk old n :=
  ⟨[], [], by rw [Fs.execAll_nil], hready.stored_nothing, by simp, by simp⟩

theorem Ready.serve_append (hready : Ready h.part h.disk old) (hroom : old.length < 2 ^ 64)
    {key value : Bytes} {ts : Int64} (hsafe : (SyncCall.append key value ts).Safe h) :
    (h.serve (.append key value ts)).Stores h.disk old 1 := by
  have hsmall := hsafe.inRange.1 (key, value) (by simp [SyncCall.items])
  cases hlarge : Partition.recordTooLarge key value with
  | true =>
    have heq := appendWithTimestamp_refused hlarge h.part ts {} (Fs.start h.disk.dir)
    have hserve : h.serve (.append key value ts) =
        ⟨h.part, h.store, Fs.start h.disk.dir, []⟩ := by
      simp only [Host.serve, heq]
    rw [hserve]
    exact hready.stores_nothing h.store 1
  | false =>
    obtain ⟨p', ops, heq, hstored⟩ := @Ready.appendWithTimestamp _ _ (Fs.start h.disk.dir) _
      hready rfl hsafe.flushed _ _ ts hsmall hroom hlarge
    have hserve : h.serve (.append key value ts) = ⟨p', h.store, (Fs.start h.disk.dir).execAll ops,
        [⟨h.part.nextOffset, ts, key, value⟩]⟩ := by
      simp only [Host.serve, heq]
    rw [hserve]
    exact ⟨ops, _, rfl, hstored, fun r hr => hr, by simp⟩

theorem Ready.serve_batch (hready : Ready h.part h.disk old) (hroom : old.length < 2 ^ 64)
    {items : List (Bytes × Bytes)} {nowMs : Int64} (hsafe : (SyncCall.batch items nowMs).Safe h) :
    (h.serve (.batch items nowMs)).Stores h.disk old items.length := by
  obtain ⟨hsmall, hrange⟩ := hsafe.inRange
  rw [hready.next_toNat hroom] at hrange
  have hrolls : h.part.RollsFirst nowMs items (Fs.start h.disk.dir) := hsafe.rolls
  cases hfit : Partition.refusesBatch items with
  | true =>
    obtain ⟨st, heq⟩ := appendBatch_refused hfit h.part nowMs [] (Fs.start h.disk.dir)
    have hserve : h.serve (.batch items nowMs) = ⟨h.part, h.store, Fs.start h.disk.dir, []⟩ := by
      simp only [Host.serve, heq]
    rw [hserve]
    exact hready.stores_nothing h.store _
  | false =>
    obtain ⟨p', fs', heq, hsync, -⟩ := hready.appendBatch rfl hfit hsmall hrange hrolls
    obtain ⟨ops, rfl, hstored⟩ := hsync hsafe.flushed
    have hserve : h.serve (.batch items nowMs) = ⟨p', h.store, (Fs.start h.disk.dir).execAll ops,
        assign h.part.nextOffset nowMs items⟩ := by
      simp only [Host.serve, heq]
    rw [hserve]
    exact ⟨ops, _, rfl, hstored, fun r hr => hr, by simp⟩

theorem Ready.serve_commit (hready : Ready h.part h.disk old) (hroom : old.length < 2 ^ 64)
    {groupId : Bytes} {items : List OffsetCommitItem} {nowMs : Int64}
    (hsafe : (SyncCall.commit groupId items nowMs).Safe h) :
    (h.serve (.commit groupId items nowMs)).Stores h.disk old
      (OffsetStore.batchOf groupId items).length := by
  obtain ⟨hsmall, hrange⟩ := hsafe.inRange
  rw [hready.next_toNat hroom] at hrange
  have hrolls : h.part.RollsFirst nowMs (OffsetStore.batchOf groupId items)
    (Fs.start h.disk.dir) := hsafe.rolls
  cases items with
  | nil => exact hready.stores_nothing h.store _
  | cons item rest =>
    cases hopened : h.store.opened with
    | false =>
      have hserve : h.serve (.commit groupId (item :: rest) nowMs) =
          ⟨h.part, h.store, Fs.start h.disk.dir, []⟩ := by
        simp [Host.serve, OffsetStore.commit, hopened]
      rw [hserve]
      exact hready.stores_nothing h.store _
    | true =>
      cases hfit : Partition.refusesBatch (OffsetStore.batchOf groupId (item :: rest)) with
      | true =>
        obtain ⟨st, heq⟩ := appendBatch_refused hfit h.part nowMs [] (Fs.start h.disk.dir)
        have hserve : h.serve (.commit groupId (item :: rest) nowMs) =
            ⟨h.part, h.store, Fs.start h.disk.dir, []⟩ := by
          simp [Host.serve, OffsetStore.commit, hopened, heq, appendBatch_error_status heq]
        rw [hserve]
        exact hready.stores_nothing h.store _
      | false =>
        obtain ⟨p', fs', heq, -, ops, hflush, hstored⟩ :=
          hready.appendBatch rfl hfit hsmall hrange hrolls
        have hserve : h.serve (.commit groupId (item :: rest) nowMs) =
            ⟨p', { h.store with
              cache := OffsetStore.cacheItems groupId (item :: rest) h.store.cache },
              (Fs.start h.disk.dir).execAll ops, assign h.part.nextOffset nowMs
                (OffsetStore.batchOf groupId (item :: rest))⟩ := by
          simp [Host.serve, OffsetStore.commit, hopened, heq, hflush]
        rw [hserve]
        exact ⟨ops, _, rfl, hstored, fun r hr => hr, by simp⟩

/-- **A safe call** stores what it acknowledges. -/
theorem Ready.serve (hready : Ready h.part h.disk old) (hroom : old.length < 2 ^ 64)
    {c : SyncCall} (hsafe : c.Safe h) : (h.serve c).Stores h.disk old c.items.length := by
  cases c with
  | append key value ts => exact hready.serve_append hroom hsafe
  | batch items nowMs => exact hready.serve_batch hroom hsafe
  | commit groupId items nowMs => exact hready.serve_commit hroom hsafe

end Serve

/-- Everything acknowledged is in a log that no power loss can take from the
machine. -/
def PowerInv : Machine → Prop
  | .up h => ∃ log, Ready h.part h.disk log ∧ (∀ r ∈ h.acked, r ∈ log) ∧ log.length < 2 ^ 64
  | .down d acked => ∃ log, Salvaged log [] d ∧ (∀ r ∈ acked, r ∈ log) ∧ log.length < 2 ^ 64

theorem powerInv_init {m : Machine} (h : PowerInit m) : PowerInv m := by
  have hempty : DiskInv (∅ : Disk) [] [] := DiskInv.empty
  cases h with
  | off => exact ⟨[], Or.inr ⟨hempty.blank 0, rfl⟩, by simp, by simp⟩
  | fresh partitionId partitionDir config store =>
    exact ⟨[], Or.inr ⟨⟨rfl, rfl, hempty⟩, rfl⟩, by simp, by simp⟩

theorem PowerInv.step {m m' : Machine} {e : PowerEvent} (h : PowerInv m) (hsafe : SafeCalls m e)
    (hstep : PowerStep m e m') : PowerInv m' := by
  cases hstep with
  | call host c =>
    obtain ⟨log, hready, hacked, hroom⟩ := h
    obtain ⟨ops, new, hfs, hstored, hnew, hlen⟩ := hready.serve hroom hsafe
    have hrange := hsafe.inRange.2
    rw [hready.next_toNat hroom] at hrange
    refine ⟨log ++ new, ?_, ?_, ?_⟩
    · have htrace : (host.serve c).fs.trace = ops := by
        rw [hfs]
        exact List.nil_append ops
      simp only [Host.after, htrace]
      exact hstored.ready
    · intro r hr
      rcases List.mem_append.mp hr with hr | hr
      · exact List.mem_append_left _ (hacked r hr)
      · exact List.mem_append_right _ (hnew r hr)
    · rw [List.length_append]
      omega
  | loss hprefix hloss =>
    obtain ⟨log, hready, hacked, hroom⟩ := h
    obtain ⟨ops, new, hfs, hstored, -, hlen⟩ := hready.serve hroom hsafe
    have hrange := hsafe.inRange.2
    rw [hready.next_toNat hroom] at hrange
    rw [hfs] at hprefix
    obtain ⟨k, hleft⟩ := (hstored.safe _ hprefix _ hloss).settled
    refine ⟨_, hleft, fun r hr => List.mem_append_left _ (hacked r hr), ?_⟩
    rw [List.length_append, List.length_take]
    omega
  | boot d acked q store =>
    obtain ⟨log, hleft, hacked, hroom⟩ := h
    obtain ⟨p', ops, heq, hready, -⟩ := hleft.recover hroom q
    refine ⟨log, ?_, hacked, hroom⟩
    have hops : bootOps q d = ops := by
      rw [bootOps, heq]
      exact List.nil_append ops
    rw [hops, heq]
    exact hready
  | bootLoss hprefix hloss =>
    obtain ⟨log, hleft, hacked, hroom⟩ := h
    rename_i d d' acked q a
    obtain ⟨p', ops, heq, -, hsafeOps⟩ := hleft.recover hroom q
    have hops : bootOps q d = ops := by
      rw [bootOps, heq]
      exact List.nil_append ops
    rw [hops] at hprefix
    exact ⟨log, hsafeOps _ hprefix _ hloss, hacked, hroom⟩

/-- Recovery by `q` yields a log with consecutive offsets, from which the records
of `acked` can be read. -/
def RecoversAll (q : Partition) (d : Disk) (acked : List Record) : Prop :=
  ∃ p' fs' log, q.openAndRecover (Fs.start d) = (.OK, p', fs') ∧ Consecutive 0 log ∧
    (∀ r ∈ acked, r ∈ log) ∧ p'.earliestOffset = 0 ∧ p'.nextOffset.toNat = log.length ∧
    ∀ startOffset maxMessages maxBytes,
      ReadsAsScanned ⟨p', fs', log⟩ startOffset maxMessages maxBytes

theorem Ready.earliest {p : Partition} {D : Durable FileName} {log : List Record}
    (h : Ready p D log) : p.earliestOffset = 0 := by
  rcases h with ⟨pre, s, hinv, hchain, -, -⟩ | ⟨hfresh, -⟩
  · exact UInt64.toNat_inj.mp (hinv.earliest hchain)
  · exact hfresh.earliest

/-- **Acknowledged records survive every power loss**, in every life of the machine
in which no batch rolls behind its first record. -/
theorem recovers_all_of_rollsFirst {d : Disk} {acked : List Record}
    (h : Reach PowerInit PowerStep SafeCalls (.down d acked)) (q : Partition) :
    RecoversAll q d acked := by
  have hinv : PowerInv (.down d acked) :=
    h.invariant (fun _ => powerInv_init) fun _ _ _ hm hsafe hstep => hm.step hsafe hstep
  obtain ⟨log, hleft, hacked, hroom⟩ := hinv
  obtain ⟨p', ops, heq, hready, -⟩ := hleft.recover hroom q
  have hdir : ((Fs.start d).execAll ops).dir = ((Durable.found d).runAll ops).dir := by
    rw [Durable.runAll_dir]
    rfl
  have hrun := hready.runInv hdir
  exact ⟨p', _, log, heq, hrun.1, hacked, hready.earliest, hready.next_toNat hroom,
    hrun.readsAsScanned hroom⟩

def syncHost (segmentMaxBytes : UInt32) : Host :=
  ⟨Partition.new 0 [] { segmentMaxBytes, syncOnAppend := true }, {}, Durable.found ∅, []⟩

/-- The second append loses its power with one byte of its record on disk. -/
theorem recovers_all_after_torn_append :
    ∃ d, RecoversAll (syncHost 60).part d ((syncHost 60).after (.append [] [1] 5)).acked := by
  set h1 := (syncHost 60).after (.append [] [1] 5)
  have hfirst : (SyncCall.append [] [1] 5).Safe (syncHost 60) :=
    ⟨rfl, ⟨by decide, by decide⟩, fun _ => trivial⟩
  have hsync : h1.part.config.syncOnAppend = true := by decide +kernel
  have hsecond : (SyncCall.append [] [2] 6).Safe h1 :=
    ⟨hsync, ⟨by decide, by decide +kernel⟩, fun _ => trivial⟩
  have hinit : Reach PowerInit PowerStep SafeCalls (.up (syncHost 60)) := .init (.fresh 0 [] _ {})
  have hrun : Reach PowerInit PowerStep SafeCalls (.up h1) :=
    Reach.step (a := .call (.append [] [1] 5)) hinit hfirst (PowerStep.call (syncHost 60) _)
  have hloss := @powerLoss_truncate _ _ (h1.disk.runAll
    ((h1.serve (.append [] [2] 6)).fs.trace.take 1))
    ⟨0, .log⟩ 30 (by decide +kernel) (by decide +kernel)
  exact ⟨_, recovers_all_of_rollsFirst (Reach.step (a := .lossIn (.append [] [2] 6)) hrun hsecond
    (PowerStep.loss (List.take_prefix 1 _) hloss)) _⟩

theorem RecoversAll.read_first {q : Partition} {d : Disk} {acked : List Record}
    (h : RecoversAll q d acked) (hnext : (q.openAndRecover (Fs.start d)).2.1.nextOffset = 1) :
    ((q.openAndRecover (Fs.start d)).2.1.read (q.openAndRecover (Fs.start d)).2.2 0 1 1).records
      ≠ [] := by
  obtain ⟨p', fs', log, heq, -, -, hearly, hlen, hreads⟩ := h
  rw [heq] at hnext ⊢
  simp only at hnext ⊢
  rw [hnext] at hlen
  obtain ⟨r, rfl⟩ : ∃ r, log = [r] := List.length_eq_one_iff.mp hlen.symm
  have hread := (hreads 0 1 1).inside (by rw [hnext]; decide)
    (by rw [hearly]; exact UInt64.le_refl _)
  rw [hread, hnext]
  simp [scanned, scannedFrom]

def FlushedCalls : Machine → PowerEvent → Prop
  | .up h, .call c => c.Flushed h ∧ c.InRange h
  | .up h, .lossIn c => c.Flushed h ∧ c.InRange h
  | _, _ => True

/-- **The hole.** The second record of a batch rolls. The new segment is created and
the directory flushed, then the power fails, and the first record is gone:
recovery begins the log at offset 0, goes on at offset 1 and has nothing in
between. -/
theorem hole_after_power_loss :
    ∃ d, Reach PowerInit PowerStep FlushedCalls (.down d []) ∧
      ¬RecoversAll (syncHost 30).part d [] := by
  set c : SyncCall := .batch [([], [1]), ([], [2])] 0
  set d := (FileOp.truncate ⟨0, .log⟩ 0).apply
    ((syncHost 30).disk.runAll (((syncHost 30).serve c).fs.trace.take 8)).dir
  refine ⟨d, ?_, ?_⟩
  · have hinit : Reach PowerInit PowerStep FlushedCalls (.up (syncHost 30)) :=
      .init (.fresh 0 [] _ {})
    have hflushed : FlushedCalls (.up (syncHost 30)) (.lossIn c) := ⟨rfl, by decide, by decide⟩
    exact hinit.step hflushed (PowerStep.loss (List.take_prefix 8 _)
      (powerLoss_truncate (by decide +kernel) (by decide +kernel)))
  · intro hall
    refine hall.read_first (by decide +kernel) ?_
    decide +kernel

end StreamForge
