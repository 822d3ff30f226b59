import StreamForge.Broker.FilledPartition
import StreamForge.Broker.KeyRouting
import StreamForge.Foundation.Tiling

/-!
# What PRODUCE_OK means

The answer to a PRODUCE names a partition, a first offset and a count. From then on
the records of the request are found there, in their order, as long as retention has
not removed them. The ranges of all answers lie end to end: a batch in progress
keeps the others out, and begins where the last one has ended.

`Track.Tiled` says so about the acknowledgements of one partition, whatever its
threads do; `AnswerInv` connects these with the requests and the answers. The
offsets have to be different numbers for that, so it ends with the 2^64th record.
-/

namespace StreamForge

open FileTrace MessageHandler Tiling

/-! ## One partition -/

def Ack.range (a : Ack) : ℕ × ℕ := (a.base.toNat, a.batch.length)

def Track.acked (t : Track) : List (Bytes × Bytes) := t.acks.flatMap Ack.batch

/-- **The acknowledged batches lie end to end**, and behind them lies what the batch
in progress has written. -/
structure Track.Tiled (t : Track) : Prop where
  tiles : Tiles 0 (t.acks.map Ack.range) t.acked.length
  idle : t.writing = none → keyValues t.log = t.acked
  busy : ∀ w, t.writing = some w → w.base.toNat = t.acked.length ∧
    ∃ done, w.batch = done ++ w.left ∧ keyValues t.log = t.acked ++ done

section Tiled

variable {t t' : Track}

@[simp] theorem keyValues_snoc (rs : List Record) (r : Record) :
    keyValues (rs ++ [r]) = keyValues rs ++ [(r.key, r.value)] := by
  simp [keyValues]

@[simp] theorem length_keyValues (rs : List Record) : (keyValues rs).length = rs.length :=
  List.length_map _

theorem Track.Tiled.tiles_snoc (h : t.Tiled) {a : Ack} (hbase : a.base.toNat = t.acked.length) :
    Tiles 0 ((t.acks ++ [a]).map Ack.range) ((t.acks ++ [a]).flatMap Ack.batch).length := by
  rw [List.map_append, List.flatMap_append, List.length_append]
  refine h.tiles.append ⟨hbase, ?_⟩
  show t.acked.length + a.batch.length = _
  simp [Track.acked]

theorem tiled_new : ({} : Track).Tiled where
  tiles := rfl
  idle _ := rfl
  busy _ h := nomatch h

/-- **Every step keeps the batches end to end.** -/
theorem Track.Tiled.step (h : t.Tiled) (hroom : t.log.length < 2 ^ 64) (hstep : t.Step t') :
    t'.Tiled := by
  have hlen : (UInt64.ofNat t.log.length).toNat = t.log.length := by
    rw [UInt64.toNat_ofNat', Nat.mod_eq_of_lt hroom]
  have hend : t.writing = none → t.log.length = t.acked.length := by
    intro hidle
    rw [← length_keyValues, h.idle hidle]
  cases hstep with
  | same => exact h
  | append key value timestampMs hidle =>
    refine ⟨h.tiles_snoc (hlen.trans (hend hidle)), ?_, ?_⟩
    · intro _
      simp [Track.acked, h.idle hidle]
    · intro w hw
      rw [hidle] at hw
      cases hw
  | lock nowMs hidle _ =>
    refine ⟨h.tiles, ?_, ?_⟩
    · intro hw
      cases hw
    · intro w hw
      cases hw
      exact ⟨hlen.trans (hend hidle), [], rfl, by rw [List.append_nil]; exact h.idle hidle⟩
  | @write w key value rest hwriting hleft =>
    obtain ⟨hbase, done, hbatch, hlog⟩ := h.busy w hwriting
    refine ⟨h.tiles, ?_, ?_⟩
    · intro hw
      cases hw
    · intro w' hw
      cases hw
      refine ⟨hbase, done ++ [(key, value)], ?_, ?_⟩
      · rw [hbatch, hleft, List.append_assoc]
        rfl
      · rw [keyValues_snoc, hlog, List.append_assoc]
        rfl
  | @unlock w hwriting hleft =>
    obtain ⟨hbase, done, hbatch, hlog⟩ := h.busy w hwriting
    refine ⟨h.tiles_snoc hbase, ?_, ?_⟩
    · intro _
      rw [hlog]
      rw [hleft, List.append_nil] at hbatch
      simp [Track.acked, hbatch]
    · intro w' hw
      cases hw

theorem Track.Tiled.acked_logged (h : t.Tiled) : t.acked <+: keyValues t.log := by
  cases hw : t.writing with
  | none => rw [h.idle hw]
  | some w =>
    obtain ⟨-, done, -, hlog⟩ := h.busy w hw
    rw [hlog]
    exact List.prefix_append _ _

/-- **An acknowledged record** is in the log at its offset. -/
theorem Track.Tiled.getElem (h : t.Tiled) {a : Ack} (ha : a ∈ t.acks) {i : ℕ} {item : Bytes × Bytes}
    (hitem : a.batch[i]? = some item) :
    ∃ r, t.log[a.base.toNat + i]? = some r ∧ (r.key, r.value) = item := by
  obtain ⟨pre, post, hsplit⟩ := List.append_of_mem ha
  obtain ⟨rest, hrest⟩ := h.acked_logged
  have hbase : a.base.toNat = (pre.flatMap Ack.batch).length := by
    have htiles := h.tiles
    rw [hsplit, List.map_append, List.map_cons] at htiles
    rw [show a.base.toNat = 0 + _ from htiles.split.1.stop_eq, List.length_flatMap, List.map_map,
      Nat.zero_add]
    rfl
  have hlt := (List.getElem?_eq_some_iff.mp hitem).1
  have hget : (keyValues t.log)[a.base.toNat + i]? = some item := by
    rw [← hrest, Track.acked, hsplit, List.flatMap_append, List.flatMap_cons, List.append_assoc,
      List.append_assoc, hbase, List.getElem?_append_right (Nat.le_add_right _ _),
      Nat.add_sub_cancel_left, List.getElem?_append_left hlt, hitem]
  rw [keyValues, List.getElem?_map] at hget
  exact Option.map_eq_some_iff.mp hget

end Tiled

/-! ## Requests and answers -/

def Live.answersOf (l : Live) (name : Bytes) (p : ℕ) : List (ProduceRequest × ProduceResponse) :=
  l.answered.filter fun e => e.1.topic = name ∧ e.2.partition.toNat = p

/-- A request for a partition that exists, with numbers that its answer can hold. -/
structure Live.Accepts (l : Live) (msg : ProduceRequest) (p : ℕ) : Prop where
  named : TopicManager.isReserved msg.topic = false
  records : msg.records.length < 65536
  partition : p < 65536
  topic : ∃ t, l.mgr.getTopic msg.topic = some t ∧ p < t.numPartitions

/-- **Every batch in progress is that of a request, and every acknowledgement has an
answer.** -/
structure AnswerInv (l : Live) : Prop where
  waiting : ∀ e ∈ l.produces, l.Accepts e.1 e.2
  writing : ∀ name p w, (l.tracks name p).writing = some w → ∃ msg, l.writers name p = some msg ∧
    msg.topic = name ∧ w.batch = msg.records ∧ l.Accepts msg p
  answered : ∀ e ∈ l.answered,
    e.2.count.toNat = e.1.records.length ∧ l.Accepts e.1 e.2.partition.toNat
  acks : ∀ name p, (l.tracks name p).acks.map (fun a => (a.base, a.batch)) =
    (l.answersOf name p).map fun e => (e.2.baseOffset, e.1.records)

section AnswerInv

variable {l l' : Live} {hists : Histories} {name : Bytes} {p : ℕ}

theorem Live.Accepts.keeps {msg : ProduceRequest} (h : l.Accepts msg p)
    (hkeeps : l.mgr.Keeps l'.mgr) :
    l'.Accepts msg p := by
  obtain ⟨t, ht, hlt⟩ := h.topic
  obtain ⟨t', ht', hn⟩ := hkeeps _ t ht
  exact { h with topic := ⟨t', ht', hn ▸ hlt⟩ }

theorem AnswerInv.frame (h : AnswerInv l) (hkeeps : l.mgr.Keeps l'.mgr)
    (htracks : l'.tracks = l.tracks) (hwriters : l'.writers = l.writers)
    (hanswered : l'.answered = l.answered)
    (hproduces : ∀ e ∈ l'.produces, e ∈ l.produces ∨ l'.Accepts e.1 e.2) : AnswerInv l' where
  waiting := by
    intro e he
    rcases hproduces e he with hold | haccepts
    · exact (h.waiting e hold).keeps hkeeps
    · exact haccepts
  writing := by
    intro name p w hw
    rw [htracks] at hw
    obtain ⟨msg, hmsg, htopic, hbatch, haccepts⟩ := h.writing name p w hw
    exact ⟨msg, hwriters ▸ hmsg, htopic, hbatch, haccepts.keeps hkeeps⟩
  answered := by
    intro e he
    rw [hanswered] at he
    exact (h.answered e he).imp_right fun haccepts => haccepts.keeps hkeeps
  acks := by
    intro name p
    rw [htracks, Live.answersOf, hanswered]
    exact h.acks name p

/-- **A step in one partition**, with the answers it gives. -/
theorem AnswerInv.work (h : AnswerInv l) (hkeeps : l.mgr.Keeps l'.mgr) {t' : Track}
    (htracks : l'.tracks = setAt l.tracks name p t')
    (hproduces : ∀ e ∈ l'.produces, e ∈ l.produces)
    (hwriters : ∀ name' p', ¬(name' = name ∧ p' = p) → l'.writers name' p' = l.writers name' p')
    (hwriting : ∀ w, t'.writing = some w → ∃ msg, l'.writers name p = some msg ∧
      msg.topic = name ∧ w.batch = msg.records ∧ l.Accepts msg p)
    (new : List (ProduceRequest × ProduceResponse)) (hanswered : l'.answered = l.answered ++ new)
    (hnew : ∀ e ∈ new, (e.1.topic = name ∧ e.2.partition.toNat = p) ∧
      e.2.count.toNat = e.1.records.length ∧ l.Accepts e.1 p)
    (hacks : t'.acks.map (fun a => (a.base, a.batch)) =
      (l.tracks name p).acks.map (fun a => (a.base, a.batch)) ++
        new.map fun e => (e.2.baseOffset, e.1.records)) : AnswerInv l' where
  waiting e he := (h.waiting e (hproduces e he)).keeps hkeeps
  writing := by
    intro name' p' w hw
    rw [htracks, setAt_apply] at hw
    by_cases hsame : name' = name ∧ p' = p
    · rw [if_pos hsame] at hw
      obtain ⟨rfl, rfl⟩ := hsame
      obtain ⟨msg, hmsg, htopic, hbatch, haccepts⟩ := hwriting w hw
      exact ⟨msg, hmsg, htopic, hbatch, haccepts.keeps hkeeps⟩
    · rw [if_neg hsame] at hw
      obtain ⟨msg, hmsg, htopic, hbatch, haccepts⟩ := h.writing name' p' w hw
      exact ⟨msg, (hwriters name' p' hsame).trans hmsg, htopic, hbatch, haccepts.keeps hkeeps⟩
  answered := by
    intro e he
    rw [hanswered] at he
    rcases List.mem_append.mp he with hold | hnewMem
    · exact (h.answered e hold).imp_right fun haccepts => haccepts.keeps hkeeps
    · obtain ⟨⟨-, hpart⟩, hcount, haccepts⟩ := hnew e hnewMem
      exact ⟨hcount, hpart ▸ haccepts.keeps hkeeps⟩
  acks := by
    intro name' p'
    have hold := h.acks name' p'
    rw [htracks, setAt_apply, Live.answersOf, hanswered, List.filter_append, List.map_append]
    by_cases hsame : name' = name ∧ p' = p
    · obtain ⟨rfl, rfl⟩ := hsame
      have hall : new.filter (fun e => e.1.topic = name' ∧ e.2.partition.toNat = p') = new := by
        rw [List.filter_eq_self]
        intro e he
        exact decide_eq_true (hnew e he).1
      rw [if_pos ⟨rfl, rfl⟩, hacks, hold, hall]
      rfl
    · have hnone : new.filter (fun e => e.1.topic = name' ∧ e.2.partition.toNat = p') = [] := by
        rw [List.filter_eq_nil_iff]
        intro e he hmem
        obtain ⟨rfl, rfl⟩ := of_decide_eq_true hmem
        exact hsame (hnew e he).1
      rw [if_neg hsame, hold, hnone, List.map_nil, List.append_nil]
      rfl

theorem Shared.write_acks (s : Shared) (w : OpenBatch) (key value : Bytes)
    (rest : List (Bytes × Bytes)) : (s.write w key value rest).acks = s.acks ∧
      ∀ w', (s.write w key value rest).writing = some w' → w'.batch = w.batch := by
  unfold Shared.write
  rcases s.part.appendRecord key value w.nowMs false {} (Fs.start s.dir) with ⟨st, part, fs⟩
  simp only
  split
  · refine ⟨rfl, ?_⟩
    intro w' hw
    cases hw
    rfl
  · exact ⟨rfl, fun w' hw => nomatch hw⟩

/-- **Every step keeps the answers and the acknowledgements together.** -/
theorem AnswerInv.step (h : AnswerInv l) (hlive : LiveInv l hists) {a : LiveAction}
    (hkeeps : l.mgr.Keeps l'.mgr) (hstep : LiveStep l a l') : AnswerInv l' := by
  cases hstep with
  | @choose req msg t t' p hdecode hreserved ht hchoose =>
    obtain ⟨dir, -, hinv⟩ := hlive.broker.storage.topic ht
    have hlt := (Topic.choose_spec hinv.pos hchoose).1
    have hle := hinv.le
    refine h.frame hkeeps rfl rfl rfl ?_
    intro e he
    rcases List.mem_cons.mp he with rfl | he
    · right
      exact Live.Accepts.keeps
        ⟨hreserved, (ProduceRequest.lengths_of_decode hdecode).1, by omega, t, ht, hlt⟩ hkeeps
    · exact Or.inl he
  | @lock msg p pre post s nowMs hmem hs _ _ =>
    refine h.work hkeeps (Live.put_tracks hs _) (fun e he => mem_of_removed hmem he) ?_ ?_ [] ?_
      (fun e he => nomatch he) ?_
    · intro name' p' hne
      simp only [Live.setWriter, setAt_apply, if_neg hne, Live.put_writers]
    · intro w hw
      cases hw
      refine ⟨msg, ?_, rfl, rfl, h.waiting (msg, p) (by simp [hmem])⟩
      simp only [Live.setWriter, setAt_apply, and_self, if_true]
    · exact (Live.put_answered ..).trans (List.append_nil _).symm
    · rw [← Live.shared_track hs]
      exact (List.append_nil _).symm
  | refuse hmem _ => exact h.frame hkeeps rfl rfl rfl fun e he => Or.inl (mem_of_removed hmem he)
  | @write name p s w key value rest hs hwriting _ =>
    obtain ⟨hacks, hbatch⟩ := s.write_acks w key value rest
    rw [Live.shared_track hs] at hwriting
    refine h.work hkeeps (Live.put_tracks hs _) ?_ ?_ ?_ [] ?_ (fun e he => nomatch he) ?_
    · rw [Live.put_produces]
      exact fun e he => he
    · rw [Live.put_writers]
      exact fun _ _ _ => rfl
    · intro w' hw
      obtain ⟨msg, hmsg, htopic, hrecords, haccepts⟩ := h.writing name p w hwriting
      refine ⟨msg, ?_, htopic, (hbatch w' hw).trans hrecords, haccepts⟩
      rw [Live.put_writers, hmsg]
    · rw [Live.put_answered, List.append_nil]
    · rw [hacks, Live.shared_track hs]
      exact (List.append_nil _).symm
  | @answer name p msg s w hwriter hs hwriting _ =>
    rw [Live.shared_track hs] at hwriting
    obtain ⟨msg', hmsg, htopic, hbatch, haccepts⟩ := h.writing name p w hwriting
    cases hwriter.symm.trans hmsg
    refine h.work hkeeps (Live.put_tracks hs _) ?_ ?_ (fun w hw => nomatch hw)
      [(msg, ⟨UInt16.ofNat p, w.base, UInt16.ofNat msg.records.length⟩)] ?_ ?_ ?_
    · intro e he
      simpa [Live.setWriter] using he
    · intro name' p' hne
      simp only [Live.setWriter, setAt_apply, if_neg hne, Live.put_writers]
    · rfl
    · intro e he
      cases List.mem_singleton.mp he
      refine ⟨⟨htopic, ?_⟩, ?_, haccepts⟩
      · rw [UInt16.toNat_ofNat', Nat.mod_eq_of_lt haccepts.partition]
      · rw [UInt16.toNat_ofNat', Nat.mod_eq_of_lt haccepts.records]
    · show (s.acks ++ [w.toAck]).map _ = _
      rw [List.map_append, Live.shared_track hs]
      simp [hbatch]
  | openCommit _ _ _ => exact h.frame hkeeps rfl rfl rfl fun e he => Or.inl he
  | checkOffset _ _ => exact h.frame hkeeps rfl rfl rfl fun e he => Or.inl he
  | dropCommit _ => exact h.frame hkeeps rfl rfl rfl fun e he => Or.inl he
  | persist _ _ => exact h.frame hkeeps rfl rfl rfl fun e he => Or.inl he
  | @retain name p t s dryRun nowMs _ _ _ hs _ =>
    refine h.work hkeeps (Live.put_tracks hs _) ?_ ?_ ?_ [] ?_ (fun e he => nomatch he) ?_
    · rw [Live.put_produces]
      exact fun e he => he
    · rw [Live.put_writers]
      exact fun _ _ _ => rfl
    · intro w hw
      rw [Live.put_writers]
      exact h.writing name p w (by rw [← Live.shared_track hs]; exact hw)
    · rw [Live.put_answered, List.append_nil]
    · rw [← Live.shared_track hs]
      exact (List.append_nil _).symm
  | createTopic _ _ _ _ _ _ => exact h.frame hkeeps rfl rfl rfl fun e he => Or.inl he
  | groups _ => exact h.frame hkeeps rfl rfl rfl fun e he => Or.inl he
  | restart hidle _ =>
    -- nobody is writing, so nothing is lost with the requests
    refine ⟨fun e he => (nomatch he), ?_, ?_, h.acks⟩
    · intro name p w hw
      rw [hidle name p] at hw
      cases hw
    · exact fun e he => (h.answered e he).imp_right fun haccepts => haccepts.keeps hkeeps

end AnswerInv

/-- **What a PRODUCE_OK promises.** The partition exists and the count is that of the
request; a record that retention has left is what a read from its offset begins
with. -/
structure Live.Honours (l : Live) (msg : ProduceRequest) (resp : ProduceResponse) : Prop where
  partition : ∃ t, l.mgr.getTopic msg.topic = some t ∧ resp.partition.toNat < t.numPartitions
  count : resp.count.toNat = msg.records.length
  records : ∀ s, l.shared msg.topic resp.partition.toNat = some s → ∀ i item,
    msg.records[i]? = some item → s.part.earliestOffset.toNat ≤ resp.baseOffset.toNat + i →
    ∃ r : Record, r.offset.toNat = resp.baseOffset.toNat + i ∧ (r.key, r.value) = item ∧
      ∀ maxMessages maxBytes, ∃ rest,
        s.part.read (Fs.start s.dir) r.offset maxMessages maxBytes = ⟨r :: rest, .OK⟩

section Runs

variable {l : Live}

theorem LiveReachable.answerInv (h : LiveReachable (fun l a => a.Room (2 ^ 64) l) l) :
    (∃ hists, LiveInv l hists) ∧ AnswerInv l ∧ ∀ name p, (l.tracks name p).Tiled := by
  refine Transition.Reach.invariant (I := fun l => (∃ hists, LiveInv l hists) ∧ AnswerInv l ∧
    ∀ name p, (l.tracks name p).Tiled) ?_ ?_ h
  · intro l hinit
    refine ⟨⟨_, liveInv_init hinit⟩, ?_, ?_⟩
    · obtain ⟨config, coordinatorConfig, nowMs, b, -, rfl⟩ := hinit
      exact ⟨fun e he => (nomatch he), fun _ _ w hw => (nomatch hw), fun e he => (nomatch he),
        fun _ _ => rfl⟩
    · obtain ⟨config, coordinatorConfig, nowMs, b, -, rfl⟩ := hinit
      exact fun _ _ => tiled_new
  · rintro l a l' ⟨⟨hists, hlive⟩, hinv, htiled⟩ hroom hstep
    obtain ⟨hists', hlive', heffect⟩ := hlive.step hroom hstep
    refine ⟨⟨hists', hlive'⟩, hinv.step hlive heffect.topics hstep, ?_⟩
    intro name p
    have hlog := lt_of_le_of_lt (Nat.le_add_right _ _) (hlive.tracks name p).room
    exact (htiled name p).step hlog (heffect.tracks name p)

theorem AnswerInv.ranges (h : AnswerInv l) (name : Bytes) (p : ℕ) :
    (l.answersOf name p).map (fun e => (e.2.baseOffset.toNat, e.2.count.toNat)) =
      (l.tracks name p).acks.map Ack.range := by
  have hacks := congrArg (List.map fun a : UInt64 × List (Bytes × Bytes) => (a.1.toNat, a.2.length))
    (h.acks name p)
  rw [List.map_map, List.map_map] at hacks
  refine Eq.trans (List.map_congr_left ?_) hacks.symm
  intro e he
  have hcount := (h.answered e (List.mem_of_mem_filter he)).1
  show (_, _) = (_, _)
  rw [hcount]

/-- **PRODUCE_OK means what it says**, in every state of every interleaving: every
answer is honoured, and the ranges of the answers of one partition lie end to end. They
reach up to its next offset whenever no batch is in progress. -/
theorem produce_ok_honoured (h : LiveReachable (fun l a => a.Room (2 ^ 64) l) l) :
    (∀ e ∈ l.answered, l.Honours e.1 e.2) ∧ ∀ name p,
      (l.answersOf name p).Pairwise (fun e e' =>
        e.2.baseOffset.toNat + e.2.count.toNat ≤ e'.2.baseOffset.toNat) ∧
      ∀ s, TopicManager.isReserved name = false → l.shared name p = some s → s.writing = none →
        Tiles 0 ((l.answersOf name p).map fun e => (e.2.baseOffset.toNat, e.2.count.toNat))
          s.part.nextOffset.toNat := by
  obtain ⟨⟨hists, hlive⟩, hinv, htiled⟩ := h.answerInv
  refine ⟨?_, fun name p => ⟨?_, ?_⟩⟩
  · rintro ⟨msg, resp⟩ he
    obtain ⟨hcount, haccepts⟩ := hinv.answered _ he
    refine ⟨haccepts.topic, hcount, ?_⟩
    intro s hs i item hitem hkept
    -- the acknowledgement that was answered, and the record in the log
    have hmem : (msg, resp) ∈ l.answersOf msg.topic resp.partition.toNat :=
      List.mem_filter.mpr ⟨he, decide_eq_true ⟨rfl, rfl⟩⟩
    have hack := List.mem_map_of_mem (f := fun e => (e.2.baseOffset, e.1.records)) hmem
    rw [← hinv.acks] at hack
    obtain ⟨a, ha, heq⟩ := List.mem_map.mp hack
    obtain ⟨hbase, hbatch⟩ := Prod.mk.inj heq
    obtain ⟨r, hr, hrecord⟩ := (htiled _ _).getElem ha (by rw [hbatch]; exact hitem)
    rw [hbase, ← Live.shared_track hs] at hr
    have hshared := hlive.shared haccepts.named hs
    have hoffset : r.offset.toNat = resp.baseOffset.toNat + i := by
      rw [hshared.consecutive _ r hr, Nat.zero_add]
    refine ⟨r, hoffset, hrecord, ?_⟩
    exact hshared.holds.1.read_at hshared.log_lt (List.mem_of_getElem? hr) (hoffset ▸ hkept)
  · have hpairs := (htiled name p).tiles.pairwise
    rw [← hinv.ranges, List.pairwise_map] at hpairs
    exact hpairs
  · intro s hreserved hs hidle
    have hshared := hlive.shared hreserved hs
    have htrack := htiled name p
    rw [hinv.ranges, hshared.next_toNat, Live.shared_track hs]
    rw [Live.shared_track hs] at hidle
    rw [← length_keyValues, htrack.idle hidle]
    exact htrack.tiles

end Runs

/-- Two PRODUCEs and their answers. -/
theorem produce_ok_honoured_two : ∃ l s base, LiveReachable (fun l a => a.Room (2 ^ 64) l) l ∧
    l.shared (ascii "t") 0 = some s ∧
    [(blankRequest, ⟨0, base, 1⟩), (blankRequest, ⟨0, base + 1, 1⟩)] <:+ l.answered ∧
    (∀ e ∈ l.answered, l.Honours e.1 e.2) ∧
    Tiles 0 ((l.answersOf (ascii "t") 0).map fun e => (e.2.baseOffset.toNat, e.2.count.toNat))
      s.part.nextOffset.toNat := by
  obtain ⟨l₀, s₀, hzero⟩ := @filled_zero (2 ^ 64) (le_refl _)
  obtain ⟨l₁, s₁, hone, hfirst⟩ := hzero.produce (by norm_num) (le_refl _)
  obtain ⟨l, s, htwo, hsecond⟩ := hone.produce (by norm_num) (le_refl _)
  obtain ⟨hall, hranges⟩ := produce_ok_honoured htwo.reachable
  refine ⟨l, s, s₀.part.nextOffset, htwo.reachable, htwo.shared, ⟨l₀.answered, ?_⟩, hall,
    (hranges _ _).2 s (by decide) htwo.shared htwo.idle⟩
  rw [hsecond.answered, hfirst.answered, hfirst.produced.next, List.append_assoc]
  rfl

/-- **The 2^64th record** is acknowledged at the last offset, and the next offset is 0
again. -/
theorem acknowledged_behind_next : ∃ l s, LiveReachable (fun _ _ => True) l ∧
    l.shared (ascii "t") 0 = some s ∧ s.writing = none ∧ s.part.nextOffset = 0 ∧
    (blankRequest, ⟨0, 18446744073709551615, 1⟩) ∈ l.answered := by
  obtain ⟨l₀, s₀, h⟩ := @exists_filled (2 ^ 64) 18446744073709551615 (by norm_num) (le_refl _)
  have hinv := h.sharedInv (le_refl _)
  have hnext : s₀.part.nextOffset = 18446744073709551615 := by
    rw [hinv.nextOffset, h.log]
    rfl
  obtain ⟨l, s, hreach, hmore⟩ := LiveReachable.produce (h.reachable.mono fun _ _ _ => trivial)
    h.shared hinv h.idle (fun _ => trivial) (fun _ _ => trivial) (fun _ => trivial)
    (fun _ => trivial)
  refine ⟨l, s, hreach, hmore.shared, hmore.produced.writing, ?_, ?_⟩
  · rw [hmore.produced.next, hnext]
    rfl
  · rw [hmore.answered, hnext]
    exact List.mem_append_right _ List.mem_cons_self

end StreamForge
