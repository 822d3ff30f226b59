import StreamForge.Net.RequestOrder

/-!
# What the client gets to see

A response is sent as soon as it is there, and the output buffer is flushed when
the poll reports room. Both go through the output buffer, so that what was sent and
what is still unsent is always everything that was put on the output
(`ConnectionState.Whole`). An error frame and SHUTDOWN_OK do not look at the buffer:
the frame goes out in front of bytes that wait in it, and an error frame that is not
taken at once replaces them.

So the stream stays whole as long as no unsent bytes are left when a pass of the
event loop comes to a SHUTDOWN or to a length that no frame has.
-/

namespace StreamForge

open Incremental Transition

namespace OutputBuffer

@[simp] theorem unsent_new : ({} : OutputBuffer).unsent = [] := rfl

@[simp] theorem unsent_ofSent (bytes : Bytes) (n : ℕ) : (ofSent bytes n).unsent = bytes.drop n := by
  show bytes.drop (min n bytes.length) = bytes.drop n
  rcases Nat.le_total n bytes.length with h | h
  · rw [Nat.min_eq_left h]
  · rw [Nat.min_eq_right h, List.drop_length, List.drop_eq_nil_of_le h]

@[simp] theorem unsent_append (o : OutputBuffer) (more : Bytes) :
    (o.append more).unsent = o.unsent ++ more := by
  simp [append]

@[simp] theorem unsent_advance (o : OutputBuffer) (n : ℕ) :
    (o.advance n).unsent = o.unsent.drop n := by
  rw [advance, unsent_ofSent, unsent, List.drop_drop]

end OutputBuffer

theorem SendOutcome.taken_le (len : ℕ) (outcome : SendOutcome) : outcome.taken len ≤ len := by
  cases outcome with
  | sent n => exact Nat.min_le_right ..
  | wouldBlock => exact Nat.zero_le _
  | failed => exact Nat.zero_le _

def Encoded (bytes : Bytes) : Prop := ∃ f, bytes = FrameCodec.encode f

/-- What was sent is the beginning of the frames that were put on the output. -/
structure Trace.InFrames (t : Trace) : Prop where
  encoded : ∀ bytes ∈ t.placed, Encoded bytes
  sent : t.sent <+: t.placed.flatten

namespace ConnectionState

variable {c : ConnectionState} {reply outcome : SendOutcome} {bytes : Bytes}

/-- **Nothing is lost**: what was sent and what is unsent is what was put on the
output. -/
structure Whole (c : ConnectionState) : Prop where
  encoded : ∀ bytes ∈ c.trace.placed, Encoded bytes
  sent_unsent : c.trace.sent ++ c.output.unsent = c.trace.placed.flatten

theorem Whole.inFrames (h : c.Whole) : c.trace.InFrames := ⟨h.encoded, _, h.sent_unsent⟩

theorem Whole.of_eq {c' : ConnectionState} (h : c.Whole)
    (hplaced : c'.trace.placed = c.trace.placed)
    (hsent : c'.trace.sent = c.trace.sent) (hunsent : c'.output.unsent = c.output.unsent) :
    c'.Whole := by
  refine ⟨?_, ?_⟩
  · rw [hplaced]
    exact h.encoded
  · rw [hplaced, hsent, hunsent]
    exact h.sent_unsent

theorem Whole.place {c' : ConnectionState} (h : c.Whole) (hencoded : Encoded bytes)
    (hplaced : c'.trace.placed = c.trace.placed ++ [bytes])
    (hout : c'.trace.sent ++ c'.output.unsent = c.trace.sent ++ c.output.unsent ++ bytes) :
    c'.Whole := by
  refine ⟨?_, ?_⟩
  · intro b hb
    rw [hplaced, List.mem_append, List.mem_singleton] at hb
    rcases hb with hb | rfl
    · exact h.encoded b hb
    · exact hencoded
  · rw [hplaced, hout, h.sent_unsent, List.flatten_append]
    simp

theorem Whole.handleOutput (h : c.Whole) (w : Option SendOutcome) : (c.handleOutput w).1.Whole := by
  unfold ConnectionState.handleOutput
  split
  · exact h
  · exact h
  · exact h
  · rename_i n
    simp only
    have hsplit := List.take_append_drop ((SendOutcome.sent n).taken c.output.unsent.length)
      c.output.unsent
    split
    · rename_i hempty
      rw [OutputBuffer.unsent_advance, List.isEmpty_iff] at hempty
      rw [hempty, List.append_nil] at hsplit
      refine ⟨h.encoded, ?_⟩
      simp only [hsplit, OutputBuffer.unsent_new, List.append_nil]
      exact h.sent_unsent
    · refine ⟨h.encoded, ?_⟩
      simp only [OutputBuffer.unsent_advance, List.append_assoc, hsplit]
      exact h.sent_unsent

theorem Whole.queueImmediateErrorAndClose (h : c.Whole) (hnone : c.output.unsent = [])
    (err : Frame) : (c.queueImmediateErrorAndClose err outcome).1.Whole := by
  unfold ConnectionState.queueImmediateErrorAndClose
  simp only
  split
  · rename_i hall
    refine h.place ⟨err, rfl⟩ rfl ?_
    simp only [sendNow, ConnectionState.place, hall.2, List.take_length, hnone, List.append_nil]
  · refine h.place ⟨err, rfl⟩ rfl ?_
    simp only [sendNow, ConnectionState.place, OutputBuffer.unsent_ofSent, hnone, List.append_nil,
      List.append_assoc, List.take_append_drop]

def WholeReply (reply : SendOutcome) : Prop := reply.taken 9 = 0 ∨ reply.taken 9 = 9

theorem Whole.takeShutdown (h : c.Whole) (hnone : c.output.unsent = []) (hreply : WholeReply reply)
    (f : Frame) (a : FrameAssembler) : (c.takeShutdown f a reply).conn.Whole := by
  let ok : Frame := ⟨headerSize, MessageType.SHUTDOWN_OK, f.requestId, []⟩
  have hlen : (FrameCodec.encode ok).length = 9 := length_encode_frame ok
  unfold ConnectionState.takeShutdown sendShutdownOk
  simp only
  split
  · rename_i hsome
    have hnine : reply.taken (FrameCodec.encode ok).length = (FrameCodec.encode ok).length := by
      replace hsome : 0 < reply.taken (FrameCodec.encode ok).length := hsome
      rw [hlen] at hsome ⊢
      exact hreply.resolve_left hsome.ne'
    refine h.place ⟨ok, rfl⟩ rfl ?_
    show c.trace.sent ++ (FrameCodec.encode ok).take (reply.taken (FrameCodec.encode ok).length) ++
      c.output.unsent = _
    rw [hnine, List.take_length, hnone, List.append_nil, List.append_nil]
  · rename_i hzero
    refine h.of_eq rfl ?_ rfl
    show c.trace.sent ++ (FrameCodec.encode ok).take (reply.taken (FrameCodec.encode ok).length) = _
    rw [Nat.eq_zero_of_not_pos hzero, List.take_zero, List.append_nil]

/-! ## A pass of the event loop -/

def HasShutdown (bytes : Bytes) : Prop := ∃ f ∈ frames.items bytes, f.type = MessageType.SHUTDOWN

def HasBadLength (bytes : Bytes) : Prop := ∃ e, nextFrame (frames.left bytes) = .stop e

structure ClearFor (c : ConnectionState) (reply : SendOutcome) (bytes : Bytes) : Prop where
  shutdown : HasShutdown bytes → c.output.unsent = [] ∧ WholeReply reply
  badLength : HasBadLength bytes → ¬ HasShutdown bytes → c.output.unsent = []

/-- The loop does not touch the output, and it ends in an error only at a bad
length. -/
structure LoopOutput (reply : SendOutcome) (c : ConnectionState)
    (p : FrameExtractResult × ServeResult) : Prop where
  output : p.2.conn.output = c.output
  whole : c.Whole → c.ClearFor reply c.assembler.unread → p.2.conn.Whole
  error : p.1 = .ErrorLengthTooSmall ∨ p.1 = .ErrorLengthTooLarge →
    HasBadLength c.assembler.unread ∧ ¬ HasShutdown c.assembler.unread

theorem extractLoop_output (reply : SendOutcome) (c : ConnectionState) :
    LoopOutput reply c (extractLoop reply (c.assembler.bufferedBytes + 1) c) := by
  refine extractLoop_rule (R := LoopOutput reply) ?more ?stop ?shutdown ?request c
    (Nat.lt_succ_self _)
  case more =>
    intro c _
    exact ⟨rfl, fun h _ => h, by simp⟩
  case stop =>
    intro c e hnext
    have hscan := Scanner.scan_stop (s := frames) hnext
    refine ⟨rfl, fun h _ => h, fun _ => ⟨⟨e, ?_⟩, ?_⟩⟩
    · rw [Scanner.left, hscan]
      exact hnext
    · rintro ⟨f, hf, -⟩
      rw [Scanner.items, hscan] at hf
      cases hf
  case shutdown =>
    intro c f a hnext hshutdown
    refine ⟨?_, ?_, by simp⟩
    · unfold takeShutdown sendShutdownOk
      simp only
      split <;> rfl
    · intro hwhole hclear
      have hhas : HasShutdown c.assembler.unread := by
        refine ⟨f, ?_, hshutdown⟩
        rw [Scanner.items_item hnext]
        exact List.mem_cons_self ..
      obtain ⟨hnone, hreply⟩ := hclear.shutdown hhas
      exact hwhole.takeShutdown hnone hreply f a
  case request =>
    intro c f a next hnext hshutdown hloop
    have hsame : (c.takeRequest f a).conn.output = c.output ∧
        (c.takeRequest f a).conn.trace.placed = c.trace.placed ∧
        (c.takeRequest f a).conn.trace.sent = c.trace.sent ∧
        (c.takeRequest f a).conn.assembler = a := by
      unfold takeRequest request
      split <;> exact ⟨rfl, rfl, rfl, rfl⟩
    obtain ⟨houtput, hplaced, hsent, hassembler⟩ := hsame
    have hhas : HasShutdown a.unread ↔ HasShutdown c.assembler.unread := by
      unfold HasShutdown
      rw [Scanner.items_item (s := frames) hnext]
      simp [hshutdown]
    have hbad : HasBadLength a.unread ↔ HasBadLength c.assembler.unread := by
      unfold HasBadLength
      rw [Scanner.left_item (s := frames) hnext]
    refine ⟨hloop.output.trans houtput, ?_, ?_⟩
    · intro hwhole hclear
      refine hloop.whole (hwhole.of_eq hplaced hsent (by rw [houtput])) ?_
      rw [hassembler]
      refine ⟨?_, ?_⟩
      · rw [hhas, houtput]
        exact hclear.shutdown
      · rw [hhas, hbad, houtput]
        exact hclear.badLength
    · intro herror
      rw [← hbad, ← hhas]
      rw [← hassembler]
      exact hloop.error herror

theorem Whole.handleInput (h : c.Whole) {pieces : List Bytes} {ending : RecvEnd}
    (hclear : ending = .wouldBlock → c.ClearFor reply (c.assembler.unread ++ pieces.flatten)) :
    (c.handleInput pieces ending reply).conn.Whole := by
  have hreceived : (c.receive pieces).Whole := h.of_eq rfl rfl rfl
  unfold ConnectionState.handleInput
  simp only
  split
  · exact hreceived
  · rename_i hending
    have hclear : (c.receive pieces).ClearFor reply (c.receive pieces).assembler.unread := by
      have hclear := hclear (not_not.mp hending)
      rw [← unread_foldl_pushBytes] at hclear
      exact ⟨hclear.shutdown, hclear.badLength⟩
    have hloop := extractLoop_output reply (c.receive pieces)
    have herror : ∀ (res : FrameExtractResult) (r : ServeResult) (err : Frame),
        extractLoop reply ((c.receive pieces).assembler.bufferedBytes + 1) (c.receive pieces) =
          (res, r) → res = .ErrorLengthTooSmall ∨ res = .ErrorLengthTooLarge →
        (r.conn.queueImmediateErrorAndClose err reply).1.Whole := by
      intro res r err hr hres
      rw [hr] at hloop
      obtain ⟨hbad, hno⟩ := hloop.error hres
      refine (hloop.whole hreceived hclear).queueImmediateErrorAndClose ?_ err
      rw [show r.conn.output = (c.receive pieces).output from hloop.output]
      exact hclear.badLength hbad hno
    split
    · rename_i r hr
      exact (herror _ r malformedFrameError hr (.inl rfl)).of_eq rfl rfl rfl
    · rename_i r hr
      exact (herror _ r frameTooLargeError hr (.inr rfl)).of_eq rfl rfl rfl
    · rename_i res r _ _ hr
      rw [hr] at hloop
      exact (hloop.whole hreceived hclear).of_eq rfl rfl rfl

theorem handleOutput_same (c : ConnectionState) (w : Option SendOutcome) :
    (c.handleOutput w).1.connId = c.connId ∧ (c.handleOutput w).1.assembler = c.assembler ∧
      (c.handleOutput w).1.hasActiveReadStall = c.hasActiveReadStall := by
  obtain ⟨output, sent, heq⟩ := handleOutput_eq c w
  rw [heq]
  exact ⟨rfl, rfl, rfl⟩

/-- What is due at once in this pass finds no unsent output left by the flush. -/
def Unhindered (c : ConnectionState) (ev : Events) : Prop :=
  ∀ pieces, ev.readable = some (pieces, .wouldBlock) →
    (c.handleOutput ev.writable).1.ClearFor ev.reply (c.assembler.unread ++ pieces.flatten)

theorem Whole.serve (h : c.Whole) {ev : Events} (hclear : c.Unhindered ev) :
    (c.serve ev).conn.Whole := by
  have hout := h.handleOutput ev.writable
  have hassembler := (handleOutput_same c ev.writable).2.1
  unfold ConnectionState.serve
  split
  · exact h
  · split
    · rename_i c' hc'
      rw [hc'] at hout
      exact hout
    · rename_i c' hc'
      unfold Unhindered at hclear
      rw [hc'] at hout hclear hassembler
      split
      · exact hout
      · rename_i pieces ending hread
        refine hout.handleInput ?_
        intro hending
        subst hending
        rw [show c'.assembler = c.assembler from hassembler]
        exact hclear pieces hread

theorem Whole.dispatchNext (h : c.Whole) : c.dispatchNext.conn.Whole := by
  unfold ConnectionState.dispatchNext
  split
  · exact h
  · exact h.of_eq rfl rfl rfl

theorem Whole.complete (h : c.Whole) (max : ℕ) (outcome : SendOutcome) {comp : Completion}
    (hencoded : Encoded comp.responseBytes) : (c.complete max comp outcome).conn.Whole := by
  unfold ConnectionState.complete
  simp only
  split
  · exact h.of_eq rfl rfl rfl
  · split
    · rename_i hnone
      rw [List.isEmpty_iff] at hnone
      split
      · exact h.of_eq rfl rfl rfl
      · refine Whole.dispatchNext (h.place hencoded rfl ?_)
        simp [answer, hnone]
      · rename_i n
        refine (h.place hencoded rfl ?_).dispatchNext
        have hle := SendOutcome.taken_le comp.responseBytes.length (.sent n)
        simp only [sendNow, answer, hnone, List.append_nil]
        split
        · simp
        · rename_i hall
          have heq : (SendOutcome.sent n).taken comp.responseBytes.length =
              comp.responseBytes.length := by omega
          rw [heq, List.take_length, hnone, List.append_nil]
    · refine (h.place hencoded rfl ?_).dispatchNext
      simp [answer]

end ConnectionState

/-! ## The server -/

namespace Server

open ConnectionState

variable {s s₀ s' : Server} {id : UInt64} {c : ConnectionState} {r : ServeResult} {a : ServerAction}
variable {Handles : Frame → Frame → Prop}

/-- What is due at once in a pass of the event loop finds no unsent output. -/
def RepliesUnhindered (s : Server) (a : ServerAction) : Prop :=
  ∀ ev entry rest c, a = .serve ev → s.round = entry :: rest → s.conn entry.connId = some c →
    c.Unhindered ev

/-- **The streams to the clients are whole frames**: what was sent is the beginning
of the frames that were put on the output, and what is left of them is unsent. -/
structure WholeFrames (s : Server) : Prop where
  sent : ∀ t ∈ s.traces, ∃ fs : List Frame, t.placed = fs.map FrameCodec.encode ∧
    t.sent <+: fs.flatMap FrameCodec.encode
  queued : ∀ id c, s.conn id = some c → c.trace.sent ++ c.output.unsent = c.trace.placed.flatten
  refused : ∀ bytes ∈ s.refused, ∃ f, bytes <+: FrameCodec.encode f

structure OutputInv (s : Server) : Prop where
  whole : ∀ id c, s.conn id = some c → c.Whole
  comps : ∀ comp ∈ s.compQueue, Encoded comp.responseBytes
  gone : ∀ t ∈ s.gone, t.InFrames
  refused : ∀ bytes ∈ s.refused, ∃ f, bytes <+: FrameCodec.encode f

/-- A step on a connection keeps its output whole. Only the last flush leaves the
output buffer as it is, and closes the connection. -/
theorem Works.whole (h : Works s c a s₀ r) (hs : s.OutputInv) (hc : s.conn id = some c)
    (htarget : s.target a = some id) (hclear : RepliesUnhindered s a) :
    (r.closed = false → r.conn.Whole) ∧ r.conn.trace.InFrames := by
  have hwhole := hs.whole id c hc
  cases h with
  | clientSend id' bytes _ =>
    exact ⟨fun _ => hwhole.of_eq rfl rfl rfl, hwhole.encoded, _, hwhole.sent_unsent⟩
  | clientClose id' => exact ⟨fun _ => hwhole.of_eq rfl rfl rfl, hwhole.inFrames⟩
  | serve ev entry rest hround _ =>
    have hid : entry.connId = id := by simpa [target, hround] using htarget
    have hserved := hwhole.serve (hclear ev entry rest c rfl hround (hid ▸ hc))
    exact ⟨fun _ => hserved, hserved.inFrames⟩
  | complete outcome comp rest hqueue =>
    have hcomp := hs.comps comp (hqueue ▸ List.mem_cons_self ..)
    have hdone := hwhole.complete s.config.maxOutputBufferBytes outcome hcomp
    exact ⟨fun _ => hdone, hdone.inFrames⟩
  | closeStalled id' _ => exact ⟨fun h => (by cases h), hwhole.inFrames⟩
  | finish id' outcome _ _ =>
    refine ⟨fun h => (by cases h), hwhole.encoded, ?_⟩
    show c.trace.sent ++ c.output.unsent.take _ <+: c.trace.placed.flatten
    rw [← hwhole.sent_unsent]
    exact (List.prefix_append_right_inj _).mpr (List.take_prefix ..)

theorem OutputInv.settle {done : List Completion} (hs : s.OutputInv)
    (hserver : s₀ = { s with round := s₀.round, compQueue := s₀.compQueue })
    (hcomps : s.compQueue = done ++ s₀.compQueue)
    (hopen : r.closed = false → r.conn.Whole) (htrace : r.conn.trace.InFrames) :
    (s₀.settle r).OutputInv := by
  have hsame : s₀.gone = s.gone ∧ s₀.refused = s.refused ∧ ∀ id, s₀.conn id = s.conn id := by
    rw [hserver]
    exact ⟨rfl, rfl, fun _ => rfl⟩
  obtain ⟨hgone, hrefused, hconn⟩ := hsame
  refine ⟨?_, ?_, ?_, ?_⟩
  · intro id' c' hc'
    rw [settle_conn] at hc'
    split at hc'
    · split at hc'
      · cases hc'
      · rename_i hclosed
        cases hc'
        exact hopen (Bool.eq_false_iff.mpr hclosed)
    · exact hs.whole id' c' (hconn id' ▸ hc')
  · intro comp hcomp
    rw [(settle_same s₀ r).2.2.1] at hcomp
    exact hs.comps comp (by rw [hcomps]; exact List.mem_append_right _ hcomp)
  · intro t ht
    rw [settle_gone, hgone] at ht
    split at ht
    · rcases List.mem_append.mp ht with ht | ht
      · exact hs.gone t ht
      · rw [List.mem_singleton.mp ht]
        exact ⟨htrace.encoded, htrace.sent⟩
    · exact hs.gone t ht
  · intro bytes hbytes
    have hrefused' : (s₀.settle r).refused = s₀.refused := by
      unfold Server.settle closeConnection setConn
      cases r.closed with
      | true => rfl
      | false => rfl
    rw [hrefused', hrefused] at hbytes
    exact hs.refused bytes hbytes

theorem OutputInv.step (hs : s.OutputInv) (hclear : RepliesUnhindered s a)
    (hstep : s.Step Handles a s') : s'.OutputInv := by
  cases change_of_step hstep.1 with
  | work htarget hc hworks =>
    obtain ⟨hopen, htrace⟩ := hworks.whole hs hc htarget hclear
    obtain ⟨hserver, done, hcomps⟩ := hworks.server
    exact hs.settle hserver hcomps hopen htrace
  | accept outcome _ =>
    refine ⟨?_, hs.comps, hs.gone, hs.refused⟩
    intro id c hc
    replace hc : (s.connections.insert s.nextConnId
      { connId := s.nextConnId, trace := { serial := s.accepted } }).lookup id = some c := hc
    rw [AssocMap.lookup_insert_eq] at hc
    split at hc
    · cases hc
      exact ⟨by simp, rfl⟩
    · exact hs.whole id c hc
  | refuse outcome _ =>
    refine ⟨hs.whole, hs.comps, hs.gone, ?_⟩
    intro bytes hbytes
    rcases List.mem_append.mp hbytes with hbytes | hbytes
    · exact hs.refused bytes hbytes
    · rw [List.mem_singleton.mp hbytes]
      exact ⟨_, List.take_prefix ..⟩
  | poll order _ _ _ => exact ⟨hs.whole, hs.comps, hs.gone, hs.refused⟩
  | skip ev entry rest _ _ => exact ⟨hs.whole, hs.comps, hs.gone, hs.refused⟩
  | drop outcome comp rest hqueue _ =>
    refine ⟨hs.whole, ?_, hs.gone, hs.refused⟩
    intro comp' hcomp'
    exact hs.comps comp' (hqueue ▸ List.mem_cons_of_mem _ hcomp')
  | requestStop => exact ⟨hs.whole, hs.comps, hs.gone, hs.refused⟩
  | pop t rest _ _ => exact ⟨hs.whole, hs.comps, hs.gone, hs.refused⟩
  | complete i response t _ =>
    refine ⟨hs.whole, ?_, hs.gone, hs.refused⟩
    intro comp hcomp
    rcases List.mem_append.mp hcomp with hcomp | hcomp
    · exact hs.comps comp hcomp
    · rw [List.mem_singleton.mp hcomp]
      exact ⟨response, rfl⟩

theorem outputInv_init (hs : s.Init) : s.OutputInv := by
  obtain ⟨config, rfl⟩ := hs
  exact ⟨nofun, nofun, nofun, nofun⟩

theorem exists_frames (placed : List Bytes) (h : ∀ bytes ∈ placed, Encoded bytes) :
    ∃ fs : List Frame, placed = fs.map FrameCodec.encode := by
  induction placed with
  | nil => exact ⟨[], rfl⟩
  | cons bytes placed ih =>
    obtain ⟨f, rfl⟩ := h bytes (List.mem_cons_self ..)
    obtain ⟨fs, rfl⟩ := ih fun b hb => h b (List.mem_cons_of_mem _ hb)
    exact ⟨f :: fs, rfl⟩

/-- **The byte stream to a client is always whole frames**, in every run in which
what is due at once never finds unsent output. -/
theorem output_in_whole_frames (h : Reachable Handles RepliesUnhindered s) : s.WholeFrames := by
  have hs : s.OutputInv := by
    refine Reach.invariant ?_ ?_ h
    · intro s hs
      exact outputInv_init hs
    · intro s a s' hs hclear hstep
      exact hs.step hclear hstep
  refine ⟨?_, ?_, hs.refused⟩
  · intro t ht
    have htrace : t.InFrames := by
      rcases List.mem_append.mp ht with ht | ht
      · obtain ⟨⟨id, c⟩, hmem, rfl⟩ := List.mem_map.mp ht
        exact (hs.whole id c (AssocMap.lookup_of_mem hmem)).inFrames
      · exact hs.gone t ht
    obtain ⟨fs, hfs⟩ := exists_frames t.placed htrace.encoded
    refine ⟨fs, hfs, ?_⟩
    have hsent := htrace.sent
    rw [hfs] at hsent
    rwa [List.flatMap_def]
  · intro id c hc
    exact (hs.whole id c hc).sent_unsent

def badLength : List ServerAction := [.clientSend 1 [0, 0, 0, 0], .poll [1]]

theorem output_in_whole_frames_error : ∃ s : Server, s.WholeFrames ∧
    s.traces.map (fun t => t.sent) = [FrameCodec.encode malformedFrameError] := by
  have hinit : Reachable (fun _ _ => True) RepliesUnhindered { config := oneWorker } :=
    .init ⟨oneWorker, rfl⟩
  have hpolled := hinit.run (.connect .wouldBlock :: badLength) rfl
    (by rintro s a ha ev entry rest c rfl; simp [badLength] at ha) fun _ _ _ _ => trivial
  refine ⟨_, output_in_whole_frames (hpolled.step (a := .serve {
    readable := some ([[0, 0, 0, 0]], .wouldBlock), reply := .sent 1000 }) ?_
    ⟨rfl, fun _ _ _ h => by cases h⟩), rfl⟩
  rintro ev entry rest c ⟨⟩ ⟨⟩ ⟨⟩ pieces ⟨⟩
  exact ⟨fun _ => ⟨rfl, .inr rfl⟩, fun _ _ => rfl⟩

/-- One byte of a PONG was sent when the client sends a bad length. The error frame
is not taken at once and replaces the rest of the PONG. -/
theorem error_replaces_response : ∃ s : Server, Reachable (fun _ _ => True) (fun _ _ => True) s ∧
    ∃ t ∈ s.traces, t.sent = 0 :: FrameCodec.encode malformedFrameError ∧
      t.placed = [FrameCodec.encode ⟨5, MessageType.PONG, 7, []⟩,
        FrameCodec.encode malformedFrameError] := by
  have hinit : Reachable (fun _ _ => True) (fun _ _ => True) { config := oneWorker } :=
    .init ⟨oneWorker, rfl⟩
  have hrun := hinit.run (.connect .wouldBlock :: pingRound ++ .processCompletion (.sent 0) ::
    badLength ++ [.serve { readable := some ([[0, 0, 0, 0]], .wouldBlock) }, .poll [1],
      .serve { writable := some (.sent 1000) }]) rfl (fun _ _ _ => trivial) fun _ _ _ _ => trivial
  exact ⟨_, hrun, _, List.mem_cons_self .., rfl, rfl⟩

/-- **An error frame inside a response**: what the client has got is not the
beginning of the frames that were put on the output, and for its own assembler it
does not begin with a frame at all. -/
theorem error_frame_inside_response : ∃ s : Server,
    Reachable (fun _ _ => True) (fun _ _ => True) s ∧ ¬ s.WholeFrames ∧
      ∃ t ∈ s.traces, nextFrame t.sent = .stop .tooSmall := by
  obtain ⟨s, hreach, t, ht, hsent, hplaced⟩ := error_replaces_response
  refine ⟨s, hreach, fun h => ?_, t, ht, ?_⟩
  · obtain ⟨fs, hfs, hbegin⟩ := h.sent t ht
    rw [List.flatMap_def, ← hfs, hplaced, hsent] at hbegin
    exact absurd hbegin (by decide)
  · have hread : readU32 (0 :: FrameCodec.encode malformedFrameError) = 0 := by decide
    rw [hsent, nextFrame_stop, hread, List.length_cons, length_encode_frame]
    exact ⟨by omega, rfl⟩

end Server

end StreamForge
