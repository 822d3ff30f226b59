import StreamForge.Foundation.Lifetime
import StreamForge.Net.OutputStream

/-!
# The lifetime of a connection

`event_loop` and `process_completions` find a connection in `m_connections` and keep
the pointer to it. Here every statement that goes through the pointer is a `deref` of
the connection's id, and every insertion into and erasure from the map is an event as
well. One iteration of the loop is run as a whole: the poll set, new connections,
completions, the client sockets, the ids in `to_close`, completions again, and the
check for stalled reads. What the poll, `recv` and `send` return is input.

The one erasure under a pointer that is still used is the one in
`queue_immediate_error_and_close`: it is made when `send` takes the whole error
frame at once, and `has_active_read_stall` is written after it.
-/

namespace StreamForge

open Incremental Transition Lifetime

/-! ## What goes through the pointer -/

namespace ConnectionState

def deref (c : ConnectionState) : Event UInt64 := .deref c.connId

/-- `close_connection` where the connection is there: `shutdown`, `close` and
`erase`. -/
def closeEvents (c : ConnectionState) : List (Event UInt64) := [c.deref, c.deref, .erase c.connId]

def outputEvents (c : ConnectionState) : Option SendOutcome → List (Event UInt64)
  | none => []
  | some .wouldBlock => [c.deref, c.deref]
  | some .failed => [c.deref, c.deref]
  | some (.sent n) =>
    let n := (SendOutcome.sent n).taken c.output.unsent.length
    -- `to_send`, `send`, `output_offset += sent` and the comparison
    [c.deref, c.deref, c.deref, c.deref] ++
      if (c.output.advance n).unsent.isEmpty then [c.deref, c.deref, c.deref] else []

/-- The `recv` loop: each piece is pushed and sets `last_read_time`; the last call
gives none. -/
def recvEvents (c : ConnectionState) (pieces : List Bytes) : List (Event UInt64) :=
  (pieces.flatMap fun _ => [c.deref, c.deref, c.deref]) ++ [c.deref]

def extractEvents : ℕ → ConnectionState → List (Event UInt64)
  | 0, _ => []
  | fuel + 1, c =>
    c.deref ::
      match c.assembler.extractNextFrame ⟨0, 0, 0, []⟩ with
      | (.FrameReady, frame, assembler) =>
        let c := c.takeFrame frame assembler
        if frame.type = MessageType.SHUTDOWN then [c.deref]
        else
          (if c.inFlight then [c.deref, c.deref] else [c.deref, c.deref, c.deref]) ++
            extractEvents fuel (c.request frame).1
      | _ => []

def errorEvents (c : ConnectionState) (errFrame : Frame) (outcome : SendOutcome) :
    List (Event UInt64) :=
  let encoded := FrameCodec.encode errFrame
  let n := outcome.taken encoded.length
  c.deref ::
    if 0 < n ∧ n = encoded.length then c.deref :: c.closeEvents
    else [c.deref, c.deref, c.deref]

/-- The input handling of `event_loop`, with the update of `has_active_read_stall`
at its end. -/
def inputEvents (c : ConnectionState) (pieces : List Bytes) (ending : RecvEnd)
    (reply : SendOutcome) : List (Event UInt64) :=
  c.recvEvents pieces ++
    if ending ≠ .wouldBlock then []
    else
      let c := c.receive pieces
      let fuel := c.assembler.bufferedBytes + 1
      extractEvents fuel c ++
        ((match extractLoop reply fuel c with
          | (.ErrorLengthTooSmall, r) => r.conn.errorEvents malformedFrameError reply
          | (.ErrorLengthTooLarge, r) => r.conn.errorEvents frameTooLargeError reply
          | _ => []) ++ [c.deref])

def turnEvents (c : ConnectionState) (ev : Events) : List (Event UInt64) :=
  if ev.hangUp then []
  else
    c.outputEvents ev.writable ++
      match c.handleOutput ev.writable with
      | (_, true) => []
      | (c, false) =>
        match ev.readable with
        | none => []
        | some (pieces, ending) => c.inputEvents pieces ending ev.reply

/-- The pass puts the connection into `to_close`. -/
def marked (c : ConnectionState) (ev : Events) : Bool :=
  ev.hangUp || (c.handleOutput ev.writable).2 ||
    match ev.readable with
    | none => false
    | some (_, ending) => decide (ending ≠ .wouldBlock)

/-- The next buffered request, at the end of the completion loop. -/
def nextEvents (c : ConnectionState) : List (Event UInt64) :=
  c.deref :: if c.pendingRequests.isEmpty then [] else [c.deref, c.deref, c.deref, c.deref]

def completionEvents (c : ConnectionState) (maxOutputBufferBytes : ℕ) (comp : Completion)
    (outcome : SendOutcome) : List (Event UInt64) :=
  let response := comp.responseBytes
  c.deref :: c.deref ::
    if maxOutputBufferBytes < c.output.unsent.length + response.length then
      -- the warning, `conn->conn_id`, `close_connection`
      c.deref :: c.deref :: c.closeEvents
    else if c.output.unsent.isEmpty then
      c.deref ::
        match outcome with
        | .failed => c.deref :: c.closeEvents
        | .wouldBlock => c.deref :: c.deref :: c.nextEvents
        | .sent n =>
          if (SendOutcome.sent n).taken response.length < response.length then
            c.deref :: c.deref :: c.nextEvents
          else c.nextEvents
    else
      c.deref ::
        if 0 < c.output.offset then c.deref :: c.deref :: c.deref :: c.nextEvents
        else c.deref :: c.nextEvents

/-- An iteration of `check_read_stalls`; `overdue` says that the last read is too
long ago. -/
def stallEvents (c : ConnectionState) (overdue : Bool) : List (Event UInt64) :=
  c.deref ::
    if c.hasActiveReadStall then c.deref :: if overdue then [c.deref] else [] else []

end ConnectionState

/-! ## One iteration of the loop -/

/-- A call of `process_completions`: the completions that workers have put into the
queue since the last one, and what `send` returns for the completions in turn. -/
structure Drain where
  arrived : List Completion := []
  sends : ℕ → SendOutcome := fun _ => .wouldBlock

/-- What an iteration finds: the clients that `accept` returns with the results of
`send` for those that are turned away, whether the wakeup channel is readable, the
client sockets of the poll set in the order of the map, and which reads are
overdue. -/
structure Iteration where
  accepted : List SendOutcome := []
  woken : Option Drain := none
  clients : List (UInt64 × Events) := []
  drained : Drain := {}
  overdue : UInt64 → Bool := fun _ => false

/-- What a part of the loop does: the server afterwards, the events, the
connections it served as it found them, and the ids it put into `to_close`. -/
structure Passed where
  server : Server
  trace : List (Event UInt64) := []
  turns : List (ConnectionState × Events) := []
  toClose : List UInt64 := []

def Passed.andThen (p : Passed) (f : Server → Passed) : Passed :=
  let q := f p.server
  { server := q.server
    trace := p.trace ++ q.trace
    turns := p.turns ++ q.turns
    toClose := p.toClose ++ q.toClose }

namespace Server

def each {α : Type} (f : α → Server → Passed) : List α → Server → Passed
  | [], s => { server := s }
  | a :: as, s => (f a s).andThen (each f as)

def pollSet (s : Server) : Passed where
  server := s
  trace := s.connections.keys.flatMap fun id => [.deref id, .deref id, .deref id]

def acceptOne (outcome : SendOutcome) (s : Server) : Passed where
  server := s.accept outcome
  trace := if s.config.maxConnections ≤ s.connections.keys.length then [] else
    [.insert s.nextConnId]

def completeOne (job : Completion × SendOutcome) (s : Server) : Passed :=
  match s.conn job.1.connId with
  | none => { server := s }
  | some c =>
    { server := s.settle (c.complete s.config.maxOutputBufferBytes job.1 job.2)
      trace := c.completionEvents s.config.maxOutputBufferBytes job.1 job.2 }

def processCompletions (d : Drain) (s : Server) : Passed :=
  each completeOne ((s.compQueue ++ d.arrived).zipIdx.map fun p => (p.1, d.sends p.2))
    { s with compQueue := [] }

/-- A client socket. One that is only marked stays in the map. -/
def serveOne (client : UInt64 × Events) (s : Server) : Passed :=
  match s.conn client.1 with
  | none => { server := s }
  | some c =>
    let r := c.serve client.2
    { server := s.settle (if c.marked client.2 then { r with closed := false } else r)
      trace := c.turnEvents client.2
      turns := [(c, client.2)]
      toClose := if c.marked client.2 then [client.1] else [] }

def closeOne (id : UInt64) (s : Server) : Passed :=
  match s.conn id with
  | none => { server := s }
  | some c => { server := s.closeConnection c, trace := c.closeEvents }

def checkReadStalls (overdue : UInt64 → Bool) (s : Server) : Passed :=
  let found : Passed :=
    { server := s
      trace := s.connections.keys.flatMap fun id =>
        ((s.conn id).map fun c => c.stallEvents (overdue id)).getD []
      toClose := s.connections.keys.filter fun id =>
        ((s.conn id).map fun c => c.hasActiveReadStall && overdue id).getD false }
  found.andThen (each closeOne found.toClose)

/-- One iteration of `event_loop`, which is left once a stop was requested. -/
def iterate (it : Iteration) (s : Server) : Passed :=
  if s.shutdownRequested then { server := s }
  else
    let polled := s.pollSet.andThen (each acceptOne it.accepted)
    let woken := polled.andThen (each processCompletions it.woken.toList)
    let served := woken.andThen (each serveOne it.clients)
    let closed := served.andThen (each closeOne served.toClose)
    (closed.andThen (processCompletions it.drained)).andThen (checkReadStalls it.overdue)

def ids (s : Server) : Finset UInt64 := s.connections.keys.toFinset

end Server

/-! ## The error frame -/

def LengthError.errorFrame : LengthError → Frame
  | .tooSmall => ConnectionState.malformedFrameError
  | .tooLarge => ConnectionState.frameTooLargeError

/-- `send` takes all the bytes of the frame. -/
def SendOutcome.TakesWhole (reply : SendOutcome) (f : Frame) : Prop :=
  ∃ n, reply = .sent n ∧ (FrameCodec.encode f).length ≤ n + 1

theorem SendOutcome.takesWhole_iff (reply : SendOutcome) (f : Frame) :
    0 < reply.taken (FrameCodec.encode f).length ∧
        reply.taken (FrameCodec.encode f).length = (FrameCodec.encode f).length ↔
      reply.TakesWhole f := by
  have hlen := length_encode_frame f
  constructor
  · rintro ⟨hpos, hall⟩
    cases reply with
    | sent n => exact ⟨n, rfl, min_eq_right_iff.mp hall⟩
    | wouldBlock => cases hpos
    | failed => cases hpos
  · rintro ⟨n, rfl, hle⟩
    have hall : (SendOutcome.sent n).taken (FrameCodec.encode f).length =
        (FrameCodec.encode f).length := Nat.min_eq_right hle
    rw [hall]
    exact ⟨by omega, rfl⟩

namespace ConnectionState

variable {c : ConnectionState} {reply : SendOutcome} {ev : Events} {pieces : List Bytes}

/-- Behind their frames, of which none is a SHUTDOWN, the bytes have a length of
this kind. -/
def StopsAt (bytes : Bytes) (e : LengthError) : Prop :=
  nextFrame (frames.left bytes) = .stop e ∧ ¬ HasShutdown bytes

/-- **The extraction loop ends in an error** exactly at a bad length that no SHUTDOWN
comes before. -/
theorem extractLoop_stopsAt (reply : SendOutcome) (c : ConnectionState) (e : LengthError) :
    (extractLoop reply (c.assembler.bufferedBytes + 1) c).1 = e.result ↔
      StopsAt c.assembler.unread e := by
  refine extractLoop_rule (R := fun c p => p.1 = e.result ↔ StopsAt c.assembler.unread e)
    ?more ?stop ?shutdown ?request c (Nat.lt_succ_self _)
  case more =>
    intro c hnext
    have hleft : frames.left c.assembler.unread = c.assembler.unread := by
      rw [Scanner.left, Scanner.scan_more (s := frames) hnext]
    refine iff_of_false (by rcases e <;> rintro ⟨⟩) ?_
    rintro ⟨hstop, -⟩
    rw [hleft, hnext] at hstop
    cases hstop
  case stop =>
    intro c e' hnext
    have hscan := Scanner.scan_stop (s := frames) hnext
    unfold StopsAt HasShutdown
    rw [Scanner.left, Scanner.items, hscan, hnext]
    constructor
    · intro he
      refine ⟨?_, by simp⟩
      cases e' with
      | tooSmall =>
        cases e with
        | tooSmall => rfl
        | tooLarge => cases he
      | tooLarge =>
        cases e with
        | tooSmall => cases he
        | tooLarge => rfl
    · rintro ⟨he, -⟩
      cases he
      rfl
  case shutdown =>
    intro c f a hnext hshutdown
    refine iff_of_false (by rcases e <;> rintro ⟨⟩) ?_
    rintro ⟨-, hnone⟩
    refine hnone ⟨f, ?_, hshutdown⟩
    rw [Scanner.items_item (s := frames) hnext]
    exact List.mem_cons_self ..
  case request =>
    intro c f a next hnext hshutdown hloop
    have hassembler : (c.takeRequest f a).conn.assembler = a := by
      unfold takeRequest request
      split <;> rfl
    rw [hloop, hassembler]
    unfold StopsAt HasShutdown
    rw [Scanner.left_item (s := frames) hnext, Scanner.items_item (s := frames) hnext]
    simp [hshutdown]

/-- **The error frame goes out at once**: the pass gets to the bytes of the client,
they lead to a bad length, and `send` takes the whole error frame. -/
structure ErrorSentAtOnce (c : ConnectionState) (ev : Events) : Prop where
  up : ev.hangUp = false
  notFailed : ev.writable ≠ some .failed
  notFlushed : c.closeAfterSend = true → ∀ n, ev.writable = some (.sent n) →
    n + 1 < c.output.unsent.length
  error : ∃ pieces e, ev.readable = some (pieces, .wouldBlock) ∧
    StopsAt (c.assembler.unread ++ pieces.flatten) e ∧ ev.reply.TakesWhole e.errorFrame

/-! ## The events of a pass over a connection -/

/-- Nothing but statements that go through the pointer. -/
def Uses (c : ConnectionState) (trace : List (Event UInt64)) : Prop := ∀ e ∈ trace, e = c.deref

theorem uses_nil (c : ConnectionState) : c.Uses [] := List.forall_mem_nil _

theorem Uses.append {trace more : List (Event UInt64)} (h : c.Uses trace) (hmore : c.Uses more) :
    c.Uses (trace ++ more) := by
  intro e he
  rcases List.mem_append.mp he with he | he
  · exact h e he
  · exact hmore e he

theorem Uses.of_connId {c' : ConnectionState} {trace : List (Event UInt64)} (h : c'.Uses trace)
    (hid : c'.connId = c.connId) : c.Uses trace := by
  intro e he
  rw [h e he, deref, deref, hid]

theorem uses_outputEvents (c : ConnectionState) (w : Option SendOutcome) :
    c.Uses (c.outputEvents w) := by
  unfold outputEvents Uses
  split
  · simp
  · simp
  · simp
  · simp only
    split
    · simp
    · simp

theorem uses_recvEvents (c : ConnectionState) (pieces : List Bytes) :
    c.Uses (c.recvEvents pieces) := by
  intro e he
  rcases List.mem_append.mp he with he | he
  · obtain ⟨_, -, he⟩ := List.mem_flatMap.mp he
    simpa using he
  · exact List.mem_singleton.mp he

theorem connId_request (c : ConnectionState) (f : Frame) : (c.request f).1.connId = c.connId := by
  unfold request
  split
  · rfl
  · rfl

theorem uses_extractEvents (fuel : ℕ) (c : ConnectionState) : c.Uses (extractEvents fuel c) := by
  induction fuel generalizing c with
  | zero => exact uses_nil c
  | succ fuel ih =>
    rw [extractEvents]
    refine List.forall_mem_cons.mpr ⟨rfl, ?_⟩
    show c.Uses _
    split
    · rename_i frame assembler _
      simp only
      have hrest := (ih ((c.takeFrame frame assembler).request frame).1).of_connId
        (connId_request ..)
      split
      · simp [Uses, deref, takeFrame]
      · refine Uses.append ?_ hrest
        split
        · simp [Uses, deref, takeFrame]
        · simp [Uses, deref, takeFrame]
    · simp [Uses]

theorem errorEvents_whole {f : Frame} (h : reply.TakesWhole f) (c : ConnectionState) :
    c.errorEvents f reply = [c.deref, c.deref, c.deref, c.deref] ++ [.erase c.connId] := by
  unfold errorEvents
  simp only
  rw [if_pos ((reply.takesWhole_iff f).mpr h)]
  rfl

theorem uses_errorEvents {f : Frame} (h : ¬ reply.TakesWhole f) (c : ConnectionState) :
    c.Uses (c.errorEvents f reply) := by
  unfold errorEvents
  simp only
  rw [if_neg (mt (reply.takesWhole_iff f).mp h)]
  simp [Uses]

theorem closes_iff (c : ConnectionState) (f : Frame) :
    (c.queueImmediateErrorAndClose f reply).2 = true ↔ reply.TakesWhole f := by
  rw [← reply.takesWhole_iff f]
  unfold queueImmediateErrorAndClose
  simp only
  split
  · rename_i h
    exact iff_of_true rfl h
  · rename_i h
    exact iff_of_false Bool.false_ne_true h

theorem connId_queueImmediateErrorAndClose (c : ConnectionState) (f : Frame) :
    (c.queueImmediateErrorAndClose f reply).1.connId = c.connId := by
  obtain ⟨output, closeAfterSend, sent, heq⟩ := queueImmediateErrorAndClose_eq c f reply
  rw [heq]

theorem connId_extractLoop (reply : SendOutcome) (c : ConnectionState) :
    (extractLoop reply (c.assembler.bufferedBytes + 1) c).2.conn.connId = c.connId :=
  (extractLoop_pass reply c).progress.connId

theorem unread_receive (c : ConnectionState) (pieces : List Bytes) :
    (c.receive pieces).assembler.unread = c.assembler.unread ++ pieces.flatten :=
  unread_foldl_pushBytes ..

theorem uses_received (c : ConnectionState) (pieces : List Bytes) :
    c.Uses (c.recvEvents pieces ++
      extractEvents ((c.receive pieces).assembler.bufferedBytes + 1) (c.receive pieces)) :=
  (uses_recvEvents c pieces).append ((uses_extractEvents _ (c.receive pieces)).of_connId rfl)

/-- **Input that ends in a bad length.** The update of `has_active_read_stall` comes
behind what is done about the error. -/
theorem input_error (reply : SendOutcome) {e : LengthError}
    (h : StopsAt (c.assembler.unread ++ pieces.flatten) e) :
    ∃ r : ConnectionState, r.connId = c.connId ∧
      ((c.handleInput pieces .wouldBlock reply).closed = true ↔ reply.TakesWhole e.errorFrame) ∧
      ∃ uses, c.Uses uses ∧ c.inputEvents pieces .wouldBlock reply =
        uses ++ (r.errorEvents e.errorFrame reply ++ [c.deref]) := by
  rw [← unread_receive, ← extractLoop_stopsAt reply] at h
  have hid := connId_extractLoop reply (c.receive pieces)
  rcases hloop : extractLoop reply ((c.receive pieces).assembler.bufferedBytes + 1)
    (c.receive pieces) with ⟨res, r⟩
  rw [hloop] at h hid
  obtain rfl : res = e.result := h
  refine ⟨r.conn, hid, ?_, _, uses_received c pieces, ?_⟩
  · rw [← closes_iff r.conn]
    unfold handleInput
    simp only
    rw [if_neg (not_not.mpr rfl), hloop]
    cases e with
    | tooSmall => exact Iff.rfl
    | tooLarge => exact Iff.rfl
  · unfold inputEvents
    simp only
    rw [if_neg (not_not.mpr rfl), hloop, List.append_assoc]
    cases e with
    | tooSmall => rfl
    | tooLarge => rfl

/-- **Input without a bad length**: the connection stays. -/
theorem input_good (h : ∀ e, ¬ StopsAt (c.assembler.unread ++ pieces.flatten) e) :
    (c.handleInput pieces .wouldBlock reply).closed = false ∧
      c.Uses (c.inputEvents pieces .wouldBlock reply) := by
  have hclosed := closed_extractLoop reply (c.receive pieces)
  have hres := fun e => mt (extractLoop_stopsAt reply (c.receive pieces) e).mp
    (unread_receive c pieces ▸ h e)
  rcases hloop : extractLoop reply ((c.receive pieces).assembler.bufferedBytes + 1)
    (c.receive pieces) with ⟨res, r⟩
  rw [hloop] at hclosed hres
  have huses := (uses_received c pieces).append (show c.Uses [c.deref] by simp [Uses])
  rw [List.append_assoc] at huses
  unfold handleInput inputEvents
  simp only
  rw [if_neg (not_not.mpr rfl), if_neg (not_not.mpr rfl), hloop]
  cases res with
  | ErrorLengthTooSmall => exact absurd rfl (hres .tooSmall)
  | ErrorLengthTooLarge => exact absurd rfl (hres .tooLarge)
  | NeedMoreData => exact ⟨hclosed, huses⟩
  | FrameReady => exact ⟨hclosed, huses⟩

/-- The connection also stays when `send` does not take the whole error frame. -/
theorem input_rest (h : ∀ e, StopsAt (c.assembler.unread ++ pieces.flatten) e →
    ¬ reply.TakesWhole e.errorFrame) :
    (c.handleInput pieces .wouldBlock reply).closed = false ∧
      c.Uses (c.inputEvents pieces .wouldBlock reply) := by
  by_cases hstop : ∃ e, StopsAt (c.assembler.unread ++ pieces.flatten) e
  · obtain ⟨e, hstop⟩ := hstop
    obtain ⟨r, hid, hclosed, uses, huses, hinput⟩ := input_error reply hstop
    have herror := (uses_errorEvents (h e hstop) r).of_connId hid
    refine ⟨?_, ?_⟩
    · rw [← Bool.not_eq_true, hclosed]
      exact h e hstop
    · rw [hinput]
      exact huses.append (herror.append (by simp [Uses]))
  · exact input_good (not_exists.mp hstop)

theorem handleOutput_closes_iff (c : ConnectionState) (w : Option SendOutcome) :
    (c.handleOutput w).2 = true ↔ w = some .failed ∨ c.closeAfterSend = true ∧
      ∃ n, w = some (.sent n) ∧ c.output.unsent.length ≤ n + 1 := by
  have hlen : ∀ n,
    ((c.output.advance ((SendOutcome.sent n).taken c.output.unsent.length)).unsent.isEmpty
      = true) ↔ c.output.unsent.length ≤ n + 1 := by
    intro n
    rw [OutputBuffer.unsent_advance, List.isEmpty_iff, List.drop_eq_nil_iff]
    show c.output.unsent.length ≤ min (n + 1) c.output.unsent.length ↔ _
    rw [le_min_iff]
    exact and_iff_left le_rfl
  unfold handleOutput
  split
  · simp
  · simp
  · simp
  · rename_i n
    simp only
    split
    · rename_i hempty
      simp [(hlen n).mp hempty]
    · rename_i hsome
      rw [hlen] at hsome
      simp [hsome]

theorem errorSentAtOnce_iff (c : ConnectionState) (ev : Events) :
    c.ErrorSentAtOnce ev ↔ ev.hangUp = false ∧ (c.handleOutput ev.writable).2 = false ∧
      ∃ pieces e, ev.readable = some (pieces, .wouldBlock) ∧
        StopsAt (c.assembler.unread ++ pieces.flatten) e ∧ ev.reply.TakesWhole e.errorFrame := by
  rw [← Bool.not_eq_true (c.handleOutput ev.writable).2, handleOutput_closes_iff, not_or]
  constructor
  · intro h
    refine ⟨h.up, ⟨h.notFailed, ?_⟩, h.error⟩
    rintro ⟨hclose, n, hw, hle⟩
    exact Nat.not_le_of_lt (h.notFlushed hclose n hw) hle
  · rintro ⟨hup, ⟨hfailed, hflushed⟩, herror⟩
    refine ⟨hup, hfailed, fun hclose n hw => ?_, herror⟩
    exact Nat.lt_of_not_le fun hle => hflushed ⟨hclose, n, hw, hle⟩

/-- **The error frame goes out at once.** The connection is erased and used once
more. -/
theorem turn_error (h : c.ErrorSentAtOnce ev) : c.marked ev = false ∧ (c.serve ev).closed = true ∧
    ∃ uses, c.Uses uses ∧ c.turnEvents ev = uses ++ [.erase c.connId, c.deref] := by
  obtain ⟨hup, hout, pieces, e, hread, hstop, hwhole⟩ := (errorSentAtOnce_iff c ev).mp h
  obtain ⟨hid, hassembler, -⟩ := handleOutput_same c ev.writable
  rcases hc' : c.handleOutput ev.writable with ⟨c', b⟩
  rw [hc'] at hid hassembler hout
  obtain rfl : b = false := hout
  replace hid : c'.connId = c.connId := hid
  rw [← show c'.assembler = c.assembler from hassembler] at hstop
  obtain ⟨r, hr, hclosed, uses, huses, hinput⟩ := input_error ev.reply hstop
  have hserve : c.serve ev = c'.handleInput pieces .wouldBlock ev.reply := by
    unfold serve
    rw [hup, hc', hread]
    rfl
  have hturn : c.turnEvents ev = c.outputEvents ev.writable ++
      c'.inputEvents pieces .wouldBlock ev.reply := by
    unfold turnEvents
    rw [hup, hc', hread]
    rfl
  refine ⟨?_, ?_, c.outputEvents ev.writable ++ (uses ++
    [c.deref, c.deref, c.deref, c.deref]), ?_, ?_⟩
  · simp [marked, hup, hc', hread]
  · rw [hserve]
    exact hclosed.mpr hwhole
  · exact (uses_outputEvents c _).append ((huses.of_connId hid).append (by simp [Uses]))
  · have hderef : c'.deref = c.deref := congrArg Event.deref hid
    have hderef' : r.deref = c.deref := congrArg Event.deref (hr.trans hid)
    rw [hturn, hinput, errorEvents_whole hwhole r, hderef, hderef', hr, hid]
    simp only [List.append_assoc, List.cons_append, List.nil_append]

/-- **Any other pass** only goes through the pointer, and closes nothing that it does
not mark. -/
theorem turn_rest (h : ¬ c.ErrorSentAtOnce ev) :
    c.Uses (c.turnEvents ev) ∧ (c.marked ev = false → (c.serve ev).closed = false) := by
  rw [errorSentAtOnce_iff] at h
  obtain ⟨hid, hassembler, -⟩ := handleOutput_same c ev.writable
  have hout := uses_outputEvents c ev.writable
  unfold turnEvents serve marked
  cases hup : ev.hangUp with
  | true => exact ⟨uses_nil c, fun h => by cases h⟩
  | false =>
    simp only [Bool.false_eq_true, if_false, Bool.false_or]
    rcases hc' : c.handleOutput ev.writable with ⟨c', b⟩
    rw [hc'] at hid hassembler h
    replace hid : c'.connId = c.connId := hid
    replace hassembler : c'.assembler = c.assembler := hassembler
    cases b with
    | true => exact ⟨hout.append (uses_nil c), fun h => by cases h⟩
    | false =>
      rcases hread : ev.readable with _ | ⟨pieces, ending⟩
      · exact ⟨hout.append (uses_nil c), fun _ => rfl⟩
      · -- Only the end of the stream marks the connection here.
        cases ending with
        | closed =>
          have huses := (uses_recvEvents c' pieces).of_connId hid
          exact ⟨hout.append (huses.append (uses_nil c)), fun h => by cases h⟩
        | failed =>
          have huses := (uses_recvEvents c' pieces).of_connId hid
          exact ⟨hout.append (huses.append (uses_nil c)), fun h => by cases h⟩
        | wouldBlock =>
          have hrest : ∀ e, StopsAt (c'.assembler.unread ++ pieces.flatten) e →
              ¬ ev.reply.TakesWhole e.errorFrame :=
            fun e hstop hwhole => h ⟨hup, rfl, pieces, e, hread, hassembler ▸ hstop, hwhole⟩
          obtain ⟨hclosed, huses⟩ := input_rest hrest
          exact ⟨hout.append (huses.of_connId hid), fun _ => hclosed⟩

theorem connId_serve (c : ConnectionState) (ev : Events) : (c.serve ev).conn.connId = c.connId := by
  obtain ⟨hid, -⟩ := handleOutput_same c ev.writable
  unfold serve
  split
  · rfl
  · split
    · rename_i c' hc'
      rw [hc'] at hid
      exact hid
    · rename_i c' hc'
      rw [hc'] at hid
      replace hid : c'.connId = c.connId := hid
      split
      · exact hid
      · rename_i pieces ending _
        rw [← hid]
        have hloop := connId_extractLoop ev.reply (c'.receive pieces)
        unfold handleInput
        simp only
        split
        · rfl
        · split
          · rename_i r hr
            rw [hr] at hloop
            exact (connId_queueImmediateErrorAndClose ..).trans hloop
          · rename_i r hr
            rw [hr] at hloop
            exact (connId_queueImmediateErrorAndClose ..).trans hloop
          · rename_i r _ _ hr
            rw [hr] at hloop
            exact hloop

theorem connId_complete (c : ConnectionState) (max : ℕ) (comp : Completion)
    (outcome : SendOutcome) :
    (c.complete max comp outcome).conn.connId = c.connId := by
  rcases complete_requests c max comp outcome with h | ⟨c', hc', h⟩
  · rw [h]
  · have hid : c'.connId = c.connId := congrArg Requests.connId hc'
    rw [h, ← hid]
    unfold dispatchNext
    split
    · rfl
    · rfl

theorem uses_nextEvents (c : ConnectionState) : c.Uses c.nextEvents := by
  unfold nextEvents Uses
  split
  · simp
  · simp

/-- **A completion** goes through the pointer, and erases the connection at the end if
at all. -/
theorem completionEvents_eq (c : ConnectionState) (max : ℕ) (comp : Completion)
    (outcome : SendOutcome) : ∃ uses, c.Uses uses ∧ c.completionEvents max comp outcome =
      uses ++ if (c.complete max comp outcome).closed then [.erase c.connId] else [] := by
  have hnext := uses_nextEvents c
  have hstays : ∀ c' : ConnectionState, c'.dispatchNext.closed = false :=
    fun c' => (dispatchNext_requests c').2.2.1
  unfold completionEvents complete
  simp only
  split
  · exact ⟨[c.deref, c.deref, c.deref, c.deref, c.deref, c.deref], by simp [Uses], rfl⟩
  · split
    · split
      · exact ⟨[c.deref, c.deref, c.deref, c.deref, c.deref, c.deref], by simp [Uses], rfl⟩
      · refine ⟨[c.deref, c.deref, c.deref, c.deref, c.deref] ++ c.nextEvents,
          Uses.append (by simp [Uses]) hnext, ?_⟩
        simp [hstays]
      · rw [hstays]
        split
        · exact ⟨[c.deref, c.deref, c.deref, c.deref, c.deref] ++ c.nextEvents,
            Uses.append (by simp [Uses]) hnext, by simp⟩
        · exact ⟨[c.deref, c.deref, c.deref] ++ c.nextEvents,
            Uses.append (by simp [Uses]) hnext, by simp⟩
    · rw [hstays]
      split
      · exact ⟨[c.deref, c.deref, c.deref, c.deref, c.deref, c.deref] ++ c.nextEvents,
          Uses.append (by simp [Uses]) hnext, by simp⟩
      · exact ⟨[c.deref, c.deref, c.deref, c.deref] ++ c.nextEvents,
          Uses.append (by simp [Uses]) hnext, by simp⟩

end ConnectionState

/-! ## The map -/

namespace Server

variable {s s' : Server} {id : UInt64} {c : ConnectionState}

def Keyed (s : Server) : Prop := ∀ id c, s.conn id = some c → c.connId = id

theorem mem_ids : id ∈ s.ids ↔ id ∈ s.connections := by
  rw [ids, List.mem_toFinset, AList.mem_keys]

theorem Keyed.mem_ids (hs : s.Keyed) (h : s.conn id = some c) : c.connId ∈ s.ids := by
  rw [hs id c h, Server.mem_ids, ← AList.lookup_isSome]
  exact Option.isSome_iff_exists.mpr ⟨c, h⟩

theorem Keyed.setConn (hs : s.Keyed) (c : ConnectionState) : (s.setConn c).Keyed := by
  intro id c' hc'
  rw [conn, Server.setConn, AssocMap.lookup_insert_eq] at hc'
  split at hc'
  · rename_i hid
    cases hc'
    exact hid.symm
  · exact hs id c' hc'

theorem Keyed.closeConnection (hs : s.Keyed) (c : ConnectionState) :
    (s.closeConnection c).Keyed := by
  intro id c' hc'
  rw [conn, Server.closeConnection] at hc'
  by_cases hid : id = c.connId
  · rw [hid, AList.lookup_erase] at hc'
    cases hc'
  · rw [AList.lookup_erase_ne hid] at hc'
    exact hs id c' hc'

theorem Keyed.settle (hs : s.Keyed) (r : ServeResult) : (s.settle r).Keyed := by
  unfold Server.settle
  simp only
  split
  · exact Keyed.closeConnection hs _
  · exact Keyed.setConn hs _

theorem ids_setConn (s : Server) (c : ConnectionState) :
    (s.setConn c).ids = insert c.connId s.ids := by
  ext id
  rw [mem_ids, Finset.mem_insert, mem_ids]
  exact AList.mem_insert _

theorem ids_closeConnection (s : Server) (c : ConnectionState) :
    (s.closeConnection c).ids = s.ids.erase c.connId := by
  ext id
  rw [mem_ids, Finset.mem_erase, mem_ids]
  exact AList.mem_erase

theorem ids_settle (s : Server) (r : ServeResult) : (s.settle r).ids =
    if r.closed then s.ids.erase r.conn.connId else insert r.conn.connId s.ids := by
  unfold settle
  simp only
  split
  · exact ids_closeConnection ..
  · exact ids_setConn ..

theorem Keyed.step {a : ServerAction} (hs : s.Keyed) (hstep : s.step a = some s') : s'.Keyed := by
  cases change_of_step hstep with
  | work _ _ hworks =>
    refine Keyed.settle ?_ _
    rw [hworks.server.1]
    exact hs
  | accept outcome _ => exact Keyed.setConn hs _
  | refuse outcome _ => exact hs
  | poll order _ _ _ => exact hs
  | skip ev entry rest _ _ => exact hs
  | drop outcome comp rest _ _ => exact hs
  | requestStop => exact hs
  | pop t rest _ _ => exact hs
  | complete i response t _ => exact hs

theorem Reachable.keyed {Handles : Frame → Frame → Prop} {P : Server → ServerAction → Prop}
    (h : Reachable Handles P s) : s.Keyed := by
  refine Reach.invariant ?_ ?_ h
  · rintro _ ⟨config, rfl⟩
    nofun
  · rintro s a s' hs - ⟨hstep, -⟩
    exact hs.step hstep

/-! ## The parts of an iteration -/

/-- A part of the loop leaves every connection under its own id, its events say what
becomes of the map, and it uses no erased connection unless an error frame goes
out at once. -/
structure Tracked (s : Server) (p : Passed) : Prop where
  keyed : p.server.Keyed
  ids_eq : keysAfter s.ids p.trace = p.server.ids
  live : Lifetime.Live s.ids p.trace ↔ ∀ t ∈ p.turns, ¬ t.1.ErrorSentAtOnce t.2

variable {p : Passed}

theorem Tracked.done (hs : s.Keyed) : Tracked s { server := s } := ⟨hs, rfl, by simp⟩

theorem Tracked.andThen (h : Tracked s p) {f : Server → Passed}
    (hf : ∀ s', s'.Keyed → Tracked s' (f s')) : Tracked s (p.andThen f) := by
  obtain ⟨hkeyed, hids, hlive⟩ := hf p.server h.keyed
  refine ⟨hkeyed, ?_, ?_⟩
  · show keysAfter s.ids (p.trace ++ (f p.server).trace) = _
    rw [keysAfter_append, h.ids_eq, hids]
    rfl
  · show Lifetime.Live s.ids (p.trace ++ (f p.server).trace) ↔
      ∀ t ∈ p.turns ++ (f p.server).turns, _
    rw [live_append, h.ids_eq, h.live, hlive, List.forall_mem_append]

theorem tracked_each {α : Type} {f : α → Server → Passed}
    (hf : ∀ a s, s.Keyed → Tracked s (f a s)) (as : List α) (hs : s.Keyed) :
    Tracked s (each f as s) := by
  induction as generalizing s with
  | nil => exact .done hs
  | cons a as ih => exact (hf a s hs).andThen fun s' hs' => ih hs'

/-- A part that only goes through the pointers of connections that are there. -/
theorem Tracked.of_derefs (hs : s.Keyed) {trace : List (Event UInt64)} (ids : List UInt64)
    (h : ∀ e ∈ trace, ∃ k ∈ s.ids, e = .deref k) :
    Tracked s { server := s, trace, toClose := ids } :=
  ⟨hs, keysAfter_derefs h, iff_of_true (live_derefs h) (List.forall_mem_nil _)⟩

theorem derefs_of_uses (hs : s.Keyed) (hc : s.conn id = some c) {trace : List (Event UInt64)}
    (h : c.Uses trace) : ∀ e ∈ trace, ∃ k ∈ s.ids, e = .deref k := by
  intro e he
  exact ⟨c.connId, hs.mem_ids hc, h e he⟩

theorem tracked_pollSet (hs : s.Keyed) : Tracked s s.pollSet := by
  refine .of_derefs hs [] ?_
  intro e he
  obtain ⟨id, hid, he⟩ := List.mem_flatMap.mp he
  refine ⟨id, List.mem_toFinset.mpr hid, ?_⟩
  simpa using he

theorem tracked_acceptOne (outcome : SendOutcome) (hs : s.Keyed) :
    Tracked s (acceptOne outcome s) := by
  unfold acceptOne accept
  split
  · exact ⟨hs, rfl, by simp⟩
  · refine ⟨Keyed.setConn hs _, ?_, by simp [Event.Fine]⟩
    exact (ids_setConn s { connId := s.nextConnId, trace := { serial := s.accepted } }).symm

theorem tracked_closeOne (id : UInt64) (hs : s.Keyed) : Tracked s (closeOne id s) := by
  unfold closeOne
  split
  · exact .done hs
  · rename_i c hc
    have hmem := hs.mem_ids hc
    exact ⟨hs.closeConnection c, (ids_closeConnection s c).symm,
      iff_of_true ⟨hmem, hmem, trivial, trivial⟩ (List.forall_mem_nil _)⟩

theorem tracked_completeOne (job : Completion × SendOutcome) (hs : s.Keyed) :
    Tracked s (completeOne job s) := by
  unfold completeOne
  split
  · exact .done hs
  · rename_i c hc
    obtain ⟨uses, huses, htrace⟩ := c.completionEvents_eq s.config.maxOutputBufferBytes job.1 job.2
    have hderefs := derefs_of_uses hs hc huses
    have hmem := hs.mem_ids hc
    refine ⟨hs.settle _, ?_, iff_of_true ?_ (List.forall_mem_nil _)⟩
    · show keysAfter s.ids (c.completionEvents _ _ _) = _
      rw [htrace, keysAfter_append, keysAfter_derefs hderefs, ids_settle, c.connId_complete]
      split
      · rfl
      · exact (Finset.insert_eq_of_mem hmem).symm
    · show Lifetime.Live s.ids (c.completionEvents _ _ _)
      rw [htrace, live_append]
      refine ⟨live_derefs hderefs, ?_⟩
      split
      · exact ⟨trivial, trivial⟩
      · trivial

theorem tracked_processCompletions (d : Drain) (hs : s.Keyed) :
    Tracked s (processCompletions d s) := by
  obtain ⟨hkeyed, hids, hlive⟩ := tracked_each (s := { s with compQueue := [] })
    (fun job _ hs => tracked_completeOne job hs)
    ((s.compQueue ++ d.arrived).zipIdx.map fun p => (p.1, d.sends p.2)) hs
  exact ⟨hkeyed, hids, hlive⟩

theorem tracked_serveOne (client : UInt64 × Events) (hs : s.Keyed) :
    Tracked s (serveOne client s) := by
  unfold serveOne
  split
  · exact .done hs
  · rename_i c hc
    have hmem := hs.mem_ids hc
    have hid := c.connId_serve client.2
    by_cases herror : c.ErrorSentAtOnce client.2
    · obtain ⟨hmarked, hclosed, uses, huses, htrace⟩ := ConnectionState.turn_error herror
      have hderefs := derefs_of_uses hs hc huses
      refine ⟨hs.settle _, ?_, iff_of_false ?_ ?_⟩
      · simp only [htrace, hmarked, Bool.false_eq_true, if_false]
        rw [keysAfter_append, keysAfter_derefs hderefs, ids_settle, if_pos hclosed, hid]
        rfl
      · simp only [htrace]
        rw [live_append, keysAfter_derefs hderefs]
        rintro ⟨-, herased⟩
        exact not_live_erased [] herased
      · simpa using herror
    · obtain ⟨huses, hopen⟩ := ConnectionState.turn_rest herror
      have hderefs := derefs_of_uses hs hc huses
      refine ⟨hs.settle _, ?_, iff_of_true (live_derefs hderefs) (by simpa using herror)⟩
      have hstays : ∀ r : ServeResult, r.closed = false → r.conn.connId = c.connId →
          keysAfter s.ids (c.turnEvents client.2) = (s.settle r).ids := by
        intro r hr hid
        rw [keysAfter_derefs hderefs, ids_settle, hr, hid]
        exact (Finset.insert_eq_of_mem hmem).symm
      cases hmarked : c.marked client.2 with
      | true => exact hstays { c.serve client.2 with closed := false } rfl hid
      | false => exact hstays (c.serve client.2) (hopen hmarked) hid

theorem tracked_checkReadStalls (overdue : UInt64 → Bool) (hs : s.Keyed) :
    Tracked s (checkReadStalls overdue s) := by
  unfold checkReadStalls
  refine (Tracked.of_derefs hs _ ?_).andThen
    fun s' hs' => tracked_each (f := closeOne) (fun id _ hs => tracked_closeOne id hs) _ hs'
  intro e he
  obtain ⟨id, -, he⟩ := List.mem_flatMap.mp he
  cases hc : s.conn id with
  | none =>
    rw [hc] at he
    cases he
  | some c =>
    rw [hc] at he
    refine derefs_of_uses hs hc ?_ e he
    simp only [Option.map_some, Option.getD_some, ConnectionState.stallEvents]
    split
    · split
      · simp [ConnectionState.Uses]
      · simp [ConnectionState.Uses]
    · simp [ConnectionState.Uses]

theorem tracked_iterate (it : Iteration) (hs : s.Keyed) : Tracked s (iterate it s) := by
  unfold iterate
  split
  · exact .done hs
  · have hpolled := (tracked_pollSet hs).andThen fun s' hs' =>
      tracked_each (f := acceptOne) (fun outcome _ hs => tracked_acceptOne outcome hs)
        it.accepted hs'
    have hwoken := hpolled.andThen fun s' hs' =>
      tracked_each (f := processCompletions) (fun d _ hs => tracked_processCompletions d hs)
        it.woken.toList hs'
    have hserved := hwoken.andThen fun s' hs' =>
      tracked_each (f := serveOne) (fun client _ hs => tracked_serveOne client hs) it.clients hs'
    refine ((hserved.andThen ?_).andThen ?_).andThen ?_
    · exact fun s' hs' => tracked_each (f := closeOne) (fun id _ hs => tracked_closeOne id hs) _ hs'
    · exact fun s' hs' => tracked_processCompletions it.drained hs'
    · exact fun s' hs' => tracked_checkReadStalls it.overdue hs'

/-! ## Runs of the loop -/

section Runs

variable {Handles : Frame → Frame → Prop} {P : Server → ServerAction → Prop}

/-- **No connection is used after it was closed** exactly when no pass over a client
socket has `send` take a whole error frame at once. From every reachable state, over
any number of iterations, whatever the poll, `recv` and `send` return in them. -/
theorem loop_live_iff (hs : Reachable Handles P s) (its : List Iteration) :
    Lifetime.Live s.ids (each iterate its s).trace ↔
      ∀ t ∈ (each iterate its s).turns, ¬ t.1.ErrorSentAtOnce t.2 :=
  (tracked_each (f := iterate) (fun it _ hs => tracked_iterate it hs) its hs.keyed).live

/-- A client connects and sends the length zero; `reply` is for the error frame. -/
def zeroLength (reply : SendOutcome) : List Iteration :=
  [{ accepted := [.wouldBlock] },
    { clients := [(1, { readable := some ([[0, 0, 0, 0]], .wouldBlock), reply })] }]

theorem loop_live_blocked :
    Lifetime.Live ∅ (each iterate (zeroLength .wouldBlock) { config := {} }).trace := by
  have hstart : Reachable (fun _ _ => True) (fun _ _ => True) { config := {} } := .init ⟨{}, rfl⟩
  refine (loop_live_iff hstart (zeroLength .wouldBlock)).mpr ?_
  intro t ht herror
  have hreplies : ((each iterate (zeroLength .wouldBlock) { config := {} }).turns.map
      fun t => t.2.reply) = [.wouldBlock] := by decide
  have hreply : t.2.reply = .wouldBlock := List.mem_singleton.mp (hreplies ▸ List.mem_map_of_mem ht)
  obtain ⟨pieces, e, -, -, n, hsent, -⟩ := herror.error
  rw [hreply] at hsent
  cases hsent

/-- When `send` takes all of the error frame, the connection is erased before
`has_active_read_stall` is written. -/
theorem loop_uses_erased :
    ¬ Lifetime.Live ∅ (each iterate (zeroLength (.sent 1000)) { config := {} }).trace := by
  decide

end Runs

end Server

end StreamForge
