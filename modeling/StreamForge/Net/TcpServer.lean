import Mathlib.Data.List.Perm.Basic
import Mathlib.Data.List.Perm.Lattice
import StreamForge.Foundation.AssocMap
import StreamForge.Foundation.Transition
import StreamForge.Net.FrameAssembler

/-!
# The server

`TcpServer`, `ThreadPool` and the two queues between them. One I/O thread owns
all sockets; workers take tasks off the task queue, call `handle_request` and
put the encoded response into the completion queue.

The steps are those of the I/O thread, in the order in which `event_loop` makes
them for one connection, of the workers, and of the clients, who send bytes and
close their side. What `WSAPoll`, `recv` and `send` return is part of a step. The
completions that `process_completions` takes out all at once stay at the front of
the queue until their turn comes, and a connection that is marked in `to_close` is
closed at once: until the end of the pass nobody looks at it. `handle_request` is a
relation, since workers run it beside each other.

The source knows of a task only its `conn_id`. `serial` and `Trace` say which
connection of a run it came from; no decision depends on them.
-/

namespace StreamForge

open Transition

namespace MessageType

def SHUTDOWN : UInt8 := 0x05
def SHUTDOWN_OK : UInt8 := 0x85

end MessageType

namespace ErrorCode

def FRAME_TOO_LARGE : UInt16 := 2
def MALFORMED_FRAME : UInt16 := 3

end ErrorCode

/-! ## Sockets -/

/-- What `send` on a non-blocking socket returns. `sent n` stands for `n + 1`
bytes, or all there are if they are fewer: it takes at least one byte. -/
inductive SendOutcome where
  | sent (n : ℕ)
  | wouldBlock
  | failed
deriving DecidableEq

/-- The number of bytes that were taken of `len`. -/
def SendOutcome.taken (len : ℕ) : SendOutcome → ℕ
  | .sent n => min (n + 1) len
  | .wouldBlock => 0
  | .failed => 0

/-- How the loop of `recv` calls ends. -/
inductive RecvEnd where
  | wouldBlock
  | closed
  | failed
deriving DecidableEq

/-- The client's end: the bytes that were sent and not received yet, and whether
the client has closed its side. -/
structure Socket where
  incoming : Bytes := []
  finished : Bool := false

structure Task where
  connId : UInt64
  request : Frame
  serial : ℕ

/-- `task` is the one that this answers. -/
structure Completion where
  connId : UInt64
  responseBytes : Bytes
  task : Task

/-! ## Connections -/

/-- `output_buffer` and `output_offset`. -/
structure OutputBuffer where
  bytes : Bytes := []
  offset : ℕ := 0
  offset_le : offset ≤ bytes.length := by exact StreamForge.nothing_read

namespace OutputBuffer

def unsent (o : OutputBuffer) : Bytes := o.bytes.drop o.offset

/-- A buffer of which `n` bytes are sent already. -/
def ofSent (bytes : Bytes) (n : ℕ) : OutputBuffer where
  bytes
  offset := min n bytes.length
  offset_le := Nat.min_le_right ..

def append (o : OutputBuffer) (more : Bytes) : OutputBuffer := ofSent (o.unsent ++ more) 0

def advance (o : OutputBuffer) (n : ℕ) : OutputBuffer := ofSent o.bytes (o.offset + n)

end OutputBuffer

/-- What happened on a connection: the bytes the client sent, the frames that were taken out
of them, those given to the workers, the completions whose response was handed to the
output, everything that was put on the output, and the bytes that `send` took. `stopping`
says that the last frame was a SHUTDOWN. -/
structure Trace where
  serial : ℕ
  stream : Bytes := []
  received : List Frame := []
  dispatched : List Frame := []
  answered : List Completion := []
  placed : List Bytes := []
  sent : Bytes := []
  stopping : Bool := false
  finished : Bool := false

structure ConnectionState where
  connId : UInt64
  socket : Socket := {}
  assembler : FrameAssembler := {}
  pendingRequests : List Frame := []
  inFlight : Bool := false
  output : OutputBuffer := {}
  closeAfterSend : Bool := false
  hasActiveReadStall : Bool := false
  trace : Trace

/-- What the I/O thread does to a connection in one go: the connection afterwards,
the tasks it enqueues, whether it closes the connection and whether it requests
the stop of the server. -/
structure ServeResult where
  conn : ConnectionState
  tasks : List Task := []
  closed : Bool := false
  stop : Bool := false

namespace ConnectionState

/-- One of the direct calls of `send`, past the output buffer. -/
def sendNow (c : ConnectionState) (bytes : Bytes) (outcome : SendOutcome) : ConnectionState :=
  { c with
    trace := { c.trace with sent := c.trace.sent ++ bytes.take (outcome.taken bytes.length) } }

def place (c : ConnectionState) (bytes : Bytes) : ConnectionState :=
  { c with trace := { c.trace with placed := c.trace.placed ++ [bytes] } }

def task (c : ConnectionState) (request : Frame) : Task := ⟨c.connId, request, c.trace.serial⟩

def dispatch (c : ConnectionState) (request : Frame) : ConnectionState :=
  { c with
    inFlight := true
    trace := { c.trace with dispatched := c.trace.dispatched ++ [request] } }

/-! ### Errors and shutdown -/

def queueImmediateErrorAndClose (c : ConnectionState) (errFrame : Frame) (outcome : SendOutcome) :
    ConnectionState × Bool :=
  let encoded := FrameCodec.encode errFrame
  let n := outcome.taken encoded.length
  let c := (c.place encoded).sendNow encoded outcome
  if 0 < n ∧ n = encoded.length then (c, true)
  else ({ c with output := .ofSent encoded n, closeAfterSend := true }, false)

/-- The answer to SHUTDOWN. What `send` returns is not looked at. -/
def sendShutdownOk (c : ConnectionState) (request : Frame) (outcome : SendOutcome) :
    ConnectionState :=
  let encoded :=
    FrameCodec.encode ⟨headerSize, MessageType.SHUTDOWN_OK, request.requestId, []⟩
  let c := if 0 < outcome.taken encoded.length then c.place encoded else c
  let c := c.sendNow encoded outcome
  { c with trace := { c.trace with stopping := true } }

def malformedFrameError : Frame :=
  createErrorFrame 0 ErrorCode.MALFORMED_FRAME
    (ascii "Malformed frame: length less than header size")

def frameTooLargeError : Frame :=
  createErrorFrame 0 ErrorCode.FRAME_TOO_LARGE (ascii "Frame size exceeds maximum limit of 1 MiB")

def connectionLimitError : Frame :=
  createErrorFrame 0 ErrorCode.FRAME_TOO_LARGE
    (ascii "Server reached max concurrent connection limit")

/-! ### Output and input of one connection -/

/-- The output handling of `event_loop`; says whether to close. -/
def handleOutput (c : ConnectionState) : Option SendOutcome → ConnectionState × Bool
  | none => (c, false)
  | some .wouldBlock => (c, false)
  | some .failed => (c, true)
  | some (.sent n) =>
    let n := (SendOutcome.sent n).taken c.output.unsent.length
    let c := { c with
      output := c.output.advance n
      trace := { c.trace with sent := c.trace.sent ++ c.output.unsent.take n } }
    if c.output.unsent.isEmpty then ({ c with output := {} }, c.closeAfterSend) else (c, false)

def receive (c : ConnectionState) (pieces : List Bytes) : ConnectionState :=
  { c with
    assembler := pieces.foldl FrameAssembler.pushBytes c.assembler
    socket := { c.socket with incoming := c.socket.incoming.drop pieces.flatten.length } }

def takeFrame (c : ConnectionState) (frame : Frame) (assembler : FrameAssembler) :
    ConnectionState :=
  { c with
    assembler
    trace := { c.trace with received := c.trace.received ++ [frame] } }

/-- A request is given to the workers if none of the connection is in flight. -/
def request (c : ConnectionState) (frame : Frame) : ConnectionState × List Task :=
  if c.inFlight then ({ c with pendingRequests := c.pendingRequests ++ [frame] }, [])
  else (c.dispatch frame, [c.task frame])

/-- The extraction loop, with its last result. Every frame takes at least nine
bytes, so that the buffered bytes bound the rounds. -/
def extractLoop (reply : SendOutcome) : ℕ → ConnectionState → FrameExtractResult × ServeResult
  | 0, c => (.NeedMoreData, { conn := c })
  | fuel + 1, c =>
    match c.assembler.extractNextFrame ⟨0, 0, 0, []⟩ with
    | (.FrameReady, frame, assembler) =>
      let c := c.takeFrame frame assembler
      if frame.type = MessageType.SHUTDOWN then
        (.FrameReady, { conn := c.sendShutdownOk frame reply, stop := true })
      else
        match c.request frame with
        | (c, tasks) =>
          match extractLoop reply fuel c with
          | (res, r) => (res, { r with tasks := tasks ++ r.tasks })
    | (res, _, assembler) => (res, { conn := { c with assembler } })

/-- The input handling of `event_loop`. Bytes that came with the end of the stream
are not looked at. -/
def handleInput (c : ConnectionState) (pieces : List Bytes) (ending : RecvEnd)
    (reply : SendOutcome) : ServeResult :=
  let c := c.receive pieces
  if ending ≠ .wouldBlock then { conn := c, closed := true }
  else
    let noteStall (c : ConnectionState) : ConnectionState :=
      { c with hasActiveReadStall := c.assembler.hasPartialFrame }
    match extractLoop reply (c.assembler.bufferedBytes + 1) c with
    | (.ErrorLengthTooSmall, r) =>
      match r.conn.queueImmediateErrorAndClose malformedFrameError reply with
      | (c, closed) => { r with conn := noteStall c, closed }
    | (.ErrorLengthTooLarge, r) =>
      match r.conn.queueImmediateErrorAndClose frameTooLargeError reply with
      | (c, closed) => { r with conn := noteStall c, closed }
    | (_, r) => { r with conn := noteStall r.conn }

end ConnectionState

/-- What the poll has reported for a connection and what the calls on its socket then
return. `hangUp` is any of POLLERR, POLLHUP and POLLNVAL. -/
structure Events where
  hangUp : Bool := false
  writable : Option SendOutcome := none
  readable : Option (List Bytes × RecvEnd) := none
  reply : SendOutcome := .wouldBlock

def ConnectionState.serve (c : ConnectionState) (ev : Events) : ServeResult :=
  if ev.hangUp then { conn := c, closed := true }
  else
    match c.handleOutput ev.writable with
    | (c, true) => { conn := c, closed := true }
    | (c, false) =>
      match ev.readable with
      | none => { conn := c }
      | some (pieces, ending) => c.handleInput pieces ending ev.reply

def ConnectionState.answer (c : ConnectionState) (comp : Completion) (output : OutputBuffer) :
    ConnectionState :=
  { c with
    inFlight := false
    output
    trace := { c.trace with
      answered := c.trace.answered ++ [comp]
      placed := c.trace.placed ++ [comp.responseBytes] } }

/-- The end of the loop body of `process_completions`. -/
def ConnectionState.dispatchNext (c : ConnectionState) : ServeResult :=
  match c.pendingRequests with
  | [] => { conn := c }
  | next :: rest =>
    let c := { c with pendingRequests := rest }
    { conn := c.dispatch next, tasks := [c.task next] }

/-- The loop body of `process_completions` for a connection that is still there. -/
def ConnectionState.complete (c : ConnectionState) (maxOutputBufferBytes : ℕ) (comp : Completion)
    (outcome : SendOutcome) : ServeResult :=
  let response := comp.responseBytes
  if maxOutputBufferBytes < c.output.unsent.length + response.length then
    { conn := { c with inFlight := false }, closed := true }
  else if c.output.unsent.isEmpty then
    match outcome with
    | .failed => { conn := { c with inFlight := false }, closed := true }
    | .wouldBlock => (c.answer comp (.ofSent response 0)).dispatchNext
    | .sent n =>
      let n := (SendOutcome.sent n).taken response.length
      let output := if n < response.length then .ofSent (response.drop n) 0 else c.output
      ((c.answer comp output).sendNow response outcome).dispatchNext
  else (c.answer comp (c.output.append response)).dispatchNext

/-! ## The server -/

structure ServerConfig where
  workers : ℕ := 2
  maxConnections : ℕ := 1024
  maxOutputBufferBytes : ℕ := 8 * 1024 * 1024
  maxInputBufferBytes : ℕ := 2 * 1024 * 1024

structure PollEntry where
  connId : UInt64
  pollIn : Bool
  pollOut : Bool

/-- `round` is the part of the poll set that the current pass has still to look at, `busy`
are the tasks that workers have taken. The last four fields are the history of the run: the
connections accepted, the tasks given to `handle_request`, the traces of closed connections,
and what was sent to clients that were turned away. -/
structure Server where
  config : ServerConfig
  connections : AList (fun _ : UInt64 => ConnectionState) := ∅
  nextConnId : UInt64 := 1
  shutdownRequested : Bool := false
  taskQueue : List Task := []
  busy : List Task := []
  compQueue : List Completion := []
  round : List PollEntry := []
  accepted : ℕ := 0
  handled : List Task := []
  gone : List Trace := []
  refused : List Bytes := []

namespace Server

def conn (s : Server) (id : UInt64) : Option ConnectionState := s.connections.lookup id

def setConn (s : Server) (c : ConnectionState) : Server :=
  { s with connections := s.connections.insert c.connId c }

def closeConnection (s : Server) (c : ConnectionState) : Server :=
  { s with
    connections := s.connections.erase c.connId
    gone := s.gone ++ [{ c.trace with finished := c.socket.finished }] }

/-- The effect of `ServeResult` on the server. -/
def settle (s : Server) (r : ServeResult) : Server :=
  let s := { s with
    taskQueue := s.taskQueue ++ r.tasks
    shutdownRequested := s.shutdownRequested || r.stop }
  if r.closed then s.closeConnection r.conn else s.setConn r.conn

/-- One round of `accept_new_connections`; `outcome` is for the error frame to a
client that is turned away. -/
def accept (s : Server) (outcome : SendOutcome) : Server :=
  if s.config.maxConnections ≤ s.connections.keys.length then
    let encoded := FrameCodec.encode ConnectionState.connectionLimitError
    { s with refused := s.refused ++ [encoded.take (outcome.taken encoded.length)] }
  else
    let c : ConnectionState := { connId := s.nextConnId, trace := { serial := s.accepted } }
    { s.setConn c with nextConnId := s.nextConnId + 1, accepted := s.accepted + 1 }

def pollEntry (s : Server) (c : ConnectionState) : PollEntry where
  connId := c.connId
  pollIn := decide (c.assembler.bufferedBytes < s.config.maxInputBufferBytes) &&
    decide (c.pendingRequests.length < 1000) && !c.closeAfterSend
  pollOut := decide (0 < c.output.unsent.length)

def recvBuffer : ℕ := 32768

/-- Events that fit a connection: the poll reports what was asked for, and `recv`
gives the bytes of the client in their order until there are no more. -/
def fits (entry : PollEntry) (c : ConnectionState) (ev : Events) : Bool :=
  (ev.writable.isNone || entry.pollOut) &&
    match ev.readable with
    | none => true
    | some (pieces, ending) => entry.pollIn &&
        (pieces.all fun piece => !piece.isEmpty && decide (piece.length ≤ recvBuffer)) &&
        match ending with
        | .wouldBlock => decide (pieces.flatten = c.socket.incoming) && !c.socket.finished
        | .closed => decide (pieces.flatten = c.socket.incoming) && c.socket.finished
        | .failed => pieces.flatten.isPrefixOf c.socket.incoming

end Server

inductive ServerAction where
  | connect (outcome : SendOutcome)
  | clientSend (id : UInt64) (bytes : Bytes)
  | clientClose (id : UInt64)
  | poll (order : List UInt64)
  | serve (ev : Events)
  | processCompletion (outcome : SendOutcome)
  | closeStalled (id : UInt64)
  | requestStop
  | finish (id : UInt64) (outcome : SendOutcome)
  | pop
  | complete (i : ℕ) (response : Frame)

namespace Server

/-- The steps of the server and its clients. -/
def step (s : Server) : ServerAction → Option Server
  | .connect outcome => some (s.accept outcome)
  | .clientSend id bytes =>
    match s.conn id with
    | none => none
    | some c =>
      if c.socket.finished then none
      else some (s.setConn { c with
        socket := { c.socket with incoming := c.socket.incoming ++ bytes }
        trace := { c.trace with stream := c.trace.stream ++ bytes } })
  | .clientClose id =>
    match s.conn id with
    | none => none
    | some c => some (s.setConn { c with socket := { c.socket with finished := true } })
  | .poll order =>
    -- The loop is left when a stop was requested.
    if s.round.isEmpty ∧ s.shutdownRequested = false ∧ order.Perm s.connections.keys then
      some { s with round := (order.filterMap s.conn).map s.pollEntry }
    else none
  | .serve ev =>
    match s.round with
    | [] => none
    | entry :: rest =>
      match s.conn entry.connId with
      | none => some { s with round := rest }
      | some c =>
        if fits entry c ev then some ({ s with round := rest }.settle (c.serve ev)) else none
  | .processCompletion outcome =>
    match s.compQueue with
    | [] => none
    | comp :: rest =>
      let s := { s with compQueue := rest }
      match s.conn comp.connId with
      | none => some s
      | some c => some (s.settle (c.complete s.config.maxOutputBufferBytes comp outcome))
  | .closeStalled id =>
    match s.conn id with
    | none => none
    | some c => if c.hasActiveReadStall then some (s.closeConnection c) else none
  | .requestStop => some { s with shutdownRequested := true }
  | .finish id outcome =>
    -- The end of `wait_until_stopped`: one more `send`, then the socket is closed.
    match s.conn id with
    | none => none
    | some c =>
      if s.shutdownRequested ∧ s.round.isEmpty then
        some (s.closeConnection (c.sendNow c.output.unsent outcome))
      else none
  | .pop =>
    match s.taskQueue with
    | [] => none
    | t :: rest =>
      if s.busy.length < s.config.workers then
        some { s with taskQueue := rest, busy := s.busy ++ [t], handled := s.handled ++ [t] }
      else none
  | .complete i response =>
    match s.busy[i]? with
    | none => none
    | some t => some { s with
        busy := s.busy.eraseIdx i
        compQueue := s.compQueue ++ [⟨t.connId, FrameCodec.encode response, t⟩] }

end Server

section Runs

-- `Handles request response`: a call of `handle_request` may answer so.
variable (Handles : Frame → Frame → Prop)

/-- A worker answers with what `handle_request` returns for its task. -/
def Server.Step (s : Server) (a : ServerAction) (s' : Server) : Prop :=
  s.step a = some s' ∧
    ∀ i response t, a = .complete i response → s.busy[i]? = some t → Handles t.request response

def Server.Init (s : Server) : Prop := ∃ config, s = { config }

/-- What a run of steps with the guard `P` gets to. -/
def Server.Reachable (P : Server → ServerAction → Prop) : Server → Prop :=
  Reach Server.Init (Server.Step Handles) P

end Runs

end StreamForge
