import Mathlib.Data.Multiset.Filter
import Mathlib.Tactic.Abel
import StreamForge.Net.ServerSteps

/-!
# Requests of a connection, in order

`Requests` is what a connection is about once output and sockets are left out:
the bytes that are still ahead, the frames that were received, given to the
workers and answered, and `in_flight` and `pending_requests`, which decide between
them. A pass of the event loop takes frames off the bytes ahead (`Requests.Pass`); a
completion answers the request in flight and starts the next one (`Requests.next`).

The tasks of all connections are the multiset `Server.jobs`, wherever they are. The
jobs of a live connection are its request in flight, and the frames it has received
are those answered, the one in flight, and those pending, in this order.
-/

namespace StreamForge

open Incremental Transition

/-! ## The requests of one connection -/

structure Requests where
  connId : UInt64
  serial : ℕ
  stream : Bytes
  ahead : Bytes
  received : List Frame
  dispatched : List Frame
  pending : List Frame
  answered : List Completion
  inFlight : Bool
  stopping : Bool

def answeredRequests (answered : List Completion) : List Frame :=
  answered.map fun c => c.task.request

namespace Requests

def task (v : Requests) (f : Frame) : Task := ⟨v.connId, f, v.serial⟩

def take (v : Requests) (f : Frame) (rest : Bytes) : Requests :=
  { v with
    ahead := rest
    received := v.received ++ [f]
    dispatched := if v.inFlight then v.dispatched else v.dispatched ++ [f]
    pending := if v.inFlight then v.pending ++ [f] else v.pending
    inFlight := true }

def started (v : Requests) (f : Frame) : List Task := if v.inFlight then [] else [v.task f]

def stop (v : Requests) (f : Frame) (rest : Bytes) : Requests :=
  { v with ahead := rest, received := v.received ++ [f], stopping := true }

/-- **One pass of the event loop**: some frames, and maybe a SHUTDOWN behind them. -/
inductive Pass : Requests → List Task → Bool → Requests → Prop where
  | done (v : Requests) : Pass v [] false v
  | stop {v : Requests} {f : Frame} {rest : Bytes} :
      nextFrame v.ahead = .item f rest → Pass v [] true (v.stop f rest)
  | take {v v' : Requests} {f : Frame} {rest : Bytes} {tasks : List Task} {b : Bool} :
      nextFrame v.ahead = .item f rest → Pass (v.take f rest) tasks b v' →
        Pass v (v.started f ++ tasks) b v'

def answer (v : Requests) (comp : Completion) : Requests :=
  { v with inFlight := false, answered := v.answered ++ [comp] }

def next (v : Requests) : Requests :=
  match v.pending with
  | [] => v
  | f :: rest => { v with pending := rest, dispatched := v.dispatched ++ [f], inFlight := true }

/-- The frames that were received are those of the stream; they are those that
were started and those that are pending. -/
structure Sorted (v : Requests) : Prop where
  consumed : frames.Consumed v.stream v.received v.ahead
  started_pending : v.dispatched ++ v.pending <+: v.received
  nothing_else : v.stopping = false → v.received = v.dispatched ++ v.pending

structure Ordered (v : Requests) : Prop extends Sorted v where
  idle : v.inFlight = false → v.pending = []

variable {v v' : Requests} {f : Frame} {rest : Bytes} {tasks : List Task} {b : Bool}

theorem Ordered.take (h : v.Ordered) (hrunning : v.stopping = false)
    (hnext : nextFrame v.ahead = .item f rest) : (v.take f rest).Ordered := by
  have hall : (v.take f rest).received = (v.take f rest).dispatched ++ (v.take f rest).pending := by
    unfold Requests.take
    cases hflight : v.inFlight with
    | true => simp [h.nothing_else hrunning]
    | false => simp [h.nothing_else hrunning, h.idle hflight]
  exact ⟨⟨h.consumed.take hnext, hall ▸ List.prefix_rfl, fun _ => hall⟩, nofun⟩

theorem Ordered.stop (h : v.Ordered) (hnext : nextFrame v.ahead = .item f rest) :
    (v.stop f rest).Ordered where
  consumed := h.consumed.take hnext
  started_pending := h.started_pending.trans (List.prefix_append ..)
  nothing_else hrunning := by cases hrunning
  idle := h.idle

theorem Ordered.answer_next (h : v.Ordered) (comp : Completion) : (v.answer comp).next.Ordered := by
  unfold Requests.next
  split
  · rename_i hpending
    exact ⟨⟨h.consumed, h.started_pending, h.nothing_else⟩, fun _ => hpending⟩
  · rename_i f rest hpending
    have hall : v.dispatched ++ v.pending = v.dispatched ++ [f] ++ rest := by
      rw [show v.pending = f :: rest from hpending, List.append_assoc]
      rfl
    exact ⟨⟨h.consumed, hall ▸ h.started_pending,
      fun hrunning => (h.nothing_else hrunning).trans hall⟩, nofun⟩

structure Progress (v : Requests) (tasks : List Task) (b : Bool) (v' : Requests) : Prop where
  connId : v'.connId = v.connId
  serial : v'.serial = v.serial
  stream : v'.stream = v.stream
  answered : v'.answered = v.answered
  dispatched : v'.dispatched = v.dispatched ++ tasks.map Task.request
  tasks_eq : ∀ t ∈ tasks, t = v.task t.request
  flight : v.inFlight.toNat + tasks.length = v'.inFlight.toNat
  stopping : v'.stopping = (v.stopping || b)

theorem Progress.take (f : Frame) (rest : Bytes) :
    Progress v (v.started f) false (v.take f rest) := by
  unfold Requests.take started
  cases hflight : v.inFlight with
  | true => exact ⟨rfl, rfl, rfl, rfl, by simp, by simp, by simp [hflight], by simp⟩
  | false => exact ⟨rfl, rfl, rfl, rfl, by simp [task], by simp [task], by simp [hflight], by simp⟩

theorem Progress.trans {v₁ : Requests} {tasks₁ : List Task} (h₁ : Progress v tasks₁ false v₁)
    (h : Progress v₁ tasks b v') : Progress v (tasks₁ ++ tasks) b v' where
  connId := h.connId.trans h₁.connId
  serial := h.serial.trans h₁.serial
  stream := h.stream.trans h₁.stream
  answered := h.answered.trans h₁.answered
  dispatched := by rw [h.dispatched, h₁.dispatched, List.map_append, List.append_assoc]
  tasks_eq := by
    intro t ht
    rcases List.mem_append.mp ht with ht | ht
    · exact h₁.tasks_eq t ht
    · have := h.tasks_eq t ht
      rwa [task, h₁.connId, h₁.serial] at this
  flight := by
    rw [List.length_append, ← h.flight, ← h₁.flight, Nat.add_assoc]
  stopping := by rw [h.stopping, h₁.stopping, Bool.or_false]

/-- The pending request that `next` starts. -/
def upNext (v : Requests) : List Task := (v.pending.head?.map v.task).toList

theorem Progress.next (hidle : v.inFlight = false) : Progress v v.upNext false v.next := by
  unfold Requests.next upNext
  split
  · rename_i hpending
    simp only [hpending, List.head?_nil, Option.map_none, Option.toList_none]
    exact ⟨rfl, rfl, rfl, rfl, by simp, by simp, by simp, by simp⟩
  · rename_i f rest hpending
    simp only [hpending, List.head?_cons, Option.map_some, Option.toList_some]
    exact ⟨rfl, rfl, rfl, rfl, by simp [task], by simp [task], by simp [hidle], by simp⟩

theorem Pass.progress (h : Pass v tasks b v') : Progress v tasks b v' := by
  induction h with
  | done v => exact ⟨rfl, rfl, rfl, rfl, by simp, by simp, by simp, by simp⟩
  | stop hnext =>
    exact ⟨rfl, rfl, rfl, rfl, by simp [Requests.stop], by simp, rfl, by simp [Requests.stop]⟩
  | take hnext _ ih => exact (Progress.take _ _).trans ih

theorem Pass.ordered (h : Pass v tasks b v') (hrunning : v.stopping = false) (hv : v.Ordered) :
    v'.Ordered := by
  induction h with
  | done v => exact hv
  | stop hnext => exact hv.stop hnext
  | take hnext _ ih => exact ih hrunning (hv.take hrunning hnext)

end Requests

/-! ## The code acts on the requests -/

namespace ConnectionState

def requests (c : ConnectionState) : Requests where
  connId := c.connId
  serial := c.trace.serial
  stream := c.trace.stream
  ahead := c.assembler.unread ++ c.socket.incoming
  received := c.trace.received
  dispatched := c.trace.dispatched
  pending := c.pendingRequests
  answered := c.trace.answered
  inFlight := c.inFlight
  stopping := c.trace.stopping

theorem requests_handleOutput (c : ConnectionState) (w : Option SendOutcome) :
    (c.handleOutput w).1.requests = c.requests := by
  obtain ⟨output, sent, heq⟩ := handleOutput_eq c w
  rw [heq]
  rfl

theorem requests_queueImmediateErrorAndClose (c : ConnectionState) (err : Frame)
    (outcome : SendOutcome) :
    (c.queueImmediateErrorAndClose err outcome).1.requests = c.requests := by
  obtain ⟨output, closeAfterSend, sent, heq⟩ := queueImmediateErrorAndClose_eq c err outcome
  rw [heq]
  rfl

theorem unread_foldl_pushBytes (pieces : List Bytes) (a : FrameAssembler) :
    (pieces.foldl FrameAssembler.pushBytes a).unread = a.unread ++ pieces.flatten := by
  induction pieces generalizing a with
  | nil => simp
  | cons piece pieces ih => simp [ih]

variable {c : ConnectionState} {pieces : List Bytes}

theorem requests_receive (h : pieces.flatten <+: c.socket.incoming) :
    (c.receive pieces).requests = c.requests := by
  obtain ⟨rest, hrest⟩ := h
  simp only [requests, receive, unread_foldl_pushBytes, ← hrest, List.drop_left, List.append_assoc]

theorem requests_takeRequest (c : ConnectionState) (f : Frame) (a : FrameAssembler) :
    (c.takeRequest f a).conn.requests = c.requests.take f (a.unread ++ c.socket.incoming) ∧
      (c.takeRequest f a).tasks = c.requests.started f := by
  unfold takeRequest request Requests.take Requests.started
  cases hflight : c.inFlight with
  | true => simp [takeFrame, requests, hflight]
  | false => simp [takeFrame, requests, hflight, dispatch, task, Requests.task]

theorem extractLoop_pass (reply : SendOutcome) (c : ConnectionState) :
    let r := (extractLoop reply (c.assembler.bufferedBytes + 1) c).2
    c.requests.Pass r.tasks r.stop r.conn.requests := by
  refine extractLoop_rule
    (R := fun c p => c.requests.Pass p.2.tasks p.2.stop p.2.conn.requests) ?more ?stop ?shutdown
      ?request c
    (Nat.lt_succ_self _)
  case more => exact fun c _ => .done _
  case stop => exact fun c e _ => .done _
  case shutdown =>
    intro c f a hnext _
    have hrequests : (c.takeShutdown f a reply).conn.requests =
        c.requests.stop f (a.unread ++ c.socket.incoming) := by
      unfold takeShutdown sendShutdownOk
      simp only
      split
      · rfl
      · rfl
    show c.requests.Pass [] true (c.takeShutdown f a reply).conn.requests
    rw [hrequests]
    exact .stop (frames.item_append c.socket.incoming hnext)
  case request =>
    intro c f a next hnext _ hpass
    obtain ⟨hconn, htasks⟩ := requests_takeRequest c f a
    rw [hconn] at hpass
    simp only [htasks]
    exact .take (frames.item_append c.socket.incoming hnext) hpass

variable {ending : RecvEnd} {entry : PollEntry} {ev : Events}

theorem handleInput_pass {reply : SendOutcome} (h : pieces.flatten <+: c.socket.incoming) :
    let r := c.handleInput pieces ending reply
    c.requests.Pass r.tasks r.stop r.conn.requests := by
  have hloop := extractLoop_pass reply (c.receive pieces)
  unfold handleInput
  simp only [← requests_receive h] at hloop ⊢
  split
  · exact .done _
  · split
    · rename_i r hr
      rw [hr] at hloop
      rw [← requests_queueImmediateErrorAndClose r.conn malformedFrameError reply] at hloop
      exact hloop
    · rename_i r hr
      rw [hr] at hloop
      rw [← requests_queueImmediateErrorAndClose r.conn frameTooLargeError reply] at hloop
      exact hloop
    · rename_i r _ _ hr
      rw [hr] at hloop
      exact hloop

theorem fits_pieces (h : Server.fits entry c ev = true)
    (hread : ev.readable = some (pieces, ending)) :
    pieces.flatten <+: c.socket.incoming := by
  unfold Server.fits at h
  rw [hread] at h
  cases ending with
  | wouldBlock =>
    simp only [Bool.and_eq_true, decide_eq_true_eq] at h
    exact h.2.2.1 ▸ List.prefix_rfl
  | closed =>
    simp only [Bool.and_eq_true, decide_eq_true_eq] at h
    exact h.2.2.1 ▸ List.prefix_rfl
  | failed =>
    simp only [Bool.and_eq_true] at h
    exact List.isPrefixOf_iff_prefix.mp h.2.2

theorem socket_handleOutput (c : ConnectionState) (w : Option SendOutcome) :
    (c.handleOutput w).1.socket = c.socket := by
  obtain ⟨output, sent, heq⟩ := handleOutput_eq c w
  rw [heq]

/-- **The event loop acts on a connection's requests by a pass.** -/
theorem serve_pass (h : Server.fits entry c ev = true) :
    c.requests.Pass (c.serve ev).tasks (c.serve ev).stop (c.serve ev).conn.requests := by
  have hout := requests_handleOutput c ev.writable
  have hsocket := socket_handleOutput c ev.writable
  unfold serve
  split
  · exact .done _
  · split
    · rename_i c' hc'
      rw [hc'] at hout
      rw [← hout]
      exact .done _
    · rename_i c' hc'
      rw [hc'] at hout hsocket
      rw [← hout]
      cases hread : ev.readable with
      | none => exact .done _
      | some p =>
        obtain ⟨pieces, ending⟩ := p
        exact handleInput_pass (hsocket ▸ fits_pieces h hread)

theorem dispatchNext_requests (c : ConnectionState) :
    c.dispatchNext.conn.requests = c.requests.next ∧
      c.dispatchNext.tasks = c.requests.upNext ∧ c.dispatchNext.closed = false ∧
      c.dispatchNext.stop = false := by
  unfold dispatchNext Requests.next Requests.upNext
  cases hpending : c.pendingRequests with
  | nil => simp [requests, hpending]
  | cons f rest => simp [requests, hpending, dispatch, task, Requests.task]

/-- **A completion** either closes the connection or answers its request and starts
the next one. -/
theorem complete_requests (c : ConnectionState) (max : ℕ) (comp : Completion)
    (outcome : SendOutcome) : let r := c.complete max comp outcome
    r = { conn := { c with inFlight := false }, closed := true } ∨
      ∃ c' : ConnectionState, c'.requests = c.requests.answer comp ∧ r = c'.dispatchNext := by
  unfold complete
  simp only
  split
  · exact .inl rfl
  · split
    · cases outcome with
      | failed => exact .inl rfl
      | wouldBlock => exact .inr ⟨_, rfl, rfl⟩
      | sent n => exact .inr ⟨_, rfl, rfl⟩
    · exact .inr ⟨_, rfl, rfl⟩

end ConnectionState

/-! ## Responses on the output -/

/-- A frame that the event loop sends on its own: an error or a SHUTDOWN_OK. -/
def OwnReply (bytes : Bytes) : Prop :=
  bytes = FrameCodec.encode ConnectionState.malformedFrameError ∨
    bytes = FrameCodec.encode ConnectionState.frameTooLargeError ∨
    ∃ requestId, bytes = FrameCodec.encode ⟨headerSize, MessageType.SHUTDOWN_OK, requestId, []⟩

/-- What was put on the output is the responses in their order, with replies of the
event loop's own in between. -/
inductive Among : List Bytes → List Bytes → Prop where
  | nil : Among [] []
  | response {responses placed : List Bytes} (bytes : Bytes) : Among responses placed →
      Among (responses ++ [bytes]) (placed ++ [bytes])
  | own {responses placed : List Bytes} {bytes : Bytes} : OwnReply bytes → Among responses placed →
      Among responses (placed ++ [bytes])

def Trace.Placed (t : Trace) : Prop := Among (t.answered.map Completion.responseBytes) t.placed

namespace ConnectionState

variable {c : ConnectionState}

theorem placed_handleOutput (h : c.trace.Placed) (w : Option SendOutcome) :
    (c.handleOutput w).1.trace.Placed := by
  obtain ⟨output, sent, heq⟩ := handleOutput_eq c w
  rw [heq]
  exact h

theorem placed_queueImmediateErrorAndClose (h : c.trace.Placed) {err : Frame}
    (herr : OwnReply (FrameCodec.encode err)) (outcome : SendOutcome) :
    (c.queueImmediateErrorAndClose err outcome).1.trace.Placed := by
  obtain ⟨output, closeAfterSend, sent, heq⟩ := queueImmediateErrorAndClose_eq c err outcome
  rw [heq]
  exact .own herr h

theorem placed_extractLoop (h : c.trace.Placed) (reply : SendOutcome) :
    (extractLoop reply (c.assembler.bufferedBytes + 1) c).2.conn.trace.Placed := by
  revert h
  refine extractLoop_rule (R := fun c p => c.trace.Placed → p.2.conn.trace.Placed)
    ?more ?stop ?shutdown ?request c (Nat.lt_succ_self _)
  case more => exact fun _ _ h => h
  case stop => exact fun _ _ _ h => h
  case shutdown =>
    intro c f a _ _ h
    unfold takeShutdown sendShutdownOk
    simp only
    split
    · exact .own (.inr (.inr ⟨f.requestId, rfl⟩)) h
    · exact h
  case request =>
    intro c f a next _ _ ih h
    refine ih ?_
    unfold takeRequest request
    split
    · exact h
    · exact h

theorem placed_serve (h : c.trace.Placed) (ev : Events) : (c.serve ev).conn.trace.Placed := by
  have hout := placed_handleOutput h ev.writable
  unfold serve
  split
  · exact h
  · split
    · rename_i c' hc'
      rw [hc'] at hout
      exact hout
    · rename_i c' hc'
      rw [hc'] at hout
      split
      · exact hout
      · rename_i pieces ending _
        unfold handleInput
        simp only
        split
        · exact hout
        · have hreceived : (c'.receive pieces).trace.Placed := hout
          have hloop := placed_extractLoop hreceived ev.reply
          split
          · rename_i r hr
            rw [hr] at hloop
            exact placed_queueImmediateErrorAndClose hloop (.inl rfl) ev.reply
          · rename_i r hr
            rw [hr] at hloop
            exact placed_queueImmediateErrorAndClose hloop (.inr (.inl rfl)) ev.reply
          · rename_i r _ _ hr
            rw [hr] at hloop
            exact hloop

theorem placed_dispatchNext (h : c.trace.Placed) : c.dispatchNext.conn.trace.Placed := by
  unfold dispatchNext
  split
  · exact h
  · exact h

theorem placed_answer (h : c.trace.Placed) (comp : Completion) (output : OutputBuffer) :
    (c.answer comp output).trace.Placed := by
  show Among ((c.trace.answered ++ [comp]).map Completion.responseBytes) _
  rw [List.map_append]
  exact .response comp.responseBytes h

theorem placed_complete (h : c.trace.Placed) (max : ℕ) (comp : Completion) (outcome : SendOutcome) :
    (c.complete max comp outcome).conn.trace.Placed := by
  unfold complete
  simp only
  split
  · exact h
  · split
    · cases outcome with
      | failed => exact h
      | wouldBlock => exact placed_dispatchNext (placed_answer h comp _)
      | sent n =>
        have hanswered := placed_answer h comp
          (if (SendOutcome.sent n).taken comp.responseBytes.length < comp.responseBytes.length then
            .ofSent (comp.responseBytes.drop
              ((SendOutcome.sent n).taken comp.responseBytes.length)) 0 else c.output)
        exact placed_dispatchNext (c := (c.answer comp _).sendNow _ _) hanswered
    · exact placed_dispatchNext (placed_answer h comp _)

end ConnectionState

/-! ## The server -/

section Invariant

variable (Handles : Frame → Frame → Prop)

/-- A completion is what `handle_request` makes of its task. -/
def Completion.Correct (comp : Completion) : Prop :=
  comp.connId = comp.task.connId ∧
    ∃ response, Handles comp.task.request response ∧ comp.responseBytes = FrameCodec.encode response

/-- The frames were received in the order of the stream, and the responses are
those to the first of them. -/
structure Trace.InOrder (t : Trace) : Prop where
  received : t.received <+: frames.items t.stream
  answered : answeredRequests t.answered <+: t.received
  correct : ∀ comp ∈ t.answered, comp.Correct Handles ∧ comp.task.serial = t.serial

namespace Server

def jobs (s : Server) : Multiset Task := s.taskQueue + s.busy + s.compQueue.map Completion.task

def jobsOf (s : Server) (id : UInt64) : Multiset Task := s.jobs.filter fun t => t.connId = id

def Flying (jobs : Multiset Task) (v : Requests) : Prop :=
  ∃ flight : List Task, jobs = flight ∧ flight.length = v.inFlight.toNat ∧
    v.dispatched = answeredRequests v.answered ++ flight.map Task.request

/-- The id of the connection that was accepted after `serial` others. -/
def idOf (serial : ℕ) : UInt64 := UInt64.ofNat (serial + 1)

structure Live (s : Server) (id : UInt64) (c : ConnectionState) : Prop where
  id_eq : c.connId = id
  id_of : id = idOf c.trace.serial
  serial_lt : c.trace.serial < s.accepted
  flying : Flying (s.jobsOf id) c.requests
  ordered : c.requests.Ordered
  trace : c.trace.InOrder Handles
  stopping : c.trace.stopping = true →
    s.shutdownRequested = true ∧ id ∉ s.round.map PollEntry.connId

structure Inv (s : Server) : Prop where
  next_id : s.nextConnId = idOf s.accepted
  accepted_le : s.accepted ≤ 2 ^ 64
  live : ∀ id c, s.conn id = some c → s.Live Handles id c
  job : ∀ t ∈ s.jobs, t.connId = idOf t.serial ∧ t.serial < s.accepted
  comps : ∀ comp ∈ s.compQueue, comp.Correct Handles
  gone : ∀ t ∈ s.gone, t.InOrder Handles
  round_nodup : (s.round.map PollEntry.connId).Nodup

end Server

end Invariant

/-- A connection is accepted only while the ids have not run out: `m_next_conn_id`
is 64 bits wide. -/
def FreshIds (s : Server) (a : ServerAction) : Prop :=
  ∀ outcome, a = .connect outcome → s.connections.keys.length < s.config.maxConnections →
    s.accepted < 2 ^ 64

theorem idOf_inj {m n : ℕ} (hm : m < 2 ^ 64) (hn : n < 2 ^ 64) (h : Server.idOf m = Server.idOf n) :
    m = n := by
  have h := congrArg UInt64.toNat h
  simp only [Server.idOf, UInt64.toNat_ofNat'] at h
  omega

namespace Server

variable {s s₀ s' : Server} {id : UInt64} {c : ConnectionState} {r : ServeResult} {a : ServerAction}

/-! ### What settling does -/

theorem settle_conn (s : Server) (r : ServeResult) (id : UInt64) : (s.settle r).conn id =
    if id = r.conn.connId then (if r.closed then none else some r.conn) else s.conn id := by
  unfold settle conn closeConnection setConn
  cases hclosed : r.closed with
  | true =>
    by_cases hid : id = r.conn.connId
    · subst hid
      simp
    · simp [hid, AList.lookup_erase_ne]
  | false => simp [AssocMap.lookup_insert_eq]

theorem settle_jobs (s : Server) (r : ServeResult) : (s.settle r).jobs = s.jobs + r.tasks := by
  have htasks : (s.settle r).taskQueue = s.taskQueue ++ r.tasks ∧ (s.settle r).busy = s.busy ∧
      (s.settle r).compQueue = s.compQueue := by
    unfold settle closeConnection setConn
    cases r.closed with
    | true => exact ⟨rfl, rfl, rfl⟩
    | false => exact ⟨rfl, rfl, rfl⟩
  obtain ⟨hqueue, hbusy, hcomps⟩ := htasks
  unfold jobs
  rw [hqueue, hbusy, hcomps, ← Multiset.coe_add]
  abel

theorem settle_same (s : Server) (r : ServeResult) : (s.settle r).nextConnId = s.nextConnId ∧
    (s.settle r).accepted = s.accepted ∧ (s.settle r).compQueue = s.compQueue ∧
    (s.settle r).round = s.round ∧
    (s.settle r).shutdownRequested = (s.shutdownRequested || r.stop) ∧
    (s.settle r).config = s.config := by
  unfold settle closeConnection setConn
  cases r.closed with
  | true => exact ⟨rfl, rfl, rfl, rfl, rfl, rfl⟩
  | false => exact ⟨rfl, rfl, rfl, rfl, rfl, rfl⟩

theorem settle_gone (s : Server) (r : ServeResult) : (s.settle r).gone =
    if r.closed then s.gone ++ [{ r.conn.trace with finished := r.conn.socket.finished }]
    else s.gone := by
  unfold settle closeConnection setConn
  cases r.closed with
  | true => rfl
  | false => rfl

/-! ### The steps keep the invariant -/

variable {Handles : Frame → Frame → Prop}

/-- What a step on the connection `c` has to come with. `done` are the completions
it takes out of the queue. -/
structure Settles (Handles : Frame → Frame → Prop) (s : Server) (c : ConnectionState) (s₀ : Server)
    (r : ServeResult) (done : List Completion) : Prop where
  server : s₀ = { s with round := s₀.round, compQueue := s₀.compQueue }
  round : s₀.round.Sublist s.round
  comps : s.compQueue = done ++ s₀.compQueue
  done_id : ∀ comp ∈ done, comp.task.connId = c.connId
  connId : r.conn.connId = c.connId
  serial : r.conn.trace.serial = c.trace.serial
  tasks : ∀ t ∈ r.tasks, t = c.task t.request
  trace : r.conn.trace.InOrder Handles
  dispatched : r.conn.trace.dispatched = c.trace.dispatched ++ r.tasks.map Task.request
  few : (s₀.jobsOf c.connId).card + r.tasks.length ≤ 1
  sorted : r.conn.requests.Sorted
  flying : r.closed = false → Flying (s₀.jobsOf c.connId + r.tasks) r.conn.requests
  ordered : r.closed = false → r.conn.requests.Ordered
  stopping : r.closed = false → r.conn.trace.stopping = true →
    (s.shutdownRequested || r.stop) = true ∧ c.connId ∉ s₀.round.map PollEntry.connId

namespace Settles

variable {done : List Completion}

theorem jobs_eq (h : Settles Handles s c s₀ r done) :
    s.jobs = s₀.jobs + done.map Completion.task := by
  have hqueues : s₀.taskQueue = s.taskQueue ∧ s₀.busy = s.busy := by
    rw [h.server]
    exact ⟨rfl, rfl⟩
  unfold jobs
  rw [h.comps, hqueues.1, hqueues.2, List.map_append, ← Multiset.coe_add]
  abel

theorem jobsOf_ne (h : Settles Handles s c s₀ r done) (hid : id ≠ c.connId) :
    (s₀.settle r).jobsOf id = s.jobsOf id := by
  have htasks : Multiset.filter (fun t : Task => t.connId = id) (r.tasks : Multiset Task) = 0 := by
    rw [Multiset.filter_eq_nil]
    intro t ht heq
    rw [Multiset.mem_coe] at ht
    rw [h.tasks t ht] at heq
    exact hid heq.symm
  have hdone : Multiset.filter (fun t : Task => t.connId = id)
      (done.map Completion.task : Multiset Task) = 0 := by
    rw [Multiset.filter_eq_nil]
    intro t ht heq
    obtain ⟨comp, hcomp, rfl⟩ := List.mem_map.mp (Multiset.mem_coe.mp ht)
    exact hid (heq.symm.trans (h.done_id comp hcomp))
  unfold jobsOf
  rw [settle_jobs, h.jobs_eq, Multiset.filter_add, Multiset.filter_add, htasks, hdone]

theorem jobsOf_self (h : Settles Handles s c s₀ r done) :
    (s₀.settle r).jobsOf c.connId = s₀.jobsOf c.connId + r.tasks := by
  have htasks : Multiset.filter (fun t : Task => t.connId = c.connId) (r.tasks : Multiset Task) =
      r.tasks := by
    rw [Multiset.filter_eq_self]
    intro t ht
    rw [h.tasks t (Multiset.mem_coe.mp ht)]
    rfl
  unfold jobsOf
  rw [settle_jobs, Multiset.filter_add, htasks]

theorem inv (h : Settles Handles s c s₀ r done) (hs : s.Inv Handles) (hc : s.conn id = some c) :
    (s₀.settle r).Inv Handles := by
  have hlive := hs.live id c hc
  obtain ⟨hnext, haccepted, hcomps, hround, hstop, -⟩ := settle_same s₀ r
  have hserver : s₀.nextConnId = s.nextConnId ∧ s₀.accepted = s.accepted ∧ s₀.gone = s.gone ∧
      s₀.shutdownRequested = s.shutdownRequested ∧ ∀ id, s₀.conn id = s.conn id := by
    rw [h.server]
    exact ⟨rfl, rfl, rfl, rfl, fun _ => rfl⟩
  obtain ⟨hnext₀, haccepted₀, hgone₀, hstop₀, hconn₀⟩ := hserver
  refine ⟨?_, ?_, ?_, ?_, ?_, ?_, ?_⟩
  · rw [hnext, haccepted, hnext₀, haccepted₀]
    exact hs.next_id
  · rw [haccepted, haccepted₀]
    exact hs.accepted_le
  · intro id' c' hc'
    rw [settle_conn, h.connId] at hc'
    split at hc'
    · rename_i hid
      subst hid
      split at hc'
      · cases hc'
      · rename_i hopen
        cases hc'
        have hopen := Bool.eq_false_iff.mpr hopen
        refine ⟨h.connId, ?_, ?_, ?_, h.ordered hopen, h.trace, ?_⟩
        · rw [h.serial, ← hlive.id_of, hlive.id_eq]
        · rw [h.serial, haccepted, haccepted₀]
          exact hlive.serial_lt
        · rw [h.jobsOf_self]
          exact h.flying hopen
        · rw [hstop, hstop₀, hround]
          exact h.stopping hopen
    · rename_i hid
      rw [hconn₀] at hc'
      have hlive' := hs.live id' c' hc'
      refine ⟨hlive'.id_eq, hlive'.id_of, ?_, ?_, hlive'.ordered, hlive'.trace, ?_⟩
      · rw [haccepted, haccepted₀]
        exact hlive'.serial_lt
      · rw [h.jobsOf_ne hid]
        exact hlive'.flying
      · intro hstopping
        obtain ⟨hrequested, hnot⟩ := hlive'.stopping hstopping
        rw [hstop, hstop₀, hround, hrequested]
        exact ⟨rfl, fun hmem => hnot ((h.round.map _).subset hmem)⟩
  · intro t ht
    rw [settle_jobs, Multiset.mem_add, Multiset.mem_coe] at ht
    rw [haccepted, haccepted₀]
    rcases ht with ht | ht
    · exact hs.job t (by rw [h.jobs_eq, Multiset.mem_add]; exact .inl ht)
    · rw [h.tasks t ht]
      exact ⟨hlive.id_eq.trans hlive.id_of, hlive.serial_lt⟩
  · intro comp hcomp
    rw [hcomps] at hcomp
    exact hs.comps comp (by rw [h.comps]; exact List.mem_append_right _ hcomp)
  · intro t ht
    rw [settle_gone, hgone₀] at ht
    split at ht
    · rcases List.mem_append.mp ht with ht | ht
      · exact hs.gone t ht
      · rw [List.mem_singleton.mp ht]
        exact ⟨h.trace.received, h.trace.answered, h.trace.correct⟩
    · exact hs.gone t ht
  · rw [hround]
    exact hs.round_nodup.sublist (h.round.map _)

end Settles

variable {jobs : Multiset Task}

theorem Flying.inOrder (h : Flying jobs c.requests) (hordered : c.requests.Ordered)
    (hcorrect : ∀ comp ∈ c.trace.answered, comp.Correct Handles ∧
      comp.task.serial = c.trace.serial) :
    c.trace.InOrder Handles := by
  obtain ⟨flight, -, -, hdispatched⟩ := h
  refine ⟨?_, ?_, hcorrect⟩
  · exact ⟨_, hordered.consumed.items_eq.symm⟩
  · have hstarted : c.requests.dispatched <+: c.trace.received :=
      (List.prefix_append ..).trans hordered.started_pending
    rw [hdispatched] at hstarted
    exact (List.prefix_append ..).trans hstarted

variable {v : Requests} {comp : Completion} {rest : List Completion}
    {P : Server → ServerAction → Prop} {t : Trace}

theorem Flying.progress {v' : Requests} {tasks : List Task} {b : Bool} (h : Flying jobs v)
    (hprogress : v.Progress tasks b v') : Flying (jobs + tasks) v' := by
  obtain ⟨flight, hjobs, hlength, hdispatched⟩ := h
  refine ⟨flight ++ tasks, ?_, ?_, ?_⟩
  · rw [hjobs, Multiset.coe_add]
  · rw [List.length_append, hlength, hprogress.flight]
  · rw [hprogress.dispatched, hprogress.answered, hdispatched, List.map_append, List.append_assoc]

theorem Flying.card_le (h : Flying jobs v) : jobs.card ≤ 1 := by
  obtain ⟨flight, rfl, hlength, -⟩ := h
  rw [Multiset.coe_card, hlength]
  exact Bool.toNat_le _

theorem settles_of_pass (hs : s.Inv Handles) (hc : s.conn id = some c)
    (hserver : s₀ = { s with round := s₀.round }) (hround : s₀.round.Sublist s.round)
    (hpass : c.requests.Pass r.tasks r.stop r.conn.requests)
    (hrunning : c.trace.stopping = false)
    (hentry : r.stop = true → c.connId ∉ s₀.round.map PollEntry.connId) :
    Settles Handles s c s₀ r [] := by
  have hlive := hs.live id c hc
  have hprogress := hpass.progress
  have hordered := hpass.ordered hrunning hlive.ordered
  have hqueues : s₀.compQueue = s.compQueue ∧ s₀.jobsOf c.connId = s.jobsOf c.connId := by
    rw [hserver]
    exact ⟨rfl, rfl⟩
  have hflying : Flying (s₀.jobsOf c.connId + r.tasks) r.conn.requests := by
    rw [hqueues.2, hlive.id_eq]
    exact hlive.flying.progress hprogress
  have hanswered : r.conn.trace.answered = c.trace.answered := hprogress.answered
  have hserial : r.conn.trace.serial = c.trace.serial := hprogress.serial
  refine ⟨?_, hround, ?_, by simp, hprogress.connId, hserial, hprogress.tasks_eq, ?_,
    hprogress.dispatched, ?_, hordered.toSorted, fun _ => hflying, fun _ => hordered, ?_⟩
  · rw [hqueues.1]
    exact hserver
  · rw [hqueues.1]
    rfl
  · refine hflying.inOrder hordered ?_
    rw [hanswered, hserial]
    exact hlive.trace.correct
  · simpa using hflying.card_le
  · intro _ hstopping
    have hstop : r.stop = true := by
      have hor : r.conn.trace.stopping = (c.trace.stopping || r.stop) := hprogress.stopping
      rwa [hstopping, hrunning, Bool.false_or, eq_comm] at hor
    rw [hstop, Bool.or_true]
    exact ⟨rfl, hentry hstop⟩

theorem settles_of_same (hs : s.Inv Handles) (hc : s.conn id = some c) {c' : ConnectionState}
    (hreq : c'.requests = { c.requests with stream := c'.trace.stream, ahead := c'.requests.ahead })
    (hconsumed : frames.Consumed c'.trace.stream c.trace.received c'.requests.ahead)
    (closed : Bool) : Settles Handles s c s { conn := c', closed } [] := by
  have hlive := hs.live id c hc
  have hordered : c'.requests.Ordered := by
    rw [hreq]
    exact ⟨⟨hconsumed, hlive.ordered.started_pending, hlive.ordered.nothing_else⟩,
      hlive.ordered.idle⟩
  have hflying : Flying (s.jobsOf id) c'.requests := by
    rw [hreq]
    exact hlive.flying
  have hsame : c'.connId = c.connId ∧ c'.trace.serial = c.trace.serial ∧
      c'.trace.answered = c.trace.answered ∧ c'.trace.stopping = c.trace.stopping ∧
      c'.trace.dispatched = c.trace.dispatched :=
    ⟨congrArg Requests.connId hreq, congrArg Requests.serial hreq,
      congrArg Requests.answered hreq, congrArg Requests.stopping hreq,
      congrArg Requests.dispatched hreq⟩
  obtain ⟨hid, hserial, hanswered, hstopping, hdispatched⟩ := hsame
  refine ⟨rfl, List.Sublist.refl _, rfl, by simp, hid, hserial, by simp, ?_, by simp [hdispatched],
    ?_, hordered.toSorted, ?_, fun _ => hordered, ?_⟩
  · refine hflying.inOrder hordered ?_
    rw [hanswered, hserial]
    exact hlive.trace.correct
  · rw [hlive.id_eq]
    exact hflying.card_le
  · intro _
    rw [hlive.id_eq, Multiset.coe_nil, add_zero]
    exact hflying
  · intro _ hstop
    rw [Bool.or_false, hlive.id_eq]
    exact hlive.stopping (hstopping ▸ hstop)

theorem flying_completion (hs : s.Inv Handles) (hc : s.conn id = some c)
    (hqueue : s.compQueue = comp :: rest) (hid : comp.connId = id) :
    comp.task.connId = id ∧ comp.task.serial = c.trace.serial ∧
      ({ s with compQueue := rest } : Server).jobsOf id = 0 ∧
      c.trace.dispatched = answeredRequests c.trace.answered ++ [comp.task.request] := by
  have hlive := hs.live id c hc
  obtain ⟨hcomp, -⟩ := hs.comps comp (hqueue ▸ List.mem_cons_self ..)
  have htask : comp.task.connId = id := hcomp ▸ hid
  have hjobs : s.jobsOf id = comp.task ::ₘ ({ s with compQueue := rest } : Server).jobsOf id := by
    unfold jobsOf jobs
    rw [hqueue, List.map_cons, ← Multiset.cons_coe, Multiset.add_cons,
      Multiset.filter_cons_of_pos (p := fun t : Task => t.connId = id) _ htask]
  obtain ⟨flight, hflight, -, hdispatched⟩ := hlive.flying
  rw [hjobs] at hflight
  -- There is at most one job, and the completion is one.
  have hcard := hlive.flying.card_le
  rw [hjobs, Multiset.card_cons] at hcard
  have hzero : ({ s with compQueue := rest } : Server).jobsOf id = 0 :=
    Multiset.card_eq_zero.mp (by omega)
  rw [hzero] at hflight
  have hflight : flight = [comp.task] :=
    List.perm_singleton.mp (Multiset.coe_eq_coe.mp hflight.symm)
  have hjob : comp.task ∈ s.jobs := Multiset.mem_of_mem_filter (p := fun t : Task => t.connId = id)
    (show comp.task ∈ s.jobsOf id from hjobs ▸ Multiset.mem_cons_self ..)
  obtain ⟨hidOf, hlt⟩ := hs.job _ hjob
  have hle := hs.accepted_le
  refine ⟨htask, ?_, hzero, ?_⟩
  · refine idOf_inj (by omega) ?_ (hidOf.symm.trans (htask.trans hlive.id_of))
    have := hlive.serial_lt
    omega
  · rw [hflight] at hdispatched
    exact hdispatched

theorem settles_of_complete {outcome : SendOutcome} (hs : s.Inv Handles) (hc : s.conn id = some c)
    (hqueue : s.compQueue = comp :: rest) (hid : comp.connId = id) (max : ℕ) :
    Settles Handles s c { s with compQueue := rest } (c.complete max comp outcome) [comp] := by
  have hlive := hs.live id c hc
  obtain ⟨htask, hserial, hnone, hdispatched⟩ := flying_completion hs hc hqueue hid
  have hdone : ∀ comp' ∈ [comp], comp'.task.connId = c.connId := by
    intro comp' hcomp'
    rw [List.mem_singleton.mp hcomp', htask, hlive.id_eq]
  rcases ConnectionState.complete_requests c max comp outcome with hr | ⟨c', hreq, hr⟩
  · rw [hr]
    have hsorted := hlive.ordered.toSorted
    exact ⟨rfl, List.Sublist.refl _, hqueue, hdone, rfl, rfl, by simp, hlive.trace, by simp,
      by rw [hlive.id_eq, hnone]; simp,
      ⟨hsorted.consumed, hsorted.started_pending, hsorted.nothing_else⟩, by simp, by simp, by simp⟩
  · rw [hr]
    obtain ⟨hnext, htasks, -, hstop⟩ := ConnectionState.dispatchNext_requests c'
    rw [hreq] at hnext htasks
    have hprogress : Requests.Progress (c.requests.answer comp) c'.dispatchNext.tasks false
        c'.dispatchNext.conn.requests := by
      rw [hnext, htasks]
      exact .next rfl
    have hordered : c'.dispatchNext.conn.requests.Ordered := by
      rw [hnext]
      exact hlive.ordered.answer_next comp
    have hanswered : Flying 0 (c.requests.answer comp) := by
      refine ⟨[], rfl, rfl, ?_⟩
      show c.trace.dispatched = answeredRequests (c.trace.answered ++ [comp]) ++ []
      rw [hdispatched, answeredRequests, answeredRequests, List.map_append, List.append_nil]
      rfl
    have hflying := hanswered.progress hprogress
    refine ⟨rfl, List.Sublist.refl _, hqueue, hdone, hprogress.connId, hprogress.serial,
      hprogress.tasks_eq, hflying.inOrder hordered ?_, hprogress.dispatched, ?_, hordered.toSorted,
      ?_, fun _ => hordered, ?_⟩
    · intro comp' hcomp'
      rw [show c'.dispatchNext.conn.trace.answered = c.trace.answered ++ [comp] from
        hprogress.answered, List.mem_append, List.mem_singleton] at hcomp'
      rw [show c'.dispatchNext.conn.trace.serial = c.trace.serial from hprogress.serial]
      rcases hcomp' with hcomp' | rfl
      · exact hlive.trace.correct comp' hcomp'
      · exact ⟨hs.comps comp' (hqueue ▸ List.mem_cons_self ..), hserial⟩
    · rw [hlive.id_eq, hnone]
      simpa using hflying.card_le
    · intro _
      rw [hlive.id_eq, hnone]
      exact hflying
    · intro _ hstopped
      have hstopping : c'.dispatchNext.conn.trace.stopping = (c.trace.stopping || false) :=
        hprogress.stopping
      rw [hstopped, Bool.or_false] at hstopping
      rw [hstop, Bool.or_false, hlive.id_eq]
      exact hlive.stopping hstopping.symm

/-- **Every step on a connection** keeps its request in flight and its order. -/
theorem Works.settles (h : Works s c a s₀ r) (hs : s.Inv Handles) (htarget : s.target a = some id)
    (hc : s.conn id = some c) : ∃ done, Settles Handles s c s₀ r done := by
  have hlive := hs.live id c hc
  cases h with
  | clientSend id' bytes _ =>
    refine ⟨[], settles_of_same hs hc (by rfl) ?_ false⟩
    have harrive := hlive.ordered.consumed.arrive bytes
    rw [show c.requests.ahead ++ bytes = c.assembler.unread ++ (c.socket.incoming ++ bytes) from
      List.append_assoc ..] at harrive
    exact harrive
  | clientClose id' =>
    exact ⟨[], settles_of_same hs hc (by rfl) (by exact hlive.ordered.consumed) false⟩
  | serve ev entry rest hround hfits =>
    have hid : entry.connId = id := by simpa [target, hround] using htarget
    have hnodup := hs.round_nodup
    rw [hround, List.map_cons, List.nodup_cons, hid] at hnodup
    have hrunning : c.trace.stopping = false := by
      by_contra hstopping
      have := (hlive.stopping (Bool.eq_true_of_not_eq_false hstopping)).2
      rw [hround, List.map_cons, hid] at this
      exact this (List.mem_cons_self ..)
    refine ⟨[], settles_of_pass hs hc rfl ?_ (ConnectionState.serve_pass hfits) hrunning ?_⟩
    · rw [hround]
      exact List.sublist_cons_self ..
    · intro _
      rw [hlive.id_eq]
      exact hnodup.1
  | complete outcome comp rest hqueue =>
    have hid : comp.connId = id := by simpa [target, hqueue] using htarget
    exact ⟨[comp], settles_of_complete hs hc hqueue hid _⟩
  | closeStalled id' _ => exact ⟨[], settles_of_same hs hc rfl hlive.ordered.consumed true⟩
  | finish id' outcome _ _ =>
    exact ⟨[], settles_of_same hs hc (by rfl) (by exact hlive.ordered.consumed) true⟩

/-- Steps on the queues alone: the jobs may move, but those of live connections
stay. -/
theorem Inv.of_queues (hs : s.Inv Handles)
    (hserver : s' = { s with
      taskQueue := s'.taskQueue, busy := s'.busy, compQueue := s'.compQueue, round := s'.round
      handled := s'.handled, refused := s'.refused, shutdownRequested := s'.shutdownRequested })
    (hstop : s.shutdownRequested = true → s'.shutdownRequested = true)
    (hround : s'.round.Sublist s.round)
    (hjobs : ∀ t ∈ s'.jobs, t ∈ s.jobs)
    (hjobsOf : ∀ id c, s.conn id = some c → s'.jobsOf id = s.jobsOf id)
    (hcomps : ∀ comp ∈ s'.compQueue, comp.Correct Handles) : s'.Inv Handles := by
  have hsame : s'.nextConnId = s.nextConnId ∧ s'.accepted = s.accepted ∧ s'.gone = s.gone ∧
      ∀ id, s'.conn id = s.conn id := by
    rw [hserver]
    exact ⟨rfl, rfl, rfl, fun _ => rfl⟩
  obtain ⟨hnext, haccepted, hgone, hconn⟩ := hsame
  refine ⟨?_, ?_, ?_, ?_, hcomps, ?_, ?_⟩
  · rw [hnext, haccepted]
    exact hs.next_id
  · rw [haccepted]
    exact hs.accepted_le
  · intro id c hc
    rw [hconn] at hc
    have hlive := hs.live id c hc
    refine ⟨hlive.id_eq, hlive.id_of, ?_, ?_, hlive.ordered, hlive.trace, ?_⟩
    · rw [haccepted]
      exact hlive.serial_lt
    · rw [hjobsOf id c hc]
      exact hlive.flying
    · intro hstopping
      obtain ⟨hrequested, hnot⟩ := hlive.stopping hstopping
      exact ⟨hstop hrequested, fun hmem => hnot ((hround.map _).subset hmem)⟩
  · intro t ht
    rw [haccepted]
    exact hs.job t (hjobs t ht)
  · rw [hgone]
    exact hs.gone
  · exact hs.round_nodup.sublist (hround.map _)

theorem Inv.accept (hs : s.Inv Handles) (hfresh : s.accepted < 2 ^ 64) :
    Inv Handles { s.setConn { connId := s.nextConnId, trace := { serial := s.accepted } } with
      nextConnId := s.nextConnId + 1
      accepted := s.accepted + 1 } := by
  have hnojob : s.jobsOf s.nextConnId = 0 := by
    unfold jobsOf
    rw [Multiset.filter_eq_nil]
    intro t ht hid
    obtain ⟨hidOf, hlt⟩ := hs.job t ht
    have := idOf_inj (by omega) hfresh (hidOf.symm.trans (hid.trans hs.next_id))
    omega
  refine ⟨?_, hfresh, ?_, ?_, hs.comps, hs.gone, hs.round_nodup⟩
  · show s.nextConnId + 1 = idOf (s.accepted + 1)
    rw [hs.next_id, idOf, idOf, UInt64.ofNat_add (s.accepted + 1) 1]
    rfl
  · intro id c hc
    replace hc : (s.connections.insert s.nextConnId
      { connId := s.nextConnId, trace := { serial := s.accepted } }).lookup id = some c := hc
    rw [AssocMap.lookup_insert_eq] at hc
    split at hc
    · rename_i hid
      cases hc
      subst hid
      refine ⟨rfl, hs.next_id, Nat.lt_succ_self _, ⟨[], hnojob, rfl, rfl⟩, ?_, ?_, by simp⟩
      · exact ⟨⟨Scanner.consumed_nil frames, List.prefix_rfl, fun _ => rfl⟩, fun _ => rfl⟩
      · exact ⟨List.nil_prefix, List.prefix_rfl, by simp⟩
    · have hlive := hs.live id c hc
      exact ⟨hlive.id_eq, hlive.id_of, Nat.lt_succ_of_lt hlive.serial_lt, hlive.flying,
        hlive.ordered, hlive.trace, hlive.stopping⟩
  · intro t ht
    obtain ⟨hidOf, hlt⟩ := hs.job t ht
    exact ⟨hidOf, Nat.lt_succ_of_lt hlt⟩

theorem Inv.poll {order : List UInt64} (hs : s.Inv Handles) (hrunning : s.shutdownRequested = false)
    (horder : order.Perm s.connections.keys) :
    Inv Handles { s with round := (order.filterMap s.conn).map s.pollEntry } := by
  refine ⟨hs.next_id, hs.accepted_le, ?_, hs.job, hs.comps, hs.gone, ?_⟩
  · intro id c hc
    have hlive := hs.live id c hc
    refine ⟨hlive.id_eq, hlive.id_of, hlive.serial_lt, hlive.flying, hlive.ordered, hlive.trace, ?_⟩
    -- A SHUTDOWN would have stopped the polling.
    intro hstopping
    have := (hlive.stopping hstopping).1
    rw [hrunning] at this
    cases this
  · -- The entries have the keys as their ids, each once.
    have hids : ((order.filterMap s.conn).map s.pollEntry).map PollEntry.connId =
        order.filter fun id => (s.conn id).isSome := by
      rw [List.map_map]
      clear horder
      induction order with
      | nil => rfl
      | cons id order ih =>
        cases hc : s.conn id with
        | none => simpa [hc] using ih
        | some c =>
          have hid : c.connId = id := (hs.live id c hc).id_eq
          simpa [hc, pollEntry, hid] using ih
    rw [hids]
    exact ((horder.nodup_iff).mpr s.connections.keys_nodup).filter _

theorem Inv.step (hs : s.Inv Handles) (hfresh : FreshIds s a) (hstep : s.Step Handles a s') :
    s'.Inv Handles := by
  obtain ⟨hstep, hhandles⟩ := hstep
  cases change_of_step hstep with
  | work htarget hc hworks =>
    obtain ⟨done, hsettles⟩ := hworks.settles hs htarget hc
    exact hsettles.inv hs hc
  | accept outcome hroom => exact hs.accept (hfresh outcome rfl hroom)
  | refuse outcome _ =>
    exact hs.of_queues rfl id (List.Sublist.refl _) (fun _ => id) (fun _ _ _ => rfl) hs.comps
  | poll order _ hrunning horder => exact hs.poll hrunning horder
  | skip ev entry rest hround _ =>
    refine hs.of_queues rfl id ?_ (fun _ => id) (fun _ _ _ => rfl) hs.comps
    rw [hround]
    exact List.sublist_cons_self ..
  | drop outcome comp rest hqueue hgone =>
    have hjobs : s.jobs = comp.task ::ₘ ({ s with compQueue := rest } : Server).jobs := by
      unfold jobs
      rw [hqueue, List.map_cons, ← Multiset.cons_coe, Multiset.add_cons]
    have hcomp := hs.comps comp (hqueue ▸ List.mem_cons_self ..)
    refine hs.of_queues rfl id (List.Sublist.refl _) ?_ ?_ ?_
    · intro t ht
      rw [hjobs]
      exact Multiset.mem_cons_of_mem ht
    · intro id c hc
      have hne : comp.task.connId ≠ id := by
        rintro rfl
        rw [← hcomp.1, hgone] at hc
        cases hc
      unfold jobsOf
      rw [hjobs, Multiset.filter_cons_of_neg (p := fun t : Task => t.connId = id) _ hne]
    · intro comp' hcomp'
      exact hs.comps comp' (hqueue ▸ List.mem_cons_of_mem _ hcomp')
  | requestStop =>
    exact hs.of_queues rfl (fun _ => rfl) (List.Sublist.refl _) (fun _ => id) (fun _ _ _ => rfl)
      hs.comps
  | pop t rest hqueue _ =>
    have hjobs : ({ s with
        taskQueue := rest, busy := s.busy ++ [t], handled := s.handled ++ [t] } : Server).jobs =
        s.jobs := by
      unfold jobs
      simp only [hqueue, ← Multiset.coe_add, ← Multiset.cons_coe, ← Multiset.singleton_add,
        Multiset.coe_nil]
      abel
    exact hs.of_queues rfl id (List.Sublist.refl _) (fun t ht => hjobs ▸ ht)
      (fun id _ _ => by unfold jobsOf; rw [hjobs]) hs.comps
  | complete i response t hbusy =>
    have hjobs : ({ s with
        busy := s.busy.eraseIdx i
        compQueue := s.compQueue ++ [⟨t.connId, FrameCodec.encode response, t⟩] } : Server).jobs =
        s.jobs := by
      obtain ⟨hi, rfl⟩ := List.getElem?_eq_some_iff.mp hbusy
      have hperm : (s.busy : Multiset Task) = s.busy[i] ::ₘ
        (s.busy.eraseIdx i : Multiset Task) := by
        rw [Multiset.cons_coe, Multiset.coe_eq_coe]
        exact (List.getElem_cons_eraseIdx_perm hi).symm
      unfold jobs
      simp only [hperm, List.map_append, List.map_cons, List.map_nil, ← Multiset.coe_add,
        ← Multiset.cons_coe, ← Multiset.singleton_add, Multiset.coe_nil]
      abel
    refine hs.of_queues rfl id (List.Sublist.refl _) (fun t ht => hjobs ▸ ht)
      (fun id _ _ => by unfold jobsOf; rw [hjobs]) ?_
    intro comp hcomp
    rcases List.mem_append.mp hcomp with hcomp | hcomp
    · exact hs.comps comp hcomp
    · rw [List.mem_singleton.mp hcomp]
      exact ⟨rfl, response, hhandles i response t rfl hbusy, rfl⟩

theorem inv_init (hs : s.Init) : s.Inv Handles := by
  obtain ⟨config, rfl⟩ := hs
  refine ⟨rfl, Nat.zero_le _, ?_, ?_, by simp, by simp, List.nodup_nil⟩
  · intro id c hc
    cases hc
  · intro t ht
    simp [jobs] at ht

theorem Inv.of_reachable (h : Reachable Handles P s) (hP : ∀ s a, P s a → FreshIds s a) :
    s.Inv Handles := by
  refine Reach.invariant ?_ ?_ h
  · intro s hs
    exact inv_init hs
  · intro s a s' hs hguard hstep
    exact hs.step (hP s a hguard) hstep

theorem Works.placed (h : Works s c a s₀ r) (hc : c.trace.Placed) : r.conn.trace.Placed := by
  cases h with
  | clientSend id' bytes _ => exact hc
  | clientClose id' => exact hc
  | serve ev entry rest _ _ => exact ConnectionState.placed_serve hc ev
  | complete outcome comp rest _ => exact ConnectionState.placed_complete hc _ comp outcome
  | closeStalled id' _ => exact hc
  | finish id' outcome _ _ => exact hc

structure PlacedInv (s : Server) : Prop where
  live : ∀ id c, s.conn id = some c → c.trace.Placed
  gone : ∀ t ∈ s.gone, t.Placed

theorem PlacedInv.step (hs : s.PlacedInv) (hstep : s.step a = some s') : s'.PlacedInv := by
  cases change_of_step hstep with
  | @work _ id c s₀ r htarget hc hworks =>
    have hr := hworks.placed (hs.live id c hc)
    have hsame : s₀.gone = s.gone ∧ ∀ id, s₀.conn id = s.conn id := by
      rw [hworks.server.1]
      exact ⟨rfl, fun _ => rfl⟩
    refine ⟨?_, ?_⟩
    · intro id' c' hc'
      rw [settle_conn] at hc'
      split at hc'
      · split at hc'
        · cases hc'
        · cases hc'
          exact hr
      · exact hs.live id' c' (hsame.2 id' ▸ hc')
    · intro t ht
      rw [settle_gone, hsame.1] at ht
      split at ht
      · rcases List.mem_append.mp ht with ht | ht
        · exact hs.gone t ht
        · rw [List.mem_singleton.mp ht]
          exact hr
      · exact hs.gone t ht
  | accept outcome _ =>
    refine ⟨?_, hs.gone⟩
    intro id c hc
    replace hc : (s.connections.insert s.nextConnId
      { connId := s.nextConnId, trace := { serial := s.accepted } }).lookup id = some c := hc
    rw [AssocMap.lookup_insert_eq] at hc
    split at hc
    · cases hc
      exact .nil
    · exact hs.live id c hc
  | refuse outcome _ => exact ⟨hs.live, hs.gone⟩
  | poll order _ _ _ => exact ⟨hs.live, hs.gone⟩
  | skip ev entry rest _ _ => exact ⟨hs.live, hs.gone⟩
  | drop outcome comp rest _ _ => exact ⟨hs.live, hs.gone⟩
  | requestStop => exact ⟨hs.live, hs.gone⟩
  | pop t rest _ _ => exact ⟨hs.live, hs.gone⟩
  | complete i response t _ => exact ⟨hs.live, hs.gone⟩

theorem PlacedInv.of_reachable (h : Reachable Handles P s) :
    s.PlacedInv := by
  refine Reach.invariant ?_ (fun s a s' hs _ hstep => hs.step hstep.1) h
  rintro s ⟨config, rfl⟩
  exact ⟨nofun, nofun⟩

/-! ## One request in flight, responses in request order -/

def traces (s : Server) : List Trace := s.connections.entries.map (fun e => e.2.trace) ++ s.gone

def countInFlight (s : Server) (id : UInt64) : ℕ :=
  s.taskQueue.countP (fun t => t.connId = id) + s.busy.countP (fun t => t.connId = id) +
    s.compQueue.countP fun comp => comp.connId = id

/-- **What the queues and the connections keep to.** The responses that were handed to the
output of a connection are the results of `handle_request` for the first frames it has
received, one for each, and come from its own requests. -/
structure RequestsInOrder (Handles : Frame → Frame → Prop) (s : Server) : Prop where
  one_in_flight : ∀ id c, s.conn id = some c → s.countInFlight id = if c.inFlight then 1 else 0
  pending : ∀ id c, s.conn id = some c → c.pendingRequests ≠ [] → c.inFlight = true
  received : ∀ t ∈ s.traces, t.received <+: frames.items t.stream
  responses : ∀ t ∈ s.traces, ∃ responses : List Frame,
    t.answered.map Completion.responseBytes = responses.map FrameCodec.encode ∧
      List.Forall₂ Handles (t.received.take t.answered.length) responses
  own : ∀ t ∈ s.traces, ∀ comp ∈ t.answered, comp.task.serial = t.serial
  placed : ∀ t ∈ s.traces, t.Placed

theorem Inv.countInFlight (hs : s.Inv Handles) (hc : s.conn id = some c) :
    s.countInFlight id = if c.inFlight then 1 else 0 := by
  have hcomps : s.compQueue.countP (fun comp => comp.connId = id) =
      (s.compQueue.map Completion.task).countP fun t => t.connId = id := by
    rw [List.countP_map]
    apply List.countP_congr
    intro comp hcomp
    rw [Function.comp_apply, (hs.comps comp hcomp).1]
  obtain ⟨flight, hjobs, hlength, -⟩ := (hs.live id c hc).flying
  have hcard : (s.jobsOf id).card = s.countInFlight id := by
    unfold Server.countInFlight
    rw [jobsOf, jobs, ← Multiset.countP_eq_card_filter, Multiset.countP_add, Multiset.countP_add,
      hcomps]
    rfl
  rw [← hcard, hjobs, Multiset.coe_card, hlength]
  show c.inFlight.toNat = _
  cases c.inFlight with
  | true => rfl
  | false => rfl

theorem Inv.trace (hs : s.Inv Handles) (ht : t ∈ s.traces) : t.InOrder Handles := by
  rcases List.mem_append.mp ht with ht | ht
  · obtain ⟨⟨id, c⟩, hmem, rfl⟩ := List.mem_map.mp ht
    exact (hs.live id c (AssocMap.lookup_of_mem hmem)).trace
  · exact hs.gone t ht

theorem exists_responses (answered : List Completion)
    (h : ∀ comp ∈ answered, comp.Correct Handles) : ∃ responses : List Frame,
      answered.map Completion.responseBytes = responses.map FrameCodec.encode ∧
        List.Forall₂ Handles (answeredRequests answered) responses := by
  induction answered with
  | nil => exact ⟨[], rfl, .nil⟩
  | cons comp answered ih =>
    obtain ⟨-, response, hhandles, hbytes⟩ := h comp (List.mem_cons_self ..)
    obtain ⟨responses, hmap, hall⟩ := ih fun comp' hcomp' => h comp' (List.mem_cons_of_mem _ hcomp')
    refine ⟨response :: responses, ?_, .cons hhandles hall⟩
    rw [List.map_cons, List.map_cons, hbytes, hmap]

theorem responses_of_inOrder (h : t.InOrder Handles) :
    ∃ responses : List Frame,
      t.answered.map Completion.responseBytes = responses.map FrameCodec.encode ∧
        List.Forall₂ Handles (t.received.take t.answered.length) responses := by
  obtain ⟨responses, hbytes, hall⟩ :=
    exists_responses t.answered fun comp hcomp => (h.correct comp hcomp).1
  refine ⟨responses, hbytes, ?_⟩
  have hfront : answeredRequests t.answered = t.received.take t.answered.length := by
    rw [List.prefix_iff_eq_take.mp h.answered, answeredRequests, List.length_map]
  rw [← hfront]
  exact hall

/-- **One request in flight, responses in request order, never misdelivered**, in
every state that the server gets to before its connection ids run out. -/
theorem requests_in_order (h : Reachable Handles FreshIds s) : s.RequestsInOrder Handles := by
  have hs : s.Inv Handles := .of_reachable h fun _ _ => id
  have hplaced := PlacedInv.of_reachable h
  refine ⟨fun id c hc => hs.countInFlight hc, ?_, ?_, ?_, ?_, ?_⟩
  · intro id c hc hpending
    by_contra hidle
    exact hpending ((hs.live id c hc).ordered.idle (Bool.eq_false_iff.mpr hidle))
  · intro t ht
    exact (hs.trace ht).received
  · intro t ht
    exact responses_of_inOrder (hs.trace ht)
  · intro t ht comp hcomp
    exact ((hs.trace ht).correct comp hcomp).2
  · intro t ht
    rcases List.mem_append.mp ht with ht | ht
    · obtain ⟨⟨id, c⟩, hmem, rfl⟩ := List.mem_map.mp ht
      exact hplaced.live id c (AssocMap.lookup_of_mem hmem)
    · exact hplaced.gone t ht

/-! ### A run -/

def pingBytes : Bytes := FrameCodec.encode ⟨5, MessageType.PING, 7, []⟩

def pingRound : List ServerAction :=
  [.clientSend 1 pingBytes, .poll [1], .serve { readable := some ([pingBytes], .wouldBlock) },
    .pop, .complete 0 ⟨5, MessageType.PONG, 7, []⟩]

def oneWorker : ServerConfig := { workers := 1, maxConnections := 1 }

/-- Two PINGs in one piece. The second is pending until the first is answered; it is
with the worker in the state shown. -/
theorem requests_in_order_ping : ∃ s : Server, s.RequestsInOrder (fun _ _ => True) ∧
    s.countInFlight 1 = 1 ∧ s.traces.map (fun t => t.answered.length) = [1] ∧
    s.traces.map (fun t => t.received.length) = [2] := by
  have hinit : Reachable (fun _ _ => True) FreshIds { config := oneWorker } :=
    .init ⟨oneWorker, rfl⟩
  have hconnect := hinit.step (a := .connect .wouldBlock) (fun _ _ _ => by decide)
    ⟨rfl, fun _ _ _ h => by cases h⟩
  have hrun := Reachable.run [.clientSend 1 (pingBytes ++ pingBytes), .poll [1],
    .serve { readable := some ([pingBytes ++ pingBytes], .wouldBlock) }, .pop,
    .complete 0 ⟨5, MessageType.PONG, 7, []⟩, .processCompletion (.sent 100), .pop]
    hconnect rfl (by rintro s a ha outcome rfl; simp at ha) fun _ _ _ _ => trivial
  exact ⟨_, requests_in_order hrun, rfl, rfl, rfl⟩

/-! ### When the ids have run out -/

structure Quiet (s : Server) : Prop where
  connections : s.connections = ∅
  round : s.round = []
  running : s.shutdownRequested = false
  limit : 0 < s.config.maxConnections

def visit (s : Server) : List ServerAction :=
  [.connect .wouldBlock, .poll [s.nextConnId], .serve { hangUp := true }]

theorem visit_step (h : s.Quiet) : s.visit.foldlM Server.step s =
    some { s with
      nextConnId := s.nextConnId + 1
      accepted := s.accepted + 1
      gone := s.gone ++ [{ serial := s.accepted }] } := by
  obtain ⟨hconnections, hround, hrunning, hlimit⟩ := h
  have hroom : ¬ s.config.maxConnections ≤ s.connections.keys.length := by
    rw [hconnections]
    exact Nat.not_le.mpr hlimit
  let c : ConnectionState := { connId := s.nextConnId, trace := { serial := s.accepted } }
  let s₁ : Server := { s.setConn c with nextConnId := s.nextConnId + 1, accepted := s.accepted + 1 }
  have hconnect : s.step (.connect .wouldBlock) = some s₁ := by
    rw [step, accept, if_neg hroom]
  have hconn : s₁.conn s.nextConnId = some c := AList.lookup_insert _
  have hkeys : s₁.connections.keys = [s.nextConnId] := by
    show (s.connections.insert s.nextConnId c).keys = _
    rw [hconnections]
    rfl
  have hpoll : s₁.step (.poll [s.nextConnId]) = some { s₁ with round := [s₁.pollEntry c] } := by
    rw [step, if_pos
      ⟨by rw [show s₁.round = s.round from rfl, hround]; rfl, hrunning, by rw [hkeys]⟩]
    simp [hconn]
  have hserve : ({ s₁ with round := [s₁.pollEntry c] } : Server).step (.serve { hangUp := true }) =
      some ({ s₁ with round := [] }.closeConnection c) := by
    rw [step]
    simp only
    rw [show ({ s₁ with round := [s₁.pollEntry c] } : Server).conn (s₁.pollEntry c).connId = some c
      from hconn]
    simp [fits, ConnectionState.serve, settle_close]
  have hempty : (s.connections.insert s.nextConnId c).erase s.nextConnId = s.connections := by
    rw [hconnections]
    exact AList.ext (List.kerase_cons_eq rfl)
  rw [visit, List.foldlM_cons, hconnect, Option.bind_eq_bind, Option.bind_some, List.foldlM_cons,
    hpoll, Option.bind_eq_bind, Option.bind_some, List.foldlM_cons, hserve]
  simp only [closeConnection, s₁, setConn, c, hempty]
  rw [hround]
  rfl

theorem visits (h : s.Quiet) (hs : Reachable Handles (fun _ _ => True) s) (n : ℕ) :
    ∃ gone, Reachable Handles (fun _ _ => True) { s with
      nextConnId := s.nextConnId + UInt64.ofNat n, accepted := s.accepted + n, gone := gone } := by
  induction n with
  | zero => exact ⟨s.gone, by simpa using hs⟩
  | succ n ih =>
    obtain ⟨gone, hn⟩ := ih
    have hquiet : Quiet { s with
        nextConnId := s.nextConnId + UInt64.ofNat n, accepted := s.accepted + n, gone := gone } :=
      ⟨h.connections, h.round, h.running, h.limit⟩
    have hnext := hn.run _ (visit_step hquiet) (fun _ _ _ => trivial) fun f i response hmem => by
      simp [visit] at hmem
    have hid : s.nextConnId + UInt64.ofNat (n + 1) = s.nextConnId + UInt64.ofNat n + 1 := by
      rw [UInt64.ofNat_add, ← UInt64.add_assoc]
      rfl
    rw [hid]
    exact ⟨_, hnext⟩

/-- **The ids run out.** A client asks and goes away before it is answered; after
2^64 - 1 other clients the next one has its id again and gets the answer. -/
theorem response_misdelivered_after_wrap :
    ∃ s : Server, Reachable (fun _ _ => True) (fun _ _ => True) s ∧
      ¬ s.RequestsInOrder (fun _ _ => True) := by
  have hinit : Reachable (fun _ _ => True) (fun _ _ => True) { config := oneWorker } :=
    .init ⟨oneWorker, rfl⟩
  have hasked := hinit.run
    (.connect .wouldBlock :: pingRound ++ [.poll [1], .serve { hangUp := true }]) rfl
    (fun _ _ _ => trivial) fun _ _ _ _ => trivial
  obtain ⟨gone, hvisited⟩ := visits ⟨rfl, rfl, rfl, by decide⟩ hasked (2 ^ 64 - 1)
  have hanswered := hvisited.run [.connect .wouldBlock, .processCompletion (.sent 100)] rfl
    (fun _ _ _ => trivial) fun _ _ _ _ => trivial
  refine ⟨_, hanswered, fun h => ?_⟩
  have hown : 0 = 1 + (2 ^ 64 - 1) :=
    h.own _ (List.mem_append_left _ (List.mem_cons_self ..)) _ (List.mem_cons_self ..)
  omega

end Server

end StreamForge
