import StreamForge.Net.ConnectionLifetime

/-!
# Stalled reads

`check_read_stalls` closes the connections that have an incomplete frame and from
which nothing was received for `read_stall_timeout_sec` seconds. The steps of the
server are put on a clock here: time goes by between them and between two calls of
`recv`, every call that gives bytes sets `last_read_time`, and beside each byte in an
assembler stands the time at which it was received.

The check looks at the last byte, not at the first byte of the frame, so a client
that keeps dripping bytes is never closed (`Dripping`). And a connection that is not
polled because its requests have to wait is closed when the rest of a frame waits
with them (`HeldBack`). These two are all that can go wrong.
-/

namespace StreamForge

open Incremental Transition

/-! ## The clock of a connection -/

/-- `last_read_time`, and the bytes in the assembler with the times at which they were
received. Only `last_read_time` is the server's. -/
structure ReadClock where
  lastReadTime : ℕ
  received : List (UInt8 × ℕ) := []

namespace ReadClock

def push (k : ReadClock) (t : ℕ) (piece : Bytes) : ReadClock where
  lastReadTime := t
  received := k.received ++ piece.map fun b => (b, t)

/-- The `recv` loop from the time `t` on, with the time that each call takes. -/
def recv : ℕ → List ℕ → List Bytes → ReadClock → ℕ × ReadClock
  | t, _, [], k => (t, k)
  | t, waits, piece :: pieces, k =>
    recv (t + waits.headD 0) waits.tail pieces (k.push (t + waits.headD 0) piece)

/-- Frames were taken out and `n` bytes are left. -/
def keep (k : ReadClock) (n : ℕ) : ReadClock :=
  { k with received := k.received.drop (k.received.length - n) }

def lastByteAt (k : ReadClock) : Option ℕ := k.received.getLast?.map Prod.snd

/-- When the first byte was received of an incomplete frame at the end of the bytes. -/
def incompleteSince (k : ReadClock) : Option ℕ :=
  let bytes := k.received.map Prod.fst
  match nextFrame (frames.left bytes) with
  | .more => (k.received.drop (bytes.length - (frames.left bytes).length)).head?.map Prod.snd
  | _ => none

end ReadClock

/-- What the `recv` loop gives in a pass that gets to it. -/
def ConnectionState.readPieces (c : ConnectionState) (ev : Events) : List Bytes :=
  if ev.hangUp || (c.handleOutput ev.writable).2 then [] else (ev.readable.map Prod.fst).getD []

/-! ## The server on a clock -/

/-- Times are nanoseconds of `steady_clock`. -/
structure Timed where
  server : Server
  readStallTimeoutSec : UInt32 := 30
  now : ℕ := 0
  clocks : UInt64 → ReadClock := fun _ => { lastReadTime := 0 }

/-- Time goes by, a step is made with the given times for the calls of `recv` in it, or
`check_read_stalls` is called. -/
inductive TimedAction where
  | elapse (ns : ℕ)
  | act (a : ServerAction) (waits : List ℕ)
  | checkReadStalls

namespace Timed

def note (t : Timed) (a : ServerAction) (waits : List ℕ) (s : Server) : Timed :=
  match a with
  | .connect _ =>
    if t.server.config.maxConnections ≤ t.server.connections.keys.length then
      { t with server := s }
    else
      { t with
        server := s
        clocks := Function.update t.clocks t.server.nextConnId { lastReadTime := t.now } }
  | .serve ev =>
    match t.server.round.head?.bind fun entry => t.server.conn entry.connId with
    | none => { t with server := s }
    | some c =>
      let p := ReadClock.recv t.now waits (c.readPieces ev) (t.clocks c.connId)
      { t with
        server := s
        now := p.1
        clocks := Function.update t.clocks c.connId
          (p.2.keep (c.serve ev).conn.assembler.bufferedBytes) }
  | _ => { t with server := s }

/-- The comparison in `check_read_stalls`: in whole seconds. -/
def overdue (t : Timed) (id : UInt64) : Bool :=
  decide (t.readStallTimeoutSec.toNat ≤ (t.now - (t.clocks id).lastReadTime) / 10 ^ 9)

def checkReadStalls (t : Timed) : Timed :=
  { t with server := (Server.checkReadStalls t.overdue t.server).server }

/-- Stalled connections are closed by the check only. -/
def step (t : Timed) : TimedAction → Option Timed
  | .elapse ns => some { t with now := t.now + ns }
  | .act (.closeStalled _) _ => none
  | .act a waits => (t.server.step a).map (t.note a waits)
  | .checkReadStalls => some t.checkReadStalls

def Init (t : Timed) : Prop := t.server.Init

def Reachable : Timed → Prop :=
  Reach Init (fun t a t' => t.step a = some t') fun _ _ => True

/-! ## What can go wrong -/

def timeout (t : Timed) : ℕ := t.readStallTimeoutSec.toNat * 10 ^ 9

/-- The server does not poll the connection for input, since it has to wait for
requests or for room in its buffer. -/
def Backpressured (t : Timed) (c : ConnectionState) : Prop :=
  t.server.config.maxInputBufferBytes ≤ c.assembler.bufferedBytes ∨ 1000 ≤ c.pendingRequests.length

/-- A frame that was begun a timeout ago or earlier is still incomplete, and its last
byte came later than that. -/
def Dripping (t : Timed) (id : UInt64) : Prop :=
  ∃ since latest, (t.clocks id).incompleteSince = some since ∧
    (t.clocks id).lastByteAt = some latest ∧ since + t.timeout ≤ t.now ∧ t.now < latest + t.timeout

/-- The server has not read for a timeout on its own account, and bytes are left in the
assembler. -/
def HeldBack (t : Timed) (id : UInt64) (c : ConnectionState) : Prop :=
  t.Backpressured c ∧ ∃ latest, (t.clocks id).lastByteAt = some latest ∧ latest + t.timeout ≤ t.now

end Timed

/-! ## Clocks are right -/

namespace ReadClock

variable {k : ReadClock} {bytes rest : Bytes} {now t : ℕ} {pieces : List Bytes}

/-- The clock is about these bytes, and `last_read_time` is the time of the last one. -/
structure Right (k : ReadClock) (bytes : Bytes) (now : ℕ) : Prop where
  bytes_eq : k.received.map Prod.fst = bytes
  last : ∀ x ∈ k.received.getLast?, x.2 = k.lastReadTime
  past : k.lastReadTime ≤ now

theorem Right.mono (h : k.Right bytes now) (ht : now ≤ t) : k.Right bytes t :=
  ⟨h.bytes_eq, h.last, h.past.trans ht⟩

theorem Right.push {piece : Bytes} (h : k.Right bytes now) (hpiece : piece ≠ []) :
    (k.push t piece).Right (bytes ++ piece) t := by
  refine ⟨?_, ?_, le_rfl⟩
  · simp [ReadClock.push, h.bytes_eq, Function.comp_def]
  · intro x hx
    have hx : x ∈ (piece.map fun b => (b, t)).getLast? := by
      rwa [ReadClock.push, List.getLast?_append_of_ne_nil _ (by simpa using hpiece)] at hx
    obtain ⟨b, -, rfl⟩ := List.mem_map.mp (List.mem_of_getLast? hx)
    rfl

theorem Right.recv (h : k.Right bytes now) (hpieces : ∀ piece ∈ pieces, piece ≠ [])
    (waits : List ℕ) : now ≤ (recv now waits pieces k).1 ∧
      (recv now waits pieces k).2.Right (bytes ++ pieces.flatten) (recv now waits pieces k).1 := by
  induction pieces generalizing k bytes now waits with
  | nil =>
    rw [List.flatten_nil, List.append_nil]
    exact ⟨le_rfl, h⟩
  | cons piece pieces ih =>
    rw [List.forall_mem_cons] at hpieces
    obtain ⟨hpiece, hpieces⟩ := hpieces
    obtain ⟨hle, hright⟩ := ih (h.push (t := now + waits.headD 0) hpiece) hpieces waits.tail
    rw [List.append_assoc] at hright
    exact ⟨(Nat.le_add_right ..).trans hle, hright⟩

theorem Right.keep {front : Bytes} (h : k.Right (front ++ rest) now) :
    (k.keep rest.length).Right rest now := by
  have hlen : k.received.length = front.length + rest.length := by
    rw [← List.length_append, ← h.bytes_eq, List.length_map]
  refine ⟨?_, ?_, h.past⟩
  · show (k.received.drop (k.received.length - rest.length)).map Prod.fst = rest
    rw [hlen, Nat.add_sub_cancel, List.map_drop, h.bytes_eq, List.drop_left]
  · intro x hx
    refine h.last x ?_
    have hx : x ∈ (k.received.drop (k.received.length - rest.length)).getLast? := hx
    rw [List.getLast?_drop] at hx
    split at hx
    · cases hx
    · exact hx

theorem Right.lastByteAt (h : k.Right bytes now) (hbytes : bytes ≠ []) :
    k.lastByteAt = some k.lastReadTime := by
  have hsome : k.received ≠ [] := by
    rintro hnil
    rw [← h.bytes_eq, hnil] at hbytes
    exact hbytes rfl
  unfold ReadClock.lastByteAt
  rw [List.getLast?_eq_some_getLast hsome, Option.map_some,
    h.last _ (List.getLast?_eq_some_getLast hsome)]

theorem Right.lastByteAt_none (h : k.Right [] now) : k.lastByteAt = none := by
  rw [ReadClock.lastByteAt, List.map_eq_nil_iff.mp h.bytes_eq]
  rfl

theorem Right.incompleteSince_none (h : k.Right [] now) : k.incompleteSince = none := by
  rw [ReadClock.incompleteSince, List.map_eq_nil_iff.mp h.bytes_eq]
  simp only [List.map_nil, List.drop_nil, List.head?_nil, Option.map_none]
  split
  · rfl
  · rfl

theorem incompleteSince_of_more (h : nextFrame (k.received.map Prod.fst) = .more) :
    k.incompleteSince = k.received.head?.map Prod.snd := by
  have hleft : frames.left (k.received.map Prod.fst) = k.received.map Prod.fst := by
    rw [Scanner.left, Scanner.scan_more (s := frames) h]
  unfold incompleteSince
  simp only
  rw [hleft, h, Nat.sub_self, List.drop_zero]

end ReadClock

/-! ## A pass and the assembler -/

namespace ConnectionState

variable {c : ConnectionState} {ev : Events}

/-- The flag says whether bytes are in the assembler. -/
def Flagged (c : ConnectionState) : Prop := c.hasActiveReadStall = c.assembler.hasPartialFrame

theorem extractLoop_suffix (reply : SendOutcome) (c : ConnectionState) :
    (extractLoop reply (c.assembler.bufferedBytes + 1) c).2.conn.assembler.unread <:+
      c.assembler.unread := by
  refine extractLoop_rule (R := fun c p => p.2.conn.assembler.unread <:+ c.assembler.unread)
    ?more ?stop ?shutdown ?request c (Nat.lt_succ_self _)
  case more => exact fun c _ => List.suffix_rfl
  case stop => exact fun c _ _ => List.suffix_rfl
  case shutdown =>
    intro c f a hnext _
    have hassembler : (c.takeShutdown f a reply).conn.assembler = a := by
      unfold takeShutdown sendShutdownOk
      simp only
      split
      · rfl
      · rfl
    rw [hassembler, (nextFrame_item hnext).2.2.2.2]
    exact List.drop_suffix ..
  case request =>
    intro c f a next hnext _ hloop
    have hassembler : (c.takeRequest f a).conn.assembler = a := by
      unfold takeRequest request
      split
      · rfl
      · rfl
    rw [hassembler, (nextFrame_item hnext).2.2.2.2] at hloop
    exact hloop.trans (List.drop_suffix ..)

theorem assembler_queueImmediateErrorAndClose (c : ConnectionState) (f : Frame)
    (reply : SendOutcome) :
    (c.queueImmediateErrorAndClose f reply).1.assembler = c.assembler := by
  obtain ⟨output, closeAfterSend, sent, heq⟩ := queueImmediateErrorAndClose_eq c f reply
  rw [heq]

/-- What input leaves in the assembler is the end of what was there and came in, and the
flag is set anew. -/
theorem handleInput_reads (c : ConnectionState) (pieces : List Bytes) (ending : RecvEnd)
    (reply : SendOutcome) :
    (c.handleInput pieces ending reply).conn.assembler.unread <:+
        c.assembler.unread ++ pieces.flatten ∧
      ((c.handleInput pieces ending reply).closed = false →
        (c.handleInput pieces ending reply).conn.Flagged) := by
  have hloop := extractLoop_suffix reply (c.receive pieces)
  rw [unread_receive] at hloop
  unfold handleInput
  simp only
  split
  · rw [unread_receive]
    exact ⟨List.suffix_rfl, nofun⟩
  · split
    · rename_i r hr
      rw [hr] at hloop
      rw [assembler_queueImmediateErrorAndClose]
      exact ⟨hloop, fun _ => rfl⟩
    · rename_i r hr
      rw [hr] at hloop
      rw [assembler_queueImmediateErrorAndClose]
      exact ⟨hloop, fun _ => rfl⟩
    · rename_i r _ _ hr
      rw [hr] at hloop
      exact ⟨hloop, fun _ => rfl⟩

/-- **A pass** takes frames out of what was there and what it receives. -/
theorem serve_reads (hflag : c.Flagged) (ev : Events) :
    (c.serve ev).conn.assembler.unread <:+ c.assembler.unread ++ (c.readPieces ev).flatten ∧
      ((c.serve ev).closed = false → (c.serve ev).conn.Flagged) := by
  obtain ⟨-, hassembler, hstall⟩ := handleOutput_same c ev.writable
  unfold serve readPieces
  cases hup : ev.hangUp with
  | true =>
    show c.assembler.unread <:+ c.assembler.unread ++ [] ∧ _
    rw [List.append_nil]
    exact ⟨List.suffix_rfl, nofun⟩
  | false =>
    rcases hc' : c.handleOutput ev.writable with ⟨c', b⟩
    rw [hc'] at hassembler hstall
    replace hassembler : c'.assembler = c.assembler := hassembler
    cases b with
    | true =>
      show c'.assembler.unread <:+ c.assembler.unread ++ [] ∧ _
      rw [hassembler, List.append_nil]
      exact ⟨List.suffix_rfl, nofun⟩
    | false =>
      rw [← hassembler]
      rcases ev.readable with _ | ⟨pieces, ending⟩
      · show c'.assembler.unread <:+ c'.assembler.unread ++ [] ∧ (_ → c'.Flagged)
        rw [List.append_nil]
        refine ⟨List.suffix_rfl, fun _ => ?_⟩
        rw [Flagged, hassembler]
        exact hstall.trans hflag
      · exact handleInput_reads c' pieces ending ev.reply

theorem readPieces_ne_nil {entry : PollEntry} (h : Server.fits entry c ev = true) :
    ∀ piece ∈ c.readPieces ev, piece ≠ [] := by
  unfold readPieces
  split
  · nofun
  · rcases hread : ev.readable with _ | ⟨pieces, ending⟩
    · nofun
    · unfold Server.fits at h
      rw [hread] at h
      simp only [Bool.and_eq_true, List.all_eq_true, Bool.not_eq_true'] at h
      intro piece hpiece hnil
      have hsome := (h.2.1.2 piece hpiece).1
      rw [hnil] at hsome
      cases hsome

theorem complete_reads (c : ConnectionState) (max : ℕ) (comp : Completion) (outcome : SendOutcome) :
    (c.complete max comp outcome).conn.assembler = c.assembler ∧
      (c.complete max comp outcome).conn.hasActiveReadStall = c.hasActiveReadStall := by
  have hnext : ∀ c' : ConnectionState, c'.dispatchNext.conn.assembler = c'.assembler ∧
      c'.dispatchNext.conn.hasActiveReadStall = c'.hasActiveReadStall := by
    intro c'
    unfold dispatchNext
    split
    · exact ⟨rfl, rfl⟩
    · exact ⟨rfl, rfl⟩
  unfold complete
  simp only
  split
  · exact ⟨rfl, rfl⟩
  · split
    · split
      · exact ⟨rfl, rfl⟩
      · exact hnext _
      · exact hnext _
    · exact hnext _

end ConnectionState

namespace Server

variable {s : Server} {id : UInt64}

theorem Works.connections {c : ConnectionState} {a : ServerAction} {s₀ : Server} {r : ServeResult}
    (h : Works s c a s₀ r) : s₀.connections = s.connections := by
  rw [h.server.1]

theorem conn_closeOne (hs : s.Keyed) (id' : UInt64) :
    (closeOne id' s).server.conn id = if id = id' then none else s.conn id := by
  unfold closeOne
  split
  · rename_i hnone
    split
    · rename_i hid
      rw [hid]
      exact hnone
    · rfl
  · rename_i c hc
    rw [← hs id' c hc]
    show (s.closeConnection c).conn id = _
    rw [← settle_close, settle_conn]
    rfl

theorem conn_each_closeOne (hs : s.Keyed) (ids : List UInt64) :
    (each closeOne ids s).server.conn id = if id ∈ ids then none else s.conn id := by
  induction ids generalizing s with
  | nil => rfl
  | cons id' ids ih =>
    show (each closeOne ids (closeOne id' s).server).server.conn id = _
    rw [ih (tracked_closeOne id' hs).keyed, conn_closeOne hs]
    by_cases hid : id = id'
    · simp [hid]
    · simp [hid]

/-- **`check_read_stalls`** closes the stalled connections whose last read is too long
ago and no other. -/
theorem conn_checkReadStalls (hs : s.Keyed) (overdue : UInt64 → Bool) (c : ConnectionState) :
    (checkReadStalls overdue s).server.conn id = some c ↔
      s.conn id = some c ∧ ¬ (c.hasActiveReadStall = true ∧ overdue id = true) := by
  have hmem : ∀ c', s.conn id = some c' → id ∈ s.connections.keys := by
    intro c' hc'
    rw [← AList.mem_keys, ← AList.lookup_isSome]
    exact Option.isSome_iff_exists.mpr ⟨c', hc'⟩
  show (each closeOne _ s).server.conn id = some c ↔ _
  rw [conn_each_closeOne hs]
  simp only [List.mem_filter]
  rcases hc : s.conn id with _ | c'
  · simp
  · simp only [hmem c' hc, Option.map_some, Option.getD_some, Bool.and_eq_true, true_and]
    constructor
    · intro h
      split at h
      · cases h
      · rename_i hno
        cases h
        exact ⟨rfl, hno⟩
    · rintro ⟨heq, hno⟩
      cases heq
      exact if_neg hno

end Server

namespace Timed

variable {t t' : Timed} {id : UInt64} {c : ConnectionState}

structure Inv (t : Timed) : Prop where
  keyed : t.server.Keyed
  flagged : ∀ id c, t.server.conn id = some c → c.Flagged
  right : ∀ id c, t.server.conn id = some c → (t.clocks id).Right c.assembler.unread t.now

theorem Inv.elapse (h : t.Inv) (ns : ℕ) : Inv { t with now := t.now + ns } :=
  ⟨h.keyed, h.flagged, fun id c hc => (h.right id c hc).mono (Nat.le_add_right ..)⟩

theorem Inv.checkReadStalls (h : t.Inv) : t.checkReadStalls.Inv := by
  have hold : ∀ id c, t.checkReadStalls.server.conn id = some c → t.server.conn id = some c :=
    fun id c hc => ((Server.conn_checkReadStalls h.keyed t.overdue c).mp hc).1
  exact ⟨(Server.tracked_checkReadStalls t.overdue h.keyed).keyed,
    fun id c hc => h.flagged id c (hold id c hc), fun id c hc => h.right id c (hold id c hc)⟩

variable {s s₀ : Server}

theorem Inv.of_server (h : t.Inv) (hs : s.Keyed)
    (hconn : ∀ id c, s.conn id = some c → ∃ c', t.server.conn id = some c' ∧
      c.assembler = c'.assembler ∧ c.hasActiveReadStall = c'.hasActiveReadStall) :
    Inv { t with server := s } := by
  refine ⟨hs, ?_, ?_⟩
  · intro id c hc
    obtain ⟨c', hc', hassembler, hstall⟩ := hconn id c hc
    rw [ConnectionState.Flagged, hassembler, hstall]
    exact h.flagged id c' hc'
  · intro id c hc
    obtain ⟨c', hc', hassembler, -⟩ := hconn id c hc
    rw [hassembler]
    exact h.right id c' hc'

theorem conn_of_work {r : ServeResult} (hconn : s₀.connections = s.connections) {id' : UInt64}
    {c' : ConnectionState} (hc' : (s₀.settle r).conn id' = some c') :
    id' = r.conn.connId ∧ c' = r.conn ∧ r.closed = false ∨
      id' ≠ r.conn.connId ∧ s.conn id' = some c' := by
  rw [Server.settle_conn] at hc'
  split at hc'
  · rename_i hid
    split at hc'
    · cases hc'
    · rename_i hopen
      cases hc'
      exact .inl ⟨hid, rfl, Bool.eq_false_iff.mpr hopen⟩
  · rename_i hid
    rw [Server.conn, hconn] at hc'
    exact .inr ⟨hid, hc'⟩

theorem Inv.of_work (h : t.Inv) {r : ServeResult} (hc : t.server.conn id = some c)
    (hconn : s₀.connections = t.server.connections) (hs : (s₀.settle r).Keyed)
    (hid : r.conn.connId = c.connId) (hassembler : r.conn.assembler = c.assembler)
    (hstall : r.conn.hasActiveReadStall = c.hasActiveReadStall) :
    Inv { t with server := s₀.settle r } := by
  refine h.of_server hs ?_
  intro id' c' hc'
  rcases conn_of_work hconn hc' with ⟨rfl, rfl, -⟩ | ⟨-, hold⟩
  · rw [hid, h.keyed id c hc]
    exact ⟨c, hc, hassembler, hstall⟩
  · exact ⟨c', hold, rfl, rfl⟩

theorem Inv.serve (h : t.Inv) {entry : PollEntry} {ev : Events} (waits : List ℕ)
    (hc : t.server.conn id = some c) (hround : t.server.round.head? = some entry)
    (hentry : entry.connId = id) (hconn : s₀.connections = t.server.connections)
    (hs : (s₀.settle (c.serve ev)).Keyed) (hfits : Server.fits entry c ev = true) :
    (t.note (.serve ev) waits (s₀.settle (c.serve ev))).Inv := by
  have hid := h.keyed id c hc
  obtain ⟨⟨front, hfront⟩, hflagged⟩ := ConnectionState.serve_reads (h.flagged id c hc) ev
  obtain ⟨hle, hright⟩ := (h.right id c hc).recv (ConnectionState.readPieces_ne_nil hfits) waits
  rw [← hfront] at hright
  have hkeep := hright.keep
  rw [FrameAssembler.length_unread] at hkeep
  unfold note
  simp only [hround, Option.bind_some, hentry, hc, hid]
  refine ⟨hs, ?_, ?_⟩
  · intro id' c' hc'
    rcases conn_of_work hconn hc' with ⟨-, rfl, hopen⟩ | ⟨-, hc'⟩
    · exact hflagged hopen
    · exact h.flagged id' c' hc'
  · intro id' c' hc'
    rcases conn_of_work hconn hc' with ⟨hid', rfl, hopen⟩ | ⟨hne, hc'⟩
    · rw [c.connId_serve, hid] at hid'
      subst hid'
      simp only [Function.update_self]
      exact hkeep
    · rw [c.connId_serve, hid] at hne
      simp only [Function.update_of_ne hne]
      exact (h.right id' c' hc').mono hle

theorem Inv.act (h : t.Inv) {a : ServerAction} (waits : List ℕ) (hstep : t.server.step a = some s) :
    (t.note a waits s).Inv := by
  have hs := h.keyed.step hstep
  have hsame : s.connections = t.server.connections → Inv { t with server := s } := by
    intro hconnections
    refine h.of_server hs fun id c hc => ⟨c, ?_, rfl, rfl⟩
    rw [Server.conn, ← hconnections]
    exact hc
  cases Server.change_of_step hstep with
  | @work _ id c s₀ r htarget hc hworks =>
    have hconnections := hworks.connections
    cases hworks with
    | clientSend id bytes _ => exact h.of_work hc hconnections hs rfl rfl rfl
    | clientClose id => exact h.of_work hc hconnections hs rfl rfl rfl
    | serve ev entry rest hround hfits =>
      have hhead : t.server.round.head? = some entry := by rw [hround, List.head?_cons]
      have hentry : entry.connId = id := by simpa [Server.target, hround] using htarget
      exact h.serve waits hc hhead hentry hconnections hs hfits
    | complete outcome comp rest _ =>
      obtain ⟨hassembler, hstall⟩ := ConnectionState.complete_reads _ _ comp outcome
      exact h.of_work hc hconnections hs (ConnectionState.connId_complete ..) hassembler hstall
    | closeStalled id _ => exact h.of_work hc hconnections hs rfl rfl rfl
    | finish id outcome _ _ => exact h.of_work hc hconnections hs rfl rfl rfl
  | accept outcome hroom =>
    unfold note
    simp only
    rw [if_neg (Nat.not_le_of_lt hroom)]
    let new : ConnectionState :=
      { connId := t.server.nextConnId, trace := { serial := t.server.accepted } }
    have hcases : ∀ id c, (t.server.setConn new).conn id = some c →
        id = t.server.nextConnId ∧ c = new ∨
          id ≠ t.server.nextConnId ∧ t.server.conn id = some c := by
      intro id c hc
      rw [← Server.settle_open] at hc
      rcases conn_of_work rfl hc with ⟨hid, hnew, -⟩ | hold
      · exact .inl ⟨hid, hnew⟩
      · exact .inr hold
    refine ⟨hs, ?_, ?_⟩
    · intro id c hc
      rcases hcases id c hc with ⟨-, rfl⟩ | ⟨-, hc⟩
      · rfl
      · exact h.flagged id c hc
    · intro id c hc
      rcases hcases id c hc with ⟨rfl, rfl⟩ | ⟨hne, hc⟩
      · simp only [Function.update_self]
        exact ⟨rfl, fun _ h => (by cases h), le_rfl⟩
      · simp only [Function.update_of_ne hne]
        exact h.right id c hc
  | refuse outcome hfull =>
    unfold note
    simp only
    rw [if_pos hfull]
    exact hsame rfl
  | poll order _ _ _ => exact hsame rfl
  | skip ev entry rest hround hgone =>
    unfold note
    simp only [hround, List.head?_cons, Option.bind_some, hgone]
    exact hsame rfl
  | drop outcome comp rest _ _ => exact hsame rfl
  | requestStop => exact hsame rfl
  | pop t rest _ _ => exact hsame rfl
  | complete i response t _ => exact hsame rfl

theorem Reachable.inv (h : t.Reachable) : t.Inv := by
  refine Reach.invariant ?_ ?_ h
  · rintro t ⟨config, hconfig⟩
    have hnone : ∀ id c, t.server.conn id ≠ some c := by
      rw [hconfig]
      nofun
    exact ⟨fun id c hc => absurd hc (hnone id c), fun id c hc => absurd hc (hnone id c),
      fun id c hc => absurd hc (hnone id c)⟩
  · intro t action t' hinv _ hstep
    cases action with
    | elapse ns =>
      cases hstep
      exact hinv.elapse ns
    | checkReadStalls =>
      cases hstep
      exact hinv.checkReadStalls
    | act a waits =>
      have hact : (t.server.step a).map (t.note a waits) = some t' := by
        cases a with
        | closeStalled id => cases hstep
        | _ => exact hstep
      obtain ⟨s, hs, rfl⟩ := Option.map_eq_some_iff.mp hact
      exact hinv.act waits hs

/-! ## What the check achieves -/

/-- After the check no connection has a frame that was begun a timeout ago. -/
def NoneStalled (t : Timed) : Prop :=
  ∀ id c, t.checkReadStalls.server.conn id = some c →
    ∀ since, (t.clocks id).incompleteSince = some since → t.now < since + t.timeout

/-- The check closes no connection that the server itself does not read from. -/
def SparesBackpressured (t : Timed) : Prop :=
  ∀ id c, t.server.conn id = some c → t.Backpressured c → t.checkReadStalls.server.conn id = some c

theorem Inv.overdue_iff (h : t.Inv) (hc : t.server.conn id = some c) :
    t.overdue id = true ↔ (t.clocks id).lastReadTime + t.timeout ≤ t.now := by
  have hpast := (h.right id c hc).past
  unfold overdue timeout
  rw [decide_eq_true_eq, Nat.le_div_iff_mul_le (by decide)]
  omega

/-- **Which connections are closed**: those with bytes in the assembler of which the last
one came a timeout ago or earlier. -/
theorem Inv.stays_iff (h : t.Inv) (hc : t.server.conn id = some c) :
    t.checkReadStalls.server.conn id = some c ↔
      ∀ latest, (t.clocks id).lastByteAt = some latest → t.now < latest + t.timeout := by
  have hright := h.right id c hc
  have hover := h.overdue_iff hc
  have hflag := h.flagged id c hc
  show (Server.checkReadStalls t.overdue t.server).server.conn id = some c ↔ _
  rw [Server.conn_checkReadStalls h.keyed, hflag, hover]
  rcases hbytes : c.assembler.unread with _ | ⟨b, rest⟩
  · have hempty : c.assembler.hasPartialFrame = false := by
      rw [FrameAssembler.hasPartialFrame, ← FrameAssembler.length_unread, hbytes]
      rfl
    rw [hbytes] at hright
    rw [hright.lastByteAt_none, hempty]
    simp [hc]
  · have hsome : c.assembler.hasPartialFrame = true := by
      rw [FrameAssembler.hasPartialFrame, ← FrameAssembler.length_unread, hbytes]
      rfl
    rw [hright.lastByteAt (by simp [hbytes]), hsome]
    simp [hc]

/-- **The slow-loris defence** works exactly when no client is dripping and no connection
is held back: in every state that a run gets to. -/
theorem read_stalls_iff (h : t.Reachable) :
    t.NoneStalled ∧ t.SparesBackpressured ↔
      ∀ id c, t.server.conn id = some c → ¬ t.Dripping id ∧ ¬ t.HeldBack id c := by
  have hinv := h.inv
  constructor
  · rintro ⟨hnone, hspares⟩ id c hc
    constructor
    · rintro ⟨since, latest, hsince, hlatest, hold, hnew⟩
      refine Nat.not_le_of_lt (hnone id c ?_ since hsince) hold
      rw [hinv.stays_iff hc]
      rintro latest' hlatest'
      cases hlatest.symm.trans hlatest'
      exact hnew
    · rintro ⟨hback, latest, hlatest, hold⟩
      have hstays := (hinv.stays_iff hc).mp (hspares id c hc hback) latest hlatest
      exact Nat.not_le_of_lt hstays hold
  · intro hgood
    constructor
    · intro id c hstays since hsince
      have hc := ((Server.conn_checkReadStalls hinv.keyed t.overdue c).mp hstays).1
      have hright := hinv.right id c hc
      have hbytes : c.assembler.unread ≠ [] := by
        intro hnil
        rw [hnil] at hright
        rw [hright.incompleteSince_none] at hsince
        cases hsince
      have hlatest := hright.lastByteAt hbytes
      have hnew := (hinv.stays_iff hc).mp hstays _ hlatest
      exact Nat.lt_of_not_le fun hold =>
        (hgood id c hc).1 ⟨since, _, hsince, hlatest, hold, hnew⟩
    · intro id c hc hback
      rw [hinv.stays_iff hc]
      intro latest hlatest
      exact Nat.lt_of_not_le fun hold => (hgood id c hc).2 ⟨hback, latest, hlatest, hold⟩

/-! ## A dripping client -/

def byteArrives (b : UInt8) : List TimedAction :=
  [.act (.clientSend 1 [b]) [], .act (.poll [1]) [],
    .act (.serve { readable := some ([[b]], .wouldBlock) }) []]

/-- A client connects, sends one byte and 20 seconds later a second one; then `ns`
nanoseconds go by. -/
def twoBytes (ns : ℕ) : List TimedAction :=
  [.act (.connect .wouldBlock) []] ++ byteArrives 0 ++ [.elapse (20 * 10 ^ 9)] ++ byteArrives 0 ++
    [.elapse ns]

def start : Timed := { server := { config := {} } }

theorem reachable_twoBytes {ns : ℕ} (h : (twoBytes ns).foldlM step start = some t) : t.Reachable :=
  Reach.foldlM (twoBytes ns) (fun _ _ _ => trivial) (.init ⟨{}, rfl⟩) h

/-- The first byte came 51 seconds ago and the second one 31: the connection is closed. -/
theorem read_stalls_late : ∃ t, (twoBytes (31 * 10 ^ 9)).foldlM step start = some t ∧
    (t.NoneStalled ∧ t.SparesBackpressured) := by
  have hrun : ((twoBytes (31 * 10 ^ 9)).foldlM step start).map (fun t =>
      (t.server.connections.keys, (t.server.conn 1).map fun c =>
        (decide (c.assembler.bufferedBytes < t.server.config.maxInputBufferBytes),
          c.pendingRequests.length), (t.clocks 1).lastByteAt, t.now, t.timeout)) =
      some ([1], some (true, 0), some (20 * 10 ^ 9), 51 * 10 ^ 9, 30 * 10 ^ 9) := by decide
  obtain ⟨t, ht, hfacts⟩ := Option.map_eq_some_iff.mp hrun
  simp only [Prod.mk.injEq] at hfacts
  obtain ⟨hkeys, hconn, hlast, hnow, htimeout⟩ := hfacts
  refine ⟨t, ht, (read_stalls_iff (reachable_twoBytes ht)).mpr ?_⟩
  intro id c hc
  obtain rfl : id = 1 := by
    have hid : id ∈ t.server.connections.keys := by
      rw [← AList.mem_keys, ← AList.lookup_isSome]
      exact Option.isSome_iff_exists.mpr ⟨c, hc⟩
    rw [hkeys] at hid
    exact List.mem_singleton.mp hid
  rw [hc, Option.map_some, Option.some.injEq, Prod.mk.injEq, decide_eq_true_eq] at hconn
  constructor
  · rintro ⟨since, latest, -, hlatest, -, hnew⟩
    cases hlast.symm.trans hlatest
    rw [hnow, htimeout] at hnew
    exact absurd hnew (by decide)
  · rintro ⟨hback, -⟩
    rcases hback with hback | hback
    · exact Nat.not_le_of_lt hconn.1 hback
    · rw [hconn.2] at hback
      cases hback

/-- The first byte came 35 seconds ago and the second one 15: the connection stays. -/
theorem read_stalls_dripping : ∃ t : Timed, t.Reachable ∧ ¬ t.NoneStalled := by
  have hrun : ((twoBytes (15 * 10 ^ 9)).foldlM step start).map (fun t =>
      ((t.checkReadStalls.server.conn 1).isSome, (t.clocks 1).received, t.now, t.timeout)) =
      some (true, [(0, 0), (0, 20 * 10 ^ 9)], 35 * 10 ^ 9, 30 * 10 ^ 9) := by decide
  obtain ⟨t, ht, hfacts⟩ := Option.map_eq_some_iff.mp hrun
  simp only [Prod.mk.injEq] at hfacts
  obtain ⟨hconn, hreceived, hnow, htimeout⟩ := hfacts
  obtain ⟨c, hc⟩ := Option.isSome_iff_exists.mp hconn
  have hsince : (t.clocks 1).incompleteSince = some 0 := by
    rw [ReadClock.incompleteSince_of_more (by rw [hreceived]; rfl), hreceived]
    rfl
  refine ⟨t, reachable_twoBytes ht, fun hnone => ?_⟩
  have hyoung := hnone 1 c hc 0 hsince
  rw [hnow, htimeout] at hyoung
  exact absurd hyoung (by decide)

end Timed

end StreamForge
