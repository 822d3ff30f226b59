import StreamForge.Net.RequestOrder

/-!
# The event loop and the blocking connection

`Connection::run` reads one frame after the other with `recv_exact` and handles
each as it comes, so it handles the frames of the stream, however it arrives
(`Connection.run_eq`).

The event loop gives the same requests to the workers, as long as the connection
is open. But it may close a connection that still has requests: those that are
pending behind the one in flight, and those among the bytes that arrived together
with the end of the stream. A closed connection was served like a blocking one
exactly if the step that closed it found nothing of this kind (`NothingLost`).
-/

namespace StreamForge

open BigEndian Incremental Transition

/-! ## The blocking connection -/

namespace Connection

/-- `recv_exact` on the pieces of the stream that are still to come: a `recv` takes
a whole piece, or as much of it as is asked for. -/
def recvExact : ℕ → List Bytes → Option (Bytes × List Bytes)
  | 0, pieces => some ([], pieces)
  | _ + 1, [] => none
  | n + 1, piece :: rest =>
    if n + 1 < piece.length then some (piece.take (n + 1), piece.drop (n + 1) :: rest)
    else (recvExact (n + 1 - piece.length) rest).map fun p => (piece ++ p.1, p.2)

/-- The loop of `Connection::run`, with the requests that it hands to
`handle_request`; all its sends succeed. Every frame takes at least nine bytes. -/
def loop : ℕ → List Bytes → List Frame
  | 0, _ => []
  | fuel + 1, pieces =>
    match recvExact 4 pieces with
    | none => []
    | some (lengthBuf, pieces) =>
      let length := readU32 lengthBuf
      if length < headerSize then []
      else if maxFrameLength < length then []
      else
        match recvExact length pieces with
        | none => []
        | some (payload, pieces) =>
          { length
            type := payload.headD 0
            requestId := UInt32.ofNat (readU32 (payload.drop 1))
            body := if headerSize < length then payload.drop headerSize else [] } ::
            loop fuel pieces

def run (pieces : List Bytes) : List Frame := loop (pieces.flatten.length + 1) pieces

variable {n : ℕ} {pieces : List Bytes}

theorem recvExact_some (h : n ≤ pieces.flatten.length) :
    ∃ rest, recvExact n pieces = some (pieces.flatten.take n, rest) ∧
      rest.flatten = pieces.flatten.drop n := by
  induction pieces generalizing n with
  | nil =>
    obtain rfl : n = 0 := Nat.le_zero.mp h
    exact ⟨[], rfl, rfl⟩
  | cons piece pieces ih =>
    cases n with
    | zero => exact ⟨piece :: pieces, rfl, rfl⟩
    | succ n =>
      rw [List.flatten_cons, List.length_append] at h
      rw [recvExact]
      split
      · rename_i hless
        refine ⟨piece.drop (n + 1) :: pieces, ?_, ?_⟩
        · rw [List.flatten_cons, List.take_append_of_le_length hless.le]
        · rw [List.flatten_cons, List.flatten_cons, List.drop_append_of_le_length hless.le]
      · rename_i hall
        obtain ⟨rest, hrest, hflatten⟩ := ih (n := n + 1 - piece.length) (by omega)
        have htake : piece.take (n + 1) = piece := List.take_of_length_le (by omega)
        have hdrop : piece.drop (n + 1) = [] := List.drop_eq_nil_of_le (by omega)
        refine ⟨rest, ?_, ?_⟩
        · rw [hrest, List.flatten_cons, List.take_append, Option.map_some, htake]
        · rw [hflatten, List.flatten_cons, List.drop_append, hdrop, List.nil_append]

theorem recvExact_none (h : pieces.flatten.length < n) : recvExact n pieces = none := by
  induction pieces generalizing n with
  | nil =>
    obtain ⟨n, rfl⟩ := Nat.exists_eq_add_of_lt h
    rfl
  | cons piece pieces ih =>
    rw [List.flatten_cons, List.length_append] at h
    cases n with
    | zero => omega
    | succ n =>
      rw [recvExact, if_neg (by omega), ih (by omega)]
      rfl

theorem readU32_take (h : 4 ≤ n) (bytes : Bytes) : readU32 (bytes.take n) = readU32 bytes := by
  unfold readU32
  rw [List.take_take, Nat.min_eq_left h]

theorem payload_fields {length : ℕ} {bytes : Bytes} (hmin : headerSize ≤ length)
    (hlen : length ≤ bytes.length) :
    (bytes.take length).headD 0 = bytes.headD 0 ∧
      readU32 ((bytes.take length).drop 1) = readU32 (bytes.drop 1) ∧
      (if headerSize < length then (bytes.take length).drop headerSize else []) =
        (bytes.drop 5).take (length - headerSize) := by
  unfold headerSize at hmin
  refine ⟨?_, ?_, ?_⟩
  · cases bytes with
    | nil => simp
    | cons b bytes =>
      obtain ⟨n, rfl⟩ := Nat.exists_eq_add_of_le' hmin
      rfl
  · rw [List.drop_take, readU32_take (by omega)]
  · split
    · rw [List.drop_take]
      rfl
    · rename_i hle
      rw [Nat.sub_eq_zero_of_le (Nat.le_of_not_lt hle), List.take_zero]

theorem loop_item (fuel : ℕ) {f : Frame} {left : Bytes}
    (h : nextFrame pieces.flatten = .item f left) :
    ∃ rest : List Bytes, rest.flatten = left ∧ loop (fuel + 1) pieces = f :: loop fuel rest := by
  obtain ⟨hmin, herror, hlen, rfl, rfl⟩ := nextFrame_item h
  obtain ⟨-, hmax⟩ := lengthError_eq_none herror
  have hfour : 4 ≤ pieces.flatten.length := by omega
  obtain ⟨rest₁, hlength, hrest₁⟩ := recvExact_some hfour
  have hread := readU32_take (Nat.le_refl 4) pieces.flatten
  have hleft : readU32 pieces.flatten ≤ rest₁.flatten.length := by
    rw [hrest₁, List.length_drop]
    omega
  obtain ⟨rest, hpayload, hrest⟩ := recvExact_some hleft
  obtain ⟨htype, hid, hbody⟩ := payload_fields hmin hleft
  refine ⟨rest, ?_, ?_⟩
  · rw [hrest, hrest₁, List.drop_drop]
  · rw [loop, hlength]
    simp only [hread]
    rw [if_neg (by omega), if_neg (by omega), hpayload]
    simp only [htype, hid, hbody]
    simp only [hrest₁, List.drop_drop]

variable {fuel : ℕ}

theorem loop_done (h : ∀ f left, nextFrame pieces.flatten ≠ .item f left) :
    loop (fuel + 1) pieces = [] := by
  rw [loop]
  rcases Nat.lt_or_ge pieces.flatten.length 4 with hshort | hfour
  · rw [recvExact_none hshort]
  · obtain ⟨rest₁, hlength, hrest₁⟩ := recvExact_some hfour
    have hread := readU32_take (Nat.le_refl 4) pieces.flatten
    rw [hlength]
    simp only [hread]
    split
    · rfl
    · rename_i hmin
      split
      · rfl
      · rename_i hmax
        -- The length is fine, so that the payload is not complete.
        have hmore : rest₁.flatten.length < readU32 pieces.flatten := by
          by_contra hlen
          rw [hrest₁, List.length_drop] at hlen
          have herror : lengthError (readU32 pieces.flatten) = none := by
            unfold lengthError
            rw [if_neg hmin, if_neg hmax]
          rw [nextFrame_eq hfour, herror, Option.elim_none, if_neg (by omega)] at h
          exact h _ _ rfl
        rw [recvExact_none hmore]

theorem loop_eq (hfuel : pieces.flatten.length < fuel) :
    loop fuel pieces = frames.items pieces.flatten := by
  induction fuel generalizing pieces with
  | zero => exact absurd hfuel (Nat.not_lt_zero _)
  | succ fuel ih =>
    cases hnext : nextFrame pieces.flatten with
    | item f left =>
      obtain ⟨rest, rfl, hloop⟩ := loop_item fuel hnext
      have hless := frames.shorter hnext
      rw [hloop, ih (by omega), Scanner.items_item (s := frames) hnext]
    | more =>
      rw [loop_done (by rw [hnext]; simp), Scanner.items, Scanner.scan_more (s := frames) hnext]
    | stop e =>
      rw [loop_done (by rw [hnext]; simp), Scanner.items, Scanner.scan_stop (s := frames) hnext]

/-- **The blocking connection handles the frames of the stream**, in whatever
pieces it arrives. -/
theorem run_eq (pieces : List Bytes) : run pieces = frames.items pieces.flatten :=
  loop_eq (Nat.lt_succ_self _)

end Connection

/-! ## The event loop -/

/-- No frame begins with these bytes, whatever follows: the length field is too large
however it goes on, or it is complete and too small. -/
def NoFrameFollows (bytes : Bytes) : Prop :=
  maxFrameLength < readU32 (bytes ++ [0, 0, 0, 0]) ∨ 4 ≤ bytes.length ∧ readU32 bytes < headerSize

section Follows

variable {bytes more : Bytes}

theorem readU32_followed (h : 4 ≤ (bytes ++ more).length) : readU32 (bytes ++ more) =
    readU32 (bytes ++ [0, 0, 0, 0]) + ofBE (more.take (4 - bytes.length)) := by
  rw [List.length_append] at h
  have hlength : (more.take (4 - bytes.length)).length = 4 - bytes.length := by
    rw [List.length_take]
    omega
  have hzeros : ([0, 0, 0, 0] : Bytes).take (4 - bytes.length) =
      List.replicate (4 - bytes.length) 0 := by
    rw [show ([0, 0, 0, 0] : Bytes) = List.replicate 4 0 from rfl, List.take_replicate]
    congr 1
    omega
  unfold readU32
  rw [List.take_append, List.take_append, ofBE_append, ofBE_append, hzeros, hlength,
    List.length_replicate, ofBE_zeros]
  rfl

theorem exists_frame_of_follows (h : ¬NoFrameFollows bytes) :
    ∃ more f rest, nextFrame (bytes ++ more) = .item f rest := by
  unfold NoFrameFollows at h
  rw [not_or, not_and, Nat.not_lt, Nat.not_lt] at h
  obtain ⟨hmax, hmin⟩ := h
  set base := readU32 (bytes ++ [0, 0, 0, 0]) with hbase
  -- a length field that is at least 5, and zeros behind it
  obtain ⟨n, hn, hlow, hhigh⟩ : ∃ n, n < 256 ^ (4 - bytes.length) ∧ headerSize ≤ base + n ∧
      base + n ≤ maxFrameLength := by
    by_cases hbig : headerSize ≤ base
    · exact ⟨0, Nat.pow_pos (by decide), hbig, hmax⟩
    · refine ⟨headerSize, ?_, Nat.le_add_left _ _, ?_⟩
      · have hshort : bytes.length < 4 := by
          by_contra hfour
          rw [hbase, readU32_append (by omega)] at hbig
          exact hbig (hmin (by omega))
        exact lt_of_lt_of_le (by decide) (Nat.pow_le_pow_right (by decide)
          (show 1 ≤ 4 - bytes.length by omega))
      · unfold headerSize maxFrameLength at *
        omega
  let more := toBE (4 - bytes.length) n ++ List.replicate maxFrameLength 0
  have hlength : (bytes ++ more).length = bytes.length + (4 - bytes.length) + maxFrameLength := by
    simp [more, Nat.add_assoc]
  have hread : readU32 (bytes ++ more) = base + n := by
    rw [readU32_followed (by omega), List.take_left' (length_toBE _ _), ofBE_toBE_of_lt hn]
  have herror : lengthError (base + n) = none := by
    unfold lengthError
    rw [if_neg (by omega), if_neg (by omega)]
  refine ⟨more, ?_⟩
  rw [nextFrame_eq (by omega), hread, herror, Option.elim_none, if_neg (by omega)]
  exact ⟨_, _, rfl⟩

theorem not_follows_of_item {f : Frame} {rest : Bytes}
    (h : nextFrame (bytes ++ more) = .item f rest) : ¬NoFrameFollows bytes := by
  obtain ⟨hmin, herror, hlen, -, -⟩ := nextFrame_item h
  obtain ⟨-, hmax⟩ := lengthError_eq_none herror
  rintro (hlarge | ⟨hfour, hsmall⟩)
  · rw [readU32_followed (by omega)] at hmax
    omega
  · rw [readU32_append hfour] at hmin
    omega

theorem noFrameFollows_iff : NoFrameFollows bytes ↔ ∀ more, frames.items (bytes ++ more) = [] := by
  constructor
  · intro h more
    refine congrArg Prod.fst (Scanner.scan_of_no_item ?_)
    intro f rest hitem
    exact not_follows_of_item hitem h
  · intro h
    by_contra hfollows
    obtain ⟨more, f, rest, hitem⟩ := exists_frame_of_follows hfollows
    have hnil := h more
    rw [Scanner.items_item (s := frames) hitem] at hnil
    cases hnil

theorem NoFrameFollows.of_stop {e : LengthError} (h : nextFrame bytes = .stop e) :
    NoFrameFollows bytes := by
  refine noFrameFollows_iff.mpr fun more => ?_
  exact congrArg Prod.fst (Scanner.scan_stop (frames.stop_append more h))

end Follows

namespace ConnectionState

/-- How many of the frames ahead a step that closes the connection still starts. It
parses what it has received only before a length that no frame has, and starts the
first frame if no request is in flight. -/
def starts (c : ConnectionState) : ServerAction → ℕ
  | .serve ev =>
    if ev.hangUp || (c.handleOutput ev.writable).2 || c.inFlight then 0
    else
      match ev.readable with
      | some (_, .wouldBlock) => 1
      | _ => 0
  | _ => 0

/-- The step that closes the connection drops no request: none is pending, the
complete frames that were not parsed or not even received are started by the step
itself, and no more will come, because the client has finished or the bytes go on
with a length that no frame has. -/
structure NothingLost (c : ConnectionState) (a : ServerAction) : Prop where
  pending : c.pendingRequests = []
  started : (frames.items c.requests.ahead).length ≤ c.starts a
  no_more : c.socket.finished = true ∨ NoFrameFollows (frames.left c.requests.ahead)

/-- No request is left with the connection, and none will come. -/
def NothingLeft (c : ConnectionState) : Prop :=
  c.pendingRequests = [] ∧ frames.items c.requests.ahead = [] ∧
    (c.socket.finished = true ∨ NoFrameFollows (frames.left c.requests.ahead))

/-- **The extraction loop, when it ends without a SHUTDOWN**: all frames are taken, and
those that are not started at once are pending. -/
structure Extracted (c : ConnectionState) (p : FrameExtractResult × ServeResult) : Prop where
  unread : p.2.conn.assembler.unread = frames.left c.assembler.unread
  pending : p.2.conn.pendingRequests =
    c.pendingRequests ++ (frames.items c.assembler.unread).drop (if c.inFlight then 0 else 1)
  socket : p.2.conn.socket = c.socket
  error : p.1 ≠ .NeedMoreData → ∃ e, nextFrame p.2.conn.assembler.unread = .stop e

theorem Extracted.of_no_item {c : ConnectionState} {res : FrameExtractResult}
    (hscan : frames.scan c.assembler.unread = ([], c.assembler.unread))
    (herror : res ≠ .NeedMoreData → ∃ e, nextFrame c.assembler.unread = .stop e) :
    Extracted c (res, { conn := c }) := by
  refine ⟨?_, ?_, rfl, herror⟩
  · rw [Scanner.left, hscan]
  · rw [Scanner.items, hscan, List.drop_nil, List.append_nil]

theorem extractLoop_extracted (reply : SendOutcome) (c : ConnectionState) :
    let p := extractLoop reply (c.assembler.bufferedBytes + 1) c
    p.1 ≠ .FrameReady → Extracted c p := by
  refine extractLoop_rule (R := fun c p => p.1 ≠ .FrameReady → Extracted c p)
    ?more ?stop ?shutdown ?request c (Nat.lt_succ_self _)
  case more =>
    intro c hnext _
    exact .of_no_item (Scanner.scan_more hnext) fun h => absurd rfl h
  case stop =>
    intro c e hnext _
    exact .of_no_item (Scanner.scan_stop hnext) fun _ => ⟨e, hnext⟩
  case shutdown => exact fun c f a _ _ h => absurd rfl h
  case request =>
    intro c f a next hnext _ ih hready
    obtain ⟨hunread, hpending, hsocket, herror⟩ := ih hready
    have hitems := Scanner.items_item (s := frames) hnext
    have hleft := Scanner.left_item (s := frames) hnext
    unfold takeRequest request at hunread hpending hsocket
    cases hflight : c.inFlight with
    | true =>
      simp only [takeFrame, hflight, if_true] at hunread hpending hsocket
      refine ⟨?_, ?_, hsocket, herror⟩
      · rw [hleft]
        exact hunread
      · rw [hitems, hflight]
        simpa using hpending
    | false =>
      simp only [takeFrame, dispatch, hflight, Bool.false_eq_true, if_false]
        at hunread hpending hsocket
      refine ⟨?_, ?_, hsocket, herror⟩
      · rw [hleft]
        exact hunread
      · rw [hitems, hflight]
        simpa using hpending

end ConnectionState

/-- All that the client of a closed connection sends: what it had sent until then,
and what it sends afterwards unless it had finished. -/
structure Trace.SentInAll (t : Trace) (stream : Bytes) : Prop where
  begins : t.stream <+: stream
  finished : t.finished = true → stream = t.stream

namespace Server

variable {s s₀ s' : Server} {id : UInt64} {c : ConnectionState} {r : ServeResult} {a : ServerAction}
variable {Handles : Frame → Frame → Prop}

/-- The requests of the connection with this serial number that were given to
`handle_request` or wait for a worker, in this order. -/
def given (s : Server) (serial : ℕ) : List Frame :=
  ((s.handled ++ s.taskQueue).filter fun t => t.serial = serial).map Task.request

/-- **A closed connection was served like a blocking one**: the requests given to
`handle_request` are those that `Connection::run` hands to it when the client sends
the same, in whatever pieces. -/
def ServedAsBlocking (s : Server) (t : Trace) : Prop :=
  ∀ pieces : List Bytes, t.SentInAll pieces.flatten → s.given t.serial = Connection.run pieces

/-- The frames that were started are all there are, also in what the client may send
afterwards. -/
def Complete (t : Trace) : Prop := ∀ stream, t.SentInAll stream → t.dispatched = frames.items stream

/-- The runs to `s` in which the step `a` found the connection `c`, closed it and left
the trace `t`. -/
inductive ClosedBy (Handles : Frame → Frame → Prop) :
    Server → Trace → ConnectionState → ServerAction → Prop where
  | closes {s s₀ : Server} {id : UInt64} {c : ConnectionState} {r : ServeResult}
      {a : ServerAction} : Reachable Handles FreshIds s → s.target a = some id →
      s.conn id = some c → Works s c a s₀ r → r.closed = true →
      ClosedBy Handles (s₀.settle r) { r.conn.trace with finished := r.conn.socket.finished } c a
  | later {s s' : Server} {t : Trace} {c : ConnectionState} {a b : ServerAction} :
      ClosedBy Handles s t c a → FreshIds s b → s.Step Handles b s' → ClosedBy Handles s' t c a

structure GivenInv (s : Server) : Prop where
  live : ∀ id c, s.conn id = some c → s.given c.trace.serial = c.trace.dispatched
  gone : ∀ t ∈ s.gone, s.given t.serial = t.dispatched ∧ t.serial < s.accepted
  apart : ∀ t ∈ s.gone, ∀ id c, s.conn id = some c → c.trace.serial ≠ t.serial
  tasks : ∀ t ∈ s.handled ++ s.taskQueue, t.serial < s.accepted

/-- **What is missing at a close**, on the connection that the step leaves. -/
theorem complete_iff (hsorted : c.requests.Sorted) (hrunning : c.trace.stopping = false) :
    Complete { c.trace with finished := c.socket.finished } ↔ c.NothingLeft := by
  have hreceived : c.trace.received = c.trace.dispatched ++ c.pendingRequests :=
    hsorted.nothing_else hrunning
  have hitems : ∀ more, frames.items (c.trace.stream ++ more) = c.trace.dispatched ++
      (c.pendingRequests ++ (frames.items c.requests.ahead ++
        frames.items (frames.left c.requests.ahead ++ more))) := by
    intro more
    rw [((show frames.Consumed c.trace.stream c.trace.received c.requests.ahead from
      hsorted.consumed).arrive more).items_eq, Scanner.items_append, hreceived, List.append_assoc]
  have hempty : frames.items (frames.left c.requests.ahead ++ []) = [] := by
    rw [List.append_nil]
    exact congrArg Prod.fst (Scanner.scan_left _)
  constructor
  · intro h
    have hnow := h c.trace.stream ⟨List.prefix_rfl, fun _ => rfl⟩
    rw [← List.append_nil c.trace.stream, hitems, hempty, List.append_nil, eq_comm,
      List.append_right_eq_self, List.append_eq_nil_iff] at hnow
    refine ⟨hnow.1, hnow.2, ?_⟩
    by_cases hfinished : c.socket.finished = true
    · exact Or.inl hfinished
    · refine Or.inr (noFrameFollows_iff.mpr fun more => ?_)
      have hlater := h (c.trace.stream ++ more) ⟨List.prefix_append .., fun h => absurd h hfinished⟩
      rw [hitems, hnow.1, hnow.2, List.nil_append, List.nil_append, eq_comm,
        List.append_right_eq_self] at hlater
      exact hlater
  · rintro ⟨hpending, hahead, hmore⟩ stream hstream
    obtain ⟨more, rfl⟩ := hstream.begins
    have hnone : frames.items (frames.left c.requests.ahead ++ more) = [] := by
      rcases hmore with hfinished | hfollows
      · have hnil : more = [] := List.append_right_eq_self.mp (hstream.finished hfinished)
        rw [hnil]
        exact hempty
      · exact noFrameFollows_iff.mp hfollows more
    show c.trace.dispatched = frames.items (c.trace.stream ++ more)
    rw [hitems, hpending, hahead, hnone, List.append_nil, List.append_nil, List.append_nil]

variable {c' : ConnectionState} {pieces : List Bytes} {entry : PollEntry} {ev : Events}

theorem nothingLost_iff_of_same (hpending : c'.pendingRequests = c.pendingRequests)
    (hahead : c'.requests.ahead = c.requests.ahead)
    (hsocket : c'.socket.finished = c.socket.finished) (hstarts : c.starts a = 0) :
    c.NothingLost a ↔ c'.NothingLeft := by
  unfold ConnectionState.NothingLeft
  rw [hpending, hahead, hsocket]
  constructor
  · rintro ⟨hnone, hstarted, hmore⟩
    rw [hstarts, Nat.le_zero, List.length_eq_zero_iff] at hstarted
    exact ⟨hnone, hstarted, hmore⟩
  · rintro ⟨hnone, hframes, hmore⟩
    refine ⟨hnone, ?_, hmore⟩
    rw [hframes]
    exact Nat.zero_le _

theorem nothingLost_iff_of_parsed (hpending : c'.pendingRequests =
      c.pendingRequests ++ (frames.items c.requests.ahead).drop (c.starts a))
    (hahead : c'.requests.ahead = frames.left c.requests.ahead)
    (hfollows : NoFrameFollows (frames.left c.requests.ahead)) :
    c.NothingLost a ↔ c'.NothingLeft := by
  have hleft := @Scanner.scan_left _ _ _ frames c.requests.ahead
  simp only [ConnectionState.NothingLeft, hpending, hahead, List.append_eq_nil_iff, List.drop_eq_nil_iff]
  constructor
  · rintro ⟨hnone, hstarted, -⟩
    refine ⟨⟨hnone, hstarted⟩, congrArg Prod.fst hleft, Or.inr ?_⟩
    rw [Scanner.left, hleft]
    exact hfollows
  · rintro ⟨⟨hnone, hstarted⟩, -, -⟩
    exact ⟨hnone, hstarted, Or.inr hfollows⟩

theorem Inv.serial_ne (hs : s.Inv Handles) {id' : UInt64} (hc : s.conn id = some c)
    (hc' : s.conn id' = some c') (hne : id' ≠ id) :
    c'.trace.serial ≠ c.trace.serial := by
  intro heq
  apply hne
  rw [(hs.live id c hc).id_of, (hs.live id' c' hc').id_of, heq]

theorem settle_given (s : Server) (r : ServeResult) (serial : ℕ) : (s.settle r).given serial =
    s.given serial ++ (r.tasks.filter fun t => t.serial = serial).map Task.request := by
  have hqueues : (s.settle r).handled = s.handled ∧
      (s.settle r).taskQueue = s.taskQueue ++ r.tasks := by
    unfold settle closeConnection setConn
    cases r.closed with
    | true => exact ⟨rfl, rfl⟩
    | false => exact ⟨rfl, rfl⟩
  unfold given
  rw [hqueues.1, hqueues.2, ← List.append_assoc, List.filter_append, List.map_append]

namespace Settles

variable {done : List Completion}

theorem given_self (h : Settles Handles s c s₀ r done)
    (hgiven : s.given c.trace.serial = c.trace.dispatched) :
    (s₀.settle r).given c.trace.serial = r.conn.trace.dispatched := by
  have htasks : (r.tasks.filter fun t => t.serial = c.trace.serial) = r.tasks := by
    rw [List.filter_eq_self]
    intro t ht
    rw [h.tasks t ht]
    exact decide_eq_true rfl
  have hsame : s₀.given c.trace.serial = s.given c.trace.serial := by
    rw [h.server]
    rfl
  rw [settle_given, htasks, hsame, hgiven, h.dispatched]

theorem given_ne (h : Settles Handles s c s₀ r done) {serial : ℕ} (hne : serial ≠ c.trace.serial) :
    (s₀.settle r).given serial = s.given serial := by
  have htasks : (r.tasks.filter fun t => t.serial = serial) = [] := by
    rw [List.filter_eq_nil_iff]
    intro t ht
    rw [h.tasks t ht, decide_eq_true_eq]
    exact hne.symm
  have hsame : s₀.given serial = s.given serial := by
    rw [h.server]
    rfl
  rw [settle_given, htasks, hsame, List.map_nil, List.append_nil]

theorem givenInv (h : Settles Handles s c s₀ r done) (hs : s.Inv Handles) (hg : s.GivenInv)
    (hc : s.conn id = some c) : (s₀.settle r).GivenInv := by
  have hlive := hs.live id c hc
  have hself := h.given_self (hg.live id c hc)
  have hserver : s₀.accepted = s.accepted ∧ s₀.gone = s.gone ∧ s₀.handled = s.handled ∧
      s₀.taskQueue = s.taskQueue ∧ ∀ id, s₀.conn id = s.conn id := by
    rw [h.server]
    exact ⟨rfl, rfl, rfl, rfl, fun _ => rfl⟩
  obtain ⟨haccepted, hgone, hhandled, hqueue, hconn⟩ := hserver
  -- A connection that is live afterwards is this one or was live before.
  have hcases : ∀ id' c', (s₀.settle r).conn id' = some c' →
      c' = r.conn ∧ r.closed = false ∨ s.conn id' = some c' ∧ c'.trace.serial ≠ c.trace.serial := by
    intro id' c' hc'
    rw [settle_conn, h.connId, hlive.id_eq, hconn] at hc'
    split at hc'
    · split at hc'
      · cases hc'
      · rename_i hopen
        cases hc'
        exact .inl ⟨rfl, Bool.eq_false_iff.mpr hopen⟩
    · rename_i hne
      exact .inr ⟨hc', hs.serial_ne hc hc' hne⟩
  refine ⟨?_, ?_, ?_, ?_⟩
  · intro id' c' hc'
    rcases hcases id' c' hc' with ⟨rfl, -⟩ | ⟨hc', hne⟩
    · rw [h.serial]
      exact hself
    · rw [h.given_ne hne]
      exact hg.live id' c' hc'
  · intro t ht
    rw [(settle_same s₀ r).2.1, haccepted]
    rw [settle_gone, hgone] at ht
    have hold : t ∈ s.gone → (s₀.settle r).given t.serial = t.dispatched ∧
        t.serial < s.accepted := by
      intro ht
      rw [h.given_ne (hg.apart t ht id c hc).symm]
      exact hg.gone t ht
    split at ht
    · rcases List.mem_append.mp ht with ht | ht
      · exact hold ht
      · rw [List.mem_singleton.mp ht]
        refine ⟨?_, ?_⟩
        · show (s₀.settle r).given r.conn.trace.serial = r.conn.trace.dispatched
          rw [h.serial]
          exact hself
        · show r.conn.trace.serial < s.accepted
          rw [h.serial]
          exact hlive.serial_lt
    · exact hold ht
  · intro t ht id' c' hc'
    rw [settle_gone, hgone] at ht
    have hold : t ∈ s.gone → c'.trace.serial ≠ t.serial := by
      intro ht
      rcases hcases id' c' hc' with ⟨rfl, -⟩ | ⟨hc', -⟩
      · rw [h.serial]
        exact hg.apart t ht id c hc
      · exact hg.apart t ht id' c' hc'
    split at ht
    · rename_i hclosed
      rcases List.mem_append.mp ht with ht | ht
      · exact hold ht
      · rw [List.mem_singleton.mp ht]
        rcases hcases id' c' hc' with ⟨-, hopen⟩ | ⟨-, hne⟩
        · rw [hopen] at hclosed
          cases hclosed
        · show c'.trace.serial ≠ r.conn.trace.serial
          rw [h.serial]
          exact hne
    · exact hold ht
  · intro t ht
    have hsplit : (s₀.settle r).handled ++ (s₀.settle r).taskQueue =
        (s.handled ++ s.taskQueue) ++ r.tasks := by
      rw [List.append_assoc, ← hhandled, ← hqueue]
      unfold settle closeConnection setConn
      cases r.closed with
      | true => rfl
      | false => rfl
    rw [hsplit] at ht
    rw [(settle_same s₀ r).2.1, haccepted]
    rcases List.mem_append.mp ht with ht | ht
    · exact hg.tasks t ht
    · rw [h.tasks t ht]
      exact hlive.serial_lt

end Settles

theorem GivenInv.accept (hg : s.GivenInv) :
    GivenInv { s.setConn { connId := s.nextConnId, trace := { serial := s.accepted } } with
      nextConnId := s.nextConnId + 1
      accepted := s.accepted + 1 } := by
  have hcases : ∀ id c, (s.connections.insert s.nextConnId
      { connId := s.nextConnId, trace := { serial := s.accepted } }).lookup id = some c →
      c = { connId := s.nextConnId, trace := { serial := s.accepted } } ∨ s.conn id = some c := by
    intro id c hc
    rw [AssocMap.lookup_insert_eq] at hc
    split at hc
    · cases hc
      exact .inl rfl
    · exact .inr hc
  refine ⟨?_, ?_, ?_, ?_⟩
  · intro id c hc
    rcases hcases id c hc with rfl | hc
    · show ((s.handled ++ s.taskQueue).filter fun t => t.serial = s.accepted).map Task.request = []
      rw [List.map_eq_nil_iff, List.filter_eq_nil_iff]
      intro t ht heq
      rw [decide_eq_true_eq] at heq
      exact absurd (hg.tasks t ht) (by omega)
    · exact hg.live id c hc
  · intro t ht
    obtain ⟨hgiven, hlt⟩ := hg.gone t ht
    exact ⟨hgiven, Nat.lt_succ_of_lt hlt⟩
  · intro t ht id c hc
    rcases hcases id c hc with rfl | hc
    · exact (hg.gone t ht).2.ne'
    · exact hg.apart t ht id c hc
  · intro t ht
    exact Nat.lt_succ_of_lt (hg.tasks t ht)

theorem GivenInv.step (hg : s.GivenInv) (hs : s.Inv Handles) (hstep : s.Step Handles a s') :
    s'.GivenInv := by
  cases change_of_step hstep.1 with
  | work htarget hc hworks =>
    obtain ⟨done, hsettles⟩ := hworks.settles hs htarget hc
    exact hsettles.givenInv hs hg hc
  | accept outcome _ => exact hg.accept
  | refuse outcome _ => exact ⟨hg.live, hg.gone, hg.apart, hg.tasks⟩
  | poll order _ _ _ => exact ⟨hg.live, hg.gone, hg.apart, hg.tasks⟩
  | skip ev entry rest _ _ => exact ⟨hg.live, hg.gone, hg.apart, hg.tasks⟩
  | drop outcome comp rest _ _ => exact ⟨hg.live, hg.gone, hg.apart, hg.tasks⟩
  | requestStop => exact ⟨hg.live, hg.gone, hg.apart, hg.tasks⟩
  | pop t rest hqueue _ =>
    -- The task only moves from one list to the other.
    have hsame : (s.handled ++ [t]) ++ rest = s.handled ++ s.taskQueue := by
      rw [hqueue, List.append_assoc]
      rfl
    have hgiven : ∀ serial, ({ s with
        taskQueue := rest, busy := s.busy ++ [t], handled := s.handled ++ [t] } : Server).given
          serial = s.given serial := by
      intro serial
      unfold given
      rw [hsame]
    refine ⟨?_, ?_, hg.apart, ?_⟩
    · intro id c hc
      rw [hgiven]
      exact hg.live id c hc
    · intro t' ht'
      rw [hgiven]
      exact hg.gone t' ht'
    · intro t' ht'
      rw [hsame] at ht'
      exact hg.tasks t' ht'
  | complete i response t _ => exact ⟨hg.live, hg.gone, hg.apart, hg.tasks⟩

theorem GivenInv.of_reachable (h : Reachable Handles FreshIds s) : s.Inv Handles ∧ s.GivenInv := by
  refine Reach.invariant (I := fun s => s.Inv Handles ∧ s.GivenInv) ?_ ?_ h
  · rintro s ⟨config, rfl⟩
    exact ⟨inv_init ⟨config, rfl⟩, ⟨nofun, nofun, nofun, nofun⟩⟩
  · rintro s a s' ⟨hs, hg⟩ hfresh hstep
    exact ⟨hs.step hfresh hstep, hg.step hs hstep⟩

/-! ### The closing step -/

theorem handleInput_closes {reply : SendOutcome} (hpieces : pieces.flatten = c.socket.incoming)
    (hclosed : (c.handleInput pieces .wouldBlock reply).closed = true) :
    let c' := (c.handleInput pieces .wouldBlock reply).conn
    c'.pendingRequests = c.pendingRequests ++
        (frames.items c.requests.ahead).drop (if c.inFlight then 0 else 1) ∧
      c'.requests.ahead = frames.left c.requests.ahead ∧
      NoFrameFollows (frames.left c.requests.ahead) := by
  have hunread : (c.receive pieces).assembler.unread = c.requests.ahead := by
    show (pieces.foldl FrameAssembler.pushBytes c.assembler).unread = _
    rw [ConnectionState.unread_foldl_pushBytes, hpieces]
    rfl
  have hincoming : (c.receive pieces).socket.incoming = [] := by
    show c.socket.incoming.drop pieces.flatten.length = []
    rw [hpieces, List.drop_length]
  -- the loop ends with a bad length, since nothing else closes the connection
  obtain ⟨p, err, hp, hready, hmore, hconn⟩ : ∃ p err,
      p = ConnectionState.extractLoop reply ((c.receive pieces).assembler.bufferedBytes + 1)
        (c.receive pieces) ∧ p.1 ≠ .FrameReady ∧ p.1 ≠ .NeedMoreData ∧
      (c.handleInput pieces .wouldBlock reply).conn.requests =
        (p.2.conn.queueImmediateErrorAndClose err reply).1.requests := by
    unfold ConnectionState.handleInput at hclosed ⊢
    simp only [ne_eq, not_true_eq_false, if_false] at hclosed ⊢
    split at hclosed
    · rename_i r hr
      exact ⟨_, ConnectionState.malformedFrameError, hr.symm, nofun, nofun, rfl⟩
    · rename_i r hr
      exact ⟨_, ConnectionState.frameTooLargeError, hr.symm, nofun, nofun, rfl⟩
    · rename_i r _ _ hr
      have hopen := ConnectionState.closed_extractLoop reply (c.receive pieces)
      rw [hr] at hopen
      exact absurd (hclosed.symm.trans hopen) nofun
  have hloop := ConnectionState.extractLoop_extracted reply (c.receive pieces)
  rw [← hp] at hloop
  obtain ⟨hleft, hpending, hsocket, herror⟩ := hloop hready
  rw [ConnectionState.requests_queueImmediateErrorAndClose] at hconn
  rw [hunread] at hleft hpending
  have hahead : (c.handleInput pieces .wouldBlock reply).conn.requests.ahead =
      frames.left c.requests.ahead := by
    rw [hconn]
    show p.2.conn.assembler.unread ++ p.2.conn.socket.incoming = _
    rw [hsocket, hincoming, List.append_nil, hleft]
  refine ⟨?_, hahead, ?_⟩
  · exact (congrArg Requests.pending hconn).trans hpending
  · obtain ⟨e, hstop⟩ := herror hmore
    rw [hleft] at hstop
    exact .of_stop hstop

theorem fits_wouldBlock (h : fits entry c ev = true)
    (hread : ev.readable = some (pieces, .wouldBlock)) :
    pieces.flatten = c.socket.incoming := by
  unfold fits at h
  rw [hread] at h
  simp only [Bool.and_eq_true, decide_eq_true_eq] at h
  exact h.2.2.1

/-- The pass over a connection closes it before it parses, or at a bad length. -/
theorem serve_nothingLost_iff (hfits : fits entry c ev = true)
    (hclosed : (c.serve ev).closed = true) :
    c.NothingLost (.serve ev) ↔ (c.serve ev).conn.NothingLeft := by
  have hrequests := ConnectionState.requests_handleOutput c ev.writable
  have hsocket := ConnectionState.socket_handleOutput c ev.writable
  have hstarts : c.starts (.serve ev) =
      if ev.hangUp || (c.handleOutput ev.writable).2 || c.inFlight then 0
      else
        match ev.readable with
        | some (_, .wouldBlock) => 1
        | _ => 0 := rfl
  unfold ConnectionState.serve at hclosed ⊢
  cases hhang : ev.hangUp with
  | true =>
    simp only [if_true]
    exact nothingLost_iff_of_same rfl rfl rfl (by rw [hstarts, hhang]; rfl)
  | false =>
    obtain ⟨c₁, closes, hout⟩ : ∃ c₁ closes, c.handleOutput ev.writable = (c₁, closes) :=
      ⟨_, _, rfl⟩
    rw [hhang, hout] at hstarts
    rw [hout] at hrequests hsocket
    have hpending : c₁.pendingRequests = c.pendingRequests := congrArg Requests.pending hrequests
    have hahead : c₁.requests.ahead = c.requests.ahead := congrArg Requests.ahead hrequests
    have hfinished : c₁.socket.finished = c.socket.finished := congrArg Socket.finished hsocket
    simp only [hhang, hout, Bool.false_eq_true, if_false] at hclosed ⊢
    cases closes with
    | true => exact nothingLost_iff_of_same hpending hahead hfinished (by rw [hstarts]; rfl)
    | false =>
      cases hread : ev.readable with
      | none =>
        rw [hread] at hclosed
        cases hclosed
      | some p =>
        obtain ⟨pieces, ending⟩ := p
        rw [hread] at hclosed hstarts
        have hprefix := ConnectionState.fits_pieces hfits hread
        rw [← hsocket] at hprefix
        have hreceive := congrArg Requests.ahead (ConnectionState.requests_receive hprefix)
        cases ending with
        | closed =>
          refine nothingLost_iff_of_same hpending (hreceive.trans hahead) hfinished ?_
          rw [hstarts]
          split <;> rfl
        | failed =>
          refine nothingLost_iff_of_same hpending (hreceive.trans hahead) hfinished ?_
          rw [hstarts]
          split <;> rfl
        | wouldBlock =>
          have hall := fits_wouldBlock hfits hread
          rw [← hsocket] at hall
          obtain ⟨hpending', hahead', hfollows⟩ := handleInput_closes hall hclosed
          have hflight : c₁.inFlight = c.inFlight := congrArg Requests.inFlight hrequests
          have hcount : c.starts (.serve ev) = if c.inFlight then 0 else 1 := by
            rw [hstarts]
            rfl
          rw [hahead] at hpending' hahead' hfollows
          rw [hpending, hflight, ← hcount] at hpending'
          exact nothingLost_iff_of_parsed hpending' hahead' hfollows

/-- **The closing step decides**, by cases of what closes the connection. -/
theorem Works.complete_iff (h : Works s c a s₀ r) (hs : s.Inv Handles)
    (htarget : s.target a = some id) (hc : s.conn id = some c) (hclosed : r.closed = true)
    (hrunning : r.conn.trace.stopping = false) :
    Complete { r.conn.trace with finished := r.conn.socket.finished } ↔ c.NothingLost a := by
  obtain ⟨done, hsettles⟩ := h.settles hs htarget hc
  rw [Server.complete_iff hsettles.sorted hrunning, iff_comm]
  cases h with
  | clientSend id' bytes _ => cases hclosed
  | clientClose id' => cases hclosed
  | serve ev entry rest _ hfits => exact serve_nothingLost_iff hfits hclosed
  | complete outcome comp rest _ =>
    rcases ConnectionState.complete_requests c s.config.maxOutputBufferBytes comp outcome with
      hr | ⟨c', -, hr⟩
    · rw [hr]
      exact nothingLost_iff_of_same rfl rfl rfl rfl
    · rw [hr, (ConnectionState.dispatchNext_requests c').2.2.1] at hclosed
      cases hclosed
  | closeStalled id' _ => exact nothingLost_iff_of_same rfl rfl rfl rfl
  | finish id' outcome _ _ => exact nothingLost_iff_of_same rfl rfl rfl rfl

theorem step_gone (h : s.step a = some s') : s'.gone = s.gone ∨ ∃ id c s₀ r, s.target a = some id ∧
    s.conn id = some c ∧ Works s c a s₀ r ∧ r.closed = true ∧ s' = s₀.settle r ∧
    s'.gone = s.gone ++ [{ r.conn.trace with finished := r.conn.socket.finished }] := by
  cases change_of_step h with
  | @work _ id c s₀ r htarget hc hworks =>
    have hsame : s₀.gone = s.gone := by rw [hworks.server.1]
    cases hclosed : r.closed with
    | true =>
      refine .inr ⟨id, c, s₀, r, htarget, hc, hworks, hclosed, rfl, ?_⟩
      rw [settle_gone, if_pos hclosed, hsame]
    | false =>
      refine .inl ?_
      rw [settle_gone, if_neg (Bool.eq_false_iff.mp hclosed), hsame]
  | accept outcome _ => exact .inl rfl
  | refuse outcome _ => exact .inl rfl
  | poll order _ _ _ => exact .inl rfl
  | skip ev entry rest _ _ => exact .inl rfl
  | drop outcome comp rest _ _ => exact .inl rfl
  | requestStop => exact .inl rfl
  | pop t rest _ _ => exact .inl rfl
  | complete i response t _ => exact .inl rfl

variable {t : Trace}

theorem freshIds_of_target (h : s.target a = some id) : FreshIds s a := by
  rintro outcome rfl
  cases h

theorem ClosedBy.reachable (h : ClosedBy Handles s t c a) : Reachable Handles FreshIds s := by
  induction h with
  | @closes s s₀ id c r a hreach htarget hc hworks _ =>
    refine hreach.step (freshIds_of_target htarget) ⟨hworks.step_eq htarget hc, ?_⟩
    rintro i response t rfl
    cases htarget
  | later _ hfresh hstep ih => exact ih.step hfresh hstep

theorem ClosedBy.mem_gone (h : ClosedBy Handles s t c a) : t ∈ s.gone := by
  induction h with
  | @closes s s₀ id c r a _ _ _ _ hclosed =>
    rw [settle_gone, if_pos hclosed]
    exact List.mem_append_right _ (List.mem_singleton_self _)
  | later _ _ hstep ih =>
    rcases step_gone hstep.1 with hsame | ⟨_, _, _, _, -, -, -, -, -, hgone⟩
    · exact hsame ▸ ih
    · exact hgone ▸ List.mem_append_left _ ih

theorem ClosedBy.complete_iff (h : ClosedBy Handles s t c a) (hrunning : t.stopping = false) :
    Complete t ↔ c.NothingLost a := by
  induction h with
  | closes hreach htarget hc hworks hclosed =>
    exact hworks.complete_iff (GivenInv.of_reachable hreach).1 htarget hc hclosed hrunning
  | later _ _ _ ih => exact ih hrunning

theorem servedAsBlocking_iff (hgiven : s.given t.serial = t.dispatched) :
    s.ServedAsBlocking t ↔ Complete t := by
  unfold ServedAsBlocking Complete
  rw [hgiven]
  constructor
  · intro h stream hstream
    rw [h [stream] (by rwa [List.flatten_singleton]), Connection.run_eq, List.flatten_singleton]
  · intro h pieces hpieces
    rw [h _ hpieces, Connection.run_eq]

theorem exists_closedBy (h : Reachable Handles FreshIds s) :
    ∀ t ∈ s.gone, ∃ c a, ClosedBy Handles s t c a := by
  induction h with
  | init hinit =>
    obtain ⟨config, rfl⟩ := hinit
    nofun
  | @step s s' b hreach hfresh hstep ih =>
    intro t ht
    have hlater : t ∈ s.gone → ∃ c a, ClosedBy Handles s' t c a := by
      intro hold
      obtain ⟨c, a, hclosed⟩ := ih t hold
      exact ⟨c, a, hclosed.later hfresh hstep⟩
    rcases step_gone hstep.1 with hsame | ⟨id, c, s₀, r, htarget, hc, hworks, hclosed, rfl, hgone⟩
    · exact hlater (hsame ▸ ht)
    · rcases List.mem_append.mp (hgone ▸ ht) with ht | ht
      · exact hlater ht
      · rw [List.mem_singleton.mp ht]
        exact ⟨c, b, .closes hreach htarget hc hworks hclosed⟩

/-- **The event loop executes the requests of the blocking connection** on each
connection exactly if the step that closes it drops none. -/
theorem served_as_blocking (h : Reachable Handles FreshIds s) :
    (∀ t ∈ s.gone, ∃ c a, ClosedBy Handles s t c a) ∧
      ∀ t c a, ClosedBy Handles s t c a → t.stopping = false →
        (s.ServedAsBlocking t ↔ c.NothingLost a) := by
  refine ⟨exists_closedBy h, ?_⟩
  intro t c a hclosed hrunning
  have hgiven := ((GivenInv.of_reachable h).2.gone t hclosed.mem_gone).1
  rw [servedAsBlocking_iff hgiven, hclosed.complete_iff hrunning]

/-! ### Two closed connections -/

def ping : Frame := ⟨5, MessageType.PING, 7, []⟩

theorem run_ping : Connection.run [FrameCodec.encode ping] = [ping] := by
  have hscan : frames.scan ([ping].flatMap FrameCodec.encode) = ([ping].map Frame.sized, []) :=
    scan_encoded (by simp [ping])
  rw [Connection.run_eq, Scanner.items]
  rw [List.flatMap_singleton] at hscan
  rw [List.flatten_singleton, hscan]
  rfl

/-- Two PINGs in one piece: the second is started when the first is answered, and only
then the client closes its side. -/
theorem served_as_blocking_ping : ∃ s t c a, ClosedBy (fun _ _ => True) s t c a ∧
    s.ServedAsBlocking t ∧ s.given t.serial = [ping, ping] := by
  have hinit : Reachable (fun _ _ => True) FreshIds { config := oneWorker } :=
    .init ⟨oneWorker, rfl⟩
  have hconnect := hinit.step (a := .connect .wouldBlock) (fun _ _ _ => by decide)
    ⟨rfl, fun _ _ _ h => by cases h⟩
  have hasked := Reachable.run [.clientSend 1 (FrameCodec.encode ping ++ FrameCodec.encode ping),
    .poll [1], .serve { readable := some ([FrameCodec.encode ping ++ FrameCodec.encode ping],
      .wouldBlock) }, .pop, .complete 0 ping, .processCompletion (.sent 100), .clientClose 1,
    .poll [1]] hconnect rfl (by rintro s a ha outcome rfl; simp at ha) fun _ _ _ _ => trivial
  have hclosed := ClosedBy.closes hasked (a := .serve { readable := some ([], .closed) }) rfl rfl
    (.serve _ _ [] rfl rfl) rfl
  have hnone : (frames.items ([] : Bytes)).length ≤ 0 := by
    rw [Scanner.items, Scanner.scan_more (s := frames) rfl]
    exact Nat.le_refl _
  refine ⟨_, _, _, _, hclosed, ?_, rfl⟩
  exact ((served_as_blocking hclosed.reachable).2 _ _ _ hclosed rfl).mpr ⟨rfl, hnone, .inl rfl⟩

theorem ping_before_close_dropped : ∃ s : Server,
    Reachable (fun _ _ => True) (fun _ _ => True) s ∧ ∃ t ∈ s.gone, t.stopping = false ∧
      t.finished = true ∧ t.stream = FrameCodec.encode ping ∧ s.given t.serial = [] := by
  have hinit : Reachable (fun _ _ => True) (fun _ _ => True) { config := oneWorker } :=
    .init ⟨oneWorker, rfl⟩
  have hrun := hinit.run [.connect .wouldBlock, .clientSend 1 (FrameCodec.encode ping),
    .clientClose 1, .poll [1], .serve { readable := some ([FrameCodec.encode ping], .closed) }] rfl
    (fun _ _ _ => trivial) fun _ _ _ _ => trivial
  exact ⟨_, hrun, _, List.mem_cons_self .., rfl, rfl, rfl, rfl⟩

/-- **A request that the blocking connection handles is dropped.** -/
theorem request_before_close_dropped : ∃ s : Server,
    Reachable (fun _ _ => True) (fun _ _ => True) s ∧
      ∃ t ∈ s.gone, t.stopping = false ∧ ¬ s.ServedAsBlocking t := by
  obtain ⟨s, hreach, t, ht, hrunning, hfinished, hstream, hgiven⟩ := ping_before_close_dropped
  refine ⟨s, hreach, t, ht, hrunning, fun h => ?_⟩
  have hserved := h [FrameCodec.encode ping] ⟨by simp [hstream], by simp [hstream]⟩
  rw [hgiven, run_ping] at hserved
  cases hserved

end Server

end StreamForge
