import StreamForge.Net.TcpServer

/-!
# What one step of the server can do

The steps of `Server.step` in two groups. `Works` lists those in which the I/O
thread or a client acts on one connection; all of them end in `Server.settle`.
`Change` adds the steps that leave the connections alone. Every invariant of the
server goes by these cases and by `extractLoop_rule`, which says what one round
of the extraction loop does.
-/

namespace StreamForge

open Incremental

/-! ## The extraction loop -/

namespace ConnectionState

variable {c : ConnectionState} {f : Frame} {rest : Bytes} (reply : SendOutcome) (fuel : ℕ)

def takeRequest (c : ConnectionState) (f : Frame) (assembler : FrameAssembler) : ServeResult :=
  let p := (c.takeFrame f assembler).request f
  { conn := p.1, tasks := p.2 }

def takeShutdown (c : ConnectionState) (f : Frame) (assembler : FrameAssembler)
    (reply : SendOutcome) : ServeResult :=
  { conn := (c.takeFrame f assembler).sendShutdownOk f reply, stop := true }

theorem extractLoop_item (h : nextFrame c.assembler.unread = .item f rest) :
    ∃ a : FrameAssembler, a.unread = rest ∧ extractLoop reply (fuel + 1) c =
      if f.type = MessageType.SHUTDOWN then (.FrameReady, c.takeShutdown f a reply)
      else
        let r := c.takeRequest f a
        let next := extractLoop reply fuel r.conn
        (next.1, { next.2 with tasks := r.tasks ++ next.2.tasks }) := by
  obtain ⟨a, hextract, hrest⟩ := FrameAssembler.extractNextFrame_ready ⟨0, 0, 0, []⟩ h
  refine ⟨a, hrest, ?_⟩
  rw [extractLoop, hextract]
  rfl

theorem extractLoop_more (h : nextFrame c.assembler.unread = .more) :
    extractLoop reply (fuel + 1) c = (.NeedMoreData, { conn := c }) := by
  rw [extractLoop, (FrameAssembler.extractNextFrame_more _ h).1]

theorem extractLoop_stop {e : LengthError} (h : nextFrame c.assembler.unread = .stop e) :
    extractLoop reply (fuel + 1) c = (e.result, { conn := c }) := by
  rw [extractLoop, FrameAssembler.extractNextFrame_stop _ h]
  cases e with
  | tooSmall => rfl
  | tooLarge => rfl

variable {reply} {R : ConnectionState → FrameExtractResult × ServeResult → Prop}

/-- **The rule of the extraction loop.** What holds at its end, after a SHUTDOWN,
and before a request if it holds after it, holds for the whole loop. -/
theorem extractLoop_rule
    (more : ∀ c, nextFrame c.assembler.unread = .more → R c (.NeedMoreData, { conn := c }))
    (stop : ∀ c e, nextFrame c.assembler.unread = .stop e → R c (e.result, { conn := c }))
    (shutdown : ∀ c f a, nextFrame c.assembler.unread = .item f a.unread →
      f.type = MessageType.SHUTDOWN → R c (.FrameReady, c.takeShutdown f a reply))
    (request : ∀ c f a next, nextFrame c.assembler.unread = .item f a.unread →
      f.type ≠ MessageType.SHUTDOWN → R (c.takeRequest f a).conn next →
      R c (next.1, { next.2 with tasks := (c.takeRequest f a).tasks ++ next.2.tasks }))
    {fuel : ℕ} (c : ConnectionState) (hfuel : c.assembler.bufferedBytes < fuel) :
    R c (extractLoop reply fuel c) := by
  induction fuel generalizing c with
  | zero => exact absurd hfuel (Nat.not_lt_zero _)
  | succ fuel ih =>
    cases hnext : nextFrame c.assembler.unread with
    | more =>
      rw [extractLoop_more reply fuel hnext]
      exact more c hnext
    | stop e =>
      rw [extractLoop_stop reply fuel hnext]
      exact stop c e hnext
    | item f rest =>
      obtain ⟨a, rfl, hloop⟩ := extractLoop_item reply fuel hnext
      rw [hloop]
      split
      · rename_i hshutdown
        exact shutdown c f a hnext hshutdown
      · rename_i hshutdown
        -- The frame has taken bytes away, so that the fuel is still enough.
        have hconn : (c.takeRequest f a).conn.assembler = a := by
          unfold takeRequest ConnectionState.request
          split <;> rfl
        have hless : a.bufferedBytes < c.assembler.bufferedBytes := by
          have := frames.shorter hnext
          rwa [FrameAssembler.length_unread, FrameAssembler.length_unread] at this
        exact request c f a _ hnext hshutdown (ih _ (by rw [hconn]; omega))

theorem closed_extractLoop (reply : SendOutcome) (c : ConnectionState) :
    (extractLoop reply (c.assembler.bufferedBytes + 1) c).2.closed = false :=
  extractLoop_rule (R := fun _ p => p.2.closed = false) (fun _ _ => rfl) (fun _ _ _ => rfl)
    (fun _ _ _ _ _ => rfl) (fun _ _ _ _ _ _ h => h) c (Nat.lt_succ_self _)

theorem handleOutput_eq (c : ConnectionState) (w : Option SendOutcome) :
    ∃ output sent, (c.handleOutput w).1 = { c with output, trace := { c.trace with sent } } := by
  unfold handleOutput
  split
  · exact ⟨_, _, rfl⟩
  · exact ⟨_, _, rfl⟩
  · exact ⟨_, _, rfl⟩
  · simp only
    split
    · exact ⟨_, _, rfl⟩
    · exact ⟨_, _, rfl⟩

theorem queueImmediateErrorAndClose_eq (c : ConnectionState) (err : Frame) (outcome : SendOutcome) :
    ∃ output closeAfterSend sent, (c.queueImmediateErrorAndClose err outcome).1 =
      { c with output, closeAfterSend, trace := { c.trace with
        placed := c.trace.placed ++ [FrameCodec.encode err], sent } } := by
  unfold queueImmediateErrorAndClose
  simp only
  split
  · exact ⟨_, _, _, rfl⟩
  · exact ⟨_, _, _, rfl⟩

end ConnectionState

namespace Server

/-- A step on the connection `c`: the server that it finds after taking the step's
entry out of `round` or `compQueue`, and what it does to the connection. -/
inductive Works (s : Server) (c : ConnectionState) :
    ServerAction → Server → ServeResult → Prop where
  | clientSend (id : UInt64) (bytes : Bytes) (hopen : c.socket.finished = false) :
      Works s c (.clientSend id bytes) s { conn := { c with
        socket := { c.socket with incoming := c.socket.incoming ++ bytes }
        trace := { c.trace with stream := c.trace.stream ++ bytes } } }
  | clientClose (id : UInt64) :
      Works s c (.clientClose id) s { conn := { c with
        socket := { c.socket with finished := true } } }
  | serve (ev : Events) (entry : PollEntry) (rest : List PollEntry)
      (hround : s.round = entry :: rest) (hfits : fits entry c ev = true) :
      Works s c (.serve ev) { s with round := rest } (c.serve ev)
  | complete (outcome : SendOutcome) (comp : Completion) (rest : List Completion)
      (hqueue : s.compQueue = comp :: rest) :
      Works s c (.processCompletion outcome) { s with compQueue := rest }
        (c.complete s.config.maxOutputBufferBytes comp outcome)
  | closeStalled (id : UInt64) (hstall : c.hasActiveReadStall = true) :
      Works s c (.closeStalled id) s { conn := c, closed := true }
  | finish (id : UInt64) (outcome : SendOutcome) (hstop : s.shutdownRequested = true)
      (hround : s.round = []) :
      Works s c (.finish id outcome) s
        { conn := c.sendNow c.output.unsent outcome, closed := true }

def target (s : Server) : ServerAction → Option UInt64
  | .clientSend id _ => some id
  | .clientClose id => some id
  | .serve _ => s.round.head?.map PollEntry.connId
  | .processCompletion _ => s.compQueue.head?.map Completion.connId
  | .closeStalled id => some id
  | .finish id _ => some id
  | _ => none

inductive Change (s : Server) : ServerAction → Server → Prop where
  | work {a : ServerAction} {id : UInt64} {c : ConnectionState} {s₀ : Server} {r : ServeResult} :
      s.target a = some id → s.conn id = some c → Works s c a s₀ r → Change s a (s₀.settle r)
  | accept (outcome : SendOutcome) (hroom : s.connections.keys.length < s.config.maxConnections) :
      Change s (.connect outcome)
        { s.setConn { connId := s.nextConnId, trace := { serial := s.accepted } } with
          nextConnId := s.nextConnId + 1
          accepted := s.accepted + 1 }
  | refuse (outcome : SendOutcome) (hfull : s.config.maxConnections ≤ s.connections.keys.length) :
      Change s (.connect outcome) { s with refused := s.refused ++
        [(FrameCodec.encode ConnectionState.connectionLimitError).take (outcome.taken
          (FrameCodec.encode ConnectionState.connectionLimitError).length)] }
  | poll (order : List UInt64) (hdone : s.round = []) (hrunning : s.shutdownRequested = false)
      (horder : order.Perm s.connections.keys) :
      Change s (.poll order) { s with round := (order.filterMap s.conn).map s.pollEntry }
  | skip (ev : Events) (entry : PollEntry) (rest : List PollEntry)
      (hround : s.round = entry :: rest) (hgone : s.conn entry.connId = none) :
      Change s (.serve ev) { s with round := rest }
  | drop (outcome : SendOutcome) (comp : Completion) (rest : List Completion)
      (hqueue : s.compQueue = comp :: rest) (hgone : s.conn comp.connId = none) :
      Change s (.processCompletion outcome) { s with compQueue := rest }
  | requestStop : Change s .requestStop { s with shutdownRequested := true }
  | pop (t : Task) (rest : List Task) (hqueue : s.taskQueue = t :: rest)
      (hidle : s.busy.length < s.config.workers) :
      Change s .pop
        { s with taskQueue := rest, busy := s.busy ++ [t], handled := s.handled ++ [t] }
  | complete (i : ℕ) (response : Frame) (t : Task) (hbusy : s.busy[i]? = some t) :
      Change s (.complete i response) { s with
        busy := s.busy.eraseIdx i
        compQueue := s.compQueue ++ [⟨t.connId, FrameCodec.encode response, t⟩] }

variable {s s' : Server} {a : ServerAction}

theorem settle_open (s : Server) (c : ConnectionState) : s.settle { conn := c } = s.setConn c := by
  simp [settle, setConn]

theorem settle_close (s : Server) (c : ConnectionState) :
    s.settle { conn := c, closed := true } = s.closeConnection c := by
  simp [settle, closeConnection]

variable {outcome : SendOutcome} {c : ConnectionState} {s₀ : Server} {r : ServeResult}

theorem change_of_connect : Change s (.connect outcome) (s.accept outcome) := by
  unfold accept
  split
  · rename_i hfull
    exact .refuse outcome hfull
  · rename_i hroom
    exact .accept outcome (Nat.lt_of_not_le hroom)

theorem change_of_serve {ev : Events} (h : s.step (.serve ev) = some s') :
    Change s (.serve ev) s' := by
  rw [step] at h
  split at h
  · cases h
  · rename_i entry rest hround
    split at h
    · rename_i hgone
      cases h
      exact .skip ev entry rest hround hgone
    · rename_i c hc
      split at h
      · rename_i hfits
        cases h
        exact .work (by simp [target, hround]) hc (.serve ev entry rest hround hfits)
      · cases h

theorem change_of_processCompletion (h : s.step (.processCompletion outcome) = some s') :
    Change s (.processCompletion outcome) s' := by
  rw [step] at h
  split at h
  · cases h
  · rename_i comp rest hqueue
    simp only at h
    split at h
    · rename_i hgone
      cases h
      exact .drop outcome comp rest hqueue hgone
    · rename_i c hc
      cases h
      refine .work ?_ hc (.complete outcome comp rest hqueue)
      simp [target, hqueue]

/-- **Every step is one of these.** -/
theorem change_of_step (h : s.step a = some s') : Change s a s' := by
  cases a with
  | connect outcome =>
    cases h
    exact change_of_connect
  | serve ev => exact change_of_serve h
  | processCompletion outcome => exact change_of_processCompletion h
  | requestStop =>
    cases h
    exact .requestStop
  | clientSend id bytes =>
    rw [step] at h
    split at h
    · cases h
    · rename_i c hc
      split at h
      · cases h
      · rename_i hopen
        cases h
        rw [← settle_open]
        exact .work rfl hc (.clientSend id bytes (Bool.eq_false_iff.mpr hopen))
  | clientClose id =>
    rw [step] at h
    split at h
    · cases h
    · rename_i c hc
      cases h
      rw [← settle_open]
      exact .work rfl hc (.clientClose id)
  | poll order =>
    rw [step] at h
    split at h
    · rename_i hpoll
      cases h
      obtain ⟨hdone, hrunning, horder⟩ := hpoll
      exact .poll order (List.isEmpty_iff.mp hdone) hrunning horder
    · cases h
  | closeStalled id =>
    rw [step] at h
    split at h
    · cases h
    · rename_i c hc
      split at h
      · rename_i hstall
        cases h
        rw [← settle_close]
        exact .work rfl hc (.closeStalled id hstall)
      · cases h
  | finish id outcome =>
    rw [step] at h
    split at h
    · cases h
    · rename_i c hc
      split at h
      · rename_i hfinish
        cases h
        rw [← settle_close]
        exact .work rfl hc (.finish id outcome hfinish.1 (List.isEmpty_iff.mp hfinish.2))
      · cases h
  | pop =>
    rw [step] at h
    split at h
    · cases h
    · rename_i t rest hqueue
      split at h
      · rename_i hidle
        cases h
        exact .pop t rest hqueue hidle
      · cases h
  | complete i response =>
    rw [step] at h
    split at h
    · cases h
    · rename_i t hbusy
      cases h
      exact .complete i response t hbusy

theorem Works.server (h : Works s c a s₀ r) : s₀ = { s with
    round := s₀.round, compQueue := s₀.compQueue } ∧ ∃ done, s.compQueue = done ++
      s₀.compQueue := by
  cases h with
  | clientSend id bytes _ => exact ⟨rfl, [], rfl⟩
  | clientClose id => exact ⟨rfl, [], rfl⟩
  | serve ev entry rest _ _ => exact ⟨rfl, [], rfl⟩
  | complete outcome comp rest hqueue => exact ⟨rfl, [comp], hqueue⟩
  | closeStalled id _ => exact ⟨rfl, [], rfl⟩
  | finish id outcome _ _ => exact ⟨rfl, [], rfl⟩

theorem Works.step_eq {id : UInt64} (h : Works s c a s₀ r) (htarget : s.target a = some id)
    (hc : s.conn id = some c) :
    s.step a = some (s₀.settle r) := by
  cases h with
  | clientSend id' bytes hopen =>
    cases htarget
    rw [step, hc, settle_open]
    exact if_neg (Bool.eq_false_iff.mp hopen)
  | clientClose id' =>
    cases htarget
    rw [step, hc, settle_open]
  | serve ev entry rest hround hfits =>
    have hid : entry.connId = id := by simpa [target, hround] using htarget
    rw [step, hround]
    simp only
    rw [hid, hc]
    exact if_pos hfits
  | complete outcome comp rest hqueue =>
    have hid : comp.connId = id := by simpa [target, hqueue] using htarget
    rw [step, hqueue]
    simp only
    rw [hid, show ({ s with compQueue := rest } : Server).conn id = some c from hc]
  | closeStalled id' hstall =>
    cases htarget
    rw [step, hc, settle_close]
    exact if_pos hstall
  | finish id' outcome hstop hround =>
    cases htarget
    rw [step, hc, settle_close]
    exact if_pos ⟨hstop, List.isEmpty_iff.mpr hround⟩

theorem Reachable.run {Handles : Frame → Frame → Prop} {P : Server → ServerAction → Prop}
    (acts : List ServerAction) (h : Reachable Handles P s)
    (hrun : acts.foldlM Server.step s = some s')
    (hP : ∀ s, ∀ a ∈ acts, P s a)
    (hhandles : ∀ f i response, .complete i response ∈ acts → Handles f response) :
    Reachable Handles P s' := by
  induction acts generalizing s with
  | nil =>
    obtain rfl : s = s' := Option.some.inj hrun
    exact h
  | cons a acts ih =>
    obtain ⟨s₁, hs, hrun⟩ := Option.bind_eq_some_iff.mp hrun
    have hstep : s.Step Handles a s₁ :=
      ⟨hs, fun i response t ha _ => hhandles _ i response (ha ▸ List.mem_cons_self ..)⟩
    exact ih (h.step (hP s a (List.mem_cons_self ..)) hstep) hrun
      (fun s b hb => hP s b (List.mem_cons_of_mem _ hb))
      (fun f i response hi => hhandles f i response (List.mem_cons_of_mem _ hi))

end Server

end StreamForge
