import StreamForge.Net.RequestOrder

/-!
# How long the task queue gets

A live connection has at most one task in the queue, which is why the queue is
said never to hold more than `max_connections` tasks. But a task stays in the
queue when its connection is closed, and the next client takes the place in
`m_connections` while the task still waits. The bound holds as long as a
connection is only accepted when these orphaned tasks leave room for it.
-/

namespace StreamForge

open Transition

namespace Server

variable {s s₀ s' : Server} {id : UInt64} {c : ConnectionState} {r : ServeResult} {a : ServerAction}
variable {Handles : Frame → Frame → Prop}

def orphans (s : Server) : ℕ := s.taskQueue.countP fun t => (s.conn t.connId).isNone

/-- A client is accepted only if there is room for it beside the orphaned tasks,
and while the ids have not run out. -/
def LeavesRoom (s : Server) (a : ServerAction) : Prop :=
  ∀ outcome, a = .connect outcome → s.connections.keys.length < s.config.maxConnections →
    s.connections.keys.length + s.orphans < s.config.maxConnections ∧ s.accepted < 2 ^ 64

/-- Live connections and orphaned tasks together keep to the limit. -/
def WithinLimit (s : Server) : Prop :=
  s.connections.keys.length + s.orphans ≤ s.config.maxConnections

theorem countP_or_le (p q : Task → Bool) (tasks : List Task) :
    tasks.countP (fun t => p t || q t) ≤ tasks.countP p + tasks.countP q := by
  induction tasks with
  | nil => simp
  | cons t tasks ih =>
    simp only [List.countP_cons]
    cases p t <;> cases q t <;> simp <;> omega

theorem Inv.taskQueue_le (hs : s.Inv Handles) :
    s.taskQueue.length ≤ s.connections.keys.length + s.orphans := by
  have hsplit : s.taskQueue.length =
      s.taskQueue.countP (fun t => (s.conn t.connId).isSome) + s.orphans := by
    unfold orphans
    rw [List.length_eq_countP_add_countP (fun t : Task => (s.conn t.connId).isSome)]
    congr 1
    apply List.countP_congr
    intro t _
    simp
  -- Their ids are keys, and no id comes twice.
  have hids : ((s.taskQueue.filter fun t => (s.conn t.connId).isSome).map Task.connId).Nodup := by
    rw [List.nodup_iff_count_le_one]
    intro id
    cases hc : s.conn id with
    | none =>
      refine (Nat.le_of_eq (List.count_eq_zero_of_not_mem ?_)).trans (Nat.zero_le 1)
      intro hmem
      obtain ⟨t, ht, rfl⟩ := List.mem_map.mp hmem
      rw [List.mem_filter, hc] at ht
      cases ht.2
    | some c =>
      have hcount := hs.countInFlight hc
      have hone : s.taskQueue.countP (fun t => t.connId = id) ≤ 1 := by
        unfold Server.countInFlight at hcount
        split at hcount <;> omega
      refine le_trans ?_ hone
      rw [List.count, List.countP_map, List.countP_filter]
      apply List.countP_mono_left
      intro t _ ht
      simp only [Function.comp_apply, Bool.and_eq_true, beq_iff_eq] at ht
      simpa using ht.1
  have hkeys : (s.taskQueue.filter fun t => (s.conn t.connId).isSome).map Task.connId ⊆
      s.connections.keys := by
    intro id hmem
    obtain ⟨t, ht, rfl⟩ := List.mem_map.mp hmem
    exact AList.mem_keys.mp (AList.lookup_isSome.mp (List.mem_filter.mp ht).2)
  have hle := (List.subperm_of_subset hids hkeys).length_le
  rw [List.length_map, ← List.countP_eq_length_filter] at hle
  omega

theorem settle_keys (s : Server) (r : ServeResult) : (s.settle r).connections.keys =
    if r.closed then s.connections.keys.erase r.conn.connId
    else r.conn.connId :: s.connections.keys.erase r.conn.connId := by
  unfold settle closeConnection setConn
  cases r.closed with
  | true => exact AList.keys_erase ..
  | false => exact AList.keys_insert ..

theorem settle_taskQueue (s : Server) (r : ServeResult) :
    (s.settle r).taskQueue = s.taskQueue ++ r.tasks := by
  unfold settle closeConnection setConn
  cases r.closed with
  | true => rfl
  | false => rfl

namespace Settles

variable {done : List Completion}

theorem tasks_owned (h : Settles Handles s c s₀ r done) (hc : s.conn c.connId = some c) :
    r.tasks.countP (fun t => (s.conn t.connId).isNone) = 0 := by
  rw [List.countP_eq_zero]
  intro t ht
  rw [h.tasks t ht]
  show ¬ (s.conn c.connId).isNone = true
  rw [hc]
  simp

theorem own_le (h : Settles Handles s c s₀ r done) :
    (s.taskQueue ++ r.tasks).countP (fun t => t.connId = c.connId) ≤ 1 := by
  have htasks : r.tasks.countP (fun t => t.connId = c.connId) ≤ r.tasks.length :=
    List.countP_le_length
  have hqueue : s₀.taskQueue = s.taskQueue := by rw [h.server]
  have hjobs : s.taskQueue.countP (fun t => t.connId = c.connId) ≤ (s₀.jobsOf c.connId).card := by
    rw [jobsOf, jobs, ← Multiset.countP_eq_card_filter, Multiset.countP_add, Multiset.countP_add,
      hqueue, Multiset.coe_countP]
    omega
  have := h.few
  rw [List.countP_append]
  omega

theorem orphans_le (h : Settles Handles s c s₀ r done) (hc : s.conn c.connId = some c) :
    (s₀.settle r).orphans ≤ s.orphans + if r.closed then 1 else 0 := by
  have hserver : s₀.taskQueue = s.taskQueue ∧ ∀ id, s₀.conn id = s.conn id := by
    rw [h.server]
    exact ⟨rfl, fun _ => rfl⟩
  obtain ⟨hqueue, hconn⟩ := hserver
  have howned := h.tasks_owned hc
  unfold orphans
  rw [settle_taskQueue, hqueue]
  cases hclosed : r.closed with
  | true =>
    have hown := h.own_le
    have hor : (s.taskQueue ++ r.tasks).countP (fun t => ((s₀.settle r).conn t.connId).isNone) ≤
        (s.taskQueue ++ r.tasks).countP (fun t => (s.conn t.connId).isNone) +
          (s.taskQueue ++ r.tasks).countP (fun t => t.connId = c.connId) := by
      refine le_trans (Nat.le_of_eq ?_) (countP_or_le ..)
      apply List.countP_congr
      intro t _
      rw [settle_conn, h.connId, hclosed, hconn]
      by_cases ht : t.connId = c.connId
      · simp [ht]
      · simp [ht]
    rw [List.countP_append (p := fun t : Task => (s.conn t.connId).isNone), howned] at hor
    exact le_trans hor (Nat.add_le_add_left hown _)
  | false =>
    have hsame : ∀ id, ((s₀.settle r).conn id).isNone = (s.conn id).isNone := by
      intro id
      rw [settle_conn, h.connId, hclosed, hconn]
      by_cases hid : id = c.connId
      · simp [hid, hc]
      · simp [hid]
    simp only [hsame]
    rw [List.countP_append, howned]
    rfl

theorem withinLimit (h : Settles Handles s c s₀ r done) (hs : s.Inv Handles)
    (hc : s.conn id = some c) (hlimit : s.WithinLimit) : (s₀.settle r).WithinLimit := by
  have hid := (hs.live id c hc).id_eq
  subst hid
  have hserver : s₀.connections = s.connections ∧ s₀.config = s.config := by
    rw [h.server]
    exact ⟨rfl, rfl⟩
  obtain ⟨hconnections, hconfig⟩ := hserver
  have hmem : c.connId ∈ s.connections.keys := by
    apply AList.mem_keys.mp
    apply AList.lookup_isSome.mp
    rw [show s.connections.lookup c.connId = some c from hc]
    rfl
  have hlength := List.length_erase_of_mem hmem
  have hpos := List.length_pos_of_mem hmem
  have horphans := h.orphans_le hc
  unfold WithinLimit at hlimit ⊢
  rw [(settle_same s₀ r).2.2.2.2.2, hconfig, settle_keys, hconnections, h.connId]
  cases hclosed : r.closed with
  | true =>
    rw [hclosed] at horphans
    simp only [if_true] at horphans ⊢
    omega
  | false =>
    rw [hclosed] at horphans
    simp only [Bool.false_eq_true, if_false, List.length_cons] at horphans ⊢
    omega

end Settles

theorem WithinLimit.accept
    (hroom : s.connections.keys.length + s.orphans < s.config.maxConnections) :
    WithinLimit { s.setConn { connId := s.nextConnId, trace := { serial := s.accepted } } with
      nextConnId := s.nextConnId + 1
      accepted := s.accepted + 1 } := by
  let c : ConnectionState := { connId := s.nextConnId, trace := { serial := s.accepted } }
  have hkeys : (s.connections.insert s.nextConnId c).keys.length ≤
      s.connections.keys.length + 1 := by
    rw [AList.keys_insert, List.length_cons]
    exact Nat.succ_le_succ List.length_erase_le
  -- An orphan stays one or becomes a task of the new connection.
  have horphans : s.taskQueue.countP
      (fun t => ((s.connections.insert s.nextConnId c).lookup t.connId).isNone) ≤ s.orphans := by
    apply List.countP_mono_left
    intro t _ ht
    rw [AssocMap.lookup_insert_eq] at ht
    split at ht
    · cases ht
    · exact ht
  refine le_trans (Nat.add_le_add hkeys horphans) ?_
  show _ ≤ s.config.maxConnections
  omega

theorem WithinLimit.step (hlimit : s.WithinLimit) (hs : s.Inv Handles) (hroom : LeavesRoom s a)
    (hstep : s.Step Handles a s') : s'.WithinLimit := by
  cases change_of_step hstep.1 with
  | work htarget hc hworks =>
    obtain ⟨done, hsettles⟩ := hworks.settles hs htarget hc
    exact hsettles.withinLimit hs hc hlimit
  | accept outcome hfree =>
    exact .accept (hroom outcome rfl hfree).1
  | refuse outcome _ => exact hlimit
  | poll order _ _ _ => exact hlimit
  | skip ev entry rest _ _ => exact hlimit
  | drop outcome comp rest _ _ => exact hlimit
  | requestStop => exact hlimit
  | pop t rest hqueue _ =>
    refine le_trans (Nat.add_le_add_left ?_ _) hlimit
    unfold orphans
    rw [hqueue]
    exact (List.sublist_cons_self ..).countP_le
  | complete i response t _ => exact hlimit

/-- **The task queue keeps to the connection limit** in every run that accepts
clients only where orphaned tasks leave room for them. -/
theorem task_queue_bounded (h : Reachable Handles LeavesRoom s) :
    s.taskQueue.length ≤ s.config.maxConnections := by
  obtain ⟨hs, hlimit⟩ : s.Inv Handles ∧ s.WithinLimit := by
    refine Reach.invariant (I := fun s => s.Inv Handles ∧ s.WithinLimit) ?_ ?_ h
    · rintro s ⟨config, rfl⟩
      exact ⟨inv_init ⟨config, rfl⟩, Nat.zero_le _⟩
    · rintro s a s' ⟨hs, hlimit⟩ hroom hstep
      have hfresh : FreshIds s a := fun outcome ha hfree => (hroom outcome ha hfree).2
      exact ⟨hs.step hfresh hstep, hlimit.step hs hroom hstep⟩
  exact hs.taskQueue_le.trans hlimit

/-- Two clients, one after the other, with a limit of one connection and the
worker not getting to their requests. -/
def twoVisitors : List ServerAction :=
  let ping := FrameCodec.encode ⟨5, MessageType.PING, 7, []⟩
  [.clientSend 1 ping, .poll [1], .serve { readable := some ([ping], .wouldBlock) },
    .poll [1], .serve { hangUp := true }, .connect .wouldBlock, .clientSend 2 ping, .poll [2],
    .serve { readable := some ([ping], .wouldBlock) }]

theorem task_queue_bounded_ping : ∃ s : Server, s.taskQueue.length = 1 ∧
    s.taskQueue.length ≤ s.config.maxConnections := by
  have hinit : Reachable (fun _ _ => True) LeavesRoom { config := oneWorker } :=
    .init ⟨oneWorker, rfl⟩
  have hconnect := hinit.step (a := .connect .wouldBlock) (fun _ _ _ => by decide)
    ⟨rfl, fun _ _ _ h => by cases h⟩
  refine ⟨_, rfl, task_queue_bounded (Reachable.run (twoVisitors.take 3) hconnect rfl ?_
    fun _ _ _ _ => trivial)⟩
  rintro s a ha outcome rfl
  simp [twoVisitors] at ha

/-- **The task of a closed connection still waits** when the next client, who takes
its place, sends a request. -/
theorem task_queue_exceeds_limit : ∃ s : Server, Reachable (fun _ _ => True) (fun _ _ => True) s ∧
    s.config.maxConnections < s.taskQueue.length := by
  have hinit : Reachable (fun _ _ => True) (fun _ _ => True) { config := oneWorker } :=
    .init ⟨oneWorker, rfl⟩
  have hrun := hinit.run (.connect .wouldBlock :: twoVisitors) rfl (fun _ _ _ => trivial)
    fun _ _ _ _ => trivial
  exact ⟨_, hrun, by decide⟩

end Server

end StreamForge
