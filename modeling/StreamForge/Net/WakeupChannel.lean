import Mathlib.Logic.Function.Basic
import Mathlib.Data.Nat.Notation
import Mathlib.Tactic.Common
import StreamForge.Foundation.Transition

/-!
# The wakeup channel

Workers hand their responses to the I/O thread through `CompletionQueue` and
wake it out of `WSAPoll` with a byte on a loopback socket. `notify` sends only if
its `exchange` finds `m_wake_pending` clear, and `drain` clears the flag before it
empties the socket.

A worker that comes in between those two steps of `drain` sets the flag again,
and its byte may be received by the same `drain`. The flag then promises a byte
that nobody is going to send (`Dead`), and a response waits until the poll times
out. As long as no `recv` takes the last byte in that situation (`KeepsWake`), no
wakeup is lost.
-/

namespace StreamForge

namespace WakeupChannel

open Transition

/-! ## The threads -/

inductive WorkerPhase where
  | idle
  /-- The completion is in the queue, the `exchange` of `notify` comes next. -/
  | pushed
  /-- The `exchange` returned false, the `send` of `notify` comes next. -/
  | sending
  deriving DecidableEq

inductive IoPhase where
  | polling
  /-- The poll has reported the wakeup socket, `drain` comes next. -/
  | readable
  /-- `drain` has cleared the flag and is in its `recv` loop. -/
  | cleared
  | drained
  /-- The wakeup socket is dealt with, the client sockets come next. -/
  | serving
  deriving DecidableEq

structure State (W C : Type) where
  queue : List C := []
  wakePending : Bool := false
  /-- The bytes sent and not received. -/
  bytes : ℕ := 0
  worker : W → WorkerPhase := fun _ => .idle
  io : IoPhase := .polling

inductive Action (W C : Type) where
  | push (w : W) (c : C)
  | exchange (w : W)
  | send (w : W)
  | poll
  | store
  | recv
  | popAll

def recvBuffer : ℕ := 256

variable {W C : Type} [DecidableEq W]

def step (s : State W C) : Action W C → Option (State W C)
  | .push w c =>
    if s.worker w = .idle then
      some { s with queue := s.queue ++ [c], worker := Function.update s.worker w .pushed }
    else none
  | .exchange w =>
    if s.worker w = .pushed then
      let next : WorkerPhase := if s.wakePending then .idle else .sending
      some { s with wakePending := true, worker := Function.update s.worker w next }
    else none
  | .send w =>
    if s.worker w = .sending then
      some { s with bytes := s.bytes + 1, worker := Function.update s.worker w .idle }
    else none
  | .poll =>
    -- The poll also returns for another socket and after 250 ms.
    if s.io = .polling then
      some { s with io := if 0 < s.bytes then .readable else .serving }
    else none
  | .store =>
    if s.io = .readable then some { s with wakePending := false, io := .cleared } else none
  | .recv =>
    if s.io = .cleared then
      if 0 < s.bytes then some { s with bytes := s.bytes - recvBuffer }
      else some { s with io := .drained }
    else none
  | .popAll =>
    -- Once after `drain` and once more at the end of every pass of the loop.
    match s.io with
    | .drained => some { s with queue := [], io := .serving }
    | .serving => some { s with queue := [], io := .polling }
    | _ => none

def Step (s : State W C) (a : Action W C) (s' : State W C) : Prop :=
  step s a = some s'

def Reachable (P : State W C → Action W C → Prop) : State W C → Prop :=
  Reach (· = {}) Step P

/-! ## What a step does -/

section Inversion

variable {s s' : State W C} {w : W}

theorem step_push {c : C} (h : Step s (.push w c) s') : s.worker w = .idle ∧
    s' = { s with queue := s.queue ++ [c], worker := Function.update s.worker w .pushed } := by
  simpa [Step, step, eq_comm] using h

/-- The first `exchange` after the flag was cleared obliges its worker to send. -/
theorem step_exchange (h : Step s (.exchange w) s') : s.worker w = .pushed ∧
    ((s.wakePending = true ∧ s' = { s with worker := Function.update s.worker w .idle }) ∨
      (s.wakePending = false ∧ s' = { s with
        wakePending := true, worker := Function.update s.worker w .sending })) := by
  obtain ⟨queue, wakePending, bytes, worker, io⟩ := s
  cases wakePending <;> simpa [Step, step, eq_comm] using h

theorem step_send (h : Step s (.send w) s') : s.worker w = .sending ∧
    s' = { s with bytes := s.bytes + 1, worker := Function.update s.worker w .idle } := by
  simpa [Step, step, eq_comm] using h

theorem step_poll (h : Step s .poll s') : s.io = .polling ∧
    s' = { s with io := if 0 < s.bytes then .readable else .serving } := by
  simpa [Step, step, eq_comm] using h

theorem step_store (h : Step s .store s') : s.io = .readable ∧
    s' = { s with wakePending := false, io := .cleared } := by
  simpa [Step, step, eq_comm] using h

theorem step_recv (h : Step s .recv s') : s.io = .cleared ∧
    ((0 < s.bytes ∧ s' = { s with bytes := s.bytes - recvBuffer }) ∨
      (s.bytes = 0 ∧ s' = { s with io := .drained })) := by
  simp only [Step, step, Option.ite_none_right_eq_some] at h
  obtain ⟨hio, h⟩ := h
  refine ⟨hio, ?_⟩
  by_cases hpos : 0 < s.bytes
  · rw [if_pos hpos] at h
    exact Or.inl ⟨hpos, (Option.some.inj h).symm⟩
  · rw [if_neg hpos] at h
    exact Or.inr ⟨Nat.eq_zero_of_not_pos hpos, (Option.some.inj h).symm⟩

theorem step_popAll (h : Step s .popAll s') :
    (s.io = .drained ∧ s' = { s with queue := [], io := .serving }) ∨
      (s.io = .serving ∧ s' = { s with queue := [], io := .polling }) := by
  simp only [Step, step] at h
  split at h
  · exact Or.inl ⟨‹_›, (Option.some.inj h).symm⟩
  · exact Or.inr ⟨‹_›, (Option.some.inj h).symm⟩
  · cases h

end Inversion

theorem exists_update {worker : W → WorkerPhase} {w : W} {phase next : WorkerPhase}
    (hw : worker w ≠ phase) (h : ∃ v, worker v = phase) :
    ∃ v, Function.update worker w next v = phase := by
  obtain ⟨v, hv⟩ := h
  refine ⟨v, ?_⟩
  rwa [Function.update_of_ne]
  rintro rfl
  exact hw hv

theorem exists_update_self (worker : W → WorkerPhase) (w : W) (phase : WorkerPhase) :
    ∃ v, Function.update worker w phase v = phase :=
  ⟨w, Function.update_self ..⟩

/-! ## No lost wakeup -/

/-- If the I/O thread is about to block with completions in the queue, a byte is
in the wakeup socket, or a worker has pushed and is still in `notify`. -/
def NoLostWakeup (s : State W C) : Prop :=
  s.io = .polling → s.queue ≠ [] → 0 < s.bytes ∨ ∃ w, s.worker w ≠ .idle

/-- A `recv` that finds the flag set again leaves a byte in the socket, or a
worker is about to send one. -/
def KeepsWake (s : State W C) : Action W C → Prop
  | .recv => s.wakePending = true → recvBuffer < s.bytes ∨ ∃ w, s.worker w = .sending
  | _ => True

structure Inv (s : State W C) : Prop where
  /-- The flag promises a byte. -/
  promised : s.wakePending = true → 0 < s.bytes ∨ ∃ w, s.worker w = .sending
  /-- What is in the queue when the I/O thread polls has been announced by the
  flag or is about to be. -/
  announced : s.io = .polling → s.queue ≠ [] → s.wakePending = true ∨ ∃ w, s.worker w = .pushed

omit [DecidableEq W] in
theorem inv_start : Inv ({} : State W C) where
  promised := by simp
  announced := by simp

omit [DecidableEq W] in
theorem Inv.noLostWakeup {s : State W C} (h : Inv s) : NoLostWakeup s := by
  intro hio hne
  rcases h.announced hio hne with hflag | ⟨w, hw⟩
  · rcases h.promised hflag with hbytes | ⟨w, hw⟩
    · exact Or.inl hbytes
    · exact Or.inr ⟨w, by simp [hw]⟩
  · exact Or.inr ⟨w, by simp [hw]⟩

theorem Inv.step {s s' : State W C} {a : Action W C} (h : Inv s) (hkeep : KeepsWake s a)
    (hs : Step s a s') : Inv s' := by
  cases a with
  | push w c =>
    obtain ⟨hw, rfl⟩ := step_push hs
    exact ⟨fun hflag => (h.promised hflag).imp_right (exists_update (by simp [hw])),
      fun _ _ => Or.inr (exists_update_self ..)⟩
  | exchange w =>
    obtain ⟨hw, ⟨hflag, rfl⟩ | ⟨-, rfl⟩⟩ := step_exchange hs
    · exact ⟨fun _ => (h.promised hflag).imp_right (exists_update (by simp [hw])),
        fun _ _ => Or.inl hflag⟩
    · exact ⟨fun _ => Or.inr (exists_update_self ..), fun _ _ => Or.inl rfl⟩
  | send w =>
    obtain ⟨hw, rfl⟩ := step_send hs
    exact ⟨fun _ => Or.inl (Nat.succ_pos _),
      fun hio hne => (h.announced hio hne).imp_right (exists_update (by simp [hw]))⟩
  | poll =>
    obtain ⟨-, rfl⟩ := step_poll hs
    refine ⟨h.promised, fun hio => ?_⟩
    by_cases hpos : 0 < s.bytes <;> simp [hpos] at hio
  | store =>
    obtain ⟨-, rfl⟩ := step_store hs
    exact ⟨fun hflag => (Bool.false_ne_true hflag).elim, fun hio => IoPhase.noConfusion hio⟩
  | recv =>
    obtain ⟨hio, ⟨-, rfl⟩ | ⟨-, rfl⟩⟩ := step_recv hs
    · exact ⟨fun hflag => (hkeep hflag).imp_left Nat.sub_pos_of_lt,
        fun hio' => by simp [hio] at hio'⟩
    · exact ⟨h.promised, fun hio => IoPhase.noConfusion hio⟩
  | popAll =>
    -- The queue is empty when the I/O thread gets back to the poll.
    obtain ⟨-, rfl⟩ | ⟨-, rfl⟩ := step_popAll hs
    · exact ⟨h.promised, fun hio => IoPhase.noConfusion hio⟩
    · exact ⟨h.promised, fun _ hne => (hne rfl).elim⟩

theorem Reachable.inv {s : State W C} (h : Reachable KeepsWake s) : Inv s :=
  Reach.invariant (by rintro _ rfl; exact inv_start) (fun _ _ _ hi hk hs => hi.step hk hs) h

/-! ## The dead channel -/

/-- The flag is set, no byte is in the socket and nobody is going to send one. -/
structure Dead (s : State W C) : Prop where
  flag : s.wakePending = true
  empty : s.bytes = 0
  silent : ∀ w, s.worker w ≠ .sending
  unread : s.io ≠ .readable

theorem dead_of_recv {s s' : State W C} (hs : Step s .recv s') (hlost : ¬ KeepsWake s .recv) :
    Dead s' := by
  simp only [KeepsWake, not_forall, not_or, Nat.not_lt, not_exists] at hlost
  obtain ⟨hflag, hlast, hsilent⟩ := hlost
  obtain ⟨hio, ⟨-, rfl⟩ | ⟨hzero, rfl⟩⟩ := step_recv hs
  · exact ⟨hflag, Nat.sub_eq_zero_of_le hlast, hsilent, by simp [hio]⟩
  · exact ⟨hflag, hzero, hsilent, by simp⟩

theorem Dead.step {s s' : State W C} {a : Action W C} (h : Dead s) (hs : Step s a s') :
    Dead s' := by
  cases a with
  | push w c =>
    obtain ⟨-, rfl⟩ := step_push hs
    refine ⟨h.flag, h.empty, fun v => ?_, h.unread⟩
    rcases eq_or_ne v w with rfl | hne
    · simp
    · simpa [hne] using h.silent v
  | exchange w =>
    obtain ⟨-, ⟨-, rfl⟩ | ⟨hflag, -⟩⟩ := step_exchange hs
    · refine ⟨h.flag, h.empty, fun v => ?_, h.unread⟩
      rcases eq_or_ne v w with rfl | hne
      · simp
      · simpa [hne] using h.silent v
    · rw [h.flag] at hflag
      cases hflag
  | send w => exact (h.silent w (step_send hs).1).elim
  | poll =>
    obtain ⟨-, rfl⟩ := step_poll hs
    exact ⟨h.flag, h.empty, h.silent, by simp [h.empty]⟩
  | store => exact (h.unread (step_store hs).1).elim
  | recv =>
    obtain ⟨-, ⟨hpos, -⟩ | ⟨-, rfl⟩⟩ := step_recv hs
    · rw [h.empty] at hpos
      cases hpos
    · exact ⟨h.flag, h.empty, h.silent, by simp⟩
  | popAll =>
    obtain ⟨-, rfl⟩ | ⟨-, rfl⟩ := step_popAll hs
    · exact ⟨h.flag, h.empty, h.silent, by simp⟩
    · exact ⟨h.flag, h.empty, h.silent, by simp⟩

/-- **A dead channel stays dead.** After a `recv` that does not keep the wake, no
byte is ever in the wakeup socket again. -/
theorem dead_forever {s s' t : State W C} (hs : Step s .recv s') (hlost : ¬ KeepsWake s .recv)
    (ht : Reach (· = s') Step (fun _ _ => True) t) : Dead t :=
  Reach.invariant (by rintro _ rfl; exact dead_of_recv hs hlost)
    (fun _ _ _ hi _ hs => hi.step hs) ht

/-- The `drain` that worker `0` has caused receives the byte of worker `1` too; worker `2`
pushes after it. -/
theorem dead_forever_second_byte : ∃ s s' t : State (Fin 3) ℕ,
    Reachable (fun _ _ => True) s ∧ Step s .recv s' ∧
    Reach (· = s') Step (fun _ _ => True) t ∧ t.queue = [3] ∧ Dead t := by
  have hsent : Reachable (fun (_ : State (Fin 3) ℕ) _ => True) _ :=
    Reach.foldlM [.push 0 1, .exchange 0, .send 0, .poll, .store, .push 1 2, .exchange 1, .send 1]
      (fun _ _ _ => trivial) (.init rfl) rfl
  refine ⟨_, ?_, ?_, hsent, ?recv, ?later, ?queue, dead_forever ?recv ?lost ?later⟩
  case recv => exact rfl
  case lost => simp [KeepsWake, recvBuffer]
  case later =>
    refine Reach.foldlM [.recv, .popAll, .popAll, .push 2 3, .exchange 2] (fun _ _ _ => trivial)
      (.init rfl) ?_
    exact rfl
  rfl

/-- **No lost wakeup** in any interleaving in which every `recv` keeps the wake. -/
theorem no_lost_wakeup {s : State W C} (h : Reachable KeepsWake s) : NoLostWakeup s :=
  h.inv.noLostWakeup

/-- One worker wakes the I/O thread, is served, and pushes again. -/
theorem no_lost_wakeup_second_push :
    ∃ s : State ℕ ℕ, s.io = .polling ∧ s.queue = [2] ∧ s.bytes = 0 ∧ NoLostWakeup s := by
  have hcleared : Reachable KeepsWake _ :=
    Reach.foldlM [.push 0 1, .exchange 0, .send 0, .poll, .store] (by simp [KeepsWake])
      (.init rfl) rfl
  have hreceived : Reachable KeepsWake _ :=
    hcleared.step (show KeepsWake _ .recv from fun hflag => Bool.noConfusion hflag) rfl
  have hdrained : Reachable KeepsWake _ :=
    hreceived.step (show KeepsWake _ .recv from fun hflag => Bool.noConfusion hflag) rfl
  have hpushed : Reachable KeepsWake _ :=
    Reach.foldlM [.popAll, .popAll, .push 0 2] (by simp [KeepsWake]) hdrained rfl
  exact ⟨_, rfl, rfl, rfl, no_lost_wakeup hpushed⟩

/-- **A lost wakeup.** Worker `1` comes in between the `store` and the `recv` of
a `drain` that worker `0` has caused. The byte of worker `1` is received with the
one of worker `0`, and worker `2` finds the flag set. -/
theorem lost_wakeup :
    ∃ s : State (Fin 3) ℕ, Reachable (fun _ _ => True) s ∧ s.io = .polling ∧ s.queue = [3] ∧
      s.bytes = 0 ∧ (∀ w, s.worker w = .idle) ∧ ¬ NoLostWakeup s := by
  refine ⟨_, Reach.foldlM [.push 0 1, .exchange 0, .send 0, .poll, .store,
    .push 1 2, .exchange 1, .send 1, .recv, .recv, .popAll, .popAll, .push 2 3, .exchange 2]
    (fun _ _ _ => trivial) (.init rfl) rfl, rfl, rfl, rfl, ?_, ?_⟩
  · decide
  · intro h
    rcases h rfl (by simp) with hbytes | hworker
    · exact absurd hbytes (by decide)
    · exact absurd hworker (by decide)

end WakeupChannel

end StreamForge
