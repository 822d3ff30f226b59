import Mathlib.Algebra.BigOperators.Group.Finset.Basic
import StreamForge.Net.TcpServer

/-!
# Stopping the workers

`ThreadPool` with its `TaskQueue`, from `enqueue` to `stop_and_join`. `wait_until_stopped`
gives up on the clients after five seconds and drops their connections, but then it joins
the workers, and `TaskQueue::pop` returns false only on an empty queue.

`enqueue` and `stop_and_join` are called by one thread, the one of `event_loop` and
`wait_until_stopped`; it sets `m_stopped`, which nobody else reads, and the `m_stop` of
the queue in one go. `accepted`, `popped` and `pushed` say what happened; no step looks
at them.
-/

namespace StreamForge

namespace ThreadPool

open Relation

inductive WorkerPhase where
  | popping
  | handling (task : Task)
  | exited

/-- Where the owner of the pool is. The stop is set from `joining` on. -/
inductive OwnerPhase where
  | serving
  | joining
  | joined
deriving DecidableEq

structure State (n : ℕ) where
  queue : List Task := []
  worker : Fin n → WorkerPhase := fun _ => .popping
  owner : OwnerPhase := .serving
  accepted : List Task := []
  popped : List Task := []
  pushed : List Completion := []

variable {n : ℕ} {s s' : State n}

inductive Step (s : State n) : State n → Prop where
  | enqueue {task : Task} : s.owner = .serving →
      Step s { s with queue := s.queue ++ [task], accepted := s.accepted ++ [task] }
  /-- An `enqueue` when the pool is stopped: the task is dropped. -/
  | refused : s.owner = .joined → Step s s
  | pop {w : Fin n} {task : Task} {rest : List Task} : s.worker w = .popping →
      s.queue = task :: rest → Step s { s with
        queue := rest
        worker := Function.update s.worker w (.handling task)
        popped := s.popped ++ [task] }
  /-- `pop` returns false. -/
  | exit {w : Fin n} : s.worker w = .popping → s.queue = [] → s.owner ≠ .serving →
      Step s { s with worker := Function.update s.worker w .exited }
  /-- `handle_request` has returned. -/
  | finish {w : Fin n} {task : Task} (responseBytes : Bytes) : s.worker w = .handling task →
      Step s { s with
        worker := Function.update s.worker w .popping
        pushed := s.pushed ++ [⟨task.connId, responseBytes, task⟩] }
  | stop : s.owner = .serving → Step s { s with owner := .joining }
  | join : s.owner = .joining → (∀ w, s.worker w = .exited) → Step s { s with owner := .joined }

def Reachable : State n → Prop := ReflTransGen Step {}

/-! ## What the workers hold -/

theorem sum_update {M : Type} [AddCommMonoid M] (f : WorkerPhase → M) {w : Fin n}
    {phase : WorkerPhase} (hw : s.worker w = phase) (x : WorkerPhase) :
    f phase + ∑ v, f (Function.update s.worker w x v) = f x + ∑ v, f (s.worker v) := by
  have hothers : ∑ v ∈ Finset.univ.erase w, f (Function.update s.worker w x v) =
      ∑ v ∈ Finset.univ.erase w, f (s.worker v) := by
    apply Finset.sum_congr rfl
    intro v hv
    rw [Function.update_of_ne (Finset.ne_of_mem_erase hv)]
  rw [← Finset.add_sum_erase _ _ (Finset.mem_univ w), Function.update_self, hothers, ← hw,
    ← Finset.add_sum_erase _ (fun v => f (s.worker v)) (Finset.mem_univ w), add_left_comm]

def WorkerPhase.inHand : WorkerPhase → Multiset Task
  | .handling task => {task}
  | _ => 0

structure Inv (s : State n) : Prop where
  order : s.popped ++ s.queue = s.accepted
  held : (s.popped : Multiset Task) = (s.pushed.map Completion.task : List Task) +
    ∑ w, (s.worker w).inHand
  exited : ∀ w, s.worker w = .exited → s.owner ≠ .serving ∧ s.queue = []
  joined : s.owner = .joined → ∀ w, s.worker w = .exited

theorem Inv.step (h : Inv s) (hs : Step s s') : Inv s' := by
  have hsum := @sum_update n s _ _ WorkerPhase.inHand
  have hothers : ∀ {w x v}, x ≠ .exited → Function.update s.worker w x v = .exited →
      s.worker v = .exited := by
    intro w x v hx hv
    rw [Function.update_apply] at hv
    split at hv
    · exact absurd hv hx
    · exact hv
  -- a worker that still runs keeps the owner in its `join`
  have hjoined : ∀ {w phase}, s.worker w = phase → phase ≠ .exited → s.owner ≠ .joined := by
    rintro w _ rfl hphase howner
    exact hphase (h.joined howner w)
  cases hs with
  | refused _ => exact h
  | enqueue howner =>
    exact ⟨by rw [← List.append_assoc, h.order], h.held,
      fun w hw => absurd howner (h.exited w hw).1, h.joined⟩
  | @pop w task rest hw hq =>
    refine ⟨?_, ?_, fun v hv => ?_, fun howner => absurd howner (hjoined hw (by simp))⟩
    · rw [← h.order, hq, List.append_assoc, List.singleton_append]
    · rw [← Multiset.coe_add, h.held, add_assoc, add_comm _ ([task] : Multiset Task)]
      exact congrArg _ ((hsum hw (.handling task)).symm.trans (zero_add _))
    · have hempty := (h.exited v (hothers (by simp) hv)).2
      rw [hq] at hempty
      cases hempty
  | @exit w hw hq hstopped =>
    exact ⟨h.order, h.held.trans (congrArg _ (add_left_cancel (hsum hw .exited)).symm),
      fun _ _ => ⟨hstopped, hq⟩, fun howner => absurd howner (hjoined hw (by simp))⟩
  | finish bytes hw =>
    refine ⟨h.order, ?_, fun v hv => h.exited v (hothers (by simp) hv),
      fun howner => absurd howner (hjoined hw (by simp))⟩
    rw [h.held, List.map_append, ← Multiset.coe_add, add_assoc]
    exact congrArg _ ((zero_add _).symm.trans (hsum hw .popping).symm)
  | stop howner =>
    exact ⟨h.order, h.held, fun w hw => absurd howner (h.exited w hw).1,
      fun hjoined => by cases hjoined⟩
  | join howner hall =>
    exact ⟨h.order, h.held, fun w hw => ⟨by simp, (h.exited w hw).2⟩, fun _ => hall⟩

/-! ## The shutdown -/

/-- How many steps the worker makes until it leaves, if it finds nothing in the queue. -/
def WorkerPhase.remaining : WorkerPhase → ℕ
  | .popping => 1
  | .handling _ => 2
  | .exited => 0

/-- The steps that are left of `stop_and_join`. A task in the queue is taken and finished. -/
def State.remaining (s : State n) : ℕ :=
  2 * s.queue.length + ∑ w, (s.worker w).remaining + if s.owner = .joined then 0 else 1

theorem remaining_step (hs : Step s s') (hjoining : s.owner = .joining) :
    s'.remaining + 1 = s.remaining := by
  have hsum := @sum_update n s ℕ _ WorkerPhase.remaining
  unfold WorkerPhase.remaining at hsum
  unfold State.remaining WorkerPhase.remaining
  cases hs with
  | @pop w task rest hw hq =>
    have hone := hsum hw (.handling task)
    simp only [hq, List.length_cons] at hone ⊢
    omega
  | @exit w hw hq hstopped =>
    have hone := hsum hw .exited
    simp only at hone ⊢
    omega
  | finish bytes hw =>
    have hone := hsum hw .popping
    simp only at hone ⊢
    omega
  | join howner hall => simp [howner]
  | _ howner => cases hjoining.symm.trans howner

theorem progress (hjoining : s.owner = .joining) : ∃ s', Step s s' := by
  by_cases hall : ∀ w, s.worker w = .exited
  · exact ⟨_, .join hjoining hall⟩
  obtain ⟨w, hw⟩ := not_forall.mp hall
  cases hphase : s.worker w with
  | exited => exact absurd hphase hw
  | handling task => exact ⟨_, .finish [] hphase⟩
  | popping =>
    cases hq : s.queue with
    | nil => exact ⟨_, .exit hphase hq (by simp [hjoining])⟩
    | cons task rest => exact ⟨_, .pop hphase hq⟩

/-- **A shutdown drops no task.** Once the pool is stopped there is always a next step, and
each brings the owner one nearer to the end of `stop_and_join`. At the end the workers have
taken the accepted tasks in order and answered each of them once. -/
theorem shutdown_answers_all (h : Reachable s) (hn : 0 < n) :
    (s.owner = .joining → (∃ s', Step s s') ∧ ∀ s', Step s s' → s'.remaining + 1 = s.remaining) ∧
    (s.owner = .joined → s.popped = s.accepted ∧
      (s.pushed.map Completion.task).Perm s.accepted) := by
  have hinv : Inv s := by
    induction h with
    | refl =>
      refine ⟨rfl, ?_, fun w hw => (by cases hw), fun howner => by cases howner⟩
      show 0 = 0 + ∑ w : Fin n, (0 : Multiset Task)
      rw [Finset.sum_const_zero, add_zero]
    | tail _ hs ih => exact ih.step hs
  refine ⟨fun howner => ⟨progress howner, fun _ hs => remaining_step hs howner⟩, fun howner => ?_⟩
  have hall := hinv.joined howner
  have horder := hinv.order
  rw [(hinv.exited ⟨0, hn⟩ (hall _)).2, List.append_nil] at horder
  refine ⟨horder, ?_⟩
  have hheld := hinv.held
  rw [horder, Finset.sum_eq_zero fun w _ => by rw [hall w]; rfl, add_zero] at hheld
  exact (Multiset.coe_eq_coe.mp hheld).symm

/-- One worker, and a stop that comes with two tasks in the queue. -/
theorem shutdown_answers_all_queued : ∃ s s' : State 1, s.owner = .joining ∧
    s.queue.length = 2 ∧ (∃ t, Step s t) ∧ s'.owner = .joined ∧ s'.accepted = s.queue ∧
    s'.popped = s'.accepted ∧ (s'.pushed.map Completion.task).Perm s'.accepted := by
  have henqueued : Reachable _ := .tail (.single (@Step.enqueue 1 {} ⟨1, ⟨5, 1, 7, []⟩, 0⟩ rfl))
    (@Step.enqueue _ _ ⟨2, ⟨5, 1, 8, []⟩, 0⟩ rfl)
  have hstopped := henqueued.tail (.stop rfl)
  have hfirst := (hstopped.tail (@Step.pop _ _ 0 _ _ rfl rfl)).tail (@Step.finish _ _ 0 _ [] rfl)
  have hsecond := (hfirst.tail (@Step.pop _ _ 0 _ _ rfl rfl)).tail (@Step.finish _ _ 0 _ [] rfl)
  have hjoined := (hsecond.tail (@Step.exit _ _ 0 rfl rfl (by simp))).tail
    (.join rfl fun w => by rw [Subsingleton.elim w 0]; rfl)
  exact ⟨_, _, rfl, rfl, ((shutdown_answers_all hstopped one_pos).1 rfl).1, rfl, rfl,
    (shutdown_answers_all hjoined one_pos).2 rfl⟩

end ThreadPool

end StreamForge
