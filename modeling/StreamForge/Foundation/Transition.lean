import Mathlib.Logic.Basic

/-!
# Guarded runs of a transition system

`Reach init step P` is what a system gets to from its initial states by steps
that all satisfy `P` in the state they find. `P` is how a run is kept to the
steps a statement is about: with `fun _ _ => True` all runs count.
-/

namespace Transition

variable {S A : Type}

inductive Reach (init : S → Prop) (step : S → A → S → Prop) (P : S → A → Prop) : S → Prop where
  | init {s : S} : init s → Reach init step P s
  | step {s s' : S} {a : A} : Reach init step P s → P s a → step s a s' → Reach init step P s'

variable {init : S → Prop} {step : S → A → S → Prop} {P : S → A → Prop}

theorem Reach.invariant {I : S → Prop} (hinit : ∀ s, init s → I s)
    (hstep : ∀ s a s', I s → P s a → step s a s' → I s') {s : S} (h : Reach init step P s) :
    I s := by
  induction h with
  | init hs => exact hinit _ hs
  | step _ hP hs ih => exact hstep _ _ _ ih hP hs

theorem Reach.mono {Q : S → A → Prop} (hPQ : ∀ s a, P s a → Q s a) {s : S}
    (h : Reach init step P s) : Reach init step Q s := by
  induction h with
  | init hs => exact .init hs
  | step _ hP hs ih => exact ih.step (hPQ _ _ hP) hs

theorem Reach.foldlM {f : S → A → Option S} (acts : List A) (hP : ∀ s, ∀ a ∈ acts, P s a)
    {s s' : S} (h : Reach init (fun s a s' => f s a = some s') P s)
    (hrun : acts.foldlM f s = some s') :
    Reach init (fun s a s' => f s a = some s') P s' := by
  induction acts generalizing s with
  | nil =>
    obtain rfl : s = s' := Option.some.inj hrun
    exact h
  | cons a acts ih =>
    obtain ⟨s₁, hs, hrun⟩ := Option.bind_eq_some_iff.mp hrun
    exact ih (fun s b hb => hP s b (List.mem_cons_of_mem _ hb))
      (h.step (hP s a (List.mem_cons_self ..)) hs) hrun

end Transition
