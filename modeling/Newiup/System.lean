import Mathlib.Data.List.Basic

/-!
# Guarded transition systems

A transition system whose steps are made deterministic by an action: the action
says who moves and how the environment answers.  Runs are restricted by a
*guard*, a condition on the state before a step and the action taken, so that an
assumption on the environment is a guard and not part of the system.

## Main definitions

* `System` — initial states and an executable step.
* `System.Reach S G s` — `s` is reached by steps that all satisfy the guard `G`.
* `System.observed` — a system with a record beside it.
* `System.exec` — the executable run of a list of actions.

## Main results

* `System.Reach.invariant` — **the invariant rule**, relative to the guard.
* `System.Reach.mono` — a weaker guard reaches more.
* `System.Reach.of_exec` — an executed run whose steps pass the guard reaches its
  last state.
-/

namespace Newiup

/-- A transition system with actions `α` over states `σ`.  Nondeterminism is in the choice of
the action: which process moves, and what its surroundings answer.  An action that is not
enabled leads nowhere, so that a run is a list of actions and its states are determined by it.
-/
structure System (σ α : Type*) where
  /-- The initial states. -/
  init : σ → Prop
  /-- The step an action makes, or `none` where the action is not enabled. -/
  step : σ → α → Option σ

namespace System

variable {σ α : Type*}

/-- The states reached from an initial one by steps that satisfy the guard. -/
inductive Reach (S : System σ α) (G : σ → α → Prop) : σ → Prop
  | start {s : σ} (h : S.init s) : Reach S G s
  | next {s s' : σ} {a : α} (h : Reach S G s) (hg : G s a) (hs : S.step s a = some s') :
      Reach S G s'

/-- A system restarted from one given state. -/
def startingAt (S : System σ α) (s₀ : σ) : System σ α where
  init := fun s => s = s₀
  step := S.step

/-- The system together with a record that every step writes.  The record has no influence on
the steps, so that every run of the system is one of the observed system and the other way
round.  It lets a statement speak of what a run has done. -/
def observed {ρ : Type*} (S : System σ α) (note : ρ → σ → α → ρ) (r : ρ) : System (σ × ρ) α where
  init := fun x => S.init x.1 ∧ x.2 = r
  step := fun x a => (S.step x.1 a).map fun s' => (s', note x.2 x.1 a)

/-- **The invariant rule.**  What holds initially and is preserved by every step
that satisfies the guard holds of every reachable state.  The step may use that
the state before it is reachable, so that invariants build on each other. -/
theorem Reach.invariant {S : System σ α} {G : σ → α → Prop} {I : σ → Prop}
    (hinit : ∀ s, S.init s → I s)
    (hstep : ∀ s a s', S.Reach G s → I s → G s a → S.step s a = some s' → I s')
    {s : σ} (h : S.Reach G s) : I s := by
  induction h with
  | start h => exact hinit _ h
  | next h hg hs ih => exact hstep _ _ _ h ih hg hs

/-- A weaker guard reaches at least as much. -/
theorem Reach.mono {S : System σ α} {G G' : σ → α → Prop}
    (hG : ∀ s a, G s a → G' s a) {s : σ} (h : S.Reach G s) : S.Reach G' s := by
  induction h with
  | start h => exact .start h
  | next _ hg hs ih => exact .next ih (hG _ _ hg) hs

/-- Execute a list of actions. -/
def exec (S : System σ α) : σ → List α → Option σ
  | s, [] => some s
  | s, a :: as => (S.step s a).elim none fun s' => exec S s' as

theorem exec_cons (S : System σ α) (s : σ) (a : α) (as : List α) :
    S.exec s (a :: as) = (S.step s a).elim none fun s' => S.exec s' as := rfl

/-- `allowed S g s as`: every step of the run of `as` passes the executable guard. -/
def allowed (S : System σ α) (g : σ → α → Bool) : σ → List α → Bool
  | _, [] => true
  | s, a :: as => g s a && (S.step s a).elim true fun s' => allowed S g s' as

/-- **An executed run reaches its last state**, when each of its steps passes an
executable guard that implies the guard of the reachability, in reachable states. -/
theorem Reach.of_exec {S : System σ α} {G : σ → α → Prop} {g : σ → α → Bool}
    (hg : ∀ s a, S.Reach G s → g s a = true → G s a) :
    ∀ {as : List α} {s s' : σ}, S.Reach G s → S.allowed g s as = true →
      S.exec s as = some s' → S.Reach G s' := by
  intro as
  induction as with
  | nil =>
    intro s s' h _ he
    cases he
    exact h
  | cons a as ih =>
    intro s s' h hall he
    rw [exec_cons] at he
    cases hs : S.step s a with
    | none => rw [hs] at he; cases he
    | some t =>
      simp only [allowed, hs, Bool.and_eq_true, Option.elim] at hall he
      exact ih (.next h (hg _ _ h hall.1) hs) hall.2 he

end System
end Newiup
