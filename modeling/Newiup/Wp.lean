import Mathlib.Tactic

/-!
# Weakest preconditions of state programs

`wp x Q s` says that the state program `x`, run from `s`, ends in a result and a
state that satisfy `Q`.  State programs are total, so this is total correctness.

The two rules of the monad hold by definition, so that a postcondition is pushed through a
program by rewriting.  A proof then follows the text of its function: the rule of the
function that is called, `wp_ite` at a test, and the rule of consequence where more is
known of a call than is asked for.

## Main results

* `wp_pure`, `wp_bind` — the rules of the monad, as rewriting rules.
* `wp_mono` — the rule of consequence.
* `wp_and` — postconditions are proved one at a time.
-/

namespace Newiup

universe u

variable {σ α β : Type u}

/-- The weakest precondition of a state program. -/
def wp (x : StateM σ α) (Q : α → σ → Prop) (s : σ) : Prop := Q (x.run s).1 (x.run s).2

@[simp] theorem wp_pure (a : α) (Q : α → σ → Prop) (s : σ) :
    wp (pure a) Q s ↔ Q a s := Iff.rfl

@[simp] theorem wp_bind (x : StateM σ α) (f : α → StateM σ β) (Q : β → σ → Prop) (s : σ) :
    wp (x >>= f) Q s ↔ wp x (fun a => wp (f a) Q) s := Iff.rfl

/-- **The rule of consequence.** -/
theorem wp_mono {x : StateM σ α} {Q R : α → σ → Prop} {s : σ} (h : wp x Q s)
    (hQR : ∀ a t, Q a t → R a t) : wp x R s := hQR _ _ h

theorem wp_and {x : StateM σ α} {Q R : α → σ → Prop} {s : σ} (hQ : wp x Q s) (hR : wp x R s) :
    wp x (fun a t => Q a t ∧ R a t) s := ⟨hQ, hR⟩

/-- A test on the way splits the proof. -/
theorem wp_ite {c : Prop} [Decidable c] {x y : StateM σ α} {Q : α → σ → Prop} {s : σ}
    (hx : c → wp x Q s) (hy : ¬c → wp y Q s) : wp (if c then x else y) Q s := by
  split
  · next h => exact hx h
  · next h => exact hy h

theorem wp_ite_iff {c : Prop} [Decidable c] {x y : StateM σ α} {Q : α → σ → Prop} {s : σ} :
    wp (if c then x else y) Q s ↔ if c then wp x Q s else wp y Q s := by
  split <;> exact Iff.rfl

end Newiup
