import Mathlib.Data.List.Basic
import Mathlib.Order.Nat
import Mathlib.Data.Nat.Find

/-!
# Computations over arrays of a fixed length

A C function that fills arrays in counted loops ends in one of three ways: with a
value, by a jump to its error label, or with an access outside an array, after which
nothing is known.

Such an access does not end a C function; what it does from then on is unknown.  The third
way absorbs the rest of the computation, so that a theorem by which a function ends in one
of the other two says at the same time that every access it makes is within its array.

## Main definitions

* `Checked` — the three ways.
* `Checked.read`, `Checked.write` — the accesses to an array.
* `Checked.loop` — `for (j = 0; j < n; j++)`.

## Main results

* `Checked.loop_fill` — **a loop that writes one entry a turn fills the array.**
* `Checked.loop_append`, `Checked.loop_stop` — a loop that adds one entry a turn, and one
  that is left in a turn.
-/

namespace Newiup

/-- How a computation ends.  The third way says nothing of what happens then, so that nothing
can be proved of a computation that ends there but that it does. -/
inductive Checked (α : Type*)
  /-- with a value -/
  | done (a : α)
  /-- at the error label -/
  | failed
  /-- with an access outside an array -/
  | outside
  deriving DecidableEq

namespace Checked

variable {α β : Type*}

/-- What comes after a value. -/
protected def bind : Checked α → (α → Checked β) → Checked β
  | done a, f => f a
  | failed, _ => failed
  | outside, _ => outside

instance : Monad Checked where
  pure := done
  bind := Checked.bind

@[simp] theorem bind_eq {α β : Type} (x : Checked α) (f : α → Checked β) :
    (x >>= f) = x.bind f := rfl
@[simp] theorem done_bind (a : α) (f : α → Checked β) : (done a).bind f = f a := rfl
@[simp] theorem failed_bind (f : α → Checked β) : (failed : Checked α).bind f = failed := rfl

/-- Read an entry of an array. -/
def read (xs : List α) (j : ℕ) : Checked α := xs[j]?.elim outside done

/-- Write an entry of an array. -/
def write (xs : List α) (j : ℕ) (x : α) : Checked (List α) :=
  if j < xs.length then done (xs.set j x) else outside

theorem read_of_some {xs : List α} {j : ℕ} {x : α} (h : xs[j]? = some x) : read xs j = done x := by
  rw [read, h]
  rfl

theorem read_of_none {xs : List α} {j : ℕ} (h : xs[j]? = none) : read xs j = outside := by
  rw [read, h]
  rfl

theorem write_of_lt {xs : List α} {j : ℕ} (h : j < xs.length) (x : α) :
    write xs j x = done (xs.set j x) := if_pos h

/-- A counted loop over the variables `acc`. -/
def loop (body : ℕ → β → Checked β) (acc : β) : ℕ → Checked β
  | 0 => done acc
  | n + 1 => (loop body acc n).bind (body n)

variable {body : ℕ → β → Checked β}

@[simp] theorem loop_zero (acc : β) : loop body acc 0 = done acc := rfl
theorem loop_succ (acc : β) (n : ℕ) : loop body acc (n + 1) = (loop body acc n).bind (body n) := rfl

/-- A loop that is left in the turn `k`. -/
theorem loop_stop {x : Checked β} (hx : ∀ b, x ≠ done b) {acc b : β} {k : ℕ}
    (hgo : loop body acc k = done b) (hstop : body k b = x) :
    ∀ {n : ℕ}, k < n → loop body acc n = x := by
  intro n
  induction n with
  | zero =>
    intro h
    exact absurd h (Nat.not_lt_zero k)
  | succ n ih =>
    intro h
    rw [loop_succ]
    rcases Nat.lt_succ_iff_lt_or_eq.mp h with hlt | rfl
    · rw [ih hlt]
      cases x with
      | done b => exact absurd rfl (hx b)
      | failed => rfl
      | outside => rfl
    · rw [hgo, done_bind, hstop]

/-- **A loop that writes one entry a turn** fills an array of `n` entries. -/
theorem loop_fill {body : ℕ → List α → Checked (List α)} {n : ℕ} {d : α} {e : ℕ → α} {m : ℕ}
    (hm : m ≤ n)
    (h : ∀ j xs, j < m → xs.length = n → body j xs = done (xs.set j (e j))) :
    loop body (List.replicate n d) m =
      done ((List.range m).map e ++ List.replicate (n - m) d) := by
  induction m with
  | zero => simp
  | succ m ih =>
    rw [loop_succ, ih (by omega) fun j xs hj => h j xs (by omega), done_bind,
      h m _ (Nat.lt_succ_self m) (by simp; omega)]
    obtain ⟨k, hk⟩ : ∃ k, n - m = k + 1 := ⟨n - m - 1, by omega⟩
    rw [hk, List.replicate_succ, List.set_append_right _ _ (by simp), List.range_succ]
    simp [show n - (m + 1) = k by omega]

/-- A loop that would fill an array and is left in one of its turns. -/
theorem loop_fill_stop {body : ℕ → List α → Checked (List α)} {n : ℕ} {d : α} {e : ℕ → α}
    {x : Checked (List α)} {Q : ℕ → Prop} (hx : ∀ b, x ≠ done b)
    (hgo : ∀ j xs, j < n → xs.length = n → Q j → body j xs = done (xs.set j (e j)))
    (hstop : ∀ j xs, j < n → xs.length = n → ¬Q j → body j xs = x) {j : ℕ} (hj : j < n)
    (hq : ¬Q j) : loop body (List.replicate n d) n = x := by
  classical
  -- the first turn in which it is left
  have hex : ∃ j, ¬Q j := ⟨j, hq⟩
  have hle : Nat.find hex ≤ j := Nat.find_min' hex hq
  -- up to there every turn goes on
  have hfill := @loop_fill _ body n d e (Nat.find hex) (by omega) fun i xs hi hlen =>
    hgo i xs (by omega) hlen (not_not.mp (Nat.find_min hex hi))
  exact loop_stop hx hfill (hstop _ _ (by omega) (by simp; omega) (Nat.find_spec hex)) (by omega)

/-- A loop that adds one entry a turn. -/
theorem loop_append {body : ℕ → List α → Checked (List α)} {n : ℕ} {e : ℕ → α}
    (h : ∀ i xs, i < n → body i xs = done (xs ++ [e i])) :
    loop body [] n = done ((List.range n).map e) := by
  induction n with
  | zero => rfl
  | succ n ih =>
    rw [loop_succ, ih fun i xs hi => h i xs (by omega), done_bind, h n _ (Nat.lt_succ_self n),
      List.range_succ, List.map_append]
    rfl

end Checked
end Newiup
