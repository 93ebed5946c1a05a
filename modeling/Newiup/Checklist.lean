import Newiup.Checked
import Newiup.Start

/-!
# Checklists

A start-up function makes one check after the other.  A check passes, or it stops the
program with an error, or it does what is undefined; how the function ends is how the first
check goes that does not pass.

## Main definitions

* `Verdict` — how a check goes.
* `firstStop`, `Sound` — the first check that does not pass, and that it is not undefined.
* `Start.Checks` — a computation makes the checks of a list and keeps an invariant.
* `Checked.Goes` — the same over arrays, with the value where all checks pass.

## Main results

* `sound_iff` — **a checklist is sound when its first stop is no crash.**
* `Start.Checks.bind` — **the checks of a sequence are those of its parts.**
* `Checked.Goes.loop` — **the checks of a loop are those of its turns.**
-/

namespace Newiup

/-- How a check goes. -/
inductive Verdict
  /-- The program goes on. -/
  | pass
  /-- It returns an error. -/
  | stop
  /-- It ends the process. -/
  | exit
  /-- It does what is undefined. -/
  | crash
  deriving DecidableEq

/-- What comes after a check that passes. -/
def Verdict.andThen : Verdict → Verdict → Verdict
  | .pass, w => w
  | .stop, _ => .stop
  | .exit, _ => .exit
  | .crash, _ => .crash

/-- How the first check goes that does not pass. -/
def firstStop : List Verdict → Verdict
  | [] => .pass
  | v :: vs => v.andThen (firstStop vs)

/-- **Nothing undefined is done**: no check that is come to does what is undefined.  A later
check may be one that the source could not survive; it does not count where an earlier one has
ended the program. -/
def Sound (checks : List Verdict) : Prop :=
  ∀ k : ℕ, (∀ j < k, checks[j]? = some Verdict.pass) → checks[k]? ≠ some Verdict.crash

theorem Verdict.andThen_assoc (u v w : Verdict) :
    (u.andThen v).andThen w = u.andThen (v.andThen w) := by
  cases u <;> rfl

@[simp] theorem Verdict.pass_andThen (v : Verdict) : Verdict.pass.andThen v = v := rfl
@[simp] theorem Verdict.andThen_pass (v : Verdict) : v.andThen .pass = v := by cases v <;> rfl

@[simp] theorem firstStop_nil : firstStop [] = .pass := rfl
@[simp] theorem firstStop_cons (v : Verdict) (vs : List Verdict) :
    firstStop (v :: vs) = v.andThen (firstStop vs) := rfl

theorem firstStop_append (vs ws : List Verdict) :
    firstStop (vs ++ ws) = (firstStop vs).andThen (firstStop ws) := by
  induction vs with
  | nil => rfl
  | cons v vs ih => rw [List.cons_append, firstStop_cons, ih, firstStop_cons, Verdict.andThen_assoc]

/-- Checks of one kind are one check. -/
theorem firstStop_crashes {ι : Type} (P : ι → Prop) [DecidablePred P] (l : List ι) :
    firstStop (l.flatMap fun i => [if P i then .pass else .crash]) =
      if ∀ i ∈ l, P i then .pass else .crash := by
  induction l with
  | nil => rfl
  | cons i l ih =>
    rw [List.flatMap_cons, firstStop_append, ih]
    rw [if_congr List.forall_mem_cons rfl rfl]
    by_cases hi : P i
    · by_cases hl : ∀ i ∈ l, P i
      · rw [if_pos hi, if_pos hl, if_pos ⟨hi, hl⟩]
        rfl
      · rw [if_pos hi, if_neg hl, if_neg (show ¬(P i ∧ ∀ i ∈ l, P i) from fun h => hl h.2)]
        rfl
    · rw [if_neg hi, if_neg (show ¬(P i ∧ ∀ i ∈ l, P i) from fun h => hi h.1)]
      rfl

theorem firstStop_ne_exit {vs : List Verdict} (h : ∀ v ∈ vs, v ≠ .exit) :
    firstStop vs ≠ .exit := by
  induction vs with
  | nil => exact nofun
  | cons v vs ih =>
    have hv := h v List.mem_cons_self
    have hvs := ih fun w hw => h w (List.mem_cons_of_mem v hw)
    rw [firstStop_cons]
    cases v with
    | pass => exact hvs
    | stop => exact nofun
    | exit => exact absurd rfl hv
    | crash => exact nofun

theorem sound_cons (v : Verdict) (vs : List Verdict) :
    Sound (v :: vs) ↔ v ≠ .crash ∧ (v = .pass → Sound vs) := by
  constructor
  · intro h
    refine ⟨fun hv => h 0 (fun j hj => absurd hj (Nat.not_lt_zero j)) (by rw [hv]; rfl), ?_⟩
    rintro rfl k hk
    refine h (k + 1) fun j hj => ?_
    cases j with
    | zero => rfl
    | succ j => exact hk j (by omega)
  · rintro ⟨hv, hvs⟩ k hk
    cases k with
    | zero => exact fun he => hv (Option.some.inj he)
    | succ k =>
      have hpass : v = .pass := Option.some.inj (hk 0 (Nat.succ_pos k))
      exact hvs hpass k fun j hj => hk (j + 1) (by omega)

/-- **A checklist is sound** when its first stop is no crash. -/
theorem sound_iff (checks : List Verdict) : Sound checks ↔ firstStop checks ≠ .crash := by
  induction checks with
  | nil => exact iff_of_true (fun k _ => by simp) (by simp)
  | cons v vs ih =>
    rw [sound_cons, ih, firstStop_cons]
    cases v <;> simp [Verdict.andThen]

instance (checks : List Verdict) : Decidable (Sound checks) :=
  decidable_of_iff _ (sound_iff checks).symm

/-- How a computation that ends so goes as a check. -/
def Ends.verdict {α : Type*} : Ends α → Verdict
  | .done _ => .pass
  | .failed => .stop
  | .exits _ => .exit
  | .crash => .crash

theorem Ends.verdict_eq_crash {α : Type*} {e : Ends α} : e.verdict = .crash ↔ e = .crash := by
  cases e <;> simp [Ends.verdict]

namespace Start

variable {σ α β : Type} {I : σ → Prop} {x : Start σ α} {f : α → Start σ β} {l l' : List Verdict}
  {s : σ}

/-- How a sequence goes: what comes after a value is come to where the first part passes. -/
theorem verdict_bind (hx : (x s).1.verdict = firstStop l)
    (hf : ∀ a s', x s = (.done a, s') → (f a s').1.verdict = firstStop l') :
    ((x >>= f) s).1.verdict = firstStop (l ++ l') := by
  rw [firstStop_append, ← hx]
  rcases hxs : x s with ⟨a | _ | c | _, s'⟩
  · rw [bind_of_done hxs]
    exact hf a s' hxs
  · rw [bind_of_failed hxs]
    rfl
  · rw [bind_of_exits hxs]
    rfl
  · rw [bind_of_crash hxs]
    rfl

/-- The computation makes the checks of the list, and keeps `I` however it ends.  The list is
compared with the end of the computation and not with its steps, so that the two may differ in
the order of what does not depend on each other.  The invariant carries what later checks rely
on. -/
structure Checks (I : σ → Prop) (x : Start σ α) (l : List Verdict) : Prop where
  verdict : ∀ s, I s → (x s).1.verdict = firstStop l
  keeps : ∀ s, I s → I (x s).2

theorem Checks.pure (a : α) : Checks I (Pure.pure a : Start σ α) [] :=
  ⟨fun _ _ => rfl, fun _ h => h⟩

theorem Checks.modify {u : σ → σ} (h : ∀ s, I s → I (u s)) : Checks I (Start.modify u) [] :=
  ⟨fun _ _ => rfl, h⟩

theorem Checks.get : Checks I (Start.get : Start σ σ) [] := ⟨fun _ _ => rfl, fun _ h => h⟩

theorem Checks.fail : Checks I (Start.fail : Start σ α) [.stop] := ⟨fun _ _ => rfl, fun _ h => h⟩

/-- What follows an error is not come to. -/
theorem Checks.fail_bind : Checks I ((Start.fail : Start σ α) >>= f) (.stop :: l) :=
  ⟨fun _ _ => rfl, fun _ h => h⟩

/-- What follows undefined behaviour is not come to. -/
theorem Checks.crash_bind : Checks I ((Start.crash : Start σ α) >>= f) (.crash :: l) :=
  ⟨fun _ _ => rfl, fun _ h => h⟩

theorem Checks.exit (c : ℤ) : Checks I (Start.exit c : Start σ α) [.exit] :=
  ⟨fun _ _ => rfl, fun _ h => h⟩

theorem Checks.crash : Checks I (Start.crash : Start σ α) [.crash] :=
  ⟨fun _ _ => rfl, fun _ h => h⟩

theorem Checks.guard (c : Prop) [Decidable c] :
    Checks I (Start.guard c : Start σ Unit) [if c then .pass else .stop] := by
  unfold Start.guard
  split
  · exact ⟨fun _ _ => rfl, fun _ h => h⟩
  · exact Checks.fail

/-- **The checks of a sequence** are those of its parts, where the value that is handed on
is one of `P`. -/
theorem Checks.bind_value {P : α → Prop} (hx : Checks I x l)
    (hP : ∀ s a s', I s → x s = (.done a, s') → P a) (hf : ∀ a, P a → Checks I (f a) l') :
    Checks I (x >>= f) (l ++ l') := by
  refine ⟨fun s hs => verdict_bind (hx.verdict s hs) fun a s' h => ?_, fun s hs => ?_⟩
  · have hkeep := hx.keeps s hs
    rw [h] at hkeep
    exact (hf a (hP s a s' hs h)).verdict s' hkeep
  · have hkeep := hx.keeps s hs
    rcases hxs : x s with ⟨a | _ | c | _, s'⟩
    · rw [hxs] at hkeep
      rw [bind_of_done hxs]
      exact (hf a (hP s a s' hs hxs)).keeps s' hkeep
    · rw [hxs] at hkeep
      rw [bind_of_failed hxs]
      exact hkeep
    · rw [hxs] at hkeep
      rw [bind_of_exits hxs]
      exact hkeep
    · rw [hxs] at hkeep
      rw [bind_of_crash hxs]
      exact hkeep

/-- **The checks of a sequence** are those of its parts. -/
theorem Checks.bind (hx : Checks I x l) (hf : ∀ a, Checks I (f a) l') :
    Checks I (x >>= f) (l ++ l') :=
  hx.bind_value (P := fun _ => True) (fun _ _ _ _ _ => trivial) fun a _ => hf a

/-- A first part that makes one check. -/
theorem Checks.bind_one {v : Verdict} (hx : Checks I x [v]) (hf : ∀ a, Checks I (f a) l) :
    Checks I (x >>= f) (v :: l) := hx.bind hf

/-- A first part that makes none. -/
theorem Checks.bind_none (hx : Checks I x []) (hf : ∀ a, Checks I (f a) l) :
    Checks I (x >>= f) l := hx.bind hf

/-- Another list with the same first stop. -/
theorem Checks.congr (hx : Checks I x l) (h : firstStop l = firstStop l') : Checks I x l' :=
  ⟨fun s hs => (hx.verdict s hs).trans h, hx.keeps⟩

/-- **A computation returns** where all its checks pass. -/
theorem Checks.done (hx : Checks I x l) (hs : I s) (hl : firstStop l = .pass) :
    ∃ a s', x s = (.done a, s') ∧ I s' := by
  have hv := (hx.verdict s hs).trans hl
  have hkeep := hx.keeps s hs
  rcases hxs : x s with ⟨a | _ | c | _, s'⟩ <;> rw [hxs] at hv hkeep
  · exact ⟨a, s', rfl, hkeep⟩
  all_goals cases hv

/-- **It returns an error** where the first check that does not pass reports one. -/
theorem Checks.failed (hx : Checks I x l) (hs : I s) (hl : firstStop l = .stop) :
    ∃ s', x s = (.failed, s') ∧ I s' := by
  have hv := (hx.verdict s hs).trans hl
  have hkeep := hx.keeps s hs
  rcases hxs : x s with ⟨a | _ | c | _, s'⟩ <;> rw [hxs] at hv hkeep
  case failed => exact ⟨s', rfl, hkeep⟩
  all_goals cases hv

end Start

/-! ### Computations over arrays -/

namespace Checked

variable {α β : Type}

/-- How a computation over arrays goes as a check. -/
def verdict : Checked α → Verdict
  | done _ => .pass
  | failed => .stop
  | outside => .crash

/-- The computation makes the checks of the list, and its value is `a` where they pass. -/
structure Goes (x : Checked α) (l : List Verdict) (a : α) : Prop where
  verdict_eq : x.verdict = firstStop l
  done_eq : ∀ b, x = done b → b = a

variable {x : Checked α} {f : α → Checked β} {l l' : List Verdict} {a : α} {b : β}

theorem Goes.done (a : α) : Goes (done a) [] a := ⟨rfl, fun _ h => (Checked.done.inj h).symm⟩

theorem Goes.failed : Goes failed [.stop] a := ⟨rfl, nofun⟩
theorem Goes.outside : Goes outside [.crash] a := ⟨rfl, nofun⟩

/-- Another list with the same first stop. -/
theorem Goes.congr (hx : Goes x l a) (h : firstStop l = firstStop l') : Goes x l' a :=
  ⟨hx.verdict_eq.trans h, hx.done_eq⟩

theorem Goes.bind (hx : Goes x l a) (hf : Goes (f a) l' b) : Goes (x.bind f) (l ++ l') b := by
  obtain ⟨hv, hdone⟩ := hx
  cases x with
  | done c =>
    obtain rfl := hdone c rfl
    refine ⟨?_, hf.done_eq⟩
    rw [firstStop_append, ← hv]
    exact hf.verdict_eq
  | failed =>
    refine ⟨?_, nofun⟩
    rw [firstStop_append, ← hv]
    rfl
  | outside =>
    refine ⟨?_, nofun⟩
    rw [firstStop_append, ← hv]
    rfl

/-- **The checks of a loop** are those of its turns, where turn `i` takes `f i` to
`f (i + 1)`. -/
theorem Goes.loop {body : ℕ → β → Checked β} {c : ℕ → List Verdict} {f : ℕ → β} {n : ℕ}
    (h : ∀ i < n, Goes (body i (f i)) (c i) (f (i + 1))) :
    Goes (Checked.loop body (f 0) n) ((List.range n).flatMap c) (f n) := by
  induction n with
  | zero => exact .done (f 0)
  | succ n ih =>
    rw [loop_succ, List.range_succ, List.flatMap_append, List.flatMap_singleton]
    exact (ih fun i hi => h i (hi.trans (Nat.lt_succ_self n))).bind (h n (Nat.lt_succ_self n))

end Checked
end Newiup
