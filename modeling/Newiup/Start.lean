import Mathlib.Tactic

/-!
# Computations that may end early

A function of a C program that works on global variables returns a value or an error to
its caller, calls `exit`, or does what no program may do: dereference a null pointer,
leave an array, free what is not allocated.

## Main definitions

* `Ends` — how a computation ends.
* `Start σ α` — computations over the variables `σ`.
* `Start.orElse` — what a caller does after an error.
* `Start.zoom` — a computation over a part of the variables.
* `Start.Keeps` — a computation leaves a view of the variables alone.

## Main results

* `Start.bind_done_iff`, `Start.bind_crash_iff` — **how a sequence of two computations
  ends.**
* `Start.Keeps.bind` — what a sequence leaves alone.
-/

namespace Newiup

/-- How a computation ends.  A function of the start-up that finds something wrong returns an
error to its caller, which may clear up.  After the other two nothing of the program follows.
-/
inductive Ends (α : Type*)
  /-- It returns. -/
  | done (a : α)
  /-- It returns an error. -/
  | failed
  /-- It ends the process. -/
  | exits (code : ℤ)
  /-- It does what is undefined. -/
  | crash
  deriving DecidableEq

/-- A computation over the variables `σ`. -/
def Start (σ α : Type) : Type := σ → Ends α × σ

namespace Start

variable {σ α β : Type}

/-- What comes after a value. -/
protected def bind (x : Start σ α) (f : α → Start σ β) : Start σ β := fun s =>
  match x s with
  | (.done a, s') => f a s'
  | (.failed, s') => (.failed, s')
  | (.exits c, s') => (.exits c, s')
  | (.crash, s') => (.crash, s')

instance : Monad (Start σ) where
  pure a := fun s => (.done a, s)
  bind := Start.bind

/-- The variables. -/
def get : Start σ σ := fun s => (.done s, s)

/-- A change of the variables. -/
def modify (f : σ → σ) : Start σ Unit := fun s => (.done (), f s)

/-- `return NEWIUP_FAIL`. -/
def fail : Start σ α := fun s => (.failed, s)

/-- `exit(code)`. -/
def exit (code : ℤ) : Start σ α := fun s => (.exits code, s)

/-- What is undefined. -/
def crash : Start σ α := fun s => (.crash, s)

/-- The use of a pointer. -/
def deref : Option α → Start σ α
  | some a => pure a
  | none => crash

/-- Go on only where the condition holds. -/
def guard (c : Prop) [Decidable c] : Start σ Unit := if c then pure () else fail

/-- After an error of `x` the caller does `y` and returns the error. -/
def orElse (x : Start σ α) (y : Start σ Unit) : Start σ α := fun s =>
  match x s with
  | (.failed, s') => (do y; fail : Start σ α) s'
  | r => r

/-- A computation over some of the variables. -/
def zoom {τ : Type} (part : σ → τ) (update : τ → σ → σ) (x : Start τ α) : Start σ α := fun s =>
  ((x (part s)).1, update (x (part s)).2 s)

variable {x : Start σ α} {f : α → Start σ β} {s s' : σ}

@[simp] theorem pure_apply (a : α) (s : σ) : (pure a : Start σ α) s = (.done a, s) := rfl
@[simp] theorem get_apply (s : σ) : (get : Start σ σ) s = (.done s, s) := rfl
@[simp] theorem modify_apply (g : σ → σ) (s : σ) : modify g s = (.done (), g s) := rfl
@[simp] theorem fail_apply (s : σ) : (fail : Start σ α) s = (.failed, s) := rfl
@[simp] theorem exit_apply (c : ℤ) (s : σ) : (exit c : Start σ α) s = (.exits c, s) := rfl
@[simp] theorem crash_apply (s : σ) : (crash : Start σ α) s = (.crash, s) := rfl
@[simp] theorem deref_some (a : α) : (deref (some a) : Start σ α) = pure a := rfl
@[simp] theorem deref_none : (deref none : Start σ α) = crash := rfl

theorem bind_of_done {a : α} (h : x s = (.done a, s')) : (x >>= f) s = f a s' := by
  change Start.bind x f s = _
  rw [Start.bind, h]

theorem bind_of_failed (h : x s = (.failed, s')) : (x >>= f) s = (.failed, s') := by
  change Start.bind x f s = _
  rw [Start.bind, h]

theorem bind_of_exits {c : ℤ} (h : x s = (.exits c, s')) : (x >>= f) s = (.exits c, s') := by
  change Start.bind x f s = _
  rw [Start.bind, h]

theorem bind_of_crash (h : x s = (.crash, s')) : (x >>= f) s = (.crash, s') := by
  change Start.bind x f s = _
  rw [Start.bind, h]

theorem bind_assoc {γ : Type} (x : Start σ α) (f : α → Start σ β) (g : β → Start σ γ) :
    x >>= f >>= g = x >>= fun a => f a >>= g := by
  funext s
  rcases hx : x s with ⟨_ | _ | _ | _, s'⟩
  · rw [bind_of_done hx]
    change Start.bind (x >>= f) g s = _
    rw [Start.bind, bind_of_done hx]
    rfl
  · rw [bind_of_failed hx, bind_of_failed (bind_of_failed hx)]
  · rw [bind_of_exits hx, bind_of_exits (bind_of_exits hx)]
  · rw [bind_of_crash hx, bind_of_crash (bind_of_crash hx)]

theorem bind_pure (x : Start σ α) : (x >>= fun a => pure a) = x := by
  funext s
  rcases hx : x s with ⟨_ | _ | _ | _, s'⟩
  · exact bind_of_done hx
  · exact bind_of_failed hx
  · exact bind_of_exits hx
  · exact bind_of_crash hx

@[simp] theorem pure_bind (a : α) : ((pure a : Start σ α) >>= f) s = f a s := rfl
@[simp] theorem get_bind {g : σ → Start σ β} : ((get : Start σ σ) >>= g) s = g s s := rfl
@[simp] theorem modify_bind {g : σ → σ} {h : Unit → Start σ β} :
    (modify g >>= h) s = h () (g s) := rfl
@[simp] theorem fail_bind : ((fail : Start σ α) >>= f) s = (.failed, s) := rfl
@[simp] theorem exit_bind (c : ℤ) : ((exit c : Start σ α) >>= f) s = (.exits c, s) := rfl
@[simp] theorem crash_bind : ((crash : Start σ α) >>= f) s = (.crash, s) := rfl

/-- A loop whose rounds each do a part of what the loop does. -/
theorem forM_done {γ : Type} {I : σ → Prop} {act : σ → List γ → σ} {out : α → List γ}
    {body : α → Start σ Unit} {l : List α} (hnil : ∀ s, act s [] = s)
    (happend : ∀ s k k', act (act s k) k' = act s (k ++ k')) (hI : ∀ s k, I s → I (act s k))
    (hbody : ∀ a ∈ l, ∀ s, I s → body a s = (.done (), act s (out a))) {s : σ} (hs : I s) :
    l.forM body s = (.done (), act s (l.flatMap out)) := by
  induction l generalizing s with
  | nil =>
    rw [List.flatMap_nil, hnil]
    rfl
  | cons a l ih =>
    have hrest : l.forM body (act s (out a)) = (.done (), act (act s (out a)) (l.flatMap out)) :=
      ih (fun b hb => hbody b (List.mem_cons_of_mem a hb)) (hI _ _ hs)
    rw [List.flatMap_cons, ← happend, ← hrest]
    exact bind_of_done (hbody a List.mem_cons_self s hs)

/-- **A sequence returns** when both parts do. -/
theorem bind_done_iff {b : β} {s'' : σ} : (x >>= f) s = (.done b, s'') ↔
    ∃ a s', x s = (.done a, s') ∧ f a s' = (.done b, s'') := by
  constructor
  · intro h
    rcases hx : x s with ⟨_ | _ | _ | _, s'⟩
    · exact ⟨_, _, rfl, by rwa [bind_of_done hx] at h⟩
    · rw [bind_of_failed hx] at h; cases h
    · rw [bind_of_exits hx] at h; cases h
    · rw [bind_of_crash hx] at h; cases h
  · rintro ⟨a, s', hx, h⟩
    rw [bind_of_done hx, h]

/-- **A sequence does what is undefined** when its first part does, or returns and the
second does. -/
theorem bind_crash_iff : ((x >>= f) s).1 = .crash ↔
    (x s).1 = .crash ∨ ∃ a s', x s = (.done a, s') ∧ (f a s').1 = .crash := by
  rcases hx : x s with ⟨_ | _ | _ | _, s'⟩
  · rw [bind_of_done hx]
    simp
  · rw [bind_of_failed hx]
    simp
  · rw [bind_of_exits hx]
    simp
  · rw [bind_of_crash hx]
    simp

theorem guard_done_iff {c : Prop} [Decidable c] {a : Unit} :
    guard c s = (.done a, s') ↔ c ∧ s' = s := by
  unfold guard
  split
  · next h => simp [h, eq_comm]
  · next h => simp [h]

theorem deref_done_iff {o : Option α} {a : α} :
    deref o s = (.done a, s') ↔ o = some a ∧ s' = s := by
  cases o <;> simp [eq_comm]

theorem orElse_done_iff {y : Start σ Unit} {a : α} :
    orElse x y s = (.done a, s') ↔ x s = (.done a, s') := by
  unfold orElse
  rcases hx : x s with ⟨_ | _ | _ | _, t⟩
  · simp
  · constructor
    · intro h
      obtain ⟨_, _, _, h⟩ := bind_done_iff.mp h
      cases h
    · intro h
      cases h
  · simp
  · simp

/-! ### What a computation keeps -/

section Keeps

variable {τ : Type} {g : σ → τ}

/-- Where `x` returns, the view `g` of the variables is as before. -/
def Keeps (g : σ → τ) (x : Start σ α) : Prop :=
  ∀ s a s', x s = (.done a, s') → g s' = g s

theorem Keeps.pure (a : α) : Keeps g (Pure.pure a : Start σ α) := by
  intro s b s' h
  cases h
  rfl

theorem Keeps.modify {u : σ → σ} (h : ∀ s, g (u s) = g s) : Keeps g (Start.modify u) := by
  intro s b s' hs
  cases hs
  exact h s

theorem Keeps.fail : Keeps g (Start.fail : Start σ α) := by
  intro s b s' h
  cases h

theorem Keeps.crash : Keeps g (Start.crash : Start σ α) := by
  intro s b s' h
  cases h

/-- **A sequence keeps what both parts keep.** -/
theorem Keeps.bind (hx : Keeps g x) (hf : ∀ a, Keeps g (f a)) : Keeps g (x >>= f) := by
  intro s b s' h
  obtain ⟨a, t, hxa, hfa⟩ := bind_done_iff.mp h
  rw [hf a t b s' hfa, hx s a t hxa]

theorem Keeps.deref (o : Option α) : Keeps g (Start.deref o) := by
  cases o with
  | none => exact Keeps.crash
  | some a => exact Keeps.pure a

theorem Keeps.guard (c : Prop) [Decidable c] : Keeps g (Start.guard c) := by
  unfold Start.guard
  split
  · exact Keeps.pure ()
  · exact Keeps.fail

theorem Keeps.zoom {ρ : Type} {part : σ → ρ} {update : ρ → σ → σ} {y : Start ρ α}
    (h : ∀ t s, g (update t s) = g s) : Keeps g (Start.zoom part update y) := by
  intro s a s' hs
  obtain ⟨-, rfl⟩ := Prod.ext_iff.mp hs
  exact h _ s

end Keeps

end Start
end Newiup
