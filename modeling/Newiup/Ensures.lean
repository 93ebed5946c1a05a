import Newiup.Start

/-!
# What a computation ensures

`x.Ensures Q E s` says that `x`, started with the variables `s`, returns what satisfies `Q`
or an error with variables that satisfy `E`; it neither leaves the process nor does what is
undefined.

A parser or a loader is to end in one of these two ways whatever its input is, and the
statement that says what it returns rules out the other two at the same time.  The rules
are those of weakest preconditions with a second postcondition.  That one stays the same
along a sequence, since an error ends the sequence wherever it comes up.

## Main results

* `ensures_bind` — **the rule of sequences**, as a rewriting rule.
* `Ensures.mono` — the rule of consequence.
* `Yields` — what a computation returns when it is repeated.
-/

namespace Newiup
namespace Start

variable {σ α β : Type} {x : Start σ α} {Q R : α → σ → Prop} {E F : σ → Prop} {s : σ}

/-- What a computation ensures. -/
def Ensures (x : Start σ α) (Q : α → σ → Prop) (E : σ → Prop) (s : σ) : Prop :=
  match x s with
  | (.done a, s') => Q a s'
  | (.failed, s') => E s'
  | _ => False

@[simp] theorem ensures_pure (a : α) : (pure a : Start σ α).Ensures Q E s ↔ Q a s := Iff.rfl

@[simp] theorem ensures_get {Q : σ → σ → Prop} : (get : Start σ σ).Ensures Q E s ↔ Q s s := Iff.rfl

@[simp] theorem ensures_modify {f : σ → σ} {Q : Unit → σ → Prop} :
    (modify f).Ensures Q E s ↔ Q () (f s) := Iff.rfl

@[simp] theorem ensures_fail : (fail : Start σ α).Ensures Q E s ↔ E s := Iff.rfl

@[simp] theorem ensures_crash : (crash : Start σ α).Ensures Q E s ↔ False := Iff.rfl

/-- **The rule of sequences.** -/
@[simp] theorem ensures_bind {f : α → Start σ β} {Q : β → σ → Prop} :
    (x >>= f).Ensures Q E s ↔ x.Ensures (fun a s' => (f a).Ensures Q E s') E s := by
  unfold Ensures
  rcases hx : x s with ⟨_ | _ | _ | _, s'⟩
  · rw [bind_of_done hx]
  · rw [bind_of_failed hx]
  · rw [bind_of_exits hx]
  · rw [bind_of_crash hx]

/-- A test splits the proof. -/
theorem ensures_ite {c : Prop} [Decidable c] {y : Start σ α} (hx : c → x.Ensures Q E s)
    (hy : ¬c → y.Ensures Q E s) : (if c then x else y).Ensures Q E s := by
  split
  · next h => exact hx h
  · next h => exact hy h

/-- **The rule of consequence.** -/
theorem Ensures.mono (h : x.Ensures Q E s) (hQ : ∀ a t, Q a t → R a t) (hE : ∀ t, E t → F t) :
    x.Ensures R F s := by
  unfold Ensures at h ⊢
  split
  · next a t ht =>
    rw [ht] at h
    exact hQ a t h
  · next t ht =>
    rw [ht] at h
    exact hE t h
  · next r hd hf =>
    split at h
    · next a t ht => exact absurd ht (hd a t)
    · next t ht => exact absurd ht (hf t)
    · exact h

/-- How a computation ends that ensures something. -/
theorem Ensures.cases (h : x.Ensures Q E s) :
    (∃ a t, x s = (.done a, t) ∧ Q a t) ∨ ∃ t, x s = (.failed, t) ∧ E t := by
  unfold Ensures at h
  split at h
  · next a t ht => exact Or.inl ⟨a, t, ht, h⟩
  · next t ht => exact Or.inr ⟨t, ht, h⟩
  · exact h.elim

/-- Repeated, `x` returns `as` and gets from `s` to `s'`. -/
def Yields (x : Start σ α) : σ → List α → σ → Prop
  | s, [], s' => s = s'
  | s, a :: as, s' => ∃ t, x s = (.done a, t) ∧ Yields x t as s'

/-- What `x` returns when it is repeated up to `n` times, and where that leads. -/
def collect (x : Start σ α) : ℕ → σ → List α × σ
  | 0, s => ([], s)
  | n + 1, s =>
      match x s with
      | (.done a, t) => (a :: (collect x n t).1, (collect x n t).2)
      | _ => ([], s)

theorem yields_collect (x : Start σ α) (n : ℕ) (s : σ) :
    Yields x s (collect x n s).1 (collect x n s).2 := by
  induction n generalizing s with
  | zero => rfl
  | succ n ih =>
    unfold collect
    split
    · next a t ht => exact ⟨t, ht, ih t⟩
    · rfl

theorem Yields.append {s t u : σ} {as bs : List α} (h : Yields x s as t)
    (h' : Yields x t bs u) : Yields x s (as ++ bs) u := by
  induction as generalizing s with
  | nil =>
    cases h
    exact h'
  | cons a as ih =>
    obtain ⟨r, hr, h⟩ := h
    exact ⟨r, hr, ih h⟩

theorem yields_append_iff {s u : σ} {as bs : List α} :
    Yields x s (as ++ bs) u ↔ ∃ t, Yields x s as t ∧ Yields x t bs u := by
  refine ⟨fun h => ?_, fun ⟨t, h, h'⟩ => h.append h'⟩
  induction as generalizing s with
  | nil => exact ⟨s, rfl, h⟩
  | cons a as ih =>
    obtain ⟨r, hr, h⟩ := h
    obtain ⟨t, hst, htu⟩ := ih h
    exact ⟨t, ⟨r, hr, hst⟩, htu⟩

end Start
end Newiup
