import Mathlib.Data.List.Nodup
import Mathlib.Data.List.Perm.Basic

/-!
# Ledgers

A ledger says what each place holds.  It is *exclusive* when nothing is held twice:
not by two places, and not twice by one.  Exclusive ledgers stay exclusive when one
thing moves from one place to another, appears or disappears.

This is the argument behind ownership: who holds a thing may use it without asking, since
it is held nowhere else.  A change is described by what it does at two places, everywhere
else being as before, so that one lemma serves every system whose steps move things one at
a time.

## Main definitions

* `Exclusive l` — nothing is held twice in the ledger `l`.
* `Moved l l' x src dst` — the ledgers agree but for `x`, which left `src` and came
  to `dst`.

## Main results

* `Exclusive.moved` — **moving one thing keeps a ledger exclusive.**
* `Moved.mem_iff` — what is held where after a move.
-/

namespace Newiup

variable {P A : Type*}

/-- Nothing is held twice. -/
structure Exclusive (l : P → List A) : Prop where
  /-- No place holds a thing twice. -/
  nodup : ∀ p, (l p).Nodup
  /-- No two places hold the same thing. -/
  unique : ∀ {p p' a}, a ∈ l p → a ∈ l p' → p = p'

/-- The thing `x` left the place `src`, if there is one, and came to `dst`, if there
is one. -/
structure Moved (l l' : P → List A) (x : A) (src dst : Option P) : Prop where
  /-- Other places are as they were. -/
  same : ∀ p, src ≠ some p → dst ≠ some p → l' p = l p
  /-- Where `x` left. -/
  src : ∀ p, src = some p → (l p).Perm (x :: l' p)
  /-- Where `x` came to. -/
  dst : ∀ p, dst = some p → (l' p).Perm (x :: l p)

namespace Moved

variable {l l' : P → List A} {x : A} {src dst : Option P}

theorem mem_src (h : Moved l l' x src dst) {p : P} (hs : src = some p) : x ∈ l p :=
  (h.src p hs).mem_iff.mpr List.mem_cons_self

theorem mem_dst (h : Moved l l' x src dst) {p : P} (hd : dst = some p) : x ∈ l' p :=
  (h.dst p hd).mem_iff.mpr List.mem_cons_self

/-- Everything else stays where it is. -/
theorem mem_iff_of_ne (h : Moved l l' x src dst) {p : P} {a : A} (ha : a ≠ x) :
    a ∈ l' p ↔ a ∈ l p := by
  by_cases hs : src = some p
  · rw [(h.src p hs).mem_iff, List.mem_cons, or_iff_right ha]
  · by_cases hd : dst = some p
    · rw [(h.dst p hd).mem_iff, List.mem_cons, or_iff_right ha]
    · rw [h.same p hs hd]

/-- Places it neither leaves nor comes to are as they were. -/
theorem mem_iff_of_place (h : Moved l l' x src dst) {p : P} {a : A} (hs : src ≠ some p)
    (hd : dst ≠ some p) : a ∈ l' p ↔ a ∈ l p := by
  rw [h.same p hs hd]

/-- **What is held where after a move**, from an exclusive ledger. -/
theorem mem_iff (h : Moved l l' x src dst) (he : Exclusive l)
    (hx : src = none → ∀ p, x ∉ l p) {p : P} {a : A} :
    a ∈ l' p ↔ (a ∈ l p ∧ a ≠ x) ∨ (a = x ∧ dst = some p) := by
  by_cases ha : a = x
  · subst ha
    simp only [ne_eq, not_true, and_false, true_and, false_or]
    refine ⟨fun hp => ?_, fun hd => h.mem_dst hd⟩
    by_contra hd
    by_cases hs : src = some p
    · -- it was held once at the place it left
      have hnodup := (h.src p hs).nodup_iff.mp (he.nodup p)
      exact (List.nodup_cons.mp hnodup).1 hp
    · rw [h.same p hs hd] at hp
      cases hsrc : src with
      | none => exact hx hsrc p hp
      | some q => exact hs (hsrc.trans (congrArg some (he.unique (h.mem_src hsrc) hp)))
  · rw [h.mem_iff_of_ne ha]
    simp [ha]

end Moved

/-- **Moving one thing keeps a ledger exclusive.** -/
theorem Exclusive.moved {l l' : P → List A} {x : A} {src dst : Option P} (he : Exclusive l)
    (h : Moved l l' x src dst) (hx : src = none → ∀ p, x ∉ l p) : Exclusive l' where
  nodup p := by
    by_cases hs : src = some p
    · exact (List.nodup_cons.mp ((h.src p hs).nodup_iff.mp (he.nodup p))).2
    · by_cases hd : dst = some p
      · rw [(h.dst p hd).nodup_iff, List.nodup_cons]
        refine ⟨fun hp => ?_, he.nodup p⟩
        cases hsrc : src with
        | none => exact hx hsrc p hp
        | some q => exact hs (hsrc.trans (congrArg some (he.unique (h.mem_src hsrc) hp)))
      · rw [h.same p hs hd]
        exact he.nodup p
  unique {p p' a} ha ha' := by
    rw [h.mem_iff he hx] at ha ha'
    rcases ha with ⟨ha, hne⟩ | ⟨rfl, hd⟩
    · rcases ha' with ⟨ha', -⟩ | ⟨rfl, -⟩
      · exact he.unique ha ha'
      · exact absurd rfl hne
    · rcases ha' with ⟨-, hne⟩ | ⟨-, hd'⟩
      · exact absurd rfl hne
      · exact Option.some.inj (hd.symm.trans hd')

section Update

variable [DecidableEq P] {l : P → List A} {x : A} {p p' : P} {m m' : List A}

/-- A move between two places, as updates of the ledger. -/
theorem Moved.of_update (hne : p ≠ p') (hs : (l p).Perm (x :: m)) (hd : m'.Perm (x :: l p')) :
    Moved l (Function.update (Function.update l p m) p' m') x (some p) (some p') where
  same q h h' := by
    rw [Function.update_of_ne fun he => h' (congrArg some he.symm),
      Function.update_of_ne fun he => h (congrArg some he.symm)]
  src q h := by
    cases h
    rw [Function.update_of_ne hne, Function.update_self]
    exact hs
  dst q h := by
    cases h
    rw [Function.update_self]
    exact hd

/-- A thing appears. -/
theorem Moved.of_update_dst (hd : m'.Perm (x :: l p')) :
    Moved l (Function.update l p' m') x none (some p') where
  same q _ h' := Function.update_of_ne (fun he => h' (congrArg some he.symm)) _ _
  src q h := by cases h
  dst q h := by
    cases h
    rw [Function.update_self]
    exact hd

/-- A thing disappears. -/
theorem Moved.of_update_src (hs : (l p).Perm (x :: m)) :
    Moved l (Function.update l p m) x (some p) none where
  same q h _ := Function.update_of_ne (fun he => h (congrArg some he.symm)) _ _
  src q h := by
    cases h
    rw [Function.update_self]
    exact hs
  dst q h := by cases h

end Update

end Newiup
