import Mathlib.Data.List.Nodup
import Mathlib.Data.List.Perm.Subperm
import Mathlib.Logic.Function.Basic
import Mathlib.Order.Nat

/-!
# Relocating entries of a store

A store holds values at places.  A sequence of moves takes values from their places to
others, one after the other, each move taking the place of what it finds at its goal.
No value is lost when the goals are different and no goal is a place still to be
left, and in no other case.

The two parts of the condition belong to different moves: a value that has come to its
goal is not replaced there if no later move has the same goal, and one that has not been
moved yet is not replaced in its place if no earlier move goes there.  The proof is by
induction on the sequence, with the store as the first move leaves it.

## Main definitions

* `Move`, `shift`, `shiftAll` — moves, and what they do to a store.
* `NoClash` — the condition on the moves.
* `Relocated` — every value is at a goal of its own.

## Main results

* `relocated_iff` — **the values are kept exactly when no moves clash.**
-/

namespace Newiup

variable {K V : Type*}

/-- A move from one place to another. -/
structure Move (K : Type*) where
  /-- Where it starts. -/
  src : K
  /-- Its goal. -/
  dst : K

section Stores

/-- The goals are different, no goal is a place that a later move starts from, and
where it would be destroyed no value is moved to where it is. -/
structure NoClash (drops : Bool) (ms : List (Move K)) : Prop where
  /-- Different goals. -/
  goals : (ms.map Move.dst).Nodup
  /-- No goal is a later start. -/
  later : ms.Pairwise fun a b => a.dst ≠ b.src
  /-- No move stays in place. -/
  away : drops = true → ∀ m ∈ ms, m.dst ≠ m.src

/-- In the store `F'` every value that the moves found in `F` is at one of their goals,
each at another. -/
def Relocated (F F' : K → Option V) (ms : List (Move K)) : Prop :=
  ∃ places : List K, places.Nodup ∧ (∀ k ∈ places, k ∈ ms.map Move.dst) ∧
    places.map F' = ms.map fun m => F m.src

variable {drops : Bool} {F F' : K → Option V} {m : Move K} {ms : List (Move K)} {k : K}

/-- Where the values are kept, the goals are different and there is a value at each. -/
theorem Relocated.goals (hval : ∀ m ∈ ms, (F m.src).isSome = true) (h : Relocated F F' ms) :
    (ms.map Move.dst).Nodup ∧ ∀ m ∈ ms, (F' m.dst).isSome = true := by
  obtain ⟨places, hnodup, hsub, hmap⟩ := h
  have hlen : (ms.map Move.dst).length ≤ places.length := by
    have := congrArg List.length hmap
    simp only [List.length_map] at this ⊢
    omega
  -- there are as many places as goals
  have hperm : places.Perm (ms.map Move.dst) :=
    (List.subperm_of_subset hnodup hsub).perm_of_length_le hlen
  refine ⟨hperm.nodup_iff.mp hnodup, fun m hm => ?_⟩
  have hmem : m.dst ∈ places := hperm.mem_iff.mpr (List.mem_map_of_mem hm)
  have hF : F' m.dst ∈ ms.map fun m => F m.src := hmap ▸ List.mem_map_of_mem hmem
  obtain ⟨b, hb, he⟩ := List.mem_map.mp hF
  rw [← he]
  exact hval b hb

variable [DecidableEq K]

/-- What a move does to a store.  A move to where it starts leaves the value there, or
destroys it where `drops` says so. -/
def shift (drops : Bool) (F : K → Option V) (m : Move K) : K → Option V :=
  if m.dst = m.src then
    if drops then Function.update F m.src none else F
  else Function.update (Function.update F m.dst (F m.src)) m.src none

/-- What a sequence of moves does to a store.  The order counts: a place that has been left may
be the goal of a later move, and is not free for an earlier one. -/
def shiftAll (drops : Bool) (F : K → Option V) (ms : List (Move K)) : K → Option V :=
  ms.foldl (shift drops) F

@[simp] theorem shiftAll_nil : shiftAll drops F [] = F := rfl
@[simp] theorem shiftAll_cons :
    shiftAll drops F (m :: ms) = shiftAll drops (shift drops F m) ms := rfl

/-- Other places are as they were. -/
theorem shift_of_ne (hsrc : k ≠ m.src) (hdst : k ≠ m.dst) : shift drops F m k = F k := by
  unfold shift
  split
  · split
    · exact Function.update_of_ne hsrc _ _
    · rfl
  · rw [Function.update_of_ne hsrc, Function.update_of_ne hdst]

/-- The value comes to the goal. -/
theorem shift_dst (h : drops = true → m.dst ≠ m.src) : shift drops F m m.dst = F m.src := by
  unfold shift
  split
  · next hs =>
    rw [if_neg fun hd => h hd hs, hs]
  · next hne => rw [Function.update_of_ne hne, Function.update_self]

/-- The value leaves its place. -/
theorem shift_src (h : m.dst = m.src → drops = true) : shift drops F m m.src = none := by
  unfold shift
  split
  · next hs => rw [if_pos (h hs), Function.update_self]
  · exact Function.update_self _ _ _

/-- A move brings nothing to a place that is not its goal. -/
theorem shift_eq_none (hk : k ≠ m.dst) (h : F k = none) : shift drops F m k = none := by
  by_cases hs : k = m.src
  · rw [hs]
    exact shift_src fun he => absurd (hs.trans he.symm) hk
  · rw [shift_of_ne hs hk, h]

theorem shiftAll_eq_none (hk : k ∉ ms.map Move.dst) (h : F k = none) :
    shiftAll drops F ms k = none := by
  induction ms generalizing F with
  | nil => exact h
  | cons m ms ih =>
    rw [List.map_cons, List.mem_cons, not_or] at hk
    exact ih hk.2 (shift_eq_none hk.1 h)

theorem shiftAll_of_not_mem (hsrc : k ∉ ms.map Move.src) (hdst : k ∉ ms.map Move.dst) :
    shiftAll drops F ms k = F k := by
  induction ms generalizing F with
  | nil => rfl
  | cons m ms ih =>
    rw [List.map_cons, List.mem_cons, not_or] at hsrc hdst
    rw [shiftAll_cons, ih hsrc.2 hdst.2, shift_of_ne hsrc.1 hdst.1]

/-- **Without a clash every value is at its own goal.** -/
theorem shiftAll_dst (hsrc : (ms.map Move.src).Nodup) (h : NoClash drops ms) :
    ∀ m ∈ ms, shiftAll drops F ms m.dst = F m.src := by
  induction ms generalizing F with
  | nil => exact fun m hm => absurd hm List.not_mem_nil
  | cons a ms ih =>
    obtain ⟨hgoals, hlater, haway⟩ := h
    rw [List.map_cons, List.nodup_cons] at hgoals hsrc
    rw [List.pairwise_cons] at hlater
    intro m hm
    rw [shiftAll_cons]
    rcases List.mem_cons.mp hm with rfl | hm
    · -- the later moves leave its goal alone
      have hnot : m.dst ∉ ms.map Move.src := by
        rintro hmem
        obtain ⟨b, hb, he⟩ := List.mem_map.mp hmem
        exact hlater.1 b hb he.symm
      rw [shiftAll_of_not_mem hnot hgoals.1]
      exact shift_dst fun hd => haway hd m List.mem_cons_self
    · have hself : m.src ≠ a.src := fun he => hsrc.1 (he ▸ List.mem_map_of_mem hm)
      rw [ih hsrc.2
          ⟨hgoals.2, hlater.2, fun hd b hb => haway hd b (List.mem_cons_of_mem a hb)⟩ m hm,
        shift_of_ne hself (hlater.1 m hm).symm]

/-- With different goals, a move that takes the value away from its goal leaves nothing
there in the end. -/
theorem shiftAll_goal_eq_none (hgoals : (ms.map Move.dst).Nodup) {i j : ℕ} (hij : i ≤ j)
    (hj : j < ms.length) (he : ms[i].dst = ms[j].src) (hd : i = j → drops = true) :
    shiftAll drops F ms ms[i].dst = none := by
  have hinj : ∀ l (hl : l < ms.length), ms[l].dst = ms[i].dst → l = i := by
    intro l hl h
    have hl' : l < (ms.map Move.dst).length := by simpa
    have hi' : i < (ms.map Move.dst).length := by simp; omega
    have heq : (ms.map Move.dst)[l] = (ms.map Move.dst)[i] := by simpa using h
    exact hgoals.getElem_inj_iff.mp heq
  have hsplit : ms = ms.take j ++ ms[j] :: ms.drop (j + 1) := by
    rw [List.getElem_cons_drop, List.take_append_drop]
  -- no later move comes back to that goal
  have hlater : ms[i].dst ∉ (ms.drop (j + 1)).map Move.dst := by
    intro hmem
    obtain ⟨m, hm, he⟩ := List.mem_map.mp hmem
    obtain ⟨l, hl, rfl⟩ := List.mem_iff_getElem.mp hm
    rw [List.getElem_drop] at he
    have := hinj _ (by simp at hl; omega) he
    omega
  have hleft : shiftAll drops F (ms.take j ++ ms[j] :: ms.drop (j + 1)) ms[i].dst = none := by
    rw [shiftAll, List.foldl_append, List.foldl_cons]
    refine shiftAll_eq_none hlater ?_
    rw [he]
    exact shift_src fun hself => hd (hinj j hj (hself.trans he.symm)).symm
  rwa [← hsplit] at hleft

/-- **The values are kept exactly when no moves clash.** -/
theorem relocated_iff (hsrc : (ms.map Move.src).Nodup)
    (hval : ∀ m ∈ ms, (F m.src).isSome = true) :
    Relocated F (shiftAll drops F ms) ms ↔ NoClash drops ms := by
  constructor
  · intro h
    obtain ⟨hgoals, hsome⟩ := h.goals hval
    have hgone : ∀ m ∈ ms, shiftAll drops F ms m.dst ≠ none := fun m hm h => by
      have := hsome m hm
      rw [h] at this
      cases this
    refine ⟨hgoals, ?_, fun hd m hm he => ?_⟩
    · rw [List.pairwise_iff_getElem]
      intro i j hi hj hij he
      exact hgone _ (List.getElem_mem hi)
        (shiftAll_goal_eq_none hgoals hij.le hj he fun h => absurd h hij.ne)
    · obtain ⟨i, hi, rfl⟩ := List.mem_iff_getElem.mp hm
      exact hgone _ hm (shiftAll_goal_eq_none hgoals le_rfl hi he fun _ => hd)
  · intro h
    refine ⟨ms.map Move.dst, h.goals, fun k hk => hk, ?_⟩
    rw [List.map_map]
    exact List.map_congr_left fun m hm => shiftAll_dst hsrc h m hm

end Stores

end Newiup
