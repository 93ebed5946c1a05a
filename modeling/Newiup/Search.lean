import Mathlib.Tactic
import Mathlib.Data.List.TakeWhile

/-!
# Searching a list

The first place where a list occurs in another one, and how a search goes in a list that is
joined from segments by a separator.

Looking for something in joined segments is looking for it in one segment after the other,
as long as it has no separator in it: an occurrence cannot reach over a separator then,
and the first one lies in the first segment that has any.  What follows it there ends with
the segment.

## Main definitions

* `search` — the first occurrence.
* `joined` — segments with a separator after each but the last.
* `foundIn` — what follows the first occurrence, in the first segment that has one.

## Main results

* `search_eq_some_iff` — **the first occurrence.**
* `search_append` — a search over a separator that does not occur in what is looked for.
* `rest_search_joined` — **a search over segments finds what the segments say.**
-/

namespace Newiup

variable {α : Type*} [DecidableEq α]

/-- The first index at which `needle` occurs. -/
def search (needle : List α) : List α → Option ℕ
  | [] => if needle = [] then some 0 else none
  | a :: l => if needle <+: a :: l then some 0 else (search needle l).map (· + 1)

theorem search_of_prefix {needle l : List α} (h : needle <+: l) : search needle l = some 0 := by
  cases l with
  | nil => exact if_pos (List.prefix_nil.mp h)
  | cons a l => exact if_pos h

/-- **The first occurrence**: the list is there, and nowhere before. -/
theorem search_eq_some_iff {needle l : List α} {k : ℕ} :
    search needle l = some k ↔
      k ≤ l.length ∧ needle <+: l.drop k ∧ ∀ j < k, ¬needle <+: l.drop j := by
  induction l generalizing k with
  | nil =>
    rw [search]
    split
    · next h =>
      subst h
      constructor
      · rintro h
        cases h
        exact ⟨le_rfl, List.nil_prefix, fun j hj => absurd hj (Nat.not_lt_zero j)⟩
      · rintro ⟨hk, -, -⟩
        rw [Nat.le_zero.mp hk]
    · next h =>
      refine iff_of_false nofun fun hk => h ?_
      simpa using hk.2.1
  | cons a l ih =>
    rw [search]
    by_cases hpre : needle <+: a :: l
    · rw [if_pos hpre]
      constructor
      · rintro h
        cases h
        exact ⟨Nat.zero_le _, hpre, fun j hj => absurd hj (Nat.not_lt_zero j)⟩
      · rintro ⟨-, -, hfirst⟩
        rcases Nat.eq_zero_or_pos k with rfl | hpos
        · rfl
        · exact absurd hpre (hfirst 0 hpos)
    · -- the places in the tail are one further in the list
      rw [if_neg hpre, Option.map_eq_some_iff]
      constructor
      · rintro ⟨m, hm, rfl⟩
        obtain ⟨hle, hat, hfirst⟩ := ih.mp hm
        refine ⟨Nat.succ_le_succ hle, hat, fun j hj => ?_⟩
        cases j with
        | zero => exact hpre
        | succ j => exact hfirst j (by omega)
      · rintro ⟨hle, hat, hfirst⟩
        cases k with
        | zero => exact absurd hat hpre
        | succ k =>
          refine ⟨k, ih.mpr ⟨Nat.le_of_succ_le_succ hle, hat, fun j hj => ?_⟩, rfl⟩
          exact hfirst (j + 1) (by omega)

/-- A list that occurs is found. -/
theorem search_eq_none_iff {needle l : List α} :
    search needle l = none ↔ ¬needle <:+: l := by
  induction l with
  | nil =>
    rw [search, List.infix_nil]
    split <;> simp_all
  | cons a l ih =>
    rw [search, List.infix_cons_iff]
    split
    · next h => simp [h]
    · next h => simp [h, ih]

section Separator

variable {sep stop : α} {needle seg rest : List α} {segs : List (List α)}

omit [DecidableEq α] in
/-- What has no separator begins on one side of it. -/
theorem prefix_append_sep (hsep : sep ∉ needle) :
    needle <+: seg ++ sep :: rest ↔ needle <+: seg := by
  refine ⟨fun h => ?_, fun h => h.trans (List.prefix_append seg _)⟩
  rcases List.prefix_or_prefix_of_prefix h (List.prefix_append seg _) with h' | ⟨q, rfl⟩
  · exact h'
  · have hq := (List.prefix_append_right_inj seg).mp h
    cases q with
    | nil => simp
    | cons c q =>
      obtain ⟨rfl, -⟩ := List.cons_prefix_cons.mp hq
      exact absurd (List.mem_append_right seg List.mem_cons_self) hsep

/-- **A search over a separator** that does not occur in what is looked for. -/
theorem search_append (hne : needle ≠ []) (hsep : sep ∉ needle) :
    search needle (seg ++ sep :: rest) =
      (search needle seg <|> (search needle rest).map (· + (seg.length + 1))) := by
  induction seg with
  | nil =>
    have hpre : ¬needle <+: sep :: rest := fun h => by
      have hseg : needle <+: [] ++ sep :: rest := h
      exact hne (List.prefix_nil.mp ((prefix_append_sep hsep).mp hseg))
    have hsearch : search needle (sep :: rest) = (search needle rest).map (· + 1) := if_neg hpre
    have hnil : search needle [] = none := if_neg hne
    rw [List.nil_append, hsearch, hnil]
    rfl
  | cons a seg ih =>
    have hiff := @prefix_append_sep α sep needle (a :: seg) rest hsep
    rw [List.cons_append] at hiff ⊢
    rw [search, search]
    by_cases hpre : needle <+: a :: seg
    · rw [if_pos (hiff.mpr hpre), if_pos hpre]
      rfl
    · rw [if_neg fun h => hpre (hiff.mp h), if_neg hpre, ih]
      cases search needle seg with
      | some k => rfl
      | none => simp [Function.comp_def, Nat.add_assoc]

/-- Segments with a separator between each two. -/
def joined (sep : α) : List α → List (List α) → List α
  | seg, [] => seg
  | seg, next :: segs => seg ++ sep :: joined sep next segs

/-- What follows the first occurrence, in the first segment that has one.  The rest of the
segment is returned, as a pointer into a string gives all that follows up to the terminator. -/
def foundIn (needle : List α) : List (List α) → Option (List α)
  | [] => none
  | seg :: segs => (search needle seg).elim (foundIn needle segs) fun k => some (seg.drop k)

/-- Another separator. -/
theorem map_joined (hseg : sep ∉ seg) (hsegs : ∀ s ∈ segs, sep ∉ s) :
    (joined sep seg segs).map (fun a => if a = sep then stop else a) = joined stop seg segs := by
  have hmap : ∀ {s : List α}, sep ∉ s → s.map (fun a => if a = sep then stop else a) = s := by
    intro s hs
    refine (List.map_congr_left fun a ha => if_neg ?_).trans (List.map_id' s)
    rintro rfl
    exact hs ha
  induction segs generalizing seg with
  | nil => exact hmap hseg
  | cons next segs ih =>
    obtain ⟨hnext, hmore⟩ := List.forall_mem_cons.mp hsegs
    rw [joined, List.map_append, List.map_cons, if_pos rfl, hmap hseg, ih hnext hmore, joined]

/-- The rest of a segment ends where the separator stands. -/
theorem takeWhile_drop {k : ℕ} (hstop : stop ∉ seg) (hk : k ≤ seg.length) (rest : List α) :
    ((seg ++ stop :: rest).drop k).takeWhile (· ≠ stop) = seg.drop k := by
  have hall : ∀ a ∈ seg.drop k, decide (a ≠ stop) = true := by
    intro a ha
    exact decide_eq_true fun heq => hstop (heq ▸ List.mem_of_mem_drop ha)
  rw [List.drop_append_of_le_length hk, List.takeWhile_append_of_pos hall,
    List.takeWhile_cons_of_neg (by simp), List.append_nil]

/-- **A search over segments** finds what the segments say: read from the first occurrence to
the next separator, it is the rest of the first segment that has an occurrence. -/
theorem rest_search_joined (hne : needle ≠ []) (hsep : sep ∉ needle) (hseg : stop ∉ seg)
    (hsegs : ∀ s ∈ segs, stop ∉ s) :
    ((search needle (joined sep seg segs)).map fun k =>
      ((joined stop seg segs).drop k).takeWhile (· ≠ stop)) = foundIn needle (seg :: segs) := by
  induction segs generalizing seg with
  | nil =>
    rw [joined, joined, foundIn, foundIn]
    cases search needle seg with
    | none => rfl
    | some k =>
      refine congrArg some (List.takeWhile_eq_self_iff.mpr fun a ha => ?_)
      exact decide_eq_true fun heq => hseg (heq ▸ List.mem_of_mem_drop ha)
  | cons next segs ih =>
    obtain ⟨hnext, hmore⟩ := List.forall_mem_cons.mp hsegs
    rw [joined, joined, foundIn, search_append hne hsep, ← ih hnext hmore]
    cases hs : search needle seg with
    | some k => exact congrArg some (takeWhile_drop hseg (search_eq_some_iff.mp hs).1 _)
    | none =>
      cases search needle (joined sep next segs) with
      | none => rfl
      | some k =>
        refine congrArg some ?_
        have hdrop : (seg ++ stop :: joined stop next segs).drop (k + (seg.length + 1)) =
            (joined stop next segs).drop k := by
          rw [List.drop_append, List.drop_eq_nil_of_le (by omega), List.nil_append,
            show k + (seg.length + 1) - seg.length = k + 1 by omega, List.drop_succ_cons]
        exact congrArg _ hdrop

end Separator

end Newiup
