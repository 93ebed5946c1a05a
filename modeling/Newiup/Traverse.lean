import Newiup.Tree

/-!
# Traversals of a directory tree

A function that lists a directory, skips hidden names and calls itself on every directory
it finds there.  It has room for a number of nested calls, which is enough where no path
is longer than the start by as much.

The C functions have no such bound and call themselves as long as there are
directories.  With it the definition is structural, and it is no restriction: a call for
an entry has a path that is longer by a name, so that a call too many would be for a path
longer than any that is there.

## Main definitions

* `Walked` — the directories a traversal comes to.
* `traverse` — what it collects.

## Main results

* `mem_traverse` — **what a traversal collects** in a tree that is no deeper than its room.
* `nodup_traverse` — **it collects nothing twice.**
-/

namespace Newiup

variable {α : Type*} (names : List Char → List Name) (isDir : List Char → Bool)
  (here : List Char → List α) (emit : List Char → Name → List α)

/-- The directories a traversal from `p` comes to.  It is the closure without the recursion:
what the traversal visits if it has room enough. -/
inductive Walked (p : List Char) : List Char → Prop
  | here : Walked p p
  | under {q n} (h : Walked p q) (hn : n ∈ names q) (hh : hidden n = false)
      (hd : isDir (child q n) = true) : Walked p (child q n)

/-- What a traversal from the directory `p` collects: `here` at each directory it comes to,
and `emit` for each other entry that is not hidden. -/
def traverse : ℕ → List Char → List α
  | 0, _ => []
  | depth + 1, p => here p ++ (names p).flatMap fun n =>
      if hidden n then []
      else if isDir (child p n) then traverse depth (child p n)
      else emit p n

variable {names isDir here emit} {p q r : List Char} {n : Name} {a : α}

theorem Walked.visible (h : Walked names isDir p q) : Visible p q := by
  induction h with
  | here => exact .here
  | under _ _ hh _ ih => exact ih.under hh

theorem Walked.trans (h : Walked names isDir p q) (h' : Walked names isDir q r) :
    Walked names isDir p r := by
  induction h' with
  | here => exact h
  | under _ hn hh hd ih => exact ih.under hn hh hd

/-- The directories in `p` are `p` and those in its entries. -/
theorem walked_iff : Walked names isDir p q ↔ q = p ∨ ∃ n ∈ names p, hidden n = false ∧
    isDir (child p n) = true ∧ Walked names isDir (child p n) q := by
  constructor
  · intro h
    induction h with
    | here => exact .inl rfl
    | under _ hn hh hd ih =>
      rcases ih with rfl | ⟨m, hm, hmh, hmd, hw⟩
      · exact .inr ⟨_, hn, hh, hd, .here⟩
      · exact .inr ⟨m, hm, hmh, hmd, hw.under hn hh hd⟩
  · rintro (rfl | ⟨n, hn, hh, hd, hw⟩)
    · exact .here
    · exact (Walked.here.under hn hh hd).trans hw

/-- The traversal has room for what it comes to. -/
def Deep (names : List Char → List Name) (isDir : List Char → Bool) (depth : ℕ) (p : List Char) :
    Prop :=
  ∀ q, Walked names isDir p q → q.length < p.length + depth

theorem Deep.child {depth : ℕ} (h : Deep names isDir (depth + 1) p) (hn : n ∈ names p)
    (hh : hidden n = false) (hd : isDir (child p n) = true) :
    Deep names isDir depth (child p n) := by
  intro q hq
  have hlt : q.length < p.length + (depth + 1) := h q ((Walked.here.under hn hh hd).trans hq)
  have hlonger := length_lt_child p n
  omega

theorem Deep.pos {depth : ℕ} (h : Deep names isDir depth p) : depth ≠ 0 := by
  rintro rfl
  exact lt_irrefl _ (h p .here)

/-- What is collected in a directory itself. -/
def Collects (names : List Char → List Name) (isDir : List Char → Bool)
    (here : List Char → List α) (emit : List Char → Name → List α) (q : List Char) (a : α) : Prop :=
  a ∈ here q ∨ ∃ n ∈ names q, hidden n = false ∧ isDir (child q n) = false ∧ a ∈ emit q n

/-- **What a traversal collects** is what is collected in the directories it comes to. -/
theorem mem_traverse {depth : ℕ} (h : Deep names isDir depth p) :
    a ∈ traverse names isDir here emit depth p ↔
      ∃ q, Walked names isDir p q ∧ Collects names isDir here emit q a := by
  induction depth generalizing p with
  | zero => exact absurd rfl h.pos
  | succ depth ih =>
    rw [traverse, List.mem_append, List.mem_flatMap]
    constructor
    · rintro (ha | ⟨n, hn, ha⟩)
      · exact ⟨p, .here, .inl ha⟩
      · split at ha
        · cases ha
        · next hh =>
          rw [Bool.not_eq_true] at hh
          split at ha
          · next hd =>
            obtain ⟨q, hq, hc⟩ := (ih (h.child hn hh hd)).mp ha
            exact ⟨q, (Walked.here.under hn hh hd).trans hq, hc⟩
          · next hd =>
            rw [Bool.not_eq_true] at hd
            exact ⟨p, .here, .inr ⟨n, hn, hh, hd, ha⟩⟩
    · rintro ⟨q, hq, hc⟩
      rcases walked_iff.mp hq with rfl | ⟨n, hn, hh, hd, hw⟩
      · rcases hc with ha | ⟨n, hn, hh, hd, ha⟩
        · exact .inl ha
        · exact .inr ⟨n, hn, by simpa [hh, hd] using ha⟩
      · have ha : a ∈ traverse names isDir here emit depth (child p n) :=
          (ih (h.child hn hh hd)).mpr ⟨q, hw, hc⟩
        exact .inr ⟨n, hn, by simpa [hh, hd] using ha⟩

/-- What is collected lies where it belongs: at the directory, or at its entry. -/
structure Keyed (here : List Char → List α) (emit : List Char → Name → List α)
    (key : α → List Char) : Prop where
  here_key : ∀ p, ∀ a ∈ here p, key a = p
  emit_key : ∀ p n, ∀ a ∈ emit p n, key a = child p n
  here_nodup : ∀ p, ((here p).map key).Nodup
  emit_nodup : ∀ p n, ((emit p n).map key).Nodup

variable {key : α → List Char}

theorem Keyed.within (hk : Keyed here emit key) {depth : ℕ}
    (ha : a ∈ traverse names isDir here emit depth p) : Within p (key a) := by
  induction depth generalizing p with
  | zero => cases ha
  | succ depth ih =>
    rw [traverse, List.mem_append, List.mem_flatMap] at ha
    rcases ha with ha | ⟨n, -, ha⟩
    · rw [hk.here_key p a ha]
    · split at ha
      · cases ha
      · split at ha
        · exact (within_child p n).trans (ih ha)
        · rw [hk.emit_key p n a ha]
          exact within_child p n

/-- **A traversal collects nothing twice.** -/
theorem nodup_traverse (hk : Keyed here emit key) (hnames : ∀ p, (names p).Nodup) {depth : ℕ} :
    ((traverse names isDir here emit depth p).map key).Nodup := by
  induction depth generalizing p with
  | zero => exact List.nodup_nil
  | succ depth ih =>
    rw [traverse, List.map_append, List.map_flatMap, List.nodup_append']
    -- what an entry leads to lies at or below it
    have hunder : ∀ {n q}, q ∈ (if hidden n then []
        else if isDir (child p n) then traverse names isDir here emit depth (child p n)
        else emit p n).map key → Within (child p n) q := by
      intro n q hq
      obtain ⟨a, ha, rfl⟩ := List.mem_map.mp hq
      split at ha
      · cases ha
      · split at ha
        · exact hk.within ha
        · rw [hk.emit_key p n a ha]
    refine ⟨hk.here_nodup p, List.nodup_flatMap.mpr ⟨fun n _ => ?_, ?_⟩, ?_⟩
    · split
      · exact List.nodup_nil
      · split
        · exact ih
        · exact hk.emit_nodup p n
    · -- the entries have nothing in common
      refine (hnames p).imp fun hne q hq hq' => hne ?_
      exact eq_of_within_child (hunder hq) (hunder hq')
    · -- the directory itself is not in an entry
      intro q hq hq'
      obtain ⟨a, ha, rfl⟩ := List.mem_map.mp hq
      obtain ⟨n, -, hn⟩ := List.mem_flatMap.mp hq'
      have hw := hunder hn
      rw [hk.here_key p a ha] at hw
      exact not_within_of_child p n hw

end Newiup
