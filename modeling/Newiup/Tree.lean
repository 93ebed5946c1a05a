import Mathlib.Data.List.AList
import Mathlib.Data.List.Infix

/-!
# Directory trees

A directory tree as a map from path texts to entries.  An entry keeps its number
when it is moved, so that a directory can be followed across renames; the structure
carries that numbers are unique and that each entry but the root lies in a directory
of the tree.

## Main definitions

* `Name`, `child`, `Within` — names, the path of an entry of a directory, and what
  lies under a path.
* `Visible` — what a walk that skips hidden names finds.
* `Tree` — directory trees, `Tree.entry` and `Tree.dir`.
* `Tree.make`, `Tree.remove`, `Tree.move` — new entries, removal, and rename.
* `Tree.names` — the names in a directory given by its number.

## Main results

* `Tree.entry_make`, `Tree.entry_remove`, `Tree.entry_move` — **what the operations
  do** to each path.
* `Tree.dir_of_within` — what lies above an entry is a directory.
-/

namespace Newiup

/-! ### Paths -/

/-- A file name: it is not empty and has no slash. -/
def Name := {n : List Char // n ≠ [] ∧ '/' ∉ n}

instance : DecidableEq Name := inferInstanceAs (DecidableEq {n : List Char // n ≠ [] ∧ '/' ∉ n})

/-- The path of the entry `n` of the directory at `p`. -/
def child (p : List Char) (n : Name) : List Char := p ++ '/' :: n.1

/-- The path `q` is `p` or lies under it. -/
def Within (p q : List Char) : Prop := q = p ∨ p ++ ['/'] <+: q

instance (p q : List Char) : Decidable (Within p q) := inferInstanceAs (Decidable (_ ∨ _))

section Paths

variable {p q r : List Char} {n m : Name}

theorem length_lt_child (p : List Char) (n : Name) : p.length < (child p n).length := by
  rw [child, List.length_append, List.length_cons]
  omega

theorem child_ne (p : List Char) (n : Name) : child p n ≠ p := fun h => by
  have := length_lt_child p n
  rw [h] at this
  omega

/-- The last slash separates directory and name. -/
theorem child_inj (h : child p n = child q m) : p = q ∧ n = m := by
  have key : ∀ {p q : List Char} {n m : Name} {c : List Char}, q = p ++ c →
      '/' :: n.1 = c ++ '/' :: m.1 → c = [] := by
    intro p q n m c _ hc
    cases c with
    | nil => rfl
    | cons x c =>
      rw [List.cons_append, List.cons.injEq] at hc
      exact absurd (hc.2 ▸ List.mem_append_right c List.mem_cons_self) n.2.2
  rcases List.append_eq_append_iff.mp h with ⟨c, hq, hc⟩ | ⟨c, hp, hc⟩
  · obtain rfl := key (n := n) (m := m) hq hc
    rw [List.append_nil] at hq
    rw [List.nil_append, List.cons.injEq] at hc
    exact ⟨hq.symm, Subtype.ext hc.2⟩
  · obtain rfl := key (n := m) (m := n) hp hc
    rw [List.append_nil] at hp
    rw [List.nil_append, List.cons.injEq] at hc
    exact ⟨hp, Subtype.ext hc.2.symm⟩

@[simp] theorem child_inj_iff : child p n = child q m ↔ p = q ∧ n = m :=
  ⟨child_inj, fun h => by rw [h.1, h.2]⟩

@[refl] theorem Within.refl (p : List Char) : Within p p := Or.inl rfl

theorem within_child (p : List Char) (n : Name) : Within p (child p n) :=
  Or.inr ⟨n.1, by simp [child]⟩

theorem Within.length_le (h : Within p q) : p.length ≤ q.length := by
  rcases h with rfl | h
  · exact le_rfl
  · have := h.length_le
    rw [List.length_append] at this
    omega

theorem Within.antisymm (h : Within p q) (h' : Within q p) : p = q := by
  rcases h with rfl | h
  · rfl
  · have h₁ := h.length_le
    have h₂ := h'.length_le
    rw [List.length_append, List.length_singleton] at h₁
    omega

theorem Within.trans (h : Within p q) (h' : Within q r) : Within p r := by
  rcases h' with rfl | h'
  · exact h
  · rcases h with rfl | h
    · exact Or.inr h'
    · exact Or.inr (h.trans ((List.prefix_append q ['/']).trans h'))

/-- What lies at or under `p` is `p`, or its directory lies there. -/
theorem within_child_iff : Within p (child q n) ↔ p = child q n ∨ Within p q := by
  constructor
  · rintro (h | ⟨x, hx⟩)
    · exact Or.inl h.symm
    · rw [child, List.append_assoc] at hx
      rcases List.append_eq_append_iff.mp hx with ⟨c, hq, hc⟩ | ⟨c, hp, hc⟩
      · cases c with
        | nil => exact Or.inr (Or.inl (by simpa using hq))
        | cons y c =>
          rw [List.singleton_append, List.cons_append, List.cons.injEq] at hc
          obtain ⟨rfl, -⟩ := hc
          exact Or.inr (Or.inr ⟨c, by rw [hq, List.append_assoc]; rfl⟩)
      · cases c with
        | nil => exact Or.inr (Or.inl (by simpa using hp.symm))
        | cons y c =>
          -- the name would have a slash
          rw [List.cons_append, List.cons.injEq] at hc
          exact absurd (hc.2 ▸ List.mem_append_right c (List.mem_append_left x
            (List.mem_singleton_self '/'))) n.2.2
  · rintro (rfl | h)
    · exact .refl _
    · exact h.trans (within_child q n)

theorem Within.under (h : Within p q) (n : Name) : Within p (child q n) :=
  h.trans (within_child q n)

theorem not_within_of_child (p : List Char) (n : Name) : ¬Within (child p n) p := fun h =>
  absurd h.length_le (by have := length_lt_child p n; omega)

theorem within_total (h : Within p r) (h' : Within q r) : Within p q ∨ Within q p := by
  rcases h with rfl | h
  · exact Or.inr h'
  · rcases h' with rfl | h'
    · exact Or.inl (Or.inr h)
    · rcases List.prefix_or_prefix_of_prefix h h' with hpq | hqp
      · rcases List.prefix_concat_iff.mp hpq with he | hp
        · exact Or.inl (Or.inl (List.append_cancel_right he).symm)
        · exact Or.inl (Or.inr hp)
      · rcases List.prefix_concat_iff.mp hqp with he | hp
        · exact Or.inl (Or.inl (List.append_cancel_right he))
        · exact Or.inr (Or.inr hp)

end Paths

/-! ### Hidden names -/

/-- The name starts with a dot. -/
def hidden (n : Name) : Bool := n.1.head? == some '.'

/-- The path is `top`, or a walk from `top` finds it that skips hidden names.  Hidden names are
those that begin with a dot; the scans of the program pass over them. -/
inductive Visible (top : List Char) : List Char → Prop
  | here : Visible top top
  | under {p : List Char} {n : Name} (h : Visible top p) (hn : hidden n = false) :
      Visible top (child p n)

theorem Visible.within {top p : List Char} (h : Visible top p) : Within top p := by
  induction h with
  | here => exact .refl _
  | under _ _ ih => exact ih.under _

theorem Visible.trans {top p q : List Char} (h : Visible top p) (h' : Visible p q) :
    Visible top q := by
  induction h' with
  | here => exact h
  | under _ hn ih => exact ih.under hn

theorem Visible.of_child {top p : List Char} {n : Name} (h : Visible top (child p n)) :
    child p n = top ∨ Visible top p := by
  generalize hq : child p n = q at h
  cases h with
  | here => exact Or.inl rfl
  | under h hn =>
    obtain ⟨rfl, rfl⟩ := child_inj hq
    exact Or.inr h

/-- What lies between `top` and a visible path is visible, and sees the path. -/
theorem Visible.between {top p q : List Char} (h : Visible top q) (hp : Within top p)
    (hq : Within p q) : Visible top p ∧ Visible p q := by
  induction h with
  | here =>
    obtain rfl := hp.antisymm hq
    exact ⟨.here, .here⟩
  | under h hn ih =>
    rcases within_child_iff.mp hq with rfl | hq
    · exact ⟨h.under hn, .here⟩
    · exact ⟨(ih hq).1, (ih hq).2.under hn⟩

/-- What a walk finds in `p` is `p`, or lies under an entry of `p`. -/
theorem visible_iff {p q : List Char} :
    Visible p q ↔ q = p ∨ ∃ n, hidden n = false ∧ Visible (child p n) q := by
  constructor
  · intro h
    induction h with
    | here => exact Or.inl rfl
    | @under q m h hm ih =>
      rcases ih with rfl | ⟨n, hn, hv⟩
      · exact Or.inr ⟨m, hm, .here⟩
      · exact Or.inr ⟨n, hn, hv.under hm⟩
  · rintro (rfl | ⟨n, hn, hv⟩)
    · exact .here
    · exact (Visible.here.under hn).trans hv

/-- Two entries of a directory have nothing in common. -/
theorem eq_of_within_child {p q : List Char} {n m : Name} (h : Within (child p n) q)
    (h' : Within (child p m) q) : n = m := by
  rcases within_total h h' with h | h
  · rcases within_child_iff.mp h with he | h
    · exact (child_inj he).2
    · exact absurd h (not_within_of_child p n)
  · rcases within_child_iff.mp h with he | h
    · exact (child_inj he).2.symm
    · exact absurd h (not_within_of_child p m)

/-! ### Relocation -/

/-- The path of `p` after `src` has become `dst`. -/
def relocate (src dst p : List Char) : List Char :=
  if Within src p then dst ++ p.drop src.length else p

section Relocate

variable {src dst p q : List Char} {n : Name}

theorem relocate_of_not (h : ¬Within src p) : relocate src dst p = p := if_neg h

@[simp] theorem relocate_self (src dst : List Char) : relocate src dst src = dst := by
  rw [relocate, if_pos (.refl _), List.drop_length, List.append_nil]

/-- What follows `src` in a path under it. -/
theorem Within.exists_append (h : Within src p) : ∃ c, p = src ++ c := by
  rcases h with rfl | ⟨c, rfl⟩
  · exact ⟨[], (List.append_nil _).symm⟩
  · exact ⟨['/'] ++ c, by rw [List.append_assoc]⟩

theorem relocate_inj (h : Within src p) (h' : Within src q)
    (he : relocate src dst p = relocate src dst q) : p = q := by
  rw [relocate, relocate, if_pos h, if_pos h', List.append_cancel_left_eq] at he
  obtain ⟨c, rfl⟩ := h.exists_append
  obtain ⟨d, rfl⟩ := h'.exists_append
  rw [List.drop_left, List.drop_left] at he
  rw [he]

theorem relocate_child (h : Within src p) (n : Name) :
    relocate src dst (child p n) = child (relocate src dst p) n := by
  rw [relocate, relocate, if_pos h, if_pos (h.under n)]
  obtain ⟨c, rfl⟩ := h.exists_append
  rw [child, List.append_assoc, List.drop_left, List.drop_left, child, List.append_assoc]

theorem within_relocate (h : Within src p) : Within dst (relocate src dst p) := by
  rw [relocate, if_pos h]
  rcases h with rfl | ⟨c, rfl⟩
  · rw [List.drop_length, List.append_nil]
  · rw [List.append_assoc, List.drop_left]
    exact Or.inr ⟨c, by rw [List.append_assoc]⟩

end Relocate

/-! ### Trees -/

/-- An entry of a directory: a directory or a regular file, with a number that
stays with it. -/
structure Entry where
  /-- The entry is a directory. -/
  isDir : Bool
  /-- Its number. -/
  id : ℕ
  deriving DecidableEq, Repr

/-- A directory tree under the path `root`.  The entries are keyed by their whole paths, as the
program names them.  That every path leads to its entry through directories is an invariant of
the structure, so that a tree with an entry in nowhere cannot be built. -/
structure Tree (root : List Char) where
  /-- The entries under their paths. -/
  entries : AList fun _ : List Char => Entry
  /-- The number of the next new entry. -/
  next : ℕ
  /-- No two entries have the same number. -/
  id_inj : ∀ p q e f, entries.lookup p = some e → entries.lookup q = some f → e.id = f.id → p = q
  /-- New entries get new numbers. -/
  id_lt : ∀ p e, entries.lookup p = some e → e.id < next
  /-- The root is a directory. -/
  root_dir : ∃ i, entries.lookup root = some ⟨true, i⟩
  /-- Every other entry lies in a directory of the tree. -/
  parent : ∀ p e, entries.lookup p = some e → p ≠ root →
    ∃ q n i, p = child q n ∧ entries.lookup q = some ⟨true, i⟩

namespace Tree

variable {root p q : List Char} {t : Tree root} {e f : Entry} {i j : ℕ} {n : Name}

/-- The entry at a path. -/
def entry (t : Tree root) (p : List Char) : Option Entry := t.entries.lookup p

/-- The number of the directory at a path. -/
def dir (t : Tree root) (p : List Char) : Option ℕ :=
  match t.entry p with
  | some ⟨true, i⟩ => some i
  | _ => none

theorem dir_eq_some : t.dir p = some i ↔ t.entry p = some ⟨true, i⟩ := by
  unfold dir
  split
  · rename_i h
    rw [h]
    simp
  · rename_i h
    constructor
    · intro h'
      cases h'
    · intro h'
      exact absurd h' (h i)

theorem entry_of_dir (h : t.dir p = some i) : (t.entry p).isSome = true := by
  rw [dir_eq_some.mp h]
  rfl

/-- A number belongs to one path. -/
theorem dir_inj (h : t.dir p = some i) (h' : t.dir q = some i) : p = q :=
  t.id_inj _ _ _ _ (dir_eq_some.mp h) (dir_eq_some.mp h') rfl

theorem dir_lt (h : t.dir p = some i) : i < t.next := t.id_lt _ _ (dir_eq_some.mp h)

theorem exists_dir_root (t : Tree root) : ∃ i, t.dir root = some i := by
  obtain ⟨i, h⟩ := t.root_dir
  exact ⟨i, dir_eq_some.mpr h⟩

theorem exists_parent (h : t.entry p = some e) (hp : p ≠ root) :
    ∃ q n i, p = child q n ∧ t.dir q = some i := by
  obtain ⟨q, n, i, hq, hi⟩ := t.parent _ _ h hp
  exact ⟨q, n, i, hq, dir_eq_some.mpr hi⟩

theorem within_root (h : t.entry p = some e) : Within root p := by
  induction hk : p.length using Nat.strong_induction_on generalizing p e with
  | _ k ih =>
    by_cases hp : p = root
    · rw [hp]
    · obtain ⟨q, n, i, rfl, hi⟩ := exists_parent h hp
      have hlt : q.length < k := hk ▸ length_lt_child q n
      exact (ih _ hlt (dir_eq_some.mp hi) rfl).under n

theorem within_root_of_dir (h : t.dir p = some i) : Within root p :=
  within_root (dir_eq_some.mp h)

/-- **What lies above an entry is a directory.** -/
theorem dir_of_within (h : t.entry q = some e) (hr : Within root p) (hpq : Within p q)
    (hne : p ≠ q) : ∃ i, t.dir p = some i := by
  induction hk : q.length using Nat.strong_induction_on generalizing q e with
  | _ k ih =>
    have hq : q ≠ root := fun he => hne (hpq.antisymm (he ▸ hr))
    obtain ⟨q', n, i, rfl, hi⟩ := exists_parent h hq
    rcases within_child_iff.mp hpq with he | hpq'
    · exact absurd he hne
    · by_cases he : p = q'
      · exact ⟨i, he ▸ hi⟩
      · have hlt : q'.length < k := hk ▸ length_lt_child q' n
        exact ih _ hlt (dir_eq_some.mp hi) hpq' he rfl

theorem entry_of_within (h : t.entry q = some e) (hr : Within root p) (hpq : Within p q) :
    (t.entry p).isSome = true := by
  by_cases hne : p = q
  · rw [hne, h]
    rfl
  · obtain ⟨i, hi⟩ := dir_of_within h hr hpq hne
    exact entry_of_dir hi

theorem lookup_singleton {e g : Entry} (h : (AList.singleton (β := fun _ => Entry) p e).lookup q =
    some g) : q = p ∧ g = e := by
  have hm := List.of_mem_dlookup h
  rw [AList.singleton_entries, List.mem_singleton] at hm
  cases hm
  exact ⟨rfl, rfl⟩

/-- The tree that holds its root only. -/
def base (root : List Char) : Tree root where
  entries := AList.singleton root ⟨true, 0⟩
  next := 1
  id_inj := fun _ _ _ _ hp hq _ =>
    (lookup_singleton hp).1.trans (lookup_singleton hq).1.symm
  id_lt := fun _ _ h => (lookup_singleton h).2 ▸ Nat.one_pos
  root_dir := ⟨0, List.dlookup_cons_eq _ _ _⟩
  parent := fun _ _ h hp => absurd (lookup_singleton h).1 hp

/-! ### New entries -/

theorem lookup_insert_iff {s : AList fun _ : List Char => Entry} :
    (s.insert q f).lookup p = some e ↔ p = q ∧ e = f ∨ p ≠ q ∧ s.lookup p = some e := by
  by_cases h : p = q
  · subst h
    rw [AList.lookup_insert]
    simp [eq_comm]
  · rw [AList.lookup_insert_ne h]
    simp [h]

/-- A new entry `n` of the directory at `p`. -/
def make (t : Tree root) (p : List Char) (n : Name) (isDir : Bool)
    (hp : (t.dir p).isSome = true) (hn : t.entry (child p n) = none) : Tree root where
  entries := t.entries.insert (child p n) ⟨isDir, t.next⟩
  next := t.next + 1
  id_inj := by
    intro r r' e f hr hr' hid
    rcases lookup_insert_iff.mp hr with ⟨rfl, rfl⟩ | ⟨-, hr⟩ <;>
      rcases lookup_insert_iff.mp hr' with ⟨rfl, rfl⟩ | ⟨-, hr'⟩
    · rfl
    · exact absurd (t.id_lt _ _ hr') (by rw [← hid]; exact lt_irrefl _)
    · exact absurd (t.id_lt _ _ hr) (by rw [hid]; exact lt_irrefl _)
    · exact t.id_inj _ _ _ _ hr hr' hid
  id_lt := by
    intro r e hr
    rcases lookup_insert_iff.mp hr with ⟨-, rfl⟩ | ⟨-, hr⟩
    · exact Nat.lt_succ_self _
    · exact (t.id_lt _ _ hr).trans (Nat.lt_succ_self _)
  root_dir := by
    obtain ⟨i, hi⟩ := t.root_dir
    refine ⟨i, lookup_insert_iff.mpr (Or.inr ⟨?_, hi⟩)⟩
    intro he
    rw [entry, ← he, hi] at hn
    cases hn
  parent := by
    intro r e hr hroot
    have keep : ∀ {q : List Char} {i : ℕ}, t.entries.lookup q = some ⟨true, i⟩ →
        (t.entries.insert (child p n) ⟨isDir, t.next⟩).lookup q = some ⟨true, i⟩ := by
      intro q i hq
      refine lookup_insert_iff.mpr (Or.inr ⟨?_, hq⟩)
      intro he
      rw [he] at hq
      rw [entry, hq] at hn
      cases hn
    rcases lookup_insert_iff.mp hr with ⟨rfl, -⟩ | ⟨-, hr⟩
    · obtain ⟨i, hi⟩ := Option.isSome_iff_exists.mp hp
      exact ⟨p, n, i, rfl, keep (dir_eq_some.mp hi)⟩
    · obtain ⟨q, m, i, hq, hi⟩ := t.parent _ _ hr hroot
      exact ⟨q, m, i, hq, keep hi⟩

section Make

variable {b : Bool} {hp : (t.dir p).isSome = true} {hn : t.entry (child p n) = none}

theorem entry_make : (t.make p n b hp hn).entry q = some e ↔
    q = child p n ∧ e = ⟨b, t.next⟩ ∨ t.entry q = some e := by
  rw [entry, make, lookup_insert_iff]
  refine or_congr_right ⟨fun h => h.2, fun h => ⟨?_, h⟩⟩
  rintro rfl
  rw [h] at hn
  cases hn

theorem dir_make_true : (t.make p n true hp hn).dir q = some i ↔
    q = child p n ∧ i = t.next ∨ t.dir q = some i := by
  rw [dir_eq_some, entry_make, dir_eq_some]
  simp

/-- A new file adds no directory. -/
theorem dir_make_false : (t.make p n false hp hn).dir q = t.dir q := by
  refine Option.ext fun i => ?_
  rw [dir_eq_some, entry_make, dir_eq_some]
  simp

end Make

/-! ### Removal -/

theorem lookup_erase_iff {s : AList fun _ : List Char => Entry} :
    (s.erase q).lookup p = some e ↔ p ≠ q ∧ s.lookup p = some e := by
  by_cases h : p = q
  · subst h
    rw [AList.lookup_erase]
    simp
  · rw [AList.lookup_erase_ne h]
    simp [h]

/-- Nothing lies under the path. -/
def Leaf (t : Tree root) (q : List Char) : Prop := ∀ r ∈ t.entries.keys, Within q r → r = q

instance (t : Tree root) (q : List Char) : Decidable (t.Leaf q) :=
  inferInstanceAs (Decidable (∀ r ∈ t.entries.keys, Within q r → r = q))

theorem Leaf.eq (h : t.Leaf q) (hp : t.entry p = some e) (hq : Within q p) : p = q :=
  h p (AList.lookup_isSome.mp (by rw [← entry, hp]; rfl)) hq

/-- Nothing lies under a file. -/
theorem leaf_of_file (h : t.entry q = some ⟨false, i⟩) : q ≠ root ∧ t.Leaf q := by
  constructor
  · rintro rfl
    obtain ⟨j, hj⟩ := t.root_dir
    rw [entry, hj] at h
    cases h
  · intro r hr hw
    obtain ⟨e, he⟩ := Option.isSome_iff_exists.mp (AList.lookup_isSome.mpr hr)
    by_contra hne
    have hroot : Within root q := within_root h
    obtain ⟨j, hj⟩ := dir_of_within he hroot hw (Ne.symm hne)
    rw [dir_eq_some.mp hj] at h
    cases h

/-- The tree without the entry at `q`. -/
def remove (t : Tree root) (q : List Char) (hq : q ≠ root) (hl : t.Leaf q) : Tree root where
  entries := t.entries.erase q
  next := t.next
  id_inj := by
    intro r r' e f hr hr' hid
    exact t.id_inj _ _ _ _ (lookup_erase_iff.mp hr).2 (lookup_erase_iff.mp hr').2 hid
  id_lt := by
    intro r e hr
    exact t.id_lt _ _ (lookup_erase_iff.mp hr).2
  root_dir := by
    obtain ⟨i, hi⟩ := t.root_dir
    exact ⟨i, lookup_erase_iff.mpr ⟨hq.symm, hi⟩⟩
  parent := by
    intro r e hr hroot
    obtain ⟨x, n, i, rfl, hi⟩ := t.parent _ _ (lookup_erase_iff.mp hr).2 hroot
    refine ⟨x, n, i, rfl, lookup_erase_iff.mpr ⟨?_, hi⟩⟩
    rintro rfl
    exact child_ne _ _ (hl.eq (lookup_erase_iff.mp hr).2 (within_child _ _))

theorem entry_remove {hq : q ≠ root} {hl : t.Leaf q} :
    (t.remove q hq hl).entry p = some e ↔ p ≠ q ∧ t.entry p = some e := lookup_erase_iff

theorem dir_remove {hq : q ≠ root} {hl : t.Leaf q} :
    (t.remove q hq hl).dir p = some i ↔ p ≠ q ∧ t.dir p = some i := by
  rw [dir_eq_some, entry_remove, dir_eq_some]

/-! ### Rename -/

/-- `src` can become the entry `n` of the directory at `p`. -/
structure CanMove (t : Tree root) (src p : List Char) (n : Name) : Prop where
  /-- There is something to move, -/
  there : (t.entry src).isSome = true
  /-- which is not the root. -/
  notRoot : src ≠ root
  /-- The new place lies in a directory, -/
  inDir : (t.dir p).isSome = true
  /-- is free, -/
  free : t.entry (child p n) = none
  /-- and not in what is moved. -/
  apart : ¬Within src p

instance (t : Tree root) (src p : List Char) (n : Name) : Decidable (t.CanMove src p n) :=
  decidable_of_iff ((t.entry src).isSome = true ∧ src ≠ root ∧ (t.dir p).isSome = true ∧
      t.entry (child p n) = none ∧ ¬Within src p)
    ⟨fun h => ⟨h.1, h.2.1, h.2.2.1, h.2.2.2.1, h.2.2.2.2⟩,
      fun h => ⟨h.there, h.notRoot, h.inDir, h.free, h.apart⟩⟩

section Move

variable {src : List Char}

theorem CanMove.root_outside (h : t.CanMove src p n) : ¬Within src root := by
  obtain ⟨e, he⟩ := Option.isSome_iff_exists.mp h.there
  exact fun hw => h.notRoot (hw.antisymm (within_root he))

/-- Nothing lies at or under the new place. -/
theorem CanMove.outside (h : t.CanMove src p n) (hq : t.entry q = some e) :
    ¬Within (child p n) q := by
  intro hw
  obtain ⟨i, hi⟩ := Option.isSome_iff_exists.mp h.inDir
  have := entry_of_within hq ((within_root_of_dir hi).under n) hw
  rw [h.free] at this
  cases this

/-- Two entries do not end in one place. -/
theorem CanMove.relocate_inj (h : t.CanMove src p n) (hq : t.entry q = some e)
    {r : List Char} (hr : t.entry r = some f)
    (he : relocate src (child p n) q = relocate src (child p n) r) : q = r := by
  by_cases hwq : Within src q <;> by_cases hwr : Within src r
  · exact Newiup.relocate_inj hwq hwr he
  · rw [relocate_of_not hwr] at he
    exact absurd (he ▸ within_relocate hwq) (h.outside hr)
  · rw [relocate_of_not hwq] at he
    exact absurd (he ▸ within_relocate hwr) (h.outside hq)
  · rwa [relocate_of_not hwq, relocate_of_not hwr] at he

/-- The moved entries. -/
def moved (t : Tree root) (src p : List Char) (n : Name) (h : t.CanMove src p n) :
    AList fun _ : List Char => Entry where
  entries := t.entries.entries.map fun s => ⟨relocate src (child p n) s.1, s.2⟩
  nodupKeys := by
    rw [List.nodupKeys_iff_pairwise, List.pairwise_map]
    refine (List.nodupKeys_iff_pairwise.mp t.entries.nodupKeys).imp_of_mem ?_
    intro a b ha hb hne he
    exact hne (h.relocate_inj (List.mem_dlookup t.entries.nodupKeys ha)
      (List.mem_dlookup t.entries.nodupKeys hb) he)

theorem lookup_moved {h : t.CanMove src p n} : (t.moved src p n h).lookup q = some e ↔
    ∃ r, t.entry r = some e ∧ relocate src (child p n) r = q := by
  rw [AList.lookup, ← Option.mem_def, List.mem_dlookup_iff (t.moved src p n h).nodupKeys, moved,
    List.mem_map]
  constructor
  · rintro ⟨⟨r, e'⟩, hm, he⟩
    cases he
    exact ⟨r, List.mem_dlookup t.entries.nodupKeys hm, rfl⟩
  · rintro ⟨r, hr, rfl⟩
    exact ⟨⟨r, e⟩, List.of_mem_dlookup hr, rfl⟩

/-- The tree with `src` moved to the entry `n` of the directory at `p`. -/
def move (t : Tree root) (src p : List Char) (n : Name) (h : t.CanMove src p n) : Tree root where
  entries := t.moved src p n h
  next := t.next
  id_inj := by
    intro r r' e f hr hr' hid
    obtain ⟨q, hq, rfl⟩ := lookup_moved.mp hr
    obtain ⟨q', hq', rfl⟩ := lookup_moved.mp hr'
    rw [t.id_inj _ _ _ _ hq hq' hid]
  id_lt := by
    intro r e hr
    obtain ⟨q, hq, rfl⟩ := lookup_moved.mp hr
    exact t.id_lt _ _ hq
  root_dir := by
    obtain ⟨i, hi⟩ := t.root_dir
    exact ⟨i, lookup_moved.mpr ⟨root, hi, relocate_of_not h.root_outside⟩⟩
  parent := by
    intro r e hr hroot
    obtain ⟨q, hq, rfl⟩ := lookup_moved.mp hr
    by_cases hsrc : q = src
    · -- the moved entry itself
      obtain ⟨i, hi⟩ := Option.isSome_iff_exists.mp h.inDir
      exact ⟨p, n, i, by rw [hsrc, relocate_self],
        lookup_moved.mpr ⟨p, dir_eq_some.mp hi, relocate_of_not h.apart⟩⟩
    · have hq0 : q ≠ root := by
        intro he
        rw [he, relocate_of_not h.root_outside] at hroot
        exact hroot rfl
      obtain ⟨x, m, i, rfl, hi⟩ := exists_parent hq hq0
      refine ⟨relocate src (child p n) x, m, i, ?_,
        lookup_moved.mpr ⟨x, dir_eq_some.mp hi, rfl⟩⟩
      by_cases hw : Within src x
      · exact relocate_child hw m
      · rw [relocate_of_not hw, relocate_of_not]
        intro hc
        rcases within_child_iff.mp hc with he | hc
        · exact hsrc he.symm
        · exact hw hc

variable {h : t.CanMove src p n}

theorem entry_move : (t.move src p n h).entry q = some e ↔
    ∃ r, t.entry r = some e ∧ relocate src (child p n) r = q := lookup_moved (h := h)

theorem dir_move : (t.move src p n h).dir q = some i ↔
    ∃ r, t.dir r = some i ∧ relocate src (child p n) r = q := by
  rw [dir_eq_some, entry_move]
  simp only [dir_eq_some]

end Move

/-! ### The names in a directory -/

/-- The name of the entry of the directory at `p` that has the path `q`. -/
def nameIn (p q : List Char) : Option Name :=
  if h : (q.drop (p.length + 1) ≠ [] ∧ '/' ∉ q.drop (p.length + 1)) ∧
      q = p ++ '/' :: q.drop (p.length + 1) then
    some ⟨q.drop (p.length + 1), h.1⟩
  else
    none

theorem nameIn_eq_some : nameIn p q = some n ↔ q = child p n := by
  have hdrop : (child p n).drop (p.length + 1) = n.1 := by
    rw [child, ← List.drop_drop, List.drop_left]
    rfl
  unfold nameIn
  constructor
  · intro h
    split at h
    · rename_i hq
      cases h
      exact hq.2
    · cases h
  · rintro rfl
    rw [dif_pos ⟨by rw [hdrop]; exact n.2, by rw [hdrop]; rfl⟩]
    simp only [hdrop]
    rfl

/-- The names in the directory with the number `i`, wherever it is.  It is given by the number
and not by the path, since a stream that is open stays on its directory when that is renamed.
-/
def names (t : Tree root) (i : ℕ) : List Name :=
  match t.entries.entries.find? fun s => s.2 == ⟨true, i⟩ with
  | none => []
  | some s => t.entries.keys.filterMap (nameIn s.1)

theorem mem_names (h : t.dir p = some i) :
    n ∈ t.names i ↔ (t.entry (child p n)).isSome = true := by
  have hfind : ∃ s, (t.entries.entries.find? fun s => s.2 == ⟨true, i⟩) = some s ∧ s.1 = p := by
    have hm : (⟨p, ⟨true, i⟩⟩ : Sigma fun _ => Entry) ∈ t.entries.entries :=
      List.of_mem_dlookup (dir_eq_some.mp h)
    cases hs : t.entries.entries.find? fun s => s.2 == ⟨true, i⟩ with
    | none => exact absurd (List.find?_eq_none.mp hs _ hm) (by simp)
    | some s =>
      have hi : s.2 = ⟨true, i⟩ := by simpa using List.find?_some hs
      have hs' : t.entry s.1 = some s.2 :=
        List.mem_dlookup t.entries.nodupKeys (List.mem_of_find?_eq_some hs)
      exact ⟨s, rfl, dir_inj (dir_eq_some.mpr (hi ▸ hs')) h⟩
  obtain ⟨s, hs, rfl⟩ := hfind
  rw [names, hs, List.mem_filterMap]
  simp only [nameIn_eq_some]
  rw [entry, AList.lookup_isSome, AList.mem_keys]
  constructor
  · rintro ⟨q, hq, rfl⟩
    exact hq
  · intro hm
    exact ⟨_, hm, rfl⟩

end Tree

end Newiup
