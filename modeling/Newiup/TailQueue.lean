import Mathlib.Data.List.Nodup
import Mathlib.Logic.Function.Basic
import Mathlib.Tactic

/-!
# Tail queues

A doubly linked list with a head that knows its first element and the place of the last
pointer.  An element holds the next one and the place of the pointer to itself, so that it
is taken out without a look at the head.  The links of several queues are in one memory, and
every access goes through a *footprint*, the heads and elements that may be touched.

## Main definitions

* `LinkSlot`, `Links` — the places of pointers, and the memory.
* `Stmt`, `tailqInsertTail`, `tailqRemove` — the macros, statement by statement.
* `Represents L h xs` — the queue of the head `h` holds the elements `xs`.
* `Confined F x` — what `x` does depends on the footprint `F` and stays inside it.

## Main results

* `run_insertTail`, `run_remove` — **the statements keep the representation.**
* `Stmt.confined` — a statement is confined to its footprint, so that statements on other
  queues do not disturb it.
* `follow_eq` — a walk over a queue meets its elements in order.
-/

set_option linter.unusedSectionVars false

namespace Newiup

/-- The place of a pointer to an element.  The C code keeps the address of the pointer that
leads to an element, `tqe_prev`, and of the last pointer of a queue, `tqh_last`.  Both lead to
places of this kind. -/
inductive LinkSlot (H A : Type*)
  /-- `tqh_first` of a head -/
  | first (h : H)
  /-- `tqe_next` of an element -/
  | next (a : A)

/-- `TAILQ_HEAD`. -/
structure TailqHead (H A : Type*) where
  /-- `tqh_first`. -/
  first : Option A
  /-- `tqh_last`. -/
  last : LinkSlot H A

/-- `TAILQ_ENTRY`. -/
structure TailqEntry (H A : Type*) where
  /-- `tqe_next`. -/
  next : Option A
  /-- `tqe_prev`. -/
  prev : LinkSlot H A

/-- The heads, and the entries of the allocated elements.  An element without an entry is not
allocated; to follow a pointer to it, or to write to it, is undefined. -/
structure Links (H A : Type*) where
  /-- The heads. -/
  head : H → TailqHead H A
  /-- The entries. -/
  entry : A → Option (TailqEntry H A)

namespace Links

variable {H A : Type*}

/-- What stands in a slot. -/
def cell (L : Links H A) : LinkSlot H A → Option (Option A)
  | .first h => some (L.head h).first
  | .next a => (L.entry a).map TailqEntry.next

/-- `a->tqe_prev`. -/
def prevOf (L : Links H A) (a : A) : Option (LinkSlot H A) := (L.entry a).map TailqEntry.prev

/-- `head->tqh_last`. -/
def lastOf (L : Links H A) (h : H) : LinkSlot H A := (L.head h).last

end Links

section Represents

variable {H A : Type*}

/-! ### What a queue holds -/

/-- The pointers lead from the slot `s` over the elements to the slot `t`. -/
def Seg (L : Links H A) : LinkSlot H A → List A → LinkSlot H A → Prop
  | s, [], t => s = t
  | s, a :: as, t => L.cell s = some (some a) ∧ L.prevOf a = some s ∧ Seg L (.next a) as t

/-- **The queue of the head `h` holds the elements `xs`**, first to last. -/
structure Represents (L : Links H A) (h : H) (xs : List A) : Prop where
  seg : Seg L (.first h) xs (L.lastOf h)
  null : L.cell (L.lastOf h) = some none
  nodup : xs.Nodup

variable {L M : Links H A} {h : H} {a : A} {s t u : LinkSlot H A} {xs ys : List A}

theorem Seg.append_iff : Seg L s (xs ++ ys) u ↔ ∃ t, Seg L s xs t ∧ Seg L t ys u := by
  induction xs generalizing s with
  | nil => simp [Seg]
  | cons a xs ih => simp [Seg, ih, and_assoc]

/-- A segment ends where it began, or behind one of its elements. -/
theorem Seg.end_mem (h : Seg L s xs t) : t = s ∨ ∃ a ∈ xs, t = .next a := by
  induction xs generalizing s with
  | nil => exact Or.inl h.symm
  | cons a xs ih =>
    rcases ih h.2.2 with rfl | ⟨b, hb, rfl⟩
    · exact Or.inr ⟨a, List.mem_cons_self, rfl⟩
    · exact Or.inr ⟨b, List.mem_cons_of_mem a hb, rfl⟩

theorem Seg.isSome_prevOf (h : Seg L s xs t) (ha : a ∈ xs) : (L.prevOf a).isSome = true := by
  induction xs generalizing s with
  | nil => cases ha
  | cons b xs ih =>
    rcases List.mem_cons.mp ha with rfl | ha
    · rw [h.2.1]
      rfl
    · exact ih h.2.2 ha

/-- **A segment depends on the slots in front of its end**, and on the back pointers. -/
theorem Seg.congr (h : Seg L s xs t) (hs : ∀ b ∈ xs, s ≠ .next b) (hnodup : xs.Nodup)
    (hcell : ∀ u, u ≠ t → u = s ∨ (∃ b ∈ xs, u = .next b) → M.cell u = L.cell u)
    (hprev : ∀ b ∈ xs, M.prevOf b = L.prevOf b) : Seg M s xs t := by
  induction xs generalizing s with
  | nil => exact h
  | cons a xs ih =>
    obtain ⟨hnotin, hnodup'⟩ := List.nodup_cons.mp hnodup
    have hst : s ≠ t := by
      rcases h.2.2.end_mem with rfl | ⟨b, hb, rfl⟩
      · exact hs a List.mem_cons_self
      · exact hs b (List.mem_cons_of_mem a hb)
    refine ⟨(hcell s hst (Or.inl rfl)).trans h.1,
      (hprev a List.mem_cons_self).trans h.2.1, ih h.2.2 ?_ hnodup' ?_ ?_⟩
    · intro b hb heq
      cases heq
      exact hnotin hb
    · rintro u hu (rfl | ⟨b, hb, rfl⟩)
      · exact hcell _ hu (Or.inr ⟨a, List.mem_cons_self, rfl⟩)
      · exact hcell _ hu (Or.inr ⟨b, List.mem_cons_of_mem a hb, rfl⟩)
    · exact fun b hb => hprev b (List.mem_cons_of_mem a hb)

end Represents

/-- The heads and elements that may be touched. -/
structure Footprint (H A : Type*) where
  /-- The heads. -/
  heads : H → Bool
  /-- The elements. -/
  nodes : A → Bool

/-- Everything may be touched. -/
def Footprint.all {H A : Type*} : Footprint H A := ⟨fun _ => true, fun _ => true⟩

/-- A computation on the links; without a value where it touches what it may not. -/
abbrev LinkM (H A α : Type*) := Links H A → Option (α × Links H A)

namespace LinkM

variable {H A α β : Type*}

/-- What comes after a computation. -/
def bind (x : LinkM H A α) (f : α → LinkM H A β) : LinkM H A β := fun L =>
  (x L).bind fun r => f r.1 r.2

/-- No access. -/
def pure (a : α) : LinkM H A α := fun L => some (a, L)

theorem bind_eq_some {x : LinkM H A α} {f : α → LinkM H A β} {L : Links H A}
    {r : β × Links H A} : x.bind f L = some r ↔ ∃ a M, x L = some (a, M) ∧ f a M = some r := by
  simp [LinkM.bind, Option.bind_eq_some_iff]

end LinkM

variable {H A : Type*} [DecidableEq H] [DecidableEq A]

/-! ### Accesses -/

namespace Links

/-- Read an entry. -/
def read (F : Footprint H A) (a : A) : LinkM H A (TailqEntry H A) := fun L =>
  if F.nodes a then (L.entry a).map fun e => (e, L) else none

/-- Write an entry. -/
def write (F : Footprint H A) (a : A) (e : TailqEntry H A) : LinkM H A Unit := fun L =>
  if F.nodes a ∧ (L.entry a).isSome then
    some ((), { L with entry := Function.update L.entry a (some e) })
  else none

/-- Read a head. -/
def readHead (F : Footprint H A) (h : H) : LinkM H A (TailqHead H A) := fun L =>
  if F.heads h then some (L.head h, L) else none

/-- Write a head. -/
def writeHead (F : Footprint H A) (h : H) (x : TailqHead H A) : LinkM H A Unit := fun L =>
  if F.heads h then some ((), { L with head := Function.update L.head h x }) else none

/-- `*s = v`. -/
def store (F : Footprint H A) (s : LinkSlot H A) (v : Option A) : LinkM H A Unit :=
  match s with
  | .first h => (readHead F h).bind fun x => writeHead F h { x with first := v }
  | .next a => (read F a).bind fun e => write F a { e with next := v }

end Links

/-- A statement of the macros.  Each is an assignment of the macros, `bypass` with the test in
front of it.  Between any two of them the list is seen half changed by whoever does not ask for
the lock. -/
inductive Stmt (H A : Type*)
  /-- `elm->tqe_next = NULL` -/
  | clearNext (a : A)
  /-- `elm->tqe_prev = head->tqh_last` -/
  | takePrev (h : H) (a : A)
  /-- `*head->tqh_last = elm` -/
  | linkLast (h : H) (a : A)
  /-- `head->tqh_last = &elm->tqe_next` -/
  | moveLast (h : H) (a : A)
  /-- `if (elm->tqe_next != NULL) elm->tqe_next->tqe_prev = elm->tqe_prev;
  else head->tqh_last = elm->tqe_prev` -/
  | bypass (h : H) (a : A)
  /-- `*elm->tqe_prev = elm->tqe_next` -/
  | cut (a : A)

/-- The effect of a statement. -/
def Stmt.exec (F : Footprint H A) : Stmt H A → LinkM H A Unit
  | .clearNext a => (Links.read F a).bind fun e => Links.write F a { e with next := none }
  | .takePrev h a => (Links.readHead F h).bind fun x =>
      (Links.read F a).bind fun e => Links.write F a { e with prev := x.last }
  | .linkLast h a => (Links.readHead F h).bind fun x => Links.store F x.last (some a)
  | .moveLast h a => (Links.readHead F h).bind fun x =>
      Links.writeHead F h { x with last := .next a }
  | .bypass h a => (Links.read F a).bind fun e =>
      match e.next with
      | some b => (Links.read F b).bind fun f => Links.write F b { f with prev := e.prev }
      | none => (Links.readHead F h).bind fun x => Links.writeHead F h { x with last := e.prev }
  | .cut a => (Links.read F a).bind fun e => Links.store F e.prev e.next

/-- Statements, one after the other. -/
def Stmt.run (F : Footprint H A) : List (Stmt H A) → LinkM H A Unit
  | [] => LinkM.pure ()
  | s :: rest => (s.exec F).bind fun _ => run F rest

/-- `TAILQ_INSERT_TAIL`. -/
def tailqInsertTail (h : H) (a : A) : List (Stmt H A) :=
  [.clearNext a, .takePrev h a, .linkLast h a, .moveLast h a]

/-- `TAILQ_REMOVE`. -/
def tailqRemove (h : H) (a : A) : List (Stmt H A) := [.bypass h a, .cut a]

/-- `TAILQ_INIT`. -/
def tailqInit (h : H) : TailqHead H A := ⟨none, .first h⟩

/-! ### Footprints -/

/-- The memories hold the same inside the footprint. -/
structure Agree (F : Footprint H A) (L M : Links H A) : Prop where
  head : ∀ h, F.heads h = true → L.head h = M.head h
  entry : ∀ a, F.nodes a = true → L.entry a = M.entry a

/-- Nothing is changed outside the footprint, and nothing is allocated or freed. -/
structure Outside (F : Footprint H A) (L L' : Links H A) : Prop where
  head : ∀ h, F.heads h = false → L'.head h = L.head h
  entry : ∀ a, F.nodes a = false → L'.entry a = L.entry a
  isSome : ∀ a, (L'.entry a).isSome = (L.entry a).isSome

theorem Outside.refl (F : Footprint H A) (L : Links H A) : Outside F L L :=
  ⟨fun _ _ => rfl, fun _ _ => rfl, fun _ => rfl⟩

theorem Outside.trans {F : Footprint H A} {L M N : Links H A} (h : Outside F L M)
    (h' : Outside F M N) : Outside F L N where
  head k hk := (h'.head k hk).trans (h.head k hk)
  entry a ha := (h'.entry a ha).trans (h.entry a ha)
  isSome a := (h'.isSome a).trans (h.isSome a)

/-- **A confined computation** depends on its footprint and stays inside it. -/
structure Confined {α : Type*} (F : Footprint H A) (x : LinkM H A α) : Prop where
  agree {L M : Links H A} {a : α} {L' : Links H A} : Agree F L M → x L = some (a, L') →
    ∃ M', x M = some (a, M') ∧ Agree F L' M'
  outside {L : Links H A} {a : α} {L' : Links H A} : x L = some (a, L') → Outside F L L'

namespace Confined

variable {F : Footprint H A} {α β : Type*}

theorem pure (a : α) : Confined F (LinkM.pure a : LinkM H A α) where
  agree hag h := by
    cases h
    exact ⟨_, rfl, hag⟩
  outside h := by
    cases h
    exact .refl _ _

theorem bind {x : LinkM H A α} {f : α → LinkM H A β} (hx : Confined F x)
    (hf : ∀ a, Confined F (f a)) : Confined F (x.bind f) where
  agree hag h := by
    obtain ⟨a, L₁, hx', hf'⟩ := LinkM.bind_eq_some.mp h
    obtain ⟨M₁, hM₁, hag₁⟩ := hx.agree hag hx'
    obtain ⟨M₂, hM₂, hag₂⟩ := (hf a).agree hag₁ hf'
    exact ⟨M₂, LinkM.bind_eq_some.mpr ⟨a, M₁, hM₁, hM₂⟩, hag₂⟩
  outside h := by
    obtain ⟨a, L₁, hx', hf'⟩ := LinkM.bind_eq_some.mp h
    exact (hx.outside hx').trans ((hf a).outside hf')

theorem read (a : A) : Confined F (Links.read F a) where
  agree {L M e L'} hag h := by
    unfold Links.read at h ⊢
    split at h
    · next ha =>
      obtain ⟨e', he, heq⟩ := Option.map_eq_some_iff.mp h
      cases heq
      rw [if_pos ha, ← hag.entry a ha, he]
      exact ⟨M, rfl, hag⟩
    · cases h
  outside h := by
    unfold Links.read at h
    split at h
    · obtain ⟨e', -, heq⟩ := Option.map_eq_some_iff.mp h
      cases heq
      exact .refl _ _
    · cases h

theorem readHead (k : H) : Confined F (Links.readHead (A := A) F k) where
  agree {L M x L'} hag h := by
    unfold Links.readHead at h ⊢
    split at h
    · next hk =>
      cases h
      rw [if_pos hk, hag.head k hk]
      exact ⟨M, rfl, hag⟩
    · cases h
  outside h := by
    unfold Links.readHead at h
    split at h <;> cases h
    exact .refl _ _

theorem write (a : A) (e : TailqEntry H A) : Confined F (Links.write F a e) where
  agree {L M u L'} hag h := by
    unfold Links.write at h ⊢
    split at h
    · next ha =>
      cases h
      rw [if_pos ⟨ha.1, hag.entry a ha.1 ▸ ha.2⟩]
      refine ⟨_, rfl, hag.head, fun b hb => ?_⟩
      dsimp only
      by_cases hba : b = a
      · subst hba
        rw [Function.update_self, Function.update_self]
      · rw [Function.update_of_ne hba, Function.update_of_ne hba, hag.entry b hb]
    · cases h
  outside {L u L'} h := by
    unfold Links.write at h
    split at h
    · next ha =>
      cases h
      refine ⟨fun _ _ => rfl, fun b hb => ?_, fun b => ?_⟩
      · have hba : b ≠ a := fun heq => by rw [heq, ha.1] at hb; cases hb
        exact Function.update_of_ne hba ..
      · dsimp only
        by_cases hba : b = a
        · subst hba
          rw [Function.update_self, ha.2]
          rfl
        · rw [Function.update_of_ne hba]
    · cases h

theorem writeHead (k : H) (x : TailqHead H A) : Confined F (Links.writeHead F k x) where
  agree {L M u L'} hag h := by
    unfold Links.writeHead at h ⊢
    split at h
    · next hk =>
      cases h
      rw [if_pos hk]
      refine ⟨_, rfl, fun j hj => ?_, hag.entry⟩
      dsimp only
      by_cases hjk : j = k
      · subst hjk
        rw [Function.update_self, Function.update_self]
      · rw [Function.update_of_ne hjk, Function.update_of_ne hjk, hag.head j hj]
    · cases h
  outside {L u L'} h := by
    unfold Links.writeHead at h
    split at h
    · next hk =>
      cases h
      refine ⟨fun j hj => ?_, fun _ _ => rfl, fun _ => rfl⟩
      have hjk : j ≠ k := fun heq => by rw [heq, hk] at hj; cases hj
      exact Function.update_of_ne hjk ..
    · cases h

theorem store (s : LinkSlot H A) (v : Option A) : Confined F (Links.store F s v) := by
  cases s with
  | first k =>
    rw [Links.store]
    exact .bind (.readHead k) fun x => .writeHead k _
  | next a =>
    rw [Links.store]
    exact .bind (.read a) fun e => .write a _

end Confined

/-- **A statement is confined to its footprint.** -/
theorem Stmt.confined (F : Footprint H A) (s : Stmt H A) : Confined F (s.exec F) := by
  cases s with
  | clearNext a =>
    rw [Stmt.exec]
    exact .bind (.read a) fun e => .write a _
  | takePrev k a =>
    rw [Stmt.exec]
    exact .bind (.readHead k) fun x => .bind (.read a) fun e => .write a _
  | linkLast k a =>
    rw [Stmt.exec]
    exact .bind (.readHead k) fun x => .store _ _
  | moveLast k a =>
    rw [Stmt.exec]
    exact .bind (.readHead k) fun x => .writeHead k _
  | bypass k a =>
    rw [Stmt.exec]
    refine .bind (.read a) fun e => ?_
    split
    · next b _ => exact .bind (.read b) fun f => .write b _
    · exact .bind (.readHead k) fun x => .writeHead k _
  | cut a =>
    rw [Stmt.exec]
    exact .bind (.read a) fun e => .store _ _

theorem Stmt.run_confined (F : Footprint H A) (rest : List (Stmt H A)) :
    Confined F (Stmt.run F rest) := by
  induction rest with
  | nil => exact .pure ()
  | cons s rest ih => exact (s.confined F).bind fun _ => ih

/-- What is done inside a footprint is done without one. -/
def Widens {α : Type*} (x y : LinkM H A α) : Prop := ∀ L r, x L = some r → y L = some r

namespace Widens

variable {F : Footprint H A} {α β : Type*}

theorem bind {x y : LinkM H A α} {f g : α → LinkM H A β} (hx : Widens x y)
    (hf : ∀ a, Widens (f a) (g a)) : Widens (x.bind f) (y.bind g) := fun L r h => by
  obtain ⟨a, M, hxL, hfM⟩ := LinkM.bind_eq_some.mp h
  exact LinkM.bind_eq_some.mpr ⟨a, M, hx L _ hxL, hf a M r hfM⟩

theorem read (a : A) : Widens (Links.read F a) (Links.read .all a) := fun L r h => by
  unfold Links.read at h
  split at h
  · exact (if_pos rfl).trans h
  · cases h

theorem readHead (k : H) : Widens (Links.readHead (A := A) F k) (Links.readHead .all k) :=
  fun L r h => by
    unfold Links.readHead at h
    split at h
    · exact (if_pos rfl).trans h
    · cases h

theorem write (a : A) (e : TailqEntry H A) : Widens (Links.write F a e) (Links.write .all a e) :=
  fun L r h => by
    unfold Links.write at h
    split at h
    · next ha => exact (if_pos ⟨rfl, ha.2⟩).trans h
    · cases h

theorem writeHead (k : H) (x : TailqHead H A) :
    Widens (Links.writeHead F k x) (Links.writeHead .all k x) := fun L r h => by
  unfold Links.writeHead at h
  split at h
  · exact (if_pos rfl).trans h
  · cases h

theorem store (s : LinkSlot H A) (v : Option A) :
    Widens (Links.store F s v) (Links.store .all s v) := by
  cases s with
  | first k =>
    rw [Links.store, Links.store]
    exact .bind (.readHead k) fun x => .writeHead k _
  | next a =>
    rw [Links.store, Links.store]
    exact .bind (.read a) fun e => .write a _

end Widens

theorem Stmt.widens (F : Footprint H A) (s : Stmt H A) : Widens (s.exec F) (s.exec .all) := by
  cases s with
  | clearNext a =>
    rw [Stmt.exec, Stmt.exec]
    exact .bind (.read a) fun e => .write a _
  | takePrev k a =>
    rw [Stmt.exec, Stmt.exec]
    exact .bind (.readHead k) fun x => .bind (.read a) fun e => .write a _
  | linkLast k a =>
    rw [Stmt.exec, Stmt.exec]
    exact .bind (.readHead k) fun x => .store _ _
  | moveLast k a =>
    rw [Stmt.exec, Stmt.exec]
    exact .bind (.readHead k) fun x => .writeHead k _
  | bypass k a =>
    rw [Stmt.exec, Stmt.exec]
    refine .bind (.read a) fun e => ?_
    cases e.next with
    | some b => exact .bind (.read b) fun f => .write b _
    | none => exact .bind (.readHead k) fun x => .writeHead k _
  | cut a =>
    rw [Stmt.exec, Stmt.exec]
    exact .bind (.read a) fun e => .store _ _

theorem Stmt.exec_all {F : Footprint H A} {s : Stmt H A} {L : Links H A}
    {r : Unit × Links H A} (h : s.exec F L = some r) : s.exec .all L = some r :=
  s.widens F L r h

/-! ### Views of the memory -/

namespace Links

variable {L : Links H A} {F : Footprint H A}

/-- The memory with `v` in a slot. -/
def setCell (L : Links H A) (s : LinkSlot H A) (v : Option A) : Links H A :=
  match s with
  | .first h => { L with head := Function.update L.head h { L.head h with first := v } }
  | .next a =>
      (L.entry a).elim L fun e =>
        { L with entry := Function.update L.entry a (some { e with next := v }) }

/-- The memory with `s` in `a->tqe_prev`. -/
def setPrev (L : Links H A) (a : A) (s : LinkSlot H A) : Links H A :=
  (L.entry a).elim L fun e =>
    { L with entry := Function.update L.entry a (some { e with prev := s }) }

/-- The memory with `s` in `head->tqh_last`. -/
def setLast (L : Links H A) (h : H) (s : LinkSlot H A) : Links H A :=
  { L with head := Function.update L.head h { L.head h with last := s } }

variable {h k : H} {a b : A} {s t : LinkSlot H A} {v : Option A}

theorem cell_setCell_self (hs : (L.cell s).isSome = true) : (L.setCell s v).cell s = some v := by
  cases s with
  | first h => simp [setCell, cell]
  | next a =>
    obtain ⟨e, he⟩ := Option.isSome_iff_exists.mp (by simpa [cell] using hs)
    simp [setCell, cell, he]

theorem cell_setCell_of_ne (hne : t ≠ s) : (L.setCell s v).cell t = L.cell t := by
  cases s with
  | first h =>
    cases t with
    | first k =>
      have hk : k ≠ h := fun heq => hne (heq ▸ rfl)
      simp [setCell, cell, hk]
    | next b => rfl
  | next a =>
    cases he : L.entry a with
    | none => simp [setCell, he]
    | some e =>
      cases t with
      | first k => simp [setCell, cell, he]
      | next b =>
        have hb : b ≠ a := fun heq => hne (heq ▸ rfl)
        simp [setCell, cell, he, hb]

@[simp] theorem prevOf_setCell : (L.setCell s v).prevOf b = L.prevOf b := by
  cases s with
  | first h => rfl
  | next a =>
    cases he : L.entry a with
    | none => simp [setCell, he]
    | some e =>
      by_cases hb : b = a
      · subst hb
        simp [setCell, prevOf, he]
      · simp [setCell, prevOf, he, hb]

@[simp] theorem lastOf_setCell : (L.setCell s v).lastOf k = L.lastOf k := by
  cases s with
  | first h =>
    by_cases hk : k = h
    · subst hk
      simp [setCell, lastOf]
    · simp [setCell, lastOf, hk]
  | next a => cases he : L.entry a <;> simp [setCell, lastOf, he]

@[simp] theorem cell_setPrev : (L.setPrev a s).cell t = L.cell t := by
  cases he : L.entry a with
  | none => simp [setPrev, he]
  | some e =>
    cases t with
    | first k => simp [setPrev, cell, he]
    | next b =>
      by_cases hb : b = a
      · subst hb
        simp [setPrev, cell, he]
      · simp [setPrev, cell, he, hb]

theorem prevOf_setPrev_self (ha : (L.prevOf a).isSome = true) :
    (L.setPrev a s).prevOf a = some s := by
  obtain ⟨e, he⟩ := Option.isSome_iff_exists.mp (by simpa [prevOf] using ha)
  simp [setPrev, prevOf, he]

theorem prevOf_setPrev_of_ne (hb : b ≠ a) : (L.setPrev a s).prevOf b = L.prevOf b := by
  cases he : L.entry a <;> simp [setPrev, prevOf, he, hb]

@[simp] theorem lastOf_setPrev : (L.setPrev a s).lastOf k = L.lastOf k := by
  cases he : L.entry a <;> simp [setPrev, lastOf, he]

@[simp] theorem cell_setLast : (L.setLast h s).cell t = L.cell t := by
  cases t with
  | first k =>
    by_cases hk : k = h
    · subst hk
      simp [setLast, cell]
    · simp [setLast, cell, hk]
  | next b => rfl

@[simp] theorem prevOf_setLast : (L.setLast h s).prevOf b = L.prevOf b := rfl

theorem lastOf_setLast_self : (L.setLast h s).lastOf h = s := by simp [setLast, lastOf]

/-- An element is allocated when it has an entry. -/
theorem isSome_cell_next : (L.cell (.next a)).isSome = (L.entry a).isSome := by simp [cell]

theorem isSome_prevOf : (L.prevOf a).isSome = (L.entry a).isSome := by simp [prevOf]

end Links

/-! ### The statements on the views -/

section Statements

variable {F : Footprint H A} {L : Links H A} {h : H} {a b : A} {s : LinkSlot H A}

/-- The slot may be touched. -/
def Footprint.slots (F : Footprint H A) : LinkSlot H A → Bool
  | .first h => F.heads h
  | .next a => F.nodes a

theorem LinkM.bind_eq {α β : Type*} {x : LinkM H A α} {f : α → LinkM H A β} {r : α}
    {M : Links H A} (hx : x L = some (r, M)) : x.bind f L = f r M := by
  rw [LinkM.bind, hx]
  rfl

theorem Links.read_eq {e : TailqEntry H A} (hF : F.nodes a = true) (he : L.entry a = some e) :
    Links.read F a L = some (e, L) := by
  rw [Links.read, if_pos hF, he]
  rfl

theorem Links.readHead_eq (hF : F.heads h = true) :
    Links.readHead F h L = some (L.head h, L) := if_pos hF

theorem Links.store_eq {v : Option A} (hF : F.slots s = true) (hs : (L.cell s).isSome = true) :
    Links.store F s v L = some ((), L.setCell s v) := by
  cases s with
  | first h =>
    rw [Links.store, LinkM.bind_eq (Links.readHead_eq hF), Links.writeHead]
    exact if_pos hF
  | next a =>
    obtain ⟨e, he⟩ := Option.isSome_iff_exists.mp (by simpa [Links.cell] using hs)
    rw [Links.store, LinkM.bind_eq (Links.read_eq hF he), Links.write, if_pos ⟨hF, by rw [he]; rfl⟩,
      Links.setCell, he]
    rfl

theorem exec_clearNext (hF : F.nodes a = true) (ha : (L.entry a).isSome = true) :
    (Stmt.clearNext a).exec F L = some ((), L.setCell (.next a) none) := by
  obtain ⟨e, he⟩ := Option.isSome_iff_exists.mp ha
  rw [Stmt.exec, LinkM.bind_eq (Links.read_eq hF he), Links.write, if_pos ⟨hF, ha⟩,
    Links.setCell, he]
  rfl

theorem exec_takePrev (hh : F.heads h = true) (hF : F.nodes a = true)
    (ha : (L.entry a).isSome = true) :
    (Stmt.takePrev h a).exec F L = some ((), L.setPrev a (L.lastOf h)) := by
  obtain ⟨e, he⟩ := Option.isSome_iff_exists.mp ha
  rw [Stmt.exec, LinkM.bind_eq (Links.readHead_eq hh), LinkM.bind_eq (Links.read_eq hF he),
    Links.write, if_pos ⟨hF, ha⟩, Links.setPrev, he]
  rfl

theorem exec_linkLast (hh : F.heads h = true) (hF : F.slots (L.lastOf h) = true)
    (hs : (L.cell (L.lastOf h)).isSome = true) :
    (Stmt.linkLast h a).exec F L = some ((), L.setCell (L.lastOf h) (some a)) := by
  rw [Stmt.exec, LinkM.bind_eq (Links.readHead_eq hh)]
  exact Links.store_eq hF hs

theorem exec_moveLast (hh : F.heads h = true) :
    (Stmt.moveLast h a).exec F L = some ((), L.setLast h (.next a)) := by
  rw [Stmt.exec, LinkM.bind_eq (Links.readHead_eq hh), Links.writeHead, if_pos hh]
  rfl

theorem exec_bypass_some (hF : F.nodes a = true) (hb : F.nodes b = true)
    (hnext : L.cell (.next a) = some (some b)) (hprev : L.prevOf a = some s)
    (hbs : (L.entry b).isSome = true) :
    (Stmt.bypass h a).exec F L = some ((), L.setPrev b s) := by
  obtain ⟨e, he, hen⟩ := Option.map_eq_some_iff.mp hnext
  have hep : e.prev = s := by simpa [Links.prevOf, he] using hprev
  obtain ⟨f, hf⟩ := Option.isSome_iff_exists.mp hbs
  rw [Stmt.exec, LinkM.bind_eq (Links.read_eq hF he), hen]
  dsimp only
  rw [LinkM.bind_eq (Links.read_eq hb hf), Links.write, if_pos ⟨hb, hbs⟩, Links.setPrev, hf, hep]
  rfl

theorem exec_bypass_none (hF : F.nodes a = true) (hh : F.heads h = true)
    (hnext : L.cell (.next a) = some none) (hprev : L.prevOf a = some s) :
    (Stmt.bypass h a).exec F L = some ((), L.setLast h s) := by
  obtain ⟨e, he, hen⟩ := Option.map_eq_some_iff.mp hnext
  have hep : e.prev = s := by simpa [Links.prevOf, he] using hprev
  rw [Stmt.exec, LinkM.bind_eq (Links.read_eq hF he), hen]
  dsimp only
  rw [LinkM.bind_eq (Links.readHead_eq hh), Links.writeHead, if_pos hh, hep]
  rfl

theorem exec_cut {v : Option A} (hF : F.nodes a = true) (hs : F.slots s = true)
    (hnext : L.cell (.next a) = some v) (hprev : L.prevOf a = some s)
    (hcell : (L.cell s).isSome = true) :
    (Stmt.cut a).exec F L = some ((), L.setCell s v) := by
  obtain ⟨e, he, hen⟩ := Option.map_eq_some_iff.mp hnext
  have hep : e.prev = s := by simpa [Links.prevOf, he] using hprev
  rw [Stmt.exec, LinkM.bind_eq (Links.read_eq hF he), hen, hep]
  exact Links.store_eq hs hcell

theorem run_cons {st : Stmt H A} {rest : List (Stmt H A)} {M : Links H A}
    (hst : st.exec F L = some ((), M)) : Stmt.run F (st :: rest) L = Stmt.run F rest M :=
  LinkM.bind_eq hst

end Statements

/-! ### The macros -/

section Macros

variable {F : Footprint H A} {L M : Links H A} {h k : H} {a : A} {xs ys : List A}

/-- The footprint covers a queue and the elements. -/
structure Footprint.Covers (F : Footprint H A) (h : H) (xs : List A) : Prop where
  head : F.heads h = true
  nodes : ∀ a ∈ xs, F.nodes a = true

theorem Footprint.Covers.slot (hF : F.Covers h xs) {s : LinkSlot H A}
    (hs : s = .first h ∨ ∃ a ∈ xs, s = .next a) : F.slots s = true := by
  rcases hs with rfl | ⟨a, ha, rfl⟩
  · exact hF.head
  · exact hF.nodes a ha

theorem represents_init (L : Links H A) (hL : L.head h = tailqInit h) : Represents L h [] := by
  refine ⟨?_, ?_, List.nodup_nil⟩
  · rw [Seg, Links.lastOf, hL]
    rfl
  · rw [Links.lastOf, hL]
    simp [tailqInit, Links.cell, hL]

/-- **A queue depends on its head and its elements only.** -/
theorem Represents.congr (hrep : Represents L h xs) (hhead : M.head h = L.head h)
    (hentry : ∀ a ∈ xs, M.entry a = L.entry a) : Represents M h xs := by
  have hlast : M.lastOf h = L.lastOf h := by rw [Links.lastOf, hhead, Links.lastOf]
  have hcell : ∀ u, u = LinkSlot.first h ∨ (∃ b ∈ xs, u = .next b) → M.cell u = L.cell u := by
    rintro u (rfl | ⟨b, hb, rfl⟩)
    · simp [Links.cell, hhead]
    · simp [Links.cell, hentry b hb]
  refine ⟨?_, ?_, hrep.nodup⟩
  · rw [hlast]
    refine hrep.seg.congr (fun b _ => nofun) hrep.nodup (fun u _ hu => hcell u hu) fun b hb => ?_
    rw [Links.prevOf, hentry b hb, Links.prevOf]
  · rw [hlast, hcell _ hrep.seg.end_mem]
    exact hrep.null

/-- **`TAILQ_INSERT_TAIL`** puts a new element behind the others. -/
theorem run_insertTail (hrep : Represents L h xs) (ha : a ∉ xs)
    (halloc : (L.entry a).isSome = true) (hF : F.Covers h (a :: xs)) :
    ∃ M, Stmt.run F (tailqInsertTail h a) L = some ((), M) ∧ Represents M h (xs ++ [a]) := by
  have hFa := hF.nodes a List.mem_cons_self
  have hlastF : F.slots (L.lastOf h) = true := by
    refine hF.slot (hrep.seg.end_mem.imp_right ?_)
    rintro ⟨b, hb, hlast⟩
    exact ⟨b, List.mem_cons_of_mem a hb, hlast⟩
  have hlast_ne : L.lastOf h ≠ .next a := by
    rcases hrep.seg.end_mem with hlast | ⟨b, hb, hlast⟩
    · rw [hlast]
      exact nofun
    · rw [hlast]
      rintro ⟨⟩
      exact ha hb
  -- the memory after each of the four statements
  set L₁ := L.setCell (.next a) none with hL₁
  set L₂ := L₁.setPrev a (L.lastOf h) with hL₂
  set L₃ := L₂.setCell (L.lastOf h) (some a) with hL₃
  set L₄ := L₃.setLast h (.next a) with hL₄
  have hlast₁ : L₁.lastOf h = L.lastOf h := Links.lastOf_setCell
  have hlast₂ : L₂.lastOf h = L.lastOf h := by rw [hL₂, Links.lastOf_setPrev, hlast₁]
  have hcell₁ : L₁.cell (.next a) = some none :=
    Links.cell_setCell_self (by rw [Links.isSome_cell_next]; exact halloc)
  have halloc₁ : (L₁.entry a).isSome = true := by
    rw [← Links.isSome_cell_next, hcell₁]
    rfl
  have hcell₂ : L₂.cell (L.lastOf h) = some none := by
    rw [hL₂, Links.cell_setPrev, hL₁, Links.cell_setCell_of_ne hlast_ne]
    exact hrep.null
  have hprev₂ : L₂.prevOf a = some (L.lastOf h) :=
    Links.prevOf_setPrev_self (by rw [Links.isSome_prevOf]; exact halloc₁)
  refine ⟨L₄, ?_, ?_⟩
  · rw [tailqInsertTail, run_cons (exec_clearNext hFa halloc), ← hL₁,
      run_cons (exec_takePrev hF.head hFa halloc₁), hlast₁, ← hL₂,
      run_cons (exec_linkLast hF.head (by rw [hlast₂]; exact hlastF) (by rw [hlast₂, hcell₂]; rfl)),
      hlast₂, ← hL₃, run_cons (exec_moveLast hF.head), ← hL₄]
    rfl
  · have hlast₄ : L₄.lastOf h = .next a := Links.lastOf_setLast_self
    have hcell_of_ne : ∀ u, u ≠ L.lastOf h → u ≠ .next a → L₄.cell u = L.cell u := by
      intro u hu hua
      rw [hL₄, Links.cell_setLast, hL₃, Links.cell_setCell_of_ne hu, hL₂, Links.cell_setPrev, hL₁,
        Links.cell_setCell_of_ne hua]
    have hprev_of_ne : ∀ b, b ≠ a → L₄.prevOf b = L.prevOf b := by
      intro b hb
      rw [hL₄, Links.prevOf_setLast, hL₃, Links.prevOf_setCell, hL₂, Links.prevOf_setPrev_of_ne hb,
        hL₁, Links.prevOf_setCell]
    refine ⟨?_, ?_, ?_⟩
    · rw [hlast₄]
      refine Seg.append_iff.mpr ⟨L.lastOf h, ?_, ?_, ?_, rfl⟩
      · -- the elements that were there are linked as before
        refine hrep.seg.congr (fun b _ => nofun) hrep.nodup ?_ fun b hb => ?_
        · rintro u hu (rfl | ⟨b, hb, rfl⟩)
          · exact hcell_of_ne _ hu nofun
          · refine hcell_of_ne _ hu ?_
            rintro ⟨⟩
            exact ha hb
        · exact hprev_of_ne b fun hba => ha (hba ▸ hb)
      · rw [hL₄, Links.cell_setLast, hL₃]
        exact Links.cell_setCell_self (by rw [hcell₂]; rfl)
      · rw [hL₄, Links.prevOf_setLast, hL₃, Links.prevOf_setCell]
        exact hprev₂
    · rw [hlast₄, hL₄, Links.cell_setLast, hL₃, Links.cell_setCell_of_ne hlast_ne.symm, hL₂,
        Links.cell_setPrev]
      exact hcell₁
    · exact List.nodup_append'.mpr ⟨hrep.nodup, List.nodup_singleton a,
        List.disjoint_singleton.mpr ha⟩

/-- **`TAILQ_REMOVE`** takes an element out, wherever it stands. -/
theorem run_remove (hrep : Represents L h (xs ++ a :: ys)) (hF : F.Covers h (xs ++ a :: ys)) :
    ∃ M, Stmt.run F (tailqRemove h a) L = some ((), M) ∧ Represents M h (xs ++ ys) := by
  obtain ⟨t, hxs, hcell, hprev, hys⟩ := Seg.append_iff.mp hrep.seg
  have hFa : F.nodes a = true := hF.nodes a (by simp)
  have htF : F.slots t = true := by
    refine hF.slot (hxs.end_mem.imp_right ?_)
    rintro ⟨b, hb, ht⟩
    exact ⟨b, List.mem_append_left _ hb, ht⟩
  obtain ⟨hnodup, hnodup', hdisj⟩ := List.nodup_append'.mp hrep.nodup
  obtain ⟨hays, hnodup_ys⟩ := List.nodup_cons.mp hnodup'
  have haxs : a ∉ xs := fun h => hdisj h List.mem_cons_self
  have hdisj' : ∀ b ∈ xs, b ∉ ys := fun b hb hb' => hdisj hb (List.mem_cons_of_mem a hb')
  -- the end of the first part is none of the slots behind it
  have ht_ne : ∀ b, b ∉ xs → t ≠ .next b := by
    rintro b hb rfl
    rcases hxs.end_mem with h | ⟨c, hc, h⟩
    · cases h
    · cases h
      exact hb hc
  have hnodup_all : (xs ++ ys).Nodup :=
    List.nodup_append'.mpr ⟨hnodup, hnodup_ys, fun b hb hb' => hdisj' b hb hb'⟩
  cases ys with
  | nil =>
    -- the last element: the head takes its place over
    have hlast : LinkSlot.next a = L.lastOf h := hys
    have hnext : L.cell (.next a) = some none := hlast ▸ hrep.null
    set L₁ := L.setLast h t with hL₁
    have hrun₁ := exec_bypass_none hFa hF.head hnext hprev
    have hcut : (Stmt.cut a).exec F L₁ = some ((), L₁.setCell t none) :=
      exec_cut hFa htF (by rw [hL₁, Links.cell_setLast, hnext])
        (by rw [hL₁, Links.prevOf_setLast, hprev]) (by rw [hL₁, Links.cell_setLast, hcell]; rfl)
    refine ⟨L₁.setCell t none, ?_, ?_⟩
    · rw [tailqRemove, run_cons hrun₁, run_cons hcut]
      rfl
    · rw [List.append_nil]
      have hlast' : (L₁.setCell t none).lastOf h = t := by
        rw [Links.lastOf_setCell, hL₁, Links.lastOf_setLast_self]
      refine ⟨?_, ?_, hnodup⟩
      · rw [hlast']
        refine hxs.congr (fun b _ => nofun) hnodup (fun u hu _ => ?_) fun b _ => ?_
        · rw [Links.cell_setCell_of_ne hu, hL₁, Links.cell_setLast]
        · rw [Links.prevOf_setCell, hL₁, Links.prevOf_setLast]
      · rw [hlast']
        exact Links.cell_setCell_self (by rw [hL₁, Links.cell_setLast, hcell]; rfl)
  | cons b ys =>
    -- the next element takes its place over
    obtain ⟨hnext, hprev_b, hrest⟩ := hys
    have hab : b ≠ a := fun hba => hays (hba ▸ List.mem_cons_self)
    have hbxs : b ∉ xs := fun hb => hdisj' b hb List.mem_cons_self
    obtain ⟨hbys, hnodup_ys'⟩ := List.nodup_cons.mp hnodup_ys
    have halloc_b : (L.entry b).isSome = true := by
      rw [← Links.isSome_prevOf, hprev_b]
      rfl
    set L₁ := L.setPrev b t with hL₁
    have hrun₁ : (Stmt.bypass h a).exec F L = some ((), L₁) :=
      exec_bypass_some hFa (hF.nodes b (by simp)) hnext hprev halloc_b
    have hcut : (Stmt.cut a).exec F L₁ = some ((), L₁.setCell t (some b)) :=
      exec_cut hFa htF (by rw [hL₁, Links.cell_setPrev, hnext])
        (by rw [hL₁, Links.prevOf_setPrev_of_ne hab.symm, hprev])
        (by rw [hL₁, Links.cell_setPrev, hcell]; rfl)
    set L₂ := L₁.setCell t (some b) with hL₂
    have hcell_of_ne : ∀ u, u ≠ t → L₂.cell u = L.cell u := fun u hu => by
      rw [hL₂, Links.cell_setCell_of_ne hu, hL₁, Links.cell_setPrev]
    have hprev_of_ne : ∀ c, c ≠ b → L₂.prevOf c = L.prevOf c := fun c hc => by
      rw [hL₂, Links.prevOf_setCell, hL₁, Links.prevOf_setPrev_of_ne hc]
    have hlast : L₂.lastOf h = L.lastOf h := by
      rw [hL₂, Links.lastOf_setCell, hL₁, Links.lastOf_setPrev]
    refine ⟨L₂, ?_, ?_, ?_, hnodup_all⟩
    · rw [tailqRemove, run_cons hrun₁, run_cons hcut]
      rfl
    · rw [hlast]
      refine Seg.append_iff.mpr ⟨t, ?_, ?_, ?_, ?_⟩
      · refine hxs.congr (fun c _ => nofun) hnodup (fun u hu _ => hcell_of_ne u hu) fun c hc => ?_
        exact hprev_of_ne c fun hcb => hbxs (hcb ▸ hc)
      · exact Links.cell_setCell_self (by rw [hL₁, Links.cell_setPrev, hcell]; rfl)
      · rw [hL₂, Links.prevOf_setCell]
        exact Links.prevOf_setPrev_self (by rw [hprev_b]; rfl)
      · refine hrest.congr (fun c hc heq => ?_) hnodup_ys' ?_ fun c hc => ?_
        · cases heq
          exact hbys hc
        · rintro u - (rfl | ⟨c, hc, rfl⟩)
          · exact hcell_of_ne _ (ht_ne b hbxs).symm
          · exact hcell_of_ne _ (ht_ne c fun hcx => hdisj' c hcx (List.mem_cons_of_mem b hc)).symm
        · exact hprev_of_ne c fun hcb => hbys (hcb ▸ hc)
    · rw [hlast, hcell_of_ne]
      · exact hrep.null
      · rcases hrest.end_mem with h | ⟨c, hc, h⟩
        · rw [h]
          exact (ht_ne b hbxs).symm
        · rw [h]
          exact (ht_ne c fun hcx => hdisj' c hcx (List.mem_cons_of_mem b hc)).symm

/-- `TAILQ_FOREACH`: the elements from a pointer on, in at most `n` turns. -/
def Links.follow (L : Links H A) : ℕ → Option A → Option (List A)
  | _, none => some []
  | 0, some _ => none
  | n + 1, some a => (L.entry a).bind fun e => (L.follow n e.next).map (a :: ·)

theorem Seg.follow {s : LinkSlot H A} {t : LinkSlot H A} (hseg : Seg L s xs t)
    (hnull : L.cell t = some none) {n : ℕ} (hn : xs.length ≤ n) :
    (L.cell s).bind (L.follow n) = some xs := by
  induction xs generalizing s n with
  | nil =>
    obtain rfl : s = t := hseg
    rw [hnull]
    cases n <;> rfl
  | cons a xs ih =>
    obtain ⟨n, rfl⟩ : ∃ m, n = m + 1 := Nat.exists_eq_succ_of_ne_zero fun h0 => by
      rw [h0] at hn
      cases hn
    have hrest := ih hseg.2.2 (n := n) (by simpa using hn)
    obtain ⟨e, he, -⟩ := Option.map_eq_some_iff.mp hseg.2.1
    rw [hseg.1, Option.bind_some, Links.follow, he, Option.bind_some]
    rw [Links.cell, he, Option.map_some, Option.bind_some] at hrest
    rw [hrest]
    rfl

/-- **A walk over a queue** meets its elements in order, and ends. -/
theorem follow_eq (hrep : Represents L h xs) {n : ℕ} (hn : xs.length ≤ n) :
    L.follow n (L.head h).first = some xs :=
  hrep.seg.follow hrep.null hn

end Macros

end Newiup
