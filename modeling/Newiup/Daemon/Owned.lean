import Mathlib.Data.Set.Card
import Newiup.Ledger
import Newiup.Daemon.Step

/-!
# Ownership of nodes

Every allocated node is at exactly one place: in a queue, or in a variable of a
thread.  Originals are at the places of their monitor group, copies at the places of
the servers, and the counter of an original is the number of its live copies.  This
is a statement about what is where and what is allocated, and each operation on
nodes keeps it.

## Main definitions

* `Place`, `State.held` — the places of nodes, and what is there.
* `LiveCopy` — a copy that has not been counted down yet.
* `Owned`, `Counted` — who owns what, and that the counters are exact.

## Main results

* `Owned.move`, `Owned.reshape`, `Owned.alloc`, `Owned.free` — **the operations keep
  the invariant.**
* `liveCopy_move`, `liveCopy_release`, `liveCopy_alloc`, `liveCopy_free` — what they do
  to the live copies.
-/

namespace Newiup

/-- The places a node can be at.  A copy that has been counted down is still held by its
thread, which is about to free it, but counts no longer; it has a place of its own for that
reason. -/
inductive Place
  /-- in a queue -/
  | queue (q : QueueId)
  /-- in the variable `node` of a scheduler -/
  | sche (g : ℕ)
  /-- in the variable `newnode` of a scheduler -/
  | new (g : ℕ)
  /-- in the variable `node` of an upload thread -/
  | upload (t : ThreadId)
  /-- there as well, but counted down -/
  | released (t : ThreadId)
  deriving DecidableEq

/-- The nodes at a place. -/
def State.held (s : State) : Place → List Addr
  | .queue q => (s.queue q).head
  | .sche g => (s.sche g).node.toList
  | .new g => (s.sche g).newnode.toList
  | .upload t => (s.upload t).node.toList
  | .released t => (s.upload t).released.toList

/-- The monitor group whose originals are at a place. -/
def Place.group : Place → Option ℕ
  | .queue (.sche g) => some g
  | .sche g => some g
  | _ => none

/-- The original `a` of a monitor group. -/
structure IsOriginal (g : ℕ) (a : Addr) (n : FileQueue) : Prop where
  /-- It is no copy. -/
  copy : n.copy = false
  /-- It belongs to the group. -/
  monitorId : n.monitorId = g
  /-- It has its own counter. -/
  retainCount : n.retainCount = a
  /-- It returns to the queue of the group. -/
  scheQueue : n.scheQueue = .sche g

/-- What a node at a place has to be. -/
def Fits (p : Place) (a : Addr) (n : FileQueue) : Prop :=
  match p.group with
  | some g => IsOriginal g a n
  | none => n.copy = true

section Ownership

variable {held held' : Place → List Addr} {heap heap' : Addr → Option FileQueue}
  {next : Addr}

/-- The node `c` is a copy of `a` that has not been counted down yet. -/
def LiveCopy (held : Place → List Addr) (heap : Addr → Option FileQueue) (c a : Addr) : Prop :=
  ∃ n, heap c = some n ∧ n.copy = true ∧ n.retainCount = a ∧ ∀ t, c ∉ held (.released t)

/-- The live copies of an original. -/
def liveCopies (held : Place → List Addr) (heap : Addr → Option FileQueue) (a : Addr) :
    Set Addr := {c | LiveCopy held heap c a}

/-- **Who owns what.**  Each allocated node is held at exactly one place.  That is what makes
it safe for a thread to write to the node it holds, and to free it. -/
structure Owned (held : Place → List Addr) (heap : Addr → Option FileQueue) (next : Addr) :
    Prop where
  /-- Nothing is held twice. -/
  exclusive : Exclusive held
  /-- What is held is allocated, and of the right kind. -/
  fits : ∀ {p a}, a ∈ held p → ∃ n, heap a = some n ∧ Fits p a n
  /-- What is allocated is held. -/
  holder : ∀ {a n}, heap a = some n → ∃ p, a ∈ held p
  /-- Addresses in use have been handed out. -/
  fresh : ∀ {a n}, heap a = some n → a < next
  /-- The original of a live copy is allocated. -/
  original : ∀ {c a n}, LiveCopy held heap c a → heap c = some n →
    ∃ o, heap a = some o ∧ o.copy = false ∧ o.monitorId = n.monitorId

/-- **The counters are exact**: that of an original is the number of its live copies. -/
def Counted (held : Place → List Addr) (heap : Addr → Option FileQueue) : Prop :=
  ∀ a n, heap a = some n → n.copy = false →
    n.reCountS = ((liveCopies held heap a).ncard : ℤ)

/-! ### Shapes -/

/-- The fields of a node that decide where it belongs. -/
def FileQueue.shape (n : FileQueue) : Bool × ℕ × Addr × QueueId :=
  (n.copy, n.monitorId, n.retainCount, n.scheQueue)

/-- Two heaps hold nodes of the same shapes. -/
def SameShape (heap heap' : Addr → Option FileQueue) : Prop :=
  ∀ a, (heap' a).map FileQueue.shape = (heap a).map FileQueue.shape

theorem SameShape.symm (h : SameShape heap heap') : SameShape heap' heap := fun a => (h a).symm

theorem SameShape.some (h : SameShape heap heap') {a : Addr} {n : FileQueue}
    (hn : heap a = some n) : ∃ n', heap' a = some n' ∧ n'.shape = n.shape := by
  have := h a
  rw [hn, Option.map_some] at this
  exact Option.map_eq_some_iff.mp this

theorem SameShape.update {x : Addr} {n n' : FileQueue} (hx : heap x = .some n)
    (hs : n'.shape = n.shape) : SameShape heap (Function.update heap x (.some n')) := by
  intro a
  by_cases ha : a = x
  · rw [ha, Function.update_self, hx, Option.map_some, Option.map_some, hs]
  · rw [Function.update_of_ne ha]

theorem shape_eq_iff {n n' : FileQueue} : n'.shape = n.shape ↔
    n'.copy = n.copy ∧ n'.monitorId = n.monitorId ∧ n'.retainCount = n.retainCount ∧
      n'.scheQueue = n.scheQueue := by
  simp [FileQueue.shape]

theorem Fits.original {p : Place} {a : Addr} {g : ℕ} {n : FileQueue} (h : Fits p a n)
    (hp : p.group = some g) : IsOriginal g a n := by
  simpa only [Fits, hp] using h

theorem Fits.copy {p : Place} {a : Addr} {n : FileQueue} (h : Fits p a n)
    (hp : p.group = none) : n.copy = true := by
  simpa only [Fits, hp] using h

theorem Fits.congr {p p' : Place} {a : Addr} {n n' : FileQueue} (h : Fits p a n)
    (hp : p'.group = p.group) (hs : n'.shape = n.shape) : Fits p' a n' := by
  obtain ⟨hc, hi, hr, hq⟩ := shape_eq_iff.mp hs
  unfold Fits at h ⊢
  rw [hp]
  split at h
  · exact ⟨hc ▸ h.copy, hi ▸ h.monitorId, hr ▸ h.retainCount, hq ▸ h.scheQueue⟩
  · exact hc ▸ h

/-! ### Live copies -/

theorem liveCopy_reshape (hs : SameShape heap heap') {c a : Addr} :
    LiveCopy held heap' c a ↔ LiveCopy held heap c a := by
  have aux : ∀ {heap heap' : Addr → Option FileQueue}, SameShape heap heap' →
      LiveCopy held heap c a → LiveCopy held heap' c a := by
    rintro heap heap' hs ⟨n, hn, hc, hr, hrel⟩
    obtain ⟨n', hn', hshape⟩ := hs.some hn
    obtain ⟨hc', -, hr', -⟩ := shape_eq_iff.mp hshape
    exact ⟨n', hn', hc'.trans hc, hr'.trans hr, hrel⟩
  exact ⟨aux hs.symm, aux hs⟩

theorem liveCopy_move {x : Addr} {src dst : Option Place} (hm : Moved held held' x src dst)
    (hsrc : ∀ t, src ≠ some (.released t)) (hdst : ∀ t, dst ≠ some (.released t)) {c a : Addr} :
    LiveCopy held' heap c a ↔ LiveCopy held heap c a := by
  unfold LiveCopy
  simp only [hm.mem_iff_of_place (hsrc _) (hdst _)]

theorem liveCopy_release {x : Addr} {t : ThreadId} {p : Place}
    (hm : Moved held held' x (some p) (some (.released t))) {c a : Addr} :
    LiveCopy held' heap c a ↔ LiveCopy held heap c a ∧ c ≠ x := by
  constructor
  · rintro ⟨n, hn, hc, hr, hrel⟩
    have hne : c ≠ x := fun h => hrel t (h ▸ hm.mem_dst rfl)
    exact ⟨⟨n, hn, hc, hr, fun t' h => hrel t' ((hm.mem_iff_of_ne hne).mpr h)⟩, hne⟩
  · rintro ⟨⟨n, hn, hc, hr, hrel⟩, hne⟩
    exact ⟨n, hn, hc, hr, fun t' h => hrel t' ((hm.mem_iff_of_ne hne).mp h)⟩

theorem liveCopy_alloc {x : Addr} {n : FileQueue} (hx : heap x = none)
    (hrel : ∀ t, x ∉ held (.released t)) {c a : Addr} :
    LiveCopy held (Function.update heap x (some n)) c a ↔
      LiveCopy held heap c a ∨ (c = x ∧ n.copy = true ∧ n.retainCount = a) := by
  unfold LiveCopy
  by_cases hc : c = x
  · subst hc
    simp [hx, hrel]
  · simp [hc]

theorem liveCopy_free {x : Addr} {c a : Addr} :
    LiveCopy held (Function.update heap x none) c a ↔ LiveCopy held heap c a ∧ c ≠ x := by
  unfold LiveCopy
  by_cases hc : c = x
  · subst hc
    simp
  · simp [hc]

namespace Owned

variable {x : Addr}

theorem finite_liveCopies (h : Owned held heap next) (a : Addr) :
    (liveCopies held heap a).Finite :=
  (Set.finite_Iio next).subset fun _ ⟨_, hn, _⟩ => h.fresh hn

theorem next_unallocated (h : Owned held heap next) : heap next = none := by
  cases hn : heap next with
  | none => rfl
  | some n => exact absurd (h.fresh hn) (lt_irrefl next)

theorem next_unheld (h : Owned held heap next) (p : Place) : next ∉ held p := fun hp => by
  obtain ⟨n, hn, -⟩ := h.fits hp
  exact absurd (h.fresh hn) (lt_irrefl next)

/-- A node at a place of a monitor group is an original of it. -/
theorem isOriginal (h : Owned held heap next) {p : Place} {g : ℕ} {a : Addr} {n : FileQueue}
    (ha : a ∈ held p) (hp : p.group = some g) (hn : heap a = some n) : IsOriginal g a n := by
  obtain ⟨m, hm, hfit⟩ := h.fits ha
  cases hm.symm.trans hn
  exact hfit.original hp

/-- A node at any other place is a copy. -/
theorem isCopy (h : Owned held heap next) {p : Place} {a : Addr} {n : FileQueue}
    (ha : a ∈ held p) (hp : p.group = none) (hn : heap a = some n) : n.copy = true := by
  obtain ⟨m, hm, hfit⟩ := h.fits ha
  cases hm.symm.trans hn
  exact hfit.copy hp

/-- A counter of zero means that no copy is live. -/
theorem no_liveCopy (h : Owned held heap next) (hcnt : Counted held heap) {a : Addr}
    {n : FileQueue} (hn : heap a = some n) (hc : n.copy = false) (h0 : n.reCountS = 0)
    (c : Addr) : ¬LiveCopy held heap c a := by
  intro hlive
  have hcard : (liveCopies held heap a).ncard = 0 := by
    have := hcnt a n hn hc
    omega
  rw [Set.ncard_eq_zero (h.finite_liveCopies a)] at hcard
  exact (Set.eq_empty_iff_forall_notMem.mp hcard) c hlive

/-- **A node moves** between two places of the same kind; what has been counted down
stays so. -/
theorem move {p p' : Place} (h : Owned held heap next)
    (hm : Moved held held' x (some p) (some p')) (hp : p'.group = p.group)
    (hr : ∀ t, p ≠ .released t) : Owned held' heap next := by
  have hx : (some p : Option Place) = none → ∀ q, x ∉ held q := fun h => by cases h
  have hlive : ∀ {c a}, LiveCopy held' heap c a → LiveCopy held heap c a := by
    rintro c a ⟨n, hn, hc, hret, hrel⟩
    refine ⟨n, hn, hc, hret, fun t ht => hrel t ?_⟩
    have hcx : c ≠ x := fun hcx => hr t (h.exclusive.unique (hm.mem_src rfl) (hcx ▸ ht))
    exact (hm.mem_iff_of_ne hcx).mpr ht
  refine ⟨h.exclusive.moved hm hx, fun {q a} ha => ?_, fun {a n} hn => ?_, h.fresh,
    fun hl => h.original (hlive hl)⟩
  · rcases (hm.mem_iff h.exclusive hx).mp ha with ⟨ha, -⟩ | ⟨rfl, hq⟩
    · exact h.fits ha
    · cases hq
      obtain ⟨n, hn, hfit⟩ := h.fits (hm.mem_src rfl)
      exact ⟨n, hn, hfit.congr hp rfl⟩
  · by_cases ha : a = x
    · exact ⟨p', ha ▸ hm.mem_dst rfl⟩
    · obtain ⟨q, hq⟩ := h.holder hn
      exact ⟨q, (hm.mem_iff_of_ne ha).mpr hq⟩

/-- **Nodes are written**, in fields that do not decide where they belong. -/
theorem reshape (h : Owned held heap next) (hs : SameShape heap heap') :
    Owned held heap' next := by
  refine ⟨h.exclusive, fun {p a} ha => ?_, fun {a n'} hn' => ?_, fun {a n'} hn' => ?_,
    fun {c a n'} hl hn' => ?_⟩
  · obtain ⟨n, hn, hfit⟩ := h.fits ha
    obtain ⟨n', hn', hshape⟩ := hs.some hn
    exact ⟨n', hn', hfit.congr rfl hshape⟩
  · obtain ⟨n, hn, -⟩ := hs.symm.some hn'
    exact h.holder hn
  · obtain ⟨n, hn, -⟩ := hs.symm.some hn'
    exact h.fresh hn
  · obtain ⟨n, hn, hshape⟩ := hs.symm.some hn'
    obtain ⟨o, ho, hoc, hoi⟩ := h.original ((liveCopy_reshape hs).mp hl) hn
    obtain ⟨o', ho', hshape'⟩ := hs.some ho
    obtain ⟨hc, hi, -⟩ := shape_eq_iff.mp hshape'
    exact ⟨o', ho', hc.trans hoc, hi.trans (hoi.trans (shape_eq_iff.mp hshape).2.1)⟩

/-- **A node is allocated** at the next address.  The original of a copy has to be
there. -/
theorem alloc {p : Place} {n : FileQueue} (h : Owned held heap next)
    (hm : Moved held held' next none (some p)) (hfit : Fits p next n)
    (hr : ∀ t, p ≠ .released t)
    (ho : n.copy = true → ∃ o, heap n.retainCount = some o ∧ o.copy = false ∧
      o.monitorId = n.monitorId) :
    Owned held' (Function.update heap next (some n)) (next + 1) := by
  have hx : (none : Option Place) = none → ∀ q, next ∉ held q := fun _ => h.next_unheld
  have hold : ∀ {a m}, heap a = some m → Function.update heap next (some n) a = some m := by
    intro a m ha
    rw [Function.update_of_ne (h.fresh ha).ne, ha]
  -- the address was held by nobody, so that it gets its one holder
  refine ⟨h.exclusive.moved hm hx, fun {q a} ha => ?_, fun {a m} hm' => ?_, fun {a m} hm' => ?_,
    fun {c a m} hl hm' => ?_⟩
  · rcases (hm.mem_iff h.exclusive hx).mp ha with ⟨ha, -⟩ | ⟨rfl, hq⟩
    · obtain ⟨m, hm', hf⟩ := h.fits ha
      exact ⟨m, hold hm', hf⟩
    · cases hq
      exact ⟨n, Function.update_self .., hfit⟩
  · by_cases ha : a = next
    · exact ⟨p, ha ▸ hm.mem_dst rfl⟩
    · rw [Function.update_of_ne ha] at hm'
      obtain ⟨q, hq⟩ := h.holder hm'
      exact ⟨q, (hm.mem_iff_of_ne ha).mpr hq⟩
  · by_cases ha : a = next
    · exact ha ▸ Nat.lt_succ_self _
    · rw [Function.update_of_ne ha] at hm'
      exact Nat.lt_succ_of_lt (h.fresh hm')
  · have hdst : ∀ t, some p ≠ some (Place.released t) := fun t ht => hr t (Option.some.inj ht)
    rw [liveCopy_move hm (fun t => by simp) hdst,
      liveCopy_alloc h.next_unallocated fun t => h.next_unheld _] at hl
    rcases hl with hl | ⟨rfl, hc, rfl⟩
    · have hcn : c ≠ next := by
        obtain ⟨m', hm'', -⟩ := hl
        exact (h.fresh hm'').ne
      rw [Function.update_of_ne hcn] at hm'
      obtain ⟨o, ho', hoc⟩ := h.original hl hm'
      exact ⟨o, hold ho', hoc⟩
    · rw [Function.update_self] at hm'
      cases hm'
      obtain ⟨o, ho', hoc⟩ := ho hc
      exact ⟨o, hold ho', hoc⟩

/-- **A node without live copies is freed.** -/
theorem free {p : Place} (h : Owned held heap next) (hm : Moved held held' x (some p) none)
    (hlive : ∀ c, ¬LiveCopy held heap c x) :
    Owned held' (Function.update heap x none) next := by
  have hx : (some p : Option Place) = none → ∀ q, x ∉ held q := fun h => by cases h
  have hold : ∀ {a m}, Function.update heap x none a = some m → a ≠ x ∧ heap a = some m := by
    intro a m ha
    by_cases hax : a = x
    · rw [hax, Function.update_self] at ha
      cases ha
    · exact ⟨hax, by rwa [Function.update_of_ne hax] at ha⟩
  refine ⟨h.exclusive.moved hm hx, fun {q a} ha => ?_, fun {a m} hm' => ?_, fun {a m} hm' => ?_,
    fun {c a m} hl hm' => ?_⟩
  · rcases (hm.mem_iff h.exclusive hx).mp ha with ⟨ha, hne⟩ | ⟨-, hq⟩
    · obtain ⟨m, hm', hf⟩ := h.fits ha
      exact ⟨m, by rw [Function.update_of_ne hne, hm'], hf⟩
    · cases hq
  · obtain ⟨hne, hm'⟩ := hold hm'
    obtain ⟨q, hq⟩ := h.holder hm'
    exact ⟨q, (hm.mem_iff_of_ne hne).mpr hq⟩
  · exact h.fresh (hold hm').2
  · obtain ⟨hne, hm'⟩ := hold hm'
    have hl' : LiveCopy held heap c a := by
      obtain ⟨m', hm'', hc, hr, hrel⟩ := hl
      refine ⟨m', (hold hm'').2, hc, hr, fun t ht => hrel t ?_⟩
      exact (hm.mem_iff_of_ne hne).mpr ht
    obtain ⟨o, ho, hoc⟩ := h.original hl' hm'
    have hax : a ≠ x := fun hax => hlive c (hax ▸ hl')
    exact ⟨o, by rw [Function.update_of_ne hax, ho], hoc⟩

end Owned

/-! ### Counters -/

/-- The counters stay exact where neither they nor the live copies change. -/
theorem Counted.congr (h : Counted held heap)
    (hlive : ∀ c a, LiveCopy held' heap' c a ↔ LiveCopy held heap c a)
    (hcount : ∀ {a n'}, heap' a = some n' → n'.copy = false →
      ∃ n, heap a = some n ∧ n.copy = false ∧ n'.reCountS = n.reCountS) :
    Counted held' heap' := by
  intro a n' hn' hc
  obtain ⟨n, hn, hc', hcnt⟩ := hcount hn' hc
  rw [hcnt, h a n hn hc']
  congr 2
  exact Set.ext fun c => (hlive c a).symm

end Ownership

end Newiup
