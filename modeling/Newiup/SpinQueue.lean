import Newiup.Simulation
import Newiup.TailQueue

/-!
# Tail queues under spin locks

Threads push and pop the elements of several tail queues, each under the lock of its queue, as
`queue_node_push` and `queue_node_pop` do; a step of a thread is one statement of the macros.
Between the statements the links of a queue are in no order, and the others may read its size
without the lock.  The queues nevertheless behave like lists on which every call takes effect at
once, at the write of the size.

A thread may push an element that it owns: one that it has allocated or popped.

## Main definitions

* `SpinState`, `spinQueues` — the threads at the links.
* `AtomicState`, `atomicQueues` — the lists.
* `Holds` — what is known of the links of a queue at each statement.

## Main results

* `spinQueues_simulated` — **the threads at the links are simulated by the lists.**
* `spinQueues_linearizable` — every trace of calls and returns is one of the lists.
* `spinQueues_goesOn` — no statement touches an element that is not allocated.
* `spinQueues_returns` — no call is stuck.
-/

set_option linter.unusedSectionVars false

namespace Newiup

/-! ### The threads at the links -/

/-- A call of `queue_node_pop` or `queue_node_push`. -/
inductive QueueCall (H A : Type*)
  | pop (h : H)
  | push (h : H) (a : A)
  deriving DecidableEq

/-- The queue of a call. -/
def QueueCall.head {H A : Type*} : QueueCall H A → H
  | .pop h => h
  | .push h _ => h

/-- What is done under the lock: `a` is taken out, or put in. -/
inductive QueueWork (A : Type*)
  | pop (a : A)
  | push (a : A)

/-- Where a thread is. -/
inductive SpinPc (H A : Type*)
  | idle
  /-- at the lock -/
  | lock (c : QueueCall H A)
  /-- at the look at the first element -/
  | first (h : H)
  /-- at the statements that are left; behind the last one, at the size -/
  | links (h : H) (rest : List (Stmt H A)) (w : QueueWork A)
  /-- at the release of the lock -/
  | unlock (h : H) (ret : Option A)
  /-- at the return -/
  | back (ret : Option A)

/-- The memory and the threads.  The owner of an element is not a field of the program: it
records who got the element from an allocation or a pop, and with that what a push and a free
may be called with. -/
structure SpinState (T H A : Type*) where
  /-- The links. -/
  links : Links H A
  /-- `size` of each queue. -/
  size : H → ℤ
  /-- Who holds the lock of each queue. -/
  lock : H → Option T
  /-- The threads. -/
  pc : T → SpinPc H A
  /-- Who owns an element that is in no queue. -/
  owner : A → Option T

/-- What happens. -/
inductive SpinAct (T H A : Type*)
  /-- a thread calls a queue -/
  | call (t : T) (c : QueueCall H A)
  /-- a call returns -/
  | ret (t : T) (r : Option A)
  /-- a thread reads a size, without the lock -/
  | size (t : T) (h : H) (n : ℤ)
  /-- a thread allocates an element; its links are arbitrary -/
  | alloc (t : T) (a : A) (e : TailqEntry H A)
  /-- a thread frees an element -/
  | free (t : T) (a : A)
  /-- a thread goes on in its call -/
  | step (t : T)

/-- What is seen from outside. -/
inductive QueueLabel (T H A : Type*)
  | call (t : T) (c : QueueCall H A)
  | ret (t : T) (r : Option A)
  | size (t : T) (h : H) (n : ℤ)
  | alloc (t : T) (a : A)
  | free (t : T) (a : A)
  deriving DecidableEq

/-- The label of an act. -/
def SpinAct.label {T H A : Type*} : SpinAct T H A → Option (QueueLabel T H A)
  | .call t c => some (.call t c)
  | .ret t r => some (.ret t r)
  | .size t h n => some (.size t h n)
  | .alloc t a _ => some (.alloc t a)
  | .free t a => some (.free t a)
  | .step _ => none

/-- Where a call goes from the lock. -/
def QueueCall.entered {H A : Type*} : QueueCall H A → SpinPc H A
  | .pop h => .first h
  | .push h a => .links h (tailqInsertTail h a) (.push a)

variable {T H A : Type*} [DecidableEq T] [DecidableEq H] [DecidableEq A]

namespace SpinState

/-- A thread moves. -/
def go (s : SpinState T H A) (t : T) (p : SpinPc H A) : SpinState T H A :=
  { s with pc := Function.update s.pc t p }

/-- A thread goes on in its call. -/
def advance (s : SpinState T H A) (t : T) : Option (SpinState T H A) :=
  match s.pc t with
  | .lock c =>
      match s.lock c.head with
      | some _ => some s -- it spins
      | none => some { s.go t c.entered with lock := Function.update s.lock c.head (some t) }
  | .first h =>
      some <| s.go t <|
        match (s.links.head h).first with
        | none => .unlock h none
        | some a => .links h (tailqRemove h a) (.pop a)
  | .links h (st :: rest) w =>
      (st.exec .all s.links).map fun r => { s.go t (.links h rest w) with links := r.2 }
  | .links h [] (.pop a) =>
      some { s.go t (.unlock h (some a)) with
        size := Function.update s.size h (s.size h - 1)
        owner := Function.update s.owner a (some t) }
  | .links h [] (.push a) =>
      some { s.go t (.unlock h none) with
        size := Function.update s.size h (s.size h + 1)
        owner := Function.update s.owner a none }
  | .unlock h r => some { s.go t (.back r) with lock := Function.update s.lock h none }
  | .idle => none
  | .back _ => none

/-- The thread may make the call. -/
def Owns (s : SpinState T H A) (t : T) : QueueCall H A → Prop
  | .pop _ => True
  | .push _ a => s.owner a = some t

instance (s : SpinState T H A) (t : T) : (c : QueueCall H A) → Decidable (s.Owns t c)
  | .pop _ => .isTrue trivial
  | .push _ a => inferInstanceAs (Decidable (s.owner a = some t))

/-- A step. -/
def step (s : SpinState T H A) : SpinAct T H A → Option (SpinState T H A)
  | .call t c =>
      match s.pc t with
      | .idle => if s.Owns t c then some (s.go t (.lock c)) else none
      | _ => none
  | .ret t r =>
      match s.pc t with
      | .back r' => if r' = r then some (s.go t .idle) else none
      | _ => none
  | .size t h n =>
      match s.pc t with
      | .idle => if s.size h = n then some s else none
      | _ => none
  | .alloc t a e =>
      match s.pc t, s.links.entry a with
      | .idle, none =>
          some { s with
            links := { s.links with entry := Function.update s.links.entry a (some e) }
            owner := Function.update s.owner a (some t) }
      | _, _ => none
  | .free t a =>
      match s.pc t with
      | .idle =>
          if s.owner a = some t then
            some { s with
              links := { s.links with entry := Function.update s.links.entry a none }
              owner := Function.update s.owner a none }
          else none
      | _ => none
  | .step t => s.advance t

end SpinState

/-- The threads at the links, from empty queues on. -/
def spinQueues (T H A : Type*) [DecidableEq T] [DecidableEq H] [DecidableEq A] :
    System (SpinState T H A) (SpinAct T H A) where
  init s :=
    s = ⟨⟨tailqInit, fun _ => none⟩, fun _ => 0, fun _ => none, fun _ => .idle, fun _ => none⟩
  step := SpinState.step

/-! ### The lists -/

/-- Where a thread is, at the lists. -/
inductive AtomicPc (H A : Type*)
  | idle
  | called (c : QueueCall H A)
  | back (ret : Option A)

/-- The lists and the threads.  There are no links, and a lock is not needed: a call takes
effect in one step, at some moment between its beginning and its return. -/
structure AtomicState (T H A : Type*) where
  /-- The elements of each queue, first to last. -/
  queue : H → List A
  /-- The threads. -/
  pc : T → AtomicPc H A
  /-- Who owns an element that is in no queue. -/
  owner : A → Option T
  /-- The elements that are allocated. -/
  live : A → Bool

/-- What happens at the lists. -/
inductive AtomicAct (T H A : Type*)
  | call (t : T) (c : QueueCall H A)
  | ret (t : T) (r : Option A)
  | size (t : T) (h : H) (n : ℤ)
  | alloc (t : T) (a : A)
  | free (t : T) (a : A)
  /-- a call takes effect -/
  | perform (t : T)

/-- The label of an act. -/
def AtomicAct.label {T H A : Type*} : AtomicAct T H A → Option (QueueLabel T H A)
  | .call t c => some (.call t c)
  | .ret t r => some (.ret t r)
  | .size t h n => some (.size t h n)
  | .alloc t a => some (.alloc t a)
  | .free t a => some (.free t a)
  | .perform _ => none

namespace AtomicState

/-- A thread moves. -/
def go (x : AtomicState T H A) (t : T) (p : AtomicPc H A) : AtomicState T H A :=
  { x with pc := Function.update x.pc t p }

/-- A call takes effect. -/
def perform (x : AtomicState T H A) (t : T) : Option (AtomicState T H A) :=
  match x.pc t with
  | .called (.pop h) =>
      match x.queue h with
      | [] => some (x.go t (.back none))
      | a :: as =>
          some { x.go t (.back (some a)) with
            queue := Function.update x.queue h as
            owner := Function.update x.owner a (some t) }
  | .called (.push h a) =>
      some { x.go t (.back none) with
        queue := Function.update x.queue h (x.queue h ++ [a])
        owner := Function.update x.owner a none }
  | _ => none

/-- The thread may make the call. -/
def Owns (x : AtomicState T H A) (t : T) : QueueCall H A → Prop
  | .pop _ => True
  | .push _ a => x.owner a = some t

instance (x : AtomicState T H A) (t : T) : (c : QueueCall H A) → Decidable (x.Owns t c)
  | .pop _ => .isTrue trivial
  | .push _ a => inferInstanceAs (Decidable (x.owner a = some t))

/-- A step. -/
def step (x : AtomicState T H A) : AtomicAct T H A → Option (AtomicState T H A)
  | .call t c =>
      match x.pc t with
      | .idle => if x.Owns t c then some (x.go t (.called c)) else none
      | _ => none
  | .ret t r =>
      match x.pc t with
      | .back r' => if r' = r then some (x.go t .idle) else none
      | _ => none
  | .size t h n =>
      match x.pc t with
      | .idle => if ((x.queue h).length : ℤ) = n then some x else none
      | _ => none
  | .alloc t a =>
      match x.pc t, x.live a with
      | .idle, false =>
          some { x with
            owner := Function.update x.owner a (some t)
            live := Function.update x.live a true }
      | _, _ => none
  | .free t a =>
      match x.pc t with
      | .idle =>
          if x.owner a = some t then
            some { x with
              owner := Function.update x.owner a none
              live := Function.update x.live a false }
          else none
      | _ => none
  | .perform t => x.perform t

end AtomicState

/-- The lists, from empty ones on. -/
def atomicQueues (T H A : Type*) [DecidableEq T] [DecidableEq H] [DecidableEq A] :
    System (AtomicState T H A) (AtomicAct T H A) where
  init x := x = ⟨fun _ => [], fun _ => .idle, fun _ => none, fun _ => false⟩
  step := AtomicState.step

/-! ### What holds between the statements -/

/-- The head of a queue and the elements. -/
def foot (h : H) (zs : List A) : Footprint H A :=
  ⟨fun k => decide (k = h), fun a => decide (a ∈ zs)⟩

/-- The statements that are left under a lock, and what they do. -/
abbrev Stage (H A : Type*) := Option (List (Stmt H A) × QueueWork A)

/-- **What is known of the links of a queue** with the elements `qs`: at each statement, that
those which are left complete the work on it. -/
def Holds (L : Links H A) (h : H) (qs : List A) : Stage H A → Prop
  | none => Represents L h qs
  | some (rest, .pop a) => ∃ as, qs = a :: as ∧
      ∃ M, Stmt.run (foot h qs) rest L = some ((), M) ∧ Represents M h as
  | some (rest, .push a) =>
      ∃ M, Stmt.run (foot h (a :: qs)) rest L = some ((), M) ∧ Represents M h (qs ++ [a])

/-- The elements that the work on a queue touches. -/
def touched (qs : List A) : Stage H A → List A
  | some (_, .push a) => a :: qs
  | _ => qs

/-- The queue a thread has locked. -/
def SpinPc.inside : SpinPc H A → Option H
  | .first h => some h
  | .links h _ _ => some h
  | .unlock h _ => some h
  | _ => none

/-- The work of a thread on the links. -/
def SpinPc.stage : SpinPc H A → Stage H A
  | .links _ rest w => some (rest, w)
  | _ => none

/-- The element a thread is about to push. -/
def SpinPc.pushing : SpinPc H A → Option A
  | .lock (.push _ a) => some a
  | .links _ _ (.push a) => some a
  | _ => none

/-- How many steps of its own a thread has still to make, once it has the lock. -/
def SpinPc.left : SpinPc H A → ℕ
  | .lock _ => 7
  | .first _ => 5
  | .links _ rest _ => rest.length + 2
  | .unlock _ _ => 1
  | _ => 0

/-- The work on a queue. -/
def SpinState.stage (s : SpinState T H A) (h : H) : Stage H A :=
  (s.lock h).bind fun t => (s.pc t).stage

/-- Where a thread is at the links, and at the lists. -/
inductive PcRel : SpinPc H A → AtomicPc H A → Prop
  | idle : PcRel .idle .idle
  | lock {c} : PcRel (.lock c) (.called c)
  | first {h} : PcRel (.first h) (.called (.pop h))
  | pop {h rest a} : PcRel (.links h rest (.pop a)) (.called (.pop h))
  | push {h rest a} : PcRel (.links h rest (.push a)) (.called (.push h a))
  | unlock {h r} : PcRel (.unlock h r) (.back r)
  | back {r} : PcRel (.back r) (.back r)

theorem PcRel.eq_idle {q : AtomicPc H A} (h : PcRel .idle q) : q = .idle := by
  cases h
  rfl

theorem PcRel.eq_back {q : AtomicPc H A} {r : Option A} (h : PcRel (.back r) q) : q = .back r := by
  cases h
  rfl

theorem PcRel.eq_lock {q : AtomicPc H A} {c : QueueCall H A} (h : PcRel (.lock c) q) :
    q = .called c := by
  cases h
  rfl

theorem PcRel.eq_first {q : AtomicPc H A} {h : H} (hq : PcRel (.first h) q) :
    q = .called (.pop h) := by
  cases hq
  rfl

theorem PcRel.eq_pop {q : AtomicPc H A} {h : H} {rest : List (Stmt H A)} {a : A}
    (hq : PcRel (.links h rest (.pop a)) q) : q = .called (.pop h) := by
  cases hq
  rfl

theorem PcRel.eq_push {q : AtomicPc H A} {h : H} {rest : List (Stmt H A)} {a : A}
    (hq : PcRel (.links h rest (.push a)) q) : q = .called (.push h a) := by
  cases hq
  rfl

theorem PcRel.eq_unlock {q : AtomicPc H A} {h : H} {r : Option A} (hq : PcRel (.unlock h r) q) :
    q = .back r := by
  cases hq
  rfl

/-- **The links stand for the lists.** -/
structure Related (s : SpinState T H A) (x : AtomicState T H A) : Prop where
  owner : s.owner = x.owner
  live : ∀ a, (s.links.entry a).isSome = x.live a
  size : ∀ h, s.size h = (x.queue h).length
  pc : ∀ t, PcRel (s.pc t) (x.pc t)
  lock : ∀ t h, s.lock h = some t ↔ (s.pc t).inside = some h
  holds : ∀ h, Holds s.links h (x.queue h) (s.stage h)
  nodup : ∀ h, (x.queue h).Nodup
  queued : ∀ a h, a ∈ x.queue h → x.owner a = none ∧ x.live a = true
  unique : ∀ a h k, a ∈ x.queue h → a ∈ x.queue k → h = k
  owned : ∀ a t, x.owner a = some t → x.live a = true
  pushed : ∀ t a, (s.pc t).pushing = some a → x.owner a = some t

section Holds

variable {L M : Links H A} {h : H} {qs : List A} {st : Stage H A}

theorem represents_of_agree {zs : List A} (hag : Agree (foot h zs) L M) (hqs : ∀ a ∈ qs, a ∈ zs)
    (hrep : Represents L h qs) : Represents M h qs := by
  refine hrep.congr (hag.head h (decide_eq_true rfl)).symm fun a ha => ?_
  exact (hag.entry a (decide_eq_true (hqs a ha))).symm

/-- **The work on a queue is not disturbed** by what is done outside its footprint. -/
theorem Holds.agree (hh : Holds L h qs st) (hag : Agree (foot h (touched qs st)) L M) :
    Holds M h qs st := by
  cases st with
  | none => exact represents_of_agree hag (fun a ha => ha) hh
  | some p =>
    obtain ⟨rest, w⟩ := p
    cases w with
    | pop a =>
      obtain ⟨as, rfl, N, hrun, hrep⟩ := hh
      obtain ⟨N', hrun', hag'⟩ := (Stmt.run_confined _ rest).agree hag hrun
      refine ⟨as, rfl, N', hrun', ?_⟩
      exact represents_of_agree hag' (fun b hb => List.mem_cons_of_mem a hb) hrep
    | push a =>
      obtain ⟨N, hrun, hrep⟩ := hh
      obtain ⟨N', hrun', hag'⟩ := (Stmt.run_confined _ rest).agree hag hrun
      refine ⟨N', hrun', represents_of_agree hag' (fun b hb => ?_) hrep⟩
      rcases List.mem_append.mp hb with hb | hb
      · exact List.mem_cons_of_mem a hb
      · exact List.mem_singleton.mp hb ▸ List.mem_cons_self

/-- A queue is empty when its head leads nowhere. -/
theorem Represents.first_eq (hrep : Represents L h qs) : (L.head h).first = qs.head? := by
  cases qs with
  | nil =>
    have hlast : LinkSlot.first h = L.lastOf h := hrep.seg
    have hnull := hrep.null
    rw [← hlast] at hnull
    exact Option.some.inj hnull
  | cons a as => exact Option.some.inj hrep.seg.1

theorem covers_foot (h : H) (zs : List A) : (foot h zs).Covers h zs :=
  ⟨decide_eq_true rfl, fun _ ha => decide_eq_true ha⟩

/-- The work on a first element begins. -/
theorem holds_remove {a : A} {as : List A} (hrep : Represents L h (a :: as)) :
    Holds L h (a :: as) (some (tailqRemove h a, .pop a)) := by
  have hrep' : Represents L h ([] ++ a :: as) := hrep
  obtain ⟨M, hrun, hM⟩ := run_remove (F := foot h (a :: as)) hrep' (covers_foot _ _)
  exact ⟨as, rfl, M, hrun, hM⟩

/-- The work on a new element begins. -/
theorem holds_insertTail {a : A} (hrep : Represents L h qs) (ha : a ∉ qs)
    (halloc : (L.entry a).isSome = true) :
    Holds L h qs (some (tailqInsertTail h a, .push a)) :=
  run_insertTail hrep ha halloc (covers_foot _ _)

/-- A statement is done. -/
theorem Holds.exec {st : Stmt H A} {rest : List (Stmt H A)} {w : QueueWork A}
    (hh : Holds L h qs (some (st :: rest, w))) :
    ∃ M, st.exec .all L = some ((), M) ∧ Holds M h qs (some (rest, w)) ∧
      Outside (foot h (touched qs (some (rest, w)))) L M := by
  cases w with
  | pop a =>
    obtain ⟨as, rfl, N, hrun, hrep⟩ := hh
    obtain ⟨_, M, hst, hrest⟩ := LinkM.bind_eq_some.mp hrun
    exact ⟨M, Stmt.exec_all hst, ⟨as, rfl, N, hrest, hrep⟩, (st.confined _).outside hst⟩
  | push a =>
    obtain ⟨N, hrun, hrep⟩ := hh
    obtain ⟨_, M, hst, hrest⟩ := LinkM.bind_eq_some.mp hrun
    exact ⟨M, Stmt.exec_all hst, ⟨N, hrest, hrep⟩, (st.confined _).outside hst⟩

end Holds

/-! ### The simulation -/

section Simulation

variable {s : SpinState T H A} {x : AtomicState T H A} {t : T} {h k : H} {a : A}

theorem SpinPc.stage_eq_some {p : SpinPc H A} {rest : List (Stmt H A)} {w : QueueWork A}
    (hst : p.stage = some (rest, w)) : ∃ h, p = .links h rest w := by
  cases p <;> cases hst
  exact ⟨_, rfl⟩

theorem mem_touched {qs : List A} {st : Stage H A} (ha : a ∈ touched qs st) :
    a ∈ qs ∨ ∃ rest, st = some (rest, .push a) := by
  unfold touched at ha
  split at ha
  · next rest b =>
    rcases List.mem_cons.mp ha with rfl | ha
    · exact Or.inr ⟨rest, rfl⟩
    · exact Or.inl ha
  · exact Or.inl ha

namespace Related

/-- The work under a lock is the one of its holder. -/
theorem stage_cases (hR : Related s x) {rest : List (Stmt H A)} {w : QueueWork A}
    (hst : s.stage h = some (rest, w)) :
    ∃ t, s.lock h = some t ∧ s.pc t = .links h rest w := by
  obtain ⟨t, ht, hst⟩ := Option.bind_eq_some_iff.mp hst
  obtain ⟨k, hk⟩ := SpinPc.stage_eq_some hst
  have hin := (hR.lock t h).mp ht
  rw [hk] at hin
  cases hin
  exact ⟨t, ht, hk⟩

theorem stage_of_links (hR : Related s x) {rest : List (Stmt H A)} {w : QueueWork A}
    (hpc : s.pc t = .links h rest w) : s.stage h = some (rest, w) := by
  rw [SpinState.stage, (hR.lock t h).mpr (by rw [hpc]; rfl), Option.bind_some, hpc]
  rfl

theorem stage_of_first (hR : Related s x) (hpc : s.pc t = .first h) : s.stage h = none := by
  rw [SpinState.stage, (hR.lock t h).mpr (by rw [hpc]; rfl), Option.bind_some, hpc]
  rfl

theorem stage_of_unlock (hR : Related s x) {r : Option A} (hpc : s.pc t = .unlock h r) :
    s.stage h = none := by
  rw [SpinState.stage, (hR.lock t h).mpr (by rw [hpc]; rfl), Option.bind_some, hpc]
  rfl

theorem stage_of_free (hlock : s.lock h = none) : s.stage h = none := by
  rw [SpinState.stage, hlock]
  rfl

/-- A touched element is in the queue, or owned by the thread that pushes it there. -/
theorem touched_cases (hR : Related s x) (ha : a ∈ touched (x.queue h) (s.stage h)) :
    a ∈ x.queue h ∨ ∃ t, s.lock h = some t ∧ x.owner a = some t := by
  rcases mem_touched ha with ha | ⟨rest, hst⟩
  · exact Or.inl ha
  · obtain ⟨t, ht, hpc⟩ := hR.stage_cases hst
    exact Or.inr ⟨t, ht, hR.pushed t a (by rw [hpc]; rfl)⟩

/-- **Two queues touch different elements.** -/
theorem touched_unique (hR : Related s x) (hh : a ∈ touched (x.queue h) (s.stage h))
    (hk : a ∈ touched (x.queue k) (s.stage k)) : h = k := by
  rcases hR.touched_cases hh with hh | ⟨t, ht, hown⟩
  · rcases hR.touched_cases hk with hk | ⟨t', -, hown'⟩
    · exact hR.unique a h k hh hk
    · rw [(hR.queued a h hh).1] at hown'
      cases hown'
  · rcases hR.touched_cases hk with hk | ⟨t', ht', hown'⟩
    · rw [(hR.queued a k hk).1] at hown
      cases hown
    · rw [hown] at hown'
      cases hown'
      exact Option.some.inj (((hR.lock t h).mp ht).symm.trans ((hR.lock t k).mp ht'))

/-- **What is done on one queue** leaves the work on the others. -/
theorem holds_of_outside (hR : Related s x) {L : Links H A}
    (hout : Outside (foot h (touched (x.queue h) (s.stage h))) s.links L) (hne : k ≠ h) :
    Holds L k (x.queue k) (s.stage k) := by
  refine (hR.holds k).agree ⟨fun j hj => ?_, fun a ha => ?_⟩
  · obtain rfl : j = k := of_decide_eq_true hj
    exact (hout.head j (decide_eq_false hne)).symm
  · refine (hout.entry a (decide_eq_false fun hah => hne ?_)).symm
    exact hR.touched_unique (of_decide_eq_true ha) hah

/-- A thread moves without a lock taken or released, and without work on the links. -/
theorem move (hR : Related s x) {p : SpinPc H A} {q : AtomicPc H A}
    (hin : p.inside = (s.pc t).inside) (hstage : p.stage = (s.pc t).stage) (hpc : PcRel p q)
    (hpush : ∀ a, p.pushing = some a → x.owner a = some t) :
    Related (s.go t p) (x.go t q) := by
  have hpcs : ∀ t', ((s.go t p).pc t').inside = (s.pc t').inside ∧
      ((s.go t p).pc t').stage = (s.pc t').stage := by
    intro t'
    by_cases ht : t' = t
    · subst ht
      simp [SpinState.go, hin, hstage]
    · simp [SpinState.go, ht]
  refine ⟨hR.owner, hR.live, hR.size, fun t' => ?_, fun t' k => ?_, fun k => ?_, hR.nodup,
    hR.queued, hR.unique, hR.owned, fun t' a ha => ?_⟩
  · by_cases ht : t' = t
    · subst ht
      simpa [SpinState.go, AtomicState.go] using hpc
    · simpa [SpinState.go, AtomicState.go, ht] using hR.pc t'
  · rw [(hpcs t').1]
    exact hR.lock t' k
  · have hst : (s.go t p).stage k = s.stage k :=
      congrArg (Option.bind (s.lock k)) (funext fun t' => (hpcs t').2)
    rw [hst]
    exact hR.holds k
  · by_cases ht : t' = t
    · subst ht
      simp only [SpinState.go, Function.update_self] at ha
      exact hpush a ha
    · simp only [SpinState.go, Function.update_of_ne ht] at ha
      exact hR.pushed t' a ha

/-- A thread takes or releases the lock of a queue, or works under it. -/
theorem inSection (hR : Related s x) {l : Option T} {p : SpinPc H A} {L : Links H A}
    (hbefore : s.lock h = none ∧ (s.pc t).inside = none ∨ (s.pc t).inside = some h)
    (hafter : l = some t ∧ p.inside = some h ∨ l = none ∧ p.inside = none)
    (hpc : PcRel p (x.pc t)) (hpush : ∀ a, p.pushing = some a → x.owner a = some t)
    (hout : Outside (foot h (touched (x.queue h) (s.stage h))) s.links L)
    (hholds : Holds L h (x.queue h) (l.bind fun _ => p.stage)) :
    Related { s.go t p with lock := Function.update s.lock h l, links := L } x := by
  -- nobody else is inside the section
  have halone : ∀ t', t' ≠ t → (s.pc t').inside ≠ some h := by
    intro t' ht hin
    have hlock := (hR.lock t' h).mpr hin
    rcases hbefore with ⟨hnone, -⟩ | hin'
    · rw [hnone] at hlock
      cases hlock
    · rw [(hR.lock t h).mpr hin'] at hlock
      exact ht (Option.some.inj hlock).symm
  have helse : ∀ k, k ≠ h → (s.pc t).inside ≠ some k ∧ p.inside ≠ some k := by
    intro k hk
    constructor
    · rcases hbefore with ⟨-, hin⟩ | hin <;> rw [hin]
      · exact (Option.some_ne_none k).symm
      · exact fun heq => hk (Option.some.inj heq).symm
    · rcases hafter with ⟨-, hin⟩ | ⟨-, hin⟩ <;> rw [hin]
      · exact fun heq => hk (Option.some.inj heq).symm
      · exact (Option.some_ne_none k).symm
  refine ⟨hR.owner, fun a => (hout.isSome a).trans (hR.live a), hR.size, fun t' => ?_,
    fun t' k => ?_, fun k => ?_, hR.nodup, hR.queued, hR.unique, hR.owned, fun t' a ha => ?_⟩
  · by_cases ht : t' = t
    · subst ht
      simpa [SpinState.go] using hpc
    · simpa [SpinState.go, ht] using hR.pc t'
  · dsimp only [SpinState.go]
    by_cases hk : k = h
    · subst hk
      rw [Function.update_self]
      by_cases ht : t' = t
      · subst ht
        rw [Function.update_self]
        rcases hafter with ⟨hl, hin⟩ | ⟨hl, hin⟩ <;> simp [hl, hin]
      · rw [Function.update_of_ne ht]
        refine iff_of_false (fun hl => ?_) (halone t' ht)
        rcases hafter with ⟨hl', -⟩ | ⟨hl', -⟩ <;> rw [hl'] at hl
        · exact ht (Option.some.inj hl).symm
        · cases hl
    · rw [Function.update_of_ne hk]
      by_cases ht : t' = t
      · subst ht
        rw [Function.update_self]
        exact iff_of_false (fun hl => (helse k hk).1 ((hR.lock t' k).mp hl)) (helse k hk).2
      · rw [Function.update_of_ne ht]
        exact hR.lock t' k
  · by_cases hk : k = h
    · subst hk
      have hst :
          SpinState.stage { s.go t p with lock := Function.update s.lock k l, links := L } k =
            l.bind fun _ => p.stage := by
        rcases hafter with ⟨rfl, -⟩ | ⟨rfl, -⟩ <;> simp [SpinState.stage, SpinState.go]
      rw [hst]
      exact hholds
    · have hst :
          SpinState.stage { s.go t p with lock := Function.update s.lock h l, links := L } k =
            s.stage k := by
        simp only [SpinState.stage, Function.update_of_ne hk]
        cases hlock : s.lock k with
        | none => rfl
        | some t' =>
          have ht : t' ≠ t := by
            rintro rfl
            exact (helse k hk).1 ((hR.lock t' k).mp hlock)
          simp [SpinState.go, ht]
      rw [hst]
      exact hR.holds_of_outside hout hk
  · by_cases ht : t' = t
    · subst ht
      simp only [SpinState.go, Function.update_self] at ha
      exact hpush a ha
    · simp only [SpinState.go, Function.update_of_ne ht] at ha
      exact hR.pushed t' a ha

/-- A call takes effect. -/
theorem effect (hR : Related s x) {qs : List A} {o : Option T} {n : ℤ} {r : Option A}
    {w : QueueWork A} (hpc : s.pc t = .links h [] w) (hrep : Represents s.links h qs)
    (hn : n = qs.length) (hlive : x.live a = true) (hfrom : a ∈ x.queue h ∨ x.owner a = some t)
    (hqs : ∀ b, b ∈ qs → b ≠ a ∧ b ∈ x.queue h ∨ b = a ∧ o = none) :
    Related { s.go t (.unlock h r) with
        size := Function.update s.size h n, owner := Function.update s.owner a o }
      { x.go t (.back r) with
        queue := Function.update x.queue h qs, owner := Function.update x.owner a o } := by
  have hin : (s.pc t).inside = some h := by rw [hpc]; rfl
  have hold : ∀ k b, b ∈ Function.update x.queue h qs k → b ≠ a → b ∈ x.queue k := by
    intro k b hb hne
    by_cases hk : k = h
    · subst hk
      rw [Function.update_self] at hb
      rcases hqs b hb with ⟨-, hb⟩ | ⟨rfl, -⟩
      · exact hb
      · exact absurd rfl hne
    · rwa [Function.update_of_ne hk] at hb
  -- the element is in no other queue
  have hnew : ∀ k, a ∈ Function.update x.queue h qs k → k = h ∧ o = none := by
    intro k ha
    by_cases hk : k = h
    · subst hk
      rw [Function.update_self] at ha
      rcases hqs a ha with ⟨hne, -⟩ | ⟨-, ho⟩
      · exact absurd rfl hne
      · exact ⟨rfl, ho⟩
    · rw [Function.update_of_ne hk] at ha
      rcases hfrom with hfrom | hfrom
      · exact absurd (hR.unique a k h ha hfrom) hk
      · rw [(hR.queued a k ha).1] at hfrom
        cases hfrom
  refine ⟨?_, hR.live, fun k => ?_, fun t' => ?_, fun t' k => ?_, fun k => ?_, fun k => ?_,
    fun b k hb => ?_, fun b j k hj hk => ?_, fun b t' hb => ?_, fun t' b hb => ?_⟩
  · exact congrArg (fun f => Function.update f a o) hR.owner
  · dsimp only [SpinState.go, AtomicState.go]
    by_cases hk : k = h
    · subst hk
      rw [Function.update_self, Function.update_self, hn]
    · rw [Function.update_of_ne hk, Function.update_of_ne hk, hR.size k]
  · by_cases ht : t' = t
    · subst ht
      simpa [SpinState.go, AtomicState.go] using PcRel.unlock
    · simpa [SpinState.go, AtomicState.go, ht] using hR.pc t'
  · by_cases ht : t' = t
    · subst ht
      have hiff := hR.lock t' k
      rw [hin] at hiff
      simpa [SpinState.go, SpinPc.inside] using hiff
    · simpa [SpinState.go, ht] using hR.lock t' k
  · by_cases hk : k = h
    · subst hk
      have hst : SpinState.stage { s.go t (.unlock k r) with
          size := Function.update s.size k n, owner := Function.update s.owner a o } k = none := by
        simp [SpinState.stage, SpinState.go, (hR.lock t k).mpr hin, SpinPc.stage]
      rw [hst]
      dsimp only
      rw [Function.update_self]
      exact hrep
    · have hst : SpinState.stage { s.go t (.unlock h r) with
          size := Function.update s.size h n, owner := Function.update s.owner a o } k =
          s.stage k := by
        simp only [SpinState.stage, SpinState.go]
        cases hlock : s.lock k with
        | none => rfl
        | some t' =>
          have ht : t' ≠ t := by
            rintro rfl
            have hin' := (hR.lock t' k).mp hlock
            rw [hin] at hin'
            exact hk (Option.some.inj hin').symm
          simp [ht]
      rw [hst]
      dsimp only
      rw [Function.update_of_ne hk]
      exact hR.holds k
  · dsimp only
    by_cases hk : k = h
    · subst hk
      rw [Function.update_self]
      exact hrep.nodup
    · rw [Function.update_of_ne hk]
      exact hR.nodup k
  · by_cases hne : b = a
    · subst hne
      exact ⟨by simp [(hnew k hb).2], hlive⟩
    · obtain ⟨hnone, hl⟩ := hR.queued b k (hold k b hb hne)
      exact ⟨by simpa [AtomicState.go, hne] using hnone, hl⟩
  · by_cases hne : b = a
    · subst hne
      rw [(hnew j hj).1, (hnew k hk).1]
    · exact hR.unique b j k (hold j b hj hne) (hold k b hk hne)
  · by_cases hne : b = a
    · rw [hne]
      exact hlive
    · dsimp only [AtomicState.go] at hb
      rw [Function.update_of_ne hne] at hb
      exact hR.owned b t' hb
  · dsimp only [SpinState.go, AtomicState.go] at hb ⊢
    by_cases ht : t' = t
    · subst ht
      rw [Function.update_self] at hb
      cases hb
    · rw [Function.update_of_ne ht] at hb
      have hown := hR.pushed t' b hb
      by_cases hne : b = a
      · subst hne
        rcases hfrom with hfrom | hfrom
        · rw [(hR.queued b h hfrom).1] at hown
          cases hown
        · rw [hfrom] at hown
          exact absurd (Option.some.inj hown).symm ht
      · rwa [Function.update_of_ne hne]

end Related

/-- **A step of a thread that has the lock, or can have it**, is one step less to make. -/
theorem SpinState.advance_left {s s' : SpinState T H A} {t : T} (hs : s.advance t = some s')
    (hfree : ∀ c, s.pc t = .lock c → s.lock c.head = none) :
    (s'.pc t).left < (s.pc t).left ∧ s'.pc t ≠ .idle ∧ (∀ c, s'.pc t ≠ .lock c) ∧
      ∀ u, u ≠ t → s'.pc u = s.pc u := by
  have hgo : ∀ {p : SpinPc H A} {u : T}, u ≠ t → (s.go t p).pc u = s.pc u :=
    fun hu => Function.update_of_ne hu _ _
  unfold SpinState.advance at hs
  split at hs
  · next c hpc =>
    rw [hfree c hpc] at hs
    cases hs
    refine ⟨?_, ?_, ?_, fun u hu => hgo hu⟩ <;> cases c <;>
      simp [SpinState.go, QueueCall.entered, SpinPc.left, hpc, tailqInsertTail]
  · next h hpc =>
    cases hs
    refine ⟨?_, ?_, ?_, fun u hu => hgo hu⟩ <;> cases (s.links.head h).first <;>
      simp [SpinState.go, SpinPc.left, hpc, tailqRemove]
  · next h st rest w hpc =>
    obtain ⟨r, -, rfl⟩ := Option.map_eq_some_iff.mp hs
    refine ⟨?_, ?_, ?_, fun u hu => hgo hu⟩ <;> simp [SpinState.go, SpinPc.left, hpc]
  · next h a hpc =>
    cases hs
    refine ⟨?_, ?_, ?_, fun u hu => hgo hu⟩ <;> simp [SpinState.go, SpinPc.left, hpc]
  · next h a hpc =>
    cases hs
    refine ⟨?_, ?_, ?_, fun u hu => hgo hu⟩ <;> simp [SpinState.go, SpinPc.left, hpc]
  · next h r hpc =>
    cases hs
    refine ⟨?_, ?_, ?_, fun u hu => hgo hu⟩ <;> simp [SpinState.go, SpinPc.left, hpc]
  · cases hs
  · cases hs

/-- A thread has at most as many steps to make as at the lock. -/
theorem SpinState.left_step {s s' : SpinState T H A} {act : SpinAct T H A}
    (hleft : ∀ u, (s.pc u).left ≤ 7) (hs : s.step act = some s') (u : T) :
    (s'.pc u).left ≤ 7 := by
  have hgo : ∀ {t : T} {p : SpinPc H A}, p.left ≤ 7 → ((s.go t p).pc u).left ≤ 7 := by
    intro t p hp
    show (Function.update s.pc t p u).left ≤ 7
    by_cases hu : u = t
    · rw [hu, Function.update_self]
      exact hp
    · rw [Function.update_of_ne hu]
      exact hleft u
  -- a call begins with the lock, which is as far from the end as a thread can be
  cases act with
  | call t c =>
    simp only [SpinState.step] at hs
    split at hs
    · split at hs
      · cases hs
        exact hgo (p := .lock c) le_rfl
      · cases hs
    · cases hs
  | ret t r =>
    simp only [SpinState.step] at hs
    split at hs
    · split at hs
      · cases hs
        exact hgo (p := .idle) (Nat.zero_le _)
      · cases hs
    · cases hs
  | size t h n =>
    simp only [SpinState.step] at hs
    split at hs
    · split at hs
      · cases hs
        exact hleft u
      · cases hs
    · cases hs
  | alloc t a e =>
    simp only [SpinState.step] at hs
    split at hs
    · cases hs
      exact hleft u
    · cases hs
  | free t a =>
    simp only [SpinState.step] at hs
    split at hs
    · split at hs
      · cases hs
        exact hleft u
      · cases hs
    · cases hs
  | step t =>
    by_cases hspin : ∃ c v, s.pc t = .lock c ∧ s.lock c.head = some v
    · obtain ⟨c, v, hpc, hlock⟩ := hspin
      simp only [SpinState.step, SpinState.advance, hpc, hlock] at hs
      cases hs
      exact hleft u
    · obtain ⟨hlt, -, -, hpc⟩ := SpinState.advance_left hs fun c hpc =>
        Option.eq_none_iff_forall_ne_some.mpr fun v hv => hspin ⟨c, v, hpc, hv⟩
      by_cases hu : u = t
      · rw [hu]
        exact hlt.le.trans (hleft t)
      · rw [hpc u hu]
        exact hleft u

/-- What the lists do at a step of a thread. -/
def Answers (s' : SpinState T H A) (x : AtomicState T H A) (l : Option (QueueLabel T H A)) : Prop :=
  ∃ bs x', (atomicQueues T H A).exec x bs = some x' ∧
    bs.filterMap AtomicAct.label = l.toList ∧ Related s' x'

theorem Answers.none (hR : Related s x) : Answers s x none := ⟨[], x, rfl, rfl, hR⟩

theorem Answers.one {s' : SpinState T H A} {y : AtomicState T H A} {b : AtomicAct T H A}
    (hy : x.step b = some y) (hR : Related s' y) : Answers s' x b.label := by
  refine ⟨[b], y, ?_, ?_, hR⟩
  · rw [System.exec_cons, show (atomicQueues T H A).step x b = some y from hy]
    rfl
  · rw [List.filterMap_cons]
    cases b.label <;> rfl

namespace Related

variable {s' : SpinState T H A}

theorem call (hR : Related s x) {c : QueueCall H A} (hs : s.step (.call t c) = some s') :
    Answers s' x (some (.call t c)) := by
  unfold SpinState.step at hs
  dsimp only at hs
  split at hs
  · next hidle =>
    split at hs
    · next hown =>
      cases hs
      have hx : x.pc t = .idle := (hidle ▸ hR.pc t).eq_idle
      have hown' : x.Owns t c := by
        cases c with
        | pop h => trivial
        | push h a => exact (congrFun hR.owner a).symm.trans hown
      refine Answers.one (b := .call t c) (y := x.go t (.called c)) ?_ (hR.move ?_ ?_ .lock ?_)
      · simp only [AtomicState.step, hx, if_pos hown']
      · rw [hidle]
        rfl
      · rw [hidle]
        rfl
      · intro a ha
        cases c with
        | pop h => cases ha
        | push h b =>
          cases ha
          exact hown'
    · cases hs
  · cases hs

theorem ret (hR : Related s x) {r : Option A} (hs : s.step (.ret t r) = some s') :
    Answers s' x (some (.ret t r)) := by
  unfold SpinState.step at hs
  dsimp only at hs
  split at hs
  · next r' hback =>
    split at hs
    · next hr =>
      cases hs
      have hx : x.pc t = .back r' := (hback ▸ hR.pc t).eq_back
      refine Answers.one (b := .ret t r) (y := x.go t .idle) ?_ (hR.move ?_ ?_ .idle ?_)
      · simp only [AtomicState.step, hx, if_pos hr]
      · rw [hback]
        rfl
      · rw [hback]
        rfl
      · exact fun a ha => by cases ha
    · cases hs
  · cases hs

theorem readSize (hR : Related s x) {n : ℤ} (hs : s.step (.size t h n) = some s') :
    Answers s' x (some (.size t h n)) := by
  unfold SpinState.step at hs
  dsimp only at hs
  split at hs
  · next hidle =>
    split at hs
    · next hn =>
      cases hs
      have hx : x.pc t = .idle := (hidle ▸ hR.pc t).eq_idle
      refine Answers.one (b := .size t h n) (y := x) ?_ hR
      simp only [AtomicState.step, hx, if_pos ((hR.size h).symm.trans hn)]
    · cases hs
  · cases hs

/-- An element that is touched is allocated. -/
theorem live_of_touched (hR : Related s x) (ha : a ∈ touched (x.queue h) (s.stage h)) :
    x.live a = true := by
  rcases hR.touched_cases ha with ha | ⟨t, -, hown⟩
  · exact (hR.queued a h ha).2
  · exact hR.owned a t hown

/-- An element that no queue is at changes. -/
theorem reallocate (hR : Related s x) {o : Option T} {e : Option (TailqEntry H A)}
    (hfree : ∀ h, a ∉ touched (x.queue h) (s.stage h)) (hqueue : ∀ h, a ∉ x.queue h)
    (hpush : ∀ t, (s.pc t).pushing ≠ some a) (ho : o.isSome = true → e.isSome = true) :
    Related { s with
        links := { s.links with entry := Function.update s.links.entry a e }
        owner := Function.update s.owner a o }
      { x with
        owner := Function.update x.owner a o
        live := Function.update x.live a e.isSome } := by
  -- no list and no call has the element, so that only what is said of it changes
  refine ⟨congrArg (fun f => Function.update f a o) hR.owner, fun b => ?_, hR.size, hR.pc, hR.lock,
    fun h => ?_, hR.nodup, fun b h hb => ?_, hR.unique, fun b t hb => ?_, fun t b hb => ?_⟩
  · dsimp only
    by_cases hb : b = a
    · subst hb
      rw [Function.update_self, Function.update_self]
    · rw [Function.update_of_ne hb, Function.update_of_ne hb]
      exact hR.live b
  · refine (hR.holds h).agree ⟨fun _ _ => rfl, fun b hb => ?_⟩
    refine (Function.update_of_ne ?_ _ _).symm
    rintro rfl
    exact hfree h (of_decide_eq_true hb)
  · have hne : b ≠ a := by
      rintro rfl
      exact hqueue h hb
    simpa [hne] using hR.queued b h hb
  · dsimp only at hb ⊢
    by_cases hne : b = a
    · subst hne
      rw [Function.update_self] at hb ⊢
      exact ho (by rw [hb]; rfl)
    · rw [Function.update_of_ne hne] at hb ⊢
      exact hR.owned b t hb
  · have hne : b ≠ a := by
      rintro rfl
      exact hpush t hb
    simpa [hne] using hR.pushed t b hb

theorem alloc (hR : Related s x) {e : TailqEntry H A} (hs : s.step (.alloc t a e) = some s') :
    Answers s' x (some (.alloc t a)) := by
  unfold SpinState.step at hs
  dsimp only at hs
  split at hs
  · next hidle hnone =>
    cases hs
    have hx : x.pc t = .idle := (hidle ▸ hR.pc t).eq_idle
    have hlive : x.live a = false := by rw [← hR.live a, hnone]; rfl
    refine Answers.one (b := .alloc t a) ?_ (hR.reallocate (o := some t) (e := some e) ?_ ?_ ?_ ?_)
    · simp only [AtomicState.step, hx, hlive]
      rfl
    · intro h ha
      rw [hR.live_of_touched ha] at hlive
      cases hlive
    · intro h ha
      rw [(hR.queued a h ha).2] at hlive
      cases hlive
    · intro t' ha
      rw [hR.owned a t' (hR.pushed t' a ha)] at hlive
      cases hlive
    · exact fun _ => rfl
  · cases hs

theorem free (hR : Related s x) (hs : s.step (.free t a) = some s') :
    Answers s' x (some (.free t a)) := by
  unfold SpinState.step at hs
  dsimp only at hs
  split at hs
  · next hidle =>
    split at hs
    · next hown =>
      cases hs
      have hx : x.pc t = .idle := (hidle ▸ hR.pc t).eq_idle
      have hown' : x.owner a = some t := (congrFun hR.owner a).symm.trans hown
      -- the owner is outside, so nobody pushes the element
      have hpush : ∀ t', (s.pc t').pushing ≠ some a := by
        intro t' ha
        have hown'' := hR.pushed t' a ha
        rw [hown'] at hown''
        cases hown''
        rw [hidle] at ha
        cases ha
      refine Answers.one (b := .free t a) ?_ (hR.reallocate (o := none) (e := none) ?_ ?_ hpush ?_)
      · simp only [AtomicState.step, hx, if_pos hown']
        rfl
      · intro h ha
        rcases mem_touched ha with ha | ⟨rest, hst⟩
        · rw [(hR.queued a h ha).1] at hown'
          cases hown'
        · obtain ⟨t', -, hpc⟩ := hR.stage_cases hst
          exact hpush t' (by rw [hpc]; rfl)
      · intro h ha
        rw [(hR.queued a h ha).1] at hown'
        cases hown'
      · exact fun h => by cases h
    · cases hs
  · cases hs

/-! ### The statements of a call -/

/-- The lock is taken. -/
theorem acquire (hR : Related s x) {c : QueueCall H A} (hpc : s.pc t = .lock c)
    (hfree : s.lock c.head = none) :
    Related { s.go t c.entered with lock := Function.update s.lock c.head (some t) } x := by
  have hx : x.pc t = .called c := (hpc ▸ hR.pc t).eq_lock
  have hrep : Represents s.links c.head (x.queue c.head) := by
    have := hR.holds c.head
    rwa [stage_of_free hfree] at this
  have hbefore : s.lock c.head = none ∧ (s.pc t).inside = none ∨
      (s.pc t).inside = some c.head := Or.inl ⟨hfree, by rw [hpc]; rfl⟩
  cases c with
  | pop h =>
    exact hR.inSection hbefore (Or.inl ⟨rfl, rfl⟩) (hx ▸ .first) (fun a ha => by cases ha)
      (.refl _ _) hrep
  | push h a =>
    have hown : x.owner a = some t := hR.pushed t a (by rw [hpc]; rfl)
    refine hR.inSection hbefore (Or.inl ⟨rfl, rfl⟩) (hx ▸ .push) (fun b hb => ?_) (.refl _ _) ?_
    · cases hb
      exact hown
    · refine holds_insertTail hrep (fun ha => ?_) ?_
      · rw [(hR.queued a h ha).1] at hown
        cases hown
      · exact (hR.live a).trans (hR.owned a t hown)

/-- The first element is taken. -/
theorem takeFirst (hR : Related s x) {as : List A} (hpc : s.pc t = .first h)
    (hq : x.queue h = a :: as) : Related (s.go t (.links h (tailqRemove h a) (.pop a))) x := by
  have hin : (s.pc t).inside = some h := by rw [hpc]; rfl
  have hrep : Represents s.links h (a :: as) := by
    have := hR.holds h
    rwa [hR.stage_of_first hpc, hq] at this
  have hR' := hR.inSection (l := some t) (p := .links h (tailqRemove h a) (.pop a)) (Or.inr hin)
    (Or.inl ⟨rfl, rfl⟩) ((hpc ▸ hR.pc t).eq_first ▸ .pop) (fun b hb => by cases hb)
    (.refl _ s.links) (hq ▸ holds_remove hrep)
  rwa [← (hR.lock t h).mpr hin, Function.update_eq_self] at hR'

/-- A statement of the macros is executed. -/
theorem statement (hR : Related s x) {st : Stmt H A} {rest : List (Stmt H A)} {w : QueueWork A}
    (hpc : s.pc t = .links h (st :: rest) w) :
    ∃ M, st.exec .all s.links = some ((), M) ∧
      Related { s.go t (.links h rest w) with links := M } x := by
  have hin : (s.pc t).inside = some h := by rw [hpc]; rfl
  have hstage := hR.stage_of_links hpc
  have hholds := hR.holds h
  rw [hstage] at hholds
  obtain ⟨M, hst, hM, hout⟩ := hholds.exec
  have hR' := hR.inSection (l := some t) (p := .links h rest w) (L := M) (Or.inr hin)
    (Or.inl ⟨rfl, rfl⟩) ?_ ?_ ?_ hM
  · rw [← (hR.lock t h).mpr hin, Function.update_eq_self] at hR'
    exact ⟨M, hst, hR'⟩
  · cases w with
    | pop a => exact (hpc ▸ hR.pc t).eq_pop ▸ .pop
    | push a => exact (hpc ▸ hR.pc t).eq_push ▸ .push
  · intro b hb
    refine hR.pushed t b ?_
    rw [hpc]
    cases w <;> exact hb
  · rw [hstage]
    cases w <;> exact hout

/-- The lock is released. -/
theorem release (hR : Related s x) {r : Option A} (hpc : s.pc t = .unlock h r) :
    Related { s.go t (.back r) with lock := Function.update s.lock h none } x := by
  have hin : (s.pc t).inside = some h := by rw [hpc]; rfl
  have hrep := hR.holds h
  rw [hR.stage_of_unlock hpc] at hrep
  exact hR.inSection (Or.inr hin) (Or.inr ⟨rfl, rfl⟩) ((hpc ▸ hR.pc t).eq_unlock ▸ .back)
    (fun b hb => by cases hb) (.refl _ _) hrep

/-- The queue is found empty. -/
theorem popNone (hR : Related s x) (hpc : s.pc t = .first h) (hq : x.queue h = []) :
    Answers (s.go t (.unlock h none)) x none := by
  have hx : x.pc t = .called (.pop h) := (hpc ▸ hR.pc t).eq_first
  refine Answers.one (b := .perform t) (y := x.go t (.back none)) ?_ (hR.move ?_ ?_ .unlock ?_)
  · simp only [AtomicState.step, AtomicState.perform, hx, hq]
  · rw [hpc]
    rfl
  · rw [hpc]
    rfl
  · exact fun b hb => by cases hb

/-- The element is out of the links, and the size is written. -/
theorem popDone (hR : Related s x) (hpc : s.pc t = .links h [] (.pop a)) :
    Answers { s.go t (.unlock h (some a)) with
      size := Function.update s.size h (s.size h - 1)
      owner := Function.update s.owner a (some t) } x none := by
  have hx : x.pc t = .called (.pop h) := (hpc ▸ hR.pc t).eq_pop
  have hholds := hR.holds h
  rw [hR.stage_of_links hpc] at hholds
  obtain ⟨as, hq, M, hrun, hrep⟩ := hholds
  cases hrun
  have ha : a ∈ x.queue h := hq ▸ List.mem_cons_self
  refine Answers.one (b := .perform t) ?_
    (hR.effect hpc hrep ?_ (hR.queued a h ha).2 (Or.inl ha) fun b hb => ?_)
  · simp only [AtomicState.step, AtomicState.perform, hx, hq]
  · rw [hR.size h, hq, List.length_cons]
    omega
  · refine Or.inl ⟨?_, hq ▸ List.mem_cons_of_mem a hb⟩
    rintro rfl
    have hnodup : (b :: as).Nodup := hq ▸ hR.nodup h
    exact (List.nodup_cons.mp hnodup).1 hb

/-- The element is in the links, and the size is written. -/
theorem pushDone (hR : Related s x) (hpc : s.pc t = .links h [] (.push a)) :
    Answers { s.go t (.unlock h none) with
      size := Function.update s.size h (s.size h + 1)
      owner := Function.update s.owner a none } x none := by
  have hx : x.pc t = .called (.push h a) := (hpc ▸ hR.pc t).eq_push
  have hown : x.owner a = some t := hR.pushed t a (by rw [hpc]; rfl)
  have hholds := hR.holds h
  rw [hR.stage_of_links hpc] at hholds
  obtain ⟨M, hrun, hrep⟩ := hholds
  cases hrun
  refine Answers.one (b := .perform t) ?_
    (hR.effect hpc hrep ?_ (hR.owned a t hown) (Or.inr hown) fun b hb => ?_)
  · simp only [AtomicState.step, AtomicState.perform, hx]
  · rw [hR.size h, List.length_append, List.length_singleton]
    omega
  · rcases List.mem_append.mp hb with hb' | hb'
    · refine Or.inl ⟨?_, hb'⟩
      rintro rfl
      rw [(hR.queued b h hb').1] at hown
      cases hown
    · exact Or.inr ⟨List.mem_singleton.mp hb', rfl⟩

/-- A thread goes on. -/
theorem advance (hR : Related s x) (hs : s.advance t = some s') : Answers s' x none := by
  unfold SpinState.advance at hs
  -- the lists take their step where a pop finds nothing, or with the last statement of a call
  split at hs
  · next c hpc =>
    split at hs
    · cases hs
      exact .none hR
    · next hfree =>
      cases hs
      exact .none (hR.acquire hpc hfree)
  · next h hpc =>
    cases hs
    have hrep : Represents s.links h (x.queue h) := by
      have := hR.holds h
      rwa [hR.stage_of_first hpc] at this
    rw [hrep.first_eq]
    cases hq : x.queue h with
    | nil => exact hR.popNone hpc hq
    | cons a as => exact .none (hR.takeFirst hpc hq)
  · next h st rest w hpc =>
    obtain ⟨M, hst, hR'⟩ := hR.statement hpc
    rw [hst] at hs
    cases hs
    exact .none hR'
  · next h a hpc =>
    cases hs
    exact hR.popDone hpc
  · next h a hpc =>
    cases hs
    exact hR.pushDone hpc
  · next h r hpc =>
    cases hs
    exact .none (hR.release hpc)
  · cases hs
  · cases hs

/-- **No statement goes wrong**: a thread in a call goes on. -/
theorem goesOn (hR : Related s x) (hidle : s.pc t ≠ .idle) (hback : ∀ r, s.pc t ≠ .back r) :
    ∃ s', s.step (.step t) = some s' := by
  cases hpc : s.pc t with
  | idle => exact absurd hpc hidle
  | back r => exact absurd hpc (hback r)
  | lock c =>
    cases hlock : s.lock c.head with
    | none => simp [SpinState.step, SpinState.advance, hpc, hlock]
    | some t' => simp [SpinState.step, SpinState.advance, hpc, hlock]
  | first h => simp [SpinState.step, SpinState.advance, hpc]
  | links h rest w =>
    cases rest with
    | nil => cases w <;> simp [SpinState.step, SpinState.advance, hpc]
    | cons st rest =>
      obtain ⟨M, hst, -⟩ := hR.statement hpc
      simp [SpinState.step, SpinState.advance, hpc, hst]
  | unlock h r => simp [SpinState.step, SpinState.advance, hpc]

/-- **A thread that has the lock returns**, or can have it, after so many steps of its own. -/
theorem runs (hR : Related s x) (hidle : s.pc t ≠ .idle)
    (hfree : ∀ c, s.pc t = .lock c → s.lock c.head = none) :
    ∃ n s' x', n ≤ (s.pc t).left ∧
      (spinQueues T H A).exec s (List.replicate n (.step t)) = some s' ∧ Related s' x' ∧
      (∃ r, s'.pc t = .back r) ∧ ∀ u, u ≠ t → s'.pc u = s.pc u := by
  induction hn : (s.pc t).left using Nat.strong_induction_on generalizing s x with
  | _ n ih =>
  subst hn
  by_cases hback : ∃ r, s.pc t = .back r
  · exact ⟨0, s, x, Nat.zero_le _, rfl, hR, hback, fun _ _ => rfl⟩
  · obtain ⟨s₁, hs₁⟩ := hR.goesOn hidle fun r hr => hback ⟨r, hr⟩
    obtain ⟨_, x₁, -, -, hR₁⟩ := hR.advance hs₁
    obtain ⟨hlt, hidle₁, hlock₁, hpc₁⟩ := SpinState.advance_left hs₁ hfree
    obtain ⟨n, s', x', hle, hrun, hR', hback', hpc'⟩ :=
      ih _ hlt hR₁ hidle₁ (fun c hc => absurd hc (hlock₁ c)) rfl
    refine ⟨n + 1, s', x', by omega, ?_, hR', hback', fun u hu => (hpc' u hu).trans (hpc₁ u hu)⟩
    rw [List.replicate_succ, System.exec_cons,
      show (spinQueues T H A).step s (.step t) = some s₁ from hs₁]
    exact hrun

/-- **A lock is free again** when its holder has returned. -/
theorem lock_of_back {s' : SpinState T H A} {x' : AtomicState T H A} {h : H} {u : T} {r : Option A}
    (hR : Related s x) (hR' : Related s' x') (hlock : s.lock h = some u)
    (hback : s'.pc u = .back r) (hpc : ∀ v, v ≠ u → s'.pc v = s.pc v) : s'.lock h = none := by
  by_contra hne
  obtain ⟨v, hv⟩ := Option.ne_none_iff_exists'.mp hne
  have hin := (hR'.lock v h).mp hv
  by_cases hvu : v = u
  · rw [hvu, hback] at hin
    cases hin
  · rw [hpc v hvu, ← hR.lock v h, hlock] at hin
    exact hvu (Option.some.inj hin).symm

end Related

theorem related_init : Related
    (⟨⟨tailqInit, fun _ => none⟩, fun _ => 0, fun _ => none, fun _ => .idle, fun _ => none⟩ :
      SpinState T H A)
    ⟨fun _ => [], fun _ => .idle, fun _ => none, fun _ => false⟩ := by
  refine ⟨rfl, fun _ => rfl, fun _ => rfl, fun _ => .idle, fun t h => ?_, fun h => ?_,
    fun _ => List.nodup_nil, fun a h ha => ?_, fun a h k ha => ?_, fun a t ha => ?_,
    fun t a ha => ?_⟩
  · exact iff_of_false (fun ht => by cases ht) (fun ht => by cases ht)
  · exact represents_init _ rfl
  · cases ha
  · cases ha
  · cases ha
  · cases ha

/-- **The threads at the links are simulated by the lists.** -/
theorem spinQueues_simulated :
    (spinQueues T H A).Simulates (atomicQueues T H A) SpinAct.label AtomicAct.label Related where
  init := by
    rintro s rfl
    exact ⟨_, rfl, related_init⟩
  step := by
    intro s s' x act hR hs
    cases act with
    | call t c => exact hR.call hs
    | ret t r => exact hR.ret hs
    | size t h n => exact hR.readSize hs
    | alloc t a e => exact hR.alloc hs
    | free t a => exact hR.free hs
    | step t => exact hR.advance hs

/-- **Every trace of calls and returns is one of the lists.** -/
theorem spinQueues_linearizable {s s' : SpinState T H A} {acts : List (SpinAct T H A)}
    (hinit : (spinQueues T H A).init s) (hrun : (spinQueues T H A).exec s acts = some s') :
    ∃ x bs x', (atomicQueues T H A).init x ∧ (atomicQueues T H A).exec x bs = some x' ∧
      bs.filterMap AtomicAct.label = acts.filterMap SpinAct.label ∧ Related s' x' :=
  spinQueues_simulated.trace hinit hrun

/-- A thread pushes a new element while another one waits for the lock, to pop it. -/
def sampleHandover : List (SpinAct Bool Unit ℕ) :=
  [.alloc false 0 ⟨none, .next 0⟩, .call false (.push () 0), .step false,
    .call true (.pop ()), .step true] ++ List.replicate 6 (.step false) ++ [.ret false none] ++
    List.replicate 6 (.step true) ++ [.ret true (some 0), .free true 0]

/-- The theorem at an element that is handed over. -/
theorem spinQueues_linearizable_handover :
    ∃ bs, ((atomicQueues Bool Unit ℕ).exec
        ⟨fun _ => [], fun _ => .idle, fun _ => none, fun _ => false⟩ bs).isSome = true ∧
      bs.filterMap AtomicAct.label =
        [.alloc false 0, .call false (.push () 0), .call true (.pop ()), .ret false none,
          .ret true (some 0), .free true 0] := by
  have hrun : ((spinQueues Bool Unit ℕ).exec
      ⟨⟨tailqInit, fun _ => none⟩, fun _ => 0, fun _ => none, fun _ => .idle, fun _ => none⟩
      sampleHandover).isSome = true := by decide +kernel
  obtain ⟨s', hs'⟩ := Option.isSome_iff_exists.mp hrun
  obtain ⟨x, bs, x', rfl, hbs, hlab, -⟩ := spinQueues_linearizable rfl hs'
  exact ⟨bs, by rw [hbs]; rfl, hlab.trans (by decide)⟩

/-- **No statement touches an element that is not allocated.** -/
theorem spinQueues_goesOn {s s' : SpinState T H A} {acts : List (SpinAct T H A)}
    (hinit : (spinQueues T H A).init s) (hrun : (spinQueues T H A).exec s acts = some s') {t : T}
    (hidle : s'.pc t ≠ .idle) (hback : ∀ r, s'.pc t ≠ .back r) :
    ∃ s'', (spinQueues T H A).step s' (.step t) = some s'' := by
  obtain ⟨_, _, _, -, -, -, hR⟩ := spinQueues_simulated.trace hinit hrun
  exact hR.goesOn hidle hback

/-- No thread ever has more to do. -/
theorem spinQueues_left_le {s s' : SpinState T H A} {acts : List (SpinAct T H A)}
    (hinit : (spinQueues T H A).init s) (hrun : (spinQueues T H A).exec s acts = some s') (t : T) :
    (s'.pc t).left ≤ 7 := by
  have hreach : (spinQueues T H A).Reach (fun _ _ => True) s' := .exec (.start hinit) hrun
  refine hreach.invariant (I := fun s => ∀ u, (s.pc u).left ≤ 7) ?_ ?_ t
  · rintro _ rfl u
    exact Nat.zero_le _
  · intro _ _ _ _ hI _ hs
    exact SpinState.left_step hI hs

/-- **No call is stuck**: wherever the threads are, steps of the thread that has the lock the
call waits for, if one has it, and then of the calling thread bring a call to its return. -/
theorem spinQueues_returns {s s' : SpinState T H A} {acts : List (SpinAct T H A)}
    (hinit : (spinQueues T H A).init s) (hrun : (spinQueues T H A).exec s acts = some s') {t : T}
    (hidle : s'.pc t ≠ .idle) :
    ∃ (u : T) (m n : ℕ), m + n ≤ 14 ∧
      (m ≠ 0 → ∃ c, s'.pc t = .lock c ∧ s'.lock c.head = some u) ∧ ∃ s'' r,
        (spinQueues T H A).exec s' (List.replicate m (.step u) ++ List.replicate n (.step t)) =
          some s'' ∧ s''.pc t = .back r := by
  have hleft : ∀ u, (s'.pc u).left ≤ 7 := spinQueues_left_le hinit hrun
  obtain ⟨_, _, x, -, -, -, hR⟩ := spinQueues_simulated.trace hinit hrun
  by_cases hwait : ∃ c u, s'.pc t = .lock c ∧ s'.lock c.head = some u
  · obtain ⟨c, u, hpc, hlock⟩ := hwait
    have hinside := (hR.lock u c.head).mp hlock
    have hne : t ≠ u := by
      rintro rfl
      rw [hpc] at hinside
      cases hinside
    obtain ⟨m, s₁, x₁, hm, hrun₁, hR₁, ⟨r, hback⟩, hpc₁⟩ := hR.runs (t := u)
      (fun h => by rw [h] at hinside; cases hinside)
      (fun c' h => by rw [h] at hinside; cases hinside)
    have hpct : s₁.pc t = .lock c := (hpc₁ t hne).trans hpc
    have hfree := hR.lock_of_back hR₁ hlock hback hpc₁
    obtain ⟨n, s₂, x₂, hn, hrun₂, -, ⟨r', hback'⟩, -⟩ := hR₁.runs (t := t)
      (fun h => by rw [hpct] at h; cases h)
      (fun c' h => by rw [hpct] at h; cases h; exact hfree)
    refine ⟨u, m, n, ?_, fun _ => ⟨c, hpc, hlock⟩, s₂, r', ?_, hback'⟩
    · have hn' : n ≤ (s'.pc t).left := hpc₁ t hne ▸ hn
      exact Nat.add_le_add (hm.trans (hleft u)) (hn'.trans (hleft t))
    · rw [System.exec_append, hrun₁]
      exact hrun₂
  · obtain ⟨n, s₁, x₁, hn, hrun₁, -, ⟨r, hback⟩, -⟩ := hR.runs hidle fun c hpc =>
      Option.eq_none_iff_forall_ne_some.mpr fun u hu => hwait ⟨c, u, hpc, hu⟩
    -- nobody has the lock, and the thread goes on by itself
    refine ⟨t, 0, n, ?_, fun h => absurd rfl h, s₁, r, hrun₁, hback⟩
    exact (Nat.zero_add n).trans_le ((hn.trans (hleft t)).trans (by decide))

/-- The theorem at a thread that waits for the lock. -/
theorem spinQueues_returns_waiting :
    ∃ s', (spinQueues Bool Unit ℕ).exec
        ⟨⟨tailqInit, fun _ => none⟩, fun _ => 0, fun _ => none, fun _ => .idle, fun _ => none⟩
        (sampleHandover.take 5) = some s' ∧
      ∃ u m n, m + n ≤ 14 ∧ (m ≠ 0 → ∃ c, s'.pc true = .lock c ∧ s'.lock c.head = some u) ∧
        ∃ s'' r, (spinQueues Bool Unit ℕ).exec s'
            (List.replicate m (.step u) ++ List.replicate n (.step true)) = some s'' ∧
          s''.pc true = .back r := by
  have hrun : ((spinQueues Bool Unit ℕ).exec
      ⟨⟨tailqInit, fun _ => none⟩, fun _ => 0, fun _ => none, fun _ => .idle, fun _ => none⟩
      (sampleHandover.take 5)).map (fun s => (s.pc true).left) = some 7 := by decide +kernel
  obtain ⟨s', hs', hleft⟩ := Option.map_eq_some_iff.mp hrun
  refine ⟨s', hs', spinQueues_returns rfl hs' fun hidle => ?_⟩
  rw [hidle] at hleft
  cases hleft

end Simulation

end Newiup
