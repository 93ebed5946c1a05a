import Newiup.Daemon.Mirror
import Newiup.Daemon.Placed

/-!
# Who has a node

A node that is allocated is in one queue, or one thread has it in a variable.  So a thread
adds to a queue only a node of its own, and frees only such a node, whatever the order in
which the threads take their steps and whenever the loops end.

## Main definitions

* `ThreadPc` — where a thread stands.
* `Custody` — a node is in one place.

## Main results

* `custody` — **in every reachable state a node is in one place.**
* `spinDaemon_accepts` — **no thread adds or frees a node that it does not have**, and none
  is allocated twice.
* `spinDaemon_returns` — **no statement of a call goes wrong.**
-/

namespace Newiup

open Newiup.System

/-! ### Threads -/

/-- Where a thread stands; a monitor thread has `node`. -/
inductive ThreadPc
  | monitor (added : Option Addr)
  | sche (p : SchePc)
  | upload (p : UploadPc)

namespace ThreadPc

/-- The thread has the node in a variable. -/
def Has : ThreadPc → Addr → Prop
  | .monitor o, a => o = some a
  | .sche p, a => p.node = some a ∨ p.newnode = some a
  | .upload p, a => p.held = some a

/-- The thread is at the call, for some queue. -/
def Calls : ThreadPc → QueueCall QueueId Addr → Prop
  | .sche .pop, .pop _ => True
  | .upload .pop, .pop _ => True
  | .monitor o, .push _ a => o = some a
  | .sche (.push _ _ _ c), .push _ a => c = a
  | .sche (.requeue c), .push _ a => c = a
  | .upload (.requeue c), .push _ a => c = a
  | _, _ => False

/-- The node of a scheduler is not its copy. -/
def Distinct : ThreadPc → Prop
  | .sche (.push a _ _ c) => a ≠ c
  | _ => True

/-- Where the thread goes on when its call has returned. -/
def resume (r : Option Addr) : ThreadPc → ThreadPc
  | .monitor _ => .monitor none
  | .sche p => .sche (p.resume r)
  | .upload p => .upload (p.resume r)

variable {p : ThreadPc} {q : QueueId} {a b : Addr} {r : Option Addr}

theorem Calls.not_has (h : p.Calls (.pop q)) : ¬p.Has a := by
  cases p with
  | monitor o => exact h.elim
  | sche p =>
    cases p with
    | pop => rintro (h | h) <;> cases h
    | _ => exact h.elim
  | upload p =>
    cases p with
    | pop => nofun
    | _ => exact h.elim

theorem Calls.resume_some (h : p.Calls (.pop q)) : (p.resume (some a)).Has b ↔ b = a := by
  cases p with
  | monitor o => exact h.elim
  | sche p =>
    cases p with
    | pop => simp [resume, SchePc.resume, Has, SchePc.node, SchePc.newnode, eq_comm]
    | _ => exact h.elim
  | upload p =>
    cases p with
    | pop =>
      simp [resume, UploadPc.resume, Has, UploadPc.held, UploadPc.node, UploadPc.released,
        eq_comm]
    | _ => exact h.elim

theorem Calls.resume_none (h : p.Calls (.pop q)) : ¬(p.resume none).Has a := by
  cases p with
  | monitor o => exact h.elim
  | sche p =>
    cases p with
    | pop => rintro (h | h) <;> cases h
    | _ => exact h.elim
  | upload p =>
    cases p with
    | pop => nofun
    | _ => exact h.elim

theorem Calls.has (h : p.Calls (.push q a)) : p.Has a := by
  cases p with
  | monitor o => exact h
  | sche p =>
    cases p with
    | push a' i v c => exact .inr (congrArg some h)
    | requeue c => exact .inl (congrArg some h)
    | _ => exact h.elim
  | upload p =>
    cases p with
    | requeue c => exact congrArg some h
    | _ => exact h.elim

/-- A thread that has added a node does not have it any more. -/
theorem Calls.resume_push (h : p.Calls (.push q a)) (hd : p.Distinct) :
    (p.resume r).Has b ↔ p.Has b ∧ b ≠ a := by
  -- the node that was pushed is handed over; a scheduler that pushes a copy keeps its own node
  cases p with
  | monitor o =>
    obtain rfl : o = some a := h
    simp only [resume, Has, reduceCtorEq, Option.some.injEq, false_iff, not_and, not_not]
    exact Eq.symm
  | sche p =>
    cases p with
    | push a' i v c =>
      obtain rfl : c = a := h
      have hne : a' ≠ c := hd
      simp only [resume, SchePc.resume, Has, SchePc.node, SchePc.newnode, Option.some.injEq,
        reduceCtorEq, or_false]
      constructor
      · rintro rfl
        exact ⟨.inl rfl, hne⟩
      · rintro ⟨rfl | rfl, hb⟩
        · rfl
        · exact absurd rfl hb
    | requeue c =>
      obtain rfl : c = a := h
      simp only [resume, SchePc.resume, Has, SchePc.node, SchePc.newnode, Option.some.injEq,
        reduceCtorEq, or_false, false_iff, not_and, not_not]
      exact Eq.symm
    | _ => exact h.elim
  | upload p =>
    cases p with
    | requeue c =>
      obtain rfl : c = a := h
      simp only [resume, UploadPc.resume, Has, UploadPc.held, UploadPc.node, UploadPc.released,
        Option.or_none, Option.some.injEq, reduceCtorEq, false_iff, not_and, not_not]
      exact Eq.symm
    | _ => exact h.elim

theorem Distinct.resume (h : p.Distinct) : (p.resume r).Distinct := by
  cases p with
  | monitor o => trivial
  | sche p =>
    cases p with
    | pop => cases r <;> trivial
    | _ => trivial
  | upload p => trivial

end ThreadPc

namespace Client

/-- Where a thread of the client stands. -/
def place (k : Client) : Thread → ThreadPc
  | .monitor g => .monitor (k.added g)
  | .sche g => .sche (k.rest.sche g)
  | .upload t => .upload (k.rest.upload t)

theorem place_resume_self (k : Client) (r : Option Addr) (t : Thread) :
    (k.resume r t).place t = (k.place t).resume r := by
  cases t with
  | monitor g => exact congrArg ThreadPc.monitor (Function.update_self ..)
  | sche g => exact congrArg ThreadPc.sche (Function.update_self ..)
  | upload t => exact congrArg ThreadPc.upload (Function.update_self ..)

theorem place_resume_of_ne (k : Client) (r : Option Addr) {t t' : Thread} (h : t' ≠ t) :
    (k.resume r t).place t' = k.place t' := by
  cases t with
  | monitor g =>
    cases t' with
    | monitor g' =>
      exact congrArg ThreadPc.monitor (Function.update_of_ne (h <| congrArg Thread.monitor ·) ..)
    | _ => rfl
  | sche g =>
    cases t' with
    | sche g' =>
      exact congrArg ThreadPc.sche (Function.update_of_ne (h <| congrArg Thread.sche ·) ..)
    | _ => rfl
  | upload t =>
    cases t' with
    | upload t' =>
      exact congrArg ThreadPc.upload (Function.update_of_ne (h <| congrArg Thread.upload ·) ..)
    | _ => rfl

theorem calls_of_callOf {cfg : Config} {k : Client} {t : Thread} {c : QueueCall QueueId Addr}
    (h : k.callOf cfg t = some c) : (k.place t).Calls c := by
  -- the places at which a thread calls a queue, and with which node
  cases t with
  | monitor g =>
    obtain ⟨a, ha, rfl⟩ := Option.map_eq_some_iff.mp h
    exact ha
  | sche g =>
    obtain ⟨mg, -, h⟩ := Option.bind_eq_some_iff.mp h
    split at h
    · rw [place]
      cases hp : k.rest.sche g with
      | pop =>
        rw [hp] at h
        simp only [SchePc.call] at h
        split at h
        · cases h
          trivial
        · cases h
      | push a i v c =>
        rw [hp] at h
        cases h
        rfl
      | requeue a =>
        rw [hp] at h
        obtain ⟨n, -, rfl⟩ := Option.map_eq_some_iff.mp h
        rfl
      | _ => rw [hp] at h; cases h
    · cases h
  | upload t =>
    obtain ⟨rs, -, h⟩ := Option.bind_eq_some_iff.mp h
    split at h
    · rw [place]
      cases hp : k.rest.upload t with
      | pop =>
        rw [hp] at h
        simp only [UploadPc.call] at h
        split at h
        · cases h
          trivial
        · cases h
      | requeue a =>
        rw [hp] at h
        cases h
        rfl
      | _ => rw [hp] at h; cases h
    · cases h

end Client

/-! ### Custody -/

/-- Where a thread stands when a call that has taken effect is taken to have returned. -/
def effective (k : Client) (x : AtomicState Thread QueueId Addr) (t : Thread) : ThreadPc :=
  match x.pc t with
  | .back r => (k.place t).resume r
  | _ => k.place t

/-- **A node is in one place**: in a queue, or in a variable of one thread. -/
structure Custody (k : Client) (x : AtomicState Thread QueueId Addr) : Prop where
  waiting t : k.waiting t = true ↔ x.pc t ≠ .idle
  calls {t c} : x.pc t = .called c → (k.place t).Calls c
  distinct t : (k.place t).Distinct
  owner t a : x.owner a = some t ↔ (effective k x t).Has a
  live a : x.live a = true ↔ (∃ t, x.owner a = some t) ∨ ∃ q, a ∈ x.queue q
  fresh a : x.live a = true → a < k.rest.next
  queued {a q} : a ∈ x.queue q → x.owner a = none
  nodup q : (x.queue q).Nodup
  unique {a q q'} : a ∈ x.queue q → a ∈ x.queue q' → q = q'

section Effective

variable {k k' : Client} {x : AtomicState Thread QueueId Addr} {t t' : Thread}
  {p : AtomicPc QueueId Addr}

theorem effective_of_idle (h : x.pc t = .idle) : effective k x t = k.place t := by
  rw [effective, h]

theorem effective_of_called {c : QueueCall QueueId Addr} (h : x.pc t = .called c) :
    effective k x t = k.place t := by
  rw [effective, h]

theorem effective_of_back {r : Option Addr} (h : x.pc t = .back r) :
    effective k x t = (k.place t).resume r := by
  rw [effective, h]

theorem effective_congr {x' : AtomicState Thread QueueId Addr} (hp : k'.place t = k.place t)
    (hpc : x'.pc t = x.pc t) : effective k' x' t = effective k x t := by
  rw [effective, effective, hp, hpc]

theorem has_congr {x' : AtomicState Thread QueueId Addr} {a : Addr} (hp : k'.place t = k.place t)
    (hpc : x'.pc t = x.pc t) : (effective k x t).Has a ↔ (effective k' x' t).Has a := by
  rw [effective_congr hp hpc]

end Effective

namespace Custody

variable {k k' : Client} {x : AtomicState Thread QueueId Addr} {t : Thread} {q : QueueId}
  {a : Addr} {r : Option Addr}

/-- A thread that is in no call moves; it keeps what it has. -/
theorem move (h : Custody k x) (hwait : k'.waiting = k.waiting)
    (hnext : k.rest.next ≤ k'.rest.next)
    (hplace : ∀ t, k'.place t = k.place t ∨
      x.pc t = .idle ∧ (k'.place t).Distinct ∧ ∀ a, (k'.place t).Has a ↔ (k.place t).Has a) :
    Custody k' x := by
  refine { h with
    waiting := fun t => hwait ▸ h.waiting t
    calls := ?_
    distinct := ?_
    owner := ?_
    fresh := fun a ha => (h.fresh a ha).trans_le hnext }
  · intro t c hc
    obtain hp | ⟨hidle, -⟩ := hplace t
    · rw [hp]
      exact h.calls hc
    · rw [hidle] at hc
      cases hc
  · intro t
    obtain hp | ⟨-, hd, -⟩ := hplace t
    · rw [hp]
      exact h.distinct t
    · exact hd
  · intro t a
    rw [h.owner]
    obtain hp | ⟨hidle, -, hhas⟩ := hplace t
    · exact has_congr hp rfl
    · rw [effective_of_idle hidle, effective_of_idle hidle]
      exact (hhas a).symm

/-- A thread calls. -/
theorem call (h : Custody k x) {c : QueueCall QueueId Addr} (hpc : x.pc t = .idle)
    (hc : (k.place t).Calls c) :
    Custody { k with waiting := Function.update k.waiting t true } (x.go t (.called c)) := by
  refine { h with waiting := ?_, calls := ?_, owner := ?_ }
  · intro t'
    by_cases ht : t' = t
    · obtain rfl := ht
      simp [AtomicState.go]
    · simpa [AtomicState.go, ht] using h.waiting t'
  · intro t' c' hc'
    by_cases ht : t' = t
    · obtain rfl := ht
      simp only [AtomicState.go, Function.update_self] at hc'
      cases hc'
      exact hc
    · simp only [AtomicState.go, Function.update_of_ne ht] at hc'
      exact h.calls hc'
  · intro t' a
    refine (h.owner t' a).trans ?_
    by_cases ht : t' = t
    · obtain rfl := ht
      rw [effective_of_idle hpc, effective_of_called (Function.update_self ..)]
      rfl
    · exact has_congr rfl (Function.update_of_ne ht ..)

/-- A call returns. -/
theorem ret (h : Custody k x) (hpc : x.pc t = .back r) :
    Custody { k.resume r t with waiting := Function.update k.waiting t false }
      (x.go t .idle) := by
  have hself := k.place_resume_self r t
  have hne {t' : Thread} (ht : t' ≠ t) := k.place_resume_of_ne r ht
  have hnext : (k.resume r t).rest.next = k.rest.next := by cases t <;> rfl
  -- the thread that returns goes on by itself, and what it has does not change by that
  refine { h with
    waiting := ?_
    calls := ?_
    distinct := ?_
    owner := ?_
    fresh := fun a ha => hnext ▸ h.fresh a ha }
  · intro t'
    by_cases ht : t' = t
    · obtain rfl := ht
      simp [AtomicState.go]
    · simpa [AtomicState.go, ht] using h.waiting t'
  · intro t' c hc
    by_cases ht : t' = t
    · obtain rfl := ht
      simp [AtomicState.go] at hc
    · simp only [AtomicState.go, Function.update_of_ne ht] at hc
      exact hne ht ▸ h.calls hc
  · intro t'
    by_cases ht : t' = t
    · obtain rfl := ht
      exact hself ▸ (h.distinct t').resume
    · exact hne ht ▸ h.distinct t'
  · intro t' a
    refine (h.owner t' a).trans ?_
    by_cases ht : t' = t
    · obtain rfl := ht
      rw [effective_of_back hpc, effective_of_idle (Function.update_self ..), ← hself]
      rfl
    · exact has_congr (hne ht) (Function.update_of_ne ht ..)

theorem waiting_back (h : Custody k x) {c : QueueCall QueueId Addr} (hpc : x.pc t = .called c)
    (t' : Thread) : k.waiting t' = true ↔ Function.update x.pc t (.back r) t' ≠ .idle := by
  by_cases ht : t' = t
  · obtain rfl := ht
    simp [(h.waiting t').mpr (by rw [hpc]; nofun)]
  · simpa [ht] using h.waiting t'

theorem calls_back (h : Custody k x) {c : QueueCall QueueId Addr} {t' : Thread}
    (hc : Function.update x.pc t (.back r) t' = .called c) : (k.place t').Calls c := by
  by_cases ht : t' = t
  · obtain rfl := ht
    simp at hc
  · rw [Function.update_of_ne ht] at hc
    exact h.calls hc

/-- A call finds an empty queue. -/
theorem popNone (h : Custody k x) (hpc : x.pc t = .called (.pop q)) :
    Custody k (x.go t (.back none)) := by
  refine { h with waiting := h.waiting_back hpc, calls := h.calls_back, owner := ?_ }
  · intro t' a
    refine (h.owner t' a).trans ?_
    by_cases ht : t' = t
    · obtain rfl := ht
      rw [effective_of_called hpc, effective_of_back (Function.update_self ..)]
      exact iff_of_false (h.calls hpc).not_has (h.calls hpc).resume_none
    · exact has_congr rfl (Function.update_of_ne ht ..)

/-- A call takes the first node of a queue. -/
theorem popSome (h : Custody k x) {as : List Addr} (hpc : x.pc t = .called (.pop q))
    (hq : x.queue q = a :: as) :
    Custody k { x.go t (.back (some a)) with
      queue := Function.update x.queue q as
      owner := Function.update x.owner a (some t) } := by
  have hnodup : (a :: as).Nodup := hq ▸ h.nodup q
  have hmem : a ∈ x.queue q := by rw [hq]; exact List.mem_cons_self
  -- the queues are as before, without the node
  have hqueue (b : Addr) (q' : QueueId) :
      b ∈ Function.update x.queue q as q' ↔ b ∈ x.queue q' ∧ b ≠ a := by
    by_cases hq' : q' = q
    · obtain rfl := hq'
      rw [Function.update_self, hq, List.mem_cons]
      constructor
      · intro hb
        exact ⟨.inr hb, fun hba => (List.nodup_cons.mp hnodup).1 (hba ▸ hb)⟩
      · rintro ⟨hb | hb, hba⟩
        · exact absurd hb hba
        · exact hb
    · rw [Function.update_of_ne hq']
      refine ⟨fun hb => ⟨hb, ?_⟩, And.left⟩
      rintro rfl
      exact hq' (h.unique hb hmem)
  refine { waiting := h.waiting_back hpc, calls := h.calls_back, distinct := h.distinct
           owner := ?_, live := ?_, fresh := h.fresh, queued := ?_, nodup := ?_, unique := ?_ }
  · intro t' b
    by_cases ht : t' = t
    · obtain rfl := ht
      rw [effective_of_back (Function.update_self ..), (h.calls hpc).resume_some]
      by_cases hb : b = a
      · simp [hb]
      · simp only [Function.update_of_ne hb, iff_false_right hb]
        rw [h.owner, effective_of_called hpc]
        exact (h.calls hpc).not_has
    · by_cases hb : b = a
      · obtain rfl := hb
        simp only [Function.update_self, Option.some.injEq]
        refine iff_of_false (Ne.symm ht) fun hhas => ?_
        have hown := (h.owner t' b).mpr
          ((has_congr rfl (Function.update_of_ne ht ..)).mpr hhas)
        rw [h.queued hmem] at hown
        cases hown
      · simp only [Function.update_of_ne hb]
        exact (h.owner t' b).trans (has_congr rfl (Function.update_of_ne ht ..))
  · intro b
    refine (h.live b).trans ?_
    by_cases hb : b = a
    · obtain rfl := hb
      exact iff_of_true (.inr ⟨q, hmem⟩) (.inl ⟨t, Function.update_self ..⟩)
    · simp only [Function.update_of_ne hb, hqueue, and_iff_left hb]
  · intro b q' hb
    obtain ⟨hb, hba⟩ := (hqueue b q').mp hb
    exact (Function.update_of_ne hba ..).trans (h.queued hb)
  · intro q'
    by_cases hq' : q' = q
    · obtain rfl := hq'
      simpa using (List.nodup_cons.mp hnodup).2
    · simpa [hq'] using h.nodup q'
  · intro b q₁ q₂ h₁ h₂
    exact h.unique ((hqueue b q₁).mp h₁).1 ((hqueue b q₂).mp h₂).1

/-- A call adds a node to a queue. -/
theorem push (h : Custody k x) (hpc : x.pc t = .called (.push q a)) :
    Custody k { x.go t (.back none) with
      queue := Function.update x.queue q (x.queue q ++ [a])
      owner := Function.update x.owner a none } := by
  have hown : x.owner a = some t := by
    rw [h.owner, effective_of_called hpc]
    exact (h.calls hpc).has
  have hnot (q' : QueueId) : a ∉ x.queue q' := fun ha => by
    rw [h.queued ha] at hown
    cases hown
  -- the queues are as before, with the node
  have hqueue (b : Addr) (q' : QueueId) :
      b ∈ Function.update x.queue q (x.queue q ++ [a]) q' ↔ b ∈ x.queue q' ∨ b = a ∧ q' = q := by
    by_cases hq' : q' = q
    · obtain rfl := hq'
      simp
    · simp [hq']
  refine { waiting := h.waiting_back hpc, calls := h.calls_back, distinct := h.distinct
           owner := ?_, live := ?_, fresh := h.fresh, queued := ?_, nodup := ?_, unique := ?_ }
  · intro t' b
    by_cases ht : t' = t
    · obtain rfl := ht
      rw [effective_of_back (Function.update_self ..),
        (h.calls hpc).resume_push (h.distinct t')]
      by_cases hb : b = a
      · simp [hb]
      · simp only [Function.update_of_ne hb, ne_eq, hb, not_false_iff, and_true]
        rw [h.owner, effective_of_called hpc]
    · by_cases hb : b = a
      · obtain rfl := hb
        simp only [Function.update_self]
        refine iff_of_false nofun fun hhas => ?_
        have hown' := (h.owner t' b).mpr
          ((has_congr rfl (Function.update_of_ne ht ..)).mpr hhas)
        rw [hown] at hown'
        exact ht (Option.some.inj hown').symm
      · simp only [Function.update_of_ne hb]
        exact (h.owner t' b).trans (has_congr rfl (Function.update_of_ne ht ..))
  · intro b
    refine (h.live b).trans ?_
    by_cases hb : b = a
    · obtain rfl := hb
      exact iff_of_true (.inl ⟨t, hown⟩) (.inr ⟨q, (hqueue b q).mpr (.inr ⟨rfl, rfl⟩)⟩)
    · simp only [Function.update_of_ne hb, hqueue, hb, false_and, or_false]
  · intro b q' hb
    by_cases hba : b = a
    · obtain rfl := hba
      exact Function.update_self ..
    · obtain hb | ⟨hb, -⟩ := (hqueue b q').mp hb
      · exact (Function.update_of_ne hba ..).trans (h.queued hb)
      · exact absurd hb hba
  · intro q'
    by_cases hq' : q' = q
    · obtain rfl := hq'
      simpa using (h.nodup q').append (List.nodup_singleton a) (by simpa using hnot q')
    · simpa [hq'] using h.nodup q'
  · intro b q₁ q₂ h₁ h₂
    by_cases hb : b = a
    · obtain rfl := hb
      have hq₁ := ((hqueue b q₁).mp h₁).resolve_left (hnot q₁)
      have hq₂ := ((hqueue b q₂).mp h₂).resolve_left (hnot q₂)
      exact hq₁.2.trans hq₂.2.symm
    · have hq₁ := ((hqueue b q₁).mp h₁).resolve_right fun h => hb h.1
      have hq₂ := ((hqueue b q₂).mp h₂).resolve_right fun h => hb h.1
      exact h.unique hq₁ hq₂

/-- A thread that is in no call gets a new node. -/
theorem alloc (h : Custody k x) (hpc : x.pc t = .idle) (hlive : x.live a = false)
    (hwait : k'.waiting = k.waiting) (hnext : k.rest.next ≤ k'.rest.next)
    (ha : a < k'.rest.next) (hplace : ∀ t', t' ≠ t → k'.place t' = k.place t')
    (hdist : (k'.place t).Distinct) (hhas : ∀ b, (k'.place t).Has b ↔ (k.place t).Has b ∨ b = a) :
    Custody k' { x with
      owner := Function.update x.owner a (some t), live := Function.update x.live a true } := by
  have hown (t' : Thread) : x.owner a ≠ some t' := fun hown => by
    rw [(h.live a).mpr (.inl ⟨t', hown⟩)] at hlive
    cases hlive
  have hnot (q : QueueId) : a ∉ x.queue q := fun hq => by
    rw [(h.live a).mpr (.inr ⟨q, hq⟩)] at hlive
    cases hlive
  -- the address was nobody's and in no queue; everything else is as it was
  refine { h with
    waiting := fun t => hwait ▸ h.waiting t, calls := ?_, distinct := ?_, owner := ?_, live := ?_
    fresh := ?_, queued := ?_ }
  · intro t' c hc
    obtain rfl | ht := eq_or_ne t' t
    · rw [hpc] at hc
      cases hc
    · rw [hplace t' ht]
      exact h.calls hc
  · intro t'
    obtain rfl | ht := eq_or_ne t' t
    · exact hdist
    · rw [hplace t' ht]
      exact h.distinct t'
  · intro t' b
    by_cases ht : t' = t
    · obtain rfl := ht
      refine Iff.trans ?_ (Iff.of_eq (congrArg (ThreadPc.Has · b) (effective_of_idle hpc))).symm
      rw [hhas]
      by_cases hb : b = a
      · simp [hb]
      · simp only [Function.update_of_ne hb, hb, or_false]
        rw [h.owner, effective_of_idle hpc]
    · by_cases hb : b = a
      · obtain rfl := hb
        simp only [Function.update_self, Option.some.injEq]
        refine iff_of_false (Ne.symm ht) fun hhas => hown t' ?_
        exact (h.owner t' b).mpr ((has_congr (hplace t' ht) rfl).mpr hhas)
      · simp only [Function.update_of_ne hb]
        exact (h.owner t' b).trans (has_congr (hplace t' ht) rfl)
  · intro b
    by_cases hb : b = a
    · obtain rfl := hb
      simp
    · simpa [hb] using h.live b
  · intro b hb
    by_cases hba : b = a
    · exact hba ▸ ha
    · simp only [Function.update_of_ne hba] at hb
      exact (h.fresh b hb).trans_le hnext
  · intro b q hb
    have hba : b ≠ a := fun hba => hnot q (hba ▸ hb)
    exact (Function.update_of_ne hba ..).trans (h.queued hb)

/-- A thread that is in no call frees a node of its own. -/
theorem free (h : Custody k x) (hpc : x.pc t = .idle) (hown : x.owner a = some t)
    (hwait : k'.waiting = k.waiting) (hnext : k'.rest.next = k.rest.next)
    (hplace : ∀ t', t' ≠ t → k'.place t' = k.place t') (hdist : (k'.place t).Distinct)
    (hhas : ∀ b, (k'.place t).Has b ↔ (k.place t).Has b ∧ b ≠ a) :
    Custody k' { x with
      owner := Function.update x.owner a none, live := Function.update x.live a false } := by
  have hnot (q : QueueId) : a ∉ x.queue q := fun hq => by
    rw [h.queued hq] at hown
    cases hown
  -- the address was the thread's alone; everything else is as it was
  refine { h with
    waiting := fun t => hwait ▸ h.waiting t, calls := ?_, distinct := ?_, owner := ?_, live := ?_
    fresh := ?_, queued := ?_ }
  · intro t' c hc
    obtain rfl | ht := eq_or_ne t' t
    · rw [hpc] at hc
      cases hc
    · rw [hplace t' ht]
      exact h.calls hc
  · intro t'
    obtain rfl | ht := eq_or_ne t' t
    · exact hdist
    · rw [hplace t' ht]
      exact h.distinct t'
  · intro t' b
    by_cases ht : t' = t
    · obtain rfl := ht
      refine Iff.trans ?_ (Iff.of_eq (congrArg (ThreadPc.Has · b) (effective_of_idle hpc))).symm
      rw [hhas]
      by_cases hb : b = a
      · simp [hb]
      · simp only [Function.update_of_ne hb, ne_eq, hb, not_false_iff, and_true]
        rw [h.owner, effective_of_idle hpc]
    · by_cases hb : b = a
      · obtain rfl := hb
        simp only [Function.update_self]
        refine iff_of_false nofun fun hhas => ht ?_
        have hown' := (h.owner t' b).mpr ((has_congr (hplace t' ht) rfl).mpr hhas)
        rw [hown] at hown'
        exact (Option.some.inj hown').symm
      · simp only [Function.update_of_ne hb]
        exact (h.owner t' b).trans (has_congr (hplace t' ht) rfl)
  · intro b
    by_cases hb : b = a
    · obtain rfl := hb
      simpa using hnot
    · simpa [hb] using h.live b
  · intro b hb
    by_cases hba : b = a
    · simp [hba] at hb
    · simp only [Function.update_of_ne hba] at hb
      exact hnext ▸ h.fresh b hb
  · intro b q hb
    have hba : b ≠ a := fun hba => hnot q (hba ▸ hb)
    exact (Function.update_of_ne hba ..).trans (h.queued hb)

end Custody

/-! ### Steps of the client -/

theorem SchePc.newnode_of_alone {p : SchePc} {run : Bool} {sys : Sys}
    (h : p.alone run sys = true) : p.newnode = none := by
  cases p with
  | push => cases h
  | _ => rfl

section Client

variable {cfg : Config} {k k' : Client} {x : AtomicState Thread QueueId Addr} {d' : State}

theorem Client.place_put (k : Client) {D : State} (h : SameThreads k.rest D) (t : Thread) :
    (k.put D).place t = k.place t := by
  cases t with
  | monitor g => rfl
  | sche g => exact congrArg (fun f => ThreadPc.sche (f g)) h.sche
  | upload t => exact congrArg (fun f => ThreadPc.upload (f t)) h.upload

theorem Client.place_put_setSche (k : Client) (g : ℕ) (p : SchePc) {D : State}
    (h : SameThreads k.rest D) {t : Thread} :
    (k.put (D.setSche g p)).place t =
      if t = .sche g then .sche p else k.place t := by
  cases t with
  | monitor g' => rfl
  | sche g' =>
    rw [Client.place, Client.put, State.setSche, h.sche]
    by_cases hg : g' = g
    · simp [hg]
    · simp [hg, Client.place]
  | upload t =>
    rw [Client.place, Client.put, State.setSche, h.upload]
    rfl

theorem Client.place_put_setUpload (k : Client) (t : ThreadId) (p : UploadPc) {D : State}
    (h : SameThreads k.rest D) {u : Thread} :
    (k.put (D.setUpload t p)).place u =
      if u = .upload t then .upload p else k.place u := by
  cases u with
  | monitor g => rfl
  | sche g =>
    rw [Client.place, Client.put, State.setUpload, h.sche]
    rfl
  | upload t' =>
    rw [Client.place, Client.put, State.setUpload, h.upload]
    by_cases ht : t' = t
    · simp [ht]
    · simp [ht, Client.place]

namespace Custody

theorem idle (h : Custody k x) {t : Thread} (hwait : k.waiting t = false) : x.pc t = .idle := by
  by_contra hne
  rw [(h.waiting t).mpr hne] at hwait
  cases hwait

/-- A scheduler goes on with the node it has. -/
theorem scheMove (h : Custody k x) {g : ℕ} {p : SchePc} {D : State} (hsame : SameThreads k.rest D)
    (hidle : x.pc (.sche g) = .idle) (hnode : p.node = (k.rest.sche g).node)
    (hnew : p.newnode = (k.rest.sche g).newnode) (hnone : p.newnode = none) :
    Custody (k.put (D.setSche g p)) x := by
  refine h.move rfl hsame.next.ge fun t => ?_
  rw [k.place_put_setSche g p hsame]
  split
  · next ht =>
    obtain rfl := ht
    refine .inr ⟨hidle, ?_, fun a => ?_⟩
    · cases p with
      | push => cases hnone
      | _ => trivial
    · show p.node = some a ∨ p.newnode = some a ↔
        (k.rest.sche g).node = some a ∨ (k.rest.sche g).newnode = some a
      rw [hnode, hnew]
  · exact .inl rfl

/-- An upload thread goes on with the node it has. -/
theorem uploadMove (h : Custody k x) {t : ThreadId} {p : UploadPc} {D : State}
    (hsame : SameThreads k.rest D) (hidle : x.pc (.upload t) = .idle)
    (hheld : p.held = (k.rest.upload t).held) : Custody (k.put (D.setUpload t p)) x := by
  refine h.move rfl hsame.next.ge fun t' => ?_
  rw [k.place_put_setUpload t p hsame]
  split
  · next ht =>
    obtain rfl := ht
    refine .inr ⟨hidle, trivial, fun a => ?_⟩
    show p.held = some a ↔ (k.rest.upload t).held = some a
    rw [hheld]
  · exact .inl rfl

/-- Steps of the client that the queues do not see. -/
theorem client (h : Custody k x) {act : ClientAct} (hs : k.step cfg act = some k')
    (hl : act.label = none) : Custody k' x := by
  have hsurroundings {d' : State} (hsame : SameThreads k.rest d') : Custody (k.put d') x :=
    h.move rfl hsame.next.ge fun t => .inl (k.place_put hsame t)
  -- only a move can change a place, and a thread that moves alone keeps its nodes
  cases act with
  | produce p b =>
    cases hs
    exact hsurroundings ⟨rfl, rfl, rfl, rfl, rfl⟩
  | unproduce p =>
    cases hs
    exact hsurroundings ⟨rfl, rfl, rfl, rfl, rfl⟩
  | tick n =>
    cases hs
    exact hsurroundings ⟨rfl, rfl, rfl, rfl, rfl⟩
  | signal =>
    cases hs
    exact hsurroundings ⟨rfl, rfl, rfl, rfl, rfl⟩
  | move t ret sys =>
    cases t with
    | monitor g => cases hs
    | sche g =>
      simp only [Client.step] at hs
      split at hs
      · next hc =>
        obtain ⟨d', hd, rfl⟩ := Option.map_eq_some_iff.mp hs
        obtain ⟨mg, -, -, hd⟩ := step_sche hd
        obtain ⟨D, S, p, p', rfl, -, -, -, hsame, -, -, hnode, hnew⟩ :=
          (Mirrors.refl k.rest).sche (.refl _) hc.2 hd
        exact h.scheMove hsame (h.idle hc.1) hnode
          (hnew.trans (SchePc.newnode_of_alone hc.2).symm) hnew
      · cases hs
    | upload t =>
      simp only [Client.step] at hs
      split at hs
      · next hc =>
        obtain ⟨d', hd, rfl⟩ := Option.map_eq_some_iff.mp hs
        obtain ⟨rs, -, -, hd⟩ := step_upload hd
        obtain ⟨D, S, p, p', rfl, -, -, -, hsame, -, -, hheld⟩ :=
          (Mirrors.refl k.rest).upload (.refl _) hc.2 hd
        exact h.uploadMove hsame (h.idle hc.1) hheld
      · cases hs
  | _ => cases hl

end Custody

/-- A scheduler that reads a size is in its scan. -/
theorem SchePc.sized_eq_some {mg : MonitorGroup} {q : QueueId} {n : ℤ} {p p' : SchePc}
    (h : p.sized mg q n = some p') :
    ∃ a i c sg rs, p = .choose a i c ∧ mg.serverGroupList[i]? = some sg ∧ c.stage = .size ∧
      (if c.back then sg.rsBack else sg.rsPrime.map some)[c.k]? = some (some rs) ∧
      q = .srv rs.index ∧
      p' = .choose a i (Scan.advance (if c.queueSizeMax > n then
        { c with queueSizeMax := n, reQueue := some rs.index } else c)) := by
  cases p with
  | choose a i c =>
    obtain ⟨sg, hsg, h⟩ := Option.bind_eq_some_iff.mp h
    dsimp only at h
    generalize hrs : (if c.back then sg.rsBack else sg.rsPrime.map some) = rserver at h
    split at h
    · next rs hst hk =>
      split at h
      · next hq =>
        cases h
        exact ⟨a, i, c, sg, rs, rfl, hsg, hst, hrs ▸ hk, hq, rfl⟩
      · cases h
    · cases h
  | _ => cases h

/-- A scheduler with a copy to make makes it. -/
theorem step_copy {d : State} {g i v : ℕ} {a : Addr} (hp : d.sche g = .copy a i v)
    (hd : Newiup.step cfg d (.sche g []) = some d') :
    ∃ s, d.queueNodeCopy a i = some (d.next, s) ∧ d' = s.setSche g (.push a i v d.next) := by
  obtain ⟨mg, -, -, hd⟩ := step_sche hd
  unfold scheStep at hd
  rw [hp] at hd
  simp only [List.head?_nil, reduceCtorEq, if_false, Option.bind_eq_bind,
    Option.bind_eq_some_iff, Prod.exists] at hd
  obtain ⟨c, s, hs, hd⟩ := hd
  cases hd
  obtain rfl := (queueNodeCopy_heap hs).1
  exact ⟨s, hs, rfl⟩

/-- A scheduler with a node to free frees it. -/
theorem step_freeing {d : State} {g : ℕ} {a : Addr} {sys : Sys}
    (hp : (d.sche g).freeing = some a) (hd : Newiup.step cfg d (.sche g sys) = some d') :
    (d.sche g).newnode = none ∧ (d.sche g).node = some a ∧
      ∃ s, d.queueNodeFree a = some s ∧ d' = s.setSche g .pop := by
  obtain ⟨mg, -, -, hd⟩ := step_sche hd
  unfold scheStep at hd
  cases hpc : d.sche g with
  | drop b =>
    rw [hpc] at hd hp
    cases hp
    simp only [Option.bind_eq_bind, Option.bind_eq_some_iff] at hd
    obtain ⟨s, hs, hd⟩ := hd
    cases hd
    exact ⟨rfl, rfl, s, hs, rfl⟩
  | finish b f =>
    rw [hpc] at hd hp
    cases f with
    | free =>
      cases hp
      simp only [finishStep, Option.bind_eq_bind, Option.bind_eq_some_iff] at hd
      obtain ⟨s, hs, hd⟩ := hd
      cases hd
      exact ⟨rfl, rfl, s, hs, rfl⟩
    | _ => cases hp
  | _ => rw [hpc] at hp; cases hp

namespace Custody

variable {x' : AtomicState Thread QueueId Addr}

theorem callStep (h : Custody k x) {t : Thread} {c : QueueCall QueueId Addr}
    (hs : k.step cfg (.call t c) = some k') (hx : x.step (.call t c) = some x') :
    Custody k' x' := by
  simp only [Client.step] at hs
  split at hs
  · next hc =>
    cases hs
    have hidle := h.idle hc.1
    simp only [AtomicState.step, hidle] at hx
    split at hx
    · cases hx
      exact h.call hidle (Client.calls_of_callOf hc.2)
    · cases hx
  · cases hs

theorem retStep (h : Custody k x) {t : Thread} {r : Option Addr}
    (hs : k.step cfg (.ret t r) = some k') (hx : x.step (.ret t r) = some x') :
    Custody k' x' := by
  simp only [Client.step] at hs
  split at hs
  · cases hs
    simp only [AtomicState.step] at hx
    split at hx
    · next r' hback =>
      split at hx
      · next hr =>
        obtain rfl := hr
        cases hx
        exact h.ret hback
      · cases hx
    · cases hx
  · cases hs

theorem sizeStep (h : Custody k x) {g : ℕ} {q : QueueId} {n : ℤ}
    (hs : k.step cfg (.size g q n) = some k') (hx : x.step (.size (.sche g) q n) = some x') :
    Custody k' x' := by
  obtain ⟨mg, -, hs⟩ := Option.bind_eq_some_iff.mp hs
  split at hs
  · next hc =>
    obtain ⟨p, hp, rfl⟩ := Option.map_eq_some_iff.mp hs
    obtain ⟨a, i, c, sg, rs, hpc, -, -, -, -, rfl⟩ := SchePc.sized_eq_some hp
    have hidle := h.idle hc.2
    simp only [AtomicState.step, hidle] at hx
    split at hx
    · cases hx
      exact h.scheMove (.refl _) hidle (by rw [hpc]; rfl) (by rw [hpc]; rfl) rfl
    · cases hx
  · cases hs

theorem addStep (h : Custody k x) {g : ℕ} {a : Addr} {m : Path}
    (hs : k.step cfg (.add g a m) = some k') (hx : x.step (.alloc (.monitor g) a) = some x') :
    Custody k' x' := by
  simp only [Client.step, Option.bind_eq_bind, Option.bind_eq_some_iff] at hs
  obtain ⟨mg, -, src, -, hs⟩ := hs
  split at hs
  · next hc =>
    obtain ⟨-, -, hwait, hadded, rfl⟩ := hc
    cases hs
    have hidle := h.idle hwait
    simp only [AtomicState.step, hidle] at hx
    split at hx
    · next hlive =>
      cases hx
      refine h.alloc hidle hlive rfl (Nat.le_succ _) (Nat.lt_succ_self _) ?_ trivial ?_
      · intro t' ht
        cases t' with
        | monitor g' =>
          refine congrArg ThreadPc.monitor (Function.update_of_ne ?_ ..)
          exact fun hg => ht (congrArg Thread.monitor hg)
        | sche g' => rfl
        | upload t' => rfl
      · intro b
        show Function.update k.added g _ g = some b ↔ k.added g = some b ∨ _
        rw [Function.update_self, hadded]
        simp [eq_comm]
    · cases hx
  · cases hs

theorem copyStep (h : Custody k x) {g : ℕ} {a : Addr}
    (hs : k.step cfg (.copy g a) = some k') (hx : x.step (.alloc (.sche g) a) = some x') :
    Custody k' x' := by
  simp only [Client.step] at hs
  split at hs
  · next hc =>
    obtain ⟨hwait, rfl⟩ := hc
    split at hs
    · next a i v hp =>
      obtain ⟨d', hd, rfl⟩ := Option.map_eq_some_iff.mp hs
      obtain ⟨s, hcopy, rfl⟩ := step_copy hp hd
      obtain ⟨-, heap, rfl⟩ := queueNodeCopy_heap hcopy
      have hidle := h.idle hwait
      have hown : x.owner a = some (.sche g) := by
        rw [h.owner, effective_of_idle hidle]
        exact .inl (by rw [hp]; rfl)
      have hlt := h.fresh a ((h.live a).mpr (.inl ⟨_, hown⟩))
      have hplace (t : Thread) := (k.put { k.rest with
        heap := heap, next := k.rest.next + 1
        grp := Function.update k.rest.grp k.rest.next i }).place_put_setSche g
          (.push a i v k.rest.next) (.refl _) (t := t)
      -- the copy is allocated on both sides, with the same address
      simp only [AtomicState.step, hidle] at hx
      split at hx
      · next hlive =>
        cases hx
        refine h.alloc hidle hlive rfl (Nat.le_succ _) (Nat.lt_succ_self _) ?_ ?_ ?_
        · intro t' ht
          exact (hplace t').trans (if_neg ht)
        · refine (hplace (.sche g)).trans (if_pos rfl) ▸ ?_
          exact hlt.ne
        · intro b
          refine (hplace (.sche g)).trans (if_pos rfl) ▸ ?_
          simp [ThreadPc.Has, Client.place, hp, SchePc.node, SchePc.newnode, eq_comm]
      · cases hx
    · cases hs
  · cases hs

theorem scheFreeStep (h : Custody k x) {g : ℕ} {a : Addr}
    (hs : k.step cfg (.free (.sche g) a) = some k')
    (hx : x.step (.free (.sche g) a) = some x') : Custody k' x' := by
  simp only [Client.step] at hs
  split at hs
  · next hc =>
    obtain ⟨hwait, hfree⟩ := hc
    obtain ⟨d', hd, rfl⟩ := Option.map_eq_some_iff.mp hs
    obtain ⟨hnew, hnode, s, hs', rfl⟩ := step_freeing hfree hd
    obtain ⟨heap, rfl⟩ := queueNodeFree_heap hs'
    have hidle := h.idle hwait
    have hplace (t : Thread) :=
      k.place_put_setSche g .pop (D := { k.rest with heap := heap })
        ⟨rfl, rfl, rfl, rfl, rfl⟩ (t := t)
    simp only [AtomicState.step, hidle] at hx
    split at hx
    · next hown =>
      cases hx
      refine h.free hidle hown rfl rfl ?_ ?_ ?_
      · intro t' ht
        rw [hplace, if_neg ht]
      · rw [hplace, if_pos rfl]
        trivial
      · intro b
        rw [hplace, if_pos rfl]
        simp only [ThreadPc.Has, Client.place, hnode, hnew]
        simp [SchePc.node, SchePc.newnode, eq_comm]
    · cases hx
  · cases hs

theorem uploadFreeStep (h : Custody k x) {t : ThreadId} {a : Addr}
    (hs : k.step cfg (.free (.upload t) a) = some k')
    (hx : x.step (.free (.upload t) a) = some x') : Custody k' x' := by
  simp only [Client.step] at hs
  split at hs
  · next hc =>
    obtain ⟨hwait, hfree⟩ := hc
    obtain ⟨d', hd, rfl⟩ := Option.map_eq_some_iff.mp hs
    obtain ⟨rs, -, -, hd⟩ := step_upload hd
    simp only [uploadStep, hfree] at hd
    cases hd
    have hidle := h.idle hwait
    have hplace := @Client.place_put_setUpload k t .pop (k.rest.setNode a none)
      ⟨rfl, rfl, rfl, rfl, rfl⟩
    simp only [AtomicState.step, hidle] at hx
    split at hx
    · next hown =>
      cases hx
      refine h.free hidle hown rfl rfl ?_ ?_ ?_
      · intro t' ht
        rw [hplace, if_neg ht]
      · rw [hplace, if_pos rfl]
        trivial
      · intro b
        rw [hplace, if_pos rfl]
        simp only [ThreadPc.Has, Client.place, hfree]
        simp [UploadPc.held, UploadPc.node, UploadPc.released, eq_comm]
    · cases hx
  · cases hs

/-- Steps of the client together with the queues. -/
theorem both (h : Custody k x) {act : ClientAct} {b : AtomicAct Thread QueueId Addr}
    (hs : k.step cfg act = some k') (hx : x.step b = some x') (hl : act.label = b.label)
    (hne : act.label ≠ none) : Custody k' x' := by
  cases act with
  | call t c => cases b <;> cases hl; exact h.callStep hs hx
  | ret t r => cases b <;> cases hl; exact h.retStep hs hx
  | size g q n => cases b <;> cases hl; exact h.sizeStep hs hx
  | add g a m => cases b <;> cases hl; exact h.addStep hs hx
  | copy g a => cases b <;> cases hl; exact h.copyStep hs hx
  | free t a =>
    cases b <;> cases hl
    cases t with
    | monitor g => cases hs
    | sche g => exact h.scheFreeStep hs hx
    | upload t => exact h.uploadFreeStep hs hx
  | _ => exact absurd rfl hne

/-- A call takes effect. -/
theorem perform (h : Custody k x) {t : Thread} (hx : x.perform t = some x') : Custody k x' := by
  unfold AtomicState.perform at hx
  split at hx
  · next q hpc =>
    split at hx
    · cases hx
      exact h.popNone hpc
    · next a as hq =>
      cases hx
      exact h.popSome hpc hq
  · next q a hpc =>
    cases hx
    exact h.push hpc
  · cases hx

/-- No thread has a node, and no queue. -/
theorem boot (disk : Fs) (time : ℤ) :
    Custody ⟨.boot disk time, fun _ => false, fun _ => none⟩
      ⟨fun _ => [], fun _ => .idle, fun _ => none, fun _ => false⟩ where
  waiting t := by simp
  calls h := by cases h
  distinct t := by cases t <;> trivial
  owner t a := by
    refine iff_of_false nofun ?_
    cases t with
    | monitor g => nofun
    | sche g => rintro (h | h) <;> cases h
    | upload t => nofun
  live a := by simp
  fresh a h := by cases h
  queued h := by cases h
  nodup q := List.nodup_nil
  unique h := by cases h

end Custody

/-- Every step of the daemon with lists keeps a node in one place. -/
theorem Custody.step {disk : Fs} {y y' : Client × AtomicState Thread QueueId Addr}
    {act : SyncAct ClientAct (AtomicAct Thread QueueId Addr)} (h : Custody y.1 y.2)
    (hs : (listDaemon cfg disk).step y act = some y') : Custody y'.1 y'.2 := by
  obtain ⟨k, x⟩ := y
  cases act with
  | client act =>
    simp only [listDaemon, System.sync] at hs
    split at hs
    · next hl =>
      obtain ⟨k₁, hk, rfl⟩ := Option.map_eq_some_iff.mp hs
      exact h.client hk hl
    · cases hs
  | object b =>
    simp only [listDaemon, System.sync] at hs
    split at hs
    · next hl =>
      obtain ⟨x₁, hx, rfl⟩ := Option.map_eq_some_iff.mp hs
      cases b with
      | perform t => exact h.perform hx
      | _ => cases hl
    · cases hs
  | both act b =>
    simp only [listDaemon, System.sync] at hs
    split at hs
    · next hl =>
      obtain ⟨k₁, hk, hs⟩ := Option.bind_eq_some_iff.mp hs
      obtain ⟨x₁, hx, rfl⟩ := Option.map_eq_some_iff.mp hs
      exact h.both hk hx hl.1 hl.2
    · cases hs

/-- **In every reachable state a node is in one place.** -/
theorem custody {disk : Fs} {G : _ → _ → Prop} {y : Client × AtomicState Thread QueueId Addr}
    (h : (listDaemon cfg disk).Reach G y) : Custody y.1 y.2 := by
  refine h.invariant (I := fun y => Custody y.1 y.2) ?_ fun _ _ _ _ hI _ hs => hI.step hs
  rintro ⟨k, x⟩ ⟨⟨time, rfl⟩, hx⟩
  obtain rfl : x = _ := hx
  exact .boot disk time

end Client

/-! ### The daemon at its links -/

/-- The act asks the queues for something: a call, a new node, the end of one. -/
def ClientAct.asks : ClientAct → Bool
  | .call _ _ => true
  | .add _ _ _ => true
  | .copy _ _ => true
  | .free _ _ => true
  | _ => false

section Links

variable {cfg : Config} {disk : Fs} {G : Client × SpinState Thread QueueId Addr → _ → Prop}
  {k k' : Client} {s : SpinState Thread QueueId Addr}

/-- The links stand for lists in which a node is in one place. -/
theorem spinDaemon_custody (h : (spinDaemon cfg disk).Reach G (k, s)) :
    ∃ x, Related s x ∧ Custody k x := by
  obtain ⟨⟨k', x⟩, hx, hk, hR⟩ := (spinDaemon_simulated cfg disk).reach h
  obtain rfl : k = k' := hk
  exact ⟨x, hR, custody hx⟩

theorem Related.idle {x : AtomicState Thread QueueId Addr} (hR : Related s x) {t : Thread}
    (h : x.pc t = .idle) : s.pc t = .idle := by
  have hrel := hR.pc t
  rw [h] at hrel
  generalize s.pc t = p at hrel
  cases hrel
  rfl

/-- A new node is free to be allocated. -/
theorem Custody.new {x : AtomicState Thread QueueId Addr} (h : Custody k x) (hR : Related s x) :
    s.links.entry k.rest.next = none := by
  by_contra hne
  have hlive : x.live k.rest.next = true := hR.live _ ▸ Option.isSome_iff_ne_none.mpr hne
  exact (h.fresh _ hlive).false

/-- **No thread adds or frees a node that it does not have, and none is allocated twice**:
the queues take every call, allocation and end of a node that a thread comes to. -/
theorem spinDaemon_accepts (h : (spinDaemon cfg disk).Reach G (k, s)) {act : ClientAct}
    (hasks : act.asks = true) (hs : k.step cfg act = some k') :
    ∃ b s', SpinAct.label b = act.label ∧ s.step b = some s' := by
  obtain ⟨x, hR, hC⟩ := spinDaemon_custody h
  have hwait {t : Thread} (hw : k.waiting t = false) : x.pc t = .idle ∧ s.pc t = .idle :=
    ⟨hC.idle hw, hR.idle (hC.idle hw)⟩
  have hnew {t : Thread} (hw : k.waiting t = false) :
      ∃ b s', SpinAct.label b = some (.alloc t k.rest.next) ∧ s.step b = some s' := by
    -- whatever the links of the new node are
    let b : SpinAct Thread QueueId Addr := .alloc t k.rest.next ⟨none, .next 0⟩
    have hb : (s.step b).isSome = true := by simp [b, SpinState.step, (hwait hw).2, hC.new hR]
    obtain ⟨s', hs'⟩ := Option.isSome_iff_exists.mp hb
    exact ⟨b, s', rfl, hs'⟩
  have hfree {t : Thread} {a : Addr} (hw : k.waiting t = false) (ha : (k.place t).Has a) :
      ∃ b s', SpinAct.label b = some (.free t a) ∧ s.step b = some s' := by
    obtain ⟨hidle, hpc⟩ := hwait hw
    have hown : s.owner a = some t := by
      rw [hR.owner, hC.owner, effective_of_idle hidle]
      exact ha
    exact ⟨.free t a, _, rfl, by simp only [SpinState.step, hpc, if_pos hown]; rfl⟩
  cases act with
  | call t c =>
    simp only [Client.step] at hs
    split at hs
    · next hc =>
      obtain ⟨hidle, hpc⟩ := hwait hc.1
      have howns : s.Owns t c := by
        cases c with
        | pop q => trivial
        | push q a =>
          show s.owner a = some t
          rw [hR.owner, hC.owner, effective_of_idle hidle]
          exact (Client.calls_of_callOf hc.2).has
      exact ⟨.call t c, _, rfl, by simp only [SpinState.step, hpc, if_pos howns]; rfl⟩
    · cases hs
  | add g a m =>
    simp only [Client.step, Option.bind_eq_bind, Option.bind_eq_some_iff] at hs
    obtain ⟨mg, -, src, -, hs⟩ := hs
    split at hs
    · next hc =>
      obtain ⟨-, -, hw, -, rfl⟩ := hc
      exact hnew hw
    · cases hs
  | copy g a =>
    simp only [Client.step] at hs
    split at hs
    · next hc =>
      obtain ⟨hw, rfl⟩ := hc
      exact hnew hw
    · cases hs
  | free t a =>
    cases t with
    | monitor g => cases hs
    | sche g =>
      simp only [Client.step] at hs
      split at hs
      · next hc =>
        obtain ⟨d', hd, -⟩ := Option.map_eq_some_iff.mp hs
        exact hfree hc.1 (.inl (step_freeing hc.2 hd).2.1)
      · cases hs
    | upload t =>
      simp only [Client.step] at hs
      split at hs
      · next hc =>
        refine hfree hc.1 ?_
        show (k.rest.upload t).held = some a
        rw [hc.2]
        rfl
      · cases hs
  | _ => cases hasks

/-- The daemon before its first step. -/
def spinStart (disk : Fs) : Client × SpinState Thread QueueId Addr :=
  (⟨.boot disk 0, fun _ => false, fun _ => none⟩,
    ⟨⟨tailqInit, fun _ => none⟩, fun _ => 0, fun _ => none, fun _ => .idle, fun _ => none⟩)

/-- A monitor thread has a new node, which it goes on to add. -/
def sampleAdd : SyncAct ClientAct (SpinAct Thread QueueId Addr) :=
  .both (.add 0 0 "/d/a.c".toList) (.alloc (.monitor 0) 0 ⟨none, .next 0⟩)

/-- The monitor thread calls the queue. -/
def sampleCall : SyncAct ClientAct (SpinAct Thread QueueId Addr) :=
  .both (.call (.monitor 0) (.push (.sche 0) 0)) (.call (.monitor 0) (.push (.sche 0) 0))

/-- The monitor thread goes through so many statements of the call. -/
def sampleSteps (n : ℕ) : List (SyncAct ClientAct (SpinAct Thread QueueId Addr)) :=
  List.replicate n (.object (.step (.monitor 0)))

/-- The monitor thread adds its node and returns. -/
def samplePush : List (SyncAct ClientAct (SpinAct Thread QueueId Addr)) :=
  [sampleAdd, sampleCall] ++ sampleSteps 7 ++
    [.both (.ret (.monitor 0) none) (.ret (.monitor 0) none)]

theorem spinStart_exec {disk : Fs} {cfg : Config} {y : Client × SpinState Thread QueueId Addr}
    {as : List (SyncAct ClientAct (SpinAct Thread QueueId Addr))}
    (h : (spinDaemon cfg disk).exec (spinStart disk) as = some y) :
    (spinDaemon cfg disk).Reach (fun _ _ => True) y := by
  have hinit : (spinDaemon cfg disk).init (spinStart disk) := ⟨⟨0, rfl⟩, rfl⟩
  exact Reach.exec (.start hinit) h

/-- The theorem at the call that adds a new node. -/
theorem spinDaemon_accepts_new :
    ∃ y, (spinDaemon sampleConfig sampleDisk).exec (spinStart sampleDisk) [sampleAdd] = some y ∧
      ∃ b s', SpinAct.label b = some (.call (.monitor 0) (.push (.sche 0) 0)) ∧
        y.2.step b = some s' := by
  have hrun : ((spinDaemon sampleConfig sampleDisk).exec (spinStart sampleDisk)
      [sampleAdd]).map (fun y => (y.1.waiting (.monitor 0), y.1.added 0)) =
        some (false, some 0) := by decide +kernel
  obtain ⟨⟨k, s⟩, hy, he⟩ := Option.map_eq_some_iff.mp hrun
  obtain ⟨hwait, hadded⟩ := Prod.ext_iff.mp he
  have hcall : k.callOf sampleConfig (.monitor 0) = some (.push (.sche 0) 0) := by
    rw [Client.callOf, show k.added 0 = some 0 from hadded]
    rfl
  have hs : k.step sampleConfig (.call (.monitor 0) (.push (.sche 0) 0)) = some _ :=
    if_pos ⟨hwait, hcall⟩
  exact ⟨(k, s), hy, spinDaemon_accepts (spinStart_exec hy) rfl hs⟩

/-- **No statement of a call goes wrong**: a thread that waits for a call goes on in it, until
it returns. -/
theorem spinDaemon_returns (h : (spinDaemon cfg disk).Reach G (k, s)) {t : Thread}
    (hwait : k.waiting t = true) : (∃ r, s.pc t = .back r) ∨ ∃ s', s.step (.step t) = some s' := by
  obtain ⟨x, hR, hC⟩ := spinDaemon_custody h
  have hidle : s.pc t ≠ .idle := by
    intro hidle
    have hrel := hR.pc t
    rw [hidle] at hrel
    exact (hC.waiting t).mp hwait hrel.eq_idle
  by_cases hback : ∃ r, s.pc t = .back r
  · exact .inl hback
  · exact .inr (hR.goesOn hidle fun r hr => hback ⟨r, hr⟩)

/-- The theorem at a thread between two statements of `TAILQ_INSERT_TAIL`. -/
theorem spinDaemon_returns_halfway :
    ∃ y, (spinDaemon sampleConfig sampleDisk).exec (spinStart sampleDisk)
        ([sampleAdd, sampleCall] ++ sampleSteps 4) = some y ∧
      y.2.lock (.sche 0) = some (.monitor 0) ∧
      ((∃ r, y.2.pc (.monitor 0) = .back r) ∨
        ∃ s', y.2.step (.step (.monitor 0)) = some s') := by
  have hrun : ((spinDaemon sampleConfig sampleDisk).exec (spinStart sampleDisk)
      ([sampleAdd, sampleCall] ++ sampleSteps 4)).map
        (fun y => (y.1.waiting (.monitor 0), y.2.lock (.sche 0))) =
          some (true, some (.monitor 0)) := by decide +kernel
  obtain ⟨y, hy, he⟩ := Option.map_eq_some_iff.mp hrun
  obtain ⟨hwait, hlock⟩ := Prod.ext_iff.mp he
  exact ⟨y, hy, hlock, spinDaemon_returns (spinStart_exec hy) hwait⟩

/-- **A node that is allocated is in one place**: one thread owns it, and then has it in a
variable unless it is in a call, or it is in one queue, once. -/
theorem spinDaemon_placed (h : (spinDaemon cfg disk).Reach G (k, s)) :
    ∃ queue : QueueId → List Addr,
      (∀ q, s.lock q = none → Represents s.links q (queue q)) ∧
      (∀ q, s.size q = (queue q).length ∧ (queue q).Nodup) ∧
      (∀ a, (s.links.entry a).isSome = true ↔
        (∃ t, s.owner a = some t) ∧ (∀ q, a ∉ queue q) ∨
          s.owner a = none ∧ ∃! q, a ∈ queue q) ∧
      ∀ t a, k.waiting t = false → (s.owner a = some t ↔ (k.place t).Has a) := by
  obtain ⟨x, hR, hC⟩ := spinDaemon_custody h
  refine ⟨x.queue, fun q hq => ?_, fun q => ⟨hR.size q, hR.nodup q⟩, fun a => ?_,
    fun t a hw => ?_⟩
  · have hholds := hR.holds q
    rw [Related.stage_of_free hq] at hholds
    exact hholds
  · rw [hR.live, hC.live, hR.owner]
    constructor
    · rintro (⟨t, ht⟩ | ⟨q, hq⟩)
      · refine .inl ⟨⟨t, ht⟩, fun q hq => ?_⟩
        rw [hC.queued hq] at ht
        cases ht
      · exact .inr ⟨hC.queued hq, q, hq, fun q' hq' => hC.unique hq' hq⟩
    · rintro (⟨⟨t, ht⟩, -⟩ | ⟨-, q, hq, -⟩)
      · exact .inl ⟨t, ht⟩
      · exact .inr ⟨q, hq⟩
  · rw [hR.owner, hC.owner, effective_of_idle (hC.idle hw)]

/-- The theorem at a node that a monitor thread has added. -/
theorem spinDaemon_placed_added :
    ∃ y, (spinDaemon sampleConfig sampleDisk).exec (spinStart sampleDisk) samplePush = some y ∧
      ∃ queue : QueueId → List Addr,
        Represents y.2.links (.sche 0) (queue (.sche 0)) ∧ (queue (.sche 0)).length = 1 ∧
          (∃! q, 0 ∈ queue q) ∧ ¬(y.1.place (.monitor 0)).Has 0 := by
  have hrun : ((spinDaemon sampleConfig sampleDisk).exec (spinStart sampleDisk) samplePush).map
      (fun y => (y.1.waiting (.monitor 0), y.2.lock (.sche 0), y.2.size (.sche 0),
        (y.2.links.entry 0).isSome, y.2.owner 0)) =
        some (false, none, 1, true, none) := by decide +kernel
  obtain ⟨y, hy, he⟩ := Option.map_eq_some_iff.mp hrun
  simp only [Prod.mk.injEq] at he
  obtain ⟨hwait, hlock, hsize, hlive, howner⟩ := he
  obtain ⟨queue, hrep, hqueue, hplace, hown⟩ := spinDaemon_placed (spinStart_exec hy)
  refine ⟨y, hy, queue, hrep _ hlock, by exact_mod_cast (hqueue _).1.symm.trans hsize, ?_,
    fun hhas => ?_⟩
  · rcases (hplace 0).mp hlive with ⟨⟨t, ht⟩, -⟩ | ⟨-, hone⟩
    · rw [howner] at ht
      cases ht
    · exact hone
  · rw [← hown _ _ hwait, howner] at hhas
    cases hhas

end Links

end Newiup
