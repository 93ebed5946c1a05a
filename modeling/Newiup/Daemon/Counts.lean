import Newiup.Daemon.Owned

/-!
# Reference counts

The ownership invariant holds in every reachable state of the daemon, together with
what the scheduler relies on between its test of a counter and the end of its pass:
while it is at server group `i`, the live copies of its node are for earlier groups.

## Main definitions

* `Dispatched` — the live copies of a node are for different server groups, each
  named after its own, and for groups the scheduler has passed.
* `Counts` — the whole invariant.

## Main results

* `Counts.step` — **every step keeps the invariant.**
* `counts_exact` — **the counter of an original is the number of its live copies, and
  an original is freed only when there are none.**
-/

namespace Newiup

/-! ### The scheduler between test and dispatch -/

/-- The node a scheduler works on after the test of its counter, and a server group
before which the live copies are. -/
def SchePc.bound : SchePc → Option (Addr × ℕ)
  | .source a => some (a, 0)
  | .marker a => some (a, 0)
  | .create a _ => some (a, 0)
  | .check a _ => some (a, 0)
  | .finish a _ => some (a, 0)
  | .drop a => some (a, 0)
  | .dispatch a i => some (a, i)
  | .choose a i _ => some (a, i)
  | .copy a i _ => some (a, i)
  | .push a i _ _ => some (a, i + 1)
  | _ => none

/-- The node and the server group between the write of `sg_name` and the copy. -/
def SchePc.naming : SchePc → Option (Addr × ℕ)
  | .choose a i _ => some (a, i)
  | .copy a i _ => some (a, i)
  | _ => none

theorem SchePc.node_of_bound {pc : SchePc} {a : Addr} {b : ℕ} (h : pc.bound = some (a, b)) :
    pc.node = some a := by
  cases pc <;> simp_all [SchePc.bound, SchePc.node]

theorem SchePc.bound_of_naming {pc : SchePc} {a : Addr} {i : ℕ} (h : pc.naming = some (a, i)) :
    pc.bound = some (a, i) := by
  cases pc <;> simp_all [SchePc.bound, SchePc.naming]

/-- A scheduler that moved to `pc'` is bound by no more than it was at `pc`. -/
structure SchePc.Within (pc' pc : SchePc) : Prop where
  bound : ∀ {a b'}, pc'.bound = some (a, b') → ∃ b, pc.bound = some (a, b) ∧ b ≤ b'
  naming : ∀ {a i}, pc'.naming = some (a, i) → pc.naming = some (a, i)

theorem SchePc.Within.refl (pc : SchePc) : pc.Within pc :=
  ⟨fun h => ⟨_, h, le_rfl⟩, fun h => h⟩

/-- Nothing binds a scheduler that has no node, or that has not tested its counter. -/
theorem SchePc.Within.of_none {pc' pc : SchePc} (h : pc'.bound = none) : pc'.Within pc where
  bound hb := by rw [h] at hb; cases hb
  naming hn := by rw [bound_of_naming hn] at h; cases h

theorem SchePc.Within.setSche {s : State} {g : ℕ} {pc : SchePc} (h : pc.Within (s.sche g))
    (g' : ℕ) : ((s.setSche g pc).sche g').Within (s.sche g') := by
  by_cases hg : g' = g
  · rw [hg, State.sche_setSche_self]
    exact h
  · rw [State.sche_setSche_of_ne _ _ _ hg]
    exact .refl _

/-- The node carries the name of server group `i` of monitor group `g`. -/
def NamedFor (cfg : Config) (g i : ℕ) (n : FileQueue) : Prop :=
  ∃ mg sg, cfg.groups[g]? = some mg ∧ mg.serverGroupList[i]? = some sg ∧
    n.sgName = some sg.primeName

namespace State

/-- The node `c` is a copy of `a` that has not been counted down yet. -/
abbrev LiveCopy (s : State) (c a : Addr) : Prop := Newiup.LiveCopy s.held s.heap c a

variable {s s' : State}

theorem held_congr (hq : s'.queue = s.queue) (hs : s'.sche = s.sche)
    (hu : s'.upload = s.upload) : s'.held = s.held := by
  funext p
  cases p <;> simp [held, hq, hs, hu]

@[simp] theorem held_queue (s : State) (q : QueueId) (x : Queue) :
    ({ s with queue := Function.update s.queue q x } : State).held =
      Function.update s.held (.queue q) x.head := by
  funext p
  cases p <;> simp [held, Function.update_apply]
  split <;> rfl

theorem mem_held_sche {g : ℕ} {a : Addr} : a ∈ s.held (.sche g) ↔ (s.sche g).node = some a := by
  simp [held]

theorem mem_held_upload {t : ThreadId} {c : Addr} :
    c ∈ s.held (.upload t) ↔ (s.upload t).node = some c := by
  simp [held]

theorem held_setSche {g : ℕ} {pc : SchePc} (h : pc.newnode = (s.sche g).newnode) :
    (s.setSche g pc).held = Function.update s.held (.sche g) pc.node.toList := by
  funext p
  cases p with
  | sche g' => simp only [held, setSche, Function.update_apply, Place.sche.injEq]; split <;> rfl
  | new g' =>
    simp only [held, setSche, Function.update_apply, reduceCtorEq, if_false]
    split
    · next hg => rw [hg, h]
    · rfl
  | _ => simp [held, setSche]

theorem held_setSche_of_node {g : ℕ} {pc : SchePc} (h : pc.node = (s.sche g).node) :
    (s.setSche g pc).held = Function.update s.held (.new g) pc.newnode.toList := by
  funext p
  cases p with
  | new g' => simp only [held, setSche, Function.update_apply, Place.new.injEq]; split <;> rfl
  | sche g' =>
    simp only [held, setSche, Function.update_apply, reduceCtorEq, if_false]
    split
    · next hg => rw [hg, h]
    · rfl
  | _ => simp [held, setSche]

theorem held_setUpload {t : ThreadId} {pc : UploadPc}
    (h : pc.released = (s.upload t).released) :
    (s.setUpload t pc).held = Function.update s.held (.upload t) pc.node.toList := by
  funext p
  cases p with
  | upload t' =>
    simp only [held, setUpload, Function.update_apply, Place.upload.injEq]; split <;> rfl
  | released t' =>
    simp only [held, setUpload, Function.update_apply, reduceCtorEq, if_false]
    split
    · next ht => rw [ht, h]
    · rfl
  | _ => simp [held, setUpload]

theorem held_setUpload_release {t : ThreadId} {c : Addr} :
    (s.setUpload t (.free c)).held =
      Function.update (Function.update s.held (.upload t) []) (.released t) [c] := by
  funext p
  cases p with
  | upload t' => simp only [held, setUpload, Function.update_apply, Place.upload.injEq,
      reduceCtorEq, if_false]; split <;> rfl
  | released t' =>
    simp only [held, setUpload, Function.update_apply, Place.released.injEq]; split <;> rfl
  | _ => simp [held, setUpload]

theorem held_setUpload_free {t : ThreadId} (h : (s.upload t).node = none) :
    (s.setUpload t .pop).held = Function.update s.held (.released t) [] := by
  funext p
  cases p with
  | upload t' =>
    simp only [held, setUpload, Function.update_apply, reduceCtorEq, if_false]
    split
    · next ht => rw [ht, h]; rfl
    · rfl
  | released t' =>
    simp only [held, setUpload, Function.update_apply, Place.released.injEq]; split <;> rfl
  | _ => simp [held, setUpload]

theorem held_setSche_same {g : ℕ} {pc : SchePc} (h : pc.newnode = (s.sche g).newnode)
    (h' : pc.node = (s.sche g).node) : (s.setSche g pc).held = s.held := by
  rw [held_setSche h, h']
  exact Function.update_eq_self (Place.sche g) s.held

theorem held_setUpload_same {t : ThreadId} {pc : UploadPc}
    (h : pc.released = (s.upload t).released) (h' : pc.node = (s.upload t).node) :
    (s.setUpload t pc).held = s.held := by
  rw [held_setUpload h, h']
  exact Function.update_eq_self (Place.upload t) s.held

end State

/-! ### The invariant -/

/-- **What the scheduler relies on** between its test of a counter and the end of its
pass. -/
structure Dispatched (cfg : Config) (s : State) : Prop where
  /-- The live copies of the node it works on are for groups it has passed. -/
  bound : ∀ {g a b c}, (s.sche g).bound = some (a, b) → s.LiveCopy c a → s.grp c < b
  /-- The live copies of a node are for different groups. -/
  inj : ∀ {a c c'}, s.LiveCopy c a → s.LiveCopy c' a → s.grp c = s.grp c' → c = c'
  /-- A live copy carries the name of its group. -/
  named : ∀ {a c n}, s.LiveCopy c a → s.heap c = some n →
    NamedFor cfg n.monitorId (s.grp c) n
  /-- So does the node a copy is about to be made of. -/
  naming : ∀ {g a i}, (s.sche g).naming = some (a, i) →
    ∃ n, s.heap a = some n ∧ NamedFor cfg g i n

/-- **The invariant of the reference counts.**  The three parts need one another: a counter is
right because the copies are where they belong, and the last decrement frees the original
because the counter is right. -/
structure Counts (cfg : Config) (s : State) : Prop where
  owned : Owned s.held s.heap s.next
  counted : Counted s.held s.heap
  dispatched : Dispatched cfg s

section Steps

variable {cfg : Config} {s s' : State}

/-- How far a scheduler may have moved, where no copy came to life. -/
theorem Dispatched.congr (h : Dispatched cfg s)
    (hlive : ∀ {c a}, s'.LiveCopy c a → s.LiveCopy c a)
    (hgrp : ∀ {c a}, s.LiveCopy c a → s'.grp c = s.grp c)
    (hnode : ∀ {c a n'}, s.LiveCopy c a → s'.heap c = some n' →
      ∃ n, s.heap c = some n ∧ n'.monitorId = n.monitorId ∧ n'.sgName = n.sgName)
    (hbound : ∀ {g a b'}, (s'.sche g).bound = some (a, b') →
      (∃ b, (s.sche g).bound = some (a, b) ∧ b ≤ b') ∨ ∀ c, ¬s.LiveCopy c a)
    (hnaming : ∀ {g a i}, (s'.sche g).naming = some (a, i) →
      ∃ n, s'.heap a = some n ∧ NamedFor cfg g i n) : Dispatched cfg s' where
  bound {g a b c} hb hl := by
    rcases hbound hb with ⟨b₀, hb₀, hle⟩ | hno
    · rw [hgrp (hlive hl)]
      exact (h.bound hb₀ (hlive hl)).trans_le hle
    · exact absurd (hlive hl) (hno c)
  inj hl hl' he := by
    rw [hgrp (hlive hl), hgrp (hlive hl')] at he
    exact h.inj (hlive hl) (hlive hl') he
  named {a c n} hl hn := by
    obtain ⟨n₀, hn₀, hid, hname⟩ := hnode (hlive hl) hn
    unfold NamedFor
    rw [hid, hname, hgrp (hlive hl)]
    exact h.named (hlive hl) hn₀
  naming := hnaming

namespace Counts

/-- The node in the hands of a scheduler. -/
theorem sche_node (h : Counts cfg s) {g : ℕ} {a : Addr} (ha : (s.sche g).node = some a) :
    ∃ n, s.heap a = some n ∧ IsOriginal g a n ∧ s.original a = some n := by
  obtain ⟨n, hn, hfit⟩ := h.owned.fits (State.mem_held_sche.mpr ha)
  have horig : IsOriginal g a n := hfit.original rfl
  refine ⟨n, hn, horig, ?_⟩
  rw [State.original, hn, Option.bind_some, horig.retainCount, hn]

/-- No two schedulers hold the same node. -/
theorem sche_unique (h : Counts cfg s) {g g' : ℕ} {a : Addr} (ha : (s.sche g).node = some a)
    (ha' : (s.sche g').node = some a) : g = g' := by
  cases h.owned.exclusive.unique (State.mem_held_sche.mpr ha) (State.mem_held_sche.mpr ha')
  rfl

/-- No two upload threads hold the same node. -/
theorem upload_unique (h : Counts cfg s) {t t' : ThreadId} {c : Addr}
    (hc : (s.upload t).node = some c) (hc' : (s.upload t').node = some c) : t = t' := by
  cases h.owned.exclusive.unique (State.mem_held_upload.mpr hc) (State.mem_held_upload.mpr hc')
  rfl

/-- The node in the hands of an upload thread, and its original. -/
theorem upload_node (h : Counts cfg s) {t : ThreadId} {c : Addr}
    (hc : (s.upload t).node = some c) :
    ∃ n o, s.heap c = some n ∧ n.copy = true ∧ s.LiveCopy c n.retainCount ∧
      s.heap n.retainCount = some o ∧ s.original c = some o ∧
      IsOriginal n.monitorId n.retainCount o := by
  have hheld : c ∈ s.held (.upload t) := State.mem_held_upload.mpr hc
  obtain ⟨n, hn, hfit⟩ := h.owned.fits hheld
  have hcopy : n.copy = true := hfit.copy rfl
  have hlive : s.LiveCopy c n.retainCount := by
    refine ⟨n, hn, hcopy, rfl, fun t' ht' => ?_⟩
    cases h.owned.exclusive.unique hheld ht'
  obtain ⟨o, ho, hoc, hoi⟩ := h.owned.original hlive hn
  refine ⟨n, o, hn, hcopy, hlive, ho, by rw [State.original, hn, Option.bind_some, ho], ?_⟩
  -- an original is at a place of its group
  obtain ⟨p, hp⟩ := h.owned.holder ho
  cases hg : p.group with
  | none => rw [h.owned.isCopy hp hg ho] at hoc; cases hoc
  | some g =>
    have horig := h.owned.isOriginal hp hg ho
    rw [← hoi, horig.monitorId]
    exact horig

/-- The invariant speaks of what is held, allocated and dispatched only. -/
theorem same (h : Counts cfg s) (hheld : s'.held = s.held) (hheap : s'.heap = s.heap)
    (hnext : s'.next = s.next) (hgrp : s'.grp = s.grp)
    (hsche : ∀ g, (s'.sche g).Within (s.sche g)) : Counts cfg s' where
  owned := by rw [hheld, hheap, hnext]; exact h.owned
  counted := by rw [hheld, hheap]; exact h.counted
  dispatched := by
    refine h.dispatched.congr (fun hl => ?_) (fun _ => by rw [hgrp])
      (fun {c a n'} _ hn' => ⟨n', hheap ▸ hn', rfl, rfl⟩)
      (fun hb => Or.inl ((hsche _).bound hb)) fun hn => ?_
    · rwa [State.LiveCopy, hheld, hheap] at hl
    · rw [hheap]
      exact h.dispatched.naming ((hsche _).naming hn)

/-- A node changes places. -/
theorem moved (h : Counts cfg s) {x : Addr} {p q : Place}
    (hm : Moved s.held s'.held x (some p) (some q)) (hp : q.group = p.group)
    (hr : ∀ t, p ≠ .released t) (hr' : ∀ t, q ≠ .released t) (hheap : s'.heap = s.heap)
    (hnext : s'.next = s.next) (hgrp : s'.grp = s.grp)
    (hsche : ∀ g, (s'.sche g).Within (s.sche g)) : Counts cfg s' := by
  have hlive : ∀ {c a}, s'.LiveCopy c a ↔ s.LiveCopy c a := fun {c a} => by
    rw [State.LiveCopy, hheap]
    exact liveCopy_move hm (fun t ht => hr t (Option.some.inj ht))
      fun t ht => hr' t (Option.some.inj ht)
  refine ⟨?_, ?_, ?_⟩
  · rw [hheap, hnext]
    exact h.owned.move hm hp hr
  · exact h.counted.congr (fun c a => hlive) fun {a n'} hn' hc => ⟨n', hheap ▸ hn', hc, rfl⟩
  · refine h.dispatched.congr hlive.mp (fun _ => by rw [hgrp])
      (fun {c a n'} _ hn' => ⟨n', hheap ▸ hn', rfl, rfl⟩)
      (fun hb => Or.inl ((hsche _).bound hb)) fun hn => ?_
    rw [hheap]
    exact h.dispatched.naming ((hsche _).naming hn)

/-- Nothing is allocated. -/
theorem of_empty (hheld : ∀ p, s.held p = []) (hheap : ∀ a, s.heap a = none)
    (hsche : ∀ g, s.sche g = .pop) : Counts cfg s where
  owned := by
    refine ⟨⟨fun p => by rw [hheld]; exact List.nodup_nil, fun {p _ a} ha => ?_⟩,
      fun {p a} ha => ?_, fun {a n} hn => ?_, fun {a n} hn => ?_, fun {c a n} _ hn => ?_⟩
    · rw [hheld] at ha; cases ha
    · rw [hheld] at ha; cases ha
    · rw [hheap] at hn; cases hn
    · rw [hheap] at hn; cases hn
    · rw [hheap] at hn; cases hn
  counted a n hn _ := by rw [hheap] at hn; cases hn
  dispatched := by
    have hno : ∀ {c a}, ¬s.LiveCopy c a := by
      rintro c a ⟨n, hn, -⟩
      rw [hheap] at hn
      cases hn
    refine ⟨fun hb _ => ?_, fun hl => absurd hl hno, fun hl => absurd hl hno, fun hn => ?_⟩
    · rw [hsche] at hb; cases hb
    · rw [hsche] at hn; cases hn

/-- Files, times, counters of servers and the history are not spoken of. -/
theorem frame (h : Counts cfg s) (hheap : s'.heap = s.heap) (hnext : s'.next = s.next)
    (hqueue : s'.queue = s.queue) (hsche : s'.sche = s.sche) (hup : s'.upload = s.upload)
    (hgrp : s'.grp = s.grp) : Counts cfg s' :=
  h.same (State.held_congr hqueue hsche hup) hheap hnext hgrp fun _ => hsche ▸ .refl _

/-- A scheduler moves and keeps its variables. -/
theorem setSche (h : Counts cfg s) {g : ℕ} {pc : SchePc}
    (hnew : pc.newnode = (s.sche g).newnode) (hnode : pc.node = (s.sche g).node)
    (hpc : pc.Within (s.sche g)) : Counts cfg (s.setSche g pc) :=
  h.same (State.held_setSche_same hnew hnode) rfl rfl rfl hpc.setSche

/-- An upload thread moves and keeps its variable. -/
theorem setUpload (h : Counts cfg s) {t : ThreadId} {pc : UploadPc}
    (hrel : pc.released = (s.upload t).released) (hnode : pc.node = (s.upload t).node) :
    Counts cfg (s.setUpload t pc) :=
  h.same (State.held_setUpload_same hrel hnode) rfl rfl rfl fun _ => .refl _

/-- A scheduler runs a program on the files. -/
theorem scheOs (h : Counts cfg s) {g : ℕ} {pc : SchePc} {α : Type} (sys : Sys) (x : Os α)
    (hnew : pc.newnode = (s.sche g).newnode) (hnode : pc.node = (s.sche g).node)
    (hpc : pc.Within (s.sche g)) : Counts cfg ((s.os sys x).2.setSche g pc) :=
  (h.setSche hnew hnode hpc).frame rfl rfl rfl rfl rfl rfl

/-- An upload thread runs a program on the files. -/
theorem uploadOs (h : Counts cfg s) {t : ThreadId} {pc : UploadPc} {α : Type} (sys : Sys)
    (x : Os α) (hrel : pc.released = (s.upload t).released)
    (hnode : pc.node = (s.upload t).node) : Counts cfg ((s.os sys x).2.setUpload t pc) :=
  (h.setUpload hrel hnode).frame rfl rfl rfl rfl rfl rfl

/-- The test of the counter: where it is zero, no copy is live. -/
theorem unretained (h : Counts cfg s) {g : ℕ} {a : Addr} (hpc : s.sche g = .retain a)
    (hret : s.queueNodeIsRetain a = some 0) : Counts cfg (s.setSche g (.source a)) := by
  obtain ⟨n, hn, horig, ho⟩ := h.sche_node (g := g) (by rw [hpc]; rfl)
  rw [State.queueNodeIsRetain, ho] at hret
  have hno := h.owned.no_liveCopy h.counted hn horig.copy (Option.some.inj hret)
  have hheld : (s.setSche g (.source a)).held = s.held :=
    State.held_setSche_same (by rw [hpc]; rfl) (by rw [hpc]; rfl)
  refine ⟨by rw [hheld]; exact h.owned, by rw [hheld]; exact h.counted, ?_⟩
  refine h.dispatched.congr (fun hl => by rwa [State.LiveCopy, hheld] at hl) (fun _ => rfl)
    (fun {c a n'} _ hn' => ⟨n', hn', rfl, rfl⟩) (fun {g' a' b'} hb => ?_)
    fun {g' a' i} hn' => ?_
  · by_cases hg : g' = g
    · rw [hg, State.sche_setSche_self] at hb
      cases hb
      exact Or.inr hno
    · rw [State.sche_setSche_of_ne _ _ _ hg] at hb
      exact Or.inl ⟨b', hb, le_rfl⟩
  · by_cases hg : g' = g
    · rw [hg, State.sche_setSche_self] at hn'
      cases hn'
    · rw [State.sche_setSche_of_ne _ _ _ hg] at hn'
      exact h.dispatched.naming hn'

theorem scheLocal (h : Counts cfg s) {g : ℕ} {mg : MonitorGroup} {pc pc' : SchePc}
    (hpc : s.sche g = pc) (hl : ScheLocal mg s pc pc') : Counts cfg (s.setSche g pc') := by
  by_cases hret : ∃ a, pc = .retain a ∧ pc' = .source a
  · obtain ⟨a, rfl, rfl⟩ := hret
    cases hl with
    | unretained hret => exact h.unretained hpc hret
  · refine h.setSche ?_ ?_ ?_ <;> rw [hpc]
    · cases hl <;> rfl
    · cases hl <;> rfl
    · cases hl with
      | unretained => exact absurd ⟨_, rfl, rfl⟩ hret
      | stop => exact .of_none rfl
      | retained => exact .of_none rfl
      | dispatched => exact .of_none rfl
      | scan => exact ⟨fun hb => ⟨_, hb, le_rfl⟩, fun hn => hn⟩
      | chosen => exact ⟨fun hb => ⟨_, hb, le_rfl⟩, fun hn => hn⟩
      | _ => exact ⟨fun hb => by cases hb; exact ⟨_, rfl, by omega⟩, fun hn => by cases hn⟩

theorem uploadLocal (h : Counts cfg s) {t : ThreadId} {pc pc' : UploadPc}
    (hpc : s.upload t = pc) (hl : UploadLocal s pc pc') : Counts cfg (s.setUpload t pc') := by
  refine h.setUpload ?_ ?_ <;> rw [hpc] <;> cases hl <;> rfl

/-! ### Moves -/

theorem schePop (h : Counts cfg s) {g : ℕ} {a : Addr} {as : List Addr} {n : ℤ}
    (hpc : s.sche g = .pop) (hq : s.queue (.sche g) = ⟨a :: as, n⟩) :
    Counts cfg (State.setSche { s with
      queue := Function.update s.queue (.sche g) ⟨as, n - 1⟩ } g (.retain a)) := by
  refine h.moved (x := a) (p := .queue (.sche g)) (q := .sche g) ?_ rfl (by simp) (by simp)
    rfl rfl rfl (SchePc.Within.setSche (.of_none rfl))
  rw [State.held_setSche (by rw [hpc]; rfl), State.held_queue]
  refine .of_update (by simp) ?_ ?_
  · rw [State.held, hq]
  · rw [State.held, hpc]; exact .refl _

theorem push (h : Counts cfg s) {g i v : ℕ} {a c : Addr} (hpc : s.sche g = .push a i v c) :
    Counts cfg ((s.queueNodePush (.srv v) c).setSche g (.dispatch a (i + 1))) := by
  have hw : (SchePc.dispatch a (i + 1)).Within (s.sche g) := by
    rw [hpc]
    exact ⟨fun hb => by cases hb; exact ⟨_, rfl, le_rfl⟩, fun hn => by cases hn⟩
  refine h.moved (x := c) (p := .new g) (q := .queue (.srv v)) ?_ rfl (by simp) (by simp)
    rfl rfl rfl (SchePc.Within.setSche hw)
  rw [State.held_setSche_of_node (by rw [State.queueNodePush, hpc]; rfl), State.queueNodePush,
    State.held_queue, Function.update_comm (by simp)]
  refine .of_update (by simp) ?_ ?_
  · rw [State.held, hpc]; exact .refl _
  · exact List.perm_append_singleton _ _

theorem requeue (h : Counts cfg s) {g : ℕ} {a : Addr} {n : FileQueue}
    (hpc : s.sche g = .requeue a) (hn : s.heap a = some n) :
    Counts cfg ((s.queueNodePush n.scheQueue a).setSche g .pop) := by
  obtain ⟨n', hn', horig, -⟩ := h.sche_node (g := g) (by rw [hpc]; rfl)
  cases hn'.symm.trans hn
  rw [horig.scheQueue]
  refine h.moved (x := a) (p := .sche g) (q := .queue (.sche g)) ?_ rfl (by simp) (by simp)
    rfl rfl rfl (SchePc.Within.setSche (.of_none rfl))
  rw [State.held_setSche (by rw [State.queueNodePush, hpc]; rfl), State.queueNodePush,
    State.held_queue, Function.update_comm (by simp)]
  refine .of_update (by simp) ?_ ?_
  · rw [State.held, hpc]; exact .refl _
  · exact List.perm_append_singleton _ _

theorem uploadPop (h : Counts cfg s) {t : ThreadId} {c : Addr} {cs : List Addr} {n : ℤ}
    (hpc : s.upload t = .pop) (hq : s.queue (.srv t.1) = ⟨c :: cs, n⟩) :
    Counts cfg (State.setUpload { s with
      queue := Function.update s.queue (.srv t.1) ⟨cs, n - 1⟩ } t (.avail c)) := by
  refine h.moved (x := c) (p := .queue (.srv t.1)) (q := .upload t) ?_ rfl (by simp) (by simp)
    rfl rfl rfl fun _ => .refl _
  rw [State.held_setUpload (by rw [hpc]; rfl), State.held_queue]
  refine .of_update (by simp) ?_ ?_
  · rw [State.held, hq]
  · rw [State.held, hpc]; exact .refl _

theorem uploadRequeue (h : Counts cfg s) {t : ThreadId} {c : Addr}
    (hpc : s.upload t = .requeue c) :
    Counts cfg ((s.queueNodePush (.srv t.1) c).setUpload t .pop) := by
  refine h.moved (x := c) (p := .upload t) (q := .queue (.srv t.1)) ?_ rfl (by simp) (by simp)
    rfl rfl rfl fun _ => .refl _
  rw [State.held_setUpload (by rw [State.queueNodePush, hpc]; rfl), State.queueNodePush,
    State.held_queue, Function.update_comm (by simp)]
  refine .of_update (by simp) ?_ ?_
  · rw [State.held, hpc]; exact .refl _
  · exact List.perm_append_singleton _ _

/-! ### Nodes -/

/-- `queue_node_add` makes an original without copies. -/
theorem queueNodeAdd (h : Counts cfg s) (g : ℕ) (m src : Path) :
    Counts cfg (s.queueNodeAdd g m src) := by
  set n : FileQueue := ⟨g, false, 0, s.next, m, src, none, .sche g⟩ with hn
  have hheld : (s.queueNodeAdd g m src).held =
      Function.update s.held (.queue (.sche g)) (s.held (.queue (.sche g)) ++ [s.next]) :=
    State.held_queue _ _ _
  have hheap : (s.queueNodeAdd g m src).heap = Function.update s.heap s.next (some n) := rfl
  have hm : Moved s.held (s.queueNodeAdd g m src).held s.next none
      (some (.queue (.sche g))) := by
    rw [hheld]
    exact .of_update_dst (List.perm_append_singleton _ _)
  -- a new node is no copy, and nobody has copied it
  have hlive : ∀ {c a}, (s.queueNodeAdd g m src).LiveCopy c a ↔ s.LiveCopy c a := fun {c a} => by
    rw [State.LiveCopy, liveCopy_move hm (by simp) (by simp), hheap,
      liveCopy_alloc h.owned.next_unallocated fun t => h.owned.next_unheld _]
    simp [hn]
  have hold : ∀ {a n'}, a ≠ s.next → (s.queueNodeAdd g m src).heap a = some n' →
      s.heap a = some n' := fun ha hn' => by rwa [hheap, Function.update_of_ne ha] at hn'
  have hne : ∀ {c a}, s.LiveCopy c a → c ≠ s.next := fun {c a} ⟨_, hc, _⟩ => (h.owned.fresh hc).ne
  refine ⟨h.owned.alloc hm ⟨rfl, rfl, rfl, rfl⟩ (by simp) (fun hc => by cases hc), ?_, ?_⟩
  · intro a n' hn' hc
    by_cases ha : a = s.next
    · -- the new node has no copies
      subst ha
      rw [hheap, Function.update_self] at hn'
      cases hn'
      have : liveCopies (s.queueNodeAdd g m src).held (s.queueNodeAdd g m src).heap s.next = ∅ := by
        refine Set.eq_empty_iff_forall_notMem.mpr fun c hc => ?_
        have hl := hlive.mp hc
        obtain ⟨n', hn', -⟩ := id hl
        obtain ⟨o, ho, -⟩ := h.owned.original hl hn'
        exact absurd (h.owned.fresh ho) (lt_irrefl _)
      rw [this, Set.ncard_empty]
      rfl
    · rw [h.counted a n' (hold ha hn') hc]
      congr 2
      exact Set.ext fun c => hlive.symm
  · refine h.dispatched.congr hlive.mp (fun _ => rfl)
      (fun {c a n'} hl hn' => ⟨n', hold (hne hl) hn', rfl, rfl⟩)
      (fun {_ _ b'} hb => Or.inl ⟨b', hb, le_rfl⟩) fun {g' a i} hn' => ?_
    obtain ⟨n', ha, hname⟩ := h.dispatched.naming hn'
    exact ⟨n', by rw [hheap, Function.update_of_ne (h.owned.fresh ha).ne, ha], hname⟩

/-- The scheduler writes the name of a server group into its node. -/
theorem choose (h : Counts cfg s) {g : ℕ} {mg : MonitorGroup} {a : Addr} {i : ℕ}
    {n : FileQueue} {sg : ServerGroupQueue} (hmg : cfg.groups[g]? = some mg)
    (hpc : s.sche g = .dispatch a i) (hn : s.heap a = some n)
    (hsg : mg.serverGroupList[i]? = some sg) :
    Counts cfg ((s.setNode a (some { n with sgName := some sg.primeName })).setSche g
      (.choose a i (Scan.start false))) := by
  set n' : FileQueue := { n with sgName := some sg.primeName } with hn'
  set s' := (s.setNode a (some n')).setSche g (.choose a i (Scan.start false)) with hs'
  have hheld : s'.held = s.held :=
    (State.held_setSche_same (by rw [State.setNode, hpc]; rfl)
      (by rw [State.setNode, hpc]; rfl)).trans (State.held_congr rfl rfl rfl)
  have hheap : s'.heap = Function.update s.heap a (some n') := rfl
  have hshape : SameShape s.heap s'.heap := .update hn rfl
  -- a name is written and no counter, so that the copies are the same ones
  have hlive : ∀ {c b}, s'.LiveCopy c b ↔ s.LiveCopy c b := fun {c b} => by
    rw [State.LiveCopy, hheld]
    exact liveCopy_reshape hshape
  obtain ⟨m, hm, horig, -⟩ := h.sche_node (g := g) (by rw [hpc]; rfl)
  cases hm.symm.trans hn
  have hcopy : ∀ {c b}, s.LiveCopy c b → c ≠ a := by
    rintro c b ⟨k, hk, hkc, -⟩ rfl
    cases hk.symm.trans hn
    rw [horig.copy] at hkc
    cases hkc
  refine ⟨by rw [hheld]; exact h.owned.reshape hshape, ?_, ?_⟩
  · refine h.counted.congr (fun c b => hlive) fun {b k} hk hkc => ?_
    by_cases hb : b = a
    · subst hb
      rw [hheap, Function.update_self] at hk
      cases hk
      exact ⟨n, hn, hkc, rfl⟩
    · rw [hheap, Function.update_of_ne hb] at hk
      exact ⟨k, hk, hkc, rfl⟩
  · refine h.dispatched.congr hlive.mp (fun _ => rfl) (fun {c b k} hl hk => ?_)
      (fun {g' b b'} hb => Or.inl ?_) fun {g' b j} hb => ?_
    · rw [hheap, Function.update_of_ne (hcopy hl)] at hk
      exact ⟨k, hk, rfl, rfl⟩
    · by_cases hg : g' = g
      · rw [hg, hs', State.sche_setSche_self] at hb
        cases hb
        exact ⟨i, by rw [hg, hpc]; rfl, le_rfl⟩
      · rw [hs', State.sche_setSche_of_ne _ _ _ hg] at hb
        exact ⟨b', hb, le_rfl⟩
    · by_cases hg : g' = g
      · rw [hg, hs', State.sche_setSche_self] at hb
        cases hb
        exact ⟨n', by rw [hheap, Function.update_self], mg, sg, hg ▸ hmg, hsg, rfl⟩
      · -- another scheduler holds another node
        rw [hs', State.sche_setSche_of_ne _ _ _ hg] at hb
        obtain ⟨k, hk, hname⟩ := h.dispatched.naming hb
        have hba : b ≠ a := by
          rintro rfl
          refine hg (h.sche_unique ?_ (by rw [hpc]; rfl))
          exact SchePc.node_of_bound (SchePc.bound_of_naming hb)
        exact ⟨k, by rw [hheap, Function.update_of_ne hba, hk], hname⟩

/-- **A copy comes to life**, and is counted. -/
theorem copy (h : Counts cfg s) {g i v : ℕ} {a c : Addr} (hpc : s.sche g = .copy a i v)
    (hcopy : s.queueNodeCopy a i = some (c, s')) :
    Counts cfg (s'.setSche g (.push a i v c)) := by
  obtain ⟨n, hn, horig, -⟩ := h.sche_node (g := g) (by rw [hpc]; rfl)
  have hane : a ≠ s.next := (h.owned.fresh hn).ne
  obtain ⟨rfl, rfl⟩ := queueNodeCopy_eq_some hn horig.retainCount hane hcopy
  set heap₁ := Function.update s.heap s.next (some { n with copy := true }) with hheap₁
  set s₁ : State := State.setSche _ g (.push a i v s.next) with hs₁
  have hheld : s₁.held = Function.update s.held (.new g) [s.next] :=
    (State.held_setSche_of_node (by rw [hpc]; rfl)).trans
      (congrArg (Function.update · _ _) (State.held_congr rfl rfl rfl))
  have hheap : s₁.heap = Function.update heap₁ a (some { n with reCountS := n.reCountS + 1 }) := rfl
  have ha₁ : heap₁ a = some n := by rw [hheap₁, Function.update_of_ne hane, hn]
  have hm : Moved s.held s₁.held s.next none (some (.new g)) := by
    rw [hheld]
    refine .of_update_dst ?_
    rw [State.held, hpc]
    exact .refl _
  have hshape : SameShape heap₁ s₁.heap := .update ha₁ rfl
  -- one live copy more, of the node that is dispatched
  have hlive : ∀ {c b}, s₁.LiveCopy c b ↔ s.LiveCopy c b ∨ (c = s.next ∧ b = a) := fun {c b} => by
    rw [State.LiveCopy, liveCopy_reshape hshape, liveCopy_move hm (by simp) (by simp), hheap₁,
      liveCopy_alloc h.owned.next_unallocated fun t => h.owned.next_unheld _]
    simp [horig.retainCount, eq_comm]
  have hne : ∀ {c b}, s.LiveCopy c b → c ≠ s.next := fun {c b} ⟨_, hc, _⟩ => (h.owned.fresh hc).ne
  have hgrp : ∀ {c b}, s.LiveCopy c b → s₁.grp c = s.grp c := fun hl =>
    Function.update_of_ne (hne hl) ..
  have hgrp' : s₁.grp s.next = i := Function.update_self ..
  have hbefore : ∀ {c}, s.LiveCopy c a → s.grp c < i := fun hl =>
    h.dispatched.bound (g := g) (by rw [hpc]; rfl) hl
  -- who owns what, the counters, and for whom copies have been made
  refine ⟨?_, ?_, ?_⟩
  · refine (h.owned.alloc (n := { n with copy := true }) hm (by rfl) (by simp)
      fun _ => ?_).reshape hshape
    exact ⟨n, by rw [horig.retainCount, hn], horig.copy, rfl⟩
  · intro b m hm' hc
    by_cases hb : b = a
    · -- the node that was copied
      subst hb
      rw [hheap, Function.update_self] at hm'
      cases hm'
      have hset : liveCopies s₁.held s₁.heap b = insert s.next (liveCopies s.held s.heap b) :=
        Set.ext fun c => by
          refine hlive.trans ⟨fun hl => ?_, fun hl => ?_⟩
          · exact hl.elim Or.inr fun hl => Or.inl hl.1
          · exact hl.elim (fun hl => Or.inr ⟨hl, rfl⟩) Or.inl
      have hnew : s.next ∉ liveCopies s.held s.heap b := fun hl => hne hl rfl
      rw [hset, Set.ncard_insert_of_notMem hnew (h.owned.finite_liveCopies b),
        h.counted b n hn horig.copy]
      push_cast
      rfl
    · by_cases hbn : b = s.next
      · subst hbn
        rw [hheap, Function.update_of_ne hb, hheap₁, Function.update_self] at hm'
        cases hm'
        cases hc
      · rw [hheap, Function.update_of_ne hb, hheap₁, Function.update_of_ne hbn] at hm'
        rw [h.counted b m hm' hc]
        congr 2
        refine Set.ext fun c => ?_
        exact (hlive.trans (or_iff_left fun hl => hb hl.2)).symm
  · refine ⟨fun {g' b b' c} hb hl => ?_, fun {b c c'} hl hl' he => ?_, fun {b c m} hl hm' => ?_,
      fun {g' b j} hnm => ?_⟩
    · by_cases hg : g' = g
      · rw [hg, hs₁, State.sche_setSche_self] at hb
        cases hb
        rcases hlive.mp hl with hl | ⟨rfl, -⟩
        · rw [hgrp hl]
          exact Nat.lt_succ_of_lt (hbefore hl)
        · rw [hgrp']
          exact Nat.lt_succ_self i
      · rw [hs₁, State.sche_setSche_of_ne _ _ _ hg] at hb
        rcases hlive.mp hl with hl | ⟨rfl, rfl⟩
        · rw [hgrp hl]
          exact h.dispatched.bound hb hl
        · exact absurd (h.sche_unique (SchePc.node_of_bound hb) (by rw [hpc]; rfl)) hg
    · rcases hlive.mp hl with hold | ⟨rfl, hba⟩
      · rcases hlive.mp hl' with hold' | ⟨rfl, hba⟩
        · rw [hgrp hold, hgrp hold'] at he
          exact h.dispatched.inj hold hold' he
        · rw [hgrp hold, hgrp'] at he
          exact absurd he (hbefore (hba ▸ hold)).ne
      · rcases hlive.mp hl' with hold' | ⟨rfl, -⟩
        · rw [hgrp hold', hgrp'] at he
          exact absurd he.symm (hbefore (hba ▸ hold')).ne
        · rfl
    · rcases hlive.mp hl with hl | ⟨rfl, rfl⟩
      · have hcb : c ≠ a := by
          obtain ⟨k, hk, hkc, -⟩ := hl
          rintro rfl
          cases hk.symm.trans hn
          rw [horig.copy] at hkc
          cases hkc
        rw [hheap, Function.update_of_ne hcb, hheap₁, Function.update_of_ne (hne hl)] at hm'
        rw [hgrp hl]
        exact h.dispatched.named hl hm'
      · -- the new copy has the name the node was given
        rw [hheap, Function.update_of_ne hane.symm, hheap₁, Function.update_self] at hm'
        cases hm'
        rw [hgrp']
        obtain ⟨m, hm', hname⟩ := h.dispatched.naming (g := g) (a := b) (i := i) (by rw [hpc]; rfl)
        cases hm'.symm.trans hn
        show NamedFor cfg n.monitorId i _
        rw [horig.monitorId]
        exact hname
    · by_cases hg : g' = g
      · rw [hg, hs₁, State.sche_setSche_self] at hnm
        cases hnm
      · rw [hs₁, State.sche_setSche_of_ne _ _ _ hg] at hnm
        obtain ⟨k, hk, hname⟩ := h.dispatched.naming hnm
        have hba : b ≠ a := by
          rintro rfl
          refine hg (h.sche_unique ?_ (by rw [hpc]; rfl))
          exact SchePc.node_of_bound (SchePc.bound_of_naming hnm)
        refine ⟨k, ?_, hname⟩
        rw [hheap, Function.update_of_ne hba, hheap₁,
          Function.update_of_ne (h.owned.fresh hk).ne, hk]

/-- **A copy is counted down**, and is not live any more. -/
theorem release (h : Counts cfg s) {t : ThreadId} {c : Addr} {n : FileQueue}
    (hpc : s.upload t = .release c) (hn : s.heap c = some n) (hs' : s.dropRetain n = some s') :
    Counts cfg (s'.setUpload t (.free c)) := by
  obtain ⟨n', o, hn', hcopy, hlc, ho, -, horig⟩ :=
    h.upload_node (t := t) (c := c) (by rw [hpc]; rfl)
  cases hn'.symm.trans hn
  rw [State.dropRetain, if_pos hcopy] at hs'
  obtain ⟨o', ho', rfl⟩ := addRetain_eq_some hs'
  cases ho'.symm.trans ho
  set s₁ : State := State.setUpload _ t (.free c) with hs₁
  have hheld : s₁.held =
      Function.update (Function.update s.held (.upload t) []) (.released t) [c] :=
    State.held_setUpload_release
  have hheap : s₁.heap = Function.update s.heap n.retainCount
      (some { o with reCountS := o.reCountS + -1 }) := rfl
  have hm : Moved s.held s₁.held c (some (.upload t)) (some (.released t)) := by
    rw [hheld]
    refine .of_update (by simp) ?_ ?_
    · rw [State.held, hpc]; exact .refl _
    · rw [State.held, hpc]; exact .refl _
  have hshape : SameShape s.heap s₁.heap := .update ho rfl
  -- one live copy less: its thread has it still, but it counts no longer
  have hlive : ∀ {x b}, s₁.LiveCopy x b ↔ s.LiveCopy x b ∧ x ≠ c := fun {x b} => by
    rw [State.LiveCopy, liveCopy_reshape hshape, liveCopy_release hm]
  refine ⟨(h.owned.move hm rfl (by simp)).reshape hshape, ?_, ?_⟩
  · intro b m hm' hc
    by_cases hb : b = n.retainCount
    · -- the original of the copy
      subst hb
      rw [hheap, Function.update_self] at hm'
      cases hm'
      have hset : liveCopies s₁.held s₁.heap n.retainCount =
          liveCopies s.held s.heap n.retainCount \ {c} := Set.ext fun x => hlive
      have hpos := Set.ncard_sdiff_singleton_add_one (s := liveCopies s.held s.heap n.retainCount)
        hlc (h.owned.finite_liveCopies _)
      rw [hset]
      show o.reCountS + -1 = _
      rw [h.counted _ o ho horig.copy]
      omega
    · rw [hheap, Function.update_of_ne hb] at hm'
      rw [h.counted b m hm' hc]
      congr 2
      refine Set.ext fun x => (hlive.trans (and_iff_left_of_imp fun hl hx => hb ?_)).symm
      obtain ⟨k, hk, -, hr, -⟩ := hl
      rw [hx] at hk
      cases hk.symm.trans hn
      exact hr.symm
  · refine h.dispatched.congr (fun hl => (hlive.mp hl).1) (fun _ => rfl)
      (fun {x b k} hl hk => ?_) (fun {_ _ b'} hb => Or.inl ⟨b', hb, le_rfl⟩) fun {g b j} hnm => ?_
    · obtain ⟨k₀, hk₀, hkc, -⟩ := hl
      have hx : x ≠ n.retainCount := by
        rintro rfl
        cases hk₀.symm.trans ho
        rw [horig.copy] at hkc
        cases hkc
      rw [hheap, Function.update_of_ne hx] at hk
      exact ⟨k, hk, rfl, rfl⟩
    · obtain ⟨k, hk, hname⟩ := h.dispatched.naming hnm
      by_cases hb : b = n.retainCount
      · subst hb
        cases hk.symm.trans ho
        exact ⟨{ o with reCountS := o.reCountS + -1 }, by rw [hheap, Function.update_self], hname⟩
      · exact ⟨k, by rw [hheap, Function.update_of_ne hb, hk], hname⟩

/-- **A node without live copies is freed.** -/
theorem setNode_none (h : Counts cfg s) {x : Addr} {p : Place}
    (hm : Moved s.held s'.held x (some p) none) (hheap : s'.heap = Function.update s.heap x none)
    (hnext : s'.next = s.next) (hgrp : s'.grp = s.grp) (hno : ∀ c, ¬s.LiveCopy c x)
    (hx : ∀ a, ¬s.LiveCopy x a)
    (hsche : ∀ g, (s'.sche g).Within (s.sche g))
    (hnaming : ∀ g i, (s'.sche g).naming ≠ some (x, i)) : Counts cfg s' := by
  -- the node that is gone was no live copy, so that all of them are left
  have hlive : ∀ {c a}, s'.LiveCopy c a ↔ s.LiveCopy c a := by
    intro c a
    rw [State.LiveCopy, hheap, liveCopy_free]
    constructor
    · rintro ⟨⟨n, hn, hc, hr, hrel⟩, hne⟩
      exact ⟨n, hn, hc, hr, fun t ht => hrel t ((hm.mem_iff_of_ne hne).mpr ht)⟩
    · intro hl
      have hne : c ≠ x := fun hc => hx a (hc ▸ hl)
      obtain ⟨n, hn, hc, hr, hrel⟩ := hl
      exact ⟨⟨n, hn, hc, hr, fun t ht => hrel t ((hm.mem_iff_of_ne hne).mp ht)⟩, hne⟩
  have hold : ∀ {a n}, s'.heap a = some n → s.heap a = some n := by
    intro a n hn
    by_cases ha : a = x
    · rw [hheap, ha, Function.update_self] at hn
      cases hn
    · rwa [hheap, Function.update_of_ne ha] at hn
  refine ⟨?_, ?_, ?_⟩
  · rw [hheap, hnext]
    exact h.owned.free hm hno
  · exact h.counted.congr (fun c a => hlive) fun {a n} hn hc => ⟨n, hold hn, hc, rfl⟩
  · refine h.dispatched.congr hlive.mp (fun _ => by rw [hgrp])
      (fun {c a n} _ hn => ⟨n, hold hn, rfl, rfl⟩) (fun hb => Or.inl ((hsche _).bound hb))
      fun {g a i} hnm => ?_
    obtain ⟨n, hn, hname⟩ := h.dispatched.naming ((hsche g).naming hnm)
    have ha : a ≠ x := fun ha => hnaming g i (ha ▸ hnm)
    exact ⟨n, by rw [hheap, Function.update_of_ne ha, hn], hname⟩

/-- An upload thread frees the copy it has counted down. -/
theorem free (h : Counts cfg s) {t : ThreadId} {c : Addr} (hpc : s.upload t = .free c) :
    Counts cfg ((s.setNode c none).setUpload t .pop) := by
  have hc : c ∈ s.held (.released t) := by
    rw [State.held, hpc]
    exact List.mem_singleton_self c
  obtain ⟨n, hn, hfit⟩ := h.owned.fits hc
  refine h.setNode_none (x := c) (p := .released t) ?_ rfl rfl rfl (fun x hl => ?_)
    (fun a hl => ?_) (fun _ => .refl _) fun g i hnm => ?_
  · rw [State.held_setUpload_free (by rw [State.setNode, hpc]; rfl)]
    refine .of_update_src ?_
    rw [State.held_congr rfl rfl rfl, State.held, hpc]
    exact .refl _
  · obtain ⟨k, hk, -⟩ := id hl
    obtain ⟨o, ho, hoc, -⟩ := h.owned.original hl hk
    cases ho.symm.trans hn
    rw [hfit.copy rfl] at hoc
    cases hoc
  · obtain ⟨-, -, -, -, hrel⟩ := hl
    exact hrel t hc
  · have hs : c ∈ s.held (.sche g) :=
      State.mem_held_sche.mpr (SchePc.node_of_bound (SchePc.bound_of_naming hnm))
    cases h.owned.exclusive.unique hc hs

/-- A scheduler frees its node, which has no live copies then. -/
theorem scheFree (h : Counts cfg s) {g : ℕ} {a : Addr} {pc : SchePc} (hpc : s.sche g = pc)
    (hf : ScheFree a pc) (hfree : s.queueNodeFree a = some s') :
    Counts cfg (s'.setSche g .pop) := by
  have hb : (s.sche g).bound = some (a, 0) := by rw [hpc]; cases hf <;> rfl
  have hnode : (s.sche g).node = some a := SchePc.node_of_bound hb
  have hnew : (s.sche g).newnode = none := by rw [hpc]; cases hf <;> rfl
  obtain ⟨n, hn, horig, -⟩ := h.sche_node hnode
  simp only [State.queueNodeFree, Option.bind_eq_bind, Option.bind_eq_some_iff] at hfree
  obtain ⟨m, hm, s₁, hs₁, hs'⟩ := hfree
  cases hm.symm.trans hn
  rw [State.dropRetain, horig.copy, if_neg Bool.false_ne_true] at hs₁
  cases hs₁
  cases hs'
  have hpop : SchePc.pop.Within ((s.setNode a none).sche g) := .of_none rfl
  have hwithin := hpop.setSche
  -- no copy is live: they are counted by their groups, and none was dispatched in this pass
  refine h.setNode_none (x := a) (p := .sche g) ?_ rfl rfl rfl (fun c hl => ?_)
    (fun b hl => ?_) hwithin fun g' i hnm => ?_
  · rw [State.held_setSche (by rw [State.setNode, hnew]; rfl)]
    refine .of_update_src ?_
    rw [State.held, hnode]
    exact .refl _
  · exact absurd (h.dispatched.bound hb hl) (Nat.not_lt_zero _)
  · obtain ⟨k, hk, hkc, -⟩ := hl
    cases hk.symm.trans hn
    rw [horig.copy] at hkc
    cases hkc
  · by_cases hg : g' = g
    · rw [hg, State.sche_setSche_self] at hnm
      cases hnm
    · rw [State.sche_setSche_of_ne _ _ _ hg] at hnm
      exact hg (h.sche_unique (SchePc.node_of_bound (SchePc.bound_of_naming hnm)) hnode)

/-! ### All steps -/

/-- **Every step keeps the invariant.** -/
theorem step (h : Counts cfg s) {act : Act} (hs : Step cfg s act s') : Counts cfg s' := by
  cases hs with
  | produce => exact h.frame rfl rfl rfl rfl rfl rfl
  | unproduce => exact h.frame rfl rfl rfl rfl rfl rfl
  | monitor => exact h.queueNodeAdd _ _ _
  | tick => exact h.frame rfl rfl rfl rfl rfl rfl
  | signal => exact h.frame rfl rfl rfl rfl rfl rfl
  | kill => exact .of_empty (fun p => by cases p <;> rfl) (fun _ => rfl) fun _ => rfl
  | scheIdle => exact h
  | schePop hpc hq => exact h.schePop hpc hq
  | scheLocal _ hpc hl => exact (h.scheLocal hpc hl).frame rfl rfl rfl rfl rfl rfl
  | createFlag _ hpc _ _ =>
    exact h.scheOs _ _ (by rw [hpc]; rfl) (by rw [hpc]; rfl)
      (by rw [hpc]; exact ⟨fun hb => ⟨_, hb, le_rfl⟩, fun hn => hn⟩)
  | createMarker _ hpc _ _ =>
    exact h.scheOs _ _ (by rw [hpc]; rfl) (by rw [hpc]; rfl)
      (by rw [hpc]; exact ⟨fun hb => ⟨_, hb, le_rfl⟩, fun hn => hn⟩)
  | finishOs hpc _ =>
    exact h.scheOs _ _ (by rw [hpc]; rfl) (by rw [hpc]; rfl)
      (by rw [hpc]; exact ⟨fun hb => ⟨_, hb, le_rfl⟩, fun hn => hn⟩)
  | scheFree hpc hf hfree => exact h.scheFree hpc hf hfree
  | choose hmg hpc hn _ hsg _ => exact h.choose hmg hpc hn hsg
  | copy hpc hcopy => exact h.copy hpc hcopy
  | push hpc => exact h.push hpc
  | requeue hpc hn => exact h.requeue hpc hn
  | uploadIdle => exact h
  | uploadPop hpc hq => exact h.uploadPop hpc hq
  | uploadLocal hpc hl => exact (h.uploadLocal hpc hl).frame rfl rfl rfl rfl rfl rfl
  | library hpc _ _ =>
    refine (h.setUpload ?_ ?_).frame rfl rfl rfl rfl rfl rfl <;> rw [hpc] <;> split <;> rfl
  | deleteSrc hpc _ => exact h.uploadOs _ _ (by rw [hpc]; rfl) (by rw [hpc]; rfl)
  | deleteFlag hpc _ _ _ _ => exact h.uploadOs _ _ (by rw [hpc]; rfl) (by rw [hpc]; rfl)
  | uploadRequeue hpc => exact h.uploadRequeue hpc
  | release hpc hn hs' => exact h.release hpc hn hs'
  | free hpc => exact h.free hpc

/-- **The invariant holds in every reachable state.** -/
theorem reach {disk : Fs} {G : State → Act → Prop} (h : (daemon cfg disk).Reach G s) :
    Counts cfg s := by
  refine h.invariant ?_ fun _ _ _ _ h _ hs => h.step (step_cases hs)
  rintro _ ⟨time, rfl⟩
  exact .of_empty (fun p => by cases p <;> rfl) (fun _ => rfl) fun _ => rfl

end Counts

end Steps

/-! ### Exact counts -/

/-- A server with one thread. -/
def sampleServer (index : ℕ) (name : CString) : RealServer := ⟨index, name, 1, 60, 1⟩

/-- The given servers and monitor groups, without a limit on the uploads. -/
def configOf (servers : List RealServer) (groups : List MonitorGroup)
    (h : ServersFound servers groups) : Config where
  servers := servers
  groups := groups
  found := h
  maxUploadNum := 0
  date := fun _ => "d".toList

/-- One monitor group with the server `s`. -/
def sampleConfig : Config :=
  configOf [sampleServer 0 "s".toList] [moveGroup .cut] (by decide)

/-- A disk with the file `/d/a` and its monitor file `/d/a.c`. -/
def sampleDisk : Fs := sampleFs [("/d/a.c".toList, []), ("/d/a".toList, [1])]

/-- **Reference counts are exact and originals outlive their copies.**  In every
reachable state the counter of an original is the number of its live copies; each of
these is in the queue of a server or in the hands of a thread, and its original is
allocated.  Schedulers free originals without live copies, and upload threads free
copies. -/
theorem counts_exact {cfg : Config} {disk : Fs} {s : State}
    (h : (daemon cfg disk).Reach (fun _ _ => True) s) :
    (∀ a n, s.heap a = some n → n.copy = false →
      {c | s.LiveCopy c a}.Finite ∧ n.reCountS = ({c | s.LiveCopy c a}.ncard : ℤ)) ∧
    (∀ c a, s.LiveCopy c a →
      ((∃ v, c ∈ (s.queue (.srv v)).head) ∨ (∃ g, (s.sche g).newnode = some c) ∨
        ∃ t, (s.upload t).node = some c) ∧
      ∃ o, s.heap a = some o ∧ o.copy = false) ∧
    (∀ g a, ScheFree a (s.sche g) →
      ∃ n, s.heap a = some n ∧ n.copy = false ∧ n.reCountS = 0 ∧ ∀ c, ¬s.LiveCopy c a) ∧
    ∀ t c, s.upload t = .release c → ∃ n, s.heap c = some n ∧ n.copy = true := by
  have hc : Counts cfg s := .reach h
  -- all of it is in the invariant; the holder of a copy is read off its place
  refine ⟨fun a n hn hcopy => ⟨hc.owned.finite_liveCopies a, hc.counted a n hn hcopy⟩,
    fun c a hl => ⟨?_, ?_⟩, fun g a hf => ?_, fun t c ht => ?_⟩
  · obtain ⟨n, hn, hcopy, -, hrel⟩ := hl
    obtain ⟨p, hp⟩ := hc.owned.holder hn
    have hnot : ∀ g, p.group ≠ some g := fun g hg => by
      rw [(hc.owned.isOriginal hp hg hn).copy] at hcopy
      cases hcopy
    cases p with
    | queue q =>
      cases q with
      | sche g => exact absurd rfl (hnot g)
      | srv v => exact Or.inl ⟨v, hp⟩
    | sche g => exact absurd rfl (hnot g)
    | new g => exact Or.inr (Or.inl ⟨g, by simpa [State.held] using hp⟩)
    | upload t => exact Or.inr (Or.inr ⟨t, by simpa [State.held] using hp⟩)
    | released t => exact absurd hp (hrel t)
  · obtain ⟨n, hn, -⟩ := id hl
    obtain ⟨o, ho, hoc, -⟩ := hc.owned.original hl hn
    exact ⟨o, ho, hoc⟩
  · have hb : (s.sche g).bound = some (a, 0) := by
      generalize s.sche g = pc at hf
      cases hf <;> rfl
    obtain ⟨n, hn, horig, -⟩ := hc.sche_node (SchePc.node_of_bound hb)
    have hno : ∀ c, ¬s.LiveCopy c a := fun c hl =>
      absurd (hc.dispatched.bound hb hl) (Nat.not_lt_zero _)
    refine ⟨n, hn, horig.copy, ?_, hno⟩
    rw [hc.counted a n hn horig.copy, show liveCopies s.held s.heap a = ∅ from
      Set.eq_empty_iff_forall_notMem.mpr hno, Set.ncard_empty]
    rfl
  · obtain ⟨n, -, hn, hcopy, -⟩ := hc.upload_node (t := t) (c := c) (by rw [ht]; rfl)
    exact ⟨n, hn, hcopy⟩

/-- The theorem at a state with a live copy in a queue. -/
theorem counts_exact_queued :
    ∃ s, (daemon sampleConfig sampleDisk).exec (.boot sampleDisk 0)
        (.monitor 0 "/d/a.c".toList :: List.replicate 13 (.sche 0 [])) = some s ∧
      (s.queue (.srv 0)).head = [1] ∧ {c | s.LiveCopy c 0}.ncard = 1 := by
  have hrun : ((daemon sampleConfig sampleDisk).exec (.boot sampleDisk 0)
      (.monitor 0 "/d/a.c".toList :: List.replicate 13 (.sche 0 []))).map
        (fun s => ((s.queue (.srv 0)).head, (s.heap 0).map fun n => (n.copy, n.reCountS))) =
      some ([1], some (false, 1)) := by decide +kernel
  obtain ⟨s, hs, he⟩ := Option.map_eq_some_iff.mp hrun
  obtain ⟨hq, hn⟩ := Prod.ext_iff.mp he
  obtain ⟨n, hn, he⟩ := Option.map_eq_some_iff.mp hn
  obtain ⟨hcopy, hcount⟩ := Prod.ext_iff.mp he
  have hreach := System.Reach.of_exec (S := daemon _ _) (G := fun _ _ => True)
    (g := fun _ _ => true) (fun _ _ _ _ => trivial) (.start ⟨0, rfl⟩) (by decide +kernel) hs
  have hexact := ((counts_exact hreach).1 0 n hn hcopy).2
  rw [show n.reCountS = 1 from hcount] at hexact
  exact ⟨s, hs, hq, by exact_mod_cast hexact.symm⟩

end Newiup
