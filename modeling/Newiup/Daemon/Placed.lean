import Newiup.Daemon.Choice
import Newiup.Daemon.Marked

/-!
# Every node has its place

Each branch of the threads pushes, frees or keeps the node it popped.  What is allocated
is therefore always at one place, nothing is freed twice, and `newiup_exit` finds what is
left in the queues.

## Main definitions

* `QueueStep`, `HeapStep` — what a step does to the queues and to the allocations.
* `SchePc.Fit`, `Linked` — where the threads may stand, and what the queues hold.
* `Account`, `accounts` — the daemon, with the nodes its process has freed.
* `newiupExit` — `newiup_exit`, as far as nodes go.

## Main results

* `Linked.step`, `Tallied.step` — **every step keeps queues and allocations in order.**
* `step_isSome` — no thread meets a node that was freed.
* `newiupExit_frees` — `newiup_exit` frees all that is left.
* `nodes_accounted` — **no node is lost, duplicated or freed twice.**
-/

namespace Newiup

/-! ### What a step does to the queues -/

/-- The queue belongs to a monitor group or to a server. -/
def Config.HasQueue (cfg : Config) : QueueId → Prop
  | .sche g => g < cfg.groups.length
  | .srv v => v < cfg.servers.length

theorem State.queue_queueNodePush (s : State) (q : QueueId) (a : Addr) :
    (s.queueNodePush q a).queue =
      Function.update s.queue q ⟨(s.queue q).head ++ [a], (s.queue q).size + 1⟩ := rfl

/-- What a step does to the queues.  All the other steps leave the queues as they are; `reset`
is the end of a process, after which the next one starts with empty queues. -/
inductive QueueStep (cfg : Config) (s s' : State) : Prop
  | keeps (h : s'.queue = s.queue)
  | push {q : QueueId} {a : Addr} (hq : cfg.HasQueue q)
      (h : s'.queue = (s.queueNodePush q a).queue)
  | pop {q : QueueId} {a : Addr} {as : List Addr} {n : ℤ} (hq : s.queue q = ⟨a :: as, n⟩)
      (h : s'.queue = Function.update s.queue q ⟨as, n - 1⟩)
  | reset (h : s'.queue = fun _ => ⟨[], 0⟩)

/-- Where the scheduler of a monitor group may stand: at a server group it has, at a server
in the list it scans, and with a server that is configured. -/
def SchePc.Fit (cfg : Config) (mg : MonitorGroup) : SchePc → Prop
  | .choose _ i c => ∃ sg, mg.serverGroupList[i]? = some sg ∧
      (c.stage ≠ .avail → ∃ rs, (sg.scanned c.back)[c.k]? = some (some rs)) ∧
      ∀ v, c.reQueue = some v → v < cfg.servers.length
  | .copy _ _ v => v < cfg.servers.length
  | .push _ _ v _ => v < cfg.servers.length
  | _ => True

/-- **The queues are in order**: their sizes are right, only configured ones are used, and
only configured threads run. -/
structure Linked (cfg : Config) (s : State) : Prop where
  /-- `size` is the number of nodes that are linked. -/
  size : ∀ q, (s.queue q).size = (s.queue q).head.length
  /-- A queue with nodes is one of the configuration. -/
  queue : ∀ q, (s.queue q).head ≠ [] → cfg.HasQueue q
  /-- A scheduler that runs belongs to a group that is enabled. -/
  sche : ∀ g, s.sche g ≠ .pop →
    ∃ mg, cfg.groups[g]? = some mg ∧ mg.enable = true ∧ (s.sche g).Fit cfg mg
  /-- An upload thread that runs is one of a server. -/
  upload : ∀ t, s.upload t ≠ .pop → ∃ rs, cfg.servers[t.1]? = some rs ∧ t.2 < rs.threadNum

section Steps

variable {cfg : Config} {s s' : State}

theorem step_sche {g : ℕ} {sys : Sys} (h : step cfg s (.sche g sys) = some s') :
    ∃ mg, cfg.groups[g]? = some mg ∧ mg.enable = true ∧ scheStep cfg mg g sys s = some s' := by
  simp only [step, Option.bind_eq_bind, Option.bind_eq_some_iff] at h
  obtain ⟨mg, hmg, h⟩ := h
  split at h
  · next he => exact ⟨mg, hmg, he, h⟩
  · cases h

theorem step_upload {t : ThreadId} {ret : ℤ} {sys : Sys}
    (h : step cfg s (.upload t ret sys) = some s') :
    ∃ rs, cfg.servers[t.1]? = some rs ∧ t.2 < rs.threadNum ∧
      uploadStep cfg rs t ret sys s = some s' := by
  simp only [step, Option.bind_eq_bind, Option.bind_eq_some_iff] at h
  obtain ⟨rs, hrs, h⟩ := h
  split at h
  · next ht => exact ⟨rs, hrs, ht, h⟩
  · cases h

/-- A server that is scanned is configured. -/
theorem scanned_lt {g i k : ℕ} {mg : MonitorGroup} {sg : ServerGroupQueue} {back : Bool}
    {rs : RealServer} (hmg : cfg.groups[g]? = some mg) (hsg : mg.serverGroupList[i]? = some sg)
    (hrs : (sg.scanned back)[k]? = some (some rs)) : rs.index < cfg.servers.length := by
  have hmem : some rs ∈ sg.scanned back := List.mem_of_getElem? hrs
  have hserver : rs ∈ sg.servers := by
    unfold ServerGroupQueue.scanned at hmem
    unfold ServerGroupQueue.servers
    cases back with
    | true => exact List.mem_append_right _ (List.mem_filterMap.mpr ⟨some rs, hmem, rfl⟩)
    | false =>
      obtain ⟨rs', hrs', he⟩ := List.mem_map.mp hmem
      cases he
      exact List.mem_append_left _ hrs'
  have hfound := cfg.found mg (List.mem_of_getElem? hmg) sg (List.mem_of_getElem? hsg) rs hserver
  exact (List.getElem?_eq_some_iff.mp hfound).1

/-- A scan keeps to its list. -/
theorem scanStep_fit {g i : ℕ} {mg : MonitorGroup} {sg : ServerGroupQueue} {a : Addr} {c : Scan}
    (hmg : cfg.groups[g]? = some mg) (hsg : mg.serverGroupList[i]? = some sg)
    (hc : ∀ v, c.reQueue = some v → v < cfg.servers.length)
    (h : scanStep sg g a i c s = some s') : (s'.sche g).Fit cfg mg := by
  unfold scanStep at h
  dsimp only at h
  -- the scan advances within its list; what it keeps is the index of a server it has seen
  split at h
  · -- the end of the list
    cases h
    rw [State.sche_setSche_self]
    split
    · next v hv => exact hc v hv
    · split
      · trivial
      · exact ⟨sg, hsg, fun h => absurd rfl h, nofun⟩
  · cases h
    rw [State.sche_setSche_self]
    exact ⟨sg, hsg, fun h => absurd rfl h, hc⟩
  · next rs hst hrs =>
    cases h
    rw [State.sche_setSche_self]
    split
    · exact ⟨sg, hsg, fun h => absurd rfl h, hc⟩
    · exact ⟨sg, hsg, fun _ => ⟨rs, hrs⟩, hc⟩
  · next rs hst hrs =>
    cases h
    rw [State.sche_setSche_self]
    exact ⟨sg, hsg, fun _ => ⟨rs, hrs⟩, hc⟩
  · next rs hst hrs =>
    cases h
    rw [State.sche_setSche_self]
    refine ⟨sg, hsg, fun h => absurd rfl h, fun v hv => ?_⟩
    split at hv
    · cases hv
      exact scanned_lt hmg hsg hrs
    · exact hc v hv
  · cases h

/-- **What a step does to the queues.** -/
theorem step_queue (hc : Counts cfg s) (hl : Linked cfg s) {act : Act}
    (h : step cfg s act = some s') : QueueStep cfg s s' := by
  have hsche : ∀ {g sys}, act = .sche g sys → g < cfg.groups.length := by
    rintro g sys rfl
    obtain ⟨mg, hmg, -⟩ := step_sche h
    exact (List.getElem?_eq_some_iff.mp hmg).1
  have hup : ∀ {t ret sys}, act = .upload t ret sys → t.1 < cfg.servers.length := by
    rintro t ret sys rfl
    obtain ⟨rs, hrs, -⟩ := step_upload h
    exact (List.getElem?_eq_some_iff.mp hrs).1
  -- pops and pushes name their queue; the heap operations leave the links alone
  cases step_cases h with
  | @monitor g m mg src hmg _ _ =>
    exact .push (q := .sche g) (List.getElem?_eq_some_iff.mp hmg).1 rfl
  | kill => exact .reset rfl
  | schePop _ hq => exact .pop hq rfl
  | uploadPop _ hq => exact .pop hq rfl
  | scheFree _ _ hfree =>
    obtain ⟨heap, rfl⟩ := queueNodeFree_heap hfree
    exact .keeps rfl
  | copy _ hcopy =>
    obtain ⟨-, heap, rfl⟩ := queueNodeCopy_heap hcopy
    exact .keeps rfl
  | @push g sys a i v c hpc =>
    obtain ⟨mg, -, -, hfit⟩ := hl.sche g (by rw [hpc]; exact nofun)
    rw [hpc] at hfit
    exact .push (q := .srv v) hfit rfl
  | @requeue g sys a node hpc hn =>
    obtain ⟨n, hn', horig, -⟩ := hc.sche_node (g := g) (a := a) (by rw [hpc]; rfl)
    cases hn'.symm.trans hn
    rw [horig.scheQueue]
    exact .push (q := .sche g) (hsche rfl) rfl
  | @uploadRequeue t ret sys c hpc => exact .push (q := .srv t.1) (hup rfl) rfl
  | release _ _ hs' =>
    obtain ⟨heap, rfl⟩ := dropRetain_heap hs'
    exact .keeps rfl
  | _ => exact .keeps rfl

/-- A scheduler keeps to where it may stand. -/
theorem scheStep_fit {g : ℕ} {mg : MonitorGroup} {sys : Sys} (hmg : cfg.groups[g]? = some mg)
    (hfit : (s.sche g).Fit cfg mg) (h : scheStep cfg mg g sys s = some s') :
    (s'.sche g).Fit cfg mg := by
  -- the scan of the servers keeps what it has chosen; the other steps say where they stand
  by_cases hch : ∃ a i c, s.sche g = .choose a i c
  · obtain ⟨a, i, c, hpc⟩ := hch
    rw [hpc] at hfit
    obtain ⟨sg, hsg, -, hc⟩ := hfit
    rw [scheStep, hpc] at h
    obtain ⟨sg', hsg', h⟩ := Option.bind_eq_some_iff.mp h
    cases hsg'.symm.trans hsg
    exact scanStep_fit hmg hsg hc h
  have hs := scheStep_cases hmg h
  cases hs with
  | scheIdle => exact hfit
  | scheFree _ _ hfree => rw [State.sche_setSche_self]; trivial
  | schePop => rw [State.sche_setSche_self]; trivial
  | createFlag => rw [State.sche_setSche_self]; trivial
  | createMarker => rw [State.sche_setSche_self]; trivial
  | finishOs => rw [State.sche_setSche_self]; trivial
  | push => rw [State.sche_setSche_self]; trivial
  | requeue => rw [State.sche_setSche_self]; trivial
  | copy hpc _ =>
    rw [State.sche_setSche_self]
    rw [hpc] at hfit
    exact hfit
  | choose hmg' _ _ _ hsg _ =>
    cases hmg'.symm.trans hmg
    rw [State.sche_setSche_self]
    exact ⟨_, hsg, fun h => absurd rfl h, fun v hv => by cases hv⟩
  | @scheLocal g sys mg' pc pc' _ hpc hl =>
    show ((s.setSche g pc').sche g).Fit cfg mg
    rw [State.sche_setSche_self]
    cases hl with
    | scan => exact absurd ⟨_, _, _, hpc⟩ hch
    | chosen => exact absurd ⟨_, _, _, hpc⟩ hch
    | _ => trivial

namespace Linked

/-- **Every step keeps the queues in order.** -/
theorem step (hl : Linked cfg s) (hc : Counts cfg s) {act : Act}
    (h : Newiup.step cfg s act = some s') : Linked cfg s' := by
  have hs := step_cases h
  refine ⟨?size, ?queue, fun g hg => ?_, fun t ht => ?_⟩
  -- a step pushes to one queue, takes from one, or leaves them all alone
  case size =>
    intro q
    cases step_queue hc hl h with
    | keeps he => rw [he]; exact hl.size q
    | reset he => rw [he]; rfl
    | @push q' a _ he =>
      rw [he, State.queue_queueNodePush, Function.update_apply]
      split
      · rw [hl.size q', List.length_append]
        rfl
      · exact hl.size q
    | @pop q' a as n hq he =>
      rw [he, Function.update_apply]
      split
      · have := hl.size q'
        rw [hq, List.length_cons] at this
        show n - 1 = (as.length : ℤ)
        push_cast at this
        omega
      · exact hl.size q
  case queue =>
    intro q hne
    cases step_queue hc hl h with
    | keeps he => rw [he] at hne; exact hl.queue q hne
    | reset he => rw [he] at hne; exact absurd rfl hne
    | @push q' a hq' he =>
      by_cases hq : q = q'
      · exact hq ▸ hq'
      · rw [he, State.queue_queueNodePush, Function.update_of_ne hq] at hne
        exact hl.queue q hne
    | @pop q' a as n hq' he =>
      by_cases hq : q = q'
      · exact hl.queue q (by rw [hq, hq']; exact List.cons_ne_nil _ _)
      · rw [he, Function.update_of_ne hq] at hne
        exact hl.queue q hne
  · by_cases hact : ∃ sys, act = .sche g sys
    · obtain ⟨sys, rfl⟩ := hact
      obtain ⟨mg, hmg, hen, h⟩ := step_sche h
      refine ⟨mg, hmg, hen, scheStep_fit hmg ?_ h⟩
      by_cases hpop : s.sche g = .pop
      · rw [hpop]; trivial
      · obtain ⟨mg', hmg', -, hfit⟩ := hl.sche g hpop
        cases hmg'.symm.trans hmg
        exact hfit
    · rcases sche_of_step hs (fun sys he => hact ⟨sys, he⟩) with he | ⟨-, rfl⟩
      · rw [he] at hg ⊢
        exact hl.sche g hg
      · exact absurd rfl hg
  · by_cases hact : ∃ ret sys, act = .upload t ret sys
    · obtain ⟨ret, sys, rfl⟩ := hact
      obtain ⟨rs, hrs, hlt, -⟩ := step_upload h
      exact ⟨rs, hrs, hlt⟩
    · rcases upload_stays hs (fun ret sys he => hact ⟨ret, sys, he⟩) with he | ⟨-, rfl⟩
      · rw [he] at ht
        exact hl.upload t ht
      · exact absurd rfl ht

/-- **The queues are in order in every reachable state.** -/
theorem reach {disk : Fs} {G : State → Act → Prop} (h : (daemon cfg disk).Reach G s) :
    Linked cfg s := by
  refine h.invariant ?_ fun _ _ _ hr hl _ hs => hl.step (.reach hr) hs
  rintro _ ⟨time, rfl⟩
  exact ⟨fun _ => rfl, fun _ h => absurd rfl h, fun _ h => absurd rfl h, fun _ h => absurd rfl h⟩

end Linked

end Steps

/-! ### What a step allocates and frees -/

/-- The node that is passed to `free`. -/
def SchePc.frees : SchePc → Option Addr
  | .drop a => some a
  | .finish a .free => some a
  | _ => none

/-- The node a step passes to `free`. -/
def frees (s : State) : Act → Option Addr
  | .sche g _ => (s.sche g).frees
  | .upload t _ _ => (s.upload t).released
  | _ => none

/-- What a step does to the allocations. -/
inductive HeapStep (s s' : State) (act : Act) : Prop
  | keeps (hf : frees s act = none) (hk : act ≠ .kill) (hnext : s'.next = s.next)
      (h : ∀ a, s'.heap a = none ↔ s.heap a = none)
  | alloc (hf : frees s act = none) (hk : act ≠ .kill) (hnext : s'.next = s.next + 1)
      (h : ∀ a, s'.heap a = none ↔ s.heap a = none ∧ a ≠ s.next)
  | free {c : Addr} (hf : frees s act = some c) (hk : act ≠ .kill) (hnext : s'.next = s.next)
      (hc : s.heap c ≠ none) (h : ∀ a, s'.heap a = none ↔ s.heap a = none ∨ a = c)
  | kill (hk : act = .kill) (hnext : s'.next = s.next) (h : ∀ a, s'.heap a = none)

section Steps

variable {cfg : Config} {s s' : State} {heap : Addr → Option FileQueue}

/-- A node is written. -/
theorem update_some_eq_none {x : Addr} {n n' : FileQueue} (hx : heap x = some n) (a : Addr) :
    Function.update heap x (some n') a = none ↔ heap a = none := by
  by_cases ha : a = x
  · rw [ha, Function.update_self, hx]
    exact iff_of_false nofun nofun
  · rw [Function.update_of_ne ha]

/-- A node is allocated. -/
theorem update_next_eq_none {x : Addr} {n : FileQueue} (a : Addr) :
    Function.update heap x (some n) a = none ↔ heap a = none ∧ a ≠ x := by
  by_cases ha : a = x
  · rw [ha, Function.update_self]
    exact iff_of_false nofun fun h => h.2 rfl
  · rw [Function.update_of_ne ha]
    exact (and_iff_left ha).symm

/-- A node is freed. -/
theorem update_none_eq_none {x : Addr} (a : Addr) :
    Function.update heap x none a = none ↔ heap a = none ∨ a = x := by
  by_cases ha : a = x
  · rw [ha, Function.update_self]
    exact iff_of_true rfl (Or.inr rfl)
  · rw [Function.update_of_ne ha]
    exact (or_iff_left ha).symm

/-- The counter of a node is written. -/
theorem dropRetain_eq_none {n : FileQueue} (h : s.dropRetain n = some s') (a : Addr) :
    s'.heap a = none ↔ s.heap a = none := by
  unfold State.dropRetain at h
  split at h
  · obtain ⟨m, hm, rfl⟩ := addRetain_eq_some h
    exact update_some_eq_none hm a
  · cases h
    rfl

/-- `queue_node_free` frees the node it is given, and no other. -/
theorem queueNodeFree_eq_none {x : Addr} (h : s.queueNodeFree x = some s') :
    s.heap x ≠ none ∧ ∀ a, s'.heap a = none ↔ s.heap a = none ∨ a = x := by
  simp only [State.queueNodeFree, Option.bind_eq_bind, Option.bind_eq_some_iff] at h
  obtain ⟨n, hn, s₁, hs₁, h⟩ := h
  cases h
  refine ⟨by simp [hn], fun a => ?_⟩
  show Function.update s₁.heap x none a = none ↔ _
  rw [update_none_eq_none, dropRetain_eq_none hs₁]

/-- **What a step allocates and frees.** -/
theorem step_heap (hc : Counts cfg s) {act : Act} (hs : Step cfg s act s') :
    HeapStep s s' act := by
  -- the steps that allocate or free come first, and those that write into a node; the rest
  -- does not touch the heap
  cases hs with
  | kill => exact .kill rfl rfl fun _ => rfl
  | monitor => exact .alloc rfl (by simp) rfl update_next_eq_none
  | @scheFree g sys a pc s₁ hpc hf hfree =>
    have hfrees : (s.sche g).frees = some a := by rw [hpc]; cases hf <;> rfl
    obtain ⟨hx, h⟩ := queueNodeFree_eq_none hfree
    refine .free hfrees (by simp) ?_ hx h
    obtain ⟨heap, rfl⟩ := queueNodeFree_heap hfree
    rfl
  | @choose g sys mg a i node o sg hmg hpc hn ho hsg hflag =>
    have hfrees : (s.sche g).frees = none := by rw [hpc]; rfl
    exact .keeps hfrees (by simp) rfl (update_some_eq_none hn)
  | @copy g sys a i v c s₁ hpc hcopy =>
    have hfrees : (s.sche g).frees = none := by rw [hpc]; rfl
    obtain ⟨n, hn, horig, -⟩ := hc.sche_node (g := g) (a := a) (by rw [hpc]; rfl)
    obtain ⟨-, rfl⟩ := queueNodeCopy_eq_some hn horig.retainCount (hc.owned.fresh hn).ne hcopy
    refine .alloc hfrees (by simp) rfl fun b => ?_
    show Function.update (Function.update s.heap s.next _) a _ b = none ↔ _
    have ha : Function.update s.heap s.next (some { n with copy := true }) a = some n := by
      rw [Function.update_of_ne (hc.owned.fresh hn).ne, hn]
    rw [update_some_eq_none ha, update_next_eq_none]
  | @release t ret sys c n s₁ hpc hn hs₁ =>
    have hfrees : (s.upload t).released = none := by rw [hpc]; rfl
    have h := dropRetain_eq_none hs₁
    obtain ⟨heap, rfl⟩ := dropRetain_heap hs₁
    exact .keeps hfrees (by simp) rfl h
  | @free t ret sys c hpc =>
    have hheld : c ∈ s.held (.released t) := by
      rw [State.held, hpc]
      exact List.mem_singleton_self c
    obtain ⟨n, hn, -⟩ := hc.owned.fits hheld
    have hfrees : (s.upload t).released = some c := by rw [hpc]; rfl
    exact .free hfrees (by simp) rfl (by rw [hn]; exact (by simp)) update_none_eq_none
  | produce => exact .keeps rfl (by simp) rfl fun _ => Iff.rfl
  | unproduce => exact .keeps rfl (by simp) rfl fun _ => Iff.rfl
  | tick => exact .keeps rfl (by simp) rfl fun _ => Iff.rfl
  | signal => exact .keeps rfl (by simp) rfl fun _ => Iff.rfl
  | @scheLocal g sys mg pc pc' _ hpc hl =>
    have hfrees : (s.sche g).frees = none := by rw [hpc]; cases hl <;> rfl
    exact .keeps hfrees (by simp) rfl fun _ => Iff.rfl
  | @finishOs g sys a f f' x hpc hf =>
    have hfrees : (s.sche g).frees = none := by rw [hpc]; cases hf <;> rfl
    exact .keeps hfrees (by simp) rfl fun _ => Iff.rfl
  | @uploadLocal t ret sys pc pc' hpc hl =>
    have hfrees : (s.upload t).released = none := by rw [hpc]; cases hl <;> rfl
    exact .keeps hfrees (by simp) rfl fun _ => Iff.rfl
  | @scheIdle g sys hpc =>
    exact .keeps (show (s.sche g).frees = none by rw [hpc]; rfl) (by simp) rfl fun _ => Iff.rfl
  | @schePop g sys a as n hpc =>
    exact .keeps (show (s.sche g).frees = none by rw [hpc]; rfl) (by simp) rfl fun _ => Iff.rfl
  | @createFlag g sys mg a i o sg _ hpc =>
    exact .keeps (show (s.sche g).frees = none by rw [hpc]; rfl) (by simp) rfl fun _ => Iff.rfl
  | @createMarker g sys mg a i o _ hpc =>
    exact .keeps (show (s.sche g).frees = none by rw [hpc]; rfl) (by simp) rfl fun _ => Iff.rfl
  | @push g sys a i v c hpc =>
    exact .keeps (show (s.sche g).frees = none by rw [hpc]; rfl) (by simp) rfl fun _ => Iff.rfl
  | @requeue g sys a n hpc =>
    exact .keeps (show (s.sche g).frees = none by rw [hpc]; rfl) (by simp) rfl fun _ => Iff.rfl
  | @uploadIdle t ret sys hpc =>
    exact .keeps (show (s.upload t).released = none by rw [hpc]; rfl) (by simp) rfl fun _ => Iff.rfl
  | @uploadPop t ret sys c cs n hpc =>
    exact .keeps (show (s.upload t).released = none by rw [hpc]; rfl) (by simp) rfl fun _ => Iff.rfl
  | @library t ret sys c n o hpc =>
    exact .keeps (show (s.upload t).released = none by rw [hpc]; rfl) (by simp) rfl fun _ => Iff.rfl
  | @deleteSrc t ret sys c o hpc =>
    exact .keeps (show (s.upload t).released = none by rw [hpc]; rfl) (by simp) rfl fun _ => Iff.rfl
  | @deleteFlag t ret sys c n o mg name hpc =>
    exact .keeps (show (s.upload t).released = none by rw [hpc]; rfl) (by simp) rfl fun _ => Iff.rfl
  | @uploadRequeue t ret sys c hpc =>
    exact .keeps (show (s.upload t).released = none by rw [hpc]; rfl) (by simp) rfl fun _ => Iff.rfl

/-! ### No thread meets a freed node -/

theorem dropRetain_isSome {n : FileQueue}
    (h : n.copy = true → ∃ o, s.heap n.retainCount = some o) : (s.dropRetain n).isSome = true := by
  unfold State.dropRetain
  split
  · next hcopy =>
    obtain ⟨o, ho⟩ := h hcopy
    rw [State.addRetain, ho]
    rfl
  · rfl

/-- An original is freed without any counter. -/
theorem queueNodeFree_original {g : ℕ} {a : Addr} {n : FileQueue} (hn : s.heap a = some n)
    (horig : IsOriginal g a n) : s.queueNodeFree a = some (s.setNode a none) := by
  simp only [State.queueNodeFree, hn, Option.bind_eq_bind, Option.bind_some, State.dropRetain,
    horig.copy, Bool.false_eq_true, if_false]
  rfl

/-- An original is copied. -/
theorem queueNodeCopy_original {g i : ℕ} {a : Addr} {n : FileQueue} (hn : s.heap a = some n)
    (horig : IsOriginal g a n) (ha : a ≠ s.next) :
    s.queueNodeCopy a i = some (s.next, { s with
      heap := Function.update (Function.update s.heap s.next (some { n with copy := true })) a
        (some { n with reCountS := n.reCountS + 1 })
      next := s.next + 1
      grp := Function.update s.grp s.next i }) := by
  simp only [State.queueNodeCopy, hn, Option.bind_eq_bind, Option.bind_some, State.addRetain,
    State.setNode, horig.retainCount, Function.update_of_ne ha, Option.map_some]
  rfl

/-- The finish of an original does not fail. -/
theorem finishStep_isSome {g : ℕ} {mg : MonitorGroup} {sys : Sys} {a : Addr} {n : FileQueue}
    {f : FinishStage} (hmg : cfg.groups[g]? = some mg) (hn : s.heap a = some n)
    (horig : IsOriginal g a n) (ho : s.original a = some n) :
    (finishStep cfg g sys a s f).isSome = true := by
  cases f with
  | act =>
    simp only [finishStep, hn, ho, horig.monitorId, hmg, Option.bind_eq_bind, Option.bind_some]
    rfl
  | limit =>
    rw [finishStep]
    split
    · rfl
    · split <;> rfl
  | free =>
    rw [finishStep, queueNodeFree_original hn horig]
    rfl
  | delMonitor | delMarker | testMarker | delMarkerAgain =>
    rw [finishStep, ho]
    rfl

/-- A scan does not leave its list. -/
theorem scanStep_isSome {g i : ℕ} {sg : ServerGroupQueue} {a : Addr} {c : Scan}
    (h : c.stage ≠ .avail → ∃ rs, (sg.scanned c.back)[c.k]? = some (some rs)) :
    (scanStep sg g a i c s).isSome = true := by
  unfold scanStep
  dsimp only
  split
  · rfl
  · rfl
  · rfl
  · rfl
  · rfl
  · next h₀ h₁ h₂ h₃ h₄ =>
    exfalso
    cases hst : c.stage with
    | avail =>
      rcases hx : (sg.scanned c.back)[c.k]? with _ | _ | rs
      · exact h₀ hst hx
      · exact h₁ hst hx
      · exact h₂ rs hst hx
    | set =>
      obtain ⟨rs, hrs⟩ := h (by rw [hst]; exact nofun)
      exact h₃ rs hst hrs
    | size =>
      obtain ⟨rs, hrs⟩ := h (by rw [hst]; exact nofun)
      exact h₄ rs hst hrs

/-- **No scheduler meets a freed node.** -/
theorem scheStep_isSome (hc : Counts cfg s) {g : ℕ} {mg : MonitorGroup} {sys : Sys}
    (hmg : cfg.groups[g]? = some mg) (hfit : (s.sche g).Fit cfg mg) (hrun : s.sche g ≠ .stopped) :
    (scheStep cfg mg g sys s).isSome = true := by
  unfold scheStep
  -- a step is disabled only by a node that is not allocated, and the invariant has them all
  split
  · split
    · split <;> rfl
    · rfl
  · next a hpc => -- retain
    obtain ⟨n, -, -, ho⟩ := hc.sche_node (g := g) (a := a) (by rw [hpc]; rfl)
    rw [State.queueNodeIsRetain, ho]
    rfl
  · next a hpc => -- source
    obtain ⟨n, -, -, ho⟩ := hc.sche_node (g := g) (a := a) (by rw [hpc]; rfl)
    rw [ho]
    rfl
  · next a hpc => -- drop
    obtain ⟨n, hn, horig, -⟩ := hc.sche_node (g := g) (a := a) (by rw [hpc]; rfl)
    rw [queueNodeFree_original hn horig]
    rfl
  · next a hpc => -- marker
    obtain ⟨n, -, -, ho⟩ := hc.sche_node (g := g) (a := a) (by rw [hpc]; rfl)
    rw [ho]
    rfl
  · next a i hpc => -- create
    obtain ⟨n, -, -, ho⟩ := hc.sche_node (g := g) (a := a) (by rw [hpc]; rfl)
    rw [ho, Option.bind_eq_bind, Option.bind_some]
    split <;> rfl
  · next a i hpc => -- check
    obtain ⟨n, -, -, ho⟩ := hc.sche_node (g := g) (a := a) (by rw [hpc]; rfl)
    rw [ho, Option.bind_eq_bind, Option.bind_some]
    split <;> rfl
  · next a f hpc =>
    obtain ⟨n, hn, horig, ho⟩ := hc.sche_node (g := g) (a := a) (by rw [hpc]; rfl)
    exact finishStep_isSome hmg hn horig ho
  · next a i hpc => -- dispatch
    obtain ⟨n, hn, -, ho⟩ := hc.sche_node (g := g) (a := a) (by rw [hpc]; rfl)
    split
    · rfl
    · simp only [ho, hn, Option.bind_eq_bind, Option.bind_some]
      split <;> rfl
  · next a i c hpc => -- choose
    rw [hpc] at hfit
    obtain ⟨sg, hsg, hscan, -⟩ := hfit
    rw [hsg, Option.bind_some]
    exact scanStep_isSome hscan
  · next a i v hpc => -- copy
    obtain ⟨n, hn, horig, -⟩ := hc.sche_node (g := g) (a := a) (by rw [hpc]; rfl)
    split
    · rfl
    · rw [queueNodeCopy_original hn horig (hc.owned.fresh hn).ne]
      rfl
  · rfl
  · next a hpc => -- requeue
    obtain ⟨n, hn, -, -⟩ := hc.sche_node (g := g) (a := a) (by rw [hpc]; rfl)
    rw [hn]
    rfl
  · next hpc => exact absurd hpc hrun

/-- **No upload thread meets a freed node.** -/
theorem uploadStep_isSome (hc : Counts cfg s) {t : ThreadId} {rs : RealServer} {ret : ℤ} {sys : Sys}
    (hrun : s.upload t ≠ .stopped) : (uploadStep cfg rs t ret sys s).isSome = true := by
  unfold uploadStep
  -- likewise for the copy and for its original, from which the file is read
  split
  · split
    · split <;> rfl
    · rfl
  · rfl
  · rfl
  · next c hpc => -- checking
    obtain ⟨n, o, -, -, -, -, ho, -⟩ := hc.upload_node (t := t) (c := c) (by rw [hpc]; rfl)
    rw [ho]
    rfl
  · next c hpc => -- library
    obtain ⟨n, o, hn, -, -, -, ho, -⟩ := hc.upload_node (t := t) (c := c) (by rw [hpc]; rfl)
    rw [hn, ho]
    rfl
  · next c hpc => -- deleteSrc
    obtain ⟨n, o, -, -, -, -, ho, -⟩ := hc.upload_node (t := t) (c := c) (by rw [hpc]; rfl)
    rw [ho]
    rfl
  · next c hpc => -- deleteFlag
    obtain ⟨n, o, hn, -, hlive, -, ho, -⟩ := hc.upload_node (t := t) (c := c) (by rw [hpc]; rfl)
    obtain ⟨mg, sg, hmg, -, hname⟩ := hc.dispatched.named hlive hn
    simp only [hn, ho, hmg, hname, Option.bind_eq_bind, Option.bind_some]
    rfl
  · rfl
  · rfl
  · rfl
  · rfl
  · rfl
  · next c hpc => -- release
    obtain ⟨n, o, hn, -, -, ho, -, -⟩ := hc.upload_node (t := t) (c := c) (by rw [hpc]; rfl)
    obtain ⟨s₁, hs₁⟩ := Option.isSome_iff_exists.mp (dropRetain_isSome (n := n) fun _ => ⟨o, ho⟩)
    simp only [hn, hs₁, Option.bind_eq_bind, Option.bind_some]
    rfl
  · rfl
  · next hpc => exact absurd hpc hrun

end Steps

/-! ### The nodes a process has freed -/

/-- The daemon, with the nodes its process has freed.  The record starts anew with each
process, as does the memory.  An address that was handed out since is in it or allocated, and
not both. -/
structure Account where
  /-- The state of the daemon. -/
  state : State
  /-- The first address the process could hand out. -/
  base : Addr
  /-- The nodes it has passed to `free`, latest first. -/
  freed : List Addr

/-- What is accounted for after a step; a new process has freed nothing. -/
def Account.after (x : Account) (s' : State) : Act → Account
  | .kill => ⟨s', s'.next, []⟩
  | act => ⟨s', x.base, (frees x.state act).toList ++ x.freed⟩

/-- The daemon together with the nodes its process has freed. -/
def accounts (cfg : Config) (disk : Fs) : System Account Act where
  init := fun x => (daemon cfg disk).init x.state ∧ x.base = 0 ∧ x.freed = []
  step := fun x act => (step cfg x.state act).map fun s' => x.after s' act

/-- **The account is right**: what the process allocated was freed once, or is still
allocated. -/
structure Tallied (x : Account) : Prop where
  /-- Nothing was freed twice. -/
  nodup : x.freed.Nodup
  /-- What was freed is what was allocated and is not any more. -/
  mem_freed : ∀ a, a ∈ x.freed ↔ x.base ≤ a ∧ a < x.state.next ∧ x.state.heap a = none
  /-- The process allocated what is allocated. -/
  base_le : ∀ a, x.state.heap a ≠ none → x.base ≤ a
  /-- The addresses that remain come after those handed out. -/
  le_next : x.base ≤ x.state.next

section Accounts

variable {cfg : Config} {disk : Fs} {x x' : Account}

theorem Account.after_of_ne {s' : State} {act : Act} (h : act ≠ .kill) :
    x.after s' act = ⟨s', x.base, (frees x.state act).toList ++ x.freed⟩ := by
  cases act with
  | kill => exact absurd rfl h
  | _ => rfl

/-- The daemon of an account runs. -/
theorem Account.reach {G : State → Act → Prop}
    (h : (accounts cfg disk).Reach (fun x act => G x.state act) x) :
    (daemon cfg disk).Reach G x.state := by
  induction h with
  | start h => exact .start h.1
  | next _ hg hs ih =>
    obtain ⟨s', hs', rfl⟩ := Option.map_eq_some_iff.mp hs
    refine .next ih hg ?_
    rename_i act _
    by_cases hk : act = .kill
    · subst hk; exact hs'
    · rw [Account.after_of_ne hk]; exact hs'

/-- **Every step keeps the account right.** -/
theorem Tallied.step (h : Tallied x) (hc : Counts cfg x.state) {act : Act} {s' : State}
    (hs : Newiup.step cfg x.state act = some s') : Tallied (x.after s' act) := by
  -- an address was freed when it has been handed out and is not allocated
  cases step_heap hc (step_cases hs) with
  | kill hk hnext hnone =>
    subst hk
    refine ⟨List.nodup_nil, fun a => ⟨nofun, fun ha => ?_⟩, fun a ha => absurd (hnone a) ha, le_rfl⟩
    exact absurd ha.2.1 (not_lt.mpr ha.1)
  | keeps hf hk hnext hnone =>
    rw [Account.after_of_ne hk, hf]
    refine ⟨h.nodup, fun a => ?_, fun a ha => h.base_le a (mt (hnone a).mpr ha), hnext ▸ h.le_next⟩
    show a ∈ x.freed ↔ _
    rw [h.mem_freed, hnext, hnone]
  | alloc hf hk hnext hnone =>
    rw [Account.after_of_ne hk, hf]
    refine ⟨h.nodup, fun a => ?_, fun a ha => ?_, hnext ▸ Nat.le_succ_of_le h.le_next⟩
    · show a ∈ x.freed ↔ _
      rw [h.mem_freed, hnext, hnone]
      constructor
      · rintro ⟨hb, hlt, hn⟩
        exact ⟨hb, Nat.lt_succ_of_lt hlt, hn, hlt.ne⟩
      · rintro ⟨hb, hlt, hn, hne⟩
        exact ⟨hb, lt_of_le_of_ne (Nat.le_of_lt_succ hlt) hne, hn⟩
    · by_cases hne : a = x.state.next
      · exact hne ▸ h.le_next
      · exact h.base_le a fun hn => ha ((hnone a).mpr ⟨hn, hne⟩)
  | @free c hf hk hnext hc' hnone =>
    rw [Account.after_of_ne hk, hf]
    refine ⟨List.nodup_cons.mpr ⟨fun hm => hc' ((h.mem_freed c).mp hm).2.2, h.nodup⟩, fun a => ?_,
      fun a ha => h.base_le a fun hn => ha ((hnone a).mpr (Or.inl hn)), hnext ▸ h.le_next⟩
    show a ∈ c :: x.freed ↔ _
    rw [List.mem_cons, h.mem_freed, hnext, hnone]
    constructor
    · rintro (rfl | ⟨hb, hlt, hn⟩)
      · obtain ⟨n, hn⟩ := Option.ne_none_iff_exists'.mp hc'
        exact ⟨h.base_le a hc', hc.owned.fresh hn, Or.inr rfl⟩
      · exact ⟨hb, hlt, Or.inl hn⟩
    · rintro ⟨hb, hlt, hn | rfl⟩
      · exact Or.inr ⟨hb, hlt, hn⟩
      · exact Or.inl rfl

/-- **The account is right in every reachable state.** -/
theorem Tallied.reach {G : State → Act → Prop}
    (h : (accounts cfg disk).Reach (fun x act => G x.state act) x) : Tallied x := by
  refine h.invariant ?_ fun x act x' hr ht _ hs => ?_
  · rintro x ⟨⟨time, hx⟩, hb, hf⟩
    refine ⟨hf ▸ List.nodup_nil, fun a => ?_, fun a ha => ?_, hb ▸ Nat.zero_le _⟩
    · rw [hf, hx]
      exact ⟨nofun, fun h => absurd h.2.1 (Nat.not_lt_zero a)⟩
    · rw [hx] at ha
      exact absurd rfl ha
  · obtain ⟨s', hs', rfl⟩ := Option.map_eq_some_iff.mp hs
    exact ht.step (.reach (Account.reach hr)) hs'

end Accounts

/-! ### `newiup_exit` -/

/-- `TAILQ_REMOVE` of the first node; `size` is not written. -/
def State.removeFirst (s : State) (q : QueueId) : State :=
  { s with queue := Function.update s.queue q ⟨(s.queue q).head.tail, (s.queue q).size⟩ }

/-- `queue_node_free`, accounted for. -/
def Account.queueNodeFree (x : Account) (a : Addr) : Option Account :=
  (x.state.queueNodeFree a).map fun s' => { x with state := s', freed := a :: x.freed }

/-- The loop that empties a queue, by the nodes in it. -/
def exitQueue (q : QueueId) : List Addr → Account → Option Account
  | [], x => some x
  | a :: as, x =>
      (Account.queueNodeFree { x with state := x.state.removeFirst q } a).bind (exitQueue q as)

/-- The loops over the given queues. -/
def exitQueues : List QueueId → Account → Option Account
  | [], x => some x
  | q :: qs, x => (exitQueue q (x.state.queue q).head x).bind (exitQueues qs)

/-- `servers_exit`. -/
def serversExit (cfg : Config) : Account → Option Account :=
  exitQueues ((List.range cfg.servers.length).map .srv)

/-- `monitor_group_exit`. -/
def monitorGroupExit (cfg : Config) : Account → Option Account :=
  exitQueues ((List.range cfg.groups.length).map .sche)

/-- `newiup_exit`. -/
def newiupExit (cfg : Config) (x : Account) : Option Account :=
  (serversExit cfg x).bind (monitorGroupExit cfg)

/-- The nodes in the given queues. -/
def State.linked (s : State) (qs : List QueueId) : List Addr :=
  qs.flatMap fun q => (s.queue q).head

/-- **What is left**: the nodes `l` are those allocated, and the original of each copy is
one of them. -/
structure Left (s : State) (l : List Addr) : Prop where
  /-- No node is listed twice. -/
  nodup : l.Nodup
  /-- What is listed is what is allocated. -/
  mem_iff : ∀ a, a ∈ l ↔ s.heap a ≠ none
  /-- A copy has its original. -/
  original : ∀ {c n}, s.heap c = some n → n.copy = true →
    ∃ o, s.heap n.retainCount = some o ∧ o.copy = false

/-- The nodes `l` may be freed in any order: they are copies, or no copy is left. -/
def Freeable (s : State) (l : List Addr) : Prop :=
  (∀ a ∈ l, ∀ n, s.heap a = some n → n.copy = true) ∨ ∀ a n, s.heap a = some n → n.copy = false

/-- The account `x'` is `x` after the nodes `l` were freed. -/
structure FreedFrom (x x' : Account) (l : List Addr) : Prop where
  base : x'.base = x.base
  next : x'.state.next = x.state.next
  freed : x'.freed.Perm (l ++ x.freed)
  copy : ∀ {a n'}, x'.state.heap a = some n' → ∃ n, x.state.heap a = some n ∧ n'.copy = n.copy

section Exit

variable {cfg : Config} {s s' : State} {x x' x'' : Account} {a : Addr} {l l' : List Addr}

theorem dropRetain_sameShape {n : FileQueue} (h : s.dropRetain n = some s') :
    SameShape s.heap s'.heap := by
  unfold State.dropRetain at h
  split at h
  · obtain ⟨m, hm, rfl⟩ := addRetain_eq_some h
    exact .update hm rfl
  · cases h
    exact fun _ => rfl

/-- A node that is left was there, and is of the same shape. -/
theorem shape_of_free (h : s.queueNodeFree a = some s') {b : Addr} {n' : FileQueue}
    (hn' : s'.heap b = some n') : ∃ n, s.heap b = some n ∧ n'.shape = n.shape := by
  simp only [State.queueNodeFree, Option.bind_eq_bind, Option.bind_eq_some_iff] at h
  obtain ⟨n, hn, s₁, hs₁, h⟩ := h
  cases h
  change Function.update s₁.heap a none b = some n' at hn'
  have hb : b ≠ a := by
    rintro rfl
    rw [Function.update_self] at hn'
    cases hn'
  rw [Function.update_of_ne hb] at hn'
  obtain ⟨m, hm, hshape⟩ := (dropRetain_sameShape hs₁).symm.some hn'
  exact ⟨m, hm, hshape.symm⟩

namespace Left

/-- The node that comes next can be freed. -/
theorem queueNodeFree_isSome (h : Left s (a :: l)) : ∃ s', s.queueNodeFree a = some s' := by
  obtain ⟨n, hn⟩ := Option.ne_none_iff_exists'.mp ((h.mem_iff a).mp List.mem_cons_self)
  have hdrop : (s.dropRetain n).isSome = true := dropRetain_isSome fun hcopy =>
    (h.original hn hcopy).imp fun _ => And.left
  obtain ⟨s₁, hs₁⟩ := Option.isSome_iff_exists.mp hdrop
  refine ⟨s₁.setNode a none, ?_⟩
  simp only [State.queueNodeFree, hn, hs₁, Option.bind_eq_bind, Option.bind_some]
  rfl

/-- **What is left after a node was freed.** -/
theorem free (h : Left s (a :: l)) (hf : Freeable s [a]) (hs' : s.queueNodeFree a = some s') :
    Left s' l := by
  obtain ⟨ha, hnone⟩ := queueNodeFree_eq_none hs'
  have hnodup := List.nodup_cons.mp h.nodup
  refine ⟨hnodup.2, fun b => ?_, fun {c n'} hn' hcopy => ?_⟩
  · rw [Ne, hnone, not_or]
    constructor
    · intro hb
      exact ⟨(h.mem_iff b).mp (List.mem_cons_of_mem a hb), fun he => hnodup.1 (he ▸ hb)⟩
    · rintro ⟨hb, hne⟩
      exact (List.mem_cons.mp ((h.mem_iff b).mpr hb)).resolve_left hne
  · obtain ⟨n, hn, hshape⟩ := shape_of_free hs' hn'
    obtain ⟨hc, -, hr, -⟩ := shape_eq_iff.mp hshape
    obtain ⟨o, ho, hoc⟩ := h.original hn (hc ▸ hcopy)
    -- what was freed is no original of a copy
    have hne : n.retainCount ≠ a := by
      intro he
      rcases hf with hf | hf
      · rw [hf a (List.mem_singleton_self a) o (he ▸ ho)] at hoc
        cases hoc
      · rw [hc, hf c n hn] at hcopy
        cases hcopy
    have hsome : s'.heap n.retainCount ≠ none := by
      rw [Ne, hnone, not_or, ho]
      exact ⟨nofun, hne⟩
    obtain ⟨o', ho'⟩ := Option.ne_none_iff_exists'.mp hsome
    obtain ⟨o₁, ho₁, hshape'⟩ := shape_of_free hs' ho'
    cases ho₁.symm.trans ho
    rw [hr]
    exact ⟨o', ho', (shape_eq_iff.mp hshape').1.trans hoc⟩

end Left

/-- What may be freed in any order stays so. -/
theorem Freeable.mono (h : Freeable s l) (hl : ∀ a ∈ l', a ∈ l)
    (hcopy : ∀ {a n'}, s'.heap a = some n' → ∃ n, s.heap a = some n ∧ n'.copy = n.copy) :
    Freeable s' l' := by
  rcases h with h | h
  · refine Or.inl fun a ha n' hn' => ?_
    obtain ⟨n, hn, he⟩ := hcopy hn'
    exact he.trans (h a (hl a ha) n hn)
  · refine Or.inr fun a n' hn' => ?_
    obtain ⟨n, hn, he⟩ := hcopy hn'
    exact he.trans (h a n hn)

theorem FreedFrom.refl (x : Account) : FreedFrom x x [] where
  base := rfl
  next := rfl
  freed := .refl _
  copy h := ⟨_, h, rfl⟩

theorem FreedFrom.trans (h : FreedFrom x x' l) (h' : FreedFrom x' x'' l') :
    FreedFrom x x'' (l ++ l') where
  base := h'.base.trans h.base
  next := h'.next.trans h.next
  freed := by
    refine h'.freed.trans ((h.freed.append_left l').trans ?_)
    rw [← List.append_assoc]
    exact List.perm_append_comm.append_right x.freed
  copy hn := by
    obtain ⟨n', hn', he'⟩ := h'.copy hn
    obtain ⟨n, hn, he⟩ := h.copy hn'
    exact ⟨n, hn, he'.trans he⟩

/-- **A loop frees what is in its queue**, and touches no other queue. -/
theorem exitQueue_frees {q : QueueId} {as : List Addr} (hl : Left x.state (as ++ l))
    (hf : Freeable x.state as) :
    ∃ x', exitQueue q as x = some x' ∧ Left x'.state l ∧ FreedFrom x x' as ∧
      ∀ q' ≠ q, x'.state.queue q' = x.state.queue q' := by
  induction as generalizing x with
  | nil => exact ⟨x, rfl, hl, .refl x, fun _ _ => rfl⟩
  | cons a as ih =>
    -- removing it from the queue changes no node
    have hl₀ : Left (x.state.removeFirst q) (a :: (as ++ l)) := ⟨hl.nodup, hl.mem_iff, hl.original⟩
    obtain ⟨s₁, hs₁⟩ := hl₀.queueNodeFree_isSome
    have hcopy : ∀ {b n'}, s₁.heap b = some n' →
        ∃ n, x.state.heap b = some n ∧ n'.copy = n.copy := fun hn' => by
      obtain ⟨n, hn, hshape⟩ := shape_of_free hs₁ hn'
      exact ⟨n, hn, (shape_eq_iff.mp hshape).1⟩
    have hl₁ : Left s₁ (as ++ l) := by
      refine hl₀.free (hf.mono (fun b hb => ?_) fun hn => ⟨_, hn, rfl⟩) hs₁
      rw [List.mem_singleton.mp hb]
      exact List.mem_cons_self
    have hf₁ : Freeable s₁ as := hf.mono (fun b hb => List.mem_cons_of_mem a hb) hcopy
    obtain ⟨heap, hheap⟩ := queueNodeFree_heap hs₁
    have hfrees : FreedFrom x ⟨s₁, x.base, a :: x.freed⟩ [a] :=
      ⟨rfl, by rw [hheap]; rfl, .refl _, hcopy⟩
    obtain ⟨x', hx', hleft, hfrees', hqueue⟩ := ih (x := ⟨s₁, x.base, a :: x.freed⟩) hl₁ hf₁
    refine ⟨x', ?_, hleft, hfrees.trans hfrees', fun q' hq' => ?_⟩
    · rw [exitQueue, Account.queueNodeFree, hs₁]
      exact hx'
    · rw [hqueue q' hq', hheap]
      exact Function.update_of_ne hq' ..

/-- **The loops free what is in their queues.** -/
theorem exitQueues_frees {qs : List QueueId} (hnodup : qs.Nodup)
    (hl : Left x.state (x.state.linked qs ++ l)) (hf : Freeable x.state (x.state.linked qs)) :
    ∃ x', exitQueues qs x = some x' ∧ Left x'.state l ∧ FreedFrom x x' (x.state.linked qs) ∧
      ∀ q ∉ qs, x'.state.queue q = x.state.queue q := by
  induction qs generalizing x with
  | nil => exact ⟨x, rfl, hl, .refl x, fun _ _ => rfl⟩
  | cons q qs ih =>
    obtain ⟨hq, hnodup⟩ := List.nodup_cons.mp hnodup
    have hlinked : x.state.linked (q :: qs) = (x.state.queue q).head ++ x.state.linked qs :=
      List.flatMap_cons
    rw [hlinked] at hl hf ⊢
    rw [List.append_assoc] at hl
    obtain ⟨x₁, hx₁, hl₁, hfrees, hqueue⟩ := exitQueue_frees (q := q) hl
      (hf.mono (fun _ => List.mem_append_left _) fun hn => ⟨_, hn, rfl⟩)
    -- the other queues are as they were
    have hsame : x₁.state.linked qs = x.state.linked qs :=
      List.flatMap_congr fun q' hq' => by rw [hqueue q' fun he => hq (he ▸ hq')]
    rw [← hsame] at hl₁
    obtain ⟨x', hx', hleft, hfrees', hqueue'⟩ := ih hnodup hl₁ (by
      rw [hsame]
      exact hf.mono (fun _ => List.mem_append_right _) hfrees.copy)
    rw [hsame] at hfrees'
    refine ⟨x', by rw [exitQueues, hx₁]; exact hx', hleft, hfrees.trans hfrees', fun q' hq' => ?_⟩
    rw [hqueue' q' fun h => hq' (List.mem_cons_of_mem q h),
      hqueue q' fun he => hq' (he ▸ List.mem_cons_self)]

end Exit

/-! ### Every node is accounted for -/

/-- The threads have ended: the scheduler of each enabled group, and the upload threads of
each server. -/
def Ended (cfg : Config) (s : State) : Prop :=
  (∀ g mg, cfg.groups[g]? = some mg → mg.enable = true → s.sche g = .stopped) ∧
    ∀ t rs, cfg.servers[t.1]? = some rs → t.2 < rs.threadNum → s.upload t = .stopped

/-- The action is the next step of a thread that has not ended. -/
inductive Runs (cfg : Config) (s : State) : Act → Prop
  | sche {g sys mg} (hmg : cfg.groups[g]? = some mg) (hen : mg.enable = true)
      (hpc : s.sche g ≠ .stopped) : Runs cfg s (.sche g sys)
  | upload {t ret sys rs} (hrs : cfg.servers[t.1]? = some rs) (ht : t.2 < rs.threadNum)
      (hpc : s.upload t ≠ .stopped) : Runs cfg s (.upload t ret sys)

/-- The node whose counter a step reads or writes. -/
def counterOf (s : State) : Act → Option Addr
  | .sche g _ =>
      match s.sche g with
      | .retain a => (s.heap a).map FileQueue.retainCount
      | .copy a _ _ => (s.heap a).map FileQueue.retainCount
      | _ => none
  | .upload t _ _ =>
      match s.upload t with
      | .release c => (s.heap c).map FileQueue.retainCount
      | _ => none
  | _ => none

section Accounted

variable {cfg : Config} {s : State}

/-- **No thread meets a freed node.** -/
theorem step_isSome (hc : Counts cfg s) (hl : Linked cfg s) {act : Act} (h : Runs cfg s act) :
    (step cfg s act).isSome = true := by
  cases h with
  | @sche g sys mg hmg hen hpc =>
    have hfit : (s.sche g).Fit cfg mg := by
      by_cases hpop : s.sche g = .pop
      · rw [hpop]; trivial
      · obtain ⟨mg', hmg', -, hfit⟩ := hl.sche g hpop
        cases hmg'.symm.trans hmg
        exact hfit
    simp only [step, hmg, Option.bind_eq_bind, Option.bind_some, if_pos hen]
    exact scheStep_isSome hc hmg hfit hpc
  | @upload t ret sys rs hrs ht hpc =>
    simp only [step, hrs, Option.bind_eq_bind, Option.bind_some, if_pos ht]
    exact uploadStep_isSome hc hpc

/-- The counters that are read and written belong to originals that are allocated. -/
theorem counterOf_original (hc : Counts cfg s) {act : Act} {b : Addr}
    (h : counterOf s act = some b) : ∃ o, s.heap b = some o ∧ o.copy = false := by
  have hsche : ∀ {g a}, (s.sche g).node = some a →
      (s.heap a).map FileQueue.retainCount = some b → ∃ o, s.heap b = some o ∧ o.copy = false := by
    intro g a ha he
    obtain ⟨n, hn, horig, -⟩ := hc.sche_node ha
    rw [hn, Option.map_some, horig.retainCount] at he
    cases he
    exact ⟨n, hn, horig.copy⟩
  unfold counterOf at h
  split at h
  · next g sys =>
    split at h
    · next a hpc => exact hsche (g := g) (by rw [hpc]; rfl) h
    · next a i v hpc => exact hsche (g := g) (by rw [hpc]; rfl) h
    · cases h
  · next t ret sys =>
    split at h
    · next c hpc =>
      obtain ⟨n, o, hn, -, -, ho, -, horig⟩ := hc.upload_node (t := t) (c := c) (by rw [hpc]; rfl)
      rw [hn, Option.map_some] at h
      cases h
      exact ⟨o, ho, horig.copy⟩
    · cases h
  · cases h

/-- When the threads have ended, the nodes are in the queues. -/
theorem Ended.held_queue (he : Ended cfg s) (hl : Linked cfg s) {p : Place} {a : Addr}
    (ha : a ∈ s.held p) : ∃ q, p = .queue q ∧ cfg.HasQueue q := by
  have hsche : ∀ g, s.sche g = .pop ∨ s.sche g = .stopped := fun g => by
    by_cases hpop : s.sche g = .pop
    · exact Or.inl hpop
    · obtain ⟨mg, hmg, hen, -⟩ := hl.sche g hpop
      exact Or.inr (he.1 g mg hmg hen)
  have hup : ∀ t, s.upload t = .pop ∨ s.upload t = .stopped := fun t => by
    by_cases hpop : s.upload t = .pop
    · exact Or.inl hpop
    · obtain ⟨rs, hrs, hlt⟩ := hl.upload t hpop
      exact Or.inr (he.2 t rs hrs hlt)
  cases p with
  | queue q => exact ⟨q, rfl, hl.queue q (List.ne_nil_of_mem ha)⟩
  | sche g => rcases hsche g with h | h <;> rw [State.held, h] at ha <;> cases ha
  | new g => rcases hsche g with h | h <;> rw [State.held, h] at ha <;> cases ha
  | upload t => rcases hup t with h | h <;> rw [State.held, h] at ha <;> cases ha
  | released t => rcases hup t with h | h <;> rw [State.held, h] at ha <;> cases ha

/-- The queues of the servers, then those of the monitor groups. -/
def Config.queues (cfg : Config) : List QueueId :=
  (List.range cfg.servers.length).map .srv ++ (List.range cfg.groups.length).map .sche

theorem Config.mem_queues {q : QueueId} : q ∈ cfg.queues ↔ cfg.HasQueue q := by
  unfold Config.queues
  cases q <;> simp [Config.HasQueue]

theorem Config.nodup_queues (cfg : Config) : cfg.queues.Nodup := by
  refine List.Nodup.append ?_ ?_ ?_
  · exact List.nodup_range.map fun _ _ h => by cases h; rfl
  · exact List.nodup_range.map fun _ _ h => by cases h; rfl
  · intro q hq hq'
    obtain ⟨v, -, rfl⟩ := List.mem_map.mp hq
    obtain ⟨g, -, h⟩ := List.mem_map.mp hq'
    cases h

/-- **What is left when the threads have ended**: the nodes in the queues. -/
theorem Ended.left (he : Ended cfg s) (hc : Counts cfg s) (hl : Linked cfg s) :
    Left s (s.linked cfg.queues) where
  nodup := by
    refine List.nodup_flatMap.mpr ⟨fun q _ => hc.owned.exclusive.nodup (.queue q), ?_⟩
    refine cfg.nodup_queues.pairwise_of_forall_ne fun q _ q' _ hne a ha ha' => hne ?_
    cases hc.owned.exclusive.unique (show a ∈ s.held (.queue q) from ha)
      (show a ∈ s.held (.queue q') from ha')
    rfl
  mem_iff a := by
    constructor
    · intro ha
      obtain ⟨q, -, ha⟩ := List.mem_flatMap.mp ha
      obtain ⟨n, hn, -⟩ := hc.owned.fits (p := .queue q) ha
      rw [hn]
      exact nofun
    · intro ha
      obtain ⟨n, hn⟩ := Option.ne_none_iff_exists'.mp ha
      obtain ⟨p, hp⟩ := hc.owned.holder hn
      obtain ⟨q, rfl, hq⟩ := he.held_queue hl hp
      exact List.mem_flatMap.mpr ⟨q, Config.mem_queues.mpr hq, hp⟩
  original {c n} hn hcopy := by
    obtain ⟨p, hp⟩ := hc.owned.holder hn
    obtain ⟨q, rfl, -⟩ := he.held_queue hl hp
    have hlive : s.LiveCopy c n.retainCount := by
      refine ⟨n, hn, hcopy, rfl, fun t ht => ?_⟩
      cases hc.owned.exclusive.unique hp ht
    obtain ⟨o, ho, hoc, -⟩ := hc.owned.original hlive hn
    exact ⟨o, ho, hoc⟩

/-- **`newiup_exit` frees everything.**  The copies go first, so that their originals are
still there to be counted down. -/
theorem newiupExit_frees {x : Account} (he : Ended cfg x.state) (hc : Counts cfg x.state)
    (hl : Linked cfg x.state) :
    ∃ x', newiupExit cfg x = some x' ∧ Left x'.state [] ∧
      FreedFrom x x' (x.state.linked cfg.queues) := by
  have hleft := he.left hc hl
  obtain ⟨hsrv, hsche, hdisj⟩ := List.nodup_append'.mp cfg.nodup_queues
  rw [Config.queues, State.linked, List.flatMap_append] at hleft
  have hcopies : Freeable x.state (x.state.linked ((List.range cfg.servers.length).map .srv)) := by
    refine Or.inl fun a ha n hn => ?_
    obtain ⟨q, hq, ha⟩ := List.mem_flatMap.mp ha
    obtain ⟨v, -, rfl⟩ := List.mem_map.mp hq
    exact hc.owned.isCopy (p := .queue (.srv v)) ha rfl hn
  obtain ⟨x₁, hx₁, hleft₁, hfrees₁, hqueue₁⟩ := exitQueues_frees hsrv hleft hcopies
  -- the loops over the servers leave the queues of the groups as they were
  have hsame : x₁.state.linked ((List.range cfg.groups.length).map .sche) =
      x.state.linked ((List.range cfg.groups.length).map .sche) :=
    List.flatMap_congr fun q hq => by rw [hqueue₁ q fun hq' => hdisj hq' hq]
  have horiginals :
      Freeable x₁.state (x₁.state.linked ((List.range cfg.groups.length).map .sche)) := by
    refine Or.inr fun a n' hn' => ?_
    have ha := (hleft₁.mem_iff a).mpr (by rw [hn']; exact nofun)
    obtain ⟨q, hq, ha⟩ := List.mem_flatMap.mp ha
    obtain ⟨g, -, rfl⟩ := List.mem_map.mp hq
    obtain ⟨n, hn, hcopy⟩ := hfrees₁.copy hn'
    rw [hcopy]
    exact (hc.owned.isOriginal (p := .queue (.sche g)) ha rfl hn).copy
  have hleft₂ : Left x₁.state
      (x₁.state.linked ((List.range cfg.groups.length).map .sche) ++ []) := by
    rw [List.append_nil, hsame]
    exact hleft₁
  obtain ⟨x', hx', hleft', hfrees', -⟩ := exitQueues_frees hsche hleft₂ horiginals
  refine ⟨x', ?_, hleft', ?_⟩
  · rw [newiupExit, serversExit, hx₁]
    exact hx'
  · rw [Config.queues, State.linked, List.flatMap_append]
    rw [hsame] at hfrees'
    exact hfrees₁.trans hfrees'

/-- **Nodes are neither lost, duplicated nor freed twice.**  In every reachable state each
allocated node is at one place, once, and what is at a place is allocated; `size` is the
number of nodes in a queue; a thread that has not ended can take its next step, and the
counter this step uses belongs to an allocated original; and what the process allocated was
freed once, or is still allocated.  When the threads have ended, `newiup_exit` runs to its
end, and everything the process allocated has been freed once. -/
theorem nodes_accounted {disk : Fs} {x : Account}
    (h : (accounts cfg disk).Reach (fun _ _ => True) x) :
    (∀ a, x.state.heap a ≠ none → ∃! p, a ∈ x.state.held p) ∧
    (∀ p, (x.state.held p).Nodup ∧ ∀ a ∈ x.state.held p, x.state.heap a ≠ none) ∧
    (∀ q, (x.state.queue q).size = (x.state.queue q).head.length) ∧
    (∀ act, Runs cfg x.state act → (step cfg x.state act).isSome = true) ∧
    (∀ act b, counterOf x.state act = some b → ∃ o, x.state.heap b = some o ∧ o.copy = false) ∧
    (x.freed.Nodup ∧
      ∀ a, a ∈ x.freed ↔ x.base ≤ a ∧ a < x.state.next ∧ x.state.heap a = none) ∧
    (Ended cfg x.state → ∃ x', newiupExit cfg x = some x' ∧ x'.freed.Nodup ∧
      (∀ a, a ∈ x'.freed ↔ x.base ≤ a ∧ a < x.state.next) ∧ ∀ a, x'.state.heap a = none) := by
  have hr : (daemon cfg disk).Reach (fun _ _ => True) x.state := Account.reach h
  have hc : Counts cfg x.state := .reach hr
  have hl : Linked cfg x.state := .reach hr
  have ht : Tallied x := .reach (G := fun _ _ => True) h
  refine ⟨fun a ha => ?_, fun p => ⟨hc.owned.exclusive.nodup p, fun a ha => ?_⟩, hl.size,
    fun _ => step_isSome hc hl, fun _ _ => counterOf_original hc, ⟨ht.nodup, ht.mem_freed⟩,
    fun he => ?_⟩
  · obtain ⟨n, hn⟩ := Option.ne_none_iff_exists'.mp ha
    obtain ⟨p, hp⟩ := hc.owned.holder hn
    exact ⟨p, hp, fun q hq => hc.owned.exclusive.unique hq hp⟩
  · obtain ⟨n, hn, -⟩ := hc.owned.fits ha
    rw [hn]
    exact nofun
  · have hleft := he.left hc hl
    obtain ⟨x', hx', hleft', hfrees⟩ := newiupExit_frees he hc hl
    refine ⟨x', hx', ?_, fun a => ?_, fun a => ?_⟩
    · -- what was linked had not been freed
      rw [hfrees.freed.nodup_iff]
      refine hleft.nodup.append ht.nodup fun a ha hf => ?_
      exact (hleft.mem_iff a).mp ha ((ht.mem_freed a).mp hf).2.2
    · rw [hfrees.freed.mem_iff, List.mem_append, hleft.mem_iff, ht.mem_freed]
      constructor
      · rintro (ha | ⟨hb, hlt, -⟩)
        · obtain ⟨n, hn⟩ := Option.ne_none_iff_exists'.mp ha
          exact ⟨ht.base_le a ha, hc.owned.fresh hn⟩
        · exact ⟨hb, hlt⟩
      · rintro ⟨hb, hlt⟩
        by_cases ha : x.state.heap a = none
        · exact Or.inr ⟨hb, hlt, ha⟩
        · exact Or.inl ha
    · by_contra ha
      cases (hleft'.mem_iff a).mpr ha

end Accounted

/-- The theorem where the threads end with an original and its copy in the queues. -/
theorem nodes_accounted_queued :
    ∃ x x', (accounts sampleConfig sampleDisk).exec ⟨.boot sampleDisk 0, 0, []⟩
        (.monitor 0 "/d/a.c".toList :: List.replicate 13 (.sche 0 []) ++
          .signal :: List.replicate 3 (.sche 0 []) ++ [.upload (0, 0) 0 []]) = some x ∧
      (x.state.queue (.srv 0)).head = [1] ∧ (x.state.queue (.sche 0)).head = [0] ∧
      newiupExit sampleConfig x = some x' ∧ x'.freed.Nodup ∧ ∀ a, a ∈ x'.freed ↔ a < 2 := by
  have hrun : ((accounts sampleConfig sampleDisk).exec ⟨.boot sampleDisk 0, 0, []⟩
      (.monitor 0 "/d/a.c".toList :: List.replicate 13 (.sche 0 []) ++
        .signal :: List.replicate 3 (.sche 0 []) ++ [.upload (0, 0) 0 []])).map
        (fun x => ((x.state.queue (.srv 0)).head, (x.state.queue (.sche 0)).head,
          decide (x.state.sche 0 = .stopped ∧ x.state.upload (0, 0) = .stopped ∧ x.base = 0 ∧
            x.state.next = 2))) = some ([1], [0], true) := by decide +kernel
  obtain ⟨x, hx, he⟩ := Option.map_eq_some_iff.mp hrun
  obtain ⟨hsrv, he⟩ := Prod.ext_iff.mp he
  obtain ⟨hsche, he⟩ := Prod.ext_iff.mp he
  obtain ⟨hs, hu, hbase, hnext⟩ := of_decide_eq_true he
  have hreach := System.Reach.of_exec (S := accounts _ _) (G := fun _ _ => True)
    (g := fun _ _ => true) (fun _ _ _ _ => trivial) (.start ⟨⟨0, rfl⟩, rfl, rfl⟩)
    (by decide +kernel) hx
  have hended : Ended sampleConfig x.state := by
    refine ⟨fun g mg hmg _ => ?_, fun t rs hrs ht => ?_⟩
    · obtain rfl : g = 0 := Nat.lt_one_iff.mp (List.getElem?_eq_some_iff.mp hmg).1
      exact hs
    · obtain ⟨v, k⟩ := t
      obtain rfl : v = 0 := Nat.lt_one_iff.mp (List.getElem?_eq_some_iff.mp hrs).1
      cases hrs
      obtain rfl : k = 0 := Nat.lt_one_iff.mp ht
      exact hu
  obtain ⟨x', hx', hnodup, hmem, -⟩ := (nodes_accounted hreach).2.2.2.2.2.2 hended
  refine ⟨x, x', hx, hsrv, hsche, hx', hnodup, fun a => ?_⟩
  rw [hmem, hbase, hnext]
  exact and_iff_right (Nat.zero_le a)

end Newiup
