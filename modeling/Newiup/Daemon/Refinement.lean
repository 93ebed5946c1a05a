import Newiup.Daemon.Custody
import Newiup.Daemon.Limit

/-!
# The daemon refines its model

In the model of the daemon a thread takes a node from a queue, or adds one, in one step.  In
the daemon it calls the queue, where it waits for the lock and goes through the links one
statement after the other.  Until the loops are ended the first is what the second does, up
to the addresses of the nodes: a monitor thread allocates its node some time before it adds
it, and in the model at once.

## Main definitions

* `Follows` — where a thread stands in the daemon, and in the model.
* `Refines` — a state of the daemon with lists, and one of the model.

## Main results

* `listDaemon_simulated`, `spinDaemon_refines` — **the daemon refines its model.**
-/

namespace Newiup

open Newiup.System

/-- What the surroundings of the daemon do. -/
def ClientAct.env : ClientAct → Option Act
  | .produce p b => some (.produce p b)
  | .unproduce p => some (.unproduce p)
  | .tick n => some (.tick n)
  | .signal => some .signal
  | _ => none

/-- What the surroundings do in the model; there the process may be killed. -/
def Act.env : Act → Option Act
  | .sche _ _ => none
  | .upload _ _ _ => none
  | .monitor _ _ => none
  | act => some act

/-! ### The relation -/

/-- The node that a monitor thread has allocated and not yet added. -/
structure NewNode (cfg : Config) (β : Addr → Addr → Prop) (d : State) (g : ℕ) (a : Addr) :
    Prop where
  outside b : ¬β a b
  lt : a < d.next
  node : ∃ mg m src, cfg.groups[g]? = some mg ∧ mg.enable = true ∧
    isMonitorType m mg.monitorFileType = NEWIUP_OK ∧ addFileSuffixProcess mg m = some src ∧
    d.heap a = some ⟨g, false, 0, a, m, src, none, .sche g⟩

/-- Where a thread stands in the daemon with memory `d`, and in the state `s` of the model.

A scheduler and an upload thread stand at the same place in both, with nodes that belong to
each other.  A monitor thread has no place in the model, where it allocates and adds its node
in one step: in the daemon it may hold a node that belongs to none of the model, as it was
allocated. -/
def Follows (cfg : Config) (β : Addr → Addr → Prop) (d s : State) : Thread → ThreadPc → Prop
  | .monitor g, .monitor o => ∀ a, o = some a → NewNode cfg β d g a
  | .sche g, .sche p => SchePc.Rel β p (s.sche g)
  | .upload t, .upload p => UploadPc.Rel β p (s.upload t)
  | _, _ => False

/-- A thread that stands at a call makes the call. -/
inductive Calling (cfg : Config) : Thread → ThreadPc → QueueCall QueueId Addr → Prop
  | add {g a} : Calling cfg (.monitor g) (.monitor (some a)) (.push (.sche g) a)
  | schePop {g mg} (hmg : cfg.groups[g]? = some mg) (he : mg.enable = true) :
      Calling cfg (.sche g) (.sche .pop) (.pop (.sche g))
  | push {g mg a i v c} (hmg : cfg.groups[g]? = some mg) (he : mg.enable = true) :
      Calling cfg (.sche g) (.sche (.push a i v c)) (.push (.srv v) c)
  | requeue {g mg a} (hmg : cfg.groups[g]? = some mg) (he : mg.enable = true) :
      Calling cfg (.sche g) (.sche (.requeue a)) (.push (.sche g) a)
  | uploadPop {t rs} (hrs : cfg.servers[t.1]? = some rs) (ht : t.2 < rs.threadNum) :
      Calling cfg (.upload t) (.upload .pop) (.pop (.srv t.1))
  | uploadRequeue {t rs c} (hrs : cfg.servers[t.1]? = some rs) (ht : t.2 < rs.threadNum) :
      Calling cfg (.upload t) (.upload (.requeue c)) (.push (.srv t.1) c)

/-- **The daemon with lists is at `(k, x)`, the model at `s`**, while the loops run.

The place of a thread is its effective one: a call whose operation has been performed counts
as returned, since the model has taken its step by then.  Once the loops are ended the two may
part: a thread of the daemon that is in a call by then completes it, and the model's does not
make it. -/
structure Refines (cfg : Config) (β : Addr → Addr → Prop) (k : Client)
    (x : AtomicState Thread QueueId Addr) (s : State) : Prop where
  mirrors : Mirrors β k.rest s
  fresh {a b} : β a b → a < k.rest.next ∧ b < s.next
  grp a : (∀ b, ¬β a b) → k.rest.grp a = 0
  grp' b : (∀ a, ¬β a b) → s.grp b = 0
  thread t : Follows cfg β k.rest s t (effective k x t)
  queue q : List.Forall₂ β (x.queue q) (s.queue q).head
  size q : (s.queue q).size = (x.queue q).length
  calling {t c} : x.pc t = .called c → Calling cfg t (k.place t) c
  monitorRun : k.rest.monitorRun = true
  uploadRun : k.rest.uploadRun = true

section Follows

variable {cfg : Config} {β γ : Addr → Addr → Prop} {d d' s s' : State} {t : Thread}
  {P : ThreadPc}

/-- The threads of both states stay where they are. -/
theorem Follows.congr (h : Follows cfg β d s t P) (hβ : ∀ {a b}, β a b → γ a b)
    (hsche : s'.sche = s.sche) (hupload : s'.upload = s.upload)
    (hnew : ∀ g a, t = .monitor g → P = .monitor (some a) → NewNode cfg γ d' g a) :
    Follows cfg γ d' s' t P := by
  cases t with
  | monitor g =>
    cases P with
    | monitor o =>
      rintro a rfl
      exact hnew g a rfl rfl
    | _ => exact h
  | sche g =>
    cases P with
    | sche p =>
      show SchePc.Rel γ p (s'.sche g)
      rw [hsche]
      exact SchePc.Rel.mono h hβ
    | _ => exact h
  | upload t =>
    cases P with
    | upload p =>
      show UploadPc.Rel γ p (s'.upload t)
      rw [hupload]
      exact UploadPc.Rel.mono h hβ
    | _ => exact h

theorem Follows.setSche (h : Follows cfg β d s t P) {g : ℕ} (p : SchePc) (ht : t ≠ .sche g) :
    Follows cfg β d (s.setSche g p) t P := by
  cases t with
  | sche g' =>
    have hg : g' ≠ g := fun hg => ht (congrArg Thread.sche hg)
    cases P with
    | sche p' =>
      show SchePc.Rel β p' ((s.setSche g p).sche g')
      rw [State.sche_setSche_of_ne _ _ _ hg]
      exact h
    | _ => exact h
  | monitor g' => cases P <;> exact h
  | upload t' => cases P <;> exact h

theorem Follows.setUpload (h : Follows cfg β d s t P) {u : ThreadId} (p : UploadPc)
    (ht : t ≠ .upload u) : Follows cfg β d (s.setUpload u p) t P := by
  cases t with
  | upload t' =>
    have hu : t' ≠ u := fun hu => ht (congrArg Thread.upload hu)
    cases P with
    | upload p' =>
      show UploadPc.Rel β p' ((s.setUpload u p).upload t')
      rw [State.upload_setUpload_of_ne _ _ _ hu]
      exact h
    | _ => exact h
  | monitor g => cases P <;> exact h
  | sche g => cases P <;> exact h

end Follows

/-! ### Steps that involve no queue -/

namespace Refines

variable {cfg : Config} {β : Addr → Addr → Prop} {k k' : Client}
  {x : AtomicState Thread QueueId Addr} {s : State} {g : ℕ} {t : ThreadId}

theorem newNode (h : Refines cfg β k x s) {a : Addr}
    (ha : effective k x (.monitor g) = .monitor (some a)) : NewNode cfg β k.rest g a := by
  have hfollows := h.thread (.monitor g)
  rw [ha] at hfollows
  exact hfollows a rfl

theorem fits_sche (h : Refines cfg β k x s) (hidle : x.pc (.sche g) = .idle) :
    SchePc.Rel β (k.rest.sche g) (s.sche g) := by
  have hfollows := h.thread (.sche g)
  rw [effective_of_idle hidle] at hfollows
  exact hfollows

theorem fits_upload (h : Refines cfg β k x s) (hidle : x.pc (.upload t) = .idle) :
    UploadPc.Rel β (k.rest.upload t) (s.upload t) := by
  have hfollows := h.thread (.upload t)
  rw [effective_of_idle hidle] at hfollows
  exact hfollows

/-- The memory changes, and more addresses may belong to each other. -/
theorem memory (h : Refines cfg β k x s) {γ : Addr → Addr → Prop} {D S : State}
    (hβ : ∀ {a b}, β a b → γ a b) (hm : Mirrors γ D S)
    (hfresh : ∀ {a b}, γ a b → a < D.next ∧ b < S.next)
    (hgrp : ∀ a, (∀ b, ¬γ a b) → D.grp a = 0) (hgrp' : ∀ b, (∀ a, ¬γ a b) → S.grp b = 0)
    (hsche : D.sche = k.rest.sche) (hupload : D.upload = k.rest.upload)
    (hsche' : S.sche = s.sche) (hupload' : S.upload = s.upload) (hqueue : S.queue = s.queue)
    (hnew : ∀ g a, NewNode cfg β k.rest g a → NewNode cfg γ D g a)
    (hmonitorRun : D.monitorRun = true) (huploadRun : D.uploadRun = true) :
    Refines cfg γ (k.put D) x S := by
  have hplace (t : Thread) : (k.put D).place t = k.place t := by
    cases t with
    | monitor g => rfl
    | sche g => exact congrArg (fun f => ThreadPc.sche (f g)) hsche
    | upload t => exact congrArg (fun f => ThreadPc.upload (f t)) hupload
  refine ⟨hm, hfresh, hgrp, hgrp', fun t => ?_, fun q => ?_, fun q => ?_, fun {t c} hc => ?_,
    hmonitorRun, huploadRun⟩
  · have heff : effective (k.put D) x t = effective k x t := effective_congr (hplace t) rfl
    rw [heff]
    refine (h.thread t).congr hβ hsche' hupload' fun g a ht ha => ?_
    obtain rfl := ht
    exact hnew g a (h.newNode ha)
  · rw [hqueue]
    exact (h.queue q).imp fun _ _ => hβ
  · rw [hqueue]
    exact h.size q
  · rw [hplace]
    exact h.calling hc

/-- What is around the threads changes. -/
theorem surroundings (h : Refines cfg β k x s) {D S : State} (hm : Mirrors β D S)
    (hD : SameThreads k.rest D) (hS : SameThreads s S) (hsp : Spares β k.rest D)
    (hmonitorRun : D.monitorRun = true) (huploadRun : D.uploadRun = true) :
    Refines cfg β (k.put D) x S := by
  refine h.memory id hm (fun hab => ?_) (fun a ha => ?_) (fun b hb => ?_) hD.sche hD.upload hS.sche
    hS.upload hS.queue (fun g a hnew => ⟨hnew.outside, ?_, ?_⟩) hmonitorRun huploadRun
  · rw [hD.next, hS.next]
    exact h.fresh hab
  · rw [hD.grp]
    exact h.grp a ha
  · rw [hS.grp]
    exact h.grp' b hb
  · rw [hD.next]
    exact hnew.lt
  · rw [hsp a hnew.outside]
    exact hnew.node

/-- A scheduler that is in no call moves. -/
theorem setSche (h : Refines cfg β k x s) {p p' : SchePc} (hidle : x.pc (.sche g) = .idle)
    (hrel : SchePc.Rel β p p') :
    Refines cfg β (k.put (k.rest.setSche g p)) x (s.setSche g p') := by
  have hplace (t : Thread) := k.place_put_setSche g p (.refl k.rest) (t := t)
  refine { h with mirrors := h.mirrors.setSche g p p', thread := fun t => ?_, calling := ?_ }
  · by_cases ht : t = .sche g
    · obtain rfl := ht
      rw [effective_of_idle hidle, hplace, if_pos rfl]
      show SchePc.Rel β p ((s.setSche g p').sche g)
      rw [State.sche_setSche_self]
      exact hrel
    · have heff : effective (k.put (k.rest.setSche g p)) x t = effective k x t :=
        effective_congr ((hplace t).trans (if_neg ht)) rfl
      rw [heff]
      refine ((h.thread t).setSche p' ht).congr id rfl rfl fun g a hg ha => ?_
      obtain rfl := hg
      have hnew := h.newNode ha
      exact ⟨hnew.outside, hnew.lt, hnew.node⟩
  · intro t c hc
    have ht : t ≠ .sche g := by
      rintro rfl
      rw [hidle] at hc
      cases hc
    rw [hplace, if_neg ht]
    exact h.calling hc

/-- An upload thread that is in no call moves. -/
theorem setUpload (h : Refines cfg β k x s) {p p' : UploadPc} (hidle : x.pc (.upload t) = .idle)
    (hrel : UploadPc.Rel β p p') :
    Refines cfg β (k.put (k.rest.setUpload t p)) x (s.setUpload t p') := by
  have hplace (u : Thread) := k.place_put_setUpload t p (.refl k.rest) (u := u)
  refine { h with mirrors := h.mirrors.setUpload t p p', thread := fun u => ?_, calling := ?_ }
  · by_cases hu : u = .upload t
    · obtain rfl := hu
      rw [effective_of_idle hidle, hplace, if_pos rfl]
      show UploadPc.Rel β p ((s.setUpload t p').upload t)
      rw [State.upload_setUpload_self]
      exact hrel
    · have heff : effective (k.put (k.rest.setUpload t p)) x u = effective k x u :=
        effective_congr ((hplace u).trans (if_neg hu)) rfl
      rw [heff]
      refine ((h.thread u).setUpload p' hu).congr id rfl rfl fun g a hg ha => ?_
      obtain rfl := hg
      have hnew := h.newNode ha
      exact ⟨hnew.outside, hnew.lt, hnew.node⟩
  · intro u c hc
    have hu : u ≠ .upload t := by
      rintro rfl
      rw [hidle] at hc
      cases hc
    rw [hplace, if_neg hu]
    exact h.calling hc

/-- Who owns a node does not matter. -/
theorem owners (h : Refines cfg β k x s) {x' : AtomicState Thread QueueId Addr}
    (hpc : x'.pc = x.pc) (hqueue : x'.queue = x.queue) : Refines cfg β k x' s :=
  { h with
    thread := fun t => by
      have heff : effective k x' t = effective k x t := effective_congr rfl (by rw [hpc])
      rw [heff]
      exact h.thread t
    queue := fun q => by
      rw [hqueue]
      exact h.queue q
    size := fun q => by
      rw [hqueue]
      exact h.size q
    calling := fun {t c} hc => h.calling (hpc ▸ hc) }

/-! ### Calls and returns -/

theorem call (h : Refines cfg β k x s) {t : Thread} {c : QueueCall QueueId Addr}
    (hidle : x.pc t = .idle) (hc : Calling cfg t (k.place t) c) :
    Refines cfg β { k with waiting := Function.update k.waiting t true }
      (x.go t (.called c)) s := by
  refine { h with thread := fun u => ?_, calling := fun {u c'} hc' => ?_ }
  · by_cases hu : u = t
    · obtain rfl := hu
      rw [effective_of_called (Function.update_self ..)]
      have hfollows := h.thread u
      rw [effective_of_idle hidle] at hfollows
      exact hfollows
    · have heff : effective { k with waiting := Function.update k.waiting t true }
          (x.go t (.called c)) u = effective k x u :=
        effective_congr rfl (Function.update_of_ne hu ..)
      rw [heff]
      exact h.thread u
  · by_cases hu : u = t
    · obtain rfl := hu
      simp only [AtomicState.go, Function.update_self] at hc'
      cases hc'
      exact hc
    · simp only [AtomicState.go, Function.update_of_ne hu] at hc'
      exact h.calling hc'

theorem ret (h : Refines cfg β k x s) {t : Thread} {r : Option Addr} (hback : x.pc t = .back r) :
    Refines cfg β { k.resume r t with waiting := Function.update k.waiting t false }
      (x.go t .idle) s := by
  have hself := k.place_resume_self r t
  have hne {u : Thread} (hu : u ≠ t) := k.place_resume_of_ne r hu
  have hstate : Mirrors β (k.resume r t).rest s ∧ (k.resume r t).rest.next = k.rest.next ∧
      (k.resume r t).rest.grp = k.rest.grp ∧ (k.resume r t).rest.heap = k.rest.heap ∧
      (k.resume r t).rest.monitorRun = k.rest.monitorRun ∧
      (k.resume r t).rest.uploadRun = k.rest.uploadRun := by
    cases t with
    | monitor g => exact ⟨h.mirrors, rfl, rfl, rfl, rfl, rfl⟩
    | sche g => exact ⟨{ h.mirrors with }, rfl, rfl, rfl, rfl, rfl⟩
    | upload t => exact ⟨{ h.mirrors with }, rfl, rfl, rfl, rfl, rfl⟩
  obtain ⟨hm, hnext, hgrp, hheap, hmonitor, hupload⟩ := hstate
  -- it counted as returned before, so that nothing is left for the model to do
  refine ⟨hm, fun hab => hnext ▸ h.fresh hab, fun a ha => hgrp ▸ h.grp a ha, h.grp',
    fun u => ?_, h.queue, h.size, fun {u c} hc => ?_, hmonitor ▸ h.monitorRun,
    hupload ▸ h.uploadRun⟩
  · have heff : effective { k.resume r t with waiting := Function.update k.waiting t false }
        (x.go t .idle) u = effective k x u := by
      by_cases hu : u = t
      · obtain rfl := hu
        rw [effective_of_back hback, effective_of_idle (Function.update_self ..)]
        exact hself
      · exact effective_congr (hne hu) (Function.update_of_ne hu ..)
    rw [heff]
    refine (h.thread u).congr id rfl rfl fun g a hg ha => ?_
    obtain rfl := hg
    have hnew := h.newNode ha
    exact ⟨hnew.outside, hnext ▸ hnew.lt, hheap ▸ hnew.node⟩
  · by_cases hu : u = t
    · obtain rfl := hu
      simp [AtomicState.go] at hc
    · simp only [AtomicState.go, Function.update_of_ne hu] at hc
      exact hne hu ▸ h.calling hc

/-- A call takes effect. -/
theorem performed (h : Refines cfg β k x s) {γ : Addr → Addr → Prop} {t : Thread}
    {c : QueueCall QueueId Addr} {r : Option Addr} {x' : AtomicState Thread QueueId Addr}
    {s' : State} (hcalled : x.pc t = .called c)
    (hpc : x'.pc = Function.update x.pc t (.back r)) (hm : Mirrors γ k.rest s')
    (hfresh : ∀ {a b}, γ a b → a < k.rest.next ∧ b < s'.next)
    (hgrp : ∀ a, (∀ b, ¬γ a b) → k.rest.grp a = 0) (hgrp' : ∀ b, (∀ a, ¬γ a b) → s'.grp b = 0)
    (hself : Follows cfg γ k.rest s' t ((k.place t).resume r))
    (hothers : ∀ u, u ≠ t → Follows cfg γ k.rest s' u (effective k x u))
    (hqueue : ∀ q, List.Forall₂ γ (x'.queue q) (s'.queue q).head ∧
      (s'.queue q).size = (x'.queue q).length) : Refines cfg γ k x' s' where
  mirrors := hm
  fresh := hfresh
  grp := hgrp
  grp' := hgrp'
  thread u := by
    by_cases hu : u = t
    · obtain rfl := hu
      rw [effective_of_back (by rw [hpc, Function.update_self])]
      exact hself
    · have heff : effective k x' u = effective k x u :=
        effective_congr rfl (by rw [hpc, Function.update_of_ne hu])
      rw [heff]
      exact hothers u hu
  queue q := (hqueue q).1
  size q := (hqueue q).2
  calling {u c'} hc' := by
    by_cases hu : u = t
    · obtain rfl := hu
      rw [hpc, Function.update_self] at hc'
      cases hc'
    · rw [hpc, Function.update_of_ne hu] at hc'
      exact h.calling hc'
  monitorRun := h.monitorRun
  uploadRun := h.uploadRun

/-- The first nodes of a queue. -/
theorem queue_cons (h : Refines cfg β k x s) {q : QueueId} {a : Addr} {as : List Addr}
    (hq : x.queue q = a :: as) :
    ∃ b bs, s.queue q = ⟨b :: bs, (as.length : ℤ) + 1⟩ ∧ β a b ∧ List.Forall₂ β as bs := by
  have hnodes := h.queue q
  have hsize := h.size q
  rw [hq] at hnodes hsize
  obtain ⟨b, bs, hab, hrest, hhead⟩ := List.forall₂_cons_left_iff.mp hnodes
  refine ⟨b, bs, ?_, hab, hrest⟩
  cases hs : s.queue q with
  | mk head size =>
    rw [hs] at hhead hsize
    subst hhead hsize
    simp

/-- A node has been taken from a queue. -/
theorem queue_popped (h : Refines cfg β k x s) {q : QueueId} {as bs : List Addr}
    (hrest : List.Forall₂ β as bs) (q' : QueueId) :
    List.Forall₂ β (Function.update x.queue q as q')
        (Function.update s.queue q ⟨bs, (as.length : ℤ) + 1 - 1⟩ q').head ∧
      (Function.update s.queue q ⟨bs, (as.length : ℤ) + 1 - 1⟩ q').size =
        (Function.update x.queue q as q').length := by
  by_cases hq : q' = q
  · obtain rfl := hq
    rw [Function.update_self, Function.update_self]
    exact ⟨hrest, by simp⟩
  · rw [Function.update_of_ne hq, Function.update_of_ne hq]
    exact ⟨h.queue q', h.size q'⟩

/-- A node has been added to a queue. -/
theorem queue_pushed (h : Refines cfg β k x s) {γ : Addr → Addr → Prop}
    (hβ : ∀ {a b}, β a b → γ a b) {q : QueueId} {a b : Addr} (hab : γ a b) (q' : QueueId) :
    List.Forall₂ γ (Function.update x.queue q (x.queue q ++ [a]) q')
        ((s.queueNodePush q b).queue q').head ∧
      ((s.queueNodePush q b).queue q').size =
        (Function.update x.queue q (x.queue q ++ [a]) q').length := by
  rw [State.queue_queueNodePush]
  by_cases hq : q' = q
  · obtain rfl := hq
    rw [Function.update_self, Function.update_self]
    refine ⟨List.rel_append ((h.queue q').imp fun _ _ => hβ) (.cons hab .nil), ?_⟩
    simp [h.size q']
  · rw [Function.update_of_ne hq, Function.update_of_ne hq]
    exact ⟨(h.queue q').imp fun _ _ => hβ, h.size q'⟩

/-- The thread that calls, in the model. -/
theorem follows_called (h : Refines cfg β k x s) {t : Thread} {c : QueueCall QueueId Addr}
    (hcalled : x.pc t = .called c) : Follows cfg β k.rest s t (k.place t) := by
  have hfollows := h.thread t
  rw [effective_of_called hcalled] at hfollows
  exact hfollows

/-- The memory of the daemon is the same, and the model moves another scheduler. -/
theorem others_setSche (h : Refines cfg β k x s) {s' : State} {p : SchePc}
    (hsche : s'.sche = s.sche) (hupload : s'.upload = s.upload) (u : Thread)
    (hu : u ≠ .sche g) : Follows cfg β k.rest (s'.setSche g p) u (effective k x u) := by
  refine Follows.setSche ?_ p hu
  refine (h.thread u).congr id hsche hupload fun g a hg ha => ?_
  obtain rfl := hg
  exact h.newNode ha

/-- The memory of the daemon is the same, and the model moves another upload thread. -/
theorem others_setUpload (h : Refines cfg β k x s) {s' : State} {p : UploadPc}
    (hsche : s'.sche = s.sche) (hupload : s'.upload = s.upload) (u : Thread)
    (hu : u ≠ .upload t) : Follows cfg β k.rest (s'.setUpload t p) u (effective k x u) := by
  refine Follows.setUpload ?_ p hu
  refine (h.thread u).congr id hsche hupload fun g a hg ha => ?_
  obtain rfl := hg
  exact h.newNode ha

/-! ### A call takes effect -/

/-- The model answers with steps that the surroundings do not see. -/
def Answered (cfg : Config) (k : Client) (x : AtomicState Thread QueueId Addr) (s : State) :
    Prop :=
  ∃ act s' γ, step cfg s act = some s' ∧ act.env = none ∧ Refines cfg γ k x s'

theorem performSchePop (h : Refines cfg β k x s) {mg : MonitorGroup} {a : Addr} {as : List Addr}
    (hcalled : x.pc (.sche g) = .called (.pop (.sche g))) (hmg : cfg.groups[g]? = some mg)
    (he : mg.enable = true) (hpc : k.rest.sche g = .pop) (hq : x.queue (.sche g) = a :: as) :
    Answered cfg k { x.go (.sche g) (.back (some a)) with
      queue := Function.update x.queue (.sche g) as
      owner := Function.update x.owner a (some (.sche g)) } s := by
  have hrel : SchePc.Rel β (k.rest.sche g) (s.sche g) := h.follows_called hcalled
  rw [hpc] at hrel
  have hpc' : s.sche g = .pop := by
    generalize s.sche g = p at hrel
    cases hrel
    rfl
  obtain ⟨b, bs, hs, hab, hrest⟩ := h.queue_cons hq
  let queue := Function.update s.queue (.sche g) ⟨bs, (as.length : ℤ) + 1 - 1⟩
  refine ⟨.sche g [], State.setSche { s with queue := queue } g (.retain b), β, ?_, rfl,
    h.performed hcalled rfl { h.mirrors with } h.fresh h.grp h.grp' ?_
      (h.others_setSche rfl rfl) (h.queue_popped hrest)⟩
  · have hrun : s.monitorRun = true := h.mirrors.monitorRun.trans h.monitorRun
    simp [step, hmg, he, scheStep, hpc', hrun, State.queueNodePop, hs, queue]
  · show SchePc.Rel β ((k.rest.sche g).resume (some a)) _
    rw [hpc, State.sche_setSche_self]
    exact .retain hab

theorem performUploadPop (h : Refines cfg β k x s) {rs : RealServer} {a : Addr} {as : List Addr}
    (hcalled : x.pc (.upload t) = .called (.pop (.srv t.1))) (hrs : cfg.servers[t.1]? = some rs)
    (ht : t.2 < rs.threadNum) (hpc : k.rest.upload t = .pop)
    (hq : x.queue (.srv t.1) = a :: as) :
    Answered cfg k { x.go (.upload t) (.back (some a)) with
      queue := Function.update x.queue (.srv t.1) as
      owner := Function.update x.owner a (some (.upload t)) } s := by
  have hrel : UploadPc.Rel β (k.rest.upload t) (s.upload t) := h.follows_called hcalled
  rw [hpc] at hrel
  have hpc' : s.upload t = .pop := by
    generalize s.upload t = p at hrel
    cases hrel
    rfl
  obtain ⟨b, bs, hs, hab, hrest⟩ := h.queue_cons hq
  let queue := Function.update s.queue (.srv t.1) ⟨bs, (as.length : ℤ) + 1 - 1⟩
  refine ⟨.upload t 0 [], State.setUpload { s with queue := queue } t (.avail b), β, ?_, rfl,
    h.performed hcalled rfl { h.mirrors with } h.fresh h.grp h.grp' ?_
      (h.others_setUpload rfl rfl) (h.queue_popped hrest)⟩
  · have hrun : s.uploadRun = true := h.mirrors.uploadRun.trans h.uploadRun
    simp [step, hrs, ht, uploadStep, hpc', hrun, State.queueNodePop, hs, queue]
  · show UploadPc.Rel β ((k.rest.upload t).resume (some a)) _
    rw [hpc, State.upload_setUpload_self]
    exact .avail hab

theorem performPush (h : Refines cfg β k x s) {mg : MonitorGroup} {a c : Addr} {i v : ℕ}
    (hcalled : x.pc (.sche g) = .called (.push (.srv v) c)) (hmg : cfg.groups[g]? = some mg)
    (he : mg.enable = true) (hpc : k.rest.sche g = .push a i v c) :
    Answered cfg k { x.go (.sche g) (.back none) with
      queue := Function.update x.queue (.srv v) (x.queue (.srv v) ++ [c])
      owner := Function.update x.owner c none } s := by
  have hrel : SchePc.Rel β (k.rest.sche g) (s.sche g) := h.follows_called hcalled
  rw [hpc] at hrel
  obtain ⟨b, d, hpc', hab, hcd⟩ : ∃ b d, s.sche g = .push b i v d ∧ β a b ∧ β c d := by
    generalize s.sche g = p at hrel
    cases hrel with
    | push hab hcd => exact ⟨_, _, rfl, hab, hcd⟩
  refine ⟨.sche g [], (s.queueNodePush (.srv v) d).setSche g (.dispatch b (i + 1)), β, ?_, rfl,
    h.performed hcalled rfl { h.mirrors with } h.fresh h.grp h.grp' ?_
      (h.others_setSche rfl rfl) (h.queue_pushed id hcd)⟩
  · simp [step, hmg, he, scheStep, hpc']
  · show SchePc.Rel β ((k.rest.sche g).resume none) _
    rw [hpc, State.sche_setSche_self]
    exact .dispatch hab

theorem performRequeue (h : Refines cfg β k x s) (hC : Counts cfg s) {mg : MonitorGroup}
    {a : Addr} (hcalled : x.pc (.sche g) = .called (.push (.sche g) a))
    (hmg : cfg.groups[g]? = some mg) (he : mg.enable = true) (hpc : k.rest.sche g = .requeue a) :
    Answered cfg k { x.go (.sche g) (.back none) with
      queue := Function.update x.queue (.sche g) (x.queue (.sche g) ++ [a])
      owner := Function.update x.owner a none } s := by
  have hrel : SchePc.Rel β (k.rest.sche g) (s.sche g) := h.follows_called hcalled
  rw [hpc] at hrel
  obtain ⟨b, hpc', hab⟩ : ∃ b, s.sche g = .requeue b ∧ β a b := by
    generalize s.sche g = p at hrel
    cases hrel with
    | requeue hab => exact ⟨_, rfl, hab⟩
  obtain ⟨n, hn, horig, -⟩ := hC.sche_node (g := g) (a := b) (by rw [hpc']; rfl)
  refine ⟨.sche g [], (s.queueNodePush (.sche g) b).setSche g .pop, β, ?_, rfl,
    h.performed hcalled rfl { h.mirrors with } h.fresh h.grp h.grp' ?_
      (h.others_setSche rfl rfl) (h.queue_pushed id hab)⟩
  · simp [step, hmg, he, scheStep, hpc', hn, horig.scheQueue]
  · show SchePc.Rel β ((k.rest.sche g).resume none) _
    rw [hpc, State.sche_setSche_self]
    exact .pop

theorem performUploadRequeue (h : Refines cfg β k x s) {rs : RealServer} {c : Addr}
    (hcalled : x.pc (.upload t) = .called (.push (.srv t.1) c))
    (hrs : cfg.servers[t.1]? = some rs) (ht : t.2 < rs.threadNum)
    (hpc : k.rest.upload t = .requeue c) :
    Answered cfg k { x.go (.upload t) (.back none) with
      queue := Function.update x.queue (.srv t.1) (x.queue (.srv t.1) ++ [c])
      owner := Function.update x.owner c none } s := by
  have hrel : UploadPc.Rel β (k.rest.upload t) (s.upload t) := h.follows_called hcalled
  rw [hpc] at hrel
  obtain ⟨d, hpc', hcd⟩ : ∃ d, s.upload t = .requeue d ∧ β c d := by
    generalize s.upload t = p at hrel
    cases hrel with
    | requeue hcd => exact ⟨_, rfl, hcd⟩
  refine ⟨.upload t 0 [], (s.queueNodePush (.srv t.1) d).setUpload t .pop, β, ?_, rfl,
    h.performed hcalled rfl { h.mirrors with } h.fresh h.grp h.grp' ?_
      (h.others_setUpload rfl rfl) (h.queue_pushed id hcd)⟩
  · simp [step, hrs, ht, uploadStep, hpc']
  · show UploadPc.Rel β ((k.rest.upload t).resume none) _
    rw [hpc, State.upload_setUpload_self]
    exact .pop

/-- The node of a monitor thread appears in the model when it is added. -/
theorem performAdd (h : Refines cfg β k x s) (hC : Custody k x) {a : Addr}
    (hcalled : x.pc (.monitor g) = .called (.push (.sche g) a)) (hadded : k.added g = some a) :
    Answered cfg k { x.go (.monitor g) (.back none) with
      queue := Function.update x.queue (.sche g) (x.queue (.sche g) ++ [a])
      owner := Function.update x.owner a none } s := by
  have hplace : effective k x (.monitor g) = .monitor (some a) := by
    rw [effective_of_called hcalled, Client.place, hadded]
  have hnew := h.newNode hplace
  obtain ⟨mg, m, src, hmg, he, hm, hsrc, hheap⟩ := hnew.node
  have hnot (y : Addr) : ¬β y s.next := fun hy => (h.fresh hy).2.false
  have hmirrors : Mirrors (Extend β a s.next) k.rest (s.queueNodeAdd g m src) := by
    refine Mirrors.extend ?_ hnew.outside hnot ?_ ?_
    · refine h.mirrors.outside k.rest.next (s.next + 1) k.rest.queue _
        (fun _ _ _ => ⟨rfl, rfl⟩) fun y b hyb => ⟨?_, rfl⟩
      exact Function.update_of_ne (h.fresh hyb).2.ne ..
    · rw [hheap]
      show Option.Rel _ _ (Function.update s.heap s.next _ s.next)
      rw [Function.update_self]
      exact .some ⟨rfl, rfl, rfl, .inr ⟨rfl, rfl⟩, rfl, rfl, rfl, rfl⟩
    · show s.grp s.next = k.rest.grp a
      rw [h.grp' _ hnot, h.grp _ hnew.outside]
  -- the model adds the file now, and its new node belongs to the one that was allocated before
  refine ⟨.monitor g m, s.queueNodeAdd g m src, Extend β a s.next, ?_, rfl,
    h.performed hcalled rfl hmirrors ?_ ?_ ?_ ?_ ?_ ?_⟩
  · simp [step, hmg, he, hm, hsrc]
  · rintro c d (hcd | ⟨rfl, rfl⟩)
    · exact ⟨(h.fresh hcd).1, (h.fresh hcd).2.trans (Nat.lt_succ_self _)⟩
    · exact ⟨hnew.lt, Nat.lt_succ_self _⟩
  · exact fun c hc => h.grp c fun d hcd => hc d (.inl hcd)
  · exact fun d hd => h.grp' d fun c hcd => hd c (.inl hcd)
  · rintro b hb
    cases hb
  · intro u hu
    refine (h.thread u).congr .inl rfl rfl fun g' a' hg' ha' => ?_
    obtain rfl := hg'
    have hnew' := h.newNode ha'
    refine ⟨?_, hnew'.lt, hnew'.node⟩
    rintro b (hb | ⟨rfl, rfl⟩)
    · exact hnew'.outside b hb
    · -- the node belongs to one thread
      have hown := (hC.owner (.monitor g) a').mpr (by rw [hplace]; rfl)
      have hown' := (hC.owner (.monitor g') a').mpr (by rw [ha']; rfl)
      exact hu (Option.some.inj (hown'.symm.trans hown))
  · exact h.queue_pushed .inl (.inr ⟨rfl, rfl⟩)

/-- An empty queue is left as it is. -/
theorem performNone (h : Refines cfg β k x s) {u : Thread} {q : QueueId}
    (hcalled : x.pc u = .called (.pop q)) : Refines cfg β k (x.go u (.back none)) s := by
  refine h.performed hcalled rfl h.mirrors h.fresh h.grp h.grp' ?_ (fun v _ => h.thread v)
    fun q => ⟨h.queue q, h.size q⟩
  have hfollows := h.follows_called hcalled
  have hcalling := h.calling hcalled
  generalize k.place u = P at hfollows hcalling
  cases hcalling with
  | schePop => exact hfollows
  | uploadPop => exact hfollows

/-- **What a call does is a step of the model**, or none. -/
theorem perform (h : Refines cfg β k x s) (hC : Custody k x) (hcounts : Counts cfg s)
    {u : Thread} {x' : AtomicState Thread QueueId Addr} (hx : x.perform u = some x') :
    Answered cfg k x' s ∨ Refines cfg β k x' s := by
  unfold AtomicState.perform at hx
  -- a call of the operation is at one of six places, and each has its step of the model
  split at hx
  · next q hcalled =>
    split at hx
    · cases hx
      exact .inr (h.performNone hcalled)
    · next a as hq =>
      cases hx
      have hcalling := h.calling hcalled
      obtain ⟨P, hp⟩ : ∃ P, k.place u = P := ⟨_, rfl⟩
      rw [hp] at hcalling
      cases hcalling with
      | schePop hmg he =>
        exact .inl (h.performSchePop hcalled hmg he (by simpa [Client.place] using hp) hq)
      | uploadPop hrs ht =>
        exact .inl (h.performUploadPop hcalled hrs ht (by simpa [Client.place] using hp) hq)
  · next q a hcalled =>
    have hcalling := h.calling hcalled
    cases hx
    obtain ⟨P, hp⟩ : ∃ P, k.place u = P := ⟨_, rfl⟩
    rw [hp] at hcalling
    cases hcalling with
    | add => exact .inl (h.performAdd hC hcalled (by simpa [Client.place] using hp))
    | push hmg he =>
      exact .inl (h.performPush hcalled hmg he (by simpa [Client.place] using hp))
    | requeue hmg he =>
      exact .inl (h.performRequeue hcounts hcalled hmg he (by simpa [Client.place] using hp))
    | uploadRequeue hrs ht =>
      exact .inl (h.performUploadRequeue hcalled hrs ht (by simpa [Client.place] using hp))
  · cases hx

end Refines

/-! ### Steps of the client -/

/-- The loops are ended. -/
def Client.Stopping (k : Client) : Prop := k.rest.monitorRun = false ∨ k.rest.uploadRun = false

section Stopping

variable {cfg : Config} {k k' : Client} {s s' : State} {act : Act}

/-- The loops do not begin again. -/
theorem step_stopping (h : step cfg s act = some s') (hk : act ≠ .kill)
    (hs : s.monitorRun = false ∨ s.uploadRun = false) :
    s'.monitorRun = false ∨ s'.uploadRun = false := by
  have hkeeps (he : s'.limits = s.limits) : s'.monitorRun = false ∨ s'.uploadRun = false := by
    have hmonitor : s'.monitorRun = s.monitorRun := congrArg (fun x => x.2.1) he
    have hupload : s'.uploadRun = s.uploadRun := congrArg (fun x => x.2.2) he
    rwa [hmonitor, hupload]
  -- only the limit and a signal write them, and both end the loops
  cases act with
  | sche g sys =>
    obtain ⟨mg, -, -, h⟩ := step_sche h
    by_cases hpc : ∃ a, s.sche g = .finish a .limit
    · obtain ⟨a, hpc⟩ := hpc
      rw [scheStep, hpc] at h
      simp only [finishStep] at h
      split at h
      · cases h
        exact hs
      · split at h
        · cases h
          exact .inl rfl
        · cases h
          exact hs
    · exact hkeeps (limits_scheStep (fun a ha => hpc ⟨a, ha⟩) h)
  | signal =>
    cases h
    exact .inl rfl
  | kill => exact absurd rfl hk
  | _ =>
    have hlimits := limits_of_step (t := ⟨0, 0, false⟩) (step_cases h) (by simp) (by simp)
      (by simp)
    exact hkeeps hlimits.1

theorem Client.Stopping.step {act : ClientAct} (h : k.Stopping) (hs : k.step cfg act = some k') :
    k'.Stopping := by
  have hput {a : Act} (hs : (Newiup.step cfg k.rest a).map k.put = some k') (ha : a ≠ .kill) :
      k'.Stopping := by
    obtain ⟨d', hd, rfl⟩ := Option.map_eq_some_iff.mp hs
    exact step_stopping hd ha h
  -- a step of the model cannot set the run signals again, and the others leave them alone
  cases act with
  | produce p b =>
    simp only [Client.step] at hs
    exact hput hs (by simp)
  | unproduce p =>
    simp only [Client.step] at hs
    exact hput hs (by simp)
  | tick n =>
    simp only [Client.step] at hs
    exact hput hs (by simp)
  | signal =>
    simp only [Client.step] at hs
    exact hput hs (by simp)
  | move t ret sys =>
    cases t with
    | monitor g => cases hs
    | sche g =>
      simp only [Client.step] at hs
      split at hs
      · exact hput hs (by simp)
      · cases hs
    | upload t =>
      simp only [Client.step] at hs
      split at hs
      · exact hput hs (by simp)
      · cases hs
  | call t c =>
    simp only [Client.step] at hs
    split at hs
    · cases hs
      exact h
    · cases hs
  | ret t r =>
    simp only [Client.step] at hs
    split at hs
    · cases hs
      cases t <;> exact h
    · cases hs
  | size g q n =>
    obtain ⟨mg, -, hs⟩ := Option.bind_eq_some_iff.mp hs
    split at hs
    · obtain ⟨p, -, rfl⟩ := Option.map_eq_some_iff.mp hs
      exact h
    · cases hs
  | add g a m =>
    simp only [Client.step, Option.bind_eq_bind, Option.bind_eq_some_iff] at hs
    obtain ⟨mg, -, src, -, hs⟩ := hs
    split at hs
    · cases hs
      exact h
    · cases hs
  | copy g a =>
    simp only [Client.step] at hs
    split at hs
    · split at hs
      · exact hput hs (by simp)
      · cases hs
    · cases hs
  | free t a =>
    cases t with
    | monitor g => cases hs
    | sche g =>
      simp only [Client.step] at hs
      split at hs
      · exact hput hs (by simp)
      · cases hs
    | upload t =>
      simp only [Client.step] at hs
      split at hs
      · exact hput hs (by simp)
      · cases hs

end Stopping

namespace Refines

variable {cfg : Config} {β : Addr → Addr → Prop} {k k' : Client}
  {x x' : AtomicState Thread QueueId Addr} {s : State} {g : ℕ} {t : ThreadId}

/-- A step of the surroundings that leaves the loops running. -/
theorem envStep (h : Refines cfg β k x s) {act : ClientAct} {e : Act} (he : act.env = some e)
    (hs : k.step cfg act = some k') :
    k'.Stopping ∨ ∃ s', step cfg s e = some s' ∧ Refines cfg β k' x s' := by
  cases act with
  | produce p b =>
    cases he
    cases hs
    refine .inr ⟨_, rfl, h.surroundings { h.mirrors with fs := ?_ }
      ⟨rfl, rfl, rfl, rfl, rfl⟩ ⟨rfl, rfl, rfl, rfl, rfl⟩ (fun _ _ => rfl) h.monitorRun
      h.uploadRun⟩
    exact congrArg (fun fs => Fs.put fs p b) h.mirrors.fs
  | unproduce p =>
    cases he
    cases hs
    refine .inr ⟨_, rfl, h.surroundings { h.mirrors with fs := ?_ }
      ⟨rfl, rfl, rfl, rfl, rfl⟩ ⟨rfl, rfl, rfl, rfl, rfl⟩ (fun _ _ => rfl) h.monitorRun
      h.uploadRun⟩
    exact congrArg (fun fs => Fs.unlink fs (resolve p)) h.mirrors.fs
  | tick n =>
    cases he
    cases hs
    refine .inr ⟨_, rfl, h.surroundings { h.mirrors with time := ?_ }
      ⟨rfl, rfl, rfl, rfl, rfl⟩ ⟨rfl, rfl, rfl, rfl, rfl⟩ (fun _ _ => rfl) h.monitorRun
      h.uploadRun⟩
    exact congrArg (· + (n : ℤ)) h.mirrors.time
  | signal =>
    cases hs
    exact .inl (.inl rfl)
  | _ => cases he

/-- A step of a thread that involves no queue. -/
theorem moveStep (h : Refines cfg β k x s) (hC : Custody k x) {u : Thread} {r : ℤ} {sys : Sys}
    (hs : k.step cfg (.move u r sys) = some k') :
    k'.Stopping ∨ ∃ act s', step cfg s act = some s' ∧ act.env = none ∧
      Refines cfg β k' x s' := by
  -- the model makes the same move with its own addresses, unless the move ends the loops
  cases u with
  | monitor g => cases hs
  | sche g =>
    simp only [Client.step] at hs
    split at hs
    · next hc =>
      obtain ⟨d', hd, rfl⟩ := Option.map_eq_some_iff.mp hs
      obtain ⟨mg, hmg, he, hd⟩ := step_sche hd
      have hidle := hC.idle hc.1
      obtain ⟨D, S, p, p', rfl, hS, hm, hrel, hsame, hsame', hspares, -, -⟩ :=
        h.mirrors.sche (h.fits_sche hidle) hc.2 hd
      by_cases hrun : D.monitorRun = true ∧ D.uploadRun = true
      · have hD := h.surroundings hm hsame hsame' hspares hrun.1 hrun.2
        refine .inr ⟨.sche g sys, S.setSche g p', ?_, rfl, hD.setSche hidle hrel⟩
        simp [step, hmg, he, hS]
      · refine .inl ?_
        show D.monitorRun = false ∨ D.uploadRun = false
        simpa [or_iff_not_imp_left] using hrun
    · cases hs
  | upload t =>
    simp only [Client.step] at hs
    split at hs
    · next hc =>
      obtain ⟨d', hd, rfl⟩ := Option.map_eq_some_iff.mp hs
      obtain ⟨rs, hrs, ht, hd⟩ := step_upload hd
      have hidle := hC.idle hc.1
      obtain ⟨D, S, p, p', rfl, hS, hm, hrel, hsame, hsame', hspares, -⟩ :=
        h.mirrors.upload (h.fits_upload hidle) hc.2 hd
      by_cases hrun : D.monitorRun = true ∧ D.uploadRun = true
      · have hD := h.surroundings hm hsame hsame' hspares hrun.1 hrun.2
        refine .inr ⟨.upload t r sys, S.setUpload t p', ?_, rfl, hD.setUpload hidle hrel⟩
        simp [step, hrs, ht, hS]
      · refine .inl ?_
        show D.monitorRun = false ∨ D.uploadRun = false
        simpa [or_iff_not_imp_left] using hrun
    · cases hs

/-! ### Steps of the client together with the queues -/

/-- A thread that comes to a call makes it. -/
theorem calling_of_callOf (h : Refines cfg β k x s) (hcounts : Counts cfg s) {u : Thread}
    {c : QueueCall QueueId Addr} (hidle : x.pc u = .idle) (hc : k.callOf cfg u = some c) :
    Calling cfg u (k.place u) c := by
  cases u with
  | monitor g =>
    obtain ⟨a, ha, rfl⟩ := Option.map_eq_some_iff.mp hc
    rw [Client.place, ha]
    exact .add
  | sche g =>
    obtain ⟨mg, hmg, hc⟩ := Option.bind_eq_some_iff.mp hc
    split at hc
    · next he =>
      have hrel := h.fits_sche hidle
      rw [Client.place]
      cases hp : k.rest.sche g with
      | pop =>
        rw [hp] at hc
        simp only [SchePc.call] at hc
        split at hc
        · cases hc
          exact .schePop hmg he
        · cases hc
      | push a i v d =>
        rw [hp] at hc
        cases hc
        exact .push hmg he
      | requeue a =>
        rw [hp] at hc hrel
        obtain ⟨n, hn, rfl⟩ := Option.map_eq_some_iff.mp hc
        obtain ⟨b, hpc, hab⟩ : ∃ b, s.sche g = .requeue b ∧ β a b := by
          generalize s.sche g = p at hrel
          cases hrel with
          | requeue hab => exact ⟨_, rfl, hab⟩
        -- the node belongs to the group
        obtain ⟨n', hn', hnode⟩ := h.mirrors.heap_some hab hn
        obtain ⟨m, hm, horig, -⟩ := hcounts.sche_node (g := g) (a := b) (by rw [hpc]; rfl)
        cases hn'.symm.trans hm
        rw [← hnode.scheQueue, horig.scheQueue]
        exact .requeue hmg he
      | _ => rw [hp] at hc; cases hc
    · cases hc
  | upload t =>
    obtain ⟨rs, hrs, hc⟩ := Option.bind_eq_some_iff.mp hc
    split at hc
    · next ht =>
      rw [Client.place]
      cases hp : k.rest.upload t with
      | pop =>
        rw [hp] at hc
        simp only [UploadPc.call] at hc
        split at hc
        · cases hc
          exact .uploadPop hrs ht
        · cases hc
      | requeue d =>
        rw [hp] at hc
        cases hc
        exact .uploadRequeue hrs ht
      | _ => rw [hp] at hc; cases hc
    · cases hc

theorem callStep (h : Refines cfg β k x s) (hcounts : Counts cfg s) {u : Thread}
    {c : QueueCall QueueId Addr} (hs : k.step cfg (.call u c) = some k')
    (hx : x.step (.call u c) = some x') : Refines cfg β k' x' s := by
  simp only [Client.step] at hs
  split at hs
  · next hc =>
    cases hs
    simp only [AtomicState.step] at hx
    split at hx
    · next hidle =>
      split at hx
      · cases hx
        exact h.call hidle (h.calling_of_callOf hcounts hidle hc.2)
      · cases hx
    · cases hx
  · cases hs

theorem retStep (h : Refines cfg β k x s) {u : Thread} {r : Option Addr}
    (hs : k.step cfg (.ret u r) = some k') (hx : x.step (.ret u r) = some x') :
    Refines cfg β k' x' s := by
  simp only [Client.step] at hs
  split at hs
  · cases hs
    simp only [AtomicState.step] at hx
    split at hx
    · next r' hback =>
      split at hx
      · next hr =>
        obtain rfl := hr
        cases hx
        exact h.ret hback
      · cases hx
    · cases hx
  · cases hs

/-- The size that is read is the size in the model. -/
theorem sizeStep (h : Refines cfg β k x s) {q : QueueId} {n : ℤ}
    (hs : k.step cfg (.size g q n) = some k') (hx : x.step (.size (.sche g) q n) = some x') :
    Answered cfg k' x' s := by
  obtain ⟨mg, hmg, hs⟩ := Option.bind_eq_some_iff.mp hs
  split at hs
  · next hc =>
    obtain ⟨p, hp, rfl⟩ := Option.map_eq_some_iff.mp hs
    obtain ⟨a, i, c, sg, rs, hpc, hsg, hstage, hrs, rfl, rfl⟩ := SchePc.sized_eq_some hp
    simp only [AtomicState.step] at hx
    split at hx
    · next hidle =>
      split at hx
      · next hn =>
        cases hx
        have hrel := h.fits_sche hidle
        rw [hpc] at hrel
        obtain ⟨b, hpc', hab⟩ : ∃ b, s.sche g = .choose b i c ∧ β a b := by
          generalize s.sche g = p at hrel
          cases hrel with
          | choose hab => exact ⟨_, rfl, hab⟩
        have hsize : (s.queue (.srv rs.index)).size = n := (h.size _).trans hn
        refine ⟨.sche g [], _, β, ?_, rfl, h.setSche hidle (.choose hab)⟩
        simp only [step, Option.bind_eq_bind, hmg, Option.bind_some, hc.1, if_true, scheStep, hpc',
          hsg]
        unfold scanStep
        simp only [hstage, hrs, hsize]
      · cases hx
    · cases hx
  · cases hs

/-- A monitor thread has a new node, which the model does not see. -/
theorem addStep (h : Refines cfg β k x s) {a : Addr} {m : Path}
    (hs : k.step cfg (.add g a m) = some k') (hx : x.step (.alloc (.monitor g) a) = some x') :
    Refines cfg β k' x' s := by
  simp only [Client.step, Option.bind_eq_bind, Option.bind_eq_some_iff] at hs
  obtain ⟨mg, hmg, src, hsrc, hs⟩ := hs
  split at hs
  · next hc =>
    obtain ⟨he, hm, -, -, rfl⟩ := hc
    cases hs
    simp only [AtomicState.step] at hx
    split at hx
    · next hidle _ =>
      cases hx
      -- the new address belongs to none of the model, and `β` stays as it is
      have hnext (b : Addr) : ¬β k.rest.next b := fun hb => (h.fresh hb).1.false
      let D : State := { k.rest.setNode k.rest.next
        (some ⟨g, false, 0, k.rest.next, m, src, none, .sche g⟩) with next := k.rest.next + 1 }
      have hplace {u : Thread} (hu : u ≠ .monitor g) :
          Client.place ⟨D, k.waiting, Function.update k.added g (some k.rest.next)⟩ u =
            k.place u := by
        cases u with
        | monitor g' =>
          refine congrArg ThreadPc.monitor (Function.update_of_ne ?_ ..)
          exact fun hg => hu (congrArg Thread.monitor hg)
        | sche g' => rfl
        | upload t => rfl
      have hmirrors : Mirrors β D s := by
        refine h.mirrors.outside (k.rest.next + 1) s.next k.rest.queue s.queue
          (fun c b hcb => ⟨?_, rfl⟩) fun _ _ _ => ⟨rfl, rfl⟩
        exact Function.update_of_ne (h.fresh hcb).1.ne ..
      have hstate : Refines cfg β
          ⟨D, k.waiting, Function.update k.added g (some k.rest.next)⟩ x s := by
        refine ⟨hmirrors, fun hab => ?_, h.grp, h.grp', fun u => ?_, h.queue, h.size,
          fun {u c} hc => ?_, h.monitorRun, h.uploadRun⟩
        · exact ⟨(h.fresh hab).1.trans (Nat.lt_succ_self _), (h.fresh hab).2⟩
        · by_cases hu : u = .monitor g
          · obtain rfl := hu
            rw [effective_of_idle hidle]
            rintro b hb
            obtain rfl : k.rest.next = b := by simpa using hb
            exact ⟨hnext, Nat.lt_succ_self _, mg, m, src, hmg, he, hm, hsrc,
              Function.update_self ..⟩
          · rw [effective_congr (hplace hu) rfl]
            refine (h.thread u).congr id rfl rfl fun g' b hg' hb => ?_
            obtain rfl := hg'
            have hnew := h.newNode hb
            refine ⟨hnew.outside, hnew.lt.trans (Nat.lt_succ_self _), ?_⟩
            have hheap : D.heap b = k.rest.heap b := Function.update_of_ne hnew.lt.ne ..
            rw [hheap]
            exact hnew.node
        · have hu : u ≠ .monitor g := by
            rintro rfl
            rw [hidle] at hc
            cases hc
          rw [hplace hu]
          exact h.calling hc
      exact hstate.owners rfl rfl
    · cases hx
  · cases hs

/-- A scheduler makes a copy in both. -/
theorem copyStep (h : Refines cfg β k x s) {a : Addr}
    (hs : k.step cfg (.copy g a) = some k') (hx : x.step (.alloc (.sche g) a) = some x') :
    Answered cfg k' x' s := by
  simp only [Client.step] at hs
  split at hs
  · next hc =>
    split at hs
    · next a i v hp =>
      obtain ⟨d', hd, rfl⟩ := Option.map_eq_some_iff.mp hs
      obtain ⟨mg, hmg, he, -⟩ := step_sche hd
      obtain ⟨D, hcopy, rfl⟩ := step_copy hp hd
      simp only [AtomicState.step] at hx
      split at hx
      · next hidle _ =>
        cases hx
        have hrel := h.fits_sche hidle
        rw [hp] at hrel
        obtain ⟨b, hpc', hab⟩ : ∃ b, s.sche g = .copy b i v ∧ β a b := by
          generalize s.sche g = p at hrel
          cases hrel with
          | copy hab => exact ⟨_, rfl, hab⟩
        obtain ⟨S, hS, hm, hnext, hqueue, hsche, hupload, hgrp, hheap⟩ :=
          h.mirrors.copy hab h.fresh hcopy
        obtain ⟨-, heap, rfl⟩ := queueNodeCopy_heap hcopy
        -- the two new addresses belong to each other from now on
        have hgrown : Refines cfg (Extend β k.rest.next s.next) (k.put { k.rest with
            heap := heap, next := k.rest.next + 1
            grp := Function.update k.rest.grp k.rest.next i }) x S := by
          refine h.memory .inl hm ?_ ?_ ?_ rfl rfl hsche hupload hqueue ?_ h.monitorRun h.uploadRun
          · rw [hnext]
            rintro c d (hcd | ⟨rfl, rfl⟩)
            · exact ⟨(h.fresh hcd).1.trans (Nat.lt_succ_self _),
                (h.fresh hcd).2.trans (Nat.lt_succ_self _)⟩
            · exact ⟨Nat.lt_succ_self _, Nat.lt_succ_self _⟩
          · intro c hc
            have hne : c ≠ k.rest.next := fun hcn => hc s.next (.inr ⟨hcn, rfl⟩)
            exact (Function.update_of_ne hne ..).trans (h.grp c fun d hcd => hc d (.inl hcd))
          · intro d hd
            have hne : d ≠ s.next := fun hdn => hd k.rest.next (.inr ⟨rfl, hdn⟩)
            rw [hgrp]
            exact (Function.update_of_ne hne ..).trans (h.grp' d fun c hcd => hd c (.inl hcd))
          · intro g' c hnew
            refine ⟨?_, hnew.lt.trans (Nat.lt_succ_self _), ?_⟩
            · rintro d (hcd | ⟨hcn, -⟩)
              · exact hnew.outside d hcd
              · exact hnew.lt.ne hcn
            · have hkeeps : heap c = k.rest.heap c := hheap c hnew.outside hnew.lt.ne
              show ∃ mg m src, _ ∧ _ ∧ _ ∧ _ ∧ heap c = _
              rw [hkeeps]
              exact hnew.node
        refine ⟨.sche g [], S.setSche g (.push b i v s.next), _, ?_, rfl,
          (hgrown.setSche hidle (.push (.inl hab) (.inr ⟨rfl, rfl⟩))).owners rfl rfl⟩
        simp [step, hmg, he, scheStep, hpc', hS]
      · cases hx
    · cases hs
  · cases hs

/-- A scheduler frees its node in both. -/
theorem scheFreeStep (h : Refines cfg β k x s) {a : Addr}
    (hs : k.step cfg (.free (.sche g) a) = some k')
    (hx : x.step (.free (.sche g) a) = some x') : Answered cfg k' x' s := by
  simp only [Client.step] at hs
  split at hs
  · next hc =>
    obtain ⟨d', hd, rfl⟩ := Option.map_eq_some_iff.mp hs
    obtain ⟨mg, hmg, he, -⟩ := step_sche hd
    obtain ⟨-, -, D, hD, rfl⟩ := step_freeing hc.2 hd
    simp only [AtomicState.step] at hx
    split at hx
    · next hidle =>
      split at hx
      · cases hx
        have hrel := h.fits_sche hidle
        have hfreeing := hc.2
        obtain ⟨b, hab, hpc'⟩ : ∃ b, β a b ∧ (s.sche g = .drop b ∨ s.sche g = .finish b .free) := by
          generalize k.rest.sche g = p at hrel hfreeing
          generalize s.sche g = p' at hrel
          cases hrel with
          | drop hab =>
            cases hfreeing
            exact ⟨_, hab, .inl rfl⟩
          | @finish _ _ f hab =>
            cases f with
            | free =>
              cases hfreeing
              exact ⟨_, hab, .inr rfl⟩
            | _ => cases hfreeing
          | _ => cases hfreeing
        -- both nodes are gone, and the relation may keep the pair: neither is used again
        obtain ⟨S, hS, hm, hsame, hsame', hspares⟩ := h.mirrors.queueNodeFree hab hD
        obtain ⟨heap, rfl⟩ := queueNodeFree_heap hD
        have hfreed := h.surroundings hm hsame hsame' hspares h.monitorRun h.uploadRun
        refine ⟨.sche g [], S.setSche g .pop, β, ?_, rfl,
          (hfreed.setSche hidle .pop).owners rfl rfl⟩
        rcases hpc' with hpc' | hpc'
        · simp [step, hmg, he, scheStep, hpc', hS]
        · simp [step, hmg, he, scheStep, finishStep, hpc', hS]
      · cases hx
    · cases hx
  · cases hs

/-- An upload thread frees its copy in both. -/
theorem uploadFreeStep (h : Refines cfg β k x s) {a : Addr}
    (hs : k.step cfg (.free (.upload t) a) = some k')
    (hx : x.step (.free (.upload t) a) = some x') : Answered cfg k' x' s := by
  simp only [Client.step] at hs
  split at hs
  · next hc =>
    obtain ⟨d', hd, rfl⟩ := Option.map_eq_some_iff.mp hs
    obtain ⟨rs, hrs, ht, hd⟩ := step_upload hd
    simp only [uploadStep, hc.2] at hd
    cases hd
    simp only [AtomicState.step] at hx
    split at hx
    · next hidle =>
      split at hx
      · cases hx
        have hrel := h.fits_upload hidle
        rw [hc.2] at hrel
        obtain ⟨b, hpc', hab⟩ : ∃ b, s.upload t = .free b ∧ β a b := by
          generalize s.upload t = p at hrel
          cases hrel with
          | free hab => exact ⟨_, rfl, hab⟩
        have hspares : Spares β k.rest (k.rest.setNode a none) := by
          intro c hcb
          refine Function.update_of_ne ?_ ..
          rintro rfl
          exact hcb b hab
        have hfreed := h.surroundings (h.mirrors.setNode hab .none) ⟨rfl, rfl, rfl, rfl, rfl⟩
          ⟨rfl, rfl, rfl, rfl, rfl⟩ hspares h.monitorRun h.uploadRun
        refine ⟨.upload t 0 [], (s.setNode b none).setUpload t .pop, β, ?_, rfl,
          (hfreed.setUpload hidle .pop).owners rfl rfl⟩
        simp [step, hrs, ht, uploadStep, hpc']
      · cases hx
    · cases hx
  · cases hs

/-- Steps of the client together with the queues. -/
theorem both (h : Refines cfg β k x s) (hcounts : Counts cfg s) {act : ClientAct}
    {b : AtomicAct Thread QueueId Addr} (hs : k.step cfg act = some k') (hx : x.step b = some x')
    (hl : act.label = b.label) (hne : act.label ≠ none) :
    Answered cfg k' x' s ∨ Refines cfg β k' x' s := by
  cases act with
  | call t c => cases b <;> cases hl; exact .inr (h.callStep hcounts hs hx)
  | ret t r => cases b <;> cases hl; exact .inr (h.retStep hs hx)
  | size g q n => cases b <;> cases hl; exact .inl (h.sizeStep hs hx)
  | add g a m => cases b <;> cases hl; exact .inr (h.addStep hs hx)
  | copy g a => cases b <;> cases hl; exact .inl (h.copyStep hs hx)
  | free t a =>
    cases b <;> cases hl
    cases t with
    | monitor g => cases hs
    | sche g => exact .inl (h.scheFreeStep hs hx)
    | upload t => exact .inl (h.uploadFreeStep hs hx)
  | _ => exact absurd rfl hne

/-- Both before their first steps. -/
theorem boot (cfg : Config) (disk : Fs) (time : ℤ) :
    Refines cfg (fun _ _ => False) ⟨.boot disk time, fun _ => false, fun _ => none⟩
      ⟨fun _ => [], fun _ => .idle, fun _ => none, fun _ => false⟩ (.boot disk time) where
  mirrors := ⟨rfl, rfl, rfl, rfl, rfl, rfl, rfl, fun h => h.elim, fun h => h.elim,
    fun h => h.elim, .nil⟩
  fresh h := h.elim
  grp _ _ := rfl
  grp' _ _ := rfl
  thread t := by
    cases t with
    | monitor g =>
      rintro a ha
      cases ha
    | sche g => exact .pop
    | upload t => exact .pop
  queue q := .nil
  size q := rfl
  calling h := by cases h
  monitorRun := rfl
  uploadRun := rfl

end Refines

/-! ### The simulation -/

/-- **The daemon with lists and the model go together**, until the loops are ended. -/
def Together (cfg : Config) (disk : Fs) (y : Client × AtomicState Thread QueueId Addr)
    (s : State) : Prop :=
  Custody y.1 y.2 ∧
    (y.1.Stopping ∨ ∃ β, Refines cfg β y.1 y.2 s ∧ (daemon cfg disk).Reach (fun _ _ => True) s)

section Simulation

variable {cfg : Config} {disk : Fs} {k k' : Client} {x x' : AtomicState Thread QueueId Addr}
  {s : State}

/-- The surroundings may do in every state of the model what they do. -/
theorem env_step (cfg : Config) (s : State) {act : ClientAct} {e : Act} (he : act.env = some e) :
    e.env = some e ∧ ∃ s', step cfg s e = some s' := by
  cases act with
  | produce p b => cases he; exact ⟨rfl, _, rfl⟩
  | unproduce p => cases he; exact ⟨rfl, _, rfl⟩
  | tick n => cases he; exact ⟨rfl, _, rfl⟩
  | signal => cases he; exact ⟨rfl, _, rfl⟩
  | _ => cases he

/-- The model answers a step, or stays where it is. -/
theorem Together.answer (hreach : (daemon cfg disk).Reach (fun _ _ => True) s)
    (hC : Custody k' x') {β : Addr → Addr → Prop}
    (h : Refines.Answered cfg k' x' s ∨ Refines cfg β k' x' s) :
    ∃ bs s', (daemon cfg disk).exec s bs = some s' ∧ bs.filterMap Act.env = [] ∧
      Together cfg disk (k', x') s' := by
  rcases h with ⟨act, s', γ, hs, henv, h⟩ | h
  · refine ⟨[act], s', ?_, ?_, hC, .inr ⟨γ, h, hreach.next trivial hs⟩⟩
    · rw [exec_cons, show (daemon cfg disk).step s act = some s' from hs]
      rfl
    · rw [List.filterMap_cons, henv]
      rfl
  · exact ⟨[], s, rfl, rfl, hC, .inr ⟨β, h, hreach⟩⟩

/-- Where the loops are ended the model does what the surroundings do. -/
theorem Together.stopping (hC : Custody k' x') (hstop : k'.Stopping) (act : ClientAct) :
    ∃ bs s', (daemon cfg disk).exec s bs = some s' ∧
      bs.filterMap Act.env = act.env.toList ∧ Together cfg disk (k', x') s' := by
  cases he : act.env with
  | none => exact ⟨[], s, rfl, rfl, hC, .inl hstop⟩
  | some e =>
    obtain ⟨hee, s', hs⟩ := env_step cfg s he
    refine ⟨[e], s', ?_, ?_, hC, .inl hstop⟩
    · rw [exec_cons, show (daemon cfg disk).step s e = some s' from hs]
      rfl
    · rw [List.filterMap_cons, hee]
      rfl

/-- **The daemon with lists is simulated by its model.** -/
theorem listDaemon_simulated (cfg : Config) (disk : Fs) :
    (listDaemon cfg disk).Simulates (daemon cfg disk) (SyncAct.label ClientAct.env) Act.env
      (Together cfg disk) where
  init := by
    rintro ⟨k, x⟩ ⟨⟨time, rfl⟩, hx⟩
    obtain rfl : x = _ := hx
    exact ⟨_, ⟨time, rfl⟩, .boot disk time, .inr ⟨_, .boot cfg disk time, .start ⟨time, rfl⟩⟩⟩
  step := by
    rintro ⟨k, x⟩ y' s act ⟨hC, hor⟩ hs
    have hC' := hC.step hs
    -- a step of the client alone, of the queues alone (the operation of a call is performed),
    -- or of both, where a call is made or returns
    cases act with
    | client act =>
      simp only [listDaemon, System.sync] at hs
      split at hs
      · next hl =>
        obtain ⟨k', hk, rfl⟩ := Option.map_eq_some_iff.mp hs
        rcases hor with hstop | ⟨β, h, hreach⟩
        · exact Together.stopping hC' (hstop.step hk) act
        cases he : act.env with
        | some e =>
          rcases h.envStep he hk with hstop | ⟨s', hs', h'⟩
          · exact Together.stopping hC' hstop act
          · refine ⟨[e], s', ?_, ?_, hC', .inr ⟨β, h', hreach.next trivial hs'⟩⟩
            · rw [exec_cons, show (daemon cfg disk).step s e = some s' from hs']
              rfl
            · rw [List.filterMap_cons, (env_step cfg s he).1]
              exact congrArg Option.toList he.symm
        | none =>
          cases act with
          | move t r sys =>
            rcases h.moveStep hC hk with hstop | ⟨a, s', hs', ha, h'⟩
            · exact Together.stopping hC' hstop (.move t r sys)
            · have hanswer : Refines.Answered cfg k' x s ∨ Refines cfg β k' x s :=
                .inl ⟨a, s', β, hs', ha, h'⟩
              exact Together.answer hreach hC' hanswer
          | produce p b => cases he
          | unproduce p => cases he
          | tick n => cases he
          | signal => cases he
          | _ => cases hl
      · cases hs
    | object b =>
      simp only [listDaemon, System.sync] at hs
      split at hs
      · next hl =>
        obtain ⟨x', hx, rfl⟩ := Option.map_eq_some_iff.mp hs
        cases b with
        | perform t =>
          rcases hor with hstop | ⟨β, h, hreach⟩
          · exact ⟨[], s, rfl, rfl, hC', .inl hstop⟩
          · exact Together.answer hreach hC' (h.perform hC (.reach hreach) hx)
        | _ => cases hl
      · cases hs
    | both act b =>
      simp only [listDaemon, System.sync] at hs
      split at hs
      · next hl =>
        obtain ⟨k', hk, hs⟩ := Option.bind_eq_some_iff.mp hs
        obtain ⟨x', hx, rfl⟩ := Option.map_eq_some_iff.mp hs
        rcases hor with hstop | ⟨β, h, hreach⟩
        · exact Together.stopping hC' (hstop.step hk) act
        have hanswer := Together.answer hreach hC' (h.both (.reach hreach) hk hx hl.1 hl.2)
        have henv : act.env = none := by
          cases act with
          | produce p b => exact absurd rfl hl.2
          | unproduce p => exact absurd rfl hl.2
          | tick n => exact absurd rfl hl.2
          | signal => exact absurd rfl hl.2
          | _ => rfl
        rw [SyncAct.label, henv]
        exact hanswer
      · cases hs

/-- Where a thread of the daemon at the links stands, when a call whose statements are all done
is taken to have returned. -/
def standing (k : Client) (y : SpinState Thread QueueId Addr) (t : Thread) : ThreadPc :=
  match y.pc t with
  | .unlock _ r => (k.place t).resume r
  | .back r => (k.place t).resume r
  | _ => k.place t

/-- A call takes effect with its last statement, before the lock is given back. -/
theorem effective_eq_standing {k : Client} {y : SpinState Thread QueueId Addr}
    {x : AtomicState Thread QueueId Addr} {t : Thread} (h : PcRel (y.pc t) (x.pc t)) :
    effective k x t = standing k y t := by
  unfold effective standing
  generalize y.pc t = p at h
  generalize x.pc t = q at h
  cases h <;> rfl

/-- **The daemon refines its model**: while the loops run, what the threads have done with
their queues at the links is a run of the model in the same surroundings.  The files, the
servers and the counters are the same, and so are the nodes, the queues, what the threads have
in their variables and where they stand, and the history of the library calls, up to
addresses.  A thread in a call stands where it called until the statements of the call are
done. -/
theorem spinDaemon_refines {y y' : Client × SpinState Thread QueueId Addr}
    {acts : List (SyncAct ClientAct (SpinAct Thread QueueId Addr))}
    (hinit : (spinDaemon cfg disk).init y) (hrun : (spinDaemon cfg disk).exec y acts = some y')
    (hmonitor : y'.1.rest.monitorRun = true) (hupload : y'.1.rest.uploadRun = true) :
    ∃ time bs s β, (daemon cfg disk).exec (.boot disk time) bs = some s ∧
      bs.filterMap Act.env = acts.filterMap (SyncAct.label ClientAct.env) ∧
      Mirrors β y'.1.rest s ∧
      (∀ t, Follows cfg β y'.1.rest s t (standing y'.1 y'.2 t)) ∧
      ∀ q, y'.2.lock q = none →
        ∃ as, Represents y'.2.links q as ∧ List.Forall₂ β as (s.queue q).head := by
  have hspin : (spinDaemon cfg disk).Simulates (listDaemon cfg disk)
      (SyncAct.label ClientAct.env) (SyncAct.label ClientAct.env) _ := spinQueues_simulated.sync
  obtain ⟨z, cs, ⟨k, x⟩, hz, hcs, hlab, hk, hR⟩ := hspin.trace hinit hrun
  obtain ⟨s₀, bs, s, ⟨time, rfl⟩, hbs, hlab', hC, hor⟩ :=
    (listDaemon_simulated cfg disk).trace hz hcs
  obtain rfl : y'.1 = k := hk
  have hrunning : ¬y'.1.Stopping := by
    rintro (h | h)
    · rw [hmonitor] at h
      cases h
    · rw [hupload] at h
      cases h
  obtain ⟨β, h, -⟩ := hor.resolve_left hrunning
  refine ⟨time, bs, s, β, hbs, hlab'.trans hlab, h.mirrors,
    fun t => effective_eq_standing (hR.pc t) ▸ h.thread t,
    fun q hq => ⟨x.queue q, ?_, h.queue q⟩⟩
  have hholds := hR.holds q
  rw [Related.stage_of_free hq] at hholds
  exact hholds

/-- The theorem at a monitor thread that has added a node. -/
theorem spinDaemon_refines_added :
    ∃ y, (spinDaemon sampleConfig sampleDisk).exec (spinStart sampleDisk) samplePush = some y ∧
      y.2.size (.sche 0) = 1 ∧
      ∃ time bs s β, (daemon sampleConfig sampleDisk).exec (.boot sampleDisk time) bs = some s ∧
        bs.filterMap Act.env = [] ∧ Mirrors β y.1.rest s ∧
        (∀ t, Follows sampleConfig β y.1.rest s t (standing y.1 y.2 t)) ∧
        ∃ as, Represents y.2.links (.sche 0) as ∧
          List.Forall₂ β as (s.queue (.sche 0)).head := by
  have hrun : ((spinDaemon sampleConfig sampleDisk).exec (spinStart sampleDisk) samplePush).map
      (fun y => (y.1.rest.monitorRun, y.1.rest.uploadRun, y.2.lock (.sche 0),
        y.2.size (.sche 0))) = some (true, true, none, 1) := by decide +kernel
  obtain ⟨y, hy, he⟩ := Option.map_eq_some_iff.mp hrun
  simp only [Prod.mk.injEq] at he
  obtain ⟨hmonitor, hupload, hlock, hsize⟩ := he
  have hinit : (spinDaemon sampleConfig sampleDisk).init (spinStart sampleDisk) :=
    ⟨⟨0, rfl⟩, rfl⟩
  obtain ⟨time, bs, s, β, hbs, hlab, hm, hthreads, hqueue⟩ :=
    spinDaemon_refines hinit hy hmonitor hupload
  exact ⟨y, hy, hsize, time, bs, s, β, hbs, hlab, hm, hthreads, hqueue _ hlock⟩

end Simulation

end Newiup
