import Newiup.Daemon.Backoff
import Newiup.Daemon.Placed
import Newiup.Daemon.Once

/-!
# How often a copy is tried

`cur_rc` counts the failures of a server, whichever copies they are of, and a success of
one copy sets it back to `0` while another waits for its next try.  So the count bounds
the tries of a copy only where it is never written below what a waiting copy has used.

## Main definitions

* `State.tries` — the library calls made for a copy.
* `RetriesBounded` — no copy at a server is tried more than `retry_count + 1` times.
* `WritesRc`, `Undisturbed` — the writes of `cur_rc`, and what they must not undercut.
* `PcOk`, `RetryInv` — what a thread and its server allow to be tried.

## Main results

* `PcOk.move` — **a thread keeps to what is allowed.**
* `retries_bounded` — **the tries of a copy are bounded where no write undercuts them.**
-/

namespace Newiup

/-- The library calls made for a node. -/
def State.tries (s : State) (c : Addr) : ℕ := s.calls.countP fun call => call.copy = c

/-- The copy is at the server: in its queue, or with one of its threads. -/
def State.AtServer (s : State) (v : ℕ) (c : Addr) : Prop :=
  c ∈ (s.queue (.srv v)).head ∨
    ∃ k, (s.upload (v, k)).node = some c ∨ (s.upload (v, k)).released = some c

/-- **A copy is tried at most `retry_count + 1` times** before it is freed. -/
def RetriesBounded (cfg : Config) (s : State) : Prop :=
  ∀ v rs, cfg.servers[v]? = some rs → 0 ≤ rs.retryCount → ∀ c, s.AtServer v c →
    (s.tries c : ℤ) ≤ rs.retryCount + 1

/-! ### The writes of `cur_rc` -/

/-- The copy of a thread that can still come to a library call, its failures counted. -/
def UploadPc.waiting : UploadPc → Option Addr
  | .avail c => some c
  | .availSet c => some c
  | .checking c => some c
  | .library c => some c
  | .requeue c => some c
  | _ => none

/-- The step writes `x` into `cur_rc` of the server `v`. -/
inductive WritesRc (s : State) : Act → ℕ → ℤ → Prop
  | reset {t ret sys c} (hpc : s.upload t = .resetRc c) : WritesRc s (.upload t ret sys) t.1 0
  | count {t ret sys c rc} (hpc : s.upload t = .failedInc c rc) :
      WritesRc s (.upload t ret sys) t.1 (rc + 1)

/-- **No write of `cur_rc` undercuts a copy**: what is written is no less than the failed
calls of a copy that waits in the queue of the server or with another thread; for a
failure that is not counted yet there is one more. -/
def Undisturbed (s : State) (act : Act) : Prop :=
  ∀ v x, WritesRc s act v x →
    (∀ c ∈ (s.queue (.srv v)).head, (s.tries c : ℤ) ≤ x) ∧
    (∀ k c, (s.upload (v, k)).waiting = some c → (s.tries c : ℤ) ≤ x) ∧
    ∀ k c, s.upload (v, k) = .failed c → (s.tries c : ℤ) ≤ x + 1

/-! ### What is allowed -/

/-- What a thread of a server with `attempts` set to `retry` and `cur_rc` at `rc` may have
made of the tries `n`. -/
def PcOk (retry rc : ℤ) (n : Addr → ℕ) : UploadPc → Prop
  | .pop => True
  | .avail c => (n c : ℤ) ≤ rc ∧ (n c : ℤ) ≤ retry
  | .availSet c => (n c : ℤ) ≤ rc ∧ (n c : ℤ) ≤ retry
  | .checking c => (n c : ℤ) ≤ rc ∧ (n c : ℤ) ≤ retry
  | .library c => (n c : ℤ) ≤ rc ∧ (n c : ℤ) ≤ retry
  | .requeue c => (n c : ℤ) ≤ rc ∧ (n c : ℤ) ≤ retry
  | .failed c => (n c : ℤ) ≤ rc + 1 ∧ (n c : ℤ) ≤ retry + 1
  | .failedInc c x => 0 ≤ x ∧ (n c : ℤ) ≤ x + 1 ∧ (n c : ℤ) ≤ retry + 1
  | .deleteSrc c => (n c : ℤ) ≤ retry + 1
  | .deleteFlag c => (n c : ℤ) ≤ retry + 1
  | .resetRc c => (n c : ℤ) ≤ retry + 1
  | .setFst c => (n c : ℤ) ≤ retry + 1
  | .release c => (n c : ℤ) ≤ retry + 1
  | .free c => (n c : ℤ) ≤ retry + 1
  | .stopped => True

section Pc

variable {retry rc rc' ret : ℤ} {n n' : Addr → ℕ} {pc pc' : UploadPc} {c : Addr}

/-- The copy of a thread has been tried at most `retry + 1` times. -/
theorem PcOk.bound (h : PcOk retry rc n pc) (hc : pc.node = some c ∨ pc.released = some c) :
    (n c : ℤ) ≤ retry + 1 := by
  cases pc <;> rcases hc with hc | hc <;> cases hc <;> simp only [PcOk] at h <;> omega

/-- Another thread's move. -/
theorem PcOk.other (h : PcOk retry rc n pc)
    (hn : ∀ c, pc.node = some c ∨ pc.released = some c → n' c = n c)
    (hw : ∀ c, pc.waiting = some c → (n c : ℤ) ≤ rc')
    (hf : ∀ c, pc = .failed c → (n c : ℤ) ≤ rc' + 1) : PcOk retry rc' n' pc := by
  cases pc with
  | pop | stopped => trivial
  | avail c | availSet c | checking c | library c | requeue c =>
    have hsame := hn c (.inl rfl)
    exact ⟨hsame ▸ hw c rfl, hsame ▸ h.2⟩
  | failed c =>
    have hsame := hn c (.inl rfl)
    exact ⟨hsame ▸ hf c rfl, hsame ▸ h.2⟩
  | failedInc c x =>
    have hsame := hn c (.inl rfl)
    exact ⟨h.1, hsame ▸ h.2.1, hsame ▸ h.2.2⟩
  | deleteSrc c | deleteFlag c | resetRc c | setFst c | release c =>
    have hsame := hn c (.inl rfl)
    exact (congrArg (fun m : ℕ => (m : ℤ) ≤ retry + 1) hsame).mpr h
  | free c =>
    have hsame := hn c (.inr rfl)
    exact (congrArg (fun m : ℕ => (m : ℤ) ≤ retry + 1) hsame).mpr h

/-- **A thread keeps to what is allowed**: a copy it pops is allowed another try, and the
library call is one. -/
theorem PcOk.move (h : PcOk retry rc n pc) (hrc : 0 ≤ rc) (hm : PcMove retry rc ret pc pc' rc')
    (hpop : ∀ c, pc = .pop → pc' = .avail c → (n c : ℤ) ≤ rc ∧ (n c : ℤ) ≤ retry)
    (hlib : ∀ c, pc = .library c → n' c = n c + 1)
    (hkeep : (∀ c, pc ≠ .library c) → n' = n) : PcOk retry rc' n' pc' ∧ 0 ≤ rc' := by
  have hsame : ∀ {pc₀ : UploadPc}, pc = pc₀ → (∀ c, pc₀ ≠ .library c) → n' = n := fun he hne =>
    hkeep (he ▸ hne)
  -- the tries are counted at the library call; the other moves carry the bound along
  cases hm with
  | idle | stop | requeue | free => exact ⟨trivial, hrc⟩
  | pop c =>
    rw [hsame rfl (by simp)]
    exact ⟨hpop c rfl rfl, hrc⟩
  | unavailable c | missing c =>
    rw [hsame rfl (by simp)]
    simp only [PcOk] at h ⊢
    omega
  | available c | availSet c | present c | deleteSrc c | deleteFlag c | setFst c | release c =>
    rw [hsame rfl (by simp)]
    exact ⟨h, hrc⟩
  | succeeded c | failed c =>
    have hone := hlib c rfl
    simp only [PcOk] at h ⊢
    omega
  | resetRc c =>
    rw [hsame rfl (by simp)]
    exact ⟨h, le_rfl⟩
  | read c =>
    rw [hsame rfl (by simp)]
    exact ⟨⟨hrc, h⟩, hrc⟩
  | retry c x hlt =>
    rw [hsame rfl (by simp)]
    simp only [PcOk] at h ⊢
    omega
  | record c x hge =>
    rw [hsame rfl (by simp)]
    simp only [PcOk] at h ⊢
    omega

end Pc

/-- What a server allows to be tried. -/
structure ServerOk (s : State) (v : ℕ) (retry rc : ℤ) : Prop where
  nonneg : 0 ≤ rc
  queued : ∀ c ∈ (s.queue (.srv v)).head, (s.tries c : ℤ) ≤ rc ∧ (s.tries c : ℤ) ≤ retry
  threads : ∀ k, PcOk retry rc s.tries (s.upload (v, k))

/-- **The invariant of the tries.** -/
structure RetryInv (cfg : Config) (s : State) : Prop where
  /-- An address that is not handed out has not been tried. -/
  fresh : ∀ c, s.next ≤ c → s.tries c = 0
  /-- A copy that is not pushed yet has not been tried. -/
  new : ∀ g a i w c, s.sche g = .push a i w c → s.tries c = 0
  /-- Each server keeps to what it allows. -/
  server : ∀ v rs, cfg.servers[v]? = some rs → 0 ≤ rs.retryCount →
    ServerOk s v rs.retryCount (s.curRc v)

theorem RetryInv.bounded {cfg : Config} {s : State} (h : RetryInv cfg s) :
    RetriesBounded cfg s := by
  intro v rs hrs hretry c hc
  have hok := h.server v rs hrs hretry
  rcases hc with hq | ⟨k, hk⟩
  · have := hok.queued c hq
    omega
  · exact (hok.threads k).bound hk

/-! ### What a step changes -/

section Steps

variable {cfg : Config} {s s' : State} {act : Act}

/-- Only a library call is a try. -/
theorem tries_of_step (hc : Counts cfg s) (hs : Step cfg s act s') :
    s'.tries = s.tries ∨ ∃ t ret sys c, act = .upload t ret sys ∧ s.upload t = .library c ∧
      ∀ c', s'.tries c' = s.tries c' + if c' = c then 1 else 0 := by
  rcases calls_of_step hc hs with h | ⟨t, ret, sys, c, a, o, hact, hpc, -, -, -, h⟩
  · left
    funext c
    rw [State.tries, h, State.tries]
  · refine .inr ⟨t, ret, sys, c, hact, hpc, fun c' => ?_⟩
    rw [State.tries, h, List.countP_cons, State.tries]
    by_cases heq : c' = c
    · simp [heq]
    · simp [heq, Ne.symm heq]

theorem mem_queueNodePush {q : QueueId} {a c : Addr} {v : ℕ} :
    c ∈ ((s.queueNodePush q a).queue (.srv v)).head ↔
      c ∈ (s.queue (.srv v)).head ∨ (q = .srv v ∧ c = a) := by
  by_cases hq : q = .srv v
  · subst hq
    simp [State.queueNodePush]
  · simp [State.queueNodePush, Function.update_of_ne (Ne.symm hq), hq]

/-- What an upload thread does to the queues of the servers: it pops the copy it takes in
hand, and pushes the one it puts back. -/
theorem Step.upload_queue {t : ThreadId} {ret : ℤ} {sys : Sys}
    (h : Step cfg s (.upload t ret sys) s') :
    (∀ v c, c ∈ (s'.queue (.srv v)).head →
      c ∈ (s.queue (.srv v)).head ∨ (v = t.1 ∧ s.upload t = .requeue c)) ∧
    ∀ c, s.upload t = .pop → s'.upload t = .avail c → c ∈ (s.queue (.srv t.1)).head := by
  -- what is not at the head of the loop pops nothing
  have hbusy : ∀ {pc : UploadPc}, s.upload t = pc → pc ≠ .pop → ∀ c, s.upload t = .pop →
      s'.upload t = .avail c → c ∈ (s.queue (.srv t.1)).head := fun hpc hne c hpop =>
    absurd (hpc.symm.trans hpop) hne
  cases h with
  | uploadIdle hpc =>
    exact ⟨fun v c hc => .inl hc, fun c hpop havail => by rw [hpop] at havail; cases havail⟩
  | @uploadPop _ _ _ c₀ cs n hpc hq =>
    refine ⟨fun v c hc => .inl ?_, fun c _ havail => ?_⟩
    · by_cases hv : v = t.1
      · subst hv
        rw [hq]
        simpa [State.setUpload] using Or.inr hc
      · simpa [State.setUpload, hv] using hc
    · rw [State.upload_setUpload_self] at havail
      cases havail
      rw [hq]
      exact List.mem_cons_self
  | uploadLocal hpc hl =>
    refine ⟨fun v c hc => .inl hc, ?_⟩
    cases hl with
    | stop =>
      intro c _ havail
      rw [show _ = UploadPc.stopped from State.upload_setUpload_self _ _ _] at havail
      cases havail
    | _ => exact hbusy hpc (by simp)
  | library hpc => exact ⟨fun v c hc => .inl hc, hbusy hpc (by simp)⟩
  | deleteSrc hpc => exact ⟨fun v c hc => .inl hc, hbusy hpc (by simp)⟩
  | deleteFlag hpc => exact ⟨fun v c hc => .inl hc, hbusy hpc (by simp)⟩
  | uploadRequeue hpc =>
    refine ⟨fun v c hc => ?_, hbusy hpc (by simp)⟩
    rcases mem_queueNodePush.mp hc with hc | ⟨hq, rfl⟩
    · exact .inl hc
    · exact .inr ⟨(QueueId.srv.inj hq).symm, hpc⟩
  | release hpc _ hs' =>
    obtain ⟨heap, rfl⟩ := dropRetain_heap hs'
    exact ⟨fun v c hc => .inl hc, hbusy hpc (by simp)⟩
  | free hpc => exact ⟨fun v c hc => .inl hc, hbusy hpc (by simp)⟩

/-- What the others do to them: they push copies. -/
theorem Step.other_queue (hc : Counts cfg s) (h : Step cfg s act s')
    (hu : ∀ t ret sys, act ≠ .upload t ret sys) {v : ℕ} {c : Addr}
    (hmem : c ∈ (s'.queue (.srv v)).head) :
    c ∈ (s.queue (.srv v)).head ∨ ∃ g a i, s.sche g = .push a i v c := by
  cases h with
  | monitor =>
    rcases mem_queueNodePush.mp hmem with hmem | ⟨hq, -⟩
    · exact .inl hmem
    · cases hq
  | kill => cases hmem
  | @schePop g =>
    refine .inl ?_
    have hne : QueueId.srv v ≠ .sche g := by simp
    simpa [State.setSche, Function.update_of_ne hne] using hmem
  | scheFree _ _ hfree =>
    obtain ⟨heap, rfl⟩ := queueNodeFree_heap hfree
    exact .inl hmem
  | copy _ hcopy =>
    obtain ⟨-, heap, rfl⟩ := queueNodeCopy_heap hcopy
    exact .inl hmem
  | @push g sys a i w c' hpc =>
    rcases mem_queueNodePush.mp hmem with hmem | ⟨hq, rfl⟩
    · exact .inl hmem
    · cases hq
      exact .inr ⟨g, a, i, hpc⟩
  | @requeue g sys a node hpc hnode =>
    -- the node of a scheduler returns to the queue of its group
    obtain ⟨n, hn, horig, -⟩ := hc.sche_node (by rw [hpc]; rfl)
    cases hnode.symm.trans hn
    rcases mem_queueNodePush.mp hmem with hmem | ⟨hq, -⟩
    · exact .inl hmem
    · rw [horig.scheQueue] at hq
      cases hq
  | uploadIdle | uploadPop | uploadLocal | library | deleteSrc | deleteFlag | uploadRequeue |
      release | free => exact absurd rfl (hu _ _ _)
  | _ => exact .inl hmem

/-- A copy that waits for its push was so before, or has just been made. -/
theorem Step.push_new (h : Step cfg s act s') {g a i w : ℕ} {c : Addr}
    (hpc : s'.sche g = .push a i w c) : s.sche g = .push a i w c ∨ c = s.next := by
  have hmove : ∀ {s₁ : State} {g' : ℕ} {pc : SchePc}, s₁.sche = s.sche →
      (s₁.setSche g' pc).sche g = .push a i w c → (∀ a i w c, pc ≠ .push a i w c) →
      s.sche g = .push a i w c ∨ c = s.next := by
    intro s₁ g' pc hsche hpc hne
    by_cases hg : g = g'
    · subst hg
      rw [State.sche_setSche_self] at hpc
      exact absurd hpc (hne _ _ _ _)
    · rw [State.sche_setSche_of_ne _ _ _ hg, hsche] at hpc
      exact .inl hpc
  -- only the step that makes the copy brings a scheduler to where it pushes it
  cases h with
  | kill => cases hpc
  | schePop => exact hmove rfl hpc (by simp)
  | scheLocal _ _ hl =>
    refine hmove rfl hpc fun a i w c he => ?_
    subst he
    cases hl
  | createFlag => exact hmove rfl hpc (by simp)
  | createMarker => exact hmove rfl hpc (by simp)
  | finishOs => exact hmove rfl hpc (by simp)
  | scheFree _ _ hfree =>
    obtain ⟨heap, rfl⟩ := queueNodeFree_heap hfree
    exact hmove rfl hpc (by simp)
  | choose => exact hmove rfl hpc (by simp)
  | @copy g' _ a' i' v c' s₁ _ hcopy =>
    obtain ⟨hc', heap, rfl⟩ := queueNodeCopy_heap hcopy
    by_cases hg : g = g'
    · subst hg
      rw [State.sche_setSche_self] at hpc
      cases hpc
      exact .inr hc'
    · rw [State.sche_setSche_of_ne _ _ _ hg] at hpc
      exact .inl hpc
  | push => exact hmove rfl hpc (by simp)
  | requeue => exact hmove rfl hpc (by simp)
  | release _ _ hs' =>
    obtain ⟨heap, rfl⟩ := dropRetain_heap hs'
    exact .inl hpc
  | _ => exact .inl hpc

end Steps

/-! ### The bound -/

section Bound

variable {cfg : Config} {disk : Fs} {s s' : State} {act : Act}

/-- What is at another place than the library call has not been tried in the step. -/
theorem tries_same (hc : Counts cfg s) (hs : Step cfg s act s') {c : Addr}
    (h : ∀ t ret sys, act = .upload t ret sys → s.upload t ≠ .library c) :
    s'.tries c = s.tries c := by
  rcases tries_of_step hc hs with hsame | ⟨t, ret, sys, c₀, hact, hpc, hone⟩
  · rw [hsame]
  · rw [hone, if_neg, Nat.add_zero]
    rintro rfl
    exact h t ret sys hact hpc

/-- The library call is a try. -/
theorem Step.tries_library {t : ThreadId} {ret : ℤ} {sys : Sys} {c : Addr}
    (h : Step cfg s (.upload t ret sys) s') (hpc : s.upload t = .library c) :
    s'.tries c = s.tries c + 1 := by
  have hne : ∀ {pc : UploadPc}, s.upload t = pc → pc = .library c := fun h => h.symm.trans hpc
  cases h with
  | @library _ _ _ c' node o hpc' =>
    cases hne hpc'
    simp [State.tries, State.setUpload]
  | uploadLocal hpc' hl =>
    cases hne hpc'
    cases hl
  | uploadIdle hpc' | uploadPop hpc' | uploadRequeue hpc' => cases hne hpc'
  | deleteSrc hpc' | deleteFlag hpc' | release hpc' | free hpc' => cases hne hpc'

theorem ne_library (hc : Counts cfg s) {p : Place} {c : Addr} (hp : c ∈ s.held p)
    {t : ThreadId} (ht : p ≠ .upload t) : s.upload t ≠ .library c := by
  intro hpc
  have hheld : c ∈ s.held (.upload t) := State.mem_held_upload.mpr (by rw [hpc]; rfl)
  exact ht (hc.owned.exclusive.unique hp hheld)

/-- A step of a thread leaves `cur_rc` of its server alone, or it is a write. -/
theorem PcMove.writes {retry rc ret rc' : ℤ} {pc pc' : UploadPc}
    (h : PcMove retry rc ret pc pc' rc') :
    rc' = rc ∨ (∃ c, pc = .resetRc c ∧ rc' = 0) ∨ ∃ c x, pc = .failedInc c x ∧ rc' = x + 1 := by
  cases h with
  | resetRc c => exact .inr (.inl ⟨c, rfl, rfl⟩)
  | retry c x => exact .inr (.inr ⟨c, x, rfl, rfl⟩)
  | record c x => exact .inr (.inr ⟨c, x, rfl, rfl⟩)
  | _ => exact .inl rfl

/-- What a waiting copy of a server may have been tried. -/
theorem ServerOk.waiting {v : ℕ} {retry rc : ℤ} (h : ServerOk s v retry rc) {k : ℕ} {c : Addr}
    (hc : (s.upload (v, k)).waiting = some c) : (s.tries c : ℤ) ≤ rc := by
  have hpc := h.threads k
  cases hp : s.upload (v, k) <;> rw [hp] at hpc hc <;> cases hc <;> exact hpc.1

/-- **After a step of a thread** nothing at its server is undercut by `cur_rc`. -/
theorem ServerOk.undercut {t : ThreadId} {ret : ℤ} {sys : Sys} {retry rc' : ℤ}
    (h : ServerOk s t.1 retry (s.curRc t.1)) (hg : Undisturbed s (.upload t ret sys))
    {pc' : UploadPc} (hm : PcMove retry (s.curRc t.1) ret (s.upload t) pc' rc') :
    (∀ c ∈ (s.queue (.srv t.1)).head, (s.tries c : ℤ) ≤ rc') ∧
    (∀ k c, (s.upload (t.1, k)).waiting = some c → (s.tries c : ℤ) ≤ rc') ∧
    ∀ k c, s.upload (t.1, k) = .failed c → (s.tries c : ℤ) ≤ rc' + 1 := by
  rcases hm.writes with rfl | ⟨c, hpc, rfl⟩ | ⟨c, x, hpc, rfl⟩
  · refine ⟨fun c hc => (h.queued c hc).1, fun k c hc => h.waiting hc, fun k c hc => ?_⟩
    have hpc := h.threads k
    rw [hc] at hpc
    exact hpc.1
  · exact hg _ _ (.reset hpc)
  · exact hg _ _ (.count hpc)

/-- **The thread's own server** after its step. -/
theorem ServerOk.own {t : ThreadId} {ret : ℤ} {sys : Sys} {rs : RealServer} (hc : Counts cfg s)
    (hindex : rs.index = t.1) (h : ServerOk s t.1 rs.retryCount (s.curRc t.1))
    (hg : Undisturbed s (.upload t ret sys)) (hstep : Step cfg s (.upload t ret sys) s')
    (hs : uploadStep cfg rs t ret sys s = some s') :
    ServerOk s' t.1 rs.retryCount (s'.curRc t.1) := by
  obtain ⟨hmove, hown⟩ := uploadStep_move hs
  rw [hindex] at hmove
  obtain ⟨hunder, hwait, hfail⟩ := h.undercut hg hmove
  -- nobody else makes a library call in this step, so that the tries of other copies stay
  have hsame : ∀ {p : Place} {c : Addr}, c ∈ s.held p → p ≠ .upload t → s'.tries c = s.tries c := by
    intro p c hp hne
    refine tries_same hc hstep fun t' ret' sys' hact => ?_
    cases hact
    exact ne_library hc hp hne
  have hmover : PcOk rs.retryCount (s'.curRc t.1) s'.tries (s'.upload t) ∧ 0 ≤ s'.curRc t.1 := by
    refine (h.threads t.2).move h.nonneg hmove (fun c hpop havail => ?_) (fun c hlib => ?_)
      fun hne => ?_
    · exact h.queued c (hstep.upload_queue.2 c hpop havail)
    · exact hstep.tries_library hlib
    · funext c
      refine tries_same hc hstep fun t' ret' sys' hact => ?_
      cases hact
      exact hne c
  -- the copies in the queue, and the other threads of the server
  refine ⟨hmover.2, fun c hq => ?_, fun k => ?_⟩
  · rcases hstep.upload_queue.1 _ _ hq with hq | ⟨-, hreq⟩
    · rw [hsame (p := .queue (.srv t.1)) hq (by simp)]
      exact ⟨hunder c hq, (h.queued c hq).2⟩
    · -- the copy that is put back
      have hpc : PcOk rs.retryCount (s.curRc t.1) s.tries (s.upload t) := h.threads t.2
      have hkeep : s'.tries c = s.tries c := by
        refine tries_same hc hstep fun t' ret' sys' hact => ?_
        cases hact
        rw [hreq]
        simp
      rw [hkeep]
      refine ⟨hwait t.2 c (by rw [hreq]; rfl), ?_⟩
      rw [hreq] at hpc
      exact hpc.2
  · by_cases hk : (t.1, k) = t
    · rw [hk]
      exact hmover.1
    · rw [hown.upload _ hk]
      refine (h.threads k).other (fun c hnode => ?_) (hwait k) (hfail k)
      rcases hnode with hnode | hrel
      · exact hsame (State.mem_held_upload.mpr hnode) fun he => hk (Place.upload.inj he)
      · refine hsame (p := .released (t.1, k)) ?_ (by simp)
        rw [State.held, hrel]
        simp

/-- **Another server** after the step of a thread. -/
theorem ServerOk.frame {t : ThreadId} {ret : ℤ} {sys : Sys} {rs : RealServer} {v : ℕ} {retry : ℤ}
    (hc : Counts cfg s) (hindex : rs.index = t.1) (hv : v ≠ t.1)
    (h : ServerOk s v retry (s.curRc v)) (hstep : Step cfg s (.upload t ret sys) s')
    (hs : uploadStep cfg rs t ret sys s = some s') : ServerOk s' v retry (s'.curRc v) := by
  have hown := (uploadStep_move hs).2
  have hsame : ∀ {p : Place} {c : Addr}, c ∈ s.held p → p ≠ .upload t → s'.tries c = s.tries c := by
    intro p c hp hne
    refine tries_same hc hstep fun t' ret' sys' hact => ?_
    cases hact
    exact ne_library hc hp hne
  rw [hown.curRc v (hindex ▸ hv)]
  refine ⟨h.nonneg, fun c hq => ?_, fun k => ?_⟩
  · rcases hstep.upload_queue.1 _ _ hq with hq | ⟨heq, -⟩
    · rw [hsame (p := .queue (.srv v)) hq (by simp)]
      exact h.queued c hq
    · exact absurd heq hv
  · have hk : (v, k) ≠ t := fun he => hv (congrArg Prod.fst he)
    have hpc := h.threads k
    rw [hown.upload _ hk]
    refine hpc.other (fun c hnode => ?_) (fun c hc => h.waiting hc) fun c hfail => ?_
    · rcases hnode with hnode | hrel
      · exact hsame (State.mem_held_upload.mpr hnode) fun he => hk (Place.upload.inj he)
      · refine hsame (p := .released (v, k)) ?_ (by simp)
        rw [State.held, hrel]
        simp
    · rw [hfail] at hpc
      exact hpc.1

/-- **Any server** after a step of the others. -/
theorem ServerOk.others {v : ℕ} {retry : ℤ} (hc : Counts cfg s) (h : ServerOk s v retry (s.curRc v))
    (hretry : 0 ≤ retry) (hnew : ∀ g a i w c, s.sche g = .push a i w c → s.tries c = 0)
    (hstep : Step cfg s act s') (hu : ∀ t ret sys, act ≠ .upload t ret sys) (hk : act ≠ .kill) :
    ServerOk s' v retry (s'.curRc v) := by
  obtain ⟨hupload, hrc⟩ := hstep.keeps_upload hu hk
  have htries : s'.tries = s.tries :=
    funext fun c => tries_same hc hstep fun t ret sys hact => absurd hact (hu t ret sys)
  rw [hrc]
  refine ⟨h.nonneg, fun c hq => ?_, fun k => ?_⟩
  · rw [htries]
    rcases hstep.other_queue hc hu hq with hq | ⟨g, a, i, hpc⟩
    · exact h.queued c hq
    · have hzero : s.tries c = 0 := hnew g a i v c hpc
      rw [hzero]
      exact ⟨h.nonneg, hretry⟩
  · rw [htries, hupload]
    exact h.threads k

/-- What has not been handed out has not been tried after a step either. -/
theorem RetryInv.fresh_step (hc : Counts cfg s) (h : RetryInv cfg s) (hstep : Step cfg s act s')
    {c : Addr} (hle : s.next ≤ c) : s'.tries c = 0 := by
  rw [tries_same hc hstep, h.fresh c hle]
  intro t ret sys _ hpc
  obtain ⟨n, -, hn, -⟩ := hc.upload_node (t := t) (c := c) (by rw [hpc]; rfl)
  exact absurd (hc.owned.fresh hn) (not_lt.mpr hle)

/-- **One step** keeps the tries within what is allowed. -/
theorem RetryInv.step (hidx : ServersIndexed cfg.servers) (hc : Counts cfg s)
    (h : RetryInv cfg s) (hg : Undisturbed s act) (hs : step cfg s act = some s') :
    RetryInv cfg s' := by
  have hstep := step_cases hs
  refine ⟨fun c hle => h.fresh_step hc hstep ((next_of_step hstep).trans hle),
    fun g a i w c hpc => ?_, fun v rs hrs hretry => ?_⟩
  · rcases hstep.push_new hpc with hpc | rfl
    · have hheld : c ∈ s.held (.new g) := by simp [State.held, hpc, SchePc.newnode]
      rw [tries_same hc hstep fun t _ _ _ => ne_library hc hheld (by simp)]
      exact h.new g a i w c hpc
    · exact h.fresh_step hc hstep le_rfl
  · have hok := h.server v rs hrs hretry
    by_cases hk : act = .kill
    · subst hk
      cases hstep
      exact ⟨le_rfl, fun c hq => absurd hq List.not_mem_nil, fun k => trivial⟩
    by_cases hu : ∃ t ret sys, act = .upload t ret sys
    · obtain ⟨t, ret, sys, rfl⟩ := hu
      obtain ⟨rs', hrs', -, hs⟩ := step_upload hs
      by_cases hv : v = t.1
      · subst hv
        obtain rfl := Option.some.inj (hrs'.symm.trans hrs)
        exact hok.own hc (hidx _ _ hrs) hg hstep hs
      · exact hok.frame hc (hidx _ _ hrs') hv hstep hs
    · exact hok.others hc hretry h.new hstep (fun t ret sys he => hu ⟨t, ret, sys, he⟩) hk

/-- **A failing file is retried a bounded number of times** in every run in which no write
of `cur_rc` undercuts a copy that waits for its next try. -/
theorem retries_bounded (hidx : ServersIndexed cfg.servers)
    (h : (daemon cfg disk).Reach Undisturbed s) : RetriesBounded cfg s := by
  have hinv : RetryInv cfg s := by
    refine h.invariant (fun s hs => ?_) fun s act s' hr hinv hg hs =>
      hinv.step hidx (.reach hr) hg hs
    obtain ⟨time, rfl⟩ := hs
    refine ⟨fun _ _ => rfl, fun _ _ _ _ _ hpc => ?_, fun v rs _ _ =>
      ⟨le_rfl, fun c hc => ?_, fun k => trivial⟩⟩
    · cases hpc
    · cases hc
  exact hinv.bounded

/-- The guard, for servers with one thread: what waits is in the queue. -/
def undisturbedTest (s : State) : Act → Bool
  | .upload t _ _ =>
      match s.upload t with
      | .resetRc _ => (s.queue (.srv t.1)).head.all fun c => decide ((s.tries c : ℤ) ≤ 0)
      | .failedInc _ rc => (s.queue (.srv t.1)).head.all fun c => decide ((s.tries c : ℤ) ≤ rc + 1)
      | _ => true
  | _ => true

theorem Undisturbed.of_test {G : State → Act → Prop} (hone : ∀ rs ∈ cfg.servers, rs.threadNum = 1)
    (hr : (daemon cfg disk).Reach G s) (h : undisturbedTest s act = true) : Undisturbed s act := by
  -- the thread that writes is the only one of its server that has left the head of the loop
  have halone : ∀ {t : ThreadId} {k : ℕ} {pc : UploadPc}, s.upload t ≠ .pop →
      s.upload (t.1, k) = pc → pc ≠ .pop → s.upload t = pc := by
    intro t k pc ht hk hpc
    obtain ⟨rs, hrs, hlt⟩ := (Linked.reach hr).upload t ht
    obtain ⟨rs', hrs', hlt'⟩ := (Linked.reach hr).upload (t.1, k) (by rw [hk]; exact hpc)
    cases hrs.symm.trans hrs'
    rw [hone rs (List.mem_of_getElem? hrs)] at hlt hlt'
    have heq : t = (t.1, k) := Prod.ext rfl (by dsimp only at hlt' ⊢; omega)
    rw [heq]
    exact hk
  have hwaiting : ∀ {t : ThreadId} {k : ℕ} {c : Addr}, s.upload t ≠ .pop →
      (s.upload (t.1, k)).waiting = some c → (s.upload t).waiting = some c := by
    intro t k c ht hk
    rw [halone ht rfl fun hpop => by rw [hpop] at hk; cases hk]
    exact hk
  intro v x hw
  cases hw with
  | @reset t ret sys c hpc =>
    have hne : s.upload t ≠ .pop := by rw [hpc]; simp
    simp only [undisturbedTest, hpc, List.all_eq_true, decide_eq_true_eq] at h
    refine ⟨h, fun k c hk => ?_, fun k c hk => ?_⟩
    · have := hwaiting hne hk
      rw [hpc] at this
      cases this
    · cases hpc.symm.trans (halone hne hk (by simp))
  | @count t ret sys c rc hpc =>
    have hne : s.upload t ≠ .pop := by rw [hpc]; simp
    simp only [undisturbedTest, hpc, List.all_eq_true, decide_eq_true_eq] at h
    refine ⟨h, fun k c hk => ?_, fun k c hk => ?_⟩
    · have := hwaiting hne hk
      rw [hpc] at this
      cases this
    · cases hpc.symm.trans (halone hne hk (by simp))

end Bound

/-! ### Runs -/

theorem sampleConfig_indexed : ServersIndexed sampleConfig.servers := by
  intro v rs hrs
  match v with
  | 0 => cases hrs; rfl
  | v + 1 => cases hrs

/-- The thread of the first server has a failure to treat. -/
def failedPass : List Act := List.replicate 8 (.upload (0, 0) NEWIUP_FAIL [])

/-- The theorem at a copy that has failed twice. -/
theorem retries_bounded_twice :
    ∃ s, (daemon sampleConfig sampleDisk).exec (.boot sampleDisk 1000)
        (firstPass ++ failedPass ++ List.replicate 9 (.upload (0, 0) NEWIUP_FAIL [])) = some s ∧
      s.upload (0, 0) = .release 1 ∧ s.tries 1 = 2 ∧ RetriesBounded sampleConfig s := by
  have hrun : ((daemon sampleConfig sampleDisk).exec (.boot sampleDisk 1000)
      (firstPass ++ failedPass ++ List.replicate 9 (.upload (0, 0) NEWIUP_FAIL []))).map
        (fun s => (s.upload (0, 0), s.tries 1)) = some (.release 1, 2) := by decide +kernel
  obtain ⟨s, hs, he⟩ := Option.map_eq_some_iff.mp hrun
  obtain ⟨hpc, htries⟩ := Prod.ext_iff.mp he
  have hreach : (daemon sampleConfig sampleDisk).Reach Undisturbed s :=
    .of_exec (g := undisturbedTest) (fun _ _ hr => .of_test (by decide) hr) (.start ⟨1000, rfl⟩)
      (by decide +kernel) hs
  exact ⟨s, hs, hpc, htries, retries_bounded sampleConfig_indexed hreach⟩

/-- Two files are dispatched to the server. -/
def twoFiles : List Act :=
  [.produce "/d/b.c".toList [], .produce "/d/b".toList [2], .monitor 0 "/d/a.c".toList,
    .monitor 0 "/d/b.c".toList] ++ List.replicate 30 (.sche 0 [])

/-- **A success gives a failing file its tries back**: with `attempts: 1` the library is
called a third time for a copy that has failed twice, since another copy has been taken in
between. -/
theorem tries_renewed :
    ∃ s, (daemon sampleConfig sampleDisk).Reach (fun _ _ => True) s ∧ s.AtServer 0 2 ∧
      s.tries 2 = 3 ∧ ¬RetriesBounded sampleConfig s := by
  have hrun : ((daemon sampleConfig sampleDisk).exec (.boot sampleDisk 1000)
      (twoFiles ++ failedPass ++ uploadPass 0 ++ failedPass ++
        List.replicate 5 (.upload (0, 0) NEWIUP_FAIL []))).map
        (fun s => (s.upload (0, 0), s.tries 2)) = some (.failed 2, 3) := by decide +kernel
  obtain ⟨s, hs, he⟩ := Option.map_eq_some_iff.mp hrun
  obtain ⟨hpc, htries⟩ := Prod.ext_iff.mp he
  have hreach : (daemon sampleConfig sampleDisk).Reach (fun _ _ => True) s :=
    .of_exec (g := fun _ _ => true) (fun _ _ _ _ => trivial) (.start ⟨1000, rfl⟩)
      (by decide +kernel) hs
  have hat : s.AtServer 0 2 := .inr ⟨0, .inl (by rw [show s.upload (0, 0) = _ from hpc]; rfl)⟩
  refine ⟨s, hreach, hat, htries, fun hbound => ?_⟩
  have htwice : (s.tries 2 : ℤ) ≤ 2 := hbound 0 (sampleServer 0 "s".toList) rfl (by decide) 2 hat
  rw [show s.tries 2 = 3 from htries] at htwice
  omega

end Newiup
