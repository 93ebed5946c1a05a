import Newiup.Daemon.StateFiles

/-!
# What the marker stands for

The scheduler finishes a file when the `-upload-k` marker is there and no flag file
is.  That is right as long as a marker without a flag file stands for a success: the
flags are made before the marker, and a flag is removed after a success only.  What
counts as a success is a parameter, so that the argument serves for one node as for
all nodes of a file name.

## Main definitions

* `Marked` — the invariant: where the marker is and the flag is not, there was a
  success.
* `Records` — what a notion of success has to satisfy.

## Main results

* `StepIn.marked` — **every step keeps the invariant.**
-/

namespace Newiup

/-- No node waits for monitor file `m` in monitor group `g`. -/
def NoNode (s : State) (g : ℕ) (m : Path) : Prop :=
  ∀ a n, s.heap a = some n → n.copy = false → n.monitorId = g → n.monitorfile ≠ m

/-- The state files of a monitor file do not promise a success: there is no marker, or
every flag is there. -/
def Unpromised (cfg : Config) (s : State) (g : ℕ) (m : Path) : Prop :=
  Present cfg s (.marker m) → ∀ i, Serves cfg g i → Present cfg s (.flag g m i)

/-- The node `c` is a copy of `a`, for monitor file `m` and server group `i` of monitor
group `g`. -/
def CopyOf (s : State) (c a : Addr) (g : ℕ) (m : Path) (i : ℕ) : Prop :=
  ∃ n o, s.heap c = some n ∧ n.copy = true ∧ n.retainCount = a ∧ n.monitorId = g ∧
    s.heap a = some o ∧ o.copy = false ∧ o.monitorId = g ∧ o.monitorfile = m ∧ s.grp c = i

/-- **A notion of success**: `done s g m i` says that monitor file `m` has been taken by
server group `i` of monitor group `g`.  A success is forgotten only when a new node is
added whose state files promise nothing, and a library call that returns `NEWIUP_OK`
is one. -/
structure Records (cfg : Config) (G : State → Act → Prop) (I : State → Prop)
    (done : State → ℕ → Path → ℕ → Prop) : Prop where
  keep : ∀ {s act s' g m i}, Counts cfg s → I s → G s act → Step cfg s act s' →
    done s g m i → done s' g m i ∨ (act = .monitor g m ∧ NoNode s g m ∧ Unpromised cfg s g m)
  succeed : ∀ {s t sys s' c a g m i}, Counts cfg s → I s → G s (.upload t NEWIUP_OK sys) →
    Step cfg s (.upload t NEWIUP_OK sys) s' → s.upload t = .library c →
    s'.upload t = .deleteSrc c → CopyOf s c a g m i → done s' g m i

/-- What a guard on the steps promises: other processes keep off the state files, and
the flag files can be made. -/
structure Careful (cfg : Config) (M : ℕ → Path → Prop) (G : State → Act → Prop) : Prop where
  keepsOff : ∀ {s a}, G s a → KeepsOff cfg M a
  makes : ∀ {s a}, G s a → Makes cfg s a

/-- No monitor file is watched by two monitor groups. -/
def Unshared (M : ℕ → Path → Prop) : Prop := ∀ g g' m, M g m → M g' m → g = g'

/-- What a scheduler has found out where it stands. -/
def MarkedAt (cfg : Config) (done : State → ℕ → Path → ℕ → Prop) (s : State) (g : ℕ)
    (m : Path) : SchePc → Prop
  | .create _ i => ∀ j, j < i → Serves cfg g j → Present cfg s (.flag g m j) ∨ done s g m j
  | .check _ i => Present cfg s (.marker m) ∧ ∀ j, j < i → Serves cfg g j → done s g m j
  | .finish _ _ => ∀ j, Serves cfg g j → done s g m j
  | _ => True

/-- **Where the marker is and a flag is not, there was a success.**  A success is recorded by
removing the flag, so that a flag that is missing says either that there was one or that the
flags are not made yet.  The marker, which is made last, tells the two apart.  What counts as a
success is a parameter: a call for the file, or one for this very node. -/
structure Marked (cfg : Config) (M : ℕ → Path → Prop) (done : State → ℕ → Path → ℕ → Prop)
    (s : State) : Prop where
  marker : ∀ {g m i}, M g m → Serves cfg g i → Present cfg s (.marker m) →
    Present cfg s (.flag g m i) ∨ done s g m i
  sche : ∀ {g a n}, (s.sche g).node = some a → s.heap a = some n →
    MarkedAt cfg done s g n.monitorfile (s.sche g)
  upload : ∀ {t c a g m i}, s.upload t = .deleteSrc c ∨ s.upload t = .deleteFlag c →
    CopyOf s c a g m i → done s g m i

section Steps

variable {cfg : Config} {M : ℕ → Path → Prop} {G : State → Act → Prop} {I : State → Prop}
  {done : State → ℕ → Path → ℕ → Prop} {s s' : State} {act : Act}

/-! ### Copies keep what they are for -/

theorem grp_step (hs : Step cfg s act s') {c : Addr} (h : c ≠ s.next) :
    s'.grp c = s.grp c := by
  cases hs with
  | copy hpc hcopy =>
    obtain ⟨-, heap, rfl⟩ := queueNodeCopy_heap hcopy
    exact Function.update_of_ne h ..
  | scheFree hpc hf hfree =>
    obtain ⟨heap, rfl⟩ := queueNodeFree_heap hfree
    rfl
  | release hpc hn hs' =>
    obtain ⟨heap, rfl⟩ := dropRetain_heap hs'
    rfl
  | _ => rfl

/-- The original that a scheduler holds is what it was. -/
theorem original_of_step (hc : Counts cfg s) (hs : Step cfg s act s') {a : Addr}
    {n n' : FileQueue} (hn : s.heap a = some n) (hn' : s'.heap a = some n') :
    n'.fixed = n.fixed := by
  rcases heap_step hc hs hn' with ⟨m, hm, hfix⟩ | ⟨_, _, _, _, -, -, -, ha, -⟩ |
    ⟨_, _, _, _, _, _, -, -, -, -, -, ha, -⟩
  · cases hm.symm.trans hn
    exact hfix
  · exact absurd (hc.owned.fresh hn) (by rw [ha]; exact lt_irrefl _)
  · exact absurd (hc.owned.fresh hn) (by rw [ha]; exact lt_irrefl _)

/-- A copy that was there is a copy of what it was a copy of. -/
theorem copyOf_of_step (hc : Counts cfg s) (hs : Step cfg s act s') {t : ThreadId}
    {c a : Addr} {g : ℕ} {m : Path} {i : ℕ} (ht : (s.upload t).node = some c)
    (h : CopyOf s' c a g m i) : CopyOf s c a g m i := by
  obtain ⟨n', o', hn', hcopy, hret, hid, ho', hoc, hoid, hom, hgrp⟩ := h
  obtain ⟨n, o, hn, -, -, ho, -, -⟩ := hc.upload_node ht
  obtain ⟨h₁, h₂, h₃, -, -⟩ := fixed_eq_iff.mp (original_of_step hc hs hn hn')
  have hra : n.retainCount = a := h₃.symm.trans hret
  rw [hra] at ho
  obtain ⟨k₁, k₂, -, k₄, -⟩ := fixed_eq_iff.mp (original_of_step hc hs ho ho')
  refine ⟨n, o, hn, h₁.symm.trans hcopy, hra, h₂.symm.trans hid, ho, k₁.symm.trans hoc,
    k₂.symm.trans hoid, k₄.symm.trans hom, ?_⟩
  rw [← grp_step hs (hc.owned.fresh hn).ne, hgrp]

/-- The creation of a state file removes none. -/
theorem present_of_create {g : ℕ} {a : Addr} {i : ℕ} {sys : Sys} (hpc : s.sche g = .create a i)
    (hs : Step cfg s (.sche g sys) s') {f : StateFile} (h : Present cfg s f) :
    Present cfg s' f := by
  cases hs with
  | createFlag => exact present_createFile h
  | createMarker => exact present_createFile h
  | finishOs hpc' => rw [hpc] at hpc'; cases hpc'
  | scheFree hpc' hf hfree =>
    obtain ⟨heap, rfl⟩ := queueNodeFree_heap hfree
    exact h
  | copy hpc' hcopy => rw [hpc] at hpc'; cases hpc'
  | _ => exact h

/-- Only its own steps, and a restart, move a scheduler. -/
theorem sche_of_step (hs : Step cfg s act s') {g : ℕ} (hact : ∀ sys, act ≠ .sche g sys) :
    s'.sche g = s.sche g ∨ (act = .kill ∧ s' = s.restart) := by
  have hother : ∀ {g' sys}, act = .sche g' sys → g ≠ g' := fun {g' sys} ha hg =>
    hact sys (hg ▸ ha)
  cases hs with
  | kill => exact Or.inr ⟨rfl, rfl⟩
  | scheFree hpc hf hfree =>
    obtain ⟨heap, rfl⟩ := queueNodeFree_heap hfree
    exact Or.inl (State.sche_setSche_of_ne _ _ _ (hother rfl))
  | copy hpc hcopy =>
    obtain ⟨-, heap, rfl⟩ := queueNodeCopy_heap hcopy
    exact Or.inl (State.sche_setSche_of_ne _ _ _ (hother rfl))
  | release hpc hn hs' =>
    obtain ⟨heap, rfl⟩ := dropRetain_heap hs'
    exact Or.inl rfl
  | schePop => exact Or.inl (State.sche_setSche_of_ne _ _ _ (hother rfl))
  | @scheLocal g' sys mg pc pc' =>
    exact Or.inl (State.sche_setSche_of_ne s g' pc' (hother rfl))
  | createFlag => exact Or.inl (State.sche_setSche_of_ne _ _ _ (hother rfl))
  | createMarker => exact Or.inl (State.sche_setSche_of_ne _ _ _ (hother rfl))
  | finishOs => exact Or.inl (State.sche_setSche_of_ne _ _ _ (hother rfl))
  | choose => exact Or.inl (State.sche_setSche_of_ne _ _ _ (hother rfl))
  | push => exact Or.inl (State.sche_setSche_of_ne _ _ _ (hother rfl))
  | requeue => exact Or.inl (State.sche_setSche_of_ne _ _ _ (hother rfl))
  | _ => exact Or.inl rfl

/-- Only its own steps, and a restart, move an upload thread. -/
theorem upload_stays (hs : Step cfg s act s') {t : ThreadId}
    (hact : ∀ ret sys, act ≠ .upload t ret sys) :
    s'.upload t = s.upload t ∨ (act = .kill ∧ s' = s.restart) := by
  have hother : ∀ {t' ret sys}, act = .upload t' ret sys → t ≠ t' := fun {t' ret sys} ha ht =>
    hact ret sys (ht ▸ ha)
  cases hs with
  | kill => exact Or.inr ⟨rfl, rfl⟩
  | scheFree hpc hf hfree =>
    obtain ⟨heap, rfl⟩ := queueNodeFree_heap hfree
    exact Or.inl rfl
  | copy hpc hcopy =>
    obtain ⟨-, heap, rfl⟩ := queueNodeCopy_heap hcopy
    exact Or.inl rfl
  | release hpc hn hs' =>
    obtain ⟨heap, rfl⟩ := dropRetain_heap hs'
    exact Or.inl (State.upload_setUpload_of_ne _ _ _ (hother rfl))
  | uploadPop => exact Or.inl (State.upload_setUpload_of_ne _ _ _ (hother rfl))
  | @uploadLocal t' ret sys pc pc' =>
    exact Or.inl (State.upload_setUpload_of_ne s t' pc' (hother rfl))
  | library => exact Or.inl (State.upload_setUpload_of_ne _ _ _ (hother rfl))
  | deleteSrc => exact Or.inl (State.upload_setUpload_of_ne _ _ _ (hother rfl))
  | deleteFlag => exact Or.inl (State.upload_setUpload_of_ne _ _ _ (hother rfl))
  | uploadRequeue => exact Or.inl (State.upload_setUpload_of_ne _ _ _ (hother rfl))
  | free => exact Or.inl (State.upload_setUpload_of_ne _ _ _ (hother rfl))
  | _ => exact Or.inl rfl

/-- An upload thread is about to remove the files of a copy: it was already, or the
library has just taken the copy. -/
theorem upload_of_step (hs : Step cfg s act s') {t : ThreadId} {c : Addr}
    (h : s'.upload t = .deleteSrc c ∨ s'.upload t = .deleteFlag c) :
    (s.upload t = .deleteSrc c ∨ s.upload t = .deleteFlag c) ∨
      (∃ sys, act = .upload t NEWIUP_OK sys) ∧ s.upload t = .library c ∧
        s'.upload t = .deleteSrc c := by
  -- a thread that moved elsewhere is not there
  have hmove : ∀ {s₁ : State} {t' : ThreadId} {pc : UploadPc}, s₁.upload = s.upload →
      (∀ c, pc ≠ .deleteSrc c ∧ pc ≠ .deleteFlag c) →
      ((s₁.setUpload t' pc).upload t = .deleteSrc c ∨
        (s₁.setUpload t' pc).upload t = .deleteFlag c) →
      s.upload t = .deleteSrc c ∨ s.upload t = .deleteFlag c := fun {s₁ t' pc} hup hpc h => by
    rw [State.upload_setUpload] at h
    split at h
    · exact absurd h (not_or.mpr (hpc c))
    · rwa [hup] at h
  cases hs with
  | kill => rcases h with h | h <;> cases h
  | scheFree hpc hf hfree =>
    obtain ⟨heap, rfl⟩ := queueNodeFree_heap hfree
    exact Or.inl h
  | copy hpc hcopy =>
    obtain ⟨-, heap, rfl⟩ := queueNodeCopy_heap hcopy
    exact Or.inl h
  | release hpc hn hs' =>
    obtain ⟨heap, rfl⟩ := dropRetain_heap hs'
    exact Or.inl (hmove rfl (by simp) h)
  | uploadPop => exact Or.inl (hmove rfl (by simp) h)
  | uploadLocal hpc hl => exact Or.inl (hmove rfl (by cases hl <;> simp) h)
  | uploadRequeue => exact Or.inl (hmove rfl (by simp) h)
  | free => exact Or.inl (hmove rfl (by simp) h)
  | deleteFlag => exact Or.inl (hmove rfl (by simp) h)
  | @library t' ret sys c' n o hpc hn ho =>
    by_cases ht : t = t'
    · subst ht
      rw [State.upload_setUpload_self] at h ⊢
      split at h
      · next hret =>
        rcases h with h | h
        · cases h
          exact Or.inr ⟨⟨sys, by rw [hret]⟩, hpc, if_pos hret⟩
        · cases h
      · rcases h with h | h <;> cases h
    · rw [State.upload_setUpload_of_ne _ _ _ ht] at h
      exact Or.inl h
  | @deleteSrc t' ret sys c' o hpc ho =>
    by_cases ht : t = t'
    · subst ht
      rw [State.upload_setUpload_self] at h
      rcases h with h | h
      · cases h
      · cases h
        exact Or.inl (Or.inl hpc)
    · rw [State.upload_setUpload_of_ne _ _ _ ht] at h
      exact Or.inl h
  | _ => exact Or.inl h

/-! ### The invariant -/

/-- One step in the setting of the argument. -/
structure StepIn (cfg : Config) (M : ℕ → Path → Prop) (G : State → Act → Prop)
    (I : State → Prop) (done : State → ℕ → Path → ℕ → Prop) (s : State) (act : Act)
    (s' : State) : Prop where
  apart : StateFilesApart cfg M
  unshared : Unshared M
  careful : Careful cfg M G
  records : Records cfg G I done
  counts : Counts cfg s
  named : Named cfg M s
  inv : I s
  guard : G s act
  step : Step cfg s act s'

namespace StepIn

variable (h : StepIn cfg M G I done s act s')
include h

theorem present {f : StateFile} (hf : f.Of M) (ht : ¬Touch cfg s act f) :
    Present cfg s' f ↔ Present cfg s f :=
  present_step h.apart h.counts h.named (h.careful.keepsOff h.guard) h.step hf ht

/-- The node of a scheduler. -/
theorem sche_node {g : ℕ} {a : Addr} (ha : (s.sche g).node = some a) :
    ∃ n, s.heap a = some n ∧ IsOriginal g a n ∧ M g n.monitorfile := by
  obtain ⟨n, hn, horig, -⟩ := h.counts.sche_node ha
  exact ⟨n, hn, horig, horig.monitorId ▸ (h.named a n hn).1⟩

/-- A success for the node of a scheduler stays. -/
theorem done_of_held {g i : ℕ} {a : Addr} {n : FileQueue} (hn : s.heap a = some n)
    (horig : IsOriginal g a n) (hd : done s g n.monitorfile i) : done s' g n.monitorfile i := by
  rcases h.records.keep h.counts h.inv h.guard h.step hd with hd | ⟨-, hno, -⟩
  · exact hd
  · exact absurd rfl (hno a n hn horig.copy horig.monitorId)

/-- A flag file stays, unless there was a success; a success stays, unless it is
forgotten. -/
theorem flag_or_done (hm : Marked cfg M done s) {g : ℕ} {m : Path} {i : ℕ} (hM : M g m)
    (hfd : Present cfg s (.flag g m i) ∨ done s g m i) :
    (Present cfg s' (.flag g m i) ∨ done s' g m i) ∨
      (act = .monitor g m ∧ NoNode s g m ∧ Unpromised cfg s g m) := by
  have hkeep : done s g m i → (Present cfg s' (.flag g m i) ∨ done s' g m i) ∨
      (act = .monitor g m ∧ NoNode s g m ∧ Unpromised cfg s g m) := fun hd =>
    (h.records.keep h.counts h.inv h.guard h.step hd).imp Or.inr id
  rcases hfd with hf | hd
  · by_cases ht : Touch cfg s act (.flag g m i)
    · cases ht with
      | createFlag hpc => exact Or.inl (Or.inl (present_of_create hpc h.step hf))
      | @deleteFlag t ret sys c n o hpc hn ho =>
        -- the flag is removed after a success
        refine hkeep (hm.upload (a := n.retainCount) (Or.inr hpc) ?_)
        obtain ⟨n', o', hn', hcopy, -, hor, ho', horig⟩ :=
          h.counts.upload_node (t := t) (c := c) (by rw [hpc]; rfl)
        cases hn'.symm.trans hn
        cases ho'.symm.trans ho
        exact ⟨n, o, hn, hcopy, rfl, rfl, hor, horig.copy, horig.monitorId, rfl, rfl⟩
    · exact Or.inl (Or.inl ((h.present (f := .flag g m i) hM ht).mpr hf))
  · exact hkeep hd

/-- For the node of a scheduler nothing is forgotten. -/
theorem flag_or_done_of_held (hm : Marked cfg M done s) {g i : ℕ} {a : Addr} {n : FileQueue}
    (hn : s.heap a = some n) (horig : IsOriginal g a n)
    (hfd : Present cfg s (.flag g n.monitorfile i) ∨ done s g n.monitorfile i) :
    Present cfg s' (.flag g n.monitorfile i) ∨ done s' g n.monitorfile i :=
  (h.flag_or_done hm (horig.monitorId ▸ (h.named a n hn).1) hfd).resolve_right fun hno =>
    hno.2.1 a n hn horig.copy horig.monitorId rfl

/-- The marker stays while the scheduler of its group does not finish it. -/
theorem marker_stays {g : ℕ} {a : Addr} {n : FileQueue} (ha : (s.sche g).node = some a)
    (hn : s.heap a = some n) (hfin : ∀ f, s.sche g ≠ .finish a f)
    (hp : Present cfg s (.marker n.monitorfile)) : Present cfg s' (.marker n.monitorfile) := by
  obtain ⟨n', hn', -, hM⟩ := h.sche_node ha
  obtain rfl : n' = n := Option.some.inj (hn'.symm.trans hn)
  by_cases ht : Touch cfg s act (.marker n'.monitorfile)
  · obtain ⟨f, hf⟩ : ∃ f, f = StateFile.marker n'.monitorfile := ⟨_, rfl⟩
    rw [← hf] at ht
    cases ht with
    | createFlag => cases hf
    | deleteFlag => cases hf
    | createMarker hpc => exact present_of_create hpc h.step hp
    | @delMarker g' sys b st k hpc hst hk =>
      -- it would be the scheduler of the group
      obtain ⟨k', hk', -, hM'⟩ := h.sche_node (g := g') (a := b) (by rw [hpc]; rfl)
      cases hk'.symm.trans hk
      rw [StateFile.marker.inj hf] at hM'
      obtain rfl := h.unshared g g' _ hM hM'
      rw [hpc] at ha
      cases ha
      exact absurd hpc (hfin st)
  · exact (h.present (f := .marker n'.monitorfile) ⟨g, hM⟩ ht).mpr hp

/-- What a scheduler has found out stays true. -/
theorem stays (hm : Marked cfg M done s) {g : ℕ} {a : Addr} {n : FileQueue}
    (ha : (s.sche g).node = some a) (hn : s.heap a = some n) :
    MarkedAt cfg done s' g n.monitorfile (s.sche g) := by
  obtain ⟨n', hn', horig, -⟩ := h.sche_node ha
  obtain rfl : n' = n := Option.some.inj (hn'.symm.trans hn)
  have hat := hm.sche ha hn
  cases hpc : s.sche g with
  | create b i =>
    rw [hpc] at hat
    exact fun j hj hi => h.flag_or_done_of_held hm hn horig (hat j hj hi)
  | check b i =>
    rw [hpc] at hat
    refine ⟨?_, fun j hj hi => h.done_of_held hn horig (hat.2 j hj hi)⟩
    exact h.marker_stays ha hn (fun f hf => by rw [hpc] at hf; cases hf) hat.1
  | finish b f =>
    rw [hpc] at hat
    exact fun j hi => h.done_of_held hn horig (hat j hi)
  | _ => trivial

/-- What the scheduler finds out in its own steps. -/
theorem finds (hm : Marked cfg M done s) {g : ℕ} {sys : Sys} {a : Addr} {n : FileQueue}
    (hact : act = .sche g sys) (ha : (s'.sche g).node = some a) (hn : s'.heap a = some n) :
    MarkedAt cfg done s' g n.monitorfile (s'.sche g) := by
  subst hact
  have hstays : ∀ {a n}, (s.sche g).node = some a → s.heap a = some n →
      MarkedAt cfg done s' g n.monitorfile (s.sche g) := fun ha hn => h.stays hm ha hn
  have hs := h.step
  -- it finds out by its tests of the marker and of the flags, and makes the flags itself
  cases hs with
  | scheIdle => exact hstays ha hn
  | schePop => rw [State.sche_setSche_self]; trivial
  | @scheLocal _ _ mg pc pc' hmg hpc hl =>
    change ((s.setSche g pc').sche g).node = some a at ha
    show MarkedAt cfg done _ g n.monitorfile ((s.setSche g pc').sche g)
    rw [State.sche_setSche_self] at ha ⊢
    change s.heap a = some n at hn
    have hold : ∀ {b i}, s.sche g = .check b i → b = a →
        MarkedAt cfg done _ g n.monitorfile (.check b i) := fun {b i} hb hba => by
      have := hstays (a := a) (n := n) (by rw [hb, hba]; rfl) hn
      rwa [hb] at this
    cases hl with
    | unmarked => exact fun j hj => absurd hj (Nat.not_lt_zero j)
    | marked ho hmark =>
      cases ha
      obtain ⟨n', hn', -, ho'⟩ := h.counts.sche_node (g := g) (by rw [hpc]; rfl)
      cases ho'.symm.trans ho
      cases hn'.symm.trans hn
      exact ⟨⟨_, rfl, hmark⟩, fun j hj => absurd hj (Nat.not_lt_zero j)⟩
    | @unflagged _ i o sg ho hsg hflag =>
      cases ha
      obtain ⟨hmark, hdone⟩ := hold hpc rfl
      refine ⟨hmark, fun j hj hi => ?_⟩
      rcases Nat.lt_succ_iff_lt_or_eq.mp hj with hj | rfl
      · exact hdone j hj hi
      · -- the marker is there and the flag is not
        obtain ⟨n', hn', horig, ho'⟩ := h.counts.sche_node (g := g) (by rw [hpc]; rfl)
        cases ho'.symm.trans ho
        cases hn'.symm.trans hn
        have hM := horig.monitorId ▸ (h.named _ _ hn).1
        have hat := hm.sche (by rw [hpc]; rfl) hn
        rw [hpc] at hat
        refine h.done_of_held hn horig ((hm.marker hM hi hat.1).resolve_left fun hp => ?_)
        rw [present_iff (path_flag hmg hsg), hflag] at hp
        cases hp
    | complete hsg =>
      cases ha
      exact fun j hi => (hold hpc rfl).2 j (hi.lt (not_serves hmg hsg)) hi
    | limit => cases ha; have := hstays (by rw [hpc]; rfl) hn; rwa [hpc] at this
    | remains => cases ha; have := hstays (by rw [hpc]; rfl) hn; rwa [hpc] at this
    | gone => cases ha; have := hstays (by rw [hpc]; rfl) hn; rwa [hpc] at this
    | _ => trivial
  | @createFlag _ _ mg b i o sg hmg hpc ho hsg =>
    rw [State.sche_setSche_self] at ha ⊢
    cases ha
    change s.heap a = some n at hn
    obtain ⟨n', hn', horig, ho'⟩ := h.counts.sche_node (g := g) (by rw [hpc]; rfl)
    cases ho'.symm.trans ho
    cases hn'.symm.trans hn
    intro j hj hi
    rcases Nat.lt_succ_iff_lt_or_eq.mp hj with hj | rfl
    · have := hstays (by rw [hpc]; rfl) hn
      rw [hpc] at this
      exact this j hj hi
    · have hpath : (StateFile.flag g n.monitorfile j).path cfg = some _ := path_flag hmg hsg
      refine Or.inl ((present_iff hpath).mpr ?_)
      exact h.careful.makes h.guard _ _ _ _ _ _ rfl hpc (.createFlag hpc hn hi) hpath
  | createMarker => rw [State.sche_setSche_self]; trivial
  | finishOs hpc hst =>
    rw [State.sche_setSche_self] at ha ⊢
    cases ha
    have := hstays (by rw [hpc]; rfl) hn
    rwa [hpc] at this
  | scheFree => rw [State.sche_setSche_self] at ha; cases ha
  | choose => rw [State.sche_setSche_self]; trivial
  | copy => rw [State.sche_setSche_self]; trivial
  | push => rw [State.sche_setSche_self]; trivial
  | requeue => rw [State.sche_setSche_self] at ha; cases ha

/-- **Every step keeps the invariant.** -/
theorem marked (hm : Marked cfg M done s) : Marked cfg M done s' where
  marker {g m i} hM hi hp := by
    -- the marker was there before, or has been made by this step
    rcases present_of_step h.apart h.counts h.named (h.careful.keepsOff h.guard) h.step
      (f := .marker m) ⟨g, hM⟩ hp with hp | ⟨g', sys, b, j, rfl, hpc, ht⟩
    · rcases h.flag_or_done hm hM (hm.marker hM hi hp) with hfd | ⟨rfl, -, hun⟩
      · exact hfd
      · exact Or.inl ((h.present (f := .flag g m i) hM (by rintro ⟨⟩)).mpr (hun hp i hi))
    · -- the marker has just been made, after all flags
      obtain ⟨f, hf⟩ : ∃ f, f = StateFile.marker m := ⟨_, rfl⟩
      rw [← hf] at ht
      cases ht with
      | createFlag => cases hf
      | delMarker hpc' => rw [hpc] at hpc'; cases hpc'
      | createMarker hpc' hk hj =>
        rw [hpc] at hpc'
        cases hpc'
        obtain ⟨n, hn, horig, hM'⟩ := h.sche_node (g := g') (a := b) (by rw [hpc]; rfl)
        cases hk.symm.trans hn
        cases hf
        obtain rfl := h.unshared g g' _ hM hM'
        have hat := hm.sche (by rw [hpc]; rfl) hn
        rw [hpc] at hat
        exact h.flag_or_done_of_held hm hn horig (hat i (hi.lt hj) hi)
  sche {g a n'} ha hn' := by
    by_cases hself : ∃ sys, act = .sche g sys
    · obtain ⟨sys, hact⟩ := hself
      exact h.finds hm hact ha hn'
    -- the steps of the others leave the scheduler where it is, unless all ends
    · rcases sche_of_step h.step (fun sys hact => hself ⟨sys, hact⟩) with hs | ⟨-, hs⟩
      · rw [hs] at ha ⊢
        obtain ⟨n, hn, -⟩ := h.sche_node ha
        rw [(fixed_eq_iff.mp (original_of_step h.counts h.step hn hn')).2.2.2.1]
        exact h.stays hm ha hn
      · rw [hs] at ha
        cases ha
  upload {t c a g m i} ht hcopy := by
    rcases upload_of_step h.step ht with ht | ⟨⟨sys, rfl⟩, hlib, hsrc⟩
    · have hnode : (s.upload t).node = some c := by rcases ht with ht | ht <;> rw [ht] <;> rfl
      have hold := copyOf_of_step h.counts h.step hnode hcopy
      rcases h.records.keep h.counts h.inv h.guard h.step (hm.upload ht hold) with hd | ⟨-, hno, -⟩
      · exact hd
      · obtain ⟨-, o, -, -, -, -, ho, hoc, hoid, hom, -⟩ := hold
        exact absurd hom (hno a o ho hoc hoid)
    · have hold := copyOf_of_step h.counts h.step (t := t) (by rw [hlib]; rfl) hcopy
      exact h.records.succeed h.counts h.inv h.guard h.step hlib hsrc hold

end StepIn

/-- **The invariant holds in every reachable state**, from a disk without state files. -/
theorem Marked.reach {disk : Fs} (hap : StateFilesApart cfg M) (hun : Unshared M)
    (hcare : Careful cfg M G) (hrec : Records cfg G ((daemon cfg disk).Reach G) done)
    (hclean : Clean cfg M disk) (h : (daemon cfg disk).Reach G s) : Marked cfg M done s := by
  refine h.invariant ?_ fun s a s' hr hm hg hs => ?_
  · rintro _ ⟨time, rfl⟩
    refine ⟨fun {g m i} hM _ hp => ?_, fun ha => (by cases ha), fun ht => ?_⟩
    · obtain ⟨p, hpath, hhas⟩ := hp
      rw [show (State.boot disk time).fs.has p = false from
        hclean (.marker m) p ⟨g, hM⟩ hpath] at hhas
      cases hhas
    · rcases ht with ht | ht <;> cases ht
  · exact StepIn.marked ⟨hap, hun, hcare, hrec, .reach hr,
      .reach (fun s a => hcare.keepsOff) hr, hr, hg, step_cases hs⟩ hm

end Steps

end Newiup
