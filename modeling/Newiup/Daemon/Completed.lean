import Newiup.Daemon.Once

/-!
# What a completed file leaves behind

`do_upload_file_finish_all` removes the monitor file and the marker, and it is reached
when no flag is left.  But the upload thread removes the source after a success, and
`sche_handle` frees a node without a source before it looks at anything else.

## Main definitions

* `TidyRun` — the condition on the steps: a completed node has a source when the
  scheduler looks for it.
* `Gone` — a node has left no file behind.
* `ClearedAt`, `Cleared` — what is gone where a scheduler stands.

## Main results

* `completed_leaves_nothing` — **a completed node that is freed leaves nothing behind.**
* `completed_is_dropped` — a completed node without a source is dropped, and leaves its
  marker.
-/

namespace Newiup

/-- Every server group of monitor group `g` has taken the node. -/
def Completed (cfg : Config) (s : State) (g : ℕ) (a : Addr) : Prop :=
  ∀ i, Serves cfg g i → Accepted s a i

/-- No flag file of a monitor file is there, neither is its marker nor the file itself. -/
structure Gone (cfg : Config) (s : State) (g : ℕ) (m : Path) : Prop where
  flags : ∀ i, Serves cfg g i → ¬Present cfg s (.flag g m i)
  marker : ¬Present cfg s (.marker m)
  monitorfile : s.fs.has m = false

/-- **Steps of runs in which a completed node has a source when the scheduler looks for
it**, only the daemon touches the state files, files can be removed, and no other process
makes the monitor file of a node that is being finished. -/
structure TidyRun (cfg : Config) (M : ℕ → Path → Prop) (s : State) (act : Act) : Prop where
  /-- Only the daemon touches the state files. -/
  keepsOff : KeepsOff cfg M act
  /-- The files can be removed. -/
  removes : ∀ g sys a f, act = .sche g sys → s.sche g = .finish a f → f ≠ .act → none ∉ sys
  /-- No other process makes the monitor file. -/
  recreated : ∀ p b g a f n, act = .produce p b → s.sche g = .finish a f → s.heap a = some n →
    resolve n.monitorfile ≠ resolve p
  /-- The source of a completed node is there. -/
  sourced : ∀ g sys a n, act = .sche g sys → s.sche g = .source a → s.heap a = some n →
    Completed cfg s g a → s.fs.has n.src = true

/-- The monitor file has been removed. -/
def FinishStage.pastMonitor : FinishStage → Bool
  | .act => false
  | .delMonitor => false
  | _ => true

/-- The marker has been removed. -/
def FinishStage.pastMarker : FinishStage → Bool
  | .testMarker => true
  | .delMarkerAgain => true
  | .free => true
  | _ => false

/-- What is gone where the scheduler of group `g` stands with its node `a`. -/
def ClearedAt (cfg : Config) (s : State) (g : ℕ) (a : Addr) (m : Path) : SchePc → Prop
  | .check _ i => ∀ j, j < i → Serves cfg g j → ¬Present cfg s (.flag g m j)
  | .finish _ f => (∀ j, Serves cfg g j → ¬Present cfg s (.flag g m j)) ∧
      (f.pastMonitor = true → s.fs.has m = false) ∧
      (f.pastMarker = true → ¬Present cfg s (.marker m))
  | .drop _ => ¬Completed cfg s g a
  | _ => True

/-- What is gone where the schedulers stand. -/
def Cleared (cfg : Config) (s : State) : Prop :=
  ∀ {g a n}, (s.sche g).node = some a → s.heap a = some n →
    ClearedAt cfg s g a n.monitorfile (s.sche g)

section Steps

variable {cfg : Config} {M : Path → Prop} {s s' : State} {act : Act}

/-- Where a file comes from: another process, a finish action, or the creation of state
files. -/
theorem has_of_step (hs : Step cfg s act s') {p : Path} (h : s'.fs.has p = true) :
    s.fs.has p = true ∨ (∃ q b, act = .produce q b ∧ resolve p = resolve q) ∨
      ∃ g sys a, act = .sche g sys ∧ (s.sche g = .finish a .act ∨ ∃ i, s.sche g = .create a i) := by
  have hdel : ∀ {q sys}, (s.os sys (deleteFile q)).2.fs.has p = true → s.fs.has p = true := by
    intro q sys h
    rw [Fs.has] at h ⊢
    rcases wp_deleteFile_le (w := ⟨s.fs, sys⟩) q (resolve p) with he | he
    · rw [show (s.os sys (deleteFile q)).2.fs.entry (resolve p) = none from he] at h
      cases h
    · rwa [show (s.os sys (deleteFile q)).2.fs.entry (resolve p) = s.fs.entry (resolve p) from he]
        at h
  -- three kinds of steps can make a file; one that removes leaves no other path
  cases hs with
  | @produce q b =>
    by_cases he : resolve p = resolve q
    · exact Or.inr (Or.inl ⟨q, b, rfl, he⟩)
    · rw [Fs.has, Fs.entry_put_of_ne he] at h
      exact Or.inl h
  | @unproduce q =>
    rw [Fs.has, show (s.fs.unlink (resolve q)).entry (resolve p) = _ from Fs.entry_unlink ..] at h
    split at h
    · cases h
    · exact Or.inl h
  | createFlag hmg hpc => exact Or.inr (Or.inr ⟨_, _, _, rfl, Or.inr ⟨_, hpc⟩⟩)
  | createMarker hmg hpc => exact Or.inr (Or.inr ⟨_, _, _, rfl, Or.inr ⟨_, hpc⟩⟩)
  | finishOs hpc hst =>
    cases hst with
    | act => exact Or.inr (Or.inr ⟨_, _, _, rfl, Or.inl hpc⟩)
    | delMonitor => exact Or.inl (hdel h)
    | delMarker => exact Or.inl (hdel h)
    | delMarkerAgain => exact Or.inl (hdel h)
  | deleteSrc => exact Or.inl (hdel h)
  | deleteFlag => exact Or.inl (hdel h)
  | scheFree hpc hf hfree =>
    obtain ⟨heap, rfl⟩ := queueNodeFree_heap hfree
    exact Or.inl h
  | copy hpc hcopy =>
    obtain ⟨-, heap, rfl⟩ := queueNodeCopy_heap hcopy
    exact Or.inl h
  | release hpc hn hs' =>
    obtain ⟨heap, rfl⟩ := dropRetain_heap hs'
    exact Or.inl h
  | _ => exact Or.inl h

/-- One step of a tidy run. -/
structure TidyStep (cfg : Config) (M : Path → Prop) (s : State) (act : Act) (s' : State) :
    Prop where
  apart : StateFilesApart cfg (watched M)
  counts : Counts cfg s
  named : Named cfg (watched M) s
  guard : TidyRun cfg (watched M) s act
  step : Step cfg s act s'

namespace TidyStep

variable (h : TidyStep cfg M s act s')
include h

/-- The node of a scheduler; there is only one that has any. -/
theorem sche_node {g : ℕ} {a : Addr} (ha : (s.sche g).node = some a) :
    ∃ n, s.heap a = some n ∧ s.original a = some n ∧ g = 0 ∧ M n.monitorfile := by
  obtain ⟨n, hn, horig, ho⟩ := h.counts.sche_node ha
  obtain ⟨hg, hM⟩ := (h.named a n hn).1
  exact ⟨n, hn, ho, horig.monitorId.symm.trans hg, hM⟩

/-- A state file appears only where the scheduler creates it. -/
theorem not_present {g : ℕ} {a : Addr} {f : StateFile} (hf : f.Of (watched M))
    (ha : (s.sche g).node = some a) (hpc : ∀ i, s.sche g ≠ .create a i)
    (hno : ¬Present cfg s f) : ¬Present cfg s' f := by
  intro hp
  rcases present_of_step h.apart h.counts h.named h.guard.keepsOff h.step hf hp with
    hp | ⟨g', sys, b, i, -, hpc', -⟩
  · exact hno hp
  · obtain ⟨-, -, -, rfl, -⟩ := h.sche_node ha
    obtain ⟨-, -, -, rfl, -⟩ := h.sche_node (g := g') (a := b) (by rw [hpc']; rfl)
    rw [hpc'] at ha
    cases ha
    exact hpc i hpc'

/-- What is gone stays gone. -/
theorem stays (hcl : Cleared cfg s) {g : ℕ} {a : Addr} {n : FileQueue}
    (ha : (s.sche g).node = some a) (hn : s.heap a = some n) :
    ClearedAt cfg s' g a n.monitorfile (s.sche g) := by
  have hat := hcl ha hn
  obtain ⟨n', hn', -, hg, hM⟩ := h.sche_node ha
  cases hn'.symm.trans hn
  -- a file that is gone comes back by a step that makes it, and the guard excludes these
  cases hpc : s.sche g with
  | check b i =>
    rw [hpc] at hat
    refine fun j hj hi => h.not_present (f := .flag g _ j) ⟨hg, hM⟩ ha ?_ (hat j hj hi)
    exact fun _ hc => by rw [hpc] at hc; cases hc
  | finish b f =>
    rw [hpc] at hat ha
    cases ha
    have hnode : (s.sche g).node = some a := by rw [hpc]; rfl
    have hnc : ∀ i, s.sche g ≠ .create a i := fun _ hc => by rw [hpc] at hc; cases hc
    refine ⟨fun j hi => h.not_present (f := .flag g _ j) ⟨hg, hM⟩ hnode hnc (hat.1 j hi),
      fun hf => ?_, fun hf => h.not_present (f := .marker _) ⟨g, hg, hM⟩ hnode hnc (hat.2.2 hf)⟩
    rw [← Bool.not_eq_true]
    intro hhas
    rcases has_of_step h.step hhas with hhas | ⟨q, c, rfl, he⟩ | ⟨g', sys, c, rfl, hpc'⟩
    · exact Bool.false_ne_true ((hat.2.1 hf).symm.trans hhas)
    · exact h.guard.recreated q c g a f n rfl hpc hn he
    · -- the one scheduler would make the file
      obtain ⟨-, -, -, hg', -⟩ := h.sche_node (g := g') (a := c) (by
        rcases hpc' with hpc' | ⟨i, hpc'⟩ <;> rw [hpc'] <;> rfl)
      obtain rfl := hg.trans hg'.symm
      rcases hpc' with hpc' | ⟨i, hpc'⟩
      · cases hpc.symm.trans hpc'
        cases hf
      · cases hpc.symm.trans hpc'
  | drop b =>
    rw [hpc] at hat ha
    cases ha
    refine fun hall => hat fun i hi => ?_
    rcases accepted_of_step h.counts h.step (hall i hi) with hacc | ⟨-, c, -, -, hlive, -⟩
    · exact hacc
    · have hbound := h.counts.dispatched.bound (g := g) (b := 0) (by rw [hpc]; rfl) hlive
      exact absurd hbound (Nat.not_lt_zero _)
  | _ => trivial

/-- What the scheduler clears in its own steps. -/
theorem clears (hcl : Cleared cfg s) {g : ℕ} {sys : Sys} {a : Addr} {n : FileQueue}
    (hact : act = .sche g sys) (ha : (s'.sche g).node = some a) (hn : s'.heap a = some n) :
    ClearedAt cfg s' g a n.monitorfile (s'.sche g) := by
  subst hact
  have hstays : ∀ {a n}, (s.sche g).node = some a → s.heap a = some n →
      ClearedAt cfg s' g a n.monitorfile (s.sche g) := fun ha hn => h.stays hcl ha hn
  have hs := h.step
  -- only the tests of the scheduler and its removals bring it to where files must be gone
  cases hs with
  | scheIdle => exact hstays ha hn
  | schePop => rw [State.sche_setSche_self]; trivial
  | @scheLocal _ _ mg pc pc' hmg hpc hl =>
    change ((s.setSche g pc').sche g).node = some a at ha
    show ClearedAt cfg _ g a n.monitorfile ((s.setSche g pc').sche g)
    rw [State.sche_setSche_self] at ha ⊢
    change s.heap a = some n at hn
    have hold : s.sche g = pc → (s.sche g).node = some a →
        ClearedAt cfg _ g a n.monitorfile pc := fun hpc ha => hpc ▸ hstays ha hn
    cases hl with
    | missing ho hmiss =>
      cases ha
      obtain ⟨n', hn', ho', -⟩ := h.sche_node (g := g) (a := a) (by rw [hpc]; rfl)
      cases ho'.symm.trans ho
      cases hn'.symm.trans hn
      exact fun hall => Bool.false_ne_true
        (hmiss.symm.trans (h.guard.sourced g sys a n rfl hpc hn hall))
    | marked => exact fun j hj => absurd hj (Nat.not_lt_zero j)
    | @unflagged _ i o sg ho hsg hflag =>
      cases ha
      intro j hj hi
      rcases Nat.lt_succ_iff_lt_or_eq.mp hj with hj | rfl
      · exact hold hpc (by rw [hpc]; rfl) j hj hi
      · obtain ⟨n', hn', ho', -⟩ := h.sche_node (g := g) (a := a) (by rw [hpc]; rfl)
        cases ho'.symm.trans ho
        cases hn'.symm.trans hn
        rw [present_iff (path_flag hmg hsg)]
        exact fun hp => Bool.false_ne_true (hflag.symm.trans hp)
    | complete hsg =>
      cases ha
      refine ⟨fun j hi => ?_, fun hf => (by cases hf), fun hf => (by cases hf)⟩
      exact hold hpc (by rw [hpc]; rfl) j (hi.lt (not_serves hmg hsg)) hi
    | limit =>
      cases ha
      obtain ⟨hflags, hmon, -⟩ := hold hpc (by rw [hpc]; rfl)
      exact ⟨hflags, fun _ => hmon rfl, fun hf => (by cases hf)⟩
    | remains =>
      cases ha
      obtain ⟨hflags, hmon, hmark⟩ := hold hpc (by rw [hpc]; rfl)
      exact ⟨hflags, fun _ => hmon rfl, fun _ => hmark rfl⟩
    | gone =>
      cases ha
      obtain ⟨hflags, hmon, hmark⟩ := hold hpc (by rw [hpc]; rfl)
      exact ⟨hflags, fun _ => hmon rfl, fun _ => hmark rfl⟩
    | _ => trivial
  | createFlag => rw [State.sche_setSche_self]; trivial
  | createMarker => rw [State.sche_setSche_self]; trivial
  | finishOs hpc hst =>
    rw [State.sche_setSche_self] at ha ⊢
    cases ha
    obtain ⟨n', hn', ho', -⟩ := h.sche_node (g := g) (a := a) (by rw [hpc]; rfl)
    cases hn'.symm.trans hn
    have hat := hstays (by rw [hpc]; rfl) hn'
    rw [hpc] at hat
    obtain ⟨hflags, hmon, hmark⟩ := hat
    have hsys := fun hf => h.guard.removes g sys a _ rfl hpc hf
    cases hst with
    | act => exact ⟨hflags, fun hf => (by cases hf), fun hf => (by cases hf)⟩
    | delMonitor ho =>
      cases ho'.symm.trans ho
      exact ⟨hflags, fun _ => has_deleteFile s _ (hsys nofun), fun hf => (by cases hf)⟩
    | delMarker ho =>
      cases ho'.symm.trans ho
      refine ⟨hflags, fun _ => hmon rfl, fun _ hp => ?_⟩
      rw [present_iff rfl] at hp
      exact Bool.false_ne_true ((has_deleteFile s _ (hsys nofun)).symm.trans hp)
    | delMarkerAgain => exact ⟨hflags, fun _ => hmon rfl, fun _ => hmark rfl⟩
  | scheFree => rw [State.sche_setSche_self] at ha; cases ha
  | choose => rw [State.sche_setSche_self]; trivial
  | copy => rw [State.sche_setSche_self]; trivial
  | push => rw [State.sche_setSche_self]; trivial
  | requeue => rw [State.sche_setSche_self] at ha; cases ha

/-- **Every tidy step keeps what is gone.** -/
theorem cleared (hcl : Cleared cfg s) : Cleared cfg s' := by
  intro g a n' ha hn'
  by_cases hself : ∃ sys, act = .sche g sys
  · obtain ⟨sys, hact⟩ := hself
    exact h.clears hcl hact ha hn'
  · rcases sche_of_step h.step (fun sys hact => hself ⟨sys, hact⟩) with hs | ⟨-, hs⟩
    · rw [hs] at ha ⊢
      obtain ⟨n, hn, -⟩ := h.sche_node ha
      rw [(fixed_eq_iff.mp (original_of_step h.counts h.step hn hn')).2.2.2.1]
      exact h.stays hcl ha hn
    · rw [hs] at ha
      cases ha

end TidyStep

theorem Cleared.reach {disk : Fs} (hap : StateFilesApart cfg (watched M))
    (h : (daemon cfg disk).Reach (TidyRun cfg (watched M)) s) : Cleared cfg s := by
  refine h.invariant (I := Cleared cfg) ?_ fun s a s' hr hcl hg hs => ?_
  · rintro _ ⟨time, rfl⟩ g a n ha
    cases ha
  · exact TidyStep.cleared ⟨hap, .reach hr, .reach (fun s a hg => hg.keepsOff) hr, hg,
      step_cases hs⟩ hcl

/-- **A completed node that is freed leaves nothing behind**: when a scheduler is about to
free a node that every server group has taken, none of its flags, its marker and its
monitor file is there. -/
theorem completed_leaves_nothing {disk : Fs} (hap : StateFilesApart cfg (watched M))
    (h : (daemon cfg disk).Reach (TidyRun cfg (watched M)) s) {g : ℕ} {a : Addr} {n : FileQueue}
    (hfree : ScheFree a (s.sche g)) (hn : s.heap a = some n) (hall : Completed cfg s g a) :
    Gone cfg s g n.monitorfile := by
  have hnode : (s.sche g).node = some a := by
    generalize s.sche g = pc at hfree
    cases hfree <;> rfl
  have hat := Cleared.reach hap h hnode hn
  generalize s.sche g = pc at hfree hat
  cases hfree with
  | drop => exact absurd hall hat
  | finish => exact ⟨hat.1, hat.2.2 rfl, hat.2.1 rfl⟩

/-- A completed node that is dropped leaves its marker, where there is one node for each
monitor file. -/
theorem completed_is_dropped {M : ℕ → Path → Prop} {disk : Fs} (hap : StateFilesApart cfg M)
    (hun : Unshared M) (h : (daemon cfg disk).Reach (SoleRun cfg M) s) {g : ℕ} {a : Addr}
    {n : FileQueue} (hpc : s.sche g = .drop a) (hn : s.heap a = some n)
    (hall : Completed cfg s g a) : Present cfg s (.marker n.monitorfile) := by
  have hc : Counts cfg s := .reach h
  obtain ⟨n', hn', horig, -⟩ := hc.sche_node (g := g) (a := a) (by rw [hpc]; rfl)
  cases hn'.symm.trans hn
  obtain ⟨-, mg, hmg, -⟩ := (Named.reach (fun s a hg => hg.keepsOff) h : Named cfg M s) a n hn
  rw [horig.monitorId] at hmg
  -- there is a server group
  have hserves : Serves cfg g 0 := by
    cases hl : mg.serverGroupList with
    | nil => exact absurd hl mg.sgl_ne
    | cons sg l => exact ⟨mg, sg, hmg, by rw [hl]; rfl⟩
  refine ((Once.reach hap hun h).marker hn horig.copy (Or.inl ⟨0, hall 0 hserves⟩)).resolve_right ?_
  rintro ⟨f, hf⟩
  rw [horig.monitorId, hpc] at hf
  cases hf

end Steps

/-- `TidyRun` for finitely many monitor files, as a test. -/
def tidyTest (cfg : Config) (files : List (ℕ × Path)) (s : State) (act : Act) : Bool :=
  (keepsOff cfg files act && act.succeeds) && match act with
    | .produce p _ => files.all fun x => decide (resolve x.2 ≠ resolve p)
    | .sche g _ => match s.sche g with
      | .source a => (s.heap a).all fun n => s.fs.has n.src
      | _ => true
    | _ => true

theorem TidyRun.of_test {cfg : Config} {M : ℕ → Path → Prop} {files : List (ℕ × Path)}
    (hM : ∀ g m, M g m ↔ (g, m) ∈ files) {s : State} (hnm : Named cfg M s) {act : Act}
    (h : tidyTest cfg files s act = true) : TidyRun cfg M s act := by
  obtain ⟨hcare, ht⟩ := Bool.and_eq_true_iff.mp h
  refine ⟨.of_keepsOff hM (Bool.and_eq_true_iff.mp hcare).1, fun g sys a f hact _ _ => ?_,
    fun p b g a f n hact _ hn => ?_, fun g sys a n hact hpc hn _ => ?_⟩ <;> subst hact
  · exact of_decide_eq_true (Bool.and_eq_true_iff.mp hcare).2
  · exact of_decide_eq_true (List.all_eq_true.mp ht _ ((hM _ _).mp (hnm a n hn).1))
  · dsimp only at ht
    rw [hpc] at ht
    dsimp only at ht
    rw [hn] at ht
    exact ht

theorem completed_sample {s : State}
    (h : s.calls.map (fun c => (c.original, c.group, c.ret)) = [(0, 0, NEWIUP_OK)]) :
    Completed sampleConfig s 0 0 := by
  intro i hi
  obtain rfl : i = 0 := hi.eq_zero (by
    rintro ⟨mg, sg, hmg, hsg⟩
    cases hmg
    cases hsg)
  have hmem : (0, 0, NEWIUP_OK) ∈ s.calls.map fun c => (c.original, c.group, c.ret) := by
    rw [h]
    exact List.mem_cons_self
  obtain ⟨call, hcall, he⟩ := List.mem_map.mp hmem
  simp only [Prod.mk.injEq] at he
  exact ⟨call, hcall, he.1, he.2.1, he.2.2⟩

/-- The theorem at a node whose source is made again after its upload. -/
theorem completed_leaves_nothing_once :
    ∃ s n, (daemon sampleConfig sampleDisk).exec (.boot sampleDisk 1000)
        (finishedRun ++ List.replicate 5 (.sche 0 [])) = some s ∧
      s.sche 0 = .finish 0 .free ∧ s.heap 0 = some n ∧ Gone sampleConfig s 0 n.monitorfile := by
  have hrun : ((daemon sampleConfig sampleDisk).exec (.boot sampleDisk 1000)
      (finishedRun ++ List.replicate 5 (.sche 0 []))).map (fun s =>
        (s.sche 0, (s.heap 0).isSome, s.calls.map fun c => (c.original, c.group, c.ret))) =
      some (.finish 0 .free, true, [(0, 0, NEWIUP_OK)]) := by decide +kernel
  obtain ⟨s, hs, he⟩ := Option.map_eq_some_iff.mp hrun
  simp only [Prod.mk.injEq] at he
  obtain ⟨hpc, hheap, hcalls⟩ := he
  obtain ⟨n, hn⟩ := Option.isSome_iff_exists.mp hheap
  have hreach : (daemon sampleConfig sampleDisk).Reach
      (TidyRun _ (watched (· = "/d/a.c".toList))) s :=
    .of_exec (g := tidyTest sampleConfig sampleFiles)
      (fun _ _ hr => .of_test watched_sample (.reach (fun _ _ hg => hg.keepsOff) hr))
      (.start ⟨1000, rfl⟩) (by decide +kernel) hs
  exact ⟨s, n, hs, hpc, hn, completed_leaves_nothing sample_apart hreach
    (by rw [hpc]; exact .finish) hn (completed_sample hcalls)⟩

/-- **A completed node leaves its marker and its monitor file behind**: the upload thread
has removed its source, and the scheduler drops it. -/
theorem completed_leaves_marker :
    ¬∀ (cfg : Config) (M : Path → Prop) (disk : Fs) (s : State) (g : ℕ) (a : Addr) (n : FileQueue),
      cfg.groups.length = 1 → StateFilesApart cfg (watched M) →
      (daemon cfg disk).Reach (fun s act => CarefulRun cfg (watched M) s act ∧
        MildRun (fun _ => false) s act = true) s →
      ScheFree a (s.sche g) → s.heap a = some n → Completed cfg s g a →
      Gone cfg s g n.monitorfile := by
  intro h
  set cfg := sampleConfig with hcfg
  have hrun : ((daemon cfg sampleDisk).exec (.boot sampleDisk 1000)
      (firstPass ++ uploadPass 0 ++ List.replicate 3 (.sche 0 []))).map (fun s =>
        (s.sche 0, decide ((s.heap 0).map FileQueue.monitorfile = some "/d/a.c".toList) &&
          s.fs.has "/d/a.c-upload-k".toList, s.calls.map fun c => (c.original, c.group, c.ret))) =
      some (.drop 0, true, [(0, 0, NEWIUP_OK)]) := by decide +kernel
  obtain ⟨s, hs, he⟩ := Option.map_eq_some_iff.mp hrun
  simp only [Prod.mk.injEq, Bool.and_eq_true, decide_eq_true_eq] at he
  obtain ⟨hpc, ⟨hheap, hmark⟩, hcalls⟩ := he
  obtain ⟨n, hn, hm⟩ := Option.map_eq_some_iff.mp hheap
  have hreach : (daemon cfg sampleDisk).Reach (fun s act =>
      CarefulRun cfg (watched (· = "/d/a.c".toList)) s act ∧
        MildRun (fun _ => false) s act = true) s :=
    .of_exec (g := fun s act => carefulTest cfg sampleFiles s act && MildRun (fun _ => false) s act)
      (fun s act _ ht => by
        rw [Bool.and_eq_true] at ht
        exact ⟨.of_test watched_sample ht.1, ht.2⟩)
      (.start ⟨1000, rfl⟩) (by decide +kernel) hs
  have hgone := h cfg _ sampleDisk s 0 0 n rfl sample_apart hreach (by rw [hpc]; exact .drop) hn
    (completed_sample hcalls)
  refine hgone.marker ?_
  rw [hm]
  exact (present_iff rfl).mpr hmark

end Newiup
