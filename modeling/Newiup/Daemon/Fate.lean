import Newiup.Daemon.Once

/-!
# The fate of the source

The finish action is configured, but the source does not live to see it: the upload
thread removes it after the first success, and the scheduler drops a node without a
source.  So in runs where nothing but the daemon touches a file that has arrived, the
finish action is never run, and a source is where it arrived exactly as long as no
library has taken its node.

## Main definitions

* `ArrivedRun` — the condition on the steps: files that have arrived are left to the
  daemon.
* `Fated` — the invariant.

## Main results

* `source_fate` — **a source stays exactly as long as no library takes it**, and the
  finish action is never run.
* `finish_action_ignored` — the configured action is not what happens.
-/

namespace Newiup

/-! ### Files of their own -/

namespace Fs

/-- No other entry has the inode of the entry at `l`. -/
def Alone (fs : Fs) (l : Loc) : Prop :=
  ∀ i l', fs.entry l = some i → fs.entry l' = some i → l' = l

variable {fs : Fs} {l : Loc}

theorem Alone.unlink (h : fs.Alone l) (l₀ : Loc) : (fs.unlink l₀).Alone l := by
  intro i l' hl hl'
  rw [entry_unlink] at hl hl'
  split at hl
  · cases hl
  · split at hl'
    · cases hl'
    · exact h i l' hl hl'

theorem Alone.make (h : fs.Alone l) (l₀ : Loc) (n : Inode) : (fs.make l₀ n).Alone l := by
  intro i l' hl hl'
  have hnew : ∀ {k}, fs.entry k ≠ some fs.next := fun {k} hk =>
    (fs.entry_lt k _ hk).false
  rw [entry_make] at hl hl'
  split at hl
  · next he =>
    cases hl
    split at hl'
    · next he' => rw [he, he']
    · exact absurd hl' hnew
  · split at hl'
    · cases hl'
      exact absurd hl hnew
    · exact h i l' hl hl'

theorem Alone.put (h : fs.Alone l) (p : Path) (b : Bytes) : (fs.put p b).Alone l := by
  unfold Fs.put
  split
  · exact h.make _ _
  · exact h

theorem read_make_of_ne {n : Inode} {q : Path} (hq : resolve q ≠ l) :
    (fs.make l n).read q = fs.read q :=
  read_congr (by rw [entry_make, if_neg hq]) fun i hi => by
    rw [inode_make, if_neg (fs.entry_lt _ _ hi).ne]

theorem Alone.read_setData (h : fs.Alone l) {i : Ino} (hi : fs.entry l = some i) {b : Bytes}
    {q : Path} (hq : resolve q ≠ l) : (fs.setData i b).read q = fs.read q := by
  refine read_congr rfl fun j hj => ?_
  rw [inode_setData, if_neg]
  rintro rfl
  exact hq (h j _ hi hj)

/-- Making a file leaves the contents at other paths alone. -/
theorem wp_createFile_read {w : World} {p q : Path} (h : w.fs.Alone (resolve p))
    (hq : resolve q ≠ resolve p) :
    wp (createFile p) (fun _ w' => w'.fs.read q = w.fs.read q) w := by
  rw [createFile, wp_bind]
  exact wp_openTrunc (fun _ _ _ => read_make_of_ne hq) (fun _ _ hi _ _ => h.read_setData hi hq)
    (fun _ _ _ _ _ => rfl) fun _ => rfl

theorem wp_createFile_alone {w : World} (p : Path) (h : w.fs.Alone l) :
    wp (createFile p) (fun _ w' => w'.fs.Alone l) w := by
  rw [createFile, wp_bind]
  exact wp_openTrunc (fun _ _ _ => h.make _ _) (fun _ _ _ _ _ => h) (fun _ _ _ _ _ => h)
    fun _ => h

/-- So does deleting one. -/
theorem wp_deleteFile_read {w : World} {p q : Path} (hq : resolve q ≠ resolve p) :
    wp (deleteFile p) (fun _ w' => w'.fs.read q = w.fs.read q) w := by
  rw [deleteFile, wp_bind]
  exact wp_remove (fun _ => read_unlink_of_ne hq) fun _ => rfl

theorem wp_deleteFile_alone {w : World} (p : Path) (h : w.fs.Alone l) :
    wp (deleteFile p) (fun _ w' => w'.fs.Alone l) w := by
  rw [deleteFile, wp_bind]
  exact wp_remove (fun _ => h.unlink _) fun _ => h

end Fs

/-! ### Files that have arrived -/

/-- Different monitor files have different sources. -/
def SourcesApart (cfg : Config) (M : ℕ → Path → Prop) : Prop :=
  ∀ g g' m m' mg mg' src src', M g m → M g' m' → cfg.groups[g]? = some mg →
    cfg.groups[g']? = some mg' → addFileSuffixProcess mg m = some src →
    addFileSuffixProcess mg' m' = some src' → resolve src = resolve src' → g = g' ∧ m = m'

/-- The source of the node a library call was made for. -/
def Call.source (cfg : Config) (call : Call) : Option Path :=
  (cfg.groups[call.monitorId]?).bind fun mg => addFileSuffixProcess mg call.monitorfile

/-- Another process leaves the sources of the nodes alone, and does not make the source
of a node again that has been taken. -/
structure Untouched (cfg : Config) (s : State) (fs' : Fs) : Prop where
  read : ∀ a n, s.heap a = some n → fs'.read n.src = s.fs.read n.src
  has : ∀ call src, call ∈ s.calls → call.ret = NEWIUP_OK → call.source cfg = some src →
    s.fs.has src = false → fs'.has src = false

/-- **Steps of runs in which files that have arrived are left to the daemon.**  A node
is fresh when it is queued, and its source is there with the content `W`. -/
structure ArrivedRun (cfg : Config) (M : ℕ → Path → Prop) (W : Addr → Bytes) (s : State)
    (act : Act) : Prop extends FreshRun cfg M s act where
  /-- The source is there. -/
  arrives : ∀ g m mg src, act = .monitor g m → cfg.groups[g]? = some mg →
    addFileSuffixProcess mg m = some src → s.fs.read src = some (W s.next)
  /-- No other process writes it. -/
  produce : ∀ p b, act = .produce p b → Untouched cfg s (s.fs.put p b)
  /-- No other process removes it. -/
  unproduce : ∀ p, act = .unproduce p → Untouched cfg s (s.fs.unlink (resolve p))
  /-- It can be removed. -/
  removes : ∀ t ret sys c, act = .upload t ret sys → s.upload t = .deleteSrc c → none ∉ sys
  /-- There is no restart. -/
  lives : act ≠ .kill

/-- Between the test of the source and the dispatch. -/
def SchePc.tested : SchePc → Option Addr
  | .marker a => some a
  | .create a _ => some a
  | .check a _ => some a
  | .finish a _ => some a
  | _ => none

theorem SchePc.bound_of_tested {pc : SchePc} {a : Addr} (h : pc.tested = some a) :
    pc.bound = some (a, 0) := by
  cases pc <;> simp_all [SchePc.tested, SchePc.bound]

/-- **A source stays until a library takes it, and is gone afterwards.**  The source of a node
is removed by an upload thread, and by nobody else in the runs the result is about.  So it is
there until some library call was a success, and after that it is gone as soon as the thread
that made the call gets to its next step. -/
structure Fated (cfg : Config) (M : ℕ → Path → Prop) (W : Addr → Bytes) (s : State) : Prop where
  /-- The calls were made for monitor files. -/
  named : ∀ {call}, call ∈ s.calls → M call.monitorId call.monitorfile
  /-- State files are no second names of other files. -/
  alone : ∀ {f : StateFile} {p}, f.Of M → f.path cfg = some p → s.fs.Alone (resolve p)
  /-- A node that passes the test of its source has not been taken. -/
  tested : ∀ {g a i}, (s.sche g).tested = some a → ¬Accepted s a i
  /-- The source is there until the node is taken. -/
  source : ∀ {a n}, s.heap a = some n → n.copy = false → (∀ i, ¬Accepted s a i) →
    s.fs.read n.src = some (W a)
  /-- It is gone afterwards, or about to be. -/
  gone : ∀ {call src}, call ∈ s.calls → call.ret = NEWIUP_OK → call.source cfg = some src →
    s.fs.has src = false ∨ ∃ t, s.upload t = .deleteSrc call.copy ∧
      s.LiveCopy call.copy call.original

/-- **What a step does to the files**, while no finish is under way. -/
inductive FsStep (cfg : Config) (M : ℕ → Path → Prop) (s : State) : Act → Fs → Prop
  | same {act} : FsStep cfg M s act s.fs
  | produce {p b} : FsStep cfg M s (.produce p b) (s.fs.put p b)
  | unproduce {p} : FsStep cfg M s (.unproduce p) (s.fs.unlink (resolve p))
  | create {act sys} {f : StateFile} {p} (hf : f.Of M) (hp : f.path cfg = some p) :
      FsStep cfg M s act (s.os sys (createFile p)).2.fs
  | remove {act sys} {f : StateFile} {p} (hf : f.Of M) (hp : f.path cfg = some p) :
      FsStep cfg M s act (s.os sys (deleteFile p)).2.fs
  | source {t ret sys c o} (hpc : s.upload t = .deleteSrc c) (ho : s.original c = some o) :
      FsStep cfg M s (.upload t ret sys) (s.os sys (deleteFile o.src)).2.fs

section Steps

variable {cfg : Config} {M : ℕ → Path → Prop} {W : Addr → Bytes} {disk : Fs} {s s' : State}
  {act : Act}

theorem fsStep_of_step (hc : Counts cfg s) (hnm : Named cfg M s)
    (hidle : ∀ g a f, s.sche g ≠ .finish a f) (hs : Step cfg s act s') :
    FsStep cfg M s act s'.fs := by
  -- the steps that touch a file: two create, two remove, and a finish does not come to it here
  cases hs with
  | produce => exact .produce
  | unproduce => exact .unproduce
  | @createFlag g sys mg a i o sg hmg hpc ho hsg =>
    obtain ⟨n, hn, horig, ho'⟩ := hc.sche_node (g := g) (a := a) (by rw [hpc]; rfl)
    cases ho'.symm.trans ho
    exact .create (f := .flag g _ i) (horig.monitorId ▸ (hnm a _ hn).1) (path_flag hmg hsg)
  | @createMarker g sys mg a i o hmg hpc ho hsg =>
    obtain ⟨n, hn, horig, ho'⟩ := hc.sche_node (g := g) (a := a) (by rw [hpc]; rfl)
    cases ho'.symm.trans ho
    exact .create (f := .marker _) ⟨_, (hnm a _ hn).1⟩ rfl
  | finishOs hpc => exact absurd hpc (hidle _ _ _)
  | deleteSrc hpc ho => exact .source hpc ho
  | @deleteFlag t ret sys c n o mg name hpc hn ho hmg hname =>
    obtain ⟨n', o', hn', -, hlive, ho', hor, horig⟩ :=
      hc.upload_node (t := t) (c := c) (by rw [hpc]; rfl)
    cases hn'.symm.trans hn
    cases hor.symm.trans ho
    obtain ⟨mg', sg, hmg', hsg, hname'⟩ := hc.dispatched.named hlive hn
    cases hmg'.symm.trans hmg
    cases hname'.symm.trans hname
    exact .remove (f := .flag _ _ _) (horig.monitorId ▸ (hnm _ _ ho').1) (path_flag hmg hsg)
  | scheFree hpc hf hfree =>
    obtain ⟨heap, rfl⟩ := queueNodeFree_heap hfree
    exact .same
  | copy hpc hcopy =>
    obtain ⟨-, heap, rfl⟩ := queueNodeCopy_heap hcopy
    exact .same
  | release hpc hn hs' =>
    obtain ⟨heap, rfl⟩ := dropRetain_heap hs'
    exact .same
  | _ => exact .same

/-- A scheduler passes the test of a source that is there. -/
theorem tested_of_step {g : ℕ} {sys : Sys} (hs : Step cfg s (.sche g sys) s') {a : Addr}
    (h : (s'.sche g).tested = some a) : (s.sche g).tested = some a ∨
      s.sche g = .source a ∧ ∃ o, s.original a = some o ∧ s.fs.has o.src = true := by
  -- the local steps keep the node or leave it; one of them is the test itself
  cases hs with
  | scheIdle => exact Or.inl h
  | @scheLocal _ _ mg pc pc' hmg hpc hl =>
    change ((s.setSche g pc').sche g).tested = _ at h
    rw [State.sche_setSche_self] at h
    rw [hpc]
    cases hl with
    | present ho hhas =>
      cases h
      exact Or.inr ⟨rfl, _, ho, hhas⟩
    | unmarked => exact Or.inl h
    | marked => exact Or.inl h
    | unflagged => exact Or.inl h
    | complete => exact Or.inl h
    | limit => exact Or.inl h
    | remains => exact Or.inl h
    | gone => exact Or.inl h
    | _ => cases h
  | createFlag hmg hpc =>
    rw [State.sche_setSche_self] at h
    rw [hpc]
    exact Or.inl h
  | finishOs hpc =>
    rw [State.sche_setSche_self] at h
    rw [hpc]
    exact Or.inl h
  | schePop => rw [State.sche_setSche_self] at h; cases h
  | createMarker => rw [State.sche_setSche_self] at h; cases h
  | scheFree => rw [State.sche_setSche_self] at h; cases h
  | choose => rw [State.sche_setSche_self] at h; cases h
  | copy => rw [State.sche_setSche_self] at h; cases h
  | push => rw [State.sche_setSche_self] at h; cases h
  | requeue => rw [State.sche_setSche_self] at h; cases h

end Steps

/-- A node that is finished would have been taken before its source was tested. -/
theorem Fated.idle {cfg : Config} {M : ℕ → Path → Prop} {W : Addr → Bytes} {s : State}
    (hf : Fated cfg M W s) (hc : Counts cfg s) (hnm : Named cfg M s)
    (hm : Marked cfg M AcceptedNodes s) (g : ℕ) (a : Addr) (f : FinishStage) :
    s.sche g ≠ .finish a f := by
  intro hpc
  obtain ⟨n, hn, horig, -⟩ := hc.sche_node (g := g) (a := a) (by rw [hpc]; rfl)
  obtain ⟨-, mg, hmg, -⟩ := hnm a n hn
  rw [horig.monitorId] at hmg
  have hserves : Serves cfg g 0 :=
    ⟨mg, _, hmg, List.getElem?_eq_getElem (List.length_pos_iff.mpr mg.sgl_ne)⟩
  have hat := hm.sche (g := g) (by rw [hpc]; rfl) hn
  rw [hpc] at hat
  exact hf.tested (g := g) (by rw [hpc]; rfl) (hat 0 hserves a n hn horig.copy horig.monitorId rfl)

/-- One step of a run in which files that have arrived are left to the daemon. -/
structure FateStep (cfg : Config) (M : ℕ → Path → Prop) (W : Addr → Bytes) (s : State) (act : Act)
    (s' : State) : Prop where
  apart : StateFilesApart cfg M
  sources : SourcesApart cfg M
  counts : Counts cfg s
  counts' : Counts cfg s'
  named : Named cfg M s
  made : CallsMade s
  marked : Marked cfg M AcceptedNodes s
  one : ∀ {a a' n n'}, s.heap a = some n → s.heap a' = some n' → n.copy = false →
    n'.copy = false → n.monitorId = n'.monitorId → n.monitorfile = n'.monitorfile → a = a'
  fated : Fated cfg M W s
  guard : ArrivedRun cfg M W s act
  step : Step cfg s act s'

namespace FateStep

variable {cfg : Config} {M : ℕ → Path → Prop} {W : Addr → Bytes} {s s' : State} {act : Act}
  (h : FateStep cfg M W s act s')
include h

theorem idle (g : ℕ) (a : Addr) (f : FinishStage) : s.sche g ≠ .finish a f :=
  h.fated.idle h.counts h.named h.marked g a f

theorem fsStep : FsStep cfg M s act s'.fs :=
  fsStep_of_step h.counts h.named h.idle h.step

/-- A call knows the source of its node. -/
theorem source_of_call {call : Call} {n : FileQueue} (hcall : call ∈ s.calls)
    (hn : s.heap call.original = some n) : call.source cfg = some n.src := by
  obtain ⟨hid, hm⟩ := (h.made call hcall).2 n hn
  obtain ⟨-, mg, hmg, hsrc⟩ := h.named _ n hn
  rw [Call.source, hid, hm, hmg]
  exact hsrc

/-- No state file is a source. -/
theorem ne_source {f : StateFile} {p src : Path} {g : ℕ} {m : Path} {mg : MonitorGroup}
    (hf : f.Of M) (hp : f.path cfg = some p) (hM : M g m) (hmg : cfg.groups[g]? = some mg)
    (hsrc : addFileSuffixProcess mg m = some src) : resolve src ≠ resolve p := fun he =>
  h.apart.source hf hp hM hmg hsrc s.time (mem_finishTouches.mpr (Or.inl he.symm))

/-- A source that has been taken and is gone is not made again. -/
theorem has_source {call : Call} {src : Path} (hcall : call ∈ s.calls)
    (hret : call.ret = NEWIUP_OK) (hsrc : call.source cfg = some src)
    (hhas : s.fs.has src = false) : s'.fs.has src = false := by
  have hentry : s.fs.entry (resolve src) = none := by
    simpa [Fs.has] using hhas
  -- a deletion makes nothing
  have hdel : ∀ {sys p}, (s.os sys (deleteFile p)).2.fs.has src = false := fun {sys p} => by
    rw [Fs.has]
    rcases wp_deleteFile_le (w := ⟨s.fs, sys⟩) p (resolve src) with he | he
    · rw [show (s.os sys (deleteFile p)).2.fs.entry (resolve src) = none from he]
      rfl
    · rw [show (s.os sys (deleteFile p)).2.fs.entry (resolve src) = none from he.trans hentry]
      rfl
  have hstep := h.fsStep
  generalize s'.fs = fs' at hstep
  cases hstep with
  | same => exact hhas
  | produce => exact (h.guard.produce _ _ rfl).has call src hcall hret hsrc hhas
  | unproduce => exact (h.guard.unproduce _ rfl).has call src hcall hret hsrc hhas
  | create hf hp =>
    obtain ⟨mg, hmg, hsrc'⟩ := Option.bind_eq_some_iff.mp hsrc
    rw [Fs.has, entry_os (touches_createFile _) _
      (h.ne_source hf hp (h.fated.named hcall) hmg hsrc'), hentry]
    rfl
  | remove => exact hdel
  | source => exact hdel

theorem alone {f : StateFile} {p : Path} (hf : f.Of M) (hp : f.path cfg = some p) :
    s'.fs.Alone (resolve p) := by
  have hal := h.fated.alone hf hp
  have hstep := h.fsStep
  generalize s'.fs = fs' at hstep
  cases hstep with
  | same => exact hal
  | produce => exact hal.put _ _
  | unproduce => exact hal.unlink _
  | create => exact Fs.wp_createFile_alone (w := ⟨s.fs, _⟩) _ hal
  | remove => exact Fs.wp_deleteFile_alone (w := ⟨s.fs, _⟩) _ hal
  | source => exact Fs.wp_deleteFile_alone (w := ⟨s.fs, _⟩) _ hal

theorem tested {g : ℕ} {a : Addr} {i : ℕ} (ht : (s'.sche g).tested = some a) :
    ¬Accepted s' a i := by
  intro hacc
  have ht' : (s.sche g).tested = some a ∨
      s.sche g = .source a ∧ ∃ o, s.original a = some o ∧ s.fs.has o.src = true := by
    by_cases hact : ∃ sys, act = .sche g sys
    · obtain ⟨sys, rfl⟩ := hact
      exact tested_of_step h.step ht
    · rcases sche_of_step h.step fun sys ha => hact ⟨sys, ha⟩ with hs | ⟨hk, -⟩
      · exact Or.inl (hs ▸ ht)
      · exact absurd hk h.guard.lives
  have hbound : (s.sche g).bound = some (a, 0) := by
    rcases ht' with ht | ⟨hpc, -⟩
    · exact SchePc.bound_of_tested ht
    · rw [hpc]
      rfl
  have hno : ∀ {c}, ¬s.LiveCopy c a := fun hc =>
    Nat.not_lt_zero _ (h.counts.dispatched.bound hbound hc)
  rcases accepted_of_step h.counts h.step hacc with hacc | ⟨t, c, -, -, hlive, -⟩
  · rcases ht' with ht | ⟨hpc, o, hor, hhas⟩
    · exact h.fated.tested ht hacc
    · obtain ⟨n, hn, horig, hor'⟩ := h.counts.sche_node (g := g) (a := a) (by rw [hpc]; rfl)
      cases hor.symm.trans hor'
      obtain ⟨call, hcall, rfl, -, hret⟩ := hacc
      rcases h.fated.gone hcall hret (h.source_of_call hcall hn) with hgone | ⟨t, -, hlive⟩
      · exact Bool.false_ne_true (hgone.symm.trans hhas)
      · exact hno hlive
  · exact hno hlive

theorem source {a : Addr} {n' : FileQueue} (hn' : s'.heap a = some n') (hcopy : n'.copy = false)
    (hno : ∀ i, ¬Accepted s' a i) : s'.fs.read n'.src = some (W a) := by
  have hstep := h.step
  rcases heap_step h.counts h.step hn' with ⟨n, hn, hfix⟩ |
    ⟨g, m, mg, src, rfl, hmg, hsrc, rfl, rfl⟩ | ⟨_, _, _, _, _, _, -, -, -, -, -, -, rfl⟩
  · obtain ⟨hc, -, -, -, hsrc⟩ := fixed_eq_iff.mp hfix
    have hno₀ : ∀ i, ¬Accepted s a i := fun i ⟨call, hcall, hacc⟩ =>
      hno i ⟨call, calls_step hstep hcall, hacc⟩
    obtain ⟨hM, mg, hmg, hmsrc⟩ := h.named a n hn
    rw [hsrc, ← h.fated.source hn (hc ▸ hcopy) hno₀]
    have hfs := h.fsStep
    generalize s'.fs = fs' at hfs
    cases hfs with
    | same => rfl
    | produce => exact (h.guard.produce _ _ rfl).read a n hn
    | unproduce => exact (h.guard.unproduce _ rfl).read a n hn
    | create hf hp =>
      exact Fs.wp_createFile_read (w := ⟨s.fs, _⟩) (h.fated.alone hf hp)
        (h.ne_source hf hp hM hmg hmsrc)
    | remove hf hp =>
      exact Fs.wp_deleteFile_read (w := ⟨s.fs, _⟩) (h.ne_source hf hp hM hmg hmsrc)
    | @source t ret sys c o hpc ho =>
      -- the source that is removed is that of a node that has been taken
      obtain ⟨k, o', hk, hkc, -, ho', hor, horig⟩ :=
        h.counts.upload_node (t := t) (c := c) (by rw [hpc]; rfl)
      cases hor.symm.trans ho
      have hacc : Accepted s k.retainCount (s.grp c) :=
        h.marked.upload (Or.inl hpc) ⟨k, o, hk, hkc, rfl, rfl, ho', horig.copy, horig.monitorId,
          rfl, rfl⟩ _ o ho' horig.copy horig.monitorId rfl
      refine Fs.wp_deleteFile_read (w := ⟨s.fs, _⟩) fun he => ?_
      obtain ⟨hM', mg', hmg', hmsrc'⟩ := h.named _ o ho'
      obtain ⟨hid, hm⟩ := h.sources _ _ _ _ mg mg' _ _ hM hM' hmg hmg' hmsrc hmsrc' he
      obtain rfl := h.one hn ho' (hc ▸ hcopy) horig.copy hid hm
      exact hno₀ _ hacc
  · cases hstep with
    | monitor => exact h.guard.arrives g m mg src rfl hmg hsrc
  · cases hcopy

theorem gone {call : Call} {src : Path} (hcall : call ∈ s'.calls) (hret : call.ret = NEWIUP_OK)
    (hsrc : call.source cfg = some src) : s'.fs.has src = false ∨
      ∃ t, s'.upload t = .deleteSrc call.copy ∧ s'.LiveCopy call.copy call.original := by
  have hold : call ∈ s.calls → s'.fs.has src = false ∨
      ∃ t, s'.upload t = .deleteSrc call.copy ∧ s'.LiveCopy call.copy call.original :=
    fun hcall => by
      rcases h.fated.gone hcall hret hsrc with hhas | ⟨t, hpc, hlive⟩
      · exact Or.inl (h.has_source hcall hret hsrc hhas)
      · by_cases hact : ∃ ret sys, act = .upload t ret sys
        · obtain ⟨ret, sys, rfl⟩ := hact
          have hs := h.step
          cases hs with
          | @deleteSrc _ _ _ c o hpc' ho =>
            rw [hpc] at hpc'
            cases hpc'
            obtain ⟨k, o', hk, -, -, ho', hor, -⟩ :=
              h.counts.upload_node (t := t) (c := call.copy) (by rw [hpc]; rfl)
            cases hor.symm.trans ho
            obtain ⟨l, hl, -, hretain, -⟩ := hlive
            cases hl.symm.trans hk
            rw [hretain] at ho'
            cases (h.source_of_call hcall ho').symm.trans hsrc
            exact Or.inl (has_deleteFile s _ (h.guard.removes t ret sys _ rfl hpc))
          | uploadIdle hpc' => rw [hpc] at hpc'; cases hpc'
          | uploadPop hpc' => rw [hpc] at hpc'; cases hpc'
          | uploadLocal hpc' hl => rw [hpc] at hpc'; subst hpc'; cases hl
          | library hpc' => rw [hpc] at hpc'; cases hpc'
          | deleteFlag hpc' => rw [hpc] at hpc'; cases hpc'
          | uploadRequeue hpc' => rw [hpc] at hpc'; cases hpc'
          | release hpc' => rw [hpc] at hpc'; cases hpc'
          | free hpc' => rw [hpc] at hpc'; cases hpc'
        · rcases upload_stays h.step fun ret sys ha => hact ⟨ret, sys, ha⟩ with he | ⟨hk, -⟩
          · have hnode : (s'.upload t).node = some call.copy := by rw [he, hpc]; rfl
            exact Or.inr ⟨t, he.trans hpc,
              liveCopy_of_held h.counts h.counts' h.step hlive hnode⟩
          · exact absurd hk h.guard.lives
  -- a call that was made before, or the one of this step, after which the source is removed
  rcases calls_of_step h.counts h.step with he | ⟨t, ret, sys, c, a, o, -, -, hpc', hlive, -, he⟩
  · exact hold (he ▸ hcall)
  · rw [he] at hcall
    rcases List.mem_cons.mp hcall with rfl | hcall
    · rw [if_pos hret] at hpc'
      have hnode : (s'.upload t).node = some c := by rw [hpc']; rfl
      exact Or.inr ⟨t, hpc', liveCopy_of_held h.counts h.counts' h.step hlive hnode⟩
    · exact hold hcall

/-- **Every step keeps the invariant.** -/
theorem next : Fated cfg M W s' where
  named {call} hcall := by
    rcases calls_of_step h.counts h.step with he | ⟨_, _, _, c, a, o, -, -, -, -, ho, he⟩
    · exact h.fated.named (he ▸ hcall)
    · rw [he] at hcall
      rcases List.mem_cons.mp hcall with rfl | hcall
      · exact (h.named a o ho).1
      · exact h.fated.named hcall
  alone := h.alone
  tested := h.tested
  source := h.source
  gone := h.gone

end FateStep

/-- **The invariant holds in every reachable state**, from a disk without state files. -/
theorem Fated.reach {cfg : Config} {M : ℕ → Path → Prop} {W : Addr → Bytes} {disk : Fs} {s : State}
    (hap : StateFilesApart cfg M) (hun : Unshared M) (hsrc : SourcesApart cfg M)
    (hclean : Clean cfg M disk) (h : (daemon cfg disk).Reach (ArrivedRun cfg M W) s) :
    Fated cfg M W s := by
  refine h.invariant ?_ fun s a s' hr hf hg hs => ?_
  · rintro _ ⟨time, rfl⟩
    have hno : ∀ {f : StateFile} {p}, f.Of M → f.path cfg = some p → disk.Alone (resolve p) :=
      fun {f p} hf hp i l hi => by
        have hno := hclean f p hf hp
        rw [Fs.has, hi] at hno
        cases hno
    exact {
      named := fun hcall => by cases hcall
      alone := hno
      tested := fun ht => by cases ht
      source := fun hn => by cases hn
      gone := fun hcall => by cases hcall }
  · have hfresh : (daemon cfg disk).Reach (FreshRun cfg M) s :=
      hr.mono fun _ _ hg => hg.toFreshRun
    exact FateStep.next ⟨hap, hsrc, .reach hr, .reach (hr.next hg hs),
      .reach (fun s a hg => hg.keepsOff) hr, .reach hr,
      .reach hap hun careful_freshRun records_acceptedNodes hclean hfresh,
      one_node (fun hg => (hg.fresh _ _ rfl).1) hr, hf, hg, step_cases hs⟩

/-- **A source stays exactly as long as no library takes it.**  Where files that have
arrived are left to the daemon, no finish is ever run, whatever finish action is
configured; the source of a node that waits has its content as long as no server group
has taken the node, and no longer, but for a thread that is about to remove it; and a
source that has been taken is gone for good. -/
theorem source_fate {cfg : Config} {M : ℕ → Path → Prop} {W : Addr → Bytes} {disk : Fs} {s : State}
    (hap : StateFilesApart cfg M) (hun : Unshared M) (hsrc : SourcesApart cfg M)
    (hclean : Clean cfg M disk) (h : (daemon cfg disk).Reach (ArrivedRun cfg M W) s) :
    (∀ g a f, s.sche g ≠ .finish a f) ∧
    (∀ a n, s.heap a = some n → n.copy = false →
      ((∀ i, ¬Accepted s a i) → s.fs.read n.src = some (W a)) ∧
      (s.fs.has n.src = true →
        (∀ i, ¬Accepted s a i) ∨ ∃ t c, s.upload t = .deleteSrc c ∧ s.LiveCopy c a)) ∧
    ∀ call src, call ∈ s.calls → call.ret = NEWIUP_OK → call.source cfg = some src →
      s.fs.has src = false ∨ ∃ t, s.upload t = .deleteSrc call.copy := by
  have hf : Fated cfg M W s := .reach hap hun hsrc hclean h
  have hnm : Named cfg M s := .reach (fun s a hg => hg.keepsOff) h
  have hm : Marked cfg M AcceptedNodes s :=
    .reach hap hun careful_freshRun records_acceptedNodes hclean
      (h.mono fun _ _ hg => hg.toFreshRun)
  refine ⟨hf.idle (.reach h) hnm hm, fun a n hn hcopy => ⟨hf.source hn hcopy, fun hhas => ?_⟩,
    fun call src hcall hret hcs => ?_⟩
  · refine or_iff_not_imp_right.mpr fun hno i hacc => ?_
    obtain ⟨call, hcall, rfl, -, hret⟩ := hacc
    obtain ⟨hid, hmf⟩ := (CallsMade.reach h call hcall).2 n hn
    obtain ⟨-, mg, hmg, hmsrc⟩ := hnm _ n hn
    have hcs : call.source cfg = some n.src := by
      rw [Call.source, hid, hmf, hmg]
      exact hmsrc
    rcases hf.gone hcall hret hcs with hgone | ⟨t, hpc, hlive⟩
    · exact Bool.false_ne_true (hgone.symm.trans hhas)
    · exact hno ⟨t, _, hpc, hlive⟩
  · exact (hf.gone hcall hret hcs).imp id fun ⟨t, hpc, _⟩ => ⟨t, hpc⟩

/-- `ArrivedRun` for finitely many monitor files whose sources hold `b`, as a test:
no other process does anything. -/
def arrivedTest (cfg : Config) (files : List (ℕ × Path)) (b : Bytes) (s : State) (act : Act) :
    Bool :=
  freshTest cfg files s act && match act with
    | .produce _ _ => false
    | .unproduce _ => false
    | .kill => false
    | .monitor g m => decide (((cfg.groups[g]?).bind fun mg => addFileSuffixProcess mg m).bind
        s.fs.read = some b)
    | _ => true

theorem ArrivedRun.of_test {cfg : Config} {M : ℕ → Path → Prop} {files : List (ℕ × Path)}
    {b : Bytes} (hM : ∀ g m, M g m ↔ (g, m) ∈ files) {s : State} (hc : Counts cfg s) {act : Act}
    (h : arrivedTest cfg files b s act = true) : ArrivedRun cfg M (fun _ => b) s act := by
  obtain ⟨hfresh, ht⟩ := Bool.and_eq_true_iff.mp h
  refine ⟨.of_test hM hc hfresh, fun g m mg src hact hmg hsrc => ?_, fun p b hact => ?_,
    fun p hact => ?_, fun t ret sys c hact _ => ?_, fun hact => ?_⟩ <;> subst hact
  · have hread := of_decide_eq_true ht
    rwa [hmg, Option.bind_some, hsrc, Option.bind_some] at hread
  · cases ht
  · cases ht
  · exact of_decide_eq_true (succeeds_of_carefulTest (Bool.and_eq_true_iff.mp hfresh).1)
  · cases ht

theorem sample_sources : SourcesApart sampleConfig (watched (· = "/d/a.c".toList)) :=
  fun _ _ _ _ _ _ _ _ h h' _ _ _ _ _ => ⟨h.1.trans h'.1.symm, h.2.trans h'.2.symm⟩

/-- The theorem at a node that waits while its copy is uploaded. -/
theorem source_fate_waiting :
    ∃ s, (daemon sampleConfig sampleDisk).exec (.boot sampleDisk 1000) firstPass = some s ∧
      (∀ i, ¬Accepted s 0 i) ∧ s.fs.read "/d/a".toList = some [1] := by
  have hrun : ((daemon sampleConfig sampleDisk).exec (.boot sampleDisk 1000) firstPass).map
      (fun s => (s.calls, (s.heap 0).map fun n => (n.copy, n.src))) =
      some ([], some (false, "/d/a".toList)) := by decide +kernel
  obtain ⟨s, hs, he⟩ := Option.map_eq_some_iff.mp hrun
  obtain ⟨hcalls, hnode⟩ := Prod.ext_iff.mp he
  obtain ⟨n, hn, hnode⟩ := Option.map_eq_some_iff.mp hnode
  obtain ⟨hcopy, hsrc⟩ := Prod.ext_iff.mp hnode
  have hreach : (daemon sampleConfig sampleDisk).Reach
      (ArrivedRun _ (watched (· = "/d/a.c".toList)) fun _ => [1]) s :=
    .of_exec (g := arrivedTest sampleConfig sampleFiles [1])
      (fun _ _ hr => .of_test watched_sample (.reach hr)) (.start ⟨1000, rfl⟩)
      (by decide +kernel) hs
  have hno : ∀ i, ¬Accepted s 0 i := fun i ⟨call, hcall, _⟩ => by
    rw [show s.calls = [] from hcalls] at hcall
    cases hcall
  have hfate := ((source_fate sample_apart (unshared_watched _) sample_sources sample_clean
    hreach).2.1 0 n hn hcopy).1 hno
  rw [show n.src = "/d/a".toList from hsrc] at hfate
  exact ⟨s, hs, hno, hfate⟩

/-- **The finish action is not what happens** to the source: a file that is to be moved
is removed by the upload thread, and its node is freed without a finish. -/
theorem finish_action_ignored :
    ¬∀ (cfg : Config) (M : Path → Prop) (W : Addr → Bytes) (disk : Fs) (s : State) (a : Addr)
        (m src d : Path) (mg : MonitorGroup),
      cfg.groups = [mg] → StateFilesApart cfg (watched M) → SourcesApart cfg (watched M) →
      Clean cfg (watched M) disk →
      (daemon cfg disk).Reach (fun s act => ArrivedRun cfg (watched M) W s act ∧
        act.succeeds = true) s →
      (∀ i, Serves cfg 0 i → ∃ call ∈ s.calls, call.original = a ∧ call.group = i ∧
        call.monitorfile = m ∧ call.ret = NEWIUP_OK) →
      s.heap a = none → addFileSuffixProcess mg m = some src →
      finishPath mg (cfg.date s.time) src = some d → s.fs.read d = some (W a) := by
  intro h
  -- one upload to the end, with a finish action that is to move the file
  have hrun : ((daemon sampleConfig sampleDisk).exec (.boot sampleDisk 1000)
      (firstPass ++ uploadPass 0 ++ List.replicate 4 (.sche 0 []))).map
        (fun s => (s.calls, (s.heap 0).isSome, s.fs.read "/o/a".toList)) =
      some ([⟨1, 0, 0, 0, "/d/a.c".toList, NEWIUP_OK⟩], false, none) := by decide +kernel
  obtain ⟨s, hs, he⟩ := Option.map_eq_some_iff.mp hrun
  simp only [Prod.mk.injEq, Option.isSome_eq_false_iff, Option.isNone_iff_eq_none] at he
  obtain ⟨hcalls, hheap, hread⟩ := he
  have hreach : (daemon sampleConfig sampleDisk).Reach (fun s act =>
      ArrivedRun _ (watched (· = "/d/a.c".toList)) (fun _ => [1]) s act ∧
        act.succeeds = true) s :=
    .of_exec (g := arrivedTest sampleConfig sampleFiles [1])
      (fun _ _ hr ht => ⟨.of_test watched_sample (.reach hr) ht,
        succeeds_of_carefulTest (Bool.and_eq_true_iff.mp (Bool.and_eq_true_iff.mp ht).1).1⟩)
      (.start ⟨1000, rfl⟩) (by decide +kernel) hs
  have hlone : ∀ i, Serves sampleConfig 0 i → i = 0 := fun i hi =>
    hi.eq_zero (by
      rintro ⟨mg, sg, hmg, hsg⟩
      cases hmg
      cases hsg)
  have hfate := h sampleConfig _ (fun _ => [1]) sampleDisk s 0 "/d/a.c".toList "/d/a".toList
    "/o/a".toList (moveGroup .cut) rfl sample_apart sample_sources sample_clean hreach
    (fun i hi => ⟨_, by rw [hcalls]; exact List.mem_singleton_self _, rfl, (hlone i hi).symm, rfl,
      rfl⟩) hheap (by decide)
    (show finishPath (moveGroup .cut) "d".toList _ = _ by decide)
  rw [hread] at hfate
  cases hfate

end Newiup
