import Newiup.Touches
import Newiup.Daemon.Counts

/-!
# State files

For each monitor file the daemon keeps a flag file for each server group that still
has to take it, and a `-upload-k` marker that says that the flag files have been
made.  Provided that these paths are apart from each other and from everything else
the daemon or another process writes, four steps touch a state file: its creation by
the scheduler, the removal of a flag after a success, and the removal of the marker
in a finish.

## Main definitions

* `StateFile`, `StateFile.path` — state files and their paths.
* `StateFilesApart` — the paths are apart.
* `KeepsOff` — other processes keep off the state files.
* `Touch` — the state file a step touches.

## Main results

* `present_step` — **a step leaves a state file alone unless it touches it.**
-/

namespace Newiup

/-- A state file: the flag file of monitor file `m` for server group `i` of monitor
group `g`, or the `-upload-k` marker of `m`. -/
inductive StateFile
  | flag (g : ℕ) (m : Path) (i : ℕ)
  | marker (m : Path)
  deriving DecidableEq

/-- The path of a state file. -/
def StateFile.path (cfg : Config) : StateFile → Option Path
  | .flag g m i => do
      let mg ← cfg.groups[g]?
      let sg ← mg.serverGroupList[i]?
      return flagPath m mg.name sg.primeName
  | .marker m => some (getUploadFileKByMonitorfile m)

/-- The state files of the monitor files that `M` names for each monitor group. -/
def StateFile.Of (M : ℕ → Path → Prop) : StateFile → Prop
  | .flag g m _ => M g m
  | .marker m => ∃ g, M g m

/-- The state file is on the disk. -/
def Present (cfg : Config) (s : State) (f : StateFile) : Prop :=
  ∃ p, f.path cfg = some p ∧ s.fs.has p = true

/-- **The paths of the state files are apart**: from each other, from the monitor
files, and from what the finish action on a source may touch. -/
structure StateFilesApart (cfg : Config) (M : ℕ → Path → Prop) : Prop where
  /-- Different state files have different paths. -/
  inj : ∀ {f f' : StateFile} {p p'}, f.Of M → f'.Of M → f.path cfg = some p →
    f'.path cfg = some p' → resolve p = resolve p' → f = f'
  /-- No state file is a monitor file. -/
  monitorfile : ∀ {f : StateFile} {p g m}, f.Of M → f.path cfg = some p → M g m →
    resolve p ≠ resolve m
  /-- No state file is a source, a destination, or a directory on the way there. -/
  source : ∀ {f : StateFile} {p g m mg src}, f.Of M → f.path cfg = some p → M g m →
    cfg.groups[g]? = some mg → addFileSuffixProcess mg m = some src →
    ∀ time, resolve p ∉ finishTouches mg (cfg.date time) src

/-- Other processes keep off the state files, and the monitor threads add nodes for
the monitor files in `M` only. -/
def KeepsOff (cfg : Config) (M : ℕ → Path → Prop) : Act → Prop
  | .produce p _ => ∀ (f : StateFile) q, f.Of M → f.path cfg = some q → resolve q ≠ resolve p
  | .unproduce p => ∀ (f : StateFile) q, f.Of M → f.path cfg = some q → resolve q ≠ resolve p
  | .monitor g m => M g m
  | _ => True

/-- The monitor group has a server group `i`. -/
def Serves (cfg : Config) (g i : ℕ) : Prop :=
  ∃ mg sg, cfg.groups[g]? = some mg ∧ mg.serverGroupList[i]? = some sg

theorem Serves.lt {cfg : Config} {g i j : ℕ} (hj : Serves cfg g j) (hi : ¬Serves cfg g i) :
    j < i := by
  obtain ⟨mg, sg, hmg, hsg⟩ := hj
  by_contra hle
  have hlt : i < mg.serverGroupList.length :=
    (not_lt.mp hle).trans_lt (List.getElem?_eq_some_iff.mp hsg).1
  exact hi ⟨mg, _, hmg, List.getElem?_eq_getElem hlt⟩

/-- A lone server group is the first one. -/
theorem Serves.eq_zero {cfg : Config} {g i : ℕ} (hi : Serves cfg g i) (h : ¬Serves cfg g 1) :
    i = 0 := Nat.lt_one_iff.mp (hi.lt h)

theorem not_serves {cfg : Config} {g i : ℕ} {mg : MonitorGroup} (hmg : cfg.groups[g]? = some mg)
    (hsg : mg.serverGroupList[i]? = none) : ¬Serves cfg g i := by
  rintro ⟨mg', sg, hmg', hsg'⟩
  cases hmg.symm.trans hmg'
  rw [hsg] at hsg'
  cases hsg'

theorem path_flag {cfg : Config} {g : ℕ} {m : Path} {i : ℕ} {mg : MonitorGroup}
    {sg : ServerGroupQueue} (hmg : cfg.groups[g]? = some mg)
    (hsg : mg.serverGroupList[i]? = some sg) :
    (StateFile.flag g m i).path cfg = some (flagPath m mg.name sg.primeName) := by
  simp [StateFile.path, hmg, hsg]

/-- No state file is on the disk. -/
def Clean (cfg : Config) (M : ℕ → Path → Prop) (disk : Fs) : Prop :=
  ∀ (f : StateFile) p, f.Of M → f.path cfg = some p → disk.has p = false

theorem present_iff {cfg : Config} {s : State} {f : StateFile} {p : Path}
    (hp : f.path cfg = some p) : Present cfg s f ↔ s.fs.has p = true := by
  simp [Present, hp]

/-! ### Deciding that the paths are apart -/

/-- The state files of the given monitor files, with their paths. -/
def stateFiles (cfg : Config) (files : List (ℕ × Path)) : List (StateFile × Path) :=
  files.flatMap fun x =>
    (.marker x.2, getUploadFileKByMonitorfile x.2) ::
      (cfg.groups[x.1]?).elim [] fun mg => mg.serverGroupList.zipIdx.map fun y =>
        (.flag x.1 x.2 y.2, flagPath x.2 mg.name y.1.primeName)

/-- `StateFilesApart` for finitely many monitor files and one date, as a test. -/
def apart (cfg : Config) (date : CString) (files : List (ℕ × Path)) : Bool :=
  (stateFiles cfg files).all fun x =>
    ((stateFiles cfg files).all fun y => resolve x.2 ≠ resolve y.2 || x.1 = y.1) &&
      files.all fun y => resolve x.2 ≠ resolve y.2 &&
        (cfg.groups[y.1]?).elim true fun mg => (addFileSuffixProcess mg y.2).elim true fun src =>
          decide (resolve x.2 ∉ finishTouches mg date src)

theorem mem_stateFiles {cfg : Config} {M : ℕ → Path → Prop} {files : List (ℕ × Path)}
    (hM : ∀ g m, M g m → (g, m) ∈ files) {f : StateFile} {p : Path} (hf : f.Of M)
    (hp : f.path cfg = some p) : (f, p) ∈ stateFiles cfg files := by
  cases f with
  | marker m =>
    obtain ⟨g, hg⟩ := hf
    cases hp
    exact List.mem_flatMap.mpr ⟨(g, m), hM g m hg, List.mem_cons_self⟩
  | flag g m i =>
    simp only [StateFile.path, Option.bind_eq_bind, Option.bind_eq_some_iff] at hp
    obtain ⟨mg, hmg, sg, hsg, hp⟩ := hp
    cases hp
    refine List.mem_flatMap.mpr ⟨(g, m), hM g m hf, List.mem_cons_of_mem _ ?_⟩
    rw [hmg]
    exact List.mem_map.mpr ⟨(sg, i), List.mk_mem_zipIdx_iff_getElem?.mpr hsg, rfl⟩

/-- The test is sound. -/
theorem StateFilesApart.of_apart {cfg : Config} {M : ℕ → Path → Prop} {date : CString}
    {files : List (ℕ × Path)} (hdate : ∀ time, cfg.date time = date)
    (hM : ∀ g m, M g m → (g, m) ∈ files) (h : apart cfg date files = true) :
    StateFilesApart cfg M := by
  simp only [apart, List.all_eq_true, Bool.and_eq_true, Bool.or_eq_true, decide_eq_true_eq] at h
  refine ⟨fun {f f' p p'} hf hf' hp hp' he => ?_, fun {f p g m} hf hp hm => ?_,
    fun {f p g m mg src} hf hp hm hmg hsrc time => ?_⟩
  · exact ((h _ (mem_stateFiles hM hf hp)).1 _ (mem_stateFiles hM hf' hp')).resolve_left fun hne =>
      hne he
  · exact ((h _ (mem_stateFiles hM hf hp)).2 (g, m) (hM g m hm)).1
  · have := ((h _ (mem_stateFiles hM hf hp)).2 (g, m) (hM g m hm)).2
    rw [hmg] at this
    simp only [Option.elim_some, hsrc, decide_eq_true_eq] at this
    rw [hdate]
    exact this

/-- `KeepsOff` for finitely many monitor files, as a test. -/
def keepsOff (cfg : Config) (files : List (ℕ × Path)) : Act → Bool
  | .produce p _ => (stateFiles cfg files).all fun x => resolve x.2 ≠ resolve p
  | .unproduce p => (stateFiles cfg files).all fun x => resolve x.2 ≠ resolve p
  | .monitor g m => decide ((g, m) ∈ files)
  | _ => true

/-- The test is sound. -/
theorem KeepsOff.of_keepsOff {cfg : Config} {M : ℕ → Path → Prop} {files : List (ℕ × Path)}
    (hM : ∀ g m, M g m ↔ (g, m) ∈ files) {act : Act} (h : keepsOff cfg files act = true) :
    KeepsOff cfg M act := by
  cases act with
  | produce p b =>
    simp only [keepsOff, List.all_eq_true, decide_eq_true_eq] at h
    exact fun f q hf hq => h _ (mem_stateFiles (fun g m => (hM g m).mp) hf hq)
  | unproduce p =>
    simp only [keepsOff, List.all_eq_true, decide_eq_true_eq] at h
    exact fun f q hf hq => h _ (mem_stateFiles (fun g m => (hM g m).mp) hf hq)
  | monitor g m => exact (hM g m).mpr (of_decide_eq_true h)
  | _ => trivial

/-- A disk without the state files of finitely many monitor files. -/
theorem Clean.of_all {cfg : Config} {M : ℕ → Path → Prop} {files : List (ℕ × Path)} {disk : Fs}
    (hM : ∀ g m, M g m → (g, m) ∈ files)
    (h : ((stateFiles cfg files).all fun x => !disk.has x.2) = true) : Clean cfg M disk := by
  simp only [List.all_eq_true, Bool.not_eq_true'] at h
  exact fun f p hf hp => h _ (mem_stateFiles hM hf hp)

/-! ### What becomes of a node -/

/-- The fields of a node that are never written. -/
def FileQueue.fixed (n : FileQueue) : Bool × ℕ × Addr × Path × Path :=
  (n.copy, n.monitorId, n.retainCount, n.monitorfile, n.src)

theorem fixed_eq_iff {n n' : FileQueue} : n'.fixed = n.fixed ↔
    n'.copy = n.copy ∧ n'.monitorId = n.monitorId ∧ n'.retainCount = n.retainCount ∧
      n'.monitorfile = n.monitorfile ∧ n'.src = n.src := by
  simp [FileQueue.fixed]

section Steps

variable {cfg : Config} {M : ℕ → Path → Prop} {s s' : State} {act : Act}

theorem heap_update {heap : Addr → Option FileQueue} {x a : Addr} {n n' m : FileQueue}
    (hx : heap x = some n) (hfix : n'.fixed = n.fixed)
    (hm : Function.update heap x (some n') a = some m) :
    ∃ m₀, heap a = some m₀ ∧ m.fixed = m₀.fixed := by
  by_cases ha : a = x
  · subst ha
    rw [Function.update_self] at hm
    cases hm
    exact ⟨n, hx, hfix⟩
  · rw [Function.update_of_ne ha] at hm
    exact ⟨m, hm, rfl⟩

theorem heap_erase {heap : Addr → Option FileQueue} {x a : Addr} {m : FileQueue}
    (hm : Function.update heap x none a = some m) :
    ∃ m₀, heap a = some m₀ ∧ m.fixed = m₀.fixed := by
  by_cases ha : a = x
  · rw [ha, Function.update_self] at hm
    cases hm
  · rw [Function.update_of_ne ha] at hm
    exact ⟨m, hm, rfl⟩

/-- **Where a node comes from**: it was there, with the same texts; or it has just been
added; or it is a new copy of an original. -/
theorem heap_step (hc : Counts cfg s) (hs : Step cfg s act s') {a : Addr} {n' : FileQueue}
    (hn' : s'.heap a = some n') :
    (∃ n, s.heap a = some n ∧ n'.fixed = n.fixed) ∨
    (∃ g m mg src, act = .monitor g m ∧ cfg.groups[g]? = some mg ∧
      addFileSuffixProcess mg m = some src ∧ a = s.next ∧
      n' = ⟨g, false, 0, s.next, m, src, none, .sche g⟩) ∨
    (∃ g sys b i v n, act = .sche g sys ∧ s.sche g = .copy b i v ∧ s.heap b = some n ∧
      n.retainCount = b ∧ n.copy = false ∧ a = s.next ∧ n' = { n with copy := true }) := by
  have hsame : s'.heap = s.heap → ∃ n, s.heap a = some n ∧ n'.fixed = n.fixed := fun h =>
    ⟨n', by rw [← h, hn'], rfl⟩
  -- two steps allocate; those that free or count leave the texts of the other nodes
  cases hs with
  | @monitor g m mg src hmg hm hsrc =>
    change Function.update s.heap s.next _ a = some n' at hn'
    by_cases ha : a = s.next
    · rw [ha, Function.update_self] at hn'
      cases hn'
      exact Or.inr (Or.inl ⟨g, m, mg, src, rfl, hmg, hsrc, ha, rfl⟩)
    · rw [Function.update_of_ne ha] at hn'
      exact Or.inl ⟨n', hn', rfl⟩
  | kill => cases hn'
  | @scheFree g sys x pc s₁ hpc hf hfree =>
    simp only [State.queueNodeFree, Option.bind_eq_bind, Option.bind_eq_some_iff] at hfree
    obtain ⟨n, hn, s₂, hs₂, h⟩ := hfree
    cases h
    have hb : (s.sche g).node = some x := by rw [hpc]; cases hf <;> rfl
    obtain ⟨m, hm, horig, -⟩ := hc.sche_node hb
    cases hm.symm.trans hn
    rw [State.dropRetain, horig.copy, if_neg Bool.false_ne_true] at hs₂
    cases hs₂
    exact Or.inl (heap_erase hn')
  | choose hmg hpc hn ho hsg hflag => exact Or.inl (heap_update hn (by rfl) hn')
  | @copy g sys b i v c s₁ hpc hcopy =>
    obtain ⟨n, hn, horig, -⟩ := hc.sche_node (g := g) (by rw [hpc]; rfl)
    have hne : b ≠ s.next := (hc.owned.fresh hn).ne
    obtain ⟨rfl, rfl⟩ := queueNodeCopy_eq_some hn horig.retainCount hne hcopy
    change Function.update (Function.update s.heap s.next _) b _ a = some n' at hn'
    by_cases ha : a = s.next
    · rw [ha, Function.update_of_ne hne.symm, Function.update_self] at hn'
      cases hn'
      exact Or.inr (Or.inr
        ⟨g, sys, b, i, v, n, rfl, hpc, hn, horig.retainCount, horig.copy, ha, rfl⟩)
    · have hfix : ({ n with reCountS := n.reCountS + 1 } : FileQueue).fixed = n.fixed := rfl
      refine Or.inl (heap_update hn hfix ?_)
      by_cases hab : a = b
      · rw [hab, Function.update_self] at hn' ⊢
        exact hn'
      · rw [Function.update_of_ne hab, Function.update_of_ne ha] at hn'
        rw [Function.update_of_ne hab, hn']
  | @release t ret sys c n s₁ hpc hn hs' =>
    obtain ⟨n₁, o, hn₁, hcopy, -⟩ := hc.upload_node (t := t) (c := c) (by rw [hpc]; rfl)
    cases hn₁.symm.trans hn
    rw [State.dropRetain, if_pos hcopy] at hs'
    obtain ⟨o, ho, rfl⟩ := addRetain_eq_some hs'
    exact Or.inl (heap_update ho (by rfl) hn')
  | free hpc => exact Or.inl (heap_erase hn')
  | _ => exact Or.inl (hsame rfl)

/-- Every node is for a monitor file in `M` and has the source of its group. -/
def Named (cfg : Config) (M : ℕ → Path → Prop) (s : State) : Prop :=
  ∀ a n, s.heap a = some n → M n.monitorId n.monitorfile ∧
    ∃ mg, cfg.groups[n.monitorId]? = some mg ∧ addFileSuffixProcess mg n.monitorfile = some n.src

theorem Named.step (h : Named cfg M s) (hc : Counts cfg s) (hk : KeepsOff cfg M act)
    (hs : Step cfg s act s') : Named cfg M s' := by
  intro a n' hn'
  rcases heap_step hc hs hn' with ⟨n, hn, hfix⟩ | ⟨g, m, mg, src, rfl, hmg, hsrc, -, rfl⟩ |
    ⟨g, sys, b, i, v, n, rfl, -, hn, -, -, -, rfl⟩
  · obtain ⟨-, hid, -, hm, hsrc⟩ := fixed_eq_iff.mp hfix
    rw [hid, hm, hsrc]
    exact h a n hn
  · exact ⟨hk, mg, hmg, hsrc⟩
  · exact h b n hn

/-- Every node is so in every reachable state, where nodes are added for files in `M`
only. -/
theorem Named.reach {disk : Fs} {G : State → Act → Prop} (hG : ∀ s a, G s a → KeepsOff cfg M a)
    (h : (daemon cfg disk).Reach G s) : Named cfg M s := by
  refine h.invariant ?_ fun s a s' hr h hg hs => h.step (.reach hr) (hG s a hg) (step_cases hs)
  rintro _ ⟨time, rfl⟩ a n hn
  cases hn

/-! ### What touches a state file -/

/-- **The state file a step touches.** -/
inductive Touch (cfg : Config) (s : State) : Act → StateFile → Prop
  | createFlag {g sys a i n} (hpc : s.sche g = .create a i) (hn : s.heap a = some n)
      (hi : Serves cfg g i) : Touch cfg s (.sche g sys) (.flag g n.monitorfile i)
  | createMarker {g sys a i n} (hpc : s.sche g = .create a i) (hn : s.heap a = some n)
      (hi : ¬Serves cfg g i) : Touch cfg s (.sche g sys) (.marker n.monitorfile)
  | delMarker {g sys a f n} (hpc : s.sche g = .finish a f)
      (hf : f = .delMarker ∨ f = .delMarkerAgain) (hn : s.heap a = some n) :
      Touch cfg s (.sche g sys) (.marker n.monitorfile)
  | deleteFlag {t ret sys c n o} (hpc : s.upload t = .deleteFlag c) (hn : s.heap c = some n)
      (ho : s.original c = some o) :
      Touch cfg s (.upload t ret sys) (.flag n.monitorId o.monitorfile (s.grp c))

theorem Fs.entry_put_of_ne {fs : Fs} {p : Path} {b : Bytes} {l : Loc} (h : l ≠ resolve p) :
    (fs.put p b).entry l = fs.entry l := by
  unfold Fs.put
  split
  · rw [Fs.entry_make, if_neg h]
  · rw [Fs.entry_setData]

theorem entry_os {α : Type} {x : Os α} {T : Loc → Prop} (hx : Touches T x) (sys : Sys) {l : Loc}
    (hl : ¬T l) : (s.os sys x).2.fs.entry l = s.fs.entry l := hx ⟨s.fs, sys⟩ l hl

/-- **A step leaves a state file alone unless it touches it.** -/
theorem present_step (hap : StateFilesApart cfg M) (hc : Counts cfg s) (hnm : Named cfg M s)
    (hk : KeepsOff cfg M act) (hs : Step cfg s act s') {f : StateFile} (hf : f.Of M)
    (ht : ¬Touch cfg s act f) : Present cfg s' f ↔ Present cfg s f := by
  cases hp : f.path cfg with
  | none => simp [Present, hp]
  | some p =>
    suffices he : s'.fs.entry (resolve p) = s.fs.entry (resolve p) by
      rw [present_iff hp, present_iff hp, Fs.has, Fs.has, he]
    -- a state file of another monitor file or server group
    have hflag : ∀ {g m i mg sg}, M g m → cfg.groups[g]? = some mg →
        mg.serverGroupList[i]? = some sg → ¬f = .flag g m i →
        resolve p ≠ resolve (flagPath m mg.name sg.primeName) :=
      fun {g m i mg sg} hM hmg hsg hne he =>
        hne (hap.inj hf (show (StateFile.flag g m i).Of M from hM) hp (path_flag hmg hsg) he)
    have hmarker : ∀ {g m}, M g m → ¬f = .marker m →
        resolve p ≠ resolve (getUploadFileKByMonitorfile m) := fun {g m} hM hne he =>
      hne (hap.inj hf (show (StateFile.marker m).Of M from ⟨g, hM⟩) hp rfl he)
    cases hs with
    | @produce q b => exact Fs.entry_put_of_ne (hk f p hf hp)
    | @unproduce q =>
      show (s.fs.unlink (resolve q)).entry _ = _
      rw [Fs.entry_unlink, if_neg (hk f p hf hp)]
    | @createFlag g sys mg a i o sg hmg hpc ho hsg =>
      obtain ⟨n, hn, horig, ho'⟩ := hc.sche_node (g := g) (by rw [hpc]; rfl)
      cases ho'.symm.trans ho
      have hM : M g o.monitorfile := horig.monitorId ▸ (hnm a o hn).1
      exact entry_os (touches_createFile _) sys
        (hflag hM hmg hsg fun he => ht (he ▸ .createFlag hpc hn ⟨mg, sg, hmg, hsg⟩))
    | @createMarker g sys mg a i o hmg hpc ho hsg =>
      obtain ⟨n, hn, -, ho'⟩ := hc.sche_node (g := g) (by rw [hpc]; rfl)
      cases ho'.symm.trans ho
      exact entry_os (touches_createFile _) sys
        (hmarker (hnm a o hn).1 fun he => ht (he ▸ .createMarker hpc hn (not_serves hmg hsg)))
    | @finishOs g sys a st st' x hpc hst =>
      obtain ⟨n, hn, -, ho'⟩ := hc.sche_node (g := g) (by rw [hpc]; rfl)
      obtain ⟨hM, mg', hmg', hsrc⟩ := hnm a n hn
      cases hst with
      | act hnode ho hmg =>
        cases ho'.symm.trans ho
        cases hnode.symm.trans hn
        cases hmg'.symm.trans hmg
        exact entry_os touches_doMoveTo sys (hap.source hf hp hM hmg hsrc s.time)
      | delMonitor ho =>
        cases ho'.symm.trans ho
        exact entry_os (touches_deleteFile _) sys (hap.monitorfile hf hp hM)
      | delMarker ho =>
        cases ho'.symm.trans ho
        exact entry_os (touches_deleteFile _) sys
          (hmarker hM fun he => ht (he ▸ .delMarker hpc (Or.inl rfl) hn))
      | delMarkerAgain ho =>
        cases ho'.symm.trans ho
        exact entry_os (touches_deleteFile _) sys
          (hmarker hM fun he => ht (he ▸ .delMarker hpc (Or.inr rfl) hn))
    | @deleteSrc t ret sys c o hpc ho =>
      obtain ⟨n, o', hn, -, -, ho', hoc, -⟩ := hc.upload_node (t := t) (by rw [hpc]; rfl)
      cases hoc.symm.trans ho
      obtain ⟨hM, mg, hmg, hsrc⟩ := hnm _ _ ho'
      refine entry_os (touches_deleteFile _) sys fun he => ?_
      exact hap.source hf hp hM hmg hsrc s.time (mem_finishTouches.mpr (Or.inl he))
    | @deleteFlag t ret sys c n o mg name hpc hn ho hmg hname =>
      obtain ⟨n', o', hn', -, hlive, ho', hoc, horig⟩ :=
        hc.upload_node (t := t) (c := c) (by rw [hpc]; rfl)
      cases hn'.symm.trans hn
      cases hoc.symm.trans ho
      obtain ⟨mg', sg, hmg', hsg, hname'⟩ := hc.dispatched.named hlive hn
      cases hmg'.symm.trans hmg
      cases hname'.symm.trans hname
      have hM : M n.monitorId o.monitorfile := horig.monitorId ▸ (hnm _ _ ho').1
      exact entry_os (touches_deleteFile _) sys
        (hflag hM hmg hsg fun he => ht (he ▸ .deleteFlag hpc hn ho))
    | scheFree hpc hst hfree =>
      obtain ⟨heap, rfl⟩ := queueNodeFree_heap hfree
      rfl
    | copy hpc hcopy =>
      obtain ⟨-, heap, rfl⟩ := queueNodeCopy_heap hcopy
      rfl
    | release hpc hn hs' =>
      obtain ⟨heap, rfl⟩ := dropRetain_heap hs'
      rfl
    | _ => rfl

/-! ### What a touch does -/

/-- A deletion adds no state file. -/
theorem present_of_deleteFile {p : Path} {sys : Sys} {f : StateFile}
    (h : Present cfg (s.os sys (deleteFile p)).2 f) : Present cfg s f := by
  obtain ⟨q, hq, hhas⟩ := h
  refine ⟨q, hq, ?_⟩
  rw [Fs.has] at hhas ⊢
  rcases wp_deleteFile_le (w := ⟨s.fs, sys⟩) p (resolve q) with he | he
  · rw [show (s.os sys (deleteFile p)).2.fs.entry (resolve q) = none from he] at hhas
    cases hhas
  · rwa [show (s.os sys (deleteFile p)).2.fs.entry (resolve q) = s.fs.entry (resolve q) from he]
      at hhas

/-- **State files appear where the scheduler makes them only.** -/
theorem present_of_step (hap : StateFilesApart cfg M) (hc : Counts cfg s) (hnm : Named cfg M s)
    (hk : KeepsOff cfg M act) (hs : Step cfg s act s') {f : StateFile} (hf : f.Of M)
    (h : Present cfg s' f) : Present cfg s f ∨
      ∃ g sys a i, act = .sche g sys ∧ s.sche g = .create a i ∧ Touch cfg s act f := by
  by_cases ht : Touch cfg s act f
  · cases hs with
    | createFlag hmg hpc ho hsg => exact Or.inr ⟨_, _, _, _, rfl, hpc, ht⟩
    | createMarker hmg hpc ho hsg => exact Or.inr ⟨_, _, _, _, rfl, hpc, ht⟩
    | finishOs hpc hst =>
      cases hst with
      | act =>
        -- the finish action touches none
        cases ht with
        | createFlag hpc' => rw [hpc] at hpc'; cases hpc'
        | createMarker hpc' => rw [hpc] at hpc'; cases hpc'
        | delMarker hpc' hst => rw [hpc] at hpc'; cases hpc'; rcases hst with h | h <;> cases h
      | delMonitor => exact Or.inl (present_of_deleteFile h)
      | delMarker => exact Or.inl (present_of_deleteFile h)
      | delMarkerAgain => exact Or.inl (present_of_deleteFile h)
    | deleteSrc => exact Or.inl (present_of_deleteFile h)
    | deleteFlag => exact Or.inl (present_of_deleteFile h)
    | produce => cases ht
    | unproduce => cases ht
    | kill => cases ht
    | scheFree hpc hst hfree =>
      obtain ⟨heap, rfl⟩ := queueNodeFree_heap hfree
      exact Or.inl h
    | copy hpc hcopy =>
      cases ht with
      | createFlag hpc' => rw [hpc] at hpc'; cases hpc'
      | createMarker hpc' => rw [hpc] at hpc'; cases hpc'
      | delMarker hpc' => rw [hpc] at hpc'; cases hpc'
    | release hpc hn hs' =>
      obtain ⟨heap, rfl⟩ := dropRetain_heap hs'
      exact Or.inl h
    | _ => exact Or.inl h
  · exact Or.inl ((present_step hap hc hnm hk hs hf ht).mp h)

/-- A creation removes no state file. -/
theorem present_createFile {p : Path} {sys : Sys} {f : StateFile} (h : Present cfg s f) :
    Present cfg (s.os sys (createFile p)).2 f := by
  obtain ⟨q, hq, hhas⟩ := h
  exact ⟨q, hq, wp_createFile_ge (w := ⟨s.fs, sys⟩) p hhas⟩

/-- A file that is deleted without failure is gone. -/
theorem has_deleteFile (s : State) (p : Path) {sys : Sys} (hsys : none ∉ sys) :
    (s.os sys (deleteFile p)).2.fs.has p = false := wp_deleteFile_ok hsys

/-- **The state files are made**: after a step of a scheduler that makes one, the file is
there. -/
def Makes (cfg : Config) (s : State) (act : Act) : Prop :=
  ∀ g sys a i f p, act = .sche g sys → s.sche g = .create a i → Touch cfg s act f →
    f.path cfg = some p → (s.os sys (createFile p)).2.fs.has p = true

/-- `Makes`, as a test on all state files of the node. -/
def makes (cfg : Config) (s : State) : Act → Bool
  | .sche g sys =>
      match s.sche g with
      | .create a _ => (s.heap a).elim true fun n =>
          (stateFiles cfg [(g, n.monitorfile)]).all fun x =>
            (s.os sys (createFile x.2)).2.fs.has x.2
      | _ => true
  | _ => true

theorem Makes.of_makes (h : makes cfg s act = true) : Makes cfg s act := by
  intro g sys a i f p hact hpc ht hp
  subst hact
  rw [makes, hpc] at h
  dsimp only at h
  -- the state files of the node are among those that are tested
  have hall : ∀ n (f : StateFile), s.heap a = some n →
      f.Of (fun g' m => g' = g ∧ m = n.monitorfile) → f.path cfg = some p →
        (s.os sys (createFile p)).2.fs.has p = true := by
    intro n f hn hf hp
    rw [hn, Option.elim_some, List.all_eq_true] at h
    have hmem : (f, p) ∈ stateFiles cfg [(g, n.monitorfile)] :=
      mem_stateFiles (fun g' m' hm => by rw [hm.1, hm.2]; exact List.mem_cons_self) hf hp
    exact h (f, p) hmem
  cases ht with
  | @createFlag _ _ _ _ n hpc' hn hi =>
    cases hpc.symm.trans hpc'
    exact hall n (.flag g n.monitorfile i) hn ⟨rfl, rfl⟩ hp
  | @createMarker _ _ _ _ n hpc' hn hi =>
    cases hpc.symm.trans hpc'
    exact hall n (.marker n.monitorfile) hn ⟨g, rfl, rfl⟩ hp
  | delMarker hpc' => rw [hpc] at hpc'; cases hpc'

end Steps

end Newiup
