import Newiup.Daemon.Marked

/-!
# Finished files have been taken

A file is finished only when every server group has taken it.  For the file, as a
name on the disk, this is so in every run, however often the process is killed; for
a node it is so in runs that queue a node only when no other node waits for the same
monitor file and the state files of an earlier one promise nothing.

## Main definitions

* `AcceptedFile`, `Accepted` — a library call took a file, or a copy of a node.
* `CarefulRun`, `FreshRun` — the conditions on the steps.

## Main results

* `crash_consistent` — **a marker without a flag stands for a success**, over restarts.
* `finish_after_uploads` — **a node that is finished has been taken by every server
  group**, in fresh runs.
* `groups_do_not_interfere` — the same for several monitor groups.
-/

namespace Newiup

/-- A library call took monitor file `m` for server group `i` of monitor group `g`. -/
def AcceptedFile (s : State) (g : ℕ) (m : Path) (i : ℕ) : Prop :=
  ∃ call ∈ s.calls, call.monitorId = g ∧ call.monitorfile = m ∧ call.group = i ∧
    call.ret = NEWIUP_OK

/-- A library call took a copy of the node `a` for server group `i`. -/
def Accepted (s : State) (a : Addr) (i : ℕ) : Prop :=
  ∃ call ∈ s.calls, call.original = a ∧ call.group = i ∧ call.ret = NEWIUP_OK

/-- Every node that waits for a monitor file has been taken by server group `i`. -/
def AcceptedNodes (s : State) (g : ℕ) (m : Path) (i : ℕ) : Prop :=
  ∀ a n, s.heap a = some n → n.copy = false → n.monitorId = g → n.monitorfile = m →
    Accepted s a i

/-- **Steps that take care of the state files**: only the daemon touches them, and it
makes each one that it sets out to make. -/
structure CarefulRun (cfg : Config) (M : ℕ → Path → Prop) (s : State) (act : Act) : Prop where
  /-- Only the daemon touches them. -/
  keepsOff : KeepsOff cfg M act
  /-- They are made. -/
  makes : Makes cfg s act

/-- **Steps that queue fresh nodes only**: no other node waits for the monitor file, and
its state files promise nothing. -/
structure FreshRun (cfg : Config) (M : ℕ → Path → Prop) (s : State) (act : Act) : Prop
    extends CarefulRun cfg M s act where
  /-- No other node waits, and there is no marker or every flag is there. -/
  fresh : ∀ g m, act = .monitor g m → NoNode s g m ∧ Unpromised cfg s g m

/-- The monitor files in `M`, watched by the one monitor group there is. -/
def watched (M : Path → Prop) (g : ℕ) (m : Path) : Prop := g = 0 ∧ M m

theorem unshared_watched (M : Path → Prop) : Unshared (watched M) :=
  fun _ _ _ h h' => h.1.trans h'.1.symm

section Records

variable {cfg : Config} {M : ℕ → Path → Prop} {disk : Fs} {s s' : State} {act : Act}

theorem careful_carefulRun : Careful cfg M (CarefulRun cfg M) :=
  ⟨fun h => h.keepsOff, fun h => h.makes⟩

theorem careful_freshRun : Careful cfg M (FreshRun cfg M) :=
  ⟨fun h => h.keepsOff, fun h => h.makes⟩

/-- The history only grows. -/
theorem calls_step (hs : Step cfg s act s') {call : Call} (h : call ∈ s.calls) :
    call ∈ s'.calls := by
  cases hs with
  | scheFree hpc hf hfree =>
    obtain ⟨heap, rfl⟩ := queueNodeFree_heap hfree
    exact h
  | copy hpc hcopy =>
    obtain ⟨-, heap, rfl⟩ := queueNodeCopy_heap hcopy
    exact h
  | release hpc hn hs' =>
    obtain ⟨heap, rfl⟩ := dropRetain_heap hs'
    exact h
  | library => exact List.mem_cons_of_mem _ h
  | _ => exact h

/-- A library call that takes a copy is recorded. -/
theorem library_of_step {t : ThreadId} {sys : Sys} {c a : Addr} {g : ℕ} {m : Path} {i : ℕ}
    (hs : Step cfg s (.upload t NEWIUP_OK sys) s') (hpc : s.upload t = .library c)
    (hpc' : s'.upload t = .deleteSrc c) (hc : CopyOf s c a g m i) :
    s' = State.setUpload { s with calls := ⟨c, a, i, g, m, NEWIUP_OK⟩ :: s.calls } t
      (.deleteSrc c) := by
  obtain ⟨n, o, hn, -, hret, hid, ho, -, -, hom, hgrp⟩ := hc
  cases hs with
  | library hpc₀ hn₀ ho₀ =>
    rw [hpc] at hpc₀
    cases hpc₀
    cases hn₀.symm.trans hn
    rw [State.original, hn, Option.bind_some, hret, ho] at ho₀
    cases ho₀
    rw [hret, hid, hom, hgrp, if_pos rfl]
  | uploadIdle => rw [hpc] at hpc'; cases hpc'
  | uploadPop hpc₀ => rw [hpc] at hpc₀; cases hpc₀
  | uploadLocal hpc₀ hl => rw [hpc] at hpc₀; subst hpc₀; cases hl
  | deleteSrc hpc₀ => rw [hpc] at hpc₀; cases hpc₀
  | deleteFlag hpc₀ => rw [hpc] at hpc₀; cases hpc₀
  | uploadRequeue hpc₀ => rw [hpc] at hpc₀; cases hpc₀
  | release hpc₀ => rw [hpc] at hpc₀; cases hpc₀
  | free hpc₀ => rw [hpc] at hpc₀; cases hpc₀

/-- For a file name nothing is ever forgotten. -/
theorem records_acceptedFile : Records cfg (CarefulRun cfg M)
    ((daemon cfg disk).Reach (CarefulRun cfg M)) AcceptedFile where
  keep _ _ _ hs h := by
    obtain ⟨call, hcall, h⟩ := h
    exact Or.inl ⟨call, calls_step hs hcall, h⟩
  succeed _ _ _ hs hpc hpc' hcopy := by
    rw [library_of_step hs hpc hpc' hcopy]
    exact ⟨_, List.mem_cons_self, rfl, rfl, rfl, rfl⟩

/-- Where a node is queued only when no other waits for its monitor file, no two nodes
wait for the same monitor file. -/
theorem one_node {G : State → Act → Prop} (hG : ∀ {s g m}, G s (.monitor g m) → NoNode s g m)
    (h : (daemon cfg disk).Reach G s) {a a' : Addr} {n n' : FileQueue}
    (hn : s.heap a = some n) (hn' : s.heap a' = some n') (hc : n.copy = false)
    (hc' : n'.copy = false) (hid : n.monitorId = n'.monitorId)
    (hm : n.monitorfile = n'.monitorfile) : a = a' := by
  induction h generalizing a a' n n' with
  | start h =>
    obtain ⟨time, rfl⟩ := h
    cases hn
  | @next s s' act hr hg hs ih =>
    have hcnt : Counts cfg s := .reach hr
    have hstep := step_cases hs
    -- an original was there, or it has just been added
    have hold : ∀ {b : Addr} {k : FileQueue}, s'.heap b = some k → k.copy = false →
        (∃ k₀, s.heap b = some k₀ ∧ k.fixed = k₀.fixed) ∨
          (b = s.next ∧ act = .monitor k.monitorId k.monitorfile) := fun {b k} hk hkc => by
      rcases heap_step hcnt hstep hk with h | ⟨g, m, mg, src, hact, -, -, hb, rfl⟩ |
        ⟨_, _, _, _, _, k₀, -, -, -, -, -, -, rfl⟩
      · exact Or.inl h
      · exact Or.inr ⟨hb, hact⟩
      · cases hkc
    have hne : ∀ {b : Addr} {k k' : FileQueue} {g : ℕ} {m : Path}, act = .monitor g m →
        s.heap b = some k → k'.fixed = k.fixed → k'.copy = false → k'.monitorId = g →
        k'.monitorfile ≠ m := fun {b k k' g m} hact hk hfix hkc hid => by
      obtain ⟨h₁, h₂, -, h₄, -⟩ := fixed_eq_iff.mp hfix
      rw [h₄]
      exact hG (hact ▸ hg) b k hk (h₁ ▸ hkc) (h₂ ▸ hid)
    rcases hold hn hc with ⟨k, hk, hfix⟩ | ⟨rfl, hact⟩
    · rcases hold hn' hc' with ⟨k', hk', hfix'⟩ | ⟨rfl, hact⟩
      · obtain ⟨h₁, h₂, -, h₄, -⟩ := fixed_eq_iff.mp hfix
        obtain ⟨h₁', h₂', -, h₄', -⟩ := fixed_eq_iff.mp hfix'
        exact ih hk hk' (h₁ ▸ hc) (h₁' ▸ hc') (by rw [← h₂, ← h₂', hid]) (by rw [← h₄, ← h₄', hm])
      · exact absurd hm (hne hact hk hfix hc hid)
    · rcases hold hn' hc' with ⟨k', hk', hfix'⟩ | ⟨rfl, -⟩
      · exact absurd hm.symm (hne hact hk' hfix' hc' hid.symm)
      · rfl

/-- For a node the successes of earlier nodes are forgotten, where their state files
promise nothing. -/
theorem records_acceptedNodes : Records cfg (FreshRun cfg M)
    ((daemon cfg disk).Reach (FreshRun cfg M)) AcceptedNodes where
  keep {s act s' g m i} hc _ hg hs h := by
    by_cases hact : act = .monitor g m
    · exact Or.inr ⟨hact, hg.fresh g m hact⟩
    · refine Or.inl fun a n hn hcopy hid hm => ?_
      rcases heap_step hc hs hn with ⟨k, hk, hfix⟩ | ⟨g', m', _, _, hact', -, -, -, rfl⟩ |
        ⟨_, _, _, _, _, _, -, -, -, -, -, -, rfl⟩
      · obtain ⟨h₁, h₂, -, h₄, -⟩ := fixed_eq_iff.mp hfix
        obtain ⟨call, hcall, hok⟩ := h a k hk (h₁ ▸ hcopy) (h₂ ▸ hid) (h₄ ▸ hm)
        exact ⟨call, calls_step hs hcall, hok⟩
      · exact absurd (by rw [hact', ← hid, ← hm]) hact
      · cases hcopy
  succeed {s t sys s' c a g m i} hc hr _ hs hpc hpc' hcopy := by
    rw [library_of_step hs hpc hpc' hcopy]
    obtain ⟨-, o, -, -, -, -, ho, hoc, hoid, hom, -⟩ := hcopy
    intro b k hk hkc hkid hkm
    obtain rfl := one_node (fun hg => (hg.fresh _ _ rfl).1) hr hk ho hkc hoc
      (hkid.trans hoid.symm) (hkm.trans hom.symm)
    exact ⟨_, List.mem_cons_self, rfl, rfl, rfl⟩

end Records

/-! ### Crash consistency -/

/-- No call of the daemon is made to fail. -/
def Act.succeeds : Act → Bool
  | .sche _ sys => decide (none ∉ sys)
  | .upload _ _ sys => decide (none ∉ sys)
  | _ => true

/-- `CarefulRun` for finitely many monitor files, as a test for steps none of whose calls
fails. -/
def carefulTest (cfg : Config) (files : List (ℕ × Path)) (s : State) (act : Act) : Bool :=
  act.succeeds && (keepsOff cfg files act && makes cfg s act)

theorem succeeds_of_carefulTest {cfg : Config} {files : List (ℕ × Path)} {s : State} {act : Act}
    (h : carefulTest cfg files s act = true) : act.succeeds = true := (Bool.and_eq_true_iff.mp h).1

theorem CarefulRun.of_test {cfg : Config} {M : ℕ → Path → Prop} {files : List (ℕ × Path)}
    (hM : ∀ g m, M g m ↔ (g, m) ∈ files) {s : State} {act : Act}
    (h : carefulTest cfg files s act = true) : CarefulRun cfg M s act := by
  obtain ⟨hk, hs⟩ := Bool.and_eq_true_iff.mp (Bool.and_eq_true_iff.mp h).2
  exact ⟨.of_keepsOff hM hk, .of_makes hs⟩

/-- The monitor file `/d/a.c` in the one monitor group. -/
def sampleFiles : List (ℕ × Path) := [(0, "/d/a.c".toList)]

theorem watched_sample (g : ℕ) (m : Path) :
    watched (· = "/d/a.c".toList) g m ↔ (g, m) ∈ sampleFiles := by
  simp [watched, sampleFiles]

theorem sample_apart :
    StateFilesApart sampleConfig (watched (· = "/d/a.c".toList)) :=
  .of_apart (fun _ => rfl) (fun g m => (watched_sample g m).mp)
    (by decide +kernel : apart _ "d".toList sampleFiles = true)

theorem sample_clean :
    Clean sampleConfig (watched (· = "/d/a.c".toList)) sampleDisk :=
  .of_all (fun g m => (watched_sample g m).mp) (by decide +kernel)

/-- The node of `/d/a.c` is queued, dispatched, and returned to its queue. -/
def firstPass : List Act := .monitor 0 "/d/a.c".toList :: List.replicate 15 (.sche 0 [])

/-- The thread of server `v` takes a copy from its queue and uploads it. -/
def uploadPass (v : ℕ) : List Act := List.replicate 10 (.upload (v, 0) NEWIUP_OK [])

/-- **Crash consistency of the state files.**  In every life of the process a marker
without the flag of a server group stands for a success there, before or after a
restart; so a file that is finished has been taken by every server group. -/
theorem crash_consistent {cfg : Config} {M : Path → Prop} {disk : Fs} {s : State}
    (hap : StateFilesApart cfg (watched M)) (hclean : Clean cfg (watched M) disk)
    (h : (daemon cfg disk).Reach (CarefulRun cfg (watched M)) s) :
    (∀ m i, M m → Serves cfg 0 i → Present cfg s (.marker m) → ¬Present cfg s (.flag 0 m i) →
      AcceptedFile s 0 m i) ∧
    ∀ a f n, s.sche 0 = .finish a f → s.heap a = some n →
      ∀ i, Serves cfg 0 i → AcceptedFile s 0 n.monitorfile i := by
  have hm : Marked cfg (watched M) AcceptedFile s :=
    .reach hap (unshared_watched M) careful_carefulRun records_acceptedFile hclean h
  refine ⟨fun m i hM hi hmark hflag => ?_, fun a f n hpc hn i hi => ?_⟩
  · exact (hm.marker ⟨rfl, hM⟩ hi hmark).resolve_left hflag
  · have hat := hm.sche (g := 0) (by rw [hpc]; rfl) hn
    rw [hpc] at hat
    exact hat i hi

/-- The theorem at a file that was taken before the process was killed. -/
theorem crash_consistent_killed :
    ∃ s, (daemon sampleConfig sampleDisk).exec (.boot sampleDisk 1000)
        (firstPass ++ uploadPass 0 ++ [.kill]) = some s ∧
      AcceptedFile s 0 "/d/a.c".toList 0 := by
  have hrun : ((daemon sampleConfig sampleDisk).exec (.boot sampleDisk 1000)
      (firstPass ++ uploadPass 0 ++ [.kill])).map
        (fun s => (s.fs.has "/d/a.c-upload-k".toList, s.fs.has "/d/a.c-g-s".toList)) =
      some (true, false) := by decide +kernel
  obtain ⟨s, hs, he⟩ := Option.map_eq_some_iff.mp hrun
  obtain ⟨hmark, hflag⟩ := Prod.ext_iff.mp he
  have hreach : (daemon sampleConfig sampleDisk).Reach
      (CarefulRun _ (watched (· = "/d/a.c".toList))) s :=
    .of_exec (g := carefulTest sampleConfig sampleFiles)
      (fun _ _ _ => .of_test watched_sample) (.start ⟨1000, rfl⟩) (by decide +kernel) hs
  refine ⟨s, hs, (crash_consistent sample_apart sample_clean hreach).1 _ 0 rfl ⟨_, _, rfl, rfl⟩
    ((present_iff rfl).mpr hmark) fun h => ?_⟩
  rw [present_iff rfl] at h
  exact Bool.false_ne_true (hflag.symm.trans h)

/-- Different flag files have different paths. -/
def FlagsDistinct (cfg : Config) (M : ℕ → Path → Prop) : Prop :=
  ∀ (g g' : ℕ) (m m' : Path) (i i' : ℕ) p p', M g m → M g' m' →
    (StateFile.flag g m i).path cfg = some p → (StateFile.flag g' m' i').path cfg = some p' →
    resolve p = resolve p' → g = g' ∧ m = m' ∧ i = i'

/-- **Runs in which little happens**: one node is queued, no call fails, nothing is
killed, and other processes touch files that satisfy `P` only. -/
def MildRun (P : Path → Bool) (s : State) : Act → Bool
  | .produce p _ => P p
  | .unproduce p => P p
  | .monitor _ _ => s.next == 0
  | .kill => false
  | act => act.succeeds

/-- The flag files of finitely many monitor files have different paths, as a test. -/
theorem FlagsDistinct.of_all {cfg : Config} {M : ℕ → Path → Prop} {files : List (ℕ × Path)}
    (hM : ∀ g m, M g m → (g, m) ∈ files)
    (h : ((stateFiles cfg files).all fun x => (stateFiles cfg files).all fun y =>
      match x.1, y.1 with
      | .flag _ _ _, .flag _ _ _ => resolve x.2 ≠ resolve y.2 || x.1 = y.1
      | _, _ => true) = true) : FlagsDistinct cfg M := by
  intro g g' m m' i i' p p' hg hg' hp hp' he
  simp only [List.all_eq_true] at h
  have h' := h _ (mem_stateFiles (f := .flag g m i) hM hg hp) _
    (mem_stateFiles (f := .flag g' m' i') hM hg' hp')
  simp only [Bool.or_eq_true, decide_eq_true_eq] at h'
  have := h'.resolve_left fun hne => hne he
  simpa using this

/-- A monitor group with one server group for each of the given servers. -/
def groupOf (name : CString) (rs : RealServer) (rest : List RealServer) : MonitorGroup where
  name := name
  enable := true
  monitorFileType := "c".toList
  monitorToUploadAct := .cut
  uploadFileType := []
  finishAct := .sameMove
  moveTo := "/o".toList
  serverGroupList := (rs :: rest).map fun rs => ⟨[rs], [], List.cons_ne_nil _ _⟩
  sgl_ne := List.cons_ne_nil _ _
  moveTo_ne := fun _ _ => List.ne_nil_of_length_pos (by decide)
  not_keep_keep := fun h => by cases h.1

/-- **A flag file may be the marker**: in a group `upload` with a server `k` the first
flag file that is made passes for the marker, before the second one is made and
before any library call. -/
theorem marker_may_be_a_flag :
    ¬∀ (cfg : Config) (M : Path → Prop) (disk : Fs) (s : State) (m : Path) (i : ℕ),
      cfg.groups.length = 1 → FlagsDistinct cfg (watched M) → Clean cfg (watched M) disk →
      (daemon cfg disk).Reach (fun s act => KeepsOff cfg (watched M) act ∧
        MildRun (fun _ => false) s act = true) s →
      M m → Serves cfg 0 i → Present cfg s (.marker m) → ¬Present cfg s (.flag 0 m i) →
      AcceptedFile s 0 m i := by
  intro h
  set cfg := configOf [sampleServer 0 "k".toList, sampleServer 1 "b".toList]
    [groupOf "upload".toList (sampleServer 0 "k".toList) [sampleServer 1 "b".toList]]
    (by decide) with hcfg
  -- the scheduler pops the node and makes the flag file of the server k: its name is the marker
  have hrun : ((daemon cfg sampleDisk).exec (.boot sampleDisk 1000)
      (.monitor 0 "/d/a.c".toList :: List.replicate 5 (.sche 0 []))).map
        (fun s => (s.fs.has "/d/a.c-upload-k".toList, s.fs.has "/d/a.c-upload-b".toList,
          s.calls)) = some (true, false, []) := by decide +kernel
  obtain ⟨s, hs, he⟩ := Option.map_eq_some_iff.mp hrun
  simp only [Prod.mk.injEq] at he
  obtain ⟨hmark, hflag, hcalls⟩ := he
  have hreach : (daemon cfg sampleDisk).Reach (fun s act =>
      KeepsOff cfg (watched (· = "/d/a.c".toList)) act ∧
        MildRun (fun _ => false) s act = true) s :=
    .of_exec (g := fun s act => keepsOff cfg sampleFiles act && MildRun (fun _ => false) s act)
      (fun s act _ ht => by
        rw [Bool.and_eq_true] at ht
        exact ⟨.of_keepsOff watched_sample ht.1, ht.2⟩)
      (.start ⟨1000, rfl⟩) (by decide +kernel) hs
  obtain ⟨call, hcall, -⟩ := h cfg _ sampleDisk s "/d/a.c".toList 1 rfl
    (.of_all (fun g m => (watched_sample g m).mp) (by decide +kernel))
    (.of_all (fun g m => (watched_sample g m).mp) (by decide +kernel))
    hreach rfl ⟨_, _, rfl, rfl⟩ ((present_iff rfl).mpr hmark) fun hp => by
      rw [present_iff rfl] at hp
      exact Bool.false_ne_true (hflag.symm.trans hp)
  rw [hcalls] at hcall
  cases hcall

/-! ### Finish after upload -/

/-- `NoNode`, as a test on the addresses handed out. -/
def noNode (s : State) (g : ℕ) (m : Path) : Bool :=
  (List.range s.next).all fun a => (s.heap a).elim true fun n =>
    n.copy || n.monitorId ≠ g || n.monitorfile ≠ m

theorem NoNode.of_noNode {cfg : Config} {s : State} (hc : Counts cfg s) {g : ℕ} {m : Path}
    (h : noNode s g m = true) : NoNode s g m := by
  intro a n hn hcopy hid hm
  have ha := List.all_eq_true.mp h a (List.mem_range.mpr (hc.owned.fresh hn))
  simp [hn, hcopy, hid, hm] at ha

/-- `FreshRun` for finitely many monitor files, as a test: no other node waits, and
there is no marker. -/
def freshTest (cfg : Config) (files : List (ℕ × Path)) (s : State) (act : Act) : Bool :=
  carefulTest cfg files s act && match act with
    | .monitor g m => noNode s g m && !s.fs.has (getUploadFileKByMonitorfile m)
    | _ => true

theorem FreshRun.of_test {cfg : Config} {M : ℕ → Path → Prop} {files : List (ℕ × Path)}
    (hM : ∀ g m, M g m ↔ (g, m) ∈ files) {s : State} (hc : Counts cfg s) {act : Act}
    (h : freshTest cfg files s act = true) : FreshRun cfg M s act := by
  obtain ⟨hcare, hf⟩ := Bool.and_eq_true_iff.mp h
  refine ⟨.of_test hM hcare, fun g m hact => ?_⟩
  subst hact
  simp only [Bool.and_eq_true, Bool.not_eq_true'] at hf
  refine ⟨.of_noNode hc hf.1, fun hp => ?_⟩
  rw [present_iff rfl, hf.2] at hp
  cases hp

/-- **No finish without upload**, in fresh runs: the node that is finished has been
taken by every server group since it was added. -/
theorem finish_after_uploads {cfg : Config} {M : Path → Prop} {disk : Fs} {s : State}
    (hap : StateFilesApart cfg (watched M)) (hclean : Clean cfg (watched M) disk)
    (h : (daemon cfg disk).Reach (FreshRun cfg (watched M)) s) {g : ℕ} {a : Addr}
    {f : FinishStage} (hpc : s.sche g = .finish a f) :
    ∀ i, Serves cfg g i → Accepted s a i := by
  have hm : Marked cfg (watched M) AcceptedNodes s :=
    .reach hap (unshared_watched M) careful_freshRun records_acceptedNodes hclean h
  have hc : Counts cfg s := .reach h
  obtain ⟨n, hn, horig, -⟩ := hc.sche_node (g := g) (a := a) (by rw [hpc]; rfl)
  have hat := hm.sche (by rw [hpc]; rfl) hn
  rw [hpc] at hat
  exact fun i hi => hat i hi a n hn horig.copy horig.monitorId rfl

/-- After its upload another process makes the source again, and the node is finished. -/
def finishedRun : List Act :=
  firstPass ++ uploadPass 0 ++ [.produce "/d/a".toList []] ++ List.replicate 6 (.sche 0 [])

/-- The theorem at a node that is finished after its upload. -/
theorem finish_after_uploads_once :
    ∃ s, (daemon sampleConfig sampleDisk).exec (.boot sampleDisk 1000)
        finishedRun = some s ∧ s.sche 0 = .finish 0 .act ∧ Accepted s 0 0 := by
  have hrun : ((daemon sampleConfig sampleDisk).exec (.boot sampleDisk 1000)
      finishedRun).map (fun s => s.sche 0) = some (.finish 0 .act) := by decide +kernel
  obtain ⟨s, hs, hpc⟩ := Option.map_eq_some_iff.mp hrun
  have hreach : (daemon sampleConfig sampleDisk).Reach
      (FreshRun _ (watched (· = "/d/a.c".toList))) s :=
    .of_exec (g := freshTest sampleConfig sampleFiles)
      (fun _ _ hr => .of_test watched_sample (.reach hr)) (.start ⟨1000, rfl⟩)
      (by decide +kernel) hs
  exact ⟨s, hs, hpc, finish_after_uploads sample_apart sample_clean hreach hpc 0 ⟨_, _, rfl, rfl⟩⟩

/-- **A file is finished without an upload** when its name was used before: the daemon
removes the source itself after the first upload, the scheduler drops the node for
want of a source and leaves the marker, and the next node of that name is finished at
sight. -/
theorem finish_without_upload :
    ¬∀ (cfg : Config) (M : Path → Prop) (disk : Fs) (s : State) (a : Addr) (i : ℕ),
      cfg.groups.length = 1 → StateFilesApart cfg (watched M) → Clean cfg (watched M) disk →
      (daemon cfg disk).Reach (fun s act => CarefulRun cfg (watched M) s act ∧
        act.succeeds = true ∧ act ≠ .kill ∧ ∀ g m, act = .monitor g m → NoNode s g m) s →
      s.sche 0 = .finish a .act → Serves cfg 0 i → Accepted s a i := by
  intro h
  set cfg := sampleConfig with hcfg
  -- one upload to the end, and then a new file of the same name, whose node meets the old marker
  have hrun : ((daemon cfg sampleDisk).exec (.boot sampleDisk 1000)
      (firstPass ++ uploadPass 0 ++ List.replicate 4 (.sche 0 []) ++
        [.produce "/d/a".toList [2], .monitor 0 "/d/a.c".toList] ++
        List.replicate 6 (.sche 0 []))).map
        (fun s => (s.sche 0, s.calls.map Call.original)) = some (.finish 2 .act, [0]) := by
    decide +kernel
  obtain ⟨s, hs, he⟩ := Option.map_eq_some_iff.mp hrun
  obtain ⟨hpc, hcalls⟩ := Prod.ext_iff.mp he
  dsimp only at hpc hcalls
  have hreach : (daemon cfg sampleDisk).Reach (fun s act =>
      CarefulRun cfg (watched (· = "/d/a.c".toList)) s act ∧ act.succeeds = true ∧ act ≠ .kill ∧
        ∀ g m, act = .monitor g m → NoNode s g m) s := by
    refine .of_exec (g := fun s act => carefulTest cfg sampleFiles s act && match act with
      | .monitor g m => noNode s g m
      | .kill => false
      | _ => true) (fun s act hr ht => ?_) (.start ⟨1000, rfl⟩) (by decide +kernel) hs
    obtain ⟨hcare, ht⟩ := Bool.and_eq_true_iff.mp ht
    refine ⟨.of_test watched_sample hcare, succeeds_of_carefulTest hcare, ?_, ?_⟩
    · rintro rfl
      cases ht
    · rintro g m rfl
      exact .of_noNode (.reach hr) ht
  obtain ⟨call, hcall, horig, -⟩ := h cfg _ sampleDisk s 2 0 rfl sample_apart sample_clean hreach
    hpc ⟨_, _, rfl, rfl⟩
  have hmem := List.mem_map_of_mem (f := Call.original) hcall
  rw [hcalls, horig] at hmem
  simp at hmem

/-! ### Several monitor groups -/

/-- **The steps of a monitor group**: of its scheduler, and of an upload thread that
holds a copy for it. -/
inductive ActsFor (s : State) (g : ℕ) : Act → Prop
  | sche {sys} : ActsFor s g (.sche g sys)
  | upload {t ret sys c n} (hc : (s.upload t).node = some c) (hn : s.heap c = some n)
      (hg : n.monitorId = g) : ActsFor s g (.upload t ret sys)

/-- A state file of monitor file `m` that monitor group `g` reads. -/
def StateFile.ReadBy (g : ℕ) (m : Path) : StateFile → Prop
  | .flag g' m' _ => g' = g ∧ m' = m
  | .marker m' => m' = m

/-- Where no monitor file is shared, only the steps of a group touch the state files
it reads. -/
theorem actsFor_of_touch {cfg : Config} {M : ℕ → Path → Prop} {s : State} {act : Act}
    {f : StateFile} {g : ℕ} {m : Path} (hun : Unshared M) (hc : Counts cfg s)
    (hnm : Named cfg M s) (hM : M g m) (hf : f.ReadBy g m) (ht : Touch cfg s act f) :
    ActsFor s g act := by
  have hmarker : ∀ {g' a n sys}, (s.sche g').node = some a → s.heap a = some n →
      n.monitorfile = m → ActsFor s g (.sche g' sys) := fun {g' a n sys} ha hn hm => by
    obtain ⟨n', hn', horig, -⟩ := hc.sche_node ha
    obtain rfl : n' = n := Option.some.inj (hn'.symm.trans hn)
    have hM' : M g' n'.monitorfile := horig.monitorId ▸ (hnm a n' hn).1
    obtain rfl := hun g g' m hM (hm ▸ hM')
    exact .sche
  cases ht with
  | createFlag hpc hn hi =>
    obtain ⟨rfl, -⟩ := hf
    exact .sche
  | createMarker hpc hn hi => exact hmarker (by rw [hpc]; rfl) hn hf
  | delMarker hpc hst hn => exact hmarker (by rw [hpc]; rfl) hn hf
  | deleteFlag hpc hn ho => exact .upload (by rw [hpc]; rfl) hn hf.1

/-- **Monitor groups do not interfere**, where no two of them watch the same monitor
file: a file that is finished has been taken by every server group of its monitor
group, in fresh runs for the very node; and the steps of other groups leave the state
files a group decides by as they are. -/
theorem groups_do_not_interfere {cfg : Config} {M : ℕ → Path → Prop} {disk : Fs}
    (hap : StateFilesApart cfg M) (hun : Unshared M) (hclean : Clean cfg M disk) :
    (∀ s, (daemon cfg disk).Reach (CarefulRun cfg M) s →
      ∀ g a f n, s.sche g = .finish a f → s.heap a = some n →
        ∀ i, Serves cfg g i → AcceptedFile s g n.monitorfile i) ∧
    (∀ s, (daemon cfg disk).Reach (FreshRun cfg M) s →
      ∀ g a f, s.sche g = .finish a f → ∀ i, Serves cfg g i → Accepted s a i) ∧
    ∀ s act s', (daemon cfg disk).Reach (CarefulRun cfg M) s → CarefulRun cfg M s act →
      step cfg s act = some s' → ∀ g m, M g m → ¬ActsFor s g act →
        ∀ f : StateFile, f.ReadBy g m → (Present cfg s' f ↔ Present cfg s f) := by
  -- the marker and the flags by the invariant; a state file is touched only for the group it is of
  refine ⟨fun s h g a f n hpc hn i hi => ?_, fun s h g a f hpc i hi => ?_,
    fun s act s' h hg hs g m hM hact f hf => ?_⟩
  · have hm : Marked cfg M AcceptedFile s :=
      .reach hap hun careful_carefulRun records_acceptedFile hclean h
    have hat := hm.sche (g := g) (by rw [hpc]; rfl) hn
    rw [hpc] at hat
    exact hat i hi
  · have hm : Marked cfg M AcceptedNodes s :=
      .reach hap hun careful_freshRun records_acceptedNodes hclean h
    have hc : Counts cfg s := .reach h
    obtain ⟨n, hn, horig, -⟩ := hc.sche_node (g := g) (a := a) (by rw [hpc]; rfl)
    have hat := hm.sche (by rw [hpc]; rfl) hn
    rw [hpc] at hat
    exact hat i hi a n hn horig.copy horig.monitorId rfl
  · have hc : Counts cfg s := .reach h
    have hnm : Named cfg M s := .reach (fun s a hg => hg.keepsOff) h
    have hfM : f.Of M := by
      cases f with
      | flag g' m' i =>
        obtain ⟨rfl, rfl⟩ := hf
        exact hM
      | marker m' =>
        obtain rfl := hf
        exact ⟨g, hM⟩
    exact present_step hap hc hnm hg.keepsOff (step_cases hs) hfM fun ht =>
      hact (actsFor_of_touch hun hc hnm hM hf ht)

/-- The monitor groups `g` and `h`, with a server each, for the same type. -/
def twoGroups : Config :=
  configOf [sampleServer 0 "s".toList, sampleServer 1 "t".toList]
    [groupOf "g".toList (sampleServer 0 "s".toList) [],
      groupOf "h".toList (sampleServer 1 "t".toList) []] (by decide)

/-- The theorem at a node that is finished while another group has dispatched its own. -/
theorem groups_do_not_interfere_twice :
    ∃ s, (daemon twoGroups sampleDisk).exec (.boot sampleDisk 1000)
        ([.produce "/d/b".toList [2], .monitor 1 "/d/b.c".toList] ++
          List.replicate 9 (.sche 1 []) ++ finishedRun) = some s ∧
      s.sche 0 = .finish 1 .act ∧ Accepted s 1 0 := by
  have hrun : ((daemon twoGroups sampleDisk).exec (.boot sampleDisk 1000)
      ([.produce "/d/b".toList [2], .monitor 1 "/d/b.c".toList] ++
        List.replicate 9 (.sche 1 []) ++ finishedRun)).map (fun s => s.sche 0) =
      some (.finish 1 .act) := by decide +kernel
  obtain ⟨s, hs, hpc⟩ := Option.map_eq_some_iff.mp hrun
  let files : List (ℕ × Path) := [(0, "/d/a.c".toList), (1, "/d/b.c".toList)]
  have hreach : (daemon twoGroups sampleDisk).Reach
      (FreshRun _ fun g m => (g, m) ∈ files) s :=
    .of_exec (g := freshTest twoGroups files)
      (fun _ _ hr => .of_test (fun _ _ => Iff.rfl) (.reach hr)) (.start ⟨1000, rfl⟩)
      (by decide +kernel) hs
  have hun : Unshared fun g m => (g, m) ∈ files := by
    intro g g' m h h'
    simp only [files, List.mem_cons, Prod.mk.injEq, List.not_mem_nil, or_false] at h h'
    rcases h with ⟨rfl, rfl⟩ | ⟨rfl, rfl⟩ <;> rcases h' with ⟨rfl, h'⟩ | ⟨rfl, h'⟩ <;>
      first | rfl | exact absurd h' (by decide)
  exact ⟨s, hs, hpc, (groups_do_not_interfere
    (.of_apart (fun _ => rfl) (fun _ _ h => h)
      (by decide +kernel : apart _ "d".toList files = true)) hun
    (.of_all (fun _ _ h => h) (by decide +kernel))).2.1 s hreach 0 1 _ hpc 0 ⟨_, _, rfl, rfl⟩⟩

/-- **Two groups that watch the same file share its marker**: the second one finds the
marker of the first and none of its own flag files, and finishes the file that it has
not uploaded at all. -/
theorem marker_is_shared :
    ¬∀ (cfg : Config) (M : ℕ → Path → Prop) (disk : Fs) (s : State) (g a : ℕ) (n : FileQueue)
        (i : ℕ),
      2 ≤ cfg.groups.length → (cfg.groups.map MonitorGroup.name).Nodup →
      StateFilesApart cfg M → Clean cfg M disk →
      (daemon cfg disk).Reach (fun s act => CarefulRun cfg M s act ∧
        act.succeeds = true ∧ act ≠ .kill ∧ ∀ g m, act = .monitor g m → NoNode s g m) s →
      s.sche g = .finish a .act → s.heap a = some n → Serves cfg g i →
      AcceptedFile s g n.monitorfile i := by
  intro h
  let files : List (ℕ × Path) := [(0, "/d/a.c".toList), (1, "/d/a.c".toList)]
  -- the first scheduler gets as far as the marker, and the second one then starts on its node
  have hrun : ((daemon twoGroups sampleDisk).exec (.boot sampleDisk 1000)
      ([.monitor 0 "/d/a.c".toList, .monitor 1 "/d/a.c".toList] ++
        List.replicate 6 (.sche 0 []) ++ List.replicate 6 (.sche 1 []))).map
        (fun s => (s.sche 1, (s.heap 1).isSome, s.calls)) =
      some (.finish 1 .act, true, []) := by decide +kernel
  obtain ⟨s, hs, he⟩ := Option.map_eq_some_iff.mp hrun
  simp only [Prod.mk.injEq] at he
  obtain ⟨hpc, hheap, hcalls⟩ := he
  obtain ⟨n, hn⟩ := Option.isSome_iff_exists.mp hheap
  have hreach : (daemon twoGroups sampleDisk).Reach (fun s act =>
      CarefulRun twoGroups (fun g m => (g, m) ∈ files) s act ∧ act.succeeds = true ∧
        act ≠ .kill ∧ ∀ g m, act = .monitor g m → NoNode s g m) s := by
    refine .of_exec (g := fun s act => carefulTest twoGroups files s act && match act with
      | .monitor g m => noNode s g m
      | .kill => false
      | _ => true) (fun s act hr ht => ?_) (.start ⟨1000, rfl⟩) (by decide +kernel) hs
    obtain ⟨hcare, ht⟩ := Bool.and_eq_true_iff.mp ht
    refine ⟨.of_test (fun _ _ => Iff.rfl) hcare, succeeds_of_carefulTest hcare, ?_, ?_⟩
    · rintro rfl
      cases ht
    · rintro g m rfl
      exact .of_noNode (.reach hr) ht
  obtain ⟨call, hcall, -⟩ := h twoGroups _ sampleDisk s 1 1 n 0 (by decide) (by decide)
    (.of_apart (fun _ => rfl) (fun _ _ h => h)
      (by decide +kernel : apart _ "d".toList files = true))
    (.of_all (fun _ _ h => h) (by decide +kernel)) hreach hpc hn ⟨_, _, rfl, rfl⟩
  rw [hcalls] at hcall
  cases hcall

end Newiup
