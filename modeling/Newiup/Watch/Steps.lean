import Newiup.Watch.Monitor

/-!
# What a step of the monitor thread can do

The steps of `monitor_handle` as a relation: the two scans, the reading of events, and
what the loop does with one of them.

A step of the thread has many branches, and every invariant of the thread has to be proved
for all of them.  So they are listed once, with their guards: a scan that opens, reads and
closes a directory, the tests of what it has read, an event that is looked at, and the few
calls that the thread exits for.  A proof of an invariant is then a case analysis of this
list.

## Main definitions

* `newNode` — the node `add_monitor_dir` appends.
* `ThreadMove` — what a step of the thread can do, as a relation; `Fails` — the calls it
  exits for.

## Main results

* `threadStep_cases` — **every step of the thread is one of `ThreadMove`.**
-/

namespace Newiup

variable {root : Path}

/-- The node `add_monitor_dir` appends for a directory found in the one of `fnode`. -/
def newNode (wd : ℕ) (path : Path) (fnode : Option WdNode) : WdNode :=
  ⟨wd, path, match fnode with
    | none => path.length + 1
    | some fnode => fnode.suboffset⟩

/-- The moves of the thread that touch its position only. -/
inductive IdleMove (s : MonitorState root) : MonitorPc → MonitorPc → Prop
  | stop : IdleMove s .loop .stopped
  | empty (hb : s.buffer = []) : IdleMove s .inner .loop
  | goOn : IdleMove s .check .inner
  | leave : IdleMove s .check .stopped

/-- The calls the thread exits for. -/
inductive Fails (s : MonitorState root) : Prop
  | watch {top frames path fnode} (hpc : s.pc = .dirs top frames (.watch path fnode))
      (h : s.tree.entry path = none)
  | dirsOpen {top frames node} (hpc : s.pc = .dirs top frames (.opendir node))
      (h : s.tree.dir node.path = none)
  | filesOpen {top frames path} (hpc : s.pc = .files top frames (.opendir path))
      (h : getWdWdByPath s.wdList path = none ∨ s.tree.dir path = none)
  | slashed {top frames path} (hpc : s.pc = .dirs top frames (.isDir path))
      (hno : s.tree.dir path = none) (h : s.slashed path = true)

/-- What a step of the thread can do. -/
inductive ThreadMove (mg : MonitorGroup) (s : MonitorState root) : MonitorState root → Prop
  | exit (h : Fails s) : ThreadMove mg s { s with pc := .exited }
  | idle {pc pc'} (hpc : s.pc = pc) (h : IdleMove s pc pc') : ThreadMove mg s { s with pc := pc' }
  | watch {top frames path fnode wd s₁} (hpc : s.pc = .dirs top frames (.watch path fnode))
      (h : s.inotifyAddWatch path = some (wd, s₁)) :
      ThreadMove mg s { s₁ with
        wdList := s₁.wdList ++ [newNode wd path fnode]
        pc := .dirs top frames (.opendir (newNode wd path fnode)) }
  | dirsOpen {top frames node i} (hpc : s.pc = .dirs top frames (.opendir node))
      (h : s.tree.dir node.path = some i) :
      ThreadMove mg s { s with
        pc := .dirs top (⟨node, ⟨i, s.tree.names i, []⟩⟩ :: frames) .readdir }
  | dirsName {top f fs n} (hpc : s.pc = .dirs top (f :: fs) .readdir)
      (h : s.Returns f.stream n) :
      ThreadMove mg s { s with
        pc := .dirs top (⟨f.node, f.stream.next n⟩ :: fs) (if hidden n then .readdir
          else .isDir (snprintf WDQUEUE_PATH_LEN (child f.node.path n))) }
  | dirsEnd {top f fs} (hpc : s.pc = .dirs top (f :: fs) .readdir) (h : s.Ends f.stream) :
      ThreadMove mg s { s with
        pc := if fs.isEmpty then .files top [] (.opendir top) else .dirs top fs .readdir }
  | dirsTest {top frames p} (hpc : s.pc = .dirs top frames (.isDir p)) :
      ThreadMove mg s { s with
        pc := .dirs top frames (if (s.tree.dir p).isSome then
          .watch p (frames.head?.map DirsFrame.node) else .readdir) }
  | filesOpen {top frames path wd i} (hpc : s.pc = .files top frames (.opendir path))
      (hwd : getWdWdByPath s.wdList path = some wd) (h : s.tree.dir path = some i) :
      ThreadMove mg s { s with
        pc := .files top (⟨path, wd, ⟨i, s.tree.names i, []⟩⟩ :: frames) .readdir }
  | filesName {top f fs n} (hpc : s.pc = .files top (f :: fs) .readdir)
      (h : s.Returns f.stream n) :
      ThreadMove mg s { s with
        pc := .files top (⟨f.path, f.wd, f.stream.next n⟩ :: fs) (if hidden n then .readdir
          else .isFile (snprintf NEWIUP_PATH_LEN (child f.path n))) }
  | filesEnd {top f fs} (hpc : s.pc = .files top (f :: fs) .readdir) (h : s.Ends f.stream) :
      ThreadMove mg s { s with pc := if fs.isEmpty then .check else .files top fs .readdir }
  | fileFound {top f fs m i} (hpc : s.pc = .files top (f :: fs) (.isFile m))
      (h : s.tree.entry m = some ⟨false, i⟩) :
      ThreadMove mg s { s.queueNodeAdd mg f.wd m with pc := .files top (f :: fs) .readdir }
  | noFile {top frames m} (hpc : s.pc = .files top frames (.isFile m))
      (h : frames = [] ∨ ∀ i, s.tree.entry m ≠ some ⟨false, i⟩) :
      ThreadMove mg s { s with pc := .files top frames (.isDir m) }
  | filesTest {top frames m} (hpc : s.pc = .files top frames (.isDir m)) :
      ThreadMove mg s { s with
        pc := .files top frames (if (s.tree.dir m).isSome then .opendir m else .readdir) }
  | read {k} (hpc : s.pc = .loop) (hk : k ≤ s.events.length) :
      ThreadMove mg s { s with
        events := s.events.drop k, buffer := s.events.take k, pc := .inner }
  | nameless {e es} (hpc : s.pc = .inner) (hb : s.buffer = e :: es) (hn : e.name = none) :
      ThreadMove mg s { s with buffer := es }
  | otherType {e es n} (hpc : s.pc = .inner) (hb : s.buffer = e :: es) (hn : e.name = some n)
      (hfile : (s.tree.entry (eventPath s.wdList e.wd n)).map Entry.isDir = some false)
      (hkind : e.kind.appears = true)
      (htype : isMonitorType (eventPath s.wdList e.wd n) mg.monitorFileType ≠ NEWIUP_OK) :
      ThreadMove mg s { s with buffer := es }
  | newFile {e es n} (hpc : s.pc = .inner) (hb : s.buffer = e :: es) (hn : e.name = some n)
      (hfile : (s.tree.entry (eventPath s.wdList e.wd n)).map Entry.isDir = some false)
      (hkind : e.kind.appears = true)
      (htype : isMonitorType (eventPath s.wdList e.wd n) mg.monitorFileType = NEWIUP_OK) :
      ThreadMove mg s { s.queueNodeAdd mg e.wd (eventPath s.wdList e.wd n) with
        buffer := es, pc := .check }
  | newDir {e es n} (hpc : s.pc = .inner) (hb : s.buffer = e :: es) (hn : e.name = some n)
      (hadds : e.adds = true)
      (hfile : (s.tree.entry (eventPath s.wdList e.wd n)).map Entry.isDir ≠ some false) :
      ThreadMove mg s { s with
        buffer := es
        pc := .dirs (eventPath s.wdList e.wd n) []
          (.watch (eventPath s.wdList e.wd n) (getWdByWd s.wdList e.wd)) }
  | oldDir {e es n} (hpc : s.pc = .inner) (hb : s.buffer = e :: es) (hn : e.name = some n)
      (hdrops : e.drops = true) :
      ThreadMove mg s { s.delMonitorDir (eventPath s.wdList e.wd n) with
        buffer := es, pc := .check }
  | nothing {e es n} (hpc : s.pc = .inner) (hb : s.buffer = e :: es) (hn : e.name = some n)
      (hadds : e.adds = false) (hdrops : e.drops = false)
      (hfile : ¬((s.tree.entry (eventPath s.wdList e.wd n)).map Entry.isDir = some false ∧
        e.kind.appears = true)) :
      ThreadMove mg s { s with buffer := es, pc := .check }

section Events

variable {s : MonitorState root}

/-- The events on the entry `n` of the directory at `p`. -/
theorem mem_notices {p : Path} {kind : EventKind} {b : Bool} {n : Name} {e : Event} :
    e ∈ s.notices p kind b n ↔
      ∃ i w, s.tree.dir p = some i ∧ s.watch i = some w ∧ e = ⟨w, kind, b, some n⟩ := by
  unfold MonitorState.notices
  split
  · next w hw =>
    obtain ⟨i, hi, hw⟩ := Option.bind_eq_some_iff.mp hw
    rw [List.mem_singleton]
    constructor
    · rintro rfl
      exact ⟨i, w, hi, hw, rfl⟩
    · rintro ⟨j, v, hj, hv, rfl⟩
      cases hi.symm.trans hj
      cases hw.symm.trans hv
      rfl
  · next hno =>
    refine iff_of_false List.not_mem_nil ?_
    rintro ⟨i, w, hi, hw, -⟩
    rw [hi, Option.bind_some, hw] at hno
    cases hno

theorem notices_length (s : MonitorState root) (p : Path) (kind : EventKind) (b : Bool) (n : Name) :
    (s.notices p kind b n).length ≤ 1 := by
  unfold MonitorState.notices
  split
  · exact le_rfl
  · exact Nat.zero_le 1

/-- A queued file changes the queue only. -/
theorem queueNodeAdd_eq (s : MonitorState root) (mg : MonitorGroup) (w : ℕ) (m : Path) :
    ∃ queue, s.queueNodeAdd mg w m = { s with queue := queue } := by
  unfold MonitorState.queueNodeAdd
  split
  · exact ⟨_, rfl⟩
  · exact ⟨s.queue, rfl⟩

end Events

/-- The path of an entry does not end in a slash. -/
theorem not_slashed_child (s : MonitorState root) (p : Path) (n : Name) :
    s.slashed (child p n) = false := by
  have hlast : (child p n).getLast? ≠ some '/' := by
    intro h
    rw [child, List.getLast?_append_of_ne_nil _ (List.cons_ne_nil _ _),
      List.getLast?_cons_of_ne_nil n.2.1] at h
    exact n.2.2 (List.mem_of_getLast? h)
  rw [MonitorState.slashed, beq_false_of_ne hlast, Bool.false_and]

section Cases

variable {mg : MonitorGroup} {s s' : MonitorState root} {top : Path}

theorem opendir_eq_some {path : Path} {st : Stream} (h : s.opendir path = some st) :
    ∃ i, s.tree.dir path = some i ∧ st = ⟨i, s.tree.names i, []⟩ := by
  obtain ⟨i, hi, he⟩ := Option.map_eq_some_iff.mp h
  exact ⟨i, hi, he.symm⟩

theorem dirsStep_cases {frames : List DirsFrame} {pos : DirsPos} {act : MonitorAct}
    (hpc : s.pc = .dirs top frames pos) (h : s.dirsStep top frames pos act = some s') :
    ThreadMove mg s s' := by
  unfold MonitorState.dirsStep at h
  split at h
  · -- watch
    split at h
    · next hw =>
      cases h
      exact .exit (.watch hpc (Option.map_eq_none_iff.mp hw))
    · next wd s₁ hw =>
      cases h
      exact .watch hpc hw
  · -- opendir
    split at h
    · next hst =>
      cases h
      exact .exit (.dirsOpen hpc (Option.map_eq_none_iff.mp hst))
    · next st hst =>
      cases h
      obtain ⟨i, hi, rfl⟩ := opendir_eq_some hst
      exact .dirsOpen hpc hi
  · -- a name
    split at h
    · cases h
    · dsimp only at h
      split at h
      · next hret =>
        cases h
        exact .dirsName hpc hret
      · cases h
  · -- the end
    split at h
    · cases h
    · split at h
      · next hend =>
        cases h
        exact .dirsEnd hpc hend
      · cases h
  · next p =>
    have htest : ThreadMove mg s _ := .dirsTest hpc
    split at h
    · next hd =>
      cases h
      rwa [if_pos hd] at htest
    · next hd =>
      split at h
      · next hs =>
        cases h
        exact .exit (.slashed hpc (Option.not_isSome_iff_eq_none.mp hd) hs)
      · cases h
        rwa [if_neg hd] at htest
  · cases h

theorem filesStep_cases {frames : List FilesFrame} {pos : FilesPos} {act : MonitorAct}
    (hpc : s.pc = .files top frames pos) (h : s.filesStep mg top frames pos act = some s') :
    ThreadMove mg s s' := by
  unfold MonitorState.filesStep at h
  split at h
  · -- opendir
    split at h
    · next wd st hwd hst =>
      cases h
      obtain ⟨i, hi, rfl⟩ := opendir_eq_some hst
      exact .filesOpen hpc hwd hi
    · -- the path is not in the table, or cannot be opened
      next hno =>
      cases h
      refine .exit (.filesOpen hpc ?_)
      by_contra hc
      obtain ⟨hwd, hst⟩ := not_or.mp hc
      obtain ⟨wd, hwd⟩ := Option.ne_none_iff_exists'.mp hwd
      obtain ⟨i, hi⟩ := Option.ne_none_iff_exists'.mp hst
      exact hno wd _ hwd (by rw [MonitorState.opendir, hi]; rfl)
  · -- a name
    split at h
    · cases h
    · dsimp only at h
      split at h
      · next hret =>
        cases h
        exact .filesName hpc hret
      · cases h
  · -- the end
    split at h
    · cases h
    · split at h
      · next hend =>
        cases h
        exact .filesEnd hpc hend
      · cases h
  · -- is_file
    split at h
    · next hm =>
      cases h
      exact .fileFound hpc hm
    · next hno =>
      cases h
      refine .noFile hpc (or_iff_not_imp_left.mpr fun hne i hi => ?_)
      obtain ⟨f, fs, hf⟩ := List.exists_cons_of_ne_nil hne
      exact hno f fs i hf hi
  · cases h
    exact .filesTest hpc
  · cases h

theorem innerStep_cases (hpc : s.pc = .inner) : ThreadMove mg s (s.innerStep mg) := by
  unfold MonitorState.innerStep
  split
  · next hb => exact .idle hpc (.empty hb)
  · next e es hb =>
    split
    · next hn => exact .nameless hpc hb hn
    · next n hn =>
      dsimp only
      split
      · next hfile =>
        split
        · next htype => exact .otherType hpc hb hn hfile.1 hfile.2 htype
        · next htype => exact .newFile hpc hb hn hfile.1 hfile.2 (not_not.mp htype)
      · next hfile =>
        split
        · next hadds =>
          refine .newDir hpc hb hn hadds fun hf => hfile ⟨hf, ?_⟩
          exact (Bool.and_eq_true_iff.mp hadds).2
        · next hadds =>
          split
          · next hdrops => exact .oldDir hpc hb hn hdrops
          · next hdrops =>
            exact .nothing hpc hb hn (by simpa using hadds) (by simpa using hdrops) hfile

/-- **Every step of the thread is one of `ThreadMove`.** -/
theorem threadStep_cases {act : MonitorAct} (h : s.threadStep mg act = some s') :
    ThreadMove mg s s' := by
  unfold MonitorState.threadStep at h
  split at h
  · next hpc => exact dirsStep_cases hpc h
  · next hpc => exact filesStep_cases hpc h
  · next hpc =>
    split at h
    · cases h
    · cases h
      exact .idle hpc .stop
  · next hpc =>
    split at h
    · next hk =>
      cases h
      exact .read hpc hk.2.2
    · cases h
  · next hpc =>
    cases h
    exact innerStep_cases hpc
  · next hpc =>
    cases h
    split
    · exact .idle hpc .goOn
    · exact .idle hpc .leave
  · cases h

end Cases

end Newiup
