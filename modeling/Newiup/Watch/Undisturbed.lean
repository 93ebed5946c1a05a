import Newiup.Watch.Startup
import Newiup.Watch.Steps

/-!
# The scan at start-up as a run of the monitor thread

`add_monitor_dir` and `add_upload_file` are given twice: as functions that call themselves, on
a tree that nobody changes, and as the first steps of the monitor thread, between which other
processes may move.  Where none of them does, the thread makes the calls of the functions one
by one and ends with the same table and the same queue.

## Main definitions

* `ScanVars.state` — the variables of the scan as a state of the system.
* `ThreadStep` — a step of the thread.

## Main results

* `addMonitorDir_steps`, `addUploadFile_steps` — the thread does what the functions do.
* `startScan_reached` — **what the scan returns with is reached by the thread** before it
  reads an event.
-/

namespace Newiup

variable {root : Path}

/-- The watch on a directory. -/
def ScanVars.watchOf (e : ScanEnv root) (v : ScanVars) (i : ℕ) : Option ℕ :=
  (v.watches.find? fun x => e.tree.dir x.1 == some i).map Prod.snd

/-- The thread at a place, with the variables of the scan. -/
def ScanVars.state (e : ScanEnv root) (v : ScanVars) (pc : MonitorPc) : MonitorState root where
  tree := e.tree
  watch := v.watchOf e
  nextWd := v.watches.length + 1
  events := []
  buffer := []
  wdList := v.wdList
  pc := pc
  queue := v.queue
  run := true

/-- The actions of the thread in a scan. -/
def MonitorAct.Scans : MonitorAct → Prop
  | .monitor => True
  | .readdir _ => True
  | _ => False

/-- The thread goes on in a scan.  It is a step of the monitor thread, or what `readdir`
answers it; no other process moves. -/
def ThreadStep (mg : MonitorGroup) (s s' : MonitorState root) : Prop :=
  ∃ act : MonitorAct, act.Scans ∧ MonitorState.step mg s act = some s'

/-- Where `add_monitor_dir` returns to. -/
def dirsReturn (top : Path) (frames : List DirsFrame) : MonitorPc :=
  if frames.isEmpty then .files top [] (.opendir top) else .dirs top frames .readdir

/-- Where `add_upload_file` returns to. -/
def filesReturn (top : Path) (frames : List FilesFrame) : MonitorPc :=
  if frames.isEmpty then .check else .files top frames .readdir

/-- The surroundings are those of the system: watches are numbered from 1 on, and every entry
is a directory or a regular file. -/
structure ScanEnv.Plain (e : ScanEnv root) : Prop where
  wd : ∀ k, e.wd k = k + 1
  special : ∀ p, e.special p = false

section Steps

variable {mg : MonitorGroup} {e : ScanEnv root} {v : ScanVars} {p top : Path} {i : ℕ} {n : Name}
  {frames : List DirsFrame} {fframes : List FilesFrame} {seen : List Name}

theorem ThreadStep.monitor {s s' : MonitorState root} (h : s.threadStep mg .monitor = some s') :
    ThreadStep mg s s' :=
  ⟨.monitor, trivial, h⟩

theorem ThreadStep.readdir {s s' : MonitorState root} {n : Option Name}
    (h : s.threadStep mg (.readdir n) = some s') : ThreadStep mg s s' :=
  ⟨.readdir n, trivial, h⟩

/-- A new watch is one on its directory. -/
theorem watchOf_watched {off : ℕ} (hi : e.tree.dir p = some i)
    (hnew : ∀ x ∈ v.watches, x.1 ≠ p) :
    (v.watched e off [p]).watchOf e =
      Function.update (v.watchOf e) i (some (e.wd v.watches.length)) := by
  funext j
  have hnone : (v.watches.find? fun x => e.tree.dir x.1 == some i) = none := by
    rw [List.find?_eq_none]
    intro x hx hd
    exact hnew x hx (Tree.dir_inj (eq_of_beq hd) hi)
  show ((v.watches ++ [(p, e.wd v.watches.length)]).find? fun x => e.tree.dir x.1 == some j).map
    Prod.snd = _
  by_cases hj : j = i
  · subst hj
    rw [Function.update_self, List.find?_append, hnone, Option.none_or, List.find?_cons, hi,
      beq_self_eq_true]
    rfl
  · have hne : (some i == some j) = false := by simp [Ne.symm hj]
    rw [Function.update_of_ne hj, List.find?_append, List.find?_cons, hi, hne, List.find?_nil,
      Option.or_none]
    rfl

/-- The watch on a directory that has none. -/
theorem step_watch {fnode : Option WdNode} (hplain : e.Plain) (hi : e.tree.dir p = some i)
    (hnew : ∀ x ∈ v.watches, x.1 ≠ p) :
    ThreadStep mg (v.state e (.dirs top frames (.watch p fnode)))
      ((v.watched e (suboffset p fnode) [p]).state e (.dirs top frames
        (.opendir ⟨e.wd v.watches.length, p, suboffset p fnode⟩))) := by
  refine .monitor ?_
  have hnone : v.watchOf e i = none := by
    rw [ScanVars.watchOf, Option.map_eq_none_iff, List.find?_eq_none]
    intro x hx hd
    exact hnew x hx (Tree.dir_inj (eq_of_beq hd) hi)
  have hadd : (v.state e (.dirs top frames (.watch p fnode))).inotifyAddWatch p =
      some (v.watches.length + 1, { v.state e (.dirs top frames (.watch p fnode)) with
        watch := Function.update (v.watchOf e) i (some (v.watches.length + 1))
        nextWd := v.watches.length + 1 + 1 }) := by
    unfold MonitorState.inotifyAddWatch
    have hentry : (v.state e (.dirs top frames (.watch p fnode))).tree.entry p = some ⟨true, i⟩ :=
      Tree.dir_eq_some.mp hi
    have hwatch : (v.state e (.dirs top frames (.watch p fnode))).watch i = none := hnone
    rw [hentry, Option.map_some]
    dsimp only
    rw [hwatch]
    rfl
  show MonitorState.dirsStep _ top frames (.watch p fnode) .monitor = _
  unfold MonitorState.dirsStep
  dsimp only
  rw [hadd]
  unfold ScanVars.state
  rw [watchOf_watched hi hnew, hplain.wd]
  simp only [ScanVars.watched, nodesFrom, hplain.wd]
  rw [List.length_append]
  cases fnode <;> rfl

/-- The stream of a directory after some names. -/
def ScanEnv.stream (e : ScanEnv root) (i : ℕ) (seen : List Name) : Stream :=
  ⟨i, e.tree.names i, seen⟩

theorem step_dirs_opendir {node : WdNode} (hi : e.tree.dir node.path = some i) :
    ThreadStep mg (v.state e (.dirs top frames (.opendir node)))
      (v.state e (.dirs top (⟨node, e.stream i []⟩ :: frames) .readdir)) := by
  refine .monitor ?_
  have hopen : (v.state e (.dirs top frames (.opendir node))).opendir node.path =
      some (e.stream i []) := by
    show (e.tree.dir node.path).map _ = _
    rw [hi]
    rfl
  show MonitorState.dirsStep _ top frames (.opendir node) .monitor = _
  unfold MonitorState.dirsStep
  dsimp only
  rw [hopen]
  rfl

theorem step_dirs_name {node : WdNode} (hn : n ∈ e.tree.names i) (hseen : n ∉ seen) :
    ThreadStep mg (v.state e (.dirs top (⟨node, e.stream i seen⟩ :: frames) .readdir))
      (v.state e (.dirs top (⟨node, e.stream i (n :: seen)⟩ :: frames) (if hidden n then .readdir
        else .isDir (snprintf WDQUEUE_PATH_LEN (child node.path n))))) := by
  refine .readdir (n := some n) ?_
  have hreturns : (v.state e (.dirs top (⟨node, e.stream i seen⟩ :: frames) .readdir)).Returns
      (e.stream i seen) n := ⟨hseen, Or.inl hn⟩
  exact if_pos hreturns

theorem step_dirs_end {node : WdNode} (hall : ∀ n ∈ e.tree.names i, n ∈ seen) :
    ThreadStep mg (v.state e (.dirs top (⟨node, e.stream i seen⟩ :: frames) .readdir))
      (v.state e (dirsReturn top frames)) :=
  .readdir (n := none) (if_pos fun n hn _ => hall n hn)

/-- A directory is gone into. -/
theorem step_isDir_some {fr : DirsFrame} (hd : (e.tree.dir p).isSome = true) :
    ThreadStep mg (v.state e (.dirs top (fr :: frames) (.isDir p)))
      (v.state e (.dirs top (fr :: frames) (.watch p (some fr.node)))) :=
  .monitor (if_pos hd)

/-- Any other entry is passed over. -/
theorem step_isDir_none (hd : ¬(e.tree.dir (child p n)).isSome = true) :
    ThreadStep mg (v.state e (.dirs top frames (.isDir (child p n))))
      (v.state e (.dirs top frames .readdir)) := by
  refine .monitor ((if_neg hd).trans (if_neg ?_))
  rw [not_slashed_child]
  exact Bool.false_ne_true

/-- The steps of the thread. -/
abbrev Steps (mg : MonitorGroup) : MonitorState root → MonitorState root → Prop :=
  Relation.ReflTransGen (ThreadStep mg)

/-- What `readdir` returns to a call and not to the thread is hidden. -/
theorem Listing.hidden_of_not_mem {tree : Tree root} (l : Listing tree) {n : Name}
    (hi : tree.dir p = some i) (hn : n ∈ l.names p) (hno : n ∉ tree.names i) :
    hidden n = true := by
  rcases (l.mem_iff p i n hi).mp hn with hdot | hdots | hentry
  · rw [hidden, hdot]
    rfl
  · rw [hidden, hdots]
    rfl
  · exact absurd ((Tree.mem_names hi).mpr hentry) hno

/-- **A loop over a directory**: at each entry that the stream returns the variables change as
they do in a call.  `I` is what holds while the names of a list are still to come, `H` the state
at the head of the loop and `R` the one after it. -/
theorem stream_steps {γ : Type} {act : ScanVars → List γ → ScanVars} {out : Name → List γ}
    {H : List Name → ScanVars → MonitorState root} {R : ScanVars → MonitorState root}
    {I : List Name → ScanVars → Prop} {l : List Name} (hnil : ∀ v, act v [] = v)
    (happend : ∀ v k k', act (act v k) k' = act v (k ++ k'))
    (hkeep : ∀ n l v, n ∉ l → I (n :: l) v → I l (act v (out n)))
    (hdone : ∀ seen v, (∀ n ∈ e.tree.names i, n ∈ seen) → Steps mg (H seen v) (R v))
    (hstep : ∀ n ∈ l, n ∈ e.tree.names i → ∀ rest seen v, I (n :: rest) v → n ∉ seen →
      Steps mg (H seen v) (H (n :: seen) (act v (out n))))
    (hskip : ∀ n ∈ l, n ∉ e.tree.names i → out n = [])
    (hnodup : l.Nodup) (hseen : ∀ n ∈ l, n ∉ seen) (hall : ∀ n ∈ e.tree.names i, n ∈ l ∨ n ∈ seen)
    (hI : I l v) : Steps mg (H seen v) (R (act v (l.flatMap out))) := by
  induction l generalizing v seen with
  | nil =>
    rw [List.flatMap_nil, hnil]
    exact hdone seen v fun n hn => (hall n hn).resolve_left List.not_mem_nil
  | cons n l ih =>
    obtain ⟨hn, hnodup⟩ := List.nodup_cons.mp hnodup
    obtain ⟨hns, hseen⟩ := List.forall_mem_cons.mp hseen
    obtain ⟨hhere, hskip⟩ := List.forall_mem_cons.mp hskip
    have hI' := hkeep n l v hn hI
    rw [List.flatMap_cons, ← happend]
    have hrest : ∀ seen, (∀ m ∈ l, m ∉ seen) → (∀ m ∈ e.tree.names i, m ∈ l ∨ m ∈ seen) →
        Steps mg (H seen (act v (out n))) (R (act (act v (out n)) (l.flatMap out))) :=
      fun seen hs ha => ih (fun m hm => hstep m (List.mem_cons_of_mem n hm)) hskip hnodup hs ha hI'
    by_cases hmem : n ∈ e.tree.names i
    · refine (hstep n List.mem_cons_self hmem l seen v hI hns).trans (hrest _ ?_ fun m hm => ?_)
      · intro m hm h
        rcases List.mem_cons.mp h with rfl | h
        · exact hn hm
        · exact hseen m hm h
      · rcases hall m hm with h | h
        · rcases List.mem_cons.mp h with rfl | h
          · exact Or.inr List.mem_cons_self
          · exact Or.inl h
        · exact Or.inr (List.mem_cons_of_mem n h)
    · -- the directory itself or the one above, which the thread is not told of
      have hsame : act v (out n) = v := by rw [hhere hmem, hnil]
      rw [hsame] at hrest ⊢
      refine hrest seen hseen fun m hm => ?_
      rcases hall m hm with h | h
      · rcases List.mem_cons.mp h with rfl | h
        · exact absurd hm hmem
        · exact Or.inl h
      · exact Or.inr h

end Steps

/-! ### The directories -/

section Dirs

variable {mg : MonitorGroup} {e : ScanEnv root} {v : ScanVars} {p top : Path} {i : ℕ}
  {frames : List DirsFrame}

theorem mem_watches_watched {off : ℕ} {dirs : List Path} {x : Path × ℕ}
    (h : x ∈ (v.watched e off dirs).watches) : x ∈ v.watches ∨ x.1 ∈ dirs := by
  rcases List.mem_append.mp h with h | h
  · exact Or.inl h
  · obtain ⟨node, hnode, rfl⟩ := List.mem_map.mp h
    refine Or.inr ?_
    rw [← map_path_nodesFrom (e := e) off v.watches.length dirs]
    exact List.mem_map_of_mem hnode

theorem within_of_mem_dirsOf {depth : ℕ} {q : Path} (h : q ∈ dirsOf e depth p) : Within p q :=
  keyed_dirs.within h

/-- **The thread makes the calls of `add_monitor_dir`**, for a directory in which nothing is
watched. -/
theorem addMonitorDir_steps {depth : ℕ} {fnode : Option WdNode} (hplain : e.Plain)
    (hd : (e.tree.dir p).isSome = true) (hdeep : Deep e.dirs.names e.isDirAt depth p)
    (hfit : ∀ q, Visible p q → (e.tree.entry q).isSome = true → q.length < WDQUEUE_PATH_LEN)
    (hnew : ∀ x ∈ v.watches, ¬Within p x.1) :
    Steps mg (v.state e (.dirs top frames (.watch p fnode)))
      ((v.watched e (suboffset p fnode) (dirsOf e depth p)).state e (dirsReturn top frames)) := by
  induction depth generalizing p fnode v frames with
  | zero => exact absurd rfl hdeep.pos
  | succ depth ih =>
    obtain ⟨i, hi⟩ := Option.isSome_iff_exists.mp hd
    set node : WdNode := ⟨e.wd v.watches.length, p, suboffset p fnode⟩ with hnode
    have hwatch : ThreadStep mg (v.state e (.dirs top frames (.watch p fnode))) _ :=
      step_watch hplain hi fun x hx he => hnew x hx (he ▸ Within.refl _)
    refine .head hwatch (.head (step_dirs_opendir hi) ?_)
    rw [dirsOf_succ]
    change Steps mg _ ((v.watched e _ ([p] ++ _)).state e _)
    rw [← ScanVars.watched_append]
    -- nothing is watched in the entries that are still to come
    refine stream_steps (e := e) (i := i)
      (I := fun l v => ∀ m ∈ l, ∀ x ∈ v.watches, ¬Within (child p m) x.1)
      (H := fun seen v => v.state e (.dirs top (⟨node, e.stream i seen⟩ :: frames) .readdir))
      (R := fun v => v.state e (dirsReturn top frames)) (ScanVars.watched_nil _)
      (fun v k k' => ScanVars.watched_append _ v k k') (fun n l v hn hI => ?_)
      (fun seen v hall => .single (step_dirs_end hall)) (fun n hn hmem l seen v hI hseen => ?_)
      (fun n hn hmem => if_pos (e.dirs.hidden_of_not_mem hi hn hmem)) (e.dirs.nodup p)
      (fun n _ => List.not_mem_nil)
      (fun n hn => Or.inl (e.dirs.mem hd ((Tree.mem_names hi).mp hn))) fun n hn x hx hw => ?_
    · intro m hm x hx hw
      rcases mem_watches_watched hx with hx | hx
      · exact hI m (List.mem_cons_of_mem n hm) x hx hw
      · have hw' : Within (child p n) x.1 := by
          split at hx
          · cases hx
          · split at hx
            · exact within_of_mem_dirsOf hx
            · cases hx
        exact hn (eq_of_within_child hw hw' ▸ hm)
    · have hname : ThreadStep mg
          (v.state e (.dirs top (⟨node, e.stream i seen⟩ :: frames) .readdir)) _ :=
        step_dirs_name hmem hseen
      by_cases hh : hidden n = true
      · rw [if_pos hh] at hname ⊢
        rw [ScanVars.watched_nil]
        exact .single hname
      · have hh' : hidden n = false := by simpa using hh
        have hlt : (child p n).length < WDQUEUE_PATH_LEN :=
          hfit _ (Visible.here.under hh') ((Tree.mem_names hi).mp hmem)
        rw [if_neg hh] at hname ⊢
        rw [snprintf_of_lt hlt] at hname
        by_cases hsub : e.isDirAt (child p n) = true
        · -- a call for the directory, which returns to this one
          rw [if_pos hsub]
          exact .head hname (.head (step_isDir_some hsub) (ih hsub
            (hdeep.child hn hh' hsub) (fun q hq => hfit q ((Visible.here.under hh').trans hq))
            (hI n List.mem_cons_self)))
        · rw [if_neg hsub, ScanVars.watched_nil]
          exact .head hname (.single (step_isDir_none hsub))
    · rcases mem_watches_watched hx with hx | hx
      · exact hnew x hx ((within_child p n).trans hw)
      · rw [List.mem_singleton.mp hx] at hw
        exact not_within_of_child p n hw

end Dirs

/-! ### The files -/

section Files

variable {mg : MonitorGroup} {e : ScanEnv root} {v : ScanVars} {p top : Path} {i wd : ℕ} {n : Name}
  {frames : List FilesFrame} {seen : List Name}

theorem step_files_opendir (hwd : getWdWdByPath v.wdList p = some wd)
    (hi : e.tree.dir p = some i) :
    ThreadStep mg (v.state e (.files top frames (.opendir p)))
      (v.state e (.files top (⟨p, wd, e.stream i []⟩ :: frames) .readdir)) := by
  refine .monitor ?_
  have hopen : (v.state e (.files top frames (.opendir p))).opendir p = some (e.stream i []) := by
    show (e.tree.dir p).map _ = _
    rw [hi]
    rfl
  show MonitorState.filesStep _ mg top frames (.opendir p) .monitor = _
  unfold MonitorState.filesStep
  dsimp only
  rw [hopen, show getWdWdByPath (v.state e (.files top frames (.opendir p))).wdList p = some wd
    from hwd]
  rfl

theorem step_files_name (hn : n ∈ e.tree.names i) (hseen : n ∉ seen) :
    ThreadStep mg (v.state e (.files top (⟨p, wd, e.stream i seen⟩ :: frames) .readdir))
      (v.state e (.files top (⟨p, wd, e.stream i (n :: seen)⟩ :: frames) (if hidden n then .readdir
        else .isFile (snprintf NEWIUP_PATH_LEN (child p n))))) := by
  refine .readdir (n := some n) ?_
  have hreturns : (v.state e (.files top (⟨p, wd, e.stream i seen⟩ :: frames) .readdir)).Returns
      (e.stream i seen) n := ⟨hseen, Or.inl hn⟩
  exact if_pos hreturns

theorem step_files_end (hall : ∀ n ∈ e.tree.names i, n ∈ seen) :
    ThreadStep mg (v.state e (.files top (⟨p, wd, e.stream i seen⟩ :: frames) .readdir))
      (v.state e (filesReturn top frames)) :=
  .readdir (n := none) (if_pos fun n hn _ => hall n hn)

theorem ScanEnv.Plain.isFile_iff (hplain : e.Plain) {m : Path} :
    e.isFile m = NEWIUP_OK ↔ ∃ j, e.tree.entry m = some ⟨false, j⟩ := by
  unfold ScanEnv.isFile
  constructor
  · intro h
    split at h
    · next j hj => exact ⟨j, hj⟩
    · cases h
  · rintro ⟨j, hj⟩
    rw [hj]
    dsimp only
    rw [hplain.special]
    rfl

/-- A file is queued if its type is the group's. -/
theorem step_isFile_some {st : Stream} (hplain : e.Plain)
    (hwd : getWdWdByPath v.wdList p = some wd) (hfile : e.isFile (child p n) = NEWIUP_OK) :
    ThreadStep mg (v.state e (.files top (⟨p, wd, st⟩ :: frames) (.isFile (child p n))))
      ((v.filed (emitFile e mg v.wdList p n)).state e
        (.files top (⟨p, wd, st⟩ :: frames) .readdir)) := by
  refine .monitor ?_
  obtain ⟨j, hj⟩ := hplain.isFile_iff.mp hfile
  set s := v.state e (.files top (⟨p, wd, st⟩ :: frames) (.isFile (child p n))) with hs
  have hentry : s.tree.entry (child p n) = some ⟨false, j⟩ := hj
  have hadd : s.queueNodeAdd mg wd (child p n) =
      (v.filed (emitFile e mg v.wdList p n)).state e s.pc := by
    unfold MonitorState.queueNodeAdd emitFile
    by_cases htype : isMonitorType (child p n) mg.monitorFileType = NEWIUP_OK
    · obtain ⟨src, hsrc⟩ := Option.isSome_iff_exists.mp (addFileSuffixProcess_isSome htype)
      rw [dif_pos htype, if_pos ⟨hfile, htype⟩]
      simp only [queued, hwd, hsrc, Option.getD_some, Option.get_some]
      rfl
    · rw [dif_neg htype, if_neg fun h => htype h.2, ScanVars.filed_nil]
      rfl
  show MonitorState.filesStep s mg top _ (.isFile (child p n)) .monitor = _
  unfold MonitorState.filesStep
  dsimp only
  rw [hentry]
  dsimp only
  rw [hadd]
  rfl

/-- What is no file may be a directory. -/
theorem step_isFile_none {m : Path} (hplain : e.Plain) (hfile : e.isFile m ≠ NEWIUP_OK) :
    ThreadStep mg (v.state e (.files top frames (.isFile m)))
      (v.state e (.files top frames (.isDir m))) := by
  refine .monitor ?_
  set s := v.state e (.files top frames (.isFile m)) with hs
  have hentry : ∀ j, s.tree.entry m ≠ some ⟨false, j⟩ := fun j hj =>
    hfile (hplain.isFile_iff.mpr ⟨j, hj⟩)
  show MonitorState.filesStep s mg top frames (.isFile m) .monitor = _
  unfold MonitorState.filesStep
  dsimp only
  split
  · next j hj => exact absurd hj (hentry j)
  · rfl

theorem step_files_isDir {m : Path} :
    ThreadStep mg (v.state e (.files top frames (.isDir m)))
      (v.state e (.files top frames (if (e.tree.dir m).isSome then .opendir m else .readdir))) :=
  .monitor rfl

/-- **The thread makes the calls of `add_upload_file`**, where the table has every directory it
comes to. -/
theorem addUploadFile_steps {depth : ℕ} {T : Wdqueue} (hplain : e.Plain)
    (hd : (e.tree.dir p).isSome = true) (hdeep : Deep e.files.names e.isDirAt depth p)
    (hfit : ∀ q, Visible p q → (e.tree.entry q).isSome = true → q.length < WDQUEUE_PATH_LEN)
    (htable : ∀ q, Visible p q → (e.tree.dir q).isSome = true →
      (getWdWdByPath T q).isSome = true) (hT : v.wdList = T) :
    Steps mg (v.state e (.files top frames (.opendir p)))
      ((v.filed (filesOf e mg T depth p)).state e (filesReturn top frames)) := by
  induction depth generalizing p v frames with
  | zero => exact absurd rfl hdeep.pos
  | succ depth ih =>
    obtain ⟨i, hi⟩ := Option.isSome_iff_exists.mp hd
    obtain ⟨wd, hwd⟩ := Option.isSome_iff_exists.mp (htable p .here hd)
    refine .head (step_files_opendir (hT ▸ hwd) hi) ?_
    rw [filesOf_succ]
    refine stream_steps (e := e) (i := i) (I := fun _ v => v.wdList = T)
      (H := fun seen v => v.state e (.files top (⟨p, wd, e.stream i seen⟩ :: frames) .readdir))
      (R := fun v => v.state e (filesReturn top frames)) ScanVars.filed_nil
      ScanVars.filed_append (fun n l v hn hI => hI)
      (fun seen v hall => .single (step_files_end hall))
      (fun n hn hmem l seen v hI hseen => ?_)
      (fun n hn hmem => if_pos (e.files.hidden_of_not_mem hi hn hmem)) (e.files.nodup p)
      (fun n _ => List.not_mem_nil)
      (fun n hn => Or.inl (e.files.mem hd ((Tree.mem_names hi).mp hn))) hT
    have hname : ThreadStep mg
        (v.state e (.files top (⟨p, wd, e.stream i seen⟩ :: frames) .readdir)) _ :=
      step_files_name hmem hseen
    by_cases hh : hidden n = true
    · rw [if_pos hh] at hname ⊢
      rw [ScanVars.filed_nil]
      exact .single hname
    have hh' : hidden n = false := by simpa using hh
    have hlt : (child p n).length < WDQUEUE_PATH_LEN :=
      hfit _ (Visible.here.under hh') ((Tree.mem_names hi).mp hmem)
    rw [if_neg hh] at hname ⊢
    rw [snprintf_full hlt] at hname
    by_cases hfile : e.isFile (child p n) = NEWIUP_OK
    · have hnot : ¬e.isDirAt (child p n) = true := by simp [(ScanEnv.entry_of_isFile hfile).2]
      have hadd : ThreadStep mg (v.state e
          (.files top (⟨p, wd, e.stream i (n :: seen)⟩ :: frames) (.isFile (child p n)))) _ :=
        step_isFile_some hplain (hI ▸ hwd) hfile
      rw [if_neg hnot]
      rw [hI] at hadd
      exact .head hname (.single hadd)
    · refine .head hname (.head (step_isFile_none hplain hfile) ?_)
      have htest : ThreadStep mg (v.state e
          (.files top (⟨p, wd, e.stream i (n :: seen)⟩ :: frames) (.isDir (child p n)))) _ :=
        step_files_isDir
      by_cases hsub : e.isDirAt (child p n) = true
      · -- a call for the directory, which returns to this one
        rw [if_pos hsub]
        rw [if_pos (show (e.tree.dir (child p n)).isSome = true from hsub)] at htest
        exact .head htest (ih hsub (hdeep.child hn hh' hsub)
          (fun q hq => hfit q ((Visible.here.under hh').trans hq))
          (fun q hq => htable q ((Visible.here.under hh').trans hq)) hI)
      · rw [if_neg hsub, emitFile, if_neg fun h => hfile h.1, ScanVars.filed_nil]
        rw [if_neg (show ¬(e.tree.dir (child p n)).isSome = true from hsub)] at htest
        exact .single htest

end Files

/-! ### The whole scan -/

/-- The steps of a scan lead from what it reaches to what it reaches. -/
theorem reach_of_steps {mg : MonitorGroup} {s s' : MonitorState root} (h : Steps mg s s')
    (hs : (monitorSystem root mg).Reach (fun _ act => act.Scans) s) :
    (monitorSystem root mg).Reach (fun _ act => act.Scans) s' := by
  induction h with
  | refl => exact hs
  | tail _ hstep ih =>
    obtain ⟨act, hact, hnext⟩ := hstep
    exact .next ih hact hnext

/-- **What the scan returns with is reached by the thread**, where no other process moves: the
thread is then about to read events, and there is none. -/
theorem startScan_reached (e : ScanEnv root) (mg : MonitorGroup) (hplain : e.Plain)
    (hfit : e.Fits) {depth : ℕ} (hdepth : WDQUEUE_PATH_LEN ≤ depth) :
    ∃ v, startScan e mg depth ScanVars.empty = (.done (), v) ∧
      (monitorSystem root mg).Reach (fun _ act => act.Scans) (v.state e .check) := by
  refine ⟨_, startScan_run e mg hfit hdepth, ?_⟩
  have htable : TableCovers e (ScanVars.table e depth) := tableCovers_watched hfit hdepth
  have hdirs : Steps mg (.boot e.tree)
      ((ScanVars.table e depth).state e (.files root [] (.opendir root))) :=
    addMonitorDir_steps (v := ScanVars.empty) hplain (dir_root_isSome e.tree)
      (hfit.deep e.dirs hdepth) hfit fun x hx => (List.not_mem_nil hx).elim
  have hfiles : Steps mg
      ((ScanVars.table e depth).state e (.files root [] (.opendir root))) _ :=
    addUploadFile_steps hplain (dir_root_isSome e.tree) (hfit.deep e.files hdepth) hfit
      (fun q => htable.lookup_isSome) rfl
  exact reach_of_steps (hdirs.trans hfiles) (.start ⟨e.tree, rfl⟩)

example : ScanEnv.Plain { scanSample with wd := fun k => k + 1, wd_inj := Nat.succ_injective } :=
  ⟨fun _ => rfl, fun _ => rfl⟩

end Newiup
