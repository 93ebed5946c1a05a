import Newiup.Conf
import Newiup.Finish
import Newiup.Traverse
import Newiup.Watch.Monitor

/-!
# The scan at start-up

`add_monitor_dir` and `add_upload_file` on a tree that nobody changes meanwhile.  The
first fills the table of watched directories, the second finds each directory in it again
by its path.  A call of either needs a frame of the stack, which has room for a number of
them.

Here the two are functions, which say what a scan finds whatever the order of `readdir` is and
whatever numbers the watches get.  As steps of the monitor thread, between which the tree may
change, they belong to its system; `Newiup.Watch.Undisturbed` connects the two.

## Main definitions

* `Listing`, `ScanEnv` — what `readdir` and `inotify_add_watch` return, and the tree.
* `addMonitorDir`, `addUploadFile`, `startScan` — the scan.
* `TableCovers`, `QueueCovers` — what should be in the table and in the queue.

## Main results

* `addMonitorDir_run`, `addUploadFile_run` — **each is a traversal.**
* `startScan_exact` — **the scan covers the tree exactly.**
-/

namespace Newiup

variable {root : Path}

/-! ### The surroundings -/

/-- What `readdir` returns for each directory: its entries, `.` and `..`, in any order.  The
two dots are passed over with all the other names that begin with one, but they are there to be
passed over. -/
structure Listing (tree : Tree root) where
  /-- The names. -/
  names : Path → List Name
  /-- None is returned twice. -/
  nodup : ∀ p, (names p).Nodup
  /-- They are the entries and the two others. -/
  mem_iff : ∀ p i n, tree.dir p = some i → (n ∈ names p ↔
    n.1 = ".".toList ∨ n.1 = "..".toList ∨ (tree.entry (child p n)).isSome = true)

/-- The surroundings of the scan.  `readdir` gives no order, and the two functions read each
directory once; so there are two listings, and the results are for any two.  The numbers of the
watches are arbitrary but different. -/
structure ScanEnv (root : Path) where
  /-- The tree, without symbolic links. -/
  tree : Tree root
  /-- The entries that are neither directories nor regular files. -/
  special : Path → Bool
  /-- What `readdir` returns to `add_monitor_dir`. -/
  dirs : Listing tree
  /-- What `readdir` returns to `add_upload_file`. -/
  files : Listing tree
  /-- What the calls of `inotify_add_watch` return. -/
  wd : ℕ → ℕ
  /-- The numbers are different. -/
  wd_inj : Function.Injective wd

/-- The variables of the scan. -/
structure ScanVars where
  /-- History: the calls of `inotify_add_watch` with what they returned. -/
  watches : List (Path × ℕ)
  /-- `wd_list`. -/
  wdList : Wdqueue
  /-- The queue of the group. -/
  queue : List QueuedFile

/-- Nothing is watched or queued. -/
def ScanVars.empty : ScanVars := ⟨[], [], []⟩

namespace ScanEnv

/-- `is_dir`. -/
def isDir (e : ScanEnv root) (filepath : Path) : ℤ :=
  if (e.tree.dir filepath).isSome then NEWIUP_OK else NEWIUP_FAIL

/-- `is_file`. -/
def isFile (e : ScanEnv root) (filepath : Path) : ℤ :=
  match e.tree.entry filepath with
  | some ⟨false, _⟩ => if e.special filepath then NEWIUP_FAIL else NEWIUP_OK
  | _ => NEWIUP_FAIL

/-- `opendir`, with the names its stream will return. -/
def opendir (e : ScanEnv root) (l : Listing e.tree) (path : Path) : Option (List Name) :=
  (e.tree.dir path).map fun _ => l.names path

/-- `inotify_add_watch`; `none` is a negative number. -/
def inotifyAddWatch (e : ScanEnv root) (path : Path) : Start ScanVars (Option ℕ) := fun s =>
  match e.tree.entry path with
  | none => (.done none, s)
  | some _ =>
      let wd := e.wd s.watches.length
      (.done (some wd), { s with watches := s.watches ++ [(path, wd)] })

end ScanEnv

/-! ### The scan -/

/-- `suboffset` of a node that is made for `path` under `fnode`. -/
def suboffset (path : Path) : Option WdNode → ℕ
  | none => path.length + 1
  | some fnode => fnode.suboffset

/-- `add_monitor_dir`, with room for so many nested calls. -/
def addMonitorDir (e : ScanEnv root) : ℕ → Path → Option WdNode → Start ScanVars Unit
  | 0, _, _ => .crash -- the stack is exhausted
  | depth + 1, path, fnode => do
      let some wd ← e.inotifyAddWatch path | .exit (-1)
      let path ← strcpy WDQUEUE_PATH_LEN path
      let node : WdNode := ⟨wd, path, suboffset path fnode⟩
      .modify fun s => { s with wdList := s.wdList ++ [node] }
      let some names := e.opendir e.dirs node.path | .exit (-1)
      names.forM fun n =>
        if hidden n then pure () -- continue
        else
          let fullpath := snprintf WDQUEUE_PATH_LEN (child node.path n)
          if e.isDir fullpath = NEWIUP_OK then addMonitorDir e depth fullpath (some node)
          else pure ()

/-- `queue_node_add`, where its allocations succeed. -/
def ScanVars.queueNodeAdd (s : ScanVars) (wd : ℕ) (monitorfile src : Path) : ScanVars :=
  { s with queue := s.queue ++ [⟨wd, monitorfile, src, getWdSubpathByWd s.wdList wd⟩] }

/-- `add_upload_file`, with room for so many nested calls. -/
def addUploadFile (e : ScanEnv root) (mg : MonitorGroup) : ℕ → Path → Start ScanVars Unit
  | 0, _ => .crash -- the stack is exhausted
  | depth + 1, path => do
      let s ← .get
      let some wd := getWdWdByPath s.wdList path | .exit (-1)
      let some names := e.opendir e.files path | .exit (-1)
      names.forM fun n =>
        if hidden n then pure () -- continue
        else
          let monitorfile := snprintf NEWIUP_PATH_LEN (child path n)
          if e.isFile monitorfile = NEWIUP_OK then
            if isMonitorType monitorfile mg.monitorFileType ≠ NEWIUP_OK then pure () -- continue
            else do
              let dstfile ← .deref (addFileSuffixProcess mg monitorfile)
              .modify fun s => s.queueNodeAdd wd monitorfile dstfile
          else if e.isDir monitorfile = NEWIUP_OK then addUploadFile e mg depth monitorfile
          else pure ()

/-- What `monitor_handle` does before it reads events. -/
def startScan (e : ScanEnv root) (mg : MonitorGroup) (depth : ℕ) : Start ScanVars Unit := do
  addMonitorDir e depth root none
  addUploadFile e mg depth root

/-! ### What it should find -/

/-- The paths fit the buffers. -/
def ScanEnv.Fits (e : ScanEnv root) : Prop :=
  ∀ p, Visible root p → (e.tree.entry p).isSome = true → p.length < WDQUEUE_PATH_LEN

/-- **The table is exact**: it has one node for the root and for each directory that is
not hidden, with its path, its watch and its path relative to the root. -/
structure TableCovers (e : ScanEnv root) (s : ScanVars) : Prop where
  dirs : ∀ p, p ∈ s.wdList.map WdNode.path ↔ Visible root p ∧ (e.tree.dir p).isSome = true
  once : (s.wdList.map WdNode.path).Nodup
  watches : s.wdList.map (fun node => (node.path, node.wd)) = s.watches
  wds : (s.wdList.map WdNode.wd).Nodup
  subpath : ∀ node ∈ s.wdList, node.path ≠ root → node.path = root ++ '/' :: node.subpath

/-- The node of the file `n` in the directory of a node of the table. -/
structure NodeOf (e : ScanEnv root) (mg : MonitorGroup) (node : WdNode) (n : Name)
    (f : QueuedFile) : Prop where
  visible : hidden n = false
  file : e.isFile (child node.path n) = NEWIUP_OK
  type : isMonitorType (child node.path n) mg.monitorFileType = NEWIUP_OK
  wd : f.wd = node.wd
  monitorfile : f.monitorfile = child node.path n
  src : addFileSuffixProcess mg (child node.path n) = some f.src
  upSubpath : f.upSubpath = some node.subpath

/-- **The queue is exact**: it has one node for each regular file of the group's type that
is not hidden, in the directories of the table, with the watch of its directory. -/
structure QueueCovers (e : ScanEnv root) (mg : MonitorGroup) (s : ScanVars) : Prop where
  files : ∀ f, f ∈ s.queue ↔ ∃ node ∈ s.wdList, ∃ n, NodeOf e mg node n f
  once : (s.queue.map QueuedFile.monitorfile).Nodup

/-! ### What the surroundings return -/

section Surroundings

variable {e : ScanEnv root} {p q : Path} {n : Name} {i : ℕ}

/-- The path of a directory. -/
def ScanEnv.isDirAt (e : ScanEnv root) (p : Path) : Bool := (e.tree.dir p).isSome

theorem ScanEnv.isDir_eq_ok : e.isDir p = NEWIUP_OK ↔ e.isDirAt p = true := by
  unfold ScanEnv.isDir ScanEnv.isDirAt
  split
  · next h => exact iff_of_true rfl h
  · next h => exact iff_of_false (by decide) h

/-- A regular file is an entry and no directory. -/
theorem ScanEnv.entry_of_isFile (h : e.isFile p = NEWIUP_OK) :
    (e.tree.entry p).isSome = true ∧ e.isDirAt p = false := by
  unfold ScanEnv.isFile at h
  split at h
  · next i hp =>
    refine ⟨by rw [hp]; rfl, ?_⟩
    rw [ScanEnv.isDirAt, Tree.dir, hp]
    rfl
  · cases h

/-- What is not hidden is an entry. -/
theorem Listing.entry {tree : Tree root} (l : Listing tree) (hp : (tree.dir p).isSome = true)
    (hn : n ∈ l.names p) (hh : hidden n = false) : (tree.entry (child p n)).isSome = true := by
  obtain ⟨i, hi⟩ := Option.isSome_iff_exists.mp hp
  rcases (l.mem_iff p i n hi).mp hn with hdot | hdots | hentry
  · rw [hidden, hdot] at hh
    cases hh
  · rw [hidden, hdots] at hh
    cases hh
  · exact hentry

theorem Listing.mem {tree : Tree root} (l : Listing tree) (hp : (tree.dir p).isSome = true)
    (hentry : (tree.entry (child p n)).isSome = true) : n ∈ l.names p := by
  obtain ⟨i, hi⟩ := Option.isSome_iff_exists.mp hp
  exact (l.mem_iff p i n hi).mpr (.inr (.inr hentry))

/-- **The directories a scan comes to** are the visible ones. -/
theorem walked_iff_visible (l : Listing e.tree) :
    Walked l.names e.isDirAt root q ↔ Visible root q ∧ (e.tree.dir q).isSome = true := by
  constructor
  · intro h
    refine ⟨h.visible, ?_⟩
    cases h with
    | here =>
      obtain ⟨i, hi⟩ := e.tree.exists_dir_root
      rw [hi]
      rfl
    | under _ _ _ hd => exact hd
  · rintro ⟨hv, hd⟩
    induction hv with
    | here => exact .here
    | @under p n hv hh ih =>
      obtain ⟨i, hi⟩ := Option.isSome_iff_exists.mp hd
      have hne : child p n ≠ root := fun he => by
        have hle := hv.within.length_le
        have hlt := length_lt_child p n
        rw [he] at hlt
        omega
      obtain ⟨q, m, j, he, hj⟩ := e.tree.exists_parent (Tree.dir_eq_some.mp hi) hne
      obtain ⟨rfl, rfl⟩ := child_inj he
      have hp : (e.tree.dir p).isSome = true := by rw [hj]; rfl
      exact (ih hp).under (l.mem hp (Tree.entry_of_dir hi)) hh hd

/-- There is room for the paths that fit. -/
theorem ScanEnv.Fits.deep (hfit : e.Fits) (l : Listing e.tree) {depth : ℕ}
    (hdepth : WDQUEUE_PATH_LEN ≤ depth) : Deep l.names e.isDirAt depth root := by
  intro q hq
  obtain ⟨hv, hd⟩ := (walked_iff_visible l).mp hq
  obtain ⟨i, hi⟩ := Option.isSome_iff_exists.mp hd
  have := hfit q hv (Tree.entry_of_dir hi)
  omega

end Surroundings

/-! ### The directories -/

section Dirs

variable {e : ScanEnv root} {p : Path}

/-- The nodes for directories that are watched after `k` others. -/
def nodesFrom (e : ScanEnv root) (off k : ℕ) (dirs : List Path) : Wdqueue :=
  (dirs.zipIdx k).map fun d => ⟨e.wd d.2, d.1, off⟩

/-- The directories have been put into the table. -/
def ScanVars.watched (e : ScanEnv root) (off : ℕ) (s : ScanVars) (dirs : List Path) : ScanVars :=
  let nodes := nodesFrom e off s.watches.length dirs
  { s with
    watches := s.watches ++ nodes.map fun node => (node.path, node.wd)
    wdList := s.wdList ++ nodes }

theorem length_nodesFrom (e : ScanEnv root) (off k : ℕ) (dirs : List Path) :
    (nodesFrom e off k dirs).length = dirs.length := by
  rw [nodesFrom, List.length_map, List.length_zipIdx]

theorem ScanVars.watched_nil (off : ℕ) (s : ScanVars) : s.watched e off [] = s := by
  simp [ScanVars.watched, nodesFrom]

theorem ScanVars.watched_append (off : ℕ) (s : ScanVars) (dirs dirs' : List Path) :
    (s.watched e off dirs).watched e off dirs' = s.watched e off (dirs ++ dirs') := by
  simp only [ScanVars.watched, List.length_append, List.length_map, length_nodesFrom]
  simp [nodesFrom, List.zipIdx_append]

/-- What `add_monitor_dir` collects: the directories. -/
def dirsOf (e : ScanEnv root) : ℕ → Path → List Path :=
  traverse e.dirs.names e.isDirAt (fun p => [p]) fun _ _ => []

theorem dirsOf_succ (depth : ℕ) : dirsOf e (depth + 1) p =
    p :: (e.dirs.names p).flatMap fun n => if hidden n then []
      else if e.isDirAt (child p n) then dirsOf e depth (child p n) else [] := rfl

/-- **`add_monitor_dir` is a traversal.** -/
theorem addMonitorDir_run {depth : ℕ} {fnode : Option WdNode} {s : ScanVars}
    (hd : (e.tree.dir p).isSome = true) (hdeep : Deep e.dirs.names e.isDirAt depth p)
    (hfit : ∀ q, Visible p q → (e.tree.entry q).isSome = true → q.length < WDQUEUE_PATH_LEN) :
    addMonitorDir e depth p fnode s =
      (.done (), s.watched e (suboffset p fnode) (dirsOf e depth p)) := by
  induction depth generalizing p fnode s with
  | zero => exact absurd rfl hdeep.pos
  | succ depth ih =>
    obtain ⟨i, hi⟩ := Option.isSome_iff_exists.mp hd
    have hlt : p.length < WDQUEUE_PATH_LEN := hfit p .here (Tree.entry_of_dir hi)
    have hwatch : e.inotifyAddWatch p s = (.done (some (e.wd s.watches.length)),
        { s with watches := s.watches ++ [(p, e.wd s.watches.length)] }) := by
      simp [ScanEnv.inotifyAddWatch, Tree.dir_eq_some.mp hi]
    have hopen : e.opendir e.dirs p = some (e.dirs.names p) := by simp [ScanEnv.opendir, hi]
    rw [addMonitorDir, Start.bind_of_done hwatch]
    simp only [strcpy_of_lt hlt, Start.pure_bind, Start.modify_bind, hopen]
    -- the node of the directory itself
    rw [dirsOf_succ]
    change _ = (Ends.done (), s.watched e _ ([p] ++ _))
    rw [← ScanVars.watched_append]
    have hself : ScanVars.mk (s.watches ++ [(p, e.wd s.watches.length)])
        (s.wdList ++ [⟨e.wd s.watches.length, p, suboffset p fnode⟩]) s.queue =
        s.watched e (suboffset p fnode) [p] := rfl
    rw [← hself]
    refine Start.forM_done (I := fun _ => True) (ScanVars.watched_nil _)
      (fun s k k' => ScanVars.watched_append _ s k k') (fun _ _ _ => trivial)
      (fun n hn s' _ => ?_) trivial
    by_cases hh : hidden n = true
    · rw [if_pos hh, if_pos hh, ScanVars.watched_nil]
      rfl
    · have hh' : hidden n = false := by simpa using hh
      have hentry := e.dirs.entry hd hn hh'
      have hlong : (child p n).length < WDQUEUE_PATH_LEN := hfit _ (Visible.here.under hh') hentry
      rw [if_neg hh, if_neg hh]
      rw [snprintf_of_lt hlong]
      by_cases hsub : e.isDirAt (child p n) = true
      · rw [if_pos (ScanEnv.isDir_eq_ok.mpr hsub), if_pos hsub]
        exact ih hsub (hdeep.child hn hh' hsub) fun q hq =>
          hfit q ((Visible.here.under hh').trans hq)
      · rw [if_neg fun h => hsub (ScanEnv.isDir_eq_ok.mp h), if_neg hsub, ScanVars.watched_nil]
        rfl

end Dirs

/-! ### The files -/

section Files

variable {e : ScanEnv root} {mg : MonitorGroup} {p : Path} {T : Wdqueue}

/-- What `queue_node_add` makes of the file `n` of the directory at `p`. -/
def queued (mg : MonitorGroup) (T : Wdqueue) (p : Path) (n : Name) : QueuedFile :=
  let wd := (getWdWdByPath T p).getD 0
  ⟨wd, child p n, (addFileSuffixProcess mg (child p n)).getD [], getWdSubpathByWd T wd⟩

/-- The files a directory adds to the queue. -/
def emitFile (e : ScanEnv root) (mg : MonitorGroup) (T : Wdqueue) (p : Path) (n : Name) :
    List QueuedFile :=
  if e.isFile (child p n) = NEWIUP_OK ∧
      isMonitorType (child p n) mg.monitorFileType = NEWIUP_OK then
    [queued mg T p n]
  else []

/-- What `add_upload_file` collects: the files, with the numbers of the table `T`. -/
def filesOf (e : ScanEnv root) (mg : MonitorGroup) (T : Wdqueue) : ℕ → Path → List QueuedFile :=
  traverse e.files.names e.isDirAt (fun _ => []) (emitFile e mg T)

theorem filesOf_succ (depth : ℕ) : filesOf e mg T (depth + 1) p =
    (e.files.names p).flatMap fun n => if hidden n then []
      else if e.isDirAt (child p n) then filesOf e mg T depth (child p n)
      else emitFile e mg T p n := rfl

/-- The files have been put into the queue. -/
def ScanVars.filed (s : ScanVars) (files : List QueuedFile) : ScanVars :=
  { s with queue := s.queue ++ files }

theorem ScanVars.filed_nil (s : ScanVars) : s.filed [] = s := by simp [ScanVars.filed]

theorem ScanVars.filed_append (s : ScanVars) (k k' : List QueuedFile) :
    (s.filed k).filed k' = s.filed (k ++ k') := by simp [ScanVars.filed]

/-- **`add_upload_file` is a traversal**, where the table has every directory it comes to. -/
theorem addUploadFile_run {depth : ℕ} {s : ScanVars} (hd : (e.tree.dir p).isSome = true)
    (hdeep : Deep e.files.names e.isDirAt depth p)
    (hfit : ∀ q, Visible p q → (e.tree.entry q).isSome = true → q.length < WDQUEUE_PATH_LEN)
    (htable : ∀ q, Visible p q → (e.tree.dir q).isSome = true →
      (getWdWdByPath T q).isSome = true) (hs : s.wdList = T) :
    addUploadFile e mg depth p s = (.done (), s.filed (filesOf e mg T depth p)) := by
  induction depth generalizing p s with
  | zero => exact absurd rfl hdeep.pos
  | succ depth ih =>
    obtain ⟨i, hi⟩ := Option.isSome_iff_exists.mp hd
    obtain ⟨wd, hwd⟩ := Option.isSome_iff_exists.mp (htable p .here hd)
    have hopen : e.opendir e.files p = some (e.files.names p) := by simp [ScanEnv.opendir, hi]
    rw [addUploadFile, Start.get_bind, hs, hwd, hopen, filesOf_succ]
    have hkeep : ∀ (s : ScanVars) (k : List QueuedFile), s.wdList = T → (s.filed k).wdList = T :=
      fun _ _ h => h
    refine Start.forM_done ScanVars.filed_nil ScanVars.filed_append hkeep
      (fun n hn s' hs' => ?_) hs
    by_cases hh : hidden n = true
    · rw [if_pos hh, if_pos hh, ScanVars.filed_nil]
      rfl
    have hh' : hidden n = false := by simpa using hh
    have hlong : (child p n).length < WDQUEUE_PATH_LEN :=
      hfit _ (Visible.here.under hh') (e.files.entry hd hn hh')
    rw [if_neg hh, if_neg hh, snprintf_full hlong]
    -- a file is queued if it has the type; a directory is gone into
    by_cases hfile : e.isFile (child p n) = NEWIUP_OK
    · have hnot : ¬e.isDirAt (child p n) = true := by simp [(ScanEnv.entry_of_isFile hfile).2]
      rw [if_pos hfile, if_neg hnot, emitFile]
      by_cases htype : isMonitorType (child p n) mg.monitorFileType = NEWIUP_OK
      · obtain ⟨src, hsrc⟩ := Option.isSome_iff_exists.mp (addFileSuffixProcess_isSome htype)
        rw [if_neg (not_not.mpr htype), if_pos ⟨hfile, htype⟩, hsrc]
        simp [queued, hwd, hsrc, ScanVars.queueNodeAdd, ScanVars.filed, hs']
      · rw [if_pos htype, if_neg fun h => htype h.2, ScanVars.filed_nil]
        rfl
    · rw [if_neg hfile]
      by_cases hsub : e.isDirAt (child p n) = true
      · rw [if_pos (ScanEnv.isDir_eq_ok.mpr hsub), if_pos hsub]
        have hunder : ∀ {q}, Visible (child p n) q → Visible p q := fun hq =>
          (Visible.here.under hh').trans hq
        exact ih hsub (hdeep.child hn hh' hsub) (fun q hq => hfit q (hunder hq))
          (fun q hq => htable q (hunder hq)) hs'
      · rw [if_neg fun h => hsub (ScanEnv.isDir_eq_ok.mp h), if_neg hsub, emitFile,
          if_neg fun h => hfile h.1, ScanVars.filed_nil]
        rfl

end Files

/-! ### What the scan finds -/

section Exact

variable {e : ScanEnv root} {mg : MonitorGroup} {depth : ℕ}

theorem map_path_nodesFrom (off k : ℕ) (dirs : List Path) :
    (nodesFrom e off k dirs).map WdNode.path = dirs := by
  rw [nodesFrom, List.map_map]
  exact List.zipIdx_map_fst k dirs

theorem map_wd_nodesFrom (off k : ℕ) (dirs : List Path) :
    (nodesFrom e off k dirs).map WdNode.wd = (List.range' k dirs.length).map e.wd := by
  rw [nodesFrom, List.map_map, ← List.zipIdx_map_snd k dirs, List.map_map]
  rfl

/-- The directories of the table are the visible ones. -/
theorem mem_dirsOf (hfit : e.Fits) (hdepth : WDQUEUE_PATH_LEN ≤ depth) {p : Path} :
    p ∈ dirsOf e depth root ↔ Visible root p ∧ (e.tree.dir p).isSome = true := by
  rw [dirsOf, mem_traverse (hfit.deep e.dirs hdepth)]
  constructor
  · rintro ⟨q, hq, hp | ⟨_, _, _, _, hp⟩⟩
    · rw [List.mem_singleton.mp hp]
      exact (walked_iff_visible e.dirs).mp hq
    · cases hp
  · exact fun h => ⟨p, (walked_iff_visible e.dirs).mpr h, .inl List.mem_cons_self⟩

/-- A directory is collected at its own path. -/
theorem keyed_dirs : Keyed (fun p : Path => [p]) (fun _ _ => []) id :=
  ⟨fun p a ha => List.mem_singleton.mp ha, fun _ _ _ ha => (List.not_mem_nil ha).elim,
    fun _ => List.nodup_singleton _, fun _ _ => List.nodup_nil⟩

theorem nodup_dirsOf : (dirsOf e depth root).Nodup := by
  have h : ((dirsOf e depth root).map id).Nodup := nodup_traverse keyed_dirs e.dirs.nodup
  rwa [List.map_id] at h

/-- **The table of the scan is exact.** -/
theorem tableCovers_watched (hfit : e.Fits) (hdepth : WDQUEUE_PATH_LEN ≤ depth) :
    TableCovers e (ScanVars.empty.watched e (root.length + 1) (dirsOf e depth root)) := by
  have hpaths := map_path_nodesFrom (e := e) (root.length + 1) 0 (dirsOf e depth root)
  refine ⟨fun p => ?_, ?_, rfl, ?_, fun node hnode hne => ?_⟩
  · rw [← mem_dirsOf hfit hdepth]
    exact iff_of_eq (congrArg (p ∈ ·) hpaths)
  · exact (congrArg List.Nodup hpaths).mpr nodup_dirsOf
  · have hwds := map_wd_nodesFrom (e := e) (root.length + 1) 0 (dirsOf e depth root)
    exact hwds ▸ List.Nodup.map e.wd_inj List.nodup_range'
  · have hmem : node.path ∈ dirsOf e depth root := hpaths ▸ List.mem_map_of_mem hnode
    have hoff : node.suboffset = root.length + 1 := by
      obtain ⟨d, -, rfl⟩ := List.mem_map.mp hnode
      rfl
    rcases ((mem_dirsOf hfit hdepth).mp hmem).1.within with he | ⟨rest, hrest⟩
    · exact absurd he hne
    · rw [WdNode.subpath, hoff, ← hrest, ← List.drop_drop, List.append_assoc, List.drop_left]
      rfl

/-- The lookups find the nodes of an exact table. -/
theorem TableCovers.lookup {s : ScanVars} (h : TableCovers e s) {node : WdNode}
    (hn : node ∈ s.wdList) : getWdWdByPath s.wdList node.path = some node.wd ∧
      getWdSubpathByWd s.wdList node.wd = some node.subpath := by
  constructor
  · rw [getWdWdByPath, (find_key WdNode.path h.once).mpr ⟨hn, rfl⟩]
    rfl
  · rw [getWdSubpathByWd, (getWdByWd_eq_some h.wds).mpr ⟨hn, rfl⟩]
    rfl

/-- What a directory of an exact table adds to the queue. -/
theorem mem_emitFile {s : ScanVars} (h : TableCovers e s) {node : WdNode} (hn : node ∈ s.wdList)
    {n : Name} {f : QueuedFile} (hh : hidden n = false) :
    f ∈ emitFile e mg s.wdList node.path n ↔ NodeOf e mg node n f := by
  obtain ⟨hwd, hsub⟩ := h.lookup hn
  unfold emitFile
  constructor
  · intro hf
    split at hf
    · next hok =>
      obtain ⟨src, hsrc⟩ := Option.isSome_iff_exists.mp (addFileSuffixProcess_isSome hok.2)
      rw [List.mem_singleton.mp hf]
      exact ⟨hh, hok.1, hok.2, by simp [queued, hwd], rfl, by simp [queued, hsrc],
        by simp [queued, hwd, hsub]⟩
    · cases hf
  · rintro ⟨-, hfile, htype, hfwd, hfm, hfsrc, hfsub⟩
    rw [if_pos ⟨hfile, htype⟩, List.mem_singleton, queued, hwd, hfsrc]
    obtain ⟨wd, monitorfile, src, upSubpath⟩ := f
    cases hfwd
    cases hfm
    rw [Option.getD_some, Option.getD_some, hsub, ← hfsub]
    rfl

/-- The files of the queue are those of the directories of the table. -/
theorem mem_filesOf (hfit : e.Fits) (hdepth : WDQUEUE_PATH_LEN ≤ depth) {s : ScanVars}
    (h : TableCovers e s) {f : QueuedFile} : f ∈ filesOf e mg s.wdList depth root ↔
      ∃ node ∈ s.wdList, ∃ n, NodeOf e mg node n f := by
  rw [filesOf, mem_traverse (hfit.deep e.files hdepth)]
  constructor
  · rintro ⟨q, hq, hf | ⟨n, -, hh, -, hf⟩⟩
    · cases hf
    · obtain ⟨node, hn, rfl⟩ := List.mem_map.mp
        ((h.dirs q).mpr ((walked_iff_visible e.files).mp hq))
      exact ⟨node, hn, n, (mem_emitFile h hn hh).mp hf⟩
  · rintro ⟨node, hn, n, hf⟩
    have hdir := (h.dirs _).mp (List.mem_map_of_mem hn)
    obtain ⟨hentry, hnot⟩ := ScanEnv.entry_of_isFile hf.file
    exact ⟨node.path, (walked_iff_visible e.files).mpr hdir, .inr ⟨n, e.files.mem hdir.2 hentry,
      hf.visible, hnot, (mem_emitFile h hn hf.visible).mpr hf⟩⟩

theorem nodup_filesOf {T : Wdqueue} :
    ((filesOf e mg T depth root).map QueuedFile.monitorfile).Nodup := by
  refine nodup_traverse ⟨fun _ _ ha => (List.not_mem_nil ha).elim, fun p n f hf => ?_,
    fun _ => List.nodup_nil, fun p n => ?_⟩ e.files.nodup
  · unfold emitFile at hf
    split at hf
    · rw [List.mem_singleton.mp hf]
      rfl
    · cases hf
  · unfold emitFile
    split
    · exact List.nodup_singleton _
    · exact List.nodup_nil

/-- An exact table has every directory that is not hidden. -/
theorem TableCovers.lookup_isSome {s : ScanVars} (h : TableCovers e s) {q : Path}
    (hv : Visible root q) (hd : (e.tree.dir q).isSome = true) :
    (getWdWdByPath s.wdList q).isSome = true := by
  obtain ⟨node, hn, rfl⟩ := List.mem_map.mp ((h.dirs q).mpr ⟨hv, hd⟩)
  rw [(h.lookup hn).1]
  rfl

/-- The variables after `add_monitor_dir`. -/
def ScanVars.table (e : ScanEnv root) (depth : ℕ) : ScanVars :=
  ScanVars.empty.watched e (root.length + 1) (dirsOf e depth root)

theorem dir_root_isSome (t : Tree root) : (t.dir root).isSome = true := by
  obtain ⟨i, hi⟩ := t.exists_dir_root
  rw [hi]
  rfl

/-- **The scan is two traversals**, the second with the table of the first. -/
theorem startScan_run (e : ScanEnv root) (mg : MonitorGroup) (hfit : e.Fits)
    (hdepth : WDQUEUE_PATH_LEN ≤ depth) :
    startScan e mg depth ScanVars.empty = (.done (), (ScanVars.table e depth).filed
      (filesOf e mg (ScanVars.table e depth).wdList depth root)) := by
  have htable : TableCovers e (ScanVars.table e depth) := tableCovers_watched hfit hdepth
  have hdirs : addMonitorDir e depth root none ScanVars.empty =
      (.done (), ScanVars.table e depth) :=
    addMonitorDir_run (dir_root_isSome e.tree) (hfit.deep e.dirs hdepth) hfit
  rw [startScan, Start.bind_of_done hdirs]
  exact addUploadFile_run (dir_root_isSome e.tree) (hfit.deep e.files hdepth) hfit
    (fun q => htable.lookup_isSome) rfl

/-- **The scan covers the tree exactly.**  On a tree without symbolic links that nobody
changes, whose paths fit the buffers, `add_monitor_dir` and `add_upload_file` return; then
the table has one node for each visible directory, and the queue one for each visible file
of the group's type. -/
theorem startScan_exact (e : ScanEnv root) (mg : MonitorGroup) (hfit : e.Fits)
    (hdepth : WDQUEUE_PATH_LEN ≤ depth) :
    ∃ s, startScan e mg depth ScanVars.empty = (.done (), s) ∧ TableCovers e s ∧
      QueueCovers e mg s := by
  have htable : TableCovers e (ScanVars.table e depth) := tableCovers_watched hfit hdepth
  refine ⟨_, startScan_run e mg hfit hdepth,
    ⟨htable.dirs, htable.once, htable.watches, htable.wds, htable.subpath⟩, fun f => ?_, ?_⟩
  · exact mem_filesOf hfit hdepth htable
  · exact nodup_filesOf

end Exact

/-! ### A scan -/

/-- The entry of a directory for itself. -/
def dotName : Name := ⟨".".toList, by decide⟩

/-- The entry of a directory for the one it lies in. -/
def dotDotName : Name := ⟨"..".toList, by decide⟩

/-- The entries in the order of the tree, after `.` and `..`. -/
def Listing.ofTree (tree : Tree root) : Listing tree where
  names := fun p =>
    ((tree.dir p).elim [] fun i => dotName :: dotDotName :: tree.names i).dedup
  nodup := fun _ => List.nodup_dedup _
  mem_iff := by
    intro p i n hi
    rw [hi, Option.elim, List.mem_dedup, List.mem_cons, List.mem_cons, Tree.mem_names hi]
    have hname : ∀ m : Name, n = m ↔ n.1 = m.1 := fun m => Subtype.ext_iff
    rw [hname, hname]
    rfl

/-- The directory `/m` with the directory `/m/s`. -/
def scanDirs : Tree "/m".toList :=
  .make (.base _) "/m".toList ⟨"s".toList, by decide⟩ true (by decide) (by decide)

/-- The directory `/m/s` with the file `/m/s/b.c`. -/
def scanTree : Tree "/m".toList :=
  .make scanDirs "/m/s".toList ⟨"b.c".toList, by decide⟩ false (by decide) (by decide)

/-- Nothing special on this disk. -/
def scanSample : ScanEnv "/m".toList where
  tree := scanTree
  special := fun _ => false
  dirs := .ofTree _
  files := .ofTree _
  wd := fun k => 2 * k + 5
  wd_inj := fun j k h => by dsimp only at h; omega

theorem scanSample_fits : scanSample.Fits := by
  intro p _ hp
  have hall : ∀ q ∈ scanTree.entries.keys, q.length < WDQUEUE_PATH_LEN := by decide +kernel
  exact hall p (AList.lookup_isSome.mp hp)

/-- The theorem where a directory holds a file. -/
theorem startScan_exact_nested :
    ∃ s, startScan scanSample (moveGroup .cut) WDQUEUE_PATH_LEN ScanVars.empty = (.done (), s) ∧
      s.wdList = [⟨5, "/m".toList, 3⟩, ⟨7, "/m/s".toList, 3⟩] ∧
      s.queue = [⟨7, "/m/s/b.c".toList, "/m/s/b".toList, some "s".toList⟩] ∧
      TableCovers scanSample s ∧ QueueCovers scanSample (moveGroup .cut) s := by
  obtain ⟨s, hs, htable, hqueue⟩ :=
    startScan_exact scanSample (moveGroup .cut) scanSample_fits le_rfl
  have hrun : (startScan scanSample (moveGroup .cut) WDQUEUE_PATH_LEN ScanVars.empty).2.wdList =
      [⟨5, "/m".toList, 3⟩, ⟨7, "/m/s".toList, 3⟩] ∧
      (startScan scanSample (moveGroup .cut) WDQUEUE_PATH_LEN ScanVars.empty).2.queue =
      [⟨7, "/m/s/b.c".toList, "/m/s/b".toList, some "s".toList⟩] := by
    decide +kernel
  rw [hs] at hrun
  exact ⟨s, hs, hrun.1, hrun.2, htable, hqueue⟩

end Newiup
