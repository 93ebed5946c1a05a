import Newiup.System
import Newiup.Watch.Table

/-!
# The monitor thread

`monitor_handle` of one monitor group beside the processes that change the
monitored tree.  A step is one call into the kernel of either side, so that the
tree may change between any two calls of the thread.

The recursions of `add_monitor_dir` and `add_upload_file` are kept as stacks of open
directories; where nothing moves in between they are the functions of `Newiup.Watch.Startup`.
An inotify instance gives a watched directory its number again and any other directory a
number it has not used; a watch stays with its directory across renames, and events are read
in the order of the operations.

## Main definitions

* `MonitorState`, `MonitorPc` — the tree, the inotify instance, and where the thread is.
* `MonitorState.mkdir`, `.create`, `.unlink`, `.rmdir`, `.rename` — the operations of
  the other processes, with the events they cause.
* `MonitorState.dirsStep` — `add_monitor_dir`; `MonitorState.filesStep` —
  `add_upload_file`; `MonitorState.innerStep` — one event.
* `monitorSystem` — the transition system.
-/

namespace Newiup

/-! ### Where the thread is -/

/-- An open directory stream.  It returns every name that was there when it was opened
and still is, and it may return any other name that is or was there meanwhile. -/
structure Stream where
  /-- The directory. -/
  id : ℕ
  /-- The names when it was opened. -/
  opened : List Name
  /-- The names returned. -/
  seen : List Name

/-- The stream after it has returned a name. -/
def Stream.next (st : Stream) (n : Name) : Stream := { st with seen := n :: st.seen }

/-- A call of `add_monitor_dir` that has opened its directory. -/
structure DirsFrame where
  /-- `node`. -/
  node : WdNode
  /-- `pdir`. -/
  stream : Stream

/-- What `add_monitor_dir` calls next. -/
inductive DirsPos
  | watch (path : Path) (fnode : Option WdNode)
  | opendir (node : WdNode)
  | readdir
  | isDir (fullpath : Path)

/-- A call of `add_upload_file` that has opened its directory. -/
structure FilesFrame where
  /-- `path`. -/
  path : Path
  /-- `wd`. -/
  wd : ℕ
  /-- `pdir`. -/
  stream : Stream

/-- What `add_upload_file` calls next. -/
inductive FilesPos
  | opendir (path : Path)
  | readdir
  | isFile (monitorfile : Path)
  | isDir (monitorfile : Path)

/-- Where `monitor_handle` is; a scan of directories for `top` is followed by one of
its files. -/
inductive MonitorPc
  | dirs (top : Path) (frames : List DirsFrame) (pos : DirsPos)
  | files (top : Path) (frames : List FilesFrame) (pos : FilesPos)
  | loop
  | inner
  | check
  | exited
  | stopped

/-- A file given to `queue_node_add`. -/
structure QueuedFile where
  /-- `wd`. -/
  wd : ℕ
  /-- `monitorfile`. -/
  monitorfile : Path
  /-- `src`. -/
  src : Path
  /-- `up_subpath`. -/
  upSubpath : Option CString
  deriving DecidableEq

/-- The monitored tree, the inotify instance and the monitor thread.  It is the state of one
group: its tree with the processes that change it, the kernel's side of inotify, and the thread
with its table and its scans. -/
structure MonitorState (root : Path) where
  /-- The tree. -/
  tree : Tree root
  /-- The watch on a directory. -/
  watch : ℕ → Option ℕ
  /-- The next new watch. -/
  nextWd : ℕ
  /-- The events not read yet. -/
  events : List Event
  /-- The events in `buffer` from `offset` on. -/
  buffer : List Event
  /-- `wd_list`. -/
  wdList : Wdqueue
  /-- Where the thread is. -/
  pc : MonitorPc
  /-- The files queued. -/
  queue : List QueuedFile
  /-- `get_monitor_run_signal() == NEWIUP_OK`. -/
  run : Bool

/-- What happens next. -/
inductive MonitorAct
  | mkdir (p : Path) (n : Name)
  | create (p : Path) (n : Name)
  | unlink (p : Path) (n : Name)
  | rmdir (p : Path) (n : Name)
  | rename (p : Path) (n : Name) (q : Path) (m : Name)
  | signal
  /-- The thread goes on. -/
  | monitor
  /-- `readdir` returns a name or the end. -/
  | readdir (n : Option Name)
  /-- `read` returns so many events. -/
  | read (k : ℕ)

namespace MonitorState

variable {root : Path}

/-! ### The other processes -/

/-- The event on the entry `n` of the directory at `p`, where it is watched. -/
def notices (s : MonitorState root) (p : Path) (kind : EventKind) (isDir : Bool) (n : Name) :
    List Event :=
  match (s.tree.dir p).bind s.watch with
  | some w => [⟨w, kind, isDir, some n⟩]
  | none => []

/-- The events on a directory that is removed.  They have no name, so that the thread passes
over them; `IN_ISDIR` is not set in them. -/
def farewell (s : MonitorState root) (i : ℕ) : List Event :=
  match s.watch i with
  | some w => [⟨w, .deleteSelf, false, none⟩, ⟨w, .ignored, false, none⟩]
  | none => []

/-- `mkdir`. -/
def mkdir (s : MonitorState root) (p : Path) (n : Name) : Option (MonitorState root) :=
  if h : (s.tree.dir p).isSome = true ∧ s.tree.entry (child p n) = none then
    some { s with
      tree := s.tree.make p n true h.1 h.2
      events := s.events ++ s.notices p .create true n }
  else
    none

/-- A new regular file. -/
def create (s : MonitorState root) (p : Path) (n : Name) : Option (MonitorState root) :=
  if h : (s.tree.dir p).isSome = true ∧ s.tree.entry (child p n) = none then
    some { s with
      tree := s.tree.make p n false h.1 h.2
      events := s.events ++ s.notices p .create false n }
  else
    none

/-- `unlink` of a regular file. -/
def unlink (s : MonitorState root) (p : Path) (n : Name) : Option (MonitorState root) :=
  match h : s.tree.entry (child p n) with
  | some ⟨false, _⟩ =>
      some { s with
        tree := s.tree.remove (child p n) (Tree.leaf_of_file h).1 (Tree.leaf_of_file h).2
        events := s.events ++ s.notices p .delete false n }
  | _ => none

/-- `rmdir`; the watch goes with the directory.  Kernels differ in whether the events on the
directory itself come before the one on its entry or behind it, as here: what the thread does
is the same, since it passes over them wherever they stand. -/
def rmdir (s : MonitorState root) (p : Path) (n : Name) : Option (MonitorState root) :=
  match s.tree.dir (child p n) with
  | some i =>
      if h : child p n ≠ root ∧ s.tree.Leaf (child p n) then
        some { s with
          tree := s.tree.remove (child p n) h.1 h.2
          watch := Function.update s.watch i none
          events := s.events ++ (s.notices p .delete true n ++ s.farewell i) }
      else
        none
  | none => none

/-- `rename` to a name that is free. -/
def renameFree (s : MonitorState root) (p : Path) (n : Name) (q : Path) (m : Name) :
    Option (MonitorState root) :=
  if h : s.tree.CanMove (child p n) q m then
    let isDir := (s.tree.dir (child p n)).isSome
    some { s with
      tree := s.tree.move (child p n) q m h
      events := s.events ++ (s.notices p .movedFrom isDir n ++ s.notices q .movedTo isDir m) }
  else
    none

/-- The entry a `rename` replaces is taken away without an event on its directory. -/
def replaced (s : MonitorState root) (q : Path) (m : Name) : Option (MonitorState root) :=
  if h : child q m ≠ root ∧ s.tree.Leaf (child q m) then
    let tree := s.tree.remove (child q m) h.1 h.2
    match s.tree.dir (child q m) with
    | some i =>
        some { s with
          tree := tree
          watch := Function.update s.watch i none
          events := s.events ++ s.farewell i }
    | none => some { s with tree := tree }
  else
    none

/-- `rename`: a directory may replace an empty directory, a file a file. -/
def rename (s : MonitorState root) (p : Path) (n : Name) (q : Path) (m : Name) :
    Option (MonitorState root) :=
  match s.tree.entry (child q m) with
  | none => s.renameFree p n q m
  | some f =>
      if child p n ≠ child q m ∧ ((s.tree.entry (child p n)).map Entry.isDir) = some f.isDir then
        (s.replaced q m).bind fun s' => s'.renameFree p n q m
      else
        none

/-! ### The calls of the thread -/

/-- `inotify_add_watch`: the watch, and the instance with it. -/
def inotifyAddWatch (s : MonitorState root) (path : Path) : Option (ℕ × MonitorState root) :=
  (s.tree.entry path).map fun e =>
    match s.watch e.id with
    | some w => (w, s)
    | none => (s.nextWd, { s with
        watch := Function.update s.watch e.id (some s.nextWd)
        nextWd := s.nextWd + 1 })

/-- The text is the path of a directory with a slash behind it.  `stat` finds the directory,
though no entry of the tree has that path. -/
def slashed (s : MonitorState root) (path : Path) : Bool :=
  path.getLast? == some '/' && (s.tree.dir path.dropLast).isSome

/-- `inotify_rm_watch`. -/
def inotifyRmWatch (s : MonitorState root) (w : ℕ) : MonitorState root :=
  { s with
    watch := fun i => if s.watch i = some w then none else s.watch i
    events := s.events ++ [⟨w, .ignored, false, none⟩] }

/-- `opendir`. -/
def opendir (s : MonitorState root) (path : Path) : Option Stream :=
  (s.tree.dir path).map fun i => ⟨i, s.tree.names i, []⟩

/-- The stream may return the name. -/
def Returns (s : MonitorState root) (st : Stream) (n : Name) : Prop :=
  n ∉ st.seen ∧ (n ∈ st.opened ∨ n ∈ s.tree.names st.id)

/-- The stream may return the end: every name that was there all the time has been
returned. -/
def Ends (s : MonitorState root) (st : Stream) : Prop :=
  ∀ n ∈ st.opened, n ∈ s.tree.names st.id → n ∈ st.seen

instance (s : MonitorState root) (st : Stream) (n : Name) : Decidable (s.Returns st n) :=
  inferInstanceAs (Decidable (_ ∧ _))

instance (s : MonitorState root) (st : Stream) : Decidable (s.Ends st) :=
  inferInstanceAs (Decidable (∀ n ∈ st.opened, _))

/-- `is_monitor_type`, `add_file_suffix_process` and `queue_node_add`. -/
def queueNodeAdd (s : MonitorState root) (mg : MonitorGroup) (wd : ℕ) (monitorfile : Path) :
    MonitorState root :=
  if h : isMonitorType monitorfile mg.monitorFileType = NEWIUP_OK then
    let src := (addFileSuffixProcess mg monitorfile).get (addFileSuffixProcess_isSome h)
    { s with queue := s.queue ++ [⟨wd, monitorfile, src, getWdSubpathByWd s.wdList wd⟩] }
  else
    s

/-! ### The thread -/

/-- `add_monitor_dir`. -/
def dirsStep (s : MonitorState root) (top : Path) (frames : List DirsFrame) :
    DirsPos → MonitorAct → Option (MonitorState root)
  | .watch path fnode, .monitor =>
      match s.inotifyAddWatch path with
      | none => some { s with pc := .exited } -- exit(-1)
      | some (wd, s') =>
          -- the node is appended without a look at the table
          let suboffset := match fnode with
            | none => path.length + 1
            | some fnode => fnode.suboffset
          let node : WdNode := ⟨wd, path, suboffset⟩
          some { s' with
            wdList := s'.wdList ++ [node]
            pc := .dirs top frames (.opendir node) }
  | .opendir node, .monitor =>
      match s.opendir node.path with
      | none => some { s with pc := .exited } -- exit(-1)
      | some pdir => some { s with pc := .dirs top (⟨node, pdir⟩ :: frames) .readdir }
  | .readdir, .readdir (some n) =>
      match frames with
      | [] => none
      | f :: fs =>
          let fullpath := snprintf WDQUEUE_PATH_LEN (child f.node.path n)
          let pos : DirsPos := if hidden n then .readdir else .isDir fullpath
          if s.Returns f.stream n then
            some { s with pc := .dirs top (⟨f.node, f.stream.next n⟩ :: fs) pos }
          else
            none
  | .readdir, .readdir none =>
      match frames with
      | [] => none
      | f :: fs =>
          if s.Ends f.stream then
            -- the outermost call returns, and add_upload_file is called for top
            some { s with pc :=
              if fs.isEmpty then .files top [] (.opendir top) else .dirs top fs .readdir }
          else
            none
  | .isDir fullpath, .monitor =>
      if (s.tree.dir fullpath).isSome then
        let pos : DirsPos := .watch fullpath (frames.head?.map DirsFrame.node)
        some { s with pc := .dirs top frames pos }
      else if s.slashed fullpath then
        -- The path of an entry was cut right behind the slash.  add_monitor_dir calls itself
        -- for the directory it is in, each time with one stream more open, until opendir
        -- fails: exit(-1)
        some { s with pc := .exited }
      else
        some { s with pc := .dirs top frames .readdir }
  | _, _ => none

/-- `add_upload_file`.  It is followed by a test of the run signal, at start-up by the
one of the outer loop. -/
def filesStep (s : MonitorState root) (mg : MonitorGroup) (top : Path) (frames : List FilesFrame) :
    FilesPos → MonitorAct → Option (MonitorState root)
  | .opendir path, .monitor =>
      match getWdWdByPath s.wdList path, s.opendir path with
      | some wd, some pdir => some { s with pc := .files top (⟨path, wd, pdir⟩ :: frames) .readdir }
      | _, _ => some { s with pc := .exited } -- exit(-1), for either
  | .readdir, .readdir (some n) =>
      match frames with
      | [] => none
      | f :: fs =>
          let monitorfile := snprintf NEWIUP_PATH_LEN (child f.path n)
          let pos : FilesPos := if hidden n then .readdir else .isFile monitorfile
          if s.Returns f.stream n then
            some { s with pc := .files top (⟨f.path, f.wd, f.stream.next n⟩ :: fs) pos }
          else
            none
  | .readdir, .readdir none =>
      match frames with
      | [] => none
      | f :: fs =>
          if s.Ends f.stream then
            some { s with pc := if fs.isEmpty then .check else .files top fs .readdir }
          else
            none
  | .isFile monitorfile, .monitor =>
      match frames, s.tree.entry monitorfile with
      | f :: _, some ⟨false, _⟩ =>
          some { s.queueNodeAdd mg f.wd monitorfile with pc := .files top frames .readdir }
      | _, _ => some { s with pc := .files top frames (.isDir monitorfile) }
  | .isDir monitorfile, .monitor =>
      let pos : FilesPos :=
        if (s.tree.dir monitorfile).isSome then .opendir monitorfile else .readdir
      some { s with pc := .files top frames pos }
  | _, _ => none

/-- `del_monitor_dir`. -/
def delMonitorDir (s : MonitorState root) (path : Path) : MonitorState root :=
  match delNode s.wdList path with
  | some node =>
      { s.inotifyRmWatch node.wd with wdList := Newiup.delMonitorDir s.wdList path }
  | none => s

/-- One event of the buffer.  The advance of `offset` is made first: nothing reads it in
between. -/
def innerStep (s : MonitorState root) (mg : MonitorGroup) : MonitorState root :=
  match s.buffer with
  | [] => { s with pc := .loop }
  | e :: es =>
      match e.name with
      | none => { s with buffer := es } -- continue
      | some n =>
          let monitorfile := eventPath s.wdList e.wd n
          let isFile := (s.tree.entry monitorfile).map Entry.isDir = some false
          if isFile ∧ e.kind.appears = true then
            if isMonitorType monitorfile mg.monitorFileType ≠ NEWIUP_OK then
              { s with buffer := es } -- continue, past the test of the run signal
            else
              { s.queueNodeAdd mg e.wd monitorfile with buffer := es, pc := .check }
          else if e.adds then
            { s with
              buffer := es
              pc := .dirs monitorfile [] (.watch monitorfile (getWdByWd s.wdList e.wd)) }
          else if e.drops then
            { s.delMonitorDir monitorfile with buffer := es, pc := .check }
          else
            { s with buffer := es, pc := .check }

/-- A step of `monitor_handle`. -/
def threadStep (s : MonitorState root) (mg : MonitorGroup) (act : MonitorAct) :
    Option (MonitorState root) :=
  match s.pc, act with
  | .dirs top frames pos, act => s.dirsStep top frames pos act
  | .files top frames pos, act => s.filesStep mg top frames pos act
  | .loop, .monitor => if s.run then none else some { s with pc := .stopped }
  | .loop, .read k =>
      if s.run ∧ 0 < k ∧ k ≤ s.events.length then
        some { s with events := s.events.drop k, buffer := s.events.take k, pc := .inner }
      else
        none
  | .inner, .monitor => some (s.innerStep mg)
  | .check, .monitor => some { s with pc := if s.run then .inner else .stopped }
  | _, _ => none

/-- A step of the system. -/
def step (mg : MonitorGroup) (s : MonitorState root) : MonitorAct → Option (MonitorState root)
  | .mkdir p n => s.mkdir p n
  | .create p n => s.create p n
  | .unlink p n => s.unlink p n
  | .rmdir p n => s.rmdir p n
  | .rename p n q m => s.rename p n q m
  | .signal => some { s with run := false }
  | act => s.threadStep mg act

/-- The thread is started on a tree. -/
def boot (tree : Tree root) : MonitorState root where
  tree := tree
  watch := fun _ => none
  nextWd := 1
  events := []
  buffer := []
  wdList := []
  pc := .dirs root [] (.watch root none)
  queue := []
  run := true

end MonitorState

/-- The monitor thread of the group `mg`, for the directory `root`. -/
def monitorSystem (root : Path) (mg : MonitorGroup) : System (MonitorState root) MonitorAct where
  init := fun s => ∃ tree : Tree root, s = .boot tree
  step := MonitorState.step mg

end Newiup
