import Newiup.Config
import Newiup.Tree
import Mathlib.Data.List.Nodup

/-!
# The table of watched directories

The `Wdqueue` of a monitor group and the events of the inotify instance.  The
lookups take the first node that fits; where no two nodes agree in the key, that is
the only one.

The kernel names directories by the numbers of their watches and the code names them by
paths; the table translates in both directions.  With two nodes for one number the first
hides the second, and what is looked up is then the path of another directory.  So every
invariant of the table says in some form that this does not happen.

## Main definitions

* `WdNode`, `Wdqueue`, with `getWdByWd`, `getWdPathByWd`, `getWdSubpathByWd`,
  `getWdWdByPath` and the removal in `delMonitorDir`.
* `Event`, `Event.adds`, `Event.drops` — events, and the ones that change the table.
* `eventPath` — the path the event loop makes of an event.

## Main results

* `getWdPathByWd_eq_some`, `getWdWdByPath_isSome`, `mem_delMonitorDir` — **what the
  lookups and the removal do** on a table without repetitions.
-/

namespace Newiup

/-- `WDQUEUE_PATH_LEN`. -/
def WDQUEUE_PATH_LEN : ℕ := 512

/-- `wd_node_t`. -/
structure WdNode where
  /-- The number of the watch. -/
  wd : ℕ
  /-- The directory. -/
  path : Path
  /-- Where `subpath` starts in `path`. -/
  suboffset : ℕ
  deriving DecidableEq, Repr

/-- `subpath`.  For the monitored directory itself it points behind the end of
`path`, which is read as the empty string here. -/
def WdNode.subpath (node : WdNode) : CString := node.path.drop node.suboffset

/-- `wd_queue_t`. -/
abbrev Wdqueue := List WdNode

/-- `get_wd_by_wd`. -/
def getWdByWd (head : Wdqueue) (wd : ℕ) : Option WdNode := head.find? fun node => node.wd == wd

/-- `get_wd_path_by_wd`. -/
def getWdPathByWd (head : Wdqueue) (wd : ℕ) : Option Path := (getWdByWd head wd).map WdNode.path

/-- `get_wd_subpath_by_wd`. -/
def getWdSubpathByWd (head : Wdqueue) (wd : ℕ) : Option CString :=
  (getWdByWd head wd).map WdNode.subpath

/-- `get_wd_wd_by_path`; `none` is `NEWIUP_FAIL`. -/
def getWdWdByPath (head : Wdqueue) (path : Path) : Option ℕ :=
  (head.find? fun node => node.path == path).map WdNode.wd

/-- The node `del_monitor_dir` takes out. -/
def delNode (head : Wdqueue) (path : Path) : Option WdNode :=
  head.find? fun node => node.path == path

/-- What `del_monitor_dir` leaves of the table. -/
def delMonitorDir (head : Wdqueue) (path : Path) : Wdqueue :=
  head.eraseP fun node => node.path == path

section Lookups

variable {κ : Type} [BEq κ] [LawfulBEq κ] {T : Wdqueue} {node m : WdNode} {w : ℕ} {p : Path}

theorem node_eq_of_wd (h : (T.map WdNode.wd).Nodup) (hn : node ∈ T) (hm : m ∈ T)
    (he : node.wd = m.wd) : node = m := List.inj_on_of_nodup_map h hn hm he

theorem node_eq_of_path (h : (T.map WdNode.path).Nodup) (hn : node ∈ T) (hm : m ∈ T)
    (he : node.path = m.path) : node = m := List.inj_on_of_nodup_map h hn hm he

/-- Where no two nodes agree in the key, the first that fits is the only one. -/
theorem find_key (key : WdNode → κ) {k : κ} (h : (T.map key).Nodup) :
    (T.find? fun m => key m == k) = some node ↔ node ∈ T ∧ key node = k := by
  constructor
  · intro hf
    exact ⟨List.mem_of_find?_eq_some hf, by simpa using List.find?_some hf⟩
  · rintro ⟨hn, rfl⟩
    cases hf : T.find? fun m => key m == key node with
    | none => exact absurd (List.find?_eq_none.mp hf node hn) (by simp)
    | some m =>
      have hm : key m = key node := by simpa using List.find?_some hf
      rw [List.inj_on_of_nodup_map h (List.mem_of_find?_eq_some hf) hn hm]

theorem getWdByWd_eq_some (h : (T.map WdNode.wd).Nodup) :
    getWdByWd T w = some node ↔ node ∈ T ∧ node.wd = w := find_key WdNode.wd h

theorem delNode_eq_some (h : (T.map WdNode.path).Nodup) :
    delNode T p = some node ↔ node ∈ T ∧ node.path = p := find_key WdNode.path h

/-- **A watch has the path of its only node.** -/
theorem getWdPathByWd_eq_some (h : (T.map WdNode.wd).Nodup) :
    getWdPathByWd T w = some p ↔ ∃ node ∈ T, node.wd = w ∧ node.path = p := by
  unfold getWdPathByWd
  rw [Option.map_eq_some_iff]
  simp only [getWdByWd_eq_some h, and_assoc]

theorem getWdWdByPath_isSome (hn : node ∈ T) : ∃ w, getWdWdByPath T node.path = some w := by
  cases hf : T.find? fun m => m.path == node.path with
  | none => exact absurd (List.find?_eq_none.mp hf node hn) (by simp)
  | some m => exact ⟨m.wd, by rw [getWdWdByPath, hf]; rfl⟩

theorem delNode_eq_none : delNode T p = none ↔ ∀ node ∈ T, node.path ≠ p := by
  unfold delNode
  rw [List.find?_eq_none]
  simp

theorem delMonitorDir_sublist (T : Wdqueue) (p : Path) : (delMonitorDir T p).Sublist T :=
  List.eraseP_sublist

/-- **The removal takes out the node of the path**, where there is one only. -/
theorem mem_delMonitorDir (h : (T.map WdNode.path).Nodup) :
    node ∈ delMonitorDir T p ↔ node ∈ T ∧ node.path ≠ p := by
  unfold delMonitorDir
  induction T with
  | nil => simp
  | cons m T ih =>
    rw [List.map_cons, List.nodup_cons] at h
    by_cases hm : m.path = p
    · rw [List.eraseP_cons_of_pos (by simpa using hm), List.mem_cons]
      constructor
      · intro hn
        refine ⟨Or.inr hn, fun he => h.1 ?_⟩
        rw [hm, ← he]
        exact List.mem_map_of_mem hn
      · rintro ⟨rfl | hn, hp⟩
        · exact absurd hm hp
        · exact hn
    · rw [List.eraseP_cons_of_neg (by simpa using hm), List.mem_cons, ih h.2, List.mem_cons]
      constructor
      · rintro (rfl | hn)
        · exact ⟨Or.inl rfl, hm⟩
        · exact ⟨Or.inr hn.1, hn.2⟩
      · rintro ⟨rfl | hn, hp⟩
        · exact Or.inl rfl
        · exact Or.inr ⟨hn, hp⟩

end Lookups

/-! ### Events -/

/-- The masks of the events an inotify instance delivers to the daemon. -/
inductive EventKind
  | create
  | delete
  | deleteSelf
  | movedFrom
  | movedTo
  | ignored
  deriving DecidableEq, Repr

/-- `inotify_event`; there is no name where `len` is 0. -/
structure Event where
  /-- The watch. -/
  wd : ℕ
  /-- The mask. -/
  kind : EventKind
  /-- `IN_ISDIR`. -/
  isDir : Bool
  /-- The entry of the watched directory. -/
  name : Option Name
  deriving DecidableEq

/-- `IN_CREATE` or `IN_MOVED_TO`. -/
def EventKind.appears : EventKind → Bool
  | create => true
  | movedTo => true
  | _ => false

/-- `IN_DELETE`, `IN_DELETE_SELF` or `IN_MOVED_FROM`. -/
def EventKind.vanishes : EventKind → Bool
  | delete => true
  | deleteSelf => true
  | movedFrom => true
  | _ => false

/-- The event is one of a new directory. -/
def Event.adds (e : Event) : Bool := e.isDir && e.kind.appears

/-- The event is one of a directory that is gone. -/
def Event.drops (e : Event) : Bool := e.isDir && e.kind.vanishes

/-- What `snprintf` prints for a null pointer. -/
def nullString : CString := "(null)".toList

/-- The path the event loop makes of an event. -/
def eventPath (head : Wdqueue) (wd : ℕ) (n : Name) : Path :=
  snprintf NEWIUP_PATH_LEN (child ((getWdPathByWd head wd).getD nullString) n)

theorem snprintf_full {s : CString} (h : s.length < WDQUEUE_PATH_LEN) :
    snprintf NEWIUP_PATH_LEN s = s :=
  snprintf_of_lt (h.trans (by decide))

end Newiup
