import Newiup.StateNames
import Newiup.Watch.Steps

/-!
# State files as input

The daemon writes its state files into the directories it watches.  They are told from
the input by the type of the monitor files, the text after the last dot of the path: a
state path has more behind it.  The names of the monitor group and of the server are
free, though, and a dot in one of them may give the state file the type again.

## Main definitions

* `statePaths` — the state files of a monitor file.
* `Spawned` — the state files of a file, of its state files that pass for input, and so on.
* `NeverInput` — no state file of a file passes for input.
* `SuffixesApart` — nothing that is appended to a monitor file has the type.

## Main results

* `never_input_iff` — **the state files are never taken for input exactly when no suffix,
  as far as it fits, has the type of the monitor files.**
-/

namespace Newiup

/-- The files `create_upload_state_file` makes for a monitor file.  They lie beside the monitor
file, so that the scan and the events come to them as they come to any other file. -/
def statePaths (mg : MonitorGroup) (m : Path) : List Path :=
  mg.serverGroupList.map (fun sg => flagPath m mg.name sg.primeName) ++
    [getUploadFileKByMonitorfile m]

/-- The files that come from the state files of `m` when each of them that passes for a
monitor file gets its own. -/
inductive Spawned (mg : MonitorGroup) (m : Path) : Path → Prop
  | state {p : Path} (h : p ∈ statePaths mg m) : Spawned mg m p
  | next {p q : Path} (h : Spawned mg m p)
      (htype : isMonitorType p mg.monitorFileType = NEWIUP_OK) (hq : q ∈ statePaths mg p) :
      Spawned mg m q

/-- **The state files of `m` are never taken for input**: none has the type, so that none
gets state files of its own, and none is ever in the queue of the monitor group,
whatever directory it watches and whatever happens in it. -/
structure NeverInput (mg : MonitorGroup) (m : Path) : Prop where
  /-- No state file has the type. -/
  rejected : ∀ p ∈ statePaths mg m, isMonitorType p mg.monitorFileType ≠ NEWIUP_OK
  /-- There are no others. -/
  bounded : ∀ p, Spawned mg m p → p ∈ statePaths mg m
  /-- None is queued. -/
  unqueued : ∀ (root : Path) (s : MonitorState root),
    (monitorSystem root mg).Reach (fun _ _ => True) s →
    ∀ f ∈ s.queue, f.monitorfile ∉ statePaths mg m

/-- What of a suffix fits behind a monitor file. -/
def fitting (m x : CString) : CString := x.take (NEWIUP_PATH_LEN - 1 - m.length)

/-- There is room behind the monitor file, and what fits of the suffix of a server group
has not the type of the monitor files. -/
structure SuffixesApart (mg : MonitorGroup) (m : Path) : Prop where
  /-- At least one character fits. -/
  room : m.length < NEWIUP_PATH_LEN - 1
  /-- No suffix has the type. -/
  flags : ∀ sg ∈ mg.serverGroupList,
    isMonitorType (fitting m (flagSuffix mg sg)) mg.monitorFileType ≠ NEWIUP_OK

/-! ### The type of a state path -/

section Types

variable {mg : MonitorGroup} {m x t : CString}

theorem snprintf_append (h : m.length < NEWIUP_PATH_LEN) :
    snprintf NEWIUP_PATH_LEN (m ++ x) = m ++ fitting m x := by
  rw [snprintf, fitting, List.take_append, List.take_of_length_le (by omega)]

/-- Without a dot the suffix belongs to the type. -/
theorem typeAfter_eq_self {z : CString} :
    typeAfter t z = t ↔ z = [] ∨ isMonitorType z t = NEWIUP_OK := by
  rw [isMonitorType_iff]
  unfold typeAfter
  cases hz : rindex '.' z with
  | none =>
    have hne : ¬∃ a, (none : Option (CString × CString)) = some (a, t) := by
      rintro ⟨a, ha⟩; cases ha
    rw [or_iff_left hne]
    exact List.append_right_eq_self
  | some p =>
    have hne : z ≠ [] := by
      rintro rfl
      cases hz
    rw [or_iff_right hne]
    constructor
    · intro h
      exact ⟨p.1, by rw [← h]⟩
    · rintro ⟨a, ha⟩
      cases ha
      rfl

/-- **A state path has the type** when nothing fits behind the monitor file, or when what
fits has the type. -/
theorem isMonitorType_snprintf (hm : isMonitorType m t = NEWIUP_OK)
    (hlen : m.length < NEWIUP_PATH_LEN) :
    isMonitorType (snprintf NEWIUP_PATH_LEN (m ++ x)) t = NEWIUP_OK ↔
      fitting m x = [] ∨ isMonitorType (fitting m x) t = NEWIUP_OK := by
  rw [snprintf_append hlen, isMonitorType_append hm, typeAfter_eq_self]

theorem fitting_eq_nil (hx : x ≠ []) : fitting m x = [] ↔ ¬m.length < NEWIUP_PATH_LEN - 1 := by
  rw [fitting, List.take_eq_nil_iff, or_iff_left hx]
  omega

/-- The marker has no dot. -/
theorem fitting_marker (m t : CString) :
    isMonitorType (fitting m markerSuffix) t ≠ NEWIUP_OK := by
  intro h
  obtain ⟨a, ha⟩ := isMonitorType_iff.mp h
  have hdot : '.' ∈ fitting m markerSuffix := by
    rw [(eq_of_rindex ha).1]
    simp
  exact absurd (List.mem_of_mem_take hdot) (by decide)

/-- **No state file has the type** exactly when no suffix has. -/
theorem rejected_iff (hm : isMonitorType m mg.monitorFileType = NEWIUP_OK)
    (hlen : m.length < NEWIUP_PATH_LEN) :
    (∀ p ∈ statePaths mg m, isMonitorType p mg.monitorFileType ≠ NEWIUP_OK) ↔
      SuffixesApart mg m := by
  have hflag : ∀ sg : ServerGroupQueue,
      isMonitorType (flagPath m mg.name sg.primeName) mg.monitorFileType = NEWIUP_OK ↔
        fitting m (flagSuffix mg sg) = [] ∨
        isMonitorType (fitting m (flagSuffix mg sg)) mg.monitorFileType = NEWIUP_OK :=
    fun sg => isMonitorType_snprintf hm hlen
  have hmarker : isMonitorType (getUploadFileKByMonitorfile m) mg.monitorFileType = NEWIUP_OK ↔
      fitting m markerSuffix = [] ∨
        isMonitorType (fitting m markerSuffix) mg.monitorFileType = NEWIUP_OK :=
    isMonitorType_snprintf hm hlen
  constructor
  · intro h
    refine ⟨?_, fun sg hsg htype => ?_⟩
    · -- the path of the marker would be that of the monitor file
      by_contra hroom
      refine h _ (List.mem_append_right _ List.mem_cons_self) (hmarker.mpr (Or.inl ?_))
      exact (fitting_eq_nil (by decide)).mpr hroom
    · refine h _ (List.mem_append_left _ (List.mem_map_of_mem hsg)) ?_
      exact (hflag sg).mpr (Or.inr htype)
  · rintro ⟨hroom, hflags⟩ p hp htype
    rcases List.mem_append.mp hp with hp | hp
    · obtain ⟨sg, hsg, rfl⟩ := List.mem_map.mp hp
      rcases (hflag sg).mp htype with hnil | htype
      · exact (fitting_eq_nil (by simp [flagSuffix])).mp hnil hroom
      · exact hflags sg hsg htype
    · obtain rfl := List.mem_singleton.mp hp
      rcases hmarker.mp htype with hnil | htype
      · exact (fitting_eq_nil (by decide)).mp hnil hroom
      · exact fitting_marker m _ htype

end Types

/-! ### The queue -/

section Queue

variable {root : Path} {mg : MonitorGroup} {s s' : MonitorState root}

/-- Every file of the queue has the type. -/
def QueueTyped (mg : MonitorGroup) (s : MonitorState root) : Prop :=
  ∀ f ∈ s.queue, isMonitorType f.monitorfile mg.monitorFileType = NEWIUP_OK

theorem QueueTyped.of_queue (h : QueueTyped mg s) (he : s'.queue = s.queue) : QueueTyped mg s' := by
  unfold QueueTyped
  rw [he]
  exact h

theorem QueueTyped.queueNodeAdd (h : QueueTyped mg s) (w : ℕ) (m : Path) :
    QueueTyped mg (s.queueNodeAdd mg w m) := by
  unfold MonitorState.queueNodeAdd
  split
  · next htype =>
    intro f hf
    rcases List.mem_append.mp hf with hf | hf
    · exact h f hf
    · rw [List.mem_singleton.mp hf]
      exact htype
  · exact h

theorem inotifyAddWatch_queue {p : Path} {w : ℕ} (h : s.inotifyAddWatch p = some (w, s')) :
    s'.queue = s.queue := by
  obtain ⟨e, -, he⟩ := Option.map_eq_some_iff.mp h
  split at he
  · cases he
    rfl
  · cases he
    rfl

theorem QueueTyped.thread (h : QueueTyped mg s) (hs : ThreadMove mg s s') : QueueTyped mg s' := by
  cases hs with
  | watch hpc hw =>
    have hq := inotifyAddWatch_queue hw
    exact h.of_queue hq
  | fileFound hpc hm => exact h.queueNodeAdd _ _
  | newFile hpc hb hn hfile hkind htype => exact h.queueNodeAdd _ _
  | @oldDir e es n hpc hb hn hdrops =>
    refine h.of_queue ?_
    unfold MonitorState.delMonitorDir
    split <;> rfl
  | _ => exact h.of_queue rfl

/-- The other processes do not write the queue. -/
theorem rename_queue {p q : Path} {n m : Name} (h : s.rename p n q m = some s') :
    s'.queue = s.queue := by
  have hfree : ∀ {t t' : MonitorState root}, t.renameFree p n q m = some t' →
      t'.queue = t.queue := by
    intro t t' ht
    unfold MonitorState.renameFree at ht
    split at ht
    · cases ht
      rfl
    · cases ht
  unfold MonitorState.rename at h
  split at h
  · exact hfree h
  · split at h
    · obtain ⟨t, ht, h⟩ := Option.bind_eq_some_iff.mp h
      rw [hfree h]
      unfold MonitorState.replaced at ht
      split at ht
      · dsimp only at ht
        split at ht <;> cases ht <;> rfl
      · cases ht
    · cases h

theorem QueueTyped.step {act : MonitorAct} (h : QueueTyped mg s)
    (hs : MonitorState.step mg s act = some s') : QueueTyped mg s' := by
  cases act with
  | mkdir p n =>
    simp only [MonitorState.step, MonitorState.mkdir] at hs
    split at hs <;> cases hs
    exact h
  | create p n =>
    simp only [MonitorState.step, MonitorState.create] at hs
    split at hs <;> cases hs
    exact h
  | unlink p n =>
    simp only [MonitorState.step, MonitorState.unlink] at hs
    split at hs <;> cases hs
    exact h
  | rmdir p n =>
    simp only [MonitorState.step, MonitorState.rmdir] at hs
    split at hs
    · split at hs <;> cases hs
      exact h
    · cases hs
  | rename p n q m => exact h.of_queue (rename_queue hs)
  | signal =>
    cases hs
    exact h
  | monitor => exact h.thread (threadStep_cases hs)
  | readdir n => exact h.thread (threadStep_cases hs)
  | read k => exact h.thread (threadStep_cases hs)

/-- **Only files of the type are ever queued.** -/
theorem queueTyped_of_reach (h : (monitorSystem root mg).Reach (fun _ _ => True) s) :
    QueueTyped mg s := by
  refine h.invariant ?_ fun s act s' _ hq _ hs => hq.step hs
  rintro s ⟨tree, rfl⟩ f hf
  cases hf

end Queue

/-- Where no state file has the type, none has state files of its own. -/
theorem Spawned.mem_statePaths {mg : MonitorGroup} {m p : Path}
    (h : ∀ p ∈ statePaths mg m, isMonitorType p mg.monitorFileType ≠ NEWIUP_OK)
    (hp : Spawned mg m p) : p ∈ statePaths mg m := by
  induction hp with
  | state hp => exact hp
  | next _ htype _ ih => exact absurd htype (h _ ih)

/-- **When the state files of a monitor file are never taken for input.** -/
theorem never_input_iff {mg : MonitorGroup} {m : Path}
    (hm : isMonitorType m mg.monitorFileType = NEWIUP_OK) (hlen : m.length < NEWIUP_PATH_LEN) :
    NeverInput mg m ↔ SuffixesApart mg m := by
  rw [← rejected_iff hm hlen]
  refine ⟨fun h => h.rejected, fun h => ⟨h, fun p => Spawned.mem_statePaths h, ?_⟩⟩
  intro root s hreach f hf hstate
  exact h _ hstate (queueTyped_of_reach hreach f hf)

/-- The theorem at a group and a server without dots. -/
theorem never_input_iff_plain : NeverInput (moveGroup .cut) "/d/a.c".toList := by
  refine (never_input_iff (by decide) (by decide)).mpr ⟨by decide, fun sg hsg => ?_⟩
  obtain rfl := List.mem_singleton.mp hsg
  decide

/-- A group whose server has a name that ends like the monitor files. -/
def dottedGroup : MonitorGroup := namedGroup "g".toList ⟨0, "srv.c".toList, 1, 60, 1⟩

/-- **A state file is taken for input**: the name of the server ends in the type. -/
theorem state_file_is_input : ¬∀ (mg : MonitorGroup) (m : Path), m.length < NEWIUP_PATH_LEN →
    isMonitorType m mg.monitorFileType = NEWIUP_OK → NeverInput mg m := by
  intro h
  have hin := (h dottedGroup "/d/a.c".toList (by decide) (by decide)).rejected
    "/d/a.c-g-srv.c".toList (by decide +kernel)
  exact hin (by decide)

end Newiup
