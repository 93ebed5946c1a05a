import Newiup.Finish
import Newiup.Watch.Growth

/-!
# The start-up scan and the events

A file is found by the scan at start-up, by the scan of a new directory, or through the
event of its creation.  While the tree only grows, each file is queued, or one of these is
still to come.

## Main definitions

* `Complete` — **the invariant**: nothing is forgotten.
* `MonitorState.queued`, `MonitorState.Quiet` — the files queued, and a thread that has
  nothing left to do.
* `Unhidden` — the files of the group's type are not hidden.

## Main results

* `Complete.step` — **every step keeps the invariant.**
* `mem_queued_iff` — what is queued when all is quiet.
* `scan_and_events_agree` — **the scan and the events queue the same files**, if none of
  them is hidden.
-/

namespace Newiup

variable {root : Path}

namespace MonitorState

/-- A pending event has a directory added in which a scan comes to the path. -/
def Told (s : MonitorState root) (q : Path) : Prop :=
  ∃ e ∈ s.pending, e.adds = true ∧ ∃ p, s.On e p ∧ Visible p q

/-- The file is queued. -/
def Queued (s : MonitorState root) (m : Path) : Prop := ∃ f ∈ s.queue, f.monitorfile = m

/-- The files queued, with their sources. -/
def queued (s : MonitorState root) : Set (Path × Path) :=
  {x | ∃ f ∈ s.queue, (f.monitorfile, f.src) = x}

/-- The thread waits for events, and there are none. -/
structure Quiet (s : MonitorState root) : Prop where
  loop : s.pc = .loop
  pending : s.pending = []

end MonitorState

/-- A regular file of the group's type, under a path that is not cut. -/
structure Monitored (mg : MonitorGroup) (t : Tree root) (m : Path) : Prop where
  file : ∃ i, t.entry m = some ⟨false, i⟩
  type : isMonitorType m mg.monitorFileType = NEWIUP_OK
  short : m.length < NEWIUP_PATH_LEN

/-- **Nothing is forgotten**: each directory is watched, and each file queued, or the
thread still comes to it. -/
structure Complete (mg : MonitorGroup) (s : MonitorState root) : Prop where
  /-- What is queued is a file of the type. -/
  sound : ∀ f ∈ s.queue, Monitored mg s.tree f.monitorfile ∧
    addFileSuffixProcess mg f.monitorfile = some f.src
  /-- The scan of files has cut the path it looks at. -/
  short : ∀ top frames m, s.pc = .files top frames (.isFile m) → m.length < NEWIUP_PATH_LEN
  dirs : ∀ d i, s.tree.dir d = some i → Visible root d →
    s.Watched d ∨ s.pc.DirsAhead Must d ∨ s.Told d
  files : ∀ m, Monitored mg s.tree m → Visible root m →
    s.Queued m ∨ (∃ e ∈ s.pending, s.On e m) ∨ s.pc.FilesAhead Must m ∨ s.Told m

section Steps

variable {mg : MonitorGroup} {s s' : MonitorState root} {act : MonitorAct} {p q : Path} {n : Name}

/-! ### What is ahead -/

theorem snprintf_length (len : ℕ) (h : 0 < len) (p : Path) : (snprintf len p).length < len := by
  unfold snprintf
  rw [List.length_take]
  omega

theorem MonitorPc.DirsAhead.under {C : Stream → Name → Prop} {pc : MonitorPc}
    (h : pc.DirsAhead C p) (hn : hidden n = false) : pc.DirsAhead C (child p n) := by
  cases pc with
  | dirs top frames pos => exact Ahead.under h hn
  | _ => exact h.elim

theorem Told.under (h : s.Told p) (hn : hidden n = false) : s.Told (child p n) := by
  obtain ⟨e, he, ha, q, hq, hv⟩ := h
  exact ⟨e, he, ha, q, hq, hv.under hn⟩

/-- What a walk finds at the path of an entry lies in the directory. -/
theorem dir_of_visible {t : Tree root} {e : Entry} (hq : t.entry q = some e) (hr : Within root p)
    (hv : Visible p q) : q = p ∨ ∃ i, t.dir p = some i := by
  by_cases he : p = q
  · exact Or.inl he.symm
  · exact Or.inr (Tree.dir_of_within hq hr hv.within he)

/-- An opened stream has every entry to come. -/
theorem must_of_entry {t : Tree root} {e : Entry} {i : ℕ} (hp : t.dir p = some i)
    (hq : t.entry q = some e) (hv : Visible (child p n) q) : Must ⟨i, t.names i, []⟩ n :=
  ⟨(Tree.mem_names hp).mpr (Tree.entry_of_within hq ((Tree.within_root_of_dir hp).under n)
    hv.within), List.not_mem_nil⟩

/-- A stream that has ended has nothing to come. -/
theorem not_must_of_ends {top : Path} {frames : List (Path × Stream)} {f : Path × Stream}
    (hw : Walk s.tree.dir s.tree.Has top frames) (hf : f ∈ frames) (he : s.Ends f.2) (n : Name) :
    ¬Must f.2 n := fun h =>
  h.2 (he n h.1 ((Tree.mem_names (hw.dir f hf)).mpr (hw.opened f hf n h.1)))

theorem snprintf_length_of_le {len : ℕ} (h : len ≤ p.length) :
    (snprintf len p).length = len - 1 := by
  unfold snprintf
  rw [List.length_take]
  omega

/-- A path that was cut, and leads to an entry, lies in the tree. -/
theorem within_root_of_cut {t : Tree root} {len : ℕ} {x : Entry} (hr : Roomy t)
    (hlen : WDQUEUE_PATH_LEN ≤ len) (hc : Cut t len p) (hq : t.entry q = some x)
    (hw : Within p q) : Within root p := by
  obtain ⟨r, e, -, hl, rfl⟩ := hc
  rcases within_total hw (Tree.within_root hq) with h | h
  · -- the path of the root is no longer than a path that was cut
    obtain ⟨j, hj⟩ := t.exists_dir_root
    have hroot := hr.dir root j hj
    have hlen := snprintf_length_of_le hl
    rcases h with h | h
    · rw [h]
    · have := h.length_le
      rw [List.length_append, List.length_singleton] at this
      omega
  · exact h

/-- What the scan of directories tests is a directory, if one is found there. -/
theorem dir_of_here (hr : Roomy s.tree) {top : Path} {frames : List (Path × Stream)} {d : Path}
    {i : ℕ} (hs : s.Starts top) (hp : Reached top frames p ∨ Cut s.tree WDQUEUE_PATH_LEN p)
    (hd : s.tree.dir d = some i) (hv : Visible p d) :
    Reached top frames p ∧ ∃ j, s.tree.dir p = some j := by
  obtain ⟨j, hj⟩ := hs.1
  have hroot : Within root p := hp.elim
    (fun h => (Tree.within_root_of_dir hj).trans h.visible.within)
    fun h => within_root_of_cut hr le_rfl h (Tree.dir_eq_some.mp hd) hv.within
  have hdir : ∃ j, s.tree.dir p = some j := by
    rcases dir_of_visible (Tree.dir_eq_some.mp hd) hroot hv with rfl | h
    · exact ⟨i, hd⟩
    · exact h
  refine ⟨hp.resolve_right fun hc => ?_, hdir⟩
  obtain ⟨k, hk⟩ := hdir
  rw [hr.not_dir hc] at hk
  cases hk

/-- The scan of directories comes to what lies in the directory it started with. -/
theorem visible_of_dirsAhead (hr : Roomy s.tree) {top : Path} {frames : List DirsFrame}
    {pos : DirsPos} (hp : s.Placed (.dirs top frames pos)) {d : Path} {i : ℕ}
    (hd : s.tree.dir d = some i) (h : Ahead Must (frames.map DirsFrame.opened) pos.walk d) :
    Visible top d := by
  obtain ⟨hs, hwalk, -, hpos⟩ := hp
  rcases h with h | ⟨f, hf, n, -, hn, hv⟩
  · cases pos with
    | watch p fnode => exact hpos.1.visible.trans h
    | opendir node =>
      obtain ⟨n, hn, hv⟩ := h
      exact (hpos.1.visible.under hn).trans hv
    | readdir => exact h.elim
    | isDir p => exact (dir_of_here hr hs hpos hd h).1.visible.trans h
  · exact ((hwalk.visible f hf).under hn).trans hv

/-- Nothing lies under a file. -/
theorem not_file_of_under {t : Tree root} {i : ℕ} (hq : ∃ i, t.entry q = some ⟨false, i⟩)
    (hw : Within (child p n) q) (hr : Within root p) : t.entry p ≠ some ⟨false, i⟩ := by
  obtain ⟨j, hj⟩ := hq
  obtain ⟨k, hk⟩ := Tree.dir_of_within hj hr ((within_child p n).trans hw) fun he => by
    subst he
    exact not_within_of_child p n hw
  rw [Tree.dir_eq_some.mp hk]
  exact fun he => by cases he

/-- What an event finds to be a file is one, under its own path. -/
theorem file_of_event {t : Tree root} {x : Entry} (hr : Roomy t) (hx : t.entry p = some x)
    (h : (t.entry (snprintf NEWIUP_PATH_LEN p)).map Entry.isDir = some false) :
    x.isDir = false ∧ snprintf NEWIUP_PATH_LEN p = p := by
  rcases cut_or_eq hx NEWIUP_PATH_LEN with hc | hc
  · rw [hc, hx] at h
    exact ⟨Option.some.inj h, hc⟩
  · rw [hr.not_entry hc] at h
    cases h

/-- What the first event in the buffer is about. -/
theorem Grown.told_head (h : Grown s) {e : Event} {es : List Event} (hb : s.buffer = e :: es) :
    e.kind = .create ∧ ∃ p x n, s.On e p ∧ s.tree.entry p = some x ∧ e.isDir = x.isDir ∧
      e.name = some n ∧ eventPath s.wdList e.wd n = snprintf NEWIUP_PATH_LEN p := by
  obtain ⟨hk, p, x, ho, hx, hd⟩ := h.told e (List.mem_append_left _ (hb ▸ List.mem_cons_self))
  obtain ⟨d, n, -, hn, -⟩ := id ho
  exact ⟨hk, p, x, n, ho, hx, hd, hn, eventPath_of_on ho hn⟩

/-! ### The steps of the scans -/

namespace Complete

/-- The thread moves, and forgets nothing. -/
theorem move (h : Complete mg s) {pc : MonitorPc}
    (hd : ∀ d i, s.tree.dir d = some i → s.pc.DirsAhead Must d → pc.DirsAhead Must d)
    (hf : ∀ m, Monitored mg s.tree m → s.pc.FilesAhead Must m → pc.FilesAhead Must m)
    (hs : ∀ top frames m, pc = .files top frames (.isFile m) → m.length < NEWIUP_PATH_LEN) :
    Complete mg { s with pc := pc } where
  sound := h.sound
  short := hs
  dirs d i hi hv := (h.dirs d i hi hv).imp_right (Or.imp_left (hd d i hi))
  files m hm hv := (h.files m hm hv).imp_right (Or.imp_right (Or.imp_left (hf m hm)))

/-- A directory is watched. -/
theorem watch (h : Complete mg s) {top : Path} {frames : List DirsFrame} {fnode : Option WdNode}
    {w i : ℕ} {s₁ : MonitorState root} (hpc : s.pc = .dirs top frames (.watch p fnode))
    (hi : s.tree.dir p = some i) (ha : AddedWatch s s₁ i w) :
    Complete mg { s₁ with
      wdList := s₁.wdList ++ [newNode w p fnode]
      pc := .dirs top frames (.opendir (newNode w p fnode)) } := by
  have hon : ∀ {e q}, s.On e q → MonitorState.On { s₁ with
      wdList := s₁.wdList ++ [newNode w p fnode]
      pc := .dirs top frames (.opendir (newNode w p fnode)) } e q := by
    rintro e q ⟨d, n, hd, hn, rfl⟩
    exact ⟨d, n, path_append (ha.wdList ▸ hd), hn, rfl⟩
  have hpend : ∀ {e}, e ∈ s.pending → e ∈ s₁.buffer ++ s₁.events := fun he => by
    rw [ha.buffer, ha.events]
    exact he
  have htold : ∀ {q}, s.Told q → MonitorState.Told { s₁ with
      wdList := s₁.wdList ++ [newNode w p fnode]
      pc := .dirs top frames (.opendir (newNode w p fnode)) } q := by
    rintro q ⟨e, he, hadd, r, hr, hv⟩
    exact ⟨e, hpend he, hadd, r, hon hr, hv⟩
  -- the directory is watched now; what lies in it is ahead of the scan
  refine ⟨fun f hf => ?_, (fun _ _ _ he => by cases he), fun d j hj hv => ?_, fun m hm hv => ?_⟩
  · have := h.sound f (ha.queue ▸ hf)
    exact ⟨⟨ha.tree ▸ this.1.file, this.1.type, this.1.short⟩, this.2⟩
  · rw [ha.tree] at hj
    rcases h.dirs d j hj hv with ⟨k, v, hk, hv⟩ | hahead | htold'
    · exact Or.inl ⟨k, v, ha.tree ▸ hk, ha.old k v hv⟩
    · rw [hpc] at hahead
      rcases hahead with hhere | hframes
      · rcases visible_iff.mp hhere with rfl | hin
        · exact Or.inl ⟨i, w, ha.tree ▸ hi, ha.watch⟩
        · exact Or.inr (Or.inl (Or.inl hin))
      · exact Or.inr (Or.inl (Or.inr hframes))
    · exact Or.inr (Or.inr (htold htold'))
  · have hm' : Monitored mg s.tree m := ⟨ha.tree ▸ hm.file, hm.type, hm.short⟩
    rcases h.files m hm' hv with ⟨f, hf, he⟩ | ⟨e, he, ho⟩ | hahead | htold'
    · exact Or.inl ⟨f, ha.queue ▸ hf, he⟩
    · exact Or.inr (Or.inl ⟨e, hpend he, hon ho⟩)
    · rw [hpc] at hahead
      exact Or.inr (Or.inr (Or.inl hahead))
    · exact Or.inr (Or.inr (Or.inr (htold htold')))

/-- A file the thread has found is queued. -/
theorem found (h : Complete mg s) {w : ℕ} {m : Path} {pc : MonitorPc} {buffer : List Event}
    (hm : ∃ i, s.tree.entry m = some ⟨false, i⟩) (hshort : m.length < NEWIUP_PATH_LEN)
    (hpc : ∀ top frames m, pc ≠ .files top frames (.isFile m))
    (hd : ∀ d i, s.tree.dir d = some i → Visible root d → s.Watched d ∨ pc.DirsAhead Must d ∨
      ∃ e ∈ buffer ++ s.events, e.adds = true ∧ ∃ p, s.On e p ∧ Visible p d)
    (hf : ∀ m', Monitored mg s.tree m' → Visible root m' → m' = m ∨ s.Queued m' ∨
      (∃ e ∈ buffer ++ s.events, s.On e m') ∨ pc.FilesAhead Must m' ∨
      ∃ e ∈ buffer ++ s.events, e.adds = true ∧ ∃ p, s.On e p ∧ Visible p m') :
    Complete mg { s.queueNodeAdd mg w m with buffer := buffer, pc := pc } := by
  unfold MonitorState.queueNodeAdd
  split
  · next htype =>
    refine ⟨fun f hf => ?_, fun top frames m he => absurd he (hpc top frames m), hd,
      fun m' hm' hv => ?_⟩
    · rcases List.mem_append.mp hf with hf | hf
      · exact h.sound f hf
      · obtain rfl := List.mem_singleton.mp hf
        exact ⟨⟨hm, htype, hshort⟩, (Option.some_get _).symm⟩
    · rcases hf m' hm' hv with rfl | ⟨f, hf, he⟩ | hrest
      · exact Or.inl ⟨_, List.mem_append_right _ (List.mem_singleton_self _), rfl⟩
      · exact Or.inl ⟨f, List.mem_append_left _ hf, he⟩
      · exact Or.inr hrest
  · next htype =>
    refine ⟨h.sound, fun top frames m he => absurd he (hpc top frames m), hd, fun m' hm' hv => ?_⟩
    rcases hf m' hm' hv with rfl | hq | hrest
    · exact absurd hm'.type htype
    · exact Or.inl hq
    · exact Or.inr hrest

/-- An event is read, and what it tells is done. -/
theorem pop (h : Complete mg s) {e : Event} {es : List Event} {pc : MonitorPc}
    (hpc : s.pc = .inner) (hb : s.buffer = e :: es)
    (hs : ∀ top frames m, pc ≠ .files top frames (.isFile m))
    (hd : ∀ d i p, s.tree.dir d = some i → e.adds = true → s.On e p → Visible p d →
      pc.DirsAhead Must d)
    (hf : ∀ m p, Monitored mg s.tree m → e.adds = true → s.On e p → Visible p m →
      pc.FilesAhead Must m)
    (he : ∀ m, Monitored mg s.tree m → s.On e m → s.Queued m) :
    Complete mg { s with buffer := es, pc := pc } := by
  have hpend : ∀ {e'}, e' ∈ s.pending → e' = e ∨ e' ∈ es ++ s.events := fun he' => by
    rw [MonitorState.pending, hb] at he'
    exact List.mem_cons.mp he'
  -- what the event told of is dealt with or ahead now; the others still tell of the rest
  refine ⟨h.sound, fun top frames m he => absurd he (hs top frames m), fun d i hi hv => ?_,
    fun m hm hv => ?_⟩
  · rcases h.dirs d i hi hv with hw | hahead | ⟨e', he', hadd, p, hon, hp⟩
    · exact Or.inl hw
    · rw [hpc] at hahead
      exact hahead.elim
    · rcases hpend he' with rfl | he'
      · exact Or.inr (Or.inl (hd d i p hi hadd hon hp))
      · exact Or.inr (Or.inr ⟨e', he', hadd, p, hon, hp⟩)
  · rcases h.files m hm hv with hq | ⟨e', he', hon⟩ | hahead | ⟨e', he', hadd, p, hon, hp⟩
    · exact Or.inl hq
    · rcases hpend he' with rfl | he'
      · exact Or.inl (he m hm hon)
      · exact Or.inr (Or.inl ⟨e', he', hon⟩)
    · rw [hpc] at hahead
      exact hahead.elim
    · rcases hpend he' with rfl | he'
      · exact Or.inr (Or.inr (Or.inl (hf m p hm hadd hon hp)))
      · exact Or.inr (Or.inr (Or.inr ⟨e', he', hadd, p, hon, hp⟩))

/-- Events are read into the buffer. -/
theorem read (h : Complete mg s) (hpc : s.pc = .loop) {buffer events : List Event}
    (hb : buffer ++ events = s.pending) :
    Complete mg { s with events := events, buffer := buffer, pc := .inner } := by
  have hnot : ∀ {C q}, ¬s.pc.DirsAhead C q ∧ ¬s.pc.FilesAhead C q := by
    rw [hpc]
    exact ⟨id, id⟩
  have hpend : ∀ e ∈ s.pending, e ∈ buffer ++ events := by
    rw [hb]
    exact fun _ he => he
  refine ⟨h.sound, (fun _ _ _ he => by cases he), fun d i hi hv => ?_, fun m hm hv => ?_⟩
  · rcases h.dirs d i hi hv with hw | ha | ⟨e, he, ht⟩
    · exact Or.inl hw
    · exact absurd ha hnot.1
    · exact Or.inr (Or.inr ⟨e, hpend e he, ht⟩)
  · rcases h.files m hm hv with hq | ⟨e, he, ho⟩ | ha | ⟨e, he, ht⟩
    · exact Or.inl hq
    · exact Or.inr (Or.inl ⟨e, hpend e he, ho⟩)
    · exact absurd ha hnot.2
    · exact Or.inr (Or.inr (Or.inr ⟨e, hpend e he, ht⟩))

/-- A step of `add_monitor_dir`. -/
theorem dirsMove (h : Complete mg s) {top : Path} {frames frames' : List DirsFrame}
    {pos pos' : DirsPos} (hpc : s.pc = .dirs top frames pos)
    (hd : ∀ d i, s.tree.dir d = some i → Ahead Must (frames.map DirsFrame.opened) pos.walk d →
      Ahead Must (frames'.map DirsFrame.opened) pos'.walk d) :
    Complete mg { s with pc := .dirs top frames' pos' } := by
  refine h.move (fun d i hi ha => ?_) (fun m _ ha => ?_) (fun _ _ _ he => by cases he)
  · rw [hpc] at ha
    exact hd d i hi ha
  · rw [hpc] at ha
    exact ha

/-- A step of `add_upload_file`. -/
theorem filesMove (h : Complete mg s) {top : Path} {frames frames' : List FilesFrame}
    {pos pos' : FilesPos} (hpc : s.pc = .files top frames pos)
    (hf : ∀ m, Monitored mg s.tree m → Ahead Must (frames.map FilesFrame.opened) pos.walk m →
      Ahead Must (frames'.map FilesFrame.opened) pos'.walk m)
    (hs : ∀ m, pos' = .isFile m → m.length < NEWIUP_PATH_LEN) :
    Complete mg { s with pc := .files top frames' pos' } := by
  refine h.move (fun d i _ ha => ?_) (fun m hm ha => ?_) (fun _ _ m he => ?_)
  · rw [hpc] at ha
    exact ha.elim
  · rw [hpc] at ha
    exact hf m hm ha
  · cases he
    exact hs m rfl

/-- A stream of directories ends; after the last one the files are scanned. -/
theorem dirsEnd (h : Complete mg s) (hg : Grown s) {top : Path} {f : DirsFrame}
    {fs : List DirsFrame} (hpc : s.pc = .dirs top (f :: fs) .readdir) (hend : s.Ends f.stream) :
    Complete mg { s with
      pc := if fs.isEmpty then .files top [] (.opendir top) else .dirs top fs .readdir } := by
  have hplaced := hg.placed
  rw [hpc] at hplaced
  obtain ⟨hstart, hwalk, -, -⟩ := hplaced
  have hover := not_must_of_ends hwalk List.mem_cons_self hend
  cases fs with
  | nil =>
    refine h.move (fun d i _ ha => ?_) (fun m hm ha => ?_) (fun _ _ _ he => by cases he)
    · rw [hpc] at ha
      exact absurd (ahead_end (fun n _ => hover n) ha) not_ahead_nil
    · rw [hpc] at ha
      refine Or.inl ((visible_iff.mp ha).resolve_left ?_)
      rintro rfl
      obtain ⟨i, hi⟩ := hm.file
      obtain ⟨j, hj⟩ := hstart.1
      rw [Tree.dir_eq_some.mp hj] at hi
      cases hi
  | cons g fs => exact h.dirsMove hpc fun d _ _ ha => ahead_end (fun n _ => hover n) ha

/-- The path of a returned name is tested. -/
theorem filesName (h : Complete mg s) {top : Path} {f : FilesFrame} {fs : List FilesFrame}
    {n : Name} (hpc : s.pc = .files top (f :: fs) .readdir) :
    Complete mg { s with
      pc := .files top (⟨f.path, f.wd, f.stream.next n⟩ :: fs) (if hidden n then .readdir
        else .isFile (snprintf NEWIUP_PATH_LEN (child f.path n))) } := by
  refine h.filesMove hpc (fun m hm ha => ?_) (fun m he => ?_)
  · rw [FilesPos.walk_after]
    -- what leads to a short path is not cut
    refine (ahead_next (n := n) (fun m hm => must_next hm) ha).mono
      (WalkPos.after_imp fun hv => ?_) (fun _ _ _ _ hc => hc)
    rw [snprintf_of_lt (hv.within.length_le.trans_lt hm.short)]
    exact hv
  · split at he
    · cases he
    · cases he
      exact snprintf_length _ (by decide) _

/-- A stream of files ends. -/
theorem filesEnd (h : Complete mg s) (hg : Grown s) {top : Path} {f : FilesFrame}
    {fs : List FilesFrame} (hpc : s.pc = .files top (f :: fs) .readdir) (hend : s.Ends f.stream) :
    Complete mg { s with pc := if fs.isEmpty then .check else .files top fs .readdir } := by
  have hplaced := hg.placed
  rw [hpc] at hplaced
  obtain ⟨-, hwalk, -, -⟩ := hplaced
  have hover := not_must_of_ends hwalk List.mem_cons_self hend
  cases fs with
  | nil =>
    refine h.move (fun d i _ ha => ?_) (fun m hm ha => ?_) (fun _ _ _ he => by cases he)
    · rw [hpc] at ha
      exact ha.elim
    · rw [hpc] at ha
      exact absurd (ahead_end (fun n _ => hover n) ha) not_ahead_nil
  | cons g fs =>
    exact h.filesMove hpc (fun _ _ ha => ahead_end (fun n _ => hover n) ha)
      (fun _ he => by cases he)

/-- The scan has found a file. -/
theorem fileFound (h : Complete mg s) {top : Path} {f : FilesFrame} {fs : List FilesFrame}
    {m : Path} {i : ℕ} (hpc : s.pc = .files top (f :: fs) (.isFile m))
    (hm : s.tree.entry m = some ⟨false, i⟩) :
    Complete mg { s.queueNodeAdd mg f.wd m with pc := .files top (f :: fs) .readdir } := by
  obtain ⟨queue, hq⟩ := queueNodeAdd_eq s mg f.wd m
  have hfound : Complete mg { s.queueNodeAdd mg f.wd m with
      buffer := s.buffer
      pc := .files top (f :: fs) .readdir } := by
    refine h.found ⟨i, hm⟩ (h.short _ _ _ hpc) (fun _ _ _ he => by cases he)
      (fun d j hj hv => ?_) (fun m' hm' hv => ?_)
    · rcases h.dirs d j hj hv with hw | ha | ht
      · exact Or.inl hw
      · rw [hpc] at ha
        exact ha.elim
      · exact Or.inr (Or.inr ht)
    · rcases h.files m' hm' hv with hq | he | ha | ht
      · exact Or.inr (Or.inl hq)
      · exact Or.inr (Or.inr (Or.inl he))
      · rw [hpc] at ha
        rcases ha with ha | ha
        · rcases visible_iff.mp ha with rfl | ⟨n, hn, hv⟩
          · exact Or.inl rfl
          · -- nothing lies under a file
            exact absurd hm (not_file_of_under hm'.file hv.within (Tree.within_root hm))
        · exact Or.inr (Or.inr (Or.inr (Or.inl (Or.inr ha))))
      · exact Or.inr (Or.inr (Or.inr (Or.inr ht)))
  rw [hq] at hfound ⊢
  exact hfound

/-- The scan goes into a directory. -/
theorem filesTest (h : Complete mg s) (hg : Grown s) (hr : Roomy s.tree) {top : Path}
    {frames : List FilesFrame} {m : Path} (hpc : s.pc = .files top frames (.isDir m)) :
    Complete mg { s with
      pc := .files top frames (if (s.tree.dir m).isSome then .opendir m else .readdir) } := by
  have hplaced := hg.placed
  rw [hpc] at hplaced
  obtain ⟨-, -, -, hpos⟩ := hplaced
  refine h.filesMove hpc (fun q hq ha => ha.mono (fun hv => ?_) (fun _ _ _ _ hc => hc))
    (fun _ he => ?_)
  · obtain ⟨i, hi⟩ := hq.file
    rcases hpos with ⟨-, j, hj⟩ | hc
    · rw [hj]
      refine (visible_iff.mp hv).resolve_left ?_
      rintro rfl
      rw [Tree.dir_eq_some.mp hj] at hi
      cases hi
    · -- a short path does not lie at or under one that was cut
      exfalso
      rcases visible_iff.mp hv with rfl | ⟨n, -, hv⟩
      · rw [hr.not_entry hc] at hi
        cases hi
      · obtain ⟨r, e, -, hl, rfl⟩ := hc
        have := hv.within.length_le
        have := length_lt_child (snprintf NEWIUP_PATH_LEN r) n
        have := snprintf_length_of_le hl
        have := hq.short
        omega
  · split at he <;> cases he

/-- An event is passed over that is not one on a file of the type, and adds nothing. -/
theorem passed (h : Complete mg s) {e : Event} {es : List Event} {pc : MonitorPc}
    (hpc : s.pc = .inner) (hb : s.buffer = e :: es) (hpc' : pc = .inner ∨ pc = .check)
    (hadds : e.adds = false) (hno : ∀ m, Monitored mg s.tree m → ¬s.On e m) :
    Complete mg { s with buffer := es, pc := pc } := by
  refine h.pop hpc hb (fun _ _ _ he => ?_) (fun _ _ _ _ ha => ?_) (fun _ _ _ ha => ?_)
    fun m hm hon => absurd hon (hno m hm)
  · rcases hpc' with rfl | rfl <;> cases he
  · rw [hadds] at ha
    cases ha
  · rw [hadds] at ha
    cases ha

/-- A file of another type is passed over. -/
theorem otherType (h : Complete mg s) (hg : Grown s) (hr : Roomy s.tree)
    {e : Event} {es : List Event} {n : Name} (hpc : s.pc = .inner)
    (hb : s.buffer = e :: es) (hn : e.name = some n)
    (hfile : (s.tree.entry (eventPath s.wdList e.wd n)).map Entry.isDir = some false)
    (htype : isMonitorType (eventPath s.wdList e.wd n) mg.monitorFileType ≠ NEWIUP_OK) :
    Complete mg { s with buffer := es } := by
  obtain ⟨-, p, x, n', ho, hx, hdir, hn', hpath⟩ := hg.told_head hb
  cases hn.symm.trans hn'
  have hfile' : x.isDir = false := (file_of_event hr hx (hpath ▸ hfile)).1
  have hadds : e.adds = false := by rw [Event.adds, hdir, hfile', Bool.false_and]
  have hpass : Complete mg { s with buffer := es, pc := s.pc } := by
    refine h.passed hpc hb (Or.inl hpc) hadds fun m hm hon => ?_
    obtain rfl := on_unique ho hon
    rw [hpath, snprintf_of_lt hm.short] at htype
    exact htype hm.type
  exact hpass

/-- A file is queued for its event. -/
theorem newFile (h : Complete mg s) (hg : Grown s) (hr : Roomy s.tree)
    {e : Event} {es : List Event} {n : Name} (hpc : s.pc = .inner)
    (hb : s.buffer = e :: es) (hn : e.name = some n)
    (hfile : (s.tree.entry (eventPath s.wdList e.wd n)).map Entry.isDir = some false) :
    Complete mg { s.queueNodeAdd mg e.wd (eventPath s.wdList e.wd n) with
      buffer := es, pc := .check } := by
  obtain ⟨-, p, x, n', ho, hx, hdir, hn', hpath⟩ := hg.told_head hb
  cases hn.symm.trans hn'
  have hfile' : x.isDir = false := (file_of_event hr hx (hpath ▸ hfile)).1
  have hadds : e.adds = false := by rw [Event.adds, hdir, hfile', Bool.false_and]
  have hshort : p.length < NEWIUP_PATH_LEN := by
    by_contra hl
    rw [hpath, hr.cutFile p x hx (not_lt.mp hl)] at hfile
    cases hfile
  rw [hpath, snprintf_of_lt hshort]
  have hpend : ∀ {e'}, e' ∈ s.pending → e' = e ∨ e' ∈ es ++ s.events := fun he' => by
    rw [MonitorState.pending, hb] at he'
    exact List.mem_cons.mp he'
  -- what its event told of is in the queue now, and every other event is still to come
  refine h.found ⟨x.id, ?_⟩ hshort (fun _ _ _ he => by cases he) (fun d j hj hv => ?_)
    (fun m hm hv => ?_)
  · obtain ⟨b, i⟩ := x
    cases hfile'
    exact hx
  · rcases h.dirs d j hj hv with hw | ha | ⟨e', he', ha, ht⟩
    · exact Or.inl hw
    · rw [hpc] at ha
      exact ha.elim
    · rcases hpend he' with rfl | he'
      · rw [hadds] at ha
        cases ha
      · exact Or.inr (Or.inr ⟨e', he', ha, ht⟩)
  · rcases h.files m hm hv with hq | ⟨e', he', hon⟩ | ha | ⟨e', he', ha, ht⟩
    · exact Or.inr (Or.inl hq)
    · rcases hpend he' with rfl | he'
      · exact Or.inl (on_unique hon ho)
      · exact Or.inr (Or.inr (Or.inl ⟨e', he', hon⟩))
    · rw [hpc] at ha
      exact ha.elim
    · rcases hpend he' with rfl | he'
      · rw [hadds] at ha
        cases ha
      · exact Or.inr (Or.inr (Or.inr (Or.inr ⟨e', he', ha, ht⟩)))

/-- A new directory is scanned. -/
theorem newDir (h : Complete mg s) (hg : Grown s) (hr : Roomy s.tree)
    {e : Event} {es : List Event} {n : Name} (hpc : s.pc = .inner)
    (hb : s.buffer = e :: es) (hn : e.name = some n)
    (hadds : e.adds = true) :
    Complete mg { s with
      buffer := es
      pc := .dirs (eventPath s.wdList e.wd n) []
        (.watch (eventPath s.wdList e.wd n) (getWdByWd s.wdList e.wd)) } := by
  obtain ⟨-, p, x, n', ho, hx, hdir, hn', hpath⟩ := hg.told_head hb
  cases hn.symm.trans hn'
  have hi : s.tree.dir p = some x.id := by
    obtain ⟨b, i⟩ := x
    cases hdir.symm.trans (Bool.and_eq_true_iff.mp hadds).1
    exact Tree.dir_eq_some.mpr hx
  rw [hpath, snprintf_full (hr.dir _ _ hi)]
  refine h.pop hpc hb (fun _ _ _ he => by cases he) (fun d i q _ _ hon hv => ?_)
    (fun m q _ _ hon hv => ?_) (fun m hm hon => ?_)
  · obtain rfl := on_unique ho hon
    exact Or.inl hv
  · obtain rfl := on_unique ho hon
    exact hv
  · obtain rfl := on_unique ho hon
    obtain ⟨j, hj⟩ := hm.file
    rw [Tree.dir_eq_some.mp hi] at hj
    cases hj

/-- An event is passed over. -/
theorem nothing (h : Complete mg s) (hg : Grown s)
    {e : Event} {es : List Event} {n : Name} (hpc : s.pc = .inner)
    (hb : s.buffer = e :: es) (hn : e.name = some n)
    (hadds : e.adds = false)
    (hfile : ¬((s.tree.entry (eventPath s.wdList e.wd n)).map Entry.isDir = some false ∧
      e.kind.appears = true)) : Complete mg { s with buffer := es, pc := .check } := by
  obtain ⟨hkind, p, x, n', ho, hx, hdir, hn', hpath⟩ := hg.told_head hb
  cases hn.symm.trans hn'
  refine h.passed hpc hb (Or.inr rfl) hadds fun m hm hon => hfile ⟨?_, ?_⟩
  · obtain rfl := on_unique ho hon
    obtain ⟨i, hi⟩ := hm.file
    rw [hpath, snprintf_of_lt hm.short, hi]
    rfl
  · rw [hkind]
    rfl

/-- **A step of the thread forgets nothing**, as long as it does not exit. -/
theorem thread (h : Complete mg s) (hg : Grown s) (hr : Roomy s.tree) (hs : ThreadMove mg s s')
    (hx : s'.pc ≠ .exited) : Complete mg s' := by
  have hplaced := hg.placed
  cases hs with
  | exit => exact absurd rfl hx
  | @idle pc pc' hpc hi =>
    have hnot : ∀ {C q}, ¬s.pc.DirsAhead C q ∧ ¬s.pc.FilesAhead C q := by
      rw [hpc]
      cases hi <;> exact ⟨id, id⟩
    refine h.move (fun _ _ _ ha => absurd ha hnot.1) (fun _ _ ha => absurd ha hnot.2)
      (fun _ _ _ he => ?_)
    cases hi <;> cases he
  | watch hpc hs₁ =>
    rw [hpc] at hplaced
    obtain ⟨-, -, -, -, i, hi⟩ := hplaced
    exact h.watch hpc hi (addedWatch hi hs₁)
  | dirsOpen hpc hi =>
    exact h.dirsMove hpc fun d j hj ha => ahead_open
      (fun n hv => must_of_entry hi (Tree.dir_eq_some.mp hj) hv) ha
  | @dirsName top f fs n hpc hret =>
    refine h.dirsMove hpc fun d j hj ha => ?_
    rw [DirsPos.walk_after]
    -- what leads to a directory is not cut
    refine (ahead_next (n := n) (fun m hm => must_next hm) ha).mono
      (WalkPos.after_imp fun hv => ?_) (fun _ _ _ _ hc => hc)
    rw [snprintf_of_lt (hv.within.length_le.trans_lt (hr.dir d j hj))]
    exact hv
  | dirsEnd hpc hend => exact h.dirsEnd hg hpc hend
  | @dirsTest top frames p hpc =>
    rw [hpc] at hplaced
    obtain ⟨hstart, -, -, hpos⟩ := hplaced
    refine h.dirsMove hpc fun d i hi ha => ha.mono (fun hv => ?_) (fun _ _ _ _ hc => hc)
    obtain ⟨-, j, hj⟩ := dir_of_here hr hstart hpos hi hv
    rw [hj]
    exact hv
  | filesOpen hpc hwd hi =>
    refine h.filesMove hpc (fun m hm ha => ?_) (fun _ he => by cases he)
    obtain ⟨j, hj⟩ := hm.file
    exact ahead_open (fun n hv => must_of_entry hi hj hv) ha
  | filesName hpc hret => exact h.filesName hpc
  | filesEnd hpc hend => exact h.filesEnd hg hpc hend
  | fileFound hpc hm => exact h.fileFound hpc hm
  | noFile hpc hno => exact h.filesMove hpc (fun _ _ ha => ha) (fun _ he => by cases he)
  | filesTest hpc => exact h.filesTest hg hr hpc
  | read hpc hk =>
    have hb : s.buffer = [] := by
      rw [hpc] at hplaced
      exact hplaced
    refine h.read hpc ?_
    rw [List.take_append_drop, MonitorState.pending, hb, List.nil_append]
  | nameless hpc hb hn =>
    obtain ⟨-, p, x, n, -, -, -, hn', -⟩ := hg.told_head hb
    rw [hn] at hn'
    cases hn'
  | otherType hpc hb hn hfile hkind htype => exact h.otherType hg hr hpc hb hn hfile htype
  | newFile hpc hb hn hfile hkind htype => exact h.newFile hg hr hpc hb hn hfile
  | newDir hpc hb hn hadds hfile => exact h.newDir hg hr hpc hb hn hadds
  | @oldDir e es n hpc hb hn hdrops =>
    rw [Event.drops, (hg.told_head hb).1, Bool.and_eq_true_iff] at hdrops
    cases hdrops.2
  | nothing hpc hb hn hadds hdrops hfile => exact h.nothing hg hpc hb hn hadds hfile

/-- An entry is made, and will be found. -/
theorem made (h : Complete mg s) (hg : Grown s) (hr : Roomy s.tree) {b : Bool}
    (hp : (s.tree.dir p).isSome = true) (hn : s.tree.entry (child p n) = none) :
    Complete mg { s with
      tree := s.tree.make p n b hp hn
      events := s.events ++ s.notices p .create b n } := by
  have hpend : ∀ {e}, e ∈ s.pending → e ∈ s.buffer ++ (s.events ++ s.notices p .create b n) := by
    intro e he
    rw [← List.append_assoc]
    exact List.mem_append_left _ he
  have htold : ∀ {q}, s.Told q → MonitorState.Told { s with
      tree := s.tree.make p n b hp hn
      events := s.events ++ s.notices p .create b n } q := by
    rintro q ⟨e, he, ht⟩
    exact ⟨e, hpend he, ht⟩
  have hext : s.tree.Extends (s.tree.make p n b hp hn) := Tree.extends_make
  obtain ⟨i, hi⟩ := Option.isSome_iff_exists.mp hp
  -- the directory is watched, or a scan comes to it
  have hparent : Visible root (child p n) → hidden n = false ∧
      ((∃ e ∈ s.buffer ++ (s.events ++ s.notices p .create b n), e.isDir = b ∧ e.kind = .create ∧
        s.On e (child p n)) ∨ s.pc.DirsAhead Must p ∨ s.Told p) := by
    intro hv
    obtain ⟨hvp, hh⟩ := hv.of_under fun he => by
      obtain ⟨j, hj⟩ := s.tree.exists_dir_root
      rw [he, Tree.dir_eq_some.mp hj] at hn
      cases hn
    refine ⟨hh, (h.dirs p i hi hvp).imp_left ?_⟩
    rintro ⟨j, w, hj, hw⟩
    refine ⟨⟨w, .create, b, some n⟩, List.mem_append_right _ (List.mem_append_right _
      (mem_notices.mpr ⟨j, w, hj, hw, rfl⟩)), rfl, rfl, p, n, hg.path_of_watch hj hw, rfl, rfl⟩
  refine ⟨fun f hf => ?_, h.short, fun d j hj hv => ?_, fun m hm hv => ?_⟩
  · obtain ⟨⟨⟨j, hj⟩, ht, hl⟩, hsrc⟩ := h.sound f hf
    exact ⟨⟨⟨j, hext _ _ hj⟩, ht, hl⟩, hsrc⟩
  · have hj' : (s.tree.make p n b hp hn).entry d = some ⟨true, j⟩ := Tree.dir_eq_some.mp hj
    rcases Tree.entry_make.mp hj' with ⟨rfl, he⟩ | hold
    · cases he
      obtain ⟨hh, ⟨e, he, hb, hk, hon⟩ | ha | ht⟩ := hparent hv
      · refine Or.inr (Or.inr ⟨e, he, ?_, _, hon, .here⟩)
        rw [Event.adds, hb, hk]
        rfl
      · exact Or.inr (Or.inl (ha.under hh))
      · exact Or.inr (Or.inr (htold (Told.under ht hh)))
    · rcases h.dirs d j (Tree.dir_eq_some.mpr hold) hv with ⟨k, w, hk, hw⟩ | ha | ht
      · exact Or.inl ⟨k, w, hext.dir hk, hw⟩
      · exact Or.inr (Or.inl ha)
      · exact Or.inr (Or.inr (htold ht))
  · obtain ⟨j, hj⟩ := hm.file
    change (s.tree.make p n b hp hn).entry m = _ at hj
    rcases Tree.entry_make.mp hj with ⟨rfl, -⟩ | hold
    · obtain ⟨hh, ⟨e, he, -, -, hon⟩ | ha | ht⟩ := hparent hv
      · exact Or.inr (Or.inl ⟨e, he, hon⟩)
      · -- the files are scanned after the directories
        refine Or.inr (Or.inr (Or.inl ?_))
        cases hpc : s.pc with
        | dirs top frames pos =>
          have hplaced := hg.placed
          rw [hpc] at ha hplaced
          exact (visible_of_dirsAhead hr hplaced hi ha).under hh
        | _ =>
          rw [hpc] at ha
          exact ha.elim
      · exact Or.inr (Or.inr (Or.inr (htold (Told.under ht hh))))
    · rcases h.files m ⟨⟨j, hold⟩, hm.type, hm.short⟩ hv with hq | ⟨e, he, ho⟩ | ha | ht
      · exact Or.inl hq
      · exact Or.inr (Or.inl ⟨e, hpend he, ho⟩)
      · exact Or.inr (Or.inr (Or.inl ha))
      · exact Or.inr (Or.inr (Or.inr (htold ht)))

/-- When the thread is started, all is ahead. -/
theorem boot (mg : MonitorGroup) (t : Tree root) : Complete mg (MonitorState.boot t) where
  sound _ h := by cases h
  short _ _ _ h := by cases h
  dirs _ _ _ hv := Or.inr (Or.inl (Or.inl hv))
  files _ _ hv := Or.inr (Or.inr (Or.inl hv))

/-- **Every step keeps the invariant**, as long as the thread does not exit. -/
theorem step (h : Complete mg s) (hg : Grown s) (hr : Roomy s.tree)
    (hs : GrowthStep mg s act s') (hx : s'.pc ≠ .exited) : Complete mg s' := by
  cases hs with
  | made ha hp hn => exact h.made hg hr hp hn
  | signal => exact ⟨h.sound, h.short, h.dirs, h.files⟩
  | thread hs => exact h.thread hg hr hs hx

end Complete

end Steps

/-! ### Runs -/

section Runs

variable {mg : MonitorGroup} {s s' : MonitorState root} {act : MonitorAct}

/-- The thread leaves the tree alone. -/
theorem ThreadMove.tree_eq (h : ThreadMove mg s s') : s'.tree = s.tree := by
  cases h with
  | @watch top frames p fnode w s₁ hpc hs₁ =>
    obtain ⟨e, -, he⟩ := Option.map_eq_some_iff.mp hs₁
    split at he <;> cases he <;> rfl
  | fileFound =>
    obtain ⟨queue, hq⟩ := queueNodeAdd_eq s mg _ _
    rw [hq]
  | newFile =>
    obtain ⟨queue, hq⟩ := queueNodeAdd_eq s mg _ _
    rw [hq]
  | oldDir =>
    unfold MonitorState.delMonitorDir
    split <;> rfl
  | _ => rfl

/-- A thread that has exited moves no more. -/
theorem ThreadMove.alive (h : ThreadMove mg s s') (hx : s'.pc ≠ .exited) : s.pc ≠ .exited := by
  intro he
  cases h with
  | exit => exact hx rfl
  | idle hpc hi =>
    rw [he] at hpc
    subst hpc
    cases hi
  | watch hpc | dirsOpen hpc | dirsName hpc | dirsEnd hpc | dirsTest hpc | filesOpen hpc
  | filesName hpc | filesEnd hpc | fileFound hpc | noFile hpc | filesTest hpc | read hpc
  | nameless hpc | otherType hpc | newFile hpc | newDir hpc | oldDir hpc | nothing hpc =>
    rw [he] at hpc
    cases hpc

theorem GrowthStep.extends (h : GrowthStep mg s act s') : s.tree.Extends s'.tree := by
  cases h with
  | @made p n b ha hp hn =>
    have hext : s.tree.Extends (s.tree.make p n b hp hn) := Tree.extends_make
    exact hext
  | signal => exact .refl _
  | thread h => exact h.tree_eq ▸ .refl _

theorem GrowthStep.alive (h : GrowthStep mg s act s') (hx : s'.pc ≠ .exited) :
    s.pc ≠ .exited := by
  cases h with
  | made => exact hx
  | signal => exact hx
  | thread h => exact h.alive hx

/-- **Nothing is forgotten in any run** in which the tree only grows. -/
theorem Complete.reach {t : Tree root} {G : MonitorState root → MonitorAct → Prop}
    (hG : ∀ s act, G s act → act.grows = true)
    (h : ((monitorSystem root mg).startingAt (.boot t)).Reach G s) (hr : Roomy s.tree) :
    Grown s ∧ (s.pc ≠ .exited → Complete mg s) := by
  refine System.Reach.invariant
    (I := fun s => Roomy s.tree → Grown s ∧ (s.pc ≠ .exited → Complete mg s))
    (fun s hs _ => ?_) (fun s act s' _ ih hg hs hr => ?_) h hr
  · cases hs
    exact ⟨.boot t, fun _ => .boot mg t⟩
  · have hstep := growth_cases (hG s act hg) hs
    have hr' := hr.mono hstep.extends
    obtain ⟨hgrown, hcomplete⟩ := ih hr'
    exact ⟨hgrown.step hr' hstep, fun hx => (hcomplete (hstep.alive hx)).step hgrown hr' hstep hx⟩

/-- No file of the group's type is hidden, nor lies in a hidden directory.  The scans pass over
hidden names and the events do not, so that this is what the two may differ in. -/
def Unhidden (mg : MonitorGroup) (t : Tree root) : Prop :=
  ∀ m, Monitored mg t m → Visible root m

/-- **What is queued when all is quiet**: the files of the group's type. -/
theorem mem_queued_iff (h : Complete mg s) (hq : s.Quiet) (hv : Unhidden mg s.tree)
    {x : Path × Path} : x ∈ s.queued ↔
      Monitored mg s.tree x.1 ∧ addFileSuffixProcess mg x.1 = some x.2 := by
  constructor
  · rintro ⟨f, hf, rfl⟩
    exact h.sound f hf
  · rintro ⟨hm, hsrc⟩
    have hqueued : s.Queued x.1 := by
      rcases h.files x.1 hm (hv _ hm) with hf | ⟨e, he, -⟩ | ha | ⟨e, he, -⟩
      · exact hf
      · rw [hq.pending] at he
        cases he
      · rw [hq.loop] at ha
        exact ha.elim
      · rw [hq.pending] at he
        cases he
    obtain ⟨f, hf, he⟩ := hqueued
    have hs := (h.sound f hf).2
    rw [he, hsrc] at hs
    exact ⟨f, hf, Prod.ext he (Option.some.inj hs).symm⟩

/-- The trees have the same directories and files. -/
def SameEntries (t t' : Tree root) : Prop :=
  ∀ p, (t.entry p).map Entry.isDir = (t'.entry p).map Entry.isDir

theorem SameEntries.symm {t t' : Tree root} (h : SameEntries t t') : SameEntries t' t :=
  fun p => (h p).symm

theorem SameEntries.file {t t' : Tree root} (h : SameEntries t t') {m : Path}
    (hm : Monitored mg t m) : Monitored mg t' m := by
  obtain ⟨⟨i, hi⟩, ht, hl⟩ := hm
  have := h m
  rw [hi] at this
  obtain ⟨⟨b, j⟩, hj, hb⟩ := Option.map_eq_some_iff.mp this.symm
  cases hb
  exact ⟨⟨j, hj⟩, ht, hl⟩

theorem SameEntries.roomy {t t' : Tree root} (h : SameEntries t t') (hr : Roomy t) : Roomy t' := by
  have hdir : ∀ {p i}, t'.dir p = some i → ∃ j, t.dir p = some j := by
    intro p i hi
    have := h p
    rw [Tree.dir_eq_some.mp hi] at this
    obtain ⟨⟨b, j⟩, hj, hb⟩ := Option.map_eq_some_iff.mp this
    cases hb
    exact ⟨j, Tree.dir_eq_some.mpr hj⟩
  have hentry : ∀ {p e}, t'.entry p = some e → ∃ f, t.entry p = some f := by
    intro p e he
    have := h p
    rw [he] at this
    obtain ⟨f, hf, -⟩ := Option.map_eq_some_iff.mp this
    exact ⟨f, hf⟩
  refine ⟨fun p i hi => ?_, fun p e he hl => ?_, fun p e he hl => ?_⟩
  · obtain ⟨j, hj⟩ := hdir hi
    exact hr.dir p j hj
  · obtain ⟨f, hf⟩ := hentry he
    refine Option.eq_none_iff_forall_ne_some.mpr fun i hi => ?_
    obtain ⟨j, hj⟩ := hdir hi
    rw [hr.cutDir p f hf hl] at hj
    cases hj
  · obtain ⟨f, hf⟩ := hentry he
    refine Option.eq_none_iff_forall_ne_some.mpr fun x hx => ?_
    obtain ⟨y, hy⟩ := hentry hx
    rw [hr.cutFile p f hf hl] at hy
    cases hy

/-- **The scan at start-up and the events queue the same files**, if no file of the group's
type is hidden: a thread started on the tree `t`, and one started on a part of it while the
rest is made in any order. -/
theorem scan_and_events_agree (mg : MonitorGroup) {t t₀ : Tree root} (hspace : Spacious t)
    (hv : Unhidden mg t) {s₁ s₂ : MonitorState root}
    (h₁ : ((monitorSystem root mg).startingAt (.boot t)).Reach
      (fun _ act => act.grows = true ∧ act.makes = none) s₁)
    (hq₁ : s₁.Quiet)
    (h₂ : ((monitorSystem root mg).startingAt (.boot t₀)).Reach (fun _ act => act.grows = true) s₂)
    (hsame : SameEntries s₂.tree t) (hq₂ : s₂.Quiet) : s₁.queued = s₂.queued := by
  have hr := hspace.toRoomy
  have htree : s₁.tree = t := by
    refine System.Reach.invariant (I := fun s => s.tree = t) (fun s hs => ?_)
      (fun s act s' _ ih hg hs => ?_) h₁
    · cases hs
      rfl
    · cases growth_cases hg.1 hs with
      | made ha => exact absurd (ha.symm.trans hg.2) (by simp)
      | signal => exact ih
      | thread h => exact h.tree_eq.trans ih
  have hr₂ := hsame.symm.roomy hr
  have hv₂ : Unhidden mg s₂.tree := fun m hm => hv m (hsame.file hm)
  have hc₁ := (Complete.reach (fun _ _ h => h.1) h₁ (htree ▸ hr)).2 (by rw [hq₁.loop]; simp)
  have hc₂ := (Complete.reach (fun _ _ h => h) h₂ hr₂).2 (by rw [hq₂.loop]; simp)
  ext x
  rw [mem_queued_iff hc₁ hq₁ (htree ▸ hv), mem_queued_iff hc₂ hq₂ hv₂, htree]
  exact and_congr_left fun _ => ⟨hsame.symm.file, hsame.file⟩

/-! ### Sample runs -/

/-- The thread waits for events. -/
def MonitorPc.isLoop : MonitorPc → Bool
  | .loop => true
  | _ => false

theorem MonitorPc.eq_loop {pc : MonitorPc} (h : pc.isLoop = true) : pc = .loop := by
  cases pc with
  | loop => rfl
  | _ => cases h

/-- Short paths fit into the buffers. -/
theorem spacious_of_short {t : Tree root}
    (h : ∀ x ∈ t.entries.entries, x.1.length < WDQUEUE_PATH_LEN) : Spacious t := by
  have hshort : ∀ {p e}, t.entry p = some e → p.length < WDQUEUE_PATH_LEN :=
    fun he => h _ (List.of_mem_dlookup he)
  refine ⟨⟨fun p i hp => hshort (Tree.dir_eq_some.mp hp), fun p e hp hl => ?_,
    fun p e hp hl => ?_⟩, fun p e q hp hl _ => ?_⟩
  · exact absurd (hshort hp) (not_lt.mpr hl)
  · exact absurd ((hshort hp).trans (by decide)) (not_lt.mpr hl)
  · exact absurd (hshort hp) (not_lt.mpr hl)

theorem SameEntries.of_eq {t t' : Tree root} (h : t.entries.entries = t'.entries.entries) :
    SameEntries t t' := by
  intro p
  rw [Tree.entry, Tree.entry, AList.lookup, AList.lookup, h]

/-- What a run has come to. -/
structure Outcome where
  /-- The thread waits for events. -/
  loop : Bool
  /-- The events it has not come to. -/
  pending : List Event
  /-- The files queued, with their sources. -/
  queued : List (Path × Path)
  /-- The entries of the tree. -/
  entries : List (Sigma fun _ : List Char => Entry)
  deriving DecidableEq

/-- What the run to a state has come to. -/
def MonitorState.outcome (s : MonitorState root) : Outcome where
  loop := s.pc.isLoop
  pending := s.pending
  queued := s.queue.map fun f => (f.monitorfile, f.src)
  entries := s.tree.entries.entries

/-- A run of the sample group in `/m` to a quiet state. -/
theorem sample_run (t : Tree "/m".toList) {G : MonitorState "/m".toList → MonitorAct → Prop}
    (g : MonitorState "/m".toList → MonitorAct → Bool) (hG : ∀ s act, g s act = true → G s act)
    (acts : List MonitorAct) (fs : List (Path × Path))
    (es : List (Sigma fun _ : List Char => Entry))
    (hall : ((monitorSystem "/m".toList (moveGroup .cut)).startingAt (.boot t)).allowed g (.boot t)
      acts = true)
    (hrun : (((monitorSystem "/m".toList (moveGroup .cut)).startingAt (.boot t)).exec (.boot t)
      acts).map MonitorState.outcome = some ⟨true, [], fs, es⟩) :
    ∃ s, ((monitorSystem "/m".toList (moveGroup .cut)).startingAt (.boot t)).Reach G s ∧ s.Quiet ∧
      (∀ x, x ∈ s.queued ↔ x ∈ fs) ∧ s.tree.entries.entries = es := by
  obtain ⟨s, hs, he⟩ := Option.map_eq_some_iff.mp hrun
  simp only [MonitorState.outcome, Outcome.mk.injEq] at he
  obtain ⟨hloop, hpend, rfl, hes⟩ := he
  exact ⟨s, .of_exec (fun s act _ => hG s act) (.start rfl) hall hs,
    ⟨MonitorPc.eq_loop hloop, hpend⟩, fun x => List.mem_map.symm, hes⟩

theorem plainName_ok : "a.c".toList ≠ [] ∧ '/' ∉ "a.c".toList := by decide

theorem hiddenName_ok : ".c".toList ≠ [] ∧ '/' ∉ ".c".toList := by decide

/-- A name of the sample group's type. -/
def plainName : Name := ⟨"a.c".toList, plainName_ok⟩

/-- A hidden name of the sample group's type. -/
def hiddenName : Name := ⟨".c".toList, hiddenName_ok⟩

theorem sample_dir : ((Tree.base "/m".toList).dir "/m".toList).isSome = true := by decide

theorem plainName_free : (Tree.base "/m".toList).entry (child "/m".toList plainName) = none := by
  decide

theorem hiddenName_free : (Tree.base "/m".toList).entry (child "/m".toList hiddenName) = none := by
  decide

/-- The directory `/m` with the file `/m/a.c`. -/
def plainTree : Tree "/m".toList := .make (.base _) _ plainName false sample_dir plainName_free

/-- The directory `/m` with the file `/m/.c`. -/
def hiddenTree : Tree "/m".toList := .make (.base _) _ hiddenName false sample_dir hiddenName_free

/-- The scan at start-up of a directory with one entry, which is no directory. -/
def scanRun (n : Name) (isFile : List MonitorAct) : List MonitorAct :=
  [.monitor, .monitor, .readdir (some n)] ++ isFile ++ [.readdir none, .monitor,
    .readdir (some n)] ++ isFile ++ [.readdir none, .monitor, .monitor]

/-- The scan at start-up of an empty directory, and the event of a new file. -/
def eventRun (n : Name) : List MonitorAct :=
  [.monitor, .monitor, .readdir none, .monitor, .readdir none, .monitor, .monitor,
    .create "/m".toList n, .read 1, .monitor, .monitor, .monitor]

theorem plainTree_entry {m : Path} {e : Entry} (h : plainTree.entry m = some e) :
    m = child "/m".toList plainName ∨ m = "/m".toList := by
  rcases Tree.entry_make.mp h with ⟨rfl, -⟩ | h
  · exact Or.inl rfl
  · exact Or.inr (Tree.lookup_singleton h).1

/-- The theorem at the file `/m/a.c`. -/
theorem scan_and_events_agree_plain :
    ∃ s₁ s₂ : MonitorState "/m".toList, s₁.queued = s₂.queued ∧
      ("/m/a.c".toList, "/m/a".toList) ∈ s₁.queued := by
  obtain ⟨s₁, h₁, hq₁, hx₁, -⟩ := sample_run plainTree
    (G := fun _ act => act.grows = true ∧ act.makes = none)
    (fun _ act => act.grows && act.makes.isNone) (fun _ act h => by simpa using h)
    (scanRun plainName [.monitor]) [("/m/a.c".toList, "/m/a".toList)] plainTree.entries.entries
    (by decide +kernel) (by decide +kernel)
  obtain ⟨s₂, h₂, hq₂, -, hes⟩ := sample_run (.base _)
    (G := fun _ act => act.grows = true) (fun _ act => act.grows) (fun _ _ h => h)
    (eventRun plainName) [("/m/a.c".toList, "/m/a".toList)] plainTree.entries.entries
    (by decide +kernel) (by decide +kernel)
  refine ⟨s₁, s₂, scan_and_events_agree _ (spacious_of_short (by decide)) (fun m hm => ?_) h₁ hq₁ h₂
    (.of_eq hes) hq₂, (hx₁ _).mpr (List.mem_singleton_self _)⟩
  obtain ⟨i, hi⟩ := hm.file
  rcases plainTree_entry hi with rfl | rfl
  · exact Visible.here.under rfl
  · exact .here

/-- **The scan at start-up passes over hidden names, and the events do not.** -/
theorem scan_misses_hidden :
    ¬∀ (root : Path) (mg : MonitorGroup) (t : Tree root) (s₁ s₂ : MonitorState root), Spacious t →
      ((monitorSystem root mg).startingAt (.boot t)).Reach
        (fun _ act => act.grows = true ∧ act.makes = none) s₁ → s₁.Quiet →
      ((monitorSystem root mg).startingAt (.boot (.base root))).Reach
        (fun _ act => act.grows = true) s₂ →
      SameEntries s₂.tree t → s₂.Quiet → s₁.queued = s₂.queued := by
  intro h
  obtain ⟨s₁, h₁, hq₁, hx₁, -⟩ := sample_run hiddenTree
    (G := fun _ act => act.grows = true ∧ act.makes = none)
    (fun _ act => act.grows && act.makes.isNone) (fun _ act h => by simpa using h)
    (scanRun hiddenName []) [] hiddenTree.entries.entries
    (by decide +kernel) (by decide +kernel)
  obtain ⟨s₂, h₂, hq₂, hx₂, hes⟩ := sample_run (.base _)
    (G := fun _ act => act.grows = true) (fun _ act => act.grows) (fun _ _ h => h)
    (eventRun hiddenName) [("/m/.c".toList, "/m/".toList)] hiddenTree.entries.entries
    (by decide +kernel) (by decide +kernel)
  have hmem := (hx₂ _).mpr (List.mem_singleton_self _)
  rw [← h _ _ _ s₁ s₂ (spacious_of_short (by decide)) h₁ hq₁ h₂ (.of_eq hes) hq₂, hx₁] at hmem
  cases hmem

end Runs

end Newiup
