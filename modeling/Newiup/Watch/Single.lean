import Newiup.Watch.Agree

/-!
# A file is queued once

A file that is made while a scan still comes to it, in a directory that is watched, is
found twice: by the scan and through its event.  So is everything in a directory that is
made where the scan of directories still reads.  Where nothing is made like that, no file
is queued twice.

## Main definitions

* `Calm` — nothing is made where a scan still comes to it.
* `Single` — **the invariant**: no two ways are left to one file.

## Main results

* `Single.step` — **every calm step keeps the invariant.**
* `calm_queue_nodup` — **no file is queued twice** in a calm run.
* `scanned_file_queued_twice` — a file that is queued twice.
-/

namespace Newiup

variable {root : Path}

/-- **Nothing is made where a scan still comes to it**, in a directory that is watched: no
directory that `add_monitor_dir` may find, and no file of the group's type that
`add_upload_file` may. -/
structure Calm (mg : MonitorGroup) (s : MonitorState root) (act : MonitorAct) : Prop where
  /-- The other processes make directories and files only. -/
  grows : act.grows = true
  dir : ∀ p n, act.makes = some (p, n, true) → s.Watched p → ¬s.pc.DirsAhead May (child p n)
  file : ∀ p n, act.makes = some (p, n, false) → s.Watched p →
    isMonitorType (child p n) mg.monitorFileType = NEWIUP_OK →
    ¬s.pc.FilesAhead May (child p n)

/-- The thread has not come to the path, and its scan of directories does not. -/
structure Fresh (s : MonitorState root) (q : Path) : Prop where
  watched : ¬s.Watched q
  queued : ¬s.Queued q
  ahead : ∀ i, s.tree.dir q = some i → ¬s.pc.DirsAhead May q

/-- **No two ways are left to one file**: the queue, the pending events and the scan of files
have none in common.  A file is queued by a scan or by an event.  Once it is queued neither of
the two is left for it, and while one of them is left the other is not. -/
structure Single (mg : MonitorGroup) (s : MonitorState root) : Prop where
  nodup : (s.queue.map QueuedFile.monitorfile).Nodup
  /-- What is queued is a file. -/
  file : ∀ m, s.Queued m → ∃ i, s.tree.entry m = some ⟨false, i⟩
  /-- No two events are about one entry. -/
  apart : s.pending.Pairwise fun e f => ∀ p, s.On e p → ¬s.On f p
  /-- A directory that an event has added is fresh, with all in it. -/
  fresh : ∀ e ∈ s.pending, e.adds = true → ∀ p q, s.On e p → Within p q → Fresh s q
  /-- No event is about a file in the queue, -/
  noted : ∀ e ∈ s.pending, ∀ m, s.On e m → ¬s.Queued m
  /-- and no scan comes to one, -/
  scanned : ∀ m, s.Queued m → ¬s.pc.FilesAhead May m
  /-- or to a file an event is about. -/
  told : ∀ e ∈ s.pending, e.isDir = false → ∀ m, s.On e m →
    isMonitorType m mg.monitorFileType = NEWIUP_OK → ¬s.pc.FilesAhead May m

section Steps

variable {mg : MonitorGroup} {s s' : MonitorState root} {act : MonitorAct} {p q m : Path}
  {n : Name} {e : Event} {es : List Event}

/-- What an event has added is a directory. -/
theorem Grown.dir_of_adds (h : Grown s) (he : e ∈ s.pending) (ha : e.adds = true)
    (ho : s.On e p) : ∃ i, s.tree.dir p = some i := by
  obtain ⟨-, q, ⟨b, i⟩, hq, hx, hd⟩ := h.told e he
  obtain rfl := on_unique ho hq
  cases hd.symm.trans (Bool.and_eq_true_iff.mp ha).1
  exact ⟨i, Tree.dir_eq_some.mpr hx⟩

/-- An event that is not one of a directory is about a file. -/
theorem Grown.file_of_told (h : Grown s) (he : e ∈ s.pending) (hd : e.isDir = false)
    (ho : s.On e p) : ∃ i, s.tree.entry p = some ⟨false, i⟩ := by
  obtain ⟨-, q, ⟨b, i⟩, hq, hx, hb⟩ := h.told e he
  obtain rfl := on_unique ho hq
  cases hd.symm.trans hb
  exact ⟨i, hx⟩

/-- An event about a file is not one of a directory. -/
theorem Grown.not_isDir (h : Grown s) (he : e ∈ s.pending) (ho : s.On e p) {i : ℕ}
    (hf : s.tree.entry p = some ⟨false, i⟩) : e.isDir = false := by
  obtain ⟨-, q, x, hq, hx, hb⟩ := h.told e he
  obtain rfl := on_unique ho hq
  rw [hb, Option.some.inj (hx.symm.trans hf)]

/-- A walk that comes to an entry has not cut its path. -/
theorem visible_of_cut {t : Tree root} {len : ℕ} {x y : Entry} (hr : Roomy t)
    (hlen : WDQUEUE_PATH_LEN ≤ len) (hp : t.entry p = some x) (hq : t.entry q = some y)
    (hno : ∀ c, Cut t len c → t.dir c = none ∧ q ≠ c) (hv : Visible (snprintf len p) q) :
    Visible p q := by
  rcases cut_or_eq hp len with hc | hc
  · rw [hc] at hv
    exact hv
  · exfalso
    have hroot := within_root_of_cut hr hlen hc hq hv.within
    rcases dir_of_visible hq hroot hv with he | ⟨j, hj⟩
    · exact (hno _ hc).2 he
    · rw [(hno _ hc).1] at hj
      cases hj

/-- The queue does not depend on where the thread is. -/
theorem queueNodeAdd_pc (s : MonitorState root) (mg : MonitorGroup) (w : ℕ) (m : Path)
    (pc : MonitorPc) : ({ s with pc := pc } : MonitorState root).queueNodeAdd mg w m =
      { s.queueNodeAdd mg w m with pc := pc } := by
  unfold MonitorState.queueNodeAdd
  split <;> rfl

theorem queueNodeAdd_read (s : MonitorState root) (mg : MonitorGroup) (w : ℕ) (m : Path)
    (buffer : List Event) (pc : MonitorPc) :
    ({ s with buffer := buffer, pc := pc } : MonitorState root).queueNodeAdd mg w m =
      { s.queueNodeAdd mg w m with buffer := buffer, pc := pc } := by
  unfold MonitorState.queueNodeAdd
  split <;> rfl

namespace Single

/-- A file in a watched directory does not lie in one that an event has added. -/
theorem not_within (h : Single mg s) (hg : Grown s) (he : e ∈ s.pending) (ha : e.adds = true)
    (ho : s.On e p) (hq : s.Watched q) {i : ℕ} (hf : s.tree.entry (child q n) = some ⟨false, i⟩) :
    ¬Within p (child q n) := by
  intro hw
  rcases within_child_iff.mp hw with rfl | hw
  · obtain ⟨j, hj⟩ := hg.dir_of_adds he ha ho
    rw [Tree.dir_eq_some.mp hj] at hf
    cases hf
  · exact (h.fresh e he ha p q ho hw).watched hq

/-- The thread moves, and comes to nothing new. -/
theorem move (h : Single mg s) (hg : Grown s) {pc : MonitorPc}
    (hd : ∀ d i, s.tree.dir d = some i → pc.DirsAhead May d → s.pc.DirsAhead May d)
    (hf : ∀ m i, s.tree.entry m = some ⟨false, i⟩ → pc.FilesAhead May m →
      s.pc.FilesAhead May m) :
    Single mg { s with pc := pc } where
  nodup := h.nodup
  file := h.file
  apart := h.apart
  fresh e he ha p q ho hw :=
    have hq := h.fresh e he ha p q ho hw
    ⟨hq.watched, hq.queued, fun i hi hc => hq.ahead i hi (hd q i hi hc)⟩
  noted := h.noted
  scanned m hm hc := by
    obtain ⟨i, hi⟩ := h.file m hm
    exact h.scanned m hm (hf m i hi hc)
  told e he hb m ho ht hc := by
    obtain ⟨i, hi⟩ := hg.file_of_told he hb ho
    exact h.told e he hb m ho ht (hf m i hi hc)

/-- A step of `add_monitor_dir`. -/
theorem dirsMove (h : Single mg s) (hg : Grown s) {top : Path} {frames frames' : List DirsFrame}
    {pos pos' : DirsPos} (hpc : s.pc = .dirs top frames pos)
    (hd : ∀ d i, s.tree.dir d = some i → Ahead May (frames'.map DirsFrame.opened) pos'.walk d →
      Ahead May (frames.map DirsFrame.opened) pos.walk d) :
    Single mg { s with pc := .dirs top frames' pos' } := by
  refine h.move hg (fun d i hi ha => ?_) (fun m _ _ ha => ?_)
  · rw [hpc]
    exact hd d i hi ha
  · rw [hpc]
    exact ha

/-- A step of `add_upload_file`. -/
theorem filesMove (h : Single mg s) (hg : Grown s) {top : Path}
    {frames frames' : List FilesFrame} {pos pos' : FilesPos} (hpc : s.pc = .files top frames pos)
    (hf : ∀ m i, s.tree.entry m = some ⟨false, i⟩ →
      Ahead May (frames'.map FilesFrame.opened) pos'.walk m →
      Ahead May (frames.map FilesFrame.opened) pos.walk m) :
    Single mg { s with pc := .files top frames' pos' } := by
  refine h.move hg (fun d i _ ha => ha.elim) (fun m i hi ha => ?_)
  rw [hpc]
  exact hf m i hi ha

/-- Events are read into the buffer. -/
theorem read (h : Single mg s) (hg : Grown s) {buffer events : List Event}
    (hb : buffer ++ events = s.pending) :
    Single mg { s with events := events, buffer := buffer, pc := .inner } := by
  have hmove : Single mg { s with pc := .inner } :=
    h.move hg (fun _ _ _ ha => ha.elim) (fun _ _ _ ha => ha.elim)
  have hpend : ∀ e ∈ buffer ++ events, e ∈ s.pending := by
    rw [hb]
    exact fun _ he => he
  refine ⟨hmove.nodup, hmove.file, ?_, fun e he ha p q ho hw => ?_,
    fun e he => hmove.noted e (hpend e he), hmove.scanned, fun e he => hmove.told e (hpend e he)⟩
  · show (buffer ++ events).Pairwise _
    rw [hb]
    exact hmove.apart
  · have hq := hmove.fresh e (hpend e he) ha p q ho hw
    exact ⟨hq.watched, hq.queued, hq.ahead⟩

/-- An event is read; the thread comes to what it has added. -/
theorem pop (h : Single mg s) (hg : Grown s) {pc : MonitorPc} (hb : s.buffer = e :: es)
    (hd : ∀ d, pc.DirsAhead May d → e.adds = true ∧ ∃ p, s.On e p ∧ Visible p d)
    (hf : ∀ m, pc.FilesAhead May m → e.adds = true ∧ ∃ p, s.On e p ∧ Visible p m) :
    Single mg { s with buffer := es, pc := pc } := by
  have hpending : s.pending = e :: (es ++ s.events) := by
    rw [MonitorState.pending, hb]
    rfl
  have he : e ∈ s.pending := hpending ▸ List.mem_cons_self
  have hpend : ∀ e' ∈ es ++ s.events, e' ∈ s.pending := fun e' he' =>
    hpending ▸ List.mem_cons_of_mem e he'
  have hapart := h.apart
  rw [hpending, List.pairwise_cons] at hapart
  -- two events have nothing in common, at or below what they are about
  have hcross : ∀ e' ∈ es ++ s.events, ∀ p p', s.On e p → s.On e' p' → e.adds = true →
      ¬Within p p' := by
    intro e' he' p p' ho ho' ha hw
    obtain ⟨d, n, rfl, hd, -⟩ := hg.watched_of_on ho'
    rcases within_child_iff.mp hw with rfl | hw
    · exact hapart.1 e' he' _ ho ho'
    · exact (h.fresh e he ha p d ho hw).watched hd
  refine ⟨h.nodup, h.file, hapart.2, fun e' he' ha' p' q ho' hw' => ?_,
    fun e' he' => h.noted e' (hpend e' he'), fun m hm hc => ?_, fun e' he' hb' m ho' ht hc => ?_⟩
  · have hq := h.fresh e' (hpend e' he') ha' p' q ho' hw'
    refine ⟨hq.watched, hq.queued, fun i hi hc => ?_⟩
    obtain ⟨ha, p, ho, hv⟩ := hd q hc
    rcases within_total hv.within hw' with hw | hw
    · exact hcross e' he' p p' ho ho' ha hw
    · obtain ⟨d, n, rfl, hd, -⟩ := hg.watched_of_on ho
      rcases within_child_iff.mp hw with rfl | hw
      · exact hapart.1 e' he' _ ho ho'
      · exact (h.fresh e' (hpend e' he') ha' p' d ho' hw).watched hd
  · obtain ⟨ha, p, ho, hv⟩ := hf m hc
    exact (h.fresh e he ha p m ho hv.within).queued hm
  · obtain ⟨ha, p, ho, hv⟩ := hf m hc
    exact hcross e' he' p m ho ho' ha hv.within

/-- A file that nothing else leads to is queued. -/
theorem queue (h : Single mg s) {w i : ℕ} (hm : s.tree.entry m = some ⟨false, i⟩)
    (hnew : isMonitorType m mg.monitorFileType = NEWIUP_OK → ¬s.Queued m ∧
      (∀ e ∈ s.pending, ¬s.On e m) ∧ ¬s.pc.FilesAhead May m ∧
      ∀ e ∈ s.pending, e.adds = true → ∀ p, s.On e p → ¬Within p m) :
    Single mg (s.queueNodeAdd mg w m) := by
  unfold MonitorState.queueNodeAdd
  split
  · next htype =>
    obtain ⟨hq, he, hf, ha⟩ := hnew htype
    have hcases : ∀ {q}, (∃ f ∈ s.queue ++ [⟨w, m, (addFileSuffixProcess mg m).get
        (addFileSuffixProcess_isSome htype), getWdSubpathByWd s.wdList w⟩],
        QueuedFile.monitorfile f = q) → q = m ∨ s.Queued q := by
      rintro q ⟨f, hf, rfl⟩
      rcases List.mem_append.mp hf with hf | hf
      · exact Or.inr ⟨f, hf, rfl⟩
      · obtain rfl := List.mem_singleton.mp hf
        exact Or.inl rfl
    -- a path of the new queue is the file or was there, and nothing leads to the file any more
    refine ⟨?_, fun q hq => ?_, h.apart, fun e' he' ha' p q ho hw => ?_,
      fun e' he' q ho hq => ?_, fun q hq => ?_, h.told⟩
    · dsimp only
      rw [List.map_append, List.map_singleton, List.nodup_append]
      refine ⟨h.nodup, List.nodup_singleton _, fun x hx y hy hxy => ?_⟩
      rw [List.mem_singleton.mp hy] at hxy
      obtain ⟨f, hf, rfl⟩ := List.mem_map.mp hx
      exact hq ⟨f, hf, hxy⟩
    · rcases hcases hq with rfl | hq
      · exact ⟨i, hm⟩
      · exact h.file q hq
    · have hfr := h.fresh e' he' ha' p q ho hw
      refine ⟨hfr.watched, fun hq => ?_, hfr.ahead⟩
      rcases hcases hq with rfl | hq
      · exact ha e' he' ha' p ho hw
      · exact hfr.queued hq
    · rcases hcases hq with rfl | hq
      · exact he e' he' ho
      · exact h.noted e' he' q ho hq
    · rcases hcases hq with rfl | hq
      · exact hf
      · exact h.scanned q hq
  · exact h

/-- A directory is watched. -/
theorem watch (h : Single mg s) (hg : Grown s) {top : Path} {frames : List DirsFrame}
    {fnode : Option WdNode} {w i : ℕ} {s₁ : MonitorState root}
    (hpc : s.pc = .dirs top frames (.watch p fnode)) (hi : s.tree.dir p = some i)
    (ha : AddedWatch s s₁ i w) :
    Single mg { s₁ with
      wdList := s₁.wdList ++ [newNode w p fnode]
      pc := .dirs top frames (.opendir (newNode w p fnode)) } := by
  have hpend : ∀ {e}, e ∈ s₁.buffer ++ s₁.events → e ∈ s.pending := fun he => by
    rw [ha.buffer, ha.events] at he
    exact he
  -- the events are about what they were about
  have hon : ∀ {e q}, e ∈ s.pending → MonitorState.On { s₁ with
      wdList := s₁.wdList ++ [newNode w p fnode]
      pc := .dirs top frames (.opendir (newNode w p fnode)) } e q → s.On e q := by
    intro e q he ho
    obtain ⟨-, r, x, hr, -, -⟩ := hg.told e he
    obtain ⟨d, n, hd, hn, rfl⟩ := id hr
    rw [on_unique ho ⟨d, n, path_append (ha.wdList ▸ hd), hn, rfl⟩]
    exact hr
  have hqueued : ∀ {q}, MonitorState.Queued { s₁ with
      wdList := s₁.wdList ++ [newNode w p fnode]
      pc := .dirs top frames (.opendir (newNode w p fnode)) } q → s.Queued q := by
    rintro q ⟨f, hf, he⟩
    exact ⟨f, ha.queue ▸ hf, he⟩
  have hfiles : ∀ {q}, ¬s.pc.FilesAhead May q → ¬Visible top q := fun hq => by
    rw [hpc] at hq
    exact hq
  refine ⟨?_, fun m hm => ?_, ?_, fun e he hadd p' q ho hw => ?_, fun e he m ho hm => ?_,
    fun m hm => hfiles (h.scanned m (hqueued hm)), fun e he hb m ho ht => ?_⟩
  · show (s₁.queue.map QueuedFile.monitorfile).Nodup
    rw [ha.queue]
    exact h.nodup
  · obtain ⟨j, hj⟩ := h.file m (hqueued hm)
    exact ⟨j, ha.tree ▸ hj⟩
  · show (s₁.buffer ++ s₁.events).Pairwise _
    rw [ha.buffer, ha.events]
    exact h.apart.imp_of_mem fun he hf hef p hp hp' => hef p (hon he hp) (hon hf hp')
  · have hq := h.fresh e (hpend he) hadd p' q (hon (hpend he) ho) hw
    have hahead : ∀ j, s.tree.dir q = some j →
        ¬Ahead May (frames.map DirsFrame.opened) (.here p) q := by
      intro j hj hc
      refine hq.ahead j hj ?_
      rw [hpc]
      exact hc
    refine ⟨?_, fun hm => hq.queued (hqueued hm), fun j hj hc => ?_⟩
    · rintro ⟨j, v, hj, hv⟩
      have hj' : s.tree.dir q = some j := ha.tree ▸ hj
      rcases ha.new j v hv with hv | ⟨rfl, -, -⟩
      · exact hq.watched ⟨j, v, hj', hv⟩
      · -- the scan has come to the directory
        obtain rfl := Tree.dir_inj hj' hi
        exact hahead j hj' (Or.inl .here)
    · exact hahead j (ha.tree ▸ hj) (hc.mono (fun hv => visible_iff.mpr (Or.inr hv))
        fun _ _ _ _ hc => hc)
  · exact h.noted e (hpend he) m (hon (hpend he) ho) (hqueued hm)
  · exact hfiles (h.told e (hpend he) hb m (hon (hpend he) ho) ht)

/-- `add_monitor_dir` has got a name. -/
theorem dirsName (h : Single mg s) (hg : Grown s) (hr : Roomy s.tree) {top : Path}
    {f : DirsFrame} {fs : List DirsFrame} {n : Name} (hpc : s.pc = .dirs top (f :: fs) .readdir)
    (hret : s.Returns f.stream n) :
    Single mg { s with
      pc := .dirs top (⟨f.node, f.stream.next n⟩ :: fs) (if hidden n then .readdir
        else .isDir (snprintf WDQUEUE_PATH_LEN (child f.node.path n))) } := by
  have hplaced := hg.placed
  rw [hpc] at hplaced
  obtain ⟨-, hwalk, -, -⟩ := hplaced
  obtain ⟨x, hx⟩ := Option.isSome_iff_exists.mp
    (Grown.entry_of_returns hwalk List.mem_cons_self hret)
  refine h.dirsMove hg hpc fun d i hi ha => ?_
  rw [DirsPos.walk_after] at ha
  refine of_ahead_next (n := n) (fun m => may_next) hret.1
    (ha.mono (WalkPos.after_imp fun hv => ?_) (fun _ _ _ _ hc => hc))
  refine visible_of_cut hr le_rfl hx (Tree.dir_eq_some.mp hi) (fun c hc => ?_) hv
  refine ⟨hr.not_dir hc, ?_⟩
  rintro rfl
  rw [hr.not_dir hc] at hi
  cases hi

/-- `add_upload_file` has got a name. -/
theorem filesName (h : Single mg s) (hg : Grown s) (hr : Roomy s.tree) {top : Path}
    {f : FilesFrame} {fs : List FilesFrame} {n : Name} (hpc : s.pc = .files top (f :: fs) .readdir)
    (hret : s.Returns f.stream n) :
    Single mg { s with
      pc := .files top (⟨f.path, f.wd, f.stream.next n⟩ :: fs) (if hidden n then .readdir
        else .isFile (snprintf NEWIUP_PATH_LEN (child f.path n))) } := by
  have hplaced := hg.placed
  rw [hpc] at hplaced
  obtain ⟨-, hwalk, -, -⟩ := hplaced
  obtain ⟨x, hx⟩ := Option.isSome_iff_exists.mp
    (Grown.entry_of_returns hwalk List.mem_cons_self hret)
  refine h.filesMove hg hpc fun m i hm ha => ?_
  rw [FilesPos.walk_after] at ha
  refine of_ahead_next (n := n) (fun m => may_next) hret.1
    (ha.mono (WalkPos.after_imp fun hv => ?_) (fun _ _ _ _ hc => hc))
  refine visible_of_cut hr (by decide) hx hm (fun c hc => ?_) hv
  have hno := hr.not_entry hc
  refine ⟨Option.eq_none_iff_forall_ne_some.mpr fun j hj => ?_, ?_⟩
  · rw [Tree.dir_eq_some.mp hj] at hno
    cases hno
  · rintro rfl
    rw [hno] at hm
    cases hm

/-- The scan has found a file, which is not queued, and not told of. -/
theorem fileFound (h : Single mg s) (hg : Grown s) (hr : Roomy s.tree) {top : Path}
    {f : FilesFrame} {fs : List FilesFrame} {m : Path} {i : ℕ}
    (hpc : s.pc = .files top (f :: fs) (.isFile m)) (hm : s.tree.entry m = some ⟨false, i⟩) :
    Single mg { s.queueNodeAdd mg f.wd m with pc := .files top (f :: fs) .readdir } := by
  have hplaced := hg.placed
  rw [hpc] at hplaced
  obtain ⟨-, hwalk, hframes, hpos⟩ := hplaced
  obtain ⟨hreached, -⟩ := hpos.resolve_right fun hc => by
    rw [hr.not_entry hc] at hm
    cases hm
  obtain ⟨n, -, hchild⟩ := hreached.parent f.opened rfl
  have hahead : s.pc.FilesAhead May m := by
    rw [hpc]
    exact Or.inl .here
  have hmove : Single mg { s with pc := .files top (f :: fs) .readdir } :=
    h.filesMove hg hpc fun m _ _ ha => ha.mono (fun hv => hv.elim) (fun _ _ _ _ hc => hc)
  have hqueue := hmove.queue (w := f.wd) hm fun ht => ?_
  · rw [queueNodeAdd_pc] at hqueue
    exact hqueue
  · refine ⟨fun hq => h.scanned m hq hahead, fun e he ho => ?_,
      hreached.not_ahead (fun _ _ _ hc => hc) (.refl m), fun e he hadd p ho => ?_⟩
    · exact h.told e he (hg.not_isDir he ho hm) m ho ht hahead
    · obtain rfl := hchild
      exact h.not_within hg he hadd ho (hframes f List.mem_cons_self) hm

/-- A file is queued for its event. -/
theorem newFile (h : Single mg s) (hg : Grown s) (hr : Roomy s.tree) {e : Event}
    {es : List Event} {n : Name} (hb : s.buffer = e :: es) (hn : e.name = some n)
    (hfile : (s.tree.entry (eventPath s.wdList e.wd n)).map Entry.isDir = some false) :
    Single mg { s.queueNodeAdd mg e.wd (eventPath s.wdList e.wd n) with
      buffer := es, pc := .check } := by
  obtain ⟨-, p, x, n', ho, hx, hdir, hn', hpath⟩ := hg.told_head hb
  cases hn.symm.trans hn'
  rw [hpath] at hfile ⊢
  obtain ⟨hxfile, hfull⟩ := file_of_event hr hx hfile
  rw [hfull]
  have hm : s.tree.entry p = some ⟨false, x.id⟩ := by
    obtain ⟨b, i⟩ := x
    cases hxfile
    exact hx
  have hpending : s.pending = e :: (es ++ s.events) := by
    rw [MonitorState.pending, hb]
    rfl
  have hapart := h.apart
  rw [hpending, List.pairwise_cons] at hapart
  have hpop : Single mg { s with buffer := es, pc := .check } :=
    h.pop hg hb (fun _ hc => hc.elim) (fun _ hc => hc.elim)
  have hqueue := hpop.queue (w := e.wd) hm fun ht => ?_
  · rw [queueNodeAdd_read] at hqueue
    exact hqueue
  · refine ⟨h.noted e (hpending ▸ List.mem_cons_self) p ho,
      fun e' he' ho' => hapart.1 e' he' p ho ho', fun hc => hc.elim, fun e' he' hadd q hq => ?_⟩
    obtain ⟨d, k, rfl, hd, -⟩ := hg.watched_of_on ho
    exact h.not_within hg (hpending ▸ List.mem_cons_of_mem e he') hadd hq hd hm

/-- A new directory is scanned. -/
theorem newDir (h : Single mg s) (hg : Grown s) (hr : Roomy s.tree) {e : Event}
    {es : List Event} {n : Name} (hb : s.buffer = e :: es) (hn : e.name = some n)
    (hadds : e.adds = true) :
    Single mg { s with
      buffer := es
      pc := .dirs (eventPath s.wdList e.wd n) []
        (.watch (eventPath s.wdList e.wd n) (getWdByWd s.wdList e.wd)) } := by
  obtain ⟨-, p, x, n', ho, hx, hdir, hn', hpath⟩ := hg.told_head hb
  cases hn.symm.trans hn'
  obtain ⟨i, hi⟩ := hg.dir_of_adds (List.mem_append_left _ (hb ▸ List.mem_cons_self)) hadds ho
  rw [hpath, snprintf_full (hr.dir _ _ hi)]
  refine h.pop hg hb (fun d hc => ⟨hadds, p, ho, ?_⟩) (fun m hc => ⟨hadds, p, ho, hc⟩)
  rcases hc with hv | ⟨f, hf, -⟩
  · exact hv
  · cases hf

/-- **A step of the thread keeps the invariant.** -/
theorem thread (h : Single mg s) (hg : Grown s) (hr : Roomy s.tree) (hs : ThreadMove mg s s') :
    Single mg s' := by
  have hplaced := hg.placed
  -- what lies ahead of the thread shrinks with each step of a scan; only an event that it takes
  -- from the buffer sends it to a new one
  cases hs with
  | exit => exact h.move hg (fun _ _ _ ha => ha.elim) (fun _ _ _ ha => ha.elim)
  | idle hpc hi =>
    cases hi <;> exact h.move hg (fun _ _ _ ha => ha.elim) (fun _ _ _ ha => ha.elim)
  | watch hpc hs₁ =>
    rw [hpc] at hplaced
    obtain ⟨-, -, -, -, i, hi⟩ := hplaced
    exact h.watch hg hpc hi (addedWatch hi hs₁)
  | dirsOpen hpc hi => exact h.dirsMove hg hpc fun d _ _ ha => of_ahead_open ha
  | dirsName hpc hret => exact h.dirsName hg hr hpc hret
  | @dirsEnd top f fs hpc hend =>
    cases fs with
    | nil =>
      refine h.move hg (fun _ _ _ ha => ha.elim) (fun m _ _ ha => ?_)
      rw [hpc]
      rcases ha with hv | ⟨f, hf, -⟩
      · exact visible_iff.mpr (Or.inr hv)
      · cases hf
    | cons g fs => exact h.dirsMove hg hpc fun d _ _ ha => of_ahead_end ha
  | @dirsTest top frames p hpc =>
    refine h.dirsMove hg hpc fun d _ _ ha => ha.mono (fun hv => ?_) (fun _ _ _ _ hc => hc)
    split at hv
    · exact hv
    · exact hv.elim
  | filesOpen hpc hwd hi => exact h.filesMove hg hpc fun m _ _ ha => of_ahead_open ha
  | filesName hpc hret => exact h.filesName hg hr hpc hret
  | @filesEnd top f fs hpc hend =>
    cases fs with
    | nil => exact h.move hg (fun _ _ _ ha => ha.elim) (fun _ _ _ ha => ha.elim)
    | cons g fs => exact h.filesMove hg hpc fun m _ _ ha => of_ahead_end ha
  | fileFound hpc hm => exact h.fileFound hg hr hpc hm
  | noFile hpc hno => exact h.filesMove hg hpc fun _ _ _ ha => ha
  | @filesTest top frames m hpc =>
    refine h.filesMove hg hpc fun q _ _ ha => ha.mono (fun hv => ?_) (fun _ _ _ _ hc => hc)
    split at hv
    · exact visible_iff.mpr (Or.inr hv)
    · exact hv.elim
  | read hpc hk =>
    have hb : s.buffer = [] := by
      rw [hpc] at hplaced
      exact hplaced
    refine h.read hg ?_
    rw [List.take_append_drop, MonitorState.pending, hb, List.nil_append]
  | nameless hpc hb hn =>
    obtain ⟨-, p, x, n, -, -, -, hn', -⟩ := hg.told_head hb
    rw [hn] at hn'
    cases hn'
  | @otherType e es n hpc hb hn hfile hkind htype =>
    have hpop : Single mg { s with buffer := es, pc := .inner } :=
      h.pop hg hb (fun _ hc => hc.elim) (fun _ hc => hc.elim)
    rw [← hpc] at hpop
    exact hpop
  | newFile hpc hb hn hfile hkind htype => exact h.newFile hg hr hb hn hfile
  | newDir hpc hb hn hadds hfile => exact h.newDir hg hr hb hn hadds
  | @oldDir e es n hpc hb hn hdrops =>
    rw [Event.drops, (hg.told_head hb).1, Bool.and_eq_true_iff] at hdrops
    cases hdrops.2
  | nothing hpc hb hn hadds hdrops hfile =>
    exact h.pop hg hb (fun _ hc => hc.elim) (fun _ hc => hc.elim)

/-- A scan that comes to an entry comes to its directory, or reads it, if it has not cut
the path. -/
theorem parent_ahead (hg : Grown s) (h : s.pc.DirsAhead May (child p n)) :
    s.pc.DirsAhead May p ∨ s.Watched p ∨ Cut s.tree WDQUEUE_PATH_LEN (child p n) ∨
      (s.tree.entry (child p n)).isSome = true := by
  have hplaced := hg.placed
  cases hpc : s.pc with
  | dirs top frames pos =>
    rw [hpc] at h hplaced
    obtain ⟨⟨⟨i, hi⟩, -⟩, -, hframes, hpos⟩ := hplaced
    -- what the walk has reached lies in the directory of its last stream
    have hreached : Reached top (frames.map DirsFrame.opened) (child p n) →
        s.Watched p ∨ (s.tree.entry (child p n)).isSome = true := by
      intro hr
      cases frames with
      | nil =>
        rw [hr.start rfl]
        exact Or.inr (Tree.entry_of_dir hi)
      | cons f fs =>
        obtain ⟨m, -, he⟩ := hr.parent f.opened rfl
        rw [(child_inj he).1]
        exact Or.inl (hframes f List.mem_cons_self)
    rcases h with h | ⟨f, hf, m, hc, hm, hv⟩
    · cases pos with
      | watch r fnode =>
        rcases Visible.of_child h with rfl | hv
        · exact Or.inr (Or.inr (Or.inr (Tree.entry_of_dir hpos.2.choose_spec)))
        · exact Or.inl (Or.inl hv)
      | opendir node =>
        obtain ⟨m, hm, hv⟩ := h
        rcases hv.of_child with he | hv
        · rw [(child_inj he).1]
          exact Or.inr (Or.inl hpos.2)
        · exact Or.inl (Or.inl ⟨m, hm, hv⟩)
      | readdir => exact h.elim
      | isDir r =>
        rcases Visible.of_child h with rfl | hv
        · exact Or.inr (hpos.elim (fun hr => (hreached hr).imp_right Or.inr)
            fun hc => Or.inr (Or.inl hc))
        · exact Or.inl (Or.inl hv)
    · rcases hv.of_child with he | hv
      · obtain ⟨g, hg, rfl⟩ := List.mem_map.mp hf
        rw [(child_inj he).1]
        exact Or.inr (Or.inl (hframes g hg))
      · exact Or.inl (Or.inr ⟨f, hf, m, hc, hm, hv⟩)
  | _ =>
    rw [hpc] at h
    exact h.elim

/-- An entry is made where no scan comes to it. -/
theorem made (h : Single mg s) (hg : Grown s) {b : Bool} (hp : (s.tree.dir p).isSome = true)
    (hn : s.tree.entry (child p n) = none) (hr : Roomy (s.tree.make p n b hp hn))
    (hd : b = true → s.Watched p → ¬s.pc.DirsAhead May (child p n))
    (hf : b = false → s.Watched p → isMonitorType (child p n) mg.monitorFileType = NEWIUP_OK →
      ¬s.pc.FilesAhead May (child p n)) :
    Single mg { s with
      tree := s.tree.make p n b hp hn
      events := s.events ++ s.notices p .create b n } := by
  have hext : s.tree.Extends (s.tree.make p n b hp hn) := Tree.extends_make
  obtain ⟨i, hi⟩ := Option.isSome_iff_exists.mp hp
  -- nothing was there before
  have hfree : ∀ q e, s.tree.entry q = some e → ¬Within (child p n) q := by
    intro q e hq hw
    have := Tree.entry_of_within hq ((Tree.within_root_of_dir hi).under n) hw
    rw [hn] at this
    cases this
  have hdir : ∀ q j, (s.tree.make p n b hp hn).dir q = some j →
      (q = child p n ∧ b = true) ∨ s.tree.dir q = some j := by
    intro q j hj
    rcases Tree.entry_make.mp (Tree.dir_eq_some.mp hj) with ⟨rfl, he⟩ | hj
    · cases he
      exact Or.inl ⟨rfl, rfl⟩
    · exact Or.inr (Tree.dir_eq_some.mpr hj)
  have hpend : ∀ {e}, e ∈ s.buffer ++ (s.events ++ s.notices p .create b n) →
      e ∈ s.pending ∨ s.Watched p ∧ e.isDir = b ∧ ∀ q, s.On e q → q = child p n := by
    intro e he
    rw [← List.append_assoc] at he
    refine (List.mem_append.mp he).imp_right fun he => ?_
    obtain ⟨j, w, hj, hw, rfl⟩ := mem_notices.mp he
    exact ⟨⟨j, w, hj, hw⟩, rfl, fun q ho =>
      on_unique ho ⟨p, n, hg.path_of_watch hj hw, rfl, rfl⟩⟩
  refine ⟨h.nodup, fun m hm => ?_, ?_, fun e he hadd p' q ho hw => ?_, fun e he m ho hm => ?_,
    h.scanned, fun e he hb m ho ht => ?_⟩
  · obtain ⟨j, hj⟩ := h.file m hm
    exact ⟨j, hext _ _ hj⟩
  · show (s.buffer ++ (s.events ++ s.notices p .create b n)).Pairwise _
    rw [← List.append_assoc, List.pairwise_append]
    refine ⟨h.apart, ?_, fun e he f hf q ho ho' => ?_⟩
    · unfold MonitorState.notices
      split
      · exact List.pairwise_singleton _ _
      · exact .nil
    · obtain ⟨-, r, x, hr, hx, -⟩ := hg.told e he
      obtain rfl := on_unique ho hr
      obtain ⟨j, w, hj, hw, rfl⟩ := mem_notices.mp hf
      rw [on_unique ho' ⟨p, n, hg.path_of_watch hj hw, rfl, rfl⟩, hn] at hx
      cases hx
  · rcases hpend he with hold | ⟨hwatched, rfl, hon⟩
    · have hq := h.fresh e hold hadd p' q ho hw
      refine ⟨fun hc => hq.watched (hg.watched_of_made hp hn hc), hq.queued, fun j hj hc => ?_⟩
      rcases hdir q j hj with ⟨rfl, rfl⟩ | hj
      · -- the directory lies in a fresh one
        obtain ⟨k, hk⟩ := hg.dir_of_adds hold hadd ho
        rcases within_child_iff.mp hw with rfl | hw
        · rw [Tree.dir_eq_some.mp hk] at hn
          cases hn
        · have hp' := h.fresh e hold hadd p' p ho hw
          rcases parent_ahead hg hc with hc | hc | hc | hc
          · exact hp'.ahead i hi hc
          · exact hp'.watched hc
          · have := hr.not_dir (hc.mono hext)
            rw [hj] at this
            cases this
          · rw [hn] at hc
            cases hc
      · exact hq.ahead j hj hc
    · obtain rfl := hon p' ho
      refine ⟨fun hc => ?_, fun hm => ?_, fun j hj hc => ?_⟩
      · obtain ⟨j, w, hj, -⟩ := hg.watched_of_made hp hn hc
        exact hfree q _ (Tree.dir_eq_some.mp hj) hw
      · obtain ⟨j, hj⟩ := h.file q hm
        exact hfree q _ hj hw
      · rcases hdir q j hj with ⟨rfl, hb⟩ | hj
        · exact hd hb hwatched hc
        · exact hfree q _ (Tree.dir_eq_some.mp hj) hw
  · rcases hpend he with he | ⟨-, -, hon⟩
    · exact h.noted e he m ho hm
    · obtain ⟨j, hj⟩ := h.file m hm
      rw [hon m ho, hn] at hj
      cases hj
  · rcases hpend he with he | ⟨hwatched, rfl, hon⟩
    · exact h.told e he hb m ho ht
    · obtain rfl := hon m ho
      exact hf hb hwatched ht

/-- The invariant holds when the thread is started. -/
theorem boot (mg : MonitorGroup) (t : Tree root) : Single mg (MonitorState.boot t) where
  nodup := .nil
  file m h := by
    obtain ⟨_, h, -⟩ := h
    cases h
  apart := .nil
  fresh _ h := by cases h
  noted _ h := by cases h
  scanned m h := by
    obtain ⟨_, h, -⟩ := h
    cases h
  told _ h := by cases h

/-- **Every calm step keeps the invariant.** -/
theorem step (h : Single mg s) (hg : Grown s) (hr : Roomy s'.tree) (hc : Calm mg s act)
    (hs : GrowthStep mg s act s') : Single mg s' := by
  cases hs with
  | made ha hp hn =>
    refine h.made hg hp hn hr (fun hb => ?_) (fun hb => ?_)
    · subst hb
      exact hc.dir _ _ ha
    · subst hb
      exact hc.file _ _ ha
  | signal =>
    exact ⟨h.nodup, h.file, h.apart, fun e he ha p q ho hw =>
      have hq := h.fresh e he ha p q ho hw
      ⟨hq.watched, hq.queued, hq.ahead⟩, h.noted, h.scanned, h.told⟩
  | thread hs => exact h.thread hg (hr.mono (hs.tree_eq ▸ .refl _)) hs

end Single

end Steps

/-! ### Runs -/

section Runs

/-- **No file is queued twice**, as long as nothing is made where a scan still comes to it. -/
theorem calm_queue_nodup (mg : MonitorGroup) {s : MonitorState root}
    (h : (monitorSystem root mg).Reach (Calm mg) s) (hr : Roomy s.tree) :
    (s.queue.map QueuedFile.monitorfile).Nodup := by
  have hboth : Grown s ∧ Single mg s := by
    refine System.Reach.invariant (I := fun s => Roomy s.tree → Grown s ∧ Single mg s)
      (fun s hs _ => ?_) (fun s act s' _ ih hc hs hr => ?_) h hr
    · obtain ⟨t, rfl⟩ := hs
      exact ⟨.boot t, .boot mg t⟩
    · have hstep := growth_cases hc.grows hs
      have hr' := hr.mono hstep.extends
      obtain ⟨hg, hsingle⟩ := ih hr'
      exact ⟨hg.step hr' hstep, hsingle.step hg hr hc hstep⟩
  exact hboth.2.nodup

/-- Nothing is made, or the thread waits for events. -/
def calmTest (s : MonitorState root) (act : MonitorAct) : Bool :=
  act.grows && (act.makes.isNone || s.pc.isLoop)

theorem calm_of_test {mg : MonitorGroup} {s : MonitorState root} {act : MonitorAct}
    (h : calmTest s act = true) : Calm mg s act := by
  rw [calmTest, Bool.and_eq_true, Bool.or_eq_true] at h
  have hloop : ∀ {x}, act.makes = some x → s.pc = .loop := fun hx => by
    rw [hx] at h
    exact MonitorPc.eq_loop (h.2.resolve_left (by simp))
  refine ⟨h.1, fun p n ha _ hc => ?_, fun p n ha _ _ hc => ?_⟩ <;> rw [hloop ha] at hc <;>
    exact hc.elim

/-- The theorem at the file `/m/a.c`. -/
theorem calm_queue_nodup_plain :
    ∃ s : MonitorState "/m".toList, s.queue.map QueuedFile.monitorfile = ["/m/a.c".toList] ∧
      (s.queue.map QueuedFile.monitorfile).Nodup := by
  have hrun : ((monitorSystem "/m".toList (moveGroup .cut)).exec (.boot (.base _))
      (eventRun plainName)).map (fun s => (s.queue.map QueuedFile.monitorfile,
        s.tree.entries.entries)) =
      some (["/m/a.c".toList], plainTree.entries.entries) := by decide +kernel
  obtain ⟨s, hs, he⟩ := Option.map_eq_some_iff.mp hrun
  rw [Prod.mk.injEq] at he
  have hreach : (monitorSystem "/m".toList (moveGroup .cut)).Reach (Calm (moveGroup .cut)) s :=
    .of_exec (S := monitorSystem _ _) (g := calmTest) (fun _ _ _ h => calm_of_test h)
      (.start ⟨_, rfl⟩) (by decide +kernel) hs
  exact ⟨s, he.1, calm_queue_nodup _ hreach (spacious_of_short (by rw [he.2]; decide)).toRoomy⟩

/-- A file is made after its directory is watched, and before it is read. -/
def twiceRun : List MonitorAct :=
  [.monitor, .create "/m".toList plainName, .monitor, .readdir (some plainName), .monitor,
    .readdir none, .monitor, .readdir (some plainName), .monitor, .readdir none, .monitor,
    .monitor, .read 1, .monitor]

/-- **A file that is queued twice**: it is found by the scan at start-up, and told of by an
event. -/
theorem scanned_file_queued_twice :
    ¬∀ (root : Path) (mg : MonitorGroup) (s : MonitorState root),
      (monitorSystem root mg).Reach (fun _ act => act.grows = true) s → Roomy s.tree →
      (s.queue.map QueuedFile.monitorfile).Nodup := by
  intro h
  have hrun : ((monitorSystem "/m".toList (moveGroup .cut)).exec (.boot (.base _)) twiceRun).map
      (fun s => (s.queue.map QueuedFile.monitorfile, s.tree.entries.entries)) =
      some (["/m/a.c".toList, "/m/a.c".toList], plainTree.entries.entries) := by decide +kernel
  obtain ⟨s, hs, he⟩ := Option.map_eq_some_iff.mp hrun
  rw [Prod.mk.injEq] at he
  have hreach : (monitorSystem "/m".toList (moveGroup .cut)).Reach
      (fun _ act => act.grows = true) s :=
    .of_exec (S := monitorSystem _ _) (g := fun _ act => act.grows) (fun _ _ _ h => h)
      (.start ⟨_, rfl⟩) (by decide +kernel) hs
  have hnodup := h _ _ s hreach (spacious_of_short (by rw [he.2]; decide)).toRoomy
  rw [he.1] at hnodup
  exact absurd hnodup (by decide)

end Runs

end Newiup
