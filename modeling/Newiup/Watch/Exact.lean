import Newiup.Watch.Agree
import Newiup.Watch.Churn

/-!
# The table is exact

The thread keeps the invariant as well: what a scan comes to is new, and what an event has
added or taken out is what the table has to change for.  So it is not stopped by the
operations of the other processes, and its table is right once it has read their events.

While a scan goes on the table lags behind the tree by what the scan has still to come to,
and while events wait it lags behind by what they will change.  The invariant says so much
and no more: when the scan is over and no event is pending, nothing is left that could be
missing.

## Main definitions

* `TableExact` — the table has each watched directory under its path, and once.

## Main results

* `Steady.step` — **every gentle step keeps the invariant.**
* `gentle_table_exact` — **the table is exact once all events are read.**
* `gentle_never_exits` — **the thread does not exit.**
-/

namespace Newiup

variable {root : Path}

section Thread

variable {mg : MonitorGroup} {s s' : MonitorState root} {p q top : Path} {n : Name}

namespace Steady

/-- The thread moves only. -/
theorem move (h : Steady s) {pc : MonitorPc} (hpc : s.view.Scanning root pc)
    (hb : pc = .loop → s.buffer = []) : Steady { s with pc := pc } :=
  ⟨h.settled, hpc, h.owned, hb⟩

/-- The queue is not spoken of. -/
theorem queued (h : Steady s) (queue : List QueuedFile) : Steady { s with queue := queue } :=
  ⟨h.settled, h.scanning, h.owned, h.empty⟩

/-- **The thread does not exit.** -/
theorem not_fails (h : Steady s) : ¬Fails s := by
  have hscan := h.scanning
  intro hf
  -- what the thread is about to look at is a directory that is known, or there at least
  cases hf with
  | watch hpc hnone =>
    rw [hpc] at hscan
    obtain ⟨i, hi⟩ := hscan.place.2
    rw [Tree.dir_eq_some.mp hi] at hnone
    cases hnone
  | dirsOpen hpc hnone =>
    rw [hpc] at hscan
    obtain ⟨i, -, hi, -⟩ := h.settled.watched_of_known hscan.place.2
    cases hnone.symm.trans hi
  | filesOpen hpc hnone =>
    rw [hpc] at hscan
    obtain ⟨i, -, hi, -⟩ := h.settled.watched_of_known hscan.place.2
    obtain ⟨node, hs, rfl⟩ := hscan.place.2
    obtain ⟨w, hw⟩ := getWdWdByPath_isSome hs.1
    rcases hnone with hnone | hnone
    · cases hnone.symm.trans hw
    · cases hnone.symm.trans hi
  | @slashed top frames path hpc hno hs =>
    rw [hpc] at hscan
    have hp : Reached top (frames.map DirsFrame.opened) path := hscan.place
    cases frames with
    | nil =>
      obtain rfl := hp.start rfl
      obtain ⟨i, hi⟩ := hscan.start.1
      cases hno.symm.trans hi
    | cons f fs =>
      obtain ⟨n, -, rfl⟩ := hp.parent f.opened rfl
      rw [not_slashed_child] at hs
      cases hs

/-- A directory is watched. -/
theorem watch (h : Steady s) {frames : List DirsFrame} {fnode : Option WdNode} {w : ℕ}
    {s₁ : MonitorState root} (hpc : s.pc = .dirs top frames (.watch p fnode))
    (hs₁ : s.inotifyAddWatch p = some (w, s₁)) :
    Steady { s₁ with
      wdList := s₁.wdList ++ [newNode w p fnode]
      pc := .dirs top frames (.opendir (newNode w p fnode)) } := by
  have hscan := h.scanning
  rw [hpc] at hscan
  obtain ⟨i, hi⟩ := hscan.place.2
  -- what the scan comes to is new, so the watch is
  have hunwatched : s.watch i = none := (hscan.new p (Or.inl .here)).unwatched i hi
  have hadded : s.inotifyAddWatch p = some (s.nextWd, { s with
      watch := Function.update s.watch i (some s.nextWd)
      nextWd := s.nextWd + 1 }) := by
    rw [MonitorState.inotifyAddWatch, Tree.dir_eq_some.mp hi, Option.map_some]
    dsimp only
    rw [hunwatched]
  rw [hadded] at hs₁
  cases hs₁
  obtain ⟨hsettled, hscan⟩ := hscan.registered h.settled hi (newNode s.nextWd p fnode).suboffset
  refine ⟨hsettled, hscan, fun j v hv => ?_, fun he => by cases he⟩
  by_cases hj : j = i
  · exact ⟨p, hj ▸ hi⟩
  · exact h.owned j v ((Function.update_of_ne hj ..).symm.trans hv)

/-- The names of an open stream are short. -/
theorem short_of_returns (hshort : ∀ x e, s.tree.entry x = some e → Short x)
    {frames : List (Path × Stream)} {f : Path × Stream}
    (hw : Walk s.tree.dir Short top frames) (hf : f ∈ frames) (hn : s.Returns f.2 n) :
    Short (child f.1 n) := by
  rcases hn.2 with hn | hn
  · exact hw.opened f hf n hn
  · obtain ⟨e, he⟩ := Option.isSome_iff_exists.mp ((Tree.mem_names (hw.dir f hf)).mp hn)
    exact hshort _ e he

/-- A stream that has ended has no directory to come. -/
theorem over_of_ends {frames : List (Path × Stream)} {f : Path × Stream} {i : ℕ}
    (hw : Walk s.tree.dir Short top frames) (hf : f ∈ frames) (he : s.Ends f.2)
    (hi : s.tree.dir q = some i) (hv : Visible (child f.1 n) q) : ¬Must f.2 n := fun hm => by
  have hd := hw.dir f hf
  refine hm.2 (he n hm.1 ((Tree.mem_names hd).mpr ?_))
  exact Tree.entry_of_within (Tree.dir_eq_some.mp hi) ((Tree.within_root_of_dir hd).under n)
    hv.within

theorem dirsOpen (h : Steady s) (hshort : ∀ x e, s.tree.entry x = some e → Short x)
    {frames : List DirsFrame} {node : WdNode} {i : ℕ}
    (hpc : s.pc = .dirs top frames (.opendir node)) (hi : s.tree.dir node.path = some i) :
    Steady { s with
      pc := .dirs top (⟨node, ⟨i, s.tree.names i, []⟩⟩ :: frames) .readdir } := by
  have hscan := h.scanning
  rw [hpc] at hscan
  obtain ⟨hreached, hknown⟩ := hscan.place
  refine h.move (View.DirsScan.move hscan (hscan.walk.opening hreached hi fun n hn => ?_)
    (fun f hf => ?_) trivial (fun q hq => of_ahead_open hq)
    fun q j hj hq => ahead_open (fun n hv => must_of_entry hi (Tree.dir_eq_some.mp hj) hv) hq)
    fun he => by cases he
  · obtain ⟨e, he⟩ := Option.isSome_iff_exists.mp ((Tree.mem_names hi).mp hn)
    exact hshort _ e he
  · rcases List.mem_cons.mp hf with rfl | hf
    · exact hknown
    · exact hscan.known f hf

theorem dirsName (h : Steady s) (hshort : ∀ x e, s.tree.entry x = some e → Short x)
    {f : DirsFrame} {fs : List DirsFrame} (hpc : s.pc = .dirs top (f :: fs) .readdir)
    (hret : s.Returns f.stream n) :
    Steady { s with
      pc := .dirs top (⟨f.node, f.stream.next n⟩ :: fs) (if hidden n then .readdir
        else .isDir (snprintf WDQUEUE_PATH_LEN (child f.node.path n))) } := by
  have hscan := h.scanning
  rw [hpc] at hscan
  have hn : Short (child f.node.path n) :=
    short_of_returns hshort hscan.walk (f := f.opened) List.mem_cons_self hret
  rw [snprintf_of_lt hn]
  refine h.move (View.DirsScan.move hscan (hscan.walk.next n) (fun g hg => ?_) ?_ (fun q hq => ?_)
    fun q j _ hq => ?_) fun he => by cases he
  · rcases List.mem_cons.mp hg with rfl | hg
    · exact hscan.known f List.mem_cons_self
    · exact hscan.known g (List.mem_cons_of_mem f hg)
  · cases hh : hidden n with
    | true => trivial
    | false => exact hscan.walk.reached hh
  · rw [DirsPos.walk_after] at hq
    exact of_ahead_next (fun m => may_next) hret.1 hq
  · rw [DirsPos.walk_after]
    exact ahead_next (fun m hm => must_next hm) hq

theorem dirsEnd (h : Steady s) {f : DirsFrame} {fs : List DirsFrame}
    (hpc : s.pc = .dirs top (f :: fs) .readdir) (hend : s.Ends f.stream) :
    Steady { s with
      pc := if fs.isEmpty then .files top [] (.opendir top) else .dirs top fs .readdir } := by
  have hscan := h.scanning
  rw [hpc] at hscan
  have hover : ∀ q i, s.tree.dir q = some i → ∀ n, Visible (child f.node.path n) q →
      ¬Must f.stream n := fun q i hi n hv =>
    over_of_ends hscan.walk (f := f.opened) List.mem_cons_self hend hi hv
  cases fs with
  | nil =>
    -- the scan of files follows
    refine h.move (View.DirsScan.files hscan fun q i hi hq => ?_) fun he => by cases he
    exact not_ahead_nil (ahead_end (hover q i hi) hq)
  | cons g fs =>
    exact h.move (View.DirsScan.move hscan hscan.walk.tail
      (fun g hg => hscan.known g (List.mem_cons_of_mem f hg)) trivial (fun q hq => of_ahead_end hq)
      fun q i hi hq => ahead_end (hover q i hi) hq) fun he => by cases he

theorem dirsTest (h : Steady s) {frames : List DirsFrame}
    (hpc : s.pc = .dirs top frames (.isDir p)) :
    Steady { s with
      pc := .dirs top frames (if (s.tree.dir p).isSome then
        .watch p (frames.head?.map DirsFrame.node) else .readdir) } := by
  have hscan := h.scanning
  rw [hpc] at hscan
  cases hd : s.tree.dir p with
  | none =>
    refine h.move (View.DirsScan.move hscan hscan.walk hscan.known trivial
      (fun q hq => hq.mono (fun hf => hf.elim) fun _ _ _ _ hc => hc) fun q i hi hq =>
        hq.mono (fun hv => ?_) fun _ _ _ _ hc => hc) fun he => by cases he
    -- nothing lies in what is no directory
    obtain ⟨j, hj⟩ := hscan.start.1
    have hroot := (Tree.within_root_of_dir hj).trans (Visible.within (Reached.visible hscan.place))
    rcases dir_of_visible (Tree.dir_eq_some.mp hi) hroot hv with rfl | ⟨k, hk⟩
    · cases hd.symm.trans hi
    · cases hd.symm.trans hk
  | some i =>
    exact h.move (View.DirsScan.move hscan hscan.walk hscan.known ⟨hscan.place, i, hd⟩
      (fun _ hq => hq) fun _ _ _ hq => hq) fun he => by cases he

theorem filesOpen (h : Steady s) (hshort : ∀ x e, s.tree.entry x = some e → Short x)
    {frames : List FilesFrame} {w i : ℕ} (hpc : s.pc = .files top frames (.opendir p))
    (hi : s.tree.dir p = some i) :
    Steady { s with
      pc := .files top (⟨p, w, ⟨i, s.tree.names i, []⟩⟩ :: frames) .readdir } := by
  have hscan := h.scanning
  rw [hpc] at hscan
  obtain ⟨hreached, hknown⟩ := hscan.place
  refine h.move (View.FilesScan.move hscan (hscan.walk.opening hreached hi fun n hn => ?_)
    (fun f hf => ?_) trivial fun q hq => of_ahead_open hq) fun he => by cases he
  · obtain ⟨e, he⟩ := Option.isSome_iff_exists.mp ((Tree.mem_names hi).mp hn)
    exact hshort _ e he
  · rcases List.mem_cons.mp hf with rfl | hf
    · exact hknown
    · exact hscan.known f hf

theorem filesName (h : Steady s) (hshort : ∀ x e, s.tree.entry x = some e → Short x)
    {f : FilesFrame} {fs : List FilesFrame} (hpc : s.pc = .files top (f :: fs) .readdir)
    (hret : s.Returns f.stream n) :
    Steady { s with
      pc := .files top (⟨f.path, f.wd, f.stream.next n⟩ :: fs) (if hidden n then .readdir
        else .isFile (snprintf NEWIUP_PATH_LEN (child f.path n))) } := by
  have hscan := h.scanning
  rw [hpc] at hscan
  have hn : Short (child f.path n) :=
    short_of_returns hshort hscan.walk (f := f.opened) List.mem_cons_self hret
  rw [snprintf_full hn]
  refine h.move (View.FilesScan.move hscan (hscan.walk.next n) (fun g hg => ?_) ?_ fun q hq => ?_)
    fun he => by cases he
  · rcases List.mem_cons.mp hg with rfl | hg
    · exact hscan.known f List.mem_cons_self
    · exact hscan.known g (List.mem_cons_of_mem f hg)
  · cases hh : hidden n with
    | true => trivial
    | false => exact hscan.walk.reached hh
  · rw [FilesPos.walk_after] at hq
    exact of_ahead_next (fun m => may_next) hret.1 hq

theorem filesEnd (h : Steady s) {f : FilesFrame} {fs : List FilesFrame}
    (hpc : s.pc = .files top (f :: fs) .readdir) :
    Steady { s with pc := if fs.isEmpty then .check else .files top fs .readdir } := by
  have hscan := h.scanning
  rw [hpc] at hscan
  cases fs with
  | nil => exact h.move trivial fun he => by cases he
  | cons g fs =>
    exact h.move (View.FilesScan.move hscan hscan.walk.tail
      (fun g hg => hscan.known g (List.mem_cons_of_mem f hg)) trivial fun q hq => of_ahead_end hq)
      fun he => by cases he

theorem filesTest (h : Steady s) {frames : List FilesFrame}
    (hpc : s.pc = .files top frames (.isDir p)) :
    Steady { s with
      pc := .files top frames (if (s.tree.dir p).isSome then .opendir p else .readdir) } := by
  have hscan := h.scanning
  rw [hpc] at hscan
  cases hd : s.tree.dir p with
  | none =>
    exact h.move (View.FilesScan.move hscan hscan.walk hscan.known trivial
      fun q hq => hq.mono (fun hf => hf.elim) fun _ _ _ _ hc => hc) fun he => by cases he
  | some i =>
    exact h.move (View.FilesScan.move hscan hscan.walk hscan.known
      ⟨hscan.place, hscan.all p i (Or.inl .here) hd⟩
      fun q hq => hq.mono (fun hv => visible_iff.mpr (Or.inr hv)) fun _ _ _ _ hc => hc)
      fun he => by cases he

/-! ### Events -/

/-- The view when an event has been read. -/
theorem view_pop (s : MonitorState root) {e : Event} {es : List Event} (hb : s.buffer = e :: es) :
    s.view.pending = e :: (es ++ s.events) := by
  show s.buffer ++ s.events = _
  rw [hb]
  rfl

/-- An event is read that takes out no node. -/
theorem popped (h : Steady s) {e : Event} {es : List Event} {pc : MonitorPc}
    (hb : s.buffer = e :: es) (hno : ∀ node ∈ s.wdList, ¬s.view.DropsIn [e] node.path)
    (hpc : pc = .check ∨ pc = .inner) : Steady { s with buffer := es, pc := pc } := by
  refine ⟨h.settled.pop (view_pop s hb) hno, ?_, h.owned, ?_⟩
  · rcases hpc with rfl | rfl <;> trivial
  · rintro rfl
    rcases hpc with hpc | hpc <;> cases hpc

/-- The event takes nothing out. -/
theorem not_dropsIn {V : View} {e : Event} (hd : e.drops = false) : ¬V.DropsIn [e] q := by
  rintro ⟨f, hf, hdrop, -⟩
  rw [List.mem_singleton.mp hf, hd] at hdrop
  cases hdrop

/-- The event loop makes of an event that changes the table the path it is on. -/
theorem eventPath_of_tells (h : Steady s) {e : Event} {es : List Event} (hb : s.buffer = e :: es)
    (hn : e.name = some n) (ht : e.adds = true ∨ e.drops = true) :
    ∃ d, s.view.At e d n ∧ eventPath s.wdList e.wd n = child d n ∧
      s.view.Right [] e d n := by
  obtain ⟨d, m, hat, hright⟩ := h.settled.told [] e _ (view_pop s hb) ⟨by rw [hn]; rfl, ht⟩
  obtain rfl := Option.some.inj (hn.symm.trans hat.2)
  refine ⟨d, hat, ?_, hright⟩
  have hd : getWdPathByWd s.wdList e.wd = some d := hat.1
  rw [eventPath, hd]
  exact snprintf_full hright.short

/-- A new directory is added. -/
theorem newDir (h : Steady s) {e : Event} {es : List Event} {fnode : Option WdNode}
    (hb : s.buffer = e :: es) (hn : e.name = some n) (hadds : e.adds = true) :
    Steady { s with
      buffer := es
      pc := .dirs (eventPath s.wdList e.wd n) [] (.watch (eventPath s.wdList e.wd n) fnode) } := by
  obtain ⟨d, hat, hpath, hright⟩ := h.eventPath_of_tells hb hn (Or.inl hadds)
  have hno : ∀ node ∈ s.wdList, ¬s.view.DropsIn [e] node.path := fun node _ =>
    not_dropsIn (Event.not_drops_of_adds hadds)
  have hdue := hright.due hadds
  rw [hpath]
  refine ⟨h.settled.pop (view_pop s hb) hno, View.DirsScan.first ⟨hdue.dir, Or.inr ⟨d, n, rfl, ?_⟩⟩
    fun q hv => ?_, h.owned, fun he => by cases he⟩
  · exact Settled.known_pop (view_pop s hb) hno hdue.parent
  · exact h.settled.new_of_add (view_pop s hb) hadds hat hv.within

/-- A directory that is gone is taken out. -/
theorem oldDir (h : Steady s) {e : Event} {es : List Event} (hb : s.buffer = e :: es)
    (hn : e.name = some n) (hdrops : e.drops = true) :
    Steady { s.delMonitorDir (eventPath s.wdList e.wd n) with buffer := es, pc := .check } := by
  obtain ⟨d, hat, hpath, -⟩ := h.eventPath_of_tells hb hn (Or.inr hdrops)
  rw [hpath]
  unfold MonitorState.delMonitorDir
  split
  · -- inotify_rm_watch causes an event that tells nothing
    next node hnode =>
    obtain ⟨hmem, hp⟩ := (delNode_eq_some h.settled.paths).mp hnode
    have hf : ¬Event.Tells ⟨node.wd, .ignored, false, none⟩ := by
      rintro ⟨hc, -⟩
      cases hc
    have hsettled := h.settled.taken (view_pop s hb) hdrops hat hmem hp hf
    rw [List.append_assoc] at hsettled
    refine ⟨hsettled, trivial, fun i w hw => ?_, fun he => by cases he⟩
    change (if s.watch i = some node.wd then none else s.watch i) = some w at hw
    split at hw
    · cases hw
    · exact h.owned i w hw
  · next hnone =>
    exact h.popped hb (fun node hm hd => delNode_eq_none.mp hnone node hm (hd.eq hat)) (Or.inl rfl)

/-- **A step of the thread keeps the invariant.** -/
theorem thread (h : Steady s) (hshort : ∀ x e, s.tree.entry x = some e → Short x)
    (hs : ThreadMove mg s s') : Steady s' := by
  have hscan := h.scanning
  cases hs with
  | exit hf => exact absurd hf h.not_fails
  | idle hpc hi =>
    cases hi with
    | empty hb => exact h.move trivial fun _ => hb
    | _ => exact h.move trivial fun he => by cases he
  | watch hpc hs₁ => exact h.watch hpc hs₁
  | dirsOpen hpc hi => exact h.dirsOpen hshort hpc hi
  | dirsName hpc hret => exact h.dirsName hshort hpc hret
  | dirsEnd hpc hend => exact h.dirsEnd hpc hend
  | dirsTest hpc => exact h.dirsTest hpc
  | filesOpen hpc hwd hi => exact h.filesOpen hshort hpc hi
  | filesName hpc hret => exact h.filesName hshort hpc hret
  | filesEnd hpc hend => exact h.filesEnd hpc
  | @fileFound top f fs m i hpc hm =>
    rw [hpc] at hscan
    obtain ⟨queue, hq⟩ := queueNodeAdd_eq s mg f.wd m
    rw [hq]
    exact (h.queued queue).move (View.FilesScan.move hscan hscan.walk hscan.known trivial
      fun q ha => ha.mono (fun hf => hf.elim) fun _ _ _ _ hc => hc) fun he => by cases he
  | noFile hpc hno =>
    rw [hpc] at hscan
    exact h.move (View.FilesScan.move hscan hscan.walk hscan.known hscan.place fun _ ha => ha)
      fun he => by cases he
  | filesTest hpc => exact h.filesTest hpc
  | @read k hpc hk =>
    -- no event is lost: the buffer was read to its end
    have hb := h.empty hpc
    have hview : s.events.take k ++ s.events.drop k = s.buffer ++ s.events := by
      rw [List.take_append_drop, hb, List.nil_append]
    refine ⟨?_, trivial, h.owned, fun he => by cases he⟩
    unfold MonitorState.view
    dsimp only
    rw [hview]
    exact h.settled
  | @nameless e es hpc hb hn =>
    -- IN_DELETE_SELF and IN_IGNORED come without a name
    have hpop := h.popped hb (fun node hm => ?_) (Or.inr hpc)
    · exact hpop
    · rintro ⟨f, hf, -, d, m, hat, -⟩
      rw [List.mem_singleton.mp hf] at hat
      cases hn.symm.trans hat.2
  | otherType hpc hb hn hfile hkind htype =>
    exact h.popped hb (fun node hm => not_dropsIn (Event.not_drops_of_appears hkind)) (Or.inr hpc)
  | @newFile e es n hpc hb hn hfile hkind htype =>
    obtain ⟨queue, hq⟩ := queueNodeAdd_eq s mg e.wd (eventPath s.wdList e.wd n)
    rw [hq]
    exact (h.queued queue).popped hb
      (fun node hm => not_dropsIn (Event.not_drops_of_appears hkind)) (Or.inl rfl)
  | newDir hpc hb hn hadds hfile => exact h.newDir hb hn hadds
  | oldDir hpc hb hn hdrops => exact h.oldDir hb hn hdrops
  | nothing hpc hb hn hadds hdrops hfile =>
    exact h.popped hb (fun node hm => not_dropsIn hdrops) (Or.inl rfl)

/-- The invariant holds when the thread is started. -/
theorem boot (t : Tree root) : Steady (MonitorState.boot t) := by
  have hstart : (MonitorState.boot t).view.Starts root root := ⟨t.exists_dir_root, Or.inl rfl⟩
  refine ⟨.start (fun _ _ _ => Tree.dir_inj) (fun _ _ => Tree.within_root_of_dir) (fun _ => rfl) rfl
    rfl, View.DirsScan.first hstart fun q _ => ⟨fun _ _ => rfl, fun _ _ hd => ?_, fun _ hm => ?_,
      fun ha => ?_⟩, (fun i w hw => by cases hw), fun he => by cases he⟩
  · obtain ⟨e, he, -⟩ := hd
    cases he
  · cases hm
  · obtain ⟨e, he, -⟩ := ha
    cases he

/-- **Every gentle step keeps the invariant.** -/
theorem step (h : Steady s) {act : MonitorAct} (hg : Gentle s act)
    (hs : MonitorState.step mg s act = some s') : Steady s' := by
  cases act with
  | mkdir p n => exact h.mkdir (hg.mkdir p n rfl) hs
  | create p n => exact h.create hs
  | unlink p n => exact h.unlink hs
  | rmdir p n =>
    cases hd : s.tree.dir (child p n) with
    | none =>
      simp only [MonitorState.step, MonitorState.rmdir, hd] at hs
      cases hs
    | some i =>
      obtain ⟨hp, hstill⟩ := hg.rmdir p n rfl
      exact h.rmdir (hg.short _ _ (Tree.dir_eq_some.mp hd)) hp hstill hs
  | rename p n q m => exact h.rename hg.short (fun i hi => hg.rename p n q m i rfl hi) hs
  | signal =>
    cases hs
    exact ⟨h.settled, h.scanning, h.owned, h.empty⟩
  | monitor => exact h.thread hg.short (threadStep_cases hs)
  | readdir n => exact h.thread hg.short (threadStep_cases hs)
  | read k => exact h.thread hg.short (threadStep_cases hs)

/-- **The invariant holds in every gentle run.** -/
theorem reach (h : (monitorSystem root mg).Reach Gentle s) : Steady s := by
  refine System.Reach.invariant (fun s hs => ?_) (fun s act s' _ ih hg hs => ih.step hg hs) h
  obtain ⟨t, rfl⟩ := hs
  exact .boot t

end Steady

end Thread

/-! ### Runs -/

section Runs

variable {mg : MonitorGroup} {s : MonitorState root}

/-- **The table is exact**: it has each watched directory once, under its path.  It is proved
of the moments when the thread waits and no event is pending.  In between the table lags behind
the tree, and a look-up may give the path of a directory that has been moved since. -/
structure TableExact (s : MonitorState root) : Prop where
  /-- No two nodes have the same watch, -/
  wds : (s.wdList.map WdNode.wd).Nodup
  /-- or the same path. -/
  paths : (s.wdList.map WdNode.path).Nodup
  /-- A watch has the path of the directory it is on. -/
  path : ∀ i w, s.watch i = some w →
    ∃ p, s.tree.dir p = some i ∧ getWdPathByWd s.wdList w = some p

/-- **The table is exact once all events are read**, in every gentle run.  The invariant leaves
room for the events that the thread has not read yet; once there are none, the table and the
directories have nothing left to differ in. -/
theorem gentle_table_exact (mg : MonitorGroup) {s : MonitorState root}
    (h : (monitorSystem root mg).Reach Gentle s) (hq : s.Quiet) : TableExact s := by
  have hs : Steady s := .reach h
  refine ⟨hs.settled.wds, hs.settled.paths, fun i w hw => ?_⟩
  obtain ⟨p, hp⟩ := hs.owned i w hw
  exact ⟨p, hp, hs.settled.exact hq.pending hp hw⟩

/-- The paths fit into the buffers. -/
def shortTest (t : Tree root) : Bool :=
  t.entries.entries.all fun x => x.1.length < WDQUEUE_PATH_LEN

/-- The operation is one on directories that nothing lies in, while all is quiet. -/
def quietTest (s : MonitorState root) : MonitorAct → Bool
  | .mkdir p n => s.pc.isLoop && s.pending.isEmpty && (child p n).length < WDQUEUE_PATH_LEN
  | .rmdir _ _ => s.pc.isLoop && s.pending.isEmpty
  | .rename p n q m => s.pc.isLoop && s.pending.isEmpty && s.tree.Leaf (child p n) &&
      (s.tree.entry (child q m)).isNone && (child q m).length < WDQUEUE_PATH_LEN
  | _ => true

theorem short_of_test {t : Tree root} (h : shortTest t = true) (p : Path) (e : Entry)
    (hp : t.entry p = some e) : Short p := by
  show p.length < WDQUEUE_PATH_LEN
  exact of_decide_eq_true (List.all_eq_true.mp h _ (List.of_mem_dlookup hp))

/-- Directories are heard of, and the thread is still, when all is quiet. -/
theorem Steady.heard_of_quiet (h : Steady s) (hq : s.Quiet) (p : Path) :
    s.Heard p ∧ s.Still p := by
  have hno : ∀ e, e ∉ s.view.pending := fun e he => by
    rw [show s.view.pending = [] from hq.pending] at he
    cases he
  refine ⟨?_, fun q hi => ?_, ?_⟩
  · rintro ⟨i, w, hi, hw⟩
    obtain ⟨node, hn, hnw, hp⟩ := (getWdPathByWd_eq_some h.settled.wds).mp
      (h.settled.exact hq.pending hi hw)
    exact ⟨node, ⟨hn, fun ⟨e, he, _⟩ => hno e he⟩, hp⟩
  · rw [hq.loop] at hi
    exact hi.elim
  · rintro q ⟨e, he, -⟩
    exact absurd he (hno e)

theorem Steady.welcome_of_quiet (h : Steady s) (hq : s.Quiet) {p : Path} {n : Name}
    (hn : Short (child p n)) : s.Welcome p n :=
  ⟨hn, (h.heard_of_quiet hq p).1, fun _ hf => by rw [hq.loop] at hf; exact hf.elim⟩

theorem Steady.gentle_of_test (h : Steady s) {act : MonitorAct}
    (hshort : shortTest s.tree = true) (ht : quietTest s act = true) : Gentle s act := by
  have hquiet : s.pc.isLoop = true ∧ s.pending.isEmpty = true → s.Quiet := fun hq =>
    ⟨MonitorPc.eq_loop hq.1, List.isEmpty_iff.mp hq.2⟩
  refine ⟨short_of_test hshort, fun p n ha => ?_, fun p n ha => ?_, fun p n q m i ha hi => ?_⟩ <;>
    subst ha <;>
    simp only [quietTest, Bool.and_eq_true, decide_eq_true_eq, Option.isNone_iff_eq_none] at ht
  · exact h.welcome_of_quiet (hquiet ht.1) ht.2
  · have hq := hquiet ht
    exact ⟨(h.heard_of_quiet hq p).1, (h.heard_of_quiet hq _).2⟩
  · obtain ⟨⟨⟨hq, hleaf⟩, hfree⟩, hn⟩ := ht
    have hq := hquiet hq
    refine ⟨(h.heard_of_quiet hq p).1, (h.heard_of_quiet hq _).2, fun r j hr hne hj => ?_,
      h.welcome_of_quiet hq hn, fun _ hd => ?_, fun _ r hr => ?_, fun j hj => ?_⟩
    · exact absurd (hleaf.eq (Tree.dir_eq_some.mp hj) hr) hne
    · rw [hq.loop] at hd
      exact hd.elim
    · exact ((h.heard_of_quiet hq r).2.awaits r hr (.refl r)).elim
    · rw [Tree.dir_eq_some.mp hj] at hfree
      cases hfree

theorem aName_ok : "a".toList ≠ [] ∧ '/' ∉ "a".toList := by decide

theorem bName_ok : "b".toList ≠ [] ∧ '/' ∉ "b".toList := by decide

theorem cName_ok : "c".toList ≠ [] ∧ '/' ∉ "c".toList := by decide

/-- The names of three directories. -/
def aName : Name := ⟨"a".toList, aName_ok⟩

def bName : Name := ⟨"b".toList, bName_ok⟩

def cName : Name := ⟨"c".toList, cName_ok⟩

/-- The scan at start-up of an empty directory. -/
def emptyScan : List MonitorAct :=
  [.monitor, .monitor, .readdir none, .monitor, .readdir none, .monitor, .monitor]

/-- Once the thread waits, a directory is made in `/m`, and renamed after its event is read. -/
def gentleRun : List MonitorAct :=
  emptyScan ++ [.mkdir "/m".toList aName, .read 1, .monitor] ++ emptyScan ++
    [.rename "/m".toList aName "/m".toList cName, .read 2, .monitor, .monitor, .monitor] ++
    emptyScan ++ [.read 1, .monitor, .monitor]

/-- A gentle run to a quiet state. -/
theorem gentle_sample : ∃ s : MonitorState "/m".toList,
    (monitorSystem _ (moveGroup .cut)).Reach Gentle s ∧ s.Quiet ∧
      s.wdList.map WdNode.path = ["/m".toList, "/m/c".toList] := by
  have hrun : ((monitorSystem "/m".toList (moveGroup .cut)).exec (.boot (.base _)) gentleRun).map
      (fun s => (s.pc.isLoop, s.pending, s.wdList.map WdNode.path)) =
      some (true, [], ["/m".toList, "/m/c".toList]) := by decide +kernel
  obtain ⟨s, hs, he⟩ := Option.map_eq_some_iff.mp hrun
  rw [Prod.mk.injEq, Prod.mk.injEq] at he
  refine ⟨s, .of_exec (g := fun s act => shortTest s.tree && quietTest s act) (fun _ _ hr ht => ?_)
    (.start ⟨_, rfl⟩) (by decide +kernel) hs, ⟨MonitorPc.eq_loop he.1, he.2.1⟩, he.2.2⟩
  rw [Bool.and_eq_true] at ht
  exact (Steady.reach hr).gentle_of_test ht.1 ht.2

/-- The theorem at a directory that is made and renamed. -/
theorem gentle_table_exact_renamed : ∃ s : MonitorState "/m".toList,
    s.wdList.map WdNode.path = ["/m".toList, "/m/c".toList] ∧ TableExact s := by
  obtain ⟨s, hs, hq, ht⟩ := gentle_sample
  exact ⟨s, ht, gentle_table_exact _ hs hq⟩

/-- The other processes make no files. -/
def MonitorAct.onDirs : MonitorAct → Bool
  | .create _ _ => false
  | .unlink _ _ => false
  | _ => true

/-- The other processes make, remove and rename directories, and the paths fit into the
buffers. -/
structure Churns (s : MonitorState root) (act : MonitorAct) : Prop where
  short : ∀ p e, s.tree.entry p = some e → Short p
  dirs : act.onDirs = true

theorem churns_of_test {act : MonitorAct} (h : (shortTest s.tree && act.onDirs) = true) :
    Churns s act := by
  rw [Bool.and_eq_true] at h
  exact ⟨short_of_test h.1, h.2⟩

/-- The directory `/m/a` with the directory `/m/a/b` is scanned, and renamed to `/m/c`. -/
def nestedRun : List MonitorAct :=
  [.mkdir "/m".toList aName, .mkdir "/m/a".toList bName, .monitor, .monitor,
    .readdir (some aName), .monitor, .monitor, .monitor, .readdir (some bName), .monitor, .monitor,
    .monitor, .readdir none, .readdir none, .readdir none, .monitor, .readdir (some aName),
    .monitor, .monitor, .monitor, .readdir (some bName), .monitor, .monitor, .monitor,
    .readdir none, .readdir none, .readdir none, .monitor, .monitor,
    .rename "/m".toList aName "/m".toList cName, .read 2, .monitor, .monitor, .monitor,
    .monitor, .monitor, .readdir (some bName), .monitor, .monitor, .monitor, .readdir none,
    .readdir none, .monitor, .readdir (some bName), .monitor, .monitor, .monitor, .readdir none,
    .readdir none, .monitor, .monitor, .read 1, .monitor, .monitor]

/-- **A rename leaves a node for a directory below it**: the directory has another for the same
watch then. -/
theorem rename_leaves_node :
    ¬∀ (root : Path) (mg : MonitorGroup) (s : MonitorState root),
      (monitorSystem root mg).Reach Churns s → s.Quiet → TableExact s := by
  intro h
  have hrun : ((monitorSystem "/m".toList (moveGroup .cut)).exec (.boot (.base _)) nestedRun).map
      (fun s => (s.pc.isLoop, s.pending, s.wdList.map WdNode.wd)) =
      some (true, [], [1, 3, 4, 3]) := by decide +kernel
  obtain ⟨s, hs, he⟩ := Option.map_eq_some_iff.mp hrun
  rw [Prod.mk.injEq, Prod.mk.injEq] at he
  have hreach : (monitorSystem "/m".toList (moveGroup .cut)).Reach Churns s :=
    .of_exec (S := monitorSystem _ _) (g := fun s act => shortTest s.tree && act.onDirs)
      (fun _ _ _ ht => churns_of_test ht) (.start ⟨_, rfl⟩) (by decide +kernel) hs
  have hwds := (h _ _ s hreach ⟨MonitorPc.eq_loop he.1, he.2.1⟩).wds
  rw [he.2.2] at hwds
  exact absurd hwds (by decide)

/-- **The thread does not exit**, in any gentle run. -/
theorem gentle_never_exits (mg : MonitorGroup) {s : MonitorState root}
    (h : (monitorSystem root mg).Reach Gentle s) : s.pc ≠ .exited := fun he => by
  have hscan := (Steady.reach h).scanning
  rw [he] at hscan
  exact hscan

/-- The theorem at a directory that is made and renamed. -/
theorem gentle_never_exits_renamed : ∃ s : MonitorState "/m".toList,
    s.wdList.map WdNode.path = ["/m".toList, "/m/c".toList] ∧ s.pc ≠ .exited := by
  obtain ⟨s, hs, -, ht⟩ := gentle_sample
  exact ⟨s, ht, gentle_never_exits _ hs⟩

/-- The thread has exited. -/
def MonitorPc.isExited : MonitorPc → Bool
  | .exited => true
  | _ => false

/-- A directory is made and removed before its event is read. -/
def briefRun : List MonitorAct :=
  emptyScan ++ [.mkdir "/m".toList aName, .rmdir "/m".toList aName, .read 1, .monitor, .monitor]

/-- **A directory that is removed before its event is read stops the daemon.** -/
theorem brief_directory_exits :
    ¬∀ (root : Path) (mg : MonitorGroup) (s : MonitorState root),
      (monitorSystem root mg).Reach Churns s → s.pc ≠ .exited := by
  intro h
  have hrun : ((monitorSystem "/m".toList (moveGroup .cut)).exec (.boot (.base _)) briefRun).map
      (fun s => s.pc.isExited) = some true := by decide +kernel
  obtain ⟨s, hs, he⟩ := Option.map_eq_some_iff.mp hrun
  refine h _ _ s (.of_exec (S := monitorSystem _ _)
    (g := fun s act => shortTest s.tree && act.onDirs)
    (fun _ _ _ ht => churns_of_test ht) (.start ⟨_, rfl⟩) (by decide +kernel) hs) ?_
  cases hpc : s.pc with
  | exited => rfl
  | _ =>
    rw [hpc] at he
    cases he

end Runs

end Newiup
