import Newiup.Watch.Walk

/-!
# Trees that only grow

While the other processes make directories and files only, paths do not change: a node of
the table has the path of the directory its watch is on, an event names an entry that is
there, and a scan is a walk of open directory streams, each inside an entry the one before
has returned.

This is what a start looks like on a tree that is still being filled.  Nothing goes away,
so what the thread has noted stays true: in the table, in the events that wait and in the
streams that are open.  Only what it has not come to is new, and the paths it makes of
what it reads are good as long as they fit into its buffers.

## Main definitions

* `Tree.Extends`, `Roomy`, `Spacious` — a tree grows, and its paths fit into the buffers.
* `Grown` — **the invariant** of the table, the events and the scans.

## Main results

* `growth_cases` — what a step does while the tree only grows.
* `Grown.step` — **every step keeps the invariant.**
-/

namespace Newiup

/-! ### Growing trees -/

/-- The tree `t'` has every entry of `t`. -/
def Tree.Extends {root : Path} (t t' : Tree root) : Prop :=
  ∀ p e, t.entry p = some e → t'.entry p = some e

/-- There is an entry at the path. -/
def Tree.Has {root : Path} (t : Tree root) (p : Path) : Prop := (t.entry p).isSome = true

/-- **The paths fit into the buffers**: those of directories do, and the text another path
is cut to names no entry it could be taken for.

A file with a path that is too long for `fullpath` is still found by `add_upload_file`, whose
buffer is twice as long, so its path need not fit; what `add_monitor_dir` makes of the text it
is cut to must be nothing, since the directory it would name is scanned for itself. -/
structure Roomy {root : Path} (t : Tree root) : Prop where
  /-- `add_monitor_dir` copies the path of a directory. -/
  dir : ∀ p i, t.dir p = some i → p.length < WDQUEUE_PATH_LEN
  /-- It cuts the path of an entry, which is no directory then, -/
  cutDir : ∀ p e, t.entry p = some e → WDQUEUE_PATH_LEN ≤ p.length →
    t.dir (snprintf WDQUEUE_PATH_LEN p) = none
  /-- and `add_upload_file` does, where it names nothing. -/
  cutFile : ∀ p e, t.entry p = some e → NEWIUP_PATH_LEN ≤ p.length →
    t.entry (snprintf NEWIUP_PATH_LEN p) = none

/-- Nor is the path of an entry cut right behind the slash of the directory it is in: `stat`
takes that text for the directory, and `add_monitor_dir` would scan it once more, and once
more in there, until it exits. -/
structure Spacious {root : Path} (t : Tree root) : Prop extends Roomy t where
  /-- The text a path is cut to is not that of a directory with a slash behind it. -/
  cutSlash : ∀ p e q, t.entry p = some e → WDQUEUE_PATH_LEN ≤ p.length →
    snprintf WDQUEUE_PATH_LEN p = q ++ ['/'] → t.dir q = none

/-- The path is what a longer one is cut to by a buffer of `len` bytes. -/
def Cut {root : Path} (t : Tree root) (len : ℕ) (p : Path) : Prop :=
  ∃ q e, t.entry q = some e ∧ len ≤ q.length ∧ p = snprintf len q

section Trees

variable {root : Path} {t t' : Tree root} {top p q : Path} {frames fs : List (Path × Stream)}
  {f : Path × Stream} {n : Name} {i : ℕ} {e : Entry} {len : ℕ}

theorem Tree.Extends.refl (t : Tree root) : t.Extends t := fun _ _ h => h

theorem Tree.Extends.dir (h : t.Extends t') (hp : t.dir p = some i) : t'.dir p = some i :=
  Tree.dir_eq_some.mpr (h _ _ (Tree.dir_eq_some.mp hp))

theorem Tree.Extends.isSome (h : t.Extends t') (hp : (t.entry p).isSome = true) :
    (t'.entry p).isSome = true := by
  obtain ⟨e, he⟩ := Option.isSome_iff_exists.mp hp
  rw [h p e he]
  rfl

theorem Tree.Extends.entry_none (h : t.Extends t') (hp : t'.entry p = none) : t.entry p = none := by
  cases he : t.entry p with
  | none => rfl
  | some e =>
    rw [h p e he] at hp
    cases hp

theorem Tree.Extends.dir_none (h : t.Extends t') (hp : t'.dir p = none) : t.dir p = none := by
  cases he : t.dir p with
  | none => rfl
  | some i =>
    rw [h.dir he] at hp
    cases hp

theorem Tree.extends_make {b : Bool} {hp : (t.dir p).isSome = true}
    {hn : t.entry (child p n) = none} : t.Extends (t.make p n b hp hn) :=
  fun _ _ h => Tree.entry_make.mpr (Or.inr h)

theorem Roomy.mono (h : Roomy t') (he : t.Extends t') : Roomy t where
  dir p i hp := h.dir p i (he.dir hp)
  cutDir p e hp hl := he.dir_none (h.cutDir p e (he p e hp) hl)
  cutFile p e hp hl := he.entry_none (h.cutFile p e (he p e hp) hl)

theorem Cut.mono (h : Cut t len p) (he : t.Extends t') : Cut t' len p := by
  obtain ⟨q, e, hq, hl, rfl⟩ := h
  exact ⟨q, e, he q e hq, hl, rfl⟩

/-- The path of an entry is copied whole, or cut. -/
theorem cut_or_eq (hp : t.entry p = some e) (len : ℕ) :
    snprintf len p = p ∨ Cut t len (snprintf len p) := by
  by_cases h : p.length < len
  · exact Or.inl (snprintf_of_lt h)
  · exact Or.inr ⟨p, e, hp, not_lt.mp h, rfl⟩

theorem Roomy.not_dir (h : Roomy t) (hc : Cut t WDQUEUE_PATH_LEN p) : t.dir p = none := by
  obtain ⟨q, e, hq, hl, rfl⟩ := hc
  exact h.cutDir q e hq hl

theorem Roomy.not_entry (h : Roomy t) (hc : Cut t NEWIUP_PATH_LEN p) : t.entry p = none := by
  obtain ⟨q, e, hq, hl, rfl⟩ := hc
  exact h.cutFile q e hq hl

end Trees

namespace MonitorState

variable {root : Path}

/-- The events the thread has not come to. -/
def pending (s : MonitorState root) : List Event := s.buffer ++ s.events

/-- The directory at the path is watched. -/
def Watched (s : MonitorState root) (p : Path) : Prop :=
  ∃ i w, s.tree.dir p = some i ∧ s.watch i = some w

/-- The event is one on the entry at the path, as the table has it. -/
def On (s : MonitorState root) (e : Event) (p : Path) : Prop :=
  ∃ d n, getWdPathByWd s.wdList e.wd = some d ∧ e.name = some n ∧ p = child d n

/-- The position of `add_monitor_dir` is one its walk has reached. -/
def DirsAt (s : MonitorState root) (top : Path) (frames : List (Path × Stream)) : DirsPos → Prop
  | .watch p _ => Reached top frames p ∧ ∃ i, s.tree.dir p = some i
  | .opendir node => Reached top frames node.path ∧ s.Watched node.path
  | .readdir => True
  | .isDir p => Reached top frames p ∨ Cut s.tree WDQUEUE_PATH_LEN p

/-- The position of `add_upload_file` is one its walk has reached. -/
def FilesAt (s : MonitorState root) (top : Path) (frames : List (Path × Stream)) : FilesPos → Prop
  | .opendir p => Reached top frames p ∧ ∃ i, s.tree.dir p = some i
  | .readdir => True
  | .isFile p =>
      Reached top frames p ∧ (s.tree.entry p).isSome = true ∨ Cut s.tree NEWIUP_PATH_LEN p
  | .isDir p =>
      Reached top frames p ∧ (∃ i, s.tree.dir p = some i) ∨ Cut s.tree NEWIUP_PATH_LEN p

/-- A scan starts at a directory of a watched one. -/
def Starts (s : MonitorState root) (top : Path) : Prop :=
  (∃ i, s.tree.dir top = some i) ∧ (top = root ∨ ∃ d n, top = child d n ∧ s.Watched d)

/-- The thread is where its walks have led it. -/
def Placed (s : MonitorState root) : MonitorPc → Prop
  | .dirs top frames pos =>
      s.Starts top ∧ Walk s.tree.dir s.tree.Has top (frames.map DirsFrame.opened) ∧
        (∀ f ∈ frames, s.Watched f.node.path) ∧ s.DirsAt top (frames.map DirsFrame.opened) pos
  | .files top frames pos =>
      s.Starts top ∧ Walk s.tree.dir s.tree.Has top (frames.map FilesFrame.opened) ∧
        (∀ f ∈ frames, s.Watched f.path) ∧ s.FilesAt top (frames.map FilesFrame.opened) pos
  | .loop => s.buffer = []
  | _ => True

end MonitorState

/-- The other processes make directories and files only. -/
def MonitorAct.grows : MonitorAct → Bool
  | .unlink _ _ => false
  | .rmdir _ _ => false
  | .rename _ _ _ _ => false
  | _ => true

/-- The entry an action makes: its directory, its name, and whether it is a directory. -/
def MonitorAct.makes : MonitorAct → Option (Path × Name × Bool)
  | .mkdir p n => some (p, n, true)
  | .create p n => some (p, n, false)
  | _ => none

/-- **While the tree only grows**: the table has the paths of the watched directories, and the
events are about entries that are there.  Paths do not change here, so that a node has the path
of its directory for good, and an event leads to the entry it was about whenever it is read. -/
structure Grown {root : Path} (s : MonitorState root) : Prop where
  /-- A node is one of a watched directory. -/
  table : ∀ node ∈ s.wdList, ∃ i, s.tree.dir node.path = some i ∧ s.watch i = some node.wd
  /-- A watch has a node. -/
  noted : ∀ i w, s.watch i = some w → ∃ node ∈ s.wdList, node.wd = w
  /-- New watches are new. -/
  wd_lt : ∀ i w, s.watch i = some w → w < s.nextWd
  /-- A watch is one of one directory. -/
  wd_inj : ∀ i j w, s.watch i = some w → s.watch j = some w → i = j
  /-- What is watched lies in a directory that is. -/
  rooted : ∀ p, s.Watched p → p = root ∨ ∃ d n, p = child d n ∧ s.Watched d
  /-- An event tells of an entry that was made. -/
  told : ∀ e ∈ s.pending, e.kind = .create ∧
    ∃ p x, s.On e p ∧ s.tree.entry p = some x ∧ e.isDir = x.isDir
  /-- The thread is where its walks have led it. -/
  placed : s.Placed s.pc

/-- What a step does while the tree only grows. -/
inductive GrowthStep {root : Path} (mg : MonitorGroup) (s : MonitorState root) (act : MonitorAct) :
    MonitorState root → Prop
  | made {p n b} (ha : act.makes = some (p, n, b)) (hp : (s.tree.dir p).isSome = true)
      (hn : s.tree.entry (child p n) = none) :
      GrowthStep mg s act { s with
        tree := s.tree.make p n b hp hn
        events := s.events ++ s.notices p .create b n }
  | signal : GrowthStep mg s act { s with run := false }
  | thread {s'} (h : ThreadMove mg s s') : GrowthStep mg s act s'

section Steps

variable {root : Path} {mg : MonitorGroup} {s s' : MonitorState root} {act : MonitorAct}

/-- **What a step does while the tree only grows.** -/
theorem growth_cases (hg : act.grows = true) (h : MonitorState.step mg s act = some s') :
    GrowthStep mg s act s' := by
  cases act with
  | mkdir p n =>
    simp only [MonitorState.step, MonitorState.mkdir] at h
    split at h
    · next hp =>
      cases h
      exact .made rfl hp.1 hp.2
    · cases h
  | create p n =>
    simp only [MonitorState.step, MonitorState.create] at h
    split at h
    · next hp =>
      cases h
      exact .made rfl hp.1 hp.2
    · cases h
  | unlink => cases hg
  | rmdir => cases hg
  | rename => cases hg
  | signal =>
    cases h
    exact .signal
  | monitor => exact .thread (threadStep_cases h)
  | readdir n => exact .thread (threadStep_cases h)
  | read k => exact .thread (threadStep_cases h)

/-- A path that is found in the table. -/
theorem exists_node_of_path {T : Wdqueue} {w : ℕ} {p : Path} (h : getWdPathByWd T w = some p) :
    ∃ node ∈ T, node.wd = w ∧ node.path = p := by
  obtain ⟨node, hf, rfl⟩ := Option.map_eq_some_iff.mp h
  exact ⟨node, List.mem_of_find?_eq_some hf, by simpa using List.find?_some hf, rfl⟩

/-- A watch that is found in the table. -/
theorem mem_of_getWdWdByPath {T : Wdqueue} {w : ℕ} {p : Path} (h : getWdWdByPath T p = some w) :
    ∃ node ∈ T, node.path = p := by
  obtain ⟨node, hf, -⟩ := Option.map_eq_some_iff.mp h
  exact ⟨node, List.mem_of_find?_eq_some hf, by simpa using List.find?_some hf⟩

/-- What the table has stays when nodes are appended. -/
theorem path_append {T T' : Wdqueue} {w : ℕ} {p : Path} (h : getWdPathByWd T w = some p) :
    getWdPathByWd (T ++ T') w = some p := by
  obtain ⟨node, hf, rfl⟩ := Option.map_eq_some_iff.mp h
  unfold getWdPathByWd getWdByWd at *
  rw [List.find?_append, hf]
  rfl

/-- The table has the path of a watched directory. -/
theorem Grown.path_of_watch (h : Grown s) {d : Path} {i w : ℕ} (hd : s.tree.dir d = some i)
    (hw : s.watch i = some w) : getWdPathByWd s.wdList w = some d := by
  obtain ⟨node, hn, hwd⟩ := h.noted i w hw
  cases hf : getWdByWd s.wdList w with
  | none => exact absurd (List.find?_eq_none.mp hf node hn) (by simpa using hwd)
  | some m =>
    have hmw : m.wd = w := by simpa using List.find?_some hf
    obtain ⟨j, hj, hwj⟩ := h.table m (List.mem_of_find?_eq_some hf)
    obtain rfl := h.wd_inj i j w hw (hmw ▸ hwj)
    rw [getWdPathByWd, hf, Option.map_some, Tree.dir_inj hj hd]

/-- An event is one on an entry of a watched directory. -/
theorem Grown.watched_of_on (h : Grown s) {e : Event} {p : Path} (ho : s.On e p) :
    ∃ d n, p = child d n ∧ s.Watched d ∧ e.name = some n ∧
      getWdPathByWd s.wdList e.wd = some d := by
  obtain ⟨d, n, hd, hn, rfl⟩ := ho
  obtain ⟨node, hm, -, rfl⟩ := exists_node_of_path hd
  obtain ⟨i, hi, hw⟩ := h.table node hm
  exact ⟨node.path, n, rfl, ⟨i, node.wd, hi, hw⟩, hn, hd⟩

theorem on_unique {e : Event} {p q : Path} (h : s.On e p) (h' : s.On e q) : p = q := by
  obtain ⟨d, n, hd, hn, rfl⟩ := h
  obtain ⟨d', n', hd', hn', rfl⟩ := h'
  cases hd.symm.trans hd'
  cases hn.symm.trans hn'
  rfl

/-- The path of an event is the one it is on, where the buffer holds it. -/
theorem eventPath_of_on {e : Event} {p : Path} {n : Name} (h : s.On e p) (hn : e.name = some n) :
    eventPath s.wdList e.wd n = snprintf NEWIUP_PATH_LEN p := by
  obtain ⟨d, m, hd, hm, rfl⟩ := h
  cases hn.symm.trans hm
  rw [eventPath, hd]
  rfl

/-- A place stays one while the tree and the watches grow. -/
theorem Placed.mono (ht : s.tree.Extends s'.tree) (hw : ∀ p, s.Watched p → s'.Watched p)
    (hb : s'.buffer = s.buffer) {pc : MonitorPc} (h : s.Placed pc) : s'.Placed pc := by
  have hstart : ∀ {top}, s.Starts top → s'.Starts top := by
    rintro top ⟨⟨i, hi⟩, h⟩
    refine ⟨⟨i, ht.dir hi⟩, h.imp_right ?_⟩
    rintro ⟨d, n, rfl, hd⟩
    exact ⟨d, n, rfl, hw d hd⟩
  -- paths that were there are there still, and so are the watches
  cases pc with
  | dirs top frames pos =>
    obtain ⟨hs, hwalk, hwd, hpos⟩ := h
    refine ⟨hstart hs, hwalk.mono (fun _ _ _ => ht.dir) (fun _ => ht.isSome),
      fun f hf => hw _ (hwd f hf), ?_⟩
    cases pos with
    | watch p fnode => exact ⟨hpos.1, hpos.2.imp fun i => ht.dir⟩
    | opendir node => exact ⟨hpos.1, hw _ hpos.2⟩
    | readdir => trivial
    | isDir p => exact hpos.imp_right fun hc => hc.mono ht
  | files top frames pos =>
    obtain ⟨hs, hwalk, hwd, hpos⟩ := h
    refine ⟨hstart hs, hwalk.mono (fun _ _ _ => ht.dir) (fun _ => ht.isSome),
      fun f hf => hw _ (hwd f hf), ?_⟩
    cases pos with
    | opendir p => exact ⟨hpos.1, hpos.2.imp fun i => ht.dir⟩
    | readdir => trivial
    | isFile p => exact hpos.imp (fun hp => ⟨hp.1, ht.isSome hp.2⟩) fun hc => hc.mono ht
    | isDir p => exact hpos.imp (fun hp => ⟨hp.1, hp.2.imp fun i => ht.dir⟩) fun hc => hc.mono ht
  | loop => exact hb.trans h
  | inner => trivial
  | check => trivial
  | exited => trivial
  | stopped => trivial

/-- `inotify_add_watch` has returned `w` for the directory with the number `i`. -/
structure AddedWatch (s s₁ : MonitorState root) (i w : ℕ) : Prop where
  tree : s₁.tree = s.tree
  wdList : s₁.wdList = s.wdList
  buffer : s₁.buffer = s.buffer
  events : s₁.events = s.events
  queue : s₁.queue = s.queue
  /-- The directory is watched. -/
  watch : s₁.watch i = some w
  /-- Watches stay. -/
  old : ∀ j v, s.watch j = some v → s₁.watch j = some v
  /-- No other directory is watched anew. -/
  new : ∀ j v, s₁.watch j = some v → s.watch j = some v ∨ j = i ∧ v = w ∧ s.nextWd ≤ v
  /-- New watches are new. -/
  lt : (∀ j v, s.watch j = some v → v < s.nextWd) → ∀ j v, s₁.watch j = some v → v < s₁.nextWd

theorem addedWatch {p : Path} {i w : ℕ} {s₁ : MonitorState root} (hi : s.tree.dir p = some i)
    (h : s.inotifyAddWatch p = some (w, s₁)) : AddedWatch s s₁ i w := by
  unfold MonitorState.inotifyAddWatch at h
  rw [Tree.dir_eq_some.mp hi, Option.map_some] at h
  dsimp only at h
  split at h
  · next w' hw =>
    cases h
    exact ⟨rfl, rfl, rfl, rfl, rfl, hw, fun _ _ h => h, fun _ _ h => Or.inl h, fun h => h⟩
  · next hnone =>
    cases h
    have hself : ∀ v, Function.update s.watch i (some s.nextWd) i = some v → v = s.nextWd :=
      fun v hv => by rw [Function.update_self] at hv; exact (Option.some.inj hv).symm
    refine ⟨rfl, rfl, rfl, rfl, rfl, Function.update_self .., fun j v hv => ?_, fun j v hv => ?_,
      fun hlt j v hv => ?_⟩
    · have hj : j ≠ i := fun he => by rw [he, hnone] at hv; cases hv
      exact (Function.update_of_ne hj ..).trans hv
    · by_cases hj : j = i
      · subst hj
        obtain rfl := hself v hv
        exact Or.inr ⟨rfl, rfl, le_rfl⟩
      · exact Or.inl ((Function.update_of_ne hj ..).symm.trans hv)
    · by_cases hj : j = i
      · subst hj
        obtain rfl := hself v hv
        exact Nat.lt_succ_self _
      · exact Nat.lt_succ_of_lt (hlt j v ((Function.update_of_ne hj ..).symm.trans hv))

namespace Grown

/-- The thread moves only. -/
theorem move (h : Grown s) {pc : MonitorPc} (hpc : s.Placed pc) : Grown { s with pc := pc } :=
  ⟨h.table, h.noted, h.wd_lt, h.wd_inj, h.rooted, h.told, hpc⟩

/-- The thread moves, and events are read or left behind. -/
theorem events (h : Grown s) {pc : MonitorPc} {buffer events : List Event}
    (hsub : ∀ e ∈ buffer ++ events, e ∈ s.pending)
    (hpc : ({ s with events := events, buffer := buffer } : MonitorState root).Placed pc) :
    Grown { s with events := events, buffer := buffer, pc := pc } :=
  ⟨h.table, h.noted, h.wd_lt, h.wd_inj, h.rooted, fun e he => h.told e (hsub e he), hpc⟩

/-- The queue is not spoken of. -/
theorem queued (h : Grown s) (queue : List QueuedFile) : Grown { s with queue := queue } :=
  ⟨h.table, h.noted, h.wd_lt, h.wd_inj, h.rooted, h.told, Placed.mono (.refl _) (fun _ h => h) rfl
    h.placed⟩

/-- The number of a new entry is not watched. -/
theorem watched_of_made (h : Grown s) {p q : Path} {n : Name} {b : Bool}
    (hp : (s.tree.dir p).isSome = true) (hn : s.tree.entry (child p n) = none)
    (hq : MonitorState.Watched { s with
      tree := s.tree.make p n b hp hn
      events := s.events ++ s.notices p .create b n } q) : s.Watched q := by
  obtain ⟨i, w, hi, hw⟩ := hq
  refine ⟨i, w, ?_, hw⟩
  cases b with
  | false =>
    change (s.tree.make p n false hp hn).dir q = some i at hi
    rwa [Tree.dir_make_false] at hi
  | true =>
    change (s.tree.make p n true hp hn).dir q = some i at hi
    rcases Tree.dir_make_true.mp hi with ⟨-, rfl⟩ | hi
    · -- a watch is one of a directory of the table, whose number is not new
      obtain ⟨node, hm, hwd⟩ := h.noted _ w hw
      obtain ⟨j, hj, hv⟩ := h.table node hm
      obtain rfl := h.wd_inj _ j w hw (hwd ▸ hv)
      exact absurd (Tree.dir_lt hj) (lt_irrefl _)
    · exact hi

/-- An entry is made. -/
theorem made (h : Grown s) {p : Path} {n : Name} {b : Bool} (hp : (s.tree.dir p).isSome = true)
    (hn : s.tree.entry (child p n) = none) :
    Grown { s with
      tree := s.tree.make p n b hp hn
      events := s.events ++ s.notices p .create b n } := by
  have hext : s.tree.Extends (s.tree.make p n b hp hn) := Tree.extends_make
  have hwatched : ∀ q, s.Watched q → MonitorState.Watched { s with
      tree := s.tree.make p n b hp hn
      events := s.events ++ s.notices p .create b n } q := by
    rintro q ⟨i, w, hi, hw⟩
    exact ⟨i, w, hext.dir hi, hw⟩
  refine ⟨fun node hm => ?_, h.noted, h.wd_lt, h.wd_inj, fun q hq => ?_, fun e he => ?_,
    Placed.mono hext hwatched rfl h.placed⟩
  · obtain ⟨i, hi, hw⟩ := h.table node hm
    exact ⟨i, hext.dir hi, hw⟩
  · exact (h.rooted q (h.watched_of_made hp hn hq)).imp_right fun ⟨d, m, he, hd⟩ =>
      ⟨d, m, he, hwatched d hd⟩
  · rcases List.mem_append.mp he with he | he
    · obtain ⟨hk, q, x, hon, hx, hd⟩ := h.told e (List.mem_append_left _ he)
      exact ⟨hk, q, x, hon, hext q x hx, hd⟩
    · rcases List.mem_append.mp he with he | he
      · obtain ⟨hk, q, x, hon, hx, hd⟩ := h.told e (List.mem_append_right _ he)
        exact ⟨hk, q, x, hon, hext q x hx, hd⟩
      · -- the event of the new entry
        obtain ⟨i, w, hi, hw, rfl⟩ := mem_notices.mp he
        have hnew : (s.tree.make p n b hp hn).entry (child p n) = some ⟨b, s.tree.next⟩ :=
          Tree.entry_make.mpr (Or.inl ⟨rfl, rfl⟩)
        exact ⟨rfl, child p n, _, ⟨p, n, h.path_of_watch hi hw, rfl, rfl⟩, hnew, rfl⟩

/-- A directory is watched. -/
theorem watch (h : Grown s) {top : Path} {frames : List DirsFrame} {p : Path}
    {fnode : Option WdNode} {w : ℕ} {s₁ : MonitorState root}
    (hpc : s.pc = .dirs top frames (.watch p fnode)) (hs₁ : s.inotifyAddWatch p = some (w, s₁)) :
    Grown { s₁ with
      wdList := s₁.wdList ++ [newNode w p fnode]
      pc := .dirs top frames (.opendir (newNode w p fnode)) } := by
  have hplaced := h.placed
  rw [hpc] at hplaced
  obtain ⟨⟨htop, hparent⟩, hwalk, hframes, hreached, i, hi⟩ := hplaced
  have ha := addedWatch hi hs₁
  have hwatched : ∀ q, s.Watched q → MonitorState.Watched { s₁ with
      wdList := s₁.wdList ++ [newNode w p fnode]
      pc := .dirs top frames (.opendir (newNode w p fnode)) } q := by
    rintro q ⟨j, v, hj, hv⟩
    exact ⟨j, v, ha.tree ▸ hj, ha.old j v hv⟩
  refine ⟨fun node hm => ?_, fun j v hv => ?_, ha.lt h.wd_lt, fun j k v hj hk => ?_, fun q hq => ?_,
    fun e he => ?_, ?_⟩
  · rcases List.mem_append.mp hm with hm | hm
    · obtain ⟨j, hj, hv⟩ := h.table node (ha.wdList ▸ hm)
      exact ⟨j, ha.tree ▸ hj, ha.old j _ hv⟩
    · obtain rfl := List.mem_singleton.mp hm
      exact ⟨i, ha.tree ▸ hi, ha.watch⟩
  · rcases ha.new j v hv with hv | ⟨-, rfl, -⟩
    · obtain ⟨node, hm, hwd⟩ := h.noted j v hv
      exact ⟨node, List.mem_append_left _ (ha.wdList ▸ hm), hwd⟩
    · exact ⟨_, List.mem_append_right _ (List.mem_singleton_self _), rfl⟩
  · rcases ha.new j v hj with hj | ⟨rfl, -, hge⟩ <;> rcases ha.new k v hk with hk | ⟨rfl, -, hge'⟩
    · exact h.wd_inj j k v hj hk
    · exact absurd (h.wd_lt j v hj) (not_lt.mpr hge')
    · exact absurd (h.wd_lt k v hk) (not_lt.mpr hge)
    · rfl
  · obtain ⟨j, v, hj, hv⟩ := hq
    have hj' : s.tree.dir q = some j := ha.tree ▸ hj
    rcases ha.new j v hv with hv | ⟨rfl, -, -⟩
    · exact (h.rooted q ⟨j, v, hj', hv⟩).imp_right fun ⟨d, m, he, hd⟩ => ⟨d, m, he, hwatched d hd⟩
    · -- the directory lies in the one of the last stream, or the scan starts with it
      obtain rfl := Tree.dir_inj hj' hi
      cases frames with
      | nil =>
        obtain rfl := hreached.start rfl
        exact hparent.imp_right fun ⟨d, m, he, hd⟩ => ⟨d, m, he, hwatched d hd⟩
      | cons f fs =>
        obtain ⟨m, -, he⟩ := hreached.parent f.opened rfl
        exact Or.inr ⟨f.node.path, m, he, hwatched _ (hframes f List.mem_cons_self)⟩
  · have he' : e ∈ s.pending := by
      rw [MonitorState.pending, ← ha.buffer, ← ha.events]
      exact he
    obtain ⟨hk, q, x, ⟨d, m, hd, hm, rfl⟩, hx, hdir⟩ := h.told e he'
    exact ⟨hk, _, x, ⟨d, m, path_append (ha.wdList ▸ hd), hm, rfl⟩, ha.tree ▸ hx, hdir⟩
  · have hplaced : s.Placed (.dirs top frames (.watch p fnode)) :=
      ⟨⟨htop, hparent⟩, hwalk, hframes, hreached, i, hi⟩
    have := Placed.mono (ha.tree ▸ .refl _) hwatched ha.buffer hplaced
    exact ⟨this.1, this.2.1, this.2.2.1, hreached, ⟨i, w, ha.tree ▸ hi, ha.watch⟩⟩

/-- The names of an open stream are names of entries. -/
theorem entry_of_returns {frames : List (Path × Stream)} {f : Path × Stream} {top : Path} {n : Name}
    (hw : Walk s.tree.dir s.tree.Has top frames) (hf : f ∈ frames) (hn : s.Returns f.2 n) :
    (s.tree.entry (child f.1 n)).isSome = true := by
  rcases hn.2 with hn | hn
  · exact hw.opened f hf n hn
  · exact (Tree.mem_names (hw.dir f hf)).mp hn

/-- `add_monitor_dir` has got a name. -/
theorem dirsName (h : Grown s) {top : Path} {f : DirsFrame} {fs : List DirsFrame} {n : Name}
    (hpc : s.pc = .dirs top (f :: fs) .readdir) (hret : s.Returns f.stream n) :
    Grown { s with
      pc := .dirs top (⟨f.node, f.stream.next n⟩ :: fs) (if hidden n then .readdir
        else .isDir (snprintf WDQUEUE_PATH_LEN (child f.node.path n))) } := by
  have hplaced := h.placed
  rw [hpc] at hplaced
  obtain ⟨hstart, hwalk, hframes, -⟩ := hplaced
  refine h.move ⟨hstart, hwalk.next n, fun g hg => ?_, ?_⟩
  · rcases List.mem_cons.mp hg with rfl | hg
    · exact hframes f List.mem_cons_self
    · exact hframes g (List.mem_cons_of_mem f hg)
  · cases hh : hidden n with
    | true => trivial
    | false =>
      obtain ⟨e, he⟩ := Option.isSome_iff_exists.mp
        (entry_of_returns hwalk List.mem_cons_self hret)
      rcases cut_or_eq he WDQUEUE_PATH_LEN with hc | hc
      · refine Or.inl ?_
        show Reached top _ (snprintf WDQUEUE_PATH_LEN (child f.node.path n))
        rw [show child f.node.path n = child f.opened.1 n from rfl, hc]
        exact hwalk.reached hh
      · exact Or.inr hc

/-- `add_upload_file` has got a name. -/
theorem filesName (h : Grown s) {top : Path} {f : FilesFrame} {fs : List FilesFrame} {n : Name}
    (hpc : s.pc = .files top (f :: fs) .readdir) (hret : s.Returns f.stream n) :
    Grown { s with
      pc := .files top (⟨f.path, f.wd, f.stream.next n⟩ :: fs) (if hidden n then .readdir
        else .isFile (snprintf NEWIUP_PATH_LEN (child f.path n))) } := by
  have hplaced := h.placed
  rw [hpc] at hplaced
  obtain ⟨hstart, hwalk, hframes, -⟩ := hplaced
  refine h.move ⟨hstart, hwalk.next n, fun g hg => ?_, ?_⟩
  · rcases List.mem_cons.mp hg with rfl | hg
    · exact hframes f List.mem_cons_self
    · exact hframes g (List.mem_cons_of_mem f hg)
  · cases hh : hidden n with
    | true => trivial
    | false =>
      obtain ⟨e, he⟩ := Option.isSome_iff_exists.mp
        (entry_of_returns hwalk List.mem_cons_self hret)
      rcases cut_or_eq he NEWIUP_PATH_LEN with hc | hc
      · refine Or.inl ?_
        show Reached top _ (snprintf NEWIUP_PATH_LEN (child f.path n)) ∧
          (s.tree.entry (snprintf NEWIUP_PATH_LEN (child f.path n))).isSome = true
        rw [show child f.path n = child f.opened.1 n from rfl, hc, he]
        exact ⟨hwalk.reached hh, rfl⟩
      · exact Or.inr hc

/-- What is no file is a directory, or a path that was cut. -/
theorem noFile (h : Grown s) {top : Path} {frames : List FilesFrame} {m : Path}
    (hpc : s.pc = .files top frames (.isFile m))
    (hno : frames = [] ∨ ∀ i, s.tree.entry m ≠ some ⟨false, i⟩) :
    Grown { s with pc := .files top frames (.isDir m) } := by
  have hplaced := h.placed
  rw [hpc] at hplaced
  obtain ⟨hstart, hwalk, hframes, hpos⟩ := hplaced
  refine h.move ⟨hstart, hwalk, hframes, ?_⟩
  refine hpos.imp_left fun ⟨hreached, hsome⟩ => ⟨hreached, ?_⟩
  rcases hno with rfl | hno
  · -- the scan has not opened a directory: the path is that of its start
    obtain rfl := hreached.start rfl
    exact hstart.1
  · obtain ⟨⟨b, i⟩, he⟩ := Option.isSome_iff_exists.mp hsome
    cases b with
    | false => exact absurd he (hno i)
    | true => exact ⟨i, Tree.dir_eq_some.mpr he⟩

/-- A new directory is scanned. -/
theorem newDir (h : Grown s) (hr : Roomy s.tree) {e : Event} {es : List Event} {n : Name}
    (hb : s.buffer = e :: es) (hn : e.name = some n) (hadds : e.adds = true) :
    Grown { s with
      buffer := es
      pc := .dirs (eventPath s.wdList e.wd n) []
        (.watch (eventPath s.wdList e.wd n) (getWdByWd s.wdList e.wd)) } := by
  have hpending : ∀ e' ∈ es ++ s.events, e' ∈ s.pending := fun e' he' => by
    rw [MonitorState.pending, hb]
    exact List.mem_cons_of_mem e he'
  have he : e ∈ s.pending := List.mem_append_left _ (hb ▸ List.mem_cons_self)
  obtain ⟨-, p, x, hon, hx, hdir⟩ := h.told e he
  obtain ⟨d, m, rfl, hd, -⟩ := h.watched_of_on hon
  have hxd : x.isDir = true := hdir.symm.trans (Bool.and_eq_true_iff.mp hadds).1
  have hi : s.tree.dir (child d m) = some x.id := by
    obtain ⟨b, i⟩ := x
    cases hxd
    exact Tree.dir_eq_some.mpr hx
  rw [eventPath_of_on hon hn, snprintf_full (hr.dir _ _ hi)]
  exact h.events hpending ⟨⟨⟨x.id, hi⟩, Or.inr ⟨d, m, rfl, hd⟩⟩, .nil _ _ _,
    (fun f hf => by cases hf), .refl _, ⟨x.id, hi⟩⟩

/-- **A step of the thread keeps the invariant.** -/
theorem thread (h : Grown s) (hr : Roomy s.tree) (hs : ThreadMove mg s s') : Grown s' := by
  have hplaced := h.placed
  have hpending : ∀ {e es}, s.buffer = e :: es → ∀ e' ∈ es ++ s.events, e' ∈ s.pending :=
    fun {e es} hb e' he' => by
      rw [MonitorState.pending, hb]
      exact List.mem_cons_of_mem e he'
  cases hs with
  | exit => exact h.move trivial
  | idle hpc hi =>
    cases hi with
    | empty hb => exact h.move hb
    | _ => exact h.move trivial
  | watch hpc hs₁ => exact h.watch hpc hs₁
  | @dirsOpen top frames node i hpc hi =>
    rw [hpc] at hplaced
    obtain ⟨hstart, hwalk, hframes, hreached, hnode⟩ := hplaced
    refine h.move ⟨hstart, hwalk.opening hreached hi fun n hn => (Tree.mem_names hi).mp hn,
      fun f hf => ?_, trivial⟩
    rcases List.mem_cons.mp hf with rfl | hf
    · exact hnode
    · exact hframes f hf
  | dirsName hpc hret => exact h.dirsName hpc hret
  | @dirsEnd top f fs hpc hend =>
    rw [hpc] at hplaced
    obtain ⟨hstart, hwalk, hframes, -⟩ := hplaced
    refine h.move ?_
    cases fs with
    | nil => exact ⟨hstart, .nil _ _ _, (fun f hf => by cases hf), .refl top, hstart.1⟩
    | cons g fs =>
      exact ⟨hstart, hwalk.tail, fun g hg => hframes g (List.mem_cons_of_mem f hg), trivial⟩
  | @dirsTest top frames p hpc =>
    rw [hpc] at hplaced
    obtain ⟨hstart, hwalk, hframes, hpos⟩ := hplaced
    refine h.move ⟨hstart, hwalk, hframes, ?_⟩
    cases hd : s.tree.dir p with
    | none => trivial
    | some i =>
      refine ⟨hpos.resolve_right fun hc => ?_, i, hd⟩
      rw [hr.not_dir hc] at hd
      cases hd
  | @filesOpen top frames path w i hpc hwd hi =>
    rw [hpc] at hplaced
    obtain ⟨hstart, hwalk, hframes, hreached, -⟩ := hplaced
    refine h.move ⟨hstart, hwalk.opening hreached hi fun n hn => (Tree.mem_names hi).mp hn,
      fun f hf => ?_, trivial⟩
    rcases List.mem_cons.mp hf with rfl | hf
    · obtain ⟨node, hm, rfl⟩ := mem_of_getWdWdByPath hwd
      obtain ⟨j, hj, hw⟩ := h.table node hm
      exact ⟨j, node.wd, hj, hw⟩
    · exact hframes f hf
  | filesName hpc hret => exact h.filesName hpc hret
  | @filesEnd top f fs hpc hend =>
    rw [hpc] at hplaced
    obtain ⟨hstart, hwalk, hframes, -⟩ := hplaced
    refine h.move ?_
    cases fs with
    | nil => trivial
    | cons g fs =>
      exact ⟨hstart, hwalk.tail, fun g hg => hframes g (List.mem_cons_of_mem f hg), trivial⟩
  | @fileFound top f fs m i hpc hm =>
    rw [hpc] at hplaced
    obtain ⟨hstart, hwalk, hframes, -⟩ := hplaced
    obtain ⟨queue, hq⟩ := queueNodeAdd_eq s mg f.wd m
    rw [hq]
    exact (h.queued queue).move ⟨hstart, hwalk, hframes, trivial⟩
  | noFile hpc hno => exact h.noFile hpc hno
  | @filesTest top frames m hpc =>
    rw [hpc] at hplaced
    obtain ⟨hstart, hwalk, hframes, hpos⟩ := hplaced
    refine h.move ⟨hstart, hwalk, hframes, ?_⟩
    cases hd : s.tree.dir m with
    | none => trivial
    | some i =>
      refine ⟨(hpos.resolve_right fun hc => ?_).1, i, hd⟩
      have := hr.not_entry hc
      rw [Tree.dir_eq_some.mp hd] at this
      cases this
  | @read k hpc hk =>
    have hb : s.buffer = [] := by
      rw [hpc] at hplaced
      exact hplaced
    refine h.events (fun e he => ?_) trivial
    rw [List.take_append_drop] at he
    exact List.mem_append_right _ he
  | nameless hpc hb hn => exact h.events (hpending hb) (by rw [hpc]; trivial)
  | otherType hpc hb hn hfile hkind htype => exact h.events (hpending hb) (by rw [hpc]; trivial)
  | @newFile e es n hpc hb hn hfile hkind htype =>
    obtain ⟨queue, hq⟩ := queueNodeAdd_eq s mg e.wd (eventPath s.wdList e.wd n)
    rw [hq]
    exact (h.queued queue).events (hpending hb) trivial
  | newDir hpc hb hn hadds hfile => exact h.newDir hr hb hn hadds
  | @oldDir e es n hpc hb hn hdrops =>
    -- there are no such events
    have he : e ∈ s.pending := List.mem_append_left _ (hb ▸ List.mem_cons_self)
    unfold Event.drops at hdrops
    rw [(h.told e he).1, Bool.and_eq_true_iff] at hdrops
    cases hdrops.2
  | nothing hpc hb hn hadds hdrops hfile => exact h.events (hpending hb) trivial

/-- The invariant holds when the thread is started. -/
theorem boot (t : Tree root) : Grown (MonitorState.boot t) where
  table _ h := by cases h
  noted _ _ h := by cases h
  wd_lt _ _ h := by cases h
  wd_inj _ _ _ h := by cases h
  rooted _ h := by
    obtain ⟨_, _, -, h⟩ := h
    cases h
  told _ h := by cases h
  placed := ⟨⟨t.exists_dir_root, Or.inl rfl⟩, .nil _ _ _, (fun f hf => by cases hf), .refl _,
    t.exists_dir_root⟩

/-- **Every step keeps the invariant.** -/
theorem step (h : Grown s) (hr : Roomy s.tree) (hs : GrowthStep mg s act s') : Grown s' := by
  cases hs with
  | made ha hp hn => exact h.made hp hn
  | signal => exact ⟨h.table, h.noted, h.wd_lt, h.wd_inj, h.rooted, h.told,
      Placed.mono (.refl _) (fun _ h => h) rfl h.placed⟩
  | thread hs => exact h.thread hr hs

end Grown

end Steps

end Newiup
