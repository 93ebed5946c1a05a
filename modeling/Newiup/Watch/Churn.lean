import Newiup.Watch.Steps
import Newiup.Watch.Scans

/-!
# Directories that come and go

The other processes make, remove and rename directories while the thread runs.  They do no
harm as long as they leave alone what the thread is about to look at, and rename no
directory in which another one is watched.

A rename does harm by itself: the watches below the directory move with it, and their
paths in the table do not.  Making and removing a directory do harm by their moment only,
when a scan has found the directory and has not come to it yet, or when the event that
takes an old one out of the table is still to be read.  The condition names these moments,
and is decided by the state before the step.

## Main definitions

* `Gentle` — the operations that do no harm, as a condition on the state before each.
* `Steady` — **the invariant**: a settled view, and scans that are where they should be.

## Main results

* `Steady.mkdir`, `Steady.rmdir`, `Steady.rename` — **gentle operations keep the invariant.**
-/

namespace Newiup

variable {root : Path}

namespace MonitorState

/-- The events of the directory find it in the table. -/
def Heard (s : MonitorState root) (p : Path) : Prop := s.view.Watched p → s.view.Known p

/-- The thread does not stand at or below the path, and is to add nothing there. -/
structure Still (s : MonitorState root) (p : Path) : Prop where
  inside : ∀ q, s.pc.Inside q → ¬Within p q
  awaits : ∀ q, s.view.Awaits q → ¬Within p q

/-- A directory can come to the entry `n` of the one at `p`: it is told of by an event, and
no scan comes to it. -/
structure Welcome (s : MonitorState root) (p : Path) (n : Name) : Prop where
  short : Short (child p n)
  heard : s.Heard p
  quiet : s.view.Watched p → ¬s.pc.FilesAhead May (child p n)

/-- The directory at `src` can be moved to the entry `m` of the one at `q`. -/
structure Movable (s : MonitorState root) (src q : Path) (m : Name) : Prop where
  still : s.Still src
  /-- Nothing below it is watched. -/
  leaf : ∀ p i, Within src p → p ≠ src → s.tree.dir p = some i → s.watch i = none
  welcome : s.Welcome q m
  /-- A directory that is watched does not come to where the thread adds another. -/
  ahead : s.view.Watched src → ¬s.pc.DirsAhead May (child q m)
  outside : s.view.Watched src → ∀ p, s.view.Awaits p → ¬Within p (child q m)
  /-- No directory the thread has to do with is replaced. -/
  target : ∀ i, s.tree.dir (child q m) = some i → s.watch i = none ∧ s.Still (child q m)

/-- The view of a rename half done: the directory is gone from its place, and not yet at
another. -/
def halfway (s : MonitorState root) (p : Path) (n : Name) : View :=
  { s.view with
    dir := fun q => if Within (child p n) q then none else s.tree.dir q
    pending := s.view.pending ++ s.notices p .movedFrom true n }

end MonitorState

/-- **The operation does no harm**, in the state before it.

The table goes wrong in three ways, which the conditions exclude.  A path that the thread is
about to open is no longer there, so that it exits: the directory must be `Still`.  A directory
appears where a scan passes and where an event tells of it too, so that it is added twice: the
place must be `Welcome`.  A directory is renamed with others watched below it, whose nodes keep
the old paths: none may be watched there, as `Movable` says. -/
structure Gentle (s : MonitorState root) (act : MonitorAct) : Prop where
  /-- The paths fit into the buffers. -/
  short : ∀ p e, s.tree.entry p = some e → Short p
  mkdir : ∀ p n, act = .mkdir p n → s.Welcome p n
  rmdir : ∀ p n, act = .rmdir p n → s.Heard p ∧ s.Still (child p n)
  rename : ∀ p n q m i, act = .rename p n q m → s.tree.dir (child p n) = some i →
    s.Heard p ∧ s.Movable (child p n) q m

/-- **The invariant**: the view is settled, and the thread is where its scans have led it.  The
two parts are kept apart since the operations of the other processes concern the first one
mostly, and the steps of the thread the second. -/
structure Steady (s : MonitorState root) : Prop where
  settled : Settled root s.view
  scanning : s.view.Scanning root s.pc
  /-- A watch is one of a directory of the tree. -/
  owned : ∀ i w, s.watch i = some w → ∃ p, s.tree.dir p = some i
  /-- All events are read when the thread waits for others. -/
  empty : s.pc = .loop → s.buffer = []

section Steps

variable {mg : MonitorGroup} {s s' : MonitorState root} {p q : Path} {n m : Name}

/-! ### The other processes -/

/-- The view after an operation. -/
theorem view_events (s : MonitorState root) (t : Tree root) (watch : ℕ → Option ℕ)
    (es : List Event) : MonitorState.view { s with
      tree := t, watch := watch, events := s.events ++ es } =
    { s.view with dir := t.dir, watch := watch, pending := s.view.pending ++ es } := by
  unfold MonitorState.view
  rw [← List.append_assoc]

/-- An event on a directory inside one that is heard of. -/
theorem told_of_notices (h : Settled root s.view) (hp : s.Heard p) (hshort : Short (child p n))
    {kind : EventKind} {e : Event} (he : e ∈ s.notices p kind true n) :
    e.adds = kind.appears ∧ s.view.At e p n ∧ s.view.Known p ∧
      (child p n).length < WDQUEUE_PATH_LEN := by
  obtain ⟨i, w, hi, hw, rfl⟩ := mem_notices.mp he
  have hk := hp ⟨i, w, hi, hw⟩
  exact ⟨Bool.true_and _, ⟨h.path_of_known hk hi hw, rfl⟩, hk, hshort⟩

/-- A known directory is told of. -/
theorem exists_notice (h : Settled root s.view) (hk : s.view.Known p) (kind : EventKind) (b : Bool)
    (n : Name) : ∃ e ∈ s.notices p kind b n, e.kind = kind ∧ e.isDir = b ∧ s.view.At e p n := by
  obtain ⟨i, w, hi, hw⟩ := h.watched_of_known hk
  exact ⟨_, mem_notices.mpr ⟨i, w, hi, hw, rfl⟩, rfl, rfl, h.path_of_known hk hi hw, rfl⟩

/-- Events about files tell nothing. -/
theorem not_tells_of_notices {kind : EventKind} {e : Event}
    (he : e ∈ s.notices p kind false n) : ¬e.Tells := by
  obtain ⟨i, w, -, -, rfl⟩ := mem_notices.mp he
  rintro ⟨-, h | h⟩ <;> cases h

theorem not_tells_of_farewell {i : ℕ} {e : Event} (he : e ∈ s.farewell i) : ¬e.Tells := by
  unfold MonitorState.farewell at he
  rintro ⟨h, -⟩
  split at he
  · rcases List.mem_cons.mp he with rfl | he
    · cases h
    · rw [List.mem_singleton.mp he] at h
      cases h
  · cases he

namespace Steady

/-- What the thread stands in is a directory. -/
theorem outside (h : Steady s) (hp : ∀ q i, Within p q → s.tree.dir q ≠ some i)
    (hq : s.pc.Inside q) : ¬Within p q := fun hw => by
  obtain ⟨i, hi⟩ := h.scanning.dir_of_inside h.settled hq
  exact hp q i hw hi

/-- An operation on a path at and below which there is no directory. -/
theorem noDir (h : Steady s) {t : Tree root} {es : List Event}
    (hp : ∀ q i, Within (child p n) q → s.tree.dir q ≠ some i) (ht : t.dir = s.tree.dir)
    (hes : ∀ e ∈ es, ¬e.Tells) : Steady { s with tree := t, events := s.events ++ es } := by
  -- nothing is gone
  have hl : s.view.Leaves p n t.dir s.watch es := by
    refine ⟨fun q i => ?_, fun _ _ h => h, fun e he ht => absurd ht (hes e he)⟩
    rw [ht]
    exact (and_iff_left_of_imp fun hi hw => hp q i hw hi).symm
  have hview := view_events s t s.watch es
  refine ⟨?_, ?_, fun i w hw => ?_, h.empty⟩
  · rw [hview]
    refine h.settled.left hl (fun _ _ _ => rfl) (fun q i hw _ hi => ?_) (fun q ha hw => ?_)
      fun hk => ?_
    · exact absurd hi (hp q i hw)
    · obtain ⟨i, hi⟩ := h.settled.dir_of_awaits ha
      exact hp q i hw hi
    · obtain ⟨i, -, hi, -⟩ := h.settled.watched_of_known hk
      exact absurd hi (hp _ i (.refl _))
  · rw [hview]
    exact h.scanning.left hl fun q hq => h.outside hp hq
  · obtain ⟨q, hq⟩ := h.owned i w hw
    exact ⟨q, (congrFun ht q).trans hq⟩

/-- A new file. -/
theorem create (h : Steady s) (hs : s.create p n = some s') : Steady s' := by
  unfold MonitorState.create at hs
  split at hs
  · next hp =>
    cases hs
    refine h.noDir (p := p) (n := n) (fun q i hw hi => ?_) (funext fun q => Tree.dir_make_false)
      fun e he => not_tells_of_notices he
    obtain ⟨j, hj⟩ := Option.isSome_iff_exists.mp hp.1
    have := Tree.entry_of_within (Tree.dir_eq_some.mp hi) ((Tree.within_root_of_dir hj).under n) hw
    rw [hp.2] at this
    cases this
  · cases hs

/-- Nothing lies at or below a file that is a directory. -/
theorem no_dir_of_file {t : Tree root} {i : ℕ} (hf : t.entry p = some ⟨false, i⟩) (q : Path)
    (j : ℕ) (hw : Within p q) : t.dir q ≠ some j := by
  intro hj
  rw [(Tree.leaf_of_file hf).2.eq (Tree.dir_eq_some.mp hj) hw] at hj
  rw [Tree.dir_eq_some.mp hj] at hf
  cases hf

theorem dir_remove_file {t : Tree root} {i : ℕ} (hf : t.entry p = some ⟨false, i⟩)
    {hq : p ≠ root} {hl : t.Leaf p} : (t.remove p hq hl).dir = t.dir := by
  refine funext fun q => Option.ext fun j => ?_
  rw [Tree.dir_remove]
  refine and_iff_right_of_imp fun hj => ?_
  rintro rfl
  exact no_dir_of_file hf q j (.refl _) hj

/-- `unlink`. -/
theorem unlink (h : Steady s) (hs : s.unlink p n = some s') : Steady s' := by
  unfold MonitorState.unlink at hs
  split at hs
  · next i hf =>
    cases hs
    exact h.noDir (no_dir_of_file hf) (dir_remove_file hf) fun e he => not_tells_of_notices he
  · cases hs

/-- A new directory comes to its place. -/
theorem make_arrives (h : Steady s) (hw : s.Welcome p n) (hp : (s.tree.dir p).isSome = true)
    (hn : s.tree.entry (child p n) = none) :
    s.view.Arrives p n (s.tree.make p n true hp hn).dir (s.notices p .create true n) := by
  obtain ⟨j, hj⟩ := Option.isSome_iff_exists.mp hp
  have hdir : ∀ q i, (s.tree.make p n true hp hn).dir q = some i ↔
      q = child p n ∧ i = s.tree.next ∨ s.tree.dir q = some i := fun q i => Tree.dir_make_true
  have hfree : ∀ q i, Within (child p n) q → s.view.dir q ≠ some i := by
    intro q i hwq hi
    have := Tree.entry_of_within (Tree.dir_eq_some.mp hi) ((Tree.within_root_of_dir hj).under n) hwq
    rw [hn] at this
    cases this
  refine ⟨fun q i hi => (hdir q i).mpr (Or.inr hi), fun q i hi => ?_, hfree,
    fun q i hwq hne hi => ?_, fun e he _ => told_of_notices h.settled hw.heard hw.short he⟩
  · rcases (hdir q i).mp hi with ⟨rfl, rfl⟩ | hi
    · exact Or.inr ⟨.refl _, fun r hr => absurd (Tree.dir_lt hr) (lt_irrefl _)⟩
    · exact Or.inl hi
  · rcases (hdir q i).mp hi with ⟨he, -⟩ | hi
    · exact absurd he hne
    · exact absurd hi (hfree q i hwq)

/-- A watch is not one of a directory that is new. -/
theorem watch_lt (h : Steady s) {i w : ℕ} (hw : s.watch i = some w) : i < s.tree.next := by
  obtain ⟨q, hq⟩ := h.owned i w hw
  exact Tree.dir_lt hq

/-- **A new directory.** -/
theorem mkdir (h : Steady s) (hw : s.Welcome p n) (hs : s.mkdir p n = some s') : Steady s' := by
  unfold MonitorState.mkdir at hs
  split at hs
  · next hp =>
    cases hs
    obtain ⟨j, hj⟩ := Option.isSome_iff_exists.mp hp.1
    have hr := h.make_arrives hw hp.1 hp.2
    have hdir : ∀ {q i}, (s.tree.make p n true hp.1 hp.2).dir q = some i ↔
        q = child p n ∧ i = s.tree.next ∨ s.tree.dir q = some i := Tree.dir_make_true
    -- it is not watched
    have hself : ∀ i w, (s.tree.make p n true hp.1 hp.2).dir (child p n) = some i →
        s.view.watch i = some w → False := by
      intro i w hi hwi
      rcases hdir.mp hi with ⟨-, rfl⟩ | hi
      · exact lt_irrefl _ (h.watch_lt hwi)
      · exact hr.free _ i (.refl _) hi
    have hview := view_events s (s.tree.make p n true hp.1 hp.2) s.watch
      (s.notices p .create true n)
    refine ⟨?_, ?_, fun i w hwi => ?_, h.empty⟩
    · rw [hview]
      exact h.settled.arrived hr (fun _ _ _ => Tree.dir_inj) (fun _ _ => Tree.within_root_of_dir)
        ⟨_, hdir.mpr (Or.inl ⟨rfl, rfl⟩)⟩ (fun i w hi hwi => (hself i w hi hwi).elim)
        (notices_length ..)
    · rw [hview]
      exact h.scanning.arrived h.settled hr (fun i w hi hwi => (hself i w hi hwi).elim) ⟨j, hj⟩
        hw.quiet
    · obtain ⟨q, hq⟩ := h.owned i w hwi
      exact ⟨q, hdir.mpr (Or.inr hq)⟩
  · cases hs

/-- An empty directory is gone, with its watch. -/
theorem gone (h : Steady s) {i : ℕ} {es : List Event} (hi : s.tree.dir (child p n) = some i)
    (hroot : child p n ≠ root) (hleaf : s.tree.Leaf (child p n)) (hstill : s.Still (child p n))
    (hes : ∀ e ∈ es, e.Tells → e.adds = false ∧ s.view.At e p n ∧ s.view.Known p ∧
      (child p n).length < WDQUEUE_PATH_LEN)
    (hdrop : s.view.Known (child p n) → s.view.DropsIn es (child p n)) :
    Steady { s with
      tree := s.tree.remove (child p n) hroot hleaf
      watch := Function.update s.watch i none
      events := s.events ++ es } := by
  -- an empty directory is all there is at and below its path
  have hdir : ∀ q j, (s.tree.remove _ hroot hleaf).dir q = some j ↔
      s.view.dir q = some j ∧ ¬Within (child p n) q := by
    intro q j
    rw [Tree.dir_remove, and_comm]
    refine and_congr_right fun hj => not_congr ⟨fun he => he ▸ .refl _, fun hw => ?_⟩
    exact hleaf.eq (Tree.dir_eq_some.mp hj) hw
  have hwatch : ∀ j w, Function.update s.watch i none j = some w → s.view.watch j = some w := by
    intro j w hw
    by_cases hj : j = i
    · rw [hj, Function.update_self] at hw
      cases hw
    · rwa [Function.update_of_ne hj] at hw
  have hkeep : ∀ q j, (s.tree.remove _ hroot hleaf).dir q = some j →
      Function.update s.watch i none j = s.view.watch j := by
    intro q j hj
    obtain ⟨hj, hw⟩ := (hdir q j).mp hj
    refine Function.update_of_ne ?_ ..
    rintro rfl
    exact hw (Tree.dir_inj hj hi ▸ .refl _)
  have hl : s.view.Leaves p n _ _ es := ⟨hdir, hwatch, hes⟩
  have hview := view_events s (s.tree.remove _ hroot hleaf) (Function.update s.watch i none) es
  refine ⟨?_, ?_, fun j w hw => ?_, h.empty⟩
  · rw [hview]
    refine h.settled.left hl hkeep (fun q j hw hne hj => ?_) hstill.awaits hdrop
    exact absurd (hleaf.eq (Tree.dir_eq_some.mp hj) hw) hne
  · rw [hview]
    exact h.scanning.left hl hstill.inside
  · obtain ⟨q, hq⟩ := h.owned j w (hwatch j w hw)
    refine ⟨q, (hdir q j).mpr ⟨hq, fun hw' => ?_⟩⟩
    obtain rfl := hleaf.eq (Tree.dir_eq_some.mp hq) hw'
    obtain rfl := Option.some.inj (hi.symm.trans hq)
    change Function.update s.watch i none i = some w at hw
    rw [Function.update_self] at hw
    cases hw

/-- The directory of a known one hears of it. -/
theorem drops_of_known (h : Steady s) (hroot : child p n ≠ root) {kind : EventKind}
    (hkind : kind.vanishes = true) (hk : s.view.Known (child p n)) :
    s.view.DropsIn (s.notices p kind true n) (child p n) := by
  obtain ⟨node, hs, he⟩ := hk
  rcases h.settled.up node hs with hr | ⟨d, m, hd, hk⟩
  · exact absurd (he.symm.trans hr) hroot
  · obtain ⟨rfl, rfl⟩ := child_inj (he.symm.trans hd)
    obtain ⟨e, hm, hek, hb, hat⟩ := exists_notice h.settled hk kind true n
    exact ⟨e, hm, by rw [Event.drops, hek, hb, hkind]; rfl, p, n, hat, rfl⟩

/-- **A directory is removed.** -/
theorem rmdir (h : Steady s) (hshort : Short (child p n)) (hp : s.Heard p)
    (hstill : s.Still (child p n)) (hs : s.rmdir p n = some s') : Steady s' := by
  unfold MonitorState.rmdir at hs
  split at hs
  · next i hi =>
    split at hs
    · next hleaf =>
      cases hs
      refine h.gone hi hleaf.1 hleaf.2 hstill (fun e he ht => ?_) fun hk => ?_
      · rcases List.mem_append.mp he with he | he
        · exact told_of_notices h.settled hp hshort he
        · exact absurd ht (not_tells_of_farewell he)
      · exact (h.drops_of_known hleaf.1 rfl hk).mono fun _ => List.mem_append_left _
    · cases hs
  · cases hs

/-- A file is renamed to a name that is free. -/
theorem renameFile (h : Steady s) (hsrc : ∀ i, s.tree.dir (child p n) ≠ some i)
    (hs : s.renameFree p n q m = some s') : Steady s' := by
  unfold MonitorState.renameFree at hs
  split at hs
  · next hmove =>
    cases hs
    obtain ⟨⟨b, i⟩, hf⟩ := Option.isSome_iff_exists.mp hmove.there
    cases b with
    | true => exact absurd (Tree.dir_eq_some.mpr hf) (hsrc i)
    | false =>
      have hnone : (s.tree.dir (child p n)).isSome = false := by
        cases hd : s.tree.dir (child p n) with
        | none => rfl
        | some j => exact absurd hd (hsrc j)
      rw [hnone]
      refine h.noDir (p := p) (n := n) (no_dir_of_file hf) (funext fun x => Option.ext fun j => ?_)
        fun e he => ?_
      · rw [Tree.dir_move]
        constructor
        · rintro ⟨r, hr, rfl⟩
          rwa [relocate_of_not fun hw => no_dir_of_file hf r j hw hr]
        · intro hj
          exact ⟨x, hj, relocate_of_not fun hw => no_dir_of_file hf x j hw hj⟩
      · rcases List.mem_append.mp he with he | he
        · exact not_tells_of_notices he
        · exact not_tells_of_notices he
  · cases hs

theorem dir_halfway {x : Path} {j : ℕ} : (s.halfway p n).dir x = some j ↔
    s.tree.dir x = some j ∧ ¬Within (child p n) x := by
  show (if Within (child p n) x then none else s.tree.dir x) = some j ↔ _
  split
  · next hw => exact iff_of_false (by simp) fun hx => hx.2 hw
  · next hw => exact (and_iff_left hw).symm

/-- The directory that is renamed leaves its place. -/
theorem move_leaves (h : Steady s) (hshort : Short (child p n)) (hp : s.Heard p) :
    s.view.Leaves p n (s.halfway p n).dir s.watch (s.notices p .movedFrom true n) :=
  ⟨fun _ _ => dir_halfway, fun _ _ h => h, fun _ he _ => told_of_notices h.settled hp hshort he⟩

/-- **The view is settled half way.** -/
theorem halfway (h : Steady s) (hshort : Short (child p n)) (hroot : child p n ≠ root)
    (hp : s.Heard p) (hm : s.Movable (child p n) q m) :
    Settled root (s.halfway p n) ∧ (s.halfway p n).Scanning root s.pc := by
  have hl := h.move_leaves hshort hp
  exact ⟨h.settled.left hl (fun _ _ _ => rfl) hm.leaf hm.still.awaits
    fun hk => h.drops_of_known hroot rfl hk, h.scanning.left hl hm.still.inside⟩

/-- What lies at the new place of a directory lay at the old one. -/
theorem moved_from (hmove : s.tree.CanMove (child p n) q m) {x : Path} {j : ℕ}
    (hw : Within (child q m) x) (hj : (s.tree.move (child p n) q m hmove).dir x = some j) :
    ∃ r, Within (child p n) r ∧ s.tree.dir r = some j ∧
      relocate (child p n) (child q m) r = x := by
  obtain ⟨r, hr, rfl⟩ := Tree.dir_move.mp hj
  refine ⟨r, ?_, hr, rfl⟩
  by_contra hwr
  rw [relocate_of_not hwr] at hw
  exact hmove.outside (Tree.dir_eq_some.mp hr) hw

/-- The directory itself does. -/
theorem moved_self (hmove : s.tree.CanMove (child p n) q m) {j : ℕ}
    (hj : (s.tree.move (child p n) q m hmove).dir (child q m) = some j) :
    s.tree.dir (child p n) = some j := by
  obtain ⟨r, hw, hr, he⟩ := moved_from hmove (.refl _) hj
  have hrs : r = child p n := relocate_inj hw (.refl _) (he.trans (relocate_self _ _).symm)
  exact hrs ▸ hr

/-- The directory that is renamed comes to its new place. -/
theorem move_arrives (h : Steady s) (hshort : Short (child p n)) (hp : s.Heard p)
    (hm : s.Movable (child p n) q m) (hmove : s.tree.CanMove (child p n) q m) :
    (s.halfway p n).Arrives q m (s.tree.move (child p n) q m hmove).dir
      (s.notices q .movedTo true m) := by
  refine ⟨fun x j hj => ?_, fun x j hj => ?_, fun x j hw hj => ?_, fun x j hw hne hj => ?_,
    fun e he _ => ?_⟩
  · obtain ⟨hj, hw⟩ := dir_halfway.mp hj
    exact Tree.dir_move.mpr ⟨x, hj, relocate_of_not hw⟩
  · -- a directory that was moved is not there half way
    obtain ⟨r, hr, rfl⟩ := Tree.dir_move.mp hj
    by_cases hw : Within (child p n) r
    · refine Or.inr ⟨within_relocate hw, fun y hy => ?_⟩
      obtain ⟨hy, hwy⟩ := dir_halfway.mp hy
      exact hwy (Tree.dir_inj hr hy ▸ hw)
    · rw [relocate_of_not hw]
      exact Or.inl (dir_halfway.mpr ⟨hr, hw⟩)
  · exact hmove.outside (Tree.dir_eq_some.mp (dir_halfway.mp hj).1) hw
  · obtain ⟨r, hwr, hr, rfl⟩ := moved_from hmove hw hj
    refine hm.leaf r j hwr ?_ hr
    rintro rfl
    exact hne (relocate_self _ _)
  · obtain ⟨hadds, hat, hk, hlt⟩ := told_of_notices h.settled hm.welcome.heard hm.welcome.short he
    have hq : q ≠ child p n := fun he => hmove.apart (he ▸ .refl _)
    exact ⟨hadds, hat, Settled.known_left (h.move_leaves hshort hp) hk hq, hlt⟩

/-- **A directory is renamed** to a name that is free. -/
theorem renameDir (h : Steady s) (hshort : Short (child p n)) (hp : s.Heard p)
    (hm : s.Movable (child p n) q m) {i : ℕ} (hi : s.tree.dir (child p n) = some i)
    (hs : s.renameFree p n q m = some s') : Steady s' := by
  unfold MonitorState.renameFree at hs
  split at hs
  · next hmove =>
    cases hs
    rw [show (s.tree.dir (child p n)).isSome = true by rw [hi]; rfl]
    obtain ⟨hsettled, hscanning⟩ := h.halfway hshort hmove.notRoot hp hm
    have hr := h.move_arrives hshort hp hm hmove
    obtain ⟨k, hk⟩ := Option.isSome_iff_exists.mp hmove.inDir
    have hwatched : ∀ {j w}, (s.tree.move (child p n) q m hmove).dir (child q m) = some j →
        s.watch j = some w → s.view.Watched (child p n) := fun hj hw =>
      ⟨_, _, moved_self hmove hj, hw⟩
    -- the event on the old place has nothing added
    have hawaits : ∀ a, (s.halfway p n).Awaits a → s.view.Awaits a := by
      intro a ha
      rcases View.AwaitsIn.append.mp ha with ha | ⟨e, he, hadd, -⟩
      · exact ha
      · rw [(told_of_notices h.settled hp hshort he).1] at hadd
        cases hadd
    have hview : MonitorState.view { s with
        tree := s.tree.move (child p n) q m hmove
        events := s.events ++ (s.notices p .movedFrom true n ++ s.notices q .movedTo true m) } =
        { s.halfway p n with
          dir := (s.tree.move (child p n) q m hmove).dir
          pending := (s.halfway p n).pending ++ s.notices q .movedTo true m } := by
      unfold MonitorState.view MonitorState.halfway MonitorState.view
      simp only [List.append_assoc]
    refine ⟨?_, ?_, fun j w hw => ?_, h.empty⟩
    · rw [hview]
      exact hsettled.arrived hr (fun _ _ _ => Tree.dir_inj) (fun _ _ => Tree.within_root_of_dir)
        ⟨i, Tree.dir_move.mpr ⟨_, hi, relocate_self _ _⟩⟩
        (fun j w hj hw a ha => hm.outside (hwatched hj hw) a (hawaits a ha)) (notices_length ..)
    · rw [hview]
      refine hscanning.arrived hsettled hr (fun j w hj hw => hm.ahead (hwatched hj hw))
        ⟨k, dir_halfway.mpr ⟨hk, hmove.apart⟩⟩ fun hw => hm.welcome.quiet ?_
      obtain ⟨j, w, hj, hw⟩ := hw
      exact ⟨j, w, (dir_halfway.mp hj).1, hw⟩
    · obtain ⟨x, hx⟩ := h.owned j w hw
      exact ⟨_, Tree.dir_move.mpr ⟨x, hx, rfl⟩⟩
  · cases hs

/-- Something is renamed to a name that is free. -/
theorem renameFree (h : Steady s) (hshort : Short (child p n))
    (hg : ∀ i, s.tree.dir (child p n) = some i → s.Heard p ∧ s.Movable (child p n) q m)
    (hs : s.renameFree p n q m = some s') : Steady s' := by
  cases hd : s.tree.dir (child p n) with
  | none => exact h.renameFile (fun i hi => by rw [hd] at hi; cases hi) hs
  | some i => exact h.renameDir hshort (hg i hd).1 (hg i hd).2 hd hs

/-- An entry is taken away that is no directory, or an empty one that is not watched. -/
theorem cleared (h : Steady s) (hroot : child q m ≠ root) (hleaf : s.tree.Leaf (child q m))
    (hf : ∀ j, s.tree.dir (child q m) = some j → s.watch j = none ∧ s.Still (child q m)) :
    Steady { s with tree := s.tree.remove (child q m) hroot hleaf } := by
  have hno : ∀ e ∈ ([] : List Event), ¬e.Tells := fun e he => by cases he
  cases hd : s.tree.dir (child q m) with
  | none =>
    have hgone : Steady { s with
        tree := s.tree.remove (child q m) hroot hleaf
        events := s.events ++ [] } := by
      refine h.noDir (p := q) (n := m) (fun x i hw hi => ?_)
        (funext fun x => Option.ext fun j => ?_) hno
      · rw [hleaf.eq (Tree.dir_eq_some.mp hi) hw, hd] at hi
        cases hi
      · rw [Tree.dir_remove]
        refine and_iff_right_of_imp ?_
        rintro hj rfl
        rw [hd] at hj
        cases hj
    rwa [List.append_nil] at hgone
  | some j =>
    obtain ⟨hunwatched, hstill⟩ := hf j hd
    have hgone : Steady { s with
        tree := s.tree.remove (child q m) hroot hleaf
        watch := Function.update s.watch j none
        events := s.events ++ [] } := by
      refine h.gone hd hroot hleaf hstill (fun e he ht => absurd ht (hno e he)) fun hk => ?_
      -- it is not known, since it is not watched
      obtain ⟨i, w, hi, hw⟩ := h.settled.watched_of_known hk
      obtain rfl := Option.some.inj (hd.symm.trans hi)
      cases hunwatched.symm.trans hw
    rwa [List.append_nil, (congrArg _ hunwatched.symm).trans (Function.update_eq_self j s.watch)]
      at hgone

/-- What is replaced is taken away. -/
theorem replaced_eq {t : MonitorState root}
    (hf : ∀ j, s.tree.dir (child q m) = some j → s.watch j = none)
    (hs : s.replaced q m = some t) :
    ∃ hroot hleaf, t = { s with tree := s.tree.remove (child q m) hroot hleaf } := by
  unfold MonitorState.replaced at hs
  split at hs
  · next hleaf =>
    refine ⟨hleaf.1, hleaf.2, ?_⟩
    dsimp only at hs
    split at hs
    · next j hj =>
      have hno : s.farewell j = [] := by rw [MonitorState.farewell, hf j hj]
      rw [hno, List.append_nil, (congrArg _ (hf j hj).symm).trans
        (Function.update_eq_self j s.watch)] at hs
      exact (Option.some.inj hs).symm
    · exact (Option.some.inj hs).symm
  · cases hs

theorem watched_of_cleared (hroot : child q m ≠ root) (hleaf : s.tree.Leaf (child q m)) {x : Path}
    (h : View.Watched (MonitorState.view { s with
      tree := s.tree.remove (child q m) hroot hleaf }) x) : s.view.Watched x := by
  obtain ⟨i, w, hi, hw⟩ := h
  change (s.tree.remove (child q m) hroot hleaf).dir x = some i at hi
  exact ⟨i, w, (Tree.dir_remove.mp hi).2, hw⟩

/-- What can be moved to a place can still be when the place is free. -/
theorem movable_cleared {src : Path} (hm : s.Movable src q m) (hroot : child q m ≠ root)
    (hleaf : s.tree.Leaf (child q m)) :
    MonitorState.Movable { s with tree := s.tree.remove (child q m) hroot hleaf } src q m := by
  have hdir : ∀ {x i}, (s.tree.remove _ hroot hleaf).dir x = some i →
      x ≠ child q m ∧ s.tree.dir x = some i := fun hi => Tree.dir_remove.mp hi
  have hwatched : ∀ {x}, View.Watched (MonitorState.view { s with
      tree := s.tree.remove (child q m) hroot hleaf }) x → s.view.Watched x :=
    watched_of_cleared hroot hleaf
  exact ⟨⟨hm.still.inside, hm.still.awaits⟩, fun x i hx hne hi => hm.leaf x i hx hne (hdir hi).2,
    ⟨hm.welcome.short, fun hw => hm.welcome.heard (hwatched hw),
      fun hw => hm.welcome.quiet (hwatched hw)⟩,
    fun hw => hm.ahead (hwatched hw), fun hw => hm.outside (hwatched hw),
    fun i hi => absurd rfl (hdir hi).1⟩

/-- **An entry is renamed**, and may replace another. -/
theorem rename (h : Steady s) (hshort : ∀ x e, s.tree.entry x = some e → Short x)
    (hg : ∀ i, s.tree.dir (child p n) = some i → s.Heard p ∧ s.Movable (child p n) q m)
    (hs : s.rename p n q m = some s') : Steady s' := by
  unfold MonitorState.rename at hs
  split at hs
  · next hfree =>
    by_cases hmove : s.tree.CanMove (child p n) q m
    · obtain ⟨e, he⟩ := Option.isSome_iff_exists.mp hmove.there
      exact h.renameFree (hshort _ e he) hg hs
    · rw [MonitorState.renameFree, dif_neg hmove] at hs
      cases hs
  · next f hf =>
    split at hs
    · next hkind =>
      obtain ⟨e, he, hef⟩ := Option.map_eq_some_iff.mp hkind.2
      obtain ⟨t, ht, hs⟩ := Option.bind_eq_some_iff.mp hs
      -- only a directory replaces a directory
      have htarget : ∀ j, s.tree.dir (child q m) = some j →
          s.watch j = none ∧ s.Still (child q m) := by
        intro j hj
        have hd : s.tree.dir (child p n) = some e.id := by
          rw [Tree.dir_eq_some.mp hj] at hf
          cases hf
          obtain ⟨b, i⟩ := e
          cases hef
          exact Tree.dir_eq_some.mpr he
        exact (hg _ hd).2.target j hj
      obtain ⟨hroot, hleaf, rfl⟩ := replaced_eq (fun j hj => (htarget j hj).1) ht
      refine (h.cleared hroot hleaf htarget).renameFree (hshort _ e he) (fun i hi => ?_) hs
      change (s.tree.remove (child q m) hroot hleaf).dir (child p n) = some i at hi
      obtain ⟨hp, hm⟩ := hg i (Tree.dir_remove.mp hi).2
      exact ⟨fun hw => hp (watched_of_cleared hroot hleaf hw), movable_cleared hm hroot hleaf⟩
    · cases hs

end Steady

end Steps

end Newiup
