import Newiup.Watch.Settled
import Newiup.Watch.Walk

/-!
# The scans on a settled view

Where the thread is in its scans while the other processes change the tree: it stands in
known directories that stay, a directory that `add_monitor_dir` still comes to is new, and
one that `add_upload_file` still comes to is known.

A scan keeps what it has read: the paths of the directories it is inside of, and the names
that its streams have still to return.  Neither changes when the tree does.  The invariant
is about the tree as it is now, and the conditions on the other processes are what it
takes for it to stay true.

## Main definitions

* `View.DirsScan`, `View.FilesScan` — the two scans.
* `MonitorPc.Inside` — the directories the thread stands in.
* `View.Scanning` — **the invariant** of where the thread is.

## Main results

* `Scanning.left`, `Scanning.arrived` — **the other processes keep it**, if they leave alone
  what the thread stands in, and bring nothing to where it comes.
* `Scanning.registered` — so does a new watch.
-/

namespace Newiup

/-- The path fits into the buffers. -/
def Short (p : Path) : Prop := p.length < WDQUEUE_PATH_LEN

/-- A directory a call of `add_monitor_dir` stands in, or watches. -/
def DirsPos.holds : DirsPos → Option Path
  | .watch p _ => some p
  | .opendir node => some node.path
  | _ => none

/-- A directory a call of `add_upload_file` stands in. -/
def FilesPos.holds : FilesPos → Option Path
  | .opendir p => some p
  | _ => none

/-- The thread stands in the directory. -/
def MonitorPc.Inside : MonitorPc → Path → Prop
  | .dirs top frames pos, p => p = top ∨ (∃ f ∈ frames, f.node.path = p) ∨ pos.holds = some p
  | .files top frames pos, p => p = top ∨ (∃ f ∈ frames, f.path = p) ∨ pos.holds = some p
  | _, _ => False

namespace View

variable (V : View)

/-- A scan starts at the root, or in a directory that is known. -/
def Starts (root top : Path) : Prop :=
  (∃ i, V.dir top = some i) ∧ (top = root ∨ ∃ d n, top = child d n ∧ V.Known d)

/-- The position of `add_monitor_dir` is one its walk has reached. -/
def DirsAt (top : Path) (frames : List (Path × Stream)) : DirsPos → Prop
  | .watch p _ => Reached top frames p ∧ ∃ i, V.dir p = some i
  | .opendir node => Reached top frames node.path ∧ V.Known node.path
  | .readdir => True
  | .isDir p => Reached top frames p

/-- The position of `add_upload_file` is one its walk has reached. -/
def FilesAt (top : Path) (frames : List (Path × Stream)) : FilesPos → Prop
  | .opendir p => Reached top frames p ∧ V.Known p
  | .readdir => True
  | .isFile p => Reached top frames p
  | .isDir p => Reached top frames p

/-- The scan of directories for `top`.  The frames are the recursive calls, innermost first,
each with an open stream.  What is ahead is what they have still to return and all that lies
below it. -/
structure DirsScan (root top : Path) (frames : List DirsFrame) (pos : DirsPos) : Prop where
  start : V.Starts root top
  walk : Walk V.dir Short top (frames.map DirsFrame.opened)
  known : ∀ f ∈ frames, V.Known f.node.path
  place : V.DirsAt top (frames.map DirsFrame.opened) pos
  /-- What it may come to is new, -/
  new : ∀ q, Ahead May (frames.map DirsFrame.opened) pos.walk q → V.New q
  /-- and it comes to all that is not known. -/
  all : ∀ q i, Visible top q → V.dir q = some i →
    V.Known q ∨ Ahead Must (frames.map DirsFrame.opened) pos.walk q

/-- The scan of files for `top`. -/
structure FilesScan (root top : Path) (frames : List FilesFrame) (pos : FilesPos) : Prop where
  start : V.Starts root top
  walk : Walk V.dir Short top (frames.map FilesFrame.opened)
  known : ∀ f ∈ frames, V.Known f.path
  place : V.FilesAt top (frames.map FilesFrame.opened) pos
  /-- The directories it may come to are known. -/
  all : ∀ q i, Ahead May (frames.map FilesFrame.opened) pos.walk q → V.dir q = some i → V.Known q

/-- **The thread is where its scans have led it**, and has not exited. -/
def Scanning (root : Path) : MonitorPc → Prop
  | .dirs top frames pos => V.DirsScan root top frames pos
  | .files top frames pos => V.FilesScan root top frames pos
  | .exited => False
  | _ => True

end View

variable {root p q top : Path} {V : View} {es : List Event} {n : Name} {pc : MonitorPc}

namespace View

variable {dframes : List DirsFrame} {dpos : DirsPos} {fframes : List FilesFrame} {fpos : FilesPos}

theorem DirsScan.fits (h : V.DirsScan root top dframes dpos) :
    dpos.walk.Fits V.Known top (dframes.map DirsFrame.opened) := by
  have := h.place
  cases dpos with
  | watch p fnode => exact this.1
  | opendir node => exact this.2
  | readdir => trivial
  | isDir p => exact this

theorem DirsScan.opened (h : V.DirsScan root top dframes dpos) :
    ∀ f ∈ dframes.map DirsFrame.opened, V.Known f.1 := by
  intro f hf
  obtain ⟨g, hg, rfl⟩ := List.mem_map.mp hf
  exact h.known g hg

theorem FilesScan.fits (h : V.FilesScan root top fframes fpos) :
    fpos.walk.Fits V.Known top (fframes.map FilesFrame.opened) := by
  have := h.place
  cases fpos with
  | opendir p => exact this.2
  | readdir => trivial
  | isFile p => exact this
  | isDir p => exact this

theorem FilesScan.opened (h : V.FilesScan root top fframes fpos) :
    ∀ f ∈ fframes.map FilesFrame.opened, V.Known f.1 := by
  intro f hf
  obtain ⟨g, hg, rfl⟩ := List.mem_map.mp hf
  exact h.known g hg

/-- What the scan of directories comes to is visible from its start. -/
theorem DirsScan.visible {C : Stream → Name → Prop} (h : V.DirsScan root top dframes dpos)
    (ha : Ahead C (dframes.map DirsFrame.opened) dpos.walk q) : Visible top q := by
  refine ha.visible h.walk.visible ?_
  have := h.place
  cases dpos with
  | watch p fnode => exact this.1
  | opendir node => exact this.1.visible
  | readdir => trivial
  | isDir p => exact this

/-- The thread stands in directories. -/
theorem Scanning.dir_of_inside (hs : Settled root V) (h : V.Scanning root pc) (hp : pc.Inside p) :
    ∃ i, V.dir p = some i := by
  have hknown : ∀ {q}, V.Known q → ∃ i, V.dir q = some i := fun hk => by
    obtain ⟨i, -, hi, -⟩ := hs.watched_of_known hk
    exact ⟨i, hi⟩
  -- it starts at a directory, its frames are known, and so is what it is about to open
  cases pc with
  | dirs top frames pos =>
    rcases hp with rfl | ⟨f, hf, rfl⟩ | hp
    · exact h.start.1
    · exact hknown (h.known f hf)
    · have := h.place
      cases pos with
      | watch r fnode =>
        cases hp
        exact this.2
      | opendir node =>
        cases hp
        exact hknown this.2
      | readdir => cases hp
      | isDir r => cases hp
  | files top frames pos =>
    rcases hp with rfl | ⟨f, hf, rfl⟩ | hp
    · exact h.start.1
    · exact hknown (h.known f hf)
    · have := h.place
      cases pos with
      | opendir r =>
        cases hp
        exact hknown this.2
      | readdir => cases hp
      | isFile r => cases hp
      | isDir r => cases hp
  | loop => exact hp.elim
  | inner => exact hp.elim
  | check => exact hp.elim
  | exited => exact hp.elim
  | stopped => exact hp.elim

/-! ### The other processes -/

/-- Directories that are gone leave a new one new. -/
theorem New.left {dir' : Path → Option ℕ} {watch' : ℕ → Option ℕ} (h : V.New q)
    (hl : V.Leaves p n dir' watch' es) :
    View.New { V with dir := dir', watch := watch', pending := V.pending ++ es } q := by
  refine ⟨fun i hi => ?_, fun i hi hd => ?_, h.unlisted, fun ha => ?_⟩
  · refine Option.eq_none_iff_forall_ne_some.mpr fun w hw => ?_
    have := h.unwatched i ((hl.dir q i).mp hi).1
    rw [hl.watch i w hw] at this
    cases this
  · obtain ⟨hi, hw⟩ := (hl.dir q i).mp hi
    rcases DropsIn.append.mp hd with hd | ⟨e, he, hdrop, d, m, hat, rfl⟩
    · exact h.kept i hi hd
    · obtain ⟨-, hat', -⟩ := hl.told e he ⟨by rw [hat.2]; rfl, Or.inr hdrop⟩
      obtain ⟨rfl, rfl⟩ := At.unique (V := V) hat hat'
      exact hw (.refl _)
  · -- the new events add nothing
    rcases AwaitsIn.append.mp ha with ha | ⟨e, he, hadd, d, m, hat, -⟩
    · exact h.unawaited ha
    · rw [(hl.told e he ⟨by rw [hat.2]; rfl, Or.inl hadd⟩).1] at hadd
      cases hadd

/-- **The directories at and below a path are gone**, and the thread does not stand there. -/
theorem Scanning.left (h : V.Scanning root pc) {dir' : Path → Option ℕ} {watch' : ℕ → Option ℕ}
    (hl : V.Leaves p n dir' watch' es)
    (hinside : ∀ x, pc.Inside x → ¬Within (child p n) x) :
    View.Scanning { V with dir := dir', watch := watch', pending := V.pending ++ es } root pc := by
  have hknown : ∀ {q}, V.Known q → ¬Within (child p n) q →
      View.Known { V with dir := dir', watch := watch', pending := V.pending ++ es } q :=
    fun hk hq => Settled.known_left hl hk fun he => hq (he ▸ .refl _)
  have hstart : ∀ {top}, V.Starts root top → ¬Within (child p n) top →
      View.Starts { V with dir := dir', watch := watch', pending := V.pending ++ es } root top := by
    rintro top ⟨⟨i, hi⟩, ht⟩ hq
    refine ⟨⟨i, (hl.dir top i).mpr ⟨hi, hq⟩⟩, ht.imp_right ?_⟩
    rintro ⟨d, m, rfl, hk⟩
    exact ⟨d, m, rfl, hknown hk fun hw => hq (hw.under m)⟩
  have hopen : ∀ {x}, pc.Inside x → ∀ i, V.dir x = some i → dir' x = some i :=
    fun hx i hi => (hl.dir _ i).mpr ⟨hi, hinside _ hx⟩
  -- the directories that the thread stands in are not among those that are gone
  cases pc with
  | dirs top frames pos =>
    refine ⟨hstart h.start (hinside top (Or.inl rfl)), h.walk.mono (fun f hf => ?_) (fun _ h => h),
      fun f hf => hknown (h.known f hf) (hinside _ (Or.inr (Or.inl ⟨f, hf, rfl⟩))), ?_,
      fun q hq => (h.new q hq).left hl, fun q i hv hi => ?_⟩
    · obtain ⟨g, hg, rfl⟩ := List.mem_map.mp hf
      exact hopen (Or.inr (Or.inl ⟨g, hg, rfl⟩))
    · have := h.place
      cases pos with
      | watch r fnode =>
        exact ⟨this.1, this.2.imp fun i hi => hopen (Or.inr (Or.inr rfl)) i hi⟩
      | opendir node => exact ⟨this.1, hknown this.2 (hinside _ (Or.inr (Or.inr rfl)))⟩
      | readdir => trivial
      | isDir r => exact this
    · obtain ⟨hi, hq⟩ := (hl.dir q i).mp hi
      exact (h.all q i hv hi).imp_left fun hk => hknown hk hq
  | files top frames pos =>
    refine ⟨hstart h.start (hinside top (Or.inl rfl)), h.walk.mono (fun f hf => ?_) (fun _ h => h),
      fun f hf => hknown (h.known f hf) (hinside _ (Or.inr (Or.inl ⟨f, hf, rfl⟩))), ?_,
      fun q i ha hi => ?_⟩
    · obtain ⟨g, hg, rfl⟩ := List.mem_map.mp hf
      exact hopen (Or.inr (Or.inl ⟨g, hg, rfl⟩))
    · have := h.place
      cases pos with
      | opendir r => exact ⟨this.1, hknown this.2 (hinside _ (Or.inr (Or.inr rfl)))⟩
      | readdir => trivial
      | isFile r => exact this
      | isDir r => exact this
    · obtain ⟨hi, hq⟩ := (hl.dir q i).mp hi
      exact hknown (h.all q i ha hi) hq
  | exited => exact h
  | _ => trivial

/-- **A directory is there, with what lies in it**, where no scan comes to it. -/
theorem Scanning.arrived (hs : Settled root V) (h : V.Scanning root pc) {dir' : Path → Option ℕ}
    (hr : V.Arrives p n dir' es)
    (hmoved : ∀ i w, dir' (child p n) = some i → V.watch i = some w →
      ¬pc.DirsAhead May (child p n))
    (hparent : ∃ i, V.dir p = some i)
    (hquiet : V.Watched p → ¬pc.FilesAhead May (child p n)) :
    View.Scanning { V with dir := dir', pending := V.pending ++ es } root pc := by
  have hadds : ∀ e ∈ es, e.Tells → e.adds = true := fun e he ht => (hr.told e he ht).1
  have hknown : ∀ {q}, V.Known q →
      View.Known { V with dir := dir', pending := V.pending ++ es } q :=
    (Settled.known_arrived hadds).mpr
  have hstart : ∀ {top}, V.Starts root top →
      View.Starts { V with dir := dir', pending := V.pending ++ es } root top := by
    rintro top ⟨⟨i, hi⟩, ht⟩
    refine ⟨⟨i, hr.old _ i hi⟩, ht.imp_right ?_⟩
    rintro ⟨d, m, rfl, hk⟩
    exact ⟨d, m, rfl, hknown hk⟩
  -- the thread does not know what was not there
  have hout : ∀ q, V.Known q → ¬Within (child p n) q := by
    intro q hk hw
    obtain ⟨i, -, hi, -⟩ := hs.watched_of_known hk
    exact hr.free q i hw hi
  have htop : ∀ {top}, V.Starts root top → ¬Within (child p n) top := by
    rintro top ⟨⟨i, hi⟩, -⟩ hw
    exact hr.free top i hw hi
  cases pc with
  | dirs top frames pos =>
    have hunseen : V.Watched p → ¬Visible top (child p n) := hquiet
    refine ⟨hstart h.start, h.walk.mono (fun _ _ i => hr.old _ i) (fun _ h => h),
      fun f hf => hknown (h.known f hf), ?_, fun q hq => ?_, fun q i hv hi => ?_⟩
    · have := h.place
      cases pos with
      | watch r fnode => exact ⟨this.1, this.2.imp (hr.old r)⟩
      | opendir node => exact ⟨this.1, hknown this.2⟩
      | readdir => trivial
      | isDir r => exact this
    · -- what the scan may come to is new, also in what has come
      have hn := h.new q hq
      refine ⟨fun i hi => ?_, fun i hi hd => ?_, hn.unlisted, fun ha => ?_⟩
      · rcases hr.new q i hi with hi' | ⟨hw, -⟩
        · exact hn.unwatched i hi'
        · by_cases he : q = child p n
          · subst he
            exact Option.eq_none_iff_forall_ne_some.mpr fun w hw => hmoved i w hi hw hq
          · exact hr.below q i hw he hi
      · have hd' := (Settled.dropsIn_arrived hadds).mp hd
        rcases hr.new q i hi with hi' | ⟨hw, -⟩
        · exact hn.kept i hi' hd'
        · -- the event is one on a directory of the table, which the scan has not come to
          obtain ⟨e, -, -, d, m, hat, rfl⟩ := hd'
          rcases hq.parent h.opened h.fits with ha | hk | he
          · obtain ⟨node, hn', -, he⟩ := hs.exists_node hat
            exact (h.new d ha).unlisted node hn' he
          · rcases within_child_iff.mp hw with he | hw
            · obtain ⟨rfl, rfl⟩ := child_inj he
              exact hunseen (hs.watched_of_known hk) (h.visible hq)
            · exact hout d hk hw
          · exact htop h.start (he ▸ hw)
      · rcases AwaitsIn.append.mp ha with ha | ⟨e, he, hadd, d, m, hat, rfl⟩
        · exact hn.unawaited ha
        · obtain ⟨-, hat', hk, -⟩ := hr.told e he ⟨by rw [hat.2]; rfl, Or.inl hadd⟩
          obtain ⟨rfl, rfl⟩ := At.unique (V := V) hat hat'
          exact hunseen (hs.watched_of_known hk) (h.visible hq)
    · rcases hr.new q i hi with hi' | ⟨hw, -⟩
      · exact (h.all q i hv hi').imp_left hknown
      · -- the directory lies in one the scan still comes to
        have hwt := (within_total hv.within hw).resolve_right (htop h.start)
        obtain ⟨hv₁, hv₂⟩ := hv.between hwt hw
        obtain ⟨hvp, hh⟩ := hv₁.of_under fun he => htop h.start (he ▸ .refl _)
        obtain ⟨j, hj⟩ := hparent
        rcases h.all p j hvp hj with hk | ha
        · exact absurd hv₁ (hunseen (hs.watched_of_known hk))
        · exact Or.inr ((ha.under hh).trans hv₂)
  | files top frames pos =>
    have hunseen : V.Watched p → ¬Ahead May (frames.map FilesFrame.opened) pos.walk (child p n) :=
      hquiet
    refine ⟨hstart h.start, h.walk.mono (fun _ _ i => hr.old _ i) (fun _ h => h),
      fun f hf => hknown (h.known f hf), ?_, fun q i ha hi => ?_⟩
    · have := h.place
      cases pos with
      | opendir r => exact ⟨this.1, hknown this.2⟩
      | readdir => trivial
      | isFile r => exact this
      | isDir r => exact this
    · rcases hr.new q i hi with hi' | ⟨hw, -⟩
      · exact hknown (h.all q i ha hi')
      · -- the scan would come to what has come there
        exfalso
        have ha' := ha.above h.opened h.fits (htop h.start) hout hw
        obtain ⟨j, hj⟩ := hparent
        rcases ha'.parent h.opened h.fits with ha | hk | he
        · exact hunseen (hs.watched_of_known (h.all p j ha hj)) ha'
        · exact hunseen (hs.watched_of_known hk) ha'
        · exact htop h.start (he ▸ .refl _)
  | exited => exact h
  | _ => trivial

/-! ### A new watch -/

/-- What `add_monitor_dir` watches does not lie where an event has a directory added. -/
theorem DirsScan.not_awaited (hs : Settled root V) {fnode : Option WdNode}
    (h : V.DirsScan root top dframes (.watch p fnode)) (ha : V.Awaits q) : ¬Within q p := by
  intro hw
  have hnew : V.New p := h.new p (Or.inl .here)
  -- the directory lies in a known one, at and below which nothing is awaited
  have hne : q ≠ p := by
    rintro rfl
    exact hnew.unawaited ha
  have hin : ∀ {d m}, p = child d m → V.Known d → False := by
    rintro d m rfl hk
    rcases within_child_iff.mp hw with he | hw
    · exact hne he
    · exact hs.not_within_of_awaits ha hk hw
  rcases h.place.1.cases with rfl | ⟨f, hf, m, he⟩
  · rcases h.start.2 with rfl | ⟨d, m, he, hk⟩
    · obtain ⟨i, hi⟩ := hs.dir_of_awaits ha
      exact hne (hw.antisymm (hs.under q i hi))
    · exact hin he hk
  · exact hin he (h.opened f hf)

theorem DirsScan.up (h : V.DirsScan root top dframes dpos)
    (hr : Reached top (dframes.map DirsFrame.opened) p) :
    p = root ∨ ∃ d n, p = child d n ∧ V.Known d := by
  rcases hr.cases with rfl | ⟨f, hf, m, he⟩
  · exact h.start.2
  · exact Or.inr ⟨f.1, m, he, h.opened f hf⟩

/-- **A new directory is watched.** -/
theorem DirsScan.registered (hs : Settled root V) {fnode : Option WdNode} {i : ℕ}
    (h : V.DirsScan root top dframes (.watch p fnode)) (hi : V.dir p = some i) (off : ℕ) :
    Settled root (V.plus i p off) ∧
      (V.plus i p off).DirsScan root top dframes (.opendir ⟨V.nextWd, p, off⟩) := by
  have hnew : V.New p := h.new p (Or.inl .here)
  have hsettled : Settled root (V.plus i p off) :=
    hs.registered hi hnew (h.up h.place.1) fun q ha => h.not_awaited hs ha
  have hknown : ∀ {q}, V.Known q → (V.plus i p off).Known q := hs.known_plus
  have hself : (V.plus i p off).Known p := hs.known_self hi hnew
  refine ⟨hsettled, ⟨h.start.1, h.start.2.imp_right ?_⟩, h.walk, fun f hf => hknown (h.known f hf),
    ⟨h.place.1, hself⟩, fun q hq => ?_, fun q j hv hj => ?_⟩
  · rintro ⟨d, m, he, hk⟩
    exact ⟨d, m, he, hknown hk⟩
  · -- the walk does not come to the directory again
    have hne : q ≠ p := by
      rintro rfl
      rcases hq with ⟨m, -, hv⟩ | hf
      · exact not_within_of_child q m hv.within
      · exact h.place.1.not_ahead (C := May) (fun _ _ _ hc => hc) (.refl q) (Or.inr hf)
    have hn : V.New q := h.new q
      (hq.mono (fun hv => visible_iff.mpr (Or.inr hv)) fun _ _ _ _ hc => hc)
    refine ⟨fun j hj => ?_, fun j hj hd => hn.kept j hj ((hs.dropsIn_plus fun _ he => he).mp hd),
      fun m hm he => ?_, fun ha => hn.unawaited (hs.awaitsIn_plus (fun _ he => he) ha)⟩
    · have hji : j ≠ i := fun he => hne (hs.dir_inj _ _ _ hj (he ▸ hi))
      exact (Function.update_of_ne hji ..).trans (hn.unwatched j hj)
    · rcases List.mem_append.mp hm with hm | hm
      · exact hn.unlisted m hm he
      · rw [List.mem_singleton.mp hm] at he
        exact hne he.symm
  · rcases h.all q j hv hj with hk | ha
    · exact Or.inl (hknown hk)
    · rcases ha with ha | ha
      · rcases visible_iff.mp ha with rfl | ha
        · exact Or.inl hself
        · exact Or.inr (Or.inl ha)
      · exact Or.inr (Or.inr ha)

/-! ### The steps of the scans -/

/-- A step of `add_monitor_dir`. -/
theorem DirsScan.move (h : V.DirsScan root top dframes dpos) {frames : List DirsFrame}
    {pos : DirsPos} (hwalk : Walk V.dir Short top (frames.map DirsFrame.opened))
    (hknown : ∀ f ∈ frames, V.Known f.node.path)
    (hplace : V.DirsAt top (frames.map DirsFrame.opened) pos)
    (hmay : ∀ q, Ahead May (frames.map DirsFrame.opened) pos.walk q →
      Ahead May (dframes.map DirsFrame.opened) dpos.walk q)
    (hmust : ∀ q i, V.dir q = some i → Ahead Must (dframes.map DirsFrame.opened) dpos.walk q →
      Ahead Must (frames.map DirsFrame.opened) pos.walk q) :
    V.DirsScan root top frames pos :=
  ⟨h.start, hwalk, hknown, hplace, fun q hq => h.new q (hmay q hq),
    fun q i hv hi => (h.all q i hv hi).imp_right (hmust q i hi)⟩

/-- A step of `add_upload_file`. -/
theorem FilesScan.move (h : V.FilesScan root top fframes fpos) {frames : List FilesFrame}
    {pos : FilesPos} (hwalk : Walk V.dir Short top (frames.map FilesFrame.opened))
    (hknown : ∀ f ∈ frames, V.Known f.path)
    (hplace : V.FilesAt top (frames.map FilesFrame.opened) pos)
    (hmay : ∀ q, Ahead May (frames.map FilesFrame.opened) pos.walk q →
      Ahead May (fframes.map FilesFrame.opened) fpos.walk q) :
    V.FilesScan root top frames pos :=
  ⟨h.start, hwalk, hknown, hplace, fun q i ha hi => h.all q i (hmay q ha) hi⟩

/-- The scan of files comes to directories that are known. -/
theorem DirsScan.files (h : V.DirsScan root top dframes dpos)
    (hend : ∀ q i, V.dir q = some i → ¬Ahead Must (dframes.map DirsFrame.opened) dpos.walk q) :
    V.FilesScan root top [] (.opendir top) := by
  have hall : ∀ q i, Visible top q → V.dir q = some i → V.Known q := fun q i hv hi =>
    (h.all q i hv hi).resolve_right (hend q i hi)
  obtain ⟨i, hi⟩ := h.start.1
  refine ⟨h.start, .nil _ _ _, (fun f hf => by cases hf), ⟨.refl top, hall top i .here hi⟩,
    fun q j ha hj => hall q j ?_ hj⟩
  rcases ha with ⟨m, hm, hv⟩ | ⟨f, hf, -⟩
  · exact (Visible.here.under hm).trans hv
  · cases hf

/-- A scan is started. -/
theorem DirsScan.first {fnode : Option WdNode} (hstart : V.Starts root p)
    (hnew : ∀ q, Visible p q → V.New q) : V.DirsScan root p [] (.watch p fnode) := by
  refine ⟨hstart, .nil _ _ _, (fun f hf => by cases hf), ⟨.refl p, hstart.1⟩, fun q ha => ?_,
    fun q i hv _ => Or.inr (Or.inl hv)⟩
  rcases ha with hv | ⟨f, hf, -⟩
  · exact hnew q hv
  · cases hf

end View

end Newiup
