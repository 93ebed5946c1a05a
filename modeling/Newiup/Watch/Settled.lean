import Newiup.Watch.Monitor

/-!
# Settled tables

What relates the table of watched directories to the directories while events are
pending.  A pending event names an entry of the directory its watch has in the table.
A node *stays* if no pending event takes it out; the nodes that stay are exactly the
watched directories under their current paths, but for those that were moved.

The state is looked at through a *view*: the directories, the watches, the table and
the pending events.  The other processes and the thread change a view in a few ways
only, and each keeps a settled view settled.

## Main definitions

* `View`, `MonitorState.view` — what the invariant is about.
* `View.At`, `View.Drops`, `View.Awaits`, `View.Stays`, `View.Known` — what the pending
  events say.
* `View.New` — the thread has nothing of a directory.
* `Settled` — **the invariant**.

## Main results

* `Settled.left`, `Settled.arrived` — directories are gone, and directories are there.
* `Settled.pop`, `Settled.taken`, `Settled.registered` — an event is read, a node is taken
  out, and a directory is watched.
* `Settled.exact` — **once all events are read the table is exact**.
-/

namespace Newiup

/-- The directories, the watches, the table and the pending events.  The invariant is about
these alone, so that it can be proved for an operation on the tree and for a step of the thread
in the same terms.  Files do not come into it. -/
structure View where
  /-- The number of the directory at a path. -/
  dir : Path → Option ℕ
  /-- The watch on a directory. -/
  watch : ℕ → Option ℕ
  /-- The next new watch. -/
  nextWd : ℕ
  /-- The table. -/
  table : Wdqueue
  /-- The events the thread has not come to. -/
  pending : List Event

/-- The view of a state. -/
def MonitorState.view {root : Path} (s : MonitorState root) : View where
  dir := s.tree.dir
  watch := s.watch
  nextWd := s.nextWd
  table := s.wdList
  pending := s.buffer ++ s.events

/-- The event is one the table is changed for. -/
def Event.Tells (e : Event) : Prop := e.name.isSome = true ∧ (e.adds = true ∨ e.drops = true)

/-- An event of what has appeared takes nothing out. -/
theorem Event.not_drops_of_appears {e : Event} (hk : e.kind.appears = true) : e.drops = false := by
  obtain ⟨w, kind, b, m⟩ := e
  cases kind <;> first | exact Bool.and_false b | cases hk

theorem Event.not_drops_of_adds {e : Event} (h : e.adds = true) : e.drops = false :=
  not_drops_of_appears (Bool.and_eq_true_iff.mp h).2

/-! ### What the events say -/

namespace View

variable (V : View)

/-- The event is one on the entry `n` of the directory the table has at `d`. -/
def At (e : Event) (d : Path) (n : Name) : Prop :=
  getWdPathByWd V.table e.wd = some d ∧ e.name = some n

/-- One of the events takes out the node of the path. -/
def DropsIn (es : List Event) (p : Path) : Prop :=
  ∃ e ∈ es, e.drops = true ∧ ∃ d n, V.At e d n ∧ p = child d n

/-- One of the events has the directory at the path added. -/
def AwaitsIn (es : List Event) (p : Path) : Prop :=
  ∃ e ∈ es, e.adds = true ∧ ∃ d n, V.At e d n ∧ p = child d n

/-- A pending event takes out the node of the path. -/
def Drops (p : Path) : Prop := V.DropsIn V.pending p

/-- A pending event has the directory at the path added. -/
def Awaits (p : Path) : Prop := V.AwaitsIn V.pending p

/-- The node is in the table, and no pending event takes it out. -/
def Stays (node : WdNode) : Prop := node ∈ V.table ∧ ¬V.Drops node.path

/-- The table has the directory at this path, and no pending event takes it out. -/
def Known (p : Path) : Prop := ∃ node, V.Stays node ∧ node.path = p

/-- The directory at the path is watched. -/
def Watched (p : Path) : Prop := ∃ i w, V.dir p = some i ∧ V.watch i = some w

/-- The entry `n` of the directory at `d` can be added after the events `past`. -/
structure Due (past : List Event) (d : Path) (n : Name) : Prop where
  /-- The directory is known. -/
  parent : V.Known d
  /-- There is a directory to add. -/
  dir : ∃ i, V.dir (child d n) = some i
  /-- If it is watched, its node is taken out before. -/
  stale : ∀ i w, V.dir (child d n) = some i → V.watch i = some w →
    ∃ node ∈ V.table, node.wd = w ∧ V.DropsIn past node.path
  /-- Nothing below it is watched. -/
  below : ∀ q i, Within (child d n) q → q ≠ child d n → V.dir q = some i → V.watch i = none

/-- The event on the entry `n` of the directory at `d` finds what it needs after the events
`past`. -/
structure Right (past : List Event) (e : Event) (d : Path) (n : Name) : Prop where
  short : (child d n).length < WDQUEUE_PATH_LEN
  /-- The directory is in the table. -/
  kept : ¬V.DropsIn past d
  /-- What is to be added is told of once. -/
  once : ∀ p, V.AwaitsIn past p → ¬Within p (child d n)
  /-- What is to be added can be added. -/
  due : e.adds = true → V.Due past d n

/-- The directories at and below the entry `n` of the one at `p` are gone, and the events `es`
tell of it. -/
structure Leaves (p : Path) (n : Name) (dir' : Path → Option ℕ) (watch' : ℕ → Option ℕ)
    (es : List Event) : Prop where
  /-- The others are there, -/
  dir : ∀ q i, dir' q = some i ↔ V.dir q = some i ∧ ¬Within (child p n) q
  /-- and no watch is new. -/
  watch : ∀ i w, watch' i = some w → V.watch i = some w
  /-- An event that tells something is one on the entry. -/
  told : ∀ e ∈ es, e.Tells → e.adds = false ∧ V.At e p n ∧ V.Known p ∧
    (child p n).length < WDQUEUE_PATH_LEN

/-- A directory comes to the entry `n` of the one at `p`, with what lies in it, and the events
`es` tell of it. -/
structure Arrives (p : Path) (n : Name) (dir' : Path → Option ℕ) (es : List Event) : Prop where
  /-- What was there stays, -/
  old : ∀ q i, V.dir q = some i → dir' q = some i
  /-- what is new lies there, -/
  new : ∀ q i, dir' q = some i →
    V.dir q = some i ∨ Within (child p n) q ∧ ∀ r, V.dir r ≠ some i
  /-- where nothing was, -/
  free : ∀ q i, Within (child p n) q → V.dir q ≠ some i
  /-- and nothing in it is watched. -/
  below : ∀ q i, Within (child p n) q → q ≠ child p n → dir' q = some i → V.watch i = none
  /-- An event that tells something is one on the entry. -/
  told : ∀ e ∈ es, e.Tells → e.adds = true ∧ V.At e p n ∧ V.Known p ∧
    (child p n).length < WDQUEUE_PATH_LEN

/-- The view without a node, which is the one of the path. -/
abbrev without (node : WdNode) (p : Path) (es : List Event) : View where
  dir := V.dir
  watch := fun i => if V.watch i = some node.wd then none else V.watch i
  nextWd := V.nextWd
  table := delMonitorDir V.table p
  pending := es

/-- The view with a new watch and a node for it. -/
abbrev plus (i : ℕ) (p : Path) (off : ℕ) : View where
  dir := V.dir
  watch := Function.update V.watch i (some V.nextWd)
  nextWd := V.nextWd + 1
  table := V.table ++ [⟨V.nextWd, p, off⟩]
  pending := V.pending

/-- The thread has nothing of the directory at the path. -/
structure New (p : Path) : Prop where
  unwatched : ∀ i, V.dir p = some i → V.watch i = none
  /-- What the thread adds there is not taken out by an event that is pending. -/
  kept : ∀ i, V.dir p = some i → ¬V.Drops p
  unlisted : ∀ node ∈ V.table, node.path ≠ p
  unawaited : ¬V.Awaits p

end View

/-- **The invariant** of the table, the directories and the pending events. -/
structure Settled (root : Path) (V : View) : Prop where
  /-- A directory has one path, -/
  dir_inj : ∀ p q i, V.dir p = some i → V.dir q = some i → p = q
  /-- lies in the monitored one, -/
  under : ∀ p i, V.dir p = some i → Within root p
  /-- and has one watch. -/
  watch_inj : ∀ i j w, V.watch i = some w → V.watch j = some w → i = j
  /-- New watches are new to the table. -/
  wd_lt : ∀ node ∈ V.table, node.wd < V.nextWd
  /-- No two nodes have the same watch, -/
  wds : (V.table.map WdNode.wd).Nodup
  /-- or the same path. -/
  paths : (V.table.map WdNode.path).Nodup
  /-- A node that stays is one of a watched directory, -/
  live : ∀ node, V.Stays node → ∃ i, V.dir node.path = some i ∧ V.watch i = some node.wd
  /-- and lies in the directory of one that stays. -/
  up : ∀ node, V.Stays node → node.path = root ∨ ∃ d n, node.path = child d n ∧ V.Known d
  /-- A watch has a node. -/
  noted : ∀ i w, V.watch i = some w → ∃ node ∈ V.table, node.wd = w
  /-- A pending event is one on a directory of the table, and finds what it needs. -/
  told : ∀ past e rest, V.pending = past ++ e :: rest → e.Tells →
    ∃ d n, V.At e d n ∧ V.Right past e d n

variable {root p q : Path} {V V' : View} {e f : Event} {es fs past rest : List Event}
  {d d' : Path} {n m : Name} {node : WdNode} {i j w : ℕ}

namespace View

theorem At.unique (h : V.At e d n) (h' : V.At e d' m) : d = d' ∧ n = m :=
  ⟨Option.some.inj (h.1.symm.trans h'.1), Option.some.inj (h.2.symm.trans h'.2)⟩

theorem DropsIn.append : V.DropsIn (es ++ fs) p ↔ V.DropsIn es p ∨ V.DropsIn fs p := by
  unfold DropsIn
  simp only [List.mem_append, or_and_right, exists_or]

theorem DropsIn.cons : V.DropsIn (e :: es) p ↔ V.DropsIn [e] p ∨ V.DropsIn es p := by
  rw [← append, List.singleton_append]

/-- An event takes out the node of the path it is on. -/
theorem DropsIn.eq (h : V.DropsIn [e] p) (hat : V.At e d n) : p = child d n := by
  obtain ⟨f, hf, -, d', m, hat', hp⟩ := h
  rw [List.mem_singleton.mp hf] at hat'
  obtain ⟨rfl, rfl⟩ := hat.unique hat'
  exact hp

theorem AwaitsIn.append : V.AwaitsIn (es ++ fs) p ↔ V.AwaitsIn es p ∨ V.AwaitsIn fs p := by
  unfold AwaitsIn
  simp only [List.mem_append, or_and_right, exists_or]

theorem DropsIn.mono (h : V.DropsIn es p) (hs : ∀ e ∈ es, e ∈ fs) : V.DropsIn fs p := by
  obtain ⟨e, he, hd, h⟩ := h
  exact ⟨e, hs e he, hd, h⟩

theorem AwaitsIn.mono (h : V.AwaitsIn es p) (hs : ∀ e ∈ es, e ∈ fs) : V.AwaitsIn fs p := by
  obtain ⟨e, he, hd, h⟩ := h
  exact ⟨e, hs e he, hd, h⟩

end View

/-- An event of two lists is one of the first, or of the second. -/
theorem split_append {as bs : List Event} (h : as ++ bs = past ++ e :: rest) :
    (∃ r, as = past ++ e :: r) ∨ ∃ a, past = as ++ a ∧ bs = a ++ e :: rest := by
  rcases List.append_eq_append_iff.mp h with ⟨a, rfl, rfl⟩ | ⟨c, rfl, hc⟩
  · exact Or.inr ⟨a, rfl, rfl⟩
  · cases c with
    | nil => exact Or.inr ⟨[], by simp, hc.symm⟩
    | cons x c =>
      rw [List.cons_append, List.cons.injEq] at hc
      obtain ⟨rfl, rfl⟩ := hc
      exact Or.inl ⟨c, rfl⟩

namespace Settled

/-! ### Nodes -/

/-- The table knows watched directories only. -/
theorem watched_of_known (h : Settled root V) (hk : V.Known p) : V.Watched p := by
  obtain ⟨node, hs, rfl⟩ := hk
  obtain ⟨i, hi, hw⟩ := h.live node hs
  exact ⟨i, node.wd, hi, hw⟩

/-- The table has the watch of what it knows. -/
theorem path_of_known (h : Settled root V) (hk : V.Known p) (hi : V.dir p = some i)
    (hw : V.watch i = some w) : getWdPathByWd V.table w = some p := by
  obtain ⟨node, hs, rfl⟩ := hk
  obtain ⟨j, hj, hwj⟩ := h.live node hs
  obtain rfl := Option.some.inj (hi.symm.trans hj)
  obtain rfl := Option.some.inj (hw.symm.trans hwj)
  exact (getWdPathByWd_eq_some h.wds).mpr ⟨node, hs.1, rfl, rfl⟩

theorem exists_node (h : Settled root V) (ha : V.At e d n) :
    ∃ node ∈ V.table, node.wd = e.wd ∧ node.path = d :=
  (getWdPathByWd_eq_some h.wds).mp ha.1

/-- An event that is awaited has its directory. -/
theorem due_of_awaits (h : Settled root V) (ha : V.AwaitsIn es p) (hs : ∀ e ∈ es, e ∈ V.pending) :
    ∃ past d n, (∀ e ∈ past, e ∈ V.pending) ∧ p = child d n ∧ V.Due past d n := by
  obtain ⟨e, he, hadd, d, n, hat, rfl⟩ := ha
  obtain ⟨past, rest, hp⟩ := List.append_of_mem (hs e he)
  obtain ⟨d', n', hat', hright⟩ := h.told past e rest hp ⟨by rw [hat.2]; rfl, Or.inl hadd⟩
  obtain ⟨rfl, rfl⟩ := hat.unique hat'
  exact ⟨past, d, n, fun f hf => hp ▸ List.mem_append_left _ hf, rfl, hright.due hadd⟩

theorem dir_of_awaits (h : Settled root V) (ha : V.Awaits p) : ∃ i, V.dir p = some i := by
  obtain ⟨past, d, n, -, rfl, hdue⟩ := h.due_of_awaits ha fun _ he => he
  exact hdue.dir

/-- **What is awaited does not lie at or above what is known.** -/
theorem not_within_of_awaits (h : Settled root V) (ha : V.Awaits p) (hk : V.Known q) :
    ¬Within p q := by
  intro hw
  obtain ⟨past, d, n, hpast, rfl, hdue⟩ := h.due_of_awaits ha fun _ he => he
  obtain ⟨node, hs, rfl⟩ := hk
  obtain ⟨i, hi, hwi⟩ := h.live node hs
  by_cases he : node.path = child d n
  · -- its node would be taken out
    obtain ⟨node', hn', hwd, hdrop⟩ := hdue.stale i node.wd (he ▸ hi) hwi
    obtain rfl := node_eq_of_wd h.wds hn' hs.1 hwd
    exact hs.2 (hdrop.mono hpast)
  · rw [hdue.below _ i hw he hi] at hwi
    cases hwi

/-- A watch whose directory has no path is one of a node that is taken out. -/
theorem drops_of_gone (h : Settled root V) (hw : V.watch i = some w)
    (hi : ∀ p, V.dir p ≠ some i) : ∃ node ∈ V.table, node.wd = w ∧ V.Drops node.path := by
  obtain ⟨node, hn, rfl⟩ := h.noted i w hw
  refine ⟨node, hn, rfl, ?_⟩
  by_contra hd
  obtain ⟨j, hj, hwj⟩ := h.live node ⟨hn, hd⟩
  obtain rfl := h.watch_inj i j _ hw hwj
  exact hi _ hj

/-! ### The other processes -/

/-- Events that tell of directories that are gone take out nothing else. -/
theorem known_left {dir' : Path → Option ℕ} {watch' : ℕ → Option ℕ}
    (hl : V.Leaves p n dir' watch' es) (hk : V.Known q) (hq : q ≠ child p n) :
    View.Known { V with dir := dir', watch := watch', pending := V.pending ++ es } q := by
  obtain ⟨node, hs, rfl⟩ := hk
  refine ⟨node, ⟨hs.1, fun hd => ?_⟩, rfl⟩
  rcases View.DropsIn.append.mp hd with hd | ⟨e, he, hdrop, d, m, hat, hp⟩
  · exact hs.2 hd
  · obtain ⟨-, hat', -⟩ := hl.told e he ⟨by rw [hat.2]; rfl, Or.inr hdrop⟩
    obtain ⟨rfl, rfl⟩ := View.At.unique (V := V) hat hat'
    exact hq hp

/-- **The directories at and below a path are gone.** -/
theorem left (h : Settled root V) {dir' : Path → Option ℕ} {watch' : ℕ → Option ℕ}
    (hl : V.Leaves p n dir' watch' es)
    (hkeep : ∀ q i, dir' q = some i → watch' i = V.watch i)
    (hbelow : ∀ q i, Within (child p n) q → q ≠ child p n → V.dir q = some i → V.watch i = none)
    (hawait : ∀ q, V.Awaits q → ¬Within (child p n) q)
    (hdrop : V.Known (child p n) → V.DropsIn es (child p n)) :
    Settled root { V with dir := dir', watch := watch', pending := V.pending ++ es } := by
  -- a node that still stays is not one of a directory that is gone
  have hstays : ∀ node, View.Stays { V with
      dir := dir', watch := watch', pending := V.pending ++ es } node →
      V.Stays node ∧ ¬Within (child p n) node.path := by
    intro node hs
    have hs' : V.Stays node := ⟨hs.1, fun hd => hs.2 (View.DropsIn.append.mpr (Or.inl hd))⟩
    refine ⟨hs', fun hw => ?_⟩
    by_cases he : node.path = child p n
    · refine hs.2 (View.DropsIn.append.mpr (Or.inr ?_))
      show V.DropsIn es node.path
      rw [he]
      exact hdrop ⟨node, hs', he⟩
    · obtain ⟨i, hi, hwi⟩ := h.live node hs'
      rw [hbelow _ i hw he hi] at hwi
      cases hwi
  have hnoadd : ∀ fs, (∀ e ∈ fs, e ∈ es) → ∀ q, ¬V.AwaitsIn fs q := by
    rintro fs hfs q ⟨e, he, hadd, d, m, hat, -⟩
    rw [(hl.told e (hfs e he) ⟨by rw [hat.2]; rfl, Or.inl hadd⟩).1] at hadd
    cases hadd
  refine ⟨fun x y i hx hy => h.dir_inj x y i ((hl.dir x i).mp hx).1 ((hl.dir y i).mp hy).1,
    fun x i hx => h.under x i ((hl.dir x i).mp hx).1,
    fun i j w hi hj => h.watch_inj i j w (hl.watch i w hi) (hl.watch j w hj), h.wd_lt, h.wds,
    h.paths, fun node hs => ?_, fun node hs => ?_, fun i w hw => h.noted i w (hl.watch i w hw),
    fun past e rest hp ht => ?_⟩
  · obtain ⟨hs, hw⟩ := hstays node hs
    obtain ⟨i, hi, hwi⟩ := h.live node hs
    have hi' := (hl.dir _ i).mpr ⟨hi, hw⟩
    exact ⟨i, hi', (hkeep _ i hi').trans hwi⟩
  · obtain ⟨hs, hw⟩ := hstays node hs
    refine (h.up node hs).imp_right fun ⟨d, m, he, hk⟩ => ⟨d, m, he, known_left hl hk ?_⟩
    rintro rfl
    exact hw (he ▸ within_child _ m)
  · rcases split_append hp with ⟨r, hp⟩ | ⟨a, rfl, he⟩
    · -- an event that was pending: what it adds is not what is gone
      obtain ⟨d, m, hat, hright⟩ := h.told past e r hp ht
      refine ⟨d, m, hat, hright.short, hright.kept, hright.once, fun hadd => ?_⟩
      have hdue := hright.due hadd
      have haw : V.Awaits (child d m) :=
        ⟨e, hp ▸ List.mem_append_right _ List.mem_cons_self, hadd, d, m, hat, rfl⟩
      obtain ⟨i, hi⟩ := hdue.dir
      refine ⟨known_left hl hdue.parent ?_, ⟨i, (hl.dir _ i).mpr ⟨hi, hawait _ haw⟩⟩,
        fun j w hj hw => hdue.stale j w ((hl.dir _ j).mp hj).1 (hl.watch j w hw),
        fun x j hx hne hj => (hkeep x j hj).trans (hdue.below x j hx hne ((hl.dir x j).mp hj).1)⟩
      rintro rfl
      exact hawait _ haw (within_child _ m)
    · -- a new event, which adds nothing
      have hmem : ∀ f ∈ a, f ∈ es := fun f hf => he ▸ List.mem_append_left _ hf
      have hmem' : e ∈ es := he ▸ List.mem_append_right _ List.mem_cons_self
      obtain ⟨hadd, hat, hk, hshort⟩ := hl.told e hmem' ht
      refine ⟨p, n, hat, hshort, fun hd => ?_, fun x hx => ?_, fun hadd' => ?_⟩
      · obtain ⟨node, hs, rfl⟩ := id hk
        rcases View.DropsIn.append.mp hd with hd | ⟨f, hf, hdr, d, m, hat', hp'⟩
        · exact hs.2 hd
        · obtain ⟨-, hat₁, -⟩ := hl.told f (hmem f hf) ⟨by rw [hat'.2]; rfl, Or.inr hdr⟩
          obtain ⟨rfl, rfl⟩ := View.At.unique (V := V) hat' hat₁
          exact child_ne _ _ hp'.symm
      · rcases View.AwaitsIn.append.mp hx with hx | hx
        · intro hw
          rcases within_child_iff.mp hw with rfl | hw
          · exact hawait _ hx (.refl _)
          · exact h.not_within_of_awaits hx hk hw
        · exact absurd hx (hnoadd a hmem x)
      · rw [hadd] at hadd'
        cases hadd'

theorem dropsIn_arrived (hes : ∀ e ∈ es, e.Tells → e.adds = true) :
    V.DropsIn (V.pending ++ es) q ↔ V.Drops q := by
  refine View.DropsIn.append.trans (or_iff_left ?_)
  rintro ⟨e, he, hdrop, d, m, hat, -⟩
  rw [Event.not_drops_of_adds (hes e he ⟨by rw [hat.2]; rfl, Or.inr hdrop⟩)] at hdrop
  cases hdrop

/-- Events that tell of new directories take nothing out. -/
theorem known_arrived {dir' : Path → Option ℕ} (hes : ∀ e ∈ es, e.Tells → e.adds = true) :
    View.Known { V with dir := dir', pending := V.pending ++ es } q ↔ V.Known q := by
  have hstays : ∀ node, View.Stays { V with dir := dir', pending := V.pending ++ es } node ↔
      V.Stays node := fun node => and_congr_right fun _ => not_congr (dropsIn_arrived hes)
  simp only [View.Known, hstays]

/-- **A directory is there**, with what lies in it. -/
theorem arrived (h : Settled root V) {dir' : Path → Option ℕ}
    (ha : V.Arrives p n dir' es)
    (hinj : ∀ q r i, dir' q = some i → dir' r = some i → q = r)
    (hunder : ∀ q i, dir' q = some i → Within root q)
    (hthere : ∃ i, dir' (child p n) = some i)
    (hawait : ∀ i w, dir' (child p n) = some i → V.watch i = some w →
      ∀ q, V.Awaits q → ¬Within q (child p n))
    (hlen : es.length ≤ 1) :
    Settled root { V with dir := dir', pending := V.pending ++ es } := by
  have hadds : ∀ e ∈ es, e.Tells → e.adds = true := fun e he ht => (ha.told e he ht).1
  have hstays : ∀ node, View.Stays { V with dir := dir', pending := V.pending ++ es } node ↔
      V.Stays node := fun node => and_congr_right fun _ => not_congr (dropsIn_arrived hadds)
  have hknown : ∀ {q}, V.Known q →
      View.Known { V with dir := dir', pending := V.pending ++ es } q := (known_arrived hadds).mpr
  -- the table is as before; the pending events are the old ones and maybe one about the entry
  refine ⟨hinj, hunder, h.watch_inj, h.wd_lt, h.wds, h.paths, fun node hs => ?_, fun node hs => ?_,
    h.noted, fun past e rest hp ht => ?_⟩
  · obtain ⟨i, hi, hw⟩ := h.live node ((hstays node).mp hs)
    exact ⟨i, ha.old _ i hi, hw⟩
  · exact (h.up node ((hstays node).mp hs)).imp_right fun ⟨d, m, he, hk⟩ => ⟨d, m, he, hknown hk⟩
  · rcases split_append hp with ⟨r, hp⟩ | ⟨a, rfl, he⟩
    · -- an event that was pending: the directory does not come to where it adds one
      obtain ⟨d, m, hat, hright⟩ := h.told past e r hp ht
      refine ⟨d, m, hat, hright.short, hright.kept, hright.once, fun hadd => ?_⟩
      have hdue := hright.due hadd
      have haw : V.Awaits (child d m) :=
        ⟨e, hp ▸ List.mem_append_right _ List.mem_cons_self, hadd, d, m, hat, rfl⟩
      obtain ⟨i, hi⟩ := hdue.dir
      refine ⟨hknown hdue.parent, ⟨i, ha.old _ i hi⟩, fun j w hj hw => ?_, fun x j hx hne hj => ?_⟩
      · obtain rfl := Option.some.inj ((ha.old _ i hi).symm.trans hj)
        exact hdue.stale i w hi hw
      · rcases ha.new x j hj with hj' | ⟨hwx, -⟩
        · exact hdue.below x j hx hne hj'
        · by_cases hxe : x = child p n
          · subst hxe
            refine Option.eq_none_iff_forall_ne_some.mpr fun w hw => ?_
            exact hawait j w hj hw _ haw hx
          · exact ha.below x j hwx hxe hj
    · -- the only new event
      have hnil : a = [] := by
        have := congrArg List.length he
        rw [List.length_append, List.length_cons] at this
        exact List.eq_nil_of_length_eq_zero (by omega)
      subst hnil
      have hmem : e ∈ es := he ▸ List.mem_append_right _ List.mem_cons_self
      obtain ⟨hadd, hat, hk, hshort⟩ := ha.told e hmem ht
      rw [List.append_nil]
      refine ⟨p, n, hat, hshort, fun hd => ?_, fun x hx hw => ?_, fun _ => ?_⟩
      · obtain ⟨node, hs, rfl⟩ := hk
        exact hs.2 hd
      · rcases within_child_iff.mp hw with rfl | hw
        · obtain ⟨i, hi⟩ := h.dir_of_awaits hx
          exact ha.free _ i (.refl _) hi
        · exact h.not_within_of_awaits hx hk hw
      · refine ⟨hknown hk, hthere, fun i w hi hw => h.drops_of_gone hw ?_, ha.below⟩
        exact (ha.new _ i hi).elim (fun hi' => absurd hi' (ha.free _ i (.refl _))) And.right

/-! ### The thread -/

/-- An event that takes out no node leaves the nodes that stay. -/
theorem stays_pop (hp : V.pending = e :: es) (hno : ∀ node ∈ V.table, ¬V.DropsIn [e] node.path) :
    View.Stays { V with pending := es } node ↔ V.Stays node := by
  refine and_congr_right fun hn => not_congr ⟨fun hd => ?_, fun hd => ?_⟩
  · exact View.DropsIn.mono (V := V) hd fun f hf => hp ▸ List.mem_cons_of_mem e hf
  · unfold View.Drops at hd
    rw [hp] at hd
    exact (View.DropsIn.cons.mp hd).resolve_left (hno node hn)

theorem known_pop (hp : V.pending = e :: es) (hno : ∀ node ∈ V.table, ¬V.DropsIn [e] node.path)
    (hk : V.Known q) : View.Known { V with pending := es } q := by
  obtain ⟨node, hs, he⟩ := hk
  exact ⟨node, (stays_pop hp hno).mpr hs, he⟩

/-- An event is read that takes out no node. -/
theorem pop (h : Settled root V) (hp : V.pending = e :: es)
    (hno : ∀ node ∈ V.table, ¬V.DropsIn [e] node.path) :
    Settled root { V with pending := es } := by
  refine ⟨h.dir_inj, h.under, h.watch_inj, h.wd_lt, h.wds, h.paths,
    fun node hs => h.live node ((stays_pop hp hno).mp hs), fun node hs => ?_, h.noted,
    fun past f rest hpf ht => ?_⟩
  · exact (h.up node ((stays_pop hp hno).mp hs)).imp_right
      fun ⟨d, m, he, hk⟩ => ⟨d, m, he, known_pop hp hno hk⟩
  · have hpf' : V.pending = (e :: past) ++ f :: rest := by
      rw [hp, List.cons_append, List.cons.injEq]
      exact ⟨rfl, hpf⟩
    obtain ⟨d, m, hat, hright⟩ := h.told (e :: past) f rest hpf' ht
    refine ⟨d, m, hat, hright.short,
      fun hd => hright.kept (hd.mono fun _ => List.mem_cons_of_mem e),
      fun x hx => hright.once x (hx.mono fun _ => List.mem_cons_of_mem e), fun hadd => ?_⟩
    have hdue := hright.due hadd
    refine ⟨known_pop hp hno hdue.parent, hdue.dir, fun i w hi hw => ?_, hdue.below⟩
    obtain ⟨node, hn, hwd, hd⟩ := hdue.stale i w hi hw
    exact ⟨node, hn, hwd, (View.DropsIn.cons.mp hd).resolve_left (hno node hn)⟩

/-- **What the first event has added is new to the thread**, with all that lies in it. -/
theorem new_of_add (h : Settled root V) (hp : V.pending = e :: es) (hadd : e.adds = true)
    (hat : V.At e d n) (hw : Within (child d n) q) : View.New { V with pending := es } q := by
  obtain ⟨d', n', hat', hright⟩ := h.told [] e es hp ⟨by rw [hat.2]; rfl, Or.inl hadd⟩
  obtain ⟨rfl, rfl⟩ := hat.unique hat'
  have hdue := hright.due hadd
  -- the events that follow are not about what lies in it
  have hlater : ∀ f ∈ es, f.Tells → ∀ d' n', V.At f d' n' → ¬Within (child d n) (child d' n') := by
    intro f hf ht d' n' hat'
    obtain ⟨past, rest, hpf⟩ := List.append_of_mem hf
    obtain ⟨d₁, n₁, hat₁, hright₁⟩ := h.told (e :: past) f rest (by rw [hp, hpf]; rfl) ht
    obtain ⟨rfl, rfl⟩ := hat'.unique hat₁
    exact hright₁.once _ ⟨e, List.mem_cons_self, hadd, d, n, hat, rfl⟩
  have hunwatched : ∀ x i, Within (child d n) x → V.dir x = some i → V.watch i = none := by
    intro x i hx hi
    by_cases he : x = child d n
    · subst he
      refine Option.eq_none_iff_forall_ne_some.mpr fun w hwi => ?_
      obtain ⟨_, -, -, f, hf, -⟩ := hdue.stale i w hi hwi
      cases hf
    · exact hdue.below x i hx he hi
  have hkept : ¬V.DropsIn es q := by
    rintro ⟨f, hf, hdrop, d', n', hat', rfl⟩
    exact hlater f hf ⟨by rw [hat'.2]; rfl, Or.inr hdrop⟩ d' n' hat' hw
  refine ⟨fun i => hunwatched q i hw, fun _ _ => hkept, fun node hn he => ?_, ?_⟩
  · -- a node that stays would be one of a watched directory
    have hs : V.Stays node := by
      refine ⟨hn, fun hd => ?_⟩
      unfold View.Drops at hd
      rw [hp, he] at hd
      refine (View.DropsIn.cons.mp hd).elim ?_ hkept
      rintro ⟨f, hf, hdrop, -⟩
      rw [List.mem_singleton.mp hf, Event.not_drops_of_adds hadd] at hdrop
      cases hdrop
    obtain ⟨i, hi, hwi⟩ := h.live node hs
    rw [hunwatched _ i (he ▸ hw) hi] at hwi
    cases hwi
  · rintro ⟨f, hf, hadd', d', n', hat', rfl⟩
    exact hlater f hf ⟨by rw [hat'.2]; rfl, Or.inl hadd'⟩ d' n' hat' hw

theorem watch_without {fs : List Event} :
    (V.without node p fs).watch i = some w ↔ V.watch i = some w ∧ w ≠ node.wd := by
  show (if V.watch i = some node.wd then none else V.watch i) = some w ↔ _
  split
  · next hi =>
    rw [hi]
    refine iff_of_false (by simp) ?_
    rintro ⟨hw, hne⟩
    exact hne (Option.some.inj hw).symm
  · next hi =>
    refine (and_iff_left_of_imp ?_).symm
    rintro hw rfl
    exact hi hw

section Taken

variable {fs gs : List Event}

/-- An event that follows is one on a directory whose node is not taken out. -/
theorem later (h : Settled root V) (hp : V.pending = e :: es) (hdrop : e.drops = true)
    (hat : V.At e d n) (hf : es = past ++ f :: rest) (ht : f.Tells) :
    ∃ d' m, V.At f d' m ∧ V.Right (e :: past) f d' m ∧ d' ≠ child d n := by
  obtain ⟨d', m, hat', hr⟩ := h.told (e :: past) f rest (by rw [hp, hf]; rfl) ht
  refine ⟨d', m, hat', hr, ?_⟩
  rintro rfl
  exact hr.kept ⟨e, List.mem_cons_self, hdrop, d, n, hat, rfl⟩

/-- It is one on the same directory when the node is gone. -/
theorem at_without (h : Settled root V) (hp : V.pending = e :: es) (hdrop : e.drops = true)
    (hat : V.At e d n) (hf : f ∈ es) (ht : f.Tells) :
    (V.without node (child d n) fs).At f d' m ↔ V.At f d' m := by
  obtain ⟨past, rest, hpf⟩ := List.append_of_mem hf
  obtain ⟨d₁, n₁, hat₁, -, hne⟩ := h.later hp hdrop hat hpf ht
  have hwds : ((delMonitorDir V.table (child d n)).map WdNode.wd).Nodup :=
    h.wds.sublist ((delMonitorDir_sublist _ _).map _)
  refine and_congr_left fun _ => ?_
  show getWdPathByWd (delMonitorDir V.table (child d n)) f.wd = some d' ↔
    getWdPathByWd V.table f.wd = some d'
  rw [getWdPathByWd_eq_some h.wds, getWdPathByWd_eq_some hwds]
  constructor
  · rintro ⟨k, hk, hkw, hke⟩
    exact ⟨k, ((mem_delMonitorDir h.paths).mp hk).1, hkw, hke⟩
  · rintro ⟨k, hk, hkw, rfl⟩
    refine ⟨k, (mem_delMonitorDir h.paths).mpr ⟨hk, ?_⟩, hkw, rfl⟩
    have := (getWdPathByWd_eq_some h.wds).mpr ⟨k, hk, hkw, rfl⟩
    rwa [Option.some.inj (this.symm.trans hat₁.1)]

theorem dropsIn_without (h : Settled root V) (hp : V.pending = e :: es) (hdrop : e.drops = true)
    (hat : V.At e d n) (hgs : ∀ f ∈ gs, f ∈ es) :
    (V.without node (child d n) fs).DropsIn gs q ↔ V.DropsIn gs q := by
  refine exists_congr fun f => and_congr_right fun hf => and_congr_right fun hd =>
    exists_congr fun d' => exists_congr fun m => ?_
  constructor
  · rintro ⟨ha, hq⟩
    exact ⟨(h.at_without hp hdrop hat (hgs f hf) ⟨by rw [ha.2]; rfl, Or.inr hd⟩).mp ha, hq⟩
  · rintro ⟨ha, hq⟩
    exact ⟨(h.at_without hp hdrop hat (hgs f hf) ⟨by rw [ha.2]; rfl, Or.inr hd⟩).mpr ha, hq⟩

theorem awaitsIn_without (h : Settled root V) (hp : V.pending = e :: es) (hdrop : e.drops = true)
    (hat : V.At e d n) (hgs : ∀ f ∈ gs, f ∈ es)
    (ha : (V.without node (child d n) fs).AwaitsIn gs q) : V.AwaitsIn gs q := by
  obtain ⟨f, hf, hadd, d', m, hat', hq⟩ := ha
  have ht : f.Tells := ⟨by rw [hat'.2]; rfl, Or.inl hadd⟩
  exact ⟨f, hf, hadd, d', m, (h.at_without hp hdrop hat (hgs f hf) ht).mp hat', hq⟩

/-- The nodes that stay are those that stayed. -/
theorem stays_without (h : Settled root V) (hp : V.pending = e :: es) (hdrop : e.drops = true)
    (hat : V.At e d n) {k : WdNode} (hf : ¬f.Tells) :
    (V.without node (child d n) (es ++ [f])).Stays k ↔ V.Stays k := by
  have hiff : ∀ {q}, (V.without node (child d n) (es ++ [f])).DropsIn es q ↔ V.DropsIn es q :=
    h.dropsIn_without hp hdrop hat fun _ hg => hg
  constructor
  · rintro ⟨hk, hnd⟩
    obtain ⟨hk, hne⟩ := (mem_delMonitorDir h.paths).mp hk
    refine ⟨hk, fun hd => hnd (View.DropsIn.append.mpr (Or.inl (hiff.mpr ?_)))⟩
    unfold View.Drops at hd
    rw [hp] at hd
    exact (View.DropsIn.cons.mp hd).resolve_left fun hd => hne (hd.eq hat)
  · rintro ⟨hk, hnd⟩
    refine ⟨(mem_delMonitorDir h.paths).mpr ⟨hk, fun he => ?_⟩, fun hd => hnd ?_⟩
    · exact hnd ⟨e, hp ▸ List.mem_cons_self, hdrop, d, n, hat, he⟩
    · rcases View.DropsIn.append.mp hd with hd | ⟨g, hg, hgd, d', m, hat', -⟩
      · exact (hiff.mp hd).mono fun g hg => hp ▸ List.mem_cons_of_mem e hg
      · rw [List.mem_singleton.mp hg] at hat' hgd
        exact absurd ⟨by rw [hat'.2]; rfl, Or.inr hgd⟩ hf

theorem known_without (h : Settled root V) (hp : V.pending = e :: es) (hdrop : e.drops = true)
    (hat : V.At e d n) (hf : ¬f.Tells) (hk : V.Known q) :
    (V.without node (child d n) (es ++ [f])).Known q := by
  obtain ⟨k, hs, he⟩ := hk
  exact ⟨k, (h.stays_without hp hdrop hat hf).mpr hs, he⟩

/-- **A node is taken out**, and its watch. -/
theorem taken (h : Settled root V) (hp : V.pending = e :: es) (hdrop : e.drops = true)
    (hat : V.At e d n) (hn : node ∈ V.table) (hpath : node.path = child d n) (hf : ¬f.Tells) :
    Settled root (V.without node (child d n) (es ++ [f])) := by
  have hmem : ∀ {k}, k ∈ delMonitorDir V.table (child d n) ↔ k ∈ V.table ∧ k.path ≠ child d n :=
    mem_delMonitorDir h.paths
  have hknown : ∀ {q}, V.Known q → (V.without node (child d n) (es ++ [f])).Known q :=
    h.known_without hp hdrop hat hf
  -- the node is the only one of its watch, and of its path
  have hother : ∀ {k}, k ∈ V.table → k.wd ≠ node.wd → k.path ≠ child d n := fun hk hne he =>
    hne (by rw [node_eq_of_path h.paths hk hn (he.trans hpath.symm)])
  refine ⟨h.dir_inj, h.under,
    fun i j w hi hj => h.watch_inj i j w (watch_without.mp hi).1 (watch_without.mp hj).1,
    fun k hk => h.wd_lt k (hmem.mp hk).1, h.wds.sublist ((delMonitorDir_sublist _ _).map _),
    h.paths.sublist ((delMonitorDir_sublist _ _).map _), fun k hs => ?_, fun k hs => ?_,
    fun i w hw => ?_, fun past g rest hpg ht => ?_⟩
  · have hs' := (h.stays_without hp hdrop hat hf).mp hs
    obtain ⟨i, hi, hw⟩ := h.live k hs'
    refine ⟨i, hi, watch_without.mpr ⟨hw, fun he => ?_⟩⟩
    obtain rfl := node_eq_of_wd h.wds hs'.1 hn he
    exact (hmem.mp hs.1).2 hpath
  · exact (h.up k ((h.stays_without hp hdrop hat hf).mp hs)).imp_right
      fun ⟨d, m, he, hk⟩ => ⟨d, m, he, hknown hk⟩
  · obtain ⟨hw, hne⟩ := watch_without.mp hw
    obtain ⟨k, hk, rfl⟩ := h.noted i w hw
    exact ⟨k, hmem.mpr ⟨hk, hother hk hne⟩, rfl⟩
  · rcases split_append hpg with ⟨r, hpg⟩ | ⟨a, rfl, ha⟩
    · obtain ⟨d', m, hat', hr, -⟩ := h.later hp hdrop hat hpg ht
      have hpast : ∀ k ∈ past, k ∈ es := fun k hk => hpg ▸ List.mem_append_left _ hk
      refine ⟨d', m, (h.at_without hp hdrop hat
        (hpg ▸ List.mem_append_right _ List.mem_cons_self) ht).mpr hat', hr.short,
        fun hd => hr.kept ?_, fun x hx => hr.once x ?_, fun hadd => ?_⟩
      · exact ((h.dropsIn_without hp hdrop hat hpast).mp hd).mono
          fun _ => List.mem_cons_of_mem e
      · exact (h.awaitsIn_without hp hdrop hat hpast hx).mono fun _ => List.mem_cons_of_mem e
      · have hdue := hr.due hadd
        refine ⟨hknown hdue.parent, hdue.dir, fun i w hi hw => ?_, fun x i hx hxe hi => ?_⟩
        · -- a stale node is another one
          obtain ⟨hw, hne⟩ := watch_without.mp hw
          obtain ⟨k, hk, rfl, hd⟩ := hdue.stale i w hi hw
          refine ⟨k, hmem.mpr ⟨hk, hother hk hne⟩, rfl,
            (h.dropsIn_without hp hdrop hat hpast).mpr ?_⟩
          exact (View.DropsIn.cons.mp hd).resolve_left fun hd => hother hk hne (hd.eq hat)
        · show (if V.watch i = some node.wd then none else V.watch i) = none
          rw [hdue.below x i hx hxe hi]
          simp
    · -- the new event tells nothing
      cases a with
      | nil =>
        rw [List.nil_append, List.cons.injEq] at ha
        exact absurd (ha.1 ▸ ht) hf
      | cons k a =>
        have := congrArg List.length ha
        simp at this

end Taken

/-! ### A new watch -/

theorem wds_plus (h : Settled root V) {off : ℕ} :
    ((V.plus i p off).table.map WdNode.wd).Nodup := by
  rw [List.map_append, List.map_singleton, List.nodup_append]
  refine ⟨h.wds, List.nodup_singleton _, fun x hx y hy he => ?_⟩
  obtain ⟨m, hm, rfl⟩ := List.mem_map.mp hx
  rw [List.mem_singleton.mp hy] at he
  exact absurd (h.wd_lt m hm) (by rw [he]; exact lt_irrefl _)

/-- The pending events are not about a new node. -/
theorem at_plus (h : Settled root V) {off : ℕ} (he : e ∈ V.pending) (ht : e.Tells) :
    (V.plus i p off).At e d n ↔ V.At e d n := by
  obtain ⟨past, rest, hpe⟩ := List.append_of_mem he
  obtain ⟨d₁, n₁, hat, -⟩ := h.told past e rest hpe ht
  have hat₁ : getWdPathByWd (V.plus i p off).table e.wd = some d₁ := by
    obtain ⟨m, hm, hmw, hme⟩ := h.exists_node hat
    exact (getWdPathByWd_eq_some h.wds_plus).mpr ⟨m, List.mem_append_left _ hm, hmw, hme⟩
  refine and_congr_left fun _ => ?_
  rw [hat₁, hat.1]

theorem dropsIn_plus (h : Settled root V) {off : ℕ} (hs : ∀ e ∈ es, e ∈ V.pending) :
    (V.plus i p off).DropsIn es q ↔ V.DropsIn es q := by
  refine exists_congr fun e => and_congr_right fun he => and_congr_right fun hd =>
    exists_congr fun d => exists_congr fun n => ?_
  constructor
  · rintro ⟨hat, hq⟩
    have ht : e.Tells := ⟨by rw [hat.2]; rfl, Or.inr hd⟩
    exact ⟨(h.at_plus (hs e he) ht).mp hat, hq⟩
  · rintro ⟨hat, hq⟩
    have ht : e.Tells := ⟨by rw [hat.2]; rfl, Or.inr hd⟩
    exact ⟨(h.at_plus (hs e he) ht).mpr hat, hq⟩

theorem awaitsIn_plus (h : Settled root V) {off : ℕ} (hs : ∀ e ∈ es, e ∈ V.pending)
    (ha : (V.plus i p off).AwaitsIn es q) : V.AwaitsIn es q := by
  obtain ⟨e, he, hadd, d, n, hat, hq⟩ := ha
  have ht : e.Tells := ⟨by rw [hat.2]; rfl, Or.inl hadd⟩
  exact ⟨e, he, hadd, d, n, (h.at_plus (hs e he) ht).mp hat, hq⟩

theorem known_plus (h : Settled root V) {off : ℕ} (hk : V.Known q) : (V.plus i p off).Known q := by
  obtain ⟨m, hs, rfl⟩ := hk
  exact ⟨m, ⟨List.mem_append_left _ hs.1, fun hd => hs.2 ((h.dropsIn_plus fun _ he => he).mp hd)⟩,
    rfl⟩

theorem known_self (h : Settled root V) {off : ℕ} (hi : V.dir p = some i) (hnew : V.New p) :
    (V.plus i p off).Known p :=
  ⟨⟨V.nextWd, p, off⟩, ⟨List.mem_append_right _ (List.mem_singleton_self _),
    fun hd => hnew.kept i hi ((h.dropsIn_plus fun _ he => he).mp hd)⟩, rfl⟩

/-- **A new directory is watched**, and has a node. -/
theorem registered (h : Settled root V) {off : ℕ} (hi : V.dir p = some i) (hnew : V.New p)
    (hup : p = root ∨ ∃ d n, p = child d n ∧ V.Known d)
    (hawait : ∀ q, V.Awaits q → ¬Within q p) : Settled root (V.plus i p off) := by
  have hwatch : ∀ {j w}, (V.plus i p off).watch j = some w →
      j = i ∧ w = V.nextWd ∨ j ≠ i ∧ V.watch j = some w := by
    intro j w hw
    change Function.update V.watch i (some V.nextWd) j = some w at hw
    by_cases hj : j = i
    · subst hj
      rw [Function.update_self] at hw
      exact Or.inl ⟨rfl, (Option.some.inj hw).symm⟩
    · rw [Function.update_of_ne hj] at hw
      exact Or.inr ⟨hj, hw⟩
  have hold : ∀ {j w}, V.watch j = some w → (V.plus i p off).watch j = some w := by
    intro j w hw
    have hj : j ≠ i := by
      rintro rfl
      rw [hnew.unwatched j hi] at hw
      cases hw
    exact (Function.update_of_ne hj ..).trans hw
  have hlt : ∀ {j w}, V.watch j = some w → w < V.nextWd := by
    intro j w hw
    obtain ⟨node, hn, rfl⟩ := h.noted j w hw
    exact h.wd_lt node hn
  have hcases : ∀ {m}, m ∈ (V.plus i p off).table → m ∈ V.table ∨ m = ⟨V.nextWd, p, off⟩ :=
    fun hm => (List.mem_append.mp hm).imp_right List.mem_singleton.mp
  have hstays : ∀ {m}, m ∈ V.table → (V.plus i p off).Stays m → V.Stays m :=
    fun hm hs => ⟨hm, fun hd => hs.2 ((h.dropsIn_plus fun _ he => he).mpr hd)⟩
  refine ⟨h.dir_inj, h.under, fun j k w hj hk => ?_, fun m hm => ?_, h.wds_plus, ?_, fun m hs => ?_,
    fun m hs => ?_, fun j w hw => ?_, fun past g rest hpg ht => ?_⟩
  · -- the new watch is larger than the others
    rcases hwatch hj with ⟨hji, hwj⟩ | ⟨-, hj⟩ <;> rcases hwatch hk with ⟨hki, hwk⟩ | ⟨-, hk⟩
    · exact hji.trans hki.symm
    · exact absurd (hlt hk) (by rw [hwj]; exact lt_irrefl _)
    · exact absurd (hlt hj) (by rw [hwk]; exact lt_irrefl _)
    · exact h.watch_inj j k w hj hk
  · rcases hcases hm with hm | rfl
    · exact Nat.lt_succ_of_lt (h.wd_lt m hm)
    · exact Nat.lt_succ_self _
  · rw [List.map_append, List.map_singleton, List.nodup_append]
    refine ⟨h.paths, List.nodup_singleton _, fun x hx y hy he => ?_⟩
    obtain ⟨m, hm, rfl⟩ := List.mem_map.mp hx
    rw [List.mem_singleton.mp hy] at he
    exact hnew.unlisted m hm he
  · rcases hcases hs.1 with hm | rfl
    · obtain ⟨j, hj, hw⟩ := h.live m (hstays hm hs)
      exact ⟨j, hj, hold hw⟩
    · exact ⟨i, hi, Function.update_self ..⟩
  · rcases hcases hs.1 with hm | rfl
    · exact (h.up m (hstays hm hs)).imp_right fun ⟨d, k, he, hk⟩ => ⟨d, k, he, h.known_plus hk⟩
    · exact hup.imp_right fun ⟨d, k, he, hk⟩ => ⟨d, k, he, h.known_plus hk⟩
  · rcases hwatch hw with ⟨-, rfl⟩ | ⟨-, hw⟩
    · exact ⟨_, List.mem_append_right _ (List.mem_singleton_self _), rfl⟩
    · obtain ⟨m, hm, he⟩ := h.noted j w hw
      exact ⟨m, List.mem_append_left _ hm, he⟩
  · obtain ⟨d, n, hat, hr⟩ := h.told past g rest hpg ht
    have hmem : ∀ k ∈ past, k ∈ V.pending := fun k hk => hpg ▸ List.mem_append_left _ hk
    have hg : g ∈ V.pending := hpg ▸ List.mem_append_right _ List.mem_cons_self
    refine ⟨d, n, (h.at_plus hg ht).mpr hat, hr.short,
      fun hd => hr.kept ((h.dropsIn_plus hmem).mp hd),
      fun x hx => hr.once x (h.awaitsIn_plus hmem hx), fun hadd => ?_⟩
    have hdue := hr.due hadd
    have haw : V.Awaits (child d n) := ⟨g, hg, hadd, d, n, hat, rfl⟩
    refine ⟨h.known_plus hdue.parent, hdue.dir, fun j w hj hw => ?_, fun x j hx hxe hj => ?_⟩
    · -- an event that adds the directory itself would be one too many
      rcases hwatch hw with ⟨rfl, -⟩ | ⟨-, hw⟩
      · rw [h.dir_inj _ _ _ hj hi] at haw
        exact absurd haw hnew.unawaited
      · obtain ⟨m, hm, hmw, hd⟩ := hdue.stale j w hj hw
        exact ⟨m, List.mem_append_left _ hm, hmw, (h.dropsIn_plus hmem).mpr hd⟩
    · refine Option.eq_none_iff_forall_ne_some.mpr fun w hw => ?_
      rcases hwatch hw with ⟨rfl, -⟩ | ⟨-, hw⟩
      · exact hawait _ haw (h.dir_inj _ _ _ hj hi ▸ hx)
      · rw [hdue.below x j hx hxe hj] at hw
        cases hw

/-- **Once all events are read the table is exact.** -/
theorem exact (h : Settled root V) (hp : V.pending = []) (hi : V.dir p = some i)
    (hw : V.watch i = some w) : getWdPathByWd V.table w = some p := by
  obtain ⟨node, hn, rfl⟩ := h.noted i w hw
  -- nothing pending takes the node out
  have hs : V.Stays node := by
    refine ⟨hn, ?_⟩
    rintro ⟨e, he, -⟩
    rw [hp] at he
    cases he
  obtain ⟨j, hj, hwj⟩ := h.live node hs
  obtain rfl := h.watch_inj i j _ hw hwj
  exact (getWdPathByWd_eq_some h.wds).mpr ⟨node, hn, rfl, h.dir_inj _ _ _ hj hi⟩

/-- A table without nodes is settled, where nothing is watched. -/
theorem start (hinj : ∀ p q i, V.dir p = some i → V.dir q = some i → p = q)
    (hunder : ∀ p i, V.dir p = some i → Within root p)
    (hwatch : ∀ i, V.watch i = none) (ht : V.table = []) (hp : V.pending = []) :
    Settled root V := by
  have hstays : ∀ node, ¬V.Stays node := fun node hs => by
    have := hs.1
    rw [ht] at this
    cases this
  refine ⟨hinj, hunder, fun i _ w hi => ?_, fun node hn => ?_, ?_, ?_,
    fun node hs => absurd hs (hstays _), fun node hs => absurd hs (hstays _), fun i w hi => ?_,
    fun past e rest he => ?_⟩
  · rw [hwatch i] at hi
    cases hi
  · rw [ht] at hn
    cases hn
  · rw [ht]
    exact .nil
  · rw [ht]
    exact .nil
  · rw [hwatch i] at hi
    cases hi
  · rw [hp] at he
    exact absurd (congrArg List.length he) (by simp)

end Settled
end Newiup
