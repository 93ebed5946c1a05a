import Newiup.Watch.Steps

/-!
# Walks of open directory streams

`add_monitor_dir` and `add_upload_file` walk a tree: each has a stack of open directory
streams, each stream of a directory inside an entry that the one before has returned.
Which paths a walk still comes to depends on the names its streams have to come, and not
on the tree.

## Main definitions

* `WalkPos`, `Ahead` — where a walk stands, and what it still comes to.
* `Must`, `May` — the names a stream has to return, and those it may.
* `Walk`, `Reached` — the streams of a walk, and the paths it has come to.
* `MonitorPc.DirsAhead`, `MonitorPc.FilesAhead` — what the scans still come to.

## Main results

* `ahead_open`, `ahead_next`, `ahead_end` — what a walk still comes to after a call.
* `Reached.not_ahead` — **a walk does not come to a path twice.**
-/

namespace Newiup

/-! ### Walks -/

/-- Where a walk stands: at a path, with everything in it to come; in a directory that is
opened next; or at a `readdir`. -/
inductive WalkPos
  | here (p : Path)
  | inside (p : Path)
  | reading

/-- The walk comes to `q` from its position. -/
def WalkPos.Ahead : WalkPos → Path → Prop
  | .here p, q => Visible p q
  | .inside p, q => ∃ n, hidden n = false ∧ Visible (child p n) q
  | .reading, _ => False

/-- The walk still comes to `q`; `C st n` says that the stream `st` has the name `n` to
come. -/
def Ahead (C : Stream → Name → Prop) (frames : List (Path × Stream)) (pos : WalkPos) (q : Path) :
    Prop :=
  pos.Ahead q ∨ ∃ f ∈ frames, ∃ n, C f.2 n ∧ hidden n = false ∧ Visible (child f.1 n) q

/-- The stream returns the name, as long as nothing is removed.  What `readdir` returns of an
entry made or removed after `opendir` is not specified.  So there are two notions, for what it
is certain to return and for what it may. -/
def Must (st : Stream) (n : Name) : Prop := n ∈ st.opened ∧ n ∉ st.seen

/-- The stream may still return the name. -/
def May (st : Stream) (n : Name) : Prop := n ∉ st.seen

section Ahead

variable {C C' : Stream → Name → Prop} {frames : List (Path × Stream)} {f : Path × Stream}
  {pos pos' : WalkPos} {p q : Path} {n m : Name} {st : Stream}

theorem Ahead.mono (h : Ahead C frames pos q) (hpos : pos.Ahead q → pos'.Ahead q)
    (hC : ∀ f ∈ frames, ∀ n, Visible (child f.1 n) q → C f.2 n → C' f.2 n) :
    Ahead C' frames pos' q := by
  rcases h with h | ⟨f, hf, n, hc, hn, hv⟩
  · exact Or.inl (hpos h)
  · exact Or.inr ⟨f, hf, n, hC f hf n hv hc, hn, hv⟩

/-- A directory is opened. -/
theorem ahead_open (hC : ∀ n, Visible (child p n) q → C st n) (h : Ahead C frames (.inside p) q) :
    Ahead C ((p, st) :: frames) .reading q := by
  rcases h with ⟨n, hn, hv⟩ | ⟨f, hf, n, hc, hn, hv⟩
  · exact Or.inr ⟨(p, st), List.mem_cons_self, n, hC n hv, hn, hv⟩
  · exact Or.inr ⟨f, List.mem_cons_of_mem _ hf, n, hc, hn, hv⟩

theorem of_ahead_open (h : Ahead C ((p, st) :: frames) .reading q) :
    Ahead C frames (.inside p) q := by
  rcases h with h | ⟨f, hf, n, hc, hn, hv⟩
  · exact h.elim
  · rcases List.mem_cons.mp hf with rfl | hf
    · exact Or.inl ⟨n, hn, hv⟩
    · exact Or.inr ⟨f, hf, n, hc, hn, hv⟩

/-- Where a walk stands after a stream has returned the name of `p`. -/
def WalkPos.after (n : Name) (p : Path) : WalkPos := if hidden n then .reading else .here p

theorem WalkPos.after_imp {r : Path} (h : Visible p q → Visible r q)
    (ha : (WalkPos.after n p).Ahead q) : (WalkPos.after n r).Ahead q := by
  unfold WalkPos.after at *
  split
  · next hn =>
    rw [if_pos hn] at ha
    exact ha
  · next hn =>
    rw [if_neg hn] at ha
    exact h ha

/-- A stream returns a name. -/
theorem ahead_next (hC : ∀ m, C st m → m = n ∨ C (st.next n) m)
    (h : Ahead C ((p, st) :: frames) .reading q) :
    Ahead C ((p, st.next n) :: frames) (.after n (child p n)) q := by
  rcases h with h | ⟨f, hf, m, hc, hm, hv⟩
  · exact h.elim
  · rcases List.mem_cons.mp hf with rfl | hf
    · rcases hC m hc with rfl | hc
      · refine Or.inl ?_
        rw [WalkPos.after, hm]
        exact hv
      · exact Or.inr ⟨(p, st.next n), List.mem_cons_self, m, hc, hm, hv⟩
    · exact Or.inr ⟨f, List.mem_cons_of_mem _ hf, m, hc, hm, hv⟩

theorem of_ahead_next (hC : ∀ m, C (st.next n) m → C st m) (hn : C st n)
    (h : Ahead C ((p, st.next n) :: frames) (.after n (child p n)) q) :
    Ahead C ((p, st) :: frames) .reading q := by
  rcases h with h | ⟨f, hf, m, hc, hm, hv⟩
  · cases hh : hidden n with
    | true =>
      rw [WalkPos.after, hh] at h
      exact h.elim
    | false =>
      rw [WalkPos.after, hh] at h
      exact Or.inr ⟨(p, st), List.mem_cons_self, n, hn, hh, h⟩
  · rcases List.mem_cons.mp hf with rfl | hf
    · exact Or.inr ⟨(p, st), List.mem_cons_self, m, hC m hc, hm, hv⟩
    · exact Or.inr ⟨f, List.mem_cons_of_mem _ hf, m, hc, hm, hv⟩

/-- A stream has ended. -/
theorem ahead_end (hC : ∀ n, Visible (child p n) q → ¬C st n)
    (h : Ahead C ((p, st) :: frames) .reading q) : Ahead C frames .reading q := by
  rcases h with h | ⟨f, hf, n, hc, hn, hv⟩
  · exact h.elim
  · rcases List.mem_cons.mp hf with rfl | hf
    · exact absurd hc (hC n hv)
    · exact Or.inr ⟨f, hf, n, hc, hn, hv⟩

theorem of_ahead_end (h : Ahead C frames .reading q) : Ahead C ((p, st) :: frames) .reading q := by
  rcases h with h | ⟨f, hf, n, hc, hn, hv⟩
  · exact h.elim
  · exact Or.inr ⟨f, List.mem_cons_of_mem _ hf, n, hc, hn, hv⟩

theorem Visible.of_under (h : Visible p (child q n)) (hne : child q n ≠ p) :
    Visible p q ∧ hidden n = false := by
  generalize hr : child q n = r at h
  cases h with
  | here => exact absurd hr hne
  | under h hn =>
    obtain ⟨rfl, rfl⟩ := child_inj hr
    exact ⟨h, hn⟩

/-- A walk whose streams have all ended is over. -/
theorem not_ahead_nil : ¬Ahead C [] .reading q := by
  rintro (h | ⟨f, hf, -⟩)
  · exact h
  · cases hf

/-- A walk that comes to a directory comes to its entries. -/
theorem Ahead.under (h : Ahead C frames pos p) (hn : hidden n = false) :
    Ahead C frames pos (child p n) := by
  rcases h with h | ⟨f, hf, m, hc, hm, hv⟩
  · refine Or.inl ?_
    cases pos with
    | here r => exact Visible.under h hn
    | inside r => exact h.imp fun m hm => ⟨hm.1, hm.2.under hn⟩
    | reading => exact h.elim
  · exact Or.inr ⟨f, hf, m, hc, hm, hv.under hn⟩

theorem may_next {st : Stream} {m : Name} (h : May (st.next n) m) : May st m := fun hm =>
  h (List.mem_cons_of_mem n hm)

theorem must_next {st : Stream} {m : Name} (h : Must st m) : m = n ∨ Must (st.next n) m := by
  by_cases he : m = n
  · exact Or.inl he
  · refine Or.inr ⟨h.1, fun hm => ?_⟩
    rcases List.mem_cons.mp hm with hm | hm
    · exact he hm
    · exact h.2 hm

end Ahead

/-! ### The streams of a walk -/

/-- The streams of a walk from `top`, each inside an entry that those before have returned:
`D` has the numbers of the directories, and `N` holds of the paths of the names. -/
structure Walk (D : Path → Option ℕ) (N : Path → Prop) (top : Path)
    (frames : List (Path × Stream)) : Prop where
  /-- A stream is one of the directory. -/
  dir : ∀ f ∈ frames, D f.1 = some f.2.id
  /-- The walk comes to the directory from `top`. -/
  visible : ∀ f ∈ frames, Visible top f.1
  /-- What is known of the names. -/
  opened : ∀ f ∈ frames, ∀ n ∈ f.2.opened, N (child f.1 n)
  /-- The streams are nested. -/
  nested : frames.Pairwise fun f g => ∃ n ∈ g.2.seen, Within (child g.1 n) f.1

/-- The walk has just come to the path.  Every name on the way there has been returned already,
and a stream returns no name twice; so the walk does not come to this path again. -/
structure Reached (top : Path) (frames : List (Path × Stream)) (p : Path) : Prop where
  /-- It starts at `top`. -/
  start : frames = [] → p = top
  /-- The last stream has returned the name. -/
  parent : ∀ f ∈ frames.head?, ∃ n ∈ f.2.seen, p = child f.1 n
  /-- It comes there from `top`. -/
  visible : Visible top p
  /-- Every stream has returned an entry on the way. -/
  passed : ∀ g ∈ frames, ∃ n ∈ g.2.seen, Within (child g.1 n) p

section Streams

variable {D D' : Path → Option ℕ} {N N' : Path → Prop} {top p q : Path}
  {frames fs : List (Path × Stream)} {f : Path × Stream} {n : Name} {st : Stream}

namespace Walk

theorem nil (D : Path → Option ℕ) (N : Path → Prop) (top : Path) : Walk D N top [] where
  dir _ h := by cases h
  visible _ h := by cases h
  opened _ h := by cases h
  nested := .nil

theorem mono (h : Walk D N top frames) (hD : ∀ f ∈ frames, ∀ i, D f.1 = some i → D' f.1 = some i)
    (hN : ∀ q, N q → N' q) : Walk D' N' top frames where
  dir f hf := hD f hf _ (h.dir f hf)
  visible := h.visible
  opened f hf n hn := hN _ (h.opened f hf n hn)
  nested := h.nested

theorem tail (h : Walk D N top (f :: fs)) : Walk D N top fs where
  dir g hg := h.dir g (List.mem_cons_of_mem f hg)
  visible g hg := h.visible g (List.mem_cons_of_mem f hg)
  opened g hg := h.opened g (List.mem_cons_of_mem f hg)
  nested := (List.pairwise_cons.mp h.nested).2

/-- A directory the walk has reached is opened. -/
theorem opening (h : Walk D N top frames) (hr : Reached top frames p) (hi : D p = some st.id)
    (hN : ∀ n ∈ st.opened, N (child p n)) : Walk D N top ((p, st) :: frames) where
  dir g hg := by
    rcases List.mem_cons.mp hg with rfl | hg
    · exact hi
    · exact h.dir g hg
  visible g hg := by
    rcases List.mem_cons.mp hg with rfl | hg
    · exact hr.visible
    · exact h.visible g hg
  opened g hg n hn := by
    rcases List.mem_cons.mp hg with rfl | hg
    · exact hN n hn
    · exact h.opened g hg n hn
  nested := List.pairwise_cons.mpr ⟨hr.passed, h.nested⟩

/-- A stream returns a name. -/
theorem next (h : Walk D N top (f :: fs)) (n : Name) : Walk D N top ((f.1, f.2.next n) :: fs) where
  dir g hg := by
    rcases List.mem_cons.mp hg with rfl | hg
    · exact h.dir f List.mem_cons_self
    · exact h.tail.dir g hg
  visible g hg := by
    rcases List.mem_cons.mp hg with rfl | hg
    · exact h.visible f List.mem_cons_self
    · exact h.tail.visible g hg
  opened g hg m hm := by
    rcases List.mem_cons.mp hg with rfl | hg
    · exact h.opened f List.mem_cons_self m hm
    · exact h.tail.opened g hg m hm
  nested := List.pairwise_cons.mpr (List.pairwise_cons.mp h.nested)

/-- The walk has reached the entry whose name was returned. -/
theorem reached (h : Walk D N top (f :: fs)) (hn : hidden n = false) :
    Reached top ((f.1, f.2.next n) :: fs) (child f.1 n) where
  start h := by cases h
  parent g hg := by
    cases hg
    exact ⟨n, List.mem_cons_self, rfl⟩
  visible := (h.visible f List.mem_cons_self).under hn
  passed g hg := by
    rcases List.mem_cons.mp hg with rfl | hg
    · exact ⟨n, List.mem_cons_self, .refl _⟩
    · obtain ⟨m, hm, hw⟩ := (List.pairwise_cons.mp h.nested).1 g hg
      exact ⟨m, hm, hw.under n⟩

end Walk

theorem Reached.refl (top : Path) : Reached top [] top where
  start _ := rfl
  parent f hf := by cases hf
  visible := .here
  passed g hg := by cases hg

/-- **A walk does not come again to what it has reached.** -/
theorem Reached.not_ahead {C : Stream → Name → Prop} (h : Reached top frames p)
    (hC : ∀ f ∈ frames, ∀ n, C f.2 n → n ∉ f.2.seen) (hw : Within p q) :
    ¬Ahead C frames .reading q := by
  rintro (ha | ⟨f, hf, n, hc, -, hv⟩)
  · exact ha
  · -- each stream has returned the only name that leads there
    obtain ⟨m, hm, hwm⟩ := h.passed f hf
    exact hC f hf n hc (eq_of_within_child hv.within (hwm.trans hw) ▸ hm)

/-- The walk stands where its streams have led it; `K` holds of the directories it has
opened. -/
def WalkPos.Fits (K : Path → Prop) (top : Path) (frames : List (Path × Stream)) : WalkPos → Prop
  | .here p => Reached top frames p
  | .inside p => K p
  | .reading => True

theorem Reached.cases (h : Reached top frames p) :
    p = top ∨ ∃ f ∈ frames, ∃ n, p = child f.1 n := by
  cases frames with
  | nil => exact Or.inl (h.start rfl)
  | cons f fs =>
    obtain ⟨n, -, he⟩ := h.parent f rfl
    exact Or.inr ⟨f, List.mem_cons_self, n, he⟩

section Fits

variable {C : Stream → Name → Prop} {K : Path → Prop} {pos : WalkPos}

/-- A walk that comes to a path comes to what is visible from there. -/
theorem Ahead.trans (h : Ahead C frames pos p) (hv : Visible p q) : Ahead C frames pos q := by
  rcases h with h | ⟨f, hf, n, hc, hn, hp⟩
  · refine Or.inl ?_
    cases pos with
    | here r => exact Visible.trans h hv
    | inside r =>
      obtain ⟨n, hn, hp⟩ := h
      exact ⟨n, hn, hp.trans hv⟩
    | reading => exact h.elim
  · exact Or.inr ⟨f, hf, n, hc, hn, hp.trans hv⟩

/-- A walk that comes to a path is one that the path is visible in. -/
theorem Ahead.visible (hw : ∀ f ∈ frames, Visible top f.1)
    (hpos : pos.Fits (Visible top) top frames) (h : Ahead C frames pos q) : Visible top q := by
  rcases h with h | ⟨f, hf, n, -, hn, hp⟩
  · cases pos with
    | here r => exact hpos.visible.trans h
    | inside r =>
      obtain ⟨n, hn, hp⟩ := h
      exact (Visible.under hpos hn).trans hp
    | reading => exact h.elim
  · exact ((hw f hf).under hn).trans hp

/-- A walk that comes to an entry comes to its directory, or has opened it. -/
theorem Ahead.parent (hK : ∀ f ∈ frames, K f.1) (hpos : pos.Fits K top frames)
    (h : Ahead C frames pos (child p n)) : Ahead C frames pos p ∨ K p ∨ child p n = top := by
  rcases h with h | ⟨f, hf, m, hc, hm, hv⟩
  · cases pos with
    | here r =>
      rcases Visible.of_child h with rfl | hv
      · rcases hpos.cases with he | ⟨f, hf, m, he⟩
        · exact Or.inr (Or.inr he)
        · exact Or.inr (Or.inl ((child_inj he).1 ▸ hK f hf))
      · exact Or.inl (Or.inl hv)
    | inside r =>
      obtain ⟨m, hm, hv⟩ := h
      rcases hv.of_child with he | hv
      · exact Or.inr (Or.inl ((child_inj he).1 ▸ hpos))
      · exact Or.inl (Or.inl ⟨m, hm, hv⟩)
    | reading => exact h.elim
  · rcases hv.of_child with he | hv
    · exact Or.inr (Or.inl ((child_inj he).1 ▸ hK f hf))
    · exact Or.inl (Or.inr ⟨f, hf, m, hc, hm, hv⟩)

/-- A walk that comes to something in `d`, and is not in there, comes to `d`. -/
theorem Ahead.above {d : Path} (hK : ∀ f ∈ frames, K f.1) (hpos : pos.Fits K top frames)
    (htop : ¬Within d top) (hd : ∀ p, K p → ¬Within d p) (h : Ahead C frames pos q)
    (hw : Within d q) : Ahead C frames pos d := by
  -- an entry of an open directory that leads there leads to d, which lies below it
  have hchild : ∀ {p n}, K p → Visible (child p n) q → Visible (child p n) d := by
    intro p n hp hv
    rcases within_total hv.within hw with hpd | hdp
    · exact (hv.between hpd hw).1
    · rcases within_child_iff.mp hdp with rfl | hdp
      · exact .here
      · exact absurd hdp (hd p hp)
  rcases h with h | ⟨f, hf, m, hc, hm, hv⟩
  · refine Or.inl ?_
    cases pos with
    | here r =>
      rcases hpos.cases with rfl | ⟨f, hf, m, rfl⟩
      · rcases within_total (Visible.within h) hw with hpd | hdp
        · exact (Visible.between h hpd hw).1
        · exact absurd hdp htop
      · exact hchild (hK f hf) h
    | inside r =>
      obtain ⟨m, hm, hv⟩ := h
      exact ⟨m, hm, hchild hpos hv⟩
    | reading => exact h.elim
  · exact Or.inr ⟨f, hf, m, hc, hm, hchild (hK f hf) hv⟩

end Fits

end Streams

/-! ### The scans -/

/-- The stream of a call of `add_monitor_dir`. -/
def DirsFrame.opened (f : DirsFrame) : Path × Stream := (f.node.path, f.stream)

/-- The stream of a call of `add_upload_file`. -/
def FilesFrame.opened (f : FilesFrame) : Path × Stream := (f.path, f.stream)

/-- Where the walk of `add_monitor_dir` stands. -/
def DirsPos.walk : DirsPos → WalkPos
  | .watch p _ => .here p
  | .opendir node => .inside node.path
  | .readdir => .reading
  | .isDir p => .here p

/-- Where the walk of `add_upload_file` stands. -/
def FilesPos.walk : FilesPos → WalkPos
  | .opendir p => .inside p
  | .readdir => .reading
  | .isFile p => .here p
  | .isDir p => .here p

/-- `add_monitor_dir` skips hidden names, -/
theorem DirsPos.walk_after (n : Name) (p : Path) :
    (if hidden n then DirsPos.readdir else .isDir p).walk = .after n p := by
  unfold WalkPos.after
  split <;> rfl

/-- and `add_upload_file` does. -/
theorem FilesPos.walk_after (n : Name) (p : Path) :
    (if hidden n then FilesPos.readdir else .isFile p).walk = .after n p := by
  unfold WalkPos.after
  split <;> rfl

/-- `add_monitor_dir` still comes to the path. -/
def MonitorPc.DirsAhead (C : Stream → Name → Prop) : MonitorPc → Path → Prop
  | .dirs _ frames pos, q => Ahead C (frames.map DirsFrame.opened) pos.walk q
  | _, _ => False

/-- `add_upload_file` still comes to the path; it is called after `add_monitor_dir`. -/
def MonitorPc.FilesAhead (C : Stream → Name → Prop) : MonitorPc → Path → Prop
  | .dirs top _ _, q => Visible top q
  | .files _ frames pos, q => Ahead C (frames.map FilesFrame.opened) pos.walk q
  | _, _ => False

end Newiup
