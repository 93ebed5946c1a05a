import Newiup.Daemon.Client

/-!
# The daemon does not look at addresses

Two states mirror each other when they differ in addresses only, and in what belongs to no
address that they share.  A thread that stands at the same place in both does the same
there.

Addresses are compared and followed, and nothing is computed with them.  So what can be
seen of a run does not depend on them: no file, no counter and no library call.  This is
needed where two systems allocate in a different order, as the daemon does, whose monitor
threads allocate a node before they call the queue, and its model, in which both are one
step.

## Main definitions

* `NodeRel`, `SchePc.Rel`, `UploadPc.Rel` — the same, up to addresses.
* `Mirrors` — the states mirror each other.

## Main results

* `Mirrors.sche`, `Mirrors.upload` — **a move in one state is one in the other.**
-/

namespace Newiup

/-- Nodes that are the same up to addresses.  The pointer to the original is the one field that
holds an address. -/
structure NodeRel (β : Addr → Addr → Prop) (n n' : FileQueue) : Prop where
  monitorId : n'.monitorId = n.monitorId
  copy : n'.copy = n.copy
  reCountS : n'.reCountS = n.reCountS
  retainCount : β n.retainCount n'.retainCount
  monitorfile : n'.monitorfile = n.monitorfile
  src : n'.src = n.src
  sgName : n'.sgName = n.sgName
  scheQueue : n'.scheQueue = n.scheQueue

/-- Schedulers at the same place.  The addresses in its local variables belong to each other,
and all else that it has there is the same. -/
inductive SchePc.Rel (β : Addr → Addr → Prop) : SchePc → SchePc → Prop
  | pop : Rel β .pop .pop
  | retain {a b} (h : β a b) : Rel β (.retain a) (.retain b)
  | source {a b} (h : β a b) : Rel β (.source a) (.source b)
  | marker {a b} (h : β a b) : Rel β (.marker a) (.marker b)
  | create {a b i} (h : β a b) : Rel β (.create a i) (.create b i)
  | check {a b i} (h : β a b) : Rel β (.check a i) (.check b i)
  | finish {a b f} (h : β a b) : Rel β (.finish a f) (.finish b f)
  | dispatch {a b i} (h : β a b) : Rel β (.dispatch a i) (.dispatch b i)
  | choose {a b i c} (h : β a b) : Rel β (.choose a i c) (.choose b i c)
  | copy {a b i v} (h : β a b) : Rel β (.copy a i v) (.copy b i v)
  | push {a b i v c d} (h : β a b) (h' : β c d) : Rel β (.push a i v c) (.push b i v d)
  | requeue {a b} (h : β a b) : Rel β (.requeue a) (.requeue b)
  | drop {a b} (h : β a b) : Rel β (.drop a) (.drop b)
  | stopped : Rel β .stopped .stopped

/-- Upload threads at the same place. -/
inductive UploadPc.Rel (β : Addr → Addr → Prop) : UploadPc → UploadPc → Prop
  | pop : Rel β .pop .pop
  | avail {a b} (h : β a b) : Rel β (.avail a) (.avail b)
  | availSet {a b} (h : β a b) : Rel β (.availSet a) (.availSet b)
  | checking {a b} (h : β a b) : Rel β (.checking a) (.checking b)
  | library {a b} (h : β a b) : Rel β (.library a) (.library b)
  | deleteSrc {a b} (h : β a b) : Rel β (.deleteSrc a) (.deleteSrc b)
  | deleteFlag {a b} (h : β a b) : Rel β (.deleteFlag a) (.deleteFlag b)
  | resetRc {a b} (h : β a b) : Rel β (.resetRc a) (.resetRc b)
  | failed {a b} (h : β a b) : Rel β (.failed a) (.failed b)
  | failedInc {a b rc} (h : β a b) : Rel β (.failedInc a rc) (.failedInc b rc)
  | requeue {a b} (h : β a b) : Rel β (.requeue a) (.requeue b)
  | setFst {a b} (h : β a b) : Rel β (.setFst a) (.setFst b)
  | release {a b} (h : β a b) : Rel β (.release a) (.release b)
  | free {a b} (h : β a b) : Rel β (.free a) (.free b)
  | stopped : Rel β .stopped .stopped

/-- Library calls that are the same up to addresses. -/
structure CallRel (β : Addr → Addr → Prop) (c c' : Call) : Prop where
  copy : β c.copy c'.copy
  original : β c.original c'.original
  group : c'.group = c.group
  monitorId : c'.monitorId = c.monitorId
  monitorfile : c'.monitorfile = c.monitorfile
  ret : c'.ret = c.ret

/-- **The states mirror each other**: they are the same up to addresses, wherever an address
of one belongs to an address of the other.

The relation `β` pairs some addresses of `d` with some of `s`, one to one, and need not cover
all of them: a thread may hold a node in one state that the other has not allocated yet.  Of
such a node nothing is said, nor of where the threads are and of what the queues hold; that is
added where two systems are related. -/
structure Mirrors (β : Addr → Addr → Prop) (d s : State) : Prop where
  fs : s.fs = d.fs
  time : s.time = d.time
  curRc : s.curRc = d.curRc
  curFst : s.curFst = d.curFst
  uploadCount : s.uploadCount = d.uploadCount
  monitorRun : s.monitorRun = d.monitorRun
  uploadRun : s.uploadRun = d.uploadRun
  inj : ∀ {a b a' b'}, β a b → β a' b' → (a = a' ↔ b = b')
  heap : ∀ {a b}, β a b → Option.Rel (NodeRel β) (d.heap a) (s.heap b)
  grp : ∀ {a b}, β a b → s.grp b = d.grp a
  calls : List.Forall₂ (CallRel β) d.calls s.calls

/-- The threads, the queues, the addresses that were handed out and the history of the copies
are the same. -/
structure SameThreads (s s' : State) : Prop where
  sche : s'.sche = s.sche
  upload : s'.upload = s.upload
  queue : s'.queue = s.queue
  next : s'.next = s.next
  grp : s'.grp = s.grp

/-- No node is touched that `β` does not know. -/
def Spares (β : Addr → Addr → Prop) (d d' : State) : Prop :=
  ∀ a, (∀ b, ¬β a b) → d'.heap a = d.heap a

section Mirrors

variable {β γ : Addr → Addr → Prop} {d d' s : State} {a b : Addr} {n n' : FileQueue}

theorem SameThreads.refl (s : State) : SameThreads s s := ⟨rfl, rfl, rfl, rfl, rfl⟩

theorem Spares.refl (d : State) : Spares β d d := fun _ _ => rfl

theorem NodeRel.mono (h : NodeRel β n n') (hβ : ∀ {a b}, β a b → γ a b) : NodeRel γ n n' :=
  { h with retainCount := hβ h.retainCount }

theorem SchePc.Rel.mono {p p' : SchePc} (h : SchePc.Rel β p p') (hβ : ∀ {a b}, β a b → γ a b) :
    SchePc.Rel γ p p' := by
  cases h <;> constructor <;> exact hβ ‹_›

theorem SchePc.Rel.refl (p : SchePc) : SchePc.Rel Eq p p := by
  cases p <;> constructor <;> rfl

theorem UploadPc.Rel.refl (p : UploadPc) : UploadPc.Rel Eq p p := by
  cases p <;> constructor <;> rfl

theorem UploadPc.Rel.mono {p p' : UploadPc} (h : UploadPc.Rel β p p')
    (hβ : ∀ {a b}, β a b → γ a b) : UploadPc.Rel γ p p' := by
  cases h <;> constructor <;> exact hβ ‹_›

theorem CallRel.mono {c c' : Call} (h : CallRel β c c') (hβ : ∀ {a b}, β a b → γ a b) :
    CallRel γ c c' :=
  { h with copy := hβ h.copy, original := hβ h.original }

/-- A state mirrors itself. -/
theorem Mirrors.refl (d : State) : Mirrors Eq d d where
  fs := rfl
  time := rfl
  curRc := rfl
  curFst := rfl
  uploadCount := rfl
  monitorRun := rfl
  uploadRun := rfl
  inj := by
    rintro a _ a' _ rfl rfl
    exact Iff.rfl
  heap := by
    rintro a _ rfl
    cases d.heap a with
    | none => exact .none
    | some n => exact .some ⟨rfl, rfl, rfl, rfl, rfl, rfl, rfl, rfl⟩
  grp := by
    rintro a _ rfl
    rfl
  calls := List.forall₂_same.mpr fun _ _ => ⟨rfl, rfl, rfl, rfl, rfl, rfl⟩

namespace Mirrors

theorem heap_some (h : Mirrors β d s) (hab : β a b) (hn : d.heap a = some n) :
    ∃ n', s.heap b = some n' ∧ NodeRel β n n' := by
  have hrel := h.heap hab
  rw [hn] at hrel
  cases hs : s.heap b with
  | none => rw [hs] at hrel; cases hrel
  | some n' =>
    rw [hs] at hrel
    cases hrel with
    | some hrel => exact ⟨n', rfl, hrel⟩

/-- The node that a node shares its strings with. -/
theorem original (h : Mirrors β d s) (hab : β a b) {o : FileQueue} (ho : d.original a = some o) :
    ∃ o', s.original b = some o' ∧ NodeRel β o o' := by
  obtain ⟨n, hn, ho⟩ := Option.bind_eq_some_iff.mp ho
  obtain ⟨n', hn', hrel⟩ := h.heap_some hab hn
  obtain ⟨o', ho', hrel'⟩ := h.heap_some hrel.retainCount ho
  exact ⟨o', by rw [State.original, hn']; exact ho', hrel'⟩

/-- A program is run on the files. -/
theorem os (h : Mirrors β d s) {α : Type} (sys : Sys) (x : Os α) :
    (s.os sys x).1 = (d.os sys x).1 ∧ Mirrors β (d.os sys x).2 (s.os sys x).2 := by
  refine ⟨?_, { h with fs := ?_ }⟩
  · show (x.run ⟨s.fs, sys⟩).1 = _
    rw [h.fs]
    rfl
  · show (x.run ⟨s.fs, sys⟩).2.fs = _
    rw [h.fs]
    rfl

/-- A node is written. -/
theorem setNode (h : Mirrors β d s) (hab : β a b) {o o' : Option FileQueue}
    (ho : Option.Rel (NodeRel β) o o') : Mirrors β (d.setNode a o) (s.setNode b o') :=
  { h with
    heap := by
      intro a' b' hab'
      by_cases ha : a' = a
      · obtain rfl := ha
        obtain rfl := (h.inj hab' hab).mp rfl
        simpa [State.setNode] using ho
      · have hb : b' ≠ b := fun hb => ha ((h.inj hab' hab).mpr hb)
        simpa [State.setNode, ha, hb] using h.heap hab' }

theorem setNode_some (h : Mirrors β d s) (hab : β a b) (hn : NodeRel β n n') :
    Mirrors β (d.setNode a (some n)) (s.setNode b (some n')) :=
  h.setNode hab (.some hn)

theorem setSche (h : Mirrors β d s) (g : ℕ) (p p' : SchePc) :
    Mirrors β (d.setSche g p) (s.setSche g p') :=
  { h with }

theorem setUpload (h : Mirrors β d s) (t : ThreadId) (p p' : UploadPc) :
    Mirrors β (d.setUpload t p) (s.setUpload t p') :=
  { h with }

/-- A counter is changed. -/
theorem addRetain (h : Mirrors β d s) (hab : β a b) {x : ℤ} (hd : d.addRetain a x = some d') :
    ∃ s', s.addRetain b x = some s' ∧ Mirrors β d' s' ∧ SameThreads d d' ∧ SameThreads s s' ∧
      Spares β d d' := by
  obtain ⟨n, hn, rfl⟩ := addRetain_eq_some hd
  obtain ⟨n', hn', hrel⟩ := h.heap_some hab hn
  refine ⟨s.setNode b (some { n' with reCountS := n'.reCountS + x }), ?_, ?_,
    ⟨rfl, rfl, rfl, rfl, rfl⟩, ⟨rfl, rfl, rfl, rfl, rfl⟩, fun c hc => ?_⟩
  · rw [State.addRetain, hn', Option.map_some]
  · refine h.setNode_some hab { hrel with reCountS := ?_ }
    show n'.reCountS + x = n.reCountS + x
    rw [hrel.reCountS]
  · refine Function.update_of_ne ?_ _ _
    rintro rfl
    exact hc b hab

end Mirrors

/-! ### Moves of a scheduler -/

/-- **A move of a scheduler from `d` to `d'` is one in the mirror `s`**, with the result `r`;
the scheduler keeps its node. -/
def ScheFollows (β : Addr → Addr → Prop) (g : ℕ) (d s d' : State) (r : Option State) : Prop :=
  ∃ D S p p', d' = D.setSche g p ∧ r = some (S.setSche g p') ∧ Mirrors β D S ∧
    SchePc.Rel β p p' ∧ SameThreads d D ∧ SameThreads s S ∧ Spares β d D ∧
    p.node = (d.sche g).node ∧ p.newnode = none

theorem ScheFollows.go (h : Mirrors β d s) {g : ℕ} {p p' : SchePc} (hrel : SchePc.Rel β p p')
    (hnode : p.node = (d.sche g).node) (hnew : p.newnode = none) :
    ScheFollows β g d s (d.setSche g p) (some (s.setSche g p')) :=
  ⟨d, s, p, p', rfl, rfl, h, hrel, .refl d, .refl s, .refl d, hnode, hnew⟩

/-- A move with a program on the files. -/
theorem ScheFollows.run (h : Mirrors β d s) {g : ℕ} {p p' : SchePc} {α : Type} (sys : Sys)
    (x : Os α) (hrel : SchePc.Rel β p p') (hnode : p.node = (d.sche g).node)
    (hnew : p.newnode = none) :
    ScheFollows β g d s ((d.os sys x).2.setSche g p) (some ((s.os sys x).2.setSche g p')) :=
  ⟨_, _, p, p', rfl, rfl, (h.os sys x).2, hrel, ⟨rfl, rfl, rfl, rfl, rfl⟩,
    ⟨rfl, rfl, rfl, rfl, rfl⟩, fun _ _ => rfl, hnode, hnew⟩

variable {cfg : Config} {mg : MonitorGroup} {g : ℕ} {sys : Sys}

theorem Mirrors.unavailable (h : Mirrors β d s) (rs : RealServer) :
    s.unavailable rs = d.unavailable rs := by
  rw [State.unavailable, State.unavailable, h.curFst, h.time]

theorem Mirrors.scan (h : Mirrors β d s) (hab : β a b) {sg : ServerGroupQueue} {i : ℕ} {c : Scan}
    (hnode : (d.sche g).node = some a) (hc : c.stage ≠ .size)
    (hd : scanStep sg g a i c d = some d') :
    ScheFollows β g d s d' (scanStep sg g b i c s) := by
  unfold scanStep at hd ⊢
  dsimp only at hd ⊢
  split at hd
  · cases hd
    cases c.reQueue with
    | some v => exact .go h (.copy hab) hnode.symm rfl
    | none =>
      cases c.back with
      | true => exact .go h (.dispatch hab) hnode.symm rfl
      | false => exact .go h (.choose hab) hnode.symm rfl
  · cases hd
    exact .go h (.choose hab) hnode.symm rfl
  · cases hd
    rw [h.unavailable]
    exact .go h (.choose hab) hnode.symm rfl
  · next rs _ _ =>
    cases hd
    have hset : Mirrors β (d.setCurFst rs.index 0) (s.setCurFst rs.index 0) :=
      { h with curFst := by rw [State.setCurFst, State.setCurFst, h.curFst] }
    exact ⟨_, _, _, _, rfl, rfl, hset, .choose hab, ⟨rfl, rfl, rfl, rfl, rfl⟩,
      ⟨rfl, rfl, rfl, rfl, rfl⟩, fun _ _ => rfl, hnode.symm, rfl⟩
  · next hstage _ => exact absurd hstage hc
  · cases hd

theorem Mirrors.finish (h : Mirrors β d s) (hab : β a b) {f : FinishStage}
    (hnode : (d.sche g).node = some a) (hf : f ≠ .free)
    (hd : finishStep cfg g sys a d f = some d') :
    ScheFollows β g d s d' (finishStep cfg g sys b s f) := by
  -- the stages read the original for its paths, and the counter of uploads
  cases f with
  | act =>
    simp only [finishStep, Option.bind_eq_bind, Option.bind_eq_some_iff] at hd ⊢
    obtain ⟨n, hn, o, ho, mg, hmg, hd⟩ := hd
    cases hd
    obtain ⟨n', hn', hrel⟩ := h.heap_some hab hn
    obtain ⟨o', ho', hrel'⟩ := h.original hab ho
    rw [hn', ho', Option.bind_some, Option.bind_some, hrel.monitorId, hmg, Option.bind_some,
      hrel'.src, h.time]
    exact .run h sys _ (.finish hab) hnode.symm rfl
  | delMonitor =>
    simp only [finishStep, Option.bind_eq_bind, Option.bind_eq_some_iff] at hd ⊢
    obtain ⟨o, ho, hd⟩ := hd
    cases hd
    obtain ⟨o', ho', hrel⟩ := h.original hab ho
    rw [ho', Option.bind_some, hrel.monitorfile]
    exact .run h sys _ (.finish hab) hnode.symm rfl
  | limit =>
    simp only [finishStep] at hd ⊢
    rw [h.uploadCount]
    by_cases hmax : cfg.maxUploadNum = 0
    · rw [if_pos hmax] at hd ⊢
      cases hd
      exact .go h (.finish hab) hnode.symm rfl
    rw [if_neg hmax] at hd ⊢
    by_cases hcount : d.uploadCount > cfg.maxUploadNum
    · rw [if_pos hcount] at hd ⊢
      cases hd
      exact ⟨{ d with uploadCount := d.uploadCount + 1, monitorRun := false, uploadRun := false },
        { s with uploadCount := d.uploadCount + 1, monitorRun := false, uploadRun := false },
        _, _, rfl, rfl, { h with uploadCount := rfl, monitorRun := rfl, uploadRun := rfl },
        .finish hab, ⟨rfl, rfl, rfl, rfl, rfl⟩, ⟨rfl, rfl, rfl, rfl, rfl⟩, fun _ _ => rfl,
        hnode.symm, rfl⟩
    · rw [if_neg hcount] at hd ⊢
      cases hd
      exact ⟨{ d with uploadCount := d.uploadCount + 1 },
        { s with uploadCount := d.uploadCount + 1 }, _, _, rfl, rfl, { h with uploadCount := rfl },
        .finish hab, ⟨rfl, rfl, rfl, rfl, rfl⟩, ⟨rfl, rfl, rfl, rfl, rfl⟩, fun _ _ => rfl,
        hnode.symm, rfl⟩
  | delMarker =>
    simp only [finishStep, Option.bind_eq_bind, Option.bind_eq_some_iff] at hd ⊢
    obtain ⟨o, ho, hd⟩ := hd
    cases hd
    obtain ⟨o', ho', hrel⟩ := h.original hab ho
    rw [ho', Option.bind_some, hrel.monitorfile]
    exact .run h sys _ (.finish hab) hnode.symm rfl
  | testMarker =>
    simp only [finishStep, Option.bind_eq_bind, Option.bind_eq_some_iff] at hd ⊢
    obtain ⟨o, ho, hd⟩ := hd
    cases hd
    obtain ⟨o', ho', hrel⟩ := h.original hab ho
    rw [ho', Option.bind_some, hrel.monitorfile, (h.os sys _).1]
    exact .go h (by split <;> exact .finish hab) (by split <;> exact hnode.symm)
      (by split <;> rfl)
  | delMarkerAgain =>
    simp only [finishStep, Option.bind_eq_bind, Option.bind_eq_some_iff] at hd ⊢
    obtain ⟨o, ho, hd⟩ := hd
    cases hd
    obtain ⟨o', ho', hrel⟩ := h.original hab ho
    rw [ho', Option.bind_some, hrel.monitorfile]
    exact .run h sys _ (.finish hab) hnode.symm rfl
  | free => exact absurd rfl hf

/-- **A move of a scheduler in one state is one in the other.** -/
theorem Mirrors.sche (h : Mirrors β d s) (hrel : SchePc.Rel β (d.sche g) (s.sche g))
    (halone : (d.sche g).alone d.monitorRun sys = true)
    (hd : scheStep cfg mg g sys d = some d') :
    ScheFollows β g d s d' (scheStep cfg mg g sys s) := by
  obtain ⟨p, hp⟩ : ∃ p, d.sche g = p := ⟨_, rfl⟩
  obtain ⟨p', hp'⟩ : ∃ p', s.sche g = p' := ⟨_, rfl⟩
  unfold scheStep at hd ⊢
  rw [hp] at hrel halone hd
  rw [hp'] at hrel ⊢
  -- both read the same of their nodes, so they take the same branch; a thread that would call
  -- a queue or the allocator is not alone
  cases hrel with
  | pop =>
    have hrun : d.monitorRun = false := by simpa [SchePc.alone] using halone
    simp only [hrun, h.monitorRun, Bool.false_eq_true, if_false] at hd ⊢
    cases hd
    exact .go h .stopped (by rw [hp]; rfl) rfl
  | retain hab =>
    simp only [Option.bind_eq_bind, Option.bind_eq_some_iff] at hd ⊢
    obtain ⟨n, hn, hd⟩ := hd
    cases hd
    obtain ⟨o, ho, rfl⟩ := Option.map_eq_some_iff.mp hn
    obtain ⟨o', ho', hrel⟩ := h.original hab ho
    rw [State.queueNodeIsRetain, ho', Option.map_some, Option.bind_some, hrel.reCountS]
    refine .go h ?_ ?_ ?_
    · split
      · exact .requeue hab
      · exact .source hab
    · rw [hp]
      split <;> rfl
    · split <;> rfl
  | source hab =>
    simp only [Option.bind_eq_bind, Option.bind_eq_some_iff] at hd ⊢
    obtain ⟨o, ho, hd⟩ := hd
    cases hd
    obtain ⟨o', ho', hrel⟩ := h.original hab ho
    rw [ho', Option.bind_some, hrel.src, (h.os sys _).1]
    refine .go h ?_ ?_ ?_
    · split
      · exact .drop hab
      · exact .marker hab
    · rw [hp]
      split <;> rfl
    · split <;> rfl
  | marker hab =>
    simp only [Option.bind_eq_bind, Option.bind_eq_some_iff] at hd ⊢
    obtain ⟨o, ho, hd⟩ := hd
    cases hd
    obtain ⟨o', ho', hrel⟩ := h.original hab ho
    rw [ho', Option.bind_some, hrel.monitorfile, (h.os sys _).1]
    refine .go h ?_ ?_ ?_
    · split
      · exact .create hab
      · exact .check hab
    · rw [hp]
      split <;> rfl
    · split <;> rfl
  | create hab =>
    simp only [Option.bind_eq_bind, Option.bind_eq_some_iff] at hd ⊢
    obtain ⟨o, ho, hd⟩ := hd
    obtain ⟨o', ho', hrel⟩ := h.original hab ho
    rw [ho', Option.bind_some, hrel.monitorfile]
    split at hd
    · cases hd
      exact .run h sys _ (.create hab) (by rw [hp]; rfl) rfl
    · cases hd
      exact .run h sys _ (.dispatch hab) (by rw [hp]; rfl) rfl
  | check hab =>
    simp only [Option.bind_eq_bind, Option.bind_eq_some_iff] at hd ⊢
    obtain ⟨o, ho, hd⟩ := hd
    obtain ⟨o', ho', hrel⟩ := h.original hab ho
    rw [ho', Option.bind_some, hrel.monitorfile]
    split at hd
    · cases hd
      rw [(h.os sys _).1]
      refine .go h ?_ ?_ ?_
      · split
        · exact .dispatch hab
        · exact .check hab
      · rw [hp]
        split <;> rfl
      · split <;> rfl
    · cases hd
      exact .go h (.finish hab) (by rw [hp]; rfl) rfl
  | finish hab =>
    exact h.finish hab (by rw [hp]; rfl) (by rintro rfl; cases halone) hd
  | dispatch hab =>
    dsimp only at hd ⊢
    split at hd
    · cases hd
      exact .go h (.requeue hab) (by rw [hp]; rfl) rfl
    · simp only [Option.bind_eq_bind, Option.bind_eq_some_iff] at hd ⊢
      obtain ⟨o, ho, n, hn, hd⟩ := hd
      obtain ⟨o', ho', hrelo⟩ := h.original hab ho
      obtain ⟨n', hn', hreln⟩ := h.heap_some hab hn
      rw [ho', hn', Option.bind_some, Option.bind_some, hrelo.monitorfile, (h.os sys _).1]
      split at hd
      · next hr =>
        cases hd
        rw [if_pos hr]
        exact .go h (.dispatch hab) (by rw [hp]; rfl) rfl
      · next sg _ hr =>
        cases hd
        rw [if_neg hr]
        -- `node->sg_name` is written in both
        have hset : NodeRel β { n with sgName := some sg.primeName }
            { n' with sgName := some sg.primeName } := { hreln with sgName := rfl }
        refine ⟨_, _, _, _, rfl, rfl, h.setNode_some hab hset, .choose hab,
          ⟨rfl, rfl, rfl, rfl, rfl⟩, ⟨rfl, rfl, rfl, rfl, rfl⟩, fun c hc => ?_,
          by rw [hp]; rfl, rfl⟩
        refine Function.update_of_ne ?_ _ _
        rintro rfl
        exact hc _ hab
  | choose hab =>
    obtain ⟨sg, hsg, hd⟩ := Option.bind_eq_some_iff.mp hd
    dsimp only
    rw [hsg, Option.bind_some]
    exact h.scan hab (by rw [hp]; rfl) (by simpa [SchePc.alone] using halone) hd
  | copy hab =>
    have hfull : sys.head? = some none := by simpa [SchePc.alone] using halone
    dsimp only at hd ⊢
    rw [if_pos hfull] at hd ⊢
    cases hd
    exact .go h (.dispatch hab) (by rw [hp]; rfl) rfl
  | push hab => cases halone
  | requeue hab => cases halone
  | drop hab => cases halone
  | stopped => cases hd

/-! ### Moves of an upload thread -/

/-- The node that an upload thread has, before and after its decrement. -/
def UploadPc.held (p : UploadPc) : Option Addr := p.node.or p.released

/-- **A move of an upload thread from `d` to `d'` is one in the mirror `s`**, with the result
`r`; the thread keeps its node. -/
def UploadFollows (β : Addr → Addr → Prop) (t : ThreadId) (d s d' : State) (r : Option State) :
    Prop :=
  ∃ D S p p', d' = D.setUpload t p ∧ r = some (S.setUpload t p') ∧ Mirrors β D S ∧
    UploadPc.Rel β p p' ∧ SameThreads d D ∧ SameThreads s S ∧ Spares β d D ∧
    p.held = (d.upload t).held

theorem UploadFollows.go (h : Mirrors β d s) {t : ThreadId} {p p' : UploadPc}
    (hrel : UploadPc.Rel β p p') (hheld : p.held = (d.upload t).held) :
    UploadFollows β t d s (d.setUpload t p) (some (s.setUpload t p')) :=
  ⟨d, s, p, p', rfl, rfl, h, hrel, .refl d, .refl s, .refl d, hheld⟩

/-- A move with a program on the files. -/
theorem UploadFollows.run (h : Mirrors β d s) {t : ThreadId} {p p' : UploadPc} {α : Type}
    (sys : Sys) (x : Os α) (hrel : UploadPc.Rel β p p') (hheld : p.held = (d.upload t).held) :
    UploadFollows β t d s ((d.os sys x).2.setUpload t p)
      (some ((s.os sys x).2.setUpload t p')) :=
  ⟨_, _, p, p', rfl, rfl, (h.os sys x).2, hrel, ⟨rfl, rfl, rfl, rfl, rfl⟩,
    ⟨rfl, rfl, rfl, rfl, rfl⟩, fun _ _ => rfl, hheld⟩

variable {rs : RealServer} {t : ThreadId} {ret : ℤ}

theorem Mirrors.dropRetain (h : Mirrors β d s) (hrel : NodeRel β n n')
    (hd : d.dropRetain n = some d') :
    ∃ s', s.dropRetain n' = some s' ∧ Mirrors β d' s' ∧ SameThreads d d' ∧ SameThreads s s' ∧
      Spares β d d' := by
  unfold State.dropRetain at hd ⊢
  rw [hrel.copy]
  split at hd
  · next hcopy =>
    rw [if_pos hcopy]
    exact h.addRetain hrel.retainCount hd
  · next hcopy =>
    rw [if_neg hcopy]
    cases hd
    exact ⟨s, rfl, h, .refl d, .refl s, .refl d⟩

/-- **A move of an upload thread in one state is one in the other.** -/
theorem Mirrors.upload (h : Mirrors β d s) (hrel : UploadPc.Rel β (d.upload t) (s.upload t))
    (halone : (d.upload t).alone d.uploadRun = true)
    (hd : uploadStep cfg rs t ret sys d = some d') :
    UploadFollows β t d s d' (uploadStep cfg rs t ret sys s) := by
  obtain ⟨p, hp⟩ : ∃ p, d.upload t = p := ⟨_, rfl⟩
  obtain ⟨p', hp'⟩ : ∃ p', s.upload t = p' := ⟨_, rfl⟩
  unfold uploadStep at hd ⊢
  rw [hp] at hrel halone hd
  rw [hp'] at hrel ⊢
  -- as for a scheduler; here the library is called, and the counters of the server are written
  cases hrel with
  | pop =>
    have hrun : d.uploadRun = false := by simpa [UploadPc.alone] using halone
    simp only [hrun, h.uploadRun, Bool.false_eq_true, if_false] at hd ⊢
    cases hd
    exact .go h .stopped (by rw [hp]; rfl)
  | avail hab =>
    cases hd
    rw [h.unavailable]
    refine .go h ?_ ?_
    · split
      · exact .release hab
      · exact .availSet hab
    · rw [hp]
      split <;> rfl
  | availSet hab =>
    cases hd
    have hset : Mirrors β (d.setCurFst rs.index 0) (s.setCurFst rs.index 0) :=
      { h with curFst := by rw [State.setCurFst, State.setCurFst, h.curFst] }
    exact ⟨_, _, _, _, rfl, rfl, hset, .checking hab, ⟨rfl, rfl, rfl, rfl, rfl⟩,
      ⟨rfl, rfl, rfl, rfl, rfl⟩, fun _ _ => rfl, by rw [hp]; rfl⟩
  | checking hab =>
    simp only [Option.bind_eq_bind, Option.bind_eq_some_iff] at hd ⊢
    obtain ⟨o, ho, hd⟩ := hd
    cases hd
    obtain ⟨o', ho', hrel⟩ := h.original hab ho
    rw [ho', Option.bind_some, hrel.src, (h.os sys _).1]
    refine .go h ?_ ?_
    · split
      · exact .release hab
      · exact .library hab
    · rw [hp]
      split <;> rfl
  | library hab =>
    simp only [Option.bind_eq_bind, Option.bind_eq_some_iff] at hd ⊢
    obtain ⟨n, hn, o, ho, hd⟩ := hd
    cases hd
    obtain ⟨n', hn', hreln⟩ := h.heap_some hab hn
    obtain ⟨o', ho', hrelo⟩ := h.original hab ho
    rw [hn', ho', Option.bind_some, Option.bind_some]
    have hcall : CallRel β ⟨_, n.retainCount, d.grp _, n.monitorId, o.monitorfile, ret⟩
        ⟨_, n'.retainCount, s.grp _, n'.monitorId, o'.monitorfile, ret⟩ :=
      ⟨hab, hreln.retainCount, h.grp hab, hreln.monitorId, hrelo.monitorfile, rfl⟩
    refine ⟨_, _, _, _, rfl, rfl, { h with calls := .cons hcall h.calls }, ?_,
      ⟨rfl, rfl, rfl, rfl, rfl⟩, ⟨rfl, rfl, rfl, rfl, rfl⟩, fun _ _ => rfl, ?_⟩
    · split
      · exact .deleteSrc hab
      · exact .failed hab
    · rw [hp]
      split <;> rfl
  | deleteSrc hab =>
    simp only [Option.bind_eq_bind, Option.bind_eq_some_iff] at hd ⊢
    obtain ⟨o, ho, hd⟩ := hd
    cases hd
    obtain ⟨o', ho', hrel⟩ := h.original hab ho
    rw [ho', Option.bind_some, hrel.src]
    exact .run h sys _ (.deleteFlag hab) (by rw [hp]; rfl)
  | deleteFlag hab =>
    simp only [Option.bind_eq_bind, Option.bind_eq_some_iff] at hd ⊢
    obtain ⟨n, hn, o, ho, mg, hmg, name, hname, hd⟩ := hd
    cases hd
    obtain ⟨n', hn', hreln⟩ := h.heap_some hab hn
    obtain ⟨o', ho', hrelo⟩ := h.original hab ho
    rw [hn', ho', Option.bind_some, Option.bind_some, hreln.monitorId, hmg, Option.bind_some,
      hreln.sgName, hname, Option.bind_some, hrelo.monitorfile]
    exact .run h sys _ (.resetRc hab) (by rw [hp]; rfl)
  | resetRc hab =>
    cases hd
    have hset : Mirrors β (d.setCurRc rs.index 0) (s.setCurRc rs.index 0) :=
      { h with curRc := by rw [State.setCurRc, State.setCurRc, h.curRc] }
    exact ⟨_, _, _, _, rfl, rfl, hset, .release hab, ⟨rfl, rfl, rfl, rfl, rfl⟩,
      ⟨rfl, rfl, rfl, rfl, rfl⟩, fun _ _ => rfl, by rw [hp]; rfl⟩
  | failed hab =>
    cases hd
    rw [h.curRc]
    exact .go h (.failedInc hab) (by rw [hp]; rfl)
  | failedInc hab =>
    cases hd
    have hset (rc : ℤ) : Mirrors β (d.setCurRc rs.index rc) (s.setCurRc rs.index rc) :=
      { h with curRc := by rw [State.setCurRc, State.setCurRc, h.curRc] }
    refine ⟨_, _, _, _, rfl, rfl, hset _, ?_, ⟨rfl, rfl, rfl, rfl, rfl⟩, ⟨rfl, rfl, rfl, rfl, rfl⟩,
      fun _ _ => rfl, ?_⟩
    · split
      · exact .requeue hab
      · exact .setFst hab
    · rw [hp]
      split <;> rfl
  | requeue hab => cases halone
  | setFst hab =>
    cases hd
    have hset (x : ℤ) : Mirrors β (d.setCurFst rs.index x) (s.setCurFst rs.index x) :=
      { h with curFst := by rw [State.setCurFst, State.setCurFst, h.curFst] }
    rw [h.time]
    exact ⟨_, _, _, _, rfl, rfl, hset _, .resetRc hab, ⟨rfl, rfl, rfl, rfl, rfl⟩,
      ⟨rfl, rfl, rfl, rfl, rfl⟩, fun _ _ => rfl, by rw [hp]; rfl⟩
  | release hab =>
    simp only [Option.bind_eq_bind, Option.bind_eq_some_iff] at hd ⊢
    obtain ⟨n, hn, D, hD, hd⟩ := hd
    cases hd
    obtain ⟨n', hn', hrel⟩ := h.heap_some hab hn
    obtain ⟨S, hS, hDS, hsame, hsame', hspares⟩ := h.dropRetain hrel hD
    rw [hn', Option.bind_some, hS, Option.bind_some]
    exact ⟨D, S, _, _, rfl, rfl, hDS, .free hab, hsame, hsame', hspares, by rw [hp]; rfl⟩
  | free hab => cases halone
  | stopped => cases hd

/-! ### Nodes are made and freed -/

/-- One more address of one state belongs to one of the other. -/
def Extend (β : Addr → Addr → Prop) (a b : Addr) : Addr → Addr → Prop :=
  fun x y => β x y ∨ x = a ∧ y = b

/-- The addresses without a partner do not matter. -/
theorem Mirrors.outside (h : Mirrors β d s) {heap heap' : Addr → Option FileQueue}
    {grp grp' : Addr → ℕ} (next next' : Addr) (queue queue' : QueueId → Queue)
    (hd : ∀ a b, β a b → heap a = d.heap a ∧ grp a = d.grp a)
    (hs : ∀ a b, β a b → heap' b = s.heap b ∧ grp' b = s.grp b) :
    Mirrors β { d with heap := heap, grp := grp, next := next, queue := queue }
      { s with heap := heap', grp := grp', next := next', queue := queue' } :=
  { h with
    heap := fun {a b} hab => by
      show Option.Rel (NodeRel β) (heap a) (heap' b)
      rw [(hd a b hab).1, (hs a b hab).1]
      exact h.heap hab
    grp := fun {a b} hab => by
      show grp' b = grp a
      rw [(hd a b hab).2, (hs a b hab).2]
      exact h.grp hab }

/-- Two new nodes that are the same up to addresses. -/
theorem Mirrors.extend (h : Mirrors β d s) (ha : ∀ y, ¬β a y) (hb : ∀ x, ¬β x b)
    (hheap : Option.Rel (NodeRel (Extend β a b)) (d.heap a) (s.heap b))
    (hgrp : s.grp b = d.grp a) : Mirrors (Extend β a b) d s :=
  { h with
    inj := by
      rintro x y x' y' (hxy | ⟨rfl, rfl⟩) (hxy' | ⟨rfl, rfl⟩)
      · exact h.inj hxy hxy'
      · exact iff_of_false (fun hx => ha y (hx ▸ hxy)) (fun hy => hb x (hy ▸ hxy))
      · exact iff_of_false (fun hx => ha y' (hx ▸ hxy')) (fun hy => hb x' (hy ▸ hxy'))
      · exact iff_of_true rfl rfl
    heap := by
      rintro x y (hxy | ⟨rfl, rfl⟩)
      · have hrel := h.heap hxy
        cases hx : d.heap x with
        | none =>
          rw [hx] at hrel
          cases hy : s.heap y with
          | none => exact .none
          | some n => rw [hy] at hrel; cases hrel
        | some n =>
          obtain ⟨n', hn', hrel⟩ := h.heap_some hxy hx
          rw [hn']
          exact .some (hrel.mono .inl)
      · exact hheap
    grp := by
      rintro x y (hxy | ⟨rfl, rfl⟩)
      · exact h.grp hxy
      · exact hgrp
    calls := h.calls.imp fun _ _ hc => hc.mono .inl }

/-- `queue_node_copy` in both states. -/
theorem Mirrors.copy (h : Mirrors β d s) (hab : β a b)
    (hfresh : ∀ {x y}, β x y → x < d.next ∧ y < s.next) {i : ℕ}
    (hd : d.queueNodeCopy a i = some (d.next, d')) :
    ∃ s', s.queueNodeCopy b i = some (s.next, s') ∧
      Mirrors (Extend β d.next s.next) d' s' ∧ s'.next = s.next + 1 ∧ s'.queue = s.queue ∧
      s'.sche = s.sche ∧ s'.upload = s.upload ∧ s'.grp = Function.update s.grp s.next i ∧
      ∀ x, (∀ y, ¬β x y) → x ≠ d.next → d'.heap x = d.heap x := by
  simp only [State.queueNodeCopy, Option.bind_eq_bind, Option.bind_eq_some_iff] at hd ⊢
  obtain ⟨n, hn, d₁, hd₁, he⟩ := hd
  cases he
  obtain ⟨n', hn', hrel⟩ := h.heap_some hab hn
  have hnew : Mirrors (Extend β d.next s.next)
      { d.setNode d.next (some { n with copy := true }) with
        next := d.next + 1, grp := Function.update d.grp d.next i }
      { s.setNode s.next (some { n' with copy := true }) with
        next := s.next + 1, grp := Function.update s.grp s.next i } := by
    refine (h.outside (d.next + 1) (s.next + 1) d.queue s.queue (fun x y hxy => ?_)
      (fun x y hxy => ?_)).extend (fun y hy => ?_) (fun x hx => ?_) ?_ ?_
    · exact ⟨Function.update_of_ne (hfresh hxy).1.ne .., Function.update_of_ne (hfresh hxy).1.ne ..⟩
    · exact ⟨Function.update_of_ne (hfresh hxy).2.ne .., Function.update_of_ne (hfresh hxy).2.ne ..⟩
    · exact (hfresh hy).1.false
    · exact (hfresh hx).2.false
    · show Option.Rel _ (Function.update d.heap d.next _ d.next)
        (Function.update s.heap s.next _ s.next)
      rw [Function.update_self, Function.update_self]
      exact .some { hrel.mono .inl with copy := rfl }
    · show Function.update s.grp s.next i s.next = Function.update d.grp d.next i d.next
      rw [Function.update_self, Function.update_self]
  obtain ⟨s₁, hs₁, hm, -, hsame, -⟩ := hnew.addRetain (.inl hrel.retainCount) hd₁
  refine ⟨s₁, ⟨n', hn', s₁, hs₁, rfl⟩, hm, hsame.next, hsame.queue, hsame.sche, hsame.upload,
    hsame.grp, fun x hx hne => ?_⟩
  obtain ⟨m, -, rfl⟩ := addRetain_eq_some hd₁
  have hret : x ≠ n.retainCount := by
    rintro rfl
    exact hx _ hrel.retainCount
  show Function.update (Function.update d.heap d.next _) n.retainCount _ x = d.heap x
  rw [Function.update_of_ne hret, Function.update_of_ne hne]

/-- `queue_node_free` in both states. -/
theorem Mirrors.queueNodeFree (h : Mirrors β d s) (hab : β a b)
    (hd : d.queueNodeFree a = some d') :
    ∃ s', s.queueNodeFree b = some s' ∧ Mirrors β d' s' ∧ SameThreads d d' ∧
      SameThreads s s' ∧ Spares β d d' := by
  simp only [State.queueNodeFree, Option.bind_eq_bind, Option.bind_eq_some_iff] at hd ⊢
  obtain ⟨n, hn, d₁, hd₁, he⟩ := hd
  cases he
  obtain ⟨n', hn', hrel⟩ := h.heap_some hab hn
  obtain ⟨s₁, hs₁, hm, hsame, hsame', hspares⟩ := h.dropRetain hrel hd₁
  refine ⟨s₁.setNode b none, ⟨n', hn', s₁, hs₁, rfl⟩, hm.setNode hab .none,
    ⟨hsame.sche, hsame.upload, hsame.queue, hsame.next, hsame.grp⟩,
    ⟨hsame'.sche, hsame'.upload, hsame'.queue, hsame'.next, hsame'.grp⟩, fun x hx => ?_⟩
  have hne : x ≠ a := by
    rintro rfl
    exact hx b hab
  exact (Function.update_of_ne hne ..).trans (hspares x hx)

end Mirrors

end Newiup
