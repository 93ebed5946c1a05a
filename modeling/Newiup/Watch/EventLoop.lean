import Newiup.Block
import Newiup.Finish
import Newiup.Watch.Steps

/-!
# The bytes of the event loop

The inner loop of `monitor_handle` on the bytes that `read` has put into its buffer.  Every
branch advances `offset` by the event it has handled, two of them before a `continue` and
the others behind the test of the run signal.

## Main definitions

* `InotifyEvent` — an event as the kernel writes it.
* `LoopState`, `LoopState.innerAt`, `LoopState.handle`, `LoopState.checkAt` — the loop with
  its offset.
* `loopSystem` — the thread on its bytes, beside the other processes, and the record of the
  events it looks at.
* `LoopState.stepsLeft` — a bound on the steps the loop still makes.
* `HandlesEach` — each event of a buffer is looked at once, in order, and the loop ends.

## Main results

* `visitAt_event` — where an event begins, the loop reads that event.
* `LoopState.innerAt_refines` — the loop on the bytes does what `innerStep` does with the
  list of the events.
* `Progress.ends` — the loop makes a limited number of steps on a buffer.
* `events_handled_once` — **every event of a read is handled once.**
-/

namespace Newiup

/-! ### Events -/

/-- `EVENT_SIZE`. -/
def EVENT_SIZE : ℕ := 16
/-- `NAME_LEN`. -/
def NAME_LEN : ℕ := 512
/-- `EVENT_BUF_LEN`. -/
def EVENT_BUF_LEN : ℕ := 8 * (EVENT_SIZE + NAME_LEN)

/-- `IN_MOVED_FROM`. -/
def IN_MOVED_FROM : ℕ := 0x40
/-- `IN_MOVED_TO`. -/
def IN_MOVED_TO : ℕ := 0x80
/-- `IN_CREATE`. -/
def IN_CREATE : ℕ := 0x100
/-- `IN_DELETE`. -/
def IN_DELETE : ℕ := 0x200
/-- `IN_DELETE_SELF`. -/
def IN_DELETE_SELF : ℕ := 0x400
/-- `IN_ISDIR`. -/
def IN_ISDIR : ℕ := 0x40000000

/-- `struct inotify_event`, with the bytes of its name; `len` is their number.  A name ends
with a null byte and is filled up with further ones. -/
structure InotifyEvent where
  /-- `wd`. -/
  wd : ℕ
  /-- `mask`. -/
  mask : ℕ
  /-- `cookie`. -/
  cookie : ℕ
  /-- `name`. -/
  name : Bytes
  wd_lt : wd < 2 ^ 32
  mask_lt : mask < 2 ^ 32
  len_lt : name.length < 2 ^ 32
  terminated : name ≠ [] → 0 ∈ name

/-- The header and the name. -/
def InotifyEvent.bytes (e : InotifyEvent) : Bytes :=
  Block.wordBytes e.wd ++ (Block.wordBytes e.mask ++ (Block.wordBytes e.cookie ++
    (Block.wordBytes e.name.length ++ e.name)))

/-- `event->wd`. -/
def eventWd (buffer : Bytes) (event : ℕ) : Checked ℕ := Block.loadWord buffer event
/-- `event->mask`. -/
def eventMask (buffer : Bytes) (event : ℕ) : Checked ℕ := Block.loadWord buffer (event + 4)
/-- `event->len`. -/
def eventLen (buffer : Bytes) (event : ℕ) : Checked ℕ := Block.loadWord buffer (event + 12)
/-- `event->name`, as it is printed. -/
def eventName (buffer : Bytes) (event : ℕ) : Checked CString := do
  let name ← Block.text 0 buffer (event + EVENT_SIZE)
  return name.map fun b => Char.ofNat b.toNat

/-! ### The loop -/

/-- The thread and the variables of its loop.  The list of events of the thread is replaced by
the bytes that `read` has put into the buffer, with the pointers of the loop into them. -/
structure LoopState (root : Path) where
  /-- The tree and the thread; its list of events is not used. -/
  thread : MonitorState root
  /-- The first `length` bytes of `buffer`. -/
  buffer : Bytes
  /-- `offset`. -/
  offset : ℕ
  /-- Where `event` points, when it has been set. -/
  event : Option ℕ

namespace LoopState

variable {root : Path}

/-- The thread goes on with `pc`. -/
def go (x : LoopState root) (pc : MonitorPc) : LoopState root :=
  { x with thread := { x.thread with pc := pc } }

/-- `offset += EVENT_SIZE + event->len`. -/
def advance (x : LoopState root) (len : ℕ) : LoopState root :=
  { x with offset := x.offset + (EVENT_SIZE + len) }

/-- What is done with an event that has a name, up to the test of the run signal. -/
def handle (x : LoopState root) (mg : MonitorGroup) (wd mask len : ℕ) (name : CString) :
    LoopState root :=
  let dir := (getWdPathByWd x.thread.wdList wd).getD nullString
  let monitorfile := snprintf NEWIUP_PATH_LEN (dir ++ '/' :: name)
  let isFile := (x.thread.tree.entry monitorfile).map Entry.isDir = some false
  let appears := mask &&& IN_CREATE ≠ 0 ∨ mask &&& IN_MOVED_TO ≠ 0
  let vanishes := mask &&& IN_DELETE ≠ 0 ∨ mask &&& IN_DELETE_SELF ≠ 0 ∨ mask &&& IN_MOVED_FROM ≠ 0
  if isFile ∧ appears then
    if isMonitorType monitorfile mg.monitorFileType ≠ NEWIUP_OK then
      x.advance len -- continue
    else
      { x with thread := { x.thread.queueNodeAdd mg wd monitorfile with pc := .check } }
  else if mask &&& IN_ISDIR ≠ 0 then
    if appears then
      x.go (.dirs monitorfile [] (.watch monitorfile (getWdByWd x.thread.wdList wd)))
    else if vanishes then
      { x with thread := { x.thread.delMonitorDir monitorfile with pc := .check } }
    else
      x.go .check
  else
    x.go .check

/-- `while (offset < length)`. -/
def innerAt (x : LoopState root) (mg : MonitorGroup) : Checked (LoopState root) :=
  if x.offset < x.buffer.length then do
    let len ← eventLen x.buffer x.offset
    if len = 0 then
      return { x with event := some x.offset }.advance len -- continue
    else
      let wd ← eventWd x.buffer x.offset
      let name ← eventName x.buffer x.offset
      let mask ← eventMask x.buffer x.offset
      return { x with event := some x.offset }.handle mg wd mask len name
  else
    .done (x.go .loop)

/-- The test of the run signal and the advance behind it.  Before the first event it is the
test of the outer loop. -/
def checkAt (x : LoopState root) : Checked (LoopState root) :=
  if x.thread.run then
    x.event.elim (.done (x.go .loop)) fun event => do
      let len ← eventLen x.buffer event
      return (x.advance len).go .inner
  else
    .done (x.go .stopped)

end LoopState

/-- What happens next. -/
inductive LoopAct
  /-- `read` returns these bytes. -/
  | read (bytes : Bytes)
  /-- The thread or another process goes on. -/
  | other (act : MonitorAct)

/-- The value of a computation, if it has one. -/
def Checked.value {α : Type*} : Checked α → Option α
  | .done a => some a
  | .failed => none
  | .outside => none

/-- A step of the thread or of another process. -/
def LoopState.step {root : Path} (mg : MonitorGroup) (x : LoopState root) :
    LoopAct → Option (LoopState root)
  | .read bytes =>
      match x.thread.pc with
      | .loop =>
          if x.thread.run ∧ bytes.length ≤ EVENT_BUF_LEN then
            some { (x.go .inner) with buffer := bytes, offset := 0 }
          else
            none
      | _ => none
  | .other act =>
      match x.thread.pc, act with
      | .inner, .monitor => (x.innerAt mg).value
      | .check, .monitor => x.checkAt.value
      | _, .read _ => none
      | _, act => (x.thread.step mg act).map fun s => { x with thread := s }

/-! ### What it is for -/

/-- What the loop reads of an event. -/
structure Visit where
  /-- Where it begins. -/
  offset : ℕ
  /-- `wd`. -/
  wd : ℕ
  /-- `mask`. -/
  mask : ℕ
  /-- The name, or the empty string. -/
  name : CString
  deriving DecidableEq

/-- The event at an offset, as the loop reads it. -/
def visitAt (buffer : Bytes) (offset : ℕ) : Checked Visit := do
  let wd ← eventWd buffer offset
  let mask ← eventMask buffer offset
  let len ← eventLen buffer offset
  let name ← if len = 0 then .done [] else eventName buffer offset
  return ⟨offset, wd, mask, name⟩

/-- The record of the events of the last read that the loop has looked at. -/
def noteVisit {root : Path} (visits : List Visit) (x : LoopState root) : LoopAct → List Visit
  | .read _ => []
  | .other act =>
      match x.thread.pc, act with
      | .inner, .monitor =>
          if x.offset < x.buffer.length then
            (visitAt x.buffer x.offset).value.elim visits fun v => visits ++ [v]
          else visits
      | _, _ => visits

/-- The thread on its bytes, with the record. -/
def loopSystem (root : Path) (mg : MonitorGroup) :
    System (LoopState root × List Visit) LoopAct :=
  System.observed
    ⟨fun x => ∃ tree : Tree root, x = ⟨.boot tree, [], 0, none⟩, LoopState.step mg⟩ noteVisit []

/-- The string in the bytes of a name. -/
def InotifyEvent.text (e : InotifyEvent) : CString :=
  (e.name.takeWhile (· ≠ 0)).map fun b => Char.ofNat b.toNat

/-- The events of a buffer, with the places where they begin. -/
def visitsOf : ℕ → List InotifyEvent → List Visit
  | _, [] => []
  | n, e :: es => ⟨n, e.wd, e.mask, e.text⟩ :: visitsOf (n + e.bytes.length) es

/-- How many steps the loop still makes at most, on the events `es`. -/
def LoopState.stepsLeft {root : Path} (es : List InotifyEvent) (x : LoopState root)
    (visits : List Visit) : ℕ :=
  2 * (es.length - visits.length) +
    match x.thread.pc with
    | .inner => 1
    | .check => 2
    | .dirs _ _ _ => 2 -- the test of the run signal comes after the scan
    | .files _ _ _ => 2
    | _ => 0

/-- The steps of the loop itself: not those of a scan, or of another process. -/
def LoopState.ownSteps {root : Path} (x : LoopState root) (act : MonitorAct) : ℕ :=
  match x.thread.pc, act with
  | .inner, .monitor => 1
  | .check, .monitor => 1
  | _, _ => 0

/-- **Every event of a read is handled once**: the buffer holds the events `es`. -/
structure HandlesEach {root : Path} (mg : MonitorGroup) (es : List InotifyEvent)
    (x : LoopState root) (visits : List Visit) : Prop where
  /-- The loop has looked at the first events, at each of them once and in their order. -/
  inOrder : visits <+: visitsOf 0 es
  /-- Nothing is read outside the buffer. -/
  goesOn : x.thread.pc = .inner ∨ x.thread.pc = .check →
    (x.step mg (.other .monitor)).isSome = true
  /-- Each step of the loop brings it nearer to its end, and no other step takes it away
  from there. -/
  ends {act : MonitorAct} {x' : LoopState root} : x.step mg (.other act) = some x' →
    x'.stepsLeft es (noteVisit visits x (.other act)) + x.ownSteps act ≤ x.stepsLeft es visits
  /-- It is left at the end of the buffer, behind the last event. -/
  complete : x.thread.pc = .loop → visits = visitsOf 0 es ∧ x.offset = x.buffer.length

section Reading

variable {e : InotifyEvent} {pre post : Bytes}

/-- The header of an event that stands behind `pre`. -/
theorem eventWd_mid (e : InotifyEvent) (pre post : Bytes) :
    eventWd (pre ++ (e.bytes ++ post)) pre.length = .done e.wd := by
  simp only [InotifyEvent.bytes, List.append_assoc]
  exact Block.loadWord_mid pre e.wd_lt _ rfl

theorem eventMask_mid (e : InotifyEvent) (pre post : Bytes) :
    eventMask (pre ++ (e.bytes ++ post)) pre.length = .done e.mask := by
  simp only [InotifyEvent.bytes, List.append_assoc]
  rw [← List.append_assoc pre]
  exact Block.loadWord_mid _ e.mask_lt _ (by simp)

theorem eventLen_mid (e : InotifyEvent) (pre post : Bytes) :
    eventLen (pre ++ (e.bytes ++ post)) pre.length = .done e.name.length := by
  simp only [InotifyEvent.bytes, List.append_assoc]
  rw [← List.append_assoc pre, ← List.append_assoc (pre ++ _), ← List.append_assoc (pre ++ _ ++ _)]
  exact Block.loadWord_mid _ e.len_lt _ (by simp)

/-- The name, where there is one. -/
theorem eventName_mid (hname : e.name ≠ []) (pre post : Bytes) :
    eventName (pre ++ (e.bytes ++ post)) pre.length = .done e.text := by
  obtain ⟨s, v, hs, hnul⟩ := List.eq_append_cons_of_mem (e.terminated hname)
  -- the name stands behind the header
  obtain ⟨head, hhead, hlen⟩ : ∃ head, e.bytes = head ++ e.name ∧ head.length = EVENT_SIZE :=
    ⟨Block.wordBytes e.wd ++ Block.wordBytes e.mask ++ Block.wordBytes e.cookie ++
      Block.wordBytes e.name.length, by simp [InotifyEvent.bytes], rfl⟩
  have hbuf : pre ++ (e.bytes ++ post) = (pre ++ head) ++ (s ++ 0 :: (v ++ post)) := by
    rw [hhead, hs]
    simp
  have hpos : (pre.length : ℤ) + EVENT_SIZE = ((pre ++ head).length : ℕ) := by
    rw [List.length_append, hlen]
    push_cast
    rfl
  rw [eventName, Checked.bind_eq, hbuf, hpos, Block.text_mid _ hnul, InotifyEvent.text, hs,
    Block.takeWhile_text hnul]
  rfl

/-- **Where an event begins**, the loop reads that event. -/
theorem visitAt_event (e : InotifyEvent) (pre post : Bytes) :
    visitAt (pre ++ (e.bytes ++ post)) pre.length = .done ⟨pre.length, e.wd, e.mask, e.text⟩ := by
  rw [visitAt]
  simp only [Checked.bind_eq]
  rw [eventWd_mid, Checked.done_bind, eventMask_mid, Checked.done_bind, eventLen_mid,
    Checked.done_bind]
  by_cases hname : e.name = []
  · rw [if_pos (by rw [hname]; rfl), InotifyEvent.text, hname]
    rfl
  · rw [if_neg (by simpa using hname), eventName_mid hname]
    rfl

theorem length_bytes (e : InotifyEvent) : e.bytes.length = EVENT_SIZE + e.name.length := by
  simp [InotifyEvent.bytes, EVENT_SIZE]
  omega

theorem visitsOf_append (n : ℕ) (es fs : List InotifyEvent) :
    visitsOf n (es ++ fs) =
      visitsOf n es ++ visitsOf (n + (es.flatMap InotifyEvent.bytes).length) fs := by
  induction es generalizing n with
  | nil => rfl
  | cons e es ih =>
    rw [List.cons_append, visitsOf, ih, visitsOf, List.flatMap_cons, List.length_append,
      Nat.add_assoc]
    rfl

end Reading

/-! ### The thread between two events -/

/-- The thread handles an event, or scans the tree at the start. -/
def MonitorPc.Busy : MonitorPc → Prop
  | .dirs _ _ _ => True
  | .files _ _ _ => True
  | .check => True
  | _ => False

section Thread

variable {root : Path} {mg : MonitorGroup} {s s' : MonitorState root}

/-- The other processes do not move the thread. -/
theorem renameFree_pc {p q : Path} {n m : Name} (h : s.renameFree p n q m = some s') :
    s'.pc = s.pc := by
  unfold MonitorState.renameFree at h
  split at h
  · cases h
    rfl
  · cases h

theorem rename_pc {p q : Path} {n m : Name} (h : s.rename p n q m = some s') : s'.pc = s.pc := by
  unfold MonitorState.rename at h
  split at h
  · exact renameFree_pc h
  · split at h
    · obtain ⟨t, ht, h⟩ := Option.bind_eq_some_iff.mp h
      rw [renameFree_pc h]
      unfold MonitorState.replaced at ht
      split at ht
      · dsimp only at ht
        split at ht <;> cases ht <;> rfl
      · cases ht
    · cases h

/-- A scan goes on, ends at the test of the run signal, or exits. -/
theorem busy_of_move (h : ThreadMove mg s s') (hbusy : s.pc.Busy) (hcheck : s.pc ≠ .check) :
    s'.pc.Busy ∨ s'.pc = .exited := by
  cases h with
  | exit _ => exact Or.inr rfl
  | idle hpc h =>
    rw [hpc] at hbusy hcheck
    cases h with
    | stop => exact hbusy.elim
    | empty _ => exact hbusy.elim
    | goOn => exact absurd rfl hcheck
    | leave => exact absurd rfl hcheck
  | watch _ _ => exact Or.inl trivial
  | dirsOpen _ _ => exact Or.inl trivial
  | dirsName _ _ => exact Or.inl trivial
  | dirsEnd _ _ => dsimp only; split <;> exact Or.inl trivial
  | dirsTest _ => exact Or.inl trivial
  | filesOpen _ _ _ => exact Or.inl trivial
  | filesName _ _ => exact Or.inl trivial
  | filesEnd _ _ => dsimp only; split <;> exact Or.inl trivial
  | fileFound _ _ => exact Or.inl trivial
  | noFile _ _ => exact Or.inl trivial
  | filesTest _ => exact Or.inl trivial
  | read hpc _ => rw [hpc] at hbusy; exact hbusy.elim
  | nameless hpc _ _ => rw [hpc] at hbusy; exact hbusy.elim
  | otherType hpc _ _ _ _ _ => rw [hpc] at hbusy; exact hbusy.elim
  | newFile hpc _ _ _ _ _ => exact Or.inl trivial
  | newDir hpc _ _ _ _ => exact Or.inl trivial
  | oldDir hpc _ _ _ => exact Or.inl trivial
  | nothing hpc _ _ _ _ _ => exact Or.inl trivial

/-- What a step of the thread that is not one of the loop does to its position. -/
theorem threadStep_pc {act : MonitorAct} (h : s.threadStep mg act = some s')
    (hread : ∀ k, act ≠ .read k) (hloop : s.pc ≠ .inner ∧ s.pc ≠ .check) :
    s'.pc = .stopped ∨ s.pc.Busy ∧ (s'.pc.Busy ∨ s'.pc = .exited) := by
  cases hpc : s.pc with
  | dirs top frames pos =>
    have hbusy : s.pc.Busy := by rw [hpc]; trivial
    exact Or.inr ⟨hpc ▸ hbusy, busy_of_move (threadStep_cases h) hbusy hloop.2⟩
  | files top frames pos =>
    have hbusy : s.pc.Busy := by rw [hpc]; trivial
    exact Or.inr ⟨hpc ▸ hbusy, busy_of_move (threadStep_cases h) hbusy hloop.2⟩
  | loop =>
    unfold MonitorState.threadStep at h
    rw [hpc] at h
    cases act with
    | monitor =>
      dsimp only at h
      split at h <;> cases h
      exact Or.inl rfl
    | read k => exact absurd rfl (hread k)
    | _ => cases h
  | inner => exact absurd hpc hloop.1
  | check => exact absurd hpc hloop.2
  | exited => unfold MonitorState.threadStep at h; rw [hpc] at h; cases h
  | stopped => unfold MonitorState.threadStep at h; rw [hpc] at h; cases h

/-- What a step that is not one of the loop does to the position of the thread. -/
theorem step_pc {act : MonitorAct} (h : s.step mg act = some s') (hread : ∀ k, act ≠ .read k)
    (hloop : act = .monitor → s.pc ≠ .inner ∧ s.pc ≠ .check) :
    s'.pc = s.pc ∨ s'.pc = .stopped ∨ s.pc.Busy ∧ (s'.pc.Busy ∨ s'.pc = .exited) := by
  -- the other processes leave the thread where it is
  cases act with
  | mkdir p n =>
    refine Or.inl ?_
    simp only [MonitorState.step, MonitorState.mkdir] at h
    split at h <;> cases h
    rfl
  | create p n =>
    refine Or.inl ?_
    simp only [MonitorState.step, MonitorState.create] at h
    split at h <;> cases h
    rfl
  | unlink p n =>
    refine Or.inl ?_
    simp only [MonitorState.step, MonitorState.unlink] at h
    split at h <;> cases h
    rfl
  | rmdir p n =>
    refine Or.inl ?_
    simp only [MonitorState.step, MonitorState.rmdir] at h
    split at h
    · split at h <;> cases h
      rfl
    · cases h
  | rename p n q m => exact Or.inl (rename_pc h)
  | signal =>
    cases h
    exact Or.inl rfl
  | read k => exact absurd rfl (hread k)
  | monitor => exact Or.inr (threadStep_pc h hread (hloop rfl))
  | readdir n =>
    have hno : s.pc ≠ .inner ∧ s.pc ≠ .check := by
      constructor <;>
      · intro hpc
        unfold MonitorState.step MonitorState.threadStep at h
        rw [hpc] at h
        cases h
    exact Or.inr (threadStep_pc h hread hno)

end Thread

/-! ### The loop on a buffer of events -/

section Loop

variable {root : Path} {mg : MonitorGroup} {x x' : LoopState root} {e : InotifyEvent}
  {pre post : Bytes}

/-- What the loop does with an event: it is at the next one, or it still has to advance. -/
inductive Handled (x : LoopState root) (e : InotifyEvent) (x' : LoopState root) : Prop
  | next (hpc : x'.thread.pc = .inner) (hoff : x'.offset = x.offset + e.bytes.length)
  | busy (hpc : x'.thread.pc.Busy) (hoff : x'.offset = x.offset)

/-- A computation with a value. -/
theorem value_bind {α β : Type} {c : Checked α} {f : α → Checked β} {y : β}
    (h : (c.bind f).value = some y) : ∃ a, c = .done a ∧ (f a).value = some y := by
  cases c with
  | done a => exact ⟨a, rfl, h⟩
  | failed => cases h
  | outside => cases h

/-- What is done with an event leaves the buffer and the place of the event. -/
theorem handle_vars (x : LoopState root) (mg : MonitorGroup) (wd mask len : ℕ) (name : CString) :
    (x.handle mg wd mask len name).buffer = x.buffer ∧
      (x.handle mg wd mask len name).event = x.event := by
  unfold LoopState.handle
  dsimp only
  split
  · split <;> exact ⟨rfl, rfl⟩
  · split
    · split
      · exact ⟨rfl, rfl⟩
      · split <;> exact ⟨rfl, rfl⟩
    · exact ⟨rfl, rfl⟩

/-- The advance is made on the branch that goes on with the loop, and on no other. -/
theorem handle_handled (x : LoopState root) (mg : MonitorGroup) (wd mask : ℕ) (name : CString)
    (hpc : x.thread.pc = .inner) : Handled x e (x.handle mg wd mask e.name.length name) := by
  unfold LoopState.handle
  dsimp only
  split
  · split
    · -- another type
      exact .next hpc (by rw [length_bytes]; rfl)
    · exact .busy trivial rfl
  · split
    · split
      · exact .busy trivial rfl
      · split <;> exact .busy trivial rfl
    · exact .busy trivial rfl

/-- The loop does not write to the buffer. -/
theorem innerAt_buffer (h : (x.innerAt mg).value = some x') : x'.buffer = x.buffer := by
  rw [LoopState.innerAt] at h
  split at h
  · rw [Checked.bind_eq] at h
    obtain ⟨len, -, h⟩ := value_bind h
    split at h
    · cases h
      rfl
    · obtain ⟨wd, -, h⟩ := value_bind h
      obtain ⟨name, -, h⟩ := value_bind h
      obtain ⟨mask, -, h⟩ := value_bind h
      cases h
      exact (handle_vars _ _ _ _ _ _).1
  · cases h
    rfl

theorem checkAt_buffer (h : x.checkAt.value = some x') : x'.buffer = x.buffer := by
  rw [LoopState.checkAt] at h
  split at h
  · cases hevent : x.event with
    | none =>
      rw [hevent] at h
      cases h
      rfl
    | some event =>
      rw [hevent] at h
      obtain ⟨len, -, h⟩ := value_bind h
      cases h
      rfl
  · cases h
    rfl

/-- What a step can do. -/
inductive LoopMove (mg : MonitorGroup) (x : LoopState root) : LoopAct → LoopState root → Prop
  | read {bytes} (hpc : x.thread.pc = .loop) (hrun : x.thread.run = true) :
      LoopMove mg x (.read bytes) { (x.go .inner) with buffer := bytes, offset := 0 }
  | inner {y} (hpc : x.thread.pc = .inner) (h : (x.innerAt mg).value = some y) :
      LoopMove mg x (.other .monitor) y
  | check {y} (hpc : x.thread.pc = .check) (h : x.checkAt.value = some y) :
      LoopMove mg x (.other .monitor) y
  /-- The thread between two steps of the loop, or another process. -/
  | move {act s} (h : x.thread.step mg act = some s) (hread : ∀ k, act ≠ .read k)
      (hloop : act = .monitor → x.thread.pc ≠ .inner ∧ x.thread.pc ≠ .check) :
      LoopMove mg x (.other act) { x with thread := s }

theorem LoopState.step_cases {a : LoopAct} (h : x.step mg a = some x') : LoopMove mg x a x' := by
  unfold LoopState.step at h
  cases a with
  | read bytes =>
    dsimp only at h
    split at h
    · next hpc =>
      split at h
      · next hread =>
        cases h
        exact .read hpc hread.1
      · cases h
    · cases h
  | other act =>
    dsimp only at h
    split at h
    · next hpc => exact .inner hpc h
    · next hpc => exact .check hpc h
    · cases h
    · next act _ _ hread hinner hcheck =>
      obtain ⟨s, hs, rfl⟩ := Option.map_eq_some_iff.mp h
      exact .move hs hread fun hact => ⟨fun hpc => hinner hpc hact, fun hpc => hcheck hpc hact⟩

/-- What the loop does at an event. -/
theorem innerAt_eq (hbuf : x.buffer = pre ++ (e.bytes ++ post)) (hoff : x.offset = pre.length) :
    ∃ x', x.innerAt mg = .done x' ∧
      (e.name = [] → x' = { x with event := some x.offset }.advance e.name.length) ∧
      (e.name ≠ [] → x' =
        { x with event := some x.offset }.handle mg e.wd e.mask e.name.length e.text) := by
  have hlt : x.offset < x.buffer.length := by
    rw [hbuf, hoff, List.length_append, List.length_append, length_bytes, EVENT_SIZE]
    omega
  have hlen : eventLen x.buffer x.offset = .done e.name.length := by
    rw [hbuf, hoff]
    exact eventLen_mid e pre post
  have hwd : eventWd x.buffer x.offset = .done e.wd := by
    rw [hbuf, hoff]
    exact eventWd_mid e pre post
  have hmask : eventMask x.buffer x.offset = .done e.mask := by
    rw [hbuf, hoff]
    exact eventMask_mid e pre post
  rw [LoopState.innerAt, if_pos hlt, Checked.bind_eq, hlen, Checked.done_bind]
  by_cases hname : e.name = []
  · rw [if_pos (by rw [hname]; rfl)]
    exact ⟨_, rfl, fun _ => rfl, fun h => absurd hname h⟩
  · have htext : eventName x.buffer x.offset = .done e.text := by
      rw [hbuf, hoff]
      exact eventName_mid hname pre post
    rw [if_neg (by simpa using hname), Checked.bind_eq, hwd, Checked.done_bind, Checked.bind_eq,
      htext, Checked.done_bind, Checked.bind_eq, hmask, Checked.done_bind]
    exact ⟨_, rfl, fun h => absurd h hname, fun _ => rfl⟩

/-- **An event at the offset** is handled, on every branch. -/
theorem innerAt_event (hbuf : x.buffer = pre ++ (e.bytes ++ post)) (hoff : x.offset = pre.length)
    (hpc : x.thread.pc = .inner) :
    ∃ x', x.innerAt mg = .done x' ∧ x'.buffer = x.buffer ∧ x'.event = some x.offset ∧
      Handled x e x' := by
  obtain ⟨x', hx', hempty, hnamed⟩ := @innerAt_eq root mg x e pre post hbuf hoff
  refine ⟨x', hx', ?_⟩
  by_cases hname : e.name = []
  · obtain rfl := hempty hname
    exact ⟨rfl, rfl, .next hpc (by rw [length_bytes]; rfl)⟩
  · obtain rfl := hnamed hname
    refine ⟨(handle_vars _ _ _ _ _ _).1, (handle_vars _ _ _ _ _ _).2, ?_⟩
    cases @handle_handled root e { x with event := some x.offset } mg e.wd e.mask e.text hpc with
    | next h₁ h₂ => exact .next h₁ h₂
    | busy h₁ h₂ => exact .busy h₁ h₂

/-- The bytes are the ones of the event `a`. -/
structure InotifyEvent.Shows (e : InotifyEvent) (a : Event) : Prop where
  wd_eq : e.wd = a.wd
  appears : (e.mask &&& IN_CREATE ≠ 0 ∨ e.mask &&& IN_MOVED_TO ≠ 0) ↔ a.kind.appears = true
  vanishes : (e.mask &&& IN_DELETE ≠ 0 ∨ e.mask &&& IN_DELETE_SELF ≠ 0 ∨
    e.mask &&& IN_MOVED_FROM ≠ 0) ↔ a.kind.vanishes = true
  isDir : e.mask &&& IN_ISDIR ≠ 0 ↔ a.isDir = true
  name_nil : e.name = [] ↔ a.name = none
  text_eq {n : Name} : a.name = some n → e.text = n.1

theorem queueNodeAdd_buffer (s : MonitorState root) (mg : MonitorGroup) (wd : ℕ) (m : Path)
    (as bs : List Event) :
    { ({ s with buffer := as } : MonitorState root).queueNodeAdd mg wd m with
        buffer := bs, pc := .check } =
      ({ s.queueNodeAdd mg wd m with buffer := bs, pc := .check } : MonitorState root) := by
  unfold MonitorState.queueNodeAdd
  split <;> rfl

theorem delMonitorDir_buffer (s : MonitorState root) (m : Path) (as bs : List Event) :
    { ({ s with buffer := as } : MonitorState root).delMonitorDir m with
        buffer := bs, pc := .check } =
      ({ s.delMonitorDir m with buffer := bs, pc := .check } : MonitorState root) := by
  unfold MonitorState.delMonitorDir
  dsimp only
  cases delNode s.wdList m <;> rfl

/-- **The loop on the bytes** does with an event what `innerStep` does with it in the list
of the events. -/
theorem LoopState.innerAt_refines {a : Event} (hbuf : x.buffer = pre ++ (e.bytes ++ post))
    (hoff : x.offset = pre.length) (ha : e.Shows a) (as : List Event) :
    ∃ x', x.innerAt mg = .done x' ∧
      ({ x.thread with buffer := a :: as } : MonitorState root).innerStep mg =
        { x'.thread with buffer := as } := by
  obtain ⟨x', hx', hcase⟩ := @innerAt_eq root mg x e pre post hbuf hoff
  refine ⟨x', hx', ?_⟩
  unfold MonitorState.innerStep
  dsimp only
  cases hn : a.name with
  | none =>
    obtain rfl := hcase.1 (ha.name_nil.mpr hn)
    rfl
  | some n =>
    have hname : e.name ≠ [] := fun h => by
      rw [ha.name_nil.mp h] at hn
      cases hn
    obtain rfl := hcase.2 hname
    have hpath : eventPath x.thread.wdList a.wd n = snprintf NEWIUP_PATH_LEN
        ((getWdPathByWd x.thread.wdList a.wd).getD nullString ++ '/' :: e.text) := by
      rw [eventPath, child, ha.text_eq hn]
    dsimp only
    unfold LoopState.handle
    dsimp only
    simp only [ha.appears, ha.vanishes, ha.isDir, ha.wd_eq, ← hpath, Event.adds, Event.drops,
      Bool.and_eq_true]
    -- the branches of the two loops stand side by side
    by_cases hfile : (x.thread.tree.entry (eventPath x.thread.wdList a.wd n)).map Entry.isDir =
        some false ∧ a.kind.appears = true
    · rw [if_pos hfile, if_pos hfile]
      by_cases htype : isMonitorType (eventPath x.thread.wdList a.wd n) mg.monitorFileType ≠
          NEWIUP_OK
      · rw [if_pos htype, if_pos htype]
        rfl
      · rw [if_neg htype, if_neg htype]
        exact queueNodeAdd_buffer _ _ _ _ _ _
    · rw [if_neg hfile, if_neg hfile]
      by_cases hdir : a.isDir = true
      · rw [if_pos hdir]
        by_cases happ : a.kind.appears = true
        · rw [if_pos happ, if_pos ⟨hdir, happ⟩]
          rfl
        · rw [if_neg happ, if_neg fun h => happ h.2]
          by_cases hvan : a.kind.vanishes = true
          · rw [if_pos hvan, if_pos ⟨hdir, hvan⟩]
            exact delMonitorDir_buffer _ _ _ _
          · rw [if_neg hvan, if_neg fun h => hvan h.2]
            rfl
      · rw [if_neg hdir, if_neg fun h => hdir h.1, if_neg fun h => hdir h.1]
        rfl

/-- How far the loop is in the events `es`, and which of them it has looked at. -/
inductive Progress (es : List InotifyEvent) (x : LoopState root) (visits : List Visit) : Prop
  /-- It is in front of the events `todo`. -/
  | next {done todo} (hpc : x.thread.pc = .inner) (hes : es = done ++ todo)
      (hv : visits = visitsOf 0 done) (hoff : x.offset = (done.flatMap InotifyEvent.bytes).length)
  /-- It has handled the event `e`, and has not advanced. -/
  | busy {done e todo} (hpc : x.thread.pc.Busy) (hes : es = done ++ e :: todo)
      (hv : visits = visitsOf 0 (done ++ [e]))
      (hoff : x.offset = (done.flatMap InotifyEvent.bytes).length)
      (hevent : x.event = some x.offset)
  /-- Nothing has been read yet. -/
  | first (hpc : x.thread.pc.Busy) (hes : es = []) (hv : visits = []) (hoff : x.offset = 0)
      (hevent : x.event = none)
  /-- It has been left. -/
  | left (hpc : x.thread.pc = .loop) (hv : visits = visitsOf 0 es)
      (hoff : x.offset = x.buffer.length)
  /-- The thread has ended. -/
  | ended (hpc : x.thread.pc = .exited ∨ x.thread.pc = .stopped) (hv : visits <+: visitsOf 0 es)

variable {es : List InotifyEvent} {visits : List Visit}

theorem visitsOf_concat (done : List InotifyEvent) (e : InotifyEvent) :
    visitsOf 0 (done ++ [e]) = visitsOf 0 done ++
      [⟨(done.flatMap InotifyEvent.bytes).length, e.wd, e.mask, e.text⟩] := by
  rw [visitsOf_append, Nat.zero_add]
  rfl

/-- The first events of a buffer. -/
theorem visitsOf_prefix (done todo : List InotifyEvent) :
    visitsOf 0 done <+: visitsOf 0 (done ++ todo) := by
  rw [visitsOf_append]
  exact List.prefix_append _ _

/-- The events that have been looked at are the first ones. -/
theorem Progress.begun (h : Progress es x visits) : visits <+: visitsOf 0 es := by
  cases h with
  | next _ hes hv _ =>
    rw [hv, hes]
    exact visitsOf_prefix _ _
  | @busy done e todo _ hes hv _ _ =>
    have hsplit : es = (done ++ [e]) ++ todo := by rw [hes]; simp
    rw [hv, hsplit]
    exact visitsOf_prefix _ _
  | first _ _ hv _ _ =>
    rw [hv]
    exact List.nil_prefix
  | left _ hv _ => exact hv ▸ List.prefix_rfl
  | ended _ hv => exact hv

theorem length_visitsOf (n : ℕ) (es : List InotifyEvent) : (visitsOf n es).length = es.length := by
  induction es generalizing n with
  | nil => rfl
  | cons e es ih => rw [visitsOf, List.length_cons, ih, List.length_cons]

/-- The record is no longer than the events. -/
theorem Progress.length_le (h : Progress es x visits) : visits.length ≤ es.length := by
  have hle := h.begun.length_le
  rwa [length_visitsOf] at hle

theorem stepsLeft_inner (hpc : x.thread.pc = .inner) :
    x.stepsLeft es visits = 2 * (es.length - visits.length) + 1 := by
  rw [LoopState.stepsLeft, hpc]

theorem stepsLeft_loop (hpc : x.thread.pc = .loop) :
    x.stepsLeft es visits = 2 * (es.length - visits.length) := by
  rw [LoopState.stepsLeft, hpc]
  rfl

theorem stepsLeft_busy (hpc : x.thread.pc.Busy) :
    x.stepsLeft es visits = 2 * (es.length - visits.length) + 2 := by
  unfold LoopState.stepsLeft
  cases h : x.thread.pc with
  | dirs _ _ _ => rfl
  | files _ _ _ => rfl
  | check => rfl
  | loop => rw [h] at hpc; exact hpc.elim
  | inner => rw [h] at hpc; exact hpc.elim
  | exited => rw [h] at hpc; exact hpc.elim
  | stopped => rw [h] at hpc; exact hpc.elim

theorem stepsLeft_ended (hpc : x.thread.pc = .exited ∨ x.thread.pc = .stopped) :
    x.stepsLeft es visits = 2 * (es.length - visits.length) := by
  rcases hpc with hpc | hpc <;>
  · rw [LoopState.stepsLeft, hpc]
    rfl

/-- What a step of the loop comes to: it is as far as its record, and nearer to its end. -/
structure Nearer (es : List InotifyEvent) (x : LoopState root) (visits : List Visit)
    (x' : LoopState root) (visits' : List Visit) : Prop where
  buffer_eq : x'.buffer = x.buffer
  progress : Progress es x' visits'
  stepsLeft_lt : x'.stepsLeft es visits' < x.stepsLeft es visits

/-- The loop looks at the next event, or is at the end of the buffer. -/
theorem Progress.inner (h : Progress es x visits) (mg : MonitorGroup)
    (hbuf : x.buffer = es.flatMap InotifyEvent.bytes) (hpc : x.thread.pc = .inner) :
    ∃ x', x.innerAt mg = .done x' ∧
      Nearer es x visits x' (noteVisit visits x (.other .monitor)) := by
  have hleft : x.stepsLeft es visits = 2 * (es.length - visits.length) + 1 := stepsLeft_inner hpc
  have hnote : noteVisit visits x (.other .monitor) =
      if x.offset < x.buffer.length then
        (visitAt x.buffer x.offset).value.elim visits fun v => visits ++ [v]
      else visits := by
    unfold noteVisit
    rw [hpc]
  cases h with
  | @next done todo _ hes hv hoff =>
    cases todo with
    | nil =>
      -- the end of the buffer
      have hend : x.offset = x.buffer.length := by rw [hoff, hbuf, hes, List.append_nil]
      have hlt : ¬x.offset < x.buffer.length := by omega
      rw [hnote, if_neg hlt, LoopState.innerAt, if_neg hlt]
      refine ⟨_, rfl, rfl, .left rfl (by rw [hv, hes, List.append_nil]) hend, ?_⟩
      rw [hleft, stepsLeft_loop rfl]
      omega
    | cons e todo =>
      have hmid : x.buffer = done.flatMap InotifyEvent.bytes ++
          (e.bytes ++ todo.flatMap InotifyEvent.bytes) := by
        rw [hbuf, hes, List.flatMap_append, List.flatMap_cons]
      have hlt : x.offset < x.buffer.length := by
        rw [hmid, hoff, List.length_append, List.length_append, length_bytes, EVENT_SIZE]
        omega
      have hvisit : visitAt x.buffer x.offset = .done ⟨x.offset, e.wd, e.mask, e.text⟩ := by
        rw [hmid, hoff]
        exact visitAt_event e _ _
      have hnew : visits ++ [⟨x.offset, e.wd, e.mask, e.text⟩] = visitsOf 0 (done ++ [e]) := by
        rw [visitsOf_concat, hv, hoff]
      have hmore : (visits ++ [(⟨x.offset, e.wd, e.mask, e.text⟩ : Visit)]).length =
          visits.length + 1 := List.length_append
      obtain ⟨x', hx', hbuf', hevent, hh⟩ := innerAt_event hmid hoff hpc
      rw [hnote, if_pos hlt, hvisit]
      refine ⟨x', hx', ?_⟩
      cases hh with
      | next hpc' hoff' =>
        have hsplit : es = (done ++ [e]) ++ todo := by rw [hes]; simp
        have hp : Progress es x' (visits ++ [⟨x.offset, e.wd, e.mask, e.text⟩]) := by
          refine .next hpc' hsplit hnew ?_
          rw [hoff', hoff, List.flatMap_append, List.length_append, List.flatMap_singleton]
        refine ⟨hbuf', hp, ?_⟩
        have hle := hp.length_le
        rw [Checked.value, Option.elim, hleft, stepsLeft_inner hpc']
        omega
      | busy hpc' hoff' =>
        have hp : Progress es x' (visits ++ [⟨x.offset, e.wd, e.mask, e.text⟩]) :=
          .busy hpc' hes hnew (hoff'.trans hoff) (by rw [hevent, hoff'])
        refine ⟨hbuf', hp, ?_⟩
        have hle := hp.length_le
        rw [Checked.value, Option.elim, hleft, stepsLeft_busy hpc']
        omega
  | busy hbusy _ _ _ _ => rw [hpc] at hbusy; exact hbusy.elim
  | first hbusy _ _ _ _ => rw [hpc] at hbusy; exact hbusy.elim
  | left hleft _ _ => rw [hpc] at hleft; cases hleft
  | ended hend _ => rw [hpc] at hend; rcases hend with h | h <;> cases h

/-- The test of the run signal, and the advance. -/
theorem Progress.check (h : Progress es x visits) (hbuf : x.buffer = es.flatMap InotifyEvent.bytes)
    (hpc : x.thread.pc = .check) : ∃ x', x.checkAt = .done x' ∧ Nearer es x visits x' visits := by
  have hbegun := h.begun
  have hleft : x.stepsLeft es visits = 2 * (es.length - visits.length) + 2 :=
    stepsLeft_busy (by rw [hpc]; trivial)
  cases hrun : x.thread.run with
  | false =>
    rw [LoopState.checkAt, hrun]
    refine ⟨_, rfl, rfl, .ended (Or.inr rfl) hbegun, ?_⟩
    rw [hleft, stepsLeft_ended (Or.inr rfl)]
    omega
  | true =>
    rw [LoopState.checkAt, hrun, if_pos rfl]
    cases h with
    | next hinner _ _ _ => rw [hpc] at hinner; cases hinner
    | @busy done e todo _ hes hv hoff hevent =>
      -- `event` still points at the event that has been handled, and the buffer is unchanged
      have hlen : eventLen x.buffer x.offset = .done e.name.length := by
        rw [hbuf, hes, List.flatMap_append, List.flatMap_cons, hoff]
        exact eventLen_mid e _ _
      rw [hevent, Option.elim, Checked.bind_eq, hlen, Checked.done_bind]
      have hsplit : es = (done ++ [e]) ++ todo := by rw [hes]; simp
      refine ⟨_, rfl, rfl, .next rfl hsplit hv ?_, ?_⟩
      · rw [List.flatMap_append, List.length_append, List.flatMap_singleton, ← hoff, length_bytes]
        rfl
      · rw [hleft, stepsLeft_inner rfl]
        omega
    | first _ hes hv hoff hevent =>
      -- the test of the outer loop, after the scan at the start
      rw [hevent]
      refine ⟨_, rfl, rfl, .left rfl (by rw [hv, hes]; rfl) ?_, ?_⟩
      · show x.offset = x.buffer.length
        rw [hoff, hbuf, hes]
        rfl
      · rw [hleft, stepsLeft_loop rfl]
        omega
    | left hleft _ _ => rw [hpc] at hleft; cases hleft
    | ended hend _ => rw [hpc] at hend; rcases hend with h | h <;> cases h

/-- The steps between two events keep the place in the buffer. -/
theorem Progress.move {s : MonitorState root} (h : Progress es x visits)
    (hmove : s.pc = x.thread.pc ∨ s.pc = .stopped ∨
      x.thread.pc.Busy ∧ (s.pc.Busy ∨ s.pc = .exited)) :
    Progress es { x with thread := s } visits := by
  have hbegun := h.begun
  rcases hmove with hsame | hstop | ⟨hbusy, hbusy' | hexit⟩
  · cases h with
    | next hpc hes hv hoff => exact .next (hsame.trans hpc) hes hv hoff
    | busy hpc hes hv hoff hevent => exact .busy (hsame ▸ hpc) hes hv hoff hevent
    | first hpc hes hv hoff hevent => exact .first (hsame ▸ hpc) hes hv hoff hevent
    | left hpc hv hoff => exact .left (hsame.trans hpc) hv hoff
    | ended hpc hv => exact .ended (hsame ▸ hpc) hv
  · exact .ended (Or.inr hstop) hbegun
  · cases h with
    | next hpc _ _ _ => rw [hpc] at hbusy; exact hbusy.elim
    | busy _ hes hv hoff hevent => exact .busy hbusy' hes hv hoff hevent
    | first _ hes hv hoff hevent => exact .first hbusy' hes hv hoff hevent
    | left hpc _ _ => rw [hpc] at hbusy; exact hbusy.elim
    | ended hpc _ => rcases hpc with hpc | hpc <;> (rw [hpc] at hbusy; exact hbusy.elim)
  · exact .ended (Or.inl hexit) hbegun

/-- The steps between two events take the loop no step away from its end. -/
theorem stepsLeft_move {s : MonitorState root}
    (hmove : s.pc = x.thread.pc ∨ s.pc = .stopped ∨
      x.thread.pc.Busy ∧ (s.pc.Busy ∨ s.pc = .exited)) :
    ({ x with thread := s } : LoopState root).stepsLeft es visits ≤ x.stepsLeft es visits := by
  have hrest : 2 * (es.length - visits.length) ≤ x.stepsLeft es visits := by
    unfold LoopState.stepsLeft
    omega
  rcases hmove with hsame | hstop | ⟨hbusy, hbusy' | hexit⟩
  · rw [LoopState.stepsLeft, LoopState.stepsLeft, hsame]
  · rw [stepsLeft_ended (Or.inr hstop)]
    exact hrest
  · rw [stepsLeft_busy hbusy, stepsLeft_busy hbusy']
  · rw [stepsLeft_ended (Or.inl hexit)]
    exact hrest

/-- The record is not written between two steps of the loop. -/
theorem noteVisit_move {act : MonitorAct}
    (hloop : act = .monitor → x.thread.pc ≠ .inner ∧ x.thread.pc ≠ .check) :
    noteVisit visits x (.other act) = visits := by
  unfold noteVisit
  dsimp only
  split
  · next hpc => exact absurd hpc (hloop rfl).1
  · rfl

theorem ownSteps_move {act : MonitorAct}
    (hloop : act = .monitor → x.thread.pc ≠ .inner ∧ x.thread.pc ≠ .check) :
    x.ownSteps act = 0 := by
  unfold LoopState.ownSteps
  split
  · next hpc => exact absurd hpc (hloop rfl).1
  · next hpc => exact absurd hpc (hloop rfl).2
  · rfl

theorem ownSteps_monitor (hpc : x.thread.pc = .inner ∨ x.thread.pc = .check) :
    x.ownSteps .monitor = 1 := by
  unfold LoopState.ownSteps
  rcases hpc with hpc | hpc <;> rw [hpc]

theorem noteVisit_check (hpc : x.thread.pc = .check) :
    noteVisit visits x (.other .monitor) = visits := by
  unfold noteVisit
  rw [hpc]

/-- **What a step keeps**: on a buffer of events the loop is as far as its record. -/
theorem Progress.step {a : LoopAct}
    (h : ∀ es, x.buffer = es.flatMap InotifyEvent.bytes → Progress es x visits)
    (hs : x.step mg a = some x') (hbuf : x'.buffer = es.flatMap InotifyEvent.bytes) :
    Progress es x' (noteVisit visits x a) := by
  cases LoopState.step_cases hs with
  | read _ _ => exact .next rfl (List.nil_append es).symm rfl rfl
  | inner hpc hv =>
    have hx : x.buffer = es.flatMap InotifyEvent.bytes := (innerAt_buffer hv).symm.trans hbuf
    obtain ⟨y, hy, hn⟩ := (h es hx).inner mg hx hpc
    rw [hy] at hv
    cases hv
    exact hn.progress
  | check hpc hv =>
    have hx : x.buffer = es.flatMap InotifyEvent.bytes := (checkAt_buffer hv).symm.trans hbuf
    obtain ⟨y, hy, hn⟩ := (h es hx).check hx hpc
    rw [hy] at hv
    cases hv
    rw [noteVisit_check hpc]
    exact hn.progress
  | move ht hread hloop =>
    -- a scan, or another process: neither the offset nor the buffer is touched
    rw [noteVisit_move hloop]
    exact (h es hbuf).move (step_pc ht hread hloop)

/-- **The loop ends**: its own steps are limited, and the others do not add to them. -/
theorem Progress.ends (h : Progress es x visits) (hbuf : x.buffer = es.flatMap InotifyEvent.bytes)
    {act : MonitorAct} (hs : x.step mg (.other act) = some x') :
    x'.stepsLeft es (noteVisit visits x (.other act)) + x.ownSteps act ≤ x.stepsLeft es visits := by
  cases LoopState.step_cases hs with
  | inner hpc hv =>
    obtain ⟨y, hy, hn⟩ := h.inner mg hbuf hpc
    rw [hy] at hv
    cases hv
    rw [ownSteps_monitor (Or.inl hpc)]
    exact hn.stepsLeft_lt
  | check hpc hv =>
    obtain ⟨y, hy, hn⟩ := h.check hbuf hpc
    rw [hy] at hv
    cases hv
    rw [noteVisit_check hpc, ownSteps_monitor (Or.inr hpc)]
    exact hn.stepsLeft_lt
  | move ht hread hloop =>
    rw [noteVisit_move hloop, ownSteps_move hloop]
    exact stepsLeft_move (step_pc ht hread hloop)

/-- **Every event of a read is handled once**, in every run of the thread.  The events differ
in length, and the offsets that the loop comes to are compared with those at which the kernel
has begun an event. -/
theorem events_handled_once (root : Path) (mg : MonitorGroup) (x : LoopState root)
    (visits : List Visit) (es : List InotifyEvent)
    (h : (loopSystem root mg).Reach (fun _ _ => True) (x, visits))
    (hbuf : x.buffer = es.flatMap InotifyEvent.bytes) : HandlesEach mg es x visits := by
  have hinv : ∀ es, x.buffer = es.flatMap InotifyEvent.bytes → Progress es x visits := by
    refine h.invariant (I := fun y => ∀ es, y.1.buffer = es.flatMap InotifyEvent.bytes →
      Progress es y.1 y.2) ?_ ?_
    · rintro ⟨y, v⟩ ⟨⟨tree, rfl⟩, rfl⟩ es hes
      -- the buffer is empty, and an event is not
      have hnil : es = [] := by
        cases es with
        | nil => rfl
        | cons e es =>
          have hlen := congrArg List.length hes
          rw [List.flatMap_cons, List.length_append, length_bytes, EVENT_SIZE] at hlen
          simp only [List.length_nil] at hlen
          omega
      exact .first trivial hnil rfl rfl rfl
    · rintro ⟨y, v⟩ a ⟨y', v'⟩ - hy - hs es hes
      obtain ⟨z, hz, he⟩ := Option.map_eq_some_iff.mp hs
      cases he
      exact Progress.step hy hz hes
  have hp := hinv es hbuf
  refine ⟨hp.begun, ?_, hp.ends hbuf, ?_⟩
  · rintro (hpc | hpc)
    · obtain ⟨x', hx', -⟩ := hp.inner mg hbuf hpc
      unfold LoopState.step
      rw [hpc]
      dsimp only
      rw [hx']
      rfl
    · obtain ⟨x', hx', -⟩ := hp.check hbuf hpc
      unfold LoopState.step
      rw [hpc]
      dsimp only
      rw [hx']
      rfl
  · intro hpc
    cases hp with
    | next h _ _ _ => rw [hpc] at h; cases h
    | busy h _ _ _ _ => rw [hpc] at h; exact h.elim
    | first h _ _ _ _ => rw [hpc] at h; exact h.elim
    | left _ hv hoff => exact ⟨hv, hoff⟩
    | ended h _ => rw [hpc] at h; rcases h with h | h <;> cases h

/-- An event without a name, and one of the new file `a.c`. -/
def sampleEvents : List InotifyEvent :=
  [⟨1, IN_DELETE_SELF, 0, [], by decide, by decide, by decide, by decide⟩,
    ⟨1, IN_CREATE, 0, [97, 46, 99, 0], by decide, by decide, by decide, by decide⟩]

theorem sampleName_ok : "a.c".toList ≠ [] ∧ '/' ∉ "a.c".toList := by decide

/-- The scan of an empty directory, a new file, and the loop on the two events. -/
def sampleActs : List LoopAct :=
  [.other .monitor, .other .monitor, .other (.readdir none), .other .monitor,
    .other (.readdir none), .other .monitor, .other (.create "/m".toList ⟨_, sampleName_ok⟩),
    .read (sampleEvents.flatMap InotifyEvent.bytes), .other .monitor, .other .monitor,
    .other .monitor, .other .monitor]

/-- The theorem at a run over the two events. -/
theorem events_handled_once_two :
    ∃ x : LoopState "/m".toList, x.thread.queue.map QueuedFile.src = ["/m/a".toList] ∧
      HandlesEach (moveGroup .cut) sampleEvents x (visitsOf 0 sampleEvents) := by
  have hrun : ((loopSystem "/m".toList (moveGroup .cut)).exec
      (⟨.boot (.base _), [], 0, none⟩, []) sampleActs).map
        (fun y => (y.1.buffer, y.1.thread.queue.map QueuedFile.src, y.2)) =
      some (sampleEvents.flatMap InotifyEvent.bytes, ["/m/a".toList],
        visitsOf 0 sampleEvents) := by decide +kernel
  have hall : (loopSystem "/m".toList (moveGroup .cut)).allowed (fun _ _ => true)
      (⟨.boot (.base _), [], 0, none⟩, []) sampleActs = true := by decide +kernel
  obtain ⟨⟨x, visits⟩, hx, he⟩ := Option.map_eq_some_iff.mp hrun
  simp only [Prod.mk.injEq] at he
  obtain ⟨hbuf, hqueue, rfl⟩ := he
  exact ⟨x, hqueue, events_handled_once _ _ x _ _
    (.of_exec (fun _ _ _ _ => trivial) (.start ⟨⟨_, rfl⟩, rfl⟩) hall hx) hbuf⟩

end Loop
end Newiup
