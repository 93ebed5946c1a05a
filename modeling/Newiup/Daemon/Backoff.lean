import Newiup.Daemon.Available

/-!
# The back-off of a server

The thread of a server counts in `cur_rc` how often the library has failed, compares the
old count with `attempts` and either puts the copy back or records the time of the failure
in `cur_fst`.  The count belongs to the server: the copies come and go as the schedulers
and the queues have it.

## Main definitions

* `PcMove` — where a step takes an upload thread, and what it leaves in `cur_rc`.
* `Attempt`, `Tried`, `handler` — the thread of one server among surroundings that do
  anything but write its `cur_rc`, with the library calls it has made.
* `failures` — the failures since the last success or recorded failure.
* `BackoffRight` — the failures that are recorded are the right ones.

## Main results

* `uploadStep_move` — **the moves of an upload thread.**
* `backoff_counts_failures` — **the back-off counts consecutive failures.**
* `handler_of_daemon` — the daemon is surroundings of this kind.
-/

namespace Newiup

/-! ### The moves of an upload thread -/

/-- A move of an upload thread with `attempts` set to `retry`, where `cur_rc` is `rc` and
the library returns `ret`; the last argument is `cur_rc` after it. -/
inductive PcMove (retry rc ret : ℤ) : UploadPc → UploadPc → ℤ → Prop
  | idle : PcMove retry rc ret .pop .pop rc
  | stop : PcMove retry rc ret .pop .stopped rc
  | pop (c) : PcMove retry rc ret .pop (.avail c) rc
  | unavailable (c) : PcMove retry rc ret (.avail c) (.release c) rc
  | available (c) : PcMove retry rc ret (.avail c) (.availSet c) rc
  | availSet (c) : PcMove retry rc ret (.availSet c) (.checking c) rc
  | missing (c) : PcMove retry rc ret (.checking c) (.release c) rc
  | present (c) : PcMove retry rc ret (.checking c) (.library c) rc
  | succeeded (c) (h : ret = NEWIUP_OK) : PcMove retry rc ret (.library c) (.deleteSrc c) rc
  | failed (c) (h : ret ≠ NEWIUP_OK) : PcMove retry rc ret (.library c) (.failed c) rc
  | deleteSrc (c) : PcMove retry rc ret (.deleteSrc c) (.deleteFlag c) rc
  | deleteFlag (c) : PcMove retry rc ret (.deleteFlag c) (.resetRc c) rc
  | resetRc (c) : PcMove retry rc ret (.resetRc c) (.release c) 0
  | read (c) : PcMove retry rc ret (.failed c) (.failedInc c rc) rc
  | retry (c x) (h : x < retry) : PcMove retry rc ret (.failedInc c x) (.requeue c) (x + 1)
  | record (c x) (h : retry ≤ x) : PcMove retry rc ret (.failedInc c x) (.setFst c) (x + 1)
  | requeue (c) : PcMove retry rc ret (.requeue c) .pop rc
  | setFst (c) : PcMove retry rc ret (.setFst c) (.resetRc c) rc
  | release (c) : PcMove retry rc ret (.release c) (.free c) rc
  | free (c) : PcMove retry rc ret (.free c) .pop rc

/-- What the step of the thread `t` leaves alone: the other threads and servers. -/
structure OwnStep (rs : RealServer) (t : ThreadId) (s s' : State) : Prop where
  upload : ∀ t', t' ≠ t → s'.upload t' = s.upload t'
  curRc : ∀ i, i ≠ rs.index → s'.curRc i = s.curRc i

section Moves

variable {cfg : Config} {rs : RealServer} {t : ThreadId} {ret : ℤ} {sys : Sys} {s s' s₁ : State}
  {pc : UploadPc}

/-- A step that changes the program counter, and no count. -/
theorem OwnStep.setUpload (hu : s₁.upload = s.upload) (hrc : s₁.curRc = s.curRc) :
    OwnStep rs t s (s₁.setUpload t pc) ∧ (s₁.setUpload t pc).upload t = pc ∧
      (s₁.setUpload t pc).curRc rs.index = s.curRc rs.index := by
  refine ⟨⟨fun t' ht => ?_, fun i _ => ?_⟩, State.upload_setUpload_self _ _ _, ?_⟩
  · rw [State.upload_setUpload_of_ne _ _ _ ht, hu]
  · exact congrFun hrc i
  · exact congrFun hrc rs.index

/-- A step that changes the program counter and the count of the server. -/
theorem OwnStep.setCurRc (x : ℤ) :
    OwnStep rs t s ((s.setCurRc rs.index x).setUpload t pc) ∧
      ((s.setCurRc rs.index x).setUpload t pc).upload t = pc ∧
      ((s.setCurRc rs.index x).setUpload t pc).curRc rs.index = x := by
  refine ⟨⟨fun t' ht => ?_, fun i hi => ?_⟩, State.upload_setUpload_self _ _ _, ?_⟩
  · exact State.upload_setUpload_of_ne _ _ _ ht
  · exact Function.update_of_ne hi _ _
  · exact Function.update_self _ _ _

/-- A step to the program counter `pc` that leaves the counts alone. -/
theorem OwnStep.move (hu : s₁.upload = s.upload) (hrc : s₁.curRc = s.curRc)
    (hmove : PcMove rs.retryCount (s.curRc rs.index) ret (s.upload t) pc (s.curRc rs.index)) :
    PcMove rs.retryCount (s.curRc rs.index) ret (s.upload t) ((s₁.setUpload t pc).upload t)
      ((s₁.setUpload t pc).curRc rs.index) ∧ OwnStep rs t s (s₁.setUpload t pc) := by
  have hstep : OwnStep rs t s (s₁.setUpload t pc) ∧ (s₁.setUpload t pc).upload t = pc ∧
      (s₁.setUpload t pc).curRc rs.index = s.curRc rs.index := OwnStep.setUpload hu hrc
  rw [hstep.2.1, hstep.2.2]
  exact ⟨hmove, hstep.1⟩

/-- A step to the program counter `pc` that writes the count. -/
theorem OwnStep.count {x : ℤ}
    (hmove : PcMove rs.retryCount (s.curRc rs.index) ret (s.upload t) pc x) :
    PcMove rs.retryCount (s.curRc rs.index) ret (s.upload t)
      (((s.setCurRc rs.index x).setUpload t pc).upload t)
      (((s.setCurRc rs.index x).setUpload t pc).curRc rs.index) ∧
      OwnStep rs t s ((s.setCurRc rs.index x).setUpload t pc) := by
  have hstep : OwnStep rs t s ((s.setCurRc rs.index x).setUpload t pc) ∧ _ := OwnStep.setCurRc x
  rw [hstep.2.1, hstep.2.2]
  exact ⟨hmove, hstep.1⟩

/-- **The moves of an upload thread.** -/
theorem uploadStep_move (h : uploadStep cfg rs t ret sys s = some s') :
    PcMove rs.retryCount (s.curRc rs.index) ret (s.upload t) (s'.upload t) (s'.curRc rs.index) ∧
      OwnStep rs t s s' := by
  unfold uploadStep at h
  split at h
  · next hpc =>
    -- pop
    split at h
    · split at h
      · cases h
        exact ⟨hpc ▸ .idle, ⟨fun _ _ => rfl, fun _ _ => rfl⟩⟩
      · next c s₁ hpop =>
        cases h
        obtain ⟨cs, n, -, rfl⟩ := queueNodePop_eq_some hpop
        exact OwnStep.move rfl rfl (hpc ▸ .pop c)
    · cases h
      exact OwnStep.move rfl rfl (hpc ▸ .stop)
  · next c hpc =>
    cases h
    refine OwnStep.move rfl rfl ?_
    rw [hpc]
    split
    · exact .unavailable c
    · exact .available c
  · next c hpc =>
    cases h
    exact OwnStep.move rfl rfl (hpc ▸ .availSet c)
  · next c hpc =>
    obtain ⟨o, -, h⟩ := Option.bind_eq_some_iff.mp h
    cases h
    refine OwnStep.move rfl rfl ?_
    rw [hpc]
    split
    · exact .missing c
    · exact .present c
  · next c hpc =>
    simp only [Option.bind_eq_bind, Option.bind_eq_some_iff] at h
    obtain ⟨node, -, o, -, h⟩ := h
    cases h
    refine OwnStep.move rfl rfl ?_
    rw [hpc]
    split
    · next hok => exact .succeeded c hok
    · next hfail => exact .failed c hfail
  · next c hpc =>
    obtain ⟨o, -, h⟩ := Option.bind_eq_some_iff.mp h
    cases h
    exact OwnStep.move rfl rfl (hpc ▸ .deleteSrc c)
  · next c hpc =>
    simp only [Option.bind_eq_bind, Option.bind_eq_some_iff] at h
    obtain ⟨node, -, o, -, mg, -, name, -, h⟩ := h
    cases h
    exact OwnStep.move rfl rfl (hpc ▸ .deleteFlag c)
  · next c hpc =>
    cases h
    exact OwnStep.count (hpc ▸ .resetRc c)
  · next c hpc =>
    cases h
    exact OwnStep.move rfl rfl (hpc ▸ .read c)
  · next c x hpc =>
    cases h
    refine OwnStep.count ?_
    rw [hpc]
    split
    · next hlt => exact .retry c x hlt
    · next hge => exact .record c x (not_lt.mp hge)
  · next c hpc =>
    cases h
    exact OwnStep.move rfl rfl (hpc ▸ .requeue c)
  · next c hpc =>
    cases h
    exact OwnStep.move rfl rfl (hpc ▸ .setFst c)
  · next c hpc =>
    -- release
    simp only [Option.bind_eq_bind, Option.bind_eq_some_iff] at h
    obtain ⟨node, -, s₁, hs₁, h⟩ := h
    cases h
    obtain ⟨heap, rfl⟩ := dropRetain_heap hs₁
    exact OwnStep.move rfl rfl (hpc ▸ .release c)
  · next c hpc =>
    cases h
    exact OwnStep.move rfl rfl (hpc ▸ .free c)
  · cases h

end Moves

/-! ### The thread of a server among its surroundings -/

/-- What becomes of a copy for which the library has failed. -/
inductive AttemptFate
  /-- It is pushed to the queue again. -/
  | putBack
  /-- The time is written into `cur_fst`. -/
  | recorded
  deriving DecidableEq

/-- A library call of the thread. -/
structure Attempt where
  /-- The copy it was made for. -/
  copy : Addr
  /-- What the library returned. -/
  ret : ℤ
  /-- What came of a failure. -/
  fate : Option AttemptFate
  deriving DecidableEq

/-- The thread, its surroundings, and the library calls it has made, latest first. -/
structure Tried where
  /-- The state. -/
  state : State
  /-- The calls. -/
  attempts : List Attempt

/-- The fate of the latest call. -/
def settle (fate : AttemptFate) : List Attempt → List Attempt
  | [] => []
  | a :: earlier => { a with fate := some fate } :: earlier

/-- The calls after a step of the thread from `pc`. -/
def callsAfter (ret : ℤ) (l : List Attempt) : UploadPc → List Attempt
  | .library c => ⟨c, ret, none⟩ :: l
  | .requeue _ => settle .putBack l
  | .setFst _ => settle .recorded l
  | _ => l

/-- Who moves. -/
inductive HandlerAct
  /-- the thread; a library call returns `ret` -/
  | own (ret : ℤ) (sys : Sys)
  /-- the surroundings -/
  | other (s : State)

/-- The one upload thread of the server `rs` at the place `v`.  The surroundings do what
they like to the queues, the nodes, the clock, `cur_fst` and the files. -/
def handler (cfg : Config) (rs : RealServer) (v : ℕ) : System Tried HandlerAct where
  init := fun x => x.state.upload (v, 0) = .pop ∧ x.state.curRc rs.index = 0 ∧ x.attempts = []
  step := fun x act =>
    match act with
    | .own ret sys =>
        (uploadStep cfg rs (v, 0) ret sys x.state).map fun s' =>
          ⟨s', callsAfter ret x.attempts (x.state.upload (v, 0))⟩
    | .other s' =>
        if s'.upload (v, 0) = x.state.upload (v, 0) ∧
            s'.curRc rs.index = x.state.curRc rs.index then
          some { x with state := s' }
        else none

/-! ### What should be recorded -/

/-- The failures since the last success or recorded failure. -/
def failures (l : List Attempt) : ℕ :=
  (l.takeWhile fun a => decide (a.ret ≠ NEWIUP_OK ∧ a.fate ≠ some .recorded)).length

/-- `max(retry_count, 0)`. -/
def RealServer.most (rs : RealServer) : ℕ := (max rs.retryCount 0).toNat

/-- The failure is recorded when it comes after `most` others, and the copy put back when
it does not. -/
structure AttemptRight (most : ℕ) (a : Attempt) (earlier : List Attempt) : Prop where
  recorded_iff : a.fate = some .recorded ↔ a.ret ≠ NEWIUP_OK ∧ failures earlier = most
  putBack_iff : a.fate = some .putBack ↔ a.ret ≠ NEWIUP_OK ∧ a.fate ≠ some .recorded

/-- The head of the loop, or the end of the thread. -/
def AtHead (v : ℕ) (s : State) : Prop := s.upload (v, 0) = .pop ∨ s.upload (v, 0) = .stopped

/-- **The back-off counts consecutive failures**: at the head of the loop `cur_rc` is
between `0` and `max(retry_count, 0)`, and every call that is over has been treated
rightly. -/
structure BackoffRight (rs : RealServer) (v : ℕ) (x : Tried) : Prop where
  count : AtHead v x.state →
    0 ≤ x.state.curRc rs.index ∧ x.state.curRc rs.index ≤ max rs.retryCount 0
  right : ∀ later a earlier, x.attempts = later ++ a :: earlier →
    later ≠ [] ∨ AtHead v x.state → AttemptRight rs.most a earlier

/-! ### The invariant -/

/-- All calls have been treated rightly. -/
def AllRight (most : ℕ) : List Attempt → Prop
  | [] => True
  | a :: earlier => AttemptRight most a earlier ∧ AllRight most earlier

/-- The program counters outside the treatment of a library call. -/
def UploadPc.between : UploadPc → Bool
  | .pop => true
  | .avail _ => true
  | .availSet _ => true
  | .checking _ => true
  | .library _ => true
  | .release _ => true
  | .free _ => true
  | .stopped => true
  | _ => false

/-- The program counters after a success or a recorded failure. -/
def UploadPc.resetting : UploadPc → Bool
  | .deleteSrc _ => true
  | .deleteFlag _ => true
  | .resetRc _ => true
  | _ => false

/-- How the program counter, `cur_rc` and the calls fit together. -/
inductive BackoffPos (most : ℕ) : UploadPc → ℤ → List Attempt → Prop
  | between {pc l} (hpc : pc.between = true) (h : AllRight most l) (hle : failures l ≤ most) :
      BackoffPos most pc (failures l) l
  | resetting {pc rc l} (hpc : pc.resetting = true) (h : AllRight most l) (h0 : failures l = 0) :
      BackoffPos most pc rc l
  | failed {c a l} (ha : a.ret ≠ NEWIUP_OK) (hf : a.fate = none) (h : AllRight most l)
      (hle : failures l ≤ most) : BackoffPos most (.failed c) (failures l) (a :: l)
  | counting {c a l} (ha : a.ret ≠ NEWIUP_OK) (hf : a.fate = none) (h : AllRight most l)
      (hle : failures l ≤ most) : BackoffPos most (.failedInc c (failures l)) (failures l) (a :: l)
  | retrying {c a l} (ha : a.ret ≠ NEWIUP_OK) (hf : a.fate = none) (h : AllRight most l)
      (hlt : failures l < most) : BackoffPos most (.requeue c) (failures l + 1) (a :: l)
  | recording {c rc a l} (ha : a.ret ≠ NEWIUP_OK) (hf : a.fate = none) (h : AllRight most l)
      (heq : failures l = most) : BackoffPos most (.setFst c) rc (a :: l)

theorem failures_cons_of_success {a : Attempt} {l : List Attempt} (ha : a.ret = NEWIUP_OK) :
    failures (a :: l) = 0 := by
  simp [failures, ha]

theorem failures_cons_of_recorded {a : Attempt} {l : List Attempt} (ha : a.fate = some .recorded) :
    failures (a :: l) = 0 := by
  simp [failures, ha]

theorem failures_cons_of_putBack {a : Attempt} {l : List Attempt} (ha : a.ret ≠ NEWIUP_OK)
    (hf : a.fate = some .putBack) : failures (a :: l) = failures l + 1 := by
  simp [failures, ha, hf]

/-- **One move** of the thread keeps the invariant. -/
theorem BackoffPos.move {retry rc ret rc' : ℤ} {pc pc' : UploadPc} {l : List Attempt} {most : ℕ}
    (hmost : (most : ℤ) = max retry 0) (h : BackoffPos most pc rc l)
    (hm : PcMove retry rc ret pc pc' rc') : BackoffPos most pc' rc' (callsAfter ret l pc) := by
  -- by where the thread is between two calls; the moves that cannot come from there drop out
  cases h with
  | between hpc h hle =>
    cases hm with
    | idle | stop | pop | unavailable | available | availSet | missing | present | release | free =>
      exact .between rfl h hle
    | succeeded c hok =>
      refine .resetting rfl ⟨⟨?_, ?_⟩, h⟩ (failures_cons_of_success hok) <;> simp [hok]
    | failed c hfail => exact .failed hfail rfl h hle
    | deleteSrc | deleteFlag | resetRc | read | retry | record | requeue | setFst => cases hpc
  | resetting hpc h h0 =>
    cases hm with
    | deleteSrc | deleteFlag => exact .resetting rfl h h0
    | resetRc c =>
      have hzero : ((failures l : ℕ) : ℤ) = 0 := by rw [h0]; rfl
      rw [← hzero]
      exact .between rfl h (by omega)
    | _ => cases hpc
  | failed ha hf h hle =>
    cases hm with
    | read c => exact .counting ha hf h hle
  | counting ha hf h hle =>
    cases hm with
    | retry c x hlt => exact .retrying ha hf h (by omega)
    | record c x hge => exact .recording ha hf h (by omega)
  | @retrying c a l ha hf h hlt =>
    cases hm with
    | requeue c =>
      have hcount := failures_cons_of_putBack
        (a := { a with fate := some .putBack }) (l := l) ha rfl
      rw [show ((failures l : ℕ) : ℤ) + 1 = (failures l + 1 : ℕ) by push_cast; rfl, ← hcount]
      refine .between rfl ⟨⟨?_, ?_⟩, h⟩ (by omega)
      · simp [hlt.ne]
      · simp [ha]
  | @recording c rc a l ha hf h heq =>
    cases hm with
    | setFst c =>
      refine .resetting rfl ⟨⟨?_, ?_⟩, h⟩ (failures_cons_of_recorded rfl)
      · simp [ha, heq]
      · simp

section Reach

variable {cfg : Config} {rs : RealServer} {v : ℕ} {x : Tried}

theorem RealServer.cast_most (rs : RealServer) : (rs.most : ℤ) = max rs.retryCount 0 :=
  Int.toNat_of_nonneg (le_max_right _ _)

/-- **In every run** the program counter, the count and the calls fit together. -/
theorem BackoffPos.reach (h : (handler cfg rs v).Reach (fun _ _ => True) x) :
    BackoffPos rs.most (x.state.upload (v, 0)) (x.state.curRc rs.index) x.attempts := by
  refine h.invariant
    (I := fun x => BackoffPos rs.most (x.state.upload (v, 0)) (x.state.curRc rs.index) x.attempts)
    (fun x hx => ?_) fun x act x' _ hinv _ hs => ?_
  · obtain ⟨hpc, hrc, hl⟩ := hx
    rw [hpc, hrc, hl]
    have hstart : BackoffPos rs.most .pop (failures []) [] :=
      .between rfl trivial (Nat.zero_le _)
    exact hstart
  · cases act with
    | own ret sys =>
      obtain ⟨s', hs', rfl⟩ := Option.map_eq_some_iff.mp hs
      exact hinv.move rs.cast_most (uploadStep_move hs').1
    | other s' =>
      simp only [handler] at hs
      split at hs
      · next hsame =>
        cases hs
        rw [hsame.1, hsame.2]
        exact hinv
      · cases hs

theorem AllRight.at {most : ℕ} {later earlier : List Attempt} {a : Attempt}
    (h : AllRight most (later ++ a :: earlier)) : AttemptRight most a earlier := by
  induction later with
  | nil => exact h.1
  | cons b later ih => exact ih h.2

end Reach

/-! ### In the daemon -/

section Daemon

variable {cfg : Config} {disk : Fs} {G : State → Act → Prop} {s s' : State} {act : Act}

/-- Only the upload threads move themselves and write `cur_rc`. -/
theorem Step.keeps_upload (h : Step cfg s act s') (hu : ∀ t ret sys, act ≠ .upload t ret sys)
    (hk : act ≠ .kill) : s'.upload = s.upload ∧ s'.curRc = s.curRc := by
  cases h with
  | kill => exact absurd rfl hk
  | scheFree _ _ hfree =>
    obtain ⟨heap, rfl⟩ := queueNodeFree_heap hfree
    exact ⟨rfl, rfl⟩
  | copy _ hcopy =>
    obtain ⟨-, heap, rfl⟩ := queueNodeCopy_heap hcopy
    exact ⟨rfl, rfl⟩
  | uploadIdle | uploadPop | uploadLocal | library | deleteSrc | deleteFlag | uploadRequeue |
      release | free => exact absurd rfl (hu _ _ _)
  | _ => exact ⟨rfl, rfl⟩

/-- **The daemon is surroundings of this kind**: the thread of a server with one thread
runs in it as it does by itself, from the last start of the process. -/
theorem handler_of_daemon {v : ℕ} {rs : RealServer} (hidx : ServersIndexed cfg.servers)
    (hrs : cfg.servers[v]? = some rs) (hone : rs.threadNum = 1) (h : (daemon cfg disk).Reach G s) :
    ∃ l, (handler cfg rs v).Reach (fun _ _ => True) ⟨s, l⟩ := by
  induction h with
  | start h =>
    obtain ⟨time, rfl⟩ := h
    exact ⟨[], .start ⟨rfl, rfl, rfl⟩⟩
  | @next s s' act _ _ hs ih =>
    obtain ⟨l, hl⟩ := ih
    have other : s'.upload (v, 0) = s.upload (v, 0) → s'.curRc rs.index = s.curRc rs.index →
        ∃ l, (handler cfg rs v).Reach (fun _ _ => True) ⟨s', l⟩ := fun hu hrc =>
      ⟨l, .next (a := .other s') hl trivial (by simp [handler, hu, hrc])⟩
    by_cases hk : act = .kill
    · subst hk
      cases hs
      exact ⟨[], .start ⟨rfl, rfl, rfl⟩⟩
    by_cases hu : ∃ t ret sys, act = .upload t ret sys
    · obtain ⟨t, ret, sys, rfl⟩ := hu
      simp only [daemon, step, Option.bind_eq_bind, Option.bind_eq_some_iff] at hs
      obtain ⟨rs', hrs', hs⟩ := hs
      split at hs
      · next hlt =>
        by_cases ht : t = (v, 0)
        · subst ht
          obtain rfl := Option.some.inj (hrs'.symm.trans hrs)
          exact ⟨_, .next (a := .own ret sys) hl trivial
            (Option.map_eq_some_iff.mpr ⟨s', hs, rfl⟩)⟩
        · -- a thread of another server
          have hne : t.1 ≠ v := by
            rintro rfl
            obtain rfl := Option.some.inj (hrs'.symm.trans hrs)
            exact ht (Prod.ext rfl (by omega))
          have hown := (uploadStep_move hs).2
          refine other (hown.upload _ (Ne.symm ht)) (hown.curRc _ ?_)
          rw [hidx _ _ hrs, hidx _ _ hrs']
          exact hne.symm
      · cases hs
    · have hkeeps := (step_cases hs).keeps_upload (fun t ret sys he => hu ⟨t, ret, sys, he⟩) hk
      exact other (congrFun hkeeps.1 _) (congrFun hkeeps.2 _)

end Daemon

/-! ### A run -/

/-- The server's queue holds the copy `1` of the node `0`. -/
def oneCopy : State :=
  { State.boot sampleDisk 1000 with
    heap := fun a =>
      if a = 0 then some ⟨0, false, 1, 0, "/d/a.c".toList, "/d/a".toList, some "s".toList, .sche 0⟩
      else if a = 1 then
        some ⟨0, true, 0, 0, "/d/a.c".toList, "/d/a".toList, some "s".toList, .sche 0⟩
      else none
    next := 2
    queue := fun q => if q = .srv 0 then ⟨[1], 1⟩ else ⟨[], 0⟩ }

end Newiup
