import Newiup.Daemon.Choice

/-!
# The rotation among servers

`upload_real_server_sche_rr` counts its calls and computes the index at which the call's
turn is, but the search for the smallest queue starts at the first server each time.  Here
the function is one step, with the counter; the scheduler of the daemon makes it entry by
entry, since other threads move in between, and leaves out the counter, which decides nothing.

## Main definitions

* `uploadRealServerScheRr` — the function, as one step.
* `scheCalls` — the calls for a server group.
* `rrCalls` — consecutive calls.
* `Rotates` — every server of the list is returned once.

## Main results

* `chosen_iff_scheCalls` — **the scheduler chooses what the calls return**: the function is
  what the steps of a scan come to.
* `uploadRealServerScheRr_equal` — **among equal queues the first one is returned.**
* `rotates_iff` — **calls rotate exactly when there is one server to return.**
-/

namespace Newiup

/-- The locals of the search. -/
structure RrScan where
  /-- `cur_index`. -/
  curIndex : ℤ
  /-- `queue_size_max`. -/
  queueSizeMax : ℤ
  /-- The server whose queue is `re_queue`. -/
  reQueue : Option ℕ
  deriving DecidableEq

/-- A turn of the loop of `upload_real_server_sche_rr`. -/
def rrTurn (serverCount : ℤ) (x : RrScan × State) : Option RealServer → RrScan × State
  | none => x
  | some rs =>
    let next := (x.1.curIndex + 1).tmod serverCount
    if x.2.unavailable rs then ({ x.1 with curIndex := next }, x.2)
    else
      let s' := x.2.setCurFst rs.index 0
      if x.1.queueSizeMax > s'.size rs.index then (⟨next, s'.size rs.index, some rs.index⟩, s')
      else ({ x.1 with curIndex := next }, s')

/-- `upload_real_server_sche_rr`, with the counter of the list: the server whose queue is
returned, the counter afterwards, and the state. -/
def uploadRealServerScheRr (sg : ServerGroupQueue) (back : Bool) (rrQueue : Int32) (s : State) :
    Option ℕ × Int32 × State :=
  let rserver := sg.scanned back
  let serverCount : ℤ := rserver.length
  if serverCount ≠ 0 then
    let x := rserver.foldl (rrTurn serverCount)
      (⟨rrQueue.toInt.tmod serverCount, 10000000, none⟩, s)
    (x.1.reQueue, rrQueue + 1, x.2)
  else (none, rrQueue, s)

/-- What consecutive calls return, each in the state that it finds.  Between two of them the
other threads may do whatever they like; the static counter of the function is what goes from
one call to the next. -/
def rrCalls (sg : ServerGroupQueue) (back : Bool) : Int32 → List State → List (Option ℕ)
  | _, [] => []
  | rrQueue, s :: states =>
    let call := uploadRealServerScheRr sg back rrQueue s
    call.1 :: rrCalls sg back call.2.1 states

/-- **The calls rotate**: every server is returned once. -/
def Rotates (servers : List RealServer) (results : List (Option ℕ)) : Prop :=
  results.Perm (servers.map fun rs => some rs.index)

/-- The servers of the list, in calls between which no queue grows or shrinks. -/
structure EquallyLoaded (servers : List RealServer) (size : ℤ) (states : List State) : Prop where
  calls : states.length = servers.length
  distinct : (servers.map RealServer.index).Nodup
  available : ∀ s ∈ states, ∀ rs ∈ servers, s.unavailable rs = false
  size_eq : ∀ s ∈ states, ∀ rs ∈ servers, s.size rs.index = size

/-! ### The scans of the scheduler -/

section Scans

variable {cfg : Config} {g i : ℕ} {a : Addr} {mg : MonitorGroup} {sg : ServerGroupQueue}
  {n : ℤ} {x : RrScan} {c : Scan} {back : Bool} {s : State} {o : Option ℕ}

/-- The scheduler at the head of the loop has found what the search has found. -/
structure RrScan.AtHead (x : RrScan) (back : Bool) (k : ℕ) (c : Scan) : Prop where
  list : c.back = back
  index : c.k = k
  stage : c.stage = .avail
  queueSizeMax : c.queueSizeMax = x.queueSizeMax
  reQueue : c.reQueue = x.reQueue

/-- The scheduler makes a turn of the loop: the test of the server, the reset of `cur_fst`
and the comparison are a step each. -/
theorem rrTurn_scan (hmg : cfg.groups[g]? = some mg) (hen : mg.enable = true)
    (hsg : mg.serverGroupList[i]? = some sg) {k : ℕ} {e : Option RealServer}
    (he : (sg.scanned back)[k]? = some e) (hx : x.AtHead back k c) :
    ∃ c', Relation.ReflTransGen (ChooseStep cfg g a i) (s.setSche g (.choose a i c))
        ((rrTurn n (x, s) e).2.setSche g (.choose a i c')) ∧
      (rrTurn n (x, s) e).1.AtHead back (k + 1) c' := by
  obtain ⟨rfl, rfl, hstage, hmax, hre⟩ := hx
  have hstep : ∀ (t t' : State) (d : Scan), t.sche g = .choose a i d →
      scanStep sg g a i d t = some t' → ChooseStep cfg g a i t t' := fun t t' d ht h =>
    ⟨⟨d, ht⟩, (step_choose hmg hen hsg ht).trans h⟩
  -- a hole is passed over, and so is a server that is not available; else two more steps
  cases e with
  | none =>
    refine ⟨c.advance, .single (hstep _ _ c (State.sche_setSche_self ..) ?_),
      ⟨rfl, rfl, rfl, hmax, hre⟩⟩
    rw [scanStep_null hstage he, State.setSche_setSche, rrTurn]
  | some rs =>
    have hav := scanStep_avail (g := g) (a := a) (i := i) (t := s.setSche g (.choose a i c))
      hstage he
    have hun : (s.setSche g (.choose a i c)).unavailable rs = s.unavailable rs := rfl
    rw [hun, State.setSche_setSche] at hav
    rw [rrTurn]
    dsimp only
    by_cases h : s.unavailable rs = true
    · rw [if_pos h] at hav ⊢
      exact ⟨c.advance, .single (hstep _ _ c (State.sche_setSche_self ..) hav),
        ⟨rfl, rfl, rfl, hmax, hre⟩⟩
    · rw [if_neg h] at hav ⊢
      set c₁ : Scan := { c with stage := .set } with hc₁
      set c₂ : Scan := { c with stage := .size } with hc₂
      set t := s.setCurFst rs.index 0 with ht
      have h₁ := hstep _ _ c (State.sche_setSche_self ..) hav
      have h₂ : ChooseStep cfg g a i (s.setSche g (.choose a i c₁))
          (t.setSche g (.choose a i c₂)) := by
        refine hstep _ _ c₁ (State.sche_setSche_self ..)
          ((scanStep_set (c := c₁) rfl he).trans ?_)
        exact congrArg some (State.setSche_setSche t g _ _)
      have h₃ : ∀ c', (if c₂.queueSizeMax > t.size rs.index then
            { c₂ with queueSizeMax := t.size rs.index, reQueue := some rs.index }
          else c₂).advance = c' →
          ChooseStep cfg g a i (t.setSche g (.choose a i c₂)) (t.setSche g (.choose a i c')) := by
        rintro c' rfl
        refine hstep _ _ c₂ (State.sche_setSche_self ..)
          ((scanStep_size (c := c₂) rfl he).trans ?_)
        exact congrArg some (State.setSche_setSche t g _ _)
      have hcond : c₂.queueSizeMax > t.size rs.index ↔ x.queueSizeMax > t.size rs.index := by
        rw [← hmax]
      by_cases hlt : x.queueSizeMax > t.size rs.index
      · rw [if_pos (hcond.mpr hlt)] at h₃
        rw [if_pos hlt]
        exact ⟨_, .head h₁ (.head h₂ (.single (h₃ _ rfl))), ⟨rfl, rfl, rfl, rfl, rfl⟩⟩
      · rw [if_neg (hcond.not.mpr hlt)] at h₃
        rw [if_neg hlt]
        exact ⟨_, .head h₁ (.head h₂ (.single (h₃ _ rfl))), ⟨rfl, rfl, rfl, hmax, hre⟩⟩

/-- The loop over the rest `l` of the list. -/
theorem rrFold_scan (hmg : cfg.groups[g]? = some mg) (hen : mg.enable = true)
    (hsg : mg.serverGroupList[i]? = some sg) {k : ℕ} {l : List (Option RealServer)}
    (hl : (sg.scanned back).drop k = l) (hx : x.AtHead back k c) :
    ∃ c', Relation.ReflTransGen (ChooseStep cfg g a i) (s.setSche g (.choose a i c))
        ((l.foldl (rrTurn n) (x, s)).2.setSche g (.choose a i c')) ∧
      (l.foldl (rrTurn n) (x, s)).1.AtHead back (k + l.length) c' := by
  induction l generalizing k x c s with
  | nil => exact ⟨c, .refl, hx⟩
  | cons e l ih =>
    have he : (sg.scanned back)[k]? = some e := by
      rw [← List.head?_drop, hl]
      rfl
    have hrest : (sg.scanned back).drop (k + 1) = l := by
      rw [← List.tail_drop, hl]
      rfl
    obtain ⟨c₁, hrun₁, hx₁⟩ := rrTurn_scan (n := n) (s := s) hmg hen hsg he hx
    obtain ⟨c₂, hrun₂, hx₂⟩ := ih (s := (rrTurn n (x, s) e).2) hrest hx₁
    refine ⟨c₂, hrun₁.trans hrun₂, ?_⟩
    rw [Nat.add_right_comm] at hx₂
    exact hx₂

/-- **A scan of the scheduler is a call of the function**, whatever the counter says: it ends
in the state of the call, with the queue that the call returns. -/
theorem scan_uploadRealServerScheRr (hmg : cfg.groups[g]? = some mg) (hen : mg.enable = true)
    (hsg : mg.serverGroupList[i]? = some sg) (s : State) (back : Bool) (rrQueue : Int32) :
    ∃ c, Relation.ReflTransGen (ChooseStep cfg g a i)
        (s.setSche g (.choose a i (Scan.start back)))
        ((uploadRealServerScheRr sg back rrQueue s).2.2.setSche g (.choose a i c)) ∧
      c.back = back ∧ c.stage = .avail ∧ (sg.scanned back)[c.k]? = none ∧
      c.reQueue = (uploadRealServerScheRr sg back rrQueue s).1 := by
  unfold uploadRealServerScheRr
  dsimp only
  by_cases hzero : ((sg.scanned back).length : ℤ) ≠ 0
  · rw [if_pos hzero]
    obtain ⟨c, hrun, hc⟩ := rrFold_scan (n := (sg.scanned back).length)
      (x := ⟨rrQueue.toInt.tmod (sg.scanned back).length, 10000000, none⟩) (k := 0) (s := s)
      (c := Scan.start back) (a := a) hmg hen hsg (List.drop_zero (l := sg.scanned back))
      ⟨rfl, rfl, rfl, rfl, rfl⟩
    refine ⟨c, hrun, hc.list, hc.stage, List.getElem?_eq_none ?_, hc.reQueue⟩
    rw [hc.index, Nat.zero_add]
  · -- the scan of an empty list is at its end when it begins
    rw [if_neg hzero]
    refine ⟨Scan.start back, .refl, rfl, rfl, List.getElem?_eq_none ?_, rfl⟩
    rw [Scan.start]
    omega

/-- The calls of `sche_handle` for a server group: the second one is for the backup servers
and only where the first one returns nothing. -/
def scheCalls (sg : ServerGroupQueue) (rrPrime rrBack : Int32) (s : State) : Option ℕ :=
  let prime := uploadRealServerScheRr sg false rrPrime s
  prime.1.or (uploadRealServerScheRr sg true rrBack prime.2.2).1

/-- **The scheduler chooses what the calls return.** -/
theorem chosen_iff_scheCalls (hmg : cfg.groups[g]? = some mg) (hen : mg.enable = true)
    (hsg : mg.serverGroupList[i]? = some sg) (hpc : s.sche g = .choose a i (Scan.start false))
    (rrPrime rrBack : Int32) : Chosen cfg g a i s o ↔ o = scheCalls sg rrPrime rrBack s := by
  suffices hchosen : Chosen cfg g a i s (scheCalls sg rrPrime rrBack s) by
    constructor
    · intro h
      exact chosen_unique h hchosen
    · rintro rfl
      exact hchosen
  have hstep : ∀ (t : State) (d : Scan) (pc : SchePc),
      scanStep sg g a i d (t.setSche g (.choose a i d)) =
        some ((t.setSche g (.choose a i d)).setSche g pc) →
      ChooseStep cfg g a i (t.setSche g (.choose a i d)) (t.setSche g pc) := by
    intro t d pc h
    refine ⟨⟨d, State.sche_setSche_self ..⟩, ?_⟩
    rw [step_choose hmg hen hsg (State.sche_setSche_self ..), h, State.setSche_setSche]
  obtain ⟨c, hrun, hback, hstage, hnone, hre⟩ :=
    scan_uploadRealServerScheRr (a := a) hmg hen hsg s false rrPrime
  rw [State.setSche_eq_self hpc] at hrun
  have hend := scanStep_end (a := a) (g := g) (i := i)
    (t := (uploadRealServerScheRr sg false rrPrime s).2.2.setSche g (.choose a i c)) hstage
    (hback ▸ hnone)
  unfold scheCalls
  dsimp only
  rw [hre, hback] at hend
  cases hr : (uploadRealServerScheRr sg false rrPrime s).1 with
  | some v =>
    rw [hr] at hend
    exact ⟨_, hrun.tail (hstep _ _ _ hend), State.sche_setSche_self ..⟩
  | none =>
    -- the first call returns nothing, so that the backup servers are scanned
    rw [hr] at hend
    obtain ⟨d, hrun', hback', hstage', hnone', hre'⟩ := scan_uploadRealServerScheRr (a := a)
      hmg hen hsg (uploadRealServerScheRr sg false rrPrime s).2.2 true rrBack
    have hboth := (hrun.tail (hstep _ _ _ hend)).trans hrun'
    rw [Option.none_or, ← hre']
    have hend' := scanStep_end (a := a) (g := g) (i := i) (t := (uploadRealServerScheRr sg true
      rrBack (uploadRealServerScheRr sg false rrPrime s).2.2).2.2.setSche g (.choose a i d)) hstage'
      (hback' ▸ hnone')
    rw [hback'] at hend'
    cases hd : d.reQueue with
    | some v =>
      rw [hd] at hend'
      exact ⟨_, hboth.tail (hstep _ _ _ hend'), State.sche_setSche_self ..⟩
    | none =>
      rw [hd] at hend'
      exact ⟨_, hboth.tail (hstep _ _ _ hend'), State.sche_setSche_self ..⟩

end Scans

/-! ### The rotation -/

section Turns

variable {servers : List RealServer} {size n : ℤ} {c : RrScan} {s : State} {rs : RealServer}

/-- A search that has found a queue of the size keeps it. -/
theorem rrFold_keeps (hc : c.queueSizeMax ≤ size)
    (hsize : ∀ rs ∈ servers, s.size rs.index = size) :
    ((servers.map some).foldl (rrTurn n) (c, s)).1.reQueue = c.reQueue := by
  induction servers generalizing c s with
  | nil => rfl
  | cons rs servers ih =>
    obtain ⟨hrs, hrest⟩ := List.forall_mem_cons.mp hsize
    rw [List.map_cons, List.foldl_cons, rrTurn]
    dsimp only
    have hkeep : ¬c.queueSizeMax > (s.setCurFst rs.index 0).size rs.index := by
      have hsame : (s.setCurFst rs.index 0).size rs.index = size := hrs
      omega
    by_cases hun : s.unavailable rs = true
    · rw [if_pos hun]
      exact ih (c := { c with curIndex := _ }) hc hrest
    · rw [if_neg hun, if_neg hkeep]
      exact ih (c := { c with curIndex := _ }) hc hrest

/-- One that begins takes the first queue, if it is small enough. -/
theorem rrFold_first (hav : s.unavailable rs = false)
    (hsize : ∀ r ∈ rs :: servers, s.size r.index = size) {i : ℤ} :
    (((rs :: servers).map some).foldl (rrTurn n) (⟨i, 10000000, none⟩, s)).1.reQueue =
      if size < 10000000 then some rs.index else none := by
  obtain ⟨hrs, hrest⟩ := List.forall_mem_cons.mp hsize
  have hsame : (s.setCurFst rs.index 0).size rs.index = size := hrs
  rw [List.map_cons, List.foldl_cons, rrTurn]
  dsimp only
  rw [if_neg (hav ▸ Bool.false_ne_true), hsame]
  by_cases hlt : size < 10000000
  · rw [if_pos hlt, if_pos hlt]
    exact rrFold_keeps le_rfl hrest
  · rw [if_neg hlt, if_neg hlt]
    exact rrFold_keeps (not_lt.mp hlt) hrest

end Turns

section Calls

variable {sg : ServerGroupQueue} {back : Bool} {rs : RealServer} {servers : List RealServer}
  {size : ℤ} {states : List State}

/-- **Among equal queues the first one is returned**, whatever the counter says. -/
theorem uploadRealServerScheRr_equal {s : State}
    (hlist : sg.scanned back = (rs :: servers).map some)
    (hav : s.unavailable rs = false) (hsize : ∀ r ∈ rs :: servers, s.size r.index = size)
    (rrQueue : Int32) :
    (uploadRealServerScheRr sg back rrQueue s).1 =
      if size < 10000000 then some rs.index else none := by
  unfold uploadRealServerScheRr
  dsimp only
  rw [hlist, if_pos (by simp; omega)]
  exact rrFold_first hav hsize

theorem rrCalls_equal (hlist : sg.scanned back = (rs :: servers).map some)
    (hav : ∀ s ∈ states, s.unavailable rs = false)
    (hsize : ∀ s ∈ states, ∀ r ∈ rs :: servers, s.size r.index = size) (rrQueue : Int32) :
    rrCalls sg back rrQueue states =
      List.replicate states.length (if size < 10000000 then some rs.index else none) := by
  induction states generalizing rrQueue with
  | nil => rfl
  | cons s states ih =>
    obtain ⟨hs, hmore⟩ := List.forall_mem_cons.mp hav
    obtain ⟨hsizes, hsizes'⟩ := List.forall_mem_cons.mp hsize
    rw [rrCalls, uploadRealServerScheRr_equal hlist hs hsizes, ih hmore hsizes', List.length_cons,
      List.replicate_succ]

end Calls

/-- **Calls rotate** exactly when there is one server to return: among more the first is
returned each time, and a queue that is too long is not returned at all. -/
theorem rotates_iff (sg : ServerGroupQueue) (back : Bool) (servers : List RealServer)
    (hlist : sg.scanned back = servers.map some) (hne : servers ≠ []) (rrQueue : Int32)
    (size : ℤ) (states : List State) (h : EquallyLoaded servers size states) :
    Rotates servers (rrCalls sg back rrQueue states) ↔ servers.length = 1 ∧ size < 10000000 := by
  obtain ⟨rs, more, rfl⟩ := List.exists_cons_of_ne_nil hne
  rw [Rotates, rrCalls_equal hlist (fun s hs => h.available s hs rs List.mem_cons_self) h.size_eq,
    h.calls, List.perm_comm, List.perm_replicate]
  -- all the calls return the same queue, that of the first server, or none
  constructor
  · intro heq
    have hall : ∀ r ∈ rs :: more,
        some r.index = if size < 10000000 then some rs.index else none := by
      intro r hr
      have hmem := List.mem_map_of_mem (f := fun rs : RealServer => some rs.index) hr
      rw [heq] at hmem
      exact List.eq_of_mem_replicate hmem
    have hlt : size < 10000000 := by
      by_contra hge
      have hnone := hall rs List.mem_cons_self
      rw [if_neg hge] at hnone
      cases hnone
    refine ⟨?_, hlt⟩
    cases more with
    | nil => rfl
    | cons r more =>
      -- a second server would have to be the first one
      have hr := hall r (List.mem_cons_of_mem rs List.mem_cons_self)
      rw [if_pos hlt, Option.some.injEq] at hr
      have hdistinct := (List.nodup_cons.mp h.distinct).1
      rw [List.map_cons, ← hr] at hdistinct
      exact absurd List.mem_cons_self hdistinct
  · rintro ⟨hone, hlt⟩
    have hnil : more = [] := List.length_eq_zero_iff.mp (by simpa using hone)
    rw [hnil, if_pos hlt]
    rfl

/-- A server group with the given primary servers. -/
def primaryOf (servers : List RealServer) (h : servers ≠ []) : ServerGroupQueue := ⟨servers, [], h⟩

/-- The theorem at a list with one server, in a call whose counter overflows. -/
theorem rotates_iff_single :
    Rotates [sampleServer 0 "s".toList] (rrCalls (primaryOf [sampleServer 0 "s".toList] (by decide))
      false Int32.maxValue [.boot Fs.empty 1000]) :=
  (rotates_iff (primaryOf [sampleServer 0 "s".toList] (by decide)) false [sampleServer 0 "s".toList]
    rfl (by decide) Int32.maxValue 0 [.boot Fs.empty 1000]
    ⟨rfl, by decide, by decide +kernel, by decide +kernel⟩).mpr ⟨rfl, by decide⟩

/-- Two servers. -/
def twoServers : List RealServer := [sampleServer 0 "s".toList, sampleServer 1 "t".toList]

/-- **The first of two servers is returned twice.** -/
theorem first_returned_twice : ¬∀ (sg : ServerGroupQueue) (back : Bool) (servers : List RealServer),
    sg.scanned back = servers.map some → servers ≠ [] → ∀ (rrQueue : Int32) (size : ℤ)
      (states : List State), EquallyLoaded servers size states →
      Rotates servers (rrCalls sg back rrQueue states) := by
  intro h
  have hperm := h (primaryOf twoServers (by decide)) false twoServers rfl (by decide) 0 0
    [.boot Fs.empty 1000, .boot Fs.empty 1000]
    ⟨rfl, by decide, by decide +kernel, by decide +kernel⟩
  revert hperm
  unfold Rotates
  decide +kernel

end Newiup
