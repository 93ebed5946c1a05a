import Newiup.Daemon.Counts
import Mathlib.Logic.Relation

/-!
# The choice of a destination

For one server group `sche_handle` asks `upload_real_server_sche_rr` for a queue of the
primary servers, and where there is none for one of the backup servers.  The scan keeps
the smallest queue so far and starts from a size no queue is thought to reach.

## Main definitions

* `Chosen` — the queue the scheduler ends with, when it scans without interruption.
* `ChoiceRight` — the queue is the one that should be chosen.
* `SizesFit` — where a server is available, one of the available servers has a queue
  below the initial size.

## Main results

* `scan_list` — **what the scan of one list finds.**
* `destination_choice_iff` — **the choice is the right one exactly when `SizesFit`
  holds.**
-/

namespace Newiup

/-- `queue->size` of a server. -/
def State.size (s : State) (v : ℕ) : ℤ := (s.queue (.srv v)).size

/-- A server of the list that `get_server_available_state` finds available. -/
def State.Available (s : State) (l : List (Option RealServer)) (rs : RealServer) : Prop :=
  some rs ∈ l ∧ s.unavailable rs = false

/-- The queue of the server `v` may be picked from the list: `v` is available, and no
available server has a smaller queue. -/
def State.Smallest (s : State) (l : List (Option RealServer)) (v : ℕ) : Prop :=
  (∃ rs, s.Available l rs ∧ rs.index = v) ∧ ∀ rs, s.Available l rs → s.size v ≤ s.size rs.index

/-- The servers a scan goes through. -/
def ServerGroupQueue.scanned (sg : ServerGroupQueue) (back : Bool) : List (Option RealServer) :=
  if back then sg.rsBack else sg.rsPrime.map some

/-- **The right choice**: a smallest queue of the primary servers if one of them is
available, else of the backup servers if one of these is, else none. -/
def ChoiceRight (s : State) (sg : ServerGroupQueue) (o : Option ℕ) : Prop :=
  ((∃ rs, s.Available (sg.scanned false) rs) → ∃ v, o = some v ∧ s.Smallest (sg.scanned false) v) ∧
  ((∀ rs, ¬s.Available (sg.scanned false) rs) → (∃ rs, s.Available (sg.scanned true) rs) →
    ∃ v, o = some v ∧ s.Smallest (sg.scanned true) v) ∧
  ((∀ rs, ¬s.Available (sg.scanned false) rs) → (∀ rs, ¬s.Available (sg.scanned true) rs) →
    o = none)

/-- One of the available servers of the list has a queue the scan accepts. -/
def State.Fits (s : State) (l : List (Option RealServer)) : Prop :=
  (∃ rs, s.Available l rs) →
    ∃ rs, s.Available l rs ∧ s.size rs.index < (Scan.start false).queueSizeMax

/-- In the list that decides, one of the available servers has a queue the scan
accepts. -/
def SizesFit (s : State) (sg : ServerGroupQueue) : Prop :=
  s.Fits (sg.scanned false) ∧
    ((∀ rs, ¬s.Available (sg.scanned false) rs) → s.Fits (sg.scanned true))

/-- Where the scheduler goes with a choice. -/
def choicePc (a : Addr) (i : ℕ) : Option ℕ → SchePc
  | some v => .copy a i v
  | none => .dispatch a (i + 1)

/-- A step of the scheduler within the scans for the server group `i`. -/
def ChooseStep (cfg : Config) (g : ℕ) (a : Addr) (i : ℕ) (s s' : State) : Prop :=
  (∃ c, s.sche g = .choose a i c) ∧ step cfg s (.sche g []) = some s'

/-- The choice the scheduler ends with, when nothing else moves. -/
def Chosen (cfg : Config) (g : ℕ) (a : Addr) (i : ℕ) (s : State) (o : Option ℕ) : Prop :=
  ∃ s', Relation.ReflTransGen (ChooseStep cfg g a i) s s' ∧ s'.sche g = choicePc a i o

/-! ### The scan of one list -/

/-- What a scan knows after the servers `l`: the smallest queue so far, or that there is
none below the initial size. -/
structure Found (s : State) (l : List (Option RealServer)) (c : Scan) : Prop where
  /-- A queue is a smallest one, and its size the running minimum. -/
  best : ∀ v, c.reQueue = some v → s.Smallest l v ∧ c.queueSizeMax = s.size v ∧
    s.size v < (Scan.start false).queueSizeMax
  /-- Without one no available server has a queue below the initial size. -/
  nothing : c.reQueue = none → c.queueSizeMax = (Scan.start false).queueSizeMax ∧
    ∀ rs, s.Available l rs → (Scan.start false).queueSizeMax ≤ s.size rs.index

/-- The state during a scan that started in `s`: only `cur_fst` of available servers was
reset. -/
structure Scanning (s t : State) (l : List (Option RealServer)) : Prop where
  /-- The queues are as they were, -/
  queue : t.queue = s.queue
  /-- and so is the time. -/
  time : t.time = s.time
  /-- `cur_fst` is as it was, or that of a server that was available. -/
  curFst : ∀ v, t.curFst v = s.curFst v ∨ ∃ rs, s.Available l rs ∧ rs.index = v

section Scan

variable {cfg : Config} {g i : ℕ} {a : Addr} {mg : MonitorGroup} {sg : ServerGroupQueue}
  {s t : State} {l : List (Option RealServer)} {c : Scan} {rs : RealServer}

theorem State.Available.mono {l' : List (Option RealServer)} (h : s.Available l rs)
    (hl : ∀ x ∈ l, x ∈ l') : s.Available l' rs := ⟨hl _ h.1, h.2⟩

/-- What one more server adds to the available ones. -/
theorem available_append {x : Option RealServer} :
    s.Available (l ++ [x]) rs ↔ s.Available l rs ∨ x = some rs ∧ s.unavailable rs = false := by
  unfold State.Available
  rw [List.mem_append, List.mem_singleton, or_and_right, eq_comm (a := x)]

/-- A server that is not available, or whose queue was seen, changes nothing. -/
theorem Found.skip {x : Option RealServer} (h : Found s l c)
    (hx : ∀ rs, x = some rs → s.unavailable rs = false →
      ∃ rs', s.Available l rs' ∧ rs'.index = rs.index) : Found s (l ++ [x]) c.advance where
  best := by
    intro v hv
    obtain ⟨⟨⟨rs, hrs, hi⟩, hle⟩, hsize⟩ := h.best v hv
    refine ⟨⟨⟨rs, available_append.mpr (Or.inl hrs), hi⟩, fun rs' hrs' => ?_⟩, hsize⟩
    rcases available_append.mp hrs' with h' | ⟨he, hav⟩
    · exact hle rs' h'
    · obtain ⟨rs'', h'', hi''⟩ := hx rs' he hav
      rw [← hi'']
      exact hle rs'' h''
  nothing := by
    intro hnone
    refine ⟨(h.nothing hnone).1, fun rs' hrs' => ?_⟩
    rcases available_append.mp hrs' with h' | ⟨he, hav⟩
    · exact (h.nothing hnone).2 rs' h'
    · obtain ⟨rs'', h'', hi''⟩ := hx rs' he hav
      rw [← hi'']
      exact (h.nothing hnone).2 rs'' h''

/-- The comparison with the queue of an available server. -/
theorem Found.compare (h : Found s l c) (hav : s.unavailable rs = false) :
    Found s (l ++ [some rs]) (if c.queueSizeMax > s.size rs.index then
      { c with queueSizeMax := s.size rs.index, reQueue := some rs.index } else c).advance := by
  have hself : s.Available (l ++ [some rs]) rs := available_append.mpr (Or.inr ⟨rfl, hav⟩)
  have hmax : c.queueSizeMax ≤ (Scan.start false).queueSizeMax := by
    cases hr : c.reQueue with
    | none => exact (h.nothing hr).1.le
    | some v => rw [(h.best v hr).2.1]; exact (h.best v hr).2.2.le
  have hmin : ∀ rs', s.Available l rs' → c.queueSizeMax ≤ s.size rs'.index := by
    intro rs' hrs'
    cases hr : c.reQueue with
    | none => rw [(h.nothing hr).1]; exact (h.nothing hr).2 rs' hrs'
    | some v => rw [(h.best v hr).2.1]; exact (h.best v hr).1.2 rs' hrs'
  split
  · next hlt =>
    -- the queue is smaller than all before
    refine ⟨fun v hv => ?_, fun hnone => by cases hnone⟩
    cases hv
    refine ⟨⟨⟨rs, hself, rfl⟩, fun rs' hrs' => ?_⟩, rfl, hlt.trans_le hmax⟩
    rcases available_append.mp hrs' with h' | ⟨he, -⟩
    · exact hlt.le.trans (hmin rs' h')
    · cases he
      exact le_rfl
  · next hge =>
    rw [not_lt] at hge
    refine ⟨fun v hv => ?_, fun hnone => ?_⟩
    · obtain ⟨⟨⟨rs', hrs', hi⟩, hle⟩, hq, hlt⟩ := h.best v hv
      refine ⟨⟨⟨rs', available_append.mpr (Or.inl hrs'), hi⟩, fun rs'' hrs'' => ?_⟩, hq, hlt⟩
      rcases available_append.mp hrs'' with h' | ⟨he, -⟩
      · exact hle rs'' h'
      · cases he
        rw [← hq]
        exact hge
    · refine ⟨(h.nothing hnone).1, fun rs' hrs' => ?_⟩
      rcases available_append.mp hrs' with h' | ⟨he, -⟩
      · exact (h.nothing hnone).2 rs' h'
      · cases he
        rw [← (h.nothing hnone).1]
        exact hge

/-- The scheduler in a scan. -/
theorem step_choose (hmg : cfg.groups[g]? = some mg) (hen : mg.enable = true)
    (hsg : mg.serverGroupList[i]? = some sg) (hpc : t.sche g = .choose a i c) :
    step cfg t (.sche g []) = scanStep sg g a i c t := by
  show (cfg.groups[g]?).bind (fun mg => if mg.enable then scheStep cfg mg g [] t else none) = _
  rw [hmg, Option.bind_some, if_pos hen, scheStep, hpc]
  dsimp only
  rw [hsg, Option.bind_some]

section Stages

variable {x : Option RealServer}

theorem scanned_eq (sg : ServerGroupQueue) (back : Bool) :
    (if back then sg.rsBack else sg.rsPrime.map some) = sg.scanned back := rfl

theorem scanStep_end (hstage : c.stage = .avail) (hx : (sg.scanned c.back)[c.k]? = none) :
    scanStep sg g a i c t = some (t.setSche g (match c.reQueue with
      | some v => .copy a i v
      | none => if c.back then .dispatch a (i + 1) else .choose a i (Scan.start true))) := by
  unfold scanStep
  dsimp only
  cases c.reQueue <;> simp only [scanned_eq, hx, hstage]

theorem scanStep_null (hstage : c.stage = .avail) (hx : (sg.scanned c.back)[c.k]? = some none) :
    scanStep sg g a i c t = some (t.setSche g (.choose a i c.advance)) := by
  unfold scanStep
  dsimp only
  rw [scanned_eq, hx, hstage]

theorem scanStep_avail (hstage : c.stage = .avail)
    (hx : (sg.scanned c.back)[c.k]? = some (some rs)) :
    scanStep sg g a i c t = some (t.setSche g (.choose a i
      (if t.unavailable rs then c.advance else { c with stage := .set }))) := by
  unfold scanStep
  dsimp only
  rw [scanned_eq, hx, hstage]

theorem scanStep_set (hstage : c.stage = .set)
    (hx : (sg.scanned c.back)[c.k]? = some (some rs)) :
    scanStep sg g a i c t =
      some ((t.setCurFst rs.index 0).setSche g (.choose a i { c with stage := .size })) := by
  unfold scanStep
  dsimp only
  rw [scanned_eq, hx, hstage]

theorem scanStep_size (hstage : c.stage = .size)
    (hx : (sg.scanned c.back)[c.k]? = some (some rs)) :
    scanStep sg g a i c t = some (t.setSche g (.choose a i
      (if c.queueSizeMax > t.size rs.index then
        { c with queueSizeMax := t.size rs.index, reQueue := some rs.index } else c).advance)) := by
  unfold scanStep
  dsimp only
  rw [scanned_eq, hx, hstage]
  rfl

end Stages

/-- The state after a reset of `cur_fst`. -/
theorem Scanning.reset (h : Scanning s t l) (hav : s.Available l rs) {pc : SchePc} :
    Scanning s ((t.setCurFst rs.index 0).setSche g pc) l where
  queue := h.queue
  time := h.time
  curFst := by
    intro v
    by_cases hv : rs.index = v
    · exact Or.inr ⟨rs, hav, hv⟩
    · have : (t.setCurFst rs.index 0).curFst v = t.curFst v := Function.update_of_ne (Ne.symm hv) ..
      rcases h.curFst v with h' | h'
      · exact Or.inl (this.trans h')
      · exact Or.inr h'

theorem Scanning.setSche (h : Scanning s t l) {pc : SchePc} : Scanning s (t.setSche g pc) l :=
  ⟨h.queue, h.time, h.curFst⟩

theorem Scanning.mono {l' : List (Option RealServer)} (h : Scanning s t l)
    (hl : ∀ x ∈ l, x ∈ l') : Scanning s t l' where
  queue := h.queue
  time := h.time
  curFst := fun v => (h.curFst v).imp id fun ⟨rs, hrs, hi⟩ => ⟨rs, hrs.mono hl, hi⟩

/-- A server whose `cur_fst` was not reset is as available as it was. -/
theorem Scanning.unavailable_eq (h : Scanning s t l)
    (hno : ¬∃ rs', s.Available l rs' ∧ rs'.index = rs.index) :
    t.unavailable rs = s.unavailable rs := by
  unfold State.unavailable
  rw [h.time, (h.curFst rs.index).resolve_right hno]

/-- The entry `k` of the list. -/
theorem scan_entry {back : Bool} {k : ℕ} (hmg : cfg.groups[g]? = some mg)
    (hen : mg.enable = true) (hsg : mg.serverGroupList[i]? = some sg)
    (hserv : ∀ rs, some rs ∈ sg.scanned back → cfg.servers[rs.index]? = some rs)
    (hpc : t.sche g = .choose a i c) (hback : c.back = back) (hstage : c.stage = .avail)
    (hck : c.k = k) (hk : k < (sg.scanned back).length)
    (hs : Scanning s t ((sg.scanned back).take k)) (hf : Found s ((sg.scanned back).take k) c) :
    ∃ t' c', Relation.ReflTransGen (ChooseStep cfg g a i) t t' ∧ t'.sche g = .choose a i c' ∧
      c'.back = back ∧ c'.stage = .avail ∧ c'.k = k + 1 ∧
      Scanning s t' ((sg.scanned back).take (k + 1)) ∧
      Found s ((sg.scanned back).take (k + 1)) c' := by
  obtain ⟨x, hx⟩ : ∃ x, (sg.scanned back)[k]? = some x := ⟨_, List.getElem?_eq_getElem hk⟩
  have htake : (sg.scanned back).take (k + 1) = (sg.scanned back).take k ++ [x] := by
    rw [List.take_add_one, hx]
    rfl
  have hmem : x ∈ sg.scanned back := List.mem_of_getElem? hx
  have hsub : ∀ y ∈ (sg.scanned back).take k, y ∈ (sg.scanned back).take k ++ [x] :=
    fun y hy => List.mem_append_left _ hy
  have hstep : ∀ (u u' : State) (d : Scan), u.sche g = .choose a i d →
      scanStep sg g a i d u = some u' → ChooseStep cfg g a i u u' := fun u u' d hu h =>
    ⟨⟨_, hu⟩, (step_choose hmg hen hsg hu).trans h⟩
  subst hback hck
  rw [htake]
  -- the server is passed over
  have hpass : (∀ rs, x = some rs → s.unavailable rs = false →
      ∃ rs', s.Available ((sg.scanned c.back).take c.k) rs' ∧ rs'.index = rs.index) →
      scanStep sg g a i c t = some (t.setSche g (.choose a i c.advance)) →
      ∃ t' c', Relation.ReflTransGen (ChooseStep cfg g a i) t t' ∧ t'.sche g = .choose a i c' ∧
        c'.back = c.back ∧ c'.stage = .avail ∧ c'.k = c.k + 1 ∧
        Scanning s t' ((sg.scanned c.back).take c.k ++ [x]) ∧
        Found s ((sg.scanned c.back).take c.k ++ [x]) c' := fun h hst =>
    ⟨_, c.advance, .single (hstep _ _ _ hpc hst), State.sche_setSche_self .., rfl, rfl, rfl,
      (hs.mono hsub).setSche, hf.skip h⟩
  cases x with
  | none => exact hpass (fun rs he => by cases he) (scanStep_null hstage hx)
  | some rs =>
    by_cases hun : t.unavailable rs = true
    · -- it is found unavailable
      refine hpass (fun rs' he hav => ?_) (by rw [scanStep_avail hstage hx, if_pos hun])
      cases he
      by_contra hno
      rw [hs.unavailable_eq hno, hav] at hun
      cases hun
    · -- its queue is compared
      have hav : s.unavailable rs = false := by
        by_contra hno
        have hex : ∃ rs', s.Available ((sg.scanned c.back).take c.k) rs' ∧
            rs'.index = rs.index := by
          by_contra hno'
          rw [hs.unavailable_eq hno'] at hun
          exact hno (Bool.eq_false_iff.mpr hun)
        obtain ⟨rs', hrs', hi⟩ := hex
        have h₁ := hserv rs' (List.mem_of_mem_take hrs'.1)
        rw [hi, hserv rs hmem, Option.some.injEq] at h₁
        rw [h₁] at hno
        exact hno hrs'.2
      have hin : s.Available ((sg.scanned c.back).take c.k ++ [some rs]) rs :=
        available_append.mpr (Or.inr ⟨rfl, hav⟩)
      set c₁ : Scan := { c with stage := .set } with hc₁
      set t₁ := t.setSche g (.choose a i c₁) with ht₁
      have h₁ : ChooseStep cfg g a i t t₁ :=
        hstep _ _ _ hpc (by rw [scanStep_avail hstage hx, if_neg hun])
      set c₂ : Scan := { c with stage := .size } with hc₂
      set t₂ := (t₁.setCurFst rs.index 0).setSche g (.choose a i c₂) with ht₂
      have h₂ : ChooseStep cfg g a i t₁ t₂ :=
        hstep _ _ c₁ (State.sche_setSche_self ..) (scanStep_set rfl hx)
      have hs₂ : Scanning s t₂ ((sg.scanned c.back).take c.k ++ [some rs]) :=
        ((hs.mono hsub).setSche).reset hin
      have hsize : t₂.size rs.index = s.size rs.index := by
        unfold State.size
        rw [hs₂.queue]
      refine ⟨_, _, .head h₁ (.head h₂ (.single (hstep _ _ c₂ (State.sche_setSche_self ..)
        (scanStep_size rfl hx)))), State.sche_setSche_self .., ?_, rfl, ?_, hs₂.setSche, ?_⟩
      · split <;> rfl
      · split <;> rfl
      · rw [hsize]
        have hf₂ : Found s ((sg.scanned c.back).take c.k) c₂ := ⟨hf.best, hf.nothing⟩
        exact hf₂.compare hav

/-- **What the scan of one list finds**, from the entry `k` on. -/
theorem scan_list {back : Bool} (hmg : cfg.groups[g]? = some mg) (hen : mg.enable = true)
    (hsg : mg.serverGroupList[i]? = some sg)
    (hserv : ∀ rs, some rs ∈ sg.scanned back → cfg.servers[rs.index]? = some rs) (n : ℕ) :
    ∀ (t : State) (c : Scan), (sg.scanned back).length = c.k + n → t.sche g = .choose a i c →
      c.back = back → c.stage = .avail → Scanning s t ((sg.scanned back).take c.k) →
      Found s ((sg.scanned back).take c.k) c →
      ∃ t' c', Relation.ReflTransGen (ChooseStep cfg g a i) t t' ∧ t'.sche g = .choose a i c' ∧
        c'.back = back ∧ c'.stage = .avail ∧ (sg.scanned back)[c'.k]? = none ∧
        Scanning s t' (sg.scanned back) ∧ Found s (sg.scanned back) c' := by
  induction n with
  | zero =>
    intro t c hlen hpc hback hstage hs hf
    rw [List.take_of_length_le (by omega)] at hs hf
    exact ⟨t, c, .refl, hpc, hback, hstage, List.getElem?_eq_none (by omega), hs, hf⟩
  | succ n ih =>
    intro t c hlen hpc hback hstage hs hf
    obtain ⟨t₁, c₁, hrun, hpc₁, hback₁, hstage₁, hk₁, hs₁, hf₁⟩ :=
      scan_entry hmg hen hsg hserv hpc hback hstage rfl (by omega) hs hf
    obtain ⟨t₂, c₂, hrun₂, h₂⟩ := ih t₁ c₁ (by omega) hpc₁ hback₁ hstage₁ (hk₁ ▸ hs₁) (hk₁ ▸ hf₁)
    exact ⟨t₂, c₂, hrun.trans hrun₂, h₂⟩

/-- A scan from its start. -/
theorem scan_start {back : Bool} (hmg : cfg.groups[g]? = some mg) (hen : mg.enable = true)
    (hsg : mg.serverGroupList[i]? = some sg)
    (hserv : ∀ rs, some rs ∈ sg.scanned back → cfg.servers[rs.index]? = some rs)
    (hpc : s.sche g = .choose a i (Scan.start back)) :
    ∃ t c, Relation.ReflTransGen (ChooseStep cfg g a i) s t ∧ t.sche g = .choose a i c ∧
      c.back = back ∧ c.stage = .avail ∧ (sg.scanned back)[c.k]? = none ∧
      Scanning s t (sg.scanned back) ∧ Found s (sg.scanned back) c := by
  refine scan_list hmg hen hsg hserv (sg.scanned back).length s _ (Nat.zero_add _).symm hpc rfl rfl
    ⟨rfl, rfl, fun v => Or.inl rfl⟩ ⟨fun v hv => (by cases hv), fun _ => ⟨rfl, fun rs hrs => ?_⟩⟩
  exact absurd hrs.1 List.not_mem_nil

/-! ### The choice -/

/-- A scan has one end. -/
theorem chosen_unique {o o' : Option ℕ} (h : Chosen cfg g a i s o) (h' : Chosen cfg g a i s o') :
    o = o' := by
  obtain ⟨u, hu, hpu⟩ := h
  obtain ⟨u', hu', hpu'⟩ := h'
  have hdet : Relator.RightUnique (ChooseStep cfg g a i) := by
    intro x y z hy hz
    exact Option.some.inj (hy.2.symm.trans hz.2)
  -- nothing follows the end
  have hend : ∀ {x y : State} {o : Option ℕ}, x.sche g = choicePc a i o →
      Relation.ReflTransGen (ChooseStep cfg g a i) x y → x = y := by
    intro x y o hx hxy
    rcases hxy.cases_head with he | ⟨z, ⟨⟨d, hd⟩, -⟩, -⟩
    · exact he
    · rw [hx] at hd
      cases o <;> cases hd
  have hsame : u = u' := by
    rcases Relation.ReflTransGen.total_of_right_unique hdet hu hu' with h | h
    · exact hend hpu h
    · exact (hend hpu' h).symm
  rw [hsame, hpu'] at hpu
  cases o <;> cases o' <;> cases hpu <;> rfl

/-- The end of a scan that ended the list `l`, seen from the state `t` it started in. -/
inductive ScanEnd (t : State) (l : List (Option RealServer)) : Option ℕ → Prop
  | found {v} (h : t.Smallest l v) (hlt : t.size v < (Scan.start false).queueSizeMax) :
      ScanEnd t l (some v)
  | nothing (h : ∀ rs, t.Available l rs → (Scan.start false).queueSizeMax ≤ t.size rs.index) :
      ScanEnd t l none

theorem Found.scanEnd (h : Found s l c) : ScanEnd s l c.reQueue := by
  cases hr : c.reQueue with
  | none => exact .nothing (h.nothing hr).2
  | some v => exact .found (h.best v hr).1 (h.best v hr).2.2

/-- **What the two scans end with.** -/
theorem exists_chosen (hmg : cfg.groups[g]? = some mg) (hen : mg.enable = true)
    (hsg : mg.serverGroupList[i]? = some sg) (hpc : s.sche g = .choose a i (Scan.start false)) :
    ∃ o t, Chosen cfg g a i s o ∧ Scanning s t (sg.scanned false) ∧
      (ScanEnd s (sg.scanned false) o ∧ o.isSome = true ∨
        ScanEnd s (sg.scanned false) none ∧ ScanEnd t (sg.scanned true) o) := by
  have hserv : ∀ back rs, some rs ∈ sg.scanned back → cfg.servers[rs.index]? = some rs := by
    intro back rs hrs
    refine cfg.found mg (List.mem_of_getElem? hmg) sg (List.mem_of_getElem? hsg) rs ?_
    cases back with
    | false =>
      obtain ⟨rs', h', he⟩ := List.mem_map.mp hrs
      cases he
      exact List.mem_append_left _ h'
    | true =>
      exact List.mem_append_right _ (List.mem_filterMap.mpr ⟨some rs, hrs, rfl⟩)
  obtain ⟨t, c, hrun, hpt, hback, hstage, hend, hs, hf⟩ :=
    scan_start hmg hen hsg (hserv false) hpc
  have hstep : ∀ (u u' : State) (d : Scan), u.sche g = .choose a i d →
      scanStep sg g a i d u = some u' → ChooseStep cfg g a i u u' := fun u u' d hu h =>
    ⟨⟨_, hu⟩, (step_choose hmg hen hsg hu).trans h⟩
  have hlast := hstep _ _ c hpt (scanStep_end hstage (hback ▸ hend))
  cases hr : c.reQueue with
  | some v =>
    refine ⟨some v, t, ⟨_, hrun.tail hlast, ?_⟩, hs, Or.inl ⟨hr ▸ hf.scanEnd, rfl⟩⟩
    rw [hr]
    exact State.sche_setSche_self ..
  | none =>
    -- the backup servers
    set t₁ := t.setSche g (.choose a i (Scan.start true)) with ht₁
    have hgo : ChooseStep cfg g a i t t₁ := by
      rw [hr, hback] at hlast
      exact hlast
    have hs₁ : Scanning s t₁ (sg.scanned false) := hs.setSche
    obtain ⟨u, d, hrun', hpu, hback', hstage', hend', -, hf'⟩ :=
      scan_start hmg hen hsg (hserv true) (State.sche_setSche_self ..)
    have hlast' := hstep _ _ d hpu (scanStep_end hstage' (hback' ▸ hend'))
    refine ⟨d.reQueue, t₁, ⟨_, ((hrun.tail hgo).trans hrun').tail hlast', ?_⟩, hs₁,
      Or.inr ⟨hr ▸ hf.scanEnd, hf'.scanEnd⟩⟩
    rw [hback']
    cases d.reQueue <;> exact State.sche_setSche_self ..

/-- Where no server was available the second scan finds what it would have found. -/
theorem Scanning.available_iff (h : Scanning s t l) (hno : ∀ rs, ¬s.Available l rs)
    {l' : List (Option RealServer)} : t.Available l' rs ↔ s.Available l' rs := by
  unfold State.Available
  rw [h.unavailable_eq (l := l) fun ⟨rs', hrs', _⟩ => hno rs' hrs']

theorem Scanning.size_eq (h : Scanning s t l) (v : ℕ) : t.size v = s.size v := by
  unfold State.size
  rw [h.queue]

theorem Scanning.scanEnd (h : Scanning s t l) (hno : ∀ rs, ¬s.Available l rs)
    {l' : List (Option RealServer)} {o : Option ℕ} (he : ScanEnd t l' o) : ScanEnd s l' o := by
  have hav : ∀ {rs}, t.Available l' rs ↔ s.Available l' rs := h.available_iff hno
  cases he with
  | found hv hlt =>
    obtain ⟨⟨rs, hrs, hi⟩, hle⟩ := hv
    refine .found ⟨⟨rs, hav.mp hrs, hi⟩, fun rs' hrs' => ?_⟩ (h.size_eq _ ▸ hlt)
    rw [← h.size_eq, ← h.size_eq]
    exact hle rs' (hav.mpr hrs')
  | nothing hall =>
    refine .nothing fun rs hrs => ?_
    rw [← h.size_eq]
    exact hall rs (hav.mpr hrs)

end Scan

/-- **The choice of a destination.**  The scheduler comes to one choice, and it is the
right one exactly when one of the available servers of the list that decides has a queue
below the initial size of the scan. -/
theorem destination_choice_iff {cfg : Config} {g i : ℕ} {a : Addr} {mg : MonitorGroup}
    {sg : ServerGroupQueue} {s : State} (hmg : cfg.groups[g]? = some mg) (hen : mg.enable = true)
    (hsg : mg.serverGroupList[i]? = some sg) (hpc : s.sche g = .choose a i (Scan.start false)) :
    (∃! o, Chosen cfg g a i s o) ∧
      ∀ o, Chosen cfg g a i s o → (ChoiceRight s sg o ↔ SizesFit s sg) := by
  obtain ⟨o, t, hch, hs, hend⟩ := exists_chosen hmg hen hsg hpc
  refine ⟨⟨o, hch, fun o' h' => chosen_unique h' hch⟩, fun o' h' => ?_⟩
  obtain rfl := chosen_unique h' hch
  rcases hend with ⟨hend, hsome⟩ | ⟨hnone, hend⟩
  · -- a primary server was found
    cases hend with
    | nothing => cases hsome
    | found hv hlt =>
      obtain ⟨rs, hrs, hi⟩ := id hv.1
      refine iff_of_true ⟨fun _ => ⟨_, rfl, hv⟩, fun hno => absurd hrs (hno rs), fun hno =>
        absurd hrs (hno rs)⟩ ⟨fun _ => ⟨rs, hrs, hi ▸ hlt⟩, fun hno => absurd hrs (hno rs)⟩
  · cases hnone with
    | nothing hall =>
    by_cases hex : ∃ rs, s.Available (sg.scanned false) rs
    · -- the queues of all available primary servers are too long
      refine iff_of_false (fun hr => ?_) fun hfit => ?_
      · obtain ⟨v, rfl, ⟨rs, hrs, rfl⟩, -⟩ := hr.1 hex
        cases hend with
        | found hv hlt =>
          rw [hs.size_eq] at hlt
          exact absurd hlt (not_lt.mpr (hall rs hrs))
      · obtain ⟨rs, hrs, hlt⟩ := hfit.1 hex
        exact absurd hlt (not_lt.mpr (hall rs hrs))
    -- no primary server is available, so that the backup servers decide
    · have hno : ∀ rs, ¬s.Available (sg.scanned false) rs := not_exists.mp hex
      cases hs.scanEnd hno hend with
      | found hv hlt =>
        obtain ⟨rs, hrs, hi⟩ := id hv.1
        exact iff_of_true ⟨fun h => absurd h hex, fun _ _ => ⟨_, rfl, hv⟩, fun _ hno' =>
          absurd hrs (hno' rs)⟩ ⟨fun h => absurd h hex, fun _ _ => ⟨rs, hrs, hi ▸ hlt⟩⟩
      | nothing hall' =>
        by_cases hex' : ∃ rs, s.Available (sg.scanned true) rs
        · refine iff_of_false (fun hr => ?_) fun hfit => ?_
          · obtain ⟨v, hv, -⟩ := hr.2.1 hno hex'
            cases hv
          · obtain ⟨rs, hrs, hlt⟩ := hfit.2 hno hex'
            exact absurd hlt (not_lt.mpr (hall' rs hrs))
        · exact iff_of_true ⟨fun h => absurd h hex, fun _ h => absurd h hex', fun _ _ => rfl⟩
            ⟨fun h => absurd h hex, fun _ h => absurd h hex'⟩

/-- A scheduler before the scans for its only server group, with every queue of the
given size. -/
def choosing (size : ℤ) : State :=
  { (State.boot sampleDisk 0).setSche 0 (.choose 0 0 (Scan.start false)) with
    queue := fun _ => ⟨[], size⟩ }

/-- The server group of the sample group. -/
def sampleServerGroup : ServerGroupQueue := ⟨[⟨0, "s".toList, 1, 60, 1⟩], [], List.cons_ne_nil _ _⟩

/-- The theorem at short queues. -/
theorem destination_choice_iff_short :
    ∃ o, Chosen sampleConfig 0 0 0 (choosing 3) o ∧
      (ChoiceRight (choosing 3) sampleServerGroup o ↔ SizesFit (choosing 3) sampleServerGroup) := by
  have hmg : sampleConfig.groups[0]? = some (moveGroup .cut) := rfl
  have hsg : (moveGroup .cut).serverGroupList[0]? = some sampleServerGroup := rfl
  have hpc : (choosing 3).sche 0 = .choose 0 0 (Scan.start false) := rfl
  obtain ⟨⟨o, h, -⟩, hiff⟩ := destination_choice_iff hmg rfl hsg hpc
  exact ⟨o, h, hiff o h⟩

/-- **An available server is passed over** when its queue has ten million nodes. -/
theorem long_queue_passed_over :
    ¬∀ (cfg : Config) (g i : ℕ) (a : Addr) (mg : MonitorGroup) (sg : ServerGroupQueue) (s : State)
      (o : Option ℕ), cfg.groups[g]? = some mg → mg.enable = true →
      mg.serverGroupList[i]? = some sg → s.sche g = .choose a i (Scan.start false) →
      (∀ v, 0 ≤ s.size v ∧ s.size v < 2 ^ 31) → Chosen cfg g a i s o → ChoiceRight s sg o := by
  intro h
  set s := choosing 10000000 with hs
  have hav : s.Available (sampleServerGroup.scanned false) ⟨0, "s".toList, 1, 60, 1⟩ :=
    ⟨List.mem_cons_self, by decide⟩
  have hmg : sampleConfig.groups[0]? = some (moveGroup .cut) := rfl
  have hsg : (moveGroup .cut).serverGroupList[0]? = some sampleServerGroup := rfl
  have hpc : s.sche 0 = .choose 0 0 (Scan.start false) := rfl
  obtain ⟨o, t, hch, hscan, hend⟩ := exists_chosen hmg rfl hsg hpc
  have hsize : ∀ v, s.size v = 10000000 := fun v => rfl
  have hright := h _ _ _ _ _ _ s o rfl rfl rfl rfl
    (fun v => by rw [hsize]; exact ⟨by decide, by decide⟩) hch
  obtain ⟨v, rfl, -⟩ := hright.1 ⟨_, hav⟩
  rcases hend with ⟨hend, -⟩ | ⟨-, hend⟩
  · cases hend with
    | found _ hlt =>
      rw [hsize] at hlt
      exact absurd hlt (by decide)
  · cases hend with
    | found hv _ =>
      -- there is no backup server
      obtain ⟨⟨rs, hrs, -⟩, -⟩ := hv
      exact absurd hrs.1 List.not_mem_nil

end Newiup
