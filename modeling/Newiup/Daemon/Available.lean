import Newiup.Daemon.Choice

/-!
# The availability of a server

An upload thread that has used up its attempts writes the time into `cur_fst`, and
`get_server_available_state` tests `cur_fst` and then, as a step of its own, writes `0`.
The same `int` says "never failed", "available" and "failed then".

## Main definitions

* `Observed`, `observed` — the daemon, with the failures its process has recorded.
* `Observed.Recent` — the last failure of a server is within its sleep time.
* `AvailabilityRight` — the tests say unavailable after exactly the recent failures.
* `Timely` — the clock fits the field, and a write of `0` comes while the test before it
  still holds.

## Main results

* `step_curFst` — who writes `cur_fst`.
* `availability_follows_failures` — **what `Timely` is enough for, and needed for.**
-/

namespace Newiup

/-- `get_server_info` numbers the servers in their order. -/
def ServersIndexed (servers : List RealServer) : Prop :=
  ∀ (v : ℕ) (rs : RealServer), servers[v]? = some rs → rs.index = v

/-- `fsleep-time` is a non-negative `int`. -/
def SleepTimesFit (servers : List RealServer) : Prop :=
  ∀ rs ∈ servers, 0 ≤ rs.failSleepTime ∧ rs.failSleepTime < 2 ^ 31

/-! ### Who writes `cur_fst` -/

/-- The step is the write of `0` in `get_server_available_state`. -/
inductive Clears (cfg : Config) (s : State) : Act → RealServer → Prop
  | sche {g sys a i c mg sg rs} (hmg : cfg.groups[g]? = some mg) (hpc : s.sche g = .choose a i c)
      (hstage : c.stage = .set) (hsg : mg.serverGroupList[i]? = some sg)
      (hrs : (sg.scanned c.back)[c.k]? = some (some rs)) : Clears cfg s (.sche g sys) rs
  | upload {t ret sys c rs} (hrs : cfg.servers[t.1]? = some rs) (hpc : s.upload t = .availSet c) :
      Clears cfg s (.upload t ret sys) rs

/-- The step is the write of the time in `upload_handle`. -/
inductive Stamps (cfg : Config) (s : State) : Act → RealServer → Prop
  | upload {t ret sys c rs} (hrs : cfg.servers[t.1]? = some rs) (hpc : s.upload t = .setFst c) :
      Stamps cfg s (.upload t ret sys) rs

/-- What a step does to `cur_fst`. -/
inductive FstStep (cfg : Config) (s s' : State) (act : Act) : Prop
  | clears {rs} (h : Clears cfg s act rs) (ht : s'.time = s.time)
      (hf : s'.curFst = Function.update s.curFst rs.index 0)
  | stamps {rs} (h : Stamps cfg s act rs) (ht : s'.time = s.time)
      (hf : s'.curFst = Function.update s.curFst rs.index (State.toInt s.time))
  | kill (h : act = .kill) (ht : s'.time = s.time) (hf : s'.curFst = fun _ => NEWIUP_FAIL)
  | keeps (hc : ∀ rs, ¬Clears cfg s act rs) (hr : ∀ rs, ¬Stamps cfg s act rs) (hk : act ≠ .kill)
      (ht : s.time ≤ s'.time) (hf : s'.curFst = s.curFst)

/-- The step leaves the clock and `cur_fst` alone. -/
def SameFst (s s' : State) : Prop := s'.time = s.time ∧ s'.curFst = s.curFst

section Writes

variable {cfg : Config} {s s' : State}

theorem sameFst_of_globals (h : s'.globals = s.globals) : SameFst s s' :=
  ⟨congrArg (fun x => x.1) h, congrArg (fun x => x.2.1) h⟩

/-- `do_upload_file_limit`. -/
theorem limit_sameFst {g : ℕ} {sys : Sys} {a : Addr}
    (h : finishStep cfg g sys a s .limit = some s') : SameFst s s' := by
  simp only [finishStep] at h
  split at h
  · cases h
    exact ⟨rfl, rfl⟩
  · split at h <;> cases h <;> exact ⟨rfl, rfl⟩

/-- The scan writes `cur_fst` at its stage `set` only. -/
theorem scanStep_fst {sg : ServerGroupQueue} {g : ℕ} {a : Addr} {i : ℕ} {c : Scan}
    (h : scanStep sg g a i c s = some s') :
    SameFst s s' ∧ c.stage ≠ .set ∨
      c.stage = .set ∧ s'.time = s.time ∧ ∃ rs, (sg.scanned c.back)[c.k]? = some (some rs) ∧
        s'.curFst = Function.update s.curFst rs.index 0 := by
  unfold scanStep at h
  dsimp only at h
  split at h
  · next hst _ => cases h; exact Or.inl ⟨⟨rfl, rfl⟩, by rw [hst]; exact nofun⟩
  · next hst _ => cases h; exact Or.inl ⟨⟨rfl, rfl⟩, by rw [hst]; exact nofun⟩
  · next hst _ => cases h; exact Or.inl ⟨⟨rfl, rfl⟩, by rw [hst]; exact nofun⟩
  · next rs hst hrs => cases h; exact Or.inr ⟨hst, rfl, rs, hrs, rfl⟩
  · next hst _ => cases h; exact Or.inl ⟨⟨rfl, rfl⟩, by rw [hst]; exact nofun⟩
  · cases h

/-- The scheduler writes `cur_fst` in its scans only. -/
theorem scheStep_fst {mg : MonitorGroup} {g : ℕ} {sys : Sys}
    (h : scheStep cfg mg g sys s = some s') :
    SameFst s s' ∧ (∀ a i c, s.sche g ≠ .choose a i c) ∨
      ∃ a i c sg, s.sche g = .choose a i c ∧ mg.serverGroupList[i]? = some sg ∧
        scanStep sg g a i c s = some s' := by
  by_cases hch : ∃ a i c, s.sche g = .choose a i c
  · obtain ⟨a, i, c, hpc⟩ := hch
    rw [scheStep, hpc] at h
    obtain ⟨sg, hsg, h⟩ := Option.bind_eq_some_iff.mp h
    exact Or.inr ⟨a, i, c, sg, hpc, hsg, h⟩
  refine Or.inl ⟨?_, fun a i c hpc => hch ⟨a, i, c, hpc⟩⟩
  by_cases hlimit : ∃ a, s.sche g = .finish a .limit
  · obtain ⟨a, hpc⟩ := hlimit
    rw [scheStep, hpc] at h
    exact limit_sameFst h
  · exact sameFst_of_globals (globals_scheStep (fun a i c hpc => hch ⟨a, i, c, hpc⟩)
      (fun a hpc => hlimit ⟨a, hpc⟩) h)

/-- An upload thread writes `cur_fst` at two places. -/
theorem uploadStep_fst {rs : RealServer} {t : ThreadId} {ret : ℤ} {sys : Sys}
    (h : uploadStep cfg rs t ret sys s = some s') :
    SameFst s s' ∧ (∀ c, s.upload t ≠ .availSet c) ∧ (∀ c, s.upload t ≠ .setFst c) ∨
      s'.time = s.time ∧
        ((∃ c, s.upload t = .availSet c ∧
            s'.curFst = Function.update s.curFst rs.index 0) ∨
          ∃ c, s.upload t = .setFst c ∧
            s'.curFst = Function.update s.curFst rs.index (State.toInt s.time)) := by
  by_cases hclear : ∃ c, s.upload t = .availSet c
  · obtain ⟨c, hpc⟩ := hclear
    rw [uploadStep, hpc] at h
    cases h
    exact Or.inr ⟨rfl, Or.inl ⟨c, hpc, rfl⟩⟩
  by_cases hrec : ∃ c, s.upload t = .setFst c
  · obtain ⟨c, hpc⟩ := hrec
    rw [uploadStep, hpc] at h
    cases h
    exact Or.inr ⟨rfl, Or.inr ⟨c, hpc, rfl⟩⟩
  -- at all other places neither the time nor the variable is written
  refine Or.inl ⟨?_, fun c hpc => hclear ⟨c, hpc⟩, fun c hpc => hrec ⟨c, hpc⟩⟩
  unfold uploadStep at h
  split at h
  · -- pop
    split at h
    · split at h
      · cases h
        exact ⟨rfl, rfl⟩
      · next c s₁ hpop =>
        cases h
        exact (sameFst_of_globals (globals_queueNodePop hpop) : SameFst s s₁)
    · cases h
      exact ⟨rfl, rfl⟩
  · cases h
    exact ⟨rfl, rfl⟩
  · next hpc => exact absurd ⟨_, hpc⟩ hclear
  · obtain ⟨o, -, h⟩ := Option.bind_eq_some_iff.mp h
    cases h
    exact ⟨rfl, rfl⟩
  · -- library
    simp only [Option.bind_eq_bind, Option.bind_eq_some_iff] at h
    obtain ⟨node, -, o, -, h⟩ := h
    cases h
    exact ⟨rfl, rfl⟩
  · obtain ⟨o, -, h⟩ := Option.bind_eq_some_iff.mp h
    cases h
    exact ⟨rfl, rfl⟩
  · -- deleteFlag
    simp only [Option.bind_eq_bind, Option.bind_eq_some_iff] at h
    obtain ⟨node, -, o, -, mg, -, name, -, h⟩ := h
    cases h
    exact ⟨rfl, rfl⟩
  · cases h
    exact ⟨rfl, rfl⟩
  · cases h
    exact ⟨rfl, rfl⟩
  · cases h
    exact ⟨rfl, rfl⟩
  · cases h
    exact ⟨rfl, rfl⟩
  · next hpc => exact absurd ⟨_, hpc⟩ hrec
  · -- release
    simp only [Option.bind_eq_bind, Option.bind_eq_some_iff] at h
    obtain ⟨node, -, s₁, hs₁, h⟩ := h
    cases h
    obtain ⟨heap, rfl⟩ := dropRetain_heap hs₁
    exact ⟨rfl, rfl⟩
  · cases h
    exact ⟨rfl, rfl⟩
  · cases h

/-- A step that is neither a write of `0` nor one of the time. -/
theorem SameFst.keeps {act : Act} (h : SameFst s s') (hc : ∀ rs, ¬Clears cfg s act rs)
    (hr : ∀ rs, ¬Stamps cfg s act rs) (hk : act ≠ .kill) : FstStep cfg s s' act :=
  .keeps hc hr hk h.1.ge h.2

/-- **Who writes `cur_fst`.** -/
theorem step_curFst {act : Act} (h : step cfg s act = some s') : FstStep cfg s s' act := by
  -- only a scan, the test before an upload and a server that has failed too often write it
  cases act with
  | produce p b =>
    cases h
    exact SameFst.keeps ⟨rfl, rfl⟩ (fun _ h => by cases h) (fun _ h => by cases h) (by simp)
  | unproduce p =>
    cases h
    exact SameFst.keeps ⟨rfl, rfl⟩ (fun _ h => by cases h) (fun _ h => by cases h) (by simp)
  | monitor g m =>
    simp only [step, Option.bind_eq_bind, Option.bind_eq_some_iff] at h
    obtain ⟨mg, -, src, -, h⟩ := h
    split at h
    · cases h
      exact SameFst.keeps ⟨rfl, rfl⟩ (fun _ h => by cases h) (fun _ h => by cases h) (by simp)
    · cases h
  | sche g sys =>
    simp only [step, Option.bind_eq_bind, Option.bind_eq_some_iff] at h
    obtain ⟨mg, hmg, h⟩ := h
    split at h
    · rcases scheStep_fst h with ⟨hsame, hpc⟩ | ⟨a, i, c, sg, hpc, hsg, h⟩
      · refine hsame.keeps (fun rs hc => ?_) (fun _ h => by cases h) (by simp)
        cases hc with
        | sche _ hpc' => exact hpc _ _ _ hpc'
      · rcases scanStep_fst h with ⟨hsame, hst⟩ | ⟨hst, ht, rs, hrs, hf⟩
        · refine hsame.keeps (fun rs hc => ?_) (fun _ h => by cases h) (by simp)
          cases hc with
          | sche _ hpc' hst' =>
            cases hpc.symm.trans hpc'
            exact hst hst'
        · exact .clears (.sche hmg hpc hst hsg hrs) ht hf
    · cases h
  | upload t ret sys =>
    simp only [step, Option.bind_eq_bind, Option.bind_eq_some_iff] at h
    obtain ⟨rs, hrs, h⟩ := h
    split at h
    · rcases uploadStep_fst h with ⟨hsame, hc, hr⟩ | ⟨ht, ⟨c, hpc, hf⟩ | ⟨c, hpc, hf⟩⟩
      · refine hsame.keeps (fun rs' h' => ?_) (fun rs' h' => ?_) (by simp)
        · cases h' with
          | upload _ hpc => exact hc _ hpc
        · cases h' with
          | upload _ hpc => exact hr _ hpc
      · exact .clears (.upload hrs hpc) ht hf
      · exact .stamps (.upload hrs hpc) ht hf
    · cases h
  | tick n =>
    cases h
    exact .keeps (fun _ h => by cases h) (fun _ h => by cases h) (by simp) (by simp) rfl
  | signal =>
    cases h
    exact SameFst.keeps ⟨rfl, rfl⟩ (fun _ h => by cases h) (fun _ h => by cases h) (by simp)
  | kill =>
    cases h
    exact .kill rfl rfl rfl

end Writes

/-! ### The failures a process has recorded -/

/-- The daemon and what its process has recorded.  The record is not part of the program.  It
says what `cur_fst` is meant to say, and the results compare the two. -/
structure Observed where
  /-- The state of the daemon. -/
  state : State
  /-- The time of the last failure recorded of each server. -/
  last : ℕ → Option ℤ

namespace Observed

/-- The same, when `n` seconds have passed. -/
def later (x : Observed) (n : ℕ) : Observed :=
  { x with state := { x.state with time := x.state.time + n } }

/-- What is recorded after a step; a new process has recorded nothing. -/
def after (x : Observed) : Act → ℕ → Option ℤ
  | .kill => fun _ => none
  | .upload t _ _ =>
      match x.state.upload t with
      | .setFst _ => Function.update x.last t.1 (some x.state.time)
      | _ => x.last
  | _ => x.last

/-- The last failure of a server was recorded no longer ago than its sleep time. -/
def Recent (x : Observed) (rs : RealServer) : Prop :=
  ∃ t₀, x.last rs.index = some t₀ ∧ x.state.time - t₀ ≤ rs.failSleepTime

end Observed

/-- The daemon together with what its process has recorded. -/
def observed (cfg : Config) (disk : Fs) : System Observed Act where
  init := fun x => (daemon cfg disk).init x.state ∧ x.last = fun _ => none
  step := fun x act => (step cfg x.state act).map fun s' => ⟨s', x.after act⟩

/-- The test of `get_server_available_state` fails for a server exactly when its last
failure is recent. -/
def AvailabilityRight (cfg : Config) (x : Observed) : Prop :=
  ∀ rs ∈ cfg.servers, x.state.unavailable rs = true ↔ x.Recent rs

/-- The step erases a failure whose sleep time has not passed. -/
def Erases (cfg : Config) (x : Observed) (act : Act) : Prop :=
  ∃ rs, Clears cfg x.state act rs ∧ x.Recent rs

/-- A write of `0` comes when the clock is past the sleep time, and while the test that
led to it would still pass; a write of the time comes when the time fits the field. -/
def Timely (cfg : Config) (s : State) (act : Act) : Prop :=
  (∀ rs, Clears cfg s act rs → rs.failSleepTime < s.time ∧ s.unavailable rs = false) ∧
    ∀ rs, Stamps cfg s act rs → 0 ≤ s.time ∧ s.time < 2 ^ 31

/-! ### The three meanings of `cur_fst` -/

/-- What `cur_fst` of a server says. -/
inductive FstOk (x : Observed) (rs : RealServer) : Prop
  | never (hf : x.state.curFst rs.index = NEWIUP_FAIL) (hl : x.last rs.index = none)
  | available (hf : x.state.curFst rs.index = 0) (hlt : rs.failSleepTime < x.state.time)
      (hold : ¬x.Recent rs)
  | failed {t₀ : ℤ} (h₀ : 0 ≤ t₀) (hf : x.state.curFst rs.index = t₀)
      (hl : x.last rs.index = some t₀)

theorem unavailable_iff {s : State} {rs : RealServer} : s.unavailable rs = true ↔
    0 ≤ s.curFst rs.index ∧ s.time - s.curFst rs.index ≤ rs.failSleepTime := by
  simp [State.unavailable]

theorem Observed.recent_of_last {x : Observed} {rs : RealServer} {t₀ : ℤ}
    (hl : x.last rs.index = some t₀) : x.Recent rs ↔ x.state.time - t₀ ≤ rs.failSleepTime := by
  constructor
  · rintro ⟨t₁, hl', h⟩
    cases hl.symm.trans hl'
    exact h
  · intro h
    exact ⟨t₀, hl, h⟩

theorem Observed.not_recent_of_last {x : Observed} {rs : RealServer} (hl : x.last rs.index = none) :
    ¬x.Recent rs := by
  rintro ⟨t₀, hl', -⟩
  cases hl.symm.trans hl'

theorem FstOk.right {x : Observed} {rs : RealServer} (h : FstOk x rs) :
    x.state.unavailable rs = true ↔ x.Recent rs := by
  rw [unavailable_iff]
  cases h with
  | never hf hl =>
    refine iff_of_false ?_ (Observed.not_recent_of_last hl)
    rw [hf]
    rintro ⟨h, -⟩
    exact absurd h (by decide)
  | available hf hlt hold =>
    refine iff_of_false ?_ hold
    rw [hf]
    omega
  | failed h₀ hf hl =>
    rw [hf, Observed.recent_of_last hl]
    exact and_iff_right h₀

section Servers

variable {cfg : Config} {x : Observed} {s' : State} {act : Act} {rs rs' : RealServer}

/-- A server is known by its index. -/
theorem ServersIndexed.eq_of_index {servers : List RealServer} (hidx : ServersIndexed servers)
    (hrs : rs ∈ servers) (hrs' : rs' ∈ servers) (h : rs.index = rs'.index) : rs = rs' := by
  obtain ⟨v, hv⟩ := List.mem_iff_getElem?.mp hrs
  obtain ⟨v', hv'⟩ := List.mem_iff_getElem?.mp hrs'
  obtain rfl : v = v' := (hidx v rs hv).symm.trans (h.trans (hidx v' rs' hv'))
  exact Option.some.inj (hv.symm.trans hv')

theorem ServerGroupQueue.mem_servers {sg : ServerGroupQueue} {back : Bool}
    (h : some rs ∈ sg.scanned back) : rs ∈ sg.servers := by
  unfold ServerGroupQueue.scanned at h
  cases back with
  | false => exact List.mem_append_left _ (by simpa using h)
  | true => exact List.mem_append_right _ (List.mem_filterMap.mpr ⟨_, h, rfl⟩)

theorem Clears.mem {s : State} (h : Clears cfg s act rs) : rs ∈ cfg.servers := by
  cases h with
  | sche hmg _ _ hsg hrs =>
    exact List.mem_of_getElem? (cfg.found _ (List.mem_of_getElem? hmg) _
      (List.mem_of_getElem? hsg) _ (ServerGroupQueue.mem_servers (List.mem_of_getElem? hrs)))
  | upload hrs _ => exact List.mem_of_getElem? hrs

theorem Stamps.mem {s : State} (h : Stamps cfg s act rs) : rs ∈ cfg.servers := by
  cases h with
  | upload hrs _ => exact List.mem_of_getElem? hrs

theorem Clears.not_stamps {s : State} (h : Clears cfg s act rs) (h' : Stamps cfg s act rs') :
    False := by
  cases h' with
  | upload _ hpc =>
    cases h with
    | upload _ hpc' => cases hpc.symm.trans hpc'

/-- Only the writes of the time and a new process change what is recorded. -/
theorem after_eq (h : step cfg x.state act = some s') (hr : ∀ rs, ¬Stamps cfg x.state act rs)
    (hk : act ≠ .kill) : x.after act = x.last := by
  cases act with
  | upload t ret sys =>
    simp only [step, Option.bind_eq_bind, Option.bind_eq_some_iff] at h
    obtain ⟨rs, hrs, -⟩ := h
    unfold Observed.after
    dsimp only
    split
    · next c hpc => exact absurd (.upload hrs hpc) (hr rs)
    · rfl
  | kill => exact absurd rfl hk
  | _ => rfl

theorem after_of_stamps (hidx : ServersIndexed cfg.servers) (h : Stamps cfg x.state act rs) :
    x.after act = Function.update x.last rs.index (some x.state.time) := by
  cases h with
  | upload hrs hpc =>
    unfold Observed.after
    dsimp only
    rw [hpc, hidx _ _ hrs]

theorem after_of_clears (h : Clears cfg x.state act rs) : x.after act = x.last := by
  cases h with
  | sche => rfl
  | upload _ hpc =>
    unfold Observed.after
    dsimp only
    rw [hpc]

end Servers

/-- A write of the time that fits the field is exact. -/
theorem State.toInt_of_fits {x : ℤ} (h₀ : 0 ≤ x) (h : x < 2 ^ 31) : State.toInt x = x := by
  unfold State.toInt
  rw [Int.bmod_eq_of_le] <;> omega

/-- A write of the time that does not fit is far from the time or reads as no failure. -/
theorem State.toInt_of_not_fits {x : ℤ} (h : ¬(0 ≤ x ∧ x < 2 ^ 31)) :
    State.toInt x < 0 ∨
      0 ≤ State.toInt x ∧ (x + 2 ^ 32 ≤ State.toInt x ∨ State.toInt x + 2 ^ 32 ≤ x) := by
  unfold State.toInt
  have hlo := Int.le_bmod (x := x) (m := 2 ^ 32) (by decide)
  have hhi := Int.bmod_lt (x := x) (m := 2 ^ 32) (by decide)
  obtain ⟨k, hk⟩ : (2 ^ 32 : ℤ) ∣ x - x.bmod (2 ^ 32) := Int.dvd_self_sub_bmod
  omega

/-- A timely step keeps what `cur_fst` says. -/
theorem FstOk.step {cfg : Config} {x : Observed} {act : Act} {s' : State} {rs : RealServer}
    (hidx : ServersIndexed cfg.servers) (hrs : rs ∈ cfg.servers) (hx : FstOk x rs)
    (ht : Timely cfg x.state act) (h : step cfg x.state act = some s') :
    FstOk ⟨s', x.after act⟩ rs := by
  have hkeep : ∀ {y : Observed}, x.state.time ≤ y.state.time → y.last rs.index = x.last rs.index →
      y.state.curFst rs.index = x.state.curFst rs.index → FstOk y rs := by
    intro y htime hlast hfst
    cases hx with
    | never hf hl => exact .never (hfst.trans hf) (hlast.trans hl)
    | available hf hlt hold =>
      refine .available (hfst.trans hf) (lt_of_lt_of_le hlt htime) ?_
      rintro ⟨t₀, hl, h₀⟩
      exact hold ⟨t₀, hlast.symm.trans hl, by omega⟩
    | failed h₀ hf hl => exact .failed h₀ (hfst.trans hf) (hlast.trans hl)
  cases step_curFst h with
  | @clears rs' hc htime hf =>
    have hlast := after_of_clears hc
    by_cases hi : rs.index = rs'.index
    · obtain rfl := hidx.eq_of_index hrs hc.mem hi
      obtain ⟨hlt, hav⟩ := ht.1 rs hc
      refine .available (by rw [hf, Function.update_self]) (by rwa [htime]) ?_
      rintro ⟨t₀, hl, h₀⟩
      -- the test would still pass, so the last failure is not recent
      refine absurd (hx.right.mpr ⟨t₀, hlast ▸ hl, htime ▸ h₀⟩) ?_
      rw [hav]
      exact nofun
    · exact hkeep htime.ge (by rw [hlast]) (by rw [hf, Function.update_of_ne hi])
  | @stamps rs' hr htime hf =>
    have hlast := after_of_stamps hidx hr
    by_cases hi : rs.index = rs'.index
    · obtain rfl := hidx.eq_of_index hrs hr.mem hi
      obtain ⟨h₀, hlt⟩ := ht.2 rs hr
      refine .failed h₀ ?_ (congrFun hlast rs.index |>.trans (Function.update_self ..))
      rw [hf, Function.update_self, State.toInt_of_fits h₀ hlt]
    · exact hkeep htime.ge ((congrFun hlast rs.index).trans (Function.update_of_ne hi ..))
        (by rw [hf, Function.update_of_ne hi])
  | kill hk htime hf =>
    subst hk
    exact .never (by rw [hf]) rfl
  | keeps hc hr hk htime hf => exact hkeep htime (by rw [after_eq h hr hk]) (by rw [hf])

/-- **In a timely run `cur_fst` says what it should.** -/
theorem FstOk.reach {cfg : Config} {disk : Fs} {x : Observed} (hidx : ServersIndexed cfg.servers)
    (h : (observed cfg disk).Reach (fun x act => Timely cfg x.state act) x) :
    ∀ rs ∈ cfg.servers, FstOk x rs := by
  refine h.invariant (I := fun x => ∀ rs ∈ cfg.servers, FstOk x rs) ?_ ?_
  · rintro ⟨s, last⟩ ⟨⟨time, rfl⟩, rfl⟩ rs -
    exact .never rfl rfl
  · intro x act x' _ hx ht hs rs hrs
    obtain ⟨s', hs', rfl⟩ := Option.map_eq_some_iff.mp hs
    exact (hx rs hrs).step hidx hrs ht hs'

section Untimely

variable {cfg : Config} {x : Observed} {s' : State} {act : Act} {rs : RealServer}

/-- A `0` that is written too early reads as a failure. -/
theorem not_right_of_clears (hc : Clears cfg x.state act rs) (hold : ¬x.Recent rs)
    (hle : x.state.time ≤ rs.failSleepTime) (h : step cfg x.state act = some s') :
    ¬AvailabilityRight cfg ⟨s', x.after act⟩ := by
  intro hright
  have hlast := after_of_clears hc
  obtain ⟨htime, hf⟩ : s'.time = x.state.time ∧ s'.curFst rs.index = 0 := by
    cases step_curFst h with
    | @clears rs' hc' ht hf =>
      obtain rfl : rs' = rs := by
        cases hc with
        | sche hmg hpc _ hsg hrs =>
          cases hc' with
          | sche hmg' hpc' _ hsg' hrs' =>
            cases hmg.symm.trans hmg'
            cases hpc.symm.trans hpc'
            cases hsg.symm.trans hsg'
            cases hrs.symm.trans hrs'
            rfl
        | upload hrs _ =>
          cases hc' with
          | upload hrs' _ => exact Option.some.inj (hrs'.symm.trans hrs)
      exact ⟨ht, by rw [hf, Function.update_self]⟩
    | stamps hr => exact (hc.not_stamps hr).elim
    | kill hk => subst hk; cases hc
    | keeps hno => exact absurd hc (hno rs)
  obtain ⟨t₀, hl, h₀⟩ := (hright rs hc.mem).mp (unavailable_iff.mpr ⟨hf.ge, by simp only; omega⟩)
  exact hold ⟨t₀, hlast ▸ hl, htime ▸ h₀⟩

/-- A time that does not fit the field is not read back, sooner or later. -/
theorem not_right_of_stamps (hidx : ServersIndexed cfg.servers)
    (hsleep : 0 ≤ rs.failSleepTime ∧ rs.failSleepTime < 2 ^ 31) (hr : Stamps cfg x.state act rs)
    (hfit : ¬(0 ≤ x.state.time ∧ x.state.time < 2 ^ 31)) (h : step cfg x.state act = some s') :
    ∃ n, ¬AvailabilityRight cfg (Observed.later ⟨s', x.after act⟩ n) := by
  have hl : x.after act rs.index = some x.state.time := by
    rw [after_of_stamps hidx hr, Function.update_self]
  obtain ⟨htime, hf⟩ : s'.time = x.state.time ∧
      s'.curFst rs.index = State.toInt x.state.time := by
    cases step_curFst h with
    | clears hc => exact (hc.not_stamps hr).elim
    | @stamps rs' hr' ht hf =>
      obtain rfl : rs' = rs := by
        cases hr with
        | upload hrs _ =>
          cases hr' with
          | upload hrs' _ => exact Option.some.inj (hrs'.symm.trans hrs)
      exact ⟨ht, by rw [hf, Function.update_self]⟩
    | kill hk => subst hk; cases hr
    | keeps _ hno => exact absurd hr (hno rs)
  -- what the test would have to say `n` seconds later
  have hiff : ∀ n : ℕ, AvailabilityRight cfg (Observed.later ⟨s', x.after act⟩ n) →
      ((0 ≤ State.toInt x.state.time ∧
          x.state.time + n - State.toInt x.state.time ≤ rs.failSleepTime) ↔
        (n : ℤ) ≤ rs.failSleepTime) := by
    intro n hright
    have hiff := hright rs hr.mem
    rw [unavailable_iff, Observed.recent_of_last hl] at hiff
    simp only [Observed.later, htime, hf] at hiff
    rw [hiff]
    omega
  rcases State.toInt_of_not_fits hfit with hneg | ⟨hpos, hfar | hfar⟩
  · refine ⟨0, fun hright => ?_⟩
    have := (hiff 0 hright).mpr (by simpa using hsleep.1)
    omega
  · -- the failure seems to lie ahead: it outlasts its sleep time
    refine ⟨(rs.failSleepTime + 1).toNat, fun hright => ?_⟩
    have := hiff _ hright
    omega
  · refine ⟨0, fun hright => ?_⟩
    have := (hiff 0 hright).mpr (by simpa using hsleep.1)
    omega

end Untimely

/-- **The availability of the servers**: in a run of timely steps every test says what it
should and no recent failure is erased, and the first step that is not timely erases one
or leaves a test that says something else, now or later. -/
theorem availability_follows_failures {cfg : Config} {disk : Fs} {x : Observed}
    (hidx : ServersIndexed cfg.servers) (hsleep : SleepTimesFit cfg.servers)
    (h : (observed cfg disk).Reach (fun x act => Timely cfg x.state act) x) :
    AvailabilityRight cfg x ∧
      ∀ act x', (observed cfg disk).step x act = some x' →
        (Timely cfg x.state act ↔
          (∀ n, AvailabilityRight cfg (x'.later n)) ∧ ¬Erases cfg x act) := by
  have hx := FstOk.reach hidx h
  refine ⟨fun rs hrs => (hx rs hrs).right, fun act x' hs =>
    ⟨fun ht => ⟨fun n rs hrs => ?_, ?_⟩, ?_⟩⟩
  · have hn : (observed cfg disk).Reach (fun x act => Timely cfg x.state act) (x'.later n) :=
      .next (.next h ht hs) (a := .tick n) ⟨fun _ => nofun, fun _ => nofun⟩ rfl
    exact (FstOk.reach hidx hn rs hrs).right
  · rintro ⟨rs, hc, hrec⟩
    have hun := (hx rs hc.mem).right.mpr hrec
    rw [(ht.1 rs hc).2] at hun
    cases hun
  · rintro ⟨hright, herase⟩
    obtain ⟨s', hs', rfl⟩ := Option.map_eq_some_iff.mp hs
    refine ⟨fun rs hc => ?_, fun rs hr => ?_⟩
    · have hold : ¬x.Recent rs := fun hrec => herase ⟨rs, hc, hrec⟩
      refine ⟨?_, by rw [Bool.eq_false_iff]; exact fun hun => hold ((hx rs hc.mem).right.mp hun)⟩
      by_contra hle
      refine not_right_of_clears hc hold (not_lt.mp hle) hs' ?_
      simpa [Observed.later] using hright 0
    · by_contra hno
      obtain ⟨n, hn⟩ := not_right_of_stamps hidx (hsleep rs hr.mem) hr hno hs'
      exact hn (hright n)

/-- A test that is enough for `Timely`: every server may be tested now, and the time
fits. -/
def timelyTest (cfg : Config) (s : State) : Bool :=
  decide (0 ≤ s.time ∧ s.time < 2 ^ 31 ∧
    ∀ rs ∈ cfg.servers, rs.failSleepTime < s.time ∧ s.unavailable rs = false)

theorem Timely.of_test {cfg : Config} {s : State} (act : Act) (h : timelyTest cfg s = true) :
    Timely cfg s act := by
  obtain ⟨h₀, hlt, hall⟩ := of_decide_eq_true h
  exact ⟨fun rs hc => hall rs hc.mem, fun rs _ => ⟨h₀, hlt⟩⟩

theorem sample_indexed : ServersIndexed sampleConfig.servers := by
  intro v rs h
  obtain ⟨rfl, rfl⟩ | ⟨v, rfl⟩ : (v = 0 ∧ rs = sampleServer 0 "s".toList) ∨ ∃ k, v = k + 1 := by
    cases v with
    | zero => exact Or.inl ⟨rfl, (Option.some.inj h).symm⟩
    | succ v => exact Or.inr ⟨v, rfl⟩
  · rfl
  · cases h

theorem sample_sleepTimes : SleepTimesFit sampleConfig.servers := by
  intro rs hrs
  obtain rfl := List.mem_singleton.mp hrs
  decide

/-- A file is queued twice, and the only server fails it until its attempts are used up;
meanwhile the scheduler has tested the server for the second file. -/
def failedRun : List Act :=
  [.monitor 0 "/d/a.c".toList, .produce "/d/b".toList [1], .monitor 0 "/d/b.c".toList] ++
    List.replicate 23 (.sche 0 []) ++ List.replicate 16 (.upload (0, 0) NEWIUP_FAIL [])

/-- A process that has just been started on the sample disk. -/
def justStarted : Observed := ⟨.boot sampleDisk 1000, fun _ => none⟩

/-- The theorem at a server that has just failed. -/
theorem availability_follows_failures_failed :
    ∃ x, (observed sampleConfig sampleDisk).exec justStarted failedRun = some x ∧
      x.last 0 = some 1000 ∧ AvailabilityRight sampleConfig x := by
  have hrun : ((observed sampleConfig sampleDisk).exec justStarted failedRun).map
      (fun x => x.last 0) = some (some 1000) := by decide +kernel
  obtain ⟨x, hx, hl⟩ := Option.map_eq_some_iff.mp hrun
  have hreach : (observed sampleConfig sampleDisk).Reach
      (fun x act => Timely sampleConfig x.state act) x :=
    .of_exec (g := fun x _ => timelyTest sampleConfig x.state) (fun _ act _ h => .of_test act h)
      (.start ⟨⟨1000, rfl⟩, rfl⟩) (by decide +kernel) hx
  exact ⟨x, hx, hl, (availability_follows_failures sample_indexed sample_sleepTimes hreach).1⟩

/-- **A failure is erased** by the write of a test that was made before it, and the
server is available again at once. -/
theorem failure_is_erased :
    ¬∀ (cfg : Config) (disk : Fs) (x : Observed), ServersIndexed cfg.servers →
      SleepTimesFit cfg.servers → (observed cfg disk).Reach (fun _ _ => True) x →
      AvailabilityRight cfg x := by
  intro h
  have hrun : ((observed sampleConfig sampleDisk).exec justStarted (failedRun ++ [.sche 0 []])).map
      (fun x => (x.last 0, x.state.time, x.state.curFst 0)) = some (some 1000, 1000, 0) := by
    decide +kernel
  obtain ⟨x, hx, he⟩ := Option.map_eq_some_iff.mp hrun
  simp only [Prod.mk.injEq] at he
  obtain ⟨hl, htime, hf⟩ := he
  have hreach : (observed sampleConfig sampleDisk).Reach (fun _ _ => True) x :=
    .of_exec (g := fun _ _ => true) (fun _ _ _ _ => trivial) (.start ⟨⟨1000, rfl⟩, rfl⟩)
      (by decide +kernel) hx
  have hright := h _ _ _ sample_indexed sample_sleepTimes hreach (sampleServer 0 "s".toList)
    List.mem_cons_self
  have hun := hright.mpr ⟨1000, hl, by rw [htime]; decide⟩
  rw [unavailable_iff, htime,
    show x.state.curFst (sampleServer 0 "s".toList).index = 0 from hf] at hun
  exact absurd hun.2 (by decide)

end Newiup
