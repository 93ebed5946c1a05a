import Newiup.Daemon.Counts

/-!
# The limit on the uploads

`do_upload_file_limit` counts the uploads that are finished and clears the signals of the
loops where the count was above `max_upload_num` before; the scheduler reads its signal at
the head of the loop only.

The comparison is of the count as it was before this file, and it is strict.  Each of the
two lets one file more pass before the signals are cleared, and so a run that is left to
itself ends two files late.  Where a run is ended by an interrupt before, the limit is
respected for want of time.

## Main definitions

* `Tally` — what a run has done: the executions of `do_upload_file_finish_all`, begun and
  ended, and whether it was interrupted.
* `LimitRespected` — no more files are finished than the limit says.
* `InTime` — the run is interrupted before the limit is reached.

## Main results

* `limit_respected` — **a run that is interrupted in time respects the limit.**
* `limit_overrun` — every run passes the limit by two files at most.
-/

namespace Newiup

/-! ### The counter and the signals -/

/-- What `do_upload_file_limit` writes: `upload_count` and the signals. -/
def State.limits (s : State) : ℤ × Bool × Bool := (s.uploadCount, s.monitorRun, s.uploadRun)

section Limits

variable {cfg : Config} {mg : MonitorGroup} {s s' : State} {g : ℕ} {sys : Sys} {a : Addr}

theorem limits_eq (h : s'.globals = s.globals) : s'.limits = s.limits :=
  congrArg (fun x => x.2.2) h

theorem limits_scanStep {sg : ServerGroupQueue} {i : ℕ} {c : Scan}
    (h : scanStep sg g a i c s = some s') : s'.limits = s.limits := by
  unfold scanStep at h
  dsimp only at h
  split at h <;> cases h <;> rfl

/-- **A scheduler writes the counter and the signals** in `do_upload_file_limit` only. -/
theorem limits_scheStep (hpc : ∀ a, s.sche g ≠ .finish a .limit)
    (h : scheStep cfg mg g sys s = some s') : s'.limits = s.limits := by
  by_cases hscan : ∃ a i c, s.sche g = .choose a i c
  · obtain ⟨a, i, c, hs⟩ := hscan
    rw [scheStep, hs] at h
    obtain ⟨sg, -, h⟩ := Option.bind_eq_some_iff.mp h
    exact limits_scanStep h
  · exact limits_eq (globals_scheStep (fun a i c hs => hscan ⟨a, i, c, hs⟩) hpc h)

end Limits

/-! ### What a run has done -/

/-- The executions of `do_upload_file_finish_all`, and whether the run was interrupted. -/
structure Tally where
  /-- How many were begun. -/
  begun : ℕ
  /-- How many have ended. -/
  ended : ℕ
  /-- A signal has come. -/
  signalled : Bool
  deriving DecidableEq

/-- The next step begins an execution of `do_upload_file_finish_all`. -/
def SchePc.begins : SchePc → ℕ
  | .finish _ .act => 1
  | _ => 0

/-- The next step ends one. -/
def SchePc.ends : SchePc → ℕ
  | .finish _ .free => 1
  | _ => 0

/-- What a step adds. -/
def Tally.note (t : Tally) (s : State) : Act → Tally
  | .sche g _ =>
      { t with begun := t.begun + (s.sche g).begins, ended := t.ended + (s.sche g).ends }
  | .signal => { t with signalled := true }
  | _ => t

/-- The daemon with its tally. -/
def tallied (cfg : Config) (disk : Fs) : System (State × Tally) Act :=
  (daemon cfg disk).observed Tally.note ⟨0, 0, false⟩

/-- **The limit is respected**: no more files are finished than it says, the signals are
cleared when the last of them is, and without a limit they are cleared by an interrupt
only. -/
structure LimitRespected (cfg : Config) (x : State × Tally) : Prop where
  atMost : 0 < cfg.maxUploadNum → (x.2.begun : ℤ) ≤ cfg.maxUploadNum
  cleared : 0 < cfg.maxUploadNum → cfg.maxUploadNum ≤ x.2.ended →
    x.1.monitorRun = false ∧ x.1.uploadRun = false
  unlimited : cfg.maxUploadNum = 0 → x.1.monitorRun = false ∨ x.1.uploadRun = false →
    x.2.signalled = true

/-- The process is not killed. -/
def Alive (_ : State × Tally) (act : Act) : Prop := act ≠ .kill

/-- **Interrupted in time**: where there is a limit, an execution of
`do_upload_file_finish_all` that reaches it ends after an interrupt only. -/
structure InTime (cfg : Config) (x : State × Tally) (act : Act) : Prop where
  alive : Alive x act
  inTime : ∀ g sys, act = .sche g sys → (x.1.sche g).ends = 1 → 0 < cfg.maxUploadNum →
    (x.2.ended + 1 : ℤ) < cfg.maxUploadNum ∨ x.2.signalled = true

/-- The execution in hand is begun. -/
def SchePc.begun : SchePc → ℕ
  | .finish _ .act => 0
  | .finish _ _ => 1
  | _ => 0

/-- The execution in hand is counted. -/
def SchePc.counted : SchePc → ℕ
  | .finish _ .act => 0
  | .finish _ .delMonitor => 0
  | .finish _ .limit => 0
  | .finish _ _ => 1
  | _ => 0

/-- The next step counts it. -/
def SchePc.counts : SchePc → ℕ
  | .finish _ .limit => 1
  | _ => 0

/-- The scheduler has a node in hand. -/
def SchePc.InPass (pc : SchePc) : Prop := pc ≠ .pop ∧ pc ≠ .stopped

section Steps

variable {cfg : Config} {s s' : State} {t : Tally} {g : ℕ} {sys : Sys} {act : Act}

/-- The others write neither the counter nor the signals. -/
theorem limits_of_step (hs : Step cfg s act s') (hsche : ∀ g sys, act ≠ .sche g sys)
    (hsignal : act ≠ .signal) (hkill : act ≠ .kill) :
    s'.limits = s.limits ∧ s'.sche = s.sche ∧ t.note s act = t := by
  cases hs with
  | signal => exact absurd rfl hsignal
  | kill => exact absurd rfl hkill
  | @release u ret sys c node s'' hpc hnode hdrop =>
    obtain ⟨heap, rfl⟩ := dropRetain_heap hdrop
    exact ⟨rfl, rfl, rfl⟩
  | produce => exact ⟨rfl, rfl, rfl⟩
  | unproduce => exact ⟨rfl, rfl, rfl⟩
  | monitor => exact ⟨rfl, rfl, rfl⟩
  | tick => exact ⟨rfl, rfl, rfl⟩
  | uploadIdle => exact ⟨rfl, rfl, rfl⟩
  | uploadPop => exact ⟨rfl, rfl, rfl⟩
  | uploadLocal => exact ⟨rfl, rfl, rfl⟩
  | library => exact ⟨rfl, rfl, rfl⟩
  | deleteSrc => exact ⟨rfl, rfl, rfl⟩
  | deleteFlag => exact ⟨rfl, rfl, rfl⟩
  | uploadRequeue => exact ⟨rfl, rfl, rfl⟩
  | free => exact ⟨rfl, rfl, rfl⟩
  | _ => exact absurd rfl (hsche _ _)

/-- How a step of a scheduler moves an execution on. -/
structure PassStep (pc pc' : SchePc) : Prop where
  begun_eq : pc'.begun + pc.ends = pc.begun + pc.begins
  counted_eq : pc'.counted + pc.ends = pc.counted + pc.counts
  inPass : pc'.InPass → pc.InPass ∧ pc.ends = 0 ∨ pc = .pop

theorem passStep_local {mg : MonitorGroup} {pc pc' : SchePc} (h : ScheLocal mg s pc pc') :
    PassStep pc pc' := by
  cases h with
  | stop => exact ⟨rfl, rfl, fun h => absurd rfl h.2⟩
  | limit => exact ⟨rfl, rfl, fun _ => .inl ⟨⟨nofun, nofun⟩, rfl⟩⟩
  | _ => exact ⟨rfl, rfl, fun _ => .inl ⟨⟨nofun, nofun⟩, rfl⟩⟩

theorem passStep_finish {a : Addr} {f f' : FinishStage} {x : Os ℤ} (h : FinishOs cfg s a f f' x) :
    PassStep (.finish a f) (.finish a f') := by
  cases h <;> exact ⟨rfl, rfl, fun _ => .inl ⟨⟨nofun, nofun⟩, rfl⟩⟩

/-- **A step of a scheduler** moves an execution on. -/
theorem passStep_of_step (hs : Step cfg s (.sche g sys) s') : PassStep (s.sche g) (s'.sche g) := by
  cases hs with
  | scheIdle hpc =>
    rw [hpc]
    exact ⟨rfl, rfl, fun _ => .inr rfl⟩
  | schePop hpc =>
    rw [hpc, State.sche_setSche_self]
    exact ⟨rfl, rfl, fun _ => .inr rfl⟩
  | scheLocal hmg hpc h =>
    have hpc' : ∀ {pc'}, (s.setSche g pc').sche g = pc' := State.sche_setSche_self ..
    dsimp only
    rw [hpc, hpc']
    exact passStep_local h
  | finishOs hpc h =>
    rw [hpc, State.sche_setSche_self]
    exact passStep_finish h
  | scheFree hpc h hfree =>
    rw [hpc, State.sche_setSche_self]
    cases h <;> exact ⟨rfl, rfl, fun h => absurd rfl h.1⟩
  | requeue hpc =>
    rw [hpc, State.sche_setSche_self]
    exact ⟨rfl, rfl, fun h => absurd rfl h.1⟩
  | createFlag hmg hpc =>
    rw [hpc, State.sche_setSche_self]
    exact ⟨rfl, rfl, fun _ => .inl ⟨⟨nofun, nofun⟩, rfl⟩⟩
  | createMarker hmg hpc =>
    rw [hpc, State.sche_setSche_self]
    exact ⟨rfl, rfl, fun _ => .inl ⟨⟨nofun, nofun⟩, rfl⟩⟩
  | choose hmg hpc =>
    rw [hpc, State.sche_setSche_self]
    exact ⟨rfl, rfl, fun _ => .inl ⟨⟨nofun, nofun⟩, rfl⟩⟩
  | copy hpc =>
    rw [hpc, State.sche_setSche_self]
    exact ⟨rfl, rfl, fun _ => .inl ⟨⟨nofun, nofun⟩, rfl⟩⟩
  | push hpc =>
    rw [hpc, State.sche_setSche_self]
    exact ⟨rfl, rfl, fun _ => .inl ⟨⟨nofun, nofun⟩, rfl⟩⟩

/-- A pass begins where the signal allows it. -/
theorem monitorRun_of_pop {mg : MonitorGroup} (h : scheStep cfg mg g sys s = some s')
    (hpc : s.sche g = .pop) (hpass : (s'.sche g).InPass) : s.monitorRun = true := by
  by_contra hrun
  unfold scheStep at h
  simp only [hpc, if_neg hrun] at h
  cases h
  exact hpass.2 (State.sche_setSche_self ..)

/-- `do_upload_file_limit`. -/
theorem limits_limit {mg : MonitorGroup} {a : Addr} (h : scheStep cfg mg g sys s = some s')
    (hpc : s.sche g = .finish a .limit) :
    s'.limits = if cfg.maxUploadNum = 0 then s.limits
      else if s.uploadCount > cfg.maxUploadNum then (s.uploadCount + 1, false, false)
      else (s.uploadCount + 1, s.monitorRun, s.uploadRun) := by
  unfold scheStep at h
  simp only [hpc, finishStep] at h
  by_cases h0 : cfg.maxUploadNum = 0
  · rw [if_pos h0] at h ⊢
    cases h
    rfl
  · rw [if_neg h0] at h ⊢
    split at h <;> cases h
    · next hgt => rw [if_pos hgt]; rfl
    · next hle => rw [if_neg hle]; rfl

/-- What a step of a scheduler does to the counter and the signals. -/
structure LimitStep (cfg : Config) (s s' : State) (counts : ℕ) : Prop where
  flags : s.uploadRun = s.monitorRun → s'.uploadRun = s'.monitorRun
  cleared : s'.monitorRun = true → s.monitorRun = true
  counted : cfg.maxUploadNum ≠ 0 → s'.uploadCount = s.uploadCount + counts
  overrun : s.uploadCount ≤ cfg.maxUploadNum + 1 → s'.monitorRun = true →
    s'.uploadCount ≤ cfg.maxUploadNum + 1
  unlimited : cfg.maxUploadNum = 0 → s'.limits = s.limits

/-- **A step of a scheduler** counts in `do_upload_file_limit`, and clears the signals where
the count was above the limit. -/
theorem limitStep_of_step {mg : MonitorGroup} (h : scheStep cfg mg g sys s = some s') :
    LimitStep cfg s s' (s.sche g).counts := by
  have hparts : ∀ {u : State} {n : ℤ} {m r : Bool}, u.limits = (n, m, r) →
      u.uploadCount = n ∧ u.monitorRun = m ∧ u.uploadRun = r := by
    rintro u n m r h
    cases h
    exact ⟨rfl, rfl, rfl⟩
  -- at the counter by its two tests; any other step leaves it alone
  by_cases hpc : ∃ a, s.sche g = .finish a .limit
  · obtain ⟨a, hpc⟩ := hpc
    have hlimits := limits_limit h hpc
    rw [hpc]
    by_cases h0 : cfg.maxUploadNum = 0
    · rw [if_pos h0] at hlimits
      obtain ⟨hn, hm, hr⟩ := hparts hlimits
      exact ⟨fun hf => by rw [hm, hr, hf], fun hrun => hm ▸ hrun, fun hne => absurd h0 hne,
        fun hle _ => hn ▸ hle, fun _ => hlimits⟩
    rw [if_neg h0] at hlimits
    by_cases hgt : s.uploadCount > cfg.maxUploadNum
    · rw [if_pos hgt] at hlimits
      obtain ⟨hn, hm, hr⟩ := hparts hlimits
      exact ⟨fun _ => hr.trans hm.symm, fun hrun => absurd (hm.symm.trans hrun) nofun, fun _ => hn,
        fun _ hrun => absurd (hm.symm.trans hrun) nofun, fun hz => absurd hz h0⟩
    · rw [if_neg hgt] at hlimits
      obtain ⟨hn, hm, hr⟩ := hparts hlimits
      exact ⟨fun hf => by rw [hm, hr, hf], fun hrun => hm ▸ hrun, fun _ => hn,
        fun _ _ => by omega, fun hz => absurd hz h0⟩
  · have hcounts : (s.sche g).counts = 0 := by
      cases hs : s.sche g with
      | finish a f =>
        cases f with
        | limit => exact absurd ⟨a, hs⟩ hpc
        | _ => rfl
      | _ => rfl
    have hlimits : s'.limits = (s.uploadCount, s.monitorRun, s.uploadRun) :=
      limits_scheStep (fun a ha => hpc ⟨a, ha⟩) h
    obtain ⟨hn, hm, hr⟩ := hparts hlimits
    exact ⟨fun hf => by rw [hm, hr, hf], fun hrun => hm ▸ hrun,
      fun _ => by rw [hn, hcounts, Nat.cast_zero, add_zero], fun hle _ => hn ▸ hle,
      fun _ => hlimits⟩

end Steps

/-! ### The invariant -/

/-- `b` executions at most end, and fewer while the scheduler goes on. -/
structure Limited (cfg : Config) (b : ℤ) (x : State × Tally) : Prop where
  flags : x.1.uploadRun = x.1.monitorRun
  interrupted : x.2.signalled = true → x.1.monitorRun = false
  begun_eq : x.2.begun = x.2.ended + (x.1.sche 0).begun
  counted_eq : 0 < cfg.maxUploadNum → x.1.uploadCount = x.2.ended + (x.1.sche 0).counted
  atMost : 0 < cfg.maxUploadNum → (x.2.ended : ℤ) ≤ b
  passing : 0 < cfg.maxUploadNum → (x.1.sche 0).InPass → (x.2.ended : ℤ) < b
  running : 0 < cfg.maxUploadNum → x.1.monitorRun = true → (x.2.ended : ℤ) < b
  overrun : 0 < cfg.maxUploadNum → x.1.monitorRun = true →
    x.1.uploadCount ≤ cfg.maxUploadNum + 1
  unlimited : cfg.maxUploadNum = 0 → x.1.monitorRun = false → x.2.signalled = true

section Invariant

variable {cfg : Config} {disk : Fs} {b : ℤ} {x x' : State × Tally} {act : Act}

/-- An execution that is begun, or ended, is one of a pass. -/
theorem SchePc.begun_le (pc : SchePc) : pc.begun ≤ 1 := by
  cases pc with
  | finish a f => cases f <;> simp [SchePc.begun]
  | _ => simp [SchePc.begun]

theorem SchePc.inPass_of_begun {pc : SchePc} (h : pc.begun ≠ 0) : pc.InPass :=
  ⟨fun he => h (by rw [he]; rfl), fun he => h (by rw [he]; rfl)⟩

theorem SchePc.inPass_of_ends {pc : SchePc} (h : pc.ends ≠ 0) : pc.InPass :=
  ⟨fun he => h (by rw [he]; rfl), fun he => h (by rw [he]; rfl)⟩

theorem SchePc.ends_le (pc : SchePc) : pc.ends ≤ 1 := by
  cases pc with
  | finish a f => cases f <;> simp [SchePc.ends]
  | _ => simp [SchePc.ends]

/-- **A step of the scheduler** keeps the invariant, where an execution that ends leaves
room for another or the signals are cleared. -/
theorem Limited.sche {mg : MonitorGroup} {sys : Sys} {s' : State} (h : Limited cfg b x)
    (hroom : 0 < cfg.maxUploadNum → (x.1.sche 0).ends = 1 → x.1.monitorRun = true →
      (x.2.ended + 1 : ℤ) < b)
    (hs : scheStep cfg mg 0 sys x.1 = some s') (hstep : Step cfg x.1 (.sche 0 sys) s') :
    Limited cfg b (s', x.2.note x.1 (.sche 0 sys)) := by
  obtain ⟨hbegun, hcounted, hpass⟩ := passStep_of_step hstep
  obtain ⟨hflags, hclear, hcount, hover, hunlimited⟩ := limitStep_of_step hs
  have hends := SchePc.ends_le (x.1.sche 0)
  refine ⟨hflags h.flags, fun hsig => ?_, ?_, fun hmax => ?_, fun hmax => ?_,
    fun hmax hin => ?_, fun hmax hrun => ?_, fun hmax hrun => ?_, fun hmax hrun => ?_⟩
  · -- a scheduler never sets the signals again
    by_contra hrun
    have hrun' : s'.monitorRun = true := by simpa using hrun
    exact absurd ((h.interrupted hsig).symm.trans (hclear hrun')) nofun
  · have heq := h.begun_eq
    dsimp only [Tally.note] at heq ⊢
    omega
  · have heq := h.counted_eq hmax
    have hnew := hcount hmax.ne'
    dsimp only [Tally.note] at heq hnew ⊢
    push_cast
    omega
  · dsimp only [Tally.note]
    push_cast
    by_cases h0 : (x.1.sche 0).ends = 0
    · have hle := h.atMost hmax
      omega
    · -- the file that ends had room when its node was popped
      have hlt := h.passing hmax (SchePc.inPass_of_ends h0)
      omega
  · dsimp only [Tally.note]
    push_cast
    rcases hpass hin with ⟨hin', h0⟩ | hpop
    · have hlt := h.passing hmax hin'
      omega
    · -- the head of the loop lets a node pass only while the signal is set
      have hlt := h.running hmax (monitorRun_of_pop hs hpop hin)
      rw [hpop]
      simpa [SchePc.ends] using hlt
  · have hrun' := hclear hrun
    have hlt := h.running hmax hrun'
    dsimp only [Tally.note]
    push_cast
    by_cases h0 : (x.1.sche 0).ends = 0
    · omega
    · have hlast := hroom hmax (by omega) hrun'
      omega
  · exact hover (h.overrun hmax (hclear hrun)) hrun
  · have heq : s'.monitorRun = x.1.monitorRun := congrArg (fun l => l.2.1) (hunlimited hmax)
    exact h.unlimited hmax (heq ▸ hrun)

/-- **Every step** keeps the invariant. -/
theorem Limited.step (hone : cfg.groups.length = 1) (h : Limited cfg b x) (halive : act ≠ .kill)
    (hroom : ∀ sys, act = .sche 0 sys → 0 < cfg.maxUploadNum → (x.1.sche 0).ends = 1 →
      x.1.monitorRun = true → (x.2.ended + 1 : ℤ) < b)
    (hs : (tallied cfg disk).step x act = some x') : Limited cfg b x' := by
  obtain ⟨s', hs', rfl⟩ := Option.map_eq_some_iff.mp hs
  have hstep := step_cases hs'
  -- there is one group, and so one scheduler
  by_cases hsche : ∃ g sys, act = .sche g sys
  · obtain ⟨g, sys, rfl⟩ := hsche
    simp only [daemon, Newiup.step, Option.bind_eq_bind, Option.bind_eq_some_iff] at hs'
    obtain ⟨mg, hmg, hs'⟩ := hs'
    obtain rfl : g = 0 := by
      have hlt := (List.getElem?_eq_some_iff.mp hmg).1
      omega
    split at hs'
    · exact h.sche (hroom sys rfl) hs' hstep
    · cases hs'
  by_cases hsignal : act = .signal
  · subst hsignal
    cases hstep
    exact ⟨rfl, fun _ => rfl, h.begun_eq, h.counted_eq, h.atMost, h.passing,
      fun _ hrun => absurd hrun Bool.false_ne_true, fun _ hrun => absurd hrun Bool.false_ne_true,
      fun _ _ => rfl⟩
  · -- the other threads and processes write nothing that the invariant reads
    obtain ⟨hlimits, hpc, hnote⟩ := limits_of_step (t := x.2) hstep
      (fun g sys he => hsche ⟨g, sys, he⟩) hsignal halive
    have hcount : s'.uploadCount = x.1.uploadCount := congrArg (fun l => l.1) hlimits
    have hmon : s'.monitorRun = x.1.monitorRun := congrArg (fun l => l.2.1) hlimits
    have hup : s'.uploadRun = x.1.uploadRun := congrArg (fun l => l.2.2) hlimits
    obtain ⟨hflags, hint, hbegun, hcounted, hmost, hpass, hrun, hover, hun⟩ := h
    rw [hnote]
    refine ⟨?_, ?_, ?_, ?_, hmost, ?_, ?_, ?_, ?_⟩ <;> dsimp only <;>
      simpa only [hcount, hmon, hup, hpc]

end Invariant

section Run

variable {cfg : Config} {disk : Fs} {x : State × Tally}

/-- What the invariant says about the executions. -/
theorem Limited.bounds {b : ℤ} (h : Limited cfg b x) (hmax : 0 < cfg.maxUploadNum) :
    (x.2.begun : ℤ) ≤ b ∧ (b ≤ x.2.ended → x.1.monitorRun = false ∧ x.1.uploadRun = false) := by
  refine ⟨?_, fun hle => ?_⟩
  · have hbegun := h.begun_eq
    have hone := SchePc.begun_le (x.1.sche 0)
    by_cases h0 : (x.1.sche 0).begun = 0
    · have hle := h.atMost hmax
      omega
    · have hlt := h.passing hmax (SchePc.inPass_of_begun h0)
      omega
  · have hstop : x.1.monitorRun = false := by
      by_contra hrun
      have hlt := h.running hmax (by simpa using hrun)
      omega
    exact ⟨hstop, h.flags.trans hstop⟩

theorem Limited.boot {b : ℤ} (hb : 0 < cfg.maxUploadNum → 0 < b) (time : ℤ) :
    Limited cfg b (.boot disk time, ⟨0, 0, false⟩) :=
  ⟨rfl, nofun, rfl, fun _ => rfl, fun hmax => (hb hmax).le, fun _ hin => absurd rfl hin.1,
    fun hmax _ => hb hmax, fun hmax _ => by dsimp [State.boot]; omega, fun _ => nofun⟩

/-- **The limit is respected** in every run that is interrupted in time. -/
theorem limit_respected (hone : cfg.groups.length = 1)
    (h : (tallied cfg disk).Reach (InTime cfg) x) : LimitRespected cfg x := by
  have hinv : Limited cfg cfg.maxUploadNum x := by
    refine h.invariant ?_ fun x act x' _ hinv hg hs => hinv.step hone hg.alive ?_ hs
    · rintro ⟨s, t⟩ ⟨⟨time, rfl⟩, rfl⟩
      exact .boot id time
    · intro sys hact hmax hends hrun
      refine (hg.inTime 0 sys hact hends hmax).resolve_right fun hsig => ?_
      exact absurd ((hinv.interrupted hsig).symm.trans hrun) nofun
  refine ⟨fun hmax => (hinv.bounds hmax).1, fun hmax => (hinv.bounds hmax).2, fun h0 hrun => ?_⟩
  exact hinv.unlimited h0 (hrun.elim id fun hup => hinv.flags.symm.trans hup)

/-- **Two files too many**: without an interrupt the signals are cleared with the second
file after the limit, and no run finishes more. -/
theorem limit_overrun (hone : cfg.groups.length = 1) (hmax : 0 < cfg.maxUploadNum)
    (h : (tallied cfg disk).Reach Alive x) :
    (x.2.begun : ℤ) ≤ cfg.maxUploadNum + 2 ∧
      (cfg.maxUploadNum + 2 ≤ x.2.ended → x.1.monitorRun = false ∧ x.1.uploadRun = false) := by
  have hinv : Limited cfg (cfg.maxUploadNum + 2) x := by
    refine h.invariant ?_ fun x act x' _ hinv hg hs => hinv.step hone hg ?_ hs
    · rintro ⟨s, t⟩ ⟨⟨time, rfl⟩, rfl⟩
      exact .boot (fun _ => by omega) time
    · intro sys _ _ hends hrun
      have hcounted := hinv.counted_eq hmax
      have hover := hinv.overrun hmax hrun
      have hone : (x.1.sche 0).counted = 1 := by
        cases hpc : x.1.sche 0 with
        | finish a f =>
          rw [hpc] at hends
          cases f with
          | free => rfl
          | _ => cases hends
        | _ =>
          rw [hpc] at hends
          cases hends
      omega
  exact hinv.bounds hmax

end Run

/-! ### Two files -/

/-- The sample configuration, with a limit. -/
def limitConfig (maxUploadNum : ℤ) : Config := { sampleConfig with maxUploadNum }

/-- A disk with two files that are uploaded and not finished. -/
def uploadedDisk : Fs :=
  sampleFs [("/d/a.c".toList, []), ("/d/a".toList, [1]), ("/d/a.c-upload-k".toList, []),
    ("/d/b.c".toList, []), ("/d/b".toList, [2]), ("/d/b.c-upload-k".toList, [])]

/-- Both are finished. -/
def finishBoth : List Act :=
  [.monitor 0 "/d/a.c".toList, .monitor 0 "/d/b.c".toList] ++ List.replicate 24 (.sche 0 [])

/-- `InTime` as a test. -/
def inTimeTest (cfg : Config) (x : State × Tally) : Act → Bool
  | .kill => false
  | .sche g _ => decide ((x.1.sche g).ends = 1 → 0 < cfg.maxUploadNum →
      (x.2.ended + 1 : ℤ) < cfg.maxUploadNum ∨ x.2.signalled = true)
  | _ => true

theorem InTime.of_test {cfg : Config} {x : State × Tally} {act : Act}
    (h : inTimeTest cfg x act = true) : InTime cfg x act := by
  refine ⟨?_, ?_⟩
  · rintro rfl
    cases h
  · rintro g sys rfl
    exact of_decide_eq_true h

/-- The theorem at two files below the limit. -/
theorem limit_respected_below :
    ∃ x, (tallied (limitConfig 3) uploadedDisk).exec (.boot uploadedDisk 0, ⟨0, 0, false⟩)
        finishBoth = some x ∧ x.2 = ⟨2, 2, false⟩ ∧ LimitRespected (limitConfig 3) x := by
  have hrun : ((tallied (limitConfig 3) uploadedDisk).exec (.boot uploadedDisk 0, ⟨0, 0, false⟩)
      finishBoth).map Prod.snd = some ⟨2, 2, false⟩ := by decide +kernel
  obtain ⟨x, hx, htally⟩ := Option.map_eq_some_iff.mp hrun
  have hreach : (tallied (limitConfig 3) uploadedDisk).Reach (InTime (limitConfig 3)) x :=
    .of_exec (g := inTimeTest (limitConfig 3)) (fun _ _ _ => .of_test) (.start ⟨⟨0, rfl⟩, rfl⟩)
      (by decide +kernel) hx
  exact ⟨x, hx, htally, limit_respected rfl hreach⟩

/-- **The limit is passed**: with `max-upload: 1` two files are finished. -/
theorem limit_passed : ¬∀ cfg disk x, cfg.groups.length = 1 →
    (tallied cfg disk).Reach Alive x → LimitRespected cfg x := by
  intro h
  have hrun : ((tallied (limitConfig 1) uploadedDisk).exec (.boot uploadedDisk 0, ⟨0, 0, false⟩)
      finishBoth).map Prod.snd = some ⟨2, 2, false⟩ := by decide +kernel
  obtain ⟨x, hx, htally⟩ := Option.map_eq_some_iff.mp hrun
  have hreach : (tallied (limitConfig 1) uploadedDisk).Reach Alive x :=
    .of_exec (g := fun _ act => match act with | .kill => false | _ => true)
      (fun _ act _ hact => by rintro rfl; cases hact) (.start ⟨⟨0, rfl⟩, rfl⟩)
      (by decide +kernel) hx
  have hmost := (h (limitConfig 1) uploadedDisk x rfl hreach).atMost (by decide)
  rw [htally] at hmost
  exact absurd hmost (by decide)

end Newiup
