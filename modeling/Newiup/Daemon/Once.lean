import Newiup.Daemon.Finished

/-!
# A node is uploaded once

A server group takes a node at most once.  Its flag file is removed before its copy is
counted down, and the scheduler tests the counter before it tests the flag; so when
the scheduler makes a copy for a server group, that group has not taken the node yet,
and while the copy may still reach the library it has not either.

## Main definitions

* `SoleRun` — the condition on the steps: one node for each monitor file, and flag
  files that can be made and removed.
* `Once` — the invariant.

## Main results

* `SoleStep.once` — **every step keeps the invariant.**
* `upload_once` — **at most one successful upload per node and server group.**
-/

namespace Newiup

/-! ### Copies and calls, from step to step -/

/-- The library has been left behind: the copy is going to be counted down. -/
def UploadPc.spent : UploadPc → Bool
  | .deleteSrc _ => true
  | .deleteFlag _ => true
  | .resetRc _ => true
  | .setFst _ => true
  | .release _ => true
  | _ => false

/-- The library calls that took a copy of the node `a` for server group `i`. -/
def State.successes (s : State) (a : Addr) (i : ℕ) : List Call :=
  s.calls.filter fun call => call.original = a ∧ call.group = i ∧ call.ret = NEWIUP_OK

section Steps

variable {cfg : Config} {M : ℕ → Path → Prop} {s s' : State} {act : Act}

theorem accepted_iff_successes {a : Addr} {i : ℕ} : Accepted s a i ↔ s.successes a i ≠ [] := by
  simp [Accepted, State.successes, List.filter_eq_nil_iff]

/-- A copy that has been counted down stays so until it is freed. -/
theorem released_of_step (hs : Step cfg s act s') {t : ThreadId} {c : Addr}
    (hpc : s.upload t = .free c) : s'.upload t = .free c ∨ s'.heap c = none := by
  by_cases hact : ∃ ret sys, act = .upload t ret sys
  · obtain ⟨ret, sys, rfl⟩ := hact
    cases hs with
    | uploadIdle => exact Or.inl hpc
    | uploadPop hpc' => rw [hpc] at hpc'; cases hpc'
    | uploadLocal hpc' hl => rw [hpc] at hpc'; subst hpc'; cases hl
    | library hpc' => rw [hpc] at hpc'; cases hpc'
    | deleteSrc hpc' => rw [hpc] at hpc'; cases hpc'
    | deleteFlag hpc' => rw [hpc] at hpc'; cases hpc'
    | uploadRequeue hpc' => rw [hpc] at hpc'; cases hpc'
    | release hpc' => rw [hpc] at hpc'; cases hpc'
    | free hpc' =>
      rw [hpc] at hpc'
      cases hpc'
      exact Or.inr (Function.update_self ..)
  · rcases upload_stays hs fun ret sys ha => hact ⟨ret, sys, ha⟩ with h | ⟨-, rfl⟩
    · exact Or.inl (h.trans hpc)
    · exact Or.inr rfl

/-- **Where a live copy comes from**: it was one, for the same server group, or the
scheduler has just made it. -/
theorem liveCopy_of_step (hc : Counts cfg s) (hs : Step cfg s act s') {c a : Addr}
    (h : s'.LiveCopy c a) : (s.LiveCopy c a ∧ s'.grp c = s.grp c) ∨
      ∃ g sys i v, act = .sche g sys ∧ s.sche g = .copy a i v ∧ c = s.next ∧ s'.grp c = i := by
  obtain ⟨n', hn', hcopy, hret, hrel⟩ := h
  -- the node was there, or it is new, as an original or as a copy
  rcases heap_step hc hs hn' with ⟨n, hn, hfix⟩ | ⟨_, _, _, _, -, -, -, -, rfl⟩ |
    ⟨g, sys, b, i, v, n, rfl, hpc, hn, hnb, -, hca, rfl⟩
  · obtain ⟨h₁, -, h₃, -⟩ := fixed_eq_iff.mp hfix
    refine Or.inl ⟨⟨n, hn, h₁ ▸ hcopy, h₃ ▸ hret, fun t ht => hrel t ?_⟩,
      grp_step hs (hc.owned.fresh hn).ne⟩
    have hpc : s.upload t = .free c := by
      simp only [State.held, Option.mem_toList] at ht
      cases hup : s.upload t <;> rw [hup] at ht <;> cases ht
      rfl
    have hpc' := (released_of_step hs hpc).resolve_right fun hno => by rw [hno] at hn'; cases hn'
    simp [State.held, hpc', UploadPc.released]
  · cases hcopy
  · refine Or.inr ⟨g, sys, i, v, rfl, ?_, hca, ?_⟩
    · rw [hpc, ← hnb]
      exact congrArg (SchePc.copy · i v) hret
    · cases hs with
      | scheIdle => exact absurd (hc.owned.fresh hn') (by rw [hca]; exact lt_irrefl _)
      | schePop hpc' => rw [hpc] at hpc'; cases hpc'
      | scheLocal hmg hpc' hl =>
        exact absurd (hc.owned.fresh (a := c) hn') (by rw [hca]; exact lt_irrefl _)
      | createFlag hmg hpc' => rw [hpc] at hpc'; cases hpc'
      | createMarker hmg hpc' => rw [hpc] at hpc'; cases hpc'
      | finishOs hpc' => rw [hpc] at hpc'; cases hpc'
      | scheFree hpc' hf => rw [hpc] at hpc'; subst hpc'; cases hf
      | choose hmg hpc' => rw [hpc] at hpc'; cases hpc'
      | push hpc' => rw [hpc] at hpc'; cases hpc'
      | requeue hpc' => rw [hpc] at hpc'; cases hpc'
      | copy hpc' hcopy' =>
        rw [hpc] at hpc'
        cases hpc'
        obtain ⟨-, heap, rfl⟩ := queueNodeCopy_heap hcopy'
        rw [hca]
        exact Function.update_self ..

/-- A live copy in the hands of a thread that keeps it stays one. -/
theorem liveCopy_of_held (hc : Counts cfg s) (hc' : Counts cfg s') (hs : Step cfg s act s')
    {t : ThreadId} {c a : Addr} (h : s.LiveCopy c a) (ht : (s'.upload t).node = some c) :
    s'.LiveCopy c a := by
  obtain ⟨n, hn, -, hret, -⟩ := h
  obtain ⟨n', -, hn', -, hlive, -⟩ := hc'.upload_node ht
  rwa [(fixed_eq_iff.mp (original_of_step hc hs hn hn')).2.2.1, hret] at hlive

/-- A copy that has left the library behind stays there, until it is counted down. -/
theorem spent_of_step (hs : Step cfg s act s') {t : ThreadId} {c a : Addr}
    (h : s'.LiveCopy c a) (ht : (s.upload t).node = some c) (hsp : (s.upload t).spent = true) :
    (s'.upload t).node = some c ∧ (s'.upload t).spent = true := by
  by_cases hact : ∃ ret sys, act = .upload t ret sys
  · obtain ⟨ret, sys, rfl⟩ := hact
    have hno : ∀ {pc}, s.upload t = pc → pc.spent = false →
        (s'.upload t).node = some c ∧ (s'.upload t).spent = true := fun {pc} hpc hf => by
      rw [hpc, hf] at hsp
      cases hsp
    cases hs with
    | uploadIdle => exact ⟨ht, hsp⟩
    | uploadPop hpc => exact hno hpc rfl
    | @uploadLocal _ _ _ pc pc' hpc hl =>
      show ((s.setUpload t pc').upload t).node = some c ∧
        ((s.setUpload t pc').upload t).spent = true
      rw [State.upload_setUpload_self]
      rw [hpc] at ht hsp
      cases hl with
      | resetRc => exact ⟨ht, rfl⟩
      | setFst => exact ⟨ht, rfl⟩
      | stop => cases ht
      | _ => cases hsp
    | library hpc => exact hno hpc rfl
    | deleteSrc hpc =>
      rw [State.upload_setUpload_self]
      rw [hpc] at ht
      exact ⟨ht, rfl⟩
    | deleteFlag hpc =>
      rw [State.upload_setUpload_self]
      rw [hpc] at ht
      exact ⟨ht, rfl⟩
    | uploadRequeue hpc => exact hno hpc rfl
    | release hpc hn hs' =>
      -- now it is counted down
      rw [hpc] at ht
      cases ht
      obtain ⟨_, -, -, -, hrel⟩ := h
      exact absurd (by simp [State.held, UploadPc.released]) (hrel t)
    | free hpc => exact hno hpc rfl
  · rcases upload_stays hs fun ret sys ha => hact ⟨ret, sys, ha⟩ with h' | ⟨-, rfl⟩
    · rw [h']
      exact ⟨ht, hsp⟩
    · obtain ⟨n, hn, -⟩ := h
      cases hn

/-- **A library call is made on a live copy**; there is no other way to a call. -/
theorem calls_of_step (hc : Counts cfg s) (hs : Step cfg s act s') :
    s'.calls = s.calls ∨ ∃ t ret sys c a o, act = .upload t ret sys ∧ s.upload t = .library c ∧
      s'.upload t = (if ret = NEWIUP_OK then .deleteSrc c else .failed c) ∧ s.LiveCopy c a ∧
      s.heap a = some o ∧
      s'.calls = ⟨c, a, s.grp c, o.monitorId, o.monitorfile, ret⟩ :: s.calls := by
  cases hs with
  | scheFree hpc hf hfree =>
    obtain ⟨heap, rfl⟩ := queueNodeFree_heap hfree
    exact Or.inl rfl
  | copy hpc hcopy =>
    obtain ⟨-, heap, rfl⟩ := queueNodeCopy_heap hcopy
    exact Or.inl rfl
  | release hpc hn hs' =>
    obtain ⟨heap, rfl⟩ := dropRetain_heap hs'
    exact Or.inl rfl
  | @library t ret sys c n o hpc hn ho =>
    obtain ⟨n', o', hn', -, hlive, ho', hor, horig⟩ :=
      hc.upload_node (t := t) (c := c) (by rw [hpc]; rfl)
    cases hn'.symm.trans hn
    cases hor.symm.trans ho
    refine Or.inr ⟨t, ret, sys, c, n.retainCount, o, rfl, hpc, State.upload_setUpload_self ..,
      hlive, ho', ?_⟩
    rw [horig.monitorId]
    rfl
  | _ => exact Or.inl rfl

/-- A server group had taken the node, or a thread has just returned from the library. -/
theorem accepted_of_step (hc : Counts cfg s) (hs : Step cfg s act s') {a : Addr} {i : ℕ}
    (h : Accepted s' a i) : Accepted s a i ∨ ∃ t c, s.upload t = .library c ∧
      s'.upload t = .deleteSrc c ∧ s.LiveCopy c a ∧ s.grp c = i := by
  obtain ⟨call, hcall, hor, hgr, hret⟩ := h
  rcases calls_of_step hc hs with he | ⟨t, ret, sys, c, b, o, -, hpc, hpc', hlive, -, he⟩
  · exact Or.inl ⟨call, he ▸ hcall, hor, hgr, hret⟩
  · rw [he] at hcall
    rcases List.mem_cons.mp hcall with rfl | hcall
    · rw [if_pos hret] at hpc'
      exact Or.inr ⟨t, c, hpc, hpc', hor ▸ hlive, hgr⟩
    · exact Or.inl ⟨call, hcall, hor, hgr, hret⟩

/-- Addresses are handed out in order. -/
theorem next_of_step (hs : Step cfg s act s') : s.next ≤ s'.next := by
  cases hs with
  | monitor => exact Nat.le_succ _
  | scheFree hpc hf hfree =>
    obtain ⟨heap, rfl⟩ := queueNodeFree_heap hfree
    exact le_rfl
  | copy hpc hcopy =>
    obtain ⟨-, heap, rfl⟩ := queueNodeCopy_heap hcopy
    exact Nat.le_succ _
  | release hpc hn hs' =>
    obtain ⟨heap, rfl⟩ := dropRetain_heap hs'
    exact le_rfl
  | _ => exact le_rfl

/-- The calls were made for nodes, and record their texts. -/
def CallsMade (s : State) : Prop :=
  ∀ call ∈ s.calls, call.original < s.next ∧ ∀ n, s.heap call.original = some n →
    call.monitorId = n.monitorId ∧ call.monitorfile = n.monitorfile

theorem CallsMade.step (h : CallsMade s) (hc : Counts cfg s) (hs : Step cfg s act s') :
    CallsMade s' := by
  -- a node that was there has kept its texts
  have hkeep : ∀ {a : Addr} {g m}, a < s.next →
      (∀ n, s.heap a = some n → g = n.monitorId ∧ m = n.monitorfile) →
      ∀ n, s'.heap a = some n → g = n.monitorId ∧ m = n.monitorfile := by
    intro a g m ha hn n' hn'
    rcases heap_step hc hs hn' with ⟨n, hn₀, hfix⟩ | ⟨_, _, _, _, -, -, -, he, -⟩ |
      ⟨_, _, _, _, _, _, -, -, -, -, -, he, -⟩
    · obtain ⟨-, h₂, -, h₄, -⟩ := fixed_eq_iff.mp hfix
      rw [h₂, h₄]
      exact hn n hn₀
    · exact absurd ha (he ▸ lt_irrefl _)
    · exact absurd ha (he ▸ lt_irrefl _)
  have hold : ∀ call ∈ s.calls, call.original < s'.next ∧ ∀ n, s'.heap call.original = some n →
      call.monitorId = n.monitorId ∧ call.monitorfile = n.monitorfile := fun call hcall =>
    ⟨(h call hcall).1.trans_le (next_of_step hs), hkeep (h call hcall).1 (h call hcall).2⟩
  intro call hcall
  rcases calls_of_step hc hs with he | ⟨_, _, _, c, a, o, -, -, -, -, ho, he⟩
  · exact hold call (he ▸ hcall)
  · rw [he] at hcall
    rcases List.mem_cons.mp hcall with rfl | hcall
    · have ha := hc.owned.fresh ho
      exact ⟨ha.trans_le (next_of_step hs), hkeep ha fun n hn => by
        cases ho.symm.trans hn
        exact ⟨rfl, rfl⟩⟩
    · exact hold call hcall

theorem CallsMade.reach {disk : Fs} {G : State → Act → Prop} (h : (daemon cfg disk).Reach G s) :
    CallsMade s := by
  refine h.invariant ?_ fun s a s' hr h _ hs => h.step (.reach hr) (step_cases hs)
  rintro _ ⟨time, rfl⟩ call hcall
  cases hcall

/-! ### Where a scheduler goes -/

/-- Between the creation of the state files and the return to the queue. -/
def SchePc.past : SchePc → Option Addr
  | .check a _ => some a
  | .dispatch a _ => some a
  | .choose a _ _ => some a
  | .copy a _ _ => some a
  | .push a _ _ _ => some a
  | _ => none

theorem SchePc.node_of_past {pc : SchePc} {a : Addr} (h : pc.past = some a) :
    pc.node = some a := by
  cases pc <;> simp_all [SchePc.past, SchePc.node]

/-- A scheduler makes flag files when the marker is not there. -/
theorem create_of_step {g : ℕ} {sys : Sys} (hs : Step cfg s (.sche g sys) s') {a : Addr} {j : ℕ}
    (h : s'.sche g = .create a j) : (∃ k, s.sche g = .create a k) ∨ s.sche g = .marker a ∧
      ∃ o, s.original a = some o ∧ ¬Present cfg s (.marker o.monitorfile) := by
  cases hs with
  | scheIdle => exact Or.inl ⟨j, h⟩
  | @scheLocal _ _ mg pc pc' hmg hpc hl =>
    change (s.setSche g pc').sche g = _ at h
    rw [State.sche_setSche_self] at h
    subst h
    cases hl with
    | unmarked ho hmark =>
      refine Or.inr ⟨hpc, _, ho, fun hp => ?_⟩
      rw [present_iff rfl, hmark] at hp
      cases hp
  | createFlag hmg hpc =>
    rw [State.sche_setSche_self] at h
    cases h
    exact Or.inl ⟨_, hpc⟩
  | schePop => rw [State.sche_setSche_self] at h; cases h
  | createMarker => rw [State.sche_setSche_self] at h; cases h
  | finishOs => rw [State.sche_setSche_self] at h; cases h
  | scheFree => rw [State.sche_setSche_self] at h; cases h
  | choose => rw [State.sche_setSche_self] at h; cases h
  | copy => rw [State.sche_setSche_self] at h; cases h
  | push => rw [State.sche_setSche_self] at h; cases h
  | requeue => rw [State.sche_setSche_self] at h; cases h

/-- A scheduler gets past the creation of the state files when the marker is there. -/
theorem past_of_step {g : ℕ} {sys : Sys} (hc : Counts cfg s) (hs : Step cfg s (.sche g sys) s')
    (hmakes : Makes cfg s (.sche g sys)) {a : Addr}
    (h : (s'.sche g).past = some a) : (s.sche g).past = some a ∨
      ∃ o, s.original a = some o ∧ Present cfg s' (.marker o.monitorfile) := by
  -- it gets there where the marker is found, or where it is created
  cases hs with
  | scheIdle => exact Or.inl h
  | @scheLocal _ _ mg pc pc' hmg hpc hl =>
    change ((s.setSche g pc').sche g).past = _ at h
    rw [State.sche_setSche_self] at h
    rw [hpc]
    cases hl with
    | marked ho hmark =>
      cases h
      exact Or.inr ⟨_, ho, (present_iff rfl).mpr hmark⟩
    | flagged => exact Or.inl h
    | unflagged => exact Or.inl h
    | skip => exact Or.inl h
    | scan => exact Or.inl h
    | unserved => exact Or.inl h
    | chosen => exact Or.inl h
    | unallocated => exact Or.inl h
    | _ => cases h
  | createMarker hmg hpc ho hsg =>
    rw [State.sche_setSche_self] at h
    cases h
    obtain ⟨n, hn, horig, ho'⟩ := hc.sche_node (g := g) (by rw [hpc]; rfl)
    cases ho'.symm.trans ho
    refine Or.inr ⟨_, ho, (present_iff rfl).mpr ?_⟩
    refine hmakes _ _ _ _ _ _ rfl hpc (.createMarker hpc hn ?_) rfl
    rintro ⟨mg', sg, hmg', hsg'⟩
    cases hmg'.symm.trans hmg
    rw [hsg] at hsg'
    cases hsg'
  | choose hmg hpc =>
    rw [State.sche_setSche_self] at h
    rw [hpc]
    exact Or.inl h
  | copy hpc =>
    rw [State.sche_setSche_self] at h
    rw [hpc]
    exact Or.inl h
  | push hpc =>
    rw [State.sche_setSche_self] at h
    rw [hpc]
    exact Or.inl h
  | schePop => rw [State.sche_setSche_self] at h; cases h
  | createFlag => rw [State.sche_setSche_self] at h; cases h
  | finishOs => rw [State.sche_setSche_self] at h; cases h
  | scheFree => rw [State.sche_setSche_self] at h; cases h
  | requeue => rw [State.sche_setSche_self] at h; cases h

/-- A scheduler turns to a server group whose flag file is there. -/
theorem naming_of_step {g : ℕ} {sys : Sys} (hs : Step cfg s (.sche g sys) s') {a : Addr} {i : ℕ}
    (h : (s'.sche g).naming = some (a, i)) : (s.sche g).naming = some (a, i) ∨
      s.sche g = .dispatch a i ∧ ∃ o, s.original a = some o ∧
        Present cfg s (.flag g o.monitorfile i) := by
  cases hs with
  | scheIdle => exact Or.inl h
  | @scheLocal _ _ mg pc pc' hmg hpc hl =>
    change ((s.setSche g pc').sche g).naming = _ at h
    rw [State.sche_setSche_self] at h
    rw [hpc]
    cases hl with
    | scan => exact Or.inl h
    | chosen => exact Or.inl h
    | _ => cases h
  | choose hmg hpc hn ho hsg hflag =>
    rw [State.sche_setSche_self] at h
    cases h
    exact Or.inr ⟨hpc, _, ho, (present_iff (path_flag hmg hsg)).mpr hflag⟩
  | schePop => rw [State.sche_setSche_self] at h; cases h
  | createFlag => rw [State.sche_setSche_self] at h; cases h
  | createMarker => rw [State.sche_setSche_self] at h; cases h
  | finishOs => rw [State.sche_setSche_self] at h; cases h
  | scheFree => rw [State.sche_setSche_self] at h; cases h
  | copy => rw [State.sche_setSche_self] at h; cases h
  | push => rw [State.sche_setSche_self] at h; cases h
  | requeue => rw [State.sche_setSche_self] at h; cases h

/-- A scheduler that finishes a node goes on until the node is freed. -/
theorem finish_of_step (hs : Step cfg s act s') {g : ℕ} {a : Addr} {f : FinishStage}
    (h : s.sche g = .finish a f) : (∃ f', s'.sche g = .finish a f') ∨ s'.heap a = none := by
  by_cases hact : ∃ sys, act = .sche g sys
  · obtain ⟨sys, rfl⟩ := hact
    -- a local step goes on within the finish; the free is the one way out
    cases hs with
    | scheIdle => exact Or.inl ⟨f, h⟩
    | @scheLocal _ _ mg pc pc' hmg hpc hl =>
      refine Or.inl ?_
      show ∃ f', (s.setSche g pc').sche g = .finish a f'
      rw [State.sche_setSche_self]
      rw [h] at hpc
      subst hpc
      cases hl with
      | _ => exact ⟨_, rfl⟩
    | finishOs hpc =>
      rw [h] at hpc
      cases hpc
      exact Or.inl ⟨_, State.sche_setSche_self ..⟩
    | scheFree hpc hf hfree =>
      rw [h] at hpc
      subst hpc
      cases hf
      simp only [State.queueNodeFree, Option.bind_eq_bind, Option.bind_eq_some_iff] at hfree
      obtain ⟨n, -, s₂, -, he⟩ := hfree
      cases he
      exact Or.inr (Function.update_self ..)
    | schePop hpc => rw [h] at hpc; cases hpc
    | createFlag hmg hpc => rw [h] at hpc; cases hpc
    | createMarker hmg hpc => rw [h] at hpc; cases hpc
    | choose hmg hpc => rw [h] at hpc; cases hpc
    | copy hpc => rw [h] at hpc; cases hpc
    | push hpc => rw [h] at hpc; cases hpc
    | requeue hpc => rw [h] at hpc; cases hpc
  · rcases sche_of_step hs fun sys ha => hact ⟨sys, ha⟩ with h' | ⟨-, rfl⟩
    · exact Or.inl ⟨f, h'.trans h⟩
    · exact Or.inr rfl

/-- A thread removes the flag file of the group its copy is for. -/
theorem deleteFlag_removes (hc : Counts cfg s) {t : ThreadId} {ret : ℤ} {sys : Sys} {c : Addr}
    {n o : FileQueue} (hpc : s.upload t = .deleteFlag c) (hn : s.heap c = some n)
    (ho : s.heap n.retainCount = some o) (hsys : none ∉ sys)
    (hs : Step cfg s (.upload t ret sys) s') :
    ¬Present cfg s' (.flag n.monitorId o.monitorfile (s.grp c)) := by
  cases hs with
  | @deleteFlag _ _ _ c' k o' mg name hpc' hk hor' hmg hname =>
    rw [hpc] at hpc'
    cases hpc'
    cases hk.symm.trans hn
    obtain ⟨k', -, hk', -, hlive, -⟩ := hc.upload_node (t := t) (c := c) (by rw [hpc]; rfl)
    cases hk'.symm.trans hn
    rw [State.original, hn, Option.bind_some, ho] at hor'
    cases hor'
    obtain ⟨mg', sg, hmg', hsg, hname'⟩ := hc.dispatched.named hlive hn
    cases hmg'.symm.trans hmg
    cases hname'.symm.trans hname
    rw [present_iff (path_flag hmg hsg)]
    exact fun hp => Bool.false_ne_true ((has_deleteFile s _ hsys).symm.trans hp)
  | uploadIdle hpc' => rw [hpc] at hpc'; cases hpc'
  | uploadPop hpc' => rw [hpc] at hpc'; cases hpc'
  | uploadLocal hpc' hl => rw [hpc] at hpc'; subst hpc'; cases hl
  | library hpc' => rw [hpc] at hpc'; cases hpc'
  | deleteSrc hpc' => rw [hpc] at hpc'; cases hpc'
  | uploadRequeue hpc' => rw [hpc] at hpc'; cases hpc'
  | release hpc' => rw [hpc] at hpc'; cases hpc'
  | free hpc' => rw [hpc] at hpc'; cases hpc'

/-- An original was there, or it has just been added. -/
theorem original_was (hc : Counts cfg s) (hs : Step cfg s act s') {a : Addr} {n' : FileQueue}
    (hn' : s'.heap a = some n') (hcopy : n'.copy = false) :
    (∃ n, s.heap a = some n ∧ n.copy = false ∧ n'.monitorId = n.monitorId ∧
      n'.monitorfile = n.monitorfile ∧ s.original a = some n) ∨ a = s.next := by
  rcases heap_step hc hs hn' with ⟨n, hn, hfix⟩ | ⟨_, _, _, _, -, -, -, ha, -⟩ |
    ⟨_, _, _, _, _, _, -, -, -, -, -, -, rfl⟩
  · obtain ⟨h₁, h₂, -, h₄, -⟩ := fixed_eq_iff.mp hfix
    obtain ⟨p, hp⟩ := hc.owned.holder hn
    have hcopy₀ : n.copy = false := h₁ ▸ hcopy
    have hret : n.retainCount = a := by
      cases hg : p.group with
      | none => rw [hc.owned.isCopy hp hg hn] at hcopy₀; cases hcopy₀
      | some g => exact (hc.owned.isOriginal hp hg hn).retainCount
    exact Or.inl ⟨n, hn, hcopy₀, h₂, h₄, by rw [State.original, hn, Option.bind_some, hret, hn]⟩
  · exact Or.inr ha
  · cases hcopy

end Steps

/-! ### The invariant -/

/-- **Steps of runs with one node for each monitor file**, where the flag files can be
made and removed. -/
structure SoleRun (cfg : Config) (M : ℕ → Path → Prop) (s : State) (act : Act) : Prop
    extends CarefulRun cfg M s act where
  /-- They can be removed. -/
  removes : ∀ t ret sys c, act = .upload t ret sys → s.upload t = .deleteFlag c → none ∉ sys
  /-- No other node waits for the monitor file. -/
  sole : ∀ g m, act = .monitor g m → NoNode s g m

/-- The node has got past the creation of its state files. -/
def Begun (s : State) (a : Addr) : Prop :=
  (∃ i, Accepted s a i) ∨ (∃ c, s.LiveCopy c a) ∨ ∃ g, (s.sche g).past = some a

/-- A thread is about to remove the flag of the node `a` for server group `i`. -/
def Removing (s : State) (a : Addr) (i : ℕ) : Prop :=
  ∃ t c, (s.upload t = .deleteSrc c ∨ s.upload t = .deleteFlag c) ∧ s.LiveCopy c a ∧ s.grp c = i

/-- **A server group that has taken a node is not asked again.**  A flag is removed after a
success and never made again while the node lives, since its marker stays.  A copy is made only
where the flag is there, so that no second one is made for the group; and the thread that holds
the first one is past its library call. -/
structure Once (cfg : Config) (s : State) : Prop where
  /-- The marker stays until the node is finished. -/
  marker : ∀ {a n}, s.heap a = some n → n.copy = false → Begun s a →
    Present cfg s (.marker n.monitorfile) ∨ ∃ f, s.sche n.monitorId = .finish a f
  /-- State files are made before any success. -/
  create : ∀ {g a j i}, s.sche g = .create a j → ¬Accepted s a i
  /-- After a success the flag is gone, or about to be. -/
  flag : ∀ {a n i}, s.heap a = some n → n.copy = false → Accepted s a i →
    ¬Present cfg s (.flag n.monitorId n.monitorfile i) ∨ Removing s a i
  /-- A copy is made before any success of its group. -/
  naming : ∀ {g a i}, (s.sche g).naming = some (a, i) → ¬Accepted s a i
  /-- A live copy whose group has taken the node has left the library behind. -/
  live : ∀ {c a}, s.LiveCopy c a → Accepted s a (s.grp c) →
    ∃ t, (s.upload t).node = some c ∧ (s.upload t).spent = true
  /-- There is at most one success. -/
  once : ∀ a i, (s.successes a i).length ≤ 1

/-- One step of a run with one node for each monitor file. -/
structure SoleStep (cfg : Config) (M : ℕ → Path → Prop) (s : State) (act : Act) (s' : State) :
    Prop where
  apart : StateFilesApart cfg M
  unshared : Unshared M
  counts : Counts cfg s
  counts' : Counts cfg s'
  named : Named cfg M s
  made : CallsMade s
  one : ∀ {a a' n n'}, s.heap a = some n → s.heap a' = some n' → n.copy = false →
    n'.copy = false → n.monitorId = n'.monitorId → n.monitorfile = n'.monitorfile → a = a'
  guard : SoleRun cfg M s act
  step : Step cfg s act s'

namespace SoleStep

variable {cfg : Config} {M : ℕ → Path → Prop} {s s' : State} {act : Act}
  (h : SoleStep cfg M s act s')
include h

theorem present {f : StateFile} (hf : f.Of M) (ht : ¬Touch cfg s act f) :
    Present cfg s' f ↔ Present cfg s f :=
  present_step h.apart h.counts h.named h.guard.keepsOff h.step hf ht

/-- The node of a scheduler is the one its state files are for. -/
theorem eq_of_sche {g : ℕ} {a b : Addr} {n k : FileQueue} (hn : s.heap a = some n)
    (hcopy : n.copy = false) (hb : (s.sche g).node = some b) (hk : s.heap b = some k)
    (hm : k.monitorfile = n.monitorfile) : b = a ∧ n.monitorId = g := by
  obtain ⟨k', hk', horig, -⟩ := h.counts.sche_node hb
  obtain rfl : k' = k := Option.some.inj (hk'.symm.trans hk)
  have hid : n.monitorId = k'.monitorId :=
    h.unshared _ _ n.monitorfile (h.named a n hn).1 (hm ▸ (h.named b k' hk).1)
  exact ⟨h.one hk hn horig.copy hcopy hid.symm hm, hid.trans horig.monitorId⟩

/-- A node that is not there has not begun. -/
theorem heap_of_begun {a : Addr} (hb : Begun s a) : a < s.next := by
  rcases hb with ⟨i, call, hcall, rfl, -⟩ | ⟨c, hc⟩ | ⟨g, hg⟩
  · exact (h.made call hcall).1
  · obtain ⟨n, hn, -⟩ := id hc
    obtain ⟨o, ho, -⟩ := h.counts.owned.original hc hn
    exact h.counts.owned.fresh ho
  · obtain ⟨n, hn, -⟩ := h.counts.sche_node (SchePc.node_of_past hg)
    exact h.counts.owned.fresh hn

/-- A node begins when its marker is there. -/
theorem begun {a : Addr} (hb : Begun s' a) : Begun s a ∨
    ∃ o, s.original a = some o ∧ Present cfg s' (.marker o.monitorfile) := by
  rcases hb with ⟨i, hacc⟩ | ⟨c, hc⟩ | ⟨g, hg⟩
  · rcases accepted_of_step h.counts h.step hacc with hacc | ⟨-, c, -, -, hc, -⟩
    · exact Or.inl (Or.inl ⟨i, hacc⟩)
    · exact Or.inl (Or.inr (Or.inl ⟨c, hc⟩))
  · rcases liveCopy_of_step h.counts h.step hc with ⟨hc, -⟩ | ⟨g, -, i, v, -, hpc, -⟩
    · exact Or.inl (Or.inr (Or.inl ⟨c, hc⟩))
    · exact Or.inl (Or.inr (Or.inr ⟨g, by rw [hpc]; rfl⟩))
  · by_cases hact : ∃ sys, act = .sche g sys
    · obtain ⟨sys, rfl⟩ := hact
      rcases past_of_step h.counts h.step h.guard.makes hg with hg | hp
      · exact Or.inl (Or.inr (Or.inr ⟨g, hg⟩))
      · exact Or.inr hp
    · rcases sche_of_step h.step fun sys ha => hact ⟨sys, ha⟩ with hs | ⟨-, hs⟩
      · exact Or.inl (Or.inr (Or.inr ⟨g, hs ▸ hg⟩))
      · rw [hs] at hg
        cases hg

theorem marker (ho : Once cfg s) {a : Addr} {n' : FileQueue} (hn' : s'.heap a = some n')
    (hcopy : n'.copy = false) (hb : Begun s' a) :
    Present cfg s' (.marker n'.monitorfile) ∨ ∃ f, s'.sche n'.monitorId = .finish a f := by
  rcases h.begun hb with hb | ⟨o, hor, hp⟩
  · rcases original_was h.counts h.step hn' hcopy with ⟨n, hn, hc, hid, hm, -⟩ | rfl
    · rw [hid, hm]
      have hfin : ∀ {f}, s.sche n.monitorId = .finish a f →
          ∃ f, s'.sche n.monitorId = .finish a f := fun hf =>
        (finish_of_step h.step hf).resolve_right fun hno => by rw [hno] at hn'; cases hn'
      rcases ho.marker hn hc hb with hp | ⟨f, hf⟩
      · by_cases ht : Touch cfg s act (.marker n.monitorfile)
        · obtain ⟨f, hf⟩ : ∃ f, f = StateFile.marker n.monitorfile := ⟨_, rfl⟩
          rw [← hf] at ht
          cases ht with
          | createFlag => cases hf
          | deleteFlag => cases hf
          | createMarker hpc => exact Or.inl (present_of_create hpc h.step hp)
          | @delMarker g sys b st k hpc hst hk =>
            -- the node itself is being finished
            obtain ⟨rfl, hg⟩ := h.eq_of_sche hn hc (g := g) (b := b) (by rw [hpc]; rfl) hk
              (StateFile.marker.inj hf)
            exact Or.inr (hfin (hg ▸ hpc))
        · exact Or.inl ((h.present (f := .marker _) ⟨_, (h.named a n hn).1⟩ ht).mpr hp)
      · exact Or.inr (hfin hf)
    · exact absurd (h.heap_of_begun hb) (lt_irrefl _)
  · rcases original_was h.counts h.step hn' hcopy with ⟨n, -, -, -, hm, hor'⟩ | rfl
    · cases hor.symm.trans hor'
      exact Or.inl (hm ▸ hp)
    · obtain ⟨n, hn, -⟩ := Option.bind_eq_some_iff.mp hor
      exact absurd (h.counts.owned.fresh hn) (lt_irrefl _)

theorem create (ho : Once cfg s) {g : ℕ} {a : Addr} {j i : ℕ} (hpc : s'.sche g = .create a j) :
    ¬Accepted s' a i := by
  intro hacc
  have hpc' : (∃ k, s.sche g = .create a k) ∨ s.sche g = .marker a ∧
      ∃ o, s.original a = some o ∧ ¬Present cfg s (.marker o.monitorfile) := by
    by_cases hact : ∃ sys, act = .sche g sys
    · obtain ⟨sys, rfl⟩ := hact
      exact create_of_step h.step hpc
    · rcases sche_of_step h.step fun sys ha => hact ⟨sys, ha⟩ with hs | ⟨-, hs⟩
      · exact Or.inl ⟨j, hs ▸ hpc⟩
      · rw [hs] at hpc
        cases hpc
  have hbound : (s.sche g).bound = some (a, 0) := by
    rcases hpc' with ⟨k, hk⟩ | ⟨hk, -⟩ <;> rw [hk] <;> rfl
  rcases accepted_of_step h.counts h.step hacc with hacc | ⟨t, c, -, -, hlive, -⟩
  · rcases hpc' with ⟨k, hk⟩ | ⟨hk, o, hor, hno⟩
    · exact ho.create hk hacc
    · obtain ⟨n, hn, horig, hor'⟩ := h.counts.sche_node (g := g) (a := a) (by rw [hk]; rfl)
      cases hor.symm.trans hor'
      rcases ho.marker hn horig.copy (Or.inl ⟨i, hacc⟩) with hp | ⟨f, hf⟩
      · exact hno hp
      · rw [horig.monitorId, hk] at hf
        cases hf
  · exact absurd (h.counts.dispatched.bound hbound hlive) (Nat.not_lt_zero _)

theorem naming (ho : Once cfg s) {g : ℕ} {a : Addr} {i : ℕ}
    (hpc : (s'.sche g).naming = some (a, i)) : ¬Accepted s' a i := by
  intro hacc
  have hpc' : (s.sche g).naming = some (a, i) ∨ s.sche g = .dispatch a i ∧
      ∃ o, s.original a = some o ∧ Present cfg s (.flag g o.monitorfile i) := by
    by_cases hact : ∃ sys, act = .sche g sys
    · obtain ⟨sys, rfl⟩ := hact
      exact naming_of_step h.step hpc
    · rcases sche_of_step h.step fun sys ha => hact ⟨sys, ha⟩ with hs | ⟨-, hs⟩
      · exact Or.inl (hs ▸ hpc)
      · rw [hs] at hpc
        cases hpc
  have hbound : (s.sche g).bound = some (a, i) := by
    rcases hpc' with hk | ⟨hk, -⟩
    · exact SchePc.bound_of_naming hk
    · rw [hk]
      rfl
  -- the live copies are for the server groups before `i`
  have hno : ∀ {c}, s.LiveCopy c a → s.grp c ≠ i := fun hc =>
    (h.counts.dispatched.bound hbound hc).ne
  rcases accepted_of_step h.counts h.step hacc with hacc | ⟨t, c, -, -, hlive, hgrp⟩
  · rcases hpc' with hk | ⟨hk, o, hor, hp⟩
    · exact ho.naming hk hacc
    · obtain ⟨n, hn, horig, hor'⟩ := h.counts.sche_node (g := g) (a := a) (by rw [hk]; rfl)
      cases hor.symm.trans hor'
      rcases ho.flag hn horig.copy hacc with hf | ⟨t, c, -, hc, hgrp⟩
      · exact hf (horig.monitorId ▸ hp)
      · exact hno hc hgrp
  · exact hno hlive hgrp

theorem live (ho : Once cfg s) {c a : Addr} (hc : s'.LiveCopy c a)
    (hacc : Accepted s' a (s'.grp c)) :
    ∃ t, (s'.upload t).node = some c ∧ (s'.upload t).spent = true := by
  rcases liveCopy_of_step h.counts h.step hc with ⟨hc₀, hgrp⟩ | ⟨g, sys, i, v, rfl, hpc, rfl, hgrp⟩
  · rw [hgrp] at hacc
    rcases accepted_of_step h.counts h.step hacc with hacc | ⟨t, c', hpc, hpc', hc', hgrp'⟩
    · obtain ⟨t, ht, hsp⟩ := ho.live hc₀ hacc
      exact ⟨t, spent_of_step h.step hc ht hsp⟩
    · -- it is the copy that has just been taken
      obtain rfl := h.counts.dispatched.inj hc' hc₀ hgrp'
      exact ⟨t, by rw [hpc']; rfl, by rw [hpc']; rfl⟩
  · rw [hgrp] at hacc
    rcases accepted_of_step h.counts h.step hacc with hacc | ⟨t, c', -, -, hc', hgrp'⟩
    · exact absurd hacc (ho.naming (g := g) (by rw [hpc]; rfl))
    · exact absurd hgrp' (h.counts.dispatched.bound (g := g) (by rw [hpc]; rfl) hc').ne

/-- The thread that took the copy removes the flag. -/
theorem removed {t : ThreadId} {c a : Addr} {n : FileQueue} (hn : s.heap a = some n)
    (hpc : s.upload t = .deleteSrc c ∨ s.upload t = .deleteFlag c) (hlive : s.LiveCopy c a)
    (hs' : s' ≠ s.restart) :
    ¬Present cfg s' (.flag n.monitorId n.monitorfile (s.grp c)) ∨ Removing s' a (s.grp c) := by
  have hstays : (s'.upload t = .deleteSrc c ∨ s'.upload t = .deleteFlag c) →
      Removing s' a (s.grp c) := fun hk => by
    have hnode : (s'.upload t).node = some c := by rcases hk with hk | hk <;> rw [hk] <;> rfl
    obtain ⟨k, hk', -⟩ := id hlive
    exact ⟨t, c, hk, liveCopy_of_held h.counts h.counts' h.step hlive hnode,
      grp_step h.step (h.counts.owned.fresh hk').ne⟩
  -- the thread itself goes on to the flag, or removes it; the steps of others let it stay
  by_cases hact : ∃ ret sys, act = .upload t ret sys
  · obtain ⟨ret, sys, rfl⟩ := hact
    rcases hpc with hpc | hpc
    · refine Or.inr (hstays (Or.inr ?_))
      have hs := h.step
      cases hs with
      | deleteSrc hpc' =>
        rw [hpc] at hpc'
        cases hpc'
        exact State.upload_setUpload_self ..
      | uploadIdle hpc' => rw [hpc] at hpc'; cases hpc'
      | uploadPop hpc' => rw [hpc] at hpc'; cases hpc'
      | uploadLocal hpc' hl => rw [hpc] at hpc'; subst hpc'; cases hl
      | library hpc' => rw [hpc] at hpc'; cases hpc'
      | deleteFlag hpc' => rw [hpc] at hpc'; cases hpc'
      | uploadRequeue hpc' => rw [hpc] at hpc'; cases hpc'
      | release hpc' => rw [hpc] at hpc'; cases hpc'
      | free hpc' => rw [hpc] at hpc'; cases hpc'
    · obtain ⟨k, o, hk, -, -, ho, -, horig⟩ :=
        h.counts.upload_node (t := t) (c := c) (by rw [hpc]; rfl)
      obtain ⟨l, hl, -, rfl, -⟩ := hlive
      cases hl.symm.trans hk
      cases ho.symm.trans hn
      rw [horig.monitorId]
      exact Or.inl (deleteFlag_removes h.counts hpc hk hn (h.guard.removes t ret sys c rfl hpc)
        h.step)
  · rcases upload_stays h.step fun ret sys ha => hact ⟨ret, sys, ha⟩ with he | ⟨-, he⟩
    · exact Or.inr (hstays (by rwa [he]))
    · exact absurd he hs'

theorem flag (ho : Once cfg s) {a : Addr} {n' : FileQueue} {i : ℕ} (hn' : s'.heap a = some n')
    (hcopy : n'.copy = false) (hacc : Accepted s' a i) :
    ¬Present cfg s' (.flag n'.monitorId n'.monitorfile i) ∨ Removing s' a i := by
  rcases accepted_of_step h.counts h.step hacc with hacc | ⟨t, c, hpc, hpc', hlive, hgrp⟩
  · rcases original_was h.counts h.step hn' hcopy with ⟨n, hn, hc, hid, hm, -⟩ | rfl
    · rw [hid, hm]
      rcases ho.flag hn hc hacc with hf | ⟨t, c, hpc, hlive, hgrp⟩
      · -- it would have to be made again
        refine Or.inl fun hp => ?_
        rcases present_of_step h.apart h.counts h.named h.guard.keepsOff h.step
          (f := .flag _ _ i) (h.named a n hn).1 hp with hp | ⟨g, sys, b, j, rfl, hpc, ht⟩
        · exact hf hp
        · obtain ⟨f, hf⟩ : ∃ f, f = StateFile.flag n.monitorId n.monitorfile i := ⟨_, rfl⟩
          rw [← hf] at ht
          cases ht with
          | createMarker => cases hf
          | delMarker => cases hf
          | createFlag hpc' hk hi =>
            rw [hpc] at hpc'
            cases hpc'
            obtain ⟨rfl, -⟩ := h.eq_of_sche hn hc (g := g) (b := b) (by rw [hpc]; rfl) hk
              (StateFile.flag.inj hf).2.1
            exact ho.create hpc hacc
      · subst hgrp
        exact h.removed hn hpc hlive fun he => by rw [he] at hn'; cases hn'
    · exact absurd (h.heap_of_begun (Or.inl ⟨i, hacc⟩)) (lt_irrefl _)
  · have hnode : (s'.upload t).node = some c := by rw [hpc']; rfl
    obtain ⟨n, hn, -⟩ := id hlive
    exact Or.inr ⟨t, c, Or.inl hpc', liveCopy_of_held h.counts h.counts' h.step hlive hnode,
      by rw [grp_step h.step (h.counts.owned.fresh hn).ne, hgrp]⟩

/-- **Every step keeps the invariant.** -/
theorem once (ho : Once cfg s) : Once cfg s' where
  marker := h.marker ho
  create := h.create ho
  flag := h.flag ho
  naming := h.naming ho
  live := h.live ho
  once a i := by
    rcases calls_of_step h.counts h.step with he | ⟨t, ret, sys, c, b, o, -, hpc, -, hlive, -, he⟩
    · rw [State.successes, he]
      exact ho.once a i
    · rw [State.successes, he, List.filter_cons]
      split
      · next hcall =>
        -- the copy was at the library, so its group had not taken the node
        simp only [decide_eq_true_eq] at hcall
        obtain ⟨rfl, rfl, -⟩ := hcall
        have hno : ¬Accepted s b (s.grp c) := fun hacc => by
          obtain ⟨t', ht', hsp⟩ := ho.live hlive hacc
          have ht : (s.upload t).node = some c := by rw [hpc]; rfl
          obtain rfl := h.counts.upload_unique ht ht'
          rw [hpc] at hsp
          cases hsp
        rw [accepted_iff_successes, not_not, State.successes] at hno
        rw [hno]
        exact le_rfl
      · exact ho.once a i

end SoleStep

/-- **The invariant holds in every reachable state**, from any disk. -/
theorem Once.reach {cfg : Config} {M : ℕ → Path → Prop} {disk : Fs} {s : State}
    (hap : StateFilesApart cfg M) (hun : Unshared M)
    (h : (daemon cfg disk).Reach (SoleRun cfg M) s) : Once cfg s := by
  refine h.invariant ?_ fun s a s' hr ho hg hs => ?_
  · rintro _ ⟨time, rfl⟩
    have hno : ∀ {a i}, ¬Accepted (State.boot disk time) a i := fun ⟨_, hcall, _⟩ => by cases hcall
    exact {
      marker := fun hn => by cases hn
      create := fun _ => hno
      flag := fun hn => by cases hn
      naming := fun _ => hno
      live := fun _ hacc => absurd hacc hno
      once := fun _ _ => Nat.zero_le _ }
  · exact SoleStep.once ⟨hap, hun, .reach hr, .reach (hr.next hg hs),
      .reach (fun s a hg => hg.keepsOff) hr, .reach hr, one_node (fun hg => hg.sole _ _ rfl) hr, hg,
      step_cases hs⟩ ho

/-- **At most one successful upload per node and server group.**  At most one copy of a
node is live for a server group; it carries the name of that group, so that a success
removes the flag file of that group and no other; and at most one library call for
the group returns `NEWIUP_OK`. -/
theorem upload_once {cfg : Config} {M : ℕ → Path → Prop} {disk : Fs} {s : State}
    (hap : StateFilesApart cfg M) (hun : Unshared M)
    (h : (daemon cfg disk).Reach (SoleRun cfg M) s) :
    (∀ a i, {c | s.LiveCopy c a ∧ s.grp c = i}.Subsingleton) ∧
    (∀ c a n, s.LiveCopy c a → s.heap c = some n → NamedFor cfg n.monitorId (s.grp c) n) ∧
    (∀ t ret sys s' c n o, s.upload t = .deleteFlag c → s.heap c = some n →
      s.heap n.retainCount = some o → none ∉ sys → step cfg s (.upload t ret sys) = some s' →
      ∀ f : StateFile, f.Of M → (Present cfg s' f ↔
        Present cfg s f ∧ f ≠ .flag n.monitorId o.monitorfile (s.grp c))) ∧
    ∀ a i, (s.successes a i).length ≤ 1 := by
  have hc : Counts cfg s := .reach h
  have hnm : Named cfg M s := .reach (fun s a hg => hg.keepsOff) h
  refine ⟨fun a i c hcopy c' hcopy' => ?_, fun c a n hlive hn => hc.dispatched.named hlive hn,
    fun t ret sys s' c n o hpc hn ho hsys hs f hf => ?_, (Once.reach hap hun h).once⟩
  · exact hc.dispatched.inj hcopy.1 hcopy'.1 (hcopy.2.trans hcopy'.2.symm)
  · have ht : ∀ f, Touch cfg s (.upload t ret sys) f →
        f = .flag n.monitorId o.monitorfile (s.grp c) := fun f ht => by
      cases ht with
      | @deleteFlag _ _ _ c' k o' hpc' hk hor =>
        rw [hpc] at hpc'
        cases hpc'
        cases hk.symm.trans hn
        rw [State.original, hn, Option.bind_some, ho] at hor
        cases hor
        rfl
    by_cases hff : f = .flag n.monitorId o.monitorfile (s.grp c)
    · subst hff
      exact ⟨fun hp => absurd hp (deleteFlag_removes hc hpc hn ho hsys (step_cases hs)),
        fun hp => absurd rfl hp.2⟩
    · have hk : KeepsOff cfg M (.upload t ret sys) := trivial
      rw [present_step hap hc hnm hk (step_cases hs) hf fun htf => hff (ht f htf)]
      exact ⟨fun hp => ⟨hp, hff⟩, fun hp => hp.1⟩

/-- `SoleRun` for finitely many monitor files, as a test. -/
def soleTest (cfg : Config) (files : List (ℕ × Path)) (s : State) (act : Act) : Bool :=
  carefulTest cfg files s act && match act with
    | .monitor g m => noNode s g m
    | _ => true

theorem SoleRun.of_test {cfg : Config} {M : ℕ → Path → Prop} {files : List (ℕ × Path)}
    (hM : ∀ g m, M g m ↔ (g, m) ∈ files) {s : State} (hc : Counts cfg s) {act : Act}
    (h : soleTest cfg files s act = true) : SoleRun cfg M s act := by
  obtain ⟨hcare, hf⟩ := Bool.and_eq_true_iff.mp h
  refine ⟨.of_test hM hcare, fun t ret sys c hact _ => ?_, fun g m hact => ?_⟩
  · subst hact
    exact of_decide_eq_true (succeeds_of_carefulTest hcare)
  · subst hact
    exact .of_noNode hc hf

/-- The theorem at a node whose source is made again after its upload. -/
theorem upload_once_finished :
    ∃ s, (daemon sampleConfig sampleDisk).exec (.boot sampleDisk 1000) finishedRun = some s ∧
      Accepted s 0 0 ∧ (s.successes 0 0).length ≤ 1 := by
  have hrun : ((daemon sampleConfig sampleDisk).exec (.boot sampleDisk 1000)
      finishedRun).map (fun s => decide (s.successes 0 0 = [])) = some false := by decide +kernel
  obtain ⟨s, hs, hacc⟩ := Option.map_eq_some_iff.mp hrun
  have hreach : (daemon sampleConfig sampleDisk).Reach
      (SoleRun _ (watched (· = "/d/a.c".toList))) s :=
    .of_exec (g := soleTest sampleConfig sampleFiles)
      (fun _ _ hr => .of_test watched_sample (.reach hr)) (.start ⟨1000, rfl⟩)
      (by decide +kernel) hs
  exact ⟨s, hs, accepted_iff_successes.mpr (of_decide_eq_false hacc),
    (upload_once sample_apart (unshared_watched _) hreach).2.2.2 0 0⟩

/-- **A node is uploaded twice** where the flag file is the marker: in a group `upload`
with the server `k` its removal removes the marker too, and a source that is made
again is dispatched again. -/
theorem uploaded_twice :
    ¬∀ (cfg : Config) (M : Path → Prop) (disk : Fs) (s : State) (a : Addr) (i : ℕ),
      FlagsDistinct cfg (watched M) → Clean cfg (watched M) disk →
      (daemon cfg disk).Reach (fun s act => KeepsOff cfg (watched M) act ∧
        MildRun (fun _ => true) s act = true) s →
      (s.successes a i).length ≤ 1 := by
  intro h
  set cfg := configOf [sampleServer 0 "k".toList]
    [groupOf "upload".toList (sampleServer 0 "k".toList) []] (by decide) with hcfg
  have hrun : ((daemon cfg sampleDisk).exec (.boot sampleDisk 1000)
      (firstPass ++ uploadPass 0 ++ [.produce "/d/a".toList [2]] ++
        List.replicate 15 (.sche 0 []) ++ uploadPass 0)).map
        (fun s => (s.successes 0 0).length) = some 2 := by decide +kernel
  obtain ⟨s, hs, hlen⟩ := Option.map_eq_some_iff.mp hrun
  have hreach : (daemon cfg sampleDisk).Reach (fun s act =>
      KeepsOff cfg (watched (· = "/d/a.c".toList)) act ∧
        MildRun (fun _ => true) s act = true) s :=
    .of_exec (g := fun s act => keepsOff cfg sampleFiles act && MildRun (fun _ => true) s act)
      (fun s act _ ht => by
        rw [Bool.and_eq_true] at ht
        exact ⟨.of_keepsOff watched_sample ht.1, ht.2⟩)
      (.start ⟨1000, rfl⟩) (by decide +kernel) hs
  have hle := h cfg _ sampleDisk s 0 0
    (.of_all (fun g m => (watched_sample g m).mp) (by decide +kernel))
    (.of_all (fun g m => (watched_sample g m).mp) (by decide +kernel)) hreach
  rw [hlen] at hle
  exact absurd hle (by decide)

end Newiup
