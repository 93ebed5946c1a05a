import Newiup.Daemon.Once

/-!
# The source is kept for every destination

`do_upload_file` removes the source as soon as one library has taken it.  With one
server group that is as it should be; with two, the copy for the other one is still
to come.

The copies of a node are counted, and its memory is freed with the last of them.  The
removal of the source does not ask for this count: it goes with the first success,
whichever copy that is.  A copy whose turn comes later finds no source, and is freed
without an upload.

## Main definitions

* `LoneRun` — the condition on the steps: a library takes copies for monitor groups
  with one server group only.

## Main results

* `source_kept` — **a source is removed when every other server group has it.**
* `source_removed_early` — with two server groups it is not.
-/

namespace Newiup

/-- **Steps of runs in which a library takes a copy for a lone server group only**,
fresh nodes are queued, and flag files can be removed. -/
structure LoneRun (cfg : Config) (M : ℕ → Path → Prop) (s : State) (act : Act) : Prop
    extends FreshRun cfg M s act where
  /-- The flag files can be removed. -/
  removes : ∀ t ret sys c, act = .upload t ret sys → s.upload t = .deleteFlag c → none ∉ sys
  /-- The monitor group of a copy that is taken has one server group. -/
  lone : ∀ t sys c n, act = .upload t NEWIUP_OK sys → s.upload t = .library c →
    s.heap c = some n → ¬Serves cfg n.monitorId 1

/-- A node that has been taken is of a monitor group with one server group. -/
def Lone (cfg : Config) (s : State) : Prop :=
  ∀ a n i, s.heap a = some n → n.copy = false → Accepted s a i → ¬Serves cfg n.monitorId 1 ∧ i = 0

section Steps

variable {cfg : Config} {M : ℕ → Path → Prop} {disk : Fs} {s s' : State} {act : Act}

theorem LoneRun.sole (h : LoneRun cfg M s act) : SoleRun cfg M s act :=
  ⟨h.toCarefulRun, h.removes, fun g m hact => (h.fresh g m hact).1⟩

/-- The server group a live copy is for. -/
theorem Counts.serves (hc : Counts cfg s) {c a : Addr} {o : FileQueue} (h : s.LiveCopy c a)
    (ho : s.heap a = some o) : Serves cfg o.monitorId (s.grp c) := by
  obtain ⟨n, hn, -⟩ := id h
  obtain ⟨o', ho', -, hid⟩ := hc.owned.original h hn
  obtain rfl : o' = o := Option.some.inj (ho'.symm.trans ho)
  obtain ⟨mg, sg, hmg, hsg, -⟩ := hc.dispatched.named h hn
  exact ⟨mg, sg, hid ▸ hmg, hsg⟩

theorem Lone.step (hl : Lone cfg s) (hmade : CallsMade s) (hc : Counts cfg s)
    (hg : LoneRun cfg M s act) (hs : Step cfg s act s') : Lone cfg s' := by
  intro a n' i hn' hcopy hacc
  obtain ⟨call, hcall, rfl, rfl, hret⟩ := hacc
  have hnew : call.original < s.next → call.original ≠ s.next := fun hlt => hlt.ne
  rcases calls_of_step hc hs with he | ⟨t, ret, sys, c, b, o, rfl, hpc, -, hlive, ho, he⟩
  · rw [he] at hcall
    rcases original_was hc hs hn' hcopy with ⟨n, hn, hcn, hid, -⟩ | ha
    · rw [hid]
      exact hl _ n _ hn hcn ⟨call, hcall, rfl, rfl, hret⟩
    · exact absurd ha (hnew (hmade call hcall).1)
  · rw [he] at hcall
    rcases List.mem_cons.mp hcall with rfl | hcall
    · obtain ⟨k, hk, -⟩ := id hlive
      obtain ⟨o', ho', -, hio⟩ := hc.owned.original hlive hk
      cases ho'.symm.trans ho
      subst hret
      have hlone : ¬Serves cfg o.monitorId 1 := hio ▸ hg.lone t sys c k rfl hpc hk
      rw [(fixed_eq_iff.mp (original_of_step hc hs ho hn')).2.1]
      exact ⟨hlone, (hc.serves hlive ho).eq_zero hlone⟩
    · rcases original_was hc hs hn' hcopy with ⟨n, hn, hcn, hid, -⟩ | ha
      · rw [hid]
        exact hl _ n _ hn hcn ⟨call, hcall, rfl, rfl, hret⟩
      · exact absurd ha (hnew (hmade call hcall).1)

theorem Lone.reach (h : (daemon cfg disk).Reach (LoneRun cfg M) s) : Lone cfg s := by
  refine h.invariant ?_ fun s a s' hr hl hg hs => ?_
  · rintro _ ⟨time, rfl⟩ a n i hn
    cases hn
  · exact hl.step (.reach hr) (.reach hr) hg (step_cases hs)

end Steps

/-- **The source is kept until every destination has it.**  When a thread is about to
remove the source of a node, every other server group has taken the node and no other
copy of it is live; when the scheduler is about to finish the node, every server group
has taken it and no copy is live; and while a thread is about to test the source or to
call the library, no server group has taken the node, so that nothing has removed its
source. -/
theorem source_kept {cfg : Config} {M : ℕ → Path → Prop} {disk : Fs} {s : State}
    (hap : StateFilesApart cfg M) (hun : Unshared M) (hclean : Clean cfg M disk)
    (h : (daemon cfg disk).Reach (LoneRun cfg M) s) :
    (∀ t c n, s.upload t = .deleteSrc c → s.heap c = some n →
      (∀ j, Serves cfg n.monitorId j → j ≠ s.grp c → Accepted s n.retainCount j) ∧
        ∀ c', s.LiveCopy c' n.retainCount → c' = c) ∧
    (∀ g a f, s.sche g = .finish a f →
      (∀ j, Serves cfg g j → Accepted s a j) ∧ ∀ c, ¬s.LiveCopy c a) ∧
    ∀ t c n, s.upload t = .checking c ∨ s.upload t = .library c → s.heap c = some n →
      ∀ j, ¬Accepted s n.retainCount j := by
  have hc : Counts cfg s := .reach h
  have hfresh : (daemon cfg disk).Reach (FreshRun cfg M) s := h.mono fun _ _ hg => hg.toFreshRun
  have hm : Marked cfg M AcceptedNodes s :=
    .reach hap hun careful_freshRun records_acceptedNodes hclean hfresh
  have hl : Lone cfg s := .reach h
  refine ⟨fun t c n hpc hn => ?_, fun g a f hpc => ⟨?_, fun c hlive => ?_⟩,
    fun t c n hpc hn j hacc => ?_⟩
  · have hnode : (s.upload t).node = some c := by rw [hpc]; rfl
    obtain ⟨n', o, hn', hcopy, hlive, ho, -, horig⟩ := hc.upload_node hnode
    cases hn'.symm.trans hn
    have hacc : Accepted s n.retainCount (s.grp c) :=
      hm.upload (Or.inl hpc)
        ⟨n, o, hn, hcopy, rfl, horig.monitorId ▸ rfl, ho, horig.copy, rfl, rfl, rfl⟩
        _ o ho horig.copy rfl rfl
    obtain ⟨hlone, hzero⟩ := hl _ o _ ho horig.copy hacc
    refine ⟨fun j hj hne => ?_, fun c' hlive' => hc.dispatched.inj hlive' hlive ?_⟩
    · exact absurd ((hj.eq_zero (horig.monitorId ▸ hlone)).trans hzero.symm) hne
    · rw [hzero, (hc.serves hlive' ho).eq_zero hlone]
  · intro j hj
    obtain ⟨n, hn, horig, -⟩ := hc.sche_node (g := g) (a := a) (by rw [hpc]; rfl)
    have hat := hm.sche (g := g) (by rw [hpc]; rfl) hn
    rw [hpc] at hat
    exact hat j hj a n hn horig.copy horig.monitorId rfl
  · exact absurd (hc.dispatched.bound (g := g) (by rw [hpc]; rfl) hlive) (Nat.not_lt_zero _)
  · have hnode : (s.upload t).node = some c := by rcases hpc with hpc | hpc <;> rw [hpc] <;> rfl
    obtain ⟨n', o, hn', -, hlive, ho, -, horig⟩ := hc.upload_node hnode
    cases hn'.symm.trans hn
    obtain ⟨hlone, rfl⟩ := hl _ o j ho horig.copy hacc
    -- the copy is for that very server group, and has not left the library behind
    rw [← (hc.serves hlive ho).eq_zero hlone] at hacc
    have ho := Once.reach hap hun (h.mono fun _ _ hg => hg.sole)
    obtain ⟨t', ht', hsp⟩ := ho.live hlive hacc
    obtain rfl := hc.upload_unique hnode ht'
    rcases hpc with hpc | hpc <;> rw [hpc] at hsp <;> cases hsp

/-- `LoneRun` for finitely many monitor files, as a test: there is no second server
group. -/
def loneTest (cfg : Config) (files : List (ℕ × Path)) (s : State) (act : Act) : Bool :=
  freshTest cfg files s act && cfg.groups.all fun mg => mg.serverGroupList.length == 1

theorem LoneRun.of_test {cfg : Config} {M : ℕ → Path → Prop} {files : List (ℕ × Path)}
    (hM : ∀ g m, M g m ↔ (g, m) ∈ files) {s : State} (hc : Counts cfg s) {act : Act}
    (h : loneTest cfg files s act = true) : LoneRun cfg M s act := by
  obtain ⟨hfresh, hall⟩ := Bool.and_eq_true_iff.mp h
  refine ⟨.of_test hM hc hfresh, fun t ret sys c hact _ => ?_, fun _ _ _ n _ _ _ => ?_⟩
  · subst hact
    exact of_decide_eq_true (succeeds_of_carefulTest (Bool.and_eq_true_iff.mp hfresh).1)
  · rintro ⟨mg, sg, hmg, hsg⟩
    have hlen := List.all_eq_true.mp hall mg (List.mem_of_getElem? hmg)
    have hlt := (List.getElem?_eq_some_iff.mp hsg).1
    rw [beq_iff_eq.mp hlen] at hlt
    exact lt_irrefl 1 hlt

/-- The theorem at a thread that is about to remove the source. -/
theorem source_kept_one :
    ∃ s, (daemon sampleConfig sampleDisk).exec (.boot sampleDisk 1000)
        (firstPass ++ List.replicate 5 (.upload (0, 0) NEWIUP_OK [])) = some s ∧
      s.upload (0, 0) = .deleteSrc 1 ∧ ∀ c, s.LiveCopy c 0 → c = 1 := by
  have hrun : ((daemon sampleConfig sampleDisk).exec (.boot sampleDisk 1000)
      (firstPass ++ List.replicate 5 (.upload (0, 0) NEWIUP_OK []))).map
        (fun s => (s.upload (0, 0), (s.heap 1).map FileQueue.retainCount)) =
      some (.deleteSrc 1, some 0) := by decide +kernel
  obtain ⟨s, hs, he⟩ := Option.map_eq_some_iff.mp hrun
  obtain ⟨hpc, hret⟩ := Prod.ext_iff.mp he
  obtain ⟨n, hn, hret⟩ := Option.map_eq_some_iff.mp hret
  have hreach : (daemon sampleConfig sampleDisk).Reach
      (LoneRun _ (watched (· = "/d/a.c".toList))) s :=
    .of_exec (g := loneTest sampleConfig sampleFiles)
      (fun _ _ hr => .of_test watched_sample (.reach hr)) (.start ⟨1000, rfl⟩)
      (by decide +kernel) hs
  have hkept := ((source_kept sample_apart (unshared_watched _) sample_clean hreach).1 _ 1 n hpc
    hn).2
  rw [hret] at hkept
  exact ⟨s, hs, hpc, hkept⟩

/-- **The source is removed early** with two server groups: the thread that uploads for
the first one removes it while the copy for the second one is still in its queue. -/
theorem source_removed_early :
    ¬∀ (cfg : Config) (M : Path → Prop) (disk : Fs) (s : State) (t : ThreadId) (c : Addr)
        (n : FileQueue) (j : ℕ),
      cfg.groups.length = 1 → StateFilesApart cfg (watched M) → Clean cfg (watched M) disk →
      (daemon cfg disk).Reach (fun s act => FreshRun cfg (watched M) s act ∧
        MildRun (fun _ => false) s act = true) s →
      s.upload t = .deleteSrc c → s.heap c = some n → Serves cfg n.monitorId j → j ≠ s.grp c →
      Accepted s n.retainCount j := by
  intro h
  set cfg := configOf [sampleServer 0 "s".toList, sampleServer 1 "t".toList]
    [groupOf "g".toList (sampleServer 0 "s".toList) [sampleServer 1 "t".toList]]
    (by decide) with hcfg
  -- both copies are made, and the thread of the first server alone runs up to the removal
  have hrun : ((daemon cfg sampleDisk).exec (.boot sampleDisk 1000)
      (.monitor 0 "/d/a.c".toList :: List.replicate 23 (.sche 0 []) ++
        List.replicate 5 (.upload (0, 0) NEWIUP_OK []))).map
        (fun s => (s.upload (0, 0), (s.heap 1).map FileQueue.monitorId, s.grp 1,
          s.calls.map Call.group)) = some (.deleteSrc 1, some 0, 0, [0]) := by decide +kernel
  obtain ⟨s, hs, he⟩ := Option.map_eq_some_iff.mp hrun
  simp only [Prod.mk.injEq] at he
  obtain ⟨hpc, hid, hgrp, hcalls⟩ := he
  obtain ⟨n, hn, hid⟩ := Option.map_eq_some_iff.mp hid
  have hap : StateFilesApart cfg (watched (· = "/d/a.c".toList)) :=
    .of_apart (fun _ => rfl) (fun g m => (watched_sample g m).mp)
      (by decide +kernel : apart _ "d".toList sampleFiles = true)
  have hreach : (daemon cfg sampleDisk).Reach (fun s act =>
      FreshRun cfg (watched (· = "/d/a.c".toList)) s act ∧
        MildRun (fun _ => false) s act = true) s :=
    .of_exec (g := fun s act => freshTest cfg sampleFiles s act && MildRun (fun _ => false) s act)
      (fun s act hr ht => by
        rw [Bool.and_eq_true] at ht
        exact ⟨.of_test watched_sample (.reach hr) ht.1, ht.2⟩)
      (.start ⟨1000, rfl⟩) (by decide +kernel) hs
  obtain ⟨call, hcall, -, hgroup, -⟩ := h cfg _ sampleDisk s (0, 0) 1 n 1 rfl hap
    (.of_all (fun g m => (watched_sample g m).mp) (by decide +kernel)) hreach hpc hn
    ⟨_, _, by rw [hid]; rfl, rfl⟩ (by rw [hgrp]; decide)
  have hmem := List.mem_map_of_mem (f := Call.group) hcall
  rw [hcalls, hgroup] at hmem
  simp at hmem

end Newiup
