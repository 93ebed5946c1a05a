import Newiup.System

/-!
# Simulations between transition systems

A system is simulated by another one when a relation between their states is kept: each
step is answered by steps with the same label.  Every trace of the first is then a trace of
the second, and the related state of the second is reachable.

A client and an object it uses take the steps with a label together and all others alone.
In such a pair the object may be replaced by one that simulates it.

## Main definitions

* `Simulates` — the relation is kept, with labels.
* `System.sync` — a client with its object.

## Main results

* `Simulates.trace` — **every trace is a trace of the other system.**
* `Simulates.sync` — **an object may be replaced** by one that simulates it.
-/

namespace Newiup

namespace System

variable {σ τ α β ℓ : Type*}

theorem exec_append (S : System σ α) (s : σ) (as bs : List α) :
    S.exec s (as ++ bs) = (S.exec s as).bind fun s' => S.exec s' bs := by
  induction as generalizing s with
  | nil => rfl
  | cons a as ih =>
    rw [List.cons_append, exec_cons, exec_cons]
    cases S.step s a with
    | none => rfl
    | some s' => exact ih s'

/-- An executed run reaches its last state. -/
theorem Reach.exec {S : System σ α} {s s' : σ} {as : List α}
    (h : S.Reach (fun _ _ => True) s) (hs : S.exec s as = some s') :
    S.Reach (fun _ _ => True) s' := by
  induction as generalizing s with
  | nil =>
    cases hs
    exact h
  | cons a as ih =>
    rw [exec_cons] at hs
    cases ha : S.step s a with
    | none => rw [ha] at hs; cases hs
    | some s₁ =>
      rw [ha] at hs
      exact ih (h.next trivial ha) hs

/-- **A simulation**: a step of `S` is answered by steps of `T` with the same label. -/
structure Simulates (S : System σ α) (T : System τ β) (label : α → Option ℓ)
    (label' : β → Option ℓ) (R : σ → τ → Prop) : Prop where
  init {s : σ} : S.init s → ∃ t, T.init t ∧ R s t
  step {s s' : σ} {t : τ} {a : α} : R s t → S.step s a = some s' →
    ∃ bs t', T.exec t bs = some t' ∧ bs.filterMap label' = (label a).toList ∧ R s' t'

namespace Simulates

variable {S : System σ α} {T : System τ β} {label : α → Option ℓ} {label' : β → Option ℓ}
  {R : σ → τ → Prop}

/-- The steps of a run are answered one after the other. -/
theorem exec (h : Simulates S T label label' R) {as : List α} {s s' : σ} {t : τ} (hR : R s t)
    (hs : S.exec s as = some s') :
    ∃ bs t', T.exec t bs = some t' ∧ bs.filterMap label' = as.filterMap label ∧ R s' t' := by
  induction as generalizing s t with
  | nil =>
    cases hs
    exact ⟨[], t, rfl, rfl, hR⟩
  | cons a as ih =>
    rw [exec_cons] at hs
    cases ha : S.step s a with
    | none => rw [ha] at hs; cases hs
    | some s₁ =>
      rw [ha] at hs
      obtain ⟨bs, t₁, hbs, hlab, hR₁⟩ := h.step hR ha
      obtain ⟨cs, t', hcs, hlab', hR'⟩ := ih hR₁ hs
      refine ⟨bs ++ cs, t', ?_, ?_, hR'⟩
      · rw [exec_append, hbs]
        exact hcs
      · rw [List.filterMap_append, hlab, hlab', List.filterMap_cons]
        cases label a <;> rfl

/-- **Every trace is a trace of the other system.** -/
theorem trace (h : Simulates S T label label' R) {as : List α} {s s' : σ} (hinit : S.init s)
    (hs : S.exec s as = some s') :
    ∃ t bs t', T.init t ∧ T.exec t bs = some t' ∧
      bs.filterMap label' = as.filterMap label ∧ R s' t' := by
  obtain ⟨t, ht, hR⟩ := h.init hinit
  obtain ⟨bs, t', hbs, hlab, hR'⟩ := h.exec hR hs
  exact ⟨t, bs, t', ht, hbs, hlab, hR'⟩

/-- A reachable state is related to one. -/
theorem reach (h : Simulates S T label label' R) {G : σ → α → Prop} {s : σ} (hs : S.Reach G s) :
    ∃ t, T.Reach (fun _ _ => True) t ∧ R s t := by
  induction hs with
  | start hinit =>
    obtain ⟨t, ht, hR⟩ := h.init hinit
    exact ⟨t, .start ht, hR⟩
  | next _ _ hstep ih =>
    obtain ⟨t, ht, hR⟩ := ih
    obtain ⟨bs, t', hbs, -, hR'⟩ := h.step hR hstep
    exact ⟨t', ht.exec hbs, hR'⟩

end Simulates

/-! ### A client and its object -/

/-- The steps of a client with its object. -/
inductive SyncAct (κ α : Type*)
  /-- the client alone -/
  | client (k : κ)
  /-- the object alone -/
  | object (a : α)
  /-- both together -/
  | both (k : κ) (a : α)

/-- What is seen of such a step, where `seen` is seen of the client's. -/
def SyncAct.label {κ α ε : Type*} (seen : κ → Option ε) : SyncAct κ α → Option ε
  | .client k => seen k
  | .object _ => none
  | .both k _ => seen k

/-- **A client with its object**: they take the steps that have a label together. -/
def sync {γ κ σ α ℓ : Type*} [DecidableEq ℓ] (C : System γ κ) (O : System σ α)
    (call : κ → Option ℓ) (label : α → Option ℓ) : System (γ × σ) (SyncAct κ α) where
  init x := C.init x.1 ∧ O.init x.2
  step
    | x, .client k => if call k = none then (C.step x.1 k).map fun c => (c, x.2) else none
    | x, .object a => if label a = none then (O.step x.2 a).map fun s => (x.1, s) else none
    | x, .both k a =>
        if call k = label a ∧ call k ≠ none then
          (C.step x.1 k).bind fun c => (O.step x.2 a).map fun s => (c, s)
        else none

section Sync

variable {γ κ σ τ α β ℓ ε : Type*} [DecidableEq ℓ] {C : System γ κ} {S : System σ α}
  {T : System τ β} {call : κ → Option ℓ} {label : α → Option ℓ} {label' : β → Option ℓ}
  {R : σ → τ → Prop} {seen : κ → Option ε}

/-- Steps without a label are taken by the object alone. -/
theorem exec_sync_object {bs : List β} {c : γ} {t t' : τ} (h : T.exec t bs = some t')
    (hlabel : bs.filterMap label' = []) :
    (C.sync T call label').exec (c, t) (bs.map .object) = some (c, t') := by
  induction bs generalizing t with
  | nil =>
    cases h
    rfl
  | cons b bs ih =>
    have hb : label' b = none := by
      by_contra hb
      obtain ⟨l, hl⟩ := Option.ne_none_iff_exists'.mp hb
      rw [List.filterMap_cons, hl] at hlabel
      cases hlabel
    rw [List.filterMap_cons, hb] at hlabel
    rw [exec_cons] at h
    cases hs : T.step t b with
    | none => rw [hs] at h; cases h
    | some u =>
      rw [hs] at h
      have hstep : (C.sync T call label').step (c, t) (.object b) = some (c, u) := by
        simp [System.sync, hb, hs]
      rw [List.map_cons, exec_cons, hstep]
      exact ih h hlabel

/-- Among steps with one label, one is taken together with the client. -/
theorem exec_sync_both (seen : κ → Option ε) {bs : List β} {c c' : γ} {t t' : τ} {k : κ}
    {l : ℓ} (h : T.exec t bs = some t') (hlabel : bs.filterMap label' = [l]) (hk : call k = some l)
    (hc : C.step c k = some c') :
    ∃ as, (C.sync T call label').exec (c, t) as = some (c', t') ∧
      as.filterMap (SyncAct.label seen) = (seen k).toList := by
  have hobjects : ∀ bs : List β,
      (bs.map (SyncAct.object (κ := κ))).filterMap (SyncAct.label seen) = [] := by
    intro bs
    rw [List.filterMap_map]
    exact List.filterMap_eq_nil_iff.mpr fun _ _ => rfl
  -- the steps before the labelled one are made alone, and so are those behind it
  induction bs generalizing t with
  | nil => cases hlabel
  | cons b bs ih =>
    rw [exec_cons] at h
    cases hs : T.step t b with
    | none => rw [hs] at h; cases h
    | some u =>
      rw [hs] at h
      cases hb : label' b with
      | none =>
        rw [List.filterMap_cons, hb] at hlabel
        obtain ⟨as, has, hseen⟩ := ih h hlabel
        refine ⟨.object b :: as, ?_, hseen⟩
        have hstep : (C.sync T call label').step (c, t) (.object b) = some (c, u) := by
          simp [System.sync, hb, hs]
        rw [exec_cons, hstep]
        exact has
      | some l' =>
        rw [List.filterMap_cons, hb] at hlabel
        obtain ⟨rfl, hrest⟩ := List.cons.inj hlabel
        refine ⟨.both k b :: bs.map .object, ?_, ?_⟩
        · have hstep : (C.sync T call label').step (c, t) (.both k b) = some (c', u) := by
            simp [System.sync, hb, hk, hs, hc]
          rw [exec_cons, hstep]
          exact exec_sync_object h hrest
        · rw [List.filterMap_cons, hobjects]
          show (match seen k with | none => [] | some e => [e]) = _
          cases seen k <;> rfl

/-- **An object may be replaced** by one that simulates it. -/
theorem Simulates.sync (h : Simulates S T label label' R) :
    Simulates (C.sync S call label) (C.sync T call label') (SyncAct.label seen)
      (SyncAct.label seen) fun x y => x.1 = y.1 ∧ R x.2 y.2 where
  init := by
    rintro ⟨c, s⟩ ⟨hc, hs⟩
    obtain ⟨t, ht, hR⟩ := h.init hs
    exact ⟨(c, t), ⟨hc, ht⟩, rfl, hR⟩
  step := by
    rintro ⟨c, s⟩ x' ⟨d, t⟩ act ⟨hcd, hR⟩ hstep
    obtain rfl : c = d := hcd
    -- the client moves as before; what the object did is answered by steps of the other object,
    -- one of which is the shared one where the step was shared
    cases act with
    | client k =>
      refine ⟨[.client k], (x'.1, t), ?_, ?_⟩
      · simp only [System.sync] at hstep
        split at hstep
        · next hk =>
          obtain ⟨c', hc', rfl⟩ := Option.map_eq_some_iff.mp hstep
          have hclient : (C.sync T call label').step (c, t) (.client k) = some (c', t) := by
            simp [System.sync, hk, hc']
          rw [exec_cons, hclient]
          rfl
        · cases hstep
      · simp only [System.sync] at hstep
        split at hstep
        · obtain ⟨c', -, rfl⟩ := Option.map_eq_some_iff.mp hstep
          refine ⟨?_, rfl, hR⟩
          rw [List.filterMap_cons, List.filterMap_nil]
          show (match seen k with | none => [] | some e => [e]) = (seen k).toList
          cases seen k <;> rfl
        · cases hstep
    | object a =>
      simp only [System.sync] at hstep
      split at hstep
      · next ha =>
        obtain ⟨s', hs', rfl⟩ := Option.map_eq_some_iff.mp hstep
        obtain ⟨bs, t', hbs, hlab, hR'⟩ := h.step hR hs'
        rw [ha] at hlab
        refine ⟨bs.map .object, (c, t'), exec_sync_object hbs hlab, ?_, rfl, hR'⟩
        rw [List.filterMap_map]
        exact List.filterMap_eq_nil_iff.mpr fun _ _ => rfl
      · cases hstep
    | both k a =>
      simp only [System.sync] at hstep
      split at hstep
      · next hka =>
        obtain ⟨c', hc', hstep⟩ := Option.bind_eq_some_iff.mp hstep
        obtain ⟨s', hs', rfl⟩ := Option.map_eq_some_iff.mp hstep
        obtain ⟨bs, t', hbs, hlab, hR'⟩ := h.step hR hs'
        obtain ⟨l, hl⟩ := Option.ne_none_iff_exists'.mp hka.2
        rw [← hka.1, hl] at hlab
        obtain ⟨as, has, hseen⟩ := exec_sync_both seen hbs hlab hl hc'
        exact ⟨as, (c', t'), has, hseen, rfl, hR'⟩
      · cases hstep

end Sync

end System
end Newiup
