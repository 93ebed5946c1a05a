import Newiup.Config
import Newiup.Start

/-!
# Starting and joining the threads

`monitor_handle_pthread_start` starts two threads for each enabled monitor group and the
threads of each server that it meets in the lists of the group, unless a flag says that
they are started.  `monitor_handle_pthread_end` walks the same lists and joins whatever it
meets.

The two walks are not symmetric.  The flag keeps a server from being started again that
stands in several lists, and the walk that joins does not look at it, so that the same
identities are joined as often as the server is met; joining a thread twice is undefined.

## Main definitions

* `Handle`, `Threads` — the variables a thread's identity is kept in, and what was created
  and joined.
* `monitorHandlePthreadStart`, `monitorHandlePthreadEnd` — the functions.
* `JoinedOnce` — every thread is joined, and joined once.
* `EachOnce` — no server with threads is met twice.

## Main results

* `joined_once_iff` — **the threads are joined once exactly when each server is met once.**
-/

namespace Newiup

/-- Where the identity of a thread is kept. -/
inductive Handle
  /-- `g_monitorgroup[i].monitor_pid` -/
  | monitor (i : ℕ)
  /-- `g_monitorgroup[i].sche_pid` -/
  | sche (i : ℕ)
  /-- `g_server[index].pid[k]` -/
  | upload (index k : ℕ)
  deriving DecidableEq

/-- The flags of the servers, and the threads that were created and joined, in order.  The
calls are recorded in their order, and a handle that is recorded twice stands for a thread that
is created or joined a second time. -/
structure Threads where
  /-- `make_citations`, for each server. -/
  makeCitations : ℕ → ℤ
  /-- The calls of `pthread_create`. -/
  created : List Handle
  /-- The calls of `pthread_join`. -/
  joined : List Handle

/-- The state that `servers_init` leaves. -/
def Threads.init : Threads :=
  { makeCitations := fun _ => NEWIUP_FAIL, created := [], joined := [] }

/-- `pid[0]` to `pid[thread_num - 1]` of a server. -/
def RealServer.pids (rs : RealServer) : List Handle :=
  (List.range rs.threadNum).map (Handle.upload rs.index)

/-- `pthread_create`, which succeeds. -/
def Threads.create (handles : List Handle) (t : Threads) : Threads :=
  { t with created := t.created ++ handles }

/-- `pthread_join`. -/
def Threads.join (handles : List Handle) (t : Threads) : Threads :=
  { t with joined := t.joined ++ handles }

/-- `server_upload_handle_pthread_start`. -/
def serverUploadHandlePthreadStart (t : Threads) : Option RealServer → Threads
  | none => t
  | some rs =>
    if t.makeCitations rs.index = NEWIUP_FAIL then
      { t.create rs.pids with
        makeCitations := fun i => if i = rs.index then NEWIUP_OK else t.makeCitations i }
    else t

/-- `server_upload_handle_pthread_end`. -/
def serverUploadHandlePthreadEnd (t : Threads) : Option RealServer → Threads
  | none => t
  | some rs => t.join rs.pids

/-- The servers of a list of server groups, as the loops meet them. -/
def metServers (groups : List ServerGroupQueue) : List (Option RealServer) :=
  groups.flatMap fun node => node.rsPrime.map some ++ node.rsBack

/-- The loop of `monitor_handle_pthread_start`, from the monitor group `i` on. -/
def startFrom : List MonitorGroup → ℕ → Threads → Threads
  | [], _, t => t
  | mg :: rest, i, t =>
    if mg.enable then
      startFrom rest (i + 1) ((metServers mg.serverGroupList).foldl serverUploadHandlePthreadStart
        (t.create [.monitor i, .sche i]))
    else startFrom rest (i + 1) t

/-- The loop of `monitor_handle_pthread_end`, from the monitor group `i` on. -/
def endFrom : List MonitorGroup → ℕ → Threads → Threads
  | [], _, t => t
  | mg :: rest, i, t =>
    if mg.enable then
      endFrom rest (i + 1) ((metServers mg.serverGroupList).foldl serverUploadHandlePthreadEnd
        (t.join [.monitor i, .sche i]))
    else endFrom rest (i + 1) t

/-- `monitor_handle_pthread_start`; without an enabled group it ends the process. -/
def monitorHandlePthreadStart (groups : List MonitorGroup) : Start Threads Unit := do
  Start.modify (startFrom groups 0)
  if groups.countP (fun mg => !mg.enable) = groups.length then Start.exit 2 else pure ()

/-- `monitor_handle_pthread_end`. -/
def monitorHandlePthreadEnd (groups : List MonitorGroup) : Start Threads Unit :=
  Start.modify (endFrom groups 0)

/-- The calls of `newiup_pthread_start` and `newiup_pthread_end` in `main`. -/
def startAndEnd (cfg : Config) : Ends Unit × Threads :=
  (do
    monitorHandlePthreadStart cfg.groups
    monitorHandlePthreadEnd cfg.groups : Start Threads Unit) Threads.init

/-- **Every thread that was created is joined once**, and nothing else is joined. -/
def JoinedOnce (t : Threads) : Prop :=
  t.joined.Nodup ∧ t.created.Nodup ∧ ∀ h, h ∈ t.joined ↔ h ∈ t.created

/-- The servers of the enabled groups, as the loops meet them. -/
def Config.metServers (cfg : Config) : List RealServer :=
  ((cfg.groups.filter MonitorGroup.enable).flatMap fun mg =>
    Newiup.metServers mg.serverGroupList).filterMap id

/-- **Each server with threads is met once**: over all enabled monitor groups, their server
groups, and the primary and the backup lists. -/
def EachOnce (cfg : Config) : Prop :=
  (cfg.metServers.filter fun rs => 0 < rs.threadNum).Nodup

/-! ### What is joined -/

section Joined

/-- The threads of an entry of a list. -/
def optPids : Option RealServer → List Handle
  | none => []
  | some rs => rs.pids

/-- The handles that the loops meet, from the monitor group `i` on. -/
def metHandles : List MonitorGroup → ℕ → List Handle
  | [], _ => []
  | mg :: rest, i =>
    if mg.enable then
      [.monitor i, .sche i] ++ ((metServers mg.serverGroupList).flatMap optPids ++
        metHandles rest (i + 1))
    else metHandles rest (i + 1)

/-- The upload handles among them. -/
def metUploads (groups : List MonitorGroup) : List Handle :=
  (groups.filter MonitorGroup.enable).flatMap fun mg =>
    (metServers mg.serverGroupList).flatMap optPids

theorem foldl_end (servers : List (Option RealServer)) (t : Threads) :
    servers.foldl serverUploadHandlePthreadEnd t = t.join (servers.flatMap optPids) := by
  induction servers generalizing t with
  | nil => simp [Threads.join]
  | cons o rest ih =>
    rw [List.foldl_cons, ih]
    cases o <;> simp [serverUploadHandlePthreadEnd, Threads.join, optPids]

/-- **What is met is joined.** -/
theorem endFrom_eq (groups : List MonitorGroup) (i : ℕ) (t : Threads) :
    endFrom groups i t = t.join (metHandles groups i) := by
  induction groups generalizing i t with
  | nil => simp [endFrom, metHandles, Threads.join]
  | cons mg rest ih =>
    unfold endFrom metHandles
    split
    · rw [ih, foldl_end]
      simp [Threads.join]
    · exact ih _ _

theorem mem_pids {rs : RealServer} {h : Handle} :
    h ∈ rs.pids ↔ ∃ k < rs.threadNum, h = .upload rs.index k := by
  simp [RealServer.pids, eq_comm]

theorem mem_optPids {o : Option RealServer} {h : Handle} :
    h ∈ optPids o ↔ ∃ rs, o = some rs ∧ h ∈ rs.pids := by
  cases o <;> simp [optPids]

/-- A handle of the loops is one of a group, which is not below the first, or an upload
handle. -/
theorem mem_metHandles {groups : List MonitorGroup} {i : ℕ} {h : Handle}
    (hh : h ∈ metHandles groups i) :
    (∃ j, i ≤ j ∧ (h = .monitor j ∨ h = .sche j)) ∨ h ∈ metUploads groups := by
  induction groups generalizing i with
  | nil => cases hh
  | cons mg rest ih =>
    unfold metHandles at hh
    unfold metUploads
    split at hh
    · next hen =>
      rw [List.filter_cons_of_pos hen, List.flatMap_cons]
      rcases List.mem_append.mp hh with hg | hh
      · left
        exact ⟨i, le_rfl, by simpa using hg⟩
      rcases List.mem_append.mp hh with hu | hr
      · exact .inr (List.mem_append_left _ hu)
      · rcases ih hr with ⟨j, hj, hhj⟩ | hu
        · exact .inl ⟨j, by omega, hhj⟩
        · exact .inr (List.mem_append_right _ hu)
    · next hen =>
      rw [List.filter_cons_of_neg hen]
      rcases ih hh with ⟨j, hj, hhj⟩ | hu
      · exact .inl ⟨j, by omega, hhj⟩
      · exact .inr hu

theorem mem_metHandles_of_upload {groups : List MonitorGroup} {i : ℕ} {h : Handle}
    (hh : h ∈ metUploads groups) : h ∈ metHandles groups i := by
  induction groups generalizing i with
  | nil => cases hh
  | cons mg rest ih =>
    unfold metHandles
    unfold metUploads at hh
    split
    · next hen =>
      rw [List.filter_cons_of_pos hen, List.flatMap_cons] at hh
      refine List.mem_append_right _ (List.mem_append.mpr ?_)
      exact (List.mem_append.mp hh).imp id ih
    · next hen =>
      rw [List.filter_cons_of_neg hen] at hh
      exact ih hh

theorem upload_of_mem_metUploads {groups : List MonitorGroup} {h : Handle}
    (hh : h ∈ metUploads groups) : ∃ index k, h = .upload index k := by
  obtain ⟨mg, -, hmg⟩ := List.mem_flatMap.mp hh
  obtain ⟨o, -, ho⟩ := List.mem_flatMap.mp hmg
  obtain ⟨rs, -, hrs⟩ := mem_optPids.mp ho
  obtain ⟨k, -, rfl⟩ := mem_pids.mp hrs
  exact ⟨_, _, rfl⟩

/-- The groups' own threads are met once: only the uploads can repeat. -/
theorem nodup_metHandles {groups : List MonitorGroup} {i : ℕ} :
    (metHandles groups i).Nodup ↔ (metUploads groups).Nodup := by
  -- the handles of a group carry its index, so they meet no others
  induction groups generalizing i with
  | nil => simp [metHandles, metUploads]
  | cons mg rest ih =>
    unfold metHandles
    split
    · next hen =>
      have hcons : metUploads (mg :: rest) =
          (metServers mg.serverGroupList).flatMap optPids ++ metUploads rest := by
        rw [metUploads, List.filter_cons_of_pos hen, List.flatMap_cons]
        rfl
      have hmine : ∀ h ∈ (metServers mg.serverGroupList).flatMap optPids,
          ∃ index k, h = Handle.upload index k := by
        intro h hh
        have hmet : h ∈ metUploads (mg :: rest) := by
          rw [hcons]
          exact List.mem_append_left _ hh
        exact upload_of_mem_metUploads hmet
      have hdisj : (∀ a ∈ (metServers mg.serverGroupList).flatMap optPids,
          ∀ b ∈ metHandles rest (i + 1), a ≠ b) ↔
          ∀ a ∈ (metServers mg.serverGroupList).flatMap optPids, ∀ b ∈ metUploads rest, a ≠ b := by
        refine ⟨fun h a ha b hb => h a ha b (mem_metHandles_of_upload hb), fun h a ha b hb => ?_⟩
        obtain ⟨index, k, rfl⟩ := hmine a ha
        rcases mem_metHandles hb with ⟨j, -, rfl | rfl⟩ | hu
        · exact Handle.noConfusion
        · exact Handle.noConfusion
        · exact h _ ha b hu
      have hown : ∀ a ∈ [Handle.monitor i, Handle.sche i],
          ∀ b ∈ (metServers mg.serverGroupList).flatMap optPids ++ metHandles rest (i + 1),
          a ≠ b := by
        rintro a ha b hb rfl
        have ha' : a = .monitor i ∨ a = .sche i := by simpa using ha
        rcases List.mem_append.mp hb with hu | hr
        · obtain ⟨index, k, rfl⟩ := hmine a hu
          simp at ha'
        · rcases mem_metHandles hr with ⟨j, hj, hja⟩ | hu
          · rcases ha' with rfl | rfl <;> simp at hja <;> omega
          · obtain ⟨index, k, rfl⟩ := upload_of_mem_metUploads hu
            simp at ha'
      rw [hcons, List.nodup_append, List.nodup_append, List.nodup_append, hdisj, ih]
      exact ⟨fun h => h.2.1, fun h => ⟨by simp, h, hown⟩⟩
    · next hen =>
      have hcons : metUploads (mg :: rest) = metUploads rest := by
        rw [metUploads, List.filter_cons_of_neg hen, metUploads]
      rw [hcons]
      exact ih

/-- **A list of servers has each upload thread once** when each server with threads is in
it once. -/
theorem nodup_pids {servers : List RealServer}
    (hindex : ∀ rs ∈ servers, ∀ rs' ∈ servers, rs.index = rs'.index → rs = rs') :
    (servers.flatMap RealServer.pids).Nodup ↔
      (servers.filter fun rs => 0 < rs.threadNum).Nodup := by
  induction servers with
  | nil => simp
  | cons rs rest ih =>
    have hrest := ih fun a ha b hb =>
      hindex a (List.mem_cons_of_mem _ ha) b (List.mem_cons_of_mem _ hb)
    have hown : rs.pids.Nodup := List.nodup_range.map fun a b h => by simpa using h
    rw [List.flatMap_cons, List.nodup_append, hrest]
    -- a server without threads has nothing that could be there twice
    by_cases hpos : 0 < rs.threadNum
    · rw [List.filter_cons_of_pos (by simpa using hpos), List.nodup_cons]
      have hdisj : (∀ a ∈ rs.pids, ∀ b ∈ rest.flatMap RealServer.pids, a ≠ b) ↔
          rs ∉ rest.filter fun rs => 0 < rs.threadNum := by
        constructor
        · intro h hmem
          have hfirst : Handle.upload rs.index 0 ∈ rs.pids := mem_pids.mpr ⟨0, hpos, rfl⟩
          exact h _ hfirst _ (List.mem_flatMap.mpr ⟨rs, (List.mem_filter.mp hmem).1, hfirst⟩) rfl
        · rintro h a ha b hb rfl
          obtain ⟨rs', hrs', hb'⟩ := List.mem_flatMap.mp hb
          obtain ⟨k, -, rfl⟩ := mem_pids.mp ha
          obtain ⟨k', -, heq⟩ := mem_pids.mp hb'
          have hsame : rs = rs' :=
            hindex rs (by simp) rs' (by simp [hrs']) (Handle.upload.inj heq).1
          subst hsame
          exact h (List.mem_filter.mpr ⟨hrs', by simpa using hpos⟩)
      rw [hdisj]
      exact ⟨fun h => ⟨h.2.2, h.2.1⟩, fun h => ⟨hown, h.2, h.1⟩⟩
    · have hnone : rs.pids = [] := by
        rw [RealServer.pids, show rs.threadNum = 0 by omega]
        rfl
      rw [List.filter_cons_of_neg (by simpa using hpos), hnone]
      simp

end Joined

/-! ### What is created -/

section Created

variable {servers : List RealServer} {t : Threads} {i : ℕ}

/-- What holds before the turn of the monitor group `i`: the flags say which servers'
threads are there. -/
structure StartInv (servers : List RealServer) (i : ℕ) (t : Threads) : Prop where
  /-- The threads of a flagged server are created. -/
  flagged : ∀ rs : RealServer, servers[rs.index]? = some rs →
    t.makeCitations rs.index ≠ NEWIUP_FAIL → ∀ h ∈ rs.pids, h ∈ t.created
  /-- An upload thread is of a flagged server. -/
  unflagged : ∀ index k, Handle.upload index k ∈ t.created → t.makeCitations index ≠ NEWIUP_FAIL
  /-- The group's own threads are of the groups before. -/
  groups : ∀ j, .monitor j ∈ t.created ∨ .sche j ∈ t.created → j < i
  /-- No thread is created twice. -/
  nodup : t.created.Nodup

theorem startInv_init : StartInv servers 0 Threads.init where
  flagged := fun _ _ h => absurd rfl h
  unflagged := fun _ _ h => by cases h
  groups := fun _ h => by rcases h with h | h <;> cases h
  nodup := List.nodup_nil

/-- **A server's turn** creates its threads where they are not there. -/
theorem StartInv.server (h : StartInv servers i t) {rs : RealServer}
    (hrs : servers[rs.index]? = some rs) :
    StartInv servers i (serverUploadHandlePthreadStart t (some rs)) ∧
      ∀ x, x ∈ (serverUploadHandlePthreadStart t (some rs)).created ↔
        x ∈ t.created ∨ x ∈ rs.pids := by
  unfold serverUploadHandlePthreadStart
  dsimp only
  -- where the flag is set, its threads are created already
  split
  · next hflag =>
    refine ⟨⟨fun rs' hrs' hf x hx => ?_, fun index k hx => ?_, fun j hj => ?_, ?_⟩, fun x => ?_⟩
    · by_cases hi : rs'.index = rs.index
      · have hsame : rs' = rs := Option.some.inj (by rw [← hrs', hi, hrs])
        subst hsame
        exact List.mem_append_right _ hx
      · refine List.mem_append_left _ (h.flagged rs' hrs' ?_ x hx)
        simpa [hi] using hf
    · by_cases hi : index = rs.index
      · simp [hi, NEWIUP_OK, NEWIUP_FAIL]
      · have hold : Handle.upload index k ∈ t.created := by
          rcases List.mem_append.mp hx with hx | hx
          · exact hx
          · obtain ⟨k', -, heq⟩ := mem_pids.mp hx
            exact absurd (Handle.upload.inj heq).1 hi
        simpa [hi] using h.unflagged index k hold
    · refine h.groups j (hj.imp (fun hx => ?_) fun hx => ?_) <;>
      · rcases List.mem_append.mp hx with hx | hx
        · exact hx
        · obtain ⟨k, -, heq⟩ := mem_pids.mp hx
          cases heq
    · refine List.nodup_append.mpr ⟨h.nodup,
        List.nodup_range.map fun a b hab => by simpa using hab, ?_⟩
      rintro a ha b hb rfl
      obtain ⟨k, -, rfl⟩ := mem_pids.mp hb
      exact h.unflagged _ k ha hflag
    · exact List.mem_append
  · next hflag =>
    exact ⟨h, fun x => ⟨.inl, fun hx => hx.elim id (h.flagged rs hrs hflag x)⟩⟩

/-- The servers of a list are found. -/
theorem StartInv.list (h : StartInv servers i t) {met : List (Option RealServer)}
    (hmet : ∀ rs : RealServer, some rs ∈ met → servers[rs.index]? = some rs) :
    StartInv servers i (met.foldl serverUploadHandlePthreadStart t) ∧
      ∀ x, x ∈ (met.foldl serverUploadHandlePthreadStart t).created ↔
        x ∈ t.created ∨ x ∈ met.flatMap optPids := by
  induction met generalizing t with
  | nil => exact ⟨h, fun x => by simp⟩
  | cons o rest ih =>
    have hrest := fun rs hrs => hmet rs (List.mem_cons_of_mem _ hrs)
    cases o with
    | none =>
      obtain ⟨hinv, hmem⟩ := ih h hrest
      refine ⟨hinv, fun x => ?_⟩
      rw [List.flatMap_cons, optPids, List.nil_append]
      exact hmem x
    | some rs =>
      obtain ⟨hone, hmem₁⟩ := h.server (hmet rs List.mem_cons_self)
      obtain ⟨hinv, hmem⟩ := ih hone hrest
      refine ⟨hinv, fun x => ?_⟩
      rw [List.foldl_cons, hmem, hmem₁, List.flatMap_cons, List.mem_append, or_assoc]
      rfl

/-- A group's own threads are new. -/
theorem StartInv.group (h : StartInv servers i t) :
    StartInv servers (i + 1) (t.create [.monitor i, .sche i]) where
  flagged := fun rs hrs hf x hx => List.mem_append_left _ (h.flagged rs hrs hf x hx)
  unflagged := fun index k hx => h.unflagged index k (by simpa [Threads.create] using hx)
  groups := fun j hj => by
    simp only [Threads.create, List.mem_append] at hj
    rcases hj with (hj | hj) | (hj | hj)
    · exact Nat.lt_succ_of_lt (h.groups j (.inl hj))
    · have hji : j = i := by simpa using hj
      omega
    · exact Nat.lt_succ_of_lt (h.groups j (.inr hj))
    · have hji : j = i := by simpa using hj
      omega
  nodup := by
    refine List.nodup_append.mpr ⟨h.nodup, by simp, ?_⟩
    rintro a ha b hb rfl
    have hold : .monitor i ∈ t.created ∨ .sche i ∈ t.created := by
      rcases List.mem_cons.mp hb with rfl | hb
      · exact .inl ha
      · rw [List.mem_singleton.mp hb] at ha
        exact .inr ha
    exact absurd (h.groups i hold) (lt_irrefl i)

theorem StartInv.mono (h : StartInv servers i t) : StartInv servers (i + 1) t :=
  { h with groups := fun j hj => Nat.lt_succ_of_lt (h.groups j hj) }

/-- **What is met is created**, each thread once. -/
theorem StartInv.run {groups : List MonitorGroup} (h : StartInv servers i t)
    (hfound : ∀ mg ∈ groups, ∀ rs : RealServer, some rs ∈ metServers mg.serverGroupList →
      servers[rs.index]? = some rs) :
    (startFrom groups i t).created.Nodup ∧
      ∀ x, x ∈ (startFrom groups i t).created ↔ x ∈ t.created ∨ x ∈ metHandles groups i := by
  induction groups generalizing i t with
  | nil => exact ⟨h.nodup, fun x => by simp [startFrom, metHandles]⟩
  | cons mg rest ih =>
    have hrest := fun mg hmg => hfound mg (List.mem_cons_of_mem _ hmg)
    unfold startFrom metHandles
    split
    · obtain ⟨hlist, hmem₁⟩ := h.group.list (hfound mg List.mem_cons_self)
      obtain ⟨hdup, hmem⟩ := ih hlist hrest
      refine ⟨hdup, fun x => ?_⟩
      rw [hmem, hmem₁, List.mem_append, List.mem_append, Threads.create, List.mem_append]
      tauto
    · exact ih h.mono hrest

end Created

/-! ### Both together -/

/-- The servers that the loops meet are found. -/
theorem found_of_met (cfg : Config) {mg : MonitorGroup} (hmg : mg ∈ cfg.groups) {rs : RealServer}
    (hrs : some rs ∈ metServers mg.serverGroupList) : cfg.servers[rs.index]? = some rs := by
  obtain ⟨sg, hsg, hmem⟩ := List.mem_flatMap.mp hrs
  refine cfg.found mg hmg sg hsg rs ?_
  rcases List.mem_append.mp hmem with h | h
  · exact List.mem_append_left _ (by simpa using h)
  · exact List.mem_append_right _ (List.mem_filterMap.mpr ⟨_, h, rfl⟩)

theorem joined_foldl_start (met : List (Option RealServer)) (t : Threads) :
    (met.foldl serverUploadHandlePthreadStart t).joined = t.joined := by
  induction met generalizing t with
  | nil => rfl
  | cons o rest ih =>
    rw [List.foldl_cons, ih]
    unfold serverUploadHandlePthreadStart
    split
    · rfl
    · split <;> rfl

theorem joined_startFrom (groups : List MonitorGroup) (i : ℕ) (t : Threads) :
    (startFrom groups i t).joined = t.joined := by
  induction groups generalizing i t with
  | nil => rfl
  | cons mg rest ih =>
    unfold startFrom
    split
    · rw [ih, joined_foldl_start]
      rfl
    · exact ih _ _

/-- Without an enabled group nothing is met. -/
theorem metHandles_of_disabled {groups : List MonitorGroup} {i : ℕ}
    (h : ∀ mg ∈ groups, mg.enable = false) : metHandles groups i = [] := by
  induction groups generalizing i with
  | nil => rfl
  | cons mg rest ih =>
    unfold metHandles
    rw [h mg List.mem_cons_self]
    exact ih fun mg hmg => h mg (List.mem_cons_of_mem _ hmg)

/-- **What both functions leave**, also where the process ends in between. -/
theorem startAndEnd_eq (cfg : Config) :
    (startAndEnd cfg).2.created = (startFrom cfg.groups 0 .init).created ∧
      (startAndEnd cfg).2.joined = metHandles cfg.groups 0 := by
  unfold startAndEnd
  by_cases hall : cfg.groups.countP (fun mg => !mg.enable) = cfg.groups.length
  · have hdisabled : ∀ mg ∈ cfg.groups, mg.enable = false := by
      simpa using List.countP_eq_length.mp hall
    have hstart : monitorHandlePthreadStart cfg.groups .init =
        (.exits 2, startFrom cfg.groups 0 .init) := by
      rw [monitorHandlePthreadStart, Start.modify_bind, if_pos hall, Start.exit_apply]
    rw [Start.bind_of_exits hstart, metHandles_of_disabled hdisabled]
    exact ⟨rfl, joined_startFrom _ _ _⟩
  · have hstart : monitorHandlePthreadStart cfg.groups .init =
        (.done (), startFrom cfg.groups 0 .init) := by
      rw [monitorHandlePthreadStart, Start.modify_bind, if_neg hall, Start.pure_apply]
    rw [Start.bind_of_done hstart, monitorHandlePthreadEnd, Start.modify_apply, endFrom_eq]
    refine ⟨rfl, ?_⟩
    rw [Threads.join, joined_startFrom, Threads.init, List.nil_append]

/-- The upload handles that are met are those of the servers that are met. -/
theorem metUploads_eq (cfg : Config) :
    metUploads cfg.groups = cfg.metServers.flatMap RealServer.pids := by
  have hopt : ∀ met : List (Option RealServer),
      met.flatMap optPids = (met.filterMap id).flatMap RealServer.pids := by
    intro met
    induction met with
    | nil => rfl
    | cons o rest ih =>
      rw [List.flatMap_cons, ih]
      cases o <;> rfl
  rw [metUploads, Config.metServers, ← hopt, List.flatMap_assoc]

/-- **Threads are created and joined once** exactly when each server with threads is met
once over all enabled groups and lists. -/
theorem joined_once_iff (cfg : Config) : JoinedOnce (startAndEnd cfg).2 ↔ EachOnce cfg := by
  obtain ⟨hcreated, hjoined⟩ := startAndEnd_eq cfg
  have hinit : StartInv cfg.servers 0 .init := startInv_init
  obtain ⟨hdup, hmem⟩ := hinit.run fun mg hmg rs hrs => found_of_met cfg hmg hrs
  unfold JoinedOnce
  rw [hcreated, hjoined, nodup_metHandles, metUploads_eq, nodup_pids]
  · exact ⟨fun h => h.1, fun h => ⟨h, hdup, fun x => by rw [hmem]; simp [Threads.init]⟩⟩
  · -- an index stands for one server
    have hfound : ∀ rs ∈ cfg.metServers, cfg.servers[rs.index]? = some rs := by
      intro rs hrs
      obtain ⟨o, ho, rfl⟩ := List.mem_filterMap.mp hrs
      obtain ⟨mg, hmg, hmet⟩ := List.mem_flatMap.mp ho
      exact found_of_met cfg (List.mem_filter.mp hmg).1 hmet
    intro rs hrs rs' hrs' hindex
    have hsame := hfound rs hrs
    rw [hindex, hfound rs' hrs'] at hsame
    exact (Option.some.inj hsame).symm

/-! ### A shared server -/

/-- The server that both groups upload to. -/
def sharedServer : RealServer := ⟨0, "srv".toList, 1, 60, 1⟩

/-- An enabled group with the shared server. -/
def sharingGroup (name : String) : MonitorGroup :=
  { name := name.toList, enable := true, monitorFileType := "ctr".toList,
    monitorToUploadAct := .cut, uploadFileType := [], finishAct := .keep, moveTo := [],
    serverGroupList := [⟨[sharedServer], [], List.cons_ne_nil _ _⟩],
    sgl_ne := List.cons_ne_nil _ _, moveTo_ne := fun _ h => absurd rfl h,
    not_keep_keep := fun h => TypeProcess.noConfusion h.2 }

/-- Two enabled monitor groups with one server. -/
def sharingConfig : Config where
  servers := [sharedServer]
  groups := [sharingGroup "first", sharingGroup "second"]
  found := by decide
  maxUploadNum := 10000
  date := fun _ => []

/-- A server of two groups is joined twice. -/
theorem shared_server_joined_twice : ¬∀ cfg : Config, JoinedOnce (startAndEnd cfg).2 := by
  intro h
  have hdup := (h sharingConfig).1
  revert hdup
  decide +kernel

end Newiup
