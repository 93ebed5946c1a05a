import Newiup.Checklist
import Newiup.Servers

/-!
# What can go wrong with the servers

`get_server_info` makes ten checks on an entry of the section `servers` before it sets up
the queue and the threads.  A key without a value is a null pointer, and a name that runs
on into the library's name is copied over the head of the queue, which `servers_exit`
follows.

## Main definitions

* `Owns` — the blocks of the heap that are still to be freed.
* `keyCheck`, `nameCheck` — the checks of a key and of a name.
* `serverChecks`, `serversChecks` — the checks of `servers_init`.
* `Clearable`, `Doomed` — what `servers_exit` can and cannot clear up.

## Main results

* `Clearable.exit`, `Doomed.exit` — **what `servers_exit` does.**
* `serversInit_end` — **how `servers_init` ends** is how its checks go.
-/

namespace Newiup

/-! ### Blocks -/

/-- The blocks are allocated, and different.  It is what `free` asks for: a block that is
allocated, and none twice.  New blocks are different from all of them. -/
structure Owns (h : Heap) (blocks : List ℕ) : Prop where
  nodup : blocks.Nodup
  live : ∀ b ∈ blocks, b ∈ h.live
  fresh : ∀ b ∈ h.live, b < h.next

theorem Owns.perm {h : Heap} {bs cs : List ℕ} (ho : Owns h bs) (hp : bs.Perm cs) : Owns h cs :=
  ⟨hp.nodup_iff.mp ho.nodup, fun b hb => ho.live b (hp.mem_iff.mpr hb), ho.fresh⟩

/-- What `malloc` answers next. -/
def Heap.answer (h : Heap) : Bool := h.mallocs.headD true

/-- **An allocation** adds a block where it succeeds. -/
theorem Owns.malloc {h : Heap} {bs : List ℕ} (ho : Owns h bs) :
    ∃ h', h'.mallocs = h.mallocs.tail ∧
      (h.answer = true ∧ Newiup.malloc h = (.done (some h.next), h') ∧ Owns h' (h.next :: bs) ∨
        h.answer = false ∧ Newiup.malloc h = (.done none, h') ∧ Owns h' bs) := by
  unfold Newiup.malloc
  by_cases ha : h.mallocs.headD true = true
  · rw [if_pos ha]
    refine ⟨_, rfl, .inl ⟨ha, rfl, ⟨?_, fun b hb => ?_, fun b hb => ?_⟩⟩⟩
    · refine List.nodup_cons.mpr ⟨fun hmem => ?_, ho.nodup⟩
      exact lt_irrefl _ (ho.fresh _ (ho.live _ hmem))
    · rcases List.mem_cons.mp hb with rfl | hb
      · exact List.mem_cons_self
      · exact List.mem_cons_of_mem _ (ho.live b hb)
    · rcases List.mem_cons.mp hb with rfl | hb
      · exact Nat.lt_succ_self _
      · exact (ho.fresh b hb).trans (Nat.lt_succ_self _)
  · rw [if_neg ha]
    exact ⟨_, rfl, .inr ⟨by simpa [Heap.answer] using ha, rfl, ho.nodup, ho.live, ho.fresh⟩⟩

/-- **A block that is owned is freed**, and is not owned any more. -/
theorem Owns.free {h : Heap} {b : ℕ} {bs : List ℕ} (ho : Owns h (b :: bs)) :
    ∃ h', Newiup.free b h = (.done (), h') ∧ Owns h' bs := by
  obtain ⟨hnot, hnodup⟩ := List.nodup_cons.mp ho.nodup
  unfold Newiup.free
  rw [if_pos (ho.live b List.mem_cons_self)]
  refine ⟨_, rfl, hnodup, fun c hc => ?_, fun c hc => ho.fresh c (List.mem_of_mem_erase hc)⟩
  have hne : c ≠ b := fun he => hnot (he ▸ hc)
  exact (List.mem_erase_of_ne hne).mpr (ho.live c (List.mem_cons_of_mem b hc))

/-! ### Checks of keys -/

section Keys

variable {σ β : Type} {I : σ → Prop}

/-- How a key goes that is missing, has no value, or has a value.  Most keys are treated alike
in the source, and differ in what a missing key means and in what is asked of the value; these
are the parameters. -/
def keyCheck (node : ConfNode) (key : CString) (missing null : Verdict)
    (value : CString → Verdict) : Verdict :=
  match confNodeLookupChild node key with
  | none => missing
  | some child => child.val.elim null value

/-- A key whose value is copied into an array of `size` bytes. -/
def copyCheck (size : ℕ) (v : CString) : Verdict := if v.length < size then .pass else .crash

/-- The scan for a name over the values `vals`: a second match is an error, and a null
pointer before it is undefined. -/
def scanCheck (name : CString) (vals : List (Option CString)) : Verdict :=
  if 2 ≤ (vals.takeWhile Option.isSome).count (some name) then .stop
  else if none ∈ vals then .crash
  else .pass

/-- `ConfNodeNameCheck` on the value of an entry. -/
def nameCheck (root child : ConfNode) : Verdict :=
  child.val.elim .crash fun name =>
    scanCheck name ((root.head.flatMap ConfNode.head).map ConfNode.val)

/-- A key that may be missing. -/
theorem checks_childValue {child : ConfNode} {key : CString} {missing null : Verdict}
    {value : CString → Verdict} {f : ℤ × Option CString → Start σ β}
    (hmissing : Start.Checks I (f (0, none)) [missing])
    (hnull : Start.Checks I (f (1, none)) [null])
    (hvalue : ∀ v, Start.Checks I (f (1, some v)) [value v]) :
    Start.Checks I (confGetChildValue (some child) key none >>= f)
      [keyCheck child key missing null value] := by
  rw [confGetChildValue_some, keyCheck, ConfNode.carry]
  cases confNodeLookupChild child key with
  | none => exact hmissing
  | some c =>
    dsimp only
    cases c.val with
    | none => exact hnull
    | some v => exact hvalue v

/-- A key that must be there. -/
theorem checks_entryKey {child : ConfNode} {key : CString} {null : Verdict}
    {value : CString → Verdict} {f : Option CString → Start σ β}
    (hnull : Start.Checks I (f none) [null])
    (hvalue : ∀ v, child.valueOf key = some v → Start.Checks I (f (some v)) [value v]) :
    Start.Checks I (entryKey child key >>= f) [keyCheck child key .stop null value] := by
  have hrun : entryKey child key >>= f = match confNodeLookupChild child key with
      | none => Start.fail
      | some c => f c.val := by
    funext s
    unfold entryKey
    rw [confGetChildValue_some]
    unfold ConfNode.carry
    cases confNodeLookupChild child key <;> rfl
  rw [hrun, keyCheck]
  cases hc : confNodeLookupChild child key with
  | none => exact Start.Checks.fail
  | some c =>
    dsimp only
    cases hv : c.val with
    | none => exact hnull
    | some v => exact hvalue v (by rw [ConfNode.valueOf, hc]; exact hv)

/-- A key that must be there with a value. -/
theorem checks_entryValue {child : ConfNode} {key : CString} {value : CString → Verdict}
    {f : CString → Start σ β}
    (hvalue : ∀ v, child.valueOf key = some v → Start.Checks I (f v) [value v]) :
    Start.Checks I (entryKey child key >>= fun str => Start.deref str >>= f)
      [keyCheck child key .stop .crash value] :=
  checks_entryKey Start.Checks.crash hvalue

theorem checks_strcpy {size : ℕ} {v : CString} {f : CString → Start σ β} {w : Verdict}
    (hf : v.length < size → Start.Checks I (f v) [w]) :
    Start.Checks I (strcpy size v >>= f) [(copyCheck size v).andThen w] := by
  unfold copyCheck
  by_cases h : v.length < size
  · rw [strcpy_of_lt h, if_pos h]
    exact hf h
  · rw [strcpy_of_le (not_lt.mp h), if_neg h]
    exact Start.Checks.crash

/-- **The scan for a name**, as far as it goes. -/
theorem nameCheckFrom_eq {name : CString} {nodes : List ConfNode} {num : ℕ} (hnum : num < 2) :
    (nameCheckFrom (some name) nodes num : Start σ ℤ) =
      if 2 ≤ num + ((nodes.map ConfNode.val).takeWhile Option.isSome).count (some name) then
        pure (-1)
      else if none ∈ nodes.map ConfNode.val then Start.crash
      else pure 0 := by
  -- the scan ends at the second match or at an entry without a value, whichever comes first
  induction nodes generalizing num with
  | nil =>
    rw [nameCheckFrom, if_neg (by simpa using hnum), if_neg (by simp)]
  | cons node rest ih =>
    rw [nameCheckFrom, List.map_cons]
    cases hval : node.val with
    | none =>
      have hcount : (List.takeWhile Option.isSome (none :: rest.map ConfNode.val)).count
          (some name) = 0 := rfl
      rw [hcount, if_neg (show ¬2 ≤ num + 0 by omega), if_pos List.mem_cons_self]
      rfl
    | some v =>
      have hmem : none ∈ some v :: rest.map ConfNode.val ↔ none ∈ rest.map ConfNode.val := by simp
      rw [List.takeWhile_cons_of_pos rfl, if_congr hmem rfl rfl]
      by_cases heq : v = name
      · subst heq
        rw [List.count_cons_self]
        by_cases htwo : 2 ≤ num + 1
        · have hmore : 2 ≤ num +
              (((rest.map ConfNode.val).takeWhile Option.isSome).count (some v) + 1) := by omega
          rw [if_pos hmore]
          funext s
          simp only [Start.deref_some, Start.pure_bind, if_true, if_pos htwo]
        · have hnext : num + 1 < 2 := by omega
          have hrest := ih hnext
          rw [show num + (((rest.map ConfNode.val).takeWhile Option.isSome).count (some v) + 1) =
            num + 1 + ((rest.map ConfNode.val).takeWhile Option.isSome).count (some v) by omega,
            ← hrest]
          funext s
          simp only [Start.deref_some, Start.pure_bind, if_true, if_neg htwo]
      · rw [List.count_cons_of_ne (by simpa using heq), ← ih hnum]
        funext s
        simp only [Start.deref_some, Start.pure_bind, if_neg heq]

/-- The name of an entry: a null pointer is read, a second match reported. -/
theorem checks_nameCheck {root child : ConfNode} {x : Start σ β} {l : List Verdict}
    (hmem : child ∈ root.head.flatMap ConfNode.head)
    (hx : ∀ name, child.val = some name → Start.Checks I x l) :
    Start.Checks I (confNodeNameCheck root child.val >>= fun check =>
      Start.guard (check = 0) >>= fun _ => x) (nameCheck root child :: l) := by
  unfold confNodeNameCheck nameCheck
  cases hval : child.val with
  | none =>
    -- the first node that is looked at has no value, or is compared with a null pointer
    obtain ⟨node, rest, hcons⟩ := List.exists_cons_of_ne_nil (List.ne_nil_of_mem hmem)
    have hcrash : (nameCheckFrom none (root.head.flatMap ConfNode.head) 0 : Start σ ℤ) =
        Start.crash := by
      rw [hcons, nameCheckFrom]
      cases node.val <;> rfl
    rw [hcrash]
    exact Start.Checks.crash_bind
  | some name =>
    rw [nameCheckFrom_eq (by decide), Nat.zero_add, Option.elim, scanCheck]
    split
    · have hfail : (pure (-1) >>= fun check => Start.guard (check = (0 : ℤ)) >>= fun _ => x) =
          (Start.fail : Start σ Unit) >>= fun _ => x := rfl
      rw [hfail]
      exact Start.Checks.fail_bind
    · split
      · exact Start.Checks.crash_bind
      · exact (hx name hval).congr rfl

end Keys

/-! ### The checks of a server -/

/-- The value of `analyzelib`: it fits, and a colon follows the library's name. -/
def libCheck (v : CString) : Verdict :=
  (copyCheck NEWIUP_PATH_LEN v).andThen (if ':' ∈ v then .pass else .stop)

/-- `thread-num`. -/
def threadsCheck (v : CString) : Verdict := if atoi v < 1 ∨ 15 < atoi v then .stop else .pass

/-- What `get_server_info` checks of a server before it sets up the queue. -/
def serverKeyChecks (root child : ConfNode) : List Verdict :=
  [nameCheck root child,
    keyCheck child "analyzelib".toList .stop .crash libCheck,
    keyCheck child "addr".toList .stop .crash fun _ => .pass,
    keyCheck child "username".toList .stop .crash fun _ => .pass,
    keyCheck child "passwd".toList .stop .crash fun _ => .pass,
    keyCheck child "finish-flag".toList .stop .crash (copyCheck NEWIUP_NAME_LEN),
    keyCheck child "file-suffix".toList .stop .crash (copyCheck NEWIUP_NAME_LEN),
    keyCheck child "thread-num".toList .stop .crash threadsCheck,
    keyCheck child "attempts".toList .pass .crash fun _ => .pass,
    keyCheck child "fsleep-time".toList .pass .crash fun _ => .pass]

/-- The entry has no threads and no queue yet, and the heap is `h`. -/
structure Slot.Fresh (h : Heap) (s : Slot) : Prop where
  heap_eq : s.heap = h
  pid_eq : s.entry.pid = none
  queueName_eq : s.entry.queueName = []

section ServerKeys

variable {h : Heap} {root child : ConfNode} {count : ℕ} {key : CString}

theorem checks_setEntry {f : ServerEntry → ServerEntry}
    (hf : ∀ e, (f e).pid = e.pid ∧ (f e).queueName = e.queueName) :
    Start.Checks (Slot.Fresh h) (setEntry f) [] :=
  .modify fun s hs => ⟨hs.heap_eq, (hf s.entry).1.trans hs.pid_eq,
    (hf s.entry).2.trans hs.queueName_eq⟩

theorem checks_serverName (hmem : child ∈ root.head.flatMap ConfNode.head) :
    Start.Checks (Slot.Fresh h) (serverName root child count)
      [nameCheck root child, keyCheck child "analyzelib".toList .stop .crash libCheck] := by
  refine Start.Checks.bind_none (checks_setEntry fun _ => ⟨rfl, rfl⟩) fun _ =>
    checks_nameCheck hmem fun name hname => ?_
  rw [hname]
  refine Start.Checks.bind_none (Start.Checks.pure name) fun name =>
    Start.Checks.bind_none (checks_setEntry fun _ => ⟨rfl, rfl⟩) fun _ =>
    checks_entryValue fun v _ => checks_strcpy fun _ => ?_
  exact Start.Checks.bind_one (Start.Checks.guard _) fun _ => checks_setEntry fun _ => ⟨rfl, rfl⟩

theorem checks_serverText {size : ℕ} {set : CString → ServerEntry → ServerEntry}
    (hset : ∀ v e, (set v e).pid = e.pid ∧ (set v e).queueName = e.queueName) :
    Start.Checks (Slot.Fresh h) (serverText child key size set)
      [keyCheck child key .stop .crash fun _ => .pass] :=
  checks_entryValue fun _ _ => (checks_setEntry (hset _)).congr rfl

theorem checks_serverMark {set : CString → ServerEntry → ServerEntry}
    (hset : ∀ v e, (set v e).pid = e.pid ∧ (set v e).queueName = e.queueName) :
    Start.Checks (Slot.Fresh h) (serverMark child key set)
      [keyCheck child key .stop .crash (copyCheck NEWIUP_NAME_LEN)] := by
  refine checks_entryValue fun v _ => ?_
  rw [← Verdict.andThen_pass (copyCheck NEWIUP_NAME_LEN v)]
  exact checks_strcpy fun _ => (checks_setEntry (hset v)).congr rfl

theorem checks_serverNumber {default : ℤ} {set : ℤ → ServerEntry → ServerEntry}
    (hset : ∀ n e, (set n e).pid = e.pid ∧ (set n e).queueName = e.queueName) :
    Start.Checks (Slot.Fresh h) (serverNumber child key default set)
      [keyCheck child key .pass .crash fun _ => .pass] := by
  refine Start.Checks.bind_none (checks_setEntry (hset default)) fun _ =>
    checks_childValue ((Start.Checks.pure ()).congr rfl) Start.Checks.crash fun v => ?_
  exact (checks_setEntry (hset (atoi v))).congr rfl

theorem checks_serverThreads : Start.Checks (Slot.Fresh h) (serverThreads child)
    [keyCheck child "thread-num".toList .stop .crash threadsCheck] := by
  refine checks_entryValue fun v _ => ?_
  refine Start.Checks.congr (Start.Checks.bind_none (checks_setEntry fun _ => ⟨rfl, rfl⟩) fun _ =>
    Start.Checks.guard _) ?_
  unfold threadsCheck
  by_cases hv : atoi v < 1 ∨ 15 < atoi v
  · rw [if_pos hv, if_neg (not_not.mpr hv)]
  · rw [if_neg hv, if_pos hv]

/-- **The keys of a server** are checked in order, up to the queue. -/
theorem checks_serverKeys (hmem : child ∈ root.head.flatMap ConfNode.head) :
    Start.Checks (Slot.Fresh h) (serverName root child count >>= fun _ => serverRest child)
      (serverKeyChecks root child) := by
  have hrfl : ∀ e : ServerEntry, e.pid = e.pid ∧ e.queueName = e.queueName := fun _ => ⟨rfl, rfl⟩
  have hdebug : Start.Checks (Slot.Fresh h) (serverDebug child) [] := by
    unfold serverDebug
    rw [confGetChildValue_some]
    exact (Start.Checks.pure _).bind fun _ => checks_setEntry fun _ => ⟨rfl, rfl⟩
  exact (checks_serverName hmem).bind fun _ =>
    Start.Checks.bind_one (checks_serverText fun _ e => hrfl e) fun _ =>
    Start.Checks.bind_one (checks_serverText fun _ e => hrfl e) fun _ =>
    Start.Checks.bind_one (checks_serverText fun _ e => hrfl e) fun _ =>
    Start.Checks.bind_one (checks_serverMark fun _ e => hrfl e) fun _ =>
    Start.Checks.bind_none hdebug fun _ =>
    Start.Checks.bind_one (checks_serverMark fun _ e => hrfl e) fun _ =>
    Start.Checks.bind_one checks_serverThreads fun _ =>
    Start.Checks.bind_one (checks_serverNumber fun _ e => hrfl e) fun _ =>
    checks_serverNumber fun _ e => hrfl e

end ServerKeys

/-! ### A turn of the loop -/

/-- The name that goes into the queue: a name that fills its array goes on into the name
of the library. -/
def configuredName (child : ConfNode) : CString :=
  let name := strncpy NEWIUP_NAME_LEN (child.val.getD [])
  if name.length < NEWIUP_NAME_LEN then name
  else name ++ libOf ((child.valueOf "analyzelib".toList).getD [])

/-- The name leaves the head of the queue alone. -/
def ServerEntry.Short (e : ServerEntry) : Prop := e.queueName.length ≤ NEWIUP_NAME_LEN + 4

instance (e : ServerEntry) : Decidable e.Short :=
  inferInstanceAs (Decidable (e.queueName.length ≤ NEWIUP_NAME_LEN + 4))

/-- The name of the queue, and the allocation of the threads. -/
def queueCheck (child : ConfNode) (answer : Bool) : Verdict :=
  if (configuredName child).length ≤ NEWIUP_NAME_LEN + 4 then (if answer then .pass else .stop)
  else .crash

/-- The checks of `get_server_info`, from a child on, with the allocations to come. -/
def childrenChecks (root : ConfNode) : List ConfNode → List Bool → List Verdict
  | [], _ => []
  | child :: rest, mallocs => serverKeyChecks root child ++
      queueCheck child (mallocs.headD true) :: childrenChecks root rest mallocs.tail

/-- **The checks of `servers_init`.**  Without `g_server` its number of servers stays. -/
def serversChecks (root : ConfNode) (mallocs : List Bool) : List Verdict :=
  match confGetNode root "servers".toList with
  | none => [.crash]
  | some node => (if 0 < node.head.length then .pass else .stop) ::
      (if mallocs.headD true then .pass else .crash) ::
        childrenChecks root node.head mallocs.tail

theorem MadeOf.configuredName_eq {root child : ConfNode} {count : ℕ} {e : ServerEntry}
    {name str : CString} (h : MadeOf root child count e name str) :
    e.name = configuredName child := by
  simp only [ServerEntry.name, configuredName, h.nameArray_eq, h.analyze_eq, h.val_eq, h.lib_eq,
    strncpy, Option.getD_some]

theorem keyCheck_ne_exit {node : ConfNode} {key : CString} {missing null : Verdict}
    {value : CString → Verdict} (hmissing : missing ≠ .exit) (hnull : null ≠ .exit)
    (hvalue : ∀ v, value v ≠ .exit) : keyCheck node key missing null value ≠ .exit := by
  unfold keyCheck
  cases confNodeLookupChild node key with
  | none => exact hmissing
  | some child =>
    cases hv : child.val with
    | none => simpa [hv] using hnull
    | some v => simpa [hv] using hvalue v

theorem nameCheck_ne_exit (root child : ConfNode) : nameCheck root child ≠ .exit := by
  unfold nameCheck scanCheck
  cases child.val with
  | none => exact nofun
  | some name =>
    dsimp only [Option.elim]
    split_ifs <;> exact nofun

/-- A server's keys end no process. -/
theorem serverKeys_ne_exit (root child : ConfNode) :
    firstStop (serverKeyChecks root child) ≠ .exit := by
  have hcopy : ∀ v, copyCheck NEWIUP_NAME_LEN v ≠ .exit := fun v => by
    unfold copyCheck
    split_ifs <;> exact nofun
  have hlib : ∀ v, libCheck v ≠ .exit := fun v => by
    unfold libCheck copyCheck
    split_ifs <;> exact nofun
  have hthreads : ∀ v, threadsCheck v ≠ .exit := fun v => by
    unfold threadsCheck
    split_ifs <;> exact nofun
  refine firstStop_ne_exit fun v hv => ?_
  simp only [serverKeyChecks, List.mem_cons, List.not_mem_nil, or_false] at hv
  rcases hv with rfl | rfl | rfl | rfl | rfl | rfl | rfl | rfl | rfl | rfl
  · exact nameCheck_ne_exit root child
  · exact keyCheck_ne_exit nofun nofun hlib
  · exact keyCheck_ne_exit nofun nofun fun _ => nofun
  · exact keyCheck_ne_exit nofun nofun fun _ => nofun
  · exact keyCheck_ne_exit nofun nofun fun _ => nofun
  · exact keyCheck_ne_exit nofun nofun hcopy
  · exact keyCheck_ne_exit nofun nofun hcopy
  · exact keyCheck_ne_exit nofun nofun hthreads
  · exact keyCheck_ne_exit nofun nofun fun _ => nofun
  · exact keyCheck_ne_exit nofun nofun fun _ => nofun

/-- The blocks of the entries' threads. -/
def pids (entries : List ServerEntry) : List ℕ := entries.flatMap fun e => e.pid.toList

section Turn

variable {s : Slot} {h : Heap} {bs : List ℕ} {root child : ConfNode} {count : ℕ}

/-- The entry with its queue, and what the allocation of the threads answered. -/
def Slot.queued (s : Slot) (h' : Heap) (pid : Option ℕ) : Slot :=
  ⟨h', { s.entry with
    makeCitations := NEWIUP_FAIL, curRc := 0, curFst := NEWIUP_FAIL,
    queueName := s.entry.name, pid }⟩

theorem serverQueue_eq {o : Option ℕ} {h' : Heap} (hrun : malloc s.heap = (.done o, h')) :
    serverQueue s = (if o = none then .failed else .done (), s.queued h' o) := by
  unfold serverQueue setEntry
  rw [Start.modify_bind, Start.modify_bind, Start.bind_of_done (by
    rw [Start.zoom]
    exact congrArg₂ Prod.mk (congrArg Prod.fst hrun) rfl), hrun]
  cases o <;> rfl

/-- **The queue of a server** gets its name, and threads where the allocation succeeds. -/
theorem serverQueue_end (ho : Owns s.heap bs) :
    ∃ s', s'.entry.queueName = s.entry.name ∧ s'.entry.name = s.entry.name ∧
      s'.heap.mallocs = s.heap.mallocs.tail ∧ Owns s'.heap (s'.entry.pid.toList ++ bs) ∧
      serverQueue s = (if s.heap.answer then .done () else .failed, s') := by
  obtain ⟨h', hmallocs, ⟨ha, hrun, ho'⟩ | ⟨ha, hrun, ho'⟩⟩ := ho.malloc
  · refine ⟨s.queued h' (some s.heap.next), rfl, rfl, hmallocs, ho', ?_⟩
    rw [serverQueue_eq hrun, ha]
    rfl
  · refine ⟨s.queued h' none, rfl, rfl, hmallocs, ho', ?_⟩
    rw [serverQueue_eq hrun, ha]
    rfl

/-- **A turn** goes as its keys do; where these pass, the queue gets the configured name. -/
theorem serverInfo_end (hs : s.Fresh h) (ho : Owns h bs)
    (hmem : child ∈ root.head.flatMap ConfNode.head) :
    firstStop (serverKeyChecks root child) = .crash ∧ (serverInfo root child count s).1 = .crash ∨
    firstStop (serverKeyChecks root child) = .stop ∧
      (∃ s', serverInfo root child count s = (.failed, s') ∧ s'.Fresh h) ∨
    firstStop (serverKeyChecks root child) = .pass ∧
      ∃ s', s'.entry.queueName = configuredName child ∧ s'.entry.name = configuredName child ∧
        s'.heap.mallocs = h.mallocs.tail ∧ Owns s'.heap (s'.entry.pid.toList ++ bs) ∧
        serverInfo root child count s = (if h.answer then .done () else .failed, s') := by
  have hkeys : Start.Checks (Slot.Fresh h) (serverName root child count >>= fun _ =>
    serverRest child) (serverKeyChecks root child) := checks_serverKeys hmem
  rw [serverInfo_eq]
  cases hfirst : firstStop (serverKeyChecks root child) with
  | crash =>
    have hcrash := Ends.verdict_eq_crash.mp ((hkeys.verdict s hs).trans hfirst)
    exact .inl ⟨rfl, Start.bind_crash_iff.mpr (.inl hcrash)⟩
  | exit => exact absurd hfirst (serverKeys_ne_exit root child)
  | stop =>
    obtain ⟨s', hrun, hs'⟩ := hkeys.failed hs hfirst
    exact .inr (.inl ⟨rfl, s', Start.bind_of_failed hrun, hs'⟩)
  | pass =>
    obtain ⟨a, s₁, hrun, hs₁⟩ := hkeys.done hs hfirst
    obtain ⟨name, str, hmade⟩ := serverKeys_done hrun
    have hname := hmade.configuredName_eq
    have ho₁ : Owns s₁.heap bs := hs₁.heap_eq ▸ ho
    obtain ⟨s', hqueue, hentry, hmallocs, ho', hend⟩ := serverQueue_end ho₁
    rw [hs₁.heap_eq] at hmallocs hend
    exact .inr (.inr ⟨rfl, s', hqueue.trans hname, hentry.trans hname, hmallocs, ho',
      (Start.bind_of_done hrun).trans hend⟩)

end Turn

/-! ### The loop -/

/-- `made` is filled, `n` more entries are fresh, and everything is still allocated. -/
structure Partly (rest : List ℕ) (block : ℕ) (made : List ServerEntry) (n : ℕ) (s : Servers) :
    Prop where
  server : ∃ more : List ServerEntry, s.gServer = some (block, made ++ more) ∧ more.length = n ∧
    ∀ e ∈ more, e.pid = none ∧ e.queueName = []
  num_eq : s.gServerNum = made.length + n
  owns : Owns s.heap (pids made ++ block :: rest)

section Loop

variable {rest : List ℕ} {block n : ℕ} {made : List ServerEntry} {s : Servers}
  {root child : ConfNode}

/-- **A turn of the loop** over the servers. -/
theorem turn_end (hp : Partly rest block made (n + 1) s)
    (hmem : child ∈ root.head.flatMap ConfNode.head) :
    firstStop (serverKeyChecks root child) = .crash ∧
      (atEntry made.length (serverInfo root child made.length) s).1 = .crash ∨
    firstStop (serverKeyChecks root child) = .stop ∧
      (∃ s', atEntry made.length (serverInfo root child made.length) s = (.failed, s') ∧
        Partly rest block made (n + 1) s') ∨
    firstStop (serverKeyChecks root child) = .pass ∧
      ∃ e s', e.queueName = configuredName child ∧ e.name = configuredName child ∧
        s'.heap.mallocs = s.heap.mallocs.tail ∧ Partly rest block (made ++ [e]) n s' ∧
        atEntry made.length (serverInfo root child made.length) s =
          (if s.heap.answer then .done () else .failed, s') := by
  -- the entry of this turn is the first of those that are still untouched
  obtain ⟨more, hserver, hlen, hfresh⟩ := hp.server
  obtain ⟨entry, more, rfl⟩ : ∃ e es, more = e :: es := List.exists_cons_of_length_eq_add_one hlen
  obtain ⟨hpid, hqueue⟩ := hfresh entry List.mem_cons_self
  have hget : (made ++ entry :: more)[made.length]? = some entry := by simp
  have hset : ∀ e, (made ++ entry :: more).set made.length e = made ++ e :: more := fun e => by simp
  have hat : ∀ {x : Start Slot Unit} {r : Ends Unit} {slot : Slot},
      x ⟨s.heap, entry⟩ = (r, slot) → atEntry made.length x s =
        (r, { s with heap := slot.heap, gServer := some (block, made ++ slot.entry :: more) }) := by
    intro x r slot hx
    unfold atEntry
    rw [hserver]
    dsimp only
    rw [hget]
    dsimp only
    rw [hset, hx]
  have hslot : Slot.Fresh s.heap ⟨s.heap, entry⟩ := ⟨rfl, hpid, hqueue⟩
  rcases @serverInfo_end _ _ _ _ _ made.length hslot hp.owns hmem with
    ⟨hfirst, hrun⟩ | ⟨hfirst, slot, hrun, hslot'⟩
    | ⟨hfirst, slot, hname, hname', hmallocs, ho, hrun⟩
  · have hrun' : serverInfo root child made.length ⟨s.heap, entry⟩ =
        (.crash, (serverInfo root child made.length ⟨s.heap, entry⟩).2) := Prod.ext hrun rfl
    exact .inl ⟨hfirst, congrArg Prod.fst (hat hrun')⟩
  · refine .inr (.inl ⟨hfirst, _, hat hrun,
      ⟨⟨slot.entry :: more, rfl, hlen, ?_⟩, hp.num_eq, ?_⟩⟩)
    · intro e he
      rcases List.mem_cons.mp he with rfl | he
      · exact ⟨hslot'.pid_eq, hslot'.queueName_eq⟩
      · exact hfresh e (List.mem_cons_of_mem _ he)
    · rw [hslot'.heap_eq]
      exact hp.owns
  · refine .inr (.inr ⟨hfirst, slot.entry, _, hname, hname', hmallocs,
      ⟨⟨more, ?_, by simpa using hlen, fun e he => hfresh e (List.mem_cons_of_mem _ he)⟩, ?_, ?_⟩,
      hat hrun⟩)
    · simp
    · rw [List.length_append, List.length_singleton]
      exact hp.num_eq.trans (by omega)
    · refine ho.perm ?_
      simp only [pids, List.flatMap_append, List.flatMap_cons, List.flatMap_nil, List.append_nil,
        List.append_assoc]
      exact List.perm_append_comm_assoc _ _ _

/-- **The loop returns or crashes**, and where it returns the entries that were filled are
as they were. -/
theorem children_returns {children : List ConfNode}
    (hp : Partly rest block made children.length s)
    (hmem : ∀ child ∈ children, child ∈ root.head.flatMap ConfNode.head) :
    (getServerInfoFrom root children made.length s).1 = .crash ∨
      ∃ r made' n' s', (r = .done () ∨ r = .failed) ∧ made <+: made' ∧
        Partly rest block made' n' s' ∧
        getServerInfoFrom root children made.length s = (r, s') := by
  induction children generalizing made s with
  | nil => exact .inr ⟨.done (), made, 0, s, .inl rfl, List.prefix_rfl, hp, rfl⟩
  | cons child children ih =>
    rcases turn_end hp (hmem child List.mem_cons_self) with
      ⟨-, hrun⟩ | ⟨-, s', hrun, hp'⟩ | ⟨-, e, s', -, -, -, hp', hrun⟩
    · exact .inl (Start.bind_crash_iff.mpr (.inl hrun))
    · exact .inr ⟨.failed, made, _, s', .inr rfl, List.prefix_rfl, hp', Start.bind_of_failed hrun⟩
    · cases ha : s.heap.answer with
      | false =>
        rw [ha] at hrun
        exact .inr ⟨.failed, _, _, s', .inr rfl, List.prefix_append _ _, hp',
          Start.bind_of_failed hrun⟩
      | true =>
        rw [ha] at hrun
        have hstep : getServerInfoFrom root (child :: children) made.length s =
            getServerInfoFrom root children (made ++ [e]).length s' := by
          rw [List.length_append]
          exact Start.bind_of_done hrun
        rw [hstep]
        refine (ih hp' fun c hc => hmem c (List.mem_cons_of_mem _ hc)).imp_right ?_
        rintro ⟨r, made', n', s'', hr, hpre, hp'', hrun'⟩
        exact ⟨r, made', n', s'', hr, (List.prefix_append _ _).trans hpre, hp'', hrun'⟩

/-- How the loop ends, by how its checks go. -/
inductive LoopEnd (rest : List ℕ) (block : ℕ) (names : List CString) (mallocs : List Bool) :
    Verdict → Ends Unit × Servers → Prop
  | done {made s'} (hp : Partly rest block made 0 s') (hshort : ∀ e ∈ made, e.Short)
      (hnames : made.map ServerEntry.name = names) (hmallocs : s'.heap.mallocs = mallocs) :
      LoopEnd rest block names mallocs .pass (.done (), s')
  | failed {made n s'} (hp : Partly rest block made n s') (hshort : ∀ e ∈ made, e.Short) :
      LoopEnd rest block names mallocs .stop (.failed, s')
  | long {r made n s'} (hp : Partly rest block made n s') (hlong : ∃ e ∈ made, ¬e.Short)
      (hr : r = .done () ∨ r = .failed) : LoopEnd rest block names mallocs .crash (r, s')
  | crash {s'} : LoopEnd rest block names mallocs .crash (.crash, s')

/-- **The loop ends as its checks go.** -/
theorem children_end {children : List ConfNode} (hp : Partly rest block made children.length s)
    (hshort : ∀ e ∈ made, e.Short)
    (hmem : ∀ child ∈ children, child ∈ root.head.flatMap ConfNode.head) :
    LoopEnd rest block (made.map ServerEntry.name ++ children.map configuredName)
      (s.heap.mallocs.drop children.length)
      (firstStop (childrenChecks root children s.heap.mallocs))
      (getServerInfoFrom root children made.length s) := by
  induction children generalizing made s with
  | nil => exact .done hp hshort (by simp) rfl
  | cons child children ih =>
    have hmem' := fun c hc => hmem c (List.mem_cons_of_mem child hc)
    rw [childrenChecks, firstStop_append, firstStop_cons]
    -- the turn goes wrong, or stops, or fills the entry; then it is the last one or not
    rcases turn_end hp (hmem child List.mem_cons_self) with
      ⟨hfirst, hrun⟩ | ⟨hfirst, s', hrun, hp'⟩ | ⟨hfirst, e, s', hqueue, hname, hmallocs, hp', hrun⟩
    · have hcrash : getServerInfoFrom root (child :: children) made.length s = (.crash, _) :=
        Prod.ext (Start.bind_crash_iff.mpr (.inl hrun)) rfl
      rw [hfirst, hcrash]
      exact .crash
    · have hfailed : getServerInfoFrom root (child :: children) made.length s = (.failed, s') :=
        Start.bind_of_failed hrun
      rw [hfirst, hfailed]
      exact .failed hp' hshort
    · have hstep : s.heap.answer = true → getServerInfoFrom root (child :: children) made.length s =
          getServerInfoFrom root children (made ++ [e]).length s' := by
        intro ha
        rw [ha] at hrun
        rw [List.length_append]
        exact Start.bind_of_done hrun
      have hfail : s.heap.answer = false →
          getServerInfoFrom root (child :: children) made.length s = (.failed, s') := by
        intro ha
        rw [ha] at hrun
        exact Start.bind_of_failed hrun
      rw [hfirst, Verdict.pass_andThen, queueCheck]
      by_cases hlen : (configuredName child).length ≤ NEWIUP_NAME_LEN + 4
      · have hshort' : ∀ e' ∈ made ++ [e], e'.Short := by
          intro e' he'
          rcases List.mem_append.mp he' with he' | he'
          · exact hshort e' he'
          · rw [List.mem_singleton.mp he', ServerEntry.Short, hqueue]
            exact hlen
        rw [if_pos hlen]
        cases ha : s.heap.mallocs.headD true with
        | false =>
          rw [hfail ha]
          exact .failed hp' hshort'
        | true =>
          have hend := ih hp' hshort' hmem'
          rw [hmallocs, List.map_append, List.append_assoc, List.map_singleton, hname,
            List.singleton_append, List.drop_tail, ← hstep ha] at hend
          exact hend
      · -- whatever comes after the long name, the entry stays
        have hlong : ∃ e' ∈ made ++ [e], ¬e'.Short :=
          ⟨e, by simp, by rw [ServerEntry.Short, hqueue]; exact hlen⟩
        rw [if_neg hlen]
        cases ha : s.heap.answer with
        | false =>
          rw [hfail ha]
          exact .long hp' hlong (.inr rfl)
        | true =>
          rw [hstep ha]
          rcases children_returns hp' hmem' with hcrash | ⟨r, made', n', s'', hr, hpre, hp'', hrun'⟩
          · have hcrash' : getServerInfoFrom root children (made ++ [e]).length s' = (.crash, _) :=
              Prod.ext hcrash rfl
            rw [hcrash']
            exact .crash
          · rw [hrun']
            obtain ⟨e', he', hlong⟩ := hlong
            exact .long hp'' ⟨e', hpre.subset he', hlong⟩ hr

end Loop

/-! ### The end -/

/-- There is no `g_server`. -/
structure Emptied (rest : List ℕ) (s : Servers) : Prop where
  server_eq : s.gServer = none
  num_eq : s.gServerNum = 0
  owns : Owns s.heap rest

/-- What `servers_exit` can clear up. -/
def Clearable (rest : List ℕ) (s : Servers) : Prop :=
  ∃ block made n, Partly rest block made n s ∧ ∀ e ∈ made, e.Short

/-- What it cannot: there are servers to clear up and no array, or the head of a queue is
overwritten. -/
def Doomed (rest : List ℕ) (s : Servers) : Prop :=
  (s.gServer = none ∧ 0 < s.gServerNum ∧ Owns s.heap rest) ∨
  ∃ block made n, Partly rest block made n s ∧ ∃ e ∈ made, ¬e.Short

section Exit

variable {rest bs : List ℕ} {block : ℕ} {pre es : List ServerEntry} {e : ServerEntry} {s : Servers}

/-- A turn of `servers_exit` frees the threads and follows the queue. -/
theorem exitTurn (hs : s.gServer = some (block, pre ++ e :: es))
    (ho : Owns s.heap (e.pid.toList ++ bs)) :
    ∃ h', Owns h' bs ∧ atEntry pre.length serverExit s =
      (if e.Short then .done () else .crash, { s with heap := h' }) := by
  have hqueue : ∀ heap, (if e.queueName.length ≤ NEWIUP_NAME_LEN + 4 then pure ()
      else Start.crash : Start Slot Unit) ⟨heap, e⟩ =
        (if e.Short then .done () else .crash, ⟨heap, e⟩) := by
    intro heap
    by_cases hlen : e.Short
    · rw [if_pos hlen]
      exact congrFun (if_pos hlen) _
    · rw [if_neg hlen]
      exact congrFun (if_neg hlen) _
  have hslot : ∃ h', Owns h' bs ∧
      serverExit ⟨s.heap, e⟩ = (if e.Short then .done () else .crash, ⟨h', e⟩) := by
    unfold serverExit
    rw [Start.get_bind]
    dsimp only
    cases hpid : e.pid with
    | none =>
      rw [hpid] at ho
      exact ⟨s.heap, ho, hqueue s.heap⟩
    | some pid =>
      rw [hpid] at ho
      obtain ⟨h', hfree, ho'⟩ := ho.free
      have hzoom : Start.zoom Slot.heap (fun heap s => { s with heap }) (free pid) ⟨s.heap, e⟩ =
          (.done (), ⟨h', e⟩) := by
        rw [Start.zoom, hfree]
      exact ⟨h', ho', (Start.bind_of_done hzoom).trans (hqueue h')⟩
  obtain ⟨h', ho', hrun⟩ := hslot
  refine ⟨h', ho', ?_⟩
  unfold atEntry
  rw [hs]
  dsimp only
  rw [List.getElem?_append_right le_rfl, Nat.sub_self]
  dsimp only [List.getElem?_cons_zero]
  rw [hrun, List.set_append_right _ _ le_rfl, Nat.sub_self, List.set_cons_zero, ← hs]

/-- **The loop of `servers_exit`** frees the threads, unless the head of a queue is
overwritten. -/
theorem serversExitFrom_end (hs : s.gServer = some (block, pre ++ es))
    (ho : Owns s.heap (pids es ++ bs)) :
    if ∀ e ∈ es, e.Short then
      ∃ h', Owns h' bs ∧ serversExitFrom pre.length es.length s = (.done (), { s with heap := h' })
    else (serversExitFrom pre.length es.length s).1 = .crash := by
  induction es generalizing pre s with
  | nil =>
    rw [if_pos (fun e he => absurd he List.not_mem_nil)]
    exact ⟨s.heap, ho, rfl⟩
  | cons e es ih =>
    rw [pids, List.flatMap_cons, List.append_assoc] at ho
    obtain ⟨h', ho', hturn⟩ := exitTurn hs ho
    have hs' : s.gServer = some (block, (pre ++ [e]) ++ es) := by simpa using hs
    have hrest := @ih (pre ++ [e]) { s with heap := h' } hs' ho'
    rw [List.length_append, List.length_singleton] at hrest
    by_cases he : e.Short
    · rw [if_pos he] at hturn
      have hstep : serversExitFrom pre.length (e :: es).length s =
          serversExitFrom (pre.length + 1) es.length { s with heap := h' } :=
        Start.bind_of_done hturn
      rw [hstep]
      by_cases hes : ∀ e ∈ es, e.Short
      · rw [if_pos hes] at hrest
        rw [if_pos (List.forall_mem_cons.mpr ⟨he, hes⟩)]
        exact hrest
      · rw [if_neg hes] at hrest
        rw [if_neg fun hall => hes (List.forall_mem_cons.mp hall).2]
        exact hrest
    · rw [if_neg he] at hturn
      rw [if_neg fun hall => he (List.forall_mem_cons.mp hall).1]
      exact congrArg Prod.fst (Start.bind_of_crash hturn)

/-- Before and after, `servers_exit` does nothing. -/
theorem Emptied.exit (h : Emptied rest s) : Servers.serversExit s = (.done (), s) := by
  obtain ⟨heap, server, num⟩ := s
  obtain rfl : server = none := h.server_eq
  obtain rfl : num = 0 := h.num_eq
  rfl

/-- The array as `servers_exit` finds it. -/
theorem Partly.all {made : List ServerEntry} {n : ℕ} (hp : Partly rest block made n s) :
    ∃ all, s.gServer = some (block, all) ∧ s.gServerNum = all.length ∧
      Owns s.heap (pids all ++ block :: rest) ∧
      ((∀ e ∈ all, e.Short) ↔ ∀ e ∈ made, e.Short) := by
  obtain ⟨more, hserver, hlen, hfresh⟩ := hp.server
  refine ⟨made ++ more, hserver, ?_, ?_, fun h e he => h e (List.mem_append_left _ he), ?_⟩
  · rw [List.length_append, hlen]
    exact hp.num_eq
  · have hmore : pids more = [] :=
      List.flatMap_eq_nil_iff.mpr fun e he => by rw [(hfresh e he).1]; rfl
    rw [pids, List.flatMap_append, ← pids, ← pids, hmore, List.append_nil]
    exact hp.owns
  · intro hshort e he
    rcases List.mem_append.mp he with he | he
    · exact hshort e he
    · rw [ServerEntry.Short, (hfresh e he).2]
      exact Nat.zero_le _

/-- **What is settled is cleared up.** -/
theorem Clearable.exit (h : Clearable rest s) :
    ∃ s', Servers.serversExit s = (.done (), s') ∧ Emptied rest s' := by
  obtain ⟨block, made, n, hp, hshort⟩ := h
  obtain ⟨all, hserver, hnum, howns, hall⟩ := hp.all
  have hloop := @serversExitFrom_end (block :: rest) block [] all s hserver howns
  rw [if_pos (hall.mpr hshort), List.length_nil, ← hnum] at hloop
  obtain ⟨h', ho', hrun⟩ := hloop
  obtain ⟨h'', hfree, ho''⟩ := ho'.free
  refine ⟨{ heap := h'', gServer := none, gServerNum := 0 }, ?_, rfl, rfl, ho''⟩
  have hzoom : Start.zoom Servers.heap (fun heap s => { s with heap }) (free block)
      { s with heap := h' } = (.done (), { s with heap := h'' }) := by
    rw [Start.zoom, hfree]
  unfold Servers.serversExit
  rw [hserver] at hzoom
  rw [Start.get_bind, Start.bind_of_done hrun, hserver]
  exact Start.bind_of_done hzoom

/-- **What is doomed is not.** -/
theorem Doomed.exit (h : Doomed rest s) : (Servers.serversExit s).1 = .crash := by
  unfold Servers.serversExit
  rw [Start.get_bind]
  refine Start.bind_crash_iff.mpr (.inl ?_)
  rcases h with ⟨hserver, hnum, -⟩ | ⟨block, made, n, hp, e, he, hlong⟩
  · obtain ⟨n, hn⟩ := Nat.exists_eq_add_of_lt hnum
    have hnull : atEntry 0 serverExit s = (.crash, s) := by rw [atEntry, hserver]
    rw [hn]
    exact congrArg Prod.fst (Start.bind_of_crash hnull)
  · obtain ⟨all, hserver, hnum, howns, hall⟩ := hp.all
    have hloop := @serversExitFrom_end (block :: rest) block [] all s hserver howns
    rwa [if_neg fun hshort => hlong (hall.mp hshort e he), List.length_nil, ← hnum] at hloop

/-! ### The start -/

/-- How `servers_init` ends, by how its checks go. -/
inductive ServersEnd (rest : List ℕ) (names : List CString) (mallocs : List Bool) :
    Verdict → Ends Unit × Servers → Prop
  | done {s'} (hs : Clearable rest s') (hnames : s'.realServers.map RealServer.name = names)
      (hmallocs : s'.heap.mallocs = mallocs) :
      ServersEnd rest names mallocs .pass (.done (), s')
  | failed {s'} (hs : Emptied rest s') : ServersEnd rest names mallocs .stop (.failed, s')
  | doomed {r s'} (hs : Doomed rest s') (hr : r = .done () ∨ r = .failed) :
      ServersEnd rest names mallocs .crash (r, s')
  | crash {s'} : ServersEnd rest names mallocs .crash (.crash, s')

/-- The names of the servers as they are looked up. -/
def serverNames (root : ConfNode) : List CString :=
  ((confGetNode root "servers".toList).elim [] ConfNode.head).map configuredName

/-- What is left of the allocations after a successful `servers_init`. -/
def mallocsAfter (root : ConfNode) (mallocs : List Bool) : List Bool :=
  mallocs.drop (1 + (serverNames root).length)

variable {root node : ConfNode}

/-- Filling the array, and clearing it up after an error. -/
theorem getServerInfo_end (hnode : confGetNode root "servers".toList = some node)
    (hp : Partly rest block [] node.head.length s) :
    ServersEnd rest (node.head.map configuredName) (s.heap.mallocs.drop node.head.length)
      (firstStop (childrenChecks root node.head s.heap.mallocs))
      (Start.orElse (getServerInfo root) Servers.serversExit s) := by
  have hmem : ∀ child ∈ node.head, child ∈ root.head.flatMap ConfNode.head := fun c hc =>
    List.mem_flatMap.mpr ⟨node, mem_of_confGetNode (by decide) (by decide) hnode, hc⟩
  have hinfo : getServerInfo root s = getServerInfoFrom root node.head 0 s := by
    unfold getServerInfo
    rw [hnode]
    rfl
  have hloop := children_end hp (fun e he => absurd he List.not_mem_nil) hmem
  rw [List.length_nil, List.map_nil, List.nil_append, ← hinfo] at hloop
  unfold Start.orElse
  generalize getServerInfo root s = r at hloop ⊢
  generalize firstStop (childrenChecks root node.head s.heap.mallocs) = v at hloop ⊢
  -- after an error the array is cleared up, which goes well where no name is too long
  cases hloop with
  | @done made s' hp' hshort hnames hmallocs =>
    refine .done ⟨block, made, 0, hp', hshort⟩ ?_ hmallocs
    obtain ⟨more, hserver, hlen, -⟩ := hp'.server
    rw [List.length_eq_zero_iff.mp hlen, List.append_nil] at hserver
    rw [← hnames, Servers.realServers, hserver]
    simp [ServerEntry.toRealServer, Function.comp_def]
  | failed hp' hshort =>
    obtain ⟨s'', hexit, hcleared⟩ := Clearable.exit ⟨_, _, _, hp', hshort⟩
    have hrun : (Servers.serversExit >>= fun _ => (Start.fail : Start Servers Unit)) _ =
        (.failed, s'') := Start.bind_of_done hexit
    dsimp only
    rw [hrun]
    exact .failed hcleared
  | long hp' hlong hr =>
    have hdoomed : Doomed rest _ := .inr ⟨_, _, _, hp', hlong⟩
    rcases hr with rfl | rfl
    · exact .doomed hdoomed (.inl rfl)
    · have hcrash : (Servers.serversExit >>= fun _ => (Start.fail : Start Servers Unit)) _ =
          (.crash, _) := Prod.ext (Start.bind_crash_iff.mpr (.inl hdoomed.exit)) rfl
      dsimp only
      rw [hcrash]
      exact .crash
  | crash => exact .crash

/-- **How `servers_init` ends** is how its checks go. -/
theorem serversInit_end (hs : Emptied rest s) :
    ServersEnd rest (serverNames root) (mallocsAfter root s.heap.mallocs)
      (firstStop (serversChecks root s.heap.mallocs)) (serversInit root s) := by
  unfold serversInit confGetChildNumber serversChecks
  cases hnode : confGetNode root "servers".toList with
  | none => exact .crash
  | some node =>
    have hnum : ((Start.deref (some node) >>= fun node => pure node.head.length) :
        Start Servers ℕ) s = (.done node.head.length, s) := rfl
    rw [Start.bind_of_done hnum, Start.modify_bind, firstStop_cons, firstStop_cons]
    -- the number of servers, then the array, then the loop over the servers
    by_cases hpos : 0 < node.head.length
    · obtain ⟨h', hmallocs, hmalloc⟩ := hs.owns.malloc
      have hguard : Start.guard (0 < node.head.length) { s with gServerNum := node.head.length } =
          (.done (), { s with gServerNum := node.head.length }) :=
        Start.guard_done_iff.mpr ⟨hpos, rfl⟩
      have hzoom : ∀ {o}, malloc s.heap = (.done o, h') →
          Start.zoom Servers.heap (fun heap s => { s with heap }) malloc
            { s with gServerNum := node.head.length } =
              (.done o, { s with heap := h', gServerNum := node.head.length }) := by
        intro o hrun
        rw [Start.zoom, hrun]
      rw [if_pos hpos, Verdict.pass_andThen, Start.bind_of_done hguard]
      unfold Heap.answer at hmalloc
      rcases hmalloc with ⟨ha, hrun, ho⟩ | ⟨ha, hrun, ho⟩
      · have hnames : serverNames root = node.head.map configuredName := by
          rw [serverNames, hnode]
          rfl
        rw [ha, if_pos rfl, Verdict.pass_andThen, Start.bind_of_done (hzoom hrun), mallocsAfter,
          hnames, List.length_map, Nat.add_comm, ← List.drop_tail, ← hmallocs]
        refine getServerInfo_end (s := { s with
          heap := h', gServerNum := node.head.length
          gServer := some (s.heap.next, List.replicate node.head.length .zero) }) hnode
          ⟨⟨_, rfl, List.length_replicate, fun e he => ?_⟩, (Nat.zero_add _).symm, ho⟩
        rw [List.eq_of_mem_replicate he]
        exact ⟨rfl, rfl⟩
      · rw [ha, if_neg nofun, Start.bind_of_done (hzoom hrun)]
        exact .doomed (.inl ⟨rfl, hpos, ho⟩) (.inr rfl)
    · have hguard : Start.guard (0 < node.head.length) { s with gServerNum := node.head.length } =
          (.failed, { s with gServerNum := node.head.length }) := by
        rw [Start.guard, if_neg hpos]
        rfl
      rw [if_neg hpos, Start.bind_of_failed hguard]
      exact .failed ⟨hs.server_eq, by simpa using hpos, hs.owns⟩

end Exit

end Newiup
