import Newiup.Conf
import Newiup.ServerList

/-!
# How the servers are set up

`servers_init` allocates one entry of `g_server` for each child of the section `servers`
and fills the entries from the children's keys.  The name of a server is copied with a
bound into an array that the array `analyze` follows, so that a long name has no end of
its own.

## Main definitions

* `Heap`, `malloc`, `free` — blocks, and the results of the allocations to come.
* `ServerEntry` — an entry of `g_server`, as `get_server_info` fills it.
* `serversInit`, `Servers.serversExit` — the functions.
* `NamesResolve` — the names of the children find their own entries.
* `NameFits` — a name that is read as it is configured.

## Main results

* `names_resolve_iff` — **after a successful start the names resolve exactly when each of
  them fits.**
-/

namespace Newiup

/-! ### The heap -/

/-- The blocks that are allocated, and what the allocations to come will answer; after the
listed ones they succeed. -/
structure Heap where
  /-- The results of `malloc` to come. -/
  mallocs : List Bool
  /-- The next block. -/
  next : ℕ
  /-- The blocks that are allocated. -/
  live : List ℕ
  deriving DecidableEq

/-- `malloc`. -/
def malloc : Start Heap (Option ℕ) := fun h =>
  if h.mallocs.headD true then
    (.done (some h.next),
      { mallocs := h.mallocs.tail, next := h.next + 1, live := h.next :: h.live })
  else (.done none, { h with mallocs := h.mallocs.tail })

/-- `free`, which is undefined on what is not allocated. -/
def free (block : ℕ) : Start Heap Unit := fun h =>
  if block ∈ h.live then (.done (), { h with live := h.live.erase block }) else (.crash, h)

/-! ### The entries -/

/-- `real_server`, as `get_server_info` fills it. -/
structure ServerEntry where
  /-- `index`. -/
  index : ℕ
  /-- `make_citations`. -/
  makeCitations : ℤ
  /-- The array `name`: `strncpy` leaves no end after 32 characters. -/
  nameArray : CString
  /-- `analyze`, up to its first end. -/
  analyze : CString
  /-- `analyze_lib_f`. -/
  analyzeLibF : CString
  /-- `addr`. -/
  addr : CString
  /-- `username`. -/
  username : CString
  /-- `passwd`. -/
  passwd : CString
  /-- `finish_confirm`. -/
  finishConfirm : CString
  /-- `retry_count`. -/
  retryCount : ℤ
  /-- `fail_sleep_time`. -/
  failSleepTime : ℤ
  /-- `cur_rc`. -/
  curRc : ℤ
  /-- `cur_fst`. -/
  curFst : ℤ
  /-- `debug`. -/
  debug : ℤ
  /-- `file_suffix`. -/
  fileSuffix : CString
  /-- `thread_num`. -/
  threadNum : ℤ
  /-- `pid`. -/
  pid : Option ℕ
  /-- What `strcpy` puts at `queue.name`, which has 32 bytes; the lock and the head of the
  list follow. -/
  queueName : CString
  deriving DecidableEq

/-- `NEWIUP_NAME_LEN`, also the size of the other short arrays. -/
def NEWIUP_NAME_LEN : ℕ := 32

/-- An entry after `memset`. -/
def ServerEntry.zero : ServerEntry :=
  { index := 0, makeCitations := 0, nameArray := [], analyze := [], analyzeLibF := [],
    addr := [], username := [], passwd := [], finishConfirm := [], retryCount := 0,
    failSleepTime := 0, curRc := 0, curFst := 0, debug := 0, fileSuffix := [], threadNum := 0,
    pid := none, queueName := [] }

/-- `g_server[i].name` as a string: without an end of its own it goes on into `analyze`. -/
def ServerEntry.name (e : ServerEntry) : CString :=
  if e.nameArray.length < NEWIUP_NAME_LEN then e.nameArray else e.nameArray ++ e.analyze

/-- The variables of `servers.c`, with the heap. -/
structure Servers where
  /-- The heap. -/
  heap : Heap
  /-- `g_server`: its block and its entries. -/
  gServer : Option (ℕ × List ServerEntry)
  /-- `g_server_num`. -/
  gServerNum : ℕ
  deriving DecidableEq

/-! ### One server -/

/-- The heap, and the entry that is filled. -/
structure Slot where
  /-- The heap. -/
  heap : Heap
  /-- `g_server[count]`. -/
  entry : ServerEntry

/-- An assignment to fields of the entry. -/
def setEntry (f : ServerEntry → ServerEntry) : Start Slot Unit :=
  Start.modify fun s => { s with entry := f s.entry }

/-- The part of `analyzelib` before the colon. -/
def libOf (str : CString) : CString := str.takeWhile (· ≠ ':')

/-- The name and the library of a server. -/
def serverName (root child : ConfNode) (count : ℕ) : Start Slot Unit := do
  setEntry fun e => { e with index := count }
  let check ← confNodeNameCheck root child.val
  Start.guard (check = 0)
  let name ← Start.deref child.val
  setEntry fun e => { e with nameArray := strncpy NEWIUP_NAME_LEN name }
  let str ← entryKey child "analyzelib".toList
  let str ← Start.deref str
  let copy ← strcpy NEWIUP_PATH_LEN str
  Start.guard (':' ∈ copy)
  setEntry fun e =>
    { e with analyze := libOf copy, analyzeLibF := (copy.dropWhile (· ≠ ':')).tail }

/-- The key `key`, copied with a bound. -/
def serverText (child : ConfNode) (key : CString) (size : ℕ)
    (set : CString → ServerEntry → ServerEntry) : Start Slot Unit := do
  let str ← entryKey child key
  let str ← Start.deref str
  setEntry (set (strncpy size str))

/-- The key `key`, whose first character is read and which is copied where it is not
empty. -/
def serverMark (child : ConfNode) (key : CString) (set : CString → ServerEntry → ServerEntry) :
    Start Slot Unit := do
  let str ← entryKey child key
  let str ← Start.deref str
  let copy ← strcpy NEWIUP_NAME_LEN str
  setEntry (set copy)

/-- The key `key`, which has a default. -/
def serverNumber (child : ConfNode) (key : CString) (default : ℤ)
    (set : ℤ → ServerEntry → ServerEntry) : Start Slot Unit := do
  setEntry (set default)
  let found ← confGetChildValue (some child) key none
  if found.1 ≠ 0 then
    let str ← Start.deref found.2
    setEntry (set (atoi str))
  else pure ()

/-- `debug`, which is only looked for. -/
def serverDebug (child : ConfNode) : Start Slot Unit := do
  let found ← confGetChildValue (some child) "debug".toList none
  setEntry fun e => { e with debug := if found.1 = 0 then NEWIUP_OK else NEWIUP_FAIL }

/-- `thread-num`, from 1 to 15. -/
def serverThreads (child : ConfNode) : Start Slot Unit := do
  let str ← entryKey child "thread-num".toList
  let str ← Start.deref str
  setEntry fun e => { e with threadNum := atoi str }
  Start.guard (¬(atoi str < 1 ∨ 15 < atoi str))

/-- `NEWIUP_UP_ERROR_CUR_WV_TIMES`. -/
def NEWIUP_UP_ERROR_CUR_WV_TIMES : ℤ := 1

/-- `NEWIUP_UP_ERROR_SKIP_TIME`. -/
def NEWIUP_UP_ERROR_SKIP_TIME : ℤ := 60

/-- The counters, the queue and the threads of a server. -/
def serverQueue : Start Slot Unit := do
  setEntry fun e => { e with makeCitations := NEWIUP_FAIL, curRc := 0, curFst := NEWIUP_FAIL }
  setEntry fun e => { e with queueName := e.name }
  let pid ← Start.zoom Slot.heap (fun heap s => { s with heap }) malloc
  setEntry fun e => { e with pid }
  Start.guard (pid ≠ none)

/-- What `get_server_info` reads of a server after its name. -/
def serverRest (child : ConfNode) : Start Slot Unit := do
  serverText child "addr".toList 24 fun v e => { e with addr := v }
  serverText child "username".toList NEWIUP_NAME_LEN fun v e => { e with username := v }
  serverText child "passwd".toList 32 fun v e => { e with passwd := v }
  serverMark child "finish-flag".toList fun v e => { e with finishConfirm := v }
  serverDebug child
  serverMark child "file-suffix".toList fun v e => { e with fileSuffix := v }
  serverThreads child
  serverNumber child "attempts".toList NEWIUP_UP_ERROR_CUR_WV_TIMES
    fun n e => { e with retryCount := n }
  serverNumber child "fsleep-time".toList NEWIUP_UP_ERROR_SKIP_TIME
    fun n e => { e with failSleepTime := n }

/-- A turn of the loop of `get_server_info`. -/
def serverInfo (root child : ConfNode) (count : ℕ) : Start Slot Unit := do
  serverName root child count
  serverText child "addr".toList 24 fun v e => { e with addr := v }
  serverText child "username".toList NEWIUP_NAME_LEN fun v e => { e with username := v }
  serverText child "passwd".toList 32 fun v e => { e with passwd := v }
  serverMark child "finish-flag".toList fun v e => { e with finishConfirm := v }
  serverDebug child
  serverMark child "file-suffix".toList fun v e => { e with fileSuffix := v }
  serverThreads child
  serverNumber child "attempts".toList NEWIUP_UP_ERROR_CUR_WV_TIMES
    fun n e => { e with retryCount := n }
  serverNumber child "fsleep-time".toList NEWIUP_UP_ERROR_SKIP_TIME
    fun n e => { e with failSleepTime := n }
  serverQueue

/-! ### All servers -/

/-- A computation on `g_server[count]`; a null `g_server` and an index behind its end are
undefined. -/
def atEntry (count : ℕ) (x : Start Slot Unit) : Start Servers Unit := fun s =>
  match s.gServer with
  | none => (.crash, s)
  | some (block, entries) =>
    match entries[count]? with
    | none => (.crash, s)
    | some entry =>
      ((x ⟨s.heap, entry⟩).1,
        { s with
          heap := (x ⟨s.heap, entry⟩).2.heap
          gServer := some (block, entries.set count (x ⟨s.heap, entry⟩).2.entry) })

/-- The loop of `get_server_info`, from a child on. -/
def getServerInfoFrom (root : ConfNode) : List ConfNode → ℕ → Start Servers Unit
  | [], _ => pure ()
  | child :: rest, count => do
    atEntry count (serverInfo root child count)
    getServerInfoFrom root rest (count + 1)

/-- `get_server_info`. -/
def getServerInfo (root : ConfNode) : Start Servers Unit := do
  let node ← Start.deref (confGetNode root "servers".toList)
  getServerInfoFrom root node.head 0

/-- A turn of the loop of `servers_exit`.  The queue is empty at start-up; a name that
`strcpy` took over the lock into the head of the list leaves a pointer to nowhere. -/
def serverExit : Start Slot Unit := do
  let s ← Start.get
  match s.entry.pid with
  | none => pure ()
  | some pid => Start.zoom Slot.heap (fun heap s => { s with heap }) (free pid)
  if s.entry.queueName.length ≤ NEWIUP_NAME_LEN + 4 then pure () else Start.crash

/-- The loop of `servers_exit`, over `n` entries from `i` on. -/
def serversExitFrom (i : ℕ) : ℕ → Start Servers Unit
  | 0 => pure ()
  | n + 1 => do
    atEntry i serverExit
    serversExitFrom (i + 1) n

/-- `servers_exit`. -/
def Servers.serversExit : Start Servers Unit := do
  let s ← Start.get
  serversExitFrom 0 s.gServerNum
  match s.gServer with
  | none => pure ()
  | some array => Start.zoom Servers.heap (fun heap s => { s with heap }) (free array.1)
  Start.modify fun s => { s with gServer := none, gServerNum := 0 }

/-- `servers_init`. -/
def serversInit (root : ConfNode) : Start Servers Unit := do
  let num ← confGetChildNumber root "servers".toList
  Start.modify fun s => { s with gServerNum := num }
  Start.guard (0 < num)
  let block ← Start.zoom Servers.heap (fun heap s => { s with heap }) malloc
  match block with
  | none => do
    Start.modify fun s => { s with gServer := none }
    Start.fail
  | some block => do
    Start.modify fun s => { s with gServer := some (block, List.replicate num .zero) }
    Start.orElse (getServerInfo root) Servers.serversExit

/-! ### The look-ups -/

/-- The server that the daemon knows an entry as. -/
def ServerEntry.toRealServer (e : ServerEntry) : RealServer :=
  { index := e.index, name := e.name, retryCount := e.retryCount,
    failSleepTime := e.failSleepTime, threadNum := e.threadNum.toNat }

/-- `g_server` as the daemon uses it. -/
def Servers.realServers (s : Servers) : List RealServer :=
  (s.gServer.elim [] Prod.snd).map ServerEntry.toRealServer

/-- `get_server_id_by_name`. -/
def getServerIdByName (servers : List RealServer) (name : CString) : ℤ :=
  match servers.findIdx? fun rs => rs.name == name with
  | none => NEWIUP_FAIL
  | some i => i

/-- **The names of the children find their own entries**, and no other name finds one.  The
list is the one that `servers_init` leaves, so that the two look-ups go through what was copied
into the fields of the entries, and not through the configuration. -/
structure NamesResolve (children : List ConfNode) (servers : List RealServer) : Prop where
  own : ∀ (i : ℕ) (child : ConfNode), children[i]? = some child →
    ∃ (name : CString) (rs : RealServer), child.val = some name ∧ servers[i]? = some rs ∧
      rs.index = i ∧ getServerByName servers name = some rs ∧ getServerIdByName servers name = i
  other : ∀ name : CString, (∀ child ∈ children, child.val ≠ some name) →
    getServerByName servers name = none ∧ getServerIdByName servers name = NEWIUP_FAIL

/-- **A name that is read as it is configured**: it is shorter than its array, or what is
cut off is what the array behind holds. -/
def NameFits (child : ConfNode) : Prop :=
  ∀ name str, child.val = some name → child.valueOf "analyzelib".toList = some str →
    name.length < NEWIUP_NAME_LEN ∨ name.drop NEWIUP_NAME_LEN = libOf str

/-! ### What the start leaves in an entry -/

/-- What a look-up reads of an entry. -/
def Slot.nameKey (s : Slot) : ℕ × CString × CString :=
  (s.entry.index, s.entry.nameArray, s.entry.analyze)

theorem keeps_setEntry {f : ServerEntry → ServerEntry}
    (h : ∀ e, (f e).index = e.index ∧ (f e).nameArray = e.nameArray ∧ (f e).analyze = e.analyze) :
    Start.Keeps Slot.nameKey (setEntry f) :=
  .modify fun s => by simp only [Slot.nameKey, h s.entry]

theorem keeps_serverText {child : ConfNode} {key : CString} {size : ℕ}
    {set : CString → ServerEntry → ServerEntry}
    (h : ∀ v e, (set v e).index = e.index ∧ (set v e).nameArray = e.nameArray ∧
      (set v e).analyze = e.analyze) :
    Start.Keeps Slot.nameKey (serverText child key size set) :=
  (keeps_entryKey _ _).bind fun _ => (Start.Keeps.deref _).bind fun _ => keeps_setEntry (h _)

theorem keeps_serverMark {child : ConfNode} {key : CString}
    {set : CString → ServerEntry → ServerEntry}
    (h : ∀ v e, (set v e).index = e.index ∧ (set v e).nameArray = e.nameArray ∧
      (set v e).analyze = e.analyze) :
    Start.Keeps Slot.nameKey (serverMark child key set) :=
  (keeps_entryKey _ _).bind fun _ => (Start.Keeps.deref _).bind fun _ =>
    (keeps_strcpy _ _).bind fun _ => keeps_setEntry (h _)

theorem keeps_serverNumber {child : ConfNode} {key : CString} {default : ℤ}
    {set : ℤ → ServerEntry → ServerEntry}
    (h : ∀ n e, (set n e).index = e.index ∧ (set n e).nameArray = e.nameArray ∧
      (set n e).analyze = e.analyze) :
    Start.Keeps Slot.nameKey (serverNumber child key default set) := by
  refine (keeps_setEntry (h _)).bind fun _ => (keeps_confGetChildValue _ _ _).bind fun found => ?_
  split
  · exact (Start.Keeps.deref _).bind fun _ => keeps_setEntry (h _)
  · exact .pure ()

theorem keeps_serverDebug (child : ConfNode) : Start.Keeps Slot.nameKey (serverDebug child) :=
  (keeps_confGetChildValue _ _ _).bind fun _ => keeps_setEntry fun _ => ⟨rfl, rfl, rfl⟩

theorem keeps_serverThreads (child : ConfNode) : Start.Keeps Slot.nameKey (serverThreads child) :=
  (keeps_entryKey _ _).bind fun _ => (Start.Keeps.deref _).bind fun _ =>
    Start.Keeps.bind (keeps_setEntry fun _ => ⟨rfl, rfl, rfl⟩) fun _ => Start.Keeps.guard _

theorem keeps_serverQueue : Start.Keeps Slot.nameKey serverQueue :=
  Start.Keeps.bind (keeps_setEntry fun _ => ⟨rfl, rfl, rfl⟩) fun _ =>
    Start.Keeps.bind (keeps_setEntry fun _ => ⟨rfl, rfl, rfl⟩) fun _ =>
    Start.Keeps.bind (Start.Keeps.zoom fun _ _ => rfl) fun _ =>
    Start.Keeps.bind (keeps_setEntry fun _ => ⟨rfl, rfl, rfl⟩) fun _ => Start.Keeps.guard _

/-- What follows the name up to the queue leaves it alone. -/
theorem keeps_serverRest (child : ConfNode) : Start.Keeps Slot.nameKey (serverRest child) := by
  have hrfl : ∀ e : ServerEntry,
      e.index = e.index ∧ e.nameArray = e.nameArray ∧ e.analyze = e.analyze :=
    fun _ => ⟨rfl, rfl, rfl⟩
  exact Start.Keeps.bind (keeps_serverText fun _ e => hrfl e) fun _ =>
    Start.Keeps.bind (keeps_serverText fun _ e => hrfl e) fun _ =>
    Start.Keeps.bind (keeps_serverText fun _ e => hrfl e) fun _ =>
    Start.Keeps.bind (keeps_serverMark fun _ e => hrfl e) fun _ =>
    Start.Keeps.bind (keeps_serverDebug child) fun _ =>
    Start.Keeps.bind (keeps_serverMark fun _ e => hrfl e) fun _ =>
    Start.Keeps.bind (keeps_serverThreads child) fun _ =>
    Start.Keeps.bind (keeps_serverNumber fun _ e => hrfl e) fun _ =>
    keeps_serverNumber fun _ e => hrfl e

/-- **A turn** reads the name, reads the rest, and sets up the queue. -/
theorem serverInfo_eq (root child : ConfNode) (count : ℕ) : serverInfo root child count =
    (serverName root child count >>= fun _ => serverRest child) >>= fun _ => serverQueue := by
  simp only [serverInfo, serverRest, Start.bind_assoc]

/-- An entry made of the child: its name, as far as the array takes it, and its library. -/
structure MadeOf (root child : ConfNode) (count : ℕ) (e : ServerEntry) (name str : CString) :
    Prop where
  val_eq : child.val = some name
  lib_eq : child.valueOf "analyzelib".toList = some str
  index_eq : e.index = count
  nameArray_eq : e.nameArray = name.take NEWIUP_NAME_LEN
  analyze_eq : e.analyze = libOf str
  once : ((root.head.flatMap ConfNode.head).map ConfNode.val).count (some name) < 2

/-- What a look-up reads is all that counts. -/
theorem MadeOf.keeps {root child : ConfNode} {count : ℕ} {s s' : Slot} {name str : CString}
    (h : MadeOf root child count s.entry name str) (hkept : s'.nameKey = s.nameKey) :
    MadeOf root child count s'.entry name str := by
  simp only [Slot.nameKey, Prod.mk.injEq] at hkept
  exact ⟨h.val_eq, h.lib_eq, hkept.1.trans h.index_eq, hkept.2.1.trans h.nameArray_eq,
    hkept.2.2.trans h.analyze_eq, h.once⟩

theorem serverName_done {root child : ConfNode} {count : ℕ} {s s' : Slot}
    (h : serverName root child count s = (.done (), s')) :
    ∃ name str, MadeOf root child count s'.entry name str := by
  unfold serverName setEntry at h
  rw [Start.modify_bind] at h
  obtain ⟨check, s₁, hcheck, h₁⟩ := Start.bind_done_iff.mp h
  obtain ⟨_, s₂, hguard, h₂⟩ := Start.bind_done_iff.mp h₁
  obtain ⟨rfl, rfl⟩ := Start.guard_done_iff.mp hguard
  obtain ⟨name, s₃, hname, h₃⟩ := Start.bind_done_iff.mp h₂
  obtain ⟨hval, rfl⟩ := Start.deref_done_iff.mp hname
  rw [Start.modify_bind] at h₃
  obtain ⟨found, s₄, hfound, h₄⟩ := Start.bind_done_iff.mp h₃
  obtain ⟨rfl, -, rfl⟩ := entryKey_done hfound
  obtain ⟨str, s₅, hstr, h₅⟩ := Start.bind_done_iff.mp h₄
  obtain ⟨hlib, rfl⟩ := Start.deref_done_iff.mp hstr
  obtain ⟨copy, s₆, hcopy, h₆⟩ := Start.bind_done_iff.mp h₅
  obtain ⟨-, rfl, rfl⟩ := strcpy_done_iff.mp hcopy
  obtain ⟨_, s₇, hcolon, h₇⟩ := Start.bind_done_iff.mp h₆
  obtain ⟨-, rfl⟩ := Start.guard_done_iff.mp hcolon
  obtain ⟨-, rfl⟩ := Prod.ext_iff.mp h₇
  rw [hval] at hcheck
  have hkept := keeps_nameCheckFrom (g := fun s : Slot => s.entry.index) _ _ _ _ _ _ hcheck
  have honce := nameCheckFrom_done (by norm_num) hcheck
  exact ⟨name, copy, hval, hlib, hkept, rfl, rfl, by simpa using honce⟩

theorem serverKeys_done {root child : ConfNode} {count : ℕ} {a : Unit} {s s' : Slot}
    (h : (serverName root child count >>= fun _ => serverRest child) s = (.done a, s')) :
    ∃ name str, MadeOf root child count s'.entry name str := by
  obtain ⟨_, s₁, hname, h⟩ := Start.bind_done_iff.mp h
  obtain ⟨name, str, hmade⟩ := serverName_done hname
  exact ⟨name, str, hmade.keeps (keeps_serverRest child s₁ a s' h)⟩

theorem serverInfo_done {root child : ConfNode} {count : ℕ} {s s' : Slot}
    (h : serverInfo root child count s = (.done (), s')) :
    ∃ name str, MadeOf root child count s'.entry name str := by
  rw [serverInfo_eq] at h
  obtain ⟨_, s₁, hkeys, h⟩ := Start.bind_done_iff.mp h
  obtain ⟨name, str, hmade⟩ := serverKeys_done hkeys
  exact ⟨name, str, hmade.keeps (keeps_serverQueue s₁ () s' h)⟩

/-! ### What the start leaves in the array -/

theorem atEntry_done {count : ℕ} {x : Start Slot Unit} {s s' : Servers}
    (h : atEntry count x s = (.done (), s')) :
    ∃ block entries entry slot, s.gServer = some (block, entries) ∧
      entries[count]? = some entry ∧ x ⟨s.heap, entry⟩ = (.done (), slot) ∧
      s'.gServer = some (block, entries.set count slot.entry) := by
  unfold atEntry at h
  split at h
  · cases h
  · next block entries hserver =>
    split at h
    · cases h
    · next entry hentry =>
      obtain ⟨hx, rfl⟩ := Prod.ext_iff.mp h
      exact ⟨block, entries, entry, _, hserver, hentry, Prod.ext hx rfl, rfl⟩

/-- **The loop fills one entry a child**, in order. -/
theorem getServerInfoFrom_done {root : ConfNode} {children : List ConfNode} {count block : ℕ}
    {entries : List ServerEntry} {s s' : Servers} (hs : s.gServer = some (block, entries))
    (h : getServerInfoFrom root children count s = (.done (), s')) :
    ∃ entries', s'.gServer = some (block, entries') ∧ entries'.length = entries.length ∧
      (∀ j < count, entries'[j]? = entries[j]?) ∧
      ∀ (j : ℕ) (child : ConfNode), children[j]? = some child → ∃ e name str,
        entries'[count + j]? = some e ∧ MadeOf root child (count + j) e name str := by
  induction children generalizing count entries s with
  | nil =>
    cases h
    exact ⟨entries, hs, rfl, fun _ _ => rfl, fun j child hj => by cases hj⟩
  | cons child rest ih =>
    obtain ⟨_, t, hhead, hrest⟩ := Start.bind_done_iff.mp h
    obtain ⟨block', entries₀, entry, slot, hs', hentry, hslot, ht⟩ := atEntry_done hhead
    obtain ⟨rfl, rfl⟩ := Prod.mk.inj (Option.some.inj (hs'.symm.trans hs))
    obtain ⟨entries', hserver, hlen, hbefore, hmade⟩ := ih ht hrest
    refine ⟨entries', hserver, by rw [hlen, List.length_set], fun j hj => ?_, fun j c hj => ?_⟩
    · rw [hbefore j (by omega), List.getElem?_set_ne (by omega)]
    · cases j with
      | zero =>
        cases hj
        obtain ⟨name, str, hm⟩ := serverInfo_done hslot
        have hlt : count < entries₀.length := (List.getElem?_eq_some_iff.mp hentry).1
        exact ⟨slot.entry, name, str,
          by rw [Nat.add_zero, hbefore count (by omega), List.getElem?_set_self hlt], hm⟩
      | succ j =>
        obtain ⟨e, name, str, he, hm⟩ := hmade j c hj
        rw [show count + (j + 1) = count + 1 + j by omega]
        exact ⟨e, name, str, he, hm⟩

/-- **A successful start** leaves one entry for each child of the section. -/
theorem serversInit_done {root : ConfNode} {s s' : Servers}
    (h : serversInit root s = (.done (), s')) :
    ∃ node block entries, confGetNode root "servers".toList = some node ∧
      s'.gServer = some (block, entries) ∧ entries.length = node.head.length ∧
      ∀ (i : ℕ) (child : ConfNode), node.head[i]? = some child → ∃ e name str,
        entries[i]? = some e ∧ MadeOf root child i e name str := by
  unfold serversInit at h
  obtain ⟨num, s₁, hnum, h₁⟩ := Start.bind_done_iff.mp h
  obtain ⟨node, s₂, hderef, hpure⟩ := Start.bind_done_iff.mp hnum
  obtain ⟨hnode, rfl⟩ := Start.deref_done_iff.mp hderef
  obtain ⟨hlen, rfl⟩ := Prod.ext_iff.mp hpure
  rw [Start.modify_bind] at h₁
  obtain ⟨_, s₃, hguard, h₂⟩ := Start.bind_done_iff.mp h₁
  obtain ⟨block, s₄, -, h₃⟩ := Start.bind_done_iff.mp h₂
  cases block with
  | none => simp at h₃
  | some block =>
    dsimp only at h₃
    rw [Start.modify_bind, Start.orElse_done_iff] at h₃
    obtain ⟨node', s₅, hderef', h₄⟩ := Start.bind_done_iff.mp h₃
    obtain ⟨hnode', rfl⟩ := Start.deref_done_iff.mp hderef'
    obtain rfl := Option.some.inj (hnode'.symm.trans hnode)
    obtain ⟨entries, hserver, hlen', -, hmade⟩ := getServerInfoFrom_done rfl h₄
    refine ⟨node', block, entries, hnode, hserver, ?_, fun i child hi => ?_⟩
    · rw [hlen', List.length_replicate, ← Ends.done.inj hlen]
    · obtain ⟨e, name, str, he, hm⟩ := hmade i child hi
      rw [Nat.zero_add] at he hm
      exact ⟨e, name, str, he, hm⟩

/-! ### The look-ups after a start -/

/-- A stored name is the configured one when it fits. -/
theorem MadeOf.name_eq_iff {root child : ConfNode} {count : ℕ} {e : ServerEntry}
    {name str : CString} (h : MadeOf root child count e name str) :
    e.name = name ↔ NameFits child := by
  unfold ServerEntry.name NameFits
  rw [h.nameArray_eq, h.analyze_eq, h.val_eq, h.lib_eq, List.length_take]
  by_cases hlen : name.length < NEWIUP_NAME_LEN
  · rw [if_pos (by omega), List.take_of_length_le (by omega)]
    simp [hlen]
  · rw [if_neg (by omega)]
    have hsplit : name.take NEWIUP_NAME_LEN ++ libOf str = name ↔
        name.drop NEWIUP_NAME_LEN = libOf str := by
      conv_lhs => rhs; rw [← List.take_append_drop NEWIUP_NAME_LEN name]
      rw [List.append_right_inj, eq_comm]
    rw [hsplit]
    simp [hlen]

/-- The first match is the entry itself, where the names are the configured ones and no
two of these are equal. -/
theorem find_own {servers : List RealServer} {i : ℕ} {rs : RealServer}
    (hi : servers[i]? = some rs) (hdup : (servers.map RealServer.name).Nodup) :
    getServerByName servers rs.name = some rs ∧ getServerIdByName servers rs.name = i := by
  obtain ⟨hlt, rfl⟩ := List.getElem?_eq_some_iff.mp hi
  have hfirst : ∀ j (hj : j < i), servers[j].name ≠ servers[i].name := by
    intro j hj heq
    have hsame : (servers.map RealServer.name)[j]? = (servers.map RealServer.name)[i]? := by
      rw [List.getElem?_map, List.getElem?_map, List.getElem?_eq_getElem (hj.trans hlt),
        List.getElem?_eq_getElem hlt, Option.map_some, Option.map_some, heq]
    have : j = i := (List.getElem?_inj (by rw [List.length_map]; omega) hdup).mp hsame
    omega
  refine ⟨List.find?_eq_some_iff_getElem.mpr ⟨by simp, i, hlt, rfl, fun j hj => ?_⟩, ?_⟩
  · simpa using hfirst j hj
  · have hidx : servers.findIdx? (fun rs => rs.name == servers[i].name) = some i :=
      List.findIdx?_eq_some_iff_getElem.mpr ⟨hlt, by simp, fun j hj => by simpa using hfirst j hj⟩
    rw [getServerIdByName, hidx]

/-- A look-up finds only names that are there. -/
theorem find_other {servers : List RealServer} {name : CString}
    (h : ∀ rs ∈ servers, rs.name ≠ name) :
    getServerByName servers name = none ∧ getServerIdByName servers name = NEWIUP_FAIL := by
  refine ⟨List.find?_eq_none.mpr fun rs hrs => by simpa using h rs hrs, ?_⟩
  have hidx : servers.findIdx? (fun rs => rs.name == name) = none :=
    List.findIdx?_eq_none_iff.mpr fun rs hrs => by simpa using h rs hrs
  rw [getServerIdByName, hidx]

/-- The configured names of a section whose entries pass the check are different. -/
theorem nodup_vals {root node : ConfNode} (hnode : node ∈ root.head)
    (h : ∀ child ∈ node.head, ∃ name : CString, child.val = some name ∧
      ((root.head.flatMap ConfNode.head).map ConfNode.val).count (some name) < 2) :
    (node.head.map ConfNode.val).Nodup := by
  have hsub : List.Sublist (node.head.map ConfNode.val)
      ((root.head.flatMap ConfNode.head).map ConfNode.val) :=
    (List.sublist_flatten_of_mem (List.mem_map_of_mem hnode)).map _
  refine List.nodup_iff_count_le_one.mpr fun val => ?_
  by_cases hmem : val ∈ node.head.map ConfNode.val
  · obtain ⟨child, hchild, rfl⟩ := List.mem_map.mp hmem
    obtain ⟨name, hval, hcount⟩ := h child hchild
    rw [hval]
    have := hsub.count_le (some name)
    omega
  · rw [List.count_eq_zero_of_not_mem hmem]
    exact Nat.zero_le 1

/-- **Server names resolve to their own entries** after a successful start exactly when
each configured name fits: it is shorter than 32 characters, or what is cut off is the
name of the library that stands behind it. -/
theorem names_resolve_iff (root : ConfNode) (s s' : Servers)
    (h : serversInit root s = (.done (), s')) :
    ∃ node, confGetNode root "servers".toList = some node ∧
      (NamesResolve node.head s'.realServers ↔ ∀ child ∈ node.head, NameFits child) := by
  obtain ⟨node, block, entries, hnode, hserver, hlen, hmade⟩ := serversInit_done h
  refine ⟨node, hnode, ?_⟩
  have hreal : s'.realServers = entries.map ServerEntry.toRealServer := by
    rw [Servers.realServers, hserver]
    rfl
  rw [hreal]
  have hget : ∀ (i : ℕ) (e : ServerEntry), entries[i]? = some e →
      (entries.map ServerEntry.toRealServer)[i]? = some e.toRealServer := fun i e he => by
    rw [List.getElem?_map, he, Option.map_some]
  constructor
  · intro hres child hchild
    obtain ⟨i, hi⟩ := List.mem_iff_getElem?.mp hchild
    obtain ⟨e, name, str, he, hm⟩ := hmade i child hi
    obtain ⟨name', rs, hval, hrs, -, hfind, -⟩ := hres.own i child hi
    obtain rfl := Option.some.inj (hval.symm.trans hm.val_eq)
    obtain rfl := Option.some.inj (hrs.symm.trans (hget i e he))
    have hname : e.toRealServer.name = name' := by simpa using List.find?_some hfind
    exact hm.name_eq_iff.mp hname
  · intro hfits
    -- the names that are stored are the configured ones
    have hnames : ((entries.map ServerEntry.toRealServer).map RealServer.name).map some =
        node.head.map ConfNode.val := by
      refine List.ext_getElem? fun i => ?_
      cases hi : node.head[i]? with
      | none =>
        have hnone : entries[i]? = none := by
          rw [List.getElem?_eq_none_iff] at hi ⊢
          omega
        simp [hi, hnone]
      | some child =>
        obtain ⟨e, name, str, he, hm⟩ := hmade i child hi
        have hname := hm.name_eq_iff.mpr (hfits child (List.mem_of_getElem? hi))
        simp [hi, he, ServerEntry.toRealServer, hname, hm.val_eq]
    have hdup : ((entries.map ServerEntry.toRealServer).map RealServer.name).Nodup := by
      refine List.Nodup.of_map some ?_
      rw [hnames]
      refine nodup_vals (mem_of_confGetNode (by decide) (by decide) hnode) fun child hchild => ?_
      obtain ⟨i, hi⟩ := List.mem_iff_getElem?.mp hchild
      obtain ⟨e, name, str, -, hm⟩ := hmade i child hi
      exact ⟨name, hm.val_eq, hm.once⟩
    refine ⟨fun i child hi => ?_, fun name hother => find_other fun rs hrs heq => ?_⟩
    · obtain ⟨e, name, str, he, hm⟩ := hmade i child hi
      have hname : e.toRealServer.name = name :=
        hm.name_eq_iff.mpr (hfits child (List.mem_of_getElem? hi))
      obtain ⟨hfind, hid⟩ := find_own (hget i e he) hdup
      rw [hname] at hfind hid
      exact ⟨name, e.toRealServer, hm.val_eq, hget i e he, hm.index_eq, hfind, hid⟩
    · have hmem : some name ∈ node.head.map ConfNode.val := by
        rw [← hnames, ← heq]
        exact List.mem_map_of_mem (List.mem_map_of_mem hrs)
      obtain ⟨child, hchild, hval⟩ := List.mem_map.mp hmem
      exact hother child hchild hval

/-! ### Two sections -/

/-- A server's entry in the configuration. -/
def serverNode (name lib : String) : ConfNode :=
  ⟨"server".toList, some name.toList, [.key "analyzelib" lib, .key "addr" "127.0.0.1",
    .key "username" "up", .key "passwd" "up", .key "finish-flag" "", .key "file-suffix" "",
    .key "thread-num" "1"]⟩

/-- The variables when the program starts. -/
def Servers.start : Servers := { heap := ⟨[], 0, []⟩, gServer := none, gServerNum := 0 }

/-- A section with two servers with short names. -/
def shortNames : ConfNode :=
  ⟨"servers".toList, none,
    [serverNode "srv-a" "libftp.so:upload", serverNode "srv-b" "libftp.so:upload"]⟩

/-- A section with a server whose name has 32 characters. -/
def longName : ConfNode :=
  ⟨"servers".toList, none, [serverNode "upload-server-of-the-east-region" "libftp.so:upload"]⟩

theorem names_resolve_iff_shortNames :
    ∃ node, confGetNode (treeOf shortNames) "servers".toList = some node ∧
      (NamesResolve node.head (serversInit (treeOf shortNames) .start).2.realServers ↔
        ∀ child ∈ node.head, NameFits child) :=
  names_resolve_iff (treeOf shortNames) .start (serversInit (treeOf shortNames) .start).2
    (Prod.ext (by decide +kernel) rfl)

/-- A name that fills its array is not found. -/
theorem long_name_lost :
    ¬∀ (root : ConfNode) (s s' : Servers), serversInit root s = (.done (), s') →
      ∃ node, confGetNode root "servers".toList = some node ∧
        NamesResolve node.head s'.realServers := by
  intro h
  obtain ⟨node, hnode, hres⟩ := h (treeOf longName) .start
    (serversInit (treeOf longName) .start).2 (Prod.ext (by decide +kernel) rfl)
  have hsection : confGetNode (treeOf longName) longName.name = some longName :=
    confGetNode_treeOf (by decide +kernel) (by decide +kernel)
  obtain rfl := Option.some.inj (hnode.symm.trans hsection)
  obtain ⟨name, rs, hval, -, -, hfind, -⟩ := hres.own 0 _ rfl
  obtain rfl := Option.some.inj hval
  have hnone : getServerByName (serversInit (treeOf longName) .start).2.realServers
      "upload-server-of-the-east-region".toList = none := by decide +kernel
  exact Option.some_ne_none rs (hfind.symm.trans hnone)

end Newiup
