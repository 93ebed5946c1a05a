import Newiup.Servers

/-!
# How the monitor groups are set up

`monitor_group_init` allocates one entry of `g_monitorgroup` for each child of the section
`monitor-group`, fills the entries from the children's keys and shows what it filled.  The
lists of servers are allocated on the way, with a check after every allocation but one.

The order of the checks is kept as it is, since it decides what has been allocated when
one of them fails.  Which allocations succeed is a parameter, with an answer for each
place in the source and each turn of its loops; an access outside of an array is
undefined, whatever is found there.

## Main definitions

* `ListMallocs` — which of the allocations for the lists of a group succeed.
* `groupServerLists` — `get_upload_group_server_group_list` with these allocations.
* `GroupEntry` — an entry of `g_monitorgroup`, as `get_monitor_group_info` fills it.
* `monitorGroupInit`, `monitorGroupExit` — the functions.
-/

namespace Newiup

/-! ### The lists of servers -/

/-- Which of the allocations succeed that `get_upload_group_server_group_list` makes, by
the place and the turn.  A split has two allocations and fails where one of them does. -/
structure ListMallocs where
  /-- `split_primer_g`. -/
  splitPrimerG : Bool
  /-- `split_back_g`. -/
  splitBackG : Bool
  /-- `head`. -/
  head : Bool
  /-- `split_primer`. -/
  splitPrimer : ℕ → Bool
  /-- `head[i].rs_prime`. -/
  rsPrime : ℕ → Bool
  /-- `split_back`. -/
  splitBack : ℕ → Bool
  /-- `head[i].rs_back`. -/
  rsBack : ℕ → Bool

/-- `str_split_func` where `strdup` and `malloc` succeed, and where one of them fails. -/
def strSplitAlloc (answer : Bool) (src : Option CString) (delimiter : Char) : StrSplit :=
  if answer then strSplitFunc src delimiter else ⟨0, []⟩

theorem strSplitAlloc_true (src : Option CString) (delimiter : Char) :
    strSplitAlloc true src delimiter = strSplitFunc src delimiter := rfl

theorem strSplitAlloc_false (src : Option CString) (delimiter : Char) :
    strSplitAlloc false src delimiter = ⟨0, []⟩ := rfl

/-- The backup servers in a turn of the loop over the groups.  The array `rs_back` is used
also where it is a null pointer. -/
def groupBack (m : ListMallocs) (servers : List RealServer) (splitBackG splitPrimer : StrSplit)
    (rsPrime : List (Option RealServer)) (i : ℕ) : Checked SgEntry :=
  if splitBackG.count = 0 then
    Checked.done ⟨splitPrimer.count, rsPrime, 0, []⟩
  else do
    let group ← Checked.read splitBackG.strArray i
    let splitBack := strSplitAlloc (m.splitBack i) (some group) ','
    if splitBack.count = 0 then
      Checked.done ⟨splitPrimer.count, rsPrime, 0, []⟩
    else
      let rsBack ← Checked.loop (backTurn servers splitBackG splitBack splitPrimer)
        (if m.rsBack i then List.replicate splitPrimer.count none else []) splitPrimer.count
      Checked.done ⟨splitPrimer.count, rsPrime, splitBack.count, rsBack⟩

/-- A turn of the loop over the groups. -/
def groupServersTurn (m : ListMallocs) (servers : List RealServer)
    (splitPrimerG splitBackG : StrSplit) (i : ℕ) (head : List SgEntry) :
    Checked (List SgEntry) := do
  let group ← Checked.read splitPrimerG.strArray i
  let splitPrimer := strSplitAlloc (m.splitPrimer i) (some group) ','
  if splitPrimer.count = 0 then
    Checked.failed
  else if m.rsPrime i = false then
    Checked.failed
  else
    let rsPrime ← Checked.loop (primeTurn servers splitPrimer)
      (List.replicate splitPrimer.count none) splitPrimer.count
    let entry ← groupBack m servers splitBackG (strSplitFree splitPrimer) rsPrime i
    Checked.done (head ++ [entry])

/-- `get_upload_group_server_group_list`. -/
def groupServerLists (m : ListMallocs) (servers : List RealServer) (primer back : Option CString) :
    Checked (List SgEntry × ℕ) :=
  match primer with
  | none => Checked.failed
  | some [] => Checked.failed
  | some (c :: s) => do
      let splitPrimerG := strSplitAlloc m.splitPrimerG (some (c :: s)) '|'
      let splitBackG := strSplitAlloc m.splitBackG back '|'
      if splitBackG.count ≠ 0 ∧ splitPrimerG.count ≠ splitBackG.count then
        Checked.failed
      else if m.head = false then
        Checked.failed
      else
        let head ← Checked.loop (groupServersTurn m servers splitPrimerG splitBackG) []
          splitPrimerG.count
        Checked.done (head, splitPrimerG.count)

/-- The first `count` entries of an array are read. -/
def readAll {α : Type} (xs : List α) (count : ℕ) : Checked Unit :=
  Checked.loop (fun i _ => do
    let _ ← Checked.read xs i
    Checked.done ()) () count

/-- `show_upload_server_list`, as far as it reads arrays. -/
def showUploadServerList (count : ℕ) (serverGroupList : List SgEntry) : Checked Unit :=
  Checked.loop (fun j _ => do
    let sg ← Checked.read serverGroupList j
    let _ ← readAll sg.rsPrime sg.rsCountPrime
    readAll sg.rsBack sg.rsCountBack) () count

/-- An error is returned, and an access outside an array is undefined. -/
def Start.ofChecked {σ α : Type} : Checked α → Start σ α
  | .done a => pure a
  | .failed => Start.fail
  | .outside => Start.crash

/-! ### The entries -/

/-- `get_type_process`, which compares the first characters. -/
def getTypeProcess : Option CString → Option TypeProcess
  | none => none
  | some str =>
    if "keep".toList.isPrefixOf str then some .keep
    else if "replace".toList.isPrefixOf str then some .replace
    else if "add".toList.isPrefixOf str then some .add
    else if "cut".toList.isPrefixOf str then some .cut
    else none

/-- `get_end_process_id`. -/
def getEndProcessId : Option CString → Option EndProcess
  | none => none
  | some str =>
    if str = "same-move".toList then some .sameMove
    else if str = "keep".toList then some .keep
    else if str = "delete".toList then some .delete
    else if str = "same-move-time".toList then some .sameMoveTime
    else if str = "diff-move".toList then some .diffMove
    else if str = "diff-move-time".toList then some .diffMoveTime
    else none

/-- `monitor_group`, as `get_monitor_group_info` fills it.  The queues are empty, and the
logs have no file. -/
structure GroupEntry where
  /-- `index`. -/
  index : ℕ
  /-- `enable`. -/
  enable : ℤ
  /-- The array `name`: `strncpy` leaves no end after 32 characters. -/
  nameArray : CString
  /-- The array `monitor_dir`, which follows. -/
  monitorDir : CString
  /-- The array `monitor_file_type`. -/
  monitorFileType : CString
  /-- `monitor_to_upload_act`. -/
  monitorToUploadAct : Option TypeProcess
  /-- The array `upload_file_type`. -/
  uploadFileType : CString
  /-- `finish_act`. -/
  finishAct : Option EndProcess
  /-- `move_to`. -/
  moveTo : CString
  /-- `queue.name`. -/
  queueName : CString
  /-- `sgl_count`. -/
  sglCount : ℕ
  /-- `server_group_list`. -/
  serverGroupList : List SgEntry
  /-- `upload_log.path`. -/
  uploadLog : CString
  /-- `upload_txt.path`. -/
  uploadTxt : CString

/-- An entry after `memset`. -/
def GroupEntry.zero : GroupEntry :=
  { index := 0, enable := 0, nameArray := [], monitorDir := [], monitorFileType := [],
    monitorToUploadAct := none, uploadFileType := [], finishAct := none, moveTo := [],
    queueName := [], sglCount := 0, serverGroupList := [], uploadLog := [], uploadTxt := [] }

/-- An assignment to fields of the entry. -/
def setGroup (f : GroupEntry → GroupEntry) : Start GroupEntry Unit := Start.modify f

/-- `enable`, which may be missing. -/
def groupEnable (child : ConfNode) : Start GroupEntry Unit := do
  let found ← confGetChildValue (some child) "enable".toList none
  if found.1 = 0 then
    setGroup fun e => { e with enable := NEWIUP_OK }
  else do
    let str ← Start.deref found.2
    if str = "yes".toList ∨ str = "y".toList then
      setGroup fun e => { e with enable := NEWIUP_OK }
    else if str = "no".toList ∨ str = "n".toList then
      setGroup fun e => { e with enable := NEWIUP_FAIL }
    else
      Start.fail

/-- The key `key`, copied with a bound. -/
def groupText (child : ConfNode) (key : CString) (size : ℕ)
    (set : CString → GroupEntry → GroupEntry) : Start GroupEntry CString := do
  let str ← entryKey child key
  let str ← Start.deref str
  setGroup (set (strncpy size str))
  pure (strncpy size str)

/-- A key that names what to do. -/
def groupAct {α : Type} (child : ConfNode) (key : CString) (act : Option CString → Option α)
    (set : Option α → GroupEntry → GroupEntry) : Start GroupEntry α := do
  let str ← entryKey child key
  setGroup (set (act str))
  match act str with
  | none => Start.fail
  | some a => pure a

/-- A file that is moved needs a place. -/
def groupPlace (finish : EndProcess) (str : Option CString) : Start GroupEntry Unit :=
  if finish ≠ .delete ∧ finish ≠ .keep then do
    let str ← Start.deref str
    Start.guard (str ≠ [])
  else pure ()

/-- `move-to`; a file that is kept must have another name. -/
def groupMoveTo (child : ConfNode) (act : TypeProcess) (finish : EndProcess) :
    Start GroupEntry Unit := do
  let str ← entryKey child "move-to".toList
  groupPlace finish str
  Start.guard ¬(finish = .keep ∧ act = .keep)
  let str ← Start.deref str
  let copy ← strcpy NEWIUP_PATH_LEN str
  setGroup fun e => { e with moveTo := copy }

/-- The keys of a group up to its servers; the name and the directory are returned as the
arrays hold them. -/
def groupKeys (root child : ConfNode) (count : ℕ) : Start GroupEntry (CString × CString) := do
  setGroup fun e => { e with index := count }
  let check ← confNodeNameCheck root child.val
  Start.guard (check = 0)
  let name ← Start.deref child.val
  setGroup fun e => { e with nameArray := strncpy NEWIUP_NAME_LEN name }
  groupEnable child
  let dir ← groupText child "monitor-dir".toList NEWIUP_PATH_LEN
    fun v e => { e with monitorDir := v }
  let _ ← groupText child "monitor-file-type".toList 16 fun v e => { e with monitorFileType := v }
  let act ← groupAct child "upload-find-act".toList getTypeProcess
    fun a e => { e with monitorToUploadAct := a }
  let _ ← groupText child "upload-file-type".toList 16 fun v e => { e with uploadFileType := v }
  let finish ← groupAct child "finish-act".toList getEndProcessId
    fun a e => { e with finishAct := a }
  groupMoveTo child act finish
  pure (strncpy NEWIUP_NAME_LEN name, dir)

/-- The servers of a group. -/
def groupServers (m : ListMallocs) (servers : List RealServer) (child : ConfNode) :
    Start GroupEntry Unit := do
  let str ← entryKey child "servers-primer".toList
  let str2 ← entryKey child "servers-backup".toList
  let list ← Start.ofChecked (groupServerLists m servers str str2)
  setGroup fun e => { e with serverGroupList := list.1, sglCount := list.2 }
  Start.guard (list.2 ≠ 0)

/-- What `strcpy` reads as the name: an array without an end goes on into the next. -/
def groupName (name dir : CString) : CString :=
  if name.length < NEWIUP_NAME_LEN then name else name ++ dir

/-- The queue of a group; a name that is longer than its array and the lock goes over the
head of the queue and what follows. -/
def groupQueue (name dir : CString) : Start GroupEntry Unit :=
  if (groupName name dir).length ≤ NEWIUP_NAME_LEN + 4 then
    setGroup fun e => { e with queueName := groupName name dir }
  else Start.crash

/-- `log_init` on one of the logs of a group. -/
def groupLog (logpath : CString) (set : CString → GroupEntry → GroupEntry) :
    Start GroupEntry Unit :=
  if NEWIUP_PATH_LEN ≤ logpath.length then Start.exit 2 else setGroup (set logpath)

/-- A turn of the loop of `get_monitor_group_info`. -/
def groupInfo (m : ListMallocs) (servers : List RealServer) (logpath : CString)
    (root child : ConfNode) (count : ℕ) : Start GroupEntry Unit := do
  let arrays ← groupKeys root child count
  groupServers m servers child
  groupQueue arrays.1 arrays.2
  groupLog logpath fun v e => { e with uploadLog := v }
  groupLog logpath fun v e => { e with uploadTxt := v }

/-- What the log says of a group. -/
def groupShow : Start GroupEntry Unit := do
  let e ← Start.get
  Start.ofChecked (showUploadServerList e.sglCount e.serverGroupList)

/-! ### All groups -/

/-- The variables of `monitor.c`, with the heap. -/
structure Monitors where
  /-- The heap. -/
  heap : Heap
  /-- `g_monitorgroup`: its block and its entries. -/
  gMonitorgroup : Option (ℕ × List GroupEntry)
  /-- `g_monitorgroup_num`. -/
  gMonitorgroupNum : ℕ

/-- A computation on `g_monitorgroup[count]`; a null `g_monitorgroup` and an index behind
its end are undefined. -/
def atGroup (count : ℕ) (x : Start GroupEntry Unit) : Start Monitors Unit := fun s =>
  match s.gMonitorgroup with
  | none => (.crash, s)
  | some (block, entries) =>
    match entries[count]? with
    | none => (.crash, s)
    | some entry =>
      ((x entry).1, { s with gMonitorgroup := some (block, entries.set count (x entry).2) })

/-- The loop of `get_monitor_group_info`, from a child on. -/
def getMonitorGroupInfoFrom (m : ℕ → ListMallocs) (servers : List RealServer) (logpath : CString)
    (root : ConfNode) : List ConfNode → ℕ → Start Monitors Unit
  | [], _ => pure ()
  | child :: rest, count => do
    atGroup count (groupInfo (m count) servers logpath root child count)
    getMonitorGroupInfoFrom m servers logpath root rest (count + 1)

/-- The loop that shows `n` groups from `i` on. -/
def showGroupsFrom (i : ℕ) : ℕ → Start Monitors Unit
  | 0 => pure ()
  | n + 1 => do
    atGroup i groupShow
    showGroupsFrom (i + 1) n

/-- `get_monitor_group_info`. -/
def getMonitorGroupInfo (m : ℕ → ListMallocs) (servers : List RealServer) (logpath : CString)
    (root : ConfNode) : Start Monitors Unit := do
  let node ← Start.deref (confGetNode root "monitor-group".toList)
  getMonitorGroupInfoFrom m servers logpath root node.head 0
  let s ← Start.get
  showGroupsFrom 0 s.gMonitorgroupNum

/-- The loop of `monitor_group_exit`, over `n` entries from `i` on: their queues are empty
and their logs have no file. -/
def monitorGroupExitFrom (i : ℕ) : ℕ → Start Monitors Unit
  | 0 => pure ()
  | n + 1 => do
    atGroup i (pure ())
    monitorGroupExitFrom (i + 1) n

/-- `monitor_group_exit`. -/
def Monitors.monitorGroupExit : Start Monitors Unit := do
  let s ← Start.get
  match s.gMonitorgroup with
  | none => pure ()
  | some array => do
    monitorGroupExitFrom 0 s.gMonitorgroupNum
    Start.zoom Monitors.heap (fun heap s => { s with heap }) (free array.1)
    Start.modify fun s => { s with gMonitorgroup := none, gMonitorgroupNum := 0 }

/-- `monitor_group_init`. -/
def monitorGroupInit (m : ℕ → ListMallocs) (servers : List RealServer) (logpath : CString)
    (root : ConfNode) : Start Monitors Unit := do
  let num ← confGetChildNumber root "monitor-group".toList
  Start.modify fun s => { s with gMonitorgroupNum := num }
  Start.guard (0 < num)
  let block ← Start.zoom Monitors.heap (fun heap s => { s with heap }) malloc
  match block with
  | none => do
    Start.modify fun s => { s with gMonitorgroup := none }
    Start.fail
  | some block => do
    Start.modify fun s => { s with gMonitorgroup := some (block, List.replicate num .zero) }
    Start.orElse (getMonitorGroupInfo m servers logpath root) Monitors.monitorGroupExit

end Newiup
