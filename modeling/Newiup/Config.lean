import Newiup.Utils

/-!
# Servers, server groups and monitor groups

The configuration as start-up leaves it: what `servers_init` and
`monitor_group_init` accept, with the conditions they check as fields.

Names and types lie in arrays of 32 and 16 bytes inside of the structures.  A `CString` for
one of them is the string that the code reads from the array when it uses it as one, up to
the first null byte, and not the text of the configuration file: `strncpy` cuts a longer
text and leaves no null byte, so that the string then goes on in the next field.

## Main definitions

* `RealServer`, `ServerGroupQueue`, `MonitorGroup`, `Config`.
* `isMonitorType`, `addFileSuffixProcess` — which files a group takes, and the
  source path it derives from one.
* `flagPath`, `getUploadFileKByMonitorfile` — the paths of the state files.
-/

namespace Newiup

/-- `enum type_process_s`, the values of `upload-find-act`. -/
inductive TypeProcess
  | keep
  | replace
  | add
  | cut
  deriving DecidableEq, Repr

/-- `enum end_process_e`, the values of `finish-act`. -/
inductive EndProcess
  | sameMove
  | keep
  | delete
  | sameMoveTime
  | diffMove
  | diffMoveTime
  deriving DecidableEq, Repr

/-- The fixed part of `real_server`; its queue and counters are state. -/
structure RealServer where
  /-- The position in `g_server`. -/
  index : ℕ
  /-- The string read from `name`. -/
  name : CString
  /-- `attempts`. -/
  retryCount : ℤ
  /-- `fsleep-time`. -/
  failSleepTime : ℤ
  /-- `thread-num`. -/
  threadNum : ℕ
  deriving DecidableEq

/-- `server_group_queue`: the servers of one destination.  A group without a
primary server is not accepted, and `-` in the backup list leaves a null entry. -/
structure ServerGroupQueue where
  /-- The primary servers. -/
  rsPrime : List RealServer
  /-- The backup servers. -/
  rsBack : List (Option RealServer)
  /-- There is a first primary server. -/
  prime_ne : rsPrime ≠ []

/-- `rs_prime[0]->name`, the name a server group goes by. -/
def ServerGroupQueue.primeName (sg : ServerGroupQueue) : CString :=
  (sg.rsPrime.head sg.prime_ne).name

/-- The servers of a destination. -/
def ServerGroupQueue.servers (sg : ServerGroupQueue) : List RealServer :=
  sg.rsPrime ++ sg.rsBack.filterMap id

/-- The part of `monitor_group` that does not change, with the checks of
`get_monitor_group_info`: the code that runs later has no case for what they exclude. -/
structure MonitorGroup where
  /-- The string read from `name`. -/
  name : CString
  /-- Whether its threads are started. -/
  enable : Bool
  /-- The string read from `monitor_file_type`. -/
  monitorFileType : CString
  /-- `upload-find-act`. -/
  monitorToUploadAct : TypeProcess
  /-- The string read from `upload_file_type`. -/
  uploadFileType : CString
  /-- `finish-act`. -/
  finishAct : EndProcess
  /-- `move-to`. -/
  moveTo : Path
  /-- The server groups. -/
  serverGroupList : List ServerGroupQueue
  /-- At least one server group is configured. -/
  sgl_ne : serverGroupList ≠ []
  /-- A move needs a place to move to. -/
  moveTo_ne : finishAct ≠ .delete → finishAct ≠ .keep → moveTo ≠ []
  /-- `finish-act` and `upload-find-act` are not both `keep`. -/
  not_keep_keep : ¬(finishAct = .keep ∧ monitorToUploadAct = .keep)

/-- The server groups are made of the given servers: `get_server_by_name` finds each. -/
def ServersFound (servers : List RealServer) (groups : List MonitorGroup) : Prop :=
  ∀ mg ∈ groups, ∀ sg ∈ mg.serverGroupList, ∀ rs ∈ sg.servers, servers[rs.index]? = some rs

instance (servers : List RealServer) (groups : List MonitorGroup) :
    Decidable (ServersFound servers groups) :=
  inferInstanceAs (Decidable (∀ mg ∈ groups, ∀ sg ∈ mg.serverGroupList, ∀ rs ∈ sg.servers,
    servers[rs.index]? = some rs))

/-- The configuration of the daemon. -/
structure Config where
  /-- `g_server`. -/
  servers : List RealServer
  /-- `g_monitorgroup`. -/
  groups : List MonitorGroup
  /-- A server that is not configured is not accepted. -/
  found : ServersFound servers groups
  /-- `max-upload`. -/
  maxUploadNum : ℤ
  /-- `strftime("%Y%m%d")` of a point in time. -/
  date : ℤ → CString

/-! ### Paths -/

/-- `is_monitor_type`: what follows the last dot is the type. -/
def isMonitorType (filename type : CString) : ℤ :=
  match rindex '.' filename with
  | none => NEWIUP_FAIL
  | some (_, suffix) => if suffix ≠ type then NEWIUP_FAIL else NEWIUP_OK

/-- `add_file_suffix_process`; `none` is the null dereference on a name without
a dot. -/
def addFileSuffixProcess (mg : MonitorGroup) (monitorfile : Path) : Option Path :=
  match mg.monitorToUploadAct with
  | .keep => some monitorfile
  | .add => some (monitorfile ++ '.' :: mg.uploadFileType)
  | .cut => (rindex '.' monitorfile).map fun p => p.1
  | .replace => (rindex '.' monitorfile).map fun p => p.1 ++ '.' :: mg.uploadFileType

/-- The flag file of a monitor file for one server group of a monitor group. -/
def flagPath (monitorfile moniName serverName : CString) : Path :=
  snprintf NEWIUP_PATH_LEN (monitorfile ++ '-' :: (moniName ++ '-' :: serverName))

/-- `get_upload_file_k_by_monitorfile`. -/
def getUploadFileKByMonitorfile (monitorfile : Path) : Path :=
  snprintf NEWIUP_PATH_LEN (monitorfile ++ "-upload-k".toList)

/-- An accepted monitor file has a source path. -/
theorem addFileSuffixProcess_isSome {mg : MonitorGroup} {m : Path}
    (h : isMonitorType m mg.monitorFileType = NEWIUP_OK) :
    (addFileSuffixProcess mg m).isSome = true := by
  unfold isMonitorType at h
  unfold addFileSuffixProcess
  cases hr : rindex '.' m with
  | none => rw [hr] at h; simp [NEWIUP_OK, NEWIUP_FAIL] at h
  | some p => cases mg.monitorToUploadAct <;> rfl

end Newiup
