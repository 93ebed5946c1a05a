import Newiup.Finish

/-!
# The state of the daemon

The scheduler of each monitor group and the upload threads of each server share
the queues, the nodes in them and the file system.  A thread is where its program
counter stands, together with the local variables that are still needed there; a
program counter stands before each access to what is shared.

An interleaving of the threads is thus a sequence of steps, in each of which one thread
has one access to what the others see.  A queue is a list with its size, and a push or a
pop is one step on it.  That this is no restriction, although the source works on linked
elements under a lock, is proved in `Daemon.Refinement`.

## Main definitions

* `FileQueue` — a node, by its address.
* `SchePc`, `UploadPc` — where `sche_handle` and `upload_handle` stand.
* `State` — the shared memory, the threads, the file system, and the history of the
  library calls.
-/

namespace Newiup

/-! ### Nodes and queues -/

/-- The address of a node. -/
abbrev Addr := ℕ

/-- An upload thread: its server and its number there. -/
abbrev ThreadId := ℕ × ℕ

/-- The queues: one for each monitor group, one for each server. -/
inductive QueueId
  | sche (g : ℕ)
  | srv (v : ℕ)
  deriving DecidableEq, Repr

/-- `FileQueue`, the part of it the threads use. -/
structure FileQueue where
  /-- `monitor_id`. -/
  monitorId : ℕ
  /-- `copy` is `NEWIUP_OK`. -/
  copy : Bool
  /-- `re_count_s`. -/
  reCountS : ℤ
  /-- The node whose `re_count_s` the pointer `retain_count` leads to. -/
  retainCount : Addr
  /-- `monitorfile`. -/
  monitorfile : Path
  /-- `src`. -/
  src : Path
  /-- `sg_name`. -/
  sgName : Option CString
  /-- `sche_queue`. -/
  scheQueue : QueueId
  deriving DecidableEq

/-- `queue_s`. -/
structure Queue where
  /-- The nodes, first to last. -/
  head : List Addr
  /-- `size`. -/
  size : ℤ
  deriving DecidableEq

/-! ### Program counters -/

/-- Where `do_upload_file_finish_all` stands. -/
inductive FinishStage
  /-- at `do_move_to` -/
  | act
  /-- at `delete_file(node->monitorfile)` -/
  | delMonitor
  /-- at `do_upload_file_limit` -/
  | limit
  /-- at the first `delete_file` of the marker -/
  | delMarker
  /-- at the test of the marker -/
  | testMarker
  /-- at the second `delete_file` of the marker -/
  | delMarkerAgain
  /-- at `queue_node_free` -/
  | free
  deriving DecidableEq, Repr

/-- Where the loop of `upload_real_server_sche_rr` stands for a server. -/
inductive ScanStage
  /-- at the test of `get_server_available_state` -/
  | avail
  /-- at its write of `cur_fst` -/
  | set
  /-- at the read of `queue->size` -/
  | size
  deriving DecidableEq, Repr

/-- The locals of `upload_real_server_sche_rr`. -/
structure Scan where
  /-- Whether the backup servers are scanned. -/
  back : Bool
  /-- `i`. -/
  k : ℕ
  /-- `queue_size_max`. -/
  queueSizeMax : ℤ
  /-- The server whose queue is `re_queue`. -/
  reQueue : Option ℕ
  /-- The position in the body. -/
  stage : ScanStage
  deriving DecidableEq

/-- The start of a scan. -/
def Scan.start (back : Bool) : Scan := ⟨back, 0, 10000000, none, .avail⟩

/-- The next server of a scan. -/
def Scan.advance (c : Scan) : Scan := { c with k := c.k + 1, stage := .avail }

/-- Where `sche_handle` stands; `a` is `node` and `i` the loop variable.  There is a place in
front of each access to what other threads see, and the variables are those that are still read
behind it.  What a thread computes for itself between two accesses belongs to the step of the
first one. -/
inductive SchePc
  /-- at the head of the loop -/
  | pop
  /-- at `queue_node_is_retain` -/
  | retain (a : Addr)
  /-- at the test of the source -/
  | source (a : Addr)
  /-- at the test of the marker -/
  | marker (a : Addr)
  /-- in `create_upload_state_file` -/
  | create (a : Addr) (i : ℕ)
  /-- in `do_upload_state_file_check`, over all server groups -/
  | check (a : Addr) (i : ℕ)
  /-- in `do_upload_file_finish_all` -/
  | finish (a : Addr) (f : FinishStage)
  /-- at `do_upload_state_file_check`, for one server group -/
  | dispatch (a : Addr) (i : ℕ)
  /-- in `upload_real_server_sche_rr` -/
  | choose (a : Addr) (i : ℕ) (c : Scan)
  /-- at `queue_node_copy`, for the queue of server `v` -/
  | copy (a : Addr) (i v : ℕ)
  /-- at the push of the copy `c` -/
  | push (a : Addr) (i v : ℕ) (c : Addr)
  /-- at the push of the node to its own queue -/
  | requeue (a : Addr)
  /-- at `queue_node_free` of a node without source -/
  | drop (a : Addr)
  | stopped
  deriving DecidableEq

/-- Where `upload_handle` stands; `c` is `node`. -/
inductive UploadPc
  /-- at the head of the loop -/
  | pop
  /-- at the test of `get_server_available_state` -/
  | avail (c : Addr)
  /-- at its write of `cur_fst` -/
  | availSet (c : Addr)
  /-- at the test of the source -/
  | checking (c : Addr)
  /-- at the library call -/
  | library (c : Addr)
  /-- at `delete_file(node->src)` -/
  | deleteSrc (c : Addr)
  /-- in `do_upload_file_finish_single` -/
  | deleteFlag (c : Addr)
  /-- at `cur_rc = 0` -/
  | resetRc (c : Addr)
  /-- at the read in `cur_rc++` -/
  | failed (c : Addr)
  /-- at the write in `cur_rc++`, `rc` being the value read -/
  | failedInc (c : Addr) (rc : ℤ)
  /-- at the push to the same queue -/
  | requeue (c : Addr)
  /-- at the write of `cur_fst` -/
  | setFst (c : Addr)
  /-- at the decrement in `queue_node_free` -/
  | release (c : Addr)
  /-- at the `free` in `queue_node_free` -/
  | free (c : Addr)
  | stopped
  deriving DecidableEq

/-- The variable `node` of `sche_handle`. -/
def SchePc.node : SchePc → Option Addr
  | .pop => none
  | .retain a => some a
  | .source a => some a
  | .marker a => some a
  | .create a _ => some a
  | .check a _ => some a
  | .finish a _ => some a
  | .dispatch a _ => some a
  | .choose a _ _ => some a
  | .copy a _ _ => some a
  | .push a _ _ _ => some a
  | .requeue a => some a
  | .drop a => some a
  | .stopped => none

/-- The variable `newnode` of `sche_handle`, until it is pushed. -/
def SchePc.newnode : SchePc → Option Addr
  | .push _ _ _ c => some c
  | _ => none

/-- The variable `node` of `upload_handle`, until its decrement. -/
def UploadPc.node : UploadPc → Option Addr
  | .pop => none
  | .avail c => some c
  | .availSet c => some c
  | .checking c => some c
  | .library c => some c
  | .deleteSrc c => some c
  | .deleteFlag c => some c
  | .resetRc c => some c
  | .failed c => some c
  | .failedInc c _ => some c
  | .requeue c => some c
  | .setFst c => some c
  | .release c => some c
  | .free _ => none
  | .stopped => none

/-- The variable `node` of `upload_handle`, after its decrement. -/
def UploadPc.released : UploadPc → Option Addr
  | .free c => some c
  | _ => none

/-! ### States -/

/-- A library call and what it returned. -/
structure Call where
  /-- The node it was made for. -/
  copy : Addr
  /-- The node that is a copy of. -/
  original : Addr
  /-- The server group the copy was dispatched for. -/
  group : ℕ
  /-- The monitor group. -/
  monitorId : ℕ
  /-- The monitor file. -/
  monitorfile : Path
  /-- The result. -/
  ret : ℤ
  deriving DecidableEq

/-- The state of the daemon and its surroundings.  It holds everything that a thread can read
or write, the files included, and two things that no thread reads: the group that a copy is
for, and the history of the library calls.  These are there to state what the daemon does. -/
structure State where
  /-- The file system. -/
  fs : Fs
  /-- The allocated nodes. -/
  heap : Addr → Option FileQueue
  /-- The next address; addresses are not used twice. -/
  next : Addr
  /-- The queues. -/
  queue : QueueId → Queue
  /-- The scheduler of each monitor group. -/
  sche : ℕ → SchePc
  /-- The upload threads. -/
  upload : ThreadId → UploadPc
  /-- `cur_rc` of each server. -/
  curRc : ℕ → ℤ
  /-- `cur_fst` of each server. -/
  curFst : ℕ → ℤ
  /-- `time(NULL)`. -/
  time : ℤ
  /-- `upload_count`. -/
  uploadCount : ℤ
  /-- `g_monitor_run_signal` is `NEWIUP_OK`. -/
  monitorRun : Bool
  /-- `g_upload_run_signal` is `NEWIUP_OK`. -/
  uploadRun : Bool
  /-- History: the server group a copy was dispatched for. -/
  grp : Addr → ℕ
  /-- History: the library calls, latest first. -/
  calls : List Call

/-- The memory of a process that has just been started, on a given disk. -/
def State.boot (fs : Fs) (time : ℤ) : State where
  fs := fs
  heap := fun _ => none
  next := 0
  queue := fun _ => ⟨[], 0⟩
  sche := fun _ => .pop
  upload := fun _ => .pop
  curRc := fun _ => 0
  curFst := fun _ => NEWIUP_FAIL
  time := time
  uploadCount := 0
  monitorRun := true
  uploadRun := true
  grp := fun _ => 0
  calls := []

namespace State

/-- The process is killed and started again: the memory is lost; the disk and the
history are not. -/
def restart (s : State) : State :=
  { boot s.fs s.time with next := s.next, grp := s.grp, calls := s.calls }

/-- Move the scheduler of group `g`. -/
def setSche (s : State) (g : ℕ) (pc : SchePc) : State :=
  { s with sche := Function.update s.sche g pc }

/-- Move an upload thread. -/
def setUpload (s : State) (t : ThreadId) (pc : UploadPc) : State :=
  { s with upload := Function.update s.upload t pc }

/-- Write a node. -/
def setNode (s : State) (a : Addr) (n : Option FileQueue) : State :=
  { s with heap := Function.update s.heap a n }

/-- Write `cur_rc` of a server. -/
def setCurRc (s : State) (v : ℕ) (x : ℤ) : State :=
  { s with curRc := Function.update s.curRc v x }

/-- Write `cur_fst` of a server. -/
def setCurFst (s : State) (v : ℕ) (x : ℤ) : State :=
  { s with curFst := Function.update s.curFst v x }

/-- Run a program on the file system. -/
def os {α : Type} (s : State) (sys : Sys) (x : Os α) : α × State :=
  ((x.run ⟨s.fs, sys⟩).1, { s with fs := (x.run ⟨s.fs, sys⟩).2.fs })

/-- The node whose strings and counter a node shares: a copy holds the pointers of
its original, an original its own. -/
def original (s : State) (a : Addr) : Option FileQueue :=
  (s.heap a).bind fun node => s.heap node.retainCount

/-! ### The operations on nodes and queues -/

/-- `queue_node_pop`. -/
def queueNodePop (s : State) (q : QueueId) : Option (Addr × State) :=
  match s.queue q with
  | ⟨[], _⟩ => none
  | ⟨a :: as, n⟩ => some (a, { s with queue := Function.update s.queue q ⟨as, n - 1⟩ })

/-- `queue_node_push`. -/
def queueNodePush (s : State) (q : QueueId) (a : Addr) : State :=
  let queue := ⟨(s.queue q).head ++ [a], (s.queue q).size + 1⟩
  { s with queue := Function.update s.queue q queue }

/-- An atomic addition to the counter at `a`. -/
def addRetain (s : State) (a : Addr) (x : ℤ) : Option State :=
  (s.heap a).map fun node => s.setNode a (some { node with reCountS := node.reCountS + x })

/-- `queue_node_add`, where its allocations succeed. -/
def queueNodeAdd (s : State) (g : ℕ) (monitorfile src : Path) : State :=
  let node : FileQueue := ⟨g, false, 0, s.next, monitorfile, src, none, .sche g⟩
  queueNodePush { s.setNode s.next (some node) with next := s.next + 1 } (.sche g) s.next

/-- `queue_node_copy`, where its allocation succeeds; `i` is the server group the
copy is for. -/
def queueNodeCopy (s : State) (a : Addr) (i : ℕ) : Option (Addr × State) := do
  let node ← s.heap a
  let s' := { s.setNode s.next (some { node with copy := true }) with
    next := s.next + 1, grp := Function.update s.grp s.next i }
  let s'' ← s'.addRetain node.retainCount 1
  return (s.next, s'')

/-- `queue_node_is_retain`. -/
def queueNodeIsRetain (s : State) (a : Addr) : Option ℤ :=
  (s.original a).map FileQueue.reCountS

/-- The decrement of `queue_node_free`, which only a copy makes. -/
def dropRetain (s : State) (node : FileQueue) : Option State :=
  if node.copy then s.addRetain node.retainCount (-1) else some s

/-- `queue_node_free`, as one step. -/
def queueNodeFree (s : State) (a : Addr) : Option State := do
  let node ← s.heap a
  let s' ← s.dropRetain node
  return s'.setNode a none

/-- The conversion of a `time_t` to an `int`. -/
def toInt (x : ℤ) : ℤ := x.bmod (2 ^ 32)

/-- The test of `get_server_available_state` fails. -/
def unavailable (s : State) (rs : RealServer) : Bool :=
  decide (s.curFst rs.index ≥ 0 ∧ s.time - s.curFst rs.index ≤ rs.failSleepTime)

/-! ### Field lemmas -/

section Fields

variable (s : State) (g : ℕ) (pc : SchePc) (t : ThreadId) (upc : UploadPc)

theorem upload_setUpload (t' : ThreadId) :
    (s.setUpload t upc).upload t' = if t' = t then upc else s.upload t' :=
  Function.update_apply ..

@[simp] theorem sche_setSche_self : (s.setSche g pc).sche g = pc := Function.update_self ..
@[simp] theorem sche_setSche_of_ne {g' : ℕ} (h : g' ≠ g) : (s.setSche g pc).sche g' = s.sche g' :=
  Function.update_of_ne h ..

theorem setSche_setSche (pc' : SchePc) :
    (s.setSche g pc).setSche g pc' = s.setSche g pc' := by
  unfold setSche
  dsimp only
  rw [Function.update_idem]

theorem setSche_eq_self {s : State} {g : ℕ} {pc : SchePc} (h : s.sche g = pc) :
    s.setSche g pc = s := by
  unfold setSche
  rw [← h, Function.update_eq_self]

@[simp] theorem fs_setSche : (s.setSche g pc).fs = s.fs := rfl
@[simp] theorem heap_setSche : (s.setSche g pc).heap = s.heap := rfl
@[simp] theorem upload_setSche : (s.setSche g pc).upload = s.upload := rfl
@[simp] theorem grp_setSche : (s.setSche g pc).grp = s.grp := rfl
@[simp] theorem calls_setSche : (s.setSche g pc).calls = s.calls := rfl

@[simp] theorem upload_setUpload_self : (s.setUpload t upc).upload t = upc :=
  Function.update_self ..
@[simp] theorem upload_setUpload_of_ne {t' : ThreadId} (h : t' ≠ t) :
    (s.setUpload t upc).upload t' = s.upload t' := Function.update_of_ne h ..
@[simp] theorem fs_setUpload : (s.setUpload t upc).fs = s.fs := rfl
@[simp] theorem heap_setUpload : (s.setUpload t upc).heap = s.heap := rfl
@[simp] theorem sche_setUpload : (s.setUpload t upc).sche = s.sche := rfl
@[simp] theorem grp_setUpload : (s.setUpload t upc).grp = s.grp := rfl
@[simp] theorem calls_setUpload : (s.setUpload t upc).calls = s.calls := rfl

end Fields

end State
end Newiup
