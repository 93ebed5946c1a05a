import Newiup.SpinQueue
import Newiup.Daemon.Step

/-!
# The daemon as a client of its queues

The threads call the queues and go on when the calls return; a monitor thread allocates its
node before it calls.  What a thread does in between is a step of the daemon.  With the
queues at their links this is the daemon as it runs; with lists it is the daemon with calls.

A thread that has called stands where it called from until the call returns, so that the
two systems differ in their queues only.  What is proved of the queues by themselves
therefore carries over: a simulation between them is one between the daemons, in which the
client makes the same steps.

## Main definitions

* `Thread` — the threads that use queues.
* `Client`, `client` — the daemon without its queues.
* `spinDaemon`, `listDaemon` — with the queues under spin locks, and with lists.

## Main results

* `spinDaemon_simulated` — **the queues may be taken for lists.**
-/

namespace Newiup

open Newiup.System

/-- The threads that use queues. -/
inductive Thread
  /-- the monitor thread of a group -/
  | monitor (g : ℕ)
  /-- the scheduler of a group -/
  | sche (g : ℕ)
  | upload (t : ThreadId)
  deriving DecidableEq

/-- The daemon without its queues.  A thread that waits is in the midst of a call and does
nothing else.  What the queues hold is known to the other system, and the client learns of it
by what its calls return. -/
structure Client where
  /-- Everything else; the queues in it are not used. -/
  rest : State
  /-- The threads that are in a call of a queue. -/
  waiting : Thread → Bool
  /-- `node` in `queue_node_add`, for each monitor thread. -/
  added : ℕ → Option Addr

/-- What happens. -/
inductive ClientAct
  | produce (p : Path) (b : Bytes)
  | unproduce (p : Path)
  | tick (n : ℕ)
  | signal
  /-- a thread does what involves no queue, and neither allocates nor frees a node -/
  | move (t : Thread) (ret : ℤ) (sys : Sys)
  /-- a thread calls a queue -/
  | call (t : Thread) (c : QueueCall QueueId Addr)
  /-- a call returns -/
  | ret (t : Thread) (r : Option Addr)
  /-- a scheduler reads the size of a queue -/
  | size (g : ℕ) (q : QueueId) (n : ℤ)
  /-- a monitor thread allocates the node for a file -/
  | add (g : ℕ) (a : Addr) (m : Path)
  /-- a scheduler allocates a copy -/
  | copy (g : ℕ) (a : Addr)
  /-- a thread frees a node -/
  | free (t : Thread) (a : Addr)

/-- What the queues see of it. -/
def ClientAct.label : ClientAct → Option (QueueLabel Thread QueueId Addr)
  | .call t c => some (.call t c)
  | .ret t r => some (.ret t r)
  | .size g q n => some (.size (.sche g) q n)
  | .add g a _ => some (.alloc (.monitor g) a)
  | .copy g a => some (.alloc (.sche g) a)
  | .free t a => some (.free t a)
  | _ => none

/-! ### The program counters -/

namespace SchePc

/-- The scheduler does not use a queue, and neither allocates nor frees a node. -/
def alone (run : Bool) (sys : Sys) : SchePc → Bool
  | .pop => !run
  | .choose _ _ c => decide (c.stage ≠ .size)
  | .copy _ _ _ => decide (sys.head? = some none)
  | .push _ _ _ _ => false
  | .requeue _ => false
  | .drop _ => false
  | .finish _ .free => false
  | _ => true

/-- The call of a scheduler. -/
def call (g : ℕ) (run : Bool) (heap : Addr → Option FileQueue) :
    SchePc → Option (QueueCall QueueId Addr)
  | .pop => if run then some (.pop (.sche g)) else none
  | .push _ _ v c => some (.push (.srv v) c)
  | .requeue a => (heap a).map fun node => .push node.scheQueue a
  | _ => none

/-- Where a scheduler goes on when its call has returned. -/
def resume : SchePc → Option Addr → SchePc
  | .pop, some a => .retain a
  | .push a i _ _, _ => .dispatch a (i + 1)
  | .requeue _, _ => .pop
  | pc, _ => pc

/-- The scheduler has read the size of a queue. -/
def sized (mg : MonitorGroup) (q : QueueId) (n : ℤ) : SchePc → Option SchePc
  | .choose a i c =>
    (mg.serverGroupList[i]?).bind fun sg =>
      let rserver := if c.back then sg.rsBack else sg.rsPrime.map some
      match c.stage, rserver[c.k]? with
      | .size, some (some rs) =>
          if q = .srv rs.index then
            let c' := if c.queueSizeMax > n then
              { c with queueSizeMax := n, reQueue := some rs.index } else c
            some (.choose a i c'.advance)
          else none
      | _, _ => none
  | _ => none

/-- The node that a scheduler is about to free. -/
def freeing : SchePc → Option Addr
  | .drop a => some a
  | .finish a .free => some a
  | _ => none

end SchePc

namespace UploadPc

/-- The thread does not use a queue, and does not free a node. -/
def alone (run : Bool) : UploadPc → Bool
  | .pop => !run
  | .requeue _ => false
  | .free _ => false
  | _ => true

/-- The call of an upload thread. -/
def call (v : ℕ) (run : Bool) : UploadPc → Option (QueueCall QueueId Addr)
  | .pop => if run then some (.pop (.srv v)) else none
  | .requeue c => some (.push (.srv v) c)
  | _ => none

/-- Where an upload thread goes on when its call has returned. -/
def resume : UploadPc → Option Addr → UploadPc
  | .pop, some c => .avail c
  | .requeue _, _ => .pop
  | pc, _ => pc

end UploadPc

/-! ### The client -/

namespace Client

/-- The rest of the daemon is written. -/
def put (k : Client) (s : State) : Client := { k with rest := s }

/-- The call that a thread makes next. -/
def callOf (cfg : Config) (k : Client) : Thread → Option (QueueCall QueueId Addr)
  | .monitor g => (k.added g).map fun a => .push (.sche g) a
  | .sche g => do
      let mg ← cfg.groups[g]?
      if mg.enable then (k.rest.sche g).call g k.rest.monitorRun k.rest.heap else none
  | .upload t => do
      let rs ← cfg.servers[t.1]?
      if t.2 < rs.threadNum then (k.rest.upload t).call t.1 k.rest.uploadRun else none

/-- The call of a thread returns. -/
def resume (k : Client) (r : Option Addr) : Thread → Client
  | .monitor g => { k with added := Function.update k.added g none }
  | .sche g => k.put (k.rest.setSche g ((k.rest.sche g).resume r))
  | .upload t => k.put (k.rest.setUpload t ((k.rest.upload t).resume r))

/-- A step of the client. -/
def step (cfg : Config) (k : Client) : ClientAct → Option Client
  | .produce p b => (Newiup.step cfg k.rest (.produce p b)).map k.put
  | .unproduce p => (Newiup.step cfg k.rest (.unproduce p)).map k.put
  | .tick n => (Newiup.step cfg k.rest (.tick n)).map k.put
  | .signal => (Newiup.step cfg k.rest .signal).map k.put
  | .move (.monitor _) _ _ => none
  | .move (.sche g) _ sys =>
      if k.waiting (.sche g) = false ∧ (k.rest.sche g).alone k.rest.monitorRun sys = true then
        (Newiup.step cfg k.rest (.sche g sys)).map k.put
      else none
  | .move (.upload t) ret sys =>
      if k.waiting (.upload t) = false ∧ (k.rest.upload t).alone k.rest.uploadRun = true then
        (Newiup.step cfg k.rest (.upload t ret sys)).map k.put
      else none
  | .call t c =>
      if k.waiting t = false ∧ k.callOf cfg t = some c then
        some { k with waiting := Function.update k.waiting t true }
      else none
  | .ret t r =>
      if k.waiting t = true then
        some { k.resume r t with waiting := Function.update k.waiting t false }
      else none
  | .size g q n => do
      let mg ← cfg.groups[g]?
      if mg.enable = true ∧ k.waiting (.sche g) = false then
        ((k.rest.sche g).sized mg q n).map fun pc => k.put (k.rest.setSche g pc)
      else none
  | .add g a m => do
      let mg ← cfg.groups[g]?
      let src ← addFileSuffixProcess mg m
      if mg.enable = true ∧ isMonitorType m mg.monitorFileType = NEWIUP_OK ∧
          k.waiting (.monitor g) = false ∧ k.added g = none ∧ a = k.rest.next then
        let node : FileQueue := ⟨g, false, 0, a, m, src, none, .sche g⟩
        some { k with
          rest := { k.rest.setNode a (some node) with next := k.rest.next + 1 }
          added := Function.update k.added g (some a) }
      else none
  | .copy g a =>
      if k.waiting (.sche g) = false ∧ a = k.rest.next then
        match k.rest.sche g with
        | .copy _ _ _ => (Newiup.step cfg k.rest (.sche g [])).map k.put
        | _ => none
      else none
  | .free (.monitor _) _ => none
  | .free (.sche g) a =>
      if k.waiting (.sche g) = false ∧ (k.rest.sche g).freeing = some a then
        (Newiup.step cfg k.rest (.sche g [])).map k.put
      else none
  | .free (.upload t) a =>
      if k.waiting (.upload t) = false ∧ k.rest.upload t = .free a then
        (Newiup.step cfg k.rest (.upload t 0 [])).map k.put
      else none

end Client

/-- The client, from its first start on a disk. -/
def client (cfg : Config) (disk : Fs) : System Client ClientAct where
  init k := ∃ time, k = ⟨.boot disk time, fun _ => false, fun _ => none⟩
  step := Client.step cfg

/-- **The daemon with its queues under spin locks.**  Every statement of a call is a step of
its own, between which any other thread may run; the client and the queues meet where a call
begins and where it returns. -/
def spinDaemon (cfg : Config) (disk : Fs) :
    System (Client × SpinState Thread QueueId Addr)
      (SyncAct ClientAct (SpinAct Thread QueueId Addr)) :=
  (client cfg disk).sync (spinQueues Thread QueueId Addr) ClientAct.label SpinAct.label

/-- The daemon with lists as queues, on which the calls take effect at once. -/
def listDaemon (cfg : Config) (disk : Fs) :
    System (Client × AtomicState Thread QueueId Addr)
      (SyncAct ClientAct (AtomicAct Thread QueueId Addr)) :=
  (client cfg disk).sync (atomicQueues Thread QueueId Addr) ClientAct.label AtomicAct.label

/-- **The queues may be taken for lists.** -/
theorem spinDaemon_simulated (cfg : Config) (disk : Fs) :
    (spinDaemon cfg disk).Simulates (listDaemon cfg disk) (SyncAct.label ClientAct.label)
      (SyncAct.label ClientAct.label) fun x y => x.1 = y.1 ∧ Related x.2 y.2 :=
  spinQueues_simulated.sync

end Newiup
