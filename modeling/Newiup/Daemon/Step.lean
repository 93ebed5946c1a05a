import Newiup.System
import Newiup.Daemon.State

/-!
# The steps of the daemon

One step of a thread is one access to what the threads share: a queue, a counter, a
node, or the file system; the finish action on the source is one step as well.  The
monitor thread is there through the nodes it adds, at any time and for any file of
its type; the library a server is configured with may return anything; and other
processes make, write and remove files.

## Main definitions

* `scheStep`, `uploadStep` — the threads `sche_handle` and `upload_handle`.
* `daemon` — the transition system of a configuration.
* `Step` — what a step can do, as a relation.

## Main results

* `step_cases` — **every step is one of `Step`.**
-/

namespace Newiup

/-- Who moves, and how the surroundings answer. -/
inductive Act
  /-- another process makes the file at a path, or writes it anew -/
  | produce (p : Path) (b : Bytes)
  /-- another process removes the file at a path -/
  | unproduce (p : Path)
  /-- the monitor thread of a group adds a node for a file -/
  | monitor (g : ℕ) (m : Path)
  /-- the scheduler of a group -/
  | sche (g : ℕ) (sys : Sys)
  /-- an upload thread; a library call returns `ret` -/
  | upload (t : ThreadId) (ret : ℤ) (sys : Sys)
  /-- time passes -/
  | tick (n : ℕ)
  /-- a signal ends the loops -/
  | signal
  /-- the process is killed and started again -/
  | kill

/-- Another process writes a file. -/
def Fs.put (fs : Fs) (p : Path) (b : Bytes) : Fs :=
  match fs.entry (resolve p) with
  | none => fs.make (resolve p) ⟨S_IFREG ||| 0o644, b⟩
  | some i => fs.setData i b

/-! ### The scheduler -/

/-- One step of `upload_real_server_sche_rr`, called in turn for the primary and for
the backup servers of a server group. -/
def scanStep (sg : ServerGroupQueue) (g : ℕ) (a : Addr) (i : ℕ) (c : Scan) (s : State) :
    Option State :=
  let rserver := if c.back then sg.rsBack else sg.rsPrime.map some
  match c.stage, rserver[c.k]? with
  | .avail, none =>
      some <| s.setSche g <|
        match c.reQueue with
        | some v => .copy a i v
        | none => if c.back then .dispatch a (i + 1) else .choose a i (Scan.start true)
  | .avail, some none => some (s.setSche g (.choose a i c.advance))
  | .avail, some (some rs) =>
      some <| s.setSche g <| .choose a i <|
        if s.unavailable rs then c.advance else { c with stage := .set }
  | .set, some (some rs) =>
      some ((s.setCurFst rs.index 0).setSche g (.choose a i { c with stage := .size }))
  | .size, some (some rs) =>
      let size := (s.queue (.srv rs.index)).size
      let c' := if c.queueSizeMax > size then
        { c with queueSizeMax := size, reQueue := some rs.index } else c
      some (s.setSche g (.choose a i c'.advance))
  | _, _ => none

/-- `do_upload_file_finish_all`, stage by stage. -/
def finishStep (cfg : Config) (g : ℕ) (sys : Sys) (a : Addr) (s : State) :
    FinishStage → Option State
  | .act => do
      let node ← s.heap a
      let orig ← s.original a
      let mg ← cfg.groups[node.monitorId]?
      let act := doMoveTo (cfg.date s.time) mg.finishAct mg.moveTo orig.src
      return (s.os sys act).2.setSche g (.finish a .delMonitor)
  | .delMonitor => do
      let orig ← s.original a
      return (s.os sys (deleteFile orig.monitorfile)).2.setSche g (.finish a .limit)
  | .limit =>
      let s' := s.setSche g (.finish a .delMarker)
      if cfg.maxUploadNum = 0 then
        some s'
      else if s.uploadCount > cfg.maxUploadNum then
        some { s' with uploadCount := s.uploadCount + 1, monitorRun := false, uploadRun := false }
      else
        some { s' with uploadCount := s.uploadCount + 1 }
  | .delMarker => do
      let orig ← s.original a
      let filepath := getUploadFileKByMonitorfile orig.monitorfile
      return (s.os sys (deleteFile filepath)).2.setSche g (.finish a .testMarker)
  | .testMarker => do
      let orig ← s.original a
      let filepath := getUploadFileKByMonitorfile orig.monitorfile
      let r := (s.os sys (fileExistsState filepath)).1
      return s.setSche g (.finish a (if r = NEWIUP_OK then .delMarkerAgain else .free))
  | .delMarkerAgain => do
      let orig ← s.original a
      let filepath := getUploadFileKByMonitorfile orig.monitorfile
      return (s.os sys (deleteFile filepath)).2.setSche g (.finish a .free)
  | .free => do
      let s' ← s.queueNodeFree a
      return s'.setSche g .pop

/-- `sche_handle`. -/
def scheStep (cfg : Config) (mg : MonitorGroup) (g : ℕ) (sys : Sys) (s : State) :
    Option State :=
  match s.sche g with
  | .pop =>
      if s.monitorRun then
        match s.queueNodePop (.sche g) with
        | none => some s
        | some (a, s') => some (s'.setSche g (.retain a))
      else
        some (s.setSche g .stopped)
  | .retain a => do
      let count ← s.queueNodeIsRetain a
      return s.setSche g (if count ≠ 0 then .requeue a else .source a)
  | .source a => do
      let orig ← s.original a
      let r := (s.os sys (fileExistsState orig.src)).1
      return s.setSche g (if r ≠ NEWIUP_OK then .drop a else .marker a)
  | .drop a => do
      let s' ← s.queueNodeFree a
      return s'.setSche g .pop
  | .marker a => do
      let orig ← s.original a
      let r := (s.os sys (fileExistsState (getUploadFileKByMonitorfile orig.monitorfile))).1
      return s.setSche g (if r ≠ NEWIUP_OK then .create a 0 else .check a 0)
  | .create a i => do
      let orig ← s.original a
      match mg.serverGroupList[i]? with
      | some sg =>
          let filepath := flagPath orig.monitorfile mg.name sg.primeName
          return (s.os sys (createFile filepath)).2.setSche g (.create a (i + 1))
      | none =>
          let filepath := getUploadFileKByMonitorfile orig.monitorfile
          return (s.os sys (createFile filepath)).2.setSche g (.dispatch a 0)
  | .check a i => do
      let orig ← s.original a
      match mg.serverGroupList[i]? with
      | some sg =>
          let filepath := flagPath orig.monitorfile mg.name sg.primeName
          let r := (s.os sys (fileExistsState filepath)).1
          return s.setSche g (if r = NEWIUP_OK then .dispatch a 0 else .check a (i + 1))
      | none => return s.setSche g (.finish a .act)
  | .finish a f => finishStep cfg g sys a s f
  | .dispatch a i =>
      match mg.serverGroupList[i]? with
      | none => some (s.setSche g (.requeue a))
      | some sg => do
          let orig ← s.original a
          let node ← s.heap a
          let filepath := flagPath orig.monitorfile mg.name sg.primeName
          let r := (s.os sys (fileExistsState filepath)).1
          if r ≠ NEWIUP_OK then
            return s.setSche g (.dispatch a (i + 1))
          -- `node->sg_name` is written by this thread only
          let s' := s.setNode a (some { node with sgName := some sg.primeName })
          return s'.setSche g (.choose a i (Scan.start false))
  | .choose a i c => (mg.serverGroupList[i]?).bind fun sg => scanStep sg g a i c s
  | .copy a i v =>
      if sys.head? = some none then
        -- `queue_node_push` ignores the null node
        some (s.setSche g (.dispatch a (i + 1)))
      else do
        let (c, s') ← s.queueNodeCopy a i
        return s'.setSche g (.push a i v c)
  | .push a i v c => some ((s.queueNodePush (.srv v) c).setSche g (.dispatch a (i + 1)))
  | .requeue a => do
      let node ← s.heap a
      return (s.queueNodePush node.scheQueue a).setSche g .pop
  | .stopped => none

/-! ### The upload threads -/

/-- `upload_handle`. -/
def uploadStep (cfg : Config) (rs : RealServer) (t : ThreadId) (ret : ℤ) (sys : Sys) (s : State) :
    Option State :=
  match s.upload t with
  | .pop =>
      if s.uploadRun then
        match s.queueNodePop (.srv t.1) with
        | none => some s
        | some (c, s') => some (s'.setUpload t (.avail c))
      else
        some (s.setUpload t .stopped)
  | .avail c => some (s.setUpload t (if s.unavailable rs then .release c else .availSet c))
  | .availSet c => some ((s.setCurFst rs.index 0).setUpload t (.checking c))
  | .checking c => do
      let orig ← s.original c
      let r := (s.os sys (fileExistsState orig.src)).1
      return s.setUpload t (if r ≠ NEWIUP_OK then .release c else .library c)
  | .library c => do
      let node ← s.heap c
      let orig ← s.original c
      let call : Call :=
        ⟨c, node.retainCount, s.grp c, node.monitorId, orig.monitorfile, ret⟩
      let s' := { s with calls := call :: s.calls }
      return s'.setUpload t (if ret = NEWIUP_OK then .deleteSrc c else .failed c)
  | .deleteSrc c => do
      let orig ← s.original c
      return (s.os sys (deleteFile orig.src)).2.setUpload t (.deleteFlag c)
  | .deleteFlag c => do
      let node ← s.heap c
      let orig ← s.original c
      let mg ← cfg.groups[node.monitorId]?
      let name ← node.sgName
      let filepath := flagPath orig.monitorfile mg.name name
      return (s.os sys (deleteFile filepath)).2.setUpload t (.resetRc c)
  | .resetRc c => some ((s.setCurRc rs.index 0).setUpload t (.release c))
  | .failed c => some (s.setUpload t (.failedInc c (s.curRc rs.index)))
  | .failedInc c rc =>
      let s' := s.setCurRc rs.index (rc + 1)
      some (s'.setUpload t (if rc < rs.retryCount then .requeue c else .setFst c))
  | .requeue c => some ((s.queueNodePush (.srv t.1) c).setUpload t .pop)
  | .setFst c => some ((s.setCurFst rs.index (State.toInt s.time)).setUpload t (.resetRc c))
  | .release c => do
      let node ← s.heap c
      let s' ← s.dropRetain node
      return s'.setUpload t (.free c)
  | .free c => some ((s.setNode c none).setUpload t .pop)
  | .stopped => none

/-! ### The system -/

/-- The step an action makes. -/
def step (cfg : Config) (s : State) : Act → Option State
  | .produce p b => some { s with fs := s.fs.put p b }
  | .unproduce p => some { s with fs := s.fs.unlink (resolve p) }
  | .monitor g m => do
      let mg ← cfg.groups[g]?
      let src ← addFileSuffixProcess mg m
      if mg.enable && isMonitorType m mg.monitorFileType == NEWIUP_OK then
        return s.queueNodeAdd g m src
      else
        none
  | .sche g sys => do
      let mg ← cfg.groups[g]?
      if mg.enable then scheStep cfg mg g sys s else none
  | .upload t ret sys => do
      let rs ← cfg.servers[t.1]?
      if t.2 < rs.threadNum then uploadStep cfg rs t ret sys s else none
  | .tick n => some { s with time := s.time + n }
  | .signal => some { s with monitorRun := false, uploadRun := false }
  | .kill => some s.restart

/-- The daemon, from its first start on a disk. -/
def daemon (cfg : Config) (disk : Fs) : System State Act where
  init := fun s => ∃ time, s = State.boot disk time
  step := step cfg

/-! ### What a step can do -/

/-- The moves of a scheduler that touch neither nodes nor queues nor files. -/
inductive ScheLocal (mg : MonitorGroup) (s : State) : SchePc → SchePc → Prop
  | stop : ScheLocal mg s .pop .stopped
  | retained {a n} (h : s.queueNodeIsRetain a = some n) (hn : n ≠ 0) :
      ScheLocal mg s (.retain a) (.requeue a)
  | unretained {a} (h : s.queueNodeIsRetain a = some 0) :
      ScheLocal mg s (.retain a) (.source a)
  | missing {a o} (ho : s.original a = some o) (h : s.fs.has o.src = false) :
      ScheLocal mg s (.source a) (.drop a)
  | present {a o} (ho : s.original a = some o) (h : s.fs.has o.src = true) :
      ScheLocal mg s (.source a) (.marker a)
  | unmarked {a o} (ho : s.original a = some o)
      (h : s.fs.has (getUploadFileKByMonitorfile o.monitorfile) = false) :
      ScheLocal mg s (.marker a) (.create a 0)
  | marked {a o} (ho : s.original a = some o)
      (h : s.fs.has (getUploadFileKByMonitorfile o.monitorfile) = true) :
      ScheLocal mg s (.marker a) (.check a 0)
  | flagged {a i o sg} (ho : s.original a = some o) (hsg : mg.serverGroupList[i]? = some sg)
      (h : s.fs.has (flagPath o.monitorfile mg.name sg.primeName) = true) :
      ScheLocal mg s (.check a i) (.dispatch a 0)
  | unflagged {a i o sg} (ho : s.original a = some o) (hsg : mg.serverGroupList[i]? = some sg)
      (h : s.fs.has (flagPath o.monitorfile mg.name sg.primeName) = false) :
      ScheLocal mg s (.check a i) (.check a (i + 1))
  | complete {a i} (hsg : mg.serverGroupList[i]? = none) :
      ScheLocal mg s (.check a i) (.finish a .act)
  | limit {a} : ScheLocal mg s (.finish a .limit) (.finish a .delMarker)
  | remains {a} : ScheLocal mg s (.finish a .testMarker) (.finish a .delMarkerAgain)
  | gone {a} : ScheLocal mg s (.finish a .testMarker) (.finish a .free)
  | dispatched {a i} (hsg : mg.serverGroupList[i]? = none) :
      ScheLocal mg s (.dispatch a i) (.requeue a)
  | skip {a i o sg} (ho : s.original a = some o) (hsg : mg.serverGroupList[i]? = some sg)
      (h : s.fs.has (flagPath o.monitorfile mg.name sg.primeName) = false) :
      ScheLocal mg s (.dispatch a i) (.dispatch a (i + 1))
  | scan {a i c c'} : ScheLocal mg s (.choose a i c) (.choose a i c')
  | unserved {a i c} : ScheLocal mg s (.choose a i c) (.dispatch a (i + 1))
  | chosen {a i c v} (hv : c.reQueue = some v) : ScheLocal mg s (.choose a i c) (.copy a i v)
  | unallocated {a i v} : ScheLocal mg s (.copy a i v) (.dispatch a (i + 1))

/-- The moves of an upload thread that touch neither nodes nor queues nor files. -/
inductive UploadLocal (s : State) : UploadPc → UploadPc → Prop
  | stop : UploadLocal s .pop .stopped
  | unavailable {c} : UploadLocal s (.avail c) (.release c)
  | available {c} : UploadLocal s (.avail c) (.availSet c)
  | availSet {c} : UploadLocal s (.availSet c) (.checking c)
  | missing {c o} (ho : s.original c = some o) (h : s.fs.has o.src = false) :
      UploadLocal s (.checking c) (.release c)
  | present {c o} (ho : s.original c = some o) (h : s.fs.has o.src = true) :
      UploadLocal s (.checking c) (.library c)
  | resetRc {c} : UploadLocal s (.resetRc c) (.release c)
  | failed {c rc} : UploadLocal s (.failed c) (.failedInc c rc)
  | retry {c rc} : UploadLocal s (.failedInc c rc) (.requeue c)
  | exhausted {c rc} : UploadLocal s (.failedInc c rc) (.setFst c)
  | setFst {c} : UploadLocal s (.setFst c) (.resetRc c)

/-- The stages of a finish that run a program `x` on the files. -/
inductive FinishOs (cfg : Config) (s : State) (a : Addr) :
    FinishStage → FinishStage → Os ℤ → Prop
  | act {node o mg} (hnode : s.heap a = some node) (ho : s.original a = some o)
      (hmg : cfg.groups[node.monitorId]? = some mg) :
      FinishOs cfg s a .act .delMonitor (doMoveTo (cfg.date s.time) mg.finishAct mg.moveTo o.src)
  | delMonitor {o} (ho : s.original a = some o) :
      FinishOs cfg s a .delMonitor .limit (deleteFile o.monitorfile)
  | delMarker {o} (ho : s.original a = some o) :
      FinishOs cfg s a .delMarker .testMarker
        (deleteFile (getUploadFileKByMonitorfile o.monitorfile))
  | delMarkerAgain {o} (ho : s.original a = some o) :
      FinishOs cfg s a .delMarkerAgain .free
        (deleteFile (getUploadFileKByMonitorfile o.monitorfile))

/-- The places where a scheduler frees its node. -/
inductive ScheFree (a : Addr) : SchePc → Prop
  | drop : ScheFree a (.drop a)
  | finish : ScheFree a (.finish a .free)

/-- What a step can do.  It is the step function once more, as a list of its branches with
their guards.  The invariants are proved by cases on it. -/
inductive Step (cfg : Config) (s : State) : Act → State → Prop
  | produce {p b} : Step cfg s (.produce p b) { s with fs := s.fs.put p b }
  | unproduce {p} : Step cfg s (.unproduce p) { s with fs := s.fs.unlink (resolve p) }
  | monitor {g m mg src} (hmg : cfg.groups[g]? = some mg)
      (hm : isMonitorType m mg.monitorFileType = NEWIUP_OK)
      (hsrc : addFileSuffixProcess mg m = some src) :
      Step cfg s (.monitor g m) (s.queueNodeAdd g m src)
  | tick {n : ℕ} : Step cfg s (.tick n) { s with time := s.time + n }
  | signal : Step cfg s .signal { s with monitorRun := false, uploadRun := false }
  | kill : Step cfg s .kill s.restart
  | scheIdle {g sys} (hpc : s.sche g = .pop) : Step cfg s (.sche g sys) s
  | schePop {g sys a as n} (hpc : s.sche g = .pop) (hq : s.queue (.sche g) = ⟨a :: as, n⟩) :
      Step cfg s (.sche g sys)
        (State.setSche { s with queue := Function.update s.queue (.sche g) ⟨as, n - 1⟩ } g
          (.retain a))
  | scheLocal {g sys mg pc pc'} (hmg : cfg.groups[g]? = some mg) (hpc : s.sche g = pc)
      (h : ScheLocal mg s pc pc') (curFst uploadCount monitorRun uploadRun) :
      Step cfg s (.sche g sys) { s.setSche g pc' with
        curFst := curFst, uploadCount := uploadCount
        monitorRun := monitorRun, uploadRun := uploadRun }
  | createFlag {g sys mg a i o sg} (hmg : cfg.groups[g]? = some mg)
      (hpc : s.sche g = .create a i) (ho : s.original a = some o)
      (hsg : mg.serverGroupList[i]? = some sg) :
      Step cfg s (.sche g sys)
        ((s.os sys (createFile (flagPath o.monitorfile mg.name sg.primeName))).2.setSche g
          (.create a (i + 1)))
  | createMarker {g sys mg a i o} (hmg : cfg.groups[g]? = some mg)
      (hpc : s.sche g = .create a i) (ho : s.original a = some o)
      (hsg : mg.serverGroupList[i]? = none) :
      Step cfg s (.sche g sys)
        ((s.os sys (createFile (getUploadFileKByMonitorfile o.monitorfile))).2.setSche g
          (.dispatch a 0))
  | finishOs {g sys a f f' x} (hpc : s.sche g = .finish a f) (h : FinishOs cfg s a f f' x) :
      Step cfg s (.sche g sys) ((s.os sys x).2.setSche g (.finish a f'))
  | scheFree {g sys a pc s'} (hpc : s.sche g = pc) (h : ScheFree a pc)
      (hfree : s.queueNodeFree a = some s') : Step cfg s (.sche g sys) (s'.setSche g .pop)
  | choose {g sys mg a i node o sg} (hmg : cfg.groups[g]? = some mg)
      (hpc : s.sche g = .dispatch a i) (hnode : s.heap a = some node)
      (ho : s.original a = some o) (hsg : mg.serverGroupList[i]? = some sg)
      (hflag : s.fs.has (flagPath o.monitorfile mg.name sg.primeName) = true) :
      Step cfg s (.sche g sys)
        ((s.setNode a (some { node with sgName := some sg.primeName })).setSche g
          (.choose a i (Scan.start false)))
  | copy {g sys a i v c s'} (hpc : s.sche g = .copy a i v)
      (hcopy : s.queueNodeCopy a i = some (c, s')) :
      Step cfg s (.sche g sys) (s'.setSche g (.push a i v c))
  | push {g sys a i v c} (hpc : s.sche g = .push a i v c) :
      Step cfg s (.sche g sys) ((s.queueNodePush (.srv v) c).setSche g (.dispatch a (i + 1)))
  | requeue {g sys a node} (hpc : s.sche g = .requeue a) (hnode : s.heap a = some node) :
      Step cfg s (.sche g sys) ((s.queueNodePush node.scheQueue a).setSche g .pop)
  | uploadIdle {t ret sys} (hpc : s.upload t = .pop) : Step cfg s (.upload t ret sys) s
  | uploadPop {t ret sys c cs n} (hpc : s.upload t = .pop)
      (hq : s.queue (.srv t.1) = ⟨c :: cs, n⟩) :
      Step cfg s (.upload t ret sys)
        (State.setUpload { s with queue := Function.update s.queue (.srv t.1) ⟨cs, n - 1⟩ } t
          (.avail c))
  | uploadLocal {t ret sys pc pc'} (hpc : s.upload t = pc) (h : UploadLocal s pc pc')
      (curRc curFst) :
      Step cfg s (.upload t ret sys) { s.setUpload t pc' with curRc := curRc, curFst := curFst }
  | library {t ret sys c node o} (hpc : s.upload t = .library c) (hnode : s.heap c = some node)
      (ho : s.original c = some o) :
      Step cfg s (.upload t ret sys)
        (State.setUpload { s with calls :=
          ⟨c, node.retainCount, s.grp c, node.monitorId, o.monitorfile, ret⟩ :: s.calls } t
          (if ret = NEWIUP_OK then .deleteSrc c else .failed c))
  | deleteSrc {t ret sys c o} (hpc : s.upload t = .deleteSrc c) (ho : s.original c = some o) :
      Step cfg s (.upload t ret sys)
        ((s.os sys (deleteFile o.src)).2.setUpload t (.deleteFlag c))
  | deleteFlag {t ret sys c node o mg name} (hpc : s.upload t = .deleteFlag c)
      (hnode : s.heap c = some node) (ho : s.original c = some o)
      (hmg : cfg.groups[node.monitorId]? = some mg) (hname : node.sgName = some name) :
      Step cfg s (.upload t ret sys)
        ((s.os sys (deleteFile (flagPath o.monitorfile mg.name name))).2.setUpload t (.resetRc c))
  | uploadRequeue {t ret sys c} (hpc : s.upload t = .requeue c) :
      Step cfg s (.upload t ret sys) ((s.queueNodePush (.srv t.1) c).setUpload t .pop)
  | release {t ret sys c node s'} (hpc : s.upload t = .release c) (hnode : s.heap c = some node)
      (hs' : s.dropRetain node = some s') :
      Step cfg s (.upload t ret sys) (s'.setUpload t (.free c))
  | free {t ret sys c} (hpc : s.upload t = .free c) :
      Step cfg s (.upload t ret sys) ((s.setNode c none).setUpload t .pop)

section Cases

variable {cfg : Config} {s s' : State}

/-- A local move of a scheduler that leaves the rest alone. -/
theorem Step.scheMove {g : ℕ} {sys : Sys} {mg : MonitorGroup} {pc pc' : SchePc}
    (hmg : cfg.groups[g]? = some mg) (hpc : s.sche g = pc) (h : ScheLocal mg s pc pc') :
    Step cfg s (.sche g sys) (s.setSche g pc') :=
  .scheLocal hmg hpc h s.curFst s.uploadCount s.monitorRun s.uploadRun

/-- A local move of an upload thread that leaves the rest alone. -/
theorem Step.uploadMove {t : ThreadId} {ret : ℤ} {sys : Sys} {pc pc' : UploadPc}
    (hpc : s.upload t = pc) (h : UploadLocal s pc pc') :
    Step cfg s (.upload t ret sys) (s.setUpload t pc') :=
  .uploadLocal hpc h s.curRc s.curFst

theorem os_fileExistsState (s : State) (sys : Sys) (p : Path) :
    (s.os sys (fileExistsState p)).1 = if s.fs.has p then NEWIUP_OK else NEWIUP_FAIL := rfl

theorem scanStep_cases {mg : MonitorGroup} {sg : ServerGroupQueue} {g : ℕ} {sys : Sys} {a : Addr}
    {i : ℕ} {c : Scan} (hmg : cfg.groups[g]? = some mg) (hpc : s.sche g = .choose a i c)
    (h : scanStep sg g a i c s = some s') : Step cfg s (.sche g sys) s' := by
  unfold scanStep at h
  dsimp only at h
  split at h
  · cases h
    split
    · next v hv => exact .scheMove hmg hpc (.chosen hv)
    · split
      · exact .scheMove hmg hpc .unserved
      · exact .scheMove hmg hpc .scan
  · cases h
    exact .scheMove hmg hpc .scan
  · cases h
    exact .scheMove hmg hpc .scan
  · cases h
    exact .scheLocal hmg hpc .scan _ s.uploadCount s.monitorRun s.uploadRun
  · cases h
    exact .scheMove hmg hpc .scan
  · cases h

theorem finishStep_cases {mg : MonitorGroup} {g : ℕ} {sys : Sys} {a : Addr} {f : FinishStage}
    (hmg : cfg.groups[g]? = some mg) (hpc : s.sche g = .finish a f)
    (h : finishStep cfg g sys a s f = some s') : Step cfg s (.sche g sys) s' := by
  -- the stages that call the system are one case of the relation, the limit another
  cases f with
  | act =>
    simp only [finishStep, Option.bind_eq_bind, Option.bind_eq_some_iff] at h
    obtain ⟨node, hnode, o, ho, mg', hmg', h⟩ := h
    cases h
    exact .finishOs hpc (.act hnode ho hmg')
  | delMonitor =>
    simp only [finishStep, Option.bind_eq_bind, Option.bind_eq_some_iff] at h
    obtain ⟨o, ho, h⟩ := h
    cases h
    exact .finishOs hpc (.delMonitor ho)
  | limit =>
    simp only [finishStep] at h
    split at h
    · cases h
      exact .scheMove hmg hpc .limit
    · split at h
      · cases h
        exact .scheLocal hmg hpc .limit s.curFst _ _ _
      · cases h
        exact .scheLocal hmg hpc .limit s.curFst _ s.monitorRun s.uploadRun
  | delMarker =>
    simp only [finishStep, Option.bind_eq_bind, Option.bind_eq_some_iff] at h
    obtain ⟨o, ho, h⟩ := h
    cases h
    exact .finishOs hpc (.delMarker ho)
  | testMarker =>
    simp only [finishStep, Option.bind_eq_bind, Option.bind_eq_some_iff] at h
    obtain ⟨o, -, h⟩ := h
    cases h
    split
    · exact .scheMove hmg hpc .remains
    · exact .scheMove hmg hpc .gone
  | delMarkerAgain =>
    simp only [finishStep, Option.bind_eq_bind, Option.bind_eq_some_iff] at h
    obtain ⟨o, ho, h⟩ := h
    cases h
    exact .finishOs hpc (.delMarkerAgain ho)
  | free =>
    simp only [finishStep, Option.bind_eq_bind, Option.bind_eq_some_iff] at h
    obtain ⟨s₁, hs₁, h⟩ := h
    cases h
    exact .scheFree hpc .finish hs₁

theorem queueNodePop_eq_some {q : QueueId} {a : Addr} (h : s.queueNodePop q = some (a, s')) :
    ∃ as n, s.queue q = ⟨a :: as, n⟩ ∧
      s' = { s with queue := Function.update s.queue q ⟨as, n - 1⟩ } := by
  unfold State.queueNodePop at h
  split at h
  · cases h
  · next b bs n hq =>
    cases h
    exact ⟨bs, n, hq, rfl⟩

theorem addRetain_eq_some {a : Addr} {x : ℤ} (h : s.addRetain a x = some s') :
    ∃ n, s.heap a = some n ∧ s' = s.setNode a (some { n with reCountS := n.reCountS + x }) := by
  obtain ⟨n, hn, hs'⟩ := Option.map_eq_some_iff.mp h
  exact ⟨n, hn, hs'.symm⟩

/-- `queue_node_copy` of an original: a new copy, and one more to count. -/
theorem queueNodeCopy_eq_some {a c : Addr} {i : ℕ} {n : FileQueue} (hn : s.heap a = some n)
    (hret : n.retainCount = a) (ha : a ≠ s.next) (h : s.queueNodeCopy a i = some (c, s')) :
    c = s.next ∧ s' = { s with
      heap := Function.update (Function.update s.heap s.next (some { n with copy := true })) a
        (some { n with reCountS := n.reCountS + 1 })
      next := s.next + 1
      grp := Function.update s.grp s.next i } := by
  simp only [State.queueNodeCopy, Option.bind_eq_bind, Option.bind_eq_some_iff] at h
  obtain ⟨m, hm, s₁, hs₁, h⟩ := h
  cases hm.symm.trans hn
  cases h
  obtain ⟨m, hm, rfl⟩ := addRetain_eq_some hs₁
  rw [hret] at hm
  dsimp only [State.setNode] at hm
  rw [Function.update_of_ne ha, hn] at hm
  cases hm
  exact ⟨rfl, by simp only [State.setNode, hret]⟩

theorem dropRetain_heap {n : FileQueue} (h : s.dropRetain n = some s') :
    ∃ heap, s' = { s with heap := heap } := by
  unfold State.dropRetain at h
  split at h
  · obtain ⟨_, _, rfl⟩ := addRetain_eq_some h
    exact ⟨_, rfl⟩
  · cases h
    exact ⟨s.heap, rfl⟩

theorem queueNodeFree_heap {a : Addr} (h : s.queueNodeFree a = some s') :
    ∃ heap, s' = { s with heap := heap } := by
  simp only [State.queueNodeFree, Option.bind_eq_bind, Option.bind_eq_some_iff] at h
  obtain ⟨n, -, s₁, hs₁, h⟩ := h
  cases h
  obtain ⟨heap, rfl⟩ := dropRetain_heap hs₁
  exact ⟨_, rfl⟩

theorem queueNodeCopy_heap {a c : Addr} {i : ℕ} (h : s.queueNodeCopy a i = some (c, s')) :
    c = s.next ∧ ∃ heap, s' = { s with
      heap := heap, next := s.next + 1, grp := Function.update s.grp s.next i } := by
  simp only [State.queueNodeCopy, Option.bind_eq_bind, Option.bind_eq_some_iff] at h
  obtain ⟨n, -, s₁, hs₁, h⟩ := h
  cases h
  obtain ⟨_, _, rfl⟩ := addRetain_eq_some hs₁
  exact ⟨rfl, _, rfl⟩

/-- The test of a file, as the condition the threads branch on. -/
theorem ok_iff_has {s : State} {sys : Sys} {p : Path} :
    (s.os sys (fileExistsState p)).1 = NEWIUP_OK ↔ s.fs.has p = true := by
  rw [os_fileExistsState]
  split
  · next h => simp [h]
  · next h => simp [h, newiup_fail_ne_ok]

theorem scheStep_cases {mg : MonitorGroup} {g : ℕ} {sys : Sys} (hmg : cfg.groups[g]? = some mg)
    (h : scheStep cfg mg g sys s = some s') : Step cfg s (.sche g sys) s' := by
  unfold scheStep at h
  split at h
  · next hpc => -- pop
    split at h
    · split at h
      · cases h
        exact .scheIdle hpc
      · next a s₁ hpop =>
        cases h
        obtain ⟨as, n, hq, rfl⟩ := queueNodePop_eq_some hpop
        exact .schePop hpc hq
    · cases h
      exact .scheMove hmg hpc .stop
  · next a hpc => -- retain
    simp only [Option.bind_eq_bind, Option.bind_eq_some_iff] at h
    obtain ⟨n, hn, h⟩ := h
    cases h
    split
    · next hn0 => exact .scheMove hmg hpc (.retained hn hn0)
    · next hn0 => exact .scheMove hmg hpc (.unretained (not_not.mp hn0 ▸ hn))
  · next a hpc => -- source
    simp only [Option.bind_eq_bind, Option.bind_eq_some_iff] at h
    obtain ⟨o, ho, h⟩ := h
    cases h
    split
    · next hr => exact .scheMove hmg hpc (.missing ho (by simpa [ok_iff_has] using hr))
    · next hr => exact .scheMove hmg hpc (.present ho (by simpa [ok_iff_has] using hr))
  · next a hpc => -- drop
    simp only [Option.bind_eq_bind, Option.bind_eq_some_iff] at h
    obtain ⟨s₁, hs₁, h⟩ := h
    cases h
    exact .scheFree hpc .drop hs₁
  · next a hpc => -- marker
    simp only [Option.bind_eq_bind, Option.bind_eq_some_iff] at h
    obtain ⟨o, ho, h⟩ := h
    cases h
    split
    · next hr => exact .scheMove hmg hpc (.unmarked ho (by simpa [ok_iff_has] using hr))
    · next hr => exact .scheMove hmg hpc (.marked ho (by simpa [ok_iff_has] using hr))
  · next a i hpc => -- create
    simp only [Option.bind_eq_bind, Option.bind_eq_some_iff] at h
    obtain ⟨o, ho, h⟩ := h
    split at h
    · next sg hsg =>
      cases h
      exact .createFlag hmg hpc ho hsg
    · next hsg =>
      cases h
      exact .createMarker hmg hpc ho hsg
  · next a i hpc => -- check
    simp only [Option.bind_eq_bind, Option.bind_eq_some_iff] at h
    obtain ⟨o, ho, h⟩ := h
    split at h
    · next sg hsg =>
      cases h
      split
      · next hr => exact .scheMove hmg hpc (.flagged ho hsg (ok_iff_has.mp hr))
      · next hr =>
        exact .scheMove hmg hpc (.unflagged ho hsg (by simpa [ok_iff_has] using hr))
    · next hsg =>
      cases h
      exact .scheMove hmg hpc (.complete hsg)
  · next a f hpc => exact finishStep_cases hmg hpc h
  · next a i hpc => -- dispatch
    split at h
    · next hsg =>
      cases h
      exact .scheMove hmg hpc (.dispatched hsg)
    · next sg hsg =>
      simp only [Option.bind_eq_bind, Option.bind_eq_some_iff] at h
      obtain ⟨o, ho, node, hnode, h⟩ := h
      split at h
      · next hr =>
        cases h
        exact .scheMove hmg hpc (.skip ho hsg (by simpa [ok_iff_has] using hr))
      · next hr =>
        cases h
        exact .choose hmg hpc hnode ho hsg (by simpa [ok_iff_has] using hr)
  · next a i c hpc => -- choose
    obtain ⟨sg, -, h⟩ := Option.bind_eq_some_iff.mp h
    exact scanStep_cases hmg hpc h
  · next a i v hpc => -- copy
    split at h
    · cases h
      exact .scheMove hmg hpc .unallocated
    · simp only [Option.bind_eq_bind, Option.bind_eq_some_iff] at h
      obtain ⟨⟨c, s₁⟩, hcopy, h⟩ := h
      cases h
      exact .copy hpc hcopy
  · next a i v c hpc => -- push
    cases h
    exact .push hpc
  · next a hpc => -- requeue
    simp only [Option.bind_eq_bind, Option.bind_eq_some_iff] at h
    obtain ⟨node, hnode, h⟩ := h
    cases h
    exact .requeue hpc hnode
  · cases h

/-- What the threads share besides the file system, the heap and the queues: the time,
`cur_fst`, `upload_count` and the signals of the loops. -/
def State.globals (s : State) : ℤ × (ℕ → ℤ) × ℤ × Bool × Bool :=
  (s.time, s.curFst, s.uploadCount, s.monitorRun, s.uploadRun)

theorem globals_queueNodeFree {a : Addr} (h : s.queueNodeFree a = some s') :
    s'.globals = s.globals := by
  obtain ⟨heap, rfl⟩ := queueNodeFree_heap h
  rfl

theorem globals_queueNodePop {q : QueueId} {a : Addr} (h : s.queueNodePop q = some (a, s')) :
    s'.globals = s.globals := by
  obtain ⟨as, n, -, rfl⟩ := queueNodePop_eq_some h
  rfl

/-- A finish writes them in `do_upload_file_limit` only. -/
theorem globals_finishStep {g : ℕ} {sys : Sys} {a : Addr} {f : FinishStage} (hf : f ≠ .limit)
    (h : finishStep cfg g sys a s f = some s') : s'.globals = s.globals := by
  cases f with
  | act =>
    simp only [finishStep, Option.bind_eq_bind, Option.bind_eq_some_iff] at h
    obtain ⟨_, -, _, -, _, -, h⟩ := h
    cases h
    rfl
  | limit => exact absurd rfl hf
  | free =>
    obtain ⟨t, ht, h⟩ := Option.bind_eq_some_iff.mp h
    cases h
    exact (globals_queueNodeFree ht :)
  | delMonitor | delMarker | testMarker | delMarkerAgain =>
    obtain ⟨orig, -, h⟩ := Option.bind_eq_some_iff.mp h
    cases h
    rfl

/-- **A scheduler writes the shared variables** in its scans and in `do_upload_file_limit`
only. -/
theorem globals_scheStep {mg : MonitorGroup} {g : ℕ} {sys : Sys}
    (hscan : ∀ a i c, s.sche g ≠ .choose a i c) (hlimit : ∀ a, s.sche g ≠ .finish a .limit)
    (h : scheStep cfg mg g sys s = some s') : s'.globals = s.globals := by
  unfold scheStep at h
  -- the places that read a node and the disk are alike and come last
  cases hs : s.sche g with
  | pop =>
    simp only [hs] at h
    split at h
    · split at h
      · cases h
        rfl
      · next hpop =>
        cases h
        exact (globals_queueNodePop hpop :)
    · cases h
      rfl
  | drop a =>
    simp only [hs] at h
    obtain ⟨t, ht, h⟩ := Option.bind_eq_some_iff.mp h
    cases h
    exact (globals_queueNodeFree ht :)
  | create a i | check a i =>
    simp only [hs] at h
    obtain ⟨orig, -, h⟩ := Option.bind_eq_some_iff.mp h
    split at h <;> cases h <;> rfl
  | finish a f =>
    simp only [hs] at h
    exact globals_finishStep (fun hf => hlimit a (hs.trans (by rw [hf]))) h
  | dispatch a i =>
    simp only [hs] at h
    split at h
    · cases h
      rfl
    · obtain ⟨orig, -, h⟩ := Option.bind_eq_some_iff.mp h
      obtain ⟨node, -, h⟩ := Option.bind_eq_some_iff.mp h
      split at h <;> cases h <;> rfl
  | choose a i c => exact absurd hs (hscan a i c)
  | copy a i v =>
    simp only [hs] at h
    split at h
    · cases h
      rfl
    · obtain ⟨⟨c, t⟩, ht, h⟩ := Option.bind_eq_some_iff.mp h
      cases h
      obtain ⟨-, heap, rfl⟩ := queueNodeCopy_heap ht
      rfl
  | push a i v c =>
    simp only [hs] at h
    cases h
    rfl
  | stopped =>
    simp only [hs] at h
    cases h
  | _ =>
    simp only [hs] at h
    obtain ⟨x, -, h⟩ := Option.bind_eq_some_iff.mp h
    cases h
    rfl

theorem uploadStep_cases {rs : RealServer} {t : ThreadId} {ret : ℤ} {sys : Sys}
    (h : uploadStep cfg rs t ret sys s = some s') : Step cfg s (.upload t ret sys) s' := by
  unfold uploadStep at h
  split at h
  · next hpc => -- pop
    split at h
    · split at h
      · cases h
        exact .uploadIdle hpc
      · next c s₁ hpop =>
        cases h
        obtain ⟨cs, n, hq, rfl⟩ := queueNodePop_eq_some hpop
        exact .uploadPop hpc hq
    · cases h
      exact .uploadMove hpc .stop
  · next c hpc => -- avail
    cases h
    split
    · exact .uploadMove hpc .unavailable
    · exact .uploadMove hpc .available
  · next c hpc => -- availSet
    cases h
    exact .uploadLocal hpc .availSet s.curRc _
  · next c hpc => -- checking
    simp only [Option.bind_eq_bind, Option.bind_eq_some_iff] at h
    obtain ⟨o, ho, h⟩ := h
    cases h
    split
    · next hr => exact .uploadMove hpc (.missing ho (by simpa [ok_iff_has] using hr))
    · next hr => exact .uploadMove hpc (.present ho (by simpa [ok_iff_has] using hr))
  · next c hpc => -- library
    simp only [Option.bind_eq_bind, Option.bind_eq_some_iff] at h
    obtain ⟨node, hnode, o, ho, h⟩ := h
    cases h
    exact .library hpc hnode ho
  · next c hpc => -- deleteSrc
    simp only [Option.bind_eq_bind, Option.bind_eq_some_iff] at h
    obtain ⟨o, ho, h⟩ := h
    cases h
    exact .deleteSrc hpc ho
  · next c hpc => -- deleteFlag
    simp only [Option.bind_eq_bind, Option.bind_eq_some_iff] at h
    obtain ⟨node, hnode, o, ho, mg, hmg, name, hname, h⟩ := h
    cases h
    exact .deleteFlag hpc hnode ho hmg hname
  · next c hpc => -- resetRc
    cases h
    exact .uploadLocal hpc .resetRc _ s.curFst
  · next c hpc => -- failed
    cases h
    exact .uploadMove hpc .failed
  · next c rc hpc => -- failedInc
    cases h
    split
    · exact .uploadLocal hpc .retry _ s.curFst
    · exact .uploadLocal hpc .exhausted _ s.curFst
  · next c hpc => -- requeue
    cases h
    exact .uploadRequeue hpc
  · next c hpc => -- setFst
    cases h
    exact .uploadLocal hpc .setFst s.curRc _
  · next c hpc => -- release
    simp only [Option.bind_eq_bind, Option.bind_eq_some_iff] at h
    obtain ⟨node, hnode, s₁, hs₁, h⟩ := h
    cases h
    exact .release hpc hnode hs₁
  · next c hpc => -- free
    cases h
    exact .free hpc
  · cases h

/-- **Every step is one of `Step`.** -/
theorem step_cases {a : Act} (h : step cfg s a = some s') : Step cfg s a s' := by
  cases a with
  | produce p b => cases h; exact .produce
  | unproduce p => cases h; exact .unproduce
  | monitor g m =>
    simp only [step, Option.bind_eq_bind, Option.bind_eq_some_iff] at h
    obtain ⟨mg, hmg, src, hsrc, h⟩ := h
    split at h
    · next hc =>
      cases h
      simp only [Bool.and_eq_true, beq_iff_eq] at hc
      exact .monitor hmg hc.2 hsrc
    · cases h
  | sche g sys =>
    simp only [step, Option.bind_eq_bind, Option.bind_eq_some_iff] at h
    obtain ⟨mg, hmg, h⟩ := h
    split at h
    · exact scheStep_cases hmg h
    · cases h
  | upload t ret sys =>
    simp only [step, Option.bind_eq_bind, Option.bind_eq_some_iff] at h
    obtain ⟨rs, -, h⟩ := h
    split at h
    · exact uploadStep_cases h
    · cases h
  | tick n => cases h; exact .tick
  | signal => cases h; exact .signal
  | kill => cases h; exact .kill

end Cases

end Newiup
