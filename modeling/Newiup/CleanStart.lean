import Newiup.DbConfig
import Newiup.GroupChecks

/-!
# Starting up and clearing up

`cfg_init` reads the four sections of the configuration one after the other, and
`newiup_exit` clears up what it has allocated.  Both walk the tree and the arrays as if all
were there: a section that is missing is a null pointer, and so is a key without a value.

Each function is compared with the list of its checks, one section after the other.  A
check that fails either ends the start with an error, which is clean, or stands for
something that the source does without asking.  So it is the first check to fail that
decides, and the later ones do not matter.

## Main definitions

* `globalCfgInit`, `Process.cfgInit`, `Process.newiupExit` — the functions.
* `StartEnv` — what the configuration does not say: the file system and the allocations.
* `CleanStart` — nothing undefined is done.
* `startChecks` — the checks that are made, in order.

## Main results

* `cleanStart_iff` — **a start is clean exactly when no check that is come to does what is
  undefined.**
-/

namespace Newiup

/-! ### The global settings -/

/-- `global_config_s`. -/
structure GlobalConfig where
  /-- `affinity`. -/
  affinity : ℤ
  /-- `max_upload_num`. -/
  maxUploadNum : ℤ
  /-- `connect_timeout`. -/
  connectTimeout : ℤ
  /-- The array `log_dir_path`. -/
  logDirPath : CString
  /-- `data_expiration_time`. -/
  dataExpirationTime : ℤ

/-- What the settings are without keys. -/
def GlobalConfig.init : GlobalConfig :=
  { affinity := -1, maxUploadNum := 10000, connectTimeout := 30, logDirPath := [],
    dataExpirationTime := 0 }

/-- The settings, the log and the file system. -/
structure Globals where
  /-- `global_config`. -/
  config : GlobalConfig
  /-- `run_logdata.path`, once `log_init` has set up `run_logdata`. -/
  runLog : Option CString
  /-- `run_logdata.fd` is open. -/
  fd : Bool
  /-- The file of the log can be opened; it stays open while the program starts. -/
  opens : Bool
  /-- The file system. -/
  world : World

/-- A call that works on the file system. -/
def callOs {α : Type} (x : Os α) : Start Globals α := fun g =>
  (.done (x.run g.world).1, { g with world := (x.run g.world).2 })

/-- `log_printf`, which prints into an array of 2048 bytes. -/
def logPrintf (text : CString) : Start Globals Unit :=
  if text.length < 2048 then pure () else Start.crash

/-- `logging`: it waits for a lock, which nobody gives before `log_init` has set it up, and
opens the file. -/
def logging : Start Globals Unit := do
  let g ← Start.get
  if g.runLog = none then Start.crash
  else if g.fd then pure ()
  else if g.opens then Start.modify fun g => { g with fd := true }
  else Start.exit 0

/-- `logging_init`. -/
def loggingInit (logpath : CString) : Start Globals Unit := do
  let made ← callOs (recursiveMakeDir logpath DIR_MODE)
  if made ≠ NEWIUP_OK then do
    logPrintf ("logging_init: create logpath ".toList ++ logpath ++ " error\n".toList)
    Start.fail
  else if NEWIUP_PATH_LEN ≤ logpath.length then
    Start.exit 2
  else
    Start.modify fun g => { g with runLog := some logpath, fd := false }

/-- A key with a number. -/
def globalNumber (child : ConfNode) (set : CString → GlobalConfig → GlobalConfig) :
    Start Globals Unit := do
  let str ← Start.deref child.val
  Start.modify fun g => { g with config := set str g.config }

/-- A turn of the loop of `global_cfg_init`. -/
def globalKey (child : ConfNode) : Start Globals Unit :=
  if child.name = "affinity".toList then
    globalNumber child fun str c =>
      { c with affinity := if str = "no".toList then -1 else atoi str }
  else if child.name = "max-upload".toList then
    globalNumber child fun str c => { c with maxUploadNum := atoi str }
  else if child.name = "log-dir-path".toList then do
    let str ← Start.deref child.val
    Start.modify fun g =>
      { g with config := { g.config with logDirPath := strncpy NEWIUP_PATH_LEN str } }
    loggingInit str
  else if child.name = "data-expiration-time".toList then
    globalNumber child fun str c => { c with dataExpirationTime := atoi str }
  else if child.name = "connect-timeout".toList then
    globalNumber child fun str c => { c with connectTimeout := atoi str }
  else do
    logPrintf ("--global_cfg_init [".toList ++ child.name ++ "] error\n".toList)
    Start.exit 1

/-- The loop of `global_cfg_init`. -/
def globalKeys : List ConfNode → Start Globals Unit
  | [] => pure ()
  | child :: rest => do
    globalKey child
    globalKeys rest

/-- The directory of the log is made where it is missing. -/
def makeLogDir : Start Globals Unit := do
  let g ← Start.get
  let found ← callOs (isDir g.config.logDirPath)
  if found = NEWIUP_OK then pure ()
  else do
    let made ← callOs (recursiveMakeDir g.config.logDirPath DIR_MODE)
    logging
    Start.guard (made = NEWIUP_OK)

/-- `global_cfg_init`. -/
def globalCfgInit (root : ConfNode) : Start Globals Unit := do
  let node ← Start.deref (confGetNode root "global-config".toList)
  globalKeys node.head
  makeLogDir
  logging

/-- `logging_exit`, which closes the file if it is open. -/
def loggingExit : Start Globals Unit := Start.modify fun g => { g with fd := false }

/-! ### The program -/

/-- The variables of the program. -/
structure Process where
  /-- The settings and the log. -/
  globals : Globals
  /-- `db_config`. -/
  db : DbConfig
  /-- The servers, with the heap. -/
  servers : Servers
  /-- `g_monitorgroup`. -/
  gMonitorgroup : Option (ℕ × List GroupEntry)
  /-- `g_monitorgroup_num`. -/
  gMonitorgroupNum : ℕ

namespace Process

/-- The variables of `monitor.c`. -/
def monitors (p : Process) : Monitors := ⟨p.servers.heap, p.gMonitorgroup, p.gMonitorgroupNum⟩

/-- The variables of `monitor.c` are changed. -/
def setMonitors (m : Monitors) (p : Process) : Process :=
  { p with
    servers := { p.servers with heap := m.heap }
    gMonitorgroup := m.gMonitorgroup
    gMonitorgroupNum := m.gMonitorgroupNum }

/-- `cfg_init`. -/
def cfgInit (lists : ℕ → ListMallocs) (root : ConfNode) : Start Process Unit := do
  Start.zoom Process.globals (fun globals p => { p with globals }) (globalCfgInit root)
  Start.zoom Process.db (fun db p => { p with db }) (getDBConfig root)
  Start.zoom Process.servers (fun servers p => { p with servers }) (serversInit root)
  let p ← Start.get
  Start.zoom Process.monitors Process.setMonitors
    (monitorGroupInit lists p.servers.realServers p.globals.config.logDirPath root)

/-- `newiup_exit`. -/
def newiupExit : Start Process Unit := do
  Start.zoom Process.servers (fun servers p => { p with servers }) Servers.serversExit
  Start.zoom Process.monitors Process.setMonitors Monitors.monitorGroupExit
  Start.zoom Process.globals (fun globals p => { p with globals }) loggingExit

end Process

/-- What a start finds. -/
structure StartEnv where
  /-- The file system. -/
  world : World
  /-- The file of the log can be opened. -/
  opens : Bool
  /-- The results of `malloc` for `g_server`, the threads and `g_monitorgroup`. -/
  mallocs : List Bool
  /-- The results of the allocations for the lists of each group. -/
  lists : ℕ → ListMallocs

/-- The variables before `cfg_init`. -/
def StartEnv.process (env : StartEnv) : Process where
  globals := ⟨.init, none, false, env.opens, env.world⟩
  db := .zero
  servers := ⟨⟨env.mallocs, 0, []⟩, none, 0⟩
  gMonitorgroup := none
  gMonitorgroupNum := 0

/-- **A clean start**: `cfg_init` returns or ends the process, and where it returns
`newiup_exit` after it returns too. -/
def CleanStart (root : ConfNode) (env : StartEnv) : Prop :=
  (Process.cfgInit env.lists root env.process).1 ≠ .crash ∧
    ((∀ code, (Process.cfgInit env.lists root env.process).1 ≠ .exits code) →
      (Process.newiupExit (Process.cfgInit env.lists root env.process).2).1 = .done ())

/-! ### The checks -/

/-- A key with a number. -/
def numberKeys : List CString :=
  ["affinity".toList, "max-upload".toList, "data-expiration-time".toList,
    "connect-timeout".toList]

/-- `log-dir-path`: the directory is made, and the path fits. -/
def logInitCheck (path : CString) (w : World) : Verdict :=
  if ((recursiveMakeDir path DIR_MODE).run w).1 ≠ NEWIUP_OK then
    if ("logging_init: create logpath ".toList ++ path ++ " error\n".toList).length < 2048 then
      .stop
    else .crash
  else if NEWIUP_PATH_LEN ≤ path.length then .exit
  else .pass

/-- A key that is not known. -/
def unknownCheck (name : CString) : Verdict :=
  if ("--global_cfg_init [".toList ++ name ++ "] error\n".toList).length < 2048 then .exit
  else .crash

/-- The directory of the log: without a log the first message is undefined. -/
def logDirChecks (opens : Bool) (log : Option CString) (w : World) : List Verdict :=
  match log with
  | none => [.crash]
  | some path =>
    [if opens then .pass else .exit,
      if ((isDir path).run w).1 = NEWIUP_OK ∨
          ((recursiveMakeDir path DIR_MODE).run ((isDir path).run w).2).1 = NEWIUP_OK
      then .pass else .stop]

/-- The checks of `global_cfg_init` from a child on; `log` is the path that `log_init` has
last got, and `w` the file system. -/
def globalChecksFrom (opens : Bool) : List ConfNode → Option CString → World → List Verdict
  | [], log, w => logDirChecks opens log w
  | child :: rest, log, w =>
    if child.name ∈ numberKeys then
      child.val.elim .crash (fun _ => .pass) :: globalChecksFrom opens rest log w
    else if child.name = "log-dir-path".toList then
      child.val.elim [.crash] fun path => logInitCheck path w ::
        globalChecksFrom opens rest (some path) ((recursiveMakeDir path DIR_MODE).run w).2
    else [unknownCheck child.name]

/-- The checks of `global_cfg_init`. -/
def globalChecks (opens : Bool) (root : ConfNode) (w : World) : List Verdict :=
  match confGetNode root "global-config".toList with
  | none => [.crash]
  | some node => globalChecksFrom opens node.head none w

/-- A value for `db_config`, by what the shared variable holds. -/
def dbCheck (missing : Verdict) (val : Option CString) : Verdict :=
  val.elim missing (copyCheck dbFieldLen)

/-- The checks of `getDBConfig`. -/
def dbChecks (root : ConfNode) : List Verdict :=
  match confGetNode root "DBServer".toList with
  | none => [.crash]
  | some node =>
    let host := node.carry "DBHost".toList none
    let user := node.carry "DBUser".toList host
    let passWord := node.carry "DBPassWord".toList user
    let name := node.carry "DBName".toList passWord
    let port := node.carry "DBPort".toList name
    [dbCheck .stop host, dbCheck .stop user, dbCheck .stop passWord, dbCheck .stop name,
      dbCheck .pass (node.carry "DBSocket".toList port)]

/-- **The checks of a start**, in the order in which they are made. -/
def startChecks (root : ConfNode) (env : StartEnv) : List Verdict :=
  globalChecks env.opens root env.world ++ (dbChecks root ++ (serversChecks root env.mallocs ++
    groupsChecks env.lists (serverNames root) root ((mallocsAfter root env.mallocs).headD true)))

/-! ### The database -/

section Db

variable {node : ConfNode} {key : CString} {val : Option CString}
  {set : CString → DbConfig → DbConfig}

theorem checks_dbField : Start.Checks (fun _ => True) (dbField (some node) key set val)
    [dbCheck .stop (node.carry key val)] := by
  unfold dbField
  rw [confGetChildValue_some, dbCheck]
  show Start.Checks _ (match node.carry key val with | none => _ | some v => _) _
  cases hv : node.carry key val with
  | none => exact Start.Checks.fail
  | some v =>
    rw [Option.elim, ← Verdict.andThen_pass (copyCheck dbFieldLen v)]
    exact checks_strcpy fun _ => Start.Checks.congr (Start.Checks.bind_none
      (Start.Checks.modify fun _ _ => trivial) fun _ => Start.Checks.pure _) rfl

/-- What a field hands on is what the look-up left. -/
theorem dbField_done {v : Option CString} {c c' : DbConfig}
    (h : dbField (some node) key set val c = (.done v, c')) : v = node.carry key val := by
  unfold dbField at h
  rw [confGetChildValue_some, Start.pure_bind] at h
  cases hv : node.carry key val with
  | none =>
    rw [hv] at h
    cases h
  | some w =>
    rw [hv] at h
    obtain ⟨copy, c₁, hcopy, h₁⟩ := Start.bind_done_iff.mp h
    cases h₁
    rfl

/-- **The settings of the database** are checked in order. -/
theorem checks_getDBConfig (root : ConfNode) :
    Start.Checks (fun _ => True) (getDBConfig root) (dbChecks root) := by
  unfold getDBConfig dbChecks
  refine Start.Checks.bind_none (Start.Checks.modify fun _ _ => trivial) fun _ => ?_
  cases confGetNode root "DBServer".toList with
  | none =>
    unfold dbField
    dsimp only
    rw [confGetChildValue_null]
    exact Start.Checks.crash_bind
  | some node =>
    have field : ∀ {key : CString} {val : Option CString} {set : CString → DbConfig → DbConfig}
        {f : Option CString → Start DbConfig Unit} {l : List Verdict},
        Start.Checks (fun _ => True) (f (node.carry key val)) l →
        Start.Checks (fun _ => True) (dbField (some node) key set val >>= f)
          (dbCheck .stop (node.carry key val) :: l) := fun hf =>
      checks_dbField.bind_value (P := (· = node.carry _ _)) (fun _ _ _ _ h => dbField_done h)
        fun a ha => ha ▸ hf
    have hport : ∀ {val : Option CString},
        Start.Checks (fun _ => True) (dbPortField (some node) val) [] :=
      ⟨fun _ _ => by rw [dbPortField_eq]; rfl, fun _ _ => trivial⟩
    have hsocket : ∀ {val : Option CString}, Start.Checks (fun _ => True)
        (dbSocketField (some node) val) [dbCheck .pass (node.carry "DBSocket".toList val)] := by
      intro val
      unfold dbSocketField
      rw [confGetChildValue_some, dbCheck]
      show Start.Checks _ (match node.carry "DBSocket".toList val with | none => _ | some v => _) _
      cases node.carry "DBSocket".toList val with
      | none => exact (Start.Checks.pure ()).congr rfl
      | some v =>
        rw [Option.elim, ← Verdict.andThen_pass (copyCheck dbFieldLen v)]
        exact checks_strcpy fun _ => Start.Checks.congr
          (Start.Checks.modify fun _ _ => trivial) rfl
    -- the four values that must be there, and the two that may be missing
    refine field (field (field (field ?_)))
    refine Start.Checks.bind_value (P := (· = node.carry "DBPort".toList _)) (l := []) hport
      (fun c a c' _ h => ?_) fun a ha => ha ▸ hsocket
    rw [dbPortField_eq] at h
    cases h
    rfl

end Db

/-! ### The global settings -/

section GlobalKeys

variable {opens : Bool} {log : Option CString} {w : World} {g : Globals}

/-- The variables on the way through the section. -/
structure Globals.On (opens : Bool) (log : Option CString) (w : World) (g : Globals) : Prop where
  path_eq : g.config.logDirPath = log.getD []
  log_eq : g.runLog = log
  fits : ∀ path ∈ log, path.length < NEWIUP_PATH_LEN
  fd_eq : g.fd = false
  opens_eq : g.opens = opens
  world_eq : g.world = w

/-- From `g` the computation goes as its checks do, and the path of the log it leaves fits. -/
def GoesOn (x : Start Globals Unit) (checks : List Verdict) (g : Globals) : Prop :=
  (x g).1.verdict = firstStop checks ∧
    ∀ a g', x g = (.done a, g') → g'.config.logDirPath.length < NEWIUP_PATH_LEN

/-- A part that makes one check, and what comes after it. -/
theorem GoesOn.bind {x : Start Globals Unit} {f : Unit → Start Globals Unit} {v : Verdict}
    {checks : List Verdict} (hx : (x g).1.verdict = v)
    (hf : ∀ a g', x g = (.done a, g') → GoesOn (f a) checks g') :
    GoesOn (x >>= f) (v :: checks) g := by
  refine ⟨Start.verdict_bind (l := [v]) (by simpa using hx) fun a g' h => (hf a g' h).1, ?_⟩
  intro b g'' h
  obtain ⟨a, g', hxa, hfa⟩ := Start.bind_done_iff.mp h
  exact (hf a g' hxa).2 b g'' hfa

/-- The first message opens the file. -/
theorem logging_opens (hlog : g.runLog ≠ none) (hfd : g.fd = false) (hopens : g.opens = true) :
    logging g = (.done (), { g with fd := true }) := by
  unfold logging
  rw [Start.get_bind, if_neg hlog, if_neg (hfd ▸ Bool.false_ne_true), if_pos hopens]
  rfl

/-- Without its file the first message ends the process. -/
theorem logging_exits (hlog : g.runLog ≠ none) (hfd : g.fd = false) (hopens : g.opens = false) :
    logging g = (.exits 0, g) := by
  unfold logging
  rw [Start.get_bind, if_neg hlog, if_neg (hfd ▸ Bool.false_ne_true),
    if_neg (hopens ▸ Bool.false_ne_true)]
  rfl

/-- Later messages find it open. -/
theorem logging_open (hlog : g.runLog ≠ none) (hfd : g.fd = true) : logging g = (.done (), g) := by
  unfold logging
  rw [Start.get_bind, if_neg hlog, if_pos hfd]
  rfl

theorem logging_null (hlog : g.runLog = none) : logging g = (.crash, g) := by
  unfold logging
  rw [Start.get_bind, if_pos hlog]
  rfl

section LogDir

variable {w₁ w₂ : World} {found made : ℤ}

/-- The directory of the log is there. -/
theorem makeLogDir_found (hdir : (isDir g.config.logDirPath).run g.world = (found, w₁))
    (hfound : found = NEWIUP_OK) : makeLogDir g = (.done (), { g with world := w₁ }) := by
  have hcall : callOs (isDir g.config.logDirPath) g = (.done found, { g with world := w₁ }) := by
    rw [callOs, hdir]
  unfold makeLogDir
  rw [Start.get_bind, Start.bind_of_done hcall]
  exact congrFun (if_pos hfound) _

/-- It is not there. -/
theorem makeLogDir_made (hdir : (isDir g.config.logDirPath).run g.world = (found, w₁))
    (hfound : ¬found = NEWIUP_OK)
    (hmake : (recursiveMakeDir g.config.logDirPath DIR_MODE).run w₁ = (made, w₂)) :
    makeLogDir g = (logging >>= fun _ => Start.guard (made = NEWIUP_OK))
      { g with world := w₂ } := by
  have hcall : callOs (isDir g.config.logDirPath) g = (.done found, { g with world := w₁ }) := by
    rw [callOs, hdir]
  have hmade : callOs (recursiveMakeDir g.config.logDirPath DIR_MODE) { g with world := w₁ } =
      (.done made, { g with world := w₂ }) := by
    rw [callOs, hmake]
  unfold makeLogDir
  rw [Start.get_bind, Start.bind_of_done hcall]
  exact (congrFun (if_neg hfound) _).trans (Start.bind_of_done hmade)

/-- Without a log the directory is not come to. -/
theorem logDir_null (hlog : g.runLog = none) :
    ((makeLogDir >>= fun _ => logging) g).1 = .crash := by
  rcases hdir : (isDir g.config.logDirPath).run g.world with ⟨found, w₁⟩
  rcases hmake : (recursiveMakeDir g.config.logDirPath DIR_MODE).run w₁ with ⟨made, w₂⟩
  have hnull : ∀ w', logging { g with world := w' } = (.crash, { g with world := w' }) :=
    fun w' => logging_null hlog
  by_cases hfound : found = NEWIUP_OK
  · rw [Start.bind_of_done (makeLogDir_found hdir hfound), hnull]
  · have hmade := makeLogDir_made hdir hfound hmake
    rw [Start.bind_of_crash (hnull w₂)] at hmade
    rw [Start.bind_of_crash hmade]

/-- **The directory of the log**, after the keys. -/
theorem logDir_end (h : g.On opens log w) :
    GoesOn (makeLogDir >>= fun _ => logging) (logDirChecks opens log w) g := by
  unfold GoesOn
  cases log with
  | none =>
    have hcrash := logDir_null h.log_eq
    refine ⟨congrArg Ends.verdict hcrash, fun a g' hrun => ?_⟩
    rw [hrun] at hcrash
    cases hcrash
  | some path =>
    have hpath : g.config.logDirPath = path := h.path_eq
    have hlog : g.runLog ≠ none := h.log_eq ▸ nofun
    have hlen : g.config.logDirPath.length < NEWIUP_PATH_LEN := hpath ▸ h.fits path rfl
    rw [logDirChecks, firstStop_cons, firstStop_cons, ← hpath, ← h.world_eq]
    rcases hdir : (isDir g.config.logDirPath).run g.world with ⟨found, w₁⟩
    rcases hmake : (recursiveMakeDir g.config.logDirPath DIR_MODE).run w₁ with ⟨made, w₂⟩
    dsimp only
    have hends : ∀ {w'}, opens = true → logging { g with world := w' } =
        (.done (), { g with world := w', fd := true }) := fun hopens =>
      logging_opens hlog h.fd_eq (h.opens_eq.trans hopens)
    have hexit : ∀ {w'}, opens = false → logging { g with world := w' } =
        (.exits 0, { g with world := w' }) := fun hopens =>
      logging_exits hlog h.fd_eq (h.opens_eq.trans hopens)
    have hdone : ∀ {r g'}, r = ((.done (), g') : Ends Unit × Globals) →
        g'.config = g.config → r.1.verdict = .pass ∧ ∀ a g', r = (.done a, g') →
          g'.config.logDirPath.length < NEWIUP_PATH_LEN := by
      rintro _ g' rfl hconfig
      refine ⟨rfl, fun a g'' heq => ?_⟩
      cases heq
      rw [hconfig]
      exact hlen
    -- the directory is there, or is made after a line in the log; the first line opens the log
    by_cases hfound : found = NEWIUP_OK
    · have hdir_ok : found = NEWIUP_OK ∨ made = NEWIUP_OK := .inl hfound
      rw [Start.bind_of_done (makeLogDir_found hdir hfound)]
      cases opens with
      | true =>
        rw [if_pos rfl, if_pos hdir_ok]
        exact hdone (hends rfl) rfl
      | false =>
        rw [hexit rfl]
        exact ⟨rfl, nofun⟩
    · have hmade := makeLogDir_made hdir hfound hmake
      cases opens with
      | true =>
        rw [Start.bind_of_done (hends rfl)] at hmade
        rw [if_pos rfl]
        by_cases hok : made = NEWIUP_OK
        · have hdir_ok : found = NEWIUP_OK ∨ made = NEWIUP_OK := .inr hok
          have hret := hmade.trans (Start.guard_done_iff (a := ()).mpr ⟨hok, rfl⟩)
          rw [if_pos hdir_ok, Start.bind_of_done hret]
          exact hdone (logging_open hlog rfl) rfl
        · have hfail := hmade.trans (congrFun (if_neg hok) _)
          rw [if_neg (not_or_intro hfound hok), Start.bind_of_failed hfail]
          exact ⟨rfl, nofun⟩
      | false =>
        rw [Start.bind_of_exits (hexit rfl)] at hmade
        rw [Start.bind_of_exits hmade]
        exact ⟨rfl, nofun⟩

end LogDir

/-- A key with a number changes no path. -/
theorem globalKey_number {child : ConfNode} (h : child.name ∈ numberKeys) :
    ∃ set : CString → GlobalConfig → GlobalConfig, globalKey child = globalNumber child set ∧
      ∀ str c, (set str c).logDirPath = c.logDirPath := by
  unfold numberKeys at h
  simp only [List.mem_cons, List.not_mem_nil, or_false] at h
  unfold globalKey
  rcases h with h | h | h | h <;> rw [h]
  · exact ⟨_, if_pos rfl, fun _ _ => rfl⟩
  · exact ⟨_, (if_neg (by decide)).trans (if_pos rfl), fun _ _ => rfl⟩
  · exact ⟨_, (if_neg (by decide)).trans ((if_neg (by decide)).trans
      ((if_neg (by decide)).trans (if_pos rfl))), fun _ _ => rfl⟩
  · exact ⟨_, (if_neg (by decide)).trans ((if_neg (by decide)).trans ((if_neg (by decide)).trans
      ((if_neg (by decide)).trans (if_pos rfl)))), fun _ _ => rfl⟩

/-- The key of the log. -/
theorem globalKey_log {child : ConfNode} (h : child.name = "log-dir-path".toList) :
    globalKey child = Start.deref child.val >>= fun str =>
      Start.modify (fun g : Globals => { g with
        config := { g.config with logDirPath := strncpy NEWIUP_PATH_LEN str } }) >>= fun _ =>
          loggingInit str := by
  unfold globalKey
  rw [h, if_neg (by decide), if_neg (by decide), if_pos rfl]

/-- A key that is not known ends the process. -/
theorem globalKey_unknown {child : ConfNode} (hnumber : child.name ∉ numberKeys)
    (hlog : ¬child.name = "log-dir-path".toList) : globalKey child =
      logPrintf ("--global_cfg_init [".toList ++ child.name ++ "] error\n".toList) >>= fun _ =>
        Start.exit 1 := by
  unfold numberKeys at hnumber
  simp only [List.mem_cons, List.not_mem_nil, or_false, not_or] at hnumber
  obtain ⟨h₁, h₂, h₃, h₄⟩ := hnumber
  unfold globalKey
  rw [if_neg h₁, if_neg h₂, if_neg hlog, if_neg h₃, if_neg h₄]

theorem logPrintf_bind {α : Type} {text : CString} {f : Unit → Start Globals α} :
    (logPrintf text >>= f) g = if text.length < 2048 then f () g else (.crash, g) := by
  unfold logPrintf
  split <;> rfl

/-- The start of the log. -/
theorem loggingInit_end {path : CString} {w' : World} {made : ℤ}
    (hmake : (recursiveMakeDir path DIR_MODE).run g.world = (made, w')) :
    (loggingInit path g).1.verdict = logInitCheck path g.world ∧
      ∀ a g', loggingInit path g = (.done a, g') → path.length < NEWIUP_PATH_LEN ∧
        g' = { g with runLog := some path, fd := false, world := w' } := by
  have hcall : callOs (recursiveMakeDir path DIR_MODE) g =
      (.done made, { g with world := w' }) := by
    rw [callOs, hmake]
  unfold loggingInit logInitCheck
  rw [Start.bind_of_done hcall, hmake]
  dsimp only
  by_cases hok : made = NEWIUP_OK
  · rw [if_neg (not_not_intro hok), if_neg (not_not_intro hok)]
    by_cases hlen : NEWIUP_PATH_LEN ≤ path.length
    · rw [if_pos hlen, if_pos hlen]
      exact ⟨rfl, nofun⟩
    · rw [if_neg hlen, if_neg hlen]
      refine ⟨rfl, fun a g' hrun => ?_⟩
      cases hrun
      exact ⟨not_le.mp hlen, rfl⟩
  · rw [if_pos hok, if_pos hok, logPrintf_bind]
    split <;> exact ⟨rfl, nofun⟩

/-- **The keys go as their checks do**, and after them the directory of the log. -/
theorem globalKeys_end {children : List ConfNode} (h : g.On opens log w) :
    GoesOn (globalKeys children >>= fun _ => makeLogDir >>= fun _ => logging)
      (globalChecksFrom opens children log w) g := by
  induction children generalizing g log w with
  | nil => exact logDir_end h
  | cons child rest ih =>
    have hassoc : (globalKeys (child :: rest) >>= fun _ => makeLogDir >>= fun _ => logging) =
        globalKey child >>= fun _ => globalKeys rest >>= fun _ => makeLogDir >>= fun _ => logging :=
      Start.bind_assoc _ _ _
    rw [hassoc, globalChecksFrom]
    -- a number, the directory of the log, or a key that is not known
    by_cases hnumber : child.name ∈ numberKeys
    · obtain ⟨set, hkey, hset⟩ := globalKey_number hnumber
      rw [if_pos hnumber, hkey]
      unfold globalNumber
      cases child.val with
      | none => exact GoesOn.bind rfl nofun
      | some str =>
        refine GoesOn.bind rfl fun a g' hrun => ih ?_
        cases hrun
        exact { h with path_eq := (hset str g.config).trans h.path_eq }
    rw [if_neg hnumber]
    by_cases hlog : child.name = "log-dir-path".toList
    · rw [if_pos hlog, globalKey_log hlog]
      cases child.val with
      | none => exact GoesOn.bind rfl nofun
      | some path =>
        rcases hmake : (recursiveMakeDir path DIR_MODE).run w with ⟨made, w'⟩
        obtain ⟨hv, hdone⟩ := @loggingInit_end { g with
          config := { g.config with logDirPath := strncpy NEWIUP_PATH_LEN path } } path w' made
            (by rw [← hmake, ← h.world_eq])
        refine GoesOn.bind (hv.trans (congrArg _ h.world_eq)) fun a g' hrun => ih ?_
        obtain ⟨hfits, rfl⟩ := hdone a g' hrun
        exact ⟨List.take_of_length_le hfits.le, rfl, fun p hp => Option.some.inj hp ▸ hfits, rfl,
          h.opens_eq, (congrArg Prod.snd hmake).symm⟩
    · rw [if_neg hlog, globalKey_unknown hnumber hlog]
      refine GoesOn.bind ?_ fun a g' hrun => ?_
      · rw [logPrintf_bind, unknownCheck]
        split <;> rfl
      · rw [logPrintf_bind] at hrun
        split at hrun <;> cases hrun

/-- **How `global_cfg_init` ends** is how its checks go. -/
theorem globalCfgInit_end {root : ConfNode} (h : g.On opens none w) :
    GoesOn (globalCfgInit root) (globalChecks opens root w) g := by
  unfold globalCfgInit globalChecks
  cases confGetNode root "global-config".toList with
  | none => exact ⟨rfl, nofun⟩
  | some node => exact globalKeys_end h

end GlobalKeys

/-! ### The start and the end -/

section Process

variable {σ τ α : Type} {root : ConfNode} {env : StartEnv} {rest : List ℕ} {p : Process}

theorem zoom_of {part : σ → τ} {update : τ → σ → σ} {x : Start τ α} {s : σ} {e : Ends α} {t : τ}
    (h : x (part s) = (e, t)) : Start.zoom part update x s = (e, update t s) := by
  rw [Start.zoom, h]

/-- What is settled stays so where the other blocks change. -/
theorem Clearable.move {s : Servers} (h : Clearable rest s) : ∃ ids, Owns s.heap (ids ++ rest) ∧
    ∀ {h' rest'}, Owns h' (ids ++ rest') → Clearable rest' { s with heap := h' } := by
  obtain ⟨block, made, n, ⟨hserver, hnum, ho⟩, hshort⟩ := h
  refine ⟨pids made ++ [block], by simpa using ho, fun ho' => ?_⟩
  exact ⟨block, made, n, ⟨hserver, hnum, by simpa using ho'⟩, hshort⟩

/-- What is doomed stays so. -/
theorem Doomed.move {s : Servers} (h : Doomed rest s) : ∃ ids, Owns s.heap (ids ++ rest) ∧
    ∀ {h' rest'}, Owns h' (ids ++ rest') → Doomed rest' { s with heap := h' } := by
  rcases h with ⟨hserver, hnum, ho⟩ | ⟨block, made, n, ⟨hserver, hnum, ho⟩, hlong⟩
  · exact ⟨[], ho, fun ho' => .inl ⟨hserver, hnum, ho'⟩⟩
  · refine ⟨pids made ++ [block], by simpa using ho, fun ho' => ?_⟩
    exact .inr ⟨block, made, n, ⟨hserver, hnum, by simpa using ho'⟩, hlong⟩

/-- The blocks that `monitor.c` holds. -/
def Process.MonitorsOwn (rest : List ℕ) (p : Process) : Prop :=
  p.gMonitorgroup = none ∨
    ∃ block es, p.gMonitorgroup = some (block, es) ∧ es.length = p.gMonitorgroupNum ∧
      rest = [block]

/-- What is tidy holds one block at most. -/
theorem Monitors.Tidy.owns {ids : List ℕ} {m : Monitors} (h : m.Tidy ids) :
    ∃ rest, Owns m.heap (ids ++ rest) ∧ (p.setMonitors m).MonitorsOwn rest := by
  rcases h with ⟨hnone, ho⟩ | ⟨block, es, hsome, hlen, ho⟩
  · exact ⟨[], by simpa using ho, .inl hnone⟩
  · exact ⟨[block], ho.perm (List.perm_append_singleton block ids).symm,
      .inr ⟨block, es, hsome, hlen, rfl⟩⟩

/-- **`newiup_exit` clears up** what is settled. -/
theorem newiupExit_done (hs : Emptied rest p.servers ∨ Clearable rest p.servers)
    (hm : p.MonitorsOwn rest) : (Process.newiupExit p).1 = .done () := by
  have hservers : ∃ s', Servers.serversExit p.servers = (.done (), s') ∧ Emptied rest s' := by
    rcases hs with hs | hs
    · exact ⟨p.servers, hs.exit, hs⟩
    · exact hs.exit
  obtain ⟨s', hexit, hcleared⟩ := hservers
  have htidy : ({ p with servers := s' } : Process).monitors.Tidy [] ∨
      p.gMonitorgroup = none := by
    rcases hm with hnone | ⟨block, es, hsome, hlen, rfl⟩
    · exact .inr hnone
    · exact .inl (.inr ⟨block, es, hsome, hlen, hcleared.owns⟩)
  have hmonitors : ∃ m', Monitors.monitorGroupExit ({ p with servers := s' } : Process).monitors =
      (.done (), m') := by
    rcases htidy with htidy | hnone
    · obtain ⟨m', hrun, -⟩ := htidy.exit
      exact ⟨m', hrun⟩
    · have htidy : ({ p with servers := s' } : Process).monitors.Tidy rest :=
        .inl ⟨hnone, hcleared.owns⟩
      obtain ⟨m', hrun, -⟩ := htidy.exit
      exact ⟨m', hrun⟩
  obtain ⟨m', hrun⟩ := hmonitors
  unfold Process.newiupExit
  rw [Start.bind_of_done (zoom_of hexit), Start.bind_of_done (zoom_of hrun)]
  rfl

/-- **It does what is undefined** on what is doomed. -/
theorem newiupExit_crash (hs : Doomed rest p.servers) : (Process.newiupExit p).1 = .crash := by
  unfold Process.newiupExit
  exact Start.bind_crash_iff.mpr (.inl hs.exit)

/-- How a start ends, by how its checks go. -/
inductive StartEnd : Verdict → Ends Unit × Process → Prop
  | clears {v : Verdict} {r : Ends Unit} {q : Process} (hv : v ≠ .crash) (hr : r ≠ .crash)
      (hq : (Process.newiupExit q).1 = .done ()) : StartEnd v (r, q)
  | exits {c : ℤ} {q : Process} : StartEnd .exit (.exits c, q)
  | doomed {r : Ends Unit} {q : Process} (hr : ∀ c, r ≠ .exits c)
      (hq : (Process.newiupExit q).1 = .crash) : StartEnd .crash (r, q)
  | crash {q : Process} : StartEnd .crash (.crash, q)

/-- A start is clean where its checks crash nowhere. -/
theorem StartEnd.clean_iff {v : Verdict}
    (h : StartEnd v (Process.cfgInit env.lists root env.process)) :
    CleanStart root env ↔ v ≠ .crash := by
  unfold CleanStart
  generalize Process.cfgInit env.lists root env.process = r at h
  cases h with
  | clears hv hr hp => exact iff_of_true ⟨hr, fun _ => hp⟩ hv
  | exits => exact iff_of_true ⟨nofun, fun h => absurd rfl (h _)⟩ nofun
  | doomed hr hp =>
    refine iff_of_false (fun h => ?_) (not_not_intro rfl)
    exact absurd (hp.symm.trans (h.2 hr)) nofun
  | crash => exact iff_of_false (fun h => h.1 rfl) (not_not_intro rfl)

/-- The groups end no process, and where they do nothing undefined they add one block at
most. -/
theorem groups_cases {ids : List ℕ} {lists : ℕ → ListMallocs} (ho : Owns p.servers.heap ids)
    (hm : p.gMonitorgroup = none)
    (hlog : p.globals.config.logDirPath.length < NEWIUP_PATH_LEN) :
    ∃ r m', Start.zoom Process.monitors Process.setMonitors (monitorGroupInit lists
        p.servers.realServers p.globals.config.logDirPath root) p = (r, p.setMonitors m') ∧
      r.verdict = firstStop (groupsChecks lists (p.servers.realServers.map RealServer.name) root
        p.servers.heap.answer) ∧
      (∀ c, r ≠ .exits c) ∧
      (r ≠ .crash → ∃ rest, Owns m'.heap (ids ++ rest) ∧ (p.setMonitors m').MonitorsOwn rest) := by
  obtain ⟨hv, htidy⟩ := @monitorGroupInit_end lists p.servers.realServers
    p.globals.config.logDirPath root ids p.monitors hm ho hlog
  refine ⟨_, _, rfl, hv, fun c hc => ?_, fun hr => (htidy hr).owns⟩
  refine @groupsChecks_ne_exit lists root (p.servers.realServers.map RealServer.name)
    p.servers.heap.answer (hv.symm.trans ?_)
  rw [hc]
  rfl

/-- The groups, after servers that can be cleared up. -/
theorem groups_end (hs : Clearable [] p.servers) (hm : p.gMonitorgroup = none)
    (hlog : p.globals.config.logDirPath.length < NEWIUP_PATH_LEN) {lists : ℕ → ListMallocs} :
    StartEnd (firstStop (groupsChecks lists (p.servers.realServers.map RealServer.name) root
        p.servers.heap.answer))
      (Start.zoom Process.monitors Process.setMonitors (monitorGroupInit lists
        p.servers.realServers p.globals.config.logDirPath root) p) := by
  obtain ⟨ids, ho, hmove⟩ := hs.move
  rw [List.append_nil] at ho
  obtain ⟨r, m', hrun, hv, hexit, howns⟩ := @groups_cases root p ids lists ho hm hlog
  rw [hrun, ← hv]
  have hclear : r ≠ .crash → (Process.newiupExit (p.setMonitors m')).1 = .done () := by
    intro hr
    obtain ⟨rest, ho', hown⟩ := howns hr
    exact newiupExit_done (.inr (hmove ho')) hown
  rcases r with _ | _ | c | _
  · exact .clears nofun nofun (hclear nofun)
  · exact .clears nofun nofun (hclear nofun)
  · exact absurd rfl (hexit c)
  · exact .crash

/-- The groups, after servers that cannot. -/
theorem groups_doomed (hs : Doomed [] p.servers) (hm : p.gMonitorgroup = none)
    (hlog : p.globals.config.logDirPath.length < NEWIUP_PATH_LEN) {lists : ℕ → ListMallocs} :
    StartEnd .crash
      (Start.zoom Process.monitors Process.setMonitors (monitorGroupInit lists
        p.servers.realServers p.globals.config.logDirPath root) p) := by
  obtain ⟨ids, ho, hmove⟩ := hs.move
  rw [List.append_nil] at ho
  obtain ⟨r, m', hrun, -, hexit, howns⟩ := @groups_cases root p ids lists ho hm hlog
  rw [hrun]
  by_cases hr : r = .crash
  · rw [hr]
    exact .crash
  · obtain ⟨rest, ho', -⟩ := howns hr
    exact .doomed hexit (newiupExit_crash (hmove ho'))

/-- The servers, before there are groups. -/
theorem servers_end (hs : Emptied [] p.servers) (hm : p.gMonitorgroup = none)
    (hlog : p.globals.config.logDirPath.length < NEWIUP_PATH_LEN) {lists : ℕ → ListMallocs} :
    StartEnd (firstStop (serversChecks root p.servers.heap.mallocs ++ groupsChecks lists
        (serverNames root) root ((mallocsAfter root p.servers.heap.mallocs).headD true)))
      ((do
        Start.zoom Process.servers (fun servers p => { p with servers }) (serversInit root)
        let p ← Start.get
        Start.zoom Process.monitors Process.setMonitors
          (monitorGroupInit lists p.servers.realServers p.globals.config.logDirPath root)) p) := by
  have hinit := @serversInit_end [] p.servers root hs
  rw [firstStop_append]
  rcases hrun : serversInit root p.servers with ⟨r, s'⟩
  have hzoom : Start.zoom Process.servers (fun servers p => { p with servers }) (serversInit root)
    p = (r, { p with servers := s' }) := zoom_of hrun
  rw [hrun] at hinit
  generalize firstStop (serversChecks root p.servers.heap.mallocs) = v at hinit ⊢
  -- the groups come after the servers; what was set up before an error is cleared up
  cases hinit with
  | done hsettled hnames hmallocs =>
    rw [Start.bind_of_done hzoom, Start.get_bind, ← hnames, ← hmallocs]
    exact @groups_end root { p with servers := s' } hsettled hm hlog lists
  | failed hcleared =>
    rw [Start.bind_of_failed hzoom]
    exact .clears nofun nofun (newiupExit_done (.inl hcleared) (.inl hm))
  | doomed hdoomed hr =>
    rcases hr with rfl | rfl
    · rw [Start.bind_of_done hzoom, Start.get_bind]
      exact @groups_doomed root { p with servers := s' } hdoomed hm hlog lists
    · rw [Start.bind_of_failed hzoom]
      exact .doomed nofun (newiupExit_crash hdoomed)
  | crash =>
    rw [Start.bind_of_crash hzoom]
    exact .crash

/-- **How `cfg_init` ends** is how its checks go. -/
theorem cfgInit_end : StartEnd (firstStop (startChecks root env))
    (Process.cfgInit env.lists root env.process) := by
  have hcleared : Emptied [] env.process.servers :=
    ⟨rfl, rfl, List.nodup_nil, nofun, nofun⟩
  have hreturns : ∀ (q : Process), q.servers = env.process.servers → q.gMonitorgroup = none →
      (Process.newiupExit q).1 = .done () := by
    intro q hq hm
    exact newiupExit_done (.inl (hq ▸ hcleared)) (.inl hm)
  obtain ⟨hv, hlog⟩ := @globalCfgInit_end env.opens env.world env.process.globals root
    ⟨rfl, rfl, nofun, rfl, rfl, rfl⟩
  unfold Process.cfgInit startChecks
  rw [firstStop_append, ← hv, firstStop_append]
  -- the settings, then the database, then the servers and the groups
  rcases hglobal : globalCfgInit root env.process.globals with ⟨a | _ | c | _, g⟩ <;>
    rw [hglobal] at hlog
  · have hdb := (checks_getDBConfig root).verdict env.process.db trivial
    have hzoom : ∀ {e db'}, getDBConfig root env.process.db = (e, db') →
        Start.zoom Process.db (fun db p => { p with db }) (getDBConfig root)
          { env.process with globals := g } = (e, { env.process with globals := g, db := db' }) :=
      fun hrun => zoom_of hrun
    rw [Start.bind_of_done (zoom_of hglobal), ← hdb]
    rcases hrun : getDBConfig root env.process.db with ⟨a' | _ | c | _, db⟩
    · rw [Start.bind_of_done (hzoom hrun)]
      exact @servers_end root { env.process with globals := g, db := db } hcleared rfl
        (hlog a g rfl) env.lists
    · rw [Start.bind_of_failed (hzoom hrun)]
      exact .clears nofun nofun (hreturns _ rfl rfl)
    · rw [Start.bind_of_exits (hzoom hrun)]
      exact .exits
    · rw [Start.bind_of_crash (hzoom hrun)]
      exact .crash
  · rw [Start.bind_of_failed (zoom_of hglobal)]
    exact .clears nofun nofun (hreturns _ rfl rfl)
  · rw [Start.bind_of_exits (zoom_of hglobal)]
    exact .exits
  · rw [Start.bind_of_crash (zoom_of hglobal)]
    exact .crash

end Process

/-- Nothing fails while the program starts. -/
def StartEnv.good : StartEnv where
  world := ⟨Fs.empty.make (resolve "/".toList) (newDir DIR_MODE), []⟩
  opens := true
  mallocs := []
  lists _ := ⟨true, true, true, fun _ => true, fun _ => true, fun _ => true, fun _ => true⟩

end Newiup
