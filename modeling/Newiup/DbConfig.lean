import Newiup.Conf

/-!
# The settings of the database

`getDBConfig` reads six keys below `DBServer`.  All six look-ups share one variable, which
a missing key leaves as the key before set it, so that only the first look-up can find out
that its key is missing: later a field gets the value of an earlier key.

The variable begins as a null pointer, and that is what each of the tests looks for.  Once
a key with a value has been found it points to a value, and a later test fails only for a
key that is there without one.  What a missing key leaves is the value of the last key
before it that was there.

## Main definitions

* `DbConfig`, `getDBConfig` — the settings, and how they are read.
* `FromOwnKeys` — each setting has the value of its own key.
* `KeysSuffice` — the keys for which the code does that.

## Main results

* `db_settings_iff` — **the settings come from their own keys exactly when the keys
  suffice.**
-/

namespace Newiup

/-- `db_config_s`. -/
structure DbConfig where
  /-- `DBHost`. -/
  dbHost : CString
  /-- `DBUser`. -/
  dbUser : CString
  /-- `DBPassWord`. -/
  dbPassWord : CString
  /-- `DBName`. -/
  dbName : CString
  /-- `DBPort`, an `unsigned int`. -/
  dbPort : ℕ
  /-- `DBSocket`. -/
  dbSocket : CString
  deriving DecidableEq

/-- What `memset` leaves of the settings. -/
def DbConfig.zero : DbConfig := ⟨[], [], [], [], 0, []⟩

/-- The length of the arrays of `db_config_s`. -/
def dbFieldLen : ℕ := 32

/-- `switch_to_s`. -/
def switchToS (src : CString) : CString := src.map fun c => if c = '-' then '_' else c

/-- The assignment of `atoi(val)` to `DBPort`. -/
def portOf (val : CString) : ℕ := (atoi val % 2 ^ 32).toNat

/-- One of the settings that `getDBConfig` asks for: without a value it returns, with one
it copies the value into the field. -/
def dbField (node : Option ConfNode) (key : CString) (set : CString → DbConfig → DbConfig)
    (val : Option CString) : Start DbConfig (Option CString) := do
  let found ← confGetChildValue node key val
  match found.2 with
  | none => Start.fail
  | some v =>
    let copy ← strcpy dbFieldLen v
    Start.modify (set copy)
    pure found.2

/-- `DBPort`, which may be missing. -/
def dbPortField (node : Option ConfNode) (val : Option CString) :
    Start DbConfig (Option CString) := do
  let found ← confGetChildValue node "DBPort".toList val
  match found.2 with
  | none => pure found.2
  | some v =>
    Start.modify fun c => { c with dbPort := portOf v }
    pure found.2

/-- `DBSocket`, which may be missing. -/
def dbSocketField (node : Option ConfNode) (val : Option CString) : Start DbConfig Unit := do
  let found ← confGetChildValue node "DBSocket".toList val
  match found.2 with
  | none => pure ()
  | some v =>
    let copy ← strcpy dbFieldLen v
    Start.modify fun c => { c with dbSocket := copy }

/-- `getDBConfig`: its `-1` is an error, its `0` a return. -/
def getDBConfig (root : ConfNode) : Start DbConfig Unit := do
  Start.modify fun _ => DbConfig.zero
  let node := confGetNode root "DBServer".toList
  let val ← dbField node "DBHost".toList (fun v c => { c with dbHost := v }) none
  let val ← dbField node "DBUser".toList (fun v c => { c with dbUser := switchToS v }) val
  let val ← dbField node "DBPassWord".toList (fun v c => { c with dbPassWord := v }) val
  let val ← dbField node "DBName".toList (fun v c => { c with dbName := v }) val
  let val ← dbPortField node val
  dbSocketField node val

/-! ### What the settings should be -/

/-- The keys that must have a value. -/
def requiredKeys : List CString :=
  ["DBHost".toList, "DBUser".toList, "DBPassWord".toList, "DBName".toList]

/-- The values that go into arrays fit into them. -/
def ShortValues (node : ConfNode) : Prop :=
  ∀ key ∈ requiredKeys ++ ["DBSocket".toList], ∀ v ∈ node.valueOf key, v.length < dbFieldLen

instance (node : ConfNode) : Decidable (ShortValues node) :=
  inferInstanceAs (Decidable (∀ key ∈ requiredKeys ++ ["DBSocket".toList],
    ∀ v ∈ node.valueOf key, v.length < dbFieldLen))

/-- **The settings come from their own keys**, in a run of `getDBConfig` that ends so.  The
fields are as the keys of the same names say, up to the replacement in the user's name; a
setting that may be missing is then empty, or zero. -/
structure FromOwnKeys (node : ConfNode) (out : Ends Unit × DbConfig) : Prop where
  /-- It returns, with an error or without. -/
  returns : out.1 = .failed ∨ out.1 = .done ()
  /-- The error says that one of the four values is missing. -/
  failed_iff : out.1 = .failed ↔ ∃ key ∈ requiredKeys, node.valueOf key = none
  host : out.1 = .done () → node.valueOf "DBHost".toList = some out.2.dbHost
  user : out.1 = .done () → (node.valueOf "DBUser".toList).map switchToS = some out.2.dbUser
  passWord : out.1 = .done () → node.valueOf "DBPassWord".toList = some out.2.dbPassWord
  name : out.1 = .done () → node.valueOf "DBName".toList = some out.2.dbName
  port : out.1 = .done () → out.2.dbPort = (node.valueOf "DBPort".toList).elim 0 portOf
  socket : out.1 = .done () → out.2.dbSocket = (node.valueOf "DBSocket".toList).getD []

/-- **The keys for which each setting is its own**: either an error is seen, because the
host has no value or one of the other three keys is there without one; or all four have
values, and a missing port or socket inherits nothing that shows. -/
def KeysSuffice (node : ConfNode) : Prop :=
  node.valueOf "DBHost".toList = none ∨
  node.Bare "DBUser".toList ∨ node.Bare "DBPassWord".toList ∨ node.Bare "DBName".toList ∨
  ((∀ key ∈ requiredKeys, node.valueOf key ≠ none) ∧
    (confNodeLookupChild node "DBPort".toList ≠ none ∨
      (node.valueOf "DBName".toList).elim 0 portOf = 0) ∧
    (confNodeLookupChild node "DBSocket".toList ≠ none ∨
      (node.carry "DBPort".toList (node.valueOf "DBName".toList)).getD [] = []))

/-! ### The run -/

section Run

variable {node : ConfNode} {key : CString} {val : Option CString}
  {set : CString → DbConfig → DbConfig} {c : DbConfig}

theorem dbField_none (h : node.carry key val = none) :
    dbField (some node) key set val c = (.failed, c) := by
  rw [dbField, confGetChildValue_some, Start.pure_bind]
  simp only [h, Start.fail_apply]

theorem dbField_some {v : CString} (h : node.carry key val = some v) (hv : v.length < dbFieldLen) :
    dbField (some node) key set val c = (.done (some v), set v c) := by
  rw [dbField, confGetChildValue_some, Start.pure_bind]
  simp only [h, strcpy_of_lt hv, Start.pure_bind, Start.modify_bind, Start.pure_apply]

/-- The port's field, and what is handed on. -/
theorem dbPortField_eq : dbPortField (some node) val c =
    (.done (node.carry "DBPort".toList val),
      { c with dbPort := (node.carry "DBPort".toList val).elim c.dbPort portOf }) := by
  rw [dbPortField, confGetChildValue_some, Start.pure_bind]
  cases h : node.carry "DBPort".toList val with
  | none => simp only [Start.pure_apply, Option.elim]
  | some v => simp only [Start.modify_bind, Start.pure_apply, Option.elim]

theorem dbSocketField_eq
    (hv : ∀ v, node.carry "DBSocket".toList val = some v → v.length < dbFieldLen) :
    dbSocketField (some node) val c =
      (.done (), { c with dbSocket := (node.carry "DBSocket".toList val).getD c.dbSocket }) := by
  rw [dbSocketField, confGetChildValue_some, Start.pure_bind]
  cases h : node.carry "DBSocket".toList val with
  | none => simp only [Start.pure_apply, Option.getD]
  | some v => simp only [strcpy_of_lt (hv v h), Start.pure_bind, Start.modify_apply, Option.getD]

theorem dbSocketField_overflow {v : CString} (h : node.carry "DBSocket".toList val = some v)
    (hv : dbFieldLen ≤ v.length) : (dbSocketField (some node) val c).1 = .crash := by
  rw [dbSocketField, confGetChildValue_some, Start.pure_bind]
  simp only [h, strcpy_of_le hv, Start.crash_bind]

variable {root : ConfNode}

/-- The four values that are copied before the port, and the state they leave. -/
structure Filled (node : ConfNode) (host user passWord name : CString) : Prop where
  host_eq : node.carry "DBHost".toList none = some host
  user_eq : node.carry "DBUser".toList (some host) = some user
  passWord_eq : node.carry "DBPassWord".toList (some user) = some passWord
  name_eq : node.carry "DBName".toList (some passWord) = some name

variable {host user passWord name : CString}

/-- A carried value of the four is the own value of one of them. -/
theorem short_of_carry (hshort : ShortValues node) (hkey : key ∈ requiredKeys)
    (hval : ∀ v, val = some v → v.length < dbFieldLen) {v : CString}
    (h : node.carry key val = some v) : v.length < dbFieldLen :=
  (ConfNode.carry_eq_some h).elim
    (fun hown => hshort key (List.mem_append_left _ hkey) v hown) (hval v)

theorem Filled.short (h : Filled node host user passWord name) (hshort : ShortValues node) :
    host.length < dbFieldLen ∧ user.length < dbFieldLen ∧ passWord.length < dbFieldLen ∧
      name.length < dbFieldLen := by
  have hhost := short_of_carry hshort (by simp [requiredKeys])
    (fun v hv => absurd hv (by simp)) h.host_eq
  have huser := short_of_carry hshort (by simp [requiredKeys])
    (fun v hv => by cases hv; exact hhost) h.user_eq
  have hpass := short_of_carry hshort (by simp [requiredKeys])
    (fun v hv => by cases hv; exact huser) h.passWord_eq
  exact ⟨hhost, huser, hpass, short_of_carry hshort (by simp [requiredKeys])
    (fun v hv => by cases hv; exact hpass) h.name_eq⟩

/-- **An error is returned** where the host has no value, or one of the three keys after it
is there without one. -/
theorem getDBConfig_failed (hnode : confGetNode root "DBServer".toList = some node)
    (hshort : ShortValues node)
    (h : node.valueOf "DBHost".toList = none ∨ node.Bare "DBUser".toList ∨
      node.Bare "DBPassWord".toList ∨ node.Bare "DBName".toList) :
    (getDBConfig root c).1 = .failed := by
  have key_mem : ∀ key ∈ requiredKeys, ∀ {a v : CString}, a.length < dbFieldLen →
      node.carry key (some a) = some v → v.length < dbFieldLen := fun key hkey a v ha hv =>
    short_of_carry hshort hkey (fun w hw => by cases hw; exact ha) hv
  rw [getDBConfig, Start.modify_bind, hnode]
  cases hhost : node.carry "DBHost".toList none with
  | none => rw [Start.bind_of_failed (dbField_none hhost)]
  | some a =>
    have ha := short_of_carry hshort (by simp [requiredKeys])
      (fun v hv => absurd hv (by simp)) hhost
    rw [Start.bind_of_done (dbField_some hhost ha)]
    cases huser : node.carry "DBUser".toList (some a) with
    | none => rw [Start.bind_of_failed (dbField_none huser)]
    | some u =>
      have hu := key_mem _ (by simp [requiredKeys]) ha huser
      rw [Start.bind_of_done (dbField_some huser hu)]
      cases hpass : node.carry "DBPassWord".toList (some u) with
      | none => rw [Start.bind_of_failed (dbField_none hpass)]
      | some p =>
        have hp := key_mem _ (by simp [requiredKeys]) hu hpass
        rw [Start.bind_of_done (dbField_some hpass hp)]
        cases hname : node.carry "DBName".toList (some p) with
        | none => rw [Start.bind_of_failed (dbField_none hname)]
        | some n =>
          -- with four carried values none of the causes is there
          rw [← ConfNode.carry_none, hhost, ← ConfNode.carry_eq_none_iff, huser,
            ← ConfNode.carry_eq_none_iff, hpass, ← ConfNode.carry_eq_none_iff, hname] at h
          simp at h

/-- Without such a cause the four fields are filled. -/
theorem exists_filled (h : ¬(node.valueOf "DBHost".toList = none ∨ node.Bare "DBUser".toList ∨
    node.Bare "DBPassWord".toList ∨ node.Bare "DBName".toList)) :
    ∃ host user passWord name, Filled node host user passWord name := by
  simp only [not_or] at h
  obtain ⟨hhost, huser, hpass, hname⟩ := h
  rw [← ConfNode.carry_none] at hhost
  obtain ⟨a, ha⟩ := Option.ne_none_iff_exists'.mp hhost
  obtain ⟨u, hu⟩ := Option.ne_none_iff_exists'.mp (mt ConfNode.carry_eq_none_iff.mp huser)
  obtain ⟨p, hp⟩ := Option.ne_none_iff_exists'.mp (mt ConfNode.carry_eq_none_iff.mp hpass)
  obtain ⟨n, hn⟩ := Option.ne_none_iff_exists'.mp (mt ConfNode.carry_eq_none_iff.mp hname)
  exact ⟨a, u, p, n, ha, hu, hp, hn⟩

/-- **With the four fields filled** the port and the socket are read. -/
theorem getDBConfig_filled (hnode : confGetNode root "DBServer".toList = some node)
    (hshort : ShortValues node) (h : Filled node host user passWord name) :
    getDBConfig root c = dbSocketField (some node) (node.carry "DBPort".toList (some name))
      { dbHost := host, dbUser := switchToS user, dbPassWord := passWord, dbName := name,
        dbPort := (node.carry "DBPort".toList (some name)).elim 0 portOf, dbSocket := [] } := by
  obtain ⟨hh, hu, hp, hn⟩ := h.short hshort
  rw [getDBConfig, Start.modify_bind, hnode, Start.bind_of_done (dbField_some h.host_eq hh),
    Start.bind_of_done (dbField_some h.user_eq hu),
    Start.bind_of_done (dbField_some h.passWord_eq hp),
    Start.bind_of_done (dbField_some h.name_eq hn), Start.bind_of_done dbPortField_eq]
  rfl

/-- Four own values are the ones that are copied. -/
theorem Filled.own_iff (h : Filled node host user passWord name) :
    (∀ key ∈ requiredKeys, node.valueOf key ≠ none) ↔
      node.valueOf "DBHost".toList = some host ∧ node.valueOf "DBUser".toList = some user ∧
        node.valueOf "DBPassWord".toList = some passWord ∧
        node.valueOf "DBName".toList = some name := by
  have own : ∀ {key v : CString} {val : Option CString}, node.carry key val = some v →
      (node.valueOf key ≠ none ↔ node.valueOf key = some v) := by
    intro key v val hc
    constructor
    · intro hne
      obtain ⟨w, hw⟩ := Option.ne_none_iff_exists'.mp hne
      rw [hw, ← ConfNode.carry_of_valueOf hw, hc]
    · intro hw
      rw [hw]
      exact Option.some_ne_none v
  simp only [requiredKeys, List.forall_mem_cons, List.not_mem_nil, false_implies, implies_true,
    and_true, own h.host_eq, own h.user_eq, own h.passWord_eq, own h.name_eq]

/-- With the four fields filled, the settings are right when nothing is inherited. -/
theorem Filled.fromOwnKeys_iff (h : Filled node host user passWord name)
    (hnode : confGetNode root "DBServer".toList = some node) (hshort : ShortValues node) :
    FromOwnKeys node (getDBConfig root c) ↔
      (∀ key ∈ requiredKeys, node.valueOf key ≠ none) ∧
      (confNodeLookupChild node "DBPort".toList ≠ none ∨ (some name).elim 0 portOf = 0) ∧
      (confNodeLookupChild node "DBSocket".toList ≠ none ∨
        (node.carry "DBPort".toList (some name)).getD [] = []) := by
  have hport : (node.carry "DBPort".toList (some name)).elim 0 portOf =
        (node.valueOf "DBPort".toList).elim 0 portOf ↔
      confNodeLookupChild node "DBPort".toList ≠ none ∨ (some name).elim 0 portOf = 0 :=
    ConfNode.carry_own_iff fun v => v.elim 0 portOf
  have hsocket : (node.carry "DBSocket".toList (node.carry "DBPort".toList (some name))).getD [] =
        (node.valueOf "DBSocket".toList).getD [] ↔
      confNodeLookupChild node "DBSocket".toList ≠ none ∨
        (node.carry "DBPort".toList (some name)).getD [] = [] :=
    ConfNode.carry_own_iff fun v => v.getD []
  rw [getDBConfig_filled hnode hshort h]
  -- what is copied for the socket is its own value, or inherited and then maybe too long
  by_cases hv : ∀ v,
      node.carry "DBSocket".toList (node.carry "DBPort".toList (some name)) = some v →
        v.length < dbFieldLen
  · rw [dbSocketField_eq hv]
    constructor
    · intro hown
      have hall : ∀ key ∈ requiredKeys, node.valueOf key ≠ none := by
        intro key hkey hnone
        have hfailed := hown.failed_iff.mpr ⟨key, hkey, hnone⟩
        cases hfailed
      exact ⟨hall, hport.mp (hown.port rfl), hsocket.mp (hown.socket rfl)⟩
    · rintro ⟨hall, hp, hs⟩
      obtain ⟨hhost, huser, hpass, hname⟩ := h.own_iff.mp hall
      exact
        { returns := .inr rfl
          failed_iff := by
            constructor
            · intro hf
              cases hf
            · rintro ⟨key, hkey, hnone⟩
              exact absurd hnone (hall key hkey)
          host := fun _ => hhost
          user := fun _ => by rw [huser]; rfl
          passWord := fun _ => hpass
          name := fun _ => hname
          port := fun _ => hport.mpr hp
          socket := fun _ => hsocket.mpr hs }
  · -- the inherited value does not fit: the socket's key is missing, and the value not empty
    simp only [not_forall, not_lt] at hv
    obtain ⟨v, hcarry, hlen⟩ := hv
    constructor
    · intro hown
      rcases hown.returns with hr | hr <;> rw [dbSocketField_overflow hcarry hlen] at hr <;>
        cases hr
    · rintro ⟨-, -, hs⟩
      by_cases hkey : confNodeLookupChild node "DBSocket".toList = none
      · rw [ConfNode.carry_of_missing hkey] at hcarry
        rw [hcarry] at hs
        have hempty : v = [] := hs.resolve_left fun hne => hne hkey
        rw [hempty] at hlen
        simp [dbFieldLen] at hlen
      · have hown : node.carry "DBSocket".toList (node.carry "DBPort".toList (some name)) =
            node.valueOf "DBSocket".toList := (ConfNode.carry_own_iff id).mpr (.inl hkey)
        rw [hown] at hcarry
        exact absurd (hshort _ (by simp) v hcarry) (by omega)

/-- **Database settings come from their own keys** exactly when the keys suffice: a host
without a value or a later one there without one is reported; otherwise all four must have
values, and a missing port or socket must inherit nothing that shows. -/
theorem db_settings_iff (root node : ConfNode)
    (hnode : confGetNode root "DBServer".toList = some node) (hshort : ShortValues node)
    (c : DbConfig) : FromOwnKeys node (getDBConfig root c) ↔ KeysSuffice node := by
  by_cases hE : node.valueOf "DBHost".toList = none ∨ node.Bare "DBUser".toList ∨
      node.Bare "DBPassWord".toList ∨ node.Bare "DBName".toList
  · have hfailed := getDBConfig_failed (c := c) hnode hshort hE
    refine ⟨fun _ => ?_, fun _ => ?_⟩
    · rcases hE with h | h | h | h
      · exact .inl h
      · exact .inr (.inl h)
      · exact .inr (.inr (.inl h))
      · exact .inr (.inr (.inr (.inl h)))
    · have hmissing : ∃ key ∈ requiredKeys, node.valueOf key = none := by
        rcases hE with h | h | h | h
        · exact ⟨_, by simp [requiredKeys], h⟩
        · exact ⟨_, by simp [requiredKeys], h.valueOf⟩
        · exact ⟨_, by simp [requiredKeys], h.valueOf⟩
        · exact ⟨_, by simp [requiredKeys], h.valueOf⟩
      refine ⟨.inl hfailed, ⟨fun _ => hmissing, fun _ => hfailed⟩, ?_, ?_, ?_, ?_, ?_, ?_⟩ <;>
        · intro hdone
          rw [hfailed] at hdone
          cases hdone
  · obtain ⟨host, user, passWord, name, h⟩ := exists_filled hE
    rw [h.fromOwnKeys_iff hnode hshort, KeysSuffice]
    simp only [not_or] at hE
    rw [or_iff_right hE.1, or_iff_right hE.2.1, or_iff_right hE.2.2.1, or_iff_right hE.2.2.2]
    refine and_congr_right fun hall => ?_
    rw [(h.own_iff.mp hall).2.2.2]

end Run

/-! ### Two trees -/

/-- The settings with the socket's key left out. -/
def noSocket : ConfNode :=
  ⟨"DBServer".toList, none, [.key "DBHost" "127.0.0.1", .key "DBUser" "up-root",
    .key "DBPassWord" "secret", .key "DBName" "newiup", .key "DBPort" "3306"]⟩

/-- The settings with all keys. -/
def allKeys : ConfNode := { noSocket with head := noSocket.head ++ [.key "DBSocket" "/tmp/db"] }

theorem db_settings_iff_allKeys :
    FromOwnKeys allKeys (getDBConfig (treeOf allKeys) DbConfig.zero) :=
  (db_settings_iff (treeOf allKeys) allKeys
    (confGetNode_treeOf (by decide +kernel) (by decide +kernel)) (by decide +kernel)
    DbConfig.zero).mpr
    (.inr (.inr (.inr (.inr ⟨by decide +kernel, .inl (by decide +kernel),
      .inl (by decide +kernel)⟩))))

/-- Without a socket's key the socket is the port. -/
theorem socket_inherits_port :
    ¬∀ root node : ConfNode, confGetNode root "DBServer".toList = some node → ShortValues node →
      ∀ c, FromOwnKeys node (getDBConfig root c) := by
  intro h
  have hown := h (treeOf noSocket) noSocket
    (confGetNode_treeOf (by decide +kernel) (by decide +kernel)) (by decide +kernel) DbConfig.zero
  have hsocket := hown.socket (by decide +kernel)
  revert hsocket
  decide +kernel

end Newiup
