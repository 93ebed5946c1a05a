import Newiup.Config
import Newiup.Checked

/-!
# The server lists of a monitor group

`servers-primer` and `servers-backup` are split at `|` into groups and each group at `,`
into names, and `get_upload_group_server_group_list` looks the names up.  Allocations
succeed here; every access to an array is checked.

## Main definitions

* `StrSplit`, `strSplitFunc` — the pieces of a string.
* `getUploadGroupServerGroupList` — the function, with its error label and its accesses.
* `ListExact` — the lists are the ones the two strings name.
* `ListFits` — the strings for which the function is right.

## Main results

* `exists_serverGroupQueue` — what the function returns is a list of server groups.
* `server_list_exact_iff` — **the lists are exact and the accesses in bounds if and only
  if the strings fit.**
-/

namespace Newiup

/-! ### Splitting -/

/-- `struct str_split`. -/
structure StrSplit where
  /-- `count`. -/
  count : ℕ
  /-- `str_array`; a null pointer is an array without entries. -/
  strArray : List CString
  deriving DecidableEq

/-- `str_split_func`. -/
def strSplitFunc (src : Option CString) (delimiter : Char) : StrSplit :=
  match src with
  | none => ⟨0, []⟩
  | some [] => ⟨0, []⟩
  | some (c :: s) => ⟨(c :: s).count delimiter + 1, (c :: s).splitOn delimiter⟩

/-- `str_split_free`; `count` stays. -/
def strSplitFree (split : StrSplit) : StrSplit := { split with strArray := [] }

theorem length_splitOn (delimiter : Char) (s : CString) :
    (s.splitOn delimiter).length = s.count delimiter + 1 := by
  induction s with
  | nil => rfl
  | cons c s ih =>
    rw [List.splitOn_eq_splitOnP, List.splitOnP_cons_eq_if_modifyHead, ← List.splitOn_eq_splitOnP]
    split
    · next h => simp [ih, eq_of_beq h]
    · next h => simp [ih, List.count_cons, h]

/-- `count` is the length of `str_array`. -/
@[simp] theorem length_strArray (src : Option CString) (delimiter : Char) :
    (strSplitFunc src delimiter).strArray.length = (strSplitFunc src delimiter).count := by
  unfold strSplitFunc
  split
  · rfl
  · rfl
  · exact length_splitOn _ _

/-- The groups of a list of servers. -/
def groupsOf (s : Option CString) : List CString := (strSplitFunc s '|').strArray

/-- The names in a group; an empty string has none. -/
def itemsOf (s : CString) : List CString := (strSplitFunc (some s) ',').strArray

/-- The string begins with `-`. -/
def Dashed (s : CString) : Prop := s.head? = some '-'

instance (s : CString) : Decidable (Dashed s) := inferInstanceAs (Decidable (_ = _))

/-! ### The function -/

/-- `get_server_by_name`. -/
def getServerByName (servers : List RealServer) (name : CString) : Option RealServer :=
  servers.find? fun rs => rs.name == name

/-- `server_group_queue`, as the function fills it; the lists are the allocated arrays. -/
structure SgEntry where
  /-- `rs_count_prime`. -/
  rsCountPrime : ℕ
  /-- `rs_prime`. -/
  rsPrime : List (Option RealServer)
  /-- `rs_count_back`. -/
  rsCountBack : ℕ
  /-- `rs_back`. -/
  rsBack : List (Option RealServer)
  deriving DecidableEq

section Function

variable (servers : List RealServer)

/-- A turn of the loop over the primary servers of a group. -/
def primeTurn (splitPrimer : StrSplit) (j : ℕ) (rsPrime : List (Option RealServer)) :
    Checked (List (Option RealServer)) := do
  let name ← Checked.read splitPrimer.strArray j
  let rsPrime ← Checked.write rsPrime j (getServerByName servers name)
  if getServerByName servers name = none then
    -- the name is read again for the log
    let _ ← Checked.read splitPrimer.strArray j
    Checked.failed
  else
    Checked.done rsPrime

/-- A turn of the loop over the backup servers of a group. -/
def backTurn (splitBackG splitBack splitPrimer : StrSplit) (j : ℕ)
    (rsBack : List (Option RealServer)) : Checked (List (Option RealServer)) := do
  let group ← Checked.read splitBackG.strArray j
  if Dashed group then
    Checked.write rsBack j none
  else
    let name ← Checked.read splitBack.strArray j
    let rsBack ← Checked.write rsBack j (getServerByName servers name)
    if getServerByName servers name = none then
      -- the log names the primary server, whose array has been freed
      let _ ← Checked.read splitPrimer.strArray j
      Checked.failed
    else
      Checked.done rsBack

/-- A turn of the loop over the groups. -/
def groupTurn (splitPrimerG splitBackG : StrSplit) (i : ℕ) (head : List SgEntry) :
    Checked (List SgEntry) := do
  let group ← Checked.read splitPrimerG.strArray i
  let splitPrimer := strSplitFunc (some group) ','
  if splitPrimer.count = 0 then
    Checked.failed
  else
    let rsPrime ← Checked.loop (primeTurn servers splitPrimer)
      (List.replicate splitPrimer.count none) splitPrimer.count
    let splitPrimer := strSplitFree splitPrimer
    if splitBackG.count = 0 then
      Checked.done (head ++ [⟨splitPrimer.count, rsPrime, 0, []⟩])
    else
      let group ← Checked.read splitBackG.strArray i
      let splitBack := strSplitFunc (some group) ','
      if splitBack.count = 0 then
        Checked.done (head ++ [⟨splitPrimer.count, rsPrime, 0, []⟩])
      else
        let rsBack ← Checked.loop (backTurn servers splitBackG splitBack splitPrimer)
          (List.replicate splitPrimer.count none) splitPrimer.count
        Checked.done (head ++ [⟨splitPrimer.count, rsPrime, splitBack.count, rsBack⟩])

/-- `get_upload_group_server_group_list`: the array at `head` and `*count`; at the error
label `*count` is `0`. -/
def getUploadGroupServerGroupList (primer back : Option CString) :
    Checked (List SgEntry × ℕ) :=
  match primer with
  | none => Checked.failed
  | some [] => Checked.failed
  | some (c :: s) => do
      let splitPrimerG := strSplitFunc (some (c :: s)) '|'
      let splitBackG := strSplitFunc back '|'
      if splitBackG.count ≠ 0 ∧ splitPrimerG.count ≠ splitBackG.count then
        Checked.failed
      else
        let head ← Checked.loop (groupTurn servers splitPrimerG splitBackG) [] splitPrimerG.count
        Checked.done (head, splitPrimerG.count)

end Function

/-! ### What the strings name -/

section Spec

variable (servers : List RealServer)

/-- The array `rs`, as far as `count` says, holds the servers of the given names, and the
names that may stand for no server do. -/
def Names (names : List CString) (null : CString → Prop) [DecidablePred null] (count : ℕ)
    (rs : List (Option RealServer)) : Prop :=
  count = names.length ∧
    rs.take count =
      names.map (fun name => if null name then none else getServerByName servers name) ∧
    ∀ name ∈ names, ¬null name → getServerByName servers name ≠ none

/-- **The lists are the ones the strings name.**  The primary and the backup string are lists
of groups of names.  A list entry holds the servers of one group from each, in their order, and
the entries come in the order of the groups. -/
def ListExact (primer back : Option CString) (head : List SgEntry) (count : ℕ) : Prop :=
  count = (groupsOf primer).length ∧ head.length = count ∧
    (∀ (i : ℕ) (entry : SgEntry) (group : CString), head[i]? = some entry →
      (groupsOf primer)[i]? = some group →
      Names servers (itemsOf group) (fun _ => False) entry.rsCountPrime entry.rsPrime) ∧
    (groupsOf back ≠ [] → (groupsOf back).length = (groupsOf primer).length ∧
      ∀ (i : ℕ) (entry : SgEntry) (group : CString), head[i]? = some entry →
        (groupsOf back)[i]? = some group →
        Names servers (itemsOf group) Dashed entry.rsCountBack entry.rsBack)

/-- What the function should do: stay within the arrays, and return exact lists. -/
def ListRight (primer back : Option CString) : Prop :=
  getUploadGroupServerGroupList servers primer back ≠ .outside ∧
    ∀ head count, getUploadGroupServerGroupList servers primer back = .done (head, count) →
      ListExact servers primer back head count

/-- The primary servers of a group are there. -/
def PrimeOk (group : CString) : Prop :=
  itemsOf group ≠ [] ∧ ∀ name ∈ itemsOf group, getServerByName servers name ≠ none

/-- The loop over the backup servers `b` of a group with the primary servers `p` stays
within its arrays: it makes a turn for each *primary* server, takes the `j`-th *group* of
the backup list for its `j`-th item when it looks for a dash, and cannot report a name
that is not found. -/
def BackOk (backs : List CString) (p b : CString) : Prop :=
  itemsOf b ≠ [] → ∀ j < (itemsOf p).length, ∃ group, backs[j]? = some group ∧
    (Dashed group ∨ ∃ name, (itemsOf b)[j]? = some name ∧ getServerByName servers name ≠ none)

/-- The backup servers `b` of a group are no more than the primary servers `p`, and the
dashes are where the loop looks for them. -/
def BackExact (backs : List CString) (p b : CString) : Prop :=
  (itemsOf b).length ≤ (itemsOf p).length ∧
    ∀ (j : ℕ) (group name : CString), backs[j]? = some group → (itemsOf b)[j]? = some name →
      (Dashed group ↔ Dashed name)

/-- **The strings for which the function is right**: in each group it comes to, the loop
over the backup servers stays within its arrays, and when it comes to all of them the
backup servers are the ones it writes. -/
def ListFits (primer back : Option CString) : Prop :=
  (groupsOf primer).length = (groupsOf back).length →
    (∀ (i : ℕ) (p b : CString), (groupsOf primer)[i]? = some p → (groupsOf back)[i]? = some b →
      (∀ k ≤ i, ∀ q, (groupsOf primer)[k]? = some q → PrimeOk servers q) →
        BackOk servers (groupsOf back) p b) ∧
    ((∀ q ∈ groupsOf primer, PrimeOk servers q) →
      ∀ (i : ℕ) (p b : CString), (groupsOf primer)[i]? = some p → (groupsOf back)[i]? = some b →
        BackExact (groupsOf back) p b)

end Spec

/-! ### What the loops do -/

section Loops

variable {servers : List RealServer}

theorem primeTurn_found {split : StrSplit} {j : ℕ} {rs : List (Option RealServer)} {name : CString}
    (hname : split.strArray[j]? = some name) (hj : j < rs.length)
    (hfound : getServerByName servers name ≠ none) :
    primeTurn servers split j rs = .done (rs.set j (getServerByName servers name)) := by
  unfold primeTurn
  rw [Checked.read_of_some hname, Checked.bind_eq, Checked.done_bind, Checked.write_of_lt hj,
    Checked.bind_eq, Checked.done_bind, if_neg hfound]

theorem primeTurn_missing {split : StrSplit} {j : ℕ} {rs : List (Option RealServer)}
    {name : CString} (hname : split.strArray[j]? = some name) (hj : j < rs.length)
    (hmissing : getServerByName servers name = none) : primeTurn servers split j rs = .failed := by
  unfold primeTurn
  rw [Checked.read_of_some hname, Checked.bind_eq, Checked.done_bind, Checked.write_of_lt hj,
    Checked.bind_eq, Checked.done_bind, if_pos hmissing]
  rfl

/-- What a turn over the backup servers writes. -/
def backEntry (servers : List RealServer) (backs : List CString) (b : CString) (j : ℕ) :
    Option RealServer :=
  if (backs[j]?).any (fun group => decide (Dashed group)) then none
  else (itemsOf b)[j]?.bind (getServerByName servers)

theorem backTurn_ok {splitBackG splitBack splitPrimer : StrSplit} {j : ℕ}
    {rs : List (Option RealServer)} {b : CString} (hj : j < rs.length)
    (hb : splitBack.strArray = itemsOf b)
    (hok : ∃ group, splitBackG.strArray[j]? = some group ∧
      (Dashed group ∨ ∃ name, (itemsOf b)[j]? = some name ∧ getServerByName servers name ≠ none)) :
    backTurn servers splitBackG splitBack splitPrimer j rs =
      .done (rs.set j (backEntry servers splitBackG.strArray b j)) := by
  obtain ⟨group, hgroup, hok⟩ := hok
  unfold backTurn backEntry
  rw [Checked.read_of_some hgroup, Checked.bind_eq, Checked.done_bind, hgroup]
  by_cases hd : Dashed group
  · rw [if_pos hd, Checked.write_of_lt hj]
    simp [hd]
  · obtain ⟨name, hname, hfound⟩ := hok.resolve_left hd
    rw [if_neg hd, hb, Checked.read_of_some hname, Checked.bind_eq, Checked.done_bind,
      Checked.write_of_lt hj, Checked.bind_eq, Checked.done_bind, if_neg hfound, hname]
    simp [hd]

theorem backTurn_outside {splitBackG splitBack splitPrimer : StrSplit} {j : ℕ}
    {rs : List (Option RealServer)} {b : CString} (hj : j < rs.length)
    (hb : splitBack.strArray = itemsOf b) (hfreed : splitPrimer.strArray = [])
    (hno : ¬∃ group, splitBackG.strArray[j]? = some group ∧
      (Dashed group ∨ ∃ name, (itemsOf b)[j]? = some name ∧ getServerByName servers name ≠ none)) :
    backTurn servers splitBackG splitBack splitPrimer j rs = .outside := by
  unfold backTurn
  cases hgroup : splitBackG.strArray[j]? with
  | none => rw [Checked.read_of_none hgroup]; rfl
  | some group =>
    rw [Checked.read_of_some hgroup, Checked.bind_eq, Checked.done_bind]
    have hd : ¬Dashed group := fun hd => hno ⟨group, hgroup, Or.inl hd⟩
    rw [if_neg hd, hb]
    cases hname : (itemsOf b)[j]? with
    | none => rw [Checked.read_of_none hname]; rfl
    | some name =>
      have hmissing : getServerByName servers name = none := by
        by_contra hfound
        exact hno ⟨group, hgroup, Or.inr ⟨name, hname, hfound⟩⟩
      rw [Checked.read_of_some hname, Checked.bind_eq, Checked.done_bind, Checked.write_of_lt hj,
        Checked.bind_eq, Checked.done_bind, if_pos hmissing, hfreed]
      rfl

/-- The array a group's loop over its primary servers fills. -/
theorem primeLoop_found {p : CString} (hok : PrimeOk servers p) :
    Checked.loop (primeTurn servers (strSplitFunc (some p) ','))
        (List.replicate (strSplitFunc (some p) ',').count none) (strSplitFunc (some p) ',').count =
      .done ((itemsOf p).map (getServerByName servers)) := by
  have hlen : (itemsOf p).length = (strSplitFunc (some p) ',').count := length_strArray _ _
  rw [Checked.loop_fill (e := fun j => (itemsOf p)[j]?.bind (getServerByName servers)) le_rfl
    fun j xs hj hxs => ?_]
  · rw [Nat.sub_self, List.replicate_zero, List.append_nil]
    congr 1
    refine List.ext_getElem (by simp [hlen]) fun j h₁ h₂ => ?_
    simp [List.getElem?_eq_getElem (show j < (itemsOf p).length by simpa using h₂)]
  · have hj' : j < (itemsOf p).length := hlen ▸ hj
    rw [primeTurn_found (List.getElem?_eq_getElem hj') (hxs ▸ hj)
      (hok.2 _ (List.getElem_mem hj')), List.getElem?_eq_getElem hj', Option.bind_some]

theorem primeLoop_missing {p : CString}
    (hno : ∃ name ∈ itemsOf p, getServerByName servers name = none) :
    Checked.loop (primeTurn servers (strSplitFunc (some p) ','))
        (List.replicate (strSplitFunc (some p) ',').count none) (strSplitFunc (some p) ',').count =
      .failed := by
  have hlen : (itemsOf p).length = (strSplitFunc (some p) ',').count := length_strArray _ _
  obtain ⟨name, hname, hmissing⟩ := hno
  obtain ⟨j, hj⟩ := List.mem_iff_getElem?.mp hname
  have hjlt : j < (itemsOf p).length := (List.getElem?_eq_some_iff.mp hj).1
  refine Checked.loop_fill_stop
    (e := fun j => (itemsOf p)[j]?.bind (getServerByName servers))
    (Q := fun j => (itemsOf p)[j]?.bind (getServerByName servers) ≠ none)
    (fun _ => nofun) (fun i xs hi hxs hq => ?_) (fun i xs hi hxs hq => ?_) (hlen ▸ hjlt)
    (by rw [hj]; simpa using hmissing)
  · have hi' : i < (itemsOf p).length := hlen ▸ hi
    rw [List.getElem?_eq_getElem hi', Option.bind_some] at hq ⊢
    exact primeTurn_found (List.getElem?_eq_getElem hi') (hxs ▸ hi) hq
  · have hi' : i < (itemsOf p).length := hlen ▸ hi
    rw [List.getElem?_eq_getElem hi', Option.bind_some, not_not] at hq
    exact primeTurn_missing (List.getElem?_eq_getElem hi') (hxs ▸ hi) hq

/-- The array a group's loop over its backup servers fills. -/
theorem backLoop_ok {splitBackG : StrSplit} {p b : CString} (hb : itemsOf b ≠ [])
    (hok : BackOk servers splitBackG.strArray p b) :
    Checked.loop (backTurn servers splitBackG (strSplitFunc (some b) ',')
          (strSplitFree (strSplitFunc (some p) ',')))
        (List.replicate (strSplitFunc (some p) ',').count none) (strSplitFunc (some p) ',').count =
      .done ((List.range (itemsOf p).length).map (backEntry servers splitBackG.strArray b)) := by
  have hlen : (itemsOf p).length = (strSplitFunc (some p) ',').count := length_strArray _ _
  rw [Checked.loop_fill le_rfl fun j xs hj hxs => backTurn_ok (hxs ▸ hj) rfl (hok hb j (hlen ▸ hj)),
    hlen, Nat.sub_self, List.replicate_zero, List.append_nil]

theorem backLoop_outside {splitBackG : StrSplit} {p b : CString}
    (hno : ¬BackOk servers splitBackG.strArray p b) :
    Checked.loop (backTurn servers splitBackG (strSplitFunc (some b) ',')
          (strSplitFree (strSplitFunc (some p) ',')))
        (List.replicate (strSplitFunc (some p) ',').count none) (strSplitFunc (some p) ',').count =
      .outside := by
  have hlen : (itemsOf p).length = (strSplitFunc (some p) ',').count := length_strArray _ _
  unfold BackOk at hno
  push Not at hno
  obtain ⟨-, j, hj, hno⟩ := hno
  refine Checked.loop_fill_stop (e := backEntry servers splitBackG.strArray b)
    (Q := fun j => ∃ group, splitBackG.strArray[j]? = some group ∧ (Dashed group ∨
      ∃ name, (itemsOf b)[j]? = some name ∧ getServerByName servers name ≠ none))
    (fun _ => nofun) (fun i xs hi hxs hq => backTurn_ok (hxs ▸ hi) rfl hq)
    (fun i xs hi hxs hq => backTurn_outside (hxs ▸ hi) rfl rfl hq) (hlen ▸ hj) ?_
  rintro ⟨group, hgroup, hd | ⟨name, hname, hfound⟩⟩
  · exact (hno group hgroup).1 hd
  · exact hfound ((hno group hgroup).2 name hname)

/-- The entry a group's turn adds. -/
def entryOf (servers : List RealServer) (backs : List CString) (p : CString) (b : Option CString) :
    SgEntry :=
  match b with
  | none => ⟨(itemsOf p).length, (itemsOf p).map (getServerByName servers), 0, []⟩
  | some b =>
      if itemsOf b = [] then
        ⟨(itemsOf p).length, (itemsOf p).map (getServerByName servers), 0, []⟩
      else
        ⟨(itemsOf p).length, (itemsOf p).map (getServerByName servers), (itemsOf b).length,
          (List.range (itemsOf p).length).map (backEntry servers backs b)⟩

theorem count_eq_zero_iff {s : CString} {delimiter : Char} :
    (strSplitFunc (some s) delimiter).count = 0 ↔
      (strSplitFunc (some s) delimiter).strArray = [] := by
  rw [← length_strArray, List.length_eq_zero_iff]

variable {splitPrimerG splitBackG : StrSplit} {i : ℕ} {p : CString} {head : List SgEntry}

/-- A turn for a group that is right. -/
theorem groupTurn_ok (hp : splitPrimerG.strArray[i]? = some p)
    (hcount : splitBackG.count = splitBackG.strArray.length)
    (hboth : splitBackG.count ≠ 0 → i < splitBackG.count) (hprime : PrimeOk servers p)
    (hback : ∀ b, splitBackG.strArray[i]? = some b → BackOk servers splitBackG.strArray p b) :
    groupTurn servers splitPrimerG splitBackG i head =
      .done (head ++ [entryOf servers splitBackG.strArray p splitBackG.strArray[i]?]) := by
  have hne : ¬(strSplitFunc (some p) ',').count = 0 := fun h => hprime.1 (count_eq_zero_iff.mp h)
  have hlen : (strSplitFunc (some p) ',').count = (itemsOf p).length := (length_strArray _ _).symm
  unfold groupTurn
  rw [Checked.read_of_some hp, Checked.bind_eq, Checked.done_bind]
  dsimp only
  rw [if_neg hne, primeLoop_found hprime, Checked.bind_eq, Checked.done_bind]
  -- without backup groups the turn ends here; else the group of the same place is read
  by_cases h0 : splitBackG.count = 0
  · have hnil : splitBackG.strArray[i]? = none := by
      rw [List.getElem?_eq_none_iff]
      omega
    rw [if_pos h0, hnil]
    simp only [strSplitFree, hlen, entryOf]
  · have hi : i < splitBackG.strArray.length := hcount ▸ hboth h0
    have hb := List.getElem?_eq_getElem hi
    rw [if_neg h0, Checked.read_of_some hb, Checked.bind_eq, Checked.done_bind, hb]
    by_cases hitems : itemsOf splitBackG.strArray[i] = []
    · rw [if_pos (count_eq_zero_iff.mpr hitems)]
      simp only [strSplitFree, hlen, entryOf, hitems, if_true]
    · rw [if_neg fun h => hitems (count_eq_zero_iff.mp h)]
      have hloop := backLoop_ok hitems (hback _ hb)
      simp only [strSplitFree] at hloop ⊢
      rw [hloop, Checked.bind_eq, Checked.done_bind]
      simp only [hlen, entryOf, if_neg hitems]
      rw [← length_strArray (some splitBackG.strArray[i])]
      rfl

/-- A turn for a group with a primary server that is not there. -/
theorem groupTurn_failed (hp : splitPrimerG.strArray[i]? = some p) (hprime : ¬PrimeOk servers p) :
    groupTurn servers splitPrimerG splitBackG i head = .failed := by
  unfold groupTurn
  rw [Checked.read_of_some hp, Checked.bind_eq, Checked.done_bind]
  dsimp only
  split
  · rfl
  · next hne =>
    have hno : ∃ name ∈ itemsOf p, getServerByName servers name = none := by
      by_contra hall
      push Not at hall
      exact hprime ⟨fun h => hne (count_eq_zero_iff.mpr h), hall⟩
    rw [primeLoop_missing hno]
    rfl

/-- A turn that reads beyond the backup lists. -/
theorem groupTurn_outside {b : CString} (hp : splitPrimerG.strArray[i]? = some p)
    (hcount : splitBackG.count = splitBackG.strArray.length) (hprime : PrimeOk servers p)
    (hb : splitBackG.strArray[i]? = some b) (hno : ¬BackOk servers splitBackG.strArray p b) :
    groupTurn servers splitPrimerG splitBackG i head = .outside := by
  have hne : ¬(strSplitFunc (some p) ',').count = 0 := fun h => hprime.1 (count_eq_zero_iff.mp h)
  have hi : i < splitBackG.strArray.length := (List.getElem?_eq_some_iff.mp hb).1
  have hitems : itemsOf b ≠ [] := fun h => hno fun h' => absurd h h'
  unfold groupTurn
  rw [Checked.read_of_some hp, Checked.bind_eq, Checked.done_bind]
  dsimp only
  have hloop := backLoop_outside hno
  simp only [strSplitFree] at hloop ⊢
  rw [if_neg hne, primeLoop_found hprime, Checked.bind_eq, Checked.done_bind,
    if_neg (by omega : ¬splitBackG.count = 0), Checked.read_of_some hb, Checked.bind_eq,
    Checked.done_bind, if_neg fun h => hitems (count_eq_zero_iff.mp h), hloop]
  rfl

end Loops

/-! ### The function as a whole -/

section Whole

variable {servers : List RealServer} {primer back : Option CString}

/-- The turn of the group `i` goes through. -/
def TurnOk (servers : List RealServer) (primer back : Option CString) (i : ℕ) : Prop :=
  ∀ p, (groupsOf primer)[i]? = some p → PrimeOk servers p ∧
    ∀ b, (groupsOf back)[i]? = some b → BackOk servers (groupsOf back) p b

/-- The number of groups is accepted. -/
def CountsAccepted (primer back : Option CString) : Prop :=
  groupsOf back = [] ∨ (groupsOf primer).length = (groupsOf back).length

theorem groups_loop (hacc : CountsAccepted primer back) {n : ℕ} (hn : n ≤ (groupsOf primer).length)
    (hok : ∀ i < n, TurnOk servers primer back i) :
    Checked.loop (groupTurn servers (strSplitFunc primer '|') (strSplitFunc back '|')) [] n =
      .done ((List.range n).map fun i =>
        entryOf servers (groupsOf back) ((groupsOf primer)[i]?.getD []) (groupsOf back)[i]?) := by
  refine Checked.loop_append fun i xs hi => ?_
  have hi' : i < (groupsOf primer).length := by omega
  have hp := List.getElem?_eq_getElem hi'
  obtain ⟨hprime, hback⟩ := hok i hi _ hp
  rw [groupTurn_ok hp (length_strArray _ _).symm ?_ hprime hback, hp]
  · rfl
  · intro h0
    rcases hacc with hnil | hlen
    · exact absurd ((length_strArray _ _).symm.trans (List.length_eq_zero_iff.mpr hnil)) h0
    · exact lt_of_lt_of_eq hi' (hlen.trans (length_strArray _ _))

theorem getList_eq {c : Char} {s : CString} :
    getUploadGroupServerGroupList servers (some (c :: s)) back =
      if (strSplitFunc back '|').count ≠ 0 ∧
          (strSplitFunc (some (c :: s)) '|').count ≠ (strSplitFunc back '|').count then .failed
      else
        (Checked.loop (groupTurn servers (strSplitFunc (some (c :: s)) '|') (strSplitFunc back '|'))
          [] (strSplitFunc (some (c :: s)) '|').count).bind
            fun head => .done (head, (strSplitFunc (some (c :: s)) '|').count) := rfl

/-- What the function comes to. -/
inductive ListEnd (servers : List RealServer) (primer back : Option CString) :
    Checked (List SgEntry × ℕ) → Prop
  | rejected (h : ¬CountsAccepted primer back) : ListEnd servers primer back .failed
  | empty (h : groupsOf primer = []) : ListEnd servers primer back .failed
  | missing {k p} (hp : (groupsOf primer)[k]? = some p) (hno : ¬PrimeOk servers p)
      (hok : ∀ i < k, TurnOk servers primer back i) : ListEnd servers primer back .failed
  | outside {k p b} (hacc : CountsAccepted primer back) (hp : (groupsOf primer)[k]? = some p)
      (hb : (groupsOf back)[k]? = some b) (hprime : PrimeOk servers p)
      (hno : ¬BackOk servers (groupsOf back) p b)
      (hok : ∀ i < k, TurnOk servers primer back i) : ListEnd servers primer back .outside
  | done (hacc : CountsAccepted primer back)
      (hok : ∀ i < (groupsOf primer).length, TurnOk servers primer back i) :
      ListEnd servers primer back (.done ((List.range (groupsOf primer).length).map fun i =>
        entryOf servers (groupsOf back) ((groupsOf primer)[i]?.getD []) (groupsOf back)[i]?,
        (groupsOf primer).length))

theorem getList_end (servers : List RealServer) (primer back : Option CString) :
    ListEnd servers primer back (getUploadGroupServerGroupList servers primer back) := by
  match primer with
  | none => exact .empty rfl
  | some [] => exact .empty rfl
  | some (c :: s) =>
    rw [getList_eq]
    have hlen : (strSplitFunc (some (c :: s)) '|').count = (groupsOf (some (c :: s))).length :=
      (length_strArray _ _).symm
    have hlen' : (strSplitFunc back '|').count = (groupsOf back).length :=
      (length_strArray _ _).symm
    rw [hlen, hlen']
    by_cases hacc : CountsAccepted (some (c :: s)) back
    · rw [if_neg (by
        rintro ⟨h0, hne⟩
        rcases hacc with hnil | heq
        · rw [hnil] at h0
          exact h0 rfl
        · exact hne heq)]
      by_cases hok : ∀ i < (groupsOf (some (c :: s))).length, TurnOk servers (some (c :: s)) back i
      · rw [groups_loop hacc le_rfl hok]
        exact .done hacc hok
      · -- the first group whose turn does not go through
        push Not at hok
        classical
        have hspec := Nat.find_spec hok
        have hmin : ∀ i < Nat.find hok, TurnOk servers (some (c :: s)) back i := fun i hi => by
          by_contra hno
          exact Nat.find_min hok hi ⟨hi.trans hspec.1, hno⟩
        generalize Nat.find hok = k at hspec hmin
        obtain ⟨hk, hno⟩ := hspec
        have hgo := groups_loop hacc hk.le hmin
        have hp := List.getElem?_eq_getElem hk
        by_cases hprime : PrimeOk servers (groupsOf (some (c :: s)))[k]
        · unfold TurnOk at hno
          push Not at hno
          obtain ⟨p, hp', hno⟩ := hno
          cases hp.symm.trans hp'
          obtain ⟨b, hb, hno⟩ := hno hprime
          rw [Checked.loop_stop (x := .outside) (fun _ => nofun) hgo
            (groupTurn_outside hp (length_strArray _ _).symm hprime hb hno) hk]
          exact .outside hacc hp hb hprime hno hmin
        · rw [Checked.loop_stop (x := .failed) (fun _ => nofun) hgo (groupTurn_failed hp hprime) hk]
          exact .missing hp hprime hmin
    · rw [if_pos]
      · exact .rejected hacc
      · unfold CountsAccepted at hacc
        push Not at hacc
        exact ⟨fun h => hacc.1 (List.length_eq_zero_iff.mp h), hacc.2⟩

/-- The primary servers of an entry are the ones named. -/
theorem entryOf_prime {backs : List CString} {p : CString} {b : Option CString}
    (hprime : PrimeOk servers p) : Names servers (itemsOf p) (fun _ => False)
      (entryOf servers backs p b).rsCountPrime (entryOf servers backs p b).rsPrime := by
  have hnames : Names servers (itemsOf p) (fun _ => False) (itemsOf p).length
      ((itemsOf p).map (getServerByName servers)) := by
    refine ⟨rfl, ?_, fun name hname _ => hprime.2 name hname⟩
    simp
  unfold entryOf
  split
  · exact hnames
  · split <;> exact hnames

theorem backEntry_eq {backs : List CString} {b group name : CString} {j : ℕ}
    (hgroup : backs[j]? = some group) (hname : (itemsOf b)[j]? = some name) :
    backEntry servers backs b j = if Dashed group then none else getServerByName servers name := by
  simp [backEntry, hgroup, hname]

/-- The backup servers of an entry are the ones named when the dashes are where the loop
looks for them. -/
theorem entryOf_back {backs : List CString} {p b : CString} (hok : BackOk servers backs p b) :
    Names servers (itemsOf b) Dashed (entryOf servers backs p (some b)).rsCountBack
        (entryOf servers backs p (some b)).rsBack ↔ BackExact backs p b := by
  by_cases hitems : itemsOf b = []
  · simp only [entryOf, hitems]
    refine iff_of_true ⟨rfl, rfl, fun _ h => absurd h List.not_mem_nil⟩ ⟨?_, ?_⟩
    · rw [hitems]
      exact Nat.zero_le _
    · intro j group name _ hname
      rw [hitems] at hname
      cases hname
  have hfound : ∀ {j group name}, backs[j]? = some group → (itemsOf b)[j]? = some name →
      j < (itemsOf p).length → ¬Dashed group → getServerByName servers name ≠ none := by
    intro j group name hgroup hname hj hd
    obtain ⟨group', hgroup', hor⟩ := hok hitems j hj
    cases hgroup.symm.trans hgroup'
    obtain ⟨name', hname', h⟩ := hor.resolve_left hd
    cases hname.symm.trans hname'
    exact h
  simp only [entryOf, if_neg hitems]
  constructor
  · rintro ⟨-, htake, hall⟩
    have hle : (itemsOf b).length ≤ (itemsOf p).length := by
      have := congrArg List.length htake
      simp only [List.length_take, List.length_map, List.length_range] at this
      omega
    refine ⟨hle, fun j group name hgroup hname => ?_⟩
    have hj : j < (itemsOf b).length := (List.getElem?_eq_some_iff.mp hname).1
    -- the entry the loop writes is the one the name stands for
    have hentry : backEntry servers backs b j =
        if Dashed name then none else getServerByName servers name := by
      have h := congrArg (fun l => l[j]?) htake
      simp only [List.getElem?_take, if_pos hj, List.getElem?_map, hname,
        List.getElem?_range (hj.trans_le hle), Option.map_some] at h
      exact Option.some.inj h
    rw [backEntry_eq hgroup hname] at hentry
    constructor
    · intro hd
      by_contra hnd
      rw [if_pos hd, if_neg hnd] at hentry
      exact hall name (List.mem_of_getElem? hname) hnd hentry.symm
    · intro hnd
      by_contra hd
      rw [if_neg hd, if_pos hnd] at hentry
      exact hfound hgroup hname (hj.trans_le hle) hd hentry
  · rintro ⟨hle, hdash⟩
    have hgroup : ∀ j < (itemsOf b).length, ∃ group, backs[j]? = some group := fun j hj => by
      obtain ⟨group, hgroup, -⟩ := hok hitems j (hj.trans_le hle)
      exact ⟨group, hgroup⟩
    refine ⟨rfl, List.ext_getElem? fun j => ?_, fun name hname hnd => ?_⟩
    · by_cases hj : j < (itemsOf b).length
      · obtain ⟨group, hg⟩ := hgroup j hj
        have hname := List.getElem?_eq_getElem hj
        have hiff := hdash j group _ hg hname
        rw [List.getElem?_take, if_pos hj, List.getElem?_map, List.getElem?_map, hname,
          List.getElem?_range (hj.trans_le hle), Option.map_some, Option.map_some,
          backEntry_eq hg hname]
        simp only [hiff]
      · have hj := not_lt.mp hj
        rw [List.getElem?_eq_none (by simp; omega), List.getElem?_eq_none (by simpa using hj)]
    · obtain ⟨j, hj⟩ := List.mem_iff_getElem?.mp hname
      have hlt := (List.getElem?_eq_some_iff.mp hj).1
      obtain ⟨group, hg⟩ := hgroup j hlt
      exact hfound hg hj (hlt.trans_le hle) fun hd => hnd ((hdash j group name hg hj).mp hd)

/-- A backup entry is a configured server or none. -/
theorem mem_of_backEntry {backs : List CString} {b : CString} {j : ℕ} {rs : RealServer}
    (h : backEntry servers backs b j = some rs) : rs ∈ servers := by
  unfold backEntry at h
  split at h
  · cases h
  · obtain ⟨name, -, h⟩ := Option.bind_eq_some_iff.mp h
    exact List.mem_of_find?_eq_some h

/-- **What the function returns is a list of server groups**: each has a first primary
server, and its servers are configured. -/
theorem exists_serverGroupQueue {head : List SgEntry} {count : ℕ}
    (h : getUploadGroupServerGroupList servers primer back = .done (head, count)) :
    ∀ entry ∈ head, ∃ sg : ServerGroupQueue, sg.rsPrime.map some = entry.rsPrime ∧
      sg.rsBack = entry.rsBack.take entry.rsCountBack ∧ ∀ rs ∈ sg.servers, rs ∈ servers := by
  have hend := getList_end servers primer back
  rw [h] at hend
  cases hend with
  | done hacc hok =>
    intro entry hentry
    obtain ⟨i, hi, rfl⟩ := List.mem_map.mp hentry
    rw [List.mem_range] at hi
    have hp := List.getElem?_eq_getElem hi
    rw [hp, Option.getD_some]
    obtain ⟨hprime, -⟩ := hok i hi _ hp
    generalize (groupsOf primer)[i] = p at hprime
    have hmap : ((itemsOf p).filterMap (getServerByName servers)).map some =
        (itemsOf p).map (getServerByName servers) := by
      rw [List.map_filterMap_some_eq_filter_map_isSome]
      refine List.filter_eq_self.mpr fun o ho => ?_
      obtain ⟨name, hname, rfl⟩ := List.mem_map.mp ho
      exact Option.isSome_iff_ne_none.mpr (hprime.2 name hname)
    have hne : (itemsOf p).filterMap (getServerByName servers) ≠ [] := by
      intro hnil
      rw [hnil, List.map_nil] at hmap
      exact hprime.1 (List.map_eq_nil_iff.mp hmap.symm)
    -- the backup servers written so far are configured
    have hqueue : ∀ back' : List (Option RealServer), (∀ rs, some rs ∈ back' → rs ∈ servers) →
        ∃ sg : ServerGroupQueue, sg.rsPrime.map some = (itemsOf p).map (getServerByName servers) ∧
          sg.rsBack = back' ∧ ∀ rs ∈ sg.servers, rs ∈ servers := by
      intro back' hback
      refine ⟨⟨_, back', hne⟩, hmap, rfl, fun rs hrs => ?_⟩
      rcases List.mem_append.mp hrs with hrs | hrs
      · obtain ⟨name, -, hfind⟩ := List.mem_filterMap.mp hrs
        exact List.mem_of_find?_eq_some hfind
      · obtain ⟨o, ho, rfl⟩ := List.mem_filterMap.mp hrs
        exact hback rs ho
    unfold entryOf
    split
    · exact hqueue _ fun rs hrs => absurd hrs List.not_mem_nil
    · split
      · exact hqueue _ fun rs hrs => absurd hrs List.not_mem_nil
      · refine hqueue _ fun rs hrs => ?_
        obtain ⟨j, -, hj⟩ := List.mem_map.mp (List.mem_of_mem_take hrs)
        exact mem_of_backEntry hj

/-- **The server lists are exact and the accesses in bounds if and only if the strings
fit.** -/
theorem server_list_exact_iff (servers : List RealServer) (primer back : Option CString) :
    ListRight servers primer back ↔ ListFits servers primer back := by
  unfold ListRight
  have hend := getList_end servers primer back
  generalize getUploadGroupServerGroupList servers primer back = r at hend
  -- where the list is not built, both sides hold or the access is out of bounds; where it is,
  -- they speak of the same entries
  cases hend with
  | rejected h =>
    refine iff_of_true ⟨nofun, nofun⟩ fun hlen => ?_
    exact absurd (Or.inr hlen) h
  | empty h =>
    refine iff_of_true ⟨nofun, nofun⟩ fun _ => ?_
    rw [h]
    exact ⟨nofun, fun _ => nofun⟩
  | @missing k p hp hno hok =>
    refine iff_of_true ⟨nofun, nofun⟩ fun _ => ⟨fun i p' b hp' hb hall => ?_, fun hall => ?_⟩
    · have hi : i < k := by
        by_contra hle
        exact hno (hall k (not_lt.mp hle) p hp)
      exact (hok i hi p' hp').2 b hb
    · exact absurd (hall p (List.mem_of_getElem? hp)) hno
  | @outside k p b hacc hp hb hprime hno hok =>
    refine iff_of_false (fun h => h.1 rfl) fun hfit => ?_
    have hlen : (groupsOf primer).length = (groupsOf back).length := by
      rcases hacc with hnil | hlen
      · rw [hnil] at hb
        cases hb
      · exact hlen
    refine hno ((hfit hlen).1 k p b hp hb fun i hi q hq => ?_)
    rcases Nat.lt_or_eq_of_le hi with hlt | rfl
    · exact (hok i hlt q hq).1
    · cases hp.symm.trans hq
      exact hprime
  | done hacc hok =>
    have hprime : ∀ {i p}, (groupsOf primer)[i]? = some p → PrimeOk servers p := fun hp =>
      (hok _ (List.getElem?_eq_some_iff.mp hp).1 _ hp).1
    have hentry : ∀ {i : ℕ} {entry : SgEntry} {p : CString}, (groupsOf primer)[i]? = some p →
        ((List.range (groupsOf primer).length).map fun i =>
          entryOf servers (groupsOf back) ((groupsOf primer)[i]?.getD [])
            (groupsOf back)[i]?)[i]? = some entry →
          entry = entryOf servers (groupsOf back) p (groupsOf back)[i]? := by
      intro i entry p hp he
      rw [List.getElem?_map, List.getElem?_range (List.getElem?_eq_some_iff.mp hp).1,
        Option.map_some, hp] at he
      exact (Option.some.inj he).symm
    constructor
    · rintro ⟨-, hexact⟩ hlen
      obtain ⟨-, -, -, hback⟩ := hexact _ _ rfl
      refine ⟨fun i p b hp hb _ => (hok i (List.getElem?_eq_some_iff.mp hp).1 p hp).2 b hb,
        fun _ i p b hp hb => ?_⟩
      have hi := (List.getElem?_eq_some_iff.mp hp).1
      have hne : groupsOf back ≠ [] := fun h => by
        rw [h] at hb
        cases hb
      rw [← entryOf_back ((hok i hi p hp).2 b hb), ← hb]
      refine (hback hne).2 i _ b ?_ hb
      rw [List.getElem?_map, List.getElem?_range hi, Option.map_some, hp]
      rfl
    · intro hfit
      refine ⟨nofun, fun head count heq => ?_⟩
      cases heq
      refine ⟨rfl, by simp, fun i entry p he hp => ?_, fun hne => ?_⟩
      · rw [hentry hp he]
        exact entryOf_prime (hprime hp)
      · have hlen := hacc.resolve_left hne
        refine ⟨hlen.symm, fun i entry b he hb => ?_⟩
        have hi : i < (groupsOf primer).length := hlen ▸ (List.getElem?_eq_some_iff.mp hb).1
        have hp := List.getElem?_eq_getElem hi
        rw [hentry hp he, hb, entryOf_back ((hok i hi _ hp).2 b hb)]
        refine (hfit hlen).2 (fun q hq => ?_) i _ b hp hb
        obtain ⟨k, hk⟩ := List.mem_iff_getElem?.mp hq
        exact hprime hk

/-- **A list of two backup servers is read past its end**: the second one is looked for
among the groups, of which there is one. -/
theorem backup_list_out_of_bounds :
    ¬∀ (servers : List RealServer) (primer back : Option CString),
      ListRight servers primer back := by
  intro h
  refine (h [⟨0, "a".toList, 1, 60, 1⟩, ⟨1, "b".toList, 1, 60, 1⟩] (some "a,b".toList)
    (some "b,a".toList)).1 ?_
  decide +kernel

end Whole

end Newiup
