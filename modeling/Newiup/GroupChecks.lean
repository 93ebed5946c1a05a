import Newiup.Groups
import Newiup.ServerChecks

/-!
# What can go wrong with the monitor groups

`get_monitor_group_info` makes a dozen checks on an entry of the section `monitor-group`.
A failed allocation is reported, save that of the backup servers' array, which is written
to all the same; and a list of backup servers that is longer than its array is read past
the end when the groups are shown.

The functions are long and end in many places.  Each is compared with a list of checks in
the same order, and the first check that does not pass says how the function ends.  That a
look-up has found something, or that an array is there, is then known to the later checks
from the earlier ones.

## Main definitions

* `listChecks` — the checks on the lists of servers.
* `groupChecks`, `groupsChecks` — the checks of `monitor_group_init`.

## Main results

* `goes_groupServerLists` — **the lists of servers go as their checks do.**
* `monitorGroupInit_end` — **how `monitor_group_init` ends** is how its checks go.
-/

namespace Newiup

/-! ### The lists of servers -/

section Lists

variable (m : ListMallocs) (names backs : List CString)

/-- The backup servers `b` are found where the loop over the primary servers `p` looks for
them. -/
def BackFits (p b : CString) : Prop :=
  ∀ j < (itemsOf p).length, ∃ group ∈ backs[j]?,
    Dashed group ∨ ∃ name ∈ (itemsOf b)[j]?, name ∈ names

instance (p b : CString) : Decidable (BackFits names backs p b) :=
  inferInstanceAs (Decidable (∀ j < (itemsOf p).length, ∃ group ∈ backs[j]?,
    Dashed group ∨ ∃ name ∈ (itemsOf b)[j]?, name ∈ names))

/-- The primary servers of the group `i`. -/
def primeCheck (i : ℕ) (p : CString) : Verdict :=
  if m.splitPrimer i = true ∧ m.rsPrime i = true ∧ itemsOf p ≠ [] ∧ ∀ name ∈ itemsOf p, name ∈ names
  then .pass else .stop

/-- The backup servers of the group `i`, as the split leaves them. -/
def backOf (i : ℕ) : Option CString := if m.splitBack i then backs[i]? else none

/-- The backup servers of the group `i`: without their array nothing can be written. -/
def backCheck (i : ℕ) (p : CString) : Verdict :=
  (backOf m backs i).elim .pass fun b =>
    if itemsOf b = [] then .pass
    else if m.rsBack i = true ∧ BackFits names backs p b then .pass
    else .crash

/-- The checks of `get_upload_group_server_group_list`. -/
def listChecks (primer back : Option CString) : List Verdict :=
  let primers := (strSplitAlloc m.splitPrimerG primer '|').strArray
  let backs := (strSplitAlloc m.splitBackG back '|').strArray
  if groupsOf primer = [] ∨ (backs.length ≠ 0 ∧ primers.length ≠ backs.length) ∨ m.head = false then
    [.stop]
  else
    (List.range primers.length).flatMap fun i =>
      [primeCheck m names i (primers[i]?.getD []),
        backCheck m names backs i (primers[i]?.getD [])]

end Lists

section Turn

variable {m : ListMallocs} {servers : List RealServer}

/-- A name is found where a server has it. -/
theorem getServerByName_ne_none_iff {name : CString} :
    getServerByName servers name ≠ none ↔ name ∈ servers.map RealServer.name := by
  rw [getServerByName, ne_eq, List.find?_eq_none, List.mem_map]
  simp

theorem primeOk_iff {p : CString} : PrimeOk servers p ↔
    itemsOf p ≠ [] ∧ ∀ name ∈ itemsOf p, name ∈ servers.map RealServer.name := by
  simp only [PrimeOk, getServerByName_ne_none_iff]

theorem backOk_iff {backs : List CString} {p b : CString} (hb : itemsOf b ≠ []) :
    BackOk servers backs p b ↔ BackFits (servers.map RealServer.name) backs p b := by
  simp only [BackOk, BackFits, getServerByName_ne_none_iff, hb, ne_eq, not_false_eq_true,
    forall_const, Option.mem_def]

/-- The first turn over the backup servers without an array. -/
theorem backTurn_null {splitBackG splitBack splitPrimer : StrSplit} {j : ℕ} :
    backTurn servers splitBackG splitBack splitPrimer j [] = .outside := by
  unfold backTurn
  cases hgroup : splitBackG.strArray[j]? with
  | none => rw [Checked.read_of_none hgroup]; rfl
  | some group =>
    rw [Checked.read_of_some hgroup, Checked.bind_eq, Checked.done_bind]
    split
    · rfl
    · cases hname : splitBack.strArray[j]? with
      | none => rw [Checked.read_of_none hname]; rfl
      | some name => rw [Checked.read_of_some hname]; rfl

variable {splitPrimerG splitBackG : StrSplit} {i : ℕ} {p : CString} {head : List SgEntry}

/-- **The backup servers of the group `i`**, with the primary servers `p`. -/
theorem goes_groupBack (hp : itemsOf p ≠ [])
    (hcount : splitBackG.count = splitBackG.strArray.length)
    (hboth : splitBackG.count ≠ 0 → i < splitBackG.count) :
    (groupBack m servers splitBackG (strSplitFree (strSplitFunc (some p) ','))
        ((itemsOf p).map (getServerByName servers)) i).Goes
      [backCheck m (servers.map RealServer.name) splitBackG.strArray i p]
      (entryOf servers splitBackG.strArray p (backOf m splitBackG.strArray i)) := by
  have hlen : (strSplitFunc (some p) ',').count = (itemsOf p).length := (length_strArray _ _).symm
  unfold groupBack
  -- there is no backup list at all, or its text could not be split, or it has no items; else
  -- the loop runs, and the allocation of its array decides with the items
  by_cases h0 : splitBackG.count = 0
  · have hnone : splitBackG.strArray[i]? = none := by
      rw [List.getElem?_eq_none_iff]
      omega
    have hback : backOf m splitBackG.strArray i = none := by
      rw [backOf, hnone]
      exact ite_self _
    rw [if_pos h0, backCheck, hback, entryOf]
    simp only [strSplitFree, hlen]
    exact (Checked.Goes.done _).congr rfl
  have hi : i < splitBackG.strArray.length := hcount ▸ hboth h0
  have hb := List.getElem?_eq_getElem hi
  rw [if_neg h0, Checked.read_of_some hb, Checked.bind_eq, Checked.done_bind]
  generalize splitBackG.strArray[i] = b at hb
  dsimp only
  cases hsplit : m.splitBack i with
  | false =>
    have hback : backOf m splitBackG.strArray i = none :=
      if_neg (by rw [hsplit]; exact Bool.false_ne_true)
    rw [strSplitAlloc_false, if_pos rfl, backCheck, hback, entryOf]
    simp only [strSplitFree, hlen]
    exact (Checked.Goes.done _).congr rfl
  | true =>
    have hback : backOf m splitBackG.strArray i = some b := (if_pos hsplit).trans hb
    rw [strSplitAlloc_true, backCheck, hback, Option.elim, entryOf]
    by_cases hitems : itemsOf b = []
    · rw [if_pos (count_eq_zero_iff.mpr hitems), if_pos hitems, if_pos hitems]
      simp only [strSplitFree, hlen]
      exact (Checked.Goes.done _).congr rfl
    rw [if_neg fun h => hitems (count_eq_zero_iff.mp h), if_neg hitems, if_neg hitems]
    by_cases hfits : m.rsBack i = true ∧
      BackFits (servers.map RealServer.name) splitBackG.strArray p b
    · have hloop := backLoop_ok hitems ((backOk_iff hitems).mpr hfits.2)
      rw [if_pos hfits, if_pos hfits.1]
      simp only [strSplitFree] at hloop ⊢
      rw [hloop, Checked.bind_eq, Checked.done_bind, hlen, ← length_strArray (some b)]
      exact (Checked.Goes.done _).congr rfl
    · have hloop : Checked.loop (backTurn servers splitBackG (strSplitFunc (some b) ',')
            (strSplitFree (strSplitFunc (some p) ',')))
          (if m.rsBack i then List.replicate (strSplitFunc (some p) ',').count none else [])
          (strSplitFunc (some p) ',').count = .outside := by
        cases hrs : m.rsBack i with
        | false =>
          have hpos : 0 < (strSplitFunc (some p) ',').count :=
            Nat.pos_of_ne_zero fun h => hp (count_eq_zero_iff.mp h)
          exact Checked.loop_stop (x := .outside) (fun _ h => by cases h) rfl backTurn_null hpos
        | true =>
          rw [if_pos rfl]
          exact backLoop_outside fun hok => hfits ⟨hrs, (backOk_iff hitems).mp hok⟩
      rw [if_neg hfits]
      simp only [strSplitFree] at hloop ⊢
      rw [hloop]
      exact Checked.Goes.outside.congr rfl

/-- **A turn for the group `i`** goes as the checks of its primary and its backup servers
do. -/
theorem goes_groupServersTurn (hp : splitPrimerG.strArray[i]? = some p)
    (hcount : splitBackG.count = splitBackG.strArray.length)
    (hboth : splitBackG.count ≠ 0 → i < splitBackG.count) :
    (groupServersTurn m servers splitPrimerG splitBackG i head).Goes
      [primeCheck m (servers.map RealServer.name) i p,
        backCheck m (servers.map RealServer.name) splitBackG.strArray i p]
      (head ++ [entryOf servers splitBackG.strArray p (backOf m splitBackG.strArray i)]) := by
  have hstop : ∀ {v w : Verdict}, v = .stop →
      (Checked.failed : Checked (List SgEntry)).Goes [v, w]
        (head ++ [entryOf servers splitBackG.strArray p (backOf m splitBackG.strArray i)]) := by
    rintro v w rfl
    exact Checked.Goes.failed.congr rfl
  unfold groupServersTurn
  rw [Checked.read_of_some hp, Checked.bind_eq, Checked.done_bind]
  dsimp only
  -- the turn stops where the split, the items, the array or a name is missing, in this order
  cases hsplit : m.splitPrimer i with
  | false =>
    rw [strSplitAlloc_false, if_pos rfl]
    exact hstop (if_neg fun h => absurd (hsplit.symm.trans h.1) Bool.false_ne_true)
  | true =>
    rw [strSplitAlloc_true]
    by_cases hnil : itemsOf p = []
    · rw [if_pos (count_eq_zero_iff.mpr hnil)]
      exact hstop (if_neg fun h => h.2.2.1 hnil)
    rw [if_neg fun h => hnil (count_eq_zero_iff.mp h)]
    cases hrs : m.rsPrime i with
    | false =>
      rw [if_pos rfl]
      exact hstop (if_neg fun h => absurd (hrs.symm.trans h.2.1) Bool.false_ne_true)
    | true =>
      rw [if_neg Bool.true_eq_false.mp]
      by_cases hknown : ∀ name ∈ itemsOf p, name ∈ servers.map RealServer.name
      · have hpass : primeCheck m (servers.map RealServer.name) i p = .pass :=
          if_pos ⟨hsplit, hrs, hnil, hknown⟩
        rw [primeLoop_found (primeOk_iff.mpr ⟨hnil, hknown⟩), Checked.bind_eq, Checked.done_bind,
          hpass]
        have hback : (groupBack m servers splitBackG (strSplitFree (strSplitFunc (some p) ','))
            ((itemsOf p).map (getServerByName servers)) i).Goes _ _ :=
          goes_groupBack hnil hcount hboth
        exact (hback.bind (f := fun entry => .done (head ++ [entry])) (.done _)).congr rfl
      · have hno : ∃ name ∈ itemsOf p, getServerByName servers name = none := by
          push Not at hknown
          obtain ⟨name, hname, hmem⟩ := hknown
          exact ⟨name, hname, by_contra fun hfound => hmem (getServerByName_ne_none_iff.mp hfound)⟩
        rw [primeLoop_missing hno]
        exact hstop (if_neg fun h => hknown h.2.2.2)

/-- The lists that the function returns. -/
def listOf (m : ListMallocs) (servers : List RealServer) (primer back : Option CString) :
    List SgEntry :=
  (List.range (strSplitAlloc m.splitPrimerG primer '|').strArray.length).map fun i =>
    entryOf servers (strSplitAlloc m.splitBackG back '|').strArray
      ((strSplitAlloc m.splitPrimerG primer '|').strArray[i]?.getD [])
      (backOf m (strSplitAlloc m.splitBackG back '|').strArray i)

theorem length_strSplitAlloc (answer : Bool) (src : Option CString) (delimiter : Char) :
    (strSplitAlloc answer src delimiter).strArray.length =
      (strSplitAlloc answer src delimiter).count := by
  cases answer with
  | false => rfl
  | true => exact length_strArray src delimiter

theorem groupsOf_eq_nil_iff {primer : Option CString} :
    groupsOf primer = [] ↔ primer = none ∨ primer = some [] := by
  match primer with
  | none => exact iff_of_true rfl (.inl rfl)
  | some [] => exact iff_of_true rfl (.inr rfl)
  | some (c :: s) =>
    refine iff_of_false (fun h => ?_) (by simp)
    have := count_eq_zero_iff.mpr h
    simp [strSplitFunc] at this

/-- **The lists of servers** go as their checks do. -/
theorem goes_groupServerLists {primer back : Option CString} :
    (groupServerLists m servers primer back).Goes
      (listChecks m (servers.map RealServer.name) primer back)
      (listOf m servers primer back, (listOf m servers primer back).length) := by
  by_cases hnil : groupsOf primer = []
  · rw [listChecks, if_pos (.inl hnil)]
    rcases groupsOf_eq_nil_iff.mp hnil with rfl | rfl <;> exact .failed
  obtain ⟨c, t, rfl⟩ : ∃ c t, primer = some (c :: t) := by
    match primer with
    | none => exact absurd (groupsOf_eq_nil_iff.mpr (.inl rfl)) hnil
    | some [] => exact absurd (groupsOf_eq_nil_iff.mpr (.inr rfl)) hnil
    | some (c :: t) => exact ⟨c, t, rfl⟩
  unfold groupServerLists listChecks listOf
  dsimp only
  -- there are groups; the loop runs where both lists have as many and the array is there
  generalize hpg : strSplitAlloc m.splitPrimerG (some (c :: t)) '|' = pg
  generalize hbg : strSplitAlloc m.splitBackG back '|' = bg
  have hp : pg.strArray.length = pg.count := hpg ▸ length_strSplitAlloc _ _ _
  have hb : bg.strArray.length = bg.count := hbg ▸ length_strSplitAlloc _ _ _
  rw [hp, hb]
  by_cases hcounts : bg.count ≠ 0 ∧ pg.count ≠ bg.count
  · rw [if_pos hcounts, if_pos (.inr (.inl hcounts))]
    exact .failed
  by_cases hhead : m.head = false
  · rw [if_neg hcounts, if_pos hhead, if_pos (.inr (.inr hhead))]
    exact .failed
  rw [if_neg hcounts, if_neg hhead, if_neg (not_or.mpr ⟨hnil, not_or.mpr ⟨hcounts, hhead⟩⟩)]
  have hturns : (Checked.loop (groupServersTurn m servers pg bg) [] pg.count).Goes
      ((List.range pg.count).flatMap fun i =>
        [primeCheck m (servers.map RealServer.name) i (pg.strArray[i]?.getD []),
          backCheck m (servers.map RealServer.name) bg.strArray i (pg.strArray[i]?.getD [])])
      ((List.range pg.count).map fun i =>
        entryOf servers bg.strArray (pg.strArray[i]?.getD []) (backOf m bg.strArray i)) := by
    refine Checked.Goes.loop (f := fun n => (List.range n).map fun i =>
      entryOf servers bg.strArray (pg.strArray[i]?.getD []) (backOf m bg.strArray i)) ?_
    intro i hi
    have hpi := List.getElem?_eq_getElem (hp.symm ▸ hi : i < pg.strArray.length)
    rw [List.range_succ, List.map_append, List.map_singleton, hpi, Option.getD_some]
    exact goes_groupServersTurn hpi hb.symm fun h0 => by
      rw [not_and, not_not] at hcounts
      exact hcounts h0 ▸ hi
  rw [List.length_map, List.length_range]
  have hhead := hturns.bind (f := fun head => .done (head, pg.count)) (.done _)
  rwa [List.append_nil] at hhead

/-! ### The lists as they are shown -/

/-- The backup servers of each list are no more than its array holds. -/
def ShowFits (m : ListMallocs) (primer back : Option CString) : Prop :=
  ∀ i < (strSplitAlloc m.splitPrimerG primer '|').strArray.length,
    ∀ p ∈ (strSplitAlloc m.splitPrimerG primer '|').strArray[i]?,
      ∀ b ∈ backOf m (strSplitAlloc m.splitBackG back '|').strArray i,
        (itemsOf b).length ≤ (itemsOf p).length

instance (m : ListMallocs) (primer back : Option CString) : Decidable (ShowFits m primer back) :=
  inferInstanceAs (Decidable (∀ i < (strSplitAlloc m.splitPrimerG primer '|').strArray.length,
    ∀ p ∈ (strSplitAlloc m.splitPrimerG primer '|').strArray[i]?,
      ∀ b ∈ backOf m (strSplitAlloc m.splitBackG back '|').strArray i,
        (itemsOf b).length ≤ (itemsOf p).length))

theorem goes_readAll {α : Type} (xs : List α) (count : ℕ) :
    (readAll xs count).Goes [if count ≤ xs.length then .pass else .crash] () := by
  have hloop : (readAll xs count).Goes
      ((List.range count).flatMap fun i => [if i < xs.length then .pass else .crash]) () := by
    refine Checked.Goes.loop (f := fun _ => ()) fun i _ => ?_
    by_cases hi : i < xs.length
    · rw [Checked.read_of_some (List.getElem?_eq_getElem hi), if_pos hi]
      exact (Checked.Goes.done ()).congr rfl
    · rw [Checked.read_of_none (List.getElem?_eq_none (not_lt.mp hi)), if_neg hi]
      exact .outside
  refine hloop.congr ((firstStop_crashes _ _).trans ?_)
  have hall : (∀ i ∈ List.range count, i < xs.length) ↔ count ≤ xs.length := by
    simp only [List.mem_range]
    exact ⟨fun h => le_of_not_gt fun hlt => lt_irrefl _ (h _ hlt), fun h i hi => hi.trans_le h⟩
  rw [if_congr hall rfl rfl]
  exact (Verdict.andThen_pass _).symm

theorem goes_showEntry (backs : List CString) (p : CString) (b : Option CString) :
    ((readAll (entryOf servers backs p b).rsPrime (entryOf servers backs p b).rsCountPrime).bind
      fun _ => readAll (entryOf servers backs p b).rsBack
        (entryOf servers backs p b).rsCountBack).Goes
      [if ∀ b' ∈ b, (itemsOf b').length ≤ (itemsOf p).length then .pass else .crash] () := by
  have hprime : (entryOf servers backs p b).rsCountPrime ≤
      (entryOf servers backs p b).rsPrime.length := by
    cases b with
    | none => simp [entryOf]
    | some b =>
      unfold entryOf
      dsimp only
      split <;> simp
  have hback : (entryOf servers backs p b).rsCountBack ≤ (entryOf servers backs p b).rsBack.length ↔
      ∀ b' ∈ b, (itemsOf b').length ≤ (itemsOf p).length := by
    cases b with
    | none => simp [entryOf]
    | some b =>
      unfold entryOf
      dsimp only
      split
      · next h => simp [h]
      · simp
  have hgo := (goes_readAll (entryOf servers backs p b).rsPrime
      (entryOf servers backs p b).rsCountPrime).bind
    (f := fun _ =>
      readAll (entryOf servers backs p b).rsBack (entryOf servers backs p b).rsCountBack)
    (goes_readAll _ _)
  refine hgo.congr ?_
  rw [if_pos hprime, if_congr hback rfl rfl]
  rfl

/-- **What is shown is read in bounds** where the lists of backup servers fit. -/
theorem goes_showUploadServerList {primer back : Option CString} :
    (showUploadServerList (listOf m servers primer back).length
      (listOf m servers primer back)).Goes
      [if ShowFits m primer back then .pass else .crash] () := by
  have hloop : (showUploadServerList (listOf m servers primer back).length
      (listOf m servers primer back)).Goes
      ((List.range (listOf m servers primer back).length).flatMap fun i =>
        [if ∀ p ∈ (strSplitAlloc m.splitPrimerG primer '|').strArray[i]?,
          ∀ b ∈ backOf m (strSplitAlloc m.splitBackG back '|').strArray i,
            (itemsOf b).length ≤ (itemsOf p).length then .pass else .crash]) () := by
    refine Checked.Goes.loop (f := fun _ => ()) fun i hi => ?_
    rw [listOf, List.length_map, List.length_range] at hi
    have hp := List.getElem?_eq_getElem hi
    generalize (strSplitAlloc m.splitPrimerG primer '|').strArray[i] = p at hp
    have hget : (listOf m servers primer back)[i]? =
        some (entryOf servers (strSplitAlloc m.splitBackG back '|').strArray p
          (backOf m (strSplitAlloc m.splitBackG back '|').strArray i)) := by
      rw [listOf, List.getElem?_map, List.getElem?_range hi, Option.map_some, hp, Option.getD_some]
    rw [Checked.read_of_some hget, hp]
    refine (goes_showEntry _ p _).congr ?_
    simp only [Option.mem_def, Option.some.injEq, forall_eq']
  refine hloop.congr ((firstStop_crashes _ _).trans ?_)
  rw [listOf, List.length_map, List.length_range]
  simp only [List.mem_range]
  exact (Verdict.andThen_pass _).symm

end Turn

/-! ### The checks of a group -/

/-- `enable`. -/
def enableCheck (v : CString) : Verdict :=
  if v = "yes".toList ∨ v = "y".toList ∨ v = "no".toList ∨ v = "n".toList then .pass else .stop

/-- A key that names what to do. -/
def actCheck {α : Type} (act : Option CString → Option α) (v : CString) : Verdict :=
  if (act (some v)).isSome then .pass else .stop

/-- `move-to`, by what is done before and after the upload. -/
def moveToCheck (child : ConfNode) (act : Option TypeProcess) (finish : Option EndProcess) :
    Verdict :=
  keyCheck child "move-to".toList .stop
    (if finish = some .keep ∧ act = some .keep then .stop else .crash) fun v =>
    if finish ≠ some .delete ∧ finish ≠ some .keep ∧ v = [] then .stop
    else if finish = some .keep ∧ act = some .keep then .stop
    else copyCheck NEWIUP_PATH_LEN v

/-- What `get_monitor_group_info` checks of a group before it comes to the servers. -/
def groupKeyChecks (root child : ConfNode) : List Verdict :=
  [nameCheck root child,
    keyCheck child "enable".toList .pass .crash enableCheck,
    keyCheck child "monitor-dir".toList .stop .crash fun _ => .pass,
    keyCheck child "monitor-file-type".toList .stop .crash fun _ => .pass,
    keyCheck child "upload-find-act".toList .stop .stop (actCheck getTypeProcess),
    keyCheck child "upload-file-type".toList .stop .crash fun _ => .pass,
    keyCheck child "finish-act".toList .stop .stop (actCheck getEndProcessId),
    moveToCheck child (getTypeProcess (child.valueOf "upload-find-act".toList))
      (getEndProcessId (child.valueOf "finish-act".toList))]

/-- The servers of a group: both keys, the lists, and that there is a list. -/
def groupServersChecks (m : ListMallocs) (names : List CString) (child : ConfNode) :
    List Verdict :=
  let primer := child.valueOf "servers-primer".toList
  keyCheck child "servers-primer".toList .stop .pass (fun _ => .pass) ::
    keyCheck child "servers-backup".toList .stop .pass (fun _ => .pass) ::
    (listChecks m names primer (child.valueOf "servers-backup".toList) ++
      [if (strSplitAlloc m.splitPrimerG primer '|').strArray.length = 0 then .stop else .pass])

/-- The name of the queue. -/
def groupNameCheck (child : ConfNode) : Verdict :=
  if (groupName (strncpy NEWIUP_NAME_LEN (child.val.getD []))
      (strncpy NEWIUP_PATH_LEN ((child.valueOf "monitor-dir".toList).getD []))).length ≤
    NEWIUP_NAME_LEN + 4 then .pass else .crash

/-- The checks of a turn. -/
def groupChecks (m : ListMallocs) (names : List CString) (root child : ConfNode) : List Verdict :=
  groupKeyChecks root child ++ (groupServersChecks m names child ++ [groupNameCheck child])

section Group

variable {σ : Type} {I : σ → Prop} {m : ListMallocs} {servers : List RealServer}
  {root child : ConfNode} {count : ℕ} {key : CString}

theorem checks_ofChecked {α : Type} {x : Checked α} {l : List Verdict} {a : α} (hx : x.Goes l a) :
    Start.Checks I (Start.ofChecked x) l := by
  obtain ⟨hv, -⟩ := hx
  cases x with
  | done a => exact ⟨fun _ _ => hv, fun _ h => h⟩
  | failed => exact ⟨fun _ _ => hv, fun _ h => h⟩
  | outside => exact ⟨fun _ _ => hv, fun _ h => h⟩

theorem ofChecked_done {α : Type} {x : Checked α} {l : List Verdict} {a b : α} {s s' : σ}
    (hx : x.Goes l a) (h : Start.ofChecked x s = (.done b, s')) : b = a := by
  cases x with
  | done c =>
    cases h
    exact hx.done_eq _ rfl
  | failed => cases h
  | outside => cases h

/-- A key that is only read. -/
theorem checks_entryKey_alone : Start.Checks I (entryKey child key)
    [keyCheck child key .stop .pass fun _ => .pass] := by
  have hread : Start.Checks I (entryKey child key >>= fun str => pure str)
      [keyCheck child key .stop .pass fun _ => .pass] :=
    checks_entryKey ((Start.Checks.pure none).congr rfl) fun v _ =>
      (Start.Checks.pure (some v)).congr rfl
  rwa [Start.bind_pure] at hread

theorem checks_setGroup {f : GroupEntry → GroupEntry} :
    Start.Checks (fun _ => True) (setGroup f) [] := .modify fun _ _ => trivial

theorem checks_groupEnable : Start.Checks (fun _ => True) (groupEnable child)
    [keyCheck child "enable".toList .pass .crash enableCheck] := by
  refine checks_childValue (checks_setGroup.congr rfl) Start.Checks.crash fun v => ?_
  show Start.Checks _ (if v = "yes".toList ∨ v = "y".toList then _ else _) _
  unfold enableCheck
  by_cases hyes : v = "yes".toList ∨ v = "y".toList
  · rw [if_pos hyes, if_pos (by tauto)]
    exact checks_setGroup.congr rfl
  by_cases hno : v = "no".toList ∨ v = "n".toList
  · rw [if_neg hyes, if_pos hno, if_pos (by tauto)]
    exact checks_setGroup.congr rfl
  · rw [if_neg hyes, if_neg hno, if_neg (by tauto)]
    exact Start.Checks.fail

theorem checks_groupText {size : ℕ} {set : CString → GroupEntry → GroupEntry} :
    Start.Checks (fun _ => True) (groupText child key size set)
      [keyCheck child key .stop .crash fun _ => .pass] :=
  checks_entryValue fun _ _ => (Start.Checks.bind_none checks_setGroup fun _ =>
    Start.Checks.pure _).congr rfl

theorem checks_groupAct {α : Type} {act : Option CString → Option α}
    {set : Option α → GroupEntry → GroupEntry} (hact : act none = none) :
    Start.Checks (fun _ => True) (groupAct child key act set)
      [keyCheck child key .stop .stop (actCheck act)] := by
  unfold groupAct
  refine checks_entryKey ?_ fun v _ => ?_
  · rw [hact]
    exact Start.Checks.bind_none checks_setGroup fun _ => Start.Checks.fail
  · unfold actCheck
    cases act (some v) with
    | none => exact Start.Checks.bind_none checks_setGroup fun _ => Start.Checks.fail
    | some a => exact Start.Checks.bind_none checks_setGroup fun _ =>
        (Start.Checks.pure a).congr rfl

theorem checks_groupMoveTo {act : TypeProcess} {finish : EndProcess} :
    Start.Checks (fun _ => True) (groupMoveTo child act finish)
      [moveToCheck child (some act) (some finish)] := by
  have hkeep : (some finish = some EndProcess.keep ∧ some act = some TypeProcess.keep) ↔
      finish = .keep ∧ act = .keep := by simp
  refine checks_entryKey ?_ fun v _ => ?_
  · -- without a value the copy is undefined, unless both are `keep`
    rw [if_congr hkeep rfl rfl, groupPlace]
    by_cases hmove : finish ≠ .delete ∧ finish ≠ .keep
    · rw [if_pos hmove, if_neg fun h => hmove.2 h.1]
      exact Start.Checks.crash_bind
    · rw [if_neg hmove]
      refine Start.Checks.bind_none (Start.Checks.pure ()) fun _ => ?_
      by_cases hkept : finish = .keep ∧ act = .keep
      · rw [if_pos hkept, Start.guard, if_neg (not_not.mpr hkept)]
        exact Start.Checks.fail_bind
      · rw [if_neg hkept, Start.guard, if_pos hkept]
        exact Start.Checks.bind_none (Start.Checks.pure ()) fun _ => Start.Checks.crash
  · have hrest : Start.Checks (fun _ => True)
        (Start.guard (¬(finish = .keep ∧ act = .keep)) >>= fun _ =>
          Start.deref (some v) >>= fun str => strcpy NEWIUP_PATH_LEN str >>= fun copy =>
            setGroup fun e => { e with moveTo := copy })
        [if finish = .keep ∧ act = .keep then .stop else copyCheck NEWIUP_PATH_LEN v] := by
      by_cases hkept : finish = .keep ∧ act = .keep
      · rw [if_pos hkept, Start.guard, if_neg (not_not.mpr hkept)]
        exact Start.Checks.fail_bind
      · rw [if_neg hkept, Start.guard, if_pos hkept,
          ← Verdict.andThen_pass (copyCheck NEWIUP_PATH_LEN v)]
        refine Start.Checks.bind_none (Start.Checks.pure ()) fun _ => ?_
        show Start.Checks _ (strcpy NEWIUP_PATH_LEN v >>= _) _
        exact checks_strcpy fun _ => checks_setGroup.congr rfl
    have hneed : (some finish ≠ some EndProcess.delete ∧ some finish ≠ some EndProcess.keep ∧
        v = []) ↔ (finish ≠ .delete ∧ finish ≠ .keep) ∧ v = [] := by
      simp [and_assoc]
    rw [if_congr hneed rfl rfl, if_congr hkeep rfl rfl, groupPlace]
    by_cases hmove : finish ≠ .delete ∧ finish ≠ .keep
    · rw [if_pos hmove]
      by_cases hv : v = []
      · rw [if_pos ⟨hmove, hv⟩]
        have hguard : ((Start.deref (some v) >>= fun str => Start.guard (str ≠ [])) :
            Start GroupEntry Unit) = Start.fail := by
          show Start.guard (v ≠ []) = Start.fail
          rw [Start.guard, if_neg (not_not.mpr hv)]
        rw [hguard]
        exact Start.Checks.fail_bind
      · rw [if_neg fun h => hv h.2]
        refine Start.Checks.bind_none ?_ fun _ => hrest
        show Start.Checks _ (Start.guard (v ≠ [])) []
        rw [Start.guard, if_pos hv]
        exact Start.Checks.pure ()
    · rw [if_neg hmove, if_neg fun h => hmove h.1]
      exact Start.Checks.bind_none (Start.Checks.pure ()) fun _ => hrest

/-- What a key read is, where it is copied. -/
theorem groupText_done {size : ℕ} {set : CString → GroupEntry → GroupEntry} {v : CString}
    {s s' : GroupEntry} (h : groupText child key size set s = (.done v, s')) :
    v = strncpy size ((child.valueOf key).getD []) := by
  obtain ⟨str, s₁, hstr, h₁⟩ := Start.bind_done_iff.mp h
  obtain ⟨rfl, -, hval⟩ := entryKey_done hstr
  obtain ⟨v', s₂, hv, h₂⟩ := Start.bind_done_iff.mp h₁
  obtain ⟨hsome, rfl⟩ := Start.deref_done_iff.mp hv
  rw [← hval, hsome]
  cases h₂
  rfl

/-- What an act is that is returned. -/
theorem groupAct_done {α : Type} {act : Option CString → Option α}
    {set : Option α → GroupEntry → GroupEntry} {a : α} {s s' : GroupEntry}
    (h : groupAct child key act set s = (.done a, s')) : act (child.valueOf key) = some a := by
  obtain ⟨str, s₁, hstr, h₁⟩ := Start.bind_done_iff.mp h
  obtain ⟨rfl, -, rfl⟩ := entryKey_done hstr
  obtain ⟨-, s₂, -, h₂⟩ := Start.bind_done_iff.mp h₁
  cases hact : act (child.valueOf key) with
  | none =>
    rw [hact] at h₂
    cases h₂
  | some a' =>
    rw [hact] at h₂
    cases h₂
    rfl

/-- **The keys of a group** are checked in order. -/
theorem checks_groupKeys (hmem : child ∈ root.head.flatMap ConfNode.head) :
    Start.Checks (fun _ => True) (groupKeys root child count) (groupKeyChecks root child) := by
  refine Start.Checks.bind_none checks_setGroup fun _ => checks_nameCheck hmem fun name hname => ?_
  rw [hname]
  refine Start.Checks.bind_none (Start.Checks.pure name) fun name =>
    Start.Checks.bind_none checks_setGroup fun _ =>
    Start.Checks.bind_one checks_groupEnable fun _ =>
    Start.Checks.bind_one checks_groupText fun dir =>
    Start.Checks.bind_one checks_groupText fun _ => ?_
  refine Start.Checks.bind_value (P := fun act =>
    getTypeProcess (child.valueOf "upload-find-act".toList) = some act)
    (l := [keyCheck child "upload-find-act".toList .stop .stop (actCheck getTypeProcess)])
    (checks_groupAct rfl) (fun s a s' _ h => groupAct_done h) fun act hact => ?_
  refine Start.Checks.bind_one checks_groupText fun _ => ?_
  refine Start.Checks.bind_value (P := fun finish =>
    getEndProcessId (child.valueOf "finish-act".toList) = some finish)
    (l := [keyCheck child "finish-act".toList .stop .stop (actCheck getEndProcessId)])
    (checks_groupAct rfl) (fun s a s' _ h => groupAct_done h) fun finish hfinish => ?_
  rw [hact, hfinish]
  exact Start.Checks.bind_one checks_groupMoveTo fun _ => Start.Checks.pure _

/-- The two arrays that the name is read from. -/
theorem groupKeys_done {arrays : CString × CString} {s s' : GroupEntry}
    (h : groupKeys root child count s = (.done arrays, s')) :
    arrays = (strncpy NEWIUP_NAME_LEN (child.val.getD []),
      strncpy NEWIUP_PATH_LEN ((child.valueOf "monitor-dir".toList).getD [])) := by
  obtain ⟨_, s₁, -, h₁⟩ := Start.bind_done_iff.mp h
  obtain ⟨_, s₂, -, h₂⟩ := Start.bind_done_iff.mp h₁
  obtain ⟨_, s₃, -, h₃⟩ := Start.bind_done_iff.mp h₂
  obtain ⟨name, s₄, hname, h₄⟩ := Start.bind_done_iff.mp h₃
  obtain ⟨hval, -⟩ := Start.deref_done_iff.mp hname
  obtain ⟨_, s₅, -, h₅⟩ := Start.bind_done_iff.mp h₄
  obtain ⟨_, s₆, -, h₆⟩ := Start.bind_done_iff.mp h₅
  obtain ⟨dir, s₇, hdir, h₇⟩ := Start.bind_done_iff.mp h₆
  obtain ⟨_, s₈, -, h₈⟩ := Start.bind_done_iff.mp h₇
  obtain ⟨_, s₉, -, h₉⟩ := Start.bind_done_iff.mp h₈
  obtain ⟨_, s₁₀, -, h₁₀⟩ := Start.bind_done_iff.mp h₉
  obtain ⟨_, s₁₁, -, h₁₁⟩ := Start.bind_done_iff.mp h₁₀
  obtain ⟨_, s₁₂, -, h₁₂⟩ := Start.bind_done_iff.mp h₁₁
  cases h₁₂
  rw [hval, ← groupText_done hdir, Option.getD_some]

/-- **The servers of a group** go as the keys and the lists do. -/
theorem checks_groupServers : Start.Checks (fun _ => True) (groupServers m servers child)
    (groupServersChecks m (servers.map RealServer.name) child) := by
  refine Start.Checks.bind_value (P := (· = child.valueOf "servers-primer".toList))
    (l := [keyCheck child "servers-primer".toList .stop .pass fun _ => .pass])
    checks_entryKey_alone (fun _ _ _ _ h => (entryKey_done h).2.2) fun str hstr => ?_
  refine Start.Checks.bind_value (P := (· = child.valueOf "servers-backup".toList))
    (l := [keyCheck child "servers-backup".toList .stop .pass fun _ => .pass])
    checks_entryKey_alone (fun _ _ _ _ h => (entryKey_done h).2.2) fun str2 hstr2 => ?_
  rw [hstr, hstr2]
  refine Start.Checks.bind_value (P := (· = (listOf m servers
      (child.valueOf "servers-primer".toList) (child.valueOf "servers-backup".toList),
    (listOf m servers (child.valueOf "servers-primer".toList)
      (child.valueOf "servers-backup".toList)).length)))
    (checks_ofChecked goes_groupServerLists)
    (fun _ _ _ _ h => ofChecked_done goes_groupServerLists h) fun list hlist => ?_
  rw [hlist]
  refine Start.Checks.bind_none checks_setGroup fun _ => ?_
  have hlen : (listOf m servers (child.valueOf "servers-primer".toList)
      (child.valueOf "servers-backup".toList)).length =
    (strSplitAlloc m.splitPrimerG (child.valueOf "servers-primer".toList) '|').strArray.length := by
    rw [listOf, List.length_map, List.length_range]
  rw [hlen]
  refine (Start.Checks.guard _).congr ?_
  by_cases h0 : (strSplitAlloc m.splitPrimerG (child.valueOf "servers-primer".toList)
      '|').strArray.length = 0
  · rw [if_pos h0, if_neg (not_not.mpr h0)]
  · rw [if_neg h0, if_pos h0]

/-- What is shown of the group. -/
def GroupEntry.lists (e : GroupEntry) : List SgEntry × ℕ := (e.serverGroupList, e.sglCount)

theorem groupServers_done {s s' : GroupEntry} {a : Unit}
    (h : groupServers m servers child s = (.done a, s')) :
    s'.lists = (listOf m servers (child.valueOf "servers-primer".toList)
        (child.valueOf "servers-backup".toList),
      (listOf m servers (child.valueOf "servers-primer".toList)
        (child.valueOf "servers-backup".toList)).length) := by
  obtain ⟨str, s₁, hstr, h₁⟩ := Start.bind_done_iff.mp h
  obtain ⟨-, -, rfl⟩ := entryKey_done hstr
  obtain ⟨str2, s₂, hstr2, h₂⟩ := Start.bind_done_iff.mp h₁
  obtain ⟨-, -, rfl⟩ := entryKey_done hstr2
  obtain ⟨list, s₃, hlist, h₃⟩ := Start.bind_done_iff.mp h₂
  obtain ⟨_, s₄, hset, h₄⟩ := Start.bind_done_iff.mp h₃
  obtain ⟨-, rfl⟩ := Start.guard_done_iff.mp h₄
  obtain ⟨-, rfl⟩ := Prod.ext_iff.mp hset
  exact ofChecked_done goes_groupServerLists hlist

variable {logpath : CString}

/-- **A turn** of the loop over the groups, where the log has a path. -/
theorem checks_groupInfo (hmem : child ∈ root.head.flatMap ConfNode.head)
    (hlog : logpath.length < NEWIUP_PATH_LEN) :
    Start.Checks (fun _ => True) (groupInfo m servers logpath root child count)
      (groupChecks m (servers.map RealServer.name) root child) := by
  have hlogs : ∀ set, Start.Checks (fun _ => True) (groupLog logpath set) [] := by
    intro set
    rw [groupLog, if_neg (not_le.mpr hlog)]
    exact checks_setGroup
  refine (checks_groupKeys hmem).bind_value (fun _ _ _ _ h => groupKeys_done h)
    fun arrays harrays => ?_
  refine checks_groupServers.bind fun _ => ?_
  have hname : Start.Checks (fun _ => True) (groupQueue arrays.1 arrays.2)
      [groupNameCheck child] := by
    rw [harrays, groupQueue, groupNameCheck]
    by_cases hlen : (groupName (strncpy NEWIUP_NAME_LEN (child.val.getD []))
        (strncpy NEWIUP_PATH_LEN ((child.valueOf "monitor-dir".toList).getD []))).length ≤
      NEWIUP_NAME_LEN + 4
    · rw [if_pos hlen, if_pos hlen]
      exact checks_setGroup.congr rfl
    · rw [if_neg hlen, if_neg hlen]
      exact Start.Checks.crash
  exact Start.Checks.bind_one hname fun _ => Start.Checks.bind_none (hlogs _) fun _ => hlogs _

theorem groupInfo_done {s s' : GroupEntry} {a : Unit}
    (h : groupInfo m servers logpath root child count s = (.done a, s')) :
    s'.lists = (listOf m servers (child.valueOf "servers-primer".toList)
        (child.valueOf "servers-backup".toList),
      (listOf m servers (child.valueOf "servers-primer".toList)
        (child.valueOf "servers-backup".toList)).length) := by
  have hset : ∀ {f : GroupEntry → GroupEntry}, (∀ e, (f e).lists = e.lists) →
      Start.Keeps GroupEntry.lists (setGroup f) := fun hf => .modify hf
  have hlog : ∀ {set : CString → GroupEntry → GroupEntry}, (∀ v e, (set v e).lists = e.lists) →
      Start.Keeps GroupEntry.lists (groupLog logpath set) := by
    intro set hf
    unfold groupLog
    split
    · exact fun _ _ _ h => nomatch h
    · exact hset (hf logpath)
  have hqueue : ∀ name dir, Start.Keeps GroupEntry.lists (groupQueue name dir) := by
    intro name dir
    unfold groupQueue
    split
    · exact hset fun _ => rfl
    · exact .crash
  obtain ⟨arrays, s₁, -, h₁⟩ := Start.bind_done_iff.mp h
  obtain ⟨_, s₂, hservers, h₂⟩ := Start.bind_done_iff.mp h₁
  have hrest : Start.Keeps GroupEntry.lists (groupQueue arrays.1 arrays.2 >>= fun _ =>
      (groupLog logpath fun v e => { e with uploadLog := v }) >>= fun _ =>
        groupLog logpath fun v e => { e with uploadTxt := v }) :=
    (hqueue _ _).bind fun _ => Start.Keeps.bind (hlog fun _ _ => rfl) fun _ => hlog fun _ _ => rfl
  rw [hrest s₂ a s' h₂]
  exact groupServers_done hservers

end Group

/-! ### All groups -/

/-- The checks of the loop of `get_monitor_group_info`, from a child on. -/
def groupsChecksFrom (m : ℕ → ListMallocs) (names : List CString) (root : ConfNode) :
    List ConfNode → ℕ → List Verdict
  | [], _ => []
  | child :: rest, count =>
    groupChecks (m count) names root child ++ groupsChecksFrom m names root rest (count + 1)

/-- The checks of the loop that shows the groups, from a child on. -/
def showChecksFrom (m : ℕ → ListMallocs) : List ConfNode → ℕ → List Verdict
  | [], _ => []
  | child :: rest, count =>
    (if ShowFits (m count) (child.valueOf "servers-primer".toList)
      (child.valueOf "servers-backup".toList) then .pass else .crash) ::
      showChecksFrom m rest (count + 1)

/-- **The checks of `monitor_group_init`**, where the allocation of `g_monitorgroup`
answers `answer`. -/
def groupsChecks (m : ℕ → ListMallocs) (names : List CString) (root : ConfNode) (answer : Bool) :
    List Verdict :=
  match confGetNode root "monitor-group".toList with
  | none => [.crash]
  | some node => (if 0 < node.head.length then .pass else .stop) ::
      (if answer then .pass else .stop) ::
        (groupsChecksFrom m names root node.head 0 ++ showChecksFrom m node.head 0)

/-- There are `n` entries in the block. -/
structure Monitors.Holds (h : Heap) (block n : ℕ) (s : Monitors) : Prop where
  heap_eq : s.heap = h
  num_eq : s.gMonitorgroupNum = n
  group : ∃ es, s.gMonitorgroup = some (block, es) ∧ es.length = n

section Groups

variable {m : ℕ → ListMallocs} {servers : List RealServer} {logpath : CString} {root : ConfNode}
  {h : Heap} {block n : ℕ} {s s' : Monitors}

theorem atGroup_eq {count : ℕ} {x : Start GroupEntry Unit} {es : List GroupEntry} {e : GroupEntry}
    (hs : s.gMonitorgroup = some (block, es)) (he : es[count]? = some e) :
    atGroup count x s =
      ((x e).1, { s with gMonitorgroup := some (block, es.set count (x e).2) }) := by
  unfold atGroup
  rw [hs]
  dsimp only
  rw [he]

theorem checks_atGroup {count : ℕ} {x : Start GroupEntry Unit} {l : List Verdict}
    (hx : Start.Checks (fun _ => True) x l) (hcount : count < n) :
    Start.Checks (Monitors.Holds h block n) (atGroup count x) l := by
  have hrun : ∀ s, Monitors.Holds h block n s → ∃ es e, s.gMonitorgroup = some (block, es) ∧
      es.length = n ∧ es[count]? = some e := by
    rintro s ⟨-, -, es, hes, hlen⟩
    exact ⟨es, _, hes, hlen, List.getElem?_eq_getElem (hlen.symm ▸ hcount)⟩
  refine ⟨fun s hs => ?_, fun s hs => ?_⟩
  · obtain ⟨es, e, hes, hlen, he⟩ := hrun s hs
    rw [atGroup_eq hes he]
    exact hx.verdict e trivial
  · obtain ⟨es, e, hes, hlen, he⟩ := hrun s hs
    rw [atGroup_eq hes he]
    exact ⟨hs.heap_eq, hs.num_eq, _, rfl, by rw [List.length_set, hlen]⟩

/-- **The loop over the groups** makes the checks of each. -/
theorem checks_groupsFrom {children : List ConfNode} {count : ℕ}
    (hmem : ∀ child ∈ children, child ∈ root.head.flatMap ConfNode.head)
    (hlog : logpath.length < NEWIUP_PATH_LEN) (hn : count + children.length = n) :
    Start.Checks (Monitors.Holds h block n)
      (getMonitorGroupInfoFrom m servers logpath root children count)
      (groupsChecksFrom m (servers.map RealServer.name) root children count) := by
  induction children generalizing count with
  | nil => exact Start.Checks.pure ()
  | cons child children ih =>
    rw [List.length_cons] at hn
    refine (checks_atGroup (checks_groupInfo (hmem child List.mem_cons_self) hlog) (by omega)).bind
      fun _ => ih (fun c hc => hmem c (List.mem_cons_of_mem _ hc)) (by omega)

/-- What is shown of the group of a child. -/
def listsOf (m : ListMallocs) (servers : List RealServer) (child : ConfNode) : List SgEntry × ℕ :=
  (listOf m servers (child.valueOf "servers-primer".toList)
      (child.valueOf "servers-backup".toList),
    (listOf m servers (child.valueOf "servers-primer".toList)
      (child.valueOf "servers-backup".toList)).length)

/-- **The loop fills one entry a child**, in order. -/
theorem groupsFrom_done {children : List ConfNode} {count : ℕ} {es : List GroupEntry} {a : Unit}
    (hs : s.gMonitorgroup = some (block, es))
    (hrun : getMonitorGroupInfoFrom m servers logpath root children count s = (.done a, s')) :
    ∃ es', s'.gMonitorgroup = some (block, es') ∧ (∀ j < count, es'[j]? = es[j]?) ∧
      ∀ (j : ℕ) (child : ConfNode), children[j]? = some child → ∃ e,
        es'[count + j]? = some e ∧ e.lists = listsOf (m (count + j)) servers child := by
  -- a turn writes its own entry, so that the entries before it stay as they were filled
  induction children generalizing count es s with
  | nil =>
    cases hrun
    exact ⟨es, hs, fun _ _ => rfl, fun j child hj => by cases hj⟩
  | cons child rest ih =>
    obtain ⟨_, t, hhead, hrest⟩ := Start.bind_done_iff.mp hrun
    cases he : es[count]? with
    | none =>
      have hcrash : atGroup count (groupInfo (m count) servers logpath root child count) s =
          (.crash, s) := by
        unfold atGroup
        rw [hs]
        dsimp only
        rw [he]
      rw [hcrash] at hhead
      cases hhead
    | some e =>
      rw [atGroup_eq hs he] at hhead
      obtain ⟨hdone, rfl⟩ := Prod.ext_iff.mp hhead
      have hlists := groupInfo_done (Prod.ext hdone rfl)
      obtain ⟨es', hgroup, hbefore, hmade⟩ := ih rfl hrest
      refine ⟨es', hgroup, fun j hj => ?_, fun j c hj => ?_⟩
      · rw [hbefore j (by omega), List.getElem?_set_ne (by omega)]
      · cases j with
        | zero =>
          cases hj
          have hlt : count < es.length := (List.getElem?_eq_some_iff.mp he).1
          exact ⟨_, by rw [Nat.add_zero, hbefore count (by omega), List.getElem?_set_self hlt],
            hlists⟩
        | succ j =>
          rw [show count + (j + 1) = count + 1 + j by omega]
          exact hmade j c hj

/-- **The loop that shows the groups** reads them in bounds where their lists fit. -/
theorem checks_showGroupsFrom {children : List ConfNode} {count : ℕ} {es : List GroupEntry}
    (hs : s.gMonitorgroup = some (block, es))
    (hall : ∀ (j : ℕ) (child : ConfNode), children[j]? = some child → ∃ e,
      es[count + j]? = some e ∧ e.lists = listsOf (m (count + j)) servers child) :
    Start.Checks (· = s) (showGroupsFrom count children.length)
      (showChecksFrom m children count) := by
  -- the loop reads the lists that the turns before have filled, and changes nothing
  induction children generalizing count with
  | nil => exact Start.Checks.pure ()
  | cons child rest ih =>
    obtain ⟨e, he, hlists⟩ := hall 0 child rfl
    rw [Nat.add_zero] at he hlists
    obtain ⟨hlist, hlen⟩ := Prod.ext_iff.mp hlists
    have hshow : Start.Checks (fun _ => True) (Start.ofChecked
        (showUploadServerList e.sglCount e.serverGroupList) : Start GroupEntry Unit)
        [if ShowFits (m count) (child.valueOf "servers-primer".toList)
          (child.valueOf "servers-backup".toList) then .pass else .crash] := by
      refine checks_ofChecked (a := ()) ?_
      rw [show e.serverGroupList = _ from hlist, show e.sglCount = _ from hlen]
      exact goes_showUploadServerList
    have hstay : (groupShow e).2 = e := by
      show (Start.ofChecked (showUploadServerList e.sglCount e.serverGroupList) e).2 = e
      cases showUploadServerList e.sglCount e.serverGroupList <;> rfl
    have hat : atGroup count groupShow s = ((groupShow e).1, s) := by
      have hset : es.set count e = es := by
        obtain ⟨hlt, rfl⟩ := List.getElem?_eq_some_iff.mp he
        exact List.set_getElem_self hlt
      rw [atGroup_eq hs he, hstay, hset, ← hs]
    refine Start.Checks.bind_one ⟨?_, ?_⟩ fun _ => ih fun j c hj => ?_
    · rintro t rfl
      rw [hat]
      exact hshow.verdict e trivial
    · rintro t rfl
      rw [hat]
    · rw [show count + 1 + j = count + (j + 1) by omega]
      exact hall (j + 1) c hj

end Groups

/-! ### The start and the end -/

/-- What `monitor_group_exit` can clear up. -/
def Monitors.Tidy (rest : List ℕ) (s : Monitors) : Prop :=
  (s.gMonitorgroup = none ∧ Owns s.heap rest) ∨
  ∃ block es, s.gMonitorgroup = some (block, es) ∧ es.length = s.gMonitorgroupNum ∧
    Owns s.heap (block :: rest)

section MonitorsEnd

variable {m : ℕ → ListMallocs} {servers : List RealServer} {logpath : CString} {root : ConfNode}
  {rest : List ℕ} {s : Monitors}

theorem monitorGroupExitFrom_done {block : ℕ} {es : List GroupEntry}
    (hs : s.gMonitorgroup = some (block, es)) {i n : ℕ} (hn : i + n ≤ es.length) :
    monitorGroupExitFrom i n s = (.done (), s) := by
  induction n generalizing i with
  | zero => rfl
  | succ n ih =>
    have hi : i < es.length := by omega
    have hturn : atGroup i (pure ()) s = (.done (), s) := by
      rw [atGroup_eq hs (List.getElem?_eq_getElem hi), Start.pure_apply]
      dsimp only
      rw [List.set_getElem_self hi, ← hs]
    exact (Start.bind_of_done hturn).trans (ih (by omega))

/-- **`monitor_group_exit` clears up**, and finds nothing afterwards. -/
theorem Monitors.Tidy.exit (h : s.Tidy rest) : ∃ s', Monitors.monitorGroupExit s = (.done (), s') ∧
    s'.gMonitorgroup = none ∧ Owns s'.heap rest := by
  unfold Monitors.monitorGroupExit
  rw [Start.get_bind]
  rcases h with ⟨hnone, ho⟩ | ⟨block, es, hsome, hlen, ho⟩
  · rw [hnone]
    exact ⟨s, rfl, hnone, ho⟩
  · obtain ⟨h', hfree, ho'⟩ := ho.free
    have hzoom : Start.zoom Monitors.heap (fun heap s => { s with heap }) (free block) s =
        (.done (), { s with heap := h' }) := by
      rw [Start.zoom, hfree]
    have hloop : monitorGroupExitFrom 0 s.gMonitorgroupNum s = (.done (), s) :=
      monitorGroupExitFrom_done hsome (by omega)
    rw [hsome]
    exact ⟨{ heap := h', gMonitorgroup := none, gMonitorgroupNum := 0 },
      (Start.bind_of_done hloop).trans (Start.bind_of_done hzoom), rfl, ho'⟩

/-- Filling the array and showing it. -/
theorem checks_getMonitorGroupInfo {node : ConfNode} {h : Heap} {block : ℕ}
    (hnode : confGetNode root "monitor-group".toList = some node)
    (hlog : logpath.length < NEWIUP_PATH_LEN) :
    Start.Checks (Monitors.Holds h block node.head.length)
      (getMonitorGroupInfo m servers logpath root)
      (groupsChecksFrom m (servers.map RealServer.name) root node.head 0 ++
        showChecksFrom m node.head 0) := by
  have hmem : ∀ child ∈ node.head, child ∈ root.head.flatMap ConfNode.head := fun c hc =>
    List.mem_flatMap.mpr ⟨node, mem_of_confGetNode (by decide) (by decide) hnode, hc⟩
  have hfill : Start.Checks (Monitors.Holds h block node.head.length)
      (getMonitorGroupInfoFrom m servers logpath root node.head 0) _ :=
    checks_groupsFrom hmem hlog (Nat.zero_add _)
  have hrun : getMonitorGroupInfo m servers logpath root =
      getMonitorGroupInfoFrom m servers logpath root node.head 0 >>= fun _ =>
        Start.get >>= fun s => showGroupsFrom 0 s.gMonitorgroupNum := by
    unfold getMonitorGroupInfo
    rw [hnode]
    rfl
  -- what is shown is what the loop has filled
  have hshow : ∀ s a s', Monitors.Holds h block node.head.length s →
      getMonitorGroupInfoFrom m servers logpath root node.head 0 s = (.done a, s') →
        Start.Checks (· = s') (Start.get >>= fun s => showGroupsFrom 0 s.gMonitorgroupNum)
          (showChecksFrom m node.head 0) := by
    intro s a s' hs hfilled
    have hs' := hfill.keeps s hs
    rw [hfilled] at hs'
    obtain ⟨es, hes, -⟩ := hs.group
    obtain ⟨es', hgroup, -, hmade⟩ := groupsFrom_done hes hfilled
    refine Start.Checks.bind_value (P := (· = s')) (l := []) Start.Checks.get
      (fun t b t' ht hb => ?_) fun t ht => ?_
    · cases hb
      exact ht
    · rw [ht, hs'.num_eq]
      exact checks_showGroupsFrom hgroup hmade
  rw [hrun]
  refine ⟨fun s hs => Start.verdict_bind (hfill.verdict s hs) fun a s' hfilled =>
    (hshow s a s' hs hfilled).verdict s' rfl, fun s hs => ?_⟩
  have hs' := hfill.keeps s hs
  rcases hfilled : getMonitorGroupInfoFrom m servers logpath root node.head 0 s with
    ⟨a | _ | c | _, s'⟩ <;> rw [hfilled] at hs'
  · rw [Start.bind_of_done hfilled, (hshow s a s' hs hfilled).keeps s' rfl]
    exact hs'
  · rw [Start.bind_of_failed hfilled]
    exact hs'
  · rw [Start.bind_of_exits hfilled]
    exact hs'
  · rw [Start.bind_of_crash hfilled]
    exact hs'

/-- Filling the array, and clearing it up after an error. -/
theorem groupsOrExit_end {node : ConfNode} {h : Heap} {block : ℕ}
    (hnode : confGetNode root "monitor-group".toList = some node)
    (hlog : logpath.length < NEWIUP_PATH_LEN) (hs : s.Holds h block node.head.length)
    (ho : Owns h (block :: rest)) :
    (Start.orElse (getMonitorGroupInfo m servers logpath root) Monitors.monitorGroupExit
          s).1.verdict =
        firstStop (groupsChecksFrom m (servers.map RealServer.name) root node.head 0 ++
          showChecksFrom m node.head 0) ∧
      (Start.orElse (getMonitorGroupInfo m servers logpath root) Monitors.monitorGroupExit
        s).2.Tidy rest := by
  have hinfo : Start.Checks (Monitors.Holds h block node.head.length)
    (getMonitorGroupInfo m servers logpath root) _ := checks_getMonitorGroupInfo hnode hlog
  have hv := hinfo.verdict s hs
  have hkeep := hinfo.keeps s hs
  have htidy : ∀ t : Monitors, t.Holds h block node.head.length → t.Tidy rest := by
    rintro t ⟨hheap, hnum, es, hes, hlen⟩
    exact .inr ⟨block, es, hes, hlen.trans hnum.symm, hheap ▸ ho⟩
  unfold Start.orElse
  rcases hr : getMonitorGroupInfo m servers logpath root s with ⟨a | _ | c | _, s'⟩ <;>
    rw [hr] at hv hkeep
  · exact ⟨hv, htidy s' hkeep⟩
  · obtain ⟨s'', hexit, hnone, ho''⟩ := (htidy s' hkeep).exit
    have hrun : (Monitors.monitorGroupExit >>= fun _ => (Start.fail : Start Monitors Unit)) s' =
        (.failed, s'') := Start.bind_of_done hexit
    dsimp only
    rw [hrun]
    exact ⟨hv, .inl ⟨hnone, ho''⟩⟩
  · exact ⟨hv, htidy s' hkeep⟩
  · exact ⟨hv, htidy s' hkeep⟩

/-- **How `monitor_group_init` ends** is how its checks go, and where it returns what it
leaves can be cleared up. -/
theorem monitorGroupInit_end (hs : s.gMonitorgroup = none) (ho : Owns s.heap rest)
    (hlog : logpath.length < NEWIUP_PATH_LEN) :
    (monitorGroupInit m servers logpath root s).1.verdict =
        firstStop (groupsChecks m (servers.map RealServer.name) root s.heap.answer) ∧
      ((monitorGroupInit m servers logpath root s).1 ≠ .crash →
        (monitorGroupInit m servers logpath root s).2.Tidy rest) := by
  unfold monitorGroupInit confGetChildNumber groupsChecks
  cases hnode : confGetNode root "monitor-group".toList with
  | none => exact ⟨rfl, fun h => absurd rfl h⟩
  | some node =>
    have hnum : ((Start.deref (some node) >>= fun node => pure node.head.length) :
        Start Monitors ℕ) s = (.done node.head.length, s) := rfl
    rw [Start.bind_of_done hnum, Start.modify_bind, firstStop_cons, firstStop_cons]
    by_cases hpos : 0 < node.head.length
    · have hguard : Start.guard (0 < node.head.length)
          { s with gMonitorgroupNum := node.head.length } =
            (.done (), { s with gMonitorgroupNum := node.head.length }) :=
        Start.guard_done_iff.mpr ⟨hpos, rfl⟩
      obtain ⟨h', -, hmalloc⟩ := ho.malloc
      have hzoom : ∀ {o}, malloc s.heap = (.done o, h') →
          Start.zoom Monitors.heap (fun heap s => { s with heap }) malloc
            { s with gMonitorgroupNum := node.head.length } =
              (.done o, { s with heap := h', gMonitorgroupNum := node.head.length }) := by
        intro o hrun
        rw [Start.zoom, hrun]
      rw [if_pos hpos, Verdict.pass_andThen, Start.bind_of_done hguard]
      rcases hmalloc with ⟨ha, hrun, ho'⟩ | ⟨ha, hrun, ho'⟩
      · rw [ha, if_pos rfl, Verdict.pass_andThen, Start.bind_of_done (hzoom hrun)]
        obtain ⟨hv, htidy⟩ := @groupsOrExit_end m servers logpath root rest
          { heap := h', gMonitorgroup := some (s.heap.next, List.replicate node.head.length .zero)
            gMonitorgroupNum := node.head.length } node h' s.heap.next hnode hlog
          ⟨rfl, rfl, _, rfl, List.length_replicate⟩ ho'
        exact ⟨hv, fun _ => htidy⟩
      · rw [ha, if_neg Bool.false_ne_true, Start.bind_of_done (hzoom hrun)]
        exact ⟨rfl, fun _ => .inl ⟨rfl, ho'⟩⟩
    · have hguard : Start.guard (0 < node.head.length)
          { s with gMonitorgroupNum := node.head.length } =
            (.failed, { s with gMonitorgroupNum := node.head.length }) := by
        rw [Start.guard, if_neg hpos]
        rfl
      rw [if_neg hpos, Start.bind_of_failed hguard]
      exact ⟨rfl, fun _ => .inl ⟨hs, ho⟩⟩

/-- The checks of the groups end no process. -/
theorem groupsChecks_ne_exit (names : List CString) (answer : Bool) :
    firstStop (groupsChecks m names root answer) ≠ .exit := by
  -- no entry of the list of checks is an exit, from the keys of a group up to the whole list
  have hite : ∀ {c : Prop} [Decidable c] {v w : Verdict}, v ≠ .exit → w ≠ .exit →
      (if c then v else w) ≠ .exit := by
    intro c _ v w hv hw
    split <;> assumption
  have hkeys : ∀ child, ∀ v ∈ groupKeyChecks root child, v ≠ .exit := by
    intro child v hv
    simp only [groupKeyChecks, List.mem_cons, List.not_mem_nil, or_false] at hv
    rcases hv with rfl | rfl | rfl | rfl | rfl | rfl | rfl | rfl
    · exact nameCheck_ne_exit root child
    · exact keyCheck_ne_exit nofun nofun fun _ => hite nofun nofun
    · exact keyCheck_ne_exit nofun nofun fun _ => nofun
    · exact keyCheck_ne_exit nofun nofun fun _ => nofun
    · exact keyCheck_ne_exit nofun nofun fun _ => hite nofun nofun
    · exact keyCheck_ne_exit nofun nofun fun _ => nofun
    · exact keyCheck_ne_exit nofun nofun fun _ => hite nofun nofun
    · exact keyCheck_ne_exit nofun (hite nofun nofun) fun _ =>
        hite nofun (hite nofun (hite nofun nofun))
  have hlist : ∀ (m : ListMallocs) primer back,
      ∀ v ∈ listChecks m names primer back, v ≠ .exit := by
    intro m primer back v hv
    unfold listChecks at hv
    dsimp only at hv
    split at hv
    · rw [List.mem_singleton.mp hv]
      exact nofun
    · obtain ⟨i, -, hi⟩ := List.mem_flatMap.mp hv
      simp only [List.mem_cons, List.not_mem_nil, or_false] at hi
      rcases hi with rfl | rfl
      · exact hite nofun nofun
      · unfold backCheck
        cases backOf m (strSplitAlloc m.splitBackG back '|').strArray i with
        | none => exact nofun
        | some b => exact hite nofun (hite nofun nofun)
  have hgroup : ∀ m child, ∀ v ∈ groupChecks m names root child, v ≠ .exit := by
    intro m child v hv
    simp only [groupChecks, groupServersChecks, List.mem_append, List.mem_cons, List.not_mem_nil,
      or_false] at hv
    rcases hv with hv | (rfl | rfl | hv | rfl) | rfl
    · exact hkeys child v hv
    · exact keyCheck_ne_exit nofun nofun fun _ => nofun
    · exact keyCheck_ne_exit nofun nofun fun _ => nofun
    · exact hlist m _ _ v hv
    · exact hite nofun nofun
    · exact hite nofun nofun
  have hgroups : ∀ (children : List ConfNode) (count : ℕ),
      ∀ v ∈ groupsChecksFrom m names root children count, v ≠ .exit := by
    intro children
    induction children with
    | nil => exact fun count v hv => absurd hv List.not_mem_nil
    | cons child rest ih =>
      intro count v hv
      rcases List.mem_append.mp hv with hv | hv
      · exact hgroup _ child v hv
      · exact ih (count + 1) v hv
  have hshow : ∀ (children : List ConfNode) (count : ℕ),
      ∀ v ∈ showChecksFrom m children count, v ≠ .exit := by
    intro children
    induction children with
    | nil => exact fun count v hv => absurd hv List.not_mem_nil
    | cons child rest ih =>
      intro count v hv
      rcases List.mem_cons.mp hv with rfl | hv
      · exact hite nofun nofun
      · exact ih (count + 1) v hv
  refine firstStop_ne_exit fun v hv => ?_
  unfold groupsChecks at hv
  cases hnode : confGetNode root "monitor-group".toList with
  | none =>
    rw [hnode] at hv
    rw [List.mem_singleton.mp hv]
    exact nofun
  | some node =>
    rw [hnode] at hv
    simp only [List.mem_cons, List.mem_append] at hv
    rcases hv with rfl | rfl | hv | hv
    · exact hite nofun nofun
    · exact hite nofun nofun
    · exact hgroups _ _ v hv
    · exact hshow _ _ v hv

end MonitorsEnd
end Newiup
