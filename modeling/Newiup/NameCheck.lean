import Newiup.ServerChecks

/-!
# The check for repeated names

`ConfNodeNameCheck` looks for a name among the values of all sections, so a setting counts
that has nothing to do with the names of servers and groups.

It is called with the value of an entry of `servers` or `monitor-group`, which is the name
of that entry, and counts in how many entries of the file this value comes up.  A path or
a number that reads like the name of a server is counted with the others, and the name is
then rejected although it is the only one.

## Main definitions

* `namedEntries`, `otherEntries` — the entries that have a name, and all others.
* `Rejected` — `ConfNodeNameCheck` reports a repetition.
* `NamesExact` — exactly the repeated names are rejected.

## Main results

* `nameRejected_iff` — **a name is rejected when it is the value of two entries of any section.**
* `namesExact_iff` — **the check is exact where no setting looks like a name.**
-/

namespace Newiup

/-- An element stands at two places when it is counted twice. -/
theorem two_le_count_iff {α : Type*} [BEq α] [LawfulBEq α] {l : List α} {a : α} {i : ℕ}
    (h : l[i]? = some a) : 2 ≤ l.count a ↔ ∃ j, j ≠ i ∧ l[j]? = some a := by
  obtain ⟨hi, hget⟩ := List.getElem?_eq_some_iff.mp h
  -- the place itself counts for one; the other one is before it or behind it
  have hcount : l.count a = (l.take i).count a + ((l.drop (i + 1)).count a + 1) := by
    conv_lhs => rw [← List.take_append_drop i l, List.drop_eq_getElem_cons hi, hget]
    rw [List.count_append, List.count_cons_self]
  constructor
  · intro htwo
    have hmem : a ∈ l.take i ∨ a ∈ l.drop (i + 1) := by
      by_contra hnot
      obtain ⟨hbefore, hafter⟩ := not_or.mp hnot
      rw [hcount, List.count_eq_zero_of_not_mem hbefore,
        List.count_eq_zero_of_not_mem hafter] at htwo
      omega
    rcases hmem with hmem | hmem
    · obtain ⟨j, hj⟩ := List.mem_iff_getElem?.mp hmem
      rw [List.getElem?_take] at hj
      split at hj
      · next hlt => exact ⟨j, hlt.ne, hj⟩
      · cases hj
    · obtain ⟨j, hj⟩ := List.mem_iff_getElem?.mp hmem
      rw [List.getElem?_drop] at hj
      exact ⟨i + 1 + j, by omega, hj⟩
  · rintro ⟨j, hne, hj⟩
    have hpos : 0 < (l.take i).count a ∨ 0 < (l.drop (i + 1)).count a := by
      rcases Nat.lt_or_gt_of_ne hne with hlt | hgt
      · left
        refine List.count_pos_iff.mpr (List.mem_iff_getElem?.mpr ⟨j, ?_⟩)
        rw [List.getElem?_take_of_lt hlt, hj]
      · right
        refine List.count_pos_iff.mpr (List.mem_iff_getElem?.mpr ⟨j - (i + 1), ?_⟩)
        rw [List.getElem?_drop, show i + 1 + (j - (i + 1)) = j by omega, hj]
    omega

/-- The sections whose entries have names. -/
def nameSections : List CString := ["servers".toList, "monitor-group".toList]

/-- The entries of `servers` and `monitor-group`; the value of an entry is its name. -/
def namedEntries (root : ConfNode) : List ConfNode :=
  (root.head.filter fun sec => sec.name ∈ nameSections).flatMap ConfNode.head

/-- The entries of all other sections. -/
def otherEntries (root : ConfNode) : List ConfNode :=
  (root.head.filter fun sec => !decide (sec.name ∈ nameSections)).flatMap ConfNode.head

/-- All second-level nodes have a value. -/
def Valued (root : ConfNode) : Prop := ∀ entry ∈ root.head.flatMap ConfNode.head, entry.val ≠ none

instance (root : ConfNode) : Decidable (Valued root) :=
  inferInstanceAs (Decidable (∀ entry ∈ root.head.flatMap ConfNode.head, entry.val ≠ none))

/-- `ConfNodeNameCheck` reports the name of the entry as repeated.  The result of the function
is the same wherever it is called; it reads the tree and nothing else. -/
def Rejected (root entry : ConfNode) : Prop :=
  ∃ code, code ≠ 0 ∧ ∀ {σ : Type} (s : σ), confNodeNameCheck root entry.val s = (.done code, s)

/-- Another of the entries with names has the name of the entry `i`. -/
def Repeated (root : ConfNode) (i : ℕ) : Prop :=
  ∃ j, j ≠ i ∧ ∃ entry ∈ (namedEntries root)[i]?, ∃ other ∈ (namedEntries root)[j]?,
    other.val = entry.val

/-- **The check is exact**: it rejects the repeated names, and so no name where the names
are distinct. -/
structure NamesExact (root : ConfNode) : Prop where
  rejected_iff : ∀ i, ∀ entry ∈ (namedEntries root)[i]?, Rejected root entry ↔ Repeated root i
  accepted : ((namedEntries root).map ConfNode.val).Nodup →
    ∀ entry ∈ namedEntries root, ¬Rejected root entry

section Names

variable {root entry : ConfNode} {i : ℕ}

theorem repeated_iff (h : (namedEntries root)[i]? = some entry) :
    Repeated root i ↔ 2 ≤ ((namedEntries root).map ConfNode.val).count entry.val := by
  have hval : ((namedEntries root).map ConfNode.val)[i]? = some entry.val := by
    rw [List.getElem?_map, h]
    rfl
  rw [two_le_count_iff hval, Repeated]
  refine exists_congr fun j => and_congr_right fun _ => ?_
  simp [h]

/-- What stands in all sections stands in one kind or the other. -/
theorem count_entries (v : Option CString) :
    ((root.head.flatMap ConfNode.head).map ConfNode.val).count v =
      ((namedEntries root).map ConfNode.val).count v +
        ((otherEntries root).map ConfNode.val).count v := by
  have hperm := List.filter_append_perm (fun sec : ConfNode => decide (sec.name ∈ nameSections))
    root.head
  rw [← ((hperm.flatMap_right ConfNode.head).map ConfNode.val).count_eq, List.flatMap_append,
    List.map_append, List.count_append, namedEntries, otherEntries]

/-- **A name is rejected** when it is the value of two entries of any section. -/
theorem nameRejected_iff (hvals : Valued root) (hentry : entry ∈ root.head.flatMap ConfNode.head) :
    Rejected root entry ↔
      2 ≤ ((root.head.flatMap ConfNode.head).map ConfNode.val).count entry.val := by
  obtain ⟨name, hname⟩ := Option.ne_none_iff_exists'.mp (hvals entry hentry)
  have hnone : none ∉ (root.head.flatMap ConfNode.head).map ConfNode.val := by
    intro hmem
    obtain ⟨node, hnode, hval⟩ := List.mem_map.mp hmem
    exact hvals node hnode hval
  -- every value can be compared, and the count goes over all of them
  have hall : ((root.head.flatMap ConfNode.head).map ConfNode.val).takeWhile Option.isSome =
      (root.head.flatMap ConfNode.head).map ConfNode.val := by
    refine List.takeWhile_eq_self_iff.mpr fun v hv => ?_
    exact Option.isSome_iff_ne_none.mpr fun h => hnone (h ▸ hv)
  have hrun : ∀ {σ : Type} (s : σ), confNodeNameCheck root entry.val s =
      (.done (if 2 ≤ ((root.head.flatMap ConfNode.head).map ConfNode.val).count entry.val then -1
        else 0), s) := by
    intro σ s
    rw [hname, confNodeNameCheck, nameCheckFrom_eq (by decide), hall, Nat.zero_add, if_neg hnone]
    split <;> rfl
  constructor
  · rintro ⟨code, hcode, hcheck⟩
    by_contra htwo
    have hends := (hrun ()).symm.trans (hcheck ())
    rw [if_neg htwo] at hends
    cases hends
    exact hcode rfl
  · intro htwo
    refine ⟨-1, by decide, fun s => ?_⟩
    rw [hrun s, if_pos htwo]

theorem mem_of_mem_namedEntries (h : entry ∈ namedEntries root) :
    entry ∈ root.head.flatMap ConfNode.head := by
  obtain ⟨sec, hsec, hentry⟩ := List.mem_flatMap.mp h
  exact List.mem_flatMap.mpr ⟨sec, List.mem_of_mem_filter hsec, hentry⟩

/-- A name is rejected where it is repeated, or is a value in another section. -/
theorem rejected_iff_repeated_or (hvals : Valued root) (h : (namedEntries root)[i]? = some entry) :
    Rejected root entry ↔ Repeated root i ∨ ∃ other ∈ otherEntries root, other.val = entry.val := by
  have hmem : entry ∈ namedEntries root := List.mem_of_getElem? h
  have hown : 0 < ((namedEntries root).map ConfNode.val).count entry.val :=
    List.count_pos_iff.mpr (List.mem_map_of_mem hmem)
  have hothers : (∃ other ∈ otherEntries root, other.val = entry.val) ↔
      0 < ((otherEntries root).map ConfNode.val).count entry.val := by
    rw [List.count_pos_iff, List.mem_map]
  rw [nameRejected_iff hvals (mem_of_mem_namedEntries hmem), count_entries, repeated_iff h, hothers]
  omega

/-- **When the check is exact**: a name that is a value in another section is repeated
anyway. -/
theorem namesExact_iff (root : ConfNode) (hvals : Valued root) :
    NamesExact root ↔ ∀ i, ∀ entry ∈ (namedEntries root)[i]?,
      (∃ other ∈ otherEntries root, other.val = entry.val) → Repeated root i := by
  constructor
  · intro hexact i entry h hother
    exact (hexact.rejected_iff i entry h).mp ((rejected_iff_repeated_or hvals h).mpr (.inr hother))
  · intro hcond
    have hiff : ∀ i, ∀ entry ∈ (namedEntries root)[i]?, Rejected root entry ↔ Repeated root i := by
      intro i entry h
      rw [rejected_iff_repeated_or hvals h]
      exact or_iff_left_of_imp (hcond i entry h)
    refine ⟨hiff, fun hnodup entry hentry hrejected => ?_⟩
    obtain ⟨i, hi⟩ := List.mem_iff_getElem?.mp hentry
    have htwo := (repeated_iff hi).mp ((hiff i entry hi).mp hrejected)
    have hone := List.nodup_iff_count_le_one.mp hnodup entry.val
    omega

end Names

/-! ### Two configurations -/

/-- An entry of a section, by its name. -/
def ConfNode.entry (name : String) : ConfNode := ⟨"0".toList, some name.toList, []⟩

/-- One server, and the settings of the database. -/
def withServer (server : String) : ConfNode :=
  ⟨[], none, [⟨"servers".toList, none, [.entry server]⟩,
    ⟨"DBServer".toList, none, [.key "DBHost" "127.0.0.1", .key "DBUser" "root"]⟩]⟩

theorem namesExact_iff_srv : NamesExact (withServer "srv") :=
  (namesExact_iff (withServer "srv") (by decide +kernel)).mpr fun i entry h hother => by
    have hmem : entry ∈ [ConfNode.entry "srv"] := List.mem_of_getElem? h
    obtain rfl := List.mem_singleton.mp hmem
    have hnone : ¬∃ other ∈ otherEntries (withServer "srv"),
      other.val = (ConfNode.entry "srv").val := by decide +kernel
    exact absurd hother hnone

/-- **A server called as the user of the database** is rejected. -/
theorem user_rejects_server : ¬∀ root, Valued root → NamesExact root := by
  intro h
  have hexact := h (withServer "root") (by decide +kernel)
  refine hexact.accepted (by decide +kernel) (.entry "root") (by simp [withServer, namedEntries,
    nameSections]) ⟨-1, by decide, fun s => ?_⟩
  rfl

end Newiup
