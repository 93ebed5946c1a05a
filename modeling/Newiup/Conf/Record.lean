import Newiup.Conf

/-!
# The nodes of the configuration store

The whole `struct ConfNode_`: besides the name, the value and the children that the
initialisers read, a node says whether it stands for a mapping in a sequence, whether its
value may be replaced, and whether it knows its parent.

The loader builds and changes this tree, and the initialisers only look names up in
it.  The two views are kept apart, so that a proof about look-ups does not meet what the
loader alone reads; `ConfRecord.node` leads from one to the other, and a look-up gives the
same on both sides.

## Main definitions

* `ConfRecord` — a node.
* `ConfRecord.node` — the part of it that the initialisers read.
* `ConfRecord.indexOf`, `ConfRecord.lookupChild` — a child, by its name.
* `ConfRecord.descend` — the node under a path of names.
-/

namespace Newiup

/-- `struct ConfNode_`. -/
structure ConfRecord where
  /-- `name`; a null pointer at the root. -/
  name : Option CString
  /-- `val`. -/
  val : Option CString
  /-- `is_seq`. -/
  isSeq : Bool
  /-- `allow_override`. -/
  allowOverride : Bool
  /-- `parent` is no null pointer; it leads to the node whose child this is. -/
  hasParent : Bool
  /-- `head`. -/
  head : List ConfRecord

/-- `ConfNodeNew`, where its allocation succeeds. -/
def confNodeNew : ConfRecord := ⟨none, none, false, true, false, []⟩

namespace ConfRecord

mutual

/-- What the initialisers read of a node. -/
def node : ConfRecord → ConfNode
  | ⟨name, val, _, _, _, head⟩ => ⟨name.getD [], val, nodes head⟩

/-- What they read of the children. -/
def nodes : List ConfRecord → List ConfNode
  | [] => []
  | r :: rs => r.node :: nodes rs

end

theorem nodes_eq_map (rs : List ConfRecord) : nodes rs = rs.map node := by
  induction rs with
  | nil => rfl
  | cons r rs ih => rw [nodes, ih, List.map_cons]

/-- Every node below has a name. -/
def Named (r : ConfRecord) : Prop := ∀ c ∈ r.head, c.name.isSome = true

/-- The child of a name, as the place of the first one. -/
def indexOf (r : ConfRecord) (name : CString) : Option ℕ :=
  r.head.findIdx? fun child => child.name = some name

/-- `ConfNodeLookupChild`. -/
def lookupChild (r : ConfRecord) (name : CString) : Option ConfRecord :=
  r.head.find? fun child => child.name = some name

/-- A child is written. -/
def setChild (r : ConfRecord) (i : ℕ) (child : ConfRecord) : ConfRecord :=
  { r with head := r.head.set i child }

/-- `TAILQ_INSERT_TAIL`. -/
def append (r child : ConfRecord) : ConfRecord := { r with head := r.head ++ [child] }

/-- The initialisers find what is in the store. -/
theorem confNodeLookupChild_node {r : ConfRecord} (h : r.Named) (name : CString) :
    confNodeLookupChild r.node name = (r.lookupChild name).map node := by
  obtain ⟨rname, val, isSeq, allow, hasParent, head⟩ := r
  have hnamed : ∀ c ∈ head, c.name.isSome = true := h
  unfold confNodeLookupChild lookupChild
  rw [node, nodes_eq_map]
  dsimp only
  rw [List.find?_map]
  congr 1
  clear h
  induction head with
  | nil => rfl
  | cons c cs ih =>
    have hc := hnamed c List.mem_cons_self
    obtain ⟨cname, _, _, _, _, _⟩ := c
    cases cname with
    | none => cases hc
    | some n =>
      rw [List.find?_cons, List.find?_cons, ih fun c hc => hnamed c (List.mem_cons_of_mem _ hc)]
      by_cases hn : n = name <;> simp [node, hn]

theorem lookupChild_eq (r : ConfRecord) (name : CString) :
    r.lookupChild name = (r.indexOf name).bind fun i => r.head[i]? := by
  unfold lookupChild indexOf
  induction r.head with
  | nil => rfl
  | cons c cs ih =>
    rw [List.find?_cons, List.findIdx?_cons]
    by_cases hc : c.name = some name
    · simp [hc]
    · simp only [hc, decide_false, ih, Bool.false_eq_true, if_false]
      cases List.findIdx? (fun child => decide (child.name = some name)) cs <;> simp

/-! ### Writing and looking up -/

variable {r c d : ConfRecord} {n : CString} {i : ℕ}

theorem lookupChild_append (r c : ConfRecord) (n : CString) :
    (r.append c).lookupChild n =
      (r.lookupChild n).or (if c.name = some n then some c else none) := by
  unfold lookupChild append
  rw [List.find?_append, List.find?_singleton]
  simp only [decide_eq_true_eq]

/-- The first child of a name is written. -/
theorem lookupChild_setChild_self (hi : r.indexOf n = some i) (hc : c.name = some n) :
    (r.setChild i c).lookupChild n = some c := by
  obtain ⟨hlt, -, hfirst⟩ := List.findIdx?_eq_some_iff_getElem.mp hi
  refine List.find?_eq_some_iff_getElem.mpr ⟨decide_eq_true hc, i, ?_, ?_, fun j hj => ?_⟩
  · rw [setChild, List.length_set]
    exact hlt
  · simp [setChild]
  · have hne := hfirst j hj
    simp only [decide_eq_true_eq] at hne
    simp [setChild, List.getElem_set_ne (Nat.ne_of_gt hj), hne]

/-- A child of another name is written. -/
theorem lookupChild_setChild_of_ne (hi : r.head[i]? = some d) (hd : d.name ≠ some n)
    (hc : c.name ≠ some n) : (r.setChild i c).lookupChild n = r.lookupChild n := by
  unfold lookupChild setChild
  dsimp only
  obtain ⟨name, val, isSeq, allow, hasParent, head⟩ := r
  dsimp only at hi ⊢
  induction head generalizing i with
  | nil => rfl
  | cons e es ih =>
    cases i with
    | zero =>
      obtain rfl : e = d := by simpa using hi
      simp [hc, hd]
    | succ i =>
      rw [List.set_cons_succ, List.find?_cons, List.find?_cons, ih (by simpa using hi)]

/-- A path of names is followed. -/
def descend (r : ConfRecord) (path : List CString) : Option ConfRecord :=
  path.foldlM lookupChild r

@[simp] theorem descend_nil (r : ConfRecord) : r.descend [] = some r := rfl

@[simp] theorem descend_cons (r : ConfRecord) (n : CString) (path : List CString) :
    r.descend (n :: path) = (r.lookupChild n).bind fun c => c.descend path := rfl

end ConfRecord

open ConfRecord

/-- **A key with dots is a path of names.** -/
theorem confGetNode_descend {path : List CString} (hne : path ≠ [])
    (hpath : ∀ n ∈ path, n ≠ [] ∧ '.' ∉ n) {r : ConfRecord}
    (h : ∀ p c, r.descend p = some c → c.Named) :
    confGetNode r.node (['.'].intercalate path) = (r.descend path).map node := by
  have hfilter : path.filter (· ≠ []) = path :=
    List.filter_eq_self.mpr fun n hn => decide_eq_true (hpath n hn).1
  rw [confGetNode, List.splitOn_intercalate '.' (fun n hn => (hpath n hn).2) hne, hfilter]
  clear hne hpath hfilter
  induction path generalizing r with
  | nil => rfl
  | cons n path ih =>
    rw [List.foldlM_cons, descend_cons, confNodeLookupChild_node (h [] r rfl)]
    cases hfind : r.lookupChild n with
    | none => rfl
    | some c =>
      refine ih fun p d hd => h (n :: p) d ?_
      rw [descend_cons, hfind]
      exact hd

end Newiup
