import Newiup.Fs
import Newiup.Start

/-!
# The configuration tree

The tree that `ConfYamlParse` builds and the look-ups in it, with the functions of the
C library that the initialisers apply to its values.  A look-up below a null pointer is
undefined, and so is a copy that does not fit.

A section that is not in the file gives a null pointer, a key that is not there leaves the
variable of the caller as it was, and a key without a value makes it a null pointer.  Most
callers use what they get without a look at it.  So the undefined cases are part of the
model of each function, and whether one of them is reached is a question about the whole
configuration.

## Main definitions

* `ConfNode` — a node with its name, its value and its children.
* `confNodeLookupChild`, `confGetNode`, `confGetChildValue` — the look-ups.
* `ConfNode.valueOf` — the value a child's key has.
* `atoi`, `strcpy`, `strncpy`.
-/

namespace Newiup

/-- `struct ConfNode`: the name, the value if there is one, and the children in order. -/
structure ConfNode where
  /-- `name`. -/
  name : CString
  /-- `val`. -/
  val : Option CString
  /-- `head`. -/
  head : List ConfNode

/-- `ConfNodeLookupChild`: the first child of the name. -/
def confNodeLookupChild (node : ConfNode) (name : CString) : Option ConfNode :=
  node.head.find? fun child => child.name = name

/-- `ConfGetNode`: one look-up for each token between the dots. -/
def confGetNode (root : ConfNode) (key : CString) : Option ConfNode :=
  ((key.splitOn '.').filter (· ≠ [])).foldlM confNodeLookupChild root

/-- The value under a key: what a reader of the tree expects. -/
def ConfNode.valueOf (node : ConfNode) (key : CString) : Option CString :=
  (confNodeLookupChild node key).bind ConfNode.val

/-- A key without dots is one look-up. -/
theorem confGetNode_key {root : ConfNode} {key : CString} (hdot : '.' ∉ key) (hne : key ≠ []) :
    confGetNode root key = confNodeLookupChild root key := by
  rw [confGetNode, List.splitOn_eq_singleton hdot]
  simp [hne]

theorem mem_of_confGetNode {root node : ConfNode} {key : CString} (hdot : '.' ∉ key)
    (hne : key ≠ []) (h : confGetNode root key = some node) : node ∈ root.head := by
  rw [confGetNode_key hdot hne] at h
  exact List.mem_of_find?_eq_some h

/-- A key with a value. -/
def ConfNode.key (name val : String) : ConfNode := ⟨name.toList, some val.toList, []⟩

/-- The tree of a configuration with one section. -/
def treeOf (node : ConfNode) : ConfNode := ⟨[], none, [node]⟩

theorem confGetNode_treeOf {node : ConfNode} (hdot : '.' ∉ node.name) (hne : node.name ≠ []) :
    confGetNode (treeOf node) node.name = some node := by
  rw [confGetNode_key hdot hne]
  simp [confNodeLookupChild, treeOf]

variable {σ : Type}

/-- `ConfGetChildValue`: the result, and what `*vptr` is afterwards.  A missing key leaves
`*vptr` as it was. -/
def confGetChildValue (base : Option ConfNode) (name : CString) (vptr : Option CString) :
    Start σ (ℤ × Option CString) := do
  let node ← Start.deref base
  match confNodeLookupChild node name with
  | none => pure (0, vptr)
  | some child => pure (1, child.val)

/-- What a look-up leaves in the variable it is given. -/
def ConfNode.carry (node : ConfNode) (key : CString) (val : Option CString) : Option CString :=
  match confNodeLookupChild node key with
  | none => val
  | some child => child.val

/-- The key is there and has no value. -/
def ConfNode.Bare (node : ConfNode) (key : CString) : Prop :=
  ∃ child, confNodeLookupChild node key = some child ∧ child.val = none

theorem ConfNode.carry_of_valueOf {node : ConfNode} {key v : CString} {val : Option CString}
    (h : node.valueOf key = some v) : node.carry key val = some v := by
  obtain ⟨child, hchild, hval⟩ := Option.bind_eq_some_iff.mp h
  rw [ConfNode.carry, hchild]
  exact hval

theorem ConfNode.carry_of_missing {node : ConfNode} {key : CString} {val : Option CString}
    (h : confNodeLookupChild node key = none) : node.carry key val = val := by
  rw [ConfNode.carry, h]

theorem ConfNode.carry_none {node : ConfNode} {key : CString} :
    node.carry key none = node.valueOf key := by
  unfold ConfNode.carry ConfNode.valueOf
  cases confNodeLookupChild node key <;> rfl

/-- A value is lost where the key is there without one. -/
theorem ConfNode.carry_eq_none_iff {node : ConfNode} {key v : CString} :
    node.carry key (some v) = none ↔ node.Bare key := by
  unfold ConfNode.carry ConfNode.Bare
  cases confNodeLookupChild node key <;> simp

theorem ConfNode.Bare.valueOf {node : ConfNode} {key : CString} (h : node.Bare key) :
    node.valueOf key = none := by
  obtain ⟨child, hchild, hval⟩ := h
  rw [ConfNode.valueOf, hchild]
  exact hval

/-- **What a look-up leaves is the key's own value or what was there before.** -/
theorem ConfNode.carry_eq_some {node : ConfNode} {key v : CString} {val : Option CString}
    (h : node.carry key val = some v) : node.valueOf key = some v ∨ val = some v := by
  unfold ConfNode.carry at h
  unfold ConfNode.valueOf
  cases hl : confNodeLookupChild node key with
  | none => rw [hl] at h; exact .inr h
  | some child => rw [hl] at h; exact .inl h

/-- **A reader sees the key's own value** where the key is there, or where what was there
before reads like no value. -/
theorem ConfNode.carry_own_iff {β : Type*} {node : ConfNode} {key : CString}
    {val : Option CString} (f : Option CString → β) :
    f (node.carry key val) = f (node.valueOf key) ↔
      confNodeLookupChild node key ≠ none ∨ f val = f none := by
  unfold ConfNode.carry ConfNode.valueOf
  cases confNodeLookupChild node key <;> simp

/-- **A look-up below a node** says whether the key is there and carries its value. -/
theorem confGetChildValue_some (node : ConfNode) (key : CString) (val : Option CString) :
    (confGetChildValue (some node) key val : Start σ _) =
      pure (if (confNodeLookupChild node key).isSome then 1 else 0, node.carry key val) := by
  funext s
  rw [confGetChildValue, Start.deref_some, Start.pure_bind, ConfNode.carry]
  cases confNodeLookupChild node key <;> rfl

theorem confGetChildValue_null (key : CString) (val : Option CString) :
    (confGetChildValue none key val : Start σ _) = Start.crash := by
  funext s
  rw [confGetChildValue, Start.deref_none, Start.crash_bind, Start.crash_apply]

/-- `ConfGetChildNumber`. -/
def confGetChildNumber (root : ConfNode) (name : CString) : Start σ ℕ := do
  let node ← Start.deref (confGetNode root name)
  pure node.head.length

/-- The loops of `ConfNodeNameCheck`, from a node on; `num` counts the nodes of the name. -/
def nameCheckFrom (name : Option CString) : List ConfNode → ℕ → Start σ ℤ
  | [], _ => pure 0
  | child :: rest, num => do
    let val ← Start.deref child.val
    let name' ← Start.deref name
    if val = name' then
      if 2 ≤ num + 1 then pure (-1) else nameCheckFrom name rest (num + 1)
    else nameCheckFrom name rest num

/-- `ConfNodeNameCheck`, over the children of the sections. -/
def confNodeNameCheck (root : ConfNode) (name : Option CString) : Start σ ℤ :=
  nameCheckFrom name (root.head.flatMap ConfNode.head) 0

/-- A key that a section's entry must have; what is read into the shared variable is not
read again where the key is missing. -/
def entryKey (child : ConfNode) (key : CString) : Start σ (Option CString) := do
  let found ← confGetChildValue (some child) key none
  Start.guard (found.1 ≠ 0)
  pure found.2

/-! ### The C library -/

/-- `isspace`. -/
def isSpace (c : Char) : Bool := c = ' ' || (9 ≤ c.toNat && c.toNat ≤ 13)

/-- The digits at the front of a string, as a number. -/
def digits (s : CString) : ℕ :=
  (s.takeWhile Char.isDigit).foldl (fun n c => 10 * n + (c.toNat - '0'.toNat)) 0

/-- `strtol` to base ten: blanks, a sign, digits, and the ends of `long` where it is left. -/
def strtol (s : CString) : ℤ :=
  match s.dropWhile isSpace with
  | '-' :: t => max (-(digits t : ℤ)) (-2 ^ 63)
  | '+' :: t => min (digits t : ℤ) (2 ^ 63 - 1)
  | t => min (digits t : ℤ) (2 ^ 63 - 1)

/-- `atoi`: `strtol` as an `int`. -/
def atoi (s : CString) : ℤ := (strtol s).bmod (2 ^ 32)

/-- `strncpy` into an array of `size` bytes, without an end where the string is longer. -/
def strncpy (size : ℕ) (src : CString) : CString := src.take size

/-- `strcpy` into an array of `size` bytes. -/
def strcpy (size : ℕ) (src : CString) : Start σ CString :=
  if src.length < size then pure src else Start.crash

theorem strcpy_of_lt {size : ℕ} {src : CString} (h : src.length < size) :
    (strcpy size src : Start σ CString) = pure src := if_pos h

theorem strcpy_of_le {size : ℕ} {src : CString} (h : size ≤ src.length) :
    (strcpy size src : Start σ CString) = Start.crash := if_neg (by omega)

theorem strcpy_done_iff {size : ℕ} {src copy : CString} {s s' : σ} :
    strcpy size src s = (.done copy, s') ↔ src.length < size ∧ copy = src ∧ s' = s := by
  unfold strcpy
  split
  · next h => simp [h, eq_comm]
  · next h => simp [h]

/-! ### Computations that only read -/

section Reading

variable {τ : Type} {g : σ → τ}

theorem keeps_strcpy (size : ℕ) (src : CString) :
    Start.Keeps g (strcpy size src : Start σ CString) := by
  unfold strcpy
  split
  · exact .pure src
  · exact .crash

theorem keeps_confGetChildValue (base : Option ConfNode) (key : CString) (val : Option CString) :
    Start.Keeps g (confGetChildValue base key val : Start σ _) := by
  cases base with
  | none =>
    rw [confGetChildValue_null]
    exact .crash
  | some node =>
    rw [confGetChildValue_some]
    exact .pure _

theorem keeps_entryKey (child : ConfNode) (key : CString) :
    Start.Keeps g (entryKey child key : Start σ _) :=
  (keeps_confGetChildValue _ _ _).bind fun _ => (Start.Keeps.guard _).bind fun _ => .pure _

theorem keeps_nameCheckFrom (name : Option CString) (nodes : List ConfNode) (num : ℕ) :
    Start.Keeps g (nameCheckFrom name nodes num : Start σ ℤ) := by
  induction nodes generalizing num with
  | nil => exact .pure 0
  | cons child rest ih =>
    refine (Start.Keeps.deref _).bind fun val => (Start.Keeps.deref _).bind fun name' => ?_
    split
    · split
      · exact .pure (-1)
      · exact ih _
    · exact ih _

end Reading

/-- A key of an entry that is read is there. -/
theorem entryKey_done {child : ConfNode} {key : CString} {str : Option CString} {s s' : σ}
    (h : entryKey child key s = (.done str, s')) :
    s' = s ∧ (∃ c, confNodeLookupChild child key = some c) ∧ str = child.valueOf key := by
  unfold entryKey at h
  rw [confGetChildValue_some, Start.pure_bind] at h
  cases hc : confNodeLookupChild child key with
  | none => simp [hc, Start.guard] at h
  | some c =>
    simp [hc, Start.guard, ConfNode.carry] at h
    exact ⟨h.2.symm, ⟨c, rfl⟩, by rw [← h.1, ConfNode.valueOf, hc]; rfl⟩

/-- **A name that passes the check** is the value of at most one node. -/
theorem nameCheckFrom_done {name : CString} {nodes : List ConfNode} {num : ℕ} {s s' : σ}
    (hnum : num < 2) (h : nameCheckFrom (some name) nodes num s = (.done 0, s')) :
    num + (nodes.map ConfNode.val).count (some name) < 2 := by
  induction nodes generalizing num with
  | nil => simpa using hnum
  | cons child rest ih =>
    rw [nameCheckFrom] at h
    cases hval : child.val with
    | none => simp [hval] at h
    | some val =>
      simp only [hval, Start.deref_some, Start.pure_bind] at h
      rw [List.map_cons, hval, List.count_cons]
      split at h
      · next heq =>
        subst heq
        split at h
        · cases h
        · next hlt =>
          have := ih (by omega) h
          simp only [beq_self_eq_true, if_true]
          omega
      · next hne =>
        have := ih hnum h
        simpa [hne] using this

end Newiup
