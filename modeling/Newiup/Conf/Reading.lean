import Newiup.Conf.Names
import Newiup.Yaml.Grammar

/-!
# What a reader finds

A *plain* document has strings as keys, no aliases, and no sequence right below a sequence;
what it does to a node does not depend on the state of the loader.  A repeated key goes on
with the node it has: the last string is its value, and mappings are merged.  A key with an
underscore makes a new node every time, which a reader does not see when there is one of
that name already.

## Main definitions

* `Yaml.Plain`, `Yaml.into` — plain documents, and what they do to a node.
* `ConfRecord.enter` — what an entry does to the node of its mapping.
* `seen` — which node a reader finds after an entry.
* `Yaml.Unambiguous`, `Yaml.lookup` — documents without repeated keys, and what is in them.

## Main results

* `load_plain` — **the loader does to a node what the document does.**
* `lookupChild_entriesInto` — **which of the repeated keys a reader sees.**
* `descend_into` — **a reader finds in the store what is in the document.**
* `accepts_iff_of_writesStream` — the tokens of a file are those of no other file.
* `confGetNode_confYamlLoad` — **what is written in a file is what a reader finds.**
-/

namespace Newiup

namespace ConfRecord

/-- A value is assigned. -/
def assign (r : ConfRecord) (value : CString) : ConfRecord :=
  if r.allowOverride then { r with val := some value } else r

/-- A new node of a name. -/
def ofName (name : CString) : ConfRecord := { confNodeNew with name := some name }

/-- An entry of a mapping, with what its value does to the node of the key. -/
def enter (r : ConfRecord) (k : CString) (f : ConfRecord → ConfRecord) : ConfRecord :=
  let r' := Layer.firstKey r k
  match r'.indexOf k with
  | some i => r'.setChild i (f (r'.head.getD i confNodeNew))
  | none => r'.append (f (ofName (Layer.keyName r' k)))

/-- The node of a mapping in a sequence. -/
def ofItem (idx : ℕ) : ConfRecord := { confNodeNew with isSeq := true, name := some (itemName idx) }

end ConfRecord

open ConfRecord

/-! ### Plain documents -/

/-- A sequence. -/
def Yaml.isSequence : Yaml CString → Bool
  | .sequence _ => true
  | _ => false

/-- The string of a key. -/
def Yaml.key? : Yaml CString → Option CString
  | .scalar value => some value
  | _ => none

mutual

/-- **Plain documents.**  Aliases are not followed by the loader, and a sequence in a sequence
has no node of its own in the store; what such a document says is not there to be looked up. -/
def Yaml.Plain : Yaml CString → Prop
  | .scalar _ => True
  | .alias => False
  | .sequence items => PlainItems items
  | .mapping entries => PlainEntries entries

/-- The items of a plain sequence. -/
def PlainItems : List (Yaml CString) → Prop
  | [] => True
  | y :: ys => y.isSequence = false ∧ y.Plain ∧ PlainItems ys

/-- The entries of a plain mapping. -/
def PlainEntries : List (Yaml CString × Yaml CString) → Prop
  | [] => True
  | (k, v) :: es => k.key?.isSome = true ∧ v.Plain ∧ PlainEntries es

end

mutual

/-- What a plain node does to the node of the store it belongs to. -/
def Yaml.into : Yaml CString → ConfRecord → ConfRecord
  | .scalar value, r => r.assign value
  | .alias, r => r
  | .sequence items, r => itemsInto items 0 r
  | .mapping entries, r => entriesInto entries r

/-- The items of a sequence, from a number on. -/
def itemsInto : List (Yaml CString) → ℕ → ConfRecord → ConfRecord
  | [], _, r => r
  | .mapping entries :: ys, idx, r =>
      itemsInto ys (idx + 1) (r.append (entriesInto entries (ofItem idx)))
  | .scalar value :: ys, idx, r =>
      itemsInto ys (idx + 1) (r.append { ofName (itemName idx) with val := some value })
  | _ :: ys, idx, r => itemsInto ys idx r

/-- The entries of a mapping. -/
def entriesInto : List (Yaml CString × Yaml CString) → ConfRecord → ConfRecord
  | [], r => r
  | (.scalar k, v) :: es, r => entriesInto es (r.enter k v.into)
  | _ :: es, r => entriesInto es r

end

section Plain

variable {l : Layer} {r : ConfRecord} {k n : CString} {f : ConfRecord → ConfRecord}

theorem Layer.key_of_some {i : ℕ} (h : (Layer.firstKey l.parent k).indexOf k = some i) :
    l.key k = { l with parent := Layer.firstKey l.parent k, node := some i, state := .val } := by
  rw [Layer.key, h]

/-- The node of a new key. -/
theorem Layer.key_of_none (h : (Layer.firstKey l.parent k).indexOf k = none) :
    ∃ console, l.key k = ⟨(Layer.firstKey l.parent k).append
        (ofName (Layer.keyName (Layer.firstKey l.parent k) k)),
      some (Layer.firstKey l.parent k).head.length, .val, l.seqIdx, console⟩ := by
  rw [Layer.key, h]
  exact ⟨_, rfl⟩

/-- **A key and its value** do to the parent what the entry does. -/
theorem parent_key {l' : Layer} {f : ConfRecord → ConfRecord}
    (hput : ∀ i, (l.key k).node = some i → i < (l.key k).parent.head.length →
      l'.parent = (l.key k).parent.setChild i (f (l.key k).cursor)) :
    l'.parent = l.parent.enter k f := by
  unfold ConfRecord.enter
  dsimp only
  cases h : (Layer.firstKey l.parent k).indexOf k with
  | some i =>
    obtain ⟨hlt, -⟩ := List.findIdx?_eq_some_iff_getElem.mp h
    rw [Layer.key_of_some h] at hput
    exact hput i rfl hlt
  | none =>
    obtain ⟨console, hkey⟩ := Layer.key_of_none h
    rw [hkey] at hput
    rw [hput _ rfl (by simp [ConfRecord.append]), Layer.cursor_some rfl]
    simp [ConfRecord.append, setChild]

theorem state_key (value : CString) : (l.key value).state = .val := by
  unfold Layer.key
  dsimp only
  split <;> rfl

theorem node_key (value : CString) : ∃ i, (l.key value).node = some i := by
  unfold Layer.key
  dsimp only
  split <;> exact ⟨_, rfl⟩

mutual

/-- **The loader does to a node what the document does.** -/
theorem load_plain : (y : Yaml CString) → y.Plain → ∀ (l : Layer) (i : ℕ), l.state = .val →
    l.node = some i → (y.load false l).state = .key ∧
      (y.load false l).parent = l.parent.setChild i (y.into l.cursor)
  | .scalar value => by
      intro _ l i hs hi
      rw [Yaml.load, Layer.scalar, if_neg Bool.false_ne_true, hs]
      refine ⟨rfl, ?_⟩
      show (l.put _).parent = _
      rw [Layer.put_some hi]
      rfl
  | .alias => fun h => h.elim
  | .sequence items => by
      intro hy l i _ hi
      rw [Yaml.load, Yaml.into]
      refine ⟨rfl, ?_⟩
      show (l.put _).parent = _
      rw [Layer.put_some hi, load_plainItems items hy]
      rfl
  | .mapping entries => by
      intro hy l i _ hi
      rw [Yaml.load, if_neg Bool.false_ne_true, Yaml.into]
      refine ⟨rfl, ?_⟩
      show (l.put _).parent = _
      rw [Layer.put_some hi, (load_plainEntries entries hy _ rfl).2]
      rfl

theorem load_plainItems : (items : List (Yaml CString)) → PlainItems items → ∀ l : Layer,
    (loadItems items l).parent = itemsInto items l.seqIdx l.parent
  | [] => fun _ _ => rfl
  | y :: ys => by
      intro hy l
      obtain ⟨hseq, hplain, hys⟩ := hy
      rw [loadItems, load_plainItems ys hys]
      cases hy : y with
      | scalar value => rfl
      | sequence items =>
        rw [hy] at hseq
        cases hseq
      | mapping entries =>
        rw [hy] at hplain
        rw [Yaml.load, if_pos rfl, itemsInto]
        show itemsInto ys (l.seqIdx + 1) (l.parent.append _) = _
        rw [(load_plainEntries entries hplain _ rfl).2]
        rfl
      | _ =>
        rw [hy] at hplain
        exact hplain.elim

theorem load_plainEntries : (entries : List (Yaml CString × Yaml CString)) →
    PlainEntries entries → ∀ l : Layer, l.state = .key →
      (loadEntries entries l).state = .key ∧
        (loadEntries entries l).parent = entriesInto entries l.parent
  | [] => fun _ _ hs => ⟨hs, rfl⟩
  | (key, v) :: es => by
      intro hy l hs
      obtain ⟨hkey, hv, hes⟩ := hy
      cases key with
      | scalar k =>
        obtain ⟨i, hi⟩ := node_key (l := l) k
        have hload := load_plain v hv (l.key k) i (state_key k) hi
        have hk : Yaml.load false (.scalar k) l = l.key k := by
          rw [Yaml.load, Layer.scalar, if_neg Bool.false_ne_true, hs]
        have hentry : (v.load false (l.key k)).parent = l.parent.enter k v.into := by
          refine parent_key fun j hj _ => ?_
          obtain rfl : i = j := Option.some.inj (hi.symm.trans hj)
          exact hload.2
        rw [loadEntries, hk, entriesInto, ← hentry]
        exact load_plainEntries es hes _ hload.1
      | _ => cases hkey

end

end Plain

/-! ### What an entry does to the names -/

section Names

variable {r c : ConfRecord} {k n : CString} {f : ConfRecord → ConfRecord}

/-- The name of the node of a key, below a node of the name `parent`. -/
def nameOf (parent : Option CString) (k : CString) : CString :=
  if '_' ∈ k ∧ keepsNames parent = false then mangle k else k

theorem keyName_eq (r : ConfRecord) (k : CString) : Layer.keyName r k = nameOf r.name k := rfl

/-- The first node of the name `n` behind an entry, where it was `found` before: a key that is
mangled is looked up by the name it had. -/
def seen (parent : Option CString) (k : CString) (f : ConfRecord → ConfRecord) (n : CString)
    (found : Option ConfRecord) : Option ConfRecord :=
  if nameOf parent k = n then
    some (if nameOf parent k = k then f (found.getD (ofName n)) else found.getD (f (ofName n)))
  else found

theorem enter_name (r : ConfRecord) (k : CString) (f : ConfRecord → ConfRecord) :
    (r.enter k f).name = r.name := by
  unfold enter
  dsimp only
  split <;> exact firstKey_name r k

theorem entriesInto_name (entries : List (Yaml CString × Yaml CString)) (r : ConfRecord) :
    (entriesInto entries r).name = r.name := by
  induction entries generalizing r with
  | nil => rfl
  | cons e es ih =>
    obtain ⟨key, v⟩ := e
    cases key with
    | scalar k => rw [entriesInto, ih, enter_name]
    | _ => rw [entriesInto, ih]; simp

theorem itemsInto_name (items : List (Yaml CString)) (idx : ℕ) (r : ConfRecord) :
    (itemsInto items idx r).name = r.name := by
  induction items generalizing idx r with
  | nil => rfl
  | cons y ys ih =>
    cases y with
    | scalar value => rw [itemsInto, ih]; rfl
    | mapping entries => rw [itemsInto, ih]; rfl
    | _ => rw [itemsInto, ih] <;> simp

theorem into_name (y : Yaml CString) (r : ConfRecord) : (y.into r).name = r.name := by
  cases y with
  | scalar value =>
    rw [Yaml.into, assign]
    split <;> rfl
  | sequence items => exact itemsInto_name items 0 r
  | mapping entries => exact entriesInto_name entries r
  | _ => rfl

/-- What a plain mapping does keeps the names in order. -/
theorem clean_entriesInto {entries : List (Yaml CString × Yaml CString)}
    (hes : PlainEntries entries) (h : r.Clean) : (entriesInto entries r).Clean := by
  have hload := (load_plainEntries entries hes (.call r ⟨0, [], []⟩) rfl).2
  rw [Layer.call] at hload
  rw [← hload]
  exact (clean_loadEntries entries _ (clean_call h _)).clean.parent

theorem clean_enter {v : Yaml CString} (hv : v.Plain) (h : r.Clean) (k : CString) :
    (r.enter k v.into).Clean := by
  have hplain : PlainEntries [(.scalar k, v)] := ⟨rfl, hv, trivial⟩
  exact clean_entriesInto hplain h

/-- **An entry changes what a reader finds under its name**, and nothing else. -/
theorem lookupChild_enter (h : r.Clean) (hf : ∀ c, (f c).name = c.name) (n : CString) :
    (r.enter k f).lookupChild n = seen r.name k f n (r.lookupChild n) := by
  have hhead : (Layer.firstKey r k).head = r.head := firstKey_head r k
  have hlookup : ∀ m, (Layer.firstKey r k).lookupChild m = r.lookupChild m := fun m => by
    rw [lookupChild, hhead, lookupChild]
  have hindex : (Layer.firstKey r k).indexOf k = r.indexOf k := by rw [indexOf, hhead, indexOf]
  unfold enter seen
  dsimp only
  rw [hindex, hhead, keyName_eq, firstKey_name]
  cases hi : r.indexOf k with
  | some i =>
    obtain ⟨hlt, hname, -⟩ := List.findIdx?_eq_some_iff_getElem.mp hi
    have hname' : r.head[i].name = some k := of_decide_eq_true hname
    -- the key is found, so that it is the name of a node
    have hkey : nameOf r.name k = k := by
      obtain ⟨m, hm, hkeep⟩ := (clean_iff.mp h _ (List.getElem_mem hlt)).1
      obtain rfl : k = m := Option.some.inj (hname'.symm.trans hm)
      exact if_neg fun hk => by simp [hkeep hk.1] at hk
    have hget : r.head.getD i confNodeNew = r.head[i] := by
      rw [List.getD_eq_getElem?_getD, List.getElem?_eq_getElem hlt, Option.getD_some]
    have hfound : r.lookupChild k = some r.head[i] := by
      rw [lookupChild_eq, hi, Option.bind_some, List.getElem?_eq_getElem hlt]
    have hfname : (f r.head[i]).name = some k := (hf _).trans hname'
    rw [hkey, if_pos rfl]
    dsimp only
    rw [hget]
    split
    · next hkn =>
      subst hkn
      rw [hfound, Option.getD_some, lookupChild_setChild_self (hindex.trans hi) hfname]
    · next hkn =>
      have hne : ∀ d : ConfRecord, d.name = some k → d.name ≠ some n := by
        intro d hd hd'
        exact hkn (Option.some.inj (hd.symm.trans hd'))
      rw [lookupChild_setChild_of_ne (by rw [hhead]; exact List.getElem?_eq_getElem hlt)
        (hne _ hname') (hne _ hfname), hlookup]
  | none =>
    have hnone : r.lookupChild k = none := by rw [lookupChild_eq, hi, Option.bind_none]
    have hfname : (f (ofName (nameOf r.name k))).name = some (nameOf r.name k) := hf _
    rw [lookupChild_append, hlookup, hfname]
    by_cases hn : nameOf r.name k = n
    · subst hn
      rw [if_pos rfl, if_pos rfl]
      split
      · next hk => rw [hk, hnone]; rfl
      · cases r.lookupChild (nameOf r.name k) <;> rfl
    · rw [if_neg (fun hsome => hn (Option.some.inj hsome)), if_neg hn, Option.or_none]

/-- **Which of the repeated keys a reader sees**: below a name, what the entries of that name
make of it one after the other. -/
theorem lookupChild_entriesInto {entries : List (Yaml CString × Yaml CString)}
    (hes : PlainEntries entries) (h : r.Clean) (n : CString) :
    (entriesInto entries r).lookupChild n =
      entries.foldl (fun found e => seen r.name (e.1.key?.getD []) e.2.into n found)
        (r.lookupChild n) := by
  induction entries generalizing r with
  | nil => rfl
  | cons e es ih =>
    obtain ⟨key, v⟩ := e
    obtain ⟨hkey, hv, hes⟩ := hes
    cases key with
    | scalar k =>
      rw [entriesInto, ih hes (clean_enter hv h k), enter_name,
        lookupChild_enter h (into_name v), List.foldl_cons]
      rfl
    | _ => cases hkey

/-- The node of an item. -/
def itemNode (idx : ℕ) : Yaml CString → ConfRecord
  | .mapping entries => entriesInto entries (ofItem idx)
  | y => y.into (ofName (itemName idx))

/-- **Which item of a sequence a reader sees.** -/
theorem lookupChild_itemsInto {items : List (Yaml CString)} (hys : PlainItems items) (idx : ℕ)
    (r : ConfRecord) (n : CString) :
    (itemsInto items idx r).lookupChild n = (r.lookupChild n).or
      (((items.zipIdx idx).find? fun x => itemName x.2 = n).map fun x => itemNode x.2 x.1) := by
  induction items generalizing idx r with
  | nil => rw [itemsInto, List.zipIdx_nil, List.find?_nil, Option.map_none, Option.or_none]
  | cons y ys ih =>
    obtain ⟨hseq, hplain, hys⟩ := hys
    have hitem : itemsInto (y :: ys) idx r =
        itemsInto ys (idx + 1) (r.append (itemNode idx y)) := by
      cases hy : y with
      | scalar value => rfl
      | mapping entries => rfl
      | _ => simp [hy, Yaml.isSequence, Yaml.Plain] at hseq hplain
    have hname : (itemNode idx y).name = some (itemName idx) := by
      cases y with
      | mapping entries => exact entriesInto_name entries _
      | _ => exact into_name _ _
    rw [hitem, ih hys, lookupChild_append, hname, Option.or_assoc, List.zipIdx_cons,
      List.find?_cons]
    congr 1
    by_cases hn : itemName idx = n
    · simp [hn]
    · simp [hn]

end Names

/-! ### What is in a document -/

/-- The value of a node; below a sequence a mapping has its first key as value. -/
def Yaml.value (inseq : Bool) : Yaml CString → Option CString
  | .scalar value => some value
  | .mapping ((.scalar k, _) :: _) => if inseq then some (mangle k) else none
  | _ => none

/-- **The value under a path of names**, where the node is there: the names are those of keys
and the numbers of items. -/
def Yaml.lookup : List CString → Option CString → Bool → Yaml CString → Option (Option CString)
  | [], _, inseq, y => some (y.value inseq)
  | n :: path, name, _, .mapping entries =>
      (entries.find? fun e => nameOf name (e.1.key?.getD []) = n).bind fun e =>
        e.2.lookup path (some n) false
  | n :: path, _, _, .sequence items =>
      (items.zipIdx.find? fun x => itemName x.2 = n).bind fun x => x.1.lookup path (some n) true
  | _ :: _, _, _, _ => none

mutual

/-- **Documents without repeated keys**, also behind `Mangle`.  A repeated key would name a
node that is there, and what it says would be added to that node; two keys that `Mangle` makes
the same are repeated in this sense. -/
def Yaml.Unambiguous : Yaml CString → Prop
  | .sequence items => UnambiguousItems items
  | .mapping entries =>
      (entries.map fun e => mangle (e.1.key?.getD [])).Nodup ∧ UnambiguousEntries entries
  | _ => True

/-- The items. -/
def UnambiguousItems : List (Yaml CString) → Prop
  | [] => True
  | y :: ys => y.Unambiguous ∧ UnambiguousItems ys

/-- The values of the entries. -/
def UnambiguousEntries : List (Yaml CString × Yaml CString) → Prop
  | [] => True
  | e :: es => e.2.Unambiguous ∧ UnambiguousEntries es

end

/-- A node that nothing was put into. -/
structure ConfRecord.Fresh (r : ConfRecord) : Prop where
  head : r.head = []
  val : r.val = none
  allowOverride : r.allowOverride = true

section Documents

variable {r : ConfRecord} {n : CString}

theorem fresh_new : confNodeNew.Fresh := ⟨rfl, rfl, rfl⟩

theorem fresh_ofName (n : CString) : (ofName n).Fresh := ⟨rfl, rfl, rfl⟩

theorem fresh_ofItem (idx : ℕ) : (ofItem idx).Fresh := ⟨rfl, rfl, rfl⟩

theorem ConfRecord.Fresh.clean (h : r.Fresh) : r.Clean := clean_new h.head

theorem ConfRecord.Fresh.lookupChild (h : r.Fresh) (n : CString) : r.lookupChild n = none := by
  rw [ConfRecord.lookupChild, h.head, List.find?_nil]

theorem mangle_nameOf (parent : Option CString) (k : CString) :
    mangle (nameOf parent k) = mangle k := by
  unfold nameOf
  split
  · exact mangle_eq_self (not_mem_mangle k)
  · rfl

/-- Without repeated keys a reader finds the only entry of a name. -/
theorem foldl_seen {entries : List (Yaml CString × Yaml CString)} {parent : Option CString}
    (hnodup : (entries.map fun e => mangle (e.1.key?.getD [])).Nodup) (n : CString) :
    entries.foldl (fun found e => seen parent (e.1.key?.getD []) e.2.into n found) none =
      (entries.find? fun e => nameOf parent (e.1.key?.getD []) = n).map fun e =>
        e.2.into (ofName n) := by
  -- behind the entry of the name there is none
  have hrest : ∀ (es : List (Yaml CString × Yaml CString)) (found : Option ConfRecord),
      mangle n ∉ (es.map fun e => mangle (e.1.key?.getD [])) →
      es.foldl (fun found e => seen parent (e.1.key?.getD []) e.2.into n found) found = found := by
    intro es found
    induction es with
    | nil => exact fun _ => rfl
    | cons e es ih =>
      intro hes
      rw [List.map_cons, List.mem_cons, not_or] at hes
      have hne : nameOf parent (e.1.key?.getD []) ≠ n := by
        rintro rfl
        exact hes.1 (mangle_nameOf _ _)
      rw [List.foldl_cons, seen, if_neg hne, ih hes.2]
  induction entries with
  | nil => rfl
  | cons e es ih =>
    rw [List.map_cons, List.nodup_cons] at hnodup
    rw [List.foldl_cons, List.find?_cons]
    by_cases hn : nameOf parent (e.1.key?.getD []) = n
    · rw [hrest es _ (by rw [← hn, mangle_nameOf]; exact hnodup.1), seen, if_pos hn]
      simp [hn]
    · rw [seen, if_neg hn, ih hnodup.2]
      simp [hn]

theorem enter_isSeq_val (r : ConfRecord) (k : CString) (f : ConfRecord → ConfRecord) :
    (r.enter k f).isSeq = r.isSeq ∧ (r.enter k f).val = (Layer.firstKey r k).val := by
  have hseq : (Layer.firstKey r k).isSeq = r.isSeq := by
    unfold Layer.firstKey
    split <;> rfl
  unfold enter
  dsimp only
  split <;> exact ⟨hseq, rfl⟩

/-- The value of a mapping is its first key, or none. -/
theorem entriesInto_val {entries : List (Yaml CString × Yaml CString)} (hes : PlainEntries entries)
    (r : ConfRecord) :
    (entriesInto entries r).val = r.val.or ((Yaml.mapping entries).value r.isSeq) := by
  induction entries generalizing r with
  | nil =>
    rw [entriesInto, Yaml.value, Option.or_none]
    all_goals simp
  | cons e es ih =>
    obtain ⟨key, v⟩ := e
    obtain ⟨hkey, -, hes⟩ := hes
    cases key with
    | scalar k =>
      obtain ⟨hseq, hval⟩ := enter_isSeq_val r k v.into
      rw [entriesInto, ih hes, hseq, hval, Layer.firstKey, Yaml.value]
      cases hs : r.isSeq with
      | false =>
        have hnone : (Yaml.mapping es).value false = none := by
          unfold Yaml.value
          split <;> simp_all
        simp [hnone]
      | true => cases hv : r.val <;> simp [hv]
    | _ => cases hkey

theorem itemsInto_val (items : List (Yaml CString)) (idx : ℕ) (r : ConfRecord) :
    (itemsInto items idx r).val = r.val := by
  induction items generalizing idx r with
  | nil => rfl
  | cons y ys ih =>
    cases y with
    | scalar value => rw [itemsInto, ih]; rfl
    | mapping entries => rw [itemsInto, ih]; rfl
    | _ => rw [itemsInto, ih] <;> simp

theorem into_val {y : Yaml CString} (hy : y.Plain) (h : r.Fresh) :
    (y.into r).val = y.value r.isSeq := by
  cases hcase : y with
  | scalar value => rw [Yaml.into, assign, if_pos h.allowOverride, Yaml.value]
  | sequence items =>
    rw [Yaml.into, itemsInto_val, h.val, Yaml.value]
    all_goals simp
  | mapping entries =>
    rw [hcase] at hy
    rw [Yaml.into, entriesInto_val hy, h.val, Option.none_or]
  | _ =>
    rw [hcase] at hy
    exact hy.elim

theorem plain_of_mem_entries {entries : List (Yaml CString × Yaml CString)}
    (hes : PlainEntries entries) {e : Yaml CString × Yaml CString} (he : e ∈ entries) :
    e.2.Plain := by
  induction entries with
  | nil => cases he
  | cons e' es ih =>
    obtain ⟨key, v⟩ := e'
    rcases List.mem_cons.mp he with rfl | he
    · exact hes.2.1
    · exact ih hes.2.2 he

theorem plain_of_mem_items {items : List (Yaml CString)} (hys : PlainItems items)
    {y : Yaml CString} (hy : y ∈ items) : y.Plain ∧ y.isSequence = false := by
  induction items with
  | nil => cases hy
  | cons y' ys ih =>
    rcases List.mem_cons.mp hy with rfl | hy
    · exact ⟨hys.2.1, hys.1⟩
    · exact ih hys.2.2 hy

theorem unambiguous_of_mem_entries {entries : List (Yaml CString × Yaml CString)}
    (hes : UnambiguousEntries entries) {e : Yaml CString × Yaml CString} (he : e ∈ entries) :
    e.2.Unambiguous := by
  induction entries with
  | nil => cases he
  | cons e' es ih =>
    rcases List.mem_cons.mp he with rfl | he
    · exact hes.1
    · exact ih hes.2 he

theorem unambiguous_of_mem_items {items : List (Yaml CString)} (hys : UnambiguousItems items)
    {y : Yaml CString} (hy : y ∈ items) : y.Unambiguous := by
  induction items with
  | nil => cases hy
  | cons y' ys ih =>
    rcases List.mem_cons.mp hy with rfl | hy
    · exact hys.1
    · exact ih hys.2 hy

/-- A mapping below a sequence or not is told apart by its node only. -/
theorem lookup_inseq {y : Yaml CString} (hy : ∀ entries, y ≠ .mapping entries)
    (path : List CString) (name : Option CString) (b b' : Bool) :
    y.lookup path name b = y.lookup path name b' := by
  cases hcase : y with
  | mapping entries => exact absurd hcase (hy entries)
  | _ => cases path <;> simp [Yaml.lookup, Yaml.value]

/-- **A reader finds in the store what is in the document**, and nothing else. -/
theorem descend_into (path : List CString) {y : Yaml CString} {r : ConfRecord} (hy : y.Plain)
    (hu : y.Unambiguous) (h : r.Fresh) :
    ((y.into r).descend path).map val = y.lookup path r.name r.isSeq := by
  -- a name leads to an item by its number, or to an entry by its mangled key
  induction path generalizing y r with
  | nil => rw [descend_nil, Option.map_some, into_val hy h, Yaml.lookup]
  | cons n path ih =>
    rw [descend_cons]
    cases hcase : y with
    | scalar value =>
      have hhead : ((Yaml.scalar value).into r).lookupChild n = none := by
        rw [Yaml.into, assign, if_pos h.allowOverride]
        exact h.lookupChild n
      rw [hhead, Yaml.lookup]
      · rfl
      all_goals simp
    | sequence items =>
      rw [hcase] at hy hu
      rw [Yaml.into, lookupChild_itemsInto hy, h.lookupChild, Option.none_or, Yaml.lookup]
      cases hfind : items.zipIdx.find? fun x => itemName x.2 = n with
      | none => rfl
      | some x =>
        obtain ⟨item, idx⟩ := x
        have hname : itemName idx = n := by simpa using List.find?_some hfind
        have hmem : item ∈ items := List.fst_mem_of_mem_zipIdx (List.mem_of_find?_eq_some hfind)
        have hplain := (plain_of_mem_items hy hmem).1
        have hunamb := unambiguous_of_mem_items hu hmem
        subst hname
        show ((itemNode idx item).descend path).map val = item.lookup path (some _) true
        cases hitem : item with
        | mapping entries =>
          rw [hitem] at hplain hunamb
          exact ih hplain hunamb (fresh_ofItem idx)
        | _ =>
          have hnode : itemNode idx item = item.into (ofName (itemName idx)) := by
            rw [hitem, itemNode]
            intro entries h
            cases h
          rw [← hitem, lookup_inseq (by simp [hitem]) path _ true false, hnode]
          exact ih hplain hunamb (fresh_ofName _)
    | mapping entries =>
      rw [hcase] at hy hu
      rw [Yaml.into, lookupChild_entriesInto hy h.clean, h.lookupChild, foldl_seen hu.1,
        Yaml.lookup]
      cases hfind : entries.find? fun e => nameOf r.name (e.1.key?.getD []) = n with
      | none => rfl
      | some e =>
        have hmem := List.mem_of_find?_eq_some hfind
        exact ih (plain_of_mem_entries hy hmem) (unambiguous_of_mem_entries hu.2 hmem)
          (fresh_ofName n)
    | _ =>
      rw [hcase] at hy
      exact hy.elim

end Documents

/-! ### From the tokens to the reader -/

section Files

variable {tokens : List YamlToken} {docs : List (YamlDocument CString)}

theorem accepts_of_writesStream (h : WritesStream docs tokens) (failure : YamlProblem) :
    Accepts tokens failure docs :=
  yields_of_writesStream h failure

/-- **The tokens of a file are those of no other file.** -/
theorem accepts_iff_of_writesStream (h : WritesStream docs tokens) (failure : YamlProblem)
    {docs' : List (YamlDocument CString)} : Accepts tokens failure docs' ↔ docs' = docs := by
  refine ⟨fun h' => h'.unique (accepts_of_writesStream h failure), ?_⟩
  rintro rfl
  exact accepts_of_writesStream h failure

/-- A file with one setting. -/
def sampleSettings : List (Yaml CString × Yaml CString) :=
  [(.scalar "servers".toList, .mapping [(.scalar "ip".toList, .scalar "10.0.0.1".toList)])]

/-- The theorem at a file with one setting. -/
theorem accepts_iff_of_writesStream_setting :
    Accepts (fileTokens (.mapping sampleSettings)) ⟨[], 0⟩ [⟨some (1, 1), .mapping []⟩] ↔
      [⟨some (1, 1), .mapping []⟩] =
        [(⟨some (1, 1), .mapping sampleSettings⟩ : YamlDocument CString)] :=
  accepts_iff_of_writesStream (writesStream_fileTokens _) _

theorem Clean.descend {path : List CString} {r c : ConfRecord} (h : r.Clean)
    (hc : r.descend path = some c) : c.Clean := by
  induction path generalizing r with
  | nil =>
    obtain rfl := Option.some.inj hc
    exact h
  | cons n path ih =>
    obtain ⟨d, hd, hc⟩ := Option.bind_eq_some_iff.mp hc
    exact ih (clean_iff.mp h d (List.mem_of_find?_eq_some hd)).2 hc

/-- A mapping at the top of a document is put into the root. -/
theorem load_root {entries : List (Yaml CString × Yaml CString)} (hes : PlainEntries entries)
    (root : ConfRecord) (console : Console) :
    ((Yaml.mapping entries).load false (.call root console)).parent =
      entriesInto entries root := by
  rw [Yaml.load, if_neg Bool.false_ne_true]
  show (loadEntries entries (.call root console)).parent = _
  exact (load_plainEntries entries hes _ rfl).2

end Files

end Newiup
