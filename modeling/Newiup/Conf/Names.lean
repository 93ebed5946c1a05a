import Newiup.Conf.Loader

/-!
# The names in the store

A key with an underscore is mangled when it names a new node, except below the nodes that
keep the names of their children.  Whatever is loaded, the store has no other name with an
underscore, and every node below the root has a name, so that the comparisons of names in
`ConfNodeLookupChild` meet no null pointer.

A name is given to a node when it is made, from a key or from the number of an item, and
is not changed any more.  So the places count where nodes are made, and not what is done
with them later; this is why a load that fails halfway leaves a store in order as well.

## Main definitions

* `ConfRecord.Clean` — the names below a node are in order.

## Main results

* `clean_confYamlParse` — **the loader keeps the names in order**, for every source of events
  and also where it fails; `clean_confYamlLoad` — so does a load.
* `clean_load` — what a document means keeps them in order.
-/

namespace Newiup

/-- A name that a child of a node of the name `parent` may have. -/
def CleanName (parent name : Option CString) : Prop :=
  ∃ n, name = some n ∧ ('_' ∈ n → keepsNames parent = true)

namespace ConfRecord

mutual

/-- **The names below a node are in order.**  The name of the node itself says whether the
names of its children are kept as they are, so that it is a condition on a node with its
children and not on single names. -/
def Clean : ConfRecord → Prop
  | ⟨name, _, _, _, _, head⟩ => CleanAll name head

/-- The names of the children of a node of the name `parent`, and below them. -/
def CleanAll (parent : Option CString) : List ConfRecord → Prop
  | [] => True
  | c :: cs => CleanName parent c.name ∧ c.Clean ∧ CleanAll parent cs

end

theorem cleanAll_iff {parent : Option CString} {cs : List ConfRecord} :
    CleanAll parent cs ↔ ∀ c ∈ cs, CleanName parent c.name ∧ c.Clean := by
  induction cs with
  | nil => simp [CleanAll]
  | cons c cs ih => simp [CleanAll, ih, and_assoc]

theorem clean_iff {r : ConfRecord} :
    r.Clean ↔ ∀ c ∈ r.head, CleanName r.name c.name ∧ c.Clean := by
  obtain ⟨name, val, isSeq, allow, hasParent, head⟩ := r
  rw [Clean]
  exact cleanAll_iff

/-- Only the name and the children matter. -/
theorem Clean.of_eq {r r' : ConfRecord} (h : r.Clean) (hname : r'.name = r.name)
    (hhead : r'.head = r.head) : r'.Clean := by
  rw [clean_iff] at h ⊢
  rw [hname, hhead]
  exact h

theorem clean_new {r : ConfRecord} (h : r.head = []) : r.Clean := by
  rw [clean_iff, h]
  intro c hc
  cases hc

theorem Clean.append {r c : ConfRecord} (h : r.Clean) (hname : CleanName r.name c.name)
    (hc : c.Clean) : (r.append c).Clean := by
  rw [clean_iff] at h ⊢
  intro d hd
  rcases List.mem_append.mp hd with hd | hd
  · exact h d hd
  · rw [List.mem_singleton.mp hd]
    exact ⟨hname, hc⟩

/-- A child is replaced by one of its name. -/
theorem Clean.setChild {r c c' : ConfRecord} {i : ℕ} (h : r.Clean) (hi : r.head[i]? = some c)
    (hname : c'.name = c.name) (hc : c'.Clean) : (r.setChild i c').Clean := by
  rw [clean_iff] at h ⊢
  intro d hd
  rcases List.mem_or_eq_of_mem_set hd with hd | rfl
  · exact h d hd
  · refine ⟨?_, hc⟩
    rw [hname]
    exact (h c (List.mem_of_getElem? hi)).1

theorem Clean.named {r : ConfRecord} (h : r.Clean) : r.Named := by
  intro c hc
  obtain ⟨⟨n, hn, -⟩, -⟩ := clean_iff.mp h c hc
  rw [hn]
  rfl

end ConfRecord

/-! ### Layers -/

/-- A layer in order: `node` is there, and there is a child where a value is awaited. -/
structure Layer.Clean (l : Layer) : Prop where
  parent : l.parent.Clean
  node : ∀ i, l.node = some i → i < l.parent.head.length
  val : l.state = .val → l.node ≠ none

/-- `l'` is in order and belongs to the same node as `l`. -/
structure Layer.Follows (l l' : Layer) : Prop where
  clean : l'.Clean
  name : l'.parent.name = l.parent.name

section Layers

open ConfRecord

variable {l l' l'' : Layer}

theorem Layer.Follows.trans (h : l.Follows l') (h' : l'.Follows l'') : l.Follows l'' :=
  ⟨h'.clean, h'.name.trans h.name⟩

theorem Layer.cursor_none (h : l.node = none) : l.cursor = l.parent := by
  rw [cursor, h]

theorem Layer.cursor_some {i : ℕ} (h : l.node = some i) :
    l.cursor = l.parent.head.getD i confNodeNew := by
  rw [cursor, h]

theorem Layer.put_none {r : ConfRecord} (h : l.node = none) : l.put r = { l with parent := r } := by
  rw [put, h]

theorem Layer.put_some {r : ConfRecord} {i : ℕ} (h : l.node = some i) :
    l.put r = { l with parent := l.parent.setChild i r } := by
  rw [put, h]

theorem Layer.Clean.getElem?_cursor (h : l.Clean) {i : ℕ} (hi : l.node = some i) :
    l.parent.head[i]? = some l.cursor := by
  rw [Layer.cursor_some hi, List.getD_eq_getElem?_getD, List.getElem?_eq_getElem (h.node i hi),
    Option.getD_some]

theorem Layer.Clean.cursor (h : l.Clean) : l.cursor.Clean := by
  cases hnode : l.node with
  | none =>
    rw [Layer.cursor_none hnode]
    exact h.parent
  | some i =>
    exact (clean_iff.mp h.parent _ (List.mem_of_getElem? (h.getElem?_cursor hnode))).2

/-- The node is written, with its name. -/
theorem Layer.Clean.put (h : l.Clean) {r : ConfRecord} (hname : r.name = l.cursor.name)
    (hr : r.Clean) : l.Follows (l.put r) := by
  cases hnode : l.node with
  | none =>
    rw [Layer.cursor_none hnode] at hname
    rw [Layer.put_none hnode]
    exact ⟨⟨hr, fun i hi => absurd (hnode.symm.trans hi) (by simp), h.val⟩, hname⟩
  | some i =>
    rw [Layer.put_some hnode]
    refine ⟨⟨h.parent.setChild (h.getElem?_cursor hnode) hname hr, fun j hj => ?_, h.val⟩, rfl⟩
    obtain rfl : i = j := Option.some.inj (hnode.symm.trans hj)
    exact (List.length_set ..).symm ▸ h.node i hnode

theorem firstKey_name (parent : ConfRecord) (value : CString) :
    (Layer.firstKey parent value).name = parent.name := by
  unfold Layer.firstKey
  split <;> rfl

theorem firstKey_head (parent : ConfRecord) (value : CString) :
    (Layer.firstKey parent value).head = parent.head := by
  unfold Layer.firstKey
  split <;> rfl

theorem not_mem_mangle (s : CString) : '_' ∉ mangle s := by
  intro h
  obtain ⟨c, -, hc⟩ := List.mem_map.mp h
  split at hc
  · cases hc
  · next hne => exact hne hc

theorem mangle_eq_self {s : CString} (h : '_' ∉ s) : mangle s = s := by
  rw [mangle, List.map_congr_left, List.map_id']
  intro c hc
  rw [if_neg]
  rintro rfl
  exact h hc

/-- The name of a new child is in order. -/
theorem cleanName_keyName (parent : ConfRecord) (value : CString) :
    CleanName parent.name (some (Layer.keyName parent value)) := by
  refine ⟨_, rfl, fun h => ?_⟩
  unfold Layer.keyName at h
  split at h
  · exact absurd h (not_mem_mangle value)
  · next hcond =>
    by_contra hkeep
    exact hcond ⟨h, by simpa using hkeep⟩

theorem Layer.Clean.key (h : l.Clean) (value : CString) : l.Follows (l.key value) := by
  have hparent : (Layer.firstKey l.parent value).Clean :=
    h.parent.of_eq (firstKey_name _ _) (firstKey_head _ _)
  unfold Layer.key
  dsimp only
  split
  · next i hi =>
    obtain ⟨hlt, -⟩ := List.findIdx?_eq_some_iff_getElem.mp hi
    refine ⟨⟨hparent, fun j hj => ?_, fun _ => by simp⟩, firstKey_name _ _⟩
    cases hj
    exact hlt
  · refine ⟨⟨hparent.append (cleanName_keyName _ _) (clean_new rfl), fun j hj => ?_,
      fun _ => by simp⟩, firstKey_name _ _⟩
    cases hj
    simp [ConfRecord.append]

theorem Layer.Clean.assign (h : l.Clean) (value : CString) : l.Follows (l.val value) := by
  have hput : l.Follows (l.put (if l.cursor.allowOverride then
      { l.cursor with val := some value } else l.cursor)) := by
    refine h.put ?_ ?_
    · split <;> rfl
    · split
      · exact h.cursor.of_eq rfl rfl
      · exact h.cursor
  exact ⟨⟨hput.clean.parent, hput.clean.node, fun hs => by cases hs⟩, hput.name⟩

theorem cleanName_itemName (parent : Option CString) (idx : ℕ) :
    CleanName parent (some (itemName idx)) := by
  refine ⟨_, rfl, fun h => ?_⟩
  have hname : itemName idx = Nat.toDigits 10 idx := by simp [itemName]
  rw [hname] at h
  exact absurd h Nat.underscore_not_in_toDigits

/-- A node is added to a sequence. -/
theorem Layer.Clean.appendItem (h : l.Clean) {c : ConfRecord}
    (hname : c.name = some (itemName l.seqIdx)) (hc : c.Clean) (state : ConfState)
    (hstate : state = .val → l.node ≠ none) (console : Console) :
    l.Follows { l with
      parent := l.parent.append c, seqIdx := l.seqIdx + 1, state := state,
      console := console } := by
  refine ⟨⟨h.parent.append (hname ▸ cleanName_itemName _ _) hc, fun i hi => ?_, hstate⟩, rfl⟩
  have := h.node i hi
  simp only [ConfRecord.append, List.length_append]
  omega

theorem Layer.Clean.scalar (h : l.Clean) (inseq : Bool) (value : CString) :
    l.Follows (l.scalar inseq value) := by
  unfold Layer.scalar
  split
  · exact h.appendItem rfl (clean_new rfl) l.state h.val l.console
  · split
    · exact h.key value
    · exact h.assign value

/-- The call for a collection begins in order. -/
theorem clean_call {node : ConfRecord} (h : node.Clean) (console : Console) :
    (Layer.call node console).Clean :=
  ⟨h, fun i hi => (by cases hi), fun hs => (by cases hs)⟩

theorem Layer.Clean.seqNode (l : Layer) : l.seqNode.Clean := clean_new rfl

/-- Behind the call for a collection of a node. -/
theorem Layer.Clean.back (h : l.Clean) (hinner : (Layer.call l.cursor l.console).Follows l') :
    l.Follows (l.back l') := by
  have hput := h.put hinner.name hinner.clean.parent
  exact ⟨⟨hput.clean.parent, hput.clean.node, fun hs => by cases hs⟩, hput.name⟩

/-- Behind the call for a mapping in a sequence. -/
theorem Layer.Clean.backItem (h : l.Clean) (hinner : (Layer.call l.seqNode l.console).Follows l') :
    l.Follows (l.backItem l') :=
  h.appendItem hinner.name hinner.clean.parent .key (fun hs => by cases hs) l'.console

end Layers

/-- **The loader keeps the names in order**, also where it fails. -/
theorem clean_confYamlParse {σ : Type} {src : EventSource σ} {fuel : ℕ} {inseq : Bool}
    {l l' : Layer} {s s' : σ} {ret : ℤ} (h : l.Clean)
    (hrun : confYamlParse src fuel inseq l s = some (ret, l', s')) : l.Follows l' := by
  induction fuel generalizing inseq l s ret l' s' with
  | zero => cases hrun
  | succ fuel ih =>
    have herror : ∀ line, l.Follows (l.error line) := fun _ => ⟨⟨h.parent, h.node, h.val⟩, rfl⟩
    -- behind a call for a collection
    have hgoOn : ∀ {inner : Layer} {back : Layer → Layer} {inseq' : Bool} {t : σ}, inner.Clean →
        (∀ l', inner.Follows l' → l.Follows (back l')) →
        goOn (confYamlParse src fuel inseq) back (confYamlParse src fuel inseq' inner t) =
          some (ret, l', s') → l.Follows l' := by
      intro inner back inseq' t hinner hback hres
      obtain ⟨⟨ret', l₁, s₁⟩, hcall, hres⟩ := Option.bind_eq_some_iff.mp hres
      have hl₁ := hback l₁ (ih hinner hcall)
      dsimp only at hres
      split at hres
      · cases hres
        exact hl₁
      · exact hl₁.trans (ih hl₁.clean hres)
    rw [confYamlParse] at hrun
    split at hrun
    · next event t _ =>
      unfold onEvent at hrun
      split at hrun
      · cases hrun
        exact herror _
      · split at hrun
        · exact ih h hrun
        · cases hrun
          exact herror _
      · next value _ =>
        have hscalar := h.scalar inseq value
        exact hscalar.trans (ih hscalar.clean hrun)
      · exact hgoOn (clean_call h.cursor l.console) (fun _ hl => h.back hl) hrun
      · cases hrun
        exact ⟨h, rfl⟩
      · split at hrun
        · exact hgoOn (clean_call (Layer.Clean.seqNode l) l.console)
            (fun _ hl => h.backItem hl) hrun
        · exact hgoOn (clean_call h.cursor l.console) (fun _ hl => h.back hl) hrun
      · cases hrun
        exact ⟨h, rfl⟩
      · cases hrun
        exact ⟨h, rfl⟩
      · exact ih h hrun
    · cases hrun
      exact herror _
    · cases hrun

mutual

/-- **Loading a node keeps the names in order.** -/
theorem clean_load : (y : Yaml CString) → ∀ (inseq : Bool) (l : Layer), l.Clean →
    l.Follows (y.load inseq l)
  | .scalar value => by
      intro inseq l h
      exact h.scalar inseq value
  | .alias => by
      intro inseq l h
      exact ⟨h, rfl⟩
  | .sequence items => by
      intro inseq l h
      exact h.back (clean_loadItems items _ (clean_call h.cursor l.console))
  | .mapping entries => by
      intro inseq l h
      rw [Yaml.load]
      split
      · exact h.backItem
          (clean_loadEntries entries _ (clean_call (Layer.Clean.seqNode l) l.console))
      · exact h.back (clean_loadEntries entries _ (clean_call h.cursor l.console))

theorem clean_loadItems : (items : List (Yaml CString)) → ∀ l : Layer, l.Clean →
    l.Follows (loadItems items l)
  | [] => fun _ h => ⟨h, rfl⟩
  | y :: ys => by
      intro l h
      have hy := clean_load y true l h
      exact hy.trans (clean_loadItems ys _ hy.clean)

theorem clean_loadEntries : (entries : List (Yaml CString × Yaml CString)) → ∀ l : Layer,
    l.Clean → l.Follows (loadEntries entries l)
  | [] => fun _ h => ⟨h, rfl⟩
  | (k, v) :: es => by
      intro l h
      have hk := clean_load k false l h
      have hv := clean_load v false _ hk.clean
      exact (hk.trans hv).trans (clean_loadEntries es _ hv.clean)

end

/-- **A load keeps the names in order.**  A load that fails counts as well, since what it has
added to the store up to there stays in it. -/
theorem clean_confYamlLoad {tokens : List YamlToken} {failure : YamlProblem}
    {root root' : ConfRecord} {console console' : Console} {ret : ℤ} (h : root.Clean)
    (hload : confYamlLoad tokens failure root console = some (ret, root', console')) :
    root'.Clean := by
  obtain ⟨⟨ret', l', s'⟩, hrun, hres⟩ := Option.map_eq_some_iff.mp hload
  cases hres
  exact (clean_confYamlParse (clean_call h console) hrun).clean.parent

/-- A file that is cut off behind its first key. -/
def cutFile : List YamlToken :=
  [⟨.streamStart, 0⟩, ⟨.versionDirective 1 1, 0⟩, ⟨.documentStart, 1⟩, ⟨.blockMappingStart, 2⟩,
    ⟨.key, 2⟩, ⟨.scalar "log_dir".toList, 2⟩]

/-- The theorem at a load that fails with a name in the store. -/
theorem clean_confYamlLoad_cut :
    ∃ root' console', confYamlLoad cutFile ⟨[], 2⟩ confNodeNew ⟨0, [], []⟩ =
      some (-1, root', console') ∧ root'.head ≠ [] ∧ root'.Clean := by
  have hrun : (confYamlLoad cutFile ⟨[], 2⟩ confNodeNew ⟨0, [], []⟩).map
      (fun x => (x.1, x.2.1.head.isEmpty)) = some (-1, false) := by decide +kernel
  obtain ⟨⟨ret, root', console'⟩, hload, he⟩ := Option.map_eq_some_iff.mp hrun
  obtain ⟨rfl, hhead⟩ := Prod.ext_iff.mp he
  refine ⟨root', console', hload, fun hnil => ?_,
    clean_confYamlLoad (ConfRecord.clean_new rfl) hload⟩
  rw [hnil] at hhead
  cases hhead

end Newiup
