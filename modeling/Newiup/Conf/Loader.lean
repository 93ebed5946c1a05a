import Newiup.Conf.Record
import Newiup.Yaml.Nesting

/-!
# The loader of configuration files

`ConfYamlParse` reads the events of a file and puts what it finds under the root of the
store.  It calls itself for every collection, with the node the collection belongs to.

## Main definitions

* `Layer`, `confYamlParse` — the locals of a call, and the function, for so many events.
* `Yaml.load`, `loadStream` — what a node does to a layer, and a stream of documents.
* `confYamlLoad` — the whole of a load.

## Main results

* `confYamlParse_stream` — **the loader does what the documents mean**, up to the first one
  without the right version.
* `confYamlParse_failed` — an error of the parser fails the load.
* `confYamlLoad_returns` — **a load returns**, and succeeds just for documents with versions.
-/

namespace Newiup

open Start

/-- `enum conf_state`. -/
inductive ConfState
  | key
  | val
  deriving DecidableEq

/-- The output of the loader, and its static counter. -/
structure Console where
  /-- `mangle_errors`. -/
  mangleErrors : ℕ
  /-- The lines on the standard output. -/
  stdout : List CString
  /-- The lines on the standard error output. -/
  stderr : List CString
  deriving DecidableEq

/-- The locals of a call of `ConfYamlParse`, with the output.  A recursive call has a layer of
its own.  Its parent is a copy of the node that it was called for, which is put back in its
place when the call returns, as the pointer of the source would have it. -/
structure Layer where
  /-- `*parent`. -/
  parent : ConfRecord
  /-- `node`: the parent itself, or a child of it. -/
  node : Option ℕ
  /-- `state`. -/
  state : ConfState
  /-- `seq_idx`. -/
  seqIdx : ℕ
  /-- The output. -/
  console : Console

/-- `Mangle`. -/
def mangle (string : CString) : CString := string.map fun c => if c = '_' then '-' else c

/-- `MANGLE_ERRORS_MAX`. -/
def mangleErrorsMax : ℕ := 10

/-- The name of an item of a sequence. -/
def itemName (idx : ℕ) : CString := (toString idx).toList

namespace Console

/-- A name is mangled. -/
def mangled (c : Console) : Console :=
  if c.mangleErrors < mangleErrorsMax then
    let c' := { c with mangleErrors := c.mangleErrors + 1 }
    if c'.mangleErrors ≥ mangleErrorsMax then
      { c' with stdout := c'.stdout ++ ["not showing more parameter name warnings.".toList] }
    else c'
  else c

/-- A line on the standard error output. -/
def error (c : Console) (line : CString) : Console := { c with stderr := c.stderr ++ [line] }

end Console

/-- The parents that keep the names of their children. -/
def keepsNames (name : Option CString) : Bool :=
  name = some "address-groups".toList || name = some "port-groups".toList

namespace Layer

/-- `*node`. -/
def cursor (l : Layer) : ConfRecord :=
  match l.node with
  | none => l.parent
  | some i => l.parent.head.getD i confNodeNew

/-- `*node` is written. -/
def put (l : Layer) (r : ConfRecord) : Layer :=
  match l.node with
  | none => { l with parent := r }
  | some i => { l with parent := l.parent.setChild i r }

/-- A mapping in a sequence takes the first key as its value. -/
def firstKey (parent : ConfRecord) (value : CString) : ConfRecord :=
  if parent.isSeq ∧ parent.val = none then { parent with val := some (mangle value) } else parent

/-- The name of a new child. -/
def keyName (parent : ConfRecord) (value : CString) : CString :=
  if '_' ∈ value ∧ keepsNames parent.name = false then mangle value else value

/-- A key. -/
def key (l : Layer) (value : CString) : Layer :=
  let parent := firstKey l.parent value
  match parent.indexOf value with
  | some i => { l with parent := parent, node := some i, state := .val }
  | none =>
      { l with
        parent := parent.append { confNodeNew with name := some (keyName parent value) }
        node := some parent.head.length
        state := .val
        console :=
          if '_' ∈ value ∧ keepsNames parent.name = false then l.console.mangled else l.console }

/-- A value. -/
def val (l : Layer) (value : CString) : Layer :=
  let node := l.cursor
  { l.put (if node.allowOverride then { node with val := some value } else node) with
    state := .key }

/-- An item of a sequence. -/
def item (l : Layer) (value : CString) : Layer :=
  { l with
    parent := l.parent.append
      { confNodeNew with name := some (itemName l.seqIdx), val := some value }
    seqIdx := l.seqIdx + 1 }

/-- A scalar. -/
def scalar (inseq : Bool) (l : Layer) (value : CString) : Layer :=
  if inseq then l.item value
  else
    match l.state with
    | .key => l.key value
    | .val => l.val value

/-- The call for a collection that belongs to a node. -/
def call (node : ConfRecord) (console : Console) : Layer := ⟨node, none, .key, 0, console⟩

/-- Behind the call for a collection that belongs to `node`. -/
def back (l inner : Layer) : Layer :=
  { l.put inner.parent with state := .key, console := inner.console }

/-- The node of a mapping in a sequence. -/
def seqNode (l : Layer) : ConfRecord :=
  { confNodeNew with isSeq := true, name := some (itemName l.seqIdx) }

/-- Behind the call for a mapping in a sequence. -/
def backItem (l inner : Layer) : Layer :=
  { l with
    parent := l.parent.append inner.parent
    seqIdx := l.seqIdx + 1
    state := .key
    console := inner.console }

/-- A line on the standard error output. -/
def error (l : Layer) (line : String) : Layer := { l with console := l.console.error line.toList }

end Layer

/-- A source of events, and what it says when it fails. -/
structure EventSource (σ : Type) where
  /-- `yaml_parser_parse`. -/
  parse : Start σ CEvent
  /-- `problem` and `problem_mark`. -/
  problem : σ → YamlProblem

/-- The line about an error of the parser. -/
def parseError (problem : YamlProblem) : String :=
  "Failed to parse configuration file at line " ++ toString problem.line ++ ": " ++
    String.ofList problem.problem

/-- The lines about a file without a version. -/
def invalidFile : String :=
  "ERROR: Invalid configuration file.\n\nThe configuration file must begin with the " ++
    "following two lines:\n\n%YAML 1.1\n---\n"

/-- The line about another version. -/
def invalidVersion : String := "ERROR: Invalid YAML version.  Must be 1.1"

/-- What a call returns: the result, the layer, and the source. -/
abbrev Loaded (σ : Type) : Type := Option (ℤ × Layer × σ)

/-- Behind a call for a collection: the loop goes on, or the function fails. -/
def goOn {σ : Type} (again : Layer → σ → Loaded σ) (back : Layer → Layer) (r : Loaded σ) :
    Loaded σ :=
  r.bind fun x => if x.1 ≠ 0 then some (-1, back x.2.1, x.2.2) else again (back x.2.1) x.2.2

/-- A turn of the loop of `ConfYamlParse`, with the function that goes on. -/
def onEvent {σ : Type} (again : Bool → Layer → σ → Loaded σ) (inseq : Bool) (l : Layer) (s : σ) :
    CEvent → Loaded σ
  | .documentStart none => some (-1, l.error invalidFile, s)
  | .documentStart (some (major, minor)) =>
      if major = 1 ∧ minor = 1 then again inseq l s else some (-1, l.error invalidVersion, s)
  | .scalar value => again inseq (l.scalar inseq value) s
  | .sequenceStart => goOn (again inseq) l.back (again true (.call l.cursor l.console) s)
  | .sequenceEnd => some (0, l, s)
  | .mappingStart =>
      if inseq then goOn (again inseq) l.backItem (again false (.call l.seqNode l.console) s)
      else goOn (again inseq) l.back (again inseq (.call l.cursor l.console) s)
  | .mappingEnd => some (0, l, s)
  | .streamEnd => some (0, l, s)
  | _ => again inseq l s

/-- **`ConfYamlParse`**, for so many events at most. -/
def confYamlParse {σ : Type} (src : EventSource σ) : ℕ → Bool → Layer → σ → Loaded σ
  | 0, _, _, _ => none
  | fuel + 1, inseq, l, s =>
    match src.parse s with
    | (.done event, s') => onEvent (confYamlParse src fuel) inseq l s' event
    | (.failed, s') => some (-1, l.error (parseError (src.problem s')), s')
    | _ => none

/-! ### What documents mean -/

mutual

/-- What a node does to a layer. -/
def Yaml.load (inseq : Bool) : Yaml CString → Layer → Layer
  | .scalar value, l => l.scalar inseq value
  | .alias, l => l
  | .sequence items, l => l.back (loadItems items (.call l.cursor l.console))
  | .mapping entries, l =>
      if inseq then l.backItem (loadEntries entries (.call l.seqNode l.console))
      else l.back (loadEntries entries (.call l.cursor l.console))

/-- What the items of a sequence do to the layer of its call. -/
def loadItems : List (Yaml CString) → Layer → Layer
  | [], l => l
  | y :: ys, l => loadItems ys (y.load true l)

/-- What the entries of a mapping do to the layer of its call. -/
def loadEntries : List (Yaml CString × Yaml CString) → Layer → Layer
  | [], l => l
  | (k, v) :: es, l => loadEntries es (v.load false (k.load false l))

end

/-- The documents the loader lets through. -/
def YamlDocument.current (d : YamlDocument CString) : Bool := d.version = some (1, 1)

section Meaning

variable {σ : Type} {src : EventSource σ} {s s' : σ} {l : Layer} {inseq : Bool} {fuel : ℕ}

/-- An event is read. -/
theorem confYamlParse_done {e : CEvent} (h : src.parse s = (.done e, s')) :
    confYamlParse src (fuel + 1) inseq l s =
      onEvent (confYamlParse src fuel) inseq l s' e := by
  rw [confYamlParse, h]

theorem confYamlParse_error (h : src.parse s = (.failed, s')) :
    confYamlParse src (fuel + 1) inseq l s =
      some (-1, l.error (parseError (src.problem s')), s') := by
  rw [confYamlParse, h]

/-- A call for a collection returns behind the end of the collection. -/
theorem confYamlParse_end {e : CEvent} (he : e = .sequenceEnd ∨ e = .mappingEnd ∨ e = .streamEnd)
    (h : src.parse s = (.done e, s')) (hfuel : 0 < fuel) :
    confYamlParse src fuel inseq l s = some (0, l, s') := by
  obtain ⟨n, rfl⟩ := Nat.exists_eq_add_of_lt hfuel
  rw [Nat.zero_add, confYamlParse_done h]
  rcases he with rfl | rfl | rfl <;> rfl

theorem itemEvents_length (items : List (Yaml CString)) :
    items.length ≤ (itemEvents items).length := by
  induction items with
  | nil => exact le_rfl
  | cons y ys ih =>
    have hy : 1 ≤ y.events.length := by cases y <;> simp [Yaml.events]
    rw [itemEvents, List.length_append, List.length_cons]
    omega

theorem entryEvents_length (entries : List (Yaml CString × Yaml CString)) :
    2 * entries.length ≤ (entryEvents entries).length := by
  induction entries with
  | nil => exact le_rfl
  | cons e es ih =>
    have hy : ∀ y : Yaml CString, 1 ≤ y.events.length := by
      intro y
      cases y <;> simp [Yaml.events]
    have hk := hy e.1
    have hv := hy e.2
    rw [entryEvents, List.length_append, List.length_append, List.length_cons]
    omega

mutual

/-- **The events of a node** do to a layer what the node means; they take one turn. -/
theorem confYamlParse_node : (y : Yaml CString) →
    ∀ (fuel : ℕ) (inseq : Bool) (l : Layer) (s s' : σ),
    Yields src.parse s y.events s' → y.events.length < fuel →
    confYamlParse src fuel inseq l s = confYamlParse src (fuel - 1) inseq (y.load inseq l) s'
  | .scalar value => by
      intro fuel inseq l s s' hdel hfuel
      obtain ⟨n, rfl⟩ := Nat.exists_eq_add_of_lt hfuel
      obtain ⟨t, ht, rfl⟩ := hdel
      rw [confYamlParse_done ht]
      rfl
  | .alias => by
      intro fuel inseq l s s' hdel hfuel
      obtain ⟨n, rfl⟩ := Nat.exists_eq_add_of_lt hfuel
      obtain ⟨t, ht, rfl⟩ := hdel
      rw [confYamlParse_done ht]
      rfl
  -- the call for a collection takes what is in it and returns at its end
  | .sequence items => by
      intro fuel inseq l s s' hdel hfuel
      rw [Yaml.events, List.length_cons, List.length_append, List.length_singleton] at hfuel
      obtain ⟨n, rfl⟩ := Nat.exists_eq_add_of_lt (Nat.zero_lt_of_lt hfuel)
      obtain ⟨t, ht, hdel⟩ := hdel
      obtain ⟨u, hitems, v, hv, rfl⟩ := yields_append_iff.mp hdel
      have hlen := itemEvents_length items
      rw [confYamlParse_done ht, onEvent]
      rw [confYamlParse_items items _ _ _ _ hitems (by omega),
        confYamlParse_end (Or.inl rfl) hv (by omega)]
      rfl
  | .mapping entries => by
      intro fuel inseq l s s' hdel hfuel
      rw [Yaml.events, List.length_cons, List.length_append, List.length_singleton] at hfuel
      obtain ⟨n, rfl⟩ := Nat.exists_eq_add_of_lt (Nat.zero_lt_of_lt hfuel)
      obtain ⟨t, ht, hdel⟩ := hdel
      obtain ⟨u, hentries, v, hv, rfl⟩ := yields_append_iff.mp hdel
      have hlen := entryEvents_length entries
      rw [confYamlParse_done ht, onEvent, Yaml.load]
      cases inseq with
      | true =>
        rw [if_pos rfl, if_pos rfl, confYamlParse_entries entries _ _ _ _ hentries (by omega),
          confYamlParse_end (Or.inr (Or.inl rfl)) hv (by omega)]
        rfl
      | false =>
        rw [if_neg Bool.false_ne_true, if_neg Bool.false_ne_true,
          confYamlParse_entries entries _ _ _ _ hentries (by omega),
          confYamlParse_end (Or.inr (Or.inl rfl)) hv (by omega)]
        rfl

theorem confYamlParse_items : (items : List (Yaml CString)) →
      ∀ (fuel : ℕ) (l : Layer) (s s' : σ),
    Yields src.parse s (itemEvents items) s' → (itemEvents items).length < fuel →
    confYamlParse src fuel true l s =
      confYamlParse src (fuel - items.length) true (loadItems items l) s'
  | [] => by
      intro fuel l s s' hdel _
      cases hdel
      rfl
  | y :: ys => by
      intro fuel l s s' hdel hfuel
      rw [itemEvents, List.length_append] at hfuel
      obtain ⟨t, hy, hys⟩ := yields_append_iff.mp hdel
      have hpos : 1 ≤ y.events.length := by cases y <;> simp [Yaml.events]
      rw [confYamlParse_node y _ _ _ _ _ hy (by omega),
        confYamlParse_items ys _ _ _ _ hys (by omega), loadItems, List.length_cons, Nat.sub_sub,
        Nat.add_comm]

theorem confYamlParse_entries : (entries : List (Yaml CString × Yaml CString)) →
      ∀ (fuel : ℕ) (l : Layer) (s s' : σ),
    Yields src.parse s (entryEvents entries) s' → (entryEvents entries).length < fuel →
    confYamlParse src fuel false l s =
      confYamlParse src (fuel - 2 * entries.length) false (loadEntries entries l) s'
  | [] => by
      intro fuel l s s' hdel _
      cases hdel
      rfl
  | (k, v) :: es => by
      intro fuel l s s' hdel hfuel
      rw [entryEvents, List.length_append, List.length_append] at hfuel
      rw [entryEvents, yields_append_iff] at hdel
      obtain ⟨u, hkv, hes⟩ := hdel
      obtain ⟨t, hk, hv⟩ := yields_append_iff.mp hkv
      have hposk : 1 ≤ k.events.length := by cases k <;> simp [Yaml.events]
      have hposv : 1 ≤ v.events.length := by cases v <;> simp [Yaml.events]
      rw [confYamlParse_node k _ _ _ _ _ hk (by omega),
        confYamlParse_node v _ _ _ _ _ hv (by omega),
        confYamlParse_entries es _ _ _ _ hes (by omega), loadEntries, List.length_cons]
      congr 1
      omega

end

end Meaning

/-! ### Streams -/

/-- The line about a document that is not let through. -/
def versionError : Option (ℤ × ℤ) → String
  | none => invalidFile
  | some _ => invalidVersion

/-- What a stream does to the layer of the root, with the result. -/
def loadStream : List (YamlDocument CString) → Layer → ℤ × Layer
  | [], l => (0, l)
  | d :: ds, l =>
      if d.current then loadStream ds (d.root.load false l)
      else (-1, l.error (versionError d.version))

theorem loadStream_cons_of_current {d : YamlDocument CString} (ds : List (YamlDocument CString))
    (l : Layer) (hd : d.version = some (1, 1)) :
    loadStream (d :: ds) l = loadStream ds (d.root.load false l) :=
  if_pos (decide_eq_true hd)

theorem loadStream_cons_of_ne {d : YamlDocument CString} (ds : List (YamlDocument CString))
    (l : Layer) (hd : d.version ≠ some (1, 1)) :
    loadStream (d :: ds) l = (-1, l.error (versionError d.version)) :=
  if_neg fun h => hd (of_decide_eq_true h)

/-- **A load succeeds** when every document has the right version. -/
theorem loadStream_eq_zero_iff (docs : List (YamlDocument CString)) (l : Layer) :
    (loadStream docs l).1 = 0 ↔ ∀ d ∈ docs, d.version = some (1, 1) := by
  induction docs generalizing l with
  | nil => simp [loadStream]
  | cons d ds ih =>
    by_cases hd : d.version = some (1, 1)
    · rw [loadStream_cons_of_current ds l hd, ih]
      simp [hd]
    · rw [loadStream_cons_of_ne ds l hd]
      simp [hd]

theorem loadStream_eq_zero_or (docs : List (YamlDocument CString)) (l : Layer) :
    (loadStream docs l).1 = 0 ∨ (loadStream docs l).1 = -1 := by
  induction docs generalizing l with
  | nil => exact Or.inl rfl
  | cons d ds ih =>
    by_cases hd : d.version = some (1, 1)
    · rw [loadStream_cons_of_current ds l hd]
      exact ih _
    · rw [loadStream_cons_of_ne ds l hd]
      exact Or.inr rfl

section Streams

variable {σ : Type} {src : EventSource σ} {s s' : σ} {l : Layer} {inseq : Bool} {fuel : ℕ}

/-- A document is begun, or refused. -/
theorem confYamlParse_documentStart {version : Option (ℤ × ℤ)}
    (h : src.parse s = (.done (.documentStart version), s')) :
    confYamlParse src (fuel + 1) inseq l s =
      if version = some (1, 1) then confYamlParse src fuel inseq l s'
      else some (-1, l.error (versionError version), s') := by
  rw [confYamlParse_done h]
  rcases version with _ | ⟨major, minor⟩
  · rfl
  · simp [onEvent, versionError]

theorem YamlDocument.events_length (d : YamlDocument CString) :
    d.events.length = d.root.events.length + 2 := by
  simp [YamlDocument.events]

/-- The events of a document do what its node means, where its version is the right one. -/
theorem confYamlParse_document {d : YamlDocument CString}
    (hdel : Yields src.parse s d.events s') (hfuel : d.events.length < fuel) :
    (d.version = some (1, 1) ∧ confYamlParse src fuel false l s =
        confYamlParse src (fuel - 3) false (d.root.load false l) s') ∨
      (d.version ≠ some (1, 1) ∧ ∃ q, confYamlParse src fuel false l s =
        some (-1, l.error (versionError d.version), q)) := by
  rw [d.events_length] at hfuel
  obtain ⟨n, rfl⟩ := Nat.exists_eq_add_of_lt (Nat.zero_lt_of_lt hfuel)
  obtain ⟨t, ht, hdel⟩ := hdel
  obtain ⟨u, hroot, v, hv, rfl⟩ := yields_append_iff.mp hdel
  rw [Nat.zero_add, confYamlParse_documentStart ht]
  by_cases hd : d.version = some (1, 1)
  · refine Or.inl ⟨hd, ?_⟩
    rw [if_pos hd, confYamlParse_node d.root _ _ _ _ _ hroot (by omega)]
    obtain ⟨m, rfl⟩ : ∃ m, n = m + 2 := ⟨n - 2, by omega⟩
    rw [show m + 2 - 1 = m + 1 by omega, confYamlParse_done hv]
    rfl
  · exact Or.inr ⟨hd, t, if_neg hd⟩

/-- **The documents are loaded** in turn, or one of them is refused. -/
theorem confYamlParse_documents {docs : List (YamlDocument CString)}
    (hdel : Yields src.parse s (docs.flatMap YamlDocument.events) s')
    (hfuel : (docs.flatMap YamlDocument.events).length < fuel) :
    ((loadStream docs l).1 = 0 ∧ confYamlParse src fuel false l s =
        confYamlParse src (fuel - 3 * docs.length) false (loadStream docs l).2 s') ∨
      ((loadStream docs l).1 = -1 ∧ ∃ q, confYamlParse src fuel false l s =
        some (-1, (loadStream docs l).2, q)) := by
  induction docs generalizing fuel l s with
  | nil =>
    cases hdel
    exact Or.inl ⟨rfl, rfl⟩
  | cons d ds ih =>
    rw [List.flatMap_cons] at hdel hfuel
    rw [List.length_append] at hfuel
    obtain ⟨t, hd, hds⟩ := yields_append_iff.mp hdel
    have hlen := d.events_length
    have hpos : 1 ≤ d.root.events.length := by cases d.root <;> simp [Yaml.events]
    rcases confYamlParse_document (l := l) hd (by omega : _ < fuel) with ⟨hv, heq⟩ | ⟨hv, q, heq⟩
    · rw [loadStream_cons_of_current ds l hv, heq, List.length_cons,
        show fuel - 3 * (ds.length + 1) = fuel - 3 - 3 * ds.length by omega]
      exact ih hds (by omega)
    · rw [loadStream_cons_of_ne ds l hv]
      exact Or.inr ⟨rfl, q, heq⟩

theorem documentEvents_length (docs : List (YamlDocument CString)) :
    3 * docs.length ≤ (docs.flatMap YamlDocument.events).length := by
  induction docs with
  | nil => exact le_rfl
  | cons d ds ih =>
    have hlen := d.events_length
    have hpos : 1 ≤ d.root.events.length := by cases d.root <;> simp [Yaml.events]
    rw [List.flatMap_cons, List.length_append, List.length_cons]
    omega

/-- **The loader does what the documents mean.** -/
theorem confYamlParse_stream {docs : List (YamlDocument CString)}
    (hdel : Yields src.parse s (streamEvents docs) s')
    (hfuel : (streamEvents docs).length < fuel) :
    ∃ q, confYamlParse src fuel false l s =
      some ((loadStream docs l).1, (loadStream docs l).2, q) := by
  rw [streamEvents, List.length_cons, List.length_append, List.length_singleton] at hfuel
  obtain ⟨n, rfl⟩ := Nat.exists_eq_add_of_lt (Nat.zero_lt_of_lt hfuel)
  obtain ⟨t, ht, hdel⟩ := hdel
  obtain ⟨u, hdocs, v, hv, rfl⟩ := yields_append_iff.mp hdel
  have hlen := documentEvents_length docs
  rw [Nat.zero_add, confYamlParse_done ht, onEvent]
  · rcases confYamlParse_documents (l := l) hdocs (by omega : _ < n) with ⟨hz, heq⟩ | ⟨hz, q, heq⟩
    · exact ⟨v, by rw [heq, confYamlParse_end (Or.inr (Or.inr rfl)) hv (by omega), hz]⟩
    · exact ⟨q, by rw [heq, hz]⟩
  all_goals simp

/-! ### Errors of the parser -/

/-- An error inside of open collections, the outermost one first, fails the call. -/
theorem confYamlParse_frames (fs : List (YamlFrame CString)) (fuel : ℕ) (inseq : Bool) (l : Layer)
    (s : σ) {t r : σ} (hdel : Yields src.parse s (fs.flatMap YamlFrame.events) t)
    (hfail : src.parse t = (.failed, r)) (hfuel : (fs.flatMap YamlFrame.events).length < fuel) :
    ∃ l' q, confYamlParse src fuel inseq l s = some (-1, l', q) := by
  -- the call of the outermost collection loads what is complete there, and fails with the one
  -- it makes for the next
  induction fs generalizing fuel inseq l s with
  | nil =>
    obtain ⟨n, rfl⟩ := Nat.exists_eq_add_of_lt (Nat.zero_lt_of_lt hfuel)
    cases hdel
    exact ⟨_, _, by rw [Nat.zero_add]; exact confYamlParse_error hfail⟩
  | cons f fs ih =>
    rw [List.flatMap_cons] at hdel hfuel
    rw [List.length_append] at hfuel
    obtain ⟨u, hf, hfs⟩ := yields_append_iff.mp hdel
    obtain ⟨n, rfl⟩ := Nat.exists_eq_add_of_lt (Nat.zero_lt_of_lt hfuel)
    cases f with
    | sequence items =>
      rw [YamlFrame.events, List.length_cons] at hfuel
      obtain ⟨v, hv, hitems⟩ := hf
      have hlen := itemEvents_length items
      obtain ⟨l', q, hq⟩ := ih (n - items.length) true
        (loadItems items (.call l.cursor l.console)) u hfs (by omega)
      refine ⟨l.back l', q, ?_⟩
      rw [Nat.zero_add, confYamlParse_done hv, onEvent, confYamlParse_items items _ _ _ _ hitems
        (by omega), hq]
      rfl
    | mapping entries =>
      rw [YamlFrame.events, List.length_cons] at hfuel
      obtain ⟨v, hv, hentries⟩ := hf
      have hlen := entryEvents_length entries
      cases inseq with
      | true =>
        obtain ⟨l', q, hq⟩ := ih (n - 2 * entries.length) false
          (loadEntries entries (.call l.seqNode l.console)) u hfs (by omega)
        refine ⟨l.backItem l', q, ?_⟩
        rw [Nat.zero_add, confYamlParse_done hv, onEvent, if_pos rfl,
          confYamlParse_entries entries _ _ _ _ hentries (by omega), hq]
        rfl
      | false =>
        obtain ⟨l', q, hq⟩ := ih (n - 2 * entries.length) false
          (loadEntries entries (.call l.cursor l.console)) u hfs (by omega)
        refine ⟨l.back l', q, ?_⟩
        rw [Nat.zero_add, confYamlParse_done hv, onEvent, if_neg Bool.false_ne_true,
          confYamlParse_entries entries _ _ _ _ hentries (by omega), hq]
        rfl
    | value entries key =>
      rw [YamlFrame.events, List.length_cons, List.length_append] at hfuel
      obtain ⟨v, hv, hrest⟩ := hf
      obtain ⟨w, hentries, hkey⟩ := yields_append_iff.mp hrest
      have hlen := entryEvents_length entries
      have hpos : 1 ≤ key.events.length := by cases key <;> simp [Yaml.events]
      cases inseq with
      | true =>
        obtain ⟨l', q, hq⟩ := ih (n - 2 * entries.length - 1) false
          (key.load false (loadEntries entries (.call l.seqNode l.console))) u hfs (by omega)
        refine ⟨l.backItem l', q, ?_⟩
        rw [Nat.zero_add, confYamlParse_done hv, onEvent, if_pos rfl,
          confYamlParse_entries entries _ _ _ _ hentries (by omega),
          confYamlParse_node key _ _ _ _ _ hkey (by omega), hq]
        rfl
      | false =>
        obtain ⟨l', q, hq⟩ := ih (n - 2 * entries.length - 1) false
          (key.load false (loadEntries entries (.call l.cursor l.console))) u hfs (by omega)
        refine ⟨l.back l', q, ?_⟩
        rw [Nat.zero_add, confYamlParse_done hv, onEvent, if_neg Bool.false_ne_true,
          confYamlParse_entries entries _ _ _ _ hentries (by omega),
          confYamlParse_node key _ _ _ _ _ hkey (by omega), hq]
        rfl

/-- **An error of the parser fails the load**, wherever in a stream it is. -/
theorem confYamlParse_failed {c : Composer CString} (hc : ∀ docs, c ≠ .finished docs) {t r : σ}
    (hdel : Yields src.parse s c.read t) (hfail : src.parse t = (.failed, r))
    (hfuel : c.read.length < fuel) :
    ∃ l' q, confYamlParse src fuel false l s = some (-1, l', q) := by
  -- behind the documents that are complete
  have hdocs : ∀ {docs : List (YamlDocument CString)} {rest s fuel}, Yields src.parse s
      (docs.flatMap YamlDocument.events ++ rest) t →
      (docs.flatMap YamlDocument.events ++ rest).length < fuel →
      (∀ u fuel' l', Yields src.parse u rest t → rest.length < fuel' →
        ∃ l'' q, confYamlParse src fuel' false l' u = some (-1, l'', q)) →
      ∃ l' q, confYamlParse src fuel false l s = some (-1, l', q) := by
    intro docs rest s fuel hdel hfuel hrest
    rw [List.length_append] at hfuel
    obtain ⟨u, hds, hdel⟩ := yields_append_iff.mp hdel
    have hlen := documentEvents_length docs
    rcases confYamlParse_documents (l := l) hds (by omega : _ < fuel) with ⟨-, heq⟩ | ⟨-, q, heq⟩
    · rw [heq]
      exact hrest u _ _ hdel (by omega)
    · exact ⟨_, q, heq⟩
  have herror : ∀ u fuel' l', Yields src.parse u [] t → ([] : List CEvent).length < fuel' →
      ∃ l'' q, confYamlParse src fuel' false l' u = some (-1, l'', q) := by
    intro u fuel' l' hdel hfuel'
    obtain ⟨n, rfl⟩ := Nat.exists_eq_add_of_lt hfuel'
    cases hdel
    exact ⟨_, _, confYamlParse_error hfail⟩
  obtain ⟨n, rfl⟩ := Nat.exists_eq_add_of_lt (Nat.zero_lt_of_lt hfuel)
  rw [Nat.zero_add] at hfuel ⊢
  cases c with
  | start => exact herror s _ l hdel (Nat.succ_pos _)
  | finished docs => exact absurd rfl (hc docs)
  | stream docs =>
    rw [Composer.read, List.length_cons] at hfuel
    obtain ⟨v, hv, hdel⟩ := hdel
    rw [confYamlParse_done hv, onEvent]
    · rw [← List.append_nil (docs.flatMap YamlDocument.events)] at hdel
      exact hdocs hdel (by rw [List.append_nil]; omega) herror
    all_goals simp
  | document docs version fs =>
    rw [Composer.read, List.length_cons] at hfuel
    obtain ⟨v, hv, hdel⟩ := hdel
    rw [confYamlParse_done hv, onEvent]
    · refine hdocs hdel (by omega) fun u fuel' l' hdel' hfuel' => ?_
      rw [List.length_cons] at hfuel'
      obtain ⟨m, rfl⟩ := Nat.exists_eq_add_of_lt (Nat.zero_lt_of_lt hfuel')
      obtain ⟨w, hw, hfs⟩ := hdel'
      rw [Nat.zero_add, confYamlParse_documentStart hw]
      split
      · exact confYamlParse_frames fs.reverse _ _ _ _ hfs hfail (by omega)
      · exact ⟨_, _, rfl⟩
    all_goals simp
  | content docs version root =>
    rw [Composer.read, List.length_cons] at hfuel
    obtain ⟨v, hv, hdel⟩ := hdel
    rw [confYamlParse_done hv, onEvent]
    · refine hdocs hdel (by omega) fun u fuel' l' hdel' hfuel' => ?_
      rw [List.length_cons] at hfuel'
      obtain ⟨m, rfl⟩ := Nat.exists_eq_add_of_lt (Nat.zero_lt_of_lt hfuel')
      obtain ⟨w, hw, hroot⟩ := hdel'
      rw [Nat.zero_add, confYamlParse_documentStart hw]
      split
      · rw [confYamlParse_node root _ _ _ _ _ hroot (by omega)]
        obtain ⟨k, hk⟩ : ∃ k, m - 1 = k + 1 := ⟨m - 2, by
          have : 1 ≤ root.events.length := by cases root <;> simp [Yaml.events]
          omega⟩
        rw [hk]
        exact ⟨_, _, confYamlParse_error hfail⟩
      · exact ⟨_, _, rfl⟩
    all_goals simp

end Streams

/-! ### The whole of a load -/

/-- The parser as a source of events. -/
def parserSource : EventSource YamlParser where
  parse := yamlParserParse
  problem p := p.error.getD p.failure

/-- `ConfYamlLoadString`, and `ConfYamlLoadFile` behind `fopen`: the tokens of the text are
loaded below the root.  There are six events for a token at most. -/
def confYamlLoad (tokens : List YamlToken) (failure : YamlProblem) (root : ConfRecord)
    (console : Console) : Option (ℤ × ConfRecord × Console) :=
  (confYamlParse parserSource (6 * tokens.length + 2) false (.call root console)
    (.initial tokens failure)).map fun x => (x.1, x.2.1.parent, x.2.1.console)

section Load

variable {tokens : List YamlToken} {failure : YamlProblem} {docs : List (YamlDocument CString)}

/-- The tokens are a stream of documents. -/
def Accepts (tokens : List YamlToken) (failure : YamlProblem)
    (docs : List (YamlDocument CString)) : Prop :=
  ∃ q, Yields yamlParserParse (.initial tokens failure) (streamEvents docs) q

/-- Behind a stream there is nothing more to read. -/
theorem eq_of_run_streamEvents {es : List CEvent} {c : Composer CString}
    (h : Composer.start.run (streamEvents docs ++ es) = some c) : es = [] ∧ c = .finished docs := by
  rw [Composer.run_append, Composer.run_streamEvents, Option.bind_some] at h
  cases es with
  | nil =>
    cases h
    exact ⟨rfl, rfl⟩
  | cons e es =>
    rw [Composer.run_cons] at h
    cases h

/-- What is delivered is determined by its length. -/
theorem Start.Yields.prefix_of_le {σ α : Type} {x : Start σ α} {s t u : σ} {as bs : List α}
    (ha : Yields x s as t) (hb : Yields x s bs u) (hlen : as.length ≤ bs.length) :
    ∃ rest, bs = as ++ rest ∧ Yields x t rest u := by
  induction as generalizing s bs with
  | nil =>
    cases ha
    exact ⟨bs, rfl, hb⟩
  | cons a as ih =>
    cases bs with
    | nil => simp at hlen
    | cons b bs =>
      obtain ⟨s₁, h₁, ha⟩ := ha
      obtain ⟨s₂, h₂, hb⟩ := hb
      cases h₁.symm.trans h₂
      obtain ⟨rest, rfl, hrest⟩ := ih ha hb (Nat.le_of_succ_le_succ hlen)
      exact ⟨rest, rfl, hrest⟩

theorem rank_initial (tokens : List YamlToken) (failure : YamlProblem) :
    (YamlParser.initial tokens failure).rank = 6 * tokens.length + 1 := rfl

/-- **The parser accepts a stream, or fails behind the beginning of one.** -/
theorem accepts_or_fails (tokens : List YamlToken) (failure : YamlProblem) :
    (∃ docs q, Yields yamlParserParse (.initial tokens failure) (streamEvents docs) q ∧
        (streamEvents docs).length ≤ 6 * tokens.length + 1 ∧
        (∀ e ∈ streamEvents docs, YamlParser.Supported e)) ∨
      ((∀ docs, ¬Accepts tokens failure docs) ∧
        ∃ c : Composer CString, (∀ docs, c ≠ .finished docs) ∧ ∃ t r,
          Yields yamlParserParse (.initial tokens failure) c.read t ∧
          c.read.length ≤ 6 * tokens.length + 1 ∧ yamlParserParse t = (.failed, r)) := by
  obtain ⟨es, q, hes, hlen, hsup, hout⟩ := yamlParser_yields (fits_initial tokens failure)
  rw [rank_initial] at hlen
  cases hout with
  | finished docs h =>
    obtain rfl := Composer.run_eq_finished_iff.mp h
    exact Or.inl ⟨docs, q, hes, hlen, hsup⟩
  | failed c h hc r hr _ =>
    have hread := Composer.read_of_run h
    rw [show (Composer.start : Composer CString).read = [] from rfl, List.nil_append] at hread
    subst hread
    refine Or.inr ⟨fun docs ⟨u, hu⟩ => ?_, c, hc, q, r, hes, hlen, hr⟩
    -- the stream would end before the error, or behind it
    rcases le_total (streamEvents docs).length c.read.length with hle | hle
    · obtain ⟨rest, hrest, -⟩ := hu.prefix_of_le hes hle
      rw [hrest] at h
      exact hc docs (eq_of_run_streamEvents h).2
    · obtain ⟨rest, hrest, hdel⟩ := hes.prefix_of_le hu hle
      cases rest with
      | nil =>
        rw [List.append_nil] at hrest
        rw [← hrest, Composer.run_streamEvents] at h
        exact hc docs (Option.some.inj h).symm
      | cons e rest =>
        obtain ⟨_, he, _⟩ := hdel
        rw [hr] at he
        cases he

/-- The tokens are one stream at most. -/
theorem Accepts.unique {docs' : List (YamlDocument CString)} (h : Accepts tokens failure docs)
    (h' : Accepts tokens failure docs') : docs = docs' := by
  obtain ⟨q, h⟩ := h
  obtain ⟨q', h'⟩ := h'
  have key : ∀ {ds ds' : List (YamlDocument CString)} {u u'},
      Yields yamlParserParse (.initial tokens failure) (streamEvents ds) u →
      Yields yamlParserParse (.initial tokens failure) (streamEvents ds') u' →
      (streamEvents ds).length ≤ (streamEvents ds').length → ds = ds' := by
    intro ds ds' u u' hu hu' hle
    obtain ⟨rest, hrest, -⟩ := hu.prefix_of_le hu' hle
    have hrun := Composer.run_streamEvents ds'
    rw [hrest] at hrun
    exact (Composer.finished.inj (eq_of_run_streamEvents hrun).2).symm
  rcases le_total (streamEvents docs).length (streamEvents docs').length with hle | hle
  · exact key h h' hle
  · exact (key h' h hle).symm

/-- A document that is accepted has no version, or the right one. -/
theorem version_of_accepts (h : Accepts tokens failure docs) {d : YamlDocument CString}
    (hd : d ∈ docs) : d.version = none ∨ d.version = some (1, 1) := by
  rcases accepts_or_fails tokens failure with ⟨docs', q, hq, -, hsup⟩ | ⟨hnone, -⟩
  · obtain rfl := h.unique ⟨q, hq⟩
    have hmem : YamlEvent.documentStart d.version ∈ streamEvents docs := by
      refine List.mem_cons_of_mem _ (List.mem_append_left _ ?_)
      exact List.mem_flatMap.mpr ⟨d, hd, List.mem_cons_self⟩
    exact hsup _ hmem
  · exact absurd h (hnone docs)

/-- A stream of documents is loaded as what it means. -/
theorem confYamlLoad_of_accepts (h : Accepts tokens failure docs) (root : ConfRecord)
    (console : Console) :
    confYamlLoad tokens failure root console = some
      ((loadStream docs (.call root console)).1, (loadStream docs (.call root console)).2.parent,
        (loadStream docs (.call root console)).2.console) := by
  rcases accepts_or_fails tokens failure with ⟨docs', q, hq, hlen, -⟩ | ⟨hnone, -⟩
  · obtain rfl := h.unique ⟨q, hq⟩
    have hdel : Yields parserSource.parse (.initial tokens failure) (streamEvents docs) q := hq
    obtain ⟨u, hu⟩ := confYamlParse_stream (l := .call root console) hdel (Nat.lt_succ_of_le hlen)
    rw [confYamlLoad, hu]
    rfl
  · exact absurd h (hnone docs)

/-- Of documents with versions each has the right one. -/
theorem loadStream_eq_zero_iff_of_accepts (h : Accepts tokens failure docs) (l : Layer) :
    (loadStream docs l).1 = 0 ↔ ∀ d ∈ docs, d.version ≠ none := by
  rw [loadStream_eq_zero_iff]
  refine ⟨fun hall d hd hnone => ?_, fun hall d hd => ?_⟩
  · rw [hall d hd] at hnone
    cases hnone
  · exact (version_of_accepts h hd).resolve_left (hall d hd)

/-- **A load returns**, for whatever tokens.  It returns 0 just where the tokens are a stream
of documents that all say their version, and the root is then what the documents mean. -/
theorem confYamlLoad_returns (tokens : List YamlToken) (failure : YamlProblem) (root : ConfRecord)
    (console : Console) :
    ∃ ret root' console', confYamlLoad tokens failure root console = some (ret, root', console') ∧
      (ret = 0 ∨ ret = -1) ∧
      (ret = 0 ↔ ∃ docs, Accepts tokens failure docs ∧ ∀ d ∈ docs, d.version ≠ none) ∧
      ∀ docs, Accepts tokens failure docs →
        (root', console') = ((loadStream docs (.call root console)).2.parent,
          (loadStream docs (.call root console)).2.console) := by
  rcases accepts_or_fails tokens failure with
    ⟨docs, q, hq, -⟩ | ⟨hnone, c, hc, t, r, hdel, hlen, hr⟩
  · have hacc : Accepts tokens failure docs := ⟨q, hq⟩
    refine ⟨_, _, _, confYamlLoad_of_accepts hacc root console, loadStream_eq_zero_or docs _, ?_,
      fun docs' hacc' => by rw [hacc.unique hacc']⟩
    rw [loadStream_eq_zero_iff_of_accepts hacc]
    refine ⟨fun h => ⟨docs, hacc, h⟩, fun ⟨docs', hacc', h⟩ => ?_⟩
    rwa [hacc.unique hacc']
  · have hdel' : Yields parserSource.parse (.initial tokens failure) c.read t := hdel
    obtain ⟨l', u, hu⟩ := confYamlParse_failed (l := .call root console) hc hdel' hr
      (Nat.lt_succ_of_le hlen)
    refine ⟨_, _, _, by rw [confYamlLoad, hu]; rfl, Or.inr rfl, ?_, fun docs h => ?_⟩
    · refine iff_of_false (by decide) fun ⟨docs, h, _⟩ => hnone docs h
    · exact absurd h (hnone docs)

end Load

end Newiup
