import Mathlib.Data.List.Basic
import Mathlib.Tactic

/-!
# Documents and their events

A stream of documents is handed out as a sequence of events.  The *composer* reads events
one at a time and builds the documents again; it accepts the well-nested sequences and no
others, so that it is the measure of a source of events.

The composer belongs to the proof and not to the library.  A source of events is sound if
the composer accepts whatever it hands out, and it has handed out a whole stream if the
composer is finished.  An event that fits nowhere, such as the end of a node that was not
begun, stops the composer for good.

## Main definitions

* `Yaml`, `YamlDocument` — a node of a document, and a document.
* `YamlEvent`, `Yaml.events`, `streamEvents` — the events of nodes and of streams.
* `Composer` — what has been read so far.

## Main results

* `Composer.read_of_run` — **the composer has read the events it has read.**
* `Composer.run_streamEvents` — the events of a stream are accepted, with the stream as result.
-/

namespace Newiup

/-- A node of a document, with scalars in `α`. -/
inductive Yaml (α : Type*)
  | scalar (value : α)
  | alias
  | sequence (items : List (Yaml α))
  /-- the keys with their values -/
  | mapping (entries : List (Yaml α × Yaml α))

/-- What happens in a stream. -/
inductive YamlEvent (α : Type*)
  /-- nothing -/
  | none
  | streamStart
  | streamEnd
  | documentStart (version : Option (ℤ × ℤ))
  | documentEnd
  | alias
  | scalar (value : α)
  | sequenceStart
  | sequenceEnd
  | mappingStart
  | mappingEnd
  deriving DecidableEq

/-- A document, with the version its directive gives. -/
structure YamlDocument (α : Type*) where
  /-- The version. -/
  version : Option (ℤ × ℤ)
  /-- The node. -/
  root : Yaml α

section Events

variable {α : Type*}

mutual

/-- The events of a node. -/
def Yaml.events : Yaml α → List (YamlEvent α)
  | .scalar value => [.scalar value]
  | .alias => [.alias]
  | .sequence items => .sequenceStart :: (itemEvents items ++ [.sequenceEnd])
  | .mapping entries => .mappingStart :: (entryEvents entries ++ [.mappingEnd])

/-- The events of the items of a sequence. -/
def itemEvents : List (Yaml α) → List (YamlEvent α)
  | [] => []
  | y :: ys => y.events ++ itemEvents ys

/-- The events of the entries of a mapping. -/
def entryEvents : List (Yaml α × Yaml α) → List (YamlEvent α)
  | [] => []
  | (k, v) :: es => k.events ++ v.events ++ entryEvents es

end

/-- The events of a document. -/
def YamlDocument.events (d : YamlDocument α) : List (YamlEvent α) :=
  .documentStart d.version :: (d.root.events ++ [.documentEnd])

/-- The events of a stream. -/
def streamEvents (docs : List (YamlDocument α)) : List (YamlEvent α) :=
  .streamStart :: (docs.flatMap YamlDocument.events ++ [.streamEnd])

theorem itemEvents_append (ys zs : List (Yaml α)) :
    itemEvents (ys ++ zs) = itemEvents ys ++ itemEvents zs := by
  induction ys with
  | nil => rfl
  | cons y ys ih => rw [List.cons_append, itemEvents, itemEvents, ih, List.append_assoc]

theorem entryEvents_append (es fs : List (Yaml α × Yaml α)) :
    entryEvents (es ++ fs) = entryEvents es ++ entryEvents fs := by
  induction es with
  | nil => rfl
  | cons e es ih =>
    simp only [List.cons_append, entryEvents, ih, List.append_assoc]

end Events

/-! ### The composer -/

/-- A collection that is open, with what it holds so far. -/
inductive YamlFrame (α : Type*)
  | sequence (items : List (Yaml α))
  | mapping (entries : List (Yaml α × Yaml α))
  /-- a mapping that waits for the value of a key -/
  | value (entries : List (Yaml α × Yaml α)) (key : Yaml α)

/-- What has been read so far; open collections from the innermost one on.  It is a machine
over events with a stack of the collections that are open.  Its states are the prefixes of
streams, and what it has read can be printed again from the state. -/
inductive Composer (α : Type*)
  | start
  /-- between documents -/
  | stream (docs : List (YamlDocument α))
  /-- in a document, at a node -/
  | document (docs : List (YamlDocument α)) (version : Option (ℤ × ℤ))
      (opened : List (YamlFrame α))
  /-- behind the node of a document -/
  | content (docs : List (YamlDocument α)) (version : Option (ℤ × ℤ)) (root : Yaml α)
  | finished (docs : List (YamlDocument α))

section Composer

variable {α : Type*}

/-- A collection takes a node. -/
def YamlFrame.add (y : Yaml α) : YamlFrame α → YamlFrame α
  | .sequence items => .sequence (items ++ [y])
  | .mapping entries => .value entries y
  | .value entries key => .mapping (entries ++ [(key, y)])

/-- The events of an open collection. -/
def YamlFrame.events : YamlFrame α → List (YamlEvent α)
  | .sequence items => .sequenceStart :: itemEvents items
  | .mapping entries => .mappingStart :: entryEvents entries
  | .value entries key => .mappingStart :: (entryEvents entries ++ key.events)

theorem YamlFrame.events_add (f : YamlFrame α) (y : Yaml α) :
    (f.add y).events = f.events ++ y.events := by
  cases f with
  | sequence items => simp [add, events, itemEvents_append, itemEvents]
  | mapping entries => rfl
  | value entries key => simp [add, events, entryEvents_append, entryEvents]

namespace Composer

/-- A node is complete. -/
def node (docs : List (YamlDocument α)) (version : Option (ℤ × ℤ)) (y : Yaml α) :
    List (YamlFrame α) → Composer α
  | [] => .content docs version y
  | f :: fs => .document docs version (f.add y :: fs)

/-- An event is read. -/
def step : Composer α → YamlEvent α → Option (Composer α)
  | .start, .streamStart => some (.stream [])
  | .stream docs, .documentStart version => some (.document docs version [])
  | .stream docs, .streamEnd => some (.finished docs)
  | .document docs version fs, .scalar value => some (node docs version (.scalar value) fs)
  | .document docs version fs, .alias => some (node docs version .alias fs)
  | .document docs version fs, .sequenceStart => some (.document docs version (.sequence [] :: fs))
  | .document docs version fs, .mappingStart => some (.document docs version (.mapping [] :: fs))
  | .document docs version (.sequence items :: fs), .sequenceEnd =>
      some (node docs version (.sequence items) fs)
  | .document docs version (.mapping entries :: fs), .mappingEnd =>
      some (node docs version (.mapping entries) fs)
  | .content docs version root, .documentEnd => some (.stream (docs ++ [⟨version, root⟩]))
  | _, _ => none

/-- A sequence of events is read. -/
def run (c : Composer α) (es : List (YamlEvent α)) : Option (Composer α) := es.foldlM step c

@[simp] theorem run_nil (c : Composer α) : c.run [] = some c := rfl

theorem run_cons (c : Composer α) (e : YamlEvent α) (es : List (YamlEvent α)) :
    c.run (e :: es) = (c.step e).bind fun c' => c'.run es := by
  rw [run, List.foldlM_cons]
  rfl

theorem run_append (c : Composer α) (es fs : List (YamlEvent α)) :
    c.run (es ++ fs) = (c.run es).bind fun c' => c'.run fs := by
  rw [run, List.foldlM_append]
  rfl

/-- The events that have been read. -/
def read : Composer α → List (YamlEvent α)
  | .start => []
  | .stream docs => .streamStart :: docs.flatMap YamlDocument.events
  | .document docs version fs =>
      .streamStart :: (docs.flatMap YamlDocument.events ++
        .documentStart version :: fs.reverse.flatMap YamlFrame.events)
  | .content docs version root =>
      .streamStart :: (docs.flatMap YamlDocument.events ++ .documentStart version :: root.events)
  | .finished docs => streamEvents docs

theorem read_node (docs : List (YamlDocument α)) (version : Option (ℤ × ℤ)) (y : Yaml α)
    (fs : List (YamlFrame α)) :
    (node docs version y fs).read = (document docs version fs).read ++ y.events := by
  cases fs with
  | nil => simp [node, read]
  | cons f fs => simp [node, read, YamlFrame.events_add]

/-- **An event is read.** -/
theorem read_of_step {c c' : Composer α} {e : YamlEvent α} (h : c.step e = some c') :
    c'.read = c.read ++ [e] := by
  unfold step at h
  split at h <;> cases h
  · rfl
  · simp [read]
  · simp [read, streamEvents]
  · rw [read_node, Yaml.events]
  · rw [read_node, Yaml.events]
  · simp [read, YamlFrame.events, itemEvents]
  · simp [read, YamlFrame.events, entryEvents]
  · rw [read_node]
    simp [read, Yaml.events, YamlFrame.events]
  · rw [read_node]
    simp [read, Yaml.events, YamlFrame.events]
  · simp [read, YamlDocument.events]

/-- **The composer has read the events it has read.** -/
theorem read_of_run {c c' : Composer α} {es : List (YamlEvent α)} (h : c.run es = some c') :
    c'.read = c.read ++ es := by
  induction es generalizing c with
  | nil =>
    cases h
    rw [List.append_nil]
  | cons e es ih =>
    rw [run_cons] at h
    obtain ⟨d, hd, h⟩ := Option.bind_eq_some_iff.mp h
    rw [ih h, read_of_step hd, List.append_assoc, List.singleton_append]

mutual

/-- The events of a node are accepted where a node is awaited. -/
theorem run_events (docs : List (YamlDocument α)) (version : Option (ℤ × ℤ))
    (fs : List (YamlFrame α)) : (y : Yaml α) →
    (document docs version fs).run y.events = some (node docs version y fs)
  | .scalar value => rfl
  | .alias => rfl
  | .sequence items => by
      rw [Yaml.events, run_cons, step, Option.bind_some, run_append,
        run_itemEvents docs version fs [] items, Option.bind_some, List.nil_append, run_cons]
      rfl
  | .mapping entries => by
      rw [Yaml.events, run_cons, step, Option.bind_some, run_append,
        run_entryEvents docs version fs [] entries, Option.bind_some, List.nil_append, run_cons]
      rfl

theorem run_itemEvents (docs : List (YamlDocument α)) (version : Option (ℤ × ℤ))
    (fs : List (YamlFrame α)) (done : List (Yaml α)) : (ys : List (Yaml α)) →
    (document docs version (.sequence done :: fs)).run (itemEvents ys) =
      some (.document docs version (.sequence (done ++ ys) :: fs))
  | [] => by rw [itemEvents, run_nil, List.append_nil]
  | y :: ys => by
      rw [itemEvents, run_append, run_events docs version _ y, Option.bind_some, node,
        YamlFrame.add, run_itemEvents docs version fs _ ys, List.append_assoc,
        List.singleton_append]

theorem run_entryEvents (docs : List (YamlDocument α)) (version : Option (ℤ × ℤ))
    (fs : List (YamlFrame α)) (done : List (Yaml α × Yaml α)) : (es : List (Yaml α × Yaml α)) →
    (document docs version (.mapping done :: fs)).run (entryEvents es) =
      some (.document docs version (.mapping (done ++ es) :: fs))
  | [] => by rw [entryEvents, run_nil, List.append_nil]
  | (k, v) :: es => by
      rw [entryEvents, run_append, run_append, run_events docs version _ k, Option.bind_some, node,
        YamlFrame.add, run_events docs version _ v, Option.bind_some, node, YamlFrame.add,
        run_entryEvents docs version fs _ es, List.append_assoc, List.singleton_append]

end

theorem run_documentEvents (done docs : List (YamlDocument α)) :
    (stream done).run (docs.flatMap YamlDocument.events) = some (.stream (done ++ docs)) := by
  induction docs generalizing done with
  | nil => rw [List.flatMap_nil, run_nil, List.append_nil]
  | cons d docs ih =>
    rw [List.flatMap_cons, run_append, YamlDocument.events, run_cons, step, Option.bind_some,
      run_append, run_events, Option.bind_some, node, run_cons, step, Option.bind_some, run_nil,
      Option.bind_some, ih, List.append_assoc, List.singleton_append]

/-- **The events of a stream are accepted.** -/
theorem run_streamEvents (docs : List (YamlDocument α)) :
    start.run (streamEvents docs) = some (.finished docs) := by
  rw [streamEvents, run_cons, step, Option.bind_some, run_append, run_documentEvents,
    Option.bind_some, List.nil_append, run_cons, step, Option.bind_some, run_nil]

/-- **An accepted sequence that ends the stream** is the one of the documents. -/
theorem run_eq_finished_iff {es : List (YamlEvent α)} {docs : List (YamlDocument α)} :
    start.run es = some (.finished docs) ↔ es = streamEvents docs := by
  refine ⟨fun h => ?_, fun h => h ▸ run_streamEvents docs⟩
  have hread := read_of_run h
  rw [read, read, List.nil_append] at hread
  exact hread.symm

end Composer
end Composer

end Newiup
