import Newiup.Ensures
import Newiup.Yaml.Parser

/-!
# The grammar of the tokens

The parser reads what its grammar derives, as what it stands for.  The grammar is the one in
the head of `parser.c`, with these restrictions: properties are followed by some content, a
value in a block mapping has its key before it, and a pair in a flow sequence has a key.  Of
the directives and tags it demands what the parser checks: every handle of a tag is known,
and a document has one version at most, which is 1.1, and no handle twice.

## Main definitions

* `Phrase`, `Writes` — the phrases with what they stand for, and the tokens that write them.
* `WritesDocuments`, `WritesStream` — documents and streams.
* `Yaml.tokens` — the tokens of a node in blocks.

## Main results

* `parsed_of_writes` — **a phrase is read as what it stands for.**
* `yields_of_writesStream` — **so is a stream.**
* `writes_tokens` — every node can be written.
-/

namespace Newiup

open Start

/-! ### Phrases -/

/-- What follows the properties of a node. -/
def YamlTokenData.startsContent (block indentless : Bool) : YamlTokenData → Bool
  | .scalar _ => true
  | .flowSequenceStart => true
  | .flowMappingStart => true
  | .blockSequenceStart => block
  | .blockMappingStart => block
  | .blockEntry => indentless
  | _ => false

/-- The tokens at the front of a node. -/
def YamlTokenData.startsNode (block indentless : Bool) (d : YamlTokenData) : Bool :=
  match d with
  | .alias => true
  | .anchor => true
  | .tag _ _ => true
  | d => d.startsContent block indentless

/-- The tokens behind a node of a block mapping. -/
def YamlTokenData.closes : YamlTokenData → Bool
  | .key => true
  | .value => true
  | .blockEnd => true
  | _ => false

/-- The first token satisfies `f`. -/
def Front (f : YamlTokenData → Bool) (ts : List YamlToken) : Prop :=
  ∃ t us, ts = t :: us ∧ f t.data = true

/-- `properties?`, with tags of known handles. -/
inductive Properties (handles : List CString) : List YamlToken → Prop
  | none : Properties handles []
  | anchor {m} : Properties handles [⟨.anchor, m⟩]
  | tag {m handle suffix} (h : handle = [] ∨ handle ∈ handles) :
      Properties handles [⟨.tag handle suffix, m⟩]
  | anchorTag {m n handle suffix} (h : handle = [] ∨ handle ∈ handles) :
      Properties handles [⟨.anchor, m⟩, ⟨.tag handle suffix, n⟩]
  | tagAnchor {m n handle suffix} (h : handle = [] ∨ handle ∈ handles) :
      Properties handles [⟨.tag handle suffix, m⟩, ⟨.anchor, n⟩]

/-- **The phrases of the grammar**, with what they stand for.  They are the nonterminals of the
grammar with the node, the items or the entries they are read as, so that the derivation of a
text is at the same time what it means. -/
inductive Phrase
  /-- a node: in blocks or not, and where a sequence may do without its own tokens or not -/
  | node (block indentless : Bool) (y : Yaml CString)
  /-- a node that may be left out -/
  | optional (block indentless : Bool) (y : Yaml CString)
  /-- a node behind its properties -/
  | content (block indentless : Bool) (y : Yaml CString)
  /-- the items of a sequence in blocks -/
  | items (ys : List (Yaml CString))
  /-- the value behind a key in blocks -/
  | value (y : Yaml CString)
  /-- the entries of a mapping in blocks -/
  | entries (es : List (Yaml CString × Yaml CString))
  /-- an item of a sequence in brackets -/
  | flowItem (y : Yaml CString)
  /-- the items of a sequence in brackets, from the first one on or behind one -/
  | flowItems (first : Bool) (ys : List (Yaml CString))
  /-- the value behind a key in braces or brackets -/
  | flowValue (y : Yaml CString)
  /-- an entry of a mapping in braces -/
  | flowEntry (k v : Yaml CString)
  /-- the entries of a mapping in braces -/
  | flowEntries (first : Bool) (es : List (Yaml CString × Yaml CString))

/-- **The tokens write the phrase.** -/
inductive Writes (handles : List CString) : Phrase → List YamlToken → Prop
  | aliased {block indentless n} : Writes handles (.node block indentless .alias) [⟨.alias, n⟩]
  | node {block indentless y ps ts} (hp : Properties handles ps)
      (h : Writes handles (.content block indentless y) ts) :
      Writes handles (.node block indentless y) (ps ++ ts)
  | there {block indentless y ts} (h : Writes handles (.node block indentless y) ts) :
      Writes handles (.optional block indentless y) ts
  | missing {block indentless} : Writes handles (.optional block indentless (.scalar [])) []
  | scalar {block indentless value n} :
      Writes handles (.content block indentless (.scalar value)) [⟨.scalar value, n⟩]
  | blockSequence {indentless ys ts m n} (h : Writes handles (.items ys) ts) :
      Writes handles (.content true indentless (.sequence ys))
        (⟨.blockSequenceStart, m⟩ :: (ts ++ [⟨.blockEnd, n⟩]))
  | indentlessSequence {y ys ts} (h : Writes handles (.items (y :: ys)) ts) :
      Writes handles (.content true true (.sequence (y :: ys))) ts
  | blockMapping {indentless es ts m n} (h : Writes handles (.entries es) ts) :
      Writes handles (.content true indentless (.mapping es))
        (⟨.blockMappingStart, m⟩ :: (ts ++ [⟨.blockEnd, n⟩]))
  | flowSequence {block indentless ys ts n} (h : Writes handles (.flowItems true ys) ts) :
      Writes handles (.content block indentless (.sequence ys)) (⟨.flowSequenceStart, n⟩ :: ts)
  | flowMapping {block indentless es ts n} (h : Writes handles (.flowEntries true es) ts) :
      Writes handles (.content block indentless (.mapping es)) (⟨.flowMappingStart, n⟩ :: ts)
  | noItems : Writes handles (.items []) []
  | item {y ys ts us n} (h : Writes handles (.optional true false y) ts)
      (hs : Writes handles (.items ys) us) :
      Writes handles (.items (y :: ys)) (⟨.blockEntry, n⟩ :: (ts ++ us))
  | noValue : Writes handles (.value (.scalar [])) []
  | value {y ts n} (h : Writes handles (.optional true true y) ts) :
      Writes handles (.value y) (⟨.value, n⟩ :: ts)
  | noEntries : Writes handles (.entries []) []
  | entry {k v es ks vs us n} (hk : Writes handles (.optional true true k) ks)
      (hv : Writes handles (.value v) vs) (hs : Writes handles (.entries es) us) :
      Writes handles (.entries ((k, v) :: es)) (⟨.key, n⟩ :: (ks ++ (vs ++ us)))
  | flowItem {y ts} (h : Writes handles (.node false false y) ts) :
      Writes handles (.flowItem y) ts
  | flowPair {k v ks vs n} (hk : Writes handles (.node false false k) ks)
      (hv : Writes handles (.flowValue v) vs) :
      Writes handles (.flowItem (.mapping [(k, v)])) (⟨.key, n⟩ :: (ks ++ vs))
  | flowItemsEnd {first n} : Writes handles (.flowItems first []) [⟨.flowSequenceEnd, n⟩]
  | flowItemsComma {m n} :
      Writes handles (.flowItems false []) [⟨.flowEntry, m⟩, ⟨.flowSequenceEnd, n⟩]
  | flowItemsFirst {y ys ts us} (h : Writes handles (.flowItem y) ts)
      (hs : Writes handles (.flowItems false ys) us) :
      Writes handles (.flowItems true (y :: ys)) (ts ++ us)
  | flowItemsNext {y ys ts us n} (h : Writes handles (.flowItem y) ts)
      (hs : Writes handles (.flowItems false ys) us) :
      Writes handles (.flowItems false (y :: ys)) (⟨.flowEntry, n⟩ :: (ts ++ us))
  | noFlowValue : Writes handles (.flowValue (.scalar [])) []
  | flowValue {y ts n} (h : Writes handles (.optional false false y) ts) :
      Writes handles (.flowValue y) (⟨.value, n⟩ :: ts)
  | flowKey {k ts} (h : Writes handles (.node false false k) ts) :
      Writes handles (.flowEntry k (.scalar [])) ts
  | flowEntry {k v ks vs n} (hk : Writes handles (.optional false false k) ks)
      (hv : Writes handles (.flowValue v) vs) :
      Writes handles (.flowEntry k v) (⟨.key, n⟩ :: (ks ++ vs))
  | flowEntriesEnd {first n} : Writes handles (.flowEntries first []) [⟨.flowMappingEnd, n⟩]
  | flowEntriesComma {m n} :
      Writes handles (.flowEntries false []) [⟨.flowEntry, m⟩, ⟨.flowMappingEnd, n⟩]
  | flowEntriesFirst {k v es ts us} (h : Writes handles (.flowEntry k v) ts)
      (hs : Writes handles (.flowEntries false es) us) :
      Writes handles (.flowEntries true ((k, v) :: es)) (ts ++ us)
  | flowEntriesNext {k v es ts us n} (h : Writes handles (.flowEntry k v) ts)
      (hs : Writes handles (.flowEntries false es) us) :
      Writes handles (.flowEntries false ((k, v) :: es)) (⟨.flowEntry, n⟩ :: (ts ++ us))

/-! ### Reading -/

/-- A computation hands out the first of some events, and the parser the others. -/
def Reads (x : ParserM CEvent) (p : YamlParser) (es : List CEvent) (q : YamlParser) : Prop :=
  ∃ e es' r, es = e :: es' ∧ x p = (.done e, r) ∧ Yields yamlParserParse r es' q

section Reading

variable {x : ParserM CEvent} {p q r : YamlParser} {es fs : List CEvent}

theorem Reads.append (h : Reads x p es r) (h' : Yields yamlParserParse r fs q) :
    Reads x p (es ++ fs) q := by
  obtain ⟨e, es', t, rfl, hx, hes⟩ := h
  exact ⟨e, es' ++ fs, t, rfl, hx, hes.append h'⟩

theorem Reads.one {e : CEvent} (h : x p = (.done e, q)) : Reads x p [e] q :=
  ⟨e, [], q, rfl, h, rfl⟩

theorem Reads.cons {e : CEvent} (h : x p = (.done e, r)) (h' : Yields yamlParserParse r es q) :
    Reads x p (e :: es) q :=
  ⟨e, es, r, rfl, h, h'⟩

theorem Reads.of_eq {y : ParserM CEvent} {p' : YamlParser} (h : x p = y p')
    (h' : Reads y p' es q) : Reads x p es q := by
  obtain ⟨e, es', t, rfl, hy, hes⟩ := h'
  exact ⟨e, es', t, rfl, h.trans hy, hes⟩

/-- The parser does what the function of its state does. -/
theorem Reads.yields {p' : YamlParser} (h : Reads x p' es q) (heq : yamlParserParse p = x p') :
    Yields yamlParserParse p es q := by
  obtain ⟨e, es', t, rfl, hx, hes⟩ := h
  exact ⟨t, heq.trans hx, hes⟩

end Reading

/-! ### The machine on what is written -/

/-- What stays the same inside of a document. -/
structure ParserFrame where
  /-- `failure`. -/
  failure : YamlProblem
  /-- `tagDirectives`. -/
  tags : List (CString × CString)

namespace ParserFrame

open YamlParser

/-- The parser in front of some tokens. -/
def pos (c : ParserFrame) (s : YamlParserState) (states : List YamlParserState)
    (ts : List YamlToken) : YamlParser :=
  ⟨ts, c.failure, states, s, c.tags, false, none⟩

/-- The handles that are known. -/
def handles (c : ParserFrame) : List CString := c.tags.map Prod.fst

variable {c : ParserFrame} {s s' next : YamlParserState} {states : List YamlParserState}
  {t : YamlToken} {ts us rest : List YamlToken} {block indentless : Bool}

theorem checkTag_known {handle : CString} (h : handle = [] ∨ handle ∈ c.handles)
    (suffix : CString) (n : ℕ) :
    checkTag (some (handle, suffix, n)) (c.pos s states ts) = (.done (), c.pos s states ts) := by
  have hany : handle = [] ∨ (c.tags.any fun d => d.1 = handle) = true := by
    refine h.imp_right fun h => ?_
    obtain ⟨d, hd, hhandle⟩ := List.mem_map.mp h
    exact List.any_eq_true.mpr ⟨d, hd, decide_eq_true hhandle⟩
  show (if handle = [] then pure () else if c.tags.any fun d => d.1 = handle then pure ()
    else setParserError "found undefined tag handle" n : ParserM Unit) (c.pos s states ts) = _
  rcases hany with hany | hany
  · rw [if_pos hany]
    rfl
  · rw [if_pos hany, ite_self]
    rfl

theorem parseNode_eq {t' : YamlToken} {anchor : Bool} {tag : Option (CString × CString × ℕ)}
    (h : t'.data ≠ .alias)
    (hp : parseProperties t' (c.pos s states (t' :: us)) =
      (.done (anchor, tag, t), c.pos s states ts))
    (ht : checkTag tag (c.pos s states ts) = (.done (), c.pos s states ts)) :
    parseNode block indentless (c.pos s states (t' :: us)) =
      nodeContent block indentless anchor tag t (c.pos s states ts) := by
  unfold parseNode
  rw [bind_of_done (show peekToken (c.pos s states (t' :: us)) = (.done t', _) from rfl),
    if_neg h, bind_of_done hp]
  exact bind_of_done ht

/-- **The properties are passed over.** -/
theorem parseNode_properties {ps : List YamlToken} (hp : Properties c.handles ps)
    (ht : t.data.startsContent block indentless = true) :
    ∃ anchor tag, parseNode block indentless (c.pos s states (ps ++ t :: ts)) =
      nodeContent block indentless anchor tag t (c.pos s states (t :: ts)) := by
  obtain ⟨d, n⟩ := t
  have hne : d ≠ .alias := by
    rintro rfl
    cases ht
  cases hp with
  | none => exact ⟨_, _, parseNode_eq hne (by cases d <;> first | rfl | cases ht) rfl⟩
  | anchor =>
    exact ⟨_, _, parseNode_eq (by simp) (by cases d <;> first | rfl | cases ht) rfl⟩
  | tag h =>
    exact ⟨_, _, parseNode_eq (by simp) (by cases d <;> first | rfl | cases ht)
      (checkTag_known h _ _)⟩
  | anchorTag h => exact ⟨_, _, parseNode_eq (by simp) rfl (checkTag_known h _ _)⟩
  | tagAnchor h => exact ⟨_, _, parseNode_eq (by simp) rfl (checkTag_known h _ _)⟩

/-- A node that may be left out in front of the tokens that are not in `stay`. -/
def optionalNode (stay : YamlTokenData → Prop) [DecidablePred stay] (next : YamlParserState)
    (block indentless : Bool) : ParserM CEvent := do
  let token ← peekToken
  if stay token.data then do
    pushState next
    parseNode block indentless
  else do
    setState next
    processEmptyScalar

/-- The start token in front of the first item. -/
def opening (d : YamlTokenData) (first : Bool) (n : ℕ) : List YamlToken :=
  if first then [⟨d, n⟩] else []

/-- What is in front of an item: the start token, or a comma. -/
def leading (d : YamlTokenData) (first : Bool) (n : ℕ) : List YamlToken :=
  if first then [⟨d, n⟩] else [⟨.flowEntry, n⟩]

/-- **A phrase is read as what it stands for.** -/
def Parsed (c : ParserFrame) : Phrase → List YamlToken → Prop
  | .node block indentless y, ts =>
      Front (YamlTokenData.startsNode block indentless) ts ∧
      ∀ s next states rest, (indentless = true → Front YamlTokenData.closes rest) →
        Reads (parseNode block indentless) (c.pos s (next :: states) (ts ++ rest)) y.events
          (c.pos next states rest)
  | .optional block indentless y, ts =>
      ∀ (stay : YamlTokenData → Prop) [DecidablePred stay] s next states rest,
        (∀ d : YamlTokenData, d.startsNode block indentless = true → stay d) →
        Front (fun d => !decide (stay d)) rest →
        (indentless = true → Front YamlTokenData.closes rest) →
        Reads (optionalNode stay next block indentless) (c.pos s states (ts ++ rest)) y.events
          (c.pos next states rest)
  | .content block indentless y, ts =>
      Front (YamlTokenData.startsContent block indentless) ts ∧
      ∀ ps s next states rest, Properties c.handles ps →
        (indentless = true → Front YamlTokenData.closes rest) →
        Reads (parseNode block indentless) (c.pos s (next :: states) (ps ++ (ts ++ rest)))
          y.events (c.pos next states rest)
  | .items ys, ts =>
      (∀ n s next states rest,
        Reads (parseBlockSequenceEntry false)
          (c.pos s (next :: states) (ts ++ ⟨.blockEnd, n⟩ :: rest))
          (itemEvents ys ++ [.sequenceEnd]) (c.pos next states rest)) ∧
      ∀ s next states rest, Front YamlTokenData.closes rest →
        Reads parseIndentlessSequenceEntry (c.pos s (next :: states) (ts ++ rest))
          (itemEvents ys ++ [.sequenceEnd]) (c.pos next states rest)
  | .value y, ts =>
      ∀ s states rest, Front (fun d => d = .key ∨ d = .blockEnd) rest →
        Reads parseBlockMappingValue (c.pos s states (ts ++ rest)) y.events
          (c.pos .blockMappingKey states rest)
  | .entries es, ts =>
      ∀ n s next states rest,
        Reads (parseBlockMappingKey false)
          (c.pos s (next :: states) (ts ++ ⟨.blockEnd, n⟩ :: rest))
          (entryEvents es ++ [.mappingEnd]) (c.pos next states rest)
  | .flowItem y, ts =>
      ∀ first n s states rest, Front (fun d => d = .flowEntry ∨ d = .flowSequenceEnd) rest →
        Reads (parseFlowSequenceEntry first)
          (c.pos s states (leading .flowSequenceStart first n ++ (ts ++ rest))) y.events
          (c.pos .flowSequenceEntry states rest)
  | .flowItems first ys, ts =>
      ∀ n s next states rest,
        Reads (parseFlowSequenceEntry first)
          (c.pos s (next :: states) (opening .flowSequenceStart first n ++ (ts ++ rest)))
          (itemEvents ys ++ [.sequenceEnd]) (c.pos next states rest)
  | .flowValue y, ts =>
      (∀ s states rest, Front (fun d => d = .flowEntry ∨ d = .flowSequenceEnd) rest →
        Reads parseFlowSequenceEntryMappingValue (c.pos s states (ts ++ rest)) y.events
          (c.pos .flowSequenceEntryMappingEnd states rest)) ∧
      ∀ s states rest, Front (fun d => d = .flowEntry ∨ d = .flowMappingEnd) rest →
        Reads (parseFlowMappingValue false) (c.pos s states (ts ++ rest)) y.events
          (c.pos .flowMappingKey states rest)
  | .flowEntry k v, ts =>
      ∀ first n s states rest, Front (fun d => d = .flowEntry ∨ d = .flowMappingEnd) rest →
        Reads (parseFlowMappingKey first)
          (c.pos s states (leading .flowMappingStart first n ++ (ts ++ rest)))
          (k.events ++ v.events) (c.pos .flowMappingKey states rest)
  | .flowEntries first es, ts =>
      ∀ n s next states rest,
        Reads (parseFlowMappingKey first)
          (c.pos s (next :: states) (opening .flowMappingStart first n ++ (ts ++ rest)))
          (entryEvents es ++ [.mappingEnd]) (c.pos next states rest)

/-! ### Nodes -/

section Phrases

variable {y k v : Yaml CString} {ys : List (Yaml CString)}
  {es : List (Yaml CString × Yaml CString)} {ks vs : List YamlToken} {first : Bool} {m n : ℕ}
  {f g : YamlTokenData → Bool}

theorem Front.append (h : Front f ts) (us : List YamlToken) : Front f (ts ++ us) := by
  obtain ⟨t, ts', rfl, ht⟩ := h
  exact ⟨t, ts' ++ us, rfl, ht⟩

theorem Front.mono (h : Front f ts) (hfg : ∀ d, f d = true → g d = true) : Front g ts := by
  obtain ⟨t, us, rfl, ht⟩ := h
  exact ⟨t, us, rfl, hfg _ ht⟩

theorem front_cons {d : YamlTokenData} (h : f d = true) : Front f (⟨d, n⟩ :: ts) :=
  ⟨_, _, rfl, h⟩

theorem parsed_alias : c.Parsed (.node block indentless .alias) [⟨.alias, n⟩] :=
  ⟨front_cons rfl, fun _ _ _ _ _ => Reads.one rfl⟩

theorem parsed_node {ps : List YamlToken} (hp : Properties c.handles ps)
    (h : c.Parsed (.content block indentless y) ts) :
    c.Parsed (.node block indentless y) (ps ++ ts) := by
  obtain ⟨hfront, hreads⟩ := h
  refine ⟨?_, fun s next states rest hrest => ?_⟩
  · cases hp with
    | none =>
      refine Front.mono hfront fun d hd => ?_
      cases d <;> first | exact hd | rfl
    | _ => exact front_cons rfl
  · rw [List.append_assoc]
    exact hreads ps s next states rest hp hrest

theorem parsed_there (h : c.Parsed (.node block indentless y) ts) :
    c.Parsed (.optional block indentless y) ts := by
  intro stay _ s next states rest hstay hrest hclose
  obtain ⟨⟨t, us, rfl, ht⟩, hreads⟩ := h
  refine Reads.of_eq ?_ (hreads s next states rest hclose)
  show (if stay t.data then _ else _ : ParserM CEvent) _ = _
  rw [if_pos (hstay _ ht)]
  rfl

theorem parsed_missing : c.Parsed (.optional block indentless (.scalar [])) [] := by
  intro stay _ s next states rest hstay hrest hclose
  obtain ⟨t, us, rfl, ht⟩ := hrest
  refine Reads.one ?_
  show (if stay t.data then _ else _ : ParserM CEvent) _ = _
  rw [if_neg (by simpa using ht)]
  rfl

/-- The content of a node is read behind its properties. -/
theorem parsed_content {q : YamlParser} {es : List CEvent} {ps : List YamlToken}
    (hp : Properties c.handles ps) (ht : t.data.startsContent block indentless = true)
    (h : ∀ anchor tag, Reads (nodeContent block indentless anchor tag t)
      (c.pos s states (t :: ts)) es q) :
    Reads (parseNode block indentless) (c.pos s states (ps ++ t :: ts)) es q := by
  obtain ⟨anchor, tag, heq⟩ := parseNode_properties hp ht
  exact Reads.of_eq heq (h anchor tag)

theorem parsed_scalar {value : CString} :
    c.Parsed (.content block indentless (.scalar value)) [⟨.scalar value, n⟩] := by
  refine ⟨front_cons rfl, fun ps s next states rest hp _ => ?_⟩
  refine parsed_content hp rfl fun anchor tag => Reads.one ?_
  cases indentless <;> rfl

theorem nodeContent_blockSequence {anchor : Bool} {tag : Option (CString × CString × ℕ)} :
    nodeContent true indentless anchor tag ⟨.blockSequenceStart, n⟩ (c.pos s states ts) =
      (.done .sequenceStart, c.pos .blockSequenceFirstEntry states ts) := by
  cases indentless <;> rfl

theorem nodeContent_blockMapping {anchor : Bool} {tag : Option (CString × CString × ℕ)} :
    nodeContent true indentless anchor tag ⟨.blockMappingStart, n⟩ (c.pos s states ts) =
      (.done .mappingStart, c.pos .blockMappingFirstKey states ts) := by
  cases indentless <;> rfl

theorem nodeContent_flowSequence {anchor : Bool} {tag : Option (CString × CString × ℕ)} :
    nodeContent block indentless anchor tag ⟨.flowSequenceStart, n⟩ (c.pos s states ts) =
      (.done .sequenceStart, c.pos .flowSequenceFirstEntry states ts) := by
  cases indentless <;> rfl

theorem nodeContent_flowMapping {anchor : Bool} {tag : Option (CString × CString × ℕ)} :
    nodeContent block indentless anchor tag ⟨.flowMappingStart, n⟩ (c.pos s states ts) =
      (.done .mappingStart, c.pos .flowMappingFirstKey states ts) := by
  cases indentless <;> rfl

theorem parsed_blockSequence (h : c.Parsed (.items ys) ts) :
    c.Parsed (.content true indentless (.sequence ys))
      (⟨.blockSequenceStart, m⟩ :: (ts ++ [⟨.blockEnd, n⟩])) := by
  refine ⟨front_cons rfl, fun ps s next states rest hp _ => ?_⟩
  rw [List.cons_append, List.append_assoc]
  refine parsed_content hp rfl fun anchor tag => ?_
  exact Reads.cons nodeContent_blockSequence
    (Reads.yields (h.1 n .blockSequenceFirstEntry _ _ _) rfl)

theorem parsed_indentlessSequence (h : c.Parsed (.items ys) ts)
    (hfront : Front (fun d => d = .blockEntry) ts) :
    c.Parsed (.content true true (.sequence ys)) ts := by
  obtain ⟨⟨d, m⟩, us, rfl, ht⟩ := hfront
  obtain rfl : d = .blockEntry := by simpa using ht
  refine ⟨front_cons rfl, fun ps s next states rest hp hrest => ?_⟩
  refine parsed_content hp rfl fun anchor tag => ?_
  exact Reads.cons rfl (Reads.yields (h.2 _ _ _ _ (hrest rfl)) rfl)

theorem parsed_blockMapping (h : c.Parsed (.entries es) ts) :
    c.Parsed (.content true indentless (.mapping es))
      (⟨.blockMappingStart, m⟩ :: (ts ++ [⟨.blockEnd, n⟩])) := by
  refine ⟨front_cons rfl, fun ps s next states rest hp _ => ?_⟩
  rw [List.cons_append, List.append_assoc]
  refine parsed_content hp rfl fun anchor tag => ?_
  exact Reads.cons nodeContent_blockMapping
    (Reads.yields (h n .blockMappingFirstKey _ _ _) rfl)

theorem parsed_flowSequence (h : c.Parsed (.flowItems true ys) ts) :
    c.Parsed (.content block indentless (.sequence ys)) (⟨.flowSequenceStart, n⟩ :: ts) := by
  refine ⟨front_cons rfl, fun ps s next states rest hp _ => ?_⟩
  refine parsed_content hp rfl fun anchor tag => ?_
  exact Reads.cons nodeContent_flowSequence
    (Reads.yields (h n .flowSequenceFirstEntry _ _ _) rfl)

theorem parsed_flowMapping (h : c.Parsed (.flowEntries true es) ts) :
    c.Parsed (.content block indentless (.mapping es)) (⟨.flowMappingStart, n⟩ :: ts) := by
  refine ⟨front_cons rfl, fun ps s next states rest hp _ => ?_⟩
  refine parsed_content hp rfl fun anchor tag => ?_
  exact Reads.cons nodeContent_flowMapping
    (Reads.yields (h n .flowMappingFirstKey _ _ _) rfl)

/-! ### Collections in blocks -/

theorem front_items (h : Writes c.handles (.items ys) ts) (n : ℕ) (rest : List YamlToken) :
    Front (fun d => d = .blockEntry ∨ d = .blockEnd) (ts ++ ⟨.blockEnd, n⟩ :: rest) := by
  cases h with
  | noItems => exact front_cons rfl
  | item _ _ => exact front_cons rfl

theorem front_items_of_closes (h : Writes c.handles (.items ys) ts)
    (hrest : Front YamlTokenData.closes rest) :
    Front (fun d => d = .blockEntry ∨ d.closes = true) (ts ++ rest) := by
  cases h with
  | noItems => exact Front.mono hrest fun d hd => by simp [hd]
  | item _ _ => exact front_cons rfl

theorem parsed_noItems : c.Parsed (.items []) [] := by
  refine ⟨fun n s next states rest => Reads.one rfl, fun s next states rest hrest => ?_⟩
  obtain ⟨⟨d, m⟩, us, rfl, ht⟩ := hrest
  refine Reads.one ?_
  cases d <;> first | rfl | cases ht

theorem closes_iff {d : YamlTokenData} :
    (!decide (d ≠ .key ∧ d ≠ .value ∧ d ≠ .blockEnd)) = d.closes := by
  cases d <;> rfl

theorem closes_or_iff {d : YamlTokenData} :
    (!decide (d ≠ .blockEntry ∧ d ≠ .key ∧ d ≠ .value ∧ d ≠ .blockEnd)) =
      decide (d = .blockEntry ∨ d.closes = true) := by
  cases d <;> rfl

theorem parsed_item (h : c.Parsed (.optional true false y) ts) (hs : c.Parsed (.items ys) us)
    (hw : Writes c.handles (.items ys) us) :
    c.Parsed (.items (y :: ys)) (⟨.blockEntry, n⟩ :: (ts ++ us)) := by
  refine ⟨fun m s next states rest => ?_, fun s next states rest hrest => ?_⟩
  · rw [itemEvents, List.append_assoc, List.cons_append, List.append_assoc]
    have hitem := h (fun d => d ≠ .blockEntry ∧ d ≠ .blockEnd) s .blockSequenceEntry
      (next :: states) (us ++ ⟨.blockEnd, m⟩ :: rest)
      (fun d hd => by cases d <;> first | exact absurd hd (by decide) | simp)
      (Front.mono (front_items hw m rest) fun d hd => by simpa [or_iff_not_imp_left] using hd)
      (fun h => by cases h)
    exact Reads.append (Reads.of_eq rfl hitem)
      (Reads.yields (hs.1 m .blockSequenceEntry _ _ _) rfl)
  · rw [itemEvents, List.append_assoc, List.cons_append, List.append_assoc]
    have hitem := h (fun d => d ≠ .blockEntry ∧ d ≠ .key ∧ d ≠ .value ∧ d ≠ .blockEnd) s
      .indentlessSequenceEntry (next :: states) (us ++ rest)
      (fun d hd => by cases d <;> first | exact absurd hd (by decide) | simp)
      (Front.mono (front_items_of_closes hw hrest) fun d hd => closes_or_iff.trans hd)
      (fun h => by cases h)
    exact Reads.append (Reads.of_eq rfl hitem)
      (Reads.yields (hs.2 .indentlessSequenceEntry _ _ _ hrest) rfl)

theorem front_entries (h : Writes c.handles (.entries es) ts) (n : ℕ) (rest : List YamlToken) :
    Front (fun d => d = .key ∨ d = .blockEnd) (ts ++ ⟨.blockEnd, n⟩ :: rest) := by
  cases h with
  | noEntries => exact front_cons rfl
  | entry _ _ _ => exact front_cons rfl

theorem front_value (h : Writes c.handles (.value v) vs)
    (hrest : Front (fun d => d = .key ∨ d = .blockEnd) rest) :
    Front YamlTokenData.closes (vs ++ rest) := by
  cases h with
  | noValue => exact Front.mono hrest fun d hd => by cases d <;> first | rfl | simp at hd
  | value _ => exact front_cons rfl

theorem parsed_noValue : c.Parsed (.value (.scalar [])) [] := by
  intro s states rest hrest
  obtain ⟨⟨d, m⟩, us, rfl, ht⟩ := hrest
  refine Reads.one ?_
  cases d <;> first | rfl | simp at ht

/-- The front of a node in a block mapping. -/
theorem stay_block {d : YamlTokenData} (hd : d.startsNode true true = true) :
    d ≠ .key ∧ d ≠ .value ∧ d ≠ .blockEnd := by
  cases d <;> first | exact absurd hd (by decide) | simp

theorem parsed_value (h : c.Parsed (.optional true true y) ts) :
    c.Parsed (.value y) (⟨.value, n⟩ :: ts) := by
  intro s states rest hrest
  have hclose : Front YamlTokenData.closes rest :=
    Front.mono hrest fun d hd => by cases d <;> first | rfl | simp at hd
  have hvalue := h (fun d => d ≠ .key ∧ d ≠ .value ∧ d ≠ .blockEnd) s .blockMappingKey states rest
    (fun _ => stay_block) (Front.mono hclose fun d hd => closes_iff.trans hd) fun _ => hclose
  exact Reads.of_eq rfl hvalue

theorem parsed_noEntries : c.Parsed (.entries []) [] :=
  fun _ _ _ _ _ => Reads.one rfl

theorem parsed_entry (hk : c.Parsed (.optional true true k) ks) (hv : c.Parsed (.value v) vs)
    (hs : c.Parsed (.entries es) us) (hwv : Writes c.handles (.value v) vs)
    (hws : Writes c.handles (.entries es) us) :
    c.Parsed (.entries ((k, v) :: es)) (⟨.key, n⟩ :: (ks ++ (vs ++ us))) := by
  intro m s next states rest
  have hfront := front_entries hws m rest
  have hclose := front_value hwv hfront
  have hkey := hk (fun d => d ≠ .key ∧ d ≠ .value ∧ d ≠ .blockEnd) s .blockMappingValue
    (next :: states) (vs ++ (us ++ ⟨.blockEnd, m⟩ :: rest)) (fun _ => stay_block)
    (Front.mono hclose fun d hd => closes_iff.trans hd) fun _ => hclose
  have hvalue := hv .blockMappingValue (next :: states) _ hfront
  rw [entryEvents, List.append_assoc, List.append_assoc, List.cons_append, List.append_assoc,
    List.append_assoc]
  refine Reads.append (Reads.of_eq rfl hkey) ?_
  exact Yields.append (hvalue.yields rfl)
    (Reads.yields (hs m .blockMappingKey _ _ _) rfl)

/-! ### Collections in braces and brackets -/

theorem front_flowItems (h : Writes c.handles (.flowItems false ys) ts) (rest : List YamlToken) :
    Front (fun d => d = .flowEntry ∨ d = .flowSequenceEnd) (ts ++ rest) := by
  cases h <;> exact front_cons rfl

theorem front_flowEntries (h : Writes c.handles (.flowEntries false es) ts)
    (rest : List YamlToken) :
    Front (fun d => d = .flowEntry ∨ d = .flowMappingEnd) (ts ++ rest) := by
  cases h <;> exact front_cons rfl

theorem parsed_noFlowValue : c.Parsed (.flowValue (.scalar [])) [] := by
  refine ⟨fun s states rest hrest => ?_, fun s states rest hrest => ?_⟩
  all_goals
    obtain ⟨⟨d, m⟩, us, rfl, ht⟩ := hrest
    refine Reads.one ?_
    cases d <;> first | rfl | simp at ht

theorem parsed_flowValue (h : c.Parsed (.optional false false y) ts) :
    c.Parsed (.flowValue y) (⟨.value, n⟩ :: ts) := by
  refine ⟨fun s states rest hrest => ?_, fun s states rest hrest => ?_⟩
  · refine Reads.of_eq rfl (h (fun d => d ≠ .flowEntry ∧ d ≠ .flowSequenceEnd) s
      .flowSequenceEntryMappingEnd states rest (fun d hd => ?_) (Front.mono hrest fun d hd => ?_)
      fun h => by cases h)
    · cases d <;> first | exact absurd hd (by decide) | simp
    · simpa [or_iff_not_imp_left] using hd
  · refine Reads.of_eq rfl (h (fun d => d ≠ .flowEntry ∧ d ≠ .flowMappingEnd) s
      .flowMappingKey states rest (fun d hd => ?_) (Front.mono hrest fun d hd => ?_)
      fun h => by cases h)
    · cases d <;> first | exact absurd hd (by decide) | simp
    · simpa [or_iff_not_imp_left] using hd

theorem parsed_flowItem (h : c.Parsed (.node false false y) ts) : c.Parsed (.flowItem y) ts := by
  intro first n s states rest hrest
  obtain ⟨⟨⟨d, m⟩, us, rfl, ht⟩, hreads⟩ := h
  refine Reads.of_eq ?_ (hreads s .flowSequenceEntry states rest fun h => by cases h)
  cases first <;> cases d <;> first | rfl | cases ht

theorem parsed_flowPair (hk : c.Parsed (.node false false k) ks)
    (hv : c.Parsed (.flowValue v) vs) :
    c.Parsed (.flowItem (.mapping [(k, v)])) (⟨.key, n⟩ :: (ks ++ vs)) := by
  intro first m s states rest hrest
  obtain ⟨⟨⟨d, l⟩, us, rfl, ht⟩, hreads⟩ := hk
  have hkey := hreads .flowSequenceEntryMappingKey .flowSequenceEntryMappingValue states
    (vs ++ rest) fun h => by cases h
  have hvalue := hv.1 .flowSequenceEntryMappingValue states rest hrest
  have hend : Yields yamlParserParse (c.pos .flowSequenceEntryMappingEnd states rest)
      [.mappingEnd] (c.pos .flowSequenceEntry states rest) := by
    obtain ⟨t, us, rfl, -⟩ := hrest
    exact ⟨_, rfl, rfl⟩
  rw [List.cons_append, List.append_assoc, Yaml.events, entryEvents, entryEvents,
    List.append_nil, List.append_assoc]
  refine Reads.cons (r := c.pos .flowSequenceEntryMappingKey states
    (⟨d, l⟩ :: us ++ (vs ++ rest))) (by cases first <;> rfl) ?_
  refine Yields.append (hkey.yields ?_) ?_
  · cases d <;> first | rfl | cases ht
  · exact Yields.append (hvalue.yields rfl) hend

theorem parsed_flowItemsEnd : c.Parsed (.flowItems first []) [⟨.flowSequenceEnd, n⟩] := by
  intro m s next states rest
  refine Reads.one ?_
  cases first <;> rfl

theorem parsed_flowItemsComma :
    c.Parsed (.flowItems false []) [⟨.flowEntry, m⟩, ⟨.flowSequenceEnd, n⟩] :=
  fun _ _ _ _ _ => Reads.one rfl

/-- An item and the others. -/
theorem parsed_flowItems (h : c.Parsed (.flowItem y) ts) (hs : c.Parsed (.flowItems false ys) us)
    (hws : Writes c.handles (.flowItems false ys) us) (l : ℕ) (rest : List YamlToken) :
    Reads (parseFlowSequenceEntry first)
      (c.pos s (next :: states) (leading .flowSequenceStart first l ++ (ts ++ (us ++ rest))))
      (itemEvents (y :: ys) ++ [.sequenceEnd]) (c.pos next states rest) := by
  rw [itemEvents, List.append_assoc]
  exact Reads.append (h first l _ _ _ (front_flowItems hws rest))
    (Reads.yields (hs 0 .flowSequenceEntry _ _ _) rfl)

theorem parsed_flowKey (h : c.Parsed (.node false false k) ts) :
    c.Parsed (.flowEntry k (.scalar [])) ts := by
  intro first n s states rest hrest
  obtain ⟨⟨⟨d, m⟩, us, rfl, ht⟩, hreads⟩ := h
  have hkey := hreads s .flowMappingEmptyValue states rest fun h => by cases h
  refine Reads.append (Reads.of_eq ?_ hkey) ?_
  · cases first <;> cases d <;> first | rfl | cases ht
  · obtain ⟨t, us, rfl, -⟩ := hrest
    exact ⟨_, rfl, rfl⟩

theorem parsed_flowEntry (hk : c.Parsed (.optional false false k) ks)
    (hv : c.Parsed (.flowValue v) vs) (hwv : Writes c.handles (.flowValue v) vs) :
    c.Parsed (.flowEntry k v) (⟨.key, n⟩ :: (ks ++ vs)) := by
  intro first m s states rest hrest
  have hfront : Front (fun d => d = .value ∨ d = .flowEntry ∨ d = .flowMappingEnd)
      (vs ++ rest) := by
    cases hwv with
    | noFlowValue => exact Front.mono hrest fun d hd => by simp_all
    | flowValue _ => exact front_cons rfl
  have hkey := hk (fun d => d ≠ .value ∧ d ≠ .flowEntry ∧ d ≠ .flowMappingEnd) s
    .flowMappingValue states (vs ++ rest)
    (fun d hd => by cases d <;> first | exact absurd hd (by decide) | simp)
    (Front.mono hfront fun d hd => by simpa [or_iff_not_imp_left] using hd) fun h => by cases h
  rw [List.cons_append, List.append_assoc]
  refine Reads.append (Reads.of_eq ?_ hkey)
    (Reads.yields (hv.2 .flowMappingValue _ _ hrest) rfl)
  cases first <;> rfl

theorem parsed_flowEntriesEnd : c.Parsed (.flowEntries first []) [⟨.flowMappingEnd, n⟩] := by
  intro m s next states rest
  refine Reads.one ?_
  cases first <;> rfl

theorem parsed_flowEntriesComma :
    c.Parsed (.flowEntries false []) [⟨.flowEntry, m⟩, ⟨.flowMappingEnd, n⟩] :=
  fun _ _ _ _ _ => Reads.one rfl

/-- An entry and the others. -/
theorem parsed_flowEntries (h : c.Parsed (.flowEntry k v) ts)
    (hs : c.Parsed (.flowEntries false es) us) (hws : Writes c.handles (.flowEntries false es) us)
    (l : ℕ) (rest : List YamlToken) :
    Reads (parseFlowMappingKey first)
      (c.pos s (next :: states) (leading .flowMappingStart first l ++ (ts ++ (us ++ rest))))
      (entryEvents ((k, v) :: es) ++ [.mappingEnd]) (c.pos next states rest) := by
  rw [entryEvents, List.append_assoc]
  exact Reads.append (h first l _ _ _ (front_flowEntries hws rest))
    (Reads.yields (hs 0 .flowMappingKey _ _ _) rfl)

/-- **A phrase is read as what it stands for.** -/
theorem parsed_of_writes {phrase : Phrase} (h : Writes c.handles phrase ts) :
    c.Parsed phrase ts := by
  -- one lemma for each production, with the phrases in it parsed by induction
  induction h with
  | aliased => exact parsed_alias
  | node hp _ ih => exact parsed_node hp ih
  | there _ ih => exact parsed_there ih
  | missing => exact parsed_missing
  | scalar => exact parsed_scalar
  | blockSequence _ ih => exact parsed_blockSequence ih
  | indentlessSequence h ih =>
    refine parsed_indentlessSequence ih ?_
    cases h with
    | item _ _ => exact front_cons rfl
  | blockMapping _ ih => exact parsed_blockMapping ih
  | flowSequence _ ih => exact parsed_flowSequence ih
  | flowMapping _ ih => exact parsed_flowMapping ih
  | noItems => exact parsed_noItems
  | item _ hs ih ihs => exact parsed_item ih ihs hs
  | noValue => exact parsed_noValue
  | value _ ih => exact parsed_value ih
  | noEntries => exact parsed_noEntries
  | entry _ hv hs ihk ihv ihs => exact parsed_entry ihk ihv ihs hv hs
  | flowItem _ ih => exact parsed_flowItem ih
  | flowPair _ _ ihk ihv => exact parsed_flowPair ihk ihv
  | flowItemsEnd => exact parsed_flowItemsEnd
  | flowItemsComma => exact parsed_flowItemsComma
  | flowItemsFirst _ hs ih ihs =>
    intro l s next states rest
    rw [List.append_assoc]
    exact parsed_flowItems ih ihs hs l rest
  | flowItemsNext _ hs ih ihs =>
    intro l s next states rest
    rw [List.cons_append, List.append_assoc]
    exact parsed_flowItems ih ihs hs _ rest
  | noFlowValue => exact parsed_noFlowValue
  | flowValue _ ih => exact parsed_flowValue ih
  | flowKey _ ih => exact parsed_flowKey ih
  | flowEntry _ hv ihk ihv => exact parsed_flowEntry ihk ihv hv
  | flowEntriesEnd => exact parsed_flowEntriesEnd
  | flowEntriesComma => exact parsed_flowEntriesComma
  | flowEntriesFirst _ hs ih ihs =>
    intro l s next states rest
    rw [List.append_assoc]
    exact parsed_flowEntries ih ihs hs l rest
  | flowEntriesNext _ hs ih ihs =>
    intro l s next states rest
    rw [List.cons_append, List.append_assoc]
    exact parsed_flowEntries ih ihs hs _ rest

end Phrases

end ParserFrame

/-! ### Documents and streams -/

/-- The default tags are added. -/
def addDefaultTag (handle lead : CString) (tags : List (CString × CString)) :
    List (CString × CString) :=
  if tags.any fun d => d.1 = handle then tags else tags ++ [(handle, lead)]

/-- The tags of a document with some directives. -/
def documentTags (tags : List (CString × CString)) : List (CString × CString) :=
  addDefaultTag "!!".toList "tag:yaml.org,2002:".toList
    (addDefaultTag "!".toList "!".toList tags)

/-- `DIRECTIVE*`: a version at most, and tags with handles of their own. -/
inductive Directives : Option (ℤ × ℤ) → List (CString × CString) → List YamlToken → Prop
  | none : Directives none [] []
  | version {tags ts n} (h : Directives none tags ts) :
      Directives (some (1, 1)) tags (⟨.versionDirective 1 1, n⟩ :: ts)
  | tag {version tags ts handle lead n} (h : Directives version tags ts)
      (hnew : handle ∉ tags.map Prod.fst) :
      Directives version ((handle, lead) :: tags) (⟨.tagDirective handle lead, n⟩ :: ts)

/-- **The tokens of documents** up to the end of the stream. -/
inductive WritesDocuments : List (YamlDocument CString) → List YamlToken → Prop
  | streamEnd {n} : WritesDocuments [] [⟨.streamEnd, n⟩]
  | documentEnd {docs ts n} (h : WritesDocuments docs ts) :
      WritesDocuments docs (⟨.documentEnd, n⟩ :: ts)
  | document {version tags y docs ps ts us n} (hd : Directives version tags ps)
      (h : Writes ((documentTags tags).map Prod.fst) (.optional true false y) ts)
      (hs : WritesDocuments docs us) :
      WritesDocuments (⟨version, y⟩ :: docs) (ps ++ ⟨.documentStart, n⟩ :: (ts ++ us))

/-- **The tokens of a stream.** -/
inductive WritesStream : List (YamlDocument CString) → List YamlToken → Prop
  | explicit {docs ts n} (h : WritesDocuments docs ts)
      (hfront : Front YamlTokenData.startsDocument ts) :
      WritesStream docs (⟨.streamStart, n⟩ :: ts)
  | implicit {y docs ts us n}
      (h : Writes ((documentTags []).map Prod.fst) (.node true false y) ts)
      (hs : WritesDocuments docs us) :
      WritesStream (⟨none, y⟩ :: docs) (⟨.streamStart, n⟩ :: (ts ++ us))

section Documents

open YamlParser ParserFrame

variable {failure : YamlProblem} {tags ds : List (CString × CString)} {s : YamlParserState}
  {states : List YamlParserState} {ts us rest : List YamlToken} {version : Option (ℤ × ℤ)}
  {docs : List (YamlDocument CString)} {y : Yaml CString} {n : ℕ}

theorem appendTagDirective_default (handle lead : CString) (line : ℕ) :
    appendTagDirective handle lead true line ((ParserFrame.mk failure tags).pos s states ts) =
      (.done (), (ParserFrame.mk failure (addDefaultTag handle lead tags)).pos s states ts) := by
  unfold appendTagDirective addDefaultTag
  rw [get_bind]
  show (if tags.any (fun d => d.1 = handle) then _ else _ : ParserM Unit) _ = _
  split <;> rfl

theorem appendTagDirective_new {handle : CString} (lead : CString) (line : ℕ)
    (h : handle ∉ tags.map Prod.fst) :
    appendTagDirective handle lead false line ((ParserFrame.mk failure tags).pos s states ts) =
      (.done (), (ParserFrame.mk failure (tags ++ [(handle, lead)])).pos s states ts) := by
  have hany : ¬ (tags.any fun d => d.1 = handle) = true := by
    intro hany
    obtain ⟨d, hd, hhandle⟩ := List.any_eq_true.mp hany
    exact h (List.mem_map.mpr ⟨d, hd, of_decide_eq_true hhandle⟩)
  unfold appendTagDirective
  rw [get_bind]
  show (if tags.any (fun d => d.1 = handle) then _ else _ : ParserM Unit) _ = _
  rw [if_neg hany]
  rfl

/-- A token that is no directive. -/
def YamlTokenData.noDirective : YamlTokenData → Bool
  | .versionDirective _ _ => false
  | .tagDirective _ _ => false
  | _ => true

/-- The directives of a document are read up to its start. -/
theorem processDirectivesFrom_eq (hd : Directives version ds ts) {start : Option (ℤ × ℤ)}
    {k : ℕ} (hstart : start = none ∨ version = none)
    (hnew : ∀ d ∈ ds, d.1 ∉ tags.map Prod.fst) (hk : ts.length < k)
    (hrest : Front YamlTokenData.noDirective rest) :
    processDirectivesFrom start k ((ParserFrame.mk failure tags).pos s states (ts ++ rest)) =
      (.done (start.or version),
        (ParserFrame.mk failure (documentTags (tags ++ ds))).pos s states rest) := by
  -- each directive is one turn of the loop; the last turn adds the two default handles
  induction hd generalizing tags start k with
  | none =>
    obtain ⟨m, rfl⟩ := Nat.exists_eq_add_of_lt hk
    obtain ⟨⟨d, l⟩, us, rfl, ht⟩ := hrest
    have hturn : processDirectivesFrom start (m + 1)
        ((ParserFrame.mk failure tags).pos s states (⟨d, l⟩ :: us)) =
        (do
          appendTagDirective "!".toList "!".toList true l
          appendTagDirective "!!".toList "tag:yaml.org,2002:".toList true l
          pure start : ParserM (Option (ℤ × ℤ)))
          ((ParserFrame.mk failure tags).pos s states (⟨d, l⟩ :: us)) := by
      cases d <;> first | rfl | cases ht
    rw [List.length_nil, Nat.zero_add, List.nil_append, hturn,
      bind_of_done (appendTagDirective_default _ _ _),
      bind_of_done (appendTagDirective_default _ _ _), List.append_nil, Option.or_none]
    rfl
  | @version ds ts n h ih =>
    obtain ⟨m, rfl⟩ := Nat.exists_eq_add_of_lt (Nat.zero_lt_of_lt hk)
    obtain rfl : start = none := hstart.resolve_right (by simp)
    have hturn : processDirectivesFrom none (m + 1) ((ParserFrame.mk failure tags).pos s states
        (⟨.versionDirective 1 1, n⟩ :: (ts ++ rest))) = processDirectivesFrom (some (1, 1)) m
          ((ParserFrame.mk failure tags).pos s states (ts ++ rest)) := rfl
    rw [Nat.zero_add, List.cons_append, hturn,
      ih (Or.inr rfl) hnew (by simp at hk; omega)]
    rfl
  | @tag version ds ts handle lead n h hhandle ih =>
    obtain ⟨m, rfl⟩ := Nat.exists_eq_add_of_lt (Nat.zero_lt_of_lt hk)
    have hturn : processDirectivesFrom start (m + 1) ((ParserFrame.mk failure tags).pos s states
        (⟨.tagDirective handle lead, n⟩ :: (ts ++ rest))) =
        (do
          appendTagDirective handle lead false n
          skipToken
          processDirectivesFrom start m : ParserM (Option (ℤ × ℤ)))
          ((ParserFrame.mk failure tags).pos s states
            (⟨.tagDirective handle lead, n⟩ :: (ts ++ rest))) := rfl
    rw [Nat.zero_add, List.cons_append, hturn,
      bind_of_done (appendTagDirective_new lead n (hnew _ List.mem_cons_self))]
    show processDirectivesFrom start m ((ParserFrame.mk failure (tags ++ [(handle, lead)])).pos s
      states (ts ++ rest)) = _
    rw [ih hstart ?_ (by simp at hk; omega), List.append_assoc, List.singleton_append]
    intro d hd hmem
    rw [List.map_append, List.mem_append] at hmem
    rcases hmem with hmem | hmem
    · exact hnew d (List.mem_cons_of_mem _ hd) hmem
    · obtain rfl : d.1 = handle := by simpa using hmem
      exact hhandle (List.mem_map_of_mem hd)

theorem processDirectives_eq (hd : Directives version ds ts)
    (hrest : Front YamlTokenData.noDirective rest) :
    processDirectives ((ParserFrame.mk failure []).pos s states (ts ++ rest)) =
      (.done version, (ParserFrame.mk failure (documentTags ds)).pos s states rest) := by
  unfold processDirectives
  rw [get_bind]
  refine (processDirectivesFrom_eq hd (Or.inl rfl) (fun _ _ h => by cases h) ?_ hrest)
  show ts.length < (ts ++ rest).length + 1
  rw [List.length_append]
  omega

/-- An end of a document in front of the next one is skipped. -/
theorem parseDocumentStart_documentEnd :
    parseDocumentStart false
        ((ParserFrame.mk failure tags).pos s states (⟨.documentEnd, n⟩ :: ts)) =
      parseDocumentStart false ((ParserFrame.mk failure tags).pos s states ts) := rfl

theorem front_directives (hd : Directives version ds ts) (us : List YamlToken) :
    Front (fun d => d.startsDocument && decide (d ≠ .streamEnd))
      (ts ++ ⟨.documentStart, n⟩ :: us) := by
  cases hd <;> exact front_cons rfl

/-- **The start of a document.** -/
theorem parseDocumentStart_eq (hd : Directives version ds ts) (implicit : Bool) :
    parseDocumentStart implicit
        ((ParserFrame.mk failure []).pos s states (ts ++ ⟨.documentStart, n⟩ :: us)) =
      (.done (.documentStart version), (ParserFrame.mk failure (documentTags ds)).pos
        .documentContent (.documentEnd :: states) us) := by
  have hfront : Front YamlTokenData.noDirective (⟨.documentStart, n⟩ :: us) := front_cons rfl
  have hdirs : processDirectives ((ParserFrame.mk failure []).pos s states
      (ts ++ ⟨.documentStart, n⟩ :: us)) = (.done version,
        (ParserFrame.mk failure (documentTags ds)).pos s states (⟨.documentStart, n⟩ :: us)) :=
    processDirectives_eq hd hfront
  obtain ⟨⟨d, l⟩, rest, heq, hfront⟩ := front_directives (n := n) hd us
  rw [heq] at hdirs ⊢
  have hstart : parseDocumentStart implicit
      ((ParserFrame.mk failure []).pos s states (⟨d, l⟩ :: rest)) =
      (do
        let version ← processDirectives
        let token ← peekToken
        if token.data ≠ .documentStart then
          setParserError "did not find expected <document start>" token.line
        else do
          pushState .documentEnd
          setState .documentContent
          skipToken
          pure (.documentStart version) : ParserM CEvent)
        ((ParserFrame.mk failure []).pos s states (⟨d, l⟩ :: rest)) := by
    cases implicit <;> cases d <;> first | rfl | cases hfront
  rw [hstart, bind_of_done hdirs]
  rfl

theorem front_documents (h : WritesDocuments docs ts) :
    Front (fun d => d.startsDocument || decide (d = .documentEnd)) ts := by
  cases h with
  | streamEnd => exact front_cons rfl
  | documentEnd _ => exact front_cons rfl
  | document hd _ _ => exact Front.mono (front_directives hd _) fun d hd => by simp_all

/-- **The content of a document.** -/
theorem reads_documentContent (h : Writes (tags.map Prod.fst) (.optional true false y) ts)
    (hrest : Front (fun d => d.startsDocument || decide (d = .documentEnd)) rest) :
    Reads parseDocumentContent
      ((ParserFrame.mk failure tags).pos s (.documentEnd :: states) (ts ++ rest)) y.events
      ((ParserFrame.mk failure tags).pos .documentEnd states rest) := by
  cases h with
  | missing =>
    obtain ⟨⟨d, m⟩, us, rfl, ht⟩ := hrest
    refine Reads.one ?_
    cases d <;> first | rfl | cases ht
  | there h =>
    obtain ⟨⟨⟨d, m⟩, us, rfl, ht⟩, hreads⟩ :=
      parsed_of_writes (c := ⟨failure, tags⟩) (show Writes (ParserFrame.handles _) _ _ from h)
    refine Reads.of_eq ?_ (hreads s .documentEnd states rest fun h => by cases h)
    cases d <;> first | rfl | cases ht

/-- Behind a document the parser goes on with the others. -/
theorem yields_documentEnd {q : YamlParser} {es : List CEvent} (hus : us ≠ [])
    (h : ∀ s, Reads (parseDocumentStart false) ((ParserFrame.mk failure []).pos s [] us) es q) :
    Yields yamlParserParse ((ParserFrame.mk failure tags).pos .documentEnd [] us)
      (.documentEnd :: es) q := by
  obtain ⟨⟨d, n⟩, us, rfl⟩ := List.exists_cons_of_ne_nil hus
  by_cases hd : d = .documentEnd
  · subst hd
    exact ⟨(ParserFrame.mk failure []).pos .documentStart [] us, rfl,
      Reads.yields (h .documentStart) rfl⟩
  · refine ⟨(ParserFrame.mk failure []).pos .documentStart [] (⟨d, n⟩ :: us), ?_,
      Reads.yields (h .documentStart) rfl⟩
    cases d <;> first | rfl | exact absurd rfl hd

/-- **Documents are read** up to the end of the stream. -/
theorem reads_documents (h : WritesDocuments docs ts) (failure : YamlProblem) :
    ∃ q, ∀ s, Reads (parseDocumentStart false) ((ParserFrame.mk failure []).pos s [] ts)
      (docs.flatMap YamlDocument.events ++ [.streamEnd]) q := by
  induction h with
  | streamEnd => exact ⟨⟨[], failure, [], .endState, [], true, none⟩, fun s => Reads.one rfl⟩
  | documentEnd _ ih =>
    obtain ⟨q, hq⟩ := ih
    exact ⟨q, fun s => Reads.of_eq parseDocumentStart_documentEnd (hq s)⟩
  | @document version tags y docs ps ts us n hd h hs ih =>
    obtain ⟨q, hq⟩ := ih
    obtain ⟨t, us', hus, -⟩ := front_documents hs
    refine ⟨q, fun s => ?_⟩
    rw [List.flatMap_cons, YamlDocument.events, List.cons_append, List.append_assoc,
      List.cons_append]
    refine Reads.cons (parseDocumentStart_eq hd false) ?_
    rw [List.append_assoc]
    refine Yields.append ((reads_documentContent h (front_documents hs)).yields rfl) ?_
    exact yields_documentEnd (by simp [hus]) hq

/-- **A stream is read as its documents.** -/
theorem yields_of_writesStream (h : WritesStream docs ts) (failure : YamlProblem) :
    ∃ q, Yields yamlParserParse (.initial ts failure) (streamEvents docs) q := by
  cases h with
  | explicit h hfront =>
    obtain ⟨q, hq⟩ := reads_documents h failure
    refine ⟨q, (ParserFrame.mk failure []).pos .implicitDocumentStart [] _, rfl, ?_⟩
    refine (hq .implicitDocumentStart).yields ?_
    obtain ⟨⟨d, l⟩, rest, rfl, ht⟩ := hfront
    cases d <;> first | rfl | cases ht
  | @implicit y docs ts us n h hs =>
    obtain ⟨q, hq⟩ := reads_documents hs failure
    obtain ⟨t', us', hus, -⟩ := front_documents hs
    obtain ⟨⟨⟨d, l⟩, rest, rfl, ht⟩, hreads⟩ :=
      parsed_of_writes (c := ⟨failure, documentTags []⟩)
        (show Writes (ParserFrame.handles _) _ _ from h)
    refine ⟨q, (ParserFrame.mk failure []).pos .implicitDocumentStart [] _, rfl, ?_⟩
    rw [List.flatMap_cons, YamlDocument.events, List.cons_append, List.append_assoc,
      List.cons_append]
    refine ⟨(ParserFrame.mk failure (documentTags [])).pos .blockNode [.documentEnd]
      (⟨d, l⟩ :: (rest ++ us)), ?_, ?_⟩
    · cases d <;> first | rfl | cases ht
    · rw [List.append_assoc]
      refine Yields.append
        ((hreads .blockNode .documentEnd [] us fun h => by cases h).yields rfl) ?_
      exact yields_documentEnd (by simp [hus]) hq

end Documents

/-! ### Writing a document -/

section Writing

mutual

/-- **The tokens of a node**, with collections in blocks. -/
def Yaml.tokens : Yaml CString → List YamlToken
  | .scalar value => [⟨.scalar value, 0⟩]
  | .alias => [⟨.alias, 0⟩]
  | .sequence items => ⟨.blockSequenceStart, 0⟩ :: (itemTokens items ++ [⟨.blockEnd, 0⟩])
  | .mapping entries => ⟨.blockMappingStart, 0⟩ :: (entryTokens entries ++ [⟨.blockEnd, 0⟩])

/-- The tokens of items. -/
def itemTokens : List (Yaml CString) → List YamlToken
  | [] => []
  | y :: ys => ⟨.blockEntry, 0⟩ :: (y.tokens ++ itemTokens ys)

/-- The tokens of entries. -/
def entryTokens : List (Yaml CString × Yaml CString) → List YamlToken
  | [] => []
  | (k, v) :: es => ⟨.key, 0⟩ :: (k.tokens ++ (⟨.value, 0⟩ :: v.tokens ++ entryTokens es))

end

variable {handles : List CString}

mutual

/-- **Every node can be written.** -/
theorem writes_tokens : (y : Yaml CString) → ∀ indentless : Bool,
    Writes handles (.node true indentless y) y.tokens
  | .scalar _ => fun _ => .node .none .scalar
  | .alias => fun _ => .aliased
  | .sequence items => fun _ => .node .none (.blockSequence (writes_itemTokens items))
  | .mapping entries => fun _ => .node .none (.blockMapping (writes_entryTokens entries))

theorem writes_itemTokens : (items : List (Yaml CString)) →
    Writes handles (.items items) (itemTokens items)
  | [] => .noItems
  | y :: ys => .item (.there (writes_tokens y false)) (writes_itemTokens ys)

theorem writes_entryTokens : (entries : List (Yaml CString × Yaml CString)) →
    Writes handles (.entries entries) (entryTokens entries)
  | [] => .noEntries
  | (k, v) :: es => .entry (.there (writes_tokens k true)) (.value (.there (writes_tokens v true)))
      (writes_entryTokens es)

end

/-- The tokens of a file with one document. -/
def fileTokens (y : Yaml CString) : List YamlToken :=
  ⟨.streamStart, 0⟩ :: ⟨.versionDirective 1 1, 0⟩ :: ⟨.documentStart, 0⟩ ::
    (y.tokens ++ [⟨.streamEnd, 0⟩])

theorem writesStream_fileTokens (y : Yaml CString) :
    WritesStream [⟨some (1, 1), y⟩] (fileTokens y) :=
  .explicit (.document (.version .none) (.there (writes_tokens y false)) .streamEnd)
    (ParserFrame.front_cons rfl)

end Writing

end Newiup
