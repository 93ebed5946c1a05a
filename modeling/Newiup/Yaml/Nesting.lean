import Newiup.Ensures
import Newiup.Yaml.Parser

/-!
# The parser nests its events

Whatever the tokens are, the events the parser hands out are accepted by the composer: the
stack of states says how the open collections go on.  The parser never pops an empty stack
or looks at a token that is not there, and it hands out at most six events for a token.

## Main definitions

* `Conts` — a stack of states goes on with the collections that are open.
* `ParserFits` — the parser stands where the composer stands.
* `YamlParser.rank` — bounds the events that are still to come.

## Main results

* `yamlParserParse_ensures` — **an event is accepted, and the rank falls.**
* `yamlParser_yields` — **the parser comes to an end**, with a stream or with an error.
* `yamlParserParse_nests` — **every call returns**, and the events nest.
-/

namespace Newiup

open Composer Start

/-! ### States and composers -/

/-- The states that begin with the start token of a collection. -/
def YamlParserState.first : YamlParserState → Bool
  | .blockSequenceFirstEntry => true
  | .blockMappingFirstKey => true
  | .flowSequenceFirstEntry => true
  | .flowMappingFirstKey => true
  | _ => false

/-- The states at an item of a sequence. -/
def YamlParserState.item : YamlParserState → Bool
  | .blockSequenceFirstEntry => true
  | .blockSequenceEntry => true
  | .indentlessSequenceEntry => true
  | .flowSequenceFirstEntry => true
  | .flowSequenceEntry => true
  | _ => false

/-- The states at a key of a mapping. -/
def YamlParserState.atKey : YamlParserState → Bool
  | .blockMappingFirstKey => true
  | .blockMappingKey => true
  | .flowMappingFirstKey => true
  | .flowMappingKey => true
  | _ => false

/-- The states at a value of a mapping. -/
def YamlParserState.atValue : YamlParserState → Bool
  | .blockMappingValue => true
  | .flowMappingValue => true
  | .flowMappingEmptyValue => true
  | _ => false

/-- The states at a node. -/
def YamlParserState.node : YamlParserState → Bool
  | .blockNode => true
  | .blockNodeOrIndentlessSequence => true
  | .flowNode => true
  | _ => false

/-- **The stack of states goes on** with the open collections, once a node is complete.  The
stack of the parser holds states, that of the composer open collections.  Each state on the one
is how the parser goes on in the collection on the other; a pair in a flow sequence has a state
of its own and opens a mapping besides. -/
inductive Conts : List YamlParserState → List (YamlFrame CString) → Prop
  | document : Conts [.documentEnd] []
  | item {s states fs items} (hs : s.item = true) (hf : s.first = false) (h : Conts states fs) :
      Conts (s :: states) (.sequence items :: fs)
  | key {s states fs entries} (hs : s.atValue = true) (h : Conts states fs) :
      Conts (s :: states) (.mapping entries :: fs)
  | value {s states fs entries k} (hs : s.atKey = true) (hf : s.first = false)
      (h : Conts states fs) : Conts (s :: states) (.value entries k :: fs)
  | pairKey {states fs items entries} (h : Conts states fs) :
      Conts (.flowSequenceEntryMappingValue :: states) (.mapping entries :: .sequence items :: fs)
  | pairValue {states fs items entries k} (h : Conts states fs) :
      Conts (.flowSequenceEntryMappingEnd :: states) (.value entries k :: .sequence items :: fs)

/-- Where the parser stands between two events. -/
inductive At : YamlParserState → List YamlParserState → Composer CString → Prop
  | streamStart : At .streamStart [] .start
  | implicitDocumentStart {docs} : At .implicitDocumentStart [] (.stream docs)
  | documentStart {docs} : At .documentStart [] (.stream docs)
  | documentContent {states docs version} (h : Conts states []) :
      At .documentContent states (.document docs version [])
  | node {s states docs version fs} (hs : s.node = true) (h : Conts states fs) :
      At s states (.document docs version fs)
  | documentEnd {docs version root} : At .documentEnd [] (.content docs version root)
  | endState {docs} : At .endState [] (.finished docs)
  | item {s states docs version items fs} (hs : s.item = true) (h : Conts states fs) :
      At s states (.document docs version (.sequence items :: fs))
  | key {s states docs version entries fs} (hs : s.atKey = true) (h : Conts states fs) :
      At s states (.document docs version (.mapping entries :: fs))
  | value {s states docs version entries k fs} (hs : s.atValue = true) (h : Conts states fs) :
      At s states (.document docs version (.value entries k :: fs))
  | pairKey {states docs version entries items fs} (h : Conts states fs) :
      At .flowSequenceEntryMappingKey states
        (.document docs version (.mapping entries :: .sequence items :: fs))
  | pairValue {states docs version entries k items fs} (h : Conts states fs) :
      At .flowSequenceEntryMappingValue states
        (.document docs version (.value entries k :: .sequence items :: fs))
  | pairEnd {states docs version entries items fs} (h : Conts states fs) :
      At .flowSequenceEntryMappingEnd states
        (.document docs version (.mapping entries :: .sequence items :: fs))

/-- **The parser stands where the composer stands.** -/
structure ParserFits (p : YamlParser) (c : Composer CString) : Prop where
  stands : At p.state p.states c
  error : p.error = none
  ended : p.streamEndProduced = true → p.state = .endState
  first : p.state.first = true → ∃ token rest, p.tokens = token :: rest ∧ token.data ≠ .streamEnd

/-- The state on the stack goes on where the node is complete. -/
theorem Conts.pop {states : List YamlParserState} {fs : List (YamlFrame CString)}
    (h : Conts states fs) : ∃ s rest, states = s :: rest ∧ s.first = false ∧
      ∀ docs version y, At s rest (Composer.node docs version y fs) := by
  cases h with
  | document => exact ⟨_, _, rfl, rfl, fun _ _ _ => .documentEnd⟩
  | item hs hf h => exact ⟨_, _, rfl, hf, fun _ _ _ => .item hs h⟩
  | @key s _ _ _ hs h =>
    exact ⟨_, _, rfl, by cases s <;> cases hs <;> rfl, fun _ _ _ => .value hs h⟩
  | value hs hf h => exact ⟨_, _, rfl, hf, fun _ _ _ => .key hs h⟩
  | pairKey h => exact ⟨_, _, rfl, rfl, fun _ _ _ => .pairValue h⟩
  | pairValue h => exact ⟨_, _, rfl, rfl, fun _ _ _ => .pairEnd h⟩

/-! ### How many events are to come -/

/-- What a state hands out without a token.  A state may hand out an empty scalar or the end of
a collection without consuming a token, but only so many times before it has to consume
one.  The number says how many at most. -/
def YamlParserState.rank : YamlParserState → ℕ
  | .endState => 0
  | .documentEnd => 2
  | .documentContent => 2
  | .blockNode => 2
  | .blockNodeOrIndentlessSequence => 2
  | .flowNode => 2
  | .blockMappingValue => 2
  | .flowMappingValue => 2
  | .flowMappingEmptyValue => 2
  | .flowSequenceEntryMappingEnd => 2
  | .flowSequenceEntryMappingValue => 3
  | .flowSequenceEntryMappingKey => 5
  | .implicitDocumentStart => 5
  | _ => 1

namespace YamlParser

/-- What the tokens and the states on the stack are good for. -/
def stock (p : YamlParser) : ℕ :=
  6 * p.tokens.length + (p.states.map YamlParserState.rank).sum

/-- **The rank** bounds the events that are still to come. -/
def rank (p : YamlParser) : ℕ := p.stock + p.state.rank

/-- The parser has failed and says why. -/
def Failed (p : YamlParser) : Prop := p.error.isSome = true

/-- The versions that are let through. -/
def Supported : CEvent → Prop
  | .documentStart version => version = none ∨ version = some (1, 1)
  | _ => True

/-- An event `e` is what comes next after `c`, and the parser has got on. -/
structure Next (c : Composer CString) (bound : ℕ) (e : CEvent) (p : YamlParser) : Prop where
  accepted : ∃ c', c.step e = some c' ∧ ParserFits p c'
  supported : Supported e
  rank : p.rank < bound

/-! ### The steps of the machine -/

section Steps

variable {p : YamlParser} {α : Type} {E : YamlParser → Prop}

theorem ensures_peekToken {Q : YamlToken → YamlParser → Prop}
    (hQ : ∀ token rest, p.tokens = token :: rest → Q token p) :
    peekToken.Ensures Q Failed p := by
  unfold Start.Ensures peekToken
  cases htok : p.tokens with
  | nil => exact rfl
  | cons token rest => exact hQ token rest htok

theorem ensures_skipToken {Q : Unit → YamlParser → Prop} {token : YamlToken}
    {rest : List YamlToken} (htok : p.tokens = token :: rest)
    (hQ : Q () { p with tokens := rest, streamEndProduced := token.data = .streamEnd }) :
    skipToken.Ensures Q E p := by
  unfold Start.Ensures skipToken
  rw [htok]
  exact hQ

theorem ensures_setState {Q : Unit → YamlParser → Prop} {s : YamlParserState} :
    (setState s).Ensures Q E p ↔ Q () { p with state := s } := Iff.rfl

theorem ensures_pushState {Q : Unit → YamlParser → Prop} {s : YamlParserState} :
    (pushState s).Ensures Q E p ↔ Q () { p with states := s :: p.states } := Iff.rfl

theorem ensures_popState {Q : Unit → YamlParser → Prop} {s : YamlParserState}
    {states : List YamlParserState} (hs : p.states = s :: states)
    (hQ : Q () { p with state := s, states := states }) : popState.Ensures Q E p := by
  unfold Start.Ensures popState
  rw [hs]
  exact hQ

theorem ensures_setParserError {Q : α → YamlParser → Prop} {problem : String} {line : ℕ} :
    (setParserError problem line : ParserM α).Ensures Q Failed p := rfl

/-- The start token of a collection is there. -/
theorem ensures_skipFirst {Q : Unit → YamlParser → Prop} {first : Bool}
    (hfirst : first = true → ∃ token rest, p.tokens = token :: rest ∧ token.data ≠ .streamEnd)
    (hskip : ∀ token rest, first = true → p.tokens = token :: rest → token.data ≠ .streamEnd →
      Q () { p with tokens := rest, streamEndProduced := token.data = .streamEnd })
    (hQ : first = false → Q () p) : (skipFirst first).Ensures Q E p := by
  cases first with
  | false => exact hQ rfl
  | true =>
    obtain ⟨token, rest, htok, hdata⟩ := hfirst rfl
    unfold skipFirst
    rw [if_pos rfl, ensures_bind]
    unfold Start.Ensures peekTokenUnchecked
    rw [htok]
    exact ensures_skipToken htok (hskip token rest rfl htok hdata)

end Steps

/-- A token is good for six events. -/
theorem stock_of_lt {p q : YamlParser} (hstates : q.states = p.states)
    (hlt : q.tokens.length < p.tokens.length) : q.stock + 6 ≤ p.stock := by
  simp only [stock, hstates]
  omega

section Node

variable {p : YamlParser} {docs : List (YamlDocument CString)} {version : Option (ℤ × ℤ)}
  {fs : List (YamlFrame CString)} {bound : ℕ}

/-- The parser in the middle of a step. -/
structure Busy (p : YamlParser) (fs : List (YamlFrame CString)) : Prop where
  conts : Conts p.states fs
  error : p.error = none
  ended : p.streamEndProduced = false

/-- The node is complete, without another token. -/
theorem ensures_popState_node {Q : Unit → YamlParser → Prop} {E : YamlParser → Prop}
    (hb : Busy p fs)
    (hQ : ∀ p', p'.tokens = p.tokens → p'.error = none → p'.streamEndProduced = false →
      p'.rank = p.stock → p'.state.first = false →
      (∀ docs version y, At p'.state p'.states (Composer.node docs version y fs)) → Q () p') :
    popState.Ensures Q E p := by
  obtain ⟨s, rest, hs, hfirst, hat⟩ := hb.conts.pop
  refine ensures_popState hs (hQ _ rfl hb.error hb.ended ?_ hfirst hat)
  simp only [rank, stock, hs, List.map_cons, List.sum_cons]
  omega

/-- The event of a node that is complete. -/
theorem next_of_node {p' : YamlParser} {e : CEvent} {y : Yaml CString}
    (hstep : (Composer.document docs version fs).step e = some (Composer.node docs version y fs))
    (hat : At p'.state p'.states (Composer.node docs version y fs)) (herr : p'.error = none)
    (hended : p'.streamEndProduced = false) (hfirst : p'.state.first = false)
    (hsup : Supported e) (hrank : p'.rank < bound) :
    Next (.document docs version fs) bound e p' where
  accepted := ⟨_, hstep, hat, herr, fun h => absurd (hended.symm.trans h) Bool.false_ne_true,
    fun h => absurd (hfirst.symm.trans h) Bool.false_ne_true⟩
  supported := hsup
  rank := hrank

theorem ensures_processEmptyScalar {p' : YamlParser}
    (hat : At p'.state p'.states (Composer.node docs version (.scalar []) fs))
    (herr : p'.error = none) (hended : p'.streamEndProduced = false)
    (hfirst : p'.state.first = false) (hrank : p'.rank < bound) :
    processEmptyScalar.Ensures (Next (.document docs version fs) bound) Failed p' :=
  next_of_node rfl hat herr hended hfirst trivial hrank

/-- The properties of a node leave the parser in the middle of its step. -/
theorem ensures_parseProperties {token : YamlToken} {rest : List YamlToken}
    {Q : Bool × Option (CString × CString × ℕ) × YamlToken → YamlParser → Prop}
    (hb : Busy p fs) (htok : p.tokens = token :: rest)
    (hQ : ∀ anchor tag next rest' p', Busy p' fs → p'.tokens = next :: rest' →
      p'.stock ≤ p.stock → (anchor = true ∨ tag.isSome = true → p'.stock + 6 ≤ p.stock) →
      Q (anchor, tag, next) p') :
    (parseProperties token).Ensures Q Failed p := by
  -- an anchor or a tag comes first, and the other one may follow; each is a token that is spent
  unfold parseProperties
  split
  · next hdata =>
    rw [ensures_bind]
    refine ensures_skipToken htok ?_
    rw [ensures_bind]
    refine ensures_peekToken fun second rest₂ htok₂ => ?_
    dsimp only at htok₂
    subst htok₂
    have hended : decide (token.data = .streamEnd) = false := by rw [hdata]; rfl
    split
    · next handle suffix hdata₂ =>
      rw [ensures_bind]
      refine ensures_skipToken rfl ?_
      rw [ensures_bind]
      refine ensures_peekToken fun third rest₃ htok₃ => ?_
      dsimp only at htok₃
      subst htok₃
      have hended₂ : decide (second.data = .streamEnd) = false := by rw [hdata₂]; rfl
      refine hQ _ _ _ _ _ ⟨hb.conts, hb.error, hended₂⟩ rfl ?_ fun _ => ?_
      · exact Nat.le_of_add_right_le (stock_of_lt rfl (by simp [htok]))
      · exact stock_of_lt rfl (by simp [htok])
    · refine hQ _ _ _ _ _ ⟨hb.conts, hb.error, hended⟩ rfl ?_ fun _ => ?_
      · exact Nat.le_of_add_right_le (stock_of_lt rfl (by simp [htok]))
      · exact stock_of_lt rfl (by simp [htok])
  · next handle suffix hdata =>
    rw [ensures_bind]
    refine ensures_skipToken htok ?_
    rw [ensures_bind]
    refine ensures_peekToken fun second rest₂ htok₂ => ?_
    dsimp only at htok₂
    subst htok₂
    have hended : decide (token.data = .streamEnd) = false := by rw [hdata]; rfl
    refine ensures_ite (fun hdata₂ => ?_) fun _ => ?_
    · rw [ensures_bind]
      refine ensures_skipToken rfl ?_
      rw [ensures_bind]
      refine ensures_peekToken fun third rest₃ htok₃ => ?_
      dsimp only at htok₃
      subst htok₃
      have hended₂ : decide (second.data = .streamEnd) = false := by rw [hdata₂]; rfl
      refine hQ _ _ _ _ _ ⟨hb.conts, hb.error, hended₂⟩ rfl ?_ fun _ => ?_
      · exact Nat.le_of_add_right_le (stock_of_lt rfl (by simp [htok]))
      · exact stock_of_lt rfl (by simp [htok])
    · refine hQ _ _ _ _ _ ⟨hb.conts, hb.error, hended⟩ rfl ?_ fun _ => ?_
      · exact Nat.le_of_add_right_le (stock_of_lt rfl (by simp [htok]))
      · exact stock_of_lt rfl (by simp [htok])
  · refine hQ _ _ _ _ _ hb htok le_rfl fun h => ?_
    rcases h with h | h <;> cases h

theorem ensures_checkTag {tag : Option (CString × CString × ℕ)} {Q : Unit → YamlParser → Prop}
    (hQ : Q () p) : (checkTag tag).Ensures Q Failed p := by
  unfold checkTag
  rw [ensures_bind, ensures_get]
  split
  · exact hQ
  · exact ensures_ite (fun _ => hQ) fun _ => ensures_ite (fun _ => hQ) fun _ =>
      ensures_setParserError

/-- A collection begins. -/
theorem ensures_open {s : YamlParserState} {e : CEvent} {f : YamlFrame CString}
    {next : YamlToken} {rest : List YamlToken}
    (hb : Busy p fs) (htok : p.tokens = next :: rest) (hdata : next.data ≠ .streamEnd)
    (hstep : (Composer.document docs version fs).step e = some (.document docs version (f :: fs)))
    (hat : At s p.states (.document docs version (f :: fs))) (hsup : Supported e)
    (hrank : s.rank = 1) (hbound : p.stock + 1 < bound) :
    (do setState s; pure e : ParserM CEvent).Ensures (Next (.document docs version fs) bound)
      Failed p := by
  rw [ensures_bind, ensures_setState, ensures_pure]
  refine ⟨⟨_, hstep, hat, hb.error, fun h => ?_, fun _ => ⟨next, rest, htok, hdata⟩⟩, hsup, ?_⟩
  · dsimp only at h
    rw [hb.ended] at h
    cases h
  · show p.stock + s.rank < bound
    omega

/-- The content of a node begins a collection, or completes the node: with a scalar, which is
a token, or with nothing behind its properties, which were tokens. -/
theorem ensures_nodeContent {block indentless anchor : Bool}
    {tag : Option (CString × CString × ℕ)} {token : YamlToken} {rest : List YamlToken}
    (hb : Busy p fs) (htok : p.tokens = token :: rest) (hbound : p.stock + 1 < bound)
    (hprops : anchor = true ∨ tag.isSome = true → p.stock + 6 < bound) :
    (nodeContent block indentless anchor tag token).Ensures
      (Next (.document docs version fs) bound) Failed p := by
  unfold nodeContent
  -- a sequence without its own tokens, a scalar, the four collections, or properties alone
  refine ensures_ite (fun hind => ?_) fun _ => ?_
  · exact ensures_open (f := .sequence []) hb htok (by simp [hind.2]) rfl
      (.item rfl hb.conts) trivial rfl hbound
  · split
    · next value hdata =>
      rw [ensures_bind]
      refine ensures_popState_node hb fun p₁ htok₁ herr₁ _ hrank₁ hfirst₁ hat₁ => ?_
      rw [ensures_bind]
      refine ensures_skipToken (htok₁.trans htok) ?_
      rw [ensures_pure]
      refine next_of_node rfl (hat₁ docs version _) herr₁ (by rw [hdata]; rfl) hfirst₁ trivial ?_
      simp only [YamlParser.rank, stock, htok₁, htok, List.length_cons] at hrank₁ hbound ⊢
      omega
    · refine ensures_ite (fun hdata => ?_) fun _ => ensures_ite (fun hdata => ?_) fun _ =>
        ensures_ite (fun hdata => ?_) fun _ => ensures_ite (fun hdata => ?_) fun _ =>
        ensures_ite (fun hprop => ?_) fun _ => ensures_setParserError
      · exact ensures_open (f := .sequence []) hb htok (by simp [hdata]) rfl
          (.item rfl hb.conts) trivial rfl hbound
      · exact ensures_open (f := .mapping []) hb htok (by simp [hdata]) rfl
          (.key rfl hb.conts) trivial rfl hbound
      · exact ensures_open (f := .sequence []) hb htok (by simp [hdata.2]) rfl
          (.item rfl hb.conts) trivial rfl hbound
      · exact ensures_open (f := .mapping []) hb htok (by simp [hdata.2]) rfl
          (.key rfl hb.conts) trivial rfl hbound
      · rw [ensures_bind]
        refine ensures_popState_node hb fun p₁ _ herr₁ hended₁ hrank₁ hfirst₁ hat₁ => ?_
        have hsix := hprops hprop
        exact next_of_node rfl (hat₁ docs version _) herr₁ hended₁ hfirst₁ trivial (by omega)

/-- **`yaml_parser_parse_node`**: a node is begun, or complete. -/
theorem ensures_parseNode {block indentless : Bool} (hb : Busy p fs)
    (hbound : p.stock + 1 < bound) :
    (parseNode block indentless).Ensures (Next (.document docs version fs) bound) Failed p := by
  unfold parseNode
  rw [ensures_bind]
  refine ensures_peekToken fun token rest htok => ?_
  refine ensures_ite (fun hdata => ?_) fun _ => ?_
  · rw [ensures_bind]
    refine ensures_popState_node hb fun p₁ htok₁ herr₁ _ hrank₁ hfirst₁ hat₁ => ?_
    rw [ensures_bind]
    refine ensures_skipToken (htok₁.trans htok) ?_
    rw [ensures_pure]
    refine next_of_node rfl (hat₁ docs version _) herr₁ (by rw [hdata]; rfl) hfirst₁ trivial ?_
    simp only [YamlParser.rank, stock, htok₁, htok, List.length_cons] at hrank₁ hbound ⊢
    omega
  · rw [ensures_bind]
    refine ensures_parseProperties hb htok fun anchor tag next rest₁ p₁ hb₁ htok₁ hle hprops => ?_
    dsimp only
    rw [ensures_bind]
    refine ensures_checkTag ?_
    refine ensures_nodeContent hb₁ htok₁ (by omega) fun hprop => ?_
    have hsix := hprops hprop
    omega

end Node

/-! ### The productions of nodes -/

section Collections

variable {p : YamlParser} {docs : List (YamlDocument CString)} {version : Option (ℤ × ℤ)}
  {fs frames : List (YamlFrame CString)} {bound : ℕ} {s : YamlParserState}

/-- The start token of a collection is skipped, and there is a look at what follows. -/
theorem ensures_enter {first : Bool} {K : YamlToken → ParserM CEvent}
    {Q : CEvent → YamlParser → Prop} (hb : Busy p fs)
    (hfirst : first = true → ∃ token rest, p.tokens = token :: rest ∧ token.data ≠ .streamEnd)
    (hK : ∀ p₁ token rest, Busy p₁ fs → p₁.tokens = token :: rest →
      p₁.stock + (if first then 6 else 0) ≤ p.stock → (K token).Ensures Q Failed p₁) :
    (do skipFirst first; let token ← peekToken; K token : ParserM CEvent).Ensures Q Failed p := by
  rw [ensures_bind]
  refine ensures_skipFirst hfirst (fun token rest hf htok hdata => ?_) fun hf => ?_
  · rw [ensures_bind]
    refine ensures_peekToken fun next rest' htok' => ?_
    refine hK _ next rest' ⟨hb.conts, hb.error, decide_eq_false hdata⟩ htok' ?_
    rw [hf, if_pos rfl]
    exact stock_of_lt rfl (by simp [htok])
  · rw [ensures_bind]
    refine ensures_peekToken fun next rest' htok' => ?_
    refine hK _ next rest' hb htok' ?_
    rw [hf]
    exact le_rfl

/-- A token is skipped, and there is a look at what follows. -/
theorem ensures_skip_peek {token : YamlToken} {rest : List YamlToken} {β : Type}
    {K : YamlToken → ParserM β} {Q : β → YamlParser → Prop} (hb : Busy p fs)
    (htok : p.tokens = token :: rest) (hdata : token.data ≠ .streamEnd)
    (hK : ∀ p₁ next rest', Busy p₁ fs → p₁.tokens = next :: rest' → p₁.stock + 6 ≤ p.stock →
      (K next).Ensures Q Failed p₁) :
    (do skipToken; let token ← peekToken; K token : ParserM β).Ensures Q Failed p := by
  rw [ensures_bind]
  refine ensures_skipToken htok ?_
  rw [ensures_bind]
  refine ensures_peekToken fun next rest' htok' => ?_
  exact hK _ next rest' ⟨hb.conts, hb.error, decide_eq_false hdata⟩ htok'
    (stock_of_lt rfl (by simp [htok]))

/-- A node is parsed, with a state to go on with. -/
theorem ensures_push_parseNode {block indentless : Bool} (hb : Busy p fs)
    (hconts : Conts (s :: p.states) frames) (hbound : p.stock + s.rank + 1 < bound) :
    (do pushState s; parseNode block indentless : ParserM CEvent).Ensures
      (Next (.document docs version frames) bound) Failed p := by
  rw [ensures_bind, ensures_pushState]
  refine ensures_parseNode ⟨hconts, hb.error, hb.ended⟩ ?_
  simp only [stock, List.map_cons, List.sum_cons] at hbound ⊢
  omega

/-- A node is missing. -/
theorem ensures_set_empty (hb : Busy p fs)
    (hat : At s p.states (Composer.node docs version (.scalar []) frames))
    (hfirst : s.first = false) (hbound : p.stock + s.rank < bound) :
    (do setState s; processEmptyScalar : ParserM CEvent).Ensures
      (Next (.document docs version frames) bound) Failed p := by
  rw [ensures_bind, ensures_setState]
  exact ensures_processEmptyScalar hat hb.error hb.ended hfirst hbound

/-- A collection ends with its token. -/
theorem ensures_close {f : YamlFrame CString} {y : Yaml CString} {e : CEvent} {token : YamlToken}
    {rest : List YamlToken} (hb : Busy p fs) (htok : p.tokens = token :: rest)
    (hdata : token.data ≠ .streamEnd) (hsup : Supported e)
    (hstep : (Composer.document docs version (f :: fs)).step e =
      some (Composer.node docs version y fs)) (hbound : p.stock < bound) :
    (do popState; skipToken; pure e : ParserM CEvent).Ensures
      (Next (.document docs version (f :: fs)) bound) Failed p := by
  rw [ensures_bind]
  refine ensures_popState_node hb fun p₁ htok₁ herr₁ _ hrank₁ hfirst₁ hat₁ => ?_
  rw [ensures_bind]
  refine ensures_skipToken (htok₁.trans htok) ?_
  rw [ensures_pure]
  refine ⟨⟨_, hstep, hat₁ docs version y, herr₁, fun h => absurd (of_decide_eq_true h) hdata,
    fun h => absurd (hfirst₁.symm.trans h) Bool.false_ne_true⟩, hsup, ?_⟩
  simp only [YamlParser.rank, stock, htok₁, htok, List.length_cons] at hrank₁ hbound ⊢
  omega

/-- **`yaml_parser_parse_block_sequence_entry`.** -/
theorem ensures_parseBlockSequenceEntry {first : Bool} {items : List (Yaml CString)}
    (hb : Busy p fs)
    (hfirst : first = true → ∃ token rest, p.tokens = token :: rest ∧ token.data ≠ .streamEnd)
    (hbound : p.stock < bound) :
    (parseBlockSequenceEntry first).Ensures
      (Next (.document docs version (.sequence items :: fs)) bound) Failed p := by
  refine ensures_enter hb hfirst fun p₁ token rest hb₁ htok₁ hle₁ => ?_
  refine ensures_ite (fun hdata => ?_) fun _ => ensures_ite (fun hdata => ?_) fun _ =>
    ensures_setParserError
  · refine ensures_skip_peek hb₁ htok₁ (by simp [hdata]) fun p₂ next rest₂ hb₂ _ hle₂ => ?_
    refine ensures_ite (fun _ => ?_) fun _ => ?_
    · exact ensures_push_parseNode hb₂ (.item rfl rfl hb₂.conts)
        (show p₂.stock + 1 + 1 < bound by omega)
    · exact ensures_set_empty hb₂ (.item rfl hb₂.conts) rfl
        (show p₂.stock + 1 < bound by omega)
  · exact ensures_close hb₁ htok₁ (by simp [hdata]) trivial rfl (by omega)

/-- **`yaml_parser_parse_indentless_sequence_entry`.** -/
theorem ensures_parseIndentlessSequenceEntry {items : List (Yaml CString)} (hb : Busy p fs)
    (hbound : p.stock < bound) :
    parseIndentlessSequenceEntry.Ensures
      (Next (.document docs version (.sequence items :: fs)) bound) Failed p := by
  unfold parseIndentlessSequenceEntry
  rw [ensures_bind]
  refine ensures_peekToken fun token rest htok => ?_
  refine ensures_ite (fun hdata => ?_) fun _ => ?_
  · refine ensures_skip_peek hb htok (by simp [hdata]) fun p₁ next rest₁ hb₁ _ hle₁ => ?_
    refine ensures_ite (fun _ => ?_) fun _ => ?_
    · exact ensures_push_parseNode hb₁ (.item rfl rfl hb₁.conts)
        (show p₁.stock + 1 + 1 < bound by omega)
    · exact ensures_set_empty hb₁ (.item rfl hb₁.conts) rfl
        (show p₁.stock + 1 < bound by omega)
  · rw [ensures_bind]
    refine ensures_popState_node hb fun p₁ _ herr₁ hended₁ hrank₁ hfirst₁ hat₁ => ?_
    rw [ensures_pure]
    exact ⟨⟨_, rfl, hat₁ docs version _, herr₁, fun h => absurd (hended₁.symm.trans h) (by simp),
      fun h => absurd (hfirst₁.symm.trans h) (by simp)⟩, trivial, by omega⟩

/-- **`yaml_parser_parse_block_mapping_key`.** -/
theorem ensures_parseBlockMappingKey {first : Bool} {entries : List (Yaml CString × Yaml CString)}
    (hb : Busy p fs)
    (hfirst : first = true → ∃ token rest, p.tokens = token :: rest ∧ token.data ≠ .streamEnd)
    (hbound : p.stock < bound) :
    (parseBlockMappingKey first).Ensures
      (Next (.document docs version (.mapping entries :: fs)) bound) Failed p := by
  refine ensures_enter hb hfirst fun p₁ token rest hb₁ htok₁ hle₁ => ?_
  refine ensures_ite (fun hdata => ?_) fun _ => ensures_ite (fun hdata => ?_) fun _ =>
    ensures_setParserError
  · refine ensures_skip_peek hb₁ htok₁ (by simp [hdata]) fun p₂ next rest₂ hb₂ _ hle₂ => ?_
    refine ensures_ite (fun _ => ?_) fun _ => ?_
    · exact ensures_push_parseNode hb₂ (.key rfl hb₂.conts)
        (show p₂.stock + 2 + 1 < bound by omega)
    · exact ensures_set_empty hb₂ (.value rfl hb₂.conts) rfl
        (show p₂.stock + 2 < bound by omega)
  · exact ensures_close hb₁ htok₁ (by simp [hdata]) trivial rfl (by omega)

/-- **`yaml_parser_parse_block_mapping_value`.** -/
theorem ensures_parseBlockMappingValue {entries : List (Yaml CString × Yaml CString)}
    {k : Yaml CString} (hb : Busy p fs) (hbound : p.stock + 1 < bound) :
    parseBlockMappingValue.Ensures
      (Next (.document docs version (.value entries k :: fs)) bound) Failed p := by
  unfold parseBlockMappingValue
  rw [ensures_bind]
  refine ensures_peekToken fun token rest htok => ?_
  refine ensures_ite (fun hdata => ?_) fun _ => ?_
  · refine ensures_skip_peek hb htok (by simp [hdata]) fun p₁ next rest₁ hb₁ _ hle₁ => ?_
    refine ensures_ite (fun _ => ?_) fun _ => ?_
    · exact ensures_push_parseNode hb₁ (.value rfl rfl hb₁.conts)
        (show p₁.stock + 1 + 1 < bound by omega)
    · exact ensures_set_empty hb₁ (.key rfl hb₁.conts) rfl
        (show p₁.stock + 1 < bound by omega)
  · exact ensures_set_empty hb (.key rfl hb.conts) rfl hbound

/-- The comma in front of an entry. -/
theorem ensures_skipFlowEntry {first : Bool} {problem : String} {token : YamlToken}
    {rest : List YamlToken} {Q : YamlToken → YamlParser → Prop} (hb : Busy p fs)
    (htok : p.tokens = token :: rest)
    (hQ : ∀ p₁ next rest₁, Busy p₁ fs → p₁.tokens = next :: rest₁ →
      p₁.stock + (if first then 0 else 6) ≤ p.stock → Q next p₁) :
    (skipFlowEntry first problem token).Ensures Q Failed p := by
  cases first with
  | true => exact hQ p token rest hb htok le_rfl
  | false =>
    refine ensures_ite (fun h => by cases h) fun _ => ensures_ite (fun hdata => ?_) fun _ =>
      ensures_setParserError
    rw [ensures_bind]
    refine ensures_skipToken htok ?_
    refine ensures_peekToken fun next rest₁ htok₁ => ?_
    exact hQ _ next rest₁ ⟨hb.conts, hb.error, by simp [hdata]⟩ htok₁
      (stock_of_lt rfl (by simp [htok]))

/-- **`yaml_parser_parse_flow_sequence_entry`.** -/
theorem ensures_parseFlowSequenceEntry {first : Bool} {items : List (Yaml CString)}
    (hb : Busy p fs)
    (hfirst : first = true → ∃ token rest, p.tokens = token :: rest ∧ token.data ≠ .streamEnd)
    (hbound : p.stock < bound) :
    (parseFlowSequenceEntry first).Ensures
      (Next (.document docs version (.sequence items :: fs)) bound) Failed p := by
  refine ensures_enter hb hfirst fun p₁ token rest hb₁ htok₁ hle₁ => ?_
  refine ensures_ite (fun _ => ?_) fun hdata => ?_
  · rw [ensures_bind]
    refine ensures_skipFlowEntry hb₁ htok₁ fun p₂ next rest₂ hb₂ htok₂ hle₂ => ?_
    have hle : p₂.stock + 6 ≤ p.stock := by
      cases first <;> simp at hle₁ hle₂ <;> omega
    refine ensures_ite (fun hdata => ?_) fun _ => ensures_ite (fun _ => ?_) fun hdata => ?_
    · rw [ensures_bind, ensures_setState, ensures_bind]
      refine ensures_skipToken htok₂ ?_
      rw [ensures_pure]
      refine ⟨⟨_, rfl, .pairKey hb₂.conts, hb₂.error,
        fun h => absurd (of_decide_eq_true h) (by simp [hdata]), fun h => by cases h⟩, trivial, ?_⟩
      simp only [YamlParser.rank, stock, htok₂, List.length_cons, YamlParserState.rank]
        at hle hbound ⊢
      omega
    · exact ensures_push_parseNode hb₂ (.item rfl rfl hb₂.conts)
        (show p₂.stock + 1 + 1 < bound by omega)
    · exact ensures_close hb₂ htok₂ (by simp [not_not.mp hdata]) trivial rfl (by omega)
  · exact ensures_close hb₁ htok₁ (by simp [not_not.mp hdata]) trivial rfl (by omega)

/-- **`yaml_parser_parse_flow_sequence_entry_mapping_key`.** -/
theorem ensures_parseFlowSequenceEntryMappingKey {items : List (Yaml CString)}
    {entries : List (Yaml CString × Yaml CString)} (hb : Busy p fs) (hbound : p.stock + 4 < bound) :
    parseFlowSequenceEntryMappingKey.Ensures
      (Next (.document docs version (.mapping entries :: .sequence items :: fs)) bound)
      Failed p := by
  unfold parseFlowSequenceEntryMappingKey
  rw [ensures_bind]
  refine ensures_peekToken fun token rest htok => ?_
  refine ensures_ite (fun _ => ?_) fun hdata => ?_
  · exact ensures_push_parseNode hb (.pairKey hb.conts)
      (show p.stock + 3 + 1 < bound by omega)
  · have hend : token.data ≠ .streamEnd := by
      intro h
      exact hdata (by simp [h])
    rw [ensures_bind]
    refine ensures_skipToken htok ?_
    refine ensures_set_empty ⟨hb.conts, hb.error, decide_eq_false hend⟩
      (.pairValue hb.conts) rfl ?_
    simp only [stock, htok, List.length_cons, YamlParserState.rank] at hbound ⊢
    omega

/-- **`yaml_parser_parse_flow_sequence_entry_mapping_value`.** -/
theorem ensures_parseFlowSequenceEntryMappingValue {items : List (Yaml CString)}
    {entries : List (Yaml CString × Yaml CString)} {k : Yaml CString} (hb : Busy p fs)
    (hbound : p.stock + 2 < bound) :
    parseFlowSequenceEntryMappingValue.Ensures
      (Next (.document docs version (.value entries k :: .sequence items :: fs)) bound)
      Failed p := by
  unfold parseFlowSequenceEntryMappingValue
  rw [ensures_bind]
  refine ensures_peekToken fun token rest htok => ?_
  refine ensures_ite (fun hdata => ?_) fun _ => ?_
  · refine ensures_skip_peek hb htok (by simp [hdata]) fun p₁ next rest₁ hb₁ _ hle₁ => ?_
    refine ensures_ite (fun _ => ?_) fun _ => ?_
    · exact ensures_push_parseNode hb₁ (.pairValue hb₁.conts)
        (show p₁.stock + 2 + 1 < bound by omega)
    · exact ensures_set_empty hb₁ (.pairEnd hb₁.conts) rfl
        (show p₁.stock + 2 < bound by omega)
  · exact ensures_set_empty hb (.pairEnd hb.conts) rfl hbound

/-- **`yaml_parser_parse_flow_sequence_entry_mapping_end`.** -/
theorem ensures_parseFlowSequenceEntryMappingEnd {items : List (Yaml CString)}
    {entries : List (Yaml CString × Yaml CString)} (hb : Busy p fs) (hbound : p.stock + 1 < bound) :
    parseFlowSequenceEntryMappingEnd.Ensures
      (Next (.document docs version (.mapping entries :: .sequence items :: fs)) bound)
      Failed p := by
  unfold parseFlowSequenceEntryMappingEnd
  rw [ensures_bind]
  refine ensures_peekToken fun token rest htok => ?_
  rw [ensures_bind, ensures_setState, ensures_pure]
  exact ⟨⟨_, rfl, .item rfl hb.conts, hb.error, fun h => absurd (hb.ended.symm.trans h) (by simp),
    fun h => by cases h⟩, trivial, hbound⟩

/-- **`yaml_parser_parse_flow_mapping_key`.** -/
theorem ensures_parseFlowMappingKey {first : Bool} {entries : List (Yaml CString × Yaml CString)}
    (hb : Busy p fs)
    (hfirst : first = true → ∃ token rest, p.tokens = token :: rest ∧ token.data ≠ .streamEnd)
    (hbound : p.stock < bound) :
    (parseFlowMappingKey first).Ensures
      (Next (.document docs version (.mapping entries :: fs)) bound) Failed p := by
  refine ensures_enter hb hfirst fun p₁ token rest hb₁ htok₁ hle₁ => ?_
  refine ensures_ite (fun _ => ?_) fun hdata => ?_
  · rw [ensures_bind]
    refine ensures_skipFlowEntry hb₁ htok₁ fun p₂ next rest₂ hb₂ htok₂ hle₂ => ?_
    have hle : p₂.stock + 6 ≤ p.stock := by
      cases first <;> simp at hle₁ hle₂ <;> omega
    refine ensures_ite (fun hdata => ?_) fun _ => ensures_ite (fun _ => ?_) fun hdata => ?_
    · refine ensures_skip_peek hb₂ htok₂ (by simp [hdata]) fun p₃ next₃ rest₃ hb₃ _ hle₃ => ?_
      refine ensures_ite (fun _ => ?_) fun _ => ?_
      · exact ensures_push_parseNode hb₃ (.key rfl hb₃.conts)
          (show p₃.stock + 2 + 1 < bound by omega)
      · exact ensures_set_empty hb₃ (.value rfl hb₃.conts) rfl
          (show p₃.stock + 2 < bound by omega)
    · exact ensures_push_parseNode hb₂ (.key rfl hb₂.conts)
        (show p₂.stock + 2 + 1 < bound by omega)
    · exact ensures_close hb₂ htok₂ (by simp [not_not.mp hdata]) trivial rfl (by omega)
  · exact ensures_close hb₁ htok₁ (by simp [not_not.mp hdata]) trivial rfl (by omega)

/-- **`yaml_parser_parse_flow_mapping_value`.** -/
theorem ensures_parseFlowMappingValue {empty : Bool}
    {entries : List (Yaml CString × Yaml CString)} {k : Yaml CString} (hb : Busy p fs)
    (hbound : p.stock + 1 < bound) :
    (parseFlowMappingValue empty).Ensures
      (Next (.document docs version (.value entries k :: fs)) bound) Failed p := by
  have hmissing : (do setState .flowMappingKey; processEmptyScalar : ParserM CEvent).Ensures
      (Next (.document docs version (.value entries k :: fs)) bound) Failed p :=
    ensures_set_empty hb (.key rfl hb.conts) rfl hbound
  unfold parseFlowMappingValue
  rw [ensures_bind]
  refine ensures_peekToken fun token rest htok => ?_
  refine ensures_ite (fun _ => hmissing) fun _ => ensures_ite (fun hdata => ?_) fun _ => hmissing
  refine ensures_skip_peek hb htok (by simp [hdata]) fun p₁ next rest₁ hb₁ _ hle₁ => ?_
  refine ensures_ite (fun _ => ?_) fun _ => ?_
  · exact ensures_push_parseNode hb₁ (.value rfl rfl hb₁.conts)
      (show p₁.stock + 1 + 1 < bound by omega)
  · exact ensures_set_empty hb₁ (.key rfl hb₁.conts) rfl
      (show p₁.stock + 1 < bound by omega)

end Collections

/-! ### The productions of documents -/

section Documents

variable {p : YamlParser} {docs : List (YamlDocument CString)} {bound : ℕ}

/-- The parser between documents, in the middle of a step. -/
structure Between (p : YamlParser) : Prop where
  states : p.states = []
  error : p.error = none
  ended : p.streamEndProduced = false

theorem ensures_appendTagDirective {handle lead : CString} {duplicates : Bool} {line : ℕ}
    {Q : Unit → YamlParser → Prop}
    (hQ : ∀ tags, Q () { p with tagDirectives := tags }) :
    (appendTagDirective handle lead duplicates line).Ensures Q Failed p := by
  unfold appendTagDirective
  rw [ensures_bind, ensures_get]
  refine ensures_ite (fun _ => ensures_ite (fun _ => ?_) fun _ => ensures_setParserError)
    fun _ => ?_
  · exact hQ p.tagDirectives
  · exact hQ _

/-- The directives: a version that is let through, and no more tokens than before. -/
theorem ensures_processDirectivesFrom {version : Option (ℤ × ℤ)} {n : ℕ} (hb : Between p)
    (hn : p.tokens.length < n) (hversion : version = none ∨ version = some (1, 1)) :
    (processDirectivesFrom version n).Ensures
      (fun v q => (v = none ∨ v = some (1, 1)) ∧ Between q ∧ q.tokens.length ≤ p.tokens.length)
      Failed p := by
  induction n generalizing p version with
  | zero => omega
  | succ n ih =>
    rw [processDirectivesFrom, ensures_bind]
    refine ensures_peekToken fun token rest htok => ?_
    have hlen : p.tokens.length = rest.length + 1 := by rw [htok, List.length_cons]
    -- a version, a tag, or the end of the directives; each directive is a token
    split
    · next major minor hdata =>
      refine ensures_ite (fun _ => ensures_setParserError) fun _ =>
        ensures_ite (fun _ => ensures_setParserError) fun hone => ?_
      rw [ensures_bind]
      refine ensures_skipToken htok ?_
      have hone' : major = 1 ∧ minor = 1 := by omega
      refine (ih (p := { p with tokens := rest, streamEndProduced := token.data = .streamEnd })
        ⟨hb.states, hb.error, by simp [hdata]⟩ (show rest.length < n by omega)
        (Or.inr (by rw [hone'.1, hone'.2]))).mono (fun v q h => ⟨h.1, h.2.1, ?_⟩) fun _ h => h
      exact h.2.2.trans (by simp [htok])
    · next handle lead hdata =>
      rw [ensures_bind]
      refine ensures_appendTagDirective fun tags => ?_
      rw [ensures_bind]
      refine ensures_skipToken htok ?_
      refine (ih (p := { p with
          tagDirectives := tags, tokens := rest, streamEndProduced := token.data = .streamEnd })
        ⟨hb.states, hb.error, by simp [hdata]⟩ (show rest.length < n by omega)
        hversion).mono (fun v q h => ⟨h.1, h.2.1, ?_⟩) fun _ h => h
      exact h.2.2.trans (by simp [htok])
    · rw [ensures_bind]
      refine ensures_appendTagDirective fun tags => ?_
      rw [ensures_bind]
      refine ensures_appendTagDirective fun tags => ?_
      exact ⟨hversion, ⟨hb.states, hb.error, hb.ended⟩, le_rfl⟩

theorem ensures_processDirectives (hb : Between p) :
    processDirectives.Ensures
      (fun v q => (v = none ∨ v = some (1, 1)) ∧ Between q ∧ q.tokens.length ≤ p.tokens.length)
      Failed p := by
  unfold processDirectives
  rw [ensures_bind, ensures_get]
  exact ensures_processDirectivesFrom hb (Nat.lt_succ_self _) (Or.inl rfl)

theorem ensures_skipDocumentEnds {n : ℕ} (hb : Between p) (hn : p.tokens.length < n) :
    (skipDocumentEnds n).Ensures
      (fun token q => Between q ∧ q.tokens.length ≤ p.tokens.length ∧
        ∃ rest, q.tokens = token :: rest) Failed p := by
  induction n generalizing p with
  | zero => omega
  | succ n ih =>
    rw [skipDocumentEnds, ensures_bind]
    refine ensures_peekToken fun token rest htok => ?_
    have hlen : p.tokens.length = rest.length + 1 := by rw [htok, List.length_cons]
    refine ensures_ite (fun hdata => ?_) fun _ => ⟨hb, le_rfl, rest, htok⟩
    rw [ensures_bind]
    refine ensures_skipToken htok ?_
    refine (ih (p := { p with tokens := rest, streamEndProduced := token.data = .streamEnd })
      ⟨hb.states, hb.error, by simp [hdata]⟩ (show rest.length < n by omega)).mono
      (fun v q h => ⟨h.1, ?_, h.2.2⟩) fun _ h => h
    exact h.2.1.trans (by simp [htok])

/-- **`yaml_parser_parse_stream_start`.** -/
theorem ensures_parseStreamStart (hb : Between p) (hbound : p.stock ≤ bound) :
    parseStreamStart.Ensures (Next .start bound) Failed p := by
  unfold parseStreamStart
  rw [ensures_bind]
  refine ensures_peekToken fun token rest htok => ?_
  refine ensures_ite (fun _ => ensures_setParserError) fun hdata => ?_
  rw [ensures_bind, ensures_setState, ensures_bind]
  refine ensures_skipToken htok ?_
  rw [ensures_pure]
  refine ⟨⟨.stream [], rfl, ?_, hb.error,
    fun h => absurd (of_decide_eq_true h) (by simp [not_not.mp hdata]), fun h => by cases h⟩,
    trivial, ?_⟩
  · dsimp only
    rw [hb.states]
    exact .implicitDocumentStart
  · simp only [YamlParser.rank, stock, htok, List.length_cons, YamlParserState.rank] at hbound ⊢
    omega

/-- The first token of what follows between two documents. -/
theorem ensures_firstToken {implicit : Bool} {Q : YamlToken → YamlParser → Prop} (hb : Between p)
    (hQ : ∀ token rest q, Between q → q.tokens = token :: rest →
      q.tokens.length ≤ p.tokens.length → Q token q) :
    (firstToken implicit).Ensures Q Failed p := by
  unfold firstToken
  rw [ensures_bind, ensures_get]
  refine ensures_ite (fun _ => ?_) fun _ => ?_
  · exact ensures_peekToken fun token rest htok => hQ token rest p hb htok le_rfl
  · exact (ensures_skipDocumentEnds hb (Nat.lt_succ_self _)).mono
      (fun token q ⟨hq, hle, rest, htok⟩ => hQ token rest q hq htok hle) fun _ h => h

/-- **`yaml_parser_parse_document_start`.** -/
theorem ensures_parseDocumentStart {implicit : Bool} (hb : Between p)
    (hbound : p.stock + (if implicit then 4 else 0) < bound) :
    (parseDocumentStart implicit).Ensures (Next (.stream docs) bound) Failed p := by
  unfold parseDocumentStart
  rw [ensures_bind]
  refine ensures_firstToken hb fun token rest q hq htok hle => ?_
  simp only [stock, hb.states, List.map_nil, List.sum_nil] at hbound
  -- a document without a start, one with directives and a start, or the end of the stream
  refine ensures_ite (fun himp => ?_) fun _ => ensures_ite (fun _ => ?_) fun hdata => ?_
  · rw [ensures_bind]
    refine (ensures_processDirectives hq).mono (fun v r ⟨_, hr, hrle⟩ => ?_) fun _ h => h
    rw [ensures_bind, ensures_pushState, ensures_bind, ensures_setState, ensures_pure]
    refine ⟨⟨_, rfl, .node rfl (hr.states ▸ .document), hr.error,
      fun h => absurd (hr.ended.symm.trans h) (by simp), fun h => by cases h⟩, Or.inl rfl, ?_⟩
    simp only [YamlParser.rank, stock, hr.states, List.map_cons, List.map_nil, List.sum_cons,
      List.sum_nil, YamlParserState.rank]
    rw [if_pos himp.1] at hbound
    omega
  · rw [ensures_bind]
    refine (ensures_processDirectives hq).mono (fun v r ⟨hv, hr, hrle⟩ => ?_) fun _ h => h
    rw [ensures_bind]
    refine ensures_peekToken fun next rest' htok' => ?_
    refine ensures_ite (fun _ => ensures_setParserError) fun hdata => ?_
    rw [ensures_bind, ensures_pushState, ensures_bind, ensures_setState, ensures_bind]
    refine ensures_skipToken htok' ?_
    rw [ensures_pure]
    refine ⟨⟨_, rfl, .documentContent (hr.states ▸ .document), hr.error,
      fun h => absurd (of_decide_eq_true h) (by simp [not_not.mp hdata]), fun h => by cases h⟩,
      hv, ?_⟩
    simp only [YamlParser.rank, stock, hr.states, List.map_cons, List.map_nil, List.sum_cons,
      List.sum_nil, YamlParserState.rank]
    rw [htok', List.length_cons] at hrle
    omega
  · rw [ensures_bind, ensures_setState, ensures_bind]
    refine ensures_skipToken htok ?_
    rw [ensures_pure]
    refine ⟨⟨.finished docs, rfl, ?_, hq.error, fun _ => rfl, fun h => by cases h⟩, trivial, ?_⟩
    · dsimp only
      rw [hq.states]
      exact .endState
    · simp only [YamlParser.rank, stock, hq.states, List.map_nil, List.sum_nil,
        YamlParserState.rank]
      rw [htok, List.length_cons] at hle
      omega

/-- **`yaml_parser_parse_document_content`.** -/
theorem ensures_parseDocumentContent {version : Option (ℤ × ℤ)} (hb : Busy p [])
    (hbound : p.stock + 1 < bound) :
    parseDocumentContent.Ensures (Next (.document docs version []) bound) Failed p := by
  unfold parseDocumentContent
  rw [ensures_bind]
  refine ensures_peekToken fun token rest htok => ?_
  refine ensures_ite (fun _ => ?_) fun _ => ensures_parseNode hb hbound
  rw [ensures_bind]
  refine ensures_popState_node hb fun p₁ _ herr₁ hended₁ hrank₁ hfirst₁ hat₁ => ?_
  exact ensures_processEmptyScalar (hat₁ docs version _) herr₁ hended₁ hfirst₁ (by omega)

/-- **`yaml_parser_parse_document_end`.** -/
theorem ensures_parseDocumentEnd {version : Option (ℤ × ℤ)} {root : Yaml CString}
    (hb : Between p) (hbound : p.stock + 1 < bound) :
    parseDocumentEnd.Ensures (Next (.content docs version root) bound) Failed p := by
  have hlast : ∀ q : YamlParser, Between q → q.tokens.length ≤ p.tokens.length →
      (do Start.modify fun p => { p with tagDirectives := [] }
          setState .documentStart
          pure .documentEnd : ParserM CEvent).Ensures
        (Next (.content docs version root) bound) Failed q := by
    intro q hq hle
    rw [ensures_bind, ensures_modify, ensures_bind, ensures_setState, ensures_pure]
    refine ⟨⟨_, rfl, ?_, hq.error, fun h => absurd (hq.ended.symm.trans h) (by simp),
      fun h => by cases h⟩, trivial, ?_⟩
    · dsimp only
      rw [hq.states]
      exact .documentStart
    · simp only [YamlParser.rank, stock, hq.states, hb.states, List.map_nil, List.sum_nil,
        YamlParserState.rank] at hbound ⊢
      omega
  unfold parseDocumentEnd
  rw [ensures_bind]
  unfold skipDocumentEnd
  rw [ensures_bind]
  refine ensures_peekToken fun token rest htok => ?_
  refine ensures_ite (fun hdata => ?_) fun _ => ?_
  · refine ensures_skipToken htok (hlast _ ⟨hb.states, hb.error, by simp [hdata]⟩ ?_)
    simp [htok]
  · exact hlast p hb le_rfl

end Documents

/-- **`yaml_parser_state_machine`**: the next event is accepted. -/
theorem ensures_stateMachine {p : YamlParser} {c : Composer CString} (hfits : ParserFits p c)
    (hend : p.state ≠ .endState) :
    stateMachine.Ensures (Next c p.rank) Failed p := by
  have hended : p.streamEndProduced = false := by
    cases h : p.streamEndProduced with
    | false => rfl
    | true => exact absurd (hfits.ended h) hend
  have hfirst := hfits.first
  have hrank : p.rank = p.stock + p.state.rank := rfl
  obtain ⟨hat, herr, -, -⟩ := hfits
  unfold stateMachine
  rw [ensures_bind, ensures_get]
  generalize hs : p.state = s at hat hfirst hrank hend
  generalize hstates : p.states = states at hat
  have hbusy : ∀ {fs}, Conts states fs → Busy p fs := fun h => ⟨hstates ▸ h, herr, hended⟩
  -- what has been read so far says which states the parser can be in
  cases hat with
  | streamStart =>
    exact ensures_parseStreamStart ⟨hstates, herr, hended⟩ (hrank ▸ Nat.le_add_right _ _)
  | implicitDocumentStart =>
    refine ensures_parseDocumentStart ⟨hstates, herr, hended⟩ ?_
    rw [hrank, if_pos rfl]
    exact Nat.lt_succ_self _
  | documentStart =>
    exact ensures_parseDocumentStart ⟨hstates, herr, hended⟩ (hrank ▸ Nat.lt_succ_self _)
  | documentContent h => exact ensures_parseDocumentContent (hbusy h) (hrank ▸ Nat.lt_succ_self _)
  | documentEnd =>
    exact ensures_parseDocumentEnd ⟨hstates, herr, hended⟩ (hrank ▸ Nat.lt_succ_self _)
  | endState => exact absurd rfl hend
  | node hnode h =>
    cases s <;> cases hnode <;> exact ensures_parseNode (hbusy h) (hrank ▸ Nat.lt_succ_self _)
  | item hitem h =>
    cases s <;> cases hitem
    · exact ensures_parseBlockSequenceEntry (hbusy h) hfirst (hrank ▸ Nat.lt_succ_self _)
    · exact ensures_parseBlockSequenceEntry (hbusy h) hfirst (hrank ▸ Nat.lt_succ_self _)
    · exact ensures_parseIndentlessSequenceEntry (hbusy h) (hrank ▸ Nat.lt_succ_self _)
    · exact ensures_parseFlowSequenceEntry (hbusy h) hfirst (hrank ▸ Nat.lt_succ_self _)
    · exact ensures_parseFlowSequenceEntry (hbusy h) hfirst (hrank ▸ Nat.lt_succ_self _)
  | key hkey h =>
    cases s <;> cases hkey
    · exact ensures_parseBlockMappingKey (hbusy h) hfirst (hrank ▸ Nat.lt_succ_self _)
    · exact ensures_parseBlockMappingKey (hbusy h) hfirst (hrank ▸ Nat.lt_succ_self _)
    · exact ensures_parseFlowMappingKey (hbusy h) hfirst (hrank ▸ Nat.lt_succ_self _)
    · exact ensures_parseFlowMappingKey (hbusy h) hfirst (hrank ▸ Nat.lt_succ_self _)
  | value hvalue h =>
    cases s <;> cases hvalue
    · exact ensures_parseBlockMappingValue (hbusy h) (hrank ▸ Nat.lt_succ_self _)
    · exact ensures_parseFlowMappingValue (hbusy h) (hrank ▸ Nat.lt_succ_self _)
    · exact ensures_parseFlowMappingValue (hbusy h) (hrank ▸ Nat.lt_succ_self _)
  | pairKey h =>
    exact ensures_parseFlowSequenceEntryMappingKey (hbusy h) (hrank ▸ Nat.lt_succ_self _)
  | pairValue h =>
    exact ensures_parseFlowSequenceEntryMappingValue (hbusy h) (hrank ▸ Nat.lt_succ_self _)
  | pairEnd h =>
    exact ensures_parseFlowSequenceEntryMappingEnd (hbusy h) (hrank ▸ Nat.lt_succ_self _)

end YamlParser

open YamlParser

/-- **An event is accepted, and the rank falls.** -/
theorem yamlParserParse_ensures {p : YamlParser} {c : Composer CString} (hfits : ParserFits p c)
    (hend : p.state ≠ .endState) :
    yamlParserParse.Ensures (Next c p.rank) Failed p := by
  unfold yamlParserParse
  rw [ensures_bind, ensures_get]
  refine ensures_ite (fun h => ?_) fun _ => ensures_stateMachine hfits hend
  rcases h with h | h | h
  · exact absurd (hfits.ended h) hend
  · rw [hfits.error] at h
    cases h
  · exact absurd h hend

/-! ### Runs of the parser -/

theorem ParserFits.endState_iff {p : YamlParser} {c : Composer CString} (h : ParserFits p c) :
    p.state = .endState ↔ ∃ docs, c = .finished docs := by
  have hat := h.stands
  generalize p.state = s at hat
  generalize p.states = states at hat
  constructor
  · rintro rfl
    cases hat with
    | endState => exact ⟨_, rfl⟩
    | node hs _ => cases hs
    | item hs _ => cases hs
    | key hs _ => cases hs
    | value hs _ => cases hs
  · rintro ⟨docs, rfl⟩
    cases hat
    rfl

theorem fits_initial (tokens : List YamlToken) (failure : YamlProblem) :
    ParserFits (.initial tokens failure) .start where
  stands := .streamStart
  error := rfl
  ended := fun h => by cases h
  first := fun h => by cases h

/-- How the events of a parser end: with the stream, or with an error behind a part of one. -/
inductive ParserOutcome (c : Composer CString) (es : List CEvent) (q : YamlParser) : Prop
  | finished (docs) (h : c.run es = some (.finished docs))
  | failed (c') (h : c.run es = some c') (hc : ∀ docs, c' ≠ .finished docs) (r)
      (hr : yamlParserParse q = (.failed, r)) (herr : Failed r)

/-- **The parser comes to an end**: its events are those of a stream or the beginning of one,
and there are no more than six for a token. -/
theorem yamlParser_yields {p : YamlParser} {c : Composer CString} (hfits : ParserFits p c) :
    ∃ es q, Yields yamlParserParse p es q ∧ es.length ≤ p.rank ∧ (∀ e ∈ es, Supported e) ∧
      ParserOutcome c es q := by
  induction hn : p.rank using Nat.strong_induction_on generalizing p c with
  | _ n ih =>
  subst hn
  by_cases hend : p.state = .endState
  · obtain ⟨docs, rfl⟩ := hfits.endState_iff.mp hend
    exact ⟨[], p, rfl, Nat.zero_le _, by simp, .finished docs rfl⟩
  · rcases (yamlParserParse_ensures hfits hend).cases with ⟨e, p', hp', hnext⟩ | ⟨r, hr, herr⟩
    · obtain ⟨⟨c', hc', hfits'⟩, hsup, hrank⟩ := hnext
      obtain ⟨es, q, hes, hlen, hall, hout⟩ := ih _ hrank hfits' rfl
      have hrun : c.run (e :: es) = c'.run es := by
        rw [Composer.run_cons, hc', Option.bind_some]
      refine ⟨e :: es, q, ⟨p', hp', hes⟩, ?_, ?_, ?_⟩
      · rw [List.length_cons]
        omega
      · intro e' he'
        rcases List.mem_cons.mp he' with rfl | he'
        · exact hsup
        · exact hall e' he'
      · cases hout with
        | finished docs h => exact .finished docs (hrun.trans h)
        | failed c'' h hc r hr herr => exact .failed c'' (hrun.trans h) hc r hr herr
    · refine ⟨[], p, rfl, Nat.zero_le _, by simp, .failed c rfl ?_ r hr herr⟩
      rintro docs rfl
      exact hend (hfits.endState_iff.mpr ⟨docs, rfl⟩)

/-- A stream that is over has nothing more to come, and the parser says so. -/
theorem yamlParserParse_endState {p : YamlParser} (h : p.state = .endState) :
    yamlParserParse p = (.done .none, p) := by
  have hover : p.streamEndProduced ∨ p.error.isSome ∨ p.state = .endState := .inr (.inr h)
  exact congrFun (if_pos hover) p

/-- Wherever the parser is called, its events so far are read, with nothing behind the end. -/
theorem ParserFits.of_yields {p q : YamlParser} {c : Composer CString} {es : List CEvent}
    (hfits : ParserFits p c) (h : Yields yamlParserParse p es q) :
    ∃ es' n c', es = es' ++ List.replicate n .none ∧ c.run es' = some c' ∧ ParserFits q c' ∧
      es'.length + q.rank ≤ p.rank ∧ (n ≠ 0 → ∃ docs, c' = .finished docs) := by
  induction es generalizing p c with
  | nil =>
    obtain rfl : p = q := h
    exact ⟨[], 0, c, rfl, rfl, hfits, by simp, fun h => absurd rfl h⟩
  | cons e es ih =>
    obtain ⟨t, ht, h⟩ := h
    by_cases hend : p.state = .endState
    · rw [yamlParserParse_endState hend] at ht
      cases ht
      obtain ⟨es', n, c', rfl, hrun, hfits', hrank, -⟩ := ih hfits h
      obtain ⟨docs, rfl⟩ := hfits.endState_iff.mp hend
      -- the composer takes no event behind the end
      obtain rfl : es' = [] := by
        cases es' with
        | nil => rfl
        | cons e es' =>
          rw [Composer.run_cons] at hrun
          cases hrun
      cases hrun
      exact ⟨[], n + 1, _, rfl, rfl, hfits', hrank, fun _ => ⟨docs, rfl⟩⟩
    · rcases (yamlParserParse_ensures hfits hend).cases with ⟨e', p', hp', hnext⟩ | ⟨r, hr, -⟩
      · rw [hp'] at ht
        cases ht
        obtain ⟨⟨c₁, hc₁, hfits₁⟩, -, hlt⟩ := hnext
        obtain ⟨es', n, c', rfl, hrun, hfits', hrank, hover⟩ := ih hfits₁ h
        refine ⟨e :: es', n, c', rfl, ?_, hfits', ?_, hover⟩
        · rw [Composer.run_cons, hc₁, Option.bind_some, hrun]
        · rw [List.length_cons]
          omega
      · rw [hr] at ht
        cases ht

/-- The tokens of `a: [b]`, with the sequence in block style. -/
def nestedTokens : List YamlToken :=
  [.streamStart, .blockMappingStart, .key, .scalar "a".toList, .value, .blockSequenceStart,
    .blockEntry, .scalar "b".toList, .blockEnd, .blockEnd, .streamEnd].map fun data => ⟨data, 0⟩

/-- The events of `a: [b]`. -/
def nestedEvents : List CEvent :=
  [.streamStart, .documentStart none, .mappingStart, .scalar "a".toList, .sequenceStart,
    .scalar "b".toList, .sequenceEnd, .mappingEnd, .documentEnd, .streamEnd]

end Newiup
