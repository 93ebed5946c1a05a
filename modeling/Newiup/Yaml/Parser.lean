import Newiup.Fs
import Newiup.Start
import Newiup.Yaml.Document

/-!
# The events of a stream of tokens

`yaml_parser_parse` hands out the next event.  It is a state machine over the tokens of the
scanner, with a stack of the states to go on with.  The scanner delivers tokens as long as
it can and fails behind them.

A function of the parser is a program over the machine: it returns an event, fails with a
problem and its line, or does what is undefined, such as taking a state from an empty
stack.  The states and the functions are those of the source.  Only
`yaml_parser_parse_node` is taken apart, into the properties of a node, the look-up of its
tag and its content, so that what is said of each can be proved on its own.

## Main definitions

* `YamlToken`, `YamlParser` — the tokens and the machine.
* `yamlParserParse` — the next event.
-/

namespace Newiup

/-- The type of a token, with its data; the names of anchors and aliases are not used. -/
inductive YamlTokenData
  | streamStart
  | streamEnd
  | versionDirective (major minor : ℤ)
  | tagDirective (handle lead : CString)
  | documentStart
  | documentEnd
  | blockSequenceStart
  | blockMappingStart
  | blockEnd
  | flowSequenceStart
  | flowSequenceEnd
  | flowMappingStart
  | flowMappingEnd
  | blockEntry
  | flowEntry
  | key
  | value
  | alias
  | anchor
  | tag (handle suffix : CString)
  | scalar (value : CString)
  deriving DecidableEq

/-- The tokens of an explicit document or of the end of the stream. -/
def YamlTokenData.startsDocument : YamlTokenData → Bool
  | .versionDirective _ _ => true
  | .tagDirective _ _ => true
  | .documentStart => true
  | .streamEnd => true
  | _ => false

/-- `yaml_token_t`. -/
structure YamlToken where
  /-- `type` and `data`. -/
  data : YamlTokenData
  /-- `start_mark.line`. -/
  line : ℕ
  deriving DecidableEq

/-- `yaml_parser_state_t`. -/
inductive YamlParserState
  | streamStart
  | implicitDocumentStart
  | documentStart
  | documentContent
  | documentEnd
  | blockNode
  | blockNodeOrIndentlessSequence
  | flowNode
  | blockSequenceFirstEntry
  | blockSequenceEntry
  | indentlessSequenceEntry
  | blockMappingFirstKey
  | blockMappingKey
  | blockMappingValue
  | flowSequenceFirstEntry
  | flowSequenceEntry
  | flowSequenceEntryMappingKey
  | flowSequenceEntryMappingValue
  | flowSequenceEntryMappingEnd
  | flowMappingFirstKey
  | flowMappingKey
  | flowMappingValue
  | flowMappingEmptyValue
  | endState
  deriving DecidableEq

/-- What is wrong, and in which line. -/
structure YamlProblem where
  /-- `problem`. -/
  problem : CString
  /-- `problem_mark.line`. -/
  line : ℕ
  deriving DecidableEq

/-- `yaml_parser_t`. -/
structure YamlParser where
  /-- The tokens the scanner has still to deliver. -/
  tokens : List YamlToken
  /-- What the scanner fails with behind them. -/
  failure : YamlProblem
  /-- `states`, the top first. -/
  states : List YamlParserState
  /-- `state`. -/
  state : YamlParserState
  /-- `tag_directives`: handles and prefixes. -/
  tagDirectives : List (CString × CString)
  /-- `stream_end_produced`. -/
  streamEndProduced : Bool
  /-- `error`, with `problem` and `problem_mark`. -/
  error : Option YamlProblem
  deriving DecidableEq

/-- A parser that is initialised. -/
def YamlParser.initial (tokens : List YamlToken) (failure : YamlProblem) : YamlParser :=
  ⟨tokens, failure, [], .streamStart, [], false, none⟩

/-- A computation of the parser; its events have scalars that are strings. -/
abbrev ParserM (α : Type) : Type := Start YamlParser α

/-- An event with a string as scalar. -/
abbrev CEvent : Type := YamlEvent CString

namespace YamlParser

/-- `PEEK_TOKEN`, and the return where it gives no token. -/
def peekToken : ParserM YamlToken := fun p =>
  match p.tokens with
  | token :: _ => (.done token, p)
  | [] => (.failed, { p with error := some p.failure })

/-- `PEEK_TOKEN`, and the use of the token without a test. -/
def peekTokenUnchecked : ParserM YamlToken := fun p =>
  match p.tokens with
  | token :: _ => (.done token, p)
  | [] => (.crash, { p with error := some p.failure })

/-- `SKIP_TOKEN`. -/
def skipToken : ParserM Unit := fun p =>
  match p.tokens with
  | token :: rest =>
      (.done (), { p with tokens := rest, streamEndProduced := token.data = .streamEnd })
  | [] => (.crash, p)

/-- `parser->state = ...`. -/
def setState (s : YamlParserState) : ParserM Unit := Start.modify fun p => { p with state := s }

/-- `PUSH(parser, parser->states, ...)`. -/
def pushState (s : YamlParserState) : ParserM Unit :=
  Start.modify fun p => { p with states := s :: p.states }

/-- `parser->state = POP(parser, parser->states)`. -/
def popState : ParserM Unit := fun p =>
  match p.states with
  | s :: states => (.done (), { p with state := s, states := states })
  | [] => (.crash, p)

/-- `yaml_parser_set_parser_error`. -/
def setParserError {α : Type} (problem : String) (line : ℕ) : ParserM α := fun p =>
  (.failed, { p with error := some ⟨problem.toList, line⟩ })

/-- `yaml_parser_process_empty_scalar`. -/
def processEmptyScalar : ParserM CEvent := pure (.scalar [])

/-- `yaml_parser_append_tag_directive`. -/
def appendTagDirective (handle lead : CString) (allowDuplicates : Bool) (line : ℕ) :
    ParserM Unit := do
  let p ← Start.get
  if p.tagDirectives.any fun d => d.1 = handle then
    if allowDuplicates then pure () else setParserError "found duplicate %TAG directive" line
  else
    Start.modify fun p => { p with tagDirectives := p.tagDirectives ++ [(handle, lead)] }

/-- The loop of `yaml_parser_process_directives`, for so many turns at most. -/
def processDirectivesFrom (version : Option (ℤ × ℤ)) : ℕ → ParserM (Option (ℤ × ℤ))
  | 0 => Start.crash
  | n + 1 => do
    let token ← peekToken
    match token.data with
    | .versionDirective major minor =>
        if version.isSome then
          setParserError "found duplicate %YAML directive" token.line
        else if major ≠ 1 ∨ minor ≠ 1 then
          setParserError "found incompatible YAML document" token.line
        else do
          skipToken
          processDirectivesFrom (some (major, minor)) n
    | .tagDirective handle lead => do
        appendTagDirective handle lead false token.line
        skipToken
        processDirectivesFrom version n
    | _ => do
        appendTagDirective "!".toList "!".toList true token.line
        appendTagDirective "!!".toList "tag:yaml.org,2002:".toList true token.line
        pure version

/-- `yaml_parser_process_directives`; each turn of its loop takes a token. -/
def processDirectives : ParserM (Option (ℤ × ℤ)) := do
  let p ← Start.get
  processDirectivesFrom none (p.tokens.length + 1)

/-- The extra document ends in front of a document, for so many at most. -/
def skipDocumentEnds : ℕ → ParserM YamlToken
  | 0 => Start.crash
  | n + 1 => do
    let token ← peekToken
    if token.data = .documentEnd then do
      skipToken
      skipDocumentEnds n
    else pure token

/-- `yaml_parser_parse_stream_start`. -/
def parseStreamStart : ParserM CEvent := do
  let token ← peekToken
  if token.data ≠ .streamStart then
    setParserError "did not find expected <stream-start>" token.line
  else do
    setState .implicitDocumentStart
    skipToken
    pure .streamStart

/-- The first token of what follows; extra document ends are skipped behind a document. -/
def firstToken (implicit : Bool) : ParserM YamlToken := do
  let p ← Start.get
  if implicit then peekToken else skipDocumentEnds (p.tokens.length + 1)

/-- `yaml_parser_parse_document_start`. -/
def parseDocumentStart (implicit : Bool) : ParserM CEvent := do
  let token ← firstToken implicit
  if implicit ∧ token.data.startsDocument = false then do
    let _ ← processDirectives
    pushState .documentEnd
    setState .blockNode
    pure (.documentStart none)
  else if token.data ≠ .streamEnd then do
    let version ← processDirectives
    let token ← peekToken
    if token.data ≠ .documentStart then
      setParserError "did not find expected <document start>" token.line
    else do
      pushState .documentEnd
      setState .documentContent
      skipToken
      pure (.documentStart version)
  else do
    setState .endState
    skipToken
    pure .streamEnd

/-- The properties of a node: whether it has an anchor, its tag with its line, and the token
behind them. -/
def parseProperties (token : YamlToken) :
    ParserM (Bool × Option (CString × CString × ℕ) × YamlToken) :=
  match token.data with
  | .anchor => do
      skipToken
      let token ← peekToken
      match token.data with
      | .tag handle suffix => do
          skipToken
          let next ← peekToken
          pure (true, some (handle, suffix, token.line), next)
      | _ => pure (true, none, token)
  | .tag handle suffix => do
      skipToken
      let next ← peekToken
      if next.data = .anchor then do
        skipToken
        let last ← peekToken
        pure (true, some (handle, suffix, token.line), last)
      else pure (false, some (handle, suffix, token.line), next)
  | _ => pure (false, none, token)

/-- The tag of a node has a handle that is known. -/
def checkTag (tag : Option (CString × CString × ℕ)) : ParserM Unit := do
  let p ← Start.get
  match tag with
  | none => pure ()
  | some (handle, _, line) =>
      if handle = [] then pure ()
      else if p.tagDirectives.any fun d => d.1 = handle then pure ()
      else setParserError "found undefined tag handle" line

/-- What `yaml_parser_parse_node` does behind the properties: it tells what begins here by the
token, and with properties alone the node is an empty scalar. -/
def nodeContent (block indentlessSequence anchor : Bool)
    (tag : Option (CString × CString × ℕ)) (token : YamlToken) : ParserM CEvent :=
  if indentlessSequence ∧ token.data = .blockEntry then do
    setState .indentlessSequenceEntry
    pure .sequenceStart
  else
    match token.data with
    | .scalar value => do
        popState
        skipToken
        pure (.scalar value)
    | data =>
      if data = .flowSequenceStart then do
        setState .flowSequenceFirstEntry
        pure .sequenceStart
      else if data = .flowMappingStart then do
        setState .flowMappingFirstKey
        pure .mappingStart
      else if block ∧ data = .blockSequenceStart then do
        setState .blockSequenceFirstEntry
        pure .sequenceStart
      else if block ∧ data = .blockMappingStart then do
        setState .blockMappingFirstKey
        pure .mappingStart
      else if anchor ∨ tag.isSome then do
        popState
        pure (.scalar [])
      else
        setParserError "did not find expected node content" token.line

/-- `yaml_parser_parse_node`. -/
def parseNode (block indentlessSequence : Bool) : ParserM CEvent := do
  let token ← peekToken
  if token.data = .alias then do
    popState
    skipToken
    pure .alias
  else do
    let (anchor, tag, token) ← parseProperties token
    checkTag tag
    nodeContent block indentlessSequence anchor tag token

/-- `yaml_parser_parse_document_content`. -/
def parseDocumentContent : ParserM CEvent := do
  let token ← peekToken
  if token.data.startsDocument ∨ token.data = .documentEnd then do
    popState
    processEmptyScalar
  else parseNode true false

/-- The end of a document, where it is written. -/
def skipDocumentEnd : ParserM Unit := do
  let token ← peekToken
  if token.data = .documentEnd then skipToken else pure ()

/-- `yaml_parser_parse_document_end`. -/
def parseDocumentEnd : ParserM CEvent := do
  skipDocumentEnd
  Start.modify fun p => { p with tagDirectives := [] }
  setState .documentStart
  pure .documentEnd

/-- The start token of a collection. -/
def skipFirst (first : Bool) : ParserM Unit :=
  if first then do
    let _ ← peekTokenUnchecked
    skipToken
  else pure ()

/-- `yaml_parser_parse_block_sequence_entry`. -/
def parseBlockSequenceEntry (first : Bool) : ParserM CEvent := do
  skipFirst first
  let token ← peekToken
  if token.data = .blockEntry then do
    skipToken
    let token ← peekToken
    if token.data ≠ .blockEntry ∧ token.data ≠ .blockEnd then do
      pushState .blockSequenceEntry
      parseNode true false
    else do
      setState .blockSequenceEntry
      processEmptyScalar
  else if token.data = .blockEnd then do
    popState
    skipToken
    pure .sequenceEnd
  else setParserError "did not find expected '-' indicator" token.line

/-- `yaml_parser_parse_indentless_sequence_entry`. -/
def parseIndentlessSequenceEntry : ParserM CEvent := do
  let token ← peekToken
  if token.data = .blockEntry then do
    skipToken
    let token ← peekToken
    if token.data ≠ .blockEntry ∧ token.data ≠ .key ∧ token.data ≠ .value ∧
        token.data ≠ .blockEnd then do
      pushState .indentlessSequenceEntry
      parseNode true false
    else do
      setState .indentlessSequenceEntry
      processEmptyScalar
  else do
    popState
    pure .sequenceEnd

/-- `yaml_parser_parse_block_mapping_key`. -/
def parseBlockMappingKey (first : Bool) : ParserM CEvent := do
  skipFirst first
  let token ← peekToken
  if token.data = .key then do
    skipToken
    let token ← peekToken
    if token.data ≠ .key ∧ token.data ≠ .value ∧ token.data ≠ .blockEnd then do
      pushState .blockMappingValue
      parseNode true true
    else do
      setState .blockMappingValue
      processEmptyScalar
  else if token.data = .blockEnd then do
    popState
    skipToken
    pure .mappingEnd
  else setParserError "did not find expected key" token.line

/-- `yaml_parser_parse_block_mapping_value`. -/
def parseBlockMappingValue : ParserM CEvent := do
  let token ← peekToken
  if token.data = .value then do
    skipToken
    let token ← peekToken
    if token.data ≠ .key ∧ token.data ≠ .value ∧ token.data ≠ .blockEnd then do
      pushState .blockMappingKey
      parseNode true true
    else do
      setState .blockMappingKey
      processEmptyScalar
  else do
    setState .blockMappingKey
    processEmptyScalar

/-- The comma in front of an entry that is not the first one. -/
def skipFlowEntry (first : Bool) (problem : String) (token : YamlToken) : ParserM YamlToken :=
  if first then pure token
  else if token.data = .flowEntry then do
    skipToken
    peekToken
  else setParserError problem token.line

/-- `yaml_parser_parse_flow_sequence_entry`. -/
def parseFlowSequenceEntry (first : Bool) : ParserM CEvent := do
  skipFirst first
  let token ← peekToken
  if token.data ≠ .flowSequenceEnd then do
    let token ← skipFlowEntry first "did not find expected ',' or ']'" token
    if token.data = .key then do
      setState .flowSequenceEntryMappingKey
      skipToken
      pure .mappingStart
    else if token.data ≠ .flowSequenceEnd then do
      pushState .flowSequenceEntry
      parseNode false false
    else do
      popState
      skipToken
      pure .sequenceEnd
  else do
    popState
    skipToken
    pure .sequenceEnd

/-- `yaml_parser_parse_flow_sequence_entry_mapping_key`. -/
def parseFlowSequenceEntryMappingKey : ParserM CEvent := do
  let token ← peekToken
  if token.data ≠ .value ∧ token.data ≠ .flowEntry ∧ token.data ≠ .flowSequenceEnd then do
    pushState .flowSequenceEntryMappingValue
    parseNode false false
  else do
    skipToken
    setState .flowSequenceEntryMappingValue
    processEmptyScalar

/-- `yaml_parser_parse_flow_sequence_entry_mapping_value`. -/
def parseFlowSequenceEntryMappingValue : ParserM CEvent := do
  let token ← peekToken
  if token.data = .value then do
    skipToken
    let token ← peekToken
    if token.data ≠ .flowEntry ∧ token.data ≠ .flowSequenceEnd then do
      pushState .flowSequenceEntryMappingEnd
      parseNode false false
    else do
      setState .flowSequenceEntryMappingEnd
      processEmptyScalar
  else do
    setState .flowSequenceEntryMappingEnd
    processEmptyScalar

/-- `yaml_parser_parse_flow_sequence_entry_mapping_end`. -/
def parseFlowSequenceEntryMappingEnd : ParserM CEvent := do
  let _ ← peekToken
  setState .flowSequenceEntry
  pure .mappingEnd

/-- `yaml_parser_parse_flow_mapping_key`. -/
def parseFlowMappingKey (first : Bool) : ParserM CEvent := do
  skipFirst first
  let token ← peekToken
  if token.data ≠ .flowMappingEnd then do
    let token ← skipFlowEntry first "did not find expected ',' or '\x7d'" token
    if token.data = .key then do
      skipToken
      let token ← peekToken
      if token.data ≠ .value ∧ token.data ≠ .flowEntry ∧ token.data ≠ .flowMappingEnd then do
        pushState .flowMappingValue
        parseNode false false
      else do
        setState .flowMappingValue
        processEmptyScalar
    else if token.data ≠ .flowMappingEnd then do
      pushState .flowMappingEmptyValue
      parseNode false false
    else do
      popState
      skipToken
      pure .mappingEnd
  else do
    popState
    skipToken
    pure .mappingEnd

/-- `yaml_parser_parse_flow_mapping_value`. -/
def parseFlowMappingValue (empty : Bool) : ParserM CEvent := do
  let token ← peekToken
  if empty then do
    setState .flowMappingKey
    processEmptyScalar
  else if token.data = .value then do
    skipToken
    let token ← peekToken
    if token.data ≠ .flowEntry ∧ token.data ≠ .flowMappingEnd then do
      pushState .flowMappingKey
      parseNode false false
    else do
      setState .flowMappingKey
      processEmptyScalar
  else do
    setState .flowMappingKey
    processEmptyScalar

/-- `yaml_parser_state_machine`. -/
def stateMachine : ParserM CEvent := do
  let p ← Start.get
  match p.state with
  | .streamStart => parseStreamStart
  | .implicitDocumentStart => parseDocumentStart true
  | .documentStart => parseDocumentStart false
  | .documentContent => parseDocumentContent
  | .documentEnd => parseDocumentEnd
  | .blockNode => parseNode true false
  | .blockNodeOrIndentlessSequence => parseNode true true
  | .flowNode => parseNode false false
  | .blockSequenceFirstEntry => parseBlockSequenceEntry true
  | .blockSequenceEntry => parseBlockSequenceEntry false
  | .indentlessSequenceEntry => parseIndentlessSequenceEntry
  | .blockMappingFirstKey => parseBlockMappingKey true
  | .blockMappingKey => parseBlockMappingKey false
  | .blockMappingValue => parseBlockMappingValue
  | .flowSequenceFirstEntry => parseFlowSequenceEntry true
  | .flowSequenceEntry => parseFlowSequenceEntry false
  | .flowSequenceEntryMappingKey => parseFlowSequenceEntryMappingKey
  | .flowSequenceEntryMappingValue => parseFlowSequenceEntryMappingValue
  | .flowSequenceEntryMappingEnd => parseFlowSequenceEntryMappingEnd
  | .flowMappingFirstKey => parseFlowMappingKey true
  | .flowMappingKey => parseFlowMappingKey false
  | .flowMappingValue => parseFlowMappingValue false
  | .flowMappingEmptyValue => parseFlowMappingValue true
  | .endState => Start.fail

end YamlParser

/-- `yaml_parser_parse`. -/
def yamlParserParse : ParserM CEvent := do
  let p ← Start.get
  if p.streamEndProduced ∨ p.error.isSome ∨ p.state = .endState then
    pure .none
  else YamlParser.stateMachine

end Newiup
