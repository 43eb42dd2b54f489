import Hashmark.Callable.Policy
import Hashmark.Expression.Parser
import Hashmark.Marker.Balance
import Hashmark.Marker.Lexer

/-!
# Template trees from sources

A source is split into segments, its blocks are checked for balance, and a builder turns the
segments into a tree. The builder keeps a stack of open blocks, of which the outermost stands for
the template. Every expression is checked against the tables of callables when it enters the tree,
so a tree holds no denied and no unknown callee.
-/

namespace Hashmark

/-- A template before layouts and partials are resolved. -/
structure Template where
  /-- The layout that the template extends, and where it says so. -/
  layout : Option (String × Span)
  nodes : List Node
  deriving Repr

/-- What a source is read against: the registered directives and the tables of callables. -/
structure Language where
  directives : Directives
  callables : Callables

namespace Builder

/-- A block whose closing directive is still to come, with what its opening directive says. -/
inductive Block where
  | root
  /-- The branches that are complete, and the condition of the present one; `#else` has none. -/
  | choice (branches : List (Expr × List Node)) (condition : Option Expr)
  | loop (source : Expr) (key : Option String) (value : String)
  | part (name : String)

/-- An open block with its nodes so far, last node first. -/
structure Frame where
  block : Block
  nodes : List Node

namespace Frame

/-- Adds a node. -/
def push (f : Frame) (n : Node) : Frame :=
  { f with nodes := n :: f.nodes }

/-- Adds literal text, joined to literal text right before it. -/
def pushText (f : Frame) (text : String) : Frame :=
  if text = "" then f
  else
    match f.nodes with
    | .text before :: nodes => { f with nodes := .text (before ++ text) :: nodes }
    | nodes => { f with nodes := .text text :: nodes }

/-- The nodes in the order of the text. -/
def body (f : Frame) : List Node :=
  f.nodes.reverse

end Frame

/-- The open blocks, and the layout if `#extends` was met. -/
structure State where
  top : Frame
  below : List Frame
  layout : Option (String × Span)

namespace State

/-- Before the first segment. -/
def initial : State :=
  ⟨⟨.root, []⟩, [], none⟩

/-- Adds a node to the innermost block. -/
def push (s : State) (n : Node) : State :=
  { s with top := s.top.push n }

/-- Adds literal text to the innermost block. -/
def pushText (s : State) (text : String) : State :=
  { s with top := s.top.pushText text }

/-- Opens a block. -/
def enter (s : State) (b : Block) : State :=
  { s with top := ⟨b, []⟩, below := s.top :: s.below }

end State

/-! ### Arguments -/

/-- An error in an expression of a marker: one byte at the fault, as far as the source goes. -/
def exprError (source : Source) (m : Marker) (role : ExprRole) (e : Expression.ExprError) :
    TemplateError :=
  let start := min (m.argsStart + e.offset) source.size
  source.malformed (.invalidExpr role e.fault) ⟨start, max (min (start + 1) source.size) start⟩

/-- Whether a character may be part of a longer name around a callee. -/
def isWordChar (c : Char) : Bool :=
  Expression.isNameChar c || c == '$'

/-- The byte at which `word` first stands as a whole word in a text. -/
def findWord (word text : List Char) : Option Nat :=
  let whole := (Text.occurrences word [] 0 text).find? fun (before, rest) =>
    !before.getLast?.any isWordChar && !rest.head?.any isWordChar
  whole.map fun (before, _) => byteCount before

/-- The error for a violation, at the callee if it is written in the arguments of the marker. -/
def violationError (source : Source) (callables : Callables) (m : Marker) (v : Violation) :
    TemplateError :=
  let span := match m.args.bind fun args => findWord v.name.toList args.toList with
    | some offset =>
      ⟨m.argsStart + offset, m.argsStart + offset + v.name.utf8ByteSize⟩
    | none => m.span
  let place := source.place span
  match v with
  | .blocked name => .blocked name place
  | .unknownFunction name => .unknownFunction name callables.functionNames place
  | .unknownFilter name => .unknownFilter name callables.filterNames place

/-- Checks an expression against the tables of callables. -/
def checkExpr (source : Source) (callables : Callables) (m : Marker) (e : Expr) :
    Except TemplateError Unit :=
  match e.violation? callables with
  | none => .ok ()
  | some v => .error (violationError source callables m v)

/-- The expression that a text in the arguments of a marker stands for, checked. -/
def readExpr (source : Source) (callables : Callables) (m : Marker) (role : ExprRole)
    (text : String) : Except TemplateError Expr := do
  let e ← (parseExpr text).mapError (exprError source m role)
  checkExpr source callables m e
  pure e

/-- The name of a variable written with `$`. -/
def bindingName? (cs : List Char) : Option String :=
  match Text.trimChars cs with
  | '$' :: name => if Expression.isName name then some (String.ofList name) else none
  | _ => none

/-- The text before the last `as` of a loop header, and the text after it. The word counts only
outside of brackets and quotes and between blanks. -/
structure HeaderScan where
  depth : Int
  quote : Option Char
  /-- Whether the character before is a blank. -/
  afterBlank : Bool

/-- Splits a loop header; `before` is the text that was passed, last character first. -/
def splitHeader (s : HeaderScan) (before : List Char) : List Char →
    Option (List Char × List Char)
  | [] => none
  | c :: cs =>
    match s.quote with
    | some q =>
      if c = '\\' then
        match cs with
        | [] => none
        | e :: cs => splitHeader { s with afterBlank := Text.isAsciiBlank e } (e :: c :: before) cs
      else
        let quote := if c = q then none else s.quote
        splitHeader ⟨s.depth, quote, Text.isAsciiBlank c⟩ (c :: before) cs
    | none =>
      let depth := if c = '(' ∨ c = '[' then s.depth + 1
        else if c = ')' ∨ c = ']' then s.depth - 1 else s.depth
      let quote := if c = '\'' ∨ c = '"' then some c else none
      let later := splitHeader ⟨depth, quote, Text.isAsciiBlank c⟩ (c :: before) cs
      match later, cs with
      | some split, _ => some split
      | none, 's' :: d :: rest =>
        if c = 'a' ∧ s.depth = 0 ∧ s.afterBlank ∧ Text.isAsciiBlank d then
          some (before.reverse, d :: rest)
        else none
      | none, _ => none

/-- The pieces of a text between the occurrences of `=>`. -/
def splitArrows : List Char → List (List Char)
  | [] => [[]]
  | '=' :: '>' :: cs => [] :: splitArrows cs
  | c :: cs =>
    match splitArrows cs with
    | [] => [[c]]
    | piece :: pieces => (c :: piece) :: pieces

/-- The source, the key and the value of a loop: `$items as $item` or `$map as $key => $value`. -/
def loopHeader (source : Source) (callables : Callables) (m : Marker) :
    Except TemplateError (Expr × Option String × String) := do
  let usage := source.malformed .loopHeader m.span
  match splitHeader ⟨0, none, false⟩ [] m.argText.toList with
  | none => throw usage
  | some (iterable, bindings) =>
    let e ← readExpr source callables m .loopSource (String.ofList iterable)
    match (splitArrows bindings).map bindingName? with
    | [some value] => pure (e, none, value)
    | [some key, some value] => pure (e, some key, value)
    | _ => throw usage

/-- The arguments of a marker, which must be between `least` and `most` quoted texts. -/
def textArgs (source : Source) (m : Marker) (least most : Nat) :
    Except TemplateError (List String) := do
  let args ← (parseArgs m.argText).mapError (exprError source m .argument)
  if args.length < least ∨ most < args.length then
    throw (source.malformed (.argumentCount m.name least most) m.span)
  args.mapM fun
    | .lit (.str s) => .ok s
    | _ => .error (source.malformed (.unquotedArgument m.name) m.span)

/-- The one quoted text that the arguments of a marker are. -/
def textArg (source : Source) (m : Marker) : Except TemplateError String := do
  let args ← textArgs source m 1 1
  pure (args.head?.getD "")

/-- The name of a section: the arguments as they are, or a quoted text. -/
def sectionName (source : Source) (m : Marker) : Except TemplateError String :=
  let name := Text.trim m.argText
  if name.startsWith "'" || name.startsWith "\"" then textArg source m else .ok name

/-- The node of a registered directive, with every expression in it checked. -/
def customNode (source : Source) (language : Language) (m : Marker) :
    Except TemplateError Node := do
  match Dict.find? language.directives m.name with
  | none => throw (.unknownDirective m.name language.directives.names (source.place m.span))
  | some directive =>
    match directive.arity, m.args with
    | .none, some _ => throw (source.malformed (.superfluousArguments m.name) m.span)
    | .required, none => throw (source.malformed (.missingArguments m.name) m.span)
    | _, _ =>
      let node ← (directive.handler m.argText).mapError fun message =>
        source.malformed (.handlerFailed m.name message) m.span
      match node.violation? language.callables with
      | none => pure node
      | some v => throw (violationError source language.callables m v)

/-! ### One segment at a time -/

/-- Begins the next branch of the innermost choice; `#else` has no condition. -/
def branch (source : Source) (s : State) (m : Marker) (next : Option Expr) :
    Except TemplateError State :=
  match s.top.block with
  | .choice branches (some condition) =>
    .ok { s with top := ⟨.choice (branches ++ [(condition, s.top.body)]) next, []⟩ }
  | .choice _ none => .error (source.malformed (.branchAfterElse m.name) m.span)
  | _ => .error (source.malformed .branchOutsideChoice m.span)

/-- The node of a block that is closed as a block of the given kind. -/
def closedNode? (f : Frame) (kind : BlockKind) : Option Node :=
  match f.block, kind with
  | .choice branches (some condition), .choice =>
    some (.choose (branches ++ [(condition, f.body)]) none)
  | .choice branches none, .choice => some (.choose branches (some f.body))
  | .loop source key value, .loop => some (.forEach source key value f.body)
  | .part name, .part => some (.block name f.body)
  | _, _ => none

/-- Closes the innermost block. -/
def close (source : Source) (s : State) (m : Marker) (kind : BlockKind) :
    Except TemplateError State :=
  match s.below with
  | [] => .error (source.malformed (.closingWithoutOpening m.name) m.span)
  | frame :: below =>
    match closedNode? s.top kind with
    | some node => .ok { s with top := frame.push node, below := below }
    | none => .error (source.malformed (.closingOfOtherBlock kind) m.span)

/-- The state after a marker. -/
def marker (source : Source) (language : Language) (s : State) (m : Marker) :
    Except TemplateError State := do
  let callables := language.callables
  match m.kind with
  | .escape => pure (s.pushText "#")
  | .comment => pure (s.push (.comment m.argText))
  | .expression =>
    let e ← readExpr source callables m .expression m.argText
    pure (s.push (.emit e))
  | .opening .choice =>
    let e ← readExpr source callables m .condition m.argText
    pure (s.enter (.choice [] (some e)))
  | .opening .loop =>
    let (e, key, value) ← loopHeader source callables m
    pure (s.enter (.loop e key value))
  | .opening .part =>
    let name ← sectionName source m
    pure (s.enter (.part name))
  | .elseIf =>
    let e ← readExpr source callables m .condition m.argText
    branch source s m (some e)
  | .otherwise => branch source s m none
  | .closing kind => close source s m kind
  | .extending =>
    let layout ← textArg source m
    pure { s with layout := some (layout, m.span) }
  | .yield =>
    let args ← textArgs source m 1 2
    pure (s.push (.yield (args.head?.getD "") args[1]?))
  | .connect =>
    let name ← textArg source m
    pure (s.push (.connect name))
  | .custom =>
    match ← customNode source language m with
    | .text t => pure (s.pushText t)
    | node => pure (s.push node)

/-- The state after a segment. -/
def step (source : Source) (language : Language) (s : State) :
    Segment → Except TemplateError State
  | .literal text => .ok (s.pushText text)
  | .marker m => marker source language s m

/-- The template of some segments. -/
def build (source : Source) (language : Language) (segments : List Segment) :
    Except TemplateError Template := do
  let s ← segments.foldlM (step source language) State.initial
  pure ⟨s.layout, s.top.body⟩

end Builder

/-- The segments of a source whose blocks are balanced. -/
def scan (directives : Directives) (source : Source) : Except TemplateError (List Segment) := do
  let segments ← segments directives source
  checkBalance source (segments.filterMap Segment.marker?)
  pure segments

/-- The template of a source. -/
def parseTemplate (language : Language) (source : Source) : Except TemplateError Template := do
  let segments ← scan language.directives source
  Builder.build source language segments

end Hashmark
