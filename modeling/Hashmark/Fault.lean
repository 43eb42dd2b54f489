import Hashmark.Expression.Token

/-!
# What can go wrong with a template

Faults are causes. The wording of each is in one place: `SyntaxFault.message` for faults in the
text of a template, `TemplateError.message` for the line that a user reads.
-/

namespace Hashmark

/-- The three kinds of blocks that a pair of directives encloses. -/
inductive BlockKind where
  | choice
  | loop
  | part
  deriving DecidableEq, Repr

namespace BlockKind

/-- The directive that opens a block. -/
def opening : BlockKind → String
  | .choice => "#if"
  | .loop => "#foreach"
  | .part => "#section"

/-- The directive that closes a block. -/
def closing : BlockKind → String
  | .choice => "#endif"
  | .loop => "#endforeach"
  | .part => "#endsection"

end BlockKind

/-- What an expression is used for. -/
inductive ExprRole where
  | expression
  | condition
  | loopSource
  | argument
  deriving DecidableEq, Repr

/-- How a message names the use of an expression. -/
def ExprRole.text : ExprRole → String
  | .expression => "expression"
  | .condition => "condition"
  | .loopSource => "loop source"
  | .argument => "argument"

/-- A fault in the text of a template. -/
inductive SyntaxFault where
  | unclosedMarker
  | emptyMarker
  | unclosedComment
  | missingArgument (directive : String)
  | missingLayout
  | missingSectionName
  | unclosedBracket (bracket : Char)
  | repeatedExtends (firstLine : Nat)
  | lateExtends
  /-- `#else` or `#elseif` where the innermost open block is not a choice. -/
  | strayBranch (directive : String)
  /-- A closing directive for another kind of block than the innermost open one. -/
  | crossedClosing (closing opened : BlockKind) (openedLine : Nat)
  | strayClosing (closing : BlockKind)
  | unclosedBlock (kind : BlockKind) (opened closed : Nat)
  | invalidExpr (role : ExprRole) (fault : Expression.ExprFault)
  /-- `#else` or `#elseif` after `#else` in one choice. -/
  | branchAfterElse (directive : String)
  | branchOutsideChoice
  | closingWithoutOpening (directive : String)
  | closingOfOtherBlock (kind : BlockKind)
  | loopHeader
  | argumentCount (directive : String) (least most : Nat)
  | unquotedArgument (directive : String)
  | superfluousArguments (directive : String)
  | missingArguments (directive : String)
  | handlerFailed (directive message : String)
  | circularExtends (layout : String)
  | circularConnect (connected : String)
  | extendsInPartial
  deriving DecidableEq, Repr

/-- The message for a fault. -/
def SyntaxFault.message : SyntaxFault → String
  | .unclosedMarker => "unclosed expression marker `#[`"
  | .emptyMarker => "empty expression marker"
  | .unclosedComment => "unclosed comment `#--`"
  | .missingArgument directive => s!"`#{directive}` requires a parenthesized argument"
  | .missingLayout => "`#extends` requires a layout name, as in #extends['layouts.app']"
  | .missingSectionName => "`#section` requires a name"
  | .unclosedBracket bracket => s!"unclosed `{bracket}`"
  | .repeatedExtends firstLine =>
    s!"`#extends` may appear only once (first used on line {firstLine})"
  | .lateExtends => "`#extends` must be the first directive in the template"
  | .strayBranch directive => s!"`#{directive}` without a matching `#if`"
  | .crossedClosing closing opened openedLine =>
    s!"`{closing.closing}` closes `{opened.opening}` opened on line {openedLine}"
  | .strayClosing closing => s!"`{closing.closing}` without a matching opening directive"
  | .unclosedBlock kind opened closed =>
    s!"unclosed `{kind.opening}`: {opened} opened, {closed} closed"
  | .invalidExpr role fault => s!"invalid {role.text}: {fault.message}"
  | .branchAfterElse directive => s!"`#{directive}` after `#else` in the same `#if`"
  | .branchOutsideChoice => "`#else` outside of `#if`"
  | .closingWithoutOpening directive => s!"`#{directive}` without an opening directive"
  | .closingOfOtherBlock kind => s!"`{kind.closing}` without `{kind.opening}`"
  | .loopHeader => "`#foreach` expects `$items as $item` or `$map as $key => $value`"
  | .argumentCount directive least most =>
    let count := if least = most then toString least else s!"{least} to {most}"
    let plural := if most = 1 then "" else "s"
    s!"`#{directive}` expects {count} quoted name{plural}"
  | .unquotedArgument directive => s!"`#{directive}` arguments must be quoted strings"
  | .superfluousArguments directive => s!"`#{directive}` takes no arguments"
  | .missingArguments directive => s!"`#{directive}` requires arguments"
  | .handlerFailed directive message => s!"`#{directive}`: {message}"
  | .circularExtends layout => s!"circular `#extends`: `{layout}` is already in the layout chain"
  | .circularConnect connected => s!"circular `#connect`: `{connected}` includes itself"
  | .extendsInPartial => "a partial cannot use `#extends`"

/-- Why a template could not be found, compiled or rendered. -/
inductive TemplateError where
  | notFound (name : String) (searched : List String)
  | malformed (fault : SyntaxFault) (place : Place)
  | unknownDirective (name : String) (known : List String) (place : Place)
  | unknownFilter (name : String) (known : List String) (place : Place)
  | unknownFunction (name : String) (known : List String) (place : Place)
  /-- A call of a name on the deny-list. -/
  | blocked (name : String) (place : Place)
  /-- A function or a filter failed during rendering. -/
  | failedCall (template callable message : String)
  | unreadable (path : String)
  deriving DecidableEq, Repr

namespace TemplateError

/-- Where the error stands in the text of a template, if it does. -/
def place? : TemplateError → Option Place
  | .malformed _ place | .unknownDirective _ _ place | .unknownFilter _ _ place
  | .unknownFunction _ _ place | .blocked _ place => some place
  | .notFound _ _ | .failedCall _ _ _ | .unreadable _ => none

/-- A message with the template and the line in front. -/
def located (place : Place) (message : String) : String :=
  s!"{place.template}:{place.line}: {message}"

/-- The message for an error. -/
def message : TemplateError → String
  | .notFound name _ => s!"Template `{name}` not found"
  | .malformed fault place => located place fault.message
  | .unknownDirective name _ place => located place s!"unknown directive `#{name}`"
  | .unknownFilter name _ place => located place s!"unknown filter `{name}`"
  | .unknownFunction name _ place => located place s!"unknown function `{name}`"
  | .blocked name place => located place s!"`{name}` may not be called from a template"
  | .failedCall template callable message =>
    s!"Rendering `{template}` failed in `{callable}`: {message}"
  | .unreadable path => s!"Failed to read `{path}`"

/-- The stable code of an error. -/
def code : TemplateError → String
  | .notFound _ _ => "ludou::not_found"
  | .malformed _ _ => "ludou::syntax"
  | .unknownDirective _ _ _ => "ludou::unknown_directive"
  | .unknownFilter _ _ _ => "ludou::unknown_filter"
  | .unknownFunction _ _ _ => "ludou::unknown_function"
  | .blocked _ _ => "ludou::blocked_function"
  | .failedCall _ _ _ => "ludou::render"
  | .unreadable _ => "ludou::io"

/-- A list of names in a help text. -/
def listed (names : List String) : String :=
  ", ".intercalate names

/-- The advice that comes with an error. -/
def help? : TemplateError → Option String
  | .notFound _ searched => some ("Searched: " ++ listed searched)
  | .unknownDirective _ known _ => some ("Registered directives: " ++ listed known)
  | .unknownFilter _ known _ => some ("Available filters: " ++ listed known)
  | .unknownFunction _ known _ => some ("Available functions: " ++ listed known)
  | .blocked _ _ => some
      "Process execution, filesystem writes and dynamic code execution are never available"
  | .malformed _ _ | .failedCall _ _ _ | .unreadable _ => none

/-- What is written at the place of an error. -/
def label? : TemplateError → Option String
  | .malformed _ _ => some "here"
  | .unknownDirective _ _ _ => some "this directive doesn't exist"
  | .unknownFilter _ _ _ => some "this filter doesn't exist"
  | .unknownFunction _ _ _ => some "this function isn't registered"
  | .blocked _ _ => some "blocked"
  | .notFound _ _ | .failedCall _ _ _ | .unreadable _ => none

end TemplateError

/-- A fault at a range of bytes of a source. -/
def Source.malformed (s : Source) (fault : SyntaxFault) (span : Span) : TemplateError :=
  .malformed fault (s.place span)

end Hashmark
