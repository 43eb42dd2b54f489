import Hashmark.Dict
import Hashmark.Expression.Token
import Hashmark.Syntax

/-!
# Directives

The directives of the language itself have fixed names. Any other name may be registered with a
handler that turns the text of its arguments into a node.
-/

namespace Hashmark

/-- The directives of the language, which cannot be replaced. -/
def builtinDirectives : List String :=
  ["if", "elseif", "else", "endif", "foreach", "endforeach", "extends", "section", "endsection",
   "yield", "connect"]

/-- Whether a directive takes arguments in parentheses. -/
inductive Arity where
  | none
  | optional
  | required
  deriving DecidableEq, Repr

/-- A registered directive. The handler is given the text between the parentheses, or an empty
text if there are none. -/
structure Directive where
  arity : Arity
  handler : String → Except String Node

/-- The registered directives by name. -/
abbrev Directives := Dict Directive

/-- Why a name cannot be registered. -/
inductive RegisterFault where
  | builtinName (name : String)
  | invalidName (name : String)
  deriving DecidableEq, Repr

/-- The message for a fault. -/
def RegisterFault.message : RegisterFault → String
  | .builtinName name => s!"`#{name}` is a built-in directive"
  | .invalidName name => s!"`{name}` is not a valid directive name"

namespace Directives

/-- Registers a directive, in place of an earlier one with its name. -/
def register (ds : Directives) (name : String) (directive : Directive) :
    Except RegisterFault Directives :=
  if builtinDirectives.contains name then .error (.builtinName name)
  else if !Expression.isName name.toList then .error (.invalidName name)
  else .ok (Dict.insert name directive ds)

/-- The names that can be used, those of the language first. -/
def names (ds : Directives) : List String :=
  builtinDirectives ++ Dict.keys ds

end Directives

end Hashmark
