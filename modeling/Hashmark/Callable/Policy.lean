import Hashmark.Callable.Table
import Hashmark.Syntax

/-!
# Which callables a template may name

Some names are never callable, whatever the tables hold: names of process execution, of writing to
the file system and of running code. Letter case does not matter for them. `check?` reports them
before names that are not registered, wherever they stand in an expression.
-/

namespace Hashmark

/-- The names that are never callable. -/
def deniedNames : List String :=
  -- process execution
  ["exec", "system", "shell_exec", "passthru", "proc_open", "popen", "pcntl_exec", "spawn",
   "command",
   -- writing to the file system
   "file_put_contents", "fopen", "fwrite", "fputs", "unlink", "rmdir", "mkdir", "rename", "copy",
   "chmod", "chown", "touch", "tempnam", "move_uploaded_file",
   -- running code
   "eval", "assert", "create_function", "call_user_func", "call_user_func_array", "include",
   "include_once", "require", "require_once", "load", "dlopen"]

/-- Whether a name is never callable. -/
def isDenied (name : String) : Bool :=
  deniedNames.contains name.toLower

namespace Callables

/-- Whether a function may be called: not a denied name, and registered. -/
def allowsFunction (c : Callables) (name : String) : Bool :=
  !isDenied name && c.hasFunction name

end Callables

/-- A callee that an expression may not refer to. -/
inductive Violation where
  | blocked (name : String)
  | unknownFunction (name : String)
  | unknownFilter (name : String)
  deriving DecidableEq, Repr

/-- The name of the callee. -/
def Violation.name : Violation → String
  | .blocked name | .unknownFunction name | .unknownFilter name => name

namespace Callee

/-- The name of a callee with a denied name. -/
def denied? (callee : Callee) : Option String :=
  if isDenied callee.name then some callee.name else none

/-- The name of a function that is neither denied nor registered. -/
def unknownFunction? (c : Callables) : Callee → Option String
  | .function name => if isDenied name || c.hasFunction name then none else some name
  | .filter _ => none

/-- The name of a filter that is neither denied nor registered. -/
def unknownFilter? (c : Callables) : Callee → Option String
  | .function _ => none
  | .filter name => if isDenied name || c.hasFilter name then none else some name

end Callee

/-- The first denied callee of an expression, or else the first unknown function, or else the
first unknown filter. -/
def Expr.violation? (c : Callables) (e : Expr) : Option Violation :=
  ((e.callees.findSome? Callee.denied?).map .blocked).or
    (((e.callees.findSome? (Callee.unknownFunction? c)).map .unknownFunction).or
      ((e.callees.findSome? (Callee.unknownFilter? c)).map .unknownFilter))

/-- The violation of the first expression of a node that has one. -/
def Node.violation? (c : Callables) (n : Node) : Option Violation :=
  n.exprs.findSome? (Expr.violation? c)

end Hashmark
