import Hashmark.Value.Basic

/-!
# Callables

The functions and the filters that templates may call, each in a table by name. A callable fails
with a message.
-/

namespace Hashmark

/-- A function of any number of arguments. -/
abbrev Function := List Value → Except String Value

/-- A filter, applied to the value piped into it and any number of arguments. -/
abbrev Filter := Value → List Value → Except String Value

/-- The two tables of callables. -/
structure Callables where
  functions : Dict Function
  filters : Dict Filter

namespace Callables

/-- Tables without entries. -/
def empty : Callables :=
  ⟨[], []⟩

/-- Adds or replaces a function. -/
def registerFunction (c : Callables) (name : String) (f : Function) : Callables :=
  { c with functions := Dict.insert name f c.functions }

/-- Adds or replaces a filter. -/
def registerFilter (c : Callables) (name : String) (f : Filter) : Callables :=
  { c with filters := Dict.insert name f c.filters }

/-- Whether a name is in the table of functions. -/
def hasFunction (c : Callables) (name : String) : Bool :=
  Dict.contains c.functions name

/-- Whether a name is in the table of filters. -/
def hasFilter (c : Callables) (name : String) : Bool :=
  Dict.contains c.filters name

/-- The names of the functions, in order. -/
def functionNames (c : Callables) : List String :=
  Dict.keys c.functions

/-- The names of the filters, in order. -/
def filterNames (c : Callables) : List String :=
  Dict.keys c.filters

end Callables

end Hashmark
