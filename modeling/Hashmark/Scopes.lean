import Hashmark.Value.Basic

/-!
# Scopes

The variables that an expression sees: a stack of scopes, innermost first, of which there is always
one. A variable is looked up from the inside out and set in the innermost scope.
-/

namespace Hashmark

/-- The variables in view. -/
structure Scopes where
  inner : Dict Value
  outer : List (Dict Value)
  deriving Repr

namespace Scopes

/-- One scope without variables. -/
def empty : Scopes :=
  ⟨[], []⟩

/-- The variable of the innermost scope that has it. -/
def get? (s : Scopes) (name : String) : Option Value :=
  (s.inner :: s.outer).findSome? (Dict.find? · name)

/-- Sets a variable in the innermost scope. -/
def set (s : Scopes) (name : String) (value : Value) : Scopes :=
  { s with inner := Dict.insert name value s.inner }

/-- Opens a scope. -/
def push (s : Scopes) : Scopes :=
  ⟨[], s.inner :: s.outer⟩

/-- Closes the innermost scope; the outermost one stays open. -/
def pop (s : Scopes) : Scopes :=
  match s.outer with
  | [] => s
  | scope :: rest => ⟨scope, rest⟩

/-- The members of a JSON object as variables; other data has none. -/
def ofJson : Json → Scopes
  | .object members => ⟨Dict.ofPairs (Value.ofJsonMembers members), []⟩
  | _ => empty

theorem get?_set (s : Scopes) (name : String) (value : Value) (other : String) :
    (s.set name value).get? other = if other = name then some value else s.get? other := by
  simp only [get?, set, List.findSome?_cons, Dict.find?_insert]
  by_cases h : other = name <;> simp [h]

theorem get?_push (s : Scopes) (name : String) : s.push.get? name = s.get? name := by
  simp only [get?, push]
  rw [List.findSome?_cons]
  rfl

end Scopes

end Hashmark
