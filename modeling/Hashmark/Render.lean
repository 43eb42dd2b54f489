import Hashmark.Escape
import Hashmark.Expression.Evaluation

/-!
# Rendering

The output of nodes: the texts, the escaped values of the markers, and for every block or yield the
first override of its name. A name that is being rendered renders as nothing inside itself, so an
override that yields its own name ends; each step into an override leaves fewer overrides that can
still be entered.

The output is a list of pieces, to be written one after the other.
-/

namespace Hashmark

/-- The body of the first override of a name. -/
def overrideOf (overrides : List Override) (name : String) : Option (List Node) :=
  (overrides.find? (·.name = name)).map Override.body

theorem mem_of_overrideOf {overrides : List Override} {name : String} {body : List Node}
    (h : overrideOf overrides name = some body) : ∃ o ∈ overrides, o.name = name ∧ o.body = body := by
  obtain ⟨o, ho, rfl⟩ := Option.map_eq_some_iff.1 h
  exact ⟨o, List.mem_of_find?_eq_some ho, by simpa using List.find?_some ho, rfl⟩

/-- The overrides that can still be entered while `active` names are being rendered. -/
def enterable (overrides : List Override) (active : List String) : Nat :=
  overrides.countP (·.name ∉ active)

theorem enterable_cons_le (overrides : List Override) (name : String) (active : List String) :
    enterable overrides (name :: active) ≤ enterable overrides active := by
  refine List.countP_mono_left fun o _ h => ?_
  simp_all

theorem enterable_cons_lt {overrides : List Override} {name : String} {active : List String}
    {body : List Node} (h : overrideOf overrides name = some body) (hn : name ∉ active) :
    enterable overrides (name :: active) < enterable overrides active := by
  obtain ⟨o, ho, hname, -⟩ := mem_of_overrideOf h
  obtain ⟨l, r, rfl⟩ := List.append_of_mem ho
  have hl := enterable_cons_le l name active
  have hr := enterable_cons_le r name active
  unfold enterable at *
  rw [List.countP_append, List.countP_append, List.countP_cons_of_neg (by simp [hname]),
    List.countP_cons_of_pos (by simpa [hname] using hn)]
  omega

/-! ### Loops -/

/-- The keys and the values that a loop over a value goes through. -/
def Value.entries : Value → List (Value × Value)
  | .list items => (List.range items.length).zip items |>.map fun (i, v) =>
      (.int (Int64.ofNat i), v)
  | .dict entries => entries.map fun (name, v) => (.str name, v)
  | _ => []

/-- What the variable `loop` holds in the pass number `index` of `count` passes, from 0 on. -/
def loopValue (index count : Nat) : Value :=
  .dict
    [("count", .int (Int64.ofNat count)), ("first", .bool (index = 0)),
     ("index", .int (Int64.ofNat index)), ("iteration", .int (Int64.ofNat index + 1)),
     ("last", .bool (index + 1 = count))]

/-- The variables in view in a pass of a loop. -/
def Scopes.enterPass (s : Scopes) (keyName : Option String) (valueName : String)
    (key value : Value) (index count : Nat) : Scopes :=
  let s := s.push
  let s := match keyName with
    | some name => s.set name key
    | none => s
  (s.set valueName value).set "loop" (loopValue index count)

/-- The variables in view in each pass of a loop over a value. -/
def Scopes.passes (s : Scopes) (keyName : Option String) (valueName : String) (source : Value) :
    List Scopes :=
  let entries := source.entries
  let count := entries.length
  (List.range count).zip entries |>.map fun (index, key, value) =>
    s.enterPass keyName valueName key value index count

/-! ### Nodes -/

/-- What a rendering reads: the tables of callables and the overrides, first one first. -/
structure Setting where
  callables : Callables
  overrides : List Override

mutual

/-- The output of a node, while the names in `active` are being rendered. -/
def Node.render (t : Setting) (active : List String) (s : Scopes) (node : Node) :
    Except CallFault (List String) :=
  match node with
  | .text content => .ok [content]
  | .comment _ | .connect _ => .ok []
  | .emit value => do
    let v ← value.eval t.callables s
    pure [escape v]
  | .choose branches otherwise => Node.renderChoice t active s branches otherwise
  | .forEach source key value body => do
    let v ← source.eval t.callables s
    let passes ← (s.passes key value v).mapM fun s => Node.renderList t active s body
    pure passes.flatten
  | .block name body =>
    if _ : name ∈ active then .ok []
    else
      match _h : overrideOf t.overrides name with
      | some body => Node.renderList t (name :: active) s body
      | none => Node.renderList t (name :: active) s body
  | .yield name default =>
    match _h : overrideOf t.overrides name with
    | some body =>
      if _ : name ∈ active then .ok []
      else Node.renderList t (name :: active) s body
    | none => .ok (default.toList.map escapeText)
termination_by (enterable t.overrides active, sizeOf node)
decreasing_by
  · decreasing_tactic
  · decreasing_tactic
  · exact Prod.Lex.left _ _ (enterable_cons_lt ‹_› ‹_›)
  · have := enterable_cons_le t.overrides name active
    rcases Nat.lt_or_eq_of_le this with h | h
    · exact Prod.Lex.left _ _ h
    · rw [h]; decreasing_tactic
  · exact Prod.Lex.left _ _ (enterable_cons_lt ‹_› ‹_›)

/-- The output of several nodes. -/
def Node.renderList (t : Setting) (active : List String) (s : Scopes) (nodes : List Node) :
    Except CallFault (List String) :=
  match nodes with
  | [] => .ok []
  | node :: nodes => do
    let first ← node.render t active s
    let rest ← Node.renderList t active s nodes
    pure (first ++ rest)
termination_by (enterable t.overrides active, sizeOf nodes)

/-- The output of the first branch whose condition holds, or else of the last body. -/
def Node.renderChoice (t : Setting) (active : List String) (s : Scopes)
    (branches : List (Expr × List Node)) (otherwise : Option (List Node)) :
    Except CallFault (List String) :=
  match branches with
  | [] =>
    match otherwise with
    | some body => Node.renderList t active s body
    | none => .ok []
  | (condition, body) :: branches => do
    let v ← condition.eval t.callables s
    if v.isTruthy then Node.renderList t active s body
    else Node.renderChoice t active s branches otherwise
termination_by (enterable t.overrides active, sizeOf branches + sizeOf otherwise)

end

end Hashmark
