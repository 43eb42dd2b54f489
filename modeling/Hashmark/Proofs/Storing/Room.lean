import Mathlib
import Hashmark.Artifact.Decoding

/-!
# Room for containers

A reader of a stored artifact gets the number of containers that may still be nested inside each
other. `Json.fit` is a result that needs some of that room, and the lemmas about it add up what
several parts need. For every alternative of expressions and nodes there is one step
(`Expr.ofJson?_binary`, `Node.ofJson?_choice` and so on): what is read from its written form, in
terms of what is read from the parts.
-/

namespace Hashmark

open Json (tagged record optional enter? asItems? asRecord?)

namespace Json

/-! ### Depth and room -/

mutual

/-- How many containers of a value are nested inside each other. -/
def depth : Json → Nat
  | .null | .bool _ | .number _ | .string _ | .unreadable => 0
  | .array items => depthOfItems items + 1
  | .object members => depthOfMembers members + 1

/-- The greatest depth of some values. -/
def depthOfItems : List Json → Nat
  | [] => 0
  | item :: items => max item.depth (depthOfItems items)

/-- The greatest depth of the values of some members. -/
def depthOfMembers : List (String × Json) → Nat
  | [] => 0
  | (_, value) :: members => max value.depth (depthOfMembers members)

end

variable {α β : Type} {a b c room : Nat}

/-- What is read, given that it fits into the room that there is. -/
def fit (depth room : Nat) (x : Option α) : Option α :=
  if depth ≤ room then x else none

theorem fit_of_le (h : a ≤ room) (x : Option α) : fit a room x = x :=
  if_pos h

@[simp] theorem fit_none : fit a room (none : Option α) = none := by
  unfold fit
  split <;> rfl

@[simp] theorem fit_zero (x : Option α) : fit 0 room x = x :=
  if_pos (Nat.zero_le _)

theorem fit_bind (x : Option α) (f : α → Option β) :
    (fit a room x).bind f = fit a room (x.bind f) := by
  unfold fit
  split <;> rfl

theorem bind_fit (x : Option α) (f : α → Option β) :
    (x.bind fun v => fit a room (f v)) = fit a room (x.bind f) := by
  unfold fit
  split
  · rfl
  · cases x <;> rfl

theorem fit_map (x : Option α) (f : α → β) : (fit a room x).map f = fit a room (x.map f) := by
  unfold fit
  split <;> rfl

theorem fit_fit (x : Option α) : fit a room (fit b room x) = fit (max a b) room x := by
  unfold fit
  by_cases ha : a ≤ room <;> by_cases hb : b ≤ room <;> simp [ha, hb]

/-- What has to fit after some containers were entered. -/
theorem fit_sub (h : c ≤ a) (x : Option α) :
    fit a room (fit b (room - c) x) = fit (max a (b + c)) room x := by
  have hiff : a ≤ room ∧ b ≤ room - c ↔ max a (b + c) ≤ room := by omega
  unfold fit
  by_cases ha : a ≤ room <;> by_cases hb : b ≤ room - c <;> simp [ha, hb, ← hiff]

end Json

open Json (fit fit_of_le fit_bind bind_fit fit_map fit_fit fit_sub)

/-! ### Steps of the reader -/

section Steps

variable (room : Nat)

theorem Literal.ofJson?_bool (j : Json) :
    Literal.ofJson? room (tagged "Bool" j) = fit 1 room (j.asBool?.map .bool) := by
  match room with
  | 0 => rfl
  | room + 1 =>
    rw [fit_of_le (by omega)]
    rfl

theorem Literal.ofJson?_int (j : Json) :
    Literal.ofJson? room (tagged "Int" j) =
      fit 1 room ((j.asInt? Int64.minValue.toInt Int64.maxValue.toInt).map fun n =>
        .int (Int64.ofInt n)) := by
  match room with
  | 0 => rfl
  | room + 1 =>
    rw [fit_of_le (by omega)]
    rfl

theorem Literal.ofJson?_float (j : Json) :
    Literal.ofJson? room (tagged "Float" j) = fit 1 room (j.asFloat?.map .float) := by
  match room with
  | 0 => rfl
  | room + 1 =>
    rw [fit_of_le (by omega)]
    rfl

theorem Literal.ofJson?_str (j : Json) :
    Literal.ofJson? room (tagged "Str" j) = fit 1 room (j.asString?.map .str) := by
  match room with
  | 0 => rfl
  | room + 1 =>
    rw [fit_of_le (by omega)]
    rfl

theorem Expr.ofJson?_literal (j : Json) :
    Expr.ofJson? room (tagged "Literal" j) =
      fit 1 room ((Literal.ofJson? (room - 1) j).map .lit) := by
  match room with
  | 0 | room + 1 =>
    rw [Expr.ofJson?]
    rfl

theorem Expr.ofJson?_var (name : String) :
    Expr.ofJson? room (tagged "Var" (.string name)) = fit 1 room (some (.var name)) := by
  match room with
  | 0 | room + 1 =>
    rw [Expr.ofJson?]
    rfl

theorem Expr.ofJson?_list (items : List Json) :
    Expr.ofJson? room (tagged "List" (.array items)) =
      fit 2 room (do pure (.list (← items.mapM (Expr.ofJson? (room - 2))))) := by
  match room with
  | 0 | 1 =>
    rw [Expr.ofJson?]
    rfl
  | room + 2 =>
    rw [Expr.ofJson?, fit_of_le (by omega)]
    rfl

theorem Expr.ofJson?_field (base : Json) (name : String) :
    Expr.ofJson? room (tagged "Field" (record [("base", base), ("field", .string name)])) =
      fit 2 room (do pure (.field (← Expr.ofJson? (room - 2) base) name)) := by
  match room with
  | 0 | 1 =>
    rw [Expr.ofJson?]
    rfl
  | room + 2 =>
    rw [Expr.ofJson?, fit_of_le (by omega)]
    rfl

theorem Expr.ofJson?_index (base key : Json) :
    Expr.ofJson? room (tagged "Index" (record [("base", base), ("index", key)])) =
      fit 2 room (do pure (.index (← Expr.ofJson? (room - 2) base)
        (← Expr.ofJson? (room - 2) key))) := by
  match room with
  | 0 | 1 =>
    rw [Expr.ofJson?]
    rfl
  | room + 2 =>
    rw [Expr.ofJson?, fit_of_le (by omega)]
    rfl

theorem Expr.ofJson?_call (name : String) (args : List Json) :
    Expr.ofJson? room
        (tagged "Call" (record [("name", .string name), ("args", .array args)])) =
      fit 3 room (do pure (.call name (← args.mapM (Expr.ofJson? (room - 3))))) := by
  match room with
  | 0 | 1 | 2 =>
    rw [Expr.ofJson?]
    rfl
  | room + 3 =>
    rw [Expr.ofJson?, fit_of_le (by omega)]
    rfl

theorem Expr.ofJson?_filter (input : Json) (name : String) (args : List Json) :
    Expr.ofJson? room (tagged "Filter"
        (record [("expr", input), ("name", .string name), ("args", .array args)])) =
      fit 3 room (do
        let args ← args.mapM (Expr.ofJson? (room - 3))
        pure (.filter (← Expr.ofJson? (room - 2) input) name args)) := by
  match room with
  | 0 | 1 | 2 =>
    rw [Expr.ofJson?]
    rfl
  | room + 3 =>
    rw [Expr.ofJson?, fit_of_le (by omega)]
    rfl

theorem Expr.ofJson?_unary (op : UnaryOp) (operand : Json) :
    Expr.ofJson? room (tagged "Unary" (record [("op", .string op.label), ("expr", operand)])) =
      fit 2 room (do pure (.unary op (← Expr.ofJson? (room - 2) operand))) := by
  cases op <;>
  match room with
  | 0 | 1 =>
    rw [Expr.ofJson?]
    rfl
  | room + 2 =>
    rw [Expr.ofJson?, fit_of_le (by omega)]
    rfl

theorem Expr.ofJson?_binary (op : BinaryOp) (left right : Json) :
    Expr.ofJson? room (tagged "Binary"
        (record [("op", .string op.label), ("left", left), ("right", right)])) =
      fit 2 room (do pure (.binary op (← Expr.ofJson? (room - 2) left)
        (← Expr.ofJson? (room - 2) right))) := by
  cases op <;>
  match room with
  | 0 | 1 =>
    rw [Expr.ofJson?]
    rfl
  | room + 2 =>
    rw [Expr.ofJson?, fit_of_le (by omega)]
    rfl

theorem Node.ofJson?_text (content : String) :
    Node.ofJson? room (tagged "Text" (.string content)) = fit 1 room (some (.text content)) := by
  match room with
  | 0 | room + 1 =>
    rw [Node.ofJson?]
    rfl

theorem Node.ofJson?_connect (name : String) :
    Node.ofJson? room (tagged "Connect" (.string name)) = fit 1 room (some (.connect name)) := by
  match room with
  | 0 | room + 1 =>
    rw [Node.ofJson?]
    rfl

theorem Node.ofJson?_comment (content : String) :
    Node.ofJson? room (tagged "Comment" (.string content)) =
      fit 1 room (some (.comment content)) := by
  match room with
  | 0 | room + 1 =>
    rw [Node.ofJson?]
    rfl

theorem Node.ofJson?_emit (value : Json) :
    Node.ofJson? room (tagged "Emit" value) =
      fit 1 room ((Expr.ofJson? (room - 1) value).map .emit) := by
  match room with
  | 0 | room + 1 =>
    rw [Node.ofJson?]
    rfl

/-- Reads a branch of a choice, as `Node.ofJson?` does. -/
def Node.branchOfJson? (j : Json) : Option (Expr × List Node) := do
  let ⟨inside, _⟩ ← enter? room
  match ← asRecord? ["condition", "body"] j with
  | [some condition, some body] =>
    let ⟨innermost, _⟩ ← enter? inside
    let body ← (← asItems? body).mapM (Node.ofJson? innermost)
    pure (← Expr.ofJson? inside condition, body)
  | _ => none

theorem Node.branchOfJson?_record (condition : Json) (body : List Json) :
    Node.branchOfJson? room (record [("condition", condition), ("body", .array body)]) =
      fit 2 room (do
        let body ← body.mapM (Node.ofJson? (room - 2))
        pure (← Expr.ofJson? (room - 1) condition, body)) := by
  match room with
  | 0 | 1 => rfl
  | room + 2 =>
    rw [fit_of_le (by omega)]
    rfl

/-- Reads a body that may be absent, as `Node.ofJson?` does. -/
def Node.optionOfJson? (j : Json) : Option (Option (List Node)) :=
  optionalField? (fun body => do (← asItems? body).mapM (Node.ofJson? room)) (some j)

theorem Node.ofJson?_choice (branches : List Json) (otherwise : Json) :
    Node.ofJson? room
        (tagged "If" (record [("branches", .array branches), ("otherwise", otherwise)])) =
      fit 3 room (do
        let branches ← branches.mapM (Node.branchOfJson? (room - 3))
        pure (.choose branches (← Node.optionOfJson? (room - 3) otherwise))) := by
  match room with
  | 0 | 1 | 2 =>
    rw [Node.ofJson?]
    rfl
  | room + 3 =>
    rw [Node.ofJson?, fit_of_le (by omega)]
    rfl

theorem Node.ofJson?_forEach (source : Json) (key : Option String) (value : String)
    (body : List Json) :
    Node.ofJson? room (tagged "Foreach" (record
        [("iterable", source), ("key", optional .string key), ("value", .string value),
          ("body", .array body)])) =
      fit 3 room (do
        let body ← body.mapM (Node.ofJson? (room - 3))
        pure (.forEach (← Expr.ofJson? (room - 2) source) key value body)) := by
  cases key <;>
  match room with
  | 0 | 1 | 2 =>
    rw [Node.ofJson?]
    rfl
  | room + 3 =>
    rw [Node.ofJson?, fit_of_le (by omega)]
    rfl

theorem Node.ofJson?_block (name : String) (body : List Json) :
    Node.ofJson? room
        (tagged "Section" (record [("name", .string name), ("body", .array body)])) =
      fit 3 room (do pure (.block name (← body.mapM (Node.ofJson? (room - 3))))) := by
  match room with
  | 0 | 1 | 2 =>
    rw [Node.ofJson?]
    rfl
  | room + 3 =>
    rw [Node.ofJson?, fit_of_le (by omega)]
    rfl

theorem Node.ofJson?_yield (name : String) (default : Option String) :
    Node.ofJson? room (tagged "Yield"
        (record [("name", .string name), ("default", optional .string default)])) =
      fit 2 room (some (.yield name default)) := by
  cases default <;>
  match room with
  | 0 | 1 =>
    rw [Node.ofJson?]
    rfl
  | room + 2 =>
    rw [Node.ofJson?, fit_of_le (by omega)]
    rfl

end Steps

end Hashmark
