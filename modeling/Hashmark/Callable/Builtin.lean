import Hashmark.Callable.Table
import Hashmark.Value.Order
import Hashmark.Text.Blank
import Hashmark.Text.Case
import Hashmark.Escape

/-!
# Built-in callables

The functions and filters that every engine starts with. They take any values; only `range` can
fail.
-/

namespace Hashmark.Builtin

/-! ### Functions -/

/-- The length of a text in characters, of a list or of a dictionary; 0 for all else. -/
def length : Value → Value
  | .str s | .safe s => .int (Int64.ofNat s.length)
  | .list items => .int (Int64.ofNat items.length)
  | .dict entries => .int (Int64.ofNat entries.length)
  | _ => .int 0

/-- The length of the first argument. -/
def count : Function
  | [] => .ok (.int 0)
  | v :: _ => .ok (length v)

/-- The largest number of items that `range` makes. -/
def rangeLimit : Int := 100000

/-- The whole numbers from `start` up to `stop`, without `stop`. -/
def numbers (start stop : Int64) : List Value :=
  (List.range (stop.toInt - start.toInt).toNat).map fun (i : Nat) =>
    .int (Int64.ofInt (start.toInt + i))

/-- The numbers below the only argument, or from the first argument to the second. -/
def range : Function := fun args =>
  let upTo (start stop : Int64) : Except String Value :=
    if rangeLimit < stop.toInt - start.toInt then
      .error s!"range({start.toInt}, {stop.toInt}) is too large"
    else .ok (.list (numbers start stop))
  match args with
  | [.int stop] => upTo 0 stop
  | [.int start, .int stop] => upTo start stop
  | _ => .error "range expects one or two integers"

/-- The first argument as JSON. -/
def json : Function
  | [] => .ok (.str "null")
  | v :: _ => .ok (.str v.toJson.text)

/-- The value that stands in the relation `want` to all before it and to none after it: the first
of the greatest or of the least values. -/
def extremeOf (want : Ordering) : List Value → Value
  | [] => .undefined
  | v :: vs => vs.foldl (fun best v => if v.compare? best = some want then v else best) v

/-- The extreme of the items of the only argument, or of the arguments. -/
def extreme (want : Ordering) : Function
  | [.list items] => .ok (extremeOf want items)
  | args => .ok (extremeOf want args)

/-! ### Filters -/

/-- A filter on the plain text of a value. -/
def onText (f : String → String) : Filter :=
  fun v _ => .ok (.str (f v.text))

/-- A text with every word capitalized and single spaces between the words. -/
def title (s : String) : String :=
  " ".intercalate ((Text.words s).map Text.capitalize)

/-- A character of a text, as a text of the same kind. -/
def charOf (wrap : String → Value) : Option Char → Value
  | some c => wrap (String.singleton c)
  | none => .undefined

/-- The first item of a list or character of a text. -/
def first : Filter := fun v _ => .ok <|
  match v with
  | .list items => items.head?.getD .undefined
  | .str s => charOf .str s.toList.head?
  | .safe s => charOf .safe s.toList.head?
  | _ => .undefined

/-- The last item of a list or character of a text. -/
def last : Filter := fun v _ => .ok <|
  match v with
  | .list items => items.getLast?.getD .undefined
  | .str s => charOf .str s.toList.getLast?
  | .safe s => charOf .safe s.toList.getLast?
  | _ => .undefined

/-- A list or a text from its end to its start; markup stays as it is. -/
def reverse : Filter := fun v _ => .ok <|
  match v with
  | .list items => .list items.reverse
  | .str s => .str (String.ofList s.toList.reverse)
  | v => v

/-- The order of two values in a sorted list; values without an order count as equal. -/
def sortOrder (a b : Value) : Ordering :=
  (a.compare? b).getD .eq

/-- The order of two values by a field; values without the field come last. -/
def fieldOrder (name : String) (a b : Value) : Ordering :=
  match (a.field name).isUndefined, (b.field name).isUndefined with
  | false, false => sortOrder (a.field name) (b.field name)
  | false, true => .lt
  | true, false => .gt
  | true, true => .eq

/-- The order that `sort` sorts by, given its arguments. -/
def orderFor : List Value → Value → Value → Ordering
  | .str name :: _ => fieldOrder name
  | _ => sortOrder

/-- The items of a list in order, equal ones as they were. -/
def sort : Filter := fun v args => .ok <|
  match v with
  | .list items => .list (items.mergeSort fun a b => (orderFor args a b).isLE)
  | v => v

/-- The texts of the items of a list with a separator between them. -/
def join : Filter := fun v args => .ok <|
  match v with
  | .list items =>
    let separator := match args with
      | [] => ""
      | a :: _ => a.text
    .str (separator.intercalate (items.map Value.text))
  | v => v

/-- Whether a value is replaced by a default. -/
def isMissing : Value → Bool
  | .undefined | .null => true
  | .str s => s == ""
  | _ => false

/-- The value, or the first argument in place of a missing one. -/
def orDefault : Filter := fun v args => .ok <|
  if isMissing v then args.head?.getD .undefined else v

/-- The escaped output of a value, as markup. -/
def escapeFilter : Filter :=
  fun v _ => .ok (.safe (escape v))

/-- The plain text of a value, as markup. -/
def raw : Filter :=
  fun v _ => .ok (.safe v.text)

end Hashmark.Builtin

namespace Hashmark

open Builtin in
/-- The tables of the built-in functions and filters. -/
def Callables.builtin : Callables where
  functions := Dict.ofPairs
    [("count", count), ("range", range), ("json", json), ("max", extreme .gt),
     ("min", extreme .lt)]
  filters := Dict.ofPairs
    [("upper", onText Text.upper), ("lower", onText Text.lower),
     ("capitalize", onText Text.capitalize), ("title", onText title),
     ("trim", onText Text.trim), ("length", fun v _ => .ok (length v)), ("first", first),
     ("last", last), ("reverse", reverse), ("sort", sort), ("join", join),
     ("default", orDefault), ("escape", escapeFilter), ("raw", raw),
     ("json", fun v _ => json [v])]

end Hashmark
