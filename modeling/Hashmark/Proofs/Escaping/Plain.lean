import Hashmark.Callable.Builtin
import Hashmark.Expression.Evaluation
import Hashmark.Marker.Lexer
import Hashmark.Render

/-!
# Values without markup

JSON data holds no markup, and only the filter `raw` makes markup out of it: the built-in callables
keep values plain (`keepsPlain_builtin`), and so do the operators, fields and loops of the
language. What a plain value is written as has no bracket and no quote (`escape_plain`).
-/

namespace Hashmark

/-- Whether a character can begin or end a tag or an attribute. -/
def isMarkupChar (c : Char) : Bool :=
  c == '<' || c == '>' || c == '"' || c == '\''

/-- Whether a text has no character that can begin or end a tag or an attribute. -/
def NoMarkup (cs : List Char) : Prop :=
  ∀ c ∈ cs, isMarkupChar c = false

instance (cs : List Char) : Decidable (NoMarkup cs) :=
  List.decidableBAll _ cs

namespace Value

mutual

/-- Whether the markup in a value, at any depth, has no brackets and no quotes. -/
def Plain : Value → Prop
  | .safe markup => NoMarkup markup.toList
  | .list items => PlainItems items
  | .dict entries => PlainEntries entries
  | .undefined | .null | .bool _ | .int _ | .float _ | .str _ => True

/-- Whether the items of a list are plain. -/
def PlainItems : List Value → Prop
  | [] => True
  | item :: items => item.Plain ∧ PlainItems items

/-- Whether the values of some entries are plain. -/
def PlainEntries : List (String × Value) → Prop
  | [] => True
  | (_, value) :: entries => value.Plain ∧ PlainEntries entries

end

theorem plainItems_iff {items : List Value} : PlainItems items ↔ ∀ v ∈ items, v.Plain := by
  induction items with
  | nil => simp [PlainItems]
  | cons item items ih => simp [PlainItems, ih]

theorem plainEntries_iff {entries : List (String × Value)} :
    PlainEntries entries ↔ ∀ e ∈ entries, e.2.Plain := by
  induction entries with
  | nil => simp [PlainEntries]
  | cons entry entries ih => simp [PlainEntries, ih]

@[simp] theorem plain_list {items : List Value} : (list items).Plain ↔ ∀ v ∈ items, v.Plain := by
  rw [Plain, plainItems_iff]

@[simp] theorem plain_dict {entries : List (String × Value)} :
    (dict entries).Plain ↔ ∀ e ∈ entries, e.2.Plain := by
  rw [Plain, plainEntries_iff]

@[simp] theorem plain_safe {markup : String} : (safe markup).Plain ↔ NoMarkup markup.toList := by
  rw [Plain]

@[simp] theorem plain_undefined : undefined.Plain := by rw [Plain]; trivial

@[simp] theorem plain_null : null.Plain := by rw [Plain]; trivial

@[simp] theorem plain_bool (b : Bool) : (bool b).Plain := by rw [Plain]; trivial

@[simp] theorem plain_int (n : Int64) : (int n).Plain := by rw [Plain]; trivial

@[simp] theorem plain_float (x : Float) : (float x).Plain := by rw [Plain]; trivial

@[simp] theorem plain_str (s : String) : (str s).Plain := by rw [Plain]; trivial

/-- What is looked up among plain values, if it is there, is plain. -/
theorem plain_getD {v? : Option Value} (h : ∀ v, v? = some v → v.Plain) :
    (v?.getD .undefined).Plain := by
  cases v? with
  | none => simp
  | some v => exact h v rfl

theorem plain_find? {entries : List (String × Value)} (h : ∀ e ∈ entries, e.2.Plain)
    (name : String) : ((Dict.find? entries name).getD .undefined).Plain := by
  refine plain_getD fun v hv => ?_
  obtain ⟨before, after, rfl, -⟩ := List.lookup_eq_some_iff.1 hv
  exact h (name, v) (by simp)

theorem plain_getElem? {items : List Value} (h : ∀ v ∈ items, v.Plain) (i : Nat) :
    (items[i]?.getD .undefined).Plain :=
  plain_getD fun v hv => h v (List.mem_of_getElem? hv)

theorem Plain.field {v : Value} (h : v.Plain) (name : String) : (v.field name).Plain := by
  unfold Value.field
  split
  · exact plain_find? (plain_dict.1 h) name
  · split
    · exact plain_getElem? (plain_list.1 h) _
    · simp
  · simp

theorem Plain.item {v : Value} (h : v.Plain) (index : Value) : (v.item index).Plain := by
  unfold Value.item
  split
  · split
    · exact plain_getElem? (plain_list.1 h) _
    · simp
  · exact plain_find? (plain_dict.1 h) _
  · dsimp only
    split
    · refine plain_getD fun v hv => ?_
      obtain ⟨c, -, rfl⟩ := Option.map_eq_some_iff.1 hv
      simp
    · simp
  · simp

end Value

/-! ### JSON data -/

mutual

/-- JSON data is plain. -/
theorem Value.plain_ofJson : ∀ j : Json, (Value.ofJson j).Plain
  | .null => by simp [Value.ofJson]
  | .unreadable => by simp [Value.ofJson]
  | .bool b => by simp [Value.ofJson]
  | .string s => by simp [Value.ofJson]
  | .number n => by
    rw [Value.ofJson]
    unfold Value.ofJsonNumber
    split
    · split <;> simp
    · simp
  | .array items => by
    rw [Value.ofJson, Value.plain_list]
    exact Value.plain_ofJsonItems items
  | .object members => by
    rw [Value.ofJson, Value.plain_dict]
    intro e he
    exact Value.plain_ofJsonMembers members e (Dict.mem_ofPairs he)

/-- The items of JSON data are plain. -/
theorem Value.plain_ofJsonItems : ∀ items : List Json, ∀ v ∈ Value.ofJsonItems items, v.Plain
  | [] => by simp [Value.ofJsonItems]
  | item :: items => by
    rw [Value.ofJsonItems]
    exact List.forall_mem_cons.2 ⟨Value.plain_ofJson item, Value.plain_ofJsonItems items⟩

/-- The members of JSON data are plain. -/
theorem Value.plain_ofJsonMembers : ∀ members : List (String × Json),
    ∀ e ∈ Value.ofJsonMembers members, e.2.Plain
  | [] => by simp [Value.ofJsonMembers]
  | (name, value) :: members => by
    rw [Value.ofJsonMembers]
    exact List.forall_mem_cons.2 ⟨Value.plain_ofJson value, Value.plain_ofJsonMembers members⟩

end

/-! ### What is written -/

theorem NoMarkup.not_mem {cs : List Char} (h : NoMarkup cs) : '<' ∉ cs :=
  fun hmem => absurd (h '<' hmem) (by decide)

theorem noMarkup_escapedChar (c : Char) : NoMarkup (escapedChar c) := by
  unfold escapedChar
  split
  · decide
  · decide
  · decide
  · decide
  · decide
  · intro d hd
    obtain rfl := List.mem_singleton.1 hd
    simp_all [isMarkupChar]

/-- An escaped text has no markup. -/
theorem noMarkup_escapeText (s : String) : NoMarkup (escapeText s).toList := by
  intro c hc
  rw [escapeText, String.toList_ofList, List.mem_flatMap] at hc
  obtain ⟨d, -, hcd⟩ := hc
  exact noMarkup_escapedChar d c hcd

/-- **What a plain value is written as has no markup.** -/
theorem escape_plain {v : Value} (h : v.Plain) : NoMarkup (escape v).toList := by
  unfold escape
  split
  · exact Value.plain_safe.1 h
  · exact noMarkup_escapeText _

/-! ### Callables -/

/-- Whether a function gives plain values for plain arguments. -/
def Function.KeepsPlain (f : Function) : Prop :=
  ∀ args v, (∀ a ∈ args, a.Plain) → f args = .ok v → v.Plain

/-- Whether a filter gives plain values for plain values and arguments. -/
def Filter.KeepsPlain (f : Filter) : Prop :=
  ∀ input args v, input.Plain → (∀ a ∈ args, a.Plain) → f input args = .ok v → v.Plain

/-- Whether the callable that a callee stands for, if there is one, keeps values plain. -/
def Callables.KeepsPlain (c : Callables) : Callee → Prop
  | .function name => ∀ f, Dict.find? c.functions name = some f → Function.KeepsPlain f
  | .filter name => ∀ f, Dict.find? c.filters name = some f → Filter.KeepsPlain f

namespace Builtin

theorem plain_length (v : Value) : (length v).Plain := by
  unfold length
  split <;> simp

theorem keepsPlain_count : Function.KeepsPlain count := by
  intro args v _ h
  cases args <;> cases h
  · simp
  · exact plain_length _

theorem keepsPlain_range : Function.KeepsPlain range := by
  have hnumbers : ∀ start stop v, (if rangeLimit < stop.toInt - start.toInt then
      (.error s!"range({start.toInt}, {stop.toInt}) is too large" : Except String Value)
      else .ok (.list (numbers start stop))) = .ok v → v.Plain := by
    intro start stop v h
    split at h
    · cases h
    · cases h
      simp [numbers]
  intro args v _ h
  unfold range at h
  split at h
  · exact hnumbers _ _ _ h
  · exact hnumbers _ _ _ h
  · cases h

theorem keepsPlain_json : Function.KeepsPlain json := by
  intro args v _ h
  cases args <;> cases h <;> simp

theorem plain_extremeOf (want : Ordering) {vs : List Value} (h : ∀ v ∈ vs, v.Plain) :
    (extremeOf want vs).Plain := by
  cases vs with
  | nil => simp [extremeOf]
  | cons v vs =>
    obtain ⟨hv, hvs⟩ := List.forall_mem_cons.1 h
    unfold extremeOf
    clear h
    induction vs generalizing v with
    | nil => exact hv
    | cons w ws ih =>
      obtain ⟨hw, hws⟩ := List.forall_mem_cons.1 hvs
      dsimp only [List.foldl_cons]
      split
      · exact ih w hw hws
      · exact ih v hv hws

theorem keepsPlain_extreme (want : Ordering) : Function.KeepsPlain (extreme want) := by
  intro args v hargs h
  unfold extreme at h
  split at h
  · cases h
    exact plain_extremeOf want (Value.plain_list.1 (hargs _ (by simp)))
  · cases h
    exact plain_extremeOf want hargs

theorem keepsPlain_onText (f : String → String) : Filter.KeepsPlain (onText f) := by
  intro input args v _ _ h
  cases h
  simp

/-- A character of a text without markup. -/
theorem plain_charOf_safe {c? : Option Char} (h : ∀ c, c? = some c → isMarkupChar c = false) :
    (charOf .safe c?).Plain := by
  cases c? with
  | none => simp [charOf]
  | some c => simpa [charOf, NoMarkup] using h c rfl

theorem plain_charOf_str (c? : Option Char) : (charOf .str c?).Plain := by
  cases c? <;> simp [charOf]

theorem keepsPlain_first : Filter.KeepsPlain first := by
  intro input args v hinput _ h
  cases h
  split
  · exact Value.plain_getD fun v hv => Value.plain_list.1 hinput v (List.mem_of_mem_head? hv)
  · exact plain_charOf_str _
  · exact plain_charOf_safe fun c hc => Value.plain_safe.1 hinput c (List.mem_of_mem_head? hc)
  · simp

theorem keepsPlain_last : Filter.KeepsPlain last := by
  intro input args v hinput _ h
  cases h
  split
  · exact Value.plain_getD fun v hv => Value.plain_list.1 hinput v (List.mem_of_getLast? hv)
  · exact plain_charOf_str _
  · exact plain_charOf_safe fun c hc => Value.plain_safe.1 hinput c (List.mem_of_getLast? hc)
  · simp

theorem keepsPlain_reverse : Filter.KeepsPlain reverse := by
  intro input args v hinput _ h
  cases h
  split
  · simpa using hinput
  · simp
  · exact hinput

theorem keepsPlain_sort : Filter.KeepsPlain sort := by
  intro input args v hinput _ h
  cases h
  split
  · rw [Value.plain_list] at hinput ⊢
    exact fun v hv => hinput v (List.mem_mergeSort.1 hv)
  · exact hinput

theorem keepsPlain_join : Filter.KeepsPlain join := by
  intro input args v hinput _ h
  cases h
  split
  · simp
  · exact hinput

theorem keepsPlain_orDefault : Filter.KeepsPlain orDefault := by
  intro input args v hinput hargs h
  cases h
  split
  · exact Value.plain_getD fun v hv => hargs v (List.mem_of_mem_head? hv)
  · exact hinput

theorem keepsPlain_escapeFilter : Filter.KeepsPlain escapeFilter := by
  intro input args v hinput _ h
  cases h
  exact Value.plain_safe.2 (escape_plain hinput)

end Builtin

open Builtin in
/-- **Only `raw` makes markup.** All other built-in callables keep values plain. -/
theorem keepsPlain_builtin {callee : Callee} (h : callee ≠ .filter "raw") :
    Callables.builtin.KeepsPlain callee := by
  cases callee with
  | function name =>
    intro f hf
    have hmem := Dict.mem_ofPairs (Dict.mem_of_find? hf)
    simp only [List.mem_cons, List.not_mem_nil, or_false, Prod.mk.injEq] at hmem
    rcases hmem with ⟨-, rfl⟩ | ⟨-, rfl⟩ | ⟨-, rfl⟩ | ⟨-, rfl⟩ | ⟨-, rfl⟩
    · exact keepsPlain_count
    · exact keepsPlain_range
    · exact keepsPlain_json
    · exact keepsPlain_extreme .gt
    · exact keepsPlain_extreme .lt
  | filter name =>
    intro f hf
    have hmem := Dict.mem_ofPairs (Dict.mem_of_find? hf)
    simp only [List.mem_cons, List.not_mem_nil, or_false, Prod.mk.injEq] at hmem
    rcases hmem with ⟨-, rfl⟩ | ⟨-, rfl⟩ | ⟨-, rfl⟩ | ⟨-, rfl⟩ | ⟨-, rfl⟩ | ⟨-, rfl⟩ | ⟨-, rfl⟩ |
      ⟨-, rfl⟩ | ⟨-, rfl⟩ | ⟨-, rfl⟩ | ⟨-, rfl⟩ | ⟨-, rfl⟩ | ⟨-, rfl⟩ | ⟨hraw, -⟩ | ⟨-, rfl⟩
    · exact keepsPlain_onText _
    · exact keepsPlain_onText _
    · exact keepsPlain_onText _
    · exact keepsPlain_onText _
    · exact keepsPlain_onText _
    · intro input args v _ _ h
      cases h
      exact plain_length _
    · exact keepsPlain_first
    · exact keepsPlain_last
    · exact keepsPlain_reverse
    · exact keepsPlain_sort
    · exact keepsPlain_join
    · exact keepsPlain_orDefault
    · exact keepsPlain_escapeFilter
    · exact absurd (congrArg Callee.filter hraw) h
    · intro input args v _ _ h
      cases h
      simp

/-- The built-in callables other than `raw`. -/
def Callables.withoutRaw : Callables :=
  { Callables.builtin with filters := Dict.erase Callables.builtin.filters "raw" }

theorem keepsPlain_withoutRaw (callee : Callee) : Callables.withoutRaw.KeepsPlain callee := by
  cases callee with
  | function name => exact @keepsPlain_builtin (.function name) (by simp)
  | filter name =>
    intro f hf
    rw [Callables.withoutRaw, Dict.find?_erase] at hf
    split at hf
    · cases hf
    · next hname => exact @keepsPlain_builtin (.filter name) (by simpa using hname) f hf

/-! ### Expressions -/

namespace Value

theorem plain_arithmetic (onInts : Int64 → Int64 → Int64) (onFloats : Float → Float → Float)
    (a b : Value) : (arithmetic onInts onFloats a b).Plain := by
  unfold arithmetic
  split <;> simp

theorem plain_add {a b : Value} (ha : a.Plain) (hb : b.Plain) : (a.add b).Plain := by
  unfold add
  split
  · simp
  · rw [plain_list] at ha hb ⊢
    exact List.forall_mem_append.2 ⟨ha, hb⟩
  · exact plain_arithmetic _ _ _ _

theorem plain_div (a b : Value) : (a.div b).Plain := by
  unfold div
  split
  · split
    · simp
    · split <;> simp
  all_goals first | simp | (split <;> simp)

theorem plain_mod (a b : Value) : (a.mod b).Plain := by
  unfold mod
  split
  all_goals first | simp | (split <;> simp)

end Value

theorem UnaryOp.plain_apply (op : UnaryOp) (v : Value) : (op.apply v).Plain := by
  cases op with
  | not => simp [UnaryOp.apply]
  | neg =>
    change v.neg.Plain
    unfold Value.neg
    split <;> simp

theorem BinaryOp.plain_apply (op : BinaryOp) {a b : Value} (ha : a.Plain) (hb : b.Plain) :
    (op.apply a b).Plain := by
  cases op with
  | and | or => dsimp only [BinaryOp.apply]; split <;> assumption
  | eq | ne | lt | le | gt | ge => simp [BinaryOp.apply, BinaryOp.ordered]
  | add => exact Value.plain_add ha hb
  | sub => exact Value.plain_arithmetic _ _ a b
  | mul => exact Value.plain_arithmetic _ _ a b
  | div => exact Value.plain_div a b
  | mod => exact Value.plain_mod a b
  | concat => simp [BinaryOp.apply, Value.concat]

/-- Whether the variables in view are plain. -/
def Scopes.Plain (s : Scopes) : Prop :=
  ∀ name v, s.get? name = some v → v.Plain

theorem Callables.call_plain {c : Callables} {name : String} {args : List Value} {v : Value}
    (hc : c.KeepsPlain (.function name)) (hargs : ∀ a ∈ args, a.Plain)
    (h : c.call name args = .ok v) : v.Plain := by
  unfold Callables.call at h
  split at h
  · next f hf =>
    split at h
    · cases h
    · cases hv : f args with
      | error message => rw [hv] at h; cases h
      | ok w => rw [hv] at h; cases h; exact hc f hf args _ hargs hv
  · cases h

theorem Callables.pipe_plain {c : Callables} {name : String} {input : Value} {args : List Value}
    {v : Value} (hc : c.KeepsPlain (.filter name)) (hinput : input.Plain)
    (hargs : ∀ a ∈ args, a.Plain) (h : c.pipe name input args = .ok v) : v.Plain := by
  unfold Callables.pipe at h
  split at h
  · next f hf =>
    split at h
    · cases h
    · cases hv : f input args with
      | error message => rw [hv] at h; cases h
      | ok w => rw [hv] at h; cases h; exact hc f hf input args _ hinput hargs hv
  · cases h

theorem Literal.plain_value (l : Literal) : l.value.Plain := by
  cases l <;> simp [Literal.value]

mutual

/-- **Plain expressions.** The value of an expression is plain if its variables are and its
callables keep values plain. -/
theorem Expr.eval_plain {c : Callables} {s : Scopes} (hs : s.Plain) : ∀ (e : Expr) {v : Value},
    (∀ callee ∈ e.callees, c.KeepsPlain callee) → e.eval c s = .ok v → v.Plain
  | .lit constant, v, _, h => by
    rw [Expr.eval] at h
    cases h
    exact constant.plain_value
  | .list items, v, hc, h => by
    rw [Expr.eval] at h
    obtain ⟨values, hvalues, h⟩ := Lexer.bind_eq_ok.1 h
    cases h
    exact Value.plain_list.2 (Expr.evalList_plain hs items hc hvalues)
  | .var name, v, _, h => by
    rw [Expr.eval] at h
    cases h
    exact Value.plain_getD fun v hv => hs name v hv
  | .field base name, v, hc, h => by
    rw [Expr.eval] at h
    obtain ⟨w, hw, h⟩ := Lexer.bind_eq_ok.1 h
    cases h
    exact (Expr.eval_plain hs base hc hw).field name
  | .index base key, v, hc, h => by
    obtain ⟨hbase, -⟩ := List.forall_mem_append.1 hc
    rw [Expr.eval] at h
    obtain ⟨w, hw, h⟩ := Lexer.bind_eq_ok.1 h
    obtain ⟨k, hk, h⟩ := Lexer.bind_eq_ok.1 h
    cases h
    exact (Expr.eval_plain hs base hbase hw).item k
  | .call name args, v, hc, h => by
    obtain ⟨hname, hargs⟩ := List.forall_mem_cons.1 hc
    rw [Expr.eval] at h
    obtain ⟨values, hvalues, h⟩ := Lexer.bind_eq_ok.1 h
    exact Callables.call_plain hname (Expr.evalList_plain hs args hargs hvalues) h
  | .filter input name args, v, hc, h => by
    obtain ⟨hname, hrest⟩ := List.forall_mem_cons.1 hc
    obtain ⟨hinput, hargs⟩ := List.forall_mem_append.1 hrest
    rw [Expr.eval] at h
    obtain ⟨w, hw, h⟩ := Lexer.bind_eq_ok.1 h
    obtain ⟨values, hvalues, h⟩ := Lexer.bind_eq_ok.1 h
    exact Callables.pipe_plain hname (Expr.eval_plain hs input hinput hw)
      (Expr.evalList_plain hs args hargs hvalues) h
  | .unary op operand, v, hc, h => by
    rw [Expr.eval] at h
    obtain ⟨w, -, h⟩ := Lexer.bind_eq_ok.1 h
    cases h
    exact op.plain_apply w
  | .binary op left right, v, hc, h => by
    obtain ⟨hleft, hright⟩ := List.forall_mem_append.1 hc
    rw [Expr.eval] at h
    obtain ⟨a, ha, h⟩ := Lexer.bind_eq_ok.1 h
    have hplain := Expr.eval_plain hs left hleft ha
    split at h
    · cases h; exact hplain
    · obtain ⟨b, hb, h⟩ := Lexer.bind_eq_ok.1 h
      cases h
      exact op.plain_apply hplain (Expr.eval_plain hs right hright hb)

/-- The values of several expressions are plain. -/
theorem Expr.evalList_plain {c : Callables} {s : Scopes} (hs : s.Plain) :
    ∀ (es : List Expr) {values : List Value},
      (∀ callee ∈ Expr.calleesOfList es, c.KeepsPlain callee) →
      Expr.evalList c s es = .ok values → ∀ v ∈ values, v.Plain
  | [], values, _, h => by
    rw [Expr.evalList] at h
    cases h
    simp
  | e :: es, values, hc, h => by
    obtain ⟨he, hes⟩ := List.forall_mem_append.1 hc
    rw [Expr.evalList] at h
    obtain ⟨v, hv, h⟩ := Lexer.bind_eq_ok.1 h
    obtain ⟨rest, hrest, h⟩ := Lexer.bind_eq_ok.1 h
    cases h
    exact List.forall_mem_cons.2 ⟨Expr.eval_plain hs e he hv, Expr.evalList_plain hs es hes hrest⟩

end

/-! ### Variables -/

theorem Scopes.plain_ofJson (j : Json) : (Scopes.ofJson j).Plain := by
  intro name v h
  unfold Scopes.ofJson at h
  split at h
  · next members =>
    obtain ⟨value, hfind⟩ : ∃ d : Dict Value, d.find? name = some v ∧ ∀ e ∈ d, e.2.Plain := by
      refine ⟨Dict.ofPairs (Value.ofJsonMembers members), by simpa [Scopes.get?] using h, ?_⟩
      exact fun e he => Value.plain_ofJsonMembers members e (Dict.mem_ofPairs he)
    exact hfind.2 _ (Dict.mem_of_find? hfind.1)
  · simp [Scopes.get?, Scopes.empty] at h

theorem Scopes.Plain.set {s : Scopes} (hs : s.Plain) (name : String) {v : Value} (hv : v.Plain) :
    (s.set name v).Plain := by
  intro other w h
  rw [Scopes.get?_set] at h
  split at h
  · cases h; exact hv
  · exact hs other w h

theorem Scopes.Plain.push {s : Scopes} (hs : s.Plain) : s.push.Plain :=
  fun name v h => hs name v (by rwa [Scopes.get?_push] at h)

theorem plain_loopValue (index count : Nat) : (loopValue index count).Plain := by
  simp [loopValue]

/-- The keys and the values that a loop over a plain value goes through are plain. -/
theorem Value.Plain.entries {v : Value} (hv : v.Plain) :
    ∀ e ∈ v.entries, e.1.Plain ∧ e.2.Plain := by
  intro e he
  unfold Value.entries at he
  split at he
  · obtain ⟨⟨i, w⟩, hmem, rfl⟩ := List.mem_map.1 he
    exact ⟨by simp, Value.plain_list.1 hv w (List.of_mem_zip hmem).2⟩
  · obtain ⟨⟨name, w⟩, hmem, rfl⟩ := List.mem_map.1 he
    exact ⟨by simp, Value.plain_dict.1 hv _ hmem⟩
  · cases he

/-- **Plain loops.** The variables in view stay plain in the passes of a loop over a plain value. -/
theorem Scopes.Plain.passes {s : Scopes} (hs : s.Plain) {v : Value} (hv : v.Plain)
    {key : Option String} {name : String} {s' : Scopes} (h : s' ∈ s.passes key name v) :
    s'.Plain := by
  obtain ⟨⟨index, k, w⟩, hmem, rfl⟩ := List.mem_map.1 h
  obtain ⟨hk, hw⟩ := hv.entries _ (List.of_mem_zip hmem).2
  refine Scopes.Plain.set (Scopes.Plain.set ?_ name hw) "loop" (plain_loopValue _ _)
  cases key with
  | none => exact hs.push
  | some keyName => exact hs.push.set keyName hk

end Hashmark
