import Hashmark.Callable.Builtin
import Hashmark.Proofs.Callables.Guard

/-!
# Renderings that cannot fail

Operators, look-ups and loops give a value for whatever they are given, so a rendering can fail only
in a call. The built-in filters and all built-in functions but `range` never do
(`neverFails_builtin_iff`): a template that is content with these is rendered for all data, whatever
is missing in it and however little its kinds fit (`Artifact.render_forgiving`).
-/

namespace Hashmark

/-- Whether a callee is a built-in filter, or a built-in function other than `range`. -/
def Callee.isForgiving : Callee → Bool
  | .function name => ["count", "json", "max", "min"].contains name
  | .filter name => Callables.builtin.hasFilter name

/-- Whether a callee gives a value for all arguments. -/
def Callables.NeverFails (c : Callables) : Callee → Prop
  | .function name => ∀ args, ∃ v, c.call name args = .ok v
  | .filter name => ∀ input args, ∃ v, c.pipe name input args = .ok v

/-! ### The built-in callables -/

section Builtin

open Builtin

variable {name : String}

/-- A built-in function is one of five; only `range` may give no value. -/
theorem function_cases {f : Function} (h : Dict.find? Callables.builtin.functions name = some f) :
    ¬SpellsDenied name ∧
      (name = "range" ∧ f = range ∨
        Callee.isForgiving (.function name) = true ∧ ∀ args, ∃ v, f args = .ok v) := by
  have hmem := Dict.mem_ofPairs (Dict.mem_of_find? h)
  simp only [List.mem_cons, List.not_mem_nil, or_false, Prod.mk.injEq] at hmem
  rcases hmem with ⟨rfl, rfl⟩ | ⟨rfl, rfl⟩ | ⟨rfl, rfl⟩ | ⟨rfl, rfl⟩ | ⟨rfl, rfl⟩
  · exact ⟨by decide, .inr ⟨by decide, fun args => by cases args <;> exact ⟨_, rfl⟩⟩⟩
  · exact ⟨by decide, .inl ⟨rfl, rfl⟩⟩
  · exact ⟨by decide, .inr ⟨by decide, fun args => by cases args <;> exact ⟨_, rfl⟩⟩⟩
  · exact ⟨by decide, .inr ⟨by decide, fun args => by unfold extreme; split <;> exact ⟨_, rfl⟩⟩⟩
  · exact ⟨by decide, .inr ⟨by decide, fun args => by unfold extreme; split <;> exact ⟨_, rfl⟩⟩⟩

/-- A built-in filter gives a value, whatever is piped into it. -/
theorem filter_ok {f : Filter} (h : Dict.find? Callables.builtin.filters name = some f) :
    ¬SpellsDenied name ∧ ∀ input args, ∃ v, f input args = .ok v := by
  have hmem := Dict.mem_ofPairs (Dict.mem_of_find? h)
  simp only [List.mem_cons, List.not_mem_nil, or_false, Prod.mk.injEq] at hmem
  rcases hmem with ⟨rfl, rfl⟩ | ⟨rfl, rfl⟩ | ⟨rfl, rfl⟩ | ⟨rfl, rfl⟩ | ⟨rfl, rfl⟩ | ⟨rfl, rfl⟩ |
    ⟨rfl, rfl⟩ | ⟨rfl, rfl⟩ | ⟨rfl, rfl⟩ | ⟨rfl, rfl⟩ | ⟨rfl, rfl⟩ | ⟨rfl, rfl⟩ | ⟨rfl, rfl⟩ |
    ⟨rfl, rfl⟩ | ⟨rfl, rfl⟩
  all_goals exact ⟨by decide, fun input args => ⟨_, rfl⟩⟩

theorem neverFails_function_iff :
    Callables.builtin.NeverFails (.function name) ↔
      Callee.isForgiving (.function name) = true := by
  constructor
  · intro h
    obtain ⟨v, hv⟩ := h []
    cases hf : Dict.find? Callables.builtin.functions name with
    | none => simp [Callables.call, hf] at hv
    | some f =>
      obtain ⟨hname, ⟨-, rfl⟩ | ⟨hforgiving, -⟩⟩ := function_cases hf
      · rw [Callables.call_of_find? hf hname] at hv
        cases hv
      · exact hforgiving
  · intro h args
    have hregistered : (Dict.find? Callables.builtin.functions name).isSome = true := by
      have hcases : name = "count" ∨ name = "json" ∨ name = "max" ∨ name = "min" := by
        simpa [Callee.isForgiving] using h
      rcases hcases with rfl | rfl | rfl | rfl <;> rfl
    obtain ⟨f, hf⟩ := Option.isSome_iff_exists.1 hregistered
    obtain ⟨hname, ⟨rfl, -⟩ | ⟨-, hok⟩⟩ := function_cases hf
    · exact absurd h (by decide)
    · obtain ⟨v, hv⟩ := hok args
      exact ⟨v, by rw [Callables.call_of_find? hf hname, hv]; rfl⟩

theorem neverFails_filter_iff :
    Callables.builtin.NeverFails (.filter name) ↔ Callee.isForgiving (.filter name) = true := by
  constructor
  · intro h
    obtain ⟨v, hv⟩ := h .undefined []
    cases hf : Dict.find? Callables.builtin.filters name with
    | none => simp [Callables.pipe, hf] at hv
    | some f => simp [Callee.isForgiving, Callables.hasFilter, Dict.contains, hf]
  · intro h input args
    obtain ⟨f, hf⟩ := Option.isSome_iff_exists.1 h
    obtain ⟨hname, hok⟩ := filter_ok hf
    obtain ⟨v, hv⟩ := hok input args
    exact ⟨v, by rw [Callables.pipe_of_find? hf hname, hv]; rfl⟩

/-- **The callables that never fail.** Of all names, these are the built-in filters and the built-in
functions other than `range`. -/
theorem neverFails_builtin_iff {callee : Callee} :
    Callables.builtin.NeverFails callee ↔ callee.isForgiving = true := by
  cases callee with
  | function name => exact neverFails_function_iff
  | filter name => exact neverFails_filter_iff

end Builtin

/-! ### Renderings -/

theorem stepwise_ok : Stepwise fun x _ => ∃ v, x = .ok v where
  ok a := ⟨a, rfl⟩
  bind {_ _ _ _ _ _} hx hf := by
    obtain ⟨a, rfl⟩ := hx
    exact hf a

theorem related_of_isForgiving {callee : Callee} (h : callee.isForgiving = true) :
    Callables.Related (fun x _ => ∃ v, x = .ok v) .builtin .builtin callee := by
  have hnever := neverFails_builtin_iff.2 h
  cases callee <;> exact hnever

/-- **Forgiving rendering.** An artifact that calls nothing but built-in filters and the built-in
functions `count`, `json`, `max` and `min` has an output for all variables in view. Each expression
with such callees has a value, also one that this rendering does not come to. -/
theorem Artifact.render_forgiving {a : Artifact}
    (h : ∀ callee ∈ a.callees, callee.isForgiving = true) (s : Scopes) :
    (∃ out, a.render .builtin s = .ok out) ∧
      ∀ e : Expr, (∀ callee ∈ e.callees, callee ∈ a.callees) →
        ∀ s', ∃ v, e.eval .builtin s' = .ok v := by
  constructor
  · obtain ⟨pieces, hpieces⟩ := a.render_related stepwise_ok
      (fun callee hcallee => related_of_isForgiving (h callee hcallee)) s
    exact ⟨String.join pieces, by rw [Artifact.render, hpieces]⟩
  · intro e he s'
    exact e.eval_related stepwise_ok s' fun callee hcallee =>
      related_of_isForgiving (h callee (he callee hcallee))

/-- Operators, indexes, loops and filters on data of the wrong kinds, at the edges of whole numbers,
and on what is not there. -/
theorem render_misfits :
    let least : Expr := .lit (.int Int64.minValue)
    let quotient : Expr := .binary .div least (.unary .neg (.lit (.int 1)))
    let sorted : Expr := .filter (.list [.lit (.str "x"), .var "n", .lit .null]) "sort" [.var "gone"]
    let a : Artifact := ⟨Artifact.currentVersion, "page",
      [⟨"side", [.emit (.filter (.index (.var "n") least) "join" []), .yield "side" none]⟩],
      [.emit quotient, .forEach (.var "n") none "x" [.text "x"], .yield "side" none,
        .forEach sorted none "x" [.emit (.field (.var "x") "f"), .text "."],
        .emit (.call "max" [.var "gone", .filter (.lit (.bool true)) "reverse" []])], []⟩
    let data : Json := .object [("n", .bool false)]
    (∀ callee ∈ a.callees, callee.isForgiving = true) ∧
      ∃ out, a.render .builtin (.ofJson data) = .ok out := by
  intro least quotient sorted a data
  have hcallees : ∀ callee ∈ a.callees, callee.isForgiving = true := by decide
  exact ⟨hcallees, (Artifact.render_forgiving hcallees (.ofJson data)).1⟩

end Hashmark
