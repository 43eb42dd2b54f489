import Hashmark.Engine
import Hashmark.Proofs.Rendering.Comparison
import Mathlib

/-!
# The variables that a rendering reads

What an artifact writes depends on the variables in view only through those that its expressions
name (`Artifact.variables`). Two stacks of scopes may be of any depth and hold anything else: as long
as they answer these names alike (`Scopes.AgreeOn`), the artifact has the same output or the same
fault in both (`Artifact.render_eq_of_agreeOn`). The passes of a loop keep the agreement, since they
set the same variables on both sides, and an override is rendered in the scopes of the place that
yields it.
-/

namespace Hashmark

/-! ### Variables of expressions -/

mutual

/-- The names of the variables of an expression, from left to right. -/
def Expr.variables : Expr → List String
  | .lit _ => []
  | .var name => [name]
  | .list items => Expr.variablesOfList items
  | .field base _ => base.variables
  | .index base key => base.variables ++ key.variables
  | .call _ args => Expr.variablesOfList args
  | .filter input _ args => input.variables ++ Expr.variablesOfList args
  | .unary _ operand => operand.variables
  | .binary _ left right => left.variables ++ right.variables

/-- The names of the variables of several expressions. -/
def Expr.variablesOfList : List Expr → List String
  | [] => []
  | e :: es => e.variables ++ Expr.variablesOfList es

end

/-- The names of the variables in the expressions of some nodes, at any depth. -/
def Node.variablesOfList (nodes : List Node) : List String :=
  (Node.exprsOfList nodes).flatMap Expr.variables

/-- The names of the variables of an artifact, in its body and in its overrides. -/
def Artifact.variables (a : Artifact) : List String :=
  Node.variablesOfList a.body ++ a.sections.flatMap fun o => Node.variablesOfList o.body

/-! ### Scopes that agree -/

/-- Whether two stacks of scopes give the same answer, a value or none, for each of some names. -/
def Scopes.AgreeOn (names : List String) (s s' : Scopes) : Prop :=
  ∀ name ∈ names, s.get? name = s'.get? name

namespace Scopes.AgreeOn

variable {names : List String} {s s' : Scopes}

theorem push (h : AgreeOn names s s') : AgreeOn names s.push s'.push := by
  intro name hname
  rw [Scopes.get?_push, Scopes.get?_push]
  exact h name hname

/-- A variable that is set is the same one afterwards, whatever it was before. -/
theorem set (h : AgreeOn names s s') (name : String) (value : Value) :
    AgreeOn names (s.set name value) (s'.set name value) := by
  intro other hother
  rw [Scopes.get?_set, Scopes.get?_set, h other hother]

theorem enterPass (h : AgreeOn names s s') (keyName : Option String) (valueName : String)
    (key value : Value) (index count : Nat) :
    AgreeOn names (s.enterPass keyName valueName key value index count)
      (s'.enterPass keyName valueName key value index count) := by
  cases keyName with
  | none => exact (h.push.set _ _).set _ _
  | some keyName => exact ((h.push.set _ _).set _ _).set _ _

end Scopes.AgreeOn

/-- A loop over one value has as many passes from either side, and each of them renders alike. -/
theorem Scopes.mapM_passes_congr {names : List String} {s s' : Scopes}
    {f f' : Scopes → Except CallFault (List String)}
    (hf : ∀ r r', AgreeOn names r r' → f r = f' r') (h : AgreeOn names s s')
    (keyName : Option String) (valueName : String) (source : Value) :
    (s.passes keyName valueName source).mapM f = (s'.passes keyName valueName source).mapM f' := by
  rw [Scopes.passes, Scopes.passes, List.mapM_map, List.mapM_map]
  refine congrArg (List.mapM · _) (funext fun ⟨index, key, value⟩ => ?_)
  exact hf _ _ (h.enterPass keyName valueName key value index _)

/-! ### Evaluation and rendering -/

section Agreement

variable {c : Callables} {names : List String} {s s' : Scopes}

mutual

/-- The value of an expression depends on its variables only. -/
theorem Expr.eval_eq_of_agreeOn (h : Scopes.AgreeOn names s s') : ∀ e : Expr,
    e.variables ⊆ names → e.eval c s = e.eval c s'
  | .lit constant, _ => by rw [Expr.eval, Expr.eval]
  | .var name, hnames => by
    rw [Expr.eval, Expr.eval, h name (hnames List.mem_cons_self)]
  | .list items, hnames => by
    rw [Expr.eval, Expr.eval, Expr.evalList_eq_of_agreeOn h items hnames]
  | .field base name, hnames => by
    rw [Expr.eval, Expr.eval, Expr.eval_eq_of_agreeOn h base hnames]
  | .index base key, hnames => by
    obtain ⟨hbase, hkey⟩ := List.append_subset.1 hnames
    rw [Expr.eval, Expr.eval, Expr.eval_eq_of_agreeOn h base hbase,
      Expr.eval_eq_of_agreeOn h key hkey]
  | .call name args, hnames => by
    rw [Expr.eval, Expr.eval, Expr.evalList_eq_of_agreeOn h args hnames]
  | .filter input name args, hnames => by
    obtain ⟨hinput, hargs⟩ := List.append_subset.1 hnames
    rw [Expr.eval, Expr.eval, Expr.eval_eq_of_agreeOn h input hinput,
      Expr.evalList_eq_of_agreeOn h args hargs]
  | .unary op operand, hnames => by
    rw [Expr.eval, Expr.eval, Expr.eval_eq_of_agreeOn h operand hnames]
  | .binary op left right, hnames => by
    obtain ⟨hleft, hright⟩ := List.append_subset.1 hnames
    rw [Expr.eval, Expr.eval, Expr.eval_eq_of_agreeOn h left hleft,
      Expr.eval_eq_of_agreeOn h right hright]

/-- The values of several expressions depend on their variables only. -/
theorem Expr.evalList_eq_of_agreeOn (h : Scopes.AgreeOn names s s') : ∀ es : List Expr,
    Expr.variablesOfList es ⊆ names → Expr.evalList c s es = Expr.evalList c s' es
  | [], _ => by rw [Expr.evalList, Expr.evalList]
  | e :: es, hnames => by
    obtain ⟨he, hes⟩ := List.append_subset.1 hnames
    rw [Expr.evalList, Expr.evalList, Expr.eval_eq_of_agreeOn h e he,
      Expr.evalList_eq_of_agreeOn h es hes]

end

/-- Whether some expressions have no variables but those of a list. -/
def ReadOnly (names : List String) (es : List Expr) : Prop :=
  ∀ e ∈ es, e.variables ⊆ names

theorem readOnly_of_variables {nodes : List Node} (h : Node.variablesOfList nodes ⊆ names) :
    ReadOnly names (Node.exprsOfList nodes) :=
  fun e he _ hname => h (List.mem_flatMap.2 ⟨e, he, hname⟩)

/-- Renderings in scopes that agree on the variables of what is rendered. -/
theorem lockstep_agreeOn {t : Setting}
    (hoverrides : ∀ name body, overrideOf t.overrides name = some body →
      ReadOnly names (Node.exprsOfList body)) :
    Lockstep t t (Scopes.AgreeOn names) (fun _ => True) (fun e => e.variables ⊆ names) (· = ·) where
  nothing := rfl
  text _ := rfl
  default _ := rfl
  emit h he := by rw [Expr.eval_eq_of_agreeOn h _ he]
  append hx hy := by rw [hx, hy]
  branch h he hx hy := by rw [Expr.eval_eq_of_agreeOn h _ he, hx, hy]
  loop h he hf := by
    rw [Expr.eval_eq_of_agreeOn h _ he]
    refine bind_congr fun v => congrArg (· >>= _) ?_
    exact Scopes.mapM_passes_congr hf h _ _ v
  absent ho := ho
  override {name body} ho := by
    refine ⟨⟨fun _ _ => trivial, hoverrides name body ho⟩, body, ho, ?_⟩
    exact fun _ hx => hx

/-- **Rendering reads its variables only.** Nodes write the same in two stacks of scopes that agree
on the variables of the nodes and of the overrides. -/
theorem Node.renderList_eq_of_agreeOn {t : Setting}
    (hoverrides : ∀ name body, overrideOf t.overrides name = some body →
      ReadOnly names (Node.exprsOfList body))
    (active : List String) (nodes : List Node) (hnodes : ReadOnly names (Node.exprsOfList nodes))
    (h : Scopes.AgreeOn names s s') :
    Node.renderList t active s nodes = Node.renderList t active s' nodes :=
  Node.renderList_lockstep (lockstep_agreeOn hoverrides) active nodes h ⟨fun _ _ => trivial, hnodes⟩

end Agreement

/-! ### Artifacts -/

/-- **Data that is not mentioned.** If two stacks of scopes give the same answer for every variable
that the body of an artifact or one of its overrides names, the artifact has the same output in
both, or the same fault. -/
theorem Artifact.render_eq_of_agreeOn {a : Artifact} {s s' : Scopes}
    (h : Scopes.AgreeOn a.variables s s') (callables : Callables) :
    a.render callables s = a.render callables s' := by
  obtain ⟨hbody, hsections⟩ := List.append_subset.1 (List.Subset.refl a.variables)
  have hoverrides : ∀ name body, overrideOf a.sections name = some body →
      ReadOnly a.variables (Node.exprsOfList body) := by
    intro name body ho
    obtain ⟨o, hfind, rfl⟩ := Option.map_eq_some_iff.1 ho
    refine readOnly_of_variables fun x hx => hsections ?_
    exact List.mem_flatMap.2 ⟨o, List.mem_of_find?_eq_some hfind, hx⟩
  rw [Artifact.render, Artifact.render,
    Node.renderList_eq_of_agreeOn hoverrides [] a.body (readOnly_of_variables hbody) h]

/-- A loop whose body yields an override with a loop of its own. The scopes differ in number, in a
variable that nothing names and in one that is hidden. -/
theorem render_eq_beside_token :
    let side : Override := ⟨"side", [.emit (.var "user"),
      .forEach (.var "items") (some "k") "user"
        [.emit (.binary .concat (.var "k") (.var "user"))]]⟩
    let a : Artifact := ⟨Artifact.currentVersion, "page", [side],
      [.forEach (.var "items") none "x" [.emit (.var "x"), .yield "side" none]], []⟩
    let items : Value := .list [.str "a"]
    let s : Scopes := ⟨[("items", items), ("user", .str "u")], []⟩
    let s' : Scopes :=
      ⟨[("token", .str "t")], [[("items", items)], [("items", .null), ("user", .str "u")]]⟩
    Scopes.AgreeOn a.variables s s' ∧ a.render .empty s = a.render .empty s' ∧
      a.render .empty s = .ok "au0a" := by
  intro side a items s s'
  have hagree : Scopes.AgreeOn a.variables s s' := by
    have hvariables : a.variables = ["items", "x", "user", "items", "k", "user"] := by decide
    simp [Scopes.AgreeOn, hvariables, Scopes.get?, Dict.find?_cons, s, s']
  exact ⟨hagree, Artifact.render_eq_of_agreeOn hagree .empty, by cbv⟩

end Hashmark
