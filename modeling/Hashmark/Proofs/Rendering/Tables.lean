import Hashmark.Engine
import Hashmark.Proofs.Rendering.Comparison

/-!
# Rendering under other tables

What a rendering reads of the tables of callables is the outcome of calls: a relation that holds of
the outcomes of all calls under two pairs of tables, and that passes from steps to what is computed
in steps (`Stepwise`), holds of the two renderings (`Artifact.render_related`). So tables that give
the same outcomes give the same rendering (`Artifact.render_congr`).
-/

namespace Hashmark

/-! ### Callees of nodes -/

/-- What the expressions in some nodes, at any depth, refer to. -/
def Node.calleesOfList (nodes : List Node) : List Callee :=
  (Node.exprsOfList nodes).flatMap Expr.callees

/-- What the expressions of an artifact refer to, in its body and in its overrides. -/
def Artifact.callees (a : Artifact) : List Callee :=
  Node.calleesOfList a.body ++ a.sections.flatMap fun o => Node.calleesOfList o.body

/-! ### Relations between computations -/

/-- A relation between outcomes that holds of values and themselves, and of two computations if it
holds of their first steps and of what follows them. -/
structure Stepwise (R : ∀ {α : Type}, Except CallFault α → Except CallFault α → Prop) : Prop where
  ok : ∀ {α : Type} (a : α), R (.ok a) (.ok a)
  bind : ∀ {α β : Type} {x y : Except CallFault α} {f g : α → Except CallFault β},
    R x y → (∀ a, R (f a) (g a)) → R (x >>= f) (y >>= g)

/-- Whether a relation holds of the outcomes of all calls of a callee under two pairs of tables. -/
def Callables.Related (R : ∀ {α : Type}, Except CallFault α → Except CallFault α → Prop)
    (c c' : Callables) : Callee → Prop
  | .function name => ∀ args, R (c.call name args) (c'.call name args)
  | .filter name => ∀ input args, R (c.pipe name input args) (c'.pipe name input args)

section Related

variable {R : ∀ {α : Type}, Except CallFault α → Except CallFault α → Prop} {c c' : Callables}

theorem Stepwise.mapM (hR : Stepwise R) {α β : Type} {f g : α → Except CallFault β}
    (h : ∀ a, R (f a) (g a)) (items : List α) : R (items.mapM f) (items.mapM g) := by
  induction items with
  | nil => exact hR.ok []
  | cons a items ih =>
    rw [List.mapM_cons, List.mapM_cons]
    exact hR.bind (h a) fun b => hR.bind ih fun bs => hR.ok (b :: bs)

mutual

/-- **Related values.** The outcomes of an expression are related if those of its callees are. -/
theorem Expr.eval_related (hR : Stepwise R) (s : Scopes) : ∀ e : Expr,
    (∀ callee ∈ e.callees, Callables.Related R c c' callee) → R (e.eval c s) (e.eval c' s)
  | .lit constant, _ => by
    rw [Expr.eval, Expr.eval]
    exact hR.ok _
  | .list items, h => by
    rw [Expr.eval, Expr.eval]
    exact hR.bind (Expr.evalList_related hR s items h) fun values => hR.ok _
  | .var name, _ => by
    rw [Expr.eval, Expr.eval]
    exact hR.ok _
  | .field base name, h => by
    rw [Expr.eval, Expr.eval]
    exact hR.bind (Expr.eval_related hR s base h) fun v => hR.ok _
  | .index base key, h => by
    obtain ⟨hbase, hkey⟩ := List.forall_mem_append.1 h
    rw [Expr.eval, Expr.eval]
    refine hR.bind (Expr.eval_related hR s base hbase) fun v => ?_
    exact hR.bind (Expr.eval_related hR s key hkey) fun k => hR.ok _
  | .call name args, h => by
    obtain ⟨hname, hargs⟩ := List.forall_mem_cons.1 h
    rw [Expr.eval, Expr.eval]
    exact hR.bind (Expr.evalList_related hR s args hargs) hname
  | .filter input name args, h => by
    obtain ⟨hname, hrest⟩ := List.forall_mem_cons.1 h
    obtain ⟨hinput, hargs⟩ := List.forall_mem_append.1 hrest
    rw [Expr.eval, Expr.eval]
    refine hR.bind (Expr.eval_related hR s input hinput) fun v => ?_
    exact hR.bind (Expr.evalList_related hR s args hargs) (hname v)
  | .unary op operand, h => by
    rw [Expr.eval, Expr.eval]
    exact hR.bind (Expr.eval_related hR s operand h) fun v => hR.ok _
  | .binary op left right, h => by
    obtain ⟨hleft, hright⟩ := List.forall_mem_append.1 h
    rw [Expr.eval, Expr.eval]
    refine hR.bind (Expr.eval_related hR s left hleft) fun v => ?_
    split
    · exact hR.ok v
    · exact hR.bind (Expr.eval_related hR s right hright) fun w => hR.ok _

/-- The outcomes of several expressions are related if those of their callees are. -/
theorem Expr.evalList_related (hR : Stepwise R) (s : Scopes) : ∀ es : List Expr,
    (∀ callee ∈ Expr.calleesOfList es, Callables.Related R c c' callee) →
      R (Expr.evalList c s es) (Expr.evalList c' s es)
  | [], _ => by
    rw [Expr.evalList, Expr.evalList]
    exact hR.ok []
  | e :: es, h => by
    obtain ⟨he, hes⟩ := List.forall_mem_append.1 h
    rw [Expr.evalList, Expr.evalList]
    refine hR.bind (Expr.eval_related hR s e he) fun v => ?_
    exact hR.bind (Expr.evalList_related hR s es hes) fun values => hR.ok _

end

/-- Whether a relation holds of all calls that some expressions may make. -/
def RelatedExprs (R : ∀ {α : Type}, Except CallFault α → Except CallFault α → Prop)
    (c c' : Callables) (es : List Expr) : Prop :=
  ∀ e ∈ es, ∀ callee ∈ e.callees, Callables.Related R c c' callee

/-- Renderings under two pairs of tables, in the same scopes. -/
theorem Stepwise.lockstep (hR : Stepwise R) {overrides : List Override}
    (hoverrides : ∀ name body, overrideOf overrides name = some body →
      RelatedExprs R c c' (Node.exprsOfList body)) :
    Lockstep ⟨c, overrides⟩ ⟨c', overrides⟩ (· = ·) (fun _ => True)
      (fun e => ∀ callee ∈ e.callees, Callables.Related R c c' callee) R where
  nothing := hR.ok []
  text _ := hR.ok _
  default _ := hR.ok _
  emit := by
    rintro s _ e rfl he
    exact hR.bind (e.eval_related hR s he) fun v => hR.ok _
  append hx hy := hR.bind hx fun p => hR.bind hy fun q => hR.ok _
  branch := by
    rintro s _ e x x' y y' rfl he hx hy
    refine hR.bind (e.eval_related hR s he) fun v => ?_
    split
    · exact hx
    · exact hy
  loop := by
    rintro s _ e key name f f' rfl he hf
    refine hR.bind (e.eval_related hR s he) fun v => ?_
    exact hR.bind (hR.mapM (fun s' => hf s' s' rfl) _) fun passes => hR.ok _
  absent ho := ho
  override {name body} ho := by
    refine ⟨⟨fun _ _ => trivial, hoverrides name body ho⟩, body, ho, ?_⟩
    rintro active s _ x rfl hx
    exact hx

/-- **Related renderings.** What nodes write under two pairs of tables is related if the outcomes of
all calls are that the nodes and the overrides may make. -/
theorem Node.renderList_related (hR : Stepwise R) {overrides : List Override}
    (hoverrides : ∀ name body, overrideOf overrides name = some body →
      RelatedExprs R c c' (Node.exprsOfList body))
    (active : List String) (s : Scopes) (nodes : List Node)
    (hnodes : RelatedExprs R c c' (Node.exprsOfList nodes)) :
    R (Node.renderList ⟨c, overrides⟩ active s nodes)
      (Node.renderList ⟨c', overrides⟩ active s nodes) :=
  Node.renderList_lockstep (hR.lockstep hoverrides) active nodes rfl ⟨fun _ _ => trivial, hnodes⟩

end Related

/-! ### Artifacts -/

theorem relatedExprs_of_callees {R : ∀ {α : Type}, Except CallFault α → Except CallFault α → Prop}
    {c c' : Callables} {nodes : List Node}
    (h : ∀ callee ∈ Node.calleesOfList nodes, Callables.Related R c c' callee) :
    RelatedExprs R c c' (Node.exprsOfList nodes) :=
  fun e he callee hcallee => h callee (List.mem_flatMap.2 ⟨e, he, hcallee⟩)

/-- What the body of an artifact writes under two pairs of tables is related if the outcomes of all
calls are that the artifact may make. -/
theorem Artifact.render_related {R : ∀ {α : Type}, Except CallFault α → Except CallFault α → Prop}
    (hR : Stepwise R) {c c' : Callables} {a : Artifact}
    (h : ∀ callee ∈ a.callees, Callables.Related R c c' callee) (s : Scopes) :
    R (Node.renderList ⟨c, a.sections⟩ [] s a.body)
      (Node.renderList ⟨c', a.sections⟩ [] s a.body) := by
  obtain ⟨hbody, hsections⟩ := List.forall_mem_append.1 h
  refine Node.renderList_related hR (fun name body ho => ?_) [] s a.body
    (relatedExprs_of_callees hbody)
  obtain ⟨o, hmem, -, rfl⟩ := mem_of_overrideOf ho
  exact relatedExprs_of_callees fun callee hcallee =>
    hsections callee (List.mem_flatMap.2 ⟨o, hmem, hcallee⟩)

theorem stepwise_eq : Stepwise fun x y => x = y where
  ok _ := rfl
  bind hxy hfg := by rw [hxy, funext hfg]

/-- **Tables with the same outcomes.** Tables under which all calls that an artifact may make have
the same outcomes give the same rendering. -/
theorem Artifact.render_congr {c c' : Callables} {a : Artifact}
    (h : ∀ callee ∈ a.callees, Callables.Related (fun x y => x = y) c c' callee) (s : Scopes) :
    a.render c s = a.render c' s := by
  rw [Artifact.render, Artifact.render, a.render_related stepwise_eq h s]

end Hashmark
