import Mathlib
import Hashmark.Artifact.Basic

/-!
# The floats of an artifact

The constants of an artifact that are doubles (`Artifact.floats`), and the replacement of each of
them by another one, which succeeds if all of them have one (`Artifact.isSome_mapFloats?`).
-/

namespace Hashmark

/-! ### The floats of a tree -/

/-- A constant with its float replaced. -/
def Literal.mapFloat? (f : Float → Option Float) : Literal → Option Literal
  | .float x => (f x).map .float
  | l => some l

mutual

/-- An expression with its floats replaced, if each of them has a replacement. -/
def Expr.mapFloats? (f : Float → Option Float) : Expr → Option Expr
  | .lit value => (value.mapFloat? f).map .lit
  | .list items => do pure (.list (← Expr.mapFloatsOfList? f items))
  | .var name => some (.var name)
  | .field base name => do pure (.field (← base.mapFloats? f) name)
  | .index base key => do pure (.index (← base.mapFloats? f) (← key.mapFloats? f))
  | .call name args => do pure (.call name (← Expr.mapFloatsOfList? f args))
  | .filter input name args => do
    let args ← Expr.mapFloatsOfList? f args
    pure (.filter (← input.mapFloats? f) name args)
  | .unary op operand => do pure (.unary op (← operand.mapFloats? f))
  | .binary op left right => do
    pure (.binary op (← left.mapFloats? f) (← right.mapFloats? f))

/-- Several expressions with their floats replaced. -/
def Expr.mapFloatsOfList? (f : Float → Option Float) : List Expr → Option (List Expr)
  | [] => some []
  | e :: es => do pure ((← e.mapFloats? f) :: (← Expr.mapFloatsOfList? f es))

end

mutual

/-- A node with its floats replaced, if each of them has a replacement. -/
def Node.mapFloats? (f : Float → Option Float) : Node → Option Node
  | .text content => some (.text content)
  | .emit value => (value.mapFloats? f).map .emit
  | .choose branches otherwise => do
    let branches ← Node.mapFloatsOfBranches? f branches
    pure (.choose branches (← Node.mapFloatsOfOption? f otherwise))
  | .forEach source key value body => do
    let body ← Node.mapFloatsOfList? f body
    pure (.forEach (← source.mapFloats? f) key value body)
  | .block name body => do pure (.block name (← Node.mapFloatsOfList? f body))
  | .yield name default => some (.yield name default)
  | .connect name => some (.connect name)
  | .comment content => some (.comment content)

/-- Several nodes with their floats replaced. -/
def Node.mapFloatsOfList? (f : Float → Option Float) : List Node → Option (List Node)
  | [] => some []
  | n :: ns => do pure ((← n.mapFloats? f) :: (← Node.mapFloatsOfList? f ns))

/-- The branches of a choice with their floats replaced. -/
def Node.mapFloatsOfBranches? (f : Float → Option Float) :
    List (Expr × List Node) → Option (List (Expr × List Node))
  | [] => some []
  | (condition, body) :: branches => do
    let body ← Node.mapFloatsOfList? f body
    let condition ← condition.mapFloats? f
    pure ((condition, body) :: (← Node.mapFloatsOfBranches? f branches))

/-- A body that may be absent with its floats replaced. -/
def Node.mapFloatsOfOption? (f : Float → Option Float) :
    Option (List Node) → Option (Option (List Node))
  | none => some none
  | some body => do pure (some (← Node.mapFloatsOfList? f body))

end

/-- An override with its floats replaced. -/
def Override.mapFloats? (f : Float → Option Float) (o : Override) : Option Override := do
  pure ⟨o.name, ← Node.mapFloatsOfList? f o.body⟩

/-- An artifact with its floats replaced. -/
def Artifact.mapFloats? (f : Float → Option Float) (a : Artifact) : Option Artifact := do
  let sections ← a.sections.mapM (Override.mapFloats? f)
  let body ← Node.mapFloatsOfList? f a.body
  pure { a with sections, body }

/-! ### Which floats there are -/

/-- The float that a constant is. -/
def Literal.floats : Literal → List Float
  | .float x => [x]
  | .null | .bool _ | .int _ | .str _ => []

mutual

/-- The floats among the constants of an expression. -/
def Expr.floats : Expr → List Float
  | .lit value => value.floats
  | .var _ => []
  | .list items => Expr.floatsOfList items
  | .field base _ => base.floats
  | .index base key => base.floats ++ key.floats
  | .call _ args => Expr.floatsOfList args
  | .filter input _ args => input.floats ++ Expr.floatsOfList args
  | .unary _ operand => operand.floats
  | .binary _ left right => left.floats ++ right.floats

/-- The floats among the constants of several expressions. -/
def Expr.floatsOfList : List Expr → List Float
  | [] => []
  | e :: es => e.floats ++ Expr.floatsOfList es

end

/-- The floats of an artifact, in its body and in its overrides. -/
def Artifact.floats (a : Artifact) : List Float :=
  (Node.exprsOfList a.body ++ a.sections.flatMap fun o => Node.exprsOfList o.body).flatMap
    Expr.floats

variable {f : Float → Option Float}

mutual

theorem Expr.isSome_mapFloats? : ∀ e : Expr,
    (e.mapFloats? f).isSome ↔ ∀ x ∈ e.floats, (f x).isSome
  | .lit value => by
    cases value <;> simp [Expr.mapFloats?, Literal.mapFloat?, Expr.floats, Literal.floats]
  | .var name => by simp [Expr.mapFloats?, Expr.floats]
  | .list items => by
    rw [Expr.floats, ← Expr.isSome_mapFloatsOfList? items, Expr.mapFloats?]
    cases Expr.mapFloatsOfList? f items <;> simp
  | .field base name => by
    rw [Expr.floats, ← Expr.isSome_mapFloats? base, Expr.mapFloats?]
    cases base.mapFloats? f <;> simp
  | .index base key => by
    rw [Expr.floats, List.forall_mem_append, ← Expr.isSome_mapFloats? base,
      ← Expr.isSome_mapFloats? key, Expr.mapFloats?]
    cases base.mapFloats? f <;> cases key.mapFloats? f <;> simp
  | .call name args => by
    rw [Expr.floats, ← Expr.isSome_mapFloatsOfList? args, Expr.mapFloats?]
    cases Expr.mapFloatsOfList? f args <;> simp
  | .filter input name args => by
    rw [Expr.floats, List.forall_mem_append, ← Expr.isSome_mapFloats? input,
      ← Expr.isSome_mapFloatsOfList? args, Expr.mapFloats?]
    cases input.mapFloats? f <;> cases Expr.mapFloatsOfList? f args <;> simp
  | .unary op operand => by
    rw [Expr.floats, ← Expr.isSome_mapFloats? operand, Expr.mapFloats?]
    cases operand.mapFloats? f <;> simp
  | .binary op left right => by
    rw [Expr.floats, List.forall_mem_append, ← Expr.isSome_mapFloats? left,
      ← Expr.isSome_mapFloats? right, Expr.mapFloats?]
    cases left.mapFloats? f <;> cases right.mapFloats? f <;> simp

theorem Expr.isSome_mapFloatsOfList? : ∀ es : List Expr,
    (Expr.mapFloatsOfList? f es).isSome ↔ ∀ x ∈ Expr.floatsOfList es, (f x).isSome
  | [] => by simp [Expr.mapFloatsOfList?, Expr.floatsOfList]
  | e :: es => by
    rw [Expr.floatsOfList, List.forall_mem_append, ← Expr.isSome_mapFloats? e,
      ← Expr.isSome_mapFloatsOfList? es, Expr.mapFloatsOfList?]
    cases e.mapFloats? f <;> cases Expr.mapFloatsOfList? f es <;> simp

end

mutual

/-- The floats of a node have replacements if those of its expressions do. -/
theorem Node.isSome_mapFloats? : ∀ n : Node,
    (n.mapFloats? f).isSome ↔ ∀ e ∈ n.exprs, (e.mapFloats? f).isSome
  | .text _ => by simp [Node.mapFloats?, Node.exprs]
  | .connect _ => by simp [Node.mapFloats?, Node.exprs]
  | .comment _ => by simp [Node.mapFloats?, Node.exprs]
  | .yield _ _ => by simp [Node.mapFloats?, Node.exprs]
  | .emit value => by simp [Node.mapFloats?, Node.exprs]
  | .choose branches otherwise => by
    rw [Node.exprs, List.forall_mem_append, ← Node.isSome_mapFloatsOfBranches? branches,
      ← Node.isSome_mapFloatsOfOption? otherwise, Node.mapFloats?]
    cases Node.mapFloatsOfBranches? f branches <;> cases Node.mapFloatsOfOption? f otherwise <;>
      simp
  | .forEach source key value body => by
    rw [Node.exprs, List.forall_mem_cons, ← Node.isSome_mapFloatsOfList? body, Node.mapFloats?]
    cases source.mapFloats? f <;> cases Node.mapFloatsOfList? f body <;> simp
  | .block name body => by
    rw [Node.exprs, ← Node.isSome_mapFloatsOfList? body, Node.mapFloats?]
    cases Node.mapFloatsOfList? f body <;> simp

theorem Node.isSome_mapFloatsOfList? : ∀ ns : List Node,
    (Node.mapFloatsOfList? f ns).isSome ↔ ∀ e ∈ Node.exprsOfList ns, (e.mapFloats? f).isSome
  | [] => by simp [Node.mapFloatsOfList?, Node.exprsOfList]
  | n :: ns => by
    rw [Node.exprsOfList, List.forall_mem_append, ← Node.isSome_mapFloats? n,
      ← Node.isSome_mapFloatsOfList? ns, Node.mapFloatsOfList?]
    cases n.mapFloats? f <;> cases Node.mapFloatsOfList? f ns <;> simp

theorem Node.isSome_mapFloatsOfBranches? : ∀ branches : List (Expr × List Node),
    (Node.mapFloatsOfBranches? f branches).isSome ↔
      ∀ e ∈ Node.exprsOfBranches branches, (e.mapFloats? f).isSome
  | [] => by simp [Node.mapFloatsOfBranches?, Node.exprsOfBranches]
  | (condition, body) :: branches => by
    rw [Node.exprsOfBranches, List.forall_mem_cons, List.forall_mem_append,
      ← Node.isSome_mapFloatsOfList? body, ← Node.isSome_mapFloatsOfBranches? branches,
      Node.mapFloatsOfBranches?]
    cases condition.mapFloats? f <;> cases Node.mapFloatsOfList? f body <;>
      cases Node.mapFloatsOfBranches? f branches <;> simp

theorem Node.isSome_mapFloatsOfOption? : ∀ body : Option (List Node),
    (Node.mapFloatsOfOption? f body).isSome ↔
      ∀ e ∈ Node.exprsOfOption body, (e.mapFloats? f).isSome
  | none => by simp [Node.mapFloatsOfOption?, Node.exprsOfOption]
  | some body => by
    rw [Node.exprsOfOption, ← Node.isSome_mapFloatsOfList? body, Node.mapFloatsOfOption?]
    cases Node.mapFloatsOfList? f body <;> simp

end

theorem Override.isSome_mapFloats?_list (sections : List Override) :
    (sections.mapM (Override.mapFloats? f)).isSome ↔
      ∀ e ∈ sections.flatMap fun o => Node.exprsOfList o.body, (e.mapFloats? f).isSome := by
  induction sections with
  | nil => simp
  | cons o sections ih =>
    rw [List.flatMap_cons, List.forall_mem_append, ← Node.isSome_mapFloatsOfList? o.body, ← ih,
      List.mapM_cons, Override.mapFloats?]
    cases Node.mapFloatsOfList? f o.body <;>
      cases sections.mapM (Override.mapFloats? f) <;> simp

/-- **All floats have replacements** exactly if the artifact has one. -/
theorem Artifact.isSome_mapFloats? (a : Artifact) :
    (a.mapFloats? f).isSome ↔ ∀ x ∈ a.floats, (f x).isSome := by
  have hfloats : (∀ x ∈ a.floats, (f x).isSome) ↔
      ∀ e ∈ Node.exprsOfList a.body ++ a.sections.flatMap fun o => Node.exprsOfList o.body,
        (e.mapFloats? f).isSome := by
    simp only [Artifact.floats, List.mem_flatMap, Expr.isSome_mapFloats?]
    exact ⟨fun h e he x hx => h x ⟨e, he, hx⟩, fun h x ⟨e, he, hx⟩ => h e he x hx⟩
  rw [hfloats, List.forall_mem_append, ← Node.isSome_mapFloatsOfList?,
    ← Override.isSome_mapFloats?_list, Artifact.mapFloats?]
  cases a.sections.mapM (Override.mapFloats? f) <;> cases Node.mapFloatsOfList? f a.body <;> simp

/-- Replacing floats keeps the rest of an artifact that is looked at before it is taken. -/
theorem Artifact.eq_of_mapFloats? {a b : Artifact} (h : a.mapFloats? f = some b) :
    b.version = a.version ∧ b.dependencies = a.dependencies := by
  unfold mapFloats? at h
  simp only [Option.bind_eq_bind, Option.bind_eq_some_iff] at h
  obtain ⟨_, -, _, -, hb⟩ := h
  cases hb
  exact ⟨rfl, rfl⟩

end Hashmark
