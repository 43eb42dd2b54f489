import Mathlib.Data.Set.Basic
import Hashmark.Engine
import Hashmark.Proofs.Optimizing.Preparation
import Hashmark.Proofs.Rendering.Depth

/-!
# Sections in place

Where nothing overrides a block, its own nodes stand for it. So a template without overrides should
render as if each block were replaced by its nodes (`Node.inPlace`). What it does render as leaves
out every block inside of one of its own name (`Node.shown`): the guard that ends an override with a
yield of itself also takes such a block for one that has been entered already, though nothing comes
back to it (`render_eq_shown`).

The two agree exactly when no block stands inside of one of its own name (`rendersInPlace_iff`), at
whatever distance and however it got there; `lost_inner_section` is a page where they do not.
-/

namespace Hashmark

/-! ### Replacing blocks -/

mutual

/-- A node with every block in it, at any depth, replaced by its nodes. -/
def Node.inPlace : Node → List Node
  | .block _ body => Node.inPlaceList body
  | .choose branches otherwise =>
    [.choose (Node.inPlaceBranches branches) (Node.inPlaceOption otherwise)]
  | .forEach source key value body => [.forEach source key value (Node.inPlaceList body)]
  | .text content => [.text content]
  | .emit value => [.emit value]
  | .yield name default => [.yield name default]
  | .connect name => [.connect name]
  | .comment content => [.comment content]

/-- Several nodes with every block replaced by its nodes. -/
def Node.inPlaceList : List Node → List Node
  | [] => []
  | node :: nodes => node.inPlace ++ Node.inPlaceList nodes

/-- The branches of a choice with every block replaced by its nodes. -/
def Node.inPlaceBranches : List (Expr × List Node) → List (Expr × List Node)
  | [] => []
  | (condition, body) :: branches =>
    (condition, Node.inPlaceList body) :: Node.inPlaceBranches branches

/-- A body that may be absent with every block replaced by its nodes. -/
def Node.inPlaceOption : Option (List Node) → Option (List Node)
  | none => none
  | some body => some (Node.inPlaceList body)

end

mutual

/-- A node inside of blocks with the names in `active`, where a block of such a name is dropped and
every other one is replaced by its nodes. -/
def Node.shown (active : List String) : Node → List Node
  | .block name body => if name ∈ active then [] else Node.shownList (name :: active) body
  | .choose branches otherwise =>
    [.choose (Node.shownBranches active branches) (Node.shownOption active otherwise)]
  | .forEach source key value body => [.forEach source key value (Node.shownList active body)]
  | .text content => [.text content]
  | .emit value => [.emit value]
  | .yield name default => [.yield name default]
  | .connect name => [.connect name]
  | .comment content => [.comment content]

/-- Several nodes inside of blocks with the names in `active`. -/
def Node.shownList (active : List String) : List Node → List Node
  | [] => []
  | node :: nodes => node.shown active ++ Node.shownList active nodes

/-- The branches of a choice inside of blocks with the names in `active`. -/
def Node.shownBranches (active : List String) :
    List (Expr × List Node) → List (Expr × List Node)
  | [] => []
  | (condition, body) :: branches =>
    (condition, Node.shownList active body) :: Node.shownBranches active branches

/-- A body that may be absent inside of blocks with the names in `active`. -/
def Node.shownOption (active : List String) : Option (List Node) → Option (List Node)
  | none => none
  | some body => some (Node.shownList active body)

end

/-! ### Blocks inside of blocks -/

mutual

/-- The pairs of blocks in a node of which the second stands in the first, by their names. -/
def Node.nestings : Node → List (String × String)
  | .block name body =>
    (Node.blockNamesOfList body).map (name, ·) ++ Node.nestingsOfList body
  | .choose branches otherwise =>
    Node.nestingsOfBranches branches ++ Node.nestingsOfOption otherwise
  | .forEach _ _ _ body => Node.nestingsOfList body
  | .text _ | .emit _ | .yield _ _ | .connect _ | .comment _ => []

/-- The pairs of nested blocks in several nodes. -/
def Node.nestingsOfList : List Node → List (String × String)
  | [] => []
  | node :: nodes => node.nestings ++ Node.nestingsOfList nodes

/-- The pairs of nested blocks in the branches of a choice. -/
def Node.nestingsOfBranches : List (Expr × List Node) → List (String × String)
  | [] => []
  | (_, body) :: branches => Node.nestingsOfList body ++ Node.nestingsOfBranches branches

/-- The pairs of nested blocks in a body that may be absent. -/
def Node.nestingsOfOption : Option (List Node) → List (String × String)
  | none => []
  | some body => Node.nestingsOfList body

end

/-- Whether no block among some names and pairs is inside of one of its own name: none of the names
is active, and no pair is a name twice. -/
structure Unrepeated (active : List String) (names : List String)
    (pairs : List (String × String)) : Prop where
  fresh : ∀ name ∈ names, name ∉ active
  distinct : ∀ pair ∈ pairs, pair.1 ≠ pair.2

namespace Unrepeated

variable {active names more : List String} {pairs others : List (String × String)} {name : String}

theorem append (h : Unrepeated active (names ++ more) (pairs ++ others)) :
    Unrepeated active names pairs ∧ Unrepeated active more others := by
  obtain ⟨hfresh, hdistinct⟩ := h
  rw [List.forall_mem_append] at hfresh hdistinct
  exact ⟨⟨hfresh.1, hdistinct.1⟩, ⟨hfresh.2, hdistinct.2⟩⟩

/-- What is inside of a block may have none of the names around it, nor that of the block. -/
theorem body (h : Unrepeated active (name :: names) (names.map (name, ·) ++ pairs)) :
    name ∉ active ∧ Unrepeated (name :: active) names pairs := by
  obtain ⟨hfresh, hdistinct⟩ := h
  rw [List.forall_mem_cons] at hfresh
  rw [List.forall_mem_append, List.forall_mem_map] at hdistinct
  refine ⟨hfresh.1, ⟨fun inner hinner => ?_, hdistinct.2⟩⟩
  rw [List.mem_cons, not_or]
  exact ⟨(hdistinct.1 inner hinner).symm, hfresh.2 inner hinner⟩

end Unrepeated

mutual

/-- Where no block is inside of one of its own name, no block is dropped. -/
theorem Node.shown_eq_inPlace (active : List String) : ∀ node : Node,
    Unrepeated active node.blockNames node.nestings → node.shown active = node.inPlace
  | .block name body, h => by
    obtain ⟨hnot, hbody⟩ := Unrepeated.body h
    rw [Node.shown, Node.inPlace, if_neg hnot]
    exact Node.shownList_eq_inPlaceList (name :: active) body hbody
  | .choose branches otherwise, h => by
    obtain ⟨hbranches, hotherwise⟩ := Unrepeated.append h
    rw [Node.shown, Node.inPlace, Node.shownBranches_eq_inPlaceBranches active branches hbranches,
      Node.shownOption_eq_inPlaceOption active otherwise hotherwise]
  | .forEach source key value body, h => by
    rw [Node.shown, Node.inPlace, Node.shownList_eq_inPlaceList active body h]
  | .text _, _ | .emit _, _ | .yield _ _, _ | .connect _, _ | .comment _, _ => rfl

theorem Node.shownList_eq_inPlaceList (active : List String) : ∀ nodes : List Node,
    Unrepeated active (Node.blockNamesOfList nodes) (Node.nestingsOfList nodes) →
      Node.shownList active nodes = Node.inPlaceList nodes
  | [], _ => rfl
  | node :: nodes, h => by
    obtain ⟨hnode, hnodes⟩ := Unrepeated.append h
    rw [Node.shownList, Node.inPlaceList, Node.shown_eq_inPlace active node hnode,
      Node.shownList_eq_inPlaceList active nodes hnodes]

theorem Node.shownBranches_eq_inPlaceBranches (active : List String) :
    ∀ branches : List (Expr × List Node),
      Unrepeated active (Node.blockNamesOfBranches branches) (Node.nestingsOfBranches branches) →
        Node.shownBranches active branches = Node.inPlaceBranches branches
  | [], _ => rfl
  | (condition, body) :: branches, h => by
    obtain ⟨hbody, hbranches⟩ := Unrepeated.append h
    rw [Node.shownBranches, Node.inPlaceBranches,
      Node.shownList_eq_inPlaceList active body hbody,
      Node.shownBranches_eq_inPlaceBranches active branches hbranches]

theorem Node.shownOption_eq_inPlaceOption (active : List String) :
    ∀ otherwise : Option (List Node),
      Unrepeated active (Node.blockNamesOfOption otherwise) (Node.nestingsOfOption otherwise) →
        Node.shownOption active otherwise = Node.inPlaceOption otherwise
  | none, _ => rfl
  | some body, h => by
    rw [Node.shownOption, Node.inPlaceOption, Node.shownList_eq_inPlaceList active body h]

end

/-! ### Rendering without overrides -/

section Rendering

variable (callables : Callables)

mutual

/-- A node writes what is shown of it, which has no block. -/
theorem Node.render_eq_shown (active : List String) (s : Scopes) : ∀ node : Node,
    node.render ⟨callables, []⟩ active s = Node.renderList ⟨callables, []⟩ [] s (node.shown active)
  | .block name body => by
    rw [Node.shown]
    split
    · next hactive =>
      rw [render_block_active hactive, Node.renderList]
    · next hnot =>
      rw [render_block_own hnot rfl]
      exact Node.renderList_eq_shownList (name :: active) s body
  | .choose branches otherwise => by
    rw [Node.shown, renderList_singleton, Node.render, Node.render]
    exact Node.renderChoice_eq_shown active s branches
      (Node.renderOption_eq_shown active s otherwise)
  | .forEach source key value body => by
    have hpasses := fun s' => Node.renderList_eq_shownList active s' body
    rw [Node.shown, renderList_singleton, Node.render, Node.render]
    simp only [hpasses]
  | .yield name default => by
    rw [Node.shown, renderList_singleton, render_yield_default rfl, render_yield_default rfl]
  | .text _ | .emit _ | .connect _ | .comment _ => by
    rw [Node.shown, renderList_singleton, Node.render, Node.render]

/-- **What is shown.** Without overrides, nodes write what is left when each block in one of its
own name is dropped and every other one is replaced by its nodes. -/
theorem Node.renderList_eq_shownList (active : List String) (s : Scopes) : ∀ nodes : List Node,
    Node.renderList ⟨callables, []⟩ active s nodes =
      Node.renderList ⟨callables, []⟩ [] s (Node.shownList active nodes)
  | [] => by rw [Node.shownList, Node.renderList, Node.renderList]
  | node :: nodes => by
    rw [Node.shownList, renderList_append, Node.renderList, Node.render_eq_shown active s node,
      Node.renderList_eq_shownList active s nodes]

/-- Branches write what is shown of them if what comes after them does. -/
theorem Node.renderChoice_eq_shown (active : List String) (s : Scopes) :
    ∀ (branches : List (Expr × List Node)) {otherwise otherwise' : Option (List Node)},
      Node.renderChoice ⟨callables, []⟩ active s [] otherwise =
        Node.renderChoice ⟨callables, []⟩ [] s [] otherwise' →
      Node.renderChoice ⟨callables, []⟩ active s branches otherwise =
        Node.renderChoice ⟨callables, []⟩ [] s (Node.shownBranches active branches) otherwise'
  | [], _, _, h => by
    rw [Node.shownBranches]
    exact h
  | (condition, body) :: branches, otherwise, otherwise', h => by
    rw [Node.shownBranches, Node.renderChoice, Node.renderChoice,
      Node.renderList_eq_shownList active s body, Node.renderChoice_eq_shown active s branches h]

theorem Node.renderOption_eq_shown (active : List String) (s : Scopes) :
    ∀ otherwise : Option (List Node),
      Node.renderChoice ⟨callables, []⟩ active s [] otherwise =
        Node.renderChoice ⟨callables, []⟩ [] s [] (Node.shownOption active otherwise)
  | none => by rw [Node.shownOption, Node.renderChoice, Node.renderChoice]
  | some body => by
    rw [Node.shownOption, Node.renderChoice, Node.renderChoice]
    exact Node.renderList_eq_shownList active s body

end

end Rendering

/-! ### Artifacts without overrides -/

/-- The artifact with other nodes for its body. -/
def Artifact.withBody (a : Artifact) (body : List Node) : Artifact :=
  { a with body := body }

/-- Whether an artifact always renders as if each block in its body were replaced by its nodes. -/
def Artifact.RendersInPlace (a : Artifact) : Prop :=
  ∀ (callables : Callables) (s : Scopes),
    a.render callables s = (a.withBody (Node.inPlaceList a.body)).render callables s

/-- An artifact without overrides renders as what is shown of its body. -/
theorem Artifact.render_eq_shown {a : Artifact} (h : a.sections = []) (callables : Callables)
    (s : Scopes) :
    a.render callables s = (a.withBody (Node.shownList [] a.body)).render callables s := by
  unfold Artifact.render Artifact.withBody
  rw [h, Node.renderList_eq_shownList callables [] s a.body]

theorem Artifact.rendersInPlace {a : Artifact} (h : a.sections = [])
    (hnestings : ∀ pair ∈ Node.nestingsOfList a.body, pair.1 ≠ pair.2) : a.RendersInPlace := by
  intro callables s
  have hshown : Node.shownList [] a.body = Node.inPlaceList a.body :=
    Node.shownList_eq_inPlaceList [] a.body ⟨fun _ _ => List.not_mem_nil, hnestings⟩
  rw [a.render_eq_shown h, hshown]

/-- A page whose section holds a text and a section, under two names. -/
def nestedPage (outer inner : String) : Artifact where
  version := Artifact.currentVersion
  name := "page"
  sections := []
  body := [.block outer [.text "a", .block inner [.text "b"]]]
  dependencies := []

theorem nestings_nestedPage (outer inner : String) :
    Node.nestingsOfList (nestedPage outer inner).body = [(outer, inner)] := rfl

/-- A section in one of its own name is left out. -/
theorem render_nestedPage_self (name : String) (callables : Callables) (s : Scopes) :
    (nestedPage name name).render callables s = .ok "a" := by
  rw [Artifact.render_eq_shown rfl]
  have hshown : Node.shownList [] (nestedPage name name).body = [.text "a"] := by
    simp [nestedPage, Node.shownList, Node.shown]
  rw [hshown]
  simp [Artifact.render, Artifact.withBody, Node.renderList, Node.render, bind, Except.bind, pure,
    Except.pure, String.join]

theorem render_nestedPage_inPlace (outer inner : String) (callables : Callables) (s : Scopes) :
    ((nestedPage outer inner).withBody
      (Node.inPlaceList (nestedPage outer inner).body)).render callables s = .ok "ab" := by
  have hinPlace : Node.inPlaceList (nestedPage outer inner).body = [.text "a", .text "b"] := by
    simp [nestedPage, Node.inPlaceList, Node.inPlace]
  rw [hinPlace]
  simp [Artifact.render, Artifact.withBody, Node.renderList, Node.render, bind, Except.bind, pure,
    Except.pure, String.join]

theorem not_rendersInPlace_nestedPage (name : String) :
    ¬(nestedPage name name).RendersInPlace := by
  intro h
  have hequal := h .empty .empty
  rw [render_nestedPage_self, render_nestedPage_inPlace] at hequal
  exact absurd hequal (by decide)

/-- **Sections in place.** An artifact without overrides renders as if each block in its body were
replaced by its nodes, except for the blocks inside of one of their own name, which are left out.
For any nestings that are allowed, all artifacts without other nestings render in place if and only
if no name may stand inside of itself. -/
theorem rendersInPlace_iff (allowed : Set (String × String)) :
    (∀ a : Artifact, a.sections = [] → ∀ (callables : Callables) (s : Scopes),
      a.render callables s = (a.withBody (Node.shownList [] a.body)).render callables s) ∧
    ((∀ a : Artifact, a.sections = [] → (∀ pair ∈ Node.nestingsOfList a.body, pair ∈ allowed) →
      a.RendersInPlace) ↔
      ∀ name, (name, name) ∉ allowed) := by
  refine ⟨fun a h callables s => a.render_eq_shown h callables s, ?_, ?_⟩
  · intro h name hallowed
    refine not_rendersInPlace_nestedPage name (h (nestedPage name name) rfl ?_)
    rw [nestings_nestedPage, List.forall_mem_singleton]
    exact hallowed
  · intro hself a hsections hallowed
    refine a.rendersInPlace hsections fun pair hpair hsame => ?_
    obtain ⟨outer, inner⟩ := pair
    obtain rfl : outer = inner := hsame
    exact hself outer (hallowed _ hpair)

/-- The page `#section('x')a#section('x')b#endsection#endsection` renders as `a`. With the sections
replaced by their nodes it renders as `ab`. -/
theorem lost_inner_section :
    (nestedPage "x" "x").sections = [] ∧
      (nestedPage "x" "x").render .empty .empty = .ok "a" ∧
      ((nestedPage "x" "x").withBody (Node.inPlaceList (nestedPage "x" "x").body)).render
        .empty .empty = .ok "ab" :=
  ⟨rfl, render_nestedPage_self "x" .empty .empty, render_nestedPage_inPlace "x" "x" .empty .empty⟩

end Hashmark
