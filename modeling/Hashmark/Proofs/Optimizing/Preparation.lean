import Hashmark.Optimize
import Hashmark.Proofs.Rendering.Comparison

/-!
# Preparing nodes

Folding constants and merging texts change nothing that is written. Folding even keeps the pieces
(`Node.renderList_foldList`); merging joins some of them, so only what they make up stays the same
(`renderList_prepare`).
-/

namespace Hashmark

/-! ### Folding -/

section Folding

variable (t : Setting)

theorem renderList_append (active : List String) (s : Scopes) (nodes more : List Node) :
    Node.renderList t active s (nodes ++ more) =
      (do
        let p ← Node.renderList t active s nodes
        let q ← Node.renderList t active s more
        pure (p ++ q)) := by
  induction nodes with
  | nil =>
    rw [List.nil_append, Node.renderList]
    cases Node.renderList t active s more <;> rfl
  | cons node nodes ih =>
    rw [List.cons_append, Node.renderList, Node.renderList, ih]
    cases node.render t active s with
    | error e => rfl
    | ok p =>
      cases Node.renderList t active s nodes with
      | error e => rfl
      | ok q => cases Node.renderList t active s more <;> simp [bind, Except.bind, pure, Except.pure]

theorem renderList_singleton (active : List String) (s : Scopes) (node : Node) :
    Node.renderList t active s [node] = node.render t active s := by
  rw [Node.renderList, Node.renderList]
  cases node.render t active s <;> simp [bind, Except.bind, pure, Except.pure]

theorem renderList_choice (active : List String) (s : Scopes)
    (branches : List (Expr × List Node)) (otherwise : Option (List Node)) :
    Node.renderList t active s (Node.choice branches otherwise) =
      Node.renderChoice t active s branches otherwise := by
  cases branches with
  | nil =>
    cases otherwise with
    | none => exact (Node.renderList.eq_1 t active s).trans (Node.renderChoice.eq_2 t active s).symm
    | some body => exact (Node.renderChoice.eq_1 t active s body).symm
  | cons branch branches =>
    refine (renderList_singleton t active s _).trans ?_
    rw [Node.render]

theorem constantTruth?_eval {e : Expr} {b : Bool} (h : e.constantTruth? = some b)
    (callables : Callables) (s : Scopes) :
    ∃ v, e.eval callables s = .ok v ∧ v.isTruthy = b := by
  unfold Expr.constantTruth? at h
  split at h
  · next constant => cases h; exact ⟨constant.value, by rw [Expr.eval], rfl⟩
  · cases h

mutual

/-- A node writes the same pieces after folding. -/
theorem Node.renderList_fold (active : List String) (s : Scopes) : ∀ node : Node,
    Node.renderList t active s node.fold = node.render t active s
  | .text content => by rw [Node.fold, renderList_singleton]
  | .comment content => by rw [Node.fold, Node.renderList, Node.render]
  | .connect name => by rw [Node.fold, renderList_singleton]
  | .yield name default => by rw [Node.fold, renderList_singleton]
  | .emit value => by
    by_cases hconstant : ∃ constant, value = .lit constant
    · obtain ⟨constant, rfl⟩ := hconstant
      rw [Node.fold, renderList_singleton, Node.render, Node.render, Expr.eval]
      rfl
    · rw [Node.fold, renderList_singleton]
      exact fun constant h => hconstant ⟨constant, h⟩
  | .choose branches otherwise => by
    rw [Node.fold, renderList_choice, Node.render]
    exact Node.renderChoice_foldBranches active s branches
      (Node.renderChoice_foldOption active s otherwise)
  | .forEach source key value body => by
    rw [Node.fold, renderList_singleton, Node.render, Node.render]
    have hbody := fun s' => Node.renderList_foldList active s' body
    simp only [hbody]
  | .block name body => by
    rw [Node.fold, renderList_singleton]
    by_cases hactive : name ∈ active
    · rw [render_block_active hactive, render_block_active hactive]
    · cases ho : overrideOf t.overrides name with
      | some override => rw [render_block_override hactive ho, render_block_override hactive ho]
      | none =>
        rw [render_block_own hactive ho, render_block_own hactive ho,
          Node.renderList_foldList (name :: active) s body]

/-- **Folding.** Nodes write the same pieces after their constants are folded. -/
theorem Node.renderList_foldList (active : List String) (s : Scopes) : ∀ nodes : List Node,
    Node.renderList t active s (Node.foldList nodes) = Node.renderList t active s nodes
  | [] => by rw [Node.foldList]
  | node :: nodes => by
    rw [Node.foldList, renderList_append, Node.renderList_fold active s node,
      Node.renderList_foldList active s nodes, Node.renderList]

/-- The branches that are left open decide as all branches do. -/
theorem Node.renderChoice_foldBranches (active : List String) (s : Scopes) :
    ∀ (branches : List (Expr × List Node)) {otherwise otherwise' : Option (List Node)},
      Node.renderChoice t active s [] otherwise' = Node.renderChoice t active s [] otherwise →
      Node.renderChoice t active s (Node.foldBranches branches).1
          ((Node.foldBranches branches).2.or otherwise') =
        Node.renderChoice t active s branches otherwise
  | [], _, _, h => by rw [Node.foldBranches]; exact h
  | (condition, body) :: branches, otherwise, otherwise', h => by
    have hbody := Node.renderList_foldList active s body
    have hrest := Node.renderChoice_foldBranches active s branches h
    unfold Node.foldBranches
    split
    · next htruth =>
      obtain ⟨v, hv, hb⟩ := constantTruth?_eval htruth t.callables s
      rw [Option.some_or, Node.renderChoice, Node.renderChoice, hv, hbody]
      exact (if_pos hb).symm
    · next htruth =>
      obtain ⟨v, hv, hb⟩ := constantTruth?_eval htruth t.callables s
      rw [hrest, Node.renderChoice.eq_3, hv]
      exact (if_neg (by simp [hb])).symm
    · dsimp only
      rw [Node.renderChoice, Node.renderChoice, hbody, hrest]

/-- A body that may be absent writes the same pieces after folding. -/
theorem Node.renderChoice_foldOption (active : List String) (s : Scopes) :
    ∀ otherwise : Option (List Node),
      Node.renderChoice t active s [] (Node.foldOption otherwise) =
        Node.renderChoice t active s [] otherwise
  | none => by rw [Node.foldOption]
  | some body => by
    rw [Node.foldOption, Node.renderChoice, Node.renderChoice,
      Node.renderList_foldList active s body]

end

end Folding

/-! ### Merging -/

theorem congruent_eq : Congruent (· = ·) :=
  ⟨rfl, fun h h' => by rw [h, h']⟩

section Merging

variable (t : Setting)

theorem renderList_text (active : List String) (s : Scopes) (content : String)
    (nodes : List Node) :
    Node.renderList t active s (.text content :: nodes) =
      (Node.renderList t active s nodes).map (content :: ·) := by
  rw [Node.renderList, Node.render]
  cases Node.renderList t active s nodes <;> rfl

/-- Joining a node to merged nodes writes what the node and the others write. -/
theorem renderList_join (active : List String) (s : Scopes) (node : Node) (rest : List Node) :
    Simulates (· = ·) (Node.renderList t active s (node :: rest))
      (Node.renderList t active s (node.join rest)) := by
  cases node with
  | text content =>
    simp only [Node.join]
    split
    · next hempty =>
      rw [renderList_text, hempty]
      cases Node.renderList t active s rest with
      | error e => rfl
      | ok p => exact .ok (by simp)
    · split
      · next next more =>
        rw [renderList_text, renderList_text, renderList_text]
        cases Node.renderList t active s more with
        | error e => rfl
        | ok p => exact .ok (by simp)
      · exact .of_forall_ok fun _ _ => rfl
  | _ => exact .of_forall_ok fun _ _ => rfl

mutual

/-- A node writes the same after its bodies are merged. -/
theorem Node.render_merge (active : List String) (s : Scopes) : ∀ node : Node,
    Simulates (· = ·) (node.render t active s) (node.merge.render t active s)
  | .text _ => .of_forall_ok fun _ _ => rfl
  | .comment _ => .of_forall_ok fun _ _ => rfl
  | .connect _ => .of_forall_ok fun _ _ => rfl
  | .yield _ _ => .of_forall_ok fun _ _ => rfl
  | .emit _ => .of_forall_ok fun _ _ => rfl
  | .choose branches otherwise => by
    rw [Node.merge, Node.render, Node.render]
    exact Node.renderChoice_merge active s branches (Node.renderChoice_mergeOption active s otherwise)
  | .forEach source key value body => by
    rw [Node.merge, Node.render, Node.render]
    exact .bind _ fun v _ => .passes congruent_eq fun s' _ => Node.renderList_mergeList active s' body
  | .block name body => by
    rw [Node.merge]
    by_cases hactive : name ∈ active
    · rw [render_block_active hactive, render_block_active hactive]
      exact .ok rfl
    · cases ho : overrideOf t.overrides name with
      | some override =>
        rw [render_block_override hactive ho, render_block_override hactive ho]
        exact .of_forall_ok fun _ _ => rfl
      | none =>
        rw [render_block_own hactive ho, render_block_own hactive ho]
        exact Node.renderList_mergeList (name :: active) s body

/-- **Merging.** Nodes write the same after their texts are merged. -/
theorem Node.renderList_mergeList (active : List String) (s : Scopes) : ∀ nodes : List Node,
    Simulates (· = ·) (Node.renderList t active s nodes)
      (Node.renderList t active s (Node.mergeList nodes))
  | [] => by rw [Node.mergeList]; exact .of_forall_ok fun _ _ => rfl
  | node :: nodes => by
    have hcons : Simulates (· = ·) (Node.renderList t active s (node :: nodes))
        (Node.renderList t active s (node.merge :: Node.mergeList nodes)) := by
      rw [Node.renderList, Node.renderList]
      exact .append congruent_eq (Node.render_merge active s node)
        (Node.renderList_mergeList active s nodes)
    rw [Node.mergeList]
    exact .trans Eq.trans hcons (renderList_join t active s _ _)

/-- The branches of a choice write the same after their bodies are merged. -/
theorem Node.renderChoice_merge (active : List String) (s : Scopes) :
    ∀ (branches : List (Expr × List Node)) {otherwise otherwise' : Option (List Node)},
      Simulates (· = ·) (Node.renderChoice t active s [] otherwise)
        (Node.renderChoice t active s [] otherwise') →
      Simulates (· = ·) (Node.renderChoice t active s branches otherwise)
        (Node.renderChoice t active s (Node.mergeBranches branches) otherwise')
  | [], _, _, h => by rw [Node.mergeBranches]; exact h
  | (condition, body) :: branches, _, _, h => by
    rw [Node.mergeBranches, Node.renderChoice, Node.renderChoice]
    refine .bind _ fun v _ => ?_
    split
    · exact Node.renderList_mergeList active s body
    · exact Node.renderChoice_merge active s branches h

/-- A body that may be absent writes the same after it is merged. -/
theorem Node.renderChoice_mergeOption (active : List String) (s : Scopes) :
    ∀ otherwise : Option (List Node),
      Simulates (· = ·) (Node.renderChoice t active s [] otherwise)
        (Node.renderChoice t active s [] (Node.mergeOption otherwise))
  | none => by rw [Node.mergeOption]; exact .of_forall_ok fun _ _ => rfl
  | some body => by
    rw [Node.mergeOption, Node.renderChoice, Node.renderChoice]
    exact Node.renderList_mergeList active s body

end

end Merging

/-! ### Preparing -/

/-- **Preparing nodes changes nothing that is written.** -/
theorem renderList_prepare (t : Setting) (active : List String) (s : Scopes) (nodes : List Node) :
    Simulates (· = ·) (Node.renderList t active s nodes)
      (Node.renderList t active s (prepare nodes)) := by
  rw [prepare, ← Node.renderList_foldList t active s nodes]
  exact Node.renderList_mergeList t active s _

theorem overrideOf_map (overrides : List Override) (f : List Node → List Node) (name : String) :
    overrideOf (overrides.map fun o => { o with body := f o.body }) name =
      (overrideOf overrides name).map f := by
  induction overrides with
  | nil => rfl
  | cons o os ih =>
    by_cases h : o.name = name
    · simp [overrideOf, h]
    · simpa [overrideOf, h] using ih

theorem comparable_eq (callables : Callables) : Comparable (· = ·) callables fun _ => True where
  congruent := congruent_eq
  emit _ _ := rfl
  default _ := rfl
  passes _ _ _ := trivial

/-- **Preparing all parts changes nothing that is written**, neither in the nodes nor in the
overrides that they enter. -/
theorem renderList_prepareParts (callables : Callables) (overrides : List Override)
    (active : List String) (s : Scopes) (nodes : List Node) :
    Simulates (· = ·) (Node.renderList ⟨callables, overrides⟩ active s nodes)
      (Node.renderList ⟨callables, overrides.map fun o => { o with body := prepare o.body }⟩ active
        s (prepare nodes)) := by
  refine .trans Eq.trans ?_ (renderList_prepare _ active s nodes)
  refine Node.renderList_overrides (comparable_eq callables) (fun name h => ?_)
    (fun name body h => ⟨fun _ _ => rfl, prepare body, ?_, fun active s x _ hx => ?_⟩) active s
    nodes trivial fun _ _ => rfl
  · rw [overrideOf_map, h]; rfl
  · rw [overrideOf_map, h]; rfl
  · exact .trans Eq.trans hx (renderList_prepare _ active s body)

end Hashmark
