import Hashmark.Proofs.Callables.Guard
import Hashmark.Template

/-!
# Every expression is checked

A template holds no expression that was not checked against the tables of callables. The builder
keeps expressions in its open blocks and in their nodes; each segment adds only expressions without
a violation (`Builder.step_exprs`), so all expressions of a template are without one, wherever they
stand in it (`parseTemplate_exprs`).
-/

namespace Hashmark

open Lexer (bind_eq_ok)

/-! ### Violations -/

section Violations

variable {c : Callables}

/-- A callee may be called exactly if none of the three checks finds fault with it. -/
theorem Callee.allows_iff {callee : Callee} :
    c.Allows callee ↔
      callee.denied? = none ∧ callee.unknownFunction? c = none ∧
        callee.unknownFilter? c = none := by
  have hdenied : callee.denied? = none ↔ ¬SpellsDenied callee.name := by
    rw [← isDenied_iff, Callee.denied?]
    split <;> simp_all
  rw [hdenied]
  unfold Callables.Allows
  refine and_congr_right fun h => ?_
  rw [← isDenied_iff, Bool.not_eq_true] at h
  cases callee with
  | function name =>
    replace h : isDenied name = false := h
    cases hfind : Dict.find? c.functions name <;>
      simp [Callee.unknownFunction?, Callee.unknownFilter?, h, Callables.hasFunction,
        Dict.contains, hfind]
  | filter name =>
    replace h : isDenied name = false := h
    cases hfind : Dict.find? c.filters name <;>
      simp [Callee.unknownFunction?, Callee.unknownFilter?, h, Callables.hasFilter,
        Dict.contains, hfind]

/-- An expression has no violation exactly if all its callees may be called. -/
theorem Expr.violation?_eq_none {e : Expr} :
    e.violation? c = none ↔ ∀ callee ∈ e.callees, c.Allows callee := by
  rw [Expr.violation?, Option.or_eq_none_iff, Option.or_eq_none_iff, Option.map_eq_none_iff,
    Option.map_eq_none_iff, Option.map_eq_none_iff, List.findSome?_eq_none_iff,
    List.findSome?_eq_none_iff, List.findSome?_eq_none_iff]
  constructor
  · rintro ⟨hdenied, hfunction, hfilter⟩ callee hcallee
    exact Callee.allows_iff.2
      ⟨hdenied callee hcallee, hfunction callee hcallee, hfilter callee hcallee⟩
  · intro h
    exact ⟨fun callee hcallee => (Callee.allows_iff.1 (h callee hcallee)).1,
      fun callee hcallee => (Callee.allows_iff.1 (h callee hcallee)).2.1,
      fun callee hcallee => (Callee.allows_iff.1 (h callee hcallee)).2.2⟩

end Violations

/-! ### Expressions of lists -/

theorem exprsOfList_eq_flatMap (nodes : List Node) :
    Node.exprsOfList nodes = nodes.flatMap Node.exprs := by
  induction nodes with
  | nil => rfl
  | cons node nodes ih => rw [Node.exprsOfList, ih, List.flatMap_cons]

theorem exprsOfList_append (nodes more : List Node) :
    Node.exprsOfList (nodes ++ more) = Node.exprsOfList nodes ++ Node.exprsOfList more := by
  simp only [exprsOfList_eq_flatMap, List.flatMap_append]

theorem mem_exprsOfList_reverse {e : Expr} {nodes : List Node} :
    e ∈ Node.exprsOfList nodes.reverse ↔ e ∈ Node.exprsOfList nodes := by
  simp only [exprsOfList_eq_flatMap, List.mem_flatMap, List.mem_reverse]

theorem exprsOfBranches_append (branches more : List (Expr × List Node)) :
    Node.exprsOfBranches (branches ++ more) =
      Node.exprsOfBranches branches ++ Node.exprsOfBranches more := by
  induction branches with
  | nil => rfl
  | cons branch branches ih =>
    obtain ⟨condition, body⟩ := branch
    simp only [List.cons_append, Node.exprsOfBranches, ih, List.append_assoc]

namespace Builder

/-! ### Expressions of the builder -/

/-- The expressions that the opening of a block and its complete branches hold. -/
def Block.exprs : Block → List Expr
  | .root | .part _ => []
  | .choice branches condition => Node.exprsOfBranches branches ++ condition.toList
  | .loop source _ _ => [source]

/-- The expressions of an open block. -/
def Frame.exprs (f : Frame) : List Expr :=
  f.block.exprs ++ Node.exprsOfList f.nodes

/-- The expressions of all open blocks. -/
def State.exprs (s : State) : List Expr :=
  s.top.exprs ++ s.below.flatMap Frame.exprs

/-- Whether all expressions of a state are those of an earlier one or have no violation. -/
def Adds (c : Callables) (s s' : State) : Prop :=
  ∀ e ∈ s'.exprs, e ∈ s.exprs ∨ e.violation? c = none

section Adds

variable {c : Callables} {s s' s'' : State}

theorem Adds.of_subset (h : s'.exprs ⊆ s.exprs) : Adds c s s' :=
  fun _ he => .inl (h he)

theorem Adds.refl (s : State) : Adds c s s :=
  .of_subset (List.Subset.refl _)

theorem Adds.trans (h : Adds c s s') (h' : Adds c s' s'') : Adds c s s'' := by
  intro e he
  rcases h' e he with he | he
  · exact h e he
  · exact .inr he

/-- A node is added to the innermost block. -/
theorem adds_push {n : Node} (h : ∀ e ∈ n.exprs, e.violation? c = none) : Adds c s (s.push n) := by
  intro e he
  simp only [State.push, Frame.push, State.exprs, Frame.exprs, Node.exprsOfList,
    List.mem_append] at he ⊢
  rcases he with (hblock | hn | hnodes) | hbelow
  · exact .inl (.inl (.inl hblock))
  · exact .inr (h e hn)
  · exact .inl (.inl (.inr hnodes))
  · exact .inl (.inr hbelow)

/-- Text adds no expression. -/
theorem adds_pushText (text : String) : Adds c s (s.pushText text) := by
  have hexprs : (s.top.pushText text).exprs = s.top.exprs := by
    rw [Frame.pushText]
    split
    · rfl
    · split
      · next before nodes hnodes => simp [Frame.exprs, Node.exprsOfList, Node.exprs, hnodes]
      · simp [Frame.exprs, Node.exprsOfList, Node.exprs]
  refine .of_subset ?_
  rw [State.pushText, State.exprs, State.exprs, hexprs]
  exact List.Subset.refl _

/-- A block that is opened has the expressions of its opening. -/
theorem adds_enter {b : Block} (h : ∀ e ∈ b.exprs, e.violation? c = none) :
    Adds c s (s.enter b) := by
  intro e he
  simp only [State.enter, State.exprs, Frame.exprs, Node.exprsOfList, List.append_nil,
    List.flatMap_cons, List.mem_append] at he ⊢
  rcases he with hb | hs
  · exact .inr (h e hb)
  · exact .inl hs

end Adds

/-! ### Reading expressions -/

variable {source : Source} {language : Language} {m : Marker} {s s' : State}

/-- An expression that was read has no violation. -/
theorem readExpr_violation {c : Callables} {role : ExprRole} {text : String} {e : Expr}
    (h : readExpr source c m role text = .ok e) : e.violation? c = none := by
  obtain ⟨e', -, h⟩ := bind_eq_ok.1 h
  obtain ⟨_, hcheck, h⟩ := bind_eq_ok.1 h
  cases h
  unfold checkExpr at hcheck
  split at hcheck
  · next hnone => exact hnone
  · cases hcheck

/-- The source of a loop has no violation. -/
theorem loopHeader_violation {c : Callables} {e : Expr} {key : Option String} {value : String}
    (h : loopHeader source c m = .ok (e, key, value)) : e.violation? c = none := by
  unfold loopHeader at h
  dsimp only at h
  split at h
  · cases h
  · obtain ⟨e', he', h⟩ := bind_eq_ok.1 h
    have hread := readExpr_violation he'
    split at h <;> cases h <;> exact hread

/-- The node of a registered directive has no violation, whatever its handler gave. -/
theorem customNode_violation {n : Node} (h : customNode source language m = .ok n) :
    ∀ e ∈ n.exprs, e.violation? language.callables = none := by
  unfold customNode at h
  split at h
  · cases h
  · split at h
    · cases h
    · cases h
    · obtain ⟨n', -, h⟩ := bind_eq_ok.1 h
      split at h
      · next hnone =>
        cases h
        exact List.findSome?_eq_none_iff.1 hnone
      · cases h

/-! ### Steps -/

/-- The next branch of a choice has the expression of its condition. -/
theorem adds_branch {c : Callables} {next : Option Expr}
    (hnext : ∀ e ∈ next.toList, e.violation? c = none) (h : branch source s m next = .ok s') :
    Adds c s s' := by
  unfold branch at h
  split at h
  · next branches condition hblock =>
    cases h
    intro e he
    -- the nodes of the frame become the body of the branch that ends
    simp only [State.exprs, Frame.exprs, Block.exprs, hblock, Frame.body, exprsOfBranches_append,
      Node.exprsOfBranches, Node.exprsOfList, List.append_nil, List.mem_append, List.mem_cons,
      Option.toList_some, List.not_mem_nil, or_false, mem_exprsOfList_reverse] at he ⊢
    rcases he with ((hbranches | rfl | hnodes) | he) | hbelow
    · exact .inl (.inl (.inl (.inl hbranches)))
    · exact .inl (.inl (.inl (.inr rfl)))
    · exact .inl (.inl (.inr hnodes))
    · exact .inr (hnext e he)
    · exact .inl (.inr hbelow)
  · cases h
  · cases h

/-- The node of a closed block has the expressions that the block had. -/
theorem closedNode?_exprs {f : Frame} {kind : BlockKind} {n : Node}
    (h : closedNode? f kind = some n) : n.exprs ⊆ f.exprs := by
  intro e he
  rw [Frame.exprs]
  unfold closedNode? at h
  split at h <;> cases h
  · next hblock =>
    simpa [hblock, Block.exprs, Node.exprs, Node.exprsOfOption, exprsOfBranches_append, Frame.body,
      Node.exprsOfBranches, mem_exprsOfList_reverse, or_assoc] using he
  · next hblock =>
    simpa [hblock, Block.exprs, Node.exprs, Node.exprsOfOption, Frame.body,
      mem_exprsOfList_reverse] using he
  · next hblock =>
    simpa [hblock, Block.exprs, Node.exprs, Frame.body, mem_exprsOfList_reverse] using he
  · next hblock =>
    simpa [hblock, Block.exprs, Node.exprs, Frame.body, mem_exprsOfList_reverse] using he

/-- A block that is closed adds no expression. -/
theorem adds_close {c : Callables} {kind : BlockKind} (h : close source s m kind = .ok s') :
    Adds c s s' := by
  unfold close at h
  split at h
  · cases h
  · next frame below hbelow =>
    split at h
    · next n hn =>
      cases h
      -- the expressions of the closed frame go to a node of the frame below it
      refine .of_subset fun e he => ?_
      have hclosed := @closedNode?_exprs _ _ _ hn e
      simp only [State.exprs, Frame.push, Frame.exprs, Node.exprsOfList, hbelow, List.flatMap_cons,
        List.mem_append] at he hclosed ⊢
      rcases he with (hblock | hn | hnodes) | hrest
      · exact .inr (.inl (.inl hblock))
      · exact .inl (hclosed hn)
      · exact .inr (.inl (.inr hnodes))
      · exact .inr (.inr hrest)
    · cases h

/-- **One marker.** A marker adds no expression with a violation. -/
theorem adds_marker (h : marker source language s m = .ok s') : Adds language.callables s s' := by
  unfold marker at h
  dsimp only at h
  -- one case for each kind of marker, in the order of `marker`
  split at h
  case h_1 => cases h; exact adds_pushText "#"
  case h_2 => cases h; exact adds_push (by simp [Node.exprs])
  case h_3 =>
    obtain ⟨e, he, h⟩ := bind_eq_ok.1 h
    cases h
    exact adds_push (by simpa [Node.exprs] using readExpr_violation he)
  case h_4 =>
    obtain ⟨e, he, h⟩ := bind_eq_ok.1 h
    cases h
    exact adds_enter (by simpa [Block.exprs, Node.exprsOfBranches] using readExpr_violation he)
  case h_5 =>
    obtain ⟨⟨e, key, value⟩, he, h⟩ := bind_eq_ok.1 h
    cases h
    exact adds_enter (by simpa [Block.exprs] using loopHeader_violation he)
  case h_6 =>
    obtain ⟨name, -, h⟩ := bind_eq_ok.1 h
    cases h
    exact adds_enter (by simp [Block.exprs])
  case h_7 =>
    obtain ⟨e, he, h⟩ := bind_eq_ok.1 h
    exact adds_branch (by simpa using readExpr_violation he) h
  case h_8 => exact adds_branch (by simp) h
  case h_9 => exact adds_close h
  case h_10 =>
    obtain ⟨layout, -, h⟩ := bind_eq_ok.1 h
    cases h
    exact .of_subset (List.Subset.refl _)
  case h_11 =>
    obtain ⟨args, -, h⟩ := bind_eq_ok.1 h
    cases h
    exact adds_push (by simp [Node.exprs])
  case h_12 =>
    obtain ⟨name, -, h⟩ := bind_eq_ok.1 h
    cases h
    exact adds_push (by simp [Node.exprs])
  case h_13 =>
    obtain ⟨n, hn, h⟩ := bind_eq_ok.1 h
    split at h
    · cases h
      exact adds_pushText _
    · cases h
      exact adds_push (customNode_violation hn)

/-- **One segment.** A segment adds no expression with a violation. -/
theorem adds_step {segment : Segment} (h : step source language s segment = .ok s') :
    Adds language.callables s s' := by
  cases segment with
  | literal text => cases h; exact adds_pushText text
  | marker m => exact adds_marker h

/-- Several segments add no expression with a violation. -/
theorem adds_foldlM {segments : List Segment}
    (h : segments.foldlM (step source language) s = .ok s') : Adds language.callables s s' := by
  induction segments generalizing s with
  | nil => cases h; exact .refl _
  | cons segment segments ih =>
    obtain ⟨next, hnext, h⟩ := bind_eq_ok.1 (by simpa only [List.foldlM_cons] using h)
    exact (adds_step hnext).trans (ih h)

end Builder

/-- **Templates are checked.** No expression of a template has a violation, wherever it stands. -/
theorem parseTemplate_exprs {language : Language} {source : Source} {template : Template}
    (h : parseTemplate language source = .ok template) :
    ∀ e ∈ Node.exprsOfList template.nodes, e.violation? language.callables = none := by
  obtain ⟨segments, -, h⟩ := bind_eq_ok.1 h
  obtain ⟨s, hs, h⟩ := bind_eq_ok.1 h
  cases h
  intro e he
  have hstate : e ∈ s.exprs := List.mem_append_left _
    (List.mem_append_right _ (mem_exprsOfList_reverse.1 he))
  rcases Builder.adds_foldlM hs e hstate with hinitial | hnone
  · simp [Builder.State.initial, Builder.State.exprs, Builder.Frame.exprs, Builder.Block.exprs,
      Node.exprsOfList] at hinitial
  · exact hnone

end Hashmark
