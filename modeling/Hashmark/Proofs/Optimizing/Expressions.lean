import Hashmark.Proofs.Callables.Checking
import Hashmark.Proofs.Elements.Rewriting

/-!
# What optimizing does to expressions

Folding drops expressions and moves none, merging and passes leave all of them where they are. So
optimized nodes hold some of the expressions of the nodes, in the same order
(`exprs_prepare_sublist`, `exprs_settle`), and an optimized artifact calls nothing that the artifact
does not call (`Artifact.callees_optimize`).
-/

namespace Hashmark

open List (Sublist)

/-! ### Folding -/

theorem exprs_choice (branches : List (Expr × List Node)) (otherwise : Option (List Node)) :
    Node.exprsOfList (Node.choice branches otherwise) =
      Node.exprsOfBranches branches ++ Node.exprsOfOption otherwise := by
  unfold Node.choice
  split
  · next hempty =>
    rw [List.isEmpty_iff.1 hempty]
    cases otherwise <;> rfl
  · simp [Node.exprsOfList, Node.exprs]

theorem exprsOfOption_or (body other : Option (List Node)) :
    Sublist (Node.exprsOfOption (body.or other))
      (Node.exprsOfOption body ++ Node.exprsOfOption other) := by
  cases body with
  | none => exact List.Sublist.refl _
  | some nodes => exact List.sublist_append_left _ _

mutual

/-- A folded node holds some of the expressions of the node. -/
theorem Node.exprs_fold : ∀ node : Node, Sublist (Node.exprsOfList node.fold) node.exprs
  | .comment _ => List.Sublist.refl _
  | .text _ => List.Sublist.refl _
  | .yield _ _ => List.Sublist.refl _
  | .connect _ => List.Sublist.refl _
  | .emit value => by
    cases value <;> simp [Node.fold, Node.exprsOfList, Node.exprs]
  | .choose branches otherwise => by
    have hbranches := Node.exprs_foldBranches branches
    have hotherwise := Node.exprs_foldOption otherwise
    rw [Node.fold, exprs_choice, Node.exprs]
    refine List.Sublist.trans (List.Sublist.append (List.Sublist.refl _) (exprsOfOption_or _ _)) ?_
    rw [← List.append_assoc]
    exact hbranches.append hotherwise
  | .forEach source key value body => by
    rw [Node.fold, Node.exprs]
    simpa [Node.exprsOfList, Node.exprs] using Node.exprs_foldList body
  | .block name body => by
    rw [Node.fold, Node.exprs]
    simpa [Node.exprsOfList, Node.exprs] using Node.exprs_foldList body

/-- Folded nodes hold some of the expressions of the nodes. -/
theorem Node.exprs_foldList : ∀ nodes : List Node,
    Sublist (Node.exprsOfList (Node.foldList nodes)) (Node.exprsOfList nodes)
  | [] => List.Sublist.refl _
  | node :: nodes => by
    rw [Node.foldList, exprsOfList_append, Node.exprsOfList]
    exact (Node.exprs_fold node).append (Node.exprs_foldList nodes)

/-- The branches that are left, and the body that is decided for, hold some of the expressions. -/
theorem Node.exprs_foldBranches : ∀ branches : List (Expr × List Node),
    Sublist (Node.exprsOfBranches (Node.foldBranches branches).1 ++
      Node.exprsOfOption (Node.foldBranches branches).2) (Node.exprsOfBranches branches)
  | [] => List.Sublist.refl _
  | (condition, body) :: branches => by
    have hbody := Node.exprs_foldList body
    have hrest := Node.exprs_foldBranches branches
    rw [Node.foldBranches, Node.exprsOfBranches]
    split
    · exact .cons _ (hbody.trans (List.sublist_append_left _ _))
    · exact .cons _ (hrest.trans (List.sublist_append_right _ _))
    · rw [Node.exprsOfBranches, List.cons_append, List.append_assoc]
      exact (hbody.append hrest).cons_cons _

/-- A folded body that may be absent holds some of its expressions. -/
theorem Node.exprs_foldOption : ∀ body : Option (List Node),
    Sublist (Node.exprsOfOption (Node.foldOption body)) (Node.exprsOfOption body)
  | none => List.Sublist.refl _
  | some nodes => Node.exprs_foldList nodes

end

/-! ### Merging -/

theorem exprs_join (node : Node) (rest : List Node) :
    Node.exprsOfList (node.join rest) = node.exprs ++ Node.exprsOfList rest := by
  unfold Node.join
  split
  · split
    · rfl
    · split <;> simp [Node.exprsOfList, Node.exprs]
  · rfl

mutual

/-- A merged node holds the expressions of the node. -/
theorem Node.exprs_merge : ∀ node : Node, node.merge.exprs = node.exprs
  | .comment _ => rfl
  | .text _ => rfl
  | .yield _ _ => rfl
  | .connect _ => rfl
  | .emit _ => rfl
  | .choose branches otherwise => by
    rw [Node.merge, Node.exprs, Node.exprs, Node.exprs_mergeBranches branches,
      Node.exprs_mergeOption otherwise]
  | .forEach source key value body => by
    rw [Node.merge, Node.exprs, Node.exprs, Node.exprs_mergeList body]
  | .block name body => by rw [Node.merge, Node.exprs, Node.exprs, Node.exprs_mergeList body]

/-- Merged nodes hold the expressions of the nodes. -/
theorem Node.exprs_mergeList : ∀ nodes : List Node,
    Node.exprsOfList (Node.mergeList nodes) = Node.exprsOfList nodes
  | [] => rfl
  | node :: nodes => by
    rw [Node.mergeList, exprs_join, Node.exprs_merge node, Node.exprs_mergeList nodes,
      Node.exprsOfList]

theorem Node.exprs_mergeBranches : ∀ branches : List (Expr × List Node),
    Node.exprsOfBranches (Node.mergeBranches branches) = Node.exprsOfBranches branches
  | [] => rfl
  | (condition, body) :: branches => by
    rw [Node.mergeBranches, Node.exprsOfBranches, Node.exprsOfBranches, Node.exprs_mergeList body,
      Node.exprs_mergeBranches branches]

theorem Node.exprs_mergeOption : ∀ body : Option (List Node),
    Node.exprsOfOption (Node.mergeOption body) = Node.exprsOfOption body
  | none => rfl
  | some nodes => Node.exprs_mergeList nodes

end

/-- **Preparing.** Prepared nodes hold some of the expressions of the nodes. -/
theorem exprs_prepare_sublist (nodes : List Node) :
    Sublist (Node.exprsOfList (prepare nodes)) (Node.exprsOfList nodes) := by
  rw [prepare, Node.exprs_mergeList]
  exact Node.exprs_foldList nodes

/-! ### Passes -/

section Passes

variable (f : Region → String → String) (facts : OverrideFacts)

mutual

/-- Rewriting the texts of a node leaves its expressions. -/
theorem Node.exprs_rewrite (region : Region) : ∀ node : Node,
    Node.exprsOfList (node.rewrite f facts region) = node.exprs
  | .text _ => by
    rw [Node.rewrite]
    split <;> rfl
  | .comment _ => rfl
  | .yield _ _ => rfl
  | .connect _ => rfl
  | .emit _ => rfl
  | .choose branches otherwise => by
    have hbranches := Node.exprs_rewriteBranches region branches
    cases otherwise with
    | none => simp [Node.rewrite, Node.rewriteOption, Node.exprsOfList, Node.exprs, hbranches]
    | some body =>
      have hbody := Node.exprs_rewriteList region body
      simp [Node.rewrite, Node.rewriteOption, Node.exprsOfList, Node.exprs, Node.exprsOfOption,
        hbranches, hbody]
  | .forEach source key value body => by
    have hbody := fun region => Node.exprs_rewriteList region body
    rw [Node.rewrite]
    split <;> simp [Node.exprsOfList, Node.exprs, hbody]
  | .block name body => by
    have hbody := fun region => Node.exprs_rewriteList region body
    rw [Node.rewrite]
    split <;> simp [Node.exprsOfList, Node.exprs, hbody]

/-- Rewriting the texts of nodes leaves their expressions. -/
theorem Node.exprs_rewriteList (region : Region) : ∀ nodes : List Node,
    Node.exprsOfList (Node.rewriteList f facts region nodes) = Node.exprsOfList nodes
  | [] => rfl
  | node :: nodes => by
    rw [Node.rewriteList, exprsOfList_append, Node.exprs_rewrite region node,
      Node.exprs_rewriteList _ nodes, Node.exprsOfList]

theorem Node.exprs_rewriteBranches (region : Region) : ∀ branches : List (Expr × List Node),
    Node.exprsOfBranches (Node.rewriteBranches f facts region branches) =
      Node.exprsOfBranches branches
  | [] => rfl
  | (condition, body) :: branches => by
    rw [Node.rewriteBranches, Node.exprsOfBranches, Node.exprsOfBranches,
      Node.exprs_rewriteList region body, Node.exprs_rewriteBranches region branches]

end

/-- **All passes.** Settled nodes hold the expressions of the nodes. -/
theorem exprs_settle (start : Region) (nodes : List Node) :
    Node.exprsOfList (settle facts start nodes).1 = Node.exprsOfList nodes := by
  refine settle_induction (motive := fun nodes' => Node.exprsOfList nodes' = Node.exprsOfList nodes)
    facts start (fun nodes' h => ?_) nodes rfl
  rw [Node.minifyList_nodes, Node.exprs_rewriteList, h]

end Passes

/-! ### Artifacts -/

/-- An optimized override is an override that was minified from some region. -/
theorem mem_optimizeOverrides {facts : OverrideFacts} {entry : String → Region}
    {overrides : List Override} {seen : List String} {o : Override}
    (h : o ∈ optimizeOverrides facts entry seen overrides) :
    ∃ o' ∈ overrides, ∃ start, o = { o' with body := (settle facts start o'.body).1 } := by
  induction overrides generalizing seen with
  | nil => exact absurd h List.not_mem_nil
  | cons first rest ih =>
    rw [optimizeOverrides] at h
    rcases List.mem_cons.1 h with rfl | h
    · exact ⟨first, by simp, _, rfl⟩
    · obtain ⟨o', ho', start, rfl⟩ := ih h
      exact ⟨o', by simp [ho'], start, rfl⟩

/-- Optimized nodes call nothing that the nodes do not call. -/
theorem callees_settle_prepare (facts : OverrideFacts) (start : Region) (nodes : List Node) :
    Node.calleesOfList (settle facts start (prepare nodes)).1 ⊆ Node.calleesOfList nodes := by
  intro callee h
  obtain ⟨e, he, hcallee⟩ := List.mem_flatMap.1 h
  rw [exprs_settle] at he
  exact List.mem_flatMap.2 ⟨e, (exprs_prepare_sublist nodes).subset he, hcallee⟩

/-- **Optimizing adds no call.** An optimized artifact calls nothing that the artifact does not
call. -/
theorem Artifact.callees_optimize (a : Artifact) : a.optimize.callees ⊆ a.callees := by
  intro callee h
  rcases List.mem_append.1 h with hbody | hsections
  · exact List.mem_append_left _ (callees_settle_prepare a.overrideFacts .markup a.body hbody)
  · obtain ⟨o, ho, hcallee⟩ := List.mem_flatMap.1 hsections
    obtain ⟨o', ho', start, rfl⟩ := mem_optimizeOverrides ho
    obtain ⟨original, horiginal, rfl⟩ := List.mem_map.1 ho'
    exact List.mem_append_right _ (List.mem_flatMap.2
      ⟨original, horiginal, callees_settle_prepare _ start original.body hcallee⟩)

end Hashmark
