import Hashmark.Proofs.Elements.Rewriting

/-!
# Tidy nodes

What folding and merging leave behind: no comment, no constant marker and no constant condition, no
empty text and no two texts side by side (`tidy_prepare`). Tidy nodes are not prepared any further
(`prepare_of_tidy`), and a pass keeps them tidy, since it drops a text only where no other text
stands beside it (`tidy_settle`). So nodes that are optimized once are prepared for good.
-/

namespace Hashmark

/-- Whether a node is literal text. -/
def Node.isText : Node → Bool
  | .text _ => true
  | _ => false

/-- Whether some nodes start with literal text. -/
def startsWithText (nodes : List Node) : Bool :=
  nodes.head?.any Node.isText

mutual

/-- Whether nothing in a node is left to fold; `joined` asks for joined texts as well. -/
def Node.Tidy (joined : Bool) : Node → Prop
  | .text content => joined = true → content ≠ ""
  | .emit value => value.constantTruth? = none
  | .choose branches otherwise =>
    branches ≠ [] ∧ Node.TidyBranches joined branches ∧ Node.TidyOption joined otherwise
  | .forEach _ _ _ body => Node.TidyList joined body
  | .block _ body => Node.TidyList joined body
  | .yield _ _ | .connect _ => True
  | .comment _ => False

/-- Whether several nodes are tidy. -/
def Node.TidyList (joined : Bool) : List Node → Prop
  | [] => True
  | n :: ns =>
    n.Tidy joined ∧ (joined = true → n.isText = true → startsWithText ns = false) ∧
      Node.TidyList joined ns

/-- Whether the branches of a choice are tidy and their conditions open. -/
def Node.TidyBranches (joined : Bool) : List (Expr × List Node) → Prop
  | [] => True
  | (condition, body) :: branches =>
    condition.constantTruth? = none ∧ Node.TidyList joined body ∧ Node.TidyBranches joined branches

/-- Whether a body that may be absent is tidy. -/
def Node.TidyOption (joined : Bool) : Option (List Node) → Prop
  | none => True
  | some body => Node.TidyList joined body

end

variable {joined : Bool}

/-! ### Folding -/

theorem tidyList_append {nodes more : List Node} (h : Node.TidyList false nodes)
    (h' : Node.TidyList false more) : Node.TidyList false (nodes ++ more) := by
  induction nodes with
  | nil => exact h'
  | cons node nodes ih => exact ⟨h.1, nofun, ih h.2.2⟩

theorem tidyList_singleton {node : Node} (h : node.Tidy joined) : Node.TidyList joined [node] :=
  ⟨h, fun _ _ => rfl, trivial⟩

theorem tidyOption_or {body other : Option (List Node)} (h : Node.TidyOption joined body)
    (h' : Node.TidyOption joined other) : Node.TidyOption joined (body.or other) := by
  cases body with
  | none => exact h'
  | some nodes => exact h

theorem tidyList_choice {branches : List (Expr × List Node)} {otherwise : Option (List Node)}
    (h : Node.TidyBranches joined branches) (h' : Node.TidyOption joined otherwise) :
    Node.TidyList joined (Node.choice branches otherwise) := by
  unfold Node.choice
  split
  · cases otherwise with
    | none => trivial
    | some body => exact h'
  · next hne => exact tidyList_singleton ⟨by simpa using hne, h, h'⟩

mutual

/-- A folded node has nothing left to fold. -/
theorem Node.tidy_fold : ∀ node : Node, Node.TidyList false node.fold
  | .text _ => tidyList_singleton nofun
  | .yield _ _ => tidyList_singleton trivial
  | .connect _ => tidyList_singleton trivial
  | .comment _ => trivial
  | .emit value => by
    cases value with
    | lit => exact tidyList_singleton nofun
    | list | var | field | index | call | filter | unary | binary => exact tidyList_singleton rfl
  | .choose branches otherwise => by
    obtain ⟨hkept, hdecided⟩ := Node.tidy_foldBranches branches
    exact tidyList_choice hkept (tidyOption_or hdecided (Node.tidy_foldOption otherwise))
  | .forEach source key value body => tidyList_singleton (Node.tidy_foldList body)
  | .block name body => tidyList_singleton (Node.tidy_foldList body)

theorem Node.tidy_foldList : ∀ nodes : List Node, Node.TidyList false (Node.foldList nodes)
  | [] => trivial
  | node :: nodes => tidyList_append (Node.tidy_fold node) (Node.tidy_foldList nodes)

theorem Node.tidy_foldBranches : ∀ branches : List (Expr × List Node),
    Node.TidyBranches false (Node.foldBranches branches).1 ∧
      Node.TidyOption false (Node.foldBranches branches).2
  | [] => ⟨trivial, trivial⟩
  | (condition, body) :: branches => by
    have hbody := Node.tidy_foldList body
    have hrest := Node.tidy_foldBranches branches
    rw [Node.foldBranches]
    split
    · exact ⟨trivial, hbody⟩
    · exact hrest
    · next hopen => exact ⟨⟨hopen, hbody, hrest.1⟩, hrest.2⟩

theorem Node.tidy_foldOption : ∀ body : Option (List Node),
    Node.TidyOption false (Node.foldOption body)
  | none => trivial
  | some nodes => Node.tidy_foldList nodes

end

mutual

/-- A tidy node is not folded any further. -/
theorem Node.fold_of_tidy : ∀ node : Node, node.Tidy joined → node.fold = [node]
  | .text _, _ => rfl
  | .yield _ _, _ => rfl
  | .connect _, _ => rfl
  | .comment _, h => h.elim
  | .emit value, h => by
    cases value with
    | lit => cases h
    | list | var | field | index | call | filter | unary | binary => rfl
  | .choose branches otherwise, h => by
    obtain ⟨hne, hbranches, hotherwise⟩ := h
    simp [Node.fold, Node.foldBranches_of_tidy branches hbranches,
      Node.foldOption_of_tidy otherwise hotherwise, Node.choice, hne]
  | .forEach source key value body, h => by rw [Node.fold, Node.foldList_of_tidy body h]
  | .block name body, h => by rw [Node.fold, Node.foldList_of_tidy body h]

theorem Node.foldList_of_tidy : ∀ nodes : List Node, Node.TidyList joined nodes →
    Node.foldList nodes = nodes
  | [], _ => rfl
  | node :: nodes, h => by
    rw [Node.foldList, Node.fold_of_tidy node h.1, Node.foldList_of_tidy nodes h.2.2]
    rfl

theorem Node.foldBranches_of_tidy : ∀ branches : List (Expr × List Node),
    Node.TidyBranches joined branches → Node.foldBranches branches = (branches, none)
  | [], _ => rfl
  | (condition, body) :: branches, h => by
    obtain ⟨hopen, hbody, hrest⟩ := h
    simp [Node.foldBranches, hopen, Node.foldList_of_tidy body hbody,
      Node.foldBranches_of_tidy branches hrest]

theorem Node.foldOption_of_tidy : ∀ body : Option (List Node), Node.TidyOption joined body →
    Node.foldOption body = body
  | none, _ => rfl
  | some nodes, h => congrArg some (Node.foldList_of_tidy nodes h)

end

/-! ### Merging -/

/-- A node that is joined to tidy nodes leaves them tidy. -/
theorem tidyList_join {node : Node} {rest : List Node} (h : node.isText = false → node.Tidy true)
    (hrest : Node.TidyList true rest) : Node.TidyList true (node.join rest) := by
  cases node with
  | text content =>
    by_cases hempty : content = ""
    · rwa [show (Node.text content).join rest = rest from if_pos hempty]
    · cases rest with
      | nil =>
        simp only [Node.join, if_neg hempty]
        exact tidyList_singleton fun _ => hempty
      | cons next rest =>
        obtain ⟨hnext, hapart, htail⟩ := hrest
        cases next with
        | text more =>
          simp only [Node.join, if_neg hempty]
          exact ⟨fun _ => by simp [hempty], fun _ _ => hapart rfl rfl, htail⟩
        | emit | choose | forEach | block | yield | connect | comment =>
          simp only [Node.join, if_neg hempty]
          exact ⟨fun _ => hempty, fun _ _ => rfl, hnext, hapart, htail⟩
  | emit | choose | forEach | block | yield | connect | comment =>
    exact ⟨h rfl, fun _ htext => absurd htext Bool.false_ne_true, hrest⟩

mutual

/-- A merged node is tidy, unless it is a text. -/
theorem Node.tidy_merge : ∀ node : Node, node.Tidy false →
    node.merge.isText = false → node.merge.Tidy true
  | .text _, _, h => nomatch h
  | .yield _ _, _, _ => trivial
  | .connect _, _, _ => trivial
  | .comment _, h, _ => h
  | .emit _, h, _ => h
  | .choose branches otherwise, h, _ => by
    obtain ⟨hne, hbranches, hotherwise⟩ := h
    refine ⟨?_, Node.tidy_mergeBranches branches hbranches,
      Node.tidy_mergeOption otherwise hotherwise⟩
    cases branches with
    | nil => exact absurd rfl hne
    | cons branch branches => simp [Node.mergeBranches]
  | .forEach source key value body, h, _ => Node.tidy_mergeList body h
  | .block name body, h, _ => Node.tidy_mergeList body h

theorem Node.tidy_mergeList : ∀ nodes : List Node, Node.TidyList false nodes →
    Node.TidyList true (Node.mergeList nodes)
  | [], _ => trivial
  | node :: nodes, h =>
    tidyList_join (Node.tidy_merge node h.1) (Node.tidy_mergeList nodes h.2.2)

theorem Node.tidy_mergeBranches : ∀ branches : List (Expr × List Node),
    Node.TidyBranches false branches → Node.TidyBranches true (Node.mergeBranches branches)
  | [], _ => trivial
  | (_, body) :: branches, h =>
    ⟨h.1, Node.tidy_mergeList body h.2.1, Node.tidy_mergeBranches branches h.2.2⟩

theorem Node.tidy_mergeOption : ∀ body : Option (List Node), Node.TidyOption false body →
    Node.TidyOption true (Node.mergeOption body)
  | none, _ => trivial
  | some nodes, h => Node.tidy_mergeList nodes h

end

theorem join_of_tidy {node : Node} {rest : List Node} (h : Node.TidyList true (node :: rest)) :
    node.join rest = node :: rest := by
  obtain ⟨hnode, hapart, -⟩ := h
  unfold Node.join
  split
  · next content rest =>
    rw [if_neg (hnode rfl)]
    split
    · cases hapart rfl rfl
    · rfl
  · rfl

mutual

/-- A tidy node is not merged any further. -/
theorem Node.merge_of_tidy : ∀ node : Node, node.Tidy true → node.merge = node
  | .text _, _ => rfl
  | .yield _ _, _ => rfl
  | .connect _, _ => rfl
  | .comment _, _ => rfl
  | .emit _, _ => rfl
  | .choose branches otherwise, h => by
    rw [Node.merge, Node.mergeBranches_of_tidy branches h.2.1,
      Node.mergeOption_of_tidy otherwise h.2.2]
  | .forEach source key value body, h => by rw [Node.merge, Node.mergeList_of_tidy body h]
  | .block name body, h => by rw [Node.merge, Node.mergeList_of_tidy body h]

theorem Node.mergeList_of_tidy : ∀ nodes : List Node, Node.TidyList true nodes →
    Node.mergeList nodes = nodes
  | [], _ => rfl
  | node :: nodes, h => by
    rw [Node.mergeList, Node.merge_of_tidy node h.1, Node.mergeList_of_tidy nodes h.2.2,
      join_of_tidy h]

theorem Node.mergeBranches_of_tidy : ∀ branches : List (Expr × List Node),
    Node.TidyBranches true branches → Node.mergeBranches branches = branches
  | [], _ => rfl
  | (condition, body) :: branches, h => by
    rw [Node.mergeBranches, Node.mergeList_of_tidy body h.2.1,
      Node.mergeBranches_of_tidy branches h.2.2]

theorem Node.mergeOption_of_tidy : ∀ body : Option (List Node), Node.TidyOption true body →
    Node.mergeOption body = body
  | none, _ => rfl
  | some nodes, h => congrArg some (Node.mergeList_of_tidy nodes h)

end

/-- **Preparing tidies up.** -/
theorem tidy_prepare (nodes : List Node) : Node.TidyList true (prepare nodes) :=
  Node.tidy_mergeList _ (Node.tidy_foldList nodes)

/-- **Tidy nodes are prepared.** -/
theorem prepare_of_tidy {nodes : List Node} (h : Node.TidyList true nodes) :
    prepare nodes = nodes := by
  rw [prepare, Node.foldList_of_tidy nodes h, Node.mergeList_of_tidy nodes h]

/-! ### Passes -/

section Passes

variable (f : Region → String → String) (facts : OverrideFacts)

/-- Nodes that start with no text do not start with one after a rewriting. -/
theorem startsWithText_rewriteList (region : Region) {nodes : List Node}
    (h : startsWithText nodes = false) :
    startsWithText (Node.rewriteList f facts region nodes) = false := by
  cases nodes with
  | nil => rfl
  | cons node nodes =>
    rw [Node.rewriteList]
    cases node with
    | text => cases h
    | emit | choose | yield | connect | comment => rfl
    | forEach | block => rw [Node.rewrite]; split <;> rfl

mutual

/-- A tidy node stays tidy when its texts are rewritten. -/
theorem Node.tidy_rewrite (region : Region) : ∀ node : Node, node.Tidy true →
    Node.TidyList true (node.rewrite f facts region)
  | .text _, _ => by
    rw [Node.rewrite]
    split
    · trivial
    · next hne => exact tidyList_singleton fun _ => hne
  | .yield _ _, _ => tidyList_singleton trivial
  | .connect _, _ => tidyList_singleton trivial
  | .comment _, h => h.elim
  | .emit _, h => tidyList_singleton h
  | .choose branches otherwise, h => by
    obtain ⟨hne, hbranches, hotherwise⟩ := h
    refine tidyList_singleton ⟨?_, Node.tidy_rewriteBranches region branches hbranches, ?_⟩
    · cases branches with
      | nil => exact absurd rfl hne
      | cons branch branches => simp [Node.rewriteBranches]
    · cases otherwise with
      | none => trivial
      | some body => exact Node.tidy_rewriteList region body hotherwise
  | .forEach source key value body, h => by
    rw [Node.rewrite]
    split
    · exact tidyList_singleton (Node.tidy_rewriteList region body h)
    · exact tidyList_singleton (Node.tidy_rewriteList .unknown body h)
  | .block name body, h => by
    rw [Node.rewrite]
    split
    · exact tidyList_singleton (Node.tidy_rewriteList .unknown body h)
    · exact tidyList_singleton (Node.tidy_rewriteList region body h)

theorem Node.tidy_rewriteList (region : Region) : ∀ nodes : List Node, Node.TidyList true nodes →
    Node.TidyList true (Node.rewriteList f facts region nodes)
  | [], _ => trivial
  | node :: nodes, h => by
    obtain ⟨hnode, hapart, hnodes⟩ := h
    have hrest := Node.tidy_rewriteList (node.minify facts region).region nodes hnodes
    have hfirst := Node.tidy_rewrite region node hnode
    -- a node becomes at most one node, and only a text becomes none
    have hone : node.rewrite f facts region = [] ∨ ∃ node', node.rewrite f facts region = [node'] ∧
        node'.isText = node.isText := by
      cases node with
      | text content =>
        rw [Node.rewrite]
        split
        · exact .inl rfl
        · exact .inr ⟨_, rfl, rfl⟩
      | emit | choose | yield | connect | comment => exact .inr ⟨_, rfl, rfl⟩
      | forEach | block =>
        rw [Node.rewrite]
        split <;> exact .inr ⟨_, rfl, rfl⟩
    rw [Node.rewriteList]
    rcases hone with hnone | ⟨node', hone, htext⟩
    · rwa [hnone]
    · rw [hone] at hfirst ⊢
      refine ⟨hfirst.1, fun _ h => ?_, hrest⟩
      exact startsWithText_rewriteList f facts _ (hapart rfl (htext ▸ h))

theorem Node.tidy_rewriteBranches (region : Region) : ∀ branches : List (Expr × List Node),
    Node.TidyBranches true branches →
    Node.TidyBranches true (Node.rewriteBranches f facts region branches)
  | [], _ => trivial
  | (_, body) :: branches, h =>
    ⟨h.1, Node.tidy_rewriteList region body h.2.1, Node.tidy_rewriteBranches region branches h.2.2⟩

end

/-- **Passes keep nodes tidy.** -/
theorem tidy_settle (start : Region) {nodes : List Node} (h : Node.TidyList true nodes) :
    Node.TidyList true (settle facts start nodes).1 := by
  refine settle_induction facts start (fun nodes htidy => ?_) nodes h
  rw [Node.minifyList_nodes]
  exact Node.tidy_rewriteList minified facts start nodes htidy

/-- Nodes that were prepared and then settled are prepared. -/
theorem prepare_settle_prepare (start : Region) (nodes : List Node) :
    prepare (settle facts start (prepare nodes)).1 = (settle facts start (prepare nodes)).1 :=
  prepare_of_tidy (tidy_settle facts start (tidy_prepare nodes))

end Passes

end Hashmark
