import Hashmark.Proofs.Optimizing.Passes
import Hashmark.Proofs.Optimizing.Tidiness

/-!
# What is prepared

Preparing the body of an artifact and all of its overrides changes nothing that it renders, and
leaves nothing behind that could be prepared (`Artifact.render_prepared`). What is left is described
list by list (`IsPrepared`), for the nodes and for every list of nodes inside of them
(`Node.bodiesOfList`), without a word on how nodes are prepared; tidy nodes are of that form.
-/

namespace Hashmark

/-! ### Lists of nodes at any depth -/

mutual

/-- The lists of nodes that stand in a node, at any depth. -/
def Node.bodies : Node → List (List Node)
  | .choose branches otherwise => Node.bodiesOfBranches branches ++ Node.bodiesOfOption otherwise
  | .forEach _ _ _ body => body :: Node.bodiesOfList body
  | .block _ body => body :: Node.bodiesOfList body
  | .text _ | .emit _ | .yield _ _ | .connect _ | .comment _ => []

/-- The lists of nodes that stand in several nodes. -/
def Node.bodiesOfList : List Node → List (List Node)
  | [] => []
  | node :: nodes => node.bodies ++ Node.bodiesOfList nodes

/-- The lists of nodes in the branches of a choice. -/
def Node.bodiesOfBranches : List (Expr × List Node) → List (List Node)
  | [] => []
  | (_, body) :: branches => body :: (Node.bodiesOfList body ++ Node.bodiesOfBranches branches)

/-- The lists of nodes in a body that may be absent. -/
def Node.bodiesOfOption : Option (List Node) → List (List Node)
  | none => []
  | some body => body :: Node.bodiesOfList body

end

/-- Whether nothing is left to prepare in a list of nodes, apart from what is inside of them. -/
structure IsPrepared (nodes : List Node) : Prop where
  /-- Comments are dropped. -/
  comment : ∀ content, .comment content ∉ nodes
  /-- The constants of markers are texts. -/
  constant : ∀ value, .emit (.lit value) ∉ nodes
  /-- A choice has branches, and none with a constant for a condition. -/
  condition : ∀ branches otherwise, .choose branches otherwise ∈ nodes →
    branches ≠ [] ∧ ∀ value body, (.lit value, body) ∉ branches
  /-- Empty texts are dropped. -/
  empty : .text "" ∉ nodes
  /-- Texts side by side are joined. -/
  apart : ∀ first second, ¬[.text first, .text second] <:+: nodes

/-! ### Tidy nodes -/

section Tidy

variable {joined : Bool} {node : Node} {nodes : List Node}

theorem Node.tidy_of_mem (h : Node.TidyList joined nodes) (hnode : node ∈ nodes) :
    node.Tidy joined := by
  induction nodes with
  | nil => cases hnode
  | cons first rest ih =>
    obtain ⟨hfirst, -, hrest⟩ := h
    rcases List.mem_cons.1 hnode with rfl | hmem
    · exact hfirst
    · exact ih hrest hmem

theorem constantTruth?_of_mem {branches : List (Expr × List Node)} {condition : Expr}
    {body : List Node} (h : Node.TidyBranches joined branches)
    (hbranch : (condition, body) ∈ branches) : condition.constantTruth? = none := by
  induction branches with
  | nil => cases hbranch
  | cons first rest ih =>
    obtain ⟨hfirst, -, hrest⟩ := h
    rcases List.mem_cons.1 hbranch with rfl | hmem
    · exact hfirst
    · exact ih hrest hmem

/-- Two texts stand side by side in no joined nodes. -/
theorem not_texts_infix (h : Node.TidyList true nodes) (first second : String) :
    ¬[.text first, .text second] <:+: nodes := by
  induction nodes with
  | nil => exact fun hinfix => by simpa using hinfix.length_le
  | cons node rest ih =>
    obtain ⟨-, hapart, hrest⟩ := h
    rw [List.infix_cons_iff]
    rintro (⟨more, heq⟩ | hinfix)
    · obtain ⟨rfl, rfl⟩ := List.cons.inj heq
      cases hapart rfl rfl
    · exact ih hrest hinfix

theorem isPrepared_of_tidy (h : Node.TidyList true nodes) : IsPrepared nodes where
  comment _ hmem := Node.tidy_of_mem h hmem
  constant _ hmem := nomatch Node.tidy_of_mem h hmem
  condition branches otherwise hmem := by
    obtain ⟨hne, hbranches, -⟩ := Node.tidy_of_mem h hmem
    exact ⟨hne, fun value body hbranch => nomatch constantTruth?_of_mem hbranches hbranch⟩
  empty hmem := Node.tidy_of_mem h hmem rfl rfl
  apart := not_texts_infix h

end Tidy

section Bodies

variable {joined : Bool} {body : List Node}

mutual

/-- What stands in a tidy node is tidy. -/
theorem Node.tidyList_of_mem_bodies : ∀ node : Node, node.Tidy joined → body ∈ node.bodies →
    Node.TidyList joined body
  | .text _, _, hmem | .emit _, _, hmem | .yield _ _, _, hmem | .connect _, _, hmem
  | .comment _, _, hmem => nomatch hmem
  | .choose branches otherwise, h, hmem => by
    rcases List.mem_append.1 hmem with hmem | hmem
    · exact Node.tidyList_of_mem_bodiesOfBranches branches h.2.1 hmem
    · exact Node.tidyList_of_mem_bodiesOfOption otherwise h.2.2 hmem
  | .forEach _ _ _ nodes, h, hmem | .block _ nodes, h, hmem => by
    rcases List.mem_cons.1 hmem with rfl | hmem
    · exact h
    · exact Node.tidyList_of_mem_bodiesOfList nodes h hmem

theorem Node.tidyList_of_mem_bodiesOfList : ∀ nodes : List Node, Node.TidyList joined nodes →
    body ∈ Node.bodiesOfList nodes → Node.TidyList joined body
  | node :: nodes, h, hmem => by
    rcases List.mem_append.1 hmem with hmem | hmem
    · exact Node.tidyList_of_mem_bodies node h.1 hmem
    · exact Node.tidyList_of_mem_bodiesOfList nodes h.2.2 hmem

theorem Node.tidyList_of_mem_bodiesOfBranches : ∀ branches : List (Expr × List Node),
    Node.TidyBranches joined branches → body ∈ Node.bodiesOfBranches branches →
      Node.TidyList joined body
  | (_, nodes) :: branches, h, hmem => by
    rcases List.mem_cons.1 hmem with rfl | hmem
    · exact h.2.1
    · rcases List.mem_append.1 hmem with hmem | hmem
      · exact Node.tidyList_of_mem_bodiesOfList nodes h.2.1 hmem
      · exact Node.tidyList_of_mem_bodiesOfBranches branches h.2.2 hmem

theorem Node.tidyList_of_mem_bodiesOfOption : ∀ otherwise : Option (List Node),
    Node.TidyOption joined otherwise → body ∈ Node.bodiesOfOption otherwise →
      Node.TidyList joined body
  | some nodes, h, hmem => by
    rcases List.mem_cons.1 hmem with rfl | hmem
    · exact h
    · exact Node.tidyList_of_mem_bodiesOfList nodes h hmem

end

/-- **Prepared at any depth.** Nothing is left to prepare in prepared nodes, nor in any list of nodes
inside of them. -/
theorem isPrepared_of_mem_prepare {nodes : List Node}
    (h : body ∈ prepare nodes :: Node.bodiesOfList (prepare nodes)) : IsPrepared body := by
  have htidy := tidy_prepare nodes
  rcases List.mem_cons.1 h with rfl | hmem
  · exact isPrepared_of_tidy htidy
  · exact isPrepared_of_tidy (Node.tidyList_of_mem_bodiesOfList _ htidy hmem)

end Bodies

/-! ### Artifacts -/

/-- An artifact with its body and all of its overrides prepared. -/
def Artifact.prepared (a : Artifact) : Artifact :=
  { a with body := a.preparedBody, sections := a.preparedSections }

/-- The lists of nodes of an artifact: its body, the bodies of its overrides, and every list of nodes
inside of one of them. -/
def Artifact.bodies (a : Artifact) : List (List Node) :=
  (a.body :: a.sections.map Override.body).flatMap fun nodes => nodes :: Node.bodiesOfList nodes

/-- **Preparing is exact.** An artifact renders the same text or the same error once its body and
its overrides are prepared, and nothing is left to prepare in any list of its nodes. -/
theorem Artifact.render_prepared (a : Artifact) :
    (∀ callables s, a.prepared.render callables s = a.render callables s) ∧
      ∀ nodes ∈ a.prepared.bodies, IsPrepared nodes := by
  constructor
  · intro callables s
    have hparts := renderList_prepareParts callables a.sections [] s a.body
    have hrender := Artifact.render_of_simulates (a := a) (b := a.prepared) rfl hparts
    cases hout : a.render callables s with
    | error e => rwa [hout] at hrender
    | ok out =>
      rw [hout] at hrender
      obtain ⟨out', hout', hsame⟩ := hrender
      rw [hout', String.toList_inj.1 hsame]
  · intro nodes hnodes
    obtain ⟨whole, hwhole, hmem⟩ := List.mem_flatMap.1 hnodes
    have hprepare : ∃ original, whole = prepare original := by
      rcases List.mem_cons.1 hwhole with rfl | hoverride
      · exact ⟨a.body, rfl⟩
      · obtain ⟨o, ho, rfl⟩ := List.mem_map.1 hoverride
        obtain ⟨original, -, rfl⟩ := List.mem_map.1 ho
        exact ⟨original.body, rfl⟩
    obtain ⟨original, rfl⟩ := hprepare
    exact isPrepared_of_mem_prepare hmem

/-- A page with all that is prepared: constants, comments, texts side by side, and a choice that has
a branch that never holds and one that always does. -/
theorem Artifact.render_prepared_page :
    let choice : Node := .choose
      [(.lit (.bool false), [.text "x"]), (.var "v", [.text "", .text "p", .text "q"]),
        (.lit (.bool true), [.emit (.lit (.int 1))]), (.var "w", [])] (some [.text "z"])
    let a : Artifact := ⟨currentVersion, "page", [⟨"x", [.text "m", .comment "c", .text "n"]⟩],
      [.text "a", .emit (.lit (.str "<b>")), .comment "c", choice], []⟩
    a.prepared.body =
        [.text "a&lt;b&gt;", .choose [(.var "v", [.text "pq"])] (some [.text "1"])] ∧
      a.prepared.sections = [⟨"x", [.text "mn"]⟩] ∧
      (∀ callables s, a.prepared.render callables s = a.render callables s) ∧
      [.text "pq"] ∈ a.prepared.bodies ∧ IsPrepared [.text "pq"] := by
  intro choice a
  have hbody : a.prepared.body =
      [.text "a&lt;b&gt;", .choose [(.var "v", [.text "pq"])] (some [.text "1"])] := by cbv
  have hsections : a.prepared.sections = [⟨"x", [.text "mn"]⟩] := by cbv
  have hmem : [.text "pq"] ∈ a.prepared.bodies := by
    simp [Artifact.bodies, hbody, Node.bodiesOfList, Node.bodies, Node.bodiesOfBranches]
  obtain ⟨hrender, hprepared⟩ := Artifact.render_prepared a
  exact ⟨hbody, hsections, hrender, hmem, hprepared _ hmem⟩

end Hashmark
