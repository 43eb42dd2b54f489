import Hashmark.Proofs.Elements.Settling
import Hashmark.Proofs.Optimizing.Expressions
import Hashmark.Proofs.Ordering.Ranks
import Hashmark.Proofs.Storing.Floats

/-!
# The loop of passes

`settle` repeats the pass as long as the texts measure less. A loop that compares the nodes before a
pass with those after it ends with the same nodes (`loop_ends`). Nodes that are the same have the
same texts (`Node.textsOfList_eq_of_same`), so they do not measure less. The other way round, a pass
that does not make the texts measure less leaves the nodes, and without NaN among the constants nodes
are the same as themselves (`Node.sameList_self`).
-/

namespace Hashmark

/-! ### Nodes that are the same -/

/-- Whether two constants are the same. Doubles are by their values, so NaN is not the same as
itself. -/
def Literal.same : Literal → Literal → Bool
  | .float x, .float y => x == y
  | l, l' => l = l'

mutual

/-- Whether two expressions are the same. -/
def Expr.same : Expr → Expr → Bool
  | .lit value, .lit value' => value.same value'
  | .list items, .list items' => Expr.sameList items items'
  | .var name, .var name' => name = name'
  | .field base name, .field base' name' => base.same base' && name = name'
  | .index base key, .index base' key' => base.same base' && key.same key'
  | .call name args, .call name' args' => name = name' && Expr.sameList args args'
  | .filter input name args, .filter input' name' args' =>
    input.same input' && name = name' && Expr.sameList args args'
  | .unary op operand, .unary op' operand' => op = op' && operand.same operand'
  | .binary op left right, .binary op' left' right' =>
    op = op' && left.same left' && right.same right'
  | _, _ => false

/-- Whether several expressions are the same. -/
def Expr.sameList : List Expr → List Expr → Bool
  | [], [] => true
  | e :: es, e' :: es' => e.same e' && Expr.sameList es es'
  | _, _ => false

end

mutual

/-- Whether two nodes are the same. -/
def Node.same : Node → Node → Bool
  | .text content, .text content' => content = content'
  | .emit value, .emit value' => value.same value'
  | .choose branches otherwise, .choose branches' otherwise' =>
    Node.sameBranches branches branches' && Node.sameOption otherwise otherwise'
  | .forEach source key value body, .forEach source' key' value' body' =>
    source.same source' && key = key' && value = value' && Node.sameList body body'
  | .block name body, .block name' body' => name = name' && Node.sameList body body'
  | .yield name default, .yield name' default' => name = name' && default = default'
  | .connect name, .connect name' => name = name'
  | .comment content, .comment content' => content = content'
  | _, _ => false

/-- Whether several nodes are the same. -/
def Node.sameList : List Node → List Node → Bool
  | [], [] => true
  | n :: ns, n' :: ns' => n.same n' && Node.sameList ns ns'
  | _, _ => false

/-- Whether the branches of two choices are the same. -/
def Node.sameBranches : List (Expr × List Node) → List (Expr × List Node) → Bool
  | [], [] => true
  | (condition, body) :: branches, (condition', body') :: branches' =>
    condition.same condition' && Node.sameList body body' && Node.sameBranches branches branches'
  | _, _ => false

/-- Whether two bodies that may be absent are the same. -/
def Node.sameOption : Option (List Node) → Option (List Node) → Bool
  | none, none => true
  | some body, some body' => Node.sameList body body'
  | _, _ => false

end

/-! ### Nodes without NaN -/

theorem beq_self_of_not_isNaN {x : Float} (h : x.isNaN = false) : (x == x) = true := by
  have hunpack : x.toModel.unpack.isNaN = false := h
  obtain ⟨p, hp⟩ : ∃ p, Number.rank? x = some p := by
    rw [Number.rank?]
    cases hfloat : x.toModel.unpack with
    | notANumber => rw [hfloat] at hunpack; cases hunpack
    | infinity s | zero s | finite s => cases s <;> exact ⟨_, rfl⟩
  rw [Number.beq_iff_ranks, hp, Number.compareRanks?_some, compare_eq_iff_eq.2 rfl]

/-- Whether no constant of an expression is NaN. -/
def Expr.NaNFree (e : Expr) : Prop :=
  ∀ x ∈ e.floats, x.isNaN = false

theorem Literal.same_self {value : Literal} (h : ∀ x ∈ value.floats, x.isNaN = false) :
    value.same value = true := by
  cases value with
  | float x => exact beq_self_of_not_isNaN (h x (List.mem_singleton_self x))
  | _ => simp [Literal.same]

mutual

theorem Expr.same_self : ∀ e : Expr, e.NaNFree → e.same e = true
  | .lit value, h => Literal.same_self h
  | .list items, h => Expr.sameList_self items h
  | .var name, _ => by simp [Expr.same]
  | .field base name, h => by simp [Expr.same, Expr.same_self base h]
  | .index base key, h => by
    obtain ⟨hbase, hkey⟩ := List.forall_mem_append.1 h
    simp [Expr.same, Expr.same_self base hbase, Expr.same_self key hkey]
  | .call name args, h => by simp [Expr.same, Expr.sameList_self args h]
  | .filter input name args, h => by
    obtain ⟨hinput, hargs⟩ := List.forall_mem_append.1 h
    simp [Expr.same, Expr.same_self input hinput, Expr.sameList_self args hargs]
  | .unary op operand, h => by simp [Expr.same, Expr.same_self operand h]
  | .binary op left right, h => by
    obtain ⟨hleft, hright⟩ := List.forall_mem_append.1 h
    simp [Expr.same, Expr.same_self left hleft, Expr.same_self right hright]

theorem Expr.sameList_self : ∀ es : List Expr,
    (∀ x ∈ Expr.floatsOfList es, x.isNaN = false) → Expr.sameList es es = true
  | [], _ => rfl
  | e :: es, h => by
    obtain ⟨he, hes⟩ := List.forall_mem_append.1 h
    simp [Expr.sameList, Expr.same_self e he, Expr.sameList_self es hes]

end

mutual

theorem Node.same_self : ∀ node : Node, (∀ e ∈ node.exprs, e.NaNFree) → node.same node = true
  | .text _, _ => by simp [Node.same]
  | .yield _ _, _ => by simp [Node.same]
  | .connect _, _ => by simp [Node.same]
  | .comment _, _ => by simp [Node.same]
  | .emit value, h => by
    simp [Node.same, Expr.same_self value (h value (List.mem_singleton_self value))]
  | .choose branches otherwise, h => by
    obtain ⟨hbranches, hotherwise⟩ := List.forall_mem_append.1 h
    simp [Node.same, Node.sameBranches_self branches hbranches,
      Node.sameOption_self otherwise hotherwise]
  | .forEach source key value body, h => by
    obtain ⟨hsource, hbody⟩ := List.forall_mem_cons.1 h
    simp [Node.same, Expr.same_self source hsource, Node.sameList_self body hbody]
  | .block name body, h => by simp [Node.same, Node.sameList_self body h]

/-- Nodes without NaN are the same as themselves. -/
theorem Node.sameList_self : ∀ nodes : List Node,
    (∀ e ∈ Node.exprsOfList nodes, e.NaNFree) → Node.sameList nodes nodes = true
  | [], _ => by simp [Node.sameList]
  | node :: nodes, h => by
    obtain ⟨hnode, hnodes⟩ := List.forall_mem_append.1 h
    simp [Node.sameList, Node.same_self node hnode, Node.sameList_self nodes hnodes]

theorem Node.sameBranches_self : ∀ branches : List (Expr × List Node),
    (∀ e ∈ Node.exprsOfBranches branches, e.NaNFree) →
      Node.sameBranches branches branches = true
  | [], _ => by simp [Node.sameBranches]
  | (condition, body) :: branches, h => by
    obtain ⟨hcondition, h⟩ := List.forall_mem_cons.1 h
    obtain ⟨hbody, hbranches⟩ := List.forall_mem_append.1 h
    simp [Node.sameBranches, Expr.same_self condition hcondition, Node.sameList_self body hbody,
      Node.sameBranches_self branches hbranches]

theorem Node.sameOption_self : ∀ body : Option (List Node),
    (∀ e ∈ Node.exprsOfOption body, e.NaNFree) → Node.sameOption body body = true
  | none, _ => by simp [Node.sameOption]
  | some body, h => by simp [Node.sameOption, Node.sameList_self body h]

end

/-! ### The texts of nodes that are the same -/

mutual

theorem Node.texts_eq_of_same : ∀ node node' : Node, node.same node' = true →
    node.texts = node'.texts
  | .text _, node', h => by cases node' <;> simp_all [Node.same, Node.texts]
  | .yield _ _, node', h => by cases node' <;> simp_all [Node.same, Node.texts]
  | .connect _, node', h => by cases node' <;> simp_all [Node.same, Node.texts]
  | .comment _, node', h => by cases node' <;> simp_all [Node.same, Node.texts]
  | .emit _, node', h => by cases node' <;> simp_all [Node.same, Node.texts]
  | .choose branches otherwise, node', h => by
    cases node' <;> simp only [Node.same, Bool.and_eq_true, Bool.false_eq_true] at h
    next branches' otherwise' =>
    rw [Node.texts, Node.texts, Node.textsOfBranches_eq_of_same branches branches' h.1,
      Node.textsOfOption_eq_of_same otherwise otherwise' h.2]
  | .forEach source key value body, node', h => by
    cases node' <;> simp only [Node.same, Bool.and_eq_true, Bool.false_eq_true] at h
    next source' key' value' body' => exact Node.textsOfList_eq_of_same body body' h.2
  | .block name body, node', h => by
    cases node' <;> simp only [Node.same, Bool.and_eq_true, Bool.false_eq_true] at h
    next name' body' => exact Node.textsOfList_eq_of_same body body' h.2

/-- Nodes that are the same have the same texts. -/
theorem Node.textsOfList_eq_of_same : ∀ nodes nodes' : List Node,
    Node.sameList nodes nodes' = true → Node.textsOfList nodes = Node.textsOfList nodes'
  | [], nodes', h => by
    cases nodes' <;> simp only [Node.sameList, Bool.false_eq_true] at h
    rfl
  | node :: nodes, nodes', h => by
    cases nodes' <;> simp only [Node.sameList, Bool.and_eq_true, Bool.false_eq_true] at h
    next node' nodes' =>
    rw [Node.textsOfList, Node.textsOfList, Node.texts_eq_of_same node node' h.1,
      Node.textsOfList_eq_of_same nodes nodes' h.2]

theorem Node.textsOfBranches_eq_of_same : ∀ branches branches' : List (Expr × List Node),
    Node.sameBranches branches branches' = true →
      Node.textsOfBranches branches = Node.textsOfBranches branches'
  | [], branches', h => by
    cases branches' <;> simp only [Node.sameBranches, Bool.false_eq_true] at h
    rfl
  | (condition, body) :: branches, branches', h => by
    rcases branches' with _ | ⟨⟨condition', body'⟩, branches'⟩ <;>
      simp only [Node.sameBranches, Bool.and_eq_true, Bool.false_eq_true] at h
    rw [Node.textsOfBranches, Node.textsOfBranches,
      Node.textsOfList_eq_of_same body body' h.1.2,
      Node.textsOfBranches_eq_of_same branches branches' h.2]

theorem Node.textsOfOption_eq_of_same : ∀ body body' : Option (List Node),
    Node.sameOption body body' = true → Node.textsOfOption body = Node.textsOfOption body'
  | none, body', h => by
    cases body' <;> simp only [Node.sameOption, Bool.false_eq_true] at h
    rfl
  | some body, body', h => by
    cases body' <;> simp only [Node.sameOption, Bool.false_eq_true] at h
    next body' => exact Node.textsOfList_eq_of_same body body' h

end

/-! ### The loop -/

section Loop

variable (facts : OverrideFacts) (start : Region)

/-- What the loop ends with that gives nodes back if they are the same before and after a pass, and
goes on after the pass otherwise. -/
inductive LoopEnds : List Node → List Node → Prop where
  | same {nodes : List Node} :
    Node.sameList (Node.minifyList facts start nodes).nodes nodes = true → LoopEnds nodes nodes
  | again {nodes result : List Node} :
    Node.sameList (Node.minifyList facts start nodes).nodes nodes = false →
      LoopEnds (Node.minifyList facts start nodes).nodes result → LoopEnds nodes result

theorem measureLess_iff_lex (a b : Nat × Nat × Nat) :
    measureLess a b = true ↔ Prod.Lex (· < ·) (Prod.Lex (· < ·) (· < ·)) a b := by
  rw [measureLess_iff, Prod.lex_def, Prod.lex_def]

variable {facts start} {nodes : List Node}

/-- The loop ends in one way at most. -/
theorem LoopEnds.unique {result result' : List Node} (h : LoopEnds facts start nodes result)
    (h' : LoopEnds facts start nodes result') : result = result' := by
  induction h with
  | same hsame =>
    cases h' with
    | same => rfl
    | again hchanged _ => exact absurd hsame (by simp [hchanged])
  | again hchanged _ ih =>
    cases h' with
    | same hsame => exact absurd hsame (by simp [hchanged])
    | again _ h' => exact ih h'

/-- Nodes that measure less are not the same. -/
theorem sameList_of_measureLess {nodes' : List Node}
    (h : measureLess (textMeasure nodes') (textMeasure nodes) = true) :
    Node.sameList nodes' nodes = false := by
  by_contra hsame
  have htexts := Node.textsOfList_eq_of_same nodes' nodes (by simpa using hsame)
  rw [textMeasure, textMeasure, htexts, measureLess_iff] at h
  omega

/-- A pass that changes nodes makes their texts measure less. -/
theorem measureLess_of_not_same (hfree : ∀ e ∈ Node.exprsOfList nodes, e.NaNFree)
    (h : Node.sameList (Node.minifyList facts start nodes).nodes nodes = false) :
    measureLess (textMeasure (Node.minifyList facts start nodes).nodes) (textMeasure nodes) =
      true := by
  by_contra hless
  rw [minifyList_of_stays facts start (stays_of_not_less facts start nodes hless),
    Node.sameList_self nodes hfree] at h
  cases h

theorem exprs_minifyList (facts : OverrideFacts) (start : Region) (nodes : List Node) :
    Node.exprsOfList (Node.minifyList facts start nodes).nodes = Node.exprsOfList nodes := by
  rw [Node.minifyList_nodes, Node.exprs_rewriteList]

/-- The loop ends with the settled nodes. The induction is along the measure of `settle`. -/
theorem loopEnds_settle (hfree : ∀ e ∈ Node.exprsOfList nodes, e.NaNFree) :
    LoopEnds facts start nodes (settle facts start nodes).1 := by
  induction nodes using settle.induct facts start with
  | case1 nodes pass hless ih =>
    rw [settle, if_pos hless]
    exact .again (sameList_of_measureLess hless) (ih (by rwa [exprs_minifyList]))
  | case2 nodes pass hless =>
    have hstays := stays_of_not_less facts start nodes hless
    rw [settle_of_stays facts start hstays]
    exact .same (by rw [minifyList_of_stays facts start hstays, Node.sameList_self nodes hfree])

end Loop

/-- **The loop of passes ends.** If no constant of some nodes is NaN, then a pass that changes them
makes less of the number of characters in texts, the number of odd blanks among them and the number
of texts, compared in this order. So the loop that repeats the pass until it changes nothing ends,
with the settled nodes and no others, and one more pass leaves them as they are. -/
theorem loop_ends (facts : OverrideFacts) (start : Region) {nodes : List Node}
    (hfree : ∀ e ∈ Node.exprsOfList nodes, ∀ x ∈ e.floats, x.isNaN = false) :
    (Node.sameList (Node.minifyList facts start nodes).nodes nodes = false →
      Prod.Lex (· < ·) (Prod.Lex (· < ·) (· < ·))
        (textMeasure (Node.minifyList facts start nodes).nodes) (textMeasure nodes)) ∧
    (∀ result, LoopEnds facts start nodes result ↔ result = (settle facts start nodes).1) ∧
    (Node.minifyList facts start (settle facts start nodes).1).nodes =
      (settle facts start nodes).1 := by
  refine ⟨fun hchanged => (measureLess_iff_lex _ _).1 (measureLess_of_not_same hfree hchanged),
    fun result => ⟨fun h => h.unique (loopEnds_settle hfree), ?_⟩,
    minifyList_of_stays facts start (stays_settle facts start nodes).1⟩
  rintro rfl
  exact loopEnds_settle hfree

/-- A double, and a text with a comment and a tabulator. -/
theorem loop_ends_comment :
    LoopEnds ⟨none, []⟩ .markup [.emit (.lit (.float 1.5)), .text "a<!-- x -->\tb"]
      [.emit (.lit (.float 1.5)), .text "a b"] := by
  have hsettle (x : Float) : (settle ⟨none, []⟩ .markup
      [.emit (.lit (.float x)), .text "a<!-- x -->\tb"]).1 =
        [.emit (.lit (.float x)), .text "a b"] :=
    settle_of_minifyList _ _ (by cbv) (by rfl) (by cbv)
  refine ((loop_ends ⟨none, []⟩ .markup ?_).2.1 _).2 (hsettle 1.5).symm
  intro e he x hx
  obtain rfl := List.mem_singleton.1 he
  obtain rfl := List.mem_singleton.1 hx
  rfl

end Hashmark
