import Hashmark.Proofs.Elements.Reading

/-!
# Passes as one rewriting

A pass over nodes is a rewriting of their texts, each from the region in which it is entered
(`Node.minifyList_nodes`). If the rewritten texts lead to the same regions as before, then a pass
over rewritten nodes goes through the same regions and enters the same overrides
(`Node.traced_rewriteList`), and one rewriting after the other is one rewriting
(`Node.rewriteList_rewriteList`).
-/

namespace Hashmark

/-! ### Rewriting texts -/

mutual

/-- The nodes that take the place of a node that is entered in a region, when each text is rewritten
from the region in which it is entered. -/
def Node.rewrite (f : Region → String → String) (facts : OverrideFacts) (region : Region) :
    Node → List Node
  | .text content => if f region content = "" then [] else [.text (f region content)]
  | .choose branches otherwise =>
    [.choose (Node.rewriteBranches f facts region branches)
      (Node.rewriteOption f facts region otherwise)]
  | .forEach source key value body =>
    if (Node.minifyList facts region body).region = region then
      [.forEach source key value (Node.rewriteList f facts region body)]
    else [.forEach source key value (Node.rewriteList f facts .unknown body)]
  | .block name body =>
    if (facts.after? name region).isSome then
      [.block name (Node.rewriteList f facts .unknown body)]
    else [.block name (Node.rewriteList f facts region body)]
  | .emit value => [.emit value]
  | .yield name default => [.yield name default]
  | .connect name => [.connect name]
  | .comment content => [.comment content]

/-- The nodes that take the place of several nodes. -/
def Node.rewriteList (f : Region → String → String) (facts : OverrideFacts) (region : Region) :
    List Node → List Node
  | [] => []
  | node :: nodes =>
    node.rewrite f facts region ++
      Node.rewriteList f facts (node.minify facts region).region nodes

/-- The branches that take the place of the branches of a choice. -/
def Node.rewriteBranches (f : Region → String → String) (facts : OverrideFacts)
    (region : Region) : List (Expr × List Node) → List (Expr × List Node)
  | [] => []
  | (condition, body) :: branches =>
    (condition, Node.rewriteList f facts region body) ::
      Node.rewriteBranches f facts region branches

/-- What takes the place of a body that may be absent. -/
def Node.rewriteOption (f : Region → String → String) (facts : OverrideFacts) (region : Region) :
    Option (List Node) → Option (List Node)
  | none => none
  | some body => some (Node.rewriteList f facts region body)

end

/-- A text minified from a region, without the region after it. -/
def minified (region : Region) (text : String) : String :=
  (minifyText region text).1

@[simp] theorem minifyText_empty (region : Region) : minifyText region "" = ("", region) := by
  cases region <;> simp [minifyText, minifyChars_nil]

@[simp] theorem minifyText_unknown (text : String) :
    minifyText .unknown text = (text, .unknown) := rfl

section Minify

variable (facts : OverrideFacts)

mutual

/-- A pass is a rewriting. -/
theorem Node.minify_nodes (region : Region) : ∀ node : Node,
    (node.minify facts region).nodes = node.rewrite minified facts region
  | .text _ => rfl
  | .emit _ => rfl
  | .yield _ _ => rfl
  | .connect _ => rfl
  | .comment _ => rfl
  | .choose branches otherwise => by
    have hb := Node.minifyBranches_branches region branches
    cases otherwise with
    | none => simp only [Node.minify, Node.minifyOption, Node.rewrite, Node.rewriteOption, hb]
    | some body =>
      have ho := Node.minifyList_nodes region body
      simp only [Node.minify, Node.minifyOption, Node.rewrite, Node.rewriteOption, hb, ho]
  | .forEach source key value body => by
    have honce := Node.minifyList_nodes region body
    have hagain := Node.minifyList_nodes .unknown body
    simp only [Node.minify, Node.rewrite]
    split
    · rw [honce]
    · rw [hagain]
  | .block name body => by
    have hunused := Node.minifyList_nodes .unknown body
    have hinside := Node.minifyList_nodes region body
    simp only [Node.minify, Node.rewrite]
    split
    · next hafter => simp [hafter, hunused]
    · next hafter => simp [hafter, hinside]

theorem Node.minifyList_nodes (region : Region) : ∀ nodes : List Node,
    (Node.minifyList facts region nodes).nodes = Node.rewriteList minified facts region nodes
  | [] => rfl
  | node :: nodes => by
    simp only [Node.minifyList, Node.rewriteList, Node.minify_nodes region node,
      Node.minifyList_nodes _ nodes]

theorem Node.minifyBranches_branches (region : Region) : ∀ branches : List (Expr × List Node),
    (Node.minifyBranches facts region branches).branches =
      Node.rewriteBranches minified facts region branches
  | [] => rfl
  | (condition, body) :: branches => by
    simp only [Node.minifyBranches, Node.rewriteBranches, Node.minifyList_nodes region body,
      Node.minifyBranches_branches region branches]

end

/-! ### Regions -/

theorem minifyList_append (region : Region) (nodes more : List Node) :
    Node.minifyList facts region (nodes ++ more) =
      ⟨(Node.minifyList facts region nodes).nodes ++
          (Node.minifyList facts (Node.minifyList facts region nodes).region more).nodes,
        (Node.minifyList facts (Node.minifyList facts region nodes).region more).region,
        (Node.minifyList facts region nodes).visits ++
          (Node.minifyList facts (Node.minifyList facts region nodes).region more).visits⟩ := by
  induction nodes generalizing region with
  | nil => simp [Node.minifyList]
  | cons node nodes ih => simp [Node.minifyList, ih]

theorem minifyList_singleton (region : Region) (node : Node) :
    Node.minifyList facts region [node] = node.minify facts region := by
  simp [Node.minifyList]

theorem common_eq {regions : List Region} {region : Region} (hne : regions ≠ [])
    (h : ∀ r ∈ regions, r = region) : Region.common regions = region := by
  cases regions with
  | nil => exact absurd rfl hne
  | cons r rs =>
    obtain ⟨rfl, hrs⟩ := List.forall_mem_cons.1 h
    rw [Region.common, if_pos (List.all_eq_true.2 fun r' hr' => by simpa using hrs r' hr')]

/-- What several places have in common is known only if it is the region of each of them. -/
theorem common_cases (regions : List Region) :
    Region.common regions = .unknown ∨ ∀ r ∈ regions, r = Region.common regions := by
  cases regions with
  | nil => exact .inl rfl
  | cons r rs =>
    rw [Region.common]
    split
    · next hall =>
      refine .inr (List.forall_mem_cons.2 ⟨rfl, fun r' hr' => ?_⟩)
      simpa using List.all_eq_true.1 hall r' hr'
    · exact .inl rfl

mutual

/-- Where the region is not known, it stays so. -/
theorem Node.minify_unknown : ∀ node : Node, (node.minify facts .unknown).region = .unknown
  | .text _ => rfl
  | .emit value => by simp only [Node.minify, ite_self]
  | .connect _ => rfl
  | .comment _ => rfl
  | .yield name _ => by
    simp only [Node.minify, OverrideFacts.after?]
    split
    · rfl
    · split <;> simp
  | .choose branches otherwise => by
    have hb := Node.minifyBranches_unknown branches
    cases otherwise with
    | none =>
      simp only [Node.minify, Node.minifyOption]
      refine common_eq (by simp) fun r hr => ?_
      rcases List.mem_append.1 hr with hr | hr
      · exact hb r hr
      · exact List.mem_singleton.1 hr
    | some body =>
      have ho := Node.minifyList_unknown body
      simp only [Node.minify, Node.minifyOption]
      refine common_eq (by simp) fun r hr => ?_
      rcases List.mem_append.1 hr with hr | hr
      · exact hb r hr
      · rw [List.mem_singleton.1 hr, ho]
  | .forEach source key value body => by
    simp only [Node.minify, Node.minifyList_unknown body, if_true]
  | .block name body => by
    have hbody := Node.minifyList_unknown body
    simp only [Node.minify, OverrideFacts.after?]
    split
    · next after hafter =>
      split at hafter
      · cases hafter; rfl
      · split at hafter
        · cases hafter; simp
        · cases hafter
    · exact hbody

theorem Node.minifyList_unknown : ∀ nodes : List Node,
    (Node.minifyList facts .unknown nodes).region = .unknown
  | [] => rfl
  | node :: nodes => by
    simp only [Node.minifyList, Node.minify_unknown node, Node.minifyList_unknown nodes]

theorem Node.minifyBranches_unknown : ∀ branches : List (Expr × List Node),
    ∀ r ∈ (Node.minifyBranches facts .unknown branches).regions, r = .unknown
  | [] => by simp [Node.minifyBranches]
  | (condition, body) :: branches => by
    simp only [Node.minifyBranches]
    exact List.forall_mem_cons.2 ⟨Node.minifyList_unknown body,
      Node.minifyBranches_unknown branches⟩

end

end Minify

/-- Whether texts lead to the same regions before and after they are rewritten; where the region is
not known, they stay as they are. -/
structure KeepsRegions (f : Region → String → String) (text : String) : Prop where
  unknown : f .unknown text = text
  region : ∀ region, (minifyText region (f region text)).2 = (minifyText region text).2

/-- The region after nodes and the overrides that they enter. -/
abbrev Minified.traced (m : Minified) : Region × List Visit :=
  (m.region, m.visits)

section Rewrite

variable {f : Region → String → String} (facts : OverrideFacts)

/-- A text that was rewritten leads to the same region. -/
theorem traced_text {text : String} (hf : KeepsRegions f text) {r₁ r₂ : Region}
    (h : r₁ = r₂ ∨ r₁ = .unknown) :
    (Node.minifyList facts r₂ (Node.rewrite f facts r₁ (.text text))).traced =
      ((minifyText r₂ text).2, []) := by
  have hregion : (minifyText r₂ (f r₁ text)).2 = (minifyText r₂ text).2 := by
    rcases h with rfl | rfl
    · exact hf.region r₁
    · rw [hf.unknown]
  rw [Node.rewrite]
  split
  · next hempty =>
    rw [hempty, minifyText_empty] at hregion
    dsimp only at hregion
    simp [Node.minifyList, ← hregion]
  · simp [Node.minifyList, Node.minify, hregion]

theorem isSome_after? (name : String) (r₁ r₂ : Region) :
    (facts.after? name r₁).isSome = (facts.after? name r₂).isSome := by
  unfold OverrideFacts.after?
  split
  · rfl
  · split <;> rfl

mutual

/-- Rewriting the texts of a node changes neither the region after it nor the overrides that it
enters. -/
theorem Node.traced_rewrite {r₁ r₂ : Region} (h : r₁ = r₂ ∨ r₁ = .unknown) : ∀ node : Node,
    AllOf (KeepsRegions f) node.texts →
    (Node.minifyList facts r₂ (node.rewrite f facts r₁)).traced = (node.minify facts r₂).traced
  | .text content, hf => by
    rw [traced_text facts (allOf_singleton.1 hf) h]
    rfl
  | .emit _, _ => by rw [Node.rewrite, minifyList_singleton]
  | .yield _ _, _ => by rw [Node.rewrite, minifyList_singleton]
  | .connect _, _ => by rw [Node.rewrite, minifyList_singleton]
  | .comment _, _ => by rw [Node.rewrite, minifyList_singleton]
  | .choose branches otherwise, hf => by
    obtain ⟨hfb, hfo⟩ := allOf_append.1 hf
    obtain ⟨hregions, hvisits⟩ := Node.traced_rewriteBranches h branches hfb
    rw [Node.rewrite, minifyList_singleton]
    cases otherwise with
    | none =>
      simp only [Node.minify, Node.rewriteOption, Node.minifyOption, hregions, hvisits]
    | some body =>
      have hbody := Node.traced_rewriteList h body hfo
      simp only [Prod.mk.injEq] at hbody
      simp only [Node.minify, Node.rewriteOption, Node.minifyOption, hregions, hvisits, hbody]
  | .forEach source key value body, hf => by
    have honce := fun r (hr : r = r₂ ∨ r = .unknown) =>
      Node.traced_rewriteList hr body hf
    have hagain := Node.traced_rewriteList (.inl (Eq.refl Region.unknown)) body hf
    simp only [Prod.mk.injEq] at honce hagain
    by_cases hstays : (Node.minifyList facts r₂ body).region = r₂
    · have hrewrite : ∃ r, (r = r₂ ∨ r = .unknown) ∧ Node.rewrite f facts r₁
          (.forEach source key value body) =
            [.forEach source key value (Node.rewriteList f facts r body)] := by
        rw [Node.rewrite]
        split
        · exact ⟨r₁, h, rfl⟩
        · exact ⟨.unknown, .inr rfl, rfl⟩
      obtain ⟨r, hr, hrewrite⟩ := hrewrite
      rw [hrewrite, minifyList_singleton]
      simp only [Node.minify, honce r hr, if_pos hstays]
    · -- the region changes, so both times the pass starts where it is not known
      have hrewrite : Node.rewrite f facts r₁ (.forEach source key value body) =
          [.forEach source key value (Node.rewriteList f facts .unknown body)] := by
        rw [Node.rewrite]
        rcases h with rfl | rfl
        · rw [if_neg hstays]
        · rw [ite_self]
      rw [hrewrite, minifyList_singleton]
      simp only [Node.minify, honce .unknown (.inr rfl), if_neg hstays, hagain]
  | .block name body, hf => by
    rw [Node.rewrite, isSome_after? facts name r₁ r₂]
    cases hafter : facts.after? name r₂ with
    | some region =>
      have hunused := Node.traced_rewriteList (.inl (Eq.refl Region.unknown)) body hf
      simp only [Prod.mk.injEq] at hunused
      simp only [Option.isSome_some, if_true, minifyList_singleton, Node.minify, hafter, hunused]
    | none =>
      have hinside := Node.traced_rewriteList h body hf
      simp only [Prod.mk.injEq] at hinside
      simp only [Option.isSome_none, Bool.false_eq_true, if_false, minifyList_singleton,
        Node.minify, hafter, hinside]

theorem Node.traced_rewriteList {r₁ r₂ : Region} (h : r₁ = r₂ ∨ r₁ = .unknown) :
    ∀ nodes : List Node, AllOf (KeepsRegions f) (Node.textsOfList nodes) →
    (Node.minifyList facts r₂ (Node.rewriteList f facts r₁ nodes)).traced =
      (Node.minifyList facts r₂ nodes).traced
  | [], _ => rfl
  | node :: nodes, hf => by
    obtain ⟨hfn, hfns⟩ := allOf_append.1 hf
    have hnode := Node.traced_rewrite h node hfn
    simp only [Prod.mk.injEq] at hnode
    have hafter : (node.minify facts r₁).region = (node.minify facts r₂).region ∨
        (node.minify facts r₁).region = .unknown := by
      rcases h with rfl | rfl
      · exact .inl rfl
      · exact .inr (Node.minify_unknown facts node)
    have hnodes := Node.traced_rewriteList hafter nodes hfns
    simp only [Prod.mk.injEq] at hnodes
    rw [Node.rewriteList, minifyList_append, hnode.1]
    simp only [Node.minifyList, hnode, hnodes]

theorem Node.traced_rewriteBranches {r₁ r₂ : Region} (h : r₁ = r₂ ∨ r₁ = .unknown) :
    ∀ branches : List (Expr × List Node), AllOf (KeepsRegions f) (Node.textsOfBranches branches) →
    (Node.minifyBranches facts r₂ (Node.rewriteBranches f facts r₁ branches)).regions =
        (Node.minifyBranches facts r₂ branches).regions ∧
      (Node.minifyBranches facts r₂ (Node.rewriteBranches f facts r₁ branches)).visits =
        (Node.minifyBranches facts r₂ branches).visits
  | [], _ => ⟨rfl, rfl⟩
  | (condition, body) :: branches, hf => by
    obtain ⟨hfb, hfbs⟩ := allOf_append.1 hf
    have hbody := Node.traced_rewriteList h body hfb
    simp only [Prod.mk.injEq] at hbody
    obtain ⟨hregions, hvisits⟩ := Node.traced_rewriteBranches h branches hfbs
    simp only [Node.rewriteBranches, Node.minifyBranches, hbody, hregions, hvisits, and_self]

end

/-! ### One rewriting after the other -/

theorem rewriteList_append (g : Region → String → String) (region : Region)
    (nodes more : List Node) :
    Node.rewriteList g facts region (nodes ++ more) =
      Node.rewriteList g facts region nodes ++
        Node.rewriteList g facts (Node.minifyList facts region nodes).region more := by
  induction nodes generalizing region with
  | nil => rfl
  | cons node nodes ih =>
    simp only [List.cons_append, Node.rewriteList, ih, Node.minifyList, List.append_assoc]

theorem rewriteList_singleton (g : Region → String → String) (region : Region) (node : Node) :
    Node.rewriteList g facts region [node] = node.rewrite g facts region := by
  simp [Node.rewriteList]

/-- Two rewritings of a text, one after the other. -/
abbrev andThen (f g : Region → String → String) : Region → String → String :=
  fun region text => g region (f region text)

variable {g : Region → String → String}

mutual

/-- A node that is rewritten twice. -/
theorem Node.rewriteList_rewrite (hg : ∀ r, g r "" = "") (region : Region) : ∀ node : Node,
    AllOf (KeepsRegions f) node.texts →
    Node.rewriteList g facts region (node.rewrite f facts region) =
      node.rewrite (andThen f g) facts region
  | .text content, _ => by
    rw [Node.rewrite, Node.rewrite]
    split
    · next hempty => simp [Node.rewriteList, andThen, hempty, hg]
    · rw [rewriteList_singleton, Node.rewrite]
  | .emit _, _ => by rw [Node.rewrite, rewriteList_singleton, Node.rewrite, Node.rewrite]
  | .yield _ _, _ => by rw [Node.rewrite, rewriteList_singleton, Node.rewrite, Node.rewrite]
  | .connect _, _ => by rw [Node.rewrite, rewriteList_singleton, Node.rewrite, Node.rewrite]
  | .comment _, _ => by rw [Node.rewrite, rewriteList_singleton, Node.rewrite, Node.rewrite]
  | .choose branches otherwise, hf => by
    obtain ⟨hfb, hfo⟩ := allOf_append.1 hf
    have hbranches := Node.rewriteBranches_rewriteBranches hg region branches hfb
    rw [Node.rewrite, rewriteList_singleton, Node.rewrite, Node.rewrite, hbranches]
    cases otherwise with
    | none => rfl
    | some body =>
      have hbody := Node.rewriteList_rewriteList hg region body hfo
      simp only [Node.rewriteOption, hbody]
  | .forEach source key value body, hf => by
    have htraced := fun r (hr : r = region ∨ r = .unknown) =>
      congrArg Prod.fst (Node.traced_rewriteList facts hr body hf)
    dsimp only at htraced
    rw [Node.rewrite, Node.rewrite]
    split
    · next hstays =>
      rw [rewriteList_singleton, Node.rewrite, htraced region (.inl rfl), if_pos hstays,
        Node.rewriteList_rewriteList hg region body hf]
    · next hstays =>
      rw [rewriteList_singleton, Node.rewrite, htraced .unknown (.inr rfl), if_neg hstays,
        Node.rewriteList_rewriteList hg .unknown body hf]
  | .block name body, hf => by
    rw [Node.rewrite, Node.rewrite]
    split
    · next hafter =>
      rw [rewriteList_singleton, Node.rewrite, if_pos hafter,
        Node.rewriteList_rewriteList hg .unknown body hf]
    · next hafter =>
      rw [rewriteList_singleton, Node.rewrite, if_neg hafter,
        Node.rewriteList_rewriteList hg region body hf]

/-- **One rewriting after the other** is one rewriting. -/
theorem Node.rewriteList_rewriteList (hg : ∀ r, g r "" = "") (region : Region) :
    ∀ nodes : List Node, AllOf (KeepsRegions f) (Node.textsOfList nodes) →
    Node.rewriteList g facts region (Node.rewriteList f facts region nodes) =
      Node.rewriteList (andThen f g) facts region nodes
  | [], _ => rfl
  | node :: nodes, hf => by
    obtain ⟨hfn, hfns⟩ := allOf_append.1 hf
    have htraced := congrArg Prod.fst (Node.traced_rewrite facts (.inl (Eq.refl region)) node hfn)
    dsimp only at htraced
    rw [Node.rewriteList, rewriteList_append, htraced, Node.rewriteList_rewrite hg region node hfn,
      Node.rewriteList_rewriteList hg _ nodes hfns, Node.rewriteList]

/-- Branches that are rewritten twice. -/
theorem Node.rewriteBranches_rewriteBranches (hg : ∀ r, g r "" = "") (region : Region) :
    ∀ branches : List (Expr × List Node), AllOf (KeepsRegions f) (Node.textsOfBranches branches) →
    Node.rewriteBranches g facts region (Node.rewriteBranches f facts region branches) =
      Node.rewriteBranches (andThen f g) facts region branches
  | [], _ => rfl
  | (condition, body) :: branches, hf => by
    obtain ⟨hfb, hfbs⟩ := allOf_append.1 hf
    rw [Node.rewriteBranches, Node.rewriteBranches, Node.rewriteBranches,
      Node.rewriteList_rewriteList hg region body hfb,
      Node.rewriteBranches_rewriteBranches hg region branches hfbs]

end

end Rewrite

end Hashmark
