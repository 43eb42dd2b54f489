import Hashmark.Proofs.Elements.Changing
import Hashmark.Proofs.Elements.Vagueness
import Hashmark.Proofs.Optimizing.Expressions

/-!
# Optimizing once more

A second run of the optimizer starts from nodes that are prepared and that settled in the first run,
with the same live overrides (`Artifact.live_optimize`). What it may find out anew is only which of
them can change the region. If it counts as many overrides among the changing ones as the first run,
then it knows no more of any region, so it changes nothing (`Artifact.optimize_of_subset`). Nodes
that are optimized on their own have no overrides, and so settle for good (`optimize_optimize`).
-/

namespace Hashmark

/-! ### Names of parts -/

section PartNames

variable (f : Region → String → String) (facts : OverrideFacts)

theorem partNamesOfList_append (nodes more : List Node) :
    Node.partNamesOfList (nodes ++ more) =
      Node.partNamesOfList nodes ++ Node.partNamesOfList more := by
  induction nodes with
  | nil => rfl
  | cons node nodes ih => simp [Node.partNamesOfList, ih]

mutual

/-- Rewriting the texts of a node leaves its blocks and yields. -/
theorem Node.partNames_rewrite (region : Region) : ∀ node : Node,
    Node.partNamesOfList (node.rewrite f facts region) = node.partNames
  | .text _ => by
    rw [Node.rewrite]
    split <;> rfl
  | .comment _ => rfl
  | .yield _ _ => rfl
  | .connect _ => rfl
  | .emit _ => rfl
  | .choose branches otherwise => by
    have hbranches := Node.partNames_rewriteBranches region branches
    cases otherwise with
    | none =>
      simp [Node.rewrite, Node.rewriteOption, Node.partNamesOfList, Node.partNames, hbranches]
    | some body =>
      have hbody := Node.partNames_rewriteList region body
      simp [Node.rewrite, Node.rewriteOption, Node.partNamesOfList, Node.partNames,
        Node.partNamesOfOption, hbranches, hbody]
  | .forEach source key value body => by
    have hbody := fun region => Node.partNames_rewriteList region body
    rw [Node.rewrite]
    split <;> simp [Node.partNamesOfList, Node.partNames, hbody]
  | .block name body => by
    have hbody := fun region => Node.partNames_rewriteList region body
    rw [Node.rewrite]
    split <;> simp [Node.partNamesOfList, Node.partNames, hbody]

theorem Node.partNames_rewriteList (region : Region) : ∀ nodes : List Node,
    Node.partNamesOfList (Node.rewriteList f facts region nodes) = Node.partNamesOfList nodes
  | [] => rfl
  | node :: nodes => by
    rw [Node.rewriteList, partNamesOfList_append, Node.partNames_rewrite region node,
      Node.partNames_rewriteList _ nodes, Node.partNamesOfList]

theorem Node.partNames_rewriteBranches (region : Region) : ∀ branches : List (Expr × List Node),
    Node.partNamesOfBranches (Node.rewriteBranches f facts region branches) =
      Node.partNamesOfBranches branches
  | [] => rfl
  | (_, body) :: branches => by
    rw [Node.rewriteBranches, Node.partNamesOfBranches, Node.partNamesOfBranches,
      Node.partNames_rewriteList region body, Node.partNames_rewriteBranches region branches]

end

/-- Settled nodes have the blocks and yields of the nodes. -/
theorem partNames_settle (start : Region) (nodes : List Node) :
    Node.partNamesOfList (settle facts start nodes).1 = Node.partNamesOfList nodes := by
  refine settle_induction
    (motive := fun nodes' => Node.partNamesOfList nodes' = Node.partNamesOfList nodes)
    facts start (fun nodes' h => ?_) nodes rfl
  rw [Node.minifyList_nodes, Node.partNames_rewriteList, h]

end PartNames

/-! ### Settling again -/

section Settle

variable {facts vague : OverrideFacts} {start start' : Region}

/-- Settled nodes settle again to themselves under passes that know no more. -/
theorem settle_settle_of_covers (hfacts : vague.Covers facts) (h : start'.Covers start)
    (nodes : List Node) :
    settle vague start' (settle facts start nodes).1 =
      ((settle facts start nodes).1,
        (Node.minifyList vague start' (settle facts start nodes).1).visits) :=
  settle_of_stays vague start'
    (Node.staysList_of_covers hfacts h _ (stays_settle facts start nodes).1)

/-- Settled nodes settle again to themselves. -/
theorem settle_settle (nodes : List Node) :
    settle facts start (settle facts start nodes).1 = settle facts start nodes := by
  obtain ⟨hstays, hvisits⟩ := stays_settle facts start nodes
  rw [settle_of_stays facts start hstays, ← hvisits]

/-- A tidy node list settles to itself from a region that is not known. -/
theorem settle_unknown {nodes : List Node} (h : Node.TidyList true nodes) :
    (settle facts .unknown nodes).1 = nodes := by
  rw [settle_of_stays facts .unknown (Node.staysList_unknown facts nodes h)]

end Settle

/-- **Optimizing nodes twice** is optimizing them once. Of the optimized nodes nothing can be folded
or merged any more, and one pass over them changes none of their texts. -/
theorem optimize_optimize (nodes : List Node) :
    optimize (optimize nodes) = optimize nodes ∧
      prepare (optimize nodes) = optimize nodes ∧
      (Node.minifyList ⟨none, []⟩ .markup (optimize nodes)).nodes = optimize nodes := by
  have hprepared : prepare (optimize nodes) = optimize nodes := prepare_settle_prepare _ _ _
  have hstays := (stays_settle ⟨none, []⟩ .markup (prepare nodes)).1
  refine ⟨?_, hprepared, minifyList_of_stays _ _ hstays⟩
  rw [optimize, hprepared]
  exact congrArg Prod.fst (settle_settle (prepare nodes))

/-! ### Overrides of an optimized artifact -/

section Overrides

variable {facts vague : OverrideFacts} {entry entry' : String → Region}

/-- The live overrides after a run are those before it, each one settled from its entry. -/
theorem liveOverrides_optimizeOverrides {seen seen' : List String}
    (hseen : ∀ name, name ∈ seen ↔ name ∈ seen') (overrides : List Override) :
    liveOverrides seen (optimizeOverrides facts entry seen' overrides) =
      (liveOverrides seen overrides).map fun o =>
        { o with body := (settle facts (entry o.name) o.body).1 } := by
  induction overrides generalizing seen seen' with
  | nil => rfl
  | cons o os ih =>
    rw [optimizeOverrides, liveOverrides, liveOverrides]
    by_cases hname : o.name ∈ seen
    · rw [if_pos (List.contains_iff_mem.2 hname), if_pos (List.contains_iff_mem.2 hname)]
      refine ih fun name => ?_
      rw [hseen, List.mem_cons]
      constructor
      · exact .inr
      · rintro (rfl | h)
        · exact (hseen _).1 hname
        · exact h
    · have hname' : o.name ∉ seen' := fun h => hname ((hseen _).2 h)
      have hrest := @ih (o.name :: seen) (o.name :: seen') fun name => by simp [hseen]
      simp only [List.contains_iff_mem, hname, hname', if_false, List.map_cons, hrest]

/-- Overrides that were optimized stay so under a run that knows no more. -/
theorem optimizeOverrides_of_covers (hfacts : vague.Covers facts)
    (hentry : ∀ name, (entry' name).Covers (entry name)) (overrides : List Override)
    (seen : List String) :
    optimizeOverrides vague entry' seen (optimizeOverrides facts entry seen overrides) =
      optimizeOverrides facts entry seen overrides := by
  induction overrides generalizing seen with
  | nil => rfl
  | cons o os ih =>
    -- behind an override of its name, an override is minified from no known region in both runs
    have hstart : (if seen.contains o.name then Region.unknown else entry' o.name).Covers
        (if seen.contains o.name then .unknown else entry o.name) := by
      split
      · exact .refl _
      · exact hentry o.name
    simp only [optimizeOverrides, settle_settle_of_covers hfacts hstart, ih]

/-- An override of which less is known is entered in a region that is known no better. -/
theorem covers_entryRegion {visits visits' : List Visit} (h : CoversVisits visits' visits)
    (nested : List String) (name : String) :
    (entryRegion visits' nested name).Covers (entryRegion visits nested name) := by
  unfold entryRegion
  split
  · exact .refl _
  · exact (h name).common

end Overrides

/-! ### Artifacts -/

namespace Artifact

variable (a : Artifact)

/-- The overrides of an artifact that are rendered, prepared. -/
def live : List Override :=
  liveOverrides [] a.preparedSections

/-- The names of the blocks and the yields in the overrides that are rendered. -/
def nestedNames : List String :=
  a.live.flatMap fun o => Node.partNamesOfList o.body

/-- An override of an artifact once it is optimized. -/
def settledOverride (o : Override) : Override :=
  { o with body := (settle a.overrideFacts (a.entry o.name) o.body).1 }

theorem tidy_live {o : Override} (h : o ∈ a.live) : Node.TidyList true o.body := by
  obtain ⟨original, -, rfl⟩ := List.mem_map.1 (mem_of_mem_liveOverrides h)
  exact tidy_prepare original.body

theorem partNames_subset_nestedNames {o : Override} (h : o ∈ a.live) :
    Node.partNamesOfList o.body ⊆ a.nestedNames :=
  fun _ hname => List.mem_flatMap.2 ⟨o, h, hname⟩

/-- The body of an optimized artifact is prepared. -/
theorem preparedBody_optimize : a.optimize.preparedBody = a.optimize.body :=
  prepare_settle_prepare _ _ _

/-- The overrides of an optimized artifact are prepared. -/
theorem preparedSections_optimize : a.optimize.preparedSections = a.optimize.sections := by
  refine (List.map_congr_left fun o ho => ?_).trans (List.map_id _)
  obtain ⟨o', ho', start, rfl⟩ := mem_optimizeOverrides ho
  obtain ⟨original, -, rfl⟩ := List.mem_map.1 ho'
  simp only [prepare_settle_prepare, id]

/-- **Live overrides.** The live overrides after a run are those before it, settled. -/
theorem live_optimize : a.optimize.live = a.live.map a.settledOverride := by
  rw [live, preparedSections_optimize]
  exact liveOverrides_optimizeOverrides (fun _ => Iff.rfl) a.preparedSections

theorem liveNames_optimize : a.optimize.liveNames = a.liveNames := by
  change a.optimize.live.map Override.name = a.live.map Override.name
  rw [live_optimize, List.map_map]
  rfl

theorem nestedNames_optimize : a.optimize.nestedNames = a.nestedNames := by
  rw [nestedNames, live_optimize, List.flatMap_map]
  exact List.flatMap_congr fun o _ => partNames_settle _ _ _

variable {a} (h : a.overrideFacts.changing ⊆ a.optimize.overrideFacts.changing)

include h

theorem covers_overrideFacts : a.optimize.overrideFacts.Covers a.overrideFacts where
  names? := by rw [overrideFacts_names?, overrideFacts_names?, liveNames_optimize]
  changing := h

/-- The second run leaves the body as it is. -/
theorem settledBody_optimize :
    a.optimize.settledBody = (a.optimize.body,
      (Node.minifyList a.optimize.overrideFacts .markup a.optimize.body).visits) := by
  rw [settledBody, preparedBody_optimize]
  exact settle_settle_of_covers (covers_overrideFacts h) (.refl .markup) a.preparedBody

/-- The second run enters each override where the first one does, or does not know where. -/
theorem covers_entry (name : String) : (a.optimize.entry name).Covers (a.entry name) := by
  have hvisits := (Node.covers_minifyList (covers_overrideFacts h) (.refl .markup)
    a.optimize.body).2
  have hfirst : a.settledBody.2 =
      (Node.minifyList a.overrideFacts .markup a.optimize.body).visits :=
    (stays_settle a.overrideFacts .markup a.preparedBody).2
  change (entryRegion a.optimize.settledBody.2 a.optimize.nestedNames name).Covers
    (entryRegion a.settledBody.2 a.nestedNames name)
  rw [settledBody_optimize h, nestedNames_optimize, hfirst]
  exact covers_entryRegion hvisits a.nestedNames name

/-- **Optimizing an artifact twice** is optimizing it once, if each override that can change the
region in the first run can do so in the second one. -/
theorem optimize_of_subset : a.optimize.optimize = a.optimize := by
  have hsections : optimizeOverrides a.optimize.overrideFacts a.optimize.entry []
      a.optimize.preparedSections = a.optimize.sections := by
    rw [preparedSections_optimize]
    exact optimizeOverrides_of_covers (covers_overrideFacts h) (covers_entry h)
      a.preparedSections []
  have hbody : a.optimize.settledBody.1 = a.optimize.body := by
    rw [settledBody_optimize h]
  change { a.optimize with
    body := a.optimize.settledBody.1
    sections := optimizeOverrides a.optimize.overrideFacts a.optimize.entry []
      a.optimize.preparedSections } = a.optimize
  rw [hbody, hsections]

end Artifact

end Hashmark
