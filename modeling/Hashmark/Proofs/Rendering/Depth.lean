import Mathlib.Data.Finset.Card
import Hashmark.Engine
import Hashmark.Proofs.Rendering.Comparison
import Hashmark.Proofs.Watching

/-!
# How deep sections nest

A yield leads to an override that may stand anywhere, and the override may yield its own name. What
stops this is the list of active names. A rendering with a bound on how many names are active at
once, which logs this list whenever a name is entered (`Node.tour`), gives what the rendering gives
as soon as the bound is the number of section names of the artifact, and no logged list holds a name
twice (`Artifact.render_ends`).

The invariant of a run is that the active names are different section names (`IsNesting`). So a name
that is entered is one more, and the bound has room for it.
-/

namespace Hashmark

/-! ### Names of sections -/

mutual

/-- The names of the blocks in a node, at any depth. -/
def Node.blockNames : Node → List String
  | .block name body => name :: Node.blockNamesOfList body
  | .choose branches otherwise =>
    Node.blockNamesOfBranches branches ++ Node.blockNamesOfOption otherwise
  | .forEach _ _ _ body => Node.blockNamesOfList body
  | .text _ | .emit _ | .yield _ _ | .connect _ | .comment _ => []

/-- The names of the blocks in several nodes. -/
def Node.blockNamesOfList : List Node → List String
  | [] => []
  | node :: nodes => node.blockNames ++ Node.blockNamesOfList nodes

/-- The names of the blocks in the branches of a choice. -/
def Node.blockNamesOfBranches : List (Expr × List Node) → List String
  | [] => []
  | (_, body) :: branches => Node.blockNamesOfList body ++ Node.blockNamesOfBranches branches

/-- The names of the blocks in a body that may be absent. -/
def Node.blockNamesOfOption : Option (List Node) → List String
  | none => []
  | some body => Node.blockNamesOfList body

end

/-- The names of the sections of an artifact: its overrides and the blocks, wherever they stand. -/
def Artifact.sectionNames (a : Artifact) : List String :=
  (a.sections.flatMap fun o => o.name :: Node.blockNamesOfList o.body) ++
    Node.blockNamesOfList a.body

/-! ### Rendering with a bound -/

mutual

/-- The output of a node while the names in `active` are being rendered. It is stopped where more
than `depth` further names would be active; the log has the active names whenever one was entered,
innermost first. -/
def Node.tour (t : Setting) (depth : Nat) (active : List String) (s : Scopes) (node : Node) :
    Watched (List String) CallFault (List String) :=
  match node with
  | .text content => pure [content]
  | .comment _ | .connect _ => pure []
  | .emit value => do
    let v ← Watched.ofExcept (value.eval t.callables s)
    pure [escape v]
  | .choose branches otherwise => Node.tourChoice t depth active s branches otherwise
  | .forEach source key value body => do
    let v ← Watched.ofExcept (source.eval t.callables s)
    let passes ← (s.passes key value v).mapM fun s => Node.tourList t depth active s body
    pure passes.flatten
  | .block name body =>
    if name ∈ active then pure []
    else
      match depth with
      | 0 => .stopped
      | depth + 1 => .record (name :: active)
          (Node.tourList t depth (name :: active) s ((overrideOf t.overrides name).getD body))
  | .yield name default =>
    match overrideOf t.overrides name with
    | none => pure (default.toList.map escapeText)
    | some body =>
      if name ∈ active then pure []
      else
        match depth with
        | 0 => .stopped
        | depth + 1 => .record (name :: active) (Node.tourList t depth (name :: active) s body)
termination_by (depth, sizeOf node)

/-- The output of several nodes. -/
def Node.tourList (t : Setting) (depth : Nat) (active : List String) (s : Scopes)
    (nodes : List Node) : Watched (List String) CallFault (List String) :=
  match nodes with
  | [] => pure []
  | node :: nodes => do
    let first ← node.tour t depth active s
    let rest ← Node.tourList t depth active s nodes
    pure (first ++ rest)
termination_by (depth, sizeOf nodes)

/-- The output of the first branch whose condition holds, or else of the last body. -/
def Node.tourChoice (t : Setting) (depth : Nat) (active : List String) (s : Scopes)
    (branches : List (Expr × List Node)) (otherwise : Option (List Node)) :
    Watched (List String) CallFault (List String) :=
  match branches with
  | [] =>
    match otherwise with
    | some body => Node.tourList t depth active s body
    | none => pure []
  | (condition, body) :: branches => do
    let v ← Watched.ofExcept (condition.eval t.callables s)
    if v.isTruthy then Node.tourList t depth active s body
    else Node.tourChoice t depth active s branches otherwise
termination_by (depth, sizeOf branches + sizeOf otherwise)

end

/-- The rendering of an artifact with at most `depth` names active at once. -/
def Artifact.tour (a : Artifact) (callables : Callables) (s : Scopes) (depth : Nat) :
    Watched (List String) CallFault (List String) :=
  Node.tourList ⟨callables, a.sections⟩ depth [] s a.body

section Equations

variable {t : Setting} {depth : Nat} {active : List String} {s : Scopes} {name : String}

theorem tour_block_active (h : name ∈ active) (body : List Node) :
    Node.tour t depth active s (.block name body) = pure [] := by
  cases depth <;> rw [Node.tour, if_pos h]

theorem tour_block_enter (h : name ∉ active) (body : List Node) :
    Node.tour t (depth + 1) active s (.block name body) = .record (name :: active)
      (Node.tourList t depth (name :: active) s ((overrideOf t.overrides name).getD body)) := by
  rw [Node.tour, if_neg h]

theorem tour_yield_default (ho : overrideOf t.overrides name = none) (default : Option String) :
    Node.tour t depth active s (.yield name default) = pure (default.toList.map escapeText) := by
  rw [Node.tour, ho]

theorem tour_yield_active {override : List Node} (h : name ∈ active)
    (ho : overrideOf t.overrides name = some override) (default : Option String) :
    Node.tour t depth active s (.yield name default) = pure [] := by
  rw [Node.tour, ho]
  exact if_pos h

theorem tour_yield_enter {override : List Node} (h : name ∉ active)
    (ho : overrideOf t.overrides name = some override) (default : Option String) :
    Node.tour t (depth + 1) active s (.yield name default) =
      .record (name :: active) (Node.tourList t depth (name :: active) s override) := by
  rw [Node.tour, ho]
  exact if_neg h

end Equations

/-! ### The active names -/

/-- Whether names may be active at once: they are different, and all of them are section names. -/
structure IsNesting (names active : List String) : Prop where
  nodup : active.Nodup
  subset : active ⊆ names

theorem IsNesting.length_le {names active : List String} (h : IsNesting names active) :
    active.length ≤ names.toFinset.card := by
  rw [← List.toFinset_card_of_nodup h.nodup]
  refine Finset.card_le_card fun name hname => ?_
  exact List.mem_toFinset.2 (h.subset (List.mem_toFinset.1 hname))

/-- A section name that is not active can be entered, and there is room for it. -/
theorem IsNesting.enter {names active : List String} {name : String} {depth : Nat}
    (h : IsNesting names active) (hname : name ∈ names) (hnot : name ∉ active)
    (hroom : names.toFinset.card ≤ depth + active.length) :
    ∃ less, depth = less + 1 ∧ IsNesting names (name :: active) ∧
      names.toFinset.card ≤ less + (name :: active).length := by
  have hnesting : IsNesting names (name :: active) :=
    ⟨List.nodup_cons.2 ⟨hnot, h.nodup⟩, List.cons_subset.2 ⟨hname, h.subset⟩⟩
  have hlength := hnesting.length_le
  rw [List.length_cons] at hlength
  obtain ⟨less, rfl⟩ := Nat.exists_eq_succ_of_ne_zero (n := depth) (by omega)
  refine ⟨less, rfl, hnesting, ?_⟩
  rw [List.length_cons]
  omega

/-- **A run.** Nodes whose blocks have section names are rendered within the bound, and only
different section names are active at once. -/
theorem Node.tourList_settles {t : Setting} {names : List String}
    (hoverrides : ∀ name body, overrideOf t.overrides name = some body →
      name ∈ names ∧ Node.blockNamesOfList body ⊆ names)
    (depth : Nat) (active : List String) (s : Scopes) (nodes : List Node)
    (hnodes : Node.blockNamesOfList nodes ⊆ names) (hactive : IsNesting names active)
    (hroom : names.toFinset.card ≤ depth + active.length) :
    Watched.Settles (IsNesting names) (Node.tourList t depth active s nodes)
      (Node.renderList t active s nodes) := by
  refine (Node.render.mutual_induct t
    (fun active s node => ∀ depth, node.blockNames ⊆ names → IsNesting names active →
      names.toFinset.card ≤ depth + active.length →
      Watched.Settles (IsNesting names) (Node.tour t depth active s node)
        (Node.render t active s node))
    (fun active s nodes => ∀ depth, Node.blockNamesOfList nodes ⊆ names →
      IsNesting names active → names.toFinset.card ≤ depth + active.length →
      Watched.Settles (IsNesting names) (Node.tourList t depth active s nodes)
        (Node.renderList t active s nodes))
    (fun active s branches otherwise => ∀ depth,
      Node.blockNamesOfBranches branches ++ Node.blockNamesOfOption otherwise ⊆ names →
      IsNesting names active → names.toFinset.card ≤ depth + active.length →
      Watched.Settles (IsNesting names) (Node.tourChoice t depth active s branches otherwise)
        (Node.renderChoice t active s branches otherwise))
    ?text ?comment ?connect ?emit ?choose ?forEach ?block_active ?block_override ?block_own
    ?yield_active ?yield_override ?yield_default ?nil ?cons ?otherwise ?no_branch ?branch).2.1
    active s nodes depth hnodes hactive hroom
  case text | comment | connect =>
    intro active s content depth _ _ _
    rw [Node.tour, Node.render]
    exact Watched.settles_pure _
  case emit =>
    intro active s value depth _ _ _
    rw [Node.tour, Node.render]
    exact Watched.settles_ofExcept_bind _ fun v _ => Watched.settles_pure _
  case choose =>
    intro active s branches otherwise ih depth hnames hactive hroom
    rw [Node.tour, Node.render]
    exact ih depth hnames hactive hroom
  case forEach =>
    intro active s source key value body ih depth hnames hactive hroom
    rw [Node.tour, Node.render]
    refine Watched.settles_ofExcept_bind _ fun v _ => ?_
    refine Watched.Settles.bind (Watched.Settles.mapM fun s' _ => ?_) fun passes _ =>
      Watched.settles_pure _
    exact ih s' depth hnames hactive hroom
  case block_active =>
    intro active s name body hmem depth _ _ _
    rw [tour_block_active hmem, render_block_active hmem]
    exact Watched.settles_pure []
  case block_override =>
    intro active s name body hnot override ho ih depth _ hactive hroom
    obtain ⟨hname, hblocks⟩ := hoverrides name override ho
    obtain ⟨less, rfl, hactive', hroom'⟩ := hactive.enter hname hnot hroom
    rw [tour_block_enter hnot, ho, render_block_override hnot ho]
    exact (ih less hblocks hactive' hroom').record hactive'
  case block_own =>
    intro active s name body hnot ho ih depth hnames hactive hroom
    obtain ⟨hname, hblocks⟩ := List.cons_subset.1 hnames
    obtain ⟨less, rfl, hactive', hroom'⟩ := hactive.enter hname hnot hroom
    rw [tour_block_enter hnot, ho, render_block_own hnot ho]
    exact (ih less hblocks hactive' hroom').record hactive'
  case yield_active =>
    intro active s name default override ho hmem depth _ _ _
    rw [tour_yield_active hmem ho, render_yield_active hmem ho]
    exact Watched.settles_pure []
  case yield_override =>
    intro active s name default override ho hnot ih depth _ hactive hroom
    obtain ⟨hname, hblocks⟩ := hoverrides name override ho
    obtain ⟨less, rfl, hactive', hroom'⟩ := hactive.enter hname hnot hroom
    rw [tour_yield_enter hnot ho, render_yield_override hnot ho]
    exact (ih less hblocks hactive' hroom').record hactive'
  case yield_default =>
    intro active s name default ho depth _ _ _
    rw [tour_yield_default ho, render_yield_default ho]
    exact Watched.settles_pure _
  case nil =>
    intro active s depth _ _ _
    rw [Node.tourList, Node.renderList]
    exact Watched.settles_pure []
  case cons =>
    intro active s node nodes ih ihs depth hnames hactive hroom
    obtain ⟨hnode, hnodes⟩ := List.append_subset.1 hnames
    rw [Node.tourList, Node.renderList]
    refine (ih depth hnode hactive hroom).bind fun first _ => ?_
    exact (ihs depth hnodes hactive hroom).bind fun rest _ => Watched.settles_pure _
  case otherwise =>
    intro active s body ih depth hnames hactive hroom
    rw [Node.tourChoice, Node.renderChoice]
    exact ih depth hnames hactive hroom
  case no_branch =>
    intro active s depth _ _ _
    rw [Node.tourChoice, Node.renderChoice]
    exact Watched.settles_pure []
  case branch =>
    intro active s otherwise condition body branches ih ihs depth hnames hactive hroom
    rw [Node.blockNamesOfBranches, List.append_assoc] at hnames
    obtain ⟨hbody, hrest⟩ := List.append_subset.1 hnames
    rw [Node.tourChoice, Node.renderChoice]
    refine Watched.settles_ofExcept_bind _ fun v _ => ?_
    split
    · exact ih depth hbody hactive hroom
    · exact ihs depth hrest hactive hroom

/-- The overrides of an artifact and their blocks have section names. -/
theorem Artifact.mem_sectionNames_of_override {a : Artifact} {name : String} {body : List Node}
    (h : overrideOf a.sections name = some body) :
    name ∈ a.sectionNames ∧ Node.blockNamesOfList body ⊆ a.sectionNames := by
  obtain ⟨o, hmem, rfl, rfl⟩ := mem_of_overrideOf h
  have hsub : o.name :: Node.blockNamesOfList o.body ⊆ a.sectionNames := fun part hpart =>
    List.mem_append_left _ (List.mem_flatMap.2 ⟨o, hmem, hpart⟩)
  exact List.cons_subset.1 hsub

/-- **Rendering ends.** Whatever an artifact holds, a bound of as many active names as it has
section names changes nothing: the rendering has the outcome that it has without a bound. At no
point is a name active twice, so sections nest at most that deep. A block or an override whose name
is active already writes nothing. -/
theorem Artifact.render_ends (a : Artifact) (callables : Callables) (s : Scopes) :
    (∀ depth, a.sectionNames.toFinset.card ≤ depth →
      (a.tour callables s depth).outcome =
          some (Node.renderList ⟨callables, a.sections⟩ [] s a.body) ∧
        ∀ active ∈ (a.tour callables s depth).log, active.Nodup ∧ active ⊆ a.sectionNames ∧
          active.length ≤ a.sectionNames.toFinset.card) ∧
    ∀ (active : List String) (s' : Scopes) (name : String), name ∈ active →
      (∀ body, Node.render ⟨callables, a.sections⟩ active s' (.block name body) = .ok []) ∧
      ∀ override, overrideOf a.sections name = some override →
        ∀ default, Node.render ⟨callables, a.sections⟩ active s' (.yield name default) = .ok [] := by
  refine ⟨fun depth hdepth => ?_, fun active s' name hmem => ⟨?_, ?_⟩⟩
  · have hrun := Node.tourList_settles (t := ⟨callables, a.sections⟩)
      (fun name body ho => a.mem_sectionNames_of_override ho) depth [] s a.body
      (List.subset_append_right _ _) ⟨List.nodup_nil, List.nil_subset _⟩ hdepth
    refine ⟨hrun.outcome_eq, fun active hactive => ?_⟩
    have hnesting := hrun.fine active hactive
    exact ⟨hnesting.nodup, hnesting.subset, hnesting.length_le⟩
  · intro body
    exact render_block_active hmem body
  · intro override ho default
    exact render_yield_active hmem ho default

/-- An override that yields its own name is entered once. -/
example : (Artifact.mk 1 "page" [⟨"x", [.text "[", .yield "x" none, .text "]"]⟩] [.yield "x" none]
    []).tour .empty .empty 1 = ⟨some (.ok ["[", "]"]), [["x"]]⟩ := by
  cbv

end Hashmark
