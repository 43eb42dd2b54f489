import Mathlib.Data.List.Perm.Subperm
import Hashmark.Proofs.Compiling.Locality
import Hashmark.Proofs.Watching

/-!
# How deep templates are included

Partials connect partials, and layouts have layouts. A compiling with a bound on how many templates
are around one another, which logs their paths whenever a template is entered (`tourCompile`), gives
what compiling gives as soon as the bound is the number of paths that templates can be loaded from,
and all logged paths are different (`tourCompile_settles`).

The invariant of a run is that the paths around a node are different paths of templates (`IsStack`).
A template that is entered is at none of them, so fewer paths are left, and the bound has room.
-/

namespace Hashmark

/-! ### Compiling with a bound -/

mutual

/-- A node of `source` with its partials in place, and the partials that were loaded for it. It is
stopped where more than `depth` further partials would be inside of one another; the log has the
paths around whenever a partial was entered, innermost first. -/
def tourNode (language : Language) (catalog : Catalog) (depth : Nat) (inside : List Path)
    (source : Source) (node : Node) :
    Watched (List Path) TemplateError (List Node × List Document) :=
  match node with
  | .connect name => do
    let d ← Watched.ofExcept (catalog.load name)
    if inside.any d.path.same then
      Watched.ofExcept (.error (source.malformed (.circularConnect name) (source.occurrence name)))
    else
      match depth with
      | 0 => .stopped
      | depth + 1 => .record (d.path :: inside) do
        let template ← Watched.ofExcept (parseTemplate language d.source)
        match template.layout with
        | some (_, span) =>
          Watched.ofExcept (.error (d.source.malformed .extendsInPartial span))
        | none =>
          let (nodes, partials) ← tourNodes language catalog depth (d.path :: inside) d.source
            template.nodes
          pure (nodes, d :: partials)
  | .choose branches otherwise => do
    let (branches, partials) ← tourBranches language catalog depth inside source branches
    match otherwise with
    | some body =>
      let (body, more) ← tourNodes language catalog depth inside source body
      pure ([.choose branches (some body)], partials ++ more)
    | none => pure ([.choose branches none], partials)
  | .forEach iterable key value body => do
    let (body, partials) ← tourNodes language catalog depth inside source body
    pure ([.forEach iterable key value body], partials)
  | .block name body => do
    let (body, partials) ← tourNodes language catalog depth inside source body
    pure ([.block name body], partials)
  | node => pure ([node], [])
termination_by (depth, sizeOf node)

/-- Several nodes with their partials in place. -/
def tourNodes (language : Language) (catalog : Catalog) (depth : Nat) (inside : List Path)
    (source : Source) (nodes : List Node) :
    Watched (List Path) TemplateError (List Node × List Document) :=
  match nodes with
  | [] => pure ([], [])
  | node :: nodes => do
    let (first, partials) ← tourNode language catalog depth inside source node
    let (rest, more) ← tourNodes language catalog depth inside source nodes
    pure (first ++ rest, partials ++ more)
termination_by (depth, sizeOf nodes)

/-- The branches of a choice with their partials in place. -/
def tourBranches (language : Language) (catalog : Catalog) (depth : Nat) (inside : List Path)
    (source : Source) (branches : List (Expr × List Node)) :
    Watched (List Path) TemplateError (List (Expr × List Node) × List Document) :=
  match branches with
  | [] => pure ([], [])
  | (condition, body) :: branches => do
    let (body, partials) ← tourNodes language catalog depth inside source body
    let (rest, more) ← tourBranches language catalog depth inside source branches
    pure ((condition, body) :: rest, partials ++ more)
termination_by (depth, sizeOf branches)

end

/-- The chain from a template to its outermost layout, stopped where it would have more than `depth`
further layouts, or where more than `bound` partials would be inside of one another in one of its
templates. -/
def tourChain (language : Language) (catalog : Catalog) (bound depth : Nat) (seen : List Path)
    (d : Document) : Watched (List Path) TemplateError (List Link) := do
  let template ← Watched.ofExcept (parseTemplate language d.source)
  let (nodes, partials) ← tourNodes language catalog bound [d.path] d.source template.nodes
  match template.layout with
  | none => pure [⟨d, nodes, partials⟩]
  | some (layout, span) =>
    let next ← Watched.ofExcept (catalog.load layout)
    if seen.any next.path.same then
      Watched.ofExcept (.error (d.source.malformed (.circularExtends layout) span))
    else
      match depth with
      | 0 => .stopped
      | depth + 1 => .record (next.path :: seen) do
        let links ← tourChain language catalog bound depth (next.path :: seen) next
        pure (⟨d, nodes, partials⟩ :: links)

/-- Compiles the template of a name with at most `depth` templates around one another. -/
def tourCompile (language : Language) (catalog : Catalog) (depth : Nat) (name : String) :
    Watched (List Path) TemplateError Artifact := do
  let d ← Watched.ofExcept (catalog.load name)
  match depth with
  | 0 => .stopped
  | depth + 1 => .record [d.path] do
    let links ← tourChain language catalog depth depth [d.path] d
    pure (assemble name links)

/-! ### The paths around a node -/

/-- Whether templates may be around one another: no two of their paths are the same, and templates
are loaded from all of them. -/
structure IsStack (paths stack : List Path) : Prop where
  differ : stack.Pairwise fun p q => p.same q = false
  subset : stack ⊆ paths

theorem IsStack.length_le {paths stack : List Path} (h : IsStack paths stack) :
    stack.length ≤ paths.length := by
  have hnodup : stack.Nodup := h.differ.imp fun {p q} hpq heq => by
    rw [heq, Path.same_refl] at hpq
    cases hpq
  exact (List.subperm_of_subset hnodup h.subset).length_le

/-- A template may be on its own. -/
theorem IsStack.single {c : Catalog} {name : String} {d : Document} (hload : c.load name = .ok d) :
    IsStack c.paths [d.path] :=
  ⟨List.pairwise_singleton _ _, List.cons_subset.2 ⟨c.path_mem_paths hload, List.nil_subset _⟩⟩

/-- A template that is none of those around it can be entered, and there is room for it. -/
theorem IsStack.enter {c : Catalog} {inside : List Path} {name : String} {d : Document}
    {depth : Nat} (h : IsStack c.paths inside) (hload : c.load name = .ok d)
    (hnot : inside.any d.path.same = false) (hroom : c.unseen inside ≤ depth) :
    ∃ less, depth = less + 1 ∧ IsStack c.paths (d.path :: inside) ∧
      c.unseen (d.path :: inside) ≤ less := by
  have hless := Catalog.unseen_cons_lt hload hnot
  obtain ⟨less, rfl⟩ := Nat.exists_eq_succ_of_ne_zero (n := depth) (by omega)
  refine ⟨less, rfl, ⟨List.pairwise_cons.2 ⟨fun p hp => ?_, h.differ⟩, ?_⟩, by omega⟩
  · simpa using (List.any_eq_false.1 hnot) p hp
  · exact List.cons_subset.2 ⟨c.path_mem_paths hload, h.subset⟩

/-! ### A run -/

section Runs

variable {language : Language} {c : Catalog}

theorem tourNode_leaf {depth : Nat} {inside : List Path} {source : Source} {node : Node}
    (h : node.isLeaf = true) :
    tourNode language c depth inside source node = pure ([node], []) := by
  cases node with
  | text | emit | yield | comment => rw [tourNode] <;> simp
  | connect | choose | forEach | block => cases h

/-- **Partials.** Nodes are expanded within the bound, and only templates with different paths are
around one another. -/
theorem tourNodes_settles (depth : Nat) (inside : List Path) (source : Source) (nodes : List Node)
    (hinside : IsStack c.paths inside) (hroom : c.unseen inside ≤ depth) :
    Watched.Settles (IsStack c.paths) (tourNodes language c depth inside source nodes)
      (expandNodes language c inside source nodes) := by
  refine (expandNode.mutual_induct c
    (fun inside source node => ∀ depth, IsStack c.paths inside → c.unseen inside ≤ depth →
      Watched.Settles (IsStack c.paths) (tourNode language c depth inside source node)
        (expandNode language c inside source node))
    (fun inside source branches => ∀ depth, IsStack c.paths inside → c.unseen inside ≤ depth →
      Watched.Settles (IsStack c.paths) (tourBranches language c depth inside source branches)
        (expandBranches language c inside source branches))
    (fun inside source nodes => ∀ depth, IsStack c.paths inside → c.unseen inside ≤ depth →
      Watched.Settles (IsStack c.paths) (tourNodes language c depth inside source nodes)
        (expandNodes language c inside source nodes))
    ?missing ?circular ?enter ?choose ?forEach ?block ?leaf ?no_branches ?branch ?no_nodes
    ?nodes).2.2 inside source nodes depth hinside hroom
  case missing =>
    intro inside source name e hload depth _ _
    rw [tourNode, expandNode_connect, hload]
    exact Watched.settles_ofExcept (.error e)
  case circular =>
    intro inside source name d hload hin depth _ _
    rw [tourNode, expandNode_connect, hload]
    refine Watched.settles_ofExcept_bind (.ok d) fun _ hd => ?_
    cases hd
    rw [if_pos hin, if_pos hin]
    exact Watched.settles_ofExcept (.error _)
  case enter =>
    intro inside source name d hload hnot ih depth hinside hroom
    obtain ⟨less, rfl, hinside', hroom'⟩ :=
      hinside.enter hload (Bool.eq_false_iff.2 hnot) hroom
    rw [tourNode, expandNode_connect, hload]
    refine Watched.settles_ofExcept_bind (.ok d) fun _ hd => ?_
    cases hd
    rw [if_neg hnot, if_neg hnot]
    refine Watched.Settles.record hinside' (Watched.settles_ofExcept_bind _ fun template _ => ?_)
    cases template.layout with
    | some named => exact Watched.settles_ofExcept (.error _)
    | none =>
      exact (ih template less hinside' hroom').bind fun _ _ => Watched.settles_pure _
  case choose =>
    intro inside source branches otherwise ihb iho depth hinside hroom
    rw [tourNode, expandNode]
    refine (ihb depth hinside hroom).bind fun _ _ => ?_
    cases otherwise with
    | none => exact Watched.settles_pure _
    | some body => exact (iho depth hinside hroom).bind fun _ _ => Watched.settles_pure _
  case forEach =>
    intro inside source iterable key value body ih depth hinside hroom
    rw [tourNode, expandNode]
    exact (ih depth hinside hroom).bind fun _ _ => Watched.settles_pure _
  case block =>
    intro inside source name body ih depth hinside hroom
    rw [tourNode, expandNode]
    exact (ih depth hinside hroom).bind fun _ _ => Watched.settles_pure _
  case leaf =>
    intro inside source node hconnect hchoose hloop hblock depth _ _
    have hleaf := Node.isLeaf_of_ne hconnect hchoose hloop hblock
    rw [tourNode_leaf hleaf, expandNode_leaf hleaf]
    exact Watched.settles_pure _
  case no_branches =>
    intro inside source depth _ _
    rw [tourBranches, expandBranches]
    exact Watched.settles_pure _
  case branch =>
    intro inside source condition body branches ihbody ihrest depth hinside hroom
    rw [tourBranches, expandBranches]
    refine (ihbody depth hinside hroom).bind fun _ _ => ?_
    exact (ihrest depth hinside hroom).bind fun _ _ => Watched.settles_pure _
  case no_nodes =>
    intro inside source depth _ _
    rw [tourNodes, expandNodes]
    exact Watched.settles_pure _
  case nodes =>
    intro inside source node nodes ihnode ihrest depth hinside hroom
    rw [tourNodes, expandNodes]
    refine (ihnode depth hinside hroom).bind fun _ _ => ?_
    exact (ihrest depth hinside hroom).bind fun _ _ => Watched.settles_pure _

/-- **Layouts.** A chain is followed within the bound, with different paths only. -/
theorem tourChain_settles {bound depth : Nat} {seen : List Path} {d : Document}
    (hbound : ∀ name d, c.load name = .ok d → c.unseen [d.path] ≤ bound)
    (hd : ∃ name, c.load name = .ok d) (hseen : IsStack c.paths seen)
    (hroom : c.unseen seen ≤ depth) :
    Watched.Settles (IsStack c.paths) (tourChain language c bound depth seen d)
      (layoutChain language c seen d) := by
  induction seen, d using layoutChain.induct c generalizing depth with
  | case1 seen d ih =>
    obtain ⟨name, hload⟩ := hd
    rw [tourChain.eq_def, layoutChain_step]
    refine Watched.settles_ofExcept_bind _ fun template _ => ?_
    refine (tourNodes_settles bound _ _ _ (.single hload) (hbound name d hload)).bind fun _ _ => ?_
    cases template.layout with
    | none => exact Watched.settles_pure _
    | some named =>
      refine Watched.settles_ofExcept_bind _ fun next hnext => ?_
      by_cases hin : seen.any next.path.same = true
      · rw [if_pos hin, if_pos hin]
        exact Watched.settles_ofExcept (.error _)
      · obtain ⟨less, rfl, hseen', hroom'⟩ := hseen.enter hnext (Bool.eq_false_iff.2 hin) hroom
        rw [if_neg hin, if_neg hin]
        refine Watched.Settles.record hseen' ?_
        exact (ih _ _ hnext hin ⟨_, hnext⟩ hseen' hroom').bind fun _ _ => Watched.settles_pure _

/-- **Compiling ends.** With a bound of as many templates as there are paths to load from, compiling
has the outcome that it has without one, and templates with different paths only are around one
another. -/
theorem tourCompile_settles {depth : Nat} (hdepth : c.paths.length ≤ depth) (name : String) :
    Watched.Settles (IsStack c.paths) (tourCompile language c depth name)
      (compile language c name) := by
  -- one path fewer than there are is left once a template was entered
  have hless : ∀ name d, c.load name = .ok d → c.unseen [d.path] < depth := by
    intro name d hload
    have hunseen : c.unseen [] ≤ c.paths.length := List.countP_le_length
    have hentered : c.unseen [d.path] < c.unseen [] := Catalog.unseen_cons_lt hload rfl
    omega
  refine Watched.settles_ofExcept_bind _ fun d hload => ?_
  obtain ⟨less, rfl⟩ : ∃ less, depth = less + 1 :=
    Nat.exists_eq_succ_of_ne_zero (by have := hless name d hload; omega)
  have hbound : ∀ name d, c.load name = .ok d → c.unseen [d.path] ≤ less :=
    fun name d hd => Nat.le_of_lt_succ (hless name d hd)
  have hchain : Watched.Settles (IsStack c.paths) (tourChain language c less less [d.path] d)
      (layoutChain language c [d.path] d) :=
    tourChain_settles hbound ⟨name, hload⟩ (.single hload) (hbound name d hload)
  exact .record (.single hload) (hchain.bind fun _ _ => Watched.settles_pure _)

end Runs

end Hashmark
