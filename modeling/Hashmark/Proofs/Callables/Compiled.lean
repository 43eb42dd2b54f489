import Mathlib
import Hashmark.Proofs.Callables.Checking
import Hashmark.Proofs.Compiling.Pages
import Hashmark.Proofs.Compiling.Reach
import Hashmark.Proofs.Optimizing.Expressions

/-!
# Callees of what compiles

If a template compiles, then every callee in every template that it leads to may be called, and so
may every callee of the artifact, before and after it is optimized: no rendering of it is stopped by
the guard (`compile_allows`).
-/

namespace Hashmark

section Compiling

variable {language : Language} {c : Catalog} {inside : List Path} {source : Source}

/-- Whether all callees in some nodes may be called. -/
abbrev Callables.AllowsAll (c : Callables) (nodes : List Node) : Prop :=
  ∀ e ∈ Node.exprsOfList nodes, e.violation? c = none

theorem Callables.AllowsAll.callees {c : Callables} {nodes : List Node} (h : c.AllowsAll nodes) :
    ∀ callee ∈ Node.calleesOfList nodes, c.Allows callee := by
  intro callee hcallee
  obtain ⟨e, he, hcallee⟩ := List.mem_flatMap.1 hcallee
  exact Expr.violation?_eq_none.1 (h e he) callee hcallee

/-- **Partials.** Nodes with their partials in place hold no violation if the nodes hold none. -/
theorem expandNodes_allows {nodes out : List Node} {docs : List Document}
    (h : expandNodes language c inside source nodes = .ok (out, docs))
    (hnodes : language.callables.AllowsAll nodes) : language.callables.AllowsAll out := by
  refine (expand_induction language c
    (P := fun _ _ node out _ => (∀ e ∈ node.exprs, e.violation? language.callables = none) →
      language.callables.AllowsAll out)
    (Q := fun _ _ branches branches' _ =>
      (∀ e ∈ Node.exprsOfBranches branches, e.violation? language.callables = none) →
      ∀ e ∈ Node.exprsOfBranches branches', e.violation? language.callables = none)
    (R := fun _ _ nodes out _ => language.callables.AllowsAll nodes →
      language.callables.AllowsAll out)
    ?connect ?choose_none ?choose_some ?forEach ?block ?leaf ?no_branches ?branch ?no_nodes
    ?nodes).2.2 _ _ _ _ _ h hnodes
  case connect =>
    intro inside source name d template out partials _ _ hparse _ ih _
    exact ih (parseTemplate_exprs hparse)
  case choose_none =>
    intro inside source branches branches' partials ih hnode
    simp only [Node.exprs, Node.exprsOfOption, List.append_nil] at hnode
    simpa [Callables.AllowsAll, Node.exprsOfList, Node.exprs, Node.exprsOfOption] using ih hnode
  case choose_some =>
    intro inside source branches branches' partials body body' more ihb ih hnode
    obtain ⟨hbranches, hbody⟩ := List.forall_mem_append.1 hnode
    simp only [Callables.AllowsAll, Node.exprsOfList, Node.exprs, List.append_nil]
    exact List.forall_mem_append.2 ⟨ihb hbranches, ih hbody⟩
  case forEach =>
    intro inside source iterable key value body body' partials ih hnode
    obtain ⟨hiterable, hbody⟩ := List.forall_mem_cons.1 hnode
    simp only [Callables.AllowsAll, Node.exprsOfList, Node.exprs, List.append_nil]
    exact List.forall_mem_cons.2 ⟨hiterable, ih hbody⟩
  case block =>
    intro inside source name body body' partials ih hnode
    simpa [Callables.AllowsAll, Node.exprsOfList, Node.exprs] using ih hnode
  case leaf =>
    intro inside source node _ hnode
    simpa [Callables.AllowsAll, Node.exprsOfList] using hnode
  case no_branches | no_nodes => exact id
  case branch =>
    intro inside source condition body body' partials branches branches' more ih ihb hnode
    obtain ⟨hcondition, hrest⟩ := List.forall_mem_cons.1 hnode
    obtain ⟨hbody, hbranches⟩ := List.forall_mem_append.1 hrest
    exact List.forall_mem_cons.2 ⟨hcondition, List.forall_mem_append.2 ⟨ih hbody, ihb hbranches⟩⟩
  case nodes =>
    intro inside source node out partials nodes out' more ih ihs hnode
    obtain ⟨hnode, hnodes⟩ := List.forall_mem_append.1 hnode
    rw [Callables.AllowsAll, exprsOfList_append]
    exact List.forall_mem_append.2 ⟨ih hnode, ihs hnodes⟩

/-- **Layouts.** The templates of a chain hold no violation. -/
theorem layoutChain_allows {seen : List Path} {d : Document} {links : List Link}
    (h : layoutChain language c seen d = .ok links) :
    ∀ link ∈ links, language.callables.AllowsAll link.nodes := by
  induction h using layoutChain_induction language c with
  | last hparse hexpand _ =>
    exact List.forall_mem_singleton.2 (expandNodes_allows hexpand (parseTemplate_exprs hparse))
  | extend hparse hexpand _ _ _ _ ih =>
    exact List.forall_mem_cons.2 ⟨expandNodes_allows hexpand (parseTemplate_exprs hparse), ih⟩

/-- The artifact of a chain calls nothing that its templates do not call. -/
theorem callees_assemble {name : String} {links : List Link} :
    ∀ callee ∈ (assemble name links).callees,
      ∃ link ∈ links, callee ∈ Node.calleesOfList link.nodes := by
  intro callee hcallee
  rcases List.mem_append.1 hcallee with hbody | hsections
  · cases hlast : links.getLast? with
    | none =>
      rw [assemble, hlast] at hbody
      cases hbody
    | some link =>
      rw [assemble, hlast] at hbody
      exact ⟨link, List.mem_of_getLast? hlast, hbody⟩
  · obtain ⟨o, ho, hcallee⟩ := List.mem_flatMap.1 hsections
    -- an override is a block at the top of a template that has a layout
    obtain ⟨link, hlink, ho⟩ := List.mem_flatMap.1 ho
    obtain ⟨node, hnode, hoverride⟩ := List.mem_filterMap.1 ho
    refine ⟨link, (List.dropLast_sublist links).subset hlink, ?_⟩
    obtain ⟨e, he, hcallee⟩ := List.mem_flatMap.1 hcallee
    refine List.mem_flatMap.2 ⟨e, ?_, hcallee⟩
    rw [exprsOfList_eq_flatMap]
    unfold Node.override? at hoverride
    split at hoverride <;> cases hoverride
    exact List.mem_flatMap.2 ⟨_, hnode, he⟩

/-- What compiles calls only what may be called. -/
theorem compile_callees {name : String} {a : Artifact} (h : compile language c name = .ok a) :
    ∀ callee ∈ a.callees, language.callables.Allows callee := by
  obtain ⟨d, links, -, hlinks, rfl⟩ := compile_eq_ok.1 h
  intro callee hcallee
  obtain ⟨link, hlink, hcallee⟩ := callees_assemble callee hcallee
  exact Callables.AllowsAll.callees (layoutChain_allows hlinks link hlink) callee hcallee

end Compiling

/-- **Callables are checked when a template is compiled.** If a template compiles, then all callees
in the templates that it leads to may be called, wherever they stand. The same holds of the
artifact, before and after it is optimized, so that every fault of its rendering is one that a
callable of the tables fails with. -/
theorem compile_allows {language : Language} {catalog : Catalog} {name : String} {a : Artifact}
    (h : compile language catalog name = .ok a) :
    (∃ d, catalog.load name = .ok d ∧ ∀ d', catalog.Reaches language d d' →
      ∃ template, parseTemplate language d'.source = .ok template ∧
        ∀ callee ∈ Node.calleesOfList template.nodes, language.callables.Allows callee) ∧
    ∀ b, b = a ∨ b = a.optimize →
      (∀ callee ∈ b.callees, language.callables.Allows callee) ∧
      ∀ s e, b.render language.callables s = .error e →
        ∃ fault, language.callables.Raises fault ∧
          e = .failedCall b.name fault.callable fault.message := by
  obtain ⟨d, links, hload, hlinks, -⟩ := compile_eq_ok.1 h
  refine ⟨⟨d, hload, fun d' hreaches => ?_⟩, fun b hb => ?_⟩
  · obtain ⟨template, hparse⟩ := parses_of_reaches hlinks hreaches
    exact ⟨template, hparse, Callables.AllowsAll.callees (parseTemplate_exprs hparse)⟩
  · have hcallees : ∀ callee ∈ b.callees, language.callables.Allows callee := by
      rcases hb with rfl | rfl
      · exact compile_callees h
      · exact fun callee hcallee => compile_callees h callee (a.callees_optimize hcallee)
    exact ⟨hcallees, fun s e he => Artifact.render_fault hcallees he⟩

/-- A page that pipes a value through a filter, in a branch that is never taken. -/
theorem compile_allows_dead_branch :
    let l := Library.empty.set "page" "#if(false)#[$x | length]#endif"
    ∃ a, compile ⟨[], .builtin⟩ l.catalog "page" = .ok a ∧ a.callees = [.filter "length"] ∧
      a.optimize.callees = [] ∧ Callables.builtin.Allows (.filter "length") := by
  intro l
  have hparse : parseTemplate ⟨[], .builtin⟩ ⟨"page", "#if(false)#[$x | length]#endif"⟩ =
      .ok ⟨none, [.choose [(.lit (.bool false), [.emit (.filter (.var "x") "length" [])])] none]⟩ := by
    cbv
  have hcompile := @compile_page _ l "page" _ 1 _ hparse rfl rfl
  have hcallees := ((compile_allows hcompile).2 _ (.inl rfl)).1
  exact ⟨_, hcompile, rfl, by cbv, hcallees _ (List.mem_singleton.2 rfl)⟩

end Hashmark
