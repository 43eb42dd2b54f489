import Hashmark.Proofs.Compiling.Reach
import Hashmark.Proofs.Parsing.Faults

/-!
# What the errors of compiling have in common

Compiling goes from a template to its partials and on to its layout. Whatever holds of the first
template and of each one that it refers to, together with the paths around it, holds of each
template that is read (`Reports`). So if all errors about such a template are of some kind, then all
errors of compiling are (`raises_compile`).
-/

namespace Hashmark

/-- What makes all errors of compiling errors of some kind. `Inside` holds of the documents that are
read, each with the paths that are around it. -/
structure Reports (language : Language) (c : Catalog) (Inside : List Path → Document → Prop)
    (Kind : TemplateError → Prop) : Prop where
  missing : ∀ {name e}, c.load name = .error e → Kind e
  unparsed : ∀ {paths d}, Inside paths d → Raises Kind (parseTemplate language d.source)
  /-- The partials of a template of the chain are not inside of the templates before it. -/
  alone : ∀ {paths d}, Inside paths d → Inside [d.path] d
  step : ∀ {paths d d'}, Inside paths d → c.RefersTo language d d' → Inside (d'.path :: paths) d'
  circularConnect : ∀ {paths d d' name}, Inside paths d → c.RefersTo language d d' →
    paths.any d'.path.same = true →
      Kind (d.source.malformed (.circularConnect name) (d.source.occurrence name))
  circularExtends : ∀ {paths d d' template layout span}, Inside paths d →
    c.RefersTo language d d' → paths.any d'.path.same = true →
      parseTemplate language d.source = .ok template → template.layout = some (layout, span) →
        Kind (d.source.malformed (.circularExtends layout) span)
  extendsInPartial : ∀ {paths d template layout span}, Inside paths d →
    parseTemplate language d.source = .ok template → template.layout = some (layout, span) →
      Kind (d.source.malformed .extendsInPartial span)

namespace Reports

variable {language : Language} {c : Catalog} {Inside : List Path → Document → Prop}
  {Kind : TemplateError → Prop}

/-- **Partials.** All errors in nodes of a document are of the kind. -/
theorem raises_expandNodes (h : Reports language c Inside Kind) {inside : List Path} {d : Document}
    {nodes : List Node} (hd : Inside inside d)
    (hrefers : ∀ name ∈ Node.connectsOfList nodes, ∀ d', c.load name = .ok d' →
      c.RefersTo language d d') :
    Raises Kind (expandNodes language c inside d.source nodes) := by
  refine (expandNode.mutual_induct c
    (fun inside source node => ∀ d, source = d.source → Inside inside d →
      (∀ name ∈ node.connects, ∀ d', c.load name = .ok d' → c.RefersTo language d d') →
      Raises Kind (expandNode language c inside source node))
    (fun inside source branches => ∀ d, source = d.source → Inside inside d →
      (∀ name ∈ Node.connectsOfBranches branches, ∀ d', c.load name = .ok d' →
        c.RefersTo language d d') →
      Raises Kind (expandBranches language c inside source branches))
    (fun inside source nodes => ∀ d, source = d.source → Inside inside d →
      (∀ name ∈ Node.connectsOfList nodes, ∀ d', c.load name = .ok d' →
        c.RefersTo language d d') →
      Raises Kind (expandNodes language c inside source nodes))
    ?missing ?circular ?enter ?choose ?forEach ?block ?leaf ?no_branches ?branch ?no_nodes
    ?nodes).2.2 inside d.source nodes d rfl hd hrefers
  case missing =>
    intro inside source name e hmissing d _ _ _
    rw [expandNode_connect, hmissing]
    exact raises_error (h.missing hmissing)
  case circular =>
    rintro inside source name p hp hin d rfl hd hrefers
    have hcircular : Kind (d.source.malformed (.circularConnect name) (d.source.occurrence name)) :=
      h.circularConnect hd (hrefers name (List.mem_singleton_self _) p hp) hin
    rw [expandNode_connect, hp]
    refine (raises_ok p).bind fun _ hp' => ?_
    cases hp'
    rw [if_pos hin]
    exact raises_error hcircular
  case enter =>
    intro inside source name p hp hnot ih d _ hd hrefers
    have hpartial := h.step hd (hrefers name (List.mem_singleton_self _) p hp)
    rw [expandNode_connect, hp]
    refine (raises_ok p).bind fun _ hp' => ?_
    cases hp'
    rw [if_neg hnot]
    refine (h.unparsed hpartial).bind fun template hparse => ?_
    cases hlayout : template.layout with
    | some named => exact raises_error (h.extendsInPartial hpartial hparse hlayout)
    | none =>
      have hpartials : ∀ name ∈ Node.connectsOfList template.nodes, ∀ d',
          c.load name = .ok d' → c.RefersTo language p d' := by
        intro name hname d' hd'
        refine ⟨template, hparse, name, ?_, hd'⟩
        rwa [Template.references_of_none hlayout]
      exact (ih template p rfl hpartial hpartials).bind fun _ _ => raises_ok _
  case choose =>
    intro inside source branches otherwise ihb iho d hsource hd hrefers
    obtain ⟨hbranches, hotherwise⟩ := List.forall_mem_append.1 hrefers
    rw [expandNode]
    refine (ihb d hsource hd hbranches).bind fun _ _ => ?_
    cases otherwise with
    | none => exact raises_ok _
    | some body => exact (iho d hsource hd hotherwise).bind fun _ _ => raises_ok _
  case forEach =>
    intro inside source iterable key value body ih d hsource hd hrefers
    rw [expandNode]
    exact (ih d hsource hd hrefers).bind fun _ _ => raises_ok _
  case block =>
    intro inside source name body ih d hsource hd hrefers
    rw [expandNode]
    exact (ih d hsource hd hrefers).bind fun _ _ => raises_ok _
  case leaf =>
    intro inside source node hconnect hchoose hloop hblock d _ _ _
    rw [expandNode_leaf (Node.isLeaf_of_ne hconnect hchoose hloop hblock)]
    exact raises_ok _
  case no_branches =>
    intro inside source d _ _ _
    rw [expandBranches]
    exact raises_ok _
  case branch =>
    intro inside source condition body branches ihbody ihrest d hsource hd hrefers
    obtain ⟨hbody, hbranches⟩ := List.forall_mem_append.1 hrefers
    rw [expandBranches]
    refine (ihbody d hsource hd hbody).bind fun _ _ => ?_
    exact (ihrest d hsource hd hbranches).bind fun _ _ => raises_ok _
  case no_nodes =>
    intro inside source d _ _ _
    rw [expandNodes]
    exact raises_ok _
  case nodes =>
    intro inside source node nodes ihnode ihrest d hsource hd hrefers
    obtain ⟨hnode, hnodes⟩ := List.forall_mem_append.1 hrefers
    rw [expandNodes]
    refine (ihnode d hsource hd hnode).bind fun _ _ => ?_
    exact (ihrest d hsource hd hnodes).bind fun _ _ => raises_ok _

/-- **Layouts.** All errors in a chain of layouts are of the kind. -/
theorem raises_layoutChain (h : Reports language c Inside Kind) {seen : List Path} {d : Document}
    (hd : Inside seen d) : Raises Kind (layoutChain language c seen d) := by
  induction seen, d using layoutChain.induct c with
  | case1 seen d ih =>
    rw [layoutChain_step]
    refine (h.unparsed hd).bind fun template hparse => ?_
    have hpartials : ∀ name ∈ Node.connectsOfList template.nodes, ∀ d', c.load name = .ok d' →
        c.RefersTo language d d' := fun name hname d' hd' =>
      ⟨template, hparse, name, List.mem_append_right _ hname, hd'⟩
    refine (h.raises_expandNodes (h.alone hd) hpartials).bind fun _ _ => ?_
    cases hlayout : template.layout with
    | none => exact raises_ok _
    | some named =>
      refine Raises.bind (fun e => h.missing) fun next hnext => ?_
      have hto : c.RefersTo language d next :=
        ⟨template, hparse, named.1, by simp [Template.references, hlayout], hnext⟩
      by_cases hin : seen.any next.path.same = true
      · rw [if_pos hin]
        exact raises_error (h.circularExtends hd hto hin hparse hlayout)
      · rw [if_neg hin]
        exact (ih _ _ hnext hin (h.step hd hto)).bind fun _ _ => raises_ok _

/-- **Compiling.** All errors of compiling are of the kind. -/
theorem raises_compile (h : Reports language c Inside Kind) {name : String}
    (hinside : ∀ d, c.load name = .ok d → Inside [d.path] d) :
    Raises Kind (compile language c name) := by
  refine Raises.bind (fun e => h.missing) fun d hd => ?_
  exact (h.raises_layoutChain (hinside d hd)).bind fun _ _ => raises_ok _

end Reports

end Hashmark
