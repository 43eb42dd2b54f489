import Mathlib
import Hashmark.Proofs.Caching.Transparency
import Hashmark.Proofs.Compiling.Depth
import Hashmark.Proofs.Compiling.Reports

/-!
# Circles of templates

A template must not be its own layout, nor a partial inside of itself, also by way of others.
Compiling ends anyway (`tourCompile_settles`), and each circle is an error: whoever is around a
template that was compiled is at another path (`not_same_of_walk`), which holds of the chain of
layouts and of the partials in each template of it. What is reported as a circle is one, as far as
paths go: the template that is reported leads from one at the same path back to that path
(`returns_of_isCircular`).

A path is compared step by step, while a template is looked up by its name as it is written. So a
circle is reported between `p` and `p/`, though these are two templates; apart from such names, a
circle is reported only where there is one (`compile_circles_iff`).
-/

namespace Hashmark

/-! ### References of both kinds -/

/-- Whether a document is a template with another document as its layout. -/
def Catalog.Extends (c : Catalog) (language : Language) (d d' : Document) : Prop :=
  ∃ template layout span, parseTemplate language d.source = .ok template ∧
    template.layout = some (layout, span) ∧ c.load layout = .ok d'

/-- Whether a document is a template that connects another document, wherever in it. -/
def Catalog.Connects (c : Catalog) (language : Language) (d d' : Document) : Prop :=
  ∃ template, parseTemplate language d.source = .ok template ∧
    ∃ name ∈ Node.connectsOfList template.nodes, c.load name = .ok d'

/-- Whether a chain of layouts comes to a path again. -/
def Catalog.LayoutCircle (c : Catalog) (language : Language) (d₀ : Document) : Prop :=
  ∃ d d', Relation.ReflTransGen (c.Extends language) d₀ d ∧
    Relation.TransGen (c.Extends language) d d' ∧ d'.path.same d.path = true

/-- Whether some template of a chain of layouts is connected inside of itself, or a partial in it
is. -/
def Catalog.PartialCircle (c : Catalog) (language : Language) (d₀ : Document) : Prop :=
  ∃ d p p', Relation.ReflTransGen (c.Extends language) d₀ d ∧
    Relation.ReflTransGen (c.Connects language) d p ∧
    Relation.TransGen (c.Connects language) p p' ∧ p'.path.same p.path = true

/-- Whether a document leads to one that leads back to the same path. -/
def Catalog.Returns (c : Catalog) (language : Language) (d₀ : Document) : Prop :=
  ∃ d d', c.Reaches language d₀ d ∧ Relation.TransGen (c.RefersTo language) d d' ∧
    d'.path.same d.path = true

/-- Whether nothing that a name leads to leads back to itself. -/
def Catalog.Acyclic (c : Catalog) (language : Language) (name : String) : Prop :=
  ∀ d, c.LeadsTo language [name] d → ¬Relation.TransGen (c.RefersTo language) d d

/-! ### Circles are errors -/

section Walks

variable {Step : Document → Document → Prop} {Fine : List Path → Document → Prop}
  {stack : List Path} {d d' : Document}

/-- If each step goes to a new path, each document of a walk is entered below the ones before. -/
theorem exists_stack_of_walk
    (hstep : ∀ {stack d d'}, Fine stack d → Step d d' →
      stack.any d'.path.same = false ∧ Fine (d'.path :: stack) d')
    (h : Fine stack d) (hd : d.path ∈ stack) (hwalk : Relation.ReflTransGen Step d d') :
    ∃ more, Fine (more ++ stack) d' ∧ d'.path ∈ more ++ stack := by
  induction hwalk with
  | refl => exact ⟨[], h, hd⟩
  | tail _ hlast ih =>
    obtain ⟨more, hfine, -⟩ := ih
    exact ⟨_ :: more, (hstep hfine hlast).2, List.mem_cons_self⟩

/-- **No return.** If each step goes to a new path, no walk comes to the path of its start again. -/
theorem not_same_of_walk
    (hstep : ∀ {stack d d'}, Fine stack d → Step d d' →
      stack.any d'.path.same = false ∧ Fine (d'.path :: stack) d')
    (h : Fine stack d) (hd : d.path ∈ stack) (hwalk : Relation.TransGen Step d d') :
    d'.path.same d.path = false := by
  obtain ⟨last, hwalk, hlast⟩ := Relation.TransGen.tail'_iff.1 hwalk
  obtain ⟨more, hfine, -⟩ := exists_stack_of_walk hstep h hd hwalk
  have hnew := List.any_eq_false.1 (hstep hfine hlast).1
  exact Bool.eq_false_iff.2 (hnew d.path (List.mem_append_right _ hd))

end Walks

section Success

variable {language : Language} {c : Catalog} {inside seen : List Path} {source : Source}
  {name : String} {d d' : Document}

/-- Whether a document is a template whose partials can be put in place, inside of templates with
the paths `inside`. -/
def Expands (language : Language) (c : Catalog) (inside : List Path) (d : Document) : Prop :=
  ∃ template out docs, parseTemplate language d.source = .ok template ∧
    expandNodes language c inside d.source template.nodes = .ok (out, docs)

/-- Whether each of some names is that of a partial that can be put in place. -/
def EntersAll (language : Language) (c : Catalog) (inside : List Path) (names : List String) :
    Prop :=
  ∀ name ∈ names, ∃ p, c.load name = .ok p ∧ inside.any p.path.same = false ∧
    Expands language c (p.path :: inside) p

theorem EntersAll.append {names more : List String} (h : EntersAll language c inside names)
    (h' : EntersAll language c inside more) : EntersAll language c inside (names ++ more) :=
  List.forall_mem_append.2 ⟨h, h'⟩

mutual

theorem expandNode_entersAll : ∀ {node : Node} {out : List Node} {docs : List Document},
    expandNode language c inside source node = .ok (out, docs) →
      EntersAll language c inside node.connects
  | .connect name, out, docs, h => by
    obtain ⟨p, template, partials, hload, hnot, hparse, -, hexpand, -⟩ :=
      expandNode_connect_eq_ok.1 h
    intro name' hname'
    rw [List.mem_singleton.1 hname']
    exact ⟨p, hload, hnot, template, out, partials, hparse, hexpand⟩
  | .choose branches otherwise, out, docs, h => by
    obtain ⟨branches', partials, hbranches, h⟩ := expandNode_choose_eq_ok.1 h
    refine (expandBranches_entersAll hbranches).append ?_
    cases otherwise with
    | none => exact fun _ hname => absurd hname List.not_mem_nil
    | some body =>
      obtain ⟨body', more, hbody, -, -⟩ := h
      exact expandNodes_entersAll hbody
  | .forEach iterable key value body, out, docs, h => by
    rw [expandNode] at h
    obtain ⟨body', hbody, -⟩ := expandBody_eq_ok.1 h
    exact expandNodes_entersAll hbody
  | .block part body, out, docs, h => by
    rw [expandNode] at h
    obtain ⟨body', hbody, -⟩ := expandBody_eq_ok.1 h
    exact expandNodes_entersAll hbody
  | .text _, _, _, _ | .emit _, _, _, _ | .yield _ _, _, _, _ | .comment _, _, _, _ =>
    fun _ hname => absurd hname List.not_mem_nil

/-- The partials of nodes that were expanded are new ones, and were expanded too. -/
theorem expandNodes_entersAll : ∀ {nodes out : List Node} {docs : List Document},
    expandNodes language c inside source nodes = .ok (out, docs) →
      EntersAll language c inside (Node.connectsOfList nodes)
  | [], _, _, _ => fun _ hname => absurd hname List.not_mem_nil
  | _ :: _, _, _, h => by
    obtain ⟨first, partials, rest, more, hfirst, hrest, -, -⟩ := expandNodes_cons_eq_ok.1 h
    exact (expandNode_entersAll hfirst).append (expandNodes_entersAll hrest)

theorem expandBranches_entersAll : ∀ {branches out : List (Expr × List Node)}
    {docs : List Document}, expandBranches language c inside source branches = .ok (out, docs) →
      EntersAll language c inside (Node.connectsOfBranches branches)
  | [], _, _, _ => fun _ hname => absurd hname List.not_mem_nil
  | (_, _) :: _, _, _, h => by
    obtain ⟨body', partials, rest, more, hbody, hrest, -, -⟩ := expandBranches_cons_eq_ok.1 h
    exact (expandNodes_entersAll hbody).append (expandBranches_entersAll hrest)

end

/-- A partial of a template that was expanded is a new one, and was expanded too. -/
theorem Expands.step (h : Expands language c inside d) (hconnects : c.Connects language d d') :
    inside.any d'.path.same = false ∧ Expands language c (d'.path :: inside) d' := by
  obtain ⟨template, out, docs, hparse, hexpand⟩ := h
  obtain ⟨template', hparse', name, hname, hload⟩ := hconnects
  cases hparse.symm.trans hparse'
  obtain ⟨p, hload', hnew, hp⟩ := expandNodes_entersAll hexpand name hname
  cases hload.symm.trans hload'
  exact ⟨hnew, hp⟩

/-- Whether the chain of layouts from a document can be followed, after templates with the paths
`seen`. -/
def ChainEnds (language : Language) (c : Catalog) (seen : List Path) (d : Document) : Prop :=
  ∃ links, layoutChain language c seen d = .ok links

/-- The layout of a template in a chain is a new one, and the chain goes on with it. -/
theorem ChainEnds.step (h : ChainEnds language c seen d) (hextends : c.Extends language d d') :
    seen.any d'.path.same = false ∧ ChainEnds language c (d'.path :: seen) d' := by
  obtain ⟨links, hlinks⟩ := h
  obtain ⟨template, layout, span, hparse, hlayout, hload⟩ := hextends
  obtain ⟨template', nodes, partials, hparse', -, h⟩ := layoutChain_eq_ok.1 hlinks
  cases hparse.symm.trans hparse'
  rw [hlayout] at h
  obtain ⟨next, rest, hload', hnew, hrest, -⟩ := h
  cases hload.symm.trans hload'
  exact ⟨hnew, rest, hrest⟩

theorem ChainEnds.expands (h : ChainEnds language c seen d) : Expands language c [d.path] d := by
  obtain ⟨links, hlinks⟩ := h
  obtain ⟨template, nodes, partials, hparse, hexpand, -⟩ := layoutChain_eq_ok.1 hlinks
  exact ⟨template, nodes, partials, hparse, hexpand⟩

/-- **Circles.** A template that compiles is in no circle of layouts or of partials. -/
theorem no_circle_of_compile {a : Artifact} (h : compile language c name = .ok a)
    (hload : c.load name = .ok d) : ¬c.LayoutCircle language d ∧ ¬c.PartialCircle language d := by
  obtain ⟨d₀, links, hload₀, hlinks, -⟩ := compile_eq_ok.1 h
  cases hload.symm.trans hload₀
  have hends : ChainEnds language c [d.path] d := ⟨links, hlinks⟩
  constructor
  · rintro ⟨d₁, d₂, hchain, hmore, hsame⟩
    obtain ⟨more, hends', hd₁⟩ :=
      exists_stack_of_walk ChainEnds.step hends (List.mem_singleton_self _) hchain
    rw [not_same_of_walk ChainEnds.step hends' hd₁ hmore] at hsame
    cases hsame
  · rintro ⟨d₁, p, p', hchain, hpartials, hmore, hsame⟩
    obtain ⟨more, hends', -⟩ :=
      exists_stack_of_walk ChainEnds.step hends (List.mem_singleton_self _) hchain
    obtain ⟨inside, hexpands, hp⟩ :=
      exists_stack_of_walk Expands.step hends'.expands (List.mem_singleton_self _) hpartials
    rw [not_same_of_walk Expands.step hexpands hp hmore] at hsame
    cases hsame

end Success

/-! ### Reported circles -/

/-- Whether an error says that a layout is in its own chain, or a partial inside of itself. -/
def TemplateError.isCircular : TemplateError → Bool
  | .malformed (.circularExtends _) _ | .malformed (.circularConnect _) _ => true
  | _ => false

theorem TemplateError.stage?_of_isCircular {e : TemplateError} (h : e.isCircular = true) :
    e.stage? = some .compiling := by
  unfold isCircular at h
  split at h
  · rfl
  · rfl
  · cases h

section Reports

variable {language : Language} {c : Catalog} {d₀ d d' : Document} {inside : List Path}

/-- Whether some paths are those of documents on a way from one document to another. -/
def Catalog.Around (c : Catalog) (language : Language) (d₀ d : Document) (paths : List Path) :
    Prop :=
  ∀ p ∈ paths, ∃ d', d'.path = p ∧ c.Reaches language d₀ d' ∧ c.Reaches language d' d

theorem Catalog.Around.single (h : c.Reaches language d₀ d) :
    c.Around language d₀ d [d.path] := by
  intro p hp
  exact ⟨d, (List.mem_singleton.1 hp).symm, h, .refl⟩

/-- A document that is referred to is on the way to itself. -/
theorem Catalog.Around.step (h : c.Around language d₀ d inside) (hd : c.Reaches language d₀ d)
    (hrefers : c.RefersTo language d d') : c.Around language d₀ d' (d'.path :: inside) := by
  intro p hp
  rcases List.mem_cons.1 hp with rfl | hp
  · exact ⟨d', rfl, hd.tail hrefers, .refl⟩
  · obtain ⟨q, hq, hfrom, hto⟩ := h p hp
    exact ⟨q, hq, hfrom, hto.tail hrefers⟩

/-- A document at a path on the way to where it is referred to is a return. -/
theorem Catalog.Around.returns (h : c.Around language d₀ d inside)
    (hrefers : c.RefersTo language d d') (hin : inside.any d'.path.same = true) :
    c.Returns language d₀ := by
  obtain ⟨p, hp, hsame⟩ := List.any_eq_true.1 hin
  obtain ⟨q, rfl, hfrom, hto⟩ := h p hp
  exact ⟨q, d', hfrom, .tail' hto hrefers, hsame⟩

/-- An error that says there is a circle only if there is a return from a document. -/
def Catalog.Truthful (c : Catalog) (language : Language) (d₀ : Document) (e : TemplateError) :
    Prop :=
  e.isCircular = true → c.Returns language d₀

theorem Catalog.Truthful.of_not_circular {e : TemplateError} (h : e.isCircular = false) :
    c.Truthful language d₀ e := by
  intro hcircular
  rw [h] at hcircular
  cases hcircular

/-- The errors of a source say nothing about circles. -/
theorem Catalog.Truthful.of_source {source : Source} {e : TemplateError}
    (h : SourceError language source e) : c.Truthful language d₀ e := by
  intro hcircular
  obtain ⟨stage, hstage, hof⟩ := h.of
  rw [TemplateError.stage?_of_isCircular hcircular] at hof
  cases hof
  exact absurd hstage (by decide)

/-- All errors about what a document leads to are truthful. -/
theorem reports_truthful (hload : ∀ name e, c.load name = .error e → e.isCircular = false) :
    Reports language c (fun paths d => c.Reaches language d₀ d ∧ c.Around language d₀ d paths)
      (c.Truthful language d₀) where
  missing h := .of_not_circular (hload _ _ h)
  unparsed _ := (raises_parseTemplate _ _).mono fun _ => .of_source
  alone h := ⟨h.1, .single h.1⟩
  step h hto := ⟨h.1.tail hto, h.2.step h.1 hto⟩
  circularConnect h hto hin _ := h.2.returns hto hin
  circularExtends h hto hin _ _ _ := h.2.returns hto hin
  extendsInPartial _ _ _ := .of_not_circular rfl

/-- **Reports.** A circle that is reported for a name is a return from its template. -/
theorem returns_of_isCircular (hload : ∀ name e, c.load name = .error e → e.isCircular = false)
    {name : String} {e : TemplateError} (h : compile language c name = .error e)
    (hcircular : e.isCircular = true) :
    ∃ d, c.load name = .ok d ∧ c.Returns language d := by
  cases hd : c.load name with
  | error e' =>
    unfold compile at h
    rw [hd] at h
    cases h
    rw [hload name e hd] at hcircular
    cases hcircular
  | ok d =>
    have hinside : ∀ d', c.load name = .ok d' →
        c.Reaches language d d' ∧ c.Around language d d' [d'.path] := by
      intro d' hd'
      cases hd.symm.trans hd'
      exact ⟨.refl, .single .refl⟩
    exact ⟨d, rfl, (reports_truthful hload).raises_compile hinside e h hcircular⟩

end Reports

/-! ### No partial is left -/

section Expanded

variable {language : Language} {c : Catalog}

theorem connectsOfList_append (nodes more : List Node) :
    Node.connectsOfList (nodes ++ more) =
      Node.connectsOfList nodes ++ Node.connectsOfList more := by
  induction nodes with
  | nil => rfl
  | cons node nodes ih =>
    rw [List.cons_append, Node.connectsOfList, Node.connectsOfList, ih, List.append_assoc]

/-- Nodes with their partials in place connect nothing. -/
theorem connectsOfList_expandNodes {inside : List Path} {source : Source} {nodes out : List Node}
    {docs : List Document} (h : expandNodes language c inside source nodes = .ok (out, docs)) :
    Node.connectsOfList out = [] := by
  have single : ∀ {node : Node}, node.connects = [] → Node.connectsOfList [node] = [] := by
    intro node hnode
    rw [Node.connectsOfList, hnode]
    rfl
  refine (expand_induction language c
    (P := fun _ _ _ out _ => Node.connectsOfList out = [])
    (Q := fun _ _ _ branches _ => Node.connectsOfBranches branches = [])
    (R := fun _ _ _ out _ => Node.connectsOfList out = [])
    ?connect ?choose_none ?choose_some ?forEach ?block ?leaf ?no_branches ?branch ?no_nodes
    ?nodes).2.2 _ _ _ _ _ h
  case connect =>
    intro inside source name d template out partials _ _ _ _ hout
    exact hout
  case choose_none =>
    intro inside source branches branches' partials hbranches
    exact single (by rw [Node.connects, hbranches]; rfl)
  case choose_some =>
    intro inside source branches branches' partials body body' more hbranches hbody
    exact single (by rw [Node.connects, hbranches, Node.connectsOfOption, hbody]; rfl)
  case forEach =>
    intro inside source iterable key value body body' partials hbody
    exact single (by rw [Node.connects, hbody])
  case block =>
    intro inside source name body body' partials hbody
    exact single (by rw [Node.connects, hbody])
  case leaf =>
    intro inside source node hleaf
    cases node with
    | text | emit | yield | comment => rfl
    | connect | choose | forEach | block => cases hleaf
  case no_branches | no_nodes => exact fun {_ _} => rfl
  case branch =>
    intro inside source condition body body' partials branches branches' more hbody hbranches
    rw [Node.connectsOfBranches, hbody, hbranches]
    rfl
  case nodes =>
    intro inside source node out partials nodes out' more hout hout'
    rw [connectsOfList_append, hout, hout']
    rfl

/-- The templates of a chain connect nothing. -/
theorem connectsOfList_layoutChain {seen : List Path} {d : Document} {links : List Link}
    (h : layoutChain language c seen d = .ok links) :
    ∀ link ∈ links, Node.connectsOfList link.nodes = [] := by
  induction h using layoutChain_induction language c with
  | last _ hexpand _ => exact List.forall_mem_singleton.2 (connectsOfList_expandNodes hexpand)
  | extend _ hexpand _ _ _ _ ih =>
    exact List.forall_mem_cons.2 ⟨connectsOfList_expandNodes hexpand, ih⟩

/-- A block among nodes that connect nothing connects nothing. -/
theorem connectsOfList_of_override {nodes : List Node} (h : Node.connectsOfList nodes = [])
    {o : Override} (ho : o ∈ nodes.filterMap Node.override?) : Node.connectsOfList o.body = [] := by
  induction nodes with
  | nil => cases ho
  | cons node nodes ih =>
    obtain ⟨hnode, hnodes⟩ := List.append_eq_nil_iff.1 h
    obtain ⟨block, hblock, hoverride⟩ := List.mem_filterMap.1 ho
    rcases List.mem_cons.1 hblock with rfl | hblock
    · cases block with
      | block name body => cases hoverride; exact hnode
      | text | emit | choose | forEach | yield | connect | comment => cases hoverride
    · exact ih hnodes (List.mem_filterMap.2 ⟨block, hblock, hoverride⟩)

/-- **No partial is left.** What is compiled connects nothing, neither in its body nor in its
sections. -/
theorem connectsOfList_compile {name : String} {a : Artifact}
    (h : compile language c name = .ok a) :
    Node.connectsOfList a.body = [] ∧ ∀ o ∈ a.sections, Node.connectsOfList o.body = [] := by
  obtain ⟨d, links, -, hlinks, rfl⟩ := compile_eq_ok.1 h
  have hnodes := connectsOfList_layoutChain hlinks
  constructor
  · cases hlast : links.getLast? with
    | none => simp [assemble, hlast, Node.connectsOfList]
    | some link =>
      simpa [assemble, hlast] using hnodes link (List.mem_of_getLast? hlast)
  · intro o ho
    obtain ⟨link, hlink, ho⟩ := List.mem_flatMap.1 ho
    exact connectsOfList_of_override (hnodes link (List.mem_of_mem_dropLast hlink)) ho

end Expanded

/-! ### Names for one path -/

section Libraries

variable {language : Language} {l : Library} {names : Set String} {name : String}

/-- Where different templates have different paths, a return is a circle. -/
theorem not_returns_of_acyclic (hwithin : l.Within names) (hnames : PathsDiffer names)
    (hacyclic : l.catalog.Acyclic language name) {d₀ : Document}
    (hload : l.load name = .ok d₀) : ¬l.catalog.Returns language d₀ := by
  rintro ⟨d, d', hreaches, hwalk, hsame⟩
  obtain ⟨m, hm⟩ := exists_load_of_reaches ⟨name, hload⟩ hreaches
  obtain ⟨n, hn⟩ := exists_load_of_reaches ⟨m, hm⟩ hwalk.to_reflTransGen
  rw [Library.load_path hm, Library.load_path hn] at hsame
  obtain rfl := hnames n (hwithin _ _ hn) m (hwithin _ _ hm) hsame
  cases hm.symm.trans hn
  exact hacyclic d ⟨name, List.mem_singleton_self _, d₀, hload, hreaches⟩ hwalk

theorem Library.isCircular_of_missing {e : TemplateError} (h : l.load name = .error e) :
    e.isCircular = false := by
  unfold Library.load at h
  split at h
  · cases h
  · cases h
    rfl

/-- A template that connects one without references, under another name for its own path: nothing
leads back to itself, but a circle is reported. -/
theorem reports_false_circle {m n : String} {d d' : Document} {text : Template}
    (hm : l.load m = .ok d) (hn : l.load n = .ok d') (hne : d ≠ d')
    (hsame : d'.path.same d.path = true)
    (hparse : parseTemplate language d.source = .ok ⟨none, [.connect n]⟩)
    (hparse' : parseTemplate language d'.source = .ok text) (htext : text.references = []) :
    l.catalog.Acyclic language m ∧ compile language l.catalog m =
      .error (d.source.malformed (.circularConnect n) (d.source.occurrence n)) := by
  have hlast : ∀ x, ¬l.catalog.RefersTo language d' x := by
    rintro x ⟨template, htemplate, name, hname, -⟩
    cases hparse'.symm.trans htemplate
    rw [htext] at hname
    cases hname
  have hfirst : ∀ x, l.catalog.RefersTo language d x → x = d' := by
    rintro x ⟨template, htemplate, name, hname, hload⟩
    cases hparse.symm.trans htemplate
    rw [List.mem_singleton.1 (show name ∈ [n] from hname)] at hload
    exact Except.ok.inj (hload.symm.trans hn)
  have hstays : ∀ x, l.catalog.Reaches language d' x → x = d' := by
    intro x hreaches
    rcases Relation.ReflTransGen.cases_head hreaches with rfl | ⟨y, hy, -⟩
    · rfl
    · exact absurd hy (hlast y)
  constructor
  · rintro x ⟨_, hname, d₀, hload, hreaches⟩ hwalk
    rw [List.mem_singleton.1 hname] at hload
    cases hm.symm.trans hload
    obtain ⟨y, hy, hback⟩ := Relation.TransGen.head'_iff.1 hwalk
    rcases Relation.ReflTransGen.cases_head hreaches with rfl | ⟨z, hz, hreaches⟩
    · rw [hfirst y hy] at hback
      exact hne (hstays _ hback)
    · rw [hfirst z hz] at hreaches
      rw [hstays x hreaches] at hy
      exact hlast y hy
  · have hexpand : expandNodes language l.catalog [d.path] d.source [.connect n] =
        .error (d.source.malformed (.circularConnect n) (d.source.occurrence n)) := by
      have hn' : l.catalog.load n = .ok d' := hn
      rw [expandNodes, expandNode_connect, hn']
      show (if _ then _ else _) >>= _ = _
      rw [if_pos (by simpa using hsame)]
      rfl
    have hm' : l.catalog.load m = .ok d := hm
    rw [compile, hm']
    show layoutChain _ _ _ _ >>= _ = _
    rw [layoutChain_step, hparse]
    show (expandNodes _ _ _ _ _ >>= _) >>= _ = _
    rw [hexpand]
    rfl

end Libraries

/-- A language in which `#x` connects one partial. -/
def connectLanguage (name : String) : Language :=
  ⟨[("x", ⟨.none, fun _ => .ok (.connect name)⟩)], .empty⟩

theorem parse_connectLanguage (m n : String) :
    parseTemplate (connectLanguage n) ⟨m, "#x"⟩ = .ok ⟨none, [.connect n]⟩ := by
  cbv

theorem parse_empty (language : Language) (n : String) :
    parseTemplate language ⟨n, ""⟩ = .ok ⟨none, []⟩ := by
  cbv

/-- **False circles.** For any two names of one path there is a library in which nothing leads back
to itself, but a circle is reported. -/
theorem exists_false_circle {m n : String} (hne : m ≠ n)
    (hsame : (⟨m⟩ : Path).same ⟨n⟩ = true) :
    let l := (Library.empty.set m "#x").set n ""
    l.catalog.Acyclic (connectLanguage n) m ∧
      ∃ e, compile (connectLanguage n) l.catalog m = .error e ∧ e.isCircular = true := by
  intro l
  have hm : l.load m = .ok ⟨⟨m⟩, ⟨m, "#x"⟩, .ofSeconds 1⟩ := by
    refine Library.load_eq_ok.2 ⟨"#x", 1, ?_, rfl⟩
    rw [Library.find?_set, if_neg hne, Library.find?_set, if_pos rfl]
    rfl
  have hn : l.load n = .ok ⟨⟨n⟩, ⟨n, ""⟩, .ofSeconds 2⟩ := by
    refine Library.load_eq_ok.2 ⟨"", 2, ?_, rfl⟩
    rw [Library.find?_set, if_pos rfl]
    rfl
  have hsame' : (⟨n⟩ : Path).same ⟨m⟩ = true := by
    simpa [Path.same, eq_comm] using hsame
  have hfalse := reports_false_circle hm hn (by simp [hne]) hsame' (parse_connectLanguage m n)
    (parse_empty _ n) rfl
  exact ⟨hfalse.1, _, hfalse.2, rfl⟩

/-- **Circles.** Whatever templates there are, compiling ends: a bound of as many templates around
one another as there are in the library changes nothing, and no two of them are at the same path.
It ends in an error if a chain of layouts comes to a path again or a partial is reached inside of
itself; what is reported as a circle leads back to a path; and if there is no error, no partial is
left. Over libraries with templates of some names, a circle is reported only where something leads
back to itself, if and only if no two of the names are the same path. -/
theorem compile_circles_iff (names : Set String) :
    (∀ (language : Language) (l : Library) (name : String),
      (∀ depth, l.templates.length ≤ depth →
        (tourCompile language l.catalog depth name).outcome =
            some (compile language l.catalog name) ∧
          ∀ stack ∈ (tourCompile language l.catalog depth name).log,
            stack.Pairwise (fun p q => p.same q = false) ∧
              stack.length ≤ l.templates.length) ∧
      (∀ d, l.load name = .ok d →
        l.catalog.LayoutCircle language d ∨ l.catalog.PartialCircle language d →
          ∃ e, compile language l.catalog name = .error e) ∧
      (∀ e, compile language l.catalog name = .error e → e.isCircular = true →
        ∃ d, l.load name = .ok d ∧ l.catalog.Returns language d) ∧
      ∀ a, compile language l.catalog name = .ok a →
        Node.connectsOfList a.body = [] ∧ ∀ o ∈ a.sections, Node.connectsOfList o.body = []) ∧
    ((∀ (language : Language) (l : Library) (name : String) (e : TemplateError),
      l.Within names → l.catalog.Acyclic language name →
        compile language l.catalog name = .error e → e.isCircular = false) ↔
      PathsDiffer names) := by
  have hmissing : ∀ (l : Library) (name : String) (e : TemplateError),
      l.catalog.load name = .error e → e.isCircular = false :=
    fun l _ _ h => l.isCircular_of_missing h
  refine ⟨fun language l name => ⟨fun depth hdepth => ?_, fun d hload hcircle => ?_, ?_, ?_⟩,
    fun h m hm n hn hsame => ?_, ?_⟩
  · have hpaths : l.catalog.paths.length = l.templates.length := by
      simp [Library.catalog, Dict.keys]
    have hrun : Watched.Settles (IsStack l.catalog.paths)
        (tourCompile language l.catalog depth name) (compile language l.catalog name) :=
      tourCompile_settles (hpaths ▸ hdepth) name
    refine ⟨hrun.outcome_eq, fun stack hstack => ?_⟩
    exact ⟨(hrun.fine stack hstack).differ, hpaths ▸ (hrun.fine stack hstack).length_le⟩
  · cases hcompile : compile language l.catalog name with
    | error e => exact ⟨e, rfl⟩
    | ok a =>
      obtain ⟨hlayouts, hpartials⟩ := no_circle_of_compile hcompile hload
      exact (hcircle.elim hlayouts hpartials).elim
  · exact fun e h hcircular => returns_of_isCircular (hmissing l) h hcircular
  · exact fun a h => connectsOfList_compile h
  · by_contra hne
    obtain ⟨hacyclic, e, hcompile, hcircular⟩ := exists_false_circle hne hsame
    have hwithin : ((Library.empty.set m "#x").set n "").Within names :=
      ((Library.within_empty names).set hm _).set hn _
    rw [h _ _ _ e hwithin hacyclic hcompile] at hcircular
    cases hcircular
  · intro hnames language l name e hwithin hacyclic hcompile
    by_contra hcircular
    obtain ⟨d, hload, hreturns⟩ := returns_of_isCircular (hmissing l) hcompile
      (Bool.not_eq_false _ ▸ hcircular)
    exact not_returns_of_acyclic hwithin hnames hacyclic hload hreturns

/-- The page `p` connects `p/`, which holds a text only. Nothing leads back to itself, but a circle
is reported. -/
theorem false_circle_of_trailing_slash :
    let l := (Library.empty.set "p" "#connect('p/')").set "p/" "x"
    l.catalog.Acyclic ⟨[], .empty⟩ "p" ∧
      compile ⟨[], .empty⟩ l.catalog "p" =
        .error (.malformed (.circularConnect "p/") ⟨"p", 1, 10, 2⟩) := by
  intro l
  have hpage : l.load "p" = .ok ⟨⟨"p"⟩, ⟨"p", "#connect('p/')"⟩, .ofSeconds 1⟩ := rfl
  have hpartial : l.load "p/" = .ok ⟨⟨"p/"⟩, ⟨"p/", "x"⟩, .ofSeconds 2⟩ := rfl
  have hparse : parseTemplate ⟨[], .empty⟩ ⟨"p/", "x"⟩ = .ok ⟨none, [.text "x"]⟩ := by cbv
  exact reports_false_circle hpage hpartial (by decide) (by decide) (by cbv) hparse rfl

end Hashmark
