import Hashmark.Proofs.Compiling.Locality
import Mathlib.Logic.Relation

/-!
# What compiling reaches

A template refers to its layout and to the partials that it connects, wherever they stand in it,
also in parts that the artifact drops. Compiling reads everything that is reached so: if a template
compiles, then each template that it leads to is one of those that the chain was read from
(`mem_documents_of_reaches`), and the chain was read from no others (`reaches_of_mem_documents`).
-/

namespace Hashmark

mutual

/-- The partials that a node connects, at any depth. -/
def Node.connects : Node → List String
  | .connect name => [name]
  | .choose branches otherwise =>
    Node.connectsOfBranches branches ++ Node.connectsOfOption otherwise
  | .forEach _ _ _ body => Node.connectsOfList body
  | .block _ body => Node.connectsOfList body
  | .text _ | .emit _ | .yield _ _ | .comment _ => []

/-- The partials that several nodes connect. -/
def Node.connectsOfList : List Node → List String
  | [] => []
  | n :: ns => n.connects ++ Node.connectsOfList ns

/-- The partials that the branches of a choice connect. -/
def Node.connectsOfBranches : List (Expr × List Node) → List String
  | [] => []
  | (_, body) :: branches => Node.connectsOfList body ++ Node.connectsOfBranches branches

/-- The partials that a body that may be absent connects. -/
def Node.connectsOfOption : Option (List Node) → List String
  | none => []
  | some body => Node.connectsOfList body

end

/-- The names of the templates that a template refers to: its layout, and the partials in it. -/
def Template.references (t : Template) : List String :=
  (t.layout.map Prod.fst).toList ++ Node.connectsOfList t.nodes

theorem Template.references_of_none {t : Template} (hlayout : t.layout = none) :
    t.references = Node.connectsOfList t.nodes := by
  rw [Template.references, hlayout]
  rfl

/-- Whether a document is a template that refers to another document. -/
def Catalog.RefersTo (c : Catalog) (language : Language) (d d' : Document) : Prop :=
  ∃ template, parseTemplate language d.source = .ok template ∧
    ∃ name ∈ template.references, c.load name = .ok d'

/-- Whether a document leads to another one by any number of references. -/
abbrev Catalog.Reaches (c : Catalog) (language : Language) : Document → Document → Prop :=
  Relation.ReflTransGen (c.RefersTo language)

/-- Whether some documents are templates that refer to nothing but these documents. -/
def Catalog.Closed (c : Catalog) (language : Language) (documents : List Document) : Prop :=
  ∀ d ∈ documents, ∃ template, parseTemplate language d.source = .ok template ∧
    ∀ name ∈ template.references, ∃ d' ∈ documents, c.load name = .ok d'

section Closed

variable {language : Language} {c : Catalog} {documents more : List Document}

/-- Closed documents hold whatever they lead to. -/
theorem Catalog.Closed.mem_of_reaches (h : c.Closed language documents) {d d' : Document}
    (hd : d ∈ documents) (hreaches : c.Reaches language d d') : d' ∈ documents := by
  -- a document is one template and a name is loaded as one document, so both references agree
  induction hreaches with
  | refl => exact hd
  | tail _ hrefers ih =>
    obtain ⟨template, hparse, name, hname, hload⟩ := hrefers
    obtain ⟨template', hparse', hreferences⟩ := h _ ih
    rw [hparse] at hparse'
    cases hparse'
    obtain ⟨d'', hmem, hload'⟩ := hreferences name hname
    rw [hload] at hload'
    cases hload'
    exact hmem

/-- Whether some names are loaded as some of the documents. -/
def Catalog.LoadsAll (c : Catalog) (names : List String) (documents : List Document) : Prop :=
  ∀ name ∈ names, ∃ d ∈ documents, c.load name = .ok d

theorem Catalog.LoadsAll.append {names names' : List String} (h : c.LoadsAll names documents)
    (h' : c.LoadsAll names' more) : c.LoadsAll (names ++ names') (documents ++ more) := by
  intro name hname
  rcases List.mem_append.1 hname with hname | hname
  · obtain ⟨d, hd, hload⟩ := h name hname
    exact ⟨d, List.mem_append_left _ hd, hload⟩
  · obtain ⟨d, hd, hload⟩ := h' name hname
    exact ⟨d, List.mem_append_right _ hd, hload⟩

theorem Catalog.LoadsAll.mono {names : List String} (h : c.LoadsAll names documents)
    (hsub : documents ⊆ more) : c.LoadsAll names more := by
  intro name hname
  obtain ⟨d, hd, hload⟩ := h name hname
  exact ⟨d, hsub hd, hload⟩

theorem Catalog.Closed.append (h : c.Closed language documents) (h' : c.Closed language more) :
    c.Closed language (documents ++ more) := by
  intro d hd
  rcases List.mem_append.1 hd with hd | hd
  · obtain ⟨template, hparse, hloads⟩ := h d hd
    exact ⟨template, hparse, Catalog.LoadsAll.mono hloads (List.subset_append_left _ _)⟩
  · obtain ⟨template, hparse, hloads⟩ := h' d hd
    exact ⟨template, hparse, Catalog.LoadsAll.mono hloads (List.subset_append_right _ _)⟩

/-- Closed documents stay so with a template in front that refers to them only. -/
theorem Catalog.Closed.cons {d : Document} {template : Template}
    (hparse : parseTemplate language d.source = .ok template)
    (hloads : c.LoadsAll template.references documents) (h : c.Closed language documents) :
    c.Closed language (d :: documents) := by
  refine List.forall_mem_cons.2 ⟨⟨template, hparse, hloads.mono (List.subset_cons_self _ _)⟩, ?_⟩
  intro d' hd'
  obtain ⟨template', hparse', hloads'⟩ := h d' hd'
  exact ⟨template', hparse', Catalog.LoadsAll.mono hloads' (List.subset_cons_self _ _)⟩

end Closed

section Compiling

variable {language : Language} {c : Catalog} {inside : List Path} {source : Source}

/-- **Partials.** The partials that were put in place are all those that the nodes connect, with
all those that they lead to. -/
theorem expandNodes_closed {nodes out : List Node} {docs : List Document}
    (h : expandNodes language c inside source nodes = .ok (out, docs)) :
    c.LoadsAll (Node.connectsOfList nodes) docs ∧ c.Closed language docs := by
  refine (expand_induction language c
    (P := fun _ _ node _ docs => c.LoadsAll node.connects docs ∧ c.Closed language docs)
    (Q := fun _ _ branches _ docs =>
      c.LoadsAll (Node.connectsOfBranches branches) docs ∧ c.Closed language docs)
    (R := fun _ _ nodes _ docs =>
      c.LoadsAll (Node.connectsOfList nodes) docs ∧ c.Closed language docs)
    ?connect ?choose_none ?choose_some ?forEach ?block ?leaf ?no_branches ?branch ?no_nodes
    ?nodes).2.2 _ _ _ _ _ h
  case connect =>
    intro inside source name d template out partials hload _ hparse hlayout ⟨hloads, hclosed⟩
    have hreferences := Template.references_of_none hlayout
    refine ⟨?_, .cons hparse (hreferences ▸ hloads) hclosed⟩
    intro name' hname'
    rw [List.mem_singleton.1 hname']
    exact ⟨d, by simp, hload⟩
  case choose_none =>
    intro inside source branches branches' partials ⟨hloads, hclosed⟩
    exact ⟨by simpa [Node.connects, Node.connectsOfOption] using hloads, hclosed⟩
  case choose_some =>
    intro inside source branches branches' partials body body' more hbranches hbody
    exact ⟨hbranches.1.append hbody.1, hbranches.2.append hbody.2⟩
  case forEach | block => exact id
  case leaf =>
    intro inside source node hleaf
    refine ⟨?_, fun _ h => absurd h List.not_mem_nil⟩
    cases node with
    | text | emit | yield | comment => exact fun _ h => absurd h List.not_mem_nil
    | connect | choose | forEach | block => cases hleaf
  case no_branches | no_nodes =>
    exact ⟨fun _ h => absurd h List.not_mem_nil, fun _ h => absurd h List.not_mem_nil⟩
  case branch =>
    intro inside source condition body body' partials branches branches' more hbody hbranches
    exact ⟨hbody.1.append hbranches.1, hbody.2.append hbranches.2⟩
  case nodes =>
    intro inside source node out partials nodes out' more hnode hnodes
    exact ⟨hnode.1.append hnodes.1, hnode.2.append hnodes.2⟩

/-- **Layouts.** The documents that a chain was read from refer to nothing else. -/
theorem layoutChain_closed {seen : List Path} {d : Document} {links : List Link}
    (h : layoutChain language c seen d = .ok links) : c.Closed language (chainDocuments links) := by
  induction h using layoutChain_induction language c with
  | last hparse hexpand hlayout =>
    obtain ⟨hloads, hclosed⟩ := expandNodes_closed hexpand
    rw [chainDocuments_singleton]
    exact .cons hparse (Template.references_of_none hlayout ▸ hloads) hclosed
  | @extend seen d template nodes partials layout span next rest _ hparse hexpand hlayout hload _
      hrest ih =>
    obtain ⟨hloads, hclosed⟩ := expandNodes_closed hexpand
    refine .cons hparse ?_ (hclosed.append ih)
    rw [Template.references, hlayout]
    intro name hname
    rcases List.mem_cons.1 hname with rfl | hname
    · exact ⟨next, List.mem_append_right _ (mem_documents_of_layoutChain hrest), hload⟩
    · exact hloads.mono (List.subset_append_left _ _) name hname

/-- **Compiling reads all that is reached.** -/
theorem mem_documents_of_reaches {seen : List Path} {d d' : Document} {links : List Link}
    (h : layoutChain language c seen d = .ok links) (hreaches : c.Reaches language d d') :
    d' ∈ chainDocuments links :=
  (layoutChain_closed h).mem_of_reaches (mem_documents_of_layoutChain h) hreaches

/-- Each document that is reached from a template that compiles is a template. -/
theorem parses_of_reaches {seen : List Path} {d d' : Document} {links : List Link}
    (h : layoutChain language c seen d = .ok links) (hreaches : c.Reaches language d d') :
    ∃ template, parseTemplate language d'.source = .ok template := by
  obtain ⟨template, hparse, -⟩ := layoutChain_closed h d' (mem_documents_of_reaches h hreaches)
  exact ⟨template, hparse⟩

/-- Whether a document is what one of some names is loaded as, or what such a document leads to. -/
def Catalog.LeadsTo (c : Catalog) (language : Language) (names : List String) (d : Document) :
    Prop :=
  ∃ name ∈ names, ∃ d₀, c.load name = .ok d₀ ∧ c.Reaches language d₀ d

/-- What is loaded leads to what is loaded. -/
theorem exists_load_of_reaches {d d' : Document} (hd : ∃ name, c.load name = .ok d)
    (h : c.Reaches language d d') : ∃ name, c.load name = .ok d' := by
  induction h with
  | refl => exact hd
  | tail _ hlast _ =>
    obtain ⟨template, -, name, -, hload⟩ := hlast
    exact ⟨name, hload⟩

theorem Catalog.LeadsTo.exists_load {names : List String} {d : Document}
    (h : c.LeadsTo language names d) : ∃ name, c.load name = .ok d := by
  obtain ⟨name, -, d₀, hload, hreaches⟩ := h
  exact exists_load_of_reaches ⟨name, hload⟩ hreaches

theorem Catalog.LeadsTo.mono {names more : List String} {d : Document}
    (h : c.LeadsTo language names d) (hsub : names ⊆ more) : c.LeadsTo language more d := by
  obtain ⟨name, hname, h⟩ := h
  exact ⟨name, hsub hname, h⟩

/-- A template leads to whatever its references lead to. -/
theorem Catalog.LeadsTo.reaches {d d' : Document} {template : Template}
    (hparse : parseTemplate language d.source = .ok template)
    (h : c.LeadsTo language template.references d') : c.Reaches language d d' := by
  obtain ⟨name, hname, d₀, hload, hreaches⟩ := h
  exact Relation.ReflTransGen.head ⟨template, hparse, name, hname, hload⟩ hreaches

/-- Each partial that was put in place is one that the nodes lead to. -/
theorem expandNodes_leadsTo {nodes out : List Node} {docs : List Document}
    (h : expandNodes language c inside source nodes = .ok (out, docs)) :
    ∀ d ∈ docs, c.LeadsTo language (Node.connectsOfList nodes) d := by
  have append : ∀ {names names' : List String} {docs more : List Document},
      (∀ d ∈ docs, c.LeadsTo language names d) → (∀ d ∈ more, c.LeadsTo language names' d) →
      ∀ d ∈ docs ++ more, c.LeadsTo language (names ++ names') d := by
    intro names names' docs more hdocs hmore
    refine List.forall_mem_append.2 ⟨fun d hd => (hdocs d hd).mono ?_, fun d hd => ?_⟩
    · exact List.subset_append_left _ _
    · exact (hmore d hd).mono (List.subset_append_right _ _)
  refine (expand_induction language c
    (P := fun _ _ node _ docs => ∀ d ∈ docs, c.LeadsTo language node.connects d)
    (Q := fun _ _ branches _ docs =>
      ∀ d ∈ docs, c.LeadsTo language (Node.connectsOfBranches branches) d)
    (R := fun _ _ nodes _ docs =>
      ∀ d ∈ docs, c.LeadsTo language (Node.connectsOfList nodes) d)
    ?connect ?choose_none ?choose_some ?forEach ?block ?leaf ?no_branches ?branch ?no_nodes
    ?nodes).2.2 _ _ _ _ _ h
  case connect =>
    intro inside source name d template out partials hload _ hparse hlayout hpartials
    have hreferences := Template.references_of_none hlayout
    refine List.forall_mem_cons.2 ⟨⟨name, List.mem_singleton_self _, d, hload, .refl⟩, ?_⟩
    intro d' hd'
    exact ⟨name, List.mem_singleton_self _, d, hload,
      Catalog.LeadsTo.reaches hparse (hreferences ▸ hpartials d' hd')⟩
  case choose_none =>
    intro inside source branches branches' partials hpartials
    simpa [Node.connects, Node.connectsOfOption] using hpartials
  case choose_some =>
    intro inside source branches branches' partials body body' more hbranches hbody
    exact append hbranches hbody
  case forEach | block => exact id
  case leaf | no_branches | no_nodes => simp
  case branch =>
    intro inside source condition body body' partials branches branches' more hbody hbranches
    exact append hbody hbranches
  case nodes =>
    intro inside source node out partials nodes out' more hnode hnodes
    exact append hnode hnodes

/-- The partials that were put in place in a template are among what it leads to. -/
theorem reaches_of_mem_partials {d : Document} {template : Template} {nodes : List Node}
    {partials : List Document} (hparse : parseTemplate language d.source = .ok template)
    (hexpand : expandNodes language c inside source template.nodes = .ok (nodes, partials)) :
    ∀ d' ∈ d :: partials, c.Reaches language d d' := by
  refine List.forall_mem_cons.2 ⟨.refl, fun d' hd' => ?_⟩
  refine Catalog.LeadsTo.reaches hparse ((expandNodes_leadsTo hexpand d' hd').mono ?_)
  exact List.subset_append_right _ _

/-- **Compiling reads only what is reached.** Each document that a chain was read from is one that
the first template leads to. -/
theorem reaches_of_mem_documents {seen : List Path} {d d' : Document} {links : List Link}
    (h : layoutChain language c seen d = .ok links) (hd' : d' ∈ chainDocuments links) :
    c.Reaches language d d' := by
  induction h using layoutChain_induction language c with
  | last hparse hexpand _ =>
    rw [chainDocuments_singleton] at hd'
    exact reaches_of_mem_partials hparse hexpand d' hd'
  | @extend seen d template nodes partials layout span next rest _ hparse hexpand hlayout hload _ _
      ih =>
    rcases List.mem_append.1 hd' with hd' | hd'
    · exact reaches_of_mem_partials hparse hexpand d' hd'
    · have hnext : c.RefersTo language d next :=
        ⟨template, hparse, layout, by simp [Template.references, hlayout], hload⟩
      exact .head hnext (ih hd')

end Compiling

end Hashmark
