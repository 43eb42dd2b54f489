import Hashmark.Compile

/-!
# What compiling reads

Compiling a template reads its catalog in one way only: it loads documents by name. A catalog that
loads the same documents under the same names gives the same artifact, and for every document that
was loaded there is a dependency with its path (`compile_local`). It need not be the dependency of
that document: a partial whose path is the same as one recorded before is not recorded again.
-/

namespace Hashmark

open Lexer (bind_eq_ok)

/-- `c` loads each of some documents under every name under which `c₀` does. -/
def Catalog.Serves (c₀ c : Catalog) (documents : List Document) : Prop :=
  ∀ name d, c₀.load name = .ok d → d ∈ documents → c.load name = .ok d

/-- The documents that a chain was read from: its templates, each with its partials. -/
def chainDocuments (links : List Link) : List Document :=
  links.flatMap fun link => link.document :: link.partials

variable {language : Language} {c₀ c : Catalog} {inside : List Path} {source : Source}

theorem Catalog.Serves.mono {documents fewer : List Document}
    (h : c₀.Serves c documents) (hsub : ∀ d ∈ fewer, d ∈ documents) : c₀.Serves c fewer :=
  fun name d hload hd => h name d hload (hsub d hd)

/-! ### Partials -/

/-- A partial is loaded, and entered unless it is around the node already. -/
theorem expandNode_connect {name : String} :
    expandNode language c inside source (.connect name) = (do
      let d ← c.load name
      if inside.any d.path.same then
        throw (source.malformed (.circularConnect name) (source.occurrence name))
      else
        let template ← parseTemplate language d.source
        match template.layout with
        | some (_, span) => throw (d.source.malformed .extendsInPartial span)
        | none =>
          let (nodes, partials) ← expandNodes language c (d.path :: inside) d.source template.nodes
          pure (nodes, d :: partials)) := by
  rw [expandNode]
  split
  · next e hload => rw [hload]; rfl
  · next d hload => rw [hload]; rfl

/-- A partial is put in place exactly if it can be loaded, is not around the node already, and is a
template without a layout. -/
theorem expandNode_connect_eq_ok {name : String} {out : List Node} {docs : List Document} :
    expandNode language c inside source (.connect name) = .ok (out, docs) ↔
      ∃ d template partials, c.load name = .ok d ∧ inside.any d.path.same = false ∧
        parseTemplate language d.source = .ok template ∧ template.layout = none ∧
        expandNodes language c (d.path :: inside) d.source template.nodes = .ok (out, partials) ∧
        docs = d :: partials := by
  rw [expandNode_connect]
  constructor
  · intro h
    obtain ⟨d, hload, h⟩ := bind_eq_ok.1 h
    split at h
    · cases h
    · next hinside =>
      obtain ⟨template, hparse, h⟩ := bind_eq_ok.1 h
      split at h
      · cases h
      · next hlayout =>
        obtain ⟨⟨nodes, partials⟩, hexpand, h⟩ := bind_eq_ok.1 h
        cases h
        exact ⟨d, template, partials, hload, by simpa using hinside, hparse, hlayout, hexpand,
          rfl⟩
  · rintro ⟨d, template, partials, hload, hinside, hparse, hlayout, hexpand, rfl⟩
    refine bind_eq_ok.2 ⟨d, hload, ?_⟩
    rw [if_neg (by simp [hinside])]
    refine bind_eq_ok.2 ⟨template, hparse, ?_⟩
    rw [hlayout]
    exact bind_eq_ok.2 ⟨_, hexpand, rfl⟩

theorem expandNode_choose_eq_ok {branches : List (Expr × List Node)}
    {otherwise : Option (List Node)} {out : List Node} {docs : List Document} :
    expandNode language c inside source (.choose branches otherwise) = .ok (out, docs) ↔
      ∃ branches' partials,
        expandBranches language c inside source branches = .ok (branches', partials) ∧
        match otherwise with
        | none => out = [.choose branches' none] ∧ docs = partials
        | some body => ∃ body' more,
          expandNodes language c inside source body = .ok (body', more) ∧
            out = [.choose branches' (some body')] ∧ docs = partials ++ more := by
  rw [expandNode]
  constructor
  · intro h
    obtain ⟨⟨branches', partials⟩, hbranches, h⟩ := bind_eq_ok.1 h
    refine ⟨branches', partials, hbranches, ?_⟩
    cases otherwise with
    | none => cases h; exact ⟨rfl, rfl⟩
    | some body =>
      obtain ⟨⟨body', more⟩, hbody, h⟩ := bind_eq_ok.1 h
      cases h
      exact ⟨body', more, hbody, rfl, rfl⟩
  · rintro ⟨branches', partials, hbranches, h⟩
    refine bind_eq_ok.2 ⟨_, hbranches, ?_⟩
    cases otherwise with
    | none => obtain ⟨rfl, rfl⟩ := h; rfl
    | some body =>
      obtain ⟨body', more, hbody, rfl, rfl⟩ := h
      exact bind_eq_ok.2 ⟨_, hbody, rfl⟩

/-- A node with one body is expanded by expanding the body. -/
theorem expandBody_eq_ok {wrap : List Node → Node} {body out : List Node} {docs : List Document} :
    (do
        let (body, partials) ← expandNodes language c inside source body
        pure ([wrap body], partials)) = Except.ok (out, docs) ↔
      ∃ body', expandNodes language c inside source body = .ok (body', docs) ∧
        out = [wrap body'] := by
  constructor
  · intro h
    obtain ⟨⟨body', partials⟩, hbody, h⟩ := bind_eq_ok.1 h
    cases h
    exact ⟨body', hbody, rfl⟩
  · rintro ⟨body', hbody, rfl⟩
    exact bind_eq_ok.2 ⟨_, hbody, rfl⟩

theorem expandNodes_cons_eq_ok {node : Node} {nodes out : List Node} {docs : List Document} :
    expandNodes language c inside source (node :: nodes) = .ok (out, docs) ↔
      ∃ first partials rest more, expandNode language c inside source node = .ok (first, partials) ∧
        expandNodes language c inside source nodes = .ok (rest, more) ∧
        out = first ++ rest ∧ docs = partials ++ more := by
  rw [expandNodes]
  constructor
  · intro h
    obtain ⟨⟨first, partials⟩, hfirst, h⟩ := bind_eq_ok.1 h
    obtain ⟨⟨rest, more⟩, hrest, h⟩ := bind_eq_ok.1 h
    cases h
    exact ⟨first, partials, rest, more, hfirst, hrest, rfl, rfl⟩
  · rintro ⟨first, partials, rest, more, hfirst, hrest, rfl, rfl⟩
    exact bind_eq_ok.2 ⟨_, hfirst, bind_eq_ok.2 ⟨_, hrest, rfl⟩⟩

theorem expandBranches_cons_eq_ok {condition : Expr} {body : List Node}
    {branches out : List (Expr × List Node)} {docs : List Document} :
    expandBranches language c inside source ((condition, body) :: branches) = .ok (out, docs) ↔
      ∃ body' partials rest more,
        expandNodes language c inside source body = .ok (body', partials) ∧
        expandBranches language c inside source branches = .ok (rest, more) ∧
        out = (condition, body') :: rest ∧ docs = partials ++ more := by
  rw [expandBranches]
  constructor
  · intro h
    obtain ⟨⟨body', partials⟩, hbody, h⟩ := bind_eq_ok.1 h
    obtain ⟨⟨rest, more⟩, hrest, h⟩ := bind_eq_ok.1 h
    cases h
    exact ⟨body', partials, rest, more, hbody, hrest, rfl, rfl⟩
  · rintro ⟨body', partials, rest, more, hbody, hrest, rfl, rfl⟩
    exact bind_eq_ok.2 ⟨_, hbody, bind_eq_ok.2 ⟨_, hrest, rfl⟩⟩

/-- Whether a node is neither a partial nor a node with bodies. -/
def Node.isLeaf : Node → Bool
  | .connect _ | .choose _ _ | .forEach _ _ _ _ | .block _ _ => false
  | .text _ | .emit _ | .yield _ _ | .comment _ => true

theorem Node.isLeaf_of_ne {node : Node} (hconnect : ∀ name, node ≠ .connect name)
    (hchoose : ∀ branches otherwise, node ≠ .choose branches otherwise)
    (hloop : ∀ iterable key value body, node ≠ .forEach iterable key value body)
    (hblock : ∀ name body, node ≠ .block name body) : node.isLeaf = true := by
  cases node with
  | text | emit | yield | comment => rfl
  | connect name => exact absurd rfl (hconnect name)
  | choose branches otherwise => exact absurd rfl (hchoose branches otherwise)
  | forEach iterable key value body => exact absurd rfl (hloop iterable key value body)
  | block name body => exact absurd rfl (hblock name body)

theorem expandNode_leaf {node : Node} (h : node.isLeaf = true) :
    expandNode language c inside source node = .ok ([node], []) := by
  cases node with
  | text | emit | yield | comment => rw [expandNode] <;> simp
  | connect | choose | forEach | block => cases h

/-- **Induction on an expansion that succeeds.** What holds of the single steps holds of every node,
list of branches and list of nodes that could be expanded. -/
theorem expand_induction (language : Language) (c : Catalog)
    {P : List Path → Source → Node → List Node → List Document → Prop}
    {Q : List Path → Source → List (Expr × List Node) → List (Expr × List Node) →
      List Document → Prop}
    {R : List Path → Source → List Node → List Node → List Document → Prop}
    (connect : ∀ {inside source name d template out partials}, c.load name = .ok d →
      inside.any d.path.same = false → parseTemplate language d.source = .ok template →
      template.layout = none → R (d.path :: inside) d.source template.nodes out partials →
      P inside source (.connect name) out (d :: partials))
    (choose_none : ∀ {inside source branches branches' partials},
      Q inside source branches branches' partials →
      P inside source (.choose branches none) [.choose branches' none] partials)
    (choose_some : ∀ {inside source branches branches' partials body body' more},
      Q inside source branches branches' partials → R inside source body body' more →
      P inside source (.choose branches (some body)) [.choose branches' (some body')]
        (partials ++ more))
    (forEach : ∀ {inside source iterable key value body body' partials},
      R inside source body body' partials →
      P inside source (.forEach iterable key value body) [.forEach iterable key value body']
        partials)
    (block : ∀ {inside source name body body' partials}, R inside source body body' partials →
      P inside source (.block name body) [.block name body'] partials)
    (leaf : ∀ {inside source node}, node.isLeaf = true → P inside source node [node] [])
    (no_branches : ∀ {inside source}, Q inside source [] [] [])
    (branch : ∀ {inside source condition body body' partials branches branches' more},
      R inside source body body' partials → Q inside source branches branches' more →
      Q inside source ((condition, body) :: branches) ((condition, body') :: branches')
        (partials ++ more))
    (no_nodes : ∀ {inside source}, R inside source [] [] [])
    (nodes : ∀ {inside source node out partials nodes out' more},
      P inside source node out partials → R inside source nodes out' more →
      R inside source (node :: nodes) (out ++ out') (partials ++ more)) :
    (∀ inside source node out docs,
      expandNode language c inside source node = .ok (out, docs) → P inside source node out docs) ∧
    (∀ inside source branches out docs,
      expandBranches language c inside source branches = .ok (out, docs) →
        Q inside source branches out docs) ∧
    (∀ inside source nodes out docs,
      expandNodes language c inside source nodes = .ok (out, docs) →
        R inside source nodes out docs) := by
  refine expandNode.mutual_induct c _ _ _ ?missing ?circular ?enter ?choose ?forEach ?block ?leaf
    ?no_branches ?branch ?no_nodes ?nodes
  case missing =>
    intro inside source name e hload out docs h
    obtain ⟨d, -, -, hd, -⟩ := expandNode_connect_eq_ok.1 h
    rw [hload] at hd
    cases hd
  case circular =>
    intro inside source name d hload hinside out docs h
    obtain ⟨d', -, -, hd, hnot, -⟩ := expandNode_connect_eq_ok.1 h
    rw [hload] at hd
    cases hd
    rw [hinside] at hnot
    cases hnot
  case enter =>
    intro inside source name d hload hinside ih out docs h
    obtain ⟨d', template, partials, hd, hnot, hparse, hlayout, hexpand, rfl⟩ :=
      expandNode_connect_eq_ok.1 h
    rw [hload] at hd
    cases hd
    exact connect hload hnot hparse hlayout (ih template _ _ hexpand)
  case choose =>
    intro inside source branches otherwise ihb iho out docs h
    obtain ⟨branches', partials, hbranches, h⟩ := expandNode_choose_eq_ok.1 h
    cases otherwise with
    | none =>
      obtain ⟨rfl, rfl⟩ := h
      exact choose_none (ihb _ _ hbranches)
    | some body =>
      obtain ⟨body', more, hbody, rfl, rfl⟩ := h
      exact choose_some (ihb _ _ hbranches) (iho _ _ hbody)
  case forEach =>
    intro inside source iterable key value body ih out docs h
    rw [expandNode] at h
    obtain ⟨body', hbody, rfl⟩ := expandBody_eq_ok.1 h
    exact forEach (ih _ _ hbody)
  case block =>
    intro inside source name body ih out docs h
    rw [expandNode] at h
    obtain ⟨body', hbody, rfl⟩ := expandBody_eq_ok.1 h
    exact block (ih _ _ hbody)
  case leaf =>
    intro inside source node hconnect hchoose hloop hblock out docs h
    have hleaf := Node.isLeaf_of_ne hconnect hchoose hloop hblock
    rw [expandNode_leaf hleaf] at h
    cases h
    exact leaf hleaf
  case no_branches =>
    intro inside source out docs h
    rw [expandBranches] at h
    cases h
    exact no_branches
  case branch =>
    intro inside source condition body branches ihbody ihrest out docs h
    obtain ⟨body', partials, rest, more, hbody, hrest, rfl, rfl⟩ := expandBranches_cons_eq_ok.1 h
    exact branch (ihbody _ _ hbody) (ihrest _ _ hrest)
  case no_nodes =>
    intro inside source out docs h
    rw [expandNodes] at h
    cases h
    exact no_nodes
  case nodes =>
    intro inside source node rest ihnode ihrest out docs h
    obtain ⟨first, partials, out', more, hfirst, hrest, rfl, rfl⟩ := expandNodes_cons_eq_ok.1 h
    exact nodes (ihnode _ _ hfirst) (ihrest _ _ hrest)

/-- Expanding is the same over a catalog that serves the partials that were loaded. -/
theorem expandNodes_congr {nodes out : List Node} {docs : List Document}
    (h : expandNodes language c₀ inside source nodes = .ok (out, docs)) (serves : c₀.Serves c docs) :
    expandNodes language c inside source nodes = .ok (out, docs) := by
  refine (expand_induction language c₀
    (P := fun inside source node out docs => c₀.Serves c docs →
      expandNode language c inside source node = .ok (out, docs))
    (Q := fun inside source branches out docs => c₀.Serves c docs →
      expandBranches language c inside source branches = .ok (out, docs))
    (R := fun inside source nodes out docs => c₀.Serves c docs →
      expandNodes language c inside source nodes = .ok (out, docs))
    ?connect ?choose_none ?choose_some ?forEach ?block ?leaf ?no_branches ?branch ?no_nodes
    ?nodes).2.2 _ _ _ _ _ h serves
  case connect =>
    intro inside source name d template out partials hload hinside hparse hlayout ih serves
    exact expandNode_connect_eq_ok.2 ⟨d, template, partials, serves _ _ hload (by simp), hinside,
      hparse, hlayout, ih (serves.mono (by simp +contextual)), rfl⟩
  case choose_none =>
    intro inside source branches branches' partials ih serves
    exact expandNode_choose_eq_ok.2 ⟨branches', partials, ih serves, rfl, rfl⟩
  case choose_some =>
    intro inside source branches branches' partials body body' more ihb ih serves
    exact expandNode_choose_eq_ok.2 ⟨branches', partials, ihb (serves.mono (by simp +contextual)),
      body', more, ih (serves.mono (by simp +contextual)), rfl, rfl⟩
  case forEach =>
    intro inside source iterable key value body body' partials ih serves
    rw [expandNode]
    exact expandBody_eq_ok.2 ⟨body', ih serves, rfl⟩
  case block =>
    intro inside source name body body' partials ih serves
    rw [expandNode]
    exact expandBody_eq_ok.2 ⟨body', ih serves, rfl⟩
  case leaf => exact fun hleaf _ => expandNode_leaf hleaf
  case no_branches =>
    intro inside source _
    rw [expandBranches]
  case branch =>
    intro inside source condition body body' partials branches branches' more ih ihb serves
    exact expandBranches_cons_eq_ok.2 ⟨body', partials, branches', more,
      ih (serves.mono (by simp +contextual)), ihb (serves.mono (by simp +contextual)), rfl, rfl⟩
  case no_nodes =>
    intro inside source _
    rw [expandNodes]
  case nodes =>
    intro inside source node out partials nodes out' more ih ihs serves
    exact expandNodes_cons_eq_ok.2 ⟨out, partials, out', more,
      ih (serves.mono (by simp +contextual)), ihs (serves.mono (by simp +contextual)), rfl, rfl⟩

/-- Every partial in place was loaded. -/
theorem expandNodes_loaded {nodes out : List Node} {docs : List Document}
    (h : expandNodes language c inside source nodes = .ok (out, docs)) :
    ∀ d ∈ docs, ∃ name, c.load name = .ok d := by
  refine (expand_induction language c
    (P := fun _ _ _ _ docs => ∀ d ∈ docs, ∃ name, c.load name = .ok d)
    (Q := fun _ _ _ _ docs => ∀ d ∈ docs, ∃ name, c.load name = .ok d)
    (R := fun _ _ _ _ docs => ∀ d ∈ docs, ∃ name, c.load name = .ok d)
    ?connect ?choose_none ?choose_some ?forEach ?block ?leaf ?no_branches ?branch ?no_nodes
    ?nodes).2.2 _ _ _ _ _ h
  case connect =>
    intro inside source name d template out partials hload _ _ _ ih
    exact List.forall_mem_cons.2 ⟨⟨name, hload⟩, ih⟩
  case choose_none | forEach | block => exact id
  case choose_some => exact fun ihb ih => List.forall_mem_append.2 ⟨ihb, ih⟩
  case leaf | no_branches | no_nodes => simp
  case branch => exact fun ih ihb => List.forall_mem_append.2 ⟨ih, ihb⟩
  case nodes => exact fun ih ihs => List.forall_mem_append.2 ⟨ih, ihs⟩

/-! ### Layout chains -/

/-- The layout of a template is loaded, and followed unless it is in the chain already. -/
theorem layoutChain_step {seen : List Path} {d : Document} :
    layoutChain language c seen d = (do
      let template ← parseTemplate language d.source
      let (nodes, partials) ← expandNodes language c [d.path] d.source template.nodes
      match template.layout with
      | none => pure [⟨d, nodes, partials⟩]
      | some (layout, span) =>
        let next ← c.load layout
        if seen.any next.path.same then
          throw (d.source.malformed (.circularExtends layout) span)
        else
          let links ← layoutChain language c (next.path :: seen) next
          pure (⟨d, nodes, partials⟩ :: links)) := by
  rw [layoutChain]
  refine bind_congr fun template => bind_congr fun expanded => ?_
  cases template.layout with
  | none => rfl
  | some named =>
    dsimp only
    split
    · next e hload => rw [hload]; rfl
    · next next hload => rw [hload]; rfl

/-- A chain begins with the document and its partials. It ends there without a layout, or goes on
with a layout that can be loaded and is not in the chain yet. -/
theorem layoutChain_eq_ok {seen : List Path} {d : Document} {links : List Link} :
    layoutChain language c seen d = .ok links ↔
      ∃ template nodes partials, parseTemplate language d.source = .ok template ∧
        expandNodes language c [d.path] d.source template.nodes = .ok (nodes, partials) ∧
        match template.layout with
        | none => links = [⟨d, nodes, partials⟩]
        | some (layout, _) => ∃ next rest, c.load layout = .ok next ∧
          seen.any next.path.same = false ∧
          layoutChain language c (next.path :: seen) next = .ok rest ∧
          links = ⟨d, nodes, partials⟩ :: rest := by
  rw [layoutChain_step]
  constructor
  · intro h
    obtain ⟨template, hparse, h⟩ := bind_eq_ok.1 h
    obtain ⟨⟨nodes, partials⟩, hexpand, h⟩ := bind_eq_ok.1 h
    refine ⟨template, nodes, partials, hparse, hexpand, ?_⟩
    cases hlayout : template.layout with
    | none => rw [hlayout] at h; cases h; rfl
    | some named =>
      rw [hlayout] at h
      obtain ⟨next, hload, h⟩ := bind_eq_ok.1 h
      split at h
      · cases h
      · next hseen =>
        obtain ⟨rest, hrest, h⟩ := bind_eq_ok.1 h
        cases h
        exact ⟨next, rest, hload, by simpa using hseen, hrest, rfl⟩
  · rintro ⟨template, nodes, partials, hparse, hexpand, h⟩
    refine bind_eq_ok.2 ⟨template, hparse, bind_eq_ok.2 ⟨_, hexpand, ?_⟩⟩
    cases hlayout : template.layout with
    | none => rw [hlayout] at h; rw [h]; rfl
    | some named =>
      rw [hlayout] at h
      obtain ⟨next, rest, hload, hseen, hrest, rfl⟩ := h
      refine bind_eq_ok.2 ⟨next, hload, ?_⟩
      rw [if_neg (by simp [hseen])]
      exact bind_eq_ok.2 ⟨rest, hrest, rfl⟩

/-- **Induction on a chain that can be followed.** Its last template has no layout, and every other
one is followed by its layout. -/
theorem layoutChain_induction (language : Language) (c : Catalog)
    {motive : ∀ (seen : List Path) (d : Document) (links : List Link),
      layoutChain language c seen d = .ok links → Prop}
    (last : ∀ {seen d template nodes partials}
      {hlinks : layoutChain language c seen d = .ok [⟨d, nodes, partials⟩]}
      (_hparse : parseTemplate language d.source = .ok template)
      (_hexpand : expandNodes language c [d.path] d.source template.nodes = .ok (nodes, partials))
      (_hlayout : template.layout = none),
      motive seen d [⟨d, nodes, partials⟩] hlinks)
    (extend : ∀ {seen d template nodes partials layout span next rest}
      {hlinks : layoutChain language c seen d = .ok (⟨d, nodes, partials⟩ :: rest)}
      (_hparse : parseTemplate language d.source = .ok template)
      (_hexpand : expandNodes language c [d.path] d.source template.nodes = .ok (nodes, partials))
      (_hlayout : template.layout = some (layout, span)) (_hload : c.load layout = .ok next)
      (_hnew : seen.any next.path.same = false)
      (hrest : layoutChain language c (next.path :: seen) next = .ok rest),
      motive (next.path :: seen) next rest hrest →
        motive seen d (⟨d, nodes, partials⟩ :: rest) hlinks)
    {seen : List Path} {d : Document} {links : List Link}
    (h : layoutChain language c seen d = .ok links) : motive seen d links h := by
  induction seen, d using layoutChain.induct c generalizing links with
  | case1 seen d ih =>
    obtain ⟨template, nodes, partials, hparse, hexpand, hend⟩ := layoutChain_eq_ok.1 h
    cases hlayout : template.layout with
    | none =>
      rw [hlayout] at hend
      subst hend
      exact last hparse hexpand hlayout
    | some named =>
      rw [hlayout] at hend
      obtain ⟨next, rest, hload, hnew, hrest, rfl⟩ := hend
      exact extend hparse hexpand hlayout hload hnew hrest
        (ih _ _ hload (by simpa using hnew) hrest)

@[simp] theorem chainDocuments_singleton (link : Link) :
    chainDocuments [link] = link.document :: link.partials :=
  List.flatMap_singleton _ _

@[simp] theorem chainDocuments_cons (link : Link) (links : List Link) :
    chainDocuments (link :: links) = link.document :: link.partials ++ chainDocuments links :=
  List.flatMap_cons

/-- The document that a chain starts with is among those it was read from. -/
theorem mem_documents_of_layoutChain {seen : List Path} {d : Document} {links : List Link}
    (h : layoutChain language c seen d = .ok links) : d ∈ chainDocuments links := by
  induction h using layoutChain_induction language c with
  | last => simp
  | extend => simp

theorem layoutChain_congr {seen : List Path} {d : Document} {links : List Link}
    (h : layoutChain language c₀ seen d = .ok links) (serves : c₀.Serves c (chainDocuments links)) :
    layoutChain language c seen d = .ok links := by
  induction h using layoutChain_induction language c₀ with
  | @last seen d template nodes partials _ hparse hexpand hlayout =>
    refine layoutChain_eq_ok.2 ⟨template, nodes, partials, hparse,
      expandNodes_congr hexpand (serves.mono (by simp +contextual)), ?_⟩
    rw [hlayout]
  | @extend seen d template nodes partials layout span next rest _ hparse hexpand hlayout hload hnew
      hrest ih =>
    have hsub : ∀ p ∈ chainDocuments rest, p ∈ chainDocuments (⟨d, nodes, partials⟩ :: rest) := by
      simp +contextual
    refine layoutChain_eq_ok.2 ⟨template, nodes, partials, hparse,
      expandNodes_congr hexpand (serves.mono (by simp +contextual)), ?_⟩
    rw [hlayout]
    exact ⟨next, rest, serves _ _ hload (hsub _ (mem_documents_of_layoutChain hrest)), hnew,
      ih (serves.mono hsub), rfl⟩

/-- Every document that a chain was read from was loaded, apart from the first one. -/
theorem layoutChain_loaded {seen : List Path} {d : Document} {links : List Link}
    (h : layoutChain language c seen d = .ok links) (hd : ∃ name, c.load name = .ok d) :
    ∀ p ∈ chainDocuments links, ∃ name, c.load name = .ok p := by
  induction h using layoutChain_induction language c with
  | last _ hexpand _ =>
    rw [chainDocuments_singleton]
    exact List.forall_mem_cons.2 ⟨hd, expandNodes_loaded hexpand⟩
  | @extend seen d template nodes partials layout span next rest _ _ hexpand _ hload _ _ ih =>
    have hfirst : ∀ p ∈ d :: partials, ∃ name, c.load name = .ok p :=
      List.forall_mem_cons.2 ⟨hd, expandNodes_loaded hexpand⟩
    exact List.forall_mem_append.2 ⟨hfirst, ih ⟨_, hload⟩⟩

/-! ### Dependencies -/

/-- Recording some partials keeps what is recorded, and adds nothing but partials. -/
theorem mem_foldl_recordPartial {docs : List Document} {known : List Dependency}
    {dep : Dependency} (h : dep ∈ docs.foldl recordPartial known) :
    dep ∈ known ∨ ∃ d ∈ docs, dep = d.dependency := by
  induction docs generalizing known with
  | nil => exact .inl h
  | cons d docs ih =>
    rcases ih h with h | ⟨d', hd', rfl⟩
    · unfold recordPartial at h
      split at h
      · exact .inl h
      · rcases List.mem_append.1 h with h | h
        · exact .inl h
        · exact .inr ⟨d, by simp, by simpa using h⟩
    · exact .inr ⟨d', List.mem_cons_of_mem _ hd', rfl⟩

/-- Recording goes on at the end of what is recorded. -/
theorem prefix_foldl_recordPartial (docs : List Document) (known : List Dependency) :
    known <+: docs.foldl recordPartial known := by
  induction docs generalizing known with
  | nil => exact List.prefix_refl _
  | cons d docs ih =>
    refine List.IsPrefix.trans ?_ (ih _)
    unfold recordPartial
    split
    · exact List.prefix_refl _
    · exact List.prefix_append _ _

/-- Each of some partials has a dependency with its path once they are recorded. -/
theorem exists_same_of_mem_partials {docs : List Document} {known : List Dependency}
    {d : Document} (h : d ∈ docs) :
    ∃ dep ∈ docs.foldl recordPartial known, dep.path.same d.path = true := by
  induction docs generalizing known with
  | nil => cases h
  | cons d' docs ih =>
    rcases List.mem_cons.1 h with rfl | h
    · suffices ∃ dep ∈ recordPartial known d, dep.path.same d.path = true by
        obtain ⟨dep, hdep, hsame⟩ := this
        exact ⟨dep, (prefix_foldl_recordPartial docs _).subset hdep, hsame⟩
      unfold recordPartial
      split
      · next hknown => simpa using hknown
      · exact ⟨d.dependency, by simp, Path.same_refl _⟩
    · exact ih h

theorem mem_foldl_recordLink {links : List Link} {known : List Dependency} {dep : Dependency}
    (h : dep ∈ links.foldl recordLink known) :
    dep ∈ known ∨ ∃ d ∈ chainDocuments links, dep = d.dependency := by
  induction links generalizing known with
  | nil => exact .inl h
  | cons link links ih =>
    rcases ih h with h | ⟨d, hd, rfl⟩
    · rcases mem_foldl_recordPartial h with h | ⟨d, hd, rfl⟩
      · rcases List.mem_append.1 h with h | h
        · exact .inl h
        · exact .inr ⟨link.document, by simp [chainDocuments], by simpa using h⟩
      · exact .inr ⟨d, by simp [chainDocuments, hd], rfl⟩
    · refine .inr ⟨d, ?_, rfl⟩
      exact List.mem_append_right _ hd

theorem prefix_recordLink (known : List Dependency) (link : Link) :
    known ++ [link.document.dependency] <+: recordLink known link :=
  prefix_foldl_recordPartial _ _

theorem prefix_foldl_recordLink (links : List Link) (known : List Dependency) :
    known <+: links.foldl recordLink known := by
  induction links generalizing known with
  | nil => exact List.prefix_refl _
  | cons link links ih =>
    exact ((List.prefix_append _ _).trans (prefix_recordLink known link)).trans (ih _)

theorem exists_same_of_mem_documents {links : List Link} {known : List Dependency} {d : Document}
    (h : d ∈ chainDocuments links) :
    ∃ dep ∈ links.foldl recordLink known, dep.path.same d.path = true := by
  induction links generalizing known with
  | nil => simp [chainDocuments] at h
  | cons link links ih =>
    rcases List.mem_append.1 h with h | h
    · suffices ∃ dep ∈ recordLink known link, dep.path.same d.path = true by
        obtain ⟨dep, hdep, hsame⟩ := this
        exact ⟨dep, (prefix_foldl_recordLink links _).subset hdep, hsame⟩
      rcases List.mem_cons.1 h with rfl | h
      · exact ⟨link.document.dependency, (prefix_recordLink known link).subset (by simp),
          Path.same_refl _⟩
      · exact exists_same_of_mem_partials h
    · exact ih h

/-- The first dependency is the template that the chain starts with. -/
theorem templatePath?_assemble {seen : List Path} {d : Document} {links : List Link}
    (h : layoutChain language c seen d = .ok links) (name : String) :
    (assemble name links).templatePath? = some d.path := by
  obtain ⟨template, nodes, partials, -, -, h⟩ := layoutChain_eq_ok.1 h
  obtain ⟨rest, rfl⟩ : ∃ rest, links = ⟨d, nodes, partials⟩ :: rest := by
    cases hlayout : template.layout with
    | none => rw [hlayout] at h; exact ⟨[], h⟩
    | some named =>
      rw [hlayout] at h
      obtain ⟨next, rest, -, -, -, rfl⟩ := h
      exact ⟨rest, rfl⟩
  obtain ⟨more, hmore⟩ : [d.dependency] <+: (assemble name (⟨d, nodes, partials⟩ :: rest)).dependencies :=
    (prefix_recordLink [] ⟨d, nodes, partials⟩).trans (prefix_foldl_recordLink rest _)
  rw [Artifact.templatePath?, ← hmore]
  rfl

/-! ### Compiling -/

/-- A template compiles exactly if it can be loaded and its chain can be followed. -/
theorem compile_eq_ok {name : String} {a : Artifact} :
    compile language c name = .ok a ↔
      ∃ d links, c.load name = .ok d ∧ layoutChain language c [d.path] d = .ok links ∧
        a = assemble name links := by
  constructor
  · intro h
    obtain ⟨d, hload, h⟩ := bind_eq_ok.1 h
    obtain ⟨links, hlinks, h⟩ := bind_eq_ok.1 h
    cases h
    exact ⟨d, links, hload, hlinks, rfl⟩
  · rintro ⟨d, links, hload, hlinks, rfl⟩
    exact bind_eq_ok.2 ⟨d, hload, bind_eq_ok.2 ⟨links, hlinks, rfl⟩⟩

/-- **Compiling is local.** What was compiled over a catalog was read from documents of it, each of
which has a dependency with its path, and any catalog that serves these documents gives the same
artifact. -/
theorem compile_local {name : String} {a : Artifact} (h : compile language c₀ name = .ok a) :
    ∃ documents : List Document,
      (∀ d ∈ documents, ∃ n, c₀.load n = .ok d) ∧
      (∀ d ∈ documents, ∃ dep ∈ a.dependencies, dep.path.same d.path = true) ∧
      (∀ dep ∈ a.dependencies, ∃ d ∈ documents, dep = d.dependency) ∧
      (∃ d ∈ documents, c₀.load name = .ok d ∧ a.templatePath? = some d.path) ∧
      ∀ c, c₀.Serves c documents → compile language c name = .ok a := by
  obtain ⟨d, links, hload, hlinks, rfl⟩ := compile_eq_ok.1 h
  have hd : d ∈ chainDocuments links := mem_documents_of_layoutChain hlinks
  refine ⟨chainDocuments links, layoutChain_loaded hlinks ⟨name, hload⟩,
    fun d hd => exists_same_of_mem_documents hd, fun dep hdep => ?_, ⟨d, hd, hload, ?_⟩,
    fun c serves => ?_⟩
  · rcases mem_foldl_recordLink hdep with h | h
    · cases h
    · exact h
  · exact templatePath?_assemble hlinks name
  · exact compile_eq_ok.2 ⟨d, links, serves name d hload hd, layoutChain_congr hlinks serves, rfl⟩

end Hashmark
