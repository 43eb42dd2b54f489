import Hashmark.Proofs.Compiling.Locality

/-!
# Trees with their partials in place

What a tree is once every partial stands in the place of the node that connects it, said without the
stack of paths that stops a circle: a partial is replaced by the nodes of its template, in which the
partials are replaced in turn (`Spliced`). What compiling makes of nodes is such a tree
(`expandNodes_spliced`), there is at most one for given nodes, and it is the same over every catalog
that keeps the templates without a layout as they are (`Spliced.agree`).
-/

namespace Hashmark

/-- `Spliced language c nodes out`: the nodes `out` are `nodes` with every partial in place, at any
depth. A choice is taken apart branch by branch, the last body first. -/
inductive Spliced (language : Language) (c : Catalog) : List Node → List Node → Prop
  | nil : Spliced language c [] []
  | leaf {node : Node} {nodes out : List Node} (hleaf : node.isLeaf = true)
      (hnodes : Spliced language c nodes out) : Spliced language c (node :: nodes) (node :: out)
  | connect {name : String} {d : Document} {template : Template} {tree nodes out : List Node}
      (hload : c.load name = .ok d) (hparse : parseTemplate language d.source = .ok template)
      (hlayout : template.layout = none) (htree : Spliced language c template.nodes tree)
      (hnodes : Spliced language c nodes out) :
      Spliced language c (.connect name :: nodes) (tree ++ out)
  | forEach {source : Expr} {key : Option String} {value : String} {body tree nodes out : List Node}
      (hbody : Spliced language c body tree) (hnodes : Spliced language c nodes out) :
      Spliced language c (.forEach source key value body :: nodes)
        (.forEach source key value tree :: out)
  | block {name : String} {body tree nodes out : List Node} (hbody : Spliced language c body tree)
      (hnodes : Spliced language c nodes out) :
      Spliced language c (.block name body :: nodes) (.block name tree :: out)
  | noBranch {nodes out : List Node} (hnodes : Spliced language c nodes out) :
      Spliced language c (.choose [] none :: nodes) (.choose [] none :: out)
  | otherwise {body tree nodes out : List Node} (hbody : Spliced language c body tree)
      (hnodes : Spliced language c nodes out) :
      Spliced language c (.choose [] (some body) :: nodes) (.choose [] (some tree) :: out)
  | branch {condition : Expr} {body tree : List Node} {branches trees : List (Expr × List Node)}
      {last lastTree : Option (List Node)} {nodes out : List Node}
      (hbody : Spliced language c body tree)
      (hrest :
        Spliced language c (.choose branches last :: nodes) (.choose trees lastTree :: out)) :
      Spliced language c (.choose ((condition, body) :: branches) last :: nodes)
        (.choose ((condition, tree) :: trees) lastTree :: out)

variable {language : Language} {c c' : Catalog} {inside : List Path} {source : Source}

/-- **Expanding splices.** The nodes that compiling puts in the place of some nodes are these with
every partial in place. -/
theorem expandNodes_spliced {nodes out : List Node} {docs : List Document}
    (h : expandNodes language c inside source nodes = .ok (out, docs)) :
    Spliced language c nodes out := by
  -- a node is spliced in front of anything, and branches in front of any last body
  refine (expand_induction language c
    (P := fun _ _ node out _ => ∀ nodes rest, Spliced language c nodes rest →
      Spliced language c (node :: nodes) (out ++ rest))
    (Q := fun _ _ branches out _ => ∀ last lastTree nodes rest,
      Spliced language c (.choose [] last :: nodes) (.choose [] lastTree :: rest) →
      Spliced language c (.choose branches last :: nodes) (.choose out lastTree :: rest))
    (R := fun _ _ nodes out _ => Spliced language c nodes out)
    ?connect ?choose_none ?choose_some ?forEach ?block ?leaf ?no_branches ?branch ?no_nodes
    ?nodes).2.2 _ _ _ _ _ h
  case connect =>
    intro inside source name d template out partials hload _ hparse hlayout htree nodes rest hnodes
    exact .connect hload hparse hlayout htree hnodes
  case choose_none =>
    intro inside source branches branches' partials hbranches nodes rest hnodes
    exact hbranches none none nodes rest (.noBranch hnodes)
  case choose_some =>
    intro inside source branches branches' partials body body' more hbranches hbody nodes rest
      hnodes
    exact hbranches (some body) (some body') nodes rest (.otherwise hbody hnodes)
  case forEach =>
    intro inside source iterable key value body body' partials hbody nodes rest hnodes
    exact .forEach hbody hnodes
  case block =>
    intro inside source name body body' partials hbody nodes rest hnodes
    exact .block hbody hnodes
  case leaf =>
    intro inside source node hleaf nodes rest hnodes
    exact .leaf hleaf hnodes
  case no_branches =>
    intro inside source last lastTree nodes rest hlast
    exact hlast
  case branch =>
    intro inside source condition body body' partials branches branches' more hbody hbranches last
      lastTree nodes rest hlast
    exact .branch hbody (hbranches last lastTree nodes rest hlast)
  case no_nodes => exact .nil
  case nodes =>
    intro inside source node out partials nodes out' more hnode hnodes
    exact hnode nodes out' hnodes

/-- A choice in front of other nodes stays one node. -/
theorem Spliced.split_choose {branches : List (Expr × List Node)} {last : Option (List Node)}
    {nodes out : List Node} (h : Spliced language c (.choose branches last :: nodes) out) :
    ∃ trees lastTree rest, out = .choose trees lastTree :: rest ∧
      Spliced language c [.choose branches last] [.choose trees lastTree] ∧
      Spliced language c nodes rest := by
  generalize hwhole : Node.choose branches last :: nodes = whole at h
  induction h generalizing branches last with
  | nil | connect | forEach | block => cases hwhole
  | leaf hleaf => cases hwhole; cases hleaf
  | noBranch hnodes => cases hwhole; exact ⟨_, _, _, rfl, .noBranch .nil, hnodes⟩
  | otherwise hbody hnodes => cases hwhole; exact ⟨_, _, _, rfl, .otherwise hbody .nil, hnodes⟩
  | branch hbody _ _ ih =>
    cases hwhole
    obtain ⟨trees, lastTree, rest, hout, hchoice, hnodes⟩ := ih rfl
    cases hout
    exact ⟨_, _, _, rfl, .branch hbody hchoice, hnodes⟩

/-- The first node of a list and the others are spliced each for itself. -/
theorem Spliced.split {node : Node} {nodes out : List Node}
    (h : Spliced language c (node :: nodes) out) :
    ∃ first rest, out = first ++ rest ∧ Spliced language c [node] first ∧
      Spliced language c nodes rest := by
  cases h with
  | leaf hleaf hnodes => exact ⟨[_], _, rfl, .leaf hleaf .nil, hnodes⟩
  | @connect _ _ _ tree _ _ hload hparse hlayout htree hnodes =>
    -- a partial is the one node that may become several
    have hsingle := Spliced.connect hload hparse hlayout htree .nil
    rw [List.append_nil] at hsingle
    exact ⟨tree, _, rfl, hsingle, hnodes⟩
  | forEach hbody hnodes => exact ⟨[_], _, rfl, .forEach hbody .nil, hnodes⟩
  | block hbody hnodes => exact ⟨[_], _, rfl, .block hbody .nil, hnodes⟩
  | noBranch hnodes => exact ⟨[_], _, rfl, .noBranch .nil, hnodes⟩
  | otherwise hbody hnodes => exact ⟨[_], _, rfl, .otherwise hbody .nil, hnodes⟩
  | branch hbody hrest =>
    obtain ⟨trees, lastTree, rest, hout, hchoice, hnodes⟩ := hrest.split_choose
    cases hout
    exact ⟨[_], _, rfl, .branch hbody hchoice, hnodes⟩

/-- Whether `c'` has every template of `c` that may be a partial, with the same source. -/
def Catalog.SamePartials (language : Language) (c c' : Catalog) : Prop :=
  ∀ name d template, c.load name = .ok d → parseTemplate language d.source = .ok template →
    template.layout = none → ∃ d', c'.load name = .ok d' ∧ d'.source = d.source

theorem Catalog.SamePartials.refl (language : Language) (c : Catalog) :
    c.SamePartials language c :=
  fun _ d _ hload _ _ => ⟨d, hload, rfl⟩

/-- **One tree.** Over catalogs with the same partials, the same nodes are spliced in one way. -/
theorem Spliced.agree (hsame : c.SamePartials language c') {nodes out out' : List Node}
    (h : Spliced language c nodes out) (h' : Spliced language c' nodes out') : out = out' := by
  induction h generalizing out' with
  | nil => cases h'; rfl
  | leaf hleaf _ ih =>
    cases h' with
    | leaf _ hnodes' => rw [ih hnodes']
    | connect | forEach | block | noBranch | otherwise | branch => cases hleaf
  | connect hload hparse hlayout _ _ ihtree ih =>
    -- both catalogs load the name as one source, which is one template
    cases h' with
    | leaf hleaf => cases hleaf
    | connect hload' hparse' _ htree' hnodes' =>
      obtain ⟨d, hd, hsource⟩ := hsame _ _ _ hload hparse hlayout
      cases hload'.symm.trans hd
      rw [hsource] at hparse'
      cases hparse'.symm.trans hparse
      rw [ihtree htree', ih hnodes']
  | forEach _ _ ihbody ih =>
    cases h' with
    | leaf hleaf => cases hleaf
    | forEach hbody' hnodes' => rw [ihbody hbody', ih hnodes']
  | block _ _ ihbody ih =>
    cases h' with
    | leaf hleaf => cases hleaf
    | block hbody' hnodes' => rw [ihbody hbody', ih hnodes']
  | noBranch _ ih =>
    cases h' with
    | leaf hleaf => cases hleaf
    | noBranch hnodes' => rw [ih hnodes']
  | otherwise _ _ ihbody ih =>
    cases h' with
    | leaf hleaf => cases hleaf
    | otherwise hbody' hnodes' => rw [ihbody hbody', ih hnodes']
  | branch _ _ ihbody ih =>
    cases h' with
    | leaf hleaf => cases hleaf
    | branch hbody' hrest' =>
      cases ih hrest'
      rw [ihbody hbody']

end Hashmark
