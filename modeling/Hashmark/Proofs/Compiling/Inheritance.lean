import Hashmark.Catalog.Library
import Hashmark.Engine
import Hashmark.Proofs.Caching.History
import Hashmark.Proofs.Compiling.Pages
import Hashmark.Proofs.Compiling.Splicing
import Hashmark.Proofs.Rendering.Comparison

/-!
# Inheritance

A chain of layouts leads from a template to one that extends nothing (`Inherits`). The artifact has
the tree of that one as its body and the outermost blocks of the others as its sections, in the
order of the chain. So what a block or a yield shows is looked up template by template
(`inheritedBody?`), and the rest of a template that extends a layout does not matter: with other
content between its blocks, the artifact is the same but for its dependencies (`compile_inherits`).
-/

namespace Hashmark

/-- The blocks among the outermost nodes of a tree, as overrides. -/
def outermostBlocks (tree : List Node) : List Override :=
  tree.filterMap Node.override?

/-- The body of the first block of a name in the first of some trees that has such a block among
its outermost nodes. -/
def inheritedBody? (trees : List (List Node)) (name : String) : Option (List Node) :=
  trees.findSome? fun tree => overrideOf (outermostBlocks tree) name

/-- `Inherits language c d trees body`: a chain of layouts that starts with the document `d`. The
tree of its last template is `body`, those of the templates before it are `trees`, all with their
partials in place. -/
inductive Inherits (language : Language) (c : Catalog) :
    Document → List (List Node) → List Node → Prop
  | last {d : Document} {template : Template} {body : List Node}
      (hparse : parseTemplate language d.source = .ok template) (hlayout : template.layout = none)
      (hbody : Spliced language c template.nodes body) : Inherits language c d [] body
  | extend {d next : Document} {template : Template} {layout : String} {span : Span}
      {tree body : List Node} {trees : List (List Node)}
      (hparse : parseTemplate language d.source = .ok template)
      (hlayout : template.layout = some (layout, span))
      (htree : Spliced language c template.nodes tree) (hload : c.load layout = .ok next)
      (hrest : Inherits language c next trees body) : Inherits language c d (tree :: trees) body

section Chains

variable {language : Language} {c c' : Catalog} {d d' : Document} {trees trees' : List (List Node)}
  {body body' : List Node}

/-- There is only one chain from a document. -/
theorem Inherits.unique (h : Inherits language c d trees body)
    (h' : Inherits language c d trees' body') : trees' = trees ∧ body' = body := by
  have hsame := Catalog.SamePartials.refl language c
  induction h generalizing trees' with
  | last hparse hlayout hbody =>
    cases h' with
    | last hparse' _ hbody' =>
      cases hparse.symm.trans hparse'
      exact ⟨rfl, (hbody.agree hsame hbody').symm⟩
    | extend hparse' hlayout' =>
      cases hparse.symm.trans hparse'
      cases hlayout.symm.trans hlayout'
  | extend hparse hlayout htree hload _ ih =>
    cases h' with
    | last hparse' hlayout' =>
      cases hparse.symm.trans hparse'
      cases hlayout.symm.trans hlayout'
    | extend hparse' hlayout' htree' hload' hrest' =>
      cases hparse.symm.trans hparse'
      cases hlayout.symm.trans hlayout'
      cases hload.symm.trans hload'
      obtain ⟨htrees, hbody⟩ := ih hrest'
      rw [htree.agree hsame htree', htrees]
      exact ⟨rfl, hbody⟩

/-- What compiling reads is the chain of the document. -/
theorem layoutChain_inherits {seen : List Path} {links : List Link}
    (h : layoutChain language c seen d = .ok links) :
    Inherits language c d (links.dropLast.map Link.nodes)
      ((links.getLast?.map Link.nodes).getD []) := by
  induction h using layoutChain_induction language c with
  | last hparse hexpand hlayout => exact .last hparse hlayout (expandNodes_spliced hexpand)
  | @extend seen d template nodes partials layout span next rest _ hparse hexpand hlayout hload _
      hrest ih =>
    -- the last link is not this one
    have hne : rest ≠ [] := by
      rintro rfl
      cases mem_documents_of_layoutChain hrest
    rw [List.dropLast_cons_of_ne_nil hne, List.getLast?_cons_of_ne_nil hne]
    exact .extend hparse hlayout (expandNodes_spliced hexpand) hload ih

end Chains

/-! ### Look-ups along a chain -/

/-- Looking a name up among the outermost blocks of all trees is looking it up tree by tree. -/
theorem overrideOf_flatMap (trees : List (List Node)) (name : String) :
    overrideOf (trees.flatMap outermostBlocks) name = inheritedBody? trees name := by
  induction trees with
  | nil => rfl
  | cons tree trees ih =>
    have hcons : inheritedBody? (tree :: trees) name =
        (overrideOf (outermostBlocks tree) name).or (inheritedBody? trees name) := by
      rw [inheritedBody?, List.findSome?_cons]
      cases overrideOf (outermostBlocks tree) name <;> rfl
    rw [hcons, ← ih, List.flatMap_cons]
    unfold overrideOf
    rw [List.find?_append]
    cases (outermostBlocks tree).find? (·.name = name) <;> rfl

/-- A yield shows the override of its name, or else its default. -/
theorem render_yield {t : Setting} {active : List String} {name : String} (h : name ∉ active)
    (s : Scopes) (default : Option String) :
    Node.render t active s (.yield name default) =
      match overrideOf t.overrides name with
      | some body => Node.renderList t (name :: active) s body
      | none => .ok (default.toList.map escapeText) := by
  cases ho : overrideOf t.overrides name with
  | some body => exact render_yield_override h ho default
  | none => exact render_yield_default ho default

/-- A block shows the override of its name, or else its own body. -/
theorem render_block {t : Setting} {active : List String} {name : String} (h : name ∉ active)
    (s : Scopes) (own : List Node) :
    Node.render t active s (.block name own) =
      Node.renderList t (name :: active) s ((overrideOf t.overrides name).getD own) := by
  cases ho : overrideOf t.overrides name with
  | some body => exact render_block_override h ho own
  | none => exact render_block_own h ho own

/-! ### Content between the blocks -/

/-- Whether a node adds no block to the outermost nodes: it is none, and if it connects a partial,
the tree of the partial has none. -/
def Node.IsIdle (language : Language) (c : Catalog) (node : Node) : Prop :=
  ∀ out, Spliced language c [node] out → outermostBlocks out = []

/-- `SameBlocks language c c' nodes nodes'`: apart from nodes that are idle over their catalog, the
two lists are the same. -/
inductive SameBlocks (language : Language) (c c' : Catalog) : List Node → List Node → Prop
  | nil : SameBlocks language c c' [] []
  | keep {node : Node} {nodes nodes' : List Node} (h : SameBlocks language c c' nodes nodes') :
      SameBlocks language c c' (node :: nodes) (node :: nodes')
  | drop {node : Node} {nodes nodes' : List Node} (hidle : node.IsIdle language c)
      (h : SameBlocks language c c' nodes nodes') : SameBlocks language c c' (node :: nodes) nodes'
  | add {node : Node} {nodes nodes' : List Node} (hidle : node.IsIdle language c')
      (h : SameBlocks language c c' nodes nodes') : SameBlocks language c c' nodes (node :: nodes')

/-- Whether two documents have the same source, or extend the same layout with the same blocks. -/
def Document.Retouched (language : Language) (c c' : Catalog) (d d' : Document) : Prop :=
  d'.source = d.source ∨
    ∃ template template' layout span span',
      parseTemplate language d.source = .ok template ∧
      parseTemplate language d'.source = .ok template' ∧
      template.layout = some (layout, span) ∧ template'.layout = some (layout, span') ∧
      SameBlocks language c c' template.nodes template'.nodes

/-- Whether `c'` has every template of `c`, but for the content of extending templates between
their blocks. -/
def Catalog.Retouched (language : Language) (c c' : Catalog) : Prop :=
  ∀ name d, c.load name = .ok d → ∃ d', c'.load name = .ok d' ∧ d.Retouched language c c' d'

section Retouching

variable {language : Language} {c c' : Catalog} {d d' : Document} {trees trees' : List (List Node)}
  {body body' : List Node}

/-- A template without a layout is not retouched. -/
theorem Document.Retouched.source_eq {template : Template}
    (h : d.Retouched language c c' d') (hparse : parseTemplate language d.source = .ok template)
    (hlayout : template.layout = none) : d'.source = d.source := by
  rcases h with h | ⟨template₁, _, layout, span, _, hparse₁, -, hlayout₁, -⟩
  · exact h
  · cases hparse.symm.trans hparse₁
    cases hlayout.symm.trans hlayout₁

theorem Catalog.Retouched.samePartials (h : c.Retouched language c') :
    c.SamePartials language c' := by
  intro name d template hload hparse hlayout
  obtain ⟨d', hload', hd⟩ := h name d hload
  exact ⟨d', hload', hd.source_eq hparse hlayout⟩

/-- Lists with the same blocks have the same outermost blocks once their partials are in place. -/
theorem SameBlocks.outermostBlocks_eq (hsame : c.SamePartials language c')
    {nodes nodes' out out' : List Node} (h : SameBlocks language c c' nodes nodes')
    (hout : Spliced language c nodes out) (hout' : Spliced language c' nodes' out') :
    outermostBlocks out = outermostBlocks out' := by
  induction h generalizing out out' with
  | nil =>
    cases hout
    cases hout'
    rfl
  | keep _ ih =>
    obtain ⟨first, rest, rfl, hfirst, hrest⟩ := hout.split
    obtain ⟨first', rest', rfl, hfirst', hrest'⟩ := hout'.split
    obtain rfl := hfirst.agree hsame hfirst'
    have := ih hrest hrest'
    simp_all [outermostBlocks]
  | drop hidle _ ih =>
    obtain ⟨first, rest, rfl, hfirst, hrest⟩ := hout.split
    have hnone := hidle first hfirst
    have := ih hrest hout'
    simp_all [outermostBlocks]
  | add hidle _ ih =>
    obtain ⟨first, rest, rfl, hfirst, hrest⟩ := hout'.split
    have hnone := hidle first hfirst
    have := ih hout hrest
    simp_all [outermostBlocks]

/-- The chain over a retouched catalog has the same outermost blocks and the same last tree. -/
theorem Inherits.agree (hretouched : c.Retouched language c')
    (h : Inherits language c d trees body) (hd : d.Retouched language c c' d')
    (h' : Inherits language c' d' trees' body') :
    trees.flatMap outermostBlocks = trees'.flatMap outermostBlocks ∧ body = body' := by
  have hsame := hretouched.samePartials
  induction h generalizing d' trees' with
  | @last d template body hparse hlayout hbody =>
    -- a template without a layout has the same source over both catalogs
    rw [← hd.source_eq hparse hlayout] at hparse
    cases h' with
    | last hparse' _ hbody' =>
      cases hparse.symm.trans hparse'
      exact ⟨rfl, hbody.agree hsame hbody'⟩
    | extend hparse' hlayout' =>
      cases hparse.symm.trans hparse'
      cases hlayout.symm.trans hlayout'
  | @extend d next template layout span tree body trees hparse hlayout htree hload _ ih =>
    -- either way the templates extend one layout and have the same blocks
    obtain ⟨template', span', hparse', hlayout', hblocks⟩ : ∃ template' span',
        parseTemplate language d'.source = .ok template' ∧
        template'.layout = some (layout, span') ∧
        ∀ tree', Spliced language c' template'.nodes tree' →
          outermostBlocks tree = outermostBlocks tree' := by
      rcases hd with hsource | ⟨template₁, template', layout₁, span₁, span', hparse₁, hparse',
        hlayout₁, hlayout', hblocks⟩
      · refine ⟨template, span, hsource ▸ hparse, hlayout, fun tree' htree' => ?_⟩
        rw [htree.agree hsame htree']
      · cases hparse.symm.trans hparse₁
        cases hlayout.symm.trans hlayout₁
        exact ⟨template', span', hparse', hlayout', fun _ htree' =>
          hblocks.outermostBlocks_eq hsame htree htree'⟩
    cases h' with
    | last hparse₂ hlayout₂ =>
      cases hparse'.symm.trans hparse₂
      cases hlayout'.symm.trans hlayout₂
    | extend hparse₂ hlayout₂ htree₂ hload₂ hrest₂ =>
      cases hparse'.symm.trans hparse₂
      cases hlayout'.symm.trans hlayout₂
      -- the layouts are loaded under one name, so they are retouched themselves
      obtain ⟨next', hnext', hretouch⟩ := hretouched _ _ hload
      cases hload₂.symm.trans hnext'
      obtain ⟨htrees, hbody⟩ := ih hretouch hrest₂
      rw [List.flatMap_cons, List.flatMap_cons, hblocks _ htree₂, htrees]
      exact ⟨rfl, hbody⟩

end Retouching

/-- **Inheritance.** If a template compiles, there is one chain of layouts from it. The body of the
artifact is the last tree of the chain, its sections are the outermost blocks of the trees before it
in order, and each yield and each block shows the first block of its name in the first of these
trees that has one. Other content between the blocks of extending templates changes nothing but the
dependencies. -/
theorem compile_inherits {language : Language} {c : Catalog} {name : String} {d : Document}
    {a : Artifact} (hload : c.load name = .ok d) (h : compile language c name = .ok a) :
    ∃ trees,
      (∀ trees' body, Inherits language c d trees' body ↔ trees' = trees ∧ body = a.body) ∧
      a.sections = trees.flatMap outermostBlocks ∧
      (∀ (callables : Callables) (active : List String) (s : Scopes) (part : String),
        part ∉ active →
        (∀ default, Node.render ⟨callables, a.sections⟩ active s (.yield part default) =
          match inheritedBody? trees part with
          | some body => Node.renderList ⟨callables, a.sections⟩ (part :: active) s body
          | none => .ok (default.toList.map escapeText)) ∧
        ∀ own, Node.render ⟨callables, a.sections⟩ active s (.block part own) =
          Node.renderList ⟨callables, a.sections⟩ (part :: active) s
            ((inheritedBody? trees part).getD own)) ∧
      ∀ c' a', c.Retouched language c' → compile language c' name = .ok a' →
        a' = { a with dependencies := a'.dependencies } ∧
        ∀ callables s, a'.render callables s = a.render callables s := by
  obtain ⟨d₁, links, hload₁, hlinks, rfl⟩ := compile_eq_ok.1 h
  cases hload.symm.trans hload₁
  have hchain := layoutChain_inherits hlinks
  have hsections : (assemble name links).sections =
      (links.dropLast.map Link.nodes).flatMap outermostBlocks := by
    rw [List.flatMap_map]
    rfl
  refine ⟨links.dropLast.map Link.nodes, fun trees' body => ⟨hchain.unique, ?_⟩, hsections,
    fun callables active s part hpart => ⟨fun default => ?_, fun own => ?_⟩,
    fun c' a' hretouched h' => ?_⟩
  · rintro ⟨rfl, rfl⟩
    exact hchain
  -- what is rendered is looked up in the sections, which are the blocks of the chain in order
  · rw [render_yield hpart, hsections, overrideOf_flatMap]
  · rw [render_block hpart, hsections, overrideOf_flatMap]
  · obtain ⟨d', hd', hretouch⟩ := hretouched _ _ hload
    obtain ⟨d₂, links', hload₂, hlinks', rfl⟩ := compile_eq_ok.1 h'
    cases hd'.symm.trans hload₂
    obtain ⟨hblocks, hbody⟩ := hchain.agree hretouched hretouch (layoutChain_inherits hlinks')
    rw [List.flatMap_map, List.flatMap_map] at hblocks
    have hsections' : (assemble name links').sections = (assemble name links).sections :=
      hblocks.symm
    have hbody' : (assemble name links').body = (assemble name links).body := hbody.symm
    refine ⟨?_, fun callables s => ?_⟩
    · show Artifact.mk _ _ _ _ _ = Artifact.mk _ _ _ _ _
      congr 1
    · simp only [Artifact.render, hsections', hbody']
      rfl

/-! ### A page, its layout and an edit of the page -/

/-- A language in which `#x` is a block and `#y` is a yield of the same name. -/
def partLanguage : Language :=
  ⟨[("x", ⟨.none, fun _ => .ok (.block "t" [.text "a"])⟩),
    ("y", ⟨.none, fun _ => .ok (.yield "t" none)⟩)], .empty⟩

theorem parse_yield : parseTemplate partLanguage ⟨"b", "#y"⟩ = .ok ⟨none, [.yield "t" none]⟩ := by
  cbv

theorem parse_extend : parseTemplate partLanguage ⟨"p", "#extends['b']#x"⟩ =
    .ok ⟨some ("b", ⟨0, 13⟩), [.block "t" [.text "a"]]⟩ := by
  cbv

theorem parse_extend_text : parseTemplate partLanguage ⟨"p", "#extends['b']c#x"⟩ =
    .ok ⟨some ("b", ⟨0, 13⟩), [.text "c", .block "t" [.text "a"]]⟩ := by
  cbv

theorem isIdle_text (language : Language) (c : Catalog) (content : String) :
    (Node.text content).IsIdle language c := by
  intro out hout
  cases hout with
  | leaf _ hnil => cases hnil; rfl

/-- A page shows its block where its layout yields, also when there is text in front of the
block. -/
theorem compile_inherits_edited_page :
    let l := (Library.empty.set "b" "#y").set "p" "#extends['b']#x"
    let l' := l.set "p" "#extends['b']c#x"
    ∃ a, compile partLanguage l.catalog "p" = .ok a ∧
      Node.render ⟨.empty, a.sections⟩ [] .empty (.yield "t" none) = .ok ["a"] ∧
      ∃ a', compile partLanguage l'.catalog "p" = .ok a' ∧ a'.dependencies ≠ a.dependencies ∧
        ∀ callables s, a'.render callables s = a.render callables s := by
  intro l l'
  let base : Document := ⟨⟨"b"⟩, ⟨"b", "#y"⟩, .ofSeconds 1⟩
  let page : Document := ⟨⟨"p"⟩, ⟨"p", "#extends['b']#x"⟩, .ofSeconds 2⟩
  let edited : Document := ⟨⟨"p"⟩, ⟨"p", "#extends['b']c#x"⟩, .ofSeconds 3⟩
  have hpage : l.catalog.load "p" = .ok page := rfl
  have hedited : l'.catalog.load "p" = .ok edited := rfl
  have hbase : l.catalog.load "b" = .ok base := rfl
  have hbase' : l'.catalog.load "b" = .ok base := rfl
  have hother : [page.path].any base.path.same = false := by decide
  have hlast : ∀ c seen, layoutChain partLanguage c seen base =
      .ok [⟨base, [.yield "t" none], []⟩] := fun c seen =>
    layoutChain_eq_ok.2 ⟨_, _, _, parse_yield, expandNodes_alone _ _ _ _ _ rfl, rfl⟩
  have hcompile := compile_eq_ok.2 ⟨page, _, hpage, layoutChain_eq_ok.2 ⟨_, _, _, parse_extend,
    expandNodes_alone _ _ _ _ _ rfl, base, _, hbase, hother, hlast _ _, rfl⟩, rfl⟩
  have hcompile' := compile_eq_ok.2 ⟨edited, _, hedited, layoutChain_eq_ok.2 ⟨_, _, _,
    parse_extend_text, expandNodes_alone _ _ _ _ _ rfl, base, _, hbase', hother, hlast _ _, rfl⟩,
    rfl⟩
  have hretouched : l.catalog.Retouched partLanguage l'.catalog := by
    intro name d hload
    obtain ⟨text, tick, hfind, hd⟩ := Library.load_eq_ok.1 hload
    by_cases hname : name = "p"
    · subst hname
      rw [Except.ok.inj (hload.symm.trans hpage)]
      exact ⟨edited, hedited, .inr ⟨_, _, _, _, _, parse_extend, parse_extend_text, rfl, rfl,
        .add (isIdle_text _ _ _) (.keep .nil)⟩⟩
    · refine ⟨d, Library.load_eq_ok.2 ⟨text, tick, ?_, hd⟩, .inl rfl⟩
      rw [Library.find?_set, if_neg hname]
      exact hfind
  obtain ⟨trees, hchain, -, hshown, hsame⟩ := compile_inherits hpage hcompile
  have htrees : Inherits partLanguage l.catalog page [[.block "t" [.text "a"]]] [.yield "t" none] :=
    .extend parse_extend rfl (.block (.leaf rfl .nil) .nil) hbase
      (.last parse_yield rfl (.leaf rfl .nil))
  obtain ⟨rfl, -⟩ := (hchain _ _).1 htrees
  refine ⟨_, hcompile, ?_, _, hcompile', by decide, (hsame _ _ hretouched hcompile').2⟩
  rw [(hshown .empty [] .empty "t" (by simp)).1]
  simp [inheritedBody?, outermostBlocks, Node.override?, overrideOf, Node.renderList, Node.render,
    bind, Except.bind, pure, Except.pure]

end Hashmark
