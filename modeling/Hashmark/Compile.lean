import Hashmark.Artifact.Basic
import Hashmark.Catalog.Basic
import Hashmark.Template

/-!
# Compiling templates

A template names its layout, which may name a layout in turn: the chain ends at a template without
one, whose nodes become the body of the artifact. The other templates of the chain contribute their
outermost blocks as overrides; all else in them is dropped. Partials are put in the place of the
nodes that connect them, also inside of partials.

A template must not be in its own chain, and a partial not inside itself. So both recursions see a
new path at every step, and `Catalog.unseen` decreases.
-/

namespace Hashmark

/-- The place of the first occurrence of a name in a source, or else its start. -/
def Source.occurrence (s : Source) (name : String) : Span :=
  match Text.cut name.toList s.text.toList with
  | some (before, _) => ⟨byteCount before, byteCount before + name.utf8ByteSize⟩
  | none => ⟨0, 0⟩

mutual

/-- A node of `source` with its partials in place, and the partials that were loaded for it, in
order. The paths in `inside` are those of the template and the partials around the node. -/
def expandNode (language : Language) (catalog : Catalog) (inside : List Path) (source : Source)
    (node : Node) : Except TemplateError (List Node × List Document) :=
  match node with
  | .connect name =>
    match _hload : catalog.load name with
    | .error e => .error e
    | .ok partialDoc =>
      if _hinside : inside.any partialDoc.path.same then
        .error (source.malformed (.circularConnect name) (source.occurrence name))
      else do
        let template ← parseTemplate language partialDoc.source
        match template.layout with
        | some (_, span) => throw (partialDoc.source.malformed .extendsInPartial span)
        | none =>
          let (nodes, partials) ← expandNodes language catalog (partialDoc.path :: inside)
            partialDoc.source template.nodes
          pure (nodes, partialDoc :: partials)
  | .choose branches otherwise => do
    let (branches, partials) ← expandBranches language catalog inside source branches
    match otherwise with
    | some body =>
      let (body, more) ← expandNodes language catalog inside source body
      pure ([.choose branches (some body)], partials ++ more)
    | none => pure ([.choose branches none], partials)
  | .forEach iterable key value body => do
    let (body, partials) ← expandNodes language catalog inside source body
    pure ([.forEach iterable key value body], partials)
  | .block name body => do
    let (body, partials) ← expandNodes language catalog inside source body
    pure ([.block name body], partials)
  | node => .ok ([node], [])
termination_by (catalog.unseen inside, sizeOf node)
decreasing_by
  · exact Prod.Lex.left _ _ (Catalog.unseen_cons_lt _hload (by simpa using _hinside))
  all_goals decreasing_tactic

/-- Several nodes with their partials in place. -/
def expandNodes (language : Language) (catalog : Catalog) (inside : List Path) (source : Source)
    (nodes : List Node) : Except TemplateError (List Node × List Document) :=
  match nodes with
  | [] => .ok ([], [])
  | node :: nodes => do
    let (first, partials) ← expandNode language catalog inside source node
    let (rest, more) ← expandNodes language catalog inside source nodes
    pure (first ++ rest, partials ++ more)
termination_by (catalog.unseen inside, sizeOf nodes)

/-- The branches of a choice with their partials in place. -/
def expandBranches (language : Language) (catalog : Catalog) (inside : List Path)
    (source : Source) (branches : List (Expr × List Node)) :
    Except TemplateError (List (Expr × List Node) × List Document) :=
  match branches with
  | [] => .ok ([], [])
  | (condition, body) :: branches => do
    let (body, partials) ← expandNodes language catalog inside source body
    let (rest, more) ← expandBranches language catalog inside source branches
    pure ((condition, body) :: rest, partials ++ more)
termination_by (catalog.unseen inside, sizeOf branches)

end

/-- A template of a layout chain with its partials in place. -/
structure Link where
  document : Document
  nodes : List Node
  /-- The partials that were loaded for it, in order. -/
  partials : List Document

/-- The chain from a template to its outermost layout; `seen` are the paths of the template and of
those before it. -/
def layoutChain (language : Language) (catalog : Catalog) (seen : List Path)
    (document : Document) : Except TemplateError (List Link) := do
  let template ← parseTemplate language document.source
  let (nodes, partials) ←
    expandNodes language catalog [document.path] document.source template.nodes
  let link : Link := ⟨document, nodes, partials⟩
  match template.layout with
  | none => pure [link]
  | some (layout, span) =>
    match _hload : catalog.load layout with
    | .error e => throw e
    | .ok next =>
      if _hseen : seen.any next.path.same then
        throw (document.source.malformed (.circularExtends layout) span)
      else do
        let links ← layoutChain language catalog (next.path :: seen) next
        pure (link :: links)
termination_by catalog.unseen seen
decreasing_by exact Catalog.unseen_cons_lt _hload (by simpa using _hseen)

/-- The override that an outermost node of an extending template is. -/
def Node.override? : Node → Option Override
  | .block name body => some ⟨name, body⟩
  | _ => none

/-- A template as a dependency. -/
def Document.dependency (d : Document) : Dependency :=
  ⟨d.path, d.modified⟩

/-- Adds a partial to some dependencies, unless its path is there. -/
def recordPartial (dependencies : List Dependency) (d : Document) : List Dependency :=
  if dependencies.any fun known => known.path.same d.path then dependencies
  else dependencies ++ [d.dependency]

/-- Adds a template of the chain and its partials to some dependencies. -/
def recordLink (dependencies : List Dependency) (link : Link) : List Dependency :=
  link.partials.foldl recordPartial (dependencies ++ [link.document.dependency])

/-- The artifact of a layout chain. -/
def assemble (name : String) (links : List Link) : Artifact where
  version := Artifact.currentVersion
  name := name
  sections := links.dropLast.flatMap fun link => link.nodes.filterMap Node.override?
  body := (links.getLast?.map Link.nodes).getD []
  dependencies := links.foldl recordLink []

/-- Compiles the template of a name. -/
def compile (language : Language) (catalog : Catalog) (name : String) :
    Except TemplateError Artifact := do
  let document ← catalog.load name
  let links ← layoutChain language catalog [document.path] document
  pure (assemble name links)

end Hashmark
