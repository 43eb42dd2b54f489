import Hashmark.Catalog.Library
import Hashmark.Proofs.Caching.History
import Hashmark.Proofs.Compiling.Locality

/-!
# Templates on their own

A template that extends no layout and connects no partial is compiled to its own nodes, and depends
on nothing but itself (`compile_page`).
-/

namespace Hashmark

mutual

/-- Whether a node connects no partial, at any depth. -/
def Node.isAlone : Node → Bool
  | .connect _ => false
  | .choose branches otherwise => Node.isAloneBranches branches && Node.isAloneOption otherwise
  | .forEach _ _ _ body => Node.isAloneList body
  | .block _ body => Node.isAloneList body
  | .text _ | .emit _ | .yield _ _ | .comment _ => true

/-- Whether several nodes connect no partial. -/
def Node.isAloneList : List Node → Bool
  | [] => true
  | node :: nodes => node.isAlone && Node.isAloneList nodes

/-- Whether the branches of a choice connect no partial. -/
def Node.isAloneBranches : List (Expr × List Node) → Bool
  | [] => true
  | (_, body) :: branches => Node.isAloneList body && Node.isAloneBranches branches

/-- Whether a body that may be absent connects no partial. -/
def Node.isAloneOption : Option (List Node) → Bool
  | none => true
  | some body => Node.isAloneList body

end

section Expanding

variable (language : Language) (c : Catalog) (inside : List Path) (source : Source)

mutual

/-- A node without partials stays as it is. -/
theorem expandNode_alone : ∀ node : Node, node.isAlone = true →
    expandNode language c inside source node = .ok ([node], [])
  | .text _, _ => by rw [expandNode] <;> simp
  | .emit _, _ => by rw [expandNode] <;> simp
  | .yield _ _, _ => by rw [expandNode] <;> simp
  | .comment _, _ => by rw [expandNode] <;> simp
  | .choose branches otherwise, h => by
    obtain ⟨hbranches, hotherwise⟩ := Bool.and_eq_true_iff.1 (by simpa only [Node.isAlone] using h)
    have hb := expandBranches_alone branches hbranches
    cases otherwise with
    | none => exact expandNode_choose_eq_ok.2 ⟨_, _, hb, rfl, rfl⟩
    | some body =>
      exact expandNode_choose_eq_ok.2 ⟨_, _, hb, _, _, expandNodes_alone body hotherwise, rfl, rfl⟩
  | .forEach iterable key value body, h => by
    rw [expandNode]
    exact expandBody_eq_ok.2 ⟨body, expandNodes_alone body h, rfl⟩
  | .block name body, h => by
    rw [expandNode]
    exact expandBody_eq_ok.2 ⟨body, expandNodes_alone body h, rfl⟩

/-- Nodes without partials stay as they are. -/
theorem expandNodes_alone : ∀ nodes : List Node, Node.isAloneList nodes = true →
    expandNodes language c inside source nodes = .ok (nodes, [])
  | [], _ => by rw [expandNodes]
  | node :: nodes, h => by
    obtain ⟨hnode, hnodes⟩ := Bool.and_eq_true_iff.1 (by simpa only [Node.isAloneList] using h)
    exact expandNodes_cons_eq_ok.2 ⟨_, _, _, _, expandNode_alone node hnode,
      expandNodes_alone nodes hnodes, rfl, rfl⟩

/-- Branches without partials stay as they are. -/
theorem expandBranches_alone : ∀ branches : List (Expr × List Node),
    Node.isAloneBranches branches = true →
    expandBranches language c inside source branches = .ok (branches, [])
  | [], _ => by rw [expandBranches]
  | (condition, body) :: branches, h => by
    obtain ⟨hbody, hrest⟩ := Bool.and_eq_true_iff.1 (by simpa only [Node.isAloneBranches] using h)
    exact expandBranches_cons_eq_ok.2 ⟨_, _, _, _, expandNodes_alone body hbody,
      expandBranches_alone branches hrest, rfl, rfl⟩

end

end Expanding

/-- **Templates on their own.** A template without a layout and partials is compiled to its own
nodes, with itself as the only dependency. -/
theorem compile_page {language : Language} {l : Library} {name text : String} {tick : Nat}
    {nodes : List Node} (hparse : parseTemplate language ⟨name, text⟩ = .ok ⟨none, nodes⟩)
    (halone : Node.isAloneList nodes = true)
    (hfind : Dict.find? l.templates name = some (text, tick)) :
    compile language l.catalog name =
      .ok ⟨Artifact.currentVersion, name, [], nodes, [⟨⟨name⟩, .ofSeconds tick⟩]⟩ :=
  compile_eq_ok.2 ⟨⟨⟨name⟩, ⟨name, text⟩, .ofSeconds tick⟩, [⟨_, nodes, []⟩],
    Library.load_eq_ok.2 ⟨text, tick, hfind, rfl⟩,
    layoutChain_eq_ok.2 ⟨_, _, _, hparse, expandNodes_alone language _ _ _ nodes halone, rfl⟩, rfl⟩

end Hashmark
