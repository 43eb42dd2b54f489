import Hashmark.Proofs.Storing.Artifacts

/-!
# Artifacts that are kept as they are

Nothing of an artifact is lost when it is written and read, its floats apart: a double is read as
whatever its shortest text means to the reader, which may be a neighbour of it. So an artifact is
read back as itself exactly if each of its floats is (`Artifact.decode?_encode_eq_self`), and two
different artifacts of that kind have different texts (`Artifact.encode_injOn`).
-/

namespace Hashmark

variable {f : Float → Option Float}

/-! ### Trees that a replacement of floats leaves as they are -/

theorem Literal.mapFloat?_eq_self (l : Literal) :
    l.mapFloat? f = some l ↔ ∀ x ∈ l.floats, f x = some x := by
  cases l <;> simp [Literal.mapFloat?, Literal.floats]

mutual

/-- An expression stays as it is exactly if each of its floats does. -/
theorem Expr.mapFloats?_eq_self : ∀ e : Expr,
    e.mapFloats? f = some e ↔ ∀ x ∈ e.floats, f x = some x
  | .lit value => by
    rw [Expr.floats, ← Literal.mapFloat?_eq_self]
    simp [Expr.mapFloats?]
  | .var name => by simp [Expr.mapFloats?, Expr.floats]
  | .list items => by
    rw [Expr.floats, ← Expr.mapFloatsOfList?_eq_self items]
    simp [Expr.mapFloats?, Option.bind_eq_some_iff]
  | .field base name => by
    rw [Expr.floats, ← Expr.mapFloats?_eq_self base]
    simp [Expr.mapFloats?, Option.bind_eq_some_iff]
  | .index base key => by
    rw [Expr.floats, List.forall_mem_append, ← Expr.mapFloats?_eq_self base,
      ← Expr.mapFloats?_eq_self key]
    simp [Expr.mapFloats?, Option.bind_eq_some_iff]
  | .call name args => by
    rw [Expr.floats, ← Expr.mapFloatsOfList?_eq_self args]
    simp [Expr.mapFloats?, Option.bind_eq_some_iff]
  | .filter input name args => by
    rw [Expr.floats, List.forall_mem_append, ← Expr.mapFloats?_eq_self input,
      ← Expr.mapFloatsOfList?_eq_self args]
    simp [Expr.mapFloats?, Option.bind_eq_some_iff, and_comm]
  | .unary op operand => by
    rw [Expr.floats, ← Expr.mapFloats?_eq_self operand]
    simp [Expr.mapFloats?, Option.bind_eq_some_iff]
  | .binary op left right => by
    rw [Expr.floats, List.forall_mem_append, ← Expr.mapFloats?_eq_self left,
      ← Expr.mapFloats?_eq_self right]
    simp [Expr.mapFloats?, Option.bind_eq_some_iff]

theorem Expr.mapFloatsOfList?_eq_self : ∀ es : List Expr,
    Expr.mapFloatsOfList? f es = some es ↔ ∀ x ∈ Expr.floatsOfList es, f x = some x
  | [] => by simp [Expr.mapFloatsOfList?, Expr.floatsOfList]
  | e :: es => by
    rw [Expr.floatsOfList, List.forall_mem_append, ← Expr.mapFloats?_eq_self e,
      ← Expr.mapFloatsOfList?_eq_self es]
    simp [Expr.mapFloatsOfList?, Option.bind_eq_some_iff]

end

mutual

/-- A node stays as it is exactly if each of its expressions does. -/
theorem Node.mapFloats?_eq_self : ∀ n : Node,
    n.mapFloats? f = some n ↔ ∀ e ∈ n.exprs, e.mapFloats? f = some e
  | .text _ => by simp [Node.mapFloats?, Node.exprs]
  | .connect _ => by simp [Node.mapFloats?, Node.exprs]
  | .comment _ => by simp [Node.mapFloats?, Node.exprs]
  | .yield _ _ => by simp [Node.mapFloats?, Node.exprs]
  | .emit value => by simp [Node.mapFloats?, Node.exprs]
  | .choose branches otherwise => by
    rw [Node.exprs, List.forall_mem_append, ← Node.mapFloatsOfBranches?_eq_self branches,
      ← Node.mapFloatsOfOption?_eq_self otherwise]
    simp [Node.mapFloats?, Option.bind_eq_some_iff]
  | .forEach source key value body => by
    rw [Node.exprs, List.forall_mem_cons, ← Node.mapFloatsOfList?_eq_self body]
    simp [Node.mapFloats?, Option.bind_eq_some_iff, and_comm]
  | .block name body => by
    rw [Node.exprs, ← Node.mapFloatsOfList?_eq_self body]
    simp [Node.mapFloats?, Option.bind_eq_some_iff]

theorem Node.mapFloatsOfList?_eq_self : ∀ ns : List Node,
    Node.mapFloatsOfList? f ns = some ns ↔ ∀ e ∈ Node.exprsOfList ns, e.mapFloats? f = some e
  | [] => by simp [Node.mapFloatsOfList?, Node.exprsOfList]
  | n :: ns => by
    rw [Node.exprsOfList, List.forall_mem_append, ← Node.mapFloats?_eq_self n,
      ← Node.mapFloatsOfList?_eq_self ns]
    simp [Node.mapFloatsOfList?, Option.bind_eq_some_iff]

theorem Node.mapFloatsOfBranches?_eq_self : ∀ branches : List (Expr × List Node),
    Node.mapFloatsOfBranches? f branches = some branches ↔
      ∀ e ∈ Node.exprsOfBranches branches, e.mapFloats? f = some e
  | [] => by simp [Node.mapFloatsOfBranches?, Node.exprsOfBranches]
  | (condition, body) :: branches => by
    rw [Node.exprsOfBranches, List.forall_mem_cons, List.forall_mem_append,
      ← Node.mapFloatsOfList?_eq_self body, ← Node.mapFloatsOfBranches?_eq_self branches]
    simp [Node.mapFloatsOfBranches?, Option.bind_eq_some_iff, and_left_comm]

theorem Node.mapFloatsOfOption?_eq_self : ∀ body : Option (List Node),
    Node.mapFloatsOfOption? f body = some body ↔
      ∀ e ∈ Node.exprsOfOption body, e.mapFloats? f = some e
  | none => by simp [Node.mapFloatsOfOption?, Node.exprsOfOption]
  | some body => by
    rw [Node.exprsOfOption, ← Node.mapFloatsOfList?_eq_self body]
    simp [Node.mapFloatsOfOption?, Option.bind_eq_some_iff]

end

theorem Override.mapFloats?_list_eq_self (sections : List Override) :
    sections.mapM (Override.mapFloats? f) = some sections ↔
      ∀ e ∈ sections.flatMap fun o => Node.exprsOfList o.body, e.mapFloats? f = some e := by
  induction sections with
  | nil => simp
  | cons o sections ih =>
    obtain ⟨name, body⟩ := o
    rw [List.flatMap_cons, List.forall_mem_append, ← Node.mapFloatsOfList?_eq_self body, ← ih,
      List.mapM_cons]
    simp [Override.mapFloats?, Option.bind_eq_some_iff]

namespace Artifact

/-- An artifact stays as it is exactly if each of its floats does. -/
theorem mapFloats?_eq_self (a : Artifact) :
    a.mapFloats? f = some a ↔ ∀ x ∈ a.floats, f x = some x := by
  have hfloats : (∀ x ∈ a.floats, f x = some x) ↔
      ∀ e ∈ Node.exprsOfList a.body ++ a.sections.flatMap fun o => Node.exprsOfList o.body,
        e.mapFloats? f = some e := by
    simp only [floats, List.mem_flatMap, Expr.mapFloats?_eq_self]
    constructor
    · intro h e he x hx
      exact h x ⟨e, he, hx⟩
    · rintro h x ⟨e, he, hx⟩
      exact h e he x hx
  rw [hfloats, List.forall_mem_append, ← Node.mapFloatsOfList?_eq_self,
    ← Override.mapFloats?_list_eq_self]
  cases a
  simp [mapFloats?, Option.bind_eq_some_iff, and_comm]

/-- Whether an artifact can be read after it was written, and each of its floats as itself. -/
structure Kept (a : Artifact) : Prop extends a.Storable where
  floats_reread : ∀ x ∈ a.floats, rereadFloat? x = some x

/-- An artifact of the current version is read back as itself exactly if it is kept. -/
theorem decode?_encode_eq_some {a : Artifact} (hversion : a.version = currentVersion) :
    decode? a.encode = some a ↔ a.Kept := by
  rw [decode?_encode, if_pos hversion, Json.fit]
  split
  case isTrue hdepth =>
    rw [mapFloats?_eq_self]
    constructor
    · intro hreread
      -- what is read back at all is finite
      have hfinite : ∀ x ∈ a.floats, x.isFinite = true := fun x hx => by
        rw [← isSome_rereadFloat?, hreread x hx]
        rfl
      exact ⟨⟨hdepth, hfinite⟩, hreread⟩
    · exact Kept.floats_reread
  case isFalse hdepth =>
    constructor
    · intro h
      cases h
    · intro h
      exact absurd h.depth_le hdepth

/-- **Two artifacts never share a text**, as long as they are kept and of the current version. -/
theorem encode_injOn : Set.InjOn encode { a | a.version = currentVersion ∧ a.Kept } := by
  rintro a ⟨hversion, ha⟩ b ⟨hversion', hb⟩ htext
  have hread : some a = some b := by
    rw [← (decode?_encode_eq_some hversion).2 ha, htext, (decode?_encode_eq_some hversion').2 hb]
  exact Option.some.inj hread

/-- **Writing and reading an artifact.** An artifact is read back as itself exactly if it is of the
current version, its containers are not nested too deep, and its floats are finite and read back as
themselves. An artifact of any other version is not read at all. -/
theorem decode?_encode_eq_self (a : Artifact) :
    (decode? a.encode = some a ↔ a.version = currentVersion ∧ a.Kept) ∧
      (a.version ≠ currentVersion → decode? a.encode = none) := by
  by_cases hversion : a.version = currentVersion
  · rw [decode?_encode_eq_some hversion]
    exact ⟨⟨fun h => ⟨hversion, h⟩, And.right⟩, fun h => absurd hversion h⟩
  · have hnone : decode? a.encode = none := by rw [decode?_encode, if_neg hversion]
    refine ⟨⟨?_, fun h => absurd h.1 hversion⟩, fun _ => hnone⟩
    intro h
    rw [hnone] at h
    cases h

/-- Texts of many kinds, the least integer and a double are read back; the same in another version
is not. -/
theorem decode?_encode_mixed :
    let a : Artifact := ⟨1, "p\\\"\n\u0001é", [⟨"s", []⟩],
      [.emit (.list [.lit (.int Int64.minValue), .lit (.float 1.5), .lit .null]),
        .choose [] (some []), .yield "x" none, .comment ""],
      [⟨⟨"p"⟩, ⟨UInt64.ofNat (2 ^ 64 - 1), 999999999⟩⟩]⟩
    decode? a.encode = some a ∧ decode? { a with version := 2 }.encode = none := by
  intro a
  have hkept : a.Kept := ⟨⟨by decide, by decide +kernel⟩, by decide +kernel⟩
  exact ⟨(decode?_encode_eq_self a).1.2 ⟨rfl, hkept⟩,
    (decode?_encode_eq_self { a with version := 2 }).2 (by decide)⟩

end Artifact

end Hashmark
