import Hashmark.Proofs.Storing.Floats
import Hashmark.Proofs.Storing.Room
import Hashmark.Proofs.Storing.Texts

/-!
# Reading artifacts back

What `Artifact.decode?` makes of the text that `Artifact.encode` writes (`Artifact.decode?_encode`):
the artifact, with every float replaced by what its own text reads as, given that the containers
are not nested too deep. So an artifact can be stored exactly if it is `Storable`: containers nest
within the limit, and no float is infinite or no number, since these are written as `null`.
-/

namespace Hashmark

open Json (tagged record optional fit fit_of_le fit_bind bind_fit fit_map fit_fit fit_sub
  rereadItems rereadMembers reread)

/-- What a float is read as after it was written. -/
def rereadFloat? (x : Float) : Option Float :=
  (Json.ofFloat x).reread.asFloat?

theorem Literal.ofJson?_reread (room : Nat) (l : Literal) :
    Literal.ofJson? room l.toJson.reread =
      fit l.toJson.depth room (l.mapFloat? rereadFloat?) := by
  cases l with
  | null => rfl
  | bool b => exact Literal.ofJson?_bool room (.bool b)
  | str s => exact Literal.ofJson?_str room (.string s)
  | int n =>
    have hleast := n.le_toInt
    have hgreatest := n.toInt_lt
    have hrange : Int64.minValue.toInt ≤ n.toInt ∧ n.toInt ≤ Int64.maxValue.toInt :=
      ⟨hleast, Int.le_of_lt_add_one hgreatest⟩
    show Literal.ofJson? room (tagged "Int" (JsonNumber.integer n.toInt).reread) = _
    rw [Json.reread_integer hleast (by omega), Literal.ofJson?_int, Json.ofInt, Json.asInt?,
      if_pos hrange, Option.map_some, Int64.ofInt_toInt]
    rfl
  | float x =>
    have hdepth : (Literal.float x).toJson.depth = 1 := by
      simp only [Literal.toJson, tagged, Json.ofFloat]
      split <;> rfl
    rw [hdepth]
    exact Literal.ofJson?_float room (Json.ofFloat x).reread

mutual

/-- **An expression is read back** if it is not nested too deep, with its floats replaced by what
they are read as. -/
theorem Expr.ofJson?_reread : ∀ (e : Expr) (room : Nat),
    Expr.ofJson? room e.toJson.reread =
      fit e.toJson.depth room (e.mapFloats? rereadFloat?)
  -- of every alternative: its step, what is read from its parts, and then the rooms added up
  | .lit value, room => by
    show Expr.ofJson? room (tagged "Literal" value.toJson.reread) = _
    rw [Expr.ofJson?_literal, Literal.ofJson?_reread, fit_map, fit_sub (le_refl 1)]
    congr 1
    simp [Expr.toJson, tagged, Json.depth, Json.depthOfMembers]
  | .var name, room => by
    show Expr.ofJson? room (tagged "Var" (.string name)) = _
    rw [Expr.ofJson?_var]
    rfl
  | .list items, room => by
    show Expr.ofJson? room (tagged "List" (.array (rereadItems (Expr.toJsonList items)))) = _
    rw [Expr.ofJson?_list, Expr.ofJson?_reread_list items]
    simp only [Option.bind_eq_bind, fit_bind, fit_sub (le_refl 2)]
    congr 1
  | .field base name, room => by
    show Expr.ofJson? room (tagged "Field" (record
      [("base", base.toJson.reread), ("field", .string name)])) = _
    rw [Expr.ofJson?_field, Expr.ofJson?_reread base]
    simp only [Option.bind_eq_bind, fit_bind, fit_sub (le_refl 2)]
    congr 1
    simp [Expr.toJson, tagged, record, Json.depth, Json.depthOfMembers]
  | .index base key, room => by
    show Expr.ofJson? room (tagged "Index" (record
      [("base", base.toJson.reread), ("index", key.toJson.reread)])) = _
    rw [Expr.ofJson?_index, Expr.ofJson?_reread base, Expr.ofJson?_reread key]
    simp only [Option.bind_eq_bind, fit_bind, bind_fit, fit_fit, fit_sub (le_refl 2)]
    congr 1
    simp [Expr.toJson, tagged, record, Json.depth, Json.depthOfMembers]
    omega
  | .call name args, room => by
    show Expr.ofJson? room (tagged "Call" (record
      [("name", .string name), ("args", .array (rereadItems (Expr.toJsonList args)))])) = _
    rw [Expr.ofJson?_call, Expr.ofJson?_reread_list args]
    simp only [Option.bind_eq_bind, fit_bind, fit_sub (le_refl 3)]
    congr 1
  | .filter input name args, room => by
    show Expr.ofJson? room (tagged "Filter" (record
      [("expr", input.toJson.reread), ("name", .string name),
        ("args", .array (rereadItems (Expr.toJsonList args)))])) = _
    rw [Expr.ofJson?_filter, Expr.ofJson?_reread_list args, Expr.ofJson?_reread input]
    simp (disch := omega) only [Option.bind_eq_bind, fit_bind, bind_fit, fit_sub]
    congr 1
    simp [Expr.toJson, tagged, record, Json.depth, Json.depthOfMembers]
  | .unary op operand, room => by
    show Expr.ofJson? room (tagged "Unary" (record
      [("op", .string op.label), ("expr", operand.toJson.reread)])) = _
    rw [Expr.ofJson?_unary, Expr.ofJson?_reread operand]
    simp only [Option.bind_eq_bind, fit_bind, fit_sub (le_refl 2)]
    congr 1
    simp [Expr.toJson, tagged, record, Json.depth, Json.depthOfMembers]
  | .binary op left right, room => by
    show Expr.ofJson? room (tagged "Binary" (record
      [("op", .string op.label), ("left", left.toJson.reread), ("right", right.toJson.reread)])) = _
    rw [Expr.ofJson?_binary, Expr.ofJson?_reread left, Expr.ofJson?_reread right]
    simp only [Option.bind_eq_bind, fit_bind, bind_fit, fit_fit, fit_sub (le_refl 2)]
    congr 1
    simp [Expr.toJson, tagged, record, Json.depth, Json.depthOfMembers]
    omega

theorem Expr.ofJson?_reread_list : ∀ (es : List Expr) (room : Nat),
    (rereadItems (Expr.toJsonList es)).mapM (Expr.ofJson? room) =
      fit (Json.depthOfItems (Expr.toJsonList es)) room (Expr.mapFloatsOfList? rereadFloat? es)
  | [], room => by
    simp [Expr.toJsonList, rereadItems, Json.depthOfItems, Expr.mapFloatsOfList?]
  | e :: es, room => by
    rw [Expr.toJsonList, rereadItems, List.mapM_cons, Expr.ofJson?_reread e,
      Expr.ofJson?_reread_list es]
    simp only [Option.bind_eq_bind, fit_bind, bind_fit, fit_fit]
    rw [max_comm]
    rfl

end

mutual

/-- **A node is read back** in the same way. -/
theorem Node.ofJson?_reread : ∀ (n : Node) (room : Nat),
    Node.ofJson? room n.toJson.reread = fit n.toJson.depth room (n.mapFloats? rereadFloat?)
  | .text content, room => Node.ofJson?_text room content
  | .connect name, room => Node.ofJson?_connect room name
  | .comment content, room => Node.ofJson?_comment room content
  | .emit value, room => by
    show Node.ofJson? room (tagged "Emit" value.toJson.reread) = _
    rw [Node.ofJson?_emit, Expr.ofJson?_reread, fit_map, fit_sub (le_refl 1)]
    congr 1
    simp [Node.toJson, tagged, Json.depth, Json.depthOfMembers]
  | .choose branches otherwise, room => by
    show Node.ofJson? room (tagged "If" (record
      [("branches", .array (rereadItems (Node.toJsonBranches branches))),
        ("otherwise", (Node.toJsonOption otherwise).reread)])) = _
    rw [Node.ofJson?_choice, Node.ofJson?_reread_branches branches,
      Node.ofJson?_reread_option otherwise]
    simp (disch := omega) only [Option.bind_eq_bind, fit_bind, bind_fit, fit_fit, fit_sub]
    congr 1
    simp [Node.toJson, tagged, record, Json.depth, Json.depthOfMembers]
    omega
  | .forEach source key value body, room => by
    have hkey : (optional Json.string key).reread = optional .string key := by cases key <;> rfl
    show Node.ofJson? room (tagged "Foreach" (record
      [("iterable", source.toJson.reread), ("key", (optional .string key).reread),
        ("value", .string value), ("body", .array (rereadItems (Node.toJsonList body)))])) = _
    rw [hkey, Node.ofJson?_forEach, Node.ofJson?_reread_list body, Expr.ofJson?_reread]
    simp (disch := omega) only [Option.bind_eq_bind, fit_bind, bind_fit, fit_sub]
    congr 1
    have hdepth : (optional Json.string key).depth = 0 := by cases key <;> rfl
    simp [Node.toJson, tagged, record, Json.depth, Json.depthOfMembers, hdepth]
  | .block name body, room => by
    show Node.ofJson? room (tagged "Section" (record
      [("name", .string name), ("body", .array (rereadItems (Node.toJsonList body)))])) = _
    rw [Node.ofJson?_block, Node.ofJson?_reread_list body]
    simp only [Option.bind_eq_bind, fit_bind, fit_sub (le_refl 3)]
    congr 1
  | .yield name default, room => by
    cases default with
    | none => exact Node.ofJson?_yield room name none
    | some text => exact Node.ofJson?_yield room name (some text)

theorem Node.ofJson?_reread_list : ∀ (ns : List Node) (room : Nat),
    (rereadItems (Node.toJsonList ns)).mapM (Node.ofJson? room) =
      fit (Json.depthOfItems (Node.toJsonList ns)) room (Node.mapFloatsOfList? rereadFloat? ns)
  | [], room => by
    simp [Node.toJsonList, rereadItems, Json.depthOfItems, Node.mapFloatsOfList?]
  | n :: ns, room => by
    rw [Node.toJsonList, rereadItems, List.mapM_cons, Node.ofJson?_reread n,
      Node.ofJson?_reread_list ns]
    simp only [Option.bind_eq_bind, fit_bind, bind_fit, fit_fit]
    rw [max_comm]
    rfl

theorem Node.ofJson?_reread_branches : ∀ (branches : List (Expr × List Node)) (room : Nat),
    (rereadItems (Node.toJsonBranches branches)).mapM (Node.branchOfJson? room) =
      fit (Json.depthOfItems (Node.toJsonBranches branches)) room
        (Node.mapFloatsOfBranches? rereadFloat? branches)
  | [], room => by
    simp [Node.toJsonBranches, rereadItems, Json.depthOfItems, Node.mapFloatsOfBranches?]
  | (condition, body) :: branches, room => by
    have hbranch := Node.branchOfJson?_record room condition.toJson.reread
      (rereadItems (Node.toJsonList body))
    rw [Node.ofJson?_reread_list body, Expr.ofJson?_reread] at hbranch
    rw [Node.toJsonBranches, rereadItems, List.mapM_cons, Node.ofJson?_reread_branches branches]
    simp only [record, reread, rereadMembers] at hbranch ⊢
    rw [hbranch]
    simp (disch := omega) only [Option.bind_eq_bind, fit_bind, bind_fit, fit_fit, fit_sub]
    congr 1
    · simp [Json.depthOfItems, Json.depth, Json.depthOfMembers]
      omega
    · simp [Node.mapFloatsOfBranches?, Option.bind_assoc]

theorem Node.ofJson?_reread_option : ∀ (body : Option (List Node)) (room : Nat),
    Node.optionOfJson? room (Node.toJsonOption body).reread =
      fit ((Node.toJsonOption body).depth - 1) room (Node.mapFloatsOfOption? rereadFloat? body)
  | none, room => rfl
  | some body, room => by
    show ((rereadItems (Node.toJsonList body)).mapM (Node.ofJson? room)).map some = _
    rw [Node.ofJson?_reread_list body, fit_map, Option.map_eq_bind]
    rfl

end

theorem Override.ofJson?_reread (o : Override) (room : Nat) :
    Override.ofJson? room o.toJson.reread =
      fit o.toJson.depth room (o.mapFloats? rereadFloat?) := by
  -- the record and the list of its nodes are two containers
  have hstep : ∀ (body : List Json), Override.ofJson? room
      (record [("name", .string o.name), ("body", .array body)]) =
      fit 2 room (do pure ⟨o.name, ← body.mapM (Node.ofJson? (room - 2))⟩) := by
    intro body
    match room with
    | 0 | 1 => rfl
    | room + 2 =>
      rw [fit_of_le (by omega)]
      rfl
  show Override.ofJson? room
    (record [("name", .string o.name), ("body", .array (rereadItems (Node.toJsonList o.body)))]) = _
  rw [hstep, Node.ofJson?_reread_list]
  simp (disch := omega) only [Option.bind_eq_bind, fit_bind, fit_sub]
  congr 1

/-- A natural number of at most 64 bits is read back. -/
theorem Json.asNat?_reread {n bound : Nat} (hn : n < bound) (hbound : bound ≤ 2 ^ 64) :
    (Json.ofInt n).reread.asNat? bound = some n := by
  have hrange : (0 : Int) ≤ n ∧ (n : Int) ≤ bound - 1 := by omega
  show (JsonNumber.integer n).reread.asNat? bound = some n
  rw [Json.reread_integer (by omega) (by omega), Json.ofInt, Json.asNat?, Json.asInt?,
    if_pos hrange]
  rfl

theorem Timestamp.ofJson?_reread (t : Timestamp) : Timestamp.ofJson? t.toJson.reread = some t := by
  have hstep : ∀ seconds nanoseconds : Json,
      Timestamp.ofJson? (record [("secs", seconds), ("nanos", nanoseconds)]) = (do
        let seconds ← seconds.asNat? UInt64.size
        let nanoseconds ← nanoseconds.asNat? UInt32.size
        pure ⟨UInt64.ofNat seconds, UInt32.ofNat nanoseconds⟩) := fun _ _ => rfl
  have hread := hstep (Json.ofInt t.seconds.toNat).reread (Json.ofInt t.nanoseconds.toNat).reread
  rw [Json.asNat?_reread t.seconds.toNat_lt (le_refl _),
    Json.asNat?_reread t.nanoseconds.toNat_lt (by decide)] at hread
  simp only [Option.bind_eq_bind, Option.bind_some, UInt64.ofNat_toNat, UInt32.ofNat_toNat] at hread
  exact hread

theorem Dependency.ofJson?_reread (d : Dependency) :
    Dependency.ofJson? d.toJson.reread = some d := by
  have hstep : ∀ modified : Json,
      Dependency.ofJson? (record [("path", .string d.path.text), ("modified", modified)]) =
        (do pure ⟨d.path, ← Timestamp.ofJson? modified⟩) := fun _ => rfl
  have hread := hstep d.modified.toJson.reread
  rw [Timestamp.ofJson?_reread] at hread
  exact hread

theorem Override.ofJson?_reread_list (sections : List Override) (room : Nat) :
    (rereadItems (sections.map Override.toJson)).mapM (Override.ofJson? room) =
      fit (Json.depthOfItems (sections.map Override.toJson)) room
        (sections.mapM (Override.mapFloats? rereadFloat?)) := by
  induction sections with
  | nil => simp [rereadItems, Json.depthOfItems]
  | cons o sections ih =>
    rw [List.map_cons, rereadItems, List.mapM_cons, List.mapM_cons, ih, Override.ofJson?_reread]
    simp only [Option.bind_eq_bind, fit_bind, bind_fit, fit_fit]
    rw [max_comm]
    rfl

theorem Dependency.ofJson?_reread_list (dependencies : List Dependency) :
    (rereadItems (dependencies.map Dependency.toJson)).mapM Dependency.ofJson? =
      some dependencies := by
  induction dependencies with
  | nil => rfl
  | cons d dependencies ih =>
    rw [List.map_cons, rereadItems, List.mapM_cons, ih, Dependency.ofJson?_reread]
    rfl

/-- A dependency has two containers, one inside the other. -/
theorem Dependency.depth_toJson_list (dependencies : List Dependency) :
    Json.depthOfItems (dependencies.map Dependency.toJson) ≤ 2 := by
  induction dependencies with
  | nil => exact Nat.zero_le _
  | cons d dependencies ih => exact max_le (le_refl _) ih

namespace Artifact

/-- **A written artifact is read back** if it is not nested too deep, with its floats replaced by
what they are read as. -/
theorem ofJson?_reread (a : Artifact) :
    Artifact.ofJson? a.toJson.reread =
      fit a.toJson.depth Json.nestingLimit (a.mapFloats? rereadFloat?) := by
  -- two of the containers are the record of the artifact and the list of its sections or nodes
  have hstep : ∀ (version : Json) (sections body dependencies : List Json),
      Artifact.ofJson? (record
        [("version", version), ("name", .string a.name), ("sections", .array sections),
          ("body", .array body), ("dependencies", .array dependencies)]) = (do
        let version ← version.asNat? UInt32.size
        let sections ← sections.mapM (Override.ofJson? 125)
        let body ← body.mapM (Node.ofJson? 125)
        let dependencies ← dependencies.mapM Dependency.ofJson?
        pure ⟨UInt32.ofNat version, a.name, sections, body, dependencies⟩) :=
    fun _ _ _ _ => rfl
  have hread := hstep (Json.ofInt a.version.toNat).reread
    (rereadItems (a.sections.map Override.toJson)) (rereadItems (Node.toJsonList a.body))
    (rereadItems (a.dependencies.map Dependency.toJson))
  rw [Json.asNat?_reread a.version.toNat_lt (by decide), Override.ofJson?_reread_list,
    Node.ofJson?_reread_list, Dependency.ofJson?_reread_list] at hread
  simp only [Option.bind_eq_bind, Option.bind_some, UInt32.ofNat_toNat, fit_bind, bind_fit,
    fit_fit] at hread
  refine Eq.trans hread ?_
  -- dependencies are never what is nested too deep
  have hroom : max (Json.depthOfItems (Node.toJsonList a.body))
      (Json.depthOfItems (a.sections.map Override.toJson)) ≤ 125 ↔
        a.toJson.depth ≤ Json.nestingLimit := by
    have hshallow := Dependency.depth_toJson_list a.dependencies
    simp only [toJson, record, Json.ofInt, Json.depth, Json.depthOfMembers, Json.nestingLimit]
    omega
  unfold fit
  simp only [hroom]
  rfl

/-- What `decode?` makes of an artifact that `encode` wrote. -/
theorem decode?_encode (a : Artifact) :
    decode? a.encode =
      if a.version = currentVersion then
        fit a.toJson.depth Json.nestingLimit (a.mapFloats? rereadFloat?)
      else none := by
  rw [decode?, encode, Json.read?_text]
  simp only [Option.bind_eq_bind, Option.bind_some, ofJson?_reread, fit_bind]
  cases hmap : a.mapFloats? rereadFloat? with
  | none => simp
  | some b =>
    rw [Option.bind_some, (eq_of_mapFloats? hmap).1]
    split
    · rfl
    · exact Json.fit_none

end Artifact

/-- Exactly the finite floats can be read after they were written. -/
theorem isSome_rereadFloat? (x : Float) : (rereadFloat? x).isSome ↔ x.isFinite = true := by
  unfold rereadFloat? Json.ofFloat
  cases hfinite : x.isFinite with
  | true =>
    obtain ⟨y, hy⟩ := Json.exists_reread_real hfinite
    rw [if_pos rfl, reread, hy]
    simp [Json.asFloat?]
  | false => simp [reread, Json.asFloat?]

namespace Artifact

/-- Whether an artifact can be read after it was written: its containers are not nested too deep,
and its floats are finite. -/
structure Storable (a : Artifact) : Prop where
  depth_le : a.toJson.depth ≤ Json.nestingLimit
  floats_finite : ∀ x ∈ a.floats, x.isFinite = true

/-- An artifact of the current version is read back exactly if it is storable. -/
theorem isSome_decode?_encode {a : Artifact} (hversion : a.version = currentVersion) :
    (decode? a.encode).isSome ↔ a.Storable := by
  rw [decode?_encode, if_pos hversion, fit]
  by_cases hdepth : a.toJson.depth ≤ Json.nestingLimit
  · rw [if_pos hdepth, isSome_mapFloats?]
    simp only [isSome_rereadFloat?]
    exact ⟨fun h => ⟨hdepth, h⟩, fun h => h.floats_finite⟩
  · rw [if_neg hdepth]
    exact ⟨nofun, fun h => absurd h.depth_le hdepth⟩

/-- What is read back has the path and the times of the artifact. -/
theorem dependencies_of_decode? {a b : Artifact} (h : decode? a.encode = some b) :
    b.dependencies = a.dependencies := by
  rw [decode?_encode, fit] at h
  split at h
  · split at h
    · exact (eq_of_mapFloats? h).2
    · cases h
  · cases h

end Artifact

end Hashmark
