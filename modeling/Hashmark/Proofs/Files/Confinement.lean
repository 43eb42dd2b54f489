import Hashmark.Catalog.SearchPath
import Hashmark.Proofs.Files.Locations
import Mathlib.Data.List.Forall2
import Mathlib.Data.List.ProdSigma

/-!
# Names stay in their directories

A dotted name is written as a path with slashes for its dots, and that path is taken from a
directory. The file is in that directory as long as the path is relative and its steps never lead
above where they start (`Path.climbs`). A relative path that is joined to a directory lies under it
exactly then (`Path.liesUnder_join`), so whether the candidates for a name stay in their directories
is a question of the name and the extensions alone (`SearchPath.confines_iff`). Extensions that are
parts of file names do no harm. A dot at the start of a name does: it becomes the slash of an
absolute path, and that path replaces the directory.
-/

namespace Hashmark

/-! ### Steps that lead outside -/

namespace Path

variable {d p r : Path} {rest : List Step}

/-- Whether steps from a place that many levels deep lead above the top on their way. -/
def climbs : Nat → List Step → Bool
  | _, [] => false
  | _, .root :: _ => true
  | depth, .here :: steps => climbs depth steps
  | 0, .up :: _ => true
  | depth + 1, .up :: steps => climbs depth steps
  | depth, .name _ :: steps => climbs (depth + 1) steps

/-- Whether a path starts with the steps of a directory and does not lead out of it again. -/
def liesUnder (directory p : Path) : Bool :=
  match stepsBelow? directory.steps p.steps with
  | some rest => !climbs 0 rest
  | none => false

theorem stepsBelow?_append (directory rest : List Step) :
    stepsBelow? directory (directory ++ rest) = some rest := by
  induction directory with
  | nil => cases rest <;> rfl
  | cons step directory ih => simp [stepsBelow?, ih]

theorem liesUnder_of_steps (h : p.steps = d.steps ++ rest) :
    liesUnder d p = !climbs 0 rest := by
  rw [liesUnder, h, stepsBelow?_append]

/-- The step for the start of a path, if there is one. -/
def front (p : Path) : List Step :=
  if p.segments.head? = some "." then [.here]
  else if p.isAbsolute then [.root]
  else []

/-- The steps from the start of a path on. -/
def moves (p : Path) : List Step :=
  p.segments.filterMap stepOf?

theorem steps_eq_front_append_moves (p : Path) : p.steps = p.front ++ p.moves := by
  unfold steps front moves
  split
  · next h => simp [h]
  · next hdot =>
    rw [if_neg fun h => hdot _ (List.head?_eq_some_iff.1 h).choose_spec]
    split <;> rfl

theorem front_of_relative (h : p.isAbsolute = false) : p.front = [] ∨ p.front = [.here] := by
  unfold front
  split
  · exact .inr rfl
  · simp [h]

theorem climbs_steps_of_relative (h : p.isAbsolute = false) :
    climbs 0 p.steps = climbs 0 p.moves := by
  rcases front_of_relative h with hfront | hfront <;>
    simp [steps_eq_front_append_moves, hfront, climbs]

/-! ### Joined paths -/

theorem segments_ne_nil : p.segments ≠ [] := by
  simp [segments, splitAt_ne_nil]

theorem segments_of_not_mem (h : '/' ∉ p.text.toList) : p.segments = [p.text] := by
  rw [segments, splitAt_of_not_mem h]
  simp

theorem segments_slash (a b : String) :
    segments ⟨a ++ "/" ++ b⟩ = segments ⟨a⟩ ++ segments ⟨b⟩ := by
  have htext : (a ++ "/" ++ b).toList = a.toList ++ '/' :: b.toList := by simp
  rw [segments, htext, splitAt_append, List.map_append]
  rfl

theorem moves_slash (a b : String) : moves ⟨a ++ "/" ++ b⟩ = moves ⟨a⟩ ++ moves ⟨b⟩ := by
  rw [moves, segments_slash, List.filterMap_append]
  rfl

theorem front_slash (a b : String) :
    front ⟨a ++ "/" ++ b⟩ = if a = "" then [.root] else front ⟨a⟩ := by
  unfold front
  rw [segments_slash, List.head?_append_of_ne_nil _ segments_ne_nil]
  by_cases hempty : a = ""
  · subst hempty
    simp [isAbsolute, show segments ⟨""⟩ = [""] by decide]
  · have hne : a.toList ≠ [] := by simpa using hempty
    simp [isAbsolute, List.head?_append_of_ne_nil _ hne, hempty]

/-- Behind a slash a path goes on with the moves of what is there. -/
theorem steps_slash (a b : String) :
    steps ⟨a ++ "/" ++ b⟩ = (if a = "" then [.root] else steps ⟨a⟩) ++ moves ⟨b⟩ := by
  rw [steps_eq_front_append_moves, front_slash, moves_slash]
  split
  · next h => subst h; rfl
  · rw [← List.append_assoc, ← steps_eq_front_append_moves]

/-- **A relative path lies under the directory that it is taken from exactly if it never leads
above its start.** -/
theorem liesUnder_join (h : r.isAbsolute = false) :
    liesUnder d (d.join r) = !climbs 0 r.steps := by
  obtain ⟨directory⟩ := d
  obtain ⟨relative⟩ := r
  by_cases hempty : directory = ""
  · subst hempty
    have hunder : liesUnder ⟨""⟩ ⟨relative⟩ = !climbs 0 (steps ⟨relative⟩) :=
      liesUnder_of_steps rfl
    simpa [join] using hunder
  · rw [climbs_steps_of_relative h]
    apply liesUnder_of_steps
    by_cases hlast : directory.toList.getLast? = some '/'
    · -- The slash is there already.
      obtain ⟨cs, hcs⟩ := List.getLast?_eq_some_iff.1 hlast
      obtain rfl : directory = String.ofList cs ++ "/" ++ "" := by
        rw [← String.toList_inj]; simpa using hcs
      rw [steps_slash, show moves ⟨""⟩ = [] by decide, List.append_nil, ← steps_slash,
        String.append_empty]
      simp [join, h]
    · simp [join, h, hempty, hlast, steps_slash]

/-- Pieces without dots are names, each one level further down. -/
theorem climbs_pieces {pieces : List String} (h : ∀ piece ∈ pieces, '.' ∉ piece.toList)
    (depth : Nat) (rest : List Step) :
    climbs depth (pieces.filterMap stepOf? ++ rest) =
      climbs (depth + pieces.countP (· ≠ "")) rest := by
  induction pieces generalizing depth with
  | nil => rfl
  | cons piece pieces ih =>
    obtain ⟨hpiece, hpieces⟩ := List.forall_mem_cons.1 h
    by_cases hempty : piece = ""
    · simpa [hempty, stepOf?] using ih hpieces depth
    · have hstep : stepOf? piece = some (.name piece) := by
        have hdot : piece ≠ "." := by rintro rfl; simp at hpiece
        have hdots : piece ≠ ".." := by rintro rfl; simp at hpiece
        simp [stepOf?, hempty, hdot, hdots]
      simpa [hstep, hempty, climbs, Nat.add_assoc, Nat.add_comm 1] using ih hpieces (depth + 1)

theorem climbs_segment {depth : Nat} {segment : String} :
    climbs (0 + depth) ([segment].filterMap stepOf?) = true ↔ segment = ".." ∧ depth = 0 := by
  rw [Nat.zero_add]
  by_cases hidle : segment = "" ∨ segment = "."
  · have hdots : segment ≠ ".." := by rcases hidle with rfl | rfl <;> decide
    simp [stepOf?, hidle, hdots, climbs]
  · by_cases hdots : segment = ".."
    · cases depth <;> simp [stepOf?, hdots, climbs]
    · simp [stepOf?, hidle, hdots, climbs]

end Path

/-! ### Candidates -/

namespace SearchPath

open Hashmark.Path (climbs)

variable {s : SearchPath} {name rest extension : String} {ns : Option String}

/-- The texts between the dots of a name. -/
def pieces (name : String) : List String :=
  (splitAt '.' name.toList).map String.ofList

/-- The path that the pieces of a name and an extension make. -/
def relativePath (name extension : String) : Path :=
  ⟨"/".intercalate (pieces name) ++ "." ++ extension⟩

theorem dottedPath_eq (name : String) : dottedPath name = "/".intercalate (pieces name) := by
  rw [← String.toList_inj]
  simp [dottedPath, pieces, String.toList_intercalate, Function.comp_def, intercalate_splitAt]

theorem intercalate_pieces (name : String) : ".".intercalate (pieces name) = name := by
  rw [← String.toList_inj]
  simp [pieces, String.toList_intercalate, Function.comp_def, intercalate_splitAt_self]

theorem not_mem_pieces {piece : String} (h : piece ∈ pieces name) : '.' ∉ piece.toList := by
  obtain ⟨cs, hcs, rfl⟩ := List.mem_map.1 h
  simpa using not_mem_of_mem_splitAt hcs

theorem subset_of_mem_pieces {piece : String} (h : piece ∈ pieces name) :
    piece.toList ⊆ name.toList := by
  obtain ⟨cs, hcs, rfl⟩ := List.mem_map.1 h
  simpa using subset_of_mem_splitAt hcs

/-- The directories and extensions that candidates are built from, in the order in which they are
tried. -/
def sources (s : SearchPath) (name : String) : List (Path × String) :=
  s.directories (splitNamespace name).1 ×ˢ s.extensions

/-- Whether each candidate for a name is a relative path of its pieces and an extension, taken from
a directory for the name, and lies under that directory. -/
def Confines (s : SearchPath) (name : String) : Prop :=
  List.Forall₂
    (fun candidate (directory, extension) =>
      let relative := relativePath (splitNamespace name).2 extension
      relative.isAbsolute = false ∧ candidate = directory.join relative ∧
        directory.liesUnder candidate = true)
    (s.candidates name) (s.sources name)

/-- Whether a name looks like a path, told by its characters. -/
theorem isPathLike_eq (extensions : List String) (name : String) :
    isPathLike extensions name = (name.toList.contains '/' || name.toList.contains '\\' ||
      extensions.any fun extension => ("." ++ extension).toList.isSuffixOf name.toList) := by
  have hsuffix (extension : String) : Path.hasExtension extension name =
      ("." ++ extension).toList.isSuffixOf name.toList := by
    rw [Bool.eq_iff_iff, Path.hasExtension, String.endsWith_eq_endsWith_toSlice,
      String.Slice.endsWith_string_iff, List.isSuffixOf_iff_suffix, String.copy_toSlice]
  simp only [isPathLike, hsuffix]

theorem not_mem_of_dotted {extensions : List String} (h : isPathLike extensions name = false) :
    '/' ∉ name.toList := by
  simp [isPathLike] at h
  tauto

theorem candidates_of_dotted (hname : splitNamespace name = (ns, rest))
    (hdotted : isPathLike s.extensions rest = false) :
    s.candidates name = (s.sources name).map fun (d, e) => d.join (relativePath rest e) := by
  simp [candidates, sources, hname, hdotted, relativePath, dottedPath_eq, SProd.sprod,
    List.product, List.map_flatMap, Function.comp_def]

/-- A name without slashes makes an absolute path exactly if it starts with a dot. -/
theorem isAbsolute_relativePath (hslash : '/' ∉ name.toList) :
    (relativePath name extension).isAbsolute = true ↔ name.toList.head? = some '.' := by
  rw [relativePath, ← dottedPath_eq]
  cases h : name.toList with
  | nil => simp [Path.isAbsolute, dottedPath, h]
  | cons c cs =>
    have hc : c ≠ '/' := by rintro rfl; simp [h] at hslash
    by_cases hdot : c = '.' <;> simp [Path.isAbsolute, dottedPath, h, hdot, hc]

/-- **A dot in front replaces the directory**: each candidate is then the absolute path itself. -/
theorem candidates_of_leading_dot (hname : splitNamespace name = (ns, rest))
    (hdotted : isPathLike s.extensions rest = false) (hdot : rest.toList.head? = some '.') :
    s.candidates name = (s.sources name).map fun (_, e) => relativePath rest e := by
  rw [candidates_of_dotted hname hdotted]
  refine List.map_congr_left fun (d, e) _ => ?_
  have habsolute : (relativePath rest e).isAbsolute = true :=
    (isAbsolute_relativePath (not_mem_of_dotted hdotted)).2 hdot
  simp [Path.join, habsolute]

/-- All pieces but the last are segments of their own. -/
theorem segments_relativePath (hslash : '/' ∉ name.toList) {first : List String} {last : String}
    (h : pieces name = first ++ [last]) :
    (relativePath name extension).segments = first ++ Path.segments ⟨last ++ "." ++ extension⟩ := by
  have hfirst : ∀ cs ∈ first.map String.toList, '/' ∉ cs := by
    intro cs hcs hmem
    obtain ⟨piece, hpiece, rfl⟩ := List.mem_map.1 hcs
    exact hslash (subset_of_mem_pieces (h ▸ List.mem_append_left _ hpiece) hmem)
  have htext : (relativePath name extension).text.toList =
      ['/'].intercalate (first.map String.toList ++ [(last ++ "." ++ extension).toList]) := by
    simp [relativePath, h, String.toList_intercalate, intercalate_concat_append]
  rw [Path.segments, htext, splitAt_intercalate_append hfirst, List.map_append, Path.segments]
  simp [Function.comp_def]

theorem eq_of_append_eq_dots {last : String} (hlast : '.' ∉ last.toList)
    (h : last ++ "." ++ extension = "..") : last = "" ∧ extension = "." := by
  rw [← String.toList_inj] at h
  cases hcs : last.toList with
  | nil =>
    obtain rfl : last = "" := by simpa using hcs
    exact ⟨rfl, by rw [← String.toList_inj]; simpa using h⟩
  | cons c cs =>
    simp [hcs] at h hlast
    exact absurd h.1.symm hlast.1

/-- An extension without slashes leads outside only as the second of two dots. -/
theorem climbs_relativePath (hslash : '/' ∉ name.toList) (hextension : '/' ∉ extension.toList)
    (hdot : name.toList.head? ≠ some '.') :
    climbs 0 (relativePath name extension).steps = true ↔ name = "" ∧ extension = "." := by
  constructor
  · obtain ⟨first, last, hpieces⟩ :=
      (List.eq_nil_or_concat' (pieces name)).resolve_left (by simp [pieces, splitAt_ne_nil])
    have hrelative : (relativePath name extension).isAbsolute = false :=
      Bool.eq_false_iff.2 ((isAbsolute_relativePath hslash).not.2 hdot)
    have hlast : '/' ∉ (last ++ "." ++ extension).toList := by
      have hlast : '/' ∉ last.toList := fun hmem =>
        hslash (subset_of_mem_pieces (hpieces ▸ List.mem_append_right _ (by simp)) hmem)
      simp [hlast, hextension]
    rw [Path.climbs_steps_of_relative hrelative, Path.moves, segments_relativePath hslash hpieces,
      List.filterMap_append, Path.climbs_pieces (fun piece hpiece => not_mem_pieces
        (hpieces ▸ List.mem_append_left _ hpiece)), Path.segments_of_not_mem hlast,
      Path.climbs_segment]
    rintro ⟨hdots, hdepth⟩
    have hmem : last ∈ pieces name := by simp [hpieces]
    obtain ⟨rfl, rfl⟩ := eq_of_append_eq_dots (not_mem_pieces hmem) hdots
    refine ⟨?_, rfl⟩
    have hname := hpieces ▸ intercalate_pieces name
    cases first with
    | nil => simpa using hname.symm
    | cons piece first =>
      -- The first piece is empty as well, so the name starts with a dot.
      obtain rfl : piece = "" := by simp at hdepth; tauto
      rw [← hname, List.cons_append, String.toList_intercalate, List.map_cons,
        List.intercalate_cons_of_ne_nil (by simp)] at hdot
      simp at hdot
  · rintro ⟨rfl, rfl⟩
    decide

/-- Where candidates are is a question of the relative paths alone. -/
theorem confines_iff_forall (hname : splitNamespace name = (ns, rest))
    (hdotted : isPathLike s.extensions rest = false) :
    s.Confines name ↔ ∀ d ∈ s.directories ns, ∀ extension ∈ s.extensions,
      (relativePath rest extension).isAbsolute = false ∧
        climbs 0 (relativePath rest extension).steps = false := by
  rw [Confines, candidates_of_dotted hname hdotted, List.forall₂_map_left_iff, List.forall₂_same]
  simp only [sources, hname, Prod.forall, List.mem_product, true_and]
  constructor
  · intro h d hd extension hextension
    obtain ⟨hrelative, hunder⟩ := h d extension ⟨hd, hextension⟩
    exact ⟨hrelative, by simpa [Path.liesUnder_join hrelative] using hunder⟩
  · rintro h d extension ⟨hd, hextension⟩
    obtain ⟨hrelative, hclimbs⟩ := h d hd extension hextension
    exact ⟨hrelative, by simp [Path.liesUnder_join hrelative, hclimbs]⟩

/-- There are candidates as soon as there are a directory and an extension. -/
theorem candidates_eq_nil_iff (hname : splitNamespace name = (ns, rest))
    (hdotted : isPathLike s.extensions rest = false) :
    s.candidates name = [] ↔ s.directories ns = [] ∨ s.extensions = [] := by
  rw [candidates_of_dotted hname hdotted, sources, hname, List.map_eq_nil_iff,
    ← List.length_eq_zero_iff, List.length_product, Nat.mul_eq_zero, List.length_eq_zero_iff,
    List.length_eq_zero_iff]

/-- **Where the candidates for a dotted name are.** All of them lie under the directories that they
are taken from exactly if there are none, or the name does not start with a dot and no extension
leads outside. An extension without slashes does so only as the second of two dots. Names of an
unknown namespace have no candidates. -/
theorem confines_iff (hname : splitNamespace name = (ns, rest))
    (hdotted : isPathLike s.extensions rest = false) :
    (s.Confines name ↔ s.candidates name = [] ∨ rest.toList.head? ≠ some '.' ∧
      ∀ extension ∈ s.extensions, climbs 0 (relativePath rest extension).steps = false) ∧
    (rest.toList.head? ≠ some '.' → ∀ extension : String, '/' ∉ extension.toList →
      (climbs 0 (relativePath rest extension).steps = true ↔ rest = "" ∧ extension = ".")) ∧
    (∀ key, ns = some key → Dict.find? s.namespaces key = none → s.candidates name = []) := by
  have hslash := not_mem_of_dotted hdotted
  refine ⟨?_, fun hdot extension hextension => climbs_relativePath hslash hextension hdot, ?_⟩
  · have habsolute (extension : String) : (relativePath rest extension).isAbsolute = true ↔
        rest.toList.head? = some '.' := isAbsolute_relativePath hslash
    simp only [confines_iff_forall hname hdotted, candidates_eq_nil_iff hname hdotted,
      ← Bool.not_eq_true, habsolute]
    constructor
    · intro h
      by_cases hdirectories : s.directories ns = []
      · exact .inl (.inl hdirectories)
      by_cases hextensions : s.extensions = []
      · exact .inl (.inr hextensions)
      obtain ⟨d, hd⟩ := List.exists_mem_of_ne_nil _ hdirectories
      obtain ⟨extension, hextension⟩ := List.exists_mem_of_ne_nil _ hextensions
      exact .inr ⟨(h d hd extension hextension).1, fun extension hextension =>
        (h d hd extension hextension).2⟩
    · rintro ((hnone | hnone) | ⟨hdot, hclimbs⟩) d hd extension hextension
      · simp [hnone] at hd
      · simp [hnone] at hextension
      · exact ⟨hdot, hclimbs extension hextension⟩
  · rintro key rfl hnone
    simp [candidates_eq_nil_iff hname hdotted, directories, hnone]

/-- The theorem at a name with a namespace. -/
theorem confines_users_index :
    let s : SearchPath := ⟨[⟨"/a"⟩], [("admin", ⟨"/srv/admin"⟩)], ["ludou.html", "html"]⟩
    isPathLike s.extensions "users.index" = false ∧ s.Confines "admin::users.index" ∧
      s.candidates "admin::users.index" =
        [⟨"/srv/admin/users/index.ludou.html"⟩, ⟨"/srv/admin/users/index.html"⟩] := by
  intro s
  have hname : splitNamespace "admin::users.index" = (some "admin", "users.index") := by decide
  have hdotted : isPathLike s.extensions "users.index" = false := by rw [isPathLike_eq]; decide
  refine ⟨hdotted, (confines_iff hname hdotted).1.2 (.inr ⟨by decide, by decide⟩), ?_⟩
  rw [candidates_of_dotted hname hdotted]
  decide

/-- A name with a dot in front leaves the only root there is. -/
theorem candidate_outside_root :
    let s : SearchPath := ⟨[⟨"/a"⟩], [], ["html"]⟩
    isPathLike s.extensions ".etc.passwd" = false ∧
      s.candidates ".etc.passwd" = [⟨"/etc/passwd.html"⟩] ∧
      Path.liesUnder ⟨"/a"⟩ ⟨"/etc/passwd.html"⟩ = false ∧ ¬ s.Confines ".etc.passwd" := by
  intro s
  have hname : splitNamespace ".etc.passwd" = (none, ".etc.passwd") := by decide
  have hdotted : isPathLike s.extensions ".etc.passwd" = false := by rw [isPathLike_eq]; decide
  refine ⟨hdotted, ?_, by decide, ?_⟩
  · rw [candidates_of_leading_dot hname hdotted (by decide)]
    decide
  · rw [confines_iff_forall hname hdotted]
    decide

end SearchPath

end Hashmark
