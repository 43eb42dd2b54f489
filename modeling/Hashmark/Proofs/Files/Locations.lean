import Hashmark.Disk
import Hashmark.Marker.Lexer
import Mathlib.Data.List.Basic

/-!
# Locations and their paths

A location on a disk is a list of names, and `Disk.pathOf` writes it as one path. Nothing is lost by
that as long as the names can be names of files (`Location.Named`): following the path of a location
leads to that location or nowhere (`locate_pathOf`), and no two locations have the same path
(`eq_of_same_pathOf`). Every location that a disk finds is such a one (`locate_named`), since a path
is split at its slashes and its steps are told apart before names are looked up.
-/

namespace Hashmark

open Lexer (bind_eq_ok)

/-! ### Splitting a text -/

section Splitting

variable {separator replacement : Char} {cs piece : List Char}

theorem splitAt_of_not_mem (h : separator ∉ cs) : splitAt separator cs = [cs] := by
  induction cs with
  | nil => rfl
  | cons c cs ih =>
    obtain ⟨hne, hrest⟩ := not_or.1 (List.mem_cons.not.1 h)
    rw [splitAt, if_neg (Ne.symm hne), ih hrest]

theorem splitAt_append_cons (h : separator ∉ piece) (cs : List Char) :
    splitAt separator (piece ++ separator :: cs) = piece :: splitAt separator cs := by
  induction piece with
  | nil => simp [splitAt]
  | cons c piece ih =>
    obtain ⟨hne, hrest⟩ := not_or.1 (List.mem_cons.not.1 h)
    rw [List.cons_append, splitAt, if_neg (Ne.symm hne), ih hrest]

theorem splitAt_ne_nil : splitAt separator cs ≠ [] := by
  cases cs with
  | nil => simp [splitAt]
  | cons c cs =>
    rw [splitAt]
    split
    · simp
    · split <;> simp

theorem splitAt_append (cs ds : List Char) :
    splitAt separator (cs ++ separator :: ds) = splitAt separator cs ++ splitAt separator ds := by
  induction cs with
  | nil => simp [splitAt]
  | cons c cs ih =>
    by_cases hc : c = separator
    · simp [splitAt, hc, ih]
    · rw [List.cons_append, splitAt, if_neg hc, splitAt, if_neg hc, ih]
      cases hrest : splitAt separator cs with
      | nil => exact absurd hrest splitAt_ne_nil
      | cons piece pieces => rfl

/-- Splitting at one character and joining with another puts the other in place of the one. -/
theorem intercalate_splitAt (cs : List Char) :
    [replacement].intercalate (splitAt separator cs) =
      cs.map fun c => if c = separator then replacement else c := by
  induction cs with
  | nil => simp [splitAt]
  | cons c cs ih =>
    cases hrest : splitAt separator cs with
    | nil => exact absurd hrest splitAt_ne_nil
    | cons piece pieces =>
      rw [hrest] at ih
      by_cases hc : c = separator
      · simp [splitAt, hc, hrest, List.intercalate_cons_cons, ih]
      · rw [splitAt, if_neg hc, hrest, List.map_cons, if_neg hc, ← ih]
        cases pieces <;> simp [List.intercalate_cons_cons]

/-- Joining undoes splitting. -/
theorem intercalate_splitAt_self (cs : List Char) :
    [separator].intercalate (splitAt separator cs) = cs := by
  rw [intercalate_splitAt, List.map_congr_left (g := id) fun c _ => by split <;> simp_all,
    List.map_id]

/-- What is behind the joined pieces is behind the last of them. -/
theorem intercalate_concat_append (pieces : List (List Char)) (last rest : List Char) :
    [separator].intercalate (pieces ++ [last]) ++ rest =
      [separator].intercalate (pieces ++ [last ++ rest]) := by
  induction pieces with
  | nil => simp
  | cons piece pieces ih =>
    rw [List.cons_append, List.cons_append, List.intercalate_cons_of_ne_nil (by simp),
      List.intercalate_cons_of_ne_nil (by simp), List.append_assoc, ih]

/-- Splitting undoes joining, and goes on in the last piece. -/
theorem splitAt_intercalate_append {pieces : List (List Char)}
    (h : ∀ piece ∈ pieces, separator ∉ piece) (last : List Char) :
    splitAt separator ([separator].intercalate (pieces ++ [last])) =
      pieces ++ splitAt separator last := by
  induction pieces with
  | nil => simp
  | cons piece pieces ih =>
    obtain ⟨hpiece, hpieces⟩ := List.forall_mem_cons.1 h
    rw [List.cons_append, List.intercalate_cons_of_ne_nil (by simp), List.append_assoc,
      List.singleton_append, splitAt_append_cons hpiece, ih hpieces, List.cons_append]

/-- Splitting undoes joining. -/
theorem splitAt_intercalate {pieces : List (List Char)} (hne : pieces ≠ [])
    (h : ∀ piece ∈ pieces, separator ∉ piece) :
    splitAt separator ([separator].intercalate pieces) = pieces := by
  obtain ⟨first, last, rfl⟩ := (List.eq_nil_or_concat' pieces).resolve_left hne
  rw [splitAt_intercalate_append fun piece hpiece => h piece (List.mem_append_left _ hpiece),
    splitAt_of_not_mem (h last (by simp))]

theorem not_mem_of_mem_splitAt (h : piece ∈ splitAt separator cs) : separator ∉ piece := by
  induction cs generalizing piece with
  | nil => simp_all [splitAt]
  | cons c cs ih =>
    rw [splitAt] at h
    split at h
    · rcases List.mem_cons.1 h with rfl | h
      · exact List.not_mem_nil
      · exact ih h
    · next hc =>
      split at h
      · simp_all [eq_comm]
      · next first rest heq =>
        rw [heq] at ih
        rcases List.mem_cons.1 h with rfl | h
        · have := ih (List.mem_cons_self ..)
          simp_all [eq_comm]
        · exact ih (List.mem_cons_of_mem _ h)

theorem subset_of_mem_splitAt (h : piece ∈ splitAt separator cs) : piece ⊆ cs := by
  induction cs generalizing piece with
  | nil => simp_all [splitAt]
  | cons c cs ih =>
    rw [splitAt] at h
    split at h
    · rcases List.mem_cons.1 h with rfl | h
      · exact List.nil_subset _
      · exact List.subset_cons_of_subset _ (ih h)
    · split at h
      · simp_all
      · next first rest heq =>
        rw [heq] at ih
        rcases List.mem_cons.1 h with rfl | h
        · exact List.cons_subset_cons _ (ih (List.mem_cons_self ..))
        · exact List.subset_cons_of_subset _ (ih (List.mem_cons_of_mem _ h))

end Splitting

/-! ### Names of files -/

/-- Whether a text can be the name of a file or a directory. -/
def IsFileName (name : String) : Prop :=
  Path.stepOf? name = some (.name name) ∧ '/' ∉ name.toList

/-- Whether all names on the way to a location can be names of files or directories. -/
def Location.Named (l : Location) : Prop :=
  ∀ name ∈ l, IsFileName name

theorem Location.named_append {l : Location} {name : String} (h : Location.Named l)
    (hname : IsFileName name) : Location.Named (l ++ [name]) :=
  List.forall_mem_append.2 ⟨h, by simpa using hname⟩

theorem Location.named_dropLast {l : Location} (h : Location.Named l) :
    Location.Named l.dropLast :=
  fun name hname => h name (List.dropLast_subset l hname)

theorem Path.eq_of_stepOf?_name {segment name : String}
    (h : Path.stepOf? segment = some (.name name)) : segment = name := by
  unfold Path.stepOf? at h
  split at h
  · cases h
  · split at h
    · cases h
    · exact Path.Step.name.inj (Option.some.inj h)

theorem Path.not_mem_segments {p : Path} {segment : String} (h : segment ∈ p.segments) :
    '/' ∉ segment.toList := by
  obtain ⟨piece, hpiece, rfl⟩ := List.mem_map.1 h
  simpa using not_mem_of_mem_splitAt hpiece

namespace Disk

/-! ### The path of a location -/

variable {d : Disk} {at' l l' : Location} {p : Path} {segment name : String}

/-- The path of the root ends in an empty segment; any other path ends in the name of the
location. -/
theorem segments_pathOf (h : Location.Named l) :
    (pathOf l).segments = "" :: if l = [] then [""] else l := by
  have htext : (pathOf l).text.toList =
      [] ++ '/' :: ['/'].intercalate (l.map String.toList) := by
    simp [pathOf, String.toList_append, String.toList_intercalate]
  rw [Path.segments, htext, splitAt_append_cons List.not_mem_nil]
  split
  · next hl => subst hl; rfl
  · next hl =>
    rw [splitAt_intercalate (by simpa using hl)
      (by simpa using fun name hname => (h name hname).2)]
    simp [Function.comp_def]

theorem steps_pathOf (h : Location.Named l) :
    (pathOf l).steps = .root :: l.map Path.Step.name := by
  have hnames : l.filterMap Path.stepOf? = l.map Path.Step.name := by
    rw [← List.filterMap_eq_map]
    exact List.filterMap_congr fun name hname => (h name hname).1
  have habsolute : (pathOf l).isAbsolute = true := by
    simp [Path.isAbsolute, pathOf, String.toList_append]
  rw [Path.steps, segments_pathOf h]
  by_cases hl : l = []
  · subst hl
    decide
  · simp [hl, habsolute, Path.stepOf?, hnames]

/-- **No two locations have the same path.** -/
theorem eq_of_same_pathOf (h : Location.Named l) (h' : Location.Named l')
    (hsame : (pathOf l).same (pathOf l') = true) : l = l' := by
  have hsteps : (pathOf l).steps = (pathOf l').steps := by
    simpa [Path.same] using hsame
  rw [steps_pathOf h, steps_pathOf h'] at hsteps
  exact List.map_injective_iff.2 (fun _ _ => Path.Step.name.inj) (List.cons.inj hsteps).2

/-! ### Following a path -/

theorem follow_idle (hidle : Path.stepOf? segment = none) (h : d.follow at' segment = .ok l) :
    l = at' := by
  unfold follow at h
  split at h
  · cases h
  · simpa [hidle] using h.symm

theorem follow_name (hname : Path.stepOf? name = some (.name name))
    (h : d.follow at' name = .ok l) : l = at' ++ [name] := by
  unfold follow at h
  split at h
  · cases h
  · simp only [hname] at h
    split at h <;> cases h
    rfl

/-- Each step from a proper location leads to a proper location. -/
theorem follow_named (hat : Location.Named at') (hsegment : '/' ∉ segment.toList)
    (h : d.follow at' segment = .ok l) : Location.Named l := by
  cases hstep : Path.stepOf? segment with
  | none => exact follow_idle hstep h ▸ hat
  | some step =>
    cases step with
    | name name =>
      obtain rfl := Path.eq_of_stepOf?_name hstep
      exact follow_name hstep h ▸ Location.named_append hat ⟨hstep, hsegment⟩
    | root | here | up =>
      unfold follow at h
      split at h
      · cases h
      · simp only [hstep] at h
        cases h
        first
        | exact hat
        | exact Location.named_dropLast hat

theorem foldlM_follow_named {segments : List String} (hat : Location.Named at')
    (hsegments : ∀ segment ∈ segments, '/' ∉ segment.toList)
    (h : segments.foldlM d.follow at' = .ok l) : Location.Named l := by
  induction segments generalizing at' with
  | nil => cases h; exact hat
  | cons segment segments ih =>
    obtain ⟨hsegment, hrest⟩ := List.forall_mem_cons.1 hsegments
    rw [List.foldlM_cons] at h
    obtain ⟨next, hnext, h⟩ := bind_eq_ok.1 h
    exact ih (follow_named hat hsegment hnext) hrest h

/-- **What is found is a proper location.** -/
theorem locate_named (hcurrent : Location.Named d.current) (h : d.locate p = .ok l) :
    Location.Named l := by
  unfold locate at h
  split at h
  · cases h
  · refine foldlM_follow_named ?_ (fun _ => Path.not_mem_segments) h
    show Location.Named (if p.isAbsolute then [] else d.current)
    split
    · exact fun _ hname => absurd hname List.not_mem_nil
    · exact hcurrent

theorem foldlM_follow_names {names : List String} (hnames : Location.Named names)
    (h : names.foldlM d.follow at' = .ok l) : l = at' ++ names := by
  induction names generalizing at' with
  | nil => cases h; simp
  | cons name names ih =>
    obtain ⟨hname, hrest⟩ := List.forall_mem_cons.1 hnames
    rw [List.foldlM_cons] at h
    obtain ⟨next, hnext, h⟩ := bind_eq_ok.1 h
    rw [ih hrest h, follow_name hname.1 hnext, List.append_assoc, List.singleton_append]

/-- **The path of a location leads there**, if it leads anywhere. -/
theorem locate_pathOf (hl : Location.Named l) (h : d.locate (pathOf l) = .ok l') :
    l' = l := by
  have hstart : d.start (pathOf l) = [] := by
    simp [start, Path.isAbsolute, pathOf, String.toList_append]
  unfold locate at h
  split at h
  · cases h
  · rw [segments_pathOf hl, hstart, List.foldlM_cons] at h
    obtain ⟨next, hnext, h⟩ := bind_eq_ok.1 h
    obtain rfl := follow_idle rfl hnext
    split at h
    · next hempty =>
      obtain ⟨next, hnext, h⟩ := bind_eq_ok.1 h
      cases h
      rw [follow_idle rfl hnext, hempty]
    · simpa using foldlM_follow_names hl h

/-! ### Files -/

variable {content : ByteArray} {modified : Timestamp}

/-- A path leads to a file exactly if it leads to a location where a file is. -/
theorem file?_eq_some :
    d.file? p = some (l, content, modified) ↔
      d.locate p = .ok l ∧ d.entry? l = some (.file content modified) := by
  unfold file? locate?
  constructor
  · intro h
    obtain ⟨l₁, hlocate, h⟩ := Option.bind_eq_some_iff.1 h
    split at h <;> cases h
    next hentry =>
    refine ⟨?_, hentry⟩
    cases hl : d.locate p with
    | error fault => simp [hl, Except.toOption] at hlocate
    | ok l₂ => simpa [hl, Except.toOption] using hlocate
  · rintro ⟨hlocate, hentry⟩
    simp [hlocate, hentry, Except.toOption]

/-- The file that the path of a location leads to is at that location. -/
theorem file?_pathOf (hl : Location.Named l)
    (h : d.file? (pathOf l) = some (l', content, modified)) :
    l' = l ∧ d.entry? l = some (.file content modified) := by
  obtain ⟨hlocate, hentry⟩ := file?_eq_some.1 h
  obtain rfl := locate_pathOf hl hlocate
  exact ⟨rfl, hentry⟩

/-! ### Changes -/

/-- Putting something somewhere changes no other location. -/
theorem entry?_put_of_ne {e : DiskEntry} (hne : l ≠ at') :
    entry? (d.put at' e) l = entry? d l := by
  unfold entry? put
  split
  · rfl
  · have hlookup : ∀ entries : List (Location × DiskEntry),
        (entries.filter (·.1 ≠ at')).lookup l = entries.lookup l := by
      intro entries
      induction entries with
      | nil => rfl
      | cons entry entries ih =>
        by_cases hentry : entry.1 = at'
        · have hother : (l == entry.1) = false := by simpa [hentry] using hne
          rw [List.filter_cons_of_neg (by simpa using hentry), ih, List.lookup_cons, hother]
        · rw [List.filter_cons_of_pos (by simpa using hentry), List.lookup_cons,
            List.lookup_cons, ih]
    rw [List.lookup_cons, beq_eq_false_iff_ne.2 hne]
    exact hlookup _

end Disk

end Hashmark
