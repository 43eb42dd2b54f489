import Hashmark.Fault
import Hashmark.Path
import Hashmark.Timestamp

/-!
# Catalogs of templates

Where templates are looked up by name. A catalog resolves a name to a path, loads the template that
a name stands for, and knows when a path was last modified. It has finitely many paths to load from,
which is why following layouts and partials ends.
-/

namespace Hashmark

/-- A template as it was found. -/
structure Document where
  path : Path
  source : Source
  modified : Timestamp
  deriving DecidableEq, Repr

/-- Where templates come from. -/
structure Catalog where
  /-- The path that a name stands for. -/
  resolve : String → Except TemplateError Path
  /-- The template that a name stands for. -/
  load : String → Except TemplateError Document
  /-- When a path was last modified, if there is something. -/
  modified : Path → Option Timestamp
  /-- Every path that a template can be loaded from. -/
  paths : List Path
  path_mem_paths : ∀ {name : String} {d : Document}, load name = .ok d → d.path ∈ paths

namespace Catalog

/-- The number of paths that are not the same as one of `seen`. -/
def unseen (c : Catalog) (seen : List Path) : Nat :=
  c.paths.countP fun p => !seen.any p.same

theorem unseen_cons_lt {c : Catalog} {name : String} {d : Document} {seen : List Path}
    (h : c.load name = .ok d) (hd : seen.any d.path.same = false) :
    c.unseen (d.path :: seen) < c.unseen seen := by
  obtain ⟨l, r, hlr⟩ := List.append_of_mem (c.path_mem_paths h)
  have mono : ∀ ps : List Path,
      ps.countP (fun p => !(d.path :: seen).any p.same) ≤ ps.countP fun p => !seen.any p.same :=
    fun ps => List.countP_mono_left fun p _ hp => by simp_all
  have hl := mono l
  have hr := mono r
  unfold unseen
  rw [hlr, List.countP_append, List.countP_append,
    List.countP_cons_of_neg (by simp [Path.same_refl]), List.countP_cons_of_pos (by simp [hd])]
  omega

end Catalog

end Hashmark
