import Hashmark.Catalog.Basic
import Hashmark.Dict

/-!
# Libraries

Templates kept in memory by name. A library has a clock that ticks with every change, so no two
changes have the same time.
-/

namespace Hashmark

/-- Templates by name, each with its text and the tick of its last change. -/
structure Library where
  clock : Nat
  templates : Dict (String × Nat)
  deriving Repr

namespace Library

/-- No templates, and nothing has happened. -/
def empty : Library :=
  ⟨0, []⟩

/-- Adds or replaces a template. -/
def set (l : Library) (name text : String) : Library :=
  ⟨l.clock + 1, Dict.insert name (text, l.clock + 1) l.templates⟩

/-- Marks a template as changed. The clock ticks even if there is none. -/
def touch (l : Library) (name : String) : Library :=
  match Dict.find? l.templates name with
  | some (text, _) => l.set name text
  | none => { l with clock := l.clock + 1 }

/-- Removes a template. -/
def remove (l : Library) (name : String) : Library :=
  { l with templates := Dict.erase l.templates name }

/-- The library that holds the templates of a list, set in order. -/
def ofList (templates : List (String × String)) : Library :=
  templates.foldl (fun l (name, text) => l.set name text) empty

/-- The error for a name that is not in the library. -/
def notFound (name : String) : TemplateError :=
  .notFound name ["memory:" ++ name]

/-- The template of a name. -/
def load (l : Library) (name : String) : Except TemplateError Document :=
  match Dict.find? l.templates name with
  | some (text, tick) => .ok ⟨⟨name⟩, ⟨name, text⟩, .ofSeconds tick⟩
  | none => .error (notFound name)

theorem path_mem_keys {l : Library} {name : String} {d : Document} (h : l.load name = .ok d) :
    d.path ∈ l.templates.keys.map Path.mk := by
  unfold load at h
  split at h
  · next text tick hfind =>
    cases h
    simp only [Dict.find?, List.lookup_eq_some_iff] at hfind
    obtain ⟨before, after, heq, -⟩ := hfind
    simp [Dict.keys, heq]
  · cases h

/-- A library as a catalog, where the path of a template is its name. -/
def catalog (l : Library) : Catalog where
  resolve name :=
    if Dict.contains l.templates name then .ok ⟨name⟩ else .error (notFound name)
  load := l.load
  modified p := (Dict.find? l.templates p.text).map fun (_, tick) => .ofSeconds tick
  paths := l.templates.keys.map Path.mk
  path_mem_paths := path_mem_keys

end Library

end Hashmark
