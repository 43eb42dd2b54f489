import Hashmark.Catalog.SearchPath
import Hashmark.Engine
import Hashmark.Proofs.Compiling.Pages
import Hashmark.Proofs.Compiling.Reach
import Hashmark.Proofs.Files.Locations

/-!
# Artifacts of files

An artifact of files records the files that it was read from with their times, but not the lookups
that led to them. If nothing that is recorded has changed, then compiling again reads the same
files, as long as every name that was looked up still leads to the same file (`compile_of_current`).
A file that is new may come before a recorded one on the search path, and then the artifact is out
of date although it is not stale (`outdated_page_of_shadowed_partial`).
-/

namespace Hashmark

open Lexer (bind_eq_ok)

/-- Whether no file of one disk is on the other disk with another text but the same time. -/
def Disk.Consistent (old new : Disk) : Prop :=
  ∀ l content content' modified, old.entry? l = some (.file content modified) →
    new.entry? l = some (.file content' modified) → content = content'

theorem Disk.consistent_put {d : Disk} {l : Location} {e : DiskEntry} (h : d.entry? l = none) :
    d.Consistent (d.put l e) := by
  intro l' content content' modified hold hnew
  have hne : l' ≠ l := by
    rintro rfl
    rw [h] at hold
    cases hold
  rw [Disk.entry?_put_of_ne hne, hold, Option.some.injEq, DiskEntry.file.injEq] at hnew
  exact hnew.1

/-- Whether compiling a name over a catalog looks another name up: as the layout of the template or
as a partial, or that of a template that it leads to. -/
def Catalog.LooksUp (c : Catalog) (language : Language) (name n : String) : Prop :=
  ∃ d d' template, c.load name = .ok d ∧ c.Reaches language d d' ∧
    parseTemplate language d'.source = .ok template ∧ n ∈ template.references

namespace SearchPath

variable {s : SearchPath} {disk old new : Disk} {language : Language} {name : String}
  {d d' : Document} {p : Path} {l : Location} {content : ByteArray} {modified : Timestamp}

/-! ### Looking files up -/

/-- What is found for a name is a file at a proper location. -/
theorem file_of_find (hcurrent : Location.Named disk.current)
    (h : s.find disk name = .ok (l, content, modified)) :
    Location.Named l ∧ disk.entry? l = some (.file content modified) := by
  unfold find at h
  split at h <;> cases h
  next hsome =>
  obtain ⟨p, -, hp⟩ := List.exists_of_findSome?_eq_some hsome
  obtain ⟨hlocate, hentry⟩ := Disk.file?_eq_some.1 hp
  exact ⟨Disk.locate_named hcurrent hlocate, hentry⟩

/-- A name is loaded as the text of the file that it is resolved to. -/
theorem load_eq_ok :
    (s.catalog disk).load name = .ok d ↔
      ∃ l content text modified, s.find disk name = .ok (l, content, modified) ∧
        String.fromUTF8? content = some text ∧ d = ⟨Disk.pathOf l, ⟨name, text⟩, modified⟩ := by
  show s.load disk name = .ok d ↔ _
  unfold load
  constructor
  · intro h
    split at h
    · cases h
    · next l content modified hfind =>
      split at h <;> cases h
      next text htext => exact ⟨l, content, text, modified, hfind, htext, rfl⟩
  · rintro ⟨l, content, text, modified, hfind, htext, rfl⟩
    simp [hfind, htext]

theorem resolve_eq_ok :
    (s.catalog disk).resolve name = .ok p ↔
      ∃ l content modified, s.find disk name = .ok (l, content, modified) ∧
        p = Disk.pathOf l := by
  show (s.find disk name).map _ = .ok p ↔ _
  constructor
  · intro h
    cases hfind : s.find disk name with
    | error e => rw [hfind] at h; cases h
    | ok found =>
      rw [hfind] at h
      cases h
      exact ⟨found.1, found.2.1, found.2.2, rfl, rfl⟩
  · rintro ⟨l, content, modified, hfind, rfl⟩
    rw [hfind]
    rfl

/-- A template can only be loaded under the name that it has. -/
theorem name_of_load (h : (s.catalog disk).load name = .ok d) : d.source.name = name := by
  obtain ⟨l, content, text, modified, -, -, rfl⟩ := load_eq_ok.1 h
  rfl

theorem resolve_of_load (h : (s.catalog disk).load name = .ok d) :
    (s.catalog disk).resolve name = .ok d.path := by
  obtain ⟨l, content, text, modified, hfind, -, rfl⟩ := load_eq_ok.1 h
  exact resolve_eq_ok.2 ⟨l, content, modified, hfind, rfl⟩

/-- What a name is loaded as is on the disk, at a proper location. -/
theorem entry_of_load (hcurrent : Location.Named disk.current)
    (h : (s.catalog disk).load name = .ok d) :
    ∃ l content, Location.Named l ∧ d.path = Disk.pathOf l ∧
      disk.entry? l = some (.file content d.modified) ∧
      String.fromUTF8? content = some d.source.text := by
  obtain ⟨l, content, text, modified, hfind, htext, rfl⟩ := load_eq_ok.1 h
  obtain ⟨hl, hentry⟩ := file_of_find hcurrent hfind
  exact ⟨l, content, hl, rfl, hentry, htext⟩

/-- Two templates at the same path are one file. -/
theorem modified_of_same (hcurrent : Location.Named disk.current) {n n' : String}
    (h : (s.catalog disk).load n = .ok d) (h' : (s.catalog disk).load n' = .ok d')
    (hsame : d.path.same d'.path = true) : d.path = d'.path ∧ d.modified = d'.modified := by
  obtain ⟨l, content, hl, hpath, hentry, -⟩ := entry_of_load hcurrent h
  obtain ⟨l', content', hl', hpath', hentry', -⟩ := entry_of_load hcurrent h'
  obtain rfl := Disk.eq_of_same_pathOf hl hl' (hpath ▸ hpath' ▸ hsame)
  -- one location has one entry, so the times agree as well
  refine ⟨hpath.trans hpath'.symm, ?_⟩
  rw [hentry, Option.some.injEq, DiskEntry.file.injEq] at hentry'
  exact hentry'.2

/-- Two resolved paths with the same steps are one path. -/
theorem path_eq_of_same (hold : Location.Named old.current) (hnew : Location.Named new.current)
    {n n' : String} {p p' : Path} (h : (s.catalog old).resolve n = .ok p)
    (h' : (s.catalog new).resolve n' = .ok p') (hsame : p.same p' = true) : p = p' := by
  obtain ⟨l, content, modified, hfind, rfl⟩ := resolve_eq_ok.1 h
  obtain ⟨l', content', modified', hfind', rfl⟩ := resolve_eq_ok.1 h'
  rw [Disk.eq_of_same_pathOf (file_of_find hold hfind).1 (file_of_find hnew hfind').1 hsame]

/-- **One file.** A template is loaded from a later disk as before if its name is still resolved to
its path and the file there has the same time. -/
theorem load_of_unchanged (hold : Location.Named old.current) (hnew : Location.Named new.current)
    (hconsistent : old.Consistent new) (hload : (s.catalog old).load name = .ok d)
    (hresolve : (s.catalog new).resolve name = .ok d.path)
    (hmodified : (s.catalog new).modified d.path = some d.modified) :
    (s.catalog new).load name = .ok d := by
  obtain ⟨l, content, hl, hpath, hentry, htext⟩ := entry_of_load hold hload
  obtain ⟨l', content', modified', hfind, hpath'⟩ := resolve_eq_ok.1 hresolve
  obtain ⟨hl', hentry'⟩ := file_of_find hnew hfind
  obtain rfl := Disk.eq_of_same_pathOf hl hl' (hpath ▸ hpath' ▸ Path.same_refl _)
  -- so both files are at one location, and have one time
  obtain ⟨⟨_, content'', _⟩, hfound, rfl⟩ := Option.map_eq_some_iff.1 hmodified
  obtain ⟨-, hentry''⟩ := Disk.file?_pathOf hl (hpath ▸ hfound)
  rw [hentry', Option.some.injEq, DiskEntry.file.injEq] at hentry''
  obtain ⟨rfl, htime⟩ := hentry''
  obtain rfl := hconsistent l content content' _ hentry (htime ▸ hentry')
  refine load_eq_ok.2 ⟨l, content, _, modified', hfind, htext, ?_⟩
  rw [htime, ← hpath, ← name_of_load hload]

/-! ### Compiling again -/

/-- **Artifacts of files.** An artifact that may be taken for a name is what the name is compiled
to, as long as the names that were looked up for it are resolved as they were. -/
theorem compile_of_current (hold : Location.Named old.current)
    (hnew : Location.Named new.current) (hconsistent : old.Consistent new) {a : Artifact}
    (hcompile : compile language (s.catalog old) name = .ok a)
    (hresolve : (s.catalog new).resolve name = .ok p)
    (hpath : a.templatePath?.any p.same = true)
    (hcurrent : a.isStale (s.catalog new).modified = false)
    (hlookups : ∀ n, (s.catalog old).LooksUp language name n →
      (s.catalog new).resolve n = (s.catalog old).resolve n) :
    compile language (s.catalog new) name = .ok a := by
  obtain ⟨d, links, hload, hlinks, rfl⟩ := compile_eq_ok.1 hcompile
  have hmem := mem_documents_of_layoutChain hlinks
  have hloaded := layoutChain_loaded hlinks ⟨name, hload⟩
  -- every file that was read has the time that it had
  have hmodified : ∀ d' ∈ chainDocuments links,
      (s.catalog new).modified d'.path = some d'.modified := by
    intro d' hd'
    obtain ⟨dep, hdep, hsame⟩ : ∃ dep ∈ (assemble name links).dependencies,
        dep.path.same d'.path = true := exists_same_of_mem_documents hd'
    obtain ⟨d₁, hd₁, rfl⟩ := (mem_foldl_recordLink hdep).resolve_left List.not_mem_nil
    obtain ⟨n, hn⟩ := hloaded d' hd'
    obtain ⟨n₁, hn₁⟩ := hloaded d₁ hd₁
    -- a file whose path was known already is the file that was recorded
    obtain ⟨hpath₁, htime₁⟩ := modified_of_same hold hn₁ hn hsame
    have hunchanged : ∀ dep ∈ (assemble name links).dependencies,
        (s.catalog new).modified dep.path = some dep.modified := by
      simpa [Artifact.isStale] using hcurrent
    rw [← hpath₁, ← htime₁]
    exact hunchanged _ hdep
  -- and every name under which one was read leads to it
  have hresolves : ∀ d' ∈ chainDocuments links, ∀ n, (s.catalog old).load n = .ok d' →
      (s.catalog new).resolve n = .ok d'.path := by
    intro d' hd' n hn
    rcases (reaches_of_mem_documents hlinks hd').cases_tail with rfl | ⟨d₁, hreaches, hrefers⟩
    · obtain rfl : name = n := (name_of_load hload).symm.trans (name_of_load hn)
      rw [hresolve]
      rw [templatePath?_assemble hlinks, Option.any_some] at hpath
      exact congrArg _ (path_eq_of_same hnew hold hresolve (resolve_of_load hload) hpath)
    · obtain ⟨template, hparse, n₁, hn₁, hload₁⟩ := hrefers
      obtain rfl : n₁ = n := (name_of_load hload₁).symm.trans (name_of_load hn)
      rw [hlookups n₁ ⟨d, d₁, template, hload, hreaches, hparse, hn₁⟩, resolve_of_load hn]
  have hserves : (s.catalog old).Serves (s.catalog new) (chainDocuments links) :=
    fun n d' hn hd' =>
      load_of_unchanged hold hnew hconsistent hn (hresolves d' hd' n hn) (hmodified d' hd')
  exact compile_eq_ok.2 ⟨d, links, hserves name d hload hmem, layoutChain_congr hlinks hserves, rfl⟩

/-! ### Two roots -/

/-- Two directories, of which `/a` comes first. -/
def twoRoots : SearchPath :=
  ⟨[⟨"/a"⟩, ⟨"/b"⟩], [], ["h"]⟩

/-- A page under the first root that connects a partial under the second one. -/
def pageAndPartial : Disk where
  entries :=
    [(["a"], .directory), (["b"], .directory),
      (["a", "p.h"], .file "#connect('q')".toUTF8 (.ofSeconds 1)),
      (["b", "q.h"], .file "1".toUTF8 (.ofSeconds 2))]
  current := []

/-- The artifact of the page. -/
def pageArtifact : Artifact :=
  ⟨1, "p", [], [.text "1"], [⟨⟨"/a/p.h"⟩, .ofSeconds 1⟩, ⟨⟨"/b/q.h"⟩, .ofSeconds 2⟩]⟩

theorem parse_connect :
    parseTemplate ⟨[], .empty⟩ ⟨"p", "#connect('q')"⟩ = .ok ⟨none, [.connect "q"]⟩ := by
  cbv

theorem load_page : (twoRoots.catalog pageAndPartial).load "p" =
    .ok ⟨⟨"/a/p.h"⟩, ⟨"p", "#connect('q')"⟩, .ofSeconds 1⟩ := by
  cbv

theorem load_partial : (twoRoots.catalog pageAndPartial).load "q" =
    .ok ⟨⟨"/b/q.h"⟩, ⟨"q", "1"⟩, .ofSeconds 2⟩ := by
  cbv

/-- A page with nothing but a partial is compiled to the nodes of the partial. -/
theorem compile_connecting_page {c : Catalog} {page part : Document} {nodes : List Node}
    (hpage : c.load "p" = .ok page) (hpart : c.load "q" = .ok part)
    (hparse : parseTemplate language page.source = .ok ⟨none, [.connect "q"]⟩)
    (hplain : parseTemplate language part.source = .ok ⟨none, nodes⟩)
    (hnodes : ∀ inside, expandNodes language c inside part.source nodes = .ok (nodes, []))
    (hother : page.path.same part.path = false ∧ part.path.same page.path = false) :
    compile language c "p" = .ok ⟨1, "p", [], nodes, [page.dependency, part.dependency]⟩ := by
  have hexpand : expandNodes language c [page.path] page.source [.connect "q"] =
      .ok (nodes, [part]) :=
    expandNodes_cons_eq_ok.2 ⟨_, _, _, _, expandNode_connect_eq_ok.2 ⟨part, _, _, hpart,
      by simpa using hother.2, hplain, rfl, hnodes _, rfl⟩, by rw [expandNodes], by simp, rfl⟩
  refine compile_eq_ok.2 ⟨page, [⟨page, _, [part]⟩], hpage,
    layoutChain_eq_ok.2 ⟨_, _, _, hparse, hexpand, rfl⟩, ?_⟩
  simp [assemble, recordLink, recordPartial, Document.dependency, hother.1,
    Artifact.currentVersion]

theorem compile_page_of_root :
    compile ⟨[], .empty⟩ (twoRoots.catalog pageAndPartial) "p" = .ok pageArtifact :=
  compile_connecting_page load_page load_partial parse_connect (by cbv)
    (fun _ => expandNodes_alone _ _ _ _ _ rfl) (by decide)

/-- The page leads to the partial only, so it looks up no other name. -/
theorem eq_of_looksUp {n : String}
    (h : (twoRoots.catalog pageAndPartial).LooksUp ⟨[], .empty⟩ "p" n) : n = "q" := by
  obtain ⟨d, d', template, hload, hreaches, hparse, hn⟩ := h
  obtain rfl := Except.ok.inj (load_page.symm.trans hload)
  have hpage : ∀ {t : Template}, parseTemplate ⟨[], .empty⟩ ⟨"p", "#connect('q')"⟩ = .ok t →
      ∀ m ∈ t.references, m = "q" := by
    intro t ht
    rw [parse_connect] at ht
    cases ht
    decide
  have hpart : ∀ {t : Template}, parseTemplate ⟨[], .empty⟩ ⟨"q", "1"⟩ = .ok t →
      t.references = [] := by
    intro t ht
    rw [show parseTemplate ⟨[], .empty⟩ ⟨"q", "1"⟩ = .ok ⟨none, [.text "1"]⟩ by cbv] at ht
    cases ht
    decide
  -- nothing but the page and the partial is reached, and the partial refers to nothing
  have hreached : d' = ⟨⟨"/a/p.h"⟩, ⟨"p", "#connect('q')"⟩, .ofSeconds 1⟩ ∨
      d' = ⟨⟨"/b/q.h"⟩, ⟨"q", "1"⟩, .ofSeconds 2⟩ := by
    clear hparse hn
    induction hreaches with
    | refl => exact .inl rfl
    | tail _ hrefers ih =>
      obtain ⟨t, ht, m, hm, hloadm⟩ := hrefers
      rcases ih with rfl | rfl
      · obtain rfl := hpage ht m hm
        exact .inr (Except.ok.inj (hloadm.symm.trans load_partial))
      · rw [hpart ht] at hm
        cases hm
  rcases hreached with rfl | rfl
  · exact hpage hparse n hn
  · rw [hpart hparse] at hn
    cases hn

/-- A file that is new and that nothing looks up leaves the page as it is. -/
theorem compile_beside_new_file :
    let new := pageAndPartial.put ["a", "r.h"] (.file "2".toUTF8 (.ofSeconds 3))
    (twoRoots.catalog new).load "r" = .ok ⟨⟨"/a/r.h"⟩, ⟨"r", "2"⟩, .ofSeconds 3⟩ ∧
      compile ⟨[], .empty⟩ (twoRoots.catalog new) "p" = .ok pageArtifact := by
  intro new
  refine ⟨by cbv, ?_⟩
  refine compile_of_current (fun _ h => absurd h List.not_mem_nil)
    (fun _ h => absurd h List.not_mem_nil) (Disk.consistent_put (by decide)) compile_page_of_root
    (p := ⟨"/a/p.h"⟩) (by cbv) (by decide) (by cbv) fun n hn => ?_
  obtain rfl := eq_of_looksUp hn
  rw [resolve_of_load load_partial]
  cbv

/-- **A shadowed partial.** A new file that comes before the partial on the search path is found in
its place. The artifact of the page is not stale, but it is not the present one. -/
theorem outdated_page_of_shadowed_partial :
    let new := pageAndPartial.put ["a", "q.h"] (.file "2".toUTF8 (.ofSeconds 3))
    pageAndPartial.Consistent new ∧
      compile ⟨[], .empty⟩ (twoRoots.catalog pageAndPartial) "p" = .ok pageArtifact ∧
      (twoRoots.catalog new).resolve "p" = .ok ⟨"/a/p.h"⟩ ∧
      pageArtifact.templatePath? = some ⟨"/a/p.h"⟩ ∧
      pageArtifact.isStale (twoRoots.catalog new).modified = false ∧
      ∃ a, compile ⟨[], .empty⟩ (twoRoots.catalog new) "p" = .ok a ∧
        pageArtifact.render .empty .empty = .ok "1" ∧ a.render .empty .empty = .ok "2" := by
  intro new
  have hpage : (twoRoots.catalog new).load "p" =
      .ok ⟨⟨"/a/p.h"⟩, ⟨"p", "#connect('q')"⟩, .ofSeconds 1⟩ := by cbv
  have hpart : (twoRoots.catalog new).load "q" =
      .ok ⟨⟨"/a/q.h"⟩, ⟨"q", "2"⟩, .ofSeconds 3⟩ := by cbv
  have hcompile := compile_connecting_page hpage hpart parse_connect
    (show parseTemplate ⟨[], .empty⟩ ⟨"q", "2"⟩ = .ok ⟨none, [.text "2"]⟩ by cbv)
    (fun _ => expandNodes_alone _ _ _ _ _ rfl) (by decide)
  refine ⟨Disk.consistent_put (by decide), compile_page_of_root, resolve_of_load hpage, rfl,
    by cbv, _, hcompile, by cbv, by cbv⟩

end SearchPath

end Hashmark
