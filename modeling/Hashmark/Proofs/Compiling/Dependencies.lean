import Mathlib
import Hashmark.Proofs.Caching.Transparency
import Hashmark.Proofs.Compiling.Inheritance
import Hashmark.Proofs.Compiling.Reach

/-!
# What an artifact depends on

The dependencies of an artifact should be all that it was made from: as long as none of them
changes, compiling gives the artifact again, whatever else is in the library. The dependencies are
those of templates that the name leads to, the template itself first, and each template that it
leads to has a dependency at its path. This is enough if it is the template's own dependency, and
not enough if it is not (`dependencies_determine_iff`): then the template can be taken away, and
compiling notices though no dependency has changed.

A template lacks its own dependency where a partial is at the same path as another template under
another name; `unrecorded_partial` is such a page.
-/

namespace Hashmark

/-! ### Fewer documents -/

/-- Documents that are closed where fewer names are loaded are closed. -/
theorem Catalog.Closed.of_loads {language : Language} {c c' : Catalog} {documents : List Document}
    (hloads : ∀ name d, c'.load name = .ok d → c.load name = .ok d)
    (h : c'.Closed language documents) : c.Closed language documents := by
  intro d hd
  obtain ⟨template, hparse, hreferences⟩ := h d hd
  refine ⟨template, hparse, fun name hname => ?_⟩
  obtain ⟨d', hd', hload⟩ := hreferences name hname
  exact ⟨d', hd', hloads name d' hload⟩

namespace Library

theorem load_remove (l : Library) (key name : String) :
    (l.remove key).load name = if name = key then .error (notFound name) else l.load name := by
  unfold load remove
  rw [Dict.find?_erase]
  by_cases h : name = key
  · rw [if_pos h, if_pos h]
  · rw [if_neg h, if_neg h]

/-- What is loaded after a template was taken away was loaded before. -/
theorem load_of_load_remove {l : Library} {key name : String} {d : Document}
    (h : (l.remove key).load name = .ok d) : name ≠ key ∧ l.load name = .ok d := by
  rw [load_remove] at h
  split at h
  · cases h
  · next hne => exact ⟨hne, h⟩

/-- Whether another library has what a library has at the paths of some dependencies, text and time
of modification. -/
def AgreesAt (l l' : Library) (dependencies : List Dependency) : Prop :=
  ∀ dep ∈ dependencies, l'.load dep.path.text = l.load dep.path.text

/-- Whether each template that a name leads to has its own path and time among some dependencies. -/
def RecordedIn (l : Library) (language : Language) (name : String)
    (dependencies : List Dependency) : Prop :=
  ∀ d, l.catalog.LeadsTo language [name] d → d.dependency ∈ dependencies

end Library

/-! ### Documents and dependencies -/

section Dependencies

variable {language : Language} {l l' : Library} {name : String} {a : Artifact}

/-- What an artifact was compiled from: the documents that its name leads to. -/
theorem exists_documents_of_compile (h : compile language l.catalog name = .ok a) :
    ∃ d links, l.load name = .ok d ∧ layoutChain language l.catalog [d.path] d = .ok links ∧
      a = assemble name links ∧
      ∀ d', l.catalog.LeadsTo language [name] d' ↔ d' ∈ chainDocuments links := by
  obtain ⟨d, links, hload, hlinks, rfl⟩ := compile_eq_ok.1 h
  refine ⟨d, links, hload, hlinks, rfl, fun d' => ⟨?_, fun hd' => ?_⟩⟩
  · rintro ⟨_, hname, d₀, hload₀, hreaches⟩
    obtain rfl := List.mem_singleton.1 hname
    cases hload.symm.trans hload₀
    exact mem_documents_of_reaches hlinks hreaches
  · exact ⟨name, List.mem_singleton_self _, d, hload, reaches_of_mem_documents hlinks hd'⟩

/-- A template that a name leads to is loaded by its path. -/
theorem load_of_leadsTo (h : compile language l.catalog name = .ok a) {d : Document}
    (hd : l.catalog.LeadsTo language [name] d) : l.load d.path.text = .ok d := by
  obtain ⟨d₀, links, hload, hlinks, -, hdocuments⟩ := exists_documents_of_compile h
  obtain ⟨n, hn⟩ := layoutChain_loaded hlinks ⟨name, hload⟩ d ((hdocuments d).1 hd)
  have hpath : d.path = ⟨n⟩ := Library.load_path hn
  rw [hpath]
  exact hn

/-- Each dependency is that of a template that the name leads to. -/
theorem leadsTo_of_mem_dependencies (h : compile language l.catalog name = .ok a)
    {dep : Dependency} (hdep : dep ∈ a.dependencies) :
    ∃ d, l.catalog.LeadsTo language [name] d ∧ dep = d.dependency := by
  obtain ⟨d₀, links, -, -, rfl, hdocuments⟩ := exists_documents_of_compile h
  rcases mem_foldl_recordLink hdep with hdep | ⟨d, hd, rfl⟩
  · cases hdep
  · exact ⟨d, (hdocuments d).2 hd, rfl⟩

/-- Each template that the name leads to has a dependency at its path. -/
theorem exists_dependency_of_leadsTo (h : compile language l.catalog name = .ok a) {d : Document}
    (hd : l.catalog.LeadsTo language [name] d) :
    ∃ dep ∈ a.dependencies, dep.path.same d.path = true := by
  obtain ⟨d₀, links, -, -, rfl, hdocuments⟩ := exists_documents_of_compile h
  exact exists_same_of_mem_documents ((hdocuments d).1 hd)

/-- The first dependency is the template itself. -/
theorem head?_dependencies (h : compile language l.catalog name = .ok a) :
    ∃ d, l.load name = .ok d ∧ a.dependencies.head? = some d.dependency := by
  obtain ⟨d, links, hload, hlinks, rfl, hdocuments⟩ := exists_documents_of_compile h
  refine ⟨d, hload, ?_⟩
  obtain ⟨dep, hhead, hpath⟩ := Option.map_eq_some_iff.1 (templatePath?_assemble hlinks name)
  -- the dependency is one of a document, and the path tells which
  obtain ⟨d', hd', rfl⟩ := leadsTo_of_mem_dependencies h (List.mem_of_mem_head? hhead)
  have hload' := load_of_leadsTo h hd'
  rw [show d'.path = d.path from hpath, Library.load_path hload] at hload'
  cases hload.symm.trans hload'
  exact hhead

/-! ### Enough dependencies -/

/-- If every template that a name leads to is recorded, a library that agrees at the dependencies
serves all of them, and gives the same artifact. -/
theorem compile_of_agreesAt (h : compile language l.catalog name = .ok a)
    (hrecorded : l.RecordedIn language name a.dependencies)
    (hagree : l.AgreesAt l' a.dependencies) : compile language l'.catalog name = .ok a := by
  obtain ⟨d, links, hload, hlinks, rfl, hdocuments⟩ := exists_documents_of_compile h
  have hserves : l.catalog.Serves l'.catalog (chainDocuments links) := by
    intro n d' hn hd'
    have hdep := hagree _ (hrecorded d' ((hdocuments d').2 hd'))
    have hpath : d'.path = ⟨n⟩ := Library.load_path hn
    rw [show d'.dependency.path.text = n from congrArg Path.text hpath] at hdep
    exact hdep.trans hn
  refine compile_eq_ok.2 ⟨d, links, hserves name d hload ?_, layoutChain_congr hlinks hserves, rfl⟩
  exact mem_documents_of_layoutChain hlinks

/-- A library that loads only what another one loads, and in which a name compiles, loads each
template that the name leads to in the other one. -/
theorem load_of_compile_again (hloads : ∀ n d, l'.load n = .ok d → l.load n = .ok d)
    (h' : compile language l'.catalog name = .ok a) {d : Document}
    (hd : l.catalog.LeadsTo language [name] d) : ∃ n, l'.load n = .ok d := by
  obtain ⟨d₀, links, hload', hlinks', -, -⟩ := exists_documents_of_compile h'
  obtain ⟨_, hname, d₁, hload, hreaches⟩ := hd
  obtain rfl := List.mem_singleton.1 hname
  cases hload.symm.trans (hloads _ _ hload')
  refine layoutChain_loaded hlinks' ⟨_, hload'⟩ d ?_
  exact ((layoutChain_closed hlinks').of_loads hloads).mem_of_reaches
    (mem_documents_of_layoutChain hlinks') hreaches

/-- If a template that the name leads to is not recorded, compiling notices that it was taken away,
though nothing has changed at the dependencies. -/
theorem recordedIn_of_determined (h : compile language l.catalog name = .ok a)
    (hdetermined : ∀ l', l.AgreesAt l' a.dependencies → compile language l'.catalog name = .ok a) :
    l.RecordedIn language name a.dependencies := by
  intro d hd
  by_contra hnot
  have hagree : l.AgreesAt (l.remove d.path.text) a.dependencies := by
    intro dep hdep
    rw [Library.load_remove, if_neg]
    intro hpath
    obtain ⟨d', hd', rfl⟩ := leadsTo_of_mem_dependencies h hdep
    have hload' := load_of_leadsTo h hd'
    rw [show d'.path.text = d.path.text from hpath, load_of_leadsTo h hd] at hload'
    cases hload'
    exact hnot hdep
  have hloads : ∀ n d', (l.remove d.path.text).load n = .ok d' → l.load n = .ok d' :=
    fun n d' hn => (Library.load_of_load_remove hn).2
  obtain ⟨n, hn⟩ := load_of_compile_again hloads (hdetermined _ hagree) hd
  obtain ⟨hne, hload⟩ := Library.load_of_load_remove hn
  exact hne (by rw [Library.load_path hload])

/-- Where different templates have different paths, every one that a name leads to is recorded. -/
theorem recordedIn_of_pathsDiffer (h : compile language l.catalog name = .ok a)
    {names : Set String} (hwithin : l.Within names) (hnames : PathsDiffer names) :
    l.RecordedIn language name a.dependencies := by
  intro d hd
  obtain ⟨dep, hdep, hsame⟩ := exists_dependency_of_leadsTo h hd
  obtain ⟨d', hd', rfl⟩ := leadsTo_of_mem_dependencies h hdep
  have hload := load_of_leadsTo h hd
  have hload' := load_of_leadsTo h hd'
  have hpath := hnames _ (hwithin _ _ hload') _ (hwithin _ _ hload) hsame
  rw [hpath, hload] at hload'
  cases hload'
  exact hdep

/-- **Dependencies.** The dependencies of an artifact are those of templates that its name leads to
by layouts and partials, the template itself first, and each such template has a dependency at its
path. They determine the artifact, whatever else there is in a library, if and only if each such
template has its own dependency among them; so it is where no two names are the same path. -/
theorem dependencies_determine_iff (h : compile language l.catalog name = .ok a) :
    (∃ d, l.load name = .ok d ∧ a.dependencies.head? = some d.dependency) ∧
    (∀ dep ∈ a.dependencies, ∃ d, l.catalog.LeadsTo language [name] d ∧ dep = d.dependency) ∧
    (∀ d, l.catalog.LeadsTo language [name] d →
      ∃ dep ∈ a.dependencies, dep.path.same d.path = true) ∧
    ((∀ l', l.AgreesAt l' a.dependencies → compile language l'.catalog name = .ok a) ↔
      l.RecordedIn language name a.dependencies) ∧
    ∀ names, l.Within names → PathsDiffer names →
      l.RecordedIn language name a.dependencies := by
  refine ⟨head?_dependencies h, fun dep hdep => leadsTo_of_mem_dependencies h hdep,
    fun d hd => exists_dependency_of_leadsTo h hd, ⟨recordedIn_of_determined h, ?_⟩,
    fun names hwithin hnames => recordedIn_of_pathsDiffer h hwithin hnames⟩
  exact fun hrecorded l' hagree => compile_of_agreesAt h hrecorded hagree

end Dependencies

/-- A page with a layout is compiled to the same artifact wherever both are what they were. -/
theorem dependencies_determine_page :
    let l := (Library.empty.set "b" "#y").set "p" "#extends['b']#x"
    ∃ a, compile partLanguage l.catalog "p" = .ok a ∧
      a.dependencies = [⟨⟨"p"⟩, .ofSeconds 2⟩, ⟨⟨"b"⟩, .ofSeconds 1⟩] ∧
      ∀ l', l.AgreesAt l' a.dependencies → compile partLanguage l'.catalog "p" = .ok a := by
  intro l
  let base : Document := ⟨⟨"b"⟩, ⟨"b", "#y"⟩, .ofSeconds 1⟩
  let page : Document := ⟨⟨"p"⟩, ⟨"p", "#extends['b']#x"⟩, .ofSeconds 2⟩
  have hpage : l.catalog.load "p" = .ok page := rfl
  have hbase : l.catalog.load "b" = .ok base := rfl
  have hother : [page.path].any base.path.same = false := by decide
  have hlast : layoutChain partLanguage l.catalog [base.path, page.path] base =
      .ok [⟨base, [.yield "t" none], []⟩] :=
    layoutChain_eq_ok.2 ⟨_, _, _, parse_yield, expandNodes_alone _ _ _ _ _ rfl, rfl⟩
  have hcompile := compile_eq_ok.2 ⟨page, _, hpage, layoutChain_eq_ok.2 ⟨_, _, _, parse_extend,
    expandNodes_alone _ _ _ _ _ rfl, base, _, hbase, hother, hlast, rfl⟩, rfl⟩
  have hwithin : l.Within {"p", "b"} :=
    ((Library.within_empty _).set (by simp) _).set (by simp) _
  have hdiffer : PathsDiffer {"p", "b"} := by
    have hpb : (⟨"p"⟩ : Path).same ⟨"b"⟩ = false := by decide
    have hbp : (⟨"b"⟩ : Path).same ⟨"p"⟩ = false := by decide
    rintro m (rfl | rfl) n (rfl | rfl) hsame
    · rfl
    · rw [hpb] at hsame
      cases hsame
    · rw [hbp] at hsame
      cases hsame
    · rfl
  obtain ⟨-, -, -, hdetermines, hrecorded⟩ := dependencies_determine_iff hcompile
  exact ⟨_, hcompile, by decide, hdetermines.2 (hrecorded _ hwithin hdiffer)⟩

/-- A page connects `p` and `p/`, which are one path. The second one is not recorded, so the page
is compiled to something else once it is changed, though nothing has changed at the dependencies. -/
theorem unrecorded_partial :
    let l := ((Library.empty.set "p" "one").set "p/" "two").set "page" "#connect('p')#connect('p/')"
    let l' := l.set "p/" "three"
    ∃ a a', compile ⟨[], .empty⟩ l.catalog "page" = .ok a ∧
      a.dependencies = [⟨⟨"page"⟩, .ofSeconds 3⟩, ⟨⟨"p"⟩, .ofSeconds 1⟩] ∧
      l.AgreesAt l' a.dependencies ∧ compile ⟨[], .empty⟩ l'.catalog "page" = .ok a' ∧ a' ≠ a := by
  intro l l'
  have hpage : Dict.find? l.templates "page" = some ("#connect('p')#connect('p/')", 3) := by decide
  have hpage' : Dict.find? l'.templates "page" = some ("#connect('p')#connect('p/')", 3) := by
    decide
  have hfirst : Dict.find? l.templates "p" = some ("one", 1) := by decide
  have hfirst' : Dict.find? l'.templates "p" = some ("one", 1) := by decide
  have hsecond : Dict.find? l.templates "p/" = some ("two", 2) := by decide
  have hsecond' : Dict.find? l'.templates "p/" = some ("three", 4) := by decide
  refine ⟨_, _, compile_two_partials hpage hfirst hsecond (by cbv), rfl, ?_,
    compile_two_partials hpage' hfirst' hsecond' (by cbv), ?_⟩
  · intro dep hdep
    rcases List.mem_pair.1 hdep with rfl | rfl <;> rfl
  · intro heq
    have hbody := congrArg Artifact.body heq
    simp at hbody

end Hashmark
