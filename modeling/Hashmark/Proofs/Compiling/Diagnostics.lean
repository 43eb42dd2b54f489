import Hashmark.Catalog.SearchPath
import Hashmark.Proofs.Compiling.Reports
import Hashmark.Proofs.Parsing.Places

/-!
# Where errors of compiling point to

An error of compiling that stands in a text has the name of a template that was reached from the one
that is compiled, and points into its text (`compile_error_points`), also where it is found while
another template is compiled.
-/

namespace Hashmark

variable {language : Language} {c : Catalog} {name : String}

/-- Whether an error has no place, or one in a template that a name leads to. -/
def Catalog.PointsInto (c : Catalog) (language : Language) (name : String) (e : TemplateError) :
    Prop :=
  ∀ p ∈ e.place?, ∃ d, c.LeadsTo language [name] d ∧ c.load p.template = .ok d ∧
    d.source.Locates p

/-- Whether a catalog gives its templates the names under which they are loaded, and names none in
the errors of loading. -/
structure Catalog.Naming (c : Catalog) : Prop where
  loaded : ∀ {name d}, c.load name = .ok d → d.source.name = name
  missing : ∀ {name e}, c.load name = .error e → e.place? = none

/-- An error that points into a template that is reached. -/
theorem Catalog.Naming.pointsInto (hnaming : c.Naming) {d : Document} {e : TemplateError}
    (hd : c.LeadsTo language [name] d) (he : d.source.Points e) : c.PointsInto language name e := by
  intro p hp
  have hlocates := he p hp
  obtain ⟨name', hload⟩ := hd.exists_load
  refine ⟨d, hd, ?_, hlocates⟩
  rwa [hlocates.template, hnaming.loaded hload]

/-- All errors about what a name leads to point into it. -/
theorem Catalog.Naming.reports (hnaming : c.Naming) :
    Reports language c (fun _ d => c.LeadsTo language [name] d) (c.PointsInto language name) where
  missing h p hp := by
    rw [hnaming.missing h] at hp
    cases hp
  unparsed hd := (raises_parseTemplate _ _).mono fun _ he => hnaming.pointsInto hd he.points
  alone hd := hd
  step hd hto := by
    obtain ⟨name', hname', d₀, hload, hreaches⟩ := hd
    exact ⟨name', hname', d₀, hload, hreaches.tail hto⟩
  circularConnect hd _ _ :=
    hnaming.pointsInto hd (Source.Holds.points (Source.holds_occurrence _ _) _)
  circularExtends hd _ _ hparse hlayout :=
    hnaming.pointsInto hd ((holds_layout hparse hlayout).points _)
  extendsInPartial hd hparse hlayout :=
    hnaming.pointsInto hd ((holds_layout hparse hlayout).points _)

theorem Catalog.Naming.raises_compile (hnaming : c.Naming) :
    Raises (c.PointsInto language name) (compile language c name) :=
  hnaming.reports.raises_compile fun d hd => ⟨name, List.mem_singleton_self _, d, hd, .refl⟩

/-! ### Libraries and files -/

theorem Library.naming (l : Library) : l.catalog.Naming where
  loaded {name d} h := by
    have hload : l.load name = .ok d := h
    unfold Library.load at hload
    split at hload <;> cases hload
    rfl
  missing {name e} h := by
    have hload : l.load name = .error e := h
    unfold Library.load at hload
    split at hload <;> cases hload
    rfl

theorem SearchPath.naming (s : SearchPath) (disk : Disk) : (s.catalog disk).Naming where
  loaded {name d} h := by
    have hload : s.load disk name = .ok d := h
    unfold SearchPath.load at hload
    split at hload
    · cases hload
    · split at hload <;> cases hload
      rfl
  missing {name e} h := by
    have hload : s.load disk name = .error e := h
    unfold SearchPath.load at hload
    split at hload
    · next hfind =>
      cases hload
      unfold SearchPath.find at hfind
      split at hfind <;> cases hfind
      rfl
    · split at hload <;> cases hload
      rfl

/-- **Errors point into the right text.** If compiling ends in an error that stands in a text, the
error names a template that the compiled one leads to. It stands in the bytes of that template, and
its line is one more than the line breaks before it. -/
theorem compile_error_points (language : Language) (name : String) (e : TemplateError) (p : Place)
    (hp : e.place? = some p) :
    (∀ l : Library, compile language l.catalog name = .error e →
      ∃ d, l.catalog.LeadsTo language [name] d ∧ l.load p.template = .ok d ∧
        d.source.Locates p) ∧
    ∀ (s : SearchPath) (disk : Disk), compile language (s.catalog disk) name = .error e →
      ∃ d, (s.catalog disk).LeadsTo language [name] d ∧ s.load disk p.template = .ok d ∧
        d.source.Locates p :=
  ⟨fun l h => l.naming.raises_compile e h p hp,
    fun s disk h => (s.naming disk).raises_compile e h p hp⟩

/-- A page connects a partial with a denied call, behind a character of two bytes and two line
breaks: the error is one of the partial, on its third line. -/
theorem compile_error_points_partial :
    let l := (Library.empty.set "page" "#connect('p')").set "p" "é\n\n #[exec('ls')]"
    compile ⟨[], .empty⟩ l.catalog "page" = .error (.blocked "exec" ⟨"p", 3, 7, 4⟩) ∧
      ∃ d, l.catalog.LeadsTo ⟨[], .empty⟩ ["page"] d ∧ l.load "p" = .ok d ∧
        d.source.Locates ⟨"p", 3, 7, 4⟩ := by
  intro l
  have hpage : l.catalog.load "page" =
      .ok ⟨⟨"page"⟩, ⟨"page", "#connect('p')"⟩, .ofSeconds 1⟩ := rfl
  have hpartial : l.catalog.load "p" =
      .ok ⟨⟨"p"⟩, ⟨"p", "é\n\n #[exec('ls')]"⟩, .ofSeconds 2⟩ := rfl
  have hother : (Path.mk "p").same ⟨"page"⟩ = false := by decide
  have hconnect : parseTemplate ⟨[], .empty⟩ ⟨"page", "#connect('p')"⟩ =
      .ok ⟨none, [.connect "p"]⟩ := by cbv
  have hblocked : parseTemplate ⟨[], .empty⟩ ⟨"p", "é\n\n #[exec('ls')]"⟩ =
      .error (.blocked "exec" ⟨"p", 3, 7, 4⟩) := by cbv
  have hcompile : compile ⟨[], .empty⟩ l.catalog "page" =
      .error (.blocked "exec" ⟨"p", 3, 7, 4⟩) := by
    simp [compile, hpage, layoutChain_step, hconnect, expandNodes, expandNode_connect, hpartial,
      hblocked, bind, Except.bind, hother]
  exact ⟨hcompile, (compile_error_points _ _ _ _ rfl).1 l hcompile⟩

end Hashmark
