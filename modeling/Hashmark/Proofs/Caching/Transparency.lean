import Mathlib
import Hashmark.Engine
import Hashmark.Proofs.Caching.History
import Hashmark.Proofs.Compiling.Pages

/-!
# A cache that cannot be seen

An engine over a library and a memory is used for a while: templates come and go, artifacts are
stored, forgotten, copied under other keys and spoiled. What a template renders to must not depend
on any of it, only on the library. This holds as long as no two names in use are the same path
(`transparent_iff`): every stored artifact was compiled from an earlier state of the library
(`Backed`), and one whose dependencies all have the times they had is the artifact of the present
state (`fresh_of_isCurrent`).

With two names for one path it fails, since a path is recorded as a dependency only once
(`exists_stale_render`).
-/

namespace Hashmark

/-! ### Sessions -/

/-- Whether reading a written artifact gives that artifact, or nothing. -/
def Codec.Faithful (codec : Codec) : Prop :=
  ∀ a, codec.decode? (codec.encode a) = some a ∨ codec.decode? (codec.encode a) = none

namespace Engine

/-- An engine over templates and a cache that are both in memory; its other parts are free. -/
structure InMemory (e : Engine (Library × Memory)) : Prop where
  catalog_eq : e.catalog = fun s => s.1.catalog
  cache_eq : e.cache = Memory.backend.onSecond

/-- The same engine without a cache. -/
def uncached (e : Engine σ) : Engine σ :=
  { e with cache := Backend.null }

end Engine

/-- What can happen to a library and to the cache of an engine over it. -/
inductive Event (codec : Codec) where
  | set (name text : String)
  | touch (name : String)
  | remove (name : String)
  | render (name : String) (scopes : Scopes)
  | compile (name : String)
  | recompile (name : String)
  | compilePath (p : Path)
  | flush
  | forget (key : String)
  /-- The text under a key, if there is one, is stored under another key. -/
  | copy (source target : String) (ttl : Option Duration)
  /-- A text that is no artifact is stored under a key. -/
  | spoil (key text : String) (ttl : Option Duration) (unreadable : codec.decode? text = none)

/-- The state after an event. A library whose clock has stopped cannot be changed any more. -/
def Event.apply (e : Engine (Library × Memory)) (now : Timestamp) (s : Library × Memory) :
    Event e.codec → Option (Library × Memory)
  | .set name text => if s.1.clock < Library.lastTick then some (s.1.set name text, s.2) else none
  | .touch name => if s.1.clock < Library.lastTick then some (s.1.touch name, s.2) else none
  | .remove name => some (s.1.remove name, s.2)
  | .render name scopes => some (e.render now name scopes s).2
  | .compile name => some (e.compile now name s).2
  | .recompile name => some (e.recompile now name s).2
  | .compilePath p => some (e.compilePath now p s).2
  | .flush => some (e.cache.flush s).2
  | .forget key => some (e.cache.forget key s).2
  | .copy source target ttl =>
    match e.cache.get now source s with
    | (some text, s) => e.cache.put now target text ttl s
    | (none, s) => some s
  | .spoil key text ttl _ => e.cache.put now key text ttl s

/-- The state after some events, each of which happens at a time. -/
def Event.run (e : Engine (Library × Memory)) (s : Library × Memory) :
    List (Timestamp × Event e.codec) → Option (Library × Memory)
  | [] => some s
  | (now, event) :: events => (event.apply e now s).bind fun s => run e s events

/-- Whether an event sets no other templates than those of some names. -/
def Event.Within {codec : Codec} (names : Set String) : Event codec → Prop
  | .set name _ => name ∈ names
  | _ => True

/-- Whether an engine with a cache gives what it gives without one, whatever happened before to a
library in which templates have some names only. -/
def Transparent (names : Set String) : Prop :=
  ∀ e : Engine (Library × Memory), e.InMemory → e.codec.Faithful →
    ∀ (capacity : Nat) (events : List (Timestamp × Event e.codec)) (s : Library × Memory),
      (∀ event ∈ events, event.2.Within names) →
      Event.run e (Library.empty, Memory.ofCapacity capacity) events = some s →
      ∀ now name scopes, (e.render now name scopes s).1 = (e.uncached.render now name scopes s).1

/-! ### The artifacts in a cache -/

/-- Whether templates have some names only. -/
def Library.Within (names : Set String) (l : Library) : Prop :=
  ∀ name d, l.load name = .ok d → name ∈ names

theorem Library.within_empty (names : Set String) : Library.empty.Within names := by
  intro name d hload
  obtain ⟨_, _, hfind, -⟩ := Library.load_eq_ok.1 hload
  cases hfind

theorem Library.Within.set {names : Set String} {l : Library} {name : String}
    (h : l.Within names) (hname : name ∈ names) (text : String) :
    (l.set name text).Within names := by
  intro other d hload
  obtain ⟨text', tick, hfind, -⟩ := Library.load_eq_ok.1 hload
  rw [Library.find?_set] at hfind
  split at hfind
  · next heq => exact heq ▸ hname
  · exact h other _ (Library.load_eq_ok.2 ⟨text', tick, hfind, rfl⟩)

/-- **The invariant of a session.** Every artifact that can be read from the cache was compiled
from an earlier state of the library. -/
structure Backed (e : Engine (Library × Memory)) (names : Set String) (s : Library × Memory) :
    Prop where
  ticked : s.1.Ticked
  within : s.1.Within names
  stored : ∀ text ∈ s.2.texts, ∀ a, e.codec.decode? text = some a →
    ∃ s₀ name₀, s₀.1.Precedes s.1 ∧ s₀.1.Within names ∧ e.fresh name₀ s₀ = .ok a

/-- Whether no two of some names are the same path. -/
def PathsDiffer (names : Set String) : Prop :=
  ∀ m ∈ names, ∀ n ∈ names, (⟨m⟩ : Path).same ⟨n⟩ = true → m = n

variable {e : Engine (Library × Memory)} {names : Set String} {s s₀ s' : Library × Memory}
  {now : Timestamp} {name name₀ k : String} {a : Artifact}

theorem Engine.fresh_eq_ok {σ : Type} {e : Engine σ} {s : σ} :
    e.fresh name s = .ok a ↔ ∃ a', Hashmark.compile e.language (e.catalog s) name = .ok a' ∧
      a = if e.optimizes then a'.optimize else a' := by
  unfold Engine.fresh
  constructor
  · intro h
    cases hc : Hashmark.compile e.language (e.catalog s) name with
    | error err => rw [hc] at h; cases h
    | ok a' => rw [hc] at h; cases h; exact ⟨a', rfl, rfl⟩
  · rintro ⟨a', hc, rfl⟩
    rw [hc]
    rfl

theorem Artifact.optimize_dependencies (a : Artifact) :
    a.optimize.dependencies = a.dependencies := rfl

theorem Library.resolve_eq_ok {l : Library} {p : Path} (h : l.catalog.resolve name = .ok p) :
    p = ⟨name⟩ ∧ ∃ d, l.load name = .ok d := by
  dsimp only [Library.catalog] at h
  split at h
  · next hfind =>
    cases h
    obtain ⟨⟨text, tick⟩, hfind⟩ := Option.isSome_iff_exists.1 hfind
    exact ⟨rfl, _, Library.load_eq_ok.2 ⟨text, tick, hfind, rfl⟩⟩
  · cases h

/-- **A current artifact is the present one.** An artifact of an earlier state of the library whose
dependencies have the times they had is what compiling gives now. -/
theorem fresh_of_isCurrent (he : e.InMemory) (hnames : PathsDiffer names)
    (hpre : s₀.1.Precedes s.1) (hticked : s.1.Ticked) (hwithin₀ : s₀.1.Within names)
    (hwithin : s.1.Within names) (h₀ : e.fresh name₀ s₀ = .ok a) {p : Path}
    (hresolve : (e.catalog s).resolve name = .ok p) (hcurrent : e.isCurrent k p a s = true) :
    e.fresh name s = .ok a := by
  obtain ⟨a', hcompile, ha⟩ := Engine.fresh_eq_ok.1 h₀
  have hdeps : a.dependencies = a'.dependencies := by
    rw [ha]; split <;> simp [Artifact.optimize_dependencies]
  simp only [Engine.isCurrent, Bool.and_eq_true, he.catalog_eq] at hcurrent hcompile hresolve
  obtain ⟨⟨hpath, hstale⟩, -⟩ := hcurrent
  obtain ⟨documents, hloaded, hrecorded, hdocument, ⟨d, -, hload, htemplate⟩, hlocal⟩ :=
    compile_local hcompile
  -- an unchanged dependency is loaded as it was
  have hsame : ∀ dep ∈ a'.dependencies, s.1.catalog.modified dep.path = some dep.modified := by
    simpa [Artifact.isStale, hdeps] using hstale
  have hserves : s₀.1.catalog.Serves s.1.catalog documents := by
    intro n d hn hd
    obtain ⟨dep, hdep, hp⟩ := hrecorded d hd
    obtain ⟨d', hd', rfl⟩ := hdocument dep hdep
    obtain ⟨n', hn'⟩ := hloaded d' hd'
    have hd'path : d'.path = ⟨n'⟩ := Library.load_path hn'
    have hdpath : d.path = ⟨n⟩ := Library.load_path hn
    obtain rfl : n' = n := hnames n' (hwithin₀ _ _ hn') n (hwithin₀ _ _ hn)
      (by simpa [Document.dependency, hd'path, hdpath] using hp)
    obtain rfl : d' = d := Except.ok.inj (hn'.symm.trans hn)
    exact hpre.load_eq hticked hn (by simpa [Document.dependency, hdpath] using hsame _ hdep)
  -- the path that was looked for is the one that the artifact was compiled from
  obtain ⟨rfl, d₁, hload₁⟩ := Library.resolve_eq_ok hresolve
  obtain rfl : name = name₀ := by
    refine hnames _ (hwithin _ _ hload₁) _ (hwithin₀ _ _ hload) ?_
    have : a.templatePath? = a'.templatePath? := by
      simp only [Artifact.templatePath?, hdeps]
    simpa [this, htemplate, Library.load_path hload] using hpath
  refine Engine.fresh_eq_ok.2 ⟨a', ?_, ha⟩
  rw [he.catalog_eq]
  exact hlocal _ hserves

/-! ### Steps of an engine -/

/-- The invariant stays if only artifacts of the present state are added to the cache. -/
theorem Backed.of_texts (h : Backed e names s) (hlibrary : s'.1 = s.1)
    (htexts : ∀ text ∈ s'.2.texts, text ∈ s.2.texts ∨ ∀ a, e.codec.decode? text = some a →
      ∃ name, e.fresh name s = .ok a) : Backed e names s' := by
  refine ⟨hlibrary ▸ h.ticked, hlibrary ▸ h.within, fun text htext a ha => ?_⟩
  rw [hlibrary]
  rcases htexts text htext with hold | hnew
  · exact h.stored text hold a ha
  · obtain ⟨name, hfresh⟩ := hnew a ha
    exact ⟨s, name, h.ticked.precedes_self, h.within, hfresh⟩

theorem fresh_congr (he : e.InMemory) (h : s'.1 = s.1) : e.fresh name s' = e.fresh name s := by
  simp only [Engine.fresh, he.catalog_eq, h]

/-- Looking something up in the cache leaves the library as it is and adds no texts. -/
theorem get_onSecond (now : Timestamp) (k : String) (s : Library × Memory) :
    (Memory.backend.onSecond.get now k s).2.1 = s.1 ∧
      ∀ text ∈ (Memory.backend.onSecond.get now k s).2.2.texts, text ∈ s.2.texts :=
  ⟨rfl, fun _ => Memory.mem_texts_get⟩

/-- Storing a text succeeds, leaves the library as it is and adds nothing but the text. -/
theorem put_onSecond {text : String} {ttl : Option Duration}
    (h : Memory.backend.onSecond.put now k text ttl s = some s') :
    s'.1 = s.1 ∧ ∀ t ∈ s'.2.texts, t = text ∨ t ∈ s.2.texts := by
  cases h
  exact ⟨rfl, fun _ => Memory.mem_texts_put⟩

/-- An artifact that is taken from the cache is current and backed. -/
theorem Backed.cached (he : e.InMemory) (h : Backed e names s) (now : Timestamp) (k : String)
    (p : Path) :
    Backed e names (e.cached now k p s).2 ∧ (e.cached now k p s).2.1 = s.1 ∧
      ∀ a, (e.cached now k p s).1 = some a →
        e.isCurrent k p a (e.cached now k p s).2 = true ∧
        ∃ s₀ name₀, s₀.1.Precedes s.1 ∧ s₀.1.Within names ∧ e.fresh name₀ s₀ = .ok a := by
  obtain ⟨hlibrary, htexts⟩ := get_onSecond now k s
  have hstate : (e.cached now k p s).2 = (Memory.backend.onSecond.get now k s).2 := by
    simp only [Engine.cached, he.cache_eq]
  rw [hstate]
  refine ⟨h.of_texts hlibrary fun t ht => .inl (htexts t ht), hlibrary, fun a ha => ?_⟩
  simp only [Engine.cached, he.cache_eq, Option.filter_eq_some_iff, Option.bind_eq_some_iff] at ha
  obtain ⟨⟨text, hget, hdecode⟩, hcurrent⟩ := ha
  exact ⟨hcurrent, h.stored text (Memory.mem_texts_of_get hget) a hdecode⟩

theorem Backed.build (he : e.InMemory) (hcodec : e.codec.Faithful) (h : Backed e names s)
    (now : Timestamp) (name k : String) :
    Backed e names (e.build now name k s).2 ∧
      (e.build now name k s).1.map Prod.fst = e.fresh name s := by
  unfold Engine.build
  split
  · next err hfresh => exact ⟨h, hfresh.symm⟩
  · next a hfresh =>
    rw [he.cache_eq]
    split
    · next s' hput =>
      obtain ⟨hlibrary, htexts⟩ := put_onSecond hput
      refine ⟨h.of_texts hlibrary fun t ht => (htexts t ht).symm.imp id ?_, hfresh.symm⟩
      rintro rfl b hb
      rcases hcodec a with hsome | hnone
      · rw [hsome] at hb
        cases hb
        exact ⟨name, hfresh⟩
      · rw [hnone] at hb
        cases hb
    · exact ⟨h, hfresh.symm⟩

/-- **One step of an engine.** The artifact of a name is the one compiled now, wherever it comes
from. -/
theorem Backed.artifact (he : e.InMemory) (hcodec : e.codec.Faithful) (hnames : PathsDiffer names)
    (h : Backed e names s) (force : Bool) :
    Backed e names (e.artifact now name force s).2 ∧
      (e.artifact now name force s).1.map Prod.fst =
        ((e.catalog s).resolve name).bind fun _ => e.fresh name s := by
  unfold Engine.artifact
  split
  · next err hresolve => exact ⟨h, by rw [hresolve]; rfl⟩
  · next p hresolve =>
    rw [hresolve]
    dsimp only
    split
    · exact h.build he hcodec now name (e.key p)
    · obtain ⟨hbacked, hlibrary, htaken⟩ := h.cached he now (e.key p) p
      split
      · next a s' hcached =>
        rw [hcached] at hbacked hlibrary htaken
        obtain ⟨hcurrent, s₀, name₀, hpre, hwithin₀, hfresh₀⟩ := htaken a rfl
        dsimp only at hbacked hlibrary hcurrent
        have hresolve' : (e.catalog s').resolve name = .ok p := by
          rw [he.catalog_eq] at hresolve ⊢
          dsimp only at hresolve ⊢
          rw [hlibrary, hresolve]
        have hfresh : e.fresh name s' = .ok a :=
          fresh_of_isCurrent he hnames (hlibrary ▸ hpre) hbacked.ticked hwithin₀ hbacked.within
            hfresh₀ hresolve' hcurrent
        exact ⟨hbacked, hfresh.symm.trans (fresh_congr he hlibrary)⟩
      · next s' hcached =>
        rw [hcached] at hbacked hlibrary
        obtain ⟨hbuilt, hresult⟩ := hbacked.build he hcodec now name (e.key p)
        exact ⟨hbuilt, hresult.trans (fresh_congr he hlibrary)⟩

theorem uncached_artifact {σ : Type} (e : Engine σ) (now : Timestamp) (name : String)
    (force : Bool) (s : σ) :
    (e.uncached.artifact now name force s).1.map Prod.fst =
      ((e.catalog s).resolve name).bind fun _ => e.fresh name s := by
  have hbuild : ∀ k s, (e.uncached.build now name k s).1.map Prod.fst = e.fresh name s := by
    intro k s
    have hfresh : e.uncached.fresh name s = e.fresh name s := rfl
    unfold Engine.build
    rw [hfresh]
    cases e.fresh name s <;> rfl
  unfold Engine.artifact
  have hcatalog : e.uncached.catalog s = e.catalog s := rfl
  rw [hcatalog]
  cases hresolve : (e.catalog s).resolve name with
  | error err => rfl
  | ok p => cases force <;> exact hbuild _ _

/-- What is rendered depends on the artifact only. -/
theorem render_fst {σ : Type} (e : Engine σ) (now : Timestamp) (name : String) (scopes : Scopes)
    (s : σ) :
    (e.render now name scopes s).1 =
      ((e.artifact now name e.alwaysCompiles s).1.map Prod.fst).bind
        fun a => a.render e.language.callables scopes := by
  unfold Engine.render
  cases e.artifact now name e.alwaysCompiles s with
  | mk result s' => cases result <;> rfl

/-- **One render.** In a backed state an engine renders what it renders without a cache. -/
theorem Backed.render_eq (he : e.InMemory) (hcodec : e.codec.Faithful)
    (hnames : PathsDiffer names) (h : Backed e names s) (scopes : Scopes) :
    (e.render now name scopes s).1 = (e.uncached.render now name scopes s).1 := by
  rw [render_fst, render_fst, (h.artifact he hcodec hnames _).2, uncached_artifact]
  rfl

/-! ### Sessions keep the invariant -/

/-- Changing the library keeps the invariant, since no stored artifact changes. -/
theorem Backed.of_library (h : Backed e names s) {l : Library} (hticked : l.Ticked)
    (hwithin : ∀ n text tick, Dict.find? l.templates n = some (text, tick) →
      n ∈ names ∨ ∃ text tick, Dict.find? s.1.templates n = some (text, tick))
    (hpre : ∀ {l₀ : Library}, l₀.Precedes s.1 → l₀.Precedes l) : Backed e names (l, s.2) := by
  refine ⟨hticked, fun n d hload => ?_, fun text htext a ha => ?_⟩
  · obtain ⟨text, tick, hfind, -⟩ := Library.load_eq_ok.1 hload
    rcases hwithin n _ _ hfind with hmem | ⟨text', tick', hfind'⟩
    · exact hmem
    · exact h.within n _ (Library.load_eq_ok.2 ⟨text', tick', hfind', rfl⟩)
  · obtain ⟨s₀, name₀, hpre₀, hwithin₀, hfresh₀⟩ := h.stored text htext a ha
    exact ⟨s₀, name₀, hpre hpre₀, hwithin₀, hfresh₀⟩

theorem Backed.set (h : Backed e names s) (hclock : s.1.clock < Library.lastTick)
    (hname : name ∈ names) (text : String) : Backed e names (s.1.set name text, s.2) := by
  refine h.of_library (h.ticked.set hclock name text) (fun n text' tick hfind => ?_)
    fun hpre => hpre.set name text
  rw [Library.find?_set] at hfind
  split at hfind
  · next heq => exact .inl (heq ▸ hname)
  · exact .inr ⟨text', tick, hfind⟩

theorem Backed.touch (h : Backed e names s) (hclock : s.1.clock < Library.lastTick)
    (name : String) : Backed e names (s.1.touch name, s.2) := by
  refine h.of_library (h.ticked.touch hclock name) (fun n text tick hfind => .inr ?_)
    fun hpre => hpre.touch name
  rcases s.1.touch_cases name with ⟨text₁, tick₁, hfind₁, heq⟩ | heq
  · rw [heq, Library.find?_set] at hfind
    split at hfind
    · next hn => subst hn; exact ⟨text₁, tick₁, hfind₁⟩
    · exact ⟨text, tick, hfind⟩
  · rw [heq] at hfind
    exact ⟨text, tick, hfind⟩

theorem Backed.remove (h : Backed e names s) (name : String) :
    Backed e names (s.1.remove name, s.2) :=
  h.of_library (h.ticked.remove name)
    (fun _ text tick hfind => .inr ⟨text, tick, Library.find?_remove hfind⟩)
    fun hpre => hpre.remove name

/-- **One event.** Whatever happens, the artifacts in the cache stay artifacts of earlier states of
the library. -/
theorem Backed.apply (he : e.InMemory) (hcodec : e.codec.Faithful) (hnames : PathsDiffer names)
    (h : Backed e names s) {event : Event e.codec} (hevent : event.Within names)
    (hs' : event.apply e now s = some s') : Backed e names s' := by
  cases event with
  | set name text =>
    simp only [Event.apply, Option.ite_none_right_eq_some, Option.some.injEq] at hs'
    obtain ⟨hclock, rfl⟩ := hs'
    exact h.set hclock hevent text
  | touch name =>
    simp only [Event.apply, Option.ite_none_right_eq_some, Option.some.injEq] at hs'
    obtain ⟨hclock, rfl⟩ := hs'
    exact h.touch hclock name
  | remove name => cases hs'; exact h.remove name
  | render name scopes => cases hs'; exact (h.artifact he hcodec hnames _).1
  | compile name => cases hs'; exact (h.artifact he hcodec hnames _).1
  | recompile name => cases hs'; exact (h.artifact he hcodec hnames _).1
  | compilePath p => cases hs'; exact (h.artifact he hcodec hnames _).1
  | flush =>
    cases hs'
    rw [he.cache_eq]
    exact h.of_texts rfl fun t ht => by cases ht
  | forget key =>
    cases hs'
    rw [he.cache_eq]
    exact h.of_texts rfl fun t ht => .inl (Memory.mem_texts_remove ht)
  | copy source target ttl =>
    simp only [Event.apply, he.cache_eq] at hs'
    obtain ⟨hlibrary, htexts⟩ := get_onSecond now source s
    split at hs'
    · next text s₁ hget =>
      rw [hget] at hlibrary htexts
      obtain ⟨hlibrary', htexts'⟩ := put_onSecond hs'
      have hfound : (s.2.get now source).1 = some text := congrArg Prod.fst hget
      have htext : text ∈ s.2.texts := Memory.mem_texts_of_get hfound
      refine h.of_texts (hlibrary'.trans hlibrary) fun t ht => .inl ?_
      rcases htexts' t ht with rfl | hold
      · exact htext
      · exact htexts t hold
    · next s₁ hget =>
      cases hs'
      rw [hget] at hlibrary htexts
      exact h.of_texts hlibrary fun t ht => .inl (htexts t ht)
  | spoil key text ttl unreadable =>
    simp only [Event.apply, he.cache_eq] at hs'
    obtain ⟨hlibrary, htexts⟩ := put_onSecond hs'
    refine h.of_texts hlibrary fun t ht => (htexts t ht).symm.imp id ?_
    rintro rfl a ha
    rw [unreadable] at ha
    cases ha

theorem backed_start (e : Engine (Library × Memory)) (names : Set String) (capacity : Nat) :
    Backed e names (Library.empty, Memory.ofCapacity capacity) := by
  refine ⟨Library.ticked_empty, Library.within_empty names, fun text htext => ?_⟩
  cases htext

/-- **A session.** The invariant holds at every point of a session. -/
theorem Backed.run (he : e.InMemory) (hcodec : e.codec.Faithful) (hnames : PathsDiffer names)
    (h : Backed e names s) {events : List (Timestamp × Event e.codec)}
    (hevents : ∀ event ∈ events, event.2.Within names) (hs' : Event.run e s events = some s') :
    Backed e names s' := by
  induction events generalizing s with
  | nil => cases hs'; exact h
  | cons first events ih =>
    obtain ⟨now, event⟩ := first
    obtain ⟨s₁, hs₁, hs'⟩ := Option.bind_eq_some_iff.1 hs'
    have h₁ := h.apply he hcodec hnames (hevents (now, event) (by simp)) hs₁
    exact ih h₁ (fun event hevent => hevents event (List.mem_cons_of_mem _ hevent)) hs'

/-! ### Names for one path -/

open Classical in
/-- A codec that can write and read one artifact only. -/
noncomputable def Codec.single (a : Artifact) : Codec where
  encode b := if b = a then "artifact" else ""
  decode? text := if text = "artifact" then some a else none

theorem Codec.single_decode_encode (a : Artifact) :
    (Codec.single a).decode? ((Codec.single a).encode a) = some a := by
  simp [Codec.single]

theorem Codec.single_faithful (a : Artifact) : (Codec.single a).Faithful := by
  intro b
  by_cases h : b = a
  · exact .inl (h ▸ Codec.single_decode_encode a)
  · exact .inr (by simp [Codec.single, h])

/-- An engine in memory that knows no callables and does not optimize. -/
def Engine.bare (codec : Codec) (key : Path → String) : Engine (Library × Memory) where
  language := ⟨[], .empty⟩
  catalog s := s.1.catalog
  cache := Memory.backend.onSecond
  codec := codec
  key := key
  optimizes := false
  alwaysCompiles := false

theorem Engine.bare_inMemory (codec : Codec) (key : Path → String) :
    (Engine.bare codec key).InMemory :=
  ⟨rfl, rfl⟩

theorem Library.resolve_of_load {l : Library} {d : Document} (h : l.load name = .ok d) :
    l.catalog.resolve name = .ok ⟨name⟩ := by
  obtain ⟨text, tick, hfind, -⟩ := Library.load_eq_ok.1 h
  simp [Library.catalog, Dict.contains, hfind]

theorem Engine.artifact_of_cached {σ : Type} {e : Engine σ} {s s' : σ} {p : Path}
    (hresolve : (e.catalog s).resolve name = .ok p)
    (hcached : e.cached now (e.key p) p s = (some a, s')) :
    e.artifact now name false s =
      (.ok (a, ⟨name, e.key p, e.cache.location? (e.key p), .cached⟩), s') := by
  simp [Engine.artifact, hresolve, hcached]

theorem Engine.artifact_of_not_cached {σ : Type} {e : Engine σ} {s s' : σ} {p : Path}
    (hresolve : (e.catalog s).resolve name = .ok p)
    (hcached : e.cached now (e.key p) p s = (none, s')) :
    e.artifact now name false s = e.build now name (e.key p) s' := by
  simp [Engine.artifact, hresolve, hcached]

/-- The memory that holds one text, stored under a key. -/
def Memory.holding (capacity : Nat) (k text : String) : Memory :=
  ⟨max capacity 1, [(k, ⟨text, none⟩)], [k]⟩

section Holding

variable {τ : Type} {e : Engine (τ × Memory)} {l : τ} {p : Path} {text : String}

/-- What an engine takes from a cache in memory. -/
theorem Engine.cached_eq (hcache : e.cache = Memory.backend.onSecond) (now : Timestamp)
    (k : String) (p : Path) (s : τ × Memory) :
    e.cached now k p s =
      (((s.2.get now k).1.bind e.codec.decode?).filter fun a =>
        a.templatePath?.any p.same && !a.isStale (e.catalog (s.1, (s.2.get now k).2)).modified,
        (s.1, (s.2.get now k).2)) := by
  simp only [Engine.cached, hcache, Engine.isCurrent]
  simp [Backend.onSecond, Memory.backend]

/-- With an empty memory a name is compiled, and then its artifact is all that the memory holds. -/
theorem Engine.artifact_of_empty (hcache : e.cache = Memory.backend.onSecond) (capacity : Nat)
    (now : Timestamp)
    (hresolve : (e.catalog (l, Memory.ofCapacity capacity)).resolve name = .ok p)
    (hfresh : e.fresh name (l, Memory.ofCapacity capacity) = .ok a) :
    e.artifact now name false (l, Memory.ofCapacity capacity) =
      (.ok (a, ⟨name, e.key p, none, .compiled⟩),
        (l, Memory.holding capacity (e.key p) (e.codec.encode a))) := by
  have hcached : e.cached now (e.key p) p (l, Memory.ofCapacity capacity) =
      (none, (l, Memory.ofCapacity capacity)) := by
    rw [Engine.cached_eq hcache]
    rfl
  rw [Engine.artifact_of_not_cached hresolve hcached]
  simp only [Engine.build, hfresh, hcache]
  rfl

/-- The artifact that a memory holds is taken for every name with its key and its path as long as
it is not stale. -/
theorem Engine.artifact_of_holding (hcache : e.cache = Memory.backend.onSecond) (capacity : Nat)
    (now : Timestamp) (hdecode : e.codec.decode? text = some a)
    (hpath : a.templatePath?.any p.same = true) :
    let m := Memory.holding capacity (e.key p) text
    (e.catalog (l, m)).resolve name = .ok p → a.isStale (e.catalog (l, m)).modified = false →
    e.artifact now name false (l, m) = (.ok (a, ⟨name, e.key p, none, .cached⟩), (l, m)) := by
  intro m hresolve hstale
  have hget : m.get now (e.key p) = (some text, m) := by
    simp [m, Memory.holding, Memory.get, Dict.find?_cons, MemoryEntry.isExpired]
  have hcached : e.cached now (e.key p) p (l, m) = (some a, (l, m)) := by
    rw [Engine.cached_eq hcache, hget, Option.bind_some, hdecode, Option.filter_some,
      if_pos (by rw [hpath, hstale]; rfl)]
  rw [Engine.artifact_of_cached hresolve hcached, hcache]
  rfl

end Holding

/-- A stored artifact is rendered for every name with its key and its path as long as it is not
stale. -/
theorem render_after_render {codec : Codec} {l₀ l : Library} {d₀ d : Document}
    (key : Path → String) (now : Timestamp) (scopes₀ scopes : Scopes) (capacity : Nat)
    (hload₀ : l₀.load name₀ = .ok d₀)
    (hcompile : compile ⟨[], .empty⟩ l₀.catalog name₀ = .ok a)
    (hdecode : codec.decode? (codec.encode a) = some a) (hload : l.load name = .ok d)
    (hkey : key ⟨name⟩ = key ⟨name₀⟩) (hpath : a.templatePath?.any (Path.same ⟨name⟩) = true)
    (hstale : a.isStale l.catalog.modified = false) :
    let m := Memory.holding capacity (key ⟨name₀⟩) (codec.encode a)
    ((Engine.bare codec key).render now name₀ scopes₀ (l₀, Memory.ofCapacity capacity)).2 =
        (l₀, m) ∧
      ((Engine.bare codec key).render now name scopes (l, m)).1 = a.render .empty scopes := by
  intro m
  have hfresh : (Engine.bare codec key).fresh name₀ (l₀, Memory.ofCapacity capacity) = .ok a :=
    Engine.fresh_eq_ok.2 ⟨a, hcompile, rfl⟩
  constructor
  · have hfirst := Engine.artifact_of_empty (e := Engine.bare codec key) rfl capacity now
      (Library.resolve_of_load hload₀) hfresh
    exact congrArg Prod.snd hfirst
  · have hsecond := Engine.artifact_of_holding (e := Engine.bare codec key) (l := l)
      rfl capacity now hdecode hpath (Library.resolve_of_load hload) hstale
    rw [render_fst]
    rw [show Memory.holding capacity ((Engine.bare codec key).key ⟨name⟩) (codec.encode a) = m
      from congrArg (Memory.holding capacity · (codec.encode a)) hkey] at hsecond
    exact congrArg (fun r : Except TemplateError (Artifact × CompileOutcome) × _ =>
      (r.1.map Prod.fst).bind fun a => a.render .empty scopes) hsecond

/-! ### Stale renders -/

theorem render_plain (text : String) (dependencies : List Dependency) (callables : Callables)
    (scopes : Scopes) :
    (Artifact.mk 1 name [] [.text text] dependencies).render callables scopes = .ok text := by
  simp [Artifact.render, Node.renderList, Node.render, bind, Except.bind, pure, Except.pure]

theorem uncached_render_of_compile {codec : Codec} {key : Path → String} {scopes : Scopes}
    {d : Document} (hload : s.1.load name = .ok d)
    (hcompile : compile ⟨[], .empty⟩ s.1.catalog name = .ok a) :
    ((Engine.bare codec key).uncached.render now name scopes s).1 = a.render .empty scopes := by
  have hresolve : ((Engine.bare codec key).catalog s).resolve name = .ok ⟨name⟩ :=
    Library.resolve_of_load hload
  have hfresh : (Engine.bare codec key).fresh name s = .ok a :=
    Engine.fresh_eq_ok.2 ⟨a, hcompile, rfl⟩
  rw [render_fst, uncached_artifact, hresolve]
  simp only [Except.bind, hfresh]
  rfl

/-- **Two names for one path.** If an artifact of one name is stored where the other name looks for
its own, it is rendered for the other name. -/
theorem exists_stale_render {m n : String} (hne : m ≠ n)
    (hsame : (⟨m⟩ : Path).same ⟨n⟩ = true) : ¬Transparent {m, n} := by
  intro h
  let l : Library := (Library.empty.set m "1").set n "2"
  have hm : Dict.find? l.templates m = some ("1", 1) := by
    simp [l, Library.find?_set, hne, Library.empty]
  have hn : Dict.find? l.templates n = some ("2", 2) := by
    rw [Library.find?_set, if_pos rfl]
    rfl
  let a : Artifact := ⟨1, m, [], [.text "1"], [⟨⟨m⟩, .ofSeconds 1⟩]⟩
  have ha : compile ⟨[], .empty⟩ l.catalog m = .ok a := compile_page (by cbv) rfl hm
  have hb : compile ⟨[], .empty⟩ l.catalog n = .ok ⟨1, n, [], [.text "2"], [⟨⟨n⟩, .ofSeconds 2⟩]⟩ :=
    compile_page (by cbv) rfl hn
  let e := Engine.bare (.single a) fun _ => "key"
  have hloadn := Library.load_eq_ok.2 ⟨_, _, hn, rfl⟩
  obtain ⟨hstored, hrender⟩ := render_after_render (fun _ => "key") .epoch .empty .empty 1
    (Library.load_eq_ok.2 ⟨_, _, hm, rfl⟩) ha (Codec.single_decode_encode a) hloadn rfl
    (by simpa [a, Artifact.templatePath?, Path.same, eq_comm] using hsame)
    (by simp [a, Artifact.isStale, Library.catalog, hm])
  have hrun : Event.run e (Library.empty, Memory.ofCapacity 1)
      [(.epoch, .set m "1"), (.epoch, .set n "2"), (.epoch, .render m .empty)] =
      some (l, Memory.holding 1 "key" (Codec.encode (.single a) a)) :=
    congrArg some hstored
  have hequal := h e (Engine.bare_inMemory _ _) (Codec.single_faithful a) 1 _ _
    (by simp [Event.Within]) hrun .epoch n .empty
  rw [hrender, uncached_render_of_compile hloadn hb, render_plain, render_plain] at hequal
  exact absurd (Except.ok.inj hequal) (by decide)

set_option maxRecDepth 2000 in
/-- A page with two partials at the path of the first one has that one as a dependency only. -/
theorem compile_two_partials {l : Library} {text : String} {tick tick' tick'' : Nat}
    (hpage : Dict.find? l.templates "page" = some ("#connect('p')#connect('p/')", tick))
    (hfirst : Dict.find? l.templates "p" = some ("one", tick'))
    (hsecond : Dict.find? l.templates "p/" = some (text, tick''))
    (hparse : parseTemplate ⟨[], .empty⟩ ⟨"p/", text⟩ = .ok ⟨none, [.text text]⟩) :
    compile ⟨[], .empty⟩ l.catalog "page" = .ok ⟨1, "page", [], [.text "one", .text text],
      [⟨⟨"page"⟩, .ofSeconds tick⟩, ⟨⟨"p"⟩, .ofSeconds tick'⟩]⟩ := by
  have hone : parseTemplate ⟨[], .empty⟩ ⟨"p", "one"⟩ = .ok ⟨none, [.text "one"]⟩ := by cbv
  have hconnects : parseTemplate ⟨[], .empty⟩ ⟨"page", "#connect('p')#connect('p/')"⟩ =
      .ok ⟨none, [.connect "p", .connect "p/"]⟩ := by cbv
  let page : Document := ⟨⟨"page"⟩, ⟨"page", "#connect('p')#connect('p/')"⟩, .ofSeconds tick⟩
  let first : Document := ⟨⟨"p"⟩, ⟨"p", "one"⟩, .ofSeconds tick'⟩
  let second : Document := ⟨⟨"p/"⟩, ⟨"p/", text⟩, .ofSeconds tick''⟩
  have hplain : ∀ inside source t,
      expandNodes ⟨[], .empty⟩ l.catalog inside source [.text t] = .ok ([.text t], []) := by
    intro inside source t
    simp [expandNodes, expandNode, bind, Except.bind, pure, Except.pure]
  have hfirst_new : [(⟨"page"⟩ : Path)].any (Path.same ⟨"p"⟩) = false := by decide
  have hsecond_new : [(⟨"page"⟩ : Path)].any (Path.same ⟨"p/"⟩) = false := by decide
  have hexpand : expandNodes ⟨[], .empty⟩ l.catalog [page.path] page.source
      [.connect "p", .connect "p/"] = .ok ([.text "one", .text text], [first, second]) := by
    refine expandNodes_cons_eq_ok.2 ⟨_, _, _, _, expandNode_connect_eq_ok.2 ⟨first, _, _,
      Library.load_eq_ok.2 ⟨_, _, hfirst, rfl⟩, hfirst_new, hone, rfl, hplain _ _ _, rfl⟩,
      expandNodes_cons_eq_ok.2 ⟨_, _, _, _, expandNode_connect_eq_ok.2 ⟨second, _, _,
        Library.load_eq_ok.2 ⟨_, _, hsecond, rfl⟩, hsecond_new, hparse, rfl, hplain _ _ _, rfl⟩,
        by rw [expandNodes], rfl, rfl⟩, rfl, rfl⟩
  refine compile_eq_ok.2 ⟨page, [⟨page, _, [first, second]⟩],
    Library.load_eq_ok.2 ⟨_, _, hpage, rfl⟩,
    layoutChain_eq_ok.2 ⟨_, _, _, hconnects, hexpand, rfl⟩, ?_⟩
  have hsame : (⟨"p"⟩ : Path).same ⟨"p/"⟩ = true := by decide
  have hother : (⟨"page"⟩ : Path).same ⟨"p/"⟩ = false := by decide
  have hother' : (⟨"page"⟩ : Path).same ⟨"p"⟩ = false := by decide
  simp [assemble, recordLink, recordPartial, Document.dependency, page, first, second, hsame,
    hother, hother', Artifact.currentVersion]

/-- A page with two partials that are at the same path is served as it was when the second one had
another text, since only the first one is recorded. -/
theorem stale_page_of_unrecorded_partial :
    let page : Artifact := ⟨1, "page", [], [.text "one", .text "two"],
      [⟨⟨"page"⟩, .ofSeconds 3⟩, ⟨⟨"p"⟩, .ofSeconds 1⟩]⟩
    let e := Engine.bare (.single page) Path.text
    e.codec.Faithful ∧ ∃ s, Event.run e (Library.empty, Memory.ofCapacity 4)
        [(.epoch, .set "p" "one"), (.epoch, .set "p/" "two"),
          (.epoch, .set "page" "#connect('p')#connect('p/')"), (.epoch, .render "page" .empty),
          (.epoch, .set "p/" "three")] = some s ∧
      (e.render .epoch "page" .empty s).1 = .ok "onetwo" ∧
      (e.uncached.render .epoch "page" .empty s).1 = .ok "onethree" := by
  intro page e
  let l₀ : Library := ((Library.empty.set "p" "one").set "p/" "two").set "page"
    "#connect('p')#connect('p/')"
  let l : Library := l₀.set "p/" "three"
  have hcompile₀ : compile ⟨[], .empty⟩ l₀.catalog "page" = .ok page :=
    compile_two_partials (by decide) (by decide) (show _ = some ("two", 2) by decide) (by cbv)
  have hcompile : compile ⟨[], .empty⟩ l.catalog "page" = .ok { page with
      body := [.text "one", .text "three"] } :=
    compile_two_partials (by decide) (by decide) (show _ = some ("three", 4) by decide) (by cbv)
  have hload₀ : ∃ d, l₀.load "page" = .ok d :=
    ⟨_, Library.load_eq_ok.2 ⟨"#connect('p')#connect('p/')", 3, by decide, rfl⟩⟩
  have hload : ∃ d, l.load "page" = .ok d :=
    ⟨_, Library.load_eq_ok.2 ⟨"#connect('p')#connect('p/')", 3, by decide, rfl⟩⟩
  obtain ⟨d₀, hd₀⟩ := hload₀
  obtain ⟨d, hd⟩ := hload
  obtain ⟨hstored, hrender⟩ := render_after_render Path.text .epoch .empty .empty 4 hd₀ hcompile₀
    (Codec.single_decode_encode page) hd rfl (by decide) (by decide)
  have hout : ∀ t, (Artifact.mk 1 "page" [] [.text "one", .text t] page.dependencies).render
      .empty .empty = .ok ("one" ++ t) := by
    intro t
    simp [Artifact.render, Node.renderList, Node.render, bind, Except.bind, pure, Except.pure,
      String.join]
  refine ⟨Codec.single_faithful page,
    (l, Memory.holding 4 "page" ((Codec.single page).encode page)), ?_, ?_, ?_⟩
  · change Event.run e (e.render .epoch "page" .empty (l₀, Memory.ofCapacity 4)).2
      [(.epoch, .set "p/" "three")] = _
    rw [hstored]
    rfl
  · exact hrender.trans (hout "two")
  · exact (uncached_render_of_compile hd hcompile).trans (hout "three")

/-- **Transparency.** Over libraries that name templates in some way, a cache in memory cannot be
seen exactly if no two of the names are the same path: neither by an artifact that is out of date,
nor by one that belongs to another template, whatever the keys are. -/
theorem transparent_iff (names : Set String) : Transparent names ↔ PathsDiffer names := by
  constructor
  · intro h m hm n hn hsame
    by_contra hne
    refine exists_stale_render hne hsame fun e he hcodec capacity events s hevents => ?_
    refine h e he hcodec capacity events s fun event hevent => ?_
    have hwithin := hevents event hevent
    cases hkind : event.2 with
    | set name text =>
      rw [hkind] at hwithin
      rcases hwithin with rfl | rfl
      · exact hm
      · exact hn
    | _ => trivial
  · intro hnames e he hcodec capacity events s hevents hrun now name scopes
    exact ((backed_start e names capacity).run he hcodec hnames hevents hrun).render_eq he hcodec
      hnames scopes

end Hashmark
