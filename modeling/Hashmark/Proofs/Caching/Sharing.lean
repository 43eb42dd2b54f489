import Hashmark.Artifact.Decoding
import Hashmark.Cache.Key
import Hashmark.Proofs.Caching.Transparency

/-!
# Engines that share a cache

Engines with one language and one cache, of which some optimize and some do not, take turns while
the templates change. Nothing in a stored artifact tells whether it was optimized, so an engine may
be given what another one made. Apart from that nothing leaks: wherever times tell the states of the
templates apart (`Supply.Dated`), every output is that of one of the engines without a cache
(`Stocked.render`). So an engine gives its own outputs exactly if all of them have one setting, or
no output shows whether a template was optimized (`Supply.isolated_iff`).

The invariant (`Stocked`) says of every stored artifact that one of the engines made it in an
earlier state of the templates.
-/

namespace Hashmark

open Relation (ReflTransGen)

/-! ### Templates that change -/

/-- Templates that change: the states, the catalog of each, and the changes from state to state. A
name is resolved to the path at which it is loaded, and the path has the time of what is there. -/
structure Supply (τ : Type) where
  start : τ
  catalog : τ → Catalog
  Change : τ → τ → Prop
  resolve_of_load : ∀ {l name d}, (catalog l).load name = .ok d →
    (catalog l).resolve name = .ok d.path
  modified_of_load : ∀ {l name d}, (catalog l).load name = .ok d →
    (catalog l).modified d.path = some d.modified

/-- The artifact that an engine makes of a compiled one. -/
def Artifact.finish (optimizes : Bool) (a : Artifact) : Artifact :=
  if optimizes then a.optimize else a

namespace Supply

variable {τ : Type} (supply : Supply τ) (language : Language)

/-- Whether one state comes from another by any number of changes. -/
abbrev Later : τ → τ → Prop :=
  ReflTransGen supply.Change

/-- Whether an artifact of an earlier state that has the path of a name, and whose dependencies have
the times that they had, is what the name is compiled to. -/
def Dated : Prop :=
  ∀ l₀ l, supply.Later supply.start l₀ → supply.Later l₀ l → ∀ name₀ name a p,
    compile language (supply.catalog l₀) name₀ = .ok a →
    (supply.catalog l).resolve name = .ok p → a.templatePath?.any p.same = true →
    a.isStale (supply.catalog l).modified = false →
    compile language (supply.catalog l) name = .ok a

/-- Whether no output shows whether a template was optimized. -/
def HidesOptimizing : Prop :=
  ∀ l, supply.Later supply.start l → ∀ name a, compile language (supply.catalog l) name = .ok a →
    ∀ scopes, a.optimize.render language.callables scopes = a.render language.callables scopes

end Supply

/-! ### Caches -/

/-- A cache next to templates that change, in one state. It works without touching the templates,
and it has no texts but those that it was given. -/
structure Store {τ : Type} (supply : Supply τ) (σ : Type) where
  templates : σ → τ
  cache : Backend σ
  texts : σ → Set String
  templates_get : ∀ now k s, templates (cache.get now k s).2 = templates s
  templates_put : ∀ {now k t ttl s s'}, cache.put now k t ttl s = some s' →
    templates s' = templates s
  mem_texts_of_get : ∀ {now k s t}, (cache.get now k s).1 = some t → t ∈ texts s
  texts_get : ∀ now k s, texts (cache.get now k s).2 ⊆ texts s
  texts_put : ∀ {now k t ttl s s'}, cache.put now k t ttl s = some s' →
    texts s' ⊆ insert t (texts s)

/-- A memory next to templates. -/
def Store.memory {τ : Type} (supply : Supply τ) : Store supply (τ × Memory) where
  templates := Prod.fst
  cache := Memory.backend.onSecond
  texts s := {t | t ∈ s.2.texts}
  templates_get _ _ _ := rfl
  templates_put h := by cases h; rfl
  mem_texts_of_get h := Memory.mem_texts_of_get h
  texts_get _ _ _ _ := Memory.mem_texts_get
  texts_put h := by cases h; exact fun _ => Memory.mem_texts_put

/-- A cache directory on a disk next to templates. -/
def Store.directory {τ : Type} (supply : Supply τ) (c : CacheDirectory) :
    Store supply (τ × Disk) where
  templates := Prod.fst
  cache := c.backend.onSecond
  texts s := s.2.texts
  templates_get _ _ _ := rfl
  templates_put h := by
    obtain ⟨d, -, rfl⟩ := Option.map_eq_some_iff.1 h
    rfl
  mem_texts_of_get h := Disk.mem_texts_of_readText? h
  texts_get _ _ _ := subset_rfl
  texts_put h := by
    obtain ⟨d, hput, rfl⟩ := Option.map_eq_some_iff.1 h
    exact CacheDirectory.texts_put hput

variable {τ σ : Type} {supply : Supply τ} {store : Store supply σ} {e : Engine σ}
  {settings : Set Bool} {language : Language} {o o₁ o₂ : Bool} {s s' : σ} {l : τ}
  {now : Timestamp} {name k : String} {a : Artifact} {scopes : Scopes}

/-- Whether an engine works on the templates and the cache of a store. -/
structure Engine.Uses (e : Engine σ) (store : Store supply σ) : Prop where
  catalog_eq : e.catalog = fun s => supply.catalog (store.templates s)
  cache_eq : e.cache = store.cache

/-- The same engine with another setting. -/
def Engine.optimizing (e : Engine σ) (o : Bool) : Engine σ :=
  { e with optimizes := o }

/-- One event while engines with some settings share a store. -/
inductive Store.Step (store : Store supply σ) (e : Engine σ) (settings : Set Bool) : σ → σ → Prop
  | change {s s' : σ} : supply.Change (store.templates s) (store.templates s') →
      store.texts s' ⊆ store.texts s → Step store e settings s s'
  | render {o : Bool} (ho : o ∈ settings) (now : Timestamp) (name : String) (scopes : Scopes)
      (s : σ) : Step store e settings s ((e.optimizing o).render now name scopes s).2
  | compile {o : Bool} (ho : o ∈ settings) (now : Timestamp) (name : String) (s : σ) :
      Step store e settings s ((e.optimizing o).compile now name s).2
  | recompile {o : Bool} (ho : o ∈ settings) (now : Timestamp) (name : String) (s : σ) :
      Step store e settings s ((e.optimizing o).recompile now name s).2

/-- Whether engines with some settings that share a cache each give what they give without one,
whatever happened before to a cache in which there were no artifacts. -/
def Supply.Isolated (supply : Supply τ) (language : Language) (settings : Set Bool) : Prop :=
  ∀ (σ : Type) (store : Store supply σ) (e : Engine σ), e.language = language → e.Uses store →
    e.codec.Faithful → ∀ s₀ s, store.templates s₀ = supply.start →
    (∀ t ∈ store.texts s₀, e.codec.decode? t = none) →
    ReflTransGen (store.Step e settings) s₀ s → ∀ o ∈ settings, ∀ now name scopes,
      ((e.optimizing o).render now name scopes s).1 =
        ((e.optimizing o).uncached.render now name scopes s).1

/-- **The invariant.** Every artifact that can be read from the cache was made by one of the engines
in an earlier state of the templates. -/
structure Stocked (store : Store supply σ) (e : Engine σ) (settings : Set Bool) (s : σ) : Prop where
  reached : supply.Later supply.start (store.templates s)
  stored : ∀ t ∈ store.texts s, ∀ a, e.codec.decode? t = some a →
    ∃ l₀ name₀ a₀, ∃ o ∈ settings, supply.Later supply.start l₀ ∧
      supply.Later l₀ (store.templates s) ∧
      compile e.language (supply.catalog l₀) name₀ = .ok a₀ ∧ a = a₀.finish o

/-! ### Steps of an engine -/

theorem Engine.fresh_optimizing (he : e.Uses store) (o : Bool) (name : String) (s : σ) :
    (e.optimizing o).fresh name s =
      (Hashmark.compile e.language (supply.catalog (store.templates s)) name).map
        (Artifact.finish o) := by
  show (Hashmark.compile e.language (e.catalog s) name).map _ = _
  rw [he.catalog_eq]
  rfl

/-- The path and the dependencies do not tell whether an artifact was optimized. -/
theorem Artifact.finish_dependencies (o : Bool) (a : Artifact) :
    (a.finish o).dependencies = a.dependencies := by
  cases o <;> rfl

/-- The invariant stays if nothing but new artifacts of the engines are added to the cache. -/
theorem Stocked.of_texts (h : Stocked store e settings s)
    (htemplates : store.templates s' = store.templates s)
    (htexts : ∀ t ∈ store.texts s', t ∈ store.texts s ∨ ∀ a, e.codec.decode? t = some a →
      ∃ name a₀, ∃ o ∈ settings,
        compile e.language (supply.catalog (store.templates s)) name = .ok a₀ ∧ a = a₀.finish o) :
    Stocked store e settings s' := by
  refine ⟨htemplates ▸ h.reached, fun t ht a ha => ?_⟩
  rw [htemplates]
  rcases htexts t ht with hold | hnew
  · exact h.stored t hold a ha
  · obtain ⟨name, a₀, o, ho, hcompile, hfinish⟩ := hnew a ha
    exact ⟨_, name, a₀, o, ho, h.reached, .refl, hcompile, hfinish⟩

/-- What is taken from the cache is what one of the engines would make now. -/
theorem Stocked.cached (hdated : supply.Dated e.language) (he : e.Uses store)
    (h : Stocked store e settings s) (now : Timestamp) (k : String) {p : Path}
    (hresolve : (supply.catalog (store.templates s)).resolve name = .ok p) :
    store.templates ((e.optimizing o).cached now k p s).2 = store.templates s ∧
      Stocked store e settings ((e.optimizing o).cached now k p s).2 ∧
      ∀ a, ((e.optimizing o).cached now k p s).1 = some a →
        ∃ o' ∈ settings, (e.optimizing o').fresh name s = .ok a := by
  have hstate : ((e.optimizing o).cached now k p s).2 = (store.cache.get now k s).2 := by
    simp only [Engine.cached, Engine.optimizing, he.cache_eq]
  rw [hstate]
  refine ⟨store.templates_get now k s, h.of_texts (store.templates_get now k s)
    fun t ht => .inl (store.texts_get now k s ht), fun a ha => ?_⟩
  simp only [Engine.cached, Engine.optimizing, he.cache_eq, Option.filter_eq_some_iff,
    Option.bind_eq_some_iff] at ha
  obtain ⟨⟨t, hget, hdecode⟩, hcurrent⟩ := ha
  obtain ⟨l₀, name₀, a₀, o', ho', hreached, hlater, hcompile, rfl⟩ :=
    h.stored t (store.mem_texts_of_get hget) a hdecode
  simp only [Engine.isCurrent, Bool.and_eq_true, Bool.not_eq_true', he.catalog_eq,
    store.templates_get] at hcurrent
  obtain ⟨⟨hpath, hstale⟩, -⟩ := hcurrent
  have hnow := hdated l₀ _ hreached hlater name₀ name a₀ p hcompile hresolve
    (by simpa [Artifact.templatePath?, Artifact.finish_dependencies] using hpath)
    (by simpa [Artifact.isStale, Artifact.finish_dependencies] using hstale)
  exact ⟨o', ho', by rw [Engine.fresh_optimizing he, hnow]; rfl⟩

theorem Stocked.build (hcodec : e.codec.Faithful) (he : e.Uses store)
    (h : Stocked store e settings s) (ho : o ∈ settings) (now : Timestamp) (name k : String) :
    Stocked store e settings ((e.optimizing o).build now name k s).2 ∧
      ((e.optimizing o).build now name k s).1.map Prod.fst = (e.optimizing o).fresh name s := by
  unfold Engine.build
  split
  · next err hfresh => exact ⟨h, hfresh.symm⟩
  · next a hfresh =>
    rw [show (e.optimizing o).cache = store.cache from he.cache_eq]
    split
    · next s' hput =>
      refine ⟨h.of_texts (store.templates_put hput) fun t ht => ?_, hfresh.symm⟩
      refine (store.texts_put hput ht).symm.imp id ?_
      rintro rfl b hb
      -- reading the text gives the artifact, or nothing
      obtain rfl : a = b := by
        rcases hcodec a with hsome | hnone
        · exact Option.some.inj (hsome.symm.trans hb)
        · exact absurd (hnone.symm.trans hb) (by simp)
      rw [Engine.fresh_optimizing he] at hfresh
      cases hcompile : compile e.language (supply.catalog (store.templates s)) name with
      | error err => rw [hcompile] at hfresh; cases hfresh
      | ok a₀ =>
        rw [hcompile] at hfresh
        exact ⟨name, a₀, o, ho, hcompile, (Except.ok.inj hfresh).symm⟩
    · exact ⟨h, hfresh.symm⟩

/-- **One step of an engine.** The artifact of a name is the one that one of the engines makes
now. -/
theorem Stocked.artifact (hdated : supply.Dated e.language) (hcodec : e.codec.Faithful)
    (he : e.Uses store) (h : Stocked store e settings s) (ho : o ∈ settings) (now : Timestamp)
    (name : String) (force : Bool) :
    Stocked store e settings ((e.optimizing o).artifact now name force s).2 ∧
      ∃ o' ∈ settings, ((e.optimizing o).artifact now name force s).1.map Prod.fst =
        ((e.catalog s).resolve name).bind fun _ => (e.optimizing o').fresh name s := by
  have hcatalog : (e.optimizing o).catalog s = e.catalog s := rfl
  unfold Engine.artifact
  rw [hcatalog]
  cases hresolve : (e.catalog s).resolve name with
  | error err => exact ⟨h, o, ho, rfl⟩
  | ok p =>
    dsimp only
    split
    · obtain ⟨hstocked, hresult⟩ := h.build hcodec he ho now name (e.key p)
      exact ⟨hstocked, o, ho, hresult⟩
    · rw [he.catalog_eq] at hresolve
      obtain ⟨htemplates, hstocked, htaken⟩ := h.cached (o := o) hdated he now (e.key p) hresolve
      split
      · next a s' hcached =>
        have hkey : (e.optimizing o).key p = e.key p := rfl
        rw [hkey] at hcached
        rw [hcached] at hstocked htaken
        obtain ⟨o', ho', hfresh⟩ := htaken a rfl
        exact ⟨hstocked, o', ho', hfresh.symm⟩
      · next s' hcached =>
        have hkey : (e.optimizing o).key p = e.key p := rfl
        rw [hkey] at hcached
        rw [hcached] at hstocked htemplates
        obtain ⟨hbuilt, hresult⟩ := hstocked.build hcodec he ho now name (e.key p)
        refine ⟨hbuilt, o, ho, hresult.trans ?_⟩
        rw [Engine.fresh_optimizing he, Engine.fresh_optimizing he, htemplates]
        rfl

/-- **One render.** An engine renders what one of the engines renders without a cache. -/
theorem Stocked.render (hdated : supply.Dated e.language) (hcodec : e.codec.Faithful)
    (he : e.Uses store) (h : Stocked store e settings s) (ho : o ∈ settings) (now : Timestamp)
    (name : String) (scopes : Scopes) :
    ∃ o' ∈ settings, ((e.optimizing o).render now name scopes s).1 =
      ((e.optimizing o').uncached.render now name scopes s).1 := by
  obtain ⟨-, o', ho', hartifact⟩ :=
    h.artifact hdated hcodec he ho now name (e.optimizing o).alwaysCompiles
  refine ⟨o', ho', ?_⟩
  rw [render_fst, render_fst, hartifact, uncached_artifact]
  rfl

/-! ### Runs -/

/-- **One event** keeps the invariant. -/
theorem Stocked.step (hdated : supply.Dated e.language) (hcodec : e.codec.Faithful)
    (he : e.Uses store) (h : Stocked store e settings s) (hstep : store.Step e settings s s') :
    Stocked store e settings s' := by
  cases hstep with
  | change hchange htexts =>
    refine ⟨h.reached.tail hchange, fun t ht a ha => ?_⟩
    obtain ⟨l₀, name₀, a₀, o, ho, hreached, hlater, hrest⟩ := h.stored t (htexts ht) a ha
    exact ⟨l₀, name₀, a₀, o, ho, hreached, hlater.tail hchange, hrest⟩
  | render ho now name scopes => exact (h.artifact hdated hcodec he ho now name _).1
  | compile ho now name => exact (h.artifact hdated hcodec he ho now name _).1
  | recompile ho now name => exact (h.artifact hdated hcodec he ho now name _).1

/-- **A run** keeps the invariant. -/
theorem Stocked.run (hdated : supply.Dated e.language) (hcodec : e.codec.Faithful)
    (he : e.Uses store) (h : Stocked store e settings s)
    (hrun : ReflTransGen (store.Step e settings) s s') : Stocked store e settings s' := by
  induction hrun with
  | refl => exact h
  | tail _ hstep ih => exact ih.step hdated hcodec he hstep

theorem stocked_start (settings : Set Bool) (hstart : store.templates s = supply.start)
    (hempty : ∀ t ∈ store.texts s, e.codec.decode? t = none) : Stocked store e settings s := by
  refine ⟨hstart ▸ .refl, fun t ht a ha => ?_⟩
  rw [hempty t ht] at ha
  cases ha

/-- Engines are isolated if any two of their settings give the same outputs. -/
theorem Supply.Isolated.of_outputs (hdated : supply.Dated language)
    (houtputs : ∀ o ∈ settings, ∀ o' ∈ settings, ∀ l, supply.Later supply.start l → ∀ name a,
      compile language (supply.catalog l) name = .ok a → ∀ scopes,
      (a.finish o').render language.callables scopes =
        (a.finish o).render language.callables scopes) :
    supply.Isolated language settings := by
  intro σ store e hlanguage he hcodec s₀ s hstart hempty hrun o ho now name scopes
  subst hlanguage
  have hstocked := (stocked_start settings hstart hempty).run hdated hcodec he hrun
  obtain ⟨o', ho', hrender⟩ := hstocked.render hdated hcodec he ho now name scopes
  rw [hrender, render_fst, render_fst, uncached_artifact, uncached_artifact,
    Engine.fresh_optimizing he, Engine.fresh_optimizing he]
  -- both sides fail in the same way, or render what one artifact is made into
  have hcatalog : (e.optimizing o').catalog s = (e.optimizing o).catalog s := rfl
  rw [hcatalog]
  cases ((e.optimizing o).catalog s).resolve name with
  | error err => rfl
  | ok p =>
    cases hcompile : compile e.language (supply.catalog (store.templates s)) name with
    | error err => rfl
    | ok a => exact houtputs o ho o' ho' _ hstocked.reached name a hcompile scopes

/-! ### Engines that are not isolated -/

/-- What was just compiled may be taken from a cache. -/
theorem Supply.current_of_compile (supply : Supply τ)
    (hcompile : compile language (supply.catalog l) name = .ok a) :
    ∃ p, (supply.catalog l).resolve name = .ok p ∧ a.templatePath?.any p.same = true ∧
      a.isStale (supply.catalog l).modified = false := by
  obtain ⟨documents, hloaded, -, hdocument, ⟨d, -, hload, htemplate⟩, -⟩ := compile_local hcompile
  refine ⟨d.path, supply.resolve_of_load hload, by simp [htemplate, Path.same_refl], ?_⟩
  simp only [Artifact.isStale, List.any_eq_false, bne_iff_ne, not_not]
  intro dep hdep
  obtain ⟨d', hd', rfl⟩ := hdocument dep hdep
  obtain ⟨n, hn⟩ := hloaded d' hd'
  exact supply.modified_of_load hn

/-- After one engine has rendered a name, another engine renders the artifact of the first one. -/
theorem render_of_shared {e : Engine (τ × Memory)} (he : e.Uses (Store.memory supply))
    (hcaching : e.alwaysCompiles = false)
    (hcompile : compile e.language (supply.catalog l) name = .ok a)
    (hdecode : e.codec.decode? (e.codec.encode (a.finish o₁)) = some (a.finish o₁))
    (o₂ : Bool) (now : Timestamp) (scopes : Scopes) (capacity : Nat) :
    let s := ((e.optimizing o₁).render now name scopes (l, Memory.ofCapacity capacity)).2
    s.1 = l ∧
      ((e.optimizing o₂).render now name scopes s).1 =
        (a.finish o₁).render e.language.callables scopes ∧
      ((e.optimizing o₂).uncached.render now name scopes s).1 =
        (a.finish o₂).render e.language.callables scopes := by
  obtain ⟨p, hresolve, hpath, hstale⟩ := supply.current_of_compile hcompile
  let m := Memory.holding capacity (e.key p) (e.codec.encode (a.finish o₁))
  have hcatalog : ∀ o m', (e.optimizing o).catalog (l, m') = supply.catalog l := fun o m' =>
    congrFun he.catalog_eq (l, m')
  have hresolves : ∀ o m', ((e.optimizing o).catalog (l, m')).resolve name = .ok p := by
    intro o m'
    rw [hcatalog]
    exact hresolve
  have hfresh : ∀ o m', (e.optimizing o).fresh name (l, m') = .ok (a.finish o) := by
    intro o m'
    rw [Engine.fresh_optimizing he]
    show (compile e.language (supply.catalog l) name).map _ = _
    rw [hcompile]
    rfl
  -- the first engine finds nothing and stores its artifact
  have hfirst := Engine.artifact_of_empty (e := e.optimizing o₁) he.cache_eq capacity now
    (hresolves o₁ _) (hfresh o₁ _)
  -- the second one finds it, and cannot tell it from its own
  have hpath' : (a.finish o₁).templatePath?.any p.same = true := by
    simpa [Artifact.templatePath?, Artifact.finish_dependencies] using hpath
  have hstale' : (a.finish o₁).isStale ((e.optimizing o₂).catalog (l, m)).modified = false := by
    rw [hcatalog]
    simpa [Artifact.isStale, Artifact.finish_dependencies] using hstale
  have hsecond := Engine.artifact_of_holding (e := e.optimizing o₂) he.cache_eq capacity now
    hdecode hpath' (hresolves o₂ m) hstale'
  have hstate : ((e.optimizing o₁).render now name scopes (l, Memory.ofCapacity capacity)).2 =
      (l, m) := by
    show ((e.optimizing o₁).artifact now name e.alwaysCompiles _).2 = _
    rw [hcaching, hfirst]
    rfl
  intro s
  rw [show s = (l, m) from hstate]
  refine ⟨rfl, ?_, ?_⟩
  · rw [render_fst, show (e.optimizing o₂).alwaysCompiles = false from hcaching]
    exact congrArg (fun r : Except TemplateError (Artifact × CompileOutcome) × _ =>
      (r.1.map Prod.fst).bind fun a => a.render e.language.callables scopes) hsecond
  · rw [render_fst, uncached_artifact, hresolves o₂ m]
    exact congrArg (fun r : Except TemplateError Artifact =>
      r.bind fun a => a.render e.language.callables scopes) (hfresh o₂ m)

/-- An engine that knows a language, and can read one artifact. -/
noncomputable def Engine.reading (supply : Supply τ) (language : Language) (a : Artifact) :
    Engine (τ × Memory) where
  language := language
  catalog s := supply.catalog s.1
  cache := Memory.backend.onSecond
  codec := .single a
  key _ := "key"
  optimizes := false
  alwaysCompiles := false

theorem Engine.reading_uses (supply : Supply τ) (language : Language) (a : Artifact) :
    (Engine.reading supply language a).Uses (Store.memory supply) :=
  ⟨rfl, rfl⟩

/-- Templates can change while nothing happens to the cache. -/
theorem Store.memory_changes (e : Engine (τ × Memory)) (settings : Set Bool)
    (hlater : supply.Later supply.start l) (m : Memory) :
    ReflTransGen ((Store.memory supply).Step e settings) (supply.start, m) (l, m) := by
  induction hlater with
  | refl => exact .refl
  | tail _ hchange ih => exact ih.tail (.change hchange (Set.Subset.refl _))

/-- Two engines that make different outputs of one template are not isolated. -/
theorem Supply.not_isolated (h₁ : o₁ ∈ settings) (h₂ : o₂ ∈ settings)
    (hlater : supply.Later supply.start l)
    (hcompile : compile language (supply.catalog l) name = .ok a) (scopes : Scopes)
    (hdiffer : (a.finish o₁).render language.callables scopes ≠
      (a.finish o₂).render language.callables scopes) :
    ¬supply.Isolated language settings := by
  intro hisolated
  let e := Engine.reading supply language (a.finish o₁)
  have he : e.Uses (Store.memory supply) := Engine.reading_uses _ _ _
  obtain ⟨-, hshared, huncached⟩ := render_of_shared he rfl hcompile
    (Codec.single_decode_encode _) o₂ .epoch scopes 1
  -- the templates change until they are in the state, and then the first engine renders
  have hrun := (Store.memory_changes e settings hlater (Memory.ofCapacity 1)).tail
    (.render h₁ .epoch name scopes _)
  have hequal := hisolated _ (Store.memory supply) e rfl he (Codec.single_faithful _)
    (supply.start, Memory.ofCapacity 1) _ rfl (fun t ht => by cases ht) hrun o₂ h₂ .epoch name
    scopes
  exact hdiffer (hshared.symm.trans (hequal.trans huncached))

/-- **Engines that share a cache.** Where times tell the states of the templates apart, two engines
that share a cache give what they give without one exactly if they have one setting, or if no output
shows whether a template was optimized. -/
theorem Supply.isolated_iff (supply : Supply τ) (language : Language)
    (hdated : supply.Dated language) (o₁ o₂ : Bool) :
    supply.Isolated language {o₁, o₂} ↔ o₁ = o₂ ∨ supply.HidesOptimizing language := by
  constructor
  · intro hisolated
    by_contra hneither
    obtain ⟨hne, hshown⟩ := not_or.1 hneither
    simp only [Supply.HidesOptimizing, not_forall] at hshown
    obtain ⟨l, hlater, name, a, hcompile, scopes, hdiffer⟩ := hshown
    have h₁ : o₁ ∈ ({o₁, o₂} : Set Bool) := by simp
    have h₂ : o₂ ∈ ({o₁, o₂} : Set Bool) := by simp
    refine Supply.not_isolated h₁ h₂ hlater hcompile scopes ?_ hisolated
    cases o₁ <;> cases o₂
    · exact absurd rfl hne
    · exact Ne.symm hdiffer
    · exact hdiffer
    · exact absurd rfl hne
  · intro h
    refine .of_outputs hdated fun o ho o' ho' l hlater name a hcompile scopes => ?_
    rcases h with rfl | hhidden
    · obtain rfl : o = o₁ := by simpa using ho
      obtain rfl : o' = o := by simpa using ho'
      rfl
    · have hsame := hhidden l hlater name a hcompile scopes
      cases o <;> cases o'
      · rfl
      · exact hsame
      · exact hsame.symm
      · rfl

/-! ### Libraries -/

namespace Library

/-- A library whose templates have some names only, while its clock goes on. -/
def changing (names : Set String) : Supply Library where
  start := .empty
  catalog := Library.catalog
  Change l l' :=
    (∃ name ∈ names, ∃ text, l.clock < lastTick ∧ l' = l.set name text) ∨
      (∃ name, l.clock < lastTick ∧ l' = l.touch name) ∨ ∃ name, l' = l.remove name
  resolve_of_load h := by
    rw [Library.load_path h]
    exact Library.resolve_of_load h
  modified_of_load h := by
    obtain ⟨text, tick, hfind, rfl⟩ := Library.load_eq_ok.1 h
    simp [Library.catalog, hfind]

variable {names : Set String} {l₀ l l' : Library}

/-- An engine in memory that stores nothing that can be read. -/
def writeOnly (language : Language) : Engine (Library × Memory) :=
  { Engine.bare ⟨fun _ => "", fun _ => none⟩ Path.text with language := language }

theorem backed_of_within (language : Language) (hticked : l.Ticked) (hwithin : l.Within names) :
    Backed (writeOnly language) names (l, Memory.ofCapacity 1) :=
  ⟨hticked, hwithin, fun _ ht => by cases ht⟩

/-- One change keeps to the names, and an earlier state stays an earlier state. -/
theorem changing_step (hticked : l.Ticked) (hwithin : l.Within names)
    (hchange : (changing names).Change l l') :
    l'.Ticked ∧ l'.Within names ∧ ∀ l₀ : Library, l₀.Precedes l → l₀.Precedes l' := by
  have hbacked := backed_of_within ⟨[], .empty⟩ hticked hwithin
  rcases hchange with ⟨name, hname, text, hclock, rfl⟩ | ⟨name, hclock, rfl⟩ | ⟨name, rfl⟩
  · have h := hbacked.set hclock hname text
    exact ⟨h.ticked, h.within, fun l₀ hpre => hpre.set name text⟩
  · have h := hbacked.touch hclock name
    exact ⟨h.ticked, h.within, fun l₀ hpre => hpre.touch name⟩
  · have h := hbacked.remove name
    exact ⟨h.ticked, h.within, fun l₀ hpre => hpre.remove name⟩

theorem changing_later (hticked : l₀.Ticked) (hwithin : l₀.Within names)
    (hlater : (changing names).Later l₀ l) :
    l.Ticked ∧ l.Within names ∧ l₀.Precedes l := by
  induction hlater with
  | refl => exact ⟨hticked, hwithin, hticked.precedes_self⟩
  | tail _ hchange ih =>
    obtain ⟨hticked', hwithin', hpre⟩ := ih
    obtain ⟨hticked'', hwithin'', hpres⟩ := changing_step hticked' hwithin' hchange
    exact ⟨hticked'', hwithin'', hpres _ hpre⟩

/-- The ticks of a library tell its states apart if no two names are one path. -/
theorem changing_dated (hnames : PathsDiffer names) (language : Language) :
    (changing names).Dated language := by
  intro l₀ l hlater₀ hlater name₀ name a p hcompile hresolve hpath hstale
  have hempty : Library.empty.Within names := by
    intro n d hload
    obtain ⟨_, _, hfind, -⟩ := load_eq_ok.1 hload
    cases hfind
  obtain ⟨hticked₀, hwithin₀, -⟩ := changing_later ticked_empty hempty hlater₀
  obtain ⟨hticked, hwithin, hpre⟩ := changing_later hticked₀ hwithin₀ hlater
  have hcurrent : (writeOnly language).isCurrent "" p a (l, Memory.ofCapacity 1) = true := by
    simp only [Engine.isCurrent, Bool.and_eq_true, Bool.not_eq_true']
    exact ⟨⟨hpath, hstale⟩, rfl⟩
  have hfresh₀ : (writeOnly language).fresh name₀ (l₀, Memory.ofCapacity 1) = .ok a :=
    Engine.fresh_eq_ok.2 ⟨a, hcompile, rfl⟩
  have hfresh := fresh_of_isCurrent (s := (l, Memory.ofCapacity 1)) ⟨rfl, rfl⟩ hnames hpre hticked
    hwithin₀ hwithin hfresh₀ hresolve hcurrent
  obtain ⟨a', hcompile', rfl⟩ := Engine.fresh_eq_ok.1 hfresh
  exact hcompile'

end Library

theorem compile_spaced_page :
    compile ⟨[], .empty⟩ (Library.empty.set "p" "a  b").catalog "p" =
      .ok ⟨1, "p", [], [.text "a  b"], [⟨⟨"p"⟩, .ofSeconds 1⟩]⟩ := by
  have hparse : parseTemplate ⟨[], .empty⟩ ⟨"p", "a  b"⟩ = .ok ⟨none, [.text "a  b"]⟩ := by cbv
  exact compile_page hparse rfl rfl

theorem render_optimized_page :
    (Artifact.optimize ⟨1, "p", [], [.text "a  b"], [⟨⟨"p"⟩, .ofSeconds 1⟩]⟩).render .empty .empty =
      .ok "a b" := by
  cbv

/-- Two engines that share a cache are not isolated, even if all templates have one name. -/
theorem not_isolated_single_name :
    (Library.changing {"p"}).Dated ⟨[], .empty⟩ ∧
      ¬(Library.changing {"p"}).Isolated ⟨[], .empty⟩ {true, false} := by
  have hdated : (Library.changing {"p"}).Dated ⟨[], .empty⟩ :=
    Library.changing_dated (by simp [PathsDiffer]) _
  refine ⟨hdated, ?_⟩
  rw [Supply.isolated_iff _ _ hdated]
  rintro (h | hhidden)
  · cases h
  · have hset : (Library.changing {"p"}).Later .empty (Library.empty.set "p" "a  b") :=
      .single (.inl ⟨"p", rfl, "a  b", by decide, rfl⟩)
    have hsame := hhidden _ hset "p" _ compile_spaced_page .empty
    rw [show (Language.mk [] .empty).callables = .empty from rfl, render_optimized_page,
      render_plain] at hsame
    exact absurd (Except.ok.inj hsame) (by decide)

/-- An engine over a library, with the written form of artifacts and the keys of paths. -/
def Engine.ofLibrary : Engine (Library × Memory) :=
  { Engine.bare ⟨Artifact.encode, Artifact.decode?⟩ (cacheKey none) with optimizes := true }

/-- **A leaked setting.** An engine that does not optimize writes what an engine that optimizes has
stored. -/
theorem optimized_output_without_optimizing :
    let plain := Engine.ofLibrary.optimizing false
    let s := (Engine.ofLibrary.render .epoch "p" .empty
      (Library.empty.set "p" "a  b", Memory.ofCapacity 1)).2
    (plain.render .epoch "p" .empty s).1 = .ok "a b" ∧
      (plain.uncached.render .epoch "p" .empty s).1 = .ok "a  b" := by
  have hdecode : Artifact.decode? (Artifact.encode (Artifact.finish true
      ⟨1, "p", [], [.text "a  b"], [⟨⟨"p"⟩, .ofSeconds 1⟩]⟩)) =
      some (Artifact.finish true ⟨1, "p", [], [.text "a  b"], [⟨⟨"p"⟩, .ofSeconds 1⟩]⟩) := by
    cbv
  have huses : Engine.ofLibrary.Uses (Store.memory (Library.changing Set.univ)) := ⟨rfl, rfl⟩
  obtain ⟨-, hshared, huncached⟩ := render_of_shared huses rfl compile_spaced_page hdecode false
    .epoch .empty 1
  exact ⟨hshared.trans render_optimized_page, huncached.trans (render_plain _ _ _ _)⟩

end Hashmark
