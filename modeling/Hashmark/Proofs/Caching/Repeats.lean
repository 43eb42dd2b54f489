import Hashmark.Proofs.Caching.Sharing
import Hashmark.Proofs.Compiling.Constants
import Hashmark.Proofs.Storing.Artifacts

/-!
# Compiling a name again

An engine stores what it compiles, so that it need not compile it again. Over a library and a memory
this works exactly for the artifacts that can be read after they were written
(`Engine.compile_again`): right after a name was compiled, it is taken from the cache if its
artifact is `Artifact.Storable`, and is compiled anew otherwise. An artifact with an infinite float
is not storable, and a template can have one (`compiled_twice_infinite`).
-/

namespace Hashmark

/-- An engine over templates and a cache in memory that keeps artifacts in their written form, and
takes them from there. -/
structure Engine.Keeping (e : Engine (Library × Memory)) : Prop where
  inMemory : e.InMemory
  codec_eq : e.codec = ⟨Artifact.encode, Artifact.decode?⟩
  caching : e.alwaysCompiles = false

/-- Whether nothing in a memory runs out between two times. -/
def Memory.Lasts (m : Memory) (now now' : Timestamp) : Prop :=
  ∀ key entry, Dict.find? m.entries key = some entry → entry.isExpired now = false →
    entry.isExpired now' = false

variable {e : Engine (Library × Memory)} {s : Library × Memory} {now now' : Timestamp}
  {name k : String} {a : Artifact} {p : Path} {o : CompileOutcome}

/-! ### Looking something up -/

/-- What was just stored is there at any time. -/
theorem Memory.get_put (m : Memory) (now now' : Timestamp) (key text : String) :
    (m.put now key text none).get now' key = (some text, m.put now key text none) := by
  have hfind : Dict.find? (m.put now key text none).entries key = some ⟨text, none⟩ := by
    show Dict.find? (Dict.insert key _ _) key = _
    rw [Dict.find?_insert, if_pos rfl]
  simp only [get, hfind]
  rfl

/-- What is found is left where it is, and is found again as long as it lasts. -/
theorem Memory.get_again {m : Memory} {text : String} (hlasts : m.Lasts now now')
    (h : (m.get now k).1 = some text) : m.get now k = (some text, m) ∧
      m.get now' k = (some text, m) := by
  unfold get at h ⊢
  cases hfind : Dict.find? m.entries k with
  | none => simp [hfind] at h
  | some entry =>
    cases hexpired : entry.isExpired now with
    | true => simp [hfind, hexpired] at h
    | false =>
      have htext : entry.text = text := by simpa [hfind, hexpired] using h
      simp [hexpired, hlasts k entry hfind hexpired, htext]

theorem Engine.fresh_version (hfresh : e.fresh name s = .ok a) :
    a.version = Artifact.currentVersion := by
  obtain ⟨a', hcompile, rfl⟩ := Engine.fresh_eq_ok.1 hfresh
  obtain ⟨d, links, -, -, rfl⟩ := compile_eq_ok.1 hcompile
  split <;> rfl

/-- A fresh artifact may be taken from a cache for its name. -/
theorem Engine.current_of_fresh (he : e.InMemory) (hfresh : e.fresh name s = .ok a)
    (hresolve : (e.catalog s).resolve name = .ok p) :
    a.templatePath?.any p.same = true ∧ a.isStale s.1.catalog.modified = false := by
  obtain ⟨a', hcompile, rfl⟩ := Engine.fresh_eq_ok.1 hfresh
  simp only [he.catalog_eq] at hcompile hresolve
  obtain ⟨p', hresolve', hpath, hstale⟩ :=
    (Library.changing Set.univ).current_of_compile hcompile
  obtain rfl : p' = p := Except.ok.inj (hresolve'.symm.trans hresolve)
  split
  · exact ⟨hpath, hstale⟩
  · exact ⟨hpath, hstale⟩

/-- **An artifact that was just stored** is taken from the cache exactly if it is storable. -/
theorem Engine.cached_put (he : e.Keeping) (hfresh : e.fresh name s = .ok a)
    (hresolve : (e.catalog s).resolve name = .ok p) (m : Memory) (now now' : Timestamp)
    (k : String) :
    let stored := m.put now k a.encode none
    (e.cached now' k p (s.1, stored)).2 = (s.1, stored) ∧
      ((e.cached now' k p (s.1, stored)).1.isSome ↔ a.Storable) := by
  intro stored
  obtain ⟨hpath, hstale⟩ := Engine.current_of_fresh he.inMemory hfresh hresolve
  rw [Engine.cached_eq he.inMemory.cache_eq, Memory.get_put, Option.bind_some, he.codec_eq,
    he.inMemory.catalog_eq]
  refine ⟨rfl, ?_⟩
  rw [← Artifact.isSome_decode?_encode (Engine.fresh_version hfresh)]
  dsimp only
  cases hdecode : Artifact.decode? a.encode with
  | none => rfl
  | some b =>
    -- what is read has the dependencies of the artifact, so it is as current
    have hdependencies := Artifact.dependencies_of_decode? hdecode
    have hpath' : b.templatePath?.any p.same = true := by
      rw [← hpath]
      simp only [Artifact.templatePath?, hdependencies]
    have hstale' : b.isStale s.1.catalog.modified = false := by
      rw [← hstale]
      simp only [Artifact.isStale, hdependencies]
    rw [Option.filter_some, if_pos (by rw [hpath', hstale']; rfl)]

/-! ### Compiling twice -/

/-- A name whose artifact is taken from the cache. -/
theorem Engine.compile_of_taken (he : e.Keeping) (hresolve : (e.catalog s).resolve name = .ok p)
    (htaken : (e.cached now (e.key p) p s).1.isSome) :
    e.compile now name s =
      (.ok ⟨name, e.key p, none, .cached⟩, (e.cached now (e.key p) p s).2) := by
  cases hcached : e.cached now (e.key p) p s with
  | mk taken? s' =>
    rw [hcached] at htaken
    obtain ⟨a, rfl⟩ := Option.isSome_iff_exists.1 htaken
    rw [Engine.compile, he.caching, Engine.artifact_of_cached hresolve hcached,
      he.inMemory.cache_eq]
    rfl

/-- A name whose artifact is not taken from the cache is compiled anew. The artifact is stored. -/
theorem Engine.compile_of_not_taken (he : e.Keeping)
    (hresolve : (e.catalog s).resolve name = .ok p)
    (htaken : (e.cached now (e.key p) p s).1 = none) :
    ∃ m : Memory, e.compile now name s = match e.fresh name s with
      | .ok a => (.ok ⟨name, e.key p, none, .compiled⟩,
          (s.1, m.put now (e.key p) a.encode none))
      | .error err => (.error err, (s.1, m)) := by
  have hcached : e.cached now (e.key p) p s = (none, (s.1, (s.2.get now (e.key p)).2)) := by
    rw [Engine.cached_eq he.inMemory.cache_eq] at htaken ⊢
    rw [Prod.mk.injEq]
    exact ⟨htaken, rfl⟩
  have hfresh : e.fresh name (s.1, (s.2.get now (e.key p)).2) = e.fresh name s :=
    fresh_congr he.inMemory rfl
  refine ⟨(s.2.get now (e.key p)).2, ?_⟩
  simp only [Engine.compile, he.caching, Engine.artifact_of_not_cached hresolve hcached,
    Engine.build, hfresh, he.inMemory.cache_eq, he.codec_eq]
  cases e.fresh name s <;> rfl

/-- What was taken from the cache is taken again as long as it lasts. -/
theorem Engine.cached_again (he : e.InMemory) (hlasts : s.2.Lasts now now')
    (htaken : (e.cached now k p s).1.isSome) :
    (e.cached now k p s).2 = s ∧ (e.cached now' k p s).1.isSome := by
  obtain ⟨text, htext⟩ : ∃ text, (s.2.get now k).1 = some text := by
    rw [Engine.cached_eq he.cache_eq] at htaken
    cases hget : (s.2.get now k).1 with
    | none => simp [hget] at htaken
    | some text => exact ⟨text, rfl⟩
  obtain ⟨hnow, hlater⟩ := Memory.get_again hlasts htext
  rw [Engine.cached_eq he.cache_eq, hnow] at htaken ⊢
  rw [Engine.cached_eq he.cache_eq, hlater]
  exact ⟨rfl, htaken⟩

/-- Right after its artifact was stored, a name is compiled anew only if that is not storable. -/
theorem Engine.compile_stored (he : e.Keeping) (hresolve : (e.catalog s).resolve name = .ok p)
    (hfresh : e.fresh name s = .ok a) (m : Memory) (now now' : Timestamp) :
    ∃ o, (e.compile now' name (s.1, m.put now (e.key p) a.encode none)).1 = .ok o ∧
      (o.status = .cached ↔ a.Storable) := by
  have hresolve' : (e.catalog (s.1, m.put now (e.key p) a.encode none)).resolve name = .ok p := by
    rw [← hresolve]
    simp only [he.inMemory.catalog_eq]
  have hfresh' : e.fresh name (s.1, m.put now (e.key p) a.encode none) = .ok a := by
    rw [← hfresh]
    exact fresh_congr he.inMemory rfl
  obtain ⟨-, hiff⟩ := Engine.cached_put he hfresh hresolve m now now' (e.key p)
  rw [← hiff]
  cases htaken : (e.cached now' (e.key p) p (s.1, m.put now (e.key p) a.encode none)).1 with
  | some b =>
    rw [Engine.compile_of_taken he hresolve' (by rw [htaken]; rfl)]
    exact ⟨_, rfl, by simp⟩
  | none =>
    obtain ⟨_, hsecond⟩ := Engine.compile_of_not_taken he hresolve' htaken
    rw [hsecond, hfresh']
    exact ⟨_, rfl, by simp⟩

/-- **Compiling a name again.** Right after a name was compiled, compiling it succeeds. The artifact
is taken from the cache exactly if it was already taken from there the first time, or it is
storable. -/
theorem Engine.compile_again (he : e.Keeping) (hlasts : s.2.Lasts now now')
    (hcompile : (e.compile now name s).1 = .ok o) :
    ∃ o', (e.compile now' name (e.compile now name s).2).1 = .ok o' ∧
      (o'.status = .cached ↔
        o.status = .cached ∨ ∃ a, e.fresh name s = .ok a ∧ a.Storable) := by
  cases hresolve : (e.catalog s).resolve name with
  | error err => simp [Engine.compile, Engine.artifact, hresolve, Except.map] at hcompile
  | ok p =>
    cases htaken : (e.cached now (e.key p) p s).1 with
    | some a =>
      -- looking the artifact up left everything as it was
      have hfirst := Engine.compile_of_taken he hresolve (by rw [htaken]; rfl)
      obtain ⟨hstate, hagain⟩ := Engine.cached_again he.inMemory hlasts (by rw [htaken]; rfl)
      rw [hstate] at hfirst
      rw [hfirst] at hcompile ⊢
      obtain rfl := Except.ok.inj hcompile
      rw [Engine.compile_of_taken he hresolve hagain]
      exact ⟨_, rfl, by simp⟩
    | none =>
      -- the second time the memory holds what was stored the first time
      obtain ⟨m, hfirst⟩ := Engine.compile_of_not_taken he hresolve htaken
      cases hfresh : e.fresh name s with
      | error err =>
        rw [hfirst, hfresh] at hcompile
        cases hcompile
      | ok a =>
        rw [hfresh] at hfirst
        rw [hfirst] at hcompile ⊢
        obtain rfl := Except.ok.inj hcompile
        obtain ⟨o', hsecond, hstatus⟩ := Engine.compile_stored he hresolve hfresh m now now'
        exact ⟨o', hsecond, by simpa using hstatus⟩

theorem Engine.ofLibrary_keeping (optimizes : Bool) :
    (Engine.ofLibrary.optimizing optimizes).Keeping :=
  ⟨⟨rfl, rfl⟩, rfl, rfl⟩

theorem Memory.ofCapacity_lasts (capacity : Nat) (now now' : Timestamp) :
    (Memory.ofCapacity capacity).Lasts now now' := by
  intro key entry hfind
  cases hfind

/-- A first compilation with an empty memory. -/
theorem Engine.compile_first (optimizes : Bool) (now : Timestamp) {l : Library} {capacity : Nat}
    (hresolve : l.catalog.resolve name = .ok p)
    (hfresh : (Engine.ofLibrary.optimizing optimizes).fresh name (l, Memory.ofCapacity capacity) =
      .ok a) :
    (Engine.ofLibrary.optimizing optimizes).compile now name (l, Memory.ofCapacity capacity) =
      (.ok ⟨name, cacheKey none p, none, .compiled⟩,
        (l, (Memory.ofCapacity capacity).put now (cacheKey none p) a.encode none)) := by
  have hartifact := Engine.artifact_of_empty (e := Engine.ofLibrary.optimizing optimizes) rfl
    capacity now hresolve hfresh
  rw [Engine.compile, (Engine.ofLibrary_keeping optimizes).caching, hartifact]
  rfl

/-- A page is taken from the cache when it is compiled again. -/
theorem Engine.compile_spaced_again :
    let plain := Engine.ofLibrary.optimizing false
    let s := (Library.empty.set "p" "a  b", Memory.ofCapacity 1)
    ∃ o o', (plain.compile .epoch "p" s).1 = .ok o ∧ o.status = .compiled ∧
      (plain.compile .epoch "p" (plain.compile .epoch "p" s).2).1 = .ok o' ∧
      o'.status = .cached := by
  intro plain s
  have hresolve : s.1.catalog.resolve "p" = .ok ⟨"p"⟩ := rfl
  have hfresh : plain.fresh "p" s = .ok ⟨1, "p", [], [.text "a  b"], [⟨⟨"p"⟩, .ofSeconds 1⟩]⟩ :=
    Engine.fresh_eq_ok.2 ⟨_, compile_spaced_page, rfl⟩
  have hfirst := congrArg Prod.fst (Engine.compile_first false .epoch hresolve hfresh)
  have hstorable : Artifact.Storable ⟨1, "p", [], [.text "a  b"], [⟨⟨"p"⟩, .ofSeconds 1⟩]⟩ :=
    ⟨by decide, by decide⟩
  obtain ⟨o', hsecond, hstatus⟩ := Engine.compile_again (Engine.ofLibrary_keeping false)
    (Memory.ofCapacity_lasts 1 .epoch .epoch) hfirst
  exact ⟨_, o', hfirst, rfl, hsecond, hstatus.2 (.inr ⟨_, hfresh, hstorable⟩)⟩

/-! ### A template that is never taken from the cache -/

/-- A page with one constant, which is greater than every finite double. -/
def infinitePage : String :=
  String.ofList ('#' :: '[' :: (List.replicate 310 '9' ++ '.' :: ['0'] ++ [']']))

/-- What the constant of the page is read as. -/
def infiniteFloat : Float :=
  Number.Numeral.nearest
    ⟨false, Number.digitsOf (List.replicate 310 '9'), Number.digitsOf ['0'], 0⟩

theorem isFinite_infiniteFloat : infiniteFloat.isFinite = false := by
  decide +kernel

theorem compile_infinite_page :
    Hashmark.compile ⟨[], .empty⟩ (Library.empty.set "p" infinitePage).catalog "p" =
      .ok ⟨1, "p", [], [.emit (.lit (.float infiniteFloat))], [⟨⟨"p"⟩, .ofSeconds 1⟩]⟩ := by
  have hparse : parseTemplate ⟨[], .empty⟩ ⟨"p", infinitePage⟩ =
      .ok ⟨none, [.emit (.lit (.float infiniteFloat))]⟩ := by
    refine parseTemplate_decimal _ _ (fun c hc => ?_) (List.cons_ne_nil _ _) (fun c hc => ?_)
      (List.cons_ne_nil _ _)
    · rw [List.eq_of_mem_replicate hc]
      rfl
    · rw [List.mem_singleton.1 hc]
      rfl
  exact compile_page hparse rfl rfl

/-- **A template that is compiled each time.** An infinite constant is written as `null`, which is
not read as a constant. -/
theorem compiled_twice_infinite :
    let plain := Engine.ofLibrary.optimizing false
    let s := (Library.empty.set "p" infinitePage, Memory.ofCapacity 1)
    ∃ o o', (plain.compile .epoch "p" s).1 = .ok o ∧
      (plain.compile .epoch "p" (plain.compile .epoch "p" s).2).1 = .ok o' ∧
      o'.status = .compiled := by
  intro plain s
  have hresolve : s.1.catalog.resolve "p" = .ok ⟨"p"⟩ := rfl
  have hfresh : plain.fresh "p" s =
      .ok ⟨1, "p", [], [.emit (.lit (.float infiniteFloat))], [⟨⟨"p"⟩, .ofSeconds 1⟩]⟩ :=
    Engine.fresh_eq_ok.2 ⟨_, compile_infinite_page, rfl⟩
  have hfirst := Engine.compile_first false .epoch hresolve hfresh
  obtain ⟨o', hsecond, hstatus⟩ := Engine.compile_stored (Engine.ofLibrary_keeping false) hresolve
    hfresh (Memory.ofCapacity 1) .epoch .epoch
  refine ⟨_, o', congrArg Prod.fst hfirst, ?_, ?_⟩
  · rw [hfirst]
    exact hsecond
  · cases hcase : o'.status with
    | compiled => rfl
    | cached =>
      have hfinite := (hstatus.1 hcase).floats_finite infiniteFloat (by
        simp [Artifact.floats, Node.exprsOfList, Node.exprs, Expr.floats, Literal.floats])
      rw [isFinite_infiniteFloat] at hfinite
      cases hfinite

end Hashmark
