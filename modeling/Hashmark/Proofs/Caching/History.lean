import Mathlib
import Hashmark.Cache.Directory
import Hashmark.Cache.Memory
import Hashmark.Catalog.Library

/-!
# What changes in a library and in a cache

Since the clock of a library ticks with every change, a template that has the time it had earlier
still has the text it had earlier (`Library.Precedes.load_eq`). Neither a memory nor a directory
ever makes up texts: what it holds after an operation, it held before or was given
(`Memory.mem_texts_put` and `CacheDirectory.texts_put` with their neighbours).
-/

namespace Hashmark

namespace Library

/-- The last tick that is a point in time; a clock that gets there stops. -/
def lastTick : Nat := 2 ^ 63 - 1

/-- No template was changed after the present tick, and the present tick is a point in time. -/
structure Ticked (l : Library) : Prop where
  le_clock : ∀ {name text tick}, Dict.find? l.templates name = some (text, tick) → tick ≤ l.clock
  clock_le : l.clock ≤ lastTick

/-- `l` is a later state of `l₀`: the clock went on, and a template with an old tick is the old
one. -/
structure Precedes (l₀ l : Library) : Prop where
  ticked : l₀.Ticked
  clock_le : l₀.clock ≤ l.clock
  text_eq : ∀ {name text₀ text tick}, Dict.find? l₀.templates name = some (text₀, tick) →
    Dict.find? l.templates name = some (text, tick) → text = text₀

theorem load_eq_ok {l : Library} {name : String} {d : Document} :
    l.load name = .ok d ↔ ∃ text tick, Dict.find? l.templates name = some (text, tick) ∧
      d = ⟨⟨name⟩, ⟨name, text⟩, .ofSeconds tick⟩ := by
  unfold load
  constructor
  · intro h
    split at h
    · next text tick hfind => cases h; exact ⟨text, tick, hfind, rfl⟩
    · cases h
  · rintro ⟨text, tick, hfind, rfl⟩
    rw [hfind]

theorem load_path {l : Library} {name : String} {d : Document} (h : l.load name = .ok d) :
    d.path = ⟨name⟩ := by
  obtain ⟨text, tick, -, rfl⟩ := load_eq_ok.1 h
  rfl

theorem ticked_empty : empty.Ticked :=
  ⟨fun h => by simp [empty] at h, by simp [empty]⟩

theorem Ticked.precedes_self {l : Library} (h : l.Ticked) : l.Precedes l :=
  ⟨h, Nat.le_refl _, fun h₀ h₁ => by rw [h₀] at h₁; cases h₁; rfl⟩

/-! ### Changes -/

theorem find?_set (l : Library) (name text other : String) :
    Dict.find? (l.set name text).templates other =
      if other = name then some (text, l.clock + 1) else Dict.find? l.templates other :=
  Dict.find?_insert _ _ _ _

theorem Ticked.set {l : Library} (h : l.Ticked) (hclock : l.clock < lastTick)
    (name text : String) : (l.set name text).Ticked := by
  refine ⟨fun {other _ tick} hfind => ?_, hclock⟩
  rw [find?_set] at hfind
  split at hfind
  · cases hfind; exact Nat.le_refl _
  · exact Nat.le_succ_of_le (h.le_clock hfind)

theorem Precedes.set {l₀ l : Library} (h : l₀.Precedes l) (name text : String) :
    l₀.Precedes (l.set name text) := by
  refine ⟨h.ticked, Nat.le_succ_of_le h.clock_le, fun h₀ hfind => ?_⟩
  rw [find?_set] at hfind
  split at hfind
  · -- the new tick is later than all ticks of `l₀`
    cases hfind
    have := h.ticked.le_clock h₀
    have := h.clock_le
    omega
  · exact h.text_eq h₀ hfind

/-- A touch sets a template to the text that it has, or only lets the clock tick. -/
theorem touch_cases (l : Library) (name : String) :
    (∃ text tick, Dict.find? l.templates name = some (text, tick) ∧
      l.touch name = l.set name text) ∨ l.touch name = { l with clock := l.clock + 1 } := by
  unfold touch
  split
  · next text tick hfind => exact .inl ⟨text, tick, hfind, rfl⟩
  · exact .inr rfl

theorem Ticked.touch {l : Library} (h : l.Ticked) (hclock : l.clock < lastTick) (name : String) :
    (l.touch name).Ticked := by
  rcases l.touch_cases name with ⟨text, tick, -, heq⟩ | heq
  · rw [heq]; exact h.set hclock name text
  · rw [heq]; exact ⟨fun hfind => Nat.le_succ_of_le (h.le_clock hfind), hclock⟩

theorem Precedes.touch {l₀ l : Library} (h : l₀.Precedes l) (name : String) :
    l₀.Precedes (l.touch name) := by
  rcases l.touch_cases name with ⟨text, tick, -, heq⟩ | heq
  · rw [heq]; exact h.set name text
  · rw [heq]; exact ⟨h.ticked, Nat.le_succ_of_le h.clock_le, h.text_eq⟩

theorem find?_remove {l : Library} {name other : String} {entry : String × Nat}
    (h : Dict.find? (l.remove name).templates other = some entry) :
    Dict.find? l.templates other = some entry := by
  rw [remove, Dict.find?_erase] at h
  split at h
  · cases h
  · exact h

theorem Ticked.remove {l : Library} (h : l.Ticked) (name : String) : (l.remove name).Ticked :=
  ⟨fun hfind => h.le_clock (find?_remove hfind), h.clock_le⟩

theorem Precedes.remove {l₀ l : Library} (h : l₀.Precedes l) (name : String) :
    l₀.Precedes (l.remove name) :=
  ⟨h.ticked, h.clock_le, fun h₀ hfind => h.text_eq h₀ (find?_remove hfind)⟩

/-! ### Times tell changes apart -/

/-- Ticks up to the last one are different points in time. -/
theorem ofSeconds_inj {m n : Nat} (hm : m ≤ lastTick) (hn : n ≤ lastTick)
    (h : Timestamp.ofSeconds m = .ofSeconds n) : m = n := by
  have hseconds : UInt64.ofNat m = UInt64.ofNat n := congrArg Timestamp.seconds h
  have hlast : lastTick < UInt64.size := by decide
  have := congrArg UInt64.toNat hseconds
  rwa [UInt64.toNat_ofNat_of_lt' (by omega), UInt64.toNat_ofNat_of_lt' (by omega)] at this

/-- **A time tells which text it was.** A template that has the time it had in an earlier state is
loaded as it was then. -/
theorem Precedes.load_eq {l₀ l : Library} (h : l₀.Precedes l) (hl : l.Ticked) {name : String}
    {d : Document} (h₀ : l₀.load name = .ok d)
    (htime : l.catalog.modified ⟨name⟩ = some d.modified) : l.load name = .ok d := by
  obtain ⟨text₀, tick₀, hfind₀, rfl⟩ := load_eq_ok.1 h₀
  obtain ⟨⟨text, tick⟩, hfind, heq⟩ := Option.map_eq_some_iff.1 htime
  obtain rfl : tick = tick₀ :=
    ofSeconds_inj (Nat.le_trans (hl.le_clock hfind) hl.clock_le)
      (Nat.le_trans (h.ticked.le_clock hfind₀) h.ticked.clock_le) heq
  obtain rfl := h.text_eq hfind₀ hfind
  exact load_eq_ok.2 ⟨_, _, hfind, rfl⟩

end Library

/-! ### Texts in a memory -/

namespace Memory

/-- The texts of the entries, expired ones included. -/
def texts (m : Memory) : List String :=
  m.entries.map fun entry => entry.2.text

theorem mem_texts_remove {m : Memory} {key t : String} (h : t ∈ (m.remove key).2.texts) :
    t ∈ m.texts := by
  unfold remove at h
  split at h
  · exact List.map_subset _ (List.filter_sublist.subset) h
  · exact h

theorem evict_subset (capacity : Nat) (entries : Dict MemoryEntry) (order : List String) :
    (evict capacity entries order).1 ⊆ entries := by
  induction order generalizing entries with
  | nil => exact List.Subset.refl _
  | cons oldest order ih =>
    unfold evict
    split
    · exact List.Subset.trans (ih _) List.filter_sublist.subset
    · exact List.Subset.refl _

theorem mem_texts_put {m : Memory} {now : Timestamp} {key text : String} {ttl : Option Duration}
    {t : String} (h : t ∈ (m.put now key text ttl).texts) : t = text ∨ t ∈ m.texts := by
  obtain ⟨entry, hentry, rfl⟩ := List.mem_map.1 h
  let m' := (m.remove key).2
  have hold (h : entry ∈ (evict m'.capacity m'.entries m'.order).1) : entry.2.text ∈ m.texts :=
    mem_texts_remove (List.mem_map_of_mem (evict_subset _ _ _ h))
  unfold put at hentry
  split at hentry
  · rcases Dict.mem_insert hentry with rfl | hentry
    · exact .inl rfl
    · exact .inr (hold hentry)
  · exact .inr (hold hentry)

/-- A text that is found is one of the texts. -/
theorem mem_texts_of_get {m : Memory} {now : Timestamp} {key t : String}
    (h : (m.get now key).1 = some t) : t ∈ m.texts := by
  unfold get at h
  split at h
  · cases h
  · next e hfind =>
    split at h
    · cases h
    · cases h
      obtain ⟨before, after, heq, -⟩ := List.lookup_eq_some_iff.1 hfind
      simp [texts, heq]

theorem mem_texts_get {m : Memory} {now : Timestamp} {key t : String}
    (h : t ∈ (m.get now key).2.texts) : t ∈ m.texts := by
  unfold get at h
  split at h
  · exact h
  · split at h
    · exact mem_texts_remove h
    · exact h

end Memory

/-! ### Texts on a disk -/

namespace Disk

variable {d d' : Disk} {at' l : Location} {p : Path}

/-- The texts of the files. -/
def texts (d : Disk) : Set String :=
  {t | ∃ l content modified, (l, DiskEntry.file content modified) ∈ d.entries ∧
    String.fromUTF8? content = some t}

theorem mem_texts_of_readText? {t : String} (h : d.readText? p = some t) : t ∈ d.texts := by
  simp only [readText?, file?, Option.bind_eq_bind, Option.bind_eq_some_iff] at h
  obtain ⟨⟨l, content, modified⟩, ⟨l', -, hentry⟩, htext⟩ := h
  split at hentry
  · next content' modified' heq =>
    cases hentry
    unfold entry? at heq
    split at heq
    · cases heq
    · obtain ⟨before, after, hentries, -⟩ := List.lookup_eq_some_iff.1 heq
      exact ⟨l, content, modified, by simp [hentries], htext⟩
  · cases hentry

/-- What is put somewhere replaces at most what was there. -/
theorem mem_entries_put {e : DiskEntry} {entry : Location × DiskEntry}
    (h : entry ∈ (d.put at' e).entries) : entry = (at', e) ∨ entry ∈ d.entries := by
  rcases List.mem_cons.1 h with h | h
  · exact .inl h
  · exact .inr (List.mem_of_mem_filter h)

theorem texts_put_directory (d : Disk) (at' : Location) :
    (d.put at' .directory).texts ⊆ d.texts := by
  rintro t ⟨l, content, modified, hmem, htext⟩
  rcases mem_entries_put hmem with heq | hmem
  · cases heq
  · exact ⟨l, content, modified, hmem, htext⟩

theorem texts_makeWay {segments : List String} (h : d.makeWay at' segments = some (d', l)) :
    d'.texts ⊆ d.texts := by
  -- the directories that are made on the way hold no texts
  induction segments generalizing d at' with
  | nil =>
    rw [makeWay] at h
    split at h <;> cases h
    exact subset_rfl
  | cons segment segments ih =>
    rw [makeWay] at h
    split at h
    · cases h
    · split at h
      · exact ih h
      · exact ih h
      · exact ih h
      · exact ih h
      · split at h
        · exact ih h
        · exact (ih h).trans (texts_put_directory d _)

theorem texts_makeDirectories (h : d.makeDirectories p = some d') : d'.texts ⊆ d.texts := by
  unfold makeDirectories at h
  split at h
  · cases h
    exact subset_rfl
  · obtain ⟨⟨d₁, l⟩, hway, rfl⟩ := Option.map_eq_some_iff.1 h
    exact texts_makeWay hway

theorem texts_write {t : String} {now : Timestamp} (h : d.write p t.toUTF8 now = some d') :
    d'.texts ⊆ insert t d.texts := by
  simp only [write, Option.bind_eq_bind, Option.bind_eq_some_iff] at h
  obtain ⟨name, -, h⟩ := h
  split at h
  · obtain ⟨l, -, h⟩ := Option.bind_eq_some_iff.1 h
    split at h <;> cases h
    rintro t' ⟨l', content, modified, hmem, htext⟩
    rcases mem_entries_put hmem with heq | hmem
    · cases heq
      have hread : String.fromUTF8? t.toUTF8 = some t := by
        show (if h : t.toUTF8.IsValidUTF8 then some (String.fromUTF8 t.toUTF8 h) else none) = _
        exact dif_pos t.isValidUTF8
      exact .inl (Option.some.inj (htext.symm.trans hread))
    · exact .inr ⟨l', content, modified, hmem, htext⟩
  · cases h

end Disk

/-- A directory holds what was stored in it last, and what the disk held before. -/
theorem CacheDirectory.texts_put {c : CacheDirectory} {now : Timestamp} {key t : String}
    {d d' : Disk} (h : c.put now key t d = some d') : d'.texts ⊆ insert t d.texts := by
  obtain ⟨d₁, hmake, hwrite⟩ := Option.bind_eq_some_iff.1 h
  exact (Disk.texts_write hwrite).trans
    (Set.insert_subset_insert (Disk.texts_makeDirectories hmake))

end Hashmark
