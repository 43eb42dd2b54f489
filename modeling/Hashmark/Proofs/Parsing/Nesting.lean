import Mathlib
import Hashmark.Marker.Balance

/-!
# Balanced sources

Which sequences of markers are balanced, as a grammar: blocks stand inside each other with a closing
directive for each opening one, branches stand directly in a choice, and `#extends` comes first or
not at all (`WellNested`). The check that walks over the markers with a stack of open blocks accepts
exactly these (`checkBalance_eq_ok`).
-/

namespace Hashmark

namespace MarkerKind

/-- Whether a marker counts for the nesting; comments and escapes may stand anywhere. -/
def counts : MarkerKind → Bool
  | .comment | .escape => false
  | _ => true

/-- Whether a marker stands for itself, wherever it is. -/
def isSimple : MarkerKind → Bool
  | .expression | .yield | .connect | .custom => true
  | _ => false

/-- Whether a marker begins another branch of a choice. -/
def isBranch : MarkerKind → Bool
  | .elseIf | .otherwise => true
  | _ => false

end MarkerKind

/-- The kinds of the markers that count for the nesting. -/
def nestingOf (markers : List Marker) : List MarkerKind :=
  (markers.map Marker.kind).filter MarkerKind.counts

/-- The markers that may stand together inside a block of some kind, or in a template outside of all
blocks. -/
inductive Nested : Option BlockKind → List MarkerKind → Prop where
  | nil {context : Option BlockKind} : Nested context []
  | simple {context : Option BlockKind} {k : MarkerKind} {ks : List MarkerKind} :
      k.isSimple = true → Nested context ks → Nested context (k :: ks)
  /-- Only a choice has branches. -/
  | branch {k : MarkerKind} {ks : List MarkerKind} :
      k.isBranch = true → Nested (some .choice) ks → Nested (some .choice) (k :: ks)
  | block {context : Option BlockKind} {b : BlockKind} {inner ks : List MarkerKind} :
      Nested (some b) inner → Nested context ks →
        Nested context (.opening b :: (inner ++ .closing b :: ks))

/-- The markers of a template whose blocks are balanced. -/
def WellNested (ks : List MarkerKind) : Prop :=
  Nested none ks ∨ ∃ rest, ks = .extending :: rest ∧ Nested none rest

theorem wellNested_extending {ks : List MarkerKind} :
    WellNested (.extending :: ks) ↔ Nested none ks := by
  constructor
  · rintro (h | ⟨rest, hks, h⟩)
    · cases h with
      | simple hk => cases hk
    · rwa [(List.cons.inj hks).2]
  · exact fun h => .inr ⟨ks, rfl, h⟩

theorem wellNested_cons {k : MarkerKind} {ks : List MarkerKind} (hk : k ≠ .extending) :
    WellNested (k :: ks) ↔ Nested none (k :: ks) :=
  ⟨fun h => h.resolve_right fun ⟨_, hks, _⟩ => hk (List.cons.inj hks).1, .inl⟩

/-! ### Markers in the midst of blocks -/

/-- The markers that may come when some blocks are open, innermost first: what is left of each block
with its closing directive, and then what is left of the template. -/
inductive Closes : List BlockKind → List MarkerKind → Prop where
  | template {ks : List MarkerKind} : Nested none ks → Closes [] ks
  | block {b : BlockKind} {bs : List BlockKind} {inner rest : List MarkerKind} :
      Nested (some b) inner → Closes bs rest → Closes (b :: bs) (inner ++ .closing b :: rest)

section Closes

variable {bs : List BlockKind} {b : BlockKind} {k : MarkerKind} {ks : List MarkerKind}

/-- At the end of the source no block is open. -/
theorem closes_nil : Closes bs [] ↔ bs = [] := by
  constructor
  · intro h
    generalize hks : ([] : List MarkerKind) = ks at h
    cases h with
    | template => rfl
    | block => simp at hks
  · rintro rfl
    exact .template .nil

theorem Closes.simple (hk : k.isSimple = true) (h : Closes bs ks) : Closes bs (k :: ks) := by
  cases h with
  | template h => exact .template (.simple hk h)
  | block hinner hrest => exact .block (.simple hk hinner) hrest

theorem Closes.branch (hk : k.isBranch = true) (h : Closes (.choice :: bs) ks) :
    Closes (.choice :: bs) (k :: ks) := by
  cases h with
  | block hinner hrest => exact .block (.branch hk hinner) hrest

theorem Closes.opening (h : Closes (b :: bs) ks) : Closes bs (.opening b :: ks) := by
  cases h with
  | block hinner hrest =>
    cases hrest with
    | template hrest => exact .template (.block hinner hrest)
    | block hinner' hrest =>
      have hboth := Closes.block (.block hinner hinner') hrest
      rwa [List.cons_append, List.append_assoc, List.cons_append] at hboth

/-- **What may come next** when some blocks are open, and which blocks are open after it. -/
theorem closes_cons : Closes bs (k :: ks) ↔
    (k.isSimple = true ∧ Closes bs ks) ∨
    (k.isBranch = true ∧ bs.head? = some .choice ∧ Closes bs ks) ∨
    (∃ b, k = .opening b ∧ Closes (b :: bs) ks) ∨
    (∃ b bs', k = .closing b ∧ bs = b :: bs' ∧ Closes bs' ks) := by
  constructor
  · intro h
    generalize hks : k :: ks = all at h
    cases h with
    | template h =>
      subst hks
      cases h with
      | simple hk h => exact .inl ⟨hk, .template h⟩
      | block hinner h => exact .inr (.inr (.inl ⟨_, rfl, .block hinner (.template h)⟩))
    | @block b bs inner rest hinner hrest =>
      cases inner with
      | nil =>
        obtain ⟨rfl, rfl⟩ := List.cons.inj hks
        exact .inr (.inr (.inr ⟨b, bs, rfl, rfl, hrest⟩))
      | cons k' inner =>
        obtain ⟨rfl, rfl⟩ := List.cons.inj hks
        cases hinner with
        | simple hk hinner => exact .inl ⟨hk, .block hinner hrest⟩
        | branch hk hinner => exact .inr (.inl ⟨hk, rfl, .block hinner hrest⟩)
        | block hinner hinner' =>
          have hboth := Closes.block hinner (.block hinner' hrest)
          rw [← List.cons_append, ← List.append_assoc] at hboth
          exact .inr (.inr (.inl ⟨_, rfl, hboth⟩))
  · rintro (⟨hk, h⟩ | ⟨hk, hchoice, h⟩ | ⟨b, rfl, h⟩ | ⟨b, bs, rfl, rfl, h⟩)
    · exact h.simple hk
    · obtain ⟨bs, rfl⟩ := List.head?_eq_some_iff.1 hchoice
      exact h.branch hk
    · exact h.opening
    · exact .block .nil h

end Closes

/-! ### The check -/

namespace Balance

/-- The kinds of the open blocks, innermost first. -/
def State.kinds (s : State) : List BlockKind :=
  s.opened.map Prod.fst

variable {source : Source} {s s' : State} {m : Marker} {markers : List Marker}

/-- **What the check lets through**, and what it knows after it. -/
theorem step_eq_ok : step source s m = .ok s' ↔
    (m.kind.counts = false ∧ s' = s) ∨
    (m.kind.isSimple = true ∧ s' = { s with started := true }) ∨
    (m.kind.isBranch = true ∧ s.kinds.head? = some .choice ∧ s' = { s with started := true }) ∨
    (∃ b, m.kind = .opening b ∧
      s' = { s with started := true, opened := (b, m) :: s.opened }) ∨
    (∃ b first rest, m.kind = .closing b ∧ s.opened = (b, first) :: rest ∧
      s' = { s with started := true, opened := rest }) ∨
    (m.kind = .extending ∧ s.extending = none ∧ s.started = false ∧
      s' = { s with started := true, extending := some m }) := by
  unfold step
  cases hkind : m.kind with
  | comment | escape =>
    simp [MarkerKind.counts, MarkerKind.isSimple, MarkerKind.isBranch, @eq_comm _ s']
  | expression | yield | connect | custom =>
    simp [MarkerKind.counts, MarkerKind.isSimple, MarkerKind.isBranch, @eq_comm _ s']
  | opening b =>
    simp [MarkerKind.counts, MarkerKind.isSimple, MarkerKind.isBranch, @eq_comm _ s']
  | elseIf | otherwise =>
    simp only [MarkerKind.counts, MarkerKind.isSimple, MarkerKind.isBranch, State.kinds]
    rcases s.opened with _ | ⟨⟨b, first⟩, rest⟩
    · simp
    · cases b <;> simp [@eq_comm _ s']
  | closing b =>
    simp only [MarkerKind.counts, MarkerKind.isSimple, MarkerKind.isBranch]
    rcases s.opened with _ | ⟨⟨b', first⟩, rest⟩
    · simp
    · by_cases hb : b' = b
      · simp [hb, @eq_comm _ s']
      · simp [hb]
  | extending =>
    simp only [MarkerKind.counts, MarkerKind.isSimple, MarkerKind.isBranch]
    cases s.extending with
    | some first => simp
    | none => cases s.started <;> simp [@eq_comm _ s']

theorem started_of_step (hs : s.started = true) (h : step source s m = .ok s') :
    s'.started = true := by
  rcases step_eq_ok.1 h with ⟨-, rfl⟩ | ⟨-, rfl⟩ | ⟨-, -, rfl⟩ | ⟨_, -, rfl⟩ |
    ⟨_, _, _, -, -, rfl⟩ | ⟨-, -, -, rfl⟩
  · exact hs
  all_goals rfl

/-- After the first marker, the check goes on exactly if the marker may come next. -/
theorem exists_step_closes (hs : s.started = true) {ks : List MarkerKind} :
    (∃ next, step source s m = .ok next ∧ Closes next.kinds ks) ↔
      Closes s.kinds ([m.kind].filter MarkerKind.counts ++ ks) := by
  cases hcounts : m.kind.counts with
  | false =>
    rw [List.filter_cons_of_neg (by simp [hcounts]), List.filter_nil, List.nil_append]
    constructor
    · rintro ⟨next, hnext, h⟩
      rcases step_eq_ok.1 hnext with ⟨-, rfl⟩ | ⟨hk, -⟩ | ⟨hk, -⟩ | ⟨b, hk, -⟩ |
        ⟨b, _, _, hk, -⟩ | ⟨hk, -⟩
      · exact h
      all_goals
        cases hkind : m.kind <;>
          simp_all [MarkerKind.counts, MarkerKind.isSimple, MarkerKind.isBranch]
    · exact fun h => ⟨s, step_eq_ok.2 (.inl ⟨hcounts, rfl⟩), h⟩
  | true =>
    rw [List.filter_cons_of_pos hcounts, List.filter_nil, List.singleton_append, closes_cons]
    constructor
    · rintro ⟨next, hnext, h⟩
      rcases step_eq_ok.1 hnext with ⟨hk, -⟩ | ⟨hk, rfl⟩ | ⟨hk, hchoice, rfl⟩ | ⟨b, hk, rfl⟩ |
        ⟨b, first, rest, hk, hopened, rfl⟩ | ⟨-, -, hstart, -⟩
      · rw [hcounts] at hk
        cases hk
      · exact .inl ⟨hk, h⟩
      · exact .inr (.inl ⟨hk, hchoice, h⟩)
      · exact .inr (.inr (.inl ⟨b, hk, h⟩))
      · refine .inr (.inr (.inr ⟨b, rest.map Prod.fst, hk, ?_, h⟩))
        rw [State.kinds, hopened, List.map_cons]
      · rw [hs] at hstart
        cases hstart
    · rintro (⟨hk, h⟩ | ⟨hk, hchoice, h⟩ | ⟨b, hk, h⟩ | ⟨b, bs, hk, hkinds, h⟩)
      · exact ⟨_, step_eq_ok.2 (.inr (.inl ⟨hk, rfl⟩)), h⟩
      · exact ⟨_, step_eq_ok.2 (.inr (.inr (.inl ⟨hk, hchoice, rfl⟩))), h⟩
      · exact ⟨_, step_eq_ok.2 (.inr (.inr (.inr (.inl ⟨b, hk, rfl⟩)))), h⟩
      · obtain ⟨⟨_, first⟩, rest, hopened, rfl, rfl⟩ := List.map_eq_cons_iff.1 hkinds
        exact ⟨_, step_eq_ok.2
          (.inr (.inr (.inr (.inr (.inl ⟨_, first, rest, hk, hopened, rfl⟩))))), h⟩

theorem foldlM_cons_eq_ok :
    (m :: markers).foldlM (step source) s = .ok s' ↔
      ∃ next, step source s m = .ok next ∧ markers.foldlM (step source) next = .ok s' := by
  rw [List.foldlM_cons]
  cases step source s m <;> simp [bind, Except.bind]

theorem nestingOf_cons :
    nestingOf (m :: markers) = [m.kind].filter MarkerKind.counts ++ nestingOf markers := by
  rw [nestingOf, nestingOf, List.map_cons, ← List.singleton_append, List.filter_append]

/-- **After the first marker**, the check accepts exactly what closes the open blocks. -/
theorem accepts_iff_closes (hs : s.started = true) :
    (∃ s', markers.foldlM (step source) s = .ok s' ∧ s'.opened = []) ↔
      Closes s.kinds (nestingOf markers) := by
  induction markers generalizing s with
  | nil => simp [nestingOf, closes_nil, State.kinds, pure, Except.pure]
  | cons m markers ih =>
    rw [nestingOf_cons, ← exists_step_closes hs]
    constructor
    · rintro ⟨s', h, hopened⟩
      obtain ⟨next, hnext, h⟩ := foldlM_cons_eq_ok.1 h
      exact ⟨next, hnext, (ih (started_of_step hs hnext)).1 ⟨s', h, hopened⟩⟩
    · rintro ⟨next, hnext, hcloses⟩
      obtain ⟨s', h, hopened⟩ := (ih (started_of_step hs hnext)).2 hcloses
      exact ⟨s', foldlM_cons_eq_ok.2 ⟨next, hnext, h⟩, hopened⟩

theorem closes_template {ks : List MarkerKind} : Closes [] ks ↔ Nested none ks := by
  constructor
  · rintro ⟨h⟩
    assumption
  · exact .template

/-- Only `#extends` depends on whether there was a marker before. -/
theorem step_of_started (hcounts : m.kind.counts = true) (hk : m.kind ≠ .extending) :
    step source s m = step source { s with started := true } m := by
  unfold step
  cases hkind : m.kind <;> simp_all [MarkerKind.counts]

/-- **From the start** it accepts exactly the markers of a template whose blocks are balanced. -/
theorem accepts_iff_wellNested :
    (∃ s', markers.foldlM (step source) State.initial = .ok s' ∧ s'.opened = []) ↔
      WellNested (nestingOf markers) := by
  induction markers with
  | nil => exact iff_of_true ⟨State.initial, rfl, rfl⟩ (.inl .nil)
  | cons m markers ih =>
    rw [nestingOf_cons]
    simp only [foldlM_cons_eq_ok]
    cases hcounts : m.kind.counts with
    | false =>
      -- a comment or an escape changes nothing
      have hstep : step source State.initial m = .ok State.initial :=
        step_eq_ok.2 (.inl ⟨hcounts, rfl⟩)
      rw [List.filter_cons_of_neg (by simp [hcounts]), List.filter_nil, List.nil_append, ← ih]
      simp [hstep]
    | true =>
      rw [List.filter_cons_of_pos hcounts, List.filter_nil, List.singleton_append]
      by_cases hk : m.kind = .extending
      · let next : State := { State.initial with started := true, extending := some m }
        have hstep : step source State.initial m = .ok next :=
          step_eq_ok.2 (.inr (.inr (.inr (.inr (.inr ⟨hk, rfl, rfl, rfl⟩)))))
        have hrest : (∃ s', markers.foldlM (step source) next = .ok s' ∧ s'.opened = []) ↔
            Nested none (nestingOf markers) :=
          (accepts_iff_closes rfl).trans closes_template
        rw [hk, wellNested_extending, ← hrest]
        simp [hstep]
      · let started : State := { State.initial with started := true }
        have hstarted : (∃ s', (m :: markers).foldlM (step source) started = .ok s' ∧
            s'.opened = []) ↔ Closes [] (nestingOf (m :: markers)) :=
          accepts_iff_closes rfl
        rw [nestingOf_cons, List.filter_cons_of_pos hcounts, List.filter_nil,
          List.singleton_append] at hstarted
        simp only [foldlM_cons_eq_ok, started, ← step_of_started hcounts hk] at hstarted
        rw [hstarted, wellNested_cons hk]
        exact closes_template

end Balance

/-- **The check for balance.** A source passes exactly if its markers, comments and escapes apart,
are those of a template whose blocks are balanced. -/
theorem checkBalance_eq_ok {source : Source} {markers : List Marker} :
    checkBalance source markers = .ok () ↔ WellNested (nestingOf markers) := by
  rw [← @Balance.accepts_iff_wellNested source, checkBalance]
  cases markers.foldlM (Balance.step source) Balance.State.initial with
  | error e => simp [bind, Except.bind]
  | ok s =>
    cases hlast : s.opened.getLast? with
    | none =>
      have hopened : s.opened = [] := List.getLast?_eq_none_iff.1 hlast
      simp [bind, Except.bind, hopened, pure, Except.pure]
    | some last =>
      have hopened : s.opened ≠ [] := by
        intro hnil
        simp [hnil] at hlast
      simp [bind, Except.bind, hlast, hopened, throw, throwThe, MonadExceptOf.throw]

end Hashmark
