import Hashmark.Proofs.Parsing.Faults
import Hashmark.Proofs.Parsing.Nesting

/-!
# The open blocks of the builder

The builder has its own stack of open blocks, and relies on the check for balance. The two stacks go
in step: a marker opens, closes or leaves a block of the one exactly as of the other
(`Balance.kinds_step`, `Builder.kinds_marker`), so in front of every marker of a balanced source the
builder has the blocks open that the check has, and the template below them
(`Builder.kinds_foldlM`). What can still go wrong with the nesting is a second `#else`, or an
`#elseif` behind it (`scan_build`).
-/

namespace Hashmark

open Lexer (bind_eq_ok)

/-! ### Faults about nesting -/

/-- The faults of the builder about how blocks nest. -/
def SyntaxFault.isNesting : SyntaxFault → Bool
  | .branchAfterElse _ | .branchOutsideChoice | .closingWithoutOpening _
  | .closingOfOtherBlock _ => true
  | _ => false

/-- Whether an error of the builder is about how blocks nest. -/
def TemplateError.isNesting : TemplateError → Bool
  | .malformed fault _ => fault.isNesting
  | _ => false

/-- Whether something is read without a look at the open blocks. -/
def Unnested {α : Type} (x : Except TemplateError α) : Prop :=
  ∀ e, x = .error e → e.isNesting = false

/-- Reading the arguments of a marker needs no look at the open blocks. -/
theorem unnested_of_raises {α : Type} {source : Source} {m : Marker} {x : Except TemplateError α}
    (h : Raises (MarkerError source m .reading) x) : Unnested x := by
  intro e he
  have hof := (h e he).stage?
  cases e with
  | malformed fault place => cases fault <;> simp_all [TemplateError.stage?, SyntaxFault.stage,
      TemplateError.isNesting, SyntaxFault.isNesting]
  | _ => rfl

/-- What a marker that passes the check does to the open blocks. -/
theorem Balance.kinds_step {source : Source} {c c' : Balance.State} {m : Marker}
    (h : Balance.step source c m = .ok c') :
    match m.kind with
    | .opening b => c'.kinds = b :: c.kinds
    | .closing b => c.kinds = b :: c'.kinds
    | _ => c'.kinds = c.kinds := by
  rcases Balance.step_eq_ok.1 h with ⟨hk, rfl⟩ | ⟨hk, rfl⟩ | ⟨hk, -, rfl⟩ | ⟨b, hk, rfl⟩ |
    ⟨b, first, rest, hk, hopened, rfl⟩ | ⟨hk, -, -, rfl⟩
  case inr.inr.inr.inr.inl =>
    simp only [hk]
    rw [State.kinds, hopened, List.map_cons]
    rfl
  all_goals
    cases hkind : m.kind <;>
      simp_all [MarkerKind.counts, MarkerKind.isSimple, MarkerKind.isBranch, State.kinds]

theorem Balance.head?_of_branch {source : Source} {c c' : Balance.State} {m : Marker}
    (h : Balance.step source c m = .ok c') (hbranch : m.kind.isBranch = true) :
    c.kinds.head? = some .choice := by
  rcases Balance.step_eq_ok.1 h with ⟨hk, -⟩ | ⟨hk, -⟩ | ⟨-, hchoice, -⟩ | ⟨b, hk, -⟩ |
    ⟨b, _, _, hk, -⟩ | ⟨hk, -⟩
  case inr.inr.inl => exact hchoice
  all_goals
    cases hkind : m.kind <;>
      simp_all [MarkerKind.counts, MarkerKind.isSimple, MarkerKind.isBranch]

namespace Builder

variable {source : Source} {language : Language} {s s' : State} {m : Marker} {e : TemplateError}

/-! ### The kinds of the open blocks -/

/-- The kind of a block; the template itself has none. -/
def Block.kind? : Block → Option BlockKind
  | .root => none
  | .choice _ _ => some .choice
  | .loop _ _ _ => some .loop
  | .part _ => some .part

/-- The kinds of the open blocks, innermost first. -/
def State.kinds (s : State) : List (Option BlockKind) :=
  (s.top :: s.below).map fun f => f.block.kind?

theorem kinds_pushText (text : String) : (s.pushText text).kinds = s.kinds := by
  have hblock : (s.top.pushText text).block = s.top.block := by
    unfold Frame.pushText
    split
    · rfl
    · split <;> rfl
  simp only [State.kinds, State.pushText, List.map_cons, hblock]

theorem kind?_of_closedNode? {f : Frame} {kind : BlockKind} {n : Node}
    (h : closedNode? f kind = some n) : f.block.kind? = some kind := by
  unfold closedNode? at h
  split at h <;> simp_all [Block.kind?]

theorem kinds_branch {next : Option Expr} (h : branch source s m next = .ok s') :
    s'.kinds = s.kinds := by
  unfold branch at h
  split at h
  · next branches condition hblock =>
    cases h
    simp [State.kinds, hblock, Block.kind?]
  · cases h
  · cases h

theorem kinds_close {kind : BlockKind} (h : close source s m kind = .ok s') :
    s.kinds = some kind :: s'.kinds := by
  unfold close at h
  split at h
  · cases h
  · next frame below hbelow =>
    split at h
    · next n hn =>
      cases h
      simp only [State.kinds, hbelow, List.map_cons, kind?_of_closedNode? hn, Frame.push]
    · cases h

/-- **What a marker does to the open blocks.** -/
theorem kinds_marker (h : marker source language s m = .ok s') :
    match m.kind with
    | .opening b => s'.kinds = some b :: s.kinds
    | .closing b => s.kinds = some b :: s'.kinds
    | _ => s'.kinds = s.kinds := by
  unfold marker at h
  dsimp only at h
  split at h <;> rename_i hkind <;> simp only [hkind]
  case h_1 =>
    cases h
    exact kinds_pushText "#"
  case h_2 =>
    cases h
    rfl
  case h_3 | h_4 | h_5 | h_6 | h_10 | h_11 | h_12 =>
    -- what is read does not depend on the open blocks
    obtain ⟨_, -, h⟩ := bind_eq_ok.1 h
    cases h
    rfl
  case h_7 =>
    obtain ⟨e, -, h⟩ := bind_eq_ok.1 h
    exact kinds_branch h
  case h_8 => exact kinds_branch h
  case h_9 => exact kinds_close h
  case h_13 =>
    obtain ⟨n, -, h⟩ := bind_eq_ok.1 h
    split at h
    · cases h
      exact kinds_pushText _
    · cases h
      rfl

/-! ### When a marker does not fit -/

theorem nesting_of_branch {next : Option Expr} (h : branch source s m next = .error e) :
    (∃ branches, s.top.block = .choice branches none ∧
        e = source.malformed (.branchAfterElse m.name) m.span) ∨
      s.top.block.kind? ≠ some .choice := by
  unfold branch at h
  split at h
  · cases h
  · next branches hblock =>
    cases h
    exact .inl ⟨branches, hblock, rfl⟩
  · next hnone hsome =>
    refine .inr fun hkind => ?_
    cases hblock : s.top.block with
    | choice branches condition =>
      cases condition with
      | none => exact hsome branches hblock
      | some condition => exact hnone branches condition hblock
    | root | loop | part =>
      rw [hblock] at hkind
      simp [Block.kind?] at hkind

theorem close_of_kinds {kind : BlockKind} {rest : List (Option BlockKind)}
    (h : s.kinds = some kind :: rest) (hrest : rest ≠ []) :
    ∃ s', close source s m kind = .ok s' := by
  obtain ⟨⟨block, nodes⟩, below, layout⟩ := s
  obtain ⟨hblock, rfl⟩ := List.cons.inj h
  cases below with
  | nil => exact absurd rfl hrest
  | cons frame below =>
    unfold close closedNode?
    cases block with
    | root => simp [Block.kind?] at hblock
    | choice branches condition =>
      obtain rfl : BlockKind.choice = kind := Option.some.inj hblock
      cases condition <;> exact ⟨_, rfl⟩
    | loop source key value =>
      obtain rfl : BlockKind.loop = kind := Option.some.inj hblock
      exact ⟨_, rfl⟩
    | part name =>
      obtain rfl : BlockKind.part = kind := Option.some.inj hblock
      exact ⟨_, rfl⟩

/-- **Which markers have errors about nesting**: a branch that does not stand in the condition part
of a choice, and a closing directive that does not belong to the innermost block. -/
theorem nesting_of_marker (h : marker source language s m = .error e)
    (he : e.isNesting = true) :
    (m.kind.isBranch = true ∧
      ((∃ branches, s.top.block = .choice branches none ∧
          e = source.malformed (.branchAfterElse m.name) m.span) ∨
        s.top.block.kind? ≠ some .choice)) ∨
    ∃ b, m.kind = .closing b ∧ close source s m b = .error e := by
  -- what is read without a look at the open blocks has no such error
  have hread {α : Type} {x : Except TemplateError α} {f : α → State}
      (hx : Raises (MarkerError source m .reading) x)
      (hxe : (do let a ← x; pure (f a)) = .error e) : False := by
    rw [unnested_of_raises (hx.bind fun _ _ => raises_ok _) e hxe] at he
    cases he
  unfold marker at h
  dsimp only at h
  split at h <;> rename_i hkind <;> simp only [hkind]
  case h_1 => cases h
  case h_2 => cases h
  case h_3 => exact (hread (raises_readExpr _ _ _) h).elim
  case h_4 => exact (hread (raises_readExpr _ _ _) h).elim
  case h_5 => exact (hread (raises_loopHeader _) h).elim
  case h_6 => exact (hread raises_sectionName h).elim
  case h_7 =>
    cases hcondition : readExpr source language.callables m .condition m.argText with
    | error e' =>
      rw [hcondition] at h
      obtain rfl : e' = e := Except.error.inj h
      rw [unnested_of_raises (raises_readExpr _ _ _) _ hcondition] at he
      cases he
    | ok condition =>
      rw [hcondition] at h
      exact .inl ⟨rfl, nesting_of_branch h⟩
  case h_8 => exact .inl ⟨rfl, nesting_of_branch h⟩
  case h_9 b => exact .inr ⟨b, rfl, h⟩
  case h_10 => exact (hread raises_textArg h).elim
  case h_11 => exact (hread (raises_textArgs 1 2) h).elim
  case h_12 => exact (hread raises_textArg h).elim
  case h_13 =>
    have hcustom := unnested_of_raises (raises_customNode.bind fun n _ => ?_) e h
    · rw [hcustom] at he
      cases he
    · split <;> exact raises_ok _

/-! ### Both stacks together -/

section Mirrors

variable {c c' : Balance.State}

/-- Whether the builder has the blocks open that the check has, and the template below them. -/
def State.Mirrors (s : State) (c : Balance.State) : Prop :=
  s.kinds = c.kinds.map some ++ [none]

theorem mirrors_initial : State.initial.Mirrors Balance.State.initial :=
  rfl

/-- A marker that passes the check does the same to both stacks. -/
theorem State.Mirrors.marker (hs : s.Mirrors c) (hc : Balance.step source c m = .ok c')
    (h : Builder.marker source language s m = .ok s') : s'.Mirrors c' := by
  have hcheck := Balance.kinds_step hc
  have hbuild := kinds_marker h
  unfold State.Mirrors at hs ⊢
  cases hkind : m.kind with
  | opening b =>
    simp only [hkind] at hcheck hbuild
    rw [hbuild, hcheck, hs, List.map_cons, List.cons_append]
  | closing b =>
    simp only [hkind] at hcheck hbuild
    rw [hbuild, hcheck, List.map_cons, List.cons_append] at hs
    exact (List.cons.inj hs).2
  | _ =>
    simp only [hkind] at hcheck hbuild
    rw [hbuild, hcheck, hs]

/-- The innermost block is the one that the check takes it for. -/
theorem State.Mirrors.top (hs : s.Mirrors c) {b : BlockKind} (hb : c.kinds.head? = some b) :
    s.top.block.kind? = some b := by
  obtain ⟨bs, hkinds⟩ := List.head?_eq_some_iff.1 hb
  rw [State.Mirrors, hkinds, List.map_cons, List.cons_append] at hs
  exact (List.cons.inj hs).1

/-- A closing directive that passes the check closes a block of the builder. -/
theorem State.Mirrors.close (hs : s.Mirrors c) (hc : Balance.step source c m = .ok c')
    {b : BlockKind} (hkind : m.kind = .closing b) :
    ∃ s', Builder.close source s m b = .ok s' := by
  have hcheck := Balance.kinds_step hc
  simp only [hkind] at hcheck
  rw [State.Mirrors, hcheck, List.map_cons, List.cons_append] at hs
  exact close_of_kinds hs (by simp)

/-- A branch that passes the check stands in a choice of the builder. -/
theorem State.Mirrors.branch (hs : s.Mirrors c) (hc : Balance.step source c m = .ok c')
    (hbranch : m.kind.isBranch = true) : s.top.block.kind? = some .choice :=
  hs.top (Balance.head?_of_branch hc hbranch)

/-- A marker that passes the check has no error about nesting but a second `#else`. -/
theorem State.Mirrors.nesting (hs : s.Mirrors c) (hc : Balance.step source c m = .ok c')
    (h : Builder.marker source language s m = .error e) (he : e.isNesting = true) :
    m.kind.isBranch = true ∧ ∃ branches, s.top.block = .choice branches none ∧
      e = source.malformed (.branchAfterElse m.name) m.span := by
  rcases nesting_of_marker h he with ⟨hbranch, hafter | houtside⟩ | ⟨b, hkind, hclose⟩
  · exact ⟨hbranch, hafter⟩
  · exact absurd (hs.branch hc hbranch) houtside
  · obtain ⟨s', hok⟩ := hs.close hc hkind
    rw [hok] at hclose
    cases hclose

/-- **The stacks go in step** over any segments that pass the check. -/
theorem State.Mirrors.foldlM {segments : List Segment} (hs : s.Mirrors c)
    (hc : (segments.filterMap Segment.marker?).foldlM (Balance.step source) c = .ok c')
    (h : segments.foldlM (step source language) s = .ok s') : s'.Mirrors c' := by
  induction segments generalizing c s with
  | nil =>
    cases hc
    cases h
    exact hs
  | cons segment segments ih =>
    rw [List.foldlM_cons] at h
    obtain ⟨next, hnext, hrest⟩ := bind_eq_ok.1 h
    cases segment with
    | literal text =>
      cases hnext
      refine ih ?_ hc hrest
      rw [State.Mirrors, kinds_pushText]
      exact hs
    | marker m =>
      obtain ⟨between, hstep, hc⟩ := Balance.foldlM_cons_eq_ok.1 hc
      exact ih (hs.marker hstep hnext) hc hrest

end Mirrors

/-! ### Balanced sources -/

/-- How the builder runs on the segments of a source, as far as blocks are concerned. -/
structure Orderly (source : Source) (language : Language) (segments : List Segment) : Prop where
  /-- Wherever the builder gets to, it has the blocks open that the check has. -/
  mirrors : ∀ before after s, segments = before ++ after →
    before.foldlM (step source language) State.initial = .ok s →
    ∃ c, (before.filterMap Segment.marker?).foldlM (Balance.step source) Balance.State.initial =
      .ok c ∧ s.Mirrors c
  /-- A closing directive finds its block innermost. -/
  closes : ∀ before m after s b, segments = before ++ .marker m :: after →
    before.foldlM (step source language) State.initial = .ok s → m.kind = .closing b →
    ∃ s', close source s m b = .ok s'
  /-- A branch finds a choice innermost. -/
  branches : ∀ before m after s, segments = before ++ .marker m :: after →
    before.foldlM (step source language) State.initial = .ok s → m.kind.isBranch = true →
    s.top.block.kind? = some .choice
  /-- At the end no block is open. -/
  ends : ∀ s, segments.foldlM (step source language) State.initial = .ok s →
    s.top.block = .root ∧ s.below = []
  /-- The only error about nesting is that of a branch in a choice whose `#else` was met. -/
  nesting : ∀ e, build source language segments = .error e → e.isNesting = true →
    ∃ before m after s branches, segments = before ++ .marker m :: after ∧
      before.foldlM (step source language) State.initial = .ok s ∧
      m.kind.isBranch = true ∧ s.top.block = .choice branches none ∧
      e = source.malformed (.branchAfterElse m.name) m.span

/-- Where a run over segments fails. -/
theorem exists_of_foldlM_error {segments : List Segment}
    (h : segments.foldlM (step source language) s = .error e) :
    ∃ before segment after s', segments = before ++ segment :: after ∧
      before.foldlM (step source language) s = .ok s' ∧
      step source language s' segment = .error e := by
  induction segments generalizing s with
  | nil => cases h
  | cons segment segments ih =>
    rw [List.foldlM_cons] at h
    cases hstep : step source language s segment with
    | error e' =>
      rw [hstep] at h
      obtain rfl : e' = e := Except.error.inj h
      exact ⟨[], segment, segments, s, rfl, rfl, hstep⟩
    | ok next =>
      rw [hstep] at h
      obtain ⟨before, failing, after, s', rfl, hbefore, hfails⟩ := ih h
      refine ⟨segment :: before, failing, after, s', rfl, ?_, hfails⟩
      rw [List.foldlM_cons, hstep]
      exact hbefore

/-- **What passes the check is built in order.** -/
theorem orderly_of_accepted {segments : List Segment} {c : Balance.State}
    (hc : (segments.filterMap Segment.marker?).foldlM (Balance.step source) Balance.State.initial =
      .ok c) (hopened : c.opened = []) (language : Language) :
    Orderly source language segments := by
  -- the check accepts the markers before any place, and the marker there
  have hprefix : ∀ before after, segments = before ++ after →
      ∃ c₁, (before.filterMap Segment.marker?).foldlM (Balance.step source)
          Balance.State.initial = .ok c₁ ∧
        (after.filterMap Segment.marker?).foldlM (Balance.step source) c₁ = .ok c := by
    rintro before after rfl
    rw [List.filterMap_append, List.foldlM_append] at hc
    exact bind_eq_ok.1 hc
  have hmarker : ∀ before m after s, segments = before ++ .marker m :: after →
      before.foldlM (step source language) State.initial = .ok s →
      ∃ c₁ c₂, s.Mirrors c₁ ∧ Balance.step source c₁ m = .ok c₂ := by
    intro before m after s hsplit hs
    obtain ⟨c₁, hbefore, hafter⟩ := hprefix before (.marker m :: after) hsplit
    obtain ⟨c₂, hstep, -⟩ := Balance.foldlM_cons_eq_ok.1 hafter
    exact ⟨c₁, c₂, mirrors_initial.foldlM hbefore hs, hstep⟩
  constructor
  case mirrors =>
    intro before after s hsplit hs
    obtain ⟨c₁, hbefore, -⟩ := hprefix before after hsplit
    exact ⟨c₁, hbefore, mirrors_initial.foldlM hbefore hs⟩
  case closes =>
    intro before m after s b hsplit hs hkind
    obtain ⟨c₁, c₂, hmirrors, hstep⟩ := hmarker before m after s hsplit hs
    exact hmirrors.close hstep hkind
  case branches =>
    intro before m after s hsplit hs hbranch
    obtain ⟨c₁, c₂, hmirrors, hstep⟩ := hmarker before m after s hsplit hs
    exact hmirrors.branch hstep hbranch
  case ends =>
    intro s hs
    have hkinds : s.kinds = [none] := by
      have hmirrors := mirrors_initial.foldlM hc hs
      rwa [State.Mirrors, Balance.State.kinds, hopened] at hmirrors
    obtain ⟨hblock, hbelow⟩ := List.cons.inj hkinds
    refine ⟨?_, List.map_eq_nil_iff.1 hbelow⟩
    cases hroot : s.top.block with
    | root => rfl
    | choice | loop | part => simp [hroot, Block.kind?] at hblock
  case nesting =>
    intro e he hnesting
    have hfails : segments.foldlM (step source language) State.initial = .error e := by
      unfold build at he
      cases hfold : segments.foldlM (step source language) State.initial with
      | error e' =>
        rw [hfold] at he
        obtain rfl : e' = e := Except.error.inj he
        rfl
      | ok s =>
        rw [hfold] at he
        cases he
    obtain ⟨before, segment, after, s, hsplit, hs, hstep⟩ := exists_of_foldlM_error hfails
    cases segment with
    | literal text => cases hstep
    | marker m =>
      obtain ⟨c₁, c₂, hmirrors, hcheck⟩ := hmarker before m after s hsplit hs
      obtain ⟨hbranch, branches, hblock, herror⟩ := hmirrors.nesting hcheck hstep hnesting
      exact ⟨before, m, after, s, branches, hsplit, hs, hbranch, hblock, herror⟩

/-! ### What is built is balanced -/

section Built

variable {c : Balance.State}

theorem layout_of_branch {next : Option Expr} (h : branch source s m next = .ok s') :
    s'.layout = s.layout := by
  unfold branch at h
  split at h <;> cases h
  rfl

theorem layout_of_close {kind : BlockKind} (h : close source s m kind = .ok s') :
    s'.layout = s.layout := by
  unfold close at h
  split at h
  · cases h
  · split at h <;> cases h
    rfl

/-- Only `#extends` gives a layout: the span of the layout is that of the marker. -/
theorem layout_marker (h : marker source language s m = .ok s') :
    (m.kind ≠ .extending ∧ s'.layout = s.layout) ∨ ∃ layout, s'.layout = some (layout, m.span) := by
  unfold marker at h
  dsimp only at h
  split at h <;> rename_i hkind <;> rw [hkind]
  case h_1 | h_2 =>
    cases h
    exact .inl ⟨nofun, rfl⟩
  case h_3 | h_4 | h_5 | h_6 | h_11 | h_12 =>
    obtain ⟨_, -, h⟩ := bind_eq_ok.1 h
    cases h
    exact .inl ⟨nofun, rfl⟩
  case h_7 =>
    obtain ⟨_, -, h⟩ := bind_eq_ok.1 h
    exact .inl ⟨nofun, layout_of_branch h⟩
  case h_8 => exact .inl ⟨nofun, layout_of_branch h⟩
  case h_9 => exact .inl ⟨nofun, layout_of_close h⟩
  case h_10 =>
    obtain ⟨layout, -, h⟩ := bind_eq_ok.1 h
    cases h
    exact .inr ⟨layout, rfl⟩
  case h_13 =>
    obtain ⟨_, -, h⟩ := bind_eq_ok.1 h
    split at h <;> cases h <;> exact .inl ⟨nofun, rfl⟩

/-- Nothing takes a layout away. -/
theorem layout_of_marker (h : marker source language s m = .ok s') (hnone : s'.layout = none) :
    s.layout = none ∧ m.kind ≠ .extending := by
  rcases layout_marker h with ⟨hkind, hlayout⟩ | ⟨layout, hlayout⟩
  · exact ⟨hlayout ▸ hnone, hkind⟩
  · rw [hlayout] at hnone
    cases hnone

theorem kind?_of_branch {next : Option Expr} (h : branch source s m next = .ok s') :
    s.top.block.kind? = some .choice := by
  unfold branch at h
  split at h
  · next hblock =>
    rw [hblock]
    rfl
  · cases h
  · cases h

theorem kind?_of_marker (h : marker source language s m = .ok s')
    (hbranch : m.kind.isBranch = true) : s.top.block.kind? = some .choice := by
  unfold marker at h
  dsimp only at h
  cases hkind : m.kind <;> simp only [hkind, MarkerKind.isBranch, reduceCtorEq] at h hbranch
  case elseIf =>
    obtain ⟨_, -, h⟩ := bind_eq_ok.1 h
    exact kind?_of_branch h
  case otherwise => exact kind?_of_branch h

/-- The innermost block of the builder is the innermost block of the check. -/
theorem State.Mirrors.head? (hs : s.Mirrors c) {b : BlockKind} {rest : List (Option BlockKind)}
    (h : s.kinds = some b :: rest) : ∃ first opened, c.opened = (b, first) :: opened := by
  rw [State.Mirrors, h] at hs
  rcases hc : c.opened with _ | ⟨⟨b', first⟩, opened⟩
  · simp [Balance.State.kinds, hc] at hs
  · simp only [Balance.State.kinds, hc, List.map_cons, List.cons_append, List.cons.injEq,
      Option.some.injEq] at hs
    obtain ⟨rfl, -⟩ := hs
    exact ⟨first, opened, rfl⟩

/-- A marker other than `#extends` that the builder takes passes the check. -/
theorem State.Mirrors.accepts (hs : s.Mirrors c) (h : Builder.marker source language s m = .ok s')
    (hextending : m.kind ≠ .extending) : ∃ c', Balance.step source c m = .ok c' := by
  cases hkind : m.kind with
  | comment | escape => exact ⟨_, Balance.step_eq_ok.2 (.inl ⟨by rw [hkind]; rfl, rfl⟩)⟩
  | expression | yield | connect | custom =>
    exact ⟨_, Balance.step_eq_ok.2 (.inr (.inl ⟨by rw [hkind]; rfl, rfl⟩))⟩
  | opening b => exact ⟨_, Balance.step_eq_ok.2 (.inr (.inr (.inr (.inl ⟨b, hkind, rfl⟩))))⟩
  | extending => exact absurd hkind hextending
  | closing b =>
    have hkinds := kinds_marker h
    simp only [hkind] at hkinds
    obtain ⟨first, opened, hopened⟩ := hs.head? hkinds
    exact ⟨_, Balance.step_eq_ok.2
      (.inr (.inr (.inr (.inr (.inl ⟨b, first, opened, hkind, hopened, rfl⟩)))))⟩
  | elseIf | otherwise =>
    have hbranch : m.kind.isBranch = true := by
      rw [hkind]
      rfl
    have hkinds : s.kinds = some .choice :: s.below.map fun f => f.block.kind? := by
      rw [State.kinds, List.map_cons, kind?_of_marker h hbranch]
    obtain ⟨first, opened, hopened⟩ := hs.head? hkinds
    have hhead : c.kinds.head? = some .choice := by
      rw [Balance.State.kinds, hopened]
      rfl
    exact ⟨_, Balance.step_eq_ok.2 (.inr (.inr (.inl ⟨hbranch, hhead, rfl⟩)))⟩

/-- A layout once met is never lost. -/
theorem layout_of_foldlM {segments : List Segment}
    (h : segments.foldlM (step source language) s = .ok s') (hnone : s'.layout = none) :
    s.layout = none := by
  induction segments generalizing s with
  | nil =>
    cases h
    exact hnone
  | cons segment segments ih =>
    rw [List.foldlM_cons] at h
    obtain ⟨next, hnext, hrest⟩ := bind_eq_ok.1 h
    have hlayout := ih hrest
    cases segment with
    | literal text =>
      cases hnext
      exact hlayout
    | marker m => exact (layout_of_marker hnext hlayout).1

/-- What the builder takes without a layout passes the check. -/
theorem State.Mirrors.foldlM_accepts {segments : List Segment} (hs : s.Mirrors c)
    (h : segments.foldlM (step source language) s = .ok s') (hnone : s'.layout = none) :
    ∃ c', (segments.filterMap Segment.marker?).foldlM (Balance.step source) c = .ok c' ∧
      s'.Mirrors c' := by
  induction segments generalizing c s with
  | nil =>
    cases h
    exact ⟨c, rfl, hs⟩
  | cons segment segments ih =>
    rw [List.foldlM_cons] at h
    obtain ⟨next, hnext, hrest⟩ := bind_eq_ok.1 h
    cases segment with
    | literal text =>
      have hpushed : (s.pushText text).Mirrors c := by
        rw [State.Mirrors, kinds_pushText]
        exact hs
      cases hnext
      exact ih hpushed hrest
    | marker m =>
      have hextending := (layout_of_marker hnext (layout_of_foldlM hrest hnone)).2
      obtain ⟨next', hcheck⟩ := hs.accepts hnext hextending
      obtain ⟨c', hc', hmirrors⟩ := ih (hs.marker hcheck hnext) hrest
      exact ⟨c', Balance.foldlM_cons_eq_ok.2 ⟨next', hcheck, hc'⟩, hmirrors⟩

/-- **What is built down to the template is balanced**, if it has no layout. -/
theorem checkBalance_of_foldlM {segments : List Segment}
    (h : segments.foldlM (step source language) State.initial = .ok s)
    (hroot : s.top.block = .root) (hnone : s.layout = none) :
    checkBalance source (segments.filterMap Segment.marker?) = .ok () := by
  obtain ⟨c, hc, hmirrors⟩ := mirrors_initial.foldlM_accepts h hnone
  refine checkBalance_eq_ok.2 (Balance.accepts_iff_wellNested.1 ⟨c, hc, ?_⟩)
  -- an open block of the check would be innermost in the builder
  cases hopened : c.opened with
  | nil => rfl
  | cons first opened =>
    have hkinds : some first.1 = s.top.block.kind? := by
      rw [State.Mirrors, State.kinds, Balance.State.kinds, hopened] at hmirrors
      exact (List.cons.inj hmirrors).1.symm
    rw [hroot] at hkinds
    cases hkinds

end Built

end Builder

/-- What the scan of a source gives is what passes the check. -/
theorem scan_eq_ok {directives : Directives} {source : Source} {found : List Segment} :
    scan directives source = .ok found ↔ segments directives source = .ok found ∧
      checkBalance source (found.filterMap Segment.marker?) = .ok () := by
  unfold scan
  constructor
  · intro h
    obtain ⟨found', hfound, h⟩ := bind_eq_ok.1 h
    obtain ⟨_, hcheck, h⟩ := bind_eq_ok.1 h
    cases h
    exact ⟨hfound, hcheck⟩
  · rintro ⟨hfound, hcheck⟩
    exact bind_eq_ok.2 ⟨found, hfound, bind_eq_ok.2 ⟨(), hcheck, rfl⟩⟩

/-- **The check and the builder agree on blocks.** The scan lets the segments of a source through
exactly if the blocks are balanced: comments and escapes apart, they nest, branches stand directly
in a choice, and `#extends` comes first or not at all. The builder then has the same blocks open all
the time, closes the last one at the end, and finds nothing wrong with the nesting except for a
branch behind an `#else`. -/
theorem scan_build (language : Language) (source : Source) {found : List Segment}
    (hfound : segments language.directives source = .ok found) :
    (scan language.directives source = .ok found ↔
        WellNested (nestingOf (found.filterMap Segment.marker?))) ∧
      (scan language.directives source = .ok found → Builder.Orderly source language found) := by
  rw [scan_eq_ok, and_iff_right hfound, checkBalance_eq_ok]
  refine ⟨Iff.rfl, fun hnested => ?_⟩
  obtain ⟨c, hc, hopened⟩ : ∃ c, (found.filterMap Segment.marker?).foldlM (Balance.step source)
      Balance.State.initial = .ok c ∧ c.opened = [] :=
    Balance.accepts_iff_wellNested.2 hnested
  exact Builder.orderly_of_accepted hc hopened language

/-- An `#elseif` behind an `#else` passes the check, and is an error of the builder. -/
theorem scan_branchAfterElse :
    let source : Source := ⟨"t", "#if($a)x#else y#elseif($b)#endif"⟩
    let language : Language := ⟨[], .empty⟩
    ∃ found, segments language.directives source = .ok found ∧
      scan language.directives source = .ok found ∧
      Builder.Orderly source language found ∧
      ∃ e, Builder.build source language found = .error e ∧ e.isNesting = true := by
  intro source language
  have hscan : (scan language.directives source).toOption.isSome = true := by decide +kernel
  cases hfound : scan language.directives source with
  | error e =>
    rw [hfound] at hscan
    cases hscan
  | ok found =>
    have hsegments := (scan_eq_ok.1 hfound).1
    have horderly := (scan_build language source hsegments).2 hfound
    refine ⟨found, hsegments, rfl, horderly, ?_⟩
    have hbuild : (match scan language.directives source >>= Builder.build source language with
        | .error e => e.isNesting
        | .ok _ => false) = true := by decide +kernel
    rw [hfound] at hbuild
    cases herror : Builder.build source language found with
    | error e =>
      refine ⟨e, rfl, ?_⟩
      change (match Builder.build source language found with
        | .error e => e.isNesting
        | .ok _ => false) = true at hbuild
      rwa [herror] at hbuild
    | ok template =>
      change (match Builder.build source language found with
        | .error e => e.isNesting
        | .ok _ => false) = true at hbuild
      rw [herror] at hbuild
      cases hbuild

end Hashmark
