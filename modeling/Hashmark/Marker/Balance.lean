import Hashmark.Marker.Basic

/-!
# Balanced blocks

Blocks nest, branches stand directly inside a choice, and `#extends` comes first and once. The check
walks over the markers with the blocks that are open, innermost first.
-/

namespace Hashmark

namespace Balance

/-- What the check knows about the markers before the present one. -/
structure State where
  /-- The opening markers of the open blocks, innermost first. -/
  opened : List (BlockKind × Marker)
  /-- Whether there was a marker other than comments and escapes. -/
  started : Bool
  extending : Option Marker

/-- Before the first marker. -/
def State.initial : State :=
  ⟨[], false, none⟩

/-- The state after one more marker. -/
def step (source : Source) (s : State) (m : Marker) : Except TemplateError State :=
  match m.kind with
  | .comment | .escape => .ok s
  | .extending =>
    match s.extending with
    | some first =>
      .error (source.malformed (.repeatedExtends (source.lineOf first.start)) m.span)
    | none =>
      if s.started then .error (source.malformed .lateExtends m.span)
      else .ok { s with started := true, extending := some m }
  | .opening block => .ok { s with started := true, opened := (block, m) :: s.opened }
  | .elseIf | .otherwise =>
    match s.opened with
    | (.choice, _) :: _ => .ok { s with started := true }
    | _ => .error (source.malformed (.strayBranch m.name) m.span)
  | .closing block =>
    match s.opened with
    | [] => .error (source.malformed (.strayClosing block) m.span)
    | (opened, first) :: rest =>
      if opened = block then .ok { s with started := true, opened := rest }
      else
        .error (source.malformed (.crossedClosing block opened (source.lineOf first.start)) m.span)
  | .expression | .yield | .connect | .custom => .ok { s with started := true }

/-- The error for the outermost of the blocks that are left open. -/
def unclosed (source : Source) (markers : List Marker) (block : BlockKind) (m : Marker) :
    TemplateError :=
  let count (kind : MarkerKind) := (markers.filter (·.kind = kind)).length
  source.malformed (.unclosedBlock block (count (.opening block)) (count (.closing block))) m.span

end Balance

open Balance in
/-- Checks that the blocks of a source are balanced. -/
def checkBalance (source : Source) (markers : List Marker) : Except TemplateError Unit := do
  let s ← markers.foldlM (step source) State.initial
  match s.opened.getLast? with
  | none => pure ()
  | some (block, m) => throw (unclosed source markers block m)

end Hashmark
