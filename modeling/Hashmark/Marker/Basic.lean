import Hashmark.Fault

/-!
# Markers

What stands out from the literal text of a template: expression markers, directives, comments and
escapes. The source of a template is a sequence of segments, literal text and markers.
-/

namespace Hashmark

/-- What a marker is. -/
inductive MarkerKind where
  /-- `#[expression]` -/
  | expression
  /-- `#if`, `#foreach` or `#section` -/
  | opening (block : BlockKind)
  | elseIf
  | otherwise
  /-- `#endif`, `#endforeach` or `#endsection` -/
  | closing (block : BlockKind)
  | extending
  | yield
  | connect
  /-- `#-- text --#` -/
  | comment
  /-- `\#`, which stands for `#` -/
  | escape
  /-- A directive that is not part of the language. -/
  | custom
  deriving DecidableEq, Repr

/-- A marker and where it stands. -/
structure Marker where
  kind : MarkerKind
  /-- The name of a directive without `#`; empty for all else. -/
  name : String
  /-- The expression, the text between the parentheses, the name of a section written without
  parentheses, or the text of a comment. -/
  args : Option String
  /-- The byte at which the marker starts. -/
  start : Nat
  /-- The byte at which `args` starts, or the end of the marker if there are none. -/
  argsStart : Nat
  /-- The marker as it is written. -/
  lexeme : String
  deriving DecidableEq, Repr

namespace Marker

/-- The byte after the marker. -/
def stop (m : Marker) : Nat :=
  m.start + m.lexeme.utf8ByteSize

/-- The bytes of the marker. -/
def span (m : Marker) : Span :=
  ⟨m.start, m.stop⟩

/-- The text of the arguments, empty if there are none. -/
def argText (m : Marker) : String :=
  m.args.getD ""

end Marker

/-- A piece of a template's source. -/
inductive Segment where
  | literal (text : String)
  | marker (m : Marker)
  deriving DecidableEq, Repr

/-- The marker of a segment. -/
def Segment.marker? : Segment → Option Marker
  | .literal _ => none
  | .marker m => some m

end Hashmark
