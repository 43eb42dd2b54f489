/-!
# Template sources and places in them

Places are counted in UTF-8 bytes from the start of a source.
-/

namespace Hashmark

/-- The bytes that a list of characters takes. -/
def byteCount : List Char → Nat
  | [] => 0
  | c :: cs => c.utf8Size + byteCount cs

@[simp] theorem byteCount_nil : byteCount [] = 0 := rfl

@[simp] theorem byteCount_cons (c : Char) (cs : List Char) :
    byteCount (c :: cs) = c.utf8Size + byteCount cs := rfl

@[simp] theorem byteCount_append (as bs : List Char) :
    byteCount (as ++ bs) = byteCount as + byteCount bs := by
  induction as with
  | nil => simp
  | cons c cs ih => simp [ih, Nat.add_assoc]

/-- A template under the name that messages give it. -/
structure Source where
  name : String
  text : String
  deriving DecidableEq, Repr

/-- A range of bytes of a source. -/
structure Span where
  start : Nat
  stop : Nat
  deriving DecidableEq, Repr

/-- A range of bytes of a named source, with the line on which it starts. -/
structure Place where
  template : String
  line : Nat
  offset : Nat
  length : Nat
  deriving DecidableEq, Repr

/-- The line breaks among the characters that start in the first `bytes` bytes. -/
def lineBreaks (bytes : Nat) : List Char → Nat
  | [] => 0
  | c :: cs =>
    if bytes = 0 then 0
    else (if c = '\n' then 1 else 0) + lineBreaks (bytes - c.utf8Size) cs

namespace Source

/-- The number of bytes of the text. -/
def size (s : Source) : Nat :=
  s.text.utf8ByteSize

/-- The line of a byte, counted from 1. -/
def lineOf (s : Source) (offset : Nat) : Nat :=
  lineBreaks offset s.text.toList + 1

/-- A range of bytes as a place of this source. -/
def place (s : Source) (span : Span) : Place :=
  ⟨s.name, s.lineOf span.start, span.start, span.stop - span.start⟩

end Source

end Hashmark
