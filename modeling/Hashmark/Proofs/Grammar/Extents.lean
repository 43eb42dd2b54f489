import Hashmark.Callable.Builtin
import Hashmark.Proofs.Writing.Markers

/-!
# Where an expression ends

Three scanners go over the text of an expression, each by itself: the one that looks for the end of a
marker, the one that looks for the `as` of a loop, and the one that splits the text into tokens. They
agree on where the expression ends (`readAt_parsed`), for the brackets of an expression match outside
of its strings whatever stands in these.
-/

namespace Hashmark

open Expression Builder
open Lexer (Reading readMarker scanFrom flush)

/-! ### The marker at a place -/

/-- The marker that begins at byte `start` with the text `cs`, if one does, and the text after it. -/
def Lexer.readAt (directives : Directives) (source : Source) (start : Nat) (cs : List Char) :
    Except TemplateError (Option (Marker × List Char)) :=
  match cs with
  | '#' :: tail => (readMarker directives source start tail).map fun found =>
    found.map fun r => (r.marker start cs, r.rest)
  | _ => .ok none

section ReadAt

variable {directives : Directives} {source : Source} {start : Nat}

/-- The scan of a source takes the marker that it finds, and goes on with the text after it. -/
theorem scanFrom_of_readAt {cs rest : List Char} {m : Marker} (literal : List Char)
    (h : Lexer.readAt directives source start cs = .ok (some (m, rest))) :
    scanFrom directives source start literal cs =
      (scanFrom directives source m.stop [] rest).map fun segments =>
        flush literal (.marker m :: segments) := by
  unfold Lexer.readAt at h
  split at h
  · next tail =>
    rw [scanFrom]
    split
    case h_1 e he =>
      rw [he] at h
      cases h
    case h_2 hnone =>
      rw [hnone] at h
      cases h
    case h_3 r hr =>
      rw [hr] at h
      cases h
      dsimp only
      cases scanFrom directives source (r.marker start ('#' :: tail)).stop [] r.rest <;> rfl
  · cases h

/-- What is read behind a `#`, with all that is in front of the rest as the text of the marker. -/
theorem readAt_of_readMarker {kind : MarkerKind} {name tail rest : List Char} {offset : Nat}
    {args lexeme : String} (h : readMarker directives source start tail =
      .ok (some ⟨kind, name, some args.toList, offset, rest⟩))
    (hlexeme : lexeme.toList ++ rest = '#' :: tail) :
    Lexer.readAt directives source start (lexeme.toList ++ rest) =
      .ok (some (⟨kind, String.ofList name, some args, start, start + offset, lexeme⟩, rest)) := by
  have hlength : ('#' :: tail).length - rest.length = lexeme.toList.length := by
    rw [← hlexeme, List.length_append, Nat.add_sub_cancel]
  have htake : ('#' :: tail).take (('#' :: tail).length - rest.length) = lexeme.toList := by
    rw [hlength, ← hlexeme, List.take_left]
  rw [hlexeme]
  simp only [Lexer.readAt, h, Except.map, Option.map, Reading.marker, htake, String.ofList_toList]

end ReadAt

/-- **All scanners agree on where an expression ends.** Whatever text stands for an expression, and
whatever text follows: the marker around it, the condition with it and the loop over it are read with
exactly that text as arguments, and end with the bracket that is put behind it. The header of the
loop is split into the expression, the key and the value. -/
theorem readAt_parsed (directives : Directives) (source : Source) (start : Nat)
    (callables : Callables) {text key value : String} {e : Expr} (h : parseExpr text = .ok e)
    (hkey : isName key.toList = true) (hvalue : isName value.toList = true) (rest : List Char) :
    let marker := "#[" ++ text ++ "]"
    let condition := "#if(" ++ text ++ ")"
    let header := text ++ " as $" ++ key ++ " => $" ++ value
    let loop := "#foreach(" ++ header ++ ")"
    Lexer.readAt directives source start (marker.toList ++ rest) =
        .ok (some (⟨.expression, "", some text, start, start + 2, marker⟩, rest)) ∧
      Lexer.readAt directives source start (condition.toList ++ rest) =
        .ok (some (⟨.opening .choice, "if", some text, start, start + 4, condition⟩, rest)) ∧
      Lexer.readAt directives source start (loop.toList ++ rest) =
        .ok (some (⟨.opening .loop, "foreach", some header, start, start + 9, loop⟩, rest)) ∧
      ∀ m : Marker, m.argText = header → loopHeader source callables m =
        (checkExpr source callables m e).map fun _ => (e, some key, value) := by
  have htext := bracketed_of_parseExpr h
  have hblank := isEmpty_trimChars_of_parseExpr h
  intro marker condition header loop
  have hheader : header.toList = headerText text.toList (some key) value := by
    simp [header, headerText, writtenBindings, writtenBinding]
  have hloop : Bracketed header.toList := by
    rw [hheader]
    exact bracketed_headerText htext (by simpa using hkey) hvalue
  refine ⟨?_, ?_, ?_, fun m hm => ?_⟩
  · exact readAt_of_readMarker (readMarker_expression htext hblank start) (by simp [marker])
  · have hread := @readMarker_directive source rest "if" _ _ directives rfl rfl rfl htext start
    exact readAt_of_readMarker hread (by simp [condition])
  · have hread := @readMarker_directive source rest "foreach" _ _ directives rfl rfl rfl hloop start
    exact readAt_of_readMarker hread (by simp [loop])
  · refine loopHeader_of_parseExpr h (by simpa using hkey) hvalue ?_
    rw [hm, ← hheader, String.ofList_toList]

/-- Brackets and an `as` in a string, and an `as` that is a variable. -/
theorem readAt_parsed_as :
    let text := "f(\"ü) as \\\"]\", [as]) == as "
    let loop := "#foreach(f(\"ü) as \\\"]\", [as]) == as  as $k => $v)"
    parseExpr text = .ok (.binary .eq
        (.call "f" [.lit (.str "ü) as \"]"), .list [.var "as"]]) (.var "as")) ∧
      Lexer.readAt [] ⟨"page", ""⟩ 0 (loop.toList ++ [')', ']']) =
        .ok (some (⟨.opening .loop, "foreach", some (text ++ " as $k => $v"), 0, 9, loop⟩,
          [')', ']'])) := by
  intro text loop
  have h : parseExpr text = .ok (.binary .eq
      (.call "f" [.lit (.str "ü) as \"]"), .list [.var "as"]]) (.var "as")) := by cbv
  exact ⟨h, (@readAt_parsed [] ⟨"page", ""⟩ 0 .builtin text "k" "v" _ h rfl rfl [')', ']']).2.2.1⟩

end Hashmark
