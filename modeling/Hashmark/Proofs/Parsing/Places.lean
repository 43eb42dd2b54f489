import Hashmark.Proofs.Parsing.Tiling

/-!
# Where errors point to

The place of an error of a source lies in the bytes of the source, and its line is counted by the
line breaks before it (`SourceError.points`). Faults of scanning lie in the bytes that were scanned.
Faults of a marker lie in the marker, in its arguments or at a callee that is written in them, and
markers lie in the source (`liesIn_of_segments`).
-/

namespace Hashmark

open Lexer (bind_eq_ok)

/-! ### Bytes and lines -/

/-- The bytes of the text. -/
def Source.bytes (s : Source) : List UInt8 :=
  s.text.toUTF8.data.toList

theorem Source.bytes_eq (s : Source) : s.bytes = s.text.toList.flatMap String.utf8EncodeChar := by
  rw [bytes, String.toUTF8_eq_toByteArray, ← String.utf8Encode_toList, List.utf8Encode,
    List.toList_data_toByteArray]

theorem Source.length_bytes (s : Source) : s.bytes.length = s.size := by
  rw [bytes, Array.length_toList, String.toUTF8_eq_toByteArray]
  exact String.size_toByteArray

/-- The byte of a line break stands in no other character. -/
theorem eq_of_mem_utf8EncodeChar {c : Char} (h : '\n'.toUInt8 ∈ String.utf8EncodeChar c) :
    c = '\n' := by
  have hten : (10 : UInt8) ∈ String.utf8EncodeChar c := h
  have hval : c.val.toNat = 10 := by
    unfold String.utf8EncodeChar at hten
    dsimp only at hten
    split_ifs at hten <;>
      simp only [List.mem_cons, List.not_mem_nil, or_false, ← UInt8.toNat_inj, UInt8.toNat_ofNat',
        UInt8.toNat_ofNat] at hten <;> omega
  exact Char.ext (UInt32.toNat_inj.1 hval)

theorem lineBreaks_zero (cs : List Char) : lineBreaks 0 cs = 0 := by
  cases cs <;> rfl

/-- The line breaks in the first bytes of a text. -/
theorem lineBreaks_eq_count (bytes : Nat) (cs : List Char) :
    lineBreaks bytes cs =
      ((cs.flatMap String.utf8EncodeChar).take bytes).count '\n'.toUInt8 := by
  induction cs generalizing bytes with
  | nil => simp [lineBreaks]
  | cons c cs ih =>
    rw [lineBreaks, List.flatMap_cons, List.take_append, String.length_utf8EncodeChar,
      List.count_append, ← ih]
    split
    · next hzero =>
      subst hzero
      simp [lineBreaks_zero]
    · next hpos =>
      congr 1
      split
      · next hbreak =>
        subst hbreak
        have hbytes : String.utf8EncodeChar '\n' = ['\n'.toUInt8] := by decide
        obtain ⟨n, rfl⟩ := Nat.exists_eq_succ_of_ne_zero hpos
        rw [hbytes, List.take_succ_cons, List.count_cons_self, List.take_nil, List.count_nil]
      · next hother =>
        refine (List.count_eq_zero.2 fun hmem => hother ?_).symm
        exact eq_of_mem_utf8EncodeChar (List.mem_of_mem_take hmem)

theorem Source.lineOf_eq (s : Source) (offset : Nat) :
    s.lineOf offset = 1 + (s.bytes.take offset).count '\n'.toUInt8 := by
  rw [lineOf, lineBreaks_eq_count, bytes_eq, Nat.add_comm]

/-! ### Places in a source -/

/-- Whether a place is one in a source: it has the name of the source and lies in its bytes, and its
line is one more than the line breaks before it. -/
structure Source.Locates (s : Source) (p : Place) : Prop where
  template : p.template = s.name
  inside : p.offset + p.length ≤ s.bytes.length
  line : p.line = 1 + (s.bytes.take p.offset).count '\n'.toUInt8

/-- Whether an error has no place, or one in a source. -/
def Source.Points (s : Source) (e : TemplateError) : Prop :=
  ∀ p ∈ e.place?, s.Locates p

/-- Whether a range of bytes is one of a source. -/
structure Source.Holds (s : Source) (span : Span) : Prop where
  start_le : span.start ≤ s.size
  stop_le : span.stop ≤ s.size

section Spans

variable {s : Source} {span : Span}

theorem Source.Holds.locates (h : s.Holds span) : s.Locates (s.place span) where
  template := rfl
  inside := by
    have hstart := h.start_le
    have hstop := h.stop_le
    rw [Source.length_bytes]
    dsimp only [Source.place]
    omega
  line := s.lineOf_eq span.start

theorem Source.Holds.points (h : s.Holds span) (fault : SyntaxFault) :
    s.Points (s.malformed fault span) := by
  rintro p ⟨⟩
  exact h.locates

theorem ScanError.points {e : TemplateError} (h : ScanError s s.size e) : s.Points e := by
  obtain ⟨fault, span, rfl, -, hstart, hstop⟩ := h
  exact Source.Holds.points ⟨hstart, hstop⟩ fault

end Spans

/-! ### Errors about markers -/

/-- Whether a marker and its arguments lie in a source. -/
structure Marker.LiesIn (m : Marker) (s : Source) : Prop where
  span : s.Holds m.span
  args : ∀ args ∈ m.args, m.argsStart + args.utf8ByteSize ≤ s.size

namespace Builder

variable {s : Source} {m : Marker}

/-- An error in an expression stands at a byte of the source or at its end. -/
theorem points_exprError (role : ExprRole) (e : Expression.ExprError) :
    s.Points (exprError s m role e) := by
  refine Source.Holds.points ⟨?_, ?_⟩ _
  · exact Nat.min_le_right _ _
  · exact Nat.max_le.2 ⟨Nat.min_le_right _ _, Nat.min_le_right _ _⟩

/-- A word that is found in a text stands there. -/
theorem eq_append_of_findWord {word text : List Char} {offset : Nat}
    (h : findWord word text = some offset) :
    ∃ before rest, text = before ++ word ++ rest ∧ byteCount before = offset := by
  obtain ⟨⟨before, rest⟩, hwhole, hoffset⟩ := Option.map_eq_some_iff.1 h
  have hmem := List.mem_of_find?_eq_some hwhole
  exact ⟨before, rest, Text.eq_append_of_mem_occurrences hmem, hoffset⟩

/-- A callee that is found in the arguments of a marker lies in the source. -/
theorem holds_callee (hm : m.LiesIn s) {name : String} {offset : Nat}
    (h : (m.args.bind fun args => findWord name.toList args.toList) = some offset) :
    s.Holds ⟨m.argsStart + offset, m.argsStart + offset + name.utf8ByteSize⟩ := by
  obtain ⟨args, hargs, hfound⟩ := Option.bind_eq_some_iff.1 h
  obtain ⟨before, rest, htext, rfl⟩ := eq_append_of_findWord hfound
  have hsize := congrArg byteCount htext
  rw [byteCount_append, byteCount_append, byteCount_toList, byteCount_toList] at hsize
  have hstop := hm.args args hargs
  exact ⟨by dsimp only; omega, by dsimp only; omega⟩

/-- A violation stands at the callee if that is written in the arguments, or else at the marker. -/
theorem points_violationError (hm : m.LiesIn s) (c : Callables) (v : Violation) :
    s.Points (violationError s c m v) := by
  have hpoints {span : Span} (hspan : s.Holds span)
      (hplace : (violationError s c m v).place? = some (s.place span)) :
      s.Points (violationError s c m v) := by
    intro p hp
    cases hplace.symm.trans hp
    exact hspan.locates
  cases hfound : m.args.bind fun args => findWord v.name.toList args.toList with
  | none =>
    refine hpoints hm.span ?_
    cases v <;> (rw [violationError, hfound]; rfl)
  | some offset =>
    refine hpoints (holds_callee hm hfound) ?_
    cases v <;> (rw [violationError, hfound]; rfl)

/-- Occurrences that overlap an earlier one do not count, and an empty callee stands at the end. -/
example : findWord ['a', '-', 'a'] ['x', 'a', '-', 'a', '-', 'a'] = none ∧
    findWord [] ['x'] = none ∧ findWord [] ['x', '-'] = some 2 := by
  decide

end Builder

theorem MarkerError.points {s : Source} {m : Marker} {stage : Stage} {e : TemplateError}
    (h : MarkerError s m stage e) (hm : m.LiesIn s) : s.Points e := by
  cases h with
  | fault fault => exact hm.span.points fault
  | unknownDirective known =>
    rintro p ⟨⟩
    exact hm.span.locates
  | expr role e => exact Builder.points_exprError role e
  | violation callables v => exact Builder.points_violationError hm callables v

/-! ### Errors of a source -/

section Sources

variable {language : Language} {source : Source}

/-- The markers of a source lie in it. -/
theorem liesIn_of_segments {directives : Directives} {found : List Segment}
    (h : segments directives source = .ok found) :
    ∀ m ∈ found.filterMap Segment.marker?, m.LiesIn source := by
  have hlaid : Laid directives [] source.text.toList found :=
    laid_scanFrom h rfl (by simp) pending_nil
  intro m hm
  obtain ⟨hfits, front, back, htext, hstart⟩ := hlaid.exists_split m hm
  obtain ⟨hlt, hle⟩ := hfits.bounds htext hstart
  refine ⟨⟨hlt.le.trans hle, hle⟩, fun args hargs => ?_⟩
  exact (hfits.slice?_args htext hstart hargs).2.2.trans hle

/-- **The errors of a source point into it.** -/
theorem SourceError.points {e : TemplateError} (h : SourceError language source e) :
    source.Points e := by
  rcases h with h | ⟨found, hfound, m, hm, stage, -, h⟩
  · exact h.points
  · exact h.points (liesIn_of_segments hfound m hm)

/-- The layout of what is built is named by one of the markers. -/
theorem Builder.layout_foldlM {found : List Segment} {s s' : Builder.State}
    (h : found.foldlM (Builder.step source language) s = .ok s') :
    s'.layout = s.layout ∨
      ∃ m ∈ found.filterMap Segment.marker?, ∃ layout, s'.layout = some (layout, m.span) := by
  induction found generalizing s with
  | nil =>
    cases h
    exact .inl rfl
  | cons segment found ih =>
    rw [List.foldlM_cons] at h
    obtain ⟨next, hnext, hrest⟩ := bind_eq_ok.1 h
    cases segment with
    | literal text =>
      cases hnext
      exact (ih hrest :)
    | marker m =>
      rcases ih hrest with hlayout | ⟨m', hm', hlayout⟩
      · rw [hlayout]
        rcases Builder.layout_marker hnext with ⟨-, hsame⟩ | ⟨layout, hnamed⟩
        · exact .inl hsame
        · exact .inr ⟨m, List.mem_cons_self .., layout, hnamed⟩
      · exact .inr ⟨m', List.mem_cons_of_mem _ hm', hlayout⟩

/-- A template names its layout in its source. -/
theorem holds_layout {template : Template} {layout : String} {span : Span}
    (h : parseTemplate language source = .ok template)
    (hlayout : template.layout = some (layout, span)) : source.Holds span := by
  obtain ⟨found, hscan, hbuild⟩ := bind_eq_ok.1 h
  obtain ⟨found', hfound, hchecked⟩ := bind_eq_ok.1 hscan
  obtain ⟨-, -, heq⟩ := bind_eq_ok.1 hchecked
  cases heq
  obtain ⟨s, hs, heq⟩ := bind_eq_ok.1 hbuild
  cases heq
  rcases Builder.layout_foldlM hs with hnone | ⟨m, hm, layout', hnamed⟩
  · rw [show s.layout = none from hnone] at hlayout
    cases hlayout
  · rw [show s.layout = some (layout, span) from hlayout] at hnamed
    cases hnamed
    exact (liesIn_of_segments hfound m hm).span

/-- Where a name is first written lies in the source. -/
theorem Source.holds_occurrence (s : Source) (name : String) : s.Holds (s.occurrence name) := by
  unfold occurrence
  split
  · next before rest hcut =>
    have htext := congrArg byteCount (Text.eq_append_of_cut hcut)
    rw [byteCount_append, byteCount_append, byteCount_toList, byteCount_toList] at htext
    have hsize : s.text.utf8ByteSize = s.size := rfl
    exact ⟨by dsimp only; omega, by dsimp only; omega⟩
  · exact ⟨Nat.zero_le _, Nat.zero_le _⟩

end Sources

end Hashmark
