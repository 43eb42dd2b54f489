import Hashmark.Proofs.Parsing.Frames
import Hashmark.Proofs.Parsing.Pieces

/-!
# What a scan finds

The markers of a source lie in it one behind the other, and what is between them is literal text
(`scan_inventory`). Both are slices of the source, cut at boundaries of characters, and together they
are the whole source. A `#` in the literal text is one that starts nothing.

The scan lays markers and literal text behind each other (`Laid`), by induction along the scan; the
rest is read off from there.
-/

namespace Hashmark

/-! ### Slices of a source -/

/-- A text split behind so many bytes, if a character ends there. -/
def splitBytes? : Nat → List Char → Option (List Char × List Char)
  | 0, cs => some ([], cs)
  | _ + 1, [] => none
  | n + 1, c :: cs =>
    if c.utf8Size ≤ n + 1 then
      (splitBytes? (n + 1 - c.utf8Size) cs).map fun (before, after) => (c :: before, after)
    else none

theorem splitBytes?_append (before after : List Char) :
    splitBytes? (byteCount before) (before ++ after) = some (before, after) := by
  induction before with
  | nil => cases after <;> rfl
  | cons c before ih =>
    have hpos := c.utf8Size_pos
    obtain ⟨n, hn⟩ : ∃ n, byteCount (c :: before) = n + 1 :=
      Nat.exists_eq_add_of_le' (by rw [byteCount_cons]; omega)
    have hrest : n + 1 - c.utf8Size = byteCount before := by
      rw [← hn, byteCount_cons, Nat.add_sub_cancel_left]
    have hle : c.utf8Size ≤ n + 1 := by rw [← hn, byteCount_cons]; omega
    rw [hn, List.cons_append, splitBytes?, if_pos hle, hrest, ih]
    rfl

namespace Source

variable {s : Source}

/-- Whether a character of the source starts at a byte, or the source ends there. -/
def IsBoundary (s : Source) (offset : Nat) : Prop :=
  ∃ before after, s.text.toList = before ++ after ∧ byteCount before = offset

/-- The text between two bytes, if both are boundaries and the first one is not behind the second
one. -/
def slice? (s : Source) (start stop : Nat) : Option String :=
  if start ≤ stop then do
    let (_, cs) ← splitBytes? start s.text.toList
    let (slice, _) ← splitBytes? (stop - start) cs
    pure (String.ofList slice)
  else none

theorem slice?_of_eq {before slice after : List Char}
    (h : s.text.toList = before ++ (slice ++ after)) :
    s.slice? (byteCount before) (byteCount before + byteCount slice) =
      some (String.ofList slice) := by
  rw [slice?, if_pos (Nat.le_add_right _ _), h, Nat.add_sub_cancel_left, splitBytes?_append]
  show (splitBytes? (byteCount slice) (slice ++ after)).bind _ = _
  rw [splitBytes?_append]
  rfl

/-- The slices of a source in front of each marker and behind the last one, from a byte on. -/
def gaps? (s : Source) (pos : Nat) : List Marker → Option (List String)
  | [] => (s.slice? pos s.size).map fun gap => [gap]
  | m :: ms => do
    let gap ← s.slice? pos m.start
    let gaps ← s.gaps? m.stop ms
    pure (gap :: gaps)

end Source

/-- Segments behind a gap, which makes none of its own if it is empty. -/
def behindGap (gap : String) (segments : List Segment) : List Segment :=
  if gap = "" then segments else .literal gap :: segments

/-- The segments that markers make together with the gaps in front of them and behind them. -/
def interleave : List String → List Marker → List Segment
  | [], _ => []
  | gap :: _, [] => behindGap gap []
  | gap :: gaps, m :: ms => behindGap gap (.marker m :: interleave gaps ms)

/-- The markers among some segments. -/
def markersOf (segments : List Segment) : List Marker :=
  segments.filterMap Segment.marker?

/-- The text of a segment as it is written. -/
def Segment.text : Segment → String
  | .literal text => text
  | .marker m => m.lexeme

/-! ### The whole source -/

/-- Whether a marker is right at a place of a source, with the text `lexeme` -/
structure Marker.Fits (m : Marker) : Prop where
  nonempty : m.lexeme.toList ≠ []
  ends : m.lexeme.toList.getLast? ≠ some '\\'
  args : ∀ args ∈ m.args, ∃ front back, m.lexeme.toList = front ++ (args.toList ++ back) ∧
    front ≠ [] ∧ m.argsStart = m.start + byteCount front
  bare : m.args = none → m.argsStart = m.stop

/-- Whether segments lie behind each other in a text, of which `before` is already passed. Literal
text is not next to literal text, and no `#` in it starts anything or is escaped. -/
inductive Laid (directives : Directives) : List Char → List Char → List Segment → Prop
  | nil (before : List Char) : Laid directives before [] []
  | literal {before text rest : List Char} {segments : List Segment} (hne : text ≠ [])
      (hhashes : ∀ a b, text = a ++ '#' :: b → Lexer.StartsNothing directives (b ++ rest) ∧
        (before ++ a).getLast? ≠ some '\\')
      (hnext : ∀ next ∈ segments.head?, next.marker?.isSome)
      (h : Laid directives (before ++ text) rest segments) :
      Laid directives before (text ++ rest) (.literal (String.ofList text) :: segments)
  | marker {before rest : List Char} {m : Marker} {segments : List Segment}
      (hstart : m.start = byteCount before) (hfits : m.Fits)
      (h : Laid directives (before ++ m.lexeme.toList) rest segments) :
      Laid directives before (m.lexeme.toList ++ rest) (.marker m :: segments)

section Scan

open Lexer

variable {directives : Directives} {source : Source} {before literal cs : List Char} {pos : Nat}
  {segments : List Segment}

/-- The marker of a reading is the piece that the reading takes. -/
theorem Lexer.Reading.Takes.fits {r : Reading} (h : r.Takes cs) (start : Nat) :
    cs = (r.marker start cs).lexeme.toList ++ r.rest ∧ (r.marker start cs).Fits := by
  obtain ⟨lexeme, rfl, hspans⟩ := h
  have hlexeme : (r.marker start (lexeme ++ r.rest)).lexeme = String.ofList lexeme := by
    simp [Reading.marker]
  refine ⟨by rw [hlexeme, String.toList_ofList], ?_, ?_, ?_, ?_⟩
  · rw [hlexeme, String.toList_ofList]
    exact hspans.nonempty
  · rw [hlexeme, String.toList_ofList]
    exact hspans.ends
  · intro args hargs
    obtain ⟨chars, hchars, rfl⟩ := Option.map_eq_some_iff.1 hargs
    obtain ⟨front, back, heq, hne, hoffset⟩ := hspans.args chars hchars
    refine ⟨front, back, ?_, hne, ?_⟩
    · rw [hlexeme, String.toList_ofList, String.toList_ofList, heq]
    · rw [hoffset]
      rfl
  · intro hbare
    rw [Marker.stop, hlexeme, utf8ByteSize_ofList, hspans.bare (Option.map_eq_none_iff.1 hbare)]
    rfl

/-- Whether the literal text that the scan holds back is literal in front of a text. -/
def Pending (directives : Directives) (before literal cs : List Char) : Prop :=
  ∀ a b, literal.reverse = a ++ '#' :: b → StartsNothing directives (b ++ cs) ∧
    (before ++ a).getLast? ≠ some '\\'

theorem pending_nil : Pending directives before [] cs := by
  intro a b h
  simp at h

theorem Pending.cons {c : Char} (h : Pending directives before literal (c :: cs))
    (hhash : c = '#' → StartsNothing directives cs ∧
      (before ++ literal.reverse).getLast? ≠ some '\\') :
    Pending directives before (c :: literal) cs := by
  intro a b hsplit
  rw [List.reverse_cons] at hsplit
  rcases List.eq_nil_or_concat b with rfl | ⟨b, d, rfl⟩
  · obtain ⟨rfl, hc⟩ := List.append_inj' hsplit rfl
    exact hhash (List.cons.inj hc).1
  · rw [List.concat_eq_append, ← List.cons_append, ← List.append_assoc] at hsplit
    obtain ⟨hliteral, hc⟩ := List.append_inj' hsplit rfl
    obtain rfl := (List.cons.inj hc).1
    have hsplit := h a b hliteral
    rwa [List.concat_eq_append, List.append_assoc]

/-- Literal text in front of the next marker or at the end. -/
theorem Laid.flush (hpending : Pending directives before literal cs)
    (hnext : ∀ next ∈ segments.head?, next.marker?.isSome)
    (h : Laid directives (before ++ literal.reverse) cs segments) :
    Laid directives before (literal.reverse ++ cs) (flush literal segments) := by
  unfold Lexer.flush
  split
  · next hempty =>
    obtain rfl := List.isEmpty_iff.1 hempty
    rwa [List.reverse_nil, List.append_nil] at h
  · next hempty =>
    refine .literal ?_ hpending hnext h
    simpa using hempty

/-- A marker behind literal text. -/
theorem Laid.flush_marker {m : Marker} {rest : List Char}
    (hpending : Pending directives before literal cs) (hcs : cs = m.lexeme.toList ++ rest)
    (hstart : m.start = byteCount (before ++ literal.reverse)) (hfits : m.Fits)
    (h : Laid directives (before ++ literal.reverse ++ m.lexeme.toList) rest segments) :
    Laid directives before (literal.reverse ++ cs) (Lexer.flush literal (.marker m :: segments)) := by
  refine .flush hpending (by rintro _ ⟨⟩; rfl) ?_
  rw [hcs]
  exact .marker hstart hfits h

/-- **A scan lays segments behind each other.** -/
theorem laid_scanFrom (h : scanFrom directives source pos literal cs = .ok segments)
    (hpos : pos = byteCount (before ++ literal.reverse))
    (hescape : (before ++ literal.reverse).getLast? = some '\\' → cs.head? ≠ some '#')
    (hpending : Pending directives before literal cs) :
    Laid directives before (literal.reverse ++ cs) segments := by
  fun_induction scanFrom directives source pos literal cs generalizing before segments with
  | case1 pos literal =>
    cases h
    exact .flush hpending (by simp) (.nil _)
  | case2 pos literal rest ih =>
    obtain ⟨found, hfound, h⟩ := bind_eq_ok.1 h
    cases h
    have hlexeme : "\\#".toList = ['\\', '#'] := rfl
    have hstop : pos + 2 = byteCount (before ++ literal.reverse ++ "\\#".toList) := by
      rw [byteCount_append, ← hpos]
      rfl
    have hrest := @ih (before ++ literal.reverse ++ "\\#".toList) found hfound
      (by simpa using hstop) (by simp [hlexeme]) pending_nil
    refine .flush_marker hpending ?_ hpos ⟨?_, ?_, by simp, fun _ => rfl⟩ hrest
    all_goals simp [hlexeme]
  | case3 => cases h
  | case4 pos literal tail hread ih =>
    have hlast : (before ++ literal.reverse).getLast? ≠ some '\\' := fun h => hescape h rfl
    have hpending : Pending directives before ('#' :: literal) tail :=
      hpending.cons fun _ => ⟨readMarker_eq_none hread, hlast⟩
    have hstop : pos + 1 = byteCount (before ++ ('#' :: literal).reverse) := by
      rw [List.reverse_cons, ← List.append_assoc, byteCount_append, ← hpos]
      rfl
    have hrest := ih h hstop (by simp) hpending
    rwa [List.reverse_cons, List.append_assoc] at hrest
  | case5 pos literal tail r hread m =>
    rename_i ih
    obtain ⟨found, hfound, h⟩ := bind_eq_ok.1 h
    cases h
    obtain ⟨heq, hfits⟩ : '#' :: tail = m.lexeme.toList ++ r.rest ∧ m.Fits :=
      (readMarker_takes hread).fits pos
    have hstop : m.stop = byteCount (before ++ literal.reverse ++ m.lexeme.toList) := by
      rw [byteCount_append, ← hpos, byteCount_toList]
      rfl
    have hends : (before ++ literal.reverse ++ m.lexeme.toList).getLast? ≠ some '\\' := by
      rw [List.getLast?_append_of_ne_nil _ hfits.nonempty]
      exact hfits.ends
    have hrest := @ih (before ++ literal.reverse ++ m.lexeme.toList) found hfound
      (by simpa using hstop) (fun h => absurd (by simpa using h) hends) pending_nil
    exact .flush_marker hpending heq hpos hfits hrest
  | case6 pos literal c rest hescaped hhash ih =>
    have hstop : pos + c.utf8Size = byteCount (before ++ (c :: literal).reverse) := by
      rw [List.reverse_cons, ← List.append_assoc, byteCount_append, ← hpos]
      rfl
    have hnext : (before ++ (c :: literal).reverse).getLast? = some '\\' →
        rest.head? ≠ some '#' := by
      rw [List.reverse_cons, ← List.append_assoc, List.getLast?_concat]
      intro hc hrest
      obtain ⟨tail, rfl⟩ := List.head?_eq_some_iff.1 hrest
      exact hescaped tail (Option.some.inj hc) rfl
    have hrest := ih h hstop hnext (hpending.cons fun hc => absurd hc hhash)
    rwa [List.reverse_cons, List.append_assoc] at hrest

end Scan

/-! ### What lies behind each other -/

section Laid

variable {directives : Directives} {source : Source} {before rest : List Char}
  {segments : List Segment}

@[simp] theorem markersOf_literal (text : String) (segments : List Segment) :
    markersOf (.literal text :: segments) = markersOf segments := rfl

@[simp] theorem markersOf_marker (m : Marker) (segments : List Segment) :
    markersOf (.marker m :: segments) = m :: markersOf segments := rfl

theorem Marker.stop_eq {m : Marker} (h : m.start = byteCount before) :
    m.stop = byteCount (before ++ m.lexeme.toList) := by
  rw [Marker.stop, h, byteCount_append, byteCount_toList]

/-- Each marker is a piece of the text, at its place. -/
theorem Laid.exists_split (h : Laid directives before rest segments) :
    ∀ m ∈ markersOf segments, m.Fits ∧ ∃ front back, before ++ rest =
      before ++ front ++ (m.lexeme.toList ++ back) ∧ m.start = byteCount (before ++ front) := by
  induction h with
  | nil => exact nofun
  | @literal before text rest segments _ _ _ _ ih =>
    intro m hm
    obtain ⟨hfits, front, back, heq, hstart⟩ := ih m hm
    exact ⟨hfits, text ++ front, back, by simpa using heq, by simpa using hstart⟩
  | @marker before rest m segments hstart hfits _ ih =>
    refine List.forall_mem_cons.2 ⟨⟨hfits, [], rest, by simp, by simpa using hstart⟩, ?_⟩
    intro m' hm'
    obtain ⟨hfits', front, back, heq, hstart'⟩ := ih m' hm'
    exact ⟨hfits', m.lexeme.toList ++ front, back, by simpa using heq, by simpa using hstart'⟩

theorem byteCount_pos {cs : List Char} (h : cs ≠ []) : 0 < byteCount cs := by
  obtain ⟨c, cs, rfl⟩ := List.exists_cons_of_ne_nil h
  have := c.utf8Size_pos
  rw [byteCount_cons]
  omega

/-- **Markers follow each other.** -/
theorem Laid.ordered (h : Laid directives before rest segments) :
    (markersOf segments).Pairwise fun a b => a.stop ≤ b.start := by
  induction h with
  | nil => exact .nil
  | literal _ _ _ _ ih => exact ih
  | @marker before rest m segments hstart _ h ih =>
    refine List.pairwise_cons.2 ⟨fun m' hm' => ?_, ih⟩
    obtain ⟨-, front, back, -, hstart'⟩ := h.exists_split m' hm'
    rw [hstart', Marker.stop_eq hstart, byteCount_append _ front]
    exact Nat.le_add_right _ _

/-- **The segments are the text.** -/
theorem Laid.join_text (h : Laid directives before rest segments) :
    String.join (segments.map Segment.text) = String.ofList rest := by
  induction h with
  | nil => rfl
  | literal _ _ _ _ ih =>
    rw [List.map_cons, String.join_cons, ih, Segment.text, String.ofList_append]
  | marker _ _ _ ih =>
    rw [List.map_cons, String.join_cons, ih, Segment.text, String.ofList_append,
      String.ofList_toList]

/-- A character of two texts stands in one of them. -/
theorem split_of_append_eq {c : Char} {front back a b : List Char}
    (h : front ++ back = a ++ c :: b) : (∃ a', a = front ++ a' ∧ back = a' ++ c :: b) ∨
      ∃ b', front = a ++ c :: b' ∧ b = b' ++ back := by
  rcases List.append_eq_append_iff.1 h with ⟨a', rfl, hback⟩ | ⟨b', rfl, hb⟩
  · exact .inl ⟨a', rfl, hback⟩
  · cases b' with
    | nil => exact .inl ⟨[], by simp, hb.symm⟩
    | cons d b' =>
      obtain ⟨rfl, rfl⟩ := List.cons.inj hb
      exact .inr ⟨b', rfl, rfl⟩

/-- **A `#` outside of the markers is literal text.** -/
theorem Laid.hashes (h : Laid directives before rest segments) {a b : List Char}
    (hrest : rest = a ++ '#' :: b)
    (hout : ∀ m ∈ markersOf segments, byteCount (before ++ a) < m.start ∨
      m.stop ≤ byteCount (before ++ a)) :
    Lexer.StartsNothing directives b ∧ (before ++ a).getLast? ≠ some '\\' := by
  induction h generalizing a with
  | nil => simp at hrest
  | @literal before text rest segments _ hhashes _ _ ih =>
    rcases split_of_append_eq hrest with ⟨a', rfl, hback⟩ | ⟨b', htext, rfl⟩
    · rw [← List.append_assoc] at hout ⊢
      exact ih hback hout
    · exact hhashes a b' htext
  | @marker before rest m segments hstart _ _ ih =>
    obtain ⟨hm, hout⟩ := List.forall_mem_cons.1 hout
    rcases split_of_append_eq hrest with ⟨a', rfl, hback⟩ | ⟨b', hlexeme, rfl⟩
    · rw [← List.append_assoc] at hout ⊢
      exact ih hback hout
    · -- the `#` would stand in the marker
      rw [Marker.stop_eq hstart, hstart, hlexeme] at hm
      have hpos := byteCount_pos (List.cons_ne_nil '#' b')
      simp only [byteCount_append] at hm
      omega

/-- **The gaps between the markers are slices of the source**, and the segments are made of them;
`literal` is the literal text right before the segments. -/
theorem Laid.gaps {literal : List Char}
    (h : Laid directives (before ++ literal) rest segments)
    (htext : source.text.toList = before ++ literal ++ rest)
    (hliteral : literal ≠ [] → ∀ next ∈ segments.head?, next.marker?.isSome) :
    ∃ gaps, source.gaps? (byteCount before) (markersOf segments) = some gaps ∧
      interleave gaps (markersOf segments) = behindGap (String.ofList literal) segments := by
  generalize hall : before ++ literal = all at h
  induction h generalizing before literal with
  | nil =>
    subst hall
    have hsize : source.size = byteCount before + byteCount literal := by
      rw [Source.size, ← byteCount_toList, htext, List.append_nil, byteCount_append]
    have hslice : source.slice? (byteCount before) source.size = some (String.ofList literal) := by
      rw [hsize]
      exact @Source.slice?_of_eq _ _ _ [] (by simpa using htext)
    refine ⟨[String.ofList literal], ?_, rfl⟩
    simp [markersOf, Source.gaps?, hslice]
  | @literal _ text rest segments hne _ hnext _ ih =>
    subst hall
    -- literal text is not next to literal text
    have hnone : literal = [] := by
      by_contra hsome
      simpa [Segment.marker?] using hliteral hsome _ rfl
    subst hnone
    rw [List.append_nil] at htext ih
    obtain ⟨gaps, hgaps, hinterleave⟩ := @ih before text (by simpa using htext) (fun _ => hnext) rfl
    refine ⟨gaps, hgaps, hinterleave.trans ?_⟩
    have hempty : String.ofList text ≠ "" := by simpa using hne
    simp [behindGap, hempty]
  | @marker _ rest m segments hstart _ _ ih =>
    subst hall
    have hstop := Marker.stop_eq hstart
    obtain ⟨gaps, hgaps, hinterleave⟩ := @ih (before ++ literal ++ m.lexeme.toList) []
      (by simpa using htext) nofun (by simp)
    have hslice : source.slice? (byteCount before) m.start = some (String.ofList literal) := by
      rw [hstart, byteCount_append]
      exact Source.slice?_of_eq (by simpa using htext)
    rw [← hstop] at hgaps
    refine ⟨String.ofList literal :: gaps, ?_, ?_⟩
    · simp [Source.gaps?, hslice, hgaps]
    · rw [markersOf_marker, interleave, hinterleave]
      rfl

end Laid

/-- What the segments of a source are to the source. -/
structure Inventory (directives : Directives) (source : Source) (segments : List Segment) :
    Prop where
  /-- No marker is empty, and all lie in the source. -/
  bounds : ∀ m ∈ markersOf segments, m.start < m.stop ∧ m.stop ≤ source.size
  /-- The markers stand in the order of the text and do not overlap. -/
  ordered : (markersOf segments).Pairwise fun a b => a.stop ≤ b.start
  boundaries : ∀ m ∈ markersOf segments,
    source.IsBoundary m.start ∧ source.IsBoundary m.stop ∧ source.IsBoundary m.argsStart
  lexemes : ∀ m ∈ markersOf segments, source.slice? m.start m.stop = some m.lexeme
  /-- The arguments are the slice of their length where they start, inside of the marker. -/
  args : ∀ m ∈ markersOf segments, ∀ args ∈ m.args,
    source.slice? m.argsStart (m.argsStart + args.utf8ByteSize) = some args ∧
      m.start < m.argsStart ∧ m.argsStart + args.utf8ByteSize ≤ m.stop
  bare : ∀ m ∈ markersOf segments, m.args = none → m.argsStart = m.stop
  /-- The literal text is what the slices between the markers are. -/
  gaps : ∃ gaps, source.gaps? 0 (markersOf segments) = some gaps ∧
    interleave gaps (markersOf segments) = segments
  whole : String.join (segments.map Segment.text) = source.text
  /-- A `#` outside of the markers starts nothing, and has no backslash before it. -/
  hashes : ∀ before after, source.text.toList = before ++ '#' :: after →
    (∀ m ∈ markersOf segments, byteCount before < m.start ∨ m.stop ≤ byteCount before) →
    Lexer.StartsNothing directives after ∧ before.getLast? ≠ some '\\'

section Place

variable {source : Source} {m : Marker} {front back : List Char}

/-- A marker with text before and behind it lies in the source. -/
theorem Marker.Fits.bounds (h : m.Fits)
    (htext : source.text.toList = front ++ (m.lexeme.toList ++ back))
    (hstart : m.start = byteCount front) : m.start < m.stop ∧ m.stop ≤ source.size := by
  have hpos := byteCount_pos h.nonempty
  rw [Source.size, ← byteCount_toList, htext, Marker.stop_eq hstart, hstart]
  simp only [byteCount_append]
  omega

/-- The arguments of a marker are the slice of the source where they start. -/
theorem Marker.Fits.slice?_args (h : m.Fits)
    (htext : source.text.toList = front ++ (m.lexeme.toList ++ back))
    (hstart : m.start = byteCount front) {args : String} (hargs : args ∈ m.args) :
    source.slice? m.argsStart (m.argsStart + args.utf8ByteSize) = some args ∧
      m.start < m.argsStart ∧ m.argsStart + args.utf8ByteSize ≤ m.stop := by
  obtain ⟨before, after, hlexeme, hne, hargsStart⟩ := h.args args hargs
  have hplace : m.argsStart = byteCount (front ++ before) := by
    rw [hargsStart, hstart, byteCount_append]
  have hpos := byteCount_pos hne
  refine ⟨?_, by omega, ?_⟩
  · have hsource : source.text.toList = (front ++ before) ++ (args.toList ++ (after ++ back)) := by
      rw [htext, hlexeme]
      simp
    have hslice := Source.slice?_of_eq hsource
    rwa [← hplace, byteCount_toList, String.ofList_toList] at hslice
  · rw [Marker.stop_eq hstart, hplace, hlexeme, ← byteCount_toList]
    simp only [byteCount_append]
    omega

theorem Marker.Fits.boundary_argsStart (h : m.Fits)
    (htext : source.text.toList = front ++ (m.lexeme.toList ++ back))
    (hstart : m.start = byteCount front) : source.IsBoundary m.argsStart := by
  cases hargs : m.args with
  | none =>
    rw [h.bare hargs, Marker.stop_eq hstart]
    exact ⟨front ++ m.lexeme.toList, back, by simpa using htext, rfl⟩
  | some args =>
    obtain ⟨before, after, hlexeme, -, hargsStart⟩ := h.args args hargs
    refine ⟨front ++ before, args.toList ++ (after ++ back), ?_, ?_⟩
    · rw [htext, hlexeme]
      simp
    · rw [hargsStart, hstart, byteCount_append]

end Place

/-- **A scan cuts a source into markers and literal text.** The markers are pieces of the source in
its order, with their arguments inside of them. What the builder is given as literal text are the
slices between them, in which no `#` starts anything. -/
theorem scan_inventory {directives : Directives} {source : Source} {segments : List Segment}
    (h : scan directives source = .ok segments) : Inventory directives source segments := by
  have hlaid : Laid directives [] source.text.toList segments :=
    laid_scanFrom (scan_eq_ok.1 h).1 rfl (by simp) pending_nil
  have hplace : ∀ m ∈ markersOf segments, m.Fits ∧ ∃ front back,
      source.text.toList = front ++ (m.lexeme.toList ++ back) ∧ m.start = byteCount front :=
    hlaid.exists_split
  constructor
  case bounds =>
    intro m hm
    obtain ⟨hfits, front, back, htext, hstart⟩ := hplace m hm
    exact hfits.bounds htext hstart
  case ordered => exact hlaid.ordered
  case boundaries =>
    intro m hm
    obtain ⟨hfits, front, back, htext, hstart⟩ := hplace m hm
    refine ⟨⟨front, _, htext, hstart.symm⟩, ?_, hfits.boundary_argsStart htext hstart⟩
    exact ⟨front ++ m.lexeme.toList, back, by simpa using htext, (Marker.stop_eq hstart).symm⟩
  case lexemes =>
    intro m hm
    obtain ⟨-, front, back, htext, hstart⟩ := hplace m hm
    have hslice := Source.slice?_of_eq htext
    rwa [← byteCount_append, ← hstart, ← Marker.stop_eq hstart, String.ofList_toList] at hslice
  case args =>
    intro m hm args hargs
    obtain ⟨hfits, front, back, htext, hstart⟩ := hplace m hm
    exact hfits.slice?_args htext hstart hargs
  case bare => exact fun m hm => (hplace m hm).1.bare
  case gaps =>
    have hwhole : Laid directives ([] ++ []) source.text.toList segments := hlaid
    exact hwhole.gaps rfl nofun
  case whole => rw [hlaid.join_text, String.ofList_toList]
  case hashes => exact fun before after htext hout => hlaid.hashes htext hout

/-- Escapes, quotes with backslashes and characters of two bytes: the markers are found where they
stand, and the `#` of `#f` is literal text. -/
theorem scan_inventory_mixed :
    let source : Source := ⟨"t", "é\\# #f #[f(\"\\é]\")]#--ü--##section a-b#endsection"⟩
    ∃ found, scan [] source = .ok found ∧
      (markersOf found).map (fun m => (m.start, m.argsStart, m.stop)) =
        [(2, 4, 4), (8, 10, 20), (20, 23, 28), (28, 37, 40), (40, 51, 51)] ∧
      Inventory [] source found := by
  intro source
  have hscan : (match scan [] source with
      | .ok found => (markersOf found).map fun m => (m.start, m.argsStart, m.stop)
      | .error _ => []) = [(2, 4, 4), (8, 10, 20), (20, 23, 28), (28, 37, 40), (40, 51, 51)] := by
    decide +kernel
  cases hfound : scan [] source with
  | error e =>
    rw [hfound] at hscan
    cases hscan
  | ok found =>
    rw [hfound] at hscan
    exact ⟨found, rfl, hscan, scan_inventory hfound⟩

end Hashmark
