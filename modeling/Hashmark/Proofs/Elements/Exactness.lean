import Mathlib
import Hashmark.Proofs.Compiling.Pages
import Hashmark.Proofs.Elements.Probes

/-!
# Which texts keep raw elements

A text that is not steady can be probed: some page with it, and with steady texts besides, has raw
elements with other contents once it is optimized (`steady_of_keepsProbes`). So do two pages with a
hazard. Hence steady texts and no hazards are all that can be allowed (`keepsContents_iff`).
-/

namespace Hashmark

/-- Whether all probes of a text keep the contents of their raw elements. -/
def KeepsProbes (first second : String) : Prop :=
  ∀ third last, Steady third → Steady last →
    (Artifact.page (probe first second third last)).KeepsContents

/-- A text that leads from outside of raw elements to a region. -/
def entrance : Region → String
  | .raw element => String.ofList element.openTag
  | _ => ">"

section Entrance

variable {region : Region}

theorem inert_entrance (region : Region) : inert (entrance region).toList = true := by
  cases region with
  | raw element => rw [entrance, String.toList_ofList]; cases element <;> decide
  | markup | unknown => decide

theorem after_entrance (hknown : region ≠ .unknown) :
    after .markup (entrance region).toList = region := by
  cases region with
  | raw element => rw [entrance, String.toList_ofList]; cases element <;> cbv
  | markup => exact after_of_not_mem _ (by decide)
  | unknown => exact absurd rfl hknown

theorem minifyText_entrance (hknown : region ≠ .unknown) :
    (minifyText .markup (entrance region)).2 = region :=
  (minifyText_of_known (by simp) _).trans (after_entrance hknown)

/-- What comes after an entrance is read from its region. -/
theorem marks_entrance (hknown : region ≠ .unknown) (rest : List Char) :
    marks .markup ((entrance region).toList ++ rest) =
      marks .markup (entrance region).toList ++ marks region rest := by
  rw [readsAlone_of_inert (by simp) (inert_entrance region), after_entrance hknown]

end Entrance

theorem after_ne_unknown {region : Region} (hknown : region ≠ .unknown) (cs : List Char) :
    after region cs ≠ .unknown := by
  induction region, cs using marks_induction with
  | nil region => rwa [after_nil]
  | closing c cs element n hclosing ih => rw [after_closing hclosing]; exact ih (by simp)
  | raw c cs element hclosing ih => rw [after_raw hclosing]; exact ih hknown
  | comment c cs region rest hregion hcomment ih =>
    rw [after_comment hregion hcomment]; exact ih hknown
  | opening c cs region element n hregion hcomment hopening ih =>
    rw [after_opening hregion hcomment hopening]; exact ih (by simp)
  | char c cs region hregion hcomment hopening ih =>
    rw [after_char hregion hcomment hopening]; exact ih hknown

/-! ### Reading probes -/

section Reading

variable {region : Region} {element : RawElement} {value second third last : List Char}
  {ms : List Mark}

/-- If a page is read within a raw element at the last text of a probe, then its characters are among
the contents. -/
theorem length_le_charCount (hknown : region ≠ .unknown) (hvalue : '<' ∉ value) (hlast : '<' ∉ last)
    (hreal : ∀ rest, marks region (second ++ (value ++ (third ++ rest))) =
      ms ++ marks (.raw element) rest) :
    last.length ≤ charCount (marks .markup
      (probeOutput value (entrance region).toList second third last)) := by
  have hend := marks_append_of_not_mem (.raw element) (List.not_mem_append hvalue hlast) []
  rw [List.append_nil, marks_nil, List.append_nil] at hend
  rw [probeOutput, marks_entrance hknown, marks_append_of_not_mem region hvalue, hreal, hend]
  simp only [charMarks, charCount_append, charCount_chars, List.length_append]
  omega

/-- If a page is read outside of raw elements at the last text of a probe, then no more characters
are among the contents than there are before. -/
theorem charCount_le (hknown : region ≠ .unknown) (hvalue : '<' ∉ value) (hlast : '<' ∉ last)
    (hsecond : ReadsAlone region second) (hthird : ReadsAlone (after region second) third)
    (htold : after (after region second) third = .markup) :
    charCount (marks .markup (probeOutput value (entrance region).toList second third last)) ≤
      (entrance region).toList.length + second.length + third.length + 2 * value.length := by
  have hend := marks_append_of_not_mem .markup (List.not_mem_append hvalue hlast) []
  rw [List.append_nil, marks_nil, List.append_nil] at hend
  have hcount : ∀ r, charCount (charMarks r value) ≤ value.length := by
    intro r
    cases r <;> simp [charMarks]
  rw [probeOutput, marks_entrance hknown, marks_append_of_not_mem region hvalue, hsecond,
    marks_append_of_not_mem _ hvalue, hthird, htold, hend, charMarks_of_ne markup_ne]
  have h₁ := charCount_marks_le .markup (entrance region).toList
  have h₂ := charCount_marks_le region second
  have h₃ := charCount_marks_le (after region second) third
  have h₄ := hcount region
  have h₅ := hcount (after region second)
  simp only [charCount_append, charCount_nil]
  omega

end Reading

/-! ### Probes that fail -/

/-- Some spaces. -/
def spaces (n : Nat) : String :=
  String.ofList (List.replicate (n + 1) ' ')

theorem not_mem_spaces (n : Nat) : '<' ∉ (spaces n).toList := by
  simp [spaces, List.mem_replicate]

theorem length_spaces (n : Nat) : (spaces n).toList.length = n + 1 := by
  rw [spaces, String.toList_ofList, List.length_replicate]

theorem length_minified_spaces (n : Nat) : (minified .markup (spaces n)).toList.length = 1 := by
  change (String.ofList (minifyChars .markup (spaces n).toList).1).toList.length = 1
  have hblank : Text.isBlank ' ' = true := by decide
  have hrest : (List.replicate n ' ').dropWhile Text.isBlank = [] := by
    induction n with
    | zero => rfl
    | succ n ih => rw [List.replicate_succ, List.dropWhile_cons_of_pos hblank, ih]
  rw [String.toList_ofList, spaces, String.toList_ofList, List.replicate_succ,
    minifyChars_blank markup_ne (dropComment?_blank hblank) (openingRaw?_of_ne (by decide)) hblank,
    hrest, minifyChars_nil]
  rfl

theorem minified_spaces (element : RawElement) (n : Nat) :
    minified (.raw element) (spaces n) = spaces n := by
  change String.ofList (minifyChars (.raw element) (spaces n).toList).1 = spaces n
  rw [minifyChars_inside element (mentionsRawElement_of_not_mem (not_mem_spaces n)),
    String.ofList_toList]

/-- There are long inert texts without brackets. -/
theorem exists_letters (n : Nat) :
    ∃ cs : List Char, inert cs = true ∧ '<' ∉ cs ∧ n < cs.length := by
  induction n with
  | zero => exact ⟨['>'], by decide, by decide, by decide⟩
  | succ n ih =>
    obtain ⟨cs, hinert, hbracket, hlength⟩ := ih
    refine ⟨'>' :: cs, inert_cons.2 ⟨by simp, rfl, by decide, hinert⟩, ?_, ?_⟩
    · simpa using hbracket
    · rw [List.length_cons]
      omega

theorem not_mem_of_emittedAsIs {cs : List Char} (h : EmittedAsIs cs) : '<' ∉ cs :=
  fun hmem => absurd (h '<' hmem) (by decide)

theorem contents_eq_of_keepsContents {a : Artifact} (h : a.KeepsContents) {data : Json}
    {out out' : String} (hout : a.render .builtin (.ofJson data) = .ok out)
    (hout' : a.optimize.render .builtin (.ofJson data) = .ok out') :
    contents out.toList = contents out'.toList := by
  have hkeeps := h data
  rw [hout] at hkeeps
  obtain ⟨out'', hout'', hcontents⟩ := hkeeps
  rw [hout'] at hout''
  cases hout''
  exact hcontents

section Failing

variable {region : Region} {text : String}

/-- **Lost spaces.** There is no place behind the text of a probe where the page is read within a raw
element and the optimizer, in some pass, takes it to be outside of raw elements. -/
theorem not_diverted (hknown : region ≠ .unknown) (hkeeps : KeepsProbes (entrance region) text)
    {value third : List Char} {element : RawElement} {ms : List Mark} (hvalue : EmittedAsIs value)
    (hthird : inert third = true)
    (hreal : ∀ rest, marks region (text.toList ++ (value ++ (third ++ rest))) =
      ms ++ marks (.raw element) rest)
    (n : Nat) (hsteps : ∀ i < n,
      minifiedTimes (i + 1) region text ≠ minifiedTimes i region text ∧
        ∃ element', after (after region (minifiedTimes i region text).toList) third =
          .raw element')
    (htold : after (after region (minifiedTimes n region text).toList) third = .markup) : False := by
  have hescaped := escapeText_ofList hvalue
  have hthird' : inert (String.ofList third).toList = true := by rwa [String.toList_ofList]
  have hlast : ∀ t : String, (minifyText (minifyText region t).2 (String.ofList third)).2 =
      after (after region t.toList) third := by
    intro t
    rw [minifyText_of_known hknown, minifyText_of_known (after_ne_unknown hknown _),
      String.toList_ofList]
  let bound := (entrance region).toList.length + text.toList.length + third.length + 1 +
    3 * value.length
  let last := spaces bound
  obtain ⟨out, hout, hwritten⟩ := @render_probe (entrance region) text (String.ofList third) last
    (String.ofList value) hescaped .builtin
  obtain ⟨p, hp, hlength⟩ := @length_settle_probe (entrance region) (String.ofList third) last
    (String.ofList value) hescaped .builtin region
    (minified_of_inert .markup (inert_entrance region)) (minifyText_entrance hknown)
    (fun r => minified_of_inert r hthird') n text
    (fun i hi => by
      obtain ⟨hchanged, element', htold'⟩ := hsteps i hi
      exact ⟨hchanged, by rw [hlast, htold']; exact minified_spaces element' bound⟩)
    (by rw [hlast, htold])
  have hoptimized := Artifact.render_optimized_page (by rwa [prepare_probe])
  have hcontents := contents_eq_of_keepsContents
    (hkeeps _ last (steady_of_inert hthird') (steady_of_not_mem (not_mem_spaces bound))) hout
    hoptimized
  have hless : charCount (marks .markup out.toList) ≤ bound := by
    rw [← length_contents, hcontents, length_contents, String.toList_join]
    refine Nat.le_trans (charCount_marks_le _ _) (Nat.le_trans hlength ?_)
    rw [length_minified_spaces, String.toList_ofList, String.toList_ofList]
  have hmore := @length_le_charCount region element value text.toList third last.toList ms hknown
    (not_mem_of_emittedAsIs hvalue) (not_mem_spaces bound) hreal
  rw [hwritten, String.toList_ofList, String.toList_ofList] at hless
  rw [length_spaces] at hmore
  omega

/-- A text of which all probes keep the contents is read on its own. -/
theorem readsAlone_of_keepsProbes (hknown : region ≠ .unknown)
    (hkeeps : KeepsProbes (entrance region) text) : ReadsAlone region text.toList := by
  obtain halone | hstrays := readsAlone_or_strays hknown text.toList
  · exact halone
  · obtain ⟨value, third, element, ms, hvalue, hthird, htold, hreal⟩ :=
      hstrays.exists_diversion (after_ne_unknown hknown _)
    exact (not_diverted hknown hkeeps hvalue hthird hreal 0 (fun i hi => by omega) htold).elim

/-- Once a text stays as it is, it does so for good. -/
theorem minifiedTimes_of_eq {i : Nat}
    (h : minifiedTimes (i + 1) region text = minifiedTimes i region text) {n : Nat} (hle : i ≤ n) :
    minifiedTimes n region text = minifiedTimes i region text := by
  induction hle with
  | refl => rfl
  | step hle ih => rw [minifiedTimes, ih]; exact h

/-- **Stability.** A text of which all probes keep the contents leads to the same region however
often it is minified: at the first pass that tells another region, a diversion would show it. -/
theorem after_minifiedTimes (hknown : region ≠ .unknown)
    (hkeeps : KeepsProbes (entrance region) text) (n : Nat) :
    after region (minifiedTimes n region text).toList = after region text.toList := by
  induction n using Nat.strongRecOn with
  | ind n ih =>
    by_contra hne
    have hreads := readsAlone_of_keepsProbes hknown hkeeps
    have hreal := after_ne_unknown hknown text.toList
    obtain ⟨third, hinert, htold, element, hraw⟩ :=
      exists_inert_diversion (after_ne_unknown hknown _) hreal (Ne.symm hne)
    have hread : ∀ rest, marks region (text.toList ++ ([] ++ (third ++ rest))) =
        marks region text.toList ++ marks (after region text.toList) third ++
          marks (.raw element) rest := by
      intro rest
      rw [List.nil_append, hreads, readsAlone_of_inert hreal hinert, hraw, List.append_assoc]
    refine not_diverted hknown hkeeps (by decide) hinert hread n
      (fun i hi => ⟨fun heq => ?_, element, ?_⟩) htold
    · rw [minifiedTimes_of_eq heq (Nat.le_of_lt hi), ih i hi] at hne
      exact hne rfl
    · rw [ih i hi, hraw]

theorem stable_of_keepsProbes
    (hkeeps : ∀ region, region ≠ .unknown → KeepsProbes (entrance region) text) : Stable text := by
  intro n region
  by_cases hknown : region = .unknown
  · rw [hknown, minifyText_unknown, minifyText_unknown]
  · rw [minifyText_of_known hknown, minifyText_of_known hknown]
    exact after_minifiedTimes hknown (hkeeps region hknown) n

theorem settleText_entrance (region : Region) :
    settleText .markup (entrance region) = entrance region :=
  settleText_of_eq (minified_of_inert _ (inert_entrance region))

/-- If probes of a text keep the contents, then the text is read on its own when it is minified for
good: otherwise letters outside of raw elements would get into one. -/
theorem readsAlone_settleText (hknown : region ≠ .unknown) (hstable : Stable text)
    (hkeeps : KeepsProbes (entrance region) text) :
    ReadsAlone region (settleText region text).toList := by
  obtain halone | hstrays := readsAlone_or_strays hknown (settleText region text).toList
  · exact halone
  · obtain ⟨value, third, element, ms, hvalue, hthird, htold, hreal⟩ :=
      hstrays.exists_diversion (after_ne_unknown hknown _)
    rw [hstable.after_settleText hknown] at htold
    have hescaped := escapeText_ofList hvalue
    have hthird' : inert (String.ofList third).toList = true := by rwa [String.toList_ofList]
    have hnotMem := not_mem_of_emittedAsIs hvalue
    obtain ⟨last, hlast, hbracket, hlength⟩ := exists_letters ((entrance region).toList.length +
      text.toList.length + third.length + 2 * value.length)
    have hlast' : inert (String.ofList last).toList = true := by rwa [String.toList_ofList]
    have hsettled : ∀ {t : String}, inert t.toList = true → ∀ r, settleText r t = t :=
      fun ht r => settleText_of_eq (minified_of_inert r ht)
    obtain ⟨out, hout, hwritten⟩ := @render_probe (entrance region) text (String.ofList third)
      (String.ofList last) (String.ofList value) hescaped .builtin
    obtain ⟨out', hout', hwritten'⟩ := @render_probe_settled (entrance region) text
      (String.ofList third) (String.ofList last) (String.ofList value) hescaped .builtin
      (steady_of_inert (inert_entrance region)).stable hstable (steady_of_inert hthird').stable
      (steady_of_inert hlast').stable
    have hcontents := contents_eq_of_keepsContents
      (hkeeps _ _ (steady_of_inert hthird') (steady_of_inert hlast')) hout hout'
    have hless := @charCount_le region value text.toList third last hknown hnotMem hbracket
      (readsAlone_of_keepsProbes hknown hkeeps)
      (readsAlone_of_inert (after_ne_unknown hknown _) hthird) htold
    have hmore := @length_le_charCount region element value (settleText region text).toList third
      last ms hknown hnotMem hbracket hreal
    rw [minifyText_entrance hknown, settleText_entrance, hsettled hthird', hsettled hlast'] at hwritten'
    simp only [String.toList_ofList] at hwritten hwritten'
    rw [← hwritten, ← length_contents, hcontents, length_contents, hwritten'] at hless
    omega

/-- If probes of a text keep the contents, then the same raw elements are found in the text when it
is minified for good. -/
theorem marks_settleText (hknown : region ≠ .unknown) (hstable : Stable text)
    (hkeeps : KeepsProbes (entrance region) text) :
    marks region (settleText region text).toList = marks region text.toList := by
  have hempty : Steady "" := steady_of_not_mem (by decide)
  obtain ⟨out, hout, hwritten⟩ := @render_probe (entrance region) text "" "" "" rfl .builtin
  obtain ⟨out', hout', hwritten'⟩ := @render_probe_settled (entrance region) text "" "" "" rfl
    .builtin (steady_of_inert (inert_entrance region)).stable hstable hempty.stable hempty.stable
  have hcontents := contents_eq_of_keepsContents (hkeeps "" "" hempty hempty) hout hout'
  rw [minifyText_entrance hknown, settleText_entrance, settleText_empty, settleText_empty] at hwritten'
  have hmarks : ∀ cs, marks .markup (probeOutput [] (entrance region).toList cs [] []) =
      marks .markup (entrance region).toList ++ marks region cs := by
    intro cs
    simp [probeOutput, marks_entrance hknown]
  have halternating : ∀ cs, after region cs = after region text.toList →
      Alternating false (after region text.toList).isRaw
        (marks .markup (probeOutput [] (entrance region).toList cs [] [])) := by
    intro cs hafter
    have hentrance := alternating_marks .markup (entrance region).toList
    rw [after_entrance hknown] at hentrance
    rw [hmarks, ← hafter]
    exact hentrance.append (alternating_marks region cs)
  rw [hwritten, hwritten'] at hcontents
  have hread := marks_eq_of_contents hcontents (halternating _ rfl)
    (halternating _ (hstable.after_settleText hknown))
  change marks .markup (probeOutput [] _ _ [] []) = marks .markup (probeOutput [] _ _ [] []) at hread
  rw [hmarks, hmarks] at hread
  exact (List.append_cancel_left hread).symm

/-- **Probes show what is not steady.** -/
theorem steady_of_keepsProbes
    (hkeeps : ∀ region, region ≠ .unknown → KeepsProbes (entrance region) text) : Steady text :=
  have hstable := stable_of_keepsProbes hkeeps
  { stable := hstable
    reads := fun region hknown => readsAlone_of_keepsProbes hknown (hkeeps region hknown)
    settled := fun region hknown => readsAlone_settleText hknown hstable (hkeeps region hknown)
    marks_eq := fun region hknown => marks_settleText hknown hstable (hkeeps region hknown) }

end Failing

/-! ### Pages with a hazard -/

/-- A page with a loop over markup that opens a raw element. -/
def loopPage : Artifact :=
  .page [.forEach (.list [.filter (.lit (.str "<pre>")) "raw" []]) none "x" [.emit (.var "x")],
    .text "  "]

/-- A page with a block that closes a raw element, within a block of the same name. -/
def blockPage : Artifact :=
  .page [.block "a" [.text "<pre>", .block "a" [.text "</pre>"]], .text "  "]

theorem hazards_loopPage : loopPage.hazards = [.loop] := by cbv

theorem hazards_blockPage : blockPage.hazards = [.block] := by cbv

theorem steady_loopPage : AllOf Steady loopPage.preparedTexts := by
  rw [show loopPage.preparedTexts = ["  "] by cbv]
  exact allOf_singleton.2 (steady_of_not_mem (by decide))

theorem steady_blockPage : AllOf Steady blockPage.preparedTexts := by
  rw [show blockPage.preparedTexts = ["<pre>", "</pre>", "  "] by cbv]
  exact List.forall_mem_cons.2 ⟨steady_of_inert (by decide), List.forall_mem_cons.2
    ⟨steady_of_inert (by decide), allOf_singleton.2 (steady_of_not_mem (by decide))⟩⟩

theorem contents_ne : contents "<pre>  ".toList ≠ contents "<pre> ".toList := by
  have hplain : contents "<pre>  ".toList = [['>', ' ', ' ']] := by cbv
  have hoptimized : contents "<pre> ".toList = [['>', ' ']] := by cbv
  rw [hplain, hoptimized]
  decide

/-- Blanks within a raw element that a loop opens are lost. -/
theorem not_keepsContents_loopPage : ¬loopPage.KeepsContents := by
  intro h
  have hsource : Expr.eval .builtin (.ofJson (.object []))
      (.list [.filter (.lit (.str "<pre>")) "raw" []]) = .ok (.list [.safe "<pre>"]) := by cbv
  have hplain : loopPage.render .builtin (.ofJson (.object [])) = .ok "<pre>  " := by
    unfold loopPage Artifact.page Artifact.render
    simp only [Node.renderList, Node.render, hsource]
    cbv
  have hoptimized : loopPage.optimize.render .builtin (.ofJson (.object [])) = .ok "<pre> " := by cbv
  exact contents_ne (contents_eq_of_keepsContents h hplain hoptimized)

/-- Blanks within a raw element that the inner block does not close are lost. -/
theorem not_keepsContents_blockPage : ¬blockPage.KeepsContents := by
  intro h
  have hplain : blockPage.render .builtin (.ofJson (.object [])) = .ok "<pre>  " := by cbv
  have hprepare : prepare blockPage.body = blockPage.body := by cbv
  have hoptimized : blockPage.optimize.render .builtin (.ofJson (.object [])) = .ok "<pre> " := by
    refine (@Artifact.render_optimized_page .builtin (.ofJson (.object [])) blockPage.body
      ["<pre>", " "] ?_)
    have hsettle : (settle .none .markup blockPage.body).1 =
        [.block "a" [.text "<pre>", .block "a" [.text "</pre>"]], .text " "] :=
      settle_of_minifyList _ _ (by cbv) (by cbv) (by cbv)
    rw [hprepare, hsettle]
    cbv
  exact contents_ne (contents_eq_of_keepsContents h hplain hoptimized)

/-! ### The exact condition -/

set_option maxRecDepth 2000 in
/-- A loop over markup that opens a raw element: where the loop variable is emitted, the optimizer
takes the page to be outside of raw elements still, and blanks in the element are lost. -/
theorem lost_blanks_after_loop :
    let l := Library.empty.set "page" "#foreach([$t | raw] as $x)#[$x]#endforeach a   b</pre>"
    let data : Json := .object [("t", .string "<pre>")]
    ∃ a, compile ⟨[], .builtin⟩ l.catalog "page" = .ok a ∧
      a.render .builtin (.ofJson data) = .ok "<pre> a   b</pre>" ∧
      a.optimize.render .builtin (.ofJson data) = .ok "<pre> a b</pre>" ∧
      contents "<pre> a   b</pre>".toList = ["> a   b".toList] ∧
      contents "<pre> a b</pre>".toList = ["> a b".toList] := by
  intro l data
  let loop : Node := .forEach (.list [.filter (.var "t") "raw" []]) none "x" [.emit (.var "x")]
  let a : Artifact :=
    ⟨1, "page", [], [loop, .text " a   b</pre>"], [⟨⟨"page"⟩, .ofSeconds 1⟩]⟩
  have hparse : parseTemplate ⟨[], .builtin⟩
      ⟨"page", "#foreach([$t | raw] as $x)#[$x]#endforeach a   b</pre>"⟩ =
        .ok ⟨none, [loop, .text " a   b</pre>"]⟩ := by cbv
  have hsource : Expr.eval .builtin (.ofJson data) (.list [.filter (.var "t") "raw" []]) =
      .ok (.list [.safe "<pre>"]) := by cbv
  have hrender : ∀ text, Node.renderList ⟨.builtin, []⟩ [] (.ofJson data) [loop, .text text] =
      .ok ["<pre>", text] := by
    intro text
    have hloop : Node.render ⟨.builtin, []⟩ [] (.ofJson data) loop = .ok ["<pre>"] := by
      simp only [loop, Node.render, hsource]
      cbv
    rw [Node.renderList, hloop, renderList_singleton, Node.render]
    rfl
  have hbody : a.optimize.body = [loop, .text " a b</pre>"] := by
    have hprepare : prepare [loop, .text " a   b</pre>"] = [loop, .text " a   b</pre>"] := by cbv
    change (settle .none .markup (prepare [loop, .text " a   b</pre>"])).1 = _
    rw [hprepare]
    exact settle_of_minifyList _ _ (by cbv) (by cbv) (by cbv)
  refine ⟨a, compile_page hparse rfl rfl, ?_, ?_, by cbv, by cbv⟩
  · rw [Artifact.render, show a.sections = [] from rfl, hrender]
    rfl
  · rw [Artifact.render, show a.optimize.sections = [] from rfl, hbody, hrender]
    rfl

/-- **Kept contents.** Of all artifacts over some texts, besides steady texts, and with some hazards,
the contents of raw elements stay the same when they are optimized exactly if all the texts are
steady and there are no hazards. -/
theorem keepsContents_iff (texts : Set String) (hazards : Set Hazard) :
    (∀ a : Artifact, AllOf (fun text => Steady text ∨ text ∈ texts) a.preparedTexts →
        (∀ hazard ∈ a.hazards, hazard ∈ hazards) → a.KeepsContents) ↔
      (∀ text ∈ texts, Steady text) ∧ hazards = ∅ := by
  constructor
  · intro h
    refine ⟨fun text htext => steady_of_keepsProbes fun region _ third last hthird hlast => ?_,
      Set.eq_empty_iff_forall_notMem.2 fun hazard hmem => ?_⟩
    · refine h _ (texts_probe (.inl (steady_of_inert (inert_entrance region))) (.inr htext)
        (.inl hthird) (.inl hlast)) fun hazard hmem => ?_
      rw [hazards_probe] at hmem
      cases hmem
    · have honly : ∀ hazard', hazard' ∈ [hazard] → hazard' ∈ hazards :=
        fun hazard' hmem' => List.mem_singleton.1 hmem' ▸ hmem
      cases hazard with
      | loop =>
        exact not_keepsContents_loopPage (h loopPage (fun t ht => .inl (steady_loopPage t ht))
          (hazards_loopPage ▸ honly))
      | block =>
        exact not_keepsContents_blockPage (h blockPage (fun t ht => .inl (steady_blockPage t ht))
          (hazards_blockPage ▸ honly))
  · rintro ⟨hsteady, rfl⟩ a ht hhazards
    refine a.keepsContents (fun text htext => ?_) (List.eq_nil_iff_forall_not_mem.2 hhazards)
    rcases ht text htext with hself | hmem
    · exact hself
    · exact hsteady text hmem

end Hashmark
