import Mathlib
import Hashmark.Proofs.Elements.SecondRun
import Hashmark.Proofs.Elements.Tags

/-!
# When optimizing is idempotent

An override can change the region as long as its texts mention raw elements, and a tag that stands
in a comment is mentioned only until the comment is dropped. So an override may count as a changing
one in the first run and not in the second one, which then minifies texts after it that the first
run left alone. This can happen only to an override that is entered outside of raw elements: inside
of one a text keeps a tag (`mentionsRawElement_minified`), and where the region is not known it is
kept as a whole.

`Artifact.optimize_optimize_iff` is exact: over the overrides of an artifact, optimizing is
idempotent for all bodies if and only if each changing override, unless another one renders it,
still can change the region once it settled outside of raw elements.
-/

namespace Hashmark

/-! ### Tags inside of raw elements -/

section Tags

variable {element : RawElement} {cs more : List Char} {n : Nat}

theorem dropWord?_of_map {word start : List Char} (h : start.map Char.toLower = word)
    (more : List Char) : dropWord? word (start ++ more) = some more := by
  induction start generalizing word with
  | nil =>
    subst h
    rfl
  | cons c start ih =>
    subst h
    rw [List.map_cons, List.cons_append, dropWord?, if_pos rfl, ih rfl]

/-- A closing tag stays one if what follows it ends its name as before. -/
theorem closingTag?_take_append (h : closingTag? element cs = some n)
    (hmore : (cs.drop n).head?.all endsTagName = true → more.head?.all endsTagName = true) :
    closingTag? element (cs.take n ++ more) = some n := by
  rw [closingTag?, tagAt?_eq .closing, Option.bind_eq_some_iff] at h ⊢
  obtain ⟨rest, hrest, hends⟩ := h
  obtain ⟨start, rfl, hstart⟩ := eq_append_of_dropWord? hrest
  split at hends
  · next hend =>
    have hlength : start.length = n := by
      rw [← Option.some.inj hends, ← hstart, List.length_map]
    rw [← hlength, List.drop_left] at hmore
    rw [← hlength, List.take_left]
    exact ⟨more, dropWord?_of_map hstart more, by rw [if_pos (hmore hend), ← hstart,
      List.length_map]⟩
  · cases hends

/-- What ends the name of a tag does so after it was minified. -/
theorem endsTagName_minifyChars (h : cs.head?.all endsTagName = true) :
    (minifyChars .markup cs).1.head?.all endsTagName = true := by
  cases cs with
  | nil => rw [minifyChars_nil]; rfl
  | cons c cs =>
    have hregion : ∀ element, Region.markup ≠ .raw element := nofun
    have hne : c ≠ '<' := by
      rintro rfl
      cases h
    have hcomment := @dropComment?_of_ne c cs hne
    have hopening := @openingRaw?_of_ne c cs hne
    by_cases hblank : Text.isBlank c = true
    · rw [minifyChars_blank hregion hcomment hopening hblank]
      change endsTagName (collapsed _) = true
      unfold collapsed
      split <;> decide
    · rw [minifyChars_char hregion hcomment hopening hblank]
      exact h

theorem mentionsRawElement_of_closing (h : closingTag? element cs = some n) :
    mentionsRawElement cs = true := by
  cases cs with
  | nil => cases element <;> cases h
  | cons c cs =>
    have hmem : element ∈ RawElement.all := by cases element <;> decide
    rw [mentionsRawElement, Bool.or_eq_true]
    exact .inl (List.any_eq_true.2 ⟨element, hmem, by simp [h]⟩)

/-- Inside of a raw element, a text stays as it is, or the tag that closes the element stays. -/
theorem minifyChars_raw_cases (element : RawElement) (cs : List Char) :
    (minifyChars (.raw element) cs).1 = cs ∨
      mentionsRawElement (minifyChars (.raw element) cs).1 = true := by
  induction cs with
  | nil => exact .inl (by rw [minifyChars_nil])
  | cons c cs ih =>
    cases hclosing : closingTag? element (c :: cs) with
    | some n =>
      rw [minifyChars_closing hclosing]
      exact .inr (mentionsRawElement_of_closing
        (closingTag?_take_append hclosing endsTagName_minifyChars))
    | none =>
      rw [minifyChars_raw hclosing]
      refine ih.imp (congrArg (c :: ·)) fun hmentions => ?_
      rw [mentionsRawElement, hmentions, Bool.or_true]

/-- **Tags stay.** A text that mentions a raw element still does so when it is minified inside of
one, or where the region is not known. -/
theorem mentionsRawElement_minified {region : Region} (hregion : region ≠ .markup) {text : String}
    (h : mentionsRawElement text.toList = true) :
    mentionsRawElement (minified region text).toList = true := by
  cases region with
  | markup => exact absurd rfl hregion
  | unknown => exact h
  | raw element =>
    have htoList : (minified (.raw element) text).toList =
        (minifyChars (.raw element) text.toList).1 := String.toList_ofList
    rw [htoList]
    rcases minifyChars_raw_cases element text.toList with hsame | hmentions
    · rwa [hsame]
    · exact hmentions

end Tags

/-! ### Nodes that still change the region -/

theorem changesRegionList_append (changing : List String) (nodes more : List Node) :
    Node.changesRegionList changing (nodes ++ more) =
      (Node.changesRegionList changing nodes || Node.changesRegionList changing more) := by
  induction nodes with
  | nil => rfl
  | cons node nodes ih =>
    rw [List.cons_append, Node.changesRegionList, Node.changesRegionList, ih, Bool.or_assoc]

theorem changesRegionList_singleton (changing : List String) (node : Node) :
    Node.changesRegionList changing [node] = node.changesRegion changing := by
  rw [Node.changesRegionList, Node.changesRegionList, Bool.or_false]

theorem unknown_ne_markup : Region.unknown ≠ .markup :=
  nofun

section Rewrite

variable {facts : OverrideFacts} {names : List String}

mutual

/-- A node that can change the region still can after a pass, unless the pass enters it outside of
raw elements. -/
theorem Node.changesRegion_rewrite (hnames : facts.names? = some names) {region : Region}
    (hregion : region ≠ .markup) : ∀ node : Node, node.changesRegion facts.changing = true →
    Node.changesRegionList facts.changing (node.rewrite minified facts region) = true
  | .text content, h => by
    have hmentions := mentionsRawElement_minified hregion h
    have hne : minified region content ≠ "" := fun hempty => by
      rw [hempty] at hmentions
      cases hmentions
    rw [Node.rewrite, if_neg hne, changesRegionList_singleton]
    exact hmentions
  | .emit _, h => by rwa [Node.rewrite, changesRegionList_singleton]
  | .yield _ _, h => by rwa [Node.rewrite, changesRegionList_singleton]
  | .connect _, h => by rwa [Node.rewrite, changesRegionList_singleton]
  | .comment _, h => by rwa [Node.rewrite, changesRegionList_singleton]
  | .choose branches otherwise, h => by
    rw [Node.rewrite, changesRegionList_singleton]
    simp only [Node.changesRegion, Bool.or_eq_true] at h ⊢
    exact h.imp (Node.changesRegionBranches_rewrite hnames hregion branches)
      (Node.changesRegionOption_rewrite hnames hregion otherwise)
  | .forEach source key value body, h => by
    rw [Node.rewrite]
    split
    · rw [changesRegionList_singleton]
      exact Node.changesRegionList_rewrite hnames hregion body h
    · rw [changesRegionList_singleton]
      exact Node.changesRegionList_rewrite hnames unknown_ne_markup body h
  | .block name body, h => by
    simp only [Node.changesRegion, Bool.or_eq_true] at h
    rw [Node.rewrite]
    split
    · rw [changesRegionList_singleton, Node.changesRegion, Bool.or_eq_true]
      exact h.imp_right (Node.changesRegionList_rewrite hnames unknown_ne_markup body)
    · rw [changesRegionList_singleton, Node.changesRegion, Bool.or_eq_true]
      exact h.imp_right (Node.changesRegionList_rewrite hnames hregion body)

theorem Node.changesRegionList_rewrite (hnames : facts.names? = some names) {region : Region}
    (hregion : region ≠ .markup) : ∀ nodes : List Node,
    Node.changesRegionList facts.changing nodes = true →
    Node.changesRegionList facts.changing (Node.rewriteList minified facts region nodes) = true
  | [], h => h
  | node :: nodes, h => by
    rw [Node.rewriteList, changesRegionList_append, Bool.or_eq_true]
    cases hnode : node.changesRegion facts.changing with
    | true => exact .inl (Node.changesRegion_rewrite hnames hregion node hnode)
    | false =>
      -- the first node leads to the region it is entered in, so another node is the changing one
      rw [Node.region_of_changesRegion hnames region node hnode]
      rw [Node.changesRegionList, hnode, Bool.false_or] at h
      exact .inr (Node.changesRegionList_rewrite hnames hregion nodes h)

theorem Node.changesRegionBranches_rewrite (hnames : facts.names? = some names) {region : Region}
    (hregion : region ≠ .markup) : ∀ branches : List (Expr × List Node),
    Node.changesRegionBranches facts.changing branches = true →
    Node.changesRegionBranches facts.changing
      (Node.rewriteBranches minified facts region branches) = true
  | [], h => h
  | (_, body) :: branches, h => by
    rw [Node.rewriteBranches]
    simp only [Node.changesRegionBranches, Bool.or_eq_true] at h ⊢
    exact h.imp (Node.changesRegionList_rewrite hnames hregion body)
      (Node.changesRegionBranches_rewrite hnames hregion branches)

theorem Node.changesRegionOption_rewrite (hnames : facts.names? = some names) {region : Region}
    (hregion : region ≠ .markup) : ∀ otherwise : Option (List Node),
    Node.changesRegionOption facts.changing otherwise = true →
    Node.changesRegionOption facts.changing
      (Node.rewriteOption minified facts region otherwise) = true
  | none, h => h
  | some body, h => Node.changesRegionList_rewrite hnames hregion body h

end

/-- Nodes that can change the region still can once they settled, unless they are entered outside of
raw elements. -/
theorem changesRegionList_settle (hnames : facts.names? = some names) {start : Region}
    (hstart : start ≠ .markup) {nodes : List Node}
    (h : Node.changesRegionList facts.changing nodes = true) :
    Node.changesRegionList facts.changing (settle facts start nodes).1 = true := by
  refine settle_induction
    (motive := fun nodes => Node.changesRegionList facts.changing nodes = true)
    facts start (fun nodes hchanges => ?_) nodes h
  rw [Node.minifyList_nodes]
  exact Node.changesRegionList_rewrite hnames hstart nodes hchanges

end Rewrite

/-! ### Changing overrides of the second run -/

/-- The changing overrides are those that can change the region, given their own names. -/
theorem mem_changingNames {live : List Override} {name : String} :
    name ∈ changingNames live live.length ↔ ∃ o ∈ live, o.name = name ∧
      Node.changesRegionList (changingNames live live.length) o.body = true := by
  conv => lhs; rw [← changingOnce_changingNames]
  simp only [changingOnce, List.mem_map, List.mem_filter]
  constructor
  · rintro ⟨o, ⟨ho, hchanges⟩, hname⟩
    exact ⟨o, ho, hname, hchanges⟩
  · rintro ⟨o, ho, hname, hchanges⟩
    exact ⟨o, ⟨ho, hchanges⟩, hname⟩

/-- Overrides that others render change the region if they do so among any overrides that hold them
as they are: they render no others than such. -/
theorem changingNames_of_nested {live live' : List Override} {nested : List String}
    (hparts : ∀ o ∈ live, Node.partNamesOfList o.body ⊆ nested)
    (hsame : ∀ o ∈ live, o.name ∈ nested → o ∈ live') (rounds : Nat) :
    ∀ name ∈ nested, name ∈ changingNames live rounds →
      name ∈ changingNames live' live'.length := by
  -- the names of any round are kept, since the names on the right are closed under one more round
  induction rounds with
  | zero => exact fun _ _ h => absurd h List.not_mem_nil
  | succ rounds ih =>
    intro name hnested h
    obtain ⟨o, ho, rfl⟩ := List.mem_map.1 h
    obtain ⟨hlive, hchanges⟩ := List.mem_filter.1 ho
    refine mem_changingNames.2 ⟨o, hsame o hlive hnested, rfl, ?_⟩
    exact Node.changesRegionList_of_names o.body
      (fun part hpart => ih part (hparts o hlive hpart)) hchanges

/-- A live override is the first one of its name. -/
theorem overrideOf_of_mem_liveOverrides {overrides : List Override} {seen : List String}
    {o : Override} (h : o ∈ liveOverrides seen overrides) :
    o.name ∉ seen ∧ overrideOf overrides o.name = some o.body := by
  induction overrides generalizing seen with
  | nil => cases h
  | cons first rest ih =>
    have hlater : ∀ {seen' : List String}, first.name ∈ seen' → o ∈ liveOverrides seen' rest →
        o.name ∉ seen' ∧ overrideOf (first :: rest) o.name = some o.body := by
      intro seen' hfirst h
      obtain ⟨hseen, ho⟩ := ih h
      have hne : first.name ≠ o.name := fun heq => hseen (heq ▸ hfirst)
      exact ⟨hseen, by simpa [overrideOf, hne] using ho⟩
    rw [liveOverrides] at h
    split at h
    · next hfirst => exact hlater (List.contains_iff_mem.1 hfirst) h
    · next hfirst =>
      rcases List.mem_cons.1 h with rfl | h
      · exact ⟨by simpa using hfirst, by simp [overrideOf]⟩
      · obtain ⟨hseen, ho⟩ := hlater List.mem_cons_self h
        exact ⟨fun hmem => hseen (List.mem_cons_of_mem _ hmem), ho⟩

namespace Artifact

variable {a : Artifact} {o : Override} {name : String}

/-- An override that another one renders stays as it is. -/
theorem settledOverride_of_nested (ho : o ∈ a.live) (h : o.name ∈ a.nestedNames) :
    a.settledOverride o = o := by
  have hentry : a.entry o.name = .unknown := by
    change entryRegion a.settledBody.2 a.nestedNames o.name = .unknown
    rw [entryRegion, if_pos (List.contains_iff_mem.2 h)]
  rw [settledOverride, hentry, settle_unknown (a.tidy_live ho)]

/-- Of the overrides that others render, the second run counts the same ones as changing. -/
theorem mem_changing_of_nested (h : name ∈ a.nestedNames) :
    name ∈ a.optimize.overrideFacts.changing ↔ name ∈ a.overrideFacts.changing := by
  constructor
  · have hparts : ∀ o ∈ a.optimize.live, Node.partNamesOfList o.body ⊆ a.nestedNames :=
      fun o ho => nestedNames_optimize (a := a) ▸ a.optimize.partNames_subset_nestedNames ho
    have hsame : ∀ o ∈ a.optimize.live, o.name ∈ a.nestedNames → o ∈ a.live := by
      intro o ho hnested
      rw [live_optimize] at ho
      obtain ⟨o', ho', rfl⟩ := List.mem_map.1 ho
      rwa [settledOverride_of_nested ho' hnested]
    exact changingNames_of_nested hparts hsame _ name h
  · have hsame : ∀ o ∈ a.live, o.name ∈ a.nestedNames → o ∈ a.optimize.live := by
      intro o ho hnested
      rw [live_optimize]
      exact List.mem_map.2 ⟨o, ho, settledOverride_of_nested ho hnested⟩
    exact changingNames_of_nested (fun o ho => a.partNames_subset_nestedNames ho) hsame _ name h

/-- **Changing overrides of the second run** are those that can change the region once they settled,
given the changing ones of the first run. -/
theorem mem_changing_optimize : name ∈ a.optimize.overrideFacts.changing ↔
    ∃ o ∈ a.live, o.name = name ∧
      Node.changesRegionList a.overrideFacts.changing (a.settledOverride o).body = true := by
  have hchanges : ∀ o ∈ a.live,
      (Node.changesRegionList a.optimize.overrideFacts.changing (a.settledOverride o).body = true ↔
        Node.changesRegionList a.overrideFacts.changing (a.settledOverride o).body = true) := by
    intro o ho
    have hnested : ∀ part ∈ Node.partNamesOfList (a.settledOverride o).body,
        part ∈ a.nestedNames := by
      rw [settledOverride, partNames_settle]
      exact fun part hpart => a.partNames_subset_nestedNames ho hpart
    exact ⟨Node.changesRegionList_of_names _ fun part hpart =>
        (mem_changing_of_nested (hnested part hpart)).1,
      Node.changesRegionList_of_names _ fun part hpart =>
        (mem_changing_of_nested (hnested part hpart)).2⟩
  change name ∈ changingNames a.optimize.live a.optimize.live.length ↔ _
  rw [mem_changingNames]
  constructor
  · rintro ⟨o', ho', hname, h⟩
    rw [live_optimize] at ho'
    obtain ⟨o, ho, rfl⟩ := List.mem_map.1 ho'
    exact ⟨o, ho, hname, (hchanges o ho).1 h⟩
  · rintro ⟨o, ho, hname, h⟩
    refine ⟨a.settledOverride o, ?_, hname, (hchanges o ho).2 h⟩
    rw [live_optimize]
    exact List.mem_map.2 ⟨o, ho, rfl⟩

/-- Whether the changing overrides of an artifact, unless others render them, still can change the
region once they settled outside of raw elements. -/
def KeepsChanging (a : Artifact) : Prop :=
  ∀ o ∈ a.live, o.name ∈ a.overrideFacts.changing → o.name ∉ a.nestedNames →
    Node.changesRegionList a.overrideFacts.changing (settle a.overrideFacts .markup o.body).1 = true

/-- If changing overrides still are when they settled outside of raw elements, then all of them are
in the second run. -/
theorem KeepsChanging.subset (h : a.KeepsChanging) :
    a.overrideFacts.changing ⊆ a.optimize.overrideFacts.changing := by
  intro name hname
  by_cases hnested : name ∈ a.nestedNames
  · exact (mem_changing_of_nested hnested).2 hname
  · obtain ⟨o, ho, rfl, hchanges⟩ := mem_changingNames.1 hname
    refine mem_changing_optimize.2 ⟨o, ho, rfl, ?_⟩
    -- only an override that is entered outside of raw elements may lose its tags
    by_cases hentry : a.entry o.name = .markup
    · rw [settledOverride, hentry]
      exact h o ho hname hnested
    · exact changesRegionList_settle a.overrideFacts_names? hentry hchanges

/-! ### A body that shows the difference -/

/-- A yield of a name and two spaces after it. -/
def spacedYield (name : String) : List Node :=
  [.yield name none, .text "  "]

theorem tidy_spacedYield (name : String) : Node.TidyList true (spacedYield name) :=
  ⟨trivial, nofun, fun _ => by decide, fun _ _ => rfl, trivial⟩

theorem minified_spaces_markup : minified .markup "  " = " " := by
  cbv

/-- A pass leaves the two spaces only if the region after the yield is not the one before it. -/
theorem staysList_spacedYield {facts : OverrideFacts} :
    Node.StaysList facts .markup (spacedYield name) ↔
      minified ((facts.after? name .markup).getD .markup) "  " = "  " :=
  ⟨fun h => h.2.1.2, fun h => ⟨trivial, ⟨by decide, h⟩, trivial⟩⟩

/-- An artifact with a yield and two spaces for a body. -/
def withSpacedYield (a : Artifact) (name : String) : Artifact :=
  { a with body := spacedYield name }

/-- After a yield of an override the region is known unless the override is a changing one. -/
theorem after?_yield (h : name ∈ a.liveNames) (region : Region) :
    a.overrideFacts.after? name region =
      some (if name ∈ a.overrideFacts.changing then .unknown else region) := by
  simp only [OverrideFacts.after?, overrideFacts_names?, List.contains_iff_mem, h, if_true]

/-- After a changing override the region is not known, so the first run leaves the two spaces. -/
theorem settledBody_withSpacedYield (ho : o ∈ a.live)
    (hchanging : o.name ∈ a.overrideFacts.changing) :
    (a.withSpacedYield o.name).settledBody = (spacedYield o.name, [(o.name, .markup)]) := by
  have hlive : o.name ∈ (a.withSpacedYield o.name).liveNames := List.mem_map.2 ⟨o, ho, rfl⟩
  have hprepared : (a.withSpacedYield o.name).preparedBody = spacedYield o.name :=
    prepare_of_tidy (tidy_spacedYield o.name)
  have hchanging' : o.name ∈ (a.withSpacedYield o.name).overrideFacts.changing := hchanging
  have hstays : Node.StaysList (a.withSpacedYield o.name).overrideFacts .markup
      (spacedYield o.name) := by
    rw [staysList_spacedYield, after?_yield hlive, if_pos hchanging']
    rfl
  rw [settledBody, hprepared, settle_of_stays _ _ hstays]
  simp [spacedYield, Node.minifyList, Node.minify, OverrideFacts.visits, overrideFacts_names?,
    hlive]

/-- An override that is entered outside of raw elements, and cannot change the region once it
settled there, is not a changing one in the second run. -/
theorem not_mem_changing_withSpacedYield (ho : o ∈ a.live)
    (hchanging : o.name ∈ a.overrideFacts.changing) (hnested : o.name ∉ a.nestedNames)
    (hlost : ¬Node.changesRegionList a.overrideFacts.changing
      (settle a.overrideFacts .markup o.body).1 = true) :
    o.name ∉ (a.withSpacedYield o.name).optimize.overrideFacts.changing := by
  have hentry : (a.withSpacedYield o.name).entry o.name = .markup := by
    change entryRegion (a.withSpacedYield o.name).settledBody.2 a.nestedNames o.name = .markup
    rw [entryRegion, if_neg (by simpa using hnested), settledBody_withSpacedYield ho hchanging]
    simp [Region.common]
  intro h
  obtain ⟨o', ho', hname, hchanges⟩ := mem_changing_optimize.1 h
  have hsame : o'.body = o.body := by
    have hfirst : overrideOf a.preparedSections o.name = some o.body :=
      (overrideOf_of_mem_liveOverrides ho).2
    have hfirst' : overrideOf a.preparedSections o'.name = some o'.body :=
      (overrideOf_of_mem_liveOverrides ho').2
    rw [hname, hfirst] at hfirst'
    exact (Option.some.inj hfirst').symm
  rw [settledOverride, hname, hentry, hsame] at hchanges
  exact hlost hchanges

/-- An override that is a changing one in no run but the first makes a difference after a yield: the
second run knows the region there, and shortens the two spaces. -/
theorem not_idempotent_of_lost (ho : o ∈ a.live) (hchanging : o.name ∈ a.overrideFacts.changing)
    (hnested : o.name ∉ a.nestedNames)
    (hlost : ¬Node.changesRegionList a.overrideFacts.changing
      (settle a.overrideFacts .markup o.body).1 = true) :
    (a.withSpacedYield o.name).optimize.optimize ≠ (a.withSpacedYield o.name).optimize := by
  intro hsecond
  have hbody : (a.withSpacedYield o.name).optimize.body = spacedYield o.name :=
    congrArg Prod.fst (settledBody_withSpacedYield ho hchanging)
  have hlive : o.name ∈ (a.withSpacedYield o.name).optimize.liveNames := by
    rw [liveNames_optimize]
    exact List.mem_map.2 ⟨o, ho, rfl⟩
  have hfixed : (settle (a.withSpacedYield o.name).optimize.overrideFacts .markup
      (a.withSpacedYield o.name).optimize.preparedBody).1 = spacedYield o.name :=
    (congrArg Artifact.body hsecond).trans hbody
  have hstays := (stays_settle (a.withSpacedYield o.name).optimize.overrideFacts .markup
    (a.withSpacedYield o.name).optimize.preparedBody).1
  rw [hfixed, staysList_spacedYield, after?_yield hlive,
    if_neg (not_mem_changing_withSpacedYield ho hchanging hnested hlost), Option.getD_some,
    minified_spaces_markup] at hstays
  exact absurd hstays (by decide)

/-- **When optimizing is idempotent.** Over the overrides of an artifact, optimizing twice is
optimizing once for all bodies if and only if each changing override, unless another one renders it,
still can change the region once it settled outside of raw elements. -/
theorem optimize_optimize_iff (a : Artifact) :
    (∀ body, let b : Artifact := { a with body := body }; b.optimize.optimize = b.optimize) ↔
      a.KeepsChanging := by
  constructor
  · intro h o ho hchanging hnested
    by_contra hlost
    exact not_idempotent_of_lost ho hchanging hnested hlost (h (spacedYield o.name))
  · intro h body
    exact optimize_of_subset (@KeepsChanging.subset { a with body := body } h)

/-- A tag in a comment: the first run drops the comment, and the second one shortens the blanks
after the yield, which the first run kept because of the tag. -/
theorem shorter_blanks_in_second_run :
    let a : Artifact :=
      ⟨currentVersion, "page", [⟨"x", [.text "<!-- <pre> -->"]⟩], [.yield "x" none, .text "  a"], []⟩
    a.optimize.body = [.yield "x" none, .text "  a"] ∧
      a.optimize.optimize.body = [.yield "x" none, .text " a"] ∧
      a.optimize.optimize ≠ a.optimize := by
  intro a
  have hfirst : a.optimize.body = [.yield "x" none, .text "  a"] := by cbv
  have hsecond : a.optimize.optimize.body = [.yield "x" none, .text " a"] := by cbv
  refine ⟨hfirst, hsecond, fun h => ?_⟩
  rw [h, hfirst] at hsecond
  simp at hsecond

end Artifact

end Hashmark
