import Hashmark.Proofs.Elements.Changing
import Hashmark.Proofs.Elements.Steadiness

/-!
# Following the region through a page

The optimizer follows the region from node to node without looking at data. This goes wrong in two
places (`Hazard`): a loop over markup, as what it emits is taken for plain text, and a block within
itself, as what it leaves out is taken to be rendered. Where a rendering meets none of them and all
texts are steady, the region is followed rightly: through branches, the passes of loops, blocks and
overrides, whatever the data are (`Artifact.keeps_rewriteList`). So the contents of raw elements stay
(`Artifact.keepsContents`).
-/

namespace Hashmark

/-! ### Hazards -/

/-- A place where the optimizer does not follow the region rightly. -/
inductive Hazard where
  /-- A loop over values that may be markup. -/
  | loop
  /-- A block that changes the region, within a block of its own name. -/
  | block
  deriving DecidableEq, Repr

section Hazards

variable (overrides : List Override) (changing : List String)

mutual

/-- The hazards that a rendering of a node may meet, while the names in `active` are being
rendered. -/
def Node.hazards (active : List String) (node : Node) : List Hazard :=
  match node with
  | .text _ | .emit _ | .connect _ | .comment _ => []
  | .choose branches otherwise =>
    Node.hazardsOfBranches active branches ++ Node.hazardsOfOption active otherwise
  | .forEach source _ _ body =>
    (if source.mayBeMarkup then [.loop] else []) ++ Node.hazardsOfList active body
  | .block name body =>
    if _ : name ∈ active then
      if (overrideOf overrides name).isNone && Node.changesRegionList changing body then [.block]
      else []
    else
      match _h : overrideOf overrides name with
      | some body => Node.hazardsOfList (name :: active) body
      | none => Node.hazardsOfList (name :: active) body
  | .yield name _ =>
    match _h : overrideOf overrides name with
    | some body =>
      if _ : name ∈ active then []
      else Node.hazardsOfList (name :: active) body
    | none => []
termination_by (enterable overrides active, sizeOf node)
decreasing_by
  · decreasing_tactic
  · decreasing_tactic
  · decreasing_tactic
  · exact Prod.Lex.left _ _ (enterable_cons_lt ‹_› ‹_›)
  · have := enterable_cons_le overrides name active
    rcases Nat.lt_or_eq_of_le this with h | h
    · exact Prod.Lex.left _ _ h
    · rw [h]; decreasing_tactic
  · exact Prod.Lex.left _ _ (enterable_cons_lt ‹_› ‹_›)

/-- The hazards of several nodes. -/
def Node.hazardsOfList (active : List String) (nodes : List Node) : List Hazard :=
  match nodes with
  | [] => []
  | node :: nodes => node.hazards active ++ Node.hazardsOfList active nodes
termination_by (enterable overrides active, sizeOf nodes)

/-- The hazards of the branches of a choice. -/
def Node.hazardsOfBranches (active : List String) (branches : List (Expr × List Node)) :
    List Hazard :=
  match branches with
  | [] => []
  | (_, body) :: branches =>
    Node.hazardsOfList active body ++ Node.hazardsOfBranches active branches
termination_by (enterable overrides active, sizeOf branches)

/-- The hazards of a body that may be absent. -/
def Node.hazardsOfOption (active : List String) (otherwise : Option (List Node)) : List Hazard :=
  match otherwise with
  | none => []
  | some body => Node.hazardsOfList active body
termination_by (enterable overrides active, sizeOf otherwise)

end

end Hazards

/-- The hazards that a rendering of an artifact may meet. -/
def Artifact.hazards (a : Artifact) : List Hazard :=
  Node.hazardsOfList a.preparedSections a.overrideFacts.changing [] a.preparedBody

section HazardEquations

variable {overrides : List Override} {changing active : List String} {name : String}
  {override : List Node}

theorem hazards_block_active (h : name ∈ active) (body : List Node) :
    Node.hazards overrides changing active (.block name body) =
      if (overrideOf overrides name).isNone && Node.changesRegionList changing body then [.block]
      else [] := by
  rw [Node.hazards, dif_pos h]

theorem hazards_block_override (h : name ∉ active) (ho : overrideOf overrides name = some override)
    (body : List Node) : Node.hazards overrides changing active (.block name body) =
      Node.hazardsOfList overrides changing (name :: active) override := by
  rw [Node.hazards, dif_neg h]
  split
  · next o ho' => rw [ho] at ho'; cases ho'; rfl
  · next ho' => rw [ho] at ho'; cases ho'

theorem hazards_block_own (h : name ∉ active) (ho : overrideOf overrides name = none)
    (body : List Node) : Node.hazards overrides changing active (.block name body) =
      Node.hazardsOfList overrides changing (name :: active) body := by
  rw [Node.hazards, dif_neg h]
  split
  · next o ho' => rw [ho] at ho'; cases ho'
  · rfl

theorem hazards_yield_override (h : name ∉ active) (ho : overrideOf overrides name = some override)
    (default : Option String) : Node.hazards overrides changing active (.yield name default) =
      Node.hazardsOfList overrides changing (name :: active) override := by
  rw [Node.hazards]
  split
  · next o ho' => rw [ho] at ho'; cases ho'; exact dif_neg h
  · next ho' => rw [ho] at ho'; cases ho'

end HazardEquations

/-! ### Plain values -/

/-- An expression that cannot be markup has a plain value, if the variables in view are plain. -/
theorem eval_plain_of_mayBeMarkup {s : Scopes} (hs : s.Plain) {value : Expr} {v : Value}
    (h : value.mayBeMarkup = false) (hv : value.eval .builtin s = .ok v) : v.Plain := by
  refine Expr.eval_plain hs value (fun callee hcallee => keepsPlain_builtin ?_) hv
  rintro rfl
  have hname := List.any_eq_false.1 h _ hcallee
  exact hname (by decide)

theorem not_mem_escape {v : Value} (h : v.Plain) : '<' ∉ (escape v).toList :=
  (escape_plain h).not_mem

/-! ### Rendering -/

section Render

variable {a : Artifact} {s : Scopes} {active : List String} {name : String}

/-- The overrides of an artifact, each minified for good from the region of its entry. -/
def Artifact.SettledSections (a : Artifact) (sections : List Override) : Prop :=
  ∀ name, overrideOf sections name = (overrideOf a.preparedSections name).map
    (Node.rewriteList settleText a.overrideFacts (a.entry name))

/-- Whether the overrides that are visited are entered from the region of the visit, or from a region
that is not known. -/
def Artifact.Entered (a : Artifact) (visits : List Visit) : Prop :=
  ∀ visit ∈ visits, a.entry visit.1 = .unknown ∨ a.entry visit.1 = visit.2

theorem Artifact.entered_append {visits more : List Visit} :
    a.Entered (visits ++ more) ↔ a.Entered visits ∧ a.Entered more :=
  List.forall_mem_append

/-- Within an override, all overrides are entered from a region that is not known. -/
theorem Artifact.entered_of_override {body : List Node}
    (h : overrideOf a.preparedSections name = some body) (region : Region) :
    a.Entered (Node.minifyList a.overrideFacts region body).visits :=
  fun _ hvisit => .inl (entry_of_nested h (Node.mem_partNamesOfList _ region body hvisit))

/-- An override keeps what it writes, if it does so from whatever region: it may be minified from a
region that is not known, and the optimizer may tell nothing about the region after it. -/
theorem keeps_override {entry region last : Region} {body : List Node}
    {x : Except CallFault (List String)} {y : Region → Except CallFault (List String)}
    (hkeeps : ∀ start, Simulates
      (Keeps start (Node.minifyList a.overrideFacts start body).region) x (y start))
    (hentry : entry = .unknown ∨ entry = region)
    (hlast : last = .unknown ∨ last = region ∧
      ∀ start, (Node.minifyList a.overrideFacts start body).region = start) :
    Simulates (Keeps region last) x (y entry) := by
  have hregion := hkeeps region
  rcases hentry with rfl | rfl
  · have hunknown := hkeeps .unknown
    cases x with
    | error e => exact hunknown
    | ok p =>
      obtain ⟨q, hq, hpq⟩ := hunknown
      refine ⟨q, hq, ?_⟩
      rcases hlast with rfl | ⟨rfl, hstays⟩
      · exact hpq.of_unknown
      · -- what the override writes is read on its own, as it is kept from this region too
        obtain ⟨p', -, hkept⟩ := hregion
        rw [hstays] at hkept
        rw [← (hpq.same rfl).2]
        refine ⟨fun _ => rfl, fun hunknown => ⟨hunknown, rfl⟩, hkept.reads⟩
  · refine hregion.mono fun hkept => hkept.weaken ?_
    exact hlast.imp id fun ⟨heq, hstays⟩ => (hstays _).trans heq.symm

section Invariant

variable (a : Artifact) (sections : List Override)

/-- Whether what a node writes is kept, from whatever region, when the texts are minified for good:
after it the page is read from the region that the optimizer tells, if it tells one. -/
def Artifact.KeepsNode (active : List String) (s : Scopes) (node : Node) : Prop :=
  ∀ region, s.Plain → AllOf Steady node.texts →
    node.hazards a.preparedSections a.overrideFacts.changing active = [] →
    a.Entered (node.minify a.overrideFacts region).visits →
    Simulates (Keeps region (node.minify a.overrideFacts region).region)
      (Node.render ⟨.builtin, a.preparedSections⟩ active s node)
      (Node.renderList ⟨.builtin, sections⟩ active s
        (node.rewrite settleText a.overrideFacts region))

/-- Whether what several nodes write is kept. -/
def Artifact.KeepsNodes (active : List String) (s : Scopes) (nodes : List Node) : Prop :=
  ∀ region, s.Plain → AllOf Steady (Node.textsOfList nodes) →
    Node.hazardsOfList a.preparedSections a.overrideFacts.changing active nodes = [] →
    a.Entered (Node.minifyList a.overrideFacts region nodes).visits →
    Simulates (Keeps region (Node.minifyList a.overrideFacts region nodes).region)
      (Node.renderList ⟨.builtin, a.preparedSections⟩ active s nodes)
      (Node.renderList ⟨.builtin, sections⟩ active s
        (Node.rewriteList settleText a.overrideFacts region nodes))

/-- Whether what a choice writes is kept, if the region that is told after it is that after each of
its bodies. -/
def Artifact.KeepsChoice (active : List String) (s : Scopes) (branches : List (Expr × List Node))
    (otherwise : Option (List Node)) : Prop :=
  ∀ region last, s.Plain →
    AllOf Steady (Node.textsOfBranches branches ++ Node.textsOfOption otherwise) →
    Node.hazardsOfBranches a.preparedSections a.overrideFacts.changing active branches = [] →
    Node.hazardsOfOption a.preparedSections a.overrideFacts.changing active otherwise = [] →
    a.Entered ((Node.minifyBranches a.overrideFacts region branches).visits ++
      ((Node.minifyOption a.overrideFacts region otherwise).map Minified.visits).getD []) →
    (last = .unknown ∨ ∀ r ∈ (Node.minifyBranches a.overrideFacts region branches).regions ++
      [((Node.minifyOption a.overrideFacts region otherwise).map Minified.region).getD region],
      r = last) →
    Simulates (Keeps region last)
      (Node.renderChoice ⟨.builtin, a.preparedSections⟩ active s branches otherwise)
      (Node.renderChoice ⟨.builtin, sections⟩ active s
        (Node.rewriteBranches settleText a.overrideFacts region branches)
        (Node.rewriteOption settleText a.overrideFacts region otherwise))

end Invariant

variable {sections : List Override}

theorem Artifact.SettledSections.none (hsections : a.SettledSections sections)
    (ho : overrideOf a.preparedSections name = none) : overrideOf sections name = none := by
  rw [hsections, ho]
  rfl

theorem Artifact.SettledSections.some (hsections : a.SettledSections sections) {body : List Node}
    (ho : overrideOf a.preparedSections name = some body) : overrideOf sections name =
      some (Node.rewriteList settleText a.overrideFacts (a.entry name) body) := by
  rw [hsections, ho]
  rfl

theorem keepsNode_text (content : String) : a.KeepsNode sections active s (.text content) := by
  intro region _ htexts _ _
  have hkeeps := (allOf_singleton.1 htexts).keeps region
  change Simulates (Keeps region (minifyText region content).2) _ _
  rw [Node.render, Node.rewrite]
  split
  · next hempty =>
    rw [Node.renderList]
    exact .ok (by simpa [hempty] using hkeeps)
  · rw [renderList_singleton, Node.render]
    exact .ok (by simpa using hkeeps)

theorem keepsNode_emit (value : Expr) : a.KeepsNode sections active s (.emit value) := by
  intro region hs _ _ _
  rw [Node.rewrite, renderList_singleton, Node.render, Node.render]
  refine .bind _ fun v hv => .ok ?_
  rw [Node.minify]
  dsimp only
  split
  · exact .lost _ _
  · next hplain =>
    have hv := eval_plain_of_mayBeMarkup hs (Bool.not_eq_true _ ▸ hplain) hv
    exact .of_not_mem region (by simpa using not_mem_escape hv)

theorem keepsNode_choose {branches : List (Expr × List Node)} {otherwise : Option (List Node)}
    (ih : a.KeepsChoice sections active s branches otherwise) :
    a.KeepsNode sections active s (.choose branches otherwise) := by
  intro region hs htexts hhazards hentered
  rw [Node.hazards, List.append_eq_nil_iff] at hhazards
  rw [Node.rewrite, renderList_singleton, Node.render, Node.render]
  refine ih region _ hs (by simpa only [Node.texts] using htexts) hhazards.1 hhazards.2 ?_ ?_
  · cases otherwise <;> simpa [Node.minify, Node.minifyOption] using hentered
  · cases otherwise <;> exact common_cases _

theorem keepsNode_forEach {source : Expr} {key : Option String} {value : String}
    {body : List Node} (ih : ∀ s, a.KeepsNodes sections active s body) :
    a.KeepsNode sections active s (.forEach source key value body) := by
  intro region hs htexts hhazards hentered
  rw [Node.hazards, List.append_eq_nil_iff] at hhazards
  have hplain : source.mayBeMarkup = false := by simpa using hhazards.1
  have hpass : ∀ start, a.Entered (Node.minifyList a.overrideFacts start body).visits →
      ∀ v, source.eval .builtin s = .ok v → ∀ s' ∈ s.passes key value v,
      Simulates (Keeps start (Node.minifyList a.overrideFacts start body).region)
        (Node.renderList ⟨.builtin, a.preparedSections⟩ active s' body)
        (Node.renderList ⟨.builtin, sections⟩ active s'
          (Node.rewriteList settleText a.overrideFacts start body)) :=
    fun start hvisits v hv s' hs' => ih s' start
      (hs.passes (eval_plain_of_mayBeMarkup hs hplain hv) hs')
      (by simpa only [Node.texts] using htexts) hhazards.2 hvisits
  by_cases hstays : (Node.minifyList a.overrideFacts region body).region = region
  · simp only [Node.minify, hstays, if_true] at hentered ⊢
    rw [Node.rewrite, if_pos hstays, renderList_singleton, Node.render, Node.render]
    refine .bind _ fun v hv => .passes (Keeps.congruent region) fun s' hs' => ?_
    simpa only [hstays] using hpass region hentered v hv s' hs'
  · -- a pass may start in another region, so nothing is told about any of them
    simp only [Node.minify, if_neg hstays] at hentered ⊢
    rw [Node.rewrite, if_neg hstays, renderList_singleton, Node.render, Node.render,
      Node.minifyList_unknown]
    have hagain := (Artifact.entered_append.1 hentered).2
    refine .bind _ fun v hv => ?_
    refine (Simulates.passes (Keeps.congruent .unknown) fun s' hs' => ?_).mono Keeps.of_unknown
    simpa only [Node.minifyList_unknown] using hpass .unknown hagain v hv s' hs'

/-- A block or a yield of a name that is being rendered writes nothing. -/
theorem keepsNode_block_active (hactive : name ∈ active) (body : List Node) :
    a.KeepsNode sections active s (.block name body) := by
  intro region _ _ hhazards _
  have hrewrite : ∃ body', Node.rewrite settleText a.overrideFacts region (.block name body) =
      [.block name body'] := by
    rw [Node.rewrite]
    split <;> exact ⟨_, rfl⟩
  obtain ⟨body', hrewrite⟩ := hrewrite
  rw [hrewrite, renderList_singleton, render_block_active hactive, render_block_active hactive]
  rw [hazards_block_active hactive] at hhazards
  refine .ok (show Keeps region _ [] [] from ?_)
  cases ho : overrideOf a.preparedSections name with
  | some override =>
    rcases Artifact.after?_of_override ho region with hafter | ⟨hafter, -⟩
    · simpa only [Node.minify, hafter] using Keeps.lost region []
    · simpa only [Node.minify, hafter] using Keeps.nil region
  | none =>
    have hstays := Node.regionList_of_changesRegion a.overrideFacts_names? region body
      (by simpa [ho] using hhazards)
    simpa only [Node.minify, Artifact.after?_of_none ho, hstays] using Keeps.nil region

theorem keepsNode_block_override (ht : AllOf Steady a.preparedTexts)
    (hsections : a.SettledSections sections) (hactive : name ∉ active) {override : List Node}
    (ho : overrideOf a.preparedSections name = some override) (body : List Node)
    (ih : a.KeepsNodes sections (name :: active) s override) :
    a.KeepsNode sections active s (.block name body) := by
  intro region hs _ hhazards hentered
  rw [hazards_block_override hactive ho] at hhazards
  have hkeeps := fun start => ih start hs (texts_preparedSections ht ho) hhazards
    (Artifact.entered_of_override ho start)
  have hrewrite : Node.rewrite settleText a.overrideFacts region (.block name body) =
      [.block name (Node.rewriteList settleText a.overrideFacts .unknown body)] := by
    rw [Node.rewrite, if_pos]
    rcases Artifact.after?_of_override ho region with hafter | ⟨hafter, -⟩ <;> rw [hafter] <;> rfl
  rw [hrewrite, renderList_singleton, render_block_override hactive ho,
    render_block_override hactive (hsections.some ho)]
  rcases Artifact.after?_of_override ho region with hafter | ⟨hafter, hstays⟩
  · simp only [Node.minify, hafter, Artifact.visits_of_override ho] at hentered ⊢
    exact keeps_override hkeeps (hentered (name, region) (by simp)) (.inl rfl)
  · simp only [Node.minify, hafter, Artifact.visits_of_override ho] at hentered ⊢
    exact keeps_override hkeeps (hentered (name, region) (by simp)) (.inr ⟨rfl, hstays⟩)

theorem keepsNode_block_own (hsections : a.SettledSections sections) (hactive : name ∉ active)
    (ho : overrideOf a.preparedSections name = none) {body : List Node}
    (ih : a.KeepsNodes sections (name :: active) s body) :
    a.KeepsNode sections active s (.block name body) := by
  intro region hs htexts hhazards hentered
  rw [hazards_block_own hactive ho] at hhazards
  simp only [Node.minify, Artifact.after?_of_none ho] at hentered ⊢
  rw [Node.rewrite, Artifact.after?_of_none ho, if_neg (by simp), renderList_singleton,
    render_block_own hactive ho, render_block_own hactive (hsections.none ho)]
  exact ih region hs (by simpa only [Node.texts] using htexts) hhazards hentered

theorem keepsNode_yield_active (hsections : a.SettledSections sections) (hactive : name ∈ active)
    {override : List Node} (ho : overrideOf a.preparedSections name = some override)
    (default : Option String) : a.KeepsNode sections active s (.yield name default) := by
  intro region _ _ _ _
  rw [Node.rewrite, renderList_singleton, render_yield_active hactive ho,
    render_yield_active hactive (hsections.some ho)]
  refine .ok (show Keeps region _ [] [] from ?_)
  rw [Node.minify]
  rcases Artifact.after?_of_override ho region with hafter | ⟨hafter, -⟩ <;> rw [hafter]
  · exact .lost region []
  · exact .nil region

theorem keepsNode_yield_override (ht : AllOf Steady a.preparedTexts)
    (hsections : a.SettledSections sections) (hactive : name ∉ active) {override : List Node}
    (ho : overrideOf a.preparedSections name = some override) (default : Option String)
    (ih : a.KeepsNodes sections (name :: active) s override) :
    a.KeepsNode sections active s (.yield name default) := by
  intro region hs _ hhazards hentered
  rw [hazards_yield_override hactive ho] at hhazards
  have hkeeps := fun start => ih start hs (texts_preparedSections ht ho) hhazards
    (Artifact.entered_of_override ho start)
  rw [Node.rewrite, renderList_singleton, render_yield_override hactive ho,
    render_yield_override hactive (hsections.some ho)]
  simp only [Node.minify, Artifact.visits_of_override ho] at hentered ⊢
  rcases Artifact.after?_of_override ho region with hafter | ⟨hafter, hstays⟩
  · rw [hafter]
    exact keeps_override hkeeps (hentered (name, region) (by simp)) (.inl rfl)
  · rw [hafter]
    exact keeps_override hkeeps (hentered (name, region) (by simp)) (.inr ⟨rfl, hstays⟩)

theorem keepsNode_yield_default (hsections : a.SettledSections sections)
    (ho : overrideOf a.preparedSections name = none) (default : Option String) :
    a.KeepsNode sections active s (.yield name default) := by
  intro region _ _ _ _
  rw [Node.rewrite, renderList_singleton, render_yield_default ho,
    render_yield_default (hsections.none ho)]
  simp only [Node.minify, Artifact.after?_of_none ho, Option.getD_none]
  refine .ok (.of_not_mem region ?_)
  cases default with
  | none => simp
  | some text => simpa using (noMarkup_escapeText text).not_mem

theorem keepsNodes_cons {node : Node} {nodes : List Node}
    (ih : a.KeepsNode sections active s node) (ihs : a.KeepsNodes sections active s nodes) :
    a.KeepsNodes sections active s (node :: nodes) := by
  intro region hs htexts hhazards hentered
  obtain ⟨hnode, hnodes⟩ := allOf_append.1 htexts
  rw [Node.hazardsOfList, List.append_eq_nil_iff] at hhazards
  obtain ⟨hfirst, hrest⟩ := Artifact.entered_append.1 hentered
  rw [Node.rewriteList, renderList_append, Node.renderList]
  refine Simulates.append_of (ih region hs hnode hhazards.1 hfirst) fun hkept => ?_
  exact (ihs _ hs hnodes hhazards.2 hrest).mono fun hkept' => hkept.append hkept'

theorem keepsChoice_otherwise {body : List Node} (ih : a.KeepsNodes sections active s body) :
    a.KeepsChoice sections active s [] (some body) := by
  intro region last hs htexts _ hhazards hentered hlast
  rw [Node.hazardsOfOption] at hhazards
  simp only [Node.minifyBranches, Node.minifyOption] at hentered hlast
  rw [Node.rewriteBranches, Node.rewriteOption, Node.renderChoice, Node.renderChoice]
  refine (ih region hs ?_ hhazards ?_).mono fun hkept => hkept.weaken (hlast.imp id fun hall => ?_)
  · simpa [Node.textsOfBranches, Node.textsOfOption] using htexts
  · simpa using hentered
  · exact hall _ (by simp)

theorem keepsChoice_no_branch : a.KeepsChoice sections active s [] none := by
  intro region last _ _ _ _ _ hlast
  rw [Node.rewriteBranches, Node.rewriteOption, Node.renderChoice, Node.renderChoice]
  refine .ok ((Keeps.nil region).weaken (hlast.imp id fun hall => ?_))
  exact hall _ (by simp [Node.minifyOption])

theorem keepsChoice_branch {otherwise : Option (List Node)} {condition : Expr} {body : List Node}
    {branches : List (Expr × List Node)} (ih : a.KeepsNodes sections active s body)
    (ihs : a.KeepsChoice sections active s branches otherwise) :
    a.KeepsChoice sections active s ((condition, body) :: branches) otherwise := by
  intro region last hs htexts hhazards hotherwise hentered hlast
  rw [Node.textsOfBranches, List.append_assoc] at htexts
  obtain ⟨hbody, hrest⟩ := allOf_append.1 htexts
  rw [Node.hazardsOfBranches, List.append_eq_nil_iff] at hhazards
  simp only [Node.minifyBranches, List.append_assoc, List.cons_append] at hentered hlast
  obtain ⟨hfirst, hmore⟩ := Artifact.entered_append.1 hentered
  rw [Node.rewriteBranches, Node.renderChoice, Node.renderChoice]
  refine .bind _ fun v _ => ?_
  split
  · refine (ih region hs hbody hhazards.1 hfirst).mono fun hkept => hkept.weaken ?_
    exact hlast.imp id fun hall => hall _ List.mem_cons_self
  · refine ihs region last hs hrest hhazards.2 hotherwise hmore ?_
    exact hlast.imp id fun hall => (List.forall_mem_cons.1 hall).2

/-- A node that writes nothing. -/
theorem keepsNode_nothing {node : Node} (hnode : ∀ overrides active s,
      Node.render ⟨.builtin, overrides⟩ active s node = .ok [])
    (hregion : ∀ region, (node.minify a.overrideFacts region).region = region)
    (hrewrite : ∀ region, node.rewrite settleText a.overrideFacts region = [node]) :
    a.KeepsNode sections active s node := by
  intro region _ _ _ _
  rw [hrewrite, renderList_singleton, hnode, hnode, hregion]
  exact .ok (.nil region)

/-- **Following the region.** Without hazards and with steady texts, what nodes write from a region
is kept when they are minified for good, and after them the page is read from the region that the
optimizer tells, if it tells one. -/
theorem Artifact.keepsNodes (ht : AllOf Steady a.preparedTexts)
    (hsections : a.SettledSections sections) (active : List String) (s : Scopes)
    (nodes : List Node) : a.KeepsNodes sections active s nodes := by
  refine (Node.render.mutual_induct ⟨.builtin, a.preparedSections⟩ (a.KeepsNode sections)
    (a.KeepsNodes sections) (a.KeepsChoice sections)
    ?text ?comment ?connect ?emit ?choose ?forEach ?block_active ?block_override ?block_own
    ?yield_active ?yield_override ?yield_default ?nil ?cons ?otherwise ?no_branch ?branch).2.1
    active s nodes
  case text => exact fun _ _ content => keepsNode_text content
  case comment | connect =>
    exact fun _ _ _ => keepsNode_nothing (fun _ _ _ => by rw [Node.render]) (fun _ => rfl)
      (fun _ => rfl)
  case emit => exact fun _ _ value => keepsNode_emit value
  case choose => exact fun _ _ _ _ ih => keepsNode_choose ih
  case forEach => exact fun _ _ _ _ _ _ ih => keepsNode_forEach ih
  case block_active => exact fun _ _ _ body hactive => keepsNode_block_active hactive body
  case block_override =>
    exact fun _ _ _ body hactive _ ho ih => keepsNode_block_override ht hsections hactive ho body ih
  case block_own => exact fun _ _ _ _ hactive ho ih => keepsNode_block_own hsections hactive ho ih
  case yield_active =>
    exact fun _ _ _ default _ ho hactive => keepsNode_yield_active hsections hactive ho default
  case yield_override =>
    exact fun _ _ _ default _ ho hactive ih =>
      keepsNode_yield_override ht hsections hactive ho default ih
  case yield_default => exact fun _ _ _ default ho => keepsNode_yield_default hsections ho default
  case nil =>
    intro active s region _ _ _ _
    rw [Node.rewriteList, Node.renderList, Node.renderList]
    exact .ok (.nil region)
  case cons => exact fun _ _ _ _ ih ihs => keepsNodes_cons ih ihs
  case otherwise => exact fun _ _ _ ih => keepsChoice_otherwise ih
  case no_branch => exact fun _ _ => keepsChoice_no_branch
  case branch => exact fun _ _ _ _ _ _ ih ihs => keepsChoice_branch ih ihs

end Render

/-! ### Artifacts -/

/-- Whether the raw elements of what an artifact writes have the same contents before and after it is
optimized, for all data and the built-in callables. -/
def Artifact.KeepsContents (a : Artifact) : Prop :=
  ∀ data : Json,
    match a.render .builtin (.ofJson data) with
    | .error e => a.optimize.render .builtin (.ofJson data) = .error e
    | .ok out => ∃ out', a.optimize.render .builtin (.ofJson data) = .ok out' ∧
        contents out.toList = contents out'.toList

theorem Artifact.settledSections_optimize {a : Artifact} (ht : AllOf Steady a.preparedTexts) :
    a.SettledSections a.optimize.sections := by
  intro name
  rw [a.overrideOf_optimize]
  cases ho : overrideOf a.preparedSections name with
  | none => rfl
  | some body =>
    have hstable : AllOf Stable (Node.textsOfList body) :=
      fun text htext => (texts_preparedSections ht ho text htext).stable
    exact congrArg some (congrArg Prod.fst (settle_eq a.overrideFacts (a.entry name) hstable))

/-- **Raw elements stay.** The raw elements of what an artifact writes have the same contents before
and after it is optimized, if its texts are steady and its rendering meets no hazard. -/
theorem Artifact.keepsContents (a : Artifact) (ht : AllOf Steady a.preparedTexts)
    (hhazards : a.hazards = []) : a.KeepsContents := by
  intro data
  obtain ⟨hbody, -⟩ := allOf_append.1 ht
  have hstable : AllOf Stable (Node.textsOfList a.preparedBody) :=
    fun text htext => (hbody text htext).stable
  have hsettled : a.settledBody = (Node.rewriteList settleText a.overrideFacts .markup a.preparedBody,
      (Node.minifyList a.overrideFacts .markup a.preparedBody).visits) :=
    settle_eq a.overrideFacts .markup hstable
  have hentered : a.Entered (Node.minifyList a.overrideFacts .markup a.preparedBody).visits :=
    fun visit hvisit => Artifact.entry_of_visit (by rw [hsettled]; exact hvisit)
  have hprepared : Simulates (· = ·)
      (Node.renderList ⟨.builtin, a.sections⟩ [] (.ofJson data) a.body)
      (Node.renderList ⟨.builtin, a.preparedSections⟩ [] (.ofJson data) a.preparedBody) :=
    renderList_prepareParts .builtin a.sections [] (.ofJson data) a.body
  have hkeeps := Simulates.of_eq hprepared (Artifact.keepsNodes ht
    (Artifact.settledSections_optimize ht) [] (.ofJson data) a.preparedBody .markup
    (Scopes.plain_ofJson data) hbody hhazards hentered)
  have hoptimized : a.optimize.body =
      Node.rewriteList settleText a.overrideFacts .markup a.preparedBody := by
    rw [a.optimize_body, hsettled]
  rw [← hoptimized] at hkeeps
  exact Artifact.render_of_simulates (a := a) (b := a.optimize) rfl (hkeeps.mono Keeps.contents_eq)

end Hashmark
