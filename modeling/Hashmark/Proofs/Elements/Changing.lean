import Mathlib.Data.List.Basic
import Hashmark.Proofs.Elements.Rewriting
import Hashmark.Proofs.Optimizing.Passes

/-!
# Overrides and regions

What the optimizer knows about overrides is right: an override that is not among the changing ones
leads to the region in which it is entered, since the names of the changing ones are closed
(`changingOnce_changingNames`). And it knows where an override is entered: either the region of its
entry is not known, or it is that of every visit (`Artifact.entry_of_visit`); an override that
another one may render has no known region (`Artifact.entry_of_nested`).
-/

namespace Hashmark

/-! ### Nodes that change no region -/

section Unchanging

variable {facts : OverrideFacts}

/-- After an override that is not a changing one, the region is the same. -/
theorem OverrideFacts.after?_of_not_changing {names : List String} (hnames : facts.names? = some names)
    {name : String} (h : name ∉ facts.changing) (region : Region) :
    facts.after? name region = if names.contains name then some region else none := by
  simp [OverrideFacts.after?, hnames, h]

mutual

/-- A node that changes no region ends in the region in which it is entered. -/
theorem Node.region_of_changesRegion {names : List String} (hnames : facts.names? = some names)
    (region : Region) : ∀ node : Node, node.changesRegion facts.changing = false →
    (node.minify facts region).region = region
  | .text _, h => minifyText_region h region
  | .emit value, h => by
    have hvalue : value.mayBeMarkup = false := h
    simp [Node.minify, hvalue]
  | .connect _, _ => rfl
  | .comment _, _ => rfl
  | .yield name _, h => by
    have hname : name ∉ facts.changing := by simpa [Node.changesRegion] using h
    rw [Node.minify, OverrideFacts.after?_of_not_changing hnames hname]
    split <;> rfl
  | .choose branches otherwise, h => by
    simp only [Node.changesRegion, Bool.or_eq_false_iff] at h
    have hbranches := Node.regions_of_changesRegion hnames region branches h.1
    cases otherwise with
    | none =>
      simp only [Node.minify, Node.minifyOption]
      refine common_eq (by simp) fun r hr => ?_
      rcases List.mem_append.1 hr with hr | hr
      · exact hbranches r hr
      · exact List.mem_singleton.1 hr
    | some body =>
      have hbody := Node.regionList_of_changesRegion hnames region body h.2
      simp only [Node.minify, Node.minifyOption]
      refine common_eq (by simp) fun r hr => ?_
      rcases List.mem_append.1 hr with hr | hr
      · exact hbranches r hr
      · rw [List.mem_singleton.1 hr, hbody]
  | .forEach source key value body, h => by
    have hbody := Node.regionList_of_changesRegion hnames region body h
    simp only [Node.minify, hbody, if_true]
  | .block name body, h => by
    simp only [Node.changesRegion, Bool.or_eq_false_iff] at h
    have hname : name ∉ facts.changing := by simpa using h.1
    have hbody := Node.regionList_of_changesRegion hnames region body h.2
    rw [Node.minify, OverrideFacts.after?_of_not_changing hnames hname]
    split
    · next after hafter =>
      split at hafter
      · cases hafter; rfl
      · cases hafter
    · exact hbody

theorem Node.regionList_of_changesRegion {names : List String} (hnames : facts.names? = some names)
    (region : Region) : ∀ nodes : List Node, Node.changesRegionList facts.changing nodes = false →
    (Node.minifyList facts region nodes).region = region
  | [], _ => rfl
  | node :: nodes, h => by
    simp only [Node.changesRegionList, Bool.or_eq_false_iff] at h
    simp only [Node.minifyList, Node.region_of_changesRegion hnames region node h.1,
      Node.regionList_of_changesRegion hnames region nodes h.2]

theorem Node.regions_of_changesRegion {names : List String} (hnames : facts.names? = some names)
    (region : Region) : ∀ branches : List (Expr × List Node),
    Node.changesRegionBranches facts.changing branches = false →
    ∀ r ∈ (Node.minifyBranches facts region branches).regions, r = region
  | [], _ => by simp [Node.minifyBranches]
  | (condition, body) :: branches, h => by
    simp only [Node.changesRegionBranches, Bool.or_eq_false_iff] at h
    simp only [Node.minifyBranches]
    exact List.forall_mem_cons.2 ⟨Node.regionList_of_changesRegion hnames region body h.1,
      Node.regions_of_changesRegion hnames region branches h.2⟩

end

end Unchanging

/-! ### Changing overrides -/

section Closed

variable {names more : List String}

mutual

/-- Whether a node can change the region depends on the names of its blocks and yields only. -/
theorem Node.changesRegion_of_names : ∀ node : Node,
    (∀ name ∈ node.partNames, name ∈ names → name ∈ more) →
    node.changesRegion names = true → node.changesRegion more = true
  | .text _, _, h => h
  | .emit _, _, h => h
  | .connect _, _, h => h
  | .comment _, _, h => h
  | .yield name _, hmore, h => by
    simp only [Node.changesRegion, List.contains_iff_mem] at h ⊢
    exact hmore name (List.mem_singleton.2 rfl) h
  | .choose branches otherwise, hmore, h => by
    obtain ⟨hbranches, hotherwise⟩ := List.forall_mem_append.1 hmore
    simp only [Node.changesRegion, Bool.or_eq_true] at h ⊢
    exact h.imp (Node.changesRegionBranches_of_names branches hbranches)
      (Node.changesRegionOption_of_names otherwise hotherwise)
  | .forEach source key value body, hmore, h => Node.changesRegionList_of_names body hmore h
  | .block name body, hmore, h => by
    obtain ⟨hname, hbody⟩ := List.forall_mem_cons.1 hmore
    simp only [Node.changesRegion, Bool.or_eq_true, List.contains_iff_mem] at h ⊢
    exact h.imp hname (Node.changesRegionList_of_names body hbody)

theorem Node.changesRegionList_of_names : ∀ nodes : List Node,
    (∀ name ∈ Node.partNamesOfList nodes, name ∈ names → name ∈ more) →
    Node.changesRegionList names nodes = true → Node.changesRegionList more nodes = true
  | [], _, h => h
  | node :: nodes, hmore, h => by
    obtain ⟨hnode, hnodes⟩ := List.forall_mem_append.1 hmore
    simp only [Node.changesRegionList, Bool.or_eq_true] at h ⊢
    exact h.imp (Node.changesRegion_of_names node hnode)
      (Node.changesRegionList_of_names nodes hnodes)

theorem Node.changesRegionBranches_of_names : ∀ branches : List (Expr × List Node),
    (∀ name ∈ Node.partNamesOfBranches branches, name ∈ names → name ∈ more) →
    Node.changesRegionBranches names branches = true →
    Node.changesRegionBranches more branches = true
  | [], _, h => h
  | (condition, body) :: branches, hmore, h => by
    obtain ⟨hbody, hbranches⟩ := List.forall_mem_append.1 hmore
    simp only [Node.changesRegionBranches, Bool.or_eq_true] at h ⊢
    exact h.imp (Node.changesRegionList_of_names body hbody)
      (Node.changesRegionBranches_of_names branches hbranches)

theorem Node.changesRegionOption_of_names : ∀ otherwise : Option (List Node),
    (∀ name ∈ Node.partNamesOfOption otherwise, name ∈ names → name ∈ more) →
    Node.changesRegionOption names otherwise = true →
    Node.changesRegionOption more otherwise = true
  | none, _, h => h
  | some body, hmore, h => Node.changesRegionList_of_names body hmore h

end

/-- With more names of overrides that can change the region, more nodes can. -/
theorem Node.changesRegionList_mono (hmore : names ⊆ more) (nodes : List Node)
    (h : Node.changesRegionList names nodes = true) : Node.changesRegionList more nodes = true :=
  Node.changesRegionList_of_names nodes (fun _ _ hname => hmore hname) h

variable (live : List Override)

theorem changingOnce_sublist (hmore : names ⊆ more) :
    (changingOnce live names).Sublist (changingOnce live more) :=
  (List.monotone_filter_right live fun o =>
    Node.changesRegionList_mono hmore o.body).map Override.name

theorem length_changingOnce_le (names : List String) :
    (changingOnce live names).length ≤ live.length := by
  rw [changingOnce, List.length_map]
  exact List.length_filter_le _ _

/-- Each round finds the names that the round before found. -/
theorem changingNames_sublist (rounds : Nat) :
    (changingNames live rounds).Sublist (changingNames live (rounds + 1)) := by
  induction rounds with
  | zero => exact List.nil_sublist _
  | succ rounds ih => exact changingOnce_sublist live ih.subset

/-- Each round finds another name, unless all are found. -/
theorem changingNames_succ (rounds : Nat) :
    changingNames live (rounds + 1) = changingNames live rounds ∨
      rounds < (changingNames live (rounds + 1)).length := by
  induction rounds with
  | zero =>
    cases hnames : changingNames live 1 with
    | nil => exact .inl rfl
    | cons name names => exact .inr (by simp)
  | succ rounds ih =>
    rcases ih with ih | ih
    · exact .inl (congrArg (changingOnce live) ih)
    · have hsub := changingNames_sublist live (rounds + 1)
      by_cases hless : (changingNames live (rounds + 1)).length <
          (changingNames live (rounds + 1 + 1)).length
      · exact .inr (by omega)
      · exact .inl (hsub.eq_of_length_le (by omega)).symm

/-- **All changing overrides are found.** Another round finds no other name. -/
theorem changingOnce_changingNames :
    changingOnce live (changingNames live live.length) = changingNames live live.length := by
  rcases changingNames_succ live live.length with h | h
  · exact h
  · have hle := length_changingOnce_le live (changingNames live live.length)
    rw [changingNames] at h
    omega

/-- An override that is not among the changing ones changes no region. -/
theorem changesRegionList_of_not_mem {o : Override} (ho : o ∈ live)
    (h : o.name ∉ changingNames live live.length) :
    Node.changesRegionList (changingNames live live.length) o.body = false := by
  by_contra hchanges
  rw [Bool.not_eq_false] at hchanges
  rw [← changingOnce_changingNames] at h
  exact h (List.mem_map.2 ⟨o, List.mem_filter.2 ⟨ho, hchanges⟩, rfl⟩)

end Closed

/-! ### Overrides that are rendered -/

theorem mem_liveOverrides {overrides : List Override} {seen : List String} {name : String}
    {body : List Node} (h : overrideOf overrides name = some body) (hseen : name ∉ seen) :
    ∃ o ∈ liveOverrides seen overrides, o.name = name ∧ o.body = body := by
  induction overrides generalizing seen with
  | nil => cases h
  | cons o os ih =>
    by_cases hname : o.name = name
    · have hbody : o.body = body := by simpa [overrideOf, hname] using h
      refine ⟨o, ?_, hname, hbody⟩
      rw [liveOverrides, if_neg (by simpa [hname] using hseen)]
      exact List.mem_cons_self
    · have hrest : overrideOf os name = some body := by simpa [overrideOf, hname] using h
      rw [liveOverrides]
      split
      · exact ih hrest hseen
      · obtain ⟨o', ho', h'⟩ := @ih (o.name :: seen) hrest (by simp [Ne.symm hname, hseen])
        exact ⟨o', List.mem_cons_of_mem _ ho', h'⟩

theorem mem_of_mem_liveOverrides {overrides : List Override} {seen : List String} {o : Override}
    (h : o ∈ liveOverrides seen overrides) : o ∈ overrides := by
  induction overrides generalizing seen with
  | nil => exact h
  | cons o' os ih =>
    rw [liveOverrides] at h
    split at h
    · exact List.mem_cons_of_mem _ (ih h)
    · rcases List.mem_cons.1 h with rfl | h
      · exact List.mem_cons_self
      · exact List.mem_cons_of_mem _ (ih h)

theorem overrideOf_eq_none {overrides : List Override} {name : String} :
    overrideOf overrides name = none ↔ ∀ o ∈ overrides, o.name ≠ name := by
  simp [overrideOf]

namespace Artifact

variable (a : Artifact)

/-- The names that have an override. -/
abbrev liveNames : List String :=
  (liveOverrides [] a.preparedSections).map Override.name

theorem overrideFacts_names? : a.overrideFacts.names? = some a.liveNames := rfl

variable {a} {name : String} {body : List Node}

theorem mem_liveNames (h : overrideOf a.preparedSections name = some body) :
    name ∈ a.liveNames := by
  obtain ⟨o, ho, hname, -⟩ := mem_liveOverrides h (List.not_mem_nil (a := name))
  exact List.mem_map.2 ⟨o, ho, hname⟩

theorem not_mem_liveNames (h : overrideOf a.preparedSections name = none) :
    name ∉ a.liveNames := by
  intro hmem
  obtain ⟨o, ho, hname⟩ := List.mem_map.1 hmem
  exact overrideOf_eq_none.1 h o (mem_of_mem_liveOverrides ho) hname

/-- Without an override of its name, a node itself counts. -/
theorem after?_of_none (h : overrideOf a.preparedSections name = none) (region : Region) :
    a.overrideFacts.after? name region = none := by
  simp [OverrideFacts.after?, overrideFacts_names?, not_mem_liveNames h]

/-- **Regions after overrides.** After an override the region is not known, or it is the one in which
the override is entered, and the override changes no region. -/
theorem after?_of_override (h : overrideOf a.preparedSections name = some body) (region : Region) :
    a.overrideFacts.after? name region = some .unknown ∨
      a.overrideFacts.after? name region = some region ∧
        ∀ start, (Node.minifyList a.overrideFacts start body).region = start := by
  have hname := mem_liveNames h
  simp only [OverrideFacts.after?, overrideFacts_names?, List.contains_iff_mem, hname, if_true]
  by_cases hchanging : name ∈ a.overrideFacts.changing
  · simp [hchanging]
  · refine .inr ⟨by simp [hchanging], fun start => ?_⟩
    obtain ⟨o, ho, rfl, rfl⟩ := mem_liveOverrides h (List.not_mem_nil (a := name))
    exact Node.regionList_of_changesRegion a.overrideFacts_names? start o.body
      (changesRegionList_of_not_mem _ ho hchanging)

theorem visits_of_override (h : overrideOf a.preparedSections name = some body) (region : Region) :
    a.overrideFacts.visits name region = [(name, region)] := by
  simp [OverrideFacts.visits, overrideFacts_names?, mem_liveNames h]

/-! ### Entries -/

/-- The region of an entry that the body visits. -/
theorem entry_of_visit {region : Region} (h : (name, region) ∈ a.settledBody.2) :
    a.entry name = .unknown ∨ a.entry name = region := by
  rw [entry, entryRegion]
  split
  · exact .inl rfl
  · rcases common_cases ((a.settledBody.2.filter (·.1 = name)).map (·.2)) with hunknown | hall
    · exact .inl hunknown
    · refine .inr (hall region (List.mem_map.2 ⟨(name, region), ?_, rfl⟩)).symm
      exact List.mem_filter.2 ⟨h, by simp⟩

/-- An override that another one may render is entered in a region that is not known. -/
theorem entry_of_nested (h : overrideOf a.preparedSections name = some body) {nested : String}
    (hnested : nested ∈ Node.partNamesOfList body) : a.entry nested = .unknown := by
  obtain ⟨o, ho, -, rfl⟩ := mem_liveOverrides h (List.not_mem_nil (a := name))
  rw [entry, entryRegion, if_pos]
  exact List.contains_iff_mem.2 (List.mem_flatMap.2 ⟨o, ho, hnested⟩)

end Artifact

section Visits

variable (facts : OverrideFacts)

theorem OverrideFacts.mem_visits {facts : OverrideFacts} {name : String} {region : Region}
    {visit : Visit} (h : visit ∈ facts.visits name region) : visit = (name, region) := by
  unfold OverrideFacts.visits at h
  split at h
  · exact List.mem_singleton.1 h
  · cases h

mutual

/-- A node visits overrides of its blocks and yields. -/
theorem Node.mem_partNames (region : Region) : ∀ (node : Node) {visit : Visit},
    visit ∈ (node.minify facts region).visits → visit.1 ∈ node.partNames
  | .text _, _, h => nomatch h
  | .emit _, _, h => nomatch h
  | .connect _, _, h => nomatch h
  | .comment _, _, h => nomatch h
  | .yield name _, visit, h => by
    rw [OverrideFacts.mem_visits h]
    exact List.mem_singleton.2 rfl
  | .choose branches otherwise, visit, h => by
    rw [Node.partNames, List.mem_append]
    cases otherwise with
    | none =>
      simp only [Node.minify, Node.minifyOption] at h
      exact .inl (Node.mem_partNamesOfBranches region branches h)
    | some body =>
      simp only [Node.minify, Node.minifyOption] at h
      exact (List.mem_append.1 h).imp (Node.mem_partNamesOfBranches region branches)
        (Node.mem_partNamesOfList region body)
  | .forEach source key value body, visit, h => by
    have honce := fun r => @Node.mem_partNamesOfList r body visit
    simp only [Node.minify] at h
    split at h
    · exact honce region h
    · rcases List.mem_append.1 h with h | h
      · exact honce region h
      · exact honce .unknown h
  | .block name body, visit, h => by
    have hbody := fun r => @Node.mem_partNamesOfList r body visit
    simp only [Node.minify] at h
    rw [Node.partNames, List.mem_cons]
    split at h
    · rcases List.mem_append.1 h with h | h
      · exact .inl (congrArg Prod.fst (OverrideFacts.mem_visits h))
      · exact .inr (hbody .unknown h)
    · exact .inr (hbody region h)

theorem Node.mem_partNamesOfList (region : Region) : ∀ (nodes : List Node) {visit : Visit},
    visit ∈ (Node.minifyList facts region nodes).visits → visit.1 ∈ Node.partNamesOfList nodes
  | [], _, h => nomatch h
  | node :: nodes, visit, h => by
    rw [Node.partNamesOfList, List.mem_append]
    simp only [Node.minifyList] at h
    exact (List.mem_append.1 h).imp (Node.mem_partNames region node)
      (Node.mem_partNamesOfList _ nodes)

theorem Node.mem_partNamesOfBranches (region : Region) :
    ∀ (branches : List (Expr × List Node)) {visit : Visit},
      visit ∈ (Node.minifyBranches facts region branches).visits →
      visit.1 ∈ Node.partNamesOfBranches branches
  | [], _, h => nomatch h
  | (condition, body) :: branches, visit, h => by
    rw [Node.partNamesOfBranches, List.mem_append]
    simp only [Node.minifyBranches] at h
    exact (List.mem_append.1 h).imp (Node.mem_partNamesOfList region body)
      (Node.mem_partNamesOfBranches region branches)

end

end Visits

end Hashmark
