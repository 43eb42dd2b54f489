import Hashmark.Proofs.Elements.Settling
import Hashmark.Proofs.Optimizing.Tidiness

/-!
# Passes that know less

A pass that starts where less is known, or that counts more overrides among the changing ones, knows
no more of any region than a pass that does not (`Node.covers_minifyList`). A text that stays as it
is in a known region also stays so where the region is not known. So nodes that a pass leaves as
they are stay so under a pass that knows less (`Node.staysList_of_covers`), and a pass that knows
nothing at first changes no tidy nodes (`Node.staysList_unknown`).
-/

namespace Hashmark

/-- Whether a region is another one, or is not known. -/
def Region.Covers (vague region : Region) : Prop :=
  vague = region ∨ vague = .unknown

/-- Whether facts are about the same overrides as others, and count at least as many of them among
the changing ones. -/
structure OverrideFacts.Covers (vague facts : OverrideFacts) : Prop where
  names? : vague.names? = facts.names?
  changing : facts.changing ⊆ vague.changing

/-- Whether each of some regions is covered by one of others, and there are others only if there are
any. -/
structure CoversRegions (vague regions : List Region) : Prop where
  covers : ∀ {region}, region ∈ regions → ∃ region' ∈ vague, region'.Covers region
  none : regions = [] → vague = []

/-- The regions in which some visits enter an override. -/
def regionsOf (visits : List Visit) (name : String) : List Region :=
  (visits.filter (·.1 = name)).map (·.2)

/-- Whether some visits cover others, override by override. -/
def CoversVisits (vague visits : List Visit) : Prop :=
  ∀ name, CoversRegions (regionsOf vague name) (regionsOf visits name)

/-! ### Regions -/

section Regions

variable {region region' : Region}

theorem Region.Covers.refl (region : Region) : region.Covers region :=
  .inl rfl

theorem Region.covers_unknown (region : Region) : Region.unknown.Covers region :=
  .inr rfl

/-- A pass that knows less and yet ends where it starts, unlike one that knows more, does not know
where it starts. -/
theorem Region.Covers.eq_unknown_of_end {last last' : Region} (h : region'.Covers region)
    (hlast : last'.Covers last) (hmoves : last ≠ region) (hstays : last' = region') :
    region' = .unknown := by
  rcases h with rfl | rfl
  · rcases hlast with rfl | rfl
    · exact absurd hstays hmoves
    · exact hstays.symm
  · rfl

end Regions

namespace CoversRegions

variable {vague vague' regions regions' : List Region}

theorem nil : CoversRegions [] [] :=
  ⟨nofun, fun _ => rfl⟩

theorem single {region region' : Region} (h : region'.Covers region) :
    CoversRegions [region'] [region] := by
  refine ⟨fun hmem => ⟨region', List.mem_singleton.2 rfl, ?_⟩, nofun⟩
  rwa [List.mem_singleton.1 hmem]

theorem append (h : CoversRegions vague regions) (h' : CoversRegions vague' regions') :
    CoversRegions (vague ++ vague') (regions ++ regions') := by
  constructor
  · intro region hmem
    rcases List.mem_append.1 hmem with hmem | hmem
    · obtain ⟨region', hmem', hcovers⟩ := h.covers hmem
      exact ⟨region', List.mem_append_left _ hmem', hcovers⟩
    · obtain ⟨region', hmem', hcovers⟩ := h'.covers hmem
      exact ⟨region', List.mem_append_right _ hmem', hcovers⟩
  · intro hnil
    obtain ⟨hregions, hregions'⟩ := List.append_eq_nil_iff.1 hnil
    rw [h.none hregions, h'.none hregions', List.append_nil]

/-- Regions that are covered twice. -/
theorem append_left (h : CoversRegions vague regions) (h' : CoversRegions vague' regions) :
    CoversRegions (vague ++ vague') regions := by
  refine ⟨fun hmem => ?_, fun hnil => by rw [h.none hnil, h'.none hnil, List.append_nil]⟩
  obtain ⟨region', hmem', hcovers⟩ := h.covers hmem
  exact ⟨region', List.mem_append_left _ hmem', hcovers⟩

/-- Regions that cover others twice. -/
theorem append_right (h : CoversRegions vague regions) (h' : CoversRegions vague regions') :
    CoversRegions vague (regions ++ regions') :=
  ⟨fun hmem => (List.mem_append.1 hmem).elim h.covers h'.covers,
    fun hnil => h.none (List.append_eq_nil_iff.1 hnil).1⟩

/-- What several places have in common is known only where it is known of each place. -/
theorem common (h : CoversRegions vague regions) :
    (Region.common vague).Covers (Region.common regions) := by
  by_cases hcommon : Region.common vague = .unknown
  · exact .inr hcommon
  · have hall := (common_cases vague).resolve_left hcommon
    refine .inl (common_eq (fun hnil => ?_) fun region hmem => ?_).symm
    · rw [h.none hnil] at hcommon
      exact hcommon rfl
    · obtain ⟨region', hmem', hcovers⟩ := h.covers hmem
      rcases hcovers with rfl | rfl
      · exact hall _ hmem'
      · exact absurd (hall _ hmem').symm hcommon

end CoversRegions

namespace CoversVisits

variable {vague vague' visits visits' : List Visit}

theorem regionsOf_append (visits more : List Visit) (name : String) :
    regionsOf (visits ++ more) name = regionsOf visits name ++ regionsOf more name := by
  simp [regionsOf]

theorem nil : CoversVisits [] [] :=
  fun _ => .nil

theorem single (name : String) {region region' : Region} (h : region'.Covers region) :
    CoversVisits [(name, region')] [(name, region)] := by
  intro other
  by_cases hname : name = other
  · simpa [regionsOf, hname] using CoversRegions.single h
  · simpa [regionsOf, hname] using CoversRegions.nil

theorem append (h : CoversVisits vague visits) (h' : CoversVisits vague' visits') :
    CoversVisits (vague ++ vague') (visits ++ visits') := by
  intro name
  rw [regionsOf_append, regionsOf_append]
  exact (h name).append (h' name)

/-- Visits that are covered twice. -/
theorem append_left (h : CoversVisits vague visits) (h' : CoversVisits vague' visits) :
    CoversVisits (vague ++ vague') visits := by
  intro name
  rw [regionsOf_append]
  exact (h name).append_left (h' name)

/-- Visits that cover others twice. -/
theorem append_right (h : CoversVisits vague visits) (h' : CoversVisits vague visits') :
    CoversVisits vague (visits ++ visits') := by
  intro name
  rw [regionsOf_append]
  exact (h name).append_right (h' name)

end CoversVisits

/-! ### Passes -/

section Passes

variable {vague facts : OverrideFacts}

theorem OverrideFacts.Covers.isSome_after? (hfacts : vague.Covers facts) (name : String)
    (region region' : Region) :
    (vague.after? name region').isSome = (facts.after? name region).isSome := by
  unfold OverrideFacts.after?
  rw [hfacts.names?]
  split
  · rfl
  · split <;> rfl

theorem after?_eq_none_of_covers (hfacts : vague.Covers facts) {name : String}
    {region region' : Region} (h : facts.after? name region = none) :
    vague.after? name region' = none := by
  have hisSome := hfacts.isSome_after? name region region'
  rwa [h, Option.isSome_none, Option.isSome_eq_false_iff, Option.isNone_iff_eq_none] at hisSome

/-- After an override, the region is known to no more passes than before. -/
theorem OverrideFacts.Covers.covers_after? (hfacts : vague.Covers facts) {name : String}
    {region region' after : Region} (h : region'.Covers region)
    (hafter : facts.after? name region = some after) :
    ∃ after', vague.after? name region' = some after' ∧ after'.Covers after := by
  unfold OverrideFacts.after? at hafter ⊢
  rw [hfacts.names?]
  split at hafter
  · cases hafter
    exact ⟨_, rfl, .refl _⟩
  · split at hafter
    · next hname =>
      cases hafter
      rw [if_pos hname]
      refine ⟨_, rfl, ?_⟩
      simp only [List.contains_iff_mem]
      by_cases hchanging : name ∈ facts.changing
      · rw [if_pos (hfacts.changing hchanging)]
        exact Region.covers_unknown _
      · rw [if_neg hchanging]
        split
        · exact Region.covers_unknown _
        · exact h
    · cases hafter

theorem OverrideFacts.Covers.covers_visits (hfacts : vague.Covers facts) (name : String)
    {region region' : Region} (h : region'.Covers region) :
    CoversVisits (vague.visits name region') (facts.visits name region) := by
  unfold OverrideFacts.visits
  rw [hfacts.names?]
  split
  · exact .single name h
  · exact .nil

mutual

/-- A pass that knows less of the start knows less of the end and of the visits of a node. -/
theorem Node.covers_minify (hfacts : vague.Covers facts) {region region' : Region}
    (h : region'.Covers region) : ∀ node : Node,
    (node.minify vague region').region.Covers (node.minify facts region).region ∧
      CoversVisits (node.minify vague region').visits (node.minify facts region).visits
  | .text content => by
    refine ⟨?_, .nil⟩
    rcases h with rfl | rfl
    · exact .refl _
    · exact Region.covers_unknown _
  | .emit value => by
    refine ⟨?_, .nil⟩
    dsimp only [Node.minify]
    split
    · exact .refl _
    · exact h
  | .connect _ => ⟨h, .nil⟩
  | .comment _ => ⟨h, .nil⟩
  | .yield name _ => by
    refine ⟨?_, hfacts.covers_visits name h⟩
    dsimp only [Node.minify]
    cases hafter : facts.after? name region with
    | some after =>
      obtain ⟨after', hafter', hcovers⟩ := hfacts.covers_after? h hafter
      rwa [hafter']
    | none => rwa [after?_eq_none_of_covers hfacts hafter]
  | .choose branches otherwise => by
    obtain ⟨hregions, hvisits⟩ := Node.covers_minifyBranches hfacts h branches
    cases otherwise with
    | none =>
      exact ⟨(hregions.append (.single h)).common, hvisits⟩
    | some body =>
      obtain ⟨hregion, hbody⟩ := Node.covers_minifyList hfacts h body
      exact ⟨(hregions.append (.single hregion)).common, hvisits.append hbody⟩
  | .forEach source key value body => by
    obtain ⟨honce, hvisits⟩ := Node.covers_minifyList hfacts h body
    obtain ⟨hagain, hvisits'⟩ := Node.covers_minifyList hfacts (Region.Covers.refl .unknown) body
    obtain ⟨-, hmixed⟩ := Node.covers_minifyList hfacts (Region.covers_unknown region) body
    dsimp only [Node.minify]
    -- a pass goes through a loop again, from no known region, if the body leads out of its start
    by_cases hstays : (Node.minifyList facts region body).region = region <;>
      by_cases hstays' : (Node.minifyList vague region' body).region = region'
    · rw [if_pos hstays, if_pos hstays']
      exact ⟨h, hvisits⟩
    · rw [if_pos hstays, if_neg hstays', Node.minifyList_unknown]
      exact ⟨Region.covers_unknown _, hvisits.append_left hmixed⟩
    · -- the vaguer pass stays in its region only where that is not known
      obtain rfl := h.eq_unknown_of_end honce hstays hstays'
      rw [if_neg hstays, if_pos hstays', Node.minifyList_unknown]
      exact ⟨.refl _, hvisits.append_right hvisits'⟩
    · rw [if_neg hstays, if_neg hstays']
      exact ⟨hagain, hvisits.append hvisits'⟩
  | .block name body => by
    obtain ⟨hregion, hvisits⟩ := Node.covers_minifyList hfacts h body
    obtain ⟨-, hunused⟩ := Node.covers_minifyList hfacts (Region.Covers.refl .unknown) body
    dsimp only [Node.minify]
    cases hafter : facts.after? name region with
    | some after =>
      obtain ⟨after', hafter', hcovers⟩ := hfacts.covers_after? h hafter
      rw [hafter']
      exact ⟨hcovers, (hfacts.covers_visits name h).append hunused⟩
    | none =>
      rw [after?_eq_none_of_covers hfacts hafter]
      exact ⟨hregion, hvisits⟩

/-- **Passes that know less.** A pass that knows less of the start knows less of the end and of the
visits of nodes. -/
theorem Node.covers_minifyList (hfacts : vague.Covers facts) {region region' : Region}
    (h : region'.Covers region) :
    ∀ nodes : List Node,
      (Node.minifyList vague region' nodes).region.Covers
          (Node.minifyList facts region nodes).region ∧
        CoversVisits (Node.minifyList vague region' nodes).visits
          (Node.minifyList facts region nodes).visits
  | [] => ⟨h, .nil⟩
  | node :: nodes => by
    obtain ⟨hregion, hvisits⟩ := Node.covers_minify hfacts h node
    obtain ⟨hregions, hvisits'⟩ := Node.covers_minifyList hfacts hregion nodes
    exact ⟨hregions, hvisits.append hvisits'⟩

theorem Node.covers_minifyBranches (hfacts : vague.Covers facts) {region region' : Region}
    (h : region'.Covers region) :
    ∀ branches : List (Expr × List Node),
      CoversRegions (Node.minifyBranches vague region' branches).regions
          (Node.minifyBranches facts region branches).regions ∧
        CoversVisits (Node.minifyBranches vague region' branches).visits
          (Node.minifyBranches facts region branches).visits
  | [] => ⟨.nil, .nil⟩
  | (_, body) :: branches => by
    obtain ⟨hregion, hvisits⟩ := Node.covers_minifyList hfacts h body
    obtain ⟨hregions, hvisits'⟩ := Node.covers_minifyBranches hfacts h branches
    exact ⟨(CoversRegions.single hregion).append hregions, hvisits.append hvisits'⟩

end

/-- The region from which the body of a loop is minified is known to no more passes than before. -/
theorem covers_loopStart (hfacts : vague.Covers facts) {region region' : Region}
    (h : region'.Covers region) (body : List Node) :
    (if (Node.minifyList vague region' body).region = region' then region' else .unknown).Covers
      (if (Node.minifyList facts region body).region = region then region else .unknown) := by
  have honce := (Node.covers_minifyList hfacts h body).1
  split
  · next hstays' =>
    split
    · exact h
    · next hstays => exact .inl (h.eq_unknown_of_end honce hstays hstays')
  · exact Region.covers_unknown _

mutual

/-- A node that a pass leaves as it is stays so under a pass that knows less. -/
theorem Node.stays_of_covers (hfacts : vague.Covers facts) {region region' : Region}
    (h : region'.Covers region) : ∀ node : Node, node.Stays facts region → node.Stays vague region'
  | .text content, hstays => by
    refine ⟨hstays.1, ?_⟩
    rcases h with rfl | rfl
    · exact hstays.2
    · rw [minified, minifyText_unknown]
  | .emit _, _ => trivial
  | .yield _ _, _ => trivial
  | .connect _, _ => trivial
  | .comment _, _ => trivial
  | .choose branches otherwise, hstays =>
    ⟨Node.staysBranches_of_covers hfacts h branches hstays.1,
      Node.staysOption_of_covers hfacts h otherwise hstays.2⟩
  | .forEach source key value body, hstays =>
    Node.staysList_of_covers hfacts (covers_loopStart hfacts h body) body hstays
  | .block name body, hstays => by
    rw [Node.Stays] at hstays ⊢
    rw [hfacts.isSome_after? name region region']
    refine Node.staysList_of_covers hfacts ?_ body hstays
    split
    · exact .refl _
    · exact h

/-- **Nodes that stay.** Nodes that a pass leaves as they are stay so under a pass that knows
less. -/
theorem Node.staysList_of_covers (hfacts : vague.Covers facts) {region region' : Region}
    (h : region'.Covers region) :
    ∀ nodes : List Node, Node.StaysList facts region nodes → Node.StaysList vague region' nodes
  | [], _ => trivial
  | node :: nodes, hstays =>
    ⟨Node.stays_of_covers hfacts h node hstays.1,
      Node.staysList_of_covers hfacts (Node.covers_minify hfacts h node).1 nodes hstays.2⟩

theorem Node.staysBranches_of_covers (hfacts : vague.Covers facts) {region region' : Region}
    (h : region'.Covers region) :
    ∀ branches : List (Expr × List Node), Node.StaysBranches facts region branches →
      Node.StaysBranches vague region' branches
  | [], _ => trivial
  | (_, body) :: branches, hstays =>
    ⟨Node.staysList_of_covers hfacts h body hstays.1,
      Node.staysBranches_of_covers hfacts h branches hstays.2⟩

theorem Node.staysOption_of_covers (hfacts : vague.Covers facts) {region region' : Region}
    (h : region'.Covers region) :
    ∀ otherwise : Option (List Node), Node.StaysOption facts region otherwise →
      Node.StaysOption vague region' otherwise
  | none, _ => trivial
  | some body, hstays => Node.staysList_of_covers hfacts h body hstays

end

end Passes

/-! ### Passes that know nothing -/

section Unknown

variable (facts : OverrideFacts)

mutual

/-- A pass from a region that is not known leaves a tidy node as it is. -/
theorem Node.stays_unknown : ∀ node : Node, node.Tidy true → node.Stays facts .unknown
  | .text content, h => ⟨h rfl, by rw [minified, minifyText_unknown]⟩
  | .emit _, _ => trivial
  | .yield _ _, _ => trivial
  | .connect _, _ => trivial
  | .comment _, _ => trivial
  | .choose branches otherwise, h =>
    ⟨Node.staysBranches_unknown branches h.2.1, Node.staysOption_unknown otherwise h.2.2⟩
  | .forEach source key value body, h => by
    rw [Node.Stays, ite_self]
    exact Node.staysList_unknown body h
  | .block name body, h => by
    rw [Node.Stays, ite_self]
    exact Node.staysList_unknown body h

/-- **Passes that know nothing.** A pass from a region that is not known leaves tidy nodes as they
are. -/
theorem Node.staysList_unknown : ∀ nodes : List Node, Node.TidyList true nodes →
    Node.StaysList facts .unknown nodes
  | [], _ => trivial
  | node :: nodes, h => by
    refine ⟨Node.stays_unknown node h.1, ?_⟩
    rw [Node.minify_unknown]
    exact Node.staysList_unknown nodes h.2.2

theorem Node.staysBranches_unknown : ∀ branches : List (Expr × List Node),
    Node.TidyBranches true branches → Node.StaysBranches facts .unknown branches
  | [], _ => trivial
  | (_, body) :: branches, h =>
    ⟨Node.staysList_unknown body h.2.1, Node.staysBranches_unknown branches h.2.2⟩

theorem Node.staysOption_unknown : ∀ otherwise : Option (List Node),
    Node.TidyOption true otherwise → Node.StaysOption facts .unknown otherwise
  | none, _ => trivial
  | some body, h => Node.staysList_unknown body h

end

end Unknown

end Hashmark
