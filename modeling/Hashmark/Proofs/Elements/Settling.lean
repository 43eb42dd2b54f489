import Hashmark.Proofs.Elements.Rewriting

/-!
# When passes end

A pass makes texts shorter, or replaces odd blanks, or drops empty texts; if it does none of that it
leaves all texts as they are (`minifyList_of_not_less`). So the passes end with every text
minified for good (`settleText`), and all of them together are one rewriting (`settle_eq`).
-/

namespace Hashmark

/-! ### Smaller texts -/

/-- A text has no more characters and no more odd blanks than another one, and is the same if it has
as many. -/
structure Smaller (ds cs : List Char) : Prop where
  length_le : ds.length ≤ cs.length
  odd_le : ds.countP isOddBlank ≤ cs.countP isOddBlank
  eq_of : ds.length = cs.length → ds.countP isOddBlank = cs.countP isOddBlank → ds = cs

namespace Smaller

variable {cs cs' ds ds' : List Char}

theorem refl (cs : List Char) : Smaller cs cs :=
  ⟨Nat.le_refl _, Nat.le_refl _, fun _ _ => rfl⟩

theorem append (h : Smaller ds cs) (h' : Smaller ds' cs') : Smaller (ds ++ ds') (cs ++ cs') := by
  have hlength := h.length_le
  have hlength' := h'.length_le
  have hodd := h.odd_le
  have hodd' := h'.odd_le
  constructor
  · simp only [List.length_append]
    omega
  · simp only [List.countP_append]
    omega
  · simp only [List.length_append, List.countP_append]
    intro h₁ h₂
    rw [h.eq_of (by omega) (by omega), h'.eq_of (by omega) (by omega)]

theorem cons (h : Smaller ds cs) (c : Char) : Smaller (c :: ds) (c :: cs) :=
  (refl [c]).append h

/-- A text without its first characters is smaller. -/
theorem append_left (h : Smaller ds cs) {before : List Char} (hne : before ≠ []) :
    Smaller ds (before ++ cs) := by
  have hlength := h.length_le
  have hodd := h.odd_le
  have hpos := List.length_pos_iff.2 hne
  constructor
  · rw [List.length_append]
    omega
  · rw [List.countP_append]
    omega
  · rw [List.length_append]
    intro h₁
    omega

theorem isOddBlank_collapsed (run : List Char) : isOddBlank (collapsed run) = false := by
  unfold collapsed
  split <;> decide

/-- One blank that takes the place of a run of blanks. -/
theorem collapsed {c : Char} {run : List Char} (hc : Text.isBlank c = true) :
    Smaller [Hashmark.collapsed (c :: run)] (c :: run) := by
  refine ⟨by simp, by simp [isOddBlank_collapsed], fun hlength hodd => ?_⟩
  obtain rfl : run = [] := by simpa using hlength.symm
  have hodd' : isOddBlank c = false := by
    rw [List.countP_singleton, List.countP_singleton, isOddBlank_collapsed] at hodd
    cases h : isOddBlank c with
    | false => rfl
    | true => simp [h] at hodd
  simp only [isOddBlank, hc, Bool.true_and, Bool.and_eq_false_iff, bne_eq_false_iff_eq] at hodd'
  rcases hodd' with rfl | rfl <;> decide

end Smaller

/-- **Minifying makes a text smaller, or keeps it.** -/
theorem smaller_minifyChars (region : Region) (cs : List Char) :
    Smaller (minifyChars region cs).1 cs := by
  induction region, cs using minifyChars_induction with
  | nil region => rw [minifyChars_nil]; exact .refl []
  | closing c cs element n hclosing ih =>
    rw [minifyChars_closing hclosing]
    conv => rhs; rw [← List.take_append_drop n (c :: cs)]
    exact (Smaller.refl _).append ih
  | raw c cs element hclosing ih =>
    rw [minifyChars_raw hclosing]
    exact ih.cons c
  | comment c cs region rest hregion hcomment ih =>
    obtain ⟨before, hne, hbefore⟩ := exists_append_of_dropComment? hcomment
    rw [minifyChars_comment hregion hcomment, hbefore]
    exact ih.append_left hne
  | opening c cs region element n hregion hcomment hopening ih =>
    rw [minifyChars_opening hregion hcomment hopening]
    conv => rhs; rw [← List.take_append_drop n (c :: cs)]
    exact (Smaller.refl _).append ih
  | blank c cs region hregion hcomment hopening hblank ih =>
    rw [minifyChars_blank hregion hcomment hopening hblank]
    have hrun := (@Smaller.collapsed c (cs.takeWhile Text.isBlank) hblank).append ih
    rwa [List.singleton_append, List.cons_append, List.takeWhile_append_dropWhile] at hrun
  | char c cs region hregion hcomment hopening hblank ih =>
    rw [minifyChars_char hregion hcomment hopening hblank]
    exact ih.cons c

theorem smaller_minified (region : Region) (text : String) :
    Smaller (minified region text).toList text.toList := by
  unfold minified minifyText
  split
  · exact .refl _
  · simpa using smaller_minifyChars region text.toList

/-- A text that is not empty and keeps its size when it is minified stays as it is. -/
theorem minified_eq {region : Region} {text : String}
    (hlength : (minified region text).length = text.length)
    (hodd : (minified region text).toList.countP isOddBlank = text.toList.countP isOddBlank) :
    minified region text = text :=
  String.toList_inj.1 ((smaller_minified region text).eq_of
    (by rwa [String.length_toList, String.length_toList]) hodd)

/-- A text minified until it stays the same. -/
def settleText (region : Region) (text : String) : String :=
  if minified region text = text then text else settleText region (minified region text)
termination_by (text.length, text.toList.countP isOddBlank)
decreasing_by
  rename_i hne
  have hsmaller := smaller_minified region text
  have hlength := hsmaller.length_le
  rw [String.length_toList, String.length_toList] at hlength
  rcases Nat.lt_or_eq_of_le hlength with h | h
  · exact Prod.Lex.left _ _ h
  · rcases Nat.lt_or_eq_of_le hsmaller.odd_le with h' | h'
    · rw [h]; exact Prod.Lex.right _ h'
    · exact absurd (minified_eq h h') hne

@[simp] theorem settleText_unknown (text : String) : settleText .unknown text = text := by
  rw [settleText, if_pos (by rw [minified, minifyText_unknown])]

@[simp] theorem settleText_empty (region : Region) : settleText region "" = "" := by
  rw [settleText, if_pos (by simp [minified])]

/-- Minifying a text once more makes no difference. -/
theorem settleText_minified (region : Region) (text : String) :
    settleText region (minified region text) = settleText region text := by
  rw [settleText.eq_1 region text]
  split
  · next h => rw [h, settleText, if_pos h]
  · rfl

theorem settleText_of_eq {region : Region} {text : String} (h : minified region text = text) :
    settleText region text = text := by
  rw [settleText, if_pos h]

/-! ### Lighter texts -/

theorem totalOf_append (measure : String → Nat) (texts more : List String) :
    totalOf measure (texts ++ more) = totalOf measure texts + totalOf measure more := by
  induction texts with
  | nil => simp [totalOf]
  | cons text texts ih =>
    simp only [totalOf, List.cons_append, List.foldr_cons] at ih ⊢
    omega

/-- The number of odd blanks of a text. -/
abbrev oddBlanks (text : String) : Nat :=
  text.toList.countP isOddBlank

/-- Some texts have no more characters, no more odd blanks and are no more than others, and if there
are as many of all that, then something holds. -/
structure Lighter (texts before : List String) (P : Prop) : Prop where
  length_le : totalOf String.length texts ≤ totalOf String.length before
  odd_le : totalOf oddBlanks texts ≤ totalOf oddBlanks before
  count_le : texts.length ≤ before.length
  of_eq : totalOf String.length texts = totalOf String.length before →
    totalOf oddBlanks texts = totalOf oddBlanks before → texts.length = before.length → P

theorem measureLess_iff (a b : Nat × Nat × Nat) : measureLess a b = true ↔
    a.1 < b.1 ∨ a.1 = b.1 ∧ (a.2.1 < b.2.1 ∨ a.2.1 = b.2.1 ∧ a.2.2 < b.2.2) := by
  simp only [measureLess, Bool.or_eq_true, Bool.and_eq_true, decide_eq_true_eq]

namespace Lighter

variable {texts before texts' before' : List String} {P Q : Prop}

theorem same (heq : texts = before) (hP : P) : Lighter texts before P := by
  subst heq
  exact ⟨Nat.le_refl _, Nat.le_refl _, Nat.le_refl _, fun _ _ _ => hP⟩

theorem append (h : Lighter texts before P) (h' : Lighter texts' before' Q) :
    Lighter (texts ++ texts') (before ++ before') (P ∧ Q) := by
  have h₁ := h.length_le
  have h₁' := h'.length_le
  have h₂ := h.odd_le
  have h₂' := h'.odd_le
  have h₃ := h.count_le
  have h₃' := h'.count_le
  constructor
  · rw [totalOf_append, totalOf_append]
    omega
  · rw [totalOf_append, totalOf_append]
    omega
  · rw [List.length_append, List.length_append]
    omega
  · simp only [totalOf_append, List.length_append]
    intro hlength hodd hcount
    exact ⟨h.of_eq (by omega) (by omega) (by omega), h'.of_eq (by omega) (by omega) (by omega)⟩

/-- If the texts of some nodes are lighter, but do not measure less, then what holds otherwise
holds. -/
theorem of_not_less {nodes nodes' : List Node}
    (h : Lighter (Node.textsOfList nodes') (Node.textsOfList nodes) P)
    (hless : ¬measureLess (textMeasure nodes') (textMeasure nodes) = true) : P := by
  have h₁ := h.length_le
  have h₂ := h.odd_le
  have h₃ := h.count_le
  rw [measureLess_iff] at hless
  have hnot : ¬(totalOf String.length (Node.textsOfList nodes') <
        totalOf String.length (Node.textsOfList nodes) ∨
      totalOf String.length (Node.textsOfList nodes') =
          totalOf String.length (Node.textsOfList nodes) ∧
        (totalOf oddBlanks (Node.textsOfList nodes') < totalOf oddBlanks (Node.textsOfList nodes) ∨
          totalOf oddBlanks (Node.textsOfList nodes') = totalOf oddBlanks (Node.textsOfList nodes) ∧
            (Node.textsOfList nodes').length < (Node.textsOfList nodes).length)) := hless
  exact h.of_eq (by omega) (by omega) (by omega)

end Lighter

/-! ### Nodes that stay as they are -/

mutual

/-- Whether a pass leaves a node as it is: no text in it is empty, and each of them stays the same
when it is minified from the region in which it is entered. -/
def Node.Stays (facts : OverrideFacts) (region : Region) : Node → Prop
  | .text content => content ≠ "" ∧ minified region content = content
  | .choose branches otherwise =>
    Node.StaysBranches facts region branches ∧ Node.StaysOption facts region otherwise
  | .forEach _ _ _ body =>
    Node.StaysList facts
      (if (Node.minifyList facts region body).region = region then region else .unknown) body
  | .block name body =>
    Node.StaysList facts (if (facts.after? name region).isSome then .unknown else region) body
  | .emit _ | .yield _ _ | .connect _ | .comment _ => True

/-- Whether a pass leaves several nodes as they are. -/
def Node.StaysList (facts : OverrideFacts) (region : Region) : List Node → Prop
  | [] => True
  | node :: nodes =>
    node.Stays facts region ∧ Node.StaysList facts (node.minify facts region).region nodes

/-- Whether a pass leaves the branches of a choice as they are. -/
def Node.StaysBranches (facts : OverrideFacts) (region : Region) :
    List (Expr × List Node) → Prop
  | [] => True
  | (_, body) :: branches =>
    Node.StaysList facts region body ∧ Node.StaysBranches facts region branches

/-- Whether a pass leaves a body that may be absent as it is. -/
def Node.StaysOption (facts : OverrideFacts) (region : Region) : Option (List Node) → Prop
  | none => True
  | some body => Node.StaysList facts region body

end

section Rewrite

variable (facts : OverrideFacts)

/-- Whether a rewriting of texts keeps what a pass keeps. -/
def KeepsMinified (f : Region → String → String) : Prop :=
  ∀ region text, minified region text = text → f region text = text

section Stays

variable {f : Region → String → String}

mutual

/-- A node that a pass leaves as it is stays so under any rewriting that keeps what a pass keeps. -/
theorem Node.rewrite_of_stays (hf : KeepsMinified f) (region : Region) : ∀ node : Node,
    node.Stays facts region → node.rewrite f facts region = [node]
  | .text content, h => by rw [Node.rewrite, hf region content h.2, if_neg h.1]
  | .emit _, _ => rfl
  | .yield _ _, _ => rfl
  | .connect _, _ => rfl
  | .comment _, _ => rfl
  | .choose branches otherwise, h => by
    rw [Node.rewrite, Node.rewriteBranches_of_stays hf region branches h.1,
      Node.rewriteOption_of_stays hf region otherwise h.2]
  | .forEach source key value body, h => by
    have hbody := Node.rewriteList_of_stays hf _ body h
    rw [Node.rewrite]
    split at hbody <;> simp_all
  | .block name body, h => by
    have hbody := Node.rewriteList_of_stays hf _ body h
    rw [Node.rewrite]
    split at hbody <;> simp_all

theorem Node.rewriteList_of_stays (hf : KeepsMinified f) (region : Region) : ∀ nodes : List Node,
    Node.StaysList facts region nodes → Node.rewriteList f facts region nodes = nodes
  | [], _ => rfl
  | node :: nodes, h => by
    rw [Node.rewriteList, Node.rewrite_of_stays hf region node h.1,
      Node.rewriteList_of_stays hf _ nodes h.2]
    rfl

theorem Node.rewriteBranches_of_stays (hf : KeepsMinified f) (region : Region) :
    ∀ branches : List (Expr × List Node), Node.StaysBranches facts region branches →
      Node.rewriteBranches f facts region branches = branches
  | [], _ => rfl
  | (condition, body) :: branches, h => by
    rw [Node.rewriteBranches, Node.rewriteList_of_stays hf region body h.1,
      Node.rewriteBranches_of_stays hf region branches h.2]

theorem Node.rewriteOption_of_stays (hf : KeepsMinified f) (region : Region) :
    ∀ otherwise : Option (List Node), Node.StaysOption facts region otherwise →
      Node.rewriteOption f facts region otherwise = otherwise
  | none, _ => rfl
  | some body, h => congrArg some (Node.rewriteList_of_stays hf region body h)

end

end Stays

mutual

/-- A pass makes the texts of a node lighter, or leaves it as it is. -/
theorem Node.lighter_rewrite (region : Region) : ∀ node : Node,
    Lighter (Node.textsOfList (node.rewrite minified facts region)) node.texts
      (node.Stays facts region)
  | .text content => by
    have hsmaller := smaller_minified region content
    rw [Node.rewrite]
    split
    · refine ⟨by simp [Node.textsOfList, totalOf], by simp [Node.textsOfList, totalOf],
        by simp [Node.textsOfList], fun _ _ hcount => ?_⟩
      simp [Node.textsOfList, Node.texts] at hcount
    · next hne =>
      have hlength := hsmaller.length_le
      rw [String.length_toList, String.length_toList] at hlength
      refine ⟨by simpa [Node.textsOfList, Node.texts, totalOf] using hlength,
        by simpa [Node.textsOfList, Node.texts, totalOf] using hsmaller.odd_le,
        by simp [Node.textsOfList, Node.texts], fun h₁ h₂ _ => ?_⟩
      have heq : minified region content = content :=
        minified_eq (by simpa [Node.textsOfList, Node.texts, totalOf] using h₁)
          (by simpa [Node.textsOfList, Node.texts, totalOf] using h₂)
      exact ⟨heq ▸ hne, heq⟩
  | .emit _ => .same rfl trivial
  | .yield _ _ => .same rfl trivial
  | .connect _ => .same rfl trivial
  | .comment _ => .same rfl trivial
  | .choose branches otherwise => by
    have hbranches := Node.lighter_rewriteBranches region branches
    have hotherwise := Node.lighter_rewriteOption region otherwise
    rw [Node.rewrite, Node.Stays]
    simpa [Node.textsOfList, Node.texts] using hbranches.append hotherwise
  | .forEach source key value body => by
    have hbody := fun r => Node.lighter_rewriteList r body
    rw [Node.rewrite, Node.Stays]
    split
    · simpa [Node.textsOfList, Node.texts] using hbody region
    · simpa [Node.textsOfList, Node.texts] using hbody .unknown
  | .block name body => by
    have hbody := fun r => Node.lighter_rewriteList r body
    rw [Node.rewrite, Node.Stays]
    split
    · simpa [Node.textsOfList, Node.texts] using hbody .unknown
    · simpa [Node.textsOfList, Node.texts] using hbody region

/-- A pass makes the texts of nodes lighter, or leaves the nodes as they are. -/
theorem Node.lighter_rewriteList (region : Region) : ∀ nodes : List Node,
    Lighter (Node.textsOfList (Node.rewriteList minified facts region nodes))
      (Node.textsOfList nodes) (Node.StaysList facts region nodes)
  | [] => .same rfl trivial
  | node :: nodes => by
    have hnode := Node.lighter_rewrite region node
    have hnodes := Node.lighter_rewriteList (node.minify facts region).region nodes
    rw [Node.rewriteList, textsOfList_append]
    exact hnode.append hnodes

/-- A pass makes the texts of branches lighter, or leaves the branches as they are. -/
theorem Node.lighter_rewriteBranches (region : Region) : ∀ branches : List (Expr × List Node),
    Lighter (Node.textsOfBranches (Node.rewriteBranches minified facts region branches))
      (Node.textsOfBranches branches) (Node.StaysBranches facts region branches)
  | [] => .same rfl trivial
  | (condition, body) :: branches => by
    have hbody := Node.lighter_rewriteList region body
    have hbranches := Node.lighter_rewriteBranches region branches
    rw [Node.rewriteBranches, Node.textsOfBranches, Node.textsOfBranches]
    exact hbody.append hbranches

/-- A pass makes the texts of a body that may be absent lighter, or leaves the body as it is. -/
theorem Node.lighter_rewriteOption (region : Region) : ∀ otherwise : Option (List Node),
    Lighter (Node.textsOfOption (Node.rewriteOption minified facts region otherwise))
      (Node.textsOfOption otherwise) (Node.StaysOption facts region otherwise)
  | none => .same rfl trivial
  | some body => Node.lighter_rewriteList region body

end

end Rewrite

/-! ### All passes -/

/-- A text that is minified several times. -/
def minifiedTimes : Nat → Region → String → String
  | 0, _, text => text
  | n + 1, region, text => minified region (minifiedTimes n region text)

/-- A text that leads to the same region however often it is minified. -/
def Stable (text : String) : Prop :=
  ∀ n region, (minifyText region (minifiedTimes n region text)).2 = (minifyText region text).2

theorem minifiedTimes_unknown (n : Nat) (text : String) :
    minifiedTimes n .unknown text = text := by
  induction n with
  | zero => rfl
  | succ n ih => rw [minifiedTimes, ih, minified, minifyText_unknown]

theorem Stable.keepsRegions {text : String} (h : Stable text) (n : Nat) :
    KeepsRegions (minifiedTimes n) text :=
  ⟨minifiedTimes_unknown n text, fun region => h n region⟩

theorem settleText_minifiedTimes (n : Nat) (region : Region) (text : String) :
    settleText region (minifiedTimes n region text) = settleText region text := by
  induction n with
  | zero => rfl
  | succ n ih => rw [minifiedTimes, settleText_minified, ih]

/-- The first time may be counted apart. -/
theorem minifiedTimes_minified (n : Nat) (region : Region) (text : String) :
    minifiedTimes n region (minified region text) = minifiedTimes (n + 1) region text := by
  induction n with
  | zero => rfl
  | succ n ih => rw [minifiedTimes, ih]; rfl

theorem exists_minifiedTimes (region : Region) (text : String) :
    ∃ n, settleText region text = minifiedTimes n region text := by
  induction text using settleText.induct region with
  | case1 text h => exact ⟨0, settleText_of_eq h⟩
  | case2 text h ih =>
    obtain ⟨n, hn⟩ := ih
    exact ⟨n + 1, by rw [← settleText_minified, hn, minifiedTimes_minified]⟩

section Settle

variable (facts : OverrideFacts) (start : Region) {nodes : List Node}

theorem stable_keepsRegions (ht : AllOf Stable (Node.textsOfList nodes)) (n : Nat) :
    AllOf (KeepsRegions (minifiedTimes n)) (Node.textsOfList nodes) :=
  fun text htext => (ht text htext).keepsRegions n

/-- When a pass does not make the texts smaller, it leaves the nodes as they are. -/
theorem stays_of_not_less (nodes : List Node)
    (hless : ¬measureLess (textMeasure (Node.minifyList facts start nodes).nodes)
      (textMeasure nodes) = true) : Node.StaysList facts start nodes := by
  rw [Node.minifyList_nodes] at hless
  exact (Node.lighter_rewriteList facts start nodes).of_not_less hless

/-- A pass leaves nodes that stay as they are. -/
theorem minifyList_of_stays (h : Node.StaysList facts start nodes) :
    (Node.minifyList facts start nodes).nodes = nodes := by
  rw [Node.minifyList_nodes]
  exact Node.rewriteList_of_stays facts (fun _ _ => id) start nodes h

/-- When a pass does not make the texts smaller, they are minified for good. -/
theorem minifyList_of_not_less (nodes : List Node)
    (hless : ¬measureLess (textMeasure (Node.minifyList facts start nodes).nodes)
      (textMeasure nodes) = true) :
    (Node.minifyList facts start nodes).nodes = Node.rewriteList settleText facts start nodes := by
  have hstays := stays_of_not_less facts start nodes hless
  rw [minifyList_of_stays facts start hstays,
    Node.rewriteList_of_stays facts (fun _ _ => settleText_of_eq) start nodes hstays]

open Classical in
/-- The texts measure less after a pass unless the pass changes nothing. So it is repeated until the
nodes are the same before and after it. -/
theorem settle_eq_ite (nodes : List Node) :
    settle facts start nodes =
      if (Node.minifyList facts start nodes).nodes = nodes then
        (nodes, (Node.minifyList facts start nodes).visits)
      else settle facts start (Node.minifyList facts start nodes).nodes := by
  split
  · next hsame => rw [settle, hsame, if_neg (by rw [measureLess_iff]; omega)]
  · next hchanged =>
    rw [settle]
    refine if_pos (Decidable.byContradiction fun hless => ?_)
    exact hchanged (minifyList_of_stays facts start (stays_of_not_less facts start nodes hless))

/-- Nodes that stay as they are are settled. -/
theorem settle_of_stays (h : Node.StaysList facts start nodes) :
    settle facts start nodes = (nodes, (Node.minifyList facts start nodes).visits) := by
  rw [settle_eq_ite, if_pos (minifyList_of_stays facts start h)]

/-- **Settled nodes stay as they are**, and the overrides that were entered are those that a pass
over them enters. -/
theorem stays_settle (nodes : List Node) :
    Node.StaysList facts start (settle facts start nodes).1 ∧
      (settle facts start nodes).2 =
        (Node.minifyList facts start (settle facts start nodes).1).visits := by
  induction nodes using settle.induct facts start with
  | case1 nodes pass hless ih =>
    rw [settle, if_pos hless]
    exact ih
  | case2 nodes pass hless =>
    have hstays := stays_of_not_less facts start nodes hless
    rw [settle_of_stays facts start hstays]
    exact ⟨hstays, rfl⟩

theorem settle_rewriteList (ht : AllOf Stable (Node.textsOfList nodes)) (n : Nat) :
    settle facts start (Node.rewriteList (minifiedTimes n) facts start nodes) =
      (Node.rewriteList settleText facts start nodes,
        (Node.minifyList facts start nodes).visits) := by
  generalize hrewritten : Node.rewriteList (minifiedTimes n) facts start nodes = rewritten
  induction rewritten using settle.induct facts start generalizing n with
  | case1 rewritten pass hless ih =>
    rw [settle, if_pos hless]
    refine ih (n + 1) ?_
    change _ = (Node.minifyList facts start rewritten).nodes
    rw [Node.minifyList_nodes, ← hrewritten, Node.rewriteList_rewriteList facts (fun r => by
      simp [minified]) start nodes (stable_keepsRegions ht n)]
    rfl
  | case2 rewritten pass hless =>
    have hvisits := congrArg Prod.snd
      (Node.traced_rewriteList facts (.inl (Eq.refl start)) nodes (stable_keepsRegions ht n))
    have hfused := Node.rewriteList_rewriteList facts (g := settleText) (fun r => by simp) start
      nodes (stable_keepsRegions ht n)
    have hsettle : andThen (minifiedTimes n) settleText = settleText :=
      funext fun region => funext fun text => settleText_minifiedTimes n region text
    rw [settle, if_neg hless]
    change ((Node.minifyList facts start rewritten).nodes,
      (Node.minifyList facts start rewritten).visits) = _
    rw [minifyList_of_not_less facts start rewritten hless, ← hrewritten, hfused, hsettle]
    exact congrArg _ hvisits

/-- If the second pass changes nothing, then nodes settle in the first one. -/
theorem settle_of_minifyList {nodes' : List Node}
    (hfirst : (Node.minifyList facts start nodes).nodes = nodes')
    (hless : measureLess (textMeasure nodes') (textMeasure nodes) = true)
    (hsecond : (Node.minifyList facts start nodes').nodes = nodes') :
    (settle facts start nodes).1 = nodes' := by
  have hirreflexive : ¬measureLess (textMeasure nodes') (textMeasure nodes') = true := by
    rw [measureLess_iff]
    omega
  rw [settle, hfirst, if_pos hless, settle, hsecond, if_neg hirreflexive]

/-- **All passes are one rewriting.** If each text leads to the same region however often it is
minified, then nodes settle with each text minified for good from the region in which it is entered,
and the last pass enters the same overrides as the first one. -/
theorem settle_eq (ht : AllOf Stable (Node.textsOfList nodes)) :
    settle facts start nodes =
      (Node.rewriteList settleText facts start nodes,
        (Node.minifyList facts start nodes).visits) := by
  rw [settle]
  split
  · rw [Node.minifyList_nodes]
    exact settle_rewriteList facts start ht 1
  · next hless => exact congrArg (·, _) (minifyList_of_not_less facts start nodes hless)

end Settle

end Hashmark
