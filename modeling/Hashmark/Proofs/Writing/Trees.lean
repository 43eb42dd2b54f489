import Hashmark.Callable.Builtin
import Hashmark.Proofs.Writing.Markers

/-!
# Writing template trees

A template tree is written as source (`Node.written`) and read back (`parseTemplate_written`). Not
every tree can be: literal text must not run into what stands next to it in the source, and a comment
must not hold its own end (`Node.Fits`).
-/

namespace Hashmark

open Expression Builder
open Lexer (bind_eq_ok)

/-! ### The source of a tree -/

mutual

/-- The source of a node. -/
def Node.written : Node → List Char
  | .text content => escapedText content.toList
  | .emit value => '#' :: '[' :: (value.written ++ [']'])
  | .choose branches otherwise =>
    Node.writtenBranches "if" branches ++ (Node.writtenOption otherwise ++ writtenName "endif")
  | .forEach source key value body =>
    writtenDirective "foreach" (writtenHeader source key value) ++
      (Node.writtenList body ++ writtenName "endforeach")
  | .block name body =>
    writtenDirective "section" (writtenTexts [name]) ++
      (Node.writtenList body ++ writtenName "endsection")
  | .yield name default => writtenDirective "yield" (writtenTexts (name :: default.toList))
  | .connect name => writtenDirective "connect" (writtenTexts [name])
  | .comment content => '#' :: '-' :: '-' :: (content.toList ++ ['-', '-', '#'])

/-- The source of several nodes. -/
def Node.writtenList : List Node → List Char
  | [] => []
  | n :: ns => n.written ++ Node.writtenList ns

/-- The source of the branches of a choice, of which the first has the given directive. -/
def Node.writtenBranches (directive : String) : List (Expr × List Node) → List Char
  | [] => []
  | (condition, body) :: branches =>
    writtenDirective directive condition.written ++
      (Node.writtenList body ++ Node.writtenBranches "elseif" branches)

/-- The source of the last body of a choice, which may be absent. -/
def Node.writtenOption : Option (List Node) → List Char
  | none => []
  | some body => writtenName "else" ++ Node.writtenList body

end

/-! ### What stands next to a node -/

/-- What stands right before or right behind a node in the source. -/
inductive Neighbour where
  /-- The start or the end of the source. -/
  | edge
  | text
  /-- A marker; or a directive, on the side where it has its `#` or its parentheses. -/
  | marker
  /-- The name of a directive without arguments, which ends there. -/
  | name
  deriving DecidableEq, Repr

/-- How a node begins. -/
def Node.front : Node → Neighbour
  | .text _ => .text
  | _ => .marker

/-- How a node ends. -/
def Node.back : Node → Neighbour
  | .text _ => .text
  | .choose _ _ | .forEach _ _ _ _ | .block _ _ => .name
  | _ => .marker

/-- How several nodes begin, in front of `after`. -/
def Node.frontOfList (after : Neighbour) : List Node → Neighbour
  | [] => after
  | n :: _ => n.front

/-- Whether literal text does not run into its neighbours: it is not empty, it is not next to
literal text, it does not go on with a name, and its last backslash does not escape a `#`. -/
@[mk_iff]
structure TextFits (before after : Neighbour) (content : List Char) : Prop where
  ne_nil : content ≠ []
  apart : before ≠ .text ∧ after ≠ .text
  first : before = .name → ∀ c ∈ content.head?, isNameChar c = false
  last : after = .marker → content.getLast? ≠ some '\\'

instance (before after : Neighbour) (content : List Char) :
    Decidable (TextFits before after content) :=
  decidable_of_iff (content ≠ [] ∧ (before ≠ .text ∧ after ≠ .text) ∧
      (before = .name → content.head?.all (fun c => !isNameChar c) = true) ∧
      (after = .marker → content.getLast? ≠ some '\\'))
    (by simp [textFits_iff, Option.all_eq_true])

mutual

/-- Whether a node can be read back between its neighbours. -/
def Node.Fits (callables : Callables) (before after : Neighbour) : Node → Prop
  | .text content => TextFits before after content.toList
  | .emit value => value.Writable callables
  | .choose branches otherwise =>
    branches ≠ [] ∧ Node.FitsBranches callables branches ∧ Node.FitsOption callables otherwise
  | .forEach source key value body =>
    source.Writable callables ∧ (∀ k ∈ key, isName k.toList = true) ∧ isName value.toList = true ∧
      Node.FitsList callables .marker .marker body
  | .block _ body => Node.FitsList callables .marker .marker body
  | .yield _ _ | .connect _ => True
  | .comment content => ¬['-', '-', '#'] <:+: content.toList

/-- Whether several nodes can be read back between the neighbours of all of them. -/
def Node.FitsList (callables : Callables) (before after : Neighbour) : List Node → Prop
  | [] => True
  | n :: ns =>
    n.Fits callables before (Node.frontOfList after ns) ∧ Node.FitsList callables n.back after ns

/-- Whether the branches of a choice can be read back. -/
def Node.FitsBranches (callables : Callables) : List (Expr × List Node) → Prop
  | [] => True
  | (condition, body) :: branches =>
    condition.Writable callables ∧ Node.FitsList callables .marker .marker body ∧
      Node.FitsBranches callables branches

/-- Whether the last body of a choice can be read back. -/
def Node.FitsOption (callables : Callables) : Option (List Node) → Prop
  | none => True
  | some body => Node.FitsList callables .name .marker body

end

/-! ### What follows in the source -/

/-- Whether a source goes on as its neighbour says: it ends, or a `#` comes next. -/
def Follows (after : Neighbour) (rest : List Char) : Prop :=
  (after = .edge ∧ rest = []) ∨ (after = .marker ∧ rest.head? = some '#')

/-- Whether a text does not go on with a name. -/
def EndsName (rest : List Char) : Prop :=
  ∀ c ∈ rest.head?, isNameChar c = false

section Follows

variable {callables : Callables} {before after : Neighbour} {rest : List Char} {n : Node}
  {ns : List Node}

theorem head?_writtenName (name : String) (rest : List Char) :
    (writtenName name ++ rest).head? = some '#' := rfl

theorem head?_writtenBranches (directive : String) (branches : List (Expr × List Node))
    (h : rest.head? = some '#') :
    (Node.writtenBranches directive branches ++ rest).head? = some '#' := by
  cases branches with
  | nil => exact h
  | cons branch branches => rfl

theorem head?_writtenOption (otherwise : Option (List Node)) (h : rest.head? = some '#') :
    (Node.writtenOption otherwise ++ rest).head? = some '#' := by
  cases otherwise with
  | none => exact h
  | some body => rfl

/-- Every node but literal text begins with a `#`. -/
theorem Node.head?_written (h : n.front = .marker) (rest : List Char) :
    (n.written ++ rest).head? = some '#' := by
  cases n with
  | text content => cases h
  | choose branches otherwise =>
    rw [Node.written, List.append_assoc, List.append_assoc]
    exact head?_writtenBranches _ _ (head?_writtenOption _ rfl)
  | _ => rw [Node.written]; rfl

theorem endsName_of_head? (h : rest.head? = some '#') : EndsName rest := by
  intro c hc
  rw [h] at hc
  cases hc
  decide

theorem Follows.endsName (h : Follows after rest) : EndsName rest := by
  rcases h with ⟨-, rfl⟩ | ⟨-, hhead⟩
  · exact nofun
  · exact endsName_of_head? hhead

/-- Literal text that fits behind a name does not go on with it. -/
theorem endsName_escapedText {content : List Char} (h : TextFits .name after content)
    (rest : List Char) : EndsName (escapedText content ++ rest) := by
  obtain ⟨c, content, rfl⟩ := List.exists_cons_of_ne_nil h.ne_nil
  have hc := h.first rfl c rfl
  by_cases hsharp : c = '#'
  · subst hsharp
    rintro _ ⟨⟩
    decide
  · intro d hd
    simp only [escapedText, List.flatMap_cons, if_neg hsharp, List.cons_append,
      List.head?_cons, Option.mem_some] at hd
    rwa [← hd]

/-- Nodes that fit behind a name do not go on with it. -/
theorem endsName_writtenList (h : Node.FitsList callables .name after ns)
    (hrest : Follows after rest) : EndsName (Node.writtenList ns ++ rest) := by
  cases ns with
  | nil => exact hrest.endsName
  | cons n ns =>
    rw [Node.writtenList, List.append_assoc]
    by_cases hfront : n.front = .marker
    · exact endsName_of_head? (n.head?_written hfront _)
    · cases n with
      | text content =>
        rw [Node.written]
        exact endsName_escapedText h.1 _
      | _ => exact absurd rfl hfront

/-- Behind literal text that fits, there is no `#` that its last backslash escapes. -/
theorem TextFits.not_escaping {content : List Char}
    (h : TextFits before (Node.frontOfList after ns) content) (hrest : Follows after rest) :
    content.getLast? = some '\\' → (Node.writtenList ns ++ rest).head? ≠ some '#' := by
  intro hlast
  cases ns with
  | nil =>
    rcases hrest with ⟨-, rfl⟩ | ⟨hafter, -⟩
    · exact nofun
    · exact absurd hlast (h.last hafter)
  | cons n ns =>
    have hmarker : n.front = .marker := by
      cases n with
      | text content => exact absurd rfl h.apart.2
      | _ => rfl
    exact absurd hlast (h.last hmarker)

end Follows

/-! ### The builder on a tree -/

namespace Builder

/-- Adds several nodes to the innermost block. -/
def State.pushAll (s : State) (ns : List Node) : State :=
  { s with top := { s.top with nodes := ns.reverse ++ s.top.nodes } }

/-- The state inside of a block, with some of its nodes. -/
def State.within (s : State) (b : Block) (body : List Node) : State :=
  (s.enter b).pushAll body

variable {s : State} {b : Block} {body : List Node}

theorem State.pushAll_cons (s : State) (n : Node) (ns : List Node) :
    s.pushAll (n :: ns) = (s.push n).pushAll ns := by
  simp [State.pushAll, State.push, Frame.push]

theorem State.body_within (s : State) (b : Block) (body : List Node) :
    (s.within b body).top.body = body := by
  simp [State.within, State.pushAll, State.enter, Frame.body]

/-- Closing a block adds its node to the block around it. -/
theorem close_within {source : Source} {m : Marker} {kind : BlockKind} {n : Node}
    (h : closedNode? (s.within b body).top kind = some n) :
    close source (s.within b body) m kind = .ok (s.push n) := by
  have hbelow : (s.within b body).below = s.top :: s.below := rfl
  simp only [close, hbelow, h]
  rfl

/-- The next branch of a choice. -/
theorem branch_within {source : Source} {m : Marker} {branches : List (Expr × List Node)}
    {condition : Expr} (next : Option Expr) :
    branch source (s.within (.choice branches (some condition)) body) m next =
      .ok (s.within (.choice (branches ++ [(condition, body)]) next) []) := by
  have hbody := s.body_within (.choice branches (some condition)) body
  show Except.ok _ = _
  rw [hbody]
  rfl

end Builder

section Reading

variable {language : Language} {source : Source} {rest : List Char} {s : State}

/-- A directive with an expression that opens a choice, or goes on with it. -/
theorem passes_condition {name : String} {kind : MarkerKind} {e : Expr} {s' : State}
    (hname : isName name.toList = true) (hkind : Lexer.kindOf name = kind)
    (htakes : kind.takesArgs = true) (he : e.Writable language.callables)
    (hmarker : ∀ m : Marker, m.kind = kind →
      readExpr source language.callables m .condition m.argText = .ok e →
      marker source language s m = .ok s') :
    Passes language source (writtenDirective name e.written) rest s s' := by
  exact passes_directive hname hkind htakes he.bracketed
    fun m hm hargs => hmarker m hm (readExpr_argText he .condition hargs)

/-- A directive that closes a block. -/
theorem passes_closing {name : String} {kind : BlockKind} {b : Block} {body : List Node} {n : Node}
    (hname : isName name.toList = true) (hkind : Lexer.kindOf name = .closing kind)
    (hn : closedNode? (s.within b body).top kind = some n) (hrest : EndsName rest) :
    Passes language source (writtenName name) rest (s.within b body) (s.push n) := by
  refine passes_name hname hkind rfl hrest fun m hm => ?_
  simp only [marker, hm]
  exact close_within hn

section Directives

variable {iterable : Expr} {key : Option String} {value : String} {body : List Node}
  {branches : List (Expr × List Node)} {condition next : Expr}

/-- The directive that opens a choice. -/
theorem passes_if (h : condition.Writable language.callables) :
    Passes language source (writtenDirective "if" condition.written) rest s
      (s.within (.choice [] (some condition)) []) := by
  refine passes_condition (by decide) (show Lexer.kindOf "if" = .opening .choice from rfl) rfl h
    fun m hm hread => ?_
  simp only [marker, hm, hread]
  rfl

/-- The directive of the next branch of a choice. -/
theorem passes_elseif (h : next.Writable language.callables) :
    Passes language source (writtenDirective "elseif" next.written) rest
      (s.within (.choice branches (some condition)) body)
      (s.within (.choice (branches ++ [(condition, body)]) (some next)) []) := by
  refine passes_condition (by decide) (show Lexer.kindOf "elseif" = .elseIf from rfl) rfl h
    fun m hm hread => ?_
  simp only [marker, hm, hread, bind, Except.bind]
  exact branch_within (some next)

/-- The directive of the last body of a choice. -/
theorem passes_else (hrest : EndsName rest) :
    Passes language source (writtenName "else") rest
      (s.within (.choice branches (some condition)) body)
      (s.within (.choice (branches ++ [(condition, body)]) none) []) := by
  refine passes_name (by decide) rfl rfl hrest fun m hm => ?_
  simp only [marker, hm]
  exact branch_within none

/-- The end of a choice without a last body. -/
theorem passes_endif (hrest : EndsName rest) :
    Passes language source (writtenName "endif") rest
      (s.within (.choice branches (some condition)) body)
      (s.push (.choose (branches ++ [(condition, body)]) none)) := by
  refine passes_closing (by decide) rfl ?_ hrest
  exact congrArg (fun body => some (Node.choose (branches ++ [(condition, body)]) none))
    (s.body_within _ body)

/-- The end of a choice, behind its last body. -/
theorem passes_endif_else (hrest : EndsName rest) :
    Passes language source (writtenName "endif") rest (s.within (.choice branches none) body)
      (s.push (.choose branches (some body))) := by
  refine passes_closing (by decide) rfl ?_ hrest
  exact congrArg (fun body => some (Node.choose branches (some body))) (s.body_within _ body)

/-- The directive that opens a loop. -/
theorem passes_foreach (hiterable : iterable.Writable language.callables)
    (hkey : ∀ k ∈ key, isName k.toList = true) (hvalue : isName value.toList = true) :
    Passes language source (writtenDirective "foreach" (writtenHeader iterable key value)) rest s
      (s.within (.loop iterable key value) []) := by
  refine passes_directive (by decide) rfl rfl
    (bracketed_headerText hiterable.bracketed hkey hvalue) fun m hm hargs => ?_
  simp only [marker, hm, loopHeader_written hiterable hkey hvalue hargs]
  rfl

theorem passes_endforeach (hrest : EndsName rest) :
    Passes language source (writtenName "endforeach") rest
      (s.within (.loop iterable key value) body) (s.push (.forEach iterable key value body)) := by
  refine passes_closing (by decide) rfl ?_ hrest
  exact congrArg (fun body => some (Node.forEach iterable key value body)) (s.body_within _ body)

/-- The directive that opens a section. -/
theorem passes_section (name : String) :
    Passes language source (writtenDirective "section" (writtenTexts [name])) rest s
      (s.within (.part name) []) := by
  refine passes_directive (by decide) rfl rfl (bracketed_writtenTexts _) fun m hm hargs => ?_
  simp only [marker, hm, sectionName_written hargs]
  rfl

theorem passes_endsection {name : String} (hrest : EndsName rest) :
    Passes language source (writtenName "endsection") rest (s.within (.part name) body)
      (s.push (.block name body)) := by
  refine passes_closing (by decide) rfl ?_ hrest
  exact congrArg (fun body => some (Node.block name body)) (s.body_within _ body)

end Directives

/-- Whether literal text may come next in the innermost block. -/
def Apart (before : Neighbour) (s : State) : Prop :=
  before ≠ .text → ∀ t, s.top.nodes.head? ≠ some (.text t)

theorem apart_within (before : Neighbour) (s : State) (b : Block) : Apart before (s.within b []) :=
  fun _ _ => nofun

theorem apart_push (s : State) (n : Node) : Apart n.back (s.push n) := by
  rintro hback t ht
  obtain rfl : n = .text t := Option.some.inj ht
  exact hback rfl

mutual

/-- **A node is read back** in front of what does not run into it. -/
theorem Node.passes : ∀ (n : Node) {before after : Neighbour} {rest : List Char} {s : State},
    n.Fits language.callables before after → Apart before s →
    (∀ content, n = .text content →
      content.toList.getLast? = some '\\' → rest.head? ≠ some '#') →
    (n.back = .name → EndsName rest) → Passes language source n.written rest s (s.push n)
  | .text content, before, after, rest, s, h, hapart, hescape, _ => by
    have hne : content ≠ "" := by
      rintro rfl
      exact h.ne_nil rfl
    have htext : Passes language source (escapedText content.toList) rest s
        (s.pushText (String.ofList content.toList)) := passes_text (hescape content rfl)
    rw [String.ofList_toList, State.pushText_eq_push hne (hapart h.apart.1)] at htext
    exact htext
  | .emit value, _, _, rest, s, h, _, _, _ => passes_emit h
  | .yield name default, _, _, rest, s, _, _, _, _ => passes_yield name default
  | .connect name, _, _, rest, s, _, _, _, _ => passes_connect name
  | .comment content, _, _, rest, s, h, _, _, _ => passes_comment h
  | .choose [] otherwise, _, _, rest, s, h, _, _, _ => absurd rfl h.1
  | .choose ((condition, body) :: branches) otherwise, _, _, rest, s, h, _, _, hname => by
    obtain ⟨-, ⟨hcondition, hbody, hbranches⟩, hotherwise⟩ := h
    have hclosing : (Node.writtenOption otherwise ++ writtenName "endif" ++ rest).head? =
        some '#' := by
      rw [List.append_assoc]
      exact head?_writtenOption otherwise rfl
    have hfirst := Node.passesList body hbody
      (.inr ⟨rfl, head?_writtenBranches "elseif" branches hclosing⟩)
      (apart_within .marker s (.choice [] (some condition)))
    obtain ⟨done, condition', body', hdone, hothers⟩ :=
      Node.passesBranches branches [] condition body s _ hbranches hclosing
    have hlast := Node.passesOption otherwise done condition' body' s rest hotherwise (hname rfl)
    rw [hdone] at hlast
    rw [Node.written, Node.writtenBranches]
    exact ((passes_if hcondition).append (hfirst.append hothers)).append hlast
  | .forEach iterable key value body, _, _, rest, s, h, _, _, hname => by
    obtain ⟨hiterable, hkey, hvalue, hbody⟩ := h
    have hinner := Node.passesList body hbody (.inr ⟨rfl, head?_writtenName "endforeach" rest⟩)
      (apart_within .marker s (.loop iterable key value))
    rw [Node.written]
    exact (passes_foreach hiterable hkey hvalue).append
      (hinner.append (passes_endforeach (hname rfl)))
  | .block name body, _, _, rest, s, h, _, _, hname => by
    have hinner := Node.passesList body h (.inr ⟨rfl, head?_writtenName "endsection" rest⟩)
      (apart_within .marker s (.part name))
    rw [Node.written]
    exact (passes_section name).append (hinner.append (passes_endsection (hname rfl)))

/-- Several nodes are read back. -/
theorem Node.passesList : ∀ (ns : List Node) {before after : Neighbour} {rest : List Char}
    {s : State}, Node.FitsList language.callables before after ns → Follows after rest →
    Apart before s → Passes language source (Node.writtenList ns) rest s (s.pushAll ns)
  | [], _, _, _, _, _, _, _ => passes_nil
  | n :: ns, before, after, rest, s, h, hrest, hapart => by
    rw [Node.writtenList, State.pushAll_cons]
    refine .append (Node.passes n h.1 hapart ?_ ?_) (Node.passesList ns h.2 hrest (apart_push s n))
    · rintro content rfl
      exact h.1.not_escaping hrest
    · intro hback
      have hns := h.2
      rw [hback] at hns
      exact endsName_writtenList hns hrest

/-- The branches of a choice behind the first one are read back. -/
theorem Node.passesBranches : ∀ (branches done : List (Expr × List Node)) (condition : Expr)
    (body : List Node) (s : State) (rest : List Char),
    Node.FitsBranches language.callables branches → rest.head? = some '#' →
    ∃ done' condition' body',
      done' ++ [(condition', body')] = done ++ (condition, body) :: branches ∧
      Passes language source (Node.writtenBranches "elseif" branches) rest
        (s.within (.choice done (some condition)) body)
        (s.within (.choice done' (some condition')) body')
  | [], done, condition, body, s, rest, _, _ => ⟨done, condition, body, rfl, passes_nil⟩
  | (next, inner) :: branches, done, condition, body, s, rest, h, hrest => by
    obtain ⟨hnext, hinner, hbranches⟩ := h
    have hfirst := Node.passesList inner hinner
      (.inr ⟨rfl, head?_writtenBranches "elseif" branches hrest⟩)
      (apart_within .marker s (.choice (done ++ [(condition, body)]) (some next)))
    obtain ⟨done', condition', body', hdone, hothers⟩ := Node.passesBranches branches
      (done ++ [(condition, body)]) next inner s rest hbranches hrest
    refine ⟨done', condition', body', by rw [hdone, List.append_assoc]; rfl, ?_⟩
    rw [Node.writtenBranches]
    exact (passes_elseif hnext).append (hfirst.append hothers)

/-- The last body of a choice is read back, and the choice is closed. -/
theorem Node.passesOption : ∀ (otherwise : Option (List Node)) (done : List (Expr × List Node))
    (condition : Expr) (body : List Node) (s : State) (rest : List Char),
    Node.FitsOption language.callables otherwise → EndsName rest →
    Passes language source (Node.writtenOption otherwise ++ writtenName "endif") rest
      (s.within (.choice done (some condition)) body)
      (s.push (.choose (done ++ [(condition, body)]) otherwise))
  | none, done, condition, body, s, rest, _, hrest => passes_endif hrest
  | some inner, done, condition, body, s, rest, h, hrest => by
    have hfollows : Follows .marker (writtenName "endif" ++ rest) :=
      .inr ⟨rfl, head?_writtenName "endif" rest⟩
    have hinner := Node.passesList inner h hfollows
      (apart_within .name s (.choice (done ++ [(condition, body)]) none))
    rw [Node.writtenOption, List.append_assoc]
    refine .append (passes_else ?_) (hinner.append (passes_endif_else hrest))
    rw [List.append_assoc]
    exact endsName_writtenList h hfollows

end

/-- **Every template tree can be written down and read back.** -/
theorem parseTemplate_written (language : Language) (name : String) {forest : List Node}
    (h : Node.FitsList language.callables .edge .edge forest) :
    parseTemplate language ⟨name, String.ofList (Node.writtenList forest)⟩ = .ok ⟨none, forest⟩ := by
  let source : Source := ⟨name, String.ofList (Node.writtenList forest)⟩
  have hpasses : Passes language source (Node.writtenList forest) [] State.initial
      (State.initial.pushAll forest) :=
    Node.passesList forest h (.inl ⟨rfl, rfl⟩) fun _ _ => nofun
  obtain ⟨found, hsegments, hbuilt⟩ := bind_eq_ok.1 hpasses.run_eq
  have hscan : scan language.directives source = .ok found := by
    refine scan_eq_ok.2 ⟨?_, checkBalance_of_foldlM hbuilt rfl rfl⟩
    rw [segments, String.toList_ofList]
    exact hsegments
  rw [parseTemplate]
  refine bind_eq_ok.2 ⟨found, hscan, ?_⟩
  rw [build, hbuilt]
  simp [State.pushAll, State.initial, Frame.body, bind, Except.bind, pure, Except.pure]

/-- The condition `!($a || $b) && $x->0 == 3 - (1 - -2)`. -/
def pageCondition : Expr :=
  .binary .and (.unary .not (.binary .or (.var "a") (.var "b")))
    (.binary .eq (.field (.var "x") "0")
      (.binary .sub (.lit (.int 3))
        (.binary .sub (.lit (.int 1)) (.unary .neg (.lit (.int 2))))))

/-- A list that is joined to the value of a call and piped through a filter. -/
def pageValue : Expr :=
  .filter
    (.binary .concat (.call "range" [.lit (.int 1), .index (.var "m") (.lit (.str ")]'\"\\"))])
      (.list []))
    "default" [.lit .null]

/-- A page with brackets and quotes in its texts, and words of the language in its names. -/
def page : List Node :=
  [.text "C:\\d#1 ",
    .choose [(pageCondition, [.emit pageValue, .text "'x"]), (.lit (.bool true), [.comment "--"])]
      (some [.text ".", .yield "a'b\\" (some "d")]),
    .text "(y)",
    .forEach (.var "as") (some "k") "v" [.connect "p"],
    .block "s)" [],
    .text "\n\\"]

/-- The source of the page. -/
def pageSource : String :=
  "C:\\d\\#1 #if(! ($a || $b) && $x->0 == 3 - (1 - - 2))" ++
  "#[(range(1, $m[')]\\'\"\\\\']) ~ []) | default(null)]'x#elseif(true)#------#" ++
  "#else.#yield('a\\'b\\\\', 'd')#endif(y)" ++
  "#foreach($as as $k => $v)#connect('p')#endforeach#section('s)')#endsection\n\\"

theorem writable_pageCondition : pageCondition.Writable .builtin := by
  have hnames : ∀ name ∈ ["a", "b", "x"], (Token.variable name).WellFormed := by
    simp [Token.WellFormed, isNameChar]
  have hnumbers : ∀ n ≤ 3, (Token.int (Int64.ofNat n)).WellFormed :=
    fun n hn => ⟨n, hn.trans (by decide), rfl⟩
  have hfield : IsFieldName "0" := .inr ⟨0, by decide, by decide +kernel⟩
  refine Expr.writable_iff.2 ⟨?_, rfl, by decide +kernel⟩
  exact ⟨⟨hnames _ (by decide), hnames _ (by decide)⟩, ⟨hnames _ (by decide), hfield⟩,
    hnumbers 3 le_rfl, hnumbers 1 (by decide), hnumbers 2 (by decide)⟩

theorem writable_pageValue : pageValue.Writable .builtin := by
  have hcall : IsFunctionName "range" := by
    unfold IsFunctionName
    decide +kernel
  have hvariable : (Token.variable "m").WellFormed := by simp [Token.WellFormed, isNameChar]
  have hnull : isName "null".toList = true := by decide
  refine Expr.writable_iff.2 ⟨?_, rfl, by decide +kernel⟩
  exact ⟨⟨⟨hcall, ⟨1, by decide, rfl⟩, ⟨hvariable, trivial⟩, trivial⟩, trivial⟩,
    by decide, hnull, trivial⟩

theorem fits_page : Node.FitsList .builtin .edge .edge page := by
  have htrue : (Expr.lit (.bool true)).Writable .builtin :=
    Expr.writable_iff.2 ⟨(by decide : isName "true".toList = true), rfl, by decide⟩
  have hloop : (Expr.var "as").Writable .builtin := by
    refine Expr.writable_iff.2 ⟨?_, rfl, by decide⟩
    simp [Expr.WellFormed, Token.WellFormed, isNameChar]
  have hcomment : ¬['-', '-', '#'] <:+: "--".toList := by decide +kernel
  have hbranches : Node.FitsBranches .builtin
      [(pageCondition, [.emit pageValue, .text "'x"]), (.lit (.bool true), [.comment "--"])] :=
    ⟨writable_pageCondition, ⟨writable_pageValue, (by decide +kernel : TextFits _ _ _), trivial⟩,
      htrue, ⟨hcomment, trivial⟩, trivial⟩
  have hotherwise : Node.FitsOption .builtin (some [.text ".", .yield "a'b\\" (some "d")]) :=
    ⟨(by decide +kernel : TextFits _ _ _), trivial, trivial⟩
  refine ⟨(?_ : TextFits _ _ _), ⟨List.cons_ne_nil _ _, hbranches, hotherwise⟩,
    (?_ : TextFits _ _ _), ⟨hloop, by decide, by decide, trivial, trivial⟩, trivial,
    (?_ : TextFits _ _ _), trivial⟩
  all_goals decide +kernel

theorem parseTemplate_written_page :
    parseTemplate ⟨[], .builtin⟩ ⟨"page", pageSource⟩ = .ok ⟨none, page⟩ := by
  have hsource : String.ofList (Node.writtenList page) = pageSource := by decide +kernel
  rw [← hsource]
  exact parseTemplate_written ⟨[], .builtin⟩ "page" fits_page

end Reading

end Hashmark
