import Hashmark.Proofs.Grammar.Completeness

/-!
# Putting expressions together

What a text stands for does not depend on where the text stands (`parseExpr_composes`): the same in
parentheses, among the items of a list and among the arguments of a call. Brackets and commas are
tokens by themselves wherever they are put, so the tokens of the parts are those of the whole, and
the derivations of the parts make up one of the whole.
-/

namespace Hashmark.Expression

section Lexes

variable {cs cs' : List Char} {ts ts' : List Token}

theorem Lexes.parens (h : Lexes cs ts) :
    Lexes ('(' :: (cs ++ [')'])) (.symbol .openParen :: (ts ++ [.symbol .closeParen])) :=
  .token rfl rfl (h.append (.token rfl rfl .nil) (by simp [isSeparator]))

theorem Lexes.brackets (h : Lexes cs ts) :
    Lexes ('[' :: (cs ++ [']'])) (.symbol .openBracket :: (ts ++ [.symbol .closeBracket])) :=
  .token rfl rfl (h.append (.token rfl rfl .nil) (by simp [isSeparator]))

theorem Lexes.comma (h : Lexes cs ts) (h' : Lexes cs' ts') :
    Lexes (cs ++ ',' :: cs') (ts ++ .symbol .comma :: ts') :=
  h.append (.token rfl rfl h') (by simp [isSeparator])

/-- A name in front of a parenthesis. -/
theorem Lexes.call {name : String} (hname : isName name.toList = true) (h : Lexes cs ts) :
    Lexes (name.toList ++ '(' :: (cs ++ [')']))
      (.word name :: .symbol .openParen :: (ts ++ [.symbol .closeParen])) :=
  .of_reads (reads_word hname (by simp [isNameChar])) h.parens

end Lexes

theorem constant?_eq_none {name : String} (h : name ∉ ["true", "false", "null", "none"]) :
    constant? name = none := by
  unfold constant?
  split <;> simp at h ⊢

end Hashmark.Expression

namespace Hashmark

open Expression

/-- The tokens of texts with commas between them derive what the texts stand for. -/
theorem derives_intercalate {texts : List String} {es : List Expr} (hne : texts ≠ [])
    (h : List.Forall₂ (fun text e => parseExpr text = .ok e) texts es) :
    ∃ ts, Lexes (",".intercalate texts).toList ts ∧ Derives (.items es) ts := by
  induction h with
  | nil => exact absurd rfl hne
  | cons hfirst hrest ih =>
    obtain ⟨ts, hlexes, hderives⟩ := parseExpr_iff.1 hfirst
    cases hrest with
    | nil =>
      rw [String.intercalate_singleton]
      exact ⟨ts, hlexes, .item hderives⟩
    | cons hnext hrest =>
      obtain ⟨ts', hlexes', hderives'⟩ := ih (List.cons_ne_nil _ _)
      refine ⟨_, ?_, hderives.cons hderives'⟩
      rw [String.intercalate_cons_cons]
      simpa using hlexes.comma hlexes'

/-- **Parsing is compositional.** Parentheses around a text do not change what it stands for. Texts
with commas between them stand for the list of what they stand for, as arguments, as the items of a
list and as the arguments of a call. -/
theorem parseExpr_composes :
    (∀ text e, parseExpr text = .ok e → parseExpr ("(" ++ text ++ ")") = .ok e) ∧
    ∀ texts es, texts ≠ [] → List.Forall₂ (fun text e => parseExpr text = .ok e) texts es →
      parseArgs (",".intercalate texts) = .ok es ∧
      parseExpr ("[" ++ ",".intercalate texts ++ "]") = .ok (.list es) ∧
      ∀ name : String, isName name.toList = true →
        name ∉ ["true", "false", "null", "none", "not"] →
        parseExpr (name ++ "(" ++ ",".intercalate texts ++ ")") = .ok (.call name es) := by
  refine ⟨fun text e h => ?_, fun texts es hne h => ?_⟩
  · obtain ⟨ts, hlexes, hderives⟩ := parseExpr_iff.1 h
    refine parseExpr_iff.2 ⟨_, ?_, hderives.parens.loosen le_rfl (Nat.zero_le _)⟩
    simpa using hlexes.parens
  · obtain ⟨ts, hlexes, hderives⟩ := derives_intercalate hne h
    have hlist : Derives (.list es) ts := .full hderives
    refine ⟨parseArgs_iff.2 (.inr ⟨ts, hlexes, hderives⟩), ?_, fun name hname hfree => ?_⟩
    · refine parseExpr_iff.2 ⟨_, ?_, hlist.brackets.loosen le_rfl (Nat.zero_le _)⟩
      simpa using hlexes.brackets
    · have hconstant : constant? name = none := constant?_eq_none fun hmem => hfree (by simp_all)
      have hnot : name ≠ "not" := fun heq => hfree (by simp [heq])
      refine parseExpr_iff.2 ⟨_, ?_, (hlist.call hconstant hnot).loosen le_rfl (Nat.zero_le _)⟩
      simpa using Lexes.call hname hlexes

/-- Brackets and commas in a string are none of the whole. -/
theorem parseExpr_composes_max :
    let es : List Expr := [.binary .add (.lit (.int 1)) (.var "a"), .lit (.str "),]")]
    parseExpr "(1 + $a)" = .ok (.binary .add (.lit (.int 1)) (.var "a")) ∧
      parseArgs "1 + $a,'),]'" = .ok es ∧ parseExpr "[1 + $a,'),]']" = .ok (.list es) ∧
      parseExpr "max(1 + $a,'),]')" = .ok (.call "max" es) := by
  intro es
  have hsum : parseExpr "1 + $a" = .ok (.binary .add (.lit (.int 1)) (.var "a")) := by cbv
  have hquoted : parseExpr "'),]'" = .ok (.lit (.str "),]")) := by cbv
  obtain ⟨hparens, hall⟩ := parseExpr_composes
  obtain ⟨hargs, hlist, hcall⟩ := hall ["1 + $a", "'),]'"] es (List.cons_ne_nil _ _)
    (.cons hsum (.cons hquoted .nil))
  exact ⟨hparens _ _ hsum, hargs, hlist, hcall "max" rfl (by decide)⟩

end Hashmark
