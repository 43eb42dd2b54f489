import Hashmark.Proofs.Grammar.Completeness

/-!
# What the parser returns

Every expression that a text stands for can be written (`wellFormed_of_parseExpr`): the tokens of a
text are well formed, and well-formed tokens derive well-formed expressions.
-/

namespace Hashmark.Expression

/-! ### The tokens of a text -/

theorem isName_cons_takeWhile {c : Char} (h : isNameStart c = true) (cs : List Char) :
    isName (c :: cs.takeWhile isNameChar) = true := by
  rw [isName, Bool.and_eq_true, List.all_eq_true]
  exact ⟨h, fun _ => List.mem_takeWhile_imp⟩

theorem wellFormed_of_readToken {c : Char} {cs rest : List Char} {t : Token}
    (h : readToken c cs = .ok (t, rest)) : t.WellFormed := by
  unfold readToken at h
  split at h
  · split at h
    · cases h
    · next hname =>
      cases h
      simp only [Token.WellFormed, String.toList_ofList]
      exact ⟨hname, fun _ => List.mem_takeWhile_imp⟩
  · split at h
    · next hstart =>
      cases h
      simp only [Token.WellFormed, String.toList_ofList]
      exact isName_cons_takeWhile hstart cs
    · split at h
      · -- a number that is a token is a float, or an integer of 63 bits
        unfold readNumber at h
        dsimp only at h
        split at h
        · cases h
          trivial
        · split at h
          · next hle =>
            cases h
            exact ⟨_, hle, rfl⟩
          · cases h
      · split at h
        · split at h
          · cases h
            trivial
          · cases h
        · split at h
          · cases h
            trivial
          · cases h

theorem Lexes.wellFormed {cs : List Char} {ts : List Token} (h : Lexes cs ts) :
    ∀ t ∈ ts, t.WellFormed := by
  induction h with
  | nil => exact nofun
  | blank _ _ ih => exact ih
  | token _ hread _ ih => exact List.forall_mem_cons.2 ⟨wellFormed_of_readToken hread, ih⟩

/-! ### What they derive -/

/-- Whether the expressions of a phrase are well formed. -/
def Phrase.WellFormed : Phrase → Prop
  | .operand _ e => e.WellFormed
  | .items es | .list es => Expr.WellFormedList es

theorem wellFormed_of_atom? {t : Token} {e : Expr} (ht : t.WellFormed) (h : atom? t = some e) :
    e.WellFormed := by
  cases t <;> cases h <;> exact ht

theorem wellFormed_of_constant? {name : String} {value : Literal}
    (h : constant? name = some value) : (Expr.lit value).WellFormed := by
  unfold constant? at h
  split at h <;> cases h <;>
    simp only [Expr.WellFormed, Literal.token, Token.WellFormed, reduceIte] <;> decide

theorem isFieldName_of_fieldName? {t : Token} {name : String} (ht : t.WellFormed)
    (h : fieldName? t = some name) : IsFieldName name := by
  cases t with
  | word _ =>
    cases h
    exact .inl ht
  | int value =>
    cases h
    obtain ⟨n, hn, rfl⟩ := ht
    exact .inr ⟨n, hn, rfl⟩
  | _ => cases h

/-- **Well-formed tokens derive well-formed expressions.** -/
theorem Derives.wellFormed {p : Phrase} {ts : List Token} (h : Derives p ts)
    (hts : ∀ t ∈ ts, t.WellFormed) : p.WellFormed := by
  induction h with
  | atom hatom => exact wellFormed_of_atom? (hts _ List.mem_cons_self) hatom
  | constant hconstant => exact wellFormed_of_constant? hconstant
  | name _ _ => exact isName_chars (hts _ List.mem_cons_self)
  | parens _ ih => exact ih fun t ht => hts t (by simp [ht])
  | brackets _ ih => exact ih fun t ht => hts t (by simp [ht])
  | call hconstant hnot _ ih =>
    exact ⟨⟨hts _ List.mem_cons_self, hnot, hconstant⟩, ih fun t ht => hts t (by simp [ht])⟩
  | field _ _ hname ih =>
    exact ⟨ih fun t ht => hts t (by simp [ht]), isFieldName_of_fieldName? (hts _ (by simp)) hname⟩
  | index _ _ ihbase ihkey =>
    exact ⟨ihbase fun t ht => hts t (by simp [ht]), ihkey fun t ht => hts t (by simp [ht])⟩
  | @pipe _ name _ _ ih =>
    exact ⟨ih fun t ht => hts t (by simp [ht]), hts (.word name) (by simp), trivial⟩
  | @filter _ name _ _ _ _ _ ihinput ihargs =>
    exact ⟨ihinput fun t ht => hts t (by simp [ht]), hts (.word name) (by simp),
      ihargs fun t ht => hts t (by simp [ht])⟩
  | unary _ _ ih => exact ih fun t ht => hts t (by simp [ht])
  | binary _ _ _ ihleft ihright =>
    exact ⟨ihleft fun t ht => hts t (by simp [ht]), ihright fun t ht => hts t (by simp [ht])⟩
  | tighter _ _ ih => exact ih hts
  | item _ ih => exact ⟨ih hts, trivial⟩
  | cons _ _ ih ihes =>
    exact ⟨ih fun t ht => hts t (by simp [ht]), ihes fun t ht => hts t (by simp [ht])⟩
  | empty => trivial
  | full _ ih => exact ih hts

end Hashmark.Expression

namespace Hashmark

open Expression

/-- **What a text stands for can be written.** -/
theorem wellFormed_of_parseExpr {text : String} {e : Expr} (h : parseExpr text = .ok e) :
    e.WellFormed := by
  obtain ⟨ts, hlexes, hderives⟩ := parseExpr_iff.1 h
  exact hderives.wellFormed hlexes.wellFormed

end Hashmark
