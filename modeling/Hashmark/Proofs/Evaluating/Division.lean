import Mathlib
import Hashmark.Expression.Evaluation
import Hashmark.Expression.Parser

/-!
# The division of whole numbers

`/` and `%` fit together: what `%` leaves is taken off the dividend exactly, the divisor divides the
rest, and from the quotient the dividend comes back (`law_of_division`). Whole numbers are 64-bit
words, but only one quotient is not a word. Dividing the least word by -1 wraps around to the least
word, and so does the product after it, which brings back the dividend as well.
-/

namespace Hashmark.Division

/-! ### Words -/

section Words

variable {a b : Int64}

theorem natAbs_mod_lt (hb : b ≠ 0) : (a % b).toInt.natAbs < b.toInt.natAbs := by
  have hpos : 0 < b.toInt.natAbs := by
    rw [Int.natAbs_pos, ← Int64.toInt_zero]
    exact fun h => hb (Int64.toInt_inj.1 h)
  rw [Int64.toInt_mod, Int.natAbs_tmod]
  exact Nat.mod_lt _ hpos

/-- A remainder is zero or has the sign of the dividend. -/
theorem sign_mod (a b : Int64) : a % b = 0 ∨ (a % b).toInt.sign = a.toInt.sign := by
  have hsign := Int.sign_tmod a.toInt b.toInt
  rw [← Int64.toInt_mod] at hsign
  split at hsign
  · exact .inl (Int64.toInt_inj.1 (Int.sign_eq_zero_iff_zero.1 hsign))
  · exact .inr hsign

theorem mod_eq_zero_iff : a % b = 0 ↔ b.toInt ∣ a.toInt := by
  rw [← Int64.toInt_inj, Int64.toInt_mod, Int64.toInt_zero, Int.dvd_iff_tmod_eq_zero]

/-- An integer between those of two words is that of a word. -/
theorem bmod_of_mem {n : Int} (hlow : -2 ^ 63 ≤ n) (hhigh : n < 2 ^ 63) : n.bmod (2 ^ 64) = n :=
  Int.bmod_eq_of_le (by simpa using hlow) (by simpa using hhigh)

/-- A remainder is taken off the dividend exactly: it is no farther from zero, on the same side. -/
theorem toInt_sub_mod (a b : Int64) : (a - a % b).toInt = a.toInt - (a % b).toInt := by
  have hlow := a.le_toInt
  have hhigh := a.toInt_lt
  have habs : (a.toInt.tmod b.toInt).natAbs ≤ a.toInt.natAbs := by
    rw [Int.natAbs_tmod]
    exact Nat.mod_le _ _
  rw [Int64.toInt_sub, Int64.toInt_mod]
  rcases le_total 0 a.toInt with hpos | hneg
  · have hside := Int.tmod_nonneg b.toInt hpos
    exact bmod_of_mem (by omega) (by omega)
  · have hside := Int.tmod_nonneg b.toInt (Int.neg_nonneg_of_nonpos hneg)
    rw [Int.neg_tmod] at hside
    exact bmod_of_mem (by omega) (by omega)

/-- What a remainder leaves is a multiple of the divisor. -/
theorem toInt_sub_mod_eq_mul (a b : Int64) :
    (a - a % b).toInt = b.toInt * a.toInt.tdiv b.toInt := by
  rw [toInt_sub_mod, Int64.toInt_mod]
  exact (eq_sub_of_add_eq (Int.mul_tdiv_add_tmod a.toInt b.toInt)).symm

theorem sub_mod_mod (a b : Int64) : (a - a % b) % b = 0 := by
  rw [mod_eq_zero_iff, toInt_sub_mod_eq_mul]
  exact dvd_mul_right _ _

/-- Only the quotient of the least word by -1 is no word. -/
theorem div_mul_exact (h : b.toInt ∣ a.toInt) :
    (a / b).toInt * b.toInt = a.toInt ∨
      a = Int64.minValue ∧ b = -1 ∧ a / b = Int64.minValue := by
  by_cases hedge : a = Int64.minValue ∧ b = -1
  · obtain ⟨rfl, rfl⟩ := hedge
    exact .inr ⟨rfl, rfl, Int64.minValue_div_neg_one⟩
  · left
    have hdiv : (a / b).toInt = a.toInt.tdiv b.toInt := by
      rcases not_and_or.1 hedge with ha | hb
      · exact Int64.toInt_div_of_ne_left a b ha
      · exact Int64.toInt_div_of_ne_right a b hb
    rw [hdiv, Int.tdiv_mul_cancel h]

/-- The quotient times the divisor is the dividend if the divisor divides it. -/
theorem div_mul (h : b.toInt ∣ a.toInt) : a / b * b = a := by
  rcases div_mul_exact h with hexact | ⟨rfl, rfl, hdiv⟩
  · rw [← Int64.toInt_inj, Int64.toInt_mul, hexact]
    exact bmod_of_mem a.le_toInt a.toInt_lt
  · rw [hdiv]
    rfl

end Words

/-! ### Expressions -/

/-- `$a % $b` -/
def remainder : Expr :=
  .binary .mod (.var "a") (.var "b")

/-- `$a / $b` -/
def quotient : Expr :=
  .binary .div (.var "a") (.var "b")

/-- `$a - $a % $b` -/
def multiple : Expr :=
  .binary .sub (.var "a") remainder

/-- `($a - $a % $b) / $b` -/
def factor : Expr :=
  .binary .div multiple (.var "b")

/-- `($a - $a % $b) / $b * $b` -/
def product : Expr :=
  .binary .mul factor (.var "b")

/-- `($a - $a % $b) / $b * $b + $a % $b` -/
def sum : Expr :=
  .binary .add product remainder

/-- `($a - $a % $b) / $b * $b + $a % $b == $a` -/
def law : Expr :=
  .binary .eq sum (.var "a")

section Evaluation

variable {c : Callables} {s : Scopes} {a b : Int64}

theorem eval_var {name : String} {v : Value} (h : s.get? name = some v) :
    (Expr.var name).eval c s = .ok v := by
  rw [Expr.eval, h]
  rfl

/-- An operator that needs both operands is applied to their values. -/
theorem eval_binary {op : BinaryOp} {left right : Expr} {v w : Value}
    (hop : op.decidedBy v = false) (hleft : left.eval c s = .ok v)
    (hright : right.eval c s = .ok w) :
    (Expr.binary op left right).eval c s = .ok (op.apply v w) := by
  simp [Expr.eval, hleft, hright, hop, bind, Except.bind, pure, Except.pure]

section Numbers

variable (ha : s.get? "a" = some (.int a)) (hb : s.get? "b" = some (.int b))
include ha hb

theorem eval_remainder : remainder.eval c s = .ok (Value.mod (.int a) (.int b)) :=
  eval_binary rfl (eval_var ha) (eval_var hb)

theorem eval_quotient : quotient.eval c s = .ok (Value.div (.int a) (.int b)) :=
  eval_binary rfl (eval_var ha) (eval_var hb)

variable (hne : b ≠ 0)
include hne

theorem eval_remainder_of_ne : remainder.eval c s = .ok (.int (a % b)) := by
  rw [eval_remainder ha hb, Value.mod, if_neg hne]

theorem eval_multiple : multiple.eval c s = .ok (.int (a - a % b)) :=
  eval_binary rfl (eval_var ha) (eval_remainder_of_ne ha hb hne)

theorem eval_factor : factor.eval c s = .ok (.int ((a - a % b) / b)) := by
  rw [factor, eval_binary rfl (eval_multiple ha hb hne) (eval_var hb), BinaryOp.apply, Value.div,
    if_neg hne, if_pos (sub_mod_mod a b)]

theorem eval_product : product.eval c s = .ok (.int (a - a % b)) := by
  have hproduct : product.eval c s =
      .ok (BinaryOp.mul.apply (.int ((a - a % b) / b)) (.int b)) :=
    eval_binary rfl (eval_factor ha hb hne) (eval_var hb)
  have hcancel : (a - a % b) / b * b = a - a % b := div_mul (mod_eq_zero_iff.1 (sub_mod_mod a b))
  rw [hproduct]
  exact congrArg (fun n => Except.ok (Value.int n)) hcancel

theorem eval_sum : sum.eval c s = .ok (.int a) := by
  have hsum : sum.eval c s = .ok (BinaryOp.add.apply (.int (a - a % b)) (.int (a % b))) :=
    eval_binary rfl (eval_product ha hb hne) (eval_remainder_of_ne ha hb hne)
  have hcancel : a - a % b + a % b = a := Int64.sub_add_cancel a (a % b)
  rw [hsum]
  exact congrArg (fun n => Except.ok (Value.int n)) hcancel

theorem eval_law : law.eval c s = .ok (.bool true) := by
  rw [law, eval_binary rfl (eval_sum ha hb hne) (eval_var ha)]
  simp [BinaryOp.apply, Value.equal]

theorem eval_quotient_int_iff :
    (∃ n, quotient.eval c s = .ok (.int n)) ↔ b.toInt ∣ a.toInt := by
  rw [eval_quotient ha hb, Value.div, if_neg hne, ← mod_eq_zero_iff]
  split <;> simp_all

end Numbers

/-- **The law of division.** Of any two whole numbers with a divisor other than zero, the first one
comes back from quotient and remainder. Every step gives a whole number, and exactly the right one
but for the least word divided by -1, where the quotient wraps around to the least word. The
remainder is smaller than the divisor and has the sign of the dividend unless it is zero, and the
quotient of the two is whole exactly if the divisor divides the dividend. By zero there is neither
quotient nor remainder. -/
theorem law_of_division (c : Callables) (ha : s.get? "a" = some (.int a))
    (hb : s.get? "b" = some (.int b)) :
    (parseExpr "($a - $a % $b) / $b * $b + $a % $b == $a" = .ok law ∧
      parseExpr "$a / $b" = .ok quotient ∧ parseExpr "$a % $b" = .ok remainder) ∧
    (b ≠ 0 →
      law.eval c s = .ok (.bool true) ∧
      (∃ r m q : Int64,
        remainder.eval c s = .ok (.int r) ∧
        multiple.eval c s = .ok (.int m) ∧
        factor.eval c s = .ok (.int q) ∧
        product.eval c s = .ok (.int m) ∧
        sum.eval c s = .ok (.int a) ∧
        r.toInt.natAbs < b.toInt.natAbs ∧ (r = 0 ∨ r.toInt.sign = a.toInt.sign) ∧
        m.toInt = a.toInt - r.toInt ∧
        (q.toInt * b.toInt = m.toInt ∨
          a = Int64.minValue ∧ b = -1 ∧ q = Int64.minValue)) ∧
      ((∃ n, quotient.eval c s = .ok (.int n)) ↔ b.toInt ∣ a.toInt)) ∧
    (b = 0 → quotient.eval c s = .ok .undefined ∧ remainder.eval c s = .ok .undefined) := by
  refine ⟨⟨by cbv, by cbv, by cbv⟩, fun hne => ⟨eval_law ha hb hne, ?_,
    eval_quotient_int_iff ha hb hne⟩, ?_⟩
  · refine ⟨a % b, a - a % b, (a - a % b) / b, eval_remainder_of_ne ha hb hne,
      eval_multiple ha hb hne, eval_factor ha hb hne, eval_product ha hb hne, eval_sum ha hb hne,
      natAbs_mod_lt hne, sign_mod a b, toInt_sub_mod a b, ?_⟩
    rcases div_mul_exact (mod_eq_zero_iff.1 (sub_mod_mod a b)) with hexact | ⟨hmin, rfl, hdiv⟩
    · exact .inl hexact
    · -- nothing is left over by -1, so the dividend is the least word
      have hdvd : (-1 : Int64).toInt ∣ a.toInt := Int.neg_dvd.2 (one_dvd a.toInt)
      have hmod : a % -1 = 0 := mod_eq_zero_iff.2 hdvd
      rw [hmod, Int64.sub_zero] at hmin hdiv ⊢
      exact .inr ⟨hmin, rfl, hdiv⟩
  · rintro rfl
    rw [eval_quotient ha hb, eval_remainder ha hb]
    exact ⟨rfl, rfl⟩

/-- The least word and -1 as variables. -/
def edge : Scopes :=
  ⟨[("a", .int Int64.minValue), ("b", .int (-1))], []⟩

theorem law_of_division_edge :
    edge.get? "a" = some (.int Int64.minValue) ∧ edge.get? "b" = some (.int (-1)) ∧
      law.eval .empty edge = .ok (.bool true) ∧ ∃ n, quotient.eval .empty edge = .ok (.int n) := by
  obtain ⟨-, hlaw, -⟩ := law_of_division (s := edge) .empty (by rfl) (by rfl)
  obtain ⟨htrue, -, hint⟩ := hlaw (by decide)
  exact ⟨by rfl, by rfl, htrue, hint.2 ⟨Int64.minValue.toInt * -1, by decide⟩⟩

end Evaluation

end Hashmark.Division
