import Hashmark.Number.Numeral
import Mathlib

/-!
# Products that stay finite

How large a product of doubles can get, and which double a whole number becomes. One rounding step
adds or takes away at most half a last place, which is at most one part in `2 ^ 53` (`round_full`),
so bounds on doubles can be multiplied as long as each step is paid for (`AtMost.mul`), and a double
with a bound below `2 ^ 1024` is no infinity. A whole number of 64 bits is rounded once, to the
nearest double (`unpack_ofNat`). The scaled reading of a numeral takes three steps: the digits, the
power of ten and their product.
-/

namespace Hashmark.Number

open Float.Model Float.Model.UnpackedFloat

/-! ### One rounding step -/

/-- What is left of a significand after dropping its last `k` digits: the first digit that was
dropped is `1` exactly if the rest is at least half a place, and the mark for the other ones is only
missing if they are all `0`. -/
theorem shiftRight_spec (m k : Nat) :
    let dropped := ExtendedMantissa.mk m false false >>> k
    dropped.mantissa = m / 2 ^ k ∧
      (dropped.roundBit = true ↔ (2 * (m / 2 ^ k) + 1) * 2 ^ k ≤ 2 * m) ∧
      (dropped.stickyBit = false →
        2 * m = (2 * (m / 2 ^ k) + dropped.roundBit.toNat) * 2 ^ k) := by
  induction k with
  | zero => simp [HShiftRight.hShiftRight, Nat.repeat]
  | succ k ih =>
    obtain ⟨hmantissa, -, hexact⟩ := ih
    have hle : m / 2 ^ k * 2 ^ k ≤ m := Nat.div_mul_le_self m _
    have hlt : m < m / 2 ^ k * 2 ^ k + 2 ^ k := Nat.lt_div_mul_add (by positivity)
    have hdiv : m / 2 ^ (k + 1) = m / 2 ^ k / 2 := by
      rw [pow_succ, Nat.div_div_eq_div_mul]
    set longer := ExtendedMantissa.mk m false false >>> k
    set q := m / 2 ^ k
    have hhalves : q = 2 * (q / 2) + q % 2 := by omega
    have hpow : 2 ^ (k + 1) = 2 * 2 ^ k := pow_succ' 2 k
    intro dropped
    have hround : dropped.roundBit = (q % 2 != 0) := by rw [← hmantissa]; rfl
    have hsticky : dropped.stickyBit = (longer.roundBit || longer.stickyBit) := rfl
    refine ⟨?_, ?_, ?_⟩
    · rw [hdiv, ← hmantissa]
      rfl
    · rw [hround, hdiv, hpow]
      rcases Nat.mod_two_eq_zero_or_one q with hq | hq
      · have hlow : (2 * (q / 2) + 1) * (2 * 2 ^ k) = 2 * (q * 2 ^ k + 2 ^ k) := by
          rw [show 2 * (q / 2) + 1 = q + 1 by omega]
          ring
        simp only [hq, hlow]
        simpa using hlt
      · have hhigh : (2 * (q / 2) + 1) * (2 * 2 ^ k) = 2 * (q * 2 ^ k) := by
          rw [show 2 * (q / 2) + 1 = q by omega]
          ring
        simp only [hq, hhigh]
        simpa using hle
    · intro hnone
      rw [hsticky, Bool.or_eq_false_iff] at hnone
      have hrest : 2 * m = 2 * q * 2 ^ k := by simpa [hnone.1] using hexact hnone.2
      have hbit : dropped.roundBit.toNat = q % 2 := by
        rcases Nat.mod_two_eq_zero_or_one q with hq | hq <;> simp [hround, hq]
      rw [hbit, hdiv, hpow, ← hhalves, hrest]
      ring

theorem roundedMantissa_le (em : ExtendedMantissa) :
    em.mantissa ≤ em.roundedMantissa ∧
      em.roundedMantissa ≤ em.mantissa + em.roundBit.toNat := by
  obtain ⟨m, roundBit, stickyBit⟩ := em
  cases roundBit <;> cases stickyBit <;>
    simp [ExtendedMantissa.roundedMantissa, ExtendedMantissa.accuracy,
      Accuracy.roundToNearestEven]
  omega

/-- More than half a place is rounded up. -/
theorem lt_roundedMantissa {em : ExtendedMantissa} (hround : em.roundBit = true)
    (hsticky : em.stickyBit = true) : em.mantissa < em.roundedMantissa := by
  obtain ⟨m, roundBit, stickyBit⟩ := em
  cases hround
  cases hsticky
  simp [ExtendedMantissa.roundedMantissa, ExtendedMantissa.accuracy, Accuracy.roundToNearestEven]

/-- Rounding after dropping `k` digits adds or takes away at most half a place. -/
theorem roundedMantissa_shift_near (m k : Nat) :
    let rounded := (ExtendedMantissa.mk m false false >>> k).roundedMantissa * 2 ^ k
    2 * rounded ≤ 2 * m + 2 ^ k ∧ 2 * m ≤ 2 * rounded + 2 ^ k := by
  obtain ⟨hmantissa, hround, hexact⟩ := shiftRight_spec m k
  set em := ExtendedMantissa.mk m false false >>> k
  set q := m / 2 ^ k
  obtain ⟨hlow, hhigh⟩ := roundedMantissa_le em
  rw [hmantissa] at hlow hhigh
  have hlt : m < (q + 1) * 2 ^ k := by
    rw [add_mul, one_mul]
    exact Nat.lt_div_mul_add (by positivity)
  have hle : q * 2 ^ k ≤ m := Nat.div_mul_le_self m _
  intro rounded
  have hatleast : q * 2 ^ k ≤ rounded := Nat.mul_le_mul_right _ hlow
  have hhalf : (2 * q + 1) * 2 ^ k = 2 * (q * 2 ^ k) + 2 ^ k := by ring
  rw [hhalf] at hround
  cases hbit : em.roundBit with
  | false =>
    have hsmall : ¬2 * (q * 2 ^ k) + 2 ^ k ≤ 2 * m := by simpa [hbit] using hround.not
    have hatmost : rounded ≤ q * 2 ^ k := Nat.mul_le_mul_right _ (by simpa [hbit] using hhigh)
    omega
  | true =>
    have hlarge := hround.1 hbit
    have hatmost : rounded ≤ (q + 1) * 2 ^ k :=
      Nat.mul_le_mul_right _ (by simpa [hbit] using hhigh)
    rw [add_mul, one_mul] at hatmost
    refine ⟨by omega, ?_⟩
    cases hsticky : em.stickyBit with
    | false =>
      have hequal : 2 * m = (2 * q + 1) * 2 ^ k := by simpa [hbit] using hexact hsticky
      omega
    | true =>
      have hup : (q + 1) * 2 ^ k ≤ rounded :=
        Nat.mul_le_mul_right _ (hmantissa ▸ lt_roundedMantissa hbit hsticky)
      omega

theorem log2_mul_pow {n j : Nat} (hn : 0 < n) : (n * 2 ^ j).log2 = n.log2 + j := by
  rw [Nat.log2_eq_iff (by positivity)]
  constructor
  · rw [pow_add]
    exact Nat.mul_le_mul_right _ (Nat.log2_self_le hn.ne')
  · calc n * 2 ^ j < 2 ^ (n.log2 + 1) * 2 ^ j := by
          gcongr
          exact Nat.lt_log2_self
      _ = 2 ^ (n.log2 + j + 1) := by
          rw [← pow_add]
          congr 1
          omega

/-- Without the digits that it has too many, a significand has 53 digits. -/
theorem kept_digits {m j : Nat} (hm : 0 < m) (hj : m.log2 = 52 + j) :
    2 ^ 52 ≤ m / 2 ^ j ∧ m / 2 ^ j < 2 ^ 53 := by
  constructor
  · rw [Nat.le_div_iff_mul_le (by positivity), ← pow_add, ← hj]
    exact Nat.log2_self_le hm.ne'
  · rw [Nat.div_lt_iff_lt_mul (by positivity), ← pow_add, show 53 + j = m.log2 + 1 by omega]
    exact Nat.lt_log2_self

/-- A significand with 53 digits or one more is shifted by the digits that it has too many. -/
theorem shift_full {r : Nat} {e : Int} (hr : 2 ^ 52 ≤ r) (he : -1074 ≤ e) :
    shiftToTargetExponent Format.binary64 r e .exact =
      (ExtendedMantissa.mk r false false >>> (r.log2 - 52), e + (r.log2 - 52 : Nat)) := by
  have hlog : 52 ≤ r.log2 := (Nat.le_log2 (by omega)).2 hr
  have hshift : (Format.binary64.targetExponent (totalExponent r e) - e).toNat = r.log2 - 52 := by
    simp only [Format.targetExponent, totalExponent, Format.mantissaBits, Format.minExponent]
    norm_num
    omega
  simp only [shiftToTargetExponent, shiftToExponent, hshift]
  rfl

/-- **One rounding step** of a significand with at least 53 digits: the result has 53 digits, and it
differs from the significand by at most half a place. -/
theorem round_full (s : Sign) {m : Nat} {e : Int} (hm : 2 ^ 52 ≤ m) (he : -1074 ≤ e) :
    ∃ r k h, roundWithAccuracy Format.binary64 s m e .exact = .finite s r (e + (k : Nat)) h ∧
      2 ^ 52 ≤ r ∧ r < 2 ^ 53 ∧ m.log2 - 52 ≤ k ∧
      2 * (r * 2 ^ k) ≤ 2 * m + 2 ^ (m.log2 - 52) ∧
      2 * m ≤ 2 * (r * 2 ^ k) + 2 ^ (m.log2 - 52) := by
  have hlog : 52 ≤ m.log2 := (Nat.le_log2 (by omega)).2 hm
  obtain ⟨j, hj⟩ := Nat.exists_eq_add_of_le hlog
  have hsub : m.log2 - 52 = j := by omega
  have hkept := kept_digits (by omega) hj
  have hbound := roundedMantissa_shift_near m j
  have hmantissa := (shiftRight_spec m j).1
  set em := ExtendedMantissa.mk m false false >>> j with hem
  obtain ⟨hlow, hhigh⟩ := roundedMantissa_le em
  rw [hmantissa] at hlow hhigh
  have hfirst := shift_full hm he
  rw [hsub, ← hem] at hfirst
  have hsecond := shift_full (e := e + (j : Nat)) (hkept.1.trans hlow) (by omega)
  have hr : em.roundedMantissa ≤ 2 ^ 53 := by
    have : em.roundBit.toNat ≤ 1 := Bool.toNat_le _
    omega
  rw [hsub]
  rcases Nat.lt_or_eq_of_le hr with hlt | heq
  · -- rounding leaves 53 digits
    have hlog' : em.roundedMantissa.log2 - 52 = 0 := by
      have := (Nat.log2_lt (by omega)).2 hlt
      omega
    have hpos : 0 < em.roundedMantissa := by omega
    rw [hlog'] at hsecond
    refine ⟨em.roundedMantissa, j, hpos, ?_, hkept.1.trans hlow, hlt, le_refl _, hbound⟩
    simp only [roundWithAccuracy, hfirst, hsecond]
    have hzero : (ExtendedMantissa.mk em.roundedMantissa false false >>> 0).mantissa =
        em.roundedMantissa := by simpa using (shiftRight_spec em.roundedMantissa 0).1
    simp only [hzero, dif_neg hpos.ne']
    simp
  · -- rounding carries into a new digit
    have hlog' : em.roundedMantissa.log2 - 52 = 1 := by rw [heq, Nat.log2_two_pow]
    rw [hlog'] at hsecond
    refine ⟨2 ^ 52, j + 1, by positivity, ?_, le_refl _, by norm_num, by omega, ?_⟩
    · simp only [roundWithAccuracy, hfirst, hsecond]
      have hone : (ExtendedMantissa.mk em.roundedMantissa false false >>> 1).mantissa = 2 ^ 52 := by
        rw [(shiftRight_spec em.roundedMantissa 1).1, heq]
        norm_num
      simp only [hone]
      rw [dif_neg (by positivity)]
      congr 1
      push_cast
      ring
    · rw [show 2 ^ 52 * 2 ^ (j + 1) = em.roundedMantissa * 2 ^ j by rw [heq]; ring]
      exact hbound

/-- A step adds at most one part in `2 ^ 53`. -/
theorem round_relative {m r k : Nat} (hm : 2 ^ 52 ≤ m)
    (h : 2 * (r * 2 ^ k) ≤ 2 * m + 2 ^ (m.log2 - 52)) :
    2 ^ 53 * (r * 2 ^ k) ≤ (2 ^ 53 + 1) * m := by
  have hlog : 52 ≤ m.log2 := (Nat.le_log2 (by omega)).2 hm
  have hplace : 2 ^ 52 * 2 ^ (m.log2 - 52) ≤ m := by
    rw [← pow_add, Nat.add_sub_cancel' hlog]
    exact Nat.log2_self_le (by omega)
  omega

/-- A step changes nothing if the digits that are too many are all `0`. -/
theorem round_exact (s : Sign) {q j : Nat} {e : Int} (hq : 2 ^ 52 ≤ q) (hq' : q < 2 ^ 53)
    (he : -1074 ≤ e) :
    ∃ h, roundWithAccuracy Format.binary64 s (q * 2 ^ j) e .exact =
      .finite s q (e + (j : Nat)) h := by
  have hlog : (q * 2 ^ j).log2 = 52 + j := by
    rw [log2_mul_pow (by omega), (Nat.log2_eq_iff (by omega)).2 ⟨hq, hq'⟩]
  have hfull : 2 ^ 52 ≤ q * 2 ^ j := hq.trans (Nat.le_mul_of_pos_right q (by positivity))
  obtain ⟨r, k, hpos, hround, hr, hr', hk, hlow, hhigh⟩ := round_full s hfull he
  rw [hlog, Nat.add_sub_cancel_left] at hk hlow hhigh
  obtain ⟨i, rfl⟩ := Nat.exists_eq_add_of_le hk
  have hequal : r * 2 ^ i = q := by
    have hpower : 0 < 2 ^ j := by positivity
    have hplaces : r * 2 ^ (j + i) = r * 2 ^ i * 2 ^ j := by ring
    rw [hplaces] at hlow hhigh
    rcases Nat.lt_trichotomy (r * 2 ^ i) q with h | h | h
    · have := Nat.mul_le_mul_right (2 ^ j) (Nat.succ_le_of_lt h)
      rw [Nat.succ_mul] at this
      omega
    · exact h
    · have := Nat.mul_le_mul_right (2 ^ j) (Nat.succ_le_of_lt h)
      rw [Nat.succ_mul] at this
      omega
  obtain rfl : i = 0 := by
    by_contra hi
    have := Nat.mul_le_mul_left r (Nat.le_self_pow hi 2)
    omega
  obtain rfl : r = q := by simpa using hequal
  exact ⟨hpos, hround⟩

/-! ### Packing -/

/-- A significand with 53 digits and an exponent in range survive packing. -/
theorem unpack_pack (s : Sign) {m : Nat} {e : Int} (h : 0 < m) (hm : 2 ^ 52 ≤ m)
    (hm' : m < 2 ^ 53) (he : -1074 ≤ e) (he' : e ≤ 971) :
    (Float.Model.pack (.finite s m e h)).unpack = .finite s m e h := by
  obtain ⟨b, hb⟩ : ∃ b : Nat, e + 1075 = b := ⟨(e + 1075).toNat, by omega⟩
  have hlog : m.log2 + 1 = Format.binary64.mantissaBits := by
    show m.log2 + 1 = 53
    have := (Nat.le_log2 (by omega)).2 hm
    have := (Nat.log2_lt (by omega)).2 hm'
    omega
  have hpack : UnpackedFloat.pack Format.binary64 (.finite s m e h) =
      packComponents Format.binary64 s (BitVec.ofNat _ b) (BitVec.ofNat _ m) := by
    have hbiased : (e + (Format.binary64.exponentBias : Int) +
        (Format.binary64.mantissaBitsWithoutImplicit : Int)).toNat = b := by
      simp only [Format.exponentBias]
      norm_num
      omega
    have hrange : ¬2 ^ 11 ≤ b + 1 := by omega
    rw [UnpackedFloat.pack, hbiased, if_neg hrange, if_pos hlog]
  -- the first digit is not stored, but put back
  have hmantissa : (1#1 ++ BitVec.ofNat 52 m).toNat = m := by
    rw [BitVec.toNat_append, BitVec.toNat_ofNat, BitVec.toNat_ofNat,
      ← Nat.shiftLeft_add_eq_or_of_lt (Nat.mod_lt _ (by positivity)), Nat.shiftLeft_eq]
    omega
  have hleast : ¬BitVec.ofNat 11 b = 0#11 := by
    intro heq
    have := congrArg BitVec.toNat heq
    simp at this
    omega
  have hgreatest : ¬BitVec.ofNat 11 b = -1#11 := by
    intro heq
    have := congrArg BitVec.toNat heq
    simp at this
    omega
  show UnpackedFloat.unpack Format.binary64
    (UnpackedFloat.pack Format.binary64 (.finite s m e h)) = _
  rw [hpack, UnpackedFloat.unpack]
  simp only [unpackSign_packComponents, unpackExponent_packComponents,
    unpackMantissa_packComponents, Sign.ofBitVec_toBitVec, if_neg hleast, if_neg hgreatest]
  congr 1
  rw [BitVec.toNat_ofNat, Format.exponentBias]
  simp
  omega

/-! ### Bounds -/

/-- A power with an integer exponent as a quotient of powers with natural ones. -/
theorem zpow_eq_div {b : ℚ} (hb : b ≠ 0) (e : Int) : b ^ e = b ^ e.toNat / b ^ (-e).toNat := by
  rw [← zpow_natCast, ← zpow_natCast, ← zpow_sub₀ hb]
  congr 1
  omega

/-- Whether a double is a finite number of at least 53 binary digits before the point or shifted
there, and at most `q` apart from its sign. -/
def AtMost (x : Float) (q : ℚ) : Prop :=
  ∃ s m e h, x.toModel.unpack = .finite s m e h ∧ 2 ^ 52 ≤ m ∧ m < 2 ^ 53 ∧ -52 ≤ e ∧
    (m : ℚ) * 2 ^ e ≤ q

variable {x y : Float} {p q : ℚ}

theorem AtMost.isInf (h : AtMost x q) : x.isInf = false := by
  obtain ⟨s, m, e, hpos, hunpack, -⟩ := h
  show x.toModel.unpack.isInf = false
  rw [hunpack]
  rfl

/-- What a rounding step makes is bounded by whatever bounds the results that it may have. -/
theorem atMost_of_round {s : Sign} {m : Nat} {e : Int}
    (hx : x.toModel = .pack (roundWithAccuracy Format.binary64 s m e .exact)) (hm : 2 ^ 52 ≤ m)
    (he : -1074 ≤ e) (hplaces : 0 ≤ e + m.log2)
    (hq : ∀ r k : Nat, m.log2 - 52 ≤ k → 2 * (r * 2 ^ k) ≤ 2 * m + 2 ^ (m.log2 - 52) →
      (r * 2 ^ k : ℚ) * 2 ^ e ≤ q)
    (hsmall : q < 2 ^ 1024) : AtMost x q := by
  obtain ⟨r, k, hpos, hround, hr, hr', hk, hbound, -⟩ := round_full s hm he
  have hlog : 52 ≤ m.log2 := (Nat.le_log2 (by omega)).2 hm
  have hvalue : (r : ℚ) * 2 ^ (e + (k : Int)) ≤ q := by
    calc (r : ℚ) * 2 ^ (e + (k : Int)) = (r * 2 ^ k : ℚ) * 2 ^ e := by
          rw [zpow_add₀ (by norm_num), zpow_natCast]
          ring
      _ ≤ q := hq r k hk hbound
  -- a greater exponent would put the result above the bound
  have hexponent : e + (k : Int) ≤ 971 := by
    by_contra hlarge
    have hle : (2 : ℚ) ^ 972 ≤ 2 ^ (e + (k : Int)) := by
      rw [← zpow_natCast]
      exact zpow_le_zpow_right₀ (by norm_num) (by omega)
    have hfull : (2 ^ 52 : ℚ) ≤ r := by exact_mod_cast hr
    refine absurd hsmall (not_lt.2 ?_)
    calc (2 : ℚ) ^ 1024 = (2 : ℚ) ^ 52 * (2 : ℚ) ^ 972 := by rw [← pow_add]
      _ ≤ (r : ℚ) * (2 : ℚ) ^ (e + (k : Int)) := by gcongr
      _ ≤ q := hvalue
  exact ⟨s, r, e + k, hpos, by rw [hx, hround, unpack_pack s hpos hr hr' (by omega) hexponent], hr,
    hr', by omega, hvalue⟩

/-- One part in `2 ^ 53`, and the whole. -/
def slack : ℚ := 1 + 1 / 2 ^ 53

theorem one_le_slack : 1 ≤ slack := by
  unfold slack
  norm_num

theorem slack_nonneg : 0 ≤ slack :=
  zero_le_one.trans one_le_slack

/-- A rounding step multiplies a bound by `slack`. -/
theorem atMost_of_round_relative {s : Sign} {m : Nat} {e : Int}
    (hx : x.toModel = .pack (roundWithAccuracy Format.binary64 s m e .exact)) (hm : 2 ^ 52 ≤ m)
    (he : -1074 ≤ e) (hplaces : 0 ≤ e + m.log2) (hq : (m : ℚ) * 2 ^ e ≤ q)
    (hsmall : q * slack < 2 ^ 1024) : AtMost x (q * slack) := by
  refine atMost_of_round hx hm he hplaces (fun r k _ hbound => ?_) hsmall
  have hcast : (2 ^ 53 * (r * 2 ^ k) : ℚ) ≤ (2 ^ 53 + 1) * m := by
    exact_mod_cast round_relative hm hbound
  have hrel : (r * 2 ^ k : ℚ) ≤ m * slack := by
    unfold slack
    linarith
  calc (r * 2 ^ k : ℚ) * 2 ^ e ≤ (m * slack) * 2 ^ e := by gcongr
    _ = (m * 2 ^ e) * slack := by ring
    _ ≤ q * slack := by
      gcongr
      exact slack_nonneg

theorem toModel_mul {s t : Sign} {m n : Nat} {e f : Int} {hm : 0 < m} {hn : 0 < n}
    (hx : x.toModel.unpack = .finite s m e hm) (hy : y.toModel.unpack = .finite t n f hn) :
    (x * y).toModel =
      .pack (roundWithAccuracy Format.binary64 (s * t) (m * n) (e + f) .exact) := by
  show Float.Model.pack (UnpackedFloat.mul _ x.toModel.unpack y.toModel.unpack) = _
  rw [hx, hy]
  rfl

/-- **Products.** -/
theorem AtMost.mul (hx : AtMost x p) (hy : AtMost y q) (hsmall : p * q * slack < 2 ^ 1024) :
    AtMost (x * y) (p * q * slack) := by
  obtain ⟨s₁, m₁, e₁, h₁, hunpack₁, hm₁, hm₁', he₁, hvalue₁⟩ := hx
  obtain ⟨s₂, m₂, e₂, h₂, hunpack₂, hm₂, hm₂', he₂, hvalue₂⟩ := hy
  have hproduct := toModel_mul hunpack₁ hunpack₂
  have hm : 2 ^ 104 ≤ m₁ * m₂ := by
    calc 2 ^ 104 = 2 ^ 52 * 2 ^ 52 := by norm_num
      _ ≤ m₁ * m₂ := Nat.mul_le_mul hm₁ hm₂
  have hlog : 104 ≤ (m₁ * m₂).log2 := (Nat.le_log2 (by positivity)).2 hm
  refine atMost_of_round_relative hproduct (le_trans (by norm_num) hm) (by omega) (by omega) ?_
    hsmall
  calc ((m₁ * m₂ : Nat) : ℚ) * 2 ^ (e₁ + e₂) = (m₁ * 2 ^ e₁) * (m₂ * 2 ^ e₂) := by
        rw [zpow_add₀ (by norm_num)]
        push_cast
        ring
    _ ≤ p * q := by
      have : (0 : ℚ) ≤ m₁ * 2 ^ e₁ := by positivity
      gcongr
      linarith

/-! ### Whole numbers and powers of ten -/

/-- The conversion shifts a whole number to 53 digits before it rounds. -/
theorem toModel_toFloat {n j : Nat} (hn : 0 < n) (hsmall : n < 2 ^ 53) (hj : 52 = n.log2 + j) :
    n.toUInt64.toFloat.toModel =
      .pack (roundWithAccuracy Format.binary64 .positive (n * 2 ^ j) (-(j : Int)) .exact) := by
  have htoNat : n.toUInt64.toNat = n := by
    rw [Nat.toUInt64, UInt64.toNat_ofNat']
    exact Nat.mod_eq_of_lt (by omega)
  have hpositive : compare (n : Int) 0 = .gt := compare_gt_iff_gt.2 (by omega)
  have hshift : (0 - Format.binary64.targetExponent (totalExponent (n : Int).toNat 0)).toNat =
      j := by
    simp only [Format.targetExponent, totalExponent, Format.mantissaBits, Format.minExponent,
      Int.toNat_natCast]
    norm_num
    omega
  show Float.Model.pack (UnpackedFloat.ofUInt64 _ n.toUInt64) = _
  rw [UnpackedFloat.ofUInt64, htoNat, UnpackedFloat.ofNat, UnpackedFloat.ofInt,
    UnpackedFloat.normalize, hpositive]
  simp only [UnpackedFloat.round, decreaseExponent, hshift]
  rw [Int.toNat_natCast, zero_sub, Nat.shiftLeft_eq]

/-- A whole number of 53 bits is exact as a double. -/
theorem unpack_toFloat {n j : Nat} (hn : 0 < n) (hsmall : n < 2 ^ 53) (hj : 52 = n.log2 + j) :
    ∃ h, n.toUInt64.toFloat.toModel.unpack = .finite .positive (n * 2 ^ j) (-(j : Int)) h := by
  have hlog : (n * 2 ^ j).log2 = 52 := by rw [log2_mul_pow hn, ← hj]
  have hpos : 0 < n * 2 ^ j := by positivity
  obtain ⟨hq, hq'⟩ := (Nat.log2_eq_iff hpos.ne').1 hlog
  obtain ⟨h, hround⟩ := round_exact .positive (j := 0) (e := -(j : Int)) hq hq' (by omega)
  rw [pow_zero, mul_one, Nat.cast_zero, add_zero] at hround
  exact ⟨h, by rw [toModel_toFloat hn hsmall hj, hround, unpack_pack _ h hq hq' (by omega)
    (by omega)]⟩

/-- A whole number that may be too long is rounded once. -/
theorem toModel_ofNat {n : Nat} (hlarge : 2 ^ 53 ≤ n) :
    (Float.ofNat n).toModel =
      .pack (roundWithAccuracy Format.binary64 .positive (n * 2 ^ 53) (-53) .exact) := by
  have hbits : ¬(0 : Int) < -(2 ^ Format.binary64.exponentBits + (n.log2 : Int)) := by
    have : (0 : Int) ≤ 2 ^ Format.binary64.exponentBits := by positivity
    omega
  show (Float.ofScientific n false 0).toModel = _
  rw [Float.ofScientific, dif_neg (by omega)]
  show Float.Model.ofScientific n 0 = _
  rw [Float.Model.ofScientific, UnpackedFloat.ofScientific, dif_neg (by omega),
    if_neg (by decide), if_neg hbits, if_pos (le_refl _)]
  simp only [UnpackedFloat.mul, Nat.shiftLeft_eq, Int.toNat_zero, pow_zero, mul_one]
  rfl

/-- Whether `r * 2 ^ k` has 53 digits before the places and is as near to `n * 2 ^ 53` as the places
of that number allow. -/
structure Nearest (n r k : Nat) : Prop where
  full : 2 ^ 52 ≤ r
  fits : r < 2 ^ 53
  places : n.log2 + 1 ≤ k
  low : 2 * (r * 2 ^ k) ≤ 2 * (n * 2 ^ 53) + 2 ^ (n.log2 + 1)
  high : 2 * (n * 2 ^ 53) ≤ 2 * (r * 2 ^ k) + 2 ^ (n.log2 + 1)

/-- A whole number of 53 bits stays as it is when it is multiplied by one. -/
theorem unpack_ofNat_of_small {n j : Nat} (hn : 0 < n) (hsmall : n < 2 ^ 53)
    (hj : 52 = n.log2 + j) :
    ∃ h, (Float.ofNat n).toModel.unpack = .finite .positive (n * 2 ^ j) (-(j : Int)) h := by
  obtain ⟨hpos, hunpack⟩ := unpack_toFloat hn hsmall hj
  have hlog : (n * 2 ^ j).log2 = 52 := by rw [log2_mul_pow hn, ← hj]
  obtain ⟨hq, hq'⟩ := (Nat.log2_eq_iff hpos.ne').1 hlog
  obtain ⟨h, hround⟩ := round_exact .positive (j := 52) (e := -(j : Int) + -52) hq hq' (by omega)
  have hone : (Float.exactlyRepresentablePowersOfTen[0]).toModel.unpack =
      .finite .positive (2 ^ 52) (-52) (by decide) := rfl
  have hproduct := toModel_mul hunpack hone
  rw [show Sign.positive * Sign.positive = .positive from rfl, hround,
    show -(j : Int) + -52 + (52 : Nat) = -j by omega] at hproduct
  refine ⟨h, ?_⟩
  show (Float.ofScientific n false 0).toModel.unpack = _
  rw [Float.ofScientific, dif_pos ⟨hsmall, by omega⟩]
  show (n.toUInt64.toFloat * Float.exactlyRepresentablePowersOfTen[0]).toModel.unpack = _
  rw [hproduct, unpack_pack _ h hq hq' (by omega) (by omega)]

/-- **A whole number of 64 bits as a double** is the nearest double. -/
theorem unpack_ofNat {n : Nat} (hn : 0 < n) (hsize : n < UInt64.size) :
    ∃ r k h, (Float.ofNat n).toModel.unpack = .finite .positive r ((k : Nat) - 53) h ∧
      Nearest n r k ∧ k ≤ 66 := by
  by_cases hsmall : n < 2 ^ 53
  · have hlog : n.log2 ≤ 52 := by
      have := (Nat.log2_lt hn.ne').2 hsmall
      omega
    obtain ⟨j, hj⟩ := Nat.exists_eq_add_of_le hlog
    obtain ⟨h, hunpack⟩ := unpack_ofNat_of_small hn hsmall hj
    obtain ⟨hq, hq'⟩ := (Nat.log2_eq_iff h.ne').1
      (show (n * 2 ^ j).log2 = 52 by rw [log2_mul_pow hn, ← hj])
    have hexponent : ((53 - j : Nat) : Int) - 53 = -j := by omega
    have hvalue : n * 2 ^ j * 2 ^ (53 - j) = n * 2 ^ 53 := by
      rw [mul_assoc, ← pow_add, Nat.add_sub_cancel' (by omega)]
    exact ⟨n * 2 ^ j, 53 - j, h, by rw [hunpack, hexponent],
      ⟨hq, hq', by omega, hvalue ▸ Nat.le_add_right _ _, hvalue ▸ Nat.le_add_right _ _⟩, by omega⟩
  · have hlog : (n * 2 ^ 53).log2 - 52 = n.log2 + 1 := by rw [log2_mul_pow hn]; omega
    obtain ⟨r, k, h, hround, hr, hr', hk, hlow, hhigh⟩ := round_full .positive (m := n * 2 ^ 53)
      (e := -53) (by omega) (by decide)
    rw [hlog] at hk hlow hhigh
    have hsize' : n < 2 ^ 64 := hsize
    have hplace : 2 ^ (n.log2 + 1) ≤ 2 ^ 64 := by
      refine Nat.pow_le_pow_right (by decide) ?_
      have := (Nat.log2_lt hn.ne').2 hsize'
      omega
    have hbound : k ≤ 66 := by
      have hpower : 2 ^ k < 2 ^ 66 := by
        have := Nat.mul_le_mul_right (2 ^ k) hr
        omega
      exact ((Nat.pow_lt_pow_iff_right (by decide)).1 hpower).le
    rw [show -53 + (k : Int) = k - 53 by omega] at hround
    refine ⟨r, k, h, ?_, ⟨hr, hr', hk, hlow, hhigh⟩, hbound⟩
    rw [toModel_ofNat (by omega), hround, unpack_pack _ h hr hr' (by omega) (by omega)]

/-- A whole number of 64 bits as a double. -/
theorem atMost_ofNat {n : Nat} (hn : 0 < n) (hsize : n < UInt64.size) :
    AtMost (Float.ofNat n) (n * slack) := by
  obtain ⟨r, k, hpos, hunpack, hnearest, -⟩ := unpack_ofNat hn hsize
  have hlog : (n * 2 ^ 53).log2 - 52 = n.log2 + 1 := by rw [log2_mul_pow hn]; omega
  have hrelative := round_relative (m := n * 2 ^ 53) (r := r) (k := k) (by omega)
    (hlog ▸ hnearest.low)
  have hplaces := hnearest.places
  refine ⟨.positive, r, k - 53, hpos, hunpack, hnearest.full, hnearest.fits, by omega, ?_⟩
  have hcast : (2 ^ 53 * (r * 2 ^ k) : ℚ) ≤ (2 ^ 53 + 1) * (n * 2 ^ 53) := by
    exact_mod_cast hrelative
  rw [zpow_sub₀ (by norm_num), zpow_natCast, ← mul_div_assoc, div_le_iff₀ (by positivity)]
  unfold slack
  norm_num
  linarith

/-- Whether a double is known to be at most a whole number and one part in `2 ^ 53` of it. -/
def isNearly (n : Nat) (x : Float) : Bool :=
  match x.toModel.unpack with
  | .finite _ m e _ =>
    decide (2 ^ 52 ≤ m ∧ m < 2 ^ 53 ∧ -52 ≤ e ∧
      m * 2 ^ e.toNat * 2 ^ 53 ≤ (2 ^ 53 + 1) * n * 2 ^ (-e).toNat)
  | _ => false

theorem atMost_of_isNearly {n : Nat} (h : isNearly n x = true) : AtMost x (n * slack) := by
  unfold isNearly at h
  split at h
  case h_2 => cases h
  case h_1 s m e hpos hunpack =>
    obtain ⟨hm, hm', he, hvalue⟩ := of_decide_eq_true h
    refine ⟨s, m, e, hpos, hunpack, hm, hm', he, ?_⟩
    have hcast : (m * 2 ^ e.toNat * 2 ^ 53 : ℚ) ≤ (2 ^ 53 + 1) * n * 2 ^ (-e).toNat := by
      exact_mod_cast hvalue
    rw [zpow_eq_div (by norm_num), ← mul_div_assoc, div_le_iff₀ (by positivity)]
    unfold slack
    linarith

theorem atMost_powerOfTen {n : Nat} (h : n ≤ Numeral.greatestPower) :
    AtMost (Numeral.powerOfTen n) (10 ^ n * slack) := by
  have htable : (List.range (Numeral.greatestPower + 1)).all
      (fun n => isNearly (10 ^ n) (Numeral.powerOfTen n)) = true := by decide +kernel
  have hnearly := List.all_eq_true.1 htable n (List.mem_range.2 (by omega))
  exact_mod_cast atMost_of_isNearly hnearly

end Hashmark.Number
