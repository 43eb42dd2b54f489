import Hashmark.Proofs.Storing.Numerals

/-!
# The texts of finite doubles

A finite double is written with a decimal from the interval of the reals that round to it. The upper
end of that interval bounds the numeral that is read back. It leaves room for the roundings of the
scaled reading, except for the three greatest doubles, whose texts are read one by one.
-/

namespace Hashmark.Number

open Float.Model

/-! ### Digits of whole numbers -/

theorem isDigit_toDigits (n : Nat) : ∀ c ∈ Nat.toDigits 10 n, c.isDigit = true :=
  fun _ => Nat.isDigit_of_mem_toDigits (by decide) (by decide)

/-- The first digit of a positive number is not zero. -/
theorem head?_toDigits {n : Nat} (hn : 0 < n) : (Nat.toDigits 10 n).head? ≠ some '0' := by
  induction n using Nat.strongRecOn with
  | ind n ih =>
    by_cases hsmall : n < 10
    · rw [Nat.toDigits_of_lt_base hsmall]
      interval_cases n <;> decide
    · rw [Nat.toDigits_of_base_le (by decide) (by omega),
        List.head?_append_of_ne_nil _ Nat.toDigits_ne_nil]
      exact ih (n / 10) (by omega) (by omega)

theorem isDigit_of_mem_zeros {n : Nat} {c : Char} (h : c ∈ List.replicate n '0') :
    c.isDigit = true := by
  rw [List.eq_of_mem_replicate h]
  rfl

/-! ### The spellings of a decimal -/

namespace Decimal

/-- What a decimal stands for. -/
def value (d : Decimal) : ℚ :=
  d.digits * 10 ^ d.exponent

/-- The exponent of the first digit. -/
def order (d : Decimal) : Int :=
  d.exponent + ((Nat.toDigits 10 d.digits).length - 1)

/-- The spelling with an exponent. -/
def scientificForm (d : Decimal) : Written where
  whole := (Nat.toDigits 10 d.digits).take 1
  fraction := (Nat.toDigits 10 d.digits).drop 1
  power? := some d.order
  whole_ne_nil := by simp [Nat.toDigits_ne_nil]
  whole_isDigit c hc := isDigit_toDigits _ c (List.mem_of_mem_take hc)
  whole_head := by
    cases hdigits : Nat.toDigits 10 d.digits with
    | nil => simp
    | cons c cs => simp
  fraction_isDigit c hc := isDigit_toDigits _ c (List.mem_of_mem_drop hc)

/-- The spelling without an exponent of a number below one. -/
def fractionForm (d : Decimal) : Written where
  whole := ['0']
  fraction := List.replicate (-((Nat.toDigits 10 d.digits).length + d.exponent)).toNat '0' ++
    Nat.toDigits 10 d.digits
  power? := none
  whole_ne_nil := by simp
  whole_isDigit := by simp
  whole_head := by simp
  fraction_isDigit c hc := by
    rcases List.mem_append.1 hc with hc | hc
    · exact isDigit_of_mem_zeros hc
    · exact isDigit_toDigits _ c hc

/-- The spelling without an exponent of a whole number. -/
def wholeForm (d : Decimal) (h : 0 < d.digits) : Written where
  whole := Nat.toDigits 10 d.digits ++ List.replicate d.exponent.toNat '0'
  fraction := ['0']
  power? := none
  whole_ne_nil := by simp [Nat.toDigits_ne_nil]
  whole_isDigit c hc := by
    rcases List.mem_append.1 hc with hc | hc
    · exact isDigit_toDigits _ c hc
    · exact isDigit_of_mem_zeros hc
  whole_head hc := by
    rw [List.head?_append_of_ne_nil _ Nat.toDigits_ne_nil] at hc
    exact absurd hc (head?_toDigits h)
  fraction_isDigit := by simp

/-- The spelling without an exponent of a number with a point between its digits. -/
def mixedForm (d : Decimal) (h : 0 < d.digits) (places : Nat) : Written where
  whole := (Nat.toDigits 10 d.digits).take (places + 1)
  fraction := (Nat.toDigits 10 d.digits).drop (places + 1)
  power? := none
  whole_ne_nil := by simp [Nat.toDigits_ne_nil]
  whole_isDigit c hc := isDigit_toDigits _ c (List.mem_of_mem_take hc)
  whole_head hc := by
    rw [List.head?_take, if_neg (by omega)] at hc
    exact absurd hc (head?_toDigits h)
  fraction_isDigit c hc := isDigit_toDigits _ c (List.mem_of_mem_drop hc)

end Decimal

/-- Whether a numeral spells a decimal, shows that it is none of the whole numbers, and keeps the
parts that are computed with apart from the fraction small. -/
structure Written.Spells (w : Written) (d : Decimal) : Prop where
  tailChars_ne_nil : w.tailChars ≠ []
  magnitude_eq : ∀ negative, (w.numeral negative).magnitude = d.value
  whole_length : w.whole.length ≤ 19
  power_lt : w.power?.getD 0 < Numeral.exponentLimit

namespace Decimal

/-- The digits of a decimal, cut in two, and the places after the cut. -/
theorem magnitude_of_digits {w : Written} {d : Decimal} (negative : Bool)
    (hdigits : (Nat.ofDigitChars 10 (w.whole ++ w.fraction) 0 : ℚ) *
      10 ^ (w.power?.getD 0 - w.fraction.length) = d.value) :
    (w.numeral negative).magnitude = d.value := by
  rw [← hdigits, Numeral.magnitude, Written.numeral, digitsOf, digitsOf, ← List.map_append,
    ← digitsOf, foldDigits_digitsOf, List.length_map]

theorem toList_scientific (d : Decimal) : d.scientific.toList = d.scientificForm.chars := by
  have hpower : "e".toList ++ (if d.order < 0 then "-" else "+").toList ++
      (toString d.order.natAbs).toList = Written.powerChars d.order := by
    rw [Written.powerChars, Nat.toString_eq_ofList_toDigits, String.toList_ofList]
    split <;> simp
  have htail : d.scientificForm.power?.elim [] Written.powerChars =
      Written.powerChars d.order := rfl
  rw [Written.chars, Written.tailChars, htail, ← hpower]
  obtain ⟨c, cs, hcons⟩ :=
    List.exists_cons_of_ne_nil (Nat.toDigits_ne_nil (b := 10) (n := d.digits))
  simp only [scientific, scientificForm, order, hcons, String.toList_append]
  cases cs <;> simp

theorem spells_scientificForm {d : Decimal} (horder : d.order < Numeral.exponentLimit) :
    d.scientificForm.Spells d where
  tailChars_ne_nil := by simp [Written.tailChars, scientificForm, Written.powerChars]
  magnitude_eq negative := by
    refine magnitude_of_digits negative ?_
    simp only [scientificForm, List.take_append_drop, Nat.ofDigitChars_ten_toDigits, value,
      Option.getD_some, order, List.length_drop]
    congr 2
    have : 0 < (Nat.toDigits 10 d.digits).length := Nat.length_toDigits_pos
    omega
  whole_length := by
    simp only [scientificForm, List.length_take]
    omega
  power_lt := horder

theorem spells_fractionForm {d : Decimal}
    (hplaces : (Nat.toDigits 10 d.digits).length + d.exponent ≤ 0) :
    d.fractionForm.Spells d where
  tailChars_ne_nil := by simp [Written.tailChars, fractionForm, Nat.toDigits_ne_nil]
  magnitude_eq negative := by
    refine magnitude_of_digits negative ?_
    have hvalue : Nat.ofDigitChars 10 (d.fractionForm.whole ++ d.fractionForm.fraction) 0 =
        d.digits := by
      show Nat.ofDigitChars 10 (['0'] ++ (_ ++ Nat.toDigits 10 d.digits)) 0 = _
      rw [Nat.ofDigitChars_append, Nat.ofDigitChars_append, Nat.ofDigitChars_replicate_zero]
      exact Nat.ofDigitChars_ten_toDigits
    have hplaces : (0 : Int) - d.fractionForm.fraction.length = d.exponent := by
      simp only [fractionForm, List.length_append, List.length_replicate]
      omega
    rw [hvalue, value, ← hplaces]
    rfl
  whole_length := by simp [fractionForm]
  power_lt := show (0 : Int) < Numeral.exponentLimit by decide

theorem spells_wholeForm {d : Decimal} (h : 0 < d.digits) (horder : d.order < 16)
    (hexponent : 0 ≤ d.exponent) : (d.wholeForm h).Spells d where
  tailChars_ne_nil := by simp [Written.tailChars, wholeForm]
  magnitude_eq negative := by
    refine magnitude_of_digits negative ?_
    have hvalue : Nat.ofDigitChars 10 ((d.wholeForm h).whole ++ (d.wholeForm h).fraction) 0 =
        10 * (10 ^ d.exponent.toNat * d.digits) := by
      show Nat.ofDigitChars 10 (Nat.toDigits 10 d.digits ++ _ ++ ['0']) 0 = _
      rw [Nat.ofDigitChars_append, Nat.ofDigitChars_append, Nat.ofDigitChars_replicate_zero,
        Nat.ofDigitChars_ten_toDigits]
      rfl
    have hpower : (10 : ℚ) ^ d.exponent = 10 ^ d.exponent.toNat := by
      rw [← zpow_natCast, Int.toNat_of_nonneg hexponent]
    rw [hvalue, value, hpower]
    simp [wholeForm]
    field_simp
  whole_length := by
    simp only [wholeForm, List.length_append, List.length_replicate]
    unfold order at horder
    omega
  power_lt := show (0 : Int) < Numeral.exponentLimit by decide

theorem spells_mixedForm {d : Decimal} (h : 0 < d.digits) (horder : d.order < 16) {places : Nat}
    (hplaces : (Nat.toDigits 10 d.digits).length + d.exponent = places + 1)
    (hexponent : d.exponent < 0) : (d.mixedForm h places).Spells d where
  tailChars_ne_nil := by
    have hcut : places + 1 < (Nat.toDigits 10 d.digits).length := by omega
    simpa [Written.tailChars, mixedForm] using hcut
  magnitude_eq negative := by
    refine magnitude_of_digits negative ?_
    simp only [mixedForm, List.take_append_drop, Nat.ofDigitChars_ten_toDigits, value]
    congr 2
    simp
    omega
  whole_length := by
    simp only [mixedForm, List.length_take]
    unfold order at horder
    omega
  power_lt := show (0 : Int) < Numeral.exponentLimit by decide

/-- **A text without an exponent** is a numeral. -/
theorem exists_positional {d : Decimal} (h : 0 < d.digits) (horder : d.order < 16) :
    ∃ w : Written, (d.positional ".0").toList = w.chars ∧ w.Spells d := by
  have hnonempty : Nat.toDigits 10 d.digits ≠ [] := Nat.toDigits_ne_nil
  unfold positional
  by_cases hsmall : (Nat.toDigits 10 d.digits).length + d.exponent ≤ 0
  · refine ⟨d.fractionForm, ?_, spells_fractionForm hsmall⟩
    simp [if_pos hsmall, Written.chars, Written.tailChars, fractionForm, zeros, hnonempty]
  · by_cases hexponent : 0 ≤ d.exponent
    · refine ⟨d.wholeForm h, ?_, spells_wholeForm h horder hexponent⟩
      simp [if_neg hsmall, if_pos hexponent, Written.chars, Written.tailChars, wholeForm, zeros]
    · obtain ⟨places, hplaces⟩ : ∃ places : Nat,
          (Nat.toDigits 10 d.digits).length + d.exponent = places + 1 :=
        ⟨((Nat.toDigits 10 d.digits).length + d.exponent - 1).toNat, by omega⟩
      have hcut : places + 1 < (Nat.toDigits 10 d.digits).length := by omega
      refine ⟨d.mixedForm h places, ?_, spells_mixedForm h horder hplaces (by omega)⟩
      have hnat : ((Nat.toDigits 10 d.digits).length + d.exponent).toNat = places + 1 := by omega
      simp only [if_neg hsmall, if_neg hexponent, hnat]
      simpa [Written.chars, Written.tailChars, mixedForm] using hcut

theorem ten_zpow_order_le {d : Decimal} (h : 0 < d.digits) : (10 : ℚ) ^ d.order ≤ d.value := by
  obtain ⟨k, hk⟩ : ∃ k, (Nat.toDigits 10 d.digits).length = k + 1 :=
    Nat.exists_eq_succ_of_ne_zero Nat.length_toDigits_pos.ne'
  have hlead : 10 ^ k ≤ d.digits := by
    rcases Nat.eq_zero_or_pos k with rfl | hpos
    · exact h
    · by_contra hless
      have := (Nat.length_toDigits_le_iff (by decide) hpos).2 (not_le.1 hless)
      omega
  have hcast : (10 ^ k : ℚ) ≤ d.digits := by exact_mod_cast hlead
  have horder : d.order = k + d.exponent := by
    unfold order
    omega
  rw [horder, zpow_add₀ (by norm_num), zpow_natCast, value]
  gcongr

theorem order_lt {d : Decimal} (h : 0 < d.digits) (hvalue : d.value < 2 ^ 1024) :
    d.order < 309 := by
  by_contra hlarge
  have hpower : (2 : ℚ) ^ 1024 ≤ 10 ^ (309 : Int) := by
    have : (2 : Nat) ^ 1024 ≤ 10 ^ 309 := by decide +kernel
    exact_mod_cast this
  refine absurd hvalue (not_lt.2 ?_)
  calc (2 : ℚ) ^ 1024 ≤ 10 ^ (309 : Int) := hpower
    _ ≤ 10 ^ d.order := zpow_le_zpow_right₀ (by norm_num) (by omega)
    _ ≤ d.value := ten_zpow_order_le h

end Decimal

/-- A decimal that leaves room for the roundings has a scaled reading. -/
theorem Written.Spells.scaled?_isSome {w : Written} {d : Decimal} (h : w.Spells d)
    (hroom : d.value * slack ^ 3 < 2 ^ 1024) (negative : Bool) :
    (w.numeral negative).scaled?.isSome := by
  refine Numeral.scaled?_isSome ?_ h.power_lt (by rwa [h.magnitude_eq])
  calc foldDigits 0 (digitsOf w.whole)
      < (0 + 1) * 10 ^ (digitsOf w.whole).length := foldDigits_lt (digitsOf_lt w.whole_isDigit) 0
    _ ≤ 10 ^ 19 := by
      rw [zero_add, one_mul, digitsOf, List.length_map]
      exact Nat.pow_le_pow_right (by decide) h.whole_length
    _ < UInt64.size := by decide

/-! ### The decimal of a double -/

/-- A number of units of `10 ^ e` that is below a bound in these units. -/
theorem Decimal.value_mul_le {e : Int} {n denominator bound : Nat}
    (h : n * (denominator * Nat.pow 10 e.toNat) ≤ bound * Nat.pow 10 (-e).toNat) :
    (⟨n, e⟩ : Decimal).value * denominator ≤ bound := by
  have hcast : (n * (denominator * 10 ^ e.toNat) : ℚ) ≤ bound * 10 ^ (-e).toNat := by
    exact_mod_cast h
  rw [Decimal.value, zpow_eq_div (by norm_num), ← mul_div_assoc, div_mul_eq_mul_div,
    div_le_iff₀ (by positivity)]
  linarith

namespace Interval

theorem contains_spec {i : Interval} {n : Nat} (h : i.contains n = true) :
    i.low ≤ n * i.denominator ∧ n * i.denominator ≤ i.high := by
  unfold contains at h
  split at h
  case isTrue => simpa using h
  case isFalse =>
    have : i.low < n * i.denominator ∧ n * i.denominator < i.high := by simpa using h
    exact ⟨this.1.le, this.2.le⟩

theorem contains_of_nearest? {i : Interval} {tie : Tie} {n : Nat} (h : i.nearest? tie = some n) :
    i.contains n = true := by
  simp only [nearest?] at h
  split at h
  case h_1 hbelow habove =>
    cases h
    split
    · exact habove
    · exact hbelow
  case h_2 hbelow _ =>
    cases h
    exact hbelow
  case h_3 _ habove =>
    cases h
    exact habove
  case h_4 => cases h

/-- **The search** finds a positive decimal that is not above the interval, given that the last grid
is not coarser than the value. -/
theorem search_spec {i : Interval} (tie : Tie) (hlow : 0 < i.low) (hden : 0 < i.denominator)
    (hvalue : i.value ≤ i.high) {e : Int} {grids : Nat}
    (hlast : (10 : ℚ) ^ (e - grids) * i.denominator ≤ i.value) :
    0 < (i.search tie e grids).digits ∧
      (i.search tie e grids).value * i.denominator ≤ i.high := by
  induction grids generalizing e with
  | zero =>
    -- the last grid cuts the value off, which leaves at least one unit
    have hunit : Nat.pow 10 e.toNat * i.denominator ≤ i.value * Nat.pow 10 (-e).toNat := by
      rw [Nat.cast_zero, sub_zero] at hlast
      rw [zpow_eq_div (by norm_num), div_mul_eq_mul_div, div_le_iff₀ (by positivity)] at hlast
      exact_mod_cast hlast
    have hpos : 0 < i.denominator * Nat.pow 10 e.toNat :=
      Nat.mul_pos hden (Nat.pow_pos (by decide))
    refine ⟨Nat.div_pos (by rwa [mul_comm] at hunit) hpos, ?_⟩
    refine (Decimal.value_mul_le (Nat.div_mul_le_self _ _)).trans ?_
    exact_mod_cast hvalue
  | succ grids ih =>
    -- either a number of units is in the interval, or the search goes on with the next grid
    unfold search
    split
    case h_1 n hnearest =>
      obtain ⟨habove, hbelow⟩ := contains_spec (contains_of_nearest? hnearest)
      refine ⟨Nat.pos_of_ne_zero fun hzero => ?_, Decimal.value_mul_le hbelow⟩
      subst hzero
      have : 0 < i.low * Nat.pow 10 (-e).toNat := Nat.mul_pos hlow (Nat.pow_pos (by decide))
      rw [zero_mul] at habove
      exact absurd habove (not_le.2 this)
    case h_2 =>
      refine ih ?_
      have hsame : e - 1 - (grids : Int) = e - ((grids + 1 : Nat) : Int) := by
        push_cast
        ring
      rwa [hsame]

end Interval

/-- A power of two with an exponent that doubles have is not below the last grid. -/
theorem lastGrid_le {k : Int} (hleast : -1074 ≤ k) (hgreatest : k ≤ 1023) :
    (10 : ℚ) ^ ((k + 1) * 30103 / 100000 + 2 - 24) ≤ 2 ^ k := by
  have htable : (List.range 2098).all (fun j =>
      let k : Int := j - 1074
      let e := (k + 1) * 30103 / 100000 + 2 - 24
      decide (10 ^ e.toNat * 2 ^ (-k).toNat ≤ 2 ^ k.toNat * 10 ^ (-e).toNat)) = true := by
    decide +kernel
  obtain ⟨j, rfl⟩ : ∃ j : Nat, k = j - 1074 := ⟨(k + 1074).toNat, by omega⟩
  have hnat := of_decide_eq_true
    (List.all_eq_true.1 htable j (List.mem_range.2 (by omega)))
  rw [zpow_eq_div (by norm_num), zpow_eq_div (by norm_num),
    div_le_div_iff₀ (by positivity) (by positivity)]
  exact_mod_cast hnat

/-- The last grid of a double is not coarser than its value. -/
theorem lastGrid_le_value {m : Nat} {e : Int} (hm : 0 < m) (hsize : m < 2 ^ 53)
    (hleast : -1074 ≤ e) (hgreatest : e ≤ 971) :
    (10 : ℚ) ^ ((m.log2 + 1 + e) * 30103 / 100000 + 2 - (24 : Nat)) ≤
      (4 * m : Nat) * 2 ^ (e - 2) := by
  have hlog : m.log2 ≤ 52 := by
    have := (Nat.log2_lt (by omega)).2 hsize
    omega
  have hfull : (2 : ℚ) ^ m.log2 ≤ m := by exact_mod_cast Nat.log2_self_le hm.ne'
  calc (10 : ℚ) ^ ((m.log2 + 1 + e) * 30103 / 100000 + 2 - (24 : Nat))
      = 10 ^ ((m.log2 + e + 1) * 30103 / 100000 + 2 - 24) := by
        rw [add_right_comm]
        rfl
    _ ≤ 2 ^ (m.log2 + e) := lastGrid_le (by omega) (by omega)
    _ = 2 ^ m.log2 * 2 ^ e := by rw [zpow_add₀ (by norm_num), zpow_natCast]
    _ ≤ m * 2 ^ e := by gcongr
    _ = (4 * m : Nat) * 2 ^ (e - 2) := by
      rw [zpow_sub₀ (by norm_num)]
      push_cast
      field_simp

/-- **The shortest decimal** of a double is positive and not above the reals that round to it. -/
theorem shortest_spec (tie : Tie) {m : Nat} {e : Int} (hm : 0 < m) (hsize : m < 2 ^ 53)
    (hleast : -1074 ≤ e) (hgreatest : e ≤ 971) :
    0 < (shortest tie m e).digits ∧ (shortest tie m e).value ≤ (4 * m + 2) * 2 ^ (e - 2) := by
  set i := Interval.ofDyadic m e with hi
  have hden : i.denominator = 2 ^ (-(e - 2)).toNat := by
    show Nat.pow 2 (2 - e).toNat = _
    rw [neg_sub]
    rfl
  -- the bounds of the interval are numbers of quarters of a place over one denominator
  have hscale : ∀ n : Nat,
      ((n * Nat.pow 2 (e - 2).toNat : Nat) : ℚ) = n * 2 ^ (e - 2) * i.denominator := by
    intro n
    rw [hden, zpow_eq_div (by norm_num) (e - 2)]
    push_cast
    field_simp
    norm_cast
  have hlow : 0 < i.low := by
    refine Nat.mul_pos ?_ (Nat.pow_pos (by decide))
    split <;> omega
  have hvalue : i.value ≤ i.high := Nat.mul_le_mul_right _ (by omega)
  have hlast : (10 : ℚ) ^ ((m.log2 + 1 + e) * 30103 / 100000 + 2 - (24 : Nat)) * i.denominator ≤
      i.value := by
    calc _ ≤ (4 * m : Nat) * 2 ^ (e - 2) * (i.denominator : ℚ) := by
          gcongr
          exact lastGrid_le_value hm hsize hleast hgreatest
      _ = i.value := (hscale (4 * m)).symm
  obtain ⟨hpos, hhigh⟩ := Interval.search_spec tie hlow (by rw [hden]; positivity) hvalue hlast
  refine ⟨hpos, le_of_mul_le_mul_right ?_ (by rw [hden]; positivity : (0 : ℚ) < i.denominator)⟩
  calc (shortest tie m e).value * i.denominator ≤ i.high := hhigh
    _ = (4 * m + 2 : Nat) * 2 ^ (e - 2) * i.denominator := hscale (4 * m + 2)
    _ = (4 * m + 2) * 2 ^ (e - 2) * i.denominator := by push_cast; rfl

/-! ### Finite doubles -/

theorem isFinite_iff (x : Float) :
    x.isFinite = true ↔ x.toBits.toNat / Dyadic.leastFull % 2048 ≠ 2047 := by
  have hexponent : (@UnpackedFloat.unpackExponent Format.binary64
      x.toModel.toBits.toBitVec).toNat = x.toBits.toNat / Dyadic.leastFull % 2048 := by
    rw [UnpackedFloat.unpackExponent, BitVec.toNat_cast, BitVec.extractLsb_toNat,
      Nat.shiftRight_eq_div_pow]
    rfl
  have hall : @UnpackedFloat.unpackExponent Format.binary64
      x.toModel.toBits.toBitVec = -1#11 ↔ x.toBits.toNat / Dyadic.leastFull % 2048 = 2047 := by
    rw [← BitVec.toNat_inj, hexponent]
    rfl
  rw [Ne, ← hall, Float.isFinite, Float.Model.isFinite, Float.Model.unpack, UnpackedFloat.unpack]
  constructor
  · intro h heq
    simp only [heq, if_pos] at h
    split at h <;> cases h
  · intro hne
    simp only [if_neg hne]
    split
    · split <;> rfl
    · rfl

theorem ofFloat?_eq_none {x : Float} (h : x.isFinite = false) : Dyadic.ofFloat? x = none := by
  have hbiased : x.toBits.toNat / Dyadic.leastFull % 2048 = 2047 := by
    by_contra hne
    rw [(isFinite_iff x).2 hne] at h
    cases h
  simp only [Dyadic.ofFloat?, if_pos hbiased]

/-- The value of a finite double. -/
theorem ofFloat?_of_isFinite {x : Float} (h : x.isFinite = true) :
    ∃ d, Dyadic.ofFloat? x = some d ∧ d.significand < 2 ^ 53 ∧ -1074 ≤ d.exponent ∧
      d.exponent ≤ 971 := by
  have hbiased := (isFinite_iff x).1 h
  have hlt : x.toBits.toNat / Dyadic.leastFull % 2048 < 2048 := Nat.mod_lt _ (by decide)
  have hfraction : x.toBits.toNat % Dyadic.leastFull < 2 ^ 52 := Nat.mod_lt _ (by decide)
  have hfull : Dyadic.leastFull = 2 ^ 52 := rfl
  unfold Dyadic.ofFloat?
  simp only [if_neg hbiased]
  split
  case isTrue =>
    exact ⟨_, rfl, hfraction.trans (by norm_num), le_refl _, show (-1074 : Int) ≤ 971 by decide⟩
  case isFalse hpos =>
    refine ⟨_, rfl, ?_, ?_, ?_⟩
    · simp only [hfull] at hfraction ⊢
      omega
    · simp only [Dyadic.leastExponent]
      omega
    · simp only [Dyadic.leastExponent]
      omega

/-- The greatest doubles: the only ones that do not leave room for three roundings. -/
theorem greatest_scaled? : ∀ m ∈ [2 ^ 53 - 3, 2 ^ 53 - 2, 2 ^ 53 - 1], ∀ negative : Bool,
    16 ≤ (shortest .even m 971).order ∧
      (((shortest .even m 971).scientificForm.numeral negative).scaled?).isSome := by
  decide +kernel

/-- The upper end of the interval of any other double leaves room for three roundings. -/
theorem room_of_double {m : Nat} {e : Int} (hsize : m < 2 ^ 53) (hgreatest : e ≤ 971)
    (hother : ¬(e = 971 ∧ 2 ^ 53 - 3 ≤ m)) :
    ((4 * m + 2) * 2 ^ (e - 2) : ℚ) * slack ^ 3 < 2 ^ 1024 := by
  have hmax : ((4 * m + 2) * 2 ^ (e - 2) : ℚ) ≤ (2 ^ 55 - 14) * 2 ^ 969 := by
    by_cases hlast : e = 971
    · have hm : (m : ℚ) ≤ 2 ^ 53 - 4 := by
        have : (m + 4 : ℚ) ≤ 2 ^ 53 := by
          exact_mod_cast (show m + 4 ≤ 2 ^ 53 by omega)
        linarith
      have hpower : (2 : ℚ) ^ (e - 2) = 2 ^ 969 := by
        rw [hlast, ← zpow_natCast]
        rfl
      rw [hpower]
      gcongr
      linarith
    · have hm : (m : ℚ) ≤ 2 ^ 53 := by exact_mod_cast hsize.le
      have hpower : (2 : ℚ) ^ (e - 2) ≤ 2 ^ 968 := by
        rw [← zpow_natCast]
        exact zpow_le_zpow_right₀ (by norm_num) (by push_cast; omega)
      calc ((4 * m + 2) * 2 ^ (e - 2) : ℚ) ≤ (4 * 2 ^ 53 + 2) * 2 ^ 968 := by gcongr
        _ ≤ ((2 ^ 55 - 14) * 2) * 2 ^ 968 := by
          gcongr
          norm_num
        _ = (2 ^ 55 - 14) * 2 ^ 969 := by rw [mul_assoc, ← pow_succ']
  have hslack : ((2 ^ 55 - 14) * slack ^ 3 : ℚ) < 2 ^ 55 := by
    unfold slack
    norm_num
  calc ((4 * m + 2) * 2 ^ (e - 2) : ℚ) * slack ^ 3 ≤ ((2 ^ 55 - 14) * 2 ^ 969) * slack ^ 3 := by
        gcongr
        exact pow_nonneg slack_nonneg 3
    _ = ((2 ^ 55 - 14) * slack ^ 3) * 2 ^ 969 := mul_right_comm _ _ _
    _ < 2 ^ 55 * 2 ^ 969 := mul_lt_mul_of_pos_right hslack (pow_pos two_pos 969)
    _ = 2 ^ 1024 := by rw [← pow_add]

/-- The sign of a number. -/
def signChars (negative : Bool) : List Char :=
  if negative then ['-'] else []

/-- The spelling of zero. -/
def Written.zero : Written :=
  Decimal.fractionForm ⟨0, -1⟩

/-- A decimal that leaves room for the roundings is spelled in the layout of stored artifacts. -/
theorem Decimal.exists_spelling {d : Decimal} (hpos : 0 < d.digits)
    (hroom : d.value * slack ^ 3 < 2 ^ 1024) :
    ∃ w : Written,
      (if Layout.json.exponential d.order then d.scientific else d.positional ".0").toList =
        w.chars ∧ w.Spells d := by
  by_cases hexponential : Layout.json.exponential d.order = true
  · have hlt : d.value < 2 ^ 1024 := by
      refine lt_of_le_of_lt (le_mul_of_one_le_right ?_ (one_le_pow₀ one_le_slack)) hroom
      unfold Decimal.value
      positivity
    have horder := Decimal.order_lt hpos hlt
    rw [if_pos hexponential]
    exact ⟨_, d.toList_scientific, Decimal.spells_scientificForm (horder.trans (by decide))⟩
  · rw [if_neg hexponential]
    refine Decimal.exists_positional hpos ?_
    simp [Layout.json] at hexponential
    omega

/-- The decimal of a positive double has a spelling with a scaled reading. -/
theorem exists_written_shortest {m : Nat} {e : Int} (hm : 0 < m) (hsize : m < 2 ^ 53)
    (hleast : -1074 ≤ e) (hgreatest : e ≤ 971) (negative : Bool) :
    ∃ w : Written,
      (if Layout.json.exponential (shortest .even m e).order then (shortest .even m e).scientific
        else (shortest .even m e).positional ".0").toList = w.chars ∧
      w.tailChars ≠ [] ∧ (w.numeral negative).scaled?.isSome := by
  obtain ⟨hpos, hvalue⟩ := shortest_spec .even hm hsize hleast hgreatest
  -- the bound is too coarse for the three greatest doubles, which are read one by one
  by_cases hgreat : e = 971 ∧ 2 ^ 53 - 3 ≤ m
  · obtain ⟨rfl, hm⟩ := hgreat
    have hmem : m ∈ [2 ^ 53 - 3, 2 ^ 53 - 2, 2 ^ 53 - 1] := by
      simp only [List.mem_cons, List.not_mem_nil, or_false]
      omega
    obtain ⟨horder, hscaled⟩ := greatest_scaled? m hmem negative
    have hexponential : Layout.json.exponential (shortest .even m 971).order = true := by
      simp [Layout.json, horder]
    rw [if_pos hexponential]
    refine ⟨_, Decimal.toList_scientific _, ?_, hscaled⟩
    simp [Written.tailChars, Decimal.scientificForm, Written.powerChars]
  · set d := shortest .even m e with hd
    have hroom : d.value * slack ^ 3 < 2 ^ 1024 := by
      refine lt_of_le_of_lt ?_ (room_of_double hsize hgreatest hgreat)
      gcongr
      exact pow_nonneg slack_nonneg 3
    obtain ⟨w, hchars, hspells⟩ := Decimal.exists_spelling hpos hroom
    exact ⟨w, hchars, hspells.tailChars_ne_nil, hspells.scaled?_isSome hroom negative⟩

/-- **A finite double is written as a numeral with a scaled reading.** -/
theorem exists_written {x : Float} (h : x.isFinite = true) :
    ∃ negative, ∃ w : Written, (JsonNumber.real x).chars = signChars negative ++ w.chars ∧
      w.tailChars ≠ [] ∧ (w.numeral negative).scaled?.isSome := by
  obtain ⟨d, hd, hsize, hleast, hgreatest⟩ := ofFloat?_of_isFinite h
  have hsign : (if d.negative then "-" else "").toList = signChars d.negative := by
    unfold signChars
    split <;> simp
  refine ⟨d.negative, ?_⟩
  simp only [JsonNumber.chars, Layout.text?, hd, Option.map_some]
  by_cases hzero : d.significand = 0
  · refine ⟨.zero, ?_, by decide, ?_⟩
    · rw [if_pos hzero, String.toList_append, String.toList_append, hsign, List.append_assoc]
      congr 1
    · cases d.negative <;> decide +kernel
  · obtain ⟨w, hchars, hrest⟩ := exists_written_shortest (Nat.pos_of_ne_zero hzero) hsize hleast
      hgreatest d.negative
    refine ⟨w, ?_, hrest⟩
    rw [if_neg hzero, ← hchars, ← hsign]
    show (if Layout.json.exponential (shortest .even d.significand d.exponent).order then _
      else _ : String).toList = _
    split <;> exact String.toList_append

end Hashmark.Number
