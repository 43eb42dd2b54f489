import Hashmark.Json.Reader
import Hashmark.Proofs.Storing.Doubles

/-!
# Reading numerals back

What becomes of a numeral that is written into a JSON text. `Written` is a numeral in the spelling
that is used there, and `readNumber_chars` finds it again in front of whatever may follow a value.
`Numeral.scaled?_isSome` says which numerals have a scaled reading: three rounding steps are taken,
and the numeral has to leave room for them below `2 ^ 1024`.
-/

namespace Hashmark.Number

/-! ### Digits -/

theorem foldDigits_append (start : Nat) (xs ys : List Nat) :
    foldDigits start (xs ++ ys) = foldDigits (foldDigits start xs) ys :=
  List.foldl_append

theorem le_foldDigits (start : Nat) (ds : List Nat) :
    start * 10 ^ ds.length ≤ foldDigits start ds := by
  induction ds generalizing start with
  | nil => simp [foldDigits]
  | cons d ds ih =>
    calc start * 10 ^ (ds.length + 1) = (10 * start) * 10 ^ ds.length := by ring
      _ ≤ (10 * start + d) * 10 ^ ds.length := by gcongr; omega
      _ ≤ foldDigits (10 * start + d) ds := ih _

theorem foldDigits_lt {ds : List Nat} (h : ∀ d ∈ ds, d < 10) (start : Nat) :
    foldDigits start ds < (start + 1) * 10 ^ ds.length := by
  induction ds generalizing start with
  | nil => simp [foldDigits]
  | cons d ds ih =>
    have hd : d < 10 := h d List.mem_cons_self
    calc foldDigits (10 * start + d) ds
        < (10 * start + d + 1) * 10 ^ ds.length :=
          ih (fun d hd => h d (List.mem_cons_of_mem _ hd)) _
      _ ≤ (10 * (start + 1)) * 10 ^ ds.length := by gcongr; omega
      _ = (start + 1) * 10 ^ (ds.length + 1) := by ring

theorem toNat_of_isDigit {c : Char} (h : c.isDigit = true) : 48 ≤ c.toNat ∧ c.toNat ≤ 57 := by
  simpa using Char.isDigit_iff_toNat.1 h

theorem ne_of_isDigit {c d : Char} (h : c.isDigit = true) (hd : d.isDigit = false) : c ≠ d := by
  rintro rfl
  rw [h] at hd
  cases hd

/-- The digits that some characters stand for. -/
def digitsOf (cs : List Char) : List Nat :=
  cs.map fun c => c.toNat - 48

theorem foldDigits_digitsOf (start : Nat) (cs : List Char) :
    foldDigits start (digitsOf cs) = Nat.ofDigitChars 10 cs start := by
  simp only [foldDigits, digitsOf, Nat.ofDigitChars, List.foldl_map]
  rfl

theorem digitsOf_lt {cs : List Char} (h : ∀ c ∈ cs, c.isDigit = true) :
    ∀ d ∈ digitsOf cs, d < 10 := by
  intro d hd
  obtain ⟨c, hc, rfl⟩ := List.mem_map.1 hd
  have := toNat_of_isDigit (h c hc)
  omega

theorem digitsOf_ne_nil {cs : List Char} (h : cs ≠ []) : digitsOf cs ≠ [] := by
  simpa [digitsOf] using h

theorem takeDigits_append {cs rest : List Char} (h : ∀ c ∈ cs, c.isDigit = true)
    (hrest : ∀ c ∈ rest.head?, c.isDigit = false) :
    takeDigits (cs ++ rest) = (digitsOf cs, rest) := by
  induction cs with
  | nil =>
    cases rest with
    | nil => rfl
    | cons c rest => simp [takeDigits, digit?, hrest c rfl, digitsOf]
  | cons c cs ih =>
    have htail := ih fun c hc => h c (List.mem_cons_of_mem _ hc)
    simp [takeDigits, digit?, h c List.mem_cons_self, htail, digitsOf]

/-! ### The scaled reading -/

namespace Numeral

/-- What a numeral stands for, apart from its sign. -/
def magnitude (n : Numeral) : ℚ :=
  foldDigits 0 (n.whole ++ n.fraction) * 10 ^ (n.exponent - n.fraction.length)

/-- The leading digits are a part of the digits. -/
theorem leading_spec {start n : Nat} {ds dropped : List Nat} (h : leading start ds = (n, dropped)) :
    ∃ taken, ds = taken ++ dropped ∧ n = foldDigits start taken := by
  induction ds generalizing start with
  | nil =>
    cases h
    exact ⟨[], rfl, rfl⟩
  | cons d ds ih =>
    rw [leading] at h
    split at h
    case isTrue =>
      obtain ⟨taken, rfl, rfl⟩ := ih h
      exact ⟨d :: taken, rfl, rfl⟩
    case isFalse =>
      cases h
      exact ⟨[], rfl, rfl⟩

theorem leading_lt {start n : Nat} {ds dropped : List Nat} (h : leading start ds = (n, dropped))
    (hstart : start < UInt64.size) : n < UInt64.size := by
  induction ds generalizing start with
  | nil =>
    cases h
    exact hstart
  | cons d ds ih =>
    rw [leading] at h
    split at h
    case isTrue hlt => exact ih h hlt
    case isFalse =>
      cases h
      exact hstart

/-- Nothing is dropped of a number of 64 bits. -/
theorem leading_all {start : Nat} {ds : List Nat} (h : foldDigits start ds < UInt64.size) :
    leading start ds = (foldDigits start ds, []) := by
  induction ds generalizing start with
  | nil => rfl
  | cons d ds ih =>
    have hle := le_foldDigits (10 * start + d) ds
    have hpos : 1 ≤ 10 ^ ds.length := Nat.one_le_pow _ _ (by decide)
    have hlt : 10 * start + d < UInt64.size := by
      calc 10 * start + d ≤ (10 * start + d) * 10 ^ ds.length := Nat.le_mul_of_pos_right _ hpos
        _ ≤ foldDigits (10 * start + d) ds := hle
        _ < UInt64.size := h
    rw [leading, if_pos hlt]
    exact ih h

theorem zero_mul_isInf {n : Nat} (h : n ≤ greatestPower) :
    (Float.ofNat 0 * powerOfTen n).isInf = false := by
  obtain ⟨s, m, e, hpos, hunpack, -⟩ := atMost_powerOfTen h
  have hproduct : (Float.ofNat 0 * powerOfTen n).toModel = .pack (.zero (.positive * s)) := by
    show Float.Model.pack (Float.Model.UnpackedFloat.mul _ (Float.ofNat 0).toModel.unpack
      (powerOfTen n).toModel.unpack) = _
    rw [hunpack]
    rfl
  show (Float.ofNat 0 * powerOfTen n).toModel.unpack.isInf = false
  rw [hproduct]
  cases s <;> rfl

/-- Scaling a whole number of 64 bits succeeds if the result leaves room for three roundings. -/
theorem scale?_isSome {n : Nat} {e : Int} (hn : n < UInt64.size)
    (hroom : (n * 10 ^ e : ℚ) * slack ^ 3 < 2 ^ 1024) : (scale? (Float.ofNat n) e).isSome := by
  unfold scale?
  by_cases hneg : e < 0
  · rw [if_pos hneg]
    rfl
  · obtain ⟨k, rfl⟩ : ∃ k : Nat, e = k := ⟨e.toNat, by omega⟩
    rw [if_neg hneg, Int.toNat_natCast]
    rw [zpow_natCast] at hroom
    by_cases hzero : n = 0
    · subst hzero
      by_cases hpower : k ≤ greatestPower
      · simp [if_pos hpower, zero_mul_isInf hpower]
      · have hself : (Float.ofNat 0 == 0) = true := by decide
        simp [if_neg hpower, hself]
    · have hpos : (1 : ℚ) ≤ n := by exact_mod_cast Nat.pos_of_ne_zero hzero
      have hslack : (1 : ℚ) ≤ slack ^ 3 := one_le_pow₀ one_le_slack
      by_cases hpower : k ≤ greatestPower
      · -- digits, power and product are each rounded once
        have hproduct : (n * slack) * (10 ^ k * slack) * slack = (n * 10 ^ k : ℚ) * slack ^ 3 := by
          ring
        have hfinite := (atMost_ofNat (Nat.pos_of_ne_zero hzero) hn).mul (atMost_powerOfTen hpower)
          (by rwa [hproduct])
        simp [if_pos hpower, hfinite.isInf]
      · have hlarge : (2 : ℚ) ^ 1024 ≤ 10 ^ (greatestPower + 1) := by
          have : (2 : Nat) ^ 1024 ≤ 10 ^ (greatestPower + 1) := by decide +kernel
          exact_mod_cast this
        refine absurd hroom (not_lt.2 ?_)
        calc (2 : ℚ) ^ 1024 ≤ 10 ^ (greatestPower + 1) := hlarge
          _ ≤ 10 ^ k := pow_le_pow_right₀ (by norm_num) (by omega)
          _ ≤ n * 10 ^ k := le_mul_of_one_le_left (by positivity) hpos
          _ ≤ n * 10 ^ k * slack ^ 3 := le_mul_of_one_le_right (by positivity) hslack

/-- **Numerals with a scaled reading.** -/
theorem scaled?_isSome {n : Numeral} (hwhole : foldDigits 0 n.whole < UInt64.size)
    (hexponent : n.exponent < exponentLimit) (hroom : n.magnitude * slack ^ 3 < 2 ^ 1024) :
    n.scaled?.isSome := by
  obtain ⟨negative, whole, fraction, exponent⟩ := n
  obtain ⟨digits, dropped, hleading⟩ : ∃ digits dropped,
      leading (foldDigits 0 whole) fraction = (digits, dropped) := ⟨_, _, rfl⟩
  obtain ⟨taken, rfl, hdigits⟩ := leading_spec hleading
  have hsize := leading_lt hleading hwhole
  simp only [scaled?, leading_all hwhole, hleading, Option.isSome_map]
  rw [if_neg (by simpa using hexponent)]
  split
  case isTrue => rfl
  case isFalse =>
    refine scale?_isSome hsize (lt_of_le_of_lt ?_ hroom)
    -- the digits that are dropped only make the numeral greater
    have hle : digits * 10 ^ dropped.length ≤ foldDigits 0 (whole ++ (taken ++ dropped)) := by
      rw [foldDigits_append, foldDigits_append, hdigits]
      exact le_foldDigits _ _
    have hcast : (digits * 10 ^ dropped.length : ℚ) ≤
        foldDigits 0 (whole ++ (taken ++ dropped)) := by exact_mod_cast hle
    have hplaces : (10 : ℚ) ^ (([] : List Nat).length -
        (((taken ++ dropped).length : Int) - dropped.length) + exponent) =
        10 ^ dropped.length * 10 ^ (exponent - (taken ++ dropped).length) := by
      rw [← zpow_natCast, ← zpow_add₀ (by norm_num)]
      congr 1
      simp only [List.length_nil, List.length_append]
      push_cast
      ring
    have hslack : (0 : ℚ) ≤ slack ^ 3 := pow_nonneg slack_nonneg 3
    rw [hplaces, ← mul_assoc]
    unfold magnitude
    gcongr

end Numeral

/-! ### The spelling in JSON texts -/

/-- A numeral without a sign as JSON texts have it: no leading zeros, a fraction if there is a
point, and perhaps an exponent. -/
structure Written where
  whole : List Char
  fraction : List Char
  power? : Option Int
  whole_ne_nil : whole ≠ []
  whole_isDigit : ∀ c ∈ whole, c.isDigit = true
  whole_head : whole.head? = some '0' → whole = ['0']
  fraction_isDigit : ∀ c ∈ fraction, c.isDigit = true

namespace Written

/-- An exponent with its letter and its sign. -/
def powerChars (e : Int) : List Char :=
  'e' :: (if e < 0 then '-' else '+') :: Nat.toDigits 10 e.natAbs

/-- The fraction and the exponent. -/
def tailChars (w : Written) : List Char :=
  (if w.fraction = [] then [] else '.' :: w.fraction) ++ w.power?.elim [] powerChars

/-- The characters of a numeral. -/
def chars (w : Written) : List Char :=
  w.whole ++ w.tailChars

/-- The numeral that is written, with a sign. -/
def numeral (w : Written) (negative : Bool) : Numeral :=
  ⟨negative, digitsOf w.whole, digitsOf w.fraction, w.power?.getD 0⟩

end Written

end Hashmark.Number

namespace Hashmark.Json

open Number (Written takeDigits takeDigits_append digitsOf digitsOf_ne_nil toNat_of_isDigit)

/-- Whether a text may follow a value: it is over, or goes on with a separator or a closing
bracket. -/
def Ends (rest : List Char) : Prop :=
  ∀ c ∈ rest.head?, c = ',' ∨ c = ']' ∨ c = '}'

theorem Ends.not_isDigit {rest : List Char} (h : Ends rest) :
    ∀ c ∈ rest.head?, c.isDigit = false := by
  intro c hc
  rcases h c hc with rfl | rfl | rfl <;> rfl

theorem readExponent_powerChars (e : Int) {rest : List Char} (hrest : Ends rest) :
    readExponent ((Written.powerChars e).tail ++ rest) = some (e, rest) := by
  have hdigits : takeDigits (Nat.toDigits 10 e.natAbs ++ rest) =
      (digitsOf (Nat.toDigits 10 e.natAbs), rest) :=
    takeDigits_append (fun c hc => Nat.isDigit_of_mem_toDigits (by decide) (by decide) hc)
      hrest.not_isDigit
  have hvalue : Number.foldDigits 0 (digitsOf (Nat.toDigits 10 e.natAbs)) = e.natAbs := by
    rw [Number.foldDigits_digitsOf, Nat.ofDigitChars_ten_toDigits]
  obtain ⟨d, ds, hcons⟩ := List.exists_cons_of_ne_nil
    (digitsOf_ne_nil (Nat.toDigits_ne_nil (b := 10) (n := e.natAbs)))
  by_cases hneg : e < 0
  · have habs : -(e.natAbs : Int) = e := by omega
    simp only [Written.powerChars, List.tail_cons, if_pos hneg, List.cons_append, readExponent,
      hdigits, hcons]
    rw [← hcons, hvalue, if_pos trivial, habs]
  · have habs : (e.natAbs : Int) = e := by omega
    simp only [Written.powerChars, List.tail_cons, if_neg hneg, List.cons_append, readExponent,
      hdigits, hcons]
    rw [← hcons, hvalue, if_neg (by decide), habs]

/-- The fraction is read up to the exponent or to the end. -/
theorem readFraction_tailChars (w : Written) {rest : List Char} (hrest : Ends rest) :
    readFraction (w.tailChars ++ rest) =
      some (digitsOf w.fraction, w.power?.elim [] Written.powerChars ++ rest) := by
  -- neither the exponent nor what may follow starts with a digit or a point
  have hnext : ∀ c ∈ (w.power?.elim [] Written.powerChars ++ rest).head?,
      c.isDigit = false ∧ c ≠ '.' := by
    intro c hc
    cases hpower : w.power? with
    | none =>
      rw [hpower] at hc
      rcases hrest c hc with rfl | rfl | rfl <;> decide
    | some e =>
      rw [hpower] at hc
      obtain rfl : 'e' = c := by simpa [Written.powerChars] using hc
      decide
  by_cases hfraction : w.fraction = []
  · rw [Written.tailChars, if_pos hfraction, List.nil_append, hfraction]
    unfold readFraction
    split
    case h_1 cs heq => exact absurd rfl (hnext '.' (by rw [heq]; rfl)).2
    case h_2 => rfl
  · obtain ⟨d, ds, hcons⟩ := List.exists_cons_of_ne_nil (digitsOf_ne_nil hfraction)
    simp only [Written.tailChars, if_neg hfraction, List.cons_append, List.append_assoc,
      readFraction, takeDigits_append w.fraction_isDigit fun c hc => (hnext c hc).1, hcons]

/-- The whole part is read up to the point, the exponent or the end. -/
theorem takeDigits_chars (w : Written) {rest : List Char} (hrest : Ends rest) :
    takeDigits (w.chars ++ rest) = (digitsOf w.whole, w.tailChars ++ rest) := by
  have hfirst : ∀ c ∈ (w.tailChars ++ rest).head?, c.isDigit = false := by
    intro c hc
    unfold Written.tailChars at hc
    by_cases hfraction : w.fraction = []
    · cases hpower : w.power? with
      | none => exact hrest.not_isDigit c (by simpa [hfraction, hpower] using hc)
      | some e =>
        obtain rfl : 'e' = c := by simpa [hfraction, hpower, Written.powerChars] using hc
        decide
    · obtain rfl : '.' = c := by simpa [hfraction] using hc
      decide
  rw [Written.chars, List.append_assoc]
  exact takeDigits_append w.whole_isDigit hfirst

/-- A first digit zero is the only one. -/
theorem digitsOf_whole_ne (w : Written) (d : Nat) (ds : List Nat) :
    digitsOf w.whole ≠ 0 :: d :: ds := by
  intro hdigits
  obtain ⟨c, cs, hcons⟩ := List.exists_cons_of_ne_nil w.whole_ne_nil
  have hdigit := toNat_of_isDigit (w.whole_isDigit c (by rw [hcons]; simp))
  rw [hcons] at hdigits
  have hzero : c.toNat - 48 = 0 := (List.cons.inj hdigits).1
  have hc : c = '0' := by
    refine Char.toNat_inj.1 (show c.toNat = 48 from ?_)
    omega
  have hsingle := w.whole_head (by rw [hcons, hc]; rfl)
  rw [hcons] at hsingle
  rw [(List.cons.inj hsingle).2] at hdigits
  simp [digitsOf] at hdigits

/-- **A numeral is read back** as it was written, in front of anything that may follow it. -/
theorem readNumber_chars (w : Written) (negative : Bool) {rest : List Char} (hrest : Ends rest) :
    readNumber negative (w.chars ++ rest) =
      some (if w.tailChars = [] then ofWhole (w.numeral negative)
        else ofScaled (w.numeral negative), rest) := by
  have hwhole := takeDigits_chars w hrest
  unfold readNumber
  rw [hwhole]
  split
  case h_1 _ heq =>
    exact absurd (Prod.mk.inj heq).1 (digitsOf_ne_nil w.whole_ne_nil)
  case h_2 d ds _ heq =>
    exact absurd (Prod.mk.inj heq).1 (digitsOf_whole_ne w d ds)
  case h_3 whole next _ _ heq =>
    obtain ⟨rfl, rfl⟩ := Prod.mk.inj heq
    simp only [readFraction_tailChars w hrest, Option.bind_eq_bind, Option.bind_some]
    cases hpower : w.power? with
    | none =>
      have hnot : ∀ c ∈ rest.head?, c ≠ 'e' ∧ c ≠ 'E' := by
        intro c hc
        rcases hrest c hc with rfl | rfl | rfl <;> decide
      have htail : w.tailChars = [] ↔ (digitsOf w.fraction).isEmpty = true := by
        by_cases hfraction : w.fraction = [] <;>
          simp [Written.tailChars, hfraction, hpower, digitsOf]
      simp only [Option.elim_none, List.nil_append, htail]
      split
      case h_1 => exact absurd rfl (hnot 'e' rfl).1
      case h_2 => exact absurd rfl (hnot 'E' rfl).2
      case h_3 =>
        by_cases hempty : (digitsOf w.fraction).isEmpty = true
        · rw [if_pos hempty, if_pos hempty, Written.numeral, hpower, List.isEmpty_iff.1 hempty]
          rfl
        · rw [if_neg hempty, if_neg hempty, Written.numeral, hpower]
          rfl
    | some e =>
      have htail : w.tailChars ≠ [] := by simp [Written.tailChars, hpower, Written.powerChars]
      have hexponent := readExponent_powerChars e hrest
      rw [if_neg htail, Written.numeral, hpower]
      simp only [Option.elim_some, Written.powerChars, List.cons_append, List.tail_cons,
        Option.getD_some] at hexponent ⊢
      rw [hexponent]
      rfl

end Hashmark.Json
