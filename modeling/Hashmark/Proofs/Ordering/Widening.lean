import Hashmark.Proofs.Ordering.Ranks
import Hashmark.Proofs.Storing.Doubles

/-!
# Whole numbers among doubles

A whole number stands for the nearest double when it is compared with one (`Value.wide`). That double
is never NaN, and a greater whole number never gets a smaller double (`rank?_wide_le`): two whole
numbers of one length are rounded to the same places, where half a place up and half a place down
meet at most, and a power of two lies between those of different lengths. It need not get a greater
one: above `2 ^ 53` several whole numbers share a double.
-/

namespace Hashmark.Number

open Float.Model Float.Model.UnpackedFloat

/-! ### Rounding keeps the order -/

namespace Nearest

variable {m n r r' k k' : ℕ}

theorem exists_eq_mul (h : Nearest n r k) : ∃ a, r * 2 ^ k = a * 2 ^ (n.log2 + 1) := by
  obtain ⟨i, rfl⟩ := Nat.exists_eq_add_of_le h.places
  exact ⟨r * 2 ^ i, by ring⟩

/-- A whole number is not rounded across the powers of two around it. -/
theorem between (h : Nearest n r k) (hn : 0 < n) :
    2 ^ 52 * 2 ^ (n.log2 + 1) ≤ r * 2 ^ k ∧ r * 2 ^ k ≤ 2 ^ 53 * 2 ^ (n.log2 + 1) := by
  have hlow := h.low
  have hhigh := h.high
  obtain ⟨a, ha⟩ := h.exists_eq_mul
  have hself := Nat.log2_self_le hn.ne'
  have hsucc := Nat.lt_log2_self (n := n)
  have hpow : 2 ^ (n.log2 + 1) = 2 * 2 ^ n.log2 := pow_succ' 2 _
  rw [ha] at hlow hhigh ⊢
  refine ⟨Nat.mul_le_mul_right _ ?_, Nat.mul_le_mul_right _ ?_⟩
  · by_contra hless
    have := Nat.mul_le_mul_right (2 ^ (n.log2 + 1)) (Nat.succ_le_of_lt (not_le.1 hless))
    rw [Nat.succ_mul] at this
    omega
  · by_contra hmore
    have := Nat.mul_le_mul_right (2 ^ (n.log2 + 1)) (Nat.succ_le_of_lt (not_le.1 hmore))
    rw [Nat.succ_mul] at this
    omega

/-- **Rounding keeps the order of whole numbers.** -/
theorem mul_pow_le (h : Nearest m r k) (h' : Nearest n r' k') (hm : 0 < m) (hlt : m < n) :
    r * 2 ^ k ≤ r' * 2 ^ k' := by
  have hlog : m.log2 ≤ n.log2 :=
    (Nat.le_log2 (by omega)).2 ((Nat.log2_self_le hm.ne').trans hlt.le)
  rcases hlog.lt_or_eq with hlog | hlog
  · -- a power of two lies between them
    calc r * 2 ^ k ≤ 2 ^ 53 * 2 ^ (m.log2 + 1) := (h.between hm).2
      _ = 2 ^ 52 * 2 ^ (m.log2 + 2) := by ring
      _ ≤ 2 ^ 52 * 2 ^ (n.log2 + 1) :=
        Nat.mul_le_mul_left _ (Nat.pow_le_pow_right (by decide) (by omega))
      _ ≤ r' * 2 ^ k' := (h'.between (by omega)).1
  · -- they are rounded to the same places
    obtain ⟨a, ha⟩ := h.exists_eq_mul
    obtain ⟨b, hb⟩ := h'.exists_eq_mul
    have hlow := h.low
    have hhigh := h'.high
    rw [ha, hlog] at hlow
    rw [hb] at hhigh
    rw [ha, hb, hlog]
    refine Nat.mul_le_mul_right _ ?_
    by_contra hmore
    have := Nat.mul_le_mul_right (2 ^ (n.log2 + 1)) (Nat.succ_le_of_lt (not_le.1 hmore))
    rw [Nat.succ_mul] at this
    omega

/-- Numbers with 53 digits are in the order of their places, and then of their digits. -/
theorem lex_le (h : Nearest m r k) (h' : Nearest n r' k') (hm : 0 < m) (hlt : m < n) :
    k < k' ∨ k = k' ∧ r ≤ r' := by
  have hle := h.mul_pow_le h' hm hlt
  rcases Nat.lt_trichotomy k k' with hk | rfl | hk
  · exact .inl hk
  · exact .inr ⟨rfl, Nat.le_of_mul_le_mul_right hle (by positivity)⟩
  · have hmore : r' * 2 ^ k' < r * 2 ^ k := by
      calc r' * 2 ^ k' < 2 ^ 53 * 2 ^ k' := Nat.mul_lt_mul_of_pos_right h'.fits (by positivity)
        _ = 2 ^ 52 * 2 ^ (k' + 1) := by ring
        _ ≤ r * 2 ^ k := Nat.mul_le_mul h.full (Nat.pow_le_pow_right (by decide) hk)
    omega

end Nearest

/-! ### The ranks of whole numbers -/

/-- The ranks of the doubles that are nearest to a whole number: a negative one is as far from zero
as the positive one. -/
inductive StandsFor : ℤ → Rank → Prop
  | zero : StandsFor 0 (toLex (0, toLex (0, 0)))
  | positive {n r k : ℕ} (hn : 0 < n) (h : Nearest n r k) :
    StandsFor n (toLex (1, toLex ((k : ℤ) - 53, (r : ℤ))))
  | negative {n r k : ℕ} (hn : 0 < n) (h : Nearest n r k) :
    StandsFor (-n) (toLex (-1, toLex (-((k : ℤ) - 53), -(r : ℤ))))

theorem StandsFor.le {i j : ℤ} {p q : Rank} (hi : StandsFor i p) (hj : StandsFor j q)
    (hlt : i < j) : p ≤ q := by
  cases hi with
  | zero =>
    cases hj with
    | zero => omega
    | positive => simp [Prod.Lex.toLex_le_toLex]
    | negative => omega
  | positive hm h =>
    cases hj with
    | zero => omega
    | positive hn h' =>
      have := h.lex_le h' hm (by omega)
      rw [Prod.Lex.toLex_le_toLex, Prod.Lex.toLex_le_toLex]
      omega
    | negative => omega
  | negative hm h =>
    cases hj with
    | zero => simp [Prod.Lex.toLex_le_toLex]
    | positive => simp [Prod.Lex.toLex_le_toLex]
    | negative hn h' =>
      have := h'.lex_le h hn (by omega)
      rw [Prod.Lex.toLex_le_toLex, Prod.Lex.toLex_le_toLex]
      omega

theorem standsFor_ofInt {i : ℤ} (hi : i.natAbs < UInt64.size) :
    ∃ p, rank? (Float.ofInt i) = some p ∧ StandsFor i p := by
  match i with
  | .ofNat 0 => exact ⟨_, rfl, .zero⟩
  | .ofNat (n + 1) =>
    obtain ⟨r, k, h, hunpack, hnearest, -⟩ := unpack_ofNat n.succ_pos hi
    exact ⟨_, by rw [rank?, Float.ofInt, hunpack, rankOf?], .positive n.succ_pos hnearest⟩
  | .negSucc n =>
    obtain ⟨r, k, h, hunpack, hnearest, hk⟩ := unpack_ofNat n.succ_pos hi
    have hneg : (Float.ofNat n.succ).neg.toModel.unpack = .finite .negative r (k - 53) h := by
      show (Float.Model.pack (Float.ofNat n.succ).toModel.unpack.neg).unpack = _
      rw [hunpack]
      exact unpack_pack .negative h hnearest.full hnearest.fits (by omega) (by omega)
    exact ⟨_, by rw [rank?, Float.ofInt, hneg, rankOf?], .negative n.succ_pos hnearest⟩

/-- **A whole number is never NaN as a double**, and a greater one is no smaller double. -/
theorem rank?_wide_le {a b : Int64} (h : a.toInt ≤ b.toInt) :
    ∃ p q, rank? (Value.wide a) = some p ∧ rank? (Value.wide b) = some q ∧ p ≤ q := by
  have hsize (n : Int64) : n.toInt.natAbs < UInt64.size := by
    have := n.toInt_lt
    have := n.le_toInt
    simp only [UInt64.size]
    omega
  obtain ⟨p, hp, hstands⟩ := standsFor_ofInt (hsize a)
  obtain ⟨q, hq, hstands'⟩ := standsFor_ofInt (hsize b)
  refine ⟨p, q, hp, hq, ?_⟩
  rcases h.eq_or_lt with heq | hlt
  · rw [heq, hq] at hp
    exact (Option.some.inj hp).ge
  · exact hstands.le hstands' hlt

/-- The greater one may have the same double. -/
example : Value.wide 9007199254740993 = Value.wide 9007199254740992 := by rfl

end Hashmark.Number
