import Hashmark.Value.Order
import Mathlib

/-!
# The order of doubles

Doubles that are no NaN stand in one line: the negative ones from the largest exponent to the
smallest, the two zeros as one, the positive ones from the smallest exponent to the largest,
and among doubles of one exponent the digits decide. `rank?` says where in the line a double stands,
and comparing two doubles compares their ranks (`compareFloats?_eq`).
-/

namespace Hashmark.Number

open Float.Model (UnpackedFloat)

/-! ### Orders -/

theorem compare_toLex {α β : Type} [LinearOrder α] [LinearOrder β] (a b : α) (x y : β) :
    compare (toLex (a, x)) (toLex (b, y)) = (compare a b).then (compare x y) := by
  rw [Prod.Lex.compare_def]
  rfl

theorem compare_neg (a b : ℤ) : compare (-a) (-b) = (compare a b).swap := by
  rw [Int.compare_swap, ← cmp_eq_compare, ← cmp_eq_compare]
  exact StrictAnti.cmp_map_eq (fun _ _ => Int.neg_lt_neg) a b

theorem compare_natCast (m n : ℕ) : compare (m : ℤ) (n : ℤ) = compare m n := by
  rw [← cmp_eq_compare, ← cmp_eq_compare]
  exact StrictMono.cmp_map_eq (fun _ _ => Int.ofNat_lt.2) m n

/-! ### Ranks -/

/-- A rank in the line of doubles: the sign, with 2 for infinity, then the exponent, then the
digits, all of them growing to the right. -/
abbrev Rank := ℤ ×ₗ ℤ ×ₗ ℤ

/-- The rank of an unpacked double; NaN has none. -/
def rankOf? : UnpackedFloat → Option Rank
  | .notANumber => none
  | .infinity .negative => some (toLex (-2, toLex (0, 0)))
  | .finite .negative m e _ => some (toLex (-1, toLex (-e, -(m : ℤ))))
  | .zero _ => some (toLex (0, toLex (0, 0)))
  | .finite .positive m e _ => some (toLex (1, toLex (e, (m : ℤ))))
  | .infinity .positive => some (toLex (2, toLex (0, 0)))

/-- The rank of a double; NaN has none. -/
def rank? (x : Float) : Option Rank :=
  rankOf? x.toModel.unpack

/-- The order of two ranks, if both are there. -/
def compareRanks? (p q : Option Rank) : Option Ordering :=
  p.bind fun p => q.map (compare p)

@[simp] theorem compareRanks?_none_left (q : Option Rank) : compareRanks? none q = none :=
  rfl

@[simp] theorem compareRanks?_none_right (p : Option Rank) : compareRanks? p none = none := by
  cases p <;> rfl

@[simp] theorem compareRanks?_some (p q : Rank) :
    compareRanks? (some p) (some q) = some (compare p q) :=
  rfl

theorem compareRanks?_swap (p q : Option Rank) :
    compareRanks? q p = (compareRanks? p q).map Ordering.swap := by
  cases p <;> cases q <;> simp
  exact Std.OrientedCmp.eq_swap

theorem compare_unpacked (u v : UnpackedFloat) :
    u.compare v = compareRanks? (rankOf? u) (rankOf? v) := by
  rcases u with s | _ | s | ⟨s, m, e, hm⟩ <;> rcases v with t | _ | t | ⟨t, n, f, hn⟩ <;>
    (try cases s) <;> (try cases t) <;>
    simp [UnpackedFloat.compare, compareRanks?, rankOf?, compare_toLex, compare_neg,
      compare_natCast, Ordering.swap_then] <;> rfl

theorem lt_iff_ranks {x y : Float} :
    x < y ↔ compareRanks? (rank? x) (rank? y) = some .lt := by
  rw [rank?, rank?, ← compare_unpacked]
  show decide (x.toModel < y.toModel) = true ↔ _
  rw [decide_eq_true_iff]
  show (x.toModel.unpack.compare y.toModel.unpack == some .lt) = true ↔ _
  rw [beq_iff_eq]

theorem beq_iff_ranks {x y : Float} :
    (x == y) = true ↔ compareRanks? (rank? x) (rank? y) = some .eq := by
  rw [rank?, rank?, ← compare_unpacked]
  show (x.toModel.unpack.compare y.toModel.unpack == some .eq) = true ↔ _
  rw [beq_iff_eq]

/-- **Comparing doubles compares their ranks.** -/
theorem compareFloats?_eq (x y : Float) :
    compareFloats? x y = compareRanks? (rank? x) (rank? y) := by
  simp only [compareFloats?, lt_iff_ranks, beq_iff_ranks, compareRanks?_swap (rank? x)]
  cases compareRanks? (rank? x) (rank? y) with
  | none => simp
  | some order => cases order <;> simp

end Hashmark.Number
