import Hashmark.Callable.Builtin
import Hashmark.Proofs.Ordering.Widening

/-!
# When values can be sorted

Sorting needs an order that is a total preorder: the order of two values is the reverse of the one
the other way round, and no value comes after one that it is not after by way of a third one. The
order of `sort` is always reversed with its arguments. But values without an order count as level
with all others, and so does a whole number with each double that it is rounded to, which is not
transitive: `"x"` is level with 1 and with 2. So the order is a preorder on some sets of values only,
and `orderFor_preorder_iff` says on which: those of level values, those of texts, and those of
numbers in which no double stands for two whole numbers.
-/

namespace Hashmark.Builtin

open Number

/-! ### Kinds of values -/

/-- Whether a value is a text, markup or not. -/
def isText : Value → Bool
  | .str _ | .safe _ => true
  | _ => false

def isInt : Value → Bool
  | .int _ => true
  | _ => false

/-- Whether a value is a number; NaN is none. -/
def isNumber : Value → Bool
  | .int _ => true
  | .float x => !x.isNaN
  | _ => false

theorem isNumber_of_isText {v : Value} (h : isText v = true) : isNumber v = false := by
  cases v <;> first | rfl | cases h

/-- The rank of a number among doubles; all else, and NaN, has none. -/
def numberRank? : Value → Option Rank
  | .int n => rank? (Value.wide n)
  | .float x => rank? x
  | _ => none

theorem isSome_numberRank? (v : Value) : (numberRank? v).isSome = isNumber v := by
  cases v with
  | int n =>
    obtain ⟨p, -, hp, -⟩ := rank?_wide_le (le_refl n.toInt)
    simp [numberRank?, hp, isNumber]
  | float x =>
    have hnan : x.isNaN = x.toModel.unpack.isNaN := rfl
    simp only [numberRank?, isNumber, hnan, rank?]
    cases x.toModel.unpack with
    | notANumber => rfl
    | infinity s | zero s | finite s => cases s <;> rfl
  | _ => rfl

theorem exists_numberRank? {v : Value} (h : isNumber v = true) :
    ∃ p, numberRank? v = some p :=
  Option.isSome_iff_exists.1 (by rw [isSome_numberRank?, h])

/-! ### The order of two values -/

theorem compareFloats?_swap (x y : Float) :
    compareFloats? y x = (compareFloats? x y).map Ordering.swap := by
  rw [compareFloats?_eq, compareFloats?_eq, compareRanks?_swap]

theorem compare?_swap (a b : Value) : b.compare? a = (a.compare? b).map Ordering.swap := by
  cases a <;> cases b <;>
    first
    | rfl
    | exact congrArg some Std.OrientedCmp.eq_swap
    | exact compareFloats?_swap _ _

theorem sortOrder_swap (a b : Value) : sortOrder b a = (sortOrder a b).swap := by
  rw [sortOrder, sortOrder, compare?_swap]
  cases a.compare? b <;> rfl

theorem sortOrder_texts {a b : Value} (ha : isText a = true) (hb : isText b = true) :
    sortOrder a b = compare a.text b.text := by
  cases a <;> cases ha <;> cases b <;> cases hb <;> rfl

/-- Unless two values are both texts or both whole numbers, their ranks decide. -/
theorem sortOrder_eq_ranks {a b : Value} (htext : isText a = false ∨ isText b = false)
    (hint : isInt a = false ∨ isInt b = false) :
    sortOrder a b = (compareRanks? (numberRank? a) (numberRank? b)).getD .eq := by
  cases a <;> cases b <;>
    simp_all [sortOrder, Value.compare?, compareFloats?_eq, numberRank?, isText, isInt]

/-- Two values that are not level are two texts or two numbers. -/
theorem kinds_of_sortOrder_ne {a b : Value} (h : sortOrder a b ≠ .eq) :
    (isText a = true ∧ isText b = true) ∨ (isNumber a = true ∧ isNumber b = true) := by
  by_cases htext : isText a = true ∧ isText b = true
  · exact .inl htext
  right
  by_cases hint : isInt a = true ∧ isInt b = true
  · cases a <;> cases hint.1
    cases b <;> cases hint.2
    exact ⟨rfl, rfl⟩
  · rw [sortOrder_eq_ranks (by grind) (by grind)] at h
    rw [← isSome_numberRank?, ← isSome_numberRank?]
    cases hp : numberRank? a <;> cases hq : numberRank? b <;> simp [hp, hq] at h ⊢

theorem isText_of_numberRank? {v : Value} {p : Rank} (h : numberRank? v = some p) :
    isText v = false := by
  cases v <;> first | rfl | cases h

theorem sortOrder_numbers {a b : Value} {p q : Rank} (hp : numberRank? a = some p)
    (hq : numberRank? b = some q) (hint : isInt a = false ∨ isInt b = false) :
    sortOrder a b = compare p q := by
  rw [sortOrder_eq_ranks (.inl (isText_of_numberRank? hp)) hint, hp, hq]
  rfl

/-- A number that is not after another one has no greater rank. -/
theorem rank_le_of_sortOrder {a b : Value} {p q : Rank} (hp : numberRank? a = some p)
    (hq : numberRank? b = some q) (h : sortOrder a b ≠ .gt) : p ≤ q := by
  by_cases hint : isInt a = true ∧ isInt b = true
  · obtain ⟨ha, hb⟩ := hint
    cases a <;> cases ha
    cases b <;> cases hb
    next m n =>
    obtain ⟨p', q', hp', hq', hle⟩ := rank?_wide_le (compare_le_iff_le.1 h)
    obtain rfl : p' = p := Option.some.inj (hp'.symm.trans hp)
    obtain rfl : q' = q := Option.some.inj (hq'.symm.trans hq)
    exact hle
  · rw [sortOrder_numbers hp hq (by grind)] at h
    exact compare_le_iff_le.1 h

/-- A double is level with the whole numbers that it stands for. -/
theorem beq_wide_iff {x : Float} {n : Int64} :
    (x == Value.wide n) = true ↔
      ∃ p, numberRank? (.float x) = some p ∧ numberRank? (.int n) = some p := by
  rw [beq_iff_ranks, numberRank?, numberRank?]
  cases rank? x <;> cases rank? (Value.wide n) <;> simp
  exact compare_eq_iff_eq.trans eq_comm

/-! ### Transitivity -/

/-- Whether an order is transitive on a set of values. -/
def TransitiveOn (order : Value → Value → Ordering) (values : Set Value) : Prop :=
  ∀ a ∈ values, ∀ b ∈ values, ∀ c ∈ values,
    order a b ≠ .gt → order b c ≠ .gt → order a c ≠ .gt

/-- Whether values can be sorted: they are all level, or all of them are texts, or all of them are
numbers and no double stands for two whole numbers. -/
def Rankable (values : Set Value) : Prop :=
  (∀ a ∈ values, ∀ b ∈ values, sortOrder a b = .eq) ∨
  (∀ v ∈ values, isText v = true) ∨
  (∀ v ∈ values, isNumber v = true) ∧
    ∀ x m n, .float x ∈ values → .int m ∈ values → .int n ∈ values →
      (x == Value.wide m) = true → (x == Value.wide n) = true → m = n

theorem transitiveOn_numbers {values : Set Value} (hnumbers : ∀ v ∈ values, isNumber v = true)
    (hdoubles : ∀ x m n, .float x ∈ values → .int m ∈ values → .int n ∈ values →
      (x == Value.wide m) = true → (x == Value.wide n) = true → m = n) :
    TransitiveOn sortOrder values := by
  intro a ha b hb c hc hab hbc
  obtain ⟨p, hp⟩ := exists_numberRank? (hnumbers a ha)
  obtain ⟨q, hq⟩ := exists_numberRank? (hnumbers b hb)
  obtain ⟨r, hr⟩ := exists_numberRank? (hnumbers c hc)
  have hpq := rank_le_of_sortOrder hp hq hab
  have hqr := rank_le_of_sortOrder hq hr hbc
  by_cases hint : isInt a = true ∧ isInt c = true
  · obtain ⟨hai, hci⟩ := hint
    cases a <;> cases hai
    cases c <;> cases hci
    next m n =>
    cases b with
    | int l =>
      exact compare_le_iff_le.2 ((compare_le_iff_le.1 hab).trans (compare_le_iff_le.1 hbc))
    | float x =>
      intro hgt
      -- the double is then between a smaller and a greater whole number
      have hrp : r ≤ p := by
        refine rank_le_of_sortOrder hr hp ?_
        rw [sortOrder_swap, hgt]
        decide
      obtain rfl : p = q := hpq.antisymm (hqr.trans hrp)
      obtain rfl : r = p := hrp.antisymm hqr
      obtain rfl := hdoubles x m n hb ha hc (beq_wide_iff.2 ⟨_, hq, hp⟩)
        (beq_wide_iff.2 ⟨_, hq, hr⟩)
      simp [sortOrder, Value.compare?] at hgt
    | _ => cases hq
  · rw [sortOrder_numbers hp hr (by grind), compare_le_iff_le]
    exact hpq.trans hqr

theorem transitiveOn_of_rankable {values : Set Value} (h : Rankable values) :
    TransitiveOn sortOrder values := by
  rcases h with hlevel | htexts | ⟨hnumbers, hdoubles⟩
  · intro a ha b _ c hc _ _
    simp [hlevel a ha c hc]
  · intro a ha b hb c hc hab hbc
    rw [sortOrder_texts (htexts a ha) (htexts b hb), compare_le_iff_le] at hab
    rw [sortOrder_texts (htexts b hb) (htexts c hc), compare_le_iff_le] at hbc
    rw [sortOrder_texts (htexts a ha) (htexts c hc), compare_le_iff_le]
    exact hab.trans hbc
  · exact transitiveOn_numbers hnumbers hdoubles

/-- A double that stands for two whole numbers is level with both. -/
theorem not_transitiveOn_of_lt {values : Set Value} {x : Float} {m n : Int64}
    (hx : .float x ∈ values) (hm : .int m ∈ values) (hn : .int n ∈ values)
    (hxm : (x == Value.wide m) = true) (hxn : (x == Value.wide n) = true)
    (hlt : m.toInt < n.toInt) : ¬ TransitiveOn sortOrder values := by
  intro h
  obtain ⟨p, hp, hpm⟩ := beq_wide_iff.1 hxm
  obtain ⟨q, hq, hqn⟩ := beq_wide_iff.1 hxn
  obtain rfl : q = p := Option.some.inj (hq.symm.trans hp)
  refine h _ hn _ hx _ hm ?_ ?_ (compare_gt_iff_gt.2 hlt)
  · rw [sortOrder_numbers hqn hq (.inr rfl), compare_le_iff_le]
  · rw [sortOrder_numbers hq hpm (.inl rfl), compare_le_iff_le]

/-- If two values are not level, every other one has an order with one of them. -/
theorem rankable_of_transitiveOn {values : Set Value} (h : TransitiveOn sortOrder values) :
    Rankable values := by
  by_cases hlevel : ∀ a ∈ values, ∀ b ∈ values, sortOrder a b = .eq
  · exact .inl hlevel
  right
  obtain ⟨a, ha, b, hb, hlt⟩ : ∃ a ∈ values, ∃ b ∈ values, sortOrder a b = .lt := by
    push Not at hlevel
    obtain ⟨a, ha, b, hb, hne⟩ := hlevel
    cases horder : sortOrder a b with
    | lt => exact ⟨a, ha, b, hb, horder⟩
    | eq => exact absurd horder hne
    | gt => exact ⟨b, hb, a, ha, by rw [sortOrder_swap, horder]; rfl⟩
  -- what is level with both of them would take them the other way round
  have hmiddle : ∀ v ∈ values, sortOrder b v ≠ .eq ∨ sortOrder v a ≠ .eq := by
    intro v hv
    by_contra hboth
    push Not at hboth
    refine h b hb v hv a ha (by simp [hboth.1]) (by simp [hboth.2]) ?_
    rw [sortOrder_swap, hlt]
    rfl
  have hne : sortOrder a b ≠ .eq := by simp [hlt]
  rcases kinds_of_sortOrder_ne hne with ⟨hta, htb⟩ | ⟨hna, hnb⟩
  · refine .inl fun v hv => ?_
    rcases hmiddle v hv with hne | hne <;> rcases kinds_of_sortOrder_ne hne with hkinds | hkinds
    · exact hkinds.2
    · simp [isNumber_of_isText htb] at hkinds
    · exact hkinds.1
    · simp [isNumber_of_isText hta] at hkinds
  · refine .inr ⟨fun v hv => ?_, fun x m n hx hm hn hxm hxn => ?_⟩
    · rcases hmiddle v hv with hne | hne <;> rcases kinds_of_sortOrder_ne hne with hkinds | hkinds
      · simp [isNumber_of_isText hkinds.1] at hnb
      · exact hkinds.2
      · simp [isNumber_of_isText hkinds.2] at hna
      · exact hkinds.1
    · rcases lt_trichotomy m.toInt n.toInt with hlt | heq | hlt
      · exact absurd h (not_transitiveOn_of_lt hx hm hn hxm hxn hlt)
      · exact Int64.toInt_inj.1 heq
      · exact absurd h (not_transitiveOn_of_lt hx hn hm hxn hxm hlt)

/-! ### Sorting by a field -/

theorem fieldOrder_swap (name : String) (a b : Value) :
    fieldOrder name b a = (fieldOrder name a b).swap := by
  unfold fieldOrder
  cases (a.field name).isUndefined <;> cases (b.field name).isUndefined <;>
    first | rfl | exact sortOrder_swap _ _

/-- The values that items are sorted by: those of a field, where it is there, or the items. -/
def sortKeys (args : List Value) (items : Set Value) : Set Value :=
  match args with
  | .str name :: _ => {key | key.isUndefined = false ∧ ∃ item ∈ items, item.field name = key}
  | _ => items

/-- Items without the field come last and are level, so only the fields that are there matter. -/
theorem transitiveOn_fieldOrder (name : String) (items : Set Value) :
    TransitiveOn (fieldOrder name) items ↔
      TransitiveOn sortOrder
        {key | key.isUndefined = false ∧ ∃ item ∈ items, item.field name = key} := by
  constructor
  · rintro h _ ⟨hua, a, ha, rfl⟩ _ ⟨hub, b, hb, rfl⟩ _ ⟨huc, c, hc, rfl⟩
    simpa [fieldOrder, hua, hub, huc] using h a ha b hb c hc
  · intro h a ha b hb c hc
    cases hua : (a.field name).isUndefined <;> cases hub : (b.field name).isUndefined <;>
      cases huc : (c.field name).isUndefined <;> simp [fieldOrder, hua, hub, huc]
    exact h _ ⟨hua, a, ha, rfl⟩ _ ⟨hub, b, hb, rfl⟩ _ ⟨huc, c, hc, rfl⟩

/-- **When values can be sorted.** The order of two values is always the reverse of the one the other
way round. It is transitive on the items of a list exactly if the keys they are sorted by are all
level, or all texts, or all numbers without a double that stands for two whole numbers. -/
theorem orderFor_preorder_iff (args : List Value) (items : Set Value) :
    (∀ a b, orderFor args b a = (orderFor args a b).swap) ∧
      (TransitiveOn (orderFor args) items ↔ Rankable (sortKeys args items)) := by
  have hrankable (keys : Set Value) : TransitiveOn sortOrder keys ↔ Rankable keys :=
    ⟨rankable_of_transitiveOn, transitiveOn_of_rankable⟩
  rcases args with _ | ⟨first, rest⟩
  · exact ⟨sortOrder_swap, hrankable _⟩
  · cases first with
    | str name =>
      exact ⟨fieldOrder_swap name, (transitiveOn_fieldOrder name items).trans (hrankable _)⟩
    | _ => exact ⟨sortOrder_swap, hrankable _⟩

/-- A text between two whole numbers is level with both. -/
theorem text_between_numbers :
    orderFor [] (.int 2) (.str "x") ≠ .gt ∧ orderFor [] (.str "x") (.int 1) ≠ .gt ∧
      orderFor [] (.int 2) (.int 1) = .gt := by
  decide

end Hashmark.Builtin
