import Hashmark.Proofs.Callables.Guard
import Hashmark.Proofs.Ordering.Preorder

/-!
# What sorting gives

If the order of `sort` is a preorder on the items of a list, then `sort` gives a permutation of them
in which none stands before a smaller one (`pairwise_mergeSort`), and those that are level with one
another stand as they did before (`filter_mergeSort`). Values that are all whole numbers, or all
texts, have such an order, and their first and their last one in it are level with what `min` and
`max` find by going through the list once (`extremeOf_spec`). By a field, the items without it come
last and stay as they were (`mergeSort_fieldOrder`). `sort_alike` has all of it together.
-/

namespace Hashmark.Builtin

/-! ### Sorting by a preorder -/

section Preorder

variable {order : Value → Value → Ordering} {items : List Value}

/-- Sorting a list sorts its items as members of it. So an order needs to be a preorder on the items
only. -/
theorem mergeSort_eq_map_attach (le : Value → Value → Bool) (items : List Value) :
    items.mergeSort le = (items.attach.mergeSort fun a b => le a.val b.val).map Subtype.val := by
  have hmap := List.map_mergeSort (f := Subtype.val) (l := items.attach)
    (r := fun a b => le a.val b.val) (s := le) fun _ _ _ _ => rfl
  rw [hmap, List.attach_map_subtype_val]

section Members

variable (hswap : ∀ a b, order b a = (order a b).swap)
  (htrans : TransitiveOn order {v | v ∈ items})

include htrans in
theorem isLE_trans (a b c : {v // v ∈ items}) (hab : (order a b).isLE = true)
    (hbc : (order b c).isLE = true) : (order a c).isLE = true := by
  rw [Ordering.isLE_iff_ne_gt] at hab hbc ⊢
  exact htrans a a.2 b b.2 c c.2 hab hbc

include hswap in
theorem isLE_total (a b : {v // v ∈ items}) :
    ((order a b).isLE || (order b a).isLE) = true := by
  rw [hswap a b]
  cases order a.val b.val <;> rfl

include hswap htrans in
/-- **A sorted list is in order.** -/
theorem pairwise_mergeSort :
    (items.mergeSort fun a b => (order a b).isLE).Pairwise fun a b => order a b ≠ .gt := by
  have hmembers := List.pairwise_mergeSort (isLE_trans htrans) (isLE_total hswap) items.attach
  rw [mergeSort_eq_map_attach, List.pairwise_map]
  exact hmembers.imp fun h => Ordering.isLE_iff_ne_gt.1 h

include hswap htrans in
/-- Items that are in order already stand in that order in the sorted list. -/
theorem sublist_mergeSort (p : Value → Bool)
    (h : (items.filter p).Pairwise fun a b => order a b ≠ .gt) :
    (items.filter p).Sublist (items.mergeSort fun a b => (order a b).isLE) := by
  have hfilter : items.filter p = (items.attach.filter (p ∘ Subtype.val)).map Subtype.val := by
    rw [← List.filter_map, List.attach_map_subtype_val]
  rw [hfilter, List.pairwise_map] at h
  rw [hfilter, mergeSort_eq_map_attach]
  refine (List.sublist_mergeSort (isLE_trans htrans) (isLE_total hswap) ?_
    List.filter_sublist).map _
  exact h.imp fun h => Ordering.isLE_iff_ne_gt.2 h

include hswap htrans in
/-- **Sorting is stable.** The items that are level with one of them stand in the order in which they
stood before. -/
theorem filter_mergeSort {v : Value} (hv : v ∈ items) :
    (items.mergeSort fun a b => (order a b).isLE).filter (fun w => order v w = .eq) =
      items.filter fun w => order v w = .eq := by
  have hlevel : (items.filter fun w => order v w = .eq).Pairwise fun a b => order a b ≠ .gt := by
    refine List.pairwise_of_forall_mem_list fun a ha b hb => ?_
    obtain ⟨ha, hva⟩ := List.mem_filter.1 ha
    obtain ⟨hb, hvb⟩ := List.mem_filter.1 hb
    have hav : order a v = .eq := by rw [hswap v a, of_decide_eq_true hva]; rfl
    exact htrans a ha v hv b hb (by simp [hav]) (by simp [of_decide_eq_true hvb])
  have hsub := (sublist_mergeSort hswap htrans _ hlevel).filter fun w => order v w = .eq
  rw [List.filter_filter] at hsub
  simp only [Bool.and_self] at hsub
  exact (hsub.eq_of_length ((List.mergeSort_perm _ _).filter _).length_eq.symm).symm

end Members

end Preorder

/-- Whether a list holds the items of another one in the order of a comparison, and those that are
equal under it as they were. -/
structure SortedBy (compare? : Value → Value → Option Ordering) (items sorted : List Value) :
    Prop where
  perm : sorted.Perm items
  ordered : sorted.Pairwise fun a b => (compare? a b).any Ordering.isLE = true
  stable : ∀ v ∈ items,
    sorted.filter (fun w => compare? v w = some .eq) =
      items.filter fun w => compare? v w = some .eq

namespace SortedBy

variable {comp comp' : Value → Value → Option Ordering} {items sorted : List Value}

theorem mergeSort {order : Value → Value → Ordering} (hswap : ∀ a b, order b a = (order a b).swap)
    (htrans : TransitiveOn order {v | v ∈ items}) :
    SortedBy (fun a b => some (order a b)) items
      (items.mergeSort fun a b => (order a b).isLE) where
  perm := List.mergeSort_perm _ _
  ordered := (pairwise_mergeSort hswap htrans).imp fun h => Ordering.isLE_iff_ne_gt.2 h
  stable v hv := by simpa using filter_mergeSort hswap htrans hv

theorem filter (h : SortedBy comp items sorted) (p : Value → Bool) :
    SortedBy comp (items.filter p) (sorted.filter p) where
  perm := h.perm.filter p
  ordered := h.ordered.filter p
  stable v hv := by
    rw [List.filter_comm, h.stable v (List.mem_filter.1 hv).1, List.filter_comm]

/-- Only how the items compare with one another matters. -/
theorem congr (h : SortedBy comp items sorted)
    (hcomp : ∀ a ∈ items, ∀ b ∈ items, comp a b = comp' a b) : SortedBy comp' items sorted where
  perm := h.perm
  ordered := h.ordered.imp_of_mem fun ha hb hle => by
    rwa [← hcomp _ (h.perm.mem_iff.1 ha) _ (h.perm.mem_iff.1 hb)]
  stable v hv := by
    have hlevel : ∀ w ∈ items, decide (comp' v w = some .eq) = decide (comp v w = some .eq) :=
      fun w hw => by rw [hcomp v hv w hw]
    rw [List.filter_congr fun w hw => hlevel w (h.perm.mem_iff.1 hw), List.filter_congr hlevel,
      h.stable v hv]

end SortedBy

/-! ### Whole numbers and texts -/

/-- Whether all values are whole numbers, or all of them are texts. -/
def Alike (values : Set Value) : Prop :=
  (∀ v ∈ values, isInt v = true) ∨ ∀ v ∈ values, isText v = true

namespace Alike

variable {values : Set Value}

theorem rankable (h : Alike values) : Rankable values := by
  rcases h with hints | htexts
  · refine .inr (.inr ⟨fun v hv => ?_, fun x _ _ hx => nomatch hints _ hx⟩)
    have hint := hints v hv
    cases v <;> first | rfl | cases hint
  · exact .inr (.inl htexts)

/-- Values that are alike have an order. -/
theorem compare?_eq (h : Alike values) {a b : Value} (ha : a ∈ values) (hb : b ∈ values) :
    a.compare? b = some (sortOrder a b) := by
  rcases h with hints | htexts
  · have ha := hints a ha
    have hb := hints b hb
    cases a <;> cases ha
    cases b <;> cases hb
    rfl
  · have ha := htexts a ha
    have hb := htexts b hb
    cases a <;> cases ha <;> cases b <;> cases hb <;> rfl

theorem compare?_eq_some_iff (h : Alike values) {a b : Value} (ha : a ∈ values) (hb : b ∈ values)
    {o : Ordering} : a.compare? b = some o ↔ sortOrder a b = o := by
  rw [h.compare?_eq ha hb, Option.some.injEq]

end Alike

/-! ### Extremes -/

section Extremes

variable {want : Ordering} {values : Set Value}

/-- No value is better than the one that is left after going through a list, if what is no better
than a value that is no better than a third one is no better than the third one. -/
theorem foldl_extreme
    (hasymm : ∀ a b : Value, a.compare? b = some want → b.compare? a ≠ some want)
    (htrans : ∀ a ∈ values, ∀ b ∈ values, ∀ c ∈ values, Value.compare? a b ≠ some want →
      Value.compare? b c ≠ some want → Value.compare? a c ≠ some want)
    (vs : List Value) (best : Value) (hbest : best ∈ values) (hvs : ∀ v ∈ vs, v ∈ values) :
    ∃ r ∈ best :: vs,
      vs.foldl (fun best v => if v.compare? best = some want then v else best) best = r ∧
        ∀ v ∈ best :: vs, v.compare? r ≠ some want := by
  induction vs generalizing best with
  | nil =>
    refine ⟨best, List.mem_singleton_self _, rfl, fun v hv => ?_⟩
    obtain rfl := List.mem_singleton.1 hv
    exact fun hself => hasymm v v hself hself
  | cons v vs ih =>
    obtain ⟨hv, hvs⟩ := List.forall_mem_cons.1 hvs
    rw [List.foldl_cons]
    split
    · next hbetter =>
      obtain ⟨r, hr, hfold, hall⟩ := ih v hv hvs
      have hrvalues : r ∈ values := List.forall_mem_cons.2 ⟨hv, hvs⟩ r hr
      refine ⟨r, List.mem_cons_of_mem _ hr, hfold, List.forall_mem_cons.2 ⟨?_, hall⟩⟩
      have hvr := hall v (List.mem_cons_self ..)
      exact htrans best hbest v hv r hrvalues (hasymm v best hbetter) hvr
    · next hworse =>
      obtain ⟨r, hr, hfold, hall⟩ := ih best hbest hvs
      obtain ⟨hbestr, hall⟩ := List.forall_mem_cons.1 hall
      have hrvalues : r ∈ values := List.forall_mem_cons.2 ⟨hbest, hvs⟩ r hr
      refine ⟨r, ?_, hfold, List.forall_mem_cons.2 ⟨hbestr, List.forall_mem_cons.2 ⟨?_, hall⟩⟩⟩
      · exact (List.mem_cons.1 hr).elim (fun h => h ▸ List.mem_cons_self ..)
          fun h => List.mem_cons_of_mem _ (List.mem_cons_of_mem _ h)
      · exact htrans v hv best hbest r hrvalues hworse hbestr

/-- None is less the one way round if none is greater the other way round. -/
theorem sortOrder_ne_lt_iff {a b : Value} : sortOrder a b ≠ .lt ↔ sortOrder b a ≠ .gt := by
  rw [sortOrder_swap a b]
  cases sortOrder a b <;> decide

/-- **Extremes.** What `min` and `max` find among values that are alike is one of them, and none of
them is less or greater. -/
theorem extremeOf_spec {items : List Value} (hwant : want ≠ .eq) (hne : items ≠ [])
    (h : Alike {v | v ∈ items}) :
    extremeOf want items ∈ items ∧ ∀ v ∈ items, sortOrder v (extremeOf want items) ≠ want := by
  have htransitive := transitiveOn_of_rankable h.rankable
  have hasymm : ∀ a b : Value, a.compare? b = some want → b.compare? a ≠ some want := by
    intro a b hab
    rw [compare?_swap a b, hab]
    cases want <;> simp at hwant ⊢
  have htrans : ∀ a ∈ {v | v ∈ items}, ∀ b ∈ {v | v ∈ items}, ∀ c ∈ {v | v ∈ items},
      Value.compare? a b ≠ some want → Value.compare? b c ≠ some want →
        Value.compare? a c ≠ some want := by
    intro a ha b hb c hc
    simp only [ne_eq, h.compare?_eq_some_iff ha hb, h.compare?_eq_some_iff hb hc,
      h.compare?_eq_some_iff ha hc]
    cases want with
    | eq => exact absurd rfl hwant
    | gt => exact htransitive a ha b hb c hc
    | lt =>
      intro hab hbc
      rw [← ne_eq, sortOrder_ne_lt_iff] at hab hbc ⊢
      exact htransitive c hc b hb a ha hbc hab
  cases items with
  | nil => exact absurd rfl hne
  | cons first rest =>
    obtain ⟨r, hr, hfold, hall⟩ := foldl_extreme hasymm htrans rest first
      (List.mem_cons_self ..) fun v hv => List.mem_cons_of_mem _ hv
    have hextreme : extremeOf want (first :: rest) = r := hfold
    rw [hextreme]
    exact ⟨hr, fun v hv => fun heq => hall v hv ((h.compare?_eq_some_iff hv hr).2 heq)⟩

end Extremes

/-! ### The ends of a sorted list -/

section Ends

variable {items sorted : List Value} {v : Value}

theorem sortOrder_self (v : Value) : sortOrder v v = .eq := by
  have hswap := sortOrder_swap v v
  cases horder : sortOrder v v <;> simp_all

theorem SortedBy.pairwise_ne_gt (h : SortedBy Value.compare? items sorted) :
    sorted.Pairwise fun a b => sortOrder a b ≠ .gt := by
  refine h.ordered.imp fun {a b} hle => ?_
  rw [sortOrder]
  cases hcompare : a.compare? b with
  | none => rw [hcompare] at hle; cases hle
  | some o => rw [hcompare] at hle; exact Ordering.isLE_iff_ne_gt.1 hle

/-- The first one in order is level with one that none of them is less than. -/
theorem SortedBy.head_level (h : SortedBy Value.compare? items sorted)
    (halike : Alike {v | v ∈ items}) (hv : v ∈ items) (hleast : ∀ w ∈ items, sortOrder w v ≠ .lt) :
    ∃ first ∈ sorted.head?, first.compare? v = some .eq := by
  have hpairwise := h.pairwise_ne_gt
  have hmem := h.perm.mem_iff.2 hv
  cases sorted with
  | nil => cases hmem
  | cons first rest =>
    have hfirst : first ∈ items := h.perm.mem_iff.1 (List.mem_cons_self ..)
    refine ⟨first, rfl, (halike.compare?_eq_some_iff hfirst hv).2 ?_⟩
    have hle : sortOrder first v ≠ .gt := by
      rcases List.mem_cons.1 hmem with rfl | hmem
      · simp [sortOrder_self]
      · exact (List.pairwise_cons.1 hpairwise).1 v hmem
    have hge := hleast first hfirst
    cases horder : sortOrder first v <;> simp_all

/-- The last one in order is level with one that none of them is greater than. -/
theorem SortedBy.getLast_level (h : SortedBy Value.compare? items sorted)
    (halike : Alike {v | v ∈ items}) (hv : v ∈ items)
    (hgreatest : ∀ w ∈ items, sortOrder w v ≠ .gt) :
    ∃ last ∈ sorted.getLast?, last.compare? v = some .eq := by
  have hpairwise := h.pairwise_ne_gt
  have hmem := h.perm.mem_iff.2 hv
  rcases List.eq_nil_or_concat' sorted with rfl | ⟨rest, last, rfl⟩
  · cases hmem
  · have hlast : last ∈ items := h.perm.mem_iff.1 (by simp)
    refine ⟨last, by simp, (halike.compare?_eq_some_iff hlast hv).2 ?_⟩
    have hge : sortOrder v last ≠ .gt := by
      rcases List.mem_append.1 hmem with hmem | hmem
      · exact (List.pairwise_append.1 hpairwise).2.2 v hmem last (by simp)
      · obtain rfl := List.mem_singleton.1 hmem
        simp [sortOrder_self]
    have hle := hgreatest last hlast
    rw [sortOrder_swap last v] at hge
    cases horder : sortOrder last v <;> simp_all

end Ends

/-! ### Sorting by a field -/

section Fields

variable {name : String} {items : List Value}

/-- A list in which nothing with a property stands before something without it. -/
theorem eq_filter_append_filter {p : Value → Bool} {l : List Value}
    (h : l.Pairwise fun a b => p a = true → p b = true) :
    l = (l.filter fun v => !p v) ++ l.filter p := by
  induction l with
  | nil => rfl
  | cons v l ih =>
    obtain ⟨hv, hl⟩ := List.pairwise_cons.1 h
    cases hp : p v with
    | false => simpa [hp] using ih hl
    | true =>
      have hnone : (l.filter fun w => !p w) = [] :=
        List.filter_eq_nil_iff.2 fun w hw => by simp [hv w hw hp]
      have hall : l.filter p = l := List.filter_eq_self.2 fun w hw => hv w hw hp
      simp [hp, hnone, hall]

/-- An item without the field is level with those that have none either. -/
theorem fieldOrder_eq_iff {v w : Value} (hv : (v.field name).isUndefined = true) :
    fieldOrder name v w = .eq ↔ (w.field name).isUndefined = true := by
  unfold fieldOrder
  cases (w.field name).isUndefined <;> simp [hv]

section Order

variable (htrans : TransitiveOn (fieldOrder name) {v | v ∈ items})
include htrans

/-- No item with the field stands behind one without it. -/
theorem pairwise_absent_mergeSort :
    (items.mergeSort fun a b => (fieldOrder name a b).isLE).Pairwise fun a b =>
      (a.field name).isUndefined = true → (b.field name).isUndefined = true := by
  refine (pairwise_mergeSort (fieldOrder_swap name) htrans).imp fun {a b} hle ha => ?_
  by_contra hb
  exact hle (by simp [fieldOrder, ha, hb])

/-- The items without the field stand in the order in which they stood before. -/
theorem filter_absent_mergeSort :
    (items.mergeSort fun a b => (fieldOrder name a b).isLE).filter
        (fun v => (v.field name).isUndefined) =
      items.filter fun v => (v.field name).isUndefined := by
  by_cases hsome : ∃ v ∈ items, (v.field name).isUndefined = true
  · obtain ⟨v, hv, hundefined⟩ := hsome
    simpa [fieldOrder_eq_iff hundefined] using filter_mergeSort (fieldOrder_swap name) htrans hv
  · have hnone : items.filter (fun v => (v.field name).isUndefined) = [] :=
      List.filter_eq_nil_iff.2 fun v hv hundefined => hsome ⟨v, hv, hundefined⟩
    rw [hnone]
    exact List.perm_nil.1 (hnone ▸ (List.mergeSort_perm _ _).filter _)

end Order

/-- **Sorting by a field.** The items that have the field come first, sorted by it, and the others
follow as they were. -/
theorem mergeSort_fieldOrder
    (halike : Alike {key | key.isUndefined = false ∧ ∃ item ∈ items, item.field name = key}) :
    ∃ present,
      (items.mergeSort fun a b => (fieldOrder name a b).isLE) =
          present ++ items.filter (fun v => (v.field name).isUndefined) ∧
        SortedBy (fun a b => (a.field name).compare? (b.field name))
          (items.filter fun v => !(v.field name).isUndefined) present := by
  have htrans : TransitiveOn (fieldOrder name) {v | v ∈ items} :=
    (transitiveOn_fieldOrder name _).2 (transitiveOn_of_rankable halike.rankable)
  have hsorted := SortedBy.mergeSort (fieldOrder_swap name) htrans
  refine ⟨(items.mergeSort fun a b => (fieldOrder name a b).isLE).filter
    fun v => !(v.field name).isUndefined, ?_, (hsorted.filter _).congr ?_⟩
  · rw [← filter_absent_mergeSort htrans]
    exact eq_filter_append_filter (pairwise_absent_mergeSort htrans)
  · intro a ha b hb
    obtain ⟨ha, hahas⟩ := List.mem_filter.1 ha
    obtain ⟨hb, hbhas⟩ := List.mem_filter.1 hb
    simp only [Bool.not_eq_true'] at hahas hbhas
    rw [halike.compare?_eq ⟨hahas, a, ha, rfl⟩ ⟨hbhas, b, hb, rfl⟩]
    simp [fieldOrder, hahas, hbhas]

end Fields

/-! ### The filter and the functions -/

theorem pipe_sort (items args : List Value) :
    Callables.builtin.pipe "sort" (.list items) args =
      .ok (.list (items.mergeSort fun a b => (orderFor args a b).isLE)) := by
  rw [Callables.pipe_of_find? (f := sort) (by rfl) (by decide)]
  rfl

theorem call_min (items : List Value) :
    Callables.builtin.call "min" [.list items] = .ok (extremeOf .lt items) := by
  rw [Callables.call_of_find? (f := extreme .lt) (by rfl) (by decide)]
  rfl

theorem call_max (items : List Value) :
    Callables.builtin.call "max" [.list items] = .ok (extremeOf .gt items) := by
  rw [Callables.call_of_find? (f := extreme .gt) (by rfl) (by decide)]
  rfl

theorem orderFor_of_no_name {args : List Value} (h : ∀ name rest, args ≠ .str name :: rest) :
    orderFor args = sortOrder := by
  unfold orderFor
  split
  · next name rest => exact absurd rfl (h name rest)
  · rfl

/-- **Sorting values that are alike.** Sorting a list of whole numbers, or of texts, gives its items
in order, equal ones as they were. Its first and its last one are equal to the least and to the
greatest that are found by going through the list, and sorting it again changes nothing. By a field
whose values are alike, the items that have it come first, in order, equal ones as they were, and
those that lack it follow as they were. -/
theorem sort_alike (items : List Value) :
    (∀ args : List Value, (∀ name rest, args ≠ .str name :: rest) → items ≠ [] →
      Alike {v | v ∈ items} →
      ∃ sorted least greatest,
        Callables.builtin.pipe "sort" (.list items) args = .ok (.list sorted) ∧
        SortedBy Value.compare? items sorted ∧
        Callables.builtin.call "min" [.list items] = .ok least ∧
        Callables.builtin.call "max" [.list items] = .ok greatest ∧
        (∃ first ∈ sorted.head?, first.compare? least = some .eq) ∧
        (∃ last ∈ sorted.getLast?, last.compare? greatest = some .eq) ∧
        Callables.builtin.pipe "sort" (.list sorted) args = .ok (.list sorted)) ∧
    ∀ name rest,
      Alike {key | key.isUndefined = false ∧ ∃ item ∈ items, item.field name = key} →
      ∃ present,
        Callables.builtin.pipe "sort" (.list items) (.str name :: rest) =
          .ok (.list (present ++ items.filter fun v => (v.field name).isUndefined)) ∧
        SortedBy (fun a b => (a.field name).compare? (b.field name))
          (items.filter fun v => !(v.field name).isUndefined) present := by
  constructor
  · intro args hargs hne halike
    have htrans := transitiveOn_of_rankable halike.rankable
    have hsorted : SortedBy Value.compare? items
        (items.mergeSort fun a b => (sortOrder a b).isLE) :=
      (SortedBy.mergeSort sortOrder_swap htrans).congr
        fun a ha b hb => (halike.compare?_eq ha hb).symm
    obtain ⟨hleast, hleastall⟩ := extremeOf_spec (by decide : Ordering.lt ≠ .eq) hne halike
    obtain ⟨hgreatest, hgreatestall⟩ := extremeOf_spec (by decide : Ordering.gt ≠ .eq) hne halike
    have hlevel := hsorted.pairwise_ne_gt.imp fun h => Ordering.isLE_iff_ne_gt.2 h
    have hagain := List.mergeSort_of_pairwise hlevel
    have horder := orderFor_of_no_name hargs
    exact ⟨_, _, _, by rw [pipe_sort, horder], hsorted, call_min items, call_max items,
      hsorted.head_level halike hleast hleastall,
      hsorted.getLast_level halike hgreatest hgreatestall, by rw [pipe_sort, horder, hagain]⟩
  · intro name rest halike
    obtain ⟨present, hsort, hpresent⟩ := mergeSort_fieldOrder halike
    exact ⟨present, by rw [pipe_sort, ← hsort]; rfl, hpresent⟩

/-- Three numbers, and two items with a name before one without. -/
theorem sort_numbers_and_names :
    (∃ sorted,
      Callables.builtin.pipe "sort" (.list [.int 3, .int 1, .int 2]) [] = .ok (.list sorted) ∧
      SortedBy Value.compare? [.int 3, .int 1, .int 2] sorted ∧
      ∃ first ∈ sorted.head?, first.compare? (.int 1) = some .eq) ∧
    ∃ present,
      Callables.builtin.pipe "sort"
          (.list [.dict [("other", .int 1)], .dict [("name", .str "b")],
            .dict [("name", .str "a")]]) [.str "name"] =
        .ok (.list (present ++ [.dict [("other", .int 1)]])) ∧
      SortedBy (fun a b => (a.field "name").compare? (b.field "name"))
        [.dict [("name", .str "b")], .dict [("name", .str "a")]] present := by
  constructor
  · obtain ⟨sorted, least, -, hsort, hsorted, hleast, -, hfirst, -⟩ :=
      (sort_alike [.int 3, .int 1, .int 2]).1 [] (by simp) (by simp) (.inl (by simp [isInt]))
    rw [call_min] at hleast
    obtain rfl : Value.int 1 = least := Except.ok.inj hleast
    exact ⟨sorted, hsort, hsorted, hfirst⟩
  · exact (sort_alike [.dict [("other", .int 1)], .dict [("name", .str "b")],
      .dict [("name", .str "a")]]).2 "name" [] <| .inr <| by
        rintro _ ⟨hdefined, item, hitem, rfl⟩
        simp only [List.mem_cons, List.not_mem_nil, or_false] at hitem
        rcases hitem with rfl | rfl | rfl
        · cases hdefined
        · rfl
        · rfl

end Hashmark.Builtin
