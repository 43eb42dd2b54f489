/-!
# Dictionaries

Finite maps from names to values, as lists of pairs in ascending order of the names. `insert`
keeps the order and replaces an earlier value, so a dictionary built by it names each key once;
`find?_insert` and `find?_erase` say what the two operations do to look-ups.
-/

namespace Hashmark

/-- Pairs of a name and a value, ascending by name when built with `Dict.insert`. -/
abbrev Dict (α : Type) := List (String × α)

namespace Dict

variable {α : Type}

/-- The value under a name. -/
def find? (d : Dict α) (key : String) : Option α :=
  d.lookup key

/-- Whether a name has a value. -/
def contains (d : Dict α) (key : String) : Bool :=
  (d.find? key).isSome

/-- The names, in order. -/
def keys (d : Dict α) : List String :=
  d.map (·.1)

/-- Sets the value under a name. -/
def insert (key : String) (value : α) : Dict α → Dict α
  | [] => [(key, value)]
  | (k, v) :: rest =>
    if key = k then (key, value) :: rest
    else if key < k then (key, value) :: (k, v) :: rest
    else (k, v) :: insert key value rest

/-- Removes a name. -/
def erase (d : Dict α) (key : String) : Dict α :=
  d.filter (·.1 ≠ key)

/-- The dictionary of a list of pairs; of two pairs with one name the later one counts. -/
def ofPairs (pairs : List (String × α)) : Dict α :=
  pairs.foldl (fun d (k, v) => insert k v d) []

@[simp] theorem find?_nil (key : String) : find? ([] : Dict α) key = none := rfl

theorem find?_cons (k : String) (v : α) (d : Dict α) (key : String) :
    find? ((k, v) :: d) key = if key = k then some v else find? d key := by
  unfold find?
  rw [List.lookup_cons]
  by_cases h : key = k
  · simp [h]
  · simp [h, beq_eq_false_iff_ne.mpr h]

theorem find?_insert (key : String) (value : α) (d : Dict α) (other : String) :
    find? (insert key value d) other = if other = key then some value else find? d other := by
  induction d with
  | nil => simp [insert, find?_cons]
  | cons entry rest ih =>
    obtain ⟨k, v⟩ := entry
    unfold insert
    split
    · next h => subst h; simp only [find?_cons]; split <;> rfl
    · next h =>
      split
      · rw [find?_cons]
      · rw [find?_cons, find?_cons, ih]
        by_cases hk : other = k
        · simp [hk, Ne.symm h]
        · simp [hk]

theorem find?_erase (d : Dict α) (key other : String) :
    find? (erase d key) other = if other = key then none else find? d other := by
  induction d with
  | nil => simp [erase]
  | cons entry rest ih =>
    obtain ⟨k, v⟩ := entry
    by_cases hk : k = key
    · subst hk
      have : erase ((k, v) :: rest) k = erase rest k := by simp [erase]
      rw [this, ih, find?_cons]
      by_cases ho : other = k <;> simp [ho]
    · have : erase ((k, v) :: rest) key = (k, v) :: erase rest key := by simp [erase, hk]
      rw [this, find?_cons, ih, find?_cons]
      by_cases ho : other = k
      · subst ho; simp [hk]
      · simp [ho]

theorem mem_insert {key : String} {value : α} {d : Dict α} {entry : String × α}
    (h : entry ∈ insert key value d) : entry = (key, value) ∨ entry ∈ d := by
  induction d with
  | nil => simpa [insert] using h
  | cons first rest ih =>
    unfold insert at h
    split at h
    · rcases List.mem_cons.1 h with h | h
      · exact .inl h
      · exact .inr (List.mem_cons_of_mem _ h)
    · split at h
      · exact List.mem_cons.1 h
      · rcases List.mem_cons.1 h with rfl | h
        · exact .inr (by simp)
        · exact (ih h).imp_right (List.mem_cons_of_mem _)

theorem mem_ofPairs {pairs : List (String × α)} {entry : String × α} (h : entry ∈ ofPairs pairs) :
    entry ∈ pairs := by
  have hfold : ∀ d : Dict α, entry ∈ pairs.foldl (fun d (k, v) => insert k v d) d →
      entry ∈ d ∨ entry ∈ pairs := by
    clear h
    induction pairs with
    | nil => exact fun d h => .inl h
    | cons pair pairs ih =>
      intro d h
      rcases ih _ h with h | h
      · rcases mem_insert h with rfl | h
        · exact .inr (by simp)
        · exact .inl h
      · exact .inr (List.mem_cons_of_mem _ h)
  simpa using hfold [] h

theorem mem_of_find? {d : Dict α} {key : String} {value : α} (h : d.find? key = some value) :
    (key, value) ∈ d := by
  obtain ⟨before, after, rfl, -⟩ := List.lookup_eq_some_iff.1 h
  simp

end Dict

end Hashmark
