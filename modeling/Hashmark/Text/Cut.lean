/-!
# Finding a text in another

Searches over lists of characters, for the leftmost occurrence or for one after the other.
-/

namespace Hashmark.Text

/-- The text after `pattern`, if it starts with it. -/
def dropStart? : List Char → List Char → Option (List Char)
  | [], cs => some cs
  | p :: ps, c :: cs => if p = c then dropStart? ps cs else none
  | _ :: _, [] => none

theorem eq_append_of_dropStart? {pattern cs rest : List Char}
    (h : dropStart? pattern cs = some rest) : cs = pattern ++ rest := by
  induction pattern generalizing cs with
  | nil => cases h; rfl
  | cons p ps ih =>
    cases cs with
    | nil => cases h
    | cons c cs =>
      unfold dropStart? at h
      split at h
      · next hp => subst hp; rw [ih h]; rfl
      · cases h

/-- The text before the first occurrence of `pattern`, and the text after it. -/
def cut (pattern : List Char) : List Char → Option (List Char × List Char)
  | [] => (dropStart? pattern []).map ([], ·)
  | c :: cs =>
    match dropStart? pattern (c :: cs) with
    | some rest => some ([], rest)
    | none => (cut pattern cs).map fun (before, rest) => (c :: before, rest)

theorem eq_append_of_cut {pattern cs before rest : List Char}
    (h : cut pattern cs = some (before, rest)) : cs = before ++ pattern ++ rest := by
  induction cs generalizing before with
  | nil =>
    simp only [cut, Option.map_eq_some_iff] at h
    obtain ⟨rest', h', heq⟩ := h
    cases heq
    simpa using eq_append_of_dropStart? h'
  | cons c cs ih =>
    unfold cut at h
    split at h
    · next h' => cases h; simpa using eq_append_of_dropStart? h'
    · simp only [Option.map_eq_some_iff] at h
      obtain ⟨⟨before', rest'⟩, h', heq⟩ := h
      cases heq
      rw [ih h']
      simp

/-- The occurrences of `pattern` from left to right, each as the text before it and the text after
it. They do not overlap: an occurrence may start where the one before it stops. The empty text
occurs before every character and at the end. `passed` is the text that was passed, last character
first, and `inside` the number of characters to come that belong to the last occurrence. -/
def occurrences (pattern passed : List Char) (inside : Nat) :
    List Char → List (List Char × List Char)
  | [] => if pattern = [] then [(passed.reverse, [])] else []
  | c :: cs =>
    match inside with
    | inside + 1 => occurrences pattern (c :: passed) inside cs
    | 0 =>
      match dropStart? pattern (c :: cs) with
      | some rest =>
        (passed.reverse, rest) :: occurrences pattern (c :: passed) (pattern.length - 1) cs
      | none => occurrences pattern (c :: passed) 0 cs

theorem eq_append_of_mem_occurrences {pattern passed cs before rest : List Char} {inside : Nat}
    (h : (before, rest) ∈ occurrences pattern passed inside cs) :
    passed.reverse ++ cs = before ++ pattern ++ rest := by
  induction cs generalizing passed inside with
  | nil =>
    rw [occurrences] at h
    split at h
    · next hempty =>
      cases List.mem_singleton.1 h
      simp [hempty]
    · cases h
  | cons c cs ih =>
    have hlater {inside : Nat}
        (h : (before, rest) ∈ occurrences pattern (c :: passed) inside cs) :
        passed.reverse ++ c :: cs = before ++ pattern ++ rest := by
      rw [← ih h, List.reverse_cons, List.append_assoc]
      rfl
    cases inside with
    | succ inside => exact hlater h
    | zero =>
      rw [occurrences] at h
      split at h
      · next hfound =>
        rcases List.mem_cons.1 h with heq | h
        · cases heq
          rw [eq_append_of_dropStart? hfound, List.append_assoc]
        · exact hlater h
      · exact hlater h

end Hashmark.Text
