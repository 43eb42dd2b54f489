import Hashmark.Proofs.Elements.Settling

/-!
# Texts that keep raw elements

A text is steady if it is read on its own, before and after it is minified for good, and the same
raw elements are found in it (`Steady`). Texts of a page that are kept in that sense can be put one
after the other (`Keeps.append`): what the optimizer tells about the region of a place is then the
region in which the page is read there, or nothing, and where it tells nothing the texts stay as they
are.
-/

namespace Hashmark

/-- **Steady texts.** A text that is read on its own from each known region, with the same raw
elements in it and the same region after it however often it is minified. -/
structure Steady (text : String) : Prop where
  stable : Stable text
  reads : ∀ region, region ≠ .unknown → ReadsAlone region text.toList
  settled : ∀ region, region ≠ .unknown → ReadsAlone region (settleText region text).toList
  marks_eq : ∀ region, region ≠ .unknown →
    marks region (settleText region text).toList = marks region text.toList

/-- How a text and what takes its place compare if they are entered in a region and the optimizer
tells which region comes after them. Whatever follows, the same is read; where the region is not
known before, nothing changes; and where it is known after, what follows is read from there. -/
structure Keeps (region last : Region) (x y : List Char) : Prop where
  alike : ∀ rest, marks region (x ++ rest) = marks region (y ++ rest)
  same : region = .unknown → last = .unknown ∧ x = y
  reads : last ≠ .unknown → ∃ ms, ∀ rest, marks region (x ++ rest) = ms ++ marks last rest

namespace Keeps

variable {region mid last : Region} {x x' y y' : List Char}

/-- A text that stays, with nothing told about the region after it. -/
theorem lost (region : Region) (x : List Char) : Keeps region .unknown x x where
  alike _ := rfl
  same _ := ⟨rfl, rfl⟩
  reads h := absurd rfl h

/-- A text that stays, and that is read as if it stood alone. -/
theorem stays (h : ∃ ms, ∀ rest, marks region (x ++ rest) = ms ++ marks region rest) :
    Keeps region region x x where
  alike _ := rfl
  same hregion := ⟨hregion, rfl⟩
  reads _ := h

theorem nil (region : Region) : Keeps region region [] [] :=
  stays ⟨[], fun _ => rfl⟩

/-- A text without brackets stays and does not change the region. -/
theorem of_not_mem (region : Region) (h : '<' ∉ x) : Keeps region region x x :=
  stays ⟨charMarks region x, marks_append_of_not_mem region h⟩

/-- Nothing may be told about the region after a text. -/
theorem forget (h : Keeps region last x y) : Keeps region .unknown x y :=
  { h with
    same := fun hregion => ⟨rfl, (h.same hregion).2⟩
    reads := fun hne => absurd rfl hne }

/-- If a text is kept, then also where nothing is told that is not known of it. -/
theorem weaken (h : Keeps region mid x y) (hlast : last = .unknown ∨ mid = last) :
    Keeps region last x y := by
  rcases hlast with rfl | rfl
  · exact h.forget
  · exact h

/-- Where the region is not known, a text stays; so it may stay where it is known. -/
theorem of_unknown (h : Keeps .unknown mid x y) : Keeps region .unknown x y := by
  obtain ⟨-, rfl⟩ := h.same rfl
  exact lost region x

/-- **One text after the other.** -/
theorem append (h : Keeps region mid x y) (h' : Keeps mid last x' y') :
    Keeps region last (x ++ x') (y ++ y') where
  alike rest := by
    rw [List.append_assoc, List.append_assoc]
    by_cases hmid : mid = .unknown
    · rw [(h'.same hmid).2]
      exact h.alike _
    · obtain ⟨ms, hms⟩ := h.reads hmid
      calc marks region (x ++ (x' ++ rest))
          = ms ++ marks mid (x' ++ rest) := hms _
        _ = ms ++ marks mid (y' ++ rest) := by rw [h'.alike rest]
        _ = marks region (x ++ (y' ++ rest)) := (hms _).symm
        _ = marks region (y ++ (y' ++ rest)) := h.alike _
  same hregion := by
    obtain ⟨hmid, rfl⟩ := h.same hregion
    obtain ⟨hlast, rfl⟩ := h'.same hmid
    exact ⟨hlast, rfl⟩
  reads hlast := by
    have hmid : mid ≠ .unknown := fun hmid => hlast (h'.same hmid).1
    obtain ⟨ms, hms⟩ := h.reads hmid
    obtain ⟨ms', hms'⟩ := h'.reads hlast
    exact ⟨ms ++ ms', fun rest => by rw [List.append_assoc, hms, hms', List.append_assoc]⟩

theorem congruent (region : Region) : Congruent (Keeps region region) where
  nil := nil region
  append := append

/-- Kept texts have raw elements with the same contents. -/
theorem contents_eq (h : Keeps .markup last x y) : contents x = contents y := by
  have halike := h.alike []
  rw [List.append_nil, List.append_nil] at halike
  rw [contents, contents, halike]

end Keeps

/-! ### Steady texts are kept -/

/-- A stable text that is minified for good leads to the same region. -/
theorem Stable.after_settleText {text : String} (h : Stable text) {region : Region}
    (hregion : region ≠ .unknown) :
    after region (settleText region text).toList = after region text.toList := by
  obtain ⟨n, hn⟩ := exists_minifiedTimes region text
  have hlast := h n region
  rwa [minifyText_of_known hregion, minifyText_of_known hregion, ← hn] at hlast

/-- **Steady texts are kept** when they are minified for good. -/
theorem Steady.keeps {text : String} (h : Steady text) (region : Region) :
    Keeps region (minifyText region text).2 text.toList (settleText region text).toList := by
  by_cases hregion : region = .unknown
  · rw [hregion, settleText_unknown, minifyText_unknown]
    exact .lost _ _
  · have hreads := h.reads region hregion
    rw [minifyText_of_known hregion]
    refine ⟨fun rest => ?_, fun hunknown => absurd hunknown hregion, fun _ => ⟨_, hreads⟩⟩
    rw [hreads rest, h.settled region hregion rest, h.marks_eq region hregion,
      h.stable.after_settleText hregion]

end Hashmark
