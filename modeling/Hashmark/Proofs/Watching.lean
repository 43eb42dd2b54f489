import Mathlib.Control.Basic

/-!
# Watched computations

A recursion through a graph ends if it can go only so deep. To say how deep, it is written down once
more with a bound: where it would go deeper, it stops without an outcome. What it went through on
the way is kept in a log, also if it fails (`Watched`).

The bound is large enough if the outcome is there and is that of the recursion without a bound, and
the recursion keeps an invariant if every entry of the log does (`Watched.Settles`). Both pass from
the steps of a computation to the whole of it.
-/

namespace Hashmark

/-- A computation under watch. -/
structure Watched (σ ε α : Type) where
  /-- What comes of it, unless it was stopped. -/
  outcome : Option (Except ε α)
  /-- What it went through, first entry first. -/
  log : List σ

namespace Watched

variable {σ ε α β : Type}

/-- One computation after the other; what fails or is stopped is not gone on with. -/
protected def bind (x : Watched σ ε α) (f : α → Watched σ ε β) : Watched σ ε β :=
  match x.outcome with
  | some (.ok a) => ⟨(f a).outcome, x.log ++ (f a).log⟩
  | some (.error e) => ⟨some (.error e), x.log⟩
  | none => ⟨none, x.log⟩

instance : Monad (Watched σ ε) where
  pure a := ⟨some (.ok a), []⟩
  bind := Watched.bind

/-- A step that is not watched. -/
def ofExcept (x : Except ε α) : Watched σ ε α :=
  ⟨some x, []⟩

/-- Where a computation would go too deep. -/
def stopped : Watched σ ε α :=
  ⟨none, []⟩

/-- A computation with an entry in the log before it. -/
def record (entry : σ) (x : Watched σ ε α) : Watched σ ε α :=
  ⟨x.outcome, entry :: x.log⟩

/-! ### Laws -/

theorem pure_bind (a : α) (f : α → Watched σ ε β) : pure a >>= f = f a := rfl

theorem bind_pure (x : Watched σ ε α) : x >>= pure = x := by
  obtain ⟨outcome, log⟩ := x
  rcases outcome with _ | _ | a
  · rfl
  · rfl
  · show Watched.mk (some (.ok a)) (log ++ []) = _
    rw [List.append_nil]

theorem bind_assoc {γ : Type} (x : Watched σ ε α) (f : α → Watched σ ε β)
    (g : β → Watched σ ε γ) : x >>= f >>= g = x >>= fun a => f a >>= g := by
  obtain ⟨outcome, log⟩ := x
  rcases outcome with _ | _ | a
  · rfl
  · rfl
  · rcases houtcome : (f a).outcome with _ | _ | b
    all_goals simp only [bind, Watched.bind, houtcome, List.append_assoc]

instance : LawfulMonad (Watched σ ε) :=
  LawfulMonad.mk' (Watched σ ε) bind_pure pure_bind bind_assoc

/-! ### Computations that are not stopped -/

/-- Whether a watched computation has the outcome `r`, and all that it went through is fine. -/
structure Settles (Fine : σ → Prop) (x : Watched σ ε α) (r : Except ε α) : Prop where
  outcome_eq : x.outcome = some r
  fine : ∀ entry ∈ x.log, Fine entry

section Settles

variable {Fine : σ → Prop} {x : Watched σ ε α} {r : Except ε α}

theorem settles_ofExcept (r : Except ε α) : Settles Fine (ofExcept r) r :=
  ⟨rfl, fun _ h => nomatch h⟩

theorem settles_pure (a : α) : Settles Fine (pure a) (.ok a : Except ε α) :=
  settles_ofExcept (.ok a)

theorem Settles.record {entry : σ} (hentry : Fine entry) (h : Settles Fine x r) :
    Settles Fine (record entry x) r :=
  ⟨h.outcome_eq, List.forall_mem_cons.2 ⟨hentry, h.fine⟩⟩

/-- One computation after the other settles if the second does for what comes of the first. -/
theorem Settles.bind {f : α → Watched σ ε β} {g : α → Except ε β} (h : Settles Fine x r)
    (hf : ∀ a, r = .ok a → Settles Fine (f a) (g a)) : Settles Fine (x >>= f) (r >>= g) := by
  obtain ⟨outcome, log⟩ := x
  obtain ⟨rfl, hlog⟩ := h
  cases r with
  | error e => exact ⟨rfl, hlog⟩
  | ok a =>
    obtain ⟨houtcome, hlog'⟩ := hf a rfl
    exact ⟨houtcome, List.forall_mem_append.2 ⟨hlog, hlog'⟩⟩

/-- A step that is not watched, and then a computation that depends on it. -/
theorem settles_ofExcept_bind {f : α → Watched σ ε β} {g : α → Except ε β} (r : Except ε α)
    (hf : ∀ a, r = .ok a → Settles Fine (f a) (g a)) :
    Settles Fine (ofExcept r >>= f) (r >>= g) :=
  (settles_ofExcept r).bind hf

/-- Computations one after the other, for the items of a list. -/
theorem Settles.mapM {ι : Type} {f : ι → Watched σ ε α} {g : ι → Except ε α} {items : List ι}
    (h : ∀ i ∈ items, Settles Fine (f i) (g i)) :
    Settles Fine (items.mapM f) (items.mapM g) := by
  induction items with
  | nil => exact settles_pure []
  | cons i items ih =>
    obtain ⟨hfirst, hrest⟩ := List.forall_mem_cons.1 h
    rw [List.mapM_cons, List.mapM_cons]
    exact hfirst.bind fun a _ => (ih hrest).bind fun as _ => settles_pure (a :: as)

end Settles

end Watched

end Hashmark
