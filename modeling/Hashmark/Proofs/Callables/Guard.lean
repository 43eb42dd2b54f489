import Hashmark.Proofs.Rendering.Tables

/-!
# The guard of calls

A call goes through only if its callee is in its table and has no denied name. Hence tables without
the denied names, in whatever letter case, give every artifact the same output or the same fault
(`Artifact.render_withoutDenied`), and if all callees of an artifact may be called, then every fault
of its rendering comes from a callable of the tables and not from the guard
(`Artifact.render_fault`).
-/

namespace Hashmark

/-! ### Denied names -/

/-- Whether two names are the same apart from the case of their ASCII letters. -/
def SameLetters (name other : String) : Prop :=
  name.toList.map Char.toLower = other.toList.map Char.toLower

instance (name other : String) : Decidable (SameLetters name other) :=
  inferInstanceAs (Decidable (name.toList.map Char.toLower = other.toList.map Char.toLower))

/-- Whether a name is one of the denied ones, apart from letter case. -/
def SpellsDenied (name : String) : Prop :=
  ∃ denied ∈ deniedNames, SameLetters name denied

instance (name : String) : Decidable (SpellsDenied name) :=
  List.decidableBEx _ deniedNames

/-- The names on the deny-list are in lower case. -/
theorem toLower_deniedNames : ∀ denied ∈ deniedNames,
    denied.toList.map Char.toLower = denied.toList := by
  decide

/-- A name is never callable exactly if it is one of the denied ones in some letter case. -/
theorem isDenied_iff {name : String} : isDenied name = true ↔ SpellsDenied name := by
  have htoList : name.toLower.toList = name.toList.map Char.toLower := String.toList_map
  rw [isDenied, List.contains_iff_mem]
  constructor
  · intro hmem
    exact ⟨_, hmem, by rw [SameLetters, toLower_deniedNames _ hmem, htoList]⟩
  · rintro ⟨denied, hmem, hsame⟩
    rw [SameLetters, toLower_deniedNames _ hmem, ← htoList] at hsame
    rwa [String.toList_inj.1 hsame]

example : SpellsDenied "Shell_EXEC" := by decide

/-! ### Tables without denied names -/

theorem Dict.find?_filter {α : Type} (keep : String → Bool) (d : Dict α) (key : String) :
    Dict.find? (d.filter fun entry => keep entry.1) key =
      if keep key then Dict.find? d key else none := by
  induction d with
  | nil => simp
  | cons entry d ih =>
    obtain ⟨k, v⟩ := entry
    rw [List.filter_cons]
    by_cases hkey : key = k
    · subst hkey
      cases hkeep : keep key with
      | true => simp [Dict.find?_cons]
      | false => simpa [hkeep] using ih
    · have hrest : Dict.find? ((k, v) :: d) key = Dict.find? d key := by
        rw [Dict.find?_cons, if_neg hkey]
      rw [hrest, ← ih]
      split
      · rw [Dict.find?_cons, if_neg hkey]
      · rfl

namespace Callables

/-- The tables without the entries that have a denied name, in any letter case. -/
def withoutDenied (c : Callables) : Callables where
  functions := c.functions.filter fun entry => !decide (SpellsDenied entry.1)
  filters := c.filters.filter fun entry => !decide (SpellsDenied entry.1)

variable (c : Callables) (name : String)

/-- A call has the same outcome under the tables without denied names. -/
theorem call_withoutDenied (args : List Value) :
    c.withoutDenied.call name args = c.call name args := by
  have hfind : Dict.find? c.withoutDenied.functions name =
      if !decide (SpellsDenied name) then Dict.find? c.functions name else none :=
    Dict.find?_filter (fun name => !decide (SpellsDenied name)) c.functions name
  unfold call
  rw [hfind]
  by_cases hdenied : SpellsDenied name
  · -- registered or not, a denied name fails with the same fault
    rw [if_neg (by simpa using hdenied), isDenied_iff.2 hdenied]
    cases Dict.find? c.functions name <;> rfl
  · rw [if_pos (by simpa using hdenied)]

/-- A filter has the same outcome under the tables without denied names. -/
theorem pipe_withoutDenied (input : Value) (args : List Value) :
    c.withoutDenied.pipe name input args = c.pipe name input args := by
  have hfind : Dict.find? c.withoutDenied.filters name =
      if !decide (SpellsDenied name) then Dict.find? c.filters name else none :=
    Dict.find?_filter (fun name => !decide (SpellsDenied name)) c.filters name
  unfold pipe
  rw [hfind]
  by_cases hdenied : SpellsDenied name
  · rw [if_neg (by simpa using hdenied), isDenied_iff.2 hdenied]
    cases Dict.find? c.filters name <;> rfl
  · rw [if_pos (by simpa using hdenied)]

end Callables

/-- **Denied callables are never called.** Whatever an artifact holds, it is rendered the same way,
with the same output or the same fault, when all entries with a denied name, in any letter case, are
taken out of the tables. -/
theorem Artifact.render_withoutDenied (a : Artifact) (c : Callables) (s : Scopes) :
    a.render c.withoutDenied s = a.render c s := by
  refine a.render_congr (fun callee _ => ?_) s
  cases callee with
  | function name => exact c.call_withoutDenied name
  | filter name => exact c.pipe_withoutDenied name

/-! ### Allowed callees -/

namespace Callables

section Calls

variable {c : Callables} {name : String}

/-- A call of a registered function goes through unless the name is denied. -/
theorem call_of_find? {f : Function} (hf : Dict.find? c.functions name = some f)
    (hname : ¬SpellsDenied name) (args : List Value) :
    c.call name args = (f args).mapError (CallFault.mk name) := by
  have hguard : isDenied name = false := by simpa [← isDenied_iff] using hname
  simp [call, hf, hguard]

/-- A registered filter is applied unless the name is denied. -/
theorem pipe_of_find? {f : Filter} (hf : Dict.find? c.filters name = some f)
    (hname : ¬SpellsDenied name) (input : Value) (args : List Value) :
    c.pipe name input args = (f input args).mapError (CallFault.mk name) := by
  have hguard : isDenied name = false := by simpa [← isDenied_iff] using hname
  simp [pipe, hf, hguard]

end Calls

/-- Whether a callee may be called: its name is none of the denied ones in any letter case, and it
is in its table. -/
def Allows (c : Callables) (callee : Callee) : Prop :=
  ¬SpellsDenied callee.name ∧
    match callee with
    | .function name => ∃ f, Dict.find? c.functions name = some f
    | .filter name => ∃ f, Dict.find? c.filters name = some f

/-- Whether a fault is one that a callable of the tables fails with by itself, and not the guard. -/
def Raises (c : Callables) (fault : CallFault) : Prop :=
  ¬SpellsDenied fault.callable ∧
    ((∃ f args, Dict.find? c.functions fault.callable = some f ∧ f args = .error fault.message) ∨
      ∃ f input args, Dict.find? c.filters fault.callable = some f ∧
        f input args = .error fault.message)

variable {c : Callables}

/-- The faults of an allowed callee are its own. -/
theorem raises_of_allows {callee : Callee} (h : c.Allows callee) :
    c.Related (fun x _ => ∀ fault, x = .error fault → c.Raises fault) c callee := by
  obtain ⟨hdenied, hfind⟩ := h
  cases callee with
  | function name =>
    obtain ⟨f, hf⟩ := hfind
    intro args fault h
    rw [call_of_find? hf hdenied] at h
    cases hresult : f args with
    | ok v => rw [hresult] at h; cases h
    | error message =>
      rw [hresult] at h
      cases h
      exact ⟨hdenied, .inl ⟨f, args, hf, hresult⟩⟩
  | filter name =>
    obtain ⟨f, hf⟩ := hfind
    intro input args fault h
    rw [pipe_of_find? hf hdenied] at h
    cases hresult : f input args with
    | ok v => rw [hresult] at h; cases h
    | error message =>
      rw [hresult] at h
      cases h
      exact ⟨hdenied, .inr ⟨f, input, args, hf, hresult⟩⟩

theorem stepwise_raises : Stepwise fun x _ => ∀ fault, x = .error fault → c.Raises fault where
  ok _ _ h := nomatch h
  bind {α β x y f g} hx hf fault h := by
    cases x with
    | error e => exact hx fault (by cases h; rfl)
    | ok a => exact hf a fault h

end Callables

/-- **Faults of renderings.** If all callees of an artifact may be called, then a rendering fails
only where a callable fails by itself, and with its message. -/
theorem Artifact.render_fault {a : Artifact} {c : Callables}
    (h : ∀ callee ∈ a.callees, c.Allows callee) {s : Scopes} {e : TemplateError}
    (he : a.render c s = .error e) :
    ∃ fault, c.Raises fault ∧ e = .failedCall a.name fault.callable fault.message := by
  have hrelated := a.render_related Callables.stepwise_raises
    (fun callee hcallee => Callables.raises_of_allows (h callee hcallee)) s
  rw [Artifact.render] at he
  split at he
  · cases he
  · next fault hfault =>
    cases he
    exact ⟨fault, hrelated fault hfault, rfl⟩

end Hashmark
