import Hashmark.Path
import Hashmark.Timestamp

/-!
# Cache backends

What an engine asks of a place where texts are stored under keys. Reading never fails: a backend
that cannot answer has nothing under the key. Writing may fail. A backend is given the state that it
works on, and the present time where that matters.
-/

namespace Hashmark

/-- A store of texts under keys, with states in `σ`. -/
structure Backend (σ : Type) where
  /-- A short name for messages. -/
  name : String
  /-- The text under a key. Looking may remove what has expired. -/
  get : Timestamp → String → σ → Option String × σ
  /-- Stores a text under a key in place of an earlier one, for a span of time if one is given. -/
  put : Timestamp → String → String → Option Duration → σ → Option σ
  /-- Whether there is a text under a key. -/
  has : Timestamp → String → σ → Bool × σ
  /-- Removes the text under a key, and tells whether there was one. -/
  forget : String → σ → Bool × σ
  /-- Removes all texts, and tells whether that succeeded. -/
  flush : σ → Bool × σ
  /-- Whether the text under a key was stored at a time or later. -/
  isFresh : String → Timestamp → σ → Bool
  /-- The file that holds the text under a key, if files do. -/
  location? : String → Option Path

namespace Backend

/-- Stores nothing. -/
def null : Backend σ where
  name := "none"
  get _ _ s := (none, s)
  put _ _ _ _ s := some s
  has _ _ s := (false, s)
  forget _ s := (false, s)
  flush s := (true, s)
  isFresh _ _ _ := true
  location? _ := none

/-- A backend on the first part of a state. -/
def onFirst (b : Backend σ) : Backend (σ × τ) where
  name := b.name
  get now key s := let (text?, s₁) := b.get now key s.1; (text?, s₁, s.2)
  put now key text ttl s := (b.put now key text ttl s.1).map (·, s.2)
  has now key s := let (found, s₁) := b.has now key s.1; (found, s₁, s.2)
  forget key s := let (found, s₁) := b.forget key s.1; (found, s₁, s.2)
  flush s := let (done, s₁) := b.flush s.1; (done, s₁, s.2)
  isFresh key time s := b.isFresh key time s.1
  location? := b.location?

/-- A backend on the second part of a state. -/
def onSecond (b : Backend τ) : Backend (σ × τ) where
  name := b.name
  get now key s := let (text?, s₂) := b.get now key s.2; (text?, s.1, s₂)
  put now key text ttl s := (b.put now key text ttl s.2).map (s.1, ·)
  has now key s := let (found, s₂) := b.has now key s.2; (found, s.1, s₂)
  forget key s := let (found, s₂) := b.forget key s.2; (found, s.1, s₂)
  flush s := let (done, s₂) := b.flush s.2; (done, s.1, s₂)
  isFresh key time s := b.isFresh key time s.2
  location? := b.location?

end Backend

end Hashmark
