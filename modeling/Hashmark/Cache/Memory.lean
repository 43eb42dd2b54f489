import Hashmark.Cache.Backend
import Hashmark.Dict

/-!
# The cache in memory

A bounded store. When it is full, the entry that was stored longest ago goes, whether it was read in
the meantime or not; storing under a key that is there counts as new. An entry may have a deadline:
from then on it is not there, and the next look at it removes it. A deadline that is past the range
of the clock makes the program panic. The memory can be used after that: its lock is taken although
the panic has poisoned it.
-/

namespace Hashmark

/-- A stored text and the time from which on it does not count. -/
structure MemoryEntry where
  text : String
  deadline : Option Timestamp
  deriving DecidableEq, Repr

/-- Whether the deadline of an entry is over. -/
def MemoryEntry.isExpired (e : MemoryEntry) (now : Timestamp) : Bool :=
  e.deadline.any fun deadline => deadline.notAfter now

/-- The entries by key, and the keys in the order in which they were stored, oldest first. -/
structure Memory where
  capacity : Nat
  entries : Dict MemoryEntry
  order : List String
  deriving Repr

namespace Memory

/-- An empty store that holds at least one entry. -/
def ofCapacity (capacity : Nat) : Memory :=
  ⟨max capacity 1, [], []⟩

/-- The number of entries, expired ones included. -/
def size (m : Memory) : Nat :=
  m.entries.length

/-- Removes a key, and tells whether it was there. -/
def remove (m : Memory) (key : String) : Bool × Memory :=
  if Dict.contains m.entries key then
    (true, { m with entries := Dict.erase m.entries key, order := m.order.filter (· ≠ key) })
  else (false, m)

/-- Entries with room for one more, and the order of their keys: the oldest ones are gone. -/
def evict (capacity : Nat) (entries : Dict MemoryEntry) :
    List String → Dict MemoryEntry × List String
  | [] => (entries, [])
  | oldest :: order =>
    if capacity ≤ entries.length then evict capacity (Dict.erase entries oldest) order
    else (entries, oldest :: order)

/-- The text under a key that has not expired. -/
def get (now : Timestamp) (key : String) (m : Memory) : Option String × Memory :=
  match Dict.find? m.entries key with
  | none => (none, m)
  | some e => if e.isExpired now then (none, (m.remove key).2) else (some e.text, m)

/-- The deadline, if any, of an entry that is stored for a span of time, or for good; the clock may
not reach it. -/
def deadline? (now : Timestamp) : Option Duration → Option (Option Timestamp)
  | none => some none
  | some ttl => (now.after? ttl).map some

/-- Stores a text as the newest entry. The deadline is worked out last: a panic there leaves the
room that was made, but no entry. -/
def put (now : Timestamp) (key text : String) (ttl : Option Duration) (m : Memory) : Memory :=
  let m := (m.remove key).2
  let (entries, order) := evict m.capacity m.entries m.order
  match deadline? now ttl with
  | some deadline =>
    { m with entries := Dict.insert key ⟨text, deadline⟩ entries, order := order ++ [key] }
  | none => { m with entries := entries, order := order }

/-- Whether there is a text under a key that has not expired. -/
def has (now : Timestamp) (key : String) (m : Memory) : Bool × Memory :=
  let (text?, m) := m.get now key
  (text?.isSome, m)

/-- Removes all entries. -/
def flush (m : Memory) : Memory :=
  { m with entries := [], order := [] }

/-- A memory as a backend. Its entries have no age and no files, and storing never fails; after a
panic the state is the one that the panic leaves. -/
def backend : Backend Memory where
  name := "memory"
  get := get
  put now key text ttl m := some (m.put now key text ttl)
  has := has
  forget key m := m.remove key
  flush m := (true, m.flush)
  isFresh _ _ _ := true
  location? _ := none

end Memory

end Hashmark
