import Mathlib
import Hashmark.Cache.Memory

/-!
# The memory as a queue

A memory keeps its entries and the order of their keys apart. Together they stand for one list, the
entries from the oldest to the newest (`Queue`), and each operation on the memory is the plain
operation on that list: `Memory.Holds` says what the list of a memory is, `Holds.perform` that one
operation keeps it, also one that panics, and `Memory.answers_eq_queue` that no run of operations
can tell the two apart.
-/

namespace Hashmark

/-- Entries under their keys, the oldest first. -/
abbrev Queue := List (String × MemoryEntry)

namespace Memory

/-- An operation on a store of texts. -/
inductive Operation where
  /-- Stores a text, for a span of time if one is given. -/
  | put (key text : String) (ttl : Option Duration)
  | get (key : String)
  | has (key : String)
  | forget (key : String)
  | flush
  | size
  deriving DecidableEq, Repr

/-- What an operation answers. -/
inductive Answer where
  | stored
  /-- No answer, since the clock does not reach the deadline. -/
  | panic
  | text (text? : Option String)
  | truth (value : Bool)
  | count (n : Nat)
  deriving DecidableEq, Repr

/-- What storing at a time answers. -/
def Answer.ofPut (now : Timestamp) (ttl : Option Duration) : Answer :=
  if (deadline? now ttl).isSome then .stored else .panic

/-- The answer of a memory to an operation at a time, and the memory after it. -/
def perform (m : Memory) (now : Timestamp) : Operation → Answer × Memory
  | .put key text ttl => (.ofPut now ttl, m.put now key text ttl)
  | .get key => (.text (m.get now key).1, (m.get now key).2)
  | .has key => (.truth (m.has now key).1, (m.has now key).2)
  | .forget key => (.truth (m.remove key).1, (m.remove key).2)
  | .flush => (.truth true, m.flush)
  | .size => (.count m.size, m)

/-- The answers to some operations, each at its time, and the memory after them. -/
def run (m : Memory) : List (Timestamp × Operation) → List Answer × Memory
  | [] => ([], m)
  | (now, operation) :: steps =>
    let (answer, m) := m.perform now operation
    let (answers, m) := m.run steps
    (answer :: answers, m)

end Memory

namespace Queue

open Memory (Operation Answer)

/-- The keys, those of the oldest entries first. -/
def keys (q : Queue) : List String :=
  q.map Prod.fst

/-- The text under a key. An entry whose deadline is not later than now does not count, and goes. -/
def get (q : Queue) (now : Timestamp) (key : String) : Option String × Queue :=
  match Dict.find? q key with
  | none => (none, q)
  | some e => if e.isExpired now then (none, Dict.erase q key) else (some e.text, q)

/-- Stores a text under a key as the newest entry. An entry under the key goes, and of the others
as many of the oldest ones as it takes to make room, also where the clock does not reach the
deadline of the new entry. -/
def put (q : Queue) (capacity : Nat) (now : Timestamp) (key text : String)
    (ttl : Option Duration) : Queue :=
  let others := Dict.erase q key
  let rest := others.drop (others.length + 1 - capacity)
  match Memory.deadline? now ttl with
  | some deadline => rest ++ [(key, ⟨text, deadline⟩)]
  | none => rest

/-- The answer of a queue to an operation at a time, and the queue after it. -/
def perform (q : Queue) (capacity : Nat) (now : Timestamp) : Operation → Answer × Queue
  | .put key text ttl => (.ofPut now ttl, q.put capacity now key text ttl)
  | .get key => (.text (q.get now key).1, (q.get now key).2)
  | .has key => (.truth (q.get now key).1.isSome, (q.get now key).2)
  | .forget key => (.truth (Dict.contains q key), Dict.erase q key)
  | .flush => (.truth true, [])
  | .size => (.count q.length, q)

/-- The answers to some operations, each at its time, and the queue after them. -/
def run (q : Queue) (capacity : Nat) : List (Timestamp × Operation) → List Answer × Queue
  | [] => ([], q)
  | (now, operation) :: steps =>
    let (answer, q) := q.perform capacity now operation
    let (answers, q) := q.run capacity steps
    (answer :: answers, q)

theorem keys_erase (q : Queue) (key : String) :
    keys (Dict.erase q key) = (keys q).filter (· ≠ key) := by
  rw [keys, keys, Dict.erase, List.filter_map]
  rfl

theorem keys_drop (q : Queue) (n : Nat) : keys (q.drop n) = (keys q).drop n :=
  List.map_drop

end Queue

/-! ### Dictionaries up to order -/

namespace Dict

variable {α : Type} {d d' : Dict α} {key : String} {value : α}

theorem contains_eq_true_iff : contains d key = true ↔ key ∈ d.map Prod.fst := by
  rw [contains, find?, List.lookup_isSome_iff, List.mem_map]
  exact exists_congr fun entry => and_congr_right fun _ => beq_iff_eq.trans eq_comm

/-- What is under a name, where names do not repeat. -/
theorem find?_eq_some_iff (hd : (d.map Prod.fst).Nodup) :
    find? d key = some value ↔ (key, value) ∈ d := by
  induction d with
  | nil => simp
  | cons entry d ih =>
    obtain ⟨k, v⟩ := entry
    obtain ⟨hk, hd⟩ := List.nodup_cons.1 hd
    rw [find?_cons, List.mem_cons, Prod.mk.injEq]
    split
    case isTrue heq =>
      subst heq
      have hfresh : (key, value) ∉ d := fun h => hk (List.mem_map.2 ⟨_, h, rfl⟩)
      simp [hfresh, eq_comm]
    case isFalse hne => simp [ih hd, hne]

/-- The order of pairs does not matter for what is under a name. -/
theorem find?_perm (h : d.Perm d') (hd : (d.map Prod.fst).Nodup) (key : String) :
    find? d key = find? d' key := by
  have hd' : (d'.map Prod.fst).Nodup := (h.map Prod.fst).nodup_iff.1 hd
  refine Option.ext fun value => ?_
  rw [find?_eq_some_iff hd, find?_eq_some_iff hd', h.mem_iff]

theorem erase_of_not_mem (h : key ∉ d.map Prod.fst) : erase d key = d := by
  refine List.filter_eq_self.2 fun entry hentry => ?_
  have hne : entry.1 ≠ key := fun heq => h (heq ▸ List.mem_map_of_mem hentry)
  simpa using hne

/-- A new name adds a pair. -/
theorem insert_perm (h : key ∉ d.map Prod.fst) (value : α) :
    (insert key value d).Perm ((key, value) :: d) := by
  induction d with
  | nil => rfl
  | cons entry d ih =>
    obtain ⟨k, v⟩ := entry
    simp only [List.map_cons, List.mem_cons, not_or] at h
    rw [insert, if_neg h.1]
    split
    · rfl
    · exact ((ih h.2).cons (k, v)).trans (List.Perm.swap _ _ _)

end Dict

/-! ### The queue of a memory -/

namespace Memory

variable {m : Memory} {q : Queue} {key : String}

/-- Whether a queue has the entries of a memory, in the order in which they were stored. -/
structure Holds (m : Memory) (q : Queue) : Prop where
  entries_perm : m.entries.Perm q
  order_eq : m.order = q.keys
  nodup : q.keys.Nodup
  capacity_pos : 1 ≤ m.capacity
  length_le : q.length ≤ m.capacity

namespace Holds

theorem find?_eq (h : m.Holds q) (key : String) :
    Dict.find? m.entries key = Dict.find? q key :=
  Dict.find?_perm h.entries_perm ((h.entries_perm.map Prod.fst).nodup_iff.2 h.nodup) key

theorem size_eq (h : m.Holds q) : m.size = q.length :=
  h.entries_perm.length_eq

/-- Removing a key removes its entry from the queue. -/
theorem remove (h : m.Holds q) (key : String) :
    (m.remove key).1 = Dict.contains q key ∧ (m.remove key).2.Holds (Dict.erase q key) := by
  have hcontains : Dict.contains m.entries key = Dict.contains q key := by
    rw [Dict.contains, Dict.contains, h.find?_eq]
  unfold Memory.remove
  rw [hcontains]
  cases hfound : Dict.contains q key with
  | true =>
    refine ⟨rfl, h.entries_perm.filter _, ?_, ?_, h.capacity_pos, ?_⟩
    · simp only [if_true, h.order_eq, Queue.keys_erase]
    · rw [Queue.keys_erase]
      exact h.nodup.filter _
    · exact (List.length_filter_le _ _).trans h.length_le
  | false =>
    have hfresh : key ∉ q.map Prod.fst := by
      rw [← Dict.contains_eq_true_iff, hfound]
      exact Bool.false_ne_true
    rw [Dict.erase_of_not_mem hfresh]
    exact ⟨rfl, h⟩

/-- Looking a key up gives what the queue gives, and removes what the queue removes. -/
theorem get (h : m.Holds q) (now : Timestamp) (key : String) :
    (m.get now key).1 = (q.get now key).1 ∧ (m.get now key).2.Holds (q.get now key).2 := by
  unfold Memory.get Queue.get
  rw [h.find?_eq]
  cases Dict.find? q key with
  | none => exact ⟨rfl, h⟩
  | some e =>
    cases hexpired : e.isExpired now with
    | true =>
      simp only [hexpired, if_true]
      exact ⟨trivial, (h.remove key).2⟩
    | false =>
      simp only [hexpired]
      exact ⟨rfl, h⟩

end Holds

/-- Evicting drops the oldest entries of the queue until there is room for one more. -/
theorem evict_eq {entries : Dict MemoryEntry} (hentries : entries.Perm q) (hnodup : q.keys.Nodup)
    (capacity : Nat) :
    (evict capacity entries q.keys).1.Perm (q.drop (q.length + 1 - capacity)) ∧
      (evict capacity entries q.keys).2 = Queue.keys (q.drop (q.length + 1 - capacity)) := by
  induction q generalizing entries with
  | nil => simpa [evict, Queue.keys] using hentries
  | cons oldest q ih =>
    obtain ⟨k, v⟩ := oldest
    obtain ⟨hk, hq⟩ := List.nodup_cons.1 hnodup
    have hlength : entries.length = q.length + 1 := hentries.length_eq
    rw [show Queue.keys ((k, v) :: q) = k :: Queue.keys q from rfl, evict]
    split
    case isTrue hfull =>
      have herase : (Dict.erase entries k).Perm q := by
        have hdropped : Dict.erase ((k, v) :: q) k = q := by
          rw [Dict.erase, List.filter_cons_of_neg (by simp)]
          exact Dict.erase_of_not_mem hk
        have hperm : (Dict.erase entries k).Perm (Dict.erase ((k, v) :: q) k) := hentries.filter _
        rwa [hdropped] at hperm
      have hdrop : ((k, v) :: q).drop (((k, v) :: q).length + 1 - capacity) =
          q.drop (q.length + 1 - capacity) := by
        rw [List.length_cons, Nat.sub_add_comm (by omega), List.drop_succ_cons]
      rw [hdrop]
      exact ih herase hq
    case isFalse hroom =>
      have hnone : ((k, v) :: q).length + 1 - capacity = 0 := by
        rw [List.length_cons]
        omega
      rw [hnone]
      exact ⟨hentries, rfl⟩

/-- A memory after evicting has the rest of the queue, and room for one more. -/
theorem Holds.evict (h : m.Holds q) :
    let evicted := Memory.evict m.capacity m.entries m.order
    let rest : Queue := q.drop (q.length + 1 - m.capacity)
    Holds ⟨m.capacity, evicted.1, evicted.2⟩ rest ∧ rest.length + 1 ≤ m.capacity := by
  intro evicted rest
  obtain ⟨hentries, horder⟩ := evict_eq h.entries_perm h.nodup m.capacity
  rw [← h.order_eq] at hentries horder
  have hpos := h.capacity_pos
  have hroom : rest.length + 1 ≤ m.capacity := by
    simp only [rest, List.length_drop]
    omega
  refine ⟨⟨hentries, horder, ?_, hpos, Nat.le_of_succ_le hroom⟩, hroom⟩
  rw [Queue.keys_drop]
  exact h.nodup.drop

/-- A new key goes to the end of the queue. -/
theorem Holds.append (h : m.Holds q) (hkey : key ∉ q.keys) (hroom : q.length + 1 ≤ m.capacity)
    (e : MemoryEntry) :
    Holds ⟨m.capacity, Dict.insert key e m.entries, m.order ++ [key]⟩ (q ++ [(key, e)]) := by
  have hkeys : Queue.keys (q ++ [(key, e)]) = q.keys ++ [key] := List.map_append
  constructor
  case entries_perm =>
    have hnew : key ∉ m.entries.map Prod.fst :=
      fun hmem => hkey ((h.entries_perm.map Prod.fst).mem_iff.1 hmem)
    calc Dict.insert key e m.entries
      _ |>.Perm ((key, e) :: m.entries) := Dict.insert_perm hnew e
      _ |>.Perm ((key, e) :: q) := h.entries_perm.cons _
      _ |>.Perm (q ++ [(key, e)]) := (List.perm_append_singleton _ _).symm
  case order_eq => rw [hkeys, h.order_eq]
  case nodup =>
    rw [hkeys]
    exact List.nodup_append'.2 ⟨h.nodup, List.nodup_singleton _, by simpa using hkey⟩
  case capacity_pos => exact h.capacity_pos
  case length_le =>
    rw [List.length_append]
    exact hroom

theorem capacity_remove (m : Memory) (key : String) : (m.remove key).2.capacity = m.capacity := by
  unfold remove
  split <;> rfl

theorem capacity_get (m : Memory) (now : Timestamp) (key : String) :
    (m.get now key).2.capacity = m.capacity := by
  unfold get
  split
  · rfl
  · split
    · exact capacity_remove m key
    · rfl

theorem capacity_put (m : Memory) (now : Timestamp) (key text : String) (ttl : Option Duration) :
    (m.put now key text ttl).capacity = m.capacity := by
  unfold put
  split <;> exact capacity_remove m key

/-- Storing a text is storing it in the queue. -/
theorem Holds.put (h : m.Holds q) (now : Timestamp) (key text : String) (ttl : Option Duration) :
    (m.put now key text ttl).Holds (q.put m.capacity now key text ttl) := by
  obtain ⟨-, hothers⟩ := h.remove key
  obtain ⟨hrest, hroom⟩ := hothers.evict
  rw [← capacity_remove m key]
  unfold Memory.put Queue.put
  cases deadline? now ttl with
  | none => exact hrest
  | some deadline =>
    have hfresh : key ∉ Queue.keys ((Dict.erase q key).drop
        ((Dict.erase q key).length + 1 - (m.remove key).2.capacity)) := by
      intro hmem
      rw [Queue.keys_drop, Queue.keys_erase] at hmem
      simpa using List.of_mem_filter (List.mem_of_mem_drop hmem)
    exact hrest.append hfresh hroom ⟨text, deadline⟩

theorem capacity_perform (m : Memory) (now : Timestamp) (operation : Operation) :
    (m.perform now operation).2.capacity = m.capacity := by
  cases operation with
  | put key text ttl => exact capacity_put m now key text ttl
  | get key | has key => exact capacity_get m now key
  | forget key => exact capacity_remove m key
  | flush | size => rfl

/-- **One operation**: a memory answers as its queue does, and the queue after the operation is the
queue of the memory after it. -/
theorem Holds.perform (h : m.Holds q) (now : Timestamp) (operation : Operation) :
    (m.perform now operation).1 = (q.perform m.capacity now operation).1 ∧
      (m.perform now operation).2.Holds (q.perform m.capacity now operation).2 := by
  cases operation with
  | put key text ttl => exact ⟨rfl, h.put now key text ttl⟩
  | get key =>
    obtain ⟨hanswer, hholds⟩ := h.get now key
    exact ⟨congrArg Answer.text hanswer, hholds⟩
  | has key =>
    obtain ⟨hanswer, hholds⟩ := h.get now key
    exact ⟨congrArg (fun text? : Option String => Answer.truth text?.isSome) hanswer, hholds⟩
  | forget key =>
    obtain ⟨hanswer, hholds⟩ := h.remove key
    exact ⟨congrArg Answer.truth hanswer, hholds⟩
  | flush => exact ⟨rfl, .refl _, rfl, List.nodup_nil, h.capacity_pos, Nat.zero_le _⟩
  | size => exact ⟨congrArg Answer.count h.size_eq, h⟩

theorem capacity_run (m : Memory) (steps : List (Timestamp × Operation)) :
    (m.run steps).2.capacity = m.capacity := by
  induction steps generalizing m with
  | nil => rfl
  | cons step steps ih => exact (ih _).trans (capacity_perform m step.1 step.2)

/-- **A run of operations**, by one operation at a time. -/
theorem Holds.run (h : m.Holds q) (steps : List (Timestamp × Operation)) :
    (m.run steps).1 = (q.run m.capacity steps).1 ∧
      (m.run steps).2.Holds (q.run m.capacity steps).2 := by
  induction steps generalizing m q with
  | nil => exact ⟨rfl, h⟩
  | cons step steps ih =>
    obtain ⟨now, operation⟩ := step
    obtain ⟨hanswer, hholds⟩ := h.perform now operation
    obtain ⟨hanswers, hafter⟩ := ih hholds
    rw [capacity_perform] at hanswers hafter
    exact ⟨congrArg₂ List.cons hanswer hanswers, hafter⟩

theorem holds_ofCapacity (capacity : Nat) : (ofCapacity capacity).Holds [] :=
  ⟨.refl _, rfl, List.nodup_nil, le_max_right _ _, Nat.zero_le _⟩

/-- Looking a key up may remove it, and leaves the other keys in their order. -/
theorem order_get_sublist (m : Memory) (now : Timestamp) (key : String) :
    (m.get now key).2.order.Sublist m.order := by
  have hremove : (m.remove key).2.order.Sublist m.order := by
    unfold remove
    split
    · exact List.filter_sublist
    · exact List.Sublist.refl _
  unfold get
  split
  · exact List.Sublist.refl _
  · split
    · exact hremove
    · exact List.Sublist.refl _

/-- **A memory is a bounded queue.** Whatever is done with a memory, at whatever times, it answers
as the queue of its entries does. After each operation the keys of its entries are the keys in its
order, each of them once, there are no more entries than it has room for, and under each key is what
the queue has there. Looking something up does not change the order. -/
theorem answers_eq_queue (capacity : Nat) (steps : List (Timestamp × Operation)) :
    let m := ((ofCapacity capacity).run steps).2
    let q := (Queue.run [] (max capacity 1) steps).2
    ((ofCapacity capacity).run steps).1 = (Queue.run [] (max capacity 1) steps).1 ∧
      (Dict.keys m.entries).Perm m.order ∧ m.order.Nodup ∧ m.size ≤ max capacity 1 ∧
      m.order = q.keys ∧ (∀ key, Dict.find? m.entries key = Dict.find? q key) ∧
      ∀ now key, (m.get now key).2.order.Sublist m.order := by
  intro m q
  obtain ⟨hanswers, hholds⟩ := (holds_ofCapacity capacity).run steps
  have hcapacity : m.capacity = max capacity 1 := capacity_run (ofCapacity capacity) steps
  refine ⟨hanswers, ?_, ?_, ?_, hholds.order_eq, hholds.find?_eq, order_get_sublist m⟩
  · rw [hholds.order_eq]
    exact hholds.entries_perm.map Prod.fst
  · rw [hholds.order_eq]
    exact hholds.nodup
  · rw [hholds.size_eq, ← hcapacity]
    exact hholds.length_le

/-- When the memory is full the oldest entry goes, although it was read in the meantime; an entry
whose time is over makes room when it is looked up. An entry that is stored for longer than any
clock runs is not there, and neither is the one that it replaces. -/
example : (Memory.run (ofCapacity 2) [(.ofSeconds 1, .put "a" "1" none),
    (.ofSeconds 2, .put "b" "2" (some (.ofSeconds 3))), (.ofSeconds 3, .get "a"),
    (.ofSeconds 4, .put "c" "3" none), (.ofSeconds 4, .has "a"), (.ofSeconds 5, .get "b"),
    (.ofSeconds 5, .size), (.ofSeconds 6, .put "c" "4" (some (.ofSeconds (2 ^ 63)))),
    (.ofSeconds 6, .size)]).1 =
    [.stored, .stored, .text (some "1"), .stored, .truth false, .text none, .count 1, .panic,
      .count 0] := by
  decide

end Memory

end Hashmark
