import Gem5.Lib.Run
import Mathlib.Data.Prod.Lex

open Lib Function

namespace Gem5

/-- Simulated time. -/
abbrev Tick : Type := Nat

/-- An event queue and the events of the program, of which there are `n`. A pointer
to an event is its number, and the fields of the events are kept by number. -/
structure EventQueue (n : Nat) where
  head : Option (Fin n)
  when : Fin n → Tick
  priority : Fin n → Int
  nextBin : Fin n → Option (Fin n)
  nextInBin : Fin n → Option (Fin n)
  scheduled : Fin n → Bool

namespace EventQueue

variable {n : Nat}

/-- The empty queue, when the events have been constructed. -/
def construct (priority : Fin n → Int) : EventQueue n where
  head := none
  when _ := 0
  priority := priority
  nextBin _ := none
  nextInBin _ := none
  scheduled _ := false

variable (q : EventQueue n)

/-- `operator<` of events. -/
def lt (l r : Fin n) : Bool :=
  q.when l < q.when r || (q.when l == q.when r && q.priority l < q.priority r)

/-- `operator<=` of events. -/
def le (l r : Fin n) : Bool :=
  q.when l < q.when r || (q.when l == q.when r && q.priority l ≤ q.priority r)

/-- `operator==` of events. -/
def eq (l r : Fin n) : Bool :=
  q.when l == q.when r && q.priority l == q.priority r

/-- `Event::insertBefore`, which returns the event itself. -/
def insertBefore (event : Fin n) : Option (Fin n) → EventQueue n
  | none => { q with
      nextBin := update q.nextBin event none
      nextInBin := update q.nextInBin event none }
  | some curr =>
    if q.lt event curr then
      -- Insert the event before the current list since it is in the future.
      { q with
        nextBin := update q.nextBin event (some curr)
        nextInBin := update q.nextInBin event none }
    else
      -- `curr->nextBin` can now become stale.
      { q with
        nextBin := update q.nextBin event (q.nextBin curr)
        nextInBin := update q.nextInBin event (some curr) }

/-- The loop of `insert` and of `remove` over the bins, `while (curr && *curr <
*event)`. The fuel stands for the number of rounds. -/
def findBin (q : EventQueue n) (event : Fin n) : Nat → Fin n → Option (Fin n) → Result (Fin n × Option (Fin n))
  | _, prev, none => .ok (prev, none)
  | 0, _, some _ => .error .dangling
  | fuel + 1, prev, some curr =>
    if q.lt curr event then q.findBin event fuel curr (q.nextBin curr) else .ok (prev, some curr)

def insert (event : Fin n) : Result (EventQueue n) :=
  match q.head with
  | none => .ok { q.insertBefore event none with head := some event }
  | some head =>
    if q.le event head then .ok { q.insertBefore event (some head) with head := some event }
    else do
      let (prev, curr) ← q.findBin event n head (q.nextBin head)
      let q := q.insertBefore event curr
      .ok { q with nextBin := update q.nextBin prev (some event) }

/-- The loop of `removeItem`, `while (event != next)`. It panics at the end of the
bin. -/
def findInBin (q : EventQueue n) (event : Fin n) : Nat → Fin n → Option (Fin n) → Result (Fin n)
  | _, _, none => .error .assertion
  | 0, curr, some next => if event = next then .ok curr else .error .dangling
  | fuel + 1, curr, some next =>
    if event = next then .ok curr else q.findInBin event fuel next (q.nextInBin next)

/-- `Event::removeItem`. -/
def removeItem (event top : Fin n) : Result (Option (Fin n) × EventQueue n) :=
  if event = top then
    match q.nextInBin top with
    | none => .ok (q.nextBin top, q)
    | some next => .ok (some next, { q with nextBin := update q.nextBin next (q.nextBin top) })
  else do
    let curr ← q.findInBin event n top (q.nextInBin top)
    .ok (some top, { q with nextInBin := update q.nextInBin curr (q.nextInBin event) })

/-- `remove`, which panics where it does not find the event. -/
def remove (event : Fin n) : Result (EventQueue n) :=
  match q.head with
  | none => .error .assertion
  | some head =>
    if q.eq head event then do
      let (top, q) ← q.removeItem event head
      .ok { q with head := top }
    else do
      let (prev, curr) ← q.findBin event n head (q.nextBin head)
      match curr with
      | none => .error .assertion
      | some curr =>
        if !q.eq curr event then .error .assertion
        else do
          let (top, q) ← q.removeItem event curr
          .ok { q with nextBin := update q.nextBin prev top }

/-- What `serviceOne` does before it processes the event. -/
def serviceOne : Result (Fin n × EventQueue n) :=
  match q.head with
  | none => .error .dangling
  | some event =>
    let q := { q with scheduled := update q.scheduled event false }
    match q.nextInBin event with
    | some next => .ok (event, { q with
        -- Update the next bin pointer since it could be stale.
        nextBin := update q.nextBin next (q.nextBin event)
        head := some next })
    | none => .ok (event, { q with head := q.nextBin event })

/-- What happens to the queue: an event is inserted at a time, is removed, or is
serviced. -/
inductive Op (n : Nat) where
  | insert (event : Fin n) (when : Tick)
  | remove (event : Fin n)
  | serviceOne

/-- The queue, which answers with the event that it services. The flag of the event
is checked and changed as `schedule` and `deschedule` do. -/
def machine (n : Nat) : Machine (EventQueue n) (Op n) (Option (Fin n)) where
  step
    | q, .insert event when => do
      Result.require (!q.scheduled event)
      let q ← { q with when := update q.when event when }.insert event
      .ok (none, { q with scheduled := update q.scheduled event true })
    | q, .remove event => do
      Result.require (q.scheduled event)
      let q ← q.remove event
      .ok (none, { q with scheduled := update q.scheduled event false })
    | q, .serviceOne => do
      let (event, q) ← q.serviceOne
      .ok (some event, q)

/-- What an event is ordered by. -/
def key (event : Fin n) : Tick ×ₗ Int := toLex (q.when event, q.priority event)

variable {q} {l r : Fin n}

theorem lt_iff : q.lt l r = true ↔ q.key l < q.key r := by
  simp [lt, key, Prod.Lex.toLex_lt_toLex]

theorem le_iff : q.le l r = true ↔ q.key l ≤ q.key r := by
  simp [le, key, Prod.Lex.toLex_le_toLex]

theorem eq_iff : q.eq l r = true ↔ q.key l = q.key r := by
  simp [eq, key]

end EventQueue

end Gem5
