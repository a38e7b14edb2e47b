import Jericho.Library.DoublyLinked
import Jericho.Library.Tally
import Jericho.Util.Substrcmp

/-! The leak detector: a sorted list of class names with their counts, linked both ways. -/
namespace Jericho.Util
open StdText Heap Tally

structure TracePair where
  className : Bytes
  count : Int
  prev : Option Nat := none
  next : Option Nat := none

/-- Pointers are addresses of the heap, or null. -/
structure Trace where
  heap : Heap TracePair := Heap.empty
  head : Option Nat := none
  numPairs : Int := 0

namespace Trace

/-- Reading through a null pointer is undefined. -/
def read (t : Trace) (p : Option Nat) : Exec TracePair :=
  match t.heap.read p with
  | some pair => .ok pair
  | none => .error .undefined

def setPrev (t : Trace) (p q : Option Nat) : Exec Trace := do
  let pair ← t.read p
  return { t with heap := t.heap.write p { pair with prev := q } }

def setNext (t : Trace) (p q : Option Nat) : Exec Trace := do
  let pair ← t.read p
  return { t with heap := t.heap.write p { pair with next := q } }

/-- `++` and `--` store in an `int`. -/
def setCount (t : Trace) (p : Option Nat) (count : Int) : Exec Trace := do
  let pair ← t.read p
  if inInt count then return { t with heap := t.heap.write p { pair with count := count } } else .error .undefined

/-- `new TracePair(className, 1)` -/
def create (t : Trace) (className : Bytes) : Option Nat × Trace :=
  (some t.heap.next, { t with heap := t.heap.alloc { className := className, count := 1 } })

/-- "Adding front (left)" -/
def addFront (t : Trace) (className : Bytes) (temp : Option Nat) : Exec Trace := do
  let (pair, t) := t.create className
  let t ← t.setPrev temp pair
  let t ← t.setNext pair temp
  let numPairs ← increment t.numPairs
  return { t with head := pair, numPairs := numPairs }

/-- "Insert merge here" -/
def merge (t : Trace) (className : Bytes) (temp : Option Nat) : Exec Trace := do
  let (pair, t) := t.create className
  let old ← t.read temp
  let t ← t.setNext old.prev pair
  let old ← t.read temp
  let t ← t.setPrev pair old.prev
  let t ← t.setNext pair temp
  let t ← t.setPrev temp pair
  let numPairs ← increment t.numPairs
  return { t with numPairs := numPairs }

/-- "Adding last (right)" -/
def addLast (t : Trace) (className : Bytes) (temp : Option Nat) : Exec Trace := do
  let (pair, t) := t.create className
  let t ← t.setNext temp pair
  let t ← t.setPrev pair temp
  let numPairs ← increment t.numPairs
  return { t with numPairs := numPairs }

/-- The loop of `trace`; it needs a round for each node. The results 2 and 3 end it. -/
def insertLoop (className : Bytes) : Nat → Option Nat → Int → Trace → Exec Trace
  | _, none, _, t => .ok t
  | 0, some _, _, _ => .error .undefined
  | rounds + 1, some a, marked, t => do
    let temp ← t.read (some a)
    let subpair ← substrcmp className temp.className
    if subpair.1 = -1 then
      if temp.prev = none then t.addFront className (some a)
      else if marked = -1 then t.merge className (some a)
      else insertLoop className rounds temp.next 1 t
    else if subpair.1 = 0 then t.setCount (some a) (temp.count + 1)
    else if subpair.1 = 1 then
      if temp.next = none then t.addLast className (some a)
      else if marked = 1 then t.merge className (some a)
      else insertLoop className rounds temp.next (-1) t
    else if subpair.1 = 2 ∨ subpair.1 = 3 then .ok t
    else insertLoop className rounds temp.next marked t

/-- `className.at(0)` throws for an empty name. A list has no more nodes than were allocated. -/
def trace (t : Trace) (className : Bytes) : Exec Trace :=
  if className = [] then .error .outOfRange
  else
    match t.head with
    | none =>
      let (pair, t) := t.create className
      (increment t.numPairs).map fun numPairs => { t with head := pair, numPairs := numPairs }
    | some a => insertLoop className t.heap.next (some a) 0 t

def cleanLoop (name : Bytes) : Nat → Option Nat → Trace → Exec Trace
  | _, none, t => .ok t
  | 0, some _, _ => .error .undefined
  | rounds + 1, some a, t => do
    let temp ← t.read (some a)
    let t ← if temp.className = name then t.setCount (some a) (temp.count - 1) else pure t
    let temp ← t.read (some a)
    cleanLoop name rounds temp.next t

def clean (t : Trace) (name : Bytes) : Exec Trace := cleanLoop name t.heap.next t.head t

def scanLoop (t : Trace) : Nat → Option Nat → Bool → Exec Bool
  | _, none, allClear => .ok allClear
  | 0, some _, _ => .error .undefined
  | rounds + 1, some a, allClear => do
    let temp ← t.read (some a)
    scanLoop t rounds temp.next (if temp.count ≠ 0 then false else allClear)

/-- `scan`, which reports "No leaks detected!" if this is true. -/
def scan (t : Trace) : Exec Bool := scanLoop t t.heap.next t.head true

end Trace
end Jericho.Util
