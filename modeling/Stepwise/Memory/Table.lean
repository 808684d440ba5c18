import Std.Data.TreeMap
import Stepwise.Value

/-! Memory: a table of slots, each with an address, and of the allocations that they belong to. A
scalar is one slot, an array a run of slots, a heap node one slot for each field. Addresses are
never used twice: an allocation that ends stays in the table as a dead one, so that a pointer into
it is seen to dangle. -/

namespace Stepwise

inductive Allocation.Kind where
  | scalar
  | array
  /-- A heap node of a struct, one slot for each field. -/
  | node (struct : String) (fields : List CType)
deriving DecidableEq, Repr, Inhabited

/-- A run of slots; `type` is that of the scalar, of each element, or of the whole node. -/
structure Allocation where
  base : Address
  len : Nat
  kind : Allocation.Kind
  type : CType
  live : Bool
deriving DecidableEq, Repr, Inhabited

namespace Allocation

def contains (al : Allocation) (a : Address) : Bool :=
  al.base ≤ a && a.toNat < al.base.toNat + al.len

def slotType (al : Allocation) (a : Address) : CType :=
  match al.kind with
  | .node _ fields => fields[(a - al.base).toNat]?.getD al.type
  | _ => al.type

def struct? (al : Allocation) : Option String :=
  match al.kind with
  | .node struct _ => some struct
  | _ => none

end Allocation

/-- Slots, the allocations they lie in, and where the next allocation of either region starts. The
two counters never turn over; an address is what a counter leaves in 64 bits. -/
structure Memory where
  slots : Std.TreeMap Address Value
  allocations : Std.TreeMap Address Allocation
  nextStack : Nat
  nextHeap : Nat
deriving Inhabited

namespace Memory

/-- Where variables start; address 0 is never one of them. -/
def stackStart : Address := 4

def heapStart : Address := 0x10000000

inductive Fault where
  | null
  /-- Its allocation has ended. -/
  | dangling
  /-- No allocation ever held it. -/
  | unmapped
deriving DecidableEq, Repr

def empty : Memory := ⟨∅, ∅, stackStart.toNat, heapStart.toNat⟩

def fillSlots (slots : Std.TreeMap Address Value) (base : Address) (len : Nat) (v : Value) :
    Std.TreeMap Address Value :=
  len.fold (fun i _ slots => slots.insert (base + UInt64.ofNat i) v) slots

def clearSlots (slots : Std.TreeMap Address Value) (base : Address) (len : Nat) :
    Std.TreeMap Address Value :=
  len.fold (fun i _ slots => slots.erase (base + UInt64.ofNat i)) slots

def enter (m : Memory) (al : Allocation) (v : Value) : Memory :=
  { m with
    slots := fillSlots m.slots al.base al.len v
    allocations := m.allocations.insert al.base al }

/-- Space for a variable. An empty run still takes an address. -/
def allocate (m : Memory) (kind : Allocation.Kind) (type : CType) (len : Nat) (v : Value) :
    Address × Memory :=
  let base := UInt64.ofNat m.nextStack
  (base, { m with nextStack := m.nextStack + max len 1 }.enter
    ⟨base, len, kind, type, true⟩ v)

def allocateNode (m : Memory) (struct : String) (fields : List CType) : Address × Memory :=
  let base := UInt64.ofNat m.nextHeap
  (base, { m with nextHeap := m.nextHeap + max fields.length 1 }.enter
    ⟨base, fields.length, .node struct fields, ⟨.struct struct, 0⟩, true⟩ .undefined)

def allocation? (m : Memory) (base : Address) : Option Allocation := m.allocations[base]?

/-- The allocation that an address lies in, live or dead: only the one with the nearest base at or
below the address can hold it. -/
def containing? (m : Memory) (a : Address) : Option Allocation :=
  match m.allocations.getEntryLE? a with
  | some (_, al) => if al.contains a then some al else none
  | none => none

def liveAt (m : Memory) (a : Address) : Except Fault Allocation :=
  if a = 0 then .error .null
  else match m.containing? a with
    | some al => if al.live then .ok al else .error .dangling
    | none => .error .unmapped

def read (m : Memory) (a : Address) : Except Fault Value :=
  match m.liveAt a with
  | .ok _ => .ok (m.slots.getD a .undefined)
  | .error e => .error e

def write (m : Memory) (a : Address) (v : Value) : Except Fault Memory :=
  match m.liveAt a with
  | .ok _ => .ok { m with slots := m.slots.insert a v }
  | .error e => .error e

def retire (m : Memory) (base : Address) : Memory :=
  match m.allocation? base with
  | some al =>
    { m with
      slots := clearSlots m.slots base al.len
      allocations := m.allocations.insert base { al with live := false } }
  | none => m

def retireAll (m : Memory) (bases : List Address) : Memory := bases.foldl retire m

def allocationsFrom (m : Memory) : Option (Address × Allocation) → Nat → List Allocation
  | some (base, al), count + 1 => al :: m.allocationsFrom (m.allocations.getEntryGT? base) count
  | _, _ => []

def liveNodes (m : Memory) : List Allocation :=
  (m.allocationsFrom (m.allocations.getEntryGE? heapStart) m.allocations.size).filter (·.live)

end Memory

end Stepwise
