import Stepwise.Arithmetic
import Stepwise.Run.Typing

/-! Places: slots of memory as expressions name them. Everything that is read or stored goes through
a place, and what can be wrong with an address is found when the place is formed. -/

namespace Stepwise

/-- A slot and the type it stores, or a whole array, which is worth its address. -/
structure Place where
  address : Address
  type : CType
  arrayLen : Option Nat
deriving DecidableEq, Repr

def Memory.Fault.cause (a : Address) : Memory.Fault → Fault.Cause
  | null => .nullDereference
  | dangling => .dangling a
  | unmapped => .invalidAddress a

/-- Only a defined value can be used; a call of a function without a result has none. -/
def requireDefined (v : Value) (e : Expr) : Run Value :=
  if v.isDefined then pure v
  else Run.fail (.typeMismatch "a value" ("void (" ++ e.render ++ ")")) e.pos

def convertTo (t : CType) (v : Value) (pos : Position) : Run Value :=
  match v.convert t with
  | some stored => pure stored
  | none => Run.fail (.typeMismatch t.text v.shape) pos

def requirePointer (v : Value) (pos : Position) : Run Address :=
  match v with
  | .address a => pure a
  | v => Run.fail (.typeMismatch "pointer" v.shape) pos

def liveAllocation (a : Address) (pos : Position) : Run Allocation := do
  let env ← Run.environment
  match env.memory.liveAt a with
  | .ok al => return al
  | .error fault => Run.fail (fault.cause a) pos

def storeSlot (a : Address) (v : Value) (pos : Position) : Run Unit := do
  let env ← Run.environment
  match env.memory.write a v with
  | .ok memory => Run.changeEnvironment fun env => { env with memory }
  | .error fault => Run.fail (fault.cause a) pos

namespace Place

def slot (address : Address) (type : CType) : Place := ⟨address, type, none⟩

def ofName (name : String) (pos : Position) : Run Place := do
  let env ← Run.environment
  let al ← Run.ofFault (env.variable name pos)
  return ⟨al.base, al.type, al.arrayLen⟩

structure Elements where
  start : Address
  type : CType
  available : Nat
deriving DecidableEq, Repr

/-- The elements that a pointer reaches: the rest of its allocation, unless that is a node. -/
def elementsBehind (v : Value) (pos : Position) : Run Elements := do
  let start ← requirePointer v pos
  let al ← liveAllocation start pos
  match al.kind with
  | .node .. => Run.fail (.typeMismatch "array or pointer to element" al.type.text) pos
  | _ => return ⟨start, al.slotType start, al.base.toNat + al.len - start.toNat⟩

/-- The elements that can be indexed in `array`, whose value is `value` when it is no array. -/
def elements (array : Expr) (value : Run Value) (pos : Position) : Run Elements :=
  let behind := do elementsBehind (← value) pos
  match array with
  | .var name namePos => do
    let place ← ofName name namePos
    match place.arrayLen with
    | some len => return ⟨place.address, place.type, len⟩
    | none => behind
  | _ => behind

def element (es : Elements) (index : Value) (pos : Position) : Run Place :=
  match index.toInt? with
  | none => Run.fail (.typeMismatch "integer index" index.shape) pos
  | some i =>
    if i.toInt < 0 ∨ es.available ≤ i.toInt.toNat then
      Run.fail (.outOfBounds i.toInt es.available) pos
    else pure (slot (es.start + UInt64.ofNat i.toInt.toNat) es.type)

/-- What a pointer points at: a whole node when it points at the start of one. -/
def behind (v : Value) (pos : Position) : Run Place := do
  let target ← requirePointer v pos
  let al ← liveAllocation target pos
  let type := match al.kind with
    | .node .. => if al.base = target then al.type else al.slotType target
    | _ => al.slotType target
  return slot target type

def requireStruct (place : Place) (pos : Position) : Run Address :=
  if place.type.isStruct then pure place.address
  else Run.fail (.typeMismatch "struct" place.type.text) pos

def field (s : Setting) (base : Address) (name : String) (pos : Position) : Run Place := do
  let al ← liveAllocation base pos
  let noStruct := Run.fail (.typeMismatch "pointer to struct" al.type.text) pos
  match al.kind with
  | .node struct _ =>
    if al.base = base then
      match s.structs.find? struct with
      | none => Run.fail (.internal (.typeMismatch "defined struct" struct)) pos
      | some d =>
        match d.fieldIndex? name with
        | none => Run.fail (.missingField struct name) pos
        | some i =>
          return slot (base + UInt64.ofNat i) ((d.fields[i]?.map (·.type)).getD al.type)
    else noStruct
  | _ => noStruct

def read (place : Place) (e : Expr) : Run Value :=
  match place.arrayLen with
  | some _ => pure (.address place.address)
  | none => do
    let env ← Run.environment
    match env.memory.read place.address with
    | .error fault => Run.fail (fault.cause place.address) e.pos
    | .ok v =>
      if v.isDefined then return v else Run.fail (.uninitialized e.render) e.pos

/-- The value at the place that `e` names, when it is used as one: a whole struct is none. -/
def readScalar (place : Place) (e : Expr) : Run Value :=
  if place.arrayLen.isNone ∧ place.type.isStruct then
    Run.fail (.typeMismatch "scalar value" place.type.text) e.pos
  else place.read e

def write (place : Place) (v : Value) (pos : Position) : Run Value :=
  match place.arrayLen with
  | some _ => Run.fail (.typeMismatch "assignable location" ("array of " ++ place.type.text)) pos
  | none => do
    let stored ← convertTo place.type v pos
    storeSlot place.address stored pos
    return stored

end Place

end Stepwise
