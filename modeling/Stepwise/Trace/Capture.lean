import Stepwise.Program.Render
import Stepwise.Program.Structs
import Stepwise.Trace.Step

/-! Taking a picture of a program state. -/

namespace Stepwise.Environment

/-- The value at an address; one that cannot be read counts as undefined. -/
def valueAt (env : Environment) (a : Address) : Value :=
  match env.memory.read a with
  | .ok v => v
  | .error _ => .undefined

/-- The names that can be seen, with their addresses: local ones hide global ones. -/
def visible (env : Environment) : KeyMap String (Address × Scope) :=
  (env.globals.filterMap fun _ a => some (a, .global)).union
    (env.locals.filterMap fun _ a => some (a, .local))

def arrayView (env : Environment) (al : Allocation) (scope : Scope) : ArrayView where
  elemType := al.type.text
  address := al.base
  scope := scope
  elements := (List.range al.len).map fun i =>
    let address := al.base + UInt64.ofNat i
    ⟨i, env.valueAt address, address⟩

def arrays (env : Environment) : KeyMap String ArrayView :=
  env.visible.filterMap fun _ (a, scope) =>
    match env.memory.allocation? a with
    | some al => if al.kind = .array then some (env.arrayView al scope) else none
    | none => none

def scalars (env : Environment) : KeyMap String VariableView :=
  env.visible.filterMap fun _ (a, scope) =>
    match env.memory.allocation? a with
    | some al =>
      if al.kind = .scalar then some ⟨al.type.text, env.valueAt a, a, scope⟩ else none
    | none => none

/-- The text of what a pointer points at: a whole node when it points at the start of one. -/
def preview (env : Environment) (structs : Structs) (target : Address) : Option String :=
  match env.memory.liveAt target with
  | .error _ => none
  | .ok al =>
    match al.kind with
    | .node struct _ =>
      if target = al.base then
        (structs.find? struct).map fun d =>
          let fields := d.fields.mapIdx fun i f =>
            f.name ++ ": " ++ (env.valueAt (al.base + UInt64.ofNat i)).text
          "struct " ++ struct ++ " \x7b " ++ commaSeparated fields ++ " \x7d"
      else some (env.valueAt target).text
    | _ => some (env.valueAt target).text

def pointers (env : Environment) (structs : Structs) : KeyMap String PointerView :=
  env.visible.filterMap fun _ (a, _) =>
    match env.memory.allocation? a with
    | some al =>
      if al.kind = .scalar ∧ al.type.isPointer then
        let target := (env.valueAt a).toAddress?.getD 0
        some ⟨al.type.text, a, target, env.preview structs target⟩
      else none
    | none => none

def nodeFields (env : Environment) (structs : Structs) (al : Allocation) :
    List (Member × Value) :=
  let names : List String := match al.struct?.bind fun name => structs.find? name with
    | some d => (d.fields.map (·.name)).take al.len
    | none => []
  names.mapIdx fun i name =>
    let address := al.base + UInt64.ofNat i
    (⟨name, al.slotType address⟩, env.valueAt address)

def link? (f : Member × Value) : Option (String × Address) :=
  match f.2 with
  | .address target => if f.1.type.isPointer ∧ target ≠ 0 then some (f.1.name, target) else none
  | _ => none

def nodeView (env : Environment) (structs : Structs) (al : Allocation) : NodeView :=
  let fields := env.nodeFields structs al
  { struct := al.struct?.getD ""
    fields := fields.map fun f => ⟨f.1.name, f.1.type.text, f.2⟩
    links := .ofList (fields.filterMap link?) }

def heapNodes (env : Environment) (structs : Structs) : KeyMap Address NodeView :=
  env.memory.liveNodes.foldr (fun al nodes => nodes.insert al.base (env.nodeView structs al)) .empty

def callStack (env : Environment) : List Call := (env.frames.map (·.call)).reverse

def capture (env : Environment) (structs : Structs) (ordinal line : Nat) (code description : String)
    (console : String) (returnValue : Option Value) : Step where
  ordinal := ordinal
  line := line
  code := code
  description := description
  scalars := env.scalars
  arrays := env.arrays
  pointers := env.pointers structs
  heapNodes := env.heapNodes structs
  console := console
  callStack := env.callStack
  returnValue := returnValue

end Stepwise.Environment
