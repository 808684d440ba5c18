import Stepwise.Json.Decode
import Stepwise.Json.Reader
import Stepwise.Json.Writer
import Stepwise.Trace.Status

/-! Traces as JSON. Fields are written in a fixed order and read in any; a trace that was written
reads back as itself unless it holds a floating value that is infinite or no number. -/

namespace Stepwise

open Json (required optional)

/-! Values: an object with the name of the shape and, for a defined value, the value itself. -/

def Value.toJson : Value → Json
  | .int n => .ofFields [("kind", .ofString "Int"), ("value", .ofInt n.toInt)]
  | .float x => .ofFields [("kind", .ofString "Float"), ("value", .ofFloat x)]
  | .char c => .ofFields [("kind", .ofString "Char"), ("value", .ofInt c.toInt)]
  | .address a => .ofFields [("kind", .ofString "Address"), ("value", .ofNat a.toNat)]
  | .undefined => .ofFields [("kind", .ofString "Undefined")]

def Value.contents : List (String × (Option Json → Option Value)) :=
  [("Int", required fun j => (j.int? 2147483648).map fun n => .int (.ofInt n)),
    ("Float", required fun j => j.float?.map .float),
    ("Char", required fun j => (j.int? 128).map fun n => .char (.ofInt n)),
    ("Address", required fun j => j.nat?.map fun n => .address (.ofNat n)),
    ("Undefined", fun
      | none | some .null => some .undefined
      | _ => none)]

def Value.ofJson? : Json → Option Value
  | .obj fields => do
    let fields ← Json.plainFields? fields
    let kind ← Json.uniqueField? fields "kind"
    let content ← Json.uniqueField? fields "value"
    let read ← required (Json.name? contents) kind
    read content
  | .arr [kind, content] => do
    let read ← Json.plainName? contents kind
    read (some content)
  | _ => none

/-! Views -/

def Scope.name : Scope → String
  | .global => "global"
  | .local => "local"

def Scope.ofJson? : Json → Option Scope :=
  Json.name? ([Scope.global, Scope.local].map fun s => (s.name, s))

def addressOfJson? (j : Json) : Option Address := j.nat?.map UInt64.ofNat

def Json.ofAddress (a : Address) : Json := .ofNat a.toNat

def KeyMap.toJson {κ α : Type} [Ord κ] (m : KeyMap κ α) (key : κ → List Char) (f : α → Json) :
    Json :=
  .obj (m.entries.map fun e => (key e.1, f e.2))

def Json.stringKey (s : String) : List Char := Json.escape s.toList

def VariableView.toJson (v : VariableView) : Json :=
  .ofFields [("type", .ofString v.type), ("value", v.value.toJson),
    ("address", .ofAddress v.address), ("scope", .ofString v.scope.name)]

def VariableView.ofJson? (j : Json) : Option VariableView := do
  let [type, value, address, scope] ← j.record? ["type", "value", "address", "scope"] 4 | none
  return ⟨← required Json.string? type, ← required Value.ofJson? value,
    ← required addressOfJson? address, ← required Scope.ofJson? scope⟩

def ElementView.toJson (e : ElementView) : Json :=
  .ofFields [("index", .ofNat e.index), ("value", e.value.toJson),
    ("address", .ofAddress e.address)]

def ElementView.ofJson? (j : Json) : Option ElementView := do
  let [index, value, address] ← j.record? ["index", "value", "address"] 3 | none
  return ⟨← required Json.nat? index, ← required Value.ofJson? value,
    ← required addressOfJson? address⟩

def ArrayView.toJson (a : ArrayView) : Json :=
  .ofFields [("elem_type", .ofString a.elemType), ("address", .ofAddress a.address),
    ("scope", .ofString a.scope.name), ("elements", .arr (a.elements.map ElementView.toJson))]

def ArrayView.ofJson? (j : Json) : Option ArrayView := do
  let [elemType, address, scope, elements] ←
    j.record? ["elem_type", "address", "scope", "elements"] 4 | none
  return ⟨← required Json.string? elemType, ← required addressOfJson? address,
    ← required Scope.ofJson? scope, ← required (Json.list? ElementView.ofJson?) elements⟩

def PointerView.toJson (p : PointerView) : Json :=
  .ofFields [("type", .ofString p.type), ("address", .ofAddress p.address),
    ("target", .ofAddress p.target), ("preview", (p.preview.map Json.ofString).getD .null)]

def PointerView.ofJson? (j : Json) : Option PointerView := do
  let [type, address, target, preview] ← j.record? ["type", "address", "target", "preview"] 4
    | none
  return ⟨← required Json.string? type, ← required addressOfJson? address,
    ← required addressOfJson? target, ← optional Json.string? preview⟩

def FieldView.toJson (f : FieldView) : Json :=
  .ofFields [("name", .ofString f.name), ("type", .ofString f.type), ("value", f.value.toJson)]

def FieldView.ofJson? (j : Json) : Option FieldView := do
  let [name, type, value] ← j.record? ["name", "type", "value"] 3 | none
  return ⟨← required Json.string? name, ← required Json.string? type,
    ← required Value.ofJson? value⟩

def NodeView.toJson (n : NodeView) : Json :=
  .ofFields [("struct_name", .ofString n.struct), ("fields", .arr (n.fields.map FieldView.toJson)),
    ("links", n.links.toJson Json.stringKey Json.ofAddress)]

def NodeView.ofJson? (j : Json) : Option NodeView := do
  let [struct, fields, links] ← j.record? ["struct_name", "fields", "links"] 3 | none
  return ⟨← required Json.string? struct, ← required (Json.list? FieldView.ofJson?) fields,
    ← required (Json.map? Json.stringKey? addressOfJson?) links⟩

def Call.toJson (c : Call) : Json :=
  .ofFields [("function", .ofString c.function), ("call_line", .ofNat c.callLine),
    ("entry_line", .ofNat c.entryLine)]

def Call.ofJson? (j : Json) : Option Call := do
  let [function, callLine, entryLine] ← j.record? ["function", "call_line", "entry_line"] 3 | none
  return ⟨← required Json.string? function, ← required Json.nat? callLine,
    ← required Json.nat? entryLine⟩

/-! Steps -/

/-- The key of a heap node: its address, which has to be spelled with digits alone. -/
def addressKey? (raw : List Char) : Option Address :=
  ((Json.num raw).nat?.filter fun _ => raw.head? ≠ some '0' || raw.length = 1).map UInt64.ofNat

/-- The fields of a step; the last is left out of a step that hands no value back. -/
def Step.fieldNames : List String :=
  ["ordinal", "line", "code", "description", "variables", "arrays", "pointers", "heap_nodes",
    "console", "call_stack", "return_value"]

def Step.toJson (s : Step) : Json :=
  let returned := match s.returnValue with
    | some v => [("return_value", v.toJson)]
    | none => []
  .ofFields ([("ordinal", .ofNat s.ordinal), ("line", .ofNat s.line), ("code", .ofString s.code),
    ("description", .ofString s.description),
    ("variables", s.scalars.toJson Json.stringKey VariableView.toJson),
    ("arrays", s.arrays.toJson Json.stringKey ArrayView.toJson),
    ("pointers", s.pointers.toJson Json.stringKey PointerView.toJson),
    ("heap_nodes", s.heapNodes.toJson (fun a => Nat.toDigits 10 a.toNat) NodeView.toJson),
    ("console", .ofString s.console), ("call_stack", .arr (s.callStack.map Call.toJson))] ++
    returned)

def Step.ofJson? (j : Json) : Option Step := do
  let [ordinal, line, code, description, scalars, arrays, pointers, heapNodes, console, callStack,
    returnValue] ← j.record? fieldNames 10 | none
  return ⟨← required Json.nat? ordinal, ← required Json.nat? line, ← required Json.string? code,
    ← required Json.string? description,
    ← required (Json.map? Json.stringKey? VariableView.ofJson?) scalars,
    ← required (Json.map? Json.stringKey? ArrayView.ofJson?) arrays,
    ← required (Json.map? Json.stringKey? PointerView.ofJson?) pointers,
    ← required (Json.map? addressKey? NodeView.ofJson?) heapNodes,
    ← required Json.string? console, ← required (Json.list? Call.ofJson?) callStack,
    ← optional Value.ofJson? returnValue⟩

/-! How a run ended: an object with the name of the status among its fields. -/

def Status.toJson : Status → Json
  | .completed => .ofFields [("status", .ofString "Completed")]
  | .parseError line column message =>
    .ofFields [("status", .ofString "ParseError"), ("line", .ofNat line),
      ("column", .ofNat column), ("message", .ofString message)]
  | .runtimeError kind message stepIndex line column =>
    .ofFields [("status", .ofString "RuntimeError"), ("kind", .ofString kind.name),
      ("message", .ofString message), ("step_index", .ofNat stepIndex),
      ("line", (line.map Json.ofNat).getD .null), ("column", (column.map Json.ofNat).getD .null)]
  | .limitExceeded kind message =>
    .ofFields [("status", .ofString "LimitExceeded"), ("kind", .ofString kind.name),
      ("message", .ofString message)]

def Fault.Kind.ofJson? : Json → Option Fault.Kind :=
  Json.looseName? (all.map fun k => (k.name, k))

def Excess.Kind.ofJson? : Json → Option Excess.Kind :=
  Json.looseName? (all.map fun k => (k.name, k))

def Status.ofFields? (name : String) (fields : List String → Option (List (Option Json))) :
    Option Status :=
  match name with
  | "Completed" => do
    let _ ← fields []
    return .completed
  | "ParseError" => do
    let [line, column, message] ← fields ["line", "column", "message"] | none
    return .parseError (← required Json.nat? line) (← required Json.nat? column)
      (← required Json.string? message)
  | "RuntimeError" => do
    let [kind, message, stepIndex, line, column] ←
      fields ["kind", "message", "step_index", "line", "column"] | none
    return .runtimeError (← required Fault.Kind.ofJson? kind) (← required Json.string? message)
      (← required Json.nat? stepIndex) (← optional Json.nat? line) (← optional Json.nat? column)
  | "LimitExceeded" => do
    let [kind, message] ← fields ["kind", "message"] | none
    return .limitExceeded (← required Excess.Kind.ofJson? kind) (← required Json.string? message)
  | _ => none

/-- How deep arrays and objects may nest inside a status: 127 levels in all, two of which are the
status and the trace around it. -/
def Status.nesting : Nat := 125

def Status.ofJson? : Json → Option Status
  | .obj fields => do
    let fields ← Json.plainFields? fields
    let name ← required Json.string? (← Json.uniqueField? fields "status")
    let rest := fields.filter (·.1 != "status")
    if rest.all (·.2.isPlain nesting) then
      ofFields? name fun names => Json.namedFields? names rest
    else none
  | .arr (name :: items) => do
    let name ← name.string?
    if items.all (·.isPlain nesting) then
      ofFields? name fun names => (Json.arr items).record? names names.length
    else none
  | _ => none

/-! Whole traces -/

namespace Trace

def toJson (t : Trace) : Json :=
  .ofFields [("steps", .arr (t.steps.map Step.toJson)), ("status", t.status.toJson)]

def ofJson? (j : Json) : Option Trace := do
  let [steps, status] ← j.record? ["steps", "status"] 2 | none
  return ⟨← required (Json.list? Step.ofJson?) steps, ← required Status.ofJson? status⟩

def text (t : Trace) : String := t.toJson.compact

def prettyText (t : Trace) : String := t.toJson.pretty

def ofText? (text : String) : Option Trace := (Json.ofText? text).bind ofJson?

end Trace

end Stepwise
