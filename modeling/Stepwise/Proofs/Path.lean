import Stepwise.Proofs.Layout
import Stepwise.Proofs.Record
import Stepwise.Proofs.Scoping

/-! All that a run does to its state, as steps of a relation. A `Change` is one act on memory, frames and
names with what the program makes sure of before it; an `Act` is a change, a print, a reading of input
or a recorded step. What every act keeps, every run keeps. -/

namespace Stepwise

/-- Values of the shape that a type stores, and the undefined one. -/
def Value.Fits : Value → CType → Prop
  | undefined, _ => True
  | address _, t => t.isPointer
  | int _, t => t = ⟨.int, 0⟩
  | char _, t => t = ⟨.char, 0⟩
  | float _, t => t = ⟨.float, 0⟩ ∨ t = ⟨.double, 0⟩

instance : (v : Value) → (t : CType) → Decidable (v.Fits t)
  | .undefined, _ => .isTrue trivial
  | .address _, t => inferInstanceAs (Decidable (t.isPointer = true))
  | .int _, t => inferInstanceAs (Decidable (t = ⟨.int, 0⟩))
  | .char _, t => inferInstanceAs (Decidable (t = ⟨.char, 0⟩))
  | .float _, t => inferInstanceAs (Decidable (t = ⟨.float, 0⟩ ∨ t = ⟨.double, 0⟩))

def Decl.name : Decl → String
  | scalar name .. | array name .. => name

/-- A variable as its declaration makes it: an array is filled first, then its first values are
stored. -/
structure Variable where
  name : String
  kind : Allocation.Kind
  type : CType
  len : Nat
  fill : Value
  values : List Value

namespace Variable

structure Proper (x : Variable) : Prop where
  kind : x.kind = .scalar ∧ x.len = 1 ∨ x.kind = .array ∧ 0 < x.len
  room : x.values.length ≤ x.len
  fill : x.fill.Fits x.type
  values : ∀ v ∈ x.values, v.isDefined ∧ v.Fits x.type

def allocation (x : Variable) (base : Address) : Allocation := ⟨base, x.len, x.kind, x.type, true⟩

def Filled (x : Variable) : Prop := x.fill.isDefined

def Of (x : Variable) : Decl → Prop
  | .scalar name type _ _ => x.name = name ∧ x.kind = .scalar ∧ x.type = type ∧ x.len = 1
  | .array name elem size _ _ => x.name = name ∧ x.kind = .array ∧ x.type = elem ∧ x.len = size

theorem Of.name {x : Variable} {d : Decl} (h : x.Of d) : x.name = d.name := by
  cases d with
  | scalar => exact h.1
  | array => exact h.1

end Variable

def Memory.make (m : Memory) (x : Variable) : Memory :=
  let room := m.allocate x.kind x.type x.len x.fill
  { room.2 with slots := storeValues room.2.slots room.1 x.values }

inductive Memory.Change (structs : Structs) (m : Memory) : Memory → Prop where
  | keep : Change structs m m
  /-- Only defined values are stored, in the shape that the slot has. -/
  | store {a : Address} {v : Value} {m' : Memory} (written : m.write a v = .ok m')
      (defined : v.isDefined)
      (fits : m.InBounds → ∀ al, m.liveAt a = .ok al → v.Fits (al.slotType a)) : Change structs m m'
  | newNode {struct : String} {d : StructDef} (known : structs.find? struct = some d) :
      Change structs m (m.allocateNode struct (d.fields.map (·.type))).2
  | make {x : Variable} (proper : x.Proper) : Change structs m (m.make x)
  | retire (bases : List Address) : Change structs m (m.retireAll bases)

namespace Environment

def make (env : Environment) (x : Variable) : Environment :=
  { env with memory := env.memory.make x }.declare x.name (UInt64.ofNat env.memory.nextStack)

/-- How many blocks are open in each frame. -/
def shape (env : Environment) : List Nat := env.frames.map (·.blocks.length)

end Environment

/-- One act on the state. A declaration outside of functions is named. -/
inductive Change (s : Setting) : Option Decl → Environment → Environment → Prop where
  | store {env : Environment} {a : Address} {v : Value} {memory : Memory}
      (written : env.memory.write a v = .ok memory) (defined : v.isDefined)
      (fits : env.memory.InBounds → ∀ al, env.memory.liveAt a = .ok al → v.Fits (al.slotType a)) :
      Change s none env { env with memory }
  | newNode {env : Environment} {struct : String} {d : StructDef}
      (known : s.structs.find? struct = some d) :
      Change s none env
        { env with memory := (env.memory.allocateNode struct (d.fields.map (·.type))).2 }
  | freeNode {env : Environment} {a : Address} {al : Allocation}
      (found : env.memory.allocation? a = some al) (node : al.struct? ≠ none) (live : al.live) :
      Change s none env { env with memory := env.memory.retire a }
  /-- Inside of functions there is always a block to declare in. -/
  | declare {env : Environment} {x : Variable} {k : Nat} {rest : List Nat} (proper : x.Proper)
      (inBlock : env.shape = (k + 1) :: rest) : Change s none env (env.make x)
  | declareGlobal {env : Environment} {x : Variable} {d : Decl} (proper : x.Proper)
      (filled : x.Filled) (made : x.Of d) (outside : env.shape = []) :
      Change s (some d) env (env.make x)
  | openBlock {env : Environment} : Change s none env env.openBlock
  | closeBlock {env : Environment} {k : Nat} {rest : List Nat}
      (inner : env.shape = (k + 2) :: rest) : Change s none env env.closeBlock
  | pushFrame {env : Environment} (call : Call) : Change s none env (env.pushFrame (.enter call))
  | popFrame {env : Environment} : Change s none env env.popFrame

theorem Environment.memory_declare (env : Environment) (name : String) (a : Address) :
    (env.declare name a).memory = env.memory := by
  unfold declare
  split <;> rfl

theorem Environment.memory_onFrame (env : Environment) (f : Frame → Frame) :
    (env.onFrame f).memory = env.memory := by
  unfold onFrame
  split <;> rfl

/-- What a change does to memory. -/
theorem Change.memory {s : Setting} {d : Option Decl} {env env' : Environment}
    (h : Change s d env env') : Memory.Change s.structs env.memory env'.memory := by
  cases h with
  | store written defined fits => exact .store written defined fits
  | newNode known => exact .newNode known
  | freeNode found node live => exact .retire [_]
  | declare proper inBlock =>
    rw [Environment.make, Environment.memory_declare]
    exact .make proper
  | declareGlobal proper filled made outside =>
    rw [Environment.make, Environment.memory_declare]
    exact .make proper
  | openBlock =>
    rw [Environment.openBlock, Environment.memory_onFrame]
    exact .keep
  | closeBlock inner =>
    unfold Environment.closeBlock
    split
    · exact .keep
    · exact .retire _
  | pushFrame call => exact .keep
  | popFrame =>
    unfold Environment.popFrame
    split
    · exact .keep
    · exact .retire _

inductive Act (s : Setting) : Option Decl → Machine → Machine → Prop where
  | change {m : Machine} {d : Option Decl} {env : Environment} (h : Change s d m.env env) :
      Act s d m { m with env }
  | print {m : Machine} (text : String) :
      Act s none m { m with console := m.console.print text }
  | input {m : Machine} (input : List Char) : Act s none m { m with input }
  | record {m : Machine} (line : Nat) (description : String) (returned : Option Value) :
      Act s none m (m.recorded s (m.moment line description returned))

/-- Acts one after another, with the declarations outside of functions that are among them. -/
inductive Path (s : Setting) (m : Machine) : List Decl → Machine → Prop where
  | refl : Path s m [] m
  | step {ds : List Decl} {m₁ m₂ : Machine} {d : Option Decl} (before : Path s m ds m₁)
      (act : Act s d m₁ m₂) : Path s m (ds ++ d.toList) m₂

end Stepwise
