import Stepwise.KeyMap
import Stepwise.Value

/-! Frames of the call stack. A frame maps the names that are visible in it to addresses; each open
block keeps what it has to undo when it closes: the names that it was first to bind, and the
addresses that it hid from the blocks around it. -/

namespace Stepwise

abbrev Bindings := KeyMap String Address

structure Block where
  /-- Names that were not bound before, first to last. -/
  declared : List String
  /-- Names that were bound further out, with their addresses there. -/
  shadowed : List (String × Address)
  /-- Addresses declared in the block, first to last. -/
  allocations : List Address
deriving DecidableEq, Repr, Inhabited

def Block.empty : Block := ⟨[], [], []⟩

def Block.names (b : Block) (name : String) : Bool :=
  b.declared.contains name || b.shadowed.any (·.1 == name)

structure Call where
  function : String
  /-- The line of the call; 0 for the first function of a run. -/
  callLine : Nat
  /-- The line of the function's head. -/
  entryLine : Nat
deriving DecidableEq, Repr, Inhabited

/-- A call with the names that are visible in it and its open blocks, innermost first. -/
structure Frame where
  call : Call
  bindings : Bindings
  blocks : List Block
deriving Inhabited

namespace Frame

def enter (call : Call) : Frame := ⟨call, .empty, [.empty]⟩

def find? (f : Frame) (name : String) : Option Address := f.bindings.find? name

def openBlock (f : Frame) : Frame := { f with blocks := .empty :: f.blocks }

/-- The block after a name was declared in it that was bound to `outer` before. -/
def declareIn (b : Block) (name : String) (a : Address) (outer : Option Address) : Block :=
  let b := { b with allocations := b.allocations ++ [a] }
  match outer with
  | none => { b with declared := b.declared ++ [name] }
  | some outer =>
    -- restoring goes through the log in order, so a second entry would undo the first
    if b.names name then b else { b with shadowed := b.shadowed ++ [(name, outer)] }

/-- Binds a name in the innermost block; without an open block nothing happens. -/
def declare (f : Frame) (name : String) (a : Address) : Frame :=
  match f.blocks with
  | [] => f
  | b :: rest =>
    { f with
      bindings := f.bindings.insert name a
      blocks := declareIn b name a (f.find? name) :: rest }

def restore (b : Block) (bindings : Bindings) : Bindings :=
  b.shadowed.foldl (fun m e => m.insert e.1 e.2) (b.declared.foldl KeyMap.erase bindings)

/-- Closes the innermost block and gives back the addresses declared in it. -/
def closeBlock (f : Frame) : List Address × Frame :=
  match f.blocks with
  | [] => ([], f)
  | b :: rest => (b.allocations, { f with bindings := restore b f.bindings, blocks := rest })

def closeBlocks (bindings : Bindings) : List Block → List Address × Bindings
  | [] => ([], bindings)
  | b :: rest =>
    let (more, bindings) := closeBlocks (restore b bindings) rest
    (b.allocations ++ more, bindings)

def unwind (f : Frame) : List Address × Frame :=
  let (addresses, bindings) := closeBlocks f.bindings f.blocks
  (addresses, { f with bindings, blocks := [] })

end Frame

end Stepwise
