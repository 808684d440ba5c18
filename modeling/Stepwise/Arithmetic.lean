import Stepwise.Fault

/-! Operators on values. Integers wrap at their width, a floating operand makes an operation
floating, and a pointer moves by whole slots. -/

namespace Stepwise

def operandMismatch (op : String) (left right : Value) : Fault.Cause :=
  .typeMismatch s!"operands valid for '{op}'" (left.shape ++ " and " ++ right.shape)

def Arith.onInts (op : Arith) (a b : Int32) : Except Fault.Cause Int32 :=
  match op with
  | add => .ok (a + b)
  | sub => .ok (a - b)
  | mul => .ok (a * b)
  | div => if b = 0 then .error (.divisionByZero false) else .ok (a / b)
  | mod => if b = 0 then .error (.divisionByZero true) else .ok (a % b)

/-- An operation on doubles; remainders are not defined on them. -/
def Arith.onFloats? (op : Arith) (a b : Float) : Option (Except Fault.Cause Float) :=
  match op with
  | add => some (.ok (a + b))
  | sub => some (.ok (a - b))
  | mul => some (.ok (a * b))
  | div => some (if b == 0 then .error (.divisionByZero false) else .ok (a / b))
  | mod => none

def offset (a : Address) (n : Int64) : Address := a + n.toUInt64

def distance (a b : Address) : Int32 := (a - b).toInt64.toInt32

def Arith.eval (op : Arith) (left right : Value) : Except Fault.Cause Value :=
  let mismatch := .error (operandMismatch op.text left right)
  match left, right with
  | .address a, .address b => if op = sub then .ok (.int (distance a b)) else mismatch
  | .address a, v =>
    match op, v.toInt? with
    | add, some n => .ok (.address (offset a n.toInt64))
    | sub, some n => .ok (.address (offset a (-n.toInt64)))
    | _, _ => mismatch
  | v, .address a =>
    match op, v.toInt? with
    | add, some n => .ok (.address (offset a n.toInt64))
    | _, _ => mismatch
  | left, right =>
    match left.toInt?, right.toInt? with
    | some a, some b => (op.onInts a b).map .int
    | _, _ =>
      match left.toFloat?, right.toFloat? with
      | some a, some b =>
        match op.onFloats? a b with
        | some result => result.map .float
        | none => mismatch
      | _, _ => mismatch

/-- How two doubles stand to each other; `none` when one of them is no number. -/
def compareFloats (a b : Float) : Option Ordering :=
  if a < b then some .lt else if a == b then some .eq else if b < a then some .gt else none

def Comparison.holds (op : Comparison) (order : Option Ordering) : Bool :=
  match op with
  | eq => order == some .eq
  | ne => order != some .eq
  | lt => order == some .lt
  | le => order == some .lt || order == some .eq
  | gt => order == some .gt
  | ge => order == some .gt || order == some .eq

/-- Only these two comparisons take a pointer and the constant 0. -/
def Comparison.isEquality : Comparison → Bool
  | eq | ne => true
  | _ => false

def Comparison.order (op : Comparison) (left right : Value) :
    Except Fault.Cause (Option Ordering) :=
  let mismatch := .error (operandMismatch op.text left right)
  let withNull (a : Address) := .ok (some (if a = 0 then .eq else .gt))
  match left, right with
  | .address a, .address b => .ok (some (compare a b))
  | .address a, .int n => if n = 0 ∧ op.isEquality then withNull a else mismatch
  | .int n, .address a => if n = 0 ∧ op.isEquality then withNull a else mismatch
  | .address _, _ | _, .address _ => mismatch
  | left, right =>
    match left.toInt?, right.toInt? with
    | some a, some b => .ok (some (compare a b))
    | _, _ =>
      match left.toFloat?, right.toFloat? with
      | some a, some b => .ok (compareFloats a b)
      | _, _ => mismatch

def Comparison.eval (op : Comparison) (left right : Value) : Except Fault.Cause Value :=
  (op.order left right).map fun order => .ofBool (op.holds order)

def Connective.apply : Connective → Bool → Bool → Bool
  | and, a, b => a && b
  | or, a, b => a || b

def Connective.eval (op : Connective) (left right : Value) : Except Fault.Cause Value :=
  match left.truth?, right.truth? with
  | some a, some b => .ok (.ofBool (op.apply a b))
  | _, _ => .error (operandMismatch op.text left right)

def BinOp.eval : BinOp → Value → Value → Except Fault.Cause Value
  | arith op => op.eval
  | compare op => op.eval
  | connect op => op.eval

def UnOp.eval : UnOp → Value → Except Fault.Cause Value
  | neg, .int n => .ok (.int (-n))
  | neg, .char c => .ok (.int (-c.toInt32))
  | neg, .float x => .ok (.float (-x))
  | neg, v => .error (.typeMismatch "number" v.shape)
  | not, v =>
    match v.truth? with
    | some b => .ok (.ofBool (!b))
    | none => .error (.typeMismatch "scalar" v.shape)

end Stepwise
