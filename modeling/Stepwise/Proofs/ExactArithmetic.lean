import Stepwise.Arithmetic

/-! Arithmetic against numbers of any size. On integers an operator gives the exact result, wrapped to the
width of `int`; a pointer moves by exactly as many slots as it is told to, round the end of the addresses if
it comes to that. So the laws of numbers hold for all operands, the least `int` and both ends of the addresses
among them. -/

namespace Stepwise

def Value.number? : Value → Option Int
  | int n => some n.toInt
  | char c => some c.toInt
  | _ => none

/-- What an operator gives for numbers of any size; quotients are cut toward zero. -/
def Arith.exact (op : Arith) (a b : Int) : Int :=
  match op with
  | add => a + b
  | sub => a - b
  | mul => a * b
  | div => a.tdiv b
  | mod => a.tmod b

def Arith.divides : Arith → Bool
  | div | mod => true
  | _ => false

/-- `q` is the address `z` slots behind `p`, counted round the end of the addresses. -/
def LiesBehind (p : Address) (z : Int) (q : Address) : Prop :=
  (q.toNat : Int) = (p.toNat + z) % 18446744073709551616

/-! Integers -/

/-- A value that is a number is taken for that number, whatever its width. -/
theorem Value.toInt?_of_number? {v : Value} {a : Int} (h : v.number? = some a) :
    ∃ n, v.toInt? = some n ∧ n.toInt = a := by
  cases v with
  | int n => exact ⟨n, rfl, Option.some.inj h⟩
  | char c => exact ⟨c.toInt32, rfl, (Int8.toInt_toInt32 c).trans (Option.some.inj h)⟩
  | float | address | undefined => cases h

theorem Arith.eval_integers {v w : Value} {m n : Int32} (hv : v.toInt? = some m)
    (hw : w.toInt? = some n) (op : Arith) : op.eval v w = (op.onInts m n).map .int := by
  cases v with
  | int | char =>
    cases hv
    cases w with
    | int | char =>
      cases hw
      rfl
    | float | address | undefined => cases hw
  | float | address | undefined => cases hv

/-- The result of an operator on words is the exact one, wrapped. -/
theorem Arith.onInts_exact {op : Arith} {m n : Int32} (h : ¬ (op.divides ∧ n.toInt = 0)) :
    ∃ k, op.onInts m n = .ok k ∧ k.toInt = (op.exact m.toInt n.toInt).bmod 4294967296 := by
  have nonzero (hd : op.divides) : n ≠ 0 := by
    rintro rfl
    exact h ⟨hd, rfl⟩
  cases op with
  | add => exact ⟨m + n, rfl, Int32.toInt_add m n⟩
  | sub => exact ⟨m - n, rfl, Int32.toInt_sub m n⟩
  | mul => exact ⟨m * n, rfl, Int32.toInt_mul m n⟩
  | div => exact ⟨m / n, if_neg (nonzero rfl), Int32.toInt_div m n⟩
  | mod =>
    refine ⟨m % n, if_neg (nonzero rfl), ?_⟩
    -- a remainder is a word already, so wrapping does nothing to it
    rw [exact, ← Int32.toInt_mod, Int32.toInt_bmod]

theorem Arith.onInts_zero {op : Arith} (h : op.divides) (m : Int32) :
    op.onInts m 0 = .error (.divisionByZero (op = .mod)) := by
  cases op with
  | div | mod => rfl
  | add | sub | mul => cases h

/-- Quotient and remainder make up the dividend, also where the quotient wraps. -/
theorem quotient_mul_add_remainder (m n : Int32) : m / n * n + m % n = m := by
  apply Int32.toInt_inj.mp
  rw [Int32.toInt_add, Int32.toInt_mul, Int32.toInt_div, Int32.toInt_mod, Int.bmod_mul_bmod,
    Int.bmod_add_bmod, Int.tdiv_mul_add_tmod]
  exact Int32.toInt_bmod m

/-! Pointers -/

/-- A number of slots as a word that is added to addresses. -/
theorem toNat_slots (n : Int32) :
    (n.toInt64.toUInt64.toNat : Int) = n.toInt % 18446744073709551616 := by
  have word : n.toInt = (n.toInt64.toUInt64.toNat : Int).bmod 18446744073709551616 := by
    rw [← Int32.toInt_toInt64]
    exact BitVec.toInt_eq_toNat_bmod n.toInt64.toBitVec
  have bound := n.toInt64.toUInt64.toNat_lt
  rw [word]
  refine .trans ?_ (Int.bmod_emod (m := 18446744073709551616)).symm
  omega

theorem offset_liesBehind (p : Address) (n : Int32) : LiesBehind p n.toInt (offset p n.toInt64) := by
  have slots := toNat_slots n
  unfold LiesBehind offset
  rw [UInt64.toNat_add]
  omega

/-- To move by the opposite of a number of slots is to take it away. -/
theorem offset_neg (p : Address) (n : Int64) : offset p (-n) = p - n.toUInt64 := by
  unfold offset
  rw [Int64.toUInt64_neg, UInt64.sub_eq_add_neg]

/-- To go back by a number of slots is to move by its opposite, which need not be an `int`. -/
theorem sub_liesBehind (p : Address) (n : Int32) :
    LiesBehind p (-n.toInt) (p - n.toInt64.toUInt64) := by
  have slots := toNat_slots n
  have bound := n.toInt64.toUInt64.toNat_lt
  unfold LiesBehind
  rw [UInt64.toNat_sub]
  omega

theorem LiesBehind.trans {p q r : Address} {y z : Int} (h : LiesBehind p y q) (h' : LiesBehind q z r) :
    LiesBehind p (y + z) r := by
  unfold LiesBehind at *
  omega

theorem LiesBehind.unique {p q r : Address} {z : Int} (h : LiesBehind p z q) (h' : LiesBehind p z r) :
    q = r := by
  apply UInt64.toNat_inj.mp
  unfold LiesBehind at h h'
  omega

theorem offset_sub (p : Address) (n : Int64) : offset p n - n.toUInt64 = p :=
  UInt64.add_sub_cancel p _

theorem distance_offset (p : Address) (n : Int32) : distance (offset p n.toInt64) p = n := by
  unfold distance offset
  rw [UInt64.add_comm, UInt64.add_sub_cancel, Int64.toInt64_toUInt64, Int32.toInt32_toInt64]

/-- The order of two moves does not matter. -/
theorem offset_offset (p : Address) (m n : Int64) : offset (offset p m) n = offset (offset p n) m := by
  unfold offset
  rw [UInt64.add_assoc, UInt64.add_comm m.toUInt64, UInt64.add_assoc]

section

variable {v : Value} {n : Int32} (hv : v.toInt? = some n) (p : Address)

include hv

theorem Arith.eval_move : Arith.add.eval (.address p) v = .ok (.address (offset p n.toInt64)) := by
  cases v with
  | int | char =>
    cases hv
    rfl
  | float | address | undefined => cases hv

theorem Arith.eval_move_comm : Arith.add.eval v (.address p) = .ok (.address (offset p n.toInt64)) := by
  cases v with
  | int | char =>
    cases hv
    rfl
  | float | address | undefined => cases hv

theorem Arith.eval_goBack :
    Arith.sub.eval (.address p) v = .ok (.address (p - n.toInt64.toUInt64)) := by
  rw [← offset_neg]
  cases v with
  | int | char =>
    cases hv
    rfl
  | float | address | undefined => cases hv

end

/-! The laws -/

/-- What the operators do with integers `v` and `w` that are the numbers `a` and `b`. -/
structure ExactOnIntegers (v w : Value) (a b : Int) : Prop where
  /-- The result is the exact one, wrapped to the width of `int`. -/
  wraps : ∀ op : Arith, ¬ (op.divides ∧ b = 0) → ∃ n, BinOp.eval (.arith op) v w = .ok (.int n) ∧
    n.toInt = (op.exact a b).bmod 4294967296
  /-- Nothing fails but to divide by zero. -/
  fails : ∀ op : Arith, op.divides → b = 0 →
    BinOp.eval (.arith op) v w = .error (.divisionByZero (op = .mod))
  divided : b ≠ 0 → ∃ n : Int32, n.toInt = a ∧ (do
    let quotient ← BinOp.eval (.arith .div) v w
    let remainder ← BinOp.eval (.arith .mod) v w
    let product ← BinOp.eval (.arith .mul) quotient w
    BinOp.eval (.arith .add) product remainder) = .ok (.int n)

/-- What the operators do with a pointer to `p` and integers `v` and `w` that are the numbers `a` and `b`. -/
structure ExactOnPointers (p : Address) (v w : Value) (a b : Int) : Prop where
  moves : ∃ q, BinOp.eval (.arith .add) (.address p) v = .ok (.address q) ∧ LiesBehind p a q
  commutes : BinOp.eval (.arith .add) v (.address p) = BinOp.eval (.arith .add) (.address p) v
  returns : (do
    let q ← BinOp.eval (.arith .add) (.address p) v
    BinOp.eval (.arith .sub) q v) = .ok (.address p)
  distance : ∃ n : Int32, n.toInt = a ∧ (do
    let q ← BinOp.eval (.arith .add) (.address p) v
    BinOp.eval (.arith .sub) q (.address p)) = .ok (.int n)
  either : ∃ r, LiesBehind p (a + b) r ∧
    (do
      let q ← BinOp.eval (.arith .add) (.address p) v
      BinOp.eval (.arith .add) q w) = .ok (.address r) ∧
    (do
      let q ← BinOp.eval (.arith .add) (.address p) w
      BinOp.eval (.arith .add) q v) = .ok (.address r)
  goesBack : ∃ q, BinOp.eval (.arith .sub) (.address p) v = .ok (.address q) ∧ LiesBehind p (-a) q

theorem exactOnIntegers {v w : Value} {m n : Int32} (hv : v.toInt? = some m) (hw : w.toInt? = some n) :
    ExactOnIntegers v w m.toInt n.toInt where
  wraps op h := by
    obtain ⟨k, result, worth⟩ := Arith.onInts_exact (m := m) h
    refine ⟨k, ?_, worth⟩
    rw [BinOp.eval, Arith.eval_integers hv hw, result]
    rfl
  fails op h zero := by
    obtain rfl : n = 0 := Int32.toInt_inj.mp zero
    rw [BinOp.eval, Arith.eval_integers hv hw, Arith.onInts_zero h]
    rfl
  divided nonzero := by
    have nonzero : n ≠ 0 := by
      rintro rfl
      exact nonzero rfl
    refine ⟨m, rfl, ?_⟩
    have quotient : Arith.div.eval v w = .ok (.int (m / n)) := by
      rw [Arith.eval_integers hv hw, Arith.onInts, if_neg nonzero]
      rfl
    have remainder : Arith.mod.eval v w = .ok (.int (m % n)) := by
      rw [Arith.eval_integers hv hw, Arith.onInts, if_neg nonzero]
      rfl
    have product : Arith.mul.eval (.int (m / n)) w = .ok (.int (m / n * n)) := Arith.eval_integers rfl hw .mul
    simp only [BinOp.eval, quotient, remainder]
    show (Arith.mul.eval (.int (m / n)) w >>= fun product => _) = _
    rw [product]
    show Except.ok (Value.int (m / n * n + m % n)) = _
    rw [quotient_mul_add_remainder]

theorem exactOnPointers {v w : Value} {m n : Int32} (hv : v.toInt? = some m) (hw : w.toInt? = some n)
    (p : Address) : ExactOnPointers p v w m.toInt n.toInt where
  moves := ⟨offset p m.toInt64, Arith.eval_move hv p, offset_liesBehind p m⟩
  commutes := (Arith.eval_move_comm hv p).trans (Arith.eval_move hv p).symm
  returns := by
    simp only [BinOp.eval, Arith.eval_move hv]
    show Arith.sub.eval (.address (offset p m.toInt64)) v = _
    rw [Arith.eval_goBack hv, offset_sub]
  distance := by
    refine ⟨m, rfl, ?_⟩
    simp only [BinOp.eval, Arith.eval_move hv]
    show Except.ok (Value.int (Stepwise.distance (offset p m.toInt64) p)) = _
    rw [distance_offset]
  either := by
    refine ⟨offset (offset p m.toInt64) n.toInt64, (offset_liesBehind p m).trans (offset_liesBehind _ n), ?_, ?_⟩
    · simp only [BinOp.eval, Arith.eval_move hv]
      exact Arith.eval_move hw _
    · simp only [BinOp.eval, Arith.eval_move hw]
      rw [offset_offset]
      exact Arith.eval_move hv _
  goesBack := ⟨p - m.toInt64.toUInt64, Arith.eval_goBack hv p, sub_liesBehind p m⟩

/-- Integer and pointer arithmetic is exact up to the width of words, and fails only where a divisor is zero. -/
theorem arithmetic_exact {v w : Value} {a b : Int} (hv : v.number? = some a) (hw : w.number? = some b) :
    ExactOnIntegers v w a b ∧ ∀ p, ExactOnPointers p v w a b := by
  obtain ⟨m, hm, rfl⟩ := Value.toInt?_of_number? hv
  obtain ⟨n, hn, rfl⟩ := Value.toInt?_of_number? hw
  exact ⟨exactOnIntegers hm hn, exactOnPointers hm hn⟩

/-- The least `int` with a negative character: its quotient wraps, and a pointer to the last slot goes round the
end of the addresses. -/
theorem arithmetic_exact_least :
    (Value.int (-2147483648)).number? = some (-2147483648) ∧ (Value.char (-1)).number? = some (-1) ∧
      ExactOnIntegers (.int (-2147483648)) (.char (-1)) (-2147483648) (-1) ∧
      ExactOnPointers 18446744073709551615 (.int (-2147483648)) (.char (-1)) (-2147483648) (-1) := by
  have exact := arithmetic_exact (v := .int (-2147483648)) (w := .char (-1)) rfl rfl
  exact ⟨rfl, rfl, exact.1, exact.2 _⟩

end Stepwise
