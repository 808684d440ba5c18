import Stepwise.Proofs.Erasure

/-! The grammar of expressions in layers. A grammar book gives each level of binary operators a rule of its own:
operands of the next level with operators of this one between them. The rule that climbs from level to level
reads the same, token by token, errors included. -/

namespace Stepwise.Grammar

open Stepwise.Parser

/-- Goes on with binary operators for as long as they come. By the level of an operator `right` says whether it
is taken, and how the operand on its right is read. -/
def chain (right : Nat → Option (Parser Expr)) : Expr → Parser Expr :=
  Parser.fix fun again left => do
    let here ← current
    match binaryOperator? here.token with
    | some (op, level) =>
      match right level with
      | some operand =>
        advance
        let e ← operand
        again (.binary op left e here.pos)
      | none => return left
    | none => return left

def layer (operand : Parser Expr) (level : Nat) : Expr → Parser Expr :=
  chain fun l => if l = level then some operand else none

/-- Expressions with the operators of the tightest levels, `rank` of them. -/
def layered (unary : Parser Expr) : Nat → Parser Expr
  | 0 => unary
  | rank + 1 => do
    let first ← layered unary rank
    layer (layered unary rank) (6 - rank) first

/-! Chains of operators -/

def Shrinks (x : Parser Expr) : Prop := ∀ ts a rest, x ts = .ok (a, rest) → rest.length ≤ ts.length

theorem Blind.shrinks {x y : Parser Expr} (h : ∀ {whole}, Blind whole Expr.erase x y) : Shrinks x :=
  fun _ _ _ read => (h.stays read List.suffix_rfl).length_le

theorem climb_shrinks (least : Nat) : Shrinks (climb unary least) := Blind.shrinks (climb_blind unary_blind least)

variable {right right' : Nat → Option (Parser Expr)} {op : BinOp} {level : Nat} {t : Lexeme} {ts : List Lexeme}
  {operand : Parser Expr} {left : Expr}

theorem chain_none (h : binaryOperator? t.token = none) : chain right left (t :: ts) = .ok (left, t :: ts) := by
  rw [run_fix (p := chain right) rfl]
  simp only [run_bind, run_current, ok_bind, h, run_pure]

theorem chain_stop (h : binaryOperator? t.token = some (op, level)) (hr : right level = none) :
    chain right left (t :: ts) = .ok (left, t :: ts) := by
  rw [run_fix (p := chain right) rfl]
  simp only [run_bind, run_current, ok_bind, h, hr, run_pure]

theorem chain_go (h : binaryOperator? t.token = some (op, level)) (hr : right level = some operand)
    (shrinks : Shrinks operand) : chain right left (t :: ts) =
      operand ts >>= fun r => chain right (.binary op left r.1 t.pos) r.2 := by
  have inside : t.token ≠ .eof := by
    intro last
    rw [last] at h
    cases h
  obtain ⟨k, p⟩ := t
  rw [run_fix (p := chain right) rfl]
  simp only [run_bind, run_current, ok_bind, h, hr, run_advance inside]
  cases read : operand ts with
  | error e => rfl
  | ok r => exact run_below (Nat.lt_succ_of_le (shrinks ts r.1 r.2 read))

/-- The operators of a level and above, with the next level on the right of each. -/
def upward (c : Nat → Parser Expr) (least : Nat) : Nat → Option (Parser Expr) :=
  fun level => if level < least then none else some (c (level + 1))

theorem operators_eq_chain (c : Nat → Parser Expr) (least : Nat) : operators c least = chain (upward c least) := by
  unfold operators chain
  congr 1
  funext again left
  congr 1
  funext here
  cases binaryOperator? here.token with
  | none => rfl
  | some operator =>
    unfold upward
    dsimp only
    split <;> rfl

/-- Chains come to the same if they take the same operators and it does not matter to them how the operands are
read. -/
theorem chain_congr {n : Nat} (h : ∀ level, right level = none ∧ right' level = none ∨
      ∃ x x', right level = some x ∧ right' level = some x' ∧ Shrinks x ∧ Shrinks x' ∧
        ∀ ts (f : Expr → Expr), ts.length < n → (x ts >>= fun r => chain right (f r.1) r.2) =
          x' ts >>= fun r => chain right (f r.1) r.2)
    (short : ts.length ≤ n) : chain right left ts = chain right' left ts := by
  induction hlen : ts.length using Nat.strongRecOn generalizing ts left with
  | _ len ih =>
    cases ts with
    | nil => rfl
    | cons t ts =>
      rw [List.length_cons] at short hlen
      cases found : binaryOperator? t.token with
      | none => rw [chain_none found, chain_none found]
      | some operator =>
        obtain ⟨op, level⟩ := operator
        obtain ⟨none, none'⟩ | ⟨x, x', some, some', shrinks, shrinks', same⟩ := h level
        · rw [chain_stop found none, chain_stop found none']
        · rw [chain_go found some shrinks, chain_go found some' shrinks',
            same ts (fun e => .binary op left e t.pos) (by omega)]
          cases read : x' ts with
          | error e => rfl
          | ok r =>
            have le := shrinks' ts r.1 r.2 read
            exact ih r.2.length (by omega) (by omega) rfl

theorem below_shrinks {n : Nat} {c : Nat → Parser Expr} (h : ∀ level, Shrinks (c level)) (level : Nat) :
    Shrinks (below n c level) := by
  intro ts a rest read
  by_cases lt : ts.length < n
  · exact h level ts a rest ((run_below lt).symm.trans read)
  · rw [below, if_neg lt] at read
    cases ts <;> cases read

/-- The climbing rule reads an operand and goes on with the operators of its level and above. -/
theorem climb_eq (least : Nat) (ts : List Lexeme) : climb unary least ts =
    unary ts >>= fun r => chain (upward (climb unary) least) r.1 r.2 := by
  rw [run_fix (p := climb unary) rfl]
  show (unary ts >>= fun r => operators (below ts.length (climb unary)) least r.1 r.2) = _
  cases read : unary ts with
  | error e => rfl
  | ok r =>
    show operators (below ts.length (climb unary)) least r.1 r.2 = _
    rw [operators_eq_chain]
    refine chain_congr (n := ts.length) (fun level => ?_) (Blind.shrinks unary_blind ts r.1 r.2 read)
    unfold upward
    by_cases lt : level < least
    · exact .inl ⟨if_pos lt, if_pos lt⟩
    · refine .inr ⟨_, _, if_neg lt, if_neg lt, below_shrinks climb_shrinks _, climb_shrinks _,
        fun ts f short => ?_⟩
      rw [run_below short]

/-! From one level to the next -/

/-- A chain of all operators from a level on leaves none of them at the front. -/
theorem chain_upward_ends {least : Nat} {a : Expr} {rest : List Lexeme}
    (h : chain (upward (climb unary) least) left ts = .ok (a, rest)) (b : Expr) :
    chain (upward (climb unary) least) b rest = .ok (b, rest) := by
  induction hlen : ts.length using Nat.strongRecOn generalizing ts left with
  | _ len ih =>
    cases ts with
    | nil => cases h
    | cons t ts =>
      rw [List.length_cons] at hlen
      cases found : binaryOperator? t.token with
      | none =>
        rw [chain_none found] at h
        cases h
        exact chain_none found
      | some operator =>
        obtain ⟨op, level⟩ := operator
        by_cases lt : level < least
        · rw [chain_stop found (if_pos lt)] at h
          cases h
          exact chain_stop found (if_pos lt)
        · rw [chain_go found (if_neg lt) (climb_shrinks _)] at h
          cases read : climb unary (level + 1) ts with
          | error e =>
            rw [read] at h
            cases h
          | ok r =>
            rw [read] at h
            have le := climb_shrinks _ ts r.1 r.2 read
            exact ih r.2.length (by omega) h rfl

theorem climb_ends {least : Nat} {a : Expr} {rest : List Lexeme} (h : climb unary least ts = .ok (a, rest))
    (b : Expr) : chain (upward (climb unary) least) b rest = .ok (b, rest) := by
  rw [climb_eq] at h
  cases read : unary ts with
  | error e =>
    rw [read] at h
    cases h
  | ok r =>
    rw [read] at h
    exact chain_upward_ends h b

/-- A chain of all operators from a level on is a chain of those above it, and then one of those of the level. -/
theorem chain_upward_split (least : Nat) : chain (upward (climb unary) least) left ts =
    chain (upward (climb unary) (least + 1)) left ts >>= fun r =>
      layer (climb unary (least + 1)) least r.1 r.2 := by
  induction hlen : ts.length using Nat.strongRecOn generalizing ts left with
  | _ len ih =>
    cases ts with
    | nil => rfl
    | cons t ts =>
      rw [List.length_cons] at hlen
      cases found : binaryOperator? t.token with
      | none =>
        rw [chain_none found, chain_none found]
        exact (chain_none found).symm
      | some operator =>
        obtain ⟨op, level⟩ := operator
        -- the rest behind an operand is shorter, and is split in turn
        have later {r : Expr × List Lexeme} (read : climb unary (level + 1) ts = .ok r) (b : Expr) :
            chain (upward (climb unary) least) b r.2 =
              chain (upward (climb unary) (least + 1)) b r.2 >>= fun r =>
                layer (climb unary (least + 1)) least r.1 r.2 := by
          have le := climb_shrinks _ ts r.1 r.2 read
          exact ih r.2.length (by omega) rfl
        obtain lt | rfl | gt := Nat.lt_trichotomy level least
        · rw [chain_stop found (if_pos lt), chain_stop found (if_pos (Nat.lt_succ_of_lt lt))]
          exact (chain_stop found (if_neg (Nat.ne_of_lt lt))).symm
        · rw [chain_go found (if_neg (Nat.lt_irrefl level)) (climb_shrinks _),
            chain_stop found (if_pos (Nat.lt_succ_self level))]
          refine Eq.trans ?_ (chain_go found (if_pos rfl) (climb_shrinks _)).symm
          cases read : climb unary (level + 1) ts with
          | error e => rfl
          | ok r =>
            show chain _ _ r.2 = _
            rw [later read, climb_ends read]
            rfl
        · rw [chain_go found (if_neg (Nat.not_lt.mpr (Nat.le_of_lt gt))) (climb_shrinks _),
            chain_go found (if_neg (Nat.not_lt.mpr gt)) (climb_shrinks _)]
          cases read : climb unary (level + 1) ts with
          | error e => rfl
          | ok r => exact later read _

theorem climb_split (least : Nat) :
    climb unary least = climb unary (least + 1) >>= layer (climb unary (least + 1)) least := by
  funext ts
  show _ = climb unary (least + 1) ts >>= fun r => layer (climb unary (least + 1)) least r.1 r.2
  rw [climb_eq, climb_eq]
  cases unary ts with
  | error e => rfl
  | ok r => exact chain_upward_split least

/-! The tightest level -/

theorem level_le {k : Token} (h : binaryOperator? k = some (op, level)) : level ≤ 6 := by
  unfold binaryOperator? at h
  split at h <;> cases h <;> decide

/-- From the seventh level on there are no operators; all that the rule does besides reading an operand is to see
that a token follows, and a chain would see that too. -/
theorem climb_seven (f : Expr → Expr) (ts : List Lexeme) :
    (climb unary 7 ts >>= fun r => chain right (f r.1) r.2) = unary ts >>= fun r => chain right (f r.1) r.2 := by
  rw [climb_eq]
  cases unary ts with
  | error e => rfl
  | ok r =>
    obtain ⟨a, rest⟩ := r
    show (chain (upward (climb unary) 7) a rest >>= fun r => chain right (f r.1) r.2) = chain right (f a) rest
    cases rest with
    | nil => rfl
    | cons t rest =>
      have stop : chain (upward (climb unary) 7) a (t :: rest) = .ok (a, t :: rest) := by
        cases found : binaryOperator? t.token with
        | none => exact chain_none found
        | some operator => exact chain_stop found (if_pos (Nat.lt_succ_of_le (level_le found)))
      rw [stop]
      rfl

theorem layer_seven (left : Expr) (ts : List Lexeme) :
    layer (climb unary 7) 6 left ts = layer unary 6 left ts := by
  refine chain_congr (n := ts.length) (fun level => ?_) (Nat.le_refl _)
  by_cases six : level = 6
  · exact .inr ⟨_, _, if_pos six, if_pos six, climb_shrinks 7, Blind.shrinks unary_blind,
      fun ts f _ => climb_seven f ts⟩
  · exact .inl ⟨if_neg six, if_neg six⟩

/-- The climbing rule reads what the layers read. -/
theorem climb_eq_layered {rank : Nat} (le : rank ≤ 5) : climb unary (6 - rank) = layered unary (rank + 1) := by
  induction rank with
  | zero =>
    rw [climb_split]
    funext ts
    show (climb unary 7 ts >>= fun r => layer (climb unary 7) 6 r.1 r.2) = _
    refine (climb_seven id ts).trans ?_
    show (unary ts >>= fun r => layer (climb unary 7) 6 r.1 r.2) = unary ts >>= fun r => layer unary 6 r.1 r.2
    simp only [layer_seven]
  | succ rank ih =>
    have next : 6 - (rank + 1) + 1 = 6 - rank := by omega
    rw [climb_split, next, ih (by omega)]
    rfl

end Stepwise.Grammar
