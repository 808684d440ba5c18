import Stepwise.Trace.Status

/-! Steps by the calls that are under way at them. Entering a function puts its call on top of the call
stack and leaving it takes that off again; all other steps find the calls as they are. Steps that obey
this are nested like brackets. -/

namespace Stepwise

def firstWord (text : String) : List Char := text.toList.takeWhile (· ≠ ' ')

theorem firstWord_append {head : String} (blank : ' ' ∈ head.toList) (tail : String) :
    firstWord (head ++ tail) = firstWord head := by
  unfold firstWord
  rw [String.toList_append, List.takeWhile_append, if_neg]
  intro whole
  have all : head.toList.takeWhile (· ≠ ' ') = head.toList :=
    (List.takeWhile_prefix _).eq_of_length whole
  have noBlank := List.all_takeWhile (l := head.toList) (p := (· ≠ ' '))
  rw [all, List.all_eq_true] at noBlank
  simpa using noBlank ' ' blank

namespace Step

def enters (x : Step) : Bool := firstWord x.description = "enter".toList

def leaves (x : Step) : Bool :=
  firstWord x.description = "return".toList || firstWord x.description = "exit".toList

/-- The calls that are under way when a step is over: leaving a function ends the innermost. -/
def remaining (x : Step) : List Call := if x.leaves then x.callStack.dropLast else x.callStack

structure Opens (x : Step) (base : List Call) (c : Call) : Prop where
  callStack : x.callStack = base ++ [c]
  enters : x.enters = true
  names : ("enter " ++ c.function ++ "(").toList <+: x.description.toList
  line : x.line = c.entryLine

structure Closes (x : Step) (base : List Call) (c : Call) : Prop where
  callStack : x.callStack = base ++ [c]
  leaves : x.leaves = true

structure Plain (x : Step) (base : List Call) : Prop where
  callStack : x.callStack = base
  enters : x.enters = false
  leaves : x.leaves = false

variable {x : Step} {base : List Call} {c : Call}

theorem enters_of_leaves (h : x.leaves = true) : x.enters = false := by
  unfold leaves at h
  unfold enters
  rcases Bool.or_eq_true_iff.mp h with h | h <;> rw [of_decide_eq_true h] <;> decide

theorem leaves_of_enters (h : x.enters = true) : x.leaves = false := by
  cases hl : x.leaves with
  | false => rfl
  | true =>
    rw [enters_of_leaves hl] at h
    exact nomatch h

theorem Opens.remaining (h : x.Opens base c) : x.remaining = base ++ [c] := by
  simp [Step.remaining, leaves_of_enters h.enters, h.callStack]

theorem Closes.remaining (h : x.Closes base c) : x.remaining = base := by
  simp [Step.remaining, h.leaves, h.callStack]

theorem Plain.remaining (h : x.Plain base) : x.remaining = base := by
  simp [Step.remaining, h.leaves, h.callStack]

end Step

variable {limit : Nat} {base : List Call} {c : Call} {xs ys : List Step} {x : Step}

/-- Steps of a time through which the calls `base` are under way: each belongs to the innermost of them
or to a call that was made and came to its end meanwhile. No more than `limit` calls are under way at
once. -/
inductive Nested (limit : Nat) : List Call → List Step → Prop where
  | nil {base : List Call} : Nested limit base []
  | step {base : List Call} {x : Step} {xs : List Step} (plain : x.Plain base)
    (rest : Nested limit base xs) : Nested limit base (x :: xs)
  | call {base : List Call} {c : Call} {first last : Step} {inner rest : List Step}
    (free : base.length < limit) (opens : first.Opens base c) (within : Nested limit (base ++ [c]) inner)
    (closes : last.Closes base c) (after : Nested limit base rest) :
    Nested limit base (first :: inner ++ last :: rest)

/-- Steps of a time that was cut off, perhaps within calls that did not come to their end. -/
inductive Underway (limit : Nat) : List Call → List Step → Prop where
  | nested {base : List Call} {xs : List Step} (whole : Nested limit base xs) : Underway limit base xs
  | call {base : List Call} {c : Call} {first : Step} {before inner : List Step}
    (done : Nested limit base before) (free : base.length < limit) (opens : first.Opens base c)
    (within : Underway limit (base ++ [c]) inner) : Underway limit base (before ++ first :: inner)

theorem Nested.append (h : Nested limit base xs) (h' : Nested limit base ys) :
    Nested limit base (xs ++ ys) := by
  induction h with
  | nil => exact h'
  | step plain _ ih => exact .step plain (ih h')
  | call free opens within closes _ _ ih =>
    rw [List.append_assoc, List.cons_append]
    exact .call free opens within closes (ih h')

theorem Nested.one (plain : x.Plain base) : Nested limit base [x] := .step plain .nil

theorem Underway.prepend (h : Nested limit base xs) (h' : Underway limit base ys) :
    Underway limit base (xs ++ ys) := by
  cases h' with
  | nested whole => exact .nested (h.append whole)
  | call done free opens within =>
    rw [← List.append_assoc]
    exact .call (h.append done) free opens within

/-- At no step more calls are under way than the limit allows. -/
theorem Nested.depth (h : Nested limit base xs) (hb : base.length ≤ limit) :
    ∀ x ∈ xs, x.callStack.length ≤ limit := by
  induction h with
  | nil => nofun
  | step plain _ ih =>
    intro x hx
    rcases List.mem_cons.mp hx with rfl | hx
    · rwa [plain.callStack]
    · exact ih hb x hx
  | @call base c first last inner rest free opens within closes _ ihIn ihRest =>
    have top : (base ++ [c]).length ≤ limit := by
      rw [List.length_append]
      exact free
    intro x hx
    rw [List.cons_append, List.mem_cons, List.mem_append, List.mem_cons] at hx
    rcases hx with rfl | hx | rfl | hx
    · rwa [opens.callStack]
    · exact ihIn top x hx
    · rwa [closes.callStack]
    · exact ihRest hb x hx

theorem Underway.depth (h : Underway limit base xs) (hb : base.length ≤ limit) :
    ∀ x ∈ xs, x.callStack.length ≤ limit := by
  induction h with
  | nested whole => exact whole.depth hb
  | @call base c first before inner done free opens _ ih =>
    have top : (base ++ [c]).length ≤ limit := by
      rw [List.length_append]
      exact free
    intro x hx
    rw [List.mem_append, List.mem_cons] at hx
    rcases hx with hx | rfl | hx
    · exact done.depth hb x hx
    · rwa [opens.callStack]
    · exact ih top x hx

/-- Through all of nested steps the calls are under way that were in the beginning; functions are
entered and left only on top of them. -/
theorem Nested.above (h : Nested limit base xs) : ∀ x ∈ xs, base <+: x.callStack ∧
    (x.enters = true ∨ x.leaves = true → base.length < x.callStack.length) := by
  induction h with
  | nil => nofun
  | step plain _ ih =>
    intro x hx
    rcases List.mem_cons.mp hx with rfl | hx
    · exact ⟨plain.callStack ▸ List.prefix_refl _, by simp [plain.enters, plain.leaves]⟩
    · exact ih x hx
  | @call base c first last inner rest free opens within closes _ ihIn ihRest =>
    intro x hx
    rw [List.cons_append, List.mem_cons, List.mem_append, List.mem_cons] at hx
    rcases hx with rfl | hx | rfl | hx
    · rw [opens.callStack]
      exact ⟨List.prefix_append _ _, fun _ => by simp⟩
    · obtain ⟨below, -⟩ := ihIn x hx
      have longer := below.length_le
      rw [List.length_append, List.length_singleton] at longer
      exact ⟨(List.prefix_append _ _).trans below, fun _ => longer⟩
    · rw [closes.callStack]
      exact ⟨List.prefix_append _ _, fun _ => by simp⟩
    · exact ihRest x hx

/-! From each step to the next -/

/-- A step at a time when the calls `base` are under way: it adds one more if it enters a function, and
finds them as they are if it does not. -/
def Step.Follows (x : Step) (base : List Call) : Prop :=
  if x.enters then ∃ c, x.callStack = base ++ [c] else x.callStack = base

def Bracketed : List Call → List Step → Prop
  | _, [] => True
  | base, x :: rest => x.Follows base ∧ Bracketed x.remaining rest

theorem Bracketed.plain (plain : x.Plain base) (h : Bracketed base xs) : Bracketed base (x :: xs) := by
  refine ⟨?_, plain.remaining.symm ▸ h⟩
  simp [Step.Follows, plain.enters, plain.callStack]

theorem Bracketed.opens (opens : x.Opens base c) (h : Bracketed (base ++ [c]) xs) :
    Bracketed base (x :: xs) := by
  refine ⟨?_, opens.remaining.symm ▸ h⟩
  simp [Step.Follows, opens.enters, opens.callStack]

theorem Bracketed.closes (closes : x.Closes base c) (h : Bracketed base xs) :
    Bracketed (base ++ [c]) (x :: xs) := by
  refine ⟨?_, closes.remaining.symm ▸ h⟩
  simp [Step.Follows, Step.enters_of_leaves closes.leaves, closes.callStack]

/-- Nested steps leave the calls as they found them. -/
theorem Nested.bracketed (h : Nested limit base xs) (h' : Bracketed base ys) :
    Bracketed base (xs ++ ys) := by
  induction h generalizing ys with
  | nil => exact h'
  | step plain _ ih => exact .plain plain (ih h')
  | call _ opens _ closes _ ihIn ihRest =>
    rw [List.append_assoc, List.cons_append, List.cons_append]
    exact .opens opens (ihIn (.closes closes (ihRest h')))

theorem Underway.bracketed (h : Underway limit base xs) : Bracketed base xs := by
  induction h with
  | @nested base xs whole =>
    have all : Bracketed base (xs ++ []) := whole.bracketed trivial
    rwa [List.append_nil] at all
  | call done _ opens _ ih => exact done.bracketed (.opens opens ih)

def remainingAfter (base : List Call) (xs : List Step) : List Call :=
  (xs.getLast?.map Step.remaining).getD base

theorem Bracketed.follows {before after : List Step} (h : Bracketed base (before ++ x :: after)) :
    x.Follows (remainingAfter base before) := by
  induction before generalizing base with
  | nil => exact h.1
  | cons y rest ih =>
    have later := ih h.2
    unfold remainingAfter at later ⊢
    rw [List.getLast?_cons]
    cases hl : rest.getLast? with
    | none =>
      rw [hl] at later
      exact later
    | some z =>
      rw [hl] at later
      exact later

end Stepwise
