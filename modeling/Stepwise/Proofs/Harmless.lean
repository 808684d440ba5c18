import Stepwise.Proofs.Inspect

/-! Pieces of a run that are never at fault internally, whatever the state they begin in. Most of what a
run does is of this kind. What is not looks up a name, a struct or a function, counts arguments or fills a
new array; there it takes a checked program and a state of its run to know that nothing goes wrong. -/

namespace Stepwise

variable {α β : Type}

def Fault.Cause.isInternal : Fault.Cause → Bool
  | internal _ => true
  | _ => false

/-- Whether a run stopped for a reason that the checks of its program rule out. -/
def Halt.isInternal : Halt → Bool
  | fault f => f.cause.isInternal
  | _ => false

namespace Memory

variable {m m' m'' : Memory}

def SameTypes (m m' : Memory) : Prop :=
  ∀ a al', m'.allocation? a = some al' → ∃ al, m.allocation? a = some al ∧ al.type = al'.type

theorem SameTypes.refl (m : Memory) : m.SameTypes m := fun _ al h => ⟨al, h, rfl⟩

theorem SameTypes.trans (h : m.SameTypes m') (h' : m'.SameTypes m'') : m.SameTypes m'' := by
  intro a al'' found
  obtain ⟨al', found', same'⟩ := h' a al'' found
  obtain ⟨al, found, same⟩ := h a al' found'
  exact ⟨al, found, same.trans same'⟩

theorem sameTypes_retire (m : Memory) (a : Address) : m.SameTypes (m.retire a) := by
  intro b al found
  obtain ⟨live, before⟩ := of_allocation?_retire found
  exact ⟨_, before, rfl⟩

theorem sameTypes_retireAll (m : Memory) (bases : List Address) : m.SameTypes (m.retireAll bases) := by
  unfold retireAll
  induction bases generalizing m with
  | nil => exact .refl m
  | cons a rest ih => exact (m.sameTypes_retire a).trans (ih _)

end Memory

namespace Run

/-- The piece allocates nothing and is not at fault internally. -/
def Harmless (x : Run α) : Prop :=
  ∀ m, Ensures x m (fun _ m' => m.env.memory.SameTypes m'.env.memory) (fun h _ => h.isInternal = false)

variable {x : Run α} {f : α → Run β} {m : Machine}

theorem Harmless.bind (hx : Harmless x) (hf : ∀ a, Harmless (f a)) : Harmless (x >>= f) := by
  intro m
  refine Ensures.bind ((hx m).mono (fun a m' same => ?_) fun _ _ h => h)
  exact (hf a m').mono (fun _ _ same' => same.trans same') fun _ _ h => h

theorem harmless_pure (a : α) : Harmless (pure a) := fun _ => .refl _

theorem harmless_fail {cause : Fault.Cause} (h : cause.isInternal = false) (pos : Position) :
    Harmless (fail cause pos : Run α) := fun _ => h

theorem harmless_get : Harmless (get : Run Machine) := fun _ => .refl _

theorem harmless_environment : Harmless environment := fun _ => .refl _

theorem harmless_setInput (rest : List Char) :
    Harmless (modify fun m => { m with input := rest } : Run Unit) := fun _ => .refl _

theorem harmless_print (text : String) : Harmless (print text) := fun _ => .refl _

theorem harmless_changeEnvironment {g : Environment → Environment}
    (h : ∀ env : Environment, env.memory.SameTypes (g env).memory) : Harmless (changeEnvironment g) :=
  fun m => h m.env

theorem harmless_ofCause {r : Except Fault.Cause α} (h : ∀ c, r = .error c → c.isInternal = false)
    (pos : Position) : Harmless (ofCause pos r) := by
  cases r with
  | ok a => exact harmless_pure a
  | error cause => exact harmless_fail (h cause rfl) pos

theorem harmless_record (s : Setting) (line : Nat) (description : String) (returned : Option Value) :
    Harmless (record s line description returned) := by
  intro m
  refine (record_ensures s line description returned m).mono ?_ ?_
  · rintro - m' ⟨rfl, -⟩
    exact .refl _
  · rintro e m' ⟨-, ⟨rfl, -⟩ | ⟨excess, rfl⟩⟩ <;> rfl

end Run

open Run

/-! Operators -/

def Fault.Cause.isOperand : Fault.Cause → Bool
  | divisionByZero _ | typeMismatch .. => true
  | _ => false

theorem Fault.Cause.isInternal_of_isOperand {c : Fault.Cause} (h : c.isOperand = true) :
    c.isInternal = false := by
  cases c with
  | internal c => cases h
  | _ => rfl

namespace Arith

theorem isOperand_onInts {op : Arith} {a b : Int32} {c : Fault.Cause} (h : op.onInts a b = .error c) :
    c.isOperand = true := by
  unfold onInts at h
  cases op with
  | div | mod =>
    dsimp only at h
    split at h
    · cases h
      rfl
    · cases h
  | _ => cases h

theorem isOperand_onFloats? {op : Arith} {a b : Float} {c : Fault.Cause}
    (h : op.onFloats? a b = some (.error c)) : c.isOperand = true := by
  unfold onFloats? at h
  cases op with
  | div =>
    have h := Option.some.inj h
    split at h
    · cases h
      rfl
    · cases h
  | _ => cases h

theorem isOperand_eval {op : Arith} {l r : Value} {c : Fault.Cause} (h : op.eval l r = .error c) :
    c.isOperand = true := by
  unfold eval at h
  dsimp only at h
  split at h
  · split at h <;> cases h
    rfl
  · split at h <;> cases h
    rfl
  · split at h <;> cases h
    rfl
  · split at h
    · rename_i a b _ _
      cases hr : op.onInts a b with
      | ok n =>
        rw [hr] at h
        cases h
      | error c' =>
        rw [hr] at h
        cases h
        exact isOperand_onInts hr
    · split at h
      · split at h
        · rename_i result hr
          cases result with
          | ok x => cases h
          | error c' =>
            cases h
            exact isOperand_onFloats? hr
        · cases h
          rfl
      · cases h
        rfl

theorem isInternal_eval {op : Arith} {l r : Value} {c : Fault.Cause} (h : op.eval l r = .error c) :
    c.isInternal = false := Fault.Cause.isInternal_of_isOperand (isOperand_eval h)

end Arith

theorem Comparison.isOperand_eval {op : Comparison} {l r : Value} {c : Fault.Cause}
    (h : op.eval l r = .error c) : c.isOperand = true := by
  have fault : op.order l r = .error c := by
    unfold Comparison.eval at h
    cases ho : op.order l r with
    | ok order =>
      rw [ho] at h
      cases h
    | error c' =>
      rw [ho] at h
      cases h
      rfl
  unfold order at fault
  dsimp only at fault
  repeat' split at fault
  all_goals cases fault
  all_goals rfl

theorem BinOp.isOperand_eval {op : BinOp} {l r : Value} {c : Fault.Cause} (h : op.eval l r = .error c) :
    c.isOperand = true := by
  cases op with
  | arith op => exact Arith.isOperand_eval h
  | compare op => exact Comparison.isOperand_eval h
  | connect op =>
    unfold eval Connective.eval at h
    dsimp only at h
    split at h <;> cases h
    rfl

theorem BinOp.isInternal_eval {op : BinOp} {l r : Value} {c : Fault.Cause} (h : op.eval l r = .error c) :
    c.isInternal = false := Fault.Cause.isInternal_of_isOperand (isOperand_eval h)

theorem UnOp.isOperand_eval {op : UnOp} {v : Value} {c : Fault.Cause} (h : op.eval v = .error c) :
    c.isOperand = true := by
  cases op with
  | neg =>
    cases v <;> cases h
    all_goals rfl
  | not =>
    unfold eval at h
    dsimp only at h
    split at h <;> cases h
    rfl

theorem UnOp.isInternal_eval {op : UnOp} {v : Value} {c : Fault.Cause} (h : op.eval v = .error c) :
    c.isInternal = false := Fault.Cause.isInternal_of_isOperand (isOperand_eval h)

/-! Templates -/

namespace Format

/-- A template is at odds with itself only in its directives. -/
theorem pieces_ne_missingArgument {cs : List Char} {c : Conversion} :
    pieces cs ≠ .error (.missingArgument c) := by
  have rest {r : Except Error (List Piece)} {g : List Piece → List Piece} (h : r ≠ .error (.missingArgument c)) :
      r.map g ≠ .error (.missingArgument c) := by
    cases r with
    | ok ps => nofun
    | error e =>
      intro heq
      cases heq
      exact h rfl
  fun_induction pieces cs with
  | case1 => nofun
  | case2 more ih => exact rest ih
  | case3 more _ e he =>
    rintro heq
    cases heq
    unfold readDirective at he
    dsimp only at he
    split at he
    · cases he
    · split at he <;> cases he
  | case4 more _ d after _ _ ih => exact rest ih
  | case5 c' more _ _ ih => exact rest ih

/-- A character many times over, and what is made of it, does not lack an argument. -/
theorem repeated_bind_ne_missingArgument {x : Char} {n : Nat} {f : List Char → List Char} {c : Conversion} :
    (repeated x n >>= fun cs => pure (f cs)) ≠ .error (.missingArgument c) := by
  unfold repeated
  split <;> nofun

theorem Directive.body_ne_missingArgument {d : Directive} {v : Value} {c : Conversion} :
    d.body v ≠ .error (.missingArgument c) := by
  unfold body
  cases d.conversion with
  | char =>
    dsimp only
    cases v.toInt? <;> nofun
  | float | exp => cases v <;> nofun
  | pointer => cases v <;> nofun
  | int | unsigned | hex =>
    dsimp only
    cases v.toInt? with
    | none => nofun
    | some n => exact repeated_bind_ne_missingArgument

theorem Directive.pad_ne_missingArgument {d : Directive} {zeros : Bool} {text : List Char} {c : Conversion} :
    d.pad zeros text ≠ .error (.missingArgument c) := by
  unfold pad
  dsimp only
  repeat' split
  all_goals exact repeated_bind_ne_missingArgument

/-- With an argument for each directive none is missing. -/
theorem fill_ne_missingArgument {ps : List Piece} {vs : List Value}
    (h : (directives ps).length = vs.length) {c : Conversion} : fill ps vs ≠ .error (.missingArgument c) := by
  induction ps generalizing vs with
  | nil => nofun
  | cons p ps ih =>
    cases p with
    | literal x =>
      have rest := ih h
      unfold fill
      cases hr : fill ps vs with
      | ok text => nofun
      | error e =>
        intro heq
        cases heq
        exact rest hr
    | directive d =>
      cases vs with
      | nil => cases h
      | cons v vs =>
        have rest := ih (Nat.succ.inj h)
        unfold fill
        cases hf : d.field v with
        | error e =>
          intro heq
          cases heq
          unfold Directive.field at hf
          cases hb : d.body v with
          | ok text =>
            rw [hb] at hf
            exact Directive.pad_ne_missingArgument hf
          | error e =>
            rw [hb] at hf
            cases hf
            exact Directive.body_ne_missingArgument hb
        | ok field =>
          cases hr : fill ps vs with
          | ok text => nofun
          | error e =>
            intro heq
            cases heq
            exact rest hr

theorem output_ne_missingArgument {template : String} {args : List Value} {c : Conversion} :
    output template args ≠ .error (.missingArgument c) := by
  unfold output
  cases hp : pieces template.toList with
  | error e =>
    intro heq
    cases heq
    exact pieces_ne_missingArgument hp
  | ok ps =>
    by_cases count : (directives ps).length = args.length
    · have filled := fill_ne_missingArgument (c := c) count
      intro heq
      simp only [bind, Except.bind, count, ne_eq, not_true_eq_false, if_false] at heq
      cases hf : fill ps args with
      | ok text =>
        rw [hf] at heq
        cases heq
      | error e =>
        rw [hf] at heq
        cases heq
        exact filled hf
    · intro heq
      simp only [bind, Except.bind, ne_eq, count, not_false_eq_true, if_true] at heq
      cases heq

theorem readAll_ne_missingArgument (cs : List Conversion) (input : List Char) {c : Conversion} :
    (readAll cs input).1 ≠ .error (.missingArgument c) := by
  induction cs generalizing input with
  | nil =>
    intro heq
    cases heq
  | cons first cs ih =>
    unfold readAll
    split
    · intro heq
      cases heq
    · split
      · rename_i e he
        intro heq
        cases heq
        cases first <;> cases he
      · intro heq
        cases heq
      · rename_i v rest _
        have later := ih rest
        dsimp only
        cases hr : (readAll cs rest).1 with
        | ok vs =>
          intro heq
          cases heq
        | error e =>
          intro heq
          cases heq
          exact later hr

theorem scan_ne_missingArgument {template : String} {input : List Char} {c : Conversion} :
    (scan template input).1 ≠ .error (.missingArgument c) := by
  unfold scan
  split
  · rename_i e hp
    intro heq
    cases heq
    exact pieces_ne_missingArgument hp
  · rename_i ps _
    have read := readAll_ne_missingArgument ((directives ps).map (·.conversion)) input (c := c)
    dsimp only
    cases hr : (readAll ((directives ps).map (·.conversion)) input).1 with
    | ok vs => nofun
    | error e =>
      intro heq
      cases heq
      exact read hr

end Format

theorem harmless_ofFormat {r : Except Format.Error α} (h : ∀ c, r ≠ .error (.missingArgument c))
    (pos : Position) : Harmless (ofFormat pos r) := by
  cases r with
  | ok a => exact harmless_pure a
  | error e =>
    cases e with
    | missingArgument c => exact absurd rfl (h c)
    | _ => exact harmless_fail rfl pos

/-! Places -/

theorem Memory.Fault.isInternal_cause (f : Memory.Fault) (a : Address) :
    (f.cause a).isInternal = false := by
  cases f <;> rfl

theorem harmless_requireDefined (v : Value) (e : Expr) : Harmless (requireDefined v e) := by
  unfold requireDefined
  split
  · exact harmless_pure v
  · exact harmless_fail rfl _

theorem harmless_convertTo (t : CType) (v : Value) (pos : Position) : Harmless (convertTo t v pos) := by
  unfold convertTo
  split
  · exact harmless_pure _
  · exact harmless_fail rfl _

theorem harmless_requirePointer (v : Value) (pos : Position) : Harmless (requirePointer v pos) := by
  unfold requirePointer
  split
  · exact harmless_pure _
  · exact harmless_fail rfl _

theorem harmless_liveAllocation (a : Address) (pos : Position) : Harmless (liveAllocation a pos) := by
  refine harmless_environment.bind fun env => ?_
  split
  · exact harmless_pure _
  · exact harmless_fail (Memory.Fault.isInternal_cause _ _) _

theorem harmless_storeSlot (a : Address) (v : Value) (pos : Position) : Harmless (storeSlot a v pos) := by
  intro m
  have environment : environment m = .ok m.env m := rfl
  unfold Ensures storeSlot
  rw [bind_ok environment]
  cases written : m.env.memory.write a v with
  | ok memory =>
    obtain ⟨-, rfl⟩ := Memory.write_eq_ok written
    exact Memory.SameTypes.refl m.env.memory
  | error fault => exact Memory.Fault.isInternal_cause _ _

theorem harmless_atFileScope : Harmless atFileScope :=
  harmless_environment.bind fun _ => harmless_pure _

namespace Place

theorem harmless_elementsBehind (v : Value) (pos : Position) : Harmless (elementsBehind v pos) := by
  refine (harmless_requirePointer v pos).bind fun start => (harmless_liveAllocation start pos).bind
    fun al => ?_
  split
  · exact harmless_fail rfl _
  · exact harmless_pure _

theorem harmless_element (es : Elements) (index : Value) (pos : Position) :
    Harmless (element es index pos) := by
  unfold element
  split
  · exact harmless_fail rfl _
  · split
    · exact harmless_fail rfl _
    · exact harmless_pure _

theorem harmless_behind (v : Value) (pos : Position) : Harmless (behind v pos) :=
  (harmless_requirePointer v pos).bind fun target => (harmless_liveAllocation target pos).bind
    fun _ => harmless_pure _

theorem harmless_requireStruct (place : Place) (pos : Position) : Harmless (requireStruct place pos) := by
  unfold requireStruct
  split
  · exact harmless_pure _
  · exact harmless_fail rfl _

theorem harmless_read (place : Place) (e : Expr) : Harmless (read place e) := by
  unfold read
  split
  · exact harmless_pure _
  · refine harmless_environment.bind fun env => ?_
    split
    · exact harmless_fail (Memory.Fault.isInternal_cause _ _) _
    · split
      · exact harmless_pure _
      · exact harmless_fail rfl _

theorem harmless_readScalar (place : Place) (e : Expr) : Harmless (readScalar place e) := by
  unfold readScalar
  split
  · exact harmless_fail rfl _
  · exact harmless_read place e

theorem harmless_write (place : Place) (v : Value) (pos : Position) : Harmless (write place v pos) := by
  unfold write
  split
  · exact harmless_fail rfl _
  · exact (harmless_convertTo _ _ _).bind fun stored => (harmless_storeSlot _ _ _).bind
      fun _ => harmless_pure stored

end Place

theorem harmless_stepPlace (op : StepOp) (place : Place) (operand : Expr) (pos : Position) :
    Harmless (stepPlace op place operand pos) :=
  (Place.harmless_read place operand).bind fun _ =>
    (harmless_ofCause (fun _ => Arith.isInternal_eval) pos).bind fun _ =>
      (Place.harmless_write place _ pos).bind fun _ => harmless_pure _

/-! Output, input and heap nodes -/

theorem harmless_printFormatted (format : String) (values : List Value) (pos : Position) :
    Harmless (printFormatted format values pos) :=
  (harmless_ofFormat (fun _ => Format.output_ne_missingArgument) pos).bind fun text =>
    (harmless_print text).bind fun _ => harmless_pure _

theorem harmless_checkTargets (pos : Position) (cs : List Format.Conversion) (ps : List Place) :
    Harmless (checkTargets pos cs ps) := by
  induction cs generalizing ps with
  | nil => exact harmless_pure _
  | cons c cs ih =>
    cases ps with
    | nil => exact harmless_pure _
    | cons p ps =>
      unfold checkTargets
      split
      · exact harmless_fail rfl _
      · exact ih ps

theorem harmless_storeAll (pos : Position) (vs : List Value) (ps : List Place) (es : List Expr) :
    Harmless (storeAll pos vs ps es) := by
  induction vs generalizing ps es with
  | nil => exact harmless_pure _
  | cons v vs ih =>
    cases ps with
    | nil => exact harmless_pure _
    | cons p ps =>
      cases es with
      | nil => exact harmless_pure _
      | cons e es =>
        exact (Place.harmless_write p v pos).bind fun _ => (ih ps es).bind fun _ => harmless_pure _

theorem harmless_readFormatted (format : String) (targets : List Expr) (places : List Place)
    (pos : Position) : Harmless (readFormatted format targets places pos) := by
  refine harmless_get.bind fun m => (harmless_setInput _).bind fun _ =>
    (harmless_ofFormat (fun _ => Format.scan_ne_missingArgument) pos).bind fun scan => ?_
  have rest : Harmless (do
      checkTargets pos scan.conversions places
      let bound ← storeAll pos scan.values places targets
      pure (⟨scan.result, bound⟩ : Reading)) :=
    (harmless_checkTargets _ _ _).bind fun _ => (harmless_storeAll _ _ _ _).bind fun _ => harmless_pure _
  dsimp only
  split
  · exact (harmless_fail rfl _).bind fun _ => rest
  · exact rest

/-- A node is freed with one argument. -/
theorem harmless_freeNode {args : List Value} (one : args.length = 1) (pos : Position) :
    Harmless (freeNode args pos) := by
  obtain ⟨v, rfl⟩ := List.length_eq_one_iff.mp one
  unfold freeNode
  split
  · split
    · exact harmless_pure _
    · refine harmless_environment.bind fun env => ?_
      split
      · exact harmless_fail rfl _
      · split
        · refine (harmless_changeEnvironment fun env => ?_).bind fun _ => harmless_pure _
          exact env.memory.sameTypes_retire _
        · exact harmless_fail rfl _
  · exact harmless_fail rfl _
  · rename_i more
    exact absurd rfl (more v)

end Stepwise
