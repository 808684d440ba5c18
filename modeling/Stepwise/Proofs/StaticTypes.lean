import Stepwise.Proofs.Effects
import Stepwise.Proofs.Places

/-! The types that `sizeof` finds, against the values that evaluating gives. A variable, an element of an array
and what a call returns are worth values of their types, since slots and returns convert what they take; the
operators give what their types say of operands like these; and whatever one operand does, the names in the
next one stand for the same variables. -/

namespace Stepwise

open Run

variable {α β : Type} {s : Setting} {call : CallHandler} {m m' : Machine} {n : Nat}

/-! The shapes of values -/

namespace Value

/-- A value of the shape of a type, as operators see it: a character literal is one of `int`. -/
def Suits (v : Value) (t : CType) : Prop := v.Fits t ∨ t = .int ∧ ∃ c, v = char c

variable {v : Value} {t : CType}

theorem Suits.isPointer (h : v.Suits t) (hv : v.isDefined) : t.isPointer = v.toAddress?.isSome := by
  obtain h | ⟨rfl, c, rfl⟩ := h
  · cases v with
    | undefined => cases hv
    | address a => exact h
    | float x => obtain rfl | rfl := h <;> rfl
    | int | char =>
      cases h
      rfl
  · rfl

theorem Suits.isFloating (h : v.Suits t) (hv : v.isDefined) (ha : v.toAddress? = none) :
    t.isFloating = v.toInt?.isNone := by
  obtain h | ⟨rfl, c, rfl⟩ := h
  · cases v with
    | undefined => cases hv
    | address a => cases ha
    | float x => obtain rfl | rfl := h <;> rfl
    | int | char =>
      cases h
      rfl
  · rfl

end Value

theorem Value.toAddress?_eq_none {v : Value} (h : ∀ a, v ≠ .address a) : v.toAddress? = none := by
  cases v with
  | address a => exact absurd rfl (h a)
  | _ => rfl

namespace Arith

inductive Gives : Value → Value → Value → Prop where
  | distance (a b : Address) (n : Int32) : Gives (.address a) (.address b) (.int n)
  | right (a b : Address) {r : Value} : r.toAddress? = none → Gives (.address a) r (.address b)
  | left (a b : Address) {l : Value} : l.toAddress? = none → Gives l (.address a) (.address b)
  | int {l r : Value} (n : Int32) : l.toAddress? = none → r.toAddress? = none →
      (l.toInt?.isNone || r.toInt?.isNone) = false → Gives l r (.int n)
  | float {l r : Value} (x : Float) : l.toAddress? = none → r.toAddress? = none →
      (l.toInt?.isNone || r.toInt?.isNone) = true → Gives l r (.float x)

variable {op : Arith} {l r v : Value}

theorem gives_of_eval (h : op.eval l r = .ok v) : Gives l r v := by
  unfold eval at h
  dsimp only at h
  split at h
  · split at h
    · cases h
      exact .distance ..
    · cases h
  · rename_i other
    split at h
    · cases h
      exact .right _ _ (Value.toAddress?_eq_none other)
    · cases h
      exact .right _ _ (Value.toAddress?_eq_none other)
    · cases h
  · rename_i other
    split at h
    · cases h
      exact .left _ _ (Value.toAddress?_eq_none other)
    · cases h
  · rename_i left right _
    have al := Value.toAddress?_eq_none left
    have ar := Value.toAddress?_eq_none right
    split at h
    · rename_i il ir
      cases hn : op.onInts _ _ with
      | error c =>
        rw [hn] at h
        cases h
      | ok n =>
        rw [hn] at h
        cases h
        exact .int n al ar (by rw [il, ir]; rfl)
    · rename_i floating
      have some : (l.toInt?.isNone || r.toInt?.isNone) = true := by
        cases il : l.toInt? with
        | none => rfl
        | some a =>
          cases ir : r.toInt? with
          | none => rfl
          | some b => exact absurd ir (floating a b il)
      split at h
      · split at h
        · rename_i result _
          cases result with
          | error c => cases h
          | ok x =>
            cases h
            exact .float x al ar some
        · cases h
      · cases h

/-- The type of an operation is that of its result. -/
theorem eval_fits {tl tr : CType} (hl : l.Suits tl) (hr : r.Suits tr) (dl : l.isDefined) (dr : r.isDefined)
    (h : op.eval l r = .ok v) : v.Fits (arithType tl tr) := by
  have pl := hl.isPointer dl
  have pr := hr.isPointer dr
  unfold arithType
  rw [pl, pr]
  cases gives_of_eval h with
  | distance a b n => rfl
  | right a b ar =>
    rw [ar]
    exact pl
  | left a b al =>
    rw [al]
    exact pr
  | int n al ar both =>
    rw [al, ar, hl.isFloating dl al, hr.isFloating dr ar, both]
    rfl
  | float x al ar either =>
    rw [al, ar, hl.isFloating dl al, hr.isFloating dr ar, either]
    exact .inr rfl

end Arith

/-- A number and its opposite have the same shape, but characters are taken as integers. -/
theorem UnOp.neg_fits {v w : Value} {t : CType} (hv : v.Suits t) (dv : v.isDefined)
    (h : UnOp.neg.eval v = .ok w) : w.Fits (if t.isFloating then t else .int) := by
  cases v with
  | undefined => cases dv
  | address a => cases h
  | int | char =>
    rw [hv.isFloating dv rfl]
    cases h
    rfl
  | float x =>
    rw [hv.isFloating dv rfl]
    cases h
    obtain fits | ⟨-, c, char⟩ := hv
    · exact fits
    · cases char

/-! What functions return -/

/-- A piece that leaves its function only with a value of the type that the function returns. -/
def Leaving (returns : CType) (x : Run Flow) : Prop :=
  ∀ m v m', x m = .ok (.leave v) m' → v.Fits returns

namespace Leaving

variable {returns : CType}

/-- What came before does not matter. -/
theorem after {x : Run α} {f : α → Run Flow} (hf : ∀ a, Leaving returns (f a)) : Leaving returns (x >>= f) := by
  intro m v m' h
  obtain ⟨a, m₁, -, h⟩ := bind_eq_ok h
  exact hf a m₁ v m' h

theorem flow {x : Run Flow} {f : Flow → Run Flow} (hx : Leaving returns x)
    (hf : ∀ flow, (∀ v, flow = .leave v → v.Fits returns) → Leaving returns (f flow)) :
    Leaving returns (x >>= f) := by
  intro m v m' h
  obtain ⟨flow, m₁, ended, h⟩ := bind_eq_ok h
  exact hf flow (fun w leaves => hx m w m₁ (leaves ▸ ended)) m₁ v m' h

theorem pure {flow : Flow} (h : ∀ v, flow = .leave v → v.Fits returns) :
    Leaving returns (Pure.pure flow) := by
  intro m v m' ended
  cases ended
  exact h v rfl

theorem normal : Leaving returns (Pure.pure .normal) := .pure fun _ h => (nomatch h)

theorem inBlock {body : Run Flow} (h : Leaving returns body) : Leaving returns (inBlock body) :=
  after fun _ => h.flow fun _ leaves => after fun _ => .pure leaves

theorem loop {test : Run Bool} {body : Run Flow} {update : Run Unit} (h : Leaving returns body) (fuel : Nat) :
    Leaving returns (Stepwise.loop test body update fuel) := by
  induction fuel with
  | zero => intro m v m' ended; cases ended
  | succ fuel ih =>
    refine after fun holds => ?_
    cases holds with
    | false => exact normal
    | true =>
      refine h.flow fun flow leaves => ?_
      cases flow with
      | normal | continueLoop => exact after fun _ => ih
      | breakLoop => exact normal
      | leave v => exact .pure leaves

end Leaving

theorem leaveWith_leaving (s : Setting) (call : CallHandler) (returns : CType) (value : Option Expr)
    (pos : Position) : Leaving returns (leaveWith s call returns value pos) := by
  intro m v m' h
  obtain ⟨w, m₁, found, h⟩ := bind_eq_ok h
  obtain rfl : w = v := by
    split at h
    · obtain ⟨_, m₂, -, h⟩ := bind_eq_ok h
      cases h
      rfl
    · obtain ⟨_, m₂, -, h⟩ := bind_eq_ok h
      cases h
      rfl
  cases value with
  | none =>
    cases found
    trivial
  | some e =>
    unfold returnedValue at found
    dsimp only at found
    split at found
    · cases found
    · obtain ⟨x, m₃, -, converted⟩ := bind_eq_ok found
      exact Value.fits_of_convert (convertTo_eq_ok converted).1

mutual

theorem runStmt_leaving (s : Setting) (call : CallHandler) (returns : CType) (stmt : Stmt) :
    Leaving returns (runStmt s call returns stmt) := by
  cases stmt with
  | simple c => exact .after fun _ => .normal
  | block body pos => exact (runStmts_leaving s call returns body).inBlock
  | branch cond yes no pos =>
    -- the statement only unfolds once it is known whether there is an `else`
    cases no with
    | none =>
      refine .after fun holds => ?_
      cases holds with
      | true => exact .after fun _ => (runStmts_leaving s call returns yes).inBlock
      | false => exact .normal
    | some no =>
      refine .after fun holds => ?_
      cases holds with
      | true => exact .after fun _ => (runStmts_leaving s call returns yes).inBlock
      | false => exact .after fun _ => (runStmts_leaving s call returns no).inBlock
  | whileLoop cond body pos => exact .loop (runStmts_leaving s call returns body).inBlock _
  | forLoop init cond update body pos =>
    exact .inBlock (.after fun _ => .loop (runStmts_leaving s call returns body).inBlock _)
  | leave value pos => exact leaveWith_leaving s call returns value pos
  | breakLoop pos | continueLoop pos => exact .after fun _ => .pure fun _ h => (nomatch h)

theorem runStmts_leaving (s : Setting) (call : CallHandler) (returns : CType) (stmts : List Stmt) :
    Leaving returns (runStmts s call returns stmts) := by
  cases stmts with
  | nil => exact .normal
  | cons stmt rest =>
    refine (runStmt_leaving s call returns stmt).flow fun flow leaves => ?_
    cases flow with
    | normal => exact runStmts_leaving s call returns rest
    | breakLoop | continueLoop | leave => exact .pure leaves

end

/-- A call is worth a value of the type that its function returns, or none. -/
theorem call_fits {f : Function} (main : f.name = "main" → f.returns = .int) {args : List Value}
    {pos : Position} {v : Value} (h : s.handlerWithin n f args pos m = .ok v m') : v.Fits f.returns := by
  cases n with
  | zero => cases h
  | succ n =>
    obtain ⟨⟨⟩, m₁, -, h⟩ := bind_eq_ok h
    obtain ⟨⟨⟩, m₂, -, h⟩ := bind_eq_ok h
    obtain ⟨w, m₃, body, h⟩ := bind_eq_ok h
    obtain ⟨⟨⟩, m₄, -, h⟩ := bind_eq_ok h
    cases h
    obtain ⟨flow, m₅, ran, body⟩ := bind_eq_ok body
    -- only `main` returns a value without saying so
    have fallback : f.fallback.Fits f.returns := by
      unfold Function.fallback
      split
      · rw [main ‹_›]
        rfl
      · trivial
    cases flow with
    | leave w =>
      cases body
      exact runStmts_leaving _ _ _ _ _ _ _ ran
    | normal | breakLoop | continueLoop =>
      obtain ⟨⟨⟩, m₆, -, body⟩ := bind_eq_ok body
      cases body
      exact fallback

/-! What names stand for -/

def Environment.KeepsNames (env env' : Environment) : Prop :=
  ∀ name pos al, env.variable name pos = .ok al → env'.variable name pos = .ok al

/-- A type that was found is found again. -/
theorem staticType_keeps {env env' : Environment} (names : env.KeepsNames env') (e : Expr) {t : StaticType}
    (h : staticType s env e = .ok t) : staticType s env' e = .ok t := by
  have next {e : Expr} {g : StaticType → Except Fault StaticType}
      (ih : ∀ t, staticType s env e = .ok t → staticType s env' e = .ok t)
      (h : staticType s env e >>= g = .ok t) : staticType s env' e >>= g = .ok t := by
    obtain ⟨r, found, h⟩ := exists_ok_of_bind h
    rw [ih r found]
    exact h
  cases e with
  | var name pos =>
    obtain ⟨al, found, h⟩ := exists_ok_of_bind h
    rw [staticType, names name pos al found]
    exact h
  | index array index pos => exact next (fun _ => staticType_keeps names array) h
  | deref operand pos => exact next (fun _ => staticType_keeps names operand) h
  | field object name arrow pos => exact next (fun _ => staticType_keeps names object) h
  | addressOf operand pos => exact next (fun _ => staticType_keeps names operand) h
  | step op operand pos => exact next (fun _ => staticType_keeps names operand) h
  | unary op operand pos =>
    cases op with
    | neg => exact next (fun _ => staticType_keeps names operand) h
    | not => exact h
  | binary op left right pos =>
    cases op with
    | arith op =>
      obtain ⟨l, found, h⟩ := exists_ok_of_bind h
      rw [staticType, staticType_keeps names left found]
      exact next (fun _ => staticType_keeps names right) h
    | compare op | connect op => exact h
  | _ => exact h

/-- However an expression is evaluated, names stand for the same variables afterwards. -/
theorem evalExpr_keepsNames (hs : s.Sensible) (hm : Reached s m) (hb : m'.env.memory.InBounds) {e : Expr}
    {v : Value} (h : evalExpr s (s.handlerWithin n) e m = .ok v m') : m.env.KeepsNames m'.env := by
  have onward := evalExpr_onward hs hm h
  have calm : Calm s (evalExpr s (s.handlerWithin n) e) :=
    (Calm.compatibility s).evalExpr_rel (calmCalls_handlerWithin s n) e
  obtain ⟨⟨frames, globals⟩, -⟩ := (calm m.env.frames m.env.globals m ⟨rfl, rfl⟩).ok h
  intro name pos al found
  obtain ⟨a, scope, named, hal⟩ := Environment.variable_eq_ok found
  have same : m'.env.lookup? name = some (a, scope) := by
    rw [← named]
    unfold Environment.lookup? Environment.locals
    rw [frames, globals]
  obtain ⟨kind, live⟩ : al.struct? = none ∧ m.env.memory.liveAt al.base = .ok al := by
    obtain ⟨input, ds, path⟩ := hm
    obtain ⟨layout, made, -, owned, -⟩ := path.owns (onward.later.inBounds hb)
    exact owned.lookup_lives layout named hal
  have lives := ((hm.layout (onward.later.inBounds hb)).of_liveAt live).2.2
  have again := hm.variable_onward onward hb hal lives kind
  unfold Environment.variable
  rw [same]
  dsimp only
  rw [again]

/-! Places -/

def Environment.namesArray (env : Environment) (name : String) (pos : Position) : Bool :=
  (env.variable name pos).toOption.any (·.kind = .array)

theorem Environment.namesArray_iff {env : Environment} {name : String} {pos : Position} :
    env.namesArray name pos ↔ ∃ al, env.variable name pos = .ok al ∧ al.kind = .array := by
  unfold namesArray
  cases env.variable name pos with
  | error f => simp [Except.toOption]
  | ok al => simp [Except.toOption]

/-- Whether the type of an expression comes from nothing that is behind a pointer: there are no dereferences
and no fields, and only variables that are arrays are indexed. -/
def Expr.isDirect (env : Environment) : Expr → Bool
  | .index (.var name pos) _ _ => env.namesArray name pos
  | .index .. | .deref .. | .field .. => false
  | .step _ operand _ | .unary .neg operand _ => operand.isDirect env
  | .binary (.arith _) left right _ => left.isDirect env && right.isDirect env
  | _ => true

theorem Expr.isDirect_keeps {env env' : Environment} (names : env.KeepsNames env') (e : Expr)
    (h : e.isDirect env) : e.isDirect env' := by
  cases e with
  | index array index pos =>
    cases array with
    | var name pos =>
      obtain ⟨al, found, kind⟩ := Environment.namesArray_iff.mp h
      exact Environment.namesArray_iff.mpr ⟨al, names name pos al found, kind⟩
    | _ => cases h
  | step op operand pos => exact isDirect_keeps names operand h
  | unary op operand pos =>
    cases op with
    | neg => exact isDirect_keeps names operand h
    | not => rfl
  | binary op left right pos =>
    cases op with
    | arith op =>
      obtain ⟨hl, hr⟩ := Bool.and_eq_true_iff.mp h
      exact Bool.and_eq_true_iff.mpr ⟨isDirect_keeps names left hl, isDirect_keeps names right hr⟩
    | compare op | connect op => rfl
  | deref | field => cases h
  | _ => rfl

/-- The elements of a variable that is an array have its type. -/
theorem elements_type {name : String} {pos q : Position} {al : Allocation} {value : Run Value}
    {es : Place.Elements} (found : m.env.variable name q = .ok al) (kind : al.kind = .array)
    (h : Place.elements (.var name q) value pos m = .ok es m') : es.type = al.type := by
  obtain ⟨place, m₁, hp, h⟩ := bind_eq_ok h
  obtain ⟨rfl, al', found', rfl⟩ := (Place.inspects_ofName name q).ok hp
  obtain rfl := Except.ok.inj (found.symm.trans found')
  simp only [Allocation.arrayLen, if_pos kind] at h
  cases h
  rfl

/-- A place has the type of the expression that names it. -/
theorem place_type {e : Expr} (direct : e.isDirect m.env) {t : StaticType} (typed : staticType s m.env e = .ok t)
    {p : Place} (h : evalPlace s call e m = .ok p m') : t = ⟨p.type, p.arrayLen⟩ := by
  cases e with
  | var name pos =>
    obtain ⟨rfl, al, found, rfl⟩ := (Place.inspects_ofName name pos).ok h
    rw [staticType, found] at typed
    cases typed
    rfl
  | index array index pos =>
    cases array with
    | var name q =>
      obtain ⟨al, found, kind⟩ := Environment.namesArray_iff.mp direct
      obtain ⟨es, m₁, hes, h⟩ := bind_eq_ok h
      obtain ⟨v, m₂, -, h⟩ := bind_eq_ok h
      obtain ⟨rfl, i, -, -, -, rfl⟩ := (Place.inspects_element es v pos).ok h
      obtain ⟨whole, named, typed⟩ := exists_ok_of_bind typed
      rw [staticType, found] at named
      cases named
      have element : StaticType.element? ⟨al.type, al.arrayLen⟩ = some al.type := by
        simp only [StaticType.element?, Allocation.arrayLen, if_pos kind]
      rw [element] at typed
      cases typed
      rw [← elements_type found kind hes]
      rfl
    | _ => cases direct
  | deref | field => cases direct
  | _ => cases h

theorem Reached.typed (hm : Reached s m) (hb : m.env.memory.InBounds) : m.env.memory.Typed := by
  obtain ⟨input, ds, path⟩ := hm
  exact (path.storage .empty hb).2.2 .empty

/-- What is read at a place has its type; a whole array is worth its address. -/
theorem Place.read_fits (hm : Reached s m) (hb : m.env.memory.InBounds) {p : Place}
    (live : p.Live m.env.memory) {e : Expr} {v : Value} (h : p.read e m = .ok v m') :
    v.Fits (StaticType.decayed ⟨p.type, p.arrayLen⟩) := by
  cases array : p.arrayLen with
  | some len =>
    unfold Place.read at h
    rw [array] at h
    cases h
    exact decide_eq_true (Nat.succ_pos _)
  | none =>
    obtain ⟨held, -⟩ := Place.read_eq_ok array h
    obtain ⟨al, hal, type⟩ := live hb
    obtain ⟨found, inside, lives⟩ := (hm.layout hb).of_liveAt hal
    rw [Memory.read, hal] at held
    cases held
    show (m.env.memory.cell p.address).Fits p.type
    rw [type]
    exact hm.typed hb _ al _ found lives inside

/-- Both values of a step have the type of its place. -/
theorem stepPlace_fits (hm : Reached s m) (hb : m'.env.memory.InBounds) {op : StepOp} {p : Place}
    (live : p.Live m.env.memory) {operand : Expr} {pos : Position} {r : Value × Value}
    (h : stepPlace op p operand pos m = .ok r m') :
    r.1.Fits (StaticType.decayed ⟨p.type, p.arrayLen⟩) := by
  obtain ⟨old, m₁, read, more⟩ := bind_eq_ok h
  obtain rfl := (p.looks_read operand).ok read
  obtain ⟨new, m₂, applied, rest⟩ := bind_eq_ok more
  obtain rfl := (looks_ofCause pos _).ok applied
  obtain ⟨stored, m₃, written, last⟩ := bind_eq_ok rest
  cases last
  obtain ⟨single, converted, rfl⟩ := Place.write_eq_ok written
  dsimp only
  split
  · exact Place.read_fits hm ⟨hb.stack, hb.heap⟩ live read
  · rw [single]
    exact Value.fits_of_convert converted

/-! Expressions -/

theorem freeNode_undefined {args : List Value} {pos : Position} {v : Value}
    (h : freeNode args pos m = .ok v m') : v = .undefined := by
  unfold freeNode at h
  split at h
  · split at h
    · cases h
      rfl
    · obtain ⟨env, m₁, -, h⟩ := bind_eq_ok h
      cases found : (env.memory.allocation? _).filter (·.struct?.isSome) with
      | none =>
        rw [found] at h
        cases h
      | some al =>
        rw [found] at h
        dsimp only at h
        split at h
        · obtain ⟨⟨⟩, m₂, -, h⟩ := bind_eq_ok h
          cases h
          rfl
        · cases h
  · cases h
  · cases h

/-- The value has the shape of the type, unless it is that of a character literal. -/
def Expr.Agrees (e : Expr) (t : StaticType) (v : Value) : Prop :=
  (∃ c pos, e = .char c pos ∧ t = .ofType .int ∧ v = .char c) ∨ v.Fits t.decayed

theorem Expr.Agrees.suits {e : Expr} {t : StaticType} {v : Value} (h : e.Agrees t v) : v.Suits t.decayed := by
  obtain ⟨c, pos, -, rfl, rfl⟩ | fits := h
  · exact .inr ⟨rfl, c, rfl⟩
  · exact .inl fits

theorem newNode_address {struct : String} {pos : Position} {v : Value}
    (h : newNode s struct pos m = .ok v m') : ∃ a, v = .address a := by
  unfold newNode at h
  cases found : s.structs.find? struct with
  | none =>
    rw [found] at h
    cases h
  | some d =>
    rw [found] at h
    obtain ⟨env, m₁, -, h⟩ := bind_eq_ok h
    obtain ⟨⟨⟩, m₂, -, h⟩ := bind_eq_ok h
    cases h
    exact ⟨_, rfl⟩

/-- An operand is evaluated and has a value before anything else is done. -/
theorem operand_eq_ok {e : Expr} {f : Value → Run β} {b : β}
    (h : (do f (← requireDefined (← evalExpr s call e) e)) m = .ok b m') :
    ∃ v m₁, evalExpr s call e m = .ok v m₁ ∧ v.isDefined ∧ f v m₁ = .ok b m' := by
  obtain ⟨v, m₁, found, more⟩ := bind_eq_ok h
  obtain ⟨w, m₂, checked, rest⟩ := bind_eq_ok more
  obtain ⟨rfl, rfl, defined⟩ := (inspects_requireDefined v e).ok checked
  exact ⟨w, m₂, found, defined, rest⟩

theorem Comparison.exists_int {op : Comparison} {l r v : Value} (h : op.eval l r = .ok v) :
    ∃ k, v = .int k := by
  unfold Comparison.eval at h
  cases ordered : op.order l r with
  | error c =>
    rw [ordered] at h
    cases h
  | ok order =>
    rw [ordered] at h
    cases h
    exact ⟨_, rfl⟩

theorem Connective.exists_int {op : Connective} {l r v : Value} (h : op.eval l r = .ok v) :
    ∃ k, v = .int k := by
  unfold Connective.eval at h
  split at h
  · cases h
    exact ⟨_, rfl⟩
  · cases h

theorem Connective.settled_int {op : Connective} {l v : Value} (h : op.settled? l = some v) :
    ∃ k, v = .int k := by
  unfold Connective.settled? at h
  split at h
  · cases h
    exact ⟨_, rfl⟩
  · cases h
    exact ⟨_, rfl⟩
  · cases h

theorem UnOp.not_int {v w : Value} (h : UnOp.not.eval v = .ok w) : ∃ k, w = .int k := by
  unfold UnOp.eval at h
  dsimp only at h
  split at h
  · cases h
    exact ⟨_, rfl⟩
  · cases h

section

variable (hs : s.Sensible) {m m' : Machine} (hm : Reached s m) {e : Expr} (direct : e.isDirect m.env)
  {t : StaticType} (typed : staticType s m.env e = .ok t)

include hs hm direct

theorem live_of_direct {p : Place} (h : evalPlace s (s.handlerWithin n) e m = .ok p m') :
    p.Live m'.env.memory := by
  obtain live | ⟨⟨operand, pos, rfl⟩, -⟩ := evalPlace_live hs hm h
  · exact live
  · cases direct

include typed

/-- A variable or an element of an array is worth a value of its type. -/
theorem place_agrees (isPlace : e.isPlace) (hb : m'.env.memory.InBounds) {v : Value}
    (h : evalExpr s (s.handlerWithin n) e m = .ok v m') : v.Fits t.decayed := by
  rw [evalExpr_of_isPlace s _ isPlace] at h
  obtain ⟨p, m₁, named, read⟩ := bind_eq_ok h
  obtain rfl := (p.looks_readScalar e).ok read
  obtain rfl := place_type direct typed named
  have reached := hm.path (evalPlace_onward hs hm named).later
  unfold Place.readScalar at read
  split at read
  · cases read
  · exact Place.read_fits reached hb (live_of_direct hs hm direct named) read

end

section

variable (main : ∀ f, s.function? "main" = some f → f.returns = .int)

include main

theorem callByName_fits {name : String} {f : Function} (found : s.function? name = some f)
    {args : List Value} {pos : Position} {v : Value}
    (h : callByName s (s.handlerWithin n) name args pos m = .ok v m') (defined : v.isDefined) :
    v.Fits f.returns := by
  unfold callByName at h
  split at h
  · obtain rfl := freeNode_undefined h
    cases defined
  · rw [found] at h
    refine call_fits (fun same => main f ?_) h
    have named : f.name = name := by simpa using List.find?_some found
    rw [← same, named]
    exact found

end

/-! Expressions, one kind after the other -/

/-- From a state that a run can be in, an expression comes to values of the type that it has there. -/
def Expr.TypeHolds (s : Setting) (n : Nat) (e : Expr) : Prop :=
  ∀ ⦃m m' : Machine⦄, Reached s m → m'.env.memory.InBounds → e.isDirect m.env → ∀ ⦃t : StaticType⦄,
    staticType s m.env e = .ok t → ∀ ⦃v : Value⦄, evalExpr s (s.handlerWithin n) e m = .ok v m' →
    v.isDefined → e.Agrees t v

namespace Expr.TypeHolds

variable {left right operand : Expr} {pos : Position}

theorem constant {e : Expr} {t : StaticType} {v : Value} (typed : ∀ env, staticType s env e = .ok t)
    (worth : evalExpr s (s.handlerWithin n) e = pure v) (agrees : e.Agrees t v) : e.TypeHolds s n := by
  intro m m' _ _ _ t' typed' v' h _
  rw [typed] at typed'
  rw [worth] at h
  cases typed'
  cases h
  exact agrees

/-- Truth values, sizes and counts are integers whatever they come from. -/
theorem integer {e : Expr} (typed : ∀ env, staticType s env e = .ok (.ofType .int))
    (worth : ∀ {m m' v}, evalExpr s (s.handlerWithin n) e m = .ok v m' → ∃ k, v = .int k) :
    e.TypeHolds s n := by
  intro m m' _ _ _ t typed' v h _
  rw [typed] at typed'
  cases typed'
  obtain ⟨k, rfl⟩ := worth h
  exact .inr rfl

theorem place (hs : s.Sensible) {e : Expr} (isPlace : e.isPlace) : e.TypeHolds s n :=
  fun _ _ hm hb direct _ typed _ h _ => .inr (place_agrees hs hm direct typed isPlace hb h)

theorem arith (hs : s.Sensible) {op : Arith} (hl : left.TypeHolds s n) (hr : right.TypeHolds s n) :
    (Expr.binary (.arith op) left right pos).TypeHolds s n := by
  intro m m' hm hb direct t typed v h _
  obtain ⟨tl, typedLeft, typed⟩ := exists_ok_of_bind typed
  obtain ⟨tr, typedRight, typed⟩ := exists_ok_of_bind typed
  cases typed
  obtain ⟨directLeft, directRight⟩ := Bool.and_eq_true_iff.mp direct
  obtain ⟨l, m₁, first, dl, h⟩ := operand_eq_ok h
  obtain ⟨r, m₂, second, dr, h⟩ := operand_eq_ok h
  obtain ⟨rfl, result⟩ := (inspects_ofCause pos _).ok h
  have hm₁ := hm.path (evalExpr_onward hs hm first).later
  have hb₁ := (evalExpr_onward hs hm₁ second).later.inBounds hb
  -- whatever the left side did, the right side has the type that it had before
  have names := evalExpr_keepsNames hs hm hb₁ first
  have agreesLeft := hl hm hb₁ directLeft typedLeft first dl
  have agreesRight := hr hm₁ hb (Expr.isDirect_keeps names right directRight)
    (staticType_keeps names right typedRight) second dr
  exact .inr (Arith.eval_fits agreesLeft.suits agreesRight.suits dl dr result)

theorem compare {op : Comparison} : (Expr.binary (.compare op) left right pos).TypeHolds s n := by
  refine .integer (fun _ => rfl) fun h => ?_
  obtain ⟨l, m₁, -, -, h⟩ := operand_eq_ok h
  obtain ⟨r, m₂, -, -, h⟩ := operand_eq_ok h
  obtain ⟨-, result⟩ := (inspects_ofCause pos _).ok h
  exact Comparison.exists_int result

theorem connect {op : Connective} : (Expr.binary (.connect op) left right pos).TypeHolds s n := by
  refine .integer (fun _ => rfl) fun h => ?_
  obtain ⟨l, m₁, -, -, h⟩ := operand_eq_ok h
  cases settled : op.settled? l with
  | some w =>
    rw [settled] at h
    cases h
    exact Connective.settled_int settled
  | none =>
    rw [settled] at h
    obtain ⟨r, m₂, -, -, h⟩ := operand_eq_ok h
    obtain ⟨-, result⟩ := (inspects_ofCause pos _).ok h
    exact Connective.exists_int result

theorem not : (Expr.unary .not operand pos).TypeHolds s n := by
  refine .integer (fun _ => rfl) fun h => ?_
  obtain ⟨w, m₁, -, -, h⟩ := operand_eq_ok h
  obtain ⟨-, result⟩ := (inspects_ofCause pos _).ok h
  exact UnOp.not_int result

theorem neg (ho : operand.TypeHolds s n) : (Expr.unary .neg operand pos).TypeHolds s n := by
  intro m m' hm hb direct t typed v h _
  obtain ⟨t', typed', typed⟩ := exists_ok_of_bind typed
  cases typed
  obtain ⟨w, m₁, hw, dw, h⟩ := operand_eq_ok h
  obtain ⟨rfl, result⟩ := (inspects_ofCause pos _).ok h
  have agrees := ho hm hb direct typed' hw dw
  exact .inr (UnOp.neg_fits agrees.suits dw result)

theorem step (hs : s.Sensible) {op : StepOp} : (Expr.step op operand pos).TypeHolds s n := by
  intro m m' hm hb direct t typed v h _
  obtain ⟨t', typed', typed⟩ := exists_ok_of_bind typed
  cases typed
  obtain ⟨p, m₁, named, h⟩ := bind_eq_ok h
  obtain ⟨r, m₂, stepped, h⟩ := bind_eq_ok h
  cases h
  have direct : operand.isDirect m.env := direct
  obtain rfl := place_type direct typed' named
  have reached := hm.path (evalPlace_onward hs hm named).later
  exact .inr (stepPlace_fits reached hb (live_of_direct hs hm direct named) stepped)

theorem addressOf : (Expr.addressOf operand pos).TypeHolds s n := by
  intro m m' _ _ _ t typed v h _
  obtain ⟨t', -, typed⟩ := exists_ok_of_bind typed
  cases typed
  obtain ⟨p, m₁, -, h⟩ := bind_eq_ok h
  cases h
  exact .inr (decide_eq_true (Nat.succ_pos _))

theorem called (main : ∀ f, s.function? "main" = some f → f.returns = .int) {name : String} {args : List Expr} :
    (Expr.call name args pos).TypeHolds s n := by
  intro m m' _ _ _ t typed v h defined
  obtain ⟨values, m₁, -, h⟩ := bind_eq_ok h
  cases found : s.function? name with
  | none =>
    simp only [staticType, found] at typed
    cases typed
  | some f =>
    simp only [staticType, found] at typed
    cases typed
    exact .inr (callByName_fits main found h defined)

theorem cast {type : CType} : (Expr.cast type operand pos).TypeHolds s n := by
  intro m m' _ _ _ t typed v h _
  cases typed
  obtain ⟨w, m₁, -, -, h⟩ := operand_eq_ok h
  cases converted : w.convert type with
  | none =>
    rw [converted] at h
    cases h
  | some stored =>
    rw [converted] at h
    cases h
    exact .inr (Value.fits_of_convert converted)

theorem newNode {struct : String} : (Expr.newNode struct pos).TypeHolds s n := by
  intro m m' _ _ _ t typed v h _
  cases typed
  obtain ⟨a, rfl⟩ := newNode_address h
  exact .inr rfl

end Expr.TypeHolds

/-- The type of an expression is that of its value. -/
theorem typeHolds (hs : s.Sensible) (main : ∀ f, s.function? "main" = some f → f.returns = .int) (e : Expr) :
    e.TypeHolds s n := by
  cases e with
  | int | null | sizeofType => exact .constant (fun _ => rfl) rfl (.inr rfl)
  | float => exact .constant (fun _ => rfl) rfl (.inr (.inr rfl))
  | char c pos => exact .constant (fun _ => rfl) rfl (.inl ⟨c, pos, rfl, rfl, rfl⟩)
  | var | index => exact .place hs rfl
  | deref | field =>
    intro m m' _ _ direct
    cases direct
  | binary op left right pos =>
    cases op with
    | arith op => exact .arith hs (typeHolds hs main left) (typeHolds hs main right)
    | compare op => exact .compare
    | connect op => exact .connect
  | unary op operand pos =>
    cases op with
    | neg => exact .neg (typeHolds hs main operand)
    | not => exact .not
  | step => exact .step hs
  | addressOf => exact .addressOf
  | call => exact .called main
  | cast => exact .cast
  | newNode => exact .newNode
  | sizeofExpr | print | read =>
    refine .integer (fun _ => rfl) fun h => ?_
    obtain ⟨_, m₁, -, h⟩ := bind_eq_ok h
    obtain ⟨_, m₂, -, h⟩ := bind_eq_ok h
    cases h
    exact ⟨_, rfl⟩

/-- The types that `sizeof` finds are those of the values. In every state that a run of an accepted program can
be in, those of its steps among them, and as long as addresses have not run out: if an expression takes its
type from nothing behind a pointer, that type is found, and evaluating it gives a defined value, then the
value has the shape of the type, the address of a whole array included. Only a character literal is worth a
character and has the type `int`. -/
theorem static_types_agree {source : String} {p : Program} (accepted : Program.parse source = .ok p)
    (main : ∀ f ∈ p.functions, f.name = "main" → f.returns = .int) (limits : Limits) (cancelled : Bool) :
    let s := Setting.ofProgram p source limits cancelled
    (∀ input, ∀ x ∈ (p.run s input).1, ∃ m, m.env = x.env ∧ Reached s m) ∧
    ∀ m n e t v m', Reached s m → e.isDirect m.env → staticType s m.env e = .ok t →
      evalExpr s (s.handlerWithin n) e m = .ok v m' → m'.env.memory.InBounds → v.isDefined →
      e.Agrees t v := by
  intro s
  constructor
  · intro input x hx
    obtain ⟨ds, m, -, env, path⟩ := p.run_moment accepted hx
    exact ⟨m, env, input, ds, path⟩
  · intro m n e t v m' hm direct typed h hb defined
    have sensible := p.sensible_functions accepted limits cancelled
    have int (f : Function) (found : s.function? "main" = some f) : f.returns = .int :=
      main f (List.mem_of_find?_eq_some found) (by simpa using List.find?_some found)
    exact typeHolds sensible int e hm hb direct typed h defined

/-- A character of an array grows by one; the call that tells its number has just stored it and returns what
`main` ends with. The address of the array moves by the distance of such a character from a literal. -/
theorem static_types_agree_called :
    let source := "char a[3] = \x7b65, 66, 67\x7d; " ++
      "int put(char c) \x7b a[0] = c; return main(); \x7d int main() \x7b \x7d"
    let pos : Position := ⟨1, 1⟩
    let number : Expr := .call "put" [.int 353 pos] pos
    let grown : Expr := .step .postInc (.index (.var "a" pos) number pos) pos
    let moved : Expr := .binary (.arith .add) (.var "a" pos) (.binary (.arith .sub) grown (.char 97 pos) pos) pos
    ∃ p, Program.parse source = .ok p ∧
      let s := Setting.ofProgram p source ⟨100, 9, 99999⟩ false
      ∃ m, Reached s m ∧ ∀ e ∈ [(grown, CType.mk .char 0), (moved, CType.mk .char 1)],
        ∃ t v m', t.decayed = e.2 ∧ staticType s m.env e.1 = .ok t ∧
          evalExpr s (s.handlerWithin 3) e.1 m = .ok v m' ∧ v.isDefined ∧ e.1.Agrees t v := by
  intro source pos number grown moved
  have facts : (Program.parse source).toOption.any (fun p =>
      let s := Setting.ofProgram p source ⟨100, 9, 99999⟩ false
      (∀ f ∈ p.functions, f.name = "main" → f.returns = .int) ∧
      Ensures (runGlobals s p.globals) (.start "") (fun _ m =>
        ∀ e ∈ [(grown, CType.mk .char 0), (moved, CType.mk .char 1)],
          e.1.isDirect m.env ∧ (staticType s m.env e.1).toOption.any (·.decayed = e.2) ∧
          Ensures (evalExpr s (s.handlerWithin 3) e.1) m
            (fun v m' => m'.env.memory.InBounds ∧ v.isDefined) (fun _ _ => False))
        (fun _ _ => False)) = true := by decide +kernel
  obtain ⟨p, accepted, facts⟩ := Program.exists_of_any facts
  obtain ⟨main, globals⟩ := of_decide_eq_true facts
  obtain ⟨⟨⟩, m, globals, found⟩ := globals.exists_ok
  have sensible := p.sensible_functions accepted ⟨100, 9, 99999⟩ false
  have reached : Reached (Setting.ofProgram p source ⟨100, 9, 99999⟩ false) m :=
    (Reached.start "").path ((runGlobals_follows sensible (p.sensible_globals accepted) rfl
      (.start "")).ok globals).1
  refine ⟨p, accepted, m, reached, fun e he => ?_⟩
  obtain ⟨direct, typed, evaluated⟩ := found e he
  obtain ⟨v, m', evaluated, bounds, defined⟩ := evaluated.exists_ok
  cases known : staticType (.ofProgram p source ⟨100, 9, 99999⟩ false) m.env e.1 with
  | error f =>
    rw [known] at typed
    cases typed
  | ok t =>
    rw [known] at typed
    have agrees := (static_types_agree accepted main ⟨100, 9, 99999⟩ false).2 m 3 e.1 t v m' reached direct
      known evaluated bounds defined
    exact ⟨t, v, m', of_decide_eq_true typed, rfl, evaluated, defined, agrees⟩

end Stepwise
