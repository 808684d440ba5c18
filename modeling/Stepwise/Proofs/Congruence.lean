import Stepwise.Proofs.Quiet

/-! Running the same code in two settings. A `Compatibility` relates pieces of two runs; it only has to
say what it makes of steady pieces, of output and of one piece after another. Then it relates whatever
evaluating an expression does in the one setting to what it does in the other, provided that it relates
the calls. A `Congruence` says what it makes of quiet pieces, of recording and of loops besides, and
relates whatever statements do. A property of single runs is the case of one setting taken twice. -/

namespace Stepwise

open Run

variable {s s' : Setting} {call call' : CallHandler}

structure Setting.SameCode (s s' : Setting) : Prop where
  functions : s'.functions = s.functions
  structs : s'.structs = s.structs

theorem Setting.SameCode.refl (s : Setting) : s.SameCode s := ⟨rfl, rfl⟩

/-- Two settings of one program that give loops and calls the same fuel. -/
structure Setting.SamePace (s s' : Setting) : Prop extends s.SameCode s' where
  fuel : s'.fuel = s.fuel

theorem Setting.SamePace.refl (s : Setting) : s.SamePace s := ⟨.refl s, rfl⟩

/-- A relation that goes through one piece after another goes through loops too, one of which may have
more fuel than the other if that makes no difference to the relation. -/
theorem loop_rel {Rel : {α : Type} → Run α → Run α → Prop}
    (pure : ∀ {α : Type} (a : α), Rel (pure a) (pure a))
    (bind : ∀ {α β : Type} {x x' : Run α} {f f' : α → Run β},
      Rel x x' → (∀ a, Rel (f a) (f' a)) → Rel (x >>= f) (x' >>= f'))
    {test test' : Run Bool} {body body' : Run Flow} {update update' : Run Unit} (ht : Rel test test')
    (hb : Rel body body') (hu : Rel update update') (more : Nat)
    (stop : Rel (loop test body update 0) (loop test' body' update' more)) (k : Nat) :
    Rel (loop test body update k) (loop test' body' update' (more + k)) := by
  induction k with
  | zero => exact stop
  | succ k ih =>
    refine bind ht fun b => ?_
    cases b with
    | false => exact pure _
    | true =>
      refine bind hb fun flow => ?_
      cases flow with
      | normal => exact bind hu fun _ => ih
      | continueLoop => exact bind hu fun _ => ih
      | breakLoop => exact pure _
      | leave v => exact pure _

/-- A relation between pieces of runs in two settings that evaluating expressions respects. -/
structure Compatibility (s s' : Setting) where
  Rel : {α : Type} → Run α → Run α → Prop
  code : s.SameCode s'
  steady : ∀ {α : Type} {x : Run α}, Steady x → Rel x x
  output : ∀ format values pos,
    Rel (printFormatted format values pos) (printFormatted format values pos)
  bind : ∀ {α β : Type} {x x' : Run α} {f f' : α → Run β},
    Rel x x' → (∀ a, Rel (f a) (f' a)) → Rel (x >>= f) (x' >>= f')

/-- A relation between pieces of runs in two settings that running statements respects. -/
structure Congruence (s s' : Setting) extends Compatibility s s' where
  quiet : ∀ {α : Type} {x : Run α}, Quiet x → Rel x x
  steady hx := quiet hx.quiet
  record : ∀ line description returned,
    Rel (Run.record s line description returned) (Run.record s' line description returned)
  /-- A loop whose test records a step when its condition has been found. -/
  loop : ∀ {test test' : Run Bool} {body body' : Run Flow} {update update' : Run Unit} {line : Nat}
    {text : Bool → String}, Rel test test' → Rel body body' → Rel update update' →
    Rel (loop (do let b ← test; Run.record s line (text b) none; return b) body update s.fuel)
      (loop (do let b ← test'; Run.record s' line (text b) none; return b) body' update' s'.fuel)

/-- Where both settings have the same fuel, loops need no care of their own. -/
def Congruence.ofBind (Rel : {α : Type} → Run α → Run α → Prop)
    (pace : s.SamePace s') (quiet : ∀ {α : Type} {x : Run α}, Quiet x → Rel x x)
    (output : ∀ format values pos,
      Rel (printFormatted format values pos) (printFormatted format values pos))
    (record : ∀ line description returned,
      Rel (Run.record s line description returned) (Run.record s' line description returned))
    (bind : ∀ {α β : Type} {x x' : Run α} {f f' : α → Run β},
      Rel x x' → (∀ a, Rel (f a) (f' a)) → Rel (x >>= f) (x' >>= f'))
    (stop : Rel (throw .outOfFuel : Run Flow) (throw .outOfFuel)) : Congruence s s' where
  Rel := Rel
  code := pace.toSameCode
  quiet := quiet
  output := output
  record := record
  bind := bind
  loop {test test' body body' update update' line text} ht hb hu := by
    have pure {α : Type} (a : α) : Rel (pure a) (pure a) := quiet (quiet_pure a)
    have tested := bind ht fun b => bind (record line (text b) none) fun _ => pure b
    have all := loop_rel pure bind tested hb hu 0 stop s.fuel
    rw [pace.fuel]
    rwa [Nat.zero_add] at all

theorem staticType_congr (hs : s.SameCode s') (env : Environment) (e : Expr) :
    staticType s' env e = staticType s env e := by
  have hfind (name : String) : s'.function? name = s.function? name := by
    unfold Setting.function?
    rw [hs.functions]
  have hstructs := hs.structs
  fun_induction staticType s env e <;> simp_all only [staticType]

theorem sizeofExpr_congr (hs : s.SameCode s') (env : Environment) (e : Expr) :
    sizeofExpr s' env e = sizeofExpr s env e := by
  unfold sizeofExpr
  rw [staticType_congr hs, hs.structs]

theorem Place.field_congr (hs : s.SameCode s') (base : Address) (name : String)
    (pos : Position) : Place.field s' base name pos = Place.field s base name pos := by
  unfold Place.field
  rw [hs.structs]

theorem newNode_congr (hs : s.SameCode s') (struct : String) (pos : Position) :
    newNode s' struct pos = newNode s struct pos := by
  unfold newNode
  rw [hs.structs]

namespace Compatibility

variable (R : Compatibility s s')

def Calls (call call' : CallHandler) : Prop :=
  ∀ f args pos, R.Rel (call f args pos) (call' f args pos)

theorem pure {α : Type} (a : α) : R.Rel (Pure.pure a : Run α) (Pure.pure a) :=
  R.steady (steady_pure a)

/-- What follows a related piece may be steady. -/
theorem andThen {α β : Type} {x x' : Run α} {f : α → Run β} (hx : R.Rel x x')
    (hf : ∀ a, Steady (f a)) : R.Rel (x >>= f) (x' >>= f) :=
  R.bind hx fun a => R.steady (hf a)

theorem field_rel (base : Address) (name : String) (pos : Position) :
    R.Rel (Place.field s base name pos) (Place.field s' base name pos) := by
  rw [Place.field_congr R.code]
  exact R.steady (Place.steady_field s base name pos)

theorem elements_rel (array : Expr) {x x' : Run Value} (hx : R.Rel x x') (pos : Position) :
    R.Rel (Place.elements array x pos) (Place.elements array x' pos) := by
  have behind : R.Rel (do Place.elementsBehind (← x) pos) (do Place.elementsBehind (← x') pos) :=
    R.andThen hx fun v => Place.steady_elementsBehind v pos
  unfold Place.elements
  split
  · refine R.bind (R.steady (Place.steady_ofName _ _)) fun place => ?_
    split
    · exact R.pure _
    · exact behind
  · exact behind

theorem callByName_rel (hc : R.Calls call call') (name : String) (args : List Value) (pos : Position) :
    R.Rel (callByName s call name args pos) (callByName s' call' name args pos) := by
  unfold callByName Setting.function?
  rw [R.code.functions]
  split
  · exact R.steady (steady_freeNode args pos)
  · split
    · exact hc _ args pos
    · exact R.steady (steady_fail _ pos)

mutual

theorem evalExpr_rel (hc : R.Calls call call') (e : Expr) :
    R.Rel (evalExpr s call e) (evalExpr s' call' e) := by
  cases e with
  | int n pos => exact R.pure _
  | float x pos => exact R.pure _
  | char c pos => exact R.pure _
  | null pos => exact R.pure _
  | var name pos =>
    exact R.steady ((Place.steady_ofName name pos).bind fun place => Place.steady_readScalar place _)
  | index array index pos =>
    exact R.bind (R.elements_rel array (evalExpr_rel hc array) pos) fun es =>
      R.andThen (evalExpr_rel hc index) fun v => (Place.steady_element es v pos).bind
        fun place => Place.steady_readScalar place _
  | deref operand pos =>
    exact R.andThen (evalExpr_rel hc operand) fun v => (Place.steady_behind v pos).bind
      fun place => Place.steady_readScalar place _
  | field object name arrow pos =>
    cases arrow with
    | true =>
      exact R.bind (evalExpr_rel hc object) fun v => R.bind (R.steady (steady_requirePointer v pos))
        fun base => R.andThen (R.field_rel base name pos) fun place => Place.steady_readScalar place _
    | false =>
      exact R.bind (evalPlace_rel hc object) fun p => R.bind (R.steady (Place.steady_requireStruct p pos))
        fun base => R.andThen (R.field_rel base name pos) fun place => Place.steady_readScalar place _
  | binary op left right pos =>
    cases op with
    | connect op =>
      refine R.bind (evalExpr_rel hc left) fun v => R.bind (R.steady (steady_requireDefined v left))
        fun l => ?_
      split
      · exact R.pure _
      · exact R.bind (evalExpr_rel hc right) fun v => R.steady ((steady_requireDefined v right).bind
          fun r => steady_ofCause pos _)
    | arith op =>
      exact R.bind (evalExpr_rel hc left) fun v => R.bind (R.steady (steady_requireDefined v left))
        fun l => R.bind (evalExpr_rel hc right) fun v => R.steady ((steady_requireDefined v right).bind
          fun r => steady_ofCause pos _)
    | compare op =>
      exact R.bind (evalExpr_rel hc left) fun v => R.bind (R.steady (steady_requireDefined v left))
        fun l => R.bind (evalExpr_rel hc right) fun v => R.steady ((steady_requireDefined v right).bind
          fun r => steady_ofCause pos _)
  | unary op operand pos =>
    exact R.andThen (evalExpr_rel hc operand) fun v => (steady_requireDefined v operand).bind
      fun v => steady_ofCause pos _
  | step op operand pos =>
    exact R.andThen (evalPlace_rel hc operand) fun place => (steady_stepPlace op place operand pos).bind
      fun _ => steady_pure _
  | addressOf operand pos => exact R.andThen (evalPlace_rel hc operand) fun _ => steady_pure _
  | call name args pos =>
    exact R.bind (evalArgs_rel hc args) fun values => R.callByName_rel hc name values pos
  | cast type operand pos =>
    refine R.andThen (evalExpr_rel hc operand) fun v => (steady_requireDefined v operand).bind
      fun v => ?_
    split
    · exact steady_pure _
    · exact steady_fail _ _
  | sizeofType type pos =>
    unfold evalExpr
    rw [R.code.structs]
    exact R.pure _
  | sizeofExpr operand pos =>
    unfold evalExpr
    simp only [sizeofExpr_congr R.code]
    exact R.steady (steady_environment.bind fun _ => (steady_ofFault _).bind fun _ => steady_pure _)
  | newNode struct pos =>
    unfold evalExpr
    rw [newNode_congr R.code]
    exact R.steady (steady_newNode s struct pos)
  | print format args pos =>
    exact R.bind (evalArgs_rel hc args) fun values => R.andThen (R.output format values pos)
      fun _ => steady_pure _
  | read format targets pos =>
    exact R.andThen (evalPlaces_rel hc targets) fun places =>
      (steady_readFormatted format targets places pos).bind fun _ => steady_pure _

theorem evalPlace_rel (hc : R.Calls call call') (e : Expr) :
    R.Rel (evalPlace s call e) (evalPlace s' call' e) := by
  cases e with
  | var name pos => exact R.steady (Place.steady_ofName name pos)
  | index array index pos =>
    exact R.bind (R.elements_rel array (evalExpr_rel hc array) pos) fun es =>
      R.andThen (evalExpr_rel hc index) fun v => Place.steady_element es v pos
  | deref operand pos => exact R.andThen (evalExpr_rel hc operand) fun v => Place.steady_behind v pos
  | field object name arrow pos =>
    cases arrow with
    | true =>
      exact R.bind (evalExpr_rel hc object) fun v => R.bind (R.steady (steady_requirePointer v pos))
        fun base => R.field_rel base name pos
    | false =>
      exact R.bind (evalPlace_rel hc object) fun p => R.bind (R.steady (Place.steady_requireStruct p pos))
        fun base => R.field_rel base name pos
  | _ => exact R.steady (steady_fail _ _)

theorem evalArgs_rel (hc : R.Calls call call') (es : List Expr) :
    R.Rel (evalArgs s call es) (evalArgs s' call' es) := by
  cases es with
  | nil => exact R.pure _
  | cons e rest =>
    exact R.bind (evalExpr_rel hc e) fun v => R.bind (R.steady (steady_requireDefined v e)) fun v =>
      R.andThen (evalArgs_rel hc rest) fun vs => steady_pure _

theorem evalPlaces_rel (hc : R.Calls call call') (es : List Expr) :
    R.Rel (evalPlaces s call es) (evalPlaces s' call' es) := by
  cases es with
  | nil => exact R.pure _
  | cons e rest =>
    exact R.bind (evalPlace_rel hc e) fun place => R.andThen (evalPlaces_rel hc rest)
      fun places => steady_pure _

end

theorem evalOperand_rel (hc : R.Calls call call') (e : Expr) :
    R.Rel (evalOperand s call e) (evalOperand s' call' e) :=
  R.andThen (R.evalExpr_rel hc e) fun v => steady_requireDefined v e

theorem evalCondition_rel (hc : R.Calls call call') (e : Expr) (pos : Position) :
    R.Rel (evalCondition s call e pos) (evalCondition s' call' e pos) := by
  refine R.andThen (R.evalOperand_rel hc e) fun v => ?_
  split
  · exact steady_pure _
  · exact steady_fail _ _

/-! Parts of statements -/

theorem evalItems_rel (hc : R.Calls call call') (elem : CType) (pos : Position) (es : List Expr) :
    R.Rel (evalItems s call elem pos es) (evalItems s' call' elem pos es) := by
  induction es with
  | nil => exact R.pure _
  | cons e rest ih =>
    exact R.bind (R.evalOperand_rel hc e) fun v => R.bind (R.steady (steady_convertTo elem v pos))
      fun v => R.andThen ih fun vs => steady_pure _

theorem initialValue_rel (hc : R.Calls call call') (type : CType) (init : Option Expr)
    (pos : Position) :
    R.Rel (initialValue s call type init pos) (initialValue s' call' type init pos) := by
  cases init with
  | none => exact R.steady (steady_atFileScope.bind fun _ => steady_pure _)
  | some e => exact R.andThen (R.evalOperand_rel hc e) fun v => steady_convertTo type v pos

theorem assign_rel (hc : R.Calls call call') (target : Expr) (op : Option Arith) (value : Expr)
    (pos : Position) :
    R.Rel (assign s call target op value pos) (assign s' call' target op value pos) := by
  refine R.bind (R.evalOperand_rel hc value) fun right => R.andThen (R.evalPlace_rel hc target)
    fun place => ?_
  cases op with
  | none => exact Place.steady_write place right pos
  | some op =>
    exact (Place.steady_read place target).bind fun old => (steady_ofCause pos _).bind
      fun new => Place.steady_write place new pos

theorem describeEffect_rel (hc : R.Calls call call') (e : Expr) :
    R.Rel (describeEffect s call e) (describeEffect s' call' e) := by
  cases e with
  | print format args pos =>
    exact R.bind (R.evalArgs_rel hc args) fun values =>
      R.andThen (R.output format values pos) fun _ => steady_pure _
  | read format targets pos =>
    exact R.andThen (R.evalPlaces_rel hc targets) fun places =>
      (steady_readFormatted format targets places pos).bind fun _ => steady_pure _
  | step op operand pos =>
    exact R.andThen (R.evalPlace_rel hc operand) fun place =>
      (steady_stepPlace op place operand pos).bind fun _ => steady_pure _
  | call name args pos =>
    exact R.andThen (R.evalExpr_rel hc (.call name args pos)) fun _ => steady_pure _
  | _ => exact R.andThen (R.evalExpr_rel hc _) fun _ => steady_pure _

theorem loopCondition_rel (hc : R.Calls call call') (cond : Option Expr) (pos : Position) :
    R.Rel (loopCondition s call cond pos) (loopCondition s' call' cond pos) := by
  cases cond with
  | none => exact R.pure true
  | some e => exact R.evalCondition_rel hc e pos

theorem returnedValue_rel (hc : R.Calls call call') (returns : CType) (value : Option Expr)
    (pos : Position) :
    R.Rel (returnedValue s call returns value pos) (returnedValue s' call' returns value pos) := by
  unfold returnedValue
  split
  · exact R.pure _
  · split
    · exact R.steady (steady_fail _ _)
    · exact R.andThen (R.evalOperand_rel hc _) fun v => steady_convertTo returns v pos

end Compatibility

namespace Congruence

variable (R : Congruence s s')

/-- What follows a related piece may be quiet. -/
theorem andThen {α β : Type} {x x' : Run α} {f : α → Run β} (hx : R.Rel x x')
    (hf : ∀ a, Quiet (f a)) : R.Rel (x >>= f) (x' >>= f) :=
  R.bind hx fun a => R.quiet (hf a)

/-! Statements -/

theorem declare_rel (hc : R.Calls call call') (d : Decl) :
    R.Rel (declare s call d) (declare s' call' d) := by
  cases d with
  | scalar name type init pos =>
    exact R.andThen (R.initialValue_rel hc type init pos) fun v => steady_atFileScope.quiet.bind
      fun _ => (quiet_declareScalar name type v).bind fun _ => quiet_pure _
  | array name elem size init pos =>
    exact R.bind (R.steady steady_atFileScope) fun _ => R.andThen (R.evalItems_rel hc elem pos _)
      fun values => (quiet_declareArray name elem size _ values pos).bind fun _ => quiet_pure _

theorem perform_rel (hc : R.Calls call call') (c : Simple) :
    R.Rel (perform s call c) (perform s' call' c) := by
  cases c with
  | declare d => exact R.declare_rel hc d
  | assign target op value pos =>
    exact R.andThen (R.assign_rel hc target op value pos) fun _ => quiet_pure _
  | effect e pos => exact R.describeEffect_rel hc e

theorem runSimple_rel (hc : R.Calls call call') (c : Simple) :
    R.Rel (runSimple s call c) (runSimple s' call' c) :=
  R.bind (R.perform_rel hc c) fun description => R.record c.pos.line description none

theorem runClause_rel (hc : R.Calls call call') (c : Simple) :
    R.Rel (runClause s call c) (runClause s' call' c) := by
  unfold runClause
  split
  · exact R.runSimple_rel hc c
  · cases c with
    | declare d => exact R.andThen (R.declare_rel hc d) fun _ => quiet_pure _
    | assign target op value pos =>
      exact R.andThen (R.assign_rel hc target op value pos) fun _ => quiet_pure _
    | effect e pos => exact R.andThen (R.evalExpr_rel hc e) fun _ => quiet_pure _

theorem runOptionalClause_rel (hc : R.Calls call call') (c : Option Simple) :
    R.Rel (runOptionalClause s call c) (runOptionalClause s' call' c) := by
  cases c with
  | none => exact R.pure ()
  | some c => exact R.runClause_rel hc c

theorem inBlock_rel {x x' : Run Flow} (hx : R.Rel x x') : R.Rel (inBlock x) (inBlock x') :=
  R.bind (R.quiet (quiet_changeEnvironment _)) fun _ => R.andThen hx fun _ =>
    (quiet_changeEnvironment _).bind fun _ => quiet_pure _

theorem leaveWith_rel (hc : R.Calls call call') (returns : CType) (value : Option Expr)
    (pos : Position) :
    R.Rel (leaveWith s call returns value pos) (leaveWith s' call' returns value pos) := by
  refine R.bind (R.returnedValue_rel hc returns value pos) fun v => ?_
  dsimp only
  split
  · exact R.andThen (R.record _ _ _) fun _ => quiet_pure _
  · exact R.andThen (R.record _ _ _) fun _ => quiet_pure _

mutual

theorem runStmt_rel (hc : R.Calls call call') (returns : CType) (stmt : Stmt) :
    R.Rel (runStmt s call returns stmt) (runStmt s' call' returns stmt) := by
  cases stmt with
  | simple c => exact R.andThen (R.runSimple_rel hc c) fun _ => quiet_pure _
  | block body pos => exact R.inBlock_rel (runStmts_rel hc returns body)
  | branch cond yes no pos =>
    have entered (text : String) {body : List Stmt}
        (hb : R.Rel (runStmts s call returns body) (runStmts s' call' returns body)) :
        R.Rel (do Run.record s pos.line text none; inBlock (runStmts s call returns body))
          (do Run.record s' pos.line text none; inBlock (runStmts s' call' returns body)) :=
      R.bind (R.record pos.line text none) fun _ => R.inBlock_rel hb
    -- the statement only unfolds once it is known whether there is an `else`
    cases no with
    | none =>
      refine R.bind (R.evalCondition_rel hc cond pos) fun holds => ?_
      cases holds with
      | true => exact entered _ (runStmts_rel hc returns yes)
      | false => exact R.pure _
    | some no =>
      refine R.bind (R.evalCondition_rel hc cond pos) fun holds => ?_
      cases holds with
      | true => exact entered _ (runStmts_rel hc returns yes)
      | false => exact entered _ (runStmts_rel hc returns no)
  | whileLoop cond body pos =>
    exact R.loop (R.loopCondition_rel hc (some cond) pos)
      (R.inBlock_rel (runStmts_rel hc returns body)) (R.pure ())
  | forLoop init cond update body pos =>
    exact R.inBlock_rel (R.bind (R.runOptionalClause_rel hc init) fun _ =>
      R.loop (R.loopCondition_rel hc cond pos) (R.inBlock_rel (runStmts_rel hc returns body))
        (R.runOptionalClause_rel hc update))
  | leave value pos => exact R.leaveWith_rel hc returns value pos
  | breakLoop pos => exact R.andThen (R.record _ _ _) fun _ => quiet_pure _
  | continueLoop pos => exact R.andThen (R.record _ _ _) fun _ => quiet_pure _

theorem runStmts_rel (hc : R.Calls call call') (returns : CType) (stmts : List Stmt) :
    R.Rel (runStmts s call returns stmts) (runStmts s' call' returns stmts) := by
  cases stmts with
  | nil => exact R.pure _
  | cons stmt rest =>
    refine R.bind (runStmt_rel hc returns stmt) fun flow => ?_
    cases flow with
    | normal => exact runStmts_rel hc returns rest
    | _ => exact R.pure _

end

theorem runBody_rel (hc : R.Calls call call') (f : Function) :
    R.Rel (runBody s call f) (runBody s' call' f) := by
  refine R.bind (R.runStmts_rel hc f.returns f.body) fun flow => ?_
  cases flow with
  | leave v => exact R.pure v
  | _ => exact R.andThen (R.record _ _ _) fun _ => quiet_pure _

/-! Whole runs -/

theorem openFrame_rel (f : Function) (args : List Value) (callLine : Nat) (pos : Position) :
    R.Rel (openFrame s f args callLine pos) (openFrame s' f args callLine pos) :=
  R.bind (R.steady (steady_checkArity f args pos)) fun _ =>
    R.bind (R.quiet (quiet_changeEnvironment _)) fun _ =>
    R.bind (R.quiet (quiet_bindParams pos f.params args)) fun _ => R.record _ _ _

theorem runInFrame_rel (hc : R.Calls call call') (f : Function) (args : List Value)
    (callLine : Nat) (pos : Position) :
    R.Rel (runInFrame s call f args callLine pos) (runInFrame s' call' f args callLine pos) :=
  R.bind (R.openFrame_rel f args callLine pos) fun _ => R.andThen (R.runBody_rel hc f) fun _ =>
    (quiet_changeEnvironment _).bind fun _ => quiet_pure _

theorem runGlobals_rel (hc : R.Calls s.handler s'.handler) (ds : List Decl) :
    R.Rel (runGlobals s ds) (runGlobals s' ds) := by
  induction ds with
  | nil => exact R.pure ()
  | cons d rest ih => exact R.bind (R.runSimple_rel hc (.declare d)) fun _ => ih

theorem runProgram_rel (hc : ∀ f args line pos,
      R.Rel (callFunction s s.fuel f args line pos) (callFunction s' s'.fuel f args line pos))
    (globals : List Decl) : R.Rel (runProgram s globals) (runProgram s' globals) := by
  refine R.bind (R.runGlobals_rel (fun f args pos => hc f args pos.line pos) globals) fun _ => ?_
  unfold Setting.function?
  rw [R.code.functions]
  split
  · exact R.steady (steady_fail _ _)
  · exact R.andThen (hc _ [] 0 _) fun _ => quiet_pure _

end Congruence

end Stepwise
