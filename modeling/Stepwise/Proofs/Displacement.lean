import Stepwise.Proofs.Congruence
import Stepwise.Proofs.Parts
import Stepwise.Proofs.Plain
import Stepwise.Proofs.References

/-! Running a program beside the same program without positions. A `Displacement` relates pieces of the
two runs; it has to say what it makes of plain pieces, of one piece after another, and of the few pieces
that are not plain: those that look up a name, record a step or meet a limit. Where these stand in the
program may matter to it. Then it relates the two runs as wholes. A property of single runs is the case in
which nothing is said about the run without positions. -/

namespace Stepwise

open Run

/-! Relations between the two runs -/

/-- A relation between pieces of a run and of the run without positions that running respects. It may
depend on what the parts of the program are and on where steps are recorded. -/
structure Displacement (s : Setting) where
  Rel : {α : Type} → Run α → Run α → Prop
  Part : Expr → Prop
  Site : Position → Prop
  plain : ∀ {α : Type} {x x' : Run α}, Plain x x' → Rel x x'
  bind : ∀ {α β : Type} {x x' : Run α} {f f' : α → Run β},
    Rel x x' → (∀ a, Rel (f a) (f' a)) → Rel (x >>= f) (x' >>= f')
  name : ∀ {name p}, Part (.var name p) → Rel (Place.ofName name p) (Place.ofName name .start)
  size : ∀ {e p} (call call' : CallHandler), Part (.sizeofExpr e p) →
    Rel (evalExpr s call (.sizeofExpr e p)) (evalExpr s.erase call' (.sizeofExpr e.erase .start))
  missing : ∀ {name args p}, Part (.call name args p) → name ≠ "free" → s.function? name = none →
    Rel (fail (.internal (.undefinedVariable name)) p : Run Value)
      (fail (.internal (.undefinedVariable name)) .start)
  missingMain : s.function? "main" = none →
    Rel (fail (.internal (.undefinedVariable "main")) .start : Run Unit)
      (fail (.internal (.undefinedVariable "main")) .start)
  record : ∀ {p} (description : String) (returned : Option Value), Site p →
    Rel (Run.record s p.line description returned)
      (Run.record s.erase Position.start.line description returned)
  depth : ∀ (f : Function) (p : Position), Rel (checkDepth s f p) (checkDepth s.erase f.erase .start)
  stop : ∀ {α : Type}, Rel (throw .outOfFuel : Run α) (throw .outOfFuel)

namespace Displacement

variable {s : Setting} (R : Displacement s) {call call' : CallHandler}

def Parts (es : List Expr) : Prop := ∀ e ∈ es, R.Part e

def Sites (ps : List Position) : Prop := ∀ p ∈ ps, R.Site p

@[simp] theorem parts_nil : R.Parts [] := nofun

@[simp] theorem parts_cons {e : Expr} {es : List Expr} : R.Parts (e :: es) ↔ R.Part e ∧ R.Parts es :=
  List.forall_mem_cons

@[simp] theorem parts_append {es es' : List Expr} : R.Parts (es ++ es') ↔ R.Parts es ∧ R.Parts es' :=
  List.forall_mem_append

@[simp] theorem sites_nil : R.Sites [] := nofun

@[simp] theorem sites_cons {p : Position} {ps : List Position} :
    R.Sites (p :: ps) ↔ R.Site p ∧ R.Sites ps := List.forall_mem_cons

@[simp] theorem sites_append {ps ps' : List Position} :
    R.Sites (ps ++ ps') ↔ R.Sites ps ∧ R.Sites ps' := List.forall_mem_append

def Calls (call call' : CallHandler) : Prop :=
  ∀ f ∈ s.functions, ∀ args p, R.Rel (call f args p) (call' f.erase args .start)

theorem pure {α : Type} (a : α) : R.Rel (Pure.pure a : Run α) (Pure.pure a) := R.plain (.pure a)

/-- What follows a related piece may be plain. -/
theorem andThen {α β : Type} {x x' : Run α} {f f' : α → Run β} (hx : R.Rel x x')
    (hf : ∀ a, Plain (f a) (f' a)) : R.Rel (x >>= f) (x' >>= f') :=
  R.bind hx fun a => R.plain (hf a)

theorem elements_rel (array : Expr) (ha : R.Parts array.parts) {x x' : Run Value} (hx : R.Rel x x')
    (p : Position) :
    R.Rel (Place.elements array x p) (Place.elements array.erase x' .start) := by
  have behind : R.Rel (do Place.elementsBehind (← x) p) (do Place.elementsBehind (← x') .start) :=
    R.andThen hx fun v => Place.elementsBehind_plain v
  cases array with
  | var name q =>
    refine R.bind (R.name (ha _ (Expr.self_mem_parts _))) fun place => ?_
    split
    · exact R.pure _
    · exact behind
  | _ => exact behind

theorem callByName_rel (hc : R.Calls call call') {name : String} {args : List Expr} {p : Position}
    (part : R.Part (.call name args p)) (values : List Value) :
    R.Rel (callByName s call name values p) (callByName s.erase call' name values .start) := by
  unfold callByName
  rw [s.function?_erase]
  split
  · exact R.plain (freeNode_plain values)
  · rename_i free
    cases found : s.function? name with
    | none => exact R.missing part free found
    | some f => exact hc f (List.mem_of_find?_eq_some found) values p

mutual

theorem evalExpr_rel (hc : R.Calls call call') (e : Expr) (he : R.Parts e.parts) :
    R.Rel (evalExpr s call e) (evalExpr s.erase call' e.erase) := by
  cases e with
  | int n p => exact R.pure _
  | float x p => exact R.pure _
  | char c p => exact R.pure _
  | null p => exact R.pure _
  | var name p =>
    exact R.andThen (R.name (he _ (Expr.self_mem_parts _))) fun place =>
      place.readScalar_plain (.var name p)
  | index array index p =>
    simp only [Expr.parts, parts_cons, parts_append] at he
    refine R.bind (R.elements_rel array he.2.1 (evalExpr_rel hc array he.2.1) p) fun es => ?_
    exact R.andThen (evalExpr_rel hc index he.2.2) fun v => (Place.element_plain es v).bind
      fun place => place.readScalar_plain (.index array index p)
  | deref operand p =>
    simp only [Expr.parts, parts_cons] at he
    exact R.andThen (evalExpr_rel hc operand he.2) fun v => (Place.behind_plain v).bind
      fun place => place.readScalar_plain (.deref operand p)
  | field object name arrow p =>
    simp only [Expr.parts, parts_cons] at he
    cases arrow with
    | true =>
      exact R.andThen (evalExpr_rel hc object he.2) fun v => (requirePointer_plain v).bind fun base =>
        (Place.field_plain base name).bind fun place => place.readScalar_plain (.field object name true p)
    | false =>
      exact R.andThen (evalPlace_rel hc object he.2) fun q => q.requireStruct_plain.bind fun base =>
        (Place.field_plain base name).bind fun place => place.readScalar_plain (.field object name false p)
  | binary op left right p =>
    simp only [Expr.parts, parts_cons, parts_append] at he
    have operands (l : Value) : R.Rel (do
        let r ← requireDefined (← evalExpr s call right) right
        Run.ofCause p (op.eval l r)) (do
        let r ← requireDefined (← evalExpr s.erase call' right.erase) right.erase
        Run.ofCause .start (op.eval l r)) :=
      R.andThen (evalExpr_rel hc right he.2.2) fun v => (requireDefined_plain v right).bind
        fun r => .ofCause fun _ h => Fault.Cause.missing?_of_isOperand (BinOp.isOperand_eval h)
    cases op with
    | connect op =>
      refine R.bind (evalExpr_rel hc left he.2.1) fun v => R.bind (R.plain (requireDefined_plain v left))
        fun l => ?_
      split
      · exact R.pure _
      · exact operands l
    | arith op | compare op =>
      exact R.bind (evalExpr_rel hc left he.2.1) fun v => R.bind (R.plain (requireDefined_plain v left))
        fun l => operands l
  | unary op operand p =>
    simp only [Expr.parts, parts_cons] at he
    exact R.andThen (evalExpr_rel hc operand he.2) fun v => (requireDefined_plain v operand).bind
      fun v => .ofCause fun _ h => Fault.Cause.missing?_of_isOperand (UnOp.isOperand_eval h)
  | step op operand p =>
    simp only [Expr.parts, parts_cons] at he
    exact R.andThen (evalPlace_rel hc operand he.2) fun place =>
      (stepPlace_plain op place operand).bind fun _ => .pure _
  | addressOf operand p =>
    simp only [Expr.parts, parts_cons] at he
    exact R.andThen (evalPlace_rel hc operand he.2) fun _ => .pure _
  | call name args p =>
    simp only [Expr.parts, parts_cons] at he
    exact R.bind (evalArgs_rel hc args he.2) fun values => R.callByName_rel hc he.1 values
  | cast type operand p =>
    simp only [Expr.parts, parts_cons] at he
    refine R.andThen (evalExpr_rel hc operand he.2) fun v => (requireDefined_plain v operand).bind
      fun v => ?_
    split
    · exact .pure _
    · exact .fail rfl
  | sizeofType type p =>
    show R.Rel (Pure.pure (Value.int (Int32.ofNat (s.structs.size type))))
      (Pure.pure (Value.int (Int32.ofNat (s.structs.erase.size type))))
    rw [Structs.size_erase]
    exact R.pure _
  | sizeofExpr operand p => exact R.size call call' (he _ (Expr.self_mem_parts _))
  | newNode struct p => exact R.plain (newNode_plain struct)
  | print format args p =>
    simp only [Expr.parts, parts_cons] at he
    exact R.andThen (evalArgs_rel hc args he.2) fun values =>
      (printFormatted_plain format values).bind fun _ => .pure _
  | read format targets p =>
    simp only [Expr.parts, parts_cons] at he
    exact R.andThen (evalPlaces_rel hc targets he.2) fun places =>
      (readFormatted_plain format targets places).bind fun _ => .pure _

theorem evalPlace_rel (hc : R.Calls call call') (e : Expr) (he : R.Parts e.parts) :
    R.Rel (evalPlace s call e) (evalPlace s.erase call' e.erase) := by
  have none (e e' : Expr) (same : e'.render = e.render) : R.Rel
      (fail (.typeMismatch "assignable location" e.render) e.pos : Run Place)
      (fail (.typeMismatch "assignable location" e'.render) e'.pos) := by
    rw [same]
    exact R.plain (.fail rfl)
  cases e with
  | var name p => exact R.name (he _ (Expr.self_mem_parts _))
  | index array index p =>
    simp only [Expr.parts, parts_cons, parts_append] at he
    exact R.bind (R.elements_rel array he.2.1 (evalExpr_rel hc array he.2.1) p) fun es =>
      R.andThen (evalExpr_rel hc index he.2.2) fun v => Place.element_plain es v
  | deref operand p =>
    simp only [Expr.parts, parts_cons] at he
    exact R.andThen (evalExpr_rel hc operand he.2) fun v => Place.behind_plain v
  | field object name arrow p =>
    simp only [Expr.parts, parts_cons] at he
    cases arrow with
    | true =>
      exact R.andThen (evalExpr_rel hc object he.2) fun v => (requirePointer_plain v).bind
        fun base => Place.field_plain base name
    | false =>
      exact R.andThen (evalPlace_rel hc object he.2) fun q => q.requireStruct_plain.bind
        fun base => Place.field_plain base name
  | _ => exact none _ _ (Expr.render_erase _)

theorem evalArgs_rel (hc : R.Calls call call') (es : List Expr) (he : R.Parts (partsAll es)) :
    R.Rel (evalArgs s call es) (evalArgs s.erase call' (eraseAll es)) := by
  cases es with
  | nil => exact R.pure _
  | cons e rest =>
    simp only [partsAll, parts_append] at he
    exact R.bind (evalExpr_rel hc e he.1) fun v => R.bind (R.plain (requireDefined_plain v e)) fun v =>
      R.andThen (evalArgs_rel hc rest he.2) fun vs => .pure _

theorem evalPlaces_rel (hc : R.Calls call call') (es : List Expr) (he : R.Parts (partsAll es)) :
    R.Rel (evalPlaces s call es) (evalPlaces s.erase call' (eraseAll es)) := by
  cases es with
  | nil => exact R.pure _
  | cons e rest =>
    simp only [partsAll, parts_append] at he
    exact R.bind (evalPlace_rel hc e he.1) fun place =>
      R.andThen (evalPlaces_rel hc rest he.2) fun places => .pure _

end

/-! Statements -/

theorem evalOperand_rel (hc : R.Calls call call') (e : Expr) (he : R.Parts e.parts) :
    R.Rel (evalOperand s call e) (evalOperand s.erase call' e.erase) :=
  R.andThen (R.evalExpr_rel hc e he) fun v => requireDefined_plain v e

theorem evalCondition_rel (hc : R.Calls call call') (e : Expr) (he : R.Parts e.parts) (p : Position) :
    R.Rel (evalCondition s call e p) (evalCondition s.erase call' e.erase .start) := by
  refine R.andThen (R.evalOperand_rel hc e he) fun v => ?_
  split
  · exact .pure _
  · exact .fail rfl

theorem evalItems_rel (hc : R.Calls call call') (elem : CType) (p : Position) (es : List Expr)
    (he : R.Parts (partsAll es)) :
    R.Rel (evalItems s call elem p es) (evalItems s.erase call' elem .start (eraseAll es)) := by
  induction es with
  | nil => exact R.pure _
  | cons e rest ih =>
    simp only [partsAll, parts_append] at he
    exact R.bind (R.evalOperand_rel hc e he.1) fun v => R.bind (R.plain (convertTo_plain elem v))
      fun v => R.andThen (ih he.2) fun vs => .pure _

theorem initialValue_rel (hc : R.Calls call call') (type : CType) (init : Option Expr)
    (he : R.Parts ((init.map Expr.parts).getD [])) (p : Position) :
    R.Rel (initialValue s call type init p)
      (initialValue s.erase call' type (init.map Expr.erase) .start) := by
  cases init with
  | none => exact R.plain (atFileScope_plain.bind fun _ => .pure _)
  | some e => exact R.andThen (R.evalOperand_rel hc e he) fun v => convertTo_plain type v

theorem declare_rel (hc : R.Calls call call') (d : Decl) (hd : R.Parts d.parts) :
    R.Rel (declare s call d) (declare s.erase call' d.erase) := by
  cases d with
  | scalar name type init p =>
    exact R.andThen (R.initialValue_rel hc type init hd p) fun v => atFileScope_plain.bind
      fun _ => (declareScalar_plain name type v).bind fun _ => .pure _
  | array name elem size init p =>
    have items : R.Rel (evalItems s call elem p (init.getD []))
        (evalItems s.erase call' elem .start ((init.map eraseAll).getD [])) := by
      cases init with
      | none => exact R.pure _
      | some es => exact R.evalItems_rel hc elem p es hd
    refine R.bind (R.plain atFileScope_plain) fun isGlobal => R.andThen items fun values => ?_
    dsimp only
    rw [Option.isSome_map]
    exact (declareArray_plain name elem size _ values).bind fun _ => .pure _

theorem assign_rel (hc : R.Calls call call') (target : Expr) (op : Option Arith) (value : Expr)
    (ht : R.Parts target.parts) (hv : R.Parts value.parts) (p : Position) :
    R.Rel (assign s call target op value p)
      (assign s.erase call' target.erase op value.erase .start) := by
  refine R.bind (R.evalOperand_rel hc value hv) fun right => R.andThen (R.evalPlace_rel hc target ht)
    fun place => ?_
  cases op with
  | none => exact place.write_plain right
  | some op =>
    refine (place.read_plain target).bind fun old => Plain.bind (.ofCause fun _ h => ?_)
      fun new => place.write_plain new
    exact Fault.Cause.missing?_of_isOperand (Arith.isOperand_eval h)

theorem describeEffect_rel (hc : R.Calls call call') (e : Expr) (he : R.Parts e.parts) :
    R.Rel (describeEffect s call e) (describeEffect s.erase call' e.erase) := by
  -- an expression that nothing special is said about
  have other (e e' : Expr) (same : e'.render = e.render)
      (h : R.Rel (evalExpr s call e) (evalExpr s.erase call' e')) : R.Rel
      (do let v ← evalExpr s call e; return "evaluate " ++ e.render ++ " = " ++ v.text)
      (do let v ← evalExpr s.erase call' e'; return "evaluate " ++ e'.render ++ " = " ++ v.text) := by
    rw [same]
    exact R.andThen h fun _ => .pure _
  cases e with
  | print format args p =>
    simp only [Expr.parts, parts_cons] at he
    exact R.andThen (R.evalArgs_rel hc args he.2) fun values =>
      (printFormatted_plain format values).bind fun _ => .pure _
  | read format targets p =>
    simp only [Expr.parts, parts_cons] at he
    exact R.andThen (R.evalPlaces_rel hc targets he.2) fun places =>
      (readFormatted_plain format targets places).bind fun _ => .pure _
  | step op operand p =>
    simp only [Expr.parts, parts_cons] at he
    refine R.andThen (R.evalPlace_rel hc operand he.2) fun place =>
      (stepPlace_plain op place operand).bind fun _ => ?_
    rw [operand.render_erase]
    exact .pure _
  | call name args p =>
    refine R.andThen (R.evalExpr_rel hc (.call name args p) he) fun _ => ?_
    rw [show (Expr.call name (eraseAll args) .start).render = (Expr.call name args p).render from
      Expr.render_erase (.call name args p)]
    exact .pure _
  | _ => exact other _ _ (Expr.render_erase _) (R.evalExpr_rel hc _ he)

theorem perform_rel (hc : R.Calls call call') (c : Simple) (h : R.Parts c.parts) :
    R.Rel (perform s call c) (perform s.erase call' c.erase) := by
  cases c with
  | declare d => exact R.declare_rel hc d h
  | assign target op value p =>
    simp only [Simple.parts, parts_append] at h
    refine R.andThen (R.assign_rel hc target op value h.1 h.2 p) fun _ => ?_
    rw [target.render_erase]
    exact .pure _
  | effect e p => exact R.describeEffect_rel hc e h

theorem runSimple_rel (hc : R.Calls call call') (c : Simple) (h : R.Parts c.parts) (site : R.Site c.pos) :
    R.Rel (runSimple s call c) (runSimple s.erase call' c.erase) := by
  have start : c.erase.pos = .start := by
    cases c with
    | declare d => cases d <;> rfl
    | _ => rfl
  unfold runSimple
  rw [start]
  exact R.bind (R.perform_rel hc c h) fun description => R.record description none site

theorem runClause_rel (hc : R.Calls call call') (c : Simple) (h : R.Parts c.parts) (site : R.Site c.pos) :
    R.Rel (runClause s call c) (runClause s.erase call' c.erase) := by
  unfold runClause
  rw [c.usesConsole_erase]
  split
  · exact R.runSimple_rel hc c h site
  · cases c with
    | declare d => exact R.andThen (R.declare_rel hc d h) fun _ => .pure _
    | assign target op value p =>
      simp only [Simple.parts, parts_append] at h
      exact R.andThen (R.assign_rel hc target op value h.1 h.2 p) fun _ => .pure _
    | effect e p => exact R.andThen (R.evalExpr_rel hc e h) fun _ => .pure _

theorem runOptionalClause_rel (hc : R.Calls call call') (c : Option Simple)
    (h : R.Parts ((c.map Simple.parts).getD [])) (sites : R.Sites (c.toList.map Simple.pos)) :
    R.Rel (runOptionalClause s call c) (runOptionalClause s.erase call' (c.map Simple.erase)) := by
  cases c with
  | none => exact R.pure ()
  | some c => exact R.runClause_rel hc c h (sites _ List.mem_cons_self)

theorem testLoop_rel (hc : R.Calls call call') (cond : Option Expr)
    (h : R.Parts ((cond.map Expr.parts).getD [])) {p : Position} (site : R.Site p) :
    R.Rel (testLoop s call cond p) (testLoop s.erase call' (cond.map Expr.erase) .start) := by
  cases cond with
  | none =>
    exact R.bind (R.pure true) fun holds => R.andThen (R.record _ none site) fun _ => .pure _
  | some e =>
    refine R.bind (R.evalCondition_rel hc e h p) fun holds => ?_
    dsimp only [Option.map_some]
    rw [e.render_erase]
    exact R.andThen (R.record _ none site) fun _ => .pure _

theorem loop_rel {test test' : Run Bool} {body body' : Run Flow} {update update' : Run Unit}
    (ht : R.Rel test test') (hb : R.Rel body body') (hu : R.Rel update update') (fuel : Nat) :
    R.Rel (loop test body update fuel) (loop test' body' update' fuel) := by
  have all := @Stepwise.loop_rel @R.Rel R.pure R.bind _ _ _ _ _ _ ht hb hu 0 R.stop fuel
  rwa [Nat.zero_add] at all

theorem inBlock_rel {x x' : Run Flow} (hx : R.Rel x x') : R.Rel (inBlock x) (inBlock x') :=
  R.bind (R.plain (.changeSame Environment.bare_openBlock)) fun _ => R.andThen hx fun _ =>
    (Plain.changeSame Environment.bare_closeBlock).bind fun _ => .pure _

theorem leaveWith_rel (hc : R.Calls call call') (returns : CType) (value : Option Expr)
    (h : R.Parts ((value.map Expr.parts).getD [])) {p : Position} (site : R.Site p) :
    R.Rel (leaveWith s call returns value p)
      (leaveWith s.erase call' returns (value.map Expr.erase) .start) := by
  have returned : R.Rel (returnedValue s call returns value p)
      (returnedValue s.erase call' returns (value.map Expr.erase) .start) := by
    cases value with
    | none => exact R.pure _
    | some e =>
      unfold returnedValue
      dsimp only [Option.map_some]
      split
      · rw [e.render_erase]
        exact R.plain (.fail rfl)
      · exact R.andThen (R.evalOperand_rel hc e h) fun v => convertTo_plain returns v
  refine R.bind returned fun v => ?_
  dsimp only
  split
  · exact R.andThen (R.record _ _ site) fun _ => .pure _
  · exact R.andThen (R.record _ _ site) fun _ => .pure _

mutual

theorem runStmt_rel (hc : R.Calls call call') (returns : CType) (stmt : Stmt)
    (h : R.Parts stmt.parts) (sites : R.Sites stmt.sites) :
    R.Rel (runStmt s call returns stmt) (runStmt s.erase call' returns stmt.erase) := by
  cases stmt with
  | simple c =>
    exact R.andThen (R.runSimple_rel hc c h (sites _ List.mem_cons_self)) fun _ => .pure _
  | block body p => exact R.inBlock_rel (runStmts_rel hc returns body h sites)
  | branch cond yes no p =>
    have entered (text : String) (site : R.Site p) {x x' : Run Flow} (hx : R.Rel x x') : R.Rel
        (do Run.record s p.line ("condition " ++ cond.render ++ text) none; inBlock x)
        (do Run.record s.erase Position.start.line ("condition " ++ cond.erase.render ++ text) none
            inBlock x') := by
      rw [cond.render_erase]
      exact R.bind (R.record _ none site) fun _ => R.inBlock_rel hx
    cases no with
    | none =>
      simp only [Stmt.parts, parts_append] at h
      simp only [Stmt.sites, sites_cons] at sites
      refine R.bind (R.evalCondition_rel hc cond h.1 p) fun holds => ?_
      cases holds with
      | true => exact entered _ sites.1 (runStmts_rel hc returns yes h.2 sites.2)
      | false => exact R.pure _
    | some no =>
      simp only [Stmt.parts, parts_append] at h
      simp only [Stmt.sites, sites_cons, sites_append] at sites
      refine R.bind (R.evalCondition_rel hc cond h.1.1 p) fun holds => ?_
      cases holds with
      | true => exact entered _ sites.1 (runStmts_rel hc returns yes h.1.2 sites.2.1)
      | false => exact entered _ sites.1 (runStmts_rel hc returns no h.2 sites.2.2)
  | whileLoop cond body p =>
    simp only [Stmt.parts, parts_append] at h
    simp only [Stmt.sites, sites_cons] at sites
    exact R.loop_rel (R.testLoop_rel hc (some cond) h.1 sites.1)
      (R.inBlock_rel (runStmts_rel hc returns body h.2 sites.2)) (R.pure ()) s.fuel
  | forLoop init cond update body p =>
    simp only [Stmt.parts, parts_append] at h
    simp only [Stmt.sites, sites_cons, sites_append] at sites
    obtain ⟨⟨⟨hi, hcond⟩, hu⟩, hb⟩ := h
    obtain ⟨site, ⟨initSites, updateSites⟩, bodySites⟩ := sites
    refine R.inBlock_rel (R.bind (R.runOptionalClause_rel hc init hi initSites) fun _ => ?_)
    exact R.loop_rel (R.testLoop_rel hc cond hcond site)
      (R.inBlock_rel (runStmts_rel hc returns body hb bodySites))
      (R.runOptionalClause_rel hc update hu updateSites) s.fuel
  | leave value p => exact R.leaveWith_rel hc returns value h (sites _ List.mem_cons_self)
  | breakLoop p =>
    exact R.andThen (R.record _ _ (sites _ List.mem_cons_self)) fun _ => .pure _
  | continueLoop p =>
    exact R.andThen (R.record _ _ (sites _ List.mem_cons_self)) fun _ => .pure _

theorem runStmts_rel (hc : R.Calls call call') (returns : CType) (stmts : List Stmt)
    (h : R.Parts (partsOf stmts)) (sites : R.Sites (sitesOf stmts)) :
    R.Rel (runStmts s call returns stmts) (runStmts s.erase call' returns (eraseBody stmts)) := by
  cases stmts with
  | nil => exact R.pure _
  | cons stmt rest =>
    simp only [partsOf, parts_append] at h
    simp only [sitesOf, sites_append] at sites
    refine R.bind (runStmt_rel hc returns stmt h.1 sites.1) fun flow => ?_
    cases flow with
    | normal => exact runStmts_rel hc returns rest h.2 sites.2
    | _ => exact R.pure _

end

/-! Whole runs -/

structure Covers : Prop where
  parts : ∀ f ∈ s.functions, R.Parts (partsOf f.body)
  sites : ∀ f ∈ s.functions, R.Sites (f.pos :: f.endPos :: sitesOf f.body)

theorem runBody_rel (hc : R.Calls call call') (covers : R.Covers) {f : Function} (hf : f ∈ s.functions) :
    R.Rel (runBody s call f) (runBody s.erase call' f.erase) := by
  obtain ⟨-, last, sites⟩ := (R.sites_cons.mp (covers.sites f hf)).imp id R.sites_cons.mp
  refine R.bind (R.runStmts_rel hc f.returns f.body (covers.parts f hf) sites) fun flow => ?_
  cases flow with
  | leave v => exact R.pure v
  | _ => exact R.andThen (R.record _ _ last) fun _ => .pure _

theorem callFunction_rel (covers : R.Covers) (fuel : Nat) {f : Function} (hf : f ∈ s.functions)
    (args : List Value) (line line' : Nat) (p : Position) :
    R.Rel (callFunction s fuel f args line p) (callFunction s.erase fuel f.erase args line' .start) := by
  induction fuel generalizing f args line line' p with
  | zero => exact R.stop
  | succ fuel ih =>
    have first := (R.sites_cons.mp (covers.sites f hf)).1
    refine R.bind (R.depth f p) fun _ => R.bind ?_ fun _ => ?_
    · refine R.bind (R.plain (checkArity_plain f args)) fun _ =>
        R.bind (R.plain (pushFrame_plain f.name _ _ _ _)) fun _ =>
        R.bind (R.plain (bindParams_plain f.params args)) fun bound => R.record _ none first
    · refine R.andThen (R.runBody_rel (fun g hg values q => ?_) covers hf) fun _ =>
        (Plain.changeSame Environment.bare_popFrame).bind fun _ => .pure _
      exact ih hg values _ _ q

theorem runProgram_rel (covers : R.Covers) (ds : List Decl) (parts : ∀ d ∈ ds, R.Parts d.parts)
    (sites : ∀ d ∈ ds, R.Site d.pos) :
    R.Rel (runProgram s ds) (runProgram s.erase (ds.map Decl.erase)) := by
  have globals : R.Rel (runGlobals s ds) (runGlobals s.erase (ds.map Decl.erase)) := by
    induction ds with
    | nil => exact R.pure ()
    | cons d rest ih =>
      have hc : R.Calls s.handler s.erase.handler := fun f hf args p =>
        R.callFunction_rel covers s.fuel hf args p.line _ p
      refine R.bind (R.runSimple_rel hc (.declare d) (parts d List.mem_cons_self)
        (sites d List.mem_cons_self)) fun _ => ?_
      exact ih (fun d hd => parts d (List.mem_cons_of_mem _ hd))
        fun d hd => sites d (List.mem_cons_of_mem _ hd)
  refine R.bind globals fun _ => ?_
  rw [s.function?_erase]
  cases found : s.function? "main" with
  | none => exact R.missingMain found
  | some f =>
    exact R.andThen (R.callFunction_rel covers s.fuel (List.mem_of_find?_eq_some found) [] 0 0 f.pos)
      fun _ => .pure _

/-- The two runs of a program are related if the relation allows for all its parts and sites. -/
theorem program_rel {p : Program} {source : String} {limits : Limits} {cancelled : Bool}
    (R : Displacement (.ofProgram p source limits cancelled)) (parts : R.Parts p.parts)
    (sites : R.Sites p.sites) :
    R.Rel (runProgram (.ofProgram p source limits cancelled) p.globals)
      (runProgram (Setting.ofProgram p source limits cancelled).erase p.erase.globals) := by
  have part {i : Item} (hi : i ∈ p) {e : Expr} (he : e ∈ i.parts) : R.Part e :=
    parts e (List.mem_flatMap.mpr ⟨i, hi, he⟩)
  have site {i : Item} (hi : i ∈ p) {q : Position} (hq : q ∈ i.sites) : R.Site q :=
    sites q (List.mem_flatMap.mpr ⟨i, hi, hq⟩)
  have covers : R.Covers := ⟨fun _ hf _ => part (Program.mem_functions.mp hf),
    fun _ hf _ => site (Program.mem_functions.mp hf)⟩
  rw [p.globals_erase]
  exact R.runProgram_rel covers p.globals (fun _ hd _ => part (Program.mem_globals.mp hd))
    fun _ hd => site (Program.mem_globals.mp hd) List.mem_cons_self

end Displacement

end Stepwise
