import Stepwise.Proofs.Erasure
import Stepwise.Proofs.Harmless

/-! Where positions go during a run. Two states are alike if only the lines differ that their calls name.
A piece is plain beside another if the two do the same in states that are alike: they give the same value
or are at fault for the same cause, which is no missing name, and neither records a step. Most pieces are
plain beside themselves with other positions. -/

namespace Stepwise

variable {α β : Type}

/-! The texts of expressions -/

mutual

theorem Expr.render_erase (e : Expr) : e.erase.render = e.render := by
  cases e with
  | binary op left right p =>
    show left.erase.render ++ " " ++ op.text ++ " " ++ right.erase.render =
      left.render ++ " " ++ op.text ++ " " ++ right.render
    rw [left.render_erase, right.render_erase]
  | unary op e p =>
    cases op with
    | neg => exact congrArg ("-" ++ ·) e.render_erase
    | not => exact congrArg ("!" ++ ·) e.render_erase
  | step op e p =>
    cases op with
    | preInc => exact congrArg ("++" ++ ·) e.render_erase
    | preDec => exact congrArg ("--" ++ ·) e.render_erase
    | postInc => exact congrArg (· ++ "++") e.render_erase
    | postDec => exact congrArg (· ++ "--") e.render_erase
  | addressOf e p => exact congrArg ("&" ++ ·) e.render_erase
  | deref e p => exact congrArg ("*" ++ ·) e.render_erase
  | call name args p =>
    exact congrArg (fun texts => name ++ "(" ++ commaSeparated texts ++ ")") (renderAll_erase args)
  | index array index p =>
    show array.erase.render ++ "[" ++ index.erase.render ++ "]" = array.render ++ "[" ++ index.render ++ "]"
    rw [array.render_erase, index.render_erase]
  | field e name arrow p => exact congrArg (· ++ (if arrow then "->" else ".") ++ name) e.render_erase
  | cast type e p => exact congrArg ("(" ++ type.text ++ ")" ++ ·) e.render_erase
  | sizeofExpr e p => exact congrArg ("sizeof(" ++ · ++ ")") e.render_erase
  | _ => rfl

theorem renderAll_erase (es : List Expr) : renderAll (eraseAll es) = renderAll es := by
  cases es with
  | nil => rfl
  | cons e rest =>
    show e.erase.render :: renderAll (eraseAll rest) = e.render :: renderAll rest
    rw [e.render_erase, renderAll_erase rest]

end

mutual

theorem Expr.usesConsole_erase (e : Expr) : e.erase.usesConsole = e.usesConsole := by
  cases e with
  | binary op left right p =>
    simp only [Expr.erase, Expr.usesConsole, left.usesConsole_erase, right.usesConsole_erase]
  | index array index p =>
    simp only [Expr.erase, Expr.usesConsole, array.usesConsole_erase, index.usesConsole_erase]
  | unary op e p | step op e p | addressOf e p | deref e p | field e name arrow p | cast type e p
  | sizeofExpr e p => exact e.usesConsole_erase
  | call name args p => exact anyUsesConsole_erase args
  | _ => rfl

theorem anyUsesConsole_erase (es : List Expr) : anyUsesConsole (eraseAll es) = anyUsesConsole es := by
  cases es with
  | nil => rfl
  | cons e rest =>
    simp only [eraseAll, anyUsesConsole, e.usesConsole_erase, anyUsesConsole_erase rest]

end

theorem Simple.usesConsole_erase (c : Simple) : c.erase.usesConsole = c.usesConsole := by
  cases c with
  | declare d =>
    cases d with
    | scalar name type init p =>
      cases init with
      | none => rfl
      | some e => exact e.usesConsole_erase
    | array name elem size init p =>
      cases init with
      | none => rfl
      | some es => exact anyUsesConsole_erase es
  | assign target op value p => simp only [erase, usesConsole, Expr.usesConsole_erase]
  | effect e p => exact e.usesConsole_erase

/-! The setting without positions -/

def Structs.erase (structs : Structs) : Structs := structs.filterMap fun _ d => some d.erase

def Setting.erase (s : Setting) : Setting :=
  { s with functions := s.functions.map Function.erase, structs := s.structs.erase, lines := #[] }

namespace Structs

variable (structs : Structs)

theorem entries_erase : structs.erase.entries = structs.entries.map fun e => (e.1, e.2.erase) := by
  simp [erase, KeyMap.filterMap]

theorem find?_erase (name : String) :
    structs.erase.find? name = (structs.find? name).map StructDef.erase := by
  unfold KeyMap.find?
  rw [entries_erase]
  induction structs.entries with
  | nil => rfl
  | cons e rest ih =>
    rw [List.map_cons, KeyMap.findEntry?, KeyMap.findEntry?]
    cases compare name e.1 with
    | lt => rfl
    | eq => rfl
    | gt => exact ih

theorem sizeWithin_erase (depth : Nat) (t : CType) :
    structs.erase.sizeWithin depth t = structs.sizeWithin depth t := by
  induction depth generalizing t with
  | zero =>
    unfold sizeWithin
    split
    · rfl
    · cases t.base <;> rfl
  | succ depth ih =>
    unfold sizeWithin
    split
    · rfl
    · cases t.base with
      | struct name =>
        simp only [find?_erase]
        cases structs.find? name with
        | none => rfl
        | some d => simp only [Option.map_some, ih]; rfl
      | _ => rfl

theorem size_erase (t : CType) : structs.erase.size t = structs.size t := by
  unfold size
  rw [sizeWithin_erase, entries_erase, List.length_map]

end Structs

theorem Setting.function?_erase (s : Setting) (name : String) :
    s.erase.function? name = (s.function? name).map Function.erase := by
  unfold Setting.function?
  show (s.functions.map Function.erase).find? _ = _
  rw [List.find?_map]
  rfl

/-! States that are alike -/

def Call.bare (c : Call) : Call := { c with callLine := 0, entryLine := 0 }

def Frame.bare (f : Frame) : Frame := { f with call := f.call.bare }

namespace Environment

def bare (env : Environment) : Environment := { env with frames := env.frames.map Frame.bare }

def Alike (env env' : Environment) : Prop := env.bare = env'.bare

variable {env env' : Environment}

namespace Alike

theorem refl (env : Environment) : env.Alike env := rfl

theorem memory (h : env.Alike env') : env'.memory = env.memory :=
  (congrArg Environment.memory h : env.bare.memory = env'.bare.memory).symm

theorem globals (h : env.Alike env') : env'.globals = env.globals :=
  (congrArg Environment.globals h : env.bare.globals = env'.bare.globals).symm

theorem frames (h : env.Alike env') : env.frames.map Frame.bare = env'.frames.map Frame.bare :=
  congrArg Environment.frames h

theorem depth (h : env.Alike env') : env'.depth = env.depth := by
  have same := congrArg List.length h.frames
  rw [List.length_map, List.length_map] at same
  exact same.symm

theorem isEmpty (h : env.Alike env') : env'.frames.isEmpty = env.frames.isEmpty := by
  have same := congrArg List.isEmpty h.frames
  rw [List.isEmpty_map, List.isEmpty_map] at same
  exact same.symm

theorem locals (h : env.Alike env') : env'.locals = env.locals := by
  have bare (env : Environment) : env.bare.locals = env.locals := by
    unfold Environment.locals
    cases hf : env.frames <;> simp [Environment.bare, hf, Frame.bare]
  rw [← bare env', ← bare env, h]

theorem lookup? (h : env.Alike env') (name : String) : env'.lookup? name = env.lookup? name := by
  unfold Environment.lookup?
  rw [h.locals, h.globals]

/-- A change that does not look at the lines of calls keeps states alike. -/
theorem change {g : Environment → Environment} (bare : ∀ env, (g env).bare = g env.bare)
    (h : env.Alike env') : (g env).Alike (g env') :=
  (bare env).trans ((congrArg g h).trans (bare env').symm)

end Alike

theorem bare_declare (env : Environment) (name : String) (a : Address) :
    (env.declare name a).bare = env.bare.declare name a := by
  unfold declare bare
  cases hf : env.frames with
  | nil => simp
  | cons top rest =>
    have frame : (top.declare name a).bare = top.bare.declare name a := by
      unfold Frame.declare Frame.bare
      cases hb : top.blocks <;> simp [hb, Frame.find?]
    simp [frame]

theorem bare_openBlock (env : Environment) : env.openBlock.bare = env.bare.openBlock := by
  unfold openBlock onFrame bare
  cases hf : env.frames <;> simp [hf, Frame.openBlock, Frame.bare]

theorem bare_closeBlock (env : Environment) : env.closeBlock.bare = env.bare.closeBlock := by
  unfold closeBlock bare
  cases hf : env.frames with
  | nil => simp [hf]
  | cons top rest =>
    have frame : top.bare.closeBlock = (top.closeBlock.1, top.closeBlock.2.bare) := by
      obtain ⟨call, bindings, blocks⟩ := top
      cases blocks <;> rfl
    simp [frame]

theorem bare_popFrame (env : Environment) : env.popFrame.bare = env.bare.popFrame := by
  unfold popFrame bare
  cases hf : env.frames with
  | nil => simp [hf]
  | cons top rest => simp [Frame.unwind, Frame.bare]

end Environment

/-- The machines differ at most in the lines that calls name, and in what they have recorded. -/
structure Machine.Alike (m m' : Machine) : Prop where
  env : m.env.Alike m'.env
  console : m'.console = m.console
  input : m'.input = m.input

theorem Machine.Alike.refl (m : Machine) : m.Alike m := ⟨.refl _, rfl, rfl⟩

/-! Plain pieces -/

/-- The name that a fault is about, if something of that name is missing. -/
def Fault.Cause.missing? : Fault.Cause → Option String
  | undefinedVariable name => some name
  | internal shown => shown.missing?
  | _ => none

theorem Fault.Cause.missing?_of_isOperand {c : Fault.Cause} (h : c.isOperand = true) :
    c.missing? = none := by
  cases c with
  | divisionByZero modulo => rfl
  | typeMismatch expected found => rfl
  | _ => cases h

theorem Memory.Fault.missing?_cause (a : Address) (f : Memory.Fault) : (f.cause a).missing? = none := by
  cases f <;> rfl

theorem Format.Error.missing?_cause (e : Format.Error) : e.cause.missing? = none := by
  cases e <;> rfl

namespace Run

/-- What two pieces came to that began in `m` and `m'` and did the same. -/
inductive Same (m m' : Machine) :
    EStateM.Result Halt Machine α → EStateM.Result Halt Machine α → Prop
  | ok {a : α} {n n' : Machine} : n.Alike n' → n.recorder = m.recorder →
    n'.recorder = m'.recorder → Same m m' (.ok a n) (.ok a n')
  | fault {cause : Fault.Cause} {p p' : Position} {n n' : Machine} : cause.missing? = none →
    n.recorder = m.recorder → n'.recorder = m'.recorder →
    Same m m' (.error (.fault ⟨cause, p⟩) n) (.error (.fault ⟨cause, p'⟩) n')

/-- The pieces do the same on machines that are alike, and record nothing. -/
def Plain (x x' : Run α) : Prop := ∀ m m', m.Alike m' → Same m m' (x m) (x' m')

variable {x x' : Run α} {f f' : α → Run β}

theorem Same.since {m m' n n' : Machine} {r r' : EStateM.Result Halt Machine α} (h : Same n n' r r')
    (hr : n.recorder = m.recorder) (hr' : n'.recorder = m'.recorder) : Same m m' r r' := by
  cases h with
  | ok alike later later' => exact .ok alike (later.trans hr) (later'.trans hr')
  | fault cause later later' => exact .fault cause (later.trans hr) (later'.trans hr')

namespace Plain

theorem pure (a : α) : Plain (pure a) (pure a) := fun _ _ h => .ok h rfl rfl

theorem fail {cause : Fault.Cause} (h : cause.missing? = none) {p p' : Position} :
    Plain (fail cause p : Run α) (fail cause p') := fun _ _ _ => .fault h rfl rfl

theorem bind (hx : Plain x x') (hf : ∀ a, Plain (f a) (f' a)) : Plain (x >>= f) (x' >>= f') := by
  intro m m' h
  have first := hx m m' h
  show Same m m' (EStateM.bind x f m) (EStateM.bind x' f' m')
  unfold EStateM.bind
  generalize x m = r at first
  generalize x' m' = r' at first
  cases first with
  | ok alike hr hr' => exact (hf _ _ _ alike).since hr hr'
  | fault cause hr hr' => exact .fault cause hr hr'

/-- What a piece does may depend on the state, but not on the lines that calls name. -/
theorem look {f f' : Environment → Run β} (h : ∀ env env', env.Alike env' → Plain (f env) (f' env')) :
    Plain (environment >>= f) (environment >>= f') := fun m m' alike => h _ _ alike.env m m' alike

theorem change {g g' : Environment → Environment}
    (h : ∀ env env', env.Alike env' → (g env).Alike (g' env')) :
    Plain (changeEnvironment g) (changeEnvironment g') :=
  fun _ _ alike => .ok ⟨h _ _ alike.env, alike.console, alike.input⟩ rfl rfl

/-- A change that does not look at the lines that calls name. -/
theorem changeSame {g : Environment → Environment} (bare : ∀ env, (g env).bare = g env.bare) :
    Plain (changeEnvironment g) (changeEnvironment g) := change fun _ _ alike => alike.change bare

theorem setMemory (memory : Memory) : Plain (changeEnvironment fun env => { env with memory })
    (changeEnvironment fun env => { env with memory }) := changeSame fun _ => rfl

theorem changeMemory (h : Memory → Memory) :
    Plain (changeEnvironment fun env => { env with memory := h env.memory })
      (changeEnvironment fun env => { env with memory := h env.memory }) := changeSame fun _ => rfl

/-- What a piece does may depend on the input too. -/
theorem lookAround {f f' : Machine → Run β} (h : ∀ m m', m.Alike m' → Plain (f m) (f' m')) :
    Plain (get >>= f) (get >>= f') := fun m m' alike => h m m' alike m m' alike

theorem setInput (rest : List Char) : Plain (modify fun m => { m with input := rest } : Run Unit)
    (modify fun m => { m with input := rest }) :=
  fun _ _ alike => .ok ⟨alike.env, alike.console, rfl⟩ rfl rfl

theorem print (text : String) : Plain (print text) (print text) :=
  fun _ _ alike => .ok ⟨alike.env, congrArg (·.print text) alike.console, alike.input⟩ rfl rfl

theorem assured (hx : Plain x x') : Plain (assured x) (assured x') := by
  intro m m' h
  have same := hx m m' h
  unfold Run.assured
  generalize x m = r at same
  generalize x' m' = r' at same
  cases same with
  | ok alike hr hr' => exact .ok alike hr hr'
  | fault cause hr hr' => exact .fault cause hr hr'

theorem ofCause {r : Except Fault.Cause α} (h : ∀ c, r = .error c → c.missing? = none) {p p' : Position} :
    Plain (ofCause p r) (ofCause p' r) := by
  cases r with
  | ok a => exact pure a
  | error cause => exact fail (h cause rfl)

theorem ofFormat (r : Except Format.Error α) {p p' : Position} :
    Plain (ofFormat p r) (ofFormat p' r) := by
  cases r with
  | ok a => exact pure a
  | error e => exact fail e.missing?_cause

/-- A plain piece beside itself keeps what was recorded. -/
theorem keeps (hx : Plain x x') (m : Machine) : Leaves x m fun n => n.recorder = m.recorder := by
  have same := hx m m (.refl m)
  unfold Leaves Ensures
  generalize x m = r at same
  generalize x' m = r' at same
  cases same with
  | ok _ hr _ => exact hr
  | fault _ hr _ => exact hr

end Plain

end Run

open Run

variable {s : Setting} {p p' : Position}

/-! Places -/

theorem requireDefined_plain (v : Value) (e : Expr) :
    Plain (requireDefined v e) (requireDefined v e.erase) := by
  unfold requireDefined
  rw [e.render_erase]
  split
  · exact .pure v
  · exact .fail rfl

theorem convertTo_plain (t : CType) (v : Value) : Plain (convertTo t v p) (convertTo t v p') := by
  unfold convertTo
  split
  · exact .pure _
  · exact .fail rfl

theorem requirePointer_plain (v : Value) : Plain (requirePointer v p) (requirePointer v p') := by
  unfold requirePointer
  split
  · exact .pure _
  · exact .fail rfl

theorem liveAllocation_plain (a : Address) : Plain (liveAllocation a p) (liveAllocation a p') := by
  refine .look fun env env' alike => ?_
  rw [alike.memory]
  split
  · exact .pure _
  · exact .fail (Memory.Fault.missing?_cause _ _)

theorem storeSlot_plain (a : Address) (v : Value) : Plain (storeSlot a v p) (storeSlot a v p') := by
  refine .look fun env env' alike => ?_
  rw [alike.memory]
  split
  · exact .setMemory _
  · exact .fail (Memory.Fault.missing?_cause _ _)

namespace Place

theorem elementsBehind_plain (v : Value) : Plain (elementsBehind v p) (elementsBehind v p') := by
  refine (requirePointer_plain v).bind fun start => (liveAllocation_plain start).bind fun al => ?_
  split
  · exact .fail rfl
  · exact .pure _

theorem element_plain (es : Elements) (index : Value) :
    Plain (element es index p) (element es index p') := by
  unfold element
  split
  · exact .fail rfl
  · split
    · exact .fail rfl
    · exact .pure _

theorem behind_plain (v : Value) : Plain (behind v p) (behind v p') :=
  (requirePointer_plain v).bind fun target => (liveAllocation_plain target).bind fun _ => .pure _

theorem requireStruct_plain (place : Place) : Plain (requireStruct place p) (requireStruct place p') := by
  unfold requireStruct
  split
  · exact .pure _
  · exact .fail rfl

theorem field_plain (base : Address) (name : String) :
    Plain (field s base name p) (field s.erase base name p') := by
  refine (liveAllocation_plain base).bind fun al => ?_
  have noStruct : Plain (fail (.typeMismatch "pointer to struct" al.type.text) p : Run Place)
      (fail (.typeMismatch "pointer to struct" al.type.text) p') := .fail rfl
  dsimp only
  split
  · rename_i struct _ _
    split
    · rw [show s.erase.structs.find? struct = _ from s.structs.find?_erase struct]
      cases s.structs.find? struct with
      | none => exact .fail rfl
      | some d =>
        dsimp only [Option.map_some, StructDef.erase, StructDef.fieldIndex?]
        split
        · exact .fail rfl
        · exact .pure _
    · exact noStruct
  · exact noStruct

theorem read_plain (place : Place) (e : Expr) : Plain (place.read e) (place.read e.erase) := by
  unfold read
  rw [e.render_erase]
  split
  · exact .pure _
  · refine .look fun env env' alike => ?_
    rw [alike.memory]
    split
    · exact .fail (Memory.Fault.missing?_cause _ _)
    · split
      · exact .pure _
      · exact .fail rfl

theorem readScalar_plain (place : Place) (e : Expr) :
    Plain (place.readScalar e) (place.readScalar e.erase) := by
  unfold readScalar
  split
  · exact .fail rfl
  · exact place.read_plain e

theorem write_plain (place : Place) (v : Value) : Plain (place.write v p) (place.write v p') := by
  unfold write
  split
  · exact .fail rfl
  · exact (convertTo_plain _ _).bind fun stored => (storeSlot_plain _ _).bind fun _ => .pure _

end Place

/-! Input, output, heap nodes and declarations -/

theorem printFormatted_plain (format : String) (values : List Value) :
    Plain (printFormatted format values p) (printFormatted format values p') :=
  (Plain.ofFormat _).bind fun text => (Plain.print text).bind fun _ => .pure _

theorem checkTargets_plain (cs : List Format.Conversion) (ps : List Place) :
    Plain (checkTargets p cs ps) (checkTargets p' cs ps) := by
  induction cs generalizing ps with
  | nil => exact .pure _
  | cons c cs ih =>
    cases ps with
    | nil => exact .pure _
    | cons place ps =>
      unfold checkTargets
      split
      · exact .fail rfl
      · exact ih ps

theorem storeAll_plain (vs : List Value) (ps : List Place) (es : List Expr) :
    Plain (storeAll p vs ps es) (storeAll p' vs ps (eraseAll es)) := by
  induction vs generalizing ps es with
  | nil => exact .pure _
  | cons v vs ih =>
    cases ps with
    | nil => exact .pure _
    | cons place ps =>
      cases es with
      | nil => exact .pure _
      | cons e es =>
        refine (place.write_plain v).bind fun stored => (ih ps es).bind fun more => ?_
        rw [e.render_erase]
        exact .pure _

theorem readFormatted_plain (format : String) (targets : List Expr) (places : List Place) :
    Plain (readFormatted format targets places p)
      (readFormatted format (eraseAll targets) places p') := by
  refine .lookAround fun m m' alike => ?_
  rw [alike.input]
  generalize Format.scan format m.input = outcome
  obtain ⟨scan, left⟩ := outcome
  refine (Plain.setInput left).bind fun _ => (Plain.ofFormat scan).bind fun scan => ?_
  have rest : Plain (do
      checkTargets p scan.conversions places
      let bound ← storeAll p scan.values places targets
      pure (⟨scan.result, bound⟩ : Reading)) (do
      checkTargets p' scan.conversions places
      let bound ← storeAll p' scan.values places (eraseAll targets)
      pure (⟨scan.result, bound⟩ : Reading)) :=
    (checkTargets_plain _ _).bind fun _ => (storeAll_plain _ _ _).bind fun _ => .pure _
  dsimp only
  split
  · exact (Plain.fail rfl).bind fun _ => rest
  · exact rest

theorem newNode_plain (struct : String) : Plain (newNode s struct p) (newNode s.erase struct p') := by
  unfold newNode
  rw [show s.erase.structs.find? struct = _ from s.structs.find?_erase struct]
  cases s.structs.find? struct with
  | none => exact .fail rfl
  | some d =>
    refine .look fun env env' alike => ?_
    rw [alike.memory]
    dsimp only [StructDef.erase]
    generalize env.memory.allocateNode struct _ = node
    obtain ⟨a, memory⟩ := node
    exact (Plain.setMemory memory).bind fun _ => .pure _

theorem freeNode_plain (args : List Value) : Plain (freeNode args p) (freeNode args p') := by
  unfold freeNode
  split
  · split
    · exact .pure _
    · refine .look fun env env' alike => ?_
      rw [alike.memory]
      split
      · exact .fail rfl
      · split
        · exact (Plain.changeMemory (·.retire _)).bind fun _ => .pure _
        · exact .fail rfl
  · exact .fail rfl
  · exact .fail rfl

theorem stepPlace_plain (op : StepOp) (place : Place) (operand : Expr) :
    Plain (stepPlace op place operand p) (stepPlace op place operand.erase p') :=
  (place.read_plain operand).bind fun _ =>
    (Plain.ofCause fun _ h => Fault.Cause.missing?_of_isOperand (Arith.isOperand_eval h)).bind
      fun _ => (place.write_plain _).bind fun _ => .pure _

theorem atFileScope_plain : Plain atFileScope atFileScope := by
  refine .look fun env env' alike => ?_
  rw [alike.isEmpty]
  exact .pure _

theorem declareScalar_plain (name : String) (type : CType) (v : Value) :
    Plain (declareScalar name type v) (declareScalar name type v) :=
  .changeSame fun _ => Environment.bare_declare _ name _

theorem storeRun_plain (a : Address) (vs : List Value) : Plain (storeRun p a vs) (storeRun p' a vs) := by
  induction vs generalizing a with
  | nil => exact .pure _
  | cons v vs ih => exact (storeSlot_plain a v).assured.bind fun _ => ih (a + 1)

theorem declareArray_plain (name : String) (elem : CType) (size : Nat) (fill : Value)
    (values : List Value) :
    Plain (declareArray name elem size fill values p) (declareArray name elem size fill values p') := by
  refine .look fun env env' alike => ?_
  rw [alike.memory]
  dsimp only
  exact (Plain.setMemory _).bind fun _ => (storeRun_plain _ values).bind fun _ =>
    .changeSame fun env => env.bare_declare name _

theorem bindParams_plain (ps : List Member) (vs : List Value) :
    Plain (bindParams p ps vs) (bindParams p' ps vs) := by
  induction ps generalizing vs with
  | nil => exact .pure _
  | cons param ps ih =>
    cases vs with
    | nil => exact .pure _
    | cons v vs =>
      exact (convertTo_plain _ _).bind fun v => (declareScalar_plain _ _ v).bind fun _ =>
        (ih vs).bind fun _ => .pure _

theorem checkArity_plain (f : Function) (args : List Value) :
    Plain (checkArity f args p) (checkArity f.erase args p') := by
  unfold checkArity
  dsimp only [Function.erase]
  split
  · exact .fail rfl
  · exact .pure _

theorem pushFrame_plain (function : String) (callLine callLine' entryLine entryLine' : Nat) :
    Plain (changeEnvironment fun env => env.pushFrame (.enter ⟨function, callLine, entryLine⟩))
      (changeEnvironment fun env => env.pushFrame (.enter ⟨function, callLine', entryLine'⟩)) := by
  refine .change fun env env' alike => ?_
  simp only [Environment.Alike, Environment.bare, Environment.pushFrame, List.map_cons, alike.memory,
    alike.globals, alike.frames]
  rfl

end Stepwise
