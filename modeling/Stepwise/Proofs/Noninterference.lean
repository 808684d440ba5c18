import Stepwise.Proofs.Accounting
import Stepwise.Proofs.Displacement

/-! The layout of a source text does not influence the run of its program. A run is compared with that of
the program without positions: unless it meets the limit on memory, it takes the same course, shows the
same states, and ends in the same way. Texts of the same tokens have one program without positions. -/

namespace Stepwise

open Run

/-! Pictures of states that are alike -/

/-- A step without what depends on where the program stands in its source. -/
def Step.bare (x : Step) : Step :=
  { x with line := 0, code := "", callStack := x.callStack.map Call.bare }

theorem Step.size_eq (x : Step) : x.size = x.bare.size + x.code.utf8ByteSize := by
  have calls : total callSize (x.callStack.map Call.bare) = total callSize x.callStack := by
    unfold total
    rw [List.foldr_map]
    rfl
  unfold Step.size
  rw [show x.bare.callStack = x.callStack.map Call.bare from rfl, calls]
  show 216 + _ + _ + _ + _ + _ + _ + _ = 216 + "".utf8ByteSize + _ + _ + _ + _ + _ + _ + _
  rw [show "".utf8ByteSize = 0 from rfl]
  simp only [Step.bare]
  omega

namespace Environment

variable {env env' : Environment} (h : env.Alike env')

include h

theorem Alike.visible : env'.visible = env.visible := by
  unfold Environment.visible
  rw [h.globals, h.locals]

theorem Alike.valueAt : env'.valueAt = env.valueAt := by
  funext a
  unfold Environment.valueAt
  rw [h.memory]

theorem Alike.scalars : env'.scalars = env.scalars := by
  unfold Environment.scalars
  rw [h.visible, h.memory, h.valueAt]

theorem Alike.arrays : env'.arrays = env.arrays := by
  unfold Environment.arrays Environment.arrayView
  rw [h.visible, h.memory, h.valueAt]

theorem Alike.preview (structs : Structs) : env'.preview structs.erase = env.preview structs := by
  funext target
  unfold Environment.preview
  rw [h.memory, h.valueAt]
  cases env.memory.liveAt target with
  | error fault => rfl
  | ok al =>
    dsimp only
    cases al.kind with
    | node struct fields =>
      dsimp only
      split
      · rw [structs.find?_erase, Option.map_map]
        rfl
      · rfl
    | _ => rfl

theorem Alike.pointers (structs : Structs) : env'.pointers structs.erase = env.pointers structs := by
  unfold Environment.pointers
  rw [h.visible, h.memory, h.valueAt, h.preview]

theorem Alike.heapNodes (structs : Structs) : env'.heapNodes structs.erase = env.heapNodes structs := by
  have fields (al : Allocation) : env'.nodeFields structs.erase al = env.nodeFields structs al := by
    unfold Environment.nodeFields
    rw [h.valueAt]
    cases al.struct? with
    | none => rfl
    | some name =>
      simp only [Option.bind_some, structs.find?_erase]
      cases structs.find? name <;> rfl
  unfold Environment.heapNodes Environment.nodeView
  simp only [h.memory, fields]

theorem Alike.callStack : env'.callStack.map Call.bare = env.callStack.map Call.bare := by
  have calls (env : Environment) :
      env.callStack.map Call.bare = ((env.frames.map Frame.bare).map Frame.call).reverse := by
    unfold Environment.callStack
    rw [List.map_reverse, List.map_map, List.map_map]
    rfl
  rw [calls, calls, h.frames]

end Environment

def Moment.bare (x : Moment) : Moment := { x with env := x.env.bare, line := 0 }

theorem Setting.code_erase (s : Setting) (line : Nat) : s.erase.code line = "" := by
  cases line <;> rfl

namespace Moment

variable {x x' : Moment}

/-- What a step shows apart from lines does not depend on them. -/
theorem bare_step (h : x.bare = x'.bare) (s : Setting) : (x'.step s.erase).bare = (x.step s).bare := by
  obtain ⟨ordinal, env, line, description, returned, console⟩ := x
  obtain ⟨ordinal', env', line', description', returned', console'⟩ := x'
  injection h with ordinal alike same description returned console
  subst ordinal description returned console
  have alike : env.Alike env' := alike
  have pointers : env'.pointers s.erase.structs = _ := alike.pointers s.structs
  have heapNodes : env'.heapNodes s.erase.structs = _ := alike.heapNodes s.structs
  simp only [Moment.step, Environment.capture, Step.bare, alike.scalars, alike.arrays, pointers, heapNodes,
    alike.callStack]

/-- A step without lines needs no more bytes. -/
theorem size_step_le (h : x.bare = x'.bare) (s : Setting) : (x'.step s.erase).size ≤ (x.step s).size := by
  have code : (x'.step s.erase).code = "" := s.code_erase _
  rw [Step.size_eq (x'.step s.erase), Step.size_eq (x.step s), bare_step h, code]
  exact Nat.add_le_add_left (Nat.zero_le _) _

end Moment

/-! Runs that take the same course -/

def Fault.bare (f : Fault) : Fault := { f with pos := .start }

def Halt.moved (p : Position) : Halt → Halt
  | .fault f => .fault { f with pos := p }
  | .excess (.depth limit function _) => .excess (.depth limit function p)
  | h => h

def Halt.bare (h : Halt) : Halt := h.moved .start

/-- What was recorded shows the same apart from lines, and took no more bytes on the right. -/
structure Recorder.Alike (r r' : Recorder Moment) : Prop where
  items : r.items.map Moment.bare = r'.items.map Moment.bare
  held : r'.held = r.held
  used : r'.used ≤ r.used

theorem Recorder.Alike.count {r r' : Recorder Moment} (h : r.Alike r') : r'.count = r.count := by
  have same := congrArg List.length h.items
  rw [List.length_map, List.length_map] at same
  rw [r.count_eq, r'.count_eq, same]

/-- The steps of recordings that are alike differ in lines only. -/
theorem Recorder.Alike.steps {r r' : Recorder Moment} (h : r.Alike r') (s : Setting) :
    (r'.steps s.erase).map Step.bare = (r.steps s).map Step.bare := by
  have same : r.toList.map Moment.bare = r'.toList.map Moment.bare := by
    rw [toList, toList, List.map_reverse, List.map_reverse, h.items]
  apply List.ext_getElem?
  intro i
  have at_i := congrArg (·[i]?) same
  simp only [Recorder.steps, List.getElem?_map] at at_i ⊢
  cases hx : r.toList[i]? with
  | none =>
    cases hx' : r'.toList[i]? with
    | none => rfl
    | some x' => simp [hx, hx'] at at_i
  | some x =>
    cases hx' : r'.toList[i]? with
    | none => simp [hx, hx'] at at_i
    | some x' =>
      simp only [hx, hx', Option.map_some, Option.some.injEq] at at_i
      exact congrArg some (Moment.bare_step at_i s)

structure Machine.InStep (m m' : Machine) : Prop extends m.Alike m' where
  records : m.recorder.Alike m'.recorder

namespace Run

variable {α β : Type}

/-- What a piece came to, and what it came to without positions. The first may meet the limit on memory
earlier, as its steps take more bytes. -/
inductive SameEnd : EStateM.Result Halt Machine α → EStateM.Result Halt Machine α → Prop
  | short {used limit : Nat} {m : Machine} {r : EStateM.Result Halt Machine α} :
    SameEnd (.error (.excess (.memory used limit)) m) r
  | ok {a : α} {m m' : Machine} : m.InStep m' → SameEnd (.ok a m) (.ok a m')
  | halt {h h' : Halt} {m m' : Machine} : h.bare = h'.bare → m.recorder.Alike m'.recorder →
    SameEnd (.error h m) (.error h' m')

def SameCourse (x x' : Run α) : Prop := ∀ m m', m.InStep m' → SameEnd (x m) (x' m')

variable {x x' : Run α} {f f' : α → Run β}

theorem Plain.sameCourse (hx : Plain x x') : SameCourse x x' := by
  intro m m' h
  have same := hx m m' h.toAlike
  generalize x m = r at same
  generalize x' m' = r' at same
  cases same with
  | ok alike hr hr' => exact .ok { alike with records := by rw [hr, hr']; exact h.records }
  | fault _ hr hr' => exact .halt rfl (by rw [hr, hr']; exact h.records)

theorem SameCourse.bind (hx : SameCourse x x') (hf : ∀ a, SameCourse (f a) (f' a)) :
    SameCourse (x >>= f) (x' >>= f') := by
  intro m m' h
  have first := hx m m' h
  show SameEnd (EStateM.bind x f m) (EStateM.bind x' f' m')
  unfold EStateM.bind
  generalize x m = r at first
  generalize x' m' = r' at first
  cases first with
  | short => exact .short
  | ok later => exact hf _ _ _ later
  | halt same records => exact .halt same records

/-- A look at the state that comes to the same but for the position of a fault. -/
theorem SameCourse.ofFault {g g' : Environment → Except Fault α}
    (h : ∀ env env', env.Alike env' → g' env' = (g env).mapError Fault.bare)
    {f : α → Run β} (hf : ∀ a, Plain (f a) (f a)) :
    SameCourse (do f (← Run.ofFault (g (← environment)))) (do f (← Run.ofFault (g' (← environment)))) := by
  have found : SameCourse (do Run.ofFault (g (← environment))) (do Run.ofFault (g' (← environment))) := by
    intro m m' inStep
    show SameEnd (Run.ofFault (g m.env) m) (Run.ofFault (g' m'.env) m')
    rw [h _ _ inStep.env]
    cases g m.env with
    | ok a => exact .ok inStep
    | error fault => exact .halt rfl inStep.records
  have := found.bind fun a => (hf a).sameCourse
  simpa only [bind_assoc] using this

theorem SameCourse.record (s : Setting) (line line' : Nat) (description : String)
    (returned : Option Value) :
    SameCourse (Run.record s line description returned) (Run.record s.erase line' description returned) := by
  intro m m' h
  have same : (m.moment line description returned).bare = (m'.moment line' description returned).bare := by
    unfold Machine.moment Machine.momentAs Moment.bare
    rw [h.console, h.env, h.records.count]
  have charge : m'.charge s.erase (m'.moment line' description returned) ≤
      m.charge s (m.moment line description returned) := by
    unfold Machine.charge
    have console : m'.recorder.consoleSize m'.console.snapshot.shared =
        m.recorder.consoleSize m.console.snapshot.shared := by
      unfold Recorder.consoleSize
      rw [h.console, h.records.held]
    rw [console]
    exact Nat.add_le_add_right (Moment.size_step_le same s) _
  have used := h.records.used
  rw [record_eq, record_eq, h.records.count]
  show SameEnd (ite (s.cancelled = true) _ _) (ite (s.cancelled = true) _ _)
  split
  · exact .halt rfl h.records
  show SameEnd (ite (s.limits.steps ≤ _) _ _) (ite (s.limits.steps ≤ _) _ _)
  split
  · exact .halt rfl h.records
  show SameEnd (ite (s.limits.memory < _) _ _) (ite (s.limits.memory < _) _ _)
  split
  · exact .short
  · rw [if_neg (by omega)]
    exact .ok {
      h.toAlike with
      console := congrArg Console.snapshot h.console
      records := {
        items := by
          show _ :: _ = _ :: _
          rw [same]
          exact congrArg _ h.records.items
        held := congrArg (fun c : Console => some c.snapshot.shared) h.console
        used := Nat.add_le_add used charge } }

theorem SameCourse.checkDepth (s : Setting) (f : Function) (p p' : Position) :
    SameCourse (checkDepth s f p) (checkDepth s.erase f.erase p') := by
  intro m m' h
  rw [checkDepth_eq, checkDepth_eq, h.env.depth]
  show SameEnd (ite (s.limits.depth ≤ _) _ _) (ite (s.limits.depth ≤ _) _ _)
  split
  · exact .halt rfl h.records
  · exact .ok h

end Run

/-! Types without positions -/

section Typing

variable {s : Setting} {env env' : Environment}

theorem Environment.variable_erase (alike : env.Alike env') (name : String) (p : Position) :
    env'.variable name .start = (env.variable name p).mapError Fault.bare := by
  unfold Environment.variable
  rw [alike.lookup?, alike.memory]
  cases env.lookup? name with
  | none => rfl
  | some found =>
    dsimp only
    cases env.memory.allocation? found.1 <;> rfl

theorem Structs.fieldType_erase (structs : Structs) (t : CType) (field : String) (p : Position) :
    structs.erase.fieldType t field .start =
      (structs.fieldType t field p).mapError Fault.bare := by
  unfold Structs.fieldType
  cases t.structName? with
  | none => rfl
  | some name =>
    dsimp only
    rw [structs.find?_erase]
    cases structs.find? name with
    | none => rfl
    | some d =>
      dsimp only [Option.map_some, StructDef.erase]
      cases d.fields.find? (·.name == field) <;> rfl

theorem staticType_erase (alike : env.Alike env') (e : Expr) :
    staticType s.erase env' e.erase = (staticType s env e).mapError Fault.bare := by
  have andThen {α β : Type} {x x' : Except Fault α} {f f' : α → Except Fault β}
      (hx : x' = x.mapError Fault.bare) (hf : ∀ a, f' a = (f a).mapError Fault.bare) :
      (x' >>= f') = (x >>= f).mapError Fault.bare := by
    rw [hx, funext hf]
    exact bind_mapError x f
  cases e with
  | var name p => exact andThen (Environment.variable_erase alike name p) fun _ => rfl
  | index array index p =>
    refine andThen (staticType_erase alike array) fun t => ?_
    cases t.element? <;> rfl
  | deref operand p =>
    refine andThen (staticType_erase alike operand) fun t => ?_
    cases t.element? <;> rfl
  | field object name arrow p =>
    exact andThen (staticType_erase alike object) fun t =>
      andThen (s.structs.fieldType_erase t.type name p) fun _ => rfl
  | addressOf operand p | step op operand p =>
    exact andThen (staticType_erase alike operand) fun _ => rfl
  | unary op operand p =>
    cases op with
    | neg => exact andThen (staticType_erase alike operand) fun _ => rfl
    | not => rfl
  | binary op left right p =>
    cases op with
    | arith op =>
      exact andThen (staticType_erase alike left) fun _ =>
        andThen (staticType_erase alike right) fun _ => rfl
    | compare op | connect op => rfl
  | call name args p =>
    simp only [Expr.erase, staticType, s.function?_erase]
    cases s.function? name <;> rfl
  | _ => rfl

theorem sizeofExpr_erase (alike : env.Alike env') (e : Expr) :
    sizeofExpr s.erase env' e.erase = (sizeofExpr s env e).mapError Fault.bare := by
  unfold sizeofExpr
  rw [staticType_erase alike]
  cases staticType s env e with
  | error fault => rfl
  | ok t =>
    show Except.ok _ = Except.ok _
    rw [show s.erase.structs.size t.type = s.structs.size t.type from s.structs.size_erase t.type]

end Typing

namespace Displacement

def course (s : Setting) : Displacement s where
  Rel := SameCourse
  Part _ := True
  Site _ := True
  plain := Plain.sameCourse
  bind := SameCourse.bind
  name {name p} _ := .ofFault (fun _ _ alike => Environment.variable_erase alike name p) fun _ => .pure _
  size _ _ _ := .ofFault (fun _ _ alike => sizeofExpr_erase alike _) fun _ => .pure _
  missing _ _ _ _ _ h := .halt rfl h.records
  missingMain _ _ _ h := .halt rfl h.records
  record description returned _ := .record s _ _ description returned
  depth f p := .checkDepth s f p .start
  stop _ _ h := .halt rfl h.records

end Displacement

/-! Programs without positions -/

namespace Structs

theorem erase_insert (structs : Structs) (d : StructDef) :
    Structs.erase (structs.insert d.name d) = structs.erase.insert d.erase.name d.erase := by
  apply KeyMap.ext
  rw [entries_erase]
  show (KeyMap.insertEntry d.name d structs.entries).map _ =
    KeyMap.insertEntry d.name d.erase structs.erase.entries
  rw [entries_erase]
  induction structs.entries with
  | nil => rfl
  | cons e rest ih =>
    rw [List.map_cons, KeyMap.insertEntry, KeyMap.insertEntry]
    cases compare d.name e.1 with
    | lt => rfl
    | eq => rfl
    | gt => exact congrArg _ ih

theorem erase_ofDefs (defs : List StructDef) :
    (ofDefs defs).erase = ofDefs (defs.map StructDef.erase) := by
  -- the structs are put in one by one
  suffices fold : ∀ structs : Structs,
      Structs.erase ((defs.map fun d => (d.name, d)).foldl (fun m e => m.insert e.1 e.2) structs) =
        ((defs.map StructDef.erase).map fun d => (d.name, d)).foldl (fun m e => m.insert e.1 e.2)
          structs.erase from fold .empty
  induction defs with
  | nil => exact fun _ => rfl
  | cons d rest ih =>
    intro structs
    simp only [List.map_cons, List.foldl_cons]
    rw [ih, erase_insert]

end Structs

/-- Programs that differ in positions only run in the same setting once positions are gone. -/
theorem Setting.erase_ofProgram {p p' : Program} (h : p.erase = p'.erase) (source source' : String)
    (limits : Limits) (cancelled : Bool) :
    (ofProgram p source limits cancelled).erase = (ofProgram p' source' limits cancelled).erase := by
  unfold Setting.erase ofProgram
  simp only [Structs.erase_ofDefs, ← Program.functions_erase, ← Program.structs_erase, h]

/-- What a run comes to without positions, and what the run itself comes to. -/
theorem runProgram_sameEnd (p : Program) (s : Setting) (input : String) :
    SameEnd (runProgram s p.globals (.start input))
      (runProgram s.erase p.erase.globals (.start input)) := by
  rw [p.globals_erase]
  exact (Displacement.course s).runProgram_rel ⟨fun _ _ _ _ => trivial, fun _ _ _ _ => trivial⟩
    p.globals (fun _ _ _ _ => trivial) (fun _ _ => trivial) _ _
    { Machine.Alike.refl _ with records := ⟨rfl, rfl, Nat.le_refl _⟩ }

/-! Traces -/

inductive Status.Alike : Status → Status → Prop
  | completed : Alike .completed .completed
  | parseError (p p' : Position) (message : String) :
    Alike (.parseError p.line p.column message) (.parseError p'.line p'.column message)
  | runtimeError (kind : Fault.Kind) (front back : String) (index : Nat) (p p' : Position) :
    Alike (.runtimeError kind (front ++ p.text ++ back) index p.line p.column)
      (.runtimeError kind (front ++ p'.text ++ back) index p'.line p'.column)
  | limitExceeded (kind : Excess.Kind) (message : String) :
    Alike (.limitExceeded kind message) (.limitExceeded kind message)
  | limitExceededAt (kind : Excess.Kind) (front back : String) (p p' : Position) :
    Alike (.limitExceeded kind (front ++ p.text ++ back)) (.limitExceeded kind (front ++ p'.text ++ back))

/-- The traces differ in positions only: in the lines of steps and calls, and in the code of lines. -/
structure Trace.Alike (t t' : Trace) : Prop where
  steps : t.steps.map Step.bare = t'.steps.map Step.bare
  status : t.status.Alike t'.status

/-- A message names the place once. -/
theorem Fault.Cause.message_eq (c : Fault.Cause) :
    ∃ front back : String, ∀ loc, c.message loc = front ++ loc ++ back := by
  have last {c : Fault.Cause} (front : String) (h : ∀ loc, c.message loc = front ++ loc) :
      ∃ front back : String, ∀ loc, c.message loc = front ++ loc ++ back :=
    ⟨front, "", fun loc => (h loc).trans String.append_empty.symm⟩
  induction c with
  | divisionByZero modulo =>
    exact last ((if modulo then "modulo" else "division") ++ " by zero at ")
      fun _ => (String.append_assoc ..).symm
  | nullDereference => exact last "null pointer dereference at " fun _ => rfl
  | dangling a =>
    exact last ("dangling pointer " ++ addressText a ++ " dereferenced at ")
      fun _ => (String.append_assoc ..).symm
  | invalidAddress a =>
    exact last ("invalid address " ++ addressText a ++ " dereferenced at ")
      fun _ => (String.append_assoc ..).symm
  | outOfBounds index size =>
    exact last s!"index {index} out of bounds for array of size {size} at " fun _ => rfl
  | undefinedVariable name => exact last s!"undefined variable '{name}' at " fun _ => rfl
  | uninitialized place => exact last s!"'{place}' is read before it is initialized at " fun _ => rfl
  | typeMismatch expected found =>
    refine ⟨"type mismatch at ", ": expected " ++ expected ++ ", found " ++ found, fun loc => ?_⟩
    show "type mismatch at " ++ loc ++ ": expected " ++ expected ++ ", found " ++ found = _
    simp only [String.append_assoc]
  | missingField struct field => exact last s!"struct {struct} has no field '{field}' at " fun _ => rfl
  | badFormat reason =>
    refine ⟨"invalid format at ", ": " ++ reason, fun loc => ?_⟩
    exact String.append_assoc ..
  | badFree a =>
    exact last ("free of " ++ addressText a ++ ", which is not a live heap node, at ")
      fun _ => (String.append_assoc ..).symm
  | capacityOverflow => exact last "capacity overflow at " fun _ => rfl
  | internal shown ih => exact ih

namespace Halt

theorem exists_eq_moved (h : Halt) : ∃ p, h = h.bare.moved p := by
  cases h with
  | fault f => exact ⟨f.pos, rfl⟩
  | excess e =>
    cases e with
    | depth limit function p => exact ⟨p, rfl⟩
    | _ => exact ⟨.start, rfl⟩
  | _ => exact ⟨.start, rfl⟩

theorem status_moved (h : Halt) (p p' : Position) (count : Nat) :
    ((h.moved p).status count).Alike ((h.moved p').status count) := by
  cases h with
  | fault f =>
    obtain ⟨front, back, message⟩ := f.cause.message_eq
    simp only [moved, status, Fault.message, message]
    exact .runtimeError _ front back count p p'
  | excess e =>
    cases e with
    | depth limit function q =>
      have message (p : Position) : Excess.message (.depth limit function p) =
          s!"recursion depth limit of {limit} exceeded calling '{function}' at " ++ p.text ++ "" :=
        String.append_empty.symm
      simp only [moved, status, message]
      exact .limitExceededAt _ _ "" p p'
    | _ => exact .limitExceeded _ _
  | _ => exact .limitExceeded _ _

theorem status_alike {h h' : Halt} (same : h.bare = h'.bare) (count : Nat) :
    (h.status count).Alike (h'.status count) := by
  obtain ⟨p, eq⟩ := h.exists_eq_moved
  obtain ⟨p', eq'⟩ := h'.exists_eq_moved
  rw [eq, eq', same]
  exact h'.bare.status_moved p p' count

end Halt

theorem Trace.finish_alike {xs xs' : List Step} {outcome outcome' : Except Halt Unit}
    (steps : xs.map Step.bare = xs'.map Step.bare)
    (ends : outcome.mapError Halt.bare = outcome'.mapError Halt.bare) :
    (finish xs outcome).Alike (finish xs' outcome') := by
  have count : xs'.length = xs.length := by
    simpa only [List.length_map] using (congrArg List.length steps).symm
  refine ⟨steps, ?_⟩
  cases outcome with
  | ok u =>
    cases outcome' with
    | ok u' => exact .completed
    | error h' => cases ends
  | error h =>
    cases outcome' with
    | ok u' => cases ends
    | error h' =>
      show (h.status _).Alike (h'.status _)
      rw [count]
      exact Halt.status_alike (Except.error.inj ends) _

namespace Program

/-- Without positions a program runs the same, unless the limit on memory ends its run. -/
theorem run_erase (p : Program) (s : Setting) (input : String) :
    (∃ used limit, (p.run s input).2 = .error (.excess (.memory used limit))) ∨
      (p.trace s input).steps.map Step.bare = (p.erase.trace s.erase input).steps.map Step.bare ∧
        (p.run s input).2.mapError Halt.bare = (p.erase.run s.erase input).2.mapError Halt.bare := by
  have ends := runProgram_sameEnd p s input
  unfold trace run
  generalize runProgram s p.globals (.start input) = r at ends
  generalize runProgram s.erase p.erase.globals (.start input) = r' at ends
  cases ends with
  | short => exact .inl ⟨_, _, rfl⟩
  | ok later => exact .inr ⟨(later.records.steps s).symm, rfl⟩
  | halt same records => exact .inr ⟨(records.steps s).symm, congrArg Except.error same⟩

/-- Programs that differ in positions only have traces that differ in positions only, unless one of them
meets the limit on memory. -/
theorem trace_alike {p p' : Program} (same : p.erase = p'.erase) {s s' : Setting}
    (settings : s.erase = s'.erase) {input : String}
    (h : ∀ message, (p.trace s input).status ≠ .limitExceeded .memory message)
    (h' : ∀ message, (p'.trace s' input).status ≠ .limitExceeded .memory message) :
    (p.trace s input).Alike (p'.trace s' input) := by
  have enough {p : Program} {s : Setting}
      (h : ∀ message, (p.trace s input).status ≠ .limitExceeded .memory message) :
      ¬∃ used limit, (p.run s input).2 = .error (.excess (.memory used limit)) := by
    rintro ⟨used, limit, short⟩
    apply h (Excess.memory used limit).message
    show (Trace.finish _ (p.run s input).2).status = _
    rw [short]
    rfl
  obtain ⟨steps, ends⟩ := (p.run_erase s input).resolve_left (enough h)
  obtain ⟨steps', ends'⟩ := (p'.run_erase s' input).resolve_left (enough h')
  rw [← same, ← settings] at steps' ends'
  exact Trace.finish_alike (steps.trans steps'.symm) (ends.trans ends'.symm)

end Program

/-- The layout of a text does not influence the run of its program: unless a run meets the limit on
memory, texts of the same tokens have traces that differ in positions only. Neither text is a program,
and the message is the same, or both are. -/
theorem layout_irrelevant {source source' : String} {ts ts' : List Lexeme}
    (h : tokenize source = .ok ts) (h' : tokenize source' = .ok ts')
    (same : ts.map (·.token) = ts'.map (·.token)) {input : String} {limits : Limits} {cancelled : Bool}
    (enough : ∀ message, (traceSource source input limits cancelled).status ≠
      .limitExceeded .memory message)
    (enough' : ∀ message, (traceSource source' input limits cancelled).status ≠
      .limitExceeded .memory message) :
    (traceSource source input limits cancelled).Alike (traceSource source' input limits cancelled) ∧
      ((∃ e e', Program.parse source = .error e ∧ Program.parse source' = .error e' ∧
        e.message = e'.message) ∨
      ∃ p p', Program.parse source = .ok p ∧ Program.parse source' = .ok p') := by
  rcases Program.parse_alike h h' same with ⟨e, e', he, he', cause⟩ | ⟨p, p', hp, hp', erased⟩
  · have message : e.message = e'.message := congrArg ParseError.Cause.message cause
    refine ⟨?_, .inl ⟨e, e', he, he', message⟩⟩
    simp only [traceSource, he, he', Trace.ofParseError, message]
    exact ⟨rfl, .parseError e.pos e'.pos e'.message⟩
  · refine ⟨?_, .inr ⟨p, p', hp, hp'⟩⟩
    simp only [traceSource, hp, hp'] at enough enough' ⊢
    exact Program.trace_alike erased (Setting.erase_ofProgram erased source source' limits cancelled)
      enough enough'

def denseText : String :=
  "int f(int n) \x7b return 8 / n; \x7d\nint main() \x7b return f(0); \x7d\n"

/-- The same program with a directive, with comments and in many lines. -/
def spreadText : String :=
  "#define A\nint f(int n) // divides\n\x7b\n  return 8\n    / n;\n\x7d /* the\n   rest */\n" ++
    "int main()\n\x7b\n\treturn f(0);\n\x7d"

theorem layout_irrelevant_spread :
    ∃ ts ts', tokenize denseText = .ok ts ∧ tokenize spreadText = .ok ts' ∧
      ts.map (·.token) = ts'.map (·.token) ∧
      (traceSource denseText "" ⟨100, 9, 99999⟩ false).status =
        .runtimeError .divisionByZero "division by zero at line 1, column 25" 2 (some 1) (some 25) ∧
      (traceSource spreadText "" ⟨100, 9, 99999⟩ false).status =
        .runtimeError .divisionByZero "division by zero at line 5, column 5" 2 (some 5) (some 5) ∧
      (traceSource denseText "" ⟨100, 9, 99999⟩ false).Alike
        (traceSource spreadText "" ⟨100, 9, 99999⟩ false) := by
  have tokens : (tokenize denseText).toOption.any (fun ts =>
      (tokenize spreadText).toOption.any fun ts' => ts.map (·.token) = ts'.map (·.token)) = true := by
    decide +kernel
  have dense : (traceSource denseText "" ⟨100, 9, 99999⟩ false).status = _ :=
    (by decide +kernel : _ =
      .runtimeError .divisionByZero "division by zero at line 1, column 25" 2 (some 1) (some 25))
  have spread : (traceSource spreadText "" ⟨100, 9, 99999⟩ false).status = _ :=
    (by decide +kernel : _ =
      .runtimeError .divisionByZero "division by zero at line 5, column 5" 2 (some 5) (some 5))
  cases h : tokenize denseText with
  | error e =>
    rw [h] at tokens
    cases tokens
  | ok ts =>
    cases h' : tokenize spreadText with
    | error e =>
      rw [h, h'] at tokens
      cases tokens
    | ok ts' =>
      rw [h, h'] at tokens
      have same : ts.map (·.token) = ts'.map (·.token) := of_decide_eq_true tokens
      refine ⟨ts, ts', rfl, rfl, same, dense, spread, (layout_irrelevant h h' same ?_ ?_).1⟩
      · intro message
        rw [dense]
        nofun
      · intro message
        rw [spread]
        nofun

end Stepwise
