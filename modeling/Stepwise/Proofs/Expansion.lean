import Stepwise.Proofs.AccessPaths
import Stepwise.Proofs.Clauses
import Stepwise.Proofs.Noninterference

/-! Short forms of assignment and what they stand for. A compound assignment finds the value first and its
place last and once, where the assignment that it stands for reads the place first and finds it twice. If
none of the parts has an effect of its own, both store the same and record the same. A step of a place is
the compound assignment with 1, whatever is done to find the place. The two texts that are compared stand at
different positions, so their parts are the same up to positions only. -/

namespace Stepwise

open Run

variable {α β : Type} {s : Setting} {call : CallHandler} {m m' m₁ m₂ : Machine} {n : Nat}

/-! The same text at other positions -/

mutual

theorem Expr.effects_erase (e : Expr) : e.erase.effects = e.effects := by
  cases e with
  | int | float | char | null | var | sizeofType | sizeofExpr | newNode => rfl
  | unary _ e | addressOf e | deref e | field e | cast _ e => exact e.effects_erase
  | binary _ e e' | index e e' => exact congrArg₂ (· ++ ·) e.effects_erase e'.effects_erase
  | step _ e => exact congrArg (· ++ _) e.effects_erase
  | call _ es | print _ es | read _ es => exact congrArg (· ++ _) (effectsAll_erase es)

theorem effectsAll_erase (es : List Expr) : effectsAll (eraseAll es) = effectsAll es := by
  cases es with
  | nil => rfl
  | cons e rest => exact congrArg₂ (· ++ ·) e.effects_erase (effectsAll_erase rest)

end

theorem Expr.effects_of_erase {e e' : Expr} (same : e'.erase = e.erase) (free : e.effects = []) :
    e'.effects = [] := by
  rw [← e'.effects_erase, same, e.effects_erase, free]

theorem Machine.InStep.refl (m : Machine) : m.InStep m :=
  { Machine.Alike.refl m with records := ⟨rfl, rfl, Nat.le_refl _⟩ }

theorem course_calls (s : Setting) (n : Nat) :
    (Displacement.course s).Calls (s.handlerWithin n) (s.erase.handlerWithin n) := fun _ hf args p =>
  (Displacement.course s).callFunction_rel ⟨fun _ _ _ _ => trivial, fun _ _ _ _ => trivial⟩ n hf args
    p.line _ p

namespace Run

variable {x y z : Run α} {f : α → Run β} {a : α}

def Spared (x : Run α) (m : Machine) : Prop := ∀ excess m', x m ≠ .error (.excess excess) m'

theorem Spared.first (h : Spared (x >>= f) m) : Spared x m :=
  fun excess m' halts => h excess m' (bind_error halts)

theorem Spared.next (h : Spared (x >>= f) m) (hx : x m = .ok a m₁) : Spared (f a) m₁ :=
  fun excess m' halts => h excess m' ((bind_ok hx).trans halts)

theorem spared_of_ok (h : x m = .ok a m₁) : Spared x m := by
  intro excess m' halts
  rw [h] at halts
  cases halts

/-- Pieces that take the same course without positions have the same value, unless one meets a limit. -/
theorem SameCourse.respelled (hx : SameCourse x z) (hy : SameCourse y z) (spared : Spared y m)
    (h : x m = .ok a m₁) : ∃ m₂, y m = .ok a m₂ ∧ m₂.env.memory = m₁.env.memory := by
  have first := hx m m (.refl m)
  have second := hy m m (.refl m)
  rw [h] at first
  generalize z m = r at first second
  cases first with
  | ok inStep =>
    generalize found : y m = r at second
    cases second with
    | short => exact absurd found (spared _ _)
    | ok inStep' => exact ⟨_, rfl, inStep'.env.memory.symm.trans inStep.env.memory⟩

theorem Looks.respelled (looks : Looks y) (hx : SameCourse x z) (hy : SameCourse y z)
    (spared : Spared y m) (h : x m = .ok a m₁) : y m = .ok a m := by
  obtain ⟨m₂, found, -⟩ := hx.respelled hy spared h
  obtain rfl := looks.ok found
  exact found

end Run

section

variable {e e' : Expr} (free : e'.effects = []) (same : e.erase = e'.erase)

include free same

theorem evalOperand_respelled {v : Value} (spared : Spared (evalOperand s (s.handlerWithin n) e') m)
    (h : evalOperand s (s.handlerWithin n) e m = .ok v m₁) :
    evalOperand s (s.handlerWithin n) e' m = .ok v m := by
  have course (e : Expr) := (Displacement.course s).evalOperand_rel (course_calls s n) e fun _ _ => trivial
  exact (looks_evalOperand free).respelled (same ▸ course e) (course e') spared h

theorem evalPlace_respelled {p : Place} (spared : Spared (evalPlace s (s.handlerWithin n) e') m)
    (h : evalPlace s (s.handlerWithin n) e m = .ok p m₁) :
    evalPlace s (s.handlerWithin n) e' m = .ok p m := by
  have course (e : Expr) := (Displacement.course s).evalPlace_rel (course_calls s n) e fun _ _ => trivial
  exact (looks_evalPlace free).respelled (same ▸ course e) (course e') spared h

end

/-! Reading, storing and operators -/

namespace Place

variable {p : Place} {v stored : Value}

theorem read_ok {old : Value} (single : p.arrayLen = none) (held : m.env.memory.read p.address = .ok old)
    (defined : old.isDefined) (e : Expr) : p.read e m = .ok old m := by
  have environment : Run.environment m = .ok m.env m := rfl
  unfold read
  rw [single]
  dsimp only
  rw [bind_ok environment]
  simp only [held, defined, if_true]
  rfl

/-- What can be read can be stored to. -/
theorem write_ok {old : Value} (single : p.arrayLen = none) (held : m.env.memory.read p.address = .ok old)
    (converted : v.convert p.type = some stored) (pos : Position) : p.write v pos m =
      .ok stored { m with env.memory.slots := m.env.memory.slots.insert p.address stored } := by
  have convert : convertTo p.type v pos m = .ok stored m := by
    unfold convertTo
    rw [converted]
    rfl
  have written : m.env.memory.write p.address stored =
      .ok { m.env.memory with slots := m.env.memory.slots.insert p.address stored } := by
    unfold Memory.read at held
    unfold Memory.write
    cases live : m.env.memory.liveAt p.address with
    | error fault => simp [live] at held
    | ok al => rfl
  have store : storeSlot p.address stored pos m =
      .ok () { m with env.memory.slots := m.env.memory.slots.insert p.address stored } := by
    have environment : Run.environment m = .ok m.env m := rfl
    unfold storeSlot
    rw [bind_ok environment, written]
    rfl
  unfold write
  rw [single]
  dsimp only
  rw [bind_ok convert, bind_ok store]
  rfl

/-- A whole struct takes no value, so what takes one can be read. -/
theorem readScalar_ok {old new : Value} (single : p.arrayLen = none)
    (held : m.env.memory.read p.address = .ok old) (defined : old.isDefined) (known : new.isDefined)
    (converted : new.convert p.type = some stored) (e : Expr) : p.readScalar e m = .ok old m := by
  have scalar : ¬ (p.arrayLen.isNone ∧ p.type.isStruct) := by
    rintro ⟨-, struct⟩
    rw [Value.convert_struct known struct] at converted
    cases converted
  unfold readScalar
  rw [if_neg scalar]
  exact read_ok single held defined e

end Place

theorem evalPlace_isPlace {e : Expr} {p : Place} (h : evalPlace s call e m = .ok p m') : e.isPlace := by
  cases e with
  | var | index | deref | field => rfl
  | _ => cases h

theorem ofCause_ok {pos : Position} {r : Except Fault.Cause α} {a : α} (h : r = .ok a) (m : Machine) :
    ofCause pos r m = .ok a m := by
  rw [h]
  rfl

theorem ofCause_eq_ok {pos : Position} {r : Except Fault.Cause α} {a : α}
    (h : ofCause pos r m = .ok a m') : r = .ok a ∧ m' = m := by
  obtain ⟨same, found⟩ := (inspects_ofCause pos r).ok h
  exact ⟨found, same⟩

theorem evalOperand_arith (op : Arith) (left right : Expr) (pos : Position) :
    evalOperand s call (.binary (.arith op) left right pos) = (do
      let l ← evalOperand s call left
      let r ← evalOperand s call right
      requireDefined (← ofCause pos (op.eval l r)) (.binary (.arith op) left right pos)) := by
  simp only [evalOperand, evalExpr_arith, bind_assoc]

theorem evalOperand_of_isPlace {e : Expr} (h : e.isPlace) :
    evalOperand s call e = (do requireDefined (← (← evalPlace s call e).readScalar e) e) := by
  simp only [evalOperand, evalExpr_of_isPlace s call h, bind_assoc]

/-! Compound assignments -/

section

variable {lv lv₁ lv₂ e e' : Expr} {op : Arith} {stored : Value} {pos q r : Position}
  (freePlace : lv.effects = []) (freeValue : e.effects = []) (same₁ : lv₁.erase = lv.erase)
  (same₂ : lv₂.erase = lv.erase) (same : e'.erase = e.erase)

include freePlace freeValue same₁ same₂ same

/-- Where a compound assignment stores a value, so does the assignment that it stands for. -/
theorem assign_of_compound
    (spared : Spared (assign s (s.handlerWithin n) lv₁ none (.binary (.arith op) lv₂ e' q) r) m)
    (h : assign s (s.handlerWithin n) lv (some op) e pos m = .ok stored m') :
    assign s (s.handlerWithin n) lv₁ none (.binary (.arith op) lv₂ e' q) r m = .ok stored m' := by
  obtain ⟨right, m₁, place, m₂, value, named, single, ⟨old, new, held, defined, computed, converted⟩, rfl⟩ :=
    assign_eq_ok h
  obtain rfl := (looks_evalOperand freeValue).ok value
  obtain rfl := (looks_evalPlace freePlace).ok named
  have known := Arith.eval_isDefined computed
  have found : evalOperand s (s.handlerWithin n) (.binary (.arith op) lv₂ e' q) m₂ = .ok new m₂ := by
    have spared := spared.first
    rw [evalOperand_arith] at spared ⊢
    have left : evalOperand s (s.handlerWithin n) lv₂ m₂ = .ok old m₂ := by
      have isPlace : lv₂.isPlace := by
        rw [← lv₂.isPlace_erase, same₂, lv.isPlace_erase]
        exact evalPlace_isPlace named
      have spared := spared.first
      rw [evalOperand_of_isPlace isPlace] at spared ⊢
      have again := evalPlace_respelled (Expr.effects_of_erase same₂ freePlace)
        same₂.symm spared.first named
      rw [bind_ok again, bind_ok (Place.readScalar_ok single held defined known converted lv₂)]
      exact requireDefined_eq defined lv₂ m₂
    have right' := evalOperand_respelled (Expr.effects_of_erase same freeValue)
      same.symm (spared.next left).first value
    rw [bind_ok left, bind_ok right', bind_ok (ofCause_ok computed m₂)]
    exact requireDefined_eq known _ m₂
  have target := evalPlace_respelled (Expr.effects_of_erase same₁ freePlace)
    same₁.symm (spared.next found).first named
  unfold assign
  rw [bind_ok found, bind_ok target]
  exact Place.write_ok single held converted r

/-- Where the assignment stores a value that a compound assignment stands for, so does that. -/
theorem compound_of_assign (spared : Spared (assign s (s.handlerWithin n) lv (some op) e pos) m)
    (h : assign s (s.handlerWithin n) lv₁ none (.binary (.arith op) lv₂ e' q) r m = .ok stored m') :
    assign s (s.handlerWithin n) lv (some op) e pos m = .ok stored m' := by
  have free₁ := Expr.effects_of_erase same₁ freePlace
  have free₂ := Expr.effects_of_erase same₂ freePlace
  have free' := Expr.effects_of_erase same freeValue
  obtain ⟨new, m₁, place, m₂, value, named, single, converted, rfl⟩ := assign_eq_ok h
  have sum : (Expr.binary (.arith op) lv₂ e' q).effects = [] := List.append_eq_nil_iff.mpr ⟨free₂, free'⟩
  obtain rfl := (looks_evalOperand sum).ok value
  obtain rfl := (looks_evalPlace free₁).ok named
  -- the value was made of what the place holds and of the value of `e'`
  rw [evalOperand_arith] at value
  obtain ⟨old, m₃, left, more⟩ := bind_eq_ok value
  obtain rfl := (looks_evalOperand free₂).ok left
  obtain ⟨right, m₄, right', result⟩ := bind_eq_ok more
  obtain rfl := (looks_evalOperand free').ok right'
  obtain ⟨new', m₅, applied, last⟩ := bind_eq_ok result
  obtain ⟨computed, rfl⟩ := ofCause_eq_ok applied
  obtain ⟨-, rfl, -⟩ := (inspects_requireDefined new' _).ok last
  have isPlace : lv₂.isPlace := by
    rw [← lv₂.isPlace_erase, same₂, ← same₁, lv₁.isPlace_erase]
    exact evalPlace_isPlace named
  rw [evalOperand_of_isPlace isPlace] at left
  obtain ⟨place', m₆, again, read⟩ := bind_eq_ok left
  obtain rfl := (looks_evalPlace free₂).ok again
  have known := evalOperand_respelled freeValue same spared.first right'
  have target := evalPlace_respelled freePlace same₁ (spared.next known).first named
  obtain rfl : place' = place := by
    have target' := evalPlace_respelled freePlace same₂ (spared.next known).first again
    rw [target] at target'
    cases target'
    rfl
  obtain ⟨old', m₇, found, defined⟩ := bind_eq_ok read
  obtain rfl := (place'.looks_readScalar lv₂).ok found
  obtain ⟨-, rfl, -⟩ := (inspects_requireDefined old' lv₂).ok defined
  have held : place'.read lv₂ m₇ = .ok old m₇ := by
    unfold Place.readScalar at found
    split at found
    · cases found
    · exact found
  obtain ⟨held, defined⟩ := Place.read_eq_ok single held
  unfold assign
  rw [bind_ok known, bind_ok target]
  dsimp only
  rw [bind_ok (Place.read_ok single held defined lv), bind_ok (ofCause_ok computed _)]
  exact Place.write_ok single held converted pos

end

/-! Statements -/

/-- Unless one of them meets a limit, both pieces succeed or neither does, and the states are related that
they leave. -/
def Run.Agree (x y : Run Unit) (m : Machine) (R : Machine → Machine → Prop) : Prop :=
  Spared x m → Spared y m → ((∃ m₁, x m = .ok () m₁) ↔ ∃ m₂, y m = .ok () m₂) ∧
    ∀ m₁ m₂, x m = .ok () m₁ → y m = .ok () m₂ → R m₁ m₂

/-- Two states after one more step each, which differ in the line of that step only. -/
structure Machine.SameStep (s : Setting) (m m₁ m₂ : Machine) : Prop where
  env : m₂.env = m₁.env
  console : m₂.console = m₁.console
  input : m₂.input = m₁.input
  step : ∃ x x', m₁.recorder.toList = m.recorder.toList ++ [x] ∧
    m₂.recorder.toList = m.recorder.toList ++ [x'] ∧
    x'.step s = { x.step s with line := x'.line, code := s.code x'.line }

/-- A step can be recorded where no limit stands against it, if one can be recorded at all. -/
theorem record_of_spared {line line' : Nat} {text text' : String} {returned returned' : Option Value}
    (h : Run.record s line text returned m = .ok () m₁)
    (spared : Spared (Run.record s line' text' returned') m') :
    Run.record s line' text' returned' m' = .ok () (m'.recorded s (m'.moment line' text' returned')) := by
  have ensures := record_ensures s line' text' returned' m'
  cases ended : Run.record s line' text' returned' m' with
  | ok a m₂ => rw [(ensures.ok ended).1]
  | error halt m₂ =>
    obtain ⟨-, ⟨-, cancelled⟩ | ⟨excess, rfl⟩⟩ := ensures.error ended
    · rw [record_eq, if_pos cancelled] at h
      cases h
    · exact absurd ended (spared excess m₂)

theorem runSimple_of_spared {c c' : Simple} {text : String} (h : runSimple s call c m = .ok () m₁)
    (performed : perform s call c' m = .ok text m₂) (spared : Spared (runSimple s call c') m) :
    runSimple s call c' m = .ok () (m₂.recorded s (m₂.moment c'.pos.line text none)) := by
  obtain ⟨text', m₃, -, recorded⟩ := bind_eq_ok h
  exact (bind_ok performed).trans (record_of_spared recorded (spared.next performed))

/-- Statements agree if what they do before they record their steps comes to the same. -/
theorem agree_of_perform {c c' : Simple} {Q : String × Machine → String × Machine → Prop}
    {R : Machine → Machine → Prop}
    (forth : ∀ text m₁, perform s call c m = .ok text m₁ → Spared (perform s call c') m →
      ∃ text' m₂, perform s call c' m = .ok text' m₂ ∧ Q (text, m₁) (text', m₂))
    (back : ∀ text' m₂, perform s call c' m = .ok text' m₂ → Spared (perform s call c) m →
      ∃ text m₁, perform s call c m = .ok text m₁)
    (recorded : ∀ text m₁ text' m₂, Q (text, m₁) (text', m₂) →
      R (m₁.recorded s (m₁.moment c.pos.line text none)) (m₂.recorded s (m₂.moment c'.pos.line text' none))) :
    Agree (runSimple s call c) (runSimple s call c') m R := by
  intro spared spared'
  refine ⟨⟨?_, ?_⟩, ?_⟩
  · rintro ⟨m₁, h⟩
    obtain ⟨text, m₃, performed, rfl⟩ := runSimple_eq_ok h
    obtain ⟨text', m₂, performed', -⟩ := forth text m₃ performed spared'.first
    exact ⟨_, runSimple_of_spared h performed' spared'⟩
  · rintro ⟨m₂, h⟩
    obtain ⟨text', m₃, performed', rfl⟩ := runSimple_eq_ok h
    obtain ⟨text, m₁, performed⟩ := back text' m₃ performed' spared.first
    exact ⟨_, runSimple_of_spared h performed spared⟩
  · intro m₁ m₂ h h'
    obtain ⟨text, m₃, performed, rfl⟩ := runSimple_eq_ok h
    obtain ⟨text', m₄, performed', rfl⟩ := runSimple_eq_ok h'
    obtain ⟨text₁, m₅, again, related⟩ := forth text m₃ performed spared'.first
    rw [performed'] at again
    cases again
    exact recorded text m₃ text' m₄ related

theorem perform_assign (lv e : Expr) (op : Option Arith) (pos : Position) :
    perform s call (.assign lv op e pos) = (do
      let stored ← assign s call lv op e pos
      return "assign " ++ lv.render ++ " = " ++ stored.text) := rfl

theorem compound_agrees {lv lv₁ lv₂ e e' : Expr} (op : Arith) (pos q r : Position)
    (freePlace : lv.effects = []) (freeValue : e.effects = []) (same₁ : lv₁.erase = lv.erase)
    (same₂ : lv₂.erase = lv.erase) (same : e'.erase = e.erase) :
    Agree (runSimple s (s.handlerWithin n) (.assign lv (some op) e pos))
      (runSimple s (s.handlerWithin n) (.assign lv₁ none (.binary (.arith op) lv₂ e' q) r)) m
      (m.SameStep s) := by
  refine agree_of_perform
    (Q := fun (done done' : String × Machine) => done' = done ∧ done.2.recorder = m.recorder) ?_ ?_ ?_
  · intro text m₁ performed spared
    rw [perform_assign] at performed spared ⊢
    obtain ⟨stored, m₂, assigned, described⟩ := bind_eq_ok performed
    cases described
    have render : lv₁.render = lv.render := by rw [← lv₁.render_erase, same₁, lv.render_erase]
    have expanded := assign_of_compound freePlace freeValue same₁ same₂ same spared.first assigned
    refine ⟨_, m₁, (bind_ok expanded).trans ?_, rfl, ?_⟩
    · rw [render]
      rfl
    · obtain ⟨right, m₃, place, m₄, value, named, -, -, rfl⟩ := assign_eq_ok assigned
      obtain rfl := (looks_evalOperand freeValue).ok value
      obtain rfl := (looks_evalPlace freePlace).ok named
      rfl
  · intro text m₁ performed spared
    rw [perform_assign] at performed spared ⊢
    obtain ⟨stored, m₂, assigned, described⟩ := bind_eq_ok performed
    have compound := compound_of_assign freePlace freeValue same₁ same₂ same spared.first assigned
    exact ⟨_, _, (bind_ok compound).trans rfl⟩
  · rintro text m₁ text' m₂ ⟨done, recorder⟩
    cases done
    dsimp only at recorder
    have recordedStep (line : Nat) : (m₁.recorded s (m₁.moment line text none)).recorder.toList =
        m.recorder.toList ++ [m₁.moment line text none] := by
      rw [Machine.recorded_toList, recorder]
    exact ⟨rfl, rfl, rfl, _, _, recordedStep pos.line, recordedStep r.line, rfl⟩

/-! Steps -/

/-- The statement changes what `lv` names by one, in one of the ways to write that. -/
inductive Simple.Moves (op : Arith) (lv : Expr) : Simple → Prop where
  | step {way : StepOp} {lv' : Expr} {p q : Position} (arith : way.arith = op)
      (same : lv'.erase = lv.erase) : Moves op lv (.effect (.step way lv' p) q)
  | assign {lv' : Expr} {p q : Position} (same : lv'.erase = lv.erase) :
      Moves op lv (.assign lv' (some op) (.int 1 p) q)

/-- A step as a statement is the compound assignment with 1, but for the words. -/
theorem perform_step (op : StepOp) (lv : Expr) (p q : Position) :
    perform s call (.effect (.step op lv p) q) = (do
      let stored ← assign s call lv (some op.arith) (.int 1 p) p
      return "update " ++ lv.render ++ " = " ++ stored.text) := by
  have one : evalOperand s call (.int 1 p) = pure (.int 1) := rfl
  show (evalPlace s call lv >>= fun place => stepPlace op place lv p >>= fun r =>
    pure ("update " ++ lv.render ++ " = " ++ r.2.text)) = _
  simp only [assign, one, stepPlace, bind_assoc, pure_bind]

/-- In each of these ways the same is stored, and then said in words of its own. -/
theorem Simple.Moves.perform_eq {op : Arith} {lv : Expr} {c : Simple} (h : c.Moves op lv) (s : Setting)
    (call : CallHandler) : ∃ lv' p q, lv'.erase = lv.erase ∧ ∃ words : Value → String,
      perform s call c = (do return words (← Stepwise.assign s call lv' (some op) (.int 1 p) q)) := by
  cases h with
  | @step way lv' p q arith same =>
    subst arith
    exact ⟨lv', p, p, same, fun v => "update " ++ lv'.render ++ " = " ++ v.text, perform_step ..⟩
  | @assign lv' p q same =>
    exact ⟨lv', p, q, same, fun v => "assign " ++ lv'.render ++ " = " ++ v.text, perform_assign ..⟩

/-- What is done to find the place may run functions, so more than the last step may be recorded. -/
theorem Simple.Moves.perform_respelled {op : Arith} {lv : Expr} {c c' : Simple} (h : c.Moves op lv)
    (h' : c'.Moves op lv) (spared : Spared (perform s (s.handlerWithin n) c') m) {text : String}
    (performed : perform s (s.handlerWithin n) c m = .ok text m₁) :
    ∃ text' m₂, perform s (s.handlerWithin n) c' m = .ok text' m₂ ∧ m₂.env.memory = m₁.env.memory := by
  obtain ⟨lv₁, p₁, q₁, same₁, words₁, performs₁⟩ := h.perform_eq s (s.handlerWithin n)
  obtain ⟨lv₂, p₂, q₂, same₂, words₂, performs₂⟩ := h'.perform_eq s (s.handlerWithin n)
  have course (lv : Expr) (p q : Position) := (Displacement.course s).assign_rel (course_calls s n) lv
    (some op) (.int 1 p) (fun _ _ => trivial) (fun _ _ => trivial) q
  rw [performs₁] at performed
  rw [performs₂] at spared ⊢
  obtain ⟨stored, m₃, assigned, described⟩ := bind_eq_ok performed
  cases described
  obtain ⟨m₂, assigned', memory⟩ := Run.SameCourse.respelled (same₁ ▸ course lv₁ p₁ q₁)
    (same₂ ▸ course lv₂ p₂ q₂) spared.first assigned
  exact ⟨_, m₂, (bind_ok assigned').trans rfl, memory⟩

theorem moves_agree {op : Arith} {lv : Expr} {c c' : Simple} (h : c.Moves op lv) (h' : c'.Moves op lv) :
    Agree (runSimple s (s.handlerWithin n) c) (runSimple s (s.handlerWithin n) c') m
      fun m₁ m₂ => m₂.env.memory = m₁.env.memory := by
  refine agree_of_perform
    (Q := fun (done done' : String × Machine) => done'.2.env.memory = done.2.env.memory) ?_ ?_ ?_
  · intro text m₁ performed spared
    exact h.perform_respelled h' spared performed
  · intro text' m₂ performed spared
    obtain ⟨text, m₁, performed', -⟩ := h'.perform_respelled h spared performed
    exact ⟨text, m₁, performed'⟩
  · intro text m₁ text' m₂ memory
    exact memory

/-! Each part once -/

/-- A statement that stores by a compound assignment, and says so, does each part of that once. -/
theorem replaces_of_assign {c : Simple} {lv e : Expr} {op : Arith} {p : Position} {words : Value → String}
    (performs : perform s call c = (do return words (← assign s call lv (some op) e p)))
    (h : runSimple s call c m = .ok () m') : ∃ right m₁ place m₂ stored x,
      evalOperand s call e m = .ok right m₁ ∧ evalPlace s call lv m₁ = .ok place m₂ ∧
      place.arrayLen = none ∧ place.Takes m₂.env.memory (some op) right stored ∧
      m₂.Replaces m' place.address stored x := by
  obtain ⟨text, m₃, performed, rfl⟩ := runSimple_eq_ok h
  rw [performs] at performed
  obtain ⟨stored, m₄, assigned, described⟩ := bind_eq_ok performed
  cases described
  obtain ⟨right, m₁, place, m₂, value, named, single, taken, rfl⟩ := assign_eq_ok assigned
  exact ⟨right, m₁, place, m₂, stored, _, value, named, single, taken, Machine.replaces_recorded m₂ s _ _ _⟩

theorem stepPlace_eq_ok {op : StepOp} {place : Place} {operand : Expr} {pos : Position}
    {r : Value × Value} (h : stepPlace op place operand pos m = .ok r m') : place.arrayLen = none ∧
      place.Takes m.env.memory (some op.arith) (.int 1) r.2 ∧
      m' = { m with env.memory.slots := m.env.memory.slots.insert place.address r.2 } := by
  obtain ⟨old, m₁, read, more⟩ := bind_eq_ok h
  obtain rfl := (place.looks_read operand).ok read
  obtain ⟨new, m₂, applied, rest⟩ := bind_eq_ok more
  obtain ⟨computed, rfl⟩ := ofCause_eq_ok applied
  obtain ⟨stored, m₃, written, last⟩ := bind_eq_ok rest
  cases last
  obtain ⟨single, converted, rfl⟩ := Place.write_eq_ok written
  obtain ⟨held, defined⟩ := Place.read_eq_ok single read
  exact ⟨single, ⟨old, new, held, defined, computed, converted⟩, rfl⟩

structure ShortForms (s : Setting) (call : CallHandler) (m : Machine) : Prop where
  /-- Without effects in its parts, `lv op= e` is `lv = lv op e`. -/
  compound : ∀ op lv lv₁ lv₂ e e' pos q r, lv.effects = [] → e.effects = [] → lv₁.erase = lv.erase →
    lv₂.erase = lv.erase → e'.erase = e.erase →
    Agree (runSimple s call (.assign lv (some op) e pos))
      (runSimple s call (.assign lv₁ none (.binary (.arith op) lv₂ e' q) r)) m (m.SameStep s)
  /-- A step before, a step after and the compound assignment with 1 are the same, whatever `lv` does. -/
  moves : ∀ op lv c c', c.Moves op lv → c'.Moves op lv →
    Agree (runSimple s call c) (runSimple s call c') m fun m₁ m₂ => m₂.env.memory = m₁.env.memory
  /-- The value is found once, then the place once, and then one slot is replaced. -/
  assigned : ∀ op lv e pos m', runSimple s call (.assign lv (some op) e pos) m = .ok () m' →
    ∃ right m₁ place m₂ stored x, evalOperand s call e m = .ok right m₁ ∧
      evalPlace s call lv m₁ = .ok place m₂ ∧ place.arrayLen = none ∧
      place.Takes m₂.env.memory (some op) right stored ∧ m₂.Replaces m' place.address stored x
  stepped : ∀ op lv p q m', runSimple s call (.effect (.step op lv p) q) m = .ok () m' →
    ∃ place m₂ stored x, evalPlace s call lv m = .ok place m₂ ∧ place.arrayLen = none ∧
      place.Takes m₂.env.memory (some op.arith) (.int 1) stored ∧ m₂.Replaces m' place.address stored x
  /-- The same of a step inside an expression, which records nothing of its own. -/
  evaluated : ∀ op lv p v m', evalExpr s call (.step op lv p) m = .ok v m' →
    ∃ place m₂ stored, evalPlace s call lv m = .ok place m₂ ∧ place.arrayLen = none ∧
      place.Takes m₂.env.memory (some op.arith) (.int 1) stored ∧
      m' = { m₂ with env.memory.slots := m₂.env.memory.slots.insert place.address stored }

/-- Short forms of assignment are what they stand for, in every state and as deep as calls may nest. -/
theorem short_forms_expand (s : Setting) (n : Nat) (m : Machine) : ShortForms s (s.handlerWithin n) m where
  compound op lv lv₁ lv₂ e e' pos q r freePlace freeValue same₁ same₂ same :=
    compound_agrees op pos q r freePlace freeValue same₁ same₂ same
  moves op lv c c' h h' := moves_agree h h'
  assigned op lv e pos m' h := replaces_of_assign (perform_assign lv e (some op) pos) h
  stepped op lv p q m' h := by
    obtain ⟨right, m₁, place, m₂, stored, x, one, named, rest⟩ :=
      replaces_of_assign (perform_step op lv p q) h
    cases one
    exact ⟨place, m₂, stored, x, named, rest⟩
  evaluated op lv p v m' h := by
    obtain ⟨place, m₂, named, more⟩ := bind_eq_ok h
    obtain ⟨r, m₃, changed, last⟩ := bind_eq_ok more
    cases last
    obtain ⟨single, taken, rfl⟩ := stepPlace_eq_ok changed
    exact ⟨place, m₂, r.2, named, single, taken, rfl⟩

/-- A character grows beyond its range in two ways, and the element whose number a function counts up to is
changed by one in two ways. -/
theorem short_forms_expand_wrapped :
    let source := "char c = 100; int a[3]; int i; int next() \x7b i = i + 1; return i; \x7d " ++
      "int main() \x7b return 0; \x7d"
    let here : Position := ⟨1, 1⟩
    let there : Position := ⟨2, 5⟩
    let compound : Simple := .assign (.var "c" here) (some .add) (.int 100 here) here
    let expanded : Simple := .assign (.var "c" there) none
      (.binary (.arith .add) (.var "c" there) (.int 100 there) there) there
    let element (pos : Position) : Expr := .index (.var "a" pos) (.call "next" [] pos) pos
    let stepped : Simple := .effect (.step .postInc (element here) here) here
    let added : Simple := .assign (element there) (some .add) (.int 1 there) there
    ∃ p, Program.parse source = .ok p ∧
      let s := Setting.ofProgram p source ⟨100, 9, 99999⟩ false
      let call := s.handlerWithin 3
      ∃ m, runGlobals s p.globals (.start "") = .ok () m ∧
        (∃ m₁ m₂, runSimple s call compound m = .ok () m₁ ∧ runSimple s call expanded m = .ok () m₂ ∧
          m.SameStep s m₁ m₂ ∧ m₂.env.memory.slots[(4 : Address)]? = some (.char (-56))) ∧
        ∃ m₁ m₂, runSimple s call stepped m = .ok () m₁ ∧ runSimple s call added m = .ok () m₂ ∧
          m₂.env.memory = m₁.env.memory ∧ m₂.env.memory.slots[(6 : Address)]? = some (.int 1) ∧
          m₂.env.memory.slots[(8 : Address)]? = some (.int 1) := by
  intro source here there compound expanded element stepped added
  have facts : (Program.parse source).toOption.any (fun p =>
      let s := Setting.ofProgram p source ⟨100, 9, 99999⟩ false
      let call := s.handlerWithin 3
      Ensures (runGlobals s p.globals) (.start "") (fun _ m =>
        Ensures (runSimple s call compound) m (fun _ _ => True) (fun _ _ => False) ∧
        Ensures (runSimple s call expanded) m
          (fun _ m₂ => m₂.env.memory.slots[(4 : Address)]? = some (.char (-56))) (fun _ _ => False) ∧
        Ensures (runSimple s call stepped) m (fun _ _ => True) (fun _ _ => False) ∧
        Ensures (runSimple s call added) m (fun _ m₂ =>
          m₂.env.memory.slots[(6 : Address)]? = some (.int 1) ∧
          m₂.env.memory.slots[(8 : Address)]? = some (.int 1)) (fun _ _ => False))
        (fun _ _ => False)) = true := by
    decide +kernel
  obtain ⟨p, accepted, facts⟩ := Program.exists_of_any facts
  obtain ⟨⟨⟩, m, globals, first, second, third, fourth⟩ := (of_decide_eq_true facts).exists_ok
  obtain ⟨⟨⟩, m₁, compounded, -⟩ := first.exists_ok
  obtain ⟨⟨⟩, m₂, assigned, wrapped⟩ := second.exists_ok
  obtain ⟨⟨⟩, m₃, moved, -⟩ := third.exists_ok
  obtain ⟨⟨⟩, m₄, grown, one, counted⟩ := fourth.exists_ok
  have forms := short_forms_expand (Setting.ofProgram p source ⟨100, 9, 99999⟩ false) 3 m
  have sameStep := (forms.compound .add (.var "c" here) (.var "c" there) (.var "c" there) (.int 100 here)
    (.int 100 there) here there there rfl rfl rfl rfl rfl (spared_of_ok compounded)
    (spared_of_ok assigned)).2 m₁ m₂ compounded assigned
  have sameMemory := (forms.moves .add (element here) stepped added (.step rfl rfl) (.assign rfl)
    (spared_of_ok moved) (spared_of_ok grown)).2 m₃ m₄ moved grown
  exact ⟨p, accepted, m, globals, ⟨m₁, m₂, compounded, assigned, sameStep, wrapped⟩,
    m₃, m₄, moved, grown, sameMemory, one, counted⟩

end Stepwise
