import Stepwise.Proofs.Follow
import Stepwise.Proofs.Quiet

/-! The course of a run: declarations, statements, calls and whole programs go along paths. A statement
is run where a block is open, and leaves as many open as it found, however it ends. -/

namespace Stepwise

open Run

variable {α β : Type} {s : Setting} {m m' : Machine} {ds : List Decl} {call : CallHandler}

/-! Blocks and frames -/

namespace Environment

def InBlock (env : Environment) : Prop := ∃ k rest, env.shape = (k + 1) :: rest

variable {env env' : Environment} {k : Nat} {rest : List Nat}

theorem InBlock.of_shape (h : env.InBlock) (same : env'.shape = env.shape) : env'.InBlock := by
  obtain ⟨k, rest, hs⟩ := h
  exact ⟨k, rest, same.trans hs⟩

theorem shape_declare (env : Environment) (name : String) (a : Address) :
    (env.declare name a).shape = env.shape := by
  unfold declare shape
  split
  · rfl
  · rename_i top frames hframes
    have same : (top.declare name a).blocks.length = top.blocks.length := by
      unfold Frame.declare
      split
      · rfl
      · rename_i hb
        rw [hb]
        rfl
    rw [hframes, List.map_cons, List.map_cons, same]

theorem shape_make (env : Environment) (x : Variable) : (env.make x).shape = env.shape :=
  shape_declare _ _ _

theorem shape_openBlock (h : env.shape = k :: rest) : env.openBlock.shape = (k + 1) :: rest := by
  obtain ⟨top, frames, hframes, rfl, rfl⟩ := List.map_eq_cons_iff.mp h
  unfold openBlock onFrame shape
  rw [hframes]
  rfl

theorem shape_closeBlock (h : env.shape = (k + 1) :: rest) : env.closeBlock.shape = k :: rest := by
  obtain ⟨top, frames, hframes, hk, rfl⟩ := List.map_eq_cons_iff.mp h
  obtain ⟨b, blocks, hb⟩ := List.exists_cons_of_length_eq_add_one hk
  obtain rfl : blocks.length = k := by rw [hb] at hk; exact Nat.succ.inj hk
  unfold closeBlock Frame.closeBlock shape
  rw [hframes]
  simp only [hb, List.map_cons]

theorem shape_popFrame (h : env.shape = k :: rest) : env.popFrame.shape = rest := by
  obtain ⟨top, frames, hframes, -, rfl⟩ := List.map_eq_cons_iff.mp h
  unfold popFrame
  rw [hframes]
  rfl

end Environment

/-! Declarations -/

theorem Value.zero_isDefined (t : CType) : (zero t).isDefined := by
  unfold zero
  split
  · rfl
  · split <;> rfl

theorem Value.zero_fits {t : CType} (h : t.Storable) : (zero t).Fits t := by
  obtain ⟨base, depth⟩ := t
  cases depth with
  | succ depth =>
    have pointer : CType.isPointer ⟨base, depth + 1⟩ = true := decide_eq_true (Nat.succ_pos depth)
    unfold zero
    rw [if_pos pointer]
    exact pointer
  | zero =>
    cases base with
    | void => exact (h.resolve_left nofun).elim
    | struct name => exact (h.resolve_left nofun).elim
    | int => rfl
    | char => rfl
    | float => exact .inl rfl
    | double => exact .inr rfl

def Decl.HasInit : Decl → Prop
  | .scalar _ _ init _ => init.isSome
  | .array _ _ _ init _ => init.isSome

theorem storeSlot_eq_ok {a : Address} {v : Value} {pos : Position}
    (h : storeSlot a v pos m = .ok () m') :
    m' = { m with env.memory.slots := m.env.memory.slots.insert a v } := by
  obtain ⟨env, m₁, he, h⟩ := bind_eq_ok h
  cases he
  cases hw : m.env.memory.write a v with
  | error fault =>
    simp only [hw] at h
    exact nomatch h
  | ok memory =>
    simp only [hw] at h
    obtain ⟨-, rfl⟩ := Memory.write_eq_ok hw
    cases h
    rfl

theorem storeRun_eq_ok {pos : Position} {a : Address} {vs : List Value}
    (h : storeRun pos a vs m = .ok () m') :
    m' = { m with env.memory.slots := Memory.storeValues m.env.memory.slots a vs } := by
  induction vs generalizing a m with
  | nil =>
    cases h
    rfl
  | cons v vs ih =>
    obtain ⟨_, m₁, hs, h⟩ := bind_eq_ok h
    obtain rfl := storeSlot_eq_ok (assured_eq_ok.mp hs)
    exact ih h

theorem declareArray_ensures (name : String) (elem : CType) (size : Nat) (fill : Value)
    (values : List Value) (pos : Position) (m : Machine) :
    Ensures (declareArray name elem size fill values pos) m
      (fun _ m' => m' = { m with env := m.env.make ⟨name, .array, elem, size, fill, values⟩ })
      (fun _ m' => m'.recorder = m.recorder) := by
  cases h : declareArray name elem size fill values pos m with
  | error e m' =>
    have quiet := (quiet_declareArray name elem size fill values pos m).error h
    exact (ensures_iff_of_error h).mpr quiet.2.1
  | ok _ m' =>
    refine (ensures_iff_of_ok h).mpr ?_
    obtain ⟨env, m₁, he, h⟩ := bind_eq_ok h
    cases he
    obtain ⟨_, m₂, hc, h⟩ := bind_eq_ok h
    cases hc
    obtain ⟨_, m₃, hs, h⟩ := bind_eq_ok h
    obtain rfl := storeRun_eq_ok hs
    cases h
    rfl

theorem evalOperand_balanced (hc : Calls s call) (e : Expr) (m : Machine) :
    Balanced s (evalOperand s call e) m fun v _ => v.isDefined := by
  refine .bind (evalExpr_passes hc e m) fun v _ _ _ _ =>
    .ofInspects (fun _ => inspects_requireDefined v e) ?_
  rintro _ ⟨rfl, hv⟩
  exact hv

/-- The value of an operand, as a type stores it. -/
theorem converted_balanced (hc : Calls s call) (t : CType) (e : Expr) (pos : Position) (m : Machine) :
    Balanced s (do convertTo t (← evalOperand s call e) pos) m fun v _ => v.isDefined ∧ v.Fits t :=
  .bind (evalOperand_balanced hc e m) fun v _ _ _ hv =>
    .ofInspects (fun _ => inspects_convertTo t v pos) fun _ hw => Value.convert_fits hv hw

theorem evalItems_balanced (hc : Calls s call) (elem : CType) (pos : Position) (es : List Expr)
    (m : Machine) : Balanced s (evalItems s call elem pos es) m fun vs _ =>
      vs.length = es.length ∧ ∀ v ∈ vs, v.isDefined ∧ v.Fits elem := by
  induction es generalizing m with
  | nil => exact .pure ⟨rfl, nofun⟩
  | cons e rest ih =>
    refine .bind (evalOperand_balanced hc e m) fun v m₁ _ _ hv =>
      .look (fun _ => inspects_convertTo elem v pos) fun w hw =>
        .bind (ih m₁) fun vs _ _ _ hvs => .pure ?_
    exact ⟨congrArg (· + 1) hvs.1, List.forall_mem_cons.mpr ⟨Value.convert_fits hv hw, hvs.2⟩⟩

theorem initialValue_balanced (hc : Calls s call) {type : CType} (ht : type.Storable)
    (init : Option Expr) (pos : Position) (m : Machine) :
    Balanced s (initialValue s call type init pos) m fun v _ =>
      v.Fits type ∧ (m.env.shape = [] ∨ init.isSome → v.isDefined) := by
  cases init with
  | some e => exact (converted_balanced hc type e pos m).mono fun _ _ _ hv => ⟨hv.2, fun _ => hv.1⟩
  | none =>
    refine .look (fun _ => inspects_atFileScope) ?_
    rintro _ rfl
    cases hf : m.env.frames with
    | nil => exact .pure ⟨Value.zero_fits ht, fun _ => Value.zero_isDefined type⟩
    | cons top frames =>
      refine .pure ⟨trivial, fun h => ?_⟩
      rcases h with h | h
      · rw [Environment.shape, hf] at h
        exact nomatch h
      · exact nomatch h

/-- A declaration makes its variable, in a state that comes after the one it began in. -/
theorem declare_makes (hc : Calls s call) {d : Decl} (hd : d.Sensible) (hm : Reached s m) :
    Ensures (declare s call d) m
      (fun _ m' => ∃ m₁ x, Later s m m₁ ∧ m₁.env.shape = m.env.shape ∧ Variable.Proper x ∧ x.Of d ∧
        (m.env.shape = [] ∨ d.HasInit → x.Filled) ∧ m' = { m₁ with env := m₁.env.make x })
      (fun _ m' => ∃ m₁, Later s m m₁ ∧ m₁.recorder = m'.recorder) := by
  have halted {m' : Machine} (h : ∃ ds' m₁, ds' <+: [] ∧ Path s m ds' m₁ ∧
      m₁.recorder = m'.recorder) : ∃ m₁, Later s m m₁ ∧ m₁.recorder = m'.recorder := by
    obtain ⟨ds', m₁, hds, path, same⟩ := h
    obtain rfl := List.prefix_nil.mp hds
    exact ⟨m₁, path, same⟩
  cases d with
  | scalar name type init pos =>
    refine Ensures.bind ((initialValue_balanced hc hd init pos m hm).mono ?_ fun _ _ => halted)
    rintro v m₁ ⟨later, shape, fits, defined⟩
    exact ⟨m₁, ⟨name, .scalar, type, 1, v, []⟩, later, shape,
      ⟨.inl ⟨rfl, rfl⟩, Nat.zero_le _, fits, nofun⟩, ⟨rfl, rfl, rfl, rfl⟩, defined, rfl⟩
  | array name elem size init pos =>
    refine Ensures.bind (Ensures.mono inspects_atFileScope ?_ ?_)
    · rintro isGlobal m' ⟨same, rfl⟩
      rw [same]
      refine Ensures.bind ((evalItems_balanced hc elem pos (init.getD []) m hm).mono ?_
        fun _ _ => halted)
      rintro values m₁ ⟨later, shape, len, hvalues⟩
      refine Ensures.bind ((declareArray_ensures name elem size _ values pos m₁).mono ?_
        fun _ _ same => ⟨m₁, later, same.symm⟩)
      rintro - _ rfl
      refine ⟨m₁, _, later, shape, ⟨.inr ⟨rfl, hd.2.1⟩, len ▸ hd.2.2, ?_, hvalues⟩, ⟨rfl, rfl, rfl, rfl⟩,
        fun start => ?_, rfl⟩
      · show Value.Fits (if m.env.frames.isEmpty || init.isSome then .zero elem else .undefined) elem
        split
        · exact Value.zero_fits hd.1
        · trivial
      · have filled : (m.env.frames.isEmpty || init.isSome) = true := by
          rcases start with none | given
          · simp [List.map_eq_nil_iff.mp none]
          · simp [show init.isSome = true from given]
        show (if m.env.frames.isEmpty || init.isSome then Value.zero elem else _).isDefined
        rw [if_pos filled]
        exact Value.zero_isDefined elem
    · rintro e m' rfl
      exact ⟨_, .refl, rfl⟩

/-- Inside of functions a declaration is an act in a block. -/
theorem declare_passes (hc : Calls s call) {d : Decl} (hd : d.Sensible) (hb : m.env.InBlock) :
    Passes s (declare s call d) m := by
  intro hm
  obtain ⟨k, rest, hb⟩ := hb
  refine (declare_makes hc hd hm).mono ?_ ?_
  · rintro - m' ⟨m₁, x, later, shape, proper, -, -, rfl⟩
    exact ⟨later.trans (Act.change (.declare proper (shape.trans hb))).path,
      (Environment.shape_make _ _).trans shape, trivial⟩
  · rintro e m' ⟨m₁, later, same⟩
    exact ⟨[], m₁, List.prefix_refl _, later, same⟩

/-- Outside of functions it is one with a name. -/
theorem declare_follows (hc : Calls s call) {d : Decl} (hd : d.Sensible) (outside : m.env.shape = [])
    (hm : Reached s m) : Follows s [d] (declare s call d) m fun _ m' => m'.env.shape = [] := by
  refine (declare_makes hc hd hm).mono ?_ ?_
  · rintro - m' ⟨m₁, x, later, shape, proper, made, filled, rfl⟩
    have outside' := shape.trans outside
    exact ⟨later.trans (Act.change (.declareGlobal proper (filled (.inl outside)) made outside')).path,
      (Environment.shape_make _ _).trans outside'⟩
  · rintro e m' ⟨m₁, later, same⟩
    exact ⟨[], m₁, List.nil_prefix, later, same⟩

/-! Simple statements and clauses -/

theorem assign_passes (hc : Calls s call) (target : Expr) (op : Option Arith) (value : Expr)
    (pos : Position) (m : Machine) : Passes s (assign s call target op value pos) m := by
  refine .bind (evalOperand_balanced hc value m) fun right m₁ _ _ hr =>
    .bind (evalPlace_locates hc target m₁) fun p _ _ _ hp => ?_
  cases op with
  | none => exact Place.write_passes hp hr pos
  | some op =>
    exact .look (fun _ => p.inspects_read target) fun old _ =>
      .look (fun _ => inspects_ofCause pos _) fun new hn =>
        Place.write_passes hp (Arith.eval_isDefined hn) pos

theorem describeEffect_passes (hc : Calls s call) (e : Expr) (m : Machine) :
    Passes s (describeEffect s call e) m := by
  cases e with
  | print format args pos =>
    exact .bind (evalArgs_passes hc args m) fun values _ _ _ _ =>
      .thenReturn (printFormatted_passes format values pos)
  | read format targets pos =>
    exact .bind (evalPlaces_balanced hc targets m) fun _ _ _ _ hp =>
      .thenReturn (readFormatted_passes format targets pos hp)
  | step op operand pos =>
    exact .bind (evalPlace_locates hc operand m) fun _ _ _ _ hp =>
      .thenReturn (stepPlace_passes op hp operand pos)
  | _ => exact .thenReturn (evalExpr_passes hc _ m)

theorem perform_passes (hc : Calls s call) {c : Simple} (h : c.Sensible) (hb : m.env.InBlock) :
    Passes s (perform s call c) m := by
  cases c with
  | declare d => exact declare_passes hc h hb
  | assign target op value pos =>
    exact .thenReturn (assign_passes hc target op value pos m)
  | effect e pos => exact describeEffect_passes hc e m

theorem runSimple_passes (hc : Calls s call) {c : Simple} (h : c.Sensible) (hb : m.env.InBlock) :
    Passes s (runSimple s call c) m :=
  .bind (perform_passes hc h hb) fun _ _ _ _ _ => .record _ _ _

theorem runClause_passes (hc : Calls s call) {c : Simple} (h : c.Sensible) (hb : m.env.InBlock) :
    Passes s (runClause s call c) m := by
  unfold runClause
  split
  · exact runSimple_passes hc h hb
  · cases c with
    | declare d => exact .thenReturn (declare_passes hc h hb)
    | assign target op value pos =>
      exact .thenReturn (assign_passes hc target op value pos m)
    | effect e pos => exact .thenReturn (evalExpr_passes hc e m)

theorem runOptionalClause_passes (hc : Calls s call) {c : Option Simple} (h : ClauseSensible c)
    (hb : m.env.InBlock) : Passes s (runOptionalClause s call c) m := by
  cases c with
  | none => exact .pure trivial
  | some c => exact runClause_passes hc h hb

theorem evalCondition_passes (hc : Calls s call) (e : Expr) (pos : Position) (m : Machine) :
    Passes s (evalCondition s call e pos) m := by
  refine .bind (evalOperand_balanced hc e m) fun v _ _ _ _ => ?_
  split
  · exact .pure trivial
  · exact .fail _ _

theorem testLoop_passes (hc : Calls s call) (cond : Option Expr) (pos : Position) (m : Machine) :
    Passes s (testLoop s call cond pos) m := by
  have condition : Passes s (loopCondition s call cond pos) m := by
    cases cond with
    | none => exact .pure trivial
    | some e => exact evalCondition_passes hc e pos m
  exact .bind condition fun _ _ _ _ _ => .thenReturn (.record _ _ _)

/-! Loops, blocks and statements -/

theorem loop_passes {test : Run Bool} {body : Run Flow} {update : Run Unit}
    (ht : ∀ m, Passes s test m) (hbody : ∀ m, m.env.InBlock → Passes s body m)
    (hupdate : ∀ m, m.env.InBlock → Passes s update m) (fuel : Nat) (hb : m.env.InBlock) :
    Passes s (loop test body update fuel) m := by
  induction fuel generalizing m with
  | zero => exact .throw _
  | succ fuel ih =>
    refine .bind (ht m) fun holds m₁ _ same _ => ?_
    have hb₁ := hb.of_shape same
    split
    · refine .bind (hbody m₁ hb₁) fun flow m₂ _ same _ => ?_
      have hb₂ := hb₁.of_shape same
      have again : Passes s (do update; loop test body update fuel) m₂ :=
        .bind (hupdate m₂ hb₂) fun _ m₃ _ same _ => ih (hb₂.of_shape same)
      cases flow with
      | normal => exact again
      | continueLoop => exact again
      | breakLoop => exact .pure trivial
      | leave v => exact .pure trivial
    · exact .pure trivial

/-- What is opened before a piece is closed behind it, however the piece ends. -/
theorem enclosed_passes {enter : Run Unit} {body : Run α} {leave : Environment → Environment}
    (shape : List Nat)
    (opened : Reached s m → Follows s [] enter m fun _ m' => m'.env.shape = shape)
    (inside : ∀ m', m'.env.shape = shape → Passes s body m')
    (closed : ∀ env, env.shape = shape →
      Change s none env (leave env) ∧ (leave env).shape = m.env.shape) :
    Passes s (do
      enter
      let a ← body
      changeEnvironment leave
      return a) m := by
  intro hm
  refine Follows.bind (opened hm) fun _ m₁ later shape₁ => ?_
  refine Follows.bind (inside m₁ shape₁ (hm.path later)) fun a m₂ _ hbody => ?_
  obtain ⟨change, back⟩ := closed m₂.env (hbody.1.trans shape₁)
  exact ⟨(Act.change change).path, back, trivial⟩

theorem inBlock_passes {body : Run Flow} (h : ∀ m, m.env.InBlock → Passes s body m)
    (hb : m.env.InBlock) : Passes s (inBlock body) m := by
  obtain ⟨k, rest, hb⟩ := hb
  refine enclosed_passes ((k + 2) :: rest) (fun _ => ?_) (fun m' h' => h m' ⟨k + 1, rest, h'⟩)
    fun env h' => ⟨.closeBlock h', (Environment.shape_closeBlock h').trans hb.symm⟩
  exact ⟨(Act.change .openBlock).path, Environment.shape_openBlock hb⟩

theorem leaveWith_passes (hc : Calls s call) (returns : CType) (value : Option Expr) (pos : Position)
    (m : Machine) : Passes s (leaveWith s call returns value pos) m := by
  have result : Passes s (returnedValue s call returns value pos) m := by
    unfold returnedValue
    split
    · exact .pure trivial
    · split
      · exact .fail _ _
      · exact (converted_balanced hc returns _ pos m).mono fun _ _ _ _ => trivial
  refine .bind result fun v _ _ _ _ => ?_
  dsimp only
  split
  · exact .thenReturn (.record _ _ _)
  · exact .thenReturn (.record _ _ _)

mutual

theorem runStmt_passes (hc : Calls s call) (returns : CType) (stmt : Stmt) (h : stmt.Sensible)
    (m : Machine) (hb : m.env.InBlock) : Passes s (runStmt s call returns stmt) m := by
  cases stmt with
  | simple c => exact .thenReturn (runSimple_passes hc h hb)
  | block body pos => exact inBlock_passes (runStmts_passes hc returns body h) hb
  | branch cond yes no pos =>
    cases no with
    | none =>
      refine .bind (evalCondition_passes hc cond pos m) fun holds m₁ _ same _ => ?_
      split
      · exact .bind (.record _ _ _) fun _ _ _ same' _ =>
          inBlock_passes (runStmts_passes hc returns yes h) (hb.of_shape (same'.trans same))
      · exact .pure trivial
    | some no =>
      refine .bind (evalCondition_passes hc cond pos m) fun holds m₁ _ same _ => ?_
      split
      · exact .bind (.record _ _ _) fun _ _ _ same' _ =>
          inBlock_passes (runStmts_passes hc returns yes h.1) (hb.of_shape (same'.trans same))
      · exact .bind (.record _ _ _) fun _ _ _ same' _ =>
          inBlock_passes (runStmts_passes hc returns no h.2) (hb.of_shape (same'.trans same))
  | whileLoop cond body pos =>
    exact loop_passes (testLoop_passes hc (some cond) pos)
      (fun _ => inBlock_passes (runStmts_passes hc returns body h)) (fun _ _ => .pure trivial) s.fuel hb
  | forLoop init cond update body pos =>
    obtain ⟨hi, hu, hbody⟩ := h
    refine inBlock_passes (fun m₁ hb₁ => .bind (runOptionalClause_passes hc hi hb₁)
      fun _ m₂ _ same _ => ?_) hb
    exact loop_passes (testLoop_passes hc cond pos)
      (fun _ => inBlock_passes (runStmts_passes hc returns body hbody))
      (fun _ => runOptionalClause_passes hc hu) s.fuel (hb₁.of_shape same)
  | leave value pos => exact leaveWith_passes hc returns value pos m
  | breakLoop pos => exact .thenReturn (.record _ _ _)
  | continueLoop pos => exact .thenReturn (.record _ _ _)

theorem runStmts_passes (hc : Calls s call) (returns : CType) (stmts : List Stmt)
    (h : AllSensible stmts) (m : Machine) (hb : m.env.InBlock) :
    Passes s (runStmts s call returns stmts) m := by
  cases stmts with
  | nil => exact .pure trivial
  | cons stmt rest =>
    refine .bind (runStmt_passes hc returns stmt h.1 m hb) fun flow m₁ _ same _ => ?_
    cases flow with
    | normal => exact runStmts_passes hc returns rest h.2 m₁ (hb.of_shape same)
    | _ => exact .pure trivial

end

/-! Calls and programs -/

def Setting.Sensible (s : Setting) : Prop := ∀ f ∈ s.functions, AllSensible f.body

theorem declareScalar_passes (name : String) {type : CType} {v w : Value} (hw : v.convert type = some w)
    (hb : m.env.InBlock) : Passes s (declareScalar name type w) m := by
  obtain ⟨k, rest, shape⟩ := hb
  let x : Variable := ⟨name, .scalar, type, 1, w, []⟩
  have proper : x.Proper := ⟨.inl ⟨rfl, rfl⟩, Nat.zero_le _, Value.fits_of_convert hw, nofun⟩
  exact .change (.declare proper shape) (Environment.shape_make _ x)

theorem bindParams_passes (pos : Position) (ps : List Member) (vs : List Value) (hb : m.env.InBlock) :
    Passes s (bindParams pos ps vs) m := by
  induction ps generalizing vs m with
  | nil => exact .pure trivial
  | cons p ps ih =>
    cases vs with
    | nil => exact .pure trivial
    | cons v vs =>
      refine .look (fun _ => inspects_convertTo p.type v pos) fun w hw => ?_
      exact .bind (declareScalar_passes p.name hw hb) fun _ _ _ same _ =>
        .thenReturn (ih vs (hb.of_shape same))

theorem openFrame_follows (f : Function) (args : List Value) (line : Nat) (pos : Position)
    (hm : Reached s m) : Follows s [] (openFrame s f args line pos) m fun _ m' =>
      m'.env.shape = 1 :: m.env.shape := by
  have arity : Inspects (checkArity f args pos) m fun _ => True := by
    unfold checkArity
    dsimp only
    split
    · exact inspects_fail _ _
    · exact inspects_pure trivial
  refine Follows.bind (Balanced.ofInspects (Q := fun _ m' => m'.env.shape = m.env.shape)
    (fun _ => arity) (fun _ _ => rfl) hm) fun _ m₁ later same => ?_
  have entered : Follows s [] (changeEnvironment fun env =>
      env.pushFrame (.enter ⟨f.name, line, f.pos.line⟩)) m₁ fun _ m' =>
        m'.env.shape = 1 :: m.env.shape :=
    ⟨(Act.change (.pushFrame _)).path, congrArg (1 :: ·) same.2⟩
  refine Follows.bind entered fun _ m₂ later₂ shape => ?_
  have reached := (hm.path later).path later₂
  refine Follows.bind (bindParams_passes pos f.params args ⟨0, _, shape⟩ reached)
    fun _ m₃ later₃ same₃ => ?_
  exact Ensures.mono (Balanced.record _ _ _ (reached.path later₃))
    (fun _ m' h => ⟨h.1, h.2.1.trans (same₃.1.trans shape)⟩) fun _ _ h => h

theorem runBody_passes (hc : Calls s call) {f : Function} (hf : AllSensible f.body)
    (hb : m.env.InBlock) : Passes s (runBody s call f) m := by
  refine .bind (runStmts_passes hc f.returns f.body hf m hb) fun flow _ _ _ _ => ?_
  cases flow with
  | leave v => exact .pure trivial
  | _ => exact .thenReturn (.record _ _ _)

theorem runInFrame_passes (hc : Calls s call) {f : Function} (hf : AllSensible f.body)
    (args : List Value) (line : Nat) (pos : Position) (m : Machine) :
    Passes s (runInFrame s call f args line pos) m :=
  enclosed_passes _ (openFrame_follows f args line pos)
    (fun _ shape => runBody_passes hc hf ⟨0, _, shape⟩)
    fun _ shape => ⟨.popFrame, Environment.shape_popFrame shape⟩

theorem callFunction_passes (hs : s.Sensible) (n : Nat) {f : Function} (hf : f ∈ s.functions)
    (args : List Value) (line : Nat) (pos : Position) (m : Machine) :
    Passes s (callFunction s n f args line pos) m := by
  induction n generalizing f args line pos m with
  | zero => exact .throw _
  | succ n ih =>
    have calls : Calls s (s.handlerWithin n) := fun g hg args pos m => ih hg args pos.line pos m
    have depth : Inspects (checkDepth s f pos) m fun _ => True :=
      (checkDepth_ensures s m f pos).mono (fun _ _ h => ⟨h, trivial⟩) fun _ _ h => h.1
    exact .look (fun _ => depth) fun _ _ => runInFrame_passes calls (hs f hf) args line pos m

theorem calls_handlerWithin (hs : s.Sensible) (n : Nat) : Calls s (s.handlerWithin n) :=
  fun _ hf args pos m => callFunction_passes hs n hf args pos.line pos m

theorem runGlobals_follows (hs : s.Sensible) (hds : ∀ d ∈ ds, d.Sensible) (outside : m.env.shape = [])
    (hm : Reached s m) : Follows s ds (runGlobals s ds) m fun _ m' => m'.env.shape = [] := by
  induction ds generalizing m with
  | nil => exact ⟨.refl, outside⟩
  | cons d ds ih =>
    obtain ⟨hd, hds⟩ := List.forall_mem_cons.mp hds
    have calls := calls_handlerWithin hs s.fuel
    have first : Follows s ([d] ++ []) (runSimple s s.handler (.declare d)) m fun _ m' =>
        m'.env.shape = [] :=
      Follows.bind (declare_follows calls hd outside hm) fun _ m₁ path shape =>
        Ensures.mono (Balanced.record _ _ _ (hm.path path))
          (fun _ m' h => ⟨h.1, h.2.1.trans shape⟩) fun _ _ h => h
    exact Follows.bind first fun _ m₁ path shape => ih hds shape (hm.path path)

/-- A whole run goes along a path from its start that declares the globals in order. -/
theorem runProgram_follows (hs : s.Sensible) (hds : ∀ d ∈ ds, d.Sensible) (input : String) :
    Follows s ds (runProgram s ds) (.start input) fun _ m' => m'.env.shape = [] := by
  have whole : Follows s (ds ++ []) (runProgram s ds) (.start input) fun _ m' => m'.env.shape = [] := by
    refine Follows.bind (runGlobals_follows hs hds rfl (.start input)) fun _ m path shape => ?_
    have reached := (Reached.start input).path path
    split
    · exact ⟨[], m, List.prefix_refl _, .refl, rfl⟩
    · rename_i f hf
      have main := callFunction_passes hs s.fuel (List.mem_of_find?_eq_some hf) [] 0 f.pos m
      exact Ensures.mono (main.thenReturn reached) (fun _ _ h => ⟨h.1, h.2.1.trans shape⟩)
        fun _ _ h => h
  rwa [List.append_nil] at whole

end Stepwise
