import Stepwise.Proofs.PrintedStatements

/-! The grammar inverts the printer: the tokens of a program, with the end of the text behind them,
are read back as that program up to positions. -/

namespace Stepwise

theorem properMembers_iff {ms : List Member} :
    properMembers ms = true ↔
      (∀ m ∈ ms, m.type.isStorable = true) ∧ (ms.map (·.name)).Nodup := by
  simp [properMembers]

/-- A declaration is a type, a name and, behind it, no parenthesis. -/
theorem Decl.tokens_name {d : Decl} (hd : d.isProper = true) : ∃ c name k ks,
    CType.isStorable c = true ∧ k ≠ .symbol .openParen ∧
      d.tokens ++ [.symbol .semicolon] = c.tokens ++ .ident name :: k :: ks := by
  cases d with
  | scalar name type init =>
    simp only [isProper, Bool.and_eq_true] at hd
    cases init with
    | none =>
      exact ⟨type, name, .symbol .semicolon, [], hd.1, by decide,
        by simp [tokens, declarator, CType.tokens, base, initTokens]⟩
    | some e =>
      exact ⟨type, name, .symbol .eq, e.tokens ++ [.symbol .semicolon], hd.1, by decide,
        by simp [tokens, declarator, CType.tokens, base, initTokens]⟩
  | array name elem size init =>
    simp only [isProper, Bool.and_eq_true] at hd
    exact ⟨elem, name, .symbol .openBracket, .int size :: .symbol .closeBracket ::
      (initListTokens init ++ [.symbol .semicolon]), hd.1.1.1, by decide,
      by simp [tokens, declarator, CType.tokens, base]⟩

/-- Every item begins with the word of a type. -/
theorem Item.tokens_head (i : Item) : ∃ w ks, i.tokens = .keyword w :: ks := by
  cases i with
  | struct s => exact ⟨_, _, rfl⟩
  | function f =>
    rw [tokens, CType.tokens]
    cases f.returns.base <;> exact ⟨_, _, rfl⟩
  | global d =>
    obtain ⟨w, ks, eq, -⟩ := d.tokens_head
    exact ⟨w, _, by rw [tokens, eq]; rfl⟩

namespace Grammar

open Stepwise.Parser

@[simp] theorem run_get (ts : List Lexeme) : (get : Parser (List Lexeme)) ts = .ok (ts, ts) := rfl

@[simp] theorem run_set (ts ts' : List Lexeme) : (set ts : Parser PUnit) ts' = .ok (⟨⟩, ts) := rfl

/-! Members -/

/-- No name of those seen comes again. -/
theorem fresh_of_nodup {seen others : List Member} {m : Member}
    (h : ((seen ++ m :: others).map (·.name)).Nodup) : ¬ ∃ m' ∈ seen, m'.name = m.name := by
  rintro ⟨m', hm', same⟩
  rw [List.map_append, List.map_cons] at h
  exact (List.nodup_append.mp h).2.2 _ (List.mem_map_of_mem hm') _ List.mem_cons_self same

/-- The type of a member is read up to its name. It begins with a word. -/
theorem run_member {m : Member} (hm : m.type.isStorable = true) {ts : List Lexeme}
    (written : Writes ts m.tokens) :
    ∃ w o ts' q, ts = ⟨.keyword w, o⟩ :: ts' ∧ ∀ rest,
      type (⟨.keyword w, o⟩ :: (ts' ++ rest)) = .ok (m.type, ⟨.ident m.name, q⟩ :: rest) := by
  simp only [Member.tokens, writes_append, writes_cons, writes_nil] at written
  obtain ⟨front, _, rfl, wt, q, _, rfl, rfl⟩ := written
  have read := run_type (t := ⟨.ident m.name, q⟩) (CType.isPlain_of_isStorable hm) wt rfl
  obtain ⟨base, stars, rfl, wb, -⟩ := writes_append.mp wt
  obtain ⟨w, o, base, rfl, -⟩ := beginsType_of_base wb
  refine ⟨w, o, base ++ stars ++ [⟨.ident m.name, q⟩], q, by simp, fun rest => ?_⟩
  simpa using read rest

theorem run_fields (struct : String) {members : List Member} (seen : List Member)
    (storable : ∀ m ∈ members, m.type.isStorable = true)
    (distinct : ((seen ++ members).map (·.name)).Nodup) {ts : List Lexeme}
    (written : Writes ts (members.flatMap fun m => m.tokens ++ [.symbol .semicolon]))
    (p : Position) (rest : List Lexeme) :
    fields struct seen (ts ++ ⟨.symbol .closeBrace, p⟩ :: rest) =
      .ok (seen ++ members, ⟨.symbol .closeBrace, p⟩ :: rest) := by
  induction members generalizing seen ts with
  | nil =>
    obtain rfl := writes_nil.mp written
    rw [List.append_nil]
    rfl
  | cons m others ih =>
    have hm := storable m List.mem_cons_self
    rw [List.flatMap_cons, List.append_assoc] at written
    obtain ⟨front, _, rfl, wm, wr⟩ := writes_append.mp written
    obtain ⟨r, back, rfl, wo⟩ := writes_cons.mp wr
    obtain ⟨w, o, front, q, rfl, readT⟩ := run_member hm wm
    have readOthers := ih (seen ++ [m])
      (fun m hm => storable m (List.mem_cons_of_mem _ hm)) (by simpa using distinct) wo
    rw [run_fix (p := fields struct) rfl]
    simp +arith [readT, run_checkStorable hm, fresh_of_nodup distinct, run_below, readOthers]

theorem run_structFrom {s : StructDef} (nonempty : s.fields ≠ [])
    (hf : properMembers s.fields = true) {ts : List Lexeme}
    (written : Writes ts (.ident s.name :: .symbol .openBrace ::
      (s.fields.flatMap (fun m => m.tokens ++ [.symbol .semicolon]) ++
      [.symbol .closeBrace, .symbol .semicolon]))) (pos : Position) (rest : List Lexeme) :
    structFrom pos (ts ++ rest) = .ok ({ s with pos := pos }, rest) := by
  simp only [writes_cons, writes_append, writes_nil] at written
  obtain ⟨p, _, rfl, q, _, rfl, inner, _, rfl, wf, r, _, rfl, o, _, rfl, rfl⟩ := written
  obtain ⟨storable, distinct⟩ := properMembers_iff.mp hf
  have read := run_fields s.name [] storable (by simpa using distinct) wf r
    (⟨.symbol .semicolon, o⟩ :: rest)
  simp [structFrom, read, nonempty]

/-- The parameters of a function, behind those already seen. -/
theorem run_parameters {params : List Member} (seen : List Member) (nonempty : params ≠ [])
    (storable : ∀ m ∈ params, m.type.isStorable = true)
    (distinct : ((seen ++ params).map (·.name)).Nodup) {ts : List Lexeme}
    (written : Writes ts (separated (params.map Member.tokens))) (p : Position)
    (rest : List Lexeme) :
    parameters seen (ts ++ ⟨.symbol .closeParen, p⟩ :: rest) =
      .ok (seen ++ params, ⟨.symbol .closeParen, p⟩ :: rest) := by
  induction params generalizing seen ts with
  | nil => exact absurd rfl nonempty
  | cons m others ih =>
    have hm := storable m List.mem_cons_self
    rw [run_fix (p := parameters) rfl]
    cases others with
    | nil =>
      rw [List.map_singleton, separated_singleton] at written
      obtain ⟨w, o, front, q, rfl, readT⟩ := run_member hm written
      simp [readT, decayedParameter, run_checkStorable hm, fresh_of_nodup distinct]
    | cons second others =>
      obtain ⟨front, _, rfl, wm, wr⟩ := writes_append.mp written
      obtain ⟨r, back, rfl, wo⟩ := writes_cons.mp wr
      obtain ⟨w, o, front, q, rfl, readT⟩ := run_member hm wm
      have readOthers := ih (seen ++ [m]) (List.cons_ne_nil _ _)
        (fun m hm => storable m (List.mem_cons_of_mem _ hm)) (by simpa using distinct) wo
      simp +arith [readT, decayedParameter, run_checkStorable hm, fresh_of_nodup distinct,
        run_below, readOthers]

/-- Behind the first word of a member comes no closing parenthesis. -/
theorem Member.tokens_second (m : Member) :
    ∃ w k ks, m.tokens = .keyword w :: k :: ks ∧ k ≠ .symbol .closeParen := by
  obtain ⟨name, base, depth⟩ := m
  cases depth <;> cases base <;>
    exact ⟨_, _, _, rfl, by simp⟩

theorem run_parameterList {params : List Member} (hp : properMembers params = true)
    {ts : List Lexeme} (written : Writes ts (separated (params.map Member.tokens))) (p : Position)
    (rest : List Lexeme) :
    parameterList (ts ++ ⟨.symbol .closeParen, p⟩ :: rest) =
      .ok (params, ⟨.symbol .closeParen, p⟩ :: rest) := by
  obtain ⟨storable, distinct⟩ := properMembers_iff.mp hp
  cases params with
  | nil =>
    obtain rfl := writes_nil.mp written
    rfl
  | cons m others =>
    have read := run_parameters [] (List.cons_ne_nil m others) storable distinct written p
      rest
    obtain ⟨w, k, ks, eq, notClosed⟩ := Member.tokens_second m
    rw [List.map_cons, separated, eq] at written
    obtain ⟨o, _, rfl, more⟩ := writes_cons.mp written
    obtain ⟨q, ts, rfl, -⟩ := writes_cons.mp more
    rw [List.cons_append, List.cons_append] at read ⊢
    simp [parameterList, read, notClosed]

/-! Items -/

theorem run_functionFrom {f : Function} (notStruct : f.returns.isStruct = false)
    (hp : properMembers f.params = true) (hb : properBody f.body = true) {ts : List Lexeme}
    (written : Writes ts (.ident f.name :: .symbol .openParen ::
      (separated (f.params.map Member.tokens) ++ .symbol .closeParen ::
      braces (tokensOf f.body)))) (rest : List Lexeme) :
    ∃ g, functionFrom f.returns (ts ++ rest) = .ok (some g, rest) ∧
      (Item.function g).erase = (Item.function f).erase := by
  simp only [braces, writes_cons, writes_append, writes_nil] at written
  obtain ⟨p, _, rfl, q, _, rfl, front, _, rfl, wp, r, _, rfl, o, _, rfl, inner, _, rfl, wb, l, _,
    rfl, rfl⟩ := written
  have readP := run_parameterList hp wp r (⟨.symbol .openBrace, o⟩ ::
    (inner ++ ⟨.symbol .closeBrace, l⟩ :: rest))
  obtain ⟨as, readB, eqB⟩ := statements_reads (statement_reads _) hb inner ⟨.symbol .closeBrace, l⟩
    rest wb rfl (Nat.lt_succ_self _)
  refine ⟨⟨f.name, f.params, f.returns, as, p, l⟩, ?_, ?_⟩
  · simp [functionFrom, notStruct, readP, readB]
  · rw [Item.erase, Item.erase, eqB]

/-- What begins with the type of a variable or a result is no struct definition. -/
theorem run_seesStructDefinition {c : CType} (notStruct : c.isStruct = false) {ts : List Lexeme}
    (written : Writes ts c.tokens) (rest : List Lexeme) :
    seesStructDefinition (ts ++ rest) = .ok (false, ts ++ rest) := by
  obtain ⟨base, depth⟩ := c
  cases base with
  | struct name =>
    cases depth with
    | zero => cases notStruct
    | succ depth =>
      simp only [CType.tokens, Base.tokens, CType.stars, List.replicate_succ, List.cons_append,
        List.nil_append, writes_cons] at written
      obtain ⟨p, _, rfl, q, _, rfl, r, ts, rfl, -⟩ := written
      rfl
  | _ =>
    obtain ⟨p, ts, rfl, -⟩ := writes_cons.mp written
    rfl

/-- The star of a result type. -/
theorem run_accept_star {c : CType} (plain : c.isPlain = true) {ts : List Lexeme}
    (written : Writes ts c.stars) {t : Lexeme} (follows : t.token.isSymbol .star = false)
    (rest : List Lexeme) : ∃ star, accept .star (ts ++ t :: rest) = .ok (star, t :: rest) ∧
      (⟨c.base, if star then 1 else 0⟩ : CType) = c := by
  obtain ⟨base, depth⟩ := c
  obtain rfl | rfl : depth = 0 ∨ depth = 1 := by
    have : depth ≤ 1 := of_decide_eq_true plain
    omega
  · obtain rfl := writes_nil.mp written
    exact ⟨false, run_accept_other follows, rfl⟩
  · obtain ⟨p, _, rfl, nil⟩ := writes_cons.mp written
    obtain rfl := writes_nil.mp nil
    exact ⟨true, run_accept .star p, rfl⟩

theorem run_seesFunctionName (name : String) (p : Position) (t : Lexeme) (ts : List Lexeme) :
    seesFunctionName (⟨.ident name, p⟩ :: t :: ts) =
      .ok (t.token.isSymbol .openParen, ⟨.ident name, p⟩ :: t :: ts) := by
  obtain ⟨k, q⟩ := t
  cases k with
  | symbol s => cases s <;> rfl
  | _ => rfl

/-- How an item with a type at its front is read: the type up to its star, and then what follows
tells a function from a variable. -/
theorem run_item_type {c : CType} (plain : c.isPlain = true) (notStruct : c.isStruct = false)
    {ts : List Lexeme} (written : Writes ts c.tokens) {name : String} (p : Position) {t : Lexeme}
    (rest : List Lexeme) :
    item (ts ++ ⟨.ident name, p⟩ :: t :: rest) =
      if t.token.isSymbol .openParen then
        ((fun f => f.toList.map Item.function) <$> functionFrom c) (⟨.ident name, p⟩ :: t :: rest)
      else (List.map Item.global <$> declaration) (ts ++ ⟨.ident name, p⟩ :: t :: rest) := by
  have noStruct := run_seesStructDefinition notStruct written (⟨.ident name, p⟩ :: t :: rest)
  obtain ⟨base, stars, rfl, wb, ws⟩ := writes_append.mp written
  have readB := run_baseType wb (stars ++ ⟨.ident name, p⟩ :: t :: rest)
  obtain ⟨star, readS, eq⟩ := run_accept_star (t := ⟨.ident name, p⟩) plain ws rfl (t :: rest)
  obtain ⟨w, o, base, rfl, -⟩ := beginsType_of_base wb
  simp only [List.append_assoc, List.cons_append] at noStruct readB ⊢
  simp [item, noStruct, readB, readS, run_seesFunctionName, eq]

theorem run_item {i : Item} (hi : i.isProper = true) {ts : List Lexeme}
    (written : Writes ts i.tokens) (rest : List Lexeme) :
    ∃ a, item (ts ++ rest) = .ok ([a], rest) ∧ a.erase = i.erase := by
  cases i with
  | struct s =>
    simp only [Item.isProper, Bool.and_eq_true, Bool.not_eq_true', List.isEmpty_eq_false_iff] at hi
    obtain ⟨p, ts, rfl, ws⟩ := writes_cons.mp written
    have read := run_structFrom hi.1 hi.2 ws p rest
    refine ⟨.struct { s with pos := p }, ?_, rfl⟩
    obtain ⟨q, _, rfl, w⟩ := writes_cons.mp ws
    obtain ⟨r, ts, rfl, -⟩ := writes_cons.mp w
    simp only [List.cons_append] at read
    simp [item, seesStructDefinition, read]
  | function f =>
    simp only [Item.isProper, Bool.and_eq_true, Bool.not_eq_true'] at hi
    obtain ⟨⟨⟨plain, notStruct⟩, hp⟩, hb⟩ := hi
    obtain ⟨front, back, rfl, wt, wf⟩ := writes_append.mp written
    obtain ⟨g, read, eq⟩ := run_functionFrom notStruct hp hb wf rest
    obtain ⟨p, _, rfl, w⟩ := writes_cons.mp wf
    obtain ⟨q, back, rfl, -⟩ := writes_cons.mp w
    refine ⟨.function g, ?_, eq⟩
    simp only [List.append_assoc, List.cons_append] at read ⊢
    rw [run_item_type plain notStruct wt]
    simp [read]
  | global d =>
    obtain ⟨a, read, ha⟩ := run_declaration hi written rest
    refine ⟨.global a, ?_, congrArg Item.global ha⟩
    obtain ⟨c, name, k, ks, storable, notCall, eq⟩ := d.tokens_name hi
    rw [Item.tokens, eq] at written
    obtain ⟨front, _, rfl, wt, w⟩ := writes_append.mp written
    obtain ⟨p, _, rfl, w'⟩ := writes_cons.mp w
    obtain ⟨q, back, rfl, -⟩ := writes_cons.mp w'
    simp only [List.append_assoc, List.cons_append] at read ⊢
    rw [run_item_type (CType.isPlain_of_isStorable storable) (CType.isStruct_of_isStorable storable)
      wt]
    simp [Token.isSymbol_eq_false.mpr notCall, read]

theorem run_program {items : Program} (h : items.isProper = true) {ts : List Lexeme}
    (written : Writes ts items.tokens) (q : Position) :
    ∃ as, program (ts ++ [⟨.eof, q⟩]) = .ok (as, [⟨.eof, q⟩]) ∧ as.erase = items.erase := by
  induction items generalizing ts with
  | nil =>
    obtain rfl := writes_nil.mp written
    exact ⟨[], rfl, rfl⟩
  | cons i others ih =>
    simp only [Program.isProper, List.all_cons, Bool.and_eq_true] at h
    simp only [Program.tokens, List.flatMap_cons, writes_append] at written
    obtain ⟨front, back, rfl, wi, wo⟩ := written
    obtain ⟨as, readAs, has⟩ := ih h.2 wo
    obtain ⟨a, read, ha⟩ := run_item h.1 wi (back ++ [⟨.eof, q⟩])
    obtain ⟨w, ks, eq⟩ := i.tokens_head
    obtain ⟨p, front, rfl, -⟩ := writes_cons.mp (eq ▸ wi)
    refine ⟨a :: as, ?_, by rw [Program.erase, List.map_cons, ha]; exact congrArg _ has⟩
    rw [List.cons_append] at read
    rw [run_loop (x := program) rfl]
    simp +arith [read, run_below, readAs]

end Grammar

namespace Program

/-- The grammar inverts the printer: from the tokens of a program, at any positions, it reads that
program back up to positions. -/
theorem ofTokens_tokens {p : Program} (h : p.isProper = true) {ts : List Lexeme}
    (written : ts.map (·.token) = p.tokens ++ [.eof]) :
    ∃ q, ofTokens ts = .ok q ∧ q.erase = p.erase := by
  obtain ⟨front, _, rfl, wf, wo⟩ := writes_append.mp written
  obtain ⟨q, _, rfl, nil⟩ := writes_cons.mp wo
  obtain rfl := writes_nil.mp nil
  obtain ⟨as, read, has⟩ := Grammar.run_program h wf q
  refine ⟨as, ?_, has⟩
  rw [ofTokens, StateT.run, read]
  rfl

/-- A program with forms that the grammar tells apart by what comes later: a struct and a function
that returns a pointer to it, a cast and a parenthesis, the two kinds of size, clauses left out. -/
def listCounter : Program :=
  let p : Position := .start
  let x : Expr := .var "x" p
  let i : Expr := .var "i" p
  let node : CType := ⟨.struct "node", 1⟩
  [.struct ⟨"node", [⟨"key", .int⟩, ⟨"next", node⟩], p⟩,
    .global (.array "row" ⟨.char, 0⟩ 3 (some [.char 65 p, .int (-2147483648) p]) p),
    .global (.scalar "head" node (some (.null p)) p),
    .function ⟨"make", [⟨"x", .int⟩, ⟨"p", ⟨.void, 1⟩⟩], node, [
      .simple (.declare (.scalar "n" node (some (.newNode "node" p)) p)),
      .simple (.assign (.field (.var "n" p) "key" true p) (some .add)
        (.binary (.arith .mul) x (.binary (.arith .add) x (.float 0.5 p) p) p) p),
      .leave (some (.var "n" p)) p], p, p⟩,
    .function ⟨"main", [], .int, [
      .forLoop (some (.declare (.scalar "i" .int (some (.int 0 p)) p))) none
        (some (.effect (.step .postInc i p) p)) [
        .branch (.binary (.compare .lt) i (.cast .int (.unary .neg x p) p) p)
          [.breakLoop p] (some [.continueLoop p]) p] p,
      .whileLoop (.unary .not (.call "make" [i, .addressOf x p] p) p)
        [.block [.simple (.effect (.read "%d" [.index (.var "row" p) i p] p) p)] p] p,
      .branch (.binary (.connect .or) (.sizeofExpr x p) (.sizeofType node p) p) [] none p,
      .simple (.effect (.print "%d" [.deref (.step .preDec i p) p] p) p),
      .leave none p], p, p⟩]

theorem ofTokens_tokens_listCounter :
    listCounter.isProper = true ∧
      ∃ q, ofTokens ((listCounter.tokens ++ [Token.eof]).map (⟨·, .start⟩)) = .ok q ∧
        q.erase = listCounter.erase :=
  ⟨by decide +kernel, ofTokens_tokens (by decide +kernel) (by simp [Function.comp_def])⟩

end Program

end Stepwise
