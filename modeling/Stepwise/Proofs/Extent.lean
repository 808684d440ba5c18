import Stepwise.Proofs.Lines
import Stepwise.Proofs.Progress

/-! How far positions reach. No line and no column is counted beyond the length of a text and one: not where a
token stands, not where anything stands in a program that is read, and not where an error is found. -/

namespace Stepwise

namespace Position

structure Within (n : Nat) (p : Position) : Prop where
  line : p.line ≤ n
  column : p.column ≤ n

variable {n k : Nat} {p : Position}

theorem Within.mono (h : p.Within n) (le : n ≤ k) : p.Within k :=
  ⟨Nat.le_trans h.line le, Nat.le_trans h.column le⟩

theorem within_start : start.Within (n + 1) := ⟨Nat.le_add_left 1 n, Nat.le_add_left 1 n⟩

theorem Within.after (h : p.Within n) (cs : List Char) : (p.after cs).Within (n + cs.length) := by
  induction cs generalizing p n with
  | nil => exact h
  | cons c cs ih =>
    have next : (p.next c).Within (n + 1) := by
      unfold Position.next
      split
      · exact ⟨Nat.succ_le_succ h.line, Nat.le_add_left 1 n⟩
      · exact ⟨Nat.le_succ_of_le h.line, Nat.succ_le_succ h.column⟩
    rw [List.length_cons, Nat.add_comm cs.length, ← Nat.add_assoc]
    exact ih next

theorem within_behind (cs : List Char) : (behind cs).Within (cs.length + 1) := by
  rw [← after_start, Nat.add_comm]
  exact Within.after (n := 1) within_start cs

end Position

/-! Texts and tokens -/

theorem Laid.within {before rest : List Char} {lexemes : List Lexeme} (h : Laid before rest lexemes) :
    ∀ x ∈ lexemes, x.pos.Within ((before ++ rest).length + 1) := by
  induction h with
  | @token before gap text rest token lexemes front taken plain read more ih =>
    simp only [List.append_assoc] at ih ⊢
    refine List.forall_mem_cons.mpr ⟨(Position.within_behind _).mono ?_, ih⟩
    simp only [List.length_append]
    omega
  | last back => exact List.forall_mem_singleton.mpr (Position.within_behind _)

namespace Lexer

/-- The position, counted on by all that is left, stays within a number. -/
def Cursor.Within (k : Nat) (cursor : Cursor) : Prop :=
  ∃ n, cursor.pos.Within n ∧ n + cursor.rest.length ≤ k

variable {k : Nat} {p q : Position} {cursor : Cursor}

theorem Cursor.Within.pos (h : cursor.Within k) : cursor.pos.Within k := by
  obtain ⟨n, hp, le⟩ := h
  exact hp.mono (Nat.le_trans (Nat.le_add_right n _) le)

theorem Cursor.Within.after {front rest : List Char} (h : Cursor.Within k ⟨front ++ rest, p⟩) :
    Cursor.Within k ⟨rest, p.after front⟩ := by
  obtain ⟨n, hp, le⟩ := h
  refine ⟨n + front.length, hp.after front, ?_⟩
  rwa [List.length_append, ← Nat.add_assoc] at le

theorem Cursor.Within.drop (h : cursor.Within k) (n : Nat) : (cursor.drop n).Within k := by
  rw [drop_eq]
  refine Cursor.Within.after ?_
  rwa [List.take_append_drop]

theorem skip_within {here : Cursor} {cs : List Char} (h : skip p cs = .ok here) (hc : Cursor.Within k ⟨cs, p⟩) :
    here.Within k := by
  obtain ⟨gap, rfl, there, -⟩ := skip_eq_ok h
  obtain ⟨rest, q⟩ := here
  subst there
  exact hc.after

/-- A comment that is not closed is opened inside the text. -/
theorem skip_error_within {cs : List Char} (h : skip p cs = .error q) (hc : Cursor.Within k ⟨cs, p⟩) :
    q.Within k := by
  induction hlen : cs.length using Nat.strongRecOn generalizing p cs with
  | ind len ih =>
    rcases skip_spec p cs with ⟨filler, rest, filled, rfl, same⟩ | ⟨-, same⟩ | same | same
    · have longer := List.length_pos_iff.mpr filled.ne_nil
      rw [List.length_append] at hlen
      exact ih rest.length (by omega) (same ▸ h) hc.after rfl
    · cases same.symm.trans h
    · cases same.symm.trans h
      exact hc.pos
    · cases same.symm.trans h

theorem tokensFrom_error_within {rounds : Nat} {e : LexError} (h : tokensFrom rounds cursor = .error e)
    (hc : cursor.Within k) : e.pos.Within k := by
  induction rounds generalizing cursor with
  | zero => cases h
  | succ rounds ih =>
    rw [tokensFrom] at h
    cases skipped : skip cursor.pos cursor.rest with
    | error opened =>
      rw [skipped] at h
      cases h
      exact skip_error_within skipped hc
    | ok here =>
      have front := skip_within skipped hc
      rw [skipped] at h
      dsimp only at h
      split at h
      · cases h
      cases read : lexeme here.rest with
      | error e =>
        rw [read] at h
        cases h
        exact (front.drop _).pos
      | ok r =>
        rw [read] at h
        dsimp only at h
        cases more : tokensFrom rounds (here.drop r.2) with
        | ok ts =>
          rw [more] at h
          cases h
        | error e =>
          rw [more] at h
          cases h
          exact ih more (front.drop _)

end Lexer

/-! Programs -/

structure Program.Stands (good : Position → Prop) (p : Program) : Prop where
  parts : ∀ e ∈ p.parts, good e.pos
  sites : ∀ q ∈ p.sites, good q
  structs : ∀ d ∈ p.structs, good d.pos

theorem Program.within_ofSource {source : String} {p : Program} (read : Program.ofSource source = .ok p) :
    p.Stands (Position.Within (source.length + 1)) := by
  rw [← String.length_toList]
  obtain ⟨ts, laid, tokens⟩ := laid_ofSource read
  obtain ⟨rest, parsed⟩ := run_ofTokens tokens
  have ended := laid.ended
  have comes := (Grammar.program_goes ended).run List.suffix_rfl ended.ne_nil
  rw [parsed] at comes
  obtain ⟨-, -, -, stands⟩ := comes
  have within {q : Position} (h : Parser.Placed ts q) : q.Within (source.toList.length + 1) := by
    obtain ⟨t, ht, rfl⟩ := h
    exact laid.within t ht
  refine ⟨fun e he => ?_, fun q hq => ?_, fun d hd => ?_⟩
  · obtain ⟨i, hi, he⟩ := List.mem_flatMap.mp he
    have := stands i hi
    cases i with
    | function f => exact within (this e he)
    | struct d => cases he
    | global d => exact within (this e he)
  · obtain ⟨front, c, back, parts, rfl⟩ := sites_ofSource read q hq
    refine (Position.within_behind front).mono ?_
    rw [parts, List.length_append]
    omega
  · exact within (stands (.struct d) (mem_structs.mp hd))

/-! Errors -/

def Mention.pos : Mention → Position
  | .struct _ pos | .call _ _ pos => pos

section Mentions

variable {good : Position → Prop}

theorem CType.mentions_pos (t : CType) {p : Position} (hp : good p) : ∀ x ∈ t.mentions p, good x.pos := by
  unfold CType.mentions
  split
  · exact List.forall_mem_singleton.mpr hp
  · exact List.forall_mem_nil _

mutual

theorem Expr.mentions_pos (e : Expr) (h : ∀ x ∈ e.parts, good x.pos) : ∀ x ∈ e.mentions, good x.pos := by
  have self := h e e.self_mem_parts
  cases e with
  | int n p | float x p | char c p | null p | var name p => exact List.forall_mem_nil _
  | binary op left right p | index left right p =>
    obtain ⟨-, inner⟩ := List.forall_mem_cons.mp h
    obtain ⟨hl, hr⟩ := List.forall_mem_append.mp inner
    exact List.forall_mem_append.mpr ⟨left.mentions_pos hl, right.mentions_pos hr⟩
  | unary op e p | step op e p | addressOf e p | deref e p | field e name arrow p | sizeofExpr e p =>
    exact e.mentions_pos (List.forall_mem_cons.mp h).2
  | call name args p =>
    exact List.forall_mem_cons.mpr ⟨self, mentionsAll_pos args (List.forall_mem_cons.mp h).2⟩
  | cast type e p =>
    exact List.forall_mem_append.mpr ⟨type.mentions_pos self, e.mentions_pos (List.forall_mem_cons.mp h).2⟩
  | sizeofType type p => exact type.mentions_pos self
  | newNode struct p => exact List.forall_mem_singleton.mpr self
  | print format args p | read format args p => exact mentionsAll_pos args (List.forall_mem_cons.mp h).2

theorem mentionsAll_pos (es : List Expr) (h : ∀ x ∈ partsAll es, good x.pos) :
    ∀ x ∈ mentionsAll es, good x.pos := by
  cases es with
  | nil => exact List.forall_mem_nil _
  | cons e rest =>
    obtain ⟨he, hrest⟩ := List.forall_mem_append.mp h
    exact List.forall_mem_append.mpr ⟨e.mentions_pos he, mentionsAll_pos rest hrest⟩

end

/-- What may be left out mentions something only if it is there. -/
theorem optional_mentions_pos {α : Type} {parts : α → List Expr} {mentions : α → List Mention}
    (h : ∀ a, (∀ x ∈ parts a, good x.pos) → ∀ x ∈ mentions a, good x.pos) (a : Option α)
    (ha : ∀ x ∈ (a.map parts).getD [], good x.pos) : ∀ x ∈ (a.map mentions).getD [], good x.pos := by
  cases a with
  | none => exact List.forall_mem_nil _
  | some a => exact h a ha

theorem Decl.mentions_pos (d : Decl) (hp : good d.pos) (h : ∀ x ∈ d.parts, good x.pos) :
    ∀ x ∈ d.mentions, good x.pos := by
  cases d with
  | scalar name type init p =>
    exact List.forall_mem_append.mpr ⟨type.mentions_pos hp, optional_mentions_pos Expr.mentions_pos init h⟩
  | array name elem size init p =>
    exact List.forall_mem_append.mpr ⟨elem.mentions_pos hp, optional_mentions_pos mentionsAll_pos init h⟩

theorem Simple.mentions_pos (c : Simple) (hp : good c.pos) (h : ∀ x ∈ c.parts, good x.pos) :
    ∀ x ∈ c.mentions, good x.pos := by
  cases c with
  | declare d => exact d.mentions_pos hp h
  | assign target op value p =>
    obtain ⟨ht, hv⟩ := List.forall_mem_append.mp h
    exact List.forall_mem_append.mpr ⟨target.mentions_pos ht, value.mentions_pos hv⟩
  | effect e p => exact e.mentions_pos h

/-- The clauses of a loop's head. -/
theorem clause_mentions_pos (c : Option Simple) (hp : ∀ q ∈ c.toList.map Simple.pos, good q)
    (h : ∀ x ∈ (c.map Simple.parts).getD [], good x.pos) :
    ∀ x ∈ (c.map Simple.mentions).getD [], good x.pos := by
  cases c with
  | none => exact List.forall_mem_nil _
  | some c => exact c.mentions_pos (hp c.pos (List.mem_singleton_self _)) h

mutual

theorem Stmt.mentions_pos (stmt : Stmt) (hp : ∀ q ∈ stmt.sites, good q) (h : ∀ x ∈ stmt.parts, good x.pos) :
    ∀ x ∈ stmt.mentions, good x.pos := by
  cases stmt with
  | simple c => exact c.mentions_pos (hp c.pos (List.mem_singleton_self _)) h
  | block body p => exact mentionsOf_pos body hp h
  | branch cond yes no p =>
    cases no with
    | none =>
      obtain ⟨-, hp⟩ := List.forall_mem_cons.mp hp
      obtain ⟨hc, hy⟩ := List.forall_mem_append.mp h
      exact List.forall_mem_append.mpr ⟨cond.mentions_pos hc, mentionsOf_pos yes hp hy⟩
    | some no =>
      obtain ⟨-, hp⟩ := List.forall_mem_cons.mp hp
      obtain ⟨py, pn⟩ := List.forall_mem_append.mp hp
      obtain ⟨h, hn⟩ := List.forall_mem_append.mp h
      obtain ⟨hc, hy⟩ := List.forall_mem_append.mp h
      exact List.forall_mem_append.mpr ⟨List.forall_mem_append.mpr ⟨cond.mentions_pos hc,
        mentionsOf_pos yes py hy⟩, mentionsOf_pos no pn hn⟩
  | whileLoop cond body p =>
    obtain ⟨hc, hb⟩ := List.forall_mem_append.mp h
    exact List.forall_mem_append.mpr ⟨cond.mentions_pos hc,
      mentionsOf_pos body (List.forall_mem_cons.mp hp).2 hb⟩
  | forLoop init cond update body p =>
    obtain ⟨-, hp⟩ := List.forall_mem_cons.mp hp
    obtain ⟨hp, pb⟩ := List.forall_mem_append.mp hp
    obtain ⟨pi, pu⟩ := List.forall_mem_append.mp hp
    obtain ⟨h, hb⟩ := List.forall_mem_append.mp h
    obtain ⟨h, hu⟩ := List.forall_mem_append.mp h
    obtain ⟨hi, hc⟩ := List.forall_mem_append.mp h
    simp only [Stmt.mentions, List.forall_mem_append]
    exact ⟨⟨⟨clause_mentions_pos init pi hi, optional_mentions_pos Expr.mentions_pos cond hc⟩,
      clause_mentions_pos update pu hu⟩, mentionsOf_pos body pb hb⟩
  | leave value p => exact optional_mentions_pos Expr.mentions_pos value h
  | breakLoop p | continueLoop p => exact List.forall_mem_nil _

theorem mentionsOf_pos (stmts : List Stmt) (hp : ∀ q ∈ sitesOf stmts, good q)
    (h : ∀ x ∈ partsOf stmts, good x.pos) : ∀ x ∈ mentionsOf stmts, good x.pos := by
  cases stmts with
  | nil => exact List.forall_mem_nil _
  | cons stmt rest =>
    obtain ⟨ps, pr⟩ := List.forall_mem_append.mp hp
    obtain ⟨hs, hr⟩ := List.forall_mem_append.mp h
    exact List.forall_mem_append.mpr ⟨stmt.mentions_pos ps hs, mentionsOf_pos rest pr hr⟩

end

namespace Program

variable {p : Program}

theorem Stands.function (h : p.Stands good) {f : Function} (hf : f ∈ p.functions) :
    good f.pos ∧ good f.endPos ∧ (∀ q ∈ sitesOf f.body, good q) ∧ ∀ e ∈ partsOf f.body, good e.pos := by
  have hi := mem_functions.mp hf
  have sites : ∀ q ∈ (Item.function f).sites, good q := fun q hq =>
    h.sites q (List.mem_flatMap.mpr ⟨_, hi, hq⟩)
  obtain ⟨first, sites⟩ := List.forall_mem_cons.mp sites
  obtain ⟨last, sites⟩ := List.forall_mem_cons.mp sites
  exact ⟨first, last, sites, fun e he => h.parts e (List.mem_flatMap.mpr ⟨_, hi, he⟩)⟩

theorem Stands.global (h : p.Stands good) {d : Decl} (hd : d ∈ p.globals) :
    good d.pos ∧ ∀ e ∈ d.parts, good e.pos := by
  have hi := mem_globals.mp hd
  exact ⟨h.sites d.pos (List.mem_flatMap.mpr ⟨_, hi, List.mem_singleton_self _⟩),
    fun e he => h.parts e (List.mem_flatMap.mpr ⟨_, hi, he⟩)⟩

theorem Stands.mentions (h : p.Stands good) : ∀ x ∈ p.flatMap Item.mentions, good x.pos := by
  intro x hx
  obtain ⟨i, hi, hx⟩ := List.mem_flatMap.mp hx
  cases i with
  | function f =>
    obtain ⟨first, -, sites, parts⟩ := h.function (mem_functions.mpr hi)
    rcases List.mem_append.mp hx with hx | hx
    · rcases List.mem_append.mp hx with hx | hx
      · exact f.returns.mentions_pos first x hx
      · obtain ⟨m, -, hx⟩ := List.mem_flatMap.mp hx
        exact m.type.mentions_pos first x hx
    · exact mentionsOf_pos f.body sites parts x hx
  | struct d =>
    obtain ⟨m, -, hx⟩ := List.mem_flatMap.mp hx
    exact m.type.mentions_pos (h.structs d (mem_structs.mpr hi)) x hx
  | global d =>
    obtain ⟨pos, parts⟩ := h.global (mem_globals.mpr hi)
    exact d.mentions_pos pos parts x hx

theorem checkDefinitions_pos {structs functions : List String} {e : ParseError} (h : p.Stands good)
    (failed : p.checkDefinitions structs functions = .error e) : good e.pos := by
  induction p generalizing structs functions with
  | nil => cases failed
  | cons i rest ih =>
    have later : Stands good rest :=
      ⟨fun e he => h.parts e (List.mem_append_right _ he), fun q hq => h.sites q (List.mem_append_right _ hq),
        fun d hd => h.structs d (mem_structs.mpr (List.mem_cons_of_mem _ (mem_structs.mp hd)))⟩
    cases i with
    | struct d =>
      rw [checkDefinitions] at failed
      split at failed
      · cases failed
        exact h.structs d List.mem_cons_self
      · exact ih later failed
    | function f =>
      have first := (h.function (f := f) List.mem_cons_self).1
      rw [checkDefinitions] at failed
      split at failed
      · cases failed
        exact first
      · split at failed
        · cases failed
          exact first
        · exact ih later failed
    | global d => exact ih later failed

theorem checkMain_pos {e : ParseError} (h : p.Stands good) (start : good .start)
    (failed : p.checkMain = .error e) : good e.pos := by
  unfold checkMain at failed
  split at failed
  · cases failed
    exact start
  · rename_i f found
    split at failed
    · cases failed
    · cases failed
      exact (h.function (List.mem_of_find?_eq_some found)).1

theorem checkMention_pos {x : Mention} {e : ParseError} (failed : p.checkMention x = .error e) :
    e.pos = x.pos := by
  unfold checkMention at failed
  split at failed
  · split at failed <;> cases failed
    rfl
  · split at failed
    · cases failed
      rfl
    · split at failed <;> cases failed
      rfl

theorem checkMentions_pos {xs : List Mention} {e : ParseError} (h : ∀ x ∈ xs, good x.pos)
    (failed : xs.forM p.checkMention = .error e) : good e.pos := by
  induction xs with
  | nil => cases failed
  | cons x xs ih =>
    obtain ⟨hx, hxs⟩ := List.forall_mem_cons.mp h
    rw [List.forM] at failed
    cases checked : p.checkMention x with
    | error e' =>
      rw [checked] at failed
      cases failed
      exact checkMention_pos checked ▸ hx
    | ok _ =>
      rw [checked] at failed
      exact ih hxs failed

/-- Where a reference fails to check, something stands that is in the program; only a program without `main` is
at fault at the start of its text. -/
theorem checkReferences_pos {e : ParseError} (h : p.Stands good) (start : good .start)
    (failed : p.checkReferences = .error e) : good e.pos := by
  unfold checkReferences at failed
  cases definitions : p.checkDefinitions [] [] with
  | error e' =>
    rw [definitions] at failed
    cases failed
    exact checkDefinitions_pos h definitions
  | ok _ =>
    rw [definitions] at failed
    cases main : p.checkMain with
    | error e' =>
      rw [main] at failed
      cases failed
      exact checkMain_pos h start main
    | ok _ =>
      rw [main] at failed
      exact checkMentions_pos h.mentions failed

end Program

end Mentions

theorem Program.ofSource_error_within {source : String} {e : ParseError}
    (failed : Program.ofSource source = .error e) : e.pos.Within (source.length + 1) := by
  rw [← String.length_toList]
  unfold ofSource at failed
  cases cut : tokenize source with
  | error e' =>
    rw [cut] at failed
    cases failed
    exact Lexer.tokensFrom_error_within cut ⟨1, Position.within_start, Nat.le_of_eq (Nat.add_comm 1 _)⟩
  | ok ts =>
    rw [cut] at failed
    have laid := Laid.tokens cut
    rcases Grammar.Finishes.of_ended laid.ended with ⟨p, last, -, -, read⟩ | ⟨e', failed', located⟩
    · cases read.symm.trans failed
    · cases failed'.symm.trans failed
      obtain ⟨t, ht, pos⟩ := located.token
      rw [← pos]
      exact laid.within t ht

/-- Where a text is no program, or its references do not check, the error stands inside the text. -/
theorem Program.parse_error_within {source : String} {e : ParseError} (failed : Program.parse source = .error e) :
    e.pos.Within (source.length + 1) := by
  unfold parse at failed
  cases read : Program.ofSource source with
  | error e' =>
    rw [read] at failed
    cases failed
    exact ofSource_error_within read
  | ok p =>
    rw [read] at failed
    replace failed : (p.checkReferences >>= fun _ => pure p) = .error e := failed
    cases checked : p.checkReferences with
    | error e' =>
      rw [checked] at failed
      cases failed
      exact checkReferences_pos (within_ofSource read) Position.within_start checked
    | ok _ =>
      rw [checked] at failed
      cases failed

end Stepwise
