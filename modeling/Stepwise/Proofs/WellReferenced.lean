import Mathlib.Data.List.Nodup
import Stepwise.Proofs.References

/-! The check of references accepts just the programs whose names fit together. What has to fit is said
without the walk that collects mentions: by where an expression or a declaration can stand in a program,
one rule for each place. -/

namespace Stepwise

/-! Where expressions and declarations stand -/

inductive Expr.In (x : Expr) : Expr → Prop where
  | self : In x x
  | left {op l r p} (h : In x l) : In x (.binary op l r p)
  | right {op l r p} (h : In x r) : In x (.binary op l r p)
  | unary {op e p} (h : In x e) : In x (.unary op e p)
  | step {op e p} (h : In x e) : In x (.step op e p)
  | addressOf {e p} (h : In x e) : In x (.addressOf e p)
  | deref {e p} (h : In x e) : In x (.deref e p)
  | argument {name args e p} (mem : e ∈ args) (h : In x e) : In x (.call name args p)
  | array {a i p} (h : In x a) : In x (.index a i p)
  | index {a i p} (h : In x i) : In x (.index a i p)
  | object {e name arrow p} (h : In x e) : In x (.field e name arrow p)
  | cast {type e p} (h : In x e) : In x (.cast type e p)
  | sized {e p} (h : In x e) : In x (.sizeofExpr e p)
  | printed {format args e p} (mem : e ∈ args) (h : In x e) : In x (.print format args p)
  | target {format targets e p} (mem : e ∈ targets) (h : In x e) : In x (.read format targets p)

inductive Decl.Has (x : Expr) : Decl → Prop where
  | init {name type e p} (h : x.In e) : Has x (.scalar name type (some e) p)
  | item {name elem size es e p} (mem : e ∈ es) (h : x.In e) : Has x (.array name elem size (some es) p)

inductive Simple.Has (x : Expr) : Simple → Prop where
  | declare {d} (h : Decl.Has x d) : Has x (.declare d)
  | target {t op v p} (h : x.In t) : Has x (.assign t op v p)
  | value {t op v p} (h : x.In v) : Has x (.assign t op v p)
  | effect {e p} (h : x.In e) : Has x (.effect e p)

inductive Stmt.Has (x : Expr) : Stmt → Prop where
  | simple {c} (h : Simple.Has x c) : Has x (.simple c)
  | block {body s p} (mem : s ∈ body) (h : Has x s) : Has x (.block body p)
  | cond {e yes no p} (h : x.In e) : Has x (.branch e yes no p)
  | yes {e yes no s p} (mem : s ∈ yes) (h : Has x s) : Has x (.branch e yes no p)
  | no {e yes no s p} (mem : s ∈ no) (h : Has x s) : Has x (.branch e yes (some no) p)
  | whileCond {e body p} (h : x.In e) : Has x (.whileLoop e body p)
  | whileBody {e body s p} (mem : s ∈ body) (h : Has x s) : Has x (.whileLoop e body p)
  | forInit {c cond update body p} (h : Simple.Has x c) : Has x (.forLoop (some c) cond update body p)
  | forCond {init e update body p} (h : x.In e) : Has x (.forLoop init (some e) update body p)
  | forUpdate {init cond c body p} (h : Simple.Has x c) : Has x (.forLoop init cond (some c) body p)
  | forBody {init cond update body s p} (mem : s ∈ body) (h : Has x s) :
      Has x (.forLoop init cond update body p)
  | leave {e p} (h : x.In e) : Has x (.leave (some e) p)

/-- The declaration is the statement, a clause of it, or stands in it at any depth. -/
inductive Stmt.Declares (d : Decl) : Stmt → Prop where
  | simple : Declares d (.simple (.declare d))
  | block {body s p} (mem : s ∈ body) (h : Declares d s) : Declares d (.block body p)
  | yes {e yes no s p} (mem : s ∈ yes) (h : Declares d s) : Declares d (.branch e yes no p)
  | no {e yes no s p} (mem : s ∈ no) (h : Declares d s) : Declares d (.branch e yes (some no) p)
  | whileBody {e body s p} (mem : s ∈ body) (h : Declares d s) : Declares d (.whileLoop e body p)
  | forInit {cond update body p} : Declares d (.forLoop (some (.declare d)) cond update body p)
  | forUpdate {init cond body p} : Declares d (.forLoop init cond (some (.declare d)) body p)
  | forBody {init cond update body s p} (mem : s ∈ body) (h : Declares d s) :
      Declares d (.forLoop init cond update body p)

namespace Program

inductive Has (p : Program) (x : Expr) : Prop where
  | body {f s} (hf : f ∈ p.functions) (hs : s ∈ f.body) (h : Stmt.Has x s)
  | global {d} (hd : d ∈ p.globals) (h : Decl.Has x d)

inductive Declares (p : Program) (d : Decl) : Prop where
  | body {f s} (hf : f ∈ p.functions) (hs : s ∈ f.body) (h : Stmt.Declares d s)
  | global (hd : d ∈ p.globals)

/-- The program names a struct: in the type of a result, a parameter, a field, a variable or an element,
in a cast, in a size or in the allocation of a node. -/
inductive NamesStruct (p : Program) (n : String) : Prop where
  | result {f} (hf : f ∈ p.functions) (h : f.returns.structName? = some n)
  | parameter {f q} (hf : f ∈ p.functions) (hq : q ∈ f.params) (h : q.type.structName? = some n)
  | field {d q} (hd : d ∈ p.structs) (hq : q ∈ d.fields) (h : q.type.structName? = some n)
  | scalar {x type init pos} (hd : p.Declares (.scalar x type init pos))
      (h : type.structName? = some n)
  | element {x elem size init pos} (hd : p.Declares (.array x elem size init pos))
      (h : elem.structName? = some n)
  | cast {type e pos} (he : p.Has (.cast type e pos)) (h : type.structName? = some n)
  | size {type pos} (he : p.Has (.sizeofType type pos)) (h : type.structName? = some n)
  | node {pos} (he : p.Has (.newNode n pos))

structure WellReferenced (p : Program) : Prop where
  structs : (p.structs.map (·.name)).Nodup
  functions : (p.functions.map (·.name)).Nodup
  own : ∀ f ∈ p.functions, f.name ∉ ["printf", "scanf", "malloc", "free"]
  main : ∃ f ∈ p.functions, f.name = "main" ∧ f.params = []
  named : ∀ n, p.NamesStruct n → ∃ d ∈ p.structs, d.name = n
  called : ∀ name args pos, p.Has (.call name args pos) →
    (∃ f ∈ p.functions, f.name = name ∧ f.params.length = args.length) ∨
      name = "free" ∧ args.length = 1

end Program

/-! What is mentioned where -/

/-- The mention that an expression makes itself, its parts apart. -/
inductive Expr.Makes : Expr → Mention → Prop where
  | call {name args p} : Makes (.call name args p) (.call name args.length p)
  | cast {type e n p} (h : type.structName? = some n) : Makes (.cast type e p) (.struct n p)
  | size {type n p} (h : type.structName? = some n) : Makes (.sizeofType type p) (.struct n p)
  | node {n p} : Makes (.newNode n p) (.struct n p)

inductive Decl.Makes : Decl → Mention → Prop where
  | scalar {x type init n p} (h : type.structName? = some n) :
      Makes (.scalar x type init p) (.struct n p)
  | element {x elem size init n p} (h : elem.structName? = some n) :
      Makes (.array x elem size init p) (.struct n p)

variable {m : Mention}

theorem CType.mem_mentions {t : CType} {pos : Position} :
    m ∈ t.mentions pos ↔ ∃ n, t.structName? = some n ∧ m = .struct n pos := by
  unfold mentions
  cases t.structName? <;> simp

theorem mem_mentionsAll {es : List Expr} : m ∈ mentionsAll es ↔ ∃ e ∈ es, m ∈ e.mentions := by
  induction es with
  | nil => simp [mentionsAll]
  | cons e rest ih => simp [mentionsAll, ih]

theorem mem_mentionsOf {stmts : List Stmt} : m ∈ mentionsOf stmts ↔ ∃ s ∈ stmts, m ∈ s.mentions := by
  induction stmts with
  | nil => simp [mentionsOf]
  | cons s rest ih => simp [mentionsOf, ih]

namespace Expr

variable {e x : Expr}

theorem mem_mentions_of_makes (h : x.Makes m) : m ∈ x.mentions := by
  cases h with
  | call => exact List.mem_cons_self
  | cast named => exact List.mem_append_left _ (CType.mem_mentions.mpr ⟨_, named, rfl⟩)
  | size named => exact CType.mem_mentions.mpr ⟨_, named, rfl⟩
  | node => exact List.mem_cons_self

theorem mem_mentions_of_in (h : x.In e) (hm : m ∈ x.mentions) : m ∈ e.mentions := by
  induction h with
  | self => exact hm
  | left _ ih | array _ ih => exact List.mem_append_left _ ih
  | right _ ih | index _ ih | cast _ ih => exact List.mem_append_right _ ih
  | argument mem _ ih => exact List.mem_cons_of_mem _ (mem_mentionsAll.mpr ⟨_, mem, ih⟩)
  | printed mem _ ih | target mem _ ih => exact mem_mentionsAll.mpr ⟨_, mem, ih⟩
  | unary _ ih | step _ ih | addressOf _ ih | deref _ ih | object _ ih | sized _ ih => exact ih

end Expr

mutual

theorem Expr.exists_of_mem_mentions (e : Expr) (h : m ∈ e.mentions) : ∃ x : Expr, x.In e ∧ x.Makes m := by
  cases e with
  | int | float | char | null | var => cases h
  | binary op l r p =>
    rcases List.mem_append.mp h with h | h
    · obtain ⟨x, inside, makes⟩ := l.exists_of_mem_mentions h
      exact ⟨x, .left inside, makes⟩
    · obtain ⟨x, inside, makes⟩ := r.exists_of_mem_mentions h
      exact ⟨x, .right inside, makes⟩
  | unary op e p =>
    obtain ⟨x, inside, makes⟩ := e.exists_of_mem_mentions h
    exact ⟨x, .unary inside, makes⟩
  | step op e p =>
    obtain ⟨x, inside, makes⟩ := e.exists_of_mem_mentions h
    exact ⟨x, .step inside, makes⟩
  | addressOf e p =>
    obtain ⟨x, inside, makes⟩ := e.exists_of_mem_mentions h
    exact ⟨x, .addressOf inside, makes⟩
  | deref e p =>
    obtain ⟨x, inside, makes⟩ := e.exists_of_mem_mentions h
    exact ⟨x, .deref inside, makes⟩
  | call name args p =>
    rcases List.mem_cons.mp h with rfl | h
    · exact ⟨_, .self, .call⟩
    · obtain ⟨e, mem, x, inside, makes⟩ := exists_of_mem_mentionsAll args h
      exact ⟨x, .argument mem inside, makes⟩
  | index a i p =>
    rcases List.mem_append.mp h with h | h
    · obtain ⟨x, inside, makes⟩ := a.exists_of_mem_mentions h
      exact ⟨x, .array inside, makes⟩
    · obtain ⟨x, inside, makes⟩ := i.exists_of_mem_mentions h
      exact ⟨x, .index inside, makes⟩
  | field e name arrow p =>
    obtain ⟨x, inside, makes⟩ := e.exists_of_mem_mentions h
    exact ⟨x, .object inside, makes⟩
  | cast type e p =>
    rcases List.mem_append.mp h with h | h
    · obtain ⟨n, named, rfl⟩ := CType.mem_mentions.mp h
      exact ⟨_, .self, .cast named⟩
    · obtain ⟨x, inside, makes⟩ := e.exists_of_mem_mentions h
      exact ⟨x, .cast inside, makes⟩
  | sizeofType type p =>
    obtain ⟨n, named, rfl⟩ := CType.mem_mentions.mp h
    exact ⟨_, .self, .size named⟩
  | sizeofExpr e p =>
    obtain ⟨x, inside, makes⟩ := e.exists_of_mem_mentions h
    exact ⟨x, .sized inside, makes⟩
  | newNode n p =>
    obtain rfl := List.mem_singleton.mp h
    exact ⟨_, .self, .node⟩
  | print format args p =>
    obtain ⟨e, mem, x, inside, makes⟩ := exists_of_mem_mentionsAll args h
    exact ⟨x, .printed mem inside, makes⟩
  | read format targets p =>
    obtain ⟨e, mem, x, inside, makes⟩ := exists_of_mem_mentionsAll targets h
    exact ⟨x, .target mem inside, makes⟩

theorem exists_of_mem_mentionsAll (es : List Expr) (h : m ∈ mentionsAll es) :
    ∃ e ∈ es, ∃ x : Expr, x.In e ∧ x.Makes m := by
  cases es with
  | nil => cases h
  | cons e rest =>
    rcases List.mem_append.mp h with h | h
    · exact ⟨e, List.mem_cons_self, e.exists_of_mem_mentions h⟩
    · obtain ⟨e', mem, found⟩ := exists_of_mem_mentionsAll rest h
      exact ⟨e', List.mem_cons_of_mem _ mem, found⟩

end

theorem Expr.mem_mentions {e : Expr} : m ∈ e.mentions ↔ ∃ x : Expr, x.In e ∧ x.Makes m :=
  ⟨e.exists_of_mem_mentions, fun ⟨_, inside, makes⟩ =>
    mem_mentions_of_in inside (mem_mentions_of_makes makes)⟩

theorem Decl.mem_mentions {d : Decl} :
    m ∈ d.mentions ↔ d.Makes m ∨ ∃ x, d.Has x ∧ x.Makes m := by
  constructor
  · intro h
    cases d with
    | scalar name type init p =>
      rcases List.mem_append.mp h with h | h
      · obtain ⟨n, named, rfl⟩ := CType.mem_mentions.mp h
        exact .inl (.scalar named)
      · cases init with
        | none => cases h
        | some e =>
          obtain ⟨x, inside, makes⟩ := Expr.mem_mentions.mp h
          exact .inr ⟨x, .init inside, makes⟩
    | array name elem size init p =>
      rcases List.mem_append.mp h with h | h
      · obtain ⟨n, named, rfl⟩ := CType.mem_mentions.mp h
        exact .inl (.element named)
      · cases init with
        | none => cases h
        | some es =>
          obtain ⟨e, mem, x, inside, makes⟩ := exists_of_mem_mentionsAll es h
          exact .inr ⟨x, .item mem inside, makes⟩
  · rintro (makes | ⟨x, has, makes⟩)
    · cases makes with
      | scalar named | element named =>
        exact List.mem_append_left _ (CType.mem_mentions.mpr ⟨_, named, rfl⟩)
    · cases has with
      | init inside => exact List.mem_append_right _ (Expr.mem_mentions.mpr ⟨x, inside, makes⟩)
      | item mem inside =>
        exact List.mem_append_right _
          (mem_mentionsAll.mpr ⟨_, mem, Expr.mem_mentions.mpr ⟨x, inside, makes⟩⟩)

theorem Simple.mem_mentions {c : Simple} :
    m ∈ c.mentions ↔ (∃ d, c = .declare d ∧ d.Makes m) ∨ ∃ x, c.Has x ∧ x.Makes m := by
  constructor
  · intro h
    cases c with
    | declare d =>
      rcases Decl.mem_mentions.mp h with makes | ⟨x, has, makes⟩
      · exact .inl ⟨d, rfl, makes⟩
      · exact .inr ⟨x, .declare has, makes⟩
    | assign t op v p =>
      rcases List.mem_append.mp h with h | h
      · obtain ⟨x, inside, makes⟩ := Expr.mem_mentions.mp h
        exact .inr ⟨x, .target inside, makes⟩
      · obtain ⟨x, inside, makes⟩ := Expr.mem_mentions.mp h
        exact .inr ⟨x, .value inside, makes⟩
    | effect e p =>
      obtain ⟨x, inside, makes⟩ := Expr.mem_mentions.mp h
      exact .inr ⟨x, .effect inside, makes⟩
  · rintro (⟨d, rfl, makes⟩ | ⟨x, has, makes⟩)
    · exact Decl.mem_mentions.mpr (.inl makes)
    · cases has with
      | declare has => exact Decl.mem_mentions.mpr (.inr ⟨x, has, makes⟩)
      | target inside => exact List.mem_append_left _ (Expr.mem_mentions.mpr ⟨x, inside, makes⟩)
      | value inside => exact List.mem_append_right _ (Expr.mem_mentions.mpr ⟨x, inside, makes⟩)
      | effect inside => exact Expr.mem_mentions.mpr ⟨x, inside, makes⟩

namespace Stmt

variable {s : Stmt}

def Holds (s : Stmt) (m : Mention) : Prop :=
  (∃ d, s.Declares d ∧ d.Makes m) ∨ ∃ x, s.Has x ∧ x.Makes m

theorem holds_of_simple {c : Simple} (h : m ∈ c.mentions)
    (declares : ∀ d, c = .declare d → s.Declares d) (has : ∀ x, c.Has x → s.Has x) : s.Holds m := by
  rcases Simple.mem_mentions.mp h with ⟨d, eq, makes⟩ | ⟨x, inside, makes⟩
  · exact .inl ⟨d, declares d eq, makes⟩
  · exact .inr ⟨x, has x inside, makes⟩

theorem holds_of_expr {e : Expr} (h : m ∈ e.mentions) (has : ∀ x : Expr, x.In e → s.Has x) :
    s.Holds m := by
  obtain ⟨x, inside, makes⟩ := Expr.mem_mentions.mp h
  exact .inr ⟨x, has x inside, makes⟩

theorem Holds.imp {s' : Stmt} (h : s.Holds m) (declares : ∀ d, s.Declares d → s'.Declares d)
    (has : ∀ x, s.Has x → s'.Has x) : s'.Holds m := by
  rcases h with ⟨d, inside, makes⟩ | ⟨x, inside, makes⟩
  · exact .inl ⟨d, declares d inside, makes⟩
  · exact .inr ⟨x, has x inside, makes⟩

theorem mem_mentions_of_declares {d : Decl} (h : s.Declares d) (makes : d.Makes m) :
    m ∈ s.mentions := by
  have own : m ∈ (Simple.declare d).mentions := Simple.mem_mentions.mpr (.inl ⟨d, rfl, makes⟩)
  induction h with
  | simple => exact own
  | block mem _ ih => exact mem_mentionsOf.mpr ⟨_, mem, ih⟩
  | @yes e yes no s p mem _ ih =>
    have inner := mem_mentionsOf.mpr ⟨_, mem, ih⟩
    cases no with
    | none => exact List.mem_append_right _ inner
    | some no => exact List.mem_append_left _ (List.mem_append_right _ inner)
  | no mem _ ih => exact List.mem_append_right _ (mem_mentionsOf.mpr ⟨_, mem, ih⟩)
  | whileBody mem _ ih => exact List.mem_append_right _ (mem_mentionsOf.mpr ⟨_, mem, ih⟩)
  | forInit => exact List.mem_append_left _ (List.mem_append_left _ (List.mem_append_left _ own))
  | forUpdate => exact List.mem_append_left _ (List.mem_append_right _ own)
  | forBody mem _ ih => exact List.mem_append_right _ (mem_mentionsOf.mpr ⟨_, mem, ih⟩)

theorem mem_mentions_of_has {x : Expr} (h : s.Has x) (makes : x.Makes m) : m ∈ s.mentions := by
  have clause {c : Simple} (h : c.Has x) : m ∈ c.mentions :=
    Simple.mem_mentions.mpr (.inr ⟨x, h, makes⟩)
  have inside {e : Expr} (h : x.In e) : m ∈ e.mentions := Expr.mem_mentions.mpr ⟨x, h, makes⟩
  induction h with
  | simple h => exact clause h
  | block mem _ ih => exact mem_mentionsOf.mpr ⟨_, mem, ih⟩
  | @cond e yes no p h =>
    cases no with
    | none => exact List.mem_append_left _ (inside h)
    | some no => exact List.mem_append_left _ (List.mem_append_left _ (inside h))
  | @yes e yes no s p mem _ ih =>
    have inner := mem_mentionsOf.mpr ⟨_, mem, ih⟩
    cases no with
    | none => exact List.mem_append_right _ inner
    | some no => exact List.mem_append_left _ (List.mem_append_right _ inner)
  | no mem _ ih => exact List.mem_append_right _ (mem_mentionsOf.mpr ⟨_, mem, ih⟩)
  | whileCond h => exact List.mem_append_left _ (inside h)
  | whileBody mem _ ih => exact List.mem_append_right _ (mem_mentionsOf.mpr ⟨_, mem, ih⟩)
  | forInit h =>
    exact List.mem_append_left _ (List.mem_append_left _ (List.mem_append_left _ (clause h)))
  | forCond h =>
    exact List.mem_append_left _ (List.mem_append_left _ (List.mem_append_right _ (inside h)))
  | forUpdate h => exact List.mem_append_left _ (List.mem_append_right _ (clause h))
  | forBody mem _ ih => exact List.mem_append_right _ (mem_mentionsOf.mpr ⟨_, mem, ih⟩)
  | leave h => exact inside h

end Stmt

mutual

theorem Stmt.holds_of_mem_mentions (s : Stmt) (h : m ∈ s.mentions) : s.Holds m := by
  cases s with
  | simple c => exact Stmt.holds_of_simple h (fun d eq => eq ▸ .simple) fun _ => .simple
  | block body p =>
    obtain ⟨s, mem, holds⟩ := holds_of_mem_mentionsOf body h
    exact holds.imp (fun _ => .block mem) fun _ => .block mem
  | branch e yes no p =>
    have first (h : m ∈ e.mentions ++ mentionsOf yes) : Stmt.Holds (.branch e yes no p) m := by
      rcases List.mem_append.mp h with h | h
      · exact Stmt.holds_of_expr h fun _ => .cond
      · obtain ⟨s, mem, holds⟩ := holds_of_mem_mentionsOf yes h
        exact holds.imp (fun _ => .yes mem) fun _ => .yes mem
    cases no with
    | none => exact first h
    | some no =>
      rcases List.mem_append.mp h with h | h
      · exact first h
      · obtain ⟨s, mem, holds⟩ := holds_of_mem_mentionsOf no h
        exact holds.imp (fun _ => .no mem) fun _ => .no mem
  | whileLoop e body p =>
    rcases List.mem_append.mp h with h | h
    · exact Stmt.holds_of_expr h fun _ => .whileCond
    · obtain ⟨s, mem, holds⟩ := holds_of_mem_mentionsOf body h
      exact holds.imp (fun _ => .whileBody mem) fun _ => .whileBody mem
  | forLoop init cond update body p =>
    rcases List.mem_append.mp h with h | h
    · rcases List.mem_append.mp h with h | h
      · rcases List.mem_append.mp h with h | h
        · cases init with
          | none => cases h
          | some c => exact Stmt.holds_of_simple h (fun d eq => eq ▸ .forInit) fun _ => .forInit
        · cases cond with
          | none => cases h
          | some e => exact Stmt.holds_of_expr h fun _ => .forCond
      · cases update with
        | none => cases h
        | some c => exact Stmt.holds_of_simple h (fun d eq => eq ▸ .forUpdate) fun _ => .forUpdate
    · obtain ⟨s, mem, holds⟩ := holds_of_mem_mentionsOf body h
      exact holds.imp (fun _ => .forBody mem) fun _ => .forBody mem
  | leave value p =>
    cases value with
    | none => cases h
    | some e => exact Stmt.holds_of_expr h fun _ => .leave
  | breakLoop | continueLoop => cases h

theorem holds_of_mem_mentionsOf (stmts : List Stmt) (h : m ∈ mentionsOf stmts) :
    ∃ s ∈ stmts, s.Holds m := by
  cases stmts with
  | nil => cases h
  | cons s rest =>
    rcases List.mem_append.mp h with h | h
    · exact ⟨s, List.mem_cons_self, s.holds_of_mem_mentions h⟩
    · obtain ⟨s', mem, holds⟩ := holds_of_mem_mentionsOf rest h
      exact ⟨s', List.mem_cons_of_mem _ mem, holds⟩

end

theorem Stmt.mem_mentions {s : Stmt} : m ∈ s.mentions ↔ s.Holds m := by
  refine ⟨s.holds_of_mem_mentions, ?_⟩
  rintro (⟨d, declares, makes⟩ | ⟨x, has, makes⟩)
  · exact mem_mentions_of_declares declares makes
  · exact mem_mentions_of_has has makes

namespace Program

variable {p : Program}

theorem mem_mentions_of_has {x : Expr} (h : p.Has x) (makes : x.Makes m) :
    m ∈ p.flatMap Item.mentions := by
  cases h with
  | body hf hs has =>
    refine List.mem_flatMap.mpr ⟨_, mem_functions.mp hf, List.mem_append_right _ ?_⟩
    exact mem_mentionsOf.mpr ⟨_, hs, Stmt.mem_mentions.mpr (.inr ⟨x, has, makes⟩)⟩
  | global hd has =>
    exact List.mem_flatMap.mpr ⟨_, mem_globals.mp hd, Decl.mem_mentions.mpr (.inr ⟨x, has, makes⟩)⟩

theorem mem_mentions_of_declares {d : Decl} (h : p.Declares d) (makes : d.Makes m) :
    m ∈ p.flatMap Item.mentions := by
  cases h with
  | body hf hs declares =>
    refine List.mem_flatMap.mpr ⟨_, mem_functions.mp hf, List.mem_append_right _ ?_⟩
    exact mem_mentionsOf.mpr ⟨_, hs, Stmt.mem_mentions.mpr (.inl ⟨d, declares, makes⟩)⟩
  | global hd =>
    exact List.mem_flatMap.mpr ⟨_, mem_globals.mp hd, Decl.mem_mentions.mpr (.inl makes)⟩

/-- The mentions of a program are the structs it names and the calls that stand in it. -/
theorem of_mem_mentions (h : m ∈ p.flatMap Item.mentions) :
    (∃ n pos, m = .struct n pos ∧ p.NamesStruct n) ∨
      ∃ name args pos, m = .call name args.length pos ∧ p.Has (.call name args pos) := by
  have expr {x : Expr} (has : p.Has x) (makes : x.Makes m) :
      (∃ n pos, m = .struct n pos ∧ p.NamesStruct n) ∨
        ∃ name args pos, m = .call name args.length pos ∧ p.Has (.call name args pos) := by
    cases makes with
    | call => exact .inr ⟨_, _, _, rfl, has⟩
    | cast named => exact .inl ⟨_, _, rfl, .cast has named⟩
    | size named => exact .inl ⟨_, _, rfl, .size has named⟩
    | node => exact .inl ⟨_, _, rfl, .node has⟩
  have decl {d : Decl} (declares : p.Declares d) (makes : d.Makes m) :
      ∃ n pos, m = .struct n pos ∧ p.NamesStruct n := by
    cases makes with
    | scalar named => exact ⟨_, _, rfl, .scalar declares named⟩
    | element named => exact ⟨_, _, rfl, .element declares named⟩
  obtain ⟨i, hi, h⟩ := List.mem_flatMap.mp h
  cases i with
  | function f =>
    have hf := mem_functions.mpr hi
    simp only [Item.mentions, List.mem_append, List.mem_flatMap, CType.mem_mentions] at h
    rcases h with (⟨n, named, rfl⟩ | ⟨q, hq, n, named, rfl⟩) | h
    · exact .inl ⟨n, _, rfl, .result hf named⟩
    · exact .inl ⟨n, _, rfl, .parameter hf hq named⟩
    · obtain ⟨s, hs, ⟨d, declares, makes⟩ | ⟨x, has, makes⟩⟩ := holds_of_mem_mentionsOf _ h
      · exact .inl (decl (.body hf hs declares) makes)
      · exact expr (.body hf hs has) makes
  | struct d =>
    simp only [Item.mentions, List.mem_flatMap, CType.mem_mentions] at h
    obtain ⟨q, hq, n, named, rfl⟩ := h
    exact .inl ⟨n, _, rfl, .field (mem_structs.mpr hi) hq named⟩
  | global d =>
    have hd := mem_globals.mpr hi
    rcases Decl.mem_mentions.mp h with makes | ⟨x, has, makes⟩
    · exact .inl (decl (.global hd) makes)
    · exact expr (.global hd has) makes

theorem mem_mentions_of_namesStruct {n : String} (h : p.NamesStruct n) :
    ∃ pos, .struct n pos ∈ p.flatMap Item.mentions := by
  cases h with
  | @result f hf named =>
    refine ⟨f.pos, List.mem_flatMap.mpr ⟨_, mem_functions.mp hf, ?_⟩⟩
    exact List.mem_append_left _ (List.mem_append_left _ (CType.mem_mentions.mpr ⟨n, named, rfl⟩))
  | @parameter f q hf hq named =>
    refine ⟨f.pos, List.mem_flatMap.mpr ⟨_, mem_functions.mp hf, ?_⟩⟩
    refine List.mem_append_left _ (List.mem_append_right _ ?_)
    exact List.mem_flatMap.mpr ⟨q, hq, CType.mem_mentions.mpr ⟨n, named, rfl⟩⟩
  | @field d q hd hq named =>
    refine ⟨d.pos, List.mem_flatMap.mpr ⟨_, mem_structs.mp hd, ?_⟩⟩
    exact List.mem_flatMap.mpr ⟨q, hq, CType.mem_mentions.mpr ⟨n, named, rfl⟩⟩
  | scalar declares named => exact ⟨_, mem_mentions_of_declares declares (.scalar named)⟩
  | element declares named => exact ⟨_, mem_mentions_of_declares declares (.element named)⟩
  | cast has named => exact ⟨_, mem_mentions_of_has has (.cast named)⟩
  | size has named => exact ⟨_, mem_mentions_of_has has (.size named)⟩
  | node has => exact ⟨_, mem_mentions_of_has has .node⟩

/-! The checks, one by one -/

theorem forM_eq_ok {α ε : Type} {f : α → Except ε Unit} {xs : List α} :
    xs.forM f = .ok () ↔ ∀ x ∈ xs, f x = .ok () := by
  refine ⟨mem_of_forM, fun h => ?_⟩
  induction xs with
  | nil => rfl
  | cons x xs ih =>
    have rest := ih fun y hy => h y (List.mem_cons_of_mem _ hy)
    show f x >>= (fun _ => xs.forM f) = .ok ()
    rw [h x List.mem_cons_self]
    exact rest

theorem andThen_eq_ok {ε : Type} {x y : Except ε Unit} :
    (x >>= fun _ => y) = .ok () ↔ x = .ok () ∧ y = .ok () := by
  cases x with
  | error e => simp [bind, Except.bind]
  | ok u => simp [bind, Except.bind]

/-- The definitions that follow others are fine when none of them takes a name again. -/
theorem checkDefinitions_eq_ok {structs functions : List String} :
    checkDefinitions structs functions p = .ok () ↔
      (∀ d ∈ p.structs, d.name ∉ structs) ∧ (p.structs.map (·.name)).Nodup ∧
      (∀ f ∈ p.functions, f.name ∉ functions ∧ f.name ∉ builtins) ∧
      (p.functions.map (·.name)).Nodup := by
  induction p generalizing structs functions with
  | nil => simp [checkDefinitions, Program.structs, Program.functions]
  | cons i rest ih =>
    cases i with
    | struct d =>
      have hs : Program.structs (.struct d :: rest) = d :: Program.structs rest := rfl
      have hf : Program.functions (.struct d :: rest) = Program.functions rest := rfl
      rw [checkDefinitions, hs, hf]
      split
      · simp_all
      · rw [ih]
        simp only [List.mem_cons, not_or, List.map_cons, List.nodup_cons, List.mem_map, not_exists,
          not_and]
        grind
    | function f =>
      have hs : Program.structs (.function f :: rest) = Program.structs rest := rfl
      have hf : Program.functions (.function f :: rest) = f :: Program.functions rest := rfl
      rw [checkDefinitions, hs, hf]
      split
      · simp_all
      · split
        · simp_all
        · rw [ih]
          simp only [List.mem_cons, not_or, List.map_cons, List.nodup_cons, List.mem_map, not_exists,
            not_and]
          grind
    | global d => exact ih

theorem checkMention_struct {n : String} {pos : Position} :
    p.checkMention (.struct n pos) = .ok () ↔ ∃ d ∈ p.structs, d.name = n := by
  simp only [checkMention]
  split
  · rename_i found
    simpa using found
  · rename_i missing
    simpa using missing

/-- A function is found by its name, as long as no two have the same. -/
theorem function?_eq_some (distinct : (p.functions.map (·.name)).Nodup) {f : Function} {name : String} :
    p.function? name = some f ↔ f ∈ p.functions ∧ f.name = name := by
  constructor
  · intro found
    exact ⟨List.mem_of_find?_eq_some found, eq_of_beq (List.find?_some found :)⟩
  · rintro ⟨hf, rfl⟩
    unfold function?
    cases found : p.functions.find? (·.name == f.name) with
    | none => exact absurd (beq_self_eq_true f.name) (List.find?_eq_none.mp found f hf)
    | some g =>
      have same : g.name = f.name := eq_of_beq (List.find?_some found :)
      rw [List.inj_on_of_nodup_map distinct (List.mem_of_find?_eq_some found) hf same]

theorem checkMain_eq_ok (distinct : (p.functions.map (·.name)).Nodup) :
    p.checkMain = .ok () ↔ ∃ f ∈ p.functions, f.name = "main" ∧ f.params = [] := by
  have answer : p.checkMain = .ok () ↔ ∃ f, p.function? "main" = some f ∧ f.params = [] := by
    unfold checkMain
    cases p.function? "main" with
    | none => simp
    | some f => cases h : f.params <;> simp [h]
  rw [answer]
  simp only [function?_eq_some distinct, and_assoc]

/-- A call is fine when a function answers it, or when it ends one node. -/
theorem checkMention_call (distinct : (p.functions.map (·.name)).Nodup)
    (own : ∀ f ∈ p.functions, f.name ∉ builtins) {name : String} {given : Nat} {pos : Position} :
    p.checkMention (.call name given pos) = .ok () ↔
      (∃ f ∈ p.functions, f.name = name ∧ f.params.length = given) ∨ name = "free" ∧ given = 1 := by
  have arity : p.checkMention (.call name given pos) = .ok () ↔ p.arity? name = some given := by
    simp only [checkMention]
    cases p.arity? name with
    | none => simp
    | some wanted => by_cases h : wanted = given <;> simp [h]
  rw [arity, arity?]
  by_cases free : name = "free"
  · have none : ∀ f ∈ p.functions, f.name ≠ name := by
      intro f hf same
      exact own f hf (by rw [same, free]; decide)
    rw [if_pos free]
    simp only [Option.some.injEq, free, true_and, eq_comm]
    refine ⟨.inr, fun h => h.resolve_left ?_⟩
    rintro ⟨f, hf, same, -⟩
    exact none f hf (by rw [← same, free])
  · rw [if_neg free, Option.map_eq_some_iff]
    simp only [function?_eq_some distinct, free, false_and, or_false, and_assoc]

end Program

/-- The check of references accepts a program just when its names fit together: structs and functions are
defined once, no function has the name of a built-in one, `main` is there and takes nothing, every struct
that is named anywhere is defined, and every call at any depth has its function and as many arguments as
that has parameters, or is a call of `free` with one. -/
theorem references_checked (p : Program) : p.checkReferences = .ok () ↔ p.WellReferenced := by
  have steps : p.checkReferences = .ok () ↔ p.checkDefinitions [] [] = .ok () ∧
      p.checkMain = .ok () ∧ ∀ x ∈ p.flatMap Item.mentions, p.checkMention x = .ok () := by
    rw [← Program.forM_eq_ok, ← Program.andThen_eq_ok, ← Program.andThen_eq_ok]
    rfl
  rw [steps, Program.checkDefinitions_eq_ok]
  constructor
  · rintro ⟨⟨-, structs, own, functions⟩, main, mentions⟩
    have own : ∀ f ∈ p.functions, f.name ∉ Program.builtins := fun f hf => (own f hf).2
    refine ⟨structs, functions, own, (Program.checkMain_eq_ok functions).mp main, fun n named => ?_,
      fun name args pos has => ?_⟩
    · obtain ⟨pos, mem⟩ := Program.mem_mentions_of_namesStruct named
      exact Program.checkMention_struct.mp (mentions _ mem)
    · exact (Program.checkMention_call functions own).mp
        (mentions _ (Program.mem_mentions_of_has has .call))
  · intro h
    refine ⟨⟨by simp, h.structs, fun f hf => ⟨by simp, h.own f hf⟩, h.functions⟩,
      (Program.checkMain_eq_ok h.functions).mpr h.main, fun x hx => ?_⟩
    rcases Program.of_mem_mentions hx with ⟨n, pos, rfl, named⟩ | ⟨name, args, pos, rfl, has⟩
    · exact Program.checkMention_struct.mpr (h.named n named)
    · exact (Program.checkMention_call h.functions h.own).mpr (h.called name args pos has)

end Stepwise
