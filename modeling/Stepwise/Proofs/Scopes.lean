import Stepwise.Proofs.Pictures

/-! Frames against blocks written out. The plain way to keep names is a list of open blocks, each with its own
declarations, that is searched from the innermost outwards. A frame keeps one map for all its blocks instead,
and a block has a log of what closing it has to put back. However blocks are opened, declared in and closed,
both ways give the same answers. -/

namespace Stepwise

/-- Open blocks, the innermost first, each with its declarations from first to last. -/
abbrev Scopes := List (List (String × Address))

inductive BlockOp where
  | openBlock
  | closeBlock
  | declare (name : String) (a : Address)
  | unwind

def Frame.perform (f : Frame) : BlockOp → List Address × Frame
  | .openBlock => ([], f.openBlock)
  | .closeBlock => f.closeBlock
  | .declare name a => ([], f.declare name a)
  | .unwind => f.unwind

namespace Scopes

/-- The address of a name: the last that the innermost block gives it of those that declare it. -/
def find? : Scopes → Names
  | [], _ => none
  | block :: outer, name => (block.reverse.lookup name).or (find? outer name)

def addresses (s : Scopes) : List Address := s.flatMap fun block => block.map (·.2)

/-- The same operations on blocks written out. Where no block is open, there is nothing to close and nowhere
to declare. -/
def perform : Scopes → BlockOp → List Address × Scopes
  | s, .openBlock => ([], [] :: s)
  | [], .closeBlock => ([], [])
  | block :: outer, .closeBlock => (block.map (·.2), outer)
  | [], .declare .. => ([], [])
  | block :: outer, .declare name a => ([], (block ++ [(name, a)]) :: outer)
  | s, .unwind => (addresses s, [])

end Scopes

def performAll {α : Type} (perform : α → BlockOp → List Address × α) (s : α) :
    List BlockOp → List (List Address) × α
  | [] => ([], s)
  | op :: ops =>
    let later := performAll perform (perform s op).2 ops
    ((perform s op).1 :: later.1, later.2)

theorem performAll_append {α : Type} (perform : α → BlockOp → List Address × α) (s : α)
    (ops more : List BlockOp) :
    (performAll perform s (ops ++ more)).2 = (performAll perform (performAll perform s ops).2 more).2 := by
  induction ops generalizing s with
  | nil => rfl
  | cons op ops ih => exact ih _

/-- What is done inside one open block, with the addresses that are declared in it and not further in: the
blocks that are opened are closed again. -/
inductive InBlock : List BlockOp → List Address → Prop where
  | nil : InBlock [] []
  | declare {name : String} {a : Address} {ops : List BlockOp} {as : List Address}
      (rest : InBlock ops as) : InBlock (.declare name a :: ops) (a :: as)
  | block {inner ops : List BlockOp} {further as : List Address} (inside : InBlock inner further)
      (rest : InBlock ops as) : InBlock (.openBlock :: (inner ++ .closeBlock :: ops)) as

/-! Maps that answer alike are the same -/

theorem KeyMap.ext_find? {κ α : Type} [Ord κ] [Std.TransOrd κ] [Std.LawfulEqOrd κ] {m m' : KeyMap κ α}
    (h : m.find? = m'.find?) : m = m' := by
  have distinct (m : KeyMap κ α) : m.entries.Nodup := List.Nodup.of_map _ m.nodup_keys
  apply KeyMap.ext
  refine List.Perm.eq_of_pairwise ?_ m.ascending m'.ascending ?_
  · intro a b _ _ lt gt
    rw [Std.OrientedCmp.gt_of_lt gt] at lt
    cases lt
  · rw [List.perm_ext_iff_of_nodup (distinct m) (distinct m')]
    intro e
    rw [← find?_eq_some_iff, h, find?_eq_some_iff]

/-! The log of a frame against its blocks written out -/

theorem Scopes.find?_declare (block : List (String × Address)) (outer : Scopes) (name : String)
    (a : Address) : find? ((block ++ [(name, a)]) :: outer) =
      (find? (block :: outer)).bind name (some a) := by
  funext n
  unfold Names.bind
  simp only [find?, List.reverse_append, List.reverse_singleton, List.singleton_append, List.lookup_cons]
  by_cases h : name = n
  · simp [h]
  · have other : (n == name) = false := beq_false_of_ne (Ne.symm h)
    simp [h, other]

/-- Blocks with logs stand for blocks written out: names mean the same, the same addresses were declared, and
so on for the blocks that are left when the innermost is closed. -/
inductive Logs : Names → List Block → Scopes → Prop where
  | outside {look : Names} (seen : look = Scopes.find? []) : Logs look [] []
  | block {look : Names} {b : Block} {blocks : List Block} {declared : List (String × Address)}
      {s : Scopes} (outer : Logs (b.undo look) blocks s) (allocations : b.allocations = declared.map (·.2))
      (seen : look = Scopes.find? (declared :: s)) : Logs look (b :: blocks) (declared :: s)

namespace Logs

variable {look : Names} {blocks : List Block} {s : Scopes}

theorem look_eq (h : Logs look blocks s) : look = Scopes.find? s := by
  cases h with
  | outside seen => exact seen
  | block outer allocations seen => exact seen

theorem openBlock (h : Logs look blocks s) : Logs look (.empty :: blocks) ([] :: s) :=
  .block h rfl h.look_eq

theorem declare {b : Block} {declared : List (String × Address)}
    (h : Logs look (b :: blocks) (declared :: s)) (name : String) (a : Address) :
    Logs (look.bind name (some a)) (Frame.declareIn b name a (look name) :: blocks)
      ((declared ++ [(name, a)]) :: s) := by
  cases h with
  | block outer allocations seen =>
    refine .block ?_ ?_ ?_
    · rw [Block.undo_declareIn]
      exact outer
    · rw [Scoped.allocations_declareIn, allocations, List.map_append]
      rfl
    · rw [Scopes.find?_declare, seen]

/-- Closing all blocks gives back everything and leaves no names. -/
theorem closeBlocks {m : Bindings} (h : Logs m.find? blocks s) :
    (Frame.closeBlocks m blocks).1 = s.addresses ∧
      (Frame.closeBlocks m blocks).2.find? = Scopes.find? [] := by
  induction blocks generalizing m s with
  | nil =>
    cases h with
    | outside seen => exact ⟨rfl, seen⟩
  | cons b blocks ih =>
    cases h with
    | block outer allocations seen =>
      rw [← find?_restore] at outer
      obtain ⟨given, none⟩ := ih outer
      refine ⟨?_, none⟩
      show b.allocations ++ (Frame.closeBlocks (Frame.restore b m) blocks).1 = _
      rw [given, allocations]
      rfl

end Logs

def Frame.Refines (f : Frame) (s : Scopes) : Prop := Logs f.bindings.find? f.blocks s

theorem Frame.Refines.enter (call : Call) : (Frame.enter call).Refines [[]] :=
  .block (.outside rfl) rfl rfl

/-- What one operation does: both ways give the same addresses back, and still answer alike. -/
theorem Frame.Refines.perform {f : Frame} {s : Scopes} (h : f.Refines s) (op : BlockOp) :
    (f.perform op).1 = (s.perform op).1 ∧ (f.perform op).2.Refines (s.perform op).2 := by
  obtain ⟨call, bindings, blocks⟩ := f
  cases op with
  | openBlock => exact ⟨rfl, Logs.openBlock h⟩
  | closeBlock =>
    cases h with
    | outside seen => exact ⟨rfl, .outside seen⟩
    | @block _ b blocks declared s outer allocations seen =>
      refine ⟨allocations, ?_⟩
      show Logs (restore b bindings).find? blocks s
      rw [find?_restore]
      exact outer
  | declare name a =>
    cases h with
    | outside seen => exact ⟨rfl, .outside seen⟩
    | block outer allocations seen =>
      refine ⟨rfl, ?_⟩
      show Logs (bindings.insert name a).find? _ _
      rw [find?_insert_name]
      exact Logs.declare (.block outer allocations seen) name a
  | unwind =>
    obtain ⟨given, none⟩ := Logs.closeBlocks h
    exact ⟨given, .outside none⟩

/-- However many operations follow each other. -/
theorem Frame.Refines.performAll {f : Frame} {s : Scopes} (h : f.Refines s) (ops : List BlockOp) :
    (performAll Frame.perform f ops).1 = (performAll Scopes.perform s ops).1 ∧
      (performAll Frame.perform f ops).2.Refines (performAll Scopes.perform s ops).2 := by
  induction ops generalizing f s with
  | nil => exact ⟨rfl, h⟩
  | cons op ops ih =>
    obtain ⟨given, later⟩ := h.perform op
    obtain ⟨more, last⟩ := ih later
    exact ⟨congrArg₂ List.cons given more, last⟩

/-! One block from its opening to its closing -/

/-- What is done inside a block changes what closing it gives back, and not what it puts back. -/
theorem InBlock.performAll {ops : List BlockOp} {as : List Address} (h : InBlock ops as) (call : Call)
    (bindings : Bindings) (b : Block) (blocks : List Block) : ∃ bindings' b',
      (performAll Frame.perform ⟨call, bindings, b :: blocks⟩ ops).2 = ⟨call, bindings', b' :: blocks⟩ ∧
        Frame.restore b' bindings' = Frame.restore b bindings ∧
        b'.allocations = b.allocations ++ as := by
  induction h generalizing bindings b blocks with
  | nil => exact ⟨bindings, b, rfl, rfl, (List.append_nil _).symm⟩
  | @declare name a ops as rest ih =>
    obtain ⟨bindings', b', same, restored, allocations⟩ :=
      ih (bindings.insert name a) (Frame.declareIn b name a (bindings.find? name)) blocks
    refine ⟨bindings', b', same, restored.trans (KeyMap.ext_find? ?_), ?_⟩
    · rw [find?_restore, find?_restore, find?_insert_name, Block.undo_declareIn]
    · rw [allocations, Scoped.allocations_declareIn, List.append_assoc]
      rfl
  | @block inner ops further as inside rest ihInside ihRest =>
    obtain ⟨bindings₁, b₁, same, restored, -⟩ := ihInside bindings .empty (b :: blocks)
    obtain ⟨bindings', b', last, restored', allocations⟩ := ihRest bindings b blocks
    refine ⟨bindings', b', ?_, restored', allocations⟩
    rw [← last]
    show (Stepwise.performAll Frame.perform ⟨call, bindings, .empty :: b :: blocks⟩
      (inner ++ .closeBlock :: ops)).2 = _
    rw [performAll_append, same]
    -- closing the inner block puts back the frame as it was before
    show (Stepwise.performAll Frame.perform ⟨call, Frame.restore b₁ bindings₁, b :: blocks⟩ ops).2 = _
    rw [restored]
    rfl

theorem Frame.closeBlock_openBlock {inner : List BlockOp} {as : List Address} (h : InBlock inner as)
    (f : Frame) : (performAll Frame.perform f.openBlock inner).2.closeBlock = (as, f) := by
  obtain ⟨bindings, b, same, restored, allocations⟩ :=
    h.performAll f.call f.bindings .empty f.blocks
  show closeBlock (Stepwise.performAll Frame.perform ⟨f.call, f.bindings, .empty :: f.blocks⟩ inner).2 = _
  rw [same]
  show (b.allocations, (⟨f.call, restore b bindings, f.blocks⟩ : Frame)) = _
  rw [restored, allocations]
  rfl

/-! The two ways side by side -/

/-- A frame and blocks written out that give the same answers: to the question for one name, and to that for
all names. -/
structure Frame.Answers (f : Frame) (s : Scopes) : Prop where
  find : ∀ name, f.find? name = s.find? name
  locals : ∀ name a, (name, a) ∈ f.bindings.entries ↔ s.find? name = some a
  once : (f.bindings.entries.map (·.1)).Nodup

theorem Frame.Refines.answers {f : Frame} {s : Scopes} (h : f.Refines s) : f.Answers s where
  find := congrFun h.look_eq
  locals name a := by rw [← KeyMap.find?_eq_some_iff, h.look_eq]
  once := f.bindings.nodup_keys

/-- Whatever is done to a frame, it answers like its blocks written out. A block that is opened and closed
again gives back the addresses declared in it, first to last, and leaves the frame as it was before; to
unwind gives back the addresses of all open blocks and leaves no names. -/
theorem frames_refine_scopes (call : Call) (ops : List BlockOp) :
    let frame := performAll Frame.perform (.enter call) ops
    let scopes := performAll Scopes.perform [[]] ops
    frame.1 = scopes.1 ∧ frame.2.Answers scopes.2 ∧
      (∀ inner as, InBlock inner as →
        (performAll Frame.perform frame.2.openBlock inner).2.closeBlock = (as, frame.2)) ∧
      frame.2.unwind.1 = scopes.2.addresses ∧ frame.2.unwind.2.bindings.entries = [] ∧
      frame.2.unwind.2.blocks = [] := by
  intro frame scopes
  obtain ⟨given, refines⟩ := (Frame.Refines.enter call).performAll ops
  obtain ⟨all, unwound⟩ := refines.perform .unwind
  have none : frame.2.unwind.2.bindings = .empty := KeyMap.ext_find? unwound.look_eq
  exact ⟨given, refines.answers, fun inner as h => Frame.closeBlock_openBlock h frame.2, all,
    congrArg KeyMap.entries none, rfl⟩

/-- A name that hides two others of its name and is declared twice itself, around a block that hides its
neighbour. -/
theorem frames_refine_scopes_redeclared :
    let ops : List BlockOp := [.declare "x" 4, .openBlock, .declare "x" 5]
    let inner : List BlockOp := [.declare "x" 6, .declare "y" 7, .openBlock, .declare "y" 8, .closeBlock,
      .declare "x" 9]
    let frame := (performAll Frame.perform (.enter ⟨"main", 0, 1⟩) ops).2
    let last := (performAll Frame.perform frame.openBlock inner).2
    InBlock inner [6, 7, 9] ∧ last.find? "x" = some 9 ∧ last.closeBlock = ([6, 7, 9], frame) := by
  intro ops inner frame last
  have inside : InBlock inner [6, 7, 9] :=
    .declare (.declare (@InBlock.block [.declare "y" 8] _ _ _ (.declare .nil) (.declare .nil)))
  exact ⟨inside, by decide, (frames_refine_scopes ⟨"main", 0, 1⟩ ops).2.2.1 inner _ inside⟩

end Stepwise
