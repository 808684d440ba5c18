import Stepwise.Proofs.Places

/-! Pointers to places. A pointer is a bare address, and what it points at is found in the table of
allocations when it is followed. So following the address of a slot leads back to the same slot, with the
same type, now and in every later state in which the slot still lives. The one exception is the first
field of a heap node, which has the address of the node: what is found there is the node as a whole. -/

namespace Stepwise

open Run

variable {α β : Type} {s : Setting} {m m' m₁ m₂ : Machine} {n : Nat} {ds : List Decl}

theorem liveAllocation_eq {a : Address} {al : Allocation} (h : m.env.memory.liveAt a = .ok al)
    (pos : Position) : liveAllocation a pos m = .ok al m := by
  have environment : Run.environment m = .ok m.env m := rfl
  unfold liveAllocation
  rw [bind_ok environment, h]
  rfl

namespace Place

/-- One slot, neither a whole array nor a whole struct. -/
def Single (p : Place) : Prop := p.arrayLen = none ∧ p.type.isStruct = false

instance (p : Place) : Decidable p.Single := inferInstanceAs (Decidable (_ ∧ _))

def AtNode (mem : Memory) (p : Place) : Prop :=
  ∃ al, mem.liveAt p.address = .ok al ∧ al.base = p.address ∧ al.struct? ≠ none

theorem atNode_iff_of_ok {mem : Memory} {p : Place} {al : Allocation}
    (h : mem.liveAt p.address = .ok al) : p.AtNode mem ↔ al.base = p.address ∧ al.struct? ≠ none := by
  unfold AtNode
  simp [h]

theorem not_atNode_of_error {mem : Memory} {p : Place} {f : Memory.Fault}
    (h : mem.liveAt p.address = .error f) : ¬ p.AtNode mem := by
  unfold AtNode
  simp [h]

instance (mem : Memory) (p : Place) : Decidable (p.AtNode mem) :=
  match h : mem.liveAt p.address with
  | .ok _ => decidable_of_iff _ (atNode_iff_of_ok h).symm
  | .error _ => .isFalse (not_atNode_of_error h)

def pointed (a : Address) (al : Allocation) : Place :=
  slot a (if al.base = a ∧ al.struct? ≠ none then al.type else al.slotType a)

theorem behind_eq {a : Address} {al : Allocation} (h : m.env.memory.liveAt a = .ok al)
    (pos : Position) : behind (.address a) pos m = .ok (pointed a al) m := by
  have target : requirePointer (.address a) pos m = .ok a m := rfl
  unfold behind
  rw [bind_ok target, bind_ok (liveAllocation_eq h pos)]
  unfold pointed Allocation.struct?
  cases al.kind with
  | node struct fields => by_cases start : al.base = a <;> simp [start] <;> rfl
  | _ =>
    simp only [ne_eq, not_true_eq_false, and_false, if_false]
    rfl

theorem pointed_eq {p : Place} {mem : Memory} {al : Allocation} (one : p.Single)
    (live : mem.liveAt p.address = .ok al) (type : p.type = al.slotType p.address)
    (apart : ¬ p.AtNode mem) : pointed p.address al = p := by
  unfold pointed
  rw [if_neg fun start => apart ⟨al, live, start⟩, ← type]
  obtain ⟨address, type, arrayLen⟩ := p
  obtain rfl : arrayLen = none := one.1
  rfl

end Place

/-- What is known of an allocation that lived at an address, when something lives there later. -/
theorem Reached.liveAt_later (hm : Reached s m) (path : Path s m ds m') (hb : m'.env.memory.InBounds)
    {a : Address} {al al' : Allocation} (before : m.env.memory.liveAt a = .ok al)
    (after : m'.env.memory.liveAt a = .ok al') : al' = al := by
  have layout := hm.layout (path.inBounds hb)
  have layout' := (hm.path path).layout hb
  obtain ⟨found, inside, live⟩ := layout.of_liveAt before
  obtain ⟨found', inside', live'⟩ := layout'.of_liveAt after
  obtain ⟨stays, again, -⟩ := (hm.evolves path hb).persists found
  -- no other allocation holds the address, and this one can only have ended
  have base : al'.base = al.base := layout'.unique found' again inside' inside
  rw [base, again] at found'
  obtain rfl := Option.some.inj found'
  obtain rfl : stays = true := live'
  rw [← live]

/-! Pieces that end the same way -/

/-- Two pieces with the same value, or with reasons to halt that are related, and in any case the same
state. -/
def Run.Paired (R : Halt → Halt → Prop) (x y : Run α) (m : Machine) : Prop :=
  Ensures x m (fun a m' => y m = .ok a m') (fun h m' => ∃ h', y m = .error h' m' ∧ R h h')

namespace Run.Paired

variable {R : Halt → Halt → Prop} {x y : Run α} {f g : α → Run β}

theorem of_eq (refl : ∀ h, R h h) (h : y m = x m) : Paired R x y m := by
  cases hx : x m with
  | ok a m' => exact (ensures_iff_of_ok hx).mpr (h.trans hx)
  | error e m' => exact (ensures_iff_of_error hx).mpr ⟨e, h.trans hx, refl e⟩

theorem bind (hx : Paired R x y m) (hf : ∀ a m', x m = .ok a m' → Paired R (f a) (g a) m') :
    Paired R (x >>= f) (y >>= g) m := by
  cases h : x m with
  | ok a m' =>
    unfold Paired Ensures
    rw [bind_ok h, bind_ok (hx.ok h)]
    exact hf a m' h
  | error e m' =>
    obtain ⟨e', hy, related⟩ := hx.error h
    exact (ensures_iff_of_error (bind_error h)).mpr ⟨e', bind_error hy, related⟩

end Run.Paired

/-! Pieces that differ in what they name only -/

/-- Two halts that differ at most in the expression that was read too early. -/
def Halt.Alike (h h' : Halt) : Prop :=
  h' = h ∨ ∃ text text' pos pos',
    h = .fault ⟨.uninitialized text, pos⟩ ∧ h' = .fault ⟨.uninitialized text', pos'⟩

def Run.Alike (x y : Run α) (m : Machine) : Prop :=
  Ensures x m (fun a m' => y m = .ok a m') (fun h m' => ∃ h', y m = .error h' m' ∧ h.Alike h')

namespace Run.Alike

variable {x y : Run α} {f g : α → Run β}

theorem of_eq (h : y m = x m) : Alike x y m := Paired.of_eq (fun _ => .inl rfl) h

theorem bind (hx : Alike x y m) (hf : ∀ a m', x m = .ok a m' → Alike (f a) (g a) m') :
    Alike (x >>= f) (y >>= g) m := Paired.bind hx hf

end Run.Alike

namespace Place

variable {p : Place} {al : Allocation} (live : m.env.memory.liveAt p.address = .ok al)

include live

/-- Where something lives, only a slot without a value is read in vain. -/
theorem read_alike (e e' : Expr) : Alike (p.read e) (p.read e') m := by
  unfold read
  split
  · exact .of_eq rfl
  · refine .bind (.of_eq rfl) fun env m' found => ?_
    cases found
    have read : m.env.memory.read p.address = .ok (m.env.memory.slots.getD p.address .undefined) := by
      rw [Memory.read, live]
    rw [read]
    dsimp only
    split
    · exact .of_eq rfl
    · exact ⟨_, rfl, .inr ⟨_, _, _, _, rfl, rfl⟩⟩

theorem readScalar_alike (one : p.Single) (e e' : Expr) :
    Alike (p.readScalar e) (p.readScalar e') m := by
  have scalar : ¬ (p.arrayLen.isNone ∧ p.type.isStruct) := by simp [one.2]
  unfold readScalar
  rw [if_neg scalar, if_neg scalar]
  exact read_alike live e e'

/-- Reading, applying an operator and going on with the result. -/
theorem update_alike (e e' : Expr) (op : Arith) (v : Value) (pos : Position) (g : Value → Value → Run β) :
    Alike (do let old ← p.read e; let new ← ofCause pos (op.eval old v); g old new)
      (do let old ← p.read e'; let new ← ofCause pos (op.eval old v); g old new) m :=
  (read_alike live e e').bind fun _ _ _ => .of_eq rfl

end Place

/-! Following the address of a place -/

/-- Whatever an address was taken of, following it at once is a matter of what lives there. -/
theorem evalPlace_deref_addressOf (call : CallHandler) (e : Expr) (q r : Position) :
    evalPlace s call (.deref (.addressOf e q) r) =
      evalPlace s call e >>= fun p => Place.behind (.address p.address) r := by
  simp only [evalPlace, evalExpr, bind_assoc, pure_bind]

section

variable (hs : s.Sensible) (hm : Reached s m) {e : Expr} {p : Place} (q r : Position)

include hs hm

/-- A single slot is what lives there, unless a node has its address. -/
theorem evalPlace_pointed (h : evalPlace s (s.handlerWithin n) e m = .ok p m')
    (hb : m'.env.memory.InBounds) (one : p.Single) :
    ∃ al, m'.env.memory.liveAt p.address = .ok al ∧ p.type = al.slotType p.address := by
  obtain live | ⟨-, al, hal, start, type, struct, fields, hk⟩ := evalPlace_live hs hm h
  · exact live hb
  · -- a whole node is no single slot
    have layout := (hm.path (evalPlace_onward hs hm h).later).layout hb
    have named := ((layout.formed (layout.of_liveAt hal).1).node hk).2.1
    have struct := one.2
    rw [type, named] at struct
    exact nomatch struct

theorem deref_addressOf_ok (h : evalPlace s (s.handlerWithin n) e m = .ok p m')
    (hb : m'.env.memory.InBounds) (one : p.Single) (apart : ¬ p.AtNode m'.env.memory) :
    evalPlace s (s.handlerWithin n) (.deref (.addressOf e q) r) m = .ok p m' := by
  obtain ⟨al, live, type⟩ := evalPlace_pointed hs hm h hb one
  rw [evalPlace_deref_addressOf, bind_ok h, Place.behind_eq live, Place.pointed_eq one live type apart]

theorem deref_addressOf_node (h : evalPlace s (s.handlerWithin n) e m = .ok p m')
    (hb : m'.env.memory.InBounds) (node : p.AtNode m'.env.memory) : ∃ struct,
      evalPlace s (s.handlerWithin n) (.deref (.addressOf e q) r) m =
        .ok (.slot p.address ⟨.struct struct, 0⟩) m' := by
  obtain ⟨al, live, start, isNode⟩ := node
  have layout := (hm.path (evalPlace_onward hs hm h).later).layout hb
  obtain ⟨found, -, -⟩ := layout.of_liveAt live
  have formed := layout.formed found
  rw [evalPlace_deref_addressOf, bind_ok h, Place.behind_eq live, Place.pointed, if_pos ⟨start, isNode⟩]
  cases hk : al.kind with
  | node struct fields => exact ⟨struct, by rw [(formed.node hk).2.1]⟩
  | _ =>
    unfold Allocation.struct? at isNode
    rw [hk] at isNode
    exact (isNode rfl).elim

end

/-- The expression names a single slot whose address no node has, before addresses have run out. -/
structure NamesSlot (s : Setting) (call : CallHandler) (e : Expr) (m : Machine) (p : Place)
    (m' : Machine) : Prop where
  named : evalPlace s call e m = .ok p m'
  bounds : m'.env.memory.InBounds
  single : p.Single
  apart : ¬ p.AtNode m'.env.memory

theorem NamesSlot.isPlace {call : CallHandler} {e : Expr} {p : Place} (h : NamesSlot s call e m p m') :
    e.isPlace := by
  have named := h.named
  cases e with
  | var | index | deref | field => rfl
  | _ => cases named

section

variable (hs : s.Sensible) (hm : Reached s m) {e : Expr} {p : Place} (q r : Position)

include hs hm

/-- A piece that finds a place and goes on with it does the same with the place behind its address. -/
theorem NamesSlot.alike (h : NamesSlot s (s.handlerWithin n) e m p m') {use use' : Place → Run α}
    (hu : ∀ al, m'.env.memory.liveAt p.address = .ok al → Alike (use p) (use' p) m') :
    Alike (evalPlace s (s.handlerWithin n) e >>= use)
      (evalPlace s (s.handlerWithin n) (.deref (.addressOf e q) r) >>= use') m := by
  have found := deref_addressOf_ok hs hm q r h.named h.bounds h.single h.apart
  refine Alike.bind (.of_eq (found.trans h.named.symm)) fun p' m'' again => ?_
  obtain ⟨rfl, rfl⟩ := EStateM.Result.ok.inj (h.named.symm.trans again)
  obtain ⟨al, live, -⟩ := evalPlace_pointed hs hm h.named h.bounds h.single
  exact hu al live

/-- The address of a slot leads back to it for as long as the slot lives. -/
theorem NamesSlot.pointer (h : NamesSlot s (s.handlerWithin n) e m p m') (later : Path s m' ds m₁)
    {k : Nat} {x : Expr} (hx : evalExpr s (s.handlerWithin k) x m₁ = .ok (.address p.address) m₂)
    (hb : m₂.env.memory.InBounds) {al : Allocation} (live : m₂.env.memory.liveAt p.address = .ok al) :
    evalPlace s (s.handlerWithin k) (.deref x r) m₁ = .ok p m₂ := by
  have hm' := hm.path (evalPlace_onward hs hm h.named).later
  have path := later.trans (evalExpr_onward hs (hm'.path later) hx).later
  obtain ⟨al', live', type⟩ := evalPlace_pointed hs hm h.named h.bounds h.single
  obtain rfl := hm'.liveAt_later path hb live' live
  rw [evalPlace, bind_ok hx, Place.behind_eq live, Place.pointed_eq h.single live' type h.apart]

end

structure AddressesLeadBack (s : Setting) (call : CallHandler) (m : Machine) : Prop where
  place : ∀ e p m' q r, NamesSlot s call e m p m' →
    evalPlace s call (.deref (.addressOf e q) r) m = .ok p m'
  /-- What names no place has no address either. -/
  halted : ∀ e h m' q r, evalPlace s call e m = .error h m' →
    evalPlace s call (.deref (.addressOf e q) r) m = .error h m'
  value : ∀ e p m' q r, NamesSlot s call e m p m' →
    Alike (evalExpr s call e) (evalExpr s call (.deref (.addressOf e q) r)) m
  step : ∀ op e p m' q r pos, NamesSlot s call e m p m' →
    Alike (evalExpr s call (.step op e pos)) (evalExpr s call (.step op (.deref (.addressOf e q) r) pos)) m
  /-- Of an assignment the value is found first, and then the place. -/
  assign : ∀ e p v m₁ m' op value q r pos, evalOperand s call value m = .ok v m₁ →
    NamesSlot s call e m₁ p m' →
    Alike (assign s call e op value pos) (assign s call (.deref (.addressOf e q) r) op value pos) m
  /-- A pointer that was taken here points at the same slot in any later state, in whatever function. -/
  pointer : ∀ e p m' q, NamesSlot s call e m p m' →
    evalExpr s call (.addressOf e q) m = .ok (.address p.address) m' ∧
    ∀ ds m₁ m₂ k x al r, Path s m' ds m₁ →
      evalExpr s (s.handlerWithin k) x m₁ = .ok (.address p.address) m₂ → m₂.env.memory.InBounds →
      m₂.env.memory.liveAt p.address = .ok al →
      evalPlace s (s.handlerWithin k) (.deref x r) m₁ = .ok p m₂
  /-- Behind the address of the first field of a node stands the node, which is no value and takes none. -/
  node : ∀ e p m' q r, evalPlace s call e m = .ok p m' → m'.env.memory.InBounds →
    p.AtNode m'.env.memory → ∃ t : CType, t.isStruct ∧
      evalPlace s call (.deref (.addressOf e q) r) m = .ok (.slot p.address t) m' ∧
      evalExpr s call (.deref (.addressOf e q) r) m =
        .error (.fault ⟨.typeMismatch "scalar value" t.text, r⟩) m' ∧
      ∀ v pos, v.isDefined → (Place.slot p.address t).write v pos m' =
        .error (.fault ⟨.typeMismatch t.text v.shape, pos⟩) m'

theorem Reached.addressesLeadBack (hs : s.Sensible) (hm : Reached s m) (n : Nat) :
    AddressesLeadBack s (s.handlerWithin n) m where
  place e p m' q r h := deref_addressOf_ok hs hm q r h.named h.bounds h.single h.apart
  halted e h m' q r named := by rw [evalPlace_deref_addressOf, bind_error named]
  value e p m' q r h := by
    rw [evalExpr_of_isPlace s _ h.isPlace, evalExpr_of_isPlace s _ (e := .deref _ r) rfl]
    exact h.alike hs hm q r fun al live => Place.readScalar_alike live h.single e _
  step op e p m' q r pos h :=
    h.alike hs hm q r fun al live => (Place.update_alike live e _ op.arith (.int 1) pos _).bind
      fun _ _ _ => .of_eq rfl
  assign e p v m₁ m' op value q r pos right h := by
    have hm₁ := hm.path ((evalOperand_balanced (calls_handlerWithin hs n) value m hm).ok right).1
    refine Alike.bind (.of_eq rfl) fun v' m₁' again => ?_
    obtain ⟨rfl, rfl⟩ := EStateM.Result.ok.inj (right.symm.trans again)
    refine h.alike hs hm₁ q r fun al live => ?_
    cases op with
    | none => exact .of_eq rfl
    | some op => exact Place.update_alike live e _ op v pos _
  pointer e p m' q h := by
    refine ⟨?_, fun ds m₁ m₂ k x al r path hx hb live => h.pointer hs hm r path hx hb live⟩
    rw [evalExpr, bind_ok h.named]
    rfl
  node e p m' q r named hb node := by
    obtain ⟨struct, found⟩ := deref_addressOf_node hs hm q r named hb node
    refine ⟨⟨.struct struct, 0⟩, rfl, found, ?_, fun v pos defined => ?_⟩
    · rw [evalExpr_of_isPlace s _ (e := .deref _ r) rfl, bind_ok found]
      rfl
    · have none : convertTo ⟨.struct struct, 0⟩ v pos m' =
          .error (.fault ⟨.typeMismatch (CType.mk (.struct struct) 0).text v.shape, pos⟩) m' := by
        rw [convertTo, Value.convert_struct defined rfl]
        rfl
      exact bind_error none

/-- Addresses lead back to where they were taken. In every state that a run of an accepted program can be
in, an expression that names a single slot and the place behind its address are the same place, found with
the same effects: so they are worth the same, and storing to the one is storing to the other. A pointer that
is kept points at the slot as long as it lives. Only the first field of a heap node is not found again, as
the node as a whole stands in front of it. -/
theorem addresses_lead_back {source : String} {p : Program} (accepted : Program.parse source = .ok p)
    (limits : Limits) (cancelled : Bool) :
    let s := Setting.ofProgram p source limits cancelled
    ∀ m n, Reached s m → AddressesLeadBack s (s.handlerWithin n) m := by
  intro s m n hm
  exact hm.addressesLeadBack (p.sensible_functions accepted limits cancelled) n

/-- The second field of a node, and an element whose number a function finds that counts its calls. -/
theorem addresses_lead_back_counted :
    let source := "struct N \x7b int v; char w; \x7d; struct N *g = malloc(sizeof(struct N)); int a[3]; " ++
      "int i; int next() \x7b i = i + 1; return i; \x7d int main() \x7b return 0; \x7d"
    let pos : Position := ⟨1, 1⟩
    ∃ p, Program.parse source = .ok p ∧
      let s := Setting.ofProgram p source ⟨100, 9, 99999⟩ false
      let call := s.handlerWithin 3
      ∃ m, Reached s m ∧
        ∀ e ∈ [.field (.var "g" pos) "w" true pos, .index (.var "a" pos) (.call "next" [] pos) pos],
          ∃ place m', NamesSlot s call e m place m' ∧
            evalPlace s call (.deref (.addressOf e pos) pos) m = .ok place m' ∧
            Alike (evalExpr s call e) (evalExpr s call (.deref (.addressOf e pos) pos)) m := by
  intro source pos
  let es : List Expr := [.field (.var "g" pos) "w" true pos, .index (.var "a" pos) (.call "next" [] pos) pos]
  have facts : (Program.parse source).toOption.any (fun p =>
      let s := Setting.ofProgram p source ⟨100, 9, 99999⟩ false
      Ensures (runGlobals s p.globals) (.start "") (fun _ m => ∀ e ∈ es,
        Ensures (evalPlace s (s.handlerWithin 3) e) m (fun place m' => m'.env.memory.InBounds ∧
          place.Single ∧ ¬ place.AtNode m'.env.memory) (fun _ _ => False)) (fun _ _ => False)) = true := by
    decide +kernel
  obtain ⟨p, accepted, facts⟩ := Program.exists_of_any facts
  obtain ⟨⟨⟩, m, globals, named⟩ := (of_decide_eq_true facts).exists_ok
  have reached : Reached (Setting.ofProgram p source ⟨100, 9, 99999⟩ false) m :=
    (Reached.start "").path ((runGlobals_follows (p.sensible_functions accepted ⟨100, 9, 99999⟩ false)
      (p.sensible_globals accepted) rfl (.start "")).ok globals).1
  have faithful := addresses_lead_back accepted ⟨100, 9, 99999⟩ false m 3 reached
  refine ⟨p, accepted, m, reached, fun e he => ?_⟩
  obtain ⟨place, m', found, bounds, single, apart⟩ := (named e he).exists_ok
  have slot : NamesSlot _ _ e m place m' := ⟨found, bounds, single, apart⟩
  exact ⟨place, m', slot, faithful.place _ _ _ pos pos slot, faithful.value _ _ _ pos pos slot⟩

/-- The first field of a node is a single slot that its address does not lead back to; so a program that
returns it by way of its address halts, and one that does so directly comes to its end. -/
theorem first_field_lost :
    let head := "struct N \x7b int v; int w; \x7d; struct N *g = malloc(sizeof(struct N)); "
    let source := head ++ "int main() \x7b g->v = 5; return *&g->v; \x7d"
    let direct := head ++ "int main() \x7b g->v = 5; return g->v; \x7d"
    let pos : Position := ⟨1, 1⟩
    let e : Expr := .field (.var "g" pos) "v" true pos
    (∃ p, Program.parse source = .ok p ∧
      let s := Setting.ofProgram p source ⟨100, 9, 99999⟩ false
      let call := s.handlerWithin 3
      ∃ m, Reached s m ∧ ∃ place m', evalPlace s call e m = .ok place m' ∧ m'.env.memory.InBounds ∧
        place.Single ∧ evalPlace s call (.deref (.addressOf e pos) pos) m ≠ .ok place m') ∧
    (traceSource source "" ⟨100, 9, 99999⟩ false).status = .runtimeError .typeMismatch
      "type mismatch at line 1, column 99: expected scalar value, found struct N" 3 (some 1) (some 99) ∧
    (traceSource direct "" ⟨100, 9, 99999⟩ false).status = .completed := by
  intro head source direct pos e
  have facts : (Program.parse source).toOption.any (fun p =>
      let s := Setting.ofProgram p source ⟨100, 9, 99999⟩ false
      Ensures (runGlobals s p.globals) (.start "") (fun _ m =>
        Ensures (evalPlace s (s.handlerWithin 3) e) m (fun place m' => m'.env.memory.InBounds ∧
          place.Single ∧ place.AtNode m'.env.memory) (fun _ _ => False)) (fun _ _ => False)) = true := by
    decide +kernel
  obtain ⟨p, accepted, facts⟩ := Program.exists_of_any facts
  obtain ⟨⟨⟩, m, globals, named⟩ := (of_decide_eq_true facts).exists_ok
  obtain ⟨place, m', found, bounds, single, node⟩ := named.exists_ok
  have sensible := p.sensible_functions accepted ⟨100, 9, 99999⟩ false
  have reached : Reached (Setting.ofProgram p source ⟨100, 9, 99999⟩ false) m :=
    (Reached.start "").path ((runGlobals_follows sensible (p.sensible_globals accepted) rfl
      (.start "")).ok globals).1
  refine ⟨⟨p, accepted, m, reached, place, m', found, bounds, single, fun same => ?_⟩,
    by decide +kernel, by decide +kernel⟩
  obtain ⟨struct, whole⟩ := deref_addressOf_node sensible reached pos pos found bounds node
  obtain ⟨eq, -⟩ := EStateM.Result.ok.inj (whole.symm.trans same)
  rw [← eq] at single
  have whole : (CType.mk (.struct struct) 0).isStruct = true := rfl
  exact Bool.false_ne_true (single.2.symm.trans whole)

end Stepwise
