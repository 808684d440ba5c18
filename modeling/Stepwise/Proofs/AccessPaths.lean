import Stepwise.Proofs.Pointers

/-! Two ways to a place. An element is found by its number, or by moving a pointer that far and following
it; a field is found through a pointer to its node, or in the node that the pointer leads to. Where the
first way leads, the second does. -/

namespace Stepwise

open Run

variable {α β : Type} {s : Setting} {call : CallHandler} {m m' m₁ : Machine} {n : Nat}

/-! Elements -/

/-- To move on by a number that is not negative is to add it. -/
theorem offset_eq {a b : Address} {i : Int32} (nonneg : 0 ≤ i.toInt)
    (h : b.toNat = a.toNat + i.toInt.toNat) : offset a i.toInt64 = b := by
  have wide : (0 : Int64) ≤ i.toInt64 := by
    rw [Int64.le_iff_toInt_le, Int32.toInt_toInt64]
    exact nonneg
  have step : i.toInt64.toUInt64.toNat = i.toInt.toNat := by
    rw [Int64.toNat_toUInt64_of_le wide, ← Int64.toNat_toInt, Int32.toInt_toInt64]
  have bound := b.toNat_lt
  apply UInt64.toNat_inj.mp
  unfold offset
  rw [UInt64.toNat_add, step, h, Nat.mod_eq_of_lt (by omega)]

theorem Arith.add_address {a : Address} {v : Value} {i : Int32} (h : v.toInt? = some i) :
    Arith.add.eval (.address a) v = .ok (.address (offset a i.toInt64)) := by
  cases v with
  | int | char =>
    cases h
    rfl
  | _ => cases h

theorem requireDefined_eq {v : Value} (h : v.isDefined) (e : Expr) (m : Machine) :
    requireDefined v e m = .ok v m := by
  unfold requireDefined
  rw [if_pos h]
  rfl

theorem Place.inspects_start (v : Value) (pos : Position) :
    Inspects (elementsBehind v pos) m fun es => v = .address es.start := by
  refine (inspects_requirePointer v pos).bind fun start pointer =>
    (inspects_liveAllocation start pos).bind fun al _ => ?_
  split
  · exact inspects_fail _ _
  · exact inspects_pure pointer

/-- An array or pointer is worth the address of the first element that it reaches. -/
theorem elements_start {array : Expr} {pos : Position} {es : Place.Elements}
    (h : Place.elements array (evalExpr s call array) pos m = .ok es m₁) :
    evalExpr s call array m = .ok (.address es.start) m₁ := by
  have behind (h : (do Place.elementsBehind (← evalExpr s call array) pos) m = .ok es m₁) :
      evalExpr s call array m = .ok (.address es.start) m₁ := by
    obtain ⟨v, m₂, found, reached⟩ := bind_eq_ok h
    obtain ⟨rfl, rfl⟩ := (Place.inspects_start v pos).ok reached
    exact found
  unfold Place.elements at h
  split at h
  · rename_i name namePos
    obtain ⟨place, m₂, named, rest⟩ := bind_eq_ok h
    cases hlen : place.arrayLen with
    | some len =>
      simp only [hlen] at rest
      cases rest
      have whole : ¬ (place.arrayLen.isNone ∧ place.type.isStruct) := by simp [hlen]
      rw [evalExpr, bind_ok named, Place.readScalar, if_neg whole, Place.read, hlen]
      rfl
    | none =>
      simp only [hlen] at rest
      obtain ⟨rfl, -⟩ := (Place.inspects_ofName name namePos).ok named
      exact behind rest
  · exact behind h

theorem evalExpr_arith (op : Arith) (left right : Expr) (pos : Position) :
    evalExpr s call (.binary (.arith op) left right pos) = (do
      let l ← requireDefined (← evalExpr s call left) left
      let r ← requireDefined (← evalExpr s call right) right
      ofCause pos (op.eval l r)) := rfl

/-- An element is one slot. -/
theorem arrayLen_of_index {array index : Expr} {pos : Position} {p : Place}
    (h : evalPlace s call (.index array index pos) m = .ok p m') : p.arrayLen = none := by
  obtain ⟨es, m₁, -, numbered⟩ := bind_eq_ok h
  obtain ⟨v, m₂, -, found⟩ := bind_eq_ok numbered
  obtain ⟨rfl, i, -, -, -, rfl⟩ := (Place.inspects_element es v pos).ok found
  rfl

section

variable (hs : s.Sensible) (hm : Reached s m) {array index : Expr} {pos : Position} {p : Place}

include hs hm

/-- Where an element was found, the moved pointer leads: the index may have run anything, but the elements
lie in a variable, which still lives then. -/
theorem deref_add_ok (hb : m'.env.memory.InBounds)
    (h : evalPlace s (s.handlerWithin n) (.index array index pos) m = .ok p m') (q r : Position) :
    evalPlace s (s.handlerWithin n) (.deref (.binary (.arith .add) array index q) r) m = .ok p m' := by
  obtain ⟨es, m₁, v, i, al, hes, hv, hi, nonneg, -, address, type, live, -, live'⟩ :=
    isElement_of_ok hs hm hb h
  obtain ⟨onward, reach⟩ := elements_live hs hm hes
  obtain ⟨al', found, within⟩ := reach ((evalExpr_onward hs (hm.path onward.later) hv).later.inBounds hb)
  obtain rfl := Except.ok.inj (live.symm.trans found)
  -- the sum is evaluated like the array and then the index
  have sum : evalExpr s (s.handlerWithin n) (.binary (.arith .add) array index q) m =
      .ok (.address p.address) m' := by
    have defined : v.isDefined := by
      cases v with
      | undefined => cases hi
      | _ => rfl
    rw [evalExpr_arith, bind_ok (elements_start hes), bind_ok (requireDefined_eq rfl array m₁), bind_ok hv,
      bind_ok (requireDefined_eq defined index m'), Arith.add_address hi, offset_eq nonneg address]
    rfl
  have single := arrayLen_of_index h
  rw [evalPlace, bind_ok sum, Place.behind_eq live', Place.pointed, if_neg fun node => node.2 within.kind,
    ← type]
  obtain ⟨address, type, arrayLen⟩ := p
  obtain rfl : arrayLen = none := single
  rfl

end

/-! Pieces that end alike -/

/-- Two halts for the same reason: the same one, or faults of one kind. -/
def Halt.Akin (h h' : Halt) : Prop :=
  h' = h ∨ ∃ f f', h = .fault f ∧ h' = .fault f' ∧ f'.cause.kind = f.cause.kind

/-- Two pieces that give the same value or halt for the same reason, and in any case leave the same state. -/
def Run.Akin (x y : Run α) (m : Machine) : Prop := Paired Halt.Akin x y m

namespace Run.Akin

variable {x y : Run α} {f g : α → Run β}

theorem refl (x : Run α) (m : Machine) : Akin x x m := Paired.of_eq (fun _ => .inl rfl) rfl

theorem fault {c c' : Fault.Cause} {q r : Position} (hx : x m = .error (.fault ⟨c, q⟩) m')
    (hy : y m = .error (.fault ⟨c', r⟩) m') (kind : c'.kind = c.kind) : Akin x y m :=
  (ensures_iff_of_error hx).mpr ⟨_, hy, .inr ⟨_, _, rfl, rfl, kind⟩⟩

theorem fail (cause : Fault.Cause) (q r : Position) (m : Machine) :
    Akin (fail cause q : Run α) (fail cause r) m := .fault rfl rfl rfl

theorem bind (hx : Akin x y m) (hf : ∀ a m', x m = .ok a m' → Akin (f a) (g a) m') :
    Akin (x >>= f) (y >>= g) m := Paired.bind hx hf

end Run.Akin

/-! Fields -/

theorem liveAllocation_akin (a : Address) (q r : Position) (m : Machine) :
    Akin (liveAllocation a q) (liveAllocation a r) m := by
  refine (Akin.refl environment m).bind fun env m' _ => ?_
  split
  · exact .refl _ _
  · exact .fail _ _ _ _

theorem liveAllocation_eq_error {a : Address} {fault : Memory.Fault}
    (h : m.env.memory.liveAt a = .error fault) (pos : Position) :
    liveAllocation a pos m = .error (.fault ⟨fault.cause a, pos⟩) m := by
  have environment : Run.environment m = .ok m.env m := rfl
  unfold liveAllocation
  rw [bind_ok environment, h]
  rfl

namespace Place

variable {a : Address} {al : Allocation}

theorem field_akin (base : Address) (name : String) (q r : Position) (m : Machine) :
    Akin (field s base name q) (field s base name r) m := by
  refine (liveAllocation_akin base q r m).bind fun al m' _ => ?_
  dsimp only
  split
  · split
    · split
      · exact .fail _ _ _ _
      · split
        · exact .fail _ _ _ _
        · exact .refl _ _
    · exact .fail _ _ _ _
  · exact .fail _ _ _ _

/-- Only a node has fields, and only at its start. -/
theorem field_of_apart (live : m.env.memory.liveAt a = .ok al)
    (apart : ¬ (al.base = a ∧ al.struct? ≠ none)) (name : String) (pos : Position) :
    field s a name pos m = .error (.fault ⟨.typeMismatch "pointer to struct" al.type.text, pos⟩) m := by
  unfold field
  rw [bind_ok (liveAllocation_eq live pos)]
  cases hk : al.kind with
  | node struct fields =>
    have start : al.base ≠ a := fun start => apart ⟨start, by simp [Allocation.struct?, hk]⟩
    simp only [if_neg start]
    rfl
  | _ => rfl

/-- Behind a pointer stands a whole struct just where a node starts. -/
theorem struct_of_pointed {structs : Structs} (layout : m.env.memory.Layout structs)
    (live : m.env.memory.liveAt a = .ok al) (whole : (pointed a al).type.isStruct = false) :
    ¬ (al.base = a ∧ al.struct? ≠ none) := by
  intro node
  unfold pointed at whole
  rw [if_pos node] at whole
  cases hk : al.kind with
  | node struct fields =>
    have named := ((layout.formed (layout.of_liveAt live).1).node hk).2.1
    change al.type.isStruct = false at whole
    rw [named] at whole
    cases whole
  | _ => exact node.2 (by simp [Allocation.struct?, hk])

/-- The field behind a pointer is that of the struct it leads to. -/
theorem arrow_akin_dot {structs : Structs} (layout : m.env.memory.Layout structs) (v : Value)
    (name : String) (p q r : Position) :
    Akin (do field s (← requirePointer v p) name p)
      (do field s (← (← behind v q).requireStruct r) name r) m := by
  cases v with
  | address a =>
    have pointer (pos : Position) : requirePointer (.address a) pos m = .ok a m := rfl
    cases live : m.env.memory.liveAt a with
    | error fault =>
      have lost : behind (.address a) q m = .error (.fault ⟨fault.cause a, q⟩) m :=
        (bind_ok (pointer q)).trans (bind_error (liveAllocation_eq_error live q))
      exact .fault ((bind_ok (pointer p)).trans (bind_error (liveAllocation_eq_error live p)))
        (bind_error lost) rfl
    | ok al =>
      have led := behind_eq live q
      unfold Akin Paired Ensures
      rw [bind_ok (pointer p), bind_ok led]
      by_cases whole : (pointed a al).type.isStruct
      · have struct : (pointed a al).requireStruct r m = .ok a m := by
          unfold requireStruct
          rw [if_pos whole]
          rfl
        rw [bind_ok struct]
        exact field_akin a name p r m
      · have apart := struct_of_pointed layout live (eq_false_of_ne_true whole)
        have noStruct : (pointed a al).requireStruct r m =
            .error (.fault ⟨.typeMismatch "struct" (pointed a al).type.text, r⟩) m := by
          unfold requireStruct
          rw [if_neg whole]
          rfl
        exact Akin.fault (field_of_apart live apart name p) (bind_error noStruct) rfl
  | _ => exact .fault rfl rfl rfl

end Place

theorem evalPlace_arrow (object : Expr) (name : String) (p : Position) :
    evalPlace s call (.field object name true p) = (do
      let v ← evalExpr s call object
      let base ← requirePointer v p
      Place.field s base name p) := rfl

theorem evalPlace_deref_dot (object : Expr) (name : String) (q r : Position) :
    evalPlace s call (.field (.deref object q) name false r) = (do
      let v ← evalExpr s call object
      let place ← Place.behind v q
      let base ← place.requireStruct r
      Place.field s base name r) := by
  simp only [evalPlace, bind_assoc]

structure PathsAgree (s : Setting) (call : CallHandler) (m : Machine) : Prop where
  /-- An element is where a pointer leads that was moved on by its number. -/
  element : ∀ array index pos q r place m', evalPlace s call (.index array index pos) m = .ok place m' →
    m'.env.memory.InBounds →
    evalPlace s call (.deref (.binary (.arith .add) array index q) r) m = .ok place m'
  /-- A field behind a pointer is one of the node that the pointer leads to. -/
  field : ∀ object name p q r,
    Leaves (evalPlace s call (.field object name true p)) m (·.env.memory.InBounds) →
    Akin (evalPlace s call (.field object name true p))
      (evalPlace s call (.field (.deref object q) name false r)) m

theorem Reached.pathsAgree (hs : s.Sensible) (hm : Reached s m) (n : Nat) :
    PathsAgree s (s.handlerWithin n) m where
  element array index pos q r place m' h hb := deref_add_ok hs hm hb h q r
  field object name p q r bounds := by
    rw [evalPlace_arrow] at bounds
    rw [evalPlace_arrow, evalPlace_deref_dot]
    refine (Akin.refl _ m).bind fun v m₁ found => ?_
    have looks := (inspects_requirePointer v p).bind fun base _ =>
      Place.looks_field (s := s) base name p m₁
    have hb : m₁.env.memory.InBounds := by
      cases h : (do Place.field s (← requirePointer v p) name p : Run Place) m₁ with
      | ok place m' =>
        obtain ⟨rfl, -⟩ := looks.ok h
        exact bounds.ok ((bind_ok found).trans h)
      | error e m' =>
        obtain rfl := looks.error h
        exact bounds.error ((bind_ok found).trans h)
    exact Place.arrow_akin_dot ((hm.path (evalExpr_onward hs hm found).later).layout hb) v name p q r

/-- Access paths agree. In every state that a run of an accepted program can be in, before addresses have
run out, an element found by its number is found by moving a pointer, with the same type and effects; and a
field found through a pointer is found in what the pointer leads to, or both ways fail for one reason. -/
theorem access_paths_agree {source : String} {p : Program} (accepted : Program.parse source = .ok p)
    (limits : Limits) (cancelled : Bool) :
    let s := Setting.ofProgram p source limits cancelled
    ∀ m n, Reached s m → PathsAgree s (s.handlerWithin n) m := by
  intro s m n hm
  exact hm.pathsAgree (p.sensible_functions accepted limits cancelled) n

/-- An element whose number a function finds that counts its calls, the second field of a node, and a field
that an array does not have. -/
theorem access_paths_agree_counted :
    let source := "struct N \x7b int v; char w; \x7d; struct N *g = malloc(sizeof(struct N)); int a[3]; " ++
      "int i; int next() \x7b i = i + 1; return i; \x7d int main() \x7b return 0; \x7d"
    let pos : Position := ⟨1, 1⟩
    let array : Expr := .var "a" pos
    let next : Expr := .call "next" [] pos
    let node : Expr := .var "g" pos
    ∃ p, Program.parse source = .ok p ∧
      let s := Setting.ofProgram p source ⟨100, 9, 99999⟩ false
      let call := s.handlerWithin 3
      ∃ m, Reached s m ∧
        (∃ place m', evalPlace s call (.index array next pos) m = .ok place m' ∧
          evalPlace s call (.deref (.binary (.arith .add) array next pos) pos) m = .ok place m') ∧
        (∃ place m', evalPlace s call (.field node "w" true pos) m = .ok place m' ∧
          evalPlace s call (.field (.deref node pos) "w" false pos) m = .ok place m') ∧
        ∃ h h' m', evalPlace s call (.field array "w" true pos) m = .error h m' ∧
          evalPlace s call (.field (.deref array pos) "w" false pos) m = .error h' m' ∧ h.Akin h' := by
  intro source pos array next node
  have facts : (Program.parse source).toOption.any (fun p =>
      let s := Setting.ofProgram p source ⟨100, 9, 99999⟩ false
      let call := s.handlerWithin 3
      Ensures (runGlobals s p.globals) (.start "") (fun _ m =>
        Ensures (evalPlace s call (.index array next pos)) m
          (fun _ m' => m'.env.memory.InBounds) (fun _ _ => False) ∧
        Ensures (evalPlace s call (.field node "w" true pos)) m
          (fun _ m' => m'.env.memory.InBounds) (fun _ _ => False) ∧
        Ensures (evalPlace s call (.field array "w" true pos)) m
          (fun _ _ => False) (fun _ m' => m'.env.memory.InBounds)) (fun _ _ => False)) = true := by
    decide +kernel
  obtain ⟨p, accepted, facts⟩ := Program.exists_of_any facts
  obtain ⟨⟨⟩, m, globals, element, field, absent⟩ := (of_decide_eq_true facts).exists_ok
  have reached : Reached (Setting.ofProgram p source ⟨100, 9, 99999⟩ false) m :=
    (Reached.start "").path ((runGlobals_follows (p.sensible_functions accepted ⟨100, 9, 99999⟩ false)
      (p.sensible_globals accepted) rfl (.start "")).ok globals).1
  have agree := access_paths_agree accepted ⟨100, 9, 99999⟩ false m 3 reached
  obtain ⟨place, m', numbered, bounds⟩ := element.exists_ok
  have both := agree.field node "w" pos pos pos (field.mono (fun _ _ h => h) fun _ _ h => h.elim)
  have neither := agree.field array "w" pos pos pos (absent.mono (fun _ _ h => h.elim) fun _ _ h => h)
  obtain ⟨place₁, m₁, found, -⟩ := field.exists_ok
  obtain ⟨h, m₂, lost, -⟩ := absent.exists_error
  obtain ⟨h', lost', akin⟩ := Ensures.error neither lost
  exact ⟨p, accepted, m, reached, ⟨place, m', numbered, agree.element _ _ _ pos pos _ _ numbered bounds⟩,
    ⟨place₁, m₁, found, Ensures.ok both found⟩, h, h', m₂, lost, lost', akin⟩

end Stepwise
