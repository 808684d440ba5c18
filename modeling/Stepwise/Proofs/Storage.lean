import Stepwise.Proofs.Course
import Stepwise.Proofs.Ownership

/-! What holds of storage at every step of every run of an accepted program: who owns the variables, and
what the slots hold. -/

namespace Stepwise

open Run

variable {α : Type} {s : Setting} {m m' : Machine} {ds : List Decl}

/-! The moments of a run are states along its path -/

/-- An act leaves what was recorded, or it records the state it finds. -/
theorem Act.items {d : Option Decl} (h : Act s d m m') :
    m'.recorder.items = m.recorder.items ∨
      ∃ x, x.env = m.env ∧ m'.recorder.items = x :: m.recorder.items := by
  cases h with
  | change h => exact .inl rfl
  | print text => exact .inl rfl
  | input rest => exact .inl rfl
  | record line description returned => exact .inr ⟨_, rfl, rfl⟩

/-- What is recorded along a path stands in front of what was before; each moment is a state that the
path goes through. -/
theorem Path.items (h : Path s m ds m') : ∃ new, m'.recorder.items = new ++ m.recorder.items ∧
    ∀ x ∈ new, ∃ m₁ ds₁ ds₂, m₁.env = x.env ∧ Path s m ds₁ m₁ ∧ Path s m₁ ds₂ m' ∧ ds₁ ++ ds₂ = ds := by
  induction h with
  | refl => exact ⟨[], rfl, nofun⟩
  | @step ds m₂ m₃ d before act ih =>
    obtain ⟨new, hnew, shown⟩ := ih
    have older (x : Moment) (hx : x ∈ new) : ∃ m₁ ds₁ ds₂, m₁.env = x.env ∧ Path s m ds₁ m₁ ∧
        Path s m₁ ds₂ m₃ ∧ ds₁ ++ ds₂ = ds ++ d.toList := by
      obtain ⟨m₁, ds₁, ds₂, env, path, path', rfl⟩ := shown x hx
      exact ⟨m₁, ds₁, ds₂ ++ d.toList, env, path, .step path' act, by rw [List.append_assoc]⟩
    rcases act.items with same | ⟨x, hx, more⟩
    · exact ⟨new, same.trans hnew, older⟩
    · refine ⟨x :: new, by rw [more, hnew, List.cons_append], List.forall_mem_cons.mpr ⟨?_, older⟩⟩
      exact ⟨m₂, ds, d.toList, hx.symm, before, act.path, rfl⟩

/-- Of two moments the later one is reached from the earlier. -/
theorem Path.ordered (h : Path s m ds m') (hm : m.recorder.items = []) :
    m'.recorder.items.Pairwise fun y x => ∃ m₁ m₂ ds₁ ds₂, m₁.env = x.env ∧ m₂.env = y.env ∧
      Path s m ds₁ m₁ ∧ Path s m₁ ds₂ m₂ := by
  induction h with
  | refl =>
    rw [hm]
    exact .nil
  | step before act ih =>
    rcases act.items with same | ⟨y, hy, more⟩
    · rw [same]
      exact ih
    · rw [more]
      refine .cons (fun x hx => ?_) ih
      obtain ⟨new, hnew, shown⟩ := before.items
      rw [hnew, hm, List.append_nil] at hx
      obtain ⟨m₁, ds₁, ds₂, env, path, path', -⟩ := shown x hx
      exact ⟨m₁, _, ds₁, ds₂, env, hy.symm, path, path'⟩

namespace Program

variable {p : Program} {source : String} (accepted : Program.parse source = .ok p)

include accepted

theorem sensible_functions (limits : Limits) (cancelled : Bool) :
    (Setting.ofProgram p source limits cancelled).Sensible := by
  intro f hf
  obtain ⟨i, hi, heq⟩ := List.mem_filterMap.mp hf
  have := Program.sensible accepted i hi
  cases i with
  | function g =>
    obtain rfl := Option.some.inj heq
    exact this
  | _ => exact nomatch heq

theorem sensible_globals : ∀ d ∈ p.globals, d.Sensible := by
  intro d hd
  obtain ⟨i, hi, heq⟩ := List.mem_filterMap.mp hd
  have := Program.sensible accepted i hi
  cases i with
  | global g =>
    obtain rfl := Option.some.inj heq
    exact this
  | _ => exact nomatch heq

/-- Whether a run comes to its end or halts, all its moments were recorded along one path. -/
theorem run_path (limits : Limits) (cancelled : Bool) (input : String) :
    let s := Setting.ofProgram p source limits cancelled
    ∃ ds m, ds <+: p.globals ∧ Path s (.start input) ds m ∧ (p.run s input).1 = m.recorder.toList := by
  intro s
  have follows := runProgram_follows (sensible_functions accepted limits cancelled)
    (sensible_globals accepted) input
  unfold Program.run
  cases h : runProgram s p.globals (.start input) with
  | ok _ m =>
    exact ⟨p.globals, m, List.prefix_refl _, (follows.ok h).1, rfl⟩
  | error e m =>
    obtain ⟨ds, m₁, part, path, same⟩ := follows.error h
    exact ⟨ds, m₁, part, path, by rw [same]⟩

/-- Every moment of a run is a state on a path from its start. -/
theorem run_moment {limits : Limits} {cancelled : Bool} {input : String} {x : Moment}
    (hx : x ∈ (p.run (.ofProgram p source limits cancelled) input).1) :
    ∃ ds m, ds <+: p.globals ∧ m.env = x.env ∧
      Path (.ofProgram p source limits cancelled) (.start input) ds m := by
  obtain ⟨ds, m, part, path, moments⟩ := p.run_path accepted limits cancelled input
  obtain ⟨new, hnew, shown⟩ := path.items
  have hx : x ∈ new := by
    rw [moments, Recorder.toList, List.mem_reverse, hnew] at hx
    exact (List.mem_append.mp hx).resolve_right nofun
  obtain ⟨m₁, ds₁, ds₂, env, path₁, -, rfl⟩ := shown x hx
  exact ⟨ds₁, m₁, (List.prefix_append ds₁ ds₂).trans part, env, path₁⟩

theorem run_ordered (limits : Limits) (cancelled : Bool) (input : String) :
    let s := Setting.ofProgram p source limits cancelled
    (p.run s input).1.Pairwise fun x y => ∃ m₁ m₂ ds₁ ds₂, m₁.env = x.env ∧ m₂.env = y.env ∧
      Path s (.start input) ds₁ m₁ ∧ Path s m₁ ds₂ m₂ := by
  obtain ⟨ds, m, -, path, moments⟩ := p.run_path accepted limits cancelled input
  intro s
  rw [moments, Recorder.toList, List.pairwise_reverse]
  exact path.ordered rfl

/-- A call can be opened once the variables of the file are made, and a run can be in the state it opens with. -/
theorem reached_openFrame {limits : Limits} {cancelled : Bool} {input : String} {f : Function}
    {args : List Value} {line : Nat} {pos : Position} {m m₀ : Machine}
    (globals : runGlobals (.ofProgram p source limits cancelled) p.globals (.start input) = .ok () m)
    (opened : openFrame (.ofProgram p source limits cancelled) f args line pos m = .ok () m₀) :
    Reached (.ofProgram p source limits cancelled) m₀ ∧ m₀.env.InBlock := by
  have path := ((runGlobals_follows (sensible_functions accepted limits cancelled) (sensible_globals accepted) rfl
    (.start input)).ok globals).1
  have reached := (Reached.start input).path path
  obtain ⟨later, shape⟩ := (openFrame_follows f args line pos reached).ok opened
  exact ⟨reached.path later, 0, _, shape⟩

end Program

/-! Ownership -/

/-- Every name that is bound, at the top of the file or in a frame, stands for the first address of a live
variable, and no two of them stand for the same. -/
structure Environment.NamesVariables (env : Environment) : Prop where
  live : ∀ site n a, env.bound site n = some a →
    ∃ al, env.memory.allocation? a = some al ∧ al.base = a ∧ al.live ∧ al.struct? = none
  distinct : ∀ site n site' n' a, env.bound site n = some a → env.bound site' n' = some a →
    site = site' ∧ n = n'

/-- The live variables are those of the declarations `made`, and those on the lists of the open blocks.
Each is on one list only, and only once. -/
structure Environment.OwnsVariables (env : Environment) (made : List (Decl × Address)) : Prop where
  declared : ∀ e ∈ made, env.memory.Declared e.1 e.2
  named : ∀ n, env.globals.find? n = (made.reverse.find? (·.1.name == n)).map (·.2)
  all : ∀ a, env.memory.LivesAt a ↔
    a ∈ made.map (·.2) ∨ ∃ f ∈ env.frames, ∃ b ∈ f.blocks, a ∈ b.allocations
  once : (made.map (·.2) ++ env.frames.flatMap fun f => f.blocks.flatMap (·.allocations)).Nodup

namespace Owned

variable {env : Environment} {made : List (Decl × Address)} {structs : Structs}

theorem namesVariables (h : Owned made env) (hl : Memory.Layout structs env.memory) :
    env.NamesVariables where
  live site n a hn := by
    obtain ⟨al, hal, live, node⟩ := h.bound_lives hn
    exact ⟨al, hal, hl.base hal, live, node⟩
  distinct _ _ _ _ _ := h.bound_inj

theorem ownsVariables (h : Owned made env) : env.OwnsVariables made where
  declared := h.declared
  named := h.globals
  all a := by
    rw [h.live a, List.mem_append]
    simp only [Environment.owned, allocationsOf, List.mem_flatMap]
  once := h.nodup

end Owned

/-- Variables are owned. At every step of a run, as long as addresses have not run out, names stand for
live variables that no other name stands for, and the live variables are just those of the declarations
outside of functions so far and those of the open blocks, each owned once. So after a run that came to its
end only the variables of the file are left. -/
theorem variables_owned {source : String} {p : Program} (accepted : Program.parse source = .ok p)
    (limits : Limits) (cancelled : Bool) (input : String) :
    let s := Setting.ofProgram p source limits cancelled
    (∀ x ∈ (p.run s input).1, x.env.memory.InBounds → x.env.NamesVariables ∧
      ∃ made, made.map (·.1) <+: p.globals ∧ x.env.OwnsVariables made) ∧
    ∀ m, runProgram s p.globals (.start input) = .ok () m → m.env.memory.InBounds →
      ∃ made, made.map (·.1) = p.globals ∧ m.env.OwnsVariables made ∧
        ∀ a, m.env.memory.LivesAt a ↔ a ∈ made.map (·.2) := by
  intro s
  constructor
  · intro x hx hb
    obtain ⟨ds, m, part, env, path⟩ := p.run_moment accepted hx
    rw [← env] at hb ⊢
    obtain ⟨layout, made, rfl, owned, -⟩ := path.owns hb
    exact ⟨owned.namesVariables layout, made, part, owned.ownsVariables⟩
  · intro m h hb
    have follows := runProgram_follows (p.sensible_functions accepted limits cancelled)
      (p.sensible_globals accepted) input
    obtain ⟨path, shape⟩ := follows.ok h
    obtain ⟨-, made, hmade, owned, -⟩ := path.owns hb
    refine ⟨made, hmade, owned.ownsVariables, fun a => ?_⟩
    have none : m.env.owned = [] := by
      rw [Environment.owned, List.map_eq_nil_iff.mp shape]
      rfl
    rw [owned.live a, none, List.append_nil]

/-- A name is declared again in an inner block, in a function that is called while another runs. -/
theorem variables_owned_shadowed :
    let source := "int g = 1; int f(int n) \x7b int m = n; \x7b int m = 2; g = m; \x7d return m; \x7d " ++
      "int main() \x7b int a[2]; a[0] = f(3); return a[0]; \x7d"
    ∃ p, Program.parse source = .ok p ∧
      let moments := (p.run (.ofProgram p source ⟨100, 9, 99999⟩ false) "").1
      moments.length = 10 ∧ ∀ x ∈ moments, x.env.memory.InBounds ∧ x.env.NamesVariables ∧
        ∃ made, made.map (·.1) <+: p.globals ∧ x.env.OwnsVariables made := by
  intro source
  have facts : (Program.parse source).toOption.any (fun p =>
      let moments := (p.run (.ofProgram p source ⟨100, 9, 99999⟩ false) "").1
      moments.length = 10 ∧ ∀ x ∈ moments, x.env.memory.InBounds) = true := by decide +kernel
  obtain ⟨p, accepted, facts⟩ := Program.exists_of_any facts
  obtain ⟨steps, bounds⟩ := of_decide_eq_true facts
  have owned := (variables_owned accepted ⟨100, 9, 99999⟩ false "").1
  exact ⟨p, accepted, steps, fun x hx => ⟨bounds x hx, owned x hx (bounds x hx)⟩⟩

/-! What the slots hold -/

def Run.Records (x : Run α) (m : Machine) (y : Moment) : Prop :=
  Leaves x m fun m' => ∃ new, m'.recorder.items = new ++ m.recorder.items ∧ y ∈ new

/-- What a piece that passes records is a state that comes after the one it began in. -/
theorem Run.Records.later {x : Run α} {y : Moment} (h : Records x m y) (hx : Passes s x m)
    (hm : Reached s m) : ∃ m₁, Later s m m₁ ∧ m₁.env = y.env := by
  have shown {m' m₂ : Machine} (path : Later s m m') (same : m'.recorder = m₂.recorder)
      (h : ∃ new, m₂.recorder.items = new ++ m.recorder.items ∧ y ∈ new) :
      ∃ m₁, Later s m m₁ ∧ m₁.env = y.env := by
    obtain ⟨new, hnew, hy⟩ := h
    obtain ⟨new', hnew', shown⟩ := path.items
    rw [same, hnew] at hnew'
    obtain rfl := List.append_cancel_right hnew'
    obtain ⟨m₁, ds₁, ds₂, env, path₁, -, none⟩ := shown y hy
    obtain ⟨rfl, -⟩ := List.append_eq_nil_iff.mp none
    exact ⟨m₁, path₁, env⟩
  cases hr : x m with
  | ok a m' => exact shown ((hx hm).ok hr).1 rfl (h.ok hr)
  | error e m' =>
    obtain ⟨ds, m₁, none, path, same⟩ := (hx hm).error hr
    obtain rfl := List.prefix_nil.mp none
    exact shown path same (h.error hr)

theorem Environment.lookup?_make {env : Environment} (hb : env.InBlock) (x : Variable) :
    (env.make x).lookup? x.name = some (UInt64.ofNat env.memory.nextStack, .local) := by
  obtain ⟨k, rest, shape⟩ := hb
  obtain ⟨top, frames, hframes, hk, -⟩ := List.map_eq_cons_iff.mp shape
  obtain ⟨b, blocks, hblocks⟩ := List.exists_cons_of_length_eq_add_one hk
  unfold make declare lookup? locals Frame.declare
  simp [hframes, hblocks, find?_insert_name, Names.bind]

/-- A variable that is declared with a first value never has an undefined slot, whatever comes later. -/
theorem declare_filled (hs : s.Sensible) (n : Nat) {d : Decl} (hd : d.Sensible) (init : d.HasInit)
    (hm : Reached s m) (hb : m.env.InBlock) {text : String}
    (h : declare s (s.handlerWithin n) d m = .ok text m') :
    ∃ a, m'.env.lookup? d.name = some (a, .local) ∧ m'.env.memory.Declared d a ∧
      ∀ ds m₂, Path s m' ds m₂ → m₂.env.memory.InBounds → m₂.env.memory.FilledAt a := by
  obtain ⟨m₁, x, later, shape, proper, made, filled, rfl⟩ :=
    (declare_makes (calls_handlerWithin hs n) hd hm).ok h
  have inBlock := hb.of_shape shape
  have hal : (m₁.env.make x).memory.allocation? (UInt64.ofNat m₁.env.memory.nextStack) =
      some (x.allocation (UInt64.ofNat m₁.env.memory.nextStack)) := by
    rw [Environment.make, Environment.memory_declare, Memory.allocation?_make, if_pos rfl]
  refine ⟨UInt64.ofNat m₁.env.memory.nextStack, made.name ▸ m₁.env.lookup?_make inBlock x,
    ⟨x, made, hal⟩, fun ds m₂ path hb₂ => ?_⟩
  obtain ⟨k, rest, hk⟩ := inBlock
  have reached := (hm.path later).path (Act.change (.declare proper hk)).path
  have bounds := path.inBounds hb₂
  refine (reached.evolves path hb₂).filledAt hal ?_
  rw [Environment.make, Environment.memory_declare] at bounds ⊢
  exact Memory.filledAt_make proper (filled (.inr init)) bounds

/-- No slot of an allocation that lives on becomes undefined. -/
def Memory.StaysDefined (mem mem' : Memory) : Prop :=
  ∀ k al b, mem.allocation? k = some al → mem'.allocation? k = some al → al.live → al.contains b →
    (mem.cell b).isDefined → (mem'.cell b).isDefined

theorem Memory.Evolves.staysDefined {mem mem' : Memory} (h : mem.Evolves mem') : mem.StaysDefined mem' :=
  fun _ _ _ => h.defined

/-- Slots hold values of their type, and hold on to having one. At every step of a run, as long as
addresses have not run out, each slot of a live allocation is undefined or holds a value of its type, and
no slot of a variable of the file is undefined. From one step to a later one no slot of an allocation that
lives on becomes undefined again, and neither does one from any state that a run can be in to any state that
can follow. And when a declaration inside of a function gives its variable a first value, no slot of it is
ever undefined afterwards, neither in what its function goes on to run nor in any other state that can
follow. -/
theorem slots_typed {source : String} {p : Program} (accepted : Program.parse source = .ok p)
    (limits : Limits) (cancelled : Bool) (input : String) :
    let s := Setting.ofProgram p source limits cancelled
    (∀ x ∈ (p.run s input).1, x.env.memory.InBounds → x.env.memory.Typed ∧
      ∃ made, made.map (·.1) <+: p.globals ∧ x.env.OwnsVariables made ∧
        ∀ e ∈ made, x.env.memory.FilledAt e.2) ∧
    ((p.run s input).1.Pairwise fun x y =>
      y.env.memory.InBounds → x.env.memory.StaysDefined y.env.memory) ∧
    (∀ m₁ ds m₂, Reached s m₁ → Path s m₁ ds m₂ → m₂.env.memory.InBounds →
      m₁.env.memory.StaysDefined m₂.env.memory) ∧
    ∀ n d m₀ text m₁, d.Sensible → d.HasInit → Reached s m₀ → m₀.env.InBlock →
      declare s (s.handlerWithin n) d m₀ = .ok text m₁ →
      ∃ a, m₁.env.lookup? d.name = some (a, .local) ∧ m₁.env.memory.Declared d a ∧
        (∀ ds m₂, Path s m₁ ds m₂ → m₂.env.memory.InBounds → m₂.env.memory.FilledAt a) ∧
        ∀ returns rest m₂ x, AllSensible rest → Later s m₁ m₂ → m₂.env.InBlock →
          (runStmts s (s.handlerWithin n) returns rest).Records m₂ x →
          x.env.memory.InBounds → x.env.memory.FilledAt a := by
  intro s
  have sensible := p.sensible_functions accepted limits cancelled
  refine ⟨fun x hx hb => ?_, ?_, fun m₁ ds m₂ reached path hb => (reached.evolves path hb).staysDefined,
    fun n d m₀ text m₁ hd init reached inBlock h => ?_⟩
  · obtain ⟨ds, m, part, env, path⟩ := p.run_moment accepted hx
    rw [← env] at hb ⊢
    obtain ⟨-, made, rfl, owned, filled⟩ := path.owns hb
    exact ⟨(path.storage .empty hb).2.2 .empty, made, part, owned.ownsVariables, filled⟩
  · refine (p.run_ordered accepted limits cancelled input).imp ?_
    rintro x y ⟨m₁, m₂, ds₁, ds₂, hx, hy, path, path'⟩ hb
    rw [← hx, ← hy] at *
    exact (((Reached.start input).path path).evolves path' hb).staysDefined
  · obtain ⟨a, lookup, declared, filled⟩ := declare_filled sensible n hd init reached inBlock h
    refine ⟨a, lookup, declared, filled, fun returns rest m₂ x hrest later hb₂ records hb => ?_⟩
    have calls := calls_handlerWithin sensible n
    have reached₁ := reached.path ((declare_passes calls hd inBlock reached).ok h).1
    have passes := runStmts_passes calls returns rest hrest m₂ hb₂
    obtain ⟨m₃, later', env⟩ := records.later passes (reached₁.path later)
    rw [← env] at hb ⊢
    exact filled _ m₃ (later.trans later') hb

/-- An array has one first value for its three elements, and a `char` is assigned what it cannot hold. In the
state that the body of `main` begins with the array is declared and one of its elements assigned. -/
theorem slots_typed_partial :
    let source := "char c; int main() \x7b int a[3] = \x7b300\x7d; c = a[0]; a[2] = c; return a[1]; \x7d"
    let pos : Position := ⟨1, 21⟩
    let array : Decl := .array "a" .int 3 (some [.int 300 pos]) pos
    let store : Stmt := .simple (.assign (.index (.var "a" pos) (.int 2 pos) pos) none (.var "c" pos) pos)
    ∃ p, Program.parse source = .ok p ∧
      let s := Setting.ofProgram p source ⟨100, 9, 99999⟩ false
      let moments := (p.run s "").1
      (moments.length = 6 ∧ (∀ x ∈ moments, x.env.memory.InBounds ∧ x.env.memory.Typed ∧
        ∃ made, made.map (·.1) <+: p.globals ∧ x.env.OwnsVariables made ∧
          ∀ e ∈ made, x.env.memory.FilledAt e.2) ∧
        moments.Pairwise fun x y => x.env.memory.StaysDefined y.env.memory) ∧
      ∃ m₀ text m₁ a flow m₂ x, Reached s m₀ ∧ declare s (s.handlerWithin 3) array m₀ = .ok text m₁ ∧
        m₁.env.lookup? "a" = some (a, .local) ∧
        runStmts s (s.handlerWithin 3) .int [store] m₁ = .ok flow m₂ ∧
        m₁.env.memory.StaysDefined m₂.env.memory ∧ m₂.env.memory.FilledAt a ∧
        (runStmts s (s.handlerWithin 3) .int [store]).Records m₁ x ∧ x.env.memory.FilledAt a := by
  intro source pos array store
  have facts : (Program.parse source).toOption.any (fun p =>
      let s := Setting.ofProgram p source ⟨100, 9, 99999⟩ false
      let moments := (p.run s "").1
      (moments.length = 6 ∧ ∀ x ∈ moments, x.env.memory.InBounds) ∧ ∃ main ∈ p.functions,
        Ensures (runGlobals s p.globals) (.start "") (fun _ m =>
          Ensures (openFrame s main [] 0 pos) m (fun _ m₀ =>
            Ensures (declare s (s.handlerWithin 3) array) m₀ (fun _ m₁ =>
              Ensures (runStmts s (s.handlerWithin 3) .int [store]) m₁ (fun _ m₂ =>
                m₂.recorder.items.length = m₁.recorder.items.length + 1 ∧ m₂.env.memory.InBounds)
                fun _ _ => False) fun _ _ => False) fun _ _ => False) fun _ _ => False) = true := by
    decide +kernel
  obtain ⟨p, accepted, facts⟩ := Program.exists_of_any facts
  obtain ⟨⟨steps, bounds⟩, main, -, body⟩ := of_decide_eq_true facts
  obtain ⟨⟨⟩, m, globals, body⟩ := body.exists_ok
  obtain ⟨⟨⟩, m₀, opened, body⟩ := body.exists_ok
  obtain ⟨text, m₁, declared, body⟩ := body.exists_ok
  obtain ⟨flow, m₂, stored, more, hb₂⟩ := body.exists_ok
  obtain ⟨reached, inBlock⟩ := p.reached_openFrame accepted globals opened
  have calls := calls_handlerWithin (p.sensible_functions accepted ⟨100, 9, 99999⟩ false) 3
  have sensible : array.Sensible := ⟨.inr trivial, by decide, by decide⟩
  obtain ⟨later₁, shape₁, -⟩ := (declare_passes calls sensible inBlock reached).ok declared
  have reached₁ := reached.path later₁
  have inBlock₁ := inBlock.of_shape shape₁
  have later₂ := ((runStmts_passes calls .int [store] ⟨trivial, trivial⟩ m₁ inBlock₁ reached₁).ok stored).1
  obtain ⟨new, items, shown⟩ := later₂.items
  have count : new.length = 1 := by
    rw [items, List.length_append] at more
    omega
  obtain ⟨x, rfl⟩ := List.length_eq_one_iff.mp count
  obtain ⟨_, _, _, env, -, path₂, -⟩ := shown x List.mem_cons_self
  have records : (runStmts (.ofProgram p source ⟨100, 9, 99999⟩ false)
      ((Setting.ofProgram p source ⟨100, 9, 99999⟩ false).handlerWithin 3) .int [store]).Records m₁ x := by
    rw [Records, Leaves, ensures_iff_of_ok stored]
    exact ⟨_, items, List.mem_singleton_self x⟩
  obtain ⟨typed, ordered, stays, fills⟩ := slots_typed accepted ⟨100, 9, 99999⟩ false ""
  obtain ⟨a, lookup, -, filled, filled'⟩ :=
    fills 3 array m₀ text m₁ sensible rfl reached inBlock declared
  refine ⟨p, accepted, ⟨steps, fun x hx => ⟨bounds x hx, typed x hx (bounds x hx)⟩, ?_⟩, m₀, text, m₁, a, flow,
    m₂, x, reached, declared, lookup, stored, stays m₁ _ m₂ reached₁ later₂ hb₂, filled _ m₂ later₂ hb₂, records,
    filled' .int [store] m₁ x ⟨trivial, trivial⟩ .refl inBlock₁ records (env ▸ path₂.inBounds hb₂)⟩
  exact ordered.imp_of_mem fun _ hy h => h (bounds _ hy)

end Stepwise
