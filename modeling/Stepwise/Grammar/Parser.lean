import Stepwise.Program.Error

/-! Parsers over the tokens that are left, the end of the text last. A parser never takes that
last token. Recursion goes through `Parser.fix`, which hands a rule to itself for shorter inputs
only, so every grammar built from these pieces is total. -/

namespace Stepwise

/-- Takes tokens off the front, or says why they do not fit. -/
abbrev Parser := StateT (List Lexeme) (Except ParseError)

namespace Parser

/-- The token at the front; there always is one, since the end of the text is never taken. -/
def current : Parser Lexeme := fun
  | [] => .error ⟨.pastEnd, .start⟩
  | t :: rest => .ok (t, t :: rest)

def ahead (n : Nat) : Parser (Option Token) := fun ts => .ok (ts[n]?.map (·.token), ts)

/-- Takes the token at the front, unless it is the end of the text. -/
def advance : Parser Unit := fun
  | [] => .error ⟨.pastEnd, .start⟩
  | ⟨.eof, p⟩ :: rest => .ok ((), ⟨.eof, p⟩ :: rest)
  | _ :: rest => .ok ((), rest)

def position : Parser Position := return (← current).pos

def sees (s : Symbol) : Parser Bool := return match (← current).token with
  | .symbol s' => s' = s
  | _ => false

def accept (s : Symbol) : Parser Bool := do
  if ← sees s then
    advance
    return true
  else return false

def acceptWord (k : Keyword) : Parser Bool := do
  match (← current).token with
  | .keyword k' =>
    if k' = k then
      advance
      return true
    else return false
  | _ => return false

def failExpected {α : Type} (what : Expected) : Parser α := do
  let here ← current
  throw ⟨.expected what here.token, here.pos⟩

def failUnsupported {α : Type} (c : Construct) (pos : Position) : Parser α :=
  throw (.unsupported c pos)

/-- Takes a symbol that must be at the front; `context` says where it was looked for. -/
def expect (s : Symbol) (context : String) : Parser Unit := do
  unless ← accept s do failExpected (.symbol s context)

def rejectReserved : Parser Unit := do
  let here ← current
  match here.token with
  | .reserved r => failUnsupported (.word r) here.pos
  | _ => return ()

def identifier : Parser String := do
  rejectReserved
  match (← current).token with
  | .ident name =>
    advance
    return name
  | _ => failExpected .identifier

def seesType : Parser Bool := return match (← current).token with
  | .keyword k => k.beginsType
  | _ => false

/-- The rule asked to go on without progress. -/
def stuck {α : Type} : Parser α := do throw ⟨.noProgress, ← position⟩

variable {σ α : Type}

/-- A rule that may use itself, `depth` deep, on inputs shorter than its own. -/
def unroll (rule : (σ → Parser α) → σ → Parser α) : Nat → σ → Parser α
  | 0, _ => stuck
  | depth + 1, s => fun ts =>
    rule (fun s' rest => if rest.length < ts.length then unroll rule depth s' rest else stuck rest)
      s ts

/-- A rule that may use itself on inputs shorter than its own. -/
def fix (rule : (σ → Parser α) → σ → Parser α) (s : σ) : Parser α := fun ts =>
  unroll rule (ts.length + 1) s ts

/-- Depth beyond the length of the input makes no difference. -/
theorem unroll_eq (rule : (σ → Parser α) → σ → Parser α) {m n : Nat} {ts : List Lexeme}
    (hm : ts.length < m) (hn : ts.length < n) (s : σ) : unroll rule m s ts = unroll rule n s ts := by
  induction m generalizing n ts s with
  | zero => omega
  | succ m ih =>
    obtain ⟨n, rfl⟩ : ∃ k, n = k + 1 := ⟨n - 1, by omega⟩
    simp only [unroll]
    congr 1
    funext s' rest
    split
    · exact ih (by omega) (by omega) s'
    · rfl

/-- What a rule built by `fix` does: it runs once, and uses itself on shorter inputs. -/
theorem fix_eq (rule : (σ → Parser α) → σ → Parser α) (s : σ) (ts : List Lexeme) :
    fix rule s ts =
      rule (fun s' rest => if rest.length < ts.length then fix rule s' rest else stuck rest)
        s ts := by
  show rule (fun s' rest =>
    if rest.length < ts.length then unroll rule ts.length s' rest else stuck rest) s ts = _
  congr 1
  funext s' rest
  split
  · exact unroll_eq rule (by omega) (by omega) s'
  · rfl

end Parser

end Stepwise
