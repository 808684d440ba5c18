import Stepwise.Source.Lexer
import Stepwise.Text.Blank

/-! Where tokens stand. A text that is cut into tokens is a row of gaps and tokens in turn; the gaps are
made of blanks, comments and directives, and a token's position counts the newlines before it and the
characters behind the last of them. -/

namespace Stepwise

namespace Position

/-- The position behind a text: one more than its newlines, and than the characters behind the last of
them. -/
def behind (cs : List Char) : Position :=
  ⟨1 + cs.count '\n', 1 + (cs.reverse.takeWhile (· ≠ '\n')).length⟩

theorem after_start (cs : List Char) : start.after cs = behind cs := by
  suffices reversed : ∀ rs : List Char, start.after rs.reverse =
      ⟨1 + rs.count '\n', 1 + (rs.takeWhile (· ≠ '\n')).length⟩ by
    have := reversed cs.reverse
    rwa [List.reverse_reverse, List.count_reverse] at this
  intro rs
  induction rs with
  | nil => rfl
  | cons c rest ih =>
    rw [List.reverse_cons, after_append, ih, after_cons, after_nil, next]
    by_cases hc : c = '\n'
    · simp [hc, Nat.add_assoc]
    · simp [hc, Nat.add_assoc]

def Before (p q : Position) : Prop := p.line < q.line ∨ p.line = q.line ∧ p.column < q.column

theorem Before.trans {p q r : Position} (h : p.Before q) (h' : q.Before r) : p.Before r := by
  unfold Before at *
  omega

theorem before_next (p : Position) (c : Char) : p.Before (p.next c) := by
  unfold Before next
  split <;> simp

theorem before_after (p : Position) {cs : List Char} (h : cs ≠ []) : p.Before (p.after cs) := by
  induction cs generalizing p with
  | nil => exact absurd rfl h
  | cons c rest ih =>
    rw [after_cons]
    cases rest with
    | nil => exact p.before_next c
    | cons d rest => exact (p.before_next c).trans (ih (p.next c) nofun)

theorem before_behind (cs : List Char) {ds : List Char} (h : ds ≠ []) :
    (behind cs).Before (behind (cs ++ ds)) := by
  rw [← after_start, ← after_start, after_append]
  exact before_after _ h

end Position

/-! Gaps -/

/-- Every newline stands behind a backslash, so that a directive goes on. -/
def Continued (body : List Char) : Prop :=
  ∀ front back, body = front ++ '\n' :: back → front.getLast? = some '\\'

inductive Filler : List Char → Prop where
  | blank {c : Char} (h : c = ' ' ∨ c = '\t' ∨ c = '\r' ∨ c = '\n') : Filler [c]
  | line {body : List Char} (h : '\n' ∉ body) : Filler ('/' :: '/' :: (body ++ ['\n']))
  | block {body : List Char} (h : ¬ ['*', '/'] <:+: body) : Filler ('/' :: '*' :: (body ++ ['*', '/']))
  | directive {body : List Char} (h : Continued body) (last : body.getLast? ≠ some '\\') :
      Filler ('#' :: (body ++ ['\n']))

inductive OpenEnd : List Char → Prop where
  | line {body : List Char} (h : '\n' ∉ body) : OpenEnd ('/' :: '/' :: body)
  | directive {body : List Char} (h : Continued body) : OpenEnd ('#' :: body)

inductive Gap : List Char → Prop where
  | nil : Gap []
  | cons {filler gap : List Char} (first : Filler filler) (rest : Gap gap) : Gap (filler ++ gap)

def LastGap (gap : List Char) : Prop :=
  ∃ front back, gap = front ++ back ∧ Gap front ∧ (back = [] ∨ OpenEnd back)

theorem Filler.ne_nil {filler : List Char} (h : Filler filler) : filler ≠ [] := by
  cases h <;> nofun

theorem getLast?_cons_ne {c x : Char} {body : List Char} (hc : c ≠ x ∨ body ≠ [])
    (h : body.getLast? ≠ some x) : (c :: body).getLast? ≠ some x := by
  rw [List.getLast?_cons]
  cases body with
  | nil => simpa using hc
  | cons d body =>
    rw [List.getLast?_cons] at h ⊢
    exact h

theorem Continued.cons {c : Char} {body : List Char} (h : Continued body) (hc : c ≠ '\n') :
    Continued (c :: body) := by
  intro front back heq
  cases front with
  | nil => exact absurd (List.cons.inj heq).1 hc
  | cons d front =>
    rw [List.getLast?_cons, h front back (List.cons.inj heq).2]
    rfl

/-- A newline behind a backslash does not end a directive. -/
theorem Continued.newline {body : List Char} (h : Continued body) :
    Continued ('\\' :: '\n' :: body) := by
  intro front back heq
  cases front with
  | nil => simp at heq
  | cons c front =>
    obtain ⟨rfl, tail⟩ := List.cons.inj heq
    cases front with
    | nil => rfl
    | cons d front =>
      rw [List.getLast?_cons_cons, List.getLast?_cons, h front back (List.cons.inj tail).2]
      rfl

namespace Lexer

theorem skipLine_spec (p : Position) (cs : List Char) :
    (∃ body rest, '\n' ∉ body ∧ cs = body ++ '\n' :: rest ∧
      skipLine p cs = skip (p.after (body ++ ['\n'])) rest) ∨
    '\n' ∉ cs ∧ skipLine p cs = .ok ⟨[], p.after cs⟩ := by
  induction cs generalizing p with
  | nil => exact .inr ⟨nofun, rfl⟩
  | cons c rest ih =>
    unfold skipLine
    by_cases hc : c = '\n'
    · rw [if_pos hc, hc]
      exact .inl ⟨[], rest, nofun, rfl, rfl⟩
    · rw [if_neg hc]
      rcases ih (p.next c) with ⟨body, more, none, rfl, heq⟩ | ⟨none, heq⟩
      · exact .inl ⟨c :: body, more, by simp [none, Ne.symm hc], rfl, heq⟩
      · exact .inr ⟨by simp [none, Ne.symm hc], heq⟩

theorem skipBlock_spec (opened p : Position) (cs : List Char) :
    (∃ body rest, ¬ ['*', '/'] <:+: body ∧ cs = body ++ '*' :: '/' :: rest ∧
      skipBlock opened p cs = skip (p.after (body ++ ['*', '/'])) rest) ∨
    skipBlock opened p cs = .error opened := by
  induction cs generalizing p with
  | nil => exact .inr rfl
  | cons c rest ih =>
    by_cases close : ∃ more, c = '*' ∧ rest = '/' :: more
    · obtain ⟨more, rfl, rfl⟩ := close
      exact .inl ⟨[], more, by simp, rfl, rfl⟩
    · have step : skipBlock opened p (c :: rest) = skipBlock opened (p.next c) rest := by
        rw [skipBlock]
        exact fun more hc hrest => close ⟨more, hc, hrest⟩
      rw [step]
      rcases ih (p.next c) with ⟨body, more, none, rfl, heq⟩ | heq
      · refine .inl ⟨c :: body, more, ?_, rfl, heq⟩
        rw [List.infix_cons_iff]
        rintro (here | later)
        · obtain ⟨star, slash⟩ := List.cons_prefix_cons.mp here
          cases body with
          | nil => simp at slash
          | cons d body =>
            obtain ⟨rfl, -⟩ := List.cons_prefix_cons.mp slash
            exact close ⟨_, star.symm, rfl⟩
        · exact none later
      · exact .inr heq

theorem skipDirective_spec (p : Position) : (cs : List Char) →
    (∃ body rest, Continued body ∧ body.getLast? ≠ some '\\' ∧ cs = body ++ '\n' :: rest ∧
      skipDirective p cs = skip (p.after (body ++ ['\n'])) rest) ∨
    Continued cs ∧ skipDirective p cs = .ok ⟨[], p.after cs⟩
  | [] => .inr ⟨by simp [Continued], rfl⟩
  | c :: rest => by
    by_cases goesOn : ∃ more, c = '\\' ∧ rest = '\n' :: more
    · obtain ⟨more, rfl, rfl⟩ := goesOn
      rcases skipDirective_spec ((p.next '\\').next '\n') more with
        ⟨body, rest, continued, last, rfl, heq⟩ | ⟨continued, heq⟩
      · refine .inl ⟨'\\' :: '\n' :: body, rest, continued.newline, ?_, rfl, heq⟩
        exact getLast?_cons_ne (.inr nofun) (getLast?_cons_ne (.inl (by decide)) last)
      · exact .inr ⟨continued.newline, heq⟩
    · by_cases hc : c = '\n'
      · subst hc
        exact .inl ⟨[], rest, by simp [Continued], by simp, rfl, by simp [skipDirective]⟩
      · have step : skipDirective p (c :: rest) = skipDirective (p.next c) rest := by
          rw [skipDirective, if_neg hc]
          exact fun more hc hrest => goesOn ⟨more, hc, hrest⟩
        rw [step]
        rcases skipDirective_spec (p.next c) rest with
          ⟨body, more, continued, last, rfl, heq⟩ | ⟨continued, heq⟩
        · have inner : c ≠ '\\' ∨ body ≠ [] := by
            by_cases hb : body = []
            · exact .inl fun hc => goesOn ⟨more, hc, by rw [hb]; rfl⟩
            · exact .inr hb
          exact .inl ⟨c :: body, more, continued.cons hc, getLast?_cons_ne inner last, rfl, heq⟩
        · exact .inr ⟨continued.cons hc, heq⟩

/-- One thing that is skipped: a filler, what is open to the end of the text, or a comment that is not
closed; or nothing. -/
theorem skip_spec (p : Position) (cs : List Char) :
    (∃ filler rest, Filler filler ∧ cs = filler ++ rest ∧
      skip p cs = skip (p.after filler) rest) ∨
    OpenEnd cs ∧ skip p cs = .ok ⟨[], p.after cs⟩ ∨
    skip p cs = .error p ∨ skip p cs = .ok ⟨cs, p⟩ := by
  generalize result : skip p cs = r
  rw [skip.eq_def] at result
  split at result <;> subst result
  · rename_i rest
    rcases skipLine_spec ((p.next '/').next '/') rest with ⟨body, more, none, rfl, heq⟩ | ⟨none, heq⟩
    · exact .inl ⟨_, more, .line none, by simp, heq⟩
    · exact .inr (.inl ⟨.line none, heq⟩)
  · rename_i rest
    rcases skipBlock_spec p ((p.next '/').next '*') rest with ⟨body, more, none, rfl, heq⟩ | heq
    · exact .inl ⟨_, more, .block none, by simp, heq⟩
    · exact .inr (.inr (.inl heq))
  · rename_i rest
    rcases skipDirective_spec (p.next '#') rest with
      ⟨body, more, continued, last, rfl, heq⟩ | ⟨continued, heq⟩
    · exact .inl ⟨_, more, .directive continued last, by simp, heq⟩
    · exact .inr (.inl ⟨.directive continued, heq⟩)
  · rename_i c rest _ _ _
    split
    · rename_i space
      refine .inl ⟨[c], rest, .blank ?_, rfl, rfl⟩
      simpa [isSpace, or_assoc] using space
    · exact .inr (.inr (.inr rfl))
  · exact .inr (.inr (.inr rfl))

/-- What is skipped is a gap, and where it ends is counted along it. -/
theorem skip_eq_ok {p : Position} {cs : List Char} {here : Cursor} (h : skip p cs = .ok here) :
    ∃ gap, cs = gap ++ here.rest ∧ here.pos = p.after gap ∧
      (Gap gap ∨ here.rest = [] ∧ LastGap gap) := by
  generalize size : cs.length = n
  induction n using Nat.strongRecOn generalizing p cs with
  | ind n ih =>
    rcases skip_spec p cs with ⟨filler, rest, hf, rfl, heq⟩ | ⟨hopen, heq⟩ | heq | heq
    · have shorter : rest.length < n := by
        have := List.length_pos_iff.mpr hf.ne_nil
        rw [List.length_append] at size
        omega
      obtain ⟨gap, rfl, pos, hgap⟩ := ih rest.length shorter (heq ▸ h) rfl
      refine ⟨filler ++ gap, by rw [List.append_assoc], by rw [pos, Position.after_append], ?_⟩
      rcases hgap with hgap | ⟨last, front, back, rfl, hfront, hback⟩
      · exact .inl (.cons hf hgap)
      · exact .inr ⟨last, filler ++ front, back, by rw [List.append_assoc], .cons hf hfront, hback⟩
    · cases heq.symm.trans h
      exact ⟨cs, by simp, rfl, .inr ⟨rfl, [], cs, rfl, .nil, .inr hopen⟩⟩
    · exact nomatch heq.symm.trans h
    · cases heq.symm.trans h
      exact ⟨[], rfl, rfl, .inl .nil⟩

theorem drop_eq (n : Nat) (cursor : Cursor) :
    cursor.drop n = ⟨cursor.rest.drop n, cursor.pos.after (cursor.rest.take n)⟩ := by
  induction n generalizing cursor with
  | zero => rfl
  | succ n ih =>
    obtain ⟨rest, pos⟩ := cursor
    cases rest with
    | nil => rfl
    | cons c rest => exact ih ⟨rest, pos.next c⟩

/-! Tokens take characters -/

theorem exists_ok_of_map {ε α β : Type} {x : Except ε α} {f : α → β} {b : β}
    (h : x.map f = .ok b) : ∃ a, x = .ok a ∧ f a = b := by
  cases x with
  | error e => cases h
  | ok a => exact ⟨a, rfl, Except.ok.inj h⟩

theorem stringBody_length {n k : Nat} {cs text : List Char} (h : stringBody n cs = .ok (text, k)) :
    n < k ∧ k ≤ n + cs.length := by
  fun_induction stringBody n cs generalizing text k with
  | case1 n rest =>
    cases h
    simp
  | case3 n c rest e known ih =>
    obtain ⟨r, hr, heq⟩ := exists_ok_of_map h
    cases heq
    have := ih hr
    simp only [List.length_cons]
    omega
  | case6 n c rest _ _ _ _ ih =>
    obtain ⟨r, hr, heq⟩ := exists_ok_of_map h
    cases heq
    have := ih hr
    simp only [List.length_cons]
    omega
  | _ => cases h

theorem closeChar_length {n k : Nat} {c : Char} {rest : List Char} {token : Token}
    (h : closeChar n c rest = .ok (token, k)) : token ≠ .eof ∧ k = n + 1 ∧ rest ≠ [] := by
  unfold closeChar at h
  split at h
  · cases h
  · split at h
    · cases h
      exact ⟨nofun, rfl, nofun⟩
    · cases h

theorem charLiteral_length {k : Nat} {cs : List Char} {token : Token}
    (h : charLiteral cs = .ok (token, k)) : token ≠ .eof ∧ 0 < k ∧ k ≤ cs.length + 1 := by
  have closed {n : Nat} {c : Char} {rest : List Char} (h : closeChar n c rest = .ok (token, k))
      (size : cs.length + 1 = n + rest.length) : token ≠ .eof ∧ 0 < k ∧ k ≤ cs.length + 1 := by
    obtain ⟨plain, rfl, ne⟩ := closeChar_length h
    have := List.length_pos_iff.mpr ne
    exact ⟨plain, by omega, by omega⟩
  unfold charLiteral at h
  split at h
  · cases h
  · cases h
  · split at h
    · cases h
    · exact closed h (by simp; omega)
  · split at h
    · cases h
    · exact closed h (by simp; omega)

theorem hexLiteral_length {k : Nat} {cs : List Char} {token : Token}
    (h : hexLiteral cs = .ok (token, k)) : token ≠ .eof ∧ 0 < k ∧ k ≤ cs.length + 2 := by
  unfold hexLiteral at h
  dsimp only at h
  split at h
  · cases h
  · cases h
    have := (List.takeWhile_sublist (p := Decimal.isHexDigit) (l := cs)).length_le
    exact ⟨nofun, by omega, by omega⟩

end Lexer

namespace Decimal

theorem length_of_readExponent? {cs rest : List Char} {e : Bool × List Char}
    (h : readExponent? cs = some (e, rest)) : rest.length < cs.length := by
  have dropped (ds : List Char) : (ds.dropWhile isDigit).length ≤ ds.length :=
    (List.dropWhile_sublist _).length_le
  unfold readExponent? at h
  split at h
  · rename_i mark sign digit more
    have := dropped more
    have := dropped (digit :: more)
    split at h
    · split at h
      · cases h
        simp only [List.length_cons] at *
        omega
      · split at h
        · cases h
          simp only [List.length_cons]
          omega
        · cases h
    · cases h
  · split at h
    · cases h
      simp
    · cases h
  · cases h

/-- A numeral takes a character at least when a digit or a point stands at the front. -/
theorem Numeral.length_of_read {c : Char} {cs : List Char} (h : isDigit c ∨ c = '.') :
    (Numeral.read (c :: cs)).2.length < (c :: cs).length := by
  have dropped (ds : List Char) : (ds.dropWhile isDigit).length ≤ ds.length :=
    (List.dropWhile_sublist _).length_le
  have exponent {rest more : List Char} {e : Bool × List Char} (shorter : rest.length < (c :: cs).length)
      (found : readExponent? rest = some (e, more)) : more.length < (c :: cs).length :=
    Nat.lt_trans (length_of_readExponent? found) shorter
  unfold Numeral.read
  dsimp only
  cases tail : (c :: cs).dropWhile isDigit with
  | nil => simp [readExponent?]
  | cons d more =>
    have bound := dropped (c :: cs)
    rw [tail] at bound
    by_cases point : d = '.'
    · subst point
      have shorter : (more.dropWhile isDigit).length < (c :: cs).length :=
        Nat.lt_of_le_of_lt (dropped more) bound
      split
      · exact exponent shorter ‹_›
      · exact shorter
    · have digit : isDigit c := by
        rcases h with digit | rfl
        · exact digit
        · exact absurd (List.cons.inj tail).1.symm point
      have shorter : (d :: more).length < (c :: cs).length := by
        rw [← tail, List.dropWhile_cons, if_pos digit]
        exact Nat.lt_succ_of_le (dropped cs)
      split
      · rename_i found
        split at found
        · exact absurd (List.cons.inj ‹_›).1 point
        · exact exponent shorter found
      · split
        · exact absurd (List.cons.inj ‹_›).1 point
        · exact shorter

end Decimal

theorem Symbol.length_pos (s : Symbol) : 0 < s.spelling.length := by
  cases s <;> decide

namespace Lexer

theorem decimalLiteral_length {k : Nat} {cs : List Char} {token : Token}
    (h : decimalLiteral cs = .ok (token, k)) (shorter : (Decimal.Numeral.read cs).2.length < cs.length) :
    token ≠ .eof ∧ 0 < k ∧ k ≤ cs.length := by
  unfold decimalLiteral at h
  generalize Decimal.Numeral.read cs = read at h shorter
  obtain ⟨numeral, rest⟩ := read
  dsimp only at h shorter
  split at h
  · cases h
    refine ⟨nofun, by omega, ?_⟩
    split
    · rw [List.length_cons] at *
      split <;> omega
    · omega
  · split at h
    · cases h
      exact ⟨nofun, by omega, by omega⟩
    · cases h

/-- A token takes at least one character, and none that is not there. -/
theorem lexeme_length {cs : List Char} {token : Token} {k : Nat} (h : lexeme cs = .ok (token, k))
    (ne : cs ≠ []) : token ≠ .eof ∧ 0 < k ∧ k ≤ cs.length := by
  unfold lexeme at h
  split at h
  · exact absurd rfl ne
  · obtain ⟨r, hr, heq⟩ := exists_ok_of_map h
    cases heq
    have := stringBody_length hr
    simp only [List.length_cons]
    exact ⟨nofun, by omega, by omega⟩
  · exact charLiteral_length h
  · exact hexLiteral_length h
  · exact hexLiteral_length h
  · rename_i c rest _ _ _ _
    split at h
    · rename_i digit
      refine decimalLiteral_length h (Decimal.Numeral.length_of_read ?_)
      simp only [Bool.or_eq_true, Bool.and_eq_true, decide_eq_true_eq] at digit
      exact digit.imp_right And.left
    · split at h
      · rename_i name
        cases h
        have named : (wordToken (String.ofList ((c :: rest).takeWhile isNamePart))) ≠ .eof := by
          unfold wordToken
          split
          · nofun
          · split <;> nofun
        refine ⟨named, ?_, (List.takeWhile_sublist _).length_le⟩
        rw [List.takeWhile_cons, if_pos (by simp [isNamePart, name])]
        exact Nat.succ_pos _
      · split at h
        · rename_i sym found
          cases h
          have inside := List.isPrefixOf_iff_prefix.mp (List.find?_some found :)
          exact ⟨nofun, Symbol.length_pos sym, inside.length_le⟩
        · cases h

end Lexer

/-- A text that follows the text `before`, and its tokens. In front of each there is a gap, each is what
the lexer takes off the front there, and each has the position behind all that comes before it. The end
of the text stands behind the last gap. -/
inductive Laid : List Char → List Char → List Lexeme → Prop where
  | token {before gap text rest : List Char} {token : Token} {lexemes : List Lexeme} (front : Gap gap)
      (taken : text ≠ []) (plain : token ≠ .eof)
      (read : Lexer.lexeme (text ++ rest) = .ok (token, text.length))
      (more : Laid (before ++ gap ++ text) rest lexemes) :
      Laid before (gap ++ text ++ rest) (⟨token, .behind (before ++ gap)⟩ :: lexemes)
  | last {before gap : List Char} (back : LastGap gap) :
      Laid before gap [⟨.eof, .behind (before ++ gap)⟩]

namespace Laid

variable {before rest : List Char} {lexemes : List Lexeme}

theorem of_tokensFrom {rounds : Nat} {pos : Position} (enough : rest.length < rounds)
    (start : pos = .behind before) (h : Lexer.tokensFrom rounds ⟨rest, pos⟩ = .ok lexemes) :
    Laid before rest lexemes := by
  induction rounds generalizing before rest pos lexemes with
  | zero => omega
  | succ rounds ih =>
    rw [Lexer.tokensFrom] at h
    cases skipped : Lexer.skip pos rest with
    | error opened =>
      rw [skipped] at h
      cases h
    | ok here =>
      rw [skipped] at h
      obtain ⟨gap, rfl, at_, hgap⟩ := Lexer.skip_eq_ok skipped
      obtain ⟨rest, pos'⟩ := here
      have there : pos' = .behind (before ++ gap) := by
        rw [← Position.after_start, Position.after_append, Position.after_start, ← start]
        exact at_
      subst there
      dsimp only at h enough hgap
      cases rest with
      | nil =>
        cases h
        rw [List.append_nil]
        refine .last ?_
        rcases hgap with hgap | ⟨-, hgap⟩
        · exact ⟨gap, [], by simp, hgap, .inl rfl⟩
        · exact hgap
      | cons c rest =>
        have front : Gap gap := hgap.resolve_right fun hlast => nomatch hlast.1
        rw [List.isEmpty_cons, if_neg (by simp)] at h
        cases read : Lexer.lexeme (c :: rest) with
        | error e =>
          rw [read] at h
          cases h
        | ok r =>
          obtain ⟨token, length⟩ := r
          obtain ⟨plain, positive, inside⟩ := Lexer.lexeme_length read nofun
          rw [read] at h
          obtain ⟨more, hmore, rfl⟩ := Lexer.exists_ok_of_map h
          rw [Lexer.drop_eq] at hmore
          -- the token is what was taken off the front
          have size : ((c :: rest).take length).length = length := List.length_take_of_le inside
          have taken : (c :: rest).take length ≠ [] := by
            rw [← List.length_pos_iff, size]
            exact positive
          have parts : gap ++ c :: rest = gap ++ (c :: rest).take length ++ (c :: rest).drop length := by
            rw [List.append_assoc, List.take_append_drop]
          rw [parts]
          refine .token front taken plain (by rw [List.take_append_drop, size, read]) (ih ?_ ?_ hmore)
          · rw [List.length_drop]
            rw [List.length_append] at enough
            omega
          · rw [← Position.after_start, ← Position.after_start, Position.after_append _ (before ++ gap)]

theorem tokens {source : String} {lexemes : List Lexeme} (h : tokenize source = .ok lexemes) :
    Laid [] source.toList lexemes :=
  of_tokensFrom (Nat.lt_succ_self _) rfl h

/-- All tokens stand behind what comes before the text. -/
theorem starts (h : Laid before rest lexemes) : ∀ x ∈ lexemes, ∃ gap, x.pos = .behind (before ++ gap) := by
  induction h with
  | token front taken plain read more ih =>
    intro x hx
    rcases List.mem_cons.mp hx with rfl | hx
    · exact ⟨_, rfl⟩
    · obtain ⟨gap, pos⟩ := ih x hx
      exact ⟨_, by rw [pos, List.append_assoc, List.append_assoc]⟩
  | last back =>
    intro x hx
    obtain rfl := List.mem_singleton.mp hx
    exact ⟨_, rfl⟩

/-- Each token stands before the next. -/
theorem ordered (h : Laid before rest lexemes) : lexemes.Pairwise fun x y => x.pos.Before y.pos := by
  induction h with
  | token front taken plain read more ih =>
    refine .cons (fun y hy => ?_) ih
    obtain ⟨gap, pos⟩ := more.starts y hy
    rw [pos, List.append_assoc]
    exact Position.before_behind _ fun heq => taken (List.append_eq_nil_iff.mp heq).1
  | last back => exact List.pairwise_singleton _ _

/-- A token, unlike the end of the text, has a character behind its position. -/
theorem mem_text (h : Laid before rest lexemes) : ∀ x ∈ lexemes, x.token ≠ .eof →
    ∃ front c back, before ++ rest = front ++ c :: back ∧ x.pos = .behind front := by
  induction h with
  | @token before gap text rest token lexemes front taken plain read more ih =>
    intro x hx hplain
    rcases List.mem_cons.mp hx with rfl | hx
    · obtain ⟨c, text, rfl⟩ := List.exists_cons_of_ne_nil taken
      exact ⟨before ++ gap, c, text ++ rest, by simp, rfl⟩
    · obtain ⟨front, c, back, heq, pos⟩ := ih x hx hplain
      exact ⟨front, c, back, by rw [← heq]; simp, pos⟩
  | last back =>
    intro x hx hplain
    obtain rfl := List.mem_singleton.mp hx
    exact absurd rfl hplain

end Laid

/-- The line of a character of a text is one of its lines. -/
theorem Text.length_lines (front : List Char) (c : Char) (back : List Char) :
    front.count '\n' < (Text.lines (front ++ c :: back)).length := by
  have grows (c : Char) (cs : List Char) : 0 < (Text.lines (c :: cs)).length := by
    unfold Text.lines
    split
    · exact Nat.succ_pos _
    · split <;> exact Nat.succ_pos _
  induction front with
  | nil => exact grows c back
  | cons d front ih =>
    rw [List.cons_append, Text.lines]
    by_cases hd : d = '\n'
    · rw [if_pos hd, hd, List.count_cons_self, List.length_cons]
      exact Nat.succ_lt_succ ih
    · rw [if_neg hd, List.count_cons_of_ne hd]
      split
      · rename_i none
        rw [none] at ih
        exact absurd ih (Nat.not_lt_zero _)
      · rename_i line more some
        rw [some] at ih
        exact ih

end Stepwise
