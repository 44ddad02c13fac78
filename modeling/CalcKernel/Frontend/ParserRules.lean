import CalcKernel.Frontend.Grammar
import CalcKernel.Frontend.ParserProgress

/-!
# How expressions are parsed

The tree of a parsed expression leaves out spans and the parentheses that were
written.  Each branch of the functions on expressions is a rule about their results
with enough fuel.
-/

namespace CalcKernel

open Lib

namespace Expression

mutual

/-- The tree of an expression without error nodes. -/
def tree? : Expression → Option Tree
  | .identifier name _ => some (.identifier name)
  | .integerLiteral text _ => some (.integer text)
  | .floatLiteral text _ => some (.float text)
  | .boolLiteral value _ => some (.bool value)
  | .unary operator operand _ => do
      return .unary (← UnaryOperator.ofText? operator) (← tree? operand)
  | .binary operator left right _ => do
      return .binary (← BinaryOperator.ofText? operator) (← tree? left) (← tree? right)
  | .call callee args _ => do return .call (← tree? callee) (← trees? args)
  | .sliceConstructor data len _ => do return .sliceConstructor (← tree? data) (← tree? len)
  | .field object name _ => do return .field (← tree? object) name.name
  | .index object position _ => do return .index (← tree? object) (← tree? position)
  | .subslice slice start stop _ => do
      return .subslice (← tree? slice) (← tree? start) (← tree? stop)
  | .parenthesized expression _ => tree? expression
  | .error _ => none

def trees? : List Expression → Option (List Tree)
  | [] => some []
  | arg :: args => do return (← tree? arg) :: (← trees? args)

end

example (span : SourceSpan) :
    (Expression.parenthesized (.integerLiteral "1" span) span).tree? = some (.integer "1") := by
  simp [tree?]

end Expression

/-! ## Tokens and states -/

namespace Parser

/-- The tokens from the current one on. -/
def ahead (parser : Parser) : List Token := parser.current :: parser.after

variable {p : Parser} {token : Token} {rest : List Token}

theorem current_of_ahead (h : p.ahead = token :: rest) : p.current = token := by
  injection h

theorem ahead_next (h : p.ahead = token :: rest) (hkind : token.kind ≠ .eof) (hrest : rest ≠ []) :
    p.next.ahead = rest := by
  injection h with hcurrent hafter
  rw [next, if_neg (hcurrent ▸ hkind), hafter]
  cases rest with
  | nil => exact absurd rfl hrest
  | cons head tail => rfl

@[simp] theorem diagnostics_next : p.next.diagnostics = p.diagnostics := by
  unfold next
  split
  · rfl
  · split <;> rfl

end Parser

namespace Parse

variable {α β : Type} {m : Parse α} {f : α → Parse β} {A B : Parse α} {p q : Parser} {a : α}
  {kind : TokenKind}

theorem bind_run (h : m p = some (a, q)) : (m >>= f) p = f a q := by
  change Option.bind (m p) (fun x ↦ f x.1 x.2) = _
  rw [h]
  rfl

theorem checkIte_run : (do if ← checkToken kind then A else B : Parse α) p =
    if p.current.kind = kind then A p else B p := by
  change (if p.check kind = true then A else B) p = _
  by_cases h : p.current.kind = kind
  · rw [if_pos h, if_pos (Parser.check_iff.mpr h)]
  · rw [if_neg h, if_neg fun hc ↦ h (Parser.check_iff.mp hc)]

theorem matchIte_run : (do if ← matchToken kind then A else B : Parse α) p =
    if p.current.kind = kind then A p.next else B p := by
  by_cases h : p.current.kind = kind
  · rw [if_pos h]
    refine (bind_run (a := true) (q := p.next) ?_).trans (by rw [if_pos rfl])
    change (if p.check kind = true then _ else _ : Parse Bool) p = _
    rw [if_pos (Parser.check_iff.mpr h)]
    rfl
  · rw [if_neg h]
    refine (bind_run (a := false) (q := p) ?_).trans (by rw [if_neg Bool.false_ne_true])
    change (if p.check kind = true then _ else _ : Parse Bool) p = _
    rw [if_neg fun hc ↦ h (Parser.check_iff.mp hc)]
    rfl

theorem consume_run (h : p.current.kind = kind) (message : String) :
    consume kind message p = some (p.current, p.next) := by
  change (if p.check kind = true then _ else _ : Parse Token) p = _
  rw [if_pos (Parser.check_iff.mpr h)]
  rfl

end Parse

/-- With enough fuel the program returns this result. -/
def Parses {α : Type} (f : Nat → Parse α) (p : Parser) (a : α) (q : Parser) : Prop :=
  ∃ enough, ∀ fuel, enough ≤ fuel → f fuel p = some (a, q)

namespace Parses

section

variable {α β : Type} {f g : Nat → Parse α} {m : Nat → Parse β} {p q r : Parser} {a : α} {b : β}

/-- One unit of fuel is used up by the call. -/
theorem step (hg : Parses g q a r) (hf : ∀ fuel, f (fuel + 1) p = g fuel q) : Parses f p a r := by
  obtain ⟨enough, hg⟩ := hg
  refine ⟨enough + 1, fun fuel hfuel ↦ ?_⟩
  obtain ⟨n, rfl⟩ : ∃ n, fuel = n + 1 := ⟨fuel - 1, by omega⟩
  rw [hf, hg n (by omega)]

theorem bind (h : β → Nat → Parse α) (hm : Parses m p b q) (hh : Parses (h b) q a r) :
    Parses (fun fuel ↦ m fuel >>= fun b ↦ h b fuel) p a r := by
  obtain ⟨enough, hm⟩ := hm
  obtain ⟨enough', hh⟩ := hh
  refine ⟨enough + enough', fun fuel hfuel ↦ ?_⟩
  exact (Parse.bind_run (hm fuel (by omega))).trans (hh fuel (by omega))

theorem of_run {m : Parse α} (h : m p = some (a, q)) : Parses (fun _ ↦ m) p a q :=
  ⟨0, fun _ _ ↦ h⟩

end

/-! ## Rules for the functions on expressions -/

variable {p q r s t : Parser} {e e' : Expression} {k : Nat}

theorem expression (hunary : Parses parseUnaryExpression p e q)
    (hoperators : Parses (parseBinaryOperators · k e) q e' r) :
    Parses (parseExpression · k) p e' r := by
  apply (bind (fun e fuel ↦ parseBinaryOperators fuel k e) hunary hoperators).step
  intro fuel
  rw [parseExpression]

theorem operators_stop (h : binaryPrecedence p.current.kind < k) :
    Parses (parseBinaryOperators · k e) p e p := by
  refine step (g := fun _ ↦ pure e) (of_run rfl) fun fuel ↦ ?_
  rw [parseBinaryOperators]
  exact (Parse.bind_run rfl).trans (by rw [if_pos h])

theorem operators_step {right : Expression} (h : k ≤ binaryPrecedence p.current.kind)
    (hright : Parses (parseExpression · (binaryPrecedence p.current.kind + 1)) p.next right q)
    (hoperators : Parses (parseBinaryOperators · k (.binary p.current.text e right
      ⟨e.span.start, right.span.stop⟩)) q e' r) : Parses (parseBinaryOperators · k e) p e' r := by
  apply (bind (fun right fuel ↦ parseBinaryOperators fuel k (.binary p.current.text e right
    ⟨e.span.start, right.span.stop⟩)) hright hoperators).step
  intro fuel
  rw [parseBinaryOperators]
  refine (Parse.bind_run (a := p.current) (q := p) rfl).trans ?_
  rw [if_neg (by omega)]
  exact Parse.bind_run rfl

theorem unary_operator (h : p.current.kind = .bang ∨ p.current.kind = .minus)
    (hoperand : Parses (parseExpression · 7) p.next e q) :
    Parses parseUnaryExpression p
      (.unary p.current.text e ⟨p.current.position, e.span.stop⟩) q := by
  apply (bind (fun operand _ ↦ pure (.unary p.current.text operand
    ⟨p.current.position, operand.span.stop⟩)) hoperand (of_run rfl)).step
  intro fuel
  have hcheck : (p.check .bang || p.check .minus) = true := by
    simpa [Parser.check] using h
  rw [parseUnaryExpression]
  change (if (p.check .bang || p.check .minus) = true then _ else _ : Parse Expression) p = _
  rw [if_pos hcheck]
  exact Parse.bind_run rfl

theorem unary_primary (h : p.current.kind ≠ .bang) (h' : p.current.kind ≠ .minus)
    (hprimary : Parses parsePrimaryExpression p e q)
    (htrailing : Parses (parsePostfixExpression · e) q e' r) :
    Parses parseUnaryExpression p e' r := by
  apply (bind (fun e fuel ↦ parsePostfixExpression fuel e) hprimary htrailing).step
  intro fuel
  have hcheck : ¬ (p.check .bang || p.check .minus) = true := by
    simp [Parser.check, h, h']
  rw [parseUnaryExpression]
  change (if (p.check .bang || p.check .minus) = true then _ else _ : Parse Expression) p = _
  rw [if_neg hcheck]

theorem postfix_stop (hparen : p.current.kind ≠ .leftParen) (hdot : p.current.kind ≠ .dot)
    (hbracket : p.current.kind ≠ .leftBracket) : Parses (parsePostfixExpression · e) p e p := by
  refine step (g := fun _ ↦ pure e) (of_run rfl) fun fuel ↦ ?_
  rw [parsePostfixExpression]
  simp only [Parse.matchIte_run, hparen, hdot, hbracket, if_false]

theorem postfix_call {args : List Expression} (h : p.current.kind = .leftParen)
    (hargs : Parses parseArgumentList p.next args q) (hparen : q.current.kind = .rightParen)
    (htrailing : Parses (parsePostfixExpression ·
      (.call e args ⟨e.span.start, q.current.endPosition⟩)) q.next e' r) :
    Parses (parsePostfixExpression · e) p e' r := by
  apply (bind (fun args fuel ↦ consume .rightParen "Expected ')' after arguments." >>= fun token ↦
    parsePostfixExpression fuel (.call e args ⟨e.span.start, token.endPosition⟩)) hargs
    (bind (fun token fuel ↦ parsePostfixExpression fuel
      (.call e args ⟨e.span.start, token.endPosition⟩))
      (of_run (Parse.consume_run hparen _)) htrailing)).step
  intro fuel
  rw [parsePostfixExpression, Parse.matchIte_run, if_pos h]

theorem postfix_field (h : p.current.kind = .dot) (hname : p.next.current.kind = .identifier)
    (htrailing : Parses (parsePostfixExpression · (.field e
      ⟨p.next.current.text, p.next.current.span⟩
      ⟨e.span.start, p.next.current.span.stop⟩)) p.next.next e' r) :
    Parses (parsePostfixExpression · e) p e' r := by
  have hidentifier : parseIdentifier "Expected field name after '.'." p.next =
      some (⟨p.next.current.text, p.next.current.span⟩, p.next.next) :=
    (Parse.bind_run (Parse.consume_run hname _)).trans rfl
  apply (bind (fun name fuel ↦ parsePostfixExpression fuel
    (.field e name ⟨e.span.start, name.span.stop⟩)) (of_run hidentifier) htrailing).step
  intro fuel
  rw [parsePostfixExpression, Parse.matchIte_run, if_neg (by simp [h]), Parse.matchIte_run,
    if_pos h]

/-- What the brackets hold when it is an index. -/
theorem postfix_index {position : Expression} (h : p.current.kind = .leftBracket)
    (hstart : p.next.current.kind ≠ .dotDot)
    (hposition : Parses (parseExpression · 1) p.next position q)
    (hbracket : q.current.kind = .rightBracket)
    (htrailing : Parses (parsePostfixExpression ·
      (.index e position ⟨e.span.start, q.current.endPosition⟩)) q.next e' r) :
    Parses (parsePostfixExpression · e) p e' r := by
  obtain ⟨enough, htrailing⟩ := htrailing
  obtain ⟨enough', hposition⟩ := hposition
  refine ⟨enough + enough' + 1, fun fuel hfuel ↦ ?_⟩
  obtain ⟨n, rfl⟩ : ∃ n, fuel = n + 1 := ⟨fuel - 1, by omega⟩
  have hdotDot : q.current.kind ≠ .dotDot := by simp [hbracket]
  simp only
  rw [parsePostfixExpression]
  simp only [Parse.matchIte_run, Parse.checkIte_run, h, hstart, reduceCtorEq, if_true, if_false]
  rw [Parse.bind_run (hposition n (by omega)), Parse.matchIte_run, if_neg hdotDot,
    Parse.bind_run (Parse.consume_run hbracket _)]
  exact htrailing n (by omega)

theorem postfix_subslice {start stop : Expression} (h : p.current.kind = .leftBracket)
    (hstart : p.next.current.kind ≠ .dotDot)
    (hparseStart : Parses (parseExpression · 1) p.next start q)
    (hdots : q.current.kind = .dotDot) (hstop : q.next.current.kind ≠ .rightBracket)
    (hparseStop : Parses (parseExpression · 1) q.next stop r)
    (hbracket : r.current.kind = .rightBracket)
    (htrailing : Parses (parsePostfixExpression ·
      (.subslice e start stop ⟨e.span.start, r.current.endPosition⟩)) r.next e' s) :
    Parses (parsePostfixExpression · e) p e' s := by
  obtain ⟨enough, htrailing⟩ := htrailing
  obtain ⟨enough₁, hparseStart⟩ := hparseStart
  obtain ⟨enough₂, hparseStop⟩ := hparseStop
  refine ⟨enough + enough₁ + enough₂ + 1, fun fuel hfuel ↦ ?_⟩
  obtain ⟨n, rfl⟩ : ∃ n, fuel = n + 1 := ⟨fuel - 1, by omega⟩
  have hdotDot : r.current.kind ≠ .dotDot := by simp [hbracket]
  simp only
  rw [parsePostfixExpression]
  simp only [Parse.matchIte_run, Parse.checkIte_run, h, hstart, reduceCtorEq, if_true, if_false]
  rw [Parse.bind_run (hparseStart n (by omega)), Parse.matchIte_run, if_pos hdots,
    Parse.checkIte_run, if_neg hstop, Parse.bind_run (hparseStop n (by omega)),
    Parse.checkIte_run, if_neg hdotDot, Parse.bind_run (Parse.consume_run hbracket _)]
  exact htrailing n (by omega)

theorem arguments_last (harg : Parses (parseExpression · 1) p e q)
    (hcomma : q.current.kind ≠ .comma) : Parses parseArguments p [e] q := by
  refine (bind (fun e fuel ↦ (do
    if ← matchToken .comma then
      let rest ← parseArguments fuel
      return e :: rest
    else return [e] : Parse _)) harg ⟨0, fun fuel _ ↦ ?_⟩).step fun fuel ↦ by rw [parseArguments]
  beta_reduce
  rw [Parse.matchIte_run, if_neg hcomma]
  rfl

theorem arguments_cons {rest : List Expression} (harg : Parses (parseExpression · 1) p e q)
    (hcomma : q.current.kind = .comma) (hrest : Parses parseArguments q.next rest r) :
    Parses parseArguments p (e :: rest) r := by
  obtain ⟨enough, hrest⟩ := hrest
  refine (bind (fun e fuel ↦ (do
    if ← matchToken .comma then
      let rest ← parseArguments fuel
      return e :: rest
    else return [e] : Parse _)) harg ⟨enough, fun fuel hfuel ↦ ?_⟩).step
      fun fuel ↦ by rw [parseArguments]
  beta_reduce
  rw [Parse.matchIte_run, if_pos hcomma]
  exact Parse.bind_run (hrest fuel hfuel)

theorem argumentList_nil (h : p.current.kind = .rightParen) :
    Parses parseArgumentList p [] p := by
  refine step (g := fun _ ↦ pure []) (of_run rfl) fun fuel ↦ ?_
  rw [parseArgumentList, Parse.checkIte_run, if_pos h]

theorem argumentList_cons {args : List Expression} (h : p.current.kind ≠ .rightParen)
    (hargs : Parses parseArguments p args q) : Parses parseArgumentList p args q := by
  apply hargs.step
  intro fuel
  rw [parseArgumentList, Parse.checkIte_run, if_neg h]

/-- The primary expressions of one token. -/
def atomOf (token : Token) : Option Expression :=
  match token.kind with
  | .integer => some (.integerLiteral token.text token.span)
  | .float => some (.floatLiteral token.text token.span)
  | .kwTrue => some (.boolLiteral true token.span)
  | .kwFalse => some (.boolLiteral false token.span)
  | .identifier => some (.identifier token.text token.span)
  | _ => none

theorem primary_atom (h : atomOf p.current = some e) : Parses parsePrimaryExpression p e p.next := by
  refine step (g := fun _ _ ↦ some (e, p.next)) (q := p) ⟨0, fun _ _ ↦ rfl⟩ fun fuel ↦ ?_
  rw [parsePrimaryExpression]
  refine (Parse.bind_run (a := p.current) (q := p) rfl).trans ?_
  simp only [Parse.matchIte_run]
  unfold atomOf at h
  split at h
  case h_6 => cases h
  all_goals
    rename_i hkind
    cases h
    simp only [hkind, reduceCtorEq, if_true, if_false]
    rfl

theorem primary_parens (h : p.current.kind = .leftParen)
    (hexpression : Parses (parseExpression · 1) p.next e q) (hparen : q.current.kind = .rightParen) :
    Parses parsePrimaryExpression p
      (.parenthesized e ⟨p.current.position, q.current.endPosition⟩) q.next := by
  obtain ⟨enough, hexpression⟩ := hexpression
  refine ⟨enough + 1, fun fuel hfuel ↦ ?_⟩
  obtain ⟨n, rfl⟩ : ∃ n, fuel = n + 1 := ⟨fuel - 1, by omega⟩
  rw [parsePrimaryExpression]
  refine (Parse.bind_run (a := p.current) (q := p) rfl).trans ?_
  simp only [Parse.matchIte_run, h, reduceCtorEq, if_true, if_false]
  rw [Parse.bind_run (hexpression n (by omega)), Parse.bind_run (Parse.consume_run hparen _)]
  rfl

theorem primary_slice {data len : Expression} (h : p.current.kind = .kwSlice)
    (hparen : p.next.current.kind = .leftParen)
    (hdata : Parses (parseExpression · 1) p.next.next data q) (hcomma : q.current.kind = .comma)
    (hlen : Parses (parseExpression · 1) q.next len r) (hclose : r.current.kind = .rightParen) :
    Parses parsePrimaryExpression p
      (.sliceConstructor data len ⟨p.current.position, r.current.endPosition⟩) r.next := by
  obtain ⟨enough, hdata⟩ := hdata
  obtain ⟨enough', hlen⟩ := hlen
  refine ⟨enough + enough' + 1, fun fuel hfuel ↦ ?_⟩
  obtain ⟨n, rfl⟩ : ∃ n, fuel = n + 1 := ⟨fuel - 1, by omega⟩
  rw [parsePrimaryExpression]
  refine (Parse.bind_run (a := p.current) (q := p) rfl).trans ?_
  simp only [Parse.matchIte_run, h, reduceCtorEq, if_true, if_false]
  rw [Parse.bind_run (Parse.consume_run hparen _), Parse.bind_run (hdata n (by omega)),
    Parse.bind_run (Parse.consume_run hcomma _), Parse.bind_run (hlen n (by omega)),
    Parse.bind_run (Parse.consume_run hclose _)]
  rfl

end Parses

end CalcKernel
