import CalcKernel.Frontend.ParserComplete

/-!
# What is parsed is derived

Where nothing is reported, the tokens consumed are a spelling of the tree returned, and
no expression continues with the token behind them.
-/

namespace CalcKernel

open Lib

namespace Parser

def errors (parser : Parser) : Nat := parser.diagnostics.length

/-- The tokens ahead are spelled as their kinds ask, and they end. -/
structure WellFormed (parser : Parser) : Prop where
  spelled : ∀ token ∈ parser.ahead, token.WellSpelled
  ends : ∃ token ∈ parser.ahead, token.kind = .eof

variable {p : Parser}

@[simp] theorem errors_next : p.next.errors = p.errors := by
  rw [errors, diagnostics_next, errors]

@[simp] theorem errors_report (token : Token) (code : DiagnosticCode) (message : String) :
    (p.report token code message).errors = p.errors + 1 := by
  simp [errors, report]

theorem WellFormed.current (h : p.WellFormed) : p.current.WellSpelled :=
  h.spelled p.current List.mem_cons_self

theorem WellFormed.ahead_eq (h : p.WellFormed) (hkind : p.current.kind ≠ .eof) :
    p.ahead = p.current :: p.next.ahead := by
  obtain ⟨token, hmem, heof⟩ := h.ends
  have hafter : p.after ≠ [] := by
    intro hnil
    rw [ahead, hnil, List.mem_singleton] at hmem
    exact hkind (hmem ▸ heof)
  rw [ahead_next (show p.ahead = p.current :: p.after from rfl) hkind hafter]
  rfl

theorem WellFormed.next (h : p.WellFormed) : p.next.WellFormed := by
  by_cases hkind : p.current.kind = .eof
  · rwa [Parser.next, if_pos hkind]
  · have hahead := h.ahead_eq hkind
    obtain ⟨token, hmem, heof⟩ := h.ends
    refine ⟨fun t ht ↦ h.spelled t ?_, token, ?_, heof⟩
    · rw [hahead]
      exact List.mem_cons_of_mem _ ht
    · rw [hahead] at hmem
      rcases List.mem_cons.mp hmem with rfl | hmem
      · exact absurd heof hkind
      · exact hmem

end Parser

/-- Reports only grow; where nothing is reported the condition holds. -/
def Cleanly {α : Type} (m : Parse α) (p : Parser) (Q : α → Parser → Prop) : Prop :=
  Ensures m p fun a q ↦ p.errors ≤ q.errors ∧
    (q.errors = p.errors → p.WellFormed → q.WellFormed ∧ Q a q)

namespace Cleanly

variable {α β : Type} {m : Parse α} {f : α → Parse β} {A B : Parse α} {p : Parser}
  {Q R : α → Parser → Prop} {S : β → Parser → Prop} {kind : TokenKind}

theorem pure {a : α} (h : Q a p) : Cleanly (Pure.pure a) p Q :=
  Ensures.pure ⟨le_rfl, fun _ hp ↦ ⟨hp, h⟩⟩

theorem failure : Cleanly (Alternative.failure : Parse α) p Q := Ensures.failure

theorem mono (h : Cleanly m p R) (hQ : ∀ a q, R a q → Q a q) : Cleanly m p Q := by
  refine Ensures.mono h ?_
  rintro a q ⟨hle, hclean⟩
  exact ⟨hle, fun heq hp ↦ ⟨(hclean heq hp).1, hQ a q (hclean heq hp).2⟩⟩

/-- What the first part ensures may be assumed of the second. -/
theorem bind (h : Cleanly m p R)
    (hf : ∀ a q, Cleanly (f a) q fun b r ↦ R a q → S b r) : Cleanly (m >>= f) p S := by
  refine Ensures.bind h ?_
  rintro a q ⟨hle, hclean⟩
  refine Ensures.mono (hf a q) ?_
  rintro b r ⟨hle', hclean'⟩
  refine ⟨hle.trans hle', fun heq hp ↦ ?_⟩
  obtain ⟨hq, hR⟩ := hclean (by omega) hp
  obtain ⟨hr, hS⟩ := hclean' (by omega) hq
  exact ⟨hr, hS hR⟩

theorem current {f : Token → Parse β} (h : Cleanly (f p.current) p S) :
    Cleanly (currentToken >>= f) p S := h

theorem check {f : Bool → Parse β} (h : Cleanly (f (p.check kind)) p S) :
    Cleanly (checkToken kind >>= f) p S := h

theorem advance : Cleanly advanceToken p fun token q ↦ token = p.current ∧
    (token.kind ≠ .eof → token.WellSpelled ∧ p.ahead = token :: q.ahead) := by
  intro token q h
  cases h
  refine ⟨Parser.errors_next.ge, fun _ hp ↦ ⟨hp.next, rfl, fun hkind ↦ ⟨hp.current, ?_⟩⟩⟩
  exact hp.ahead_eq hkind

/-- Behind a report only the growth of reports matters. -/
theorem report (token : Token) (code : DiagnosticCode) (message : String) {f : Unit → Parse β}
    (h : ∀ q, Cleanly (f ()) q fun _ _ ↦ True) :
    Cleanly (errorWithCode token code message >>= f) p S := by
  intro b r hr
  obtain ⟨hle, _⟩ := h (p.report token code message) b r hr
  rw [Parser.errors_report] at hle
  exact ⟨by omega, fun heq ↦ by omega⟩

theorem matchIte (hA : Cleanly A p.next fun a q ↦ p.current.WellSpelled →
      p.current.kind = kind → p.ahead = p.current :: p.next.ahead → Q a q)
    (hB : Cleanly B p fun a q ↦ p.current.kind ≠ kind → Q a q) (hkind : kind ≠ .eof) :
    Cleanly (do if ← matchToken kind then A else B) p Q := by
  intro a q hrun
  rw [Parse.matchIte_run] at hrun
  by_cases hk : p.current.kind = kind
  · rw [if_pos hk] at hrun
    obtain ⟨hle, hclean⟩ := hA a q hrun
    rw [Parser.errors_next] at hle hclean
    refine ⟨hle, fun heq hp ↦ ?_⟩
    obtain ⟨hq, hQ⟩ := hclean heq hp.next
    exact ⟨hq, hQ hp.current hk (hp.ahead_eq (hk ▸ hkind))⟩
  · rw [if_neg hk] at hrun
    obtain ⟨hle, hclean⟩ := hB a q hrun
    exact ⟨hle, fun heq hp ↦ ⟨(hclean heq hp).1, (hclean heq hp).2 hk⟩⟩

theorem consume (message : String) (hkind : kind ≠ .eof) :
    Cleanly (consume kind message) p fun token q ↦ token = p.current ∧ token.kind = kind ∧
      token.WellSpelled ∧ p.ahead = token :: q.ahead := by
  apply check
  split
  · rename_i hk
    apply mono advance
    rintro token q ⟨rfl, hclean⟩
    have hk := Parser.check_iff.mp hk
    exact ⟨rfl, hk, hclean (hk ▸ hkind)⟩
  · apply current
    exact report _ _ _ fun _ ↦ pure trivial

theorem parseIdentifier (message : String) : Cleanly (parseIdentifier message) p fun name q ↦
    ∃ token, token.lexeme = ⟨.identifier, name.name⟩ ∧ p.ahead = token :: q.ahead := by
  apply (consume message (by decide)).bind
  intro token q
  apply pure
  rintro ⟨_, hkind, _, hahead⟩
  exact ⟨token, by rw [Token.lexeme, hkind], hahead⟩

theorem recoverToRightBracket (fuel : Nat) :
    Cleanly (recoverToRightBracket fuel) p fun _ _ ↦ True := by
  have hskip : ∀ stop, Cleanly (skipUntil stop fuel) p fun _ _ ↦ True := by
    intro stop _ q hq
    obtain ⟨s, hs, hpair⟩ := Option.map_eq_some_iff.mp hq
    obtain ⟨rfl, rfl⟩ := Prod.mk.inj hpair
    obtain ⟨⟨herrors, hwell⟩, _⟩ := whileLoop.invariant
      (I := fun s : Parser ↦ s.errors = p.errors ∧ (p.WellFormed → s.WellFormed))
      (by
        rintro s t ⟨hs, hwell⟩ _ ht
        cases ht
        exact ⟨Parser.errors_next.trans hs, fun hp ↦ (hwell hp).next⟩)
      ⟨rfl, id⟩ hs
    exact ⟨herrors.ge, fun _ hp ↦ ⟨hwell hp, trivial⟩⟩
  apply (hskip _).bind
  intro _ q
  exact (consume _ (by decide)).mono fun _ _ _ _ ↦ trivial

end Cleanly

/-! ## What the functions on expressions read -/

/-- The tokens between the states spell the tree of the expression at the level. -/
def ReadsTree (j : Nat) (p : Parser) (e : Expression) (q : Parser) : Prop :=
  ∃ tokens t, p.ahead = tokens ++ q.ahead ∧ e.tree? = some t ∧
    Derives j (tokens.map Token.lexeme) t

/-- With what was read before, the tokens between the states spell the expression. -/
def Extends (j : Nat) (ls : List Lexeme) (p : Parser) (e : Expression) (q : Parser) : Prop :=
  ∃ tokens t, p.ahead = tokens ++ q.ahead ∧ e.tree? = some t ∧
    Derives j (ls ++ tokens.map Token.lexeme) t

/-- The tokens between the states spell the arguments. -/
def ReadsEach (p : Parser) (es : List Expression) (q : Parser) : Prop :=
  ∃ tokens, ∃ args : List (List Lexeme × Tree), p.ahead = tokens ++ q.ahead ∧
    Expression.trees? es = some (args.map (·.2)) ∧
    tokens.map Token.lexeme = separated (args.map (·.1)) ∧ ∀ arg ∈ args, Derives 1 arg.1 arg.2

/-- At level `k` everything that an operator of the level could continue has been read. -/
def Stops (k : Nat) (q : Parser) : Prop :=
  q.current.kind.NoSuffix ∧ binaryPrecedence q.current.kind < k

structure ExpressionsSound (fuel : Nat) : Prop where
  expression : ∀ (p : Parser) (k : Nat), 1 ≤ k → k ≤ 7 →
    Cleanly (parseExpression fuel k) p fun e q ↦ ReadsTree k p e q ∧ Stops k q
  operators : ∀ (p : Parser) (k : Nat) (left : Expression), 1 ≤ k → k ≤ 7 →
    Cleanly (parseBinaryOperators fuel k left) p fun e q ↦ ∀ j ls t, left.tree? = some t →
      Derives j ls t → k ≤ j → p.current.kind.NoSuffix → binaryPrecedence p.current.kind ≤ j →
      Extends k ls p e q ∧ Stops k q
  unary : ∀ p : Parser, Cleanly (parseUnaryExpression fuel) p fun e q ↦
    ReadsTree 7 p e q ∧ q.current.kind.NoSuffix
  suffixes : ∀ (p : Parser) (e : Expression), Cleanly (parsePostfixExpression fuel e) p fun e' q ↦
    ∀ ls t, e.tree? = some t → Derives 8 ls t →
      Extends 8 ls p e' q ∧ q.current.kind.NoSuffix
  argumentList : ∀ p : Parser, Cleanly (parseArgumentList fuel) p (ReadsEach p)
  arguments : ∀ p : Parser, Cleanly (parseArguments fuel) p fun es q ↦ es ≠ [] ∧ ReadsEach p es q
  primary : ∀ p : Parser, Cleanly (parsePrimaryExpression fuel) p (ReadsTree 8 p)

theorem Token.lexeme_eq {token : Token} {kind : TokenKind} {spelling : String}
    (h : token.WellSpelled) (hkind : token.kind = kind) (hspelling : kind.spelling? = some spelling) :
    token.lexeme = kind.lexeme := by
  have htext := h spelling (by rw [hkind]; exact hspelling)
  rw [Token.lexeme, TokenKind.lexeme, hkind, htext, hspelling]
  rfl

/-- The operators of the parser's table. -/
theorem exists_binaryOperator {kind : TokenKind} (h : 1 ≤ binaryPrecedence kind) :
    ∃ operator : BinaryOperator, operator.kind = kind := by
  cases kind
  case pipePipe => exact ⟨.or, rfl⟩
  case ampAmp => exact ⟨.and, rfl⟩
  case equalEqual => exact ⟨.equal, rfl⟩
  case bangEqual => exact ⟨.notEqual, rfl⟩
  case less => exact ⟨.less, rfl⟩
  case lessEqual => exact ⟨.lessEqual, rfl⟩
  case greater => exact ⟨.greater, rfl⟩
  case greaterEqual => exact ⟨.greaterEqual, rfl⟩
  case plus => exact ⟨.add, rfl⟩
  case minus => exact ⟨.subtract, rfl⟩
  case star => exact ⟨.multiply, rfl⟩
  case slash => exact ⟨.divide, rfl⟩
  case percent => exact ⟨.remainder, rfl⟩
  all_goals exact absurd h (by decide)

theorem BinaryOperator.lexeme_of_kind {operator : BinaryOperator} {token : Token}
    (h : token.WellSpelled) (hkind : token.kind = operator.kind) :
    token.lexeme = operator.lexeme := by
  cases operator
  all_goals exact Token.lexeme_eq h hkind rfl

namespace ExpressionsSound

variable {fuel k : Nat} {p : Parser} {e : Expression}

theorem expression_succ (ih : ExpressionsSound fuel) (p : Parser) (k : Nat) (hk : 1 ≤ k)
    (hk' : k ≤ 7) :
    Cleanly (parseExpression (fuel + 1) k) p fun e q ↦ ReadsTree k p e q ∧ Stops k q := by
  unfold parseExpression
  apply (ih.unary p).bind
  intro left q
  apply (ih.operators q k left hk hk').mono
  rintro e r hoperators ⟨⟨tokens, t, hahead, htree, hderives⟩, hsuffix⟩
  obtain ⟨⟨tokens', t', hahead', htree', hderives'⟩, hstops⟩ := hoperators 7 _ t htree hderives hk'
    hsuffix ((binaryPrecedence_le _).trans (by omega))
  refine ⟨⟨tokens ++ tokens', t', ?_, htree', ?_⟩, hstops⟩
  · rw [hahead, hahead', List.append_assoc]
  · rw [List.map_append]
    exact hderives'

theorem operators_succ (ih : ExpressionsSound fuel) (p : Parser) (k : Nat) (left : Expression)
    (hk : 1 ≤ k) (hk' : k ≤ 7) :
    Cleanly (parseBinaryOperators (fuel + 1) k left) p fun e q ↦ ∀ j ls t, left.tree? = some t →
      Derives j ls t → k ≤ j → p.current.kind.NoSuffix → binaryPrecedence p.current.kind ≤ j →
      Extends k ls p e q ∧ Stops k q := by
  unfold parseBinaryOperators
  apply Cleanly.current
  dsimp only
  split
  · rename_i hprecedence
    apply Cleanly.pure
    intro j ls t htree hderives hkj hsuffix _
    refine ⟨⟨[], t, rfl, htree, ?_⟩, hsuffix, hprecedence⟩
    rw [List.map_nil, List.append_nil]
    exact hderives.loosen hkj
  · rename_i hprecedence
    obtain ⟨operator, hoperator⟩ : ∃ operator : BinaryOperator, operator.kind = p.current.kind :=
      exists_binaryOperator (by omega)
    have hlevel : binaryPrecedence p.current.kind = operator.level := by
      rw [← hoperator, operator.binaryPrecedence_kind]
    have hle := operator.level_le
    rw [hlevel] at hprecedence ⊢
    apply Cleanly.advance.bind
    intro token q
    apply (ih.expression q (operator.level + 1) (by omega) (by omega)).bind
    intro right r
    apply (ih.operators r k _ hk hk').mono
    rintro e s hoperators ⟨⟨tokens, t₂, hahead, htree₂, hderives₂⟩, hsuffix₂, hprecedence₂⟩
      ⟨rfl, htoken⟩ j ls t htree hderives hkj _ hle'
    obtain ⟨hspelled, hnext⟩ := htoken (hoperator ▸ operator.kind_ne_eof)
    have hl := operator.lexeme_of_kind hspelled hoperator.symm
    have hwhole := Derives.binary operator (hderives.loosen hle') hderives₂
    obtain ⟨⟨tokens', t', hahead', htree', hderives'⟩, hstops⟩ := hoperators operator.level _ _ (by
      rw [Expression.tree?, Completes.text_of_lexeme hl, operator.ofText?_lexeme, htree, htree₂]
      rfl) hwhole (by omega) hsuffix₂ (by omega)
    refine ⟨⟨p.current :: tokens ++ tokens', t', ?_, htree', ?_⟩, hstops⟩
    · rw [hnext, hahead, hahead']
      simp
    · simpa [hl] using hderives'

theorem unary_succ (ih : ExpressionsSound fuel) (p : Parser) :
    Cleanly (parseUnaryExpression (fuel + 1)) p fun e q ↦
      ReadsTree 7 p e q ∧ q.current.kind.NoSuffix := by
  unfold parseUnaryExpression
  apply Cleanly.check
  apply Cleanly.check
  split
  · rename_i hcheck
    obtain ⟨operator, hoperator⟩ : ∃ operator : UnaryOperator, operator.kind = p.current.kind := by
      rw [Bool.or_eq_true, Parser.check_iff, Parser.check_iff] at hcheck
      rcases hcheck with hkind | hkind
      · exact ⟨.not, hkind.symm⟩
      · exact ⟨.negate, hkind.symm⟩
    apply Cleanly.advance.bind
    intro token q
    apply (ih.expression q 7 (by omega) le_rfl).bind
    intro operand r
    apply Cleanly.pure
    rintro ⟨⟨tokens, t, hahead, htree, hderives⟩, hsuffix, _⟩ ⟨rfl, htoken⟩
    have heof : p.current.kind ≠ .eof := by
      rw [← hoperator]
      cases operator <;> decide
    obtain ⟨hspelled, hnext⟩ := htoken heof
    have hl : p.current.lexeme = operator.lexeme := by
      cases operator
      all_goals exact Token.lexeme_eq hspelled hoperator.symm rfl
    have htext : UnaryOperator.ofText? p.current.text = some operator := by
      rw [Completes.text_of_lexeme hl]
      cases operator <;> rfl
    refine ⟨⟨p.current :: tokens, .unary operator t, ?_, ?_, ?_⟩, hsuffix⟩
    · rw [hnext, hahead]
      rfl
    · rw [Expression.tree?, htext, htree]
      rfl
    · rw [List.map_cons, hl]
      exact hderives.unary operator
  · apply (ih.primary p).bind
    intro primary q
    apply (ih.suffixes q primary).mono
    rintro e r htrailing ⟨tokens, t, hahead, htree, hderives⟩
    obtain ⟨⟨tokens', t', hahead', htree', hderives'⟩, hsuffix⟩ := htrailing _ t htree hderives
    refine ⟨⟨tokens ++ tokens', t', ?_, htree', ?_⟩, hsuffix⟩
    · rw [hahead, hahead', List.append_assoc]
    · rw [List.map_append]
      exact hderives'.tighter

theorem argumentList_succ (ih : ExpressionsSound fuel) (p : Parser) :
    Cleanly (parseArgumentList (fuel + 1)) p (ReadsEach p) := by
  unfold parseArgumentList
  apply Cleanly.check
  split
  · apply Cleanly.pure
    exact ⟨[], [], rfl, by simp [Expression.trees?], rfl, by simp⟩
  · exact (ih.arguments p).mono fun es q h ↦ h.2

theorem arguments_succ (ih : ExpressionsSound fuel) (p : Parser) :
    Cleanly (parseArguments (fuel + 1)) p fun es q ↦ es ≠ [] ∧ ReadsEach p es q := by
  unfold parseArguments
  apply (ih.expression p 1 le_rfl (by omega)).bind
  intro argument q
  apply Cleanly.matchIte
  · apply (ih.arguments q.next).bind
    intro rest r
    apply Cleanly.pure
    rintro ⟨hne, tokens', args, hahead', htrees, hspelling, hderives'⟩ hspelled hkind hnext
      ⟨⟨tokens, t, hahead, htree, hderives⟩, _⟩
    have hl := Token.lexeme_eq hspelled hkind rfl
    refine ⟨List.cons_ne_nil _ _, tokens ++ q.current :: tokens',
      (tokens.map Token.lexeme, t) :: args, ?_, ?_, ?_, ?_⟩
    · rw [hahead, hnext, hahead']
      simp
    · rw [Expression.trees?, htree, htrees]
      rfl
    · cases args with
      | nil =>
          cases rest with
          | nil => exact absurd rfl hne
          | cons e es => simp [Expression.trees?, Option.bind_eq_some_iff] at htrees
      | cons arg args => simpa [separated, hl] using hspelling
    · rintro arg (_ | ⟨_, harg⟩)
      · exact hderives
      · exact hderives' arg harg
  · apply Cleanly.pure
    rintro _ ⟨⟨tokens, t, hahead, htree, hderives⟩, _⟩
    refine ⟨List.cons_ne_nil _ _, tokens, [(tokens.map Token.lexeme, t)], hahead, ?_, rfl, ?_⟩
    · rw [Expression.trees?, htree, Expression.trees?]
      rfl
    · rintro arg (_ | ⟨_, harg⟩)
      · exact hderives
      · cases harg
  · decide

theorem reads_atom {t : Tree} (hahead : p.ahead = p.current :: p.next.ahead)
    (htree : e.tree? = some t) (h : Derives 8 [p.current.lexeme] t) : ReadsTree 8 p e p.next :=
  ⟨[p.current], t, hahead, htree, h⟩

theorem primary_succ (ih : ExpressionsSound fuel) (p : Parser) :
    Cleanly (parsePrimaryExpression (fuel + 1)) p (ReadsTree 8 p) := by
  unfold parsePrimaryExpression
  apply Cleanly.current
  apply Cleanly.matchIte _ _ (by decide)
  · apply Cleanly.pure
    intro _ hkind hahead
    refine reads_atom hahead (by rw [Expression.tree?]) ?_
    rw [Token.lexeme, hkind]
    exact Derives.integer _
  apply Cleanly.matchIte _ _ (by decide)
  · apply Cleanly.pure
    intro _ hkind hahead _
    refine reads_atom hahead (by rw [Expression.tree?]) ?_
    rw [Token.lexeme, hkind]
    exact Derives.float _
  apply Cleanly.matchIte _ _ (by decide)
  · apply Cleanly.pure
    intro hspelled hkind hahead _ _
    refine reads_atom hahead (by rw [Expression.tree?]) ?_
    rw [Token.lexeme_eq hspelled hkind rfl]
    exact Derives.bool true
  apply Cleanly.matchIte _ _ (by decide)
  · apply Cleanly.pure
    intro hspelled hkind hahead _ _ _
    refine reads_atom hahead (by rw [Expression.tree?]) ?_
    rw [Token.lexeme_eq hspelled hkind rfl]
    exact Derives.bool false
  apply Cleanly.matchIte _ _ (by decide)
  · apply Cleanly.pure
    intro _ hkind hahead _ _ _ _
    refine reads_atom hahead (by rw [Expression.tree?]) ?_
    rw [Token.lexeme, hkind]
    exact Derives.identifier _
  apply Cleanly.matchIte _ _ (by decide)
  · -- a slice construction
    apply (Cleanly.consume _ (by decide)).bind
    intro leftParen q
    apply (ih.expression q 1 le_rfl (by omega)).bind
    intro data r
    apply (Cleanly.consume _ (by decide)).bind
    intro comma s
    apply (ih.expression s 1 le_rfl (by omega)).bind
    intro len u
    apply (Cleanly.consume _ (by decide)).bind
    intro rightParen v
    apply Cleanly.pure
    rintro ⟨_, hright, hrightSpelled, h₅⟩ ⟨⟨tokens', t', h₄, htree', hderives'⟩, _⟩
      ⟨_, hcomma, hcommaSpelled, h₃⟩ ⟨⟨tokens, t, h₂, htree, hderives⟩, _⟩
      ⟨_, hleft, hleftSpelled, h₁⟩ hspelled hkind h₀ _ _ _ _ _
    refine ⟨p.current :: leftParen :: (tokens ++ comma :: tokens') ++ [rightParen],
      .sliceConstructor t t', ?_, ?_, ?_⟩
    · rw [h₀, h₁, h₂, h₃, h₄, h₅]
      simp
    · rw [Expression.tree?, htree, htree']
      rfl
    · have h := Derives.sliceConstructor hderives hderives'
      simpa [inParens, Token.lexeme_eq hspelled hkind rfl, Token.lexeme_eq hleftSpelled hleft rfl,
        Token.lexeme_eq hcommaSpelled hcomma rfl, Token.lexeme_eq hrightSpelled hright rfl] using h
  apply Cleanly.matchIte _ _ (by decide)
  · apply (ih.expression p.next 1 le_rfl (by omega)).bind
    intro expression q
    apply (Cleanly.consume _ (by decide)).bind
    intro rightParen r
    apply Cleanly.pure
    rintro ⟨_, hright, hrightSpelled, h₂⟩ ⟨⟨tokens, t, h₁, htree, hderives⟩, _⟩ hspelled hkind h₀
      _ _ _ _ _ _
    refine ⟨p.current :: tokens ++ [rightParen], t, ?_, ?_, ?_⟩
    · rw [h₀, h₁, h₂]
      simp
    · rw [Expression.tree?, htree]
    · simpa [inParens, Token.lexeme_eq hspelled hkind rfl,
        Token.lexeme_eq hrightSpelled hright rfl] using hderives.parens
  · apply Cleanly.report
    intro q
    apply Cleanly.advance.bind
    intro _ r
    exact Cleanly.pure fun _ ↦ trivial

/-- A further postfix form, and what the loop reads behind it. -/
theorem extends_suffix {q r : Parser} {e' : Expression} {ls : List Lexeme} (tokens : List Token)
    (t : Tree) (hahead : p.ahead = tokens ++ q.ahead)
    (h : Derives 8 (ls ++ tokens.map Token.lexeme) t) (htree : e.tree? = some t)
    (hrest : ∀ ls t, e.tree? = some t → Derives 8 ls t →
      Extends 8 ls q e' r ∧ r.current.kind.NoSuffix) :
    Extends 8 ls p e' r ∧ r.current.kind.NoSuffix := by
  obtain ⟨⟨tokens', t', hahead', htree', hderives'⟩, hsuffix⟩ := hrest _ t htree h
  refine ⟨⟨tokens ++ tokens', t', ?_, htree', ?_⟩, hsuffix⟩
  · rw [hahead, hahead', List.append_assoc]
  · rw [List.map_append, ← List.append_assoc]
    exact hderives'

theorem suffixes_succ (ih : ExpressionsSound fuel) (p : Parser) (e : Expression) :
    Cleanly (parsePostfixExpression (fuel + 1) e) p fun e' q ↦ ∀ ls t, e.tree? = some t →
      Derives 8 ls t → Extends 8 ls p e' q ∧ q.current.kind.NoSuffix := by
  have hreported : ∀ (q : Parser) (e : Expression),
      Cleanly (parsePostfixExpression fuel e) q fun _ _ ↦ True :=
    fun q e ↦ (ih.suffixes q e).mono fun _ _ _ ↦ trivial
  unfold parsePostfixExpression
  apply Cleanly.matchIte _ _ (by decide)
  · apply (ih.argumentList p.next).bind
    intro args q
    apply (Cleanly.consume _ (by decide)).bind
    intro rightParen r
    apply (ih.suffixes r _).mono
    rintro e' s hrest ⟨_, hright, hrightSpelled, h₂⟩ ⟨tokens, trees, h₁, htrees, hspelling, hargs⟩
      hspelled hkind h₀ ls t htree hderives
    refine extends_suffix (p.current :: tokens ++ [rightParen]) (.call t (trees.map (·.2))) ?_ ?_ ?_ hrest
    · rw [h₀, h₁, h₂]
      simp
    · have h := hderives.call hargs
      rw [← hspelling] at h
      simpa [inParens, Token.lexeme_eq hspelled hkind rfl,
        Token.lexeme_eq hrightSpelled hright rfl] using h
    · rw [Expression.tree?, htree, htrees]
      rfl
  apply Cleanly.matchIte _ _ (by decide)
  · apply (Cleanly.parseIdentifier _).bind
    intro name q
    apply (ih.suffixes q _).mono
    rintro e' s hrest ⟨token, hl, h₁⟩ hspelled hkind h₀ _ ls t htree hderives
    refine extends_suffix [p.current, token] (.field t name.name) ?_ ?_ ?_ hrest
    · rw [h₀, h₁]
      rfl
    · simpa [Token.lexeme_eq hspelled hkind rfl, hl] using hderives.field name.name
    · rw [Expression.tree?, htree]
      rfl
  apply Cleanly.matchIte _ _ (by decide)
  · apply Cleanly.check
    split
    · apply Cleanly.current
      apply Cleanly.report
      intro q
      apply (Cleanly.recoverToRightBracket fuel).bind
      intro rightBracket r
      exact (hreported r _).mono fun _ _ _ _ ↦ trivial
    apply (ih.expression p.next 1 le_rfl (by omega)).bind
    intro position q
    apply Cleanly.matchIte _ _ (by decide)
    · apply Cleanly.check
      split
      · apply Cleanly.current
        apply Cleanly.report
        intro r
        apply Cleanly.advance.bind
        intro rightBracket s
        exact (hreported s _).mono fun _ _ _ _ ↦ trivial
      apply (ih.expression q.next 1 le_rfl (by omega)).bind
      intro stop r
      apply Cleanly.check
      split
      · apply Cleanly.current
        apply Cleanly.report
        intro s
        apply (Cleanly.recoverToRightBracket fuel).bind
        intro rightBracket u
        exact (hreported u _).mono fun _ _ _ _ ↦ trivial
      apply (Cleanly.consume _ (by decide)).bind
      intro rightBracket s
      apply (ih.suffixes s _).mono
      rintro e' u hrest ⟨_, hright, hrightSpelled, h₄⟩ ⟨⟨tokens₂, t₂, h₃, htree₂, hderives₂⟩, _⟩
        hdotsSpelled hdots h₂ ⟨⟨tokens₁, t₁, h₁, htree₁, hderives₁⟩, _⟩ hspelled hkind h₀ _ _
        ls t htree hderives
      refine extends_suffix (p.current :: (tokens₁ ++ q.current :: tokens₂) ++ [rightBracket])
        (.subslice t t₁ t₂) ?_ ?_ ?_ hrest
      · rw [h₀, h₁, h₂, h₃, h₄]
        simp
      · simpa [inBrackets, Token.lexeme_eq hspelled hkind rfl,
          Token.lexeme_eq hdotsSpelled hdots rfl, Token.lexeme_eq hrightSpelled hright rfl]
          using hderives.subslice hderives₁ hderives₂
      · rw [Expression.tree?, htree, htree₁, htree₂]
        rfl
    · apply (Cleanly.consume _ (by decide)).bind
      intro rightBracket r
      apply (ih.suffixes r _).mono
      rintro e' s hrest ⟨_, hright, hrightSpelled, h₂⟩ _ ⟨⟨tokens, t', h₁, htree', hderives'⟩, _⟩
        hspelled hkind h₀ _ _ ls t htree hderives
      refine extends_suffix (p.current :: tokens ++ [rightBracket]) (.index t t') ?_ ?_ ?_ hrest
      · rw [h₀, h₁, h₂]
        simp
      · simpa [inBrackets, Token.lexeme_eq hspelled hkind rfl,
          Token.lexeme_eq hrightSpelled hright rfl] using hderives.index hderives'
      · rw [Expression.tree?, htree, htree']
        rfl
  · apply Cleanly.pure
    intro hbracket hdot hparen ls t htree hderives
    refine ⟨⟨[], t, rfl, htree, ?_⟩, hparen, hdot, hbracket⟩
    rw [List.map_nil, List.append_nil]
    exact hderives

end ExpressionsSound

theorem expressionsSound (fuel : Nat) : ExpressionsSound fuel := by
  induction fuel with
  | zero =>
      constructor
      all_goals
        intros
        exact Cleanly.failure
  | succ fuel ih =>
      exact {
        expression := ih.expression_succ
        operators := ih.operators_succ
        unary := ih.unary_succ
        suffixes := ih.suffixes_succ
        argumentList := ih.argumentList_succ
        arguments := ih.arguments_succ
        primary := ih.primary_succ }

end CalcKernel
