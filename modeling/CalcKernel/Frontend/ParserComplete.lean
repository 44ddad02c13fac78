import CalcKernel.Frontend.ParserRules

/-!
# Every derived spelling is parsed

By induction on the derivation: the parser reaches the loop of its level with the
tree read so far as left operand.  At the weakest level, with a token behind it that
ends an expression, it returns the tree.
-/

namespace CalcKernel

namespace BinaryOperator

variable (operator : BinaryOperator)

/-- The table of the parser is the documented one. -/
theorem binaryPrecedence_kind : binaryPrecedence operator.kind = operator.level := by
  cases operator <;> rfl

theorem ofText?_lexeme : ofText? operator.lexeme.text = some operator := by
  cases operator <;> rfl

theorem kind_ne_eof : operator.kind ≠ .eof := by
  cases operator <;> decide

end BinaryOperator

theorem binaryPrecedence_le (kind : TokenKind) : binaryPrecedence kind ≤ 6 := by
  cases kind <;> decide

/-- No postfix form continues with the token. -/
def TokenKind.NoSuffix (kind : TokenKind) : Prop :=
  kind ≠ .leftParen ∧ kind ≠ .dot ∧ kind ≠ .leftBracket

instance (kind : TokenKind) : Decidable kind.NoSuffix := inferInstanceAs (Decidable (_ ∧ _))

/-- No expression continues with the token. -/
def TokenKind.EndsExpression (kind : TokenKind) : Prop :=
  binaryPrecedence kind = 0 ∧ kind.NoSuffix

instance (kind : TokenKind) : Decidable kind.EndsExpression := inferInstanceAs (Decidable (_ ∧ _))

theorem BinaryOperator.noSuffix_kind (operator : BinaryOperator) : operator.kind.NoSuffix := by
  cases operator <;> decide

/-- The kinds that an expression starts with. -/
def startKinds : List TokenKind :=
  [.identifier, .integer, .float, .kwTrue, .kwFalse, .leftParen, .kwSlice, .bang, .minus]

theorem Derives.exists_head {k : Nat} {ls : List Lexeme} {t : Tree} (h : Derives k ls t) :
    ∃ first tail, ls = first :: tail ∧ first.kind ∈ startKinds := by
  induction h with
  | identifier name => exact ⟨_, _, rfl, by simp [startKinds]⟩
  | integer text => exact ⟨_, _, rfl, by simp [startKinds]⟩
  | float text => exact ⟨_, _, rfl, by simp [startKinds]⟩
  | bool value => exact ⟨_, _, rfl, by cases value <;> decide⟩
  | parens _ _ => exact ⟨_, _, rfl, by decide⟩
  | sliceConstructor _ _ _ _ => exact ⟨_, _, rfl, by decide⟩
  | unary operator _ _ => exact ⟨_, _, rfl, by cases operator <;> decide⟩
  | tighter _ ih => exact ih
  | call _ _ ih | field _ _ ih | index _ _ ih | subslice _ _ _ ih | binary _ _ _ ih =>
      obtain ⟨first, tail, rfl, hfirst⟩ := ih
      exact ⟨first, _, rfl, hfirst⟩

/-- From one state to the other the parser reads the expression: at levels of operators the
loop goes on with it as left operand, at the postfix level the postfix loop. -/
structure ReadsTo (j : Nat) (p : Parser) (e : Expression) (q : Parser) : Prop where
  operators : j ≤ 7 → q.current.kind.NoSuffix → binaryPrecedence q.current.kind ≤ j →
    ∀ k, 1 ≤ k → k ≤ j → ∀ e' r, Parses (parseBinaryOperators · k e) q e' r →
      Parses (parseExpression · k) p e' r
  suffixes : 8 ≤ j → ∀ e' r, Parses (parsePostfixExpression · e) q e' r →
    Parses parseUnaryExpression p e' r

namespace ReadsTo

variable {p q r : Parser} {e e' : Expression} {j : Nat}

theorem of_primary (h : Parses parsePrimaryExpression p e q) (hbang : p.current.kind ≠ .bang)
    (hminus : p.current.kind ≠ .minus) : ReadsTo 8 p e q where
  operators hj := by omega
  suffixes _ e' r htrailing := Parses.unary_primary hbang hminus h htrailing

theorem of_suffix (h : ReadsTo 8 p e q)
    (hsuffix : ∀ e'' s, Parses (parsePostfixExpression · e') r e'' s →
      Parses (parsePostfixExpression · e) q e'' s) : ReadsTo 8 p e' r where
  operators hj := by omega
  suffixes hj e'' s htrailing := h.suffixes hj e'' s (hsuffix e'' s htrailing)

/-- A whole operand of a level: what stands behind it does not continue it. -/
theorem operand (h : ReadsTo j p e q) {k : Nat} (hj : j ≤ 7) (hk : 1 ≤ k) (hkj : k ≤ j)
    (hsuffix : q.current.kind.NoSuffix) (hprecedence : binaryPrecedence q.current.kind < k) :
    Parses (parseExpression · k) p e q :=
  h.operators hj hsuffix (by omega) k hk hkj e q (Parses.operators_stop hprecedence)

theorem expression (h : ReadsTo 1 p e q) (hends : q.current.kind.EndsExpression) :
    Parses (parseExpression · 1) p e q :=
  h.operand (by omega) le_rfl le_rfl hends.2 (by rw [hends.1]; exact Nat.zero_lt_one)

end ReadsTo

/-- The tokens of the spelling are read to an expression of the tree. -/
def Completes (j : Nat) (ls : List Lexeme) (t : Tree) : Prop :=
  ∀ (p : Parser) (tokens rest : List Token), tokens.map Token.lexeme = ls →
    p.ahead = tokens ++ rest → rest ≠ [] →
    ∃ e q, e.tree? = some t ∧ q.ahead = rest ∧ q.diagnostics = p.diagnostics ∧ ReadsTo j p e q

namespace Completes

variable {ls ls' : List Lexeme} {t t' : Tree} {p : Parser} {tokens rest : List Token}
  {token : Token} {j : Nat}

theorem kind_of_lexeme {kind : TokenKind} (h : token.lexeme = kind.lexeme) : token.kind = kind :=
  congrArg Lexeme.kind h

theorem text_of_lexeme {l : Lexeme} (h : token.lexeme = l) : token.text = l.text :=
  congrArg Lexeme.text h

/-- A part in front of a token that ends it. -/
theorem closed (h : Completes 1 ls t) (htokens : tokens.map Token.lexeme = ls)
    (hahead : p.ahead = tokens ++ token :: rest) (hends : token.kind.EndsExpression) :
    ∃ e q, e.tree? = some t ∧ q.ahead = token :: rest ∧ q.diagnostics = p.diagnostics ∧
      Parses (parseExpression · 1) p e q := by
  obtain ⟨e, q, htree, hq, hdiagnostics, hreads⟩ := h p tokens _ htokens hahead (by simp)
  refine ⟨e, q, htree, hq, hdiagnostics, hreads.expression ?_⟩
  rw [Parser.current_of_ahead hq]
  exact hends

/-- A spelling of one token. -/
theorem atom {l : Lexeme} (hatom : ∀ token : Token, token.lexeme = l →
    ∃ e, Parses.atomOf token = some e ∧ e.tree? = some t) (hbang : l.kind ≠ .bang)
    (hminus : l.kind ≠ .minus) (heof : l.kind ≠ .eof) : Completes 8 [l] t := by
  intro p tokens rest htokens hahead hrest
  obtain ⟨token, rfl, hl⟩ := List.map_eq_singleton_iff.mp htokens
  obtain ⟨e, he, htree⟩ := hatom token hl
  have hcurrent := Parser.current_of_ahead hahead
  have hkind : token.kind = l.kind := congrArg Lexeme.kind hl
  refine ⟨e, p.next, htree, Parser.ahead_next hahead (hkind ▸ heof) hrest,
    Parser.diagnostics_next, ReadsTo.of_primary (Parses.primary_atom ?_) ?_ ?_⟩
  · rwa [hcurrent]
  · rwa [hcurrent, hkind]
  · rwa [hcurrent, hkind]

theorem parens (h : Completes 1 ls t) : Completes 8 (inParens ls) t := by
  intro p tokens rest htokens hahead hrest
  obtain ⟨left, tokens', rfl, hleft, htokens⟩ := List.map_eq_cons_iff.mp htokens
  obtain ⟨inner, last, rfl, hinner, hlast⟩ := List.map_eq_append_iff.mp htokens
  obtain ⟨right, rfl, hright⟩ := List.map_eq_singleton_iff.mp hlast
  have hleft := kind_of_lexeme hleft
  have hright := kind_of_lexeme hright
  have hahead : p.ahead = left :: (inner ++ right :: rest) := by simpa using hahead
  have hnext := Parser.ahead_next hahead (by simp [hleft]) (by simp)
  obtain ⟨e, q, htree, hq, hdiagnostics, hparses⟩ := h.closed hinner hnext
    (by rw [hright]; decide)
  have hcurrent := Parser.current_of_ahead hahead
  have hcurrent' := Parser.current_of_ahead hq
  refine ⟨_, q.next, ?_, Parser.ahead_next hq (by simp [hright]) hrest, ?_,
    ReadsTo.of_primary (Parses.primary_parens (by rw [hcurrent, hleft]) hparses
      (by rw [hcurrent', hright])) ?_ ?_⟩
  · simpa only [Expression.tree?] using htree
  · rw [Parser.diagnostics_next, hdiagnostics, Parser.diagnostics_next]
  · simp [hcurrent, hleft]
  · simp [hcurrent, hleft]

theorem sliceConstructor (h : Completes 1 ls t) (h' : Completes 1 ls' t') :
    Completes 8 (TokenKind.kwSlice.lexeme :: inParens (ls ++ TokenKind.comma.lexeme :: ls'))
      (.sliceConstructor t t') := by
  intro p tokens rest htokens hahead hrest
  obtain ⟨slice, tokens, rfl, hslice, htokens⟩ := List.map_eq_cons_iff.mp htokens
  obtain ⟨left, tokens, rfl, hleft, htokens⟩ := List.map_eq_cons_iff.mp htokens
  obtain ⟨inner, last, rfl, hinner, hlast⟩ := List.map_eq_append_iff.mp htokens
  obtain ⟨right, rfl, hright⟩ := List.map_eq_singleton_iff.mp hlast
  obtain ⟨data, tokens, rfl, hdata, htokens⟩ := List.map_eq_append_iff.mp hinner
  obtain ⟨comma, len, rfl, hcomma, hlen⟩ := List.map_eq_cons_iff.mp htokens
  have hslice := kind_of_lexeme hslice
  have hleft := kind_of_lexeme hleft
  have hright := kind_of_lexeme hright
  have hcomma := kind_of_lexeme hcomma
  have h₀ : p.ahead = slice :: left :: (data ++ comma :: (len ++ right :: rest)) := by
    simpa using hahead
  have h₁ := Parser.ahead_next h₀ (by simp [hslice]) (by simp)
  have h₂ := Parser.ahead_next h₁ (by simp [hleft]) (by simp)
  obtain ⟨e, q, htree, hq, hdiagnostics, hparses⟩ := h.closed hdata h₂ (by rw [hcomma]; decide)
  have h₃ := Parser.ahead_next hq (by simp [hcomma]) (by simp)
  obtain ⟨e', r, htree', hr, hdiagnostics', hparses'⟩ := h'.closed hlen h₃
    (by rw [hright]; decide)
  have hcurrent := Parser.current_of_ahead h₀
  refine ⟨_, r.next, ?_, Parser.ahead_next hr (by simp [hright]) hrest, ?_,
    ReadsTo.of_primary (Parses.primary_slice (by rw [hcurrent, hslice])
      (by rw [Parser.current_of_ahead h₁, hleft]) hparses
      (by rw [Parser.current_of_ahead hq, hcomma]) hparses'
      (by rw [Parser.current_of_ahead hr, hright])) ?_ ?_⟩
  · simp [Expression.tree?, htree, htree']
  · simp only [Parser.diagnostics_next, hdiagnostics', hdiagnostics]
  · simp [hcurrent, hslice]
  · simp [hcurrent, hslice]

theorem field (name : String) (h : Completes 8 ls t) :
    Completes 8 (ls ++ [TokenKind.dot.lexeme, ⟨.identifier, name⟩]) (.field t name) := by
  intro p tokens rest htokens hahead hrest
  obtain ⟨object, tokens, rfl, hobject, htokens⟩ := List.map_eq_append_iff.mp htokens
  obtain ⟨dot, tokens, rfl, hdot, htokens⟩ := List.map_eq_cons_iff.mp htokens
  obtain ⟨field, rfl, hfield⟩ := List.map_eq_singleton_iff.mp htokens
  have hdot := kind_of_lexeme hdot
  have hkind : field.kind = .identifier := congrArg Lexeme.kind hfield
  have hname : field.text = name := congrArg Lexeme.text hfield
  obtain ⟨e, q, htree, hq, hdiagnostics, hreads⟩ := h p object (dot :: field :: rest) hobject
    (by simpa using hahead) (by simp)
  have h₁ := Parser.ahead_next hq (by simp [hdot]) (by simp)
  have hcurrent := Parser.current_of_ahead h₁
  refine ⟨_, q.next.next, ?_, Parser.ahead_next h₁ (by simp [hkind]) hrest, ?_,
    hreads.of_suffix fun e' r ↦ Parses.postfix_field
      (by rw [Parser.current_of_ahead hq, hdot]) (by rw [hcurrent, hkind])⟩
  · simp [Expression.tree?, htree, hcurrent, hname]
  · simp only [Parser.diagnostics_next, hdiagnostics]

/-- No bracket and no dots in front of an expression. -/
theorem head_kind (h : Derives 1 ls t) (htokens : tokens.map Token.lexeme = ls)
    (hahead : p.ahead = tokens ++ rest) : p.current.kind ∈ startKinds := by
  obtain ⟨first, tail, rfl, hfirst⟩ := h.exists_head
  obtain ⟨token, tokens, rfl, hl, _⟩ := List.map_eq_cons_iff.mp htokens
  rw [Parser.current_of_ahead hahead]
  rw [← hl] at hfirst
  exact hfirst

theorem index (h : Completes 8 ls t) (hderives : Derives 1 ls' t') (h' : Completes 1 ls' t') :
    Completes 8 (ls ++ inBrackets ls') (.index t t') := by
  intro p tokens rest htokens hahead hrest
  obtain ⟨object, tokens, rfl, hobject, htokens⟩ := List.map_eq_append_iff.mp htokens
  obtain ⟨left, tokens, rfl, hleft, htokens⟩ := List.map_eq_cons_iff.mp htokens
  obtain ⟨position, last, rfl, hposition, hlast⟩ := List.map_eq_append_iff.mp htokens
  obtain ⟨right, rfl, hright⟩ := List.map_eq_singleton_iff.mp hlast
  have hleft := kind_of_lexeme hleft
  have hright := kind_of_lexeme hright
  obtain ⟨e, q, htree, hq, hdiagnostics, hreads⟩ := h p object
    (left :: (position ++ right :: rest)) hobject (by simpa using hahead) (by simp)
  have h₁ := Parser.ahead_next hq (by simp [hleft]) (by simp)
  have hhead := head_kind hderives hposition h₁
  obtain ⟨e', r, htree', hr, hdiagnostics', hparses⟩ := h'.closed hposition h₁
    (by rw [hright]; decide)
  refine ⟨_, r.next, ?_, Parser.ahead_next hr (by simp [hright]) hrest, ?_,
    hreads.of_suffix fun e'' s ↦ Parses.postfix_index
      (by rw [Parser.current_of_ahead hq, hleft]) ?_ hparses
      (by rw [Parser.current_of_ahead hr, hright])⟩
  · simp [Expression.tree?, htree, htree']
  · simp only [Parser.diagnostics_next, hdiagnostics', hdiagnostics]
  · intro hdots
    rw [hdots] at hhead
    exact absurd hhead (by decide)

theorem subslice {ls₁ ls₂ : List Lexeme} {t₁ t₂ : Tree} (h : Completes 8 ls t)
    (hderives₁ : Derives 1 ls₁ t₁) (h₁ : Completes 1 ls₁ t₁) (hderives₂ : Derives 1 ls₂ t₂)
    (h₂ : Completes 1 ls₂ t₂) :
    Completes 8 (ls ++ inBrackets (ls₁ ++ TokenKind.dotDot.lexeme :: ls₂)) (.subslice t t₁ t₂) := by
  intro p tokens rest htokens hahead hrest
  obtain ⟨slice, tokens, rfl, hslice, htokens⟩ := List.map_eq_append_iff.mp htokens
  obtain ⟨left, tokens, rfl, hleft, htokens⟩ := List.map_eq_cons_iff.mp htokens
  obtain ⟨inner, last, rfl, hinner, hlast⟩ := List.map_eq_append_iff.mp htokens
  obtain ⟨right, rfl, hright⟩ := List.map_eq_singleton_iff.mp hlast
  obtain ⟨start, tokens, rfl, hstart, htokens⟩ := List.map_eq_append_iff.mp hinner
  obtain ⟨dots, stop, rfl, hdots, hstop⟩ := List.map_eq_cons_iff.mp htokens
  have hleft := kind_of_lexeme hleft
  have hright := kind_of_lexeme hright
  have hdots := kind_of_lexeme hdots
  obtain ⟨e, q, htree, hq, hdiagnostics, hreads⟩ := h p slice
    (left :: (start ++ dots :: (stop ++ right :: rest))) hslice (by simpa using hahead) (by simp)
  have hq₁ := Parser.ahead_next hq (by simp [hleft]) (by simp)
  have hhead := head_kind hderives₁ hstart hq₁
  obtain ⟨e₁, r, htree₁, hr, hdiagnostics₁, hparses₁⟩ := h₁.closed hstart hq₁
    (by rw [hdots]; decide)
  have hr₁ := Parser.ahead_next hr (by simp [hdots]) (by simp)
  have hhead' := head_kind hderives₂ hstop hr₁
  obtain ⟨e₂, s, htree₂, hs, hdiagnostics₂, hparses₂⟩ := h₂.closed hstop hr₁
    (by rw [hright]; decide)
  refine ⟨_, s.next, ?_, Parser.ahead_next hs (by simp [hright]) hrest, ?_,
    hreads.of_suffix fun e' s' ↦ Parses.postfix_subslice
      (by rw [Parser.current_of_ahead hq, hleft]) ?_ hparses₁
      (by rw [Parser.current_of_ahead hr, hdots]) ?_ hparses₂
      (by rw [Parser.current_of_ahead hs, hright])⟩
  · simp [Expression.tree?, htree, htree₁, htree₂]
  · simp only [Parser.diagnostics_next, hdiagnostics₂, hdiagnostics₁, hdiagnostics]
  · intro hkind
    rw [hkind] at hhead
    exact absurd hhead (by decide)
  · intro hkind
    rw [hkind] at hhead'
    exact absurd hhead' (by decide)

/-- One or more arguments in front of the closing parenthesis. -/
theorem arguments (args : List (List Lexeme × Tree)) (hargs : ∀ arg ∈ args, Completes 1 arg.1 arg.2)
    (hne : args ≠ []) (htokens : tokens.map Token.lexeme = separated (args.map (·.1)))
    (hahead : p.ahead = tokens ++ token :: rest) (hkind : token.kind = .rightParen) :
    ∃ es q, Expression.trees? es = some (args.map (·.2)) ∧ q.ahead = token :: rest ∧
      q.diagnostics = p.diagnostics ∧ Parses parseArguments p es q := by
  induction args generalizing p tokens with
  | nil => exact absurd rfl hne
  | cons arg args ih =>
      have harg := hargs arg List.mem_cons_self
      cases args with
      | nil =>
          obtain ⟨e, q, htree, hq, hdiagnostics, hparses⟩ := harg.closed htokens hahead
            (by rw [hkind]; decide)
          refine ⟨[e], q, by simp [Expression.trees?, htree], hq, hdiagnostics,
            Parses.arguments_last hparses ?_⟩
          rw [Parser.current_of_ahead hq, hkind]
          decide
      | cons next args =>
          obtain ⟨first, tokens, rfl, hfirst, htokens⟩ := List.map_eq_append_iff.mp htokens
          obtain ⟨comma, others, rfl, hcomma, hothers⟩ := List.map_eq_cons_iff.mp htokens
          have hcomma := kind_of_lexeme hcomma
          have hahead : p.ahead = first ++ comma :: (others ++ token :: rest) := by
            simpa using hahead
          obtain ⟨e, q, htree, hq, hdiagnostics, hparses⟩ := harg.closed hfirst hahead
            (by rw [hcomma]; decide)
          obtain ⟨es, r, htrees, hr, hdiagnostics', hparses'⟩ := ih
            (fun a ha ↦ hargs a (List.mem_cons_of_mem _ ha)) (by simp) hothers
            (Parser.ahead_next hq (by simp [hcomma]) (by simp))
          refine ⟨e :: es, r, ?_, hr, ?_, Parses.arguments_cons hparses ?_ hparses'⟩
          · simp [Expression.trees?, htree, htrees]
          · rw [hdiagnostics', Parser.diagnostics_next, hdiagnostics]
          · rw [Parser.current_of_ahead hq, hcomma]

theorem call {args : List (List Lexeme × Tree)} (h : Completes 8 ls t)
    (hderives : ∀ arg ∈ args, Derives 1 arg.1 arg.2)
    (hargs : ∀ arg ∈ args, Completes 1 arg.1 arg.2) :
    Completes 8 (ls ++ inParens (separated (args.map (·.1)))) (.call t (args.map (·.2))) := by
  intro p tokens rest htokens hahead hrest
  obtain ⟨callee, tokens, rfl, hcallee, htokens⟩ := List.map_eq_append_iff.mp htokens
  obtain ⟨left, tokens, rfl, hleft, htokens⟩ := List.map_eq_cons_iff.mp htokens
  obtain ⟨inner, last, rfl, hinner, hlast⟩ := List.map_eq_append_iff.mp htokens
  obtain ⟨right, rfl, hright⟩ := List.map_eq_singleton_iff.mp hlast
  have hleft := kind_of_lexeme hleft
  have hright := kind_of_lexeme hright
  obtain ⟨e, q, htree, hq, hdiagnostics, hreads⟩ := h p callee
    (left :: (inner ++ right :: rest)) hcallee (by simpa using hahead) (by simp)
  have h₁ := Parser.ahead_next hq (by simp [hleft]) (by simp)
  obtain ⟨es, r, htrees, hr, hdiagnostics', hparses⟩ : ∃ es r,
      Expression.trees? es = some (args.map (·.2)) ∧ r.ahead = right :: rest ∧
        r.diagnostics = q.diagnostics ∧ Parses parseArgumentList q.next es r := by
    cases args with
    | nil =>
        obtain rfl : inner = [] := List.map_eq_nil_iff.mp hinner
        refine ⟨[], q.next, by simp [Expression.trees?], h₁, Parser.diagnostics_next,
          Parses.argumentList_nil ?_⟩
        rw [Parser.current_of_ahead h₁, hright]
    | cons arg args =>
        obtain ⟨es, r, htrees, hr, hdiagnostics', hparses⟩ := arguments (arg :: args) hargs
          (by simp) hinner h₁ hright
        refine ⟨es, r, htrees, hr, hdiagnostics'.trans Parser.diagnostics_next,
          Parses.argumentList_cons ?_ hparses⟩
        have hhead : q.next.current.kind ∈ startKinds := by
          have harg := hderives arg List.mem_cons_self
          cases args with
          | nil => exact head_kind harg hinner h₁
          | cons next args =>
              obtain ⟨first, others, rfl, hfirst, _⟩ := List.map_eq_append_iff.mp hinner
              exact head_kind harg hfirst (h₁.trans (List.append_assoc _ _ _))
        intro hkind
        rw [hkind] at hhead
        exact absurd hhead (by decide)
  refine ⟨_, r.next, ?_, Parser.ahead_next hr (by simp [hright]) hrest, ?_,
    hreads.of_suffix fun e' s ↦ Parses.postfix_call
      (by rw [Parser.current_of_ahead hq, hleft]) hparses
      (by rw [Parser.current_of_ahead hr, hright])⟩
  · simp [Expression.tree?, htree, htrees]
  · rw [Parser.diagnostics_next, hdiagnostics', hdiagnostics]

theorem unary (operator : UnaryOperator) (h : Completes 7 ls t) :
    Completes 7 (operator.lexeme :: ls) (.unary operator t) := by
  intro p tokens rest htokens hahead hrest
  obtain ⟨token, tokens, rfl, hl, htokens⟩ := List.map_eq_cons_iff.mp htokens
  have hkind : token.kind = operator.kind := congrArg Lexeme.kind hl
  have htext : UnaryOperator.ofText? token.text = some operator := by
    rw [text_of_lexeme hl]
    cases operator <;> rfl
  have hcurrent := Parser.current_of_ahead hahead
  have hoperator : p.current.kind = .bang ∨ p.current.kind = .minus := by
    rw [hcurrent, hkind]
    cases operator
    · exact Or.inl rfl
    · exact Or.inr rfl
  have hnext : p.next.ahead = tokens ++ rest := by
    apply Parser.ahead_next hahead
    · rw [hkind]
      cases operator <;> decide
    · simp [hrest]
  obtain ⟨e, q, htree, hq, hdiagnostics, hreads⟩ := h p.next tokens rest htokens hnext hrest
  refine ⟨.unary p.current.text e ⟨p.current.position, e.span.stop⟩, q, ?_, hq,
    hdiagnostics.trans Parser.diagnostics_next, ?_, ?_⟩
  · simp [Expression.tree?, htree, hcurrent, htext]
  · intro _ hsuffix _ k hk hk' e' r hparses
    refine Parses.expression (Parses.unary_operator hoperator ?_) hparses
    exact hreads.operand le_rfl (by omega) le_rfl hsuffix
      (Nat.lt_succ_of_le (binaryPrecedence_le _))
  · intro hj
    omega

theorem binary (operator : BinaryOperator) (h : Completes operator.level ls t)
    (h' : Completes (operator.level + 1) ls' t') :
    Completes operator.level (ls ++ operator.lexeme :: ls') (.binary operator t t') := by
  intro p tokens rest htokens hahead hrest
  obtain ⟨left, tokens, rfl, hleft, htokens⟩ := List.map_eq_append_iff.mp htokens
  obtain ⟨token, right, rfl, hl, hright⟩ := List.map_eq_cons_iff.mp htokens
  have hkind : token.kind = operator.kind := congrArg Lexeme.kind hl
  have hlevel := operator.one_le_level
  have hlevel' := operator.level_le
  have htext : BinaryOperator.ofText? token.text = some operator := by
    rw [text_of_lexeme hl, operator.ofText?_lexeme]
  obtain ⟨e, q, htree, hq, hdiagnostics, hreads⟩ := h p left (token :: (right ++ rest)) hleft
    (by simpa using hahead) (by simp)
  have hcurrent := Parser.current_of_ahead hq
  have hprecedence : binaryPrecedence q.current.kind = operator.level := by
    rw [hcurrent, hkind, operator.binaryPrecedence_kind]
  have hnext := Parser.ahead_next hq (hkind ▸ operator.kind_ne_eof) (by simp [hrest])
  obtain ⟨e', r, htree', hr, hdiagnostics', hreads'⟩ := h' q.next right rest hright hnext hrest
  refine ⟨.binary q.current.text e e' ⟨e.span.start, e'.span.stop⟩, r, ?_, hr, ?_, ?_, ?_⟩
  · simp [Expression.tree?, htree, htree', hcurrent, htext]
  · rw [hdiagnostics', Parser.diagnostics_next, hdiagnostics]
  · intro _ hsuffix hle k hk hkj e'' s hparses
    refine hreads.operators (by omega) ?_ hprecedence.le k hk hkj e'' s ?_
    · rw [hcurrent, hkind]
      exact operator.noSuffix_kind
    · refine Parses.operators_step (hprecedence ▸ hkj) ?_ hparses
      rw [hprecedence]
      exact hreads'.operand (by omega) (by omega) le_rfl hsuffix (Nat.lt_succ_of_le hle)
  · intro hj
    omega

theorem tighter (h : Completes (j + 1) ls t) : Completes j ls t := by
  intro p tokens rest htokens hahead hrest
  obtain ⟨e, q, htree, hq, hdiagnostics, hreads⟩ := h p tokens rest htokens hahead hrest
  refine ⟨e, q, htree, hq, hdiagnostics, ?_, ?_⟩
  · intro hj hsuffix hle k hk hkj e' r hparses
    by_cases h7 : j = 7
    · -- the operators bind no postfix form
      apply Parses.expression _ hparses
      exact hreads.suffixes (by omega) e q
        (Parses.postfix_stop hsuffix.1 hsuffix.2.1 hsuffix.2.2)
    · exact hreads.operators (by omega) hsuffix (by omega) k hk (by omega) e' r hparses
  · intro hj
    exact hreads.suffixes (by omega)

end Completes

/-- Every spelling that the grammar derives is read. -/
theorem Derives.completes {k : Nat} {ls : List Lexeme} {t : Tree} (h : Derives k ls t) :
    Completes k ls t := by
  induction h with
  | identifier name =>
      refine Completes.atom ?_ (by simp) (by simp) (by simp)
      rintro ⟨kind, text, _, _, _, _⟩ hl
      cases hl
      exact ⟨_, rfl, by simp [Expression.tree?]⟩
  | integer text =>
      refine Completes.atom ?_ (by simp) (by simp) (by simp)
      rintro ⟨kind, text, _, _, _, _⟩ hl
      cases hl
      exact ⟨_, rfl, by simp [Expression.tree?]⟩
  | float text =>
      refine Completes.atom ?_ (by simp) (by simp) (by simp)
      rintro ⟨kind, text, _, _, _, _⟩ hl
      cases hl
      exact ⟨_, rfl, by simp [Expression.tree?]⟩
  | bool value =>
      refine Completes.atom ?_ ?_ ?_ ?_
      · rintro ⟨kind, text, _, _, _, _⟩ hl
        cases value
        all_goals
          cases hl
          exact ⟨_, rfl, by simp [Expression.tree?]⟩
      all_goals cases value <;> decide
  | parens _ ih => exact ih.parens
  | sliceConstructor _ _ ih ih' => exact ih.sliceConstructor ih'
  | call _ hargs ih ihArgs => exact ih.call hargs ihArgs
  | field name _ ih => exact ih.field name
  | index _ h' ih ih' => exact ih.index h' ih'
  | subslice _ h₁ h₂ ih ih₁ ih₂ => exact ih.subslice h₁ ih₁ h₂ ih₂
  | unary operator _ ih => exact ih.unary operator
  | binary operator _ _ ih ih' => exact ih.binary operator ih'
  | tighter _ ih => exact ih.tighter

/-- A spelling with a token behind it that no expression continues with is parsed to its tree,
and nothing is reported. -/
theorem Derives.parses {ls : List Lexeme} {t : Tree} (h : Derives 1 ls t) {p : Parser}
    {tokens rest : List Token} {token : Token} (htokens : tokens.map Token.lexeme = ls)
    (hahead : p.ahead = tokens ++ token :: rest) (hends : token.kind.EndsExpression) :
    ∃ e q, e.tree? = some t ∧ q.ahead = token :: rest ∧ q.diagnostics = p.diagnostics ∧
      Parses (parseExpression · 1) p e q :=
  h.completes.closed htokens hahead hends

end CalcKernel
