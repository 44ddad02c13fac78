import CalcKernel.Frontend.Parser
import CalcKernel.Lib.StateLogic

/-!
# Progress of the parser

The tokens in front of the first end of file only get fewer, and every round of a
loop and every recovery consumes one of them.  So enough fuel always gives a result.
-/

namespace CalcKernel

open Lib

namespace Parser

/-- The number of tokens in front of the first end of file, if there is one. -/
def remaining (parser : Parser) : Option Nat :=
  (parser.current :: parser.after).findIdx? (·.kind = .eof)

variable {p q : Parser} {n : Nat} {kind : TokenKind}

theorem check_iff : p.check kind = true ↔ p.current.kind = kind := by
  simp [check]

theorem check_eof_iff (h : p.remaining = some n) : p.check .eof = true ↔ n = 0 := by
  rw [remaining, List.findIdx?_cons] at h
  rw [check_iff]
  by_cases hk : p.current.kind = .eof
  · simp only [hk, decide_true, if_true, Option.some.injEq] at h
    simp [hk, h]
  · simp only [hk, decide_false, Bool.false_eq_true, if_false, Option.map_eq_some_iff] at h
    obtain ⟨m, _, rfl⟩ := h
    simp [hk]

theorem remaining_pos (h : p.remaining = some n) (hk : p.check kind = true) (hne : kind ≠ .eof) :
    0 < n := by
  apply Nat.pos_of_ne_zero
  intro hn
  rw [← check_eof_iff h, check_iff] at hn
  rw [check_iff] at hk
  exact hne (hk.symm.trans hn)

theorem remaining_next (h : p.remaining = some n) : p.next.remaining = some (n - 1) := by
  by_cases hk : p.current.kind = .eof
  · have hn : n = 0 := (check_eof_iff h).mp (check_iff.mpr hk)
    rw [next, if_pos hk, h, hn]
  · rw [remaining, List.findIdx?_cons] at h
    simp only [hk, decide_false, Bool.false_eq_true, if_false, Option.map_eq_some_iff] at h
    obtain ⟨m, hm, rfl⟩ := h
    rw [next, if_neg hk]
    cases hafter : p.after with
    | nil =>
        rw [hafter] at hm
        cases hm
    | cons token rest =>
        rw [hafter] at hm
        exact hm

@[simp] theorem remaining_report (token : Token) (code : DiagnosticCode) (message : String) :
    (p.report token code message).remaining = p.remaining := rfl

end Parser

/-- The program returns, with at most so many tokens remaining. -/
def Leaves {α : Type} (m : Parse α) (p : Parser) (bound : Nat) : Prop :=
  Returns m p fun _ q ↦ ∃ n, q.remaining = some n ∧ n ≤ bound

namespace Leaves

variable {α β : Type} {m : Parse α} {f : α → Parse β} {A B : Parse α} {p : Parser}
  {n b c fuel : Nat} {kind : TokenKind}

theorem pure {a : α} (h : p.remaining = some n) (hn : n ≤ b) : Leaves (Pure.pure a) p b :=
  Returns.pure ⟨n, h, hn⟩

theorem mono (h : Leaves m p b) (hbc : b ≤ c) : Leaves m p c := by
  apply Returns.mono h
  rintro _ q ⟨n, hq, hn⟩
  exact ⟨n, hq, hn.trans hbc⟩

theorem bind (h : Leaves m p b)
    (hf : ∀ a q n, q.remaining = some n → n ≤ b → Leaves (f a) q c) : Leaves (m >>= f) p c := by
  apply Returns.bind h
  rintro a q ⟨n, hq, hn⟩
  exact hf a q n hq hn

/-- Looking at the state changes nothing. -/
theorem look {γ : Type} {g : Parser → γ} {f : γ → Parse β} (h : Leaves (f (g p)) p c) :
    Leaves ((do return g (← get) : Parse γ) >>= f) p c := h

theorem check {f : Bool → Parse β} (h : Leaves (f (p.check kind)) p c) :
    Leaves (checkToken kind >>= f) p c := h

theorem current {f : Token → Parse β} (h : Leaves (f p.current) p c) :
    Leaves (currentToken >>= f) p c := h

theorem previous {f : Token → Parse β} (h : Leaves (f p.previous) p c) :
    Leaves (previousToken >>= f) p c := h

theorem advance (h : p.remaining = some n) : Leaves advanceToken p (n - 1) :=
  Returns.of_eq rfl ⟨n - 1, Parser.remaining_next h, le_rfl⟩

theorem error (h : p.remaining = some n) (token : Token) (code : DiagnosticCode)
    (message : String) : Leaves (errorWithCode token code message) p n :=
  Returns.of_eq rfl ⟨n, h, le_rfl⟩

theorem matchIte (h : p.remaining = some n) (hne : kind ≠ .eof)
    (hA : ∀ q, 0 < n → q.remaining = some (n - 1) → Leaves A q c)
    (hB : p.check kind = false → Leaves B p c) :
    Leaves (do if ← matchToken kind then A else B) p c := by
  by_cases hk : p.check kind = true
  · have hrun : matchToken kind p = some (true, p.next) := by
      change (if p.check kind = true then _ else _ : Parse Bool) p = _
      rw [if_pos hk]
      rfl
    refine Returns.bind (Returns.of_eq (Q := fun b q ↦ b = true ∧ q = p.next) hrun ⟨rfl, rfl⟩) ?_
    rintro _ _ ⟨rfl, rfl⟩
    exact hA _ (Parser.remaining_pos h hk hne) (Parser.remaining_next h)
  · have hrun : matchToken kind p = some (false, p) := by
      change (if p.check kind = true then _ else _ : Parse Bool) p = _
      rw [if_neg hk]
      rfl
    refine Returns.bind (Returns.of_eq (Q := fun b q ↦ b = false ∧ q = p) hrun ⟨rfl, rfl⟩) ?_
    rintro _ _ ⟨rfl, rfl⟩
    exact hB (by simpa using hk)

theorem consume (h : p.remaining = some n) (message : String) :
    Leaves (consume kind message) p n := by
  apply check
  split
  · exact (advance h).mono (Nat.sub_le n 1)
  · apply current
    exact (error h _ _ _).bind fun _ q k hq hk ↦ pure hq hk

/-- A token that is there is consumed. -/
theorem consume_of_check (h : p.remaining = some n) (hk : p.check kind = true) (message : String) :
    Leaves (CalcKernel.consume kind message) p (n - 1) := by
  apply check
  rw [if_pos hk]
  exact advance h

theorem parseIdentifier (h : p.remaining = some n) (message : String) :
    Leaves (parseIdentifier message) p n :=
  (consume h message).bind fun _ _ _ hq hn ↦ pure hq hn

end Leaves

/-! ## Recovery -/

section

variable {p : Parser} {n fuel : Nat}

/-- Skipping ends at the first token it looks for, and consumes all before it. -/
theorem returns_skipUntil {stop : Parser → Bool} (hstop : ∀ q, q.check .eof = true → stop q = true)
    (h : p.remaining = some n) (hfuel : n ≤ fuel) :
    Returns (skipUntil stop fuel) p fun _ q ↦ stop q = true ∧
      ∃ k, q.remaining = some k ∧ k ≤ n ∧ (k < n ∨ q = p) := by
  obtain ⟨q, hq, ⟨k, hk, hle, hlt⟩, hend⟩ : ∃ q,
      whileLoop (fun p ↦ !stop p) (fun p ↦ some p.next) fuel p = some q ∧
        (∃ k, q.remaining = some k ∧ k ≤ n ∧ (k < n ∨ q = p)) ∧ (!stop q) = false := by
    apply whileLoop.terminates _ _ _ (fun q : Parser ↦ q.remaining.getD 0)
    · rintro s ⟨k, hk, hle, _⟩ hcond
      have hpos : 0 < k := by
        apply Nat.pos_of_ne_zero
        intro hzero
        rw [hstop s ((Parser.check_eof_iff hk).mpr hzero)] at hcond
        cases hcond
      have hnext := Parser.remaining_next hk
      refine ⟨s.next, rfl, ⟨k - 1, hnext, by omega, Or.inl (by omega)⟩, ?_⟩
      rw [hnext, hk, Option.getD_some, Option.getD_some]
      omega
    · exact ⟨n, h, le_rfl, Or.inr rfl⟩
    · rwa [h, Option.getD_some]
  refine Returns.of_eq (a := ()) (t := q) ?_ ⟨by simpa using hend, k, hk, hle, hlt⟩
  rw [skipUntil, hq]
  rfl

theorem leaves_skipUntil {stop : Parser → Bool} (hstop : ∀ q, q.check .eof = true → stop q = true)
    (h : p.remaining = some n) (hfuel : n ≤ fuel) : Leaves (skipUntil stop fuel) p n := by
  apply (returns_skipUntil hstop h hfuel).mono
  rintro _ q ⟨_, k, hk, hle, _⟩
  exact ⟨k, hk, hle⟩

theorem leaves_matchToken {kind : TokenKind} (h : p.remaining = some n) :
    Leaves (matchToken kind) p n := by
  apply Leaves.check
  split
  · exact (Leaves.advance h).bind fun _ _ _ hq hk ↦ Leaves.pure hq (hk.trans (Nat.sub_le n 1))
  · exact Leaves.pure h le_rfl

theorem recoverToRightBracket_leaves (h : p.remaining = some n) (hfuel : n ≤ fuel) :
    Leaves (recoverToRightBracket fuel) p n := by
  apply (leaves_skipUntil (by simp +contextual) h hfuel).bind
  intro _ q k hq hk
  exact (Leaves.consume hq _).mono hk

theorem synchronizeStatement_leaves (h : p.remaining = some n) (hfuel : n ≤ fuel) :
    Leaves (synchronizeStatement fuel) p n := by
  apply (leaves_skipUntil (by simp +contextual) h hfuel).bind
  intro _ q k hq hk
  apply (leaves_matchToken hq).bind
  intro _ r j hr hj
  exact Leaves.pure hr (hj.trans hk)

/-- In front of a clause that is none, a token is consumed. -/
theorem synchronizeContractClause_leaves (h : p.remaining = some n) (hfuel : n ≤ fuel)
    (heof : p.check .eof = false) (hbrace : p.check .rightBrace = false) :
    Leaves (synchronizeContractClause fuel) p (n - 1) := by
  apply Returns.bind (returns_skipUntil (by simp +contextual) h hfuel)
  rintro _ q ⟨hstop, k, hk, hle, hlt | rfl⟩
  · apply (leaves_matchToken hk).bind
    intro _ r j hr hj
    exact Leaves.pure hr (by omega)
  · have hsemicolon : q.check .semicolon = true := by simpa [heof, hbrace] using hstop
    have hmatch : Leaves (matchToken .semicolon) q (k - 1) := by
      apply Leaves.check
      rw [if_pos hsemicolon]
      exact (Leaves.advance hk).bind fun _ _ _ hr hj ↦ Leaves.pure hr hj
    apply hmatch.bind
    intro _ r j hr hj
    exact Leaves.pure hr (by omega)

theorem skipBraces_leaves (fuel depth : Nat) (h : p.remaining = some n) (hfuel : n < fuel) :
    Leaves (skipBraces fuel depth) p n := by
  induction fuel generalizing p n depth with
  | zero => exact absurd hfuel (Nat.not_lt_zero n)
  | succ fuel ih =>
      unfold skipBraces
      split
      · exact Leaves.pure h le_rfl
      · apply Leaves.check
        split
        · exact Leaves.pure h le_rfl
        · rename_i heof
          rw [Parser.check_eof_iff h] at heof
          apply (Leaves.advance h).bind
          intro token q k hq hk
          exact (ih _ hq (by omega)).mono (by omega)

theorem skipBracedDeclaration_leaves (h : p.remaining = some n) (hfuel : n < fuel) :
    Leaves (skipBracedDeclaration fuel) p n := by
  apply Leaves.matchIte h (by decide)
  · intro q hpos hq
    exact (skipBraces_leaves fuel 1 hq (by omega)).mono (Nat.sub_le n 1)
  · intro _
    exact Leaves.pure h le_rfl

end

/-! ## Types -/

theorem parseType_leaves (fuel : Nat) {p : Parser} {n : Nat} (h : p.remaining = some n)
    (hfuel : n < fuel) : Leaves (parseType fuel) p (n - 1) := by
  induction fuel generalizing p n with
  | zero => exact absurd hfuel (Nat.not_lt_zero n)
  | succ fuel ih =>
      -- the part that pointers and slices share
      have helement : ∀ {kind : TokenKind} (message stop : String)
          (node : Token → TypeNode → Token → TypeNode), p.check kind = true → kind ≠ .eof →
          Leaves (do
            let token ← advanceToken
            let _ ← consume .less message
            let elementType ← parseType fuel
            let greater ← consume .greater stop
            return node token elementType greater) p (n - 1) := by
        intro kind message stop node hk hne
        have hpos := Parser.remaining_pos h hk hne
        apply (Leaves.advance h).bind
        intro token q₁ n₁ h₁ hn₁
        apply (Leaves.consume h₁ _).bind
        intro _ q₂ n₂ h₂ hn₂
        apply (ih h₂ (by omega)).bind
        intro elementType q₃ n₃ h₃ hn₃
        apply (Leaves.consume h₃ _).bind
        intro greater q₄ n₄ h₄ hn₄
        exact Leaves.pure h₄ (by omega)
      have hadvance : ∀ node : TypeNode,
          Leaves (do let _ ← advanceToken; return node) p (n - 1) := fun node ↦
        (Leaves.advance h).bind fun _ _ _ hq hk ↦ Leaves.pure hq hk
      unfold parseType
      apply Leaves.current
      split
      any_goals exact hadvance _
      · rename_i hk
        apply (Leaves.bind (b := n - 1))
        · exact (Leaves.consume_of_check h (Parser.check_iff.mpr hk) _).bind
            fun _ _ _ hq hk ↦ Leaves.pure hq hk
        · intro name q k hq hk
          exact Leaves.pure hq hk
      · rename_i hk
        exact helement _ _ (fun ptrToken elementType greater ↦
          .pointer elementType (spanBetweenTokens ptrToken greater)) (Parser.check_iff.mpr hk)
          (by decide)
      · rename_i hk
        exact helement _ _ (fun sliceToken elementType greater ↦
          .slice elementType (spanBetweenTokens sliceToken greater)) (Parser.check_iff.mpr hk)
          (by decide)
      · apply (Leaves.error h _ _ _).bind
        intro _ q k hq hk
        exact ((Leaves.advance hq).bind fun _ _ _ hr hj ↦ Leaves.pure hr hj).mono (by omega)

/-! ## Expressions -/

/-- With so much fuel the functions on expressions return; they consume a token, the
loops may consume none. -/
structure ExpressionsLeave (fuel : Nat) : Prop where
  expression : ∀ {p n} (k : Nat), p.remaining = some n → 5 * n + 4 ≤ fuel → 1 ≤ k →
    Leaves (parseExpression fuel k) p (n - 1)
  operators : ∀ {p n} (k : Nat) (left : Expression), p.remaining = some n → 5 * n + 3 ≤ fuel →
    1 ≤ k → Leaves (parseBinaryOperators fuel k left) p n
  unary : ∀ {p n}, p.remaining = some n → 5 * n + 3 ≤ fuel →
    Leaves (parseUnaryExpression fuel) p (n - 1)
  trailing : ∀ {p n} (e : Expression), p.remaining = some n → 5 * n + 2 ≤ fuel →
    Leaves (parsePostfixExpression fuel e) p n
  argumentList : ∀ {p n}, p.remaining = some n → 5 * n + 6 ≤ fuel →
    Leaves (parseArgumentList fuel) p n
  arguments : ∀ {p n}, p.remaining = some n → 5 * n + 5 ≤ fuel →
    Leaves (parseArguments fuel) p (n - 1)
  primary : ∀ {p n}, p.remaining = some n → 5 * n + 2 ≤ fuel →
    Leaves (parsePrimaryExpression fuel) p (n - 1)

namespace ExpressionsLeave

variable {fuel n : Nat} {p : Parser}

theorem expression_succ (ih : ExpressionsLeave fuel) (k : Nat) (h : p.remaining = some n)
    (hfuel : 5 * n + 4 ≤ fuel + 1) (hk : 1 ≤ k) : Leaves (parseExpression (fuel + 1) k) p (n - 1) := by
  unfold parseExpression
  apply (ih.unary h (by omega)).bind
  intro left q m hq hm
  exact (ih.operators k left hq (by omega) hk).mono hm

theorem operators_succ (ih : ExpressionsLeave fuel) (k : Nat) (left : Expression)
    (h : p.remaining = some n) (hfuel : 5 * n + 3 ≤ fuel + 1) (hk : 1 ≤ k) :
    Leaves (parseBinaryOperators (fuel + 1) k left) p n := by
  unfold parseBinaryOperators
  apply Leaves.current
  dsimp only
  split
  · exact Leaves.pure h le_rfl
  · rename_i hprecedence
    have hpos : 0 < n := by
      apply Nat.pos_of_ne_zero
      intro hn
      have heof := Parser.check_iff.mp ((Parser.check_eof_iff h).mpr hn)
      rw [heof] at hprecedence
      exact hprecedence hk
    apply (Leaves.advance h).bind
    intro _ q m hq hm
    apply (ih.expression _ hq (by omega) (by omega)).bind
    intro right r j hr hj
    exact (ih.operators k _ hr (by omega) hk).mono (by omega)

theorem unary_succ (ih : ExpressionsLeave fuel) (h : p.remaining = some n)
    (hfuel : 5 * n + 3 ≤ fuel + 1) : Leaves (parseUnaryExpression (fuel + 1)) p (n - 1) := by
  unfold parseUnaryExpression
  apply Leaves.check
  apply Leaves.check
  split
  · rename_i hoperator
    have hpos : 0 < n := by
      rw [Bool.or_eq_true] at hoperator
      rcases hoperator with hk | hk
      · exact Parser.remaining_pos h hk (by decide)
      · exact Parser.remaining_pos h hk (by decide)
    apply (Leaves.advance h).bind
    intro operator q m hq hm
    apply (ih.expression 7 hq (by omega) (by omega)).bind
    intro operand r j hr hj
    exact Leaves.pure hr (by omega)
  · apply (ih.primary h (by omega)).bind
    intro primary q m hq hm
    exact (ih.trailing primary hq (by omega)).mono hm

theorem trailing_succ (ih : ExpressionsLeave fuel) (e : Expression) (h : p.remaining = some n)
    (hfuel : 5 * n + 2 ≤ fuel + 1) : Leaves (parsePostfixExpression (fuel + 1) e) p n := by
  unfold parsePostfixExpression
  apply Leaves.matchIte h (by decide)
  · -- a call
    intro q hpos hq
    apply (ih.argumentList hq (by omega)).bind
    intro args r j hr hj
    apply (Leaves.consume hr _).bind
    intro rightParen t i ht hi
    exact (ih.trailing _ ht (by omega)).mono (by omega)
  · intro _
    apply Leaves.matchIte h (by decide)
    · -- a field
      intro q hpos hq
      apply (Leaves.parseIdentifier hq _).bind
      intro field r j hr hj
      exact (ih.trailing _ hr (by omega)).mono (by omega)
    · intro _
      apply Leaves.matchIte h (by decide)
      · intro q hpos hq
        apply Leaves.check
        split
        · apply Leaves.current
          apply (Leaves.error hq _ _ _).bind
          intro _ r j hr hj
          apply (recoverToRightBracket_leaves hr (by omega)).bind
          intro rightBracket t i ht hi
          exact (ih.trailing _ ht (by omega)).mono (by omega)
        · apply (ih.expression 1 hq (by omega) le_rfl).bind
          intro position r j hr hj
          apply Leaves.matchIte hr (by decide)
          · intro t hpos' ht
            apply Leaves.check
            split
            · apply Leaves.current
              apply (Leaves.error ht _ _ _).bind
              intro _ u i hu hi
              apply (Leaves.advance hu).bind
              intro rightBracket v g hv hg
              exact (ih.trailing _ hv (by omega)).mono (by omega)
            · apply (ih.expression 1 ht (by omega) le_rfl).bind
              intro stop u i hu hi
              apply Leaves.check
              split
              · apply Leaves.current
                apply (Leaves.error hu _ _ _).bind
                intro _ v g hv hg
                apply (recoverToRightBracket_leaves hv (by omega)).bind
                intro rightBracket w f hw hf
                exact (ih.trailing _ hw (by omega)).mono (by omega)
              · apply (Leaves.consume hu _).bind
                intro rightBracket v g hv hg
                exact (ih.trailing _ hv (by omega)).mono (by omega)
          · intro _
            apply (Leaves.consume hr _).bind
            intro rightBracket t i ht hi
            exact (ih.trailing _ ht (by omega)).mono (by omega)
      · intro _
        exact Leaves.pure h le_rfl

theorem argumentList_succ (ih : ExpressionsLeave fuel) (h : p.remaining = some n)
    (hfuel : 5 * n + 6 ≤ fuel + 1) : Leaves (parseArgumentList (fuel + 1)) p n := by
  unfold parseArgumentList
  apply Leaves.check
  split
  · exact Leaves.pure h le_rfl
  · exact (ih.arguments h (by omega)).mono (Nat.sub_le n 1)

theorem arguments_succ (ih : ExpressionsLeave fuel) (h : p.remaining = some n)
    (hfuel : 5 * n + 5 ≤ fuel + 1) : Leaves (parseArguments (fuel + 1)) p (n - 1) := by
  unfold parseArguments
  apply (ih.expression 1 h (by omega) le_rfl).bind
  intro argument q m hq hm
  apply Leaves.matchIte hq (by decide)
  · intro r hpos hr
    apply (ih.arguments hr (by omega)).bind
    intro rest t j ht hj
    exact Leaves.pure ht (by omega)
  · intro _
    exact Leaves.pure hq hm

theorem primary_succ (ih : ExpressionsLeave fuel) (h : p.remaining = some n)
    (hfuel : 5 * n + 2 ≤ fuel + 1) : Leaves (parsePrimaryExpression (fuel + 1)) p (n - 1) := by
  unfold parsePrimaryExpression
  apply Leaves.current
  iterate 5
    apply Leaves.matchIte h (by decide) (fun q _ hq ↦ Leaves.pure hq le_rfl)
    intro _
  apply Leaves.matchIte h (by decide)
  · -- a slice construction
    intro q hpos hq
    apply (Leaves.consume hq _).bind
    intro _ r j hr hj
    apply (ih.expression 1 hr (by omega) le_rfl).bind
    intro data t i ht hi
    apply (Leaves.consume ht _).bind
    intro _ u g hu hg
    apply (ih.expression 1 hu (by omega) le_rfl).bind
    intro len v f hv hf
    apply (Leaves.consume hv _).bind
    intro rightParen w d hw hd
    exact Leaves.pure hw (by omega)
  · intro _
    apply Leaves.matchIte h (by decide)
    · intro q hpos hq
      apply (ih.expression 1 hq (by omega) le_rfl).bind
      intro expression r j hr hj
      apply (Leaves.consume hr _).bind
      intro rightParen t i ht hi
      exact Leaves.pure ht (by omega)
    · intro _
      apply (Leaves.error h _ _ _).bind
      intro _ q j hq hj
      apply (Leaves.advance hq).bind
      intro _ r i hr hi
      exact Leaves.pure hr (by omega)

end ExpressionsLeave

theorem expressionsLeave (fuel : Nat) : ExpressionsLeave fuel := by
  induction fuel with
  | zero =>
      constructor
      all_goals
        intros
        omega
  | succ fuel ih =>
      exact {
        expression := ih.expression_succ
        operators := ih.operators_succ
        unary := ih.unary_succ
        trailing := ih.trailing_succ
        argumentList := ih.argumentList_succ
        arguments := ih.arguments_succ
        primary := ih.primary_succ }

theorem parseExpression_leaves {fuel n k : Nat} {p : Parser} (h : p.remaining = some n)
    (hfuel : 5 * n + 4 ≤ fuel) (hk : 1 ≤ k) : Leaves (parseExpression fuel k) p (n - 1) :=
  (expressionsLeave fuel).expression k h hfuel hk

/-! ## Statements -/

section

variable {fuel n : Nat} {p : Parser}

theorem parseLetStatement_leaves (h : p.remaining = some n) (hfuel : 5 * n + 4 ≤ fuel)
    (hk : p.check .kwLet = true) : Leaves (parseLetStatement fuel) p (n - 1) := by
  apply (Leaves.consume_of_check h hk _).bind
  intro letToken p₁ n₁ h₁ hn₁
  apply (Leaves.parseIdentifier h₁ _).bind
  intro name p₂ n₂ h₂ hn₂
  apply (Leaves.consume h₂ _).bind
  intro _ p₃ n₃ h₃ hn₃
  apply (parseType_leaves fuel h₃ (by omega)).bind
  intro typeNode p₄ n₄ h₄ hn₄
  apply (Leaves.consume h₄ _).bind
  intro _ p₅ n₅ h₅ hn₅
  apply (parseExpression_leaves h₅ (by omega) le_rfl).bind
  intro initializer p₆ n₆ h₆ hn₆
  apply (Leaves.consume h₆ _).bind
  intro semicolon p₇ n₇ h₇ hn₇
  exact Leaves.pure h₇ (by omega)

theorem parseAssignmentOrCallStatement_leaves (h : p.remaining = some n)
    (hfuel : 5 * n + 4 ≤ fuel) : Leaves (parseAssignmentOrCallStatement fuel) p (n - 1) := by
  unfold parseAssignmentOrCallStatement
  apply Leaves.current
  apply (parseExpression_leaves h hfuel le_rfl).bind
  intro target p₁ n₁ h₁ hn₁
  apply Leaves.matchIte h₁ (by decide)
  · intro p₂ hpos h₂
    apply (parseExpression_leaves h₂ (by omega) le_rfl).bind
    intro value p₃ n₃ h₃ hn₃
    apply (Leaves.consume h₃ _).bind
    intro semicolon p₄ n₄ h₄ hn₄
    exact Leaves.pure h₄ (by omega)
  · intro _
    split
    · apply (Leaves.consume h₁ _).bind
      intro semicolon p₂ n₂ h₂ hn₂
      exact Leaves.pure h₂ (by omega)
    · apply Leaves.current
      apply (Leaves.error h₁ _ _ _).bind
      intro _ p₂ n₂ h₂ hn₂
      apply (synchronizeStatement_leaves h₂ (by omega)).bind
      intro _ p₃ n₃ h₃ hn₃
      exact Leaves.pure h₃ (by omega)

theorem parseReturnValue_leaves (returnToken : Token) (h : p.remaining = some n)
    (hfuel : 5 * n + 4 ≤ fuel) : Leaves (parseReturnValue fuel returnToken) p n := by
  apply Leaves.look (g := id)
  split
  · exact Leaves.pure h le_rfl
  · apply (parseExpression_leaves h hfuel le_rfl).bind
    intro value p₁ n₁ h₁ hn₁
    exact Leaves.pure h₁ (by omega)

theorem parseReturnStatement_leaves (h : p.remaining = some n) (hfuel : 5 * n + 4 ≤ fuel)
    (hk : p.check .kwReturn = true) : Leaves (parseReturnStatement fuel) p (n - 1) := by
  apply (Leaves.consume_of_check h hk _).bind
  intro returnToken p₁ n₁ h₁ hn₁
  apply (parseReturnValue_leaves returnToken h₁ (by omega)).bind
  intro value p₂ n₂ h₂ hn₂
  apply (Leaves.consume h₂ _).bind
  intro semicolon p₃ n₃ h₃ hn₃
  exact Leaves.pure h₃ (by omega)

/-- A keyword and a semicolon behind it. -/
theorem keywordStatement_leaves {kind : TokenKind} (h : p.remaining = some n)
    (hk : p.check kind = true) (message stop : String) (node : Token → Token → Statement) :
    Leaves (do
      let token ← consume kind message
      let semicolon ← consume .semicolon stop
      return node token semicolon) p (n - 1) := by
  apply (Leaves.consume_of_check h hk _).bind
  intro token p₁ n₁ h₁ hn₁
  apply (Leaves.consume h₁ _).bind
  intro semicolon p₂ n₂ h₂ hn₂
  exact Leaves.pure h₂ (hn₂.trans hn₁)

/-- With so much fuel the functions on statements return; a statement consumes a token. -/
structure StatementsLeave (fuel : Nat) : Prop where
  block : ∀ {p n}, p.remaining = some n → 5 * n + 7 ≤ fuel → Leaves (parseBlockStatement fuel) p n
  bracedBlock : ∀ {p n}, p.remaining = some n → 5 * n + 2 ≤ fuel → p.check .leftBrace = true →
    Leaves (parseBlockStatement fuel) p (n - 1)
  statements : ∀ {p n}, p.remaining = some n → 5 * n + 6 ≤ fuel →
    Leaves (parseStatements fuel) p n
  statement : ∀ {p n}, p.remaining = some n → 5 * n + 5 ≤ fuel →
    Leaves (parseStatement fuel) p (n - 1)
  ifStatement : ∀ {p n}, p.remaining = some n → 5 * n + 4 ≤ fuel → p.check .kwIf = true →
    Leaves (parseIfStatement fuel) p (n - 1)
  whileStatement : ∀ {p n}, p.remaining = some n → 5 * n + 4 ≤ fuel → p.check .kwWhile = true →
    Leaves (parseWhileStatement fuel) p (n - 1)

namespace StatementsLeave

theorem block_succ (ih : StatementsLeave fuel) (h : p.remaining = some n)
    (hfuel : 5 * n + 7 ≤ fuel + 1) : Leaves (parseBlockStatement (fuel + 1)) p n := by
  unfold parseBlockStatement
  apply (Leaves.consume h _).bind
  intro leftBrace p₁ n₁ h₁ hn₁
  apply (ih.statements h₁ (by omega)).bind
  intro statements p₂ n₂ h₂ hn₂
  apply (Leaves.consume h₂ _).bind
  intro rightBrace p₃ n₃ h₃ hn₃
  exact Leaves.pure h₃ (by omega)

theorem bracedBlock_succ (ih : StatementsLeave fuel) (h : p.remaining = some n)
    (hfuel : 5 * n + 2 ≤ fuel + 1) (hk : p.check .leftBrace = true) :
    Leaves (parseBlockStatement (fuel + 1)) p (n - 1) := by
  have hpos := Parser.remaining_pos h hk (by decide)
  unfold parseBlockStatement
  apply (Leaves.consume_of_check h hk _).bind
  intro leftBrace p₁ n₁ h₁ hn₁
  apply (ih.statements h₁ (by omega)).bind
  intro statements p₂ n₂ h₂ hn₂
  apply (Leaves.consume h₂ _).bind
  intro rightBrace p₃ n₃ h₃ hn₃
  exact Leaves.pure h₃ (by omega)

theorem statements_succ (ih : StatementsLeave fuel) (h : p.remaining = some n)
    (hfuel : 5 * n + 6 ≤ fuel + 1) : Leaves (parseStatements (fuel + 1)) p n := by
  unfold parseStatements
  apply Leaves.check
  apply Leaves.check
  split
  · exact Leaves.pure h le_rfl
  · rename_i hstop
    have heof : n ≠ 0 := by
      intro hn
      rw [(Parser.check_eof_iff h).mpr hn, Bool.or_true] at hstop
      exact hstop rfl
    apply (ih.statement h (by omega)).bind
    intro statement p₁ n₁ h₁ hn₁
    apply (ih.statements h₁ (by omega)).bind
    intro rest p₂ n₂ h₂ hn₂
    exact Leaves.pure h₂ (by omega)

theorem statement_succ (ih : StatementsLeave fuel) (h : p.remaining = some n)
    (hfuel : 5 * n + 5 ≤ fuel + 1) : Leaves (parseStatement (fuel + 1)) p (n - 1) := by
  have hexpressions : 5 * n + 4 ≤ fuel := by omega
  unfold parseStatement
  apply Leaves.check
  split
  · rename_i hk
    apply (ih.bracedBlock h (by omega) hk).bind
    intro block p₁ n₁ h₁ hn₁
    exact Leaves.pure h₁ hn₁
  apply Leaves.matchIte h (by decide)
  · intro p₁ hpos h₁
    apply Leaves.previous
    apply (ih.block h₁ (by omega)).bind
    intro block p₂ n₂ h₂ hn₂
    exact Leaves.pure h₂ hn₂
  intro _
  apply Leaves.check
  split
  · rename_i hk
    exact parseLetStatement_leaves h hexpressions hk
  apply Leaves.check
  split
  · rename_i hk
    exact parseReturnStatement_leaves h hexpressions hk
  apply Leaves.check
  split
  · rename_i hk
    exact keywordStatement_leaves h hk _ _ _
  apply Leaves.check
  split
  · rename_i hk
    exact keywordStatement_leaves h hk _ _ _
  apply Leaves.check
  split
  · rename_i hk
    exact ih.ifStatement h hexpressions hk
  apply Leaves.check
  split
  · rename_i hk
    exact ih.whileStatement h hexpressions hk
  · exact parseAssignmentOrCallStatement_leaves h hexpressions

theorem ifStatement_succ (ih : StatementsLeave fuel) (h : p.remaining = some n)
    (hfuel : 5 * n + 4 ≤ fuel + 1) (hk : p.check .kwIf = true) :
    Leaves (parseIfStatement (fuel + 1)) p (n - 1) := by
  have hpos := Parser.remaining_pos h hk (by decide)
  unfold parseIfStatement
  apply (Leaves.consume_of_check h hk _).bind
  intro ifToken p₁ n₁ h₁ hn₁
  apply (parseExpression_leaves h₁ (by omega) le_rfl).bind
  intro condition p₂ n₂ h₂ hn₂
  apply (ih.block h₂ (by omega)).bind
  intro thenBlock p₃ n₃ h₃ hn₃
  apply Leaves.matchIte h₃ (by decide)
  · intro p₄ hpos' h₄
    apply (ih.block h₄ (by omega)).bind
    intro elseBlock p₅ n₅ h₅ hn₅
    exact Leaves.pure h₅ (by omega)
  · intro _
    exact Leaves.pure h₃ (by omega)

theorem whileStatement_succ (ih : StatementsLeave fuel) (h : p.remaining = some n)
    (hfuel : 5 * n + 4 ≤ fuel + 1) (hk : p.check .kwWhile = true) :
    Leaves (parseWhileStatement (fuel + 1)) p (n - 1) := by
  have hpos := Parser.remaining_pos h hk (by decide)
  unfold parseWhileStatement
  apply (Leaves.consume_of_check h hk _).bind
  intro whileToken p₁ n₁ h₁ hn₁
  apply (parseExpression_leaves h₁ (by omega) le_rfl).bind
  intro condition p₂ n₂ h₂ hn₂
  apply (ih.block h₂ (by omega)).bind
  intro body p₃ n₃ h₃ hn₃
  exact Leaves.pure h₃ (by omega)

end StatementsLeave

theorem statementsLeave (fuel : Nat) : StatementsLeave fuel := by
  induction fuel with
  | zero =>
      constructor
      all_goals
        intros
        omega
  | succ fuel ih =>
      exact {
        block := ih.block_succ
        bracedBlock := ih.bracedBlock_succ
        statements := ih.statements_succ
        statement := ih.statement_succ
        ifStatement := ih.ifStatement_succ
        whileStatement := ih.whileStatement_succ }

theorem parseStatement_leaves (h : p.remaining = some n) (hfuel : 5 * n + 5 ≤ fuel) :
    Leaves (parseStatement fuel) p (n - 1) :=
  (statementsLeave fuel).statement h hfuel

theorem parseBlockStatement_leaves (h : p.remaining = some n) (hfuel : 5 * n + 7 ≤ fuel) :
    Leaves (parseBlockStatement fuel) p n :=
  (statementsLeave fuel).block h hfuel

/-! ## Contracts -/

theorem parseContractEffectItem_leaves (h : p.remaining = some n) :
    Leaves parseContractEffectItem p n := by
  apply (Leaves.consume h _).bind
  intro kindToken p₁ n₁ h₁ hn₁
  have hkind : Leaves (parseContractEffectKind kindToken) p₁ n₁ := by
    unfold parseContractEffectKind
    split
    · exact Leaves.pure h₁ le_rfl
    · exact (Leaves.error h₁ _ _ _).bind fun _ _ _ hq hk ↦ Leaves.pure hq hk
  apply hkind.bind
  intro kind p₂ n₂ h₂ hn₂
  apply (Leaves.consume h₂ _).bind
  intro _ p₃ n₃ h₃ hn₃
  apply (Leaves.parseIdentifier h₃ _).bind
  intro target p₄ n₄ h₄ hn₄
  apply (Leaves.consume h₄ _).bind
  intro rightParen p₅ n₅ h₅ hn₅
  exact Leaves.pure h₅ (by omega)

theorem parseContractEffectItems_leaves (fuel : Nat) (h : p.remaining = some n)
    (hfuel : n < fuel) : Leaves (parseContractEffectItems fuel) p n := by
  induction fuel generalizing p n with
  | zero => exact absurd hfuel (Nat.not_lt_zero n)
  | succ fuel ih =>
      unfold parseContractEffectItems
      apply (parseContractEffectItem_leaves h).bind
      intro item p₁ n₁ h₁ hn₁
      apply Leaves.matchIte h₁ (by decide)
      · intro p₂ hpos h₂
        apply (ih h₂ (by omega)).bind
        intro rest p₃ n₃ h₃ hn₃
        exact Leaves.pure h₃ (by omega)
      · intro _
        exact Leaves.pure h₁ hn₁

theorem parseContractEffectClause_leaves (effectsToken : Token) (h : p.remaining = some n)
    (hfuel : n < fuel) : Leaves (parseContractEffectClause fuel effectsToken) p n := by
  apply Leaves.matchIte h (by decide)
  · intro p₁ hpos h₁
    apply (Leaves.consume h₁ _).bind
    intro semicolon p₂ n₂ h₂ hn₂
    exact Leaves.pure h₂ (by omega)
  · intro _
    apply (parseContractEffectItems_leaves fuel h hfuel).bind
    intro items p₁ n₁ h₁ hn₁
    apply (Leaves.consume h₁ _).bind
    intro semicolon p₂ n₂ h₂ hn₂
    exact Leaves.pure h₂ (by omega)

theorem parseContractClause_leaves (clauses : ContractClauses) (h : p.remaining = some n)
    (hfuel : 5 * n + 4 ≤ fuel) (hbrace : p.check .rightBrace = false)
    (heof : p.check .eof = false) : Leaves (parseContractClause fuel clauses) p (n - 1) := by
  apply Leaves.matchIte h (by decide)
  · intro p₁ hpos h₁
    apply Leaves.previous
    apply (parseExpression_leaves h₁ (by omega) le_rfl).bind
    intro expression p₂ n₂ h₂ hn₂
    apply (Leaves.consume h₂ _).bind
    intro semicolon p₃ n₃ h₃ hn₃
    exact Leaves.pure h₃ (by omega)
  intro _
  apply Leaves.matchIte h (by decide)
  · intro p₁ hpos h₁
    apply Leaves.previous
    apply (parseContractEffectClause_leaves _ h₁ (by omega)).bind
    intro clause p₂ n₂ h₂ hn₂
    have hreport : Leaves (reportSecondEffects clauses) p₂ n₂ := by
      unfold reportSecondEffects
      split
      · apply Leaves.previous
        exact Leaves.error h₂ _ _ _
      · exact Leaves.pure h₂ le_rfl
    apply hreport.bind
    intro _ p₃ n₃ h₃ hn₃
    exact Leaves.pure h₃ (by omega)
  · intro _
    apply Leaves.current
    apply Returns.bind (Returns.of_eq (Q := fun _ q ↦ q = p.report p.current .ck1001
      "Expected 'requires' or 'effects' in contract.") rfl rfl)
    rintro _ q rfl
    apply (synchronizeContractClause_leaves (p := p.report _ _ _) h (by omega) heof hbrace).bind
    intro _ p₂ n₂ h₂ hn₂
    exact Leaves.pure h₂ hn₂

theorem parseContractClauses_leaves (fuel : Nat) (clauses : ContractClauses)
    (h : p.remaining = some n) (hfuel : 5 * n + 5 ≤ fuel) :
    Leaves (parseContractClauses fuel clauses) p n := by
  induction fuel generalizing p n clauses with
  | zero => omega
  | succ fuel ih =>
      unfold parseContractClauses
      apply Leaves.check
      apply Leaves.check
      split
      · exact Leaves.pure h le_rfl
      · rename_i hstop
        rw [Bool.not_eq_true, Bool.or_eq_false_iff] at hstop
        have heof : n ≠ 0 := by
          intro hn
          rw [(Parser.check_eof_iff h).mpr hn] at hstop
          cases hstop.2
        apply (parseContractClause_leaves clauses h (by omega) hstop.1 hstop.2).bind
        intro clauses p₁ n₁ h₁ hn₁
        exact (ih clauses h₁ (by omega)).mono (by omega)

theorem parseContract_leaves (h : p.remaining = some n) (hfuel : 5 * n + 5 ≤ fuel) :
    Leaves (parseContract fuel) p n := by
  apply Leaves.matchIte h (by decide)
  · intro p₁ hpos h₁
    apply Leaves.bind (b := n)
    · apply Leaves.previous
      apply (Leaves.consume h₁ _).bind
      intro _ p₂ n₂ h₂ hn₂
      apply (parseContractClauses_leaves fuel _ h₂ (by omega)).bind
      intro clauses p₃ n₃ h₃ hn₃
      apply (Leaves.consume h₃ _).bind
      intro rightBrace p₄ n₄ h₄ hn₄
      exact Leaves.pure h₄ (by omega)
    · intro contract p₂ n₂ h₂ hn₂
      exact Leaves.pure h₂ hn₂
  · intro _
    exact Leaves.pure h le_rfl

/-! ## Declarations -/

theorem parseFunctionParam_leaves (h : p.remaining = some n) (hfuel : n < fuel) :
    Leaves (parseFunctionParam fuel) p (n - 1) := by
  unfold parseFunctionParam
  apply Leaves.current
  apply (Leaves.parseIdentifier h _).bind
  intro name p₁ n₁ h₁ hn₁
  apply (Leaves.consume h₁ _).bind
  intro _ p₂ n₂ h₂ hn₂
  apply (parseType_leaves fuel h₂ (by omega)).bind
  intro typeNode p₃ n₃ h₃ hn₃
  exact Leaves.pure h₃ (by omega)

theorem parseFunctionParams_leaves (fuel : Nat) (h : p.remaining = some n)
    (hfuel : n + 2 ≤ fuel) : Leaves (parseFunctionParams fuel) p (n - 1) := by
  induction fuel generalizing p n with
  | zero => omega
  | succ fuel ih =>
      unfold parseFunctionParams
      apply (parseFunctionParam_leaves h (by omega)).bind
      intro param p₁ n₁ h₁ hn₁
      apply Leaves.matchIte h₁ (by decide)
      · intro p₂ hpos h₂
        apply (ih h₂ (by omega)).bind
        intro rest p₃ n₃ h₃ hn₃
        exact Leaves.pure h₃ (by omega)
      · intro _
        exact Leaves.pure h₁ hn₁

theorem parseParameterList_leaves (h : p.remaining = some n) (hfuel : n + 2 ≤ fuel) :
    Leaves (parseParameterList fuel) p n := by
  apply Leaves.check
  split
  · exact Leaves.pure h le_rfl
  · exact (parseFunctionParams_leaves fuel h hfuel).mono (Nat.sub_le n 1)

theorem parseStructField_leaves (h : p.remaining = some n) (hfuel : n < fuel) :
    Leaves (parseStructField fuel) p (n - 1) := by
  unfold parseStructField
  apply Leaves.current
  apply (Leaves.parseIdentifier h _).bind
  intro name p₁ n₁ h₁ hn₁
  apply (Leaves.consume h₁ _).bind
  intro _ p₂ n₂ h₂ hn₂
  apply (parseType_leaves fuel h₂ (by omega)).bind
  intro typeNode p₃ n₃ h₃ hn₃
  apply (Leaves.consume h₃ _).bind
  intro semicolon p₄ n₄ h₄ hn₄
  exact Leaves.pure h₄ (by omega)

theorem parseStructFields_leaves (fuel : Nat) (h : p.remaining = some n) (hfuel : n + 2 ≤ fuel) :
    Leaves (parseStructFields fuel) p n := by
  induction fuel generalizing p n with
  | zero => omega
  | succ fuel ih =>
      unfold parseStructFields
      apply Leaves.check
      apply Leaves.check
      split
      · exact Leaves.pure h le_rfl
      · rename_i hstop
        have heof : n ≠ 0 := by
          intro hn
          rw [(Parser.check_eof_iff h).mpr hn, Bool.or_true] at hstop
          exact hstop rfl
        apply (parseStructField_leaves h (by omega)).bind
        intro field p₁ n₁ h₁ hn₁
        apply (ih h₁ (by omega)).bind
        intro rest p₂ n₂ h₂ hn₂
        exact Leaves.pure h₂ (by omega)

theorem parseStructDeclaration_leaves (h : p.remaining = some n) (hfuel : n + 2 ≤ fuel)
    (hk : p.check .kwStruct = true) : Leaves (parseStructDeclaration fuel) p (n - 1) := by
  apply (Leaves.consume_of_check h hk _).bind
  intro structToken p₁ n₁ h₁ hn₁
  apply (Leaves.parseIdentifier h₁ _).bind
  intro name p₂ n₂ h₂ hn₂
  apply (Leaves.consume h₂ _).bind
  intro _ p₃ n₃ h₃ hn₃
  apply (parseStructFields_leaves fuel h₃ (by omega)).bind
  intro fields p₄ n₄ h₄ hn₄
  apply (Leaves.consume h₄ _).bind
  intro stop p₅ n₅ h₅ hn₅
  exact Leaves.pure h₅ (by omega)

theorem parseFunctionModifiers_leaves (h : p.remaining = some n) :
    Leaves parseFunctionModifiers p n := by
  apply (leaves_matchToken h).bind
  intro exported p₁ n₁ h₁ hn₁
  apply (leaves_matchToken h₁).bind
  intro isUnsafe p₂ n₂ h₂ hn₂
  split
  · apply Leaves.matchIte h₂ (by decide)
    · intro p₃ hpos h₃
      apply Leaves.previous
      apply (Leaves.error h₃ _ _ _).bind
      intro _ p₄ n₄ h₄ hn₄
      exact Leaves.pure h₄ (by omega)
    · intro _
      exact Leaves.pure h₂ (by omega)
  · exact Leaves.pure h₂ (by omega)

/-- Whatever is missing, the type behind the arrow consumes a token. -/
theorem parseFunctionDeclaration_leaves (h : p.remaining = some n) (hfuel : 5 * n + 7 ≤ fuel) :
    Leaves (parseFunctionDeclaration fuel) p (n - 1) := by
  unfold parseFunctionDeclaration
  apply Leaves.current
  apply (parseFunctionModifiers_leaves h).bind
  rintro ⟨exported, isUnsafe⟩ q m hq hm
  apply (Leaves.consume hq _).bind
  intro _ p₀ n₀ h₀ hn₀
  apply (Leaves.parseIdentifier h₀ _).bind
  intro name p₁ n₁ h₁ hn₁
  apply (Leaves.consume h₁ _).bind
  intro _ p₂ n₂ h₂ hn₂
  apply (parseParameterList_leaves h₂ (by omega)).bind
  intro params p₃ n₃ h₃ hn₃
  apply (Leaves.consume h₃ _).bind
  intro _ p₄ n₄ h₄ hn₄
  apply (Leaves.consume h₄ _).bind
  intro _ p₅ n₅ h₅ hn₅
  apply (parseType_leaves fuel h₅ (by omega)).bind
  intro returnType p₆ n₆ h₆ hn₆
  apply (parseContract_leaves h₆ (by omega)).bind
  intro contract p₇ n₇ h₇ hn₇
  apply (parseBlockStatement_leaves h₇ (by omega)).bind
  intro body p₈ n₈ h₈ hn₈
  exact Leaves.pure h₈ (by omega)

/-- A declaration that stands in the wrong place is skipped. -/
theorem misplacedDeclaration_leaves (code : DiagnosticCode) (message : String)
    (h : p.remaining = some n) (hfuel : n < fuel) :
    Leaves (do
      let token ← advanceToken
      errorWithCode token code message
      skipBracedDeclaration fuel
      return (none : Option Declaration)) p (n - 1) := by
  apply (Leaves.advance h).bind
  intro token p₁ n₁ h₁ hn₁
  apply (Leaves.error h₁ _ _ _).bind
  intro _ p₂ n₂ h₂ hn₂
  apply (skipBracedDeclaration_leaves h₂ (by omega)).bind
  intro _ p₃ n₃ h₃ hn₃
  exact Leaves.pure h₃ (by omega)

/-- Every round of the main loop consumes a token. -/
theorem parseDeclaration_leaves (h : p.remaining = some n) (hfuel : 5 * n + 7 ≤ fuel) :
    Leaves (parseDeclaration fuel) p (n - 1) := by
  apply Leaves.check
  split
  · rename_i hk
    apply (parseStructDeclaration_leaves h (by omega) hk).bind
    intro declaration p₁ n₁ h₁ hn₁
    exact Leaves.pure h₁ hn₁
  apply Leaves.check
  split
  · exact misplacedDeclaration_leaves _ _ h (by omega)
  apply Leaves.check
  apply Leaves.look (g := (·.nextIs .leftBrace))
  split
  · exact misplacedDeclaration_leaves _ _ h (by omega)
  apply Leaves.check
  apply Leaves.check
  apply Leaves.check
  split
  · apply (parseFunctionDeclaration_leaves h hfuel).bind
    intro declaration p₁ n₁ h₁ hn₁
    exact Leaves.pure h₁ hn₁
  · apply Leaves.current
    apply (Leaves.error h _ _ _).bind
    intro _ p₁ n₁ h₁ hn₁
    apply (Leaves.advance h₁).bind
    intro _ p₂ n₂ h₂ hn₂
    exact Leaves.pure h₂ (by omega)

theorem parseDeclarations_leaves (fuel : Nat) (h : p.remaining = some n)
    (hfuel : 5 * n + 8 ≤ fuel) : Leaves (parseDeclarations fuel) p n := by
  induction fuel generalizing p n with
  | zero => omega
  | succ fuel ih =>
      unfold parseDeclarations
      apply Leaves.check
      split
      · exact Leaves.pure h le_rfl
      · rename_i heof
        rw [Parser.check_eof_iff h] at heof
        apply (parseDeclaration_leaves h (by omega)).bind
        intro declaration p₁ n₁ h₁ hn₁
        apply (ih h₁ (by omega)).bind
        intro rest p₂ n₂ h₂ hn₂
        exact Leaves.pure h₂ (by omega)

theorem parseProgram_leaves (h : p.remaining = some n) (hfuel : 5 * n + 8 ≤ fuel) :
    Leaves (parseProgram fuel) p n := by
  apply Leaves.current
  apply (parseDeclarations_leaves fuel h hfuel).bind
  intro declarations p₁ n₁ h₁ hn₁
  apply Leaves.current
  exact Leaves.pure h₁ hn₁

end

/-- A token list with an end of file is parsed. -/
theorem parseTokens_returns {fuel : Nat} {fileName : String} {tokens : List Token}
    {diagnostics : List Diagnostic} (heof : ∃ token ∈ tokens, token.kind = .eof)
    (hfuel : 5 * tokens.length + 8 ≤ fuel) :
    ∃ result, parseTokens fuel fileName tokens diagnostics = some result := by
  obtain ⟨eofToken, hmem, hkind⟩ := heof
  cases tokens with
  | nil => cases hmem
  | cons token rest =>
      let p : Parser := ⟨fileName, [], token, rest, diagnostics⟩
      obtain ⟨n, hn, hlt⟩ : ∃ n, p.remaining = some n ∧ n < (token :: rest).length := by
        cases hfind : p.remaining with
        | none =>
            have hnot := List.findIdx?_eq_none_iff.mp hfind eofToken hmem
            simp [hkind] at hnot
        | some n =>
            obtain ⟨hlt, _⟩ := List.findIdx?_eq_some_iff_getElem.mp hfind
            exact ⟨n, rfl, hlt⟩
      obtain ⟨ast, q, hq, _⟩ : Leaves (parseProgram fuel) p n := parseProgram_leaves hn (by omega)
      refine ⟨⟨ast, q.diagnostics⟩, ?_⟩
      change (parseProgram fuel p).bind _ = _
      rw [hq]
      rfl

end CalcKernel
