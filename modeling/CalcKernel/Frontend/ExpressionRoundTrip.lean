import CalcKernel.Frontend.ParserSound

/-!
# Parsing undoes printing

The parser accepts the documented expression grammar, which is not ambiguous, and
from the spelling with the fewest parentheses it reads the tree that was written.
-/

namespace CalcKernel

theorem Parses.unique {α : Type} {f : Nat → Parse α} {p q r : Parser} {a b : α}
    (h : Parses f p a q) (h' : Parses f p b r) : a = b ∧ q = r := by
  obtain ⟨enough, h⟩ := h
  obtain ⟨enough', h'⟩ := h'
  have heq := (h (enough + enough') (by omega)).symm.trans (h' (enough + enough') (by omega))
  exact Prod.mk.inj (Option.some.inj heq)

/-- A token with the lexeme, somewhere. -/
def Lexeme.token (l : Lexeme) : Token where
  kind := l.kind
  text := l.text
  line := 1
  column := 1
  start := 0
  stop := 0

/-- The parser in front of the lexemes and the end of the file. -/
def Parser.inFrontOf (first : Lexeme) (tail : List Lexeme) : Parser where
  fileName := ""
  before := []
  current := first.token
  after := tail.map Lexeme.token ++ [TokenKind.eof.lexeme.token]
  diagnostics := []

/-- The grammar is not ambiguous: the parser reads one tree only. -/
theorem Derives.unique {ls : List Lexeme} {t t' : Tree} (h : Derives 1 ls t)
    (h' : Derives 1 ls t') : t = t' := by
  obtain ⟨first, tail, rfl, _⟩ := h.exists_head
  have htokens : (((first :: tail).map Lexeme.token).map Token.lexeme) = first :: tail := by
    rw [List.map_map]
    exact List.map_id _
  have hahead : (Parser.inFrontOf first tail).ahead =
      (first :: tail).map Lexeme.token ++ [TokenKind.eof.lexeme.token] := rfl
  obtain ⟨e, q, htree, _, _, hparses⟩ := h.parses htokens hahead (by decide)
  obtain ⟨e', q', htree', _, _, hparses'⟩ := h'.parses htokens hahead (by decide)
  obtain ⟨rfl, rfl⟩ := hparses.unique hparses'
  exact Option.some.inj (htree.symm.trans htree')

/-- What is parsed without a report is derived by the grammar. -/
theorem parseExpression_derives {fuel : Nat} {p q : Parser} {e : Expression} (hp : p.WellFormed)
    (hparse : parseExpression fuel 1 p = some (e, q)) (hclean : q.diagnostics = p.diagnostics) :
    ∃ tokens t, p.ahead = tokens ++ q.ahead ∧ e.tree? = some t ∧
      Derives 1 (tokens.map Token.lexeme) t ∧ q.current.kind.EndsExpression := by
  obtain ⟨_, hreads⟩ := (expressionsSound fuel).expression p 1 le_rfl (by omega) e q hparse
  obtain ⟨_, ⟨tokens, t, hahead, htree, hderives⟩, hsuffix, hprecedence⟩ :=
    hreads (congrArg List.length hclean) hp
  exact ⟨tokens, t, hahead, htree, hderives, Nat.lt_one_iff.mp hprecedence, hsuffix⟩

/-- Every tree is read back from its minimal spelling, which is the shortest that the grammar
derives and belongs to no other tree; and what the parser accepts is what the grammar derives. -/
theorem parseExpression_undoes_minimal :
    (∀ t : Tree, Derives 1 (t.minimal 1) t ∧
      ∀ ls, Derives 1 ls t → (t.minimal 1).length ≤ ls.length) ∧
    (∀ (t : Tree) (p : Parser) (tokens rest : List Token) (token : Token),
      tokens.map Token.lexeme = t.minimal 1 → p.ahead = tokens ++ token :: rest →
      token.kind.EndsExpression →
      ∃ e q, Parses (parseExpression · 1) p e q ∧ e.tree? = some t ∧ q.ahead = token :: rest ∧
        q.diagnostics = p.diagnostics) ∧
    (∀ t t' : Tree, t ≠ t' → t.minimal 1 ≠ t'.minimal 1) ∧
    (∀ (p : Parser) (rest : List Token) (t : Tree), p.WellFormed →
      ((∃ e q, Parses (parseExpression · 1) p e q ∧ e.tree? = some t ∧ q.ahead = rest ∧
          q.diagnostics = p.diagnostics) ↔
        ∃ tokens, p.ahead = tokens ++ rest ∧ Derives 1 (tokens.map Token.lexeme) t ∧
          ∃ token ∈ rest.head?, token.kind.EndsExpression)) ∧
    (∀ (fuel : Nat) (p q : Parser) (e : Expression), p.WellFormed →
      parseExpression fuel 1 p = some (e, q) → q.diagnostics = p.diagnostics →
      ∃ t, e.tree? = some t) := by
  refine ⟨?_, ?_, ?_, ?_, ?_⟩
  · intro t
    exact ⟨t.derives_minimal 1 le_rfl (by omega), fun ls h ↦ h.minimal_shortest⟩
  · intro t p tokens rest token htokens hahead hends
    obtain ⟨e, q, htree, hq, hdiagnostics, hparses⟩ :=
      (t.derives_minimal 1 le_rfl (by omega)).parses htokens hahead hends
    exact ⟨e, q, hparses, htree, hq, hdiagnostics⟩
  · intro t t' hne heq
    apply hne
    have h := t.derives_minimal 1 le_rfl (by omega)
    rw [heq] at h
    exact h.unique (t'.derives_minimal 1 le_rfl (by omega))
  · intro p rest t hp
    constructor
    · rintro ⟨e, q, ⟨enough, hparses⟩, htree, rfl, hdiagnostics⟩
      obtain ⟨tokens, t', hahead, htree', hderives, hends⟩ :=
        parseExpression_derives hp (hparses enough le_rfl) hdiagnostics
      obtain rfl := Option.some.inj (htree.symm.trans htree')
      exact ⟨tokens, hahead, hderives, q.current, rfl, hends⟩
    · rintro ⟨tokens, hahead, hderives, token, hhead, hends⟩
      cases rest with
      | nil => cases hhead
      | cons first tail =>
          cases hhead
          obtain ⟨e, q, htree, hq, hdiagnostics, hparses⟩ := hderives.parses rfl hahead hends
          exact ⟨e, q, hparses, htree, hq, hdiagnostics⟩
  · intro fuel p q e hp hparse hclean
    obtain ⟨_, t, _, htree, _⟩ := parseExpression_derives hp hparse hclean
    exact ⟨t, htree⟩

/-- `-a[0] - b - c` in front of the end of the file. -/
theorem parseExpression_undoes_minimal_difference :
    ∃ e q, Parses (parseExpression · 1)
        (.inFrontOf ⟨.minus, "-"⟩ [⟨.identifier, "a"⟩, ⟨.leftBracket, "["⟩, ⟨.integer, "0"⟩,
          ⟨.rightBracket, "]"⟩, ⟨.minus, "-"⟩, ⟨.identifier, "b"⟩, ⟨.minus, "-"⟩,
          ⟨.identifier, "c"⟩]) e q ∧
      e.tree? = some (.binary .subtract (.binary .subtract
        (.unary .negate (.index (.identifier "a") (.integer "0"))) (.identifier "b"))
        (.identifier "c")) ∧
      q.ahead = [TokenKind.eof.lexeme.token] ∧ q.diagnostics = [] :=
  parseExpression_undoes_minimal.2.1 _ _
    ([⟨.minus, "-"⟩, ⟨.identifier, "a"⟩, ⟨.leftBracket, "["⟩, ⟨.integer, "0"⟩,
      ⟨.rightBracket, "]"⟩, ⟨.minus, "-"⟩, ⟨.identifier, "b"⟩, ⟨.minus, "-"⟩,
      ⟨.identifier, "c"⟩].map Lexeme.token) [] _ (by decide +kernel) rfl (by decide)

end CalcKernel
