import CalcKernel.Frontend.LexerText
import CalcKernel.Frontend.ParserProgress

/-!
# The front end ends and loses no text

The tokens are slices of the source, in order, and what stands between them is
white, a comment, or text that was reported.  Every token list that ends is parsed.
-/

namespace CalcKernel

/-- The text of the token stands in the source at its offset. -/
def Token.IsSliceOf (token : Token) (text : List Char) : Prop :=
  ∃ before after, text = before ++ token.text.toList ++ after ∧
    token.start = utf16Length before ∧ token.stop = token.start + utf16Length token.text.toList

/-- The result accounts for every character of the text. -/
structure LexResult.Covers (result : LexResult) (text : List Char) : Prop where
  pieces : ∃ pieces, (∀ piece ∈ pieces, LexPiece.Valid piece) ∧
    text = pieces.flatMap (·.text) ∧
    result.tokens = tokensFrom startPosition pieces ++ [eofAt (startPosition.afterText text)] ∧
    ReportsFrom startPosition pieces result.diagnostics
  slices : ∀ token ∈ result.tokens, token.IsSliceOf text
  ordered : result.tokens.Pairwise (·.stop ≤ ·.start)
  last : ∃ tokens eof, result.tokens = tokens ++ [eof] ∧ eof.kind = .eof ∧
    eof.start = utf16Length text ∧ ∀ token ∈ tokens, token.kind ≠ .eof

theorem LexPiece.tokens_of_mem {piece : LexPiece} {position : LexerPosition} {token : Token}
    (h : token ∈ piece.tokens position) : token.text.toList = piece.text ∧
      token.start = position.utf16Offset ∧
      token.stop = position.utf16Offset + utf16Length piece.text := by
  cases piece with
  | token kind text =>
      obtain rfl := List.mem_singleton.mp h
      exact ⟨String.toList_ofList, rfl, rfl⟩
  | blank c => cases h
  | comment body => cases h
  | rejected text => cases h

variable {position : LexerPosition} {pieces : List LexPiece} {token : Token}

theorem tokensFrom_slice (h : token ∈ tokensFrom position pieces) : ∃ before after,
    pieces.flatMap (·.text) = before ++ token.text.toList ++ after ∧
      token.start = position.utf16Offset + utf16Length before ∧
      token.stop = token.start + utf16Length token.text.toList := by
  induction pieces generalizing position with
  | nil => cases h
  | cons piece pieces ih =>
      rcases List.mem_append.mp h with h | h
      · obtain ⟨htext, hstart, hstop⟩ := LexPiece.tokens_of_mem h
        refine ⟨[], pieces.flatMap (·.text), ?_, ?_, ?_⟩
        · rw [htext, List.nil_append, List.flatMap_cons]
        · simpa using hstart
        · rw [htext, hstart, hstop]
      · obtain ⟨before, after, htext, hstart, hstop⟩ := ih h
        refine ⟨piece.text ++ before, after, ?_, ?_, hstop⟩
        · rw [List.flatMap_cons, htext]
          simp only [List.append_assoc]
        · rw [hstart, LexerPosition.afterText_utf16Offset, utf16Length_append]
          omega

theorem tokensFrom_bounds (h : token ∈ tokensFrom position pieces) :
    position.utf16Offset ≤ token.start ∧
      token.stop ≤ position.utf16Offset + utf16Length (pieces.flatMap (·.text)) := by
  obtain ⟨before, after, htext, hstart, hstop⟩ := tokensFrom_slice h
  rw [htext, utf16Length_append, utf16Length_append]
  omega

theorem tokensFrom_ordered : (tokensFrom position pieces).Pairwise (·.stop ≤ ·.start) := by
  induction pieces generalizing position with
  | nil => exact List.Pairwise.nil
  | cons piece pieces ih =>
      refine List.pairwise_append.mpr ⟨?_, ih, ?_⟩
      · cases piece with
        | token kind text => exact List.pairwise_singleton _ _
        | blank c => exact List.Pairwise.nil
        | comment body => exact List.Pairwise.nil
        | rejected text => exact List.Pairwise.nil
      · intro a ha b hb
        rw [(LexPiece.tokens_of_mem ha).2.2, ← LexerPosition.afterText_utf16Offset]
        exact (tokensFrom_bounds hb).1

theorem tokensFrom_kind (hvalid : ∀ piece ∈ pieces, LexPiece.Valid piece)
    (h : token ∈ tokensFrom position pieces) : token.kind ≠ .eof := by
  induction pieces generalizing position with
  | nil => cases h
  | cons piece pieces ih =>
      rcases List.mem_append.mp h with h | h
      · cases piece with
        | token kind text =>
            obtain rfl := List.mem_singleton.mp h
            exact (hvalid _ List.mem_cons_self).2.1
        | blank c => cases h
        | comment body => cases h
        | rejected text => cases h
      · exact ih (fun p hp ↦ hvalid p (List.mem_cons_of_mem _ hp)) h

theorem length_tokensFrom_le (hvalid : ∀ piece ∈ pieces, LexPiece.Valid piece) :
    (tokensFrom position pieces).length ≤ (pieces.flatMap (·.text)).length := by
  induction pieces generalizing position with
  | nil => exact le_rfl
  | cons piece pieces ih =>
      have hpiece : (piece.tokens position).length ≤ piece.text.length := by
        have hpos := List.length_pos_iff.mpr (hvalid piece List.mem_cons_self).text_ne_nil
        cases piece with
        | token kind text => exact hpos
        | blank c => exact Nat.zero_le _
        | comment body => exact Nat.zero_le _
        | rejected text => exact Nat.zero_le _
      rw [tokensFrom, List.length_append, List.flatMap_cons, List.length_append]
      exact Nat.add_le_add hpiece (ih fun p hp ↦ hvalid p (List.mem_cons_of_mem _ hp))

theorem lex_covers {source : SourceFile} {fuel : Nat} (hnul : '\x00' ∉ source.text.toList)
    (hfuel : source.text.toList.length ≤ fuel) : ∃ result, lex fuel source = some result ∧
      result.Covers source.text.toList ∧
      result.tokens.length ≤ source.text.toList.length + 1 := by
  obtain ⟨result, pieces, hlex, hvalid, htext, htokens, hreports⟩ := lex_pieces hnul hfuel
  have hoffset : (startPosition.afterText source.text.toList).utf16Offset =
      utf16Length source.text.toList := by
    rw [LexerPosition.afterText_utf16Offset]
    exact Nat.zero_add _
  refine ⟨result, hlex, ⟨⟨pieces, hvalid, htext, htokens, hreports⟩, ?_, ?_, ?_⟩, ?_⟩
  · intro token hmem
    rw [htokens, List.mem_append, List.mem_singleton] at hmem
    rcases hmem with hmem | rfl
    · obtain ⟨before, after, heq, hstart, hstop⟩ := tokensFrom_slice hmem
      exact ⟨before, after, htext.trans heq, hstart.trans (Nat.zero_add _), hstop⟩
    · exact ⟨source.text.toList, [], by simp [eofAt], hoffset, rfl⟩
  · rw [htokens]
    refine List.pairwise_append.mpr ⟨tokensFrom_ordered, List.pairwise_singleton _ _, ?_⟩
    intro token hmem eof heof
    obtain rfl := List.mem_singleton.mp heof
    change token.stop ≤ (startPosition.afterText source.text.toList).utf16Offset
    rw [htext, LexerPosition.afterText_utf16Offset]
    exact (tokensFrom_bounds hmem).2
  · exact ⟨_, _, htokens, rfl, hoffset, fun token ↦ tokensFrom_kind hvalid⟩
  · rw [htokens, List.length_append, List.length_singleton]
    conv_rhs => rw [htext]
    exact Nat.succ_le_succ (length_tokensFrom_le hvalid)

/-- Every round of the parser's loops and of its recovery consumes a token: a declaration,
a statement, a field, a clause, and the skipping of one token. -/
structure RoundsConsume (fuel : Nat) (p : Parser) (n : Nat) : Prop where
  declaration : Leaves (parseDeclaration fuel) p n
  statement : Leaves (parseStatement fuel) p n
  field : Leaves (parseStructField fuel) p n
  clause : ∀ clauses, p.check .rightBrace = false → Leaves (parseContractClause fuel clauses) p n
  skip : p.next.remaining = some n

theorem roundsConsume {fuel n : Nat} {p : Parser} (h : p.remaining = some (n + 1))
    (hfuel : 5 * n + 12 ≤ fuel) : RoundsConsume fuel p n where
  declaration := parseDeclaration_leaves h (by omega)
  statement := parseStatement_leaves h (by omega)
  field := parseStructField_leaves h (by omega)
  clause clauses hbrace := by
    apply parseContractClause_leaves clauses h (by omega) hbrace
    rw [← Bool.not_eq_true, Parser.check_eof_iff h]
    exact Nat.succ_ne_zero n
  skip := Parser.remaining_next h

theorem parse_returns {source : SourceFile} {fuel : Nat} (hnul : '\x00' ∉ source.text.toList)
    (hfuel : 5 * source.text.toList.length + 13 ≤ fuel) :
    ∃ result, parse fuel source = some result := by
  obtain ⟨lexed, hlex, hcovers, hlength⟩ := lex_covers hnul (show _ ≤ fuel by omega)
  obtain ⟨tokens, eof, htokens, hkind, _⟩ := hcovers.last
  have hmem : eof ∈ lexed.tokens := by
    rw [htokens]
    exact List.mem_append_right tokens List.mem_cons_self
  obtain ⟨result, hresult⟩ : ∃ result,
      parseTokens fuel source.fileName lexed.tokens lexed.diagnostics = some result :=
    parseTokens_returns ⟨eof, hmem, hkind⟩ (by omega)
  refine ⟨result, ?_⟩
  rw [parse, hlex]
  exact hresult

/-- Text is lost when it is neither in a token nor white nor in a comment. -/
def LexResult.OnlyBlanksBetween (result : LexResult) (text : List Char) : Prop :=
  ∃ pieces, (∀ piece ∈ pieces, LexPiece.Valid piece ∧ ∀ text, piece ≠ .rejected text) ∧
    text = pieces.flatMap (·.text) ∧
    result.tokens = tokensFrom startPosition pieces ++ [eofAt (startPosition.afterText text)]

/-- An unexpected character is reported and stands in no token. -/
theorem not_onlyBlanksBetween_at {fuel : Nat} {result : LexResult}
    (hlex : lex fuel ⟨"at.ck", "@"⟩ = some result) : ¬ result.OnlyBlanksBetween ['@'] := by
  rintro ⟨pieces, hpieces, htext, htokens⟩
  have heof : result.tokens = [eofAt (startPosition.afterText ['@'])] := by
    match fuel, hlex with
    | 0, hlex => cases hlex
    | 1, hlex =>
        cases hlex
        decide
    | fuel + 2, hlex =>
        cases hlex
        decide
  have hnil : tokensFrom startPosition pieces = [] := by
    have hlength := congrArg List.length htokens
    rw [heof, List.length_append, List.length_singleton] at hlength
    exact List.length_eq_zero_iff.mp (by omega)
  cases pieces with
  | nil => cases htext
  | cons piece pieces =>
      obtain ⟨hvalid, hkept⟩ := hpieces piece List.mem_cons_self
      rw [List.flatMap_cons] at htext
      cases piece with
      | token kind text => cases hnil
      | blank c =>
          injection htext with hc _
          rw [← hc] at hvalid
          cases hvalid
      | comment body =>
          injection htext with hc _
          cases hc
      | rejected text => exact hkept text rfl

/-- NUL is reported again and again and never consumed. -/
theorem lex_nul_alone (fuel : Nat) : lex fuel ⟨"nul.ck", "\x00"⟩ = none := by
  have hstuck : Lib.whileLoop (fun l : Lexer ↦ !l.isAtEnd) (·.scanToken fuel) fuel
      (.start ⟨"nul.ck", "\x00"⟩) = none := by
    apply Lib.whileLoop.stuck
      (I := fun l : Lexer ↦ l.source = ['\x00'] ∧ l.position.charOffset = 0)
    · rintro ⟨_, source, _, _, ⟨offset, _, _, _⟩⟩ ⟨rfl, rfl⟩
      rfl
    · rintro ⟨_, source, _, _, ⟨offset, _, _, _⟩⟩ t ⟨rfl, rfl⟩ ht
      cases ht
      exact ⟨rfl, rfl⟩
    · exact ⟨rfl, rfl⟩
  rw [lex, hstuck]
  rfl

/-- The parser never leaves a list that does not end. -/
theorem parseDeclarations_endless (fuel : Nat) (p : Parser) (hafter : p.after = [])
    (hkind : p.current.kind = .semicolon) : parseDeclarations fuel p = none := by
  induction fuel generalizing p with
  | zero => rfl
  | succ fuel ih =>
      obtain ⟨fileName, before, ⟨kind, text, line, column, start, stop⟩, after, diagnostics⟩ := p
      obtain rfl : after = [] := hafter
      obtain rfl : kind = .semicolon := hkind
      change Option.bind (parseDeclarations fuel _) _ = none
      rw [ih]
      · rfl
      · rfl
      · rfl

end CalcKernel
