import Mathlib.Algebra.GroupWithZero.Nat
import CalcKernel.Frontend.Lexer

/-!
# The text of the tokens

On a source without NUL every round of the scanner consumes the next piece of the
text: a blank, a comment, a token, or text that it reports.  So lexing ends, and
the pieces put together are the source.
-/

namespace CalcKernel

/-! ## Positions -/

def LexerPosition.afterText (position : LexerPosition) (text : List Char) : LexerPosition :=
  text.foldl .after position

def utf16Length (text : List Char) : Nat := (text.map lenUtf16).sum

@[simp] theorem utf16Length_nil : utf16Length [] = 0 := rfl

@[simp] theorem utf16Length_cons (c : Char) (text : List Char) :
    utf16Length (c :: text) = lenUtf16 c + utf16Length text := by
  simp [utf16Length]

@[simp] theorem utf16Length_append (text text' : List Char) :
    utf16Length (text ++ text') = utf16Length text + utf16Length text' := by
  simp [utf16Length]

namespace LexerPosition

variable (position : LexerPosition)

@[simp] theorem after_charOffset (c : Char) :
    (position.after c).charOffset = position.charOffset + 1 := rfl

@[simp] theorem after_utf16Offset (c : Char) :
    (position.after c).utf16Offset = position.utf16Offset + lenUtf16 c := rfl

@[simp] theorem afterText_nil : position.afterText [] = position := rfl

@[simp] theorem afterText_cons (c : Char) (text : List Char) :
    position.afterText (c :: text) = (position.after c).afterText text := rfl

@[simp] theorem afterText_append (text text' : List Char) :
    position.afterText (text ++ text') = (position.afterText text).afterText text' := by
  simp [afterText]

theorem afterText_charOffset (text : List Char) :
    (position.afterText text).charOffset = position.charOffset + text.length := by
  induction text generalizing position with
  | nil => rfl
  | cons c text ih =>
      rw [afterText_cons, ih, List.length_cons, after_charOffset]
      omega

theorem afterText_utf16Offset (text : List Char) :
    (position.afterText text).utf16Offset = position.utf16Offset + utf16Length text := by
  induction text generalizing position with
  | nil => rfl
  | cons c text ih =>
      rw [afterText_cons, ih, utf16Length_cons, after_utf16Offset]
      omega

end LexerPosition

namespace Lexer

/-! ## Moving over text -/

/-- The text that is still ahead. -/
def rest (lexer : Lexer) : List Char := lexer.source.drop lexer.position.charOffset

/-- From one state to the other the text is consumed and nothing else changes. -/
structure Moves (l l' : Lexer) (text : List Char) : Prop where
  rest : l.rest = text ++ l'.rest
  eq : l' = { l with position := l.position.afterText text }

variable {l l' l'' : Lexer} {text text' : List Char} {c : Char} {cs : List Char} {fuel : Nat}

theorem isAtEnd_iff : l.isAtEnd = true ↔ l.rest = [] := by
  simp [isAtEnd, rest, List.drop_eq_nil_iff]

theorem peek_eq : l.peek = l.rest.headD '\x00' := by
  rw [peek, rest, List.headD_eq_head?_getD, List.head?_drop]

theorem peekNext_eq : l.peekNext = l.rest.tail.headD '\x00' := by
  rw [peekNext, rest, List.headD_eq_head?_getD, List.tail_drop, List.head?_drop]

theorem peek_cons (h : l.rest = c :: cs) : l.peek = c := by
  rw [peek_eq, h]
  rfl

theorem notMem_rest (h : '\x00' ∉ l.source) : '\x00' ∉ l.rest :=
  fun hmem ↦ h (List.mem_of_mem_drop hmem)

theorem Moves.refl (l : Lexer) : Moves l l [] := ⟨rfl, rfl⟩

theorem Moves.trans (h : Moves l l' text) (h' : Moves l' l'' text') :
    Moves l l'' (text ++ text') := by
  refine ⟨?_, ?_⟩
  · rw [h.rest, h'.rest, List.append_assoc]
  · rw [h'.eq, h.eq, LexerPosition.afterText_append]

theorem Moves.source (h : Moves l l' text) : l'.source = l.source := by
  rw [h.eq]

theorem Moves.textFrom (h : Moves l l' text) : l'.textFrom l.position = String.ofList text := by
  have hoffset : l'.position.charOffset = l.position.charOffset + text.length := by
    rw [h.eq]
    exact l.position.afterText_charOffset text
  rw [Lexer.textFrom, h.source, hoffset, Nat.add_sub_cancel_left]
  change String.ofList (l.rest.take text.length) = _
  rw [h.rest, List.take_left']
  rfl

theorem moves_advance (hnul : '\x00' ∉ l.source) (h : l.rest = c :: cs) :
    Moves l l.advance [c] ∧ l.advance.rest = cs := by
  have hc : l.peek ≠ '\x00' := by
    rw [peek_cons h]
    rintro rfl
    exact notMem_rest hnul (h ▸ List.mem_cons_self)
  have hadvance : l.advance = { l with position := l.position.after c } := by
    rw [advance, if_neg hc, peek_cons h]
  have hrest : l.advance.rest = cs := by
    rw [hadvance]
    change l.source.drop (l.position.charOffset + 1) = cs
    have htail := congrArg List.tail h
    rwa [Lexer.rest, List.tail_drop, List.tail_cons] at htail
  exact ⟨⟨by rw [h, hrest]; rfl, hadvance⟩, hrest⟩

/-- A loop over characters consumes as many of them as satisfy the condition. -/
theorem moves_advanceWhile (p : Char → Bool) (hnul : '\x00' ∉ l.source)
    (hfuel : l.rest.length ≤ fuel) : ∃ l' text, l.advanceWhile p fuel = some l' ∧
      Moves l l' text ∧ (∀ c ∈ text, p c = true) ∧ (l'.rest = [] ∨ p l'.peek = false) := by
  have hloop : ∃ l', l.advanceWhile p fuel = some l' ∧
      (∃ text, Moves l l' text ∧ ∀ c ∈ text, p c = true) ∧
      (!l'.isAtEnd && p l'.peek) = false := by
    refine Lib.whileLoop.terminates _ _ _ (fun s : Lexer ↦ s.rest.length) (fun s hs hcond ↦ ?_)
      ⟨[], Moves.refl l, by simp⟩ hfuel
    obtain ⟨text, hmoves, htext⟩ := hs
    simp only [Bool.and_eq_true, Bool.not_eq_true', ← Bool.not_eq_true, isAtEnd_iff] at hcond
    obtain ⟨c, cs, hrest⟩ := List.exists_cons_of_ne_nil hcond.1
    obtain ⟨hadvance, hcs⟩ := moves_advance (hmoves.source ▸ hnul) hrest
    refine ⟨s.advance, rfl, ⟨text ++ [c], hmoves.trans hadvance, ?_⟩, ?_⟩
    · intro d hd
      rcases List.mem_append.mp hd with hd | hd
      · exact htext d hd
      · obtain rfl := List.mem_singleton.mp hd
        rw [← peek_cons hrest]
        exact hcond.2
    · rw [hrest, hcs, List.length_cons]
      exact Nat.lt_succ_self _
  obtain ⟨l', hl', ⟨text, hmoves, htext⟩, hend⟩ := hloop
  refine ⟨l', text, hl', hmoves, htext, ?_⟩
  rw [Bool.and_eq_false_iff, Bool.not_eq_false', isAtEnd_iff] at hend
  exact hend

end Lexer

/-! ## Pieces of the source -/

/-- What one round of the scanner consumes. -/
inductive LexPiece where
  | blank (c : Char)
  | comment (body : List Char)
  | token (kind : TokenKind) (text : List Char)
  | rejected (text : List Char)

namespace LexPiece

def text : LexPiece → List Char
  | .blank c => [c]
  | .comment body => '/' :: '/' :: body
  | .token _ text | .rejected text => text

/-- Blanks are white, comments end with the line, tokens are spelled as their kind asks. -/
def Valid : LexPiece → Prop
  | .blank c => isWhitespace c = true
  | .comment body => '\n' ∉ body
  | .token kind text =>
      text ≠ [] ∧ kind ≠ .eof ∧ ∀ spelling ∈ kind.spelling?, String.ofList text = spelling
  | .rejected text => text ≠ []

/-- Text without blanks in front of the rest; a slash stands alone and not in front of another. -/
def Solid (text rest : List Char) : Prop :=
  (∀ c ∈ text, isWhitespace c = false) ∧ ('/' ∈ text → text = ['/'] ∧ rest.head? ≠ some '/')

/-- How pieces end in front of the rest: a comment at a newline, a number not at the point of a
fraction, a dot not at another. -/
def EndsAt (rest : List Char) : LexPiece → Prop
  | .blank _ => True
  | .comment _ => ∀ c ∈ rest.head?, c = '\n'
  | .token kind text => Solid text rest ∧ ('/' ∈ text → kind = .slash) ∧
      (kind = .integer → rest.head? = some '.' → rest.tail.head? = some '.') ∧
      (kind = .dot → rest.head? ≠ some '.')
  | .rejected text => Solid text rest

/-- The token of a piece that stands at a position. -/
def tokens (position : LexerPosition) : LexPiece → List Token
  | .token kind text => [{
      kind := kind
      text := String.ofList text
      line := position.line
      column := position.column
      start := position.utf16Offset
      stop := position.utf16Offset + utf16Length text }]
  | _ => []

/-- Only rejected text is reported, and all of these reports lie in it. -/
def Reports (position : LexerPosition) (diagnostics : List Diagnostic) : LexPiece → Prop
  | .rejected text => diagnostics ≠ [] ∧ ∀ d ∈ diagnostics, d.code = .ck0001 ∧
      position.utf16Offset ≤ d.span.start.offset ∧
      d.span.stop.offset ≤ position.utf16Offset + utf16Length text
  | _ => diagnostics = []

theorem Valid.text_ne_nil {piece : LexPiece} (h : piece.Valid) : piece.text ≠ [] := by
  cases piece with
  | blank c => exact List.cons_ne_nil _ _
  | comment body => exact List.cons_ne_nil _ _
  | token kind text => exact h.1
  | rejected text => exact h

theorem Solid.single {c : Char} {rest : List Char} (hblank : isWhitespace c = false)
    (hslash : c ≠ '/') : Solid [c] rest := by
  constructor
  · intro d hd
    obtain rfl := List.mem_singleton.mp hd
    exact hblank
  · intro hd
    exact absurd (List.mem_singleton.mp hd).symm hslash

/-- Characters of names and numbers. -/
def isWordPart (c : Char) : Bool := isIdentifierPart c || c = '.' || c = '+' || c = '-'

theorem Solid.word {text rest : List Char} (h : ∀ c ∈ text, isWordPart c = true) :
    Solid text rest := by
  constructor
  · intro c hc
    have hword := h c hc
    by_contra hblank
    simp only [isWhitespace, Bool.or_eq_true, decide_eq_true_eq, Bool.not_eq_false] at hblank
    rcases hblank with ((rfl | rfl) | rfl) | rfl <;> revert hword <;> decide
  · intro hslash
    exact absurd (h '/' hslash) (by decide)

theorem endsAt_word {kind : TokenKind} {text rest : List Char}
    (h : ∀ c ∈ text, isWordPart c = true) (hdot : kind ≠ .dot)
    (hinteger : kind = .integer → rest.head? = some '.' → rest.tail.head? = some '.') :
    EndsAt rest (.token kind text) :=
  ⟨.word h, fun hslash ↦ absurd (h '/' hslash) (by decide), hinteger,
    fun hkind ↦ absurd hkind hdot⟩

/-- Symbols and keywords; only a slash and a dot depend on what follows. -/
theorem endsAt_spelled {kind : TokenKind} {text : List Char} (rest : List Char)
    (hspelling : kind.spelling? = some (String.ofList text)) (hslash : kind ≠ .slash)
    (hdot : kind ≠ .dot) : EndsAt rest (.token kind text) := by
  have hsolid : (kind.spelling?.all fun spelling ↦
      spelling.toList.all fun c ↦ !isWhitespace c && c != '/') = true := by
    cases kind <;> first
      | exact absurd rfl hslash
      | rfl
  have htext : ∀ c ∈ text, isWhitespace c = false ∧ c ≠ '/' := by
    rw [hspelling, Option.all_some, String.toList_ofList, List.all_eq_true] at hsolid
    intro c hc
    simpa using hsolid c hc
  refine ⟨⟨fun c hc ↦ (htext c hc).1, fun hc ↦ absurd rfl (htext _ hc).2⟩,
    fun hc ↦ absurd rfl (htext _ hc).2, ?_, ?_⟩
  · rintro rfl
    cases hspelling
  · intro h
    exact absurd h hdot

end LexPiece

namespace Lexer

/-- One piece of the text is consumed. -/
structure Scans (l l' : Lexer) (piece : LexPiece) : Prop where
  valid : piece.Valid
  rest : l.rest = piece.text ++ l'.rest
  source : l'.source = l.source
  position : l'.position = l.position.afterText piece.text
  tokens : l'.tokens = l.tokens ++ piece.tokens l.position
  diagnostics : ∃ ds, l'.diagnostics = l.diagnostics ++ ds ∧ piece.Reports l.position ds

variable {l l' : Lexer} {text : List Char} {c : Char} {cs : List Char} {fuel : Nat}

theorem Moves.blank (h : Moves l l' [c]) (hc : isWhitespace c = true) : Scans l l' (.blank c) where
  valid := hc
  rest := h.rest
  source := h.source
  position := by rw [h.eq]; rfl
  tokens := by rw [h.eq]; simp [LexPiece.tokens]
  diagnostics := ⟨[], by rw [h.eq]; simp, rfl⟩

theorem Moves.comment {body : List Char} (h : Moves l l' ('/' :: '/' :: body))
    (hbody : '\n' ∉ body) : Scans l l' (.comment body) where
  valid := hbody
  rest := h.rest
  source := h.source
  position := by rw [h.eq]; rfl
  tokens := by rw [h.eq]; simp [LexPiece.tokens]
  diagnostics := ⟨[], by rw [h.eq]; simp, rfl⟩

theorem Moves.addToken {kind : TokenKind} (h : Moves l l' text) (hne : text ≠ [])
    (hkind : kind ≠ .eof) (hspelling : ∀ spelling ∈ kind.spelling?, String.ofList text = spelling) :
    Scans l (l'.addToken kind l.position) (.token kind text) where
  valid := ⟨hne, hkind, hspelling⟩
  rest := h.rest
  source := h.source
  position := by
    change l'.position = _
    rw [h.eq]
    rfl
  tokens := by
    have htext := h.textFrom
    have hstop : l'.position.utf16Offset = l.position.utf16Offset + utf16Length text := by
      rw [h.eq]
      exact l.position.afterText_utf16Offset text
    change l'.tokens ++ _ = _
    rw [htext, hstop, h.eq]
    rfl
  diagnostics := by
    refine ⟨[], ?_, rfl⟩
    change l'.diagnostics = _
    rw [h.eq]
    simp

/-- Reports about the text since a position. -/
theorem Moves.reported {ds : List Diagnostic} (h : Moves l l' text)
    (hds : (LexPiece.rejected text).Reports l.position ds) (hne : text ≠ []) :
    Scans l { l' with diagnostics := l'.diagnostics ++ ds } (.rejected text) where
  valid := hne
  rest := h.rest
  source := h.source
  position := by
    change l'.position = _
    rw [h.eq]
    rfl
  tokens := by
    change l'.tokens = _
    rw [h.eq]
    simp [LexPiece.tokens]
  diagnostics := by
    refine ⟨ds, ?_, hds⟩
    change l'.diagnostics ++ ds = _
    rw [h.eq]

theorem Moves.report (h : Moves l l' text) (hne : text ≠ []) (message : String) :
    Scans l (l'.report message ⟨l.position.sourcePosition, l'.position.sourcePosition⟩)
      (.rejected text) := by
  have hstop : l'.position.utf16Offset = l.position.utf16Offset + utf16Length text := by
    rw [h.eq]
    exact l.position.afterText_utf16Offset text
  apply h.reported ⟨List.cons_ne_nil _ _, ?_⟩ hne
  intro d hd
  obtain rfl := List.mem_singleton.mp hd
  exact ⟨rfl, le_rfl, hstop.le⟩

/-! ## The scanners -/

theorem scans_single (kind : TokenKind) (hnul : '\x00' ∉ l.source) (h : l.rest = c :: cs)
    (hkind : kind ≠ .eof) (hspelling : kind.spelling? = some (String.ofList [c])) :
    Scans l (l.single kind) (.token kind [c]) ∧ (l.single kind).rest = cs := by
  refine ⟨?_, (moves_advance hnul h).2⟩
  apply (moves_advance hnul h).1.addToken (List.cons_ne_nil _ _) hkind
  simp [hspelling]

theorem scans_symbol_single {kind : TokenKind} (hnul : '\x00' ∉ l.source) (h : l.rest = c :: cs)
    (hkind : kind ≠ .eof) (hslash : kind ≠ .slash) (hdot : kind ≠ .dot)
    (hspelling : kind.spelling? = some (String.ofList [c])) :
    Scans l (l.single kind) (.token kind [c]) ∧
      LexPiece.EndsAt (l.single kind).rest (.token kind [c]) :=
  ⟨(scans_single kind hnul h hkind hspelling).1,
    LexPiece.endsAt_spelled _ hspelling hslash hdot⟩

theorem matchChar_spec (hnul : '\x00' ∉ l.source) (expected : Char) :
    (∃ cs, l.rest = expected :: cs ∧ l.matchChar expected = (true, l.advance) ∧
      Moves l l.advance [expected]) ∨ l.matchChar expected = (false, l) := by
  by_cases h : l.isAtEnd || l.peek != expected
  · right
    rw [matchChar, if_pos h]
  · left
    simp only [Bool.or_eq_true, not_or, bne_iff_ne, not_not, isAtEnd_iff] at h
    obtain ⟨c, cs, hrest⟩ := List.exists_cons_of_ne_nil h.1
    obtain rfl : c = expected := (peek_cons hrest).symm.trans h.2
    refine ⟨cs, hrest, ?_, (moves_advance hnul hrest).1⟩
    rw [matchChar, if_neg]
    simp [isAtEnd_iff, hrest, peek_cons hrest]

theorem scans_oneOrTwo {second : Char} {two one : TokenKind} (hnul : '\x00' ∉ l.source)
    (h : l.rest = c :: cs) (htwo : two ≠ .eof) (hone : one ≠ .eof)
    (hother : two ≠ .slash ∧ two ≠ .dot) (hother' : one ≠ .slash ∧ one ≠ .dot)
    (hspelling : two.spelling? = some (String.ofList [c, second]))
    (hspelling' : one.spelling? = some (String.ofList [c])) :
    ∃ l' piece, some (l.oneOrTwo second two one) = some l' ∧ Scans l l' piece ∧
      piece.EndsAt l'.rest := by
  obtain ⟨hmoves, _⟩ := moves_advance hnul h
  rcases matchChar_spec (hmoves.source ▸ hnul) second with ⟨_, _, hmatch, hsecond⟩ | hmatch
  · refine ⟨_, .token two [c, second], rfl, ?_,
      LexPiece.endsAt_spelled _ hspelling hother.1 hother.2⟩
    simp only [oneOrTwo, hmatch]
    apply (hmoves.trans hsecond).addToken (List.cons_ne_nil _ _) htwo
    simp [hspelling]
  · refine ⟨_, .token one [c], rfl, ?_,
      LexPiece.endsAt_spelled _ hspelling' hother'.1 hother'.2⟩
    simp only [oneOrTwo, hmatch]
    apply hmoves.addToken (List.cons_ne_nil _ _) hone
    simp [hspelling']

theorem scans_doubled {kind : TokenKind} (hnul : '\x00' ∉ l.source) (h : l.rest = c :: cs)
    (hkind : kind ≠ .eof) (hother : kind ≠ .slash ∧ kind ≠ .dot)
    (hsolid : isWhitespace c = false ∧ c ≠ '/')
    (hspelling : kind.spelling? = some (String.ofList [c, c])) :
    ∃ l' piece, some (l.doubled c kind) = some l' ∧ Scans l l' piece ∧
      piece.EndsAt l'.rest := by
  obtain ⟨hmoves, _⟩ := moves_advance hnul h
  rcases matchChar_spec (hmoves.source ▸ hnul) c with ⟨_, _, hmatch, hsecond⟩ | hmatch
  · refine ⟨_, .token kind [c, c], rfl, ?_,
      LexPiece.endsAt_spelled _ hspelling hother.1 hother.2⟩
    simp only [doubled, hmatch]
    apply (hmoves.trans hsecond).addToken (List.cons_ne_nil _ _) hkind
    simp [hspelling]
  · refine ⟨_, .rejected [c], rfl, ?_, LexPiece.Solid.single hsolid.1 hsolid.2⟩
    simp only [doubled, hmatch]
    exact hmoves.report (List.cons_ne_nil _ _) _

theorem scans_unexpected (hnul : '\x00' ∉ l.source) (h : l.rest = c :: cs) :
    Scans l (l.scanUnexpectedCharacter l.position c) (.rejected [c]) := by
  obtain ⟨hmoves, _⟩ := moves_advance hnul h
  unfold scanUnexpectedCharacter
  split
  · exact hmoves.report (List.cons_ne_nil _ _) _
  · rename_i hwide
    have hlen : lenUtf16 c = 2 := by
      unfold lenUtf16 at hwide ⊢
      split at hwide
      · exact absurd rfl hwide
      · rename_i hlarge
        exact if_neg hlarge
    rw [hlen]
    let units : Lexer → List Diagnostic := fun m ↦ (List.range 2).map fun index ↦
      Diagnostic.error .ck0001 "Unexpected character '\uFFFD'." m.fileName
        (codeUnitSpan l.position index)
    have hreports : ∀ m : Lexer, (List.range 2).foldl (·.reportCodeUnit l.position ·) m =
        { m with diagnostics := m.diagnostics ++ units m } := by
      intro m
      simp [units, List.range_succ, reportCodeUnit, Lexer.report]
    rw [hreports]
    apply hmoves.reported ⟨by simp [units, List.range_succ], ?_⟩ (List.cons_ne_nil _ _)
    intro d hd
    obtain ⟨index, hindex, rfl⟩ := List.mem_map.mp hd
    rw [List.mem_range] at hindex
    refine ⟨rfl, Nat.le_add_right _ _, ?_⟩
    simp only [Diagnostic.error, codeUnitSpan, utf16Length_cons, utf16Length_nil, hlen]
    omega

theorem keywordKind_spelled (text : String) :
    (keywordKind text).getD .identifier ≠ .eof ∧
      ∀ spelling ∈ ((keywordKind text).getD .identifier).spelling?, text = spelling := by
  unfold keywordKind
  split <;> simp [TokenKind.spelling?]

theorem keywordKind_ne (text : String) : (keywordKind text).getD .identifier ≠ .integer ∧
    (keywordKind text).getD .identifier ≠ .dot := by
  unfold keywordKind
  split <;> simp

theorem isWordPart_of_part (h : isIdentifierPart c = true) : LexPiece.isWordPart c = true := by
  simp [LexPiece.isWordPart, h]

theorem isWordPart_of_digit (h : isAsciiDigit c = true) : LexPiece.isWordPart c = true :=
  isWordPart_of_part (by simp [isIdentifierPart, h])

theorem scans_identifier (hnul : '\x00' ∉ l.source) (h : l.rest = c :: cs)
    (hc : isIdentifierStart c = true) (hfuel : l.rest.length ≤ fuel) :
    ∃ l' piece, l.scanIdentifierOrKeyword fuel = some l' ∧ Scans l l' piece ∧
      piece.EndsAt l'.rest := by
  obtain ⟨hmoves, hcs⟩ := moves_advance hnul h
  have hfuel' : l.advance.rest.length ≤ fuel := by
    rw [h, List.length_cons] at hfuel
    rw [hcs]
    omega
  obtain ⟨l', text, hloop, hmoves', hpart, _⟩ :=
    moves_advanceWhile isIdentifierPart (hmoves.source ▸ hnul) hfuel'
  have hall := hmoves.trans hmoves'
  have hword : ∀ d ∈ [c] ++ text, LexPiece.isWordPart d = true := by
    intro d hd
    rcases List.mem_cons.mp hd with rfl | hd
    · exact isWordPart_of_part (by simp [isIdentifierPart, hc])
    · exact isWordPart_of_part (hpart d hd)
  refine ⟨l'.addToken ((keywordKind (l'.textFrom l.position)).getD .identifier) l.position,
    .token ((keywordKind (String.ofList ([c] ++ text))).getD .identifier) ([c] ++ text), ?_, ?_,
    LexPiece.endsAt_word hword (keywordKind_ne _).2 fun hkind ↦ absurd hkind (keywordKind_ne _).1⟩
  · rw [scanIdentifierOrKeyword, hloop]
    rfl
  · rw [hall.textFrom]
    apply hall.addToken (List.cons_ne_nil _ _)
    · exact (keywordKind_spelled _).1
    · exact (keywordKind_spelled _).2

theorem peek_ahead (h : l.peek ≠ '\x00') : ∃ cs, l.rest = l.peek :: cs := by
  cases hrest : l.rest with
  | nil =>
      rw [peek_eq, hrest] at h
      exact absurd rfl h
  | cons c cs =>
      rw [peek_cons hrest]
      exact ⟨cs, rfl⟩

/-- Advancing over a character that is there. -/
theorem Moves.advance (hnul : '\x00' ∉ l.source) (h : Moves l l' text) (hpeek : l'.peek ≠ '\x00') :
    Moves l l'.advance (text ++ [l'.peek]) ∧ l'.advance.rest.length ≤ l'.rest.length := by
  obtain ⟨cs, hrest⟩ := peek_ahead hpeek
  obtain ⟨hmoves, hcs⟩ := moves_advance (h.source ▸ hnul) hrest
  refine ⟨h.trans hmoves, ?_⟩
  rw [hrest, hcs, List.length_cons]
  exact Nat.le_succ _

/-- The text since `l` is part of a name or a number. -/
structure Words (l l' : Lexer) (text : List Char) : Prop extends Moves l l' text where
  word : ∀ c ∈ text, LexPiece.isWordPart c = true

theorem Words.first (hnul : '\x00' ∉ l.source) (h : l.rest = c :: cs)
    (hc : isAsciiDigit c = true ∨ c = '.') : Words l l.advance [c] where
  toMoves := (moves_advance hnul h).1
  word := by
    intro d hd
    obtain rfl := List.mem_singleton.mp hd
    rcases hc with hc | rfl
    · exact isWordPart_of_digit hc
    · decide

theorem Words.advance (hnul : '\x00' ∉ l.source) (h : Words l l' text)
    (hpeek : LexPiece.isWordPart l'.peek = true) :
    Words l l'.advance (text ++ [l'.peek]) ∧ l'.advance.rest.length ≤ l'.rest.length := by
  have hne : l'.peek ≠ '\x00' := by
    intro hzero
    rw [hzero] at hpeek
    exact absurd hpeek (by decide)
  obtain ⟨hmoves, hle⟩ := h.toMoves.advance hnul hne
  refine ⟨⟨hmoves, ?_⟩, hle⟩
  intro d hd
  rcases List.mem_append.mp hd with hd | hd
  · exact h.word d hd
  · obtain rfl := List.mem_singleton.mp hd
    exact hpeek

theorem Words.digits (hnul : '\x00' ∉ l.source) (h : Words l l' text)
    (hfuel : l'.rest.length ≤ fuel) : ∃ l'' text', l'.advanceWhile isAsciiDigit fuel = some l'' ∧
      Words l l'' (text ++ text') ∧ l''.rest.length ≤ l'.rest.length := by
  obtain ⟨l'', text', hloop, hmoves, hdigits, _⟩ :=
    moves_advanceWhile isAsciiDigit (h.source ▸ hnul) hfuel
  refine ⟨l'', text', hloop, ⟨h.toMoves.trans hmoves, ?_⟩, ?_⟩
  · intro d hd
    rcases List.mem_append.mp hd with hd | hd
    · exact h.word d hd
    · exact isWordPart_of_digit (hdigits d hd)
  · rw [hmoves.rest, List.length_append]
    exact Nat.le_add_left _ _

theorem head?_of_peek (h : l.rest.head? = some c) : l.peek = c := by
  rw [peek_eq, List.headD_eq_head?_getD, h]
  rfl

theorem head?_of_peekNext (h : l.rest.tail.head? = some c) : l.peekNext = c := by
  rw [peekNext_eq, List.headD_eq_head?_getD, h]
  rfl

/-- A number that is not an exponent's; an integer does not stop at a point. -/
theorem Words.number {isFloat : Bool} (h : Words l l' text) (hne : text ≠ [])
    (hpoint : isFloat = false → ¬ (l'.peek = '.' ∧ l'.peekNext ≠ '.')) :
    ∃ piece, Scans l (l'.addToken (if isFloat then .float else .integer) l.position) piece ∧
      piece.EndsAt l'.rest := by
  refine ⟨_, h.toMoves.addToken hne ?_ ?_, LexPiece.endsAt_word h.word ?_ ?_⟩
  · cases isFloat <;> simp
  · cases isFloat <;> simp [TokenKind.spelling?]
  · cases isFloat <;> simp
  · intro hkind hhead
    have hinteger : isFloat = false := by
      cases isFloat
      · rfl
      · cases hkind
    have hnext : l'.peekNext = '.' := by
      by_contra hnext
      exact hpoint hinteger ⟨head?_of_peek hhead, hnext⟩
    rw [peekNext_eq, List.headD_eq_head?_getD] at hnext
    cases htail : l'.rest.tail.head? with
    | none =>
        rw [htail] at hnext
        cases hnext
    | some d =>
        rw [htail] at hnext
        exact congrArg some hnext

/-- The sign of an exponent, if it has one. -/
theorem Words.sign (hnul : '\x00' ∉ l.source) (h : Words l l' text) : ∃ m text',
    (if l'.peek = '+' ∨ l'.peek = '-' then l'.advance else l') = m ∧ Words l m (text ++ text') ∧
      m.rest.length ≤ l'.rest.length := by
  split
  · rename_i hsigned
    have hpeek : LexPiece.isWordPart l'.peek = true := by
      rcases hsigned with hsigned | hsigned <;>
        · rw [hsigned]
          decide
    obtain ⟨hwords, hle⟩ := h.advance hnul hpeek
    exact ⟨_, _, rfl, hwords, hle⟩
  · exact ⟨_, [], rfl, by simpa using h, le_rfl⟩

theorem scans_exponent {isFloat : Bool} (hnul : '\x00' ∉ l.source) (h : Words l l' text)
    (hne : text ≠ []) (hpoint : isFloat = false → ¬ (l'.peek = '.' ∧ l'.peekNext ≠ '.'))
    (hfuel : l'.rest.length ≤ fuel) :
    ∃ l'' piece, l'.scanExponent l.position isFloat fuel = some l'' ∧ Scans l l'' piece ∧
      piece.EndsAt l''.rest := by
  unfold scanExponent
  split
  · rename_i hexponent
    have hpeek : LexPiece.isWordPart l'.peek = true := by
      simp only [isExponentStart, Bool.or_eq_true, decide_eq_true_eq] at hexponent
      rcases hexponent with hexponent | hexponent <;>
        · rw [hexponent]
          decide
    obtain ⟨h₁, hle₁⟩ := h.advance hnul hpeek
    obtain ⟨m, text₂, hsign, h₂, hle₂⟩ := h₁.sign hnul
    have hne₂ : text ++ [l'.peek] ++ text₂ ≠ [] := by simp [hne]
    simp only [hsign]
    split
    · exact ⟨_, _, rfl, h₂.toMoves.report hne₂ _, .word h₂.word⟩
    · obtain ⟨l'', text₃, hloop, h₃, _⟩ := h₂.digits hnul (hle₂.trans (hle₁.trans hfuel))
      rw [hloop]
      have hne₃ : text ++ [l'.peek] ++ text₂ ++ text₃ ≠ [] := by simp [hne]
      exact ⟨_, _, rfl, h₃.toMoves.addToken hne₃ (by decide) (by simp [TokenKind.spelling?]),
        LexPiece.endsAt_word h₃.word (by decide) (by simp)⟩
  · obtain ⟨piece, hpiece, hends⟩ := h.number hne hpoint
    exact ⟨_, piece, rfl, hpiece, hends⟩

theorem scans_number (hnul : '\x00' ∉ l.source) (h : l.rest = c :: cs)
    (hc : isAsciiDigit c = true) (hfuel : l.rest.length ≤ fuel) :
    ∃ l' piece, l.scanNumber fuel = some l' ∧ Scans l l' piece ∧ piece.EndsAt l'.rest := by
  have h₁ := Words.first hnul h (.inl hc)
  have hlen : l.advance.rest.length ≤ fuel := by
    rw [h, List.length_cons] at hfuel
    rw [(moves_advance hnul h).2]
    omega
  obtain ⟨m, text, hloop, h₂, hle₂⟩ := h₁.digits hnul hlen
  unfold scanNumber
  rw [hloop]
  simp only [Option.bind_eq_bind, Option.bind_some]
  split
  · rename_i hdot
    have hpeek : LexPiece.isWordPart m.peek = true := by
      rw [hdot.1]
      decide
    obtain ⟨h₃, hle₃⟩ := h₂.advance hnul hpeek
    split
    · exact ⟨_, _, rfl, h₃.toMoves.report (by simp) _, .word h₃.word⟩
    · obtain ⟨m', text₄, hloop₄, h₄, hle₄⟩ := h₃.digits hnul (hle₃.trans (hle₂.trans hlen))
      rw [hloop₄]
      exact scans_exponent hnul h₄ (by simp) (by simp) (hle₄.trans (hle₃.trans (hle₂.trans hlen)))
  · rename_i hpoint
    exact scans_exponent hnul h₂ (by simp) (fun _ ↦ hpoint) (hle₂.trans hlen)

theorem scans_dot (hnul : '\x00' ∉ l.source) (h : l.rest = '.' :: cs)
    (hfuel : l.rest.length ≤ fuel) :
    ∃ l' piece, l.scanDot fuel = some l' ∧ Scans l l' piece ∧ piece.EndsAt l'.rest := by
  obtain ⟨h₁, hcs⟩ := moves_advance hnul h
  have hnext : l.peekNext = l.advance.peek := by
    rw [peekNext_eq, peek_eq, h, hcs, List.tail_cons]
  unfold scanDot
  split
  · rename_i hdot
    have hpeek : l.advance.peek = '.' := hnext.symm.trans hdot
    obtain ⟨cs', hrest⟩ := peek_ahead (l := l.advance) (by rw [hpeek]; decide)
    rw [hpeek] at hrest
    have h₂ := h₁.trans (moves_advance (h₁.source ▸ hnul) hrest).1
    refine ⟨_, .token .dotDot ['.', '.'], rfl, ?_,
      LexPiece.endsAt_spelled _ rfl (by decide) (by decide)⟩
    exact h₂.addToken (List.cons_ne_nil _ _) (by decide) (by simp [TokenKind.spelling?])
  · rename_i hdot
    split
    · have hlen : l.advance.rest.length ≤ fuel := by
        rw [h, List.length_cons] at hfuel
        rw [hcs]
        omega
      obtain ⟨l', text, hloop, h₂, _⟩ := (Words.first hnul h (.inr rfl)).digits hnul hlen
      unfold scanMalformedFloatStartingWithDot
      rw [hloop]
      exact ⟨_, _, rfl, h₂.toMoves.report (List.cons_ne_nil _ _) _, .word h₂.word⟩
    · obtain ⟨hscans, hrest⟩ := scans_single .dot hnul h (by decide) rfl
      refine ⟨_, _, rfl, hscans, .single (by decide) (by decide), by simp, by simp,
        fun _ hhead ↦ ?_⟩
      rw [hrest] at hhead
      exact hdot (head?_of_peekNext (by rw [h]; exact hhead))

theorem scans_symbol (hnul : '\x00' ∉ l.source) (h : l.rest = c :: cs)
    (hblank : isWhitespace c = false) (hslashes : ¬ (l.peek = '/' ∧ l.peekNext = '/'))
    (hfuel : l.rest.length ≤ fuel) :
    ∃ l' piece, l.scanSymbol fuel = some l' ∧ Scans l l' piece ∧ piece.EndsAt l'.rest := by
  have hpeek := peek_cons h
  unfold scanSymbol
  split
  all_goals
    rename_i hc
    try
      rw [hpeek] at hc
      subst hc
  case h_10 => exact scans_dot hnul h hfuel
  case h_12 | h_16 | h_17 | h_18 | h_19 =>
    exact scans_oneOrTwo hnul h (by decide) (by decide) (by decide) (by decide)
      (by simp [TokenKind.spelling?]) (by simp [TokenKind.spelling?])
  case h_14 =>
    obtain ⟨hscans, hrest⟩ := scans_single .slash hnul h (by decide) rfl
    have hslash : ∀ d ∈ ['/'], isWhitespace d = false := List.forall_mem_singleton.mpr rfl
    refine ⟨_, _, rfl, hscans, ⟨hslash, fun _ ↦ ⟨rfl, fun hhead ↦ ?_⟩⟩, by simp, by simp,
      by simp⟩
    rw [hrest] at hhead
    exact hslashes ⟨hpeek, head?_of_peekNext (by rw [h]; exact hhead)⟩
  case h_20 | h_21 =>
    exact scans_doubled hnul h (by decide) (by decide) (by decide) (by simp [TokenKind.spelling?])
  case h_22 =>
    have hslash : c ≠ '/' := by
      rintro rfl
      contradiction
    rw [hpeek]
    exact ⟨_, _, rfl, scans_unexpected hnul h, .single hblank hslash⟩
  all_goals
    exact ⟨_, _, rfl, scans_symbol_single hnul h (by decide) (by decide) (by decide)
      (by simp [TokenKind.spelling?])⟩

theorem scans_comment (hnul : '\x00' ∉ l.source) (h : l.rest = '/' :: '/' :: cs)
    (hfuel : l.rest.length ≤ fuel) :
    ∃ l' body, l.skipLineComment fuel = some l' ∧ Scans l l' (.comment body) ∧
      (LexPiece.comment body).EndsAt l'.rest := by
  obtain ⟨l', text, hloop, hmoves, htext, hend⟩ := moves_advanceWhile (· != '\n') hnul hfuel
  have hrest := hmoves.rest
  rw [h] at hrest
  -- the loop stops at a newline or at the end, so it has passed both slashes
  obtain ⟨body, rfl⟩ : ∃ body, text = '/' :: '/' :: body := by
    have hstop : ∀ cs', l'.rest ≠ '/' :: cs' := by
      intro cs' hcs'
      rcases hend with hend | hend
      · rw [hend] at hcs'
        cases hcs'
      · rw [peek_cons hcs'] at hend
        cases hend
    match text, hrest with
    | [], hrest => exact absurd hrest.symm (hstop _)
    | [d], hrest =>
        injection hrest with _ hrest
        exact absurd hrest.symm (hstop _)
    | d :: d' :: body, hrest =>
        injection hrest with hd hrest
        injection hrest with hd' _
        exact ⟨body, by rw [← hd, ← hd']⟩
  refine ⟨l', body, hloop, hmoves.comment ?_, ?_⟩
  · intro hnewline
    simpa using htext '\n' (List.mem_cons_of_mem _ (List.mem_cons_of_mem _ hnewline))
  · intro c hc
    rcases hend with hend | hend
    · rw [hend] at hc
      cases hc
    · rw [head?_of_peek hc] at hend
      simpa using hend

/-- Every round consumes a piece. -/
theorem scans_token (hnul : '\x00' ∉ l.source) (hne : l.rest ≠ []) (hfuel : l.rest.length ≤ fuel) :
    ∃ l' piece, l.scanToken fuel = some l' ∧ Scans l l' piece ∧ piece.EndsAt l'.rest := by
  obtain ⟨c, cs, h⟩ := List.exists_cons_of_ne_nil hne
  have hpeek := peek_cons h
  unfold scanToken
  split
  · rename_i hblank
    exact ⟨_, _, rfl, (moves_advance hnul h).1.blank (hpeek ▸ hblank), trivial⟩
  · rename_i hblank
    rw [hpeek, Bool.not_eq_true] at hblank
    split
    · rename_i hslashes
      rw [peekNext_eq, h, List.tail_cons] at hslashes
      cases cs with
      | nil => cases hslashes.2
      | cons d cs =>
          obtain rfl : c = '/' := hpeek.symm.trans hslashes.1
          obtain rfl : d = '/' := hslashes.2
          obtain ⟨l', body, hskip, hscans, hends⟩ := scans_comment hnul h hfuel
          exact ⟨l', _, hskip, hscans, hends⟩
    · rename_i hslashes
      split
      · rename_i hstart
        exact scans_identifier hnul h (hpeek ▸ hstart) hfuel
      · split
        · rename_i hdigit
          exact scans_number hnul h (hpeek ▸ hdigit) hfuel
        · exact scans_symbol hnul h hblank hslashes hfuel

end Lexer

/-! ## Whole sources -/

/-- The tokens of pieces that start at a position. -/
def tokensFrom : LexerPosition → List LexPiece → List Token
  | _, [] => []
  | position, piece :: pieces =>
      piece.tokens position ++ tokensFrom (position.afterText piece.text) pieces

/-- The diagnostics of pieces that start at a position. -/
def ReportsFrom : LexerPosition → List LexPiece → List Diagnostic → Prop
  | _, [], diagnostics => diagnostics = []
  | position, piece :: pieces, diagnostics => ∃ ds ds', diagnostics = ds ++ ds' ∧
      piece.Reports position ds ∧ ReportsFrom (position.afterText piece.text) pieces ds'

theorem tokensFrom_append (position : LexerPosition) (pieces pieces' : List LexPiece) :
    tokensFrom position (pieces ++ pieces') = tokensFrom position pieces ++
      tokensFrom (position.afterText (pieces.flatMap (·.text))) pieces' := by
  induction pieces generalizing position with
  | nil => rfl
  | cons piece pieces ih =>
      simp only [List.cons_append, tokensFrom, ih, List.flatMap_cons,
        LexerPosition.afterText_append, List.append_assoc]

theorem ReportsFrom.append {position : LexerPosition} {pieces : List LexPiece} {piece : LexPiece}
    {diagnostics ds : List Diagnostic} (h : ReportsFrom position pieces diagnostics)
    (hpiece : piece.Reports (position.afterText (pieces.flatMap (·.text))) ds) :
    ReportsFrom position (pieces ++ [piece]) (diagnostics ++ ds) := by
  induction pieces generalizing position diagnostics with
  | nil =>
      obtain rfl : diagnostics = [] := h
      exact ⟨ds, [], by simp, hpiece, rfl⟩
  | cons first pieces ih =>
      obtain ⟨ds₁, ds₂, rfl, hfirst, hrest⟩ := h
      refine ⟨ds₁, ds₂ ++ ds, by simp, hfirst, ih hrest ?_⟩
      simpa only [List.flatMap_cons, LexerPosition.afterText_append] using hpiece

/-- The state after the pieces. -/
structure LexedTo (start l : Lexer) (pieces : List LexPiece) : Prop where
  valid : ∀ piece ∈ pieces, piece.Valid
  source : l.source = start.source
  rest : start.rest = pieces.flatMap (·.text) ++ l.rest
  position : l.position = start.position.afterText (pieces.flatMap (·.text))
  tokens : l.tokens = start.tokens ++ tokensFrom start.position pieces
  diagnostics : ∃ ds, l.diagnostics = start.diagnostics ++ ds ∧
    ReportsFrom start.position pieces ds

theorem LexedTo.refl (l : Lexer) : LexedTo l l [] :=
  ⟨by simp, rfl, rfl, rfl, by simp [tokensFrom], [], by simp, rfl⟩

theorem LexedTo.scan {start l l' : Lexer} {pieces : List LexPiece} {piece : LexPiece}
    (h : LexedTo start l pieces) (hscan : Lexer.Scans l l' piece) :
    LexedTo start l' (pieces ++ [piece]) where
  valid := by
    intro p hp
    rcases List.mem_append.mp hp with hp | hp
    · exact h.valid p hp
    · obtain rfl := List.mem_singleton.mp hp
      exact hscan.valid
  source := hscan.source.trans h.source
  rest := by
    rw [h.rest, hscan.rest]
    simp
  position := by
    rw [hscan.position, h.position, ← LexerPosition.afterText_append]
    simp
  tokens := by
    rw [hscan.tokens, h.tokens, tokensFrom_append, h.position]
    simp [tokensFrom]
  diagnostics := by
    obtain ⟨ds, hds, hreports⟩ := h.diagnostics
    obtain ⟨ds', hds', hreports'⟩ := hscan.diagnostics
    refine ⟨ds ++ ds', by rw [hds', hds, List.append_assoc], hreports.append ?_⟩
    rw [← h.position]
    exact hreports'

/-- The token that ends the list. -/
def eofAt (position : LexerPosition) : Token where
  kind := .eof
  text := ""
  line := position.line
  column := position.column
  start := position.utf16Offset
  stop := position.utf16Offset

def startPosition : LexerPosition := ⟨0, 0, 1, 1⟩

/-- A source without NUL is lexed, into pieces that together are its text. -/
theorem lex_pieces {source : SourceFile} {fuel : Nat} (hnul : '\x00' ∉ source.text.toList)
    (hfuel : source.text.toList.length ≤ fuel) : ∃ result pieces, lex fuel source = some result ∧
      (∀ piece ∈ pieces, LexPiece.Valid piece) ∧
      source.text.toList = pieces.flatMap (·.text) ∧
      result.tokens = tokensFrom startPosition pieces ++
        [eofAt (startPosition.afterText source.text.toList)] ∧
      ReportsFrom startPosition pieces result.diagnostics := by
  have hstart : (Lexer.start source).rest = source.text.toList := rfl
  obtain ⟨l, hloop, ⟨pieces, hl⟩, hend⟩ : ∃ l,
      Lib.whileLoop (fun l : Lexer ↦ !l.isAtEnd) (·.scanToken fuel) fuel (.start source) = some l ∧
        (∃ pieces, LexedTo (.start source) l pieces) ∧ (!l.isAtEnd) = false := by
    apply Lib.whileLoop.terminates _ _ _ (fun l : Lexer ↦ l.rest.length)
    · rintro s ⟨pieces, hs⟩ hcond
      have hne : s.rest ≠ [] := by
        intro hnil
        rw [Lexer.isAtEnd_iff.mpr hnil] at hcond
        cases hcond
      have hle : s.rest.length ≤ fuel := by
        have hlen := congrArg List.length hs.rest
        rw [hstart, List.length_append] at hlen
        omega
      obtain ⟨s', piece, hscan, hpiece, _⟩ := Lexer.scans_token (hs.source ▸ hnul) hne hle
      refine ⟨s', hscan, ⟨_, hs.scan hpiece⟩, ?_⟩
      have hpos := List.length_pos_iff.mpr hpiece.valid.text_ne_nil
      rw [hpiece.rest, List.length_append]
      omega
    · exact ⟨[], LexedTo.refl _⟩
    · exact hfuel
  have hrest : l.rest = [] := by
    rw [Bool.not_eq_false', Lexer.isAtEnd_iff] at hend
    exact hend
  have htext : source.text.toList = pieces.flatMap (·.text) := by
    have := hl.rest
    rwa [hstart, hrest, List.append_nil] at this
  obtain ⟨ds, hds, hreports⟩ := hl.diagnostics
  refine ⟨_, pieces, by rw [lex, hloop]; rfl, hl.valid, htext, ?_, ?_⟩
  · change l.tokens ++ [eofAt l.position] = _
    rw [hl.tokens, hl.position, ← htext]
    rfl
  · change ReportsFrom startPosition pieces l.diagnostics
    rw [hds]
    exact hreports

end CalcKernel
