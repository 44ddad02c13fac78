import CalcKernel.Frontend.Token
import CalcKernel.Lib.Loop

/-!
# The lexer

The scanner peeks at the next characters of the source and advances over them; NUL
stands for the end of the source.  Its loops take fuel.
-/

namespace CalcKernel

/-- Offsets in characters and in UTF-16 code units.  The source slices its text at byte offsets;
these always lie between two characters. -/
structure LexerPosition where
  charOffset : Nat
  utf16Offset : Nat
  line : Nat
  column : Nat
deriving DecidableEq, Repr

structure Lexer where
  fileName : String
  source : List Char
  tokens : List Token
  diagnostics : List Diagnostic
  position : LexerPosition
deriving DecidableEq, Repr

structure LexResult where
  tokens : List Token
  diagnostics : List Diagnostic
deriving DecidableEq, Repr

def lenUtf16 (c : Char) : Nat := if c.toNat < 0x10000 then 1 else 2

def isWhitespace (c : Char) : Bool := c = ' ' || c = '\r' || c = '\t' || c = '\n'

def isAsciiDigit (c : Char) : Bool := '0' ≤ c && c ≤ '9'

def isAsciiAlphabetic (c : Char) : Bool := ('a' ≤ c && c ≤ 'z') || ('A' ≤ c && c ≤ 'Z')

def isExponentStart (c : Char) : Bool := c = 'e' || c = 'E'

def isIdentifierStart (c : Char) : Bool := c = '_' || isAsciiAlphabetic c

def isIdentifierPart (c : Char) : Bool := isIdentifierStart c || isAsciiDigit c

def keywordKind (text : String) : Option TokenKind :=
  match text with
  | "struct" => some .kwStruct
  | "export" => some .kwExport
  | "unsafe" => some .kwUnsafe
  | "fn" => some .kwFn
  | "contract" => some .kwContract
  | "requires" => some .kwRequires
  | "effects" => some .kwEffects
  | "none" => some .kwNone
  | "let" => some .kwLet
  | "return" => some .kwReturn
  | "break" => some .kwBreak
  | "continue" => some .kwContinue
  | "if" => some .kwIf
  | "else" => some .kwElse
  | "while" => some .kwWhile
  | "true" => some .kwTrue
  | "false" => some .kwFalse
  | "i32" => some .kwI32
  | "i64" => some .kwI64
  | "u32" => some .kwU32
  | "u64" => some .kwU64
  | "f64" => some .kwF64
  | "bool" => some .kwBool
  | "void" => some .kwVoid
  | "ptr" => some .kwPtr
  | "slice" => some .kwSlice
  | _ => none

def LexerPosition.sourcePosition (position : LexerPosition) : SourcePosition where
  offset := position.utf16Offset
  line := position.line
  column := position.column

/-- The position behind a character. -/
def LexerPosition.after (position : LexerPosition) (c : Char) : LexerPosition where
  charOffset := position.charOffset + 1
  utf16Offset := position.utf16Offset + lenUtf16 c
  line := if c = '\n' then position.line + 1 else position.line
  column := if c = '\n' then 1 else position.column + lenUtf16 c

namespace Lexer

def start (source : SourceFile) : Lexer where
  fileName := source.fileName
  source := source.text.toList
  tokens := []
  diagnostics := []
  position := ⟨0, 0, 1, 1⟩

variable (lexer : Lexer)

def isAtEnd : Bool := lexer.source.length ≤ lexer.position.charOffset

def peek : Char := lexer.source[lexer.position.charOffset]?.getD '\x00'

def peekNext : Char := lexer.source[lexer.position.charOffset + 1]?.getD '\x00'

/-- Nothing is consumed at a NUL, be it the end or a character of the source. -/
def advance : Lexer :=
  if lexer.peek = '\x00' then lexer
  else { lexer with position := lexer.position.after lexer.peek }

/-- Advance while the next character satisfies `p`. -/
def advanceWhile (p : Char → Bool) (fuel : Nat) : Option Lexer :=
  Lib.whileLoop (fun l : Lexer ↦ !l.isAtEnd && p l.peek) (fun l ↦ some l.advance) fuel lexer

def matchChar (expected : Char) : Bool × Lexer :=
  if lexer.isAtEnd || lexer.peek != expected then (false, lexer) else (true, lexer.advance)

/-- The text from a position on. -/
def textFrom (start : LexerPosition) : String :=
  String.ofList ((lexer.source.drop start.charOffset).take
    (lexer.position.charOffset - start.charOffset))

def addToken (kind : TokenKind) (start : LexerPosition) : Lexer :=
  { lexer with
    tokens := lexer.tokens ++ [{
      kind := kind
      text := lexer.textFrom start
      line := start.line
      column := start.column
      start := start.utf16Offset
      stop := lexer.position.utf16Offset }] }

def report (message : String) (span : SourceSpan) : Lexer :=
  { lexer with diagnostics := lexer.diagnostics ++
    [Diagnostic.error .ck0001 message lexer.fileName span] }

def reportUnexpected (start : LexerPosition) (c : Char) : Lexer :=
  lexer.report ("Unexpected character '" ++ c.toString ++ "'.")
    ⟨start.sourcePosition, lexer.position.sourcePosition⟩

/-- The span of one code unit of a character. -/
def codeUnitSpan (start : LexerPosition) (index : Nat) : SourceSpan where
  start := ⟨start.utf16Offset + index, start.line, start.column + index⟩
  stop := ⟨start.utf16Offset + index + 1, start.line, start.column + index + 1⟩

def reportCodeUnit (start : LexerPosition) (index : Nat) : Lexer :=
  lexer.report "Unexpected character '\uFFFD'." (codeUnitSpan start index)

/-- A character outside the basic plane is reported once for each of its code units. -/
def scanUnexpectedCharacter (start : LexerPosition) (c : Char) : Lexer :=
  if lenUtf16 c = 1 then lexer.advance.reportUnexpected start c
  else (List.range (lenUtf16 c)).foldl (·.reportCodeUnit start ·) lexer.advance

def reportMalformedFloat (start : LexerPosition) : Lexer :=
  lexer.report ("Malformed float literal '" ++ lexer.textFrom start ++ "'.")
    ⟨start.sourcePosition, lexer.position.sourcePosition⟩

def scanIdentifierOrKeyword (fuel : Nat) : Option Lexer := do
  let start := lexer.position
  let lexer ← lexer.advance.advanceWhile isIdentifierPart fuel
  return lexer.addToken ((keywordKind (lexer.textFrom start)).getD .identifier) start

/-- The exponent of a number and the token. -/
def scanExponent (start : LexerPosition) (isFloat : Bool) (fuel : Nat) : Option Lexer :=
  if isExponentStart lexer.peek then do
    let lexer := lexer.advance
    let lexer := if lexer.peek = '+' ∨ lexer.peek = '-' then lexer.advance else lexer
    if !isAsciiDigit lexer.peek then return lexer.reportMalformedFloat start
    else
      let lexer ← lexer.advanceWhile isAsciiDigit fuel
      return lexer.addToken .float start
  else some (lexer.addToken (if isFloat then .float else .integer) start)

def scanNumber (fuel : Nat) : Option Lexer := do
  let start := lexer.position
  let lexer ← lexer.advance.advanceWhile isAsciiDigit fuel
  if lexer.peek = '.' ∧ lexer.peekNext ≠ '.' then
    let lexer := lexer.advance
    if !isAsciiDigit lexer.peek then return lexer.reportMalformedFloat start
    else
      let lexer ← lexer.advanceWhile isAsciiDigit fuel
      lexer.scanExponent start true fuel
  else lexer.scanExponent start false fuel

def scanMalformedFloatStartingWithDot (fuel : Nat) : Option Lexer := do
  let start := lexer.position
  let lexer ← lexer.advance.advanceWhile isAsciiDigit fuel
  return lexer.reportMalformedFloat start

def skipLineComment (fuel : Nat) : Option Lexer :=
  lexer.advanceWhile (· != '\n') fuel

/-- A token of one character. -/
def single (kind : TokenKind) : Lexer :=
  let start := lexer.position
  lexer.advance.addToken kind start

/-- A token of one character, or of two if the second follows. -/
def oneOrTwo (second : Char) (two one : TokenKind) : Lexer :=
  let start := lexer.position
  match lexer.advance.matchChar second with
  | (true, lexer) => lexer.addToken two start
  | (false, lexer) => lexer.addToken one start

/-- A token of two characters; the first alone is unexpected. -/
def doubled (c : Char) (kind : TokenKind) : Lexer :=
  let start := lexer.position
  match lexer.advance.matchChar c with
  | (true, lexer) => lexer.addToken kind start
  | (false, lexer) => lexer.reportUnexpected start c

def scanDot (fuel : Nat) : Option Lexer :=
  let start := lexer.position
  if lexer.peekNext = '.' then some (lexer.advance.advance.addToken .dotDot start)
  else if isAsciiDigit lexer.peekNext then lexer.scanMalformedFloatStartingWithDot fuel
  else some (lexer.single .dot)

/-- The `match` on the character. -/
def scanSymbol (fuel : Nat) : Option Lexer :=
  match lexer.peek with
  | '(' => some (lexer.single .leftParen)
  | ')' => some (lexer.single .rightParen)
  | '\x7b' => some (lexer.single .leftBrace)
  | '\x7d' => some (lexer.single .rightBrace)
  | '[' => some (lexer.single .leftBracket)
  | ']' => some (lexer.single .rightBracket)
  | ',' => some (lexer.single .comma)
  | ':' => some (lexer.single .colon)
  | ';' => some (lexer.single .semicolon)
  | '.' => lexer.scanDot fuel
  | '+' => some (lexer.single .plus)
  | '-' => some (lexer.oneOrTwo '>' .arrow .minus)
  | '*' => some (lexer.single .star)
  | '/' => some (lexer.single .slash)
  | '%' => some (lexer.single .percent)
  | '=' => some (lexer.oneOrTwo '=' .equalEqual .equal)
  | '!' => some (lexer.oneOrTwo '=' .bangEqual .bang)
  | '<' => some (lexer.oneOrTwo '=' .lessEqual .less)
  | '>' => some (lexer.oneOrTwo '=' .greaterEqual .greater)
  | '&' => some (lexer.doubled '&' .ampAmp)
  | '|' => some (lexer.doubled '|' .pipePipe)
  | c => some (lexer.scanUnexpectedCharacter lexer.position c)

def scanToken (fuel : Nat) : Option Lexer :=
  if isWhitespace lexer.peek then some lexer.advance
  else if lexer.peek = '/' ∧ lexer.peekNext = '/' then lexer.skipLineComment fuel
  else if isIdentifierStart lexer.peek then lexer.scanIdentifierOrKeyword fuel
  else if isAsciiDigit lexer.peek then lexer.scanNumber fuel
  else lexer.scanSymbol fuel

end Lexer

def lex (fuel : Nat) (source : SourceFile) : Option LexResult := do
  let lexer ← Lib.whileLoop (fun l : Lexer ↦ !l.isAtEnd) (·.scanToken fuel) fuel (.start source)
  return {
    tokens := lexer.tokens ++ [{
      kind := .eof
      text := ""
      line := lexer.position.line
      column := lexer.position.column
      start := lexer.position.utf16Offset
      stop := lexer.position.utf16Offset }]
    diagnostics := lexer.diagnostics }

end CalcKernel
