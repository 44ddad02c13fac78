import Mathlib.Tactic.Common

/-!
# Sources, diagnostics and tokens

Positions count UTF-16 code units, lines and columns.
-/

namespace CalcKernel

structure SourceFile where
  fileName : String
  text : String
deriving DecidableEq, Repr

structure SourcePosition where
  offset : Nat
  line : Nat
  column : Nat
deriving DecidableEq, Repr, Inhabited

structure SourceSpan where
  start : SourcePosition
  stop : SourcePosition
deriving DecidableEq, Repr, Inhabited

/-- The codes of the front end; the others belong to the checker. -/
inductive DiagnosticCode where
  | ck0001
  | ck1001
  | ck2014
deriving DecidableEq, Repr

structure Diagnostic where
  code : DiagnosticCode
  message : String
  fileName : String
  line : Nat
  column : Nat
  span : SourceSpan
deriving DecidableEq, Repr

/-- The only severity is an error. -/
def Diagnostic.error (code : DiagnosticCode) (message fileName : String) (span : SourceSpan) :
    Diagnostic where
  code := code
  message := message
  fileName := fileName
  line := span.start.line
  column := span.start.column
  span := span

/-- The kinds of tokens; a keyword is marked `kw`. -/
inductive TokenKind where
  | eof
  | identifier | integer | float
  | kwStruct | kwExport | kwUnsafe | kwFn | kwContract | kwRequires | kwEffects | kwNone | kwLet
  | kwReturn | kwBreak | kwContinue | kwIf | kwElse | kwWhile | kwTrue | kwFalse
  | kwI32 | kwI64 | kwU32 | kwU64 | kwF64 | kwBool | kwVoid | kwPtr | kwSlice
  | leftParen | rightParen | leftBrace | rightBrace | leftBracket | rightBracket
  | comma | colon | semicolon | dot | dotDot | arrow
  | plus | minus | star | slash | percent | equal | equalEqual | bang | bangEqual
  | less | lessEqual | greater | greaterEqual | ampAmp | pipePipe
deriving DecidableEq, Repr

structure Token where
  kind : TokenKind
  text : String
  line : Nat
  column : Nat
  start : Nat
  stop : Nat
deriving DecidableEq, Repr

/-- The one spelling of a kind, if it has only one. -/
def TokenKind.spelling? : TokenKind → Option String
  | .eof => some ""
  | .identifier | .integer | .float => none
  | .kwStruct => some "struct"
  | .kwExport => some "export"
  | .kwUnsafe => some "unsafe"
  | .kwFn => some "fn"
  | .kwContract => some "contract"
  | .kwRequires => some "requires"
  | .kwEffects => some "effects"
  | .kwNone => some "none"
  | .kwLet => some "let"
  | .kwReturn => some "return"
  | .kwBreak => some "break"
  | .kwContinue => some "continue"
  | .kwIf => some "if"
  | .kwElse => some "else"
  | .kwWhile => some "while"
  | .kwTrue => some "true"
  | .kwFalse => some "false"
  | .kwI32 => some "i32"
  | .kwI64 => some "i64"
  | .kwU32 => some "u32"
  | .kwU64 => some "u64"
  | .kwF64 => some "f64"
  | .kwBool => some "bool"
  | .kwVoid => some "void"
  | .kwPtr => some "ptr"
  | .kwSlice => some "slice"
  | .leftParen => some "("
  | .rightParen => some ")"
  | .leftBrace => some "\x7b"
  | .rightBrace => some "\x7d"
  | .leftBracket => some "["
  | .rightBracket => some "]"
  | .comma => some ","
  | .colon => some ":"
  | .semicolon => some ";"
  | .dot => some "."
  | .dotDot => some ".."
  | .arrow => some "->"
  | .plus => some "+"
  | .minus => some "-"
  | .star => some "*"
  | .slash => some "/"
  | .percent => some "%"
  | .equal => some "="
  | .equalEqual => some "=="
  | .bang => some "!"
  | .bangEqual => some "!="
  | .less => some "<"
  | .lessEqual => some "<="
  | .greater => some ">"
  | .greaterEqual => some ">="
  | .ampAmp => some "&&"
  | .pipePipe => some "||"

/-- A token of a kind with one spelling has this spelling. -/
def Token.WellSpelled (token : Token) : Prop :=
  ∀ spelling ∈ token.kind.spelling?, token.text = spelling

end CalcKernel
