import CalcKernel.Frontend.Ast
import CalcKernel.Frontend.Lexer

/-!
# The parser

Recursive descent with precedence climbing for binary operators.  What is missing
is reported and parsing goes on.  Recursion and loops take fuel.
-/

namespace CalcKernel

/-- The token list around the index; the index stays on an end-of-file token. -/
structure Parser where
  fileName : String
  before : List Token
  current : Token
  after : List Token
  diagnostics : List Diagnostic
deriving DecidableEq, Repr

abbrev Parse := StateT Parser Option

def binaryPrecedence : TokenKind → Nat
  | .pipePipe => 1
  | .ampAmp => 2
  | .equalEqual | .bangEqual => 3
  | .less | .lessEqual | .greater | .greaterEqual => 4
  | .plus | .minus => 5
  | .star | .slash | .percent => 6
  | _ => 0

namespace Token

variable (token : Token)

def position : SourcePosition := ⟨token.start, token.line, token.column⟩

def endPosition : SourcePosition := ⟨token.stop, token.line, token.column + token.text.length⟩

def span : SourceSpan := ⟨token.position, token.endPosition⟩

end Token

def spanBetweenTokens (start stop : Token) : SourceSpan := ⟨start.position, stop.endPosition⟩

namespace Parser

variable (parser : Parser)

/-- The next state.  Behind the last token the parser stays on it. -/
def next : Parser :=
  if parser.current.kind = .eof then parser
  else match parser.after with
    | [] => { parser with before := parser.current :: parser.before }
    | token :: rest =>
        { parser with before := parser.current :: parser.before, current := token, after := rest }

def check (kind : TokenKind) : Bool := parser.current.kind = kind

def nextIs (kind : TokenKind) : Bool := parser.after.head?.any (·.kind = kind)

def previous : Token := parser.before.headD parser.current

def report (token : Token) (code : DiagnosticCode) (message : String) : Parser :=
  { parser with diagnostics := parser.diagnostics ++
    [Diagnostic.error code message parser.fileName token.span] }

end Parser

/-! ## Tokens -/

def currentToken : Parse Token := do return (← get).current

def checkToken (kind : TokenKind) : Parse Bool := do return (← get).check kind

def nextTokenIs (kind : TokenKind) : Parse Bool := do return (← get).nextIs kind

def previousToken : Parse Token := do return (← get).previous

def advanceToken : Parse Token := do
  let token ← currentToken
  modify (·.next)
  return token

def matchToken (kind : TokenKind) : Parse Bool := do
  if ← checkToken kind then
    let _ ← advanceToken
    return true
  else return false

def errorWithCode (token : Token) (code : DiagnosticCode) (message : String) : Parse Unit :=
  modify (·.report token code message)

def parseError (token : Token) (message : String) : Parse Unit :=
  errorWithCode token .ck1001 message

/-- The token, or an empty one in its place. -/
def consume (kind : TokenKind) (message : String) : Parse Token := do
  if ← checkToken kind then advanceToken
  else
    let token ← currentToken
    parseError token message
    return {
      kind := kind
      text := ""
      line := token.line
      column := token.column
      start := token.start
      stop := token.start }

def parseIdentifier (message : String) : Parse IdentifierNode := do
  let token ← consume .identifier message
  return ⟨token.text, token.span⟩

/-! ## Recovery -/

/-- Advance to a token of one of the kinds. -/
def skipUntil (stop : Parser → Bool) (fuel : Nat) : Parse Unit := fun parser ↦
  (Lib.whileLoop (fun p ↦ !stop p) (fun p ↦ some p.next) fuel parser).map ((), ·)

def recoverToRightBracket (fuel : Nat) : Parse Token := do
  skipUntil (fun p ↦ p.check .rightBracket || p.check .eof) fuel
  consume .rightBracket "Expected ']' after sub-slice expression."

def synchronizeStatement (fuel : Nat) : Parse Unit := do
  skipUntil (fun p ↦ p.check .eof || p.check .semicolon || p.check .rightBrace) fuel
  let _ ← matchToken .semicolon

def synchronizeContractClause (fuel : Nat) : Parse Unit := do
  skipUntil (fun p ↦ p.check .eof || p.check .rightBrace || p.check .semicolon) fuel
  let _ ← matchToken .semicolon

/-- Skip to the brace that closes `depth` open ones. -/
def skipBraces : Nat → Nat → Parse Unit
  | 0, _ => failure
  | fuel + 1, depth => do
      if depth = 0 then return ()
      else if ← checkToken .eof then return ()
      else
        let token ← advanceToken
        skipBraces fuel (match token.kind with
          | .leftBrace => depth + 1
          | .rightBrace => depth - 1
          | _ => depth)

def skipBracedDeclaration (fuel : Nat) : Parse Unit := do
  if ← matchToken .leftBrace then skipBraces fuel 1

/-! ## Types -/

def parseType : Nat → Parse TypeNode
  | 0 => failure
  | fuel + 1 => do
      let token ← currentToken
      match token.kind with
      | .kwI32 | .kwI64 | .kwU32 | .kwU64 | .kwF64 | .kwBool =>
          let _ ← advanceToken
          return .primitive token.text token.span
      | .kwVoid =>
          let _ ← advanceToken
          return .void token.span
      | .identifier =>
          let name ← parseIdentifier "Expected type name."
          return .named name name.span
      | .kwPtr =>
          let ptrToken ← advanceToken
          let _ ← consume .less "Expected '<' after 'ptr'."
          let elementType ← parseType fuel
          let greater ← consume .greater "Expected '>' after pointer type."
          return .pointer elementType (spanBetweenTokens ptrToken greater)
      | .kwSlice =>
          let sliceToken ← advanceToken
          let _ ← consume .less "Expected '<' after 'slice'."
          let elementType ← parseType fuel
          let greater ← consume .greater "Expected '>' after slice type."
          return .slice elementType (spanBetweenTokens sliceToken greater)
      | _ =>
          parseError token "Expected type."
          let _ ← advanceToken
          return .error token.span

/-! ## Expressions -/

mutual

def parseExpression : Nat → Nat → Parse Expression
  | 0, _ => failure
  | fuel + 1, minPrecedence => do
      let left ← parseUnaryExpression fuel
      parseBinaryOperators fuel minPrecedence left

/-- The loop over the operators behind a left operand. -/
def parseBinaryOperators : Nat → Nat → Expression → Parse Expression
  | 0, _, _ => failure
  | fuel + 1, minPrecedence, left => do
      let operator ← currentToken
      let precedence := binaryPrecedence operator.kind
      if precedence < minPrecedence then return left
      else
        let _ ← advanceToken
        let right ← parseExpression fuel (precedence + 1)
        parseBinaryOperators fuel minPrecedence
          (.binary operator.text left right ⟨left.span.start, right.span.stop⟩)

def parseUnaryExpression : Nat → Parse Expression
  | 0 => failure
  | fuel + 1 => do
      if (← checkToken .bang) || (← checkToken .minus) then
        let operator ← advanceToken
        let operand ← parseExpression fuel 7
        return .unary operator.text operand ⟨operator.position, operand.span.stop⟩
      else
        let primary ← parsePrimaryExpression fuel
        parsePostfixExpression fuel primary

/-- The loop over calls, fields, indices and sub-slices. -/
def parsePostfixExpression : Nat → Expression → Parse Expression
  | 0, _ => failure
  | fuel + 1, expression => do
      if ← matchToken .leftParen then
        let args ← parseArgumentList fuel
        let rightParen ← consume .rightParen "Expected ')' after arguments."
        parsePostfixExpression fuel
          (.call expression args ⟨expression.span.start, rightParen.endPosition⟩)
      else if ← matchToken .dot then
        let field ← parseIdentifier "Expected field name after '.'."
        parsePostfixExpression fuel
          (.field expression field ⟨expression.span.start, field.span.stop⟩)
      else if ← matchToken .leftBracket then
        if ← checkToken .dotDot then
          let token ← currentToken
          parseError token "Sub-slice start expression is required."
          let rightBracket ← recoverToRightBracket fuel
          parsePostfixExpression fuel
            (.error ⟨expression.span.start, rightBracket.endPosition⟩)
        else
          let position ← parseExpression fuel 1
          if ← matchToken .dotDot then
            if ← checkToken .rightBracket then
              let token ← currentToken
              parseError token "Sub-slice end expression is required."
              let rightBracket ← advanceToken
              parsePostfixExpression fuel
                (.error ⟨expression.span.start, rightBracket.endPosition⟩)
            else
              let stop ← parseExpression fuel 1
              if ← checkToken .dotDot then
                let token ← currentToken
                parseError token "Only one '..' is allowed in a sub-slice."
                let rightBracket ← recoverToRightBracket fuel
                parsePostfixExpression fuel
                  (.error ⟨expression.span.start, rightBracket.endPosition⟩)
              else
                let rightBracket ← consume .rightBracket "Expected ']' after sub-slice expression."
                parsePostfixExpression fuel (.subslice expression position stop
                  ⟨expression.span.start, rightBracket.endPosition⟩)
          else
            let rightBracket ← consume .rightBracket "Expected ']' after index expression."
            parsePostfixExpression fuel
              (.index expression position ⟨expression.span.start, rightBracket.endPosition⟩)
      else return expression

def parseArgumentList : Nat → Parse (List Expression)
  | 0 => failure
  | fuel + 1 => do
      if ← checkToken .rightParen then return [] else parseArguments fuel

/-- The loop over one or more arguments. -/
def parseArguments : Nat → Parse (List Expression)
  | 0 => failure
  | fuel + 1 => do
      let argument ← parseExpression fuel 1
      if ← matchToken .comma then
        let rest ← parseArguments fuel
        return argument :: rest
      else return [argument]

def parsePrimaryExpression : Nat → Parse Expression
  | 0 => failure
  | fuel + 1 => do
      let token ← currentToken
      if ← matchToken .integer then return .integerLiteral token.text token.span
      else if ← matchToken .float then return .floatLiteral token.text token.span
      else if ← matchToken .kwTrue then return .boolLiteral true token.span
      else if ← matchToken .kwFalse then return .boolLiteral false token.span
      else if ← matchToken .identifier then return .identifier token.text token.span
      else if ← matchToken .kwSlice then
        let _ ← consume .leftParen "Expected '(' after 'slice'."
        let data ← parseExpression fuel 1
        let _ ← consume .comma "Expected ',' after slice data expression."
        let len ← parseExpression fuel 1
        let rightParen ← consume .rightParen "Expected ')' after slice constructor."
        return .sliceConstructor data len ⟨token.position, rightParen.endPosition⟩
      else if ← matchToken .leftParen then
        let expression ← parseExpression fuel 1
        let rightParen ← consume .rightParen "Expected ')' after expression."
        return .parenthesized expression ⟨token.position, rightParen.endPosition⟩
      else
        parseError token "Expected expression."
        let _ ← advanceToken
        return .error token.span

end

/-! ## Statements -/

def parseLetStatement (fuel : Nat) : Parse Statement := do
  let letToken ← consume .kwLet "Expected 'let'."
  let name ← parseIdentifier "Expected local name."
  let _ ← consume .colon "Expected ':' after local name."
  let typeNode ← parseType fuel
  let _ ← consume .equal "Expected '=' after local type."
  let initializer ← parseExpression fuel 1
  let semicolon ← consume .semicolon "Expected ';' after let statement."
  return .letStatement name typeNode initializer (spanBetweenTokens letToken semicolon)

def Expression.isCall : Expression → Bool
  | .call .. => true
  | _ => false

def parseAssignmentOrCallStatement (fuel : Nat) : Parse Statement := do
  let start ← currentToken
  let target ← parseExpression fuel 1
  if ← matchToken .equal then
    let value ← parseExpression fuel 1
    let semicolon ← consume .semicolon "Expected ';' after assignment statement."
    return .assignment target value ⟨target.span.start, semicolon.endPosition⟩
  else if target.isCall then
    let semicolon ← consume .semicolon "Expected ';' after function call statement."
    return .call target ⟨target.span.start, semicolon.endPosition⟩
  else
    let token ← currentToken
    parseError token "Only a function call may be used as a standalone statement."
    synchronizeStatement fuel
    return .error start.span

/-- The scanner rejected text between `return` and the semicolon. -/
def Parser.lexErrorBeforeSemicolon (parser : Parser) (returnToken : Token) : Bool :=
  parser.check .semicolon && parser.diagnostics.any fun diagnostic ↦
    diagnostic.code = .ck0001 && returnToken.stop ≤ diagnostic.span.start.offset &&
      diagnostic.span.start.offset < parser.current.start

def parseReturnValue (fuel : Nat) (returnToken : Token) : Parse (Option Expression) := do
  let parser ← get
  if parser.check .semicolon && !parser.lexErrorBeforeSemicolon returnToken then return none
  else
    let value ← parseExpression fuel 1
    return some value

def parseReturnStatement (fuel : Nat) : Parse Statement := do
  let returnToken ← consume .kwReturn "Expected 'return'."
  let value ← parseReturnValue fuel returnToken
  let semicolon ← consume .semicolon "Expected ';' after return statement."
  return .returnStatement value (spanBetweenTokens returnToken semicolon)

def parseBreakStatement : Parse Statement := do
  let token ← consume .kwBreak "Expected 'break'."
  let semicolon ← consume .semicolon "Expected ';' after 'break'."
  return .breakStatement (spanBetweenTokens token semicolon)

def parseContinueStatement : Parse Statement := do
  let token ← consume .kwContinue "Expected 'continue'."
  let semicolon ← consume .semicolon "Expected ';' after 'continue'."
  return .continueStatement (spanBetweenTokens token semicolon)

mutual

def parseBlockStatement : Nat → Parse BlockStatement
  | 0 => failure
  | fuel + 1 => do
      let leftBrace ← consume .leftBrace "Expected '\x7b' before block."
      let statements ← parseStatements fuel
      let rightBrace ← consume .rightBrace "Expected '\x7d' after block."
      return .mk statements (spanBetweenTokens leftBrace rightBrace)

/-- The loop over the statements of a block. -/
def parseStatements : Nat → Parse (List Statement)
  | 0 => failure
  | fuel + 1 => do
      if (← checkToken .rightBrace) || (← checkToken .eof) then return []
      else
        let statement ← parseStatement fuel
        let rest ← parseStatements fuel
        return statement :: rest

def parseStatement : Nat → Parse Statement
  | 0 => failure
  | fuel + 1 => do
      if ← checkToken .leftBrace then
        let block ← parseBlockStatement fuel
        return .block block
      else if ← matchToken .kwUnsafe then
        let unsafeToken ← previousToken
        let block ← parseBlockStatement fuel
        return .unsafeBlock block ⟨unsafeToken.position, block.span.stop⟩
      else if ← checkToken .kwLet then parseLetStatement fuel
      else if ← checkToken .kwReturn then parseReturnStatement fuel
      else if ← checkToken .kwBreak then parseBreakStatement
      else if ← checkToken .kwContinue then parseContinueStatement
      else if ← checkToken .kwIf then parseIfStatement fuel
      else if ← checkToken .kwWhile then parseWhileStatement fuel
      else parseAssignmentOrCallStatement fuel

def parseIfStatement : Nat → Parse Statement
  | 0 => failure
  | fuel + 1 => do
      let ifToken ← consume .kwIf "Expected 'if'."
      let condition ← parseExpression fuel 1
      let thenBlock ← parseBlockStatement fuel
      if ← matchToken .kwElse then
        let elseBlock ← parseBlockStatement fuel
        return .ifStatement condition thenBlock (some elseBlock)
          ⟨ifToken.position, elseBlock.span.stop⟩
      else
        return .ifStatement condition thenBlock none ⟨ifToken.position, thenBlock.span.stop⟩

def parseWhileStatement : Nat → Parse Statement
  | 0 => failure
  | fuel + 1 => do
      let whileToken ← consume .kwWhile "Expected 'while'."
      let condition ← parseExpression fuel 1
      let body ← parseBlockStatement fuel
      return .whileStatement condition body ⟨whileToken.position, body.span.stop⟩

end

/-! ## Contracts -/

def contractEffectKind : String → Option ContractEffectKind
  | "read" => some .read
  | "write" => some .write
  | "readwrite" => some .readWrite
  | _ => none

def parseContractEffectKind (kindToken : Token) : Parse ContractEffectKind :=
  match contractEffectKind kindToken.text with
  | some kind => return kind
  | none => do
      parseError kindToken "Expected read, write, or readwrite in effects clause."
      return .readWrite

def parseContractEffectItem : Parse ContractEffectItem := do
  let kindToken ← consume .identifier "Expected read, write, or readwrite in effects clause."
  let kind ← parseContractEffectKind kindToken
  let _ ← consume .leftParen "Expected '(' after effect kind."
  let target ← parseIdentifier "Expected slice parameter in effect."
  let rightParen ← consume .rightParen "Expected ')' after effect target."
  return ⟨kind, target, ⟨kindToken.position, rightParen.endPosition⟩⟩

/-- The loop over one or more effects. -/
def parseContractEffectItems : Nat → Parse (List ContractEffectItem)
  | 0 => failure
  | fuel + 1 => do
      let item ← parseContractEffectItem
      if ← matchToken .comma then
        let rest ← parseContractEffectItems fuel
        return item :: rest
      else return [item]

def parseContractEffectClause (fuel : Nat) (effectsToken : Token) :
    Parse ContractEffectClause := do
  if ← matchToken .kwNone then
    let semicolon ← consume .semicolon "Expected ';' after effects clause."
    return ⟨true, [], spanBetweenTokens effectsToken semicolon⟩
  else
    let items ← parseContractEffectItems fuel
    let semicolon ← consume .semicolon "Expected ';' after effects clause."
    return ⟨false, items, spanBetweenTokens effectsToken semicolon⟩

/-- The clauses read so far. -/
structure ContractClauses where
  requirements : List ContractRequirement := []
  effects : Option ContractEffectClause := none
deriving Repr

def reportSecondEffects (clauses : ContractClauses) : Parse Unit := do
  if clauses.effects.isSome then
    let token ← previousToken
    parseError token "A contract can contain only one effects clause."
  else return ()

/-- One round of the loop over the clauses of a contract. -/
def parseContractClause (fuel : Nat) (clauses : ContractClauses) : Parse ContractClauses := do
  if ← matchToken .kwRequires then
    let requiresToken ← previousToken
    let expression ← parseExpression fuel 1
    let semicolon ← consume .semicolon "Expected ';' after contract requirement."
    return { clauses with requirements := clauses.requirements ++
      [⟨expression, spanBetweenTokens requiresToken semicolon⟩] }
  else if ← matchToken .kwEffects then
    let effectsToken ← previousToken
    let clause ← parseContractEffectClause fuel effectsToken
    reportSecondEffects clauses
    return { clauses with effects := some clause }
  else
    let token ← currentToken
    parseError token "Expected 'requires' or 'effects' in contract."
    synchronizeContractClause fuel
    return clauses

def parseContractClauses : Nat → ContractClauses → Parse ContractClauses
  | 0, _ => failure
  | fuel + 1, clauses => do
      if (← checkToken .rightBrace) || (← checkToken .eof) then return clauses
      else
        let clauses ← parseContractClause fuel clauses
        parseContractClauses fuel clauses

def parseContractDeclaration (fuel : Nat) : Parse ContractDeclaration := do
  let contractToken ← previousToken
  let _ ← consume .leftBrace "Expected '\x7b' after 'contract'."
  let clauses ← parseContractClauses fuel {}
  let rightBrace ← consume .rightBrace "Expected '\x7d' after contract."
  return ⟨clauses.requirements, clauses.effects, spanBetweenTokens contractToken rightBrace⟩

/-! ## Declarations -/

def parseFunctionParam (fuel : Nat) : Parse FunctionParam := do
  let start ← currentToken
  let name ← parseIdentifier "Expected parameter name."
  let _ ← consume .colon "Expected ':' after parameter name."
  let typeNode ← parseType fuel
  return ⟨name, typeNode, ⟨start.position, typeNode.span.stop⟩⟩

/-- The loop over one or more parameters. -/
def parseFunctionParams : Nat → Parse (List FunctionParam)
  | 0 => failure
  | fuel + 1 => do
      let param ← parseFunctionParam fuel
      if ← matchToken .comma then
        let rest ← parseFunctionParams fuel
        return param :: rest
      else return [param]

def parseParameterList (fuel : Nat) : Parse (List FunctionParam) := do
  if ← checkToken .rightParen then return [] else parseFunctionParams fuel

def parseStructField (fuel : Nat) : Parse StructField := do
  let start ← currentToken
  let name ← parseIdentifier "Expected field name."
  let _ ← consume .colon "Expected ':' after field name."
  let typeNode ← parseType fuel
  let semicolon ← consume .semicolon "Expected ';' after struct field."
  return ⟨name, typeNode, spanBetweenTokens start semicolon⟩

def parseStructFields : Nat → Parse (List StructField)
  | 0 => failure
  | fuel + 1 => do
      if (← checkToken .rightBrace) || (← checkToken .eof) then return []
      else
        let field ← parseStructField fuel
        let rest ← parseStructFields fuel
        return field :: rest

def parseStructDeclaration (fuel : Nat) : Parse StructDeclaration := do
  let structToken ← consume .kwStruct "Expected 'struct'."
  let name ← parseIdentifier "Expected struct name."
  let _ ← consume .leftBrace "Expected '\x7b' after struct name."
  let fields ← parseStructFields fuel
  let stop ← consume .rightBrace "Expected '\x7d' after struct fields."
  return ⟨name, fields, spanBetweenTokens structToken stop⟩

/-- Whether the function is exported and whether it is unsafe. -/
def parseFunctionModifiers : Parse (Bool × Bool) := do
  let exported ← matchToken .kwExport
  let isUnsafe ← matchToken .kwUnsafe
  if isUnsafe then
    if ← matchToken .kwExport then
      let exportToken ← previousToken
      errorWithCode exportToken .ck2014
        "Function modifiers must appear in '[export] [unsafe] fn' order."
      return (true, isUnsafe)
    else return (exported, isUnsafe)
  else return (exported, isUnsafe)

def parseContract (fuel : Nat) : Parse (Option ContractDeclaration) := do
  if ← matchToken .kwContract then
    let contract ← parseContractDeclaration fuel
    return some contract
  else return none

def parseFunctionDeclaration (fuel : Nat) : Parse FunctionDeclaration := do
  let startToken ← currentToken
  let (exported, isUnsafe) ← parseFunctionModifiers
  let _ ← consume .kwFn "Expected 'fn' after function modifiers."
  let name ← parseIdentifier "Expected function name."
  let _ ← consume .leftParen "Expected '(' after function name."
  let params ← parseParameterList fuel
  let _ ← consume .rightParen "Expected ')' after parameters."
  let _ ← consume .arrow "Expected '->' before return type."
  let returnType ← parseType fuel
  let contract ← parseContract fuel
  let body ← parseBlockStatement fuel
  return ⟨exported, isUnsafe, name, params, returnType, contract, body,
    ⟨startToken.position, body.span.stop⟩⟩

/-- A declaration may be reported and skipped. -/
def parseDeclaration (fuel : Nat) : Parse (Option Declaration) := do
  if ← checkToken .kwStruct then
    let declaration ← parseStructDeclaration fuel
    return some (.structDeclaration declaration)
  else if ← checkToken .kwContract then
    let token ← advanceToken
    errorWithCode token .ck2014 "A contract may appear only after an unsafe function signature."
    skipBracedDeclaration fuel
    return none
  else if (← checkToken .kwUnsafe) && (← nextTokenIs .leftBrace) then
    let token ← advanceToken
    errorWithCode token .ck2014 "An unsafe block may appear only inside a function body."
    skipBracedDeclaration fuel
    return none
  else if (← checkToken .kwExport) || (← checkToken .kwUnsafe) || (← checkToken .kwFn) then
    let declaration ← parseFunctionDeclaration fuel
    return some (.functionDeclaration declaration)
  else
    let token ← currentToken
    parseError token "Expected declaration."
    let _ ← advanceToken
    return none

def parseDeclarations : Nat → Parse (List Declaration)
  | 0 => failure
  | fuel + 1 => do
      if ← checkToken .eof then return []
      else
        let declaration ← parseDeclaration fuel
        let rest ← parseDeclarations fuel
        return declaration.toList ++ rest

def parseProgram (fuel : Nat) : Parse Program := do
  let start ← currentToken
  let declarations ← parseDeclarations fuel
  let stop ← currentToken
  return ⟨declarations, ⟨start.position, stop.position⟩⟩

/-- The parser at the first of the tokens; there is always one. -/
def Parser.ofTokens (fileName : String) (tokens : List Token) (diagnostics : List Diagnostic) :
    Option Parser :=
  match tokens with
  | [] => none
  | token :: rest => some ⟨fileName, [], token, rest, diagnostics⟩

def parseTokens (fuel : Nat) (fileName : String) (tokens : List Token)
    (diagnostics : List Diagnostic) : Option ParseResult := do
  let parser ← Parser.ofTokens fileName tokens diagnostics
  let (ast, parser) ← parseProgram fuel parser
  return ⟨ast, parser.diagnostics⟩

def parse (fuel : Nat) (source : SourceFile) : Option ParseResult := do
  let lexed ← lex fuel source
  parseTokens fuel source.fileName lexed.tokens lexed.diagnostics

end CalcKernel
