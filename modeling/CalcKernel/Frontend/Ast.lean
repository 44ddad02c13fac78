import CalcKernel.Frontend.Token

/-!
# The syntax tree

Every node carries its span.  Parentheses are nodes of their own, and a node that
could not be parsed is an error node.
-/

namespace CalcKernel

structure IdentifierNode where
  name : String
  span : SourceSpan
deriving DecidableEq, Repr

inductive TypeNode where
  | primitive (name : String) (span : SourceSpan)
  | void (span : SourceSpan)
  | pointer (elementType : TypeNode) (span : SourceSpan)
  | slice (elementType : TypeNode) (span : SourceSpan)
  | named (name : IdentifierNode) (span : SourceSpan)
  | error (span : SourceSpan)
deriving DecidableEq, Repr

def TypeNode.span : TypeNode → SourceSpan
  | .primitive _ span | .void span | .pointer _ span | .slice _ span | .named _ span
  | .error span => span

inductive Expression where
  | identifier (name : String) (span : SourceSpan)
  | integerLiteral (text : String) (span : SourceSpan)
  | floatLiteral (text : String) (span : SourceSpan)
  | boolLiteral (value : Bool) (span : SourceSpan)
  | unary (operator : String) (operand : Expression) (span : SourceSpan)
  | binary (operator : String) (left right : Expression) (span : SourceSpan)
  | call (callee : Expression) (args : List Expression) (span : SourceSpan)
  | sliceConstructor (data len : Expression) (span : SourceSpan)
  | field (object : Expression) (name : IdentifierNode) (span : SourceSpan)
  | index (object position : Expression) (span : SourceSpan)
  | subslice (slice start stop : Expression) (span : SourceSpan)
  | parenthesized (expression : Expression) (span : SourceSpan)
  | error (span : SourceSpan)
deriving Repr

def Expression.span : Expression → SourceSpan
  | .identifier _ span | .integerLiteral _ span | .floatLiteral _ span | .boolLiteral _ span
  | .unary _ _ span | .binary _ _ _ span | .call _ _ span | .sliceConstructor _ _ span
  | .field _ _ span | .index _ _ span | .subslice _ _ _ span | .parenthesized _ span
  | .error span => span

mutual

inductive BlockStatement where
  | mk (statements : List Statement) (span : SourceSpan)

inductive Statement where
  | block (block : BlockStatement)
  | unsafeBlock (block : BlockStatement) (span : SourceSpan)
  | letStatement (name : IdentifierNode) (typeNode : TypeNode) (initializer : Expression)
      (span : SourceSpan)
  | assignment (target value : Expression) (span : SourceSpan)
  | call (call : Expression) (span : SourceSpan)
  | returnStatement (value : Option Expression) (span : SourceSpan)
  | breakStatement (span : SourceSpan)
  | continueStatement (span : SourceSpan)
  | ifStatement (condition : Expression) (thenBlock : BlockStatement)
      (elseBlock : Option BlockStatement) (span : SourceSpan)
  | whileStatement (condition : Expression) (body : BlockStatement) (span : SourceSpan)
  | error (span : SourceSpan)

end

def BlockStatement.span : BlockStatement → SourceSpan
  | .mk _ span => span

inductive ContractEffectKind where
  | none | read | write | readWrite
deriving DecidableEq, Repr

structure ContractEffectItem where
  kind : ContractEffectKind
  target : IdentifierNode
  span : SourceSpan
deriving DecidableEq, Repr

structure ContractEffectClause where
  isNone : Bool
  items : List ContractEffectItem
  span : SourceSpan
deriving DecidableEq, Repr

structure ContractRequirement where
  expression : Expression
  span : SourceSpan
deriving Repr

structure ContractDeclaration where
  requirements : List ContractRequirement
  effects : Option ContractEffectClause
  span : SourceSpan
deriving Repr

structure FunctionParam where
  name : IdentifierNode
  typeNode : TypeNode
  span : SourceSpan
deriving DecidableEq, Repr

structure StructField where
  name : IdentifierNode
  typeNode : TypeNode
  span : SourceSpan
deriving DecidableEq, Repr

structure StructDeclaration where
  name : IdentifierNode
  fields : List StructField
  span : SourceSpan
deriving DecidableEq, Repr

structure FunctionDeclaration where
  exported : Bool
  isUnsafe : Bool
  name : IdentifierNode
  params : List FunctionParam
  returnType : TypeNode
  contract : Option ContractDeclaration
  body : BlockStatement
  span : SourceSpan

inductive Declaration where
  | structDeclaration (declaration : StructDeclaration)
  | functionDeclaration (declaration : FunctionDeclaration)

structure Program where
  declarations : List Declaration
  span : SourceSpan

structure ParseResult where
  ast : Program
  diagnostics : List Diagnostic

end CalcKernel
