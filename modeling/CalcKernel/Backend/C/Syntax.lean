import CalcKernel.Kir.Value

/-!
# The C fragment of the backend

Declarations, expressions and statements in the shapes the backend emits, and how
they are spelled.  A C type is written as the source type it stands for.
-/

namespace CalcKernel

abbrev CType := MirType

/-- The status codes a function reports. -/
inductive CStatus where
  | ok | overflow | divByZero | nullPointer | outOfBounds
deriving DecidableEq, Repr

def CStatus.macroName : CStatus → String
  | .ok => "CK_OK"
  | .overflow => "CK_ERR_OVERFLOW"
  | .divByZero => "CK_ERR_DIV_BY_ZERO"
  | .nullPointer => "CK_ERR_NULL_POINTER"
  | .outOfBounds => "CK_ERR_OUT_OF_BOUNDS"

def CStatus.code : CStatus → Int
  | .ok => 0
  | .overflow => 1
  | .divByZero => 2
  | .nullPointer => 3
  | .outOfBounds => 4

inductive CExpr where
  | var (name : String)
  | integer (digits : String)
  | floating (text : String)
  | bool (value : Bool)
  | intMin (type : IntegerType)
  | status (code : CStatus)
  | neg (operand : CExpr)
  | not (operand : CExpr)
  | binary (op : MirBinaryOp) (left right : CExpr)
  | compare (op : MirCompareOp) (left right : CExpr)
  | and (left right : CExpr)
  | or (left right : CExpr)
  | conditional (condition whenTrue whenFalse : CExpr)
  | cast (type : CType) (operand : CExpr)
  | address (place : CExpr)
  | deref (pointer : CExpr)
  | index (pointer index : CExpr)
  | member (base : CExpr) (field : String)
deriving DecidableEq, Repr

/-- `{ T temporary = value; ... parameter = temporary; ... goto label; }` -/
structure CEdge where
  temporaries : List (CType × String × CExpr)
  copies : List (String × String)
  label : BlockId
deriving DecidableEq, Repr

inductive CStatement where
  | assign (target value : CExpr)
  /-- `flag = __builtin_op_overflow(left, right, &target);` -/
  | overflow (flag : String) (op : MirBinaryOp) (left right : CExpr) (target : String)
  /-- `if (condition) return value;` -/
  | returnIf (condition value : CExpr)
  /-- `if (pointer == NULL) return value;` for the pointer through which the result is returned -/
  | returnIfNull (pointer : String) (value : CExpr)
  /-- `result = function(args, &out);` -/
  | call (result : Option String) (function : String) (args : List CExpr) (out : Option String)
  /-- `*pointer = value;` through the pointer through which the result is returned -/
  | setResult (pointer : String) (value : CExpr)
  | return (value : Option CExpr)
  | jump (edge : CEdge)
  | branch (condition : CExpr) (whenTrue whenFalse : CEdge)
deriving DecidableEq, Repr

structure CFunction where
  name : String
  exported : Bool
  returnType : CType
  params : List (CType × String)
  /-- `ck_return` and the type it points to, when the result is returned through it. -/
  returnPointer : Option (CType × String)
  /-- The variables initialized with `{0}`. -/
  locals : List (CType × String)
  /-- The variables of type `CK_Status`, without initializer. -/
  statuses : List String
  prologue : List CStatement
  entry : BlockId
  blocks : List (BlockId × List CStatement)
deriving DecidableEq, Repr

structure CProgram where
  status : Bool
  structs : List MirStruct
  /-- The generated names of the slice types. -/
  slices : List (CType × String)
  functions : List CFunction
deriving DecidableEq, Repr

namespace CProgram

/-- `type_name`. -/
def typeName (slices : List (CType × String)) : CType → String
  | .primitive .i32 => "int32_t"
  | .primitive .i64 => "int64_t"
  | .primitive .u32 => "uint32_t"
  | .primitive .u64 => "uint64_t"
  | .primitive .f64 => "double"
  | .primitive .bool => "bool"
  | .pointer element => typeName slices element ++ "*"
  | .slice element => (slices.lookup (.slice element)).getD ""
  | .struct name => name
  | .void => "void"

/-- The file-scope names that stand in a type. -/
def typeMentions (slices : List (CType × String)) : CType → List String
  | .primitive _ | .void => []
  | .pointer element => typeMentions slices element
  | .slice element => (slices.lookup (.slice element)).toList
  | .struct name => [name]

end CProgram

/-! ## Spelling -/

def binaryOp : MirBinaryOp → String
  | .add => "+"
  | .sub => "-"
  | .mul => "*"
  | .div => "/"
  | .mod => "%"

def compareOp : MirCompareOp → String
  | .eq => "=="
  | .ne => "!="
  | .lt => "<"
  | .le => "<="
  | .gt => ">"
  | .ge => ">="

namespace CExpr

variable (typeName : CType → String)

/-- The parentheses are those of the emitted text. -/
def text : CExpr → String
  | .var name => name
  | .integer digits => digits
  | .floating text => text
  | .bool value => if value then "true" else "false"
  | .intMin type => if type.bits = 32 then "INT32_MIN" else "INT64_MIN"
  | .status code => code.macroName
  | .neg operand => "-" ++ operand.text
  | .not operand => "!" ++ operand.text
  | .binary op left right => left.text ++ " " ++ binaryOp op ++ " " ++ right.text
  | .compare op left right => left.text ++ " " ++ compareOp op ++ " " ++ right.text
  | .and left right => left.text ++ " && " ++ right.text
  | .or left right => left.text ++ " || " ++ right.text
  | .conditional c a b => "(" ++ c.text ++ " ? " ++ a.text ++ " : " ++ b.text ++ ")"
  | .cast type (.binary op left right) =>
      "(" ++ typeName type ++ ")(" ++ left.text ++ " " ++ binaryOp op ++ " " ++ right.text ++ ")"
  | .cast type operand => "(" ++ typeName type ++ ")" ++ operand.text
  | .address place => "&" ++ place.text
  | .deref pointer => "*" ++ pointer.text
  | .index (.deref pointer) i => "(*" ++ pointer.text ++ ")[" ++ i.text ++ "]"
  | .index pointer i => pointer.text ++ "[" ++ i.text ++ "]"
  | .member (.deref pointer) field => "(*" ++ pointer.text ++ ")." ++ field
  | .member base field => base.text ++ "." ++ field

end CExpr

def CEdge.lines (typeName : CType → String) (e : CEdge) : List String :=
  ["\x7b"] ++
    e.temporaries.map (fun d ↦
      "  " ++ typeName d.1 ++ " " ++ d.2.1 ++ " = " ++ d.2.2.text typeName ++ ";") ++
    e.copies.map (fun c ↦ "  " ++ c.1 ++ " = " ++ c.2 ++ ";") ++
    ["  goto b" ++ toString e.label ++ ";", "\x7d"]

def overflowBuiltin : MirBinaryOp → String
  | .sub => "__builtin_sub_overflow"
  | .mul => "__builtin_mul_overflow"
  | .add | .div | .mod => "__builtin_add_overflow"

def CStatement.lines (typeName : CType → String) : CStatement → List String
  | .assign target value => [target.text typeName ++ " = " ++ value.text typeName ++ ";"]
  | .overflow flag op left right target =>
      [flag ++ " = " ++ overflowBuiltin op ++ "(" ++ left.text typeName ++ ", " ++
        right.text typeName ++ ", &" ++ target ++ ");"]
  | .returnIf condition value =>
      ["if (" ++ condition.text typeName ++ ") return " ++ value.text typeName ++ ";"]
  | .returnIfNull pointer value =>
      ["if (" ++ pointer ++ " == NULL) return " ++ value.text typeName ++ ";"]
  | .call result function args out =>
      [(result.map (· ++ " = ")).getD "" ++ function ++ "(" ++
        ", ".intercalate (args.map (·.text typeName) ++ out.toList.map ("&" ++ ·)) ++ ");"]
  | .setResult pointer value => ["*" ++ pointer ++ " = " ++ value.text typeName ++ ";"]
  | .return none => ["return;"]
  | .return (some value) => ["return " ++ value.text typeName ++ ";"]
  | .jump edge => edge.lines typeName
  | .branch condition whenTrue whenFalse =>
      ["if (" ++ condition.text typeName ++ ") \x7b"] ++
        (whenTrue.lines typeName).map ("  " ++ ·) ++ ["\x7d else \x7b"] ++
        (whenFalse.lines typeName).map ("  " ++ ·) ++ ["\x7d"]

/-! ## Names -/

/-- Keywords, and the names the included headers and the emitted declarations define. -/
def cReserved : List String :=
  ["auto", "break", "case", "char", "const", "continue", "default", "do", "double", "else", "enum",
    "extern", "float", "for", "goto", "if", "inline", "int", "long", "register", "restrict",
    "return", "short", "signed", "sizeof", "static", "struct", "switch", "typedef", "union",
    "unsigned", "void", "volatile", "while", "_Alignas", "_Alignof", "_Atomic", "_Bool", "_Complex",
    "_Generic", "_Imaginary", "_Noreturn", "_Static_assert", "_Thread_local",
    "bool", "true", "false", "NULL", "size_t", "ptrdiff_t", "wchar_t", "max_align_t", "offsetof",
    "int8_t", "int16_t", "int32_t", "int64_t", "uint8_t", "uint16_t", "uint32_t", "uint64_t",
    "intptr_t", "uintptr_t", "intmax_t", "uintmax_t",
    "INT8_MIN", "INT16_MIN", "INT32_MIN", "INT64_MIN", "INT8_MAX", "INT16_MAX", "INT32_MAX",
    "INT64_MAX", "UINT8_MAX", "UINT16_MAX", "UINT32_MAX", "UINT64_MAX",
    "CK_Status", "CK_OK", "CK_ERR_OVERFLOW", "CK_ERR_DIV_BY_ZERO", "CK_ERR_NULL_POINTER",
    "CK_ERR_OUT_OF_BOUNDS", "CKC_UNUSED", "CKC_ASSUME_ALIGNED", "CKC_RESTRICT"]

def CStatement.edges : CStatement → List CEdge
  | .jump edge => [edge]
  | .branch _ whenTrue whenFalse => [whenTrue, whenFalse]
  | _ => []

def CStatement.callee? : CStatement → Option String
  | .call _ function _ _ => some function
  | _ => none

namespace CFunction

variable (f : CFunction)

def statements : List CStatement := f.prologue ++ f.blocks.flatMap (·.2)

def temporaries : List (CType × String × CExpr) :=
  f.statements.flatMap fun s ↦ s.edges.flatMap (·.temporaries)

/-- The names declared in the scope of the function's body. -/
def declared : List String :=
  f.params.map Prod.snd ++ f.returnPointer.toList.map Prod.snd ++ f.locals.map Prod.snd ++ f.statuses

/-- The file-scope names used in the function. -/
def mentions (slices : List (CType × String)) : List String :=
  (f.returnType :: f.params.map Prod.fst ++ f.returnPointer.toList.map Prod.fst ++
      f.locals.map Prod.fst ++ f.temporaries.map Prod.fst).flatMap (CProgram.typeMentions slices) ++
    f.statements.filterMap (·.callee?)

end CFunction

/-- What makes the text a program: names may be used as identifiers, are declared once in their
scope, and file-scope names are not hidden where they are used. -/
structure CProgram.Legal (p : CProgram) : Prop where
  fileNames : (p.structs.map (·.name) ++ p.slices.map Prod.snd ++ p.functions.map (·.name)).Nodup
  notReserved : ∀ n ∈ p.structs.map (·.name) ++ p.structs.flatMap (fun s ↦ s.fields.map (·.name)) ++
    p.slices.map Prod.snd ++ p.functions.map (·.name) ++ p.functions.flatMap (·.declared),
    n ∉ cReserved
  declaredOnce : ∀ f ∈ p.functions, f.declared.Nodup
  notHidden : ∀ f ∈ p.functions, ∀ n ∈ f.mentions p.slices,
    n ∉ f.declared ∧ n ∉ f.temporaries.map (·.2.1)

instance (p : CProgram) : Decidable p.Legal :=
  decidable_of_iff
    ((p.structs.map (·.name) ++ p.slices.map Prod.snd ++ p.functions.map (·.name)).Nodup ∧
      (∀ n ∈ p.structs.map (·.name) ++ p.structs.flatMap (fun s ↦ s.fields.map (·.name)) ++
        p.slices.map Prod.snd ++ p.functions.map (·.name) ++ p.functions.flatMap (·.declared),
        n ∉ cReserved) ∧
      (∀ f ∈ p.functions, f.declared.Nodup) ∧
      ∀ f ∈ p.functions, ∀ n ∈ f.mentions p.slices,
        n ∉ f.declared ∧ n ∉ f.temporaries.map (·.2.1))
    ⟨fun ⟨h₁, h₂, h₃, h₄⟩ ↦ ⟨h₁, h₂, h₃, h₄⟩, fun ⟨h₁, h₂, h₃, h₄⟩ ↦ ⟨h₁, h₂, h₃, h₄⟩⟩

end CalcKernel
