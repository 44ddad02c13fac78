import CalcKernel.Backend.Wasm.FinalIr
import CalcKernel.Lib.LineFeed

/-!
# Reading the final WebAssembly text

`FinalWasmBuilder` takes the text of a module in chunks and parses it line by line into typed
functions and instructions.
-/

namespace CalcKernel

open Lib

/-! ## Numbers -/

def parseU64 (text : List Char) : Option Nat :=
  match stripPrefix "0x".toList text with
  | some hex => parseUnsigned 16 (2 ^ 64) hex
  | none => parseUnsigned 10 (2 ^ 64) text

def parseU32 (text : List Char) : Option Nat := (parseU64 text).filter (· < 2 ^ 32)

/-- The bits of an integer of the given width; `u64` arithmetic. -/
def parseIntegerBits (text : List Char) (width : Nat) : Option Nat := do
  let (negative, digits) := match stripPrefix ['-'] text with
    | some value => (true, value)
    | none => (false, text)
  let magnitude ← match stripPrefix "0x".toList digits with
    | some hex => parseUnsigned 16 (2 ^ 64) hex
    | none => parseUnsigned 10 (2 ^ 64) digits
  if width = 64 then
    if negative then
      if 2 ^ 63 < magnitude then none else some ((2 ^ 64 - magnitude) % 2 ^ 64)
    else some magnitude
  else
    let modulus := 2 ^ width
    if negative then
      if 2 ^ (width - 1) < magnitude then none else some ((modulus - magnitude) % modulus)
    else if magnitude < modulus then some magnitude
    else none

def parseI32 (text : List Char) : Option (BitVec 32) :=
  (parseIntegerBits text 32).map (BitVec.ofNat 32)

def parseI64 (text : List Char) : Option (BitVec 64) :=
  (parseIntegerBits text 64).map (BitVec.ofNat 64)

def parseNanPayload (text : List Char) : Option (Bool × Nat) := do
  let (negative, spelling) := match stripPrefix ['-'] text with
    | some value => (true, value)
    | none => (false, text)
  let payload ← parseUnsigned 16 (2 ^ 64) (← stripPrefix "nan:0x".toList spelling)
  return (negative, payload)

/-- The bits of a float with a sign, an exponent field and a fraction. -/
def floatBits (width fraction : Nat) (negative : Bool) (exponent payload : Nat) : BitVec width :=
  BitVec.ofNat width
    ((if negative then 2 ^ (width - 1) else 0) + exponent * 2 ^ fraction + payload)

/-- The spellings that are no decimal number. -/
def specialFloat (width fraction exponent : Nat) (text : List Char) : Option (BitVec width) :=
  let canonical := 2 ^ (fraction - 1)
  if text ∈ ["inf".toList, "+inf".toList] then some (floatBits width fraction false exponent 0)
  else if text = "-inf".toList then some (floatBits width fraction true exponent 0)
  else if text ∈ ["nan".toList, "+nan".toList, "nan:canonical".toList, "nan:arithmetic".toList] then
    some (floatBits width fraction false exponent canonical)
  else if text ∈ ["-nan".toList, "-nan:canonical".toList, "-nan:arithmetic".toList] then
    some (floatBits width fraction true exponent canonical)
  else none

def parseF32Bits (floats : FloatText) (text : List Char) : Option (BitVec 32) :=
  match parseNanPayload text with
  | some (negative, payload) =>
      if payload = 0 ∨ 2 ^ 23 ≤ payload then none
      else some (floatBits 32 23 negative 0xff payload)
  | none => (specialFloat 32 23 0xff text).or (floats.parseF32 text)

def parseF64Bits (floats : FloatText) (text : List Char) : Option (BitVec 64) :=
  match parseNanPayload text with
  | some (negative, payload) =>
      if payload = 0 ∨ 2 ^ 52 ≤ payload then none
      else some (floatBits 64 52 negative 0x7ff payload)
  | none => (specialFloat 64 52 0x7ff text).or (floats.parseF64 text)

def littleEndian (width n : Nat) : List UInt8 := (bigEndian width n).reverse

/-- The bytes of a lane; the type says how many and how they are written. -/
def parseLane (floats : FloatText) (laneType : String) (width : Nat) (value : List Char) :
    Option (List UInt8) :=
  if laneType = "f32x4" then (parseF32Bits floats value).map fun bits ↦ littleEndian 4 bits.toNat
  else if laneType = "f64x2" then
    (parseF64Bits floats value).map fun bits ↦ littleEndian 8 bits.toNat
  else (parseIntegerBits value (width * 8)).map (littleEndian width)

def laneWidth (laneType : String) : Option Nat :=
  if laneType = "i8x16" then some 1
  else if laneType = "i16x8" then some 2
  else if laneType = "i32x4" ∨ laneType = "f32x4" then some 4
  else if laneType = "i64x2" ∨ laneType = "f64x2" then some 8
  else none

def parseV128Const (floats : FloatText) : List (List Char) → Option (List UInt8)
  | [] => none
  | laneType :: values => do
      let laneType := String.ofList laneType
      let width ← laneWidth laneType
      if values.length ≠ 16 / width then none
      else List.flatten <$> values.mapM (parseLane floats laneType width)

/-! ## Declarations -/

def validIdentifier (text : List Char) : Bool :=
  !text.isEmpty && text.all fun c ↦ c.isAlphanum || c == '_' || c == '.' || c == '-'

def parseValueType (text : List Char) : Option WasmValueType := WasmValueType.parse (String.ofList text)

def namedType (word : List Char) : Except String WasmValueType :=
  match parseValueType word with
  | some ty => .ok ty
  | none => .error s!"unsupported generated WebAssembly value type: {String.ofList word}"

def parseTypes (text : List Char) : Except String (List WasmValueType) :=
  (splitWhitespace text).mapM namedType

def parseLocal (inner : List Char) (kind : String) : Except String FinalLocal :=
  let text := String.ofList inner
  match splitWhitespace inner with
  | [] => .error s!"invalid generated {kind} declaration: ({kind} {text})"
  | first :: pieces =>
      match (stripPrefix ['$'] first).filter validIdentifier with
      | none => .error s!"invalid generated {kind} declaration: ({kind} {text})"
      | some name =>
          match pieces with
          | [] => .error s!"invalid generated {kind} type: ({kind} {text})"
          | ty :: extra =>
              match parseValueType ty with
              | none => .error s!"invalid generated {kind} type: ({kind} {text})"
              | some ty =>
                  if extra = [] then .ok ⟨name, ty⟩
                  else .error s!"extra tokens in generated {kind} declaration: ({kind} {text})"

def parseMemory (line : List Char) : Except String UInt32 :=
  match (stripPrefix "(memory (export \"memory\") ".toList line).bind (stripSuffix [')']) with
  | none => .error s!"unsupported generated memory declaration: {String.ofList line}"
  | some value =>
      match parseUnsigned 10 (2 ^ 32) value with
      | some n => .ok (UInt32.ofNat n)
      | none => .error s!"invalid generated memory minimum: {String.ofList value}"

/-- The name of a function and the name it is exported under. -/
def parseHeaderNames (line inner : List Char) : Except String (List Char × Option (List Char)) :=
  match splitOnce " (export \"".toList inner with
  | none => .ok (inner, none)
  | some (name, rest) =>
      match stripSuffix "\")".toList rest with
      | some exportName => .ok (name, some exportName)
      | none => .error s!"invalid export in function header: {String.ofList line}"

def parseFunctionHeader (line : List Char) : Except String FinalWasmFunction :=
  match stripPrefix "(func $".toList line with
  | none => .error s!"invalid generated function header: {String.ofList line}"
  | some inner => do
      let (name, exportName) ← parseHeaderNames line inner
      if !validIdentifier name || exportName.any (·.contains '"') then
        .error s!"invalid generated function identifier: {String.ofList line}"
      else return ⟨name, exportName, [], [], [], []⟩

/-- Two digits behind each backslash; every other byte stands for itself. -/
def unescape (line : List Char) : List UInt8 → Except String (List UInt8)
  | [] => .ok []
  | byte :: bytes =>
      if byte ≠ 0x5c then (byte :: ·) <$> unescape line bytes
      else
        match bytes with
        | high :: low :: rest =>
            -- No byte beyond ASCII is a digit, whether or not the two are UTF-8.
            match parseUnsigned 16 256 [Char.ofNat high.toNat, Char.ofNat low.toNat] with
            | some n => (UInt8.ofNat n :: ·) <$> unescape line rest
            | none => .error s!"invalid custom section escape: {String.ofList line}"
        | _ => .error s!"invalid custom section escape: {String.ofList line}"

def parseTargetCustom (line : List Char) : Except String (List UInt8) :=
  match (stripPrefix "(@custom \"ck.wasm.target\" \"".toList line).bind
      (stripSuffix "\")".toList) with
  | none => .error s!"unsupported generated custom section: {String.ofList line}"
  | some inner => unescape line (utf8 inner)

/-! ## Instructions -/

def unsupportedInstruction {α : Type} (line : List Char) : Except String α :=
  .error s!"unsupported generated WebAssembly instruction: {String.ofList line}"

def orUnsupported {α : Type} (line : List Char) : Option α → Except String α
  | some a => .ok a
  | none => unsupportedInstruction line

def parseLabel (line text : List Char) : Except String (List Char) :=
  orUnsupported line ((stripPrefix ['$'] text).filter validIdentifier)

def parsePiece (line : List Char) :
    Option (List Char) × List WasmValueType → List Char →
      Except String (Option (List Char) × List WasmValueType)
  | (label, results), piece =>
      match stripPrefix ['$'] piece with
      | some name =>
          if label.isSome || !validIdentifier name then
            .error s!"invalid generated control label: {String.ofList line}"
          else .ok (some name, results)
      | none =>
          if piece = "(result".toList then .ok (label, results)
          else
            match parseValueType (piece.reverse.dropWhile (· == ')')).reverse with
            | some ty => .ok (label, results ++ [ty])
            | none =>
                .error s!"unsupported generated block result type in {String.ofList line}"

def parseControlHeader (line : List Char) :
    Except String (Option (List Char) × List WasmValueType) := do
  let header ← (splitWhitespace line).tail.foldlM (parsePiece line) (none, [])
  if (splitOnce "(result".toList line).isSome && (stripSuffix [')'] line).isNone then
    .error s!"invalid generated control result: {String.ofList line}"
  else return header

def parseImmediate (line : List Char) :
    Option Nat × Option Nat → List Char → Except String (Option Nat × Option Nat)
  | (offset, align), immediate =>
      match stripPrefix "offset=".toList immediate with
      | some value => do
          let offset ← orUnsupported line (parseU64 value)
          return (some offset, align)
      | none =>
          match stripPrefix "align=".toList immediate with
          | some value => do
              let bytes ← orUnsupported line (parseU32 value)
              -- The trailing zeros of a power of two are its logarithm.
              if bytes = 2 ^ bytes.log2 then return (offset, some bytes.log2)
              else unsupportedInstruction line
          | none => unsupportedInstruction line

def parseMemoryInstruction (line : List Char) (opcode : MemoryOpcode) (isStore : Bool)
    (rest : List (List Char)) : Except String FinalInstructionKind := do
  let (offset, align) ← rest.foldlM (parseImmediate line) (none, none)
  let offset ← orUnsupported line offset
  let align ← orUnsupported line align
  if isStore then return .store opcode (UInt64.ofNat offset) align
  else return .load opcode (UInt64.ofNat offset) align

def parseShuffleLane (value : List Char) : Option UInt8 :=
  ((parseUnsigned 10 256 value).filter (· < 32)).map UInt8.ofNat

def parseShuffle (line : List Char) (rest : List (List Char)) :
    Except String FinalInstructionKind := do
  let lanes ← orUnsupported line (rest.mapM parseShuffleLane)
  if h : lanes.length = 16 then return .shuffle ⟨lanes.toArray, h⟩
  else unsupportedInstruction line

/-- The opcodes from the tables, behind the other instructions. -/
def parseOpcode (line : List Char) (opcode : String) (rest : List (List Char)) :
    Except String FinalInstructionKind :=
  match LaneOpcode.parse opcode, rest with
  | some lane, [value] => do
      let n ← orUnsupported line (parseUnsigned 10 256 value)
      return .lane lane (UInt8.ofNat n)
  | _, _ =>
      match MemoryOpcode.parse opcode with
      | some (memory, isStore) => parseMemoryInstruction line memory isStore rest
      | none =>
          match SimpleOpcode.parse opcode with
          | some simple => if rest = [] then .ok (.simple simple) else unsupportedInstruction line
          | none => unsupportedInstruction line

def parseKind (floats : FloatText) (line : List Char) (opcode : String)
    (rest : List (List Char)) : Except String FinalInstructionKind :=
  match opcode, rest with
  | "block", _ => (fun header ↦ .block header.1 header.2) <$> parseControlHeader line
  | "loop", _ => (fun header ↦ .loop header.1 header.2) <$> parseControlHeader line
  | "if", _ => (fun header ↦ .if_ header.1 header.2) <$> parseControlHeader line
  | "else", [] => .ok .else_
  | "end", [] => .ok .end_
  | "br", [label] => .br <$> parseLabel line label
  | "br_if", [label] => .brIf <$> parseLabel line label
  | "br_table", first :: more => do
      let labels ← (first :: more).mapM (parseLabel line)
      let default ← orUnsupported line labels.getLast?
      return .brTable labels.dropLast default
  | "local.get", [name] => .localGet <$> parseLabel line name
  | "local.set", [name] => .localSet <$> parseLabel line name
  | "local.tee", [name] => .localTee <$> parseLabel line name
  | "call", [name] => .call <$> parseLabel line name
  | "i32.const", [value] => .i32Const <$> orUnsupported line (parseI32 value)
  | "i64.const", [value] => .i64Const <$> orUnsupported line (parseI64 value)
  | "f64.const", [value] => .f64Const <$> orUnsupported line (parseF64Bits floats value)
  | "v128.const", _ => .v128Const <$> orUnsupported line (parseV128Const floats rest)
  | "memory.copy", [] => .ok .memoryCopy
  | "memory.fill", [] => .ok .memoryFill
  | "memory.size", [] => .ok .memorySize
  | "memory.grow", [] => .ok .memoryGrow
  | "i8x16.shuffle", _ =>
      if rest.length = 16 then parseShuffle line rest else parseOpcode line opcode rest
  | _, _ => parseOpcode line opcode rest

def parseInstruction (floats : FloatText) (raw : List Char) : Except String FinalInstruction :=
  let line := trim raw
  match splitWhitespace line with
  | [] => .error "empty generated instruction"
  | opcode :: rest => do
      let kind ← parseKind floats line (String.ofList opcode) rest
      return ⟨(raw.takeWhile (· == ' ')).length, kind⟩

/-! ## The builder -/

/-- What the lines read so far have built. -/
structure FinalWasmText where
  module : FinalWasmModule
  currentFunction : Option FinalWasmFunction
  moduleOpen : Bool
  moduleClosed : Bool

/-- The builder holds a partial line besides. -/
abbrev FinalWasmBuilder := LineFeed FinalWasmText String

namespace FinalWasmText

def start : FinalWasmText := ⟨⟨[], 0, none⟩, none, false, false⟩

/-- `(kind ...)`, without what is around it. -/
def declared (kind : String) (trimmed : List Char) : Option (List Char) :=
  (stripPrefix ('(' :: kind.toList ++ [' ']) trimmed).bind (stripSuffix [')'])

/-- A line inside a function. -/
def parseFunctionLine (floats : FloatText) (s : FinalWasmText) (f : FinalWasmFunction)
    (raw : List Char) : Except String FinalWasmText :=
  let trimmed := trim raw
  if trimmed = [')'] then
    .ok { s with
      module := { s.module with functions := s.module.functions ++ [f] }
      currentFunction := none }
  else
    match declared "param" trimmed with
    | some inner => do
        let param ← parseLocal inner "param"
        return { s with currentFunction := some { f with params := f.params ++ [param] } }
    | none =>
    match declared "local" trimmed with
    | some inner => do
        let l ← parseLocal inner "local"
        return { s with currentFunction := some { f with locals := f.locals ++ [l] } }
    | none =>
    match declared "result" trimmed with
    | some inner =>
        if f.results ≠ [] then
          .error "generated function contains multiple result declarations"
        else do
          let results ← parseTypes inner
          if results = [] then .error "generated result declaration is empty"
          else return { s with currentFunction := some { f with results } }
    | none => do
        let instruction ← parseInstruction floats raw
        return { s with currentFunction := some { f with body := f.body ++ [instruction] } }

/-- A line between the functions. -/
def parseModuleLine (s : FinalWasmText) (trimmed : List Char) : Except String FinalWasmText :=
  if trimmed = [')'] then .ok { s with moduleClosed := true }
  else if (stripPrefix "(func $".toList trimmed).isSome then do
    let f ← parseFunctionHeader trimmed
    return { s with currentFunction := some f }
  else if (stripPrefix "(memory ".toList trimmed).isSome then do
    let memoryMinimum ← parseMemory trimmed
    return { s with module := { s.module with memoryMinimum } }
  else if (stripPrefix "(@custom ".toList trimmed).isSome then do
    let metadata ← parseTargetCustom trimmed
    let module ← s.module.setTargetMetadata metadata
    return { s with module }
  else if (stripPrefix "(global ".toList trimmed).isSome then
    if trimmed = "(global (export \"__ck_heap_base\") i32 (i32.const 0))".toList then .ok s
    else .error s!"unsupported generated global declaration: {String.ofList trimmed}"
  else .error s!"unsupported generated module declaration: {String.ofList trimmed}"

def parseLine (floats : FloatText) (s : FinalWasmText) (raw : List Char) :
    Except String FinalWasmText :=
  let trimmed := trim raw
  if trimmed = [] then .ok s
  else if s.moduleClosed then
    .error s!"generated text appeared after the module terminator: {String.ofList trimmed}"
  else if !s.moduleOpen then
    if trimmed ≠ "(module".toList then
      .error s!"unexpected generated WebAssembly text before module: {String.ofList trimmed}"
    else .ok { s with moduleOpen := true, module := { s.module with memoryMinimum := 1 } }
  else
    match s.currentFunction with
    | some f => s.parseFunctionLine floats f raw
    | none => s.parseModuleLine trimmed

end FinalWasmText

/-! ## The checks at the end -/

def validateLocals (f : FinalWasmFunction) (seen : List (List Char)) :
    List FinalLocal → Except String Unit
  | [] => .ok ()
  | l :: rest =>
      if l.name ∈ seen then
        let name := String.ofList l.name
        .error s!"duplicate generated local name in ${String.ofList f.name}: ${name}"
      else validateLocals f (l.name :: seen) rest

def validateFunctions (seen : List (List Char)) : List FinalWasmFunction → Except String Unit
  | [] => .ok ()
  | f :: rest =>
      if f.name ∈ seen then
        .error s!"duplicate generated function name: ${String.ofList f.name}"
      else do
        validateLocals f [] (f.params ++ f.locals)
        validateFunctions (f.name :: seen) rest

def validateModule (m : FinalWasmModule) : Except String Unit :=
  if m.memoryMinimum = 0 then
    .error "generated WebAssembly memory must have at least one page"
  else do
    validateFunctions [] m.functions
    if m.targetMetadata = some [] then
      .error "ck.wasm.target metadata payload must not be empty"
    else .ok ()

namespace FinalWasmBuilder

def new : FinalWasmBuilder := LineFeed.start FinalWasmText.start

def pushStr (floats : FloatText) (b : FinalWasmBuilder) (text : List Char) : FinalWasmBuilder :=
  b.push (FinalWasmText.parseLine floats) text

def finish (floats : FloatText) (b : FinalWasmBuilder) : Except String FinalWasmModule := do
  let s ← b.close (FinalWasmText.parseLine floats)
  if !s.moduleOpen || !s.moduleClosed || s.currentFunction.isSome then
    .error "generated WebAssembly text ended before its module was complete"
  else
    validateModule s.module
    return s.module

end FinalWasmBuilder

/-- The module that a text gives, cut into chunks. -/
def readWat (floats : FloatText) (chunks : List (List Char)) : Except String FinalWasmModule :=
  (chunks.foldl (FinalWasmBuilder.pushStr floats) FinalWasmBuilder.new).finish floats

end CalcKernel
