import CalcKernel.Backend.Wasm.Layout
import CalcKernel.Kir.Typing
import CalcKernel.Lib.Machine
import CalcKernel.Lib.WasmStack

/-!
# Functions over words

The code that the scalar emitter writes for instructions on values of 32 bits, with
addresses that wrap, and how the blocks of a function that returns nothing run on it.
-/

namespace CalcKernel

open Lib

/-- The locals of an emitted function: one for each value, and those of the bulk guard. -/
inductive WasmLocal where
  | value (v : ValueId)
  | bulkLength
  | bulkDestinationStart
  | bulkDestinationEnd
  | bulkSourceStart
  | bulkSourceEnd
  | bulkMemoryEnd
deriving DecidableEq, Repr

/-- The types whose values are one `i32`. -/
def isWasmWord : MirType → Bool
  | .primitive .i32 | .primitive .u32 | .primitive .bool | .pointer _ => true
  | .primitive .i64 | .primitive .u64 | .primitive .f64 | .slice _ | .struct _ | .void => false

namespace KirFunction

variable (f : KirFunction) (layout : WasmStructLayout)

/-- `emit_wat_address` -/
def emitAddress : KirPlace → Option (List (WasmOp WasmLocal))
  | .value v _ _ => some [.localGet (.value v)]
  | .deref p _ _ => some [.localGet (.value p)]
  | .index base i _ _ =>
      match base.typeNode with
      | .pointer element =>
          (emitAddress base).bind fun ops ↦ (layout.sizeOf element).map fun size ↦
            ops ++ [.localGet (.value i), .i32Const (BitVec.ofNat 32 size), .i32Binary .mul,
              .i32Binary .add]
      | _ => none
  | .sliceIndex _ _ _ _ => none
  | .field base name _ _ =>
      match base.typeNode with
      | .struct structName =>
          (emitAddress base).bind fun ops ↦ (layout.fieldOffset structName name).map fun offset ↦
            if offset = 0 then ops
            else ops ++ [.i32Const (BitVec.ofNat 32 offset), .i32Binary .add]
      | _ => none

/-- `wat_binary_instruction`, without the operators that trap. -/
def emitBinary (op : MirBinaryOp) (type : MirType) : Option WasmBinary :=
  if isWasmWord type then
    match op with
    | .add => some .add
    | .sub => some .sub
    | .mul => some .mul
    | .div | .mod => none
  else none

/-- `wat_compare_instruction` -/
def emitCompare (op : MirCompareOp) (type : MirType) : Option WasmCompare :=
  if isWasmWord type then
    some (match op, decide (type = .primitive .u32) with
      | .eq, _ => .eq
      | .ne, _ => .ne
      | .lt, true => .ltU
      | .lt, false => .ltS
      | .le, true => .leU
      | .le, false => .leS
      | .gt, true => .gtU
      | .gt, false => .gtS
      | .ge, true => .geU
      | .ge, false => .geS)
  else none

/-- The local of the first result, when it is a word. -/
def emitResult (i : KirInstruction) : Option WasmLocal :=
  i.results.head?.bind fun r ↦ (f.scalarType? r.value).bind fun type ↦
    if isWasmWord type then some (.value r.value) else none

/-- `emit_wat_instruction`, for the instructions on words. -/
def emitInstruction (i : KirInstruction) : Option (List (WasmOp WasmLocal)) :=
  match i.kind with
  | .constInt text =>
      (f.emitResult i).bind fun target ↦ (parseInteger text).map fun n ↦
        [.i32Const (BitVec.ofInt 32 n), .localSet target]
  | .constBool b =>
      (f.emitResult i).map fun target ↦ [.i32Const (wasmBool b), .localSet target]
  | .copy v => (f.emitResult i).map fun target ↦ [.localGet (.value v), .localSet target]
  | .binary op l r _ =>
      (f.emitResult i).bind fun target ↦ (f.scalarType? l).bind fun type ↦
        (emitBinary op type).map fun o ↦
          [.localGet (.value l), .localGet (.value r), .i32Binary o, .localSet target]
  | .compare op l r =>
      (f.emitResult i).bind fun target ↦ (f.scalarType? l).bind fun type ↦
        (emitCompare op type).map fun o ↦
          [.localGet (.value l), .localGet (.value r), .i32Compare o, .localSet target]
  | .address place =>
      (f.emitResult i).bind fun target ↦ (emitAddress layout place).map fun ops ↦
        ops ++ [.localSet target]
  | .load place =>
      (f.emitResult i).bind fun target ↦ (emitAddress layout place).map fun ops ↦
        ops ++ [.i32Load, .localSet target]
  | .store place v =>
      (f.scalarType? v).bind fun type ↦
        if isWasmWord type then
          (emitAddress layout place).map fun ops ↦ ops ++ [.localGet (.value v), .i32Store]
        else none
  | _ => none

/-- The instructions of a block, one after another. -/
def emitInstructions : List KirInstruction → Option (WasmCode WasmLocal)
  | [] => some .done
  | i :: rest =>
      (f.emitInstruction layout i).bind fun ops ↦ (emitInstructions rest).map (.ofOps ops)

end KirFunction

/-! ## Blocks -/

abbrev WasmLocals := WasmLocal → WasmValue

def WasmLocals.setAll (locals : WasmLocals) : List (ValueId × WasmValue) → WasmLocals
  | [] => locals
  | (v, x) :: rest => setAll (Function.update locals (.value v) x) rest

structure WordState where
  block : KirBlock
  locals : WasmLocals
  memory : LinearMemory

namespace KirFunction

variable (f : KirFunction) (layout : WasmStructLayout)

/-- The copies of an edge read all arguments before they write the parameters. -/
def followWords (locals : WasmLocals) (memory : LinearMemory) (edge : KirEdge) :
    Move WordState MemoryEnd :=
  match f.block? edge.target with
  | some b => .next ⟨b, locals.setAll ((b.params.map (·.value)).zip
      (edge.args.map fun v ↦ locals (.value v))), memory⟩
  | none => .stuck

def leaveWords (terminator : KirTerminator) (locals : WasmLocals) (memory : LinearMemory) :
    Move WordState MemoryEnd :=
  match terminator with
  | .return none _ _ => .halt (.returned memory)
  | .return (some _) _ _ => .stuck
  | .jump edge => f.followWords locals memory edge
  | .branch condition thenEdge elseEdge =>
      match locals (.value condition) with
      | .i32 c => f.followWords locals memory (if c = 0#32 then elseEdge else thenEdge)
      | .i64 _ => .stuck

/-- Runs one block up to the next one. -/
def stepWords (s : WordState) : Move WordState MemoryEnd :=
  match (f.emitInstructions layout s.block.instructions).bind
      (·.exec ⟨s.locals, [], s.memory⟩) with
  | some (.next s') => f.leaveWords s.block.terminator s'.locals s'.memory
  | some (.ended e) => .halt e
  | none => .stuck

def wordMachine : Machine WordState MemoryEnd := ⟨f.stepWords layout⟩

/-- The locals when a function is called: zero apart from the parameters. -/
def entryLocals (args : List (BitVec 32)) : WasmLocals :=
  WasmLocals.setAll (fun
    | .value _ => .i32 0#32
    | _ => .i64 0#64) ((f.params.map (·.value)).zip (args.map .i32))

/-- A call that goes on with the entry block ends. -/
def EndsFrom (locals : WasmLocals) (memory : LinearMemory) (e : MemoryEnd) : Prop :=
  ∃ b, f.blocks.head? = some b ∧ (f.wordMachine layout).Halts ⟨b, locals, memory⟩ e

end KirFunction

end CalcKernel
