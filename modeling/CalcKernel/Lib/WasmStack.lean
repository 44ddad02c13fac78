import CalcKernel.Lib.LinearMemory
import Mathlib.Logic.Function.Basic

/-!
# A stack machine with a linear memory

The part of WebAssembly that guards and loops over words are made of: operators on two
widths of integers, locals of any names, memory operators and `if` without results.
Code that does not type has no outcome.
-/

namespace CalcKernel.Lib

universe u

inductive WasmValue where
  | i32 (w : BitVec 32)
  | i64 (w : BitVec 64)
deriving DecidableEq

inductive WasmBinary where
  | add | sub | mul | and | or
deriving DecidableEq

inductive WasmCompare where
  | eq | ne | ltU | ltS | leU | leS | gtU | gtS | geU | geS
deriving DecidableEq

def WasmBinary.eval {n : Nat} : WasmBinary → BitVec n → BitVec n → BitVec n
  | .add, a, b => a + b
  | .sub, a, b => a - b
  | .mul, a, b => a * b
  | .and, a, b => a &&& b
  | .or, a, b => a ||| b

def WasmCompare.eval {n : Nat} : WasmCompare → BitVec n → BitVec n → Bool
  | .eq, a, b => a == b
  | .ne, a, b => a != b
  | .ltU, a, b => a.ult b
  | .ltS, a, b => a.slt b
  | .leU, a, b => a.ule b
  | .leS, a, b => a.sle b
  | .gtU, a, b => b.ult a
  | .gtS, a, b => b.slt a
  | .geU, a, b => b.ule a
  | .geS, a, b => b.sle a

/-- The word of a condition. -/
def wasmBool (b : Bool) : BitVec 32 := if b then 1#32 else 0#32

inductive WasmOp (L : Type u) where
  | localGet (l : L)
  | localSet (l : L)
  | localTee (l : L)
  | i32Const (w : BitVec 32)
  | i64Const (w : BitVec 64)
  | i32Binary (op : WasmBinary)
  | i64Binary (op : WasmBinary)
  | i32Compare (op : WasmCompare)
  | i64Compare (op : WasmCompare)
  | i64ExtendI32U
  | i32WrapI64
  | i32Load
  | i32Store
  | memorySize
  | memoryCopy
  | memoryFill

/-- Code up to its end; an `if` takes nothing from the stack but its condition. -/
inductive WasmCode (L : Type u) where
  | done
  | op (op : WasmOp L) (rest : WasmCode L)
  | ifThen (body rest : WasmCode L)
  | return

structure WasmState (L : Type u) where
  locals : L → WasmValue
  stack : List WasmValue
  memory : LinearMemory

inductive WasmOutcome (L : Type u) where
  | next (s : WasmState L)
  | ended (e : MemoryEnd)

variable {L : Type u} [DecidableEq L]

def WasmCode.ofOps : List (WasmOp L) → WasmCode L → WasmCode L
  | [], code => code
  | o :: ops, code => .op o (ofOps ops code)

/-- A memory operator traps where the memory has no answer. -/
def WasmState.withMemory (s : WasmState L) (stack : List WasmValue) :
    Option LinearMemory → WasmOutcome L
  | some m => .next ⟨s.locals, stack, m⟩
  | none => .ended (.trapped s.memory)

def WasmOp.step (s : WasmState L) : WasmOp L → Option (WasmOutcome L)
  | .localGet l => some (.next { s with stack := s.locals l :: s.stack })
  | .localSet l =>
      match s.stack with
      | v :: stack => some (.next ⟨Function.update s.locals l v, stack, s.memory⟩)
      | [] => none
  | .localTee l =>
      match s.stack with
      | v :: stack => some (.next ⟨Function.update s.locals l v, v :: stack, s.memory⟩)
      | [] => none
  | .i32Const w => some (.next { s with stack := .i32 w :: s.stack })
  | .i64Const w => some (.next { s with stack := .i64 w :: s.stack })
  | .i32Binary op =>
      match s.stack with
      | .i32 b :: .i32 a :: stack => some (.next { s with stack := .i32 (op.eval a b) :: stack })
      | _ => none
  | .i64Binary op =>
      match s.stack with
      | .i64 b :: .i64 a :: stack => some (.next { s with stack := .i64 (op.eval a b) :: stack })
      | _ => none
  | .i32Compare op =>
      match s.stack with
      | .i32 b :: .i32 a :: stack =>
          some (.next { s with stack := .i32 (wasmBool (op.eval a b)) :: stack })
      | _ => none
  | .i64Compare op =>
      match s.stack with
      | .i64 b :: .i64 a :: stack =>
          some (.next { s with stack := .i32 (wasmBool (op.eval a b)) :: stack })
      | _ => none
  | .i64ExtendI32U =>
      match s.stack with
      | .i32 a :: stack => some (.next { s with stack := .i64 (a.setWidth 64) :: stack })
      | _ => none
  | .i32WrapI64 =>
      match s.stack with
      | .i64 a :: stack => some (.next { s with stack := .i32 (a.setWidth 32) :: stack })
      | _ => none
  | .i32Load =>
      match s.stack with
      | .i32 a :: stack =>
          match s.memory.load32 a.toNat with
          | some w => some (.next { s with stack := .i32 w :: stack })
          | none => some (.ended (.trapped s.memory))
      | _ => none
  | .i32Store =>
      match s.stack with
      | .i32 w :: .i32 a :: stack => some (s.withMemory stack (s.memory.store32 a.toNat w))
      | _ => none
  | .memorySize =>
      some (.next { s with stack := .i32 (BitVec.ofNat 32 s.memory.pages) :: s.stack })
  | .memoryCopy =>
      match s.stack with
      | .i32 n :: .i32 source :: .i32 destination :: stack =>
          some (s.withMemory stack (s.memory.copy destination.toNat source.toNat n.toNat))
      | _ => none
  | .memoryFill =>
      match s.stack with
      | .i32 n :: .i32 w :: .i32 destination :: stack =>
          some (s.withMemory stack
            (s.memory.fill destination.toNat (LinearMemory.byteOf w 0) n.toNat))
      | _ => none

def WasmCode.exec : WasmCode L → WasmState L → Option (WasmOutcome L)
  | .done, s => some (.next s)
  | .op o rest, s =>
      match o.step s with
      | some (.next s') => exec rest s'
      | some (.ended e) => some (.ended e)
      | none => none
  | .ifThen body rest, s =>
      match s.stack with
      | .i32 c :: stack =>
          if c = 0#32 then exec rest { s with stack := stack }
          else
            match exec body { s with stack := [] } with
            | some (.next s') => exec rest { s' with stack := stack }
            | some (.ended e) => some (.ended e)
            | none => none
      | _ => none
  | .return, s => some (.ended (.returned s.memory))

/-! ## Single steps -/

section Steps

variable {code : WasmCode L} {s s' : WasmState L} {stack : List WasmValue} {a w : BitVec 32}

theorem WasmCode.exec_next {o : WasmOp L} (h : o.step s = some (.next s')) :
    (WasmCode.op o code).exec s = code.exec s' := by
  rw [WasmCode.exec, h]

theorem WasmCode.exec_ended {o : WasmOp L} {e : MemoryEnd} (h : o.step s = some (.ended e)) :
    (WasmCode.op o code).exec s = some (.ended e) := by
  rw [WasmCode.exec, h]

/-- A word on the stack is what an operator that takes one works on. -/
theorem popWord {α : Type u} (a : BitVec 32) (stack : List WasmValue)
    (k : BitVec 32 → List WasmValue → Option α) :
    (match WasmValue.i32 a :: stack with
      | .i32 a :: stack => k a stack
      | _ => none) = k a stack := rfl

-- the memory is a variable here: that of a given state would be evaluated by the kernel
theorem WasmOp.step_i32Load (h : s.stack = .i32 a :: stack) :
    WasmOp.i32Load.step s = match s.memory.load32 a.toNat with
      | some w => some (.next { s with stack := .i32 w :: stack })
      | none => some (.ended (.trapped s.memory)) := by
  have hstep : WasmOp.i32Load.step s = match s.stack with
      | .i32 a :: stack =>
          match s.memory.load32 a.toNat with
          | some w => some (.next { s with stack := .i32 w :: stack })
          | none => some (.ended (.trapped s.memory))
      | _ => none := rfl
  rw [h] at hstep
  exact hstep.trans (popWord a stack fun a stack ↦ match s.memory.load32 a.toNat with
    | some w => some (WasmOutcome.next { s with stack := .i32 w :: stack })
    | none => some (WasmOutcome.ended (.trapped s.memory)))

theorem WasmOp.step_load (h : s.stack = .i32 a :: stack)
    (hload : s.memory.load32 a.toNat = some w) :
    WasmOp.i32Load.step s = some (.next { s with stack := .i32 w :: stack }) := by
  rw [step_i32Load h, hload]

theorem WasmOp.step_load_traps (h : s.stack = .i32 a :: stack)
    (hload : s.memory.load32 a.toNat = none) :
    WasmOp.i32Load.step s = some (.ended (.trapped s.memory)) := by
  rw [step_i32Load h, hload]

theorem WasmOp.step_store (h : s.stack = .i32 w :: .i32 a :: stack) :
    WasmOp.i32Store.step s = some (s.withMemory stack (s.memory.store32 a.toNat w)) := by
  rw [WasmOp.step, h]

end Steps

end CalcKernel.Lib
