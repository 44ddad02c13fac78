import CalcKernel.Lib.Text
import CalcKernel.Lib.Utf8
import Mathlib.Data.List.Nodup

/-!
# Opcodes of the final WebAssembly text

The value types and the opcodes with their names.  No two opcodes and no keyword share a name,
so each is read back from the name it is written with.
-/

namespace CalcKernel

open Lib

/-! ## Tables of names -/

section Tables

variable {α : Type} [DecidableEq α] {table : List (α × String)}

/-- The name a table gives. -/
def nameIn (table : List (α × String)) (a : α) : String :=
  ((table.find? (·.1 = a)).map (·.2)).getD ""

/-- What a table has under a name. -/
def namedIn (table : List (α × String)) (name : String) : Option α :=
  (table.find? (·.2 = name)).map (·.1)

theorem nameIn_mem {a : α} (h : a ∈ table.map (·.1)) : (a, nameIn table a) ∈ table := by
  obtain ⟨entry, hentry, rfl⟩ := List.mem_map.mp h
  cases hfind : table.find? (·.1 = entry.1) with
  | none => exact absurd (List.find?_eq_none.mp hfind entry hentry) (by simp)
  | some found =>
      have hkey : found.1 = entry.1 := by simpa using List.find?_some hfind
      have hname : nameIn table entry.1 = found.2 := by simp [nameIn, hfind]
      rw [hname, ← hkey]
      exact List.mem_of_find?_eq_some hfind

theorem namedIn_nameIn {a : α} (hnames : (table.map (·.2)).Nodup) (h : a ∈ table.map (·.1)) :
    namedIn table (nameIn table a) = some a := by
  have hmem := nameIn_mem h
  cases hfind : table.find? (·.2 = nameIn table a) with
  | none => exact absurd (List.find?_eq_none.mp hfind _ hmem) (by simp)
  | some found =>
      have hname : found.2 = nameIn table a := by simpa using List.find?_some hfind
      have hfound := List.inj_on_of_nodup_map hnames (List.mem_of_find?_eq_some hfind) hmem hname
      rw [namedIn, hfind, hfound]
      rfl

omit [DecidableEq α] in
theorem namedIn_eq_none {name : String} (h : name ∉ table.map (·.2)) :
    namedIn table name = none := by
  rw [namedIn, Option.map_eq_none_iff, List.find?_eq_none]
  intro entry hentry
  simpa using fun heq ↦ h (List.mem_map.mpr ⟨entry, hentry, heq⟩)

end Tables

/-! ## Value types and opcodes -/

inductive WasmValueType
  | i32 | i64 | f32 | f64 | v128
deriving DecidableEq, Repr

namespace WasmValueType

def table : List (WasmValueType × String) :=
  [(.i32, "i32"), (.i64, "i64"), (.f32, "f32"), (.f64, "f64"), (.v128, "v128")]

def wat (ty : WasmValueType) : String := nameIn table ty

def parse (text : String) : Option WasmValueType := namedIn table text

end WasmValueType

/-- The opcodes with a memory immediate. -/
inductive MemoryOpcode
  | i32Load | i64Load | f32Load | f64Load | i32Load8S | i32Load8U | i32Load16S | i32Load16U
  | i64Load8S | i64Load8U | i64Load16S | i64Load16U | i64Load32S | i64Load32U | i32Store
  | i64Store | f32Store | f64Store | i32Store8 | i32Store16 | i64Store8 | i64Store16 | i64Store32
  | v128Load | v128Load8x8S | v128Load8x8U | v128Load16x4S | v128Load16x4U | v128Load32x2S
  | v128Load32x2U | v128Load8Splat | v128Load16Splat | v128Load32Splat | v128Load64Splat
  | v128Load32Zero | v128Load64Zero | v128Store
deriving DecidableEq, Repr

namespace MemoryOpcode

def table : List (MemoryOpcode × String) :=
  [(.i32Load, "i32.load"), (.i64Load, "i64.load"), (.f32Load, "f32.load"),
    (.f64Load, "f64.load"), (.i32Load8S, "i32.load8_s"), (.i32Load8U, "i32.load8_u"),
    (.i32Load16S, "i32.load16_s"), (.i32Load16U, "i32.load16_u"), (.i64Load8S, "i64.load8_s"),
    (.i64Load8U, "i64.load8_u"), (.i64Load16S, "i64.load16_s"), (.i64Load16U, "i64.load16_u"),
    (.i64Load32S, "i64.load32_s"), (.i64Load32U, "i64.load32_u"), (.i32Store, "i32.store"),
    (.i64Store, "i64.store"), (.f32Store, "f32.store"), (.f64Store, "f64.store"),
    (.i32Store8, "i32.store8"), (.i32Store16, "i32.store16"), (.i64Store8, "i64.store8"),
    (.i64Store16, "i64.store16"), (.i64Store32, "i64.store32"), (.v128Load, "v128.load"),
    (.v128Load8x8S, "v128.load8x8_s"), (.v128Load8x8U, "v128.load8x8_u"),
    (.v128Load16x4S, "v128.load16x4_s"), (.v128Load16x4U, "v128.load16x4_u"),
    (.v128Load32x2S, "v128.load32x2_s"), (.v128Load32x2U, "v128.load32x2_u"),
    (.v128Load8Splat, "v128.load8_splat"), (.v128Load16Splat, "v128.load16_splat"),
    (.v128Load32Splat, "v128.load32_splat"), (.v128Load64Splat, "v128.load64_splat"),
    (.v128Load32Zero, "v128.load32_zero"), (.v128Load64Zero, "v128.load64_zero"),
    (.v128Store, "v128.store")]

def wat (opcode : MemoryOpcode) : String := nameIn table opcode

def isStore : MemoryOpcode → Bool
  | .i32Store | .i64Store | .f32Store | .f64Store | .i32Store8 | .i32Store16 | .i64Store8
  | .i64Store16 | .i64Store32 | .v128Store => true
  | _ => false

/-- The opcode of a name, and whether it stores. -/
def parse (text : String) : Option (MemoryOpcode × Bool) :=
  (namedIn table text).map fun opcode ↦ (opcode, opcode.isStore)

end MemoryOpcode

/-- The opcodes with a lane immediate. -/
inductive LaneOpcode
  | i8x16ExtractLaneS | i8x16ExtractLaneU | i8x16ReplaceLane | i16x8ExtractLaneS
  | i16x8ExtractLaneU | i16x8ReplaceLane | i32x4ExtractLane | i32x4ReplaceLane | i64x2ExtractLane
  | i64x2ReplaceLane | f32x4ExtractLane | f32x4ReplaceLane | f64x2ExtractLane | f64x2ReplaceLane
deriving DecidableEq, Repr

namespace LaneOpcode

def table : List (LaneOpcode × String) :=
  [(.i8x16ExtractLaneS, "i8x16.extract_lane_s"), (.i8x16ExtractLaneU, "i8x16.extract_lane_u"),
    (.i8x16ReplaceLane, "i8x16.replace_lane"), (.i16x8ExtractLaneS, "i16x8.extract_lane_s"),
    (.i16x8ExtractLaneU, "i16x8.extract_lane_u"), (.i16x8ReplaceLane, "i16x8.replace_lane"),
    (.i32x4ExtractLane, "i32x4.extract_lane"), (.i32x4ReplaceLane, "i32x4.replace_lane"),
    (.i64x2ExtractLane, "i64x2.extract_lane"), (.i64x2ReplaceLane, "i64x2.replace_lane"),
    (.f32x4ExtractLane, "f32x4.extract_lane"), (.f32x4ReplaceLane, "f32x4.replace_lane"),
    (.f64x2ExtractLane, "f64x2.extract_lane"), (.f64x2ReplaceLane, "f64x2.replace_lane")]

def wat (opcode : LaneOpcode) : String := nameIn table opcode

def parse (text : String) : Option LaneOpcode := namedIn table text

end LaneOpcode

/-- The opcodes without immediates. -/
inductive SimpleOpcode
  | unreachable | nop | drop | select | ret | i32Eqz | i32Eq | i32Ne | i32LtS | i32LtU | i32GtS
  | i32GtU | i32LeS | i32LeU | i32GeS | i32GeU | i64Eqz | i64Eq | i64Ne | i64LtS | i64LtU | i64GtS
  | i64GtU | i64LeS | i64LeU | i64GeS | i64GeU | f32Eq | f32Ne | f32Lt | f32Gt | f32Le | f32Ge
  | f64Eq | f64Ne | f64Lt | f64Gt | f64Le | f64Ge | i32Clz | i32Ctz | i32Popcnt | i32Add | i32Sub
  | i32Mul | i32DivS | i32DivU | i32RemS | i32RemU | i32And | i32Or | i32Xor | i32Shl | i32ShrS
  | i32ShrU | i32Rotl | i32Rotr | i64Clz | i64Ctz | i64Popcnt | i64Add | i64Sub | i64Mul | i64DivS
  | i64DivU | i64RemS | i64RemU | i64And | i64Or | i64Xor | i64Shl | i64ShrS | i64ShrU | i64Rotl
  | i64Rotr | f32Abs | f32Neg | f32Ceil | f32Floor | f32Trunc | f32Nearest | f32Sqrt | f32Add
  | f32Sub | f32Mul | f32Div | f32Min | f32Max | f32Copysign | f64Abs | f64Neg | f64Ceil
  | f64Floor | f64Trunc | f64Nearest | f64Sqrt | f64Add | f64Sub | f64Mul | f64Div | f64Min
  | f64Max | f64Copysign | i32WrapI64 | i32TruncF32S | i32TruncF32U | i32TruncF64S | i32TruncF64U
  | i64ExtendI32S | i64ExtendI32U | i64TruncF32S | i64TruncF32U | i64TruncF64S | i64TruncF64U
  | f32ConvertI32S | f32ConvertI32U | f32ConvertI64S | f32ConvertI64U | f32DemoteF64
  | f64ConvertI32S | f64ConvertI32U | f64ConvertI64S | f64ConvertI64U | f64PromoteF32
  | i32ReinterpretF32 | i64ReinterpretF64 | f32ReinterpretI32 | f64ReinterpretI64 | i32Extend8S
  | i32Extend16S | i64Extend8S | i64Extend16S | i64Extend32S | i32TruncSatF32S | i32TruncSatF32U
  | i32TruncSatF64S | i32TruncSatF64U | i64TruncSatF32S | i64TruncSatF32U | i64TruncSatF64S
  | i64TruncSatF64U | v128Not | v128And | v128AndNot | v128Or | v128Xor | v128Bitselect
  | v128AnyTrue | i8x16Swizzle | i8x16Splat | i16x8Splat | i32x4Splat | i64x2Splat | f32x4Splat
  | f64x2Splat | i8x16Abs | i8x16Neg | i8x16Popcnt | i8x16AllTrue | i8x16Bitmask | i16x8Abs
  | i16x8Neg | i16x8Q15MulrSatS | i16x8AllTrue | i16x8Bitmask | i32x4Abs | i32x4Neg | i32x4AllTrue
  | i32x4Bitmask | i64x2Abs | i64x2Neg | i64x2AllTrue | i64x2Bitmask | f32x4Ceil | f32x4Floor
  | f32x4Trunc | f32x4Nearest | f32x4Abs | f32x4Neg | f32x4Sqrt | f32x4Add | f32x4Sub | f32x4Mul
  | f32x4Div | f32x4Min | f32x4Max | f32x4PMin | f32x4PMax | f64x2Abs | f64x2Neg | f64x2Sqrt
  | f64x2Add | f64x2Sub | f64x2Mul | f64x2Div | f64x2Min | f64x2Max | f64x2PMin | f64x2PMax
  | f64x2ConvertLowI32x4S | f64x2ConvertLowI32x4U | i8x16Eq | i8x16Ne | i8x16LtS | i8x16LtU
  | i8x16GtS | i8x16GtU | i8x16LeS | i8x16LeU | i8x16GeS | i8x16GeU | i16x8Eq | i16x8Ne | i16x8LtS
  | i16x8LtU | i16x8GtS | i16x8GtU | i16x8LeS | i16x8LeU | i16x8GeS | i16x8GeU | i32x4Add
  | i32x4Sub | i32x4Mul | i32x4Eq | i32x4Ne | i32x4LtS | i32x4LtU | i32x4GtS | i32x4GtU | i32x4LeS
  | i32x4LeU | i32x4GeS | i32x4GeU | i64x2Eq | i64x2Ne | i64x2LtS | i64x2GtS | i64x2LeS | i64x2GeS
  | f32x4Eq | f32x4Ne | f32x4Lt | f32x4Gt | f32x4Le | f32x4Ge | f64x2Eq | f64x2Ne | f64x2Lt
  | f64x2Gt | f64x2Le | f64x2Ge
deriving DecidableEq, Repr

namespace SimpleOpcode

def table : List (SimpleOpcode × String) :=
  [(.unreachable, "unreachable"), (.nop, "nop"), (.drop, "drop"), (.select, "select"),
    (.ret, "return"), (.i32Eqz, "i32.eqz"), (.i32Eq, "i32.eq"), (.i32Ne, "i32.ne"),
    (.i32LtS, "i32.lt_s"), (.i32LtU, "i32.lt_u"), (.i32GtS, "i32.gt_s"), (.i32GtU, "i32.gt_u"),
    (.i32LeS, "i32.le_s"), (.i32LeU, "i32.le_u"), (.i32GeS, "i32.ge_s"), (.i32GeU, "i32.ge_u"),
    (.i64Eqz, "i64.eqz"), (.i64Eq, "i64.eq"), (.i64Ne, "i64.ne"), (.i64LtS, "i64.lt_s"),
    (.i64LtU, "i64.lt_u"), (.i64GtS, "i64.gt_s"), (.i64GtU, "i64.gt_u"), (.i64LeS, "i64.le_s"),
    (.i64LeU, "i64.le_u"), (.i64GeS, "i64.ge_s"), (.i64GeU, "i64.ge_u"), (.f32Eq, "f32.eq"),
    (.f32Ne, "f32.ne"), (.f32Lt, "f32.lt"), (.f32Gt, "f32.gt"), (.f32Le, "f32.le"),
    (.f32Ge, "f32.ge"), (.f64Eq, "f64.eq"), (.f64Ne, "f64.ne"), (.f64Lt, "f64.lt"),
    (.f64Gt, "f64.gt"), (.f64Le, "f64.le"), (.f64Ge, "f64.ge"), (.i32Clz, "i32.clz"),
    (.i32Ctz, "i32.ctz"), (.i32Popcnt, "i32.popcnt"), (.i32Add, "i32.add"), (.i32Sub, "i32.sub"),
    (.i32Mul, "i32.mul"), (.i32DivS, "i32.div_s"), (.i32DivU, "i32.div_u"),
    (.i32RemS, "i32.rem_s"), (.i32RemU, "i32.rem_u"), (.i32And, "i32.and"), (.i32Or, "i32.or"),
    (.i32Xor, "i32.xor"), (.i32Shl, "i32.shl"), (.i32ShrS, "i32.shr_s"), (.i32ShrU, "i32.shr_u"),
    (.i32Rotl, "i32.rotl"), (.i32Rotr, "i32.rotr"), (.i64Clz, "i64.clz"), (.i64Ctz, "i64.ctz"),
    (.i64Popcnt, "i64.popcnt"), (.i64Add, "i64.add"), (.i64Sub, "i64.sub"), (.i64Mul, "i64.mul"),
    (.i64DivS, "i64.div_s"), (.i64DivU, "i64.div_u"), (.i64RemS, "i64.rem_s"),
    (.i64RemU, "i64.rem_u"), (.i64And, "i64.and"), (.i64Or, "i64.or"), (.i64Xor, "i64.xor"),
    (.i64Shl, "i64.shl"), (.i64ShrS, "i64.shr_s"), (.i64ShrU, "i64.shr_u"),
    (.i64Rotl, "i64.rotl"), (.i64Rotr, "i64.rotr"), (.f32Abs, "f32.abs"), (.f32Neg, "f32.neg"),
    (.f32Ceil, "f32.ceil"), (.f32Floor, "f32.floor"), (.f32Trunc, "f32.trunc"),
    (.f32Nearest, "f32.nearest"), (.f32Sqrt, "f32.sqrt"), (.f32Add, "f32.add"),
    (.f32Sub, "f32.sub"), (.f32Mul, "f32.mul"), (.f32Div, "f32.div"), (.f32Min, "f32.min"),
    (.f32Max, "f32.max"), (.f32Copysign, "f32.copysign"), (.f64Abs, "f64.abs"),
    (.f64Neg, "f64.neg"), (.f64Ceil, "f64.ceil"), (.f64Floor, "f64.floor"),
    (.f64Trunc, "f64.trunc"), (.f64Nearest, "f64.nearest"), (.f64Sqrt, "f64.sqrt"),
    (.f64Add, "f64.add"), (.f64Sub, "f64.sub"), (.f64Mul, "f64.mul"), (.f64Div, "f64.div"),
    (.f64Min, "f64.min"), (.f64Max, "f64.max"), (.f64Copysign, "f64.copysign"),
    (.i32WrapI64, "i32.wrap_i64"), (.i32TruncF32S, "i32.trunc_f32_s"),
    (.i32TruncF32U, "i32.trunc_f32_u"), (.i32TruncF64S, "i32.trunc_f64_s"),
    (.i32TruncF64U, "i32.trunc_f64_u"), (.i64ExtendI32S, "i64.extend_i32_s"),
    (.i64ExtendI32U, "i64.extend_i32_u"), (.i64TruncF32S, "i64.trunc_f32_s"),
    (.i64TruncF32U, "i64.trunc_f32_u"), (.i64TruncF64S, "i64.trunc_f64_s"),
    (.i64TruncF64U, "i64.trunc_f64_u"), (.f32ConvertI32S, "f32.convert_i32_s"),
    (.f32ConvertI32U, "f32.convert_i32_u"), (.f32ConvertI64S, "f32.convert_i64_s"),
    (.f32ConvertI64U, "f32.convert_i64_u"), (.f32DemoteF64, "f32.demote_f64"),
    (.f64ConvertI32S, "f64.convert_i32_s"), (.f64ConvertI32U, "f64.convert_i32_u"),
    (.f64ConvertI64S, "f64.convert_i64_s"), (.f64ConvertI64U, "f64.convert_i64_u"),
    (.f64PromoteF32, "f64.promote_f32"), (.i32ReinterpretF32, "i32.reinterpret_f32"),
    (.i64ReinterpretF64, "i64.reinterpret_f64"), (.f32ReinterpretI32, "f32.reinterpret_i32"),
    (.f64ReinterpretI64, "f64.reinterpret_i64"), (.i32Extend8S, "i32.extend8_s"),
    (.i32Extend16S, "i32.extend16_s"), (.i64Extend8S, "i64.extend8_s"),
    (.i64Extend16S, "i64.extend16_s"), (.i64Extend32S, "i64.extend32_s"),
    (.i32TruncSatF32S, "i32.trunc_sat_f32_s"), (.i32TruncSatF32U, "i32.trunc_sat_f32_u"),
    (.i32TruncSatF64S, "i32.trunc_sat_f64_s"), (.i32TruncSatF64U, "i32.trunc_sat_f64_u"),
    (.i64TruncSatF32S, "i64.trunc_sat_f32_s"), (.i64TruncSatF32U, "i64.trunc_sat_f32_u"),
    (.i64TruncSatF64S, "i64.trunc_sat_f64_s"), (.i64TruncSatF64U, "i64.trunc_sat_f64_u"),
    (.v128Not, "v128.not"), (.v128And, "v128.and"), (.v128AndNot, "v128.andnot"),
    (.v128Or, "v128.or"), (.v128Xor, "v128.xor"), (.v128Bitselect, "v128.bitselect"),
    (.v128AnyTrue, "v128.any_true"), (.i8x16Swizzle, "i8x16.swizzle"),
    (.i8x16Splat, "i8x16.splat"), (.i16x8Splat, "i16x8.splat"), (.i32x4Splat, "i32x4.splat"),
    (.i64x2Splat, "i64x2.splat"), (.f32x4Splat, "f32x4.splat"), (.f64x2Splat, "f64x2.splat"),
    (.i8x16Abs, "i8x16.abs"), (.i8x16Neg, "i8x16.neg"), (.i8x16Popcnt, "i8x16.popcnt"),
    (.i8x16AllTrue, "i8x16.all_true"), (.i8x16Bitmask, "i8x16.bitmask"), (.i16x8Abs, "i16x8.abs"),
    (.i16x8Neg, "i16x8.neg"), (.i16x8Q15MulrSatS, "i16x8.q15mulr_sat_s"),
    (.i16x8AllTrue, "i16x8.all_true"), (.i16x8Bitmask, "i16x8.bitmask"), (.i32x4Abs, "i32x4.abs"),
    (.i32x4Neg, "i32x4.neg"), (.i32x4AllTrue, "i32x4.all_true"), (.i32x4Bitmask, "i32x4.bitmask"),
    (.i64x2Abs, "i64x2.abs"), (.i64x2Neg, "i64x2.neg"), (.i64x2AllTrue, "i64x2.all_true"),
    (.i64x2Bitmask, "i64x2.bitmask"), (.f32x4Ceil, "f32x4.ceil"), (.f32x4Floor, "f32x4.floor"),
    (.f32x4Trunc, "f32x4.trunc"), (.f32x4Nearest, "f32x4.nearest"), (.f32x4Abs, "f32x4.abs"),
    (.f32x4Neg, "f32x4.neg"), (.f32x4Sqrt, "f32x4.sqrt"), (.f32x4Add, "f32x4.add"),
    (.f32x4Sub, "f32x4.sub"), (.f32x4Mul, "f32x4.mul"), (.f32x4Div, "f32x4.div"),
    (.f32x4Min, "f32x4.min"), (.f32x4Max, "f32x4.max"), (.f32x4PMin, "f32x4.pmin"),
    (.f32x4PMax, "f32x4.pmax"), (.f64x2Abs, "f64x2.abs"), (.f64x2Neg, "f64x2.neg"),
    (.f64x2Sqrt, "f64x2.sqrt"), (.f64x2Add, "f64x2.add"), (.f64x2Sub, "f64x2.sub"),
    (.f64x2Mul, "f64x2.mul"), (.f64x2Div, "f64x2.div"), (.f64x2Min, "f64x2.min"),
    (.f64x2Max, "f64x2.max"), (.f64x2PMin, "f64x2.pmin"), (.f64x2PMax, "f64x2.pmax"),
    (.f64x2ConvertLowI32x4S, "f64x2.convert_low_i32x4_s"),
    (.f64x2ConvertLowI32x4U, "f64x2.convert_low_i32x4_u"), (.i8x16Eq, "i8x16.eq"),
    (.i8x16Ne, "i8x16.ne"), (.i8x16LtS, "i8x16.lt_s"), (.i8x16LtU, "i8x16.lt_u"),
    (.i8x16GtS, "i8x16.gt_s"), (.i8x16GtU, "i8x16.gt_u"), (.i8x16LeS, "i8x16.le_s"),
    (.i8x16LeU, "i8x16.le_u"), (.i8x16GeS, "i8x16.ge_s"), (.i8x16GeU, "i8x16.ge_u"),
    (.i16x8Eq, "i16x8.eq"), (.i16x8Ne, "i16x8.ne"), (.i16x8LtS, "i16x8.lt_s"),
    (.i16x8LtU, "i16x8.lt_u"), (.i16x8GtS, "i16x8.gt_s"), (.i16x8GtU, "i16x8.gt_u"),
    (.i16x8LeS, "i16x8.le_s"), (.i16x8LeU, "i16x8.le_u"), (.i16x8GeS, "i16x8.ge_s"),
    (.i16x8GeU, "i16x8.ge_u"), (.i32x4Add, "i32x4.add"), (.i32x4Sub, "i32x4.sub"),
    (.i32x4Mul, "i32x4.mul"), (.i32x4Eq, "i32x4.eq"), (.i32x4Ne, "i32x4.ne"),
    (.i32x4LtS, "i32x4.lt_s"), (.i32x4LtU, "i32x4.lt_u"), (.i32x4GtS, "i32x4.gt_s"),
    (.i32x4GtU, "i32x4.gt_u"), (.i32x4LeS, "i32x4.le_s"), (.i32x4LeU, "i32x4.le_u"),
    (.i32x4GeS, "i32x4.ge_s"), (.i32x4GeU, "i32x4.ge_u"), (.i64x2Eq, "i64x2.eq"),
    (.i64x2Ne, "i64x2.ne"), (.i64x2LtS, "i64x2.lt_s"), (.i64x2GtS, "i64x2.gt_s"),
    (.i64x2LeS, "i64x2.le_s"), (.i64x2GeS, "i64x2.ge_s"), (.f32x4Eq, "f32x4.eq"),
    (.f32x4Ne, "f32x4.ne"), (.f32x4Lt, "f32x4.lt"), (.f32x4Gt, "f32x4.gt"),
    (.f32x4Le, "f32x4.le"), (.f32x4Ge, "f32x4.ge"), (.f64x2Eq, "f64x2.eq"),
    (.f64x2Ne, "f64x2.ne"), (.f64x2Lt, "f64x2.lt"), (.f64x2Gt, "f64x2.gt"),
    (.f64x2Le, "f64x2.le"), (.f64x2Ge, "f64x2.ge")]

def wat (opcode : SimpleOpcode) : String := nameIn table opcode

def parse (text : String) : Option SimpleOpcode := namedIn table text

end SimpleOpcode

/-! ## Names -/

/-- The names of the other instructions. -/
def instructionKeywords : List String :=
  ["block", "loop", "if", "else", "end", "br", "br_if", "br_table", "local.get", "local.set",
    "local.tee", "call", "i32.const", "i64.const", "f64.const", "v128.const", "memory.copy",
    "memory.fill", "memory.size", "memory.grow", "i8x16.shuffle"]

/-- Every name an instruction may begin with. -/
def instructionNames : List String :=
  instructionKeywords ++ LaneOpcode.table.map (·.2) ++ MemoryOpcode.table.map (·.2) ++
    SimpleOpcode.table.map (·.2)

/-- The bytes of a name as one number, which the kernel compares fast. -/
def nameKey (name : String) : Nat :=
  name.toByteArray.data.toList.foldl (fun n b ↦ n * 256 + b.toNat) 0

def apart : List Nat → Bool
  | [] => true
  | n :: rest => rest.all (fun m ↦ !Nat.beq n m) && apart rest

theorem nodup_of_apart {numbers : List Nat} (h : apart numbers = true) : numbers.Nodup := by
  induction numbers with
  | nil => exact List.nodup_nil
  | cons n rest ih =>
      obtain ⟨hfirst, hrest⟩ := (Bool.and_eq_true _ _).mp h
      refine List.nodup_cons.mpr ⟨fun hmem ↦ ?_, ih hrest⟩
      have hne := List.all_eq_true.mp hfirst n hmem
      rw [Nat.beq_refl] at hne
      cases hne

set_option maxRecDepth 8000 in
theorem instructionNames_nodup : instructionNames.Nodup := by
  have hkeys : apart (instructionNames.map nameKey) = true := by decide +kernel
  exact (nodup_of_apart hkeys).of_map

set_option maxRecDepth 8000 in
/-- Names are lower case letters, digits, points and underscores. -/
theorem instructionNames_bytes : ∀ name ∈ instructionNames,
    name ≠ "" ∧ ∀ b ∈ name.toByteArray.data.toList, 46 ≤ b.toNat ∧ b.toNat ≤ 122 := by
  have hall : instructionNames.all (fun name ↦ Nat.blt 0 name.utf8ByteSize &&
      name.toByteArray.data.toList.all fun b ↦ Nat.ble 46 b.toNat && Nat.ble b.toNat 122) = true := by
    decide +kernel
  intro name hname
  obtain ⟨hsize, hbytes⟩ := (Bool.and_eq_true _ _).mp (List.all_eq_true.mp hall name hname)
  refine ⟨?_, fun b hb ↦ ?_⟩
  · rintro rfl
    cases hsize
  · obtain ⟨hlow, hhigh⟩ := (Bool.and_eq_true _ _).mp (List.all_eq_true.mp hbytes b hb)
    exact ⟨Nat.le_of_ble_eq_true hlow, Nat.le_of_ble_eq_true hhigh⟩

theorem name_bounds {name : String} (h : name ∈ instructionNames) {c : Char}
    (hc : c ∈ name.toList) : 46 ≤ c.toNat ∧ c.toNat ≤ 122 :=
  bounds_of_bytes (by decide) (instructionNames_bytes name h).2 hc

theorem isWord_name {name : String} (h : name ∈ instructionNames) : IsWord name.toList := by
  have hne : name.toList ≠ [] := fun hnil ↦
    (instructionNames_bytes name h).1 (String.toList_eq_nil_iff.mp hnil)
  refine isWord_of_visible hne fun c hc ↦ ?_
  have hbounds := name_bounds h hc
  omega

theorem LaneOpcode.mem_table (opcode : LaneOpcode) : opcode ∈ table.map (·.1) := by
  cases opcode <;> decide

theorem MemoryOpcode.mem_table (opcode : MemoryOpcode) : opcode ∈ table.map (·.1) := by
  cases opcode <;> decide

set_option maxRecDepth 8000 in
theorem SimpleOpcode.mem_table (opcode : SimpleOpcode) : opcode ∈ table.map (·.1) := by
  have hall : table.map (·.1) = (List.range 252).map ofNat := by decide +kernel
  have hidx : opcode.ctorIdx < 252 := by cases opcode <;> decide
  rw [hall]
  exact List.mem_map.mpr ⟨opcode.ctorIdx, List.mem_range.mpr hidx, ofNat_ctorIdx opcode⟩

theorem WasmValueType.mem_table (ty : WasmValueType) : ty ∈ table.map (·.1) := by
  cases ty <;> decide

theorem WasmValueType.parse_wat (ty : WasmValueType) : parse ty.wat = some ty := by
  cases ty <;> simp [parse, wat, namedIn, nameIn, table]

theorem notMem_left {a b : List String} {name : String} (h : (a ++ b).Nodup) (hname : name ∈ b) :
    name ∉ a :=
  fun hmem ↦ List.disjoint_of_nodup_append h hmem hname

theorem LaneOpcode.wat_mem (opcode : LaneOpcode) : opcode.wat ∈ table.map (·.2) :=
  List.mem_map_of_mem (nameIn_mem opcode.mem_table)

theorem MemoryOpcode.wat_mem (opcode : MemoryOpcode) : opcode.wat ∈ table.map (·.2) :=
  List.mem_map_of_mem (nameIn_mem opcode.mem_table)

theorem SimpleOpcode.wat_mem (opcode : SimpleOpcode) : opcode.wat ∈ table.map (·.2) :=
  List.mem_map_of_mem (nameIn_mem opcode.mem_table)

theorem memoryNames_nodup :
    (instructionKeywords ++ LaneOpcode.table.map (·.2) ++ MemoryOpcode.table.map (·.2)).Nodup :=
  List.Nodup.of_append_left instructionNames_nodup

theorem laneNames_nodup : (instructionKeywords ++ LaneOpcode.table.map (·.2)).Nodup :=
  List.Nodup.of_append_left memoryNames_nodup

theorem LaneOpcode.parse_wat (opcode : LaneOpcode) : parse opcode.wat = some opcode :=
  namedIn_nameIn (List.Nodup.of_append_right laneNames_nodup) opcode.mem_table

theorem LaneOpcode.wat_notMem (opcode : LaneOpcode) : opcode.wat ∉ instructionKeywords :=
  notMem_left laneNames_nodup opcode.wat_mem

theorem MemoryOpcode.parse_wat (opcode : MemoryOpcode) :
    parse opcode.wat = some (opcode, opcode.isStore) := by
  have hnamed : namedIn table opcode.wat = some opcode :=
    namedIn_nameIn (List.Nodup.of_append_right memoryNames_nodup) opcode.mem_table
  rw [parse, hnamed]
  rfl

theorem MemoryOpcode.wat_notMem (opcode : MemoryOpcode) : opcode.wat ∉ instructionKeywords :=
  fun h ↦ notMem_left memoryNames_nodup opcode.wat_mem (List.mem_append_left _ h)

theorem MemoryOpcode.lane_parse (opcode : MemoryOpcode) : LaneOpcode.parse opcode.wat = none :=
  namedIn_eq_none fun h ↦
    notMem_left memoryNames_nodup opcode.wat_mem (List.mem_append_right _ h)

theorem SimpleOpcode.parse_wat (opcode : SimpleOpcode) : parse opcode.wat = some opcode :=
  namedIn_nameIn (List.Nodup.of_append_right instructionNames_nodup) opcode.mem_table

theorem SimpleOpcode.wat_notMem (opcode : SimpleOpcode) : opcode.wat ∉ instructionKeywords :=
  fun h ↦ notMem_left instructionNames_nodup opcode.wat_mem
    (List.mem_append_left _ (List.mem_append_left _ h))

theorem SimpleOpcode.lane_parse (opcode : SimpleOpcode) : LaneOpcode.parse opcode.wat = none :=
  namedIn_eq_none fun h ↦ notMem_left instructionNames_nodup opcode.wat_mem
    (List.mem_append_left _ (List.mem_append_right _ h))

theorem SimpleOpcode.memory_parse (opcode : SimpleOpcode) :
    MemoryOpcode.parse opcode.wat = none := by
  have hnamed : namedIn MemoryOpcode.table opcode.wat = none := namedIn_eq_none fun h ↦
    notMem_left instructionNames_nodup opcode.wat_mem (List.mem_append_right _ h)
  rw [MemoryOpcode.parse, hnamed]
  rfl

end CalcKernel
