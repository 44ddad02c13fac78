import CalcKernel.Backend.Wasm.Bulk

/-!
# The guard in front of a loop

The guard computes in 64 bits with what the loop computes in 32.  It copies or fills only
where no address of the loop wraps and none lies behind the memory; otherwise it changes
its own locals only.
-/

namespace CalcKernel

open Lib

theorem wasmBool_and (p q : Bool) : wasmBool p &&& wasmBool q = wasmBool (p && q) := by
  cases p <;> cases q <;> rfl

theorem wasmBool_or (p q : Bool) : wasmBool p ||| wasmBool q = wasmBool (p || q) := by
  cases p <;> cases q <;> rfl

theorem wasmBool_eq_zero {p : Bool} : wasmBool p = 0#32 ↔ p = false := by
  cases p <;> decide

theorem Lib.WasmCode.ofOps_append {L : Type} (l l' : List (WasmOp L)) (code : WasmCode L) :
    WasmCode.ofOps (l ++ l') code = .ofOps l (.ofOps l' code) := by
  induction l with
  | nil => rfl
  | cons o l ih => rw [List.cons_append, WasmCode.ofOps, WasmCode.ofOps, ih]

/-! ## What the guard computes -/

/-- Where an element of an array would be if addresses did not wrap. -/
def wideAddress (pointer index : BitVec 32) : BitVec 64 :=
  pointer.setWidth 64 + index.setWidth 64 * 4#64

def wideLength (start stop : BitVec 32) : BitVec 64 :=
  (stop.setWidth 64 - start.setWidth 64) * 4#64

def wideSize (m : LinearMemory) : BitVec 64 :=
  (BitVec.ofNat 32 m.pages).setWidth 64 * 65536#64

theorem toNat_wideAddress (pointer index : BitVec 32) :
    (wideAddress pointer index).toNat = pointer.toNat + 4 * index.toNat := by
  have h := pointer.isLt
  have h' := index.isLt
  rw [wideAddress, BitVec.toNat_add, BitVec.toNat_mul, BitVec.toNat_setWidth,
    BitVec.toNat_setWidth, BitVec.toNat_ofNat]
  omega

theorem toNat_wideLength {start stop : BitVec 32} (h : start.toNat ≤ stop.toNat) :
    (wideLength start stop).toNat = 4 * (stop.toNat - start.toNat) := by
  have h' := stop.isLt
  rw [wideLength, BitVec.toNat_mul, BitVec.toNat_sub, BitVec.toNat_setWidth,
    BitVec.toNat_setWidth, BitVec.toNat_ofNat]
  omega

theorem toNat_wideSize (m : LinearMemory) : (wideSize m).toNat = m.size := by
  have h := m.pages_le
  rw [wideSize, BitVec.toNat_mul, BitVec.toNat_setWidth, BitVec.toNat_ofNat,
    BitVec.toNat_ofNat, LinearMemory.size]
  omega

/-- A range starts and ends in 32 bits and ends in the memory. -/
def rangeInBounds (m : LinearMemory) (start stop : BitVec 64) : Bool :=
  start.ule 4294967295#64 && stop.ule 4294967296#64 && stop.ule (wideSize m)

section Parts

variable {locals : WasmLocals} {m : LinearMemory} {code : WasmCode WasmLocal}
  {stack : List WasmValue}

theorem exec_rangeStart {pointer start : ValueId} {target : WasmLocal} {p a : BitVec 32}
    (hp : locals (.value pointer) = .i32 p) (ha : locals (.value start) = .i32 a) :
    (WasmCode.ofOps (emitBulkRangeStart pointer start 4 target) code).exec ⟨locals, stack, m⟩ =
      code.exec ⟨Function.update locals target (.i64 (wideAddress p a)), stack, m⟩ := by
  simp only [emitBulkRangeStart, WasmCode.ofOps, WasmCode.exec, WasmOp.step, hp, ha,
    WasmBinary.eval]
  rfl

theorem exec_rangeEnd {rangeStart rangeEnd : WasmLocal} {x l : BitVec 64}
    (hx : locals rangeStart = .i64 x) (hl : locals .bulkLength = .i64 l) :
    (WasmCode.ofOps (emitBulkRangeEnd rangeStart rangeEnd) code).exec ⟨locals, stack, m⟩ =
      code.exec ⟨Function.update locals rangeEnd (.i64 (x + l)), stack, m⟩ := by
  simp only [emitBulkRangeEnd, WasmCode.ofOps, WasmCode.exec, WasmOp.step, hx, hl,
    WasmBinary.eval]

theorem exec_rangeIsInBounds {rangeStart rangeEnd : WasmLocal} {x y : BitVec 64}
    (hx : locals rangeStart = .i64 x) (hy : locals rangeEnd = .i64 y)
    (hsize : locals .bulkMemoryEnd = .i64 (wideSize m)) :
    (WasmCode.ofOps (emitBulkRangeIsInBounds rangeStart rangeEnd) code).exec ⟨locals, stack, m⟩ =
      code.exec ⟨locals, .i32 (wasmBool (rangeInBounds m x y)) :: stack, m⟩ := by
  simp only [emitBulkRangeIsInBounds, WasmCode.ofOps, WasmCode.exec, WasmOp.step, hx, hy, hsize,
    WasmBinary.eval, WasmCompare.eval, wasmBool_and, rangeInBounds]

/-- The last check of a copy: the ranges are apart. -/
theorem exec_rangesApart {p q : Bool} {x y u v : BitVec 64}
    (hx : locals .bulkDestinationStart = .i64 x) (hy : locals .bulkDestinationEnd = .i64 y)
    (hu : locals .bulkSourceStart = .i64 u) (hv : locals .bulkSourceEnd = .i64 v) :
    (WasmCode.ofOps [.i32Binary .and, .localGet .bulkSourceEnd, .localGet .bulkDestinationStart,
        .i64Compare .leU, .localGet .bulkDestinationEnd, .localGet .bulkSourceStart,
        .i64Compare .leU, .i32Binary .or, .i32Binary .and] code).exec
          ⟨locals, .i32 (wasmBool q) :: .i32 (wasmBool p) :: stack, m⟩ =
      code.exec ⟨locals, .i32 (wasmBool (p && q && (v.ule x || y.ule u))) :: stack, m⟩ := by
  simp only [WasmCode.ofOps, WasmCode.exec, WasmOp.step, hx, hy, hu, hv, WasmBinary.eval,
    WasmCompare.eval, wasmBool_and, wasmBool_or]

theorem exec_memoryEnd :
    (WasmCode.ofOps [.memorySize, .i64ExtendI32U, .i64Const 65536#64, .i64Binary .mul,
        .localSet .bulkMemoryEnd] code).exec ⟨locals, stack, m⟩ =
      code.exec ⟨Function.update locals .bulkMemoryEnd (.i64 (wideSize m)), stack, m⟩ := rfl

theorem exec_if {body rest : WasmCode WasmLocal} {b : Bool} :
    (WasmCode.ifThen body rest).exec ⟨locals, .i32 (wasmBool b) :: stack, m⟩ =
      if b then
        match body.exec ⟨locals, [], m⟩ with
        | some (.next s') => rest.exec { s' with stack := stack }
        | some (.ended e) => some (.ended e)
        | none => none
      else rest.exec ⟨locals, stack, m⟩ := by
  cases b with
  | false => rfl
  | true =>
      have hone : wasmBool true ≠ 0#32 := by decide
      rw [WasmCode.exec, if_pos rfl]
      dsimp only
      rw [if_neg hone]
      cases body.exec ⟨locals, [], m⟩ with
      | none => rfl
      | some out => cases out <;> rfl

/-- The entry of the guard: at least as many elements as are worth it. -/
theorem exec_guardEntry {start stop : ValueId} {a b : BitVec 32}
    (ha : locals (.value start) = .i32 a) (hb : locals (.value stop) = .i32 b) :
    (WasmCode.ofOps [.localGet (.value stop), .localGet (.value start), .i32Compare .gtU,
        .localGet (.value stop), .localGet (.value start), .i32Binary .sub,
        .i32Const minBulkElements, .i32Compare .geU, .i32Binary .and] code).exec
          ⟨locals, stack, m⟩ =
      code.exec ⟨locals, .i32 (wasmBool (a.ult b && minBulkElements.ule (b - a))) :: stack, m⟩ := by
  simp only [WasmCode.ofOps, WasmCode.exec, WasmOp.step, ha, hb, WasmBinary.eval,
    WasmCompare.eval, wasmBool_and]

theorem exec_guardLength {start stop : ValueId} {a b : BitVec 32}
    (ha : locals (.value start) = .i32 a) (hb : locals (.value stop) = .i32 b) :
    (WasmCode.ofOps [.localGet (.value stop), .i64ExtendI32U, .localGet (.value start),
        .i64ExtendI32U, .i64Binary .sub, .i64Const (BitVec.ofNat 64 4), .i64Binary .mul,
        .localTee .bulkLength, .i64Const 4294967295#64, .i64Compare .leU] code).exec
          ⟨locals, stack, m⟩ =
      code.exec ⟨Function.update locals .bulkLength (.i64 (wideLength a b)),
        .i32 (wasmBool ((wideLength a b).ule 4294967295#64)) :: stack, m⟩ := by
  simp only [WasmCode.ofOps, WasmCode.exec, WasmOp.step, ha, hb, WasmBinary.eval,
    WasmCompare.eval]
  rfl

end Parts

/-! ## The whole guard -/

/-- The guard has changed its own locals only. -/
def FallsThrough (locals : WasmLocals) (m : LinearMemory) (out : WasmOutcome WasmLocal) : Prop :=
  ∃ locals' : WasmLocals, out = .next ⟨locals', [], m⟩ ∧
    ∀ v, locals' (.value v) = locals (.value v)

section Guard

theorem update_own {locals : WasmLocals} {target : WasmLocal} {x : WasmValue}
    (h : ∀ v, WasmLocal.value v ≠ target) (v : ValueId) :
    Function.update locals target x (.value v) = locals (.value v) :=
  Function.update_of_ne (h v) _ _

variable {c : CheckedWasmBulkMemory} {locals : WasmLocals} {m : LinearMemory}
  {d a b : BitVec 32}

/-- What is checked last, and then done. -/
def CheckedWasmBulkMemory.emitRanges (c : CheckedWasmBulkMemory) : WasmCode WasmLocal :=
  .ofOps (emitBulkRangeStart c.destination c.start c.elementBytes .bulkDestinationStart ++
      emitBulkRangeEnd .bulkDestinationStart .bulkDestinationEnd ++ c.emitSourceRange ++
      [.memorySize, .i64ExtendI32U, .i64Const 65536#64, .i64Binary .mul,
        .localSet .bulkMemoryEnd] ++
      emitBulkRangeIsInBounds .bulkDestinationStart .bulkDestinationEnd ++ c.emitSourceCheck) <|
    .ifThen c.emitBulkOperation .done

/-- The guard falls through, or does what its ranges do. -/
theorem guard_cases (hbytes : c.elementBytes = 4) (ha : locals (.value c.start) = .i32 a)
    (hb : locals (.value c.stop) = .i32 b) :
    (∃ out, c.emitBulkMemoryGuard.exec ⟨locals, [], m⟩ = some out ∧ FallsThrough locals m out) ∨
      (a.toNat < b.toNat ∧ 4 * (b.toNat - a.toNat) ≤ 4294967295 ∧
        c.emitBulkMemoryGuard.exec ⟨locals, [], m⟩ =
          match c.emitRanges.exec
            ⟨Function.update locals .bulkLength (.i64 (wideLength a b)), [], m⟩ with
          | some (.next s) => some (.next { s with stack := [] })
          | some (.ended e) => some (.ended e)
          | none => none) := by
  have hguard : c.emitBulkMemoryGuard = .ofOps [.localGet (.value c.stop),
      .localGet (.value c.start), .i32Compare .gtU, .localGet (.value c.stop),
      .localGet (.value c.start), .i32Binary .sub, .i32Const minBulkElements, .i32Compare .geU,
      .i32Binary .and] (.ifThen (.ofOps [.localGet (.value c.stop), .i64ExtendI32U,
        .localGet (.value c.start), .i64ExtendI32U, .i64Binary .sub, .i64Const (BitVec.ofNat 64 4),
        .i64Binary .mul, .localTee .bulkLength, .i64Const 4294967295#64, .i64Compare .leU]
          (.ifThen c.emitRanges .done)) .done) := by
    rw [CheckedWasmBulkMemory.emitBulkMemoryGuard, CheckedWasmBulkMemory.emitRanges, hbytes]
  rw [hguard, exec_guardEntry ha hb, exec_if, exec_guardLength ha hb, exec_if]
  cases hcount : a.ult b && minBulkElements.ule (b - a) with
  | false => exact .inl ⟨_, rfl, locals, rfl, fun _ ↦ rfl⟩
  | true =>
      rw [if_pos rfl]
      cases hlength : (wideLength a b).ule 4294967295#64 with
      | false =>
          refine .inl ⟨_, rfl, _, rfl, fun v ↦ ?_⟩
          dsimp only
          exact update_own (fun _ h ↦ WasmLocal.noConfusion h) v
      | true =>
          rw [if_pos rfl]
          have hlt : a.toNat < b.toNat := by
            rw [Bool.and_eq_true, BitVec.ult, decide_eq_true_eq] at hcount
            exact hcount.1
          refine .inr ⟨hlt, ?_, ?_⟩
          · rw [BitVec.ule, decide_eq_true_eq, toNat_wideLength hlt.le] at hlength
            exact hlength
          · cases c.emitRanges.exec ⟨Function.update locals .bulkLength (.i64 (wideLength a b)), [],
                m⟩ with
            | none => rfl
            | some out => cases out <;> rfl

/-- The locals once the ranges of the destination and the memory are known. -/
def rangeLocals (locals : WasmLocals) (m : LinearMemory) (d a b : BitVec 32) : WasmLocals :=
  Function.update (Function.update (Function.update locals .bulkDestinationStart
    (.i64 (wideAddress d a))) .bulkDestinationEnd (.i64 (wideAddress d a + wideLength a b)))
    .bulkMemoryEnd (.i64 (wideSize m))

/-- The bounds that a passed check stands for. -/
theorem bounds_of_check {p : BitVec 32} (hlt : a.toNat < b.toNat)
    (h : rangeInBounds m (wideAddress p a) (wideAddress p a + wideLength a b) = true) :
    p.toNat + 4 * a.toNat ≤ 4294967295 ∧ p.toNat + 4 * b.toNat ≤ 4294967296 ∧
      p.toNat + 4 * b.toNat ≤ m.size ∧
        (wideAddress p a + wideLength a b).toNat = p.toNat + 4 * b.toNat := by
  have hstart := toNat_wideAddress p a
  have hlength := toNat_wideLength hlt.le
  have hp := p.isLt
  have hb := b.isLt
  have hstop : (wideAddress p a + wideLength a b).toNat = p.toNat + 4 * b.toNat := by
    rw [BitVec.toNat_add, hstart, hlength]
    omega
  simp only [rangeInBounds, BitVec.ule, Bool.and_eq_true, decide_eq_true_eq, hstart, hstop,
    toNat_wideSize, BitVec.toNat_ofNat] at h
  exact ⟨by omega, by omega, h.2, hstop⟩

theorem toNat_wrapAddress {p : BitVec 32} (h : p.toNat + 4 * a.toNat ≤ 4294967295) :
    ((wideAddress p a).setWidth 32).toNat = p.toNat + 4 * a.toNat := by
  rw [BitVec.toNat_setWidth, toNat_wideAddress]
  omega

theorem toNat_wrapLength (hlt : a.toNat < b.toNat)
    (h : 4 * (b.toNat - a.toNat) ≤ 4294967295) :
    ((wideLength a b).setWidth 32).toNat = 4 * (b.toNat - a.toNat) := by
  rw [BitVec.toNat_setWidth, toNat_wideLength hlt.le]
  omega

/-- The ranges of a fill. -/
theorem ranges_fill {byte : BitVec 8} {w : BitVec 32} (hkind : c.kind = .fill byte)
    (hsource : c.source = none) (hbytes : c.elementBytes = 4)
    (hd : locals (.value c.destination) = .i32 d) (ha : locals (.value c.start) = .i32 a)
    (hlt : a.toNat < b.toNat) (hlength : 4 * (b.toNat - a.toNat) ≤ 4294967295)
    (hw : w = LinearMemory.wordOf byte byte byte byte)
    (hl : locals .bulkLength = .i64 (wideLength a b)) :
    ∃ out, c.emitRanges.exec ⟨locals, [], m⟩ = some out ∧ (FallsThrough locals m out ∨
      out = .ended (LinearMemory.storeWords (fun _ _ ↦ some w) d (b.toNat - a.toNat) a m)) := by
  have hexec : c.emitRanges.exec ⟨locals, [], m⟩ =
      (WasmCode.ifThen c.emitBulkOperation .done).exec ⟨rangeLocals locals m d a b,
        [.i32 (wasmBool (rangeInBounds m (wideAddress d a) (wideAddress d a + wideLength a b)))],
        m⟩ := by
    unfold CheckedWasmBulkMemory.emitRanges CheckedWasmBulkMemory.emitSourceRange
      CheckedWasmBulkMemory.emitSourceCheck
    rw [hsource, hbytes]
    dsimp only
    rw [List.append_nil, List.append_nil, WasmCode.ofOps_append, WasmCode.ofOps_append,
      WasmCode.ofOps_append, exec_rangeStart hd ha,
      exec_rangeEnd (x := wideAddress d a) (l := wideLength a b) (by simp)
        (by simp [hl]), exec_memoryEnd,
      exec_rangeIsInBounds (x := wideAddress d a) (y := wideAddress d a + wideLength a b)
        (by simp) (by simp)
        (by simp)]
    rfl
  have hsame : ∀ v, rangeLocals locals m d a b (.value v) = locals (.value v) := fun v ↦ by
    simp [rangeLocals]
  rw [hexec, exec_if]
  cases hcheck : rangeInBounds m (wideAddress d a) (wideAddress d a + wideLength a b) with
  | false => exact ⟨_, rfl, .inl ⟨_, rfl, hsame⟩⟩
  | true =>
      obtain ⟨hstart, hstop, hsize, -⟩ := bounds_of_check hlt hcheck
      have hcount : a.toNat + (b.toNat - a.toNat) = b.toNat := by omega
      obtain ⟨m', hfill, hloop⟩ : ∃ m',
          m.fill (d.toNat + 4 * a.toNat) byte (4 * (b.toNat - a.toNat)) = some m' ∧
            LinearMemory.storeWords (fun _ _ ↦ some w) d (b.toNat - a.toNat) a m = .returned m' :=
        LinearMemory.fillWords_eq _ hw (by rw [hcount]; exact hstop) (by rw [hcount]; exact hsize)
      refine ⟨.ended (.returned m'), ?_, .inr (by rw [hloop])⟩
      have hbyte : LinearMemory.byteOf (byte.setWidth 32) 0 = byte := by
        apply BitVec.eq_of_toNat_eq
        rw [LinearMemory.byteOf, BitVec.toNat_ofNat, BitVec.toNat_setWidth]
        have := byte.isLt
        omega
      have hoperation : c.emitBulkOperation.exec ⟨rangeLocals locals m d a b, [], m⟩ =
          some (.ended (.returned m')) := by
        unfold CheckedWasmBulkMemory.emitBulkOperation
        rw [hkind]
        simp only [WasmCode.ofOps, WasmCode.exec, WasmOp.step, rangeLocals, Function.update_apply,
          reduceCtorEq, if_false, if_true, hl, toNat_wrapAddress hstart,
          toNat_wrapLength hlt hlength, hbyte, hfill, WasmState.withMemory]
      rw [if_pos rfl, hoperation]

/-- The locals once the ranges of both arrays are known. -/
def copyLocals (locals : WasmLocals) (m : LinearMemory) (d s a b : BitVec 32) : WasmLocals :=
  Function.update (Function.update (Function.update (Function.update (Function.update locals
    .bulkDestinationStart (.i64 (wideAddress d a)))
    .bulkDestinationEnd (.i64 (wideAddress d a + wideLength a b)))
    .bulkSourceStart (.i64 (wideAddress s a)))
    .bulkSourceEnd (.i64 (wideAddress s a + wideLength a b)))
    .bulkMemoryEnd (.i64 (wideSize m))

/-- Both ranges are in bounds, and apart. -/
def copyCheck (m : LinearMemory) (d s a b : BitVec 32) : Bool :=
  rangeInBounds m (wideAddress d a) (wideAddress d a + wideLength a b) &&
    rangeInBounds m (wideAddress s a) (wideAddress s a + wideLength a b) &&
      ((wideAddress s a + wideLength a b).ule (wideAddress d a) ||
        (wideAddress d a + wideLength a b).ule (wideAddress s a))

/-- The ranges of a copy. -/
theorem ranges_copy {source : ValueId} {s : BitVec 32} (hkind : c.kind = .copy)
    (hsource : c.source = some source) (hbytes : c.elementBytes = 4)
    (hd : locals (.value c.destination) = .i32 d) (hs : locals (.value source) = .i32 s)
    (ha : locals (.value c.start) = .i32 a) (hlt : a.toNat < b.toNat)
    (hlength : 4 * (b.toNat - a.toNat) ≤ 4294967295)
    (hl : locals .bulkLength = .i64 (wideLength a b)) :
    ∃ out, c.emitRanges.exec ⟨locals, [], m⟩ = some out ∧ (FallsThrough locals m out ∨
      out = .ended (LinearMemory.storeWords (fun m j ↦ m.load32 (s + j * 4#32).toNat) d
        (b.toNat - a.toNat) a m)) := by
  have hexec : c.emitRanges.exec ⟨locals, [], m⟩ =
      (WasmCode.ifThen c.emitBulkOperation .done).exec ⟨copyLocals locals m d s a b,
        [.i32 (wasmBool (copyCheck m d s a b))], m⟩ := by
    unfold CheckedWasmBulkMemory.emitRanges CheckedWasmBulkMemory.emitSourceRange
      CheckedWasmBulkMemory.emitSourceCheck
    rw [hsource, hbytes]
    dsimp only
    rw [WasmCode.ofOps_append, WasmCode.ofOps_append, WasmCode.ofOps_append, WasmCode.ofOps_append,
      WasmCode.ofOps_append, WasmCode.ofOps_append, WasmCode.ofOps_append, exec_rangeStart hd ha,
      exec_rangeEnd (x := wideAddress d a) (l := wideLength a b) (by simp) (by simp [hl]),
      exec_rangeStart (p := s) (a := a) (by simp [hs]) (by simp [ha]),
      exec_rangeEnd (x := wideAddress s a) (l := wideLength a b) (by simp) (by simp [hl]),
      exec_memoryEnd,
      exec_rangeIsInBounds (x := wideAddress d a) (y := wideAddress d a + wideLength a b)
        (by simp) (by simp) (by simp),
      exec_rangeIsInBounds (x := wideAddress s a) (y := wideAddress s a + wideLength a b)
        (by simp) (by simp) (by simp),
      exec_rangesApart (x := wideAddress d a) (y := wideAddress d a + wideLength a b)
        (u := wideAddress s a) (v := wideAddress s a + wideLength a b) (by simp) (by simp)
        (by simp) (by simp)]
    rfl
  have hsame : ∀ v, copyLocals locals m d s a b (.value v) = locals (.value v) := fun v ↦ by
    simp [copyLocals]
  rw [hexec, exec_if]
  cases hcheck : copyCheck m d s a b with
  | false => exact ⟨_, rfl, .inl ⟨_, rfl, hsame⟩⟩
  | true =>
      rw [copyCheck, Bool.and_eq_true, Bool.and_eq_true, Bool.or_eq_true, BitVec.ule, BitVec.ule,
        decide_eq_true_eq, decide_eq_true_eq] at hcheck
      obtain ⟨⟨hcheckDestination, hcheckSource⟩, hapart⟩ := hcheck
      obtain ⟨hstart, hstop, hsize, hend⟩ := bounds_of_check hlt hcheckDestination
      obtain ⟨hstart', hstop', hsize', hend'⟩ := bounds_of_check hlt hcheckSource
      rw [hend, hend', toNat_wideAddress, toNat_wideAddress] at hapart
      have hcount : a.toNat + (b.toNat - a.toNat) = b.toNat := by omega
      obtain ⟨m', hcopy, hloop⟩ : ∃ m', m.copy (d.toNat + 4 * a.toNat) (s.toNat + 4 * a.toNat)
            (4 * (b.toNat - a.toNat)) = some m' ∧
          LinearMemory.storeWords (fun m j ↦ m.load32 (s + j * 4#32).toNat) d
            (b.toNat - a.toNat) a m = .returned m' :=
        LinearMemory.copyWords_eq _ (by rw [hcount]; exact hstop) (by rw [hcount]; exact hstop')
          (by rw [hcount]; exact hsize) (by rw [hcount]; exact hsize')
          (by rw [hcount]; exact hapart)
      refine ⟨.ended (.returned m'), ?_, .inr (by rw [hloop])⟩
      have hoperation : c.emitBulkOperation.exec ⟨copyLocals locals m d s a b, [], m⟩ =
          some (.ended (.returned m')) := by
        unfold CheckedWasmBulkMemory.emitBulkOperation
        rw [hkind]
        simp only [WasmCode.ofOps, WasmCode.exec, WasmOp.step, copyLocals, Function.update_apply,
          reduceCtorEq, if_false, if_true, hl, toNat_wrapAddress hstart, toNat_wrapAddress hstart',
          toNat_wrapLength hlt hlength, hcopy, WasmState.withMemory]
      rw [if_pos rfl, hoperation]

end Guard

end CalcKernel
