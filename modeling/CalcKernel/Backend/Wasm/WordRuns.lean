import CalcKernel.Backend.Wasm.Words

/-!
# Running emitted words

What the code of single instructions does, and what an edge leaves in the locals.
-/

namespace CalcKernel

open Lib

/-! ## Locals -/

/-- The locals of the values hold the words. -/
def WasmLocals.Hold (locals : WasmLocals) (values : List ValueId) (words : List (BitVec 32)) :
    Prop :=
  List.Forall₂ (fun v x ↦ locals (.value v) = .i32 x) values words

namespace WasmLocals

variable {locals locals' : WasmLocals} {values : List ValueId} {words : List (BitVec 32)}

theorem setAll_of_notMem {l : List (ValueId × WasmValue)} {target : WasmLocal}
    (h : ∀ p ∈ l, target ≠ .value p.1) : locals.setAll l target = locals target := by
  induction l generalizing locals with
  | nil => rfl
  | cons p l ih =>
      rw [setAll, ih fun q hq ↦ h q (List.mem_cons_of_mem _ hq)]
      exact Function.update_of_ne (h p List.mem_cons_self) _ _

theorem setAll_value_of_notMem {xs : List WasmValue} {v : ValueId} (h : v ∉ values) :
    locals.setAll (values.zip xs) (.value v) = locals (.value v) := by
  refine setAll_of_notMem fun p hp heq ↦ h ?_
  rw [WasmLocal.value.inj heq]
  exact (List.of_mem_zip hp).1

theorem setAll_hold (hnodup : values.Nodup) (hlength : values.length = words.length) :
    (locals.setAll (values.zip (words.map .i32))).Hold values words := by
  induction values generalizing locals words with
  | nil =>
      rw [List.eq_nil_of_length_eq_zero hlength.symm]
      exact .nil
  | cons v values ih =>
      cases words with
      | nil => cases hlength
      | cons x words =>
          obtain ⟨hv, hnodup⟩ := List.nodup_cons.mp hnodup
          refine .cons ?_ (ih hnodup (Nat.succ.inj hlength))
          rw [List.map_cons, List.zip_cons_cons, setAll, setAll_value_of_notMem hv]
          exact Function.update_self _ _ _

theorem Hold.map_eq (h : locals.Hold values words) :
    values.map (fun v ↦ locals (.value v)) = words.map .i32 := by
  induction h with
  | nil => rfl
  | cons hv _ ih => rw [List.map_cons, List.map_cons, hv, ih]

theorem Hold.get (h : locals.Hold values words) {k : Nat} {v : ValueId} {x : BitVec 32}
    (hv : values[k]? = some v) (hx : words[k]? = some x) : locals (.value v) = .i32 x := by
  obtain ⟨hlt, rfl⟩ := List.getElem?_eq_some_iff.mp hv
  obtain ⟨hlt', rfl⟩ := List.getElem?_eq_some_iff.mp hx
  exact (List.forall₂_iff_get.mp h).2 k hlt hlt'

theorem Hold.exists_word (h : locals.Hold values words) {k : Nat} {v : ValueId}
    (hv : values[k]? = some v) : ∃ x, words[k]? = some x := by
  obtain ⟨hlt, -⟩ := List.getElem?_eq_some_iff.mp hv
  exact ⟨_, List.getElem?_eq_getElem (List.Forall₂.length_eq h ▸ hlt)⟩

theorem Hold.congr (h : locals.Hold values words)
    (heq : ∀ v ∈ values, locals' (.value v) = locals (.value v)) : locals'.Hold values words := by
  refine List.forall₂_iff_get.mpr ⟨List.Forall₂.length_eq h, fun k hk hk' ↦ ?_⟩
  rw [heq _ (List.get_mem values ⟨k, hk⟩)]
  exact (List.forall₂_iff_get.mp h).2 k hk hk'

/-- One value replaced by another one. -/
theorem Hold.set (h : locals.Hold values words) {v : ValueId} {x : BitVec 32}
    (hv : locals (.value v) = .i32 x) (k : Nat) :
    locals.Hold (values.set k v) (words.set k x) := by
  induction h generalizing k with
  | nil => exact .nil
  | cons hw h ih =>
      cases k with
      | zero => exact .cons hv h
      | succ k => exact .cons hw (ih k)

end WasmLocals

namespace KirFunction

variable {f : KirFunction} {layout : WasmStructLayout} {i : KirInstruction}
  {rest : List KirInstruction} {locals : WasmLocals} {m : LinearMemory}
  {out : WasmOutcome WasmLocal}

/-! ## Single instructions -/

/-- The code of the instructions has an outcome. -/
def Executes (f : KirFunction) (layout : WasmStructLayout) (instructions : List KirInstruction)
    (locals : WasmLocals) (m : LinearMemory) (out : WasmOutcome WasmLocal) : Prop :=
  ∃ code, f.emitInstructions layout instructions = some code ∧
    code.exec ⟨locals, [], m⟩ = some out

def Emits (f : KirFunction) (layout : WasmStructLayout) (instructions : List KirInstruction) :
    Prop :=
  ∃ code, f.emitInstructions layout instructions = some code

theorem Executes.emits (h : f.Executes layout rest locals m out) : f.Emits layout rest :=
  h.imp fun _ h ↦ h.1

theorem Emits.nil : f.Emits layout [] := ⟨.done, rfl⟩

theorem Emits.cons {ops : List (WasmOp WasmLocal)} (hi : f.emitInstruction layout i = some ops)
    (h : f.Emits layout rest) : f.Emits layout (i :: rest) := by
  obtain ⟨code, hcode⟩ := h
  exact ⟨.ofOps ops code, by rw [emitInstructions, hi, Option.bind_some, hcode]; rfl⟩

theorem Executes.nil : f.Executes layout [] locals m (.next ⟨locals, [], m⟩) := ⟨.done, rfl, rfl⟩

/-- The code of an instruction goes on with the rest. -/
theorem Executes.cons {ops : List (WasmOp WasmLocal)} (hi : f.emitInstruction layout i = some ops)
    {locals' : WasmLocals} {m' : LinearMemory}
    (hops : ∀ code : WasmCode WasmLocal, (WasmCode.ofOps ops code).exec ⟨locals, [], m⟩ =
      code.exec ⟨locals', [], m'⟩) (h : f.Executes layout rest locals' m' out) :
    f.Executes layout (i :: rest) locals m out := by
  obtain ⟨code, hcode, hexec⟩ := h
  refine ⟨.ofOps ops code, ?_, (hops code).trans hexec⟩
  rw [emitInstructions, hi, Option.bind_some, hcode]
  rfl

/-- The code of an instruction ends the call. -/
theorem Executes.ended {ops : List (WasmOp WasmLocal)} {e : MemoryEnd}
    (hi : f.emitInstruction layout i = some ops)
    (hops : ∀ code : WasmCode WasmLocal, (WasmCode.ofOps ops code).exec ⟨locals, [], m⟩ =
      some (.ended e)) (h : f.Emits layout rest) :
    f.Executes layout (i :: rest) locals m (.ended e) := by
  obtain ⟨code, hcode⟩ := h
  refine ⟨.ofOps ops code, ?_, hops code⟩
  rw [emitInstructions, hi, Option.bind_some, hcode]
  rfl

theorem emitResult_eq {r : KirResult} {type : MirType} (hr : i.results = [r])
    (htype : f.scalarType? r.value = some type) (hword : isWasmWord type = true) :
    f.emitResult i = some (.value r.value) := by
  rw [emitResult, hr, List.head?_cons, Option.bind_some, htype, Option.bind_some, if_pos hword]

theorem emit_constInt {text : String} {n : Int} {target : WasmLocal} (hkind : i.kind = .constInt text)
    (hresult : f.emitResult i = some target) (hn : parseInteger text = some n) :
    f.emitInstruction layout i = some [.i32Const (BitVec.ofInt 32 n), .localSet target] := by
  rw [emitInstruction, hkind]
  dsimp only
  rw [hresult, Option.bind_some, hn]
  rfl

theorem emit_add {l r : ValueId} {semantics : KirArithmeticSemantics} {target : WasmLocal}
    (hkind : i.kind = .binary .add l r semantics) (hresult : f.emitResult i = some target)
    (htype : f.scalarType? l = some .u32) :
    f.emitInstruction layout i = some [.localGet (.value l), .localGet (.value r),
      .i32Binary .add, .localSet target] := by
  rw [emitInstruction, hkind]
  dsimp only
  rw [hresult, Option.bind_some, htype]
  rfl

theorem emit_lt {l r : ValueId} {target : WasmLocal} (hkind : i.kind = .compare .lt l r)
    (hresult : f.emitResult i = some target) (htype : f.scalarType? l = some .u32) :
    f.emitInstruction layout i = some [.localGet (.value l), .localGet (.value r),
      .i32Compare .ltU, .localSet target] := by
  rw [emitInstruction, hkind]
  dsimp only
  rw [hresult, Option.bind_some, htype]
  rfl

/-- The address of an element of an array of words. -/
def elementAddress (pointer index : ValueId) : List (WasmOp WasmLocal) :=
  [.localGet (.value pointer), .localGet (.value index), .i32Const 4#32, .i32Binary .mul,
    .i32Binary .add]

theorem emitAddress_element {pointer index : ValueId} {element type : MirType}
    {region region' : MemoryRegionId} (hsize : layout.sizeOf element = some 4) :
    emitAddress layout (.index (.value pointer (.pointer element) region) index type region') =
      some (elementAddress pointer index) := by
  rw [emitAddress]
  dsimp only [KirPlace.typeNode]
  rw [emitAddress, Option.bind_some, hsize]
  rfl

theorem emit_load {place : KirPlace} {pointer index : ValueId} {target : WasmLocal}
    (hkind : i.kind = .load place) (hresult : f.emitResult i = some target)
    (haddress : emitAddress layout place = some (elementAddress pointer index)) :
    f.emitInstruction layout i =
      some (elementAddress pointer index ++ [.i32Load, .localSet target]) := by
  rw [emitInstruction, hkind]
  dsimp only
  rw [hresult, Option.bind_some, haddress]
  rfl

theorem emit_store {place : KirPlace} {pointer index v : ValueId} {type : MirType}
    (hkind : i.kind = .store place v) (htype : f.scalarType? v = some type)
    (hword : isWasmWord type = true)
    (haddress : emitAddress layout place = some (elementAddress pointer index)) :
    f.emitInstruction layout i =
      some (elementAddress pointer index ++ [.localGet (.value v), .i32Store]) := by
  rw [emitInstruction, hkind]
  dsimp only
  rw [htype, Option.bind_some, if_pos hword, haddress]
  rfl

section Exec

variable {code : WasmCode WasmLocal} {a j w x y : BitVec 32} {l r v pointer index : ValueId}
  {target : WasmLocal}

theorem exec_constInt :
    (WasmCode.ofOps [.i32Const w, .localSet target] code).exec ⟨locals, [], m⟩ =
      code.exec ⟨Function.update locals target (.i32 w), [], m⟩ := rfl

theorem exec_add (hl : locals (.value l) = .i32 x) (hr : locals (.value r) = .i32 y) :
    (WasmCode.ofOps [.localGet (.value l), .localGet (.value r), .i32Binary .add,
        .localSet target] code).exec ⟨locals, [], m⟩ =
      code.exec ⟨Function.update locals target (.i32 (x + y)), [], m⟩ := by
  simp only [WasmCode.ofOps, WasmCode.exec, WasmOp.step, hl, hr, WasmBinary.eval]

theorem exec_lt (hl : locals (.value l) = .i32 x) (hr : locals (.value r) = .i32 y) :
    (WasmCode.ofOps [.localGet (.value l), .localGet (.value r), .i32Compare .ltU,
        .localSet target] code).exec ⟨locals, [], m⟩ =
      code.exec ⟨Function.update locals target (.i32 (wasmBool (x.ult y))), [], m⟩ := by
  simp only [WasmCode.ofOps, WasmCode.exec, WasmOp.step, hl, hr, WasmCompare.eval]

theorem exec_elementAddress (hpointer : locals (.value pointer) = .i32 a)
    (hindex : locals (.value index) = .i32 j) (ops : List (WasmOp WasmLocal)) :
    (WasmCode.ofOps (elementAddress pointer index ++ ops) code).exec ⟨locals, [], m⟩ =
      (WasmCode.ofOps ops code).exec ⟨locals, [.i32 (a + j * 4#32)], m⟩ := by
  simp only [elementAddress, List.cons_append, List.nil_append, WasmCode.ofOps, WasmCode.exec,
    WasmOp.step, hpointer, hindex, WasmBinary.eval]

theorem exec_load (hpointer : locals (.value pointer) = .i32 a)
    (hindex : locals (.value index) = .i32 j) :
    (WasmCode.ofOps (elementAddress pointer index ++ [.i32Load, .localSet target])
        code).exec ⟨locals, [], m⟩ =
      match m.load32 (a + j * 4#32).toNat with
      | some w => code.exec ⟨Function.update locals target (.i32 w), [], m⟩
      | none => some (.ended (.trapped m)) := by
  rw [exec_elementAddress hpointer hindex]
  cases hload : m.load32 (a + j * 4#32).toNat with
  | none => exact WasmCode.exec_ended (WasmOp.step_load_traps rfl hload)
  | some w =>
      have hstep := WasmOp.step_load (s := ⟨locals, [.i32 (a + j * 4#32)], m⟩) rfl hload
      exact (WasmCode.exec_next hstep).trans rfl

theorem exec_store (hpointer : locals (.value pointer) = .i32 a)
    (hindex : locals (.value index) = .i32 j) (hv : locals (.value v) = .i32 w) :
    (WasmCode.ofOps (elementAddress pointer index ++ [.localGet (.value v), .i32Store])
        code).exec ⟨locals, [], m⟩ =
      match m.store32 (a + j * 4#32).toNat w with
      | some m' => code.exec ⟨locals, [], m'⟩
      | none => some (.ended (.trapped m)) := by
  have hpushed : WasmOp.step ⟨locals, [.i32 (a + j * 4#32)], m⟩ (.localGet (.value v)) =
      some (.next ⟨locals, [.i32 w, .i32 (a + j * 4#32)], m⟩) := by
    simp only [WasmOp.step, hv]
  rw [exec_elementAddress hpointer hindex, WasmCode.ofOps, WasmCode.exec_next hpushed]
  have hstep := WasmOp.step_store (s := ⟨locals, [.i32 w, .i32 (a + j * 4#32)], m⟩) rfl
  cases hstore : m.store32 (a + j * 4#32).toNat w with
  | none => exact WasmCode.exec_ended (hstep.trans (by rw [hstore]; rfl))
  | some m' => exact WasmCode.exec_next (hstep.trans (by rw [hstore]; rfl))

end Exec

section Chains

variable {a j w x y : BitVec 32} {l r v pointer index : ValueId} {target : WasmLocal}
  {m' : LinearMemory}

theorem Executes.add (hi : f.emitInstruction layout i = some [.localGet (.value l),
      .localGet (.value r), .i32Binary .add, .localSet target])
    (hl : locals (.value l) = .i32 x) (hr : locals (.value r) = .i32 y)
    (h : f.Executes layout rest (Function.update locals target (.i32 (x + y))) m out) :
    f.Executes layout (i :: rest) locals m out :=
  .cons hi (fun _ ↦ exec_add hl hr) h

theorem Executes.load (hi : f.emitInstruction layout i =
      some (elementAddress pointer index ++ [.i32Load, .localSet target]))
    (hpointer : locals (.value pointer) = .i32 a) (hindex : locals (.value index) = .i32 j)
    (hload : m.load32 (a + j * 4#32).toNat = some w)
    (h : f.Executes layout rest (Function.update locals target (.i32 w)) m out) :
    f.Executes layout (i :: rest) locals m out :=
  .cons hi (fun _ ↦ (exec_load hpointer hindex).trans (by rw [hload])) h

theorem Executes.load_traps (hi : f.emitInstruction layout i =
      some (elementAddress pointer index ++ [.i32Load, .localSet target]))
    (hpointer : locals (.value pointer) = .i32 a) (hindex : locals (.value index) = .i32 j)
    (hload : m.load32 (a + j * 4#32).toNat = none) (h : f.Emits layout rest) :
    f.Executes layout (i :: rest) locals m (.ended (.trapped m)) :=
  .ended hi (fun _ ↦ (exec_load hpointer hindex).trans (by rw [hload])) h

theorem Executes.store (hi : f.emitInstruction layout i =
      some (elementAddress pointer index ++ [.localGet (.value v), .i32Store]))
    (hpointer : locals (.value pointer) = .i32 a) (hindex : locals (.value index) = .i32 j)
    (hv : locals (.value v) = .i32 w) (hstore : m.store32 (a + j * 4#32).toNat w = some m')
    (h : f.Executes layout rest locals m' out) : f.Executes layout (i :: rest) locals m out :=
  .cons hi (fun _ ↦ (exec_store hpointer hindex hv).trans (by rw [hstore])) h

theorem Executes.store_traps (hi : f.emitInstruction layout i =
      some (elementAddress pointer index ++ [.localGet (.value v), .i32Store]))
    (hpointer : locals (.value pointer) = .i32 a) (hindex : locals (.value index) = .i32 j)
    (hv : locals (.value v) = .i32 w) (hstore : m.store32 (a + j * 4#32).toNat w = none)
    (h : f.Emits layout rest) :
    f.Executes layout (i :: rest) locals m (.ended (.trapped m)) :=
  .ended hi (fun _ ↦ (exec_store hpointer hindex hv).trans (by rw [hstore])) h

end Chains

end KirFunction

end CalcKernel
