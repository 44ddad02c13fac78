import CalcKernel.Kir.Value
import CalcKernel.Lib.Machine

/-!
# Execution of KIR

A frame runs one function: it holds the block it is in, the instructions of that
block still to run, and the values defined so far.  Memory is byte addressed; how
a type is laid out belongs to the target and is a parameter.  Memory versions,
regions and effect orders are annotations and do not influence execution.
-/

namespace CalcKernel

/-- Byte-addressed memory; `none` where nothing is mapped. -/
abbrev Memory := Int → Option UInt8

/-- What a target fixes: floating point, data layout and the size of a linear memory. -/
structure TargetModel where
  floats : FloatOps
  sizeOf : MirType → Nat
  fieldOffset : (structName fieldName : String) → Nat
  encode : MirType → KirValue → Option (List UInt8)
  decode : MirType → List UInt8 → Option KirValue
  memoryBytes : Int
  encode_length : ∀ {t v bytes}, encode t v = some bytes → bytes.length = sizeOf t

namespace Memory

/-- The `n` bytes from `a` on, when all are mapped. -/
def bytesAt (m : Memory) (a : Int) : Nat → Option (List UInt8)
  | 0 => some []
  | n + 1 => (m a).bind fun b ↦ (bytesAt m (a + 1) n).map fun bs ↦ b :: bs

def writeBytes (m : Memory) (a : Int) (bytes : List UInt8) : Memory := fun x ↦
  if a ≤ x ∧ x < a + bytes.length then bytes[(x - a).toNat]? else m x

def read (t : TargetModel) (m : Memory) (a : Int) (type : MirType) : Option KirValue :=
  (m.bytesAt a (t.sizeOf type)).bind (t.decode type)

def write (t : TargetModel) (m : Memory) (a : Int) (type : MirType) (v : KirValue) :
    Option Memory :=
  (m.bytesAt a (t.sizeOf type)).bind fun _ ↦ (t.encode type v).map fun bytes ↦
    m.writeBytes a bytes

end Memory

/-! ## A target for programs without structs -/

def encodeInt (bytes : Nat) (x : Int) : List UInt8 :=
  (List.range bytes).map fun k ↦ UInt8.ofNat (x / 256 ^ k % 256).toNat

def decodeNat (bytes : List UInt8) : Nat := bytes.foldr (fun b n ↦ b.toNat + 256 * n) 0

/-- Little-endian, with eight-byte addresses; slices are a data address, a four-byte length and
padding. -/
def lp64 (floats : FloatOps) : TargetModel where
  floats := floats
  sizeOf
    | .primitive .bool => 1
    | .primitive .i32 | .primitive .u32 => 4
    | .primitive .i64 | .primitive .u64 | .primitive .f64 | .pointer _ => 8
    | .slice _ => 16
    | .struct _ | .void => 0
  fieldOffset _ _ := 0
  encode
    | .primitive .bool, .bool b => some [if b then 1 else 0]
    | .primitive .i32, .int .i32 x => some (encodeInt 4 x)
    | .primitive .u32, .int .u32 x => some (encodeInt 4 x)
    | .primitive .i64, .int .i64 x => some (encodeInt 8 x)
    | .primitive .u64, .int .u64 x => some (encodeInt 8 x)
    | .primitive .f64, .float b => some (encodeInt 8 b.toNat)
    | .pointer _, .pointer a => some (encodeInt 8 a)
    | .slice _, .slice data len => some (encodeInt 8 data ++ encodeInt 4 len ++ [0, 0, 0, 0])
    | _, _ => none
  decode
    | .primitive .bool, bytes => some (.bool (decodeNat bytes ≠ 0))
    | .primitive .i32, bytes => some (.int .i32 (IntegerType.i32.wrap (decodeNat bytes)))
    | .primitive .u32, bytes => some (.int .u32 (decodeNat bytes))
    | .primitive .i64, bytes => some (.int .i64 (IntegerType.i64.wrap (decodeNat bytes)))
    | .primitive .u64, bytes => some (.int .u64 (decodeNat bytes))
    | .primitive .f64, bytes => some (.float (BitVec.ofNat 64 (decodeNat bytes)))
    | .pointer _, bytes => some (.pointer (decodeNat bytes))
    | .slice _, bytes =>
        some (.slice (decodeNat (bytes.take 8)) (decodeNat ((bytes.drop 8).take 4)))
    | _, _ => none
  memoryBytes := 2 ^ 64
  encode_length := by
    intro t v bytes h
    split at h <;> cases h <;> simp [encodeInt]

abbrev Env := ValueId → Option KirValue

namespace Env

def empty : Env := fun _ ↦ none

def set (env : Env) (v : ValueId) (x : KirValue) : Env := Function.update env v (some x)

def setAll (env : Env) : List (ValueId × KirValue) → Env
  | [] => env
  | (v, x) :: rest => setAll (env.set v x) rest

/-- The values of a list of operands, when all are defined. -/
def getAll (env : Env) : List ValueId → Option (List KirValue)
  | [] => some []
  | v :: vs => (env v).bind fun x ↦ (getAll env vs).map fun xs ↦ x :: xs

/-- Bind an instruction's results; it must produce a value for each. -/
def bindResults (env : Env) (results : List KirResult) (values : List KirValue) : Option Env :=
  if results.length ≤ values.length then
    some (env.setAll ((results.map (·.value)).zip values))
  else none

@[simp] theorem set_same (env : Env) (v : ValueId) (x : KirValue) : env.set v x v = some x := by
  simp [set]

theorem set_of_ne (env : Env) {v w : ValueId} (h : w ≠ v) (x : KirValue) :
    env.set v x w = env w := by
  simp [set, h]

theorem setAll_of_notMem {l : List (ValueId × KirValue)} {v : ValueId}
    (h : v ∉ l.map Prod.fst) (env : Env) : env.setAll l v = env v := by
  induction l generalizing env with
  | nil => rfl
  | cons p l ih =>
      obtain ⟨w, x⟩ := p
      simp only [List.map_cons, List.mem_cons, not_or] at h
      rw [setAll, ih h.2, set_of_ne env h.1]

theorem setAll_append (env : Env) (l l' : List (ValueId × KirValue)) :
    env.setAll (l ++ l') = (env.setAll l).setAll l' := by
  induction l generalizing env with
  | nil => rfl
  | cons p l ih => exact ih (env.set p.1 p.2)

end Env

/-- Where a place stands: in memory, or inside the storage of an SSA value of struct type. -/
inductive Location where
  | memory (address : Int)
  | local (value : ValueId) (path : List String)

namespace Location

def read (t : TargetModel) (env : Env) (m : Memory) (type : MirType) : Location → Option KirValue
  | .memory a => m.read t a type
  | .local v path => (env v).bind fun x ↦ x.project path

/-- Only a field of a struct value can be assigned; an SSA value itself cannot. -/
def write (t : TargetModel) (env : Env) (m : Memory) (type : MirType) (x : KirValue) :
    Location → Option (Env × Memory)
  | .memory a => (m.write t a type x).map fun m' ↦ (env, m')
  | .local _ [] => none
  | .local v (name :: path) =>
      (env v).bind fun old ↦ (old.update (name :: path) x).map fun new ↦ (env.set v new, m)

end Location

def structName : MirType → String
  | .struct name => name
  | _ => ""

def intOperand (env : Env) (v : ValueId) : Option Int :=
  match env v with
  | some (.int _ x) => some x
  | _ => none

def boolOperand (env : Env) (v : ValueId) : Option Bool :=
  match env v with
  | some (.bool b) => some b
  | _ => none

def pointerOperand (env : Env) (v : ValueId) : Option Int :=
  match env v with
  | some (.pointer a) => some a
  | _ => none

def sliceOperand (env : Env) (v : ValueId) : Option (Int × Int) :=
  match env v with
  | some (.slice data len) => some (data, len)
  | _ => none

/-- The location a place names.  An index place loads the pointer its base holds. -/
def KirPlace.locate (t : TargetModel) (env : Env) (m : Memory) : KirPlace → Option Location
  | .value v _ _ => some (.local v [])
  | .deref p _ _ => (pointerOperand env p).map fun a ↦ .memory a
  | .index base i type _ =>
      (base.locate t env m).bind fun loc ↦
        match loc.read t env m base.typeNode with
        | some (.pointer a) =>
            (intOperand env i).map fun n ↦ .memory (a + n * t.sizeOf type)
        | _ => none
  | .sliceIndex s i type _ =>
      (sliceOperand env s).bind fun p ↦
        (intOperand env i).map fun n ↦ .memory (p.1 + n * t.sizeOf type)
  | .field base name _ _ =>
      (base.locate t env m).map fun loc ↦
        match loc with
        | .memory a => .memory (a + t.fieldOffset (structName base.typeNode) name)
        | .local v path => .local v (path ++ [name])

/-- The element size behind a slice type. -/
def elementSize (t : TargetModel) : KirValueType → Option Nat
  | .scalar (.slice element) => some (t.sizeOf element)
  | _ => none

/-! ## Vector operations, lane by lane -/

def vectorOperand (env : Env) (v : ValueId) : Option (List KirValue) :=
  match env v with
  | some (.vector lanes) => some lanes
  | _ => none

def maskOperand (env : Env) (v : ValueId) : Option (List Bool) :=
  match env v with
  | some (.mask lanes) => some lanes
  | _ => none

def lanewise {α β γ : Type} (f : α → β → Option γ) : List α → List β → Option (List γ)
  | [], [] => some []
  | a :: as, b :: bs => (f a b).bind fun c ↦ (lanewise f as bs).map fun cs ↦ c :: cs
  | _, _ => none

def KirVectorBinaryOp.scalar : KirVectorBinaryOp → MirBinaryOp
  | .add => .add
  | .subtract => .sub
  | .multiply => .mul
  | .divide => .div
  | .remainder => .mod

def KirVectorCastOp.scalar : KirVectorCastOp → MirCastOp
  | .i32ToF64 => .i32ToF64
  | .u32ToF64 => .u32ToF64

def KirLaneType.mirType : KirLaneType → MirType
  | .i32 => .i32
  | .i64 => .i64
  | .u32 => .u32
  | .u64 => .u64
  | .f64 => .f64

/-- One step of a reduction; all four are modular. -/
def KirVectorReductionOp.combine (op : KirVectorReductionOp) (a b : KirValue) : Option KirValue :=
  match a, b with
  | .int t x, .int t' y =>
      if t = t' then
        match op with
        | .modularAdd => some (.int t (t.wrap (x + y)))
        | .modularMultiply => some (.int t (t.wrap (x * y)))
        | .modularMin => some (.int t (min x y))
        | .modularMax => some (.int t (max x y))
      else none
  | _, _ => none

def reduceLanes (op : KirVectorReductionOp) : List KirValue → Option KirValue
  | [] => none
  | [a] => some a
  | a :: as => (reduceLanes op as).bind fun b ↦ op.combine a b

/-- The lanes a vector load reads, in order. -/
def readLanes (t : TargetModel) (m : Memory) (a : Int) (type : MirType) :
    Nat → Option (List KirValue)
  | 0 => some []
  | n + 1 =>
      (m.read t a type).bind fun x ↦
        (readLanes t m (a + t.sizeOf type) type n).map fun xs ↦ x :: xs

def writeLanes (t : TargetModel) (m : Memory) (a : Int) (type : MirType) :
    List KirValue → Option Memory
  | [] => some m
  | x :: xs =>
      (m.write t a type x).bind fun m' ↦ writeLanes t m' (a + t.sizeOf type) type xs

def KirVectorMemoryAccess.base (t : TargetModel) (env : Env) (access : KirVectorMemoryAccess) :
    Option Int :=
  (sliceOperand env access.slice).bind fun p ↦
    (intOperand env access.start).map fun i ↦ p.1 + i * t.sizeOf access.lane.mirType

def KirVersionPredicateConjunct.eval (t : TargetModel) (env : Env) :
    KirVersionPredicateConjunct → Option Bool
  | .tripThreshold v minimum => (intOperand env v).map fun x ↦ decide ((minimum : Int) ≤ x)
  | .addressIntervalsDisjoint left leftCount leftBytes right rightCount rightBytes =>
      (sliceOperand env left).bind fun l ↦ (intOperand env leftCount).bind fun n ↦
        (sliceOperand env right).bind fun r ↦ (intOperand env rightCount).map fun k ↦
          decide (l.1 + n * leftBytes ≤ r.1 ∨ r.1 + k * rightBytes ≤ l.1)
  | .wasmSliceRange slice start count bytes =>
      (sliceOperand env slice).bind fun s ↦ (intOperand env start).bind fun i ↦
        (intOperand env count).map fun n ↦
          decide (n = 0 ∨ (i + n ≤ s.2 ∧ s.1 + (i + n) * bytes ≤ 4294967296 ∧
            s.1 + (i + n) * bytes ≤ t.memoryBytes))

def KirVersionPredicate.eval (t : TargetModel) (env : Env) (predicate : KirVersionPredicate) :
    Option Bool :=
  (predicate.conjuncts.mapM (KirVersionPredicateConjunct.eval t env)).map fun bs ↦ bs.all id

/-- The lane count of an instruction's vector result. -/
def laneCount (i : KirInstruction) : Option Nat :=
  match i.results with
  | ⟨_, .fixedVector _ lanes⟩ :: _ => some lanes
  | _ => none

/-! ## Instructions -/

/-- The values an instruction that neither writes, fails, prints nor calls produces. -/
def evalInstruction (t : TargetModel) (env : Env) (m : Memory) (i : KirInstruction) :
    Option (List KirValue) :=
  match i.kind with
  | .undef _ => some [.undef]
  | .constInt text =>
      (i.results.head?).bind fun r ↦ (evalConstInt r.typeNode text).map fun v ↦ [v]
  | .constFloat text => (t.floats.literal text).map fun b ↦ [.float b]
  | .constBool b => some [.bool b]
  | .copy v => (env v).map fun x ↦ [x]
  | .binary op l r semantics =>
      (env l).bind fun x ↦ (env r).bind fun y ↦
        evalBinary t.floats op semantics x y i.results.length
  | .unary op v semantics =>
      (env v).bind fun x ↦ evalUnary t.floats op semantics x i.results.length
  | .compare op l r =>
      (env l).bind fun x ↦ (env r).bind fun y ↦
        (evalCompare t.floats op x y).map fun b ↦ [.bool b]
  | .cast op v => (env v).bind fun x ↦ (evalCast t.floats op x).map fun y ↦ [y]
  | .checkCondition kind args =>
      (env.getAll args).bind fun xs ↦ (evalCheck kind xs).map fun b ↦ [.bool b]
  | .address place =>
      match place.locate t env m with
      | some (.memory a) => some [.pointer a]
      | _ => none
  | .load place =>
      (place.locate t env m).bind fun loc ↦
        (loc.read t env m place.typeNode).map fun x ↦ [x]
  | .makeSlice data len =>
      (pointerOperand env data).bind fun a ↦ (intOperand env len).map fun n ↦ [.slice a n]
  | .sliceData s => (sliceOperand env s).map fun p ↦ [.pointer p.1]
  | .sliceLen s => (sliceOperand env s).map fun p ↦ [.int .u32 p.2]
  | .subslice s start stop =>
      (i.results.head?).bind fun r ↦ (elementSize t r.typeNode).bind fun size ↦
        (sliceOperand env s).bind fun p ↦ (intOperand env start).bind fun a ↦
          (intOperand env stop).map fun b ↦
            [.slice (p.1 + a * size) (IntegerType.u32.wrap (b - a))]
  | .versionPredicate predicate =>
      (predicate.eval t env).map fun b ↦ [.bool b]
  | .vectorSplat scalar _ =>
      (laneCount i).bind fun lanes ↦
        (env scalar).map fun x ↦ [.vector (List.replicate lanes x)]
  | .vectorLoad access _ =>
      (access.base t env).bind fun a ↦
        (readLanes t m a access.lane.mirType access.lanes).map fun xs ↦ [.vector xs]
  | .vectorBinary op l r semantics _ _ =>
      (vectorOperand env l).bind fun xs ↦ (vectorOperand env r).bind fun ys ↦
        (lanewise (fun x y ↦ (evalBinary t.floats op.scalar semantics x y 1).bind (·.head?))
          xs ys).map fun zs ↦ [.vector zs]
  | .vectorUnary .negate v semantics _ _ =>
      (vectorOperand env v).bind fun xs ↦
        (xs.mapM fun x ↦ (evalUnary t.floats .neg semantics x 1).bind (·.head?)).map
          fun zs ↦ [.vector zs]
  | .vectorUnary .maskNot v _ _ _ => (maskOperand env v).map fun bs ↦ [.mask (bs.map (!·))]
  | .vectorCompare op l r _ =>
      (vectorOperand env l).bind fun xs ↦ (vectorOperand env r).bind fun ys ↦
        (lanewise (evalCompare t.floats op) xs ys).map fun bs ↦ [.mask bs]
  | .vectorSelect mask a b _ =>
      (maskOperand env mask).bind fun bs ↦ (vectorOperand env a).bind fun xs ↦
        (vectorOperand env b).bind fun ys ↦
          (lanewise (fun c (p : KirValue × KirValue) ↦ some (if c then p.1 else p.2))
            bs (xs.zip ys)).map fun zs ↦ [.vector zs]
  | .vectorCast op v _ =>
      (vectorOperand env v).bind fun xs ↦
        (xs.mapM (evalCast t.floats op.scalar)).map fun zs ↦ [.vector zs]
  | .vectorInsert v scalar lane _ =>
      (vectorOperand env v).bind fun xs ↦ (env scalar).bind fun x ↦
        if lane < xs.length then some [.vector (xs.set lane x)] else none
  | .vectorExtract v lane _ =>
      (vectorOperand env v).bind fun xs ↦ (xs[lane]?).map fun x ↦ [x]
  | .vectorReduce op v _ _ =>
      (vectorOperand env v).bind fun xs ↦ (reduceLanes op xs).map fun x ↦ [x]
  | .guard _ _ | .store _ _ | .vectorStore _ _ _ | .call _ _ | .runtimeCall _ _ => none

abbrev Printed := MirRuntimeIntrinsic × List KirValue

/-- What an instruction other than a call does to its frame. -/
inductive InstructionOutcome where
  | next (env : Env) (memory : Memory) (printed : List Printed)
  | fail (failure : KirFailureKind)

def executeInstruction (t : TargetModel) (env : Env) (m : Memory) (i : KirInstruction) :
    Option InstructionOutcome :=
  match i.kind with
  | .guard condition failure =>
      (boolOperand env condition).map fun failed ↦
        if failed then .fail failure else .next env m []
  | .store place v =>
      (place.locate t env m).bind fun loc ↦ (env v).bind fun x ↦
        (loc.write t env m place.typeNode x).map fun p ↦ .next p.1 p.2 []
  | .vectorStore access v _ =>
      (access.base t env).bind fun a ↦ (vectorOperand env v).bind fun xs ↦
        (writeLanes t m a access.lane.mirType xs).map fun m' ↦ .next env m' []
  | .runtimeCall intrinsic args =>
      (env.getAll args).map fun xs ↦ .next env m [(intrinsic, xs)]
  | _ =>
      (evalInstruction t env m i).bind fun xs ↦
        (env.bindResults i.results xs).map fun env' ↦ .next env' m []

/-! ## Frames and the call stack -/

structure Frame where
  function : KirFunction
  block : KirBlock
  rest : List KirInstruction
  env : Env

/-- A caller waits with the results its call binds. -/
structure Caller where
  frame : Frame
  results : List KirResult

structure State where
  frame : Frame
  callers : List Caller
  memory : Memory
  printed : List Printed

/-- How a run ends. -/
inductive Outcome where
  | returned (value : Option KirValue) (memory : Memory) (printed : List Printed)
  | failed (failure : KirFailureKind) (memory : Memory) (printed : List Printed)

/-- The frame at the entry of a function. -/
def KirFunction.enter (f : KirFunction) (args : List KirValue) : Option Frame :=
  if f.params.length = args.length then
    f.blocks.head?.map fun b ↦
      ⟨f, b, b.instructions, Env.empty.setAll ((f.params.map (·.value)).zip args)⟩
  else none

/-- Follow an edge: its arguments are read first, then the parameters are bound together. -/
def Frame.follow (frame : Frame) (edge : KirEdge) : Option Frame :=
  (frame.function.block? edge.target).bind fun b ↦
    (frame.env.getAll edge.args).bind fun xs ↦
      if b.params.length = xs.length then
        some ⟨frame.function, b, b.instructions,
          frame.env.setAll ((b.params.map (·.value)).zip xs)⟩
      else none

/-- The edge a terminator takes. -/
def KirTerminator.taken (env : Env) : KirTerminator → Option KirEdge
  | .return _ _ _ => none
  | .jump edge => some edge
  | .branch condition thenEdge elseEdge =>
      (boolOperand env condition).map fun b ↦ if b then thenEdge else elseEdge

/-- The value a return hands back: none for a valueless return, stuck when it is undefined. -/
def returnValue (env : Env) : Option ValueId → Option (Option KirValue)
  | none => some none
  | some v => (env v).map some

open Lib in
def resume (s : State) (value : Option KirValue) : Move State Outcome :=
  match s.callers with
  | [] => .halt (.returned value s.memory s.printed)
  | caller :: callers =>
      match caller.frame.env.bindResults caller.results value.toList with
      | some env => .next { s with frame := { caller.frame with env := env }, callers := callers }
      | none => .stuck

open Lib in
def stepTerminator (s : State) : Move State Outcome :=
  match s.frame.block.terminator with
  | .return value _ _ =>
      match returnValue s.frame.env value with
      | some v => resume s v
      | none => .stuck
  | terminator =>
      match (terminator.taken s.frame.env).bind s.frame.follow with
      | some frame => .next { s with frame := frame }
      | none => .stuck

open Lib in
def stepInstruction (t : TargetModel) (m : KirModule) (s : State) (i : KirInstruction)
    (rest : List KirInstruction) : Move State Outcome :=
  match i.kind with
  | .call name args =>
      match (m.function? name).bind fun f ↦ (s.frame.env.getAll args).bind f.enter with
      | some callee =>
          .next { s with
            frame := callee
            callers := ⟨{ s.frame with rest := rest }, i.results⟩ :: s.callers }
      | none => .stuck
  | _ =>
      match executeInstruction t s.frame.env s.memory i with
      | some (.next env memory printed) =>
          .next { s with
            frame := { s.frame with rest := rest, env := env }
            memory := memory
            printed := s.printed ++ printed }
      | some (.fail failure) => .halt (.failed failure s.memory s.printed)
      | none => .stuck

open Lib in
def step (t : TargetModel) (m : KirModule) (s : State) : Move State Outcome :=
  match s.frame.rest with
  | [] => stepTerminator s
  | i :: rest => stepInstruction t m s i rest

/-- The machine that executes a KIR module. -/
def kirMachine (t : TargetModel) (m : KirModule) : Lib.Machine State Outcome := ⟨step t m⟩

/-- The state in which a call of a named function from outside starts. -/
def KirModule.start (m : KirModule) (name : String) (args : List KirValue) (memory : Memory) :
    Option State :=
  ((m.function? name).bind (·.enter args)).map fun frame ↦ ⟨frame, [], memory, []⟩

end CalcKernel
