import CalcKernel.Lib.EraseAt
import CalcKernel.Optimizer.InductionSteps

/-!
# Induction simplification

Loop parameters that go through the same values as another parameter of their block become
copies of it.  Each proposal is a certificate that the checker of evidence accepts, and the
module is changed only when all checks have passed.
-/

namespace CalcKernel

open Lib

/-! ## The index of a function -/

namespace KirFunction

variable (f : KirFunction)

/-- The types of parameters and first results, in the order they are put into the index. -/
def indexedTypes : List (ValueId × KirValueType) :=
  f.params.map (fun p ↦ (p.value, .scalar p.typeNode)) ++ f.blocks.flatMap fun b ↦
    b.params.map (fun p ↦ (p.value, p.typeNode)) ++
      b.instructions.filterMap fun i ↦ i.results.head?.map fun r ↦ (r.value, r.typeNode)

/-- A later entry replaces an earlier one. -/
def indexedType (v : ValueId) : Option IntegerType :=
  f.indexedTypes.reverse.findSome? fun p ↦ if p.1 = v then IntegerType.fromKir p.2 else none

def indexedInstruction (v : ValueId) : Option KirInstruction :=
  f.instructions.reverse.find? fun i ↦ (i.results.head?).map (·.value) = some v

def indexedParameter (v : ValueId) : Option (BlockId × Nat) :=
  (f.blocks.flatMap fun b ↦ b.params.zipIdx.map fun p ↦ (p.1.value, b.id, p.2)).reverse.lookup v

def indexedBlock (id : BlockId) : Option KirBlock := f.blocks.reverse.find? (·.id = id)

def indexedEdges (target : BlockId) : List KirEdge :=
  f.blocks.flatMap fun b ↦ b.terminator.edges.filter (·.target = target)

end KirFunction

/-- The operand of a copy. -/
def copySource? (i : Option KirInstruction) : Option ValueId :=
  match i.map KirInstruction.kind with
  | some (.copy v) => some v
  | _ => none

/-! ## Proposals -/

/-- The operands two operations have to agree on. -/
def operandPairs (type : IntegerType) (a b : KirInstruction) : Option (List (ValueId × ValueId)) :=
  if a.memory.isSome ∨ b.memory.isSome ∨ a.effect.isSome ∨ b.effect.isSome then none
  else match a.kind, b.kind with
    | .constInt s, .constInt t =>
        match parseInteger s, parseInteger t with
        | some x, some y => if x = y ∧ type.Contains x then some [] else none
        | _, _ => none
    | .binary op left right semantics, .binary op' left' right' semantics' =>
        if (op = .add ∨ op = .sub) ∧ op = op' ∧ semantics = semantics' ∧ semantics ≠ .strictFloat then
          some [(left, left'), (right, right')]
        else none
    | _, _ => none

/-- The first pair of different values that is not known, lesser value first. -/
def nextPair (pairs : List (ValueId × ValueId)) :
    List (ValueId × ValueId) → Option ((ValueId × ValueId) × List (ValueId × ValueId))
  | [] => none
  | (a, b) :: pending =>
      if a = b ∨ (min a b, max a b) ∈ pairs then nextPair pairs pending
      else some ((min a b, max a b), pending)

inductive InductionProposal where
  | exhausted
  | refused (remaining : Nat)
  | equal (remaining : Nat) (pairs : List (ValueId × ValueId)) (definitions : List InstructionId)
deriving DecidableEq, Repr

/-- The order of a set of pairs. -/
def PairLe (p q : ValueId × ValueId) : Prop := p.1 < q.1 ∨ p.1 = q.1 ∧ p.2 ≤ q.2

instance (p q : ValueId × ValueId) : Decidable (PairLe p q) := inferInstanceAs (Decidable (_ ∨ _))

namespace KirFunction

variable (f : KirFunction)

/-- The pairs that make two values equal. -/
def pairPremises (a b : ValueId) : Option (List (ValueId × ValueId)) :=
  (f.indexedType a).bind fun type ↦
    if f.indexedType b ≠ some type then none
    else match copySource? (f.indexedInstruction a), copySource? (f.indexedInstruction b) with
      | some v, _ => some [(v, b)]
      | none, some v => some [(a, v)]
      | none, none =>
          match f.indexedParameter a, f.indexedParameter b with
          | some (block, i), some (block', j) =>
              if block ≠ block' ∨ f.indexedEdges block = [] then none
              else (f.indexedEdges block).mapM fun edge ↦
                match edge.args[i]?, edge.args[j]? with
                | some x, some y => some (x, y)
                | _, _ => none
          | _, _ =>
              match f.indexedInstruction a, f.indexedInstruction b with
              | some i, some k => operandPairs type i k
              | _, _ => none

def pairDefinitions (a b : ValueId) : List InstructionId :=
  ((f.indexedInstruction a).toList ++ (f.indexedInstruction b).toList).map (·.id)

/-- Every new pair takes a step; the last pair pushed is the next. -/
def proposePairs : Nat → List (ValueId × ValueId) → List InstructionId →
    List (ValueId × ValueId) → InductionProposal
  | 0, pairs, definitions, pending =>
      match nextPair pairs pending with
      | none => .equal 0 (pairs.insertionSort PairLe) (definitions.dedup.insertionSort (· ≤ ·))
      | some _ => .exhausted
  | remaining + 1, pairs, definitions, pending =>
      match nextPair pairs pending with
      | none => .equal (remaining + 1) (pairs.insertionSort PairLe)
          (definitions.dedup.insertionSort (· ≤ ·))
      | some ((a, b), pending) =>
          match f.pairPremises a b with
          | none => .refused remaining
          | some premises => proposePairs remaining ((a, b) :: pairs)
              (f.pairDefinitions a b ++ definitions) (premises.reverse ++ pending)

/-- `propose_equality` -/
def proposeEquality (left right : ValueId) (remaining : Nat) : InductionProposal :=
  f.proposePairs remaining [] [] [(left, right)]

end KirFunction

/-! ## The scan of the loops -/

/-- A certificate of the pass: one induction equality, used at the header. -/
structure InductionCertificate where
  function : FunctionId
  header : BlockId
  left : ValueId
  right : ValueId
  pairs : List (ValueId × ValueId)
  definitions : List InstructionId
deriving DecidableEq, Repr

/-- What becomes of a parameter: its block, its source and the certificate. -/
abbrev PendingParameter := ValueId × BlockId × ValueId × Nat

structure InductionScan where
  remaining : Nat
  pending : List PendingParameter
  certificates : List InductionCertificate
deriving DecidableEq, Repr

inductive ScanStop where
  | exhausted | missingHeader
deriving DecidableEq, Repr

/-- Every element with each one behind it. -/
def laterPairs {α : Type} : List α → List (α × α)
  | [] => []
  | a :: l => l.map (fun b ↦ (a, b)) ++ laterPairs l

namespace KirFunction

variable (f : KirFunction)

def pendParameter (fixed : List ValueId) (certificate : Nat) (pending : List PendingParameter)
    (pair : ValueId × ValueId) : List PendingParameter :=
  if pair.2 ∈ fixed ∨ pair.2 ∈ pending.map Prod.fst then pending
  else match f.indexedParameter pair.1, f.indexedParameter pair.2 with
    | some (block, _), some (block', _) =>
        if block = block' then (pair.2, block', pair.1, certificate) :: pending else pending
    | _, _ => pending

def scanPair (fixed : List ValueId) (header : BlockId) (scan : InductionScan)
    (pair : ValueId × ValueId) : Except ScanStop InductionScan :=
  let left := min pair.1 pair.2
  let right := max pair.1 pair.2
  if right ∈ fixed ∨ right ∈ scan.pending.map Prod.fst then .ok scan
  else match f.proposeEquality left right scan.remaining with
    | .exhausted => .error .exhausted
    | .refused remaining => .ok { scan with remaining := remaining }
    | .equal remaining pairs definitions =>
        .ok ⟨remaining,
          pairs.foldl (f.pendParameter fixed scan.certificates.length) scan.pending,
          scan.certificates ++ [⟨f.id, header, left, right, pairs, definitions⟩]⟩

def scanLoop (fixed : List ValueId) (scan : InductionScan) (header : BlockId) :
    Except ScanStop InductionScan :=
  match f.indexedBlock header with
  | none => .error .missingHeader
  | some block =>
      (laterPairs (block.params.map (·.value))).foldlM (f.scanPair fixed header) scan

/-- The loops of a function within its steps. -/
def scanLoops (fixed : List ValueId) (maxSteps : Option Nat) (headers : List BlockId) :
    Except ScanStop InductionScan :=
  headers.foldlM (f.scanLoop fixed) ⟨maxSteps.getD f.scalarMaxSteps, [], []⟩

end KirFunction

structure InductionReplacement where
  function : FunctionId
  block : BlockId
  value : ValueId
  source : ValueId
  proof : Nat
deriving DecidableEq, Repr

structure InductionPlan where
  certificates : List InductionCertificate
  replacements : List InductionReplacement
  exhausted : List FunctionId
deriving DecidableEq, Repr

def InductionPlan.empty : InductionPlan := ⟨[], [], []⟩

/-- A function that runs out of steps is left out. -/
def planFunction (fixed : List ValueId) (maxSteps : Option Nat) (plan : InductionPlan)
    (entry : KirFunction × List BlockId) : Except String InductionPlan :=
  let f := entry.1
  if entry.2 = [] then .ok plan
  else match f.scanLoops fixed maxSteps entry.2 with
    | .error .missingHeader => .error "induction analysis names a missing header"
    | .error .exhausted => .ok { plan with exhausted := plan.exhausted ++ [f.id] }
    | .ok scan => .ok { plan with
        certificates := plan.certificates ++ scan.certificates
        replacements := plan.replacements ++
          (scan.pending.insertionSort fun p q ↦ p.1 ≤ q.1).map fun p ↦
            ⟨f.id, p.2.1, p.1, p.2.2.1, plan.certificates.length + p.2.2.2⟩ }

/-! ## The replacements -/

/-- The error of `verify_certificate`. -/
def InductionCertificate.error? (m : KirModule) (id : Nat) (c : InductionCertificate) :
    Option String :=
  match m.functions.find? (·.id = c.function) with
  | none => some ("proof" ++ toString id ++ " use function is missing")
  | some f =>
      if f.blocks.all (·.id ≠ c.header) then
        some ("proof" ++ toString id ++ " use block is missing")
      else if f.inductionEqualityMatches c.header c.left c.right c.pairs c.definitions then none
      else some ("proof" ++ toString id ++
        " step0 induction equality is not closed over every entry and transfer")

structure PreparedCopy where
  function : FunctionId
  block : BlockId
  index : Nat
  instruction : KirInstruction
deriving DecidableEq, Repr

/-- One replacement is checked and its copy made. -/
def prepareReplacement (m : KirModule) (certificates : List InductionCertificate) (first : Nat)
    (prepared : List PreparedCopy) (entry : InductionReplacement × Nat) :
    Except String (List PreparedCopy) :=
  let r := entry.1
  match certificates[r.proof]? with
  | none => .error "missing induction proof"
  | some c =>
      if c.function ≠ r.function ∨ (r.source, r.value) ∉ c.pairs then
        .error "induction replacement does not match its certificate"
      else match m.functions.find? (·.id = r.function) with
        | none => .error "missing induction function"
        | some f =>
            match f.block? r.block with
            | none => .error "missing induction block"
            | some b =>
                match b.params.zipIdx.find? (·.1.value = r.value) with
                | none => .error "missing induction parameter"
                | some (param, index) =>
                    if b.params.all (·.value ≠ r.source) then
                      .error "induction source is not a same-block parameter"
                    else if f.blocks.any fun p ↦ p.terminator.edges.any fun edge ↦
                        edge.target = b.id && edge.args.length ≠ b.params.length then
                      .error "induction replacement has incomplete incoming arguments"
                    else if prepared.any fun p ↦
                        p.function = f.id && p.block = b.id && p.index = index then
                      .error "duplicate induction replacement"
                    else .ok (prepared ++ [⟨f.id, b.id, index,
                      ⟨first + entry.2, [⟨param.value, param.typeNode⟩], .copy r.source, none,
                        none⟩⟩])

/-- The next instruction identity. -/
def KirModule.firstFreeInstruction (m : KirModule) : Nat :=
  match ((m.functions.flatMap (·.instructions)).map (·.id)).max? with
  | none => 0
  | some id => id + 1

section

variable (prepared : List PreparedCopy) (function : FunctionId)

/-- The parameter in a place of a block is replaced. -/
def droppedAt (block : BlockId) (index : Nat) : Bool :=
  prepared.any fun p ↦ p.function = function && p.block = block && p.index = index

/-- `repair_edge` -/
def repairEdge (edge : KirEdge) : KirEdge :=
  { edge with args := eraseAt (droppedAt prepared function edge.target) edge.args }

def KirTerminator.repair : KirTerminator → KirTerminator
  | .return v memory effectOrder => .return v memory effectOrder
  | .jump edge => .jump (repairEdge prepared function edge)
  | .branch condition thenEdge elseEdge =>
      .branch condition (repairEdge prepared function thenEdge)
        (repairEdge prepared function elseEdge)

def KirInstruction.firstResult (i : KirInstruction) : ValueId := (i.defs.head?).getD 0

/-- The copies of a block, in the order of their results. -/
def copiesAt (block : BlockId) : List KirInstruction :=
  ((prepared.filter fun p ↦ p.function = function && p.block = block).map
    (·.instruction)).insertionSort fun i k ↦ i.firstResult ≤ k.firstResult

def KirBlock.simplify (b : KirBlock) : KirBlock :=
  { b with
    params := eraseAt (droppedAt prepared function b.id) b.params
    instructions := copiesAt prepared function b.id ++ b.instructions
    terminator := b.terminator.repair prepared function }

end

def KirFunction.simplify (prepared : List PreparedCopy) (f : KirFunction) : KirFunction :=
  { f with blocks := f.blocks.map (·.simplify prepared f.id) }

def KirModule.simplify (prepared : List PreparedCopy) (m : KirModule) : KirModule :=
  { m with functions := m.functions.map (·.simplify prepared) }

/-- `apply_replacements` -/
def applyReplacements (m : KirModule) (certificates : List InductionCertificate)
    (replacements : List InductionReplacement) : Except String (Nat × KirModule) :=
  match certificates.zipIdx.findSome? fun p ↦ p.1.error? m p.2 with
  | some message => .error ("invalid induction certificate: " ++ message)
  | none =>
      if replacements = [] then .ok (0, m)
      else if 2 ^ 32 ≤ replacements.length then .error "too many induction replacements"
      else if 2 ^ 32 ≤ m.firstFreeInstruction + (replacements.length - 1) then
        .error "induction instruction identity space exhausted"
      else
        (replacements.zipIdx.foldlM
            (prepareReplacement m certificates m.firstFreeInstruction) []).map fun prepared ↦
          (replacements.length, m.simplify prepared)

/-! ## The pass -/

structure InductionSimplification where
  simplified : Nat
  exhaustedFunctions : List FunctionId
deriving DecidableEq, Repr

/-- `run_with_config`, with the headers of the loops of each function: what it returns, and the
module it leaves.  `fixed` are the parameters that live proofs depend on. -/
def runInductionSimplification (m : KirModule) (fixed : List ValueId)
    (analyses : List (List BlockId)) (maxSteps : Option Nat) :
    Except String InductionSimplification × KirModule :=
  match (m.functions.zip analyses).foldlM (planFunction fixed maxSteps) .empty with
  | .error message => (.error message, m)
  | .ok plan =>
      match applyReplacements m plan.certificates plan.replacements with
      | .error message => (.error message, m)
      | .ok (simplified, m') => (.ok ⟨simplified, plan.exhausted⟩, m')

end CalcKernel
