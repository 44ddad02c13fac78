import CalcKernel.Kir.Typing
import CalcKernel.Optimizer.ContractFacts
import CalcKernel.Optimizer.ProofSteps

/-!
# Validation of the evidence of a pass

The module, the proofs and the eliminated guards that a pass leaves are checked again.  Where
a state was checked before, the functions that are as they were then are left out.
-/

namespace CalcKernel

/-! ## Proofs -/

abbrev ProofStepId := Nat

inductive ProofStep where
  | typeBounds (claim : ScalarClaim)
  | contractRange (block : BlockId) (premises : List ProofStepId) (claim : ScalarClaim)
  | factLeaf (fact : FactId)
  | constant (instruction : InstructionId) (claim : ScalarClaim)
  | binaryTransfer (instruction : InstructionId) (left right : ProofStepId) (claim : ScalarClaim)
  | copyTransfer (instruction : InstructionId) (input : ProofStepId) (claim : ScalarClaim)
  | phiJoin (block : BlockId) (inputs : List ProofStepId) (claim : ScalarClaim)
  | integerComparison (instruction : InstructionId) (left right : ProofStepId) (value : ValueId)
      (result : Bool)
  | booleanTransfer (instruction : InstructionId) (inputs : List ProofStepId) (value : ValueId)
      (result : Bool)
  | booleanPhiJoin (block : BlockId) (inputs : List ProofStepId) (value : ValueId) (result : Bool)
  | branchRefinement (predecessor target : BlockId) (comparison : InstructionId)
      (left right : ProofStepId) (taken : Bool) (claim : ScalarClaim)
  | loopInvariant (header : BlockId) (phi : ValueId) (transfer : InstructionId)
      (claim : ScalarClaim)
  | inductionEquality (header : BlockId) (left right : ValueId) (pairs : List (ValueId × ValueId))
      (definitions : List InstructionId)
  | canonicalLoop (loopId : LoopId) (cfgDigest : String) (header preheader latch : BlockId)
      (blocks exits : List BlockId)
  | loopTripCount (canonicalLoop : ProofStepId) (induction : ValueId) (start step : String)
      (bound : ValueId) (comparison : MirCompareOp) (iterations : Nat)
  | guardSafety (conditionInstruction : InstructionId) (premises : List ProofStepId)
      (allowLoopReasoning : Bool)
deriving DecidableEq, Repr

structure ProofCertificate where
  id : ProofId
  generation : Nat
  useSite : FactUseSite
  steps : List ProofStep
  root : ProofStepId
deriving DecidableEq, Repr

structure ProofArena where
  generation : Nat
  proofs : List ProofCertificate
deriving DecidableEq, Repr

def ProofArena.get (arena : ProofArena) (id : ProofId) : Option ProofCertificate :=
  arena.proofs[id]?

structure KirGuardElimination where
  function : FunctionId
  block : BlockId
  conditionInstruction : InstructionId
  guardInstruction : InstructionId
  proof : Option ProofId
  usedTrustedContract : Bool
deriving DecidableEq, Repr

/-! ## Identities -/

inductive IdentityKind where
  | region | memory | value | block | instruction
deriving DecidableEq, Repr

/-- An identity where it is defined. -/
structure Identity where
  kind : IdentityKind
  id : Nat
  block : Option BlockId
  instruction : Option InstructionId
deriving DecidableEq, Repr

def Identity.key (identity : Identity) : IdentityKind × Nat := (identity.kind, identity.id)

def KirInstruction.identities (b : BlockId) (i : KirInstruction) : List Identity :=
  ⟨.instruction, i.id, some b, some i.id⟩ ::
    (i.results.map fun result ↦ ⟨.value, result.value, some b, some i.id⟩) ++
    ((i.memory.bind (·.output)).toList.map fun output ↦ ⟨.memory, output, some b, some i.id⟩)

def KirBlock.identities (b : KirBlock) : List Identity :=
  ⟨.block, b.id, some b.id, none⟩ ::
    (b.params.map fun param ↦ ⟨.value, param.value, some b.id, none⟩) ++
    (b.memoryParams.map fun param ↦ ⟨.memory, param.version, some b.id, none⟩) ++
    b.instructions.flatMap (·.identities b.id)

/-- The identities of a function in the order in which they are recorded. -/
def KirFunction.identities (f : KirFunction) : List Identity :=
  (f.regions.map fun region ↦ ⟨.region, region.id, none, none⟩) ++
    (f.initialMemory.map fun initial ↦ ⟨.memory, initial.version, none, none⟩) ++
    (f.params.map fun param ↦ ⟨.value, param.value, none, none⟩) ++
    f.blocks.flatMap (·.identities)

/-- Which identities are new when they are recorded one after the other. -/
def freshness (seen : List (IdentityKind × Nat)) : List Identity → List Bool
  | [] => []
  | identity :: identities =>
      decide (identity.key ∉ seen) :: freshness (identity.key :: seen) identities

/-! ## The module -/

structure KirValidationError where
  message : String
  function : Option FunctionId
  block : Option BlockId
  instruction : Option InstructionId
deriving DecidableEq, Repr

/-- The texts of `validate_function` -/
def IdentityKind.duplicateDefinition : IdentityKind → String
  | .region => "duplicate memory region id"
  | .memory => "duplicate memory version definition"
  | .value => "duplicate value definition"
  | .block => "duplicate block id"
  | .instruction => "duplicate instruction id"

/-- The texts of `record_verified_function_identities` -/
def IdentityKind.duplicateIdentity : IdentityKind → String
  | .region => "duplicate memory region id"
  | .memory => "duplicate memory version id"
  | .value => "duplicate value id"
  | .block => "duplicate block id"
  | .instruction => "duplicate instruction id"

def duplicates (text : IdentityKind → String) (f : KirFunction)
    (seen : List (IdentityKind × Nat)) : List KirValidationError :=
  (f.identities.zip (freshness seen f.identities)).filterMap fun (identity, fresh) ↦
    if fresh then none
    else some ⟨text identity.kind, some f.id, identity.block, identity.instruction⟩

def missingOverflowGuard : String :=
  "checked arithmetic result is not followed by its required overflow guard"

def missingCheckGuard : String := "check condition is not followed by its required guard"

def KirInstruction.missingGuardText (i : KirInstruction) : String :=
  match i.kind with
  | .checkCondition _ _ => missingCheckGuard
  | _ => missingOverflowGuard

/-- The part of `validate_instruction_structure` about required guards. -/
def KirBlock.missingGuards (f : FunctionId) (b : KirBlock) : List KirValidationError :=
  b.instructions.zipIdx.flatMap fun (i, index) ↦
    match i.requiredGuard with
    | none => []
    | some (condition, failure) =>
        if (b.instructions[index + 1]?).any (·.kind = .guard condition failure) then []
        else [⟨i.missingGuardText, some f, some b.id, some i.id⟩]

def KirFunction.missingGuards (f : KirFunction) : List KirValidationError :=
  f.blocks.flatMap (·.missingGuards f.id)

structure EvidenceValidationError where
  message : String
  fact : Option FactId
  proof : Option ProofId
  step : Option Nat
deriving DecidableEq, Repr

/-- `rewrite_error` -/
def rewriteError (message : String) (proof : Option ProofId) : EvidenceValidationError :=
  ⟨message, none, proof, none⟩

/-- The checks that look at one thing only: a target profile, a function apart from its required
guards (given which of its identities are new), the facts, and one certificate. -/
structure EvidenceChecks (Profile : Type) where
  validateProfile : Profile → Option String
  consumer : Profile → KirConsumer
  functionErrors : KirFunction → Profile → List Bool → List KirValidationError
  factErrors : KirModule → Option ContractFactSet → Nat → List EvidenceValidationError
  certificateErrors : KirModule → Option ContractFactSet → Nat → ProofCertificate →
    List EvidenceValidationError
  /-- The texts about missing guards are those of `validate_instruction_structure` alone. -/
  functionErrors_message : ∀ f profile fresh, ∀ e ∈ functionErrors f profile fresh,
    e.message ≠ missingOverflowGuard ∧ e.message ≠ missingCheckGuard

namespace EvidenceChecks

variable {Profile : Type} (checks : EvidenceChecks Profile)

def profileErrors (config : KirBuildConfig) (profile : Profile) : List KirValidationError :=
  match checks.validateProfile profile with
  | some message => [⟨message, none, none, none⟩]
  | none =>
      if checks.consumer profile = config.consumer then []
      else [⟨"KIR target profile consumer does not match module consumer", none, none, none⟩]

/-- `validate_function` with the identities recorded so far.  Its errors stand in the order of
their kinds here. -/
def validateFunction (profile : Profile) (seen : List (IdentityKind × Nat)) (f : KirFunction) :
    List KirValidationError :=
  duplicates IdentityKind.duplicateDefinition f seen ++
    checks.functionErrors f profile (freshness seen f.identities) ++ f.missingGuards

/-- `record_verified_function_identities` -/
def recordVerifiedFunctionIdentities (seen : List (IdentityKind × Nat)) (f : KirFunction) :
    List KirValidationError :=
  duplicates IdentityKind.duplicateIdentity f seen

/-- The functions after those whose identities are recorded; `unchanged` are not checked again. -/
def validateFunctions (profile : Profile) (unchanged : KirFunction → Bool) :
    List FunctionId → List (IdentityKind × Nat) → List KirFunction → List KirValidationError
  | _, _, [] => []
  | ids, seen, f :: functions =>
      (if f.id ∈ ids then [⟨"duplicate function id", some f.id, none, none⟩] else []) ++
        (if unchanged f then recordVerifiedFunctionIdentities seen f
        else checks.validateFunction profile seen f) ++
        validateFunctions profile unchanged (f.id :: ids) (f.identities.map Identity.key ++ seen)
          functions

/-- The first function of this identity is this one. -/
def isUnchanged (previous : Option KirModule) (f : KirFunction) : Bool :=
  previous.any fun m ↦ m.functions.find? (·.id = f.id) = some f

/-- `validate_kir_module_with_previous` -/
def validateKirModuleWithPrevious (m : KirModule) (profile : Profile)
    (previous : Option KirModule) : List KirValidationError :=
  checks.profileErrors m.config profile ++
    checks.validateFunctions profile (isUnchanged previous) [] [] m.functions

def validateKirModule (m : KirModule) (profile : Profile) : List KirValidationError :=
  checks.validateKirModuleWithPrevious m profile none

variable [DecidableEq Profile]

def validateKirModuleIncremental (m : KirModule) (profile : Profile) (previous : KirModule)
    (previousProfile : Profile) : List KirValidationError :=
  if m.config ≠ previous.config ∨ profile ≠ previousProfile then checks.validateKirModule m profile
  else checks.validateKirModuleWithPrevious m profile (some previous)

end EvidenceChecks

/-! ## The evidence -/

/-- A missing guard is allowed when an elimination that names a proof has removed it. -/
def authorizedMissingGuard (eliminations : List KirGuardElimination) (e : KirValidationError) :
    Bool :=
  (e.instruction.any fun instruction ↦ eliminations.any fun elimination ↦
    elimination.conditionInstruction = instruction && elimination.proof.isSome) &&
    (e.message = missingOverflowGuard || e.message = missingCheckGuard)

def KirInstruction.noFailureProof? (i : KirInstruction) : Option ProofId :=
  match i.kind with
  | .vectorBinary _ _ _ _ noFailureProof _ => noFailureProof
  | .vectorUnary _ _ _ noFailureProof _ => noFailureProof
  | _ => none

def vectorProofErrors (m : KirModule) (proofs : ProofArena) : List EvidenceValidationError :=
  m.functions.flatMap fun f ↦ f.blocks.flatMap fun b ↦ b.instructions.flatMap fun i ↦
    match i.noFailureProof? with
    | none => []
    | some proof =>
        match proofs.get proof with
        | none => [rewriteError "missing vector no-failure proof certificate" (some proof)]
        | some certificate =>
            if certificate.useSite.function ≠ f.id ∨ certificate.useSite.block ≠ b.id ∨
                certificate.useSite.instruction ≠ some i.id then
              [rewriteError "vector no-failure proof certificate belongs to a different instruction"
                (some proof)]
            else []

/-- The root of the certificate proves the guard of the elimination. -/
def ProofCertificate.matchesRewrite (certificate : ProofCertificate)
    (elimination : KirGuardElimination) : Bool :=
  match certificate.steps[certificate.root]? with
  | some (.guardSafety conditionInstruction _ _) =>
      conditionInstruction = elimination.conditionInstruction
  | _ => false

def eliminationErrors (proofs : ProofArena) (elimination : KirGuardElimination) :
    List EvidenceValidationError :=
  match elimination.proof with
  | none => [rewriteError "guard elimination has no proof certificate" none]
  | some proof =>
      match proofs.get proof with
      | none => [rewriteError "guard elimination names a missing proof certificate" (some proof)]
      | some certificate =>
          if certificate.matchesRewrite elimination = false ∨
              certificate.useSite.function ≠ elimination.function ∨
              certificate.useSite.block ≠ elimination.block then
            [rewriteError "guard elimination does not match its proof certificate" (some proof)]
          else []

namespace EvidenceChecks

variable {Profile : Type} (checks : EvidenceChecks Profile)

/-- The certificates from the place `index` on. -/
def verifyCertificates (m : KirModule) (contracts : Option ContractFactSet) (generation : Nat) :
    Nat → List ProofCertificate → List EvidenceValidationError
  | _, [] => []
  | index, proof :: proofs =>
      (if proof.id ≠ index then
        [rewriteError "proof identity does not match arena order" (some proof.id)]
      else if proof.generation ≠ generation then
        [rewriteError
          s!"proof{proof.id} belongs to stale generation {proof.generation}, expected {generation}"
          (some proof.id)]
      else checks.certificateErrors m contracts generation proof) ++
        verifyCertificates m contracts generation (index + 1) proofs

def verifyProofArena (m : KirModule) (contracts : Option ContractFactSet) (proofs : ProofArena)
    (generation : Nat) : List EvidenceValidationError :=
  checks.factErrors m contracts generation ++
    (if proofs.generation ≠ generation then
      [rewriteError
        s!"proof arena belongs to stale generation {proofs.generation}, expected {generation}" none]
    else []) ++ checks.verifyCertificates m contracts generation 0 proofs.proofs

/-- `validate_kir_optimization_evidence_with_kir_errors` -/
def validateEvidenceWithKirErrors (m : KirModule) (contracts : Option ContractFactSet)
    (proofs : ProofArena) (eliminations : List KirGuardElimination) (generation : Nat)
    (kirErrors : List KirValidationError) : List EvidenceValidationError :=
  ((kirErrors.filter fun e ↦ !authorizedMissingGuard eliminations e).map fun e ↦
    rewriteError e.message none) ++ checks.verifyProofArena m contracts proofs generation ++
    vectorProofErrors m proofs ++ eliminations.flatMap (eliminationErrors proofs)

/-- `validate_kir_optimization_evidence` -/
def validateEvidence (m : KirModule) (profile : Profile) (contracts : Option ContractFactSet)
    (proofs : ProofArena) (eliminations : List KirGuardElimination) (generation : Nat) :
    List EvidenceValidationError :=
  checks.validateEvidenceWithKirErrors m contracts proofs eliminations generation
    (checks.validateKirModule m profile)

variable [DecidableEq Profile]

/-- `validate_kir_optimization_evidence_incremental` -/
def validateEvidenceIncremental (m : KirModule) (profile : Profile) (previous : KirModule)
    (previousProfile : Profile) (contracts : Option ContractFactSet) (proofs : ProofArena)
    (eliminations : List KirGuardElimination) (generation : Nat) : List EvidenceValidationError :=
  checks.validateEvidenceWithKirErrors m contracts proofs eliminations generation
    (checks.validateKirModuleIncremental m profile previous previousProfile)

end EvidenceChecks

/-! ## The record of a pass -/

/-- A state of the program with what was proved about it. -/
structure VerifiedKirState (Profile : Type) where
  module : KirModule
  profile : Profile
  proofs : ProofArena
  eliminatedGuards : List KirGuardElimination
  contractFacts : Option ContractFactSet
deriving DecidableEq

structure KirPassRecord where
  name : String
  changed : Bool
  verified : Bool
deriving DecidableEq, Repr

/-- The part of a `KirPassManagerResult` that the record of a pass reads and writes. -/
structure KirPassManagerResult (Profile : Type) where
  records : List KirPassRecord
  errors : List String
  proofs : ProofArena
  eliminatedGuards : List KirGuardElimination
  contractFacts : Option ContractFactSet
  verificationCache : Option (VerifiedKirState Profile)

namespace EvidenceChecks

variable {Profile : Type} [DecidableEq Profile] (checks : EvidenceChecks Profile)

/-- The evidence of a result as the state of the program. -/
def currentState (m : KirModule) (profile : Profile) (result : KirPassManagerResult Profile) :
    VerifiedKirState Profile :=
  ⟨m, profile, result.proofs, result.eliminatedGuards, result.contractFacts⟩

def passEvidence (m : KirModule) (profile : Profile) (result : KirPassManagerResult Profile)
    (generation : Nat) : List EvidenceValidationError :=
  match result.verificationCache with
  | none =>
      checks.validateEvidence m profile result.contractFacts result.proofs result.eliminatedGuards
        generation
  | some cached =>
      checks.validateEvidenceIncremental m profile cached.module cached.profile
        result.contractFacts result.proofs result.eliminatedGuards generation

/-- `record_verified_pass`, with whether the pass is verified. -/
def recordVerifiedPass (m : KirModule) (profile : Profile) (name : String) (changed : Bool)
    (result : KirPassManagerResult Profile) (generation : Nat) :
    Bool × KirPassManagerResult Profile :=
  if !changed && result.verificationCache = some (currentState m profile result) then
    (true, { result with records := result.records ++ [⟨name, changed, true⟩] })
  else
    let evidence := checks.passEvidence m profile result generation
    let verified := evidence.isEmpty
    (verified, { result with
      records := result.records ++ [⟨name, changed, verified⟩]
      errors := result.errors ++ evidence.map (·.message)
      verificationCache :=
        if verified then some (currentState m profile result) else result.verificationCache })

end EvidenceChecks

end CalcKernel
