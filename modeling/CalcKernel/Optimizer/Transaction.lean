import CalcKernel.Lib.Assoc
import CalcKernel.Optimizer.Audit

/-!
# Verified transactions

The rollback domain of the optimizer, its identity cursors, and the transaction that
replaces it by a checked and revalidated trial or leaves it alone.  What only passes
through (contract facts, proofs, eliminated guards, the target profile) keeps its type as a
parameter; the evidence validator, the printers and the digest are functions of an
environment, about which nothing is assumed.
-/

namespace CalcKernel

open Lib

structure KirIdAllocators where
  nextFunction : Nat
  nextBlock : Nat
  nextValue : Nat
  nextInstruction : Nat
  nextMemoryRegion : Nat
  nextMemoryVersion : Nat
  nextVectorRegion : Nat
  nextLoop : Nat
  nextProof : Nat
deriving DecidableEq, Repr

/-- The kinds of identities that a `fresh_*` call hands out. -/
inductive IdKind where
  | function | block | value | instruction | memoryRegion | memoryVersion | vectorRegion
deriving DecidableEq, Repr

def IdKind.text : IdKind → String
  | .function => "function"
  | .block => "block"
  | .value => "value"
  | .instruction => "instruction"
  | .memoryRegion => "memory-region"
  | .memoryVersion => "memory-version"
  | .vectorRegion => "vector-region"

namespace KirIdAllocators

def cursor (ids : KirIdAllocators) : IdKind → Nat
  | .function => ids.nextFunction
  | .block => ids.nextBlock
  | .value => ids.nextValue
  | .instruction => ids.nextInstruction
  | .memoryRegion => ids.nextMemoryRegion
  | .memoryVersion => ids.nextMemoryVersion
  | .vectorRegion => ids.nextVectorRegion

def setCursor (ids : KirIdAllocators) (next : Nat) : IdKind → KirIdAllocators
  | .function => { ids with nextFunction := next }
  | .block => { ids with nextBlock := next }
  | .value => { ids with nextValue := next }
  | .instruction => { ids with nextInstruction := next }
  | .memoryRegion => { ids with nextMemoryRegion := next }
  | .memoryVersion => { ids with nextMemoryVersion := next }
  | .vectorRegion => { ids with nextVectorRegion := next }

end KirIdAllocators

def identityExhausted (kind : String) : String := s!"KIR {kind} identity space is exhausted"

/-- The identities of a kind that a module contains. -/
def moduleIds (module : KirModule) : IdKind → List Nat
  | .function => module.functions.map (·.id)
  | .block => module.functions.flatMap fun function ↦ function.blocks.map (·.id)
  | .value => module.functions.flatMap (·.valueIds)
  | .instruction => module.functions.flatMap fun function ↦ function.instructions.map (·.id)
  | .memoryRegion => module.functions.flatMap fun function ↦ function.regions.map (·.id)
  | .memoryVersion => module.functions.flatMap fun function ↦
      function.initialMemory.map (·.version) ++ function.blocks.flatMap fun block ↦
        block.memoryParams.map (·.version) ++ block.instructions.flatMap fun instruction ↦
          instruction.memory.toList.flatMap fun memory ↦ memory.input :: memory.output.toList
  | .vectorRegion => module.functions.flatMap fun function ↦ function.vectorRegions.map (·.id)

/-- One past the largest identity. -/
def nextIdentity (ids : List Nat) (kind : String) : Except String Nat :=
  match ids.max? with
  | none => .ok 0
  | some maximum =>
      if maximum + 1 ≤ unitLimit then .ok (maximum + 1) else .error (identityExhausted kind)

structure KirVerificationCacheIdentity where
  kirDigest : String
  evidenceDigest : String
deriving DecidableEq, Repr

variable {Profile Contracts Proofs Guard : Type}

structure KirVerifiedProgramState (Profile Contracts Proofs Guard : Type) where
  module : KirModule
  profile : Profile
  contractFacts : Option Contracts
  proofs : Proofs
  eliminatedGuards : List Guard
  evidenceGeneration : Nat
  optimizationEntryModuleUnits : Nat
  ids : KirIdAllocators
  verificationCache : KirVerificationCacheIdentity

/-- The validator, the digests, and the identities in a proof arena. -/
structure VerifierEnvironment (Profile Contracts Proofs Guard : Type) where
  validate : KirModule → Profile → Option Contracts → Proofs → List Guard → Nat → List String
  kirDigest : KirModule → Profile → String
  evidenceDigest : Nat → Option Contracts → Proofs → List Guard → String
  loopIds : Proofs → List Nat
  proofIds : Proofs → List Nat

namespace VerifierEnvironment

variable (env : VerifierEnvironment Profile Contracts Proofs Guard)

/-- `KirIdAllocators::for_state` -/
def idsFor (module : KirModule) (proofs : Proofs) : Except String KirIdAllocators := do
  let next := fun kind ↦ nextIdentity (moduleIds module kind) kind.text
  let nextFunction ← next .function
  let nextBlock ← next .block
  let nextValue ← next .value
  let nextInstruction ← next .instruction
  let nextMemoryRegion ← next .memoryRegion
  let nextMemoryVersion ← next .memoryVersion
  let nextVectorRegion ← next .vectorRegion
  let nextLoop ← nextIdentity (env.loopIds proofs) "loop"
  let nextProof ← nextIdentity (env.proofIds proofs) "proof"
  .ok {
    nextFunction, nextBlock, nextValue, nextInstruction, nextMemoryRegion, nextMemoryVersion,
    nextVectorRegion, nextLoop, nextProof }

def cacheIdentity (state : KirVerifiedProgramState Profile Contracts Proofs Guard) :
    KirVerificationCacheIdentity where
  kirDigest := env.kirDigest state.module state.profile
  evidenceDigest := env.evidenceDigest state.evidenceGeneration state.contractFacts state.proofs
    state.eliminatedGuards

def errors (state : KirVerifiedProgramState Profile Contracts Proofs Guard) : List String :=
  env.validate state.module state.profile state.contractFacts state.proofs state.eliminatedGuards
    state.evidenceGeneration

/-- The state with its evidence checked and its cursors and digests computed anew. -/
def revalidated (state : KirVerifiedProgramState Profile Contracts Proofs Guard) :
    Except String (KirVerifiedProgramState Profile Contracts Proofs Guard) :=
  if env.errors state ≠ [] then .error ("; ".intercalate (env.errors state))
  else do
    let ids ← env.idsFor state.module state.proofs
    .ok { state with ids, verificationCache := env.cacheIdentity state }

/-- `KirVerifiedProgramState::from_parts` -/
def fromParts (module : KirModule) (profile : Profile) (contractFacts : Option Contracts)
    (proofs : Proofs) (eliminatedGuards : List Guard) (evidenceGeneration : Nat) :
    Except String (KirVerifiedProgramState Profile Contracts Proofs Guard) :=
  let units := (module.functions.map kirFunctionUnits).foldl
    (fun total units ↦ min unitLimit (total + units)) 0
  env.revalidated ⟨module, profile, contractFacts, proofs, eliminatedGuards, evidenceGeneration,
    units, ⟨0, 0, 0, 0, 0, 0, 0, 0, 0⟩, ⟨"", ""⟩⟩

end VerifierEnvironment

/-! ## Mutations -/

/-- What a mutation does to the trial it borrows: it reads it, allocates identities, replaces a
part through an accessor, or assigns a whole state, and ends well or with an error. -/
inductive Mutation (Profile Contracts Proofs Guard : Type) where
  | done
  | fail (error : String)
  | look (next : KirVerifiedProgramState Profile Contracts Proofs Guard →
      Mutation Profile Contracts Proofs Guard)
  | fresh (kind : IdKind) (next : Except String Nat → Mutation Profile Contracts Proofs Guard)
  | setModule (module : KirModule) (profile : Profile)
      (next : Mutation Profile Contracts Proofs Guard)
  | setContractFacts (facts : Contracts) (next : Mutation Profile Contracts Proofs Guard)
  | setProofs (proofs : Proofs) (next : Mutation Profile Contracts Proofs Guard)
  | setEliminatedGuards (guards : List Guard) (next : Mutation Profile Contracts Proofs Guard)
  | assign (state : KirVerifiedProgramState Profile Contracts Proofs Guard)
      (next : Mutation Profile Contracts Proofs Guard)

namespace KirVerifiedProgramState

variable (state : KirVerifiedProgramState Profile Contracts Proofs Guard)

/-- `allocate_id` -/
def fresh (kind : IdKind) :
    Except String Nat × KirVerifiedProgramState Profile Contracts Proofs Guard :=
  let current := state.ids.cursor kind
  if current + 1 ≤ unitLimit then
    (.ok current, { state with ids := state.ids.setCursor (current + 1) kind })
  else (.error (identityExhausted kind.text), state)

/-- A write through `module_mut`. -/
def setModule (module : KirModule) (profile : Profile) :
    KirVerifiedProgramState Profile Contracts Proofs Guard :=
  { state with module, profile, verificationCache := { state.verificationCache with kirDigest := "" } }

def clearEvidence : KirVerifiedProgramState Profile Contracts Proofs Guard :=
  { state with verificationCache := { state.verificationCache with evidenceDigest := "" } }

/-- A write through `contract_facts_mut`, which gives access only to facts that are there. -/
def setContractFacts (facts : Contracts) : KirVerifiedProgramState Profile Contracts Proofs Guard :=
  { state.clearEvidence with contractFacts := state.contractFacts.map fun _ ↦ facts }

def setProofs (proofs : Proofs) : KirVerifiedProgramState Profile Contracts Proofs Guard :=
  { state.clearEvidence with proofs }

def setEliminatedGuards (guards : List Guard) :
    KirVerifiedProgramState Profile Contracts Proofs Guard :=
  { state.clearEvidence with eliminatedGuards := guards }

end KirVerifiedProgramState

namespace Mutation

/-- The trial that a mutation leaves or its error, and the identities it was handed. -/
def run : Mutation Profile Contracts Proofs Guard →
    KirVerifiedProgramState Profile Contracts Proofs Guard →
      Except String (KirVerifiedProgramState Profile Contracts Proofs Guard) × List (IdKind × Nat)
  | .done, trial => (.ok trial, [])
  | .fail error, _ => (.error error, [])
  | .look next, trial => (next trial).run trial
  | .fresh kind next, trial =>
      let result := (next (trial.fresh kind).1).run (trial.fresh kind).2
      match (trial.fresh kind).1 with
      | .ok id => (result.1, (kind, id) :: result.2)
      | .error _ => result
  | .setModule module profile next, trial => next.run (trial.setModule module profile)
  | .setContractFacts facts next, trial => next.run (trial.setContractFacts facts)
  | .setProofs proofs next, trial => next.run (trial.setProofs proofs)
  | .setEliminatedGuards guards next, trial => next.run (trial.setEliminatedGuards guards)
  | .assign state next, _ => next.run state

/-- The `mutate` argument of the source. -/
def mutate (mutation : Mutation Profile Contracts Proofs Guard)
    (trial : KirVerifiedProgramState Profile Contracts Proofs Guard) :
    Except String (KirVerifiedProgramState Profile Contracts Proofs Guard) :=
  (mutation.run trial).1

def handedOut (mutation : Mutation Profile Contracts Proofs Guard)
    (trial : KirVerifiedProgramState Profile Contracts Proofs Guard) : List (IdKind × Nat) :=
  (mutation.run trial).2

/-- An assigned state has no cursor below that of the state it replaces. -/
def KeepsCursors : Mutation Profile Contracts Proofs Guard →
    KirVerifiedProgramState Profile Contracts Proofs Guard → Prop
  | .done, _ => True
  | .fail _, _ => True
  | .look next, trial => (next trial).KeepsCursors trial
  | .fresh kind next, trial => (next (trial.fresh kind).1).KeepsCursors (trial.fresh kind).2
  | .setModule module profile next, trial => next.KeepsCursors (trial.setModule module profile)
  | .setContractFacts facts next, trial => next.KeepsCursors (trial.setContractFacts facts)
  | .setProofs proofs next, trial => next.KeepsCursors (trial.setProofs proofs)
  | .setEliminatedGuards guards next, trial =>
      next.KeepsCursors (trial.setEliminatedGuards guards)
  | .assign state next, trial =>
      (∀ kind, trial.ids.cursor kind ≤ state.ids.cursor kind) ∧ next.KeepsCursors state

end Mutation

/-! ## The transaction -/

inductive TransactionCheckError where
  | reject (reason : String)
  | compiler (error : String)
deriving DecidableEq, Repr

inductive TransactionOutcome where
  | committed
  | rejected
  | budgetExhausted
  | compilerError (error : String)
deriving DecidableEq, Repr

structure TransactionResult (Profile Contracts Proofs Guard : Type) where
  outcome : TransactionOutcome
  state : KirVerifiedProgramState Profile Contracts Proofs Guard
  audit : KirOptimizationAuditState

def executeVerifiedTransactionWithDisposition
    (env : VerifierEnvironment Profile Contracts Proofs Guard)
    (state : KirVerifiedProgramState Profile Contracts Proofs Guard)
    (audit : KirOptimizationAuditState) (key : CandidateKey) (charge : CandidateBudgetCharge)
    (successDisposition : CandidateDisposition)
    (mutate : KirVerifiedProgramState Profile Contracts Proofs Guard →
      Except String (KirVerifiedProgramState Profile Contracts Proofs Guard))
    (check : KirVerifiedProgramState Profile Contracts Proofs Guard →
      KirVerifiedProgramState Profile Contracts Proofs Guard → Except TransactionCheckError Unit) :
    TransactionResult Profile Contracts Proofs Guard :=
  if successDisposition ≠ .accepted ∧ successDisposition ≠ .reused then
    ⟨.compilerError "transaction success disposition is invalid", state, audit⟩
  else if audit.containsKey key then
    ⟨.compilerError (KirOptimizationAuditState.duplicateKey key), state, audit⟩
  else
    match audit.ledger.tryDebit charge with
    | none =>
        match audit.appendAttempt key charge .budgetExhausted "budget-exhausted" with
        | (some error, audit) => ⟨.compilerError error, state, audit⟩
        | (none, audit) => ⟨.budgetExhausted, state, audit⟩
    | some ledger =>
        let audit := { audit with ledger }
        match mutate state with
        | .error error =>
            ⟨.compilerError error, state, (audit.appendAttempt key charge .compilerError error).2⟩
        | .ok trial =>
            match check state trial with
            | .error (.reject reason) =>
                match audit.appendAttempt key charge .rejected reason with
                | (some error, audit) => ⟨.compilerError error, state, audit⟩
                | (none, audit) => ⟨.rejected, state, audit⟩
            | .error (.compiler error) =>
                ⟨.compilerError error, state,
                  (audit.appendAttempt key charge .compilerError error).2⟩
            | .ok () =>
                match env.revalidated trial with
                | .error error =>
                    ⟨.compilerError error, state,
                      (audit.appendAttempt key charge .compilerError error).2⟩
                | .ok verifiedTrial =>
                    match audit.appendAttempt key charge successDisposition
                      successDisposition.stableName with
                    | (some error, audit) => ⟨.compilerError error, state, audit⟩
                    | (none, audit) => ⟨.committed, verifiedTrial, audit⟩

def executeVerifiedTransaction (env : VerifierEnvironment Profile Contracts Proofs Guard)
    (state : KirVerifiedProgramState Profile Contracts Proofs Guard)
    (audit : KirOptimizationAuditState) (key : CandidateKey) (charge : CandidateBudgetCharge)
    (mutate : KirVerifiedProgramState Profile Contracts Proofs Guard →
      Except String (KirVerifiedProgramState Profile Contracts Proofs Guard))
    (check : KirVerifiedProgramState Profile Contracts Proofs Guard →
      KirVerifiedProgramState Profile Contracts Proofs Guard → Except TransactionCheckError Unit) :
    TransactionResult Profile Contracts Proofs Guard :=
  executeVerifiedTransactionWithDisposition env state audit key charge .accepted mutate check

end CalcKernel
