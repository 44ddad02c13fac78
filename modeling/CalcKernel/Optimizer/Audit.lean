import Mathlib.Algebra.GroupWithZero.Nat
import CalcKernel.Kir.Model
import Mathlib.Data.List.Dedup
import Mathlib.Data.List.Pairwise

/-!
# The optimizer audit

The budget ledger and the record of attempts.  A key is recorded once, under the next
sequence number, as long as that number fits a `u32`.
-/

namespace CalcKernel

inductive LoopCandidateKind where
  | loopSimd | boundaryPeel | interiorNormalize | normalizationUnswitch | wasmInvariantLoad
  | decisionTreeVector | fullUnroll | partialUnroll | runtimeScalarUnroll
deriving DecidableEq, Repr

def loopKindName : LoopCandidateKind → String
  | .loopSimd => "loop-simd"
  | .boundaryPeel => "boundary-peel"
  | .interiorNormalize => "interior-normalize"
  | .normalizationUnswitch => "normalization-unswitch"
  | .wasmInvariantLoad => "wasm-invariant-load"
  | .decisionTreeVector => "decision-tree-vector"
  | .fullUnroll => "full-unroll"
  | .partialUnroll => "partial-unroll"
  | .runtimeScalarUnroll => "runtime-scalar-unroll"

inductive LoopCandidateVariant where
  | scalar | slp
deriving DecidableEq, Repr

def loopVariantName : LoopCandidateVariant → String
  | .scalar => "scalar"
  | .slp => "slp"

inductive CandidateKey where
  | specialization (caller : FunctionId) (call : InstructionId) (callee : FunctionId)
      (factSetDigest : String)
  | loopFrontier (function : FunctionId) (loopId : LoopId) (kind : LoopCandidateKind)
      (variant : LoopCandidateVariant) (vf uf : Nat)
  | residualSlp (function : FunctionId) (block : BlockId) (root : InstructionId) (lanes : Nat)
deriving DecidableEq, Repr

def CandidateKey.stableText : CandidateKey → String
  | .specialization caller call callee factSetDigest =>
      s!"specialization:f{caller}:i{call}:f{callee}:{factSetDigest}"
  | .loopFrontier function loopId kind variant vf uf =>
      s!"loop:f{function}:loop{loopId}:{loopKindName kind}:{loopVariantName variant}:vf{vf}:uf{uf}"
  | .residualSlp function block root lanes =>
      s!"residual-slp:f{function}:b{block}:i{root}:lanes{lanes}"

inductive CandidateDisposition where
  | accepted | rejected | reused | nonWinner | budgetExhausted | compilerError
deriving DecidableEq, Repr

def CandidateDisposition.stableName : CandidateDisposition → String
  | .accepted => "accepted"
  | .rejected => "rejected"
  | .reused => "reused"
  | .nonWinner => "non-winner"
  | .budgetExhausted => "budget-exhausted"
  | .compilerError => "compiler-error"

structure CandidateBudgetCharge where
  functions : List FunctionId
  proposerUnits : Nat
  checkerUnits : Nat
deriving DecidableEq, Repr

/-- The charged functions, if there are any and none is named twice. -/
def CandidateBudgetCharge.functionSet (charge : CandidateBudgetCharge) : Option (List FunctionId) :=
  if charge.functions ≠ [] ∧ charge.functions.Nodup then some charge.functions else none

structure FunctionOptimizationBudget where
  proposerInitial : Nat
  proposerRemaining : Nat
  checkerInitial : Nat
  checkerRemaining : Nat
deriving DecidableEq, Repr

structure OptimizationBudgetLedger where
  functions : List (FunctionId × FunctionOptimizationBudget)
  owners : List (FunctionId × FunctionId)
deriving DecidableEq, Repr

/-- The largest `u32`. -/
def unitLimit : Nat := 4294967295

def kirFunctionUnits (function : KirFunction) : Nat :=
  min unitLimit (function.params.length + function.regions.length + function.initialMemory.length +
    function.vectorRegions.length + (function.blocks.map fun block ↦
      1 + block.params.length + block.memoryParams.length + block.instructions.length).sum)

namespace OptimizationBudgetLedger

/-- Of functions with one identity the last has its budget registered. -/
def forModule (module : KirModule) : OptimizationBudgetLedger where
  functions := module.functions.reverse.map fun function ↦
    let units := kirFunctionUnits function
    let proposer := min unitLimit (min unitLimit (units * 64) + 128)
    let checker := min unitLimit (min unitLimit (units * 96) + 256)
    (function.id, ⟨proposer, proposer, checker, checker⟩)
  owners := module.functions.map fun function ↦ (function.id, function.id)

def canPay (charge : CandidateBudgetCharge) (budget : FunctionOptimizationBudget) : Bool :=
  charge.proposerUnits ≤ budget.proposerRemaining ∧ charge.checkerUnits ≤ budget.checkerRemaining

/-- The ledger after the charge; `none` where the source answers `false`. -/
def tryDebit (ledger : OptimizationBudgetLedger) (charge : CandidateBudgetCharge) :
    Option OptimizationBudgetLedger := do
  let chargedFunctions ← charge.functionSet
  let owners ← chargedFunctions.mapM fun function ↦ ledger.owners.lookup function
  let functions := owners.dedup
  if functions.all fun owner ↦ (ledger.functions.lookup owner).any (canPay charge) then
    some { ledger with
      functions := ledger.functions.map fun entry ↦
        if entry.1 ∈ functions then
          (entry.1, { entry.2 with
            proposerRemaining := entry.2.proposerRemaining - charge.proposerUnits
            checkerRemaining := entry.2.checkerRemaining - charge.checkerUnits })
        else entry }
  else none

end OptimizationBudgetLedger

structure OptimizationAttempt where
  sequence : Nat
  key : CandidateKey
  disposition : CandidateDisposition
  reason : String
  charge : CandidateBudgetCharge
deriving DecidableEq, Repr

structure KirOptimizationAuditState where
  ledger : OptimizationBudgetLedger
  attempts : List OptimizationAttempt
  keys : List CandidateKey
  accepted : Nat
  rejected : Nat
deriving DecidableEq, Repr

namespace KirOptimizationAuditState

def forModule (module : KirModule) : KirOptimizationAuditState :=
  ⟨.forModule module, [], [], 0, 0⟩

def containsKey (audit : KirOptimizationAuditState) (key : CandidateKey) : Bool :=
  key ∈ audit.keys

def duplicateKey (key : CandidateKey) : String :=
  s!"duplicate optimizer candidate key: {key.stableText}"

/-- The counters after an attempt. -/
def count (audit : KirOptimizationAuditState) : CandidateDisposition → KirOptimizationAuditState
  | .accepted => { audit with accepted := min unitLimit (audit.accepted + 1) }
  | .rejected | .budgetExhausted | .compilerError =>
      { audit with rejected := min unitLimit (audit.rejected + 1) }
  | .reused | .nonWinner => audit

/-- The audit with the attempt appended, or the error and what is left behind: the key stays
inserted when the sequence number does not fit. -/
def appendAttempt (audit : KirOptimizationAuditState) (key : CandidateKey)
    (charge : CandidateBudgetCharge) (disposition : CandidateDisposition) (reason : String) :
    Option String × KirOptimizationAuditState :=
  if key ∈ audit.keys then (some (duplicateKey key), audit)
  else
    let inserted := { audit with keys := key :: audit.keys }
    if audit.attempts.length ≤ unitLimit then
      let counted := inserted.count disposition
      (none, { counted with
        attempts := audit.attempts ++ [⟨audit.attempts.length, key, disposition, reason, charge⟩] })
    else (some "optimizer audit sequence exceeds u32 identity space", inserted)

/-! ## The record -/

/-- The keys of the attempts are known and distinct, and the attempts are numbered in order. -/
structure WellFormed (audit : KirOptimizationAuditState) : Prop where
  known : ∀ attempt ∈ audit.attempts, attempt.key ∈ audit.keys
  distinct : (audit.attempts.map (·.key)).Nodup
  numbered : audit.attempts.map (·.sequence) = List.range audit.attempts.length

variable {audit : KirOptimizationAuditState} {key : CandidateKey} {charge : CandidateBudgetCharge}
  {disposition : CandidateDisposition} {reason : String}

theorem wellFormed_forModule (module : KirModule) : (forModule module).WellFormed where
  known _ h := by cases h
  distinct := List.nodup_nil
  numbered := Eq.refl _

theorem WellFormed.withLedger (h : audit.WellFormed) (ledger : OptimizationBudgetLedger) :
    WellFormed { audit with ledger } :=
  ⟨h.known, h.distinct, h.numbered⟩

@[simp] theorem count_attempts : (audit.count disposition).attempts = audit.attempts := by
  cases disposition <;> exact Eq.refl _

@[simp] theorem count_keys : (audit.count disposition).keys = audit.keys := by
  cases disposition <;> exact Eq.refl _

/-- What appending an attempt can do. -/
theorem appendAttempt_cases (audit : KirOptimizationAuditState) (key : CandidateKey)
    (charge : CandidateBudgetCharge) (disposition : CandidateDisposition) (reason : String) :
    (key ∈ audit.keys ∧
      audit.appendAttempt key charge disposition reason = (some (duplicateKey key), audit)) ∨
    (key ∉ audit.keys ∧ unitLimit < audit.attempts.length ∧
      ∃ error, audit.appendAttempt key charge disposition reason =
        (some error, { audit with keys := key :: audit.keys })) ∨
    (key ∉ audit.keys ∧ audit.attempts.length ≤ unitLimit ∧
      ∃ audit', audit.appendAttempt key charge disposition reason = (none, audit') ∧
        audit'.keys = key :: audit.keys ∧
        audit'.attempts = audit.attempts ++
          [⟨audit.attempts.length, key, disposition, reason, charge⟩]) := by
  unfold appendAttempt
  by_cases hkey : key ∈ audit.keys
  · rw [if_pos hkey]
    exact Or.inl ⟨hkey, Eq.refl _⟩
  · rw [if_neg hkey]
    by_cases hlength : audit.attempts.length ≤ unitLimit
    · rw [if_pos hlength]
      exact Or.inr (Or.inr ⟨hkey, hlength, _, Eq.refl _, count_keys, Eq.refl _⟩)
    · rw [if_neg hlength]
      exact Or.inr (Or.inl ⟨hkey, Nat.lt_of_not_le hlength, _, Eq.refl _⟩)

/-- Appending changes nothing, knows one more key, or records that key. -/
theorem WellFormed.appendAttempt (h : audit.WellFormed) :
    (audit.appendAttempt key charge disposition reason).2.WellFormed := by
  rcases audit.appendAttempt_cases key charge disposition reason with
    ⟨-, heq⟩ | ⟨-, -, error, heq⟩ | ⟨hkey, -, audit', heq, hkeys, hattempts⟩ <;> rw [heq]
  · exact h
  · exact ⟨fun attempt hattempt ↦ List.mem_cons_of_mem _ (h.known attempt hattempt), h.distinct,
      h.numbered⟩
  · refine ⟨fun attempt hattempt ↦ ?_, ?_, ?_⟩ <;> dsimp only at *
    · rw [hkeys]
      rw [hattempts] at hattempt
      rcases List.mem_append.mp hattempt with hold | hnew
      · exact List.mem_cons_of_mem _ (h.known attempt hold)
      · rw [List.mem_singleton.mp hnew]
        exact List.mem_cons_self
    · rw [hattempts, List.map_append, List.map_singleton]
      refine List.Nodup.append h.distinct (List.nodup_singleton _) ?_
      intro k hk hsingle
      obtain ⟨attempt, hattempt, rfl⟩ := List.mem_map.mp hk
      have hsame : attempt.key = key := List.mem_singleton.mp hsingle
      exact hkey (hsame ▸ h.known attempt hattempt)
    · rw [hattempts, List.map_append, h.numbered, List.length_append, List.length_singleton,
        List.range_succ, List.map_singleton]

theorem attempts_subset_appendAttempt :
    audit.attempts ⊆ (audit.appendAttempt key charge disposition reason).2.attempts := by
  rcases audit.appendAttempt_cases key charge disposition reason with
    ⟨-, heq⟩ | ⟨-, -, error, heq⟩ | ⟨-, -, audit', heq, -, hattempts⟩ <;> rw [heq]
  · exact List.Subset.refl _
  · exact List.Subset.refl _
  · dsimp only
    rw [hattempts]
    exact List.subset_append_left _ _

theorem mem_appendAttempt (hkey : key ∉ audit.keys) (hlength : audit.attempts.length ≤ unitLimit) :
    ∃ attempt ∈ (audit.appendAttempt key charge disposition reason).2.attempts,
      attempt.key = key := by
  rcases audit.appendAttempt_cases key charge disposition reason with
    ⟨hknown, -⟩ | ⟨-, hlong, -⟩ | ⟨-, -, audit', heq, -, hattempts⟩
  · exact absurd hknown hkey
  · omega
  · rw [heq]
    dsimp only
    rw [hattempts]
    exact ⟨_, List.mem_append_right _ (List.mem_singleton_self _), Eq.refl _⟩

/-- Well-formed audits have at most one attempt for a key. -/
theorem WellFormed.countP_eq_one (h : audit.WellFormed)
    (hkey : ∃ attempt ∈ audit.attempts, attempt.key = key) :
    audit.attempts.countP (·.key = key) = 1 := by
  have hcount : audit.attempts.countP (·.key = key) = (audit.attempts.map (·.key)).count key := by
    rw [List.count, List.countP_map]
    exact List.countP_congr fun attempt _ ↦ by simp
  obtain ⟨attempt, hattempt, rfl⟩ := hkey
  rw [hcount]
  exact List.count_eq_one_of_mem h.distinct (List.mem_map_of_mem hattempt)

theorem WellFormed.pairwise_sequence (h : audit.WellFormed) :
    (audit.attempts.map (·.sequence)).Pairwise (· < ·) := by
  rw [h.numbered]
  exact List.pairwise_lt_range

end KirOptimizationAuditState

end CalcKernel
