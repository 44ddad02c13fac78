import CalcKernel.Optimizer.Transaction

/-!
# Sequences of transactions

A transaction that does not commit leaves the state alone, one that commits leaves the
revalidated trial, and each fresh key is recorded under the next number.  The cursors of a
committed state are computed from the identities that survive in it, so an identity that was
handed out is handed out again unless one at least as large survives every commit.
-/

namespace CalcKernel

open Lib

variable {Profile Contracts Proofs Guard : Type}
  {env : VerifierEnvironment Profile Contracts Proofs Guard}

/-! ## One transaction -/

/-- What a transaction with a valid success disposition does. -/
inductive TransactionEffect (env : VerifierEnvironment Profile Contracts Proofs Guard)
    (state : KirVerifiedProgramState Profile Contracts Proofs Guard)
    (audit : KirOptimizationAuditState) (key : CandidateKey) (charge : CandidateBudgetCharge)
    (mutate : KirVerifiedProgramState Profile Contracts Proofs Guard →
      Except String (KirVerifiedProgramState Profile Contracts Proofs Guard))
    (check : KirVerifiedProgramState Profile Contracts Proofs Guard →
      KirVerifiedProgramState Profile Contracts Proofs Guard → Except TransactionCheckError Unit) :
    TransactionResult Profile Contracts Proofs Guard → Prop
  | duplicate (error : String) (known : key ∈ audit.keys) :
      TransactionEffect env state audit key charge mutate check ⟨.compilerError error, state, audit⟩
  | unchanged (outcome : TransactionOutcome) (ledger : OptimizationBudgetLedger)
      (disposition : CandidateDisposition) (reason : String) (fresh : key ∉ audit.keys)
      (notCommitted : outcome ≠ .committed) :
      TransactionEffect env state audit key charge mutate check ⟨outcome, state,
        (KirOptimizationAuditState.appendAttempt { audit with ledger } key charge disposition
          reason).2⟩
  | committed (trial verified : KirVerifiedProgramState Profile Contracts Proofs Guard)
      (ledger : OptimizationBudgetLedger) (disposition : CandidateDisposition) (reason : String)
      (fresh : key ∉ audit.keys) (mutated : mutate state = .ok trial)
      (checked : check state trial = .ok ()) (revalidated : env.revalidated trial = .ok verified) :
      TransactionEffect env state audit key charge mutate check ⟨.committed, verified,
        (KirOptimizationAuditState.appendAttempt { audit with ledger } key charge disposition
          reason).2⟩

section

variable {state : KirVerifiedProgramState Profile Contracts Proofs Guard}
  {audit : KirOptimizationAuditState} {key : CandidateKey} {charge : CandidateBudgetCharge}
  {mutate : KirVerifiedProgramState Profile Contracts Proofs Guard →
    Except String (KirVerifiedProgramState Profile Contracts Proofs Guard)}
  {check : KirVerifiedProgramState Profile Contracts Proofs Guard →
    KirVerifiedProgramState Profile Contracts Proofs Guard → Except TransactionCheckError Unit}

theorem transactionEffect (disposition : CandidateDisposition)
    (hdisposition : disposition = .accepted ∨ disposition = .reused) :
    TransactionEffect env state audit key charge mutate check
      (executeVerifiedTransactionWithDisposition env state audit key charge disposition mutate
        check) := by
  unfold executeVerifiedTransactionWithDisposition
  rw [if_neg (by rcases hdisposition with rfl | rfl <;> decide)]
  by_cases hkey : key ∈ audit.keys
  · rw [if_pos (by simpa [KirOptimizationAuditState.containsKey] using hkey)]
    exact .duplicate _ hkey
  · rw [if_neg (by simpa [KirOptimizationAuditState.containsKey] using hkey)]
    cases audit.ledger.tryDebit charge with
    | none =>
        dsimp only
        split <;> rename_i heq <;> obtain rfl := congrArg Prod.snd heq
        · exact .unchanged _ audit.ledger _ _ hkey TransactionOutcome.noConfusion
        · exact .unchanged _ audit.ledger _ _ hkey TransactionOutcome.noConfusion
    | some ledger =>
        dsimp only
        cases hmutate : mutate state with
        | error error => exact .unchanged _ ledger _ _ hkey TransactionOutcome.noConfusion
        | ok trial =>
            dsimp only
            cases hcheck : check state trial with
            | error failure =>
                cases failure with
                | compiler error => exact .unchanged _ ledger _ _ hkey TransactionOutcome.noConfusion
                | reject reason =>
                    dsimp only
                    split <;> rename_i heq <;> obtain rfl := congrArg Prod.snd heq
                    · exact .unchanged _ ledger _ _ hkey TransactionOutcome.noConfusion
                    · exact .unchanged _ ledger _ _ hkey TransactionOutcome.noConfusion
            | ok _ =>
                dsimp only
                cases hverified : env.revalidated trial with
                | error error => exact .unchanged _ ledger _ _ hkey TransactionOutcome.noConfusion
                | ok verified =>
                    dsimp only
                    split <;> rename_i heq <;> obtain rfl := congrArg Prod.snd heq
                    · exact .unchanged _ ledger _ _ hkey TransactionOutcome.noConfusion
                    · exact .committed trial verified ledger _ _ hkey hmutate hcheck hverified

theorem revalidated_eq {trial verified : KirVerifiedProgramState Profile Contracts Proofs Guard}
    (h : env.revalidated trial = .ok verified) : env.errors trial = [] ∧
      ∃ ids, env.idsFor trial.module trial.proofs = .ok ids ∧
        verified = { trial with ids, verificationCache := env.cacheIdentity trial } := by
  unfold VerifierEnvironment.revalidated at h
  split at h
  · cases h
  · rename_i herrors
    obtain ⟨ids, hids, h⟩ := bind_eq_ok.mp h
    cases h
    exact ⟨not_not.mp herrors, ids, hids, Eq.refl _⟩

variable {result : TransactionResult Profile Contracts Proofs Guard}

theorem TransactionEffect.atomic
    (heffect : TransactionEffect env state audit key charge mutate check result)
    (h : result.outcome ≠ .committed) : result.state = state := by
  cases heffect with
  | duplicate => exact Eq.refl _
  | unchanged => exact Eq.refl _
  | committed => exact absurd (Eq.refl _) h

theorem TransactionEffect.trial
    (heffect : TransactionEffect env state audit key charge mutate check result)
    (h : result.outcome = .committed) : ∃ trial ids, mutate state = .ok trial ∧
      env.idsFor trial.module trial.proofs = .ok ids ∧ env.errors trial = [] ∧
        result.state = { trial with ids, verificationCache := env.cacheIdentity trial } := by
  cases heffect with
  | duplicate => cases h
  | unchanged => exact absurd h ‹_›
  | committed trial verified ledger disposition reason fresh mutated checked revalidated =>
      obtain ⟨herrors, ids, hids, heq⟩ := revalidated_eq revalidated
      exact ⟨trial, ids, mutated, hids, herrors, heq⟩

theorem TransactionEffect.wellFormed
    (heffect : TransactionEffect env state audit key charge mutate check result)
    (h : audit.WellFormed) : result.audit.WellFormed := by
  cases heffect with
  | duplicate => exact h
  | unchanged outcome ledger => exact (h.withLedger ledger).appendAttempt
  | committed trial verified ledger => exact (h.withLedger ledger).appendAttempt

theorem TransactionEffect.attempts_subset
    (heffect : TransactionEffect env state audit key charge mutate check result) :
    audit.attempts ⊆ result.audit.attempts := by
  cases heffect with
  | duplicate => exact List.Subset.refl _
  | unchanged outcome ledger =>
      exact @KirOptimizationAuditState.attempts_subset_appendAttempt { audit with ledger } _ _ _ _
  | committed trial verified ledger =>
      exact @KirOptimizationAuditState.attempts_subset_appendAttempt { audit with ledger } _ _ _ _

/-- A fresh key is recorded while the sequence numbers suffice. -/
theorem TransactionEffect.mem_attempts
    (heffect : TransactionEffect env state audit key charge mutate check result)
    (hlength : audit.attempts.length ≤ unitLimit) (hkey : key ∉ audit.keys) :
    ∃ attempt ∈ result.audit.attempts, attempt.key = key := by
  cases heffect with
  | duplicate error known => exact absurd known hkey
  | unchanged outcome ledger =>
      exact @KirOptimizationAuditState.mem_appendAttempt { audit with ledger } _ _ _ _ hkey hlength
  | committed trial verified ledger =>
      exact @KirOptimizationAuditState.mem_appendAttempt { audit with ledger } _ _ _ _ hkey hlength

end

/-! ## Cursors -/

theorem nextIdentity_le {ids : List Nat} {kind : String} {next id : Nat}
    (h : nextIdentity ids kind = .ok next) (hid : id ∈ ids) : id < next := by
  unfold nextIdentity at h
  split at h
  · rename_i hnone
    rw [List.max?_eq_none_iff.mp hnone] at hid
    cases hid
  · rename_i maximum hmax
    have hle := (List.max?_eq_some_iff.mp hmax).2 id hid
    split at h
    · cases h
      omega
    · cases h

/-- A recomputed cursor lies behind every identity of its kind. -/
theorem lt_cursor_of_mem {module : KirModule} {proofs : Proofs} {ids : KirIdAllocators}
    (h : env.idsFor module proofs = .ok ids) {kind : IdKind} {id : Nat}
    (hid : id ∈ moduleIds module kind) : id < ids.cursor kind := by
  obtain ⟨nextFunction, hfunction, h⟩ := bind_eq_ok.mp h
  obtain ⟨nextBlock, hblock, h⟩ := bind_eq_ok.mp h
  obtain ⟨nextValue, hvalue, h⟩ := bind_eq_ok.mp h
  obtain ⟨nextInstruction, hinstruction, h⟩ := bind_eq_ok.mp h
  obtain ⟨nextMemoryRegion, hregion, h⟩ := bind_eq_ok.mp h
  obtain ⟨nextMemoryVersion, hversion, h⟩ := bind_eq_ok.mp h
  obtain ⟨nextVectorRegion, hvector, h⟩ := bind_eq_ok.mp h
  obtain ⟨nextLoop, -, h⟩ := bind_eq_ok.mp h
  obtain ⟨nextProof, -, h⟩ := bind_eq_ok.mp h
  cases h
  cases kind with
  | function => exact nextIdentity_le hfunction hid
  | block => exact nextIdentity_le hblock hid
  | value => exact nextIdentity_le hvalue hid
  | instruction => exact nextIdentity_le hinstruction hid
  | memoryRegion => exact nextIdentity_le hregion hid
  | memoryVersion => exact nextIdentity_le hversion hid
  | vectorRegion => exact nextIdentity_le hvector hid

theorem cursor_setCursor (ids : KirIdAllocators) (next : Nat) (kind kind' : IdKind) :
    (ids.setCursor next kind).cursor kind' = if kind = kind' then next else ids.cursor kind' := by
  cases kind <;> cases kind' <;> exact Eq.refl _

section

variable {state : KirVerifiedProgramState Profile Contracts Proofs Guard}

theorem cursor_le_fresh (kind kind' : IdKind) :
    state.ids.cursor kind' ≤ (state.fresh kind).2.ids.cursor kind' := by
  unfold KirVerifiedProgramState.fresh
  dsimp only
  split
  · rw [cursor_setCursor]
    split
    · rename_i hkind
      subst hkind
      omega
    · exact le_refl _
  · exact le_refl _

theorem fresh_eq {kind : IdKind} {id : Nat} (h : (state.fresh kind).1 = .ok id) :
    id = state.ids.cursor kind ∧ id < (state.fresh kind).2.ids.cursor kind := by
  unfold KirVerifiedProgramState.fresh at h ⊢
  dsimp only at h ⊢
  split at h
  · rename_i hlimit
    cases h
    rw [if_pos hlimit, cursor_setCursor, if_pos (Eq.refl _)]
    exact ⟨Eq.refl _, Nat.lt_succ_self _⟩
  · cases h

theorem handedOut_fresh (kind : IdKind)
    (next : Except String Nat → Mutation Profile Contracts Proofs Guard) :
    (Mutation.fresh kind next).handedOut state =
      (match (state.fresh kind).1 with
        | .ok id => [(kind, id)]
        | .error _ => []) ++ (next (state.fresh kind).1).handedOut (state.fresh kind).2 := by
  rw [Mutation.handedOut, Mutation.run]
  cases (state.fresh kind).1 <;> exact Eq.refl _

/-- An identity comes from the first call or from what follows it. -/
theorem mem_handedOut_fresh {kind kind' : IdKind} {id : Nat}
    {next : Except String Nat → Mutation Profile Contracts Proofs Guard}
    (h : (kind, id) ∈ (Mutation.fresh kind' next).handedOut state) :
    (kind = kind' ∧ (state.fresh kind').1 = .ok id) ∨
      (kind, id) ∈ (next (state.fresh kind').1).handedOut (state.fresh kind').2 := by
  rw [handedOut_fresh] at h
  rcases List.mem_append.mp h with h | h
  · split at h
    · rename_i id' hfresh
      obtain ⟨rfl, rfl⟩ := Prod.mk.inj (List.mem_singleton.mp h)
      exact Or.inl ⟨Eq.refl _, hfresh⟩
    · cases h
  · exact Or.inr h

/-- Every identity that a mutation is handed is at or behind the cursor it starts from. -/
theorem le_of_mem_handedOut {mutation : Mutation Profile Contracts Proofs Guard}
    (hkeeps : mutation.KeepsCursors state) {kind : IdKind} {id : Nat}
    (h : (kind, id) ∈ mutation.handedOut state) : state.ids.cursor kind ≤ id := by
  induction mutation generalizing state with
  | done => cases h
  | fail error => cases h
  | look next ih => exact ih state hkeeps h
  | fresh kind' next ih =>
      rcases mem_handedOut_fresh h with ⟨rfl, hfresh⟩ | h
      · exact (fresh_eq hfresh).1.ge
      · exact le_trans (cursor_le_fresh kind' kind) (ih _ hkeeps h)
  | setModule module profile next ih => exact @ih (state.setModule module profile) hkeeps h
  | setContractFacts facts next ih => exact @ih (state.setContractFacts facts) hkeeps h
  | setProofs proofs next ih => exact @ih (state.setProofs proofs) hkeeps h
  | setEliminatedGuards guards next ih => exact @ih (state.setEliminatedGuards guards) hkeeps h
  | assign replacement next ih => exact le_trans (hkeeps.1 kind) (ih hkeeps.2 h)

theorem nodup_handedOut {mutation : Mutation Profile Contracts Proofs Guard}
    (hkeeps : mutation.KeepsCursors state) : (mutation.handedOut state).Nodup := by
  induction mutation generalizing state with
  | done => exact List.nodup_nil
  | fail error => exact List.nodup_nil
  | look next ih => exact ih state hkeeps
  | fresh kind next ih =>
      rw [handedOut_fresh]
      split
      · rename_i id hfresh
        refine List.nodup_cons.mpr ⟨fun hmem ↦ ?_, ih _ hkeeps⟩
        have hrest : (next (state.fresh kind).1).KeepsCursors (state.fresh kind).2 := hkeeps
        have hle := le_of_mem_handedOut hrest hmem
        have hlt := (fresh_eq hfresh).2
        omega
      · exact ih _ hkeeps
  | setModule module profile next ih => exact @ih (state.setModule module profile) hkeeps
  | setContractFacts facts next ih => exact @ih (state.setContractFacts facts) hkeeps
  | setProofs proofs next ih => exact @ih (state.setProofs proofs) hkeeps
  | setEliminatedGuards guards next ih => exact @ih (state.setEliminatedGuards guards) hkeeps
  | assign replacement next ih => exact @ih replacement hkeeps.2

end

/-! ## Runs -/

/-- One call of `execute_verified_transaction`, or of its sibling for a reused candidate. -/
structure TransactionRequest (Profile Contracts Proofs Guard : Type) where
  key : CandidateKey
  charge : CandidateBudgetCharge
  reused : Bool
  mutation : Mutation Profile Contracts Proofs Guard
  check : KirVerifiedProgramState Profile Contracts Proofs Guard →
    KirVerifiedProgramState Profile Contracts Proofs Guard → Except TransactionCheckError Unit

namespace TransactionRequest

def disposition (request : TransactionRequest Profile Contracts Proofs Guard) :
    CandidateDisposition :=
  if request.reused then .reused else .accepted

def execute (env : VerifierEnvironment Profile Contracts Proofs Guard)
    (request : TransactionRequest Profile Contracts Proofs Guard)
    (state : KirVerifiedProgramState Profile Contracts Proofs Guard)
    (audit : KirOptimizationAuditState) : TransactionResult Profile Contracts Proofs Guard :=
  executeVerifiedTransactionWithDisposition env state audit request.key request.charge
    request.disposition request.mutation.mutate request.check

theorem execute_accepted (request : TransactionRequest Profile Contracts Proofs Guard)
    (h : request.reused = false)
    (state : KirVerifiedProgramState Profile Contracts Proofs Guard)
    (audit : KirOptimizationAuditState) :
    request.execute env state audit = executeVerifiedTransaction env state audit request.key
      request.charge request.mutation.mutate request.check := by
  rw [execute, disposition, h]
  exact Eq.refl _

theorem effect (env : VerifierEnvironment Profile Contracts Proofs Guard)
    (request : TransactionRequest Profile Contracts Proofs Guard)
    (state : KirVerifiedProgramState Profile Contracts Proofs Guard)
    (audit : KirOptimizationAuditState) :
    TransactionEffect env state audit request.key request.charge request.mutation.mutate
      request.check (request.execute env state audit) := by
  refine transactionEffect _ ?_
  cases hreused : request.reused <;> simp [disposition, hreused]

end TransactionRequest

/-- A transaction of a run, with the states around it. -/
structure TransactionStep (Profile Contracts Proofs Guard : Type) where
  before : KirVerifiedProgramState Profile Contracts Proofs Guard
  auditBefore : KirOptimizationAuditState
  request : TransactionRequest Profile Contracts Proofs Guard
  outcome : TransactionOutcome
  after : KirVerifiedProgramState Profile Contracts Proofs Guard
  auditAfter : KirOptimizationAuditState

namespace TransactionStep

def handedOut (step : TransactionStep Profile Contracts Proofs Guard) : List (IdKind × Nat) :=
  step.request.mutation.handedOut step.before

end TransactionStep

/-- The transactions of a sequence, one after the other. -/
def runTransactions (env : VerifierEnvironment Profile Contracts Proofs Guard) :
    KirVerifiedProgramState Profile Contracts Proofs Guard → KirOptimizationAuditState →
      List (TransactionRequest Profile Contracts Proofs Guard) →
        List (TransactionStep Profile Contracts Proofs Guard)
  | _, _, [] => []
  | state, audit, request :: requests =>
      let result := request.execute env state audit
      ⟨state, audit, request, result.outcome, result.state, result.audit⟩ ::
        runTransactions env result.state result.audit requests

/-- The attempts for the key of `step` after `later`. -/
def RecordedOnce (step later : TransactionStep Profile Contracts Proofs Guard) : Prop :=
  step.request.key ∉ step.auditBefore.keys →
    later.auditAfter.attempts.countP (·.key = step.request.key) = 1

def HandsOutOthers (step later : TransactionStep Profile Contracts Proofs Guard) : Prop :=
  step.outcome = .committed → ∀ identity ∈ step.handedOut, identity ∉ later.handedOut

/-- What transactions guarantee over a run. -/
structure TransactionLaw (env : VerifierEnvironment Profile Contracts Proofs Guard)
    (steps : List (TransactionStep Profile Contracts Proofs Guard)) : Prop where
  atomic : ∀ step ∈ steps, step.outcome ≠ .committed → step.after = step.before
  committed : ∀ step ∈ steps, step.outcome = .committed → ∃ trial ids,
    step.request.mutation.mutate step.before = .ok trial ∧
      step.after = { trial with ids, verificationCache := env.cacheIdentity trial } ∧
      env.errors step.after = [] ∧ step.after.verificationCache = env.cacheIdentity step.after
  recorded : ∀ step ∈ steps, RecordedOnce step step
  staysRecorded : steps.Pairwise RecordedOnce
  numbered : ∀ step ∈ steps, (step.auditAfter.attempts.map (·.sequence)).Pairwise (· < ·)
  handedOutOnce : ∀ step ∈ steps, step.outcome = .committed → step.handedOut.Nodup
  handedOutNeverAgain : steps.Pairwise HandsOutOthers

/-- The identities that `earlier` was handed have one at least as large behind them in what `step`
commits. -/
def Survives (earlier step : TransactionStep Profile Contracts Proofs Guard) : Prop :=
  earlier.outcome = .committed → step.outcome = .committed → ∀ trial,
    step.request.mutation.mutate step.before = .ok trial → ∀ identity ∈ earlier.handedOut,
      ∃ id ∈ moduleIds trial.module identity.1, identity.2 ≤ id

/-- The sequence numbers suffice, no mutation lowers a cursor, and no commit loses the largest
identity of a kind that was handed out. -/
structure KeepsIdentities (steps : List (TransactionStep Profile Contracts Proofs Guard)) :
    Prop where
  sequences : ∀ step ∈ steps, step.auditBefore.attempts.length ≤ unitLimit
  cursors : ∀ step ∈ steps, step.request.mutation.KeepsCursors step.before
  survives : ∀ step ∈ steps, Survives step step
  staysAlive : steps.Pairwise Survives

section

variable {state : KirVerifiedProgramState Profile Contracts Proofs Guard}
  {audit : KirOptimizationAuditState}
  {request : TransactionRequest Profile Contracts Proofs Guard}
  {requests : List (TransactionRequest Profile Contracts Proofs Guard)}
  {step : TransactionStep Profile Contracts Proofs Guard}

/-- Every step of a run is the execution of its request. -/
theorem effect_of_mem (h : step ∈ runTransactions env state audit requests) :
    TransactionEffect env step.before step.auditBefore step.request.key step.request.charge
      step.request.mutation.mutate step.request.check
      ⟨step.outcome, step.after, step.auditAfter⟩ := by
  induction requests generalizing state audit with
  | nil => cases h
  | cons request requests ih =>
      rw [runTransactions] at h
      rcases List.mem_cons.mp h with rfl | h
      · exact request.effect env state audit
      · exact ih h

/-! ### Records -/

theorem wellFormed_of_mem (haudit : audit.WellFormed)
    (h : step ∈ runTransactions env state audit requests) :
    step.auditBefore.WellFormed ∧ step.auditAfter.WellFormed := by
  induction requests generalizing state audit with
  | nil => cases h
  | cons request requests ih =>
      have hnext := (request.effect env state audit).wellFormed haudit
      rw [runTransactions] at h
      rcases List.mem_cons.mp h with rfl | h
      · exact ⟨haudit, hnext⟩
      · exact ih hnext h

theorem attempts_subset_of_mem (h : step ∈ runTransactions env state audit requests) :
    audit.attempts ⊆ step.auditAfter.attempts := by
  induction requests generalizing state audit with
  | nil => cases h
  | cons request requests ih =>
      have hnext := (request.effect env state audit).attempts_subset
      rw [runTransactions] at h
      rcases List.mem_cons.mp h with rfl | h
      · exact hnext
      · exact List.Subset.trans hnext (ih h)

theorem pairwise_recordedOnce (haudit : audit.WellFormed)
    (hlength : ∀ step ∈ runTransactions env state audit requests,
      step.auditBefore.attempts.length ≤ unitLimit) :
    (runTransactions env state audit requests).Pairwise RecordedOnce := by
  induction requests generalizing state audit with
  | nil => exact .nil
  | cons request requests ih =>
      have heffect := request.effect env state audit
      have hnext := heffect.wellFormed haudit
      rw [runTransactions] at hlength ⊢
      refine .cons (fun later hlater hkey ↦ ?_) (ih hnext fun step hstep ↦
        hlength step (List.mem_cons_of_mem _ hstep))
      obtain ⟨attempt, hattempt, heq⟩ :=
        heffect.mem_attempts (hlength _ List.mem_cons_self) hkey
      exact (wellFormed_of_mem hnext hlater).2.countP_eq_one
        ⟨attempt, attempts_subset_of_mem hlater hattempt, heq⟩

/-! ### Identities -/

/-- Identities below the cursors stay below them while one at least as large survives, and are not
handed out. -/
theorem notMem_handedOut {identities : List (IdKind × Nat)}
    (hbelow : ∀ identity ∈ identities, identity.2 < state.ids.cursor identity.1)
    (hkeeps : ∀ step ∈ runTransactions env state audit requests,
      step.request.mutation.KeepsCursors step.before)
    (hsurvive : ∀ step ∈ runTransactions env state audit requests, step.outcome = .committed →
      ∀ trial, step.request.mutation.mutate step.before = .ok trial →
        ∀ identity ∈ identities, ∃ id ∈ moduleIds trial.module identity.1, identity.2 ≤ id)
    (h : step ∈ runTransactions env state audit requests) :
    ∀ identity ∈ identities, identity ∉ step.handedOut := by
  induction requests generalizing state audit with
  | nil => cases h
  | cons request requests ih =>
      have heffect := request.effect env state audit
      rw [runTransactions] at hkeeps hsurvive h
      rcases List.mem_cons.mp h with rfl | h
      · intro identity hidentity hmem
        have hle := le_of_mem_handedOut (hkeeps _ List.mem_cons_self) hmem
        have hlt := hbelow identity hidentity
        dsimp only at hle
        omega
      · refine ih (fun identity hidentity ↦ ?_)
          (fun step hstep ↦ hkeeps step (List.mem_cons_of_mem _ hstep))
          (fun step hstep ↦ hsurvive step (List.mem_cons_of_mem _ hstep)) h
        by_cases hcommitted : (request.execute env state audit).outcome = .committed
        · obtain ⟨trial, ids, hmutate, hids, -, heq⟩ := heffect.trial hcommitted
          obtain ⟨id, hid, hle⟩ :=
            hsurvive _ List.mem_cons_self hcommitted trial hmutate identity hidentity
          rw [heq]
          exact lt_of_le_of_lt hle (lt_cursor_of_mem hids hid)
        · rw [heffect.atomic hcommitted]
          exact hbelow identity hidentity

theorem pairwise_handsOutOthers
    (hkeeps : KeepsIdentities (runTransactions env state audit requests)) :
    (runTransactions env state audit requests).Pairwise HandsOutOthers := by
  induction requests generalizing state audit with
  | nil => exact .nil
  | cons request requests ih =>
      have heffect := request.effect env state audit
      obtain ⟨hsequences, hcursors, hsurvives, hstays⟩ := hkeeps
      rw [runTransactions] at hsequences hcursors hsurvives hstays ⊢
      obtain ⟨hhead, htail⟩ := List.pairwise_cons.mp hstays
      refine .cons (fun later hlater hcommitted ↦ ?_) (ih ⟨?_, ?_, ?_, htail⟩)
      · refine notMem_handedOut (fun identity hidentity ↦ ?_)
          (fun step hstep ↦ hcursors step (List.mem_cons_of_mem _ hstep))
          (fun step hstep hstepCommitted trial hmutate ↦
            hhead step hstep hcommitted hstepCommitted trial hmutate) hlater
        obtain ⟨trial, ids, hmutate, hids, -, heq⟩ := heffect.trial hcommitted
        obtain ⟨id, hid, hle⟩ := hsurvives _ List.mem_cons_self hcommitted hcommitted trial hmutate
          identity hidentity
        rw [heq]
        exact lt_of_le_of_lt hle (lt_cursor_of_mem hids hid)
      · exact fun step hstep ↦ hsequences step (List.mem_cons_of_mem _ hstep)
      · exact fun step hstep ↦ hcursors step (List.mem_cons_of_mem _ hstep)
      · exact fun step hstep ↦ hsurvives step (List.mem_cons_of_mem _ hstep)

/-- A run in which no commit loses the largest identities keeps the law. -/
theorem transactionLaw_of_keepsIdentities (haudit : audit.WellFormed)
    (hkeeps : KeepsIdentities (runTransactions env state audit requests)) :
    TransactionLaw env (runTransactions env state audit requests) where
  atomic step hstep h := (effect_of_mem hstep).atomic h
  committed step hstep h := by
    obtain ⟨trial, ids, hmutate, -, herrors, heq⟩ := (effect_of_mem hstep).trial h
    dsimp only at heq
    refine ⟨trial, ids, hmutate, heq, ?_, ?_⟩
    · rw [heq]
      exact herrors
    · rw [heq]
      exact Eq.refl _
  recorded step hstep hkey := by
    have heffect := effect_of_mem hstep
    exact (wellFormed_of_mem haudit hstep).2.countP_eq_one
      (heffect.mem_attempts (hkeeps.sequences step hstep) hkey)
  staysRecorded := pairwise_recordedOnce haudit hkeeps.sequences
  numbered step hstep := (wellFormed_of_mem haudit hstep).2.pairwise_sequence
  handedOutOnce step hstep _ := nodup_handedOut (hkeeps.cursors step hstep)
  handedOutNeverAgain := pairwise_handsOutOthers hkeeps

end

/-! ## An identity that is handed out twice -/

/-- Allocate `n` identities of a kind. -/
def freshTimes (kind : IdKind) : Nat → Mutation Profile Contracts Proofs Guard
  | 0 => .done
  | n + 1 => .fresh kind fun _ ↦ freshTimes kind n

/-- An identity that a commit has put in front of the cursor again is handed out again after enough
calls. -/
theorem mem_handedOut_freshTimes {state : KirVerifiedProgramState Profile Contracts Proofs Guard}
    {kind : IdKind} {n : Nat} (h : state.ids.cursor kind + n + 1 ≤ unitLimit) :
    (kind, state.ids.cursor kind + n) ∈ (freshTimes kind (n + 1)).handedOut state := by
  induction n generalizing state with
  | zero =>
      rw [freshTimes, handedOut_fresh, KirVerifiedProgramState.fresh, if_pos (by omega)]
      exact List.mem_cons_self
  | succ n ih =>
      have hcursor : (state.fresh kind).2.ids.cursor kind = state.ids.cursor kind + 1 := by
        rw [KirVerifiedProgramState.fresh, if_pos (by omega), cursor_setCursor, if_pos (Eq.refl _)]
      have hrest := @ih (state.fresh kind).2 (by rw [hcursor]; omega)
      rw [hcursor] at hrest
      rw [freshTimes, handedOut_fresh]
      refine List.mem_append_right _ ?_
      have hsum : state.ids.cursor kind + (n + 1) = state.ids.cursor kind + 1 + n := by omega
      rw [hsum]
      exact hrest

/-- A module of one function with one block. -/
def blockModule (instructions : List KirInstruction) : KirModule where
  config := ⟨.inspection, .unchecked, .unchecked, .disabled⟩
  entry := none
  structs := []
  functions := [{
    id := 0
    name := "f"
    exported := false
    params := []
    returnType := .void
    regions := []
    initialMemory := []
    vectorRegions := []
    blocks := [⟨0, "entry", [], [], instructions, .return none [] 0⟩] }]

/-- An environment that accepts every state. -/
def acceptingEnvironment : VerifierEnvironment Unit Unit Unit Unit where
  validate _ _ _ _ _ _ := []
  kirDigest _ _ := "kir"
  evidenceDigest _ _ _ _ := "evidence"
  loopIds _ := []
  proofIds _ := []

/-- The state of the module without instructions, as `from_parts` builds it. -/
def blockState : KirVerifiedProgramState Unit Unit Unit Unit where
  module := blockModule []
  profile := ()
  contractFacts := none
  proofs := ()
  eliminatedGuards := []
  evidenceGeneration := 0
  optimizationEntryModuleUnits := 1
  ids := ⟨1, 1, 0, 0, 0, 0, 0, 0, 0⟩
  verificationCache := ⟨"kir", "evidence"⟩

/-- Append a constant under a fresh value and a fresh instruction. -/
def appendConstant : Mutation Unit Unit Unit Unit :=
  .look fun trial ↦ .fresh .value fun value ↦ .fresh .instruction fun instruction ↦
    match value, instruction with
    | .ok value, .ok instruction =>
        let constant : KirInstruction :=
          ⟨instruction, [⟨value, .scalar (.primitive .i32)⟩], .constInt "1", none, none⟩
        .setModule (blockModule ((trial.module.functions.flatMap (·.instructions)) ++ [constant])) ()
          .done
    | .error error, _ => .fail error
    | _, .error error => .fail error

/-- Remove the constants again. -/
def removeConstants : Mutation Unit Unit Unit Unit := .setModule (blockModule []) () .done

def blockRequest (root : InstructionId) (mutation : Mutation Unit Unit Unit Unit) :
    TransactionRequest Unit Unit Unit Unit where
  key := .residualSlp 0 0 root 2
  charge := ⟨[0], 1, 1⟩
  reused := false
  mutation
  check _ _ := .ok ()

def blockRun (requests : List (TransactionRequest Unit Unit Unit Unit)) :
    List (TransactionStep Unit Unit Unit Unit) :=
  runTransactions acceptingEnvironment blockState (.forModule (blockModule [])) requests

theorem fromParts_blockState :
    acceptingEnvironment.fromParts (blockModule []) () none () [] 0 = .ok blockState := Eq.refl _

theorem keepsCursors_appendConstant (state : KirVerifiedProgramState Unit Unit Unit Unit) :
    appendConstant.KeepsCursors state := by
  rw [appendConstant, Mutation.KeepsCursors, Mutation.KeepsCursors, Mutation.KeepsCursors]
  split <;> exact trivial

/-- Both constants stay, so the law holds. -/
theorem transactionLaw_appendConstant : TransactionLaw acceptingEnvironment
    (blockRun [blockRequest 0 appendConstant, blockRequest 1 appendConstant]) := by
  refine transactionLaw_of_keepsIdentities
    (KirOptimizationAuditState.wellFormed_forModule _) ⟨?_, ?_, ?_, ?_⟩
  · exact List.forall_mem_cons.mpr ⟨by decide, List.forall_mem_cons.mpr
      ⟨by decide, List.forall_mem_nil _⟩⟩
  · exact List.forall_mem_cons.mpr ⟨keepsCursors_appendConstant _, List.forall_mem_cons.mpr
      ⟨keepsCursors_appendConstant _, List.forall_mem_nil _⟩⟩
  · refine List.forall_mem_cons.mpr ⟨?_, List.forall_mem_cons.mpr ⟨?_, List.forall_mem_nil _⟩⟩
    · intro _ _ trial htrial
      cases htrial
      exact List.forall_mem_cons.mpr ⟨⟨0, by decide, by decide⟩, List.forall_mem_cons.mpr
        ⟨⟨0, by decide, by decide⟩, List.forall_mem_nil _⟩⟩
    · intro _ _ trial htrial
      cases htrial
      exact List.forall_mem_cons.mpr ⟨⟨1, by decide, by decide⟩, List.forall_mem_cons.mpr
        ⟨⟨1, by decide, by decide⟩, List.forall_mem_nil _⟩⟩
  · refine .cons (List.forall_mem_cons.mpr ⟨?_, List.forall_mem_nil _⟩)
      (.cons (List.forall_mem_nil _) .nil)
    intro _ _ trial htrial
    cases htrial
    exact List.forall_mem_cons.mpr ⟨⟨0, by decide, by decide⟩, List.forall_mem_cons.mpr
      ⟨⟨0, by decide, by decide⟩, List.forall_mem_nil _⟩⟩

/-- The first constant is removed before the second is made, which gets its identity. -/
theorem not_transactionLaw : ¬ TransactionLaw acceptingEnvironment (blockRun
    [blockRequest 0 appendConstant, blockRequest 1 removeConstants,
      blockRequest 2 appendConstant]) := by
  intro h
  have hpairs := h.handedOutNeverAgain
  have hfirst := (List.pairwise_cons.mp hpairs).1
  refine hfirst _ (List.mem_cons_of_mem _ List.mem_cons_self) (Eq.refl _) (.value, 0) ?_ ?_
  · exact List.mem_cons_self
  · exact List.mem_cons_self

end CalcKernel
