import Mathlib.Algebra.GroupWithZero.Nat
import CalcKernel.Optimizer.TransactionRuns

/-!
# Budgets along a run

What an owner has spent is what the recorded attempts charge it, over every sequence of ledger
and audit operations in which no step meets one of the checks that come after a change: a
clone registered over another owner, a known key charged again, a record past the last
sequence number, or a charge that nobody records.
-/

namespace CalcKernel

open Lib

namespace OptimizationBudgetLedger

/-- The clone shares the budget of the original's owner.  The owner is inserted before the
check that the clone had none. -/
def registerClone (ledger : OptimizationBudgetLedger) (clone original : FunctionId) :
    Option String × OptimizationBudgetLedger :=
  match ledger.owners.lookup original with
  | none => (some "optimizer clone budget original is missing", ledger)
  | some owner =>
      let inserted := { ledger with owners := upsert clone owner ledger.owners }
      if (ledger.owners.lookup clone).isSome then
        (some "optimizer clone budget identity is already registered", inserted)
      else (none, inserted)

variable {ledger ledger' : OptimizationBudgetLedger} {charge : CandidateBudgetCharge}
variable {owner f : FunctionId}

/-- The charge names functions, each once, whose owners can pay. -/
def Payable (ledger : OptimizationBudgetLedger) (charge : CandidateBudgetCharge) : Prop :=
  charge.functions ≠ [] ∧ charge.functions.Nodup ∧ ∀ f ∈ charge.functions, ∃ owner budget,
    ledger.owners.lookup f = some owner ∧ ledger.functions.lookup owner = some budget ∧
      canPay charge budget = true

/-- The owner or one of its clones is charged. -/
def Names (ledger : OptimizationBudgetLedger) (charge : CandidateBudgetCharge)
    (owner : FunctionId) : Prop :=
  ∃ f ∈ charge.functions, ledger.owners.lookup f = some owner

instance : Decidable (ledger.Names charge owner) := by
  unfold Names
  infer_instance

def pay (charge : CandidateBudgetCharge) (budget : FunctionOptimizationBudget) :
    FunctionOptimizationBudget :=
  { budget with
    proposerRemaining := budget.proposerRemaining - charge.proposerUnits
    checkerRemaining := budget.checkerRemaining - charge.checkerUnits }

/-- What a debit does: the charge is payable, and every owner it names pays once. -/
theorem tryDebit_eq_some (h : ledger.tryDebit charge = some ledger') :
    ledger.Payable charge ∧ ledger'.owners = ledger.owners ∧
      ledger'.functions = ledger.functions.map fun entry ↦
        (entry.1, if ledger.Names charge entry.1 then pay charge entry.2 else entry.2) := by
  simp only [tryDebit, Option.bind_eq_bind, Option.bind_eq_some_iff] at h
  obtain ⟨charged, hcharged, owners, howners, h⟩ := h
  unfold CandidateBudgetCharge.functionSet at hcharged
  split at hcharged
  case isFalse => cases hcharged
  rename_i hset
  cases hcharged
  have hlookup := mapM_option_eq_some howners
  have hnames : ∀ o, o ∈ owners.dedup ↔ ledger.Names charge o := by
    intro o
    rw [List.mem_dedup]
    constructor
    · exact fun ho ↦ forall₂_mem_right hlookup ho
    · rintro ⟨f, hf, ho⟩
      obtain ⟨o', ho', heq⟩ := forall₂_mem_left hlookup hf
      exact Option.some.inj (ho.symm.trans heq) ▸ ho'
  split at h
  case isFalse => cases h
  rename_i hall
  cases h
  refine ⟨⟨hset.1, hset.2, fun f hf ↦ ?_⟩, rfl, List.map_congr_left fun entry _ ↦ ?_⟩
  · obtain ⟨o, ho, heq⟩ := forall₂_mem_left hlookup hf
    have hpay := List.all_eq_true.mp hall o (List.mem_dedup.mpr ho)
    obtain ⟨budget, hbudget, hcan⟩ := (Option.any_eq_true _ _).mp hpay
    exact ⟨o, budget, heq, hbudget, hcan⟩
  · by_cases hname : ledger.Names charge entry.1
    · rw [if_pos ((hnames _).mpr hname), if_pos hname]
      rfl
    · rw [if_neg (mt (hnames _).mp hname), if_neg hname]

theorem tryDebit_of_not_payable (h : ¬ ledger.Payable charge) : ledger.tryDebit charge = none :=
  Option.eq_none_iff_forall_ne_some.mpr fun _ hdebit ↦ h (tryDebit_eq_some hdebit).1

/-- The budget of an owner after a debit. -/
theorem tryDebit_lookup (h : ledger.tryDebit charge = some ledger') (owner : FunctionId) :
    ledger'.functions.lookup owner = (ledger.functions.lookup owner).map fun budget ↦
      if ledger.Names charge owner then pay charge budget else budget := by
  rw [(tryDebit_eq_some h).2.2]
  exact lookup_map_values (fun o budget ↦ if ledger.Names charge o then pay charge budget
    else budget) owner

/-- A charge of no units changes nothing. -/
theorem tryDebit_zero (h : ledger.tryDebit charge = some ledger')
    (hproposer : charge.proposerUnits = 0) (hchecker : charge.checkerUnits = 0) :
    ledger' = ledger := by
  obtain ⟨-, howners, hfunctions⟩ := tryDebit_eq_some h
  obtain ⟨functions', owners'⟩ := ledger'
  obtain ⟨functions, owners⟩ := ledger
  dsimp only at howners hfunctions
  subst howners
  have hpay : ∀ budget, pay charge budget = budget := by
    intro budget
    rw [pay, hproposer, hchecker, Nat.sub_zero, Nat.sub_zero]
  have hsame : functions' = functions := by
    rw [hfunctions]
    refine (List.map_congr_left fun entry _ ↦ ?_).trans functions.map_id
    rw [hpay, ite_self]
    rfl
  rw [hsame]

/-- Registering a clone keeps the owner of every function, unless the clone has another. -/
theorem registerClone_lookup {clone original : FunctionId}
    (hmeets : ∀ owner, ledger.owners.lookup original = some owner →
      ∀ o, ledger.owners.lookup clone = some o → o = owner)
    (h : ledger.owners.lookup f = some owner) :
    (ledger.registerClone clone original).2.owners.lookup f = some owner := by
  unfold registerClone
  split
  · exact h
  · rename_i o ho
    have hlookup : (upsert clone o ledger.owners).lookup f = some owner := by
      rw [lookup_upsert]
      split
      · rename_i hf
        obtain rfl : f = clone := by simpa using hf
        rw [hmeets o ho owner h]
      · exact h
    dsimp only
    split <;> exact hlookup

theorem registerClone_functions (ledger : OptimizationBudgetLedger) (clone original : FunctionId) :
    (ledger.registerClone clone original).2.functions = ledger.functions := by
  unfold registerClone
  split
  · rfl
  · dsimp only
    split <;> rfl

theorem registerClone_error {clone original : FunctionId}
    (hmeets : ∀ owner, ledger.owners.lookup original = some owner →
      ∀ o, ledger.owners.lookup clone = some o → o = owner)
    (h : (ledger.registerClone clone original).1.isSome) :
    (ledger.registerClone clone original).2 = ledger := by
  unfold registerClone at h ⊢
  split
  · rfl
  · rename_i o ho
    rw [ho] at h
    dsimp only at h ⊢
    split at h
    case isFalse => cases h
    rename_i hclone
    rw [if_pos hclone]
    obtain ⟨o', ho'⟩ := Option.isSome_iff_exists.mp hclone
    rw [upsert_of_lookup (hmeets o ho o' ho' ▸ ho')]

end OptimizationBudgetLedger

open OptimizationBudgetLedger

namespace KirOptimizationAuditState

def recordNoncommittingAttempt (audit : KirOptimizationAuditState) (key : CandidateKey)
    (charge : CandidateBudgetCharge) (disposition : CandidateDisposition) (reason : String) :
    Option String × KirOptimizationAuditState :=
  if disposition ≠ .rejected ∧ disposition ≠ .reused ∧ disposition ≠ .nonWinner then
    (some "noncommitting audit disposition is invalid", audit)
  else
    match audit.ledger.tryDebit charge with
    | some ledger =>
        appendAttempt { audit with ledger } key charge disposition reason
    | none => audit.appendAttempt key charge .budgetExhausted "budget-exhausted"

/-- The recorded attempts that an owner paid for. -/
def paidBy (audit : KirOptimizationAuditState) (owner : FunctionId) : List OptimizationAttempt :=
  audit.attempts.filter fun attempt ↦
    attempt.disposition ≠ .budgetExhausted ∧ audit.ledger.Names attempt.charge owner

/-- What the attempts that an owner paid for charge. -/
def spent (audit : KirOptimizationAuditState) (units : CandidateBudgetCharge → Nat)
    (owner : FunctionId) : Nat :=
  ((audit.paidBy owner).map fun attempt ↦ units attempt.charge).sum

/-- Every owner has spent what the recorded attempts charge it. -/
def Balanced (audit : KirOptimizationAuditState) : Prop :=
  ∀ owner budget, audit.ledger.functions.lookup owner = some budget →
    budget.proposerInitial = budget.proposerRemaining + audit.spent (·.proposerUnits) owner ∧
    budget.checkerInitial = budget.checkerRemaining + audit.spent (·.checkerUnits) owner

/-- The functions of the attempts that were paid have owners. -/
def Registered (audit : KirOptimizationAuditState) : Prop :=
  ∀ attempt ∈ audit.attempts, attempt.disposition ≠ .budgetExhausted →
    ∀ f ∈ attempt.charge.functions, (audit.ledger.owners.lookup f).isSome

variable {audit audit' : KirOptimizationAuditState} {key : CandidateKey}
variable {charge : CandidateBudgetCharge} {disposition : CandidateDisposition} {reason : String}

/-- The audit is the other one with an attempt appended, and another ledger. -/
structure Appends (audit : KirOptimizationAuditState) (ledger : OptimizationBudgetLedger)
    (key : CandidateKey) (charge : CandidateBudgetCharge) (disposition : CandidateDisposition)
    (audit' : KirOptimizationAuditState) : Prop where
  ledger : audit'.ledger = ledger
  attempts : ∃ reason, audit'.attempts = audit.attempts ++
    [⟨audit.attempts.length, key, disposition, reason, charge⟩]

@[simp] theorem count_ledger : (audit.count disposition).ledger = audit.ledger := by
  cases disposition <;> rfl

theorem appendAttempt_known (h : key ∈ audit.keys) :
    audit.appendAttempt key charge disposition reason = (some (duplicateKey key), audit) := by
  rw [appendAttempt, if_pos h]

/-- A fresh key with a sequence number is appended. -/
theorem appendAttempt_fresh (audit : KirOptimizationAuditState) (charge : CandidateBudgetCharge)
    (disposition : CandidateDisposition) (reason : String) (h : key ∉ audit.keys)
    (hlength : audit.attempts.length ≤ unitLimit) :
    (audit.appendAttempt key charge disposition reason).1 = none ∧
      audit.Appends audit.ledger key charge disposition
        (audit.appendAttempt key charge disposition reason).2 := by
  rw [appendAttempt, if_neg h]
  dsimp only
  rw [if_pos hlength]
  exact ⟨rfl, count_ledger, reason, rfl⟩

theorem spent_append {ledger : OptimizationBudgetLedger}
    (h : audit.Appends ledger key charge disposition audit')
    (howners : ledger.owners = audit.ledger.owners) (units : CandidateBudgetCharge → Nat)
    (owner : FunctionId) :
    audit'.spent units owner = audit.spent units owner +
      if disposition ≠ .budgetExhausted ∧ audit.ledger.Names charge owner then units charge
      else 0 := by
  obtain ⟨reason, hattempts⟩ := h.attempts
  have hnames : ∀ charge, audit'.ledger.Names charge owner ↔ audit.ledger.Names charge owner := by
    intro charge
    rw [Names, Names, h.ledger, howners]
  simp only [spent, paidBy, hattempts, hnames, List.filter_append, List.map_append, List.sum_append]
  congr 1
  by_cases hpaid : disposition ≠ .budgetExhausted ∧ audit.ledger.Names charge owner
  · rw [if_pos hpaid, List.filter_cons_of_pos (by simpa using hpaid)]
    simp
  · rw [if_neg hpaid, List.filter_cons_of_neg (by simpa using hpaid)]
    simp

/-- An attempt that could not pay leaves all balances. -/
theorem Balanced.exhausted (h : audit.Balanced)
    (happends : audit.Appends audit.ledger key charge .budgetExhausted audit') :
    audit'.Balanced := by
  intro owner budget hbudget
  rw [happends.ledger] at hbudget
  rw [spent_append happends rfl, spent_append happends rfl]
  simpa using h owner budget hbudget

/-- An attempt that paid is charged to the owners that paid. -/
theorem Balanced.debited (h : audit.Balanced) {ledger : OptimizationBudgetLedger}
    (hdebit : audit.ledger.tryDebit charge = some ledger)
    (hdisposition : disposition ≠ .budgetExhausted)
    (happends : audit.Appends ledger key charge disposition audit') : audit'.Balanced := by
  obtain ⟨⟨-, -, hpayable⟩, howners, -⟩ := tryDebit_eq_some hdebit
  intro owner budget hbudget
  rw [happends.ledger, tryDebit_lookup hdebit] at hbudget
  obtain ⟨before, hbefore, rfl⟩ := Option.map_eq_some_iff.mp hbudget
  obtain ⟨hproposer, hchecker⟩ := h owner before hbefore
  rw [spent_append happends howners, spent_append happends howners]
  by_cases hnames : audit.ledger.Names charge owner
  · rw [if_pos hnames, if_pos ⟨hdisposition, hnames⟩, if_pos ⟨hdisposition, hnames⟩]
    obtain ⟨f, hf, ho⟩ := hnames
    obtain ⟨o, budget, ho', hlookup, hcan⟩ := hpayable f hf
    obtain rfl := Option.some.inj (ho.symm.trans ho')
    obtain rfl := Option.some.inj (hbefore.symm.trans hlookup)
    obtain ⟨hle, hle'⟩ := of_decide_eq_true hcan
    dsimp only [pay]
    omega
  · rw [if_neg hnames, if_neg (fun h ↦ hnames h.2), if_neg (fun h ↦ hnames h.2)]
    exact ⟨hproposer, hchecker⟩

theorem Registered.exhausted (h : audit.Registered)
    (happends : audit.Appends audit.ledger key charge .budgetExhausted audit') :
    audit'.Registered := by
  obtain ⟨reason, hattempts⟩ := happends.attempts
  intro attempt hmem hpaid
  rw [hattempts] at hmem
  rw [happends.ledger]
  rcases List.mem_append.mp hmem with hold | hnew
  · exact h attempt hold hpaid
  · rw [List.mem_singleton.mp hnew] at hpaid
    exact absurd rfl hpaid

theorem Registered.debited (h : audit.Registered) {ledger : OptimizationBudgetLedger}
    (hdebit : audit.ledger.tryDebit charge = some ledger)
    (happends : audit.Appends ledger key charge disposition audit') : audit'.Registered := by
  obtain ⟨⟨-, -, hpayable⟩, howners, -⟩ := tryDebit_eq_some hdebit
  obtain ⟨reason, hattempts⟩ := happends.attempts
  intro attempt hmem hpaid f hf
  rw [hattempts] at hmem
  rw [happends.ledger, howners]
  rcases List.mem_append.mp hmem with hold | hnew
  · exact h attempt hold hpaid f hf
  · rw [List.mem_singleton.mp hnew] at hf
    obtain ⟨owner, -, howner, -⟩ := hpayable f hf
    exact Option.isSome_iff_exists.mpr ⟨owner, howner⟩

/-- The balances stand while the owners and the budgets of what was paid do. -/
theorem Balanced.withOwners (h : audit.Balanced) (hregistered : audit.Registered)
    {ledger : OptimizationBudgetLedger} (hfunctions : ledger.functions = audit.ledger.functions)
    (howners : ∀ f owner, audit.ledger.owners.lookup f = some owner →
      ledger.owners.lookup f = some owner) : Balanced { audit with ledger } := by
  have hpaid : ∀ owner, paidBy { audit with ledger } owner = audit.paidBy owner := by
    intro owner
    refine List.filter_congr fun attempt hmem ↦ ?_
    rw [decide_eq_decide]
    refine and_congr_right fun hdisposition ↦ exists_congr fun f ↦ and_congr_right fun hf ↦ ?_
    obtain ⟨o, ho⟩ := Option.isSome_iff_exists.mp (hregistered attempt hmem hdisposition f hf)
    dsimp only
    rw [ho, howners f o ho]
  intro owner budget hbudget
  rw [hfunctions] at hbudget
  unfold spent
  rw [hpaid]
  exact h owner budget hbudget

theorem Registered.withOwners (h : audit.Registered) {ledger : OptimizationBudgetLedger}
    (howners : ∀ f owner, audit.ledger.owners.lookup f = some owner →
      ledger.owners.lookup f = some owner) : Registered { audit with ledger } := by
  intro attempt hmem hpaid f hf
  obtain ⟨o, ho⟩ := Option.isSome_iff_exists.mp (h attempt hmem hpaid f hf)
  exact Option.isSome_iff_exists.mpr ⟨o, howners f o ho⟩

end KirOptimizationAuditState

open KirOptimizationAuditState

/-! ## Operations -/

/-- The ledger and audit operations, and the transactions that debit and append. -/
inductive AuditOperation (Profile Contracts Proofs Guard : Type) where
  | tryDebit (charge : CandidateBudgetCharge)
  | registerClone (clone original : FunctionId)
  | recordNoncommittingAttempt (key : CandidateKey) (charge : CandidateBudgetCharge)
      (disposition : CandidateDisposition) (reason : String)
  | transaction (key : CandidateKey) (charge : CandidateBudgetCharge)
      (successDisposition : CandidateDisposition)
      (mutate : KirVerifiedProgramState Profile Contracts Proofs Guard →
        Except String (KirVerifiedProgramState Profile Contracts Proofs Guard))
      (check : KirVerifiedProgramState Profile Contracts Proofs Guard →
        KirVerifiedProgramState Profile Contracts Proofs Guard → Except TransactionCheckError Unit)

/-- The program and the audit that the optimizer works on. -/
structure OptimizerState (Profile Contracts Proofs Guard : Type) where
  program : KirVerifiedProgramState Profile Contracts Proofs Guard
  audit : KirOptimizationAuditState

variable {Profile Contracts Proofs Guard : Type}

namespace AuditOperation

/-- Whether the operation went well, and the state it leaves.  A transaction went well where
it recorded its attempt. -/
def apply (env : VerifierEnvironment Profile Contracts Proofs Guard)
    (s : OptimizerState Profile Contracts Proofs Guard) :
    AuditOperation Profile Contracts Proofs Guard →
      Bool × OptimizerState Profile Contracts Proofs Guard
  | tryDebit charge =>
      match s.audit.ledger.tryDebit charge with
      | some ledger => (true, { s with audit := { s.audit with ledger } })
      | none => (false, s)
  | registerClone clone original =>
      let result := s.audit.ledger.registerClone clone original
      (result.1.isNone, { s with audit := { s.audit with ledger := result.2 } })
  | recordNoncommittingAttempt key charge disposition reason =>
      let result := s.audit.recordNoncommittingAttempt key charge disposition reason
      (result.1.isNone, { s with audit := result.2 })
  | transaction key charge successDisposition mutate check =>
      let result := executeVerifiedTransactionWithDisposition env s.program s.audit key charge
        successDisposition mutate check
      (result.audit.attempts.length ≠ s.audit.attempts.length, ⟨result.state, result.audit⟩)

/-- The charge changes no budget. -/
def Idle (ledger : OptimizationBudgetLedger) (charge : CandidateBudgetCharge) : Prop :=
  ¬ ledger.Payable charge ∨ charge.proposerUnits = 0 ∧ charge.checkerUnits = 0

/-- The step meets no check that comes after a change, and its charge is recorded. -/
def Safe (audit : KirOptimizationAuditState) : AuditOperation Profile Contracts Proofs Guard → Prop
  | tryDebit charge => Idle audit.ledger charge
  | registerClone clone original =>
      ∀ owner, audit.ledger.owners.lookup original = some owner →
        ∀ o, audit.ledger.owners.lookup clone = some o → o = owner
  | recordNoncommittingAttempt key charge disposition _ =>
      (disposition ≠ .rejected ∧ disposition ≠ .reused ∧ disposition ≠ .nonWinner) ∨
      (if key ∈ audit.keys then Idle audit.ledger charge else audit.attempts.length ≤ unitLimit)
  | transaction key _ successDisposition _ _ =>
      (successDisposition ≠ .accepted ∧ successDisposition ≠ .reused) ∨
      key ∈ audit.keys ∨ audit.attempts.length ≤ unitLimit

end AuditOperation

open AuditOperation

variable {env : VerifierEnvironment Profile Contracts Proofs Guard}
variable {s : OptimizerState Profile Contracts Proofs Guard}

/-- The attempt that is appended could not pay, or has paid. -/
inductive Records (audit : KirOptimizationAuditState) : KirOptimizationAuditState → Prop
  | exhausted (key : CandidateKey) (charge : CandidateBudgetCharge)
      (audit' : KirOptimizationAuditState)
      (happends : audit.Appends audit.ledger key charge .budgetExhausted audit') :
      Records audit audit'
  | debited (key : CandidateKey) (charge : CandidateBudgetCharge)
      (ledger : OptimizationBudgetLedger) (disposition : CandidateDisposition)
      (audit' : KirOptimizationAuditState) (hdebit : audit.ledger.tryDebit charge = some ledger)
      (hdisposition : disposition ≠ .budgetExhausted)
      (happends : audit.Appends ledger key charge disposition audit') : Records audit audit'

theorem Records.length_ne {audit audit' : KirOptimizationAuditState} (h : Records audit audit') :
    audit'.attempts.length ≠ audit.attempts.length := by
  have hlength : ∃ attempt, audit'.attempts = audit.attempts ++ [attempt] := by
    cases h with
    | exhausted _ _ _ happends | debited _ _ _ _ _ _ _ happends =>
        obtain ⟨reason, hattempts⟩ := happends.attempts
        exact ⟨_, hattempts⟩
  obtain ⟨attempt, hattempts⟩ := hlength
  rw [hattempts, List.length_append, List.length_singleton]
  omega

/-- What an operation does to the audit: nothing, or it went well and changed the owners or
recorded an attempt. -/
inductive AuditChange (audit : KirOptimizationAuditState) : Bool → KirOptimizationAuditState → Prop
  | none (ok : Bool) : AuditChange audit ok audit
  | owners (ledger : OptimizationBudgetLedger)
      (hfunctions : ledger.functions = audit.ledger.functions)
      (howners : ∀ f owner, audit.ledger.owners.lookup f = some owner →
        ledger.owners.lookup f = some owner) : AuditChange audit true { audit with ledger }
  | records (audit' : KirOptimizationAuditState) (hrecords : Records audit audit') :
      AuditChange audit true audit'

/-- A transaction with a fresh key appends one attempt, which paid unless its budget was
exhausted. -/
theorem transaction_records {key : CandidateKey} {charge : CandidateBudgetCharge}
    {disposition : CandidateDisposition}
    {mutate : KirVerifiedProgramState Profile Contracts Proofs Guard →
      Except String (KirVerifiedProgramState Profile Contracts Proofs Guard)}
    {check : KirVerifiedProgramState Profile Contracts Proofs Guard →
      KirVerifiedProgramState Profile Contracts Proofs Guard → Except TransactionCheckError Unit}
    (hdisposition : disposition = .accepted ∨ disposition = .reused)
    (hkey : key ∉ s.audit.keys) (hlength : s.audit.attempts.length ≤ unitLimit) :
    Records s.audit (executeVerifiedTransactionWithDisposition env s.program s.audit key charge
      disposition mutate check).audit := by
  unfold executeVerifiedTransactionWithDisposition
  rw [if_neg (by rcases hdisposition with rfl | rfl <;> decide),
    if_neg (by simpa [KirOptimizationAuditState.containsKey] using hkey)]
  cases hdebit : s.audit.ledger.tryDebit charge with
  | none =>
      have happends := appendAttempt_fresh s.audit charge .budgetExhausted "budget-exhausted" hkey
        hlength
      dsimp only
      split <;> rename_i heq <;> rw [heq] at happends
      · exact .exhausted key charge _ happends.2
      · exact .exhausted key charge _ happends.2
  | some ledger =>
      have happends : ∀ d reason, d ≠ .budgetExhausted → Records s.audit
          (appendAttempt { s.audit with ledger } key charge d reason).2 := by
        intro d reason hd
        obtain ⟨-, happends⟩ :=
          appendAttempt_fresh { s.audit with ledger } charge d reason hkey hlength
        exact .debited key charge ledger d _ hdebit hd ⟨happends.ledger, happends.attempts⟩
      dsimp only
      cases mutate s.program with
      | error error => exact happends _ _ CandidateDisposition.noConfusion
      | ok trial =>
          dsimp only
          cases check s.program trial with
          | error failure =>
              cases failure with
              | compiler error => exact happends _ _ CandidateDisposition.noConfusion
              | reject reason =>
                  have hrejected := happends .rejected reason CandidateDisposition.noConfusion
                  dsimp only
                  split <;> rename_i heq <;> rw [heq] at hrejected <;> exact hrejected
          | ok _ =>
              dsimp only
              cases env.revalidated trial with
              | error error => exact happends _ _ CandidateDisposition.noConfusion
              | ok verified =>
                  have hdone := happends disposition disposition.stableName
                    (by rcases hdisposition with rfl | rfl <;> decide)
                  dsimp only
                  split <;> rename_i heq <;> rw [heq] at hdone <;> exact hdone

theorem AuditChange.of_debit {audit : KirOptimizationAuditState} {charge : CandidateBudgetCharge}
    {ledger : OptimizationBudgetLedger} (hidle : Idle audit.ledger charge)
    (hdebit : audit.ledger.tryDebit charge = some ledger) : ledger = audit.ledger := by
  rcases hidle with hnot | ⟨hproposer, hchecker⟩
  · exact absurd (tryDebit_eq_some hdebit).1 hnot
  · exact tryDebit_zero hdebit hproposer hchecker

/-- What a safe operation can do. -/
theorem apply_change (op : AuditOperation Profile Contracts Proofs Guard)
    (h : op.Safe s.audit) : AuditChange s.audit (op.apply env s).1 (op.apply env s).2.audit := by
  cases op with
  | tryDebit charge =>
      simp only [apply]
      cases hdebit : s.audit.ledger.tryDebit charge with
      | none => exact .none false
      | some ledger =>
          obtain rfl := AuditChange.of_debit h hdebit
          exact .none true
  | registerClone clone original =>
      cases hresult : (s.audit.ledger.registerClone clone original).1 with
      | none =>
          simp only [apply]
          rw [hresult]
          exact .owners _ (registerClone_functions _ _ _) fun f owner ↦ registerClone_lookup h
      | some error =>
          have hsame := registerClone_error h (Option.isSome_of_eq_some hresult)
          simp only [apply]
          rw [hresult, hsame]
          exact .none _
  | recordNoncommittingAttempt key charge disposition reason =>
      simp only [apply, KirOptimizationAuditState.recordNoncommittingAttempt]
      by_cases hdisposition :
          disposition ≠ .rejected ∧ disposition ≠ .reused ∧ disposition ≠ .nonWinner
      · rw [if_pos hdisposition]
        exact .none _
      rw [if_neg hdisposition]
      have hsafe := h.resolve_left hdisposition
      by_cases hkey : key ∈ s.audit.keys
      · rw [if_pos hkey] at hsafe
        cases hdebit : s.audit.ledger.tryDebit charge with
        | none =>
            dsimp only
            rw [appendAttempt_known hkey]
            exact .none _
        | some ledger =>
            obtain rfl := AuditChange.of_debit hsafe hdebit
            dsimp only
            rw [appendAttempt_known hkey]
            exact .none _
      · rw [if_neg hkey] at hsafe
        cases hdebit : s.audit.ledger.tryDebit charge with
        | none =>
            obtain ⟨hok, happends⟩ := appendAttempt_fresh s.audit charge .budgetExhausted
              "budget-exhausted" hkey hsafe
            dsimp only
            rw [hok]
            exact .records _ (.exhausted key charge _ happends)
        | some ledger =>
            obtain ⟨hok, happends⟩ := appendAttempt_fresh { s.audit with ledger } charge disposition
              reason hkey hsafe
            dsimp only
            rw [hok]
            refine .records _ (.debited key charge ledger disposition _ hdebit ?_
              ⟨happends.ledger, happends.attempts⟩)
            rintro rfl
            exact hdisposition (by decide)
  | transaction key charge disposition mutate check =>
      by_cases hdisposition : disposition ≠ .accepted ∧ disposition ≠ .reused
      · simp only [apply, executeVerifiedTransactionWithDisposition]
        rw [if_pos hdisposition]
        exact .none _
      by_cases hkey : key ∈ s.audit.keys
      · simp only [apply, executeVerifiedTransactionWithDisposition]
        rw [if_neg hdisposition, if_pos (by simpa [containsKey] using hkey)]
        exact .none _
      · have hlength := (h.resolve_left hdisposition).resolve_left hkey
        have hvalid : disposition = .accepted ∨ disposition = .reused := by
          cases disposition <;> simp_all
        have hrecords := @transaction_records _ _ _ _ env s key charge disposition mutate check
          hvalid hkey hlength
        simp only [apply]
        rw [decide_eq_true hrecords.length_ne]
        exact .records _ hrecords

namespace AuditChange

variable {audit audit' : KirOptimizationAuditState} {ok : Bool}

theorem balanced (h : AuditChange audit ok audit') (hbalanced : audit.Balanced)
    (hregistered : audit.Registered) : audit'.Balanced := by
  cases h with
  | none => exact hbalanced
  | owners ledger hfunctions howners => exact hbalanced.withOwners hregistered hfunctions howners
  | records _ hrecords =>
      cases hrecords with
      | exhausted key charge _ happends => exact hbalanced.exhausted happends
      | debited key charge ledger disposition _ hdebit hdisposition happends =>
          exact hbalanced.debited hdebit hdisposition happends

theorem registered (h : AuditChange audit ok audit') (hregistered : audit.Registered) :
    audit'.Registered := by
  cases h with
  | none => exact hregistered
  | owners ledger _ howners => exact hregistered.withOwners howners
  | records _ hrecords =>
      cases hrecords with
      | exhausted key charge _ happends => exact hregistered.exhausted happends
      | debited key charge ledger disposition _ hdebit _ happends =>
          exact hregistered.debited hdebit happends

theorem owner (h : AuditChange audit ok audit') {f owner : FunctionId}
    (howner : audit.ledger.owners.lookup f = some owner) :
    audit'.ledger.owners.lookup f = some owner := by
  cases h with
  | none => exact howner
  | owners ledger _ howners => exact howners f owner howner
  | records _ hrecords =>
      cases hrecords with
      | exhausted key charge _ happends => rw [happends.ledger]; exact howner
      | debited key charge ledger disposition _ hdebit _ happends =>
          rw [happends.ledger, (tryDebit_eq_some hdebit).2.1]
          exact howner

theorem unchanged (h : AuditChange audit ok audit') (hok : ok = false) : audit' = audit := by
  cases h with
  | none => rfl
  | owners | records => cases hok

end AuditChange

/-! ## Runs -/

namespace OptimizerState

/-- The state after a sequence of operations. -/
def run (env : VerifierEnvironment Profile Contracts Proofs Guard)
    (s : OptimizerState Profile Contracts Proofs Guard)
    (ops : List (AuditOperation Profile Contracts Proofs Guard)) :
    OptimizerState Profile Contracts Proofs Guard :=
  ops.foldl (fun s op ↦ (op.apply env s).2) s

/-- Every operation of the sequence is safe where it is made. -/
def SafeRun (env : VerifierEnvironment Profile Contracts Proofs Guard) :
    OptimizerState Profile Contracts Proofs Guard →
      List (AuditOperation Profile Contracts Proofs Guard) → Prop
  | _, [] => True
  | s, op :: ops => op.Safe s.audit ∧ SafeRun env (op.apply env s).2 ops

theorem SafeRun.append {done rest : List (AuditOperation Profile Contracts Proofs Guard)}
    (h : SafeRun env s (done ++ rest)) :
    SafeRun env s done ∧ SafeRun env (s.run env done) rest := by
  induction done generalizing s with
  | nil => exact ⟨trivial, h⟩
  | cons op done ih =>
      obtain ⟨hdone, hrest⟩ := ih h.2
      exact ⟨⟨h.1, hdone⟩, hrest⟩

variable {ops : List (AuditOperation Profile Contracts Proofs Guard)}

theorem SafeRun.balanced (h : SafeRun env s ops) (hbalanced : s.audit.Balanced)
    (hregistered : s.audit.Registered) : (s.run env ops).audit.Balanced := by
  induction ops generalizing s with
  | nil => exact hbalanced
  | cons op ops ih =>
      have hchange := @apply_change _ _ _ _ env _ op h.1
      exact ih h.2 (hchange.balanced hbalanced hregistered) (hchange.registered hregistered)

theorem SafeRun.owner (h : SafeRun env s ops) {f owner : FunctionId}
    (howner : s.audit.ledger.owners.lookup f = some owner) :
    (s.run env ops).audit.ledger.owners.lookup f = some owner := by
  induction ops generalizing s with
  | nil => exact howner
  | cons op ops ih => exact ih h.2 ((@apply_change _ _ _ _ env _ op h.1).owner howner)

end OptimizerState

theorem balanced_forModule (module : KirModule) :
    (KirOptimizationAuditState.forModule module).Balanced := by
  intro owner budget hbudget
  obtain ⟨function, -, heq⟩ := List.mem_map.mp (mem_of_lookup hbudget)
  obtain ⟨-, rfl⟩ := Prod.mk.inj heq
  exact ⟨rfl, rfl⟩

/-- Along a sequence of safe operations every owner has spent what the recorded attempts charge
it, an operation that goes wrong changes nothing, and no registered function changes its owner. -/
theorem budgets_conserved (env : VerifierEnvironment Profile Contracts Proofs Guard)
    (program : KirVerifiedProgramState Profile Contracts Proofs Guard) (module : KirModule)
    (done rest : List (AuditOperation Profile Contracts Proofs Guard))
    (hsafe : OptimizerState.SafeRun env ⟨program, .forModule module⟩ (done ++ rest)) :
    let reached := OptimizerState.run env ⟨program, .forModule module⟩ done
    reached.audit.Balanced ∧
      (∀ op later, rest = op :: later → (op.apply env reached).1 = false →
        (op.apply env reached).2.audit = reached.audit) ∧
      ∀ f owner, reached.audit.ledger.owners.lookup f = some owner →
        (reached.run env rest).audit.ledger.owners.lookup f = some owner := by
  obtain ⟨hdone, hrest⟩ := hsafe.append
  refine ⟨hdone.balanced (balanced_forModule module) (fun _ h ↦ by cases h), ?_,
    fun f owner ↦ hrest.owner⟩
  rintro op later rfl hfailed
  exact (apply_change op hrest.1).unchanged hfailed

/-! ## Steps that are not safe -/

/-- A module of two empty functions. -/
def twoFunctions : KirModule :=
  ⟨⟨.c, .checked, .checked, .disabled⟩, none, [],
    [⟨0, "f", true, [], .void, [], [], [], [⟨0, "bb0", [], [], [], .return none [] 0⟩]⟩,
      ⟨1, "g", true, [], .void, [], [], [], [⟨0, "bb0", [], [], [], .return none [] 0⟩]⟩]⟩

/-- A clone of `f` that is registered again, for `g`. -/
def cloneTwice : List (AuditOperation Unit Unit Unit Unit) :=
  [.registerClone 2 0, .registerClone 2 1]

/-- A rejected candidate that is recorded again, under the same key. -/
def recordTwice : List (AuditOperation Unit Unit Unit Unit) :=
  [.recordNoncommittingAttempt (.residualSlp 0 0 0 4) ⟨[0], 10, 20⟩ .rejected "cost",
    .recordNoncommittingAttempt (.residualSlp 0 0 0 4) ⟨[0], 10, 20⟩ .rejected "cost"]

/-- The environment that finds no errors. -/
def plainEnvironment : VerifierEnvironment Unit Unit Unit Unit where
  validate _ _ _ _ _ _ := []
  kirDigest _ _ := ""
  evidenceDigest _ _ _ _ := ""
  loopIds _ := []
  proofIds _ := []

def plainProgram : KirVerifiedProgramState Unit Unit Unit Unit :=
  ⟨twoFunctions, (), none, (), [], 0, 0, ⟨0, 0, 0, 0, 0, 0, 0, 0, 0⟩, ⟨"", ""⟩⟩

def plainState : OptimizerState Unit Unit Unit Unit := ⟨plainProgram, .forModule twoFunctions⟩

/-- The second registration fails and moves the clone to another owner; the second record fails
and is paid for without being recorded. -/
theorem budgets_lost :
    (plainState.run plainEnvironment (cloneTwice.take 1)).audit.ledger.owners.lookup 2 = some 0 ∧
      (AuditOperation.apply plainEnvironment (plainState.run plainEnvironment (cloneTwice.take 1))
        (.registerClone 2 1)).1 = false ∧
      (plainState.run plainEnvironment cloneTwice).audit.ledger.owners.lookup 2 = some 1 ∧
    ¬ (plainState.run plainEnvironment recordTwice).audit.Balanced := by
  refine ⟨by decide, by decide, by decide, fun h ↦ ?_⟩
  have hspent := (h 0 ⟨192, 172, 352, 312⟩ (by decide)).1
  revert hspent
  decide

/-- A clone, an accepted transaction charged to it, and a rejected candidate. -/
def plainRun : List (AuditOperation Unit Unit Unit Unit) :=
  [.registerClone 2 0,
    .transaction (.residualSlp 2 0 0 4) ⟨[2], 10, 20⟩ .accepted .ok fun _ _ ↦ .ok (),
    .recordNoncommittingAttempt (.residualSlp 1 0 0 4) ⟨[1], 1, 1⟩ .rejected "cost"]

theorem budgets_conserved_plain :
    (plainState.run plainEnvironment plainRun).audit.Balanced ∧
      (plainState.run plainEnvironment plainRun).audit.attempts.length = 2 := by
  have hsafe : OptimizerState.SafeRun plainEnvironment plainState (plainRun ++ []) := by
    refine ⟨fun owner _ o ho ↦ ?_, Or.inr (Or.inr (by decide)), Or.inr ?_, trivial⟩
    · cases ho
    · rw [if_neg (by decide)]
      decide
  exact ⟨(budgets_conserved plainEnvironment plainProgram twoFunctions plainRun [] hsafe).1,
    by decide⟩

end CalcKernel
