import CalcKernel.Optimizer.Evidence

/-!
# Incremental against full validation

Both validations find the same errors but for the guards that are missing in functions which
are left out: these were allowed by the eliminations of the previous state, and the
eliminations of the new state are not asked.
-/

namespace CalcKernel

/-! ## Identities -/

/-- No identity is recorded twice. -/
def AllFresh (seen : List (IdentityKind × Nat)) (identities : List Identity) : Prop :=
  (identities.map Identity.key).Nodup ∧ ∀ identity ∈ identities, identity.key ∉ seen

theorem allFresh_cons {seen : List (IdentityKind × Nat)} {identity : Identity}
    {identities : List Identity} : AllFresh seen (identity :: identities) ↔
      identity.key ∉ seen ∧ AllFresh (identity.key :: seen) identities := by
  rw [AllFresh, AllFresh, List.map_cons, List.nodup_cons, List.forall_mem_cons]
  constructor
  · rintro ⟨⟨hmem, hnodup⟩, hseen, hrest⟩
    refine ⟨hseen, hnodup, fun i hi hkey ↦ ?_⟩
    rcases List.mem_cons.mp hkey with heq | hkey
    · exact hmem (heq ▸ List.mem_map_of_mem hi)
    · exact hrest i hi hkey
  · rintro ⟨hseen, hnodup, hrest⟩
    refine ⟨⟨fun hmem ↦ ?_, hnodup⟩, hseen, fun i hi hkey ↦ hrest i hi (List.mem_cons_of_mem _ hkey)⟩
    obtain ⟨i, hi, heq⟩ := List.mem_map.mp hmem
    exact hrest i hi (heq ▸ List.mem_cons_self)

theorem freshness_eq_replicate {seen : List (IdentityKind × Nat)} {identities : List Identity}
    (h : AllFresh seen identities) :
    freshness seen identities = List.replicate identities.length true := by
  induction identities generalizing seen with
  | nil => exact Eq.refl _
  | cons identity identities ih =>
      obtain ⟨hseen, hrest⟩ := allFresh_cons.mp h
      rw [freshness, ih hrest, decide_eq_true hseen]
      exact Eq.refl _

theorem duplicates_eq_nil {text : IdentityKind → String} {f : KirFunction}
    {seen : List (IdentityKind × Nat)} :
    duplicates text f seen = [] ↔ AllFresh seen f.identities := by
  rw [duplicates]
  generalize f.identities = identities
  induction identities generalizing seen with
  | nil => exact iff_of_true (Eq.refl _) ⟨List.nodup_nil, fun _ h ↦ by cases h⟩
  | cons identity identities ih =>
      rw [freshness, List.zip_cons_cons, allFresh_cons, ← ih]
      by_cases hseen : identity.key ∈ seen
      · rw [List.filterMap_cons_some (by simp [hseen]; exact Eq.refl _)]
        exact iff_of_false (List.cons_ne_nil _ _) fun h ↦ h.1 hseen
      · rw [List.filterMap_cons_none (by simp [hseen])]
        exact (and_iff_right hseen).symm

/-! ## Errors that no elimination allows -/

def Allowed (eliminations : List KirGuardElimination) (errors : List KirValidationError) : Prop :=
  ∀ e ∈ errors, authorizedMissingGuard eliminations e = true

section

variable {eliminations : List KirGuardElimination}

theorem allowed_append {errors errors' : List KirValidationError} :
    Allowed eliminations (errors ++ errors') ↔
      Allowed eliminations errors ∧ Allowed eliminations errors' :=
  List.forall_mem_append

/-- Errors that are not about guards are allowed only when there are none. -/
theorem allowed_iff_eq_nil {errors : List KirValidationError}
    (h : ∀ e ∈ errors, e.instruction = none ∨
      (e.message ≠ missingOverflowGuard ∧ e.message ≠ missingCheckGuard)) :
    Allowed eliminations errors ↔ errors = [] := by
  constructor
  · intro hallowed
    cases errors with
    | nil => exact Eq.refl _
    | cons e errors =>
        have he := hallowed e List.mem_cons_self
        rw [authorizedMissingGuard, Bool.and_eq_true] at he
        rcases h e List.mem_cons_self with hnone | ⟨hoverflow, hcheck⟩
        · rw [hnone] at he
          cases he.1
        · simp [hoverflow, hcheck] at he
  · rintro rfl e he
    cases he

theorem duplicates_message {text : IdentityKind → String}
    (htext : ∀ kind, text kind ≠ missingOverflowGuard ∧ text kind ≠ missingCheckGuard)
    {f : KirFunction} {seen : List (IdentityKind × Nat)} :
    ∀ e ∈ duplicates text f seen,
      e.message ≠ missingOverflowGuard ∧ e.message ≠ missingCheckGuard := by
  intro e he
  obtain ⟨⟨identity, fresh⟩, -, heq⟩ := List.mem_filterMap.mp he
  cases fresh with
  | true => cases heq
  | false =>
      cases heq
      exact htext _

theorem allowed_duplicates {text : IdentityKind → String}
    (htext : ∀ kind, text kind ≠ missingOverflowGuard ∧ text kind ≠ missingCheckGuard)
    {f : KirFunction} {seen : List (IdentityKind × Nat)} :
    Allowed eliminations (duplicates text f seen) ↔ AllFresh seen f.identities :=
  (allowed_iff_eq_nil fun e he ↦ .inr (duplicates_message htext e he)).trans duplicates_eq_nil

end

namespace EvidenceChecks

variable {Profile : Type} {checks : EvidenceChecks Profile} {profile : Profile}
  {eliminations : List KirGuardElimination}

/-- What is checked of a function apart from its identities. -/
def FunctionPasses (checks : EvidenceChecks Profile) (profile : Profile)
    (eliminations : List KirGuardElimination) (f : KirFunction) : Prop :=
  checks.functionErrors f profile (List.replicate f.identities.length true) = [] ∧
    Allowed eliminations f.missingGuards

theorem allowed_validateFunction {seen : List (IdentityKind × Nat)} {f : KirFunction} :
    Allowed eliminations (checks.validateFunction profile seen f) ↔
      AllFresh seen f.identities ∧ checks.FunctionPasses profile eliminations f := by
  have htext : ∀ kind : IdentityKind, kind.duplicateDefinition ≠ missingOverflowGuard ∧
      kind.duplicateDefinition ≠ missingCheckGuard := by
    intro kind
    cases kind <;> exact ⟨by decide, by decide⟩
  rw [validateFunction, allowed_append, allowed_append, allowed_duplicates htext,
    allowed_iff_eq_nil fun e he ↦ .inr (checks.functionErrors_message _ _ _ e he), FunctionPasses,
    and_assoc]
  refine and_congr_right fun hfresh ↦ ?_
  rw [freshness_eq_replicate hfresh]

theorem allowed_recordVerifiedFunctionIdentities {seen : List (IdentityKind × Nat)}
    {f : KirFunction} :
    Allowed eliminations (recordVerifiedFunctionIdentities seen f) ↔ AllFresh seen f.identities := by
  refine allowed_duplicates fun kind ↦ ?_
  cases kind <;> exact ⟨by decide, by decide⟩

theorem allFresh_append {seen : List (IdentityKind × Nat)} {l l' : List Identity} :
    AllFresh seen (l ++ l') ↔ AllFresh seen l ∧ AllFresh (l.map Identity.key ++ seen) l' := by
  rw [AllFresh, AllFresh, AllFresh, List.map_append, List.nodup_append, List.forall_mem_append]
  constructor
  · rintro ⟨⟨hl, hl', hne⟩, hseen, hseen'⟩
    refine ⟨⟨hl, hseen⟩, hl', fun i hi hkey ↦ ?_⟩
    rcases List.mem_append.mp hkey with hkey | hkey
    · exact hne _ hkey _ (List.mem_map_of_mem hi) (Eq.refl _)
    · exact hseen' i hi hkey
  · rintro ⟨⟨hl, hseen⟩, hl', hrest⟩
    refine ⟨⟨hl, hl', fun key hkey key' hkey' heq ↦ ?_⟩, hseen,
      fun i hi hkey ↦ hrest i hi (List.mem_append_right _ hkey)⟩
    obtain ⟨i, hi, rfl⟩ := List.mem_map.mp hkey'
    exact hrest i hi (List.mem_append_left _ (heq ▸ hkey))

theorem allowed_validateFunctions {unchanged : KirFunction → Bool} {ids : List FunctionId}
    {seen : List (IdentityKind × Nat)} {functions : List KirFunction} :
    Allowed eliminations (checks.validateFunctions profile unchanged ids seen functions) ↔
      ((functions.map (·.id)).Nodup ∧ ∀ f ∈ functions, f.id ∉ ids) ∧
        AllFresh seen (functions.flatMap (·.identities)) ∧
          ∀ f ∈ functions, unchanged f = false → checks.FunctionPasses profile eliminations f := by
  induction functions generalizing ids seen with
  | nil =>
      rw [validateFunctions]
      exact iff_of_true (fun e he ↦ by cases he)
        ⟨⟨List.nodup_nil, fun f hf ↦ by cases hf⟩, ⟨List.nodup_nil, fun i hi ↦ by cases hi⟩,
          fun f hf ↦ by cases hf⟩
  | cons f functions ih =>
      have hid : Allowed eliminations
          (if f.id ∈ ids then [⟨"duplicate function id", some f.id, none, none⟩] else []) ↔
            f.id ∉ ids := by
        split
        · rename_i hmem
          exact iff_of_false
            (fun h ↦ by simpa [authorizedMissingGuard] using h _ List.mem_cons_self)
            (not_not.mpr hmem)
        · rename_i hmem
          exact iff_of_true (fun e he ↦ by cases he) hmem
      have hfunction : Allowed eliminations
          (if unchanged f then recordVerifiedFunctionIdentities seen f
          else checks.validateFunction profile seen f) ↔ AllFresh seen f.identities ∧
            (unchanged f = false → checks.FunctionPasses profile eliminations f) := by
        cases hunchanged : unchanged f with
        | true =>
            rw [if_pos (Eq.refl _), allowed_recordVerifiedFunctionIdentities]
            exact (and_iff_left fun h ↦ by cases h).symm
        | false =>
            rw [if_neg (by decide), allowed_validateFunction]
            exact and_congr_right fun _ ↦ ⟨fun h _ ↦ h, fun h ↦ h (Eq.refl _)⟩
      have hids : ((f :: functions).map (·.id)).Nodup ∧ (∀ f' ∈ f :: functions, f'.id ∉ ids) ↔
          f.id ∉ ids ∧ (functions.map (·.id)).Nodup ∧
            ∀ f' ∈ functions, f'.id ∉ f.id :: ids := by
        rw [List.map_cons, List.nodup_cons, List.forall_mem_cons]
        constructor
        · rintro ⟨⟨hmem, hnodup⟩, hf, hrest⟩
          refine ⟨hf, hnodup, fun f' hf' hcons ↦ ?_⟩
          rcases List.mem_cons.mp hcons with heq | hmem'
          · exact hmem (heq ▸ List.mem_map_of_mem hf')
          · exact hrest f' hf' hmem'
        · rintro ⟨hf, hnodup, hrest⟩
          refine ⟨⟨fun hmem ↦ ?_, hnodup⟩, hf, fun f' hf' hmem ↦
            hrest f' hf' (List.mem_cons_of_mem _ hmem)⟩
          obtain ⟨f', hf', heq⟩ := List.mem_map.mp hmem
          exact hrest f' hf' (heq ▸ List.mem_cons_self)
      rw [validateFunctions, allowed_append, allowed_append, hid, hfunction, ih, hids,
        List.flatMap_cons, allFresh_append, List.forall_mem_cons]
      tauto

/-! ## The two validations -/

/-- What is checked of a module when the functions that are `unchanged` are left out. -/
structure ModulePasses (checks : EvidenceChecks Profile) (profile : Profile)
    (eliminations : List KirGuardElimination) (unchanged : KirFunction → Bool)
    (m : KirModule) : Prop where
  profileErrors : checks.profileErrors m.config profile = []
  functionIds : (m.functions.map (·.id)).Nodup
  identities : ((m.functions.flatMap (·.identities)).map Identity.key).Nodup
  functions : ∀ f ∈ m.functions, unchanged f = false →
    checks.FunctionPasses profile eliminations f

theorem allowed_validateKirModule {m : KirModule} {previous : Option KirModule} :
    Allowed eliminations (checks.validateKirModuleWithPrevious m profile previous) ↔
      checks.ModulePasses profile eliminations (isUnchanged previous) m := by
  have hprofile : Allowed eliminations (checks.profileErrors m.config profile) ↔
      checks.profileErrors m.config profile = [] := by
    refine allowed_iff_eq_nil fun e he ↦ .inl ?_
    unfold profileErrors at he
    split at he
    · rw [List.mem_singleton.mp he]
    · split at he
      · cases he
      · rw [List.mem_singleton.mp he]
  rw [validateKirModuleWithPrevious, allowed_append, hprofile, allowed_validateFunctions]
  constructor
  · rintro ⟨hprofile, ⟨hids, -⟩, ⟨hidentities, -⟩, hfunctions⟩
    exact ⟨hprofile, hids, hidentities, hfunctions⟩
  · rintro ⟨hprofile, hids, hidentities, hfunctions⟩
    exact ⟨hprofile, ⟨hids, fun _ _ ↦ List.not_mem_nil⟩,
      ⟨hidentities, fun _ _ ↦ List.not_mem_nil⟩, hfunctions⟩

/-- What is checked of the proofs and of the eliminations. -/
structure ProofsPass (checks : EvidenceChecks Profile) (m : KirModule)
    (contracts : Option ContractFactSet) (proofs : ProofArena)
    (eliminations : List KirGuardElimination) (generation : Nat) : Prop where
  arena : checks.verifyProofArena m contracts proofs generation = []
  vectors : vectorProofErrors m proofs = []
  rewrites : ∀ elimination ∈ eliminations, eliminationErrors proofs elimination = []

variable {m : KirModule} {contracts : Option ContractFactSet} {proofs : ProofArena}
  {generation : Nat}

theorem validateEvidenceWithKirErrors_eq_nil {kirErrors : List KirValidationError} :
    checks.validateEvidenceWithKirErrors m contracts proofs eliminations generation kirErrors = [] ↔
      Allowed eliminations kirErrors ∧
        checks.ProofsPass m contracts proofs eliminations generation := by
  rw [validateEvidenceWithKirErrors, List.append_eq_nil_iff, List.append_eq_nil_iff,
    List.append_eq_nil_iff, List.map_eq_nil_iff, List.filter_eq_nil_iff, List.flatMap_eq_nil_iff]
  constructor
  · rintro ⟨⟨⟨hallowed, harena⟩, hvectors⟩, hrewrites⟩
    exact ⟨fun e he ↦ by simpa using hallowed e he, harena, hvectors, hrewrites⟩
  · rintro ⟨hallowed, harena, hvectors, hrewrites⟩
    exact ⟨⟨⟨fun e he ↦ by simpa using hallowed e he, harena⟩, hvectors⟩, hrewrites⟩

theorem isUnchanged_none (f : KirFunction) : isUnchanged none f = false := Eq.refl _

theorem validateEvidence_eq_nil :
    checks.validateEvidence m profile contracts proofs eliminations generation = [] ↔
      checks.ModulePasses profile eliminations (fun _ ↦ false) m ∧
        checks.ProofsPass m contracts proofs eliminations generation := by
  rw [validateEvidence, validateEvidenceWithKirErrors_eq_nil, validateKirModule,
    allowed_validateKirModule, funext isUnchanged_none]

variable [DecidableEq Profile]

/-- A function that the incremental validation leaves out. -/
def isSkipped (previous : KirModule) (previousProfile : Profile) (m : KirModule)
    (profile : Profile) (f : KirFunction) : Bool :=
  m.config = previous.config && profile = previousProfile && isUnchanged (some previous) f

theorem validateEvidenceIncremental_eq_nil {previous : KirModule} {previousProfile : Profile} :
    checks.validateEvidenceIncremental m profile previous previousProfile contracts proofs
        eliminations generation = [] ↔
      checks.ModulePasses profile eliminations (isSkipped previous previousProfile m profile) m ∧
        checks.ProofsPass m contracts proofs eliminations generation := by
  rw [validateEvidenceIncremental, validateEvidenceWithKirErrors_eq_nil,
    validateKirModuleIncremental]
  by_cases hsame : m.config = previous.config ∧ profile = previousProfile
  · have hskipped : isSkipped previous previousProfile m profile = isUnchanged (some previous) := by
      funext f
      rw [isSkipped, decide_eq_true hsame.1, decide_eq_true hsame.2]
      exact Eq.refl _
    rw [if_neg (by tauto), allowed_validateKirModule, hskipped]
  · have hskipped : isSkipped previous previousProfile m profile = fun _ ↦ false := by
      funext f
      rw [isSkipped, ← Bool.decide_and, decide_eq_false hsame]
      exact Eq.refl _
    rw [if_pos (by tauto), validateKirModule, allowed_validateKirModule, hskipped,
      funext isUnchanged_none]

/-! ## When they agree -/

/-- The guards that are missing in functions which are left out have been removed by eliminations
of the new state. -/
def SkippedGuardsAuthorized (previous : VerifiedKirState Profile) (m : KirModule)
    (profile : Profile) (eliminations : List KirGuardElimination) : Prop :=
  ∀ f ∈ m.functions, isSkipped previous.module previous.profile m profile f = true →
    Allowed eliminations f.missingGuards

/-- The new state passes in all that does not belong to a function which is left out. -/
def PassesElsewhere (checks : EvidenceChecks Profile) (previous : VerifiedKirState Profile)
    (m : KirModule) (profile : Profile) (contracts : Option ContractFactSet) (proofs : ProofArena)
    (eliminations : List KirGuardElimination) (generation : Nat) : Prop :=
  checks.ModulePasses profile eliminations (isSkipped previous.module previous.profile m profile)
    m ∧ checks.ProofsPass m contracts proofs eliminations generation

/-- The previous state has passed the full validation. -/
def Verified (checks : EvidenceChecks Profile) (state : VerifiedKirState Profile)
    (generation : Nat) : Prop :=
  checks.validateEvidence state.module state.profile state.contractFacts state.proofs
    state.eliminatedGuards generation = []

/-- A function that is left out has passed with the previous state, but for its guards. -/
theorem functionErrors_of_isSkipped {previous : VerifiedKirState Profile}
    (hprevious : checks.Verified previous generation) {f : KirFunction}
    (hskipped : isSkipped previous.module previous.profile m profile f = true) :
    checks.functionErrors f profile (List.replicate f.identities.length true) = [] := by
  rw [isSkipped, Bool.and_eq_true, Bool.and_eq_true] at hskipped
  obtain ⟨⟨-, hprofile⟩, hunchanged⟩ := hskipped
  obtain rfl := of_decide_eq_true hprofile
  have hfound : previous.module.functions.find? (·.id = f.id) = some f := by
    simpa [isUnchanged] using hunchanged
  have hmodule := (validateEvidence_eq_nil.mp hprevious).1
  exact (hmodule.functions f (List.mem_of_find?_eq_some hfound) (Eq.refl _)).1

theorem validateEvidence_eq_nil_iff {previous : VerifiedKirState Profile}
    (hprevious : checks.Verified previous generation) :
    checks.validateEvidence m profile contracts proofs eliminations generation = [] ↔
      SkippedGuardsAuthorized previous m profile eliminations ∧
        checks.PassesElsewhere previous m profile contracts proofs eliminations generation := by
  rw [validateEvidence_eq_nil, PassesElsewhere, ← and_assoc]
  refine and_congr_left fun _ ↦ ⟨fun h ↦ ⟨fun f hf _ ↦ (h.functions f hf (Eq.refl _)).2,
    h.profileErrors, h.functionIds, h.identities, fun f hf _ ↦ h.functions f hf (Eq.refl _)⟩,
    fun ⟨hguards, h⟩ ↦ ⟨h.profileErrors, h.functionIds, h.identities, fun f hf _ ↦ ?_⟩⟩
  cases hskipped : isSkipped previous.module previous.profile m profile f with
  | true => exact ⟨functionErrors_of_isSkipped hprevious hskipped, hguards f hf hskipped⟩
  | false => exact h.functions f hf hskipped

/-- The record of a pass after a verified state. -/
theorem recordVerifiedPass_eq {previous : VerifiedKirState Profile}
    (hprevious : checks.Verified previous generation) {name : String} {changed : Bool}
    {result : KirPassManagerResult Profile} (hcache : result.verificationCache = some previous) :
    (checks.recordVerifiedPass m profile name changed result generation).1 = true ↔
      checks.PassesElsewhere previous m profile result.contractFacts result.proofs
        result.eliminatedGuards generation := by
  rw [recordVerifiedPass]
  by_cases hhit : (!changed && result.verificationCache = some (currentState m profile result)) =
      true
  · rw [if_pos hhit]
    have hcurrent := of_decide_eq_true (Bool.and_eq_true _ _ ▸ hhit).2
    rw [hcache] at hcurrent
    have hverified := hprevious
    rw [Option.some.inj hcurrent] at hverified
    exact iff_of_true (Eq.refl _) ((validateEvidence_eq_nil_iff hprevious).mp hverified).2
  · rw [if_neg hhit]
    show (checks.passEvidence m profile result generation).isEmpty = true ↔ _
    rw [List.isEmpty_iff, passEvidence, hcache]
    exact validateEvidenceIncremental_eq_nil

/-- After a verified state the record of a pass finds an error exactly when the full validation
does, if and only if the guards missing in functions that are left out have been removed by
eliminations of the new state, or the new state fails elsewhere. -/
theorem recordVerifiedPass_agrees_iff {previous : VerifiedKirState Profile}
    (hprevious : checks.Verified previous generation) {name : String} {changed : Bool}
    {result : KirPassManagerResult Profile} (hcache : result.verificationCache = some previous) :
    ((checks.recordVerifiedPass m profile name changed result generation).1 = false ↔
        checks.validateEvidence m profile result.contractFacts result.proofs
          result.eliminatedGuards generation ≠ []) ↔
      SkippedGuardsAuthorized previous m profile result.eliminatedGuards ∨
        ¬ checks.PassesElsewhere previous m profile result.contractFacts result.proofs
          result.eliminatedGuards generation := by
  rw [← Bool.not_eq_true, recordVerifiedPass_eq hprevious hcache, ne_eq,
    validateEvidence_eq_nil_iff hprevious, not_iff_not]
  tauto

end EvidenceChecks

/-! ## A dropped elimination -/

/-- `1 + 2` without its overflow guard. -/
def constantSum : KirFunction where
  id := 0
  name := "three"
  exported := true
  params := []
  returnType := .i32
  regions := []
  initialMemory := []
  vectorRegions := []
  blocks := [{
    id := 0
    label := "entry"
    params := []
    memoryParams := []
    instructions := [
      ⟨0, [⟨0, .scalar .i32⟩], .constInt "1", none, none⟩,
      ⟨1, [⟨1, .scalar .i32⟩], .constInt "2", none, none⟩,
      ⟨2, [⟨2, .scalar .i32⟩, ⟨3, .scalar .bool⟩], .binary .add 0 1 .checked, none, none⟩]
    terminator := .return (some 2) [] 0 }]

def constantSumModule : KirModule where
  config := ⟨.inspection, .checked, .checked, .disabled⟩
  entry := none
  structs := []
  functions := [constantSum]

/-- The certificate of the eliminated guard. -/
def constantSumProofs : ProofArena where
  generation := 0
  proofs := [⟨0, 0, ⟨0, 0, some 2, none⟩, [.guardSafety 2 [] false], 0⟩]

def constantSumElimination : KirGuardElimination := ⟨0, 0, 2, 3, some 0, false⟩

/-- The checks that find nothing in this state. -/
def quietChecks : EvidenceChecks KirConsumer where
  validateProfile _ := none
  consumer profile := profile
  functionErrors _ _ _ := []
  factErrors _ _ _ := []
  certificateErrors _ _ _ _ := []
  functionErrors_message _ _ _ _ h := by cases h

def constantSumState : VerifiedKirState KirConsumer where
  module := constantSumModule
  profile := .inspection
  proofs := constantSumProofs
  eliminatedGuards := [constantSumElimination]
  contractFacts := none

/-- The result of a pass on this state that keeps these eliminations. -/
def constantSumResult (eliminations : List KirGuardElimination) :
    KirPassManagerResult KirConsumer where
  records := []
  errors := []
  proofs := constantSumProofs
  eliminatedGuards := eliminations
  contractFacts := none
  verificationCache := some constantSumState

/-- With the elimination the two agree. -/
theorem recordVerifiedPass_constantSum :
    ((quietChecks.recordVerifiedPass constantSumModule .inspection "cleanup" true
          (constantSumResult [constantSumElimination]) 0).1 = false ↔
        quietChecks.validateEvidence constantSumModule .inspection none constantSumProofs
          [constantSumElimination] 0 ≠ []) ↔
      EvidenceChecks.SkippedGuardsAuthorized constantSumState constantSumModule .inspection
          [constantSumElimination] ∨
        ¬ quietChecks.PassesElsewhere constantSumState constantSumModule .inspection none
          constantSumProofs [constantSumElimination] 0 := by
  have hverified : quietChecks.Verified constantSumState 0 := Eq.refl _
  have hcache : (constantSumResult [constantSumElimination]).verificationCache =
      some constantSumState := Eq.refl _
  exact EvidenceChecks.recordVerifiedPass_agrees_iff hverified hcache

/-- Without it the record of the pass finds no error, and the full validation does. -/
theorem not_recordVerifiedPass_constantSum :
    quietChecks.Verified constantSumState 0 ∧
      (quietChecks.recordVerifiedPass constantSumModule .inspection "cleanup" true
        (constantSumResult []) 0).1 = true ∧
      (quietChecks.validateEvidence constantSumModule .inspection none constantSumProofs [] 0).map
        (·.message) =
          ["checked arithmetic result is not followed by its required overflow guard"] :=
  ⟨Eq.refl _, Eq.refl _, Eq.refl _⟩

end CalcKernel
