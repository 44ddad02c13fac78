import CalcKernel.Optimizer.Forwarding
import CalcKernel.Optimizer.ProofSteps
import CalcKernel.Optimizer.ScalarTransfer
import CalcKernel.Kir.PlaceRegions

/-!
# Loop invariants and equal inductions

Two steps of the certificate checker that argue over the turns of a loop: an interval that
the transfer along the back edges stays inside, and pairs of values that every definition
and every edge keeps equal.
-/

namespace CalcKernel

open Lib

/-! ## The checks -/

/-- The operand next to the parameter, and whether the parameter is the left one. -/
def otherOperand? (phi left right : ValueId) : Option (ValueId × Bool) :=
  if left = phi then some (right, true) else if right = phi then some (left, false) else none

/-- The values are one, or a pair in the order of their identities. -/
def equivalent (pairs : List (ValueId × ValueId)) (a b : ValueId) : Bool :=
  a = b || pairs.contains (min a b, max a b)

/-- The arguments of an edge in two places are there, and equivalent. -/
def edgeKeepsPair (pairs : List (ValueId × ValueId)) (i j : Nat) (edge : KirEdge) : Bool :=
  match edge.args[i]?, edge.args[j]? with
  | some a, some b => equivalent pairs a b
  | _, _ => false

/-- Two instructions of constants, or of sums or differences with equivalent operands. -/
def sameOperation (pairs : List (ValueId × ValueId)) (type : IntegerType) (a b : KirInstruction) :
    Bool :=
  match a.kind, b.kind with
  | .constInt s, .constInt t =>
      match parseInteger s, parseInteger t with
      | some x, some y => x = y && type.Contains x
      | _, _ => false
  | .binary op left right semantics, .binary op' left' right' semantics' =>
      (op = .add || op = .sub) && op = op' && semantics = semantics' &&
        semantics ≠ .strictFloat && equivalent pairs left left' && equivalent pairs right right'
  | _, _ => false

namespace KirFunction

variable (f : KirFunction)

/-- `loop_invariant_matches`. -/
def loopInvariantMatches (header : BlockId) (phi : ValueId) (transfer : InstructionId)
    (claim : ScalarClaim) : Bool := Option.isSome do
  let headerBlock ← f.block? header
  let phiIndex ← (headerBlock.params.map (·.value)).findIdx? (· = phi)
  guard (claim.value = phi ∧ claim.failure = .none)
  let type ← f.valueIntegerType phi
  let invariant ← (ScalarValue.fromInterval type claim.interval).toOption
  let incoming := f.predecessorEdges header
  let entries := (incoming.filter fun p ↦ !f.computeKirDominators header p.1).filterMap
    fun p ↦ p.2.args[phiIndex]?
  guard (entries ≠ [] ∧ ∀ v ∈ entries, (f.resolveConstant v).any fun entry ↦
    claim.interval.lower ≤ entry && entry ≤ claim.interval.upper)
  let instruction ← f.instructions.find? (·.id = transfer)
  let result ← instruction.results.head?
  let backedges := incoming.filter fun p ↦ f.computeKirDominators header p.1
  guard (backedges ≠ [] ∧ IntegerType.fromKir result.typeNode = some type ∧
    ∀ p ∈ backedges, p.2.args[phiIndex]? = some result.value)
  match instruction.kind with
  | .binary op left right semantics =>
      let (other, phiOnLeft) ← otherOperand? phi left right
      let constant ← f.resolveConstant other
      let constant ← (ScalarValue.constant type constant).toOption
      let next ← (if phiOnLeft then scalarBinary op semantics invariant constant
        else scalarBinary op semantics constant invariant).toOption
      guard (next.failure = .none ∧ claim.interval.lower ≤ next.interval.lower ∧
        next.interval.upper ≤ claim.interval.upper)
  | _ => none

/-- `ScalarAnalysisBudget::for_function` with the default configuration: the steps. -/
def scalarMaxSteps : Nat :=
  let units := f.blocks.foldl (fun count b ↦ count + b.params.length + b.instructions.length + 1)
    f.params.length
  min (min (min units (2 ^ 32 - 1) * 32) (2 ^ 32 - 1) + 64) (2 ^ 32 - 1)

def definingInstruction? (v : ValueId) : Option KirInstruction :=
  f.instructions.find? fun i ↦ (i.results.head?).map (·.value) = some v

/-- The operand of the copy that defines a value. -/
def copied? (v : ValueId) : Option ValueId :=
  match (f.definingInstruction? v).map KirInstruction.kind with
  | some (.copy w) => some w
  | _ => none

/-- A pair is kept by the definitions of its values, or along every edge to their block. -/
def pairMatches (pairs : List (ValueId × ValueId)) (left right : ValueId) : Bool :=
  match f.valueIntegerType left with
  | none => false
  | some type =>
      left < right && f.valueIntegerType right = some type &&
        match f.copied? left, f.copied? right with
        | some v, _ => equivalent pairs v right
        | none, some v => equivalent pairs left v
        | none, none =>
            match f.paramPosition? left, f.paramPosition? right with
            | some (block, i), some (block', j) =>
                block = block' && f.predecessorEdges block ≠ [] &&
                  (f.predecessorEdges block).all fun p ↦ edgeKeepsPair pairs i j p.2
            | _, _ =>
                match f.definingInstruction? left, f.definingInstruction? right with
                | some a, some b =>
                    a.memory.isNone && b.memory.isNone && a.effect.isNone && b.effect.isNone &&
                      sameOperation pairs type a b
                | _, _ => false

/-- `induction_equality_matches`; the search of the sorted pairs is membership. -/
def inductionEqualityMatches (header : BlockId) (left right : ValueId)
    (pairs : List (ValueId × ValueId)) (definitions : List InstructionId) : Bool :=
  match f.block? header with
  | none => false
  | some block =>
      let incoming := f.predecessorEdges header
      left < right && block.params.any (·.value = left) && block.params.any (·.value = right) &&
        pairs.contains (left, right) && pairs.IsChain (fun p q ↦ p.1 < q.1 ∨ p.1 = q.1 ∧ p.2 < q.2) &&
        pairs.length ≤ f.scalarMaxSteps &&
        incoming.any (fun p ↦ f.computeKirDominators header p.1) &&
        incoming.any (fun p ↦ !f.computeKirDominators header p.1) &&
        pairs.all (fun p ↦ f.pairMatches pairs p.1 p.2) &&
        ((pairs.flatMap fun p ↦ ((f.definingInstruction? p.1).toList ++
          (f.definingInstruction? p.2).toList).map (·.id)).dedup.insertionSort (· ≤ ·)) =
            definitions

end KirFunction

/-! ## Constants and transfers -/

theorem toOption_eq_some {ε α : Type} {x : Except ε α} {a : α} (h : x.toOption = some a) :
    x = .ok a := by
  cases x with
  | ok b => exact congrArg Except.ok (Option.some.inj h)
  | error e => cases h

theorem ScalarValue.constant_typeNode {type : IntegerType} {c : Int} {v : ScalarValue}
    (h : ScalarValue.constant type c = .ok v) : v.typeNode = type := by
  unfold ScalarValue.constant at h
  split at h
  · cases h
    rfl
  · cases h

/-- A transfer that cannot fail has the result it stands for. -/
theorem scalarBinary_sound {op : MirBinaryOp} {semantics : KirArithmeticSemantics}
    {left right v : ScalarValue} {x y : Int} {env : ValueId → Int}
    (h : scalarBinary op semantics left right = .ok v) (hnone : v.failure = .none)
    (hx : left.Concretizes env x) (hy : right.Concretizes env y) :
    ∃ z, concreteBinary op semantics left.typeNode x y = some z ∧ v.interval.Contains z := by
  have hsound : TransferSound op semantics left right := by
    refine (transferSound_iff op semantics left right).mpr fun hacross ↦ ?_
    obtain ⟨rfl, rfl, -, hzero, -⟩ := hacross
    have hcase := (scalarBinary_transferred h).2
    cases hcase with
    | fails => cases hnone
    | checked _ _ _ _ _ hfailure =>
        rw [hfailure, ScalarFailure.max_eq_none] at hnone
        exact absurd hzero (not_contains_zero hnone.1 (Or.inl rfl))
    | modularMay hsemantics => cases hsemantics
    | modularWithin hsemantics => cases hsemantics
    | modularExact hsemantics => cases hsemantics
    | modularUnknown hsemantics => cases hsemantics
  obtain ⟨hresult, hreturns, -⟩ := hsound v h env x y hx hy
  obtain ⟨z, hz⟩ := hreturns hnone
  exact ⟨z, hz, (hresult z hz).interval⟩

/-- Over the interval, the operation on a value and a constant stays inside it. -/
def ClosedUnder (interval : ScalarInterval) (type : IntegerType)
    (operation : Int → Option Int) : Prop :=
  ∀ x, interval.Contains x → type.Contains x ∧ ∃ z, operation x = some z ∧ interval.Contains z

namespace KirFunction

variable {f : KirFunction}

/-- The value comes from a transfer of the parameter by a constant that the interval is closed
under. -/
def Transfers (f : KirFunction) (interval : ScalarInterval) (phi : ValueId) (type : IntegerType)
    (v : ValueId) : Prop :=
  ∃ i ∈ f.instructions, ∃ r op left right semantics constant,
    i.results.head? = some r ∧ r.value = v ∧ IntegerType.fromKir r.typeNode = some type ∧
    i.kind = .binary op left right semantics ∧ type.Contains constant ∧
    ((left = phi ∧ f.resolveConstant right = some constant ∧
        ClosedUnder interval type fun x ↦ concreteBinary op semantics type x constant) ∨
      (right = phi ∧ f.resolveConstant left = some constant ∧
        ClosedUnder interval type fun x ↦ concreteBinary op semantics type constant x))

/-- The arguments for the parameter are constants of the interval and transfers. -/
structure KeepsInterval (f : KirFunction) (interval : ScalarInterval) (phi : ValueId)
    (header : KirBlock) (index : Nat) : Prop where
  header_mem : header ∈ f.blocks
  param : (header.params.map (·.value))[index]? = some phi
  args : ∃ type, ∀ p ∈ f.predecessorEdges header.id, ∀ v, p.2.args[index]? = some v →
    (∃ c, f.resolveConstant v = some c ∧ interval.Contains c) ∨
      f.Transfers interval phi type v

theorem keepsInterval_of_matches {header : BlockId} {phi : ValueId} {transfer : InstructionId}
    {claim : ScalarClaim} (h : f.loopInvariantMatches header phi transfer claim = true) :
    ∃ block index, f.KeepsInterval claim.interval phi block index := by
  obtain ⟨_, h⟩ := Option.isSome_iff_exists.mp h
  obtain ⟨block, hblock, h⟩ := Option.bind_eq_some_iff.mp h
  obtain ⟨index, hindex, h⟩ := Option.bind_eq_some_iff.mp h
  obtain ⟨_, hclaim, h⟩ := Option.bind_eq_some_iff.mp h
  obtain ⟨type, htype, h⟩ := Option.bind_eq_some_iff.mp h
  obtain ⟨invariant, hinvariant, h⟩ := Option.bind_eq_some_iff.mp h
  obtain ⟨_, hentries, h⟩ := Option.bind_eq_some_iff.mp h
  obtain ⟨instruction, hinstruction, h⟩ := Option.bind_eq_some_iff.mp h
  obtain ⟨result, hresult, h⟩ := Option.bind_eq_some_iff.mp h
  obtain ⟨_, hbackedges, h⟩ := Option.bind_eq_some_iff.mp h
  obtain ⟨-, hentries⟩ := (Option.guard_eq_some' _).mp hentries
  obtain ⟨-, hresultType, hbackedges⟩ := (Option.guard_eq_some' _).mp hbackedges
  split at h
  case h_2 => cases h
  rename_i op left right semantics hkind
  obtain ⟨⟨other, phiOnLeft⟩, hside, h⟩ := Option.bind_eq_some_iff.mp h
  obtain ⟨constant, hconstant, h⟩ := Option.bind_eq_some_iff.mp h
  obtain ⟨abstract, habstract, h⟩ := Option.bind_eq_some_iff.mp h
  obtain ⟨next, hnext, h⟩ := Option.bind_eq_some_iff.mp h
  obtain ⟨hnone, hlower, hupper⟩ := (Option.guard_eq_some' _).mp h
  have hinvariant := toOption_eq_some hinvariant
  have habstract := toOption_eq_some habstract
  have hnext := toOption_eq_some hnext
  obtain ⟨hin, rfl⟩ := ScalarValue.fromInterval_eq_ok hinvariant
  have hy : abstract.Concretizes (fun _ ↦ 0) constant := ScalarValue.constant_concretizes habstract
  have habstractType : abstract.typeNode = type := ScalarValue.constant_typeNode habstract
  have hx : ∀ x, claim.interval.Contains x →
      (ScalarValue.ofInterval type claim.interval hin).Concretizes (fun _ ↦ 0) x :=
    fun x hx ↦ ScalarValue.ofInterval_concretizes_iff.mpr hx
  have hinside : ∀ z, next.interval.Contains z → claim.interval.Contains z :=
    fun z hz ↦ ⟨hlower.trans hz.1, hz.2.trans hupper⟩
  have htransfers : f.Transfers claim.interval phi type result.value := by
    refine ⟨instruction, List.mem_of_find?_eq_some hinstruction, result, op, left, right,
      semantics, constant, hresult, rfl, hresultType, hkind, habstractType ▸ hy.inType, ?_⟩
    unfold otherOperand? at hside
    split at hside
    · rename_i hleft
      cases hside
      refine Or.inl ⟨hleft, hconstant, fun x hmem ↦ ⟨(hx x hmem).inType, ?_⟩⟩
      obtain ⟨z, hz, hzmem⟩ := scalarBinary_sound hnext hnone (hx x hmem) hy
      exact ⟨z, hz, hinside z hzmem⟩
    · split at hside
      case isFalse => cases hside
      rename_i hright
      cases hside
      refine Or.inr ⟨hright, hconstant, fun x hmem ↦ ⟨(hx x hmem).inType, ?_⟩⟩
      obtain ⟨z, hz, hzmem⟩ := scalarBinary_sound hnext hnone hy (hx x hmem)
      exact ⟨z, habstractType ▸ hz, hinside z hzmem⟩
  obtain ⟨hmem, rfl⟩ := mem_blocks_of_block? hblock
  refine ⟨block, index, hmem, ?_, type, fun p hp v hv ↦ ?_⟩
  · obtain ⟨hlt, hval, -⟩ := List.findIdx?_eq_some_iff_getElem.mp hindex
    exact List.getElem?_eq_some_iff.mpr ⟨hlt, of_decide_eq_true hval⟩
  · by_cases hback : f.computeKirDominators block.id p.1 = true
    · have harg := hbackedges p (List.mem_filter.mpr ⟨hp, hback⟩)
      obtain rfl := Option.some.inj (hv.symm.trans harg)
      exact Or.inr htransfers
    · have hentry := hentries v (List.mem_filterMap.mpr
        ⟨p, List.mem_filter.mpr ⟨hp, by simpa using hback⟩, hv⟩)
      obtain ⟨c, hc, hcmem⟩ := (Option.any_eq_true _ _).mp hentry
      exact Or.inl ⟨c, hc, by simpa [ScalarInterval.Contains] using hcmem⟩

end KirFunction

namespace Activation

variable {t : TargetModel} {f : KirFunction} {past : List Moment} {frame : Frame}
variable {memory : Memory} {v : ValueId}

/-- A constant that is available holds its value. -/
theorem constant (h : Activation t f past frame memory) (hf : f.Strict) {c : Int}
    (hc : f.resolveConstant v = some c) (havail : f.Available v frame.site) :
    ∃ type, (f.valueType? v).bind IntegerType.fromKir = some type ∧ type.Contains c ∧
      frame.env.scalar v = some (.int type c) := by
  obtain ⟨i, hfind, hparse⟩ := Option.bind_eq_some_iff.mp hc
  have hi := List.mem_of_find?_eq_some hfind
  have hhead := List.find?_some hfind
  obtain ⟨r, hr, rfl⟩ := Option.map_eq_some_iff.mp (of_decide_eq_true hhead)
  have hmem := List.mem_of_head? hr
  split at hparse
  case h_2 => cases hparse
  rename_i text hkind
  obtain ⟨⟨before, memory', values, heval, -, -, hresults⟩, -⟩ := h.evaluated_of_result hf hi
    (by simp [KirInstruction.isComputed, hkind]) (List.mem_map_of_mem hmem) havail
  simp only [evalInstruction, hkind, hr, Option.bind_some, evalConstInt, hparse,
    Option.map_eq_some_iff, Option.bind_eq_some_iff] at heval
  obtain ⟨_, ⟨type, htype, hvalue⟩, rfl⟩ := heval
  split at hvalue
  case isFalse => cases hvalue
  rename_i hcontains
  cases hvalue
  refine ⟨type, ?_, hcontains, hresults 0 r _ (by rwa [← List.head?_eq_getElem?]) rfl⟩
  rw [KirFunction.valueType?_of_result hf.values hi hmem]
  exact htype

/-! ## The interval along a run -/

/-- A transfer that is available stays inside the interval when the parameter is inside it. -/
theorem transfer_contains (h : Activation t f past frame memory) (hf : f.Strict)
    {interval : ScalarInterval} {phi : ValueId} {type : IntegerType}
    (htransfers : f.Transfers interval phi type v) (havail : f.Available v frame.site)
    (hphi : ∀ type x, frame.env.scalar phi = some (.int type x) → interval.Contains x)
    {type' : IntegerType} {z : Int} (hz : frame.env.scalar v = some (.int type' z)) :
    interval.Contains z := by
  obtain ⟨i, hi, r, op, left, right, semantics, c, hr, rfl, htype, hkind, hcType, hsides⟩ :=
    htransfers
  have hmem := List.mem_of_head? hr
  obtain ⟨⟨before, memory', values, heval, -, huses, hresults⟩, havailUses⟩ :=
    h.evaluated_of_result hf hi (by simp [KirInstruction.isComputed, hkind])
      (List.mem_map_of_mem hmem) havail
  have hleft : left ∈ i.uses := by simp [KirInstruction.uses, hkind]
  have hright : right ∈ i.uses := by simp [KirInstruction.uses, hkind]
  obtain ⟨htypeLeft, htypeRight⟩ := hf.binary i hi op left right semantics hkind
  rw [hr] at htypeLeft htypeRight
  -- an operand that is a constant has the type of the result
  have hconstant : ∀ w ∈ i.uses, f.valueType? w = some r.typeNode →
      f.resolveConstant w = some c → before w = some (.int type c) := by
    intro w hw hwType hwConst
    obtain ⟨type₀, hfrom, -, hval⟩ := h.constant hf hwConst (havailUses w hw)
    rw [hwType, Option.bind_some, htype] at hfrom
    cases hfrom
    exact (Env.scalar_eq_some.mp ((huses w hw).symm.trans hval)).1
  have hinside : ∀ w ∈ i.uses, w = phi → ∀ type₀ x, before w = some (.int type₀ x) →
      interval.Contains x := by
    intro w hw hwphi type₀ x hx
    subst hwphi
    exact hphi type₀ x ((huses w hw).trans (Env.scalar_eq_some.mpr ⟨hx, rfl⟩))
  have hfirst : ∀ y rest, values = .int type y :: rest → z = y := by
    rintro y rest rfl
    have hresult := hresults 0 r _ (by rwa [← List.head?_eq_getElem?]) rfl
    exact (KirValue.int.inj (Option.some.inj (hz.symm.trans hresult))).2
  simp only [evalInstruction, hkind, Option.bind_eq_some_iff] at heval
  obtain ⟨l, hl, k, hk, heval⟩ := heval
  rcases hsides with ⟨hwphi, hconst, hclosed⟩ | ⟨hwphi, hconst, hclosed⟩
  · obtain rfl := Option.some.inj (hk.symm.trans (hconstant right hright htypeRight hconst))
    cases l with
    | int type₀ x =>
        simp only [evalBinary] at heval
        split at heval
        case isFalse => cases heval
        rename_i hsame
        subst hsame
        obtain ⟨hxType, y, hy, hymem⟩ := hclosed x (hinside left hleft hwphi type₀ x hl)
        obtain ⟨rest, hrest⟩ := integerBinary_of_concreteBinary hxType hcType hy i.results.length
        rw [hfirst y rest (Option.some.inj (heval.symm.trans hrest))]
        exact hymem
    | _ => cases heval
  · obtain rfl := Option.some.inj (hl.symm.trans (hconstant left hleft htypeLeft hconst))
    cases k with
    | int type₀ x =>
        simp only [evalBinary] at heval
        split at heval
        case isFalse => cases heval
        rename_i hsame
        subst hsame
        obtain ⟨hxType, y, hy, hymem⟩ := hclosed x (hinside right hright hwphi type x hk)
        obtain ⟨rest, hrest⟩ := integerBinary_of_concreteBinary hcType hxType hy i.results.length
        rw [hfirst y rest (Option.some.inj (heval.symm.trans hrest))]
        exact hymem
    | _ => cases heval

theorem edge_arg_available (h : Activation t f past frame memory) (hf : f.Strict)
    (hrest : frame.rest = []) {edge : KirEdge} (hedge : edge ∈ frame.block.terminator.edges)
    (hv : v ∈ edge.args) : f.Available v frame.site := by
  rw [site_end hrest]
  refine hf.ends frame.block h.block_mem v ?_
  exact List.mem_append_right _ (List.mem_flatMap.mpr ⟨edge, hedge, hv⟩)

/-- The parameter is inside the interval all along a run. -/
theorem param_contains (h : Activation t f past frame memory) (hf : f.Strict)
    {interval : ScalarInterval} {phi : ValueId} {header : KirBlock} {index : Nat}
    (hkeeps : f.KeepsInterval interval phi header index) :
    ∀ type x, frame.env.scalar phi = some (.int type x) → interval.Contains x := by
  obtain ⟨hheader, hparam, type, hargs⟩ := hkeeps
  have hphi := List.mem_of_getElem? hparam
  refine h.params_induction hf
    (P := fun env ↦ ∀ type x, env.scalar phi = some (.int type x) → interval.Contains x) ?_ ?_ ?_
  · intro env env' hsame ih type x hx
    exact ih type x ((hsame header hheader phi hphi).symm.trans hx)
  · intro env hnone type x hx
    rw [hnone header hheader phi hphi] at hx
    cases hx
  · intro past frame memory edge c env' h hrest hedge hc htarget hset hkeep ih type' x hx
    by_cases hsame : header = c
    case neg => exact ih type' x ((hkeep header hheader hsame phi hphi).symm.trans hx)
    subst hsame
    obtain ⟨a, ha, hval⟩ := hset index phi hparam
    have havail := h.edge_arg_available hf hrest hedge (List.mem_of_getElem? ha)
    rw [hval] at hx
    have hmem : (frame.block.id, edge) ∈ f.predecessorEdges header.id :=
      KirFunction.mem_predecessorEdges.mpr ⟨frame.block, h.block_mem, rfl, hedge, htarget⟩
    rcases hargs _ hmem a ha with ⟨c, hc, hcmem⟩ | htransfers
    · obtain ⟨_, _, _, hconst⟩ := h.constant hf hc havail
      rw [(KirValue.int.inj (Option.some.inj (hx.symm.trans hconst))).2]
      exact hcmem
    · exact h.transfer_contains hf htransfers havail ih hx

end Activation

/-! ## Equal pairs -/

/-- The values are one, or a pair in one order or the other. -/
def Paired (pairs : List (ValueId × ValueId)) (a b : ValueId) : Prop :=
  a = b ∨ (a, b) ∈ pairs ∨ (b, a) ∈ pairs

variable {pairs : List (ValueId × ValueId)}

theorem paired_of_equivalent {a b : ValueId} (h : equivalent pairs a b = true) :
    Paired pairs a b := by
  rcases Bool.or_eq_true_iff.mp h with heq | hpair
  · exact Or.inl (of_decide_eq_true heq)
  · have hmem := List.contains_iff_mem.mp hpair
    rcases le_total a b with hle | hle
    · rw [min_eq_left hle, max_eq_right hle] at hmem
      exact Or.inr (Or.inl hmem)
    · rw [min_eq_right hle, max_eq_left hle] at hmem
      exact Or.inr (Or.inr hmem)

namespace KirFunction

variable {f : KirFunction}

/-- Why two values of a pair are equal, when all pairs are. -/
inductive Equated (f : KirFunction) (pairs : List (ValueId × ValueId)) (l r : ValueId) : Prop
  | copyLeft {i : KirInstruction} {v : ValueId} (hi : i ∈ f.instructions)
      (hl : (i.results.head?).map (·.value) = some l) (hkind : i.kind = .copy v)
      (hpaired : Paired pairs v r)
  | copyRight {i : KirInstruction} {v : ValueId} (hi : i ∈ f.instructions)
      (hr : (i.results.head?).map (·.value) = some r) (hkind : i.kind = .copy v)
      (hpaired : Paired pairs l v)
  | param {b : KirBlock} {i j : Nat} (hb : b ∈ f.blocks)
      (hl : (b.params.map (·.value))[i]? = some l) (hr : (b.params.map (·.value))[j]? = some r)
      (hargs : ∀ p ∈ f.predecessorEdges b.id, ∃ x y, p.2.args[i]? = some x ∧
        p.2.args[j]? = some y ∧ Paired pairs x y)
  | constant {c : Int} {type : IntegerType} (hl : f.resolveConstant l = some c)
      (hr : f.resolveConstant r = some c)
      (hlType : (f.valueType? l).bind IntegerType.fromKir = some type)
      (hrType : (f.valueType? r).bind IntegerType.fromKir = some type)
  | operation {i k : KirInstruction} {op : MirBinaryOp} {a b a' b' : ValueId}
      {semantics : KirArithmeticSemantics} (hi : i ∈ f.instructions) (hk : k ∈ f.instructions)
      (hl : (i.results.head?).map (·.value) = some l)
      (hr : (k.results.head?).map (·.value) = some r) (hiKind : i.kind = .binary op a b semantics)
      (hkKind : k.kind = .binary op a' b' semantics) (hleft : Paired pairs a a')
      (hright : Paired pairs b b')

theorem valueIntegerType_eq (hvalues : f.valueIds.Nodup) {v : ValueId} {type : IntegerType}
    (h : f.valueIntegerType v = some type) :
    (f.valueType? v).bind IntegerType.fromKir = some type := by
  unfold valueIntegerType at h
  split at h
  · rename_i type' hparam
    cases h
    obtain ⟨p, hfind, hfrom⟩ := Option.bind_eq_some_iff.mp hparam
    have hv := List.find?_some hfind
    obtain rfl := of_decide_eq_true hv
    have hmem : (p.value, KirValueType.scalar p.typeNode) ∈ f.valueTypes :=
      List.mem_append_left _ (List.mem_map_of_mem
        (f := fun q : KirParam ↦ (q.value, KirValueType.scalar q.typeNode))
        (List.mem_of_find?_eq_some hfind))
    rw [valueType?_of_mem hvalues hmem]
    exact hfrom
  · obtain ⟨p, hp, hfrom⟩ := List.exists_of_findSome?_eq_some h
    split at hfrom
    case isFalse => cases hfrom
    rename_i hv
    subst hv
    rw [valueType?_of_mem hvalues (List.mem_append_right _ hp)]
    exact hfrom

theorem definingInstruction?_eq_some {v : ValueId} {i : KirInstruction}
    (h : f.definingInstruction? v = some i) :
    i ∈ f.instructions ∧ (i.results.head?).map (·.value) = some v := by
  have hhead := List.find?_some h
  exact ⟨List.mem_of_find?_eq_some h, of_decide_eq_true hhead⟩

theorem copied?_eq_some {v w : ValueId} (h : f.copied? v = some w) :
    ∃ i ∈ f.instructions, (i.results.head?).map (·.value) = some v ∧ i.kind = .copy w := by
  unfold copied? at h
  split at h
  case h_2 => cases h
  rename_i u hkind
  cases h
  obtain ⟨i, hi, hkind⟩ := Option.map_eq_some_iff.mp hkind
  obtain ⟨hmem, hv⟩ := definingInstruction?_eq_some hi
  exact ⟨i, hmem, hv, hkind⟩

theorem equated_of_pairMatches (hvalues : f.valueIds.Nodup) (hblocks : f.blockIds.Nodup)
    {l r : ValueId} (h : f.pairMatches pairs l r = true) : f.Equated pairs l r := by
  unfold pairMatches at h
  split at h
  case h_1 => cases h
  rename_i type htype
  simp only [Bool.and_eq_true, decide_eq_true_eq] at h
  obtain ⟨⟨-, htype'⟩, h⟩ := h
  split at h
  · rename_i hcopy
    obtain ⟨i, hi, hl, hkind⟩ := copied?_eq_some hcopy
    exact .copyLeft hi hl hkind (paired_of_equivalent h)
  · rename_i hcopy
    obtain ⟨i, hi, hr, hkind⟩ := copied?_eq_some hcopy
    exact .copyRight hi hr hkind (paired_of_equivalent h)
  · split at h
    · rename_i block i block' j hl hr
      simp only [Bool.and_eq_true, decide_eq_true_eq, List.all_eq_true] at h
      obtain ⟨⟨rfl, -⟩, hargs⟩ := h
      obtain ⟨b, hb, rfl, hleft⟩ := paramPosition?_eq_some hl
      obtain ⟨b', hb', hid, hright⟩ := paramPosition?_eq_some hr
      obtain rfl := block_ext hblocks hb' hb hid
      refine .param hb hleft hright fun p hp ↦ ?_
      have hkeeps := hargs p hp
      unfold edgeKeepsPair at hkeeps
      split at hkeeps
      case h_2 => cases hkeeps
      rename_i x y hx hy
      exact ⟨x, y, hx, hy, paired_of_equivalent hkeeps⟩
    · split at h
      case h_2 => cases h
      rename_i i k hi hk
      simp only [Bool.and_eq_true] at h
      obtain ⟨hiMem, hl⟩ := definingInstruction?_eq_some hi
      obtain ⟨hkMem, hr⟩ := definingInstruction?_eq_some hk
      have hsame := h.2
      unfold sameOperation at hsame
      split at hsame
      · rename_i s s' hs hs'
        split at hsame
        case h_2 => cases hsame
        rename_i x y hx hy
        simp only [Bool.and_eq_true, decide_eq_true_eq] at hsame
        obtain ⟨rfl, -⟩ := hsame
        refine .constant (c := x) ?_ ?_ (valueIntegerType_eq hvalues htype)
          (valueIntegerType_eq hvalues htype')
        · rw [resolveConstant, ← definingInstruction?, hi, Option.bind_some, hs]
          exact hx
        · rw [resolveConstant, ← definingInstruction?, hk, Option.bind_some, hs']
          exact hy
      · rename_i op a b semantics op' a' b' semantics' hiKind hkKind
        simp only [Bool.and_eq_true, decide_eq_true_eq] at hsame
        obtain ⟨⟨⟨⟨⟨-, rfl⟩, rfl⟩, -⟩, hleft⟩, hright⟩ := hsame
        exact .operation hiMem hkMem hl hr hiKind hkKind (paired_of_equivalent hleft)
          (paired_of_equivalent hright)
      · cases hsame

end KirFunction

theorem mem_defs_of_head {i : KirInstruction} {v : ValueId}
    (h : (i.results.head?).map (·.value) = some v) : v ∈ i.defs := by
  obtain ⟨r, hr, rfl⟩ := Option.map_eq_some_iff.mp h
  exact List.mem_map_of_mem (List.mem_of_head? hr)

/-- Two parameters of one block that make a pair are handed pairs along every edge. -/
theorem KirFunction.Equated.params {f : KirFunction} {l r : ValueId} (h : f.Equated pairs l r)
    (hf : f.Strict) {b : KirBlock} (hb : b ∈ f.blocks) (hl : l ∈ b.params.map (·.value))
    (hr : r ∈ b.params.map (·.value)) :
    ∃ i j : Nat, (b.params.map (·.value))[i]? = some l ∧ (b.params.map (·.value))[j]? = some r ∧
      ∀ p ∈ f.predecessorEdges b.id, ∃ x y, p.2.args[i]? = some x ∧ p.2.args[j]? = some y ∧
        Paired pairs x y := by
  have hresult : ∀ v ∈ b.params.map (·.value), ∀ i ∈ f.instructions,
      (i.results.head?).map (·.value) ≠ some v :=
    fun v hv i hi hhead ↦
      KirFunction.blockParam_notMem_defs hf.values hi (mem_defs_of_head hhead) hb hv
  cases h with
  | copyLeft hi hleft => exact absurd hleft (hresult l hl _ hi)
  | copyRight hi hright => exact absurd hright (hresult r hr _ hi)
  | operation hi _ hleft => exact absurd hleft (hresult l hl _ hi)
  | constant hleft =>
      obtain ⟨i, hfind, -⟩ := Option.bind_eq_some_iff.mp hleft
      have hhead := List.find?_some hfind
      exact absurd (of_decide_eq_true hhead) (hresult l hl i (List.mem_of_find?_eq_some hfind))
  | param hc hleft hright hargs =>
      obtain rfl := KirFunction.param_block_ext hf hb hc hl (List.mem_of_getElem? hleft)
      exact ⟨_, _, hleft, hright, hargs⟩

/-- The first result of an operation does not depend on whether a flag is asked for. -/
theorem head_evalBinary {fl : FloatOps} {op : MirBinaryOp} {semantics : KirArithmeticSemantics}
    {x y : KirValue} {n k : Nat} {as bs : List KirValue}
    (ha : evalBinary fl op semantics x y n = some as)
    (hb : evalBinary fl op semantics x y k = some bs) : as.head? = bs.head? := by
  have hchecked : ∀ {type : IntegerType} {z : Int} {as bs : List KirValue},
      checkedResult type z n = some as → checkedResult type z k = some bs →
        as.head? = bs.head? := by
    intro type z as bs ha hb
    unfold checkedResult at ha hb
    by_cases hz : type.Contains z
    · rw [if_pos hz] at ha hb
      cases ha
      cases hb
      rfl
    · rw [if_neg hz] at ha hb
      split at ha <;> split at hb <;> simp_all
  cases x with
  | int type x =>
      cases y with
      | int type' y =>
          simp only [evalBinary] at ha hb
          split at ha
          case isFalse => cases ha
          rename_i htype
          rw [if_pos htype] at hb
          cases semantics with
          | modular | strictFloat => rw [Option.some.inj (ha.symm.trans hb)]
          | checked =>
              cases op with
              | add | sub | mul => exact hchecked ha hb
              | div | mod => rw [Option.some.inj (ha.symm.trans hb)]
      | _ => cases ha
  | float x =>
      cases y with
      | float y => rw [Option.some.inj (ha.symm.trans hb)]
      | _ => cases ha
  | _ => cases ha

namespace Activation

variable {t : TargetModel} {f : KirFunction} {past : List Moment} {frame : Frame}
variable {memory : Memory}

/-- A copy that is available agrees with its operand, which is available and comes earlier. -/
theorem copied_scalar (h : Activation t f past frame memory) (hf : f.Strict) {i : KirInstruction}
    {v w : ValueId} (hi : i ∈ f.instructions) (hv : (i.results.head?).map (·.value) = some v)
    (hkind : i.kind = .copy w) (havail : f.Available v frame.site) :
    frame.env.scalar v = frame.env.scalar w ∧ f.Available w frame.site ∧ f.rank w < f.rank v := by
  obtain ⟨r, hr, rfl⟩ := Option.map_eq_some_iff.mp hv
  have hdef : r.value ∈ i.defs := List.mem_map_of_mem (List.mem_of_head? hr)
  have huse : w ∈ i.uses := by simp [KirInstruction.uses, hkind]
  obtain ⟨⟨before, memory', values, heval, -, huses, hresults⟩, havailUses⟩ :=
    h.evaluated_of_result hf hi (by simp [KirInstruction.isComputed, hkind]) hdef havail
  refine ⟨?_, havailUses w huse, h.rank_use hf hi hdef havail huse⟩
  simp only [evalInstruction, hkind, Option.map_eq_some_iff] at heval
  obtain ⟨x, hx, rfl⟩ := heval
  rw [hresults 0 r x (by rwa [← List.head?_eq_getElem?]) rfl, huses w huse, Env.scalar, hx]

/-- An operation that is available agrees with the same operation on equal operands. -/
theorem operation_scalar (h : Activation t f past frame memory) (hf : f.Strict)
    {i k : KirInstruction} {l r a b a' b' : ValueId} {op : MirBinaryOp}
    {semantics : KirArithmeticSemantics} (hi : i ∈ f.instructions) (hk : k ∈ f.instructions)
    (hl : (i.results.head?).map (·.value) = some l) (hr : (k.results.head?).map (·.value) = some r)
    (hiKind : i.kind = .binary op a b semantics) (hkKind : k.kind = .binary op a' b' semantics)
    (hlAvail : f.Available l frame.site) (hrAvail : f.Available r frame.site)
    (hleft : frame.env.scalar a = frame.env.scalar a')
    (hright : frame.env.scalar b = frame.env.scalar b') :
    frame.env.scalar l = frame.env.scalar r := by
  obtain ⟨left, hleftHead, rfl⟩ := Option.map_eq_some_iff.mp hl
  obtain ⟨right, hrightHead, rfl⟩ := Option.map_eq_some_iff.mp hr
  obtain ⟨⟨before, memory₁, as, hevalL, hcountL, husesL, hresultsL⟩, -⟩ :=
    h.evaluated_of_result hf hi (by simp [KirInstruction.isComputed, hiKind])
      (List.mem_map_of_mem (List.mem_of_head? hleftHead)) hlAvail
  obtain ⟨⟨before', memory₂, bs, hevalR, hcountR, husesR, hresultsR⟩, -⟩ :=
    h.evaluated_of_result hf hk (by simp [KirInstruction.isComputed, hkKind])
      (List.mem_map_of_mem (List.mem_of_head? hrightHead)) hrAvail
  simp only [evalInstruction, hiKind, hkKind, Option.bind_eq_some_iff] at hevalL hevalR
  obtain ⟨x, hx, y, hy, hevalL⟩ := hevalL
  obtain ⟨x', hx', y', hy', hevalR⟩ := hevalR
  -- the operands were the same when the two were computed
  have hscalar : ∀ {u v : ValueId} {p q : KirValue}, before u = some p → before' v = some q →
      u ∈ i.uses → v ∈ k.uses → frame.env.scalar u = frame.env.scalar v → p.isRecord = false →
      p = q := by
    intro u v p q hp hq hu hv heq hplain
    have hsame := (husesL u hu).symm.trans (heq.trans (husesR v hv))
    rw [Env.scalar_eq_some.mpr ⟨hp, hplain⟩] at hsame
    exact Option.some.inj ((Env.scalar_eq_some.mp hsame.symm).1.symm.trans hq)
  have hplain : x.isRecord = false ∧ y.isRecord = false := by
    cases x with
    | int => cases y with
      | int => exact ⟨rfl, rfl⟩
      | _ => cases hevalL
    | float => cases y with
      | float => exact ⟨rfl, rfl⟩
      | _ => cases hevalL
    | _ => cases hevalL
  obtain rfl := hscalar hx hx' (by simp [KirInstruction.uses, hiKind])
    (by simp [KirInstruction.uses, hkKind]) hleft hplain.1
  obtain rfl := hscalar hy hy' (by simp [KirInstruction.uses, hiKind])
    (by simp [KirInstruction.uses, hkKind]) hright hplain.2
  have hhead := head_evalBinary hevalL hevalR
  rw [List.head?_eq_getElem?] at hleftHead hrightHead
  have hlt := (List.getElem?_eq_some_iff.mp hleftHead).1
  rw [List.head?_eq_getElem?, List.head?_eq_getElem?,
    List.getElem?_eq_getElem (lt_of_lt_of_le hlt hcountL)] at hhead
  rw [hresultsL 0 left _ hleftHead (List.getElem?_eq_getElem (lt_of_lt_of_le hlt hcountL)),
    hresultsR 0 right _ hrightHead hhead.symm]

/-- The pairs among the parameters of one block are equal. -/
def ParamsEqual (f : KirFunction) (pairs : List (ValueId × ValueId)) (env : Env) : Prop :=
  ∀ b ∈ f.blocks, ∀ l ∈ b.params.map (·.value), ∀ r ∈ b.params.map (·.value), (l, r) ∈ pairs →
    env.scalar l = env.scalar r

/-- Where both values of a pair are available they are equal, if those of the parameters are.
The definitions lead to values of lower rank. -/
theorem paired_scalar (h : Activation t f past frame memory) (hf : f.Strict)
    (hpairs : ∀ p ∈ pairs, f.Equated pairs p.1 p.2) (hparams : ParamsEqual f pairs frame.env)
    {l r : ValueId} (hpaired : Paired pairs l r) (hl : f.Available l frame.site)
    (hr : f.Available r frame.site) : frame.env.scalar l = frame.env.scalar r := by
  induction hn : f.rank l + f.rank r using Nat.strong_induction_on generalizing l r with
  | _ n ih =>
  subst hn
  have hpair : ∀ l r, (l, r) ∈ pairs → f.Available l frame.site → f.Available r frame.site →
      (∀ a b, Paired pairs a b → f.Available a frame.site → f.Available b frame.site →
        f.rank a + f.rank b < f.rank l + f.rank r → frame.env.scalar a = frame.env.scalar b) →
      frame.env.scalar l = frame.env.scalar r := by
    intro l r hmem hl hr ih
    cases hpairs (l, r) hmem with
    | copyLeft hi hleft hkind hpaired =>
        obtain ⟨heq, hv, hrank⟩ := h.copied_scalar hf hi hleft hkind hl
        exact heq.trans (ih _ _ hpaired hv hr (Nat.add_lt_add_right hrank _))
    | copyRight hi hright hkind hpaired =>
        obtain ⟨heq, hv, hrank⟩ := h.copied_scalar hf hi hright hkind hr
        exact (ih _ _ hpaired hl hv (Nat.add_lt_add_left hrank _)).trans heq.symm
    | param hb hleft hright _ =>
        exact hparams _ hb l (List.mem_of_getElem? hleft) r (List.mem_of_getElem? hright) hmem
    | constant hleft hright hleftType hrightType =>
        obtain ⟨type, htype, -, hval⟩ := h.constant hf hleft hl
        obtain ⟨type', htype', -, hval'⟩ := h.constant hf hright hr
        rw [hval, hval', Option.some.inj (htype.symm.trans hleftType),
          Option.some.inj (htype'.symm.trans hrightType)]
    | @operation i k op a b a' b' semantics hi hk hleft hright hiKind hkKind hpairLeft hpairRight =>
        have hdefL : l ∈ i.defs := mem_defs_of_head hleft
        have hdefR : r ∈ k.defs := mem_defs_of_head hright
        have hoperand : ∀ u ∈ i.uses, ∀ v ∈ k.uses, Paired pairs u v →
            frame.env.scalar u = frame.env.scalar v := by
          intro u hu v hv hpaired
          refine ih u v hpaired ?_ ?_ (Nat.add_lt_add (h.rank_use hf hi hdefL hl hu)
            (h.rank_use hf hk hdefR hr hv))
          · exact (h.evaluated_of_result hf hi (by simp [KirInstruction.isComputed, hiKind])
              hdefL hl).2 u hu
          · exact (h.evaluated_of_result hf hk (by simp [KirInstruction.isComputed, hkKind])
              hdefR hr).2 v hv
        refine h.operation_scalar hf hi hk hleft hright hiKind hkKind hl hr ?_ ?_
        · exact hoperand a (by simp [KirInstruction.uses, hiKind]) a'
            (by simp [KirInstruction.uses, hkKind]) hpairLeft
        · exact hoperand b (by simp [KirInstruction.uses, hiKind]) b'
            (by simp [KirInstruction.uses, hkKind]) hpairRight
  rcases hpaired with rfl | hmem | hmem
  · rfl
  · exact hpair l r hmem hl hr fun a b hpaired ha hb hlt ↦ ih _ hlt hpaired ha hb rfl
  · refine (hpair r l hmem hr hl fun a b hpaired ha hb hlt ↦ ?_).symm
    exact ih _ (by omega) hpaired ha hb rfl

/-- The pairs of parameters are equal all along a run. -/
theorem params_equal (h : Activation t f past frame memory) (hf : f.Strict)
    (hpairs : ∀ p ∈ pairs, f.Equated pairs p.1 p.2) : ParamsEqual f pairs frame.env := by
  refine h.params_induction hf (P := ParamsEqual f pairs) ?_ ?_ ?_
  · intro env env' hsame ih b hb l hl r hr hmem
    rw [hsame b hb l hl, hsame b hb r hr]
    exact ih b hb l hl r hr hmem
  · intro env hnone b hb l hl r hr _
    rw [hnone b hb l hl, hnone b hb r hr]
  · intro past frame memory edge c env' h hrest hedge hc htarget hset hkeep ih b hb l hl r hr hmem
    by_cases hsame : b = c
    case neg =>
      rw [hkeep b hb hsame l hl, hkeep b hb hsame r hr]
      exact ih b hb l hl r hr hmem
    subst hsame
    obtain ⟨i, j, hleft, hright, hargs⟩ := (hpairs (l, r) hmem).params hf hb hl hr
    obtain ⟨x, y, hx, hy, hpaired⟩ := hargs (frame.block.id, edge)
      (KirFunction.mem_predecessorEdges.mpr ⟨frame.block, h.block_mem, rfl, hedge, htarget⟩)
    obtain ⟨a, ha, hal⟩ := hset i l hleft
    obtain ⟨a', ha', har⟩ := hset j r hright
    obtain rfl := Option.some.inj (hx.symm.trans ha)
    obtain rfl := Option.some.inj (hy.symm.trans ha')
    rw [hal, har]
    exact h.paired_scalar hf hpairs ih hpaired
      (h.edge_arg_available hf hrest hedge (List.mem_of_getElem? hx))
      (h.edge_arg_available hf hrest hedge (List.mem_of_getElem? hy))

end Activation

/-- Whenever the parameter of an accepted loop invariant has a value, it is inside the stated
interval; the two parameters of an accepted induction equality are equal all along a run. -/
theorem loopSteps_sound {t : TargetModel} {m : KirModule} {f : KirFunction}
    (hvalid : m.valueErrors = []) (hf : f ∈ m.functions) {past : List Moment} {frame : Frame}
    {memory : Memory} (h : Activation t f past frame memory) :
    (∀ header phi transfer claim, f.loopInvariantMatches header phi transfer claim = true →
      ∀ type x, frame.env phi = some (.int type x) → claim.interval.Contains x) ∧
    ∀ header left right pairs definitions,
      f.inductionEqualityMatches header left right pairs definitions = true →
      ∀ type x, frame.env left = some (.int type x) ↔ frame.env right = some (.int type x) := by
  have hstrict := KirFunction.strict_of_errors hvalid hf
  constructor
  · intro header phi transfer claim hmatches type x hx
    obtain ⟨block, index, hkeeps⟩ := KirFunction.keepsInterval_of_matches hmatches
    exact h.param_contains hstrict hkeeps type x (Env.scalar_eq_some.mpr ⟨hx, rfl⟩)
  · intro header left right pairs definitions hmatches type x
    unfold KirFunction.inductionEqualityMatches at hmatches
    split at hmatches
    case h_1 => cases hmatches
    rename_i block hblock
    simp only [Bool.and_eq_true, List.all_eq_true, List.any_eq_true, decide_eq_true_eq] at hmatches
    obtain ⟨⟨⟨⟨⟨⟨⟨⟨⟨-, hleft⟩, hright⟩, hpair⟩, -⟩, -⟩, -⟩, -⟩, hpairs⟩, -⟩ := hmatches
    obtain ⟨p, hp, rfl⟩ := hleft
    obtain ⟨q, hq, rfl⟩ := hright
    have hequal := h.params_equal hstrict
      (fun p hp ↦ KirFunction.equated_of_pairMatches hstrict.values hstrict.blocks (hpairs p hp))
      block (KirFunction.mem_blocks_of_block? hblock).1 p.value (List.mem_map_of_mem hp) q.value
      (List.mem_map_of_mem hq) (List.contains_iff_mem.mp hpair)
    have hscalar : ∀ v, frame.env v = some (.int type x) ↔
        frame.env.scalar v = some (.int type x) := by
      intro v
      rw [Env.scalar_eq_some]
      exact ⟨fun h ↦ ⟨h, rfl⟩, fun h ↦ h.1⟩
    rw [hscalar, hscalar, hequal]

/-! ## A parameter that goes back and forth -/

/-- `let p = 0; let q = 0; while (p != 5) { p = 5 - p; q = 5 - q; }`, as KIR. -/
def flipModule : KirModule :=
  ⟨uncheckedConfig, none, [],
    [⟨0, "flip", true, [], .void, [⟨0, .conservative, none, 0, none⟩], [⟨0, 0⟩], [],
      [⟨0, "bb0", [], [], [⟨0, [⟨0, .scalar .u32⟩], .constInt "0", none, none⟩],
          .jump ⟨1, [0, 0], []⟩⟩,
        ⟨1, "bb1", [⟨1, "p", .scalar .u32⟩, ⟨2, "q", .scalar .u32⟩], [],
          [⟨1, [⟨3, .scalar .u32⟩], .constInt "5", none, none⟩,
            ⟨2, [⟨4, .scalar .u32⟩], .binary .sub 3 1 .modular, none, none⟩,
            ⟨3, [⟨5, .scalar .u32⟩], .binary .sub 3 2 .modular, none, none⟩,
            ⟨4, [⟨6, .scalar .bool⟩], .compare .eq 1 3, none, none⟩],
          .branch 6 ⟨2, [], []⟩ ⟨1, [4, 5], []⟩⟩,
        ⟨2, "bb2", [], [], [], .return none [(0, 0)] 0⟩]⟩]⟩

def flipClaim : ScalarClaim := ⟨1, ⟨0, 5, by decide⟩, .none⟩

/-- A call of `flip` up to the start of a turn. -/
def flipRun (again : Bool) : Option ActivationState :=
  ActivationState.after (lp64 zeroFloats) flipModule.first [] (fun _ ↦ none) (if again then 7 else 2)

theorem flipRun_isSome (again : Bool) : (flipRun again).isSome := by cases again <;> decide +kernel

def flipState (again : Bool) : ActivationState := (flipRun again).get (flipRun_isSome again)

theorem flipState_activation (again : Bool) : Activation (lp64 zeroFloats) flipModule.first
    (flipState again).past (flipState again).frame (flipState again).memory :=
  ActivationState.after_activation (Option.some_get (flipRun_isSome again)).symm

/-- The second turn is inside the interval, and the two parameters agree. -/
theorem loopSteps_flip :
    flipClaim.interval.Contains 5 ∧ (flipState true).frame.env 2 = some (.int .u32 5) := by
  have hfunction : flipModule.first ∈ flipModule.functions := List.mem_singleton_self _
  obtain ⟨hinterval, hequal⟩ := loopSteps_sound (m := flipModule) (by decide +kernel) hfunction
    (flipState_activation true)
  have hinvariant : flipModule.first.loopInvariantMatches 1 1 2 flipClaim = true := by
    decide +kernel
  have hpairs : flipModule.first.inductionEqualityMatches 1 1 2 [(1, 2), (4, 5)] [2, 3] = true := by
    decide +kernel
  exact ⟨hinterval 1 1 2 flipClaim hinvariant .u32 5 rfl,
    (hequal 1 1 2 _ _ hpairs .u32 5).mp rfl⟩

/-- The parameter of an accepted loop invariant is not the same in all turns. -/
theorem loopInvariant_varies :
    flipModule.valueErrors = [] ∧ flipModule.memoryErrors KirFunction.computeKirDominators = [] ∧
      flipModule.first.loopInvariantMatches 1 1 2 flipClaim = true ∧
      (∀ again, Activation (lp64 zeroFloats) flipModule.first (flipState again).past
        (flipState again).frame (flipState again).memory) ∧
      (flipState false).frame.block.id = 1 ∧ (flipState true).frame.block.id = 1 ∧
      (flipState false).frame.env 1 = some (.int .u32 0) ∧
      (flipState true).frame.env 1 = some (.int .u32 5) :=
  ⟨by decide +kernel, by decide +kernel, by decide +kernel, flipState_activation, rfl, rfl, rfl, rfl⟩

end CalcKernel
