import CalcKernel.Kir.Evaluation
import CalcKernel.Kir.Refinement

/-!
# Dropping instructions

A function without some instructions that do nothing but compute what is not live runs as before.
The frames of the two agree on what is live; while the one runs a dropped instruction the other
waits.
-/

namespace CalcKernel

open Lib

/-! ## What a computed instruction does -/

/-- A computed instruction binds its results and does nothing else. -/
theorem execute_isComputed {i : KirInstruction} (hi : i.isComputed) {t : TargetModel} {env : Env}
    {memory : Memory} {o : InstructionOutcome} (h : executeInstruction t env memory i = some o) :
    ∃ env' values, o = .next env' memory [] ∧ env.bindResults i.results values = some env' := by
  unfold executeInstruction at h
  unfold KirInstruction.isComputed at hi
  split at h
  case h_5 =>
    obtain ⟨values, -, h⟩ := Option.bind_eq_some_iff.mp h
    obtain ⟨env', hbind, rfl⟩ := Option.map_eq_some_iff.mp h
    exact ⟨env', values, rfl, hbind⟩
  all_goals
    rename_i hkind
    rw [hkind] at hi
    cases hi

/-! ## Terminators -/

section Terminators

variable {live : ValueId → Prop} {env env' : Env}

theorem Env.Agree.taken (h : Env.Agree live env env') {terminator : KirTerminator}
    (hlive : ∀ v ∈ terminator.uses, live v) : terminator.taken env = terminator.taken env' := by
  cases terminator with
  | «return» | jump => rfl
  | branch condition thenEdge elseEdge =>
      have hcondition := boolOperand_congr (h condition (hlive condition (by
        simp [KirTerminator.uses])))
      simp only [KirTerminator.taken, hcondition]

theorem Env.Agree.returnValue (h : Env.Agree live env env') {value : Option ValueId}
    (hlive : ∀ v ∈ value, live v) : returnValue env value = returnValue env' value := by
  cases value with
  | none => rfl
  | some v => rw [CalcKernel.returnValue, CalcKernel.returnValue, h v (hlive v rfl)]

end Terminators

/-! ## The functions that are left -/

def KirBlock.keepOnly (p : KirInstruction → Bool) (b : KirBlock) : KirBlock :=
  { b with instructions := b.instructions.filter p }

/-- The function without the instructions that fail a test. -/
def KirFunction.keepOnly (p : KirInstruction → Bool) (f : KirFunction) : KirFunction :=
  { f with blocks := f.blocks.map (·.keepOnly p) }

theorem KirFunction.keepOnly_block? {p : KirInstruction → Bool} {f : KirFunction} (id : BlockId) :
    (f.keepOnly p).block? id = (f.block? id).map (·.keepOnly p) := by
  unfold KirFunction.block? KirFunction.keepOnly
  rw [List.find?_map]
  rfl

/-- In every activation the instruction runs through and changes nothing that is live. -/
structure KirFunction.Idle (f : KirFunction) (live : ValueId → Prop) (b : KirBlock)
    (i : KirInstruction) : Prop where
  not_call : ∀ name args, i.kind ≠ .call name args
  next : ∀ {t : TargetModel} {past frame memory rest o}, Activation t f past frame memory →
    frame.block = b → frame.rest = i :: rest → executeInstruction t frame.env memory i = some o →
      ∃ env, o = .next env memory [] ∧ Env.Agree live env frame.env

/-- Computing what is not live is idle. -/
theorem KirFunction.idle_of_isComputed {f : KirFunction} {live : ValueId → Prop} {b : KirBlock}
    {i : KirInstruction} (hi : i.isComputed) (hdead : ∀ v ∈ i.defs, ¬live v) : f.Idle live b i where
  not_call name args hkind := by
    unfold KirInstruction.isComputed at hi
    rw [hkind] at hi
    cases hi
  next _ _ _ hexecute := by
    obtain ⟨env, values, rfl, hbind⟩ := execute_isComputed hi hexecute
    exact ⟨env, rfl, fun v hv ↦ Env.bindResults_of_notMem hbind fun hmem ↦ hdead v hmem hv⟩

theorem KirFunction.keepOnly_instructions {p : KirInstruction → Bool} {f : KirFunction} :
    (f.keepOnly p).instructions = f.instructions.filter p := by
  unfold KirFunction.instructions KirFunction.keepOnly
  rw [List.filter_flatMap, List.flatMap_map]
  rfl

/-- What is dropped is idle, what is kept reads what is live. -/
structure KirFunction.Droppable (p : KirInstruction → Bool) (live : ValueId → Prop)
    (f : KirFunction) : Prop where
  kept : ∀ b ∈ f.blocks, ∀ i ∈ b.instructions, p i = true → ∀ v ∈ i.uses, live v
  terminator : ∀ b ∈ f.blocks, ∀ v ∈ b.terminator.uses, live v
  dropped : ∀ b ∈ f.blocks, ∀ i ∈ b.instructions, p i = false → f.Idle live b i

variable {p : KirInstruction → Bool} {live : ValueId → Prop} {m : KirModule}

/-- A frame and the one without the dropped instructions; the index counts what is to run. -/
structure Thinned (m : KirModule) (p : KirInstruction → Bool) (live : ValueId → Prop) (n : Nat)
    (F F' : Frame) : Prop where
  mem : F.function ∈ m.functions
  block_mem : F.block ∈ F.function.blocks
  rest_mem : ∀ i ∈ F.rest, i ∈ F.block.instructions
  function : F'.function = F.function.keepOnly p
  block : F'.block = F.block.keepOnly p
  rest : F'.rest = F.rest.filter p
  agree : Env.Agree live F.env F'.env
  index : n = F.rest.length

namespace Thinned

variable {n : Nat} {F F' G : Frame} {t : TargetModel} {memory memory' : Memory}
  {printed : List Printed} {past : List Moment}

theorem droppable (h : Thinned m p live n F F')
    (hm : ∀ f ∈ m.functions, f.Droppable p live) : F.function.Droppable p live :=
  hm _ h.mem

/-- The frame behind the first instruction, with an environment that agrees. -/
theorem tail (h : Thinned m p live n F F') {i : KirInstruction} {rest : List KirInstruction}
    (hrest : F.rest = i :: rest) {env env' : Env} (hagree : Env.Agree live env env') :
    Thinned m p live rest.length { F with rest := rest, env := env }
      { F' with rest := rest.filter p, env := env' } where
  mem := h.mem
  block_mem := h.block_mem
  rest_mem k hk := h.rest_mem k (hrest ▸ List.mem_cons_of_mem i hk)
  function := h.function
  block := h.block
  rest := rfl
  agree := hagree
  index := rfl

theorem rest_kept (h : Thinned m p live n F F') {i : KirInstruction}
    {rest : List KirInstruction} (hrest : F.rest = i :: rest) (hi : p i = true) :
    F'.rest = i :: rest.filter p := by
  rw [h.rest, hrest, List.filter_cons_of_pos hi]

theorem head_mem (h : Thinned m p live n F F') {i : KirInstruction}
    {rest : List KirInstruction} (hrest : F.rest = i :: rest) : i ∈ F.block.instructions :=
  h.rest_mem i (hrest ▸ List.mem_cons_self)

theorem rest_dropped (h : Thinned m p live n F F') {i : KirInstruction}
    {rest : List KirInstruction} (hrest : F.rest = i :: rest) (hi : p i = false) :
    F'.rest = rest.filter p := by
  rw [h.rest, hrest, List.filter_cons_of_neg (by simp [hi])]

theorem follow (h : Thinned m p live n F F') (hm : ∀ f ∈ m.functions, f.Droppable p live)
    {edge : KirEdge} (hedge : edge ∈ F.block.terminator.edges)
    (hfollow : F.follow edge = some G) :
    ∃ k G', F'.follow edge = some G' ∧ Thinned m p live k G G' := by
  obtain ⟨b, xs, hb, hxs, hlength, rfl⟩ := Frame.follow_eq_some hfollow
  have hlive : ∀ v ∈ edge.args, live v := fun v hv ↦
    (h.droppable hm).terminator _ h.block_mem v
      (List.mem_append_right _ (List.mem_flatMap.mpr ⟨edge, hedge, hv⟩))
  have hxs' : F'.env.getAll edge.args = some xs :=
    (Env.getAll_congr fun v hv ↦ h.agree v (hlive v hv)).symm.trans hxs
  refine ⟨_, ⟨F'.function, b.keepOnly p, (b.keepOnly p).instructions,
    F'.env.setAll ((b.params.map (·.value)).zip xs)⟩, ?_, ⟨h.mem,
      (KirFunction.mem_blocks_of_block? hb).1, fun i hi ↦ hi, h.function, rfl, rfl,
      h.agree.setAll _, rfl⟩⟩
  rw [Frame.follow, h.function, KirFunction.keepOnly_block?, hb, Option.map_some,
    Option.bind_some, hxs', Option.bind_some]
  exact if_pos hlength

theorem next (h : Thinned m p live n F F') (hm : ∀ f ∈ m.functions, f.Droppable p live)
    (hact : Activation t F.function past F memory)
    (hmove : F.move t memory = .next G memory' printed) :
    (memory' = memory ∧ printed = [] ∧ ∃ k < n, Thinned m p live k G F') ∨
      ∃ k G', F'.move t memory = .next G' memory' printed ∧ Thinned m p live k G G' := by
  rcases Frame.move_eq_next hmove with
    ⟨hrest, rfl, rfl, edge, htaken, hfollow⟩ | ⟨i, rest, env, hrest, hexecute, rfl⟩
  · have hterminator := (h.droppable hm).terminator _ h.block_mem
    obtain ⟨k, G', hfollow', hthinned⟩ :=
      h.follow hm (KirTerminator.taken_mem_edges htaken) hfollow
    have htaken' : F'.block.terminator.taken F'.env = some edge := by
      rw [h.block]
      exact (h.agree.taken hterminator).symm.trans htaken
    have hrest' : F'.rest = [] := by rw [h.rest, hrest]; rfl
    exact .inr ⟨k, G', Frame.move_of_taken hrest' htaken' hfollow', hthinned⟩
  · have hmem := h.head_mem hrest
    cases hi : p i with
    | true =>
        obtain ⟨o, hexecute', houtcome⟩ := h.agree.execute
          ((h.droppable hm).kept _ h.block_mem i hmem hi) hexecute
        cases houtcome with
        | next hagree =>
            exact .inr ⟨_, _, Frame.move_of_next (h.rest_kept hrest hi) hexecute',
              h.tail hrest hagree⟩
    | false =>
        obtain ⟨e, heq, hsame⟩ :=
          ((h.droppable hm).dropped _ h.block_mem i hmem hi).next hact rfl hrest hexecute
        cases heq
        refine .inl ⟨rfl, rfl, rest.length, ?_, ?_⟩
        · rw [h.index, hrest]
          exact Nat.lt_succ_self _
        · have htail := h.tail hrest fun v hv ↦ (hsame v hv).trans (h.agree v hv)
          rwa [← h.rest_dropped hrest hi] at htail

theorem fail (h : Thinned m p live n F F') (hm : ∀ f ∈ m.functions, f.Droppable p live)
    (hact : Activation t F.function past F memory) {failure : KirFailureKind}
    (hmove : F.move t memory = .fail failure) :
    F'.move t memory = .fail failure := by
  obtain ⟨i, rest, hrest, hexecute⟩ := Frame.move_eq_fail hmove
  have hmem := h.head_mem hrest
  cases hi : p i with
  | true =>
      obtain ⟨o, hexecute', houtcome⟩ := h.agree.execute
        ((h.droppable hm).kept _ h.block_mem i hmem hi) hexecute
      cases houtcome
      exact Frame.move_of_fail (h.rest_kept hrest hi) hexecute'
  | false =>
      obtain ⟨e, heq, -⟩ :=
        ((h.droppable hm).dropped _ h.block_mem i hmem hi).next hact rfl hrest hexecute
      cases heq

theorem call (h : Thinned m p live n F F') (hm : ∀ f ∈ m.functions, f.Droppable p live)
    {name : String} {xs : List KirValue} {results : List KirResult}
    (hmove : F.move t memory = .call name xs results G) :
    ∃ G', F'.move t memory = .call name xs results G' ∧
      Waits (Thinned m p live) results G results G' := by
  obtain ⟨i, rest, args, hrest, hkind, hargs, rfl, rfl⟩ := Frame.move_eq_call hmove
  have hmem := h.head_mem hrest
  have hi : p i = true := by
    by_contra hfalse
    exact ((h.droppable hm).dropped _ h.block_mem i hmem (Bool.eq_false_iff.mpr hfalse)).not_call
      name args hkind
  have huses := (h.droppable hm).kept _ h.block_mem i hmem hi
  have hargs' : F'.env.getAll args = some xs := by
    refine (Env.getAll_congr fun v hv ↦ h.agree v (huses v ?_)).symm.trans hargs
    rw [KirInstruction.uses, hkind]
    exact hv
  refine ⟨_, Frame.move_of_call (h.rest_kept hrest hi) hkind hargs', fun values env hbind ↦ ?_⟩
  obtain ⟨env', hbind', hagree⟩ := h.agree.bindResults hbind
  exact ⟨_, env', hbind', h.tail hrest hagree⟩

theorem «return» (h : Thinned m p live n F F') (hm : ∀ f ∈ m.functions, f.Droppable p live)
    {value : Option KirValue} (hmove : F.move t memory = .return value) :
    F'.move t memory = .return value := by
  obtain ⟨hrest, v, versions, effectOrder, hterminator, hvalue⟩ := Frame.move_eq_return hmove
  have hlive := (h.droppable hm).terminator _ h.block_mem
  have hrest' : F'.rest = [] := by rw [h.rest, hrest]; rfl
  have hterminator' : F'.block.terminator = .return v versions effectOrder := by
    rw [h.block]
    exact hterminator
  refine Frame.move_of_return hrest' hterminator' ?_
  rw [← h.agree.returnValue fun w hw ↦ hlive w ?_]
  · exact hvalue
  · rw [hterminator]
    exact List.mem_append_left _ (Option.mem_toList.mpr hw)

end Thinned

/-- Dropping instructions that compute nothing live keeps what a module does. -/
theorem KirModule.refinedBy_keepOnly (hm : ∀ f ∈ m.functions, f.Droppable p live) :
    m.RefinedBy (m.mapFunctions (·.keepOnly p)) := by
  refine KirModule.refinedBy_of_simulation (Thinned m p live) fun t ↦ ?_
  constructor
  case enter =>
    intro name f args F hf hF
    obtain ⟨hlength, b, hb, rfl⟩ := KirFunction.enter_eq_some hF
    have hmem := (KirModule.mem_functions_of_function? hf).1
    refine ⟨f.keepOnly p, ⟨f.keepOnly p, b.keepOnly p, (b.keepOnly p).instructions,
      Env.empty.setAll ((f.params.map (·.value)).zip args)⟩, _,
      KirModule.mapFunctions_function? (T := (·.keepOnly p)) (fun _ _ ↦ rfl) hf, ?_,
      ⟨hmem, List.mem_of_head? hb, fun i hi ↦ hi, rfl, rfl, rfl, fun _ _ ↦ rfl, rfl⟩⟩
    rw [KirFunction.enter]
    refine (if_pos hlength).trans ?_
    rw [KirFunction.keepOnly, List.head?_map, hb]
    rfl
  case next =>
    intro n F F' G past memory memory' printed h hact hmove
    rcases h.next hm hact hmove with hlag | ⟨k, G', hmove', hthinned⟩
    · exact .inl hlag
    · exact .inr ⟨k, F', G', .refl, hmove', hthinned⟩
  case fail => exact fun h hact hmove ↦ ⟨_, .refl, h.fail hm hact hmove⟩
  case call =>
    intro n F F' past memory name args results G h _ hmove
    obtain ⟨G', hmove', hwaits⟩ := h.call hm hmove
    exact ⟨F', results, G', .refl, hmove', hwaits⟩
  case «return» => exact fun h _ hmove ↦ ⟨_, .refl, h.return hm hmove⟩

end CalcKernel
