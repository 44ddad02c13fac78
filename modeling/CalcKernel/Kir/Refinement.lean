import CalcKernel.Kir.Activation
import CalcKernel.Kir.Operands
import CalcKernel.Lib.Stutter

/-!
# Refinement between modules

A frame moves by itself until it calls, returns or fails.  When every frame of one module is
answered by a frame of another, the calls of the one are answered by calls of the other, and
all that ends or goes on for ever does so with the other module.
-/

namespace CalcKernel

open Lib Relation

/-- Every call from outside that ends with `m` ends alike with `m'`, and one that goes on for ever
goes on for ever. -/
def KirModule.RefinedBy (m m' : KirModule) : Prop :=
  ∀ (t : TargetModel) (name : String) (args : List KirValue) (memory : Memory) (s : State),
    m.start name args memory = some s →
      ∃ s', m'.start name args memory = some s' ∧ (kirMachine t m).Refines s (kirMachine t m') s'

namespace KirModule.RefinedBy

theorem refl (m : KirModule) : m.RefinedBy m :=
  fun t _ _ _ s hs ↦ ⟨s, hs, Machine.Refines.refl (kirMachine t m) s⟩

theorem trans {m m' m'' : KirModule} (h : m.RefinedBy m') (h' : m'.RefinedBy m'') :
    m.RefinedBy m'' := by
  intro t name args memory s hs
  obtain ⟨s', hs', hrefines⟩ := h t name args memory s hs
  obtain ⟨s'', hs'', hrefines'⟩ := h' t name args memory s' hs'
  exact ⟨s'', hs'', hrefines.trans hrefines'⟩

end KirModule.RefinedBy

namespace KirModule

variable {m : KirModule}

/-- All functions of a module changed in one way. -/
def mapFunctions (m : KirModule) (T : KirFunction → KirFunction) : KirModule :=
  { m with functions := m.functions.map T }

theorem mapFunctions_mapFunctions (T S : KirFunction → KirFunction) :
    (m.mapFunctions T).mapFunctions S = m.mapFunctions (S ∘ T) := by
  simp only [mapFunctions, List.map_map]

theorem mapFunctions_congr {T S : KirFunction → KirFunction}
    (h : ∀ f ∈ m.functions, T f = S f) : m.mapFunctions T = m.mapFunctions S := by
  rw [mapFunctions, mapFunctions, List.map_congr_left h]

theorem mapFunctions_function? {T : KirFunction → KirFunction}
    (hname : ∀ f ∈ m.functions, (T f).name = f.name) {name : String} {f : KirFunction}
    (h : m.function? name = some f) :
    (m.mapFunctions T).function? name = some (T f) := by
  unfold function? at h ⊢
  dsimp only [mapFunctions]
  generalize m.functions = functions at h hname
  induction functions with
  | nil => cases h
  | cons g functions ih =>
      rw [List.map_cons, List.find?_cons, hname g List.mem_cons_self]
      rw [List.find?_cons] at h
      split at h
      · cases h
        rfl
      · exact ih h fun f hf ↦ hname f (List.mem_cons_of_mem g hf)

end KirModule

/-! ## Moves of a frame -/

/-- What a frame does next; a call leaves the frame that waits for it. -/
inductive FrameMove where
  | next (frame : Frame) (memory : Memory) (printed : List Printed)
  | fail (failure : KirFailureKind)
  | call (name : String) (args : List KirValue) (results : List KirResult) (frame : Frame)
  | return (value : Option KirValue)
  | stuck

namespace Frame

/-- Where the terminator of its block takes a frame. -/
def leave (F : Frame) (memory : Memory) : FrameMove :=
  match F.block.terminator with
  | .return value _ _ =>
      match returnValue F.env value with
      | some v => .return v
      | none => .stuck
  | terminator =>
      match (terminator.taken F.env).bind F.follow with
      | some G => .next G memory []
      | none => .stuck

def runInstruction (t : TargetModel) (memory : Memory) (F : Frame) (i : KirInstruction)
    (rest : List KirInstruction) : FrameMove :=
  match i.kind with
  | .call name args =>
      match F.env.getAll args with
      | some xs => .call name xs i.results { F with rest := rest }
      | none => .stuck
  | _ =>
      match executeInstruction t F.env memory i with
      | some (.next env memory' printed) => .next { F with rest := rest, env := env } memory' printed
      | some (.fail failure) => .fail failure
      | none => .stuck

def move (t : TargetModel) (memory : Memory) (F : Frame) : FrameMove :=
  match F.rest with
  | [] => F.leave memory
  | i :: rest => F.runInstruction t memory i rest

/-- Moves that neither change the memory nor print. -/
def Silent (t : TargetModel) (memory : Memory) : Frame → Frame → Prop :=
  ReflTransGen fun F G ↦ F.move t memory = .next G memory []

theorem move_nil {t : TargetModel} {memory : Memory} {F : Frame} (h : F.rest = []) :
    F.move t memory = F.leave memory := by
  rw [move, h]

theorem move_cons {t : TargetModel} {memory : Memory} {F : Frame} {i : KirInstruction}
    {rest : List KirInstruction} (h : F.rest = i :: rest) :
    F.move t memory = F.runInstruction t memory i rest := by
  rw [move, h]

theorem leave_return {memory : Memory} {F : Frame} {value : Option ValueId}
    {versions : List (MemoryRegionId × MemoryVersionId)} {effectOrder : Nat}
    (h : F.block.terminator = .return value versions effectOrder) :
    F.leave memory = match returnValue F.env value with
      | some v => .return v
      | none => .stuck := by
  rw [leave, h]

theorem leave_edge {memory : Memory} {F : Frame}
    (h : ∀ value versions effectOrder, F.block.terminator ≠ .return value versions effectOrder) :
    F.leave memory = match (F.block.terminator.taken F.env).bind F.follow with
      | some G => .next G memory []
      | none => .stuck := by
  unfold leave
  split
  · rename_i hreturn
    exact absurd hreturn (h _ _ _)
  · rfl

/-- A frame that leaves its block follows an edge and does nothing else. -/
theorem leave_eq_next {memory memory' : Memory} {F G : Frame} {printed : List Printed}
    (h : F.leave memory = .next G memory' printed) :
    memory' = memory ∧ printed = [] ∧ ∃ edge, F.block.terminator.taken F.env = some edge ∧
      F.follow edge = some G := by
  unfold leave at h
  split at h
  · split at h <;> cases h
  · split at h
    · rename_i hfollow
      cases h
      exact ⟨rfl, rfl, Option.bind_eq_some_iff.mp hfollow⟩
    · cases h

theorem leave_of_taken {memory : Memory} {F G : Frame} {edge : KirEdge}
    (htaken : F.block.terminator.taken F.env = some edge) (hfollow : F.follow edge = some G) :
    F.leave memory = .next G memory [] := by
  rw [leave_edge, htaken, Option.bind_some, hfollow]
  intro value versions effectOrder heq
  rw [heq] at htaken
  cases htaken

theorem leave_eq_return {memory : Memory} {F : Frame} {v : Option KirValue}
    (h : F.leave memory = .return v) : ∃ value versions effectOrder,
      F.block.terminator = .return value versions effectOrder ∧ returnValue F.env value = some v := by
  unfold leave at h
  split at h
  · rename_i value versions effectOrder hterminator
    split at h
    · rename_i hvalue
      cases h
      exact ⟨_, _, _, hterminator, hvalue⟩
    · cases h
  · split at h <;> cases h

theorem runInstruction_execute {t : TargetModel} {memory : Memory} {F : Frame} {i : KirInstruction}
    {rest : List KirInstruction} (h : ∀ name args, i.kind ≠ .call name args) :
    F.runInstruction t memory i rest = match executeInstruction t F.env memory i with
      | some (.next env memory' printed) => .next { F with rest := rest, env := env } memory' printed
      | some (.fail failure) => .fail failure
      | none => .stuck := by
  unfold runInstruction
  cases hkind : i.kind with
  | call name args => exact absurd hkind (h name args)
  | _ => rfl

theorem runInstruction_call {t : TargetModel} {memory : Memory} {F : Frame} {i : KirInstruction}
    {rest : List KirInstruction} {name : String} {args : List ValueId}
    (h : i.kind = .call name args) :
    F.runInstruction t memory i rest = match F.env.getAll args with
      | some xs => .call name xs i.results { F with rest := rest }
      | none => .stuck := by
  rw [runInstruction, h]

/-- Calls are no business of `executeInstruction`. -/
theorem not_call_of_execute {t : TargetModel} {env : Env} {memory : Memory} {i : KirInstruction}
    {o : InstructionOutcome} (h : executeInstruction t env memory i = some o) (name : String)
    (args : List ValueId) : i.kind ≠ .call name args := by
  intro hkind
  simp only [executeInstruction, evalInstruction, hkind] at h
  cases h

theorem runInstruction_of_next {t : TargetModel} {memory memory' : Memory} {F : Frame}
    {i : KirInstruction} {rest : List KirInstruction} {env : Env} {printed : List Printed}
    (h : executeInstruction t F.env memory i = some (.next env memory' printed)) :
    F.runInstruction t memory i rest =
      .next { F with rest := rest, env := env } memory' printed := by
  rw [runInstruction_execute (not_call_of_execute h), h]

theorem runInstruction_of_fail {t : TargetModel} {memory : Memory} {F : Frame}
    {i : KirInstruction} {rest : List KirInstruction} {failure : KirFailureKind}
    (h : executeInstruction t F.env memory i = some (.fail failure)) :
    F.runInstruction t memory i rest = .fail failure := by
  rw [runInstruction_execute (not_call_of_execute h), h]

theorem runInstruction_eq_next {t : TargetModel} {memory memory' : Memory} {F G : Frame}
    {i : KirInstruction} {rest : List KirInstruction} {printed : List Printed}
    (h : F.runInstruction t memory i rest = .next G memory' printed) :
    ∃ env, executeInstruction t F.env memory i = some (.next env memory' printed) ∧
      G = { F with rest := rest, env := env } := by
  by_cases hcall : ∃ name args, i.kind = .call name args
  · obtain ⟨name, args, hkind⟩ := hcall
    rw [runInstruction_call hkind] at h
    split at h <;> cases h
  · rw [runInstruction_execute fun name args hkind ↦ hcall ⟨name, args, hkind⟩] at h
    split at h
    · rename_i hexecute
      cases h
      exact ⟨_, hexecute, rfl⟩
    · cases h
    · cases h

theorem runInstruction_eq_fail {t : TargetModel} {memory : Memory} {F : Frame}
    {i : KirInstruction} {rest : List KirInstruction} {failure : KirFailureKind}
    (h : F.runInstruction t memory i rest = .fail failure) :
    executeInstruction t F.env memory i = some (.fail failure) := by
  by_cases hcall : ∃ name args, i.kind = .call name args
  · obtain ⟨name, args, hkind⟩ := hcall
    rw [runInstruction_call hkind] at h
    split at h <;> cases h
  · rw [runInstruction_execute fun name args hkind ↦ hcall ⟨name, args, hkind⟩] at h
    split at h
    · cases h
    · rename_i hexecute
      cases h
      exact hexecute
    · cases h

theorem runInstruction_eq_call {t : TargetModel} {memory : Memory} {F G : Frame}
    {i : KirInstruction} {rest : List KirInstruction} {name : String} {xs : List KirValue}
    {results : List KirResult} (h : F.runInstruction t memory i rest = .call name xs results G) :
    ∃ args, i.kind = .call name args ∧ F.env.getAll args = some xs ∧ results = i.results ∧
      G = { F with rest := rest } := by
  by_cases hcall : ∃ name args, i.kind = .call name args
  · obtain ⟨name, args, hkind⟩ := hcall
    rw [runInstruction_call hkind] at h
    split at h
    · rename_i hargs
      cases h
      exact ⟨args, hkind, hargs, rfl, rfl⟩
    · cases h
  · rw [runInstruction_execute fun name args hkind ↦ hcall ⟨name, args, hkind⟩] at h
    split at h <;> cases h

theorem runInstruction_ne_return {t : TargetModel} {memory : Memory} {F : Frame}
    {i : KirInstruction} {rest : List KirInstruction} {v : Option KirValue} :
    F.runInstruction t memory i rest ≠ .return v := by
  intro h
  by_cases hcall : ∃ name args, i.kind = .call name args
  · obtain ⟨name, args, hkind⟩ := hcall
    rw [runInstruction_call hkind] at h
    split at h <;> cases h
  · rw [runInstruction_execute fun name args hkind ↦ hcall ⟨name, args, hkind⟩] at h
    split at h <;> cases h

/-- A frame that leaves its block follows an edge or returns. -/
theorem leave_cases (memory : Memory) (F : Frame) :
    (∃ G, F.leave memory = .next G memory []) ∨ (∃ v, F.leave memory = .return v) ∨
      F.leave memory = .stuck := by
  unfold leave
  split
  · split
    · exact .inr (.inl ⟨_, rfl⟩)
    · exact .inr (.inr rfl)
  · split
    · exact .inl ⟨_, rfl⟩
    · exact .inr (.inr rfl)

theorem move_eq_fail {t : TargetModel} {memory : Memory} {F : Frame} {failure : KirFailureKind}
    (h : F.move t memory = .fail failure) : ∃ i rest, F.rest = i :: rest ∧
      executeInstruction t F.env memory i = some (.fail failure) := by
  cases hrest : F.rest with
  | nil =>
      rw [move_nil hrest] at h
      rcases leave_cases memory F with ⟨G, hleave⟩ | ⟨v, hleave⟩ | hleave <;>
        cases hleave.symm.trans h
  | cons i rest =>
      rw [move_cons hrest] at h
      exact ⟨i, rest, rfl, runInstruction_eq_fail h⟩

theorem move_eq_call {t : TargetModel} {memory : Memory} {F G : Frame} {name : String}
    {xs : List KirValue} {results : List KirResult} (h : F.move t memory = .call name xs results G) :
    ∃ i rest args, F.rest = i :: rest ∧ i.kind = .call name args ∧ F.env.getAll args = some xs ∧
      results = i.results ∧ G = { F with rest := rest } := by
  cases hrest : F.rest with
  | nil =>
      rw [move_nil hrest] at h
      rcases leave_cases memory F with ⟨G, hleave⟩ | ⟨v, hleave⟩ | hleave <;>
        cases hleave.symm.trans h
  | cons i rest =>
      rw [move_cons hrest] at h
      obtain ⟨args, hcall⟩ := runInstruction_eq_call h
      exact ⟨i, rest, args, rfl, hcall⟩

theorem move_eq_return {t : TargetModel} {memory : Memory} {F : Frame} {v : Option KirValue}
    (h : F.move t memory = .return v) : F.rest = [] ∧ ∃ value versions effectOrder,
      F.block.terminator = .return value versions effectOrder ∧
        returnValue F.env value = some v := by
  cases hrest : F.rest with
  | nil =>
      rw [move_nil hrest] at h
      exact ⟨rfl, leave_eq_return h⟩
  | cons i rest =>
      rw [move_cons hrest] at h
      exact absurd h runInstruction_ne_return

/-- A frame follows an edge or runs an instruction. -/
theorem move_eq_next {t : TargetModel} {memory memory' : Memory} {F G : Frame}
    {printed : List Printed} (h : F.move t memory = .next G memory' printed) :
    (F.rest = [] ∧ memory' = memory ∧ printed = [] ∧
      ∃ edge, F.block.terminator.taken F.env = some edge ∧ F.follow edge = some G) ∨
    ∃ i rest env, F.rest = i :: rest ∧
      executeInstruction t F.env memory i = some (.next env memory' printed) ∧
      G = { F with rest := rest, env := env } := by
  cases hrest : F.rest with
  | nil =>
      rw [move_nil hrest] at h
      exact .inl ⟨rfl, leave_eq_next h⟩
  | cons i rest =>
      rw [move_cons hrest] at h
      obtain ⟨env, hexecute⟩ := runInstruction_eq_next h
      exact .inr ⟨i, rest, env, rfl, hexecute⟩

theorem move_of_taken {t : TargetModel} {memory : Memory} {F G : Frame} {edge : KirEdge}
    (hrest : F.rest = []) (htaken : F.block.terminator.taken F.env = some edge)
    (hfollow : F.follow edge = some G) : F.move t memory = .next G memory [] :=
  (move_nil hrest).trans (leave_of_taken htaken hfollow)

theorem move_of_next {t : TargetModel} {memory memory' : Memory} {F : Frame} {i : KirInstruction}
    {rest : List KirInstruction} {env : Env} {printed : List Printed} (hrest : F.rest = i :: rest)
    (h : executeInstruction t F.env memory i = some (.next env memory' printed)) :
    F.move t memory = .next { F with rest := rest, env := env } memory' printed :=
  (move_cons hrest).trans (runInstruction_of_next h)

theorem move_of_fail {t : TargetModel} {memory : Memory} {F : Frame} {i : KirInstruction}
    {rest : List KirInstruction} {failure : KirFailureKind} (hrest : F.rest = i :: rest)
    (h : executeInstruction t F.env memory i = some (.fail failure)) :
    F.move t memory = .fail failure :=
  (move_cons hrest).trans (runInstruction_of_fail h)

theorem move_of_call {t : TargetModel} {memory : Memory} {F : Frame} {i : KirInstruction}
    {rest : List KirInstruction} {name : String} {args : List ValueId} {xs : List KirValue}
    (hrest : F.rest = i :: rest) (hkind : i.kind = .call name args)
    (hargs : F.env.getAll args = some xs) :
    F.move t memory = .call name xs i.results { F with rest := rest } := by
  rw [move_cons hrest, runInstruction_call hkind, hargs]

theorem move_of_return {t : TargetModel} {memory : Memory} {F : Frame} {value : Option ValueId}
    {versions : List (MemoryRegionId × MemoryVersionId)} {effectOrder : Nat} {v : Option KirValue}
    (hrest : F.rest = []) (hterminator : F.block.terminator = .return value versions effectOrder)
    (hvalue : returnValue F.env value = some v) : F.move t memory = .return v := by
  rw [move_nil hrest, leave_return hterminator, hvalue]

end Frame

open CalcKernel.Frame

/-- The state a move of the running frame leads to. -/
def State.afterMove (m : KirModule) (s : State) : FrameMove → Move State Outcome
  | .next F memory printed =>
      .next { s with frame := F, memory := memory, printed := s.printed ++ printed }
  | .fail failure => .halt (.failed failure s.memory s.printed)
  | .call name args results F =>
      match (m.function? name).bind (·.enter args) with
      | some callee => .next { s with frame := callee, callers := ⟨F, results⟩ :: s.callers }
      | none => .stuck
  | .return value => resume s value
  | .stuck => .stuck

theorem stepTerminator_eq_afterMove (m : KirModule) (s : State) :
    stepTerminator s = s.afterMove m (s.frame.leave s.memory) := by
  unfold stepTerminator Frame.leave
  cases s.frame.block.terminator with
  | «return» value versions effectOrder =>
      dsimp only
      cases returnValue s.frame.env value <;> rfl
  | jump edge | branch condition thenEdge elseEdge =>
      dsimp only
      generalize Option.bind _ s.frame.follow = G
      cases G with
      | none => rfl
      | some G => simp only [State.afterMove, List.append_nil]

theorem stepInstruction_eq_afterMove (t : TargetModel) (m : KirModule) (s : State)
    (i : KirInstruction) (rest : List KirInstruction) :
    stepInstruction t m s i rest = s.afterMove m (s.frame.runInstruction t s.memory i rest) := by
  have hexecute : (match executeInstruction t s.frame.env s.memory i with
      | some (.next env memory printed) => .next { s with
          frame := { s.frame with rest := rest, env := env }
          memory := memory
          printed := s.printed ++ printed }
      | some (.fail failure) => .halt (.failed failure s.memory s.printed)
      | none => .stuck : Move State Outcome) =
      s.afterMove m (match executeInstruction t s.frame.env s.memory i with
      | some (.next env memory' printed) =>
          .next { s.frame with rest := rest, env := env } memory' printed
      | some (.fail failure) => .fail failure
      | none => .stuck) := by
    cases executeInstruction t s.frame.env s.memory i with
    | none => rfl
    | some o => cases o <;> rfl
  unfold stepInstruction Frame.runInstruction
  cases i.kind with
  | call name args =>
      dsimp only
      cases hargs : s.frame.env.getAll args with
      | none => cases m.function? name <;> rfl
      | some xs =>
          dsimp only [State.afterMove]
          cases m.function? name with
          | none => rfl
          | some f =>
              cases hF : f.enter xs <;> simp only [Option.bind_some, hF]
  | _ => exact hexecute

theorem step_eq_afterMove (t : TargetModel) (m : KirModule) (s : State) :
    step t m s = s.afterMove m (s.frame.move t s.memory) := by
  unfold step Frame.move
  cases s.frame.rest with
  | nil => exact stepTerminator_eq_afterMove m s
  | cons i rest => exact stepInstruction_eq_afterMove t m s i rest

/-! ## Simulation -/

/-- A waiting frame is answered by one that takes over the same values. -/
def Waits (R : Nat → Frame → Frame → Prop) (results : List KirResult) (F : Frame)
    (results' : List KirResult) (F' : Frame) : Prop :=
  ∀ (values : List KirValue) (env : Env), F.env.bindResults results values = some env →
    ∃ n env', F'.env.bindResults results' values = some env' ∧
      R n { F with env := env } { F' with env := env' }

/-- How the frames of one module are answered by frames of another: by the same move behind silent
ones, or by none while an index goes down.  The frame that is answered belongs to an activation. -/
structure FrameSimulation (t : TargetModel) (m m' : KirModule) (R : Nat → Frame → Frame → Prop) :
    Prop where
  enter : ∀ {name f args F}, m.function? name = some f → f.enter args = some F →
    ∃ f' F' n, m'.function? name = some f' ∧ f'.enter args = some F' ∧ R n F F'
  next : ∀ {n F F' G past memory memory' printed}, R n F F' →
    Activation t F.function past F memory → F.move t memory = .next G memory' printed →
      (memory' = memory ∧ printed = [] ∧ ∃ n' < n, R n' G F') ∨
      ∃ n' F'' G', Silent t memory F' F'' ∧ F''.move t memory = .next G' memory' printed ∧ R n' G G'
  fail : ∀ {n F F' past memory failure}, R n F F' → Activation t F.function past F memory →
    F.move t memory = .fail failure → ∃ F'', Silent t memory F' F'' ∧ F''.move t memory = .fail failure
  call : ∀ {n F F' past memory name args results G}, R n F F' →
    Activation t F.function past F memory → F.move t memory = .call name args results G →
      ∃ F'' results' G', Silent t memory F' F'' ∧
        F''.move t memory = .call name args results' G' ∧ Waits R results G results' G'
  «return» : ∀ {n F F' past memory value}, R n F F' → Activation t F.function past F memory →
    F.move t memory = .return value → ∃ F'', Silent t memory F' F'' ∧ F''.move t memory = .return value

/-- Two states whose frames answer each other. -/
structure StatesAnswer (R : Nat → Frame → Frame → Prop) (n : Nat) (s s' : State) : Prop where
  frame : R n s.frame s'.frame
  callers : List.Forall₂ (fun c c' ↦ Waits R c.results c.frame c'.results c'.frame)
    s.callers s'.callers
  memory : s'.memory = s.memory
  printed : s'.printed = s.printed

namespace FrameSimulation

variable {t : TargetModel} {m m' : KirModule} {R : Nat → Frame → Frame → Prop}

theorem reaches_silent {s : State} {F : Frame} (h : Silent t s.memory s.frame F) :
    (kirMachine t m).Reaches s { s with frame := F } := by
  induction h with
  | refl => exact .refl s
  | tail _ hmove ih =>
      refine ih.tail ?_
      show step t m _ = _
      rw [step_eq_afterMove]
      dsimp only
      rw [hmove, State.afterMove, List.append_nil]

/-- What comes back is handed to the waiting frames. -/
theorem resume_answered {s s' r : State} (hcallers : List.Forall₂
      (fun c c' ↦ Waits R c.results c.frame c'.results c'.frame) s.callers s'.callers)
    (hmemory : s'.memory = s.memory) (hprinted : s'.printed = s.printed) {value : Option KirValue}
    (hresume : resume s value = .next r) :
    ∃ k r', resume s' value = .next r' ∧ StatesAnswer R k r r' := by
  obtain ⟨frame, callers, memory, printed⟩ := s
  obtain ⟨frame', callers', memory', printed'⟩ := s'
  obtain rfl : memory' = memory := hmemory
  obtain rfl : printed' = printed := hprinted
  unfold resume at hresume ⊢
  cases hcallers with
  | nil => cases hresume
  | @cons c c' callers callers' hc hcallers =>
      dsimp only at hresume ⊢
      cases hbind : c.frame.env.bindResults c.results value.toList with
      | none =>
          rw [hbind] at hresume
          cases hresume
      | some env =>
          rw [hbind] at hresume
          cases hresume
          obtain ⟨k, env', henv', hR⟩ := hc _ _ hbind
          rw [henv']
          exact ⟨k, _, rfl, hR, hcallers, rfl, rfl⟩

theorem resume_halts {s s' : State} (hcallers : List.Forall₂
      (fun c c' ↦ Waits R c.results c.frame c'.results c'.frame) s.callers s'.callers)
    (hmemory : s'.memory = s.memory) (hprinted : s'.printed = s.printed) {value : Option KirValue}
    {o : Outcome} (hresume : resume s value = .halt o) : resume s' value = .halt o := by
  obtain ⟨frame, callers, memory, printed⟩ := s
  obtain ⟨frame', callers', memory', printed'⟩ := s'
  obtain rfl : memory' = memory := hmemory
  obtain rfl : printed' = printed := hprinted
  unfold resume at hresume ⊢
  cases hcallers with
  | nil => exact hresume
  | cons _ _ =>
      dsimp only at hresume
      split at hresume <;> cases hresume

/-- A move behind silent ones is a run of at least one step. -/
theorem reachesPlus_of_move {s r : State} {F : Frame} {move : FrameMove}
    (hsilent : Silent t s.memory s.frame F) (hmove : F.move t s.memory = move)
    (hafter : ({ s with frame := F } : State).afterMove m move = .next r) :
    (kirMachine t m).ReachesPlus s r := by
  refine TransGen.tail' (reaches_silent (m := m) hsilent) ?_
  show step t m _ = _
  rw [step_eq_afterMove]
  dsimp only
  rw [hmove, hafter]

theorem halts_of_move {s : State} {F : Frame} {move : FrameMove} {o : Outcome}
    (hsilent : Silent t s.memory s.frame F) (hmove : F.move t s.memory = move)
    (hafter : ({ s with frame := F } : State).afterMove m move = .halt o) :
    (kirMachine t m).Halts s o := by
  refine ⟨_, reaches_silent (m := m) hsilent, ?_⟩
  show step t m _ = _
  rw [step_eq_afterMove]
  dsimp only
  rw [hmove, hafter]

theorem stepNext (sim : FrameSimulation t m m' R) {n : Nat} {s s' r : State} (hs : s.Active t)
    (h : StatesAnswer R n s s') (hstep : step t m s = .next r) :
    (∃ k < n, StatesAnswer R k r s') ∨
      ∃ k r', (kirMachine t m').ReachesPlus s' r' ∧ StatesAnswer R k r r' := by
  obtain ⟨past, hact⟩ := hs.frame
  have hmemory := h.memory
  have hprinted := h.printed
  rw [step_eq_afterMove] at hstep
  cases hmove : s.frame.move t s.memory with
  | next G memory printed =>
      rw [hmove] at hstep
      cases hstep
      rcases sim.next h.frame hact hmove with ⟨rfl, rfl, k, hk, hR⟩ | ⟨k, F'', G', hsilent, hmove', hR⟩
      · exact .inl ⟨k, hk, hR, h.callers, hmemory, hprinted.trans (List.append_nil _).symm⟩
      · rw [← hmemory] at hsilent hmove'
        refine .inr ⟨k, _, reachesPlus_of_move hsilent hmove' rfl, hR, h.callers, rfl, ?_⟩
        exact congrArg (· ++ printed) hprinted
  | fail failure =>
      rw [hmove] at hstep
      cases hstep
  | call name args results G =>
      rw [hmove] at hstep
      obtain ⟨F'', results', G', hsilent, hmove', hwaits⟩ := sim.call h.frame hact hmove
      rw [← hmemory] at hsilent hmove'
      cases hcallee : (m.function? name).bind (·.enter args) with
      | none =>
          rw [State.afterMove, hcallee] at hstep
          cases hstep
      | some callee =>
          rw [State.afterMove, hcallee] at hstep
          cases hstep
          obtain ⟨f, hf, henter⟩ := Option.bind_eq_some_iff.mp hcallee
          obtain ⟨f', callee', k, hf', henter', hR⟩ := sim.enter hf henter
          refine .inr ⟨k, { s' with frame := callee', callers := ⟨G', results'⟩ :: s'.callers },
            reachesPlus_of_move hsilent hmove' ?_, hR, .cons hwaits h.callers, hmemory, hprinted⟩
          rw [State.afterMove, hf', Option.bind_some, henter']
  | «return» value =>
      rw [hmove] at hstep
      obtain ⟨F'', hsilent, hmove'⟩ := sim.return h.frame hact hmove
      rw [← hmemory] at hsilent hmove'
      obtain ⟨k, r', hresume, hanswer⟩ := resume_answered h.callers hmemory hprinted hstep
      exact .inr ⟨k, r', reachesPlus_of_move hsilent hmove' hresume, hanswer⟩
  | stuck =>
      rw [hmove] at hstep
      cases hstep

theorem stepHalts (sim : FrameSimulation t m m' R) {n : Nat} {s s' : State} {o : Outcome}
    (hs : s.Active t) (h : StatesAnswer R n s s') (hstep : step t m s = .halt o) :
    (kirMachine t m').Halts s' o := by
  obtain ⟨past, hact⟩ := hs.frame
  have hmemory := h.memory
  have hprinted := h.printed
  rw [step_eq_afterMove] at hstep
  cases hmove : s.frame.move t s.memory with
  | next G memory printed =>
      rw [hmove] at hstep
      cases hstep
  | fail failure =>
      rw [hmove] at hstep
      cases hstep
      obtain ⟨F'', hsilent, hmove'⟩ := sim.fail h.frame hact hmove
      rw [← hmemory] at hsilent hmove'
      refine halts_of_move hsilent hmove' ?_
      rw [State.afterMove, hmemory, hprinted]
  | call name args results G =>
      rw [hmove, State.afterMove] at hstep
      split at hstep <;> cases hstep
  | «return» value =>
      rw [hmove] at hstep
      obtain ⟨F'', hsilent, hmove'⟩ := sim.return h.frame hact hmove
      rw [← hmemory] at hsilent hmove'
      exact halts_of_move hsilent hmove' (resume_halts h.callers hmemory hprinted hstep)
  | stuck =>
      rw [hmove] at hstep
      cases hstep

theorem simulation (sim : FrameSimulation t m m' R) :
    StutterSimulation (kirMachine t m) (kirMachine t m')
      fun n s s' ↦ s.Active t ∧ StatesAnswer R n s s' := by
  refine ⟨fun h hstep ↦ ?_, fun h hstep ↦ sim.stepHalts h.1 h.2 hstep⟩
  have hs' := step_active h.1 hstep
  rcases sim.stepNext h.1 h.2 hstep with ⟨k, hk, h'⟩ | ⟨k, r', hreaches, h'⟩
  · exact .inl ⟨k, hk, hs', h'⟩
  · exact .inr ⟨k, r', hreaches, hs', h'⟩

end FrameSimulation

/-- Frames that answer each other make the modules refine each other. -/
theorem KirModule.refinedBy_of_simulation {m m' : KirModule} (R : Nat → Frame → Frame → Prop)
    (sim : ∀ t, FrameSimulation t m m' R) : m.RefinedBy m' := by
  intro t name args memory s hs
  have hactive : s.Active t := start_active hs
  obtain ⟨F, hF, rfl⟩ := Option.map_eq_some_iff.mp hs
  obtain ⟨f, hf, henter⟩ := Option.bind_eq_some_iff.mp hF
  obtain ⟨f', F', n, hf', henter', hR⟩ := (sim t).enter hf henter
  refine ⟨⟨F', [], memory, []⟩, ?_,
    (sim t).simulation.refines (n := n) ⟨hactive, hR, .nil, rfl, rfl⟩⟩
  rw [KirModule.start, hf', Option.bind_some, henter']
  rfl

end CalcKernel
