import CalcKernel.Kir.Semantics

/-!
# Activations

One call of one function, seen alone: the events it went through, newest first,
each with the environment it left.  A call instruction binds whatever values the
callee hands back and leaves whatever memory the callee leaves, so an activation
over-approximates what the machine does; every frame on the stack of a reachable
machine state is the end of an activation.
-/

namespace CalcKernel

inductive Event where
  | enter (function : KirFunction)
  | execute (instruction : KirInstruction)
  | follow (edge : KirEdge) (target : KirBlock)

structure Moment where
  event : Event
  env : Env

/-- The activation of `f` with the given past is now at the given frame and memory. -/
inductive Activation (t : TargetModel) (f : KirFunction) : List Moment → Frame → Memory → Prop
  | enter {args : List KirValue} {frame : Frame} {memory : Memory}
      (h : f.enter args = some frame) : Activation t f [⟨.enter f, frame.env⟩] frame memory
  | execute {past : List Moment} {frame : Frame} {memory memory' : Memory} {i : KirInstruction}
      {rest : List KirInstruction} {env : Env} {printed : List Printed}
      (h : Activation t f past frame memory) (hrest : frame.rest = i :: rest)
      (hi : executeInstruction t frame.env memory i = some (.next env memory' printed)) :
      Activation t f (⟨.execute i, env⟩ :: past) { frame with rest := rest, env := env } memory'
  | call {past : List Moment} {frame : Frame} {memory memory' : Memory} {i : KirInstruction}
      {rest : List KirInstruction} {env : Env} {name : String} {args : List ValueId}
      {values : List KirValue}
      (h : Activation t f past frame memory) (hrest : frame.rest = i :: rest)
      (hi : i.kind = .call name args)
      (hbind : frame.env.bindResults i.results values = some env) :
      Activation t f (⟨.execute i, env⟩ :: past) { frame with rest := rest, env := env } memory'
  | follow {past : List Moment} {frame frame' : Frame} {memory : Memory} {edge : KirEdge}
      (h : Activation t f past frame memory) (hrest : frame.rest = [])
      (htaken : frame.block.terminator.taken frame.env = some edge)
      (hfollow : frame.follow edge = some frame') :
      Activation t f (⟨.follow edge frame'.block, frame'.env⟩ :: past) frame' memory

theorem KirFunction.enter_eq_some {f : KirFunction} {args : List KirValue} {frame : Frame}
    (h : f.enter args = some frame) :
    f.params.length = args.length ∧ ∃ b, f.blocks.head? = some b ∧
      frame = ⟨f, b, b.instructions, Env.empty.setAll ((f.params.map (·.value)).zip args)⟩ := by
  unfold KirFunction.enter at h
  split at h
  case isFalse => cases h
  case isTrue hlen =>
    obtain ⟨b, hb, rfl⟩ := Option.map_eq_some_iff.mp h
    exact ⟨hlen, b, hb, rfl⟩

theorem Frame.follow_eq_some {frame frame' : Frame} {edge : KirEdge}
    (h : frame.follow edge = some frame') :
    ∃ b xs, frame.function.block? edge.target = some b ∧ frame.env.getAll edge.args = some xs ∧
      b.params.length = xs.length ∧
      frame' = ⟨frame.function, b, b.instructions,
        frame.env.setAll ((b.params.map (·.value)).zip xs)⟩ := by
  unfold Frame.follow at h
  obtain ⟨b, hb, h⟩ := Option.bind_eq_some_iff.mp h
  obtain ⟨xs, hxs, h⟩ := Option.bind_eq_some_iff.mp h
  split at h
  case isFalse => cases h
  case isTrue hlen => exact ⟨b, xs, hb, hxs, hlen, by simpa using h.symm⟩

theorem KirTerminator.taken_mem_edges {env : Env} {t : KirTerminator} {edge : KirEdge}
    (h : t.taken env = some edge) : edge ∈ t.edges := by
  cases t with
  | «return» => cases h
  | jump e => simpa [taken, edges, eq_comm] using h
  | branch condition thenEdge elseEdge =>
      obtain ⟨b, _, rfl⟩ := Option.map_eq_some_iff.mp h
      cases b <;> simp [edges]

namespace Activation

variable {t : TargetModel} {f : KirFunction} {past : List Moment} {frame : Frame}
variable {memory : Memory}

theorem function_eq (h : Activation t f past frame memory) : frame.function = f := by
  induction h with
  | enter h =>
      obtain ⟨_, b, _, rfl⟩ := KirFunction.enter_eq_some h
      rfl
  | execute _ _ _ ih => exact ih
  | call _ _ _ _ ih => exact ih
  | follow _ _ _ hfollow ih =>
      obtain ⟨b, xs, _, _, _, rfl⟩ := Frame.follow_eq_some hfollow
      exact ih

theorem block_mem (h : Activation t f past frame memory) : frame.block ∈ f.blocks := by
  induction h with
  | enter h =>
      obtain ⟨_, b, hb, rfl⟩ := KirFunction.enter_eq_some h
      exact List.mem_of_head? hb
  | execute _ _ _ ih => exact ih
  | call _ _ _ _ ih => exact ih
  | follow h _ _ hfollow _ =>
      obtain ⟨b, xs, hb, _, _, rfl⟩ := Frame.follow_eq_some hfollow
      exact h.function_eq ▸ (KirFunction.mem_blocks_of_block? hb).1

/-- What is still to run is a tail of the block. -/
theorem rest_suffix (h : Activation t f past frame memory) :
    frame.rest <:+ frame.block.instructions := by
  induction h with
  | enter h =>
      obtain ⟨_, b, _, rfl⟩ := KirFunction.enter_eq_some h
      exact List.suffix_refl _
  | execute _ hrest _ ih | call _ hrest _ _ ih =>
      exact (List.suffix_cons _ _).trans (hrest ▸ ih)
  | follow _ _ _ hfollow _ =>
      obtain ⟨b, xs, _, _, _, rfl⟩ := Frame.follow_eq_some hfollow
      exact List.suffix_refl _

theorem head_mem_instructions (h : Activation t f past frame memory) {i : KirInstruction}
    {rest : List KirInstruction} (hrest : frame.rest = i :: rest) :
    i ∈ frame.block.instructions :=
  h.rest_suffix.subset (hrest ▸ List.mem_cons_self)

/-- The newest moment holds the current environment. -/
theorem env_eq (h : Activation t f past frame memory) :
    ∃ event older, past = ⟨event, frame.env⟩ :: older := by
  cases h with
  | enter h => exact ⟨_, _, rfl⟩
  | execute _ _ _ => exact ⟨_, _, rfl⟩
  | call _ _ _ _ => exact ⟨_, _, rfl⟩
  | follow _ _ _ _ => exact ⟨_, _, rfl⟩

end Activation

/-! ## Running an activation without calls -/

structure ActivationState where
  past : List Moment
  frame : Frame
  memory : Memory

namespace ActivationState

def start (f : KirFunction) (args : List KirValue) (memory : Memory) : Option ActivationState :=
  (f.enter args).map fun frame ↦ ⟨[⟨.enter f, frame.env⟩], frame, memory⟩

def advance (t : TargetModel) (a : ActivationState) : Option ActivationState :=
  match a.frame.rest with
  | i :: rest =>
      match executeInstruction t a.frame.env a.memory i with
      | some (.next env memory _) =>
          some ⟨⟨.execute i, env⟩ :: a.past, { a.frame with rest := rest, env := env }, memory⟩
      | _ => none
  | [] =>
      (a.frame.block.terminator.taken a.frame.env).bind fun edge ↦
        (a.frame.follow edge).map fun frame ↦
          ⟨⟨.follow edge frame.block, frame.env⟩ :: a.past, frame, a.memory⟩

def runFor (t : TargetModel) : Nat → ActivationState → Option ActivationState
  | 0, a => some a
  | n + 1, a => (a.advance t).bind (runFor t n)

theorem start_activation {t : TargetModel} {f : KirFunction} {args : List KirValue}
    {memory : Memory} {a : ActivationState} (h : start f args memory = some a) :
    Activation t f a.past a.frame a.memory := by
  obtain ⟨frame, hframe, rfl⟩ := Option.map_eq_some_iff.mp h
  exact .enter hframe

theorem advance_activation {t : TargetModel} {f : KirFunction} {a a' : ActivationState}
    (h : Activation t f a.past a.frame a.memory) (hadvance : a.advance t = some a') :
    Activation t f a'.past a'.frame a'.memory := by
  unfold advance at hadvance
  split at hadvance
  · rename_i i rest hrest
    split at hadvance
    · rename_i env memory printed hi
      cases hadvance
      exact h.execute hrest hi
    · cases hadvance
  · rename_i hrest
    obtain ⟨edge, htaken, hadvance⟩ := Option.bind_eq_some_iff.mp hadvance
    obtain ⟨frame, hfollow, rfl⟩ := Option.map_eq_some_iff.mp hadvance
    exact h.follow hrest htaken hfollow

theorem runFor_activation {t : TargetModel} {f : KirFunction} {n : Nat} {a a' : ActivationState}
    (h : Activation t f a.past a.frame a.memory) (hrun : a.runFor t n = some a') :
    Activation t f a'.past a'.frame a'.memory := by
  induction n generalizing a with
  | zero =>
      obtain rfl : a = a' := by simpa [runFor] using hrun
      exact h
  | succ n ih =>
      obtain ⟨b, hb, hrun⟩ := Option.bind_eq_some_iff.mp hrun
      exact ih (advance_activation h hb) hrun

/-- Where a call is after some steps. -/
def after (t : TargetModel) (f : KirFunction) (args : List KirValue) (memory : Memory) (n : Nat) :
    Option ActivationState :=
  (start f args memory).bind (runFor t n)

theorem after_activation {t : TargetModel} {f : KirFunction} {args : List KirValue}
    {memory : Memory} {n : Nat} {a : ActivationState} (h : after t f args memory n = some a) :
    Activation t f a.past a.frame a.memory := by
  obtain ⟨b, hb, hrun⟩ := Option.bind_eq_some_iff.mp h
  exact runFor_activation (start_activation hb) hrun

end ActivationState

/-- A caller stopped at a call instruction of its own activation. -/
def Caller.Waits (t : TargetModel) (caller : Caller) : Prop :=
  ∃ past memory i name args,
    Activation t caller.frame.function past
      { caller.frame with rest := i :: caller.frame.rest } memory ∧
    i.kind = .call name args ∧ i.results = caller.results

/-- Every frame of the state belongs to an activation of its function. -/
structure State.Active (t : TargetModel) (s : State) : Prop where
  frame : ∃ past, Activation t s.frame.function past s.frame s.memory
  callers : ∀ caller ∈ s.callers, caller.Waits t

/-- A terminator other than a return follows the edge it takes. -/
theorem stepTerminator_follow {s : State}
    (h : ∀ v memory effectOrder, s.frame.block.terminator ≠ .return v memory effectOrder) :
    stepTerminator s =
      match (s.frame.block.terminator.taken s.frame.env).bind s.frame.follow with
      | some frame => .next { s with frame := frame }
      | none => .stuck := by
  unfold stepTerminator
  cases hterminator : s.frame.block.terminator with
  | «return» v memory effectOrder => exact absurd hterminator (h v memory effectOrder)
  | jump | branch => rfl

section Machine

variable {t : TargetModel} {m : KirModule} {s s' : State}

theorem start_active {name : String} {args : List KirValue} {memory : Memory}
    (h : m.start name args memory = some s) : s.Active t := by
  obtain ⟨frame, hframe, rfl⟩ := Option.map_eq_some_iff.mp h
  obtain ⟨f, _, henter⟩ := Option.bind_eq_some_iff.mp hframe
  have hactive : Activation t f [⟨.enter f, frame.env⟩] frame memory := .enter henter
  exact ⟨⟨_, hactive.function_eq.symm ▸ hactive⟩, by simp⟩

theorem resume_active {value : Option KirValue} (hs : ∀ caller ∈ s.callers, caller.Waits t)
    (h : resume s value = .next s') : s'.Active t := by
  unfold resume at h
  split at h
  · cases h
  · rename_i caller callers hcallers
    rw [hcallers] at hs
    obtain ⟨past, memory, i, name, args, hact, hkind, hresults⟩ := hs caller List.mem_cons_self
    split at h
    · rename_i env hbind
      cases h
      have hact' := @Activation.call t _ _ _ _ s.memory _ _ _ _ _ _ hact rfl hkind
        (hresults ▸ hbind)
      refine ⟨⟨_, hact'⟩, ?_⟩
      exact fun c hc ↦ hs c (List.mem_cons_of_mem _ hc)
    · cases h

theorem stepTerminator_active (hs : s.Active t) (hrest : s.frame.rest = [])
    (h : stepTerminator s = .next s') : s'.Active t := by
  unfold stepTerminator at h
  split at h
  · split at h
    · exact resume_active hs.callers h
    · cases h
  · split at h
    · rename_i frame' hframe
      cases h
      obtain ⟨edge, htaken, hfollow⟩ := Option.bind_eq_some_iff.mp hframe
      obtain ⟨past, hact⟩ := hs.frame
      have hact' := hact.follow hrest htaken hfollow
      exact ⟨⟨_, hact'.function_eq.symm ▸ hact'⟩, hs.callers⟩
    · cases h

theorem stepInstruction_active {i : KirInstruction} {rest : List KirInstruction}
    (hs : s.Active t) (hrest : s.frame.rest = i :: rest)
    (h : stepInstruction t m s i rest = .next s') : s'.Active t := by
  obtain ⟨past, hact⟩ := hs.frame
  unfold stepInstruction at h
  split at h
  · rename_i name args hkind
    split at h
    · rename_i callee hcallee
      cases h
      obtain ⟨f, _, hcallee⟩ := Option.bind_eq_some_iff.mp hcallee
      obtain ⟨xs, _, henter⟩ := Option.bind_eq_some_iff.mp hcallee
      have hcalleeActive : Activation t f [⟨.enter f, callee.env⟩] callee s.memory :=
        .enter henter
      refine ⟨⟨_, hcalleeActive.function_eq.symm ▸ hcalleeActive⟩, ?_⟩
      intro caller hcaller
      rcases List.mem_cons.mp hcaller with rfl | hcaller
      · exact ⟨past, s.memory, i, name, args, hrest ▸ hact, hkind, rfl⟩
      · exact hs.callers caller hcaller
    · cases h
  · split at h
    · rename_i env memory printed hi
      cases h
      exact ⟨⟨_, hact.execute hrest hi⟩, hs.callers⟩
    · cases h
    · cases h

theorem step_active (hs : s.Active t) (h : step t m s = .next s') : s'.Active t := by
  unfold step at h
  split at h
  · rename_i hrest
    exact stepTerminator_active hs hrest h
  · rename_i i rest hrest
    exact stepInstruction_active hs hrest h

/-- Every frame of a reachable machine state is the end of an activation. -/
theorem reaches_active {start : State} {name : String} {args : List KirValue} {memory : Memory}
    (hstart : m.start name args memory = some start) (h : (kirMachine t m).Reaches start s) :
    s.Active t :=
  h.invariant (start_active hstart) fun _ _ _ hs hstep ↦ step_active hs hstep

end Machine

end CalcKernel
