import CalcKernel.Kir.Evaluation
import CalcKernel.Kir.Operands
import CalcKernel.Lib.Search

/-!
# Dead block parameters

Block parameters that nothing roots are removed along with their arguments.  A pruned
module runs in step with the original: the same blocks, instructions and memory, and the
same values for everything live.
-/

namespace CalcKernel

open Lib

namespace KirFunction

variable (f : KirFunction)

def edges : List KirEdge := f.blocks.flatMap (·.terminator.edges)

/-- The parameters of the target of an edge with their arguments. -/
def bound (edge : KirEdge) : List (ValueId × ValueId) :=
  match f.block? edge.target with
  | some target => (target.params.map (·.value)).zip edge.args
  | none => []

/-- The arguments that come in for a parameter. -/
def incoming (v : ValueId) : List ValueId :=
  f.edges.flatMap fun edge ↦ ((f.bound edge).filter (·.1 = v)).map (·.2)

def edgeFits (edge : KirEdge) : Bool :=
  match f.block? edge.target with
  | some target => edge.args.length = target.params.length
  | none => false

/-- What is live for other reasons than an argument. -/
def liveRoots (protected_ : List ValueId) : List ValueId :=
  protected_ ++
  f.regions.flatMap (fun region ↦ region.origin.value?.toList ++
    match region.byteInterval with
    | some interval => [interval.start, interval.stop]
    | none => []) ++
  f.blocks.flatMap fun b ↦ b.instructions.flatMap (·.uses) ++
    match b.terminator with
    | .return v _ _ => v.toList
    | .branch condition _ _ => [condition]
    | .jump _ => []

/-- The live values, unless blocks or edges do not fit together. -/
def liveValues (protected_ : List ValueId) : Option (List ValueId) :=
  if f.blockIds.Nodup ∧ f.edges.all f.edgeFits then
    search (fun v ↦ some (f.incoming v))
      ((f.liveRoots protected_).length + ((f.edges.flatMap f.bound).map fun p ↦
        (f.incoming p.1).length).sum) (f.liveRoots protected_)
  else none

end KirFunction

def KirBlock.keptParams (b : KirBlock) (live : List ValueId) : List KirBlockParam :=
  b.params.filter (·.value ∈ live)

/-- The edge without the arguments of dead parameters. -/
def KirEdge.prune (f : KirFunction) (live : List ValueId) (edge : KirEdge) : KirEdge :=
  match f.block? edge.target with
  | none => edge
  | some target =>
      if target.params.all (·.value ∈ live) then edge
      else { edge with args := ((f.bound edge).filter (·.1 ∈ live)).map (·.2) }

def KirTerminator.prune (f : KirFunction) (live : List ValueId) : KirTerminator → KirTerminator
  | .return v memory effectOrder => .return v memory effectOrder
  | .jump edge => .jump (edge.prune f live)
  | .branch condition thenEdge elseEdge =>
      .branch condition (thenEdge.prune f live) (elseEdge.prune f live)

def KirBlock.prune (f : KirFunction) (live : List ValueId) (b : KirBlock) : KirBlock :=
  { b with params := b.keptParams live, terminator := b.terminator.prune f live }

def removeDeadBlockParameters (f : KirFunction) (protected_ : List ValueId) : Bool × KirFunction :=
  match f.liveValues protected_ with
  | none => (false, f)
  | some live =>
      if f.blocks.all fun b ↦ b.params.all (·.value ∈ live) then (false, f)
      else (true, { f with blocks := f.blocks.map (·.prune f live) })

/-! ## What is live -/

namespace KirFunction

variable {f : KirFunction} {protected_ live : List ValueId} {b : KirBlock} {edge : KirEdge}

/-- The value is live, or nothing is removed from the function. -/
def LiveIn (f : KirFunction) (protected_ : List ValueId) (v : ValueId) : Prop :=
  ∀ live, f.liveValues protected_ = some live → v ∈ live

theorem mem_edges (hb : b ∈ f.blocks) (hedge : edge ∈ b.terminator.edges) : edge ∈ f.edges :=
  List.mem_flatMap.mpr ⟨b, hb, hedge⟩

theorem mem_incoming {v a : ValueId} :
    a ∈ f.incoming v ↔ ∃ edge ∈ f.edges, (v, a) ∈ f.bound edge := by
  unfold incoming
  simp only [List.mem_flatMap, List.mem_map, List.mem_filter, decide_eq_true_eq]
  constructor
  · rintro ⟨edge, hedge, ⟨w, a⟩, ⟨hmem, rfl⟩, rfl⟩
    exact ⟨edge, hedge, hmem⟩
  · rintro ⟨edge, hedge, hmem⟩
    exact ⟨edge, hedge, (v, a), ⟨hmem, rfl⟩, rfl⟩

/-- The live values are the roots and what comes in for live parameters. -/
theorem mem_liveValues (h : f.liveValues protected_ = some live) :
    (∀ edge ∈ f.edges, f.edgeFits edge = true) ∧ (∀ v ∈ f.liveRoots protected_, v ∈ live) ∧
      ∀ v ∈ live, ∀ a ∈ f.incoming v, a ∈ live := by
  unfold liveValues at h
  split at h
  case isFalse => cases h
  rename_i hfits
  obtain ⟨hroots, hclosed⟩ := search_closed h
  refine ⟨List.all_eq_true.mp hfits.2, hroots, fun v hv a ha ↦ ?_⟩
  obtain ⟨new, hnew, hall⟩ := hclosed v hv
  cases hnew
  exact hall a ha

/-- The values are found whenever blocks and edges fit together. -/
theorem liveValues_returns (hblocks : f.blockIds.Nodup)
    (hedges : ∀ edge ∈ f.edges, f.edgeFits edge = true) (protected_ : List ValueId) :
    ∃ live, f.liveValues protected_ = some live := by
  unfold liveValues
  rw [if_pos ⟨hblocks, List.all_eq_true.mpr hedges⟩]
  obtain ⟨live, hlive, -⟩ := @search_returns ValueId _ (f.liveRoots protected_) _ f.incoming
    ((f.edges.flatMap f.bound).map (·.1)) (fun v hv ↦ by
      refine List.eq_nil_iff_forall_not_mem.mpr fun a ha ↦ hv ?_
      obtain ⟨edge, hedge, hmem⟩ := mem_incoming.mp ha
      exact List.mem_map.mpr ⟨(v, a), List.mem_flatMap.mpr ⟨edge, hedge, hmem⟩, rfl⟩)
    (by rw [List.map_map])
  exact ⟨live, hlive⟩

theorem liveIn_root {v : ValueId} (h : v ∈ f.liveRoots protected_) : f.LiveIn protected_ v :=
  fun _ hlive ↦ (mem_liveValues hlive).2.1 v h

theorem liveIn_protected {v : ValueId} (h : v ∈ protected_) : f.LiveIn protected_ v :=
  liveIn_root (List.mem_append_left _ (List.mem_append_left _ h))

theorem liveIn_use (hb : b ∈ f.blocks) {i : KirInstruction} (hi : i ∈ b.instructions)
    {v : ValueId} (hv : v ∈ i.uses) : f.LiveIn protected_ v :=
  liveIn_root (List.mem_append_right _ (List.mem_flatMap.mpr
    ⟨b, hb, List.mem_append_left _ (List.mem_flatMap.mpr ⟨i, hi, hv⟩)⟩))

theorem liveIn_return (hb : b ∈ f.blocks) {v : ValueId}
    {memory : List (MemoryRegionId × MemoryVersionId)} {effectOrder : Nat}
    (h : b.terminator = .return (some v) memory effectOrder) : f.LiveIn protected_ v := by
  refine liveIn_root (List.mem_append_right _ (List.mem_flatMap.mpr
    ⟨b, hb, List.mem_append_right _ ?_⟩))
  rw [h]
  exact List.mem_singleton_self v

theorem liveIn_condition (hb : b ∈ f.blocks) {v : ValueId} {thenEdge elseEdge : KirEdge}
    (h : b.terminator = .branch v thenEdge elseEdge) : f.LiveIn protected_ v := by
  refine liveIn_root (List.mem_append_right _ (List.mem_flatMap.mpr
    ⟨b, hb, List.mem_append_right _ ?_⟩))
  rw [h]
  exact List.mem_singleton_self v

theorem liveIn_argument (hb : b ∈ f.blocks) (hedge : edge ∈ b.terminator.edges)
    {v a : ValueId} (hbound : (v, a) ∈ f.bound edge) (hv : f.LiveIn protected_ v) :
    f.LiveIn protected_ a := fun live hlive ↦
  (mem_liveValues hlive).2.2 v (hv live hlive) a
    (mem_incoming.mpr ⟨edge, mem_edges hb hedge, hbound⟩)

end KirFunction

/-! ## The pruned module -/

namespace KirFunction

variable {f : KirFunction} {protected_ live : List ValueId} {b : KirBlock} {edge : KirEdge}

def pruned (f : KirFunction) (protected_ : List ValueId) : KirFunction :=
  (removeDeadBlockParameters f protected_).2

def prunedBlock (f : KirFunction) (protected_ : List ValueId) (b : KirBlock) : KirBlock :=
  match f.liveValues protected_ with
  | none => b
  | some live => b.prune f live

def prunedEdge (f : KirFunction) (protected_ : List ValueId) (edge : KirEdge) : KirEdge :=
  match f.liveValues protected_ with
  | none => edge
  | some live => edge.prune f live

theorem prune_of_all_live (hall : ∀ b ∈ f.blocks, b.params.all (·.value ∈ live) = true)
    (hb : b ∈ f.blocks) : b.prune f live = b := by
  have hedge : ∀ edge : KirEdge, edge.prune f live = edge := by
    intro edge
    unfold KirEdge.prune
    cases htarget : f.block? edge.target with
    | none => rfl
    | some target => exact if_pos (hall target (mem_blocks_of_block? htarget).1)
  have hterminator : b.terminator.prune f live = b.terminator := by
    cases b.terminator <;> simp only [KirTerminator.prune, hedge]
  have hparams : b.keptParams live = b.params :=
    List.filter_eq_self.mpr (List.all_eq_true.mp (hall b hb))
  rw [KirBlock.prune, hterminator, hparams]

theorem pruned_eq :
    f.pruned protected_ = { f with blocks := f.blocks.map (f.prunedBlock protected_) } := by
  have hself : ∀ g : KirBlock → KirBlock, (∀ b ∈ f.blocks, g b = b) →
      f = { f with blocks := f.blocks.map g } := by
    intro g hg
    rw [List.map_congr_left hg, List.map_id']
  unfold pruned removeDeadBlockParameters prunedBlock
  cases f.liveValues protected_ with
  | none => exact hself _ fun b _ ↦ rfl
  | some live =>
      dsimp only
      split
      · rename_i hall
        exact hself _ fun b hb ↦ prune_of_all_live (List.all_eq_true.mp hall) hb
      · rfl

@[simp] theorem prunedBlock_id : (f.prunedBlock protected_ b).id = b.id := by
  unfold prunedBlock
  split <;> rfl

@[simp] theorem prunedBlock_instructions :
    (f.prunedBlock protected_ b).instructions = b.instructions := by
  unfold prunedBlock
  split <;> rfl

theorem pruned_block? (id : BlockId) :
    (f.pruned protected_).block? id = (f.block? id).map (f.prunedBlock protected_) := by
  have hsame : (fun b : KirBlock ↦ decide (b.id = id)) ∘ f.prunedBlock protected_ =
      fun b ↦ decide (b.id = id) := by
    funext b
    rw [Function.comp_apply, prunedBlock_id]
  rw [pruned_eq, block?, block?, List.find?_map, hsame]

theorem prunedEdge_target : (f.prunedEdge protected_ edge).target = edge.target := by
  unfold prunedEdge
  cases f.liveValues protected_ with
  | none => rfl
  | some live =>
      dsimp only
      unfold KirEdge.prune
      split
      · rfl
      · split <;> rfl

theorem prunedBlock_taken (env : Env) :
    (f.prunedBlock protected_ b).terminator.taken env =
      (b.terminator.taken env).map (f.prunedEdge protected_) := by
  unfold prunedBlock prunedEdge
  cases f.liveValues protected_ with
  | none => simp
  | some live =>
      dsimp only [KirBlock.prune]
      cases b.terminator with
      | «return» v memory effectOrder => rfl
      | jump edge => rfl
      | branch condition thenEdge elseEdge =>
          simp only [KirTerminator.prune, KirTerminator.taken, Option.map_map]
          congr 1
          funext c
          cases c <;> rfl

end KirFunction

/-! ## Runs in step -/

/-- Binding only what is live keeps the agreement on it. -/
theorem Env.Agree.setAll_filter {live : List ValueId} {env env' : Env}
    (h : Env.Agree (· ∈ live) env env') (l : List (ValueId × KirValue)) :
    Env.Agree (· ∈ live) (env.setAll l) (env'.setAll (l.filter (·.1 ∈ live))) := by
  induction l generalizing env env' with
  | nil => exact h
  | cons p l ih =>
      rw [List.filter_cons]
      by_cases hp : p.1 ∈ live
      · rw [if_pos (decide_eq_true hp)]
        exact ih (h.set p.1 p.2)
      · rw [if_neg (by simpa using hp)]
        refine ih fun v hv ↦ ?_
        have hne : v ≠ p.1 := fun heq ↦ hp (heq ▸ hv)
        rw [Env.set_of_ne env hne]
        exact h v hv

/-- The arguments of live parameters have the values they had among all arguments. -/
theorem Env.getAll_filter {live : List ValueId} {env env' : Env} {params args : List ValueId}
    {xs : List KirValue} (hagree : ∀ p ∈ params.zip args, p.1 ∈ live → env p.2 = env' p.2)
    (hxs : env.getAll args = some xs) (hlength : args.length = params.length) :
    env'.getAll (((params.zip args).filter (·.1 ∈ live)).map (·.2)) =
      some (((params.zip xs).filter (·.1 ∈ live)).map (·.2)) := by
  induction params generalizing args xs with
  | nil => rfl
  | cons v params ih =>
      cases args with
      | nil => cases hlength
      | cons a args =>
          obtain ⟨x, hx, hxs⟩ := Option.bind_eq_some_iff.mp hxs
          obtain ⟨rest, hrest, rfl⟩ := Option.map_eq_some_iff.mp hxs
          have htail := ih (fun p hp ↦ hagree p (List.mem_cons_of_mem _ hp)) hrest
            (Nat.succ.inj hlength)
          rw [List.zip_cons_cons, List.zip_cons_cons, List.filter_cons, List.filter_cons]
          by_cases hv : v ∈ live
          · rw [if_pos (decide_eq_true hv), if_pos (decide_eq_true hv), List.map_cons,
              List.map_cons, Env.getAll, ← hagree (v, a) List.mem_cons_self hv, hx,
              Option.bind_some, htail]
            rfl
          · rw [if_neg (by simpa using hv), if_neg (by simpa using hv)]
            exact htail

theorem zip_filter_map {live : List ValueId} {params : List KirBlockParam} {xs : List KirValue}
    (hlength : params.length = xs.length) :
    ((params.filter (·.value ∈ live)).map (·.value)).zip
        ((((params.map (·.value)).zip xs).filter (·.1 ∈ live)).map (·.2)) =
      ((params.map (·.value)).zip xs).filter (·.1 ∈ live) := by
  induction params generalizing xs with
  | nil => rfl
  | cons p params ih =>
      cases xs with
      | nil => cases hlength
      | cons x xs =>
          have htail := ih (Nat.succ.inj hlength)
          rw [List.map_cons, List.zip_cons_cons, List.filter_cons, List.filter_cons]
          by_cases hp : p.value ∈ live
          · rw [if_pos (decide_eq_true hp), if_pos (decide_eq_true hp), List.map_cons,
              List.map_cons, List.zip_cons_cons, htail]
          · rw [if_neg (by simpa using hp), if_neg (by simpa using hp)]
            exact htail

theorem length_filter_map {live : List ValueId} {params : List KirBlockParam} {xs : List KirValue}
    (hlength : params.length = xs.length) :
    (params.filter (·.value ∈ live)).length =
      ((((params.map (·.value)).zip xs).filter (·.1 ∈ live)).map (·.2)).length := by
  induction params generalizing xs with
  | nil => rfl
  | cons p params ih =>
      cases xs with
      | nil => cases hlength
      | cons x xs =>
          have htail := ih (Nat.succ.inj hlength)
          rw [List.map_cons, List.zip_cons_cons, List.filter_cons, List.filter_cons]
          by_cases hp : p.value ∈ live
          · rw [if_pos (decide_eq_true hp), if_pos (decide_eq_true hp), List.map_cons,
              List.length_cons, List.length_cons, htail]
          · rw [if_neg (by simpa using hp), if_neg (by simpa using hp)]
            exact htail

/-- A frame of the pruned module beside the one of the original. -/
structure FramePruned (protected_ : List ValueId) (F F' : Frame) : Prop where
  block_mem : F.block ∈ F.function.blocks
  rest_mem : ∀ i ∈ F.rest, i ∈ F.block.instructions
  function : F'.function = F.function.pruned protected_
  block : F'.block = F.function.prunedBlock protected_ F.block
  rest : F'.rest = F.rest
  agree : Env.Agree (F.function.LiveIn protected_) F.env F'.env

namespace FramePruned

variable {protected_ : List ValueId} {F F' G : Frame} {edge : KirEdge}

theorem liveIn_iff {f : KirFunction} {live : List ValueId}
    (hlive : f.liveValues protected_ = some live) {v : ValueId} :
    f.LiveIn protected_ v ↔ v ∈ live := by
  refine ⟨fun h ↦ h live hlive, fun h live' hlive' ↦ ?_⟩
  obtain rfl := Option.some.inj (hlive.symm.trans hlive')
  exact h

/-- The arguments of the pruned edge go with the parameters of the pruned block. -/
theorem prune_follow {f : KirFunction} {live : List ValueId} {b : KirBlock} {xs : List KirValue}
    {env env' : Env} (hb : f.block? edge.target = some b) (hxs : env.getAll edge.args = some xs)
    (hlength : b.params.length = xs.length) (hagree : Env.Agree (· ∈ live) env env')
    (hbound : ∀ p ∈ f.bound edge, p.1 ∈ live → p.2 ∈ live) :
    ∃ ys, env'.getAll (edge.prune f live).args = some ys ∧
      (b.keptParams live).length = ys.length ∧
      Env.Agree (· ∈ live) (env.setAll ((b.params.map (·.value)).zip xs))
        (env'.setAll (((b.keptParams live).map (·.value)).zip ys)) := by
  have hargs : edge.args.length = (b.params.map (·.value)).length := by
    rw [List.length_map, hlength, Env.getAll_length hxs]
  have hzip : f.bound edge = (b.params.map (·.value)).zip edge.args := by
    rw [KirFunction.bound, hb]
  have hkept : env'.getAll (((f.bound edge).filter (·.1 ∈ live)).map (·.2)) =
      some ((((b.params.map (·.value)).zip xs).filter (·.1 ∈ live)).map (·.2)) := by
    rw [hzip]
    refine Env.getAll_filter (fun p hp hlive ↦ hagree p.2 (hbound p ?_ hlive)) hxs hargs
    rwa [hzip]
  have hsame : (edge.prune f live).args = ((f.bound edge).filter (·.1 ∈ live)).map (·.2) := by
    rw [KirEdge.prune, hb]
    dsimp only
    split
    · rename_i hall
      have hfilter : (f.bound edge).filter (·.1 ∈ live) = f.bound edge := by
        refine List.filter_eq_self.mpr fun p hp ↦ ?_
        rw [hzip] at hp
        obtain ⟨q, hq, heq⟩ := List.mem_map.mp (List.of_mem_zip hp).1
        exact heq ▸ List.all_eq_true.mp hall q hq
      rw [hfilter, hzip, List.map_snd_zip hargs.le]
    · rfl
  refine ⟨_, hsame ▸ hkept, length_filter_map hlength, ?_⟩
  rw [KirBlock.keptParams, zip_filter_map hlength]
  exact hagree.setAll_filter _

/-- Following an edge, and what is left of it. -/
theorem follow (h : FramePruned protected_ F F') (hedge : edge ∈ F.block.terminator.edges)
    (hfollow : F.follow edge = some G) :
    ∃ G', F'.follow (F.function.prunedEdge protected_ edge) = some G' ∧
      FramePruned protected_ G G' := by
  obtain ⟨f, block, rest, env⟩ := F
  obtain ⟨f', block', rest', env'⟩ := F'
  obtain ⟨hblock, -, rfl, -, -, hagree⟩ := h
  obtain ⟨b, xs, hb, hxs, hlength, rfl⟩ := Frame.follow_eq_some hfollow
  have hmem := (KirFunction.mem_blocks_of_block? hb).1
  have hbind : ∃ ys, env'.getAll (f.prunedEdge protected_ edge).args = some ys ∧
      (f.prunedBlock protected_ b).params.length = ys.length ∧
      Env.Agree (f.LiveIn protected_) (env.setAll ((b.params.map (·.value)).zip xs))
        (env'.setAll (((f.prunedBlock protected_ b).params.map (·.value)).zip ys)) := by
    unfold KirFunction.prunedEdge KirFunction.prunedBlock
    cases hlive : f.liveValues protected_ with
    | none =>
        have hall : ∀ v, f.LiveIn protected_ v := fun v live h ↦ by rw [hlive] at h; cases h
        refine ⟨xs, ?_, hlength, hagree.setAll _⟩
        rw [← hxs]
        exact (Env.getAll_congr fun v _ ↦ hagree v (hall v)).symm
    | some live =>
        have hlist : ∀ {e e' : Env}, Env.Agree (f.LiveIn protected_) e e' ↔
            Env.Agree (· ∈ live) e e' :=
          forall_congr' fun v ↦ imp_congr_left (liveIn_iff hlive)
        obtain ⟨ys, hys, hcount, hagree'⟩ := prune_follow hb hxs hlength (hlist.mp hagree)
          fun p hp hv ↦ (liveIn_iff hlive).mp
            (KirFunction.liveIn_argument hblock hedge hp ((liveIn_iff hlive).mpr hv))
        exact ⟨ys, hys, hcount, hlist.mpr hagree'⟩
  obtain ⟨ys, hys, hcount, hagree'⟩ := hbind
  refine ⟨⟨f.pruned protected_, f.prunedBlock protected_ b, b.instructions, _⟩, ?_,
    ⟨hmem, fun i hi ↦ hi, rfl, rfl, rfl, hagree'⟩⟩
  rw [Frame.follow, KirFunction.prunedEdge_target, KirFunction.pruned_block?, hb, Option.map_some,
    Option.bind_some, hys, Option.bind_some, if_pos hcount, KirFunction.prunedBlock_instructions]

/-- Entering a function and its pruned form. -/
theorem enter {f : KirFunction} {args : List KirValue} {G : Frame} (h : f.enter args = some G) :
    ∃ G', (f.pruned protected_).enter args = some G' ∧ FramePruned protected_ G G' := by
  obtain ⟨hlength, b, hb, rfl⟩ := KirFunction.enter_eq_some h
  refine ⟨⟨f.pruned protected_, f.prunedBlock protected_ b, b.instructions, _⟩, ?_,
    ⟨List.mem_of_mem_head? hb, fun i hi ↦ hi, rfl, rfl, rfl, fun v _ ↦ rfl⟩⟩
  rw [KirFunction.pruned_eq, KirFunction.enter, if_pos hlength, List.head?_map, hb, Option.map_some,
    Option.map_some, KirFunction.prunedBlock_instructions]

end FramePruned

def KirModule.pruned (m : KirModule) (protected_ : List ValueId) : KirModule :=
  { m with functions := m.functions.map (·.pruned protected_) }

theorem KirModule.pruned_function? (m : KirModule) (protected_ : List ValueId) (name : String) :
    (m.pruned protected_).function? name = (m.function? name).map (·.pruned protected_) := by
  have hsame : (fun f : KirFunction ↦ decide (f.name = name)) ∘ (KirFunction.pruned · protected_) =
      fun f ↦ decide (f.name = name) := by
    funext f
    rw [Function.comp_apply, KirFunction.pruned_eq]
  rw [KirModule.pruned, KirModule.function?, KirModule.function?, List.find?_map, hsame]

/-- A state of the pruned module beside the one of the original. -/
structure StatePruned (protected_ : List ValueId) (s s' : State) : Prop where
  frame : FramePruned protected_ s.frame s'.frame
  callers : List.Forall₂ (fun c c' ↦ FramePruned protected_ c.frame c'.frame ∧
    c'.results = c.results) s.callers s'.callers
  memory : s'.memory = s.memory
  printed : s'.printed = s.printed

/-- What the pruned module does where the original does something. -/
inductive MovePruned (protected_ : List ValueId) : Move State Outcome → Move State Outcome → Prop
  | next {s s' : State} (h : StatePruned protected_ s s') :
      MovePruned protected_ (.next s) (.next s')
  | halt (o : Outcome) : MovePruned protected_ (.halt o) (.halt o)
  | stuck (move : Move State Outcome) : MovePruned protected_ .stuck move

namespace StatePruned

variable {protected_ : List ValueId} {s s' : State} {t : TargetModel} {m : KirModule}

theorem resume (h : StatePruned protected_ s s') (value : Option KirValue) :
    MovePruned protected_ (CalcKernel.resume s value) (CalcKernel.resume s' value) := by
  obtain ⟨frame, callers, memory, printed⟩ := s
  obtain ⟨frame', callers', memory', printed'⟩ := s'
  obtain ⟨-, hcallers, rfl, rfl⟩ := h
  unfold CalcKernel.resume
  cases hcallers with
  | nil => exact .halt _
  | @cons c c' callers callers' hc hcallers =>
      obtain ⟨hframe, hresults⟩ := hc
      dsimp only
      cases hbind : c.frame.env.bindResults c.results value.toList with
      | none => exact .stuck _
      | some env =>
          obtain ⟨env', henv', hagree⟩ := hframe.agree.bindResults hbind
          rw [hresults, henv']
          exact .next ⟨{ hframe with agree := hagree }, hcallers, rfl, rfl⟩

/-- Where a terminator takes an edge the pruned one takes what is left of it. -/
theorem takeEdge (h : StatePruned protected_ s s')
    (hedges : ∀ v memory effectOrder,
      s.frame.block.terminator ≠ .return v memory effectOrder)
    (htaken : s.frame.block.terminator.taken s.frame.env =
      s.frame.block.terminator.taken s'.frame.env) :
    MovePruned protected_ (CalcKernel.stepTerminator s) (CalcKernel.stepTerminator s') := by
  have hframe := h.frame
  have hedges' : ∀ v memory effectOrder,
      s'.frame.block.terminator ≠ .return v memory effectOrder := by
    intro v memory effectOrder heq
    rw [hframe.block] at heq
    unfold KirFunction.prunedBlock at heq
    split at heq
    · exact hedges v memory effectOrder heq
    · cases hterminator : s.frame.block.terminator with
      | «return» v memory effectOrder => exact hedges v memory effectOrder hterminator
      | jump | branch =>
          rw [KirBlock.prune, hterminator] at heq
          cases heq
  rw [stepTerminator_follow hedges, stepTerminator_follow hedges', hframe.block,
    KirFunction.prunedBlock_taken, ← htaken]
  cases hedge : s.frame.block.terminator.taken s.frame.env with
  | none => exact .stuck _
  | some edge =>
      rw [Option.map_some, Option.bind_some, Option.bind_some]
      cases hfollow : s.frame.follow edge with
      | none => exact .stuck _
      | some G =>
          obtain ⟨G', hG', hpruned⟩ :=
            hframe.follow (KirTerminator.taken_mem_edges hedge) hfollow
          rw [hG']
          exact .next ⟨hpruned, h.callers, h.memory, h.printed⟩

theorem stepTerminator (h : StatePruned protected_ s s') :
    MovePruned protected_ (CalcKernel.stepTerminator s) (CalcKernel.stepTerminator s') := by
  have hframe := h.frame
  have hmem := hframe.block_mem
  cases hterminator : s.frame.block.terminator with
  | «return» v memory effectOrder =>
      have hreturn : s'.frame.block.terminator = .return v memory effectOrder := by
        rw [hframe.block]
        unfold KirFunction.prunedBlock
        split
        · exact hterminator
        · rw [KirBlock.prune, hterminator]
          rfl
      have hvalue : returnValue s.frame.env v = returnValue s'.frame.env v := by
        cases v with
        | none => rfl
        | some v =>
            rw [returnValue, returnValue,
              hframe.agree v (KirFunction.liveIn_return hmem hterminator)]
      unfold CalcKernel.stepTerminator
      rw [hterminator, hreturn]
      dsimp only
      rw [← hvalue]
      cases returnValue s.frame.env v with
      | none => exact .stuck _
      | some v => exact h.resume v
  | jump edge =>
      refine h.takeEdge (fun _ _ _ heq ↦ ?_) ?_
      · rw [hterminator] at heq
        cases heq
      · rw [hterminator, KirTerminator.taken, KirTerminator.taken]
  | branch condition thenEdge elseEdge =>
      refine h.takeEdge (fun _ _ _ heq ↦ ?_) ?_
      · rw [hterminator] at heq
        cases heq
      · rw [hterminator, KirTerminator.taken, KirTerminator.taken,
          boolOperand_congr (hframe.agree _ (KirFunction.liveIn_condition hmem hterminator))]

/-- An instruction other than a call, on both sides. -/
theorem execute (h : StatePruned protected_ s s') {i : KirInstruction} {rest : List KirInstruction}
    (hlive : ∀ v ∈ i.uses, s.frame.function.LiveIn protected_ v)
    (hnext : ∀ {env env' : Env}, Env.Agree (s.frame.function.LiveIn protected_) env env' →
      FramePruned protected_ { s.frame with rest := rest, env := env }
        { s'.frame with rest := rest, env := env' }) :
    MovePruned protected_
      (match executeInstruction t s.frame.env s.memory i with
      | some (.next env memory printed) => .next { s with
          frame := { s.frame with rest := rest, env := env }
          memory := memory
          printed := s.printed ++ printed }
      | some (.fail failure) => .halt (.failed failure s.memory s.printed)
      | none => .stuck)
      (match executeInstruction t s'.frame.env s'.memory i with
      | some (.next env memory printed) => .next { s' with
          frame := { s'.frame with rest := rest, env := env }
          memory := memory
          printed := s'.printed ++ printed }
      | some (.fail failure) => .halt (.failed failure s'.memory s'.printed)
      | none => .stuck) := by
  rw [h.memory, h.printed]
  cases hi : executeInstruction t s.frame.env s.memory i with
  | none => exact .stuck _
  | some o =>
      obtain ⟨o', ho', houtcomes⟩ := h.frame.agree.execute hlive hi
      rw [ho']
      cases houtcomes with
      | next hagree memory printed => exact .next ⟨hnext hagree, h.callers, rfl, rfl⟩
      | fail failure => exact .halt _

theorem stepInstruction (h : StatePruned protected_ s s') {i : KirInstruction}
    {rest : List KirInstruction} (hrest : s.frame.rest = i :: rest) :
    MovePruned protected_ (CalcKernel.stepInstruction t m s i rest)
      (CalcKernel.stepInstruction t (m.pruned protected_) s' i rest) := by
  have hframe := h.frame
  have hmem : i ∈ s.frame.block.instructions :=
    hframe.rest_mem i (hrest ▸ List.mem_cons_self)
  have hlive : ∀ v ∈ i.uses, s.frame.function.LiveIn protected_ v := fun v hv ↦
    KirFunction.liveIn_use hframe.block_mem hmem hv
  have hnext : ∀ {env env' : Env}, Env.Agree (s.frame.function.LiveIn protected_) env env' →
      FramePruned protected_ { s.frame with rest := rest, env := env }
        { s'.frame with rest := rest, env := env' } := fun hagree ↦
    ⟨hframe.block_mem, fun j hj ↦ hframe.rest_mem j (hrest ▸ List.mem_cons_of_mem _ hj),
      hframe.function, hframe.block, rfl, hagree⟩
  unfold CalcKernel.stepInstruction
  cases hkind : i.kind with
  | call name args =>
      have hargs : s.frame.env.getAll args = s'.frame.env.getAll args :=
        Env.getAll_congr fun v hv ↦ hframe.agree v (hlive v (by rwa [KirInstruction.uses, hkind]))
      dsimp only
      rw [KirModule.pruned_function?, ← hargs]
      cases m.function? name with
      | none => exact .stuck _
      | some f =>
          rw [Option.map_some, Option.bind_some, Option.bind_some]
          cases s.frame.env.getAll args with
          | none => exact .stuck _
          | some xs =>
              rw [Option.bind_some, Option.bind_some]
              cases henter : f.enter xs with
              | none => exact .stuck _
              | some G =>
                  obtain ⟨G', hG', hpruned⟩ := @FramePruned.enter protected_ _ _ _ henter
                  rw [hG']
                  exact .next ⟨hpruned, .cons ⟨{ hnext hframe.agree with }, rfl⟩ h.callers,
                    h.memory, h.printed⟩
  | _ => exact h.execute hlive hnext

theorem step (h : StatePruned protected_ s s') :
    MovePruned protected_ (CalcKernel.step t m s) (CalcKernel.step t (m.pruned protected_) s') := by
  unfold CalcKernel.step
  rw [h.frame.rest]
  cases hrest : s.frame.rest with
  | nil => exact h.stepTerminator
  | cons i rest => exact h.stepInstruction hrest

/-- Runs of any length are in step. -/
theorem run (h : StatePruned protected_ s s') (n : Nat) :
    MovePruned protected_ ((kirMachine t m).run n s)
      ((kirMachine t (m.pruned protected_)).run n s') := by
  induction n generalizing s s' with
  | zero => exact .next h
  | succ n ih =>
      have hstep : MovePruned protected_ ((kirMachine t m).step s)
          ((kirMachine t (m.pruned protected_)).step s') := h.step
      rw [Machine.run, Machine.run]
      generalize (kirMachine t m).step s = move at hstep
      generalize (kirMachine t (m.pruned protected_)).step s' = move' at hstep
      cases hstep with
      | next h => exact ih h
      | halt o => exact .halt o
      | stuck => exact .stuck _

theorem start {name : String} {args : List KirValue} {memory : Memory}
    (h : m.start name args memory = some s) :
    ∃ s', (m.pruned protected_).start name args memory = some s' ∧ StatePruned protected_ s s' := by
  obtain ⟨frame, hframe, rfl⟩ := Option.map_eq_some_iff.mp h
  obtain ⟨f, hf, henter⟩ := Option.bind_eq_some_iff.mp hframe
  obtain ⟨frame', hframe', hpruned⟩ := @FramePruned.enter protected_ _ _ _ henter
  refine ⟨⟨frame', [], memory, []⟩, ?_, hpruned, .nil, rfl, rfl⟩
  rw [KirModule.start, KirModule.pruned_function?, hf, Option.map_some, Option.bind_some, hframe']
  rfl

end StatePruned

end CalcKernel
