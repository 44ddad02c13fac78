import CalcKernel.Optimizer.Forwarding
import CalcKernel.Kir.PlaceRegions

/-!
# The leaves a value comes from

In a function whose values are defined once, whatever a value holds during a run entered at
one of the leaves that the search finds: going back from the value, along the edges that were
taken and the copies that ran, a leaf held it when it was handed over.  The leaf may have been
defined again since then.  Structs are left out, a copy of a struct can be stored to.
-/

namespace CalcKernel

open Lib

/-! ## How a value got what it holds -/

/-- What `v` holds at the newest moment is the `x` that the leaf `l` held: at that moment, or when
it was first handed over along an edge or by a copy. -/
inductive EnteredAs (leaves : List ValueId) : List Moment → ValueId → ValueId → KirValue → Prop
  | here {moment : Moment} {older : List Moment} {l : ValueId} {x : KirValue}
      (hleaf : l ∈ leaves) (hx : moment.env l = some x) :
      EnteredAs leaves (moment :: older) l l x
  | kept {moment : Moment} {older : List Moment} {v l : ValueId} {x : KirValue}
      (hdefines : ¬ moment.event.Defines v) (h : EnteredAs leaves older v l x) :
      EnteredAs leaves (moment :: older) v l x
  | passed {edge : KirEdge} {c : KirBlock} {env : Env} {older : List Moment} {index : Nat}
      {v a l : ValueId} {x : KirValue} (hv : (c.params.map (·.value))[index]? = some v)
      (ha : edge.args[index]? = some a) (h : EnteredAs leaves older a l x) :
      EnteredAs leaves (⟨.follow edge c, env⟩ :: older) v l x
  | copied {i : KirInstruction} {env : Env} {older : List Moment} {v y l : ValueId} {x : KirValue}
      (hkind : i.kind = .copy y) (hv : (i.results.head?).map (·.value) = some v)
      (h : EnteredAs leaves older y l x) :
      EnteredAs leaves (⟨.execute i, env⟩ :: older) v l x

namespace EnteredAs

variable {leaves : List ValueId} {past : List Moment} {v l : ValueId} {x : KirValue}

theorem leaf (h : EnteredAs leaves past v l x) : l ∈ leaves := by
  induction h with
  | here hleaf _ => exact hleaf
  | kept _ _ ih | passed _ _ _ ih | copied _ _ _ ih => exact ih

/-- At some moment the leaf held the value. -/
theorem held (h : EnteredAs leaves past v l x) : ∃ moment ∈ past, moment.env l = some x := by
  induction h with
  | here _ hx => exact ⟨_, List.mem_cons_self, hx⟩
  | kept _ _ ih | passed _ _ _ ih | copied _ _ _ ih =>
      obtain ⟨moment, hmem, hx⟩ := ih
      exact ⟨moment, List.mem_cons_of_mem _ hmem, hx⟩

end EnteredAs

/-! ## A step of the run -/

namespace KirFunction

variable {f : KirFunction} {S : ValueId → Prop} {stopAt : Option ValueId} {leaves : List ValueId}
variable {v w : ValueId}

/-- A value is a parameter of one block at most. -/
theorem blockParam_unique (hvalues : f.valueIds.Nodup) {b c : KirBlock} (hb : b ∈ f.blocks)
    (hc : c ∈ f.blocks) (hvb : v ∈ b.params.map (·.value)) (hvc : v ∈ c.params.map (·.value)) :
    b = c := by
  have hparams := (List.nodup_append.mp (List.nodup_append.mp
    (valueIds_perm.nodup_iff.mp hvalues)).2.1).1
  have hsymm : Std.Symm (Function.onFun List.Disjoint
      fun b : KirBlock ↦ b.params.map (·.value)) := ⟨fun _ _ hab _ ha hb ↦ hab hb ha⟩
  by_contra hbc
  exact (List.nodup_flatMap.mp hparams).2.forall hb hc hbc hvb hvc

/-- A followed value other than a leaf is no parameter of the function. -/
theorem Follows.notMem_params (h : f.Follows stopAt (· ∈ leaves) S w)
    (hvalues : f.valueIds.Nodup) (hleaf : w ∉ leaves) : w ∉ f.params.map (·.value) := by
  intro hparam
  cases h with
  | leaf h => exact hleaf h
  | param _ hposition _ _ =>
      obtain ⟨b, hb, -, hindex⟩ := paramPosition?_eq_some hposition
      exact param_notMem_blockParams hvalues hparam hb (List.mem_of_getElem? hindex)
  | copy _ _ hcopy _ =>
      obtain ⟨i, hi, -, hhead⟩ := copyOperand?_eq_some hcopy
      obtain ⟨r, hr, rfl⟩ := Option.map_eq_some_iff.mp hhead
      exact param_notMem_defs hvalues hi (List.mem_map_of_mem (List.mem_of_head? hr)) hparam

/-- An instruction that defines a followed value other than a leaf is a copy of a followed one. -/
theorem Follows.copy_of_mem_defs (h : f.Follows stopAt (· ∈ leaves) S w)
    (hvalues : f.valueIds.Nodup) (hleaf : w ∉ leaves) {i : KirInstruction}
    (hi : i ∈ f.instructions) (hw : w ∈ i.defs) :
    ∃ y, i.kind = .copy y ∧ (i.results.head?).map (·.value) = some w ∧ S y := by
  cases h with
  | leaf h => exact absurd h hleaf
  | param _ hposition _ _ =>
      obtain ⟨b, hb, -, hindex⟩ := paramPosition?_eq_some hposition
      exact absurd (List.mem_of_getElem? hindex) (blockParam_notMem_defs hvalues hi hw hb)
  | @copy y _ _ hcopy hknown =>
      obtain ⟨i', hi', hkind, hhead⟩ := copyOperand?_eq_some hcopy
      obtain ⟨r, hr, rfl⟩ := Option.map_eq_some_iff.mp hhead
      obtain rfl := instruction_unique hvalues hi hi' hw
        (List.mem_map_of_mem (List.mem_of_head? hr))
      exact ⟨y, hkind, hhead, hknown⟩

/-- An edge to a block with a followed value other than a leaf hands over a followed one. -/
theorem Follows.arg_of_mem_params (h : f.Follows stopAt (· ∈ leaves) S w)
    (hvalues : f.valueIds.Nodup) (hleaf : w ∉ leaves) {b c : KirBlock} (hb : b ∈ f.blocks)
    (hc : c ∈ f.blocks) (hw : w ∈ c.params.map (·.value)) {edge : KirEdge}
    (hedge : edge ∈ b.terminator.edges) (htarget : edge.target = c.id) :
    ∃ (index : Nat) (a : ValueId), (c.params.map (·.value))[index]? = some w ∧
      edge.args[index]? = some a ∧ S a := by
  cases h with
  | leaf h => exact absurd h hleaf
  | @param block index _ hposition _ hargs =>
      obtain ⟨d, hd, hid, hindex⟩ := paramPosition?_eq_some hposition
      obtain rfl := blockParam_unique hvalues hd hc (List.mem_of_getElem? hindex) hw
      obtain ⟨a, ha, hknown⟩ := hargs (b.id, edge)
        (mem_predecessorEdges.mpr ⟨b, hb, rfl, hedge, htarget.trans hid⟩)
      exact ⟨index, a, hindex, ha, hknown⟩
  | copy _ _ hcopy _ =>
      obtain ⟨i, hi, -, hhead⟩ := copyOperand?_eq_some hcopy
      obtain ⟨r, hr, rfl⟩ := Option.map_eq_some_iff.mp hhead
      exact absurd hw
        (blockParam_notMem_defs hvalues hi (List.mem_map_of_mem (List.mem_of_head? hr)) hc)

end KirFunction

/-! ## The whole run -/

namespace Activation

variable {t : TargetModel} {f : KirFunction} {past : List Moment} {frame : Frame}
variable {memory : Memory} {S : ValueId → Prop} {stopAt : Option ValueId}
variable {leaves : List ValueId}

/-- Every value of the set holds what a leaf held at the newest moment. -/
def EnteredAll (leaves : List ValueId) (S : ValueId → Prop) (past : List Moment) (env : Env) :
    Prop :=
  ∀ w, S w → ∀ x, env w = some x → x.isRecord = false → ∃ l, EnteredAs leaves past w l x

theorem EnteredAll.run (hvalues : f.valueIds.Nodup)
    (hS : ∀ w, S w → f.Follows stopAt (· ∈ leaves) S w) {env env' : Env} {i : KirInstruction}
    (hi : i ∈ f.instructions) (hstep : Stepped t env i env') (h : EnteredAll leaves S past env) :
    EnteredAll leaves S (⟨.execute i, env'⟩ :: past) env' := by
  intro w hw x hx hrecord
  by_cases hleaf : w ∈ leaves
  · exact ⟨w, .here hleaf hx⟩
  by_cases hdef : w ∈ i.defs
  · obtain ⟨y, hkind, hhead, hy⟩ := (hS w hw).copy_of_mem_defs hvalues hleaf hi hdef
    have hcopy := hstep.ran.copy hkind (KirFunction.defs_nodup hvalues hi) hhead
    obtain ⟨l, hl⟩ := h y hy x (hcopy.symm.trans hx) hrecord
    exact ⟨l, .copied hkind hhead hl⟩
  · have hkeeps := hstep.ran.keeps w hdef
    have hscalar : env.scalar w = some x := hkeeps.symm.trans (Env.scalar_eq_some.mpr ⟨hx, hrecord⟩)
    obtain ⟨l, hl⟩ := h w hw x (Env.scalar_eq_some.mp hscalar).1 hrecord
    exact ⟨l, .kept hdef hl⟩

theorem enteredAll (hvalues : f.valueIds.Nodup)
    (hS : ∀ w, S w → f.Follows stopAt (· ∈ leaves) S w) (h : Activation t f past frame memory) :
    EnteredAll leaves S past frame.env := by
  induction h with
  | @enter args _ _ henter =>
      intro w hw x hx _
      by_cases hleaf : w ∈ leaves
      · exact ⟨w, .here hleaf hx⟩
      -- only the parameters of the function hold anything here
      · obtain ⟨-, b, -, rfl⟩ := KirFunction.enter_eq_some henter
        have hparam := (hS w hw).notMem_params hvalues hleaf
        have hnone : Env.empty.setAll ((f.params.map (·.value)).zip args) w = none :=
          Env.setAll_of_notMem (fun hzip ↦ hparam (mem_of_mem_map_fst_zip hzip)) Env.empty
        exact absurd (hnone.symm.trans hx) (by simp)
  | execute h hrest hi ih =>
      exact ih.run hvalues hS (KirFunction.mem_instructions.mpr
        ⟨_, h.block_mem, h.head_mem_instructions hrest⟩) (.execute hi)
  | call h hrest hkind hbind ih =>
      exact ih.run hvalues hS (KirFunction.mem_instructions.mpr
        ⟨_, h.block_mem, h.head_mem_instructions hrest⟩) (Stepped.call (t := t) hkind hbind)
  | follow h hrest htaken hfollow ih =>
      obtain ⟨c, xs, hc, hxs, hlen, rfl⟩ := Frame.follow_eq_some hfollow
      rw [h.function_eq] at hc
      obtain ⟨hmem, hedge, -⟩ := h.follow_edge htaken hc
      intro w hw x hx hrecord
      by_cases hleaf : w ∈ leaves
      · exact ⟨w, .here hleaf hx⟩
      by_cases hparam : w ∈ c.params.map (·.value)
      · obtain ⟨index, a, hindex, ha, hSa⟩ := (hS w hw).arg_of_mem_params hvalues hleaf
          h.block_mem hmem hparam hedge (KirFunction.mem_blocks_of_block? hc).2.symm
        have hvalue := Env.setAll_params hxs (by simpa using hlen)
          (KirFunction.params_nodup hvalues hmem) hindex ha
        obtain ⟨l, hl⟩ := ih a hSa x (hvalue.symm.trans hx) hrecord
        exact ⟨l, .passed hindex ha hl⟩
      · have hkept := (Env.setAll_of_notMem
          (fun hzip ↦ hparam (mem_of_mem_map_fst_zip hzip)) _).symm.trans hx
        obtain ⟨l, hl⟩ := ih w hw x hkept hrecord
        exact ⟨l, .kept hparam hl⟩

end Activation

/-- The search ends, and where it returns leaves, the value holds at every moment of every run what
one of them held when it entered the chain. -/
theorem forwardingLeaves_complete {f : KirFunction} (hvalues : f.valueIds.Nodup) (v : ValueId)
    (stopAt : Option ValueId) :
    (∃ s, searchLoop (f.followed stopAt) (1 + (f.valueIds.map f.fanOut).sum) [v] = some s ∧
      (s.stuck = true ∨ s.pending = [])) ∧
    ∀ leaves, f.forwardingLeaves v stopAt = some leaves →
      ∀ (t : TargetModel) (past : List Moment) (frame : Frame) (memory : Memory),
        Activation t f past frame memory → ∀ x, frame.env v = some x → x.isRecord = false →
          ∃ l ∈ leaves, EnteredAs leaves past v l x := by
  refine ⟨f.forwardingSearch_returns v stopAt, ?_⟩
  intro leaves hleaves t past frame memory h x hx hrecord
  obtain ⟨S, hv, hS⟩ := KirFunction.forwardingLeaves_eq_some hleaves
  obtain ⟨l, hl⟩ := h.enteredAll hvalues hS v hv x hx hrecord
  exact ⟨l, hl.leaf, hl⟩

/-! ## A value kept over a turn, and a struct -/

/-- `fn last(n: u32) { let i = 0; let p = 0; while (i < n) { p = i; i = i + 1; } }`, as KIR. -/
def lastKir : KirFunction :=
  ⟨0, "last", true, [⟨0, "n", .primitive .u32⟩], .void, [], [], [],
    [⟨0, "bb0", [], [], [⟨0, [⟨1, .scalar .u32⟩], .constInt "0", none, none⟩],
        .jump ⟨1, [1, 1], []⟩⟩,
      ⟨1, "bb1", [⟨2, "i", .scalar .u32⟩, ⟨3, "p", .scalar .u32⟩], [],
        [⟨1, [⟨4, .scalar .bool⟩], .compare .lt 2 0, none, none⟩],
        .branch 4 ⟨2, [], []⟩ ⟨3, [], []⟩⟩,
      ⟨2, "bb2", [], [],
        [⟨2, [⟨5, .scalar .u32⟩], .copy 2, none, none⟩,
          ⟨3, [⟨6, .scalar .u32⟩], .constInt "1", none, none⟩,
          ⟨4, [⟨7, .scalar .u32⟩], .binary .add 2 6 .modular, none, none⟩],
        .jump ⟨1, [7, 5], []⟩⟩,
      ⟨3, "bb3", [], [], [], .return none [] 0⟩]⟩

/-- A call of `last` after two turns. -/
def lastRun : Option ActivationState :=
  ActivationState.after (lp64 zeroFloats) lastKir [.int .u32 2] (fun _ ↦ none) 14

theorem lastRun_isSome : lastRun.isSome := by decide +kernel

def lastState : ActivationState := lastRun.get lastRun_isSome

theorem lastState_activation : Activation (lp64 zeroFloats) lastKir lastState.past
    lastState.frame lastState.memory :=
  ActivationState.after_activation (Option.some_get lastRun_isSome).symm

/-- After two turns `p` holds what the sum held when `i` took it over one turn before. -/
theorem forwardingLeaves_complete_last :
    lastState.frame.env 3 = some (.int .u32 1) ∧ lastState.frame.env 7 = some (.int .u32 2) ∧
      ∃ l ∈ [1, 7], EnteredAs [1, 7] lastState.past 3 l (.int .u32 1) := by
  have hsearch : lastKir.forwardingLeaves 3 none = some [1, 7] := by decide +kernel
  refine ⟨rfl, rfl, ?_⟩
  exact (forwardingLeaves_complete (by decide +kernel) 3 none).2 _ hsearch _ _ _ _
    lastState_activation _ rfl rfl

/-- `fn first(s: Pair) { let t = s; t.a = 1; }`, as KIR. -/
def pairModule : KirModule :=
  ⟨⟨.c, .checked, .checked, .disabled⟩, none, [⟨"Pair", [⟨"a", .primitive .i32⟩]⟩],
    [⟨0, "first", true, [⟨0, "s", .struct "Pair"⟩], .void,
      [⟨0, .conservative, none, 0, none⟩], [⟨0, 0⟩], [],
      [⟨0, "bb0", [], [],
        [⟨0, [⟨1, .scalar (.struct "Pair")⟩], .copy 0, none, none⟩,
          ⟨1, [⟨2, .scalar .i32⟩], .constInt "1", none, none⟩,
          ⟨2, [], .store (.field (.value 1 (.struct "Pair") 0) "a" (.primitive .i32) 0) 2,
            some ⟨0, 0, some 1⟩, some ⟨0, .writeMemory⟩⟩],
        .return none [(0, 1)] 1⟩]⟩]⟩

/-- A call of `first` up to its return. -/
def pairRun : Option ActivationState :=
  ActivationState.after (lp64 zeroFloats) pairModule.first [.record [("a", .int .i32 0)]]
    (fun _ ↦ none) 3

theorem pairRun_isSome : pairRun.isSome := by decide +kernel

def pairState : ActivationState := pairRun.get pairRun_isSome

theorem pairState_activation : Activation (lp64 zeroFloats) pairModule.first pairState.past
    pairState.frame pairState.memory :=
  ActivationState.after_activation (Option.some_get pairRun_isSome).symm

/-- The only leaf of the copied struct is the parameter, which never holds the stored field. -/
theorem forwardingLeaves_pair :
    pairModule.valueErrors = [] ∧
      pairModule.memoryErrors KirFunction.computeKirDominators = [] ∧
      ∃ leaves past frame memory x, pairModule.first.forwardingLeaves 1 none = some leaves ∧
        Activation (lp64 zeroFloats) pairModule.first past frame memory ∧ frame.env 1 = some x ∧
        ¬ ∃ l ∈ leaves, EnteredAs leaves past 1 l x := by
  refine ⟨by decide +kernel, by decide +kernel, [0], _, _, _, .record [("a", .int .i32 1)],
    by decide +kernel, pairState_activation, rfl, ?_⟩
  rintro ⟨l, hleaf, h⟩
  obtain rfl := List.mem_singleton.mp hleaf
  obtain ⟨moment, hmem, hx⟩ := h.held
  have hpast : pairState.past.map (·.env 0) =
      List.replicate 4 (some (.record [("a", .int .i32 0)])) := rfl
  have hvalue := List.eq_of_mem_replicate (hpast ▸ List.mem_map_of_mem hmem)
  simp [hx] at hvalue

end CalcKernel
