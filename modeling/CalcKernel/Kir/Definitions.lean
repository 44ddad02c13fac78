import Mathlib.Data.List.Nodup
import Mathlib.Data.List.Pairwise
import Mathlib.Data.List.Perm.Basic
import CalcKernel.Kir.Activation
import CalcKernel.Lib.Assoc

/-!
# Definitions along an activation

In a function that defines every value once, a value that is no struct holds what
its definition gave it until the definition runs again.  A struct value is the
exception: its fields can be stored to.
-/

namespace CalcKernel

namespace KirValue

def isRecord : KirValue → Bool
  | .record _ => true
  | _ => false

theorem isRecord_of_update {v w x : KirValue} {name : String} {path : List String}
    (h : v.update (name :: path) w = some x) : v.isRecord ∧ x.isRecord := by
  cases v <;> simp only [update] at h <;> try cases h
  obtain ⟨old, _, h⟩ := Option.bind_eq_some_iff.mp h
  obtain ⟨new, _, rfl⟩ := Option.map_eq_some_iff.mp h
  exact ⟨rfl, rfl⟩

end KirValue

namespace Env

/-- Binding results changes nothing else. -/
theorem bindResults_of_notMem {env env' : Env} {results : List KirResult} {values : List KirValue}
    (h : env.bindResults results values = some env') {v : ValueId}
    (hv : v ∉ results.map (·.value)) : env' v = env v := by
  unfold bindResults at h
  split at h
  · cases h
    exact setAll_of_notMem (fun hmem ↦ hv (Lib.mem_of_mem_map_fst_zip hmem)) env
  · cases h

end Env

theorem Location.write_keeps {t : TargetModel} {env env' : Env} {m m' : Memory} {type : MirType}
    {loc : Location} {w x : KirValue} (h : loc.write t env m type w = some (env', m'))
    (hx : x.isRecord = false) (v : ValueId) : env' v = some x ↔ env v = some x := by
  cases loc with
  | memory a =>
      obtain ⟨_, _, h⟩ := Option.map_eq_some_iff.mp h
      cases h
      rfl
  | «local» u path =>
      cases path with
      | nil => cases h
      | cons name path =>
          obtain ⟨old, hold, h⟩ := Option.bind_eq_some_iff.mp h
          obtain ⟨new, hnew, h⟩ := Option.map_eq_some_iff.mp h
          cases h
          obtain ⟨hrold, hrnew⟩ := KirValue.isRecord_of_update hnew
          by_cases hv : v = u
          · subst hv
            rw [Env.set_same, hold]
            constructor
            · intro h
              cases h
              rw [hrnew] at hx
              cases hx
            · intro h
              cases h
              rw [hrold] at hx
              cases hx
          · rw [Env.set_of_ne env hv]

/-- What is no struct is only changed by a definition. -/
theorem executeInstruction_keeps {t : TargetModel} {env env' : Env} {m m' : Memory}
    {i : KirInstruction} {printed : List Printed}
    (h : executeInstruction t env m i = some (.next env' m' printed)) {x : KirValue}
    (hx : x.isRecord = false) {v : ValueId} (hv : v ∉ i.defs) :
    env' v = some x ↔ env v = some x := by
  unfold executeInstruction at h
  split at h
  · obtain ⟨failed, _, h⟩ := Option.map_eq_some_iff.mp h
    cases failed <;> simp at h
    rw [h.1]
  · obtain ⟨loc, _, h⟩ := Option.bind_eq_some_iff.mp h
    obtain ⟨y, _, h⟩ := Option.bind_eq_some_iff.mp h
    obtain ⟨⟨e, m₁⟩, hwrite, h⟩ := Option.map_eq_some_iff.mp h
    cases h
    exact Location.write_keeps hwrite hx v
  · obtain ⟨a, _, h⟩ := Option.bind_eq_some_iff.mp h
    obtain ⟨xs, _, h⟩ := Option.bind_eq_some_iff.mp h
    obtain ⟨m₁, _, h⟩ := Option.map_eq_some_iff.mp h
    cases h
    rfl
  · obtain ⟨xs, _, h⟩ := Option.map_eq_some_iff.mp h
    cases h
    rfl
  · obtain ⟨xs, _, h⟩ := Option.bind_eq_some_iff.mp h
    obtain ⟨e, hbind, h⟩ := Option.map_eq_some_iff.mp h
    cases h
    rw [Env.bindResults_of_notMem hbind hv]

/-- The events that define a value. -/
def Event.Defines (v : ValueId) : Event → Prop
  | .enter f => v ∈ f.params.map (·.value)
  | .execute i => v ∈ i.defs
  | .follow _ b => v ∈ b.params.map (·.value)

namespace Activation

variable {t : TargetModel} {f : KirFunction} {past : List Moment} {frame : Frame}
variable {memory : Memory}

/-- Every nonempty tail of a past is the past of an activation. -/
theorem of_suffix (h : Activation t f past frame memory) {moment : Moment} {older : List Moment}
    (hsuffix : moment :: older <:+ past) :
    ∃ frame' memory', Activation t f (moment :: older) frame' memory' := by
  induction h with
  | @enter _ _ memory h =>
      rcases List.suffix_cons_iff.mp hsuffix with heq | hsuffix
      · rw [heq]
        exact ⟨_, memory, .enter h⟩
      · exact absurd (List.suffix_nil.mp hsuffix) (by simp)
  | execute h hrest hi ih =>
      rcases List.suffix_cons_iff.mp hsuffix with heq | hsuffix
      · rw [heq]
        exact ⟨_, _, .execute h hrest hi⟩
      · exact ih hsuffix
  | @call past frame _ memory' _ _ _ _ _ _ h hrest hi hbind ih =>
      rcases List.suffix_cons_iff.mp hsuffix with heq | hsuffix
      · rw [heq]
        exact ⟨_, memory', .call h hrest hi hbind⟩
      · exact ih hsuffix
  | follow h hrest htaken hfollow ih =>
      rcases List.suffix_cons_iff.mp hsuffix with heq | hsuffix
      · rw [heq]
        exact ⟨_, _, .follow h hrest htaken hfollow⟩
      · exact ih hsuffix

/-- A value that is no struct was given by the newest event that defines it. -/
theorem defined_at (h : Activation t f past frame memory) {v : ValueId} {x : KirValue}
    (hx : x.isRecord = false) (hv : frame.env v = some x) :
    ∃ moment older, moment :: older <:+ past ∧ moment.event.Defines v ∧ moment.env v = some x := by
  induction h with
  | @enter args frame memory henter =>
      refine ⟨_, _, List.suffix_refl _, ?_, hv⟩
      obtain ⟨_, b, _, rfl⟩ := KirFunction.enter_eq_some henter
      by_contra hmem
      have hnone : Env.empty.setAll ((f.params.map (·.value)).zip args) v = none :=
        Env.setAll_of_notMem (fun hzip ↦ hmem (Lib.mem_of_mem_map_fst_zip hzip)) Env.empty
      exact absurd (hnone.symm.trans hv) (by simp)
  | @execute past frame memory _ i _ env _ _ _ hi ih =>
      by_cases hmem : v ∈ i.defs
      · exact ⟨_, _, List.suffix_refl _, hmem, hv⟩
      · obtain ⟨moment, older, hsuffix, hdefines, hvalue⟩ :=
          ih ((executeInstruction_keeps hi hx hmem).mp hv)
        exact ⟨moment, older, hsuffix.trans (List.suffix_cons _ _), hdefines, hvalue⟩
  | @call past frame memory _ i _ env _ _ _ _ _ _ hbind ih =>
      by_cases hmem : v ∈ i.defs
      · exact ⟨_, _, List.suffix_refl _, hmem, hv⟩
      · obtain ⟨moment, older, hsuffix, hdefines, hvalue⟩ :=
          ih ((Env.bindResults_of_notMem hbind hmem).symm.trans hv)
        exact ⟨moment, older, hsuffix.trans (List.suffix_cons _ _), hdefines, hvalue⟩
  | follow h _ _ hfollow ih =>
      obtain ⟨b, xs, _, _, _, rfl⟩ := Frame.follow_eq_some hfollow
      by_cases hmem : v ∈ b.params.map (·.value)
      · exact ⟨_, _, List.suffix_refl _, hmem, hv⟩
      · have hkeep := (Env.setAll_of_notMem
          (fun hzip ↦ hmem (Lib.mem_of_mem_map_fst_zip hzip)) _).symm.trans hv
        obtain ⟨moment, older, hsuffix, hdefines, hvalue⟩ := ih hkeep
        exact ⟨moment, older, hsuffix.trans (List.suffix_cons _ _), hdefines, hvalue⟩

/-- The environment before an executed instruction. -/
theorem before_execute (h : Activation t f past frame memory) {i : KirInstruction} {env : Env}
    {older : List Moment} (hsuffix : ⟨.execute i, env⟩ :: older <:+ past) :
    ∃ frame' memory' rest, Activation t f older frame' memory' ∧ frame'.rest = i :: rest ∧
      (∃ event older', older = ⟨event, frame'.env⟩ :: older') ∧
      ((∃ memory'' printed,
        executeInstruction t frame'.env memory' i = some (.next env memory'' printed)) ∨
       (∃ name args values, i.kind = .call name args ∧
        frame'.env.bindResults i.results values = some env)) := by
  obtain ⟨_, _, hact⟩ := h.of_suffix hsuffix
  cases hact with
  | execute h hrest hi => exact ⟨_, _, _, h, hrest, h.env_eq, .inl ⟨_, _, hi⟩⟩
  | call h hrest hi hbind => exact ⟨_, _, _, h, hrest, h.env_eq, .inr ⟨_, _, _, hi, hbind⟩⟩

end Activation

/-! ## Single definitions -/

namespace KirFunction

variable {f : KirFunction}

theorem mem_instructions {i : KirInstruction} :
    i ∈ f.instructions ↔ ∃ b ∈ f.blocks, i ∈ b.instructions := by
  simp [instructions]

/-- The definitions of a function, parameters first, then block parameters, then results. -/
theorem valueIds_perm : f.valueIds.Perm (f.params.map (·.value) ++
    ((f.blocks.flatMap fun b ↦ b.params.map (·.value)) ++ f.instructions.flatMap (·.defs))) := by
  refine List.Perm.append_left _ ?_
  rw [instructions, List.flatMap_assoc]
  exact (List.flatMap_append_perm f.blocks _ _).symm

variable (h : f.valueIds.Nodup)
include h

theorem instruction_unique {i j : KirInstruction} (hi : i ∈ f.instructions)
    (hj : j ∈ f.instructions) {v : ValueId} (hvi : v ∈ i.defs) (hvj : v ∈ j.defs) : i = j := by
  have hdefs := (List.nodup_append.mp (List.nodup_append.mp
    (valueIds_perm.nodup_iff.mp h)).2.1).2.1
  have hsymm : Std.Symm (Function.onFun List.Disjoint fun i : KirInstruction ↦ i.defs) :=
    ⟨fun _ _ hab _ ha hb ↦ hab hb ha⟩
  by_contra hij
  exact (List.nodup_flatMap.mp hdefs).2.forall hi hj hij hvi hvj

theorem param_notMem_defs {i : KirInstruction} (hi : i ∈ f.instructions) {v : ValueId}
    (hv : v ∈ i.defs) : v ∉ f.params.map (·.value) := by
  intro hparam
  have hdisjoint := (List.nodup_append.mp (valueIds_perm.nodup_iff.mp h)).2.2
  exact hdisjoint v hparam v
    (List.mem_append_right _ (List.mem_flatMap.mpr ⟨i, hi, hv⟩)) rfl

theorem blockParam_notMem_defs {i : KirInstruction} (hi : i ∈ f.instructions) {v : ValueId}
    (hv : v ∈ i.defs) {b : KirBlock} (hb : b ∈ f.blocks) : v ∉ b.params.map (·.value) := by
  intro hparam
  have hdisjoint := (List.nodup_append.mp (List.nodup_append.mp
    (valueIds_perm.nodup_iff.mp h)).2.1).2.2
  exact hdisjoint v (List.mem_flatMap.mpr ⟨b, hb, hparam⟩) v
    (List.mem_flatMap.mpr ⟨i, hi, hv⟩) rfl

theorem param_notMem_blockParams {v : ValueId} (hv : v ∈ f.params.map (·.value)) {b : KirBlock}
    (hb : b ∈ f.blocks) : v ∉ b.params.map (·.value) := by
  intro hparam
  have hdisjoint := (List.nodup_append.mp (valueIds_perm.nodup_iff.mp h)).2.2
  exact hdisjoint v hv v
    (List.mem_append_left _ (List.mem_flatMap.mpr ⟨b, hb, hparam⟩)) rfl

end KirFunction

namespace Activation

variable {t : TargetModel} {f : KirFunction} {past : List Moment} {frame : Frame}
variable {memory : Memory}

theorem execute_mem (h : Activation t f past frame memory) {i : KirInstruction} {env : Env}
    {older : List Moment} (hsuffix : ⟨.execute i, env⟩ :: older <:+ past) :
    i ∈ f.instructions := by
  obtain ⟨frame', _, rest, hact, hrest, _⟩ := h.before_execute hsuffix
  exact KirFunction.mem_instructions.mpr
    ⟨_, hact.block_mem, hact.head_mem_instructions hrest⟩

theorem follow_mem (h : Activation t f past frame memory) {edge : KirEdge} {b : KirBlock}
    {env : Env} {older : List Moment} (hsuffix : ⟨.follow edge b, env⟩ :: older <:+ past) :
    b ∈ f.blocks := by
  obtain ⟨_, _, hact⟩ := h.of_suffix hsuffix
  cases hact with
  | follow h hrest htaken hfollow => exact (h.follow hrest htaken hfollow).block_mem

theorem enter_eq (h : Activation t f past frame memory) {g : KirFunction} {env : Env}
    {older : List Moment} (hsuffix : ⟨.enter g, env⟩ :: older <:+ past) : g = f ∧ older = [] := by
  obtain ⟨_, _, hact⟩ := h.of_suffix hsuffix
  cases hact with
  | enter h => exact ⟨rfl, rfl⟩

/-- A result that is no struct comes from the newest run of the one instruction that defines it. -/
theorem result_at (h : Activation t f past frame memory) (hssa : f.valueIds.Nodup)
    {i : KirInstruction} (hi : i ∈ f.instructions) {v : ValueId} (hv : v ∈ i.defs) {x : KirValue}
    (hx : x.isRecord = false) (hvalue : frame.env v = some x) :
    ∃ env older, ⟨.execute i, env⟩ :: older <:+ past ∧ env v = some x := by
  obtain ⟨⟨event, env⟩, older, hsuffix, hdefines, henv⟩ := h.defined_at hx hvalue
  cases event with
  | enter g =>
      obtain ⟨rfl, _⟩ := h.enter_eq hsuffix
      exact absurd hdefines (KirFunction.param_notMem_defs hssa hi hv)
  | execute j =>
      obtain rfl := KirFunction.instruction_unique hssa hi (h.execute_mem hsuffix) hv hdefines
      exact ⟨env, older, hsuffix, henv⟩
  | follow edge b =>
      exact absurd hdefines
        (KirFunction.blockParam_notMem_defs hssa hi hv (h.follow_mem hsuffix))

/-- Every moment of a past is the end of an activation. -/
theorem moment_of_mem (h : Activation t f past frame memory) {moment : Moment}
    (hmem : moment ∈ past) :
    ∃ older frame' memory', moment :: older <:+ past ∧
      Activation t f (moment :: older) frame' memory' ∧ frame'.env = moment.env := by
  obtain ⟨older, hsuffix⟩ := Lib.exists_suffix_of_mem hmem
  obtain ⟨frame', memory', hact⟩ := h.of_suffix hsuffix
  obtain ⟨event, older', heq⟩ := hact.env_eq
  cases heq
  exact ⟨older, frame', memory', hsuffix, hact, rfl⟩

/-- A parameter that is no struct holds its argument. -/
theorem param_at (h : Activation t f past frame memory) (hssa : f.valueIds.Nodup) {v : ValueId}
    (hv : v ∈ f.params.map (·.value)) {x : KirValue} (hx : x.isRecord = false)
    (hvalue : frame.env v = some x) :
    ∃ env, [⟨.enter f, env⟩] <:+ past ∧ env v = some x := by
  obtain ⟨⟨event, env⟩, older, hsuffix, hdefines, henv⟩ := h.defined_at hx hvalue
  cases event with
  | enter g =>
      obtain ⟨rfl, rfl⟩ := h.enter_eq hsuffix
      exact ⟨env, hsuffix, henv⟩
  | execute j =>
      exact absurd hv (KirFunction.param_notMem_defs hssa (h.execute_mem hsuffix) hdefines)
  | follow edge b =>
      exact absurd hdefines (KirFunction.param_notMem_blockParams hssa hv (h.follow_mem hsuffix))

/-- A parameter that is no struct never changes. -/
theorem param_keeps (h : Activation t f past frame memory) (hssa : f.valueIds.Nodup) {v : ValueId}
    (hv : v ∈ f.params.map (·.value)) {x : KirValue} (hx : x.isRecord = false) {moment : Moment}
    (hmem : moment ∈ past) (hvalue : moment.env v = some x) : frame.env v = some x := by
  induction h with
  | enter henter =>
      obtain rfl := List.mem_singleton.mp hmem
      exact hvalue
  | @execute past frame memory _ i _ _ _ h hrest hi ih =>
      rcases List.mem_cons.mp hmem with rfl | hmem
      · exact hvalue
      · have hin : i ∈ f.instructions :=
          KirFunction.mem_instructions.mpr ⟨_, h.block_mem, h.head_mem_instructions hrest⟩
        exact (executeInstruction_keeps hi hx
          fun hdef ↦ KirFunction.param_notMem_defs hssa hin hdef hv).mpr (ih hmem)
  | @call past frame memory _ i _ _ _ _ _ h hrest _ hbind ih =>
      rcases List.mem_cons.mp hmem with rfl | hmem
      · exact hvalue
      · have hin : i ∈ f.instructions :=
          KirFunction.mem_instructions.mpr ⟨_, h.block_mem, h.head_mem_instructions hrest⟩
        exact (Env.bindResults_of_notMem hbind
          fun hdef ↦ KirFunction.param_notMem_defs hssa hin hdef hv).trans (ih hmem)
  | follow h hrest htaken hfollow ih =>
      have hblock := (h.follow hrest htaken hfollow).block_mem
      obtain ⟨b, xs, _, _, _, rfl⟩ := Frame.follow_eq_some hfollow
      rcases List.mem_cons.mp hmem with rfl | hmem
      · exact hvalue
      · refine (Env.setAll_of_notMem (fun hzip ↦ ?_) _).trans (ih hmem)
        exact KirFunction.param_notMem_blockParams hssa hv hblock
          (Lib.mem_of_mem_map_fst_zip hzip)

/-- A parameter that is no struct is the same at all moments. -/
theorem param_same (h : Activation t f past frame memory) (hssa : f.valueIds.Nodup) {v : ValueId}
    (hv : v ∈ f.params.map (·.value)) {x : KirValue} (hx : x.isRecord = false) {m m' : Moment}
    (hm : m ∈ past) (hm' : m' ∈ past) (hvalue : m.env v = some x) : m'.env v = some x := by
  obtain ⟨older, _, _, hsuffix, hact, henv⟩ := h.moment_of_mem hm
  obtain ⟨older', _, _, hsuffix', hact', henv'⟩ := h.moment_of_mem hm'
  obtain ⟨env, henter, hentry⟩ := hact.param_at hssa hv hx (henv ▸ hvalue)
  have henter' : [⟨.enter f, env⟩] <:+ m' :: older' :=
    List.suffix_of_suffix_length_le (henter.trans hsuffix) hsuffix' (by simp)
  exact henv' ▸ hact'.param_keeps hssa hv hx
    (henter'.subset (List.mem_singleton_self _)) hentry

end Activation

end CalcKernel
