import CalcKernel.Kir.Evaluation

/-!
# Values that are no structs by type

In a well-typed function only a value of struct type is stored to, so any other value is
changed by its definition alone, whatever it holds.  A copy of such a value is that value
wherever the copy is available.
-/

namespace CalcKernel

open Lib

/-! ## Stores change structs only -/

section Places

variable {structs : List MirStruct} {types : ValueId → Option MirType} {t : TargetModel}
variable {env env' : Env} {m m' : Memory} {place : KirPlace} {v : ValueId} {path : List String}

/-- A place inside a value is the value itself, or a field of a struct. -/
theorem KirPlace.locate_struct (hplace : place.wellTyped structs types = true)
    (h : place.locate t env m = some (.local v path)) :
    path = [] ∧ types v = some place.typeNode ∨ ∃ owner, types v = some (.struct owner) := by
  induction place generalizing path with
  | value w type region =>
      cases h
      exact .inl ⟨rfl, of_decide_eq_true hplace⟩
  | deref pointer type region =>
      obtain ⟨a, -, h⟩ := Option.map_eq_some_iff.mp h
      cases h
  | index base i type region =>
      obtain ⟨loc, -, h⟩ := Option.bind_eq_some_iff.mp h
      split at h
      · obtain ⟨n, -, h⟩ := Option.map_eq_some_iff.mp h
        cases h
      · cases h
  | sliceIndex slice i type region =>
      obtain ⟨p, -, h⟩ := Option.bind_eq_some_iff.mp h
      obtain ⟨n, -, h⟩ := Option.map_eq_some_iff.mp h
      cases h
  | field base name type region ih =>
      obtain ⟨loc, hloc, h⟩ := Option.map_eq_some_iff.mp h
      obtain ⟨hbase, howner⟩ := Bool.and_eq_true_iff.mp hplace
      cases loc with
      | memory a => cases h
      | «local» w path' =>
          cases h
          rcases ih hbase hloc with ⟨-, htype⟩ | hstruct
          · cases hnode : base.typeNode with
            | struct owner => exact .inr ⟨owner, hnode ▸ htype⟩
            | _ =>
                rw [hnode] at howner
                cases howner
          · exact .inr hstruct

/-- A store leaves alone what it does not name a field of. -/
theorem Location.write_other {loc : Location} {type : MirType} {x : KirValue}
    (h : loc.write t env m type x = some (env', m'))
    (hv : ∀ name path, loc ≠ .local v (name :: path)) : env' v = env v := by
  cases loc with
  | memory a =>
      obtain ⟨_, -, h⟩ := Option.map_eq_some_iff.mp h
      cases h
      rfl
  | «local» u path =>
      cases path with
      | nil => cases h
      | cons name path =>
          obtain ⟨old, -, h⟩ := Option.bind_eq_some_iff.mp h
          obtain ⟨new, -, h⟩ := Option.map_eq_some_iff.mp h
          cases h
          refine Env.set_of_ne env ?_ new
          rintro rfl
          exact hv name path rfl

end Places

namespace KirFunction

/-- The value is not of struct type. -/
def Plain (f : KirFunction) (v : ValueId) : Prop := ∀ owner, f.scalarType? v ≠ some (.struct owner)

variable {f : KirFunction} {v : ValueId}

theorem plain_of_type {type : MirType} (h : f.scalarType? v = some type)
    (htype : ∀ owner, type ≠ .struct owner) : f.Plain v := by
  intro owner hv
  exact htype owner (Option.some.inj (h.symm.trans hv))

theorem scalarType?_of_integerType {type : IntegerType}
    (h : (f.valueType? v).bind IntegerType.fromKir = some type) :
    f.scalarType? v = some type.mirType := by
  obtain ⟨valueType, hvalue, hfrom⟩ := Option.bind_eq_some_iff.mp h
  rw [scalarType?, hvalue]
  cases valueType with
  | scalar mirType => exact congrArg some (IntegerType.eq_mirType hfrom)
  | fixedVector | mask => cases hfrom

theorem plain_of_integerType {type : IntegerType}
    (h : (f.valueType? v).bind IntegerType.fromKir = some type) : f.Plain v := by
  refine plain_of_type (scalarType?_of_integerType h) fun owner ↦ ?_
  cases type <;> exact MirType.noConfusion

end KirFunction

section Steps

variable {t : TargetModel} {mod : KirModule} {f : KirFunction} {i : KirInstruction}
variable {env env' : Env} {m m' : Memory} {v : ValueId}

/-- A well-typed instruction changes its results and values of struct type only. -/
theorem executeInstruction_plain {printed : List Printed}
    (h : executeInstruction t env m i = some (.next env' m' printed))
    (hi : i.wellTyped mod.structs f.scalarType? mod = true) (hv : f.Plain v) (hdefs : v ∉ i.defs) :
    env' v = env v := by
  unfold executeInstruction at h
  split at h
  · obtain ⟨failed, -, h⟩ := Option.map_eq_some_iff.mp h
    cases failed <;> simp at h
    rw [h.1]
  · rename_i place w hkind
    obtain ⟨loc, hloc, h⟩ := Option.bind_eq_some_iff.mp h
    obtain ⟨y, -, h⟩ := Option.bind_eq_some_iff.mp h
    obtain ⟨⟨e, m₁⟩, hwrite, h⟩ := Option.map_eq_some_iff.mp h
    cases h
    refine Location.write_other hwrite ?_
    rintro name path rfl
    have hplace : place.wellTyped mod.structs f.scalarType? = true := by
      unfold KirInstruction.wellTyped at hi
      rw [hkind] at hi
      split at hi <;> simp_all
    rcases KirPlace.locate_struct hplace hloc with ⟨hpath, -⟩ | ⟨owner, howner⟩
    · cases hpath
    · exact hv owner howner
  · obtain ⟨a, -, h⟩ := Option.bind_eq_some_iff.mp h
    obtain ⟨xs, -, h⟩ := Option.bind_eq_some_iff.mp h
    obtain ⟨m₁, -, h⟩ := Option.map_eq_some_iff.mp h
    cases h
    rfl
  · obtain ⟨xs, -, h⟩ := Option.map_eq_some_iff.mp h
    cases h
    rfl
  · obtain ⟨xs, -, h⟩ := Option.bind_eq_some_iff.mp h
    obtain ⟨e, hbind, h⟩ := Option.map_eq_some_iff.mp h
    cases h
    exact Env.bindResults_of_notMem hbind hdefs

theorem Stepped.plain (h : Stepped t env i env')
    (hi : i.wellTyped mod.structs f.scalarType? mod = true) (hv : f.Plain v) (hdefs : v ∉ i.defs) :
    env' v = env v := by
  cases h with
  | execute h => exact executeInstruction_plain h hi hv hdefs
  | call hkind hbind => exact Env.bindResults_of_notMem hbind hdefs

theorem KirFunction.WellTyped.instruction (hf : f.WellTyped mod) (hi : i ∈ f.instructions) :
    i.wellTyped mod.structs f.scalarType? mod = true := by
  obtain ⟨b, hb, hib⟩ := KirFunction.mem_instructions.mp hi
  exact List.all_eq_true.mp (Bool.and_eq_true_iff.mp (hf.typed b hb)).1 i hib

/-- A copy is of the type of its operand. -/
theorem KirFunction.WellTyped.copy_type (hf : f.WellTyped mod) (hi : i ∈ f.instructions)
    {w : ValueId} (hresult : (i.results.head?).map (·.value) = some v) (hkind : i.kind = .copy w) :
    f.scalarType? w = f.scalarType? v := by
  obtain ⟨r, hr, rfl⟩ := Option.map_eq_some_iff.mp hresult
  have htyped := hf.instruction hi
  have hvalue := KirFunction.valueType?_of_result hf.values hi (List.mem_of_head? hr)
  cases hresults : i.results with
  | nil => simp [hresults] at hr
  | cons result rest =>
      obtain rfl : result = r := by simpa [hresults] using hr
      have htypes : i.resultTypes = result.typeNode :: rest.map (·.typeNode) := by
        rw [KirInstruction.resultTypes, hresults, List.map_cons]
      rw [KirInstruction.wellTyped, hkind, htypes] at htyped
      have hscalar : f.scalarType? result.value = result.typeNode.asScalar := by
        rw [KirFunction.scalarType?, hvalue]
        rfl
      rw [hscalar]
      cases hnode : result.typeNode with
      | scalar type =>
          cases rest with
          | nil => simpa [hnode, KirValueType.asScalar] using htyped
          | cons => simp at htyped
      | fixedVector | mask => simp [hnode] at htyped

end Steps

/-! ## Copies along a run -/

namespace Activation

variable {t : TargetModel} {mod : KirModule} {f : KirFunction} {past : List Moment} {frame : Frame}
variable {memory : Memory}

/-- An available copy of a value that is no struct by type is that value. -/
theorem copy_env (h : Activation t f past frame memory) (hf : f.Strict) (htyped : f.WellTyped mod)
    {i : KirInstruction} {v w : ValueId} (hi : i ∈ f.instructions)
    (hresult : (i.results.head?).map (·.value) = some v) (hkind : i.kind = .copy w)
    (hplain : f.Plain v) (havail : f.Available v frame.site) : frame.env v = frame.env w := by
  obtain ⟨r, hr, hvalue⟩ := Option.map_eq_some_iff.mp hresult
  have hdef : v ∈ i.defs := hvalue ▸ List.mem_map_of_mem (List.mem_of_head? hr)
  have huse : w ∈ i.uses := by simp [KirInstruction.uses, hkind]
  have hplainUse : f.Plain w := fun owner hw ↦
    hplain owner ((htyped.copy_type hi hresult hkind).symm.trans hw)
  obtain ⟨c, hc, hic⟩ := KirFunction.mem_instructions.mp hi
  obtain ⟨j, hj⟩ := List.mem_iff_getElem?.mp hic
  have hbefore := havail _ (KirFunction.site?_of_result hf.values hc hj hdef)
  refine h.since_ran hf hc hj (Q := fun env ↦ env v = env w) ?_ ?_ ?_ hbefore
  · intro env env' hstep huses
    rw [hstep.ran.copy hkind (KirFunction.defs_nodup hf.values hi) hresult,
      hstep.plain (htyped.instruction hi) hplainUse (huses w huse)]
  · intro env i' env' hi' hstep hnot heq
    have htype := htyped.instruction hi'
    rw [hstep.plain htype hplain (hnot _ (.inr hdef)), heq,
      hstep.plain htype hplainUse (hnot _ (.inl huse))]
  · intro env l hnot heq
    rw [Env.setAll_of_notMem (hnot _ (.inr hdef)), heq, Env.setAll_of_notMem (hnot _ (.inl huse))]

end Activation

end CalcKernel
