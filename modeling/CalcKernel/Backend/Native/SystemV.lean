import CalcKernel.Backend.Native.Classification

/-!
# Export thunks and the System V calling convention

A structure of two eightbytes reaches the external function as two parameters, which LLVM
passes one by one.  The thunk therefore reads its parameters from where the ABI puts them
exactly when no structure arrives with registers left for one of its eightbytes only.
-/

namespace CalcKernel

open Lib

def exportThunk (structs : List MirStruct) (function : MirFunction) (checked : Bool) :
    Except NativeError ThunkSignature := do
  let classifier ← NativeAbiClassifier.new structs
  thunkSignature classifier function checked

theorem structs_of_new {structs : List MirStruct} {classifier : NativeAbiClassifier}
    (h : NativeAbiClassifier.new structs = .ok classifier) : classifier.structs = structs := by
  unfold NativeAbiClassifier.new at h
  split at h
  · cases h
  · obtain ⟨-, -, h⟩ := bind_eq_ok.mp h
    cases h
    exact Eq.refl _

/-! ## Attributes and reads of one binding -/

namespace ParameterBinding

/-- The number of external types agrees with how the body reads the binding. -/
structure WellFormed (binding : ParameterBinding) : Prop where
  slice : ∀ element, binding.sourceType = .slice element →
    binding.externalTypes.length = 2 ∧ binding.indirect = false
  indirect : binding.indirect = true → binding.externalTypes.length = 1
  scalar : isAggregate binding.sourceType = false → binding.externalTypes.length = 1

/-- The attributes of the one external parameter that has some. -/
def attributes (binding : ParameterBinding) : List NativeAttribute :=
  (bindingAttributes 0 [binding]).map Prod.snd

def nativeParameters (binding : ParameterBinding) : List NativeParameter :=
  binding.externalTypes.map fun type ↦ ⟨type, binding.attributes⟩

variable {binding : ParameterBinding}

theorem bindingAttributes_cons (hwf : binding.WellFormed) (index : Nat)
    (bindings : List ParameterBinding) :
    bindingAttributes index (binding :: bindings) = binding.attributes.map (index, ·) ++
      bindingAttributes (index + binding.externalTypes.length) bindings := by
  rw [attributes, bindingAttributes, bindingAttributes]
  split
  · rename_i hindirect
    rw [hwf.indirect hindirect, bindingAttributes]
    split <;> simp
  · rw [bindingAttributes]
    split
    · cases binding.extension <;> simp [paramExtension]
    · simp

theorem attributes_eq_nil (hwf : binding.WellFormed) (h : binding.externalTypes.length ≠ 1) :
    binding.attributes = [] := by
  rw [attributes, bindingAttributes]
  split
  · rename_i hindirect
    exact absurd (hwf.indirect hindirect) h
  · rw [bindingAttributes]
    exact Eq.refl _

theorem mapM_range' {α : Type} {param : Nat → Option α} {index : Nat} {values : List α}
    (hparam : ∀ k < values.length, param (index + k) = values[k]?) :
    (List.range' index values.length).mapM param = some values := by
  induction values generalizing index with
  | nil => exact Eq.refl _
  | cons value values ih =>
      have hhead := hparam 0 (by simp)
      have htail : ∀ k < values.length, param (index + 1 + k) = values[k]? := by
        intro k hk
        have h := hparam (k + 1) (by simpa using hk)
        rwa [List.getElem?_cons_succ, Nat.add_comm k 1, ← Nat.add_assoc] at h
      rw [Nat.add_zero] at hhead
      rw [List.length_cons, List.range'_succ, List.mapM_cons, hhead, ih htail]
      exact Eq.refl _

theorem read_eq {α : Type} (hwf : binding.WellFormed) {param : Nat → Option α} {index : Nat}
    {values : List α} (hlength : values.length = binding.externalTypes.length)
    (hparam : ∀ k < values.length, param (index + k) = values[k]?) :
    binding.read param index = some (values, index + binding.externalTypes.length) := by
  have hsingle (hone : binding.externalTypes.length = 1) :
      (do let value ← param index; some ([value], index + 1)) =
        some (values, index + binding.externalTypes.length) := by
    obtain ⟨value, rfl⟩ := List.length_eq_one_iff.mp (hlength.trans hone)
    have h := hparam 0 (by simp)
    rw [Nat.add_zero] at h
    rw [h, hone]
    exact Eq.refl _
  unfold read
  split
  · rename_i element htype
    obtain ⟨htwo, -⟩ := hwf.slice element htype
    obtain ⟨data, len, rfl⟩ := List.length_eq_two.mp (hlength.trans htwo)
    have h0 := hparam 0 (by simp)
    have h1 := hparam 1 (by simp)
    rw [Nat.add_zero] at h0
    rw [h0, h1, htwo]
    exact Eq.refl _
  · split
    · exact hsingle (hwf.indirect ‹_›)
    · split
      · split
        · exact hsingle ‹_›
        · rw [← hlength, mapM_range' hparam]
          exact Eq.refl _
      · rename_i haggregate
        exact hsingle (hwf.scalar (by simpa using haggregate))

end ParameterBinding

/-! ## The whole signature -/

theorem attributesAt_append (l l' : List (Nat × NativeAttribute)) (index : Nat) :
    attributesAt (l ++ l') index = attributesAt l index ++ attributesAt l' index := by
  rw [attributesAt, List.filter_append, List.map_append]
  exact Eq.refl _

theorem attributesAt_map (attributes : List NativeAttribute) (index : Nat) :
    attributesAt (attributes.map (index, ·)) index = attributes := by
  induction attributes with
  | nil => exact Eq.refl _
  | cons a attributes ih => simpa [attributesAt] using ih

theorem attributesAt_map_of_ne (attributes : List NativeAttribute) {index index' : Nat}
    (h : index ≠ index') : attributesAt (attributes.map (index, ·)) index' = [] := by
  simp [attributesAt, List.filter_eq_nil_iff, h]

theorem attributesAt_of_lt {bindings : List ParameterBinding} {index index' : Nat}
    (hwf : ∀ binding ∈ bindings, binding.WellFormed) (h : index' < index) :
    attributesAt (bindingAttributes index bindings) index' = [] := by
  induction bindings generalizing index with
  | nil => exact Eq.refl _
  | cons binding bindings ih =>
      rw [ParameterBinding.bindingAttributes_cons (hwf binding List.mem_cons_self),
        attributesAt_append, attributesAt_map_of_ne _ (by omega),
        ih (fun b hb ↦ hwf b (List.mem_cons_of_mem _ hb)) (by omega)]
      exact Eq.refl _

theorem length_flatMap_externalTypes_cons (binding : ParameterBinding)
    (bindings : List ParameterBinding) :
    ((binding :: bindings).flatMap ParameterBinding.externalTypes).length =
      binding.externalTypes.length + (bindings.flatMap ParameterBinding.externalTypes).length := by
  rw [List.flatMap_cons, List.length_append]

theorem attributesAt_of_le {bindings : List ParameterBinding} {index index' : Nat}
    (hwf : ∀ binding ∈ bindings, binding.WellFormed)
    (h : index + (bindings.flatMap ParameterBinding.externalTypes).length ≤ index') :
    attributesAt (bindingAttributes index bindings) index' = [] := by
  induction bindings generalizing index with
  | nil => exact Eq.refl _
  | cons binding bindings ih =>
      have hbinding := hwf binding List.mem_cons_self
      rw [length_flatMap_externalTypes_cons] at h
      rw [ParameterBinding.bindingAttributes_cons hbinding, attributesAt_append,
        ih (fun b hb ↦ hwf b (List.mem_cons_of_mem _ hb)) (by omega)]
      by_cases hone : binding.externalTypes.length = 1
      · rw [attributesAt_map_of_ne _ (by omega)]
        exact Eq.refl _
      · rw [ParameterBinding.attributes_eq_nil hbinding hone]
        exact Eq.refl _

/-- The attributes fall on the parameters of their own binding. -/
theorem mapIdx_bindings {bindings : List ParameterBinding} (index : Nat)
    (hwf : ∀ binding ∈ bindings, binding.WellFormed) :
    ((bindings.flatMap ParameterBinding.externalTypes).mapIdx fun k type ↦
      (⟨type, attributesAt (bindingAttributes index bindings) (index + k)⟩ : NativeParameter)) =
        bindings.flatMap ParameterBinding.nativeParameters := by
  induction bindings generalizing index with
  | nil => exact Eq.refl _
  | cons binding bindings ih =>
      have hbinding := hwf binding List.mem_cons_self
      have hrest : ∀ b ∈ bindings, b.WellFormed := fun b hb ↦ hwf b (List.mem_cons_of_mem _ hb)
      rw [List.flatMap_cons, List.flatMap_cons, List.mapIdx_append, ← ih _ hrest,
        ParameterBinding.nativeParameters]
      congr 1
      · refine List.ext_getElem (by simp) fun k hk _ ↦ ?_
        have hlt : k < binding.externalTypes.length := by simpa using hk
        rw [List.getElem_mapIdx, List.getElem_map]
        refine congrArg (NativeParameter.mk _) ?_
        rw [ParameterBinding.bindingAttributes_cons hbinding, attributesAt_append,
          attributesAt_of_lt hrest (by omega), List.append_nil]
        by_cases hone : binding.externalTypes.length = 1
        · obtain rfl : k = 0 := by omega
          exact attributesAt_map _ _
        · rw [ParameterBinding.attributes_eq_nil hbinding hone]
          exact Eq.refl _
      · refine List.ext_getElem (by simp) fun k hk _ ↦ ?_
        rw [List.getElem_mapIdx, List.getElem_mapIdx]
        refine congrArg (NativeParameter.mk _) ?_
        rw [ParameterBinding.bindingAttributes_cons hbinding, attributesAt_append]
        have hindex : index + (k + binding.externalTypes.length) =
            index + binding.externalTypes.length + k := by omega
        rw [hindex]
        by_cases hone : binding.externalTypes.length = 1
        · rw [attributesAt_map_of_ne _ (by omega), List.nil_append]
        · rw [ParameterBinding.attributes_eq_nil hbinding hone]
          exact Eq.refl _

theorem readBindings_eq {α : Type} {bindings : List ParameterBinding} {groups : List (List α)}
    (hgroups : List.Forall₂ (fun binding values ↦ ParameterBinding.WellFormed binding ∧
      values.length = binding.externalTypes.length) bindings groups)
    {external before after : List α} (hexternal : external = before ++ groups.flatten ++ after) :
    readBindings (fun index ↦ external[index]?) before.length bindings =
      some (groups, before.length + groups.flatten.length) := by
  induction hgroups generalizing before with
  | nil => exact Eq.refl _
  | @cons binding values bindings groups hhead _ ih =>
      obtain ⟨hwf, hlength⟩ := hhead
      have hparam : ∀ k < values.length, external[before.length + k]? = values[k]? := by
        intro k hk
        rw [hexternal, List.flatten_cons, List.append_assoc, List.append_assoc,
          List.getElem?_append_right (Nat.le_add_right _ _), Nat.add_sub_cancel_left,
          List.getElem?_append_left hk]
      have hrest : external = before ++ values ++ groups.flatten ++ after := by
        rw [hexternal, List.flatten_cons]
        simp only [List.append_assoc]
      have ih := ih hrest
      rw [List.length_append, hlength] at ih
      rw [readBindings, ParameterBinding.read_eq hwf hlength hparam]
      simp only [Option.bind_eq_bind, Option.bind_some, ih, List.flatten_cons, List.length_append,
        hlength, Nat.add_assoc]

/-! ## Where a binding is passed -/

/-- LLVM gives a structure the size that C gives it. -/
def LaysOutAsC (allocSize : NativeType → Nat) (structs : List MirStruct) : Prop :=
  ∀ name type, HasCShape structs (.struct name) type → allocSize (.struct name) = type.size

/-- The external parameters of a binding are passed as these C parameters would be, each of their
eightbytes on its own. -/
structure PassedAs (allocSize : NativeType → Nat) (binding : ParameterBinding)
    (types : List CShape) : Prop where
  wellFormed : binding.WellFormed
  passing : binding.nativeParameters.mapM (NativeParameter.passing allocSize) =
    some ((types.map CShape.passing).flatMap Passing.expand)

variable {allocSize : NativeType → Nat}

theorem passing_registers {registers : List NativeAbiRegister} {types : List NativeType}
    (h : registerTypes registers = .ok types) (hbits : ∀ register ∈ registers, register.bits ≤ 64) :
    (types.map fun type ↦ (⟨type, []⟩ : NativeParameter)).mapM (NativeParameter.passing allocSize) =
      some (Passing.registers (registers.map (·.cls.regClass))).expand := by
  have hall := mapM_eq_ok h
  rw [Passing.expand]
  induction hall with
  | nil => exact Eq.refl _
  | @cons register type registers types hregister _ ih =>
      have hpassing : NativeParameter.passing allocSize ⟨type, []⟩ =
          some (.registers [register.cls.regClass]) := by
        have hle := hbits register List.mem_cons_self
        unfold registerType at hregister
        split at hregister
        · rename_i hcls
          cases hregister
          simp [NativeParameter.passing, NativeParameter.byval, NativeType.regClass, hle, hcls,
            NativeAbiRegisterClass.regClass]
        · rename_i hcls
          split at hregister
          · cases hregister
            simp [NativeParameter.passing, NativeParameter.byval, NativeType.regClass, hcls,
              NativeAbiRegisterClass.regClass]
          · cases hregister
      rw [List.map_cons, List.mapM_cons, hpassing, List.map_cons, List.map_cons,
        ih (mapM_of_forall₂ ‹_›) fun r hr ↦ hbits r (List.mem_cons_of_mem _ hr)]
      exact Eq.refl _

/-- A scalar parameter is one external parameter of its own class. -/
theorem passedAs_scalar {classifier : NativeAbiClassifier} {typeNode : MirType} {cls : RegClass}
    {width : Width} {binding : ParameterBinding}
    (htype : HasCShape classifier.structs typeNode (.scalar cls width))
    (h : parameterBinding classifier typeNode = .ok binding) :
    PassedAs allocSize binding [.scalar cls width] := by
  have hbinding : ∃ source alignment extension,
      binding = ⟨typeNode, source, [source], false, false, alignment, extension⟩ ∧
        nativeType classifier.structs typeNode = .ok source ∧ isAggregate typeNode = false := by
    cases htype <;>
    · obtain ⟨classified, -, h⟩ := bind_eq_ok.mp h
      obtain ⟨source, hsource, h⟩ := bind_eq_ok.mp h
      cases h
      exact ⟨_, _, _, Eq.refl _, hsource, Eq.refl _⟩
  obtain ⟨source, alignment, extension, rfl, hsource, haggregate⟩ := hbinding
  refine ⟨⟨fun element helement ↦ ?_, fun _ ↦ Eq.refl _, fun _ ↦ Eq.refl _⟩, ?_⟩
  · cases helement
    cases haggregate
  · cases htype <;> cases hsource <;> cases extension <;> exact Eq.refl _

theorem passedAs_struct {classifier : NativeAbiClassifier} {name : String} {type : CShape}
    {binding : ParameterBinding} (hllvm : LaysOutAsC allocSize classifier.structs)
    (htype : HasCShape classifier.structs (.struct name) type)
    (h : parameterBinding classifier (.struct name) = .ok binding) :
    PassedAs allocSize binding [type] := by
  obtain ⟨classified, hclassified, h⟩ := bind_eq_ok.mp h
  obtain ⟨source, hsource, h⟩ := bind_eq_ok.mp h
  obtain ⟨layout, -, hclassified⟩ := bind_eq_ok.mp hclassified
  obtain ⟨mode, hmode, hclassified⟩ := bind_eq_ok.mp hclassified
  cases hclassified
  obtain rfl : source = .struct name := by
    rw [nativeType] at hsource
    split at hsource
    · cases hsource
      exact Eq.refl _
    · cases hsource
  have hsize := hllvm name type htype
  obtain ⟨fields, rfl⟩ : ∃ fields, type = .struct fields := by
    cases htype
    exact ⟨_, Eq.refl _⟩
  rcases NativeAbiClassifier.classifySysv_eq htype hmode with
    ⟨hlt, alignment, rfl⟩ | ⟨-, registers, rfl, hpassing, hbits⟩
  · cases h
    refine ⟨⟨fun element helement ↦ (by cases helement), fun _ ↦ Eq.refl _, fun haggregate ↦ ?_⟩, ?_⟩
    · cases haggregate
    · have hpassing : (CShape.struct fields).passing = .memory (allocSize (.struct name)) := by
        rw [CShape.passing, if_pos hlt, hsize]
      rw [List.map_singleton, hpassing]
      exact Eq.refl _
  · obtain ⟨types, htypes, h⟩ := bind_eq_ok.mp h
    cases h
    refine ⟨⟨fun element helement ↦ (by cases helement), fun hindirect ↦ (by cases hindirect),
      fun haggregate ↦ (by cases haggregate)⟩, ?_⟩
    have hattributes : ParameterBinding.attributes ⟨.struct name, .struct name, types, false, false,
        layout.alignment, .none⟩ = [] := by
      simp [ParameterBinding.attributes, bindingAttributes, paramExtension]
    rw [ParameterBinding.nativeParameters, hattributes, passing_registers htypes hbits,
      List.map_singleton, hpassing, List.flatMap_singleton]

theorem passedAs_parameter {classifier : NativeAbiClassifier} {parameter : MirParam}
    {types : List CShape} {binding : ParameterBinding}
    (hllvm : LaysOutAsC allocSize classifier.structs)
    (hparameter : CParameters classifier.structs parameter types)
    (h : parameterBinding classifier parameter.typeNode = .ok binding) :
    PassedAs allocSize binding types := by
  cases hparameter with
  | slice =>
      cases h
      refine ⟨⟨fun _ _ ↦ ⟨Eq.refl _, Eq.refl _⟩, fun hindirect ↦ (by cases hindirect),
        fun haggregate ↦ (by cases haggregate)⟩, Eq.refl _⟩
  | @value _ type notSlice htype =>
      obtain ⟨name, typeNode⟩ := parameter
      cases htype with
      | slice => exact absurd (Eq.refl _) (notSlice _)
      | struct hfound htypes => exact passedAs_struct hllvm (.struct hfound htypes) h
      | _ => exact passedAs_scalar (by constructor) h

/-! ## The thunk -/

/-- A pointer in front of the parameters or behind them. -/
def IsPointerGroup {α : Type} (present : Bool) (group : List (List α)) : Prop :=
  if present then ∃ value, group = [[value]] else group = []

theorem ThunkSignature.read_eq {α : Type} {signature : ThunkSignature} {hidden checked : List (List α)}
    {groups : List (List α)} (hhidden : IsPointerGroup signature.hiddenResult hidden)
    (hchecked : IsPointerGroup signature.checkedResult checked)
    (hgroups : List.Forall₂ (fun binding values ↦ ParameterBinding.WellFormed binding ∧
      values.length = binding.externalTypes.length) signature.bindings groups) :
    signature.read (hidden ++ groups ++ checked).flatten = some (hidden ++ groups ++ checked) := by
  have hexternal : (hidden ++ groups ++ checked).flatten =
      hidden.flatten ++ groups.flatten ++ checked.flatten := by
    simp only [List.flatten_append]
  have hread := readBindings_eq hgroups hexternal
  have hindex : (if signature.hiddenResult then 1 else 0) = hidden.flatten.length := by
    rw [IsPointerGroup] at hhidden
    split at hhidden
    · rw [if_pos ‹_›]
      obtain ⟨value, rfl⟩ := hhidden
      exact Eq.refl _
    · rw [if_neg ‹_›, hhidden]
      exact Eq.refl _
  have hfirst : readPointer signature.hiddenResult ((hidden ++ groups ++ checked).flatten[0]?) =
      some hidden := by
    rw [IsPointerGroup] at hhidden
    unfold readPointer
    split at hhidden
    · rw [if_pos ‹_›]
      obtain ⟨value, rfl⟩ := hhidden
      exact Eq.refl _
    · rw [if_neg ‹_›, hhidden]
  have hlast : readPointer signature.checkedResult
      ((hidden ++ groups ++ checked).flatten[hidden.flatten.length + groups.flatten.length]?) =
        some checked := by
    rw [IsPointerGroup] at hchecked
    unfold readPointer
    split at hchecked
    · rw [if_pos ‹_›, hexternal, ← List.length_append, List.getElem?_append_right (le_refl _),
        Nat.sub_self]
      obtain ⟨value, rfl⟩ := hchecked
      exact Eq.refl _
    · rw [if_neg ‹_›, hchecked]
  rw [read, hindex, hread]
  simp only [Option.bind_eq_bind, Option.bind_some, hfirst, hlast]

theorem mapIdx_parameters {bindings : List ParameterBinding} (index : Nat) (checked : Bool)
    (hwf : ∀ binding ∈ bindings, binding.WellFormed) :
    ((bindings.flatMap ParameterBinding.externalTypes ++
      (if checked then [NativeType.pointer] else [])).mapIdx fun k type ↦
        (⟨type, attributesAt (bindingAttributes index bindings) (index + k)⟩ : NativeParameter)) =
      bindings.flatMap ParameterBinding.nativeParameters ++
        (if checked then [⟨.pointer, []⟩] else []) := by
  rw [List.mapIdx_append, mapIdx_bindings index hwf]
  refine congrArg _ ?_
  split
  · rw [List.mapIdx_cons, attributesAt_of_le hwf (by omega), List.mapIdx_nil]
  · exact Eq.refl _

/-- The parameters of the external function: the hidden pointer, those of the bindings, and the
pointer to the checked result. -/
theorem ThunkSignature.nativeParameters_eq {signature : ThunkSignature}
    (hwf : ∀ binding ∈ signature.bindings, binding.WellFormed)
    (hparameters : signature.parameters = (if signature.hiddenResult then [.pointer] else []) ++
      signature.bindings.flatMap ParameterBinding.externalTypes ++
        (if signature.checkedResult then [.pointer] else [])) :
    signature.nativeParameters =
      (if signature.hiddenResult then
        [⟨.pointer, [.sret signature.sourceReturnType signature.resultAlignment]⟩] else []) ++
      (signature.bindings.flatMap ParameterBinding.nativeParameters ++
        (if signature.checkedResult then [⟨.pointer, []⟩] else [])) := by
  rw [nativeParameters, hparameters, List.append_assoc]
  cases hhidden : signature.hiddenResult with
  | false =>
      simp only [Bool.false_eq_true, if_false, List.nil_append, attributes, hhidden]
      rw [← mapIdx_parameters 0 signature.checkedResult hwf]
      simp only [Nat.zero_add]
  | true =>
      simp only [if_true, List.singleton_append, attributes, hhidden]
      rw [List.mapIdx_cons, ← mapIdx_parameters 1 signature.checkedResult hwf]
      congr 1
      · refine congrArg (NativeParameter.mk _) ?_
        exact congrArg (_ :: ·) (attributesAt_of_lt hwf (by omega))
      · refine congrArg (List.mapIdx · _) (funext fun k ↦ funext fun type ↦ ?_)
        refine congrArg (NativeParameter.mk _) ?_
        rw [Nat.add_comm k 1, attributesAt, attributesAt, List.filter_cons_of_neg (by simp; omega)]

theorem mapM_append_some {α β : Type} {f : α → Option β} {l l' : List α} {r r' : List β}
    (h : l.mapM f = some r) (h' : l'.mapM f = some r') : (l ++ l').mapM f = some (r ++ r') := by
  rw [List.mapM_append, h, h']
  exact Eq.refl _

theorem passings_of_passedAs {bindings : List ParameterBinding} {parameters : List (List CShape)}
    (h : List.Forall₂ (PassedAs allocSize) bindings parameters) :
    (bindings.flatMap ParameterBinding.nativeParameters).mapM (NativeParameter.passing allocSize) =
      some ((parameters.map (·.map CShape.passing)).map (·.flatMap Passing.expand)).flatten := by
  induction h with
  | nil => exact Eq.refl _
  | cons hhead _ ih =>
      rw [List.flatMap_cons, List.map_cons, List.map_cons, List.flatten_cons]
      exact mapM_append_some hhead.passing ih

theorem length_of_passedAs {binding : ParameterBinding} {types : List CShape}
    (h : PassedAs allocSize binding types) :
    ((types.map CShape.passing).flatMap Passing.expand).length = binding.externalTypes.length := by
  rw [← (mapM_option_eq_some h.passing).length_eq, ParameterBinding.nativeParameters,
    List.length_map]

theorem isPointerGroup_passGroupsEach (s : Taken) (present : Bool) :
    IsPointerGroup present (s.passGroupsEach (Prototype.pointerGroup present)) := by
  cases present with
  | false => exact Eq.refl _
  | true => exact ⟨_, Eq.refl _⟩

theorem expand_pointerGroup (present : Bool) :
    (Prototype.pointerGroup present).map (·.flatMap Passing.expand) =
      Prototype.pointerGroup present := by
  cases present <;> exact Eq.refl _

theorem passing_pointer (present : Bool) (attributes : List NativeAttribute)
    (h : NativeParameter.byval ⟨.pointer, attributes⟩ = none) :
    (if present then [(⟨.pointer, attributes⟩ : NativeParameter)] else []).mapM
      (NativeParameter.passing allocSize) = some (Prototype.pointerGroup present).flatten := by
  cases present with
  | false => exact Eq.refl _
  | true =>
      have hpassing : NativeParameter.passing allocSize ⟨.pointer, attributes⟩ =
          some (.registers [.integer]) := by
        rw [NativeParameter.passing, h]
        exact Eq.refl _
      rw [if_pos (Eq.refl _), List.mapM_cons, hpassing]
      exact Eq.refl _

/-- A signature with the bindings of these C parameters reads what LLVM passes for them. -/
theorem places_eq {signature : ThunkSignature} {prototype : Prototype}
    (hparameters : signature.parameters = (if signature.hiddenResult then [.pointer] else []) ++
      signature.bindings.flatMap ParameterBinding.externalTypes ++
        (if signature.checkedResult then [.pointer] else []))
    (hbindings : List.Forall₂ (PassedAs allocSize) signature.bindings prototype.parameters)
    (hhidden : signature.hiddenResult = prototype.hiddenResult)
    (hchecked : signature.checkedResult = prototype.checkedResult) :
    signature.places allocSize =
      some (Taken.start.passGroups (prototype.groups.map (·.flatMap Passing.expand))) := by
  have hwf : ∀ binding ∈ signature.bindings, binding.WellFormed := by
    intro binding hbinding
    obtain ⟨types, -, hpassed⟩ := forall₂_mem_left hbindings hbinding
    exact hpassed.wellFormed
  have hpassings : signature.nativeParameters.mapM (NativeParameter.passing allocSize) =
      some (prototype.groups.map (·.flatMap Passing.expand)).flatten := by
    rw [signature.nativeParameters_eq hwf hparameters, Prototype.groups, List.map_append,
      List.map_append, expand_pointerGroup, expand_pointerGroup, List.flatten_append,
      List.flatten_append, List.append_assoc, ← hhidden, ← hchecked]
    exact mapM_append_some (passing_pointer _ _ (Eq.refl _))
      (mapM_append_some (passings_of_passedAs hbindings) (passing_pointer _ _ (Eq.refl _)))
  have hread : signature.read
      (Taken.start.passGroupsEach (prototype.groups.map (·.flatMap Passing.expand))).flatten =
        some (Taken.start.passGroupsEach (prototype.groups.map (·.flatMap Passing.expand))) := by
    rw [Prototype.groups, List.map_append, List.map_append, expand_pointerGroup,
      expand_pointerGroup, Taken.passGroupsEach_append, Taken.passGroupsEach_append]
    refine ThunkSignature.read_eq ?_ ?_ ?_
    · rw [hhidden]
      exact isPointerGroup_passGroupsEach _ _
    · rw [hchecked]
      exact isPointerGroup_passGroupsEach _ _
    · refine forall₂_trans (fun binding types places hpassed hlength ↦ ⟨hpassed.wellFormed, ?_⟩)
        hbindings (List.forall₂_map_left_iff.mp (List.forall₂_map_left_iff.mp
          (Taken.forall₂_passGroupsEach _ _)))
      exact hlength.trans (length_of_passedAs hpassed)
  rw [ThunkSignature.places, hpassings]
  simp only [Option.bind_eq_bind, Option.bind_some, Taken.passEach_flatten, hread,
    Taken.map_flatten_passGroupsEach]

theorem classifySysv_of_classify {classifier : NativeAbiClassifier} {typeNode : MirType}
    {position : NativeAbiPosition} {classified : NativeAbiValue}
    (haggregate : isAggregate typeNode = true)
    (h : classifier.classify typeNode position = .ok classified) :
    classifier.classifySysv typeNode position = .ok classified.mode := by
  obtain ⟨layout, -, h⟩ := bind_eq_ok.mp h
  cases typeNode with
  | slice | struct =>
      obtain ⟨mode, hmode, h⟩ := bind_eq_ok.mp h
      cases h
      exact hmode
  | _ => cases haggregate

theorem hiddenResult_of_classifySysv {classifier : NativeAbiClassifier} {returnType : MirType}
    {fields : List CShape} {source : NativeType} {classified : NativeAbiValue}
    {result : ThunkResult} (htype : HasCShape classifier.structs returnType (.struct fields))
    (hvoid : returnType ≠ .void) (haggregate : isAggregate returnType = true)
    (hclassified : classifier.classifyReturn returnType = .ok classified)
    (h : thunkResult returnType source classified false = .ok result) :
    result.hiddenResult = decide (16 < (CShape.struct fields).size) := by
  rw [thunkResult, if_neg (by decide), if_neg hvoid, if_pos haggregate] at h
  rcases NativeAbiClassifier.classifySysv_eq htype (classifySysv_of_classify haggregate hclassified)
    with ⟨hlt, alignment, hmode⟩ | ⟨hle, registers, hmode, -, -⟩ <;> rw [hmode] at h
  · cases h
    exact (decide_eq_true hlt).symm
  · obtain ⟨coercion, -, h⟩ := bind_eq_ok.mp h
    cases h
    exact (decide_eq_false (not_lt.mpr hle)).symm

/-- A thunk takes a hidden pointer when C returns the result in memory. -/
theorem hiddenResult_eq {classifier : NativeAbiClassifier} {returnType : MirType} {checked : Bool}
    {source : NativeType} {classified : NativeAbiValue} {result : ThunkResult} {hidden : Bool}
    (hclassified : classifier.classifyReturn returnType = .ok classified)
    (h : thunkResult returnType source classified checked = .ok result)
    (hhidden : if checked then hidden = false
      else ReturnedInMemory classifier.structs returnType hidden) :
    result.hiddenResult = hidden := by
  cases checked with
  | true =>
      cases h
      exact hhidden.symm
  | false =>
      rw [if_neg (by decide)] at hhidden
      cases hhidden with
      | void =>
          cases h
          exact Eq.refl _
      | @value _ type htype =>
          cases htype with
          | bool | i32 | u32 | i64 | u64 | f64 | pointer =>
              cases h
              exact Eq.refl _
          | slice =>
              exact hiddenResult_of_classifySysv .slice MirType.noConfusion (Eq.refl _) hclassified h
          | struct hfound htypes =>
              exact hiddenResult_of_classifySysv (.struct hfound htypes) MirType.noConfusion
                (Eq.refl _) hclassified h

/-- Every parameter is read from the place where the ABI puts it if and only if no structure of two
eightbytes finds a register for one of them and not for both. -/
theorem thunk_places_iff {structs : List MirStruct} {function : MirFunction} {checked : Bool}
    {signature : ThunkSignature} {prototype : Prototype}
    (hthunk : exportThunk structs function checked = .ok signature)
    (hprototype : IsPrototype structs function checked prototype)
    (hllvm : LaysOutAsC allocSize structs) :
    signature.places allocSize = some prototype.places ↔
      Taken.start.NoSplit prototype.arguments := by
  obtain ⟨classifier, hclassifier, hsignature⟩ := bind_eq_ok.mp hthunk
  obtain rfl := structs_of_new hclassifier
  obtain ⟨source, hsource, hsignature⟩ := bind_eq_ok.mp hsignature
  obtain ⟨classified, hclassified, hsignature⟩ := bind_eq_ok.mp hsignature
  obtain ⟨result, hresult, hsignature⟩ := bind_eq_ok.mp hsignature
  obtain ⟨bindings, hbindings, hsignature⟩ := bind_eq_ok.mp hsignature
  cases hsignature
  have hbinding : List.Forall₂ (fun binding parameter ↦
      parameterBinding classifier (MirParam.typeNode parameter) = .ok binding) bindings
        function.params := (mapM_eq_ok hbindings).flip
  have hpassed : List.Forall₂ (PassedAs allocSize) bindings prototype.parameters :=
    forall₂_trans (S := CParameters classifier.structs) (T := PassedAs allocSize)
      (fun _ _ _ hbinding hparameter ↦ passedAs_parameter hllvm hparameter hbinding) hbinding
      hprototype.parameters
  rw [places_eq (Eq.refl _) hpassed (hiddenResult_eq hclassified hresult hprototype.hiddenResult)
    hprototype.checkedResult.symm, Option.some_inj, Prototype.places, Prototype.arguments]
  exact Taken.passGroups_expand_iff

/-! ## Every thunk has a prototype -/

theorem exists_cShape_of_classify {classifier : NativeAbiClassifier} {typeNode : MirType}
    {position : NativeAbiPosition} {classified : NativeAbiValue}
    (hvoid : NoVoidFields classifier.structs) (htype : typeNode ≠ .void)
    (h : classifier.classify typeNode position = .ok classified) :
    ∃ type, HasCShape classifier.structs typeNode type := by
  obtain ⟨layout, hlayout, -⟩ := bind_eq_ok.mp h
  exact NativeAbiClassifier.exists_cShape hvoid htype hlayout

theorem exists_cParameters {classifier : NativeAbiClassifier} {parameter : MirParam}
    {binding : ParameterBinding} (hvoid : NoVoidFields classifier.structs)
    (htype : parameter.typeNode ≠ .void)
    (h : parameterBinding classifier parameter.typeNode = .ok binding) :
    ∃ types, CParameters classifier.structs parameter types := by
  obtain ⟨name, typeNode⟩ := parameter
  cases typeNode with
  | slice element => exact ⟨_, .slice⟩
  | _ =>
      obtain ⟨classified, hclassified, -⟩ := bind_eq_ok.mp h
      obtain ⟨type, hc⟩ := exists_cShape_of_classify hvoid htype hclassified
      exact ⟨_, .value (fun _ ↦ MirType.noConfusion) hc⟩

theorem exists_prototype {structs : List MirStruct} {function : MirFunction} {checked : Bool}
    {signature : ThunkSignature} (hvoid : NoVoidFields structs)
    (hparams : ∀ parameter ∈ function.params, parameter.typeNode ≠ .void)
    (hthunk : exportThunk structs function checked = .ok signature) :
    ∃ prototype, IsPrototype structs function checked prototype := by
  obtain ⟨classifier, hclassifier, hsignature⟩ := bind_eq_ok.mp hthunk
  obtain rfl := structs_of_new hclassifier
  obtain ⟨source, -, hsignature⟩ := bind_eq_ok.mp hsignature
  obtain ⟨classified, hclassified, hsignature⟩ := bind_eq_ok.mp hsignature
  obtain ⟨result, -, hsignature⟩ := bind_eq_ok.mp hsignature
  obtain ⟨bindings, hbindings, -⟩ := bind_eq_ok.mp hsignature
  have hparameter : ∀ parameter ∈ function.params,
      ∃ types, CParameters classifier.structs parameter types := by
    intro parameter hparameter
    obtain ⟨binding, -, hbinding⟩ := forall₂_mem_left (mapM_eq_ok hbindings) hparameter
    exact exists_cParameters hvoid (hparams parameter hparameter) hbinding
  obtain ⟨parameters, hparameters⟩ := exists_forall₂ hparameter
  obtain ⟨hidden, hhidden⟩ : ∃ hidden, if checked then hidden = false
      else ReturnedInMemory classifier.structs function.returnType hidden := by
    cases checked with
    | true => exact ⟨false, Eq.refl _⟩
    | false =>
        by_cases hreturn : function.returnType = .void
        · rw [hreturn]
          exact ⟨false, .void⟩
        · obtain ⟨type, htype⟩ := exists_cShape_of_classify hvoid hreturn hclassified
          exact ⟨_, .value htype⟩
  exact ⟨⟨hidden, parameters, _⟩, hparameters, hhidden, Eq.refl _⟩

/-! ## A structure at the point of exhaustion -/

/-- A structure of two `i64`. -/
def pairStructs : List MirStruct :=
  [⟨"Pair", [⟨"x", .primitive .i64⟩, ⟨"y", .primitive .i64⟩]⟩]

/-- A function of `n` integers and a pair. -/
def pairFunction (n : Nat) : MirFunction where
  name := "f"
  exported := true
  params := List.replicate n ⟨"a", .primitive .i64⟩ ++ [⟨"p", .struct "Pair"⟩]
  returnType := .primitive .i64
  locals := []
  blocks := []

def pairPrototype (n : Nat) : Prototype where
  hiddenResult := false
  parameters := List.replicate n [.scalar .integer .eight] ++
    [[.struct [.scalar .integer .eight, .scalar .integer .eight]]]
  checkedResult := false

theorem hasCShape_pair {type : CShape} : HasCShape pairStructs (.struct "Pair") type ↔
    type = .struct [.scalar .integer .eight, .scalar .integer .eight] := by
  constructor
  · intro h
    cases h with
    | struct hfound htypes =>
        cases hfound
        rcases htypes with _ | ⟨hx, _ | ⟨hy, _ | _⟩⟩
        cases hx
        cases hy
        exact Eq.refl _
  · rintro rfl
    exact .struct (Eq.refl _) (.cons .i64 (.cons .i64 .nil))

theorem isPrototype_pair (n : Nat) :
    IsPrototype pairStructs (pairFunction n) false (pairPrototype n) where
  parameters := by
    have hpair : CParameters pairStructs ⟨"p", .struct "Pair"⟩
        [.struct [.scalar .integer .eight, .scalar .integer .eight]] :=
      .value (fun _ ↦ MirType.noConfusion) (hasCShape_pair.mpr (Eq.refl _))
    refine List.rel_append ?_ (.cons hpair .nil)
    induction n with
    | zero => exact .nil
    | succ n ih => exact .cons (.value (fun _ ↦ MirType.noConfusion) .i64) ih
  hiddenResult := .value .i64
  checkedResult := Eq.refl _

theorem laysOutAsC_pair : LaysOutAsC (fun _ ↦ 16) pairStructs := by
  intro name type h
  obtain rfl : name = "Pair" := by
    cases h with
    | struct hfound _ =>
        by_contra hne
        rw [pairStructs, List.find?_cons_of_neg (by simpa using Ne.symm hne)] at hfound
        cases hfound
  obtain rfl := hasCShape_pair.mp h
  exact Eq.refl _

/-- Behind four integers the pair has two registers. -/
theorem thunk_places_pair : ∃ signature,
    exportThunk pairStructs (pairFunction 4) false = .ok signature ∧ signature.places (fun _ ↦ 16) = some (pairPrototype 4).places :=
  ⟨_, Eq.refl _, (thunk_places_iff (Eq.refl _) (isPrototype_pair 4) laysOutAsC_pair).mpr (by decide)⟩

/-- Behind five the thunk takes its first half from the last register and its second half from the
stack, where C puts the whole. -/
theorem thunk_places_split : ∃ signature,
    exportThunk pairStructs (pairFunction 5) false = .ok signature ∧ IsPrototype pairStructs (pairFunction 5) false (pairPrototype 5) ∧
      signature.places (fun _ ↦ 16) =
        some [[.integer 0], [.integer 1], [.integer 2], [.integer 3], [.integer 4],
          [.integer 5, .stack 0]] ∧
      (pairPrototype 5).places =
        [[.integer 0], [.integer 1], [.integer 2], [.integer 3], [.integer 4],
          [.stack 0, .stack 8]] :=
  ⟨_, Eq.refl _, isPrototype_pair 5, Eq.refl _, Eq.refl _⟩

/-- The places of the two sides are not always the same. -/
theorem not_thunk_places : ¬ ∀ (allocSize : NativeType → Nat) (structs : List MirStruct)
    (function : MirFunction) (checked : Bool) (signature : ThunkSignature) (prototype : Prototype),
    exportThunk structs function checked = .ok signature →
      IsPrototype structs function checked prototype → LaysOutAsC allocSize structs →
        signature.places allocSize = some prototype.places := by
  intro h
  obtain ⟨signature, hthunk, hprototype, hplaces, hc⟩ := thunk_places_split
  have heq := h _ _ _ _ _ _ hthunk hprototype laysOutAsC_pair
  rw [hplaces, hc] at heq
  exact absurd heq (by decide)

end CalcKernel
