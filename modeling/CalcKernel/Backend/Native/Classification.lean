import Mathlib.Algebra.Group.Nat.Defs
import CalcKernel.Backend.Native.Thunk
import CalcKernel.Lib.Assoc

/-!
# The classifier follows the C layout

Where the classifier succeeds, its layouts are those of the C types, and the classes of its
registers are those of the eightbytes.
-/

namespace CalcKernel

open Lib

/-! ## Alignment -/

theorem and_sub_mask {x k : Nat} (hx : x < 2 ^ 32) (hk : k ≤ 32) :
    x &&& (2 ^ 32 - 2 ^ k) = x / 2 ^ k * 2 ^ k := by
  have hsub : 2 ^ 32 - 2 ^ k = (2 ^ (32 - k) - 1) * 2 ^ k := by
    rw [Nat.sub_mul, ← Nat.pow_add, Nat.sub_add_cancel hk, Nat.one_mul]
  refine Nat.eq_of_testBit_eq fun i ↦ ?_
  rw [Nat.testBit_and, hsub, Nat.testBit_mul_two_pow, Nat.testBit_mul_two_pow,
    Nat.testBit_two_pow_sub_one, Nat.testBit_div_two_pow]
  by_cases hi : k ≤ i
  · have hadd : k + (i - k) = i := by omega
    simp only [hi, decide_true, Bool.true_and]
    rw [Nat.sub_add_cancel hi]
    by_cases hlt : i - k < 32 - k
    · simp [hlt]
    · have hbit : x.testBit i = false :=
        Nat.testBit_lt_two_pow (lt_of_lt_of_le hx (Nat.pow_le_pow_right (by decide) (by omega)))
      simp [hbit]
  · simp [hi]

theorem alignTo_eq {w : Width} {value aligned : Nat} (h : alignTo value w.bytes = .ok aligned) :
    aligned = w.alignUp value := by
  unfold alignTo at h
  dsimp only at h
  split at h
  · rename_i hlt
    injection h with h
    rw [← h, Width.alignUp]
    cases w with
    | one => exact and_sub_mask (k := 0) hlt (by decide)
    | two => exact and_sub_mask (k := 1) hlt (by decide)
    | four => exact and_sub_mask (k := 2) hlt (by decide)
    | eight => exact and_sub_mask (k := 3) hlt (by decide)
  · cases h

theorem Width.max_assoc (u v w : Width) : (u.max v).max w = u.max (v.max w) := by
  cases u <;> cases v <;> cases w <;> decide

theorem Width.max_one (w : Width) : w.max .one = w := by
  cases w <;> decide

theorem Width.one_max (w : Width) : Width.one.max w = w := by
  cases w <;> decide

namespace NativeAbiClassifier

variable {classifier : NativeAbiClassifier}

/-! ## Layouts -/

theorem structureNamed_eq {name : String} {declared declared' : MirStruct}
    (h : classifier.structureNamed name = .ok declared)
    (hfound : classifier.structs.find? (·.name = name) = some declared') : declared = declared' := by
  unfold structureNamed at h
  rw [hfound] at h
  injection h with h
  exact h.symm

/-- A layout of the source is the layout of the C type. -/
def IsLayoutOf (layout : NativeAbiLayout) (type : CShape) : Prop :=
  layout.size = type.size ∧ layout.alignment = type.align.bytes

theorem layoutFields_eq {layout : MirType → Except NativeAbiError NativeAbiLayout} {name : String}
    (alignment : Width)
    (hlayout : ∀ typeNode type fieldLayout, HasCShape classifier.structs typeNode type →
      layout typeNode = .ok fieldLayout → IsLayoutOf fieldLayout type)
    {fields : List MirStructField} {types : List CShape}
    (htypes : List.Forall₂ (HasCShape classifier.structs) (fields.map (·.typeNode)) types)
    {size : Nat} {result : NativeAbiLayout}
    (h : layoutFields layout name size alignment.bytes fields = .ok result) :
    result.size = (alignment.max (CShape.fieldsAlign types)).alignUp (CShape.fieldsEnd size types) ∧
      result.alignment = (alignment.max (CShape.fieldsAlign types)).bytes := by
  induction fields generalizing types size alignment with
  | nil =>
      cases htypes
      rw [layoutFields] at h
      obtain ⟨aligned, haligned, h⟩ := bind_eq_ok.mp h
      cases h
      rw [CShape.fieldsAlign, CShape.fieldsEnd, Width.max_one]
      exact ⟨alignTo_eq haligned, Eq.refl _⟩
  | cons field fields ih =>
      cases htypes with
      | @cons _ type _ types hfield hrest =>
          rw [layoutFields] at h
          obtain ⟨fieldLayout, hok, h⟩ := bind_eq_ok.mp h
          obtain ⟨aligned, haligned, h⟩ := bind_eq_ok.mp h
          obtain ⟨hsize, halign⟩ := hlayout _ _ _ hfield hok
          rw [halign] at haligned h
          rw [hsize, alignTo_eq haligned, ← Width.bytes_max] at h
          split at h
          · rw [CShape.fieldsAlign, CShape.fieldsEnd, ← Width.max_assoc]
            exact ih _ hrest h
          · cases h

theorem layoutInner_eq {fuel : Nat} {active : List String} {typeNode : MirType} {type : CShape}
    {result : NativeAbiLayout} (htype : HasCShape classifier.structs typeNode type)
    (h : classifier.layoutInner fuel active typeNode = .ok result) : IsLayoutOf result type := by
  induction fuel generalizing active typeNode type result with
  | zero =>
      cases htype with
      | struct => cases h
      | _ => cases h; constructor <;> decide
  | succ fuel ih =>
      cases htype with
      | @struct name declared types hfound htypes =>
          rw [layoutInner] at h
          split at h
          · cases h
          · obtain ⟨declared', hdeclared, h⟩ := bind_eq_ok.mp h
            obtain rfl := structureNamed_eq hdeclared hfound
            have hfields := layoutFields_eq .one
              (fun _ _ _ htype hok ↦ ih htype hok) htypes h
            rw [Width.one_max] at hfields
            rw [IsLayoutOf, CShape.size, CShape.align]
            exact hfields
      | _ => cases h; constructor <;> decide

theorem layout_eq {typeNode : MirType} {type : CShape} {result : NativeAbiLayout}
    (htype : HasCShape classifier.structs typeNode type)
    (h : classifier.layout typeNode = .ok result) : IsLayoutOf result type :=
  layoutInner_eq htype h

end NativeAbiClassifier

/-! ## Chunks -/

def NativeAbiRegisterClass.regClass : NativeAbiRegisterClass → RegClass
  | .integer => .integer
  | .floating => .sse

/-- The class of a chunk so far. -/
def AggregateChunk.regClass (chunk : AggregateChunk) : Option RegClass :=
  chunk.cls.map NativeAbiRegisterClass.regClass

/-- The chunks have been classified further by these scalars. -/
def ClassifiedBy (leaves : List (Nat × RegClass)) (chunks chunks' : List AggregateChunk) : Prop :=
  ∀ k, chunks'[k]?.map AggregateChunk.regClass =
    chunks[k]?.map fun chunk ↦ joinClass chunk.regClass (eightbyteClass leaves k)

namespace ClassifiedBy

variable {leaves leaves' : List (Nat × RegClass)} {chunks chunks' chunks'' : List AggregateChunk}

theorem nil (chunks : List AggregateChunk) : ClassifiedBy [] chunks chunks := by
  intro k
  have hnone : eightbyteClass [] k = none := Eq.refl _
  simp only [hnone, joinClass_none]

theorem trans (h : ClassifiedBy leaves chunks chunks') (h' : ClassifiedBy leaves' chunks' chunks'') :
    ClassifiedBy (leaves ++ leaves') chunks chunks'' := by
  intro k
  have hmap : (chunks'[k]?.map fun chunk ↦ joinClass chunk.regClass (eightbyteClass leaves' k)) =
      (chunks'[k]?.map AggregateChunk.regClass).map
        fun cls ↦ joinClass cls (eightbyteClass leaves' k) := by
    rw [Option.map_map]
    exact Eq.refl _
  rw [h' k, hmap, h k, Option.map_map]
  refine congrArg (Option.map · _) (funext fun chunk ↦ ?_)
  rw [Function.comp_apply, joinClass_assoc, eightbyteClass_append]

end ClassifiedBy

theorem regClass_mark (chunk : AggregateChunk) (chunkOffset size : Nat)
    (cls : NativeAbiRegisterClass) :
    (chunk.mark chunkOffset size cls).regClass = joinClass chunk.regClass (some cls.regClass) := by
  obtain ⟨old, used⟩ := chunk
  rcases old with _ | _ | _ <;> cases cls <;> exact Eq.refl _

theorem eightbyteClass_singleton (offset : Nat) (cls : RegClass) (k : Nat) :
    eightbyteClass [(offset, cls)] k = if offset / 8 = k then some cls else none := by
  cases cls <;> by_cases hk : offset / 8 = k <;> simp [eightbyteClass, hk]

/-- A scalar that lies in one eightbyte marks that one. -/
theorem markChunk_of_within (cls : NativeAbiRegisterClass) {chunks : List AggregateChunk}
    {offset size : Nat} (h : offset % 8 + size ≤ 8) :
    ClassifiedBy [(offset, cls.regClass)] chunks (markChunk chunks offset size cls) := by
  intro k
  rw [markChunk, markChunks, if_neg (by omega), List.getElem?_modify, eightbyteClass_singleton]
  split
  · rw [Option.map_eq_map, Option.map_map]
    exact congrArg (Option.map · _) (funext fun chunk ↦ regClass_mark chunk _ _ _)
  · simp only [joinClass_none, Option.map_eq_map, Option.map_id_fun', id_eq]

namespace NativeAbiClassifier

variable {classifier : NativeAbiClassifier}

/-- The scalars of the C type are marked in the order of the fields. -/
theorem classifyFields_eq (base offset : Nat)
    {classify : MirType → Nat → List AggregateChunk → Except NativeAbiError (List AggregateChunk)}
    (hclassify : ∀ typeNode type offset chunks chunks', HasCShape classifier.structs typeNode type →
      type.align.bytes ∣ offset → classify typeNode offset chunks = .ok chunks' →
        ClassifiedBy (type.leaves offset) chunks chunks')
    {fields : List MirStructField} {types : List CShape}
    (htypes : List.Forall₂ (HasCShape classifier.structs) (fields.map (·.typeNode)) types)
    {chunks chunks' : List AggregateChunk}
    (hbase : ∀ type ∈ types, type.align.bytes ∣ base)
    (h : classifier.classifyFields classify (base + offset) chunks fields = .ok chunks') :
    ClassifiedBy (CShape.fieldsLeaves base offset types) chunks chunks' := by
  induction fields generalizing types offset chunks with
  | nil =>
      cases htypes
      rw [classifyFields] at h
      cases h
      rw [CShape.fieldsLeaves]
      exact ClassifiedBy.nil _
  | cons field fields ih =>
      cases htypes with
      | @cons _ type _ types hfield hrest =>
          rw [classifyFields] at h
          obtain ⟨layout, hlayout, h⟩ := bind_eq_ok.mp h
          obtain ⟨aligned, haligned, h⟩ := bind_eq_ok.mp h
          obtain ⟨marked, hmarked, h⟩ := bind_eq_ok.mp h
          obtain ⟨hsize, halign⟩ := layout_eq hfield hlayout
          have hdvd := hbase type List.mem_cons_self
          rw [halign] at haligned
          rw [alignTo_eq haligned, Width.alignUp_add hdvd] at hmarked h
          rw [hsize, Nat.add_assoc] at h
          rw [CShape.fieldsLeaves]
          refine (hclassify _ _ _ _ _ hfield ?_ hmarked).trans
            (ih _ hrest (fun t ht ↦ hbase t (List.mem_cons_of_mem _ ht)) h)
          exact Nat.dvd_add hdvd (Width.dvd_alignUp _ _)

theorem classifySysvChunks_of_not_struct {fuel : Nat} {typeNode : MirType} {type : CShape}
    {offset : Nat} {chunks chunks' : List AggregateChunk}
    (htype : HasCShape classifier.structs typeNode type) (hdvd : type.align.bytes ∣ offset)
    (hstruct : ∀ name, typeNode ≠ .struct name)
    (h : classifier.classifySysvChunks fuel typeNode offset chunks = .ok chunks') :
    ClassifiedBy (type.leaves offset) chunks chunks' := by
  cases htype with
  | struct => exact absurd (Eq.refl _) (hstruct _)
  | slice =>
      have hoffset : 8 ∣ offset := hdvd
      have hleaves : (CShape.struct [.scalar .integer .eight, .scalar .integer .four]).leaves offset =
          [(offset, RegClass.integer)] ++ [(offset + 8, RegClass.integer)] := by
        simp [CShape.leaves, CShape.fieldsLeaves, CShape.align, CShape.size, Width.alignUp, Width.bytes]
      rw [classifySysvChunks] at h
      cases h
      rw [hleaves]
      exact (markChunk_of_within .integer (by omega)).trans
        (markChunk_of_within .integer (by omega))
  | bool | i32 | u32 | i64 | u64 | f64 | pointer =>
      rw [CShape.align, Width.bytes] at hdvd
      rw [classifySysvChunks] at h
      cases h
      rw [CShape.leaves]
      exact markChunk_of_within _ (by omega)

theorem classifySysvChunks_eq {fuel : Nat} {typeNode : MirType} {type : CShape} {offset : Nat}
    {chunks chunks' : List AggregateChunk} (htype : HasCShape classifier.structs typeNode type)
    (hdvd : type.align.bytes ∣ offset)
    (h : classifier.classifySysvChunks fuel typeNode offset chunks = .ok chunks') :
    ClassifiedBy (type.leaves offset) chunks chunks' := by
  induction fuel generalizing typeNode type offset chunks chunks' with
  | zero =>
      by_cases hstruct : ∃ name, typeNode = .struct name
      · obtain ⟨name, rfl⟩ := hstruct
        cases h
      · exact classifySysvChunks_of_not_struct htype hdvd (not_exists.mp hstruct) h
  | succ fuel ih =>
      cases htype with
      | @struct name declared types hfound htypes =>
          rw [classifySysvChunks] at h
          obtain ⟨declared', hdeclared, h⟩ := bind_eq_ok.mp h
          obtain rfl := structureNamed_eq hdeclared hfound
          rw [CShape.align] at hdvd
          rw [CShape.leaves]
          exact classifyFields_eq offset 0
            (fun _ _ _ _ _ htype hdvd hok ↦ ih htype hdvd hok) htypes
            (fun type htype ↦ Nat.dvd_trans (CShape.align_dvd_fieldsAlign htype) hdvd) h
      | _ =>
          exact classifySysvChunks_of_not_struct (by constructor) hdvd (fun _ ↦ MirType.noConfusion) h

/-! ## Passing modes -/

/-- Every eightbyte of a type of at most two has a class. -/
theorem eightbyteClass_leaves {type : CShape} (hsize : type.size ≤ 16) {k : Nat}
    (hk : k < eightbytes type.size) : (eightbyteClass (type.leaves 0) k).isSome := by
  refine eightbyteClass_isSome ?_
  rw [eightbytes] at hk
  obtain rfl | rfl : k = 0 ∨ k = 1 := by omega
  · obtain ⟨leaf, hleaf, heq⟩ := type.exists_leaf_first 0 (by omega)
    exact ⟨leaf, hleaf, by omega⟩
  · obtain ⟨leaf, hleaf, hle⟩ := type.exists_leaf_beyond 0 8 (Nat.dvd_zero _) (Nat.dvd_refl _)
      (by omega) (by omega)
    have hlt := type.leaves_lt 0 leaf hleaf
    exact ⟨leaf, hleaf, by omega⟩

theorem classes_of_classifiedBy {leaves : List (Nat × RegClass)} {n : Nat}
    {chunks : List AggregateChunk}
    (h : ClassifiedBy leaves (List.replicate n AggregateChunk.default) chunks)
    (hsome : ∀ k < n, (eightbyteClass leaves k).isSome) :
    (List.range n).filterMap (eightbyteClass leaves) =
      chunks.map fun chunk ↦ (chunk.cls.getD .integer).regClass := by
  have hmap : (List.range n).map (eightbyteClass leaves) = chunks.map AggregateChunk.regClass := by
    refine List.ext_getElem? fun k ↦ ?_
    rw [List.getElem?_map, List.getElem?_map, h k, List.getElem?_replicate]
    by_cases hk : k < n
    · rw [if_pos hk, List.getElem?_range hk]
      exact congrArg some (none_joinClass _).symm
    · rw [if_neg hk, List.getElem?_eq_none (by simpa using hk)]
      exact Eq.refl _
  have hdefault (chunk : AggregateChunk) :
      (chunk.cls.getD .integer).regClass = chunk.regClass.getD .integer := by
    rw [AggregateChunk.regClass]
    cases chunk.cls <;> exact Eq.refl _
  calc (List.range n).filterMap (eightbyteClass leaves)
      = (List.range n).filterMap fun k ↦ some ((eightbyteClass leaves k).getD .integer) := by
        refine List.filterMap_congr fun k hk ↦ ?_
        obtain ⟨cls, hcls⟩ := Option.isSome_iff_exists.mp (hsome k (List.mem_range.mp hk))
        rw [hcls, Option.getD_some]
    _ = ((List.range n).map (eightbyteClass leaves)).map (·.getD .integer) := by
        rw [List.filterMap_eq_map', List.map_map]
        exact Eq.refl _
    _ = chunks.map fun chunk ↦ (chunk.cls.getD .integer).regClass := by
        rw [hmap, List.map_map]
        exact List.map_congr_left fun chunk _ ↦ (hdefault chunk).symm

/-- A direct mode has one register for each eightbyte, of its class. -/
theorem classifySysv_eq {typeNode : MirType} {fields : List CShape} {position : NativeAbiPosition}
    {mode : NativeAbiPassMode} (htype : HasCShape classifier.structs typeNode (.struct fields))
    (h : classifier.classifySysv typeNode position = .ok mode) :
    (16 < (CShape.struct fields).size ∧ ∃ alignment, mode = .indirect (position = .parameter) alignment) ∨
      ((CShape.struct fields).size ≤ 16 ∧ ∃ registers, mode = .direct registers ∧
        (CShape.struct fields).passing = .registers (registers.map (·.cls.regClass)) ∧
          ∀ register ∈ registers, register.bits ≤ 64) := by
  unfold classifySysv at h
  obtain ⟨layout, hlayout, h⟩ := bind_eq_ok.mp h
  obtain ⟨hsize, -⟩ := layout_eq htype hlayout
  rw [hsize] at h
  split at h
  · cases h
    exact Or.inl ⟨‹_›, _, Eq.refl _⟩
  · rename_i hle
    obtain ⟨chunks, hchunks, h⟩ := bind_eq_ok.mp h
    cases h
    refine Or.inr ⟨by omega, _, Eq.refl _, ?_, ?_⟩
    · have hdvd : (CShape.struct fields).align.bytes ∣ 0 := Nat.dvd_zero _
      have hclasses := classes_of_classifiedBy (classifySysvChunks_eq htype hdvd hchunks)
        fun k hk ↦ eightbyteClass_leaves (by omega) hk
      rw [CShape.passing, if_neg (by omega), List.map_map]
      exact congrArg Passing.registers hclasses
    · intro register hregister
      obtain ⟨chunk, -, rfl⟩ := List.mem_map.mp hregister
      dsimp only [normalizedIntegerWidth]
      split_ifs <;> decide

/-! ## Types with a layout have a C type -/

theorem exists_cShape (hvoid : NoVoidFields classifier.structs) {fuel : Nat} {active : List String}
    {typeNode : MirType} (htype : typeNode ≠ .void) {layout : NativeAbiLayout}
    (h : classifier.layoutInner fuel active typeNode = .ok layout) :
    ∃ type, HasCShape classifier.structs typeNode type := by
  induction fuel generalizing active typeNode layout with
  | zero =>
      cases typeNode with
      | struct name => cases h
      | void => exact absurd (Eq.refl _) htype
      | pointer element => exact ⟨_, .pointer⟩
      | slice element => exact ⟨_, .slice⟩
      | primitive name => cases name <;> exact ⟨_, by constructor⟩
  | succ fuel ih =>
      cases typeNode with
      | struct name =>
          rw [layoutInner] at h
          split at h
          · cases h
          · obtain ⟨declared, hdeclared, h⟩ := bind_eq_ok.mp h
            have hfound : classifier.structs.find? (·.name = name) = some declared := by
              unfold structureNamed at hdeclared
              split at hdeclared
              · cases hdeclared
                assumption
              · cases hdeclared
            have hfields : ∀ typeNode ∈ declared.fields.map (·.typeNode),
                ∃ type, HasCShape classifier.structs typeNode type := by
              intro typeNode hmem
              obtain ⟨field, hfield, rfl⟩ := List.mem_map.mp hmem
              obtain ⟨fieldLayout, hfieldLayout⟩ := layout_field h hfield
              exact ih (hvoid declared (List.mem_of_find?_eq_some hfound) field hfield) hfieldLayout
            obtain ⟨types, htypes⟩ := exists_forall₂ hfields
            exact ⟨_, .struct hfound htypes⟩
      | void => exact absurd (Eq.refl _) htype
      | pointer element => exact ⟨_, .pointer⟩
      | slice element => exact ⟨_, .slice⟩
      | primitive name => cases name <;> exact ⟨_, by constructor⟩

end NativeAbiClassifier

end CalcKernel
