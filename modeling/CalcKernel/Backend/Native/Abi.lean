import CalcKernel.Ir.Mir
import CalcKernel.Lib.Assoc
import Mathlib.Data.List.Perm.Subperm

/-!
# The native ABI classifier

Layouts and register classes of the types of exported functions, for the target
`SysvX86_64`.  A `u32` is a natural number here and the overflows that the source checks
are errors; the recursion through structures is bounded by their number, which is deep
enough for every type whose layout is finite.
-/

namespace CalcKernel

open Lib

abbrev NativeAbiError := String

structure NativeAbiLayout where
  size : Nat
  alignment : Nat
deriving DecidableEq, Repr

inductive NativeAbiRegisterClass where
  | integer | floating
deriving DecidableEq, Repr

structure NativeAbiRegister where
  cls : NativeAbiRegisterClass
  bits : Nat
deriving DecidableEq, Repr

inductive NativeAbiExtension where
  | none | zero | sign
deriving DecidableEq, Repr

inductive NativeAbiPassMode where
  | direct (registers : List NativeAbiRegister)
  | indirect (byValue : Bool) (alignment : Nat)
deriving DecidableEq, Repr

structure NativeAbiValue where
  layout : NativeAbiLayout
  mode : NativeAbiPassMode
  extension : NativeAbiExtension
deriving DecidableEq, Repr

inductive NativeAbiPosition where
  | parameter | return
deriving DecidableEq, Repr

structure AggregateChunk where
  cls : Option NativeAbiRegisterClass
  usedBits : Nat
deriving DecidableEq, Repr

def AggregateChunk.default : AggregateChunk := ⟨none, 0⟩

/-- One past the largest `u32`. -/
def nativeAbiLimit : Nat := 4294967296

/-- `value & !mask` of 32 bits. -/
def alignTo (value alignment : Nat) : Except NativeAbiError Nat :=
  let mask := alignment - 1
  if value + mask < nativeAbiLimit then .ok ((value + mask) &&& (nativeAbiLimit - 1 - mask))
  else .error "Native ABI layout overflow"

/-- The class of a chunk after another scalar of it. -/
def AggregateChunk.mark (chunk : AggregateChunk) (chunkOffset size : Nat)
    (cls : NativeAbiRegisterClass) : AggregateChunk where
  cls := some (match chunk.cls, cls with
    | some .integer, _ => .integer
    | _, .integer => .integer
    | _, _ => .floating)
  usedBits := max chunk.usedBits ((chunkOffset + min size (8 - chunkOffset)) * 8)

/-- The chunks that a scalar touches, at most as many as it has bytes. -/
def markChunks (cls : NativeAbiRegisterClass) :
    Nat → List AggregateChunk → Nat → Nat → List AggregateChunk
  | 0, chunks, _, _ => chunks
  | fuel + 1, chunks, offset, size =>
      let chunkOffset := offset % 8
      let marked := chunks.modify (offset / 8) fun chunk ↦ chunk.mark chunkOffset size cls
      if chunkOffset + size > 8 then
        markChunks cls fuel marked (offset + (8 - chunkOffset)) (size - (8 - chunkOffset))
      else marked

def markChunk (chunks : List AggregateChunk) (offset size : Nat) (cls : NativeAbiRegisterClass) :
    List AggregateChunk :=
  markChunks cls (size + 1) chunks offset size

def normalizedIntegerWidth (usedBits : Nat) : Nat :=
  if usedBits ≤ 8 then 8
  else if usedBits ≤ 16 then 16
  else if usedBits ≤ 32 then 32
  else 64

structure NativeAbiClassifier where
  structs : List MirStruct
deriving Repr

namespace NativeAbiClassifier

def structureNamed (classifier : NativeAbiClassifier) (name : String) :
    Except NativeAbiError MirStruct :=
  match classifier.structs.find? (·.name = name) with
  | some declared => .ok declared
  | none => .error s!"unknown MIR struct '{name}'"

/-- The fields of the structure `name` from the size and the alignment reached so far. -/
def layoutFields (layout : MirType → Except NativeAbiError NativeAbiLayout) (name : String) :
    Nat → Nat → List MirStructField → Except NativeAbiError NativeAbiLayout
  | size, alignment, [] => do
      let size ← alignTo size alignment
      .ok ⟨size, alignment⟩
  | size, alignment, field :: fields => do
      let fieldLayout ← layout field.typeNode
      let size ← alignTo size fieldLayout.alignment
      if size + fieldLayout.size < nativeAbiLimit then
        layoutFields layout name (size + fieldLayout.size) (max alignment fieldLayout.alignment)
          fields
      else .error s!"Native ABI struct '{name}' is too large"

/-- `active` are the structures that are being laid out. -/
def layoutInner (classifier : NativeAbiClassifier) :
    Nat → List String → MirType → Except NativeAbiError NativeAbiLayout
  | _, _, .void => .ok ⟨0, 1⟩
  | _, _, .primitive .bool => .ok ⟨1, 1⟩
  | _, _, .primitive .i32 | _, _, .primitive .u32 => .ok ⟨4, 4⟩
  | _, _, .primitive .i64 | _, _, .primitive .u64 | _, _, .primitive .f64
  | _, _, .pointer _ => .ok ⟨8, 8⟩
  | _, _, .slice _ => .ok ⟨16, 8⟩
  | 0, _, .struct name =>
      .error s!"directly recursive MIR struct '{name}' has no finite Native ABI layout"
  | fuel + 1, active, .struct name =>
      if name ∈ active then
        .error s!"directly recursive MIR struct '{name}' has no finite Native ABI layout"
      else do
        let declared ← classifier.structureNamed name
        layoutFields (classifier.layoutInner fuel (name :: active)) name 0 1 declared.fields

/-- A chain of distinct structures is no longer than their number. -/
def depth (classifier : NativeAbiClassifier) : Nat := classifier.structs.length + 1

def layout (classifier : NativeAbiClassifier) (typeNode : MirType) :
    Except NativeAbiError NativeAbiLayout :=
  classifier.layoutInner classifier.depth [] typeNode

/-- The first name that an earlier structure has. -/
def firstDuplicate : List String → List MirStruct → Option String
  | _, [] => none
  | seen, declared :: structs =>
      if declared.name ∈ seen then some declared.name
      else firstDuplicate (declared.name :: seen) structs

def new (structs : List MirStruct) : Except NativeAbiError NativeAbiClassifier :=
  match firstDuplicate [] structs with
  | some name => .error s!"duplicate MIR struct '{name}' in Native ABI classifier"
  | none => do
      let classifier : NativeAbiClassifier := ⟨structs⟩
      structs.forM fun declared ↦ do
        let _ ← classifier.layout (.struct declared.name)
        pure ()
      pure classifier

/-- The fields of a structure, the first of them at an offset that is not aligned yet. -/
def classifyFields (classifier : NativeAbiClassifier)
    (classify : MirType → Nat → List AggregateChunk → Except NativeAbiError (List AggregateChunk)) :
    Nat → List AggregateChunk → List MirStructField → Except NativeAbiError (List AggregateChunk)
  | _, chunks, [] => .ok chunks
  | fieldOffset, chunks, field :: fields => do
      let layout ← classifier.layout field.typeNode
      let fieldOffset ← alignTo fieldOffset layout.alignment
      let chunks ← classify field.typeNode fieldOffset chunks
      classifier.classifyFields classify (fieldOffset + layout.size) chunks fields

def classifySysvChunks (classifier : NativeAbiClassifier) :
    Nat → MirType → Nat → List AggregateChunk → Except NativeAbiError (List AggregateChunk)
  | _, .primitive .f64, offset, chunks => .ok (markChunk chunks offset 8 .floating)
  | _, .primitive .bool, offset, chunks => .ok (markChunk chunks offset 1 .integer)
  | _, .primitive .i32, offset, chunks | _, .primitive .u32, offset, chunks =>
      .ok (markChunk chunks offset 4 .integer)
  | _, .primitive .i64, offset, chunks | _, .primitive .u64, offset, chunks
  | _, .pointer _, offset, chunks => .ok (markChunk chunks offset 8 .integer)
  | _, .slice _, offset, chunks =>
      .ok (markChunk (markChunk chunks offset 8 .integer) (offset + 8) 4 .integer)
  | _, .void, _, chunks => .ok chunks
  | 0, .struct name, _, _ =>
      .error s!"directly recursive MIR struct '{name}' has no finite Native ABI layout"
  | fuel + 1, .struct name, offset, chunks => do
      let declared ← classifier.structureNamed name
      classifier.classifyFields (classifier.classifySysvChunks fuel) offset chunks declared.fields

/-- `sysv_x64::classify` -/
def classifySysv (classifier : NativeAbiClassifier) (typeNode : MirType)
    (position : NativeAbiPosition) : Except NativeAbiError NativeAbiPassMode := do
  let layout ← classifier.layout typeNode
  if layout.size > 16 then
    .ok (.indirect (position = .parameter) layout.alignment)
  else
    let chunks := List.replicate ((layout.size + 7) / 8) AggregateChunk.default
    let chunks ← classifier.classifySysvChunks classifier.depth typeNode 0 chunks
    .ok (.direct (chunks.map fun chunk ↦
      ⟨chunk.cls.getD .integer, normalizedIntegerWidth chunk.usedBits⟩))

def classify (classifier : NativeAbiClassifier) (typeNode : MirType)
    (position : NativeAbiPosition) : Except NativeAbiError NativeAbiValue := do
  let layout ← classifier.layout typeNode
  let extension := if typeNode = .primitive .bool then NativeAbiExtension.zero else .none
  let mode ← match typeNode with
    | .void => .ok (.direct [])
    | .primitive .f64 => .ok (.direct [⟨.floating, 64⟩])
    | .primitive .bool => .ok (.direct [⟨.integer, 1⟩])
    | .primitive .i32 | .primitive .u32 => .ok (.direct [⟨.integer, 32⟩])
    | .primitive .i64 | .primitive .u64 | .pointer _ => .ok (.direct [⟨.integer, 64⟩])
    | .slice _ | .struct _ => classifier.classifySysv typeNode position
  .ok ⟨layout, mode, extension⟩

def classifyParameter (classifier : NativeAbiClassifier) (typeNode : MirType) :
    Except NativeAbiError NativeAbiValue :=
  classifier.classify typeNode .parameter

def classifyReturn (classifier : NativeAbiClassifier) (typeNode : MirType) :
    Except NativeAbiError NativeAbiValue :=
  classifier.classify typeNode .return

/-! ## The bound on the recursion -/

variable {classifier : NativeAbiClassifier}

theorem layoutFields_congr {layout layout' : MirType → Except NativeAbiError NativeAbiLayout}
    (name : String) {fields : List MirStructField}
    (h : ∀ field ∈ fields, layout field.typeNode = layout' field.typeNode) (size alignment : Nat) :
    layoutFields layout name size alignment fields =
      layoutFields layout' name size alignment fields := by
  induction fields generalizing size alignment with
  | nil => exact Eq.refl _
  | cons field fields ih =>
      rw [layoutFields, layoutFields, h field List.mem_cons_self]
      have ih := fun size ↦ ih (fun f hf ↦ h f (List.mem_cons_of_mem _ hf)) size
      simp only [ih]

theorem structureNamed_mem {name : String} {declared : MirStruct}
    (h : classifier.structureNamed name = .ok declared) :
    name ∈ classifier.structs.map MirStruct.name := by
  unfold structureNamed at h
  split at h
  · rename_i found hfound
    have hname : found.name = name := by simpa using List.find?_some hfound
    exact List.mem_map.mpr ⟨found, List.mem_of_find?_eq_some hfound, hname⟩
  · cases h

/-- Deeper recursion finds the same layouts: no chain of distinct structures is longer. -/
theorem layoutInner_succ {fuel : Nat} {active : List String} (hnodup : active.Nodup)
    (hactive : active ⊆ classifier.structs.map MirStruct.name)
    (hfuel : classifier.structs.length < fuel + active.length) (typeNode : MirType) :
    classifier.layoutInner (fuel + 1) active typeNode =
      classifier.layoutInner fuel active typeNode := by
  induction fuel generalizing active typeNode with
  | zero =>
      have hle := (hnodup.subperm hactive).length_le
      rw [List.length_map] at hle
      omega
  | succ fuel ih =>
      cases typeNode with
      | struct name =>
          rw [layoutInner, layoutInner]
          split
          · exact Eq.refl _
          · rename_i hname
            cases hdeclared : classifier.structureNamed name with
            | error e => exact Eq.refl _
            | ok declared =>
                refine layoutFields_congr name (fun field _ ↦ ?_) 0 1
                refine ih (List.nodup_cons.mpr ⟨hname, hnodup⟩) ?_ ?_ _
                · exact List.cons_subset.mpr ⟨structureNamed_mem hdeclared, hactive⟩
                · rw [List.length_cons]
                  omega
      | primitive name => cases name <;> exact Eq.refl _
      | _ => exact Eq.refl _

theorem layout_eq_of_le {fuel : Nat} (h : classifier.depth ≤ fuel) (typeNode : MirType) :
    classifier.layoutInner fuel [] typeNode = classifier.layout typeNode := by
  induction fuel, h using Nat.le_induction with
  | base => exact Eq.refl _
  | succ fuel hle ih =>
      rw [layoutInner_succ List.nodup_nil (List.nil_subset _) ?_, ih]
      rw [depth] at hle
      exact hle

/-- A structure is laid out only when its fields are. -/
theorem layout_field {layout : MirType → Except NativeAbiError NativeAbiLayout} {name : String}
    {fields : List MirStructField} {size alignment : Nat} {result : NativeAbiLayout}
    (h : layoutFields layout name size alignment fields = .ok result) {field : MirStructField}
    (hfield : field ∈ fields) : ∃ fieldLayout, layout field.typeNode = .ok fieldLayout := by
  induction fields generalizing size alignment with
  | nil => cases hfield
  | cons f fields ih =>
      rw [layoutFields] at h
      obtain ⟨fieldLayout, hlayout, h⟩ := bind_eq_ok.mp h
      obtain ⟨aligned, -, h⟩ := bind_eq_ok.mp h
      rcases List.mem_cons.mp hfield with rfl | hfield
      · exact ⟨fieldLayout, hlayout⟩
      · split at h
        · exact ih h hfield
        · cases h

theorem classifyFields_congr
    {classify classify' : MirType → Nat → List AggregateChunk →
      Except NativeAbiError (List AggregateChunk)} {fields : List MirStructField}
    (h : ∀ field ∈ fields, classify field.typeNode = classify' field.typeNode) (offset : Nat)
    (chunks : List AggregateChunk) :
    classifier.classifyFields classify offset chunks fields =
      classifier.classifyFields classify' offset chunks fields := by
  induction fields generalizing offset chunks with
  | nil => exact Eq.refl _
  | cons field fields ih =>
      have ih := fun offset ↦ ih (fun f hf ↦ h f (List.mem_cons_of_mem _ hf)) offset
      rw [classifyFields, classifyFields, h field List.mem_cons_self]
      simp only [ih]

/-- What has a layout is classified without running out of depth. -/
theorem classifySysvChunks_succ {fuel : Nat} {active : List String} {typeNode : MirType}
    {layout : NativeAbiLayout} (h : classifier.layoutInner fuel active typeNode = .ok layout) :
    classifier.classifySysvChunks (fuel + 1) typeNode =
      classifier.classifySysvChunks fuel typeNode := by
  induction fuel generalizing active typeNode layout with
  | zero =>
      cases typeNode with
      | struct name => cases h
      | primitive name => cases name <;> exact Eq.refl _
      | _ => exact Eq.refl _
  | succ fuel ih =>
      cases typeNode with
      | struct name =>
          rw [layoutInner] at h
          split at h
          · cases h
          · obtain ⟨declared, hdeclared, h⟩ := bind_eq_ok.mp h
            funext offset chunks
            rw [classifySysvChunks, classifySysvChunks, hdeclared]
            refine classifyFields_congr (fun field hfield ↦ ?_) offset chunks
            obtain ⟨fieldLayout, hfieldLayout⟩ := layout_field h hfield
            exact ih hfieldLayout
      | primitive name => cases name <;> exact Eq.refl _
      | _ => exact Eq.refl _

end NativeAbiClassifier

end CalcKernel
