import Mathlib.Algebra.GroupWithZero.Nat
import CalcKernel.Ir.Mir
import CalcKernel.Lib.Assoc
import Mathlib.Algebra.Group.Nat.Even
import Mathlib.Data.Fintype.EquivFin
import Mathlib.Logic.Relation
import Mathlib.Order.WellFounded
import Mathlib.Tactic.FinCases

/-!
# The layout of structs in WebAssembly memory

Sizes are computed in one pass over the declarations, and the alignment of a struct is
taken from its size.  The layout is well formed exactly where structs are declared before
they are used by value, and no struct ends in half a word pair.
-/

namespace CalcKernel

open Lib Relation

/-! ## The layout -/

/-- `clamp(1, 8)` -/
def clampAlign (size : Nat) : Nat := max 1 (min size 8)

/-- The bytes of a type; the source panics on `void`. -/
def wasmSizeOf (structSizes : List (String × Nat)) : MirType → Option Nat
  | .primitive .i32 | .primitive .u32 | .primitive .bool | .pointer _ => some 4
  | .slice _ => some 8
  | .primitive .i64 | .primitive .u64 | .primitive .f64 => some 8
  | .struct name => some ((structSizes.lookup name).getD 0)
  | .void => none

def wasmAlignOf (structSizes : List (String × Nat)) : MirType → Option Nat
  | .slice _ => some 4
  | .struct name => some (clampAlign ((structSizes.lookup name).getD 1))
  | typeNode => (wasmSizeOf structSizes typeNode).map clampAlign

def wasmAlignTo (value align : Nat) : Nat :=
  if align = 0 then value else (value + (align - 1)) / align * align

/-- The fields laid out so far. -/
structure FieldsLayout where
  offset : Nat
  align : Nat
  offsets : List (String × Nat)

def layoutField (structSizes : List (String × Nat)) (s : FieldsLayout) (field : MirStructField) :
    Option FieldsLayout := do
  let fieldAlign ← wasmAlignOf structSizes field.typeNode
  let fieldSize ← wasmSizeOf structSizes field.typeNode
  let offset := wasmAlignTo s.offset fieldAlign
  some ⟨offset + fieldSize, max s.align fieldAlign, upsert field.name offset s.offsets⟩

structure WasmStructLayout where
  fields : List (String × List (String × Nat))
  sizes : List (String × Nat)

namespace WasmStructLayout

def layoutStruct (layout : WasmStructLayout) (structInfo : MirStruct) :
    Option WasmStructLayout := do
  let s ← structInfo.fields.foldlM (layoutField layout.sizes) ⟨0, 1, []⟩
  some ⟨upsert structInfo.name s.offsets layout.fields,
    upsert structInfo.name (wasmAlignTo s.offset s.align) layout.sizes⟩

/-- `WasmStructLayout::new` -/
def new (structs : List MirStruct) : Option WasmStructLayout :=
  structs.foldlM layoutStruct ⟨[], []⟩

variable (layout : WasmStructLayout)

def fieldOffset (structName fieldName : String) : Option Nat :=
  (layout.fields.lookup structName).bind fun offsets ↦ offsets.lookup fieldName

def sizeOf (typeNode : MirType) : Option Nat := wasmSizeOf layout.sizes typeNode

def alignOf (typeNode : MirType) : Option Nat := wasmAlignOf layout.sizes typeNode

end WasmStructLayout

/-! ## Declarations -/

/-- A type that has storage, its struct declared. -/
def Stored (structs : List MirStruct) (t : MirType) : Prop :=
  t ≠ .void ∧ ∀ name, t = .struct name → ∃ s ∈ structs, s.name = name

/-- What the checker ensures of the declarations. -/
structure CheckedStructs (structs : List MirStruct) : Prop where
  names : (structs.map (·.name)).Nodup
  fieldNames : ∀ s ∈ structs, (s.fields.map (·.name)).Nodup
  stored : ∀ s ∈ structs, ∀ f ∈ s.fields, Stored structs f.typeNode

/-- A struct has a field of another, by value. -/
def ContainsStruct (structs : List MirStruct) (outer inner : String) : Prop :=
  ∃ s ∈ structs, s.name = outer ∧ ∃ f ∈ s.fields, f.typeNode = .struct inner

/-- No struct contains itself. -/
def FiniteStructs (structs : List MirStruct) : Prop :=
  ∀ name, ¬ TransGen (ContainsStruct structs) name name

/-- Offsets are aligned, fields are apart and inside, a type has one size, and sizes keep
alignments. -/
structure WasmStructLayout.WellFormed (layout : WasmStructLayout) (structs : List MirStruct) :
    Prop where
  aligned : ∀ s ∈ structs, ∀ f ∈ s.fields, ∃ offset align,
    layout.fieldOffset s.name f.name = some offset ∧ layout.alignOf f.typeNode = some align ∧
      align ∣ offset
  disjoint : ∀ s ∈ structs, ∀ f ∈ s.fields, ∀ g ∈ s.fields, f ≠ g → ∃ o m p n,
    layout.fieldOffset s.name f.name = some o ∧ layout.sizeOf f.typeNode = some m ∧
      layout.fieldOffset s.name g.name = some p ∧ layout.sizeOf g.typeNode = some n ∧
      (o + m ≤ p ∨ p + n ≤ o)
  inside : ∀ s ∈ structs, ∀ f ∈ s.fields, ∃ o m size,
    layout.fieldOffset s.name f.name = some o ∧ layout.sizeOf f.typeNode = some m ∧
      layout.sizeOf (.struct s.name) = some size ∧ o + m ≤ size
  consistent : ∀ before s after, structs = before ++ s :: after →
    ∃ earlier, WasmStructLayout.new before = some earlier ∧
      ∀ f ∈ s.fields, earlier.sizeOf f.typeNode = layout.sizeOf f.typeNode
  multiple : ∀ t, Stored structs t → ∃ size align,
    layout.sizeOf t = some size ∧ layout.alignOf t = some align ∧ align ∣ size

/-- Nothing is stored in the type. -/
inductive Blank (structs : List MirStruct) : MirType → Prop
  | struct (s : MirStruct) (hs : s ∈ structs) (hfields : ∀ f ∈ s.fields, Blank structs f.typeNode) :
      Blank structs (.struct s.name)

/-- A single scalar of four bytes is stored in the type. -/
inductive Word (structs : List MirStruct) : MirType → Prop
  | i32 : Word structs .i32
  | u32 : Word structs .u32
  | bool : Word structs .bool
  | pointer (element : MirType) : Word structs (.pointer element)
  | struct (s : MirStruct) (hs : s ∈ structs) (before after : List MirStructField)
      (f : MirStructField) (hfields : s.fields = before ++ f :: after)
      (hword : Word structs f.typeNode)
      (hblank : ∀ g ∈ before ++ after, Blank structs g.typeNode) : Word structs (.struct s.name)

/-- A type of the alignment of eight bytes. -/
def Wide (structs : List MirStruct) (t : MirType) : Prop :=
  t = .i64 ∨ t = .u64 ∨ t = .f64 ∨ ∃ name, t = .struct name ∧ ¬ Blank structs t ∧ ¬ Word structs t

/-- How many of the fields are single words. -/
inductive CountWords (structs : List MirStruct) : List MirStructField → Nat → Prop
  | nil : CountWords structs [] 0
  | word {f fields n} (hf : Word structs f.typeNode) (h : CountWords structs fields n) :
      CountWords structs (f :: fields) (n + 1)
  | other {f fields n} (hf : ¬ Word structs f.typeNode) (h : CountWords structs fields n) :
      CountWords structs (f :: fields) n

/-- Structs are declared before they are used by value, unless nothing is stored in them. -/
def InOrder (structs : List MirStruct) : Prop :=
  ∀ before s after, structs = before ++ s :: after → ∀ f ∈ s.fields, ∀ name,
    f.typeNode = .struct name → (∃ r ∈ before, r.name = name) ∨ Blank structs f.typeNode

/-- The struct has a field of wide alignment, an even number of words, or a word alone. -/
def Rounded (structs : List MirStruct) (s : MirStruct) : Prop :=
  (∃ f ∈ s.fields, Wide structs f.typeNode) ∨
    ∃ n, CountWords structs s.fields n ∧
      (Even n ∨ n = 1 ∧ ∀ f ∈ s.fields, ∀ element, f.typeNode ≠ .slice element)

/-! ## Sizes and offsets -/

def sizeIn (structSizes : List (String × Nat)) (t : MirType) : Nat :=
  (wasmSizeOf structSizes t).getD 0

def alignIn (structSizes : List (String × Nat)) (t : MirType) : Nat :=
  (wasmAlignOf structSizes t).getD 1

section Types

variable {sizes sizes' : List (String × Nat)} {t : MirType}

theorem wasmSizeOf_eq (h : t ≠ .void) : wasmSizeOf sizes t = some (sizeIn sizes t) := by
  unfold sizeIn wasmSizeOf
  split <;> first | rfl | exact absurd rfl h

theorem wasmAlignOf_eq (h : t ≠ .void) : wasmAlignOf sizes t = some (alignIn sizes t) := by
  unfold alignIn wasmAlignOf
  split
  · rfl
  · rfl
  · rw [wasmSizeOf_eq h]
    rfl

theorem clampAlign_getD (x : Option Nat) : clampAlign (x.getD 1) = clampAlign (x.getD 0) := by
  cases x <;> rfl

/-- Except for slices, the alignment is taken from the size. -/
theorem alignIn_eq (hslice : ∀ element, t ≠ .slice element) (hvoid : t ≠ .void) :
    alignIn sizes t = clampAlign (sizeIn sizes t) := by
  unfold alignIn wasmAlignOf
  split
  · exact absurd rfl (hslice _)
  · rw [Option.getD_some, clampAlign_getD]
    rfl
  · rw [wasmSizeOf_eq hvoid]
    rfl

theorem alignIn_congr (hvoid : t ≠ .void) (h : sizeIn sizes t = sizeIn sizes' t) :
    alignIn sizes t = alignIn sizes' t := by
  by_cases hslice : ∃ element, t = .slice element
  · obtain ⟨element, rfl⟩ := hslice
    rfl
  · push Not at hslice
    rw [alignIn_eq hslice hvoid, alignIn_eq hslice hvoid, h]

theorem clampAlign_pos (n : Nat) : 0 < clampAlign n := by
  unfold clampAlign
  omega

theorem alignIn_pos (hvoid : t ≠ .void) : 0 < alignIn sizes t := by
  by_cases hslice : ∃ element, t = .slice element
  · obtain ⟨element, rfl⟩ := hslice
    exact Nat.succ_pos 3
  · push Not at hslice
    rw [alignIn_eq hslice hvoid]
    exact clampAlign_pos _

end Types

theorem le_wasmAlignTo {value align : Nat} (h : 0 < align) : value ≤ wasmAlignTo value align := by
  rw [wasmAlignTo, if_neg h.ne']
  have hdiv := Nat.div_add_mod (value + (align - 1)) align
  have hlt := Nat.mod_lt (value + (align - 1)) h
  rw [Nat.mul_comm] at hdiv
  omega

theorem dvd_wasmAlignTo {value align : Nat} (h : 0 < align) : align ∣ wasmAlignTo value align := by
  rw [wasmAlignTo, if_neg h.ne']
  exact Nat.dvd_mul_left _ _

theorem wasmAlignTo_of_dvd {value align : Nat} (h : 0 < align) (hdvd : align ∣ value) :
    wasmAlignTo value align = value := by
  obtain ⟨k, rfl⟩ := hdvd
  rw [wasmAlignTo, if_neg h.ne', Nat.mul_add_div h, Nat.div_eq_of_lt (by omega)]
  rw [Nat.add_zero, Nat.mul_comm]

/-- The fields with their offsets. -/
def placed (sizes : List (String × Nat)) (offset : Nat) :
    List MirStructField → List (MirStructField × Nat)
  | [] => []
  | f :: fields =>
      let start := wasmAlignTo offset (alignIn sizes f.typeNode)
      (f, start) :: placed sizes (start + sizeIn sizes f.typeNode) fields

def endOf (sizes : List (String × Nat)) (offset : Nat) : List MirStructField → Nat
  | [] => offset
  | f :: fields =>
      endOf sizes (wasmAlignTo offset (alignIn sizes f.typeNode) + sizeIn sizes f.typeNode) fields

def fieldsAlign (sizes : List (String × Nat)) (fields : List MirStructField) : Nat :=
  (fields.map fun f ↦ alignIn sizes f.typeNode).foldl max 1

/-- The size of a struct, given the sizes of others. -/
def structSize (sizes : List (String × Nat)) (s : MirStruct) : Nat :=
  wasmAlignTo (endOf sizes 0 s.fields) (fieldsAlign sizes s.fields)

/-- The sizes after one pass. -/
def structSizes (structs : List MirStruct) : List (String × Nat) :=
  structs.foldl (fun sizes s ↦ upsert s.name (structSize sizes s) sizes) []

section Fields

variable {sizes sizes' : List (String × Nat)} {fields : List MirStructField} {offset : Nat}

theorem le_endOf (hvoid : ∀ f ∈ fields, f.typeNode ≠ .void) :
    offset + (fields.map fun f ↦ sizeIn sizes f.typeNode).sum ≤ endOf sizes offset fields := by
  induction fields generalizing offset with
  | nil => exact le_rfl
  | cons f fields ih =>
      rw [List.map_cons, List.sum_cons, endOf]
      have hstart := @le_wasmAlignTo offset _ (@alignIn_pos sizes _ (hvoid f List.mem_cons_self))
      have hrest := @ih (wasmAlignTo offset (alignIn sizes f.typeNode) + sizeIn sizes f.typeNode)
        fun g hg ↦ hvoid g (List.mem_cons_of_mem _ hg)
      omega

/-- A field stands aligned, behind what came before and in front of the end. -/
theorem mem_placed (hvoid : ∀ f ∈ fields, f.typeNode ≠ .void) {f : MirStructField} {o : Nat}
    (h : (f, o) ∈ placed sizes offset fields) :
    f ∈ fields ∧ alignIn sizes f.typeNode ∣ o ∧ offset ≤ o ∧
      o + sizeIn sizes f.typeNode ≤ endOf sizes offset fields := by
  induction fields generalizing offset with
  | nil => cases h
  | cons g fields ih =>
      have hpos := @alignIn_pos sizes _ (hvoid g List.mem_cons_self)
      have hstart := @le_wasmAlignTo offset _ hpos
      have hrest : ∀ f ∈ fields, f.typeNode ≠ .void :=
        fun f hf ↦ hvoid f (List.mem_cons_of_mem _ hf)
      rcases List.mem_cons.mp h with heq | hmem
      · obtain ⟨rfl, rfl⟩ := Prod.mk.inj heq
        refine ⟨List.mem_cons_self, dvd_wasmAlignTo hpos, hstart, ?_⟩
        exact le_trans (Nat.le_add_right _ _) (le_endOf hrest)
      · obtain ⟨hf, hdvd, hle, hend⟩ := ih hrest hmem
        exact ⟨List.mem_cons_of_mem _ hf, hdvd, by omega, hend⟩

/-- Fields of different names are apart. -/
theorem placed_disjoint (hvoid : ∀ f ∈ fields, f.typeNode ≠ .void) {f g : MirStructField}
    {o p : Nat} (hf : (f, o) ∈ placed sizes offset fields)
    (hg : (g, p) ∈ placed sizes offset fields) (hne : f ≠ g) :
    o + sizeIn sizes f.typeNode ≤ p ∨ p + sizeIn sizes g.typeNode ≤ o := by
  induction fields generalizing offset with
  | nil => cases hf
  | cons e fields ih =>
      have hrest : ∀ f ∈ fields, f.typeNode ≠ .void :=
        fun f hf ↦ hvoid f (List.mem_cons_of_mem _ hf)
      rcases List.mem_cons.mp hf with heqf | hf <;> rcases List.mem_cons.mp hg with heqg | hg
      · exact absurd ((Prod.mk.inj heqf).1.trans (Prod.mk.inj heqg).1.symm) hne
      · obtain ⟨rfl, rfl⟩ := Prod.mk.inj heqf
        exact Or.inl (mem_placed hrest hg).2.2.1
      · obtain ⟨rfl, rfl⟩ := Prod.mk.inj heqg
        exact Or.inr (mem_placed hrest hf).2.2.1
      · exact ih hrest hf hg

theorem exists_placed {f : MirStructField} (h : f ∈ fields) :
    ∃ o, (f, o) ∈ placed sizes offset fields := by
  induction fields generalizing offset with
  | nil => cases h
  | cons g fields ih =>
      rcases List.mem_cons.mp h with rfl | h
      · exact ⟨_, List.mem_cons_self⟩
      · obtain ⟨o, ho⟩ := ih h
        exact ⟨o, List.mem_cons_of_mem _ ho⟩

theorem endOf_congr (hvoid : ∀ f ∈ fields, f.typeNode ≠ .void)
    (h : ∀ f ∈ fields, sizeIn sizes f.typeNode = sizeIn sizes' f.typeNode) :
    endOf sizes offset fields = endOf sizes' offset fields := by
  induction fields generalizing offset with
  | nil => rfl
  | cons f fields ih =>
      rw [endOf, endOf, h f List.mem_cons_self,
        alignIn_congr (hvoid f List.mem_cons_self) (h f List.mem_cons_self)]
      exact ih (fun g hg ↦ hvoid g (List.mem_cons_of_mem _ hg))
        fun g hg ↦ h g (List.mem_cons_of_mem _ hg)

theorem structSize_congr {s : MirStruct} (hvoid : ∀ f ∈ s.fields, f.typeNode ≠ .void)
    (h : ∀ f ∈ s.fields, sizeIn sizes f.typeNode = sizeIn sizes' f.typeNode) :
    structSize sizes s = structSize sizes' s := by
  have halign : fieldsAlign sizes s.fields = fieldsAlign sizes' s.fields := by
    unfold fieldsAlign
    rw [List.map_congr_left fun f hf ↦ alignIn_congr (hvoid f hf) (h f hf)]
  rw [structSize, structSize, endOf_congr hvoid h, halign]

/-- The alignment of the fields is one of theirs, or one. -/
theorem fieldsAlign_cases (sizes : List (String × Nat)) (fields : List MirStructField) :
    fieldsAlign sizes fields = 1 ∨
      ∃ f ∈ fields, fieldsAlign sizes fields = alignIn sizes f.typeNode := by
  have hfold : ∀ (l : List Nat) (a : Nat), l.foldl max a = a ∨ l.foldl max a ∈ l := by
    intro l
    induction l with
    | nil => exact fun a ↦ Or.inl rfl
    | cons n l ih =>
        intro a
        rw [List.foldl_cons]
        rcases ih (max a n) with h | h
        · rw [h]
          rcases max_choice a n with hmax | hmax
          · exact Or.inl hmax
          · rw [hmax]
            exact Or.inr List.mem_cons_self
        · exact Or.inr (List.mem_cons_of_mem _ h)
  rcases hfold (fields.map fun f ↦ alignIn sizes f.typeNode) 1 with h | h
  · exact Or.inl h
  · obtain ⟨f, hf, heq⟩ := List.mem_map.mp h
    exact Or.inr ⟨f, hf, heq.symm⟩

theorem le_fieldsAlign (sizes : List (String × Nat)) {f : MirStructField} (h : f ∈ fields) :
    alignIn sizes f.typeNode ≤ fieldsAlign sizes fields := by
  have hfold : ∀ (l : List Nat) (a : Nat), a ≤ l.foldl max a ∧ ∀ n ∈ l, n ≤ l.foldl max a := by
    intro l
    induction l with
    | nil => exact fun a ↦ ⟨le_rfl, by simp⟩
    | cons m l ih =>
        intro a
        rw [List.foldl_cons]
        obtain ⟨hle, hall⟩ := ih (max a m)
        refine ⟨le_trans (le_max_left _ _) hle, fun n hn ↦ ?_⟩
        rcases List.mem_cons.mp hn with rfl | hn
        · exact le_trans (le_max_right _ _) hle
        · exact hall n hn
  exact (hfold _ 1).2 _ (List.mem_map_of_mem h)

end Fields

/-! ## The pass over the declarations -/

theorem structSizes_append (done : List MirStruct) (s : MirStruct) :
    structSizes (done ++ [s]) =
      upsert s.name (structSize (structSizes done) s) (structSizes done) := by
  rw [structSizes, List.foldl_append]
  rfl

/-- Later declarations keep the sizes of earlier names. -/
theorem lookup_structSizes_append {before after : List MirStruct} {name : String}
    (h : ∀ s ∈ after, s.name ≠ name) :
    (structSizes (before ++ after)).lookup name = (structSizes before).lookup name := by
  induction after using List.reverseRecOn with
  | nil => rw [List.append_nil]
  | append_singleton after s ih =>
      rw [← List.append_assoc, structSizes_append, lookup_upsert, if_neg ?_]
      · exact ih fun r hr ↦ h r (List.mem_append_left _ hr)
      · have hne := h s (List.mem_append_right _ (List.mem_singleton_self s))
        simpa using hne.symm

theorem lookup_structSizes_none {structs : List MirStruct} {name : String}
    (h : ∀ s ∈ structs, s.name ≠ name) : (structSizes structs).lookup name = none :=
  @lookup_structSizes_append [] structs name h

/-- The size of a struct is computed where it is declared. -/
theorem lookup_structSizes {before after : List MirStruct} {s : MirStruct}
    (hnodup : ((before ++ s :: after).map (·.name)).Nodup) :
    (structSizes (before ++ s :: after)).lookup s.name =
      some (structSize (structSizes before) s) := by
  have hafter : ∀ r ∈ after, r.name ≠ s.name := by
    rw [List.map_append, List.map_cons, List.nodup_append] at hnodup
    intro r hr heq
    exact (List.nodup_cons.mp hnodup.2.1).1 (heq ▸ List.mem_map_of_mem hr)
  rw [List.append_cons, lookup_structSizes_append hafter, structSizes_append, lookup_upsert,
    if_pos BEq.rfl]

section Pass

variable {sizes : List (String × Nat)} {fields : List MirStructField}

/-- Laying out fields succeeds, and records where they were placed. -/
theorem foldlM_layoutField (hvoid : ∀ f ∈ fields, f.typeNode ≠ .void)
    (hnodup : (fields.map (·.name)).Nodup) (s : FieldsLayout) :
    ∃ offsets, fields.foldlM (layoutField sizes) s =
        some ⟨endOf sizes s.offset fields,
          (fields.map fun f ↦ alignIn sizes f.typeNode).foldl max s.align, offsets⟩ ∧
      (∀ p ∈ placed sizes s.offset fields, offsets.lookup p.1.name = some p.2) ∧
      ∀ name, name ∉ fields.map (·.name) → offsets.lookup name = s.offsets.lookup name := by
  induction fields generalizing s with
  | nil => exact ⟨s.offsets, rfl, (by simp [placed]), fun _ _ ↦ rfl⟩
  | cons f fields ih =>
      rw [List.map_cons, List.nodup_cons] at hnodup
      have hf := hvoid f List.mem_cons_self
      have hstep : layoutField sizes s f =
          some ⟨wasmAlignTo s.offset (alignIn sizes f.typeNode) + sizeIn sizes f.typeNode,
            max s.align (alignIn sizes f.typeNode),
            upsert f.name (wasmAlignTo s.offset (alignIn sizes f.typeNode)) s.offsets⟩ := by
        rw [layoutField, wasmAlignOf_eq hf, wasmSizeOf_eq hf]
        rfl
      obtain ⟨offsets, hfold, hplaced, hother⟩ :=
        ih (fun g hg ↦ hvoid g (List.mem_cons_of_mem _ hg)) hnodup.2
          ⟨wasmAlignTo s.offset (alignIn sizes f.typeNode) + sizeIn sizes f.typeNode,
            max s.align (alignIn sizes f.typeNode),
            upsert f.name (wasmAlignTo s.offset (alignIn sizes f.typeNode)) s.offsets⟩
      refine ⟨offsets, ?_, fun p hp ↦ ?_, fun name hname ↦ ?_⟩
      · rw [List.foldlM_cons, hstep]
        exact hfold
      · rcases List.mem_cons.mp hp with rfl | hp
        · rw [hother f.name hnodup.1, lookup_upsert, if_pos BEq.rfl]
        · exact hplaced p hp
      · rw [List.map_cons, List.mem_cons, not_or] at hname
        rw [hother name hname.2, lookup_upsert, if_neg (by simpa using hname.1)]

variable {structs : List MirStruct}

/-- The pass succeeds on checked declarations: it computes the sizes, and every struct is laid
out with the sizes of the structs declared before it. -/
theorem new_eq (hnames : (structs.map (·.name)).Nodup)
    (hvoid : ∀ s ∈ structs, ∀ f ∈ s.fields, f.typeNode ≠ .void)
    (hfields : ∀ s ∈ structs, (s.fields.map (·.name)).Nodup) :
    ∃ layout, WasmStructLayout.new structs = some layout ∧ layout.sizes = structSizes structs ∧
      ∀ before s after, structs = before ++ s :: after →
        ∀ p ∈ placed (structSizes before) 0 s.fields,
          layout.fieldOffset s.name p.1.name = some p.2 := by
  induction structs using List.reverseRecOn with
  | nil => exact ⟨⟨[], []⟩, rfl, rfl, fun before s after h ↦ by simp at h⟩
  | append_singleton done r ih =>
      have hmem : ∀ s ∈ done, s ∈ done ++ [r] := fun s ↦ List.mem_append_left _
      have hr : r ∈ done ++ [r] := List.mem_append_right _ (List.mem_singleton_self r)
      rw [List.map_append, List.map_singleton, List.nodup_append] at hnames
      obtain ⟨layout, hnew, hsizes, hplaced⟩ := ih hnames.1 (fun s hs ↦ hvoid s (hmem s hs))
        fun s hs ↦ hfields s (hmem s hs)
      obtain ⟨offsets, hfold, hoffsets, -⟩ := @foldlM_layoutField layout.sizes _ (hvoid r hr)
        (hfields r hr) ⟨0, 1, []⟩
      refine ⟨⟨upsert r.name offsets layout.fields,
        upsert r.name (structSize layout.sizes r) layout.sizes⟩, ?_, ?_, ?_⟩
      · rw [WasmStructLayout.new, List.foldlM_append, ← WasmStructLayout.new, hnew]
        simp only [Option.bind_eq_bind, Option.bind_some, List.foldlM_cons, List.foldlM_nil]
        rw [WasmStructLayout.layoutStruct, hfold]
        rfl
      · rw [structSizes_append, ← hsizes]
      · intro before s after heq p hp
        unfold WasmStructLayout.fieldOffset
        dsimp only
        rw [lookup_upsert]
        rcases List.eq_nil_or_concat after with rfl | ⟨after', r', rfl⟩
        · obtain ⟨rfl, hlast⟩ := List.append_inj' heq rfl
          obtain rfl := List.singleton_inj.mp hlast
          rw [if_pos BEq.rfl, Option.bind_some]
          exact hoffsets p (hsizes ▸ hp)
        · rw [List.concat_eq_append, ← List.cons_append, ← List.append_assoc] at heq
          obtain ⟨rfl, hlast⟩ := List.append_inj' heq rfl
          obtain rfl := List.singleton_inj.mp hlast
          have hne : (s.name == r.name) = false := by
            rw [beq_eq_false_iff_ne]
            refine hnames.2.2 s.name (List.mem_map_of_mem ?_) r.name (List.mem_singleton_self _)
            exact List.mem_append_right _ List.mem_cons_self
          rw [hne, if_neg Bool.false_ne_true]
          exact hplaced before s after' rfl p hp

end Pass

/-! ## Sizes that stay -/

/-- Every type has the same size where it is used as at the end. -/
def SameSizes (structs : List MirStruct) : Prop :=
  ∀ before s after, structs = before ++ s :: after → ∀ f ∈ s.fields,
    sizeIn (structSizes before) f.typeNode = sizeIn (structSizes structs) f.typeNode

section Sizes

variable {structs : List MirStruct}

theorem CheckedStructs.notVoid (h : CheckedStructs structs) {s : MirStruct} (hs : s ∈ structs)
    {f : MirStructField} (hf : f ∈ s.fields) : f.typeNode ≠ .void :=
  (h.stored s hs f hf).1

theorem eq_of_name {s r : MirStruct} (hnodup : (structs.map (·.name)).Nodup) (hs : s ∈ structs)
    (hr : r ∈ structs) (h : s.name = r.name) : s = r :=
  List.inj_on_of_nodup_map hnodup hs hr h

/-- Types in which nothing is stored have no bytes, however many structs are declared. -/
theorem Blank.size (h : CheckedStructs structs) {t : MirType} (hblank : Blank structs t)
    {before after : List MirStruct} (heq : structs = before ++ after) :
    sizeIn (structSizes before) t = 0 := by
  induction hblank generalizing before after with
  | struct s hs _ ih =>
      by_cases hmem : s ∈ before
      · obtain ⟨b, a, rfl⟩ := List.append_of_mem hmem
        have hnodup : ((b ++ s :: a).map (·.name)).Nodup := by
          have hnames := h.names
          rw [heq, List.map_append] at hnames
          exact (List.nodup_append.mp hnames).1
        have hzero : ∀ f ∈ s.fields, sizeIn (structSizes b) f.typeNode = 0 := fun f hf ↦
          @ih f hf b (s :: a ++ after) (by rw [heq, List.append_assoc])
        have hvoid : ∀ f ∈ s.fields, f.typeNode ≠ .void := fun f hf ↦ h.notVoid hs hf
        have hend : ∀ (l : List MirStructField), (∀ f ∈ l, f ∈ s.fields) →
            endOf (structSizes b) 0 l = 0 := by
          intro l
          induction l with
          | nil => exact fun _ ↦ rfl
          | cons f l ihl =>
              intro hl
              have hf := hl f List.mem_cons_self
              rw [endOf, hzero f hf, wasmAlignTo_of_dvd (alignIn_pos (hvoid f hf)) (Nat.dvd_zero _)]
              exact ihl fun g hg ↦ hl g (List.mem_cons_of_mem _ hg)
        rw [sizeIn, wasmSizeOf, lookup_structSizes hnodup, structSize, hend _ fun _ ↦ id]
        have hzeroAlign : ∀ align, wasmAlignTo 0 align = 0 := by
          intro align
          by_cases halign : align = 0
          · rw [wasmAlignTo, if_pos halign]
          · exact wasmAlignTo_of_dvd (Nat.pos_of_ne_zero halign) (Nat.dvd_zero _)
        rw [hzeroAlign]
        rfl
      · have hnone : ∀ r ∈ before, r.name ≠ s.name := by
          intro r hr hname
          have hrs : r ∈ structs := heq ▸ List.mem_append_left _ hr
          exact hmem (eq_of_name h.names hrs hs hname ▸ hr)
        rw [sizeIn, wasmSizeOf, lookup_structSizes_none hnone]
        rfl

/-- With the structs in order, sizes stay. -/
theorem InOrder.sameSizes (h : CheckedStructs structs) (horder : InOrder structs) :
    SameSizes structs := by
  intro before s after heq f hf
  have hs : s ∈ structs := heq ▸ List.mem_append_right _ List.mem_cons_self
  cases htype : f.typeNode with
  | struct name =>
      rcases horder before s after heq f hf name htype with ⟨r, hr, rfl⟩ | hblank
      · have hlater : ∀ q ∈ s :: after, q.name ≠ r.name := by
          have hnames := h.names
          rw [heq, List.map_append, List.nodup_append] at hnames
          intro q hq hname
          exact hnames.2.2 r.name (List.mem_map_of_mem hr) q.name (List.mem_map_of_mem hq)
            hname.symm
        have hlookup := @lookup_structSizes_append before _ _ hlater
        rw [← heq] at hlookup
        rw [sizeIn, sizeIn, wasmSizeOf, wasmSizeOf, hlookup]
      · rw [htype] at hblank
        rw [hblank.size h heq, hblank.size h (List.append_nil structs).symm]
  | void => exact absurd htype (h.notVoid hs hf)
  | primitive p => cases p <;> rfl
  | pointer | slice => rfl

/-- Where sizes stay, a struct that is declared later has no bytes. -/
theorem SameSizes.later (hsame : SameSizes structs) {before after : List MirStruct} {s : MirStruct}
    (heq : structs = before ++ s :: after) {f : MirStructField} (hf : f ∈ s.fields) {name : String}
    (htype : f.typeNode = .struct name) (hlater : ∀ r ∈ before, r.name ≠ name) :
    sizeIn (structSizes structs) f.typeNode = 0 := by
  rw [← hsame before s after heq f hf, htype, sizeIn, wasmSizeOf, lookup_structSizes_none hlater]
  rfl

/-- Where sizes stay, the size of a struct is that of its fields laid out with the final sizes. -/
theorem SameSizes.size (h : CheckedStructs structs) (hsame : SameSizes structs) {s : MirStruct}
    (hs : s ∈ structs) :
    sizeIn (structSizes structs) (.struct s.name) = structSize (structSizes structs) s := by
  obtain ⟨before, after, heq⟩ := List.append_of_mem hs
  have hnames := h.names
  rw [heq] at hnames
  have hlookup := lookup_structSizes hnames
  rw [← heq] at hlookup
  rw [sizeIn, wasmSizeOf, hlookup]
  exact structSize_congr (fun f hf ↦ h.notVoid hs hf) (hsame before s after heq)

/-- What holds of a type once it holds of the fields of its struct holds of every type. -/
theorem FiniteStructs.induction (hfinite : FiniteStructs structs) {p : MirType → Prop}
    (step : ∀ t, (∀ s ∈ structs, t = .struct s.name → ∀ f ∈ s.fields, p f.typeNode) → p t)
    (t : MirType) : p t := by
  let R : {name // name ∈ structs.map (·.name)} → {name // name ∈ structs.map (·.name)} → Prop :=
    fun a b ↦ TransGen (ContainsStruct structs) b.1 a.1
  have : IsTrans _ R := ⟨fun _ _ _ hab hbc ↦ TransGen.trans hbc hab⟩
  have : Std.Irrefl R := ⟨fun a ha ↦ hfinite a.1 ha⟩
  have hwf : WellFounded R := Finite.wellFounded_of_trans_of_irrefl R
  have hdeclared : ∀ name : {name // name ∈ structs.map (·.name)}, p (.struct name.1) := by
    intro name
    induction name using hwf.induction with
    | h name ih =>
        refine step _ fun s hs heq f hf ↦ ?_
        have hname : s.name = name.1 := (MirType.struct.inj heq).symm
        by_cases hinner : ∃ inner, f.typeNode = .struct inner ∧ inner ∈ structs.map (·.name)
        · obtain ⟨inner, htype, hmem⟩ := hinner
          rw [htype]
          exact ih ⟨inner, hmem⟩ (TransGen.single ⟨s, hs, hname, f, hf, htype⟩)
        · refine step _ fun r hr htype ↦ absurd ⟨r.name, htype, List.mem_map_of_mem hr⟩ hinner
  refine step t fun s hs heq ↦ ?_
  have hs' := hdeclared ⟨s.name, List.mem_map_of_mem hs⟩
  intro f hf
  by_cases hinner : ∃ inner, f.typeNode = .struct inner ∧ inner ∈ structs.map (·.name)
  · obtain ⟨inner, htype, hmem⟩ := hinner
    rw [htype]
    exact hdeclared ⟨inner, hmem⟩
  · exact step _ fun r hr htype ↦ absurd ⟨r.name, htype, List.mem_map_of_mem hr⟩ hinner

/-- The size of a type tells what is stored in it. -/
structure SizeFacts (structs : List MirStruct) (t : MirType) : Prop where
  dvd : 4 ∣ sizeIn (structSizes structs) t
  blank : sizeIn (structSizes structs) t = 0 ↔ Blank structs t
  word : sizeIn (structSizes structs) t = 4 ↔ Word structs t

theorem Blank.exists_struct {t : MirType} (h : Blank structs t) : ∃ name, t = .struct name := by
  cases h with
  | struct s => exact ⟨s.name, rfl⟩

theorem SizeFacts.four {t : MirType} (hsize : sizeIn (structSizes structs) t = 4)
    (hword : Word structs t) (hstruct : ∀ name, t ≠ .struct name) : SizeFacts structs t where
  dvd := hsize ▸ Nat.dvd_refl 4
  blank := by
    rw [hsize]
    exact ⟨fun h ↦ by omega, fun h ↦ absurd h.exists_struct.choose_spec (hstruct _)⟩
  word := ⟨fun _ ↦ hword, fun _ ↦ hsize⟩

theorem SizeFacts.eight {t : MirType} (hsize : sizeIn (structSizes structs) t = 8)
    (hword : ¬ Word structs t) (hstruct : ∀ name, t ≠ .struct name) : SizeFacts structs t where
  dvd := hsize ▸ (by decide)
  blank := by
    rw [hsize]
    exact ⟨fun h ↦ by omega, fun h ↦ absurd h.exists_struct.choose_spec (hstruct _)⟩
  word := by
    rw [hsize]
    exact ⟨fun h ↦ by omega, fun h ↦ absurd h hword⟩

/-- The alignments that go with sizes. -/
theorem alignIn_cases {sizes : List (String × Nat)} {t : MirType} (hvoid : t ≠ .void)
    (hdvd : 4 ∣ sizeIn sizes t) :
    (alignIn sizes t = 1 ∧ sizeIn sizes t = 0) ∨
      (alignIn sizes t = 4 ∧ (sizeIn sizes t = 4 ∨ ∃ element, t = .slice element)) ∨
      (alignIn sizes t = 8 ∧ 8 ≤ sizeIn sizes t ∧ ∀ element, t ≠ .slice element) := by
  by_cases hslice : ∃ element, t = .slice element
  · obtain ⟨element, rfl⟩ := hslice
    exact Or.inr (Or.inl ⟨rfl, Or.inr ⟨element, rfl⟩⟩)
  · push Not at hslice
    rw [alignIn_eq hslice hvoid]
    unfold clampAlign
    rcases Nat.lt_or_ge (sizeIn sizes t) 8 with hlt | hge
    · obtain hzero | hfour : sizeIn sizes t = 0 ∨ sizeIn sizes t = 4 := by omega
      · exact Or.inl ⟨by omega, hzero⟩
      · exact Or.inr (Or.inl ⟨by omega, Or.inl hfour⟩)
    · exact Or.inr (Or.inr ⟨by omega, hge, hslice⟩)

/-- Fields that are aligned to four bytes at most follow each other without gaps. -/
theorem endOf_narrow {sizes : List (String × Nat)} {fields : List MirStructField} {offset : Nat}
    (hvoid : ∀ f ∈ fields, f.typeNode ≠ .void) (hdvd : ∀ f ∈ fields, 4 ∣ sizeIn sizes f.typeNode)
    (hnarrow : ∀ f ∈ fields, alignIn sizes f.typeNode ≠ 8) (hoffset : 4 ∣ offset) :
    endOf sizes offset fields = offset + (fields.map fun f ↦ sizeIn sizes f.typeNode).sum := by
  induction fields generalizing offset with
  | nil => rfl
  | cons f fields ih =>
      have hf := List.mem_cons_self (a := f) (l := fields)
      have hstart : wasmAlignTo offset (alignIn sizes f.typeNode) = offset := by
        refine wasmAlignTo_of_dvd (alignIn_pos (hvoid f hf)) ?_
        rcases alignIn_cases (hvoid f hf) (hdvd f hf) with ⟨h, -⟩ | ⟨h, -⟩ | ⟨h, -⟩
        · exact h ▸ Nat.one_dvd _
        · exact h ▸ hoffset
        · exact absurd h (hnarrow f hf)
      rw [endOf, hstart, ih (fun g hg ↦ hvoid g (List.mem_cons_of_mem _ hg))
        (fun g hg ↦ hdvd g (List.mem_cons_of_mem _ hg))
        (fun g hg ↦ hnarrow g (List.mem_cons_of_mem _ hg))
        (Nat.dvd_add hoffset (hdvd f hf)), List.map_cons, List.sum_cons, Nat.add_assoc]

section Sums

variable {sizes : List (String × Nat)} {fields : List MirStructField}

theorem dvd_sum_sizes (h : ∀ f ∈ fields, 4 ∣ sizeIn sizes f.typeNode) :
    4 ∣ (fields.map fun f ↦ sizeIn sizes f.typeNode).sum := by
  induction fields with
  | nil => exact Nat.dvd_zero 4
  | cons f fields ih =>
      rw [List.map_cons, List.sum_cons]
      exact Nat.dvd_add (h f List.mem_cons_self) (ih fun g hg ↦ h g (List.mem_cons_of_mem _ hg))

theorem sum_sizes_eq_zero :
    (fields.map fun f ↦ sizeIn sizes f.typeNode).sum = 0 ↔
      ∀ f ∈ fields, sizeIn sizes f.typeNode = 0 := by
  rw [List.sum_eq_zero_iff_forall_eq_nat]
  exact List.forall_mem_map

end Sums

/-- Multiples of four that add up to four: one of them is four, the others zero. -/
theorem one_of_sum_eq_four {α : Type} {g : α → Nat} {l : List α} (hdvd : ∀ a ∈ l, 4 ∣ g a)
    (h : (l.map g).sum = 4) :
    ∃ before a after, l = before ++ a :: after ∧ g a = 4 ∧ ∀ b ∈ before ++ after, g b = 0 := by
  induction l with
  | nil => cases h
  | cons a l ih =>
      rw [List.map_cons, List.sum_cons] at h
      have ha := hdvd a List.mem_cons_self
      rcases Nat.eq_zero_or_pos (g a) with hzero | hpos
      · obtain ⟨before, b, after, rfl, hb, hrest⟩ :=
          ih (fun b hb ↦ hdvd b (List.mem_cons_of_mem _ hb)) (by omega)
        refine ⟨a :: before, b, after, rfl, hb, fun c hc ↦ ?_⟩
        rcases List.mem_cons.mp hc with rfl | hc
        · exact hzero
        · exact hrest c hc
      · refine ⟨[], a, l, rfl, by omega, fun b hb ↦ ?_⟩
        have hsum : (l.map g).sum = 0 := by omega
        exact List.sum_eq_zero_iff_forall_eq_nat.mp hsum _ (List.mem_map_of_mem hb)

section Struct

variable {s : MirStruct}

theorem fieldsAlign_pos (sizes : List (String × Nat)) {fields : List MirStructField}
    (hvoid : ∀ f ∈ fields, f.typeNode ≠ .void) : 0 < fieldsAlign sizes fields := by
  rcases fieldsAlign_cases sizes fields with h | ⟨f, hf, h⟩
  · exact h ▸ Nat.one_pos
  · exact h ▸ alignIn_pos (hvoid f hf)

/-- Fields that are aligned to four bytes at most make up the struct. -/
theorem structSize_narrow {sizes : List (String × Nat)}
    (hvoid : ∀ f ∈ s.fields, f.typeNode ≠ .void)
    (hdvd : ∀ f ∈ s.fields, 4 ∣ sizeIn sizes f.typeNode)
    (hnarrow : ∀ f ∈ s.fields, alignIn sizes f.typeNode ≠ 8) :
    structSize sizes s = (s.fields.map fun f ↦ sizeIn sizes f.typeNode).sum := by
  rw [structSize, endOf_narrow hvoid hdvd hnarrow (Nat.dvd_zero 4), Nat.zero_add]
  refine wasmAlignTo_of_dvd (fieldsAlign_pos sizes hvoid) ?_
  rcases fieldsAlign_cases sizes s.fields with h | ⟨f, hf, h⟩
  · exact h ▸ Nat.one_dvd _
  · rw [h]
    rcases alignIn_cases (hvoid f hf) (hdvd f hf) with ⟨h, -⟩ | ⟨h, -⟩ | ⟨h, -⟩
    · exact h ▸ Nat.one_dvd _
    · exact h ▸ dvd_sum_sizes hdvd
    · exact absurd h (hnarrow f hf)

/-- A field that is aligned to eight bytes rounds the struct to a multiple of eight. -/
theorem structSize_wide {sizes : List (String × Nat)}
    (hvoid : ∀ f ∈ s.fields, f.typeNode ≠ .void)
    (hdvd : ∀ f ∈ s.fields, 4 ∣ sizeIn sizes f.typeNode)
    {f : MirStructField} (hf : f ∈ s.fields) (hwide : alignIn sizes f.typeNode = 8) :
    8 ∣ structSize sizes s := by
  have halign : fieldsAlign sizes s.fields = 8 := by
    have hle := le_fieldsAlign sizes hf
    rcases fieldsAlign_cases sizes s.fields with h | ⟨g, hg, h⟩
    · omega
    · rcases alignIn_cases (hvoid g hg) (hdvd g hg) with ⟨h', -⟩ | ⟨h', -⟩ | ⟨h', -⟩ <;> omega
  have hround := @dvd_wasmAlignTo (endOf sizes 0 s.fields) _ (fieldsAlign_pos sizes hvoid)
  rw [structSize]
  rwa [halign] at hround ⊢

end Struct

/-- With sizes that stay, a size tells what is stored in a type. -/
theorem SameSizes.facts (h : CheckedStructs structs) (hfinite : FiniteStructs structs)
    (hsame : SameSizes structs) (t : MirType) (ht : Stored structs t) : SizeFacts structs t := by
  induction t using hfinite.induction with
  | step t ih =>
  cases t with
  | void => exact absurd rfl ht.1
  | slice element => exact .eight rfl (fun hword ↦ by cases hword) fun _ ↦ MirType.noConfusion
  | pointer element => exact .four rfl (.pointer element) fun _ ↦ MirType.noConfusion
  | primitive p =>
      cases p with
      | i32 => exact .four rfl .i32 fun _ ↦ MirType.noConfusion
      | u32 => exact .four rfl .u32 fun _ ↦ MirType.noConfusion
      | bool => exact .four rfl .bool fun _ ↦ MirType.noConfusion
      | i64 | u64 | f64 =>
          exact .eight rfl (fun hword ↦ by cases hword) fun _ ↦ MirType.noConfusion
  | struct name =>
      obtain ⟨s, hs, rfl⟩ := ht.2 name rfl
      have hvoid : ∀ f ∈ s.fields, f.typeNode ≠ .void := fun f hf ↦ h.notVoid hs hf
      have hfacts : ∀ f ∈ s.fields, SizeFacts structs f.typeNode := fun f hf ↦
        ih s hs rfl f hf (h.stored s hs f hf)
      have hdvd : ∀ f ∈ s.fields, 4 ∣ sizeIn (structSizes structs) f.typeNode := fun f hf ↦
        (hfacts f hf).dvd
      have hsize := hsame.size h hs
      have hsum : (s.fields.map fun f ↦ sizeIn (structSizes structs) f.typeNode).sum ≤
          sizeIn (structSizes structs) (.struct s.name) := by
        rw [hsize, structSize]
        have hend := @le_endOf (structSizes structs) _ 0 hvoid
        have hround := @le_wasmAlignTo (endOf (structSizes structs) 0 s.fields) _
          (fieldsAlign_pos (structSizes structs) hvoid)
        omega
      have hblank : sizeIn (structSizes structs) (.struct s.name) = 0 →
          Blank structs (.struct s.name) := by
        intro hzero
        have hzeros := sum_sizes_eq_zero.mp (Nat.le_zero.mp (hzero ▸ hsum))
        exact .struct s hs fun f hf ↦ (hfacts f hf).blank.mp (hzeros f hf)
      have hdvdSize : 4 ∣ sizeIn (structSizes structs) (.struct s.name) := by
        rw [hsize]
        by_cases hwide : ∃ f ∈ s.fields, alignIn (structSizes structs) f.typeNode = 8
        · obtain ⟨f, hf, hwide⟩ := hwide
          exact Nat.dvd_trans ⟨2, rfl⟩ (structSize_wide hvoid hdvd hf hwide)
        · push Not at hwide
          rw [structSize_narrow hvoid hdvd hwide]
          exact dvd_sum_sizes hdvd
      refine ⟨hdvdSize, ⟨hblank, fun hb ↦ hb.size h (List.append_nil structs).symm⟩, ?_, ?_⟩
      · intro hfour
        have hsumFour : (s.fields.map fun f ↦ sizeIn (structSizes structs) f.typeNode).sum = 4 := by
          by_contra hne
          have hdvdSum := dvd_sum_sizes hdvd
          have hzeros := sum_sizes_eq_zero.mp (by omega :
            (s.fields.map fun f ↦ sizeIn (structSizes structs) f.typeNode).sum = 0)
          have hblanks : Blank structs (.struct s.name) :=
            .struct s hs fun f hf ↦ (hfacts f hf).blank.mp (hzeros f hf)
          have hzero := hblanks.size h (List.append_nil structs).symm
          omega
        obtain ⟨before, f, after, hfields, hf, hrest⟩ := one_of_sum_eq_four hdvd hsumFour
        have hmem : ∀ g ∈ before ++ after, g ∈ s.fields := by
          intro g hg
          rw [hfields]
          rcases List.mem_append.mp hg with hg | hg
          · exact List.mem_append_left _ hg
          · exact List.mem_append_right _ (List.mem_cons_of_mem _ hg)
        have hfmem : f ∈ s.fields := hfields ▸ List.mem_append_right _ List.mem_cons_self
        exact .struct s hs before after f hfields ((hfacts f hfmem).word.mp hf) fun g hg ↦
          (hfacts g (hmem g hg)).blank.mp (hrest g hg)
      · intro hword
        generalize hname : MirType.struct s.name = t at hword
        cases hword with
        | i32 | u32 | bool | pointer => cases hname
        | struct r hr before after f hfields hword hrest =>
            obtain rfl := eq_of_name h.names hs hr (MirType.struct.inj hname)
            have hfmem : f ∈ s.fields := hfields ▸ List.mem_append_right _ List.mem_cons_self
            have hfour := (hfacts f hfmem).word.mpr hword
            have hzero : ∀ g ∈ before ++ after, sizeIn (structSizes structs) g.typeNode = 0 :=
              fun g hg ↦ (hrest g hg).size h (List.append_nil structs).symm
            have hnarrow : ∀ g ∈ s.fields, alignIn (structSizes structs) g.typeNode ≠ 8 := by
              intro g hg height
              have hsmall : sizeIn (structSizes structs) g.typeNode ≤ 4 := by
                rw [hfields] at hg
                rcases List.mem_append.mp hg with hg | hg
                · rw [hzero g (List.mem_append_left _ hg)]
                  omega
                · rcases List.mem_cons.mp hg with rfl | hg
                  · omega
                  · rw [hzero g (List.mem_append_right _ hg)]
                    omega
              rcases alignIn_cases (hvoid g hg) (hdvd g hg) with ⟨h, -⟩ | ⟨h, -⟩ | ⟨-, h, -⟩ <;>
                omega
            rw [hsize, structSize_narrow hvoid hdvd hnarrow, hfields, List.map_append,
              List.map_cons, List.sum_append, List.sum_cons, hfour]
            rw [sum_sizes_eq_zero.mpr fun g hg ↦ hzero g (List.mem_append_left _ hg),
              sum_sizes_eq_zero.mpr fun g hg ↦ hzero g (List.mem_append_right _ hg)]

/-- Without wide fields the words and the slices make up the sum of the sizes. -/
theorem CountWords.sum {fields : List MirStructField} {n : Nat}
    (hcount : CountWords structs fields n)
    (hstored : ∀ f ∈ fields, Stored structs f.typeNode)
    (hfacts : ∀ f ∈ fields, SizeFacts structs f.typeNode)
    (hnarrow : ∀ f ∈ fields, ¬ Wide structs f.typeNode) :
    ∃ m, (fields.map fun f ↦ sizeIn (structSizes structs) f.typeNode).sum = 4 * n + 8 * m ∧
      (m = 0 ↔ ∀ f ∈ fields, ∀ element, f.typeNode ≠ .slice element) := by
  induction hcount with
  | nil => exact ⟨0, rfl, by simp⟩
  | @word f fields n hf _ ih =>
      rw [List.forall_mem_cons] at hstored hfacts hnarrow
      obtain ⟨m, hsum, hslices⟩ := ih hstored.2 hfacts.2 hnarrow.2
      refine ⟨m, ?_, ?_⟩
      · rw [List.map_cons, List.sum_cons, hfacts.1.word.mpr hf, hsum]
        omega
      · rw [hslices, List.forall_mem_cons, and_iff_right]
        rintro element heq
        rw [heq] at hf
        cases hf
  | @other f fields n hf _ ih =>
      rw [List.forall_mem_cons] at hstored hfacts hnarrow
      obtain ⟨m, hsum, hslices⟩ := ih hstored.2 hfacts.2 hnarrow.2
      by_cases hslice : ∃ element, f.typeNode = .slice element
      · obtain ⟨element, heq⟩ := hslice
        refine ⟨m + 1, ?_, fun h ↦ by omega, fun h ↦ ?_⟩
        · have height : sizeIn (structSizes structs) f.typeNode = 8 := by rw [heq]; rfl
          rw [List.map_cons, List.sum_cons, height, hsum]
          omega
        · exact absurd heq (h f List.mem_cons_self element)
      · push Not at hslice
        refine ⟨m, ?_, ?_⟩
        · -- a type that is no word, not wide and no slice is a blank struct
          have hblank : Blank structs f.typeNode := by
            cases htype : f.typeNode with
            | void => exact absurd htype hstored.1.1
            | slice element => exact absurd htype (hslice element)
            | pointer element => exact absurd (htype ▸ .pointer element) hf
            | primitive p =>
                rw [htype] at hf
                have hwide := hnarrow.1
                rw [htype] at hwide
                cases p with
                | i32 => exact absurd .i32 hf
                | u32 => exact absurd .u32 hf
                | bool => exact absurd .bool hf
                | i64 => exact absurd (Or.inl rfl) hwide
                | u64 => exact absurd (Or.inr (Or.inl rfl)) hwide
                | f64 => exact absurd (Or.inr (Or.inr (Or.inl rfl))) hwide
            | struct name =>
                by_contra hblank
                exact hnarrow.1 (Or.inr (Or.inr (Or.inr ⟨name, htype, htype ▸ hblank, hf⟩)))
          rw [List.map_cons, List.sum_cons, hfacts.1.blank.mpr hblank, hsum]
          omega
        · rw [hslices, List.forall_mem_cons, and_iff_right hslice]

theorem exists_countWords (structs : List MirStruct) (fields : List MirStructField) :
    ∃ n, CountWords structs fields n := by
  induction fields with
  | nil => exact ⟨0, .nil⟩
  | cons f fields ih =>
      obtain ⟨n, hn⟩ := ih
      by_cases hf : Word structs f.typeNode
      · exact ⟨n + 1, .word hf hn⟩
      · exact ⟨n, .other hf hn⟩

theorem CountWords.unique {fields : List MirStructField} {m n : Nat}
    (hm : CountWords structs fields m) (hn : CountWords structs fields n) : m = n := by
  induction hm generalizing n with
  | nil => cases hn with
    | nil => rfl
  | word hf _ ih => cases hn with
    | word _ hn => rw [ih hn]
    | other hf' _ => exact absurd hf hf'
  | other hf _ ih => cases hn with
    | word hf' _ => exact absurd hf' hf
    | other _ hn => exact ih hn

/-- A type is aligned to eight bytes where it is wide. -/
theorem SizeFacts.wide {t : MirType} (ht : Stored structs t) (hfacts : SizeFacts structs t) :
    alignIn (structSizes structs) t = 8 ↔ Wide structs t := by
  cases t with
  | void => exact absurd rfl ht.1
  | slice element =>
      exact ⟨fun h ↦ absurd (show 4 = 8 from h) (by decide), fun h ↦ by simp [Wide] at h⟩
  | pointer element =>
      exact ⟨fun h ↦ absurd (show 4 = 8 from h) (by decide), fun h ↦ by simp [Wide] at h⟩
  | primitive p =>
      cases p with
      | i32 | u32 | bool =>
          exact ⟨fun h ↦ absurd (show 4 = 8 from h) (by decide), fun h ↦ by simp [Wide] at h⟩
      | i64 => exact ⟨fun _ ↦ Or.inl rfl, fun _ ↦ rfl⟩
      | u64 => exact ⟨fun _ ↦ Or.inr (Or.inl rfl), fun _ ↦ rfl⟩
      | f64 => exact ⟨fun _ ↦ Or.inr (Or.inr (Or.inl rfl)), fun _ ↦ rfl⟩
  | struct name =>
      have hwide : Wide structs (.struct name) ↔
          ¬ Blank structs (.struct name) ∧ ¬ Word structs (.struct name) := by simp [Wide]
      rw [hwide, ← hfacts.blank, ← hfacts.word]
      rcases alignIn_cases ht.1 hfacts.dvd with
        ⟨h, hsize⟩ | ⟨h, hsize | ⟨element, heq⟩⟩ | ⟨h, hsize, -⟩
      · omega
      · omega
      · cases heq
      · omega

/-- The alignment divides the size of a struct where the struct is rounded. -/
theorem SameSizes.rounded (h : CheckedStructs structs) (hfinite : FiniteStructs structs)
    (hsame : SameSizes structs) {s : MirStruct} (hs : s ∈ structs) :
    alignIn (structSizes structs) (.struct s.name) ∣
        sizeIn (structSizes structs) (.struct s.name) ↔ Rounded structs s := by
  have hvoid : ∀ f ∈ s.fields, f.typeNode ≠ .void := fun f hf ↦ h.notVoid hs hf
  have hfacts : ∀ f ∈ s.fields, SizeFacts structs f.typeNode := fun f hf ↦
    hsame.facts h hfinite _ (h.stored s hs f hf)
  have hdvd : ∀ f ∈ s.fields, 4 ∣ sizeIn (structSizes structs) f.typeNode := fun f hf ↦
    (hfacts f hf).dvd
  have hstored : Stored structs (.struct s.name) :=
    ⟨MirType.noConfusion, fun name heq ↦ ⟨s, hs, MirType.struct.inj heq⟩⟩
  have hsize := hsame.size h hs
  have hcases := alignIn_cases hstored.1 (hsame.facts h hfinite _ hstored).dvd
  by_cases hwide : ∃ f ∈ s.fields, Wide structs f.typeNode
  · refine ⟨fun _ ↦ Or.inl hwide, fun _ ↦ ?_⟩
    obtain ⟨f, hf, hwide⟩ := hwide
    have height := structSize_wide hvoid hdvd hf
      (((hfacts f hf).wide (h.stored s hs f hf)).mpr hwide)
    rw [← hsize] at height
    rcases hcases with ⟨halign, -⟩ | ⟨halign, hfour | ⟨element, heq⟩⟩ | ⟨halign, -, -⟩
    · exact halign ▸ Nat.one_dvd _
    · omega
    · cases heq
    · exact halign ▸ height
  · push Not at hwide
    obtain ⟨n, hcount⟩ := exists_countWords structs s.fields
    obtain ⟨m, hsum, hslices⟩ := hcount.sum (h.stored s hs) hfacts hwide
    have hnarrow : ∀ f ∈ s.fields, alignIn (structSizes structs) f.typeNode ≠ 8 := fun f hf h8 ↦
      hwide f hf (((hfacts f hf).wide (h.stored s hs f hf)).mp h8)
    rw [structSize_narrow hvoid hdvd hnarrow, hsum] at hsize
    have hrounded : Rounded structs s ↔ (Even n ∨ n = 1 ∧ m = 0) := by
      rw [hslices]
      constructor
      · rintro (⟨f, hf, hw⟩ | ⟨k, hk, hround⟩)
        · exact absurd hw (hwide f hf)
        · exact hcount.unique hk ▸ hround
      · exact fun hround ↦ Or.inr ⟨n, hcount, hround⟩
    rw [hrounded, hsize, Nat.even_iff]
    rcases hcases with ⟨halign, hzero⟩ | ⟨halign, hfour | ⟨element, heq⟩⟩ | ⟨halign, height, -⟩
    · rw [halign]
      omega
    · rw [halign]
      omega
    · cases heq
    · rw [halign]
      omega

end Sizes

/-! ## Structs inside and outside the condition -/

/-- `struct Triple { a: i32; b: i32; c: i32; }` -/
def tripleStruct : List MirStruct := [⟨"Triple", [⟨"a", .i32⟩, ⟨"b", .i32⟩, ⟨"c", .i32⟩]⟩]

/-- `struct Outer { inner: Inner; c: i32; }  struct Inner { x: i64; }` -/
def forwardStructs : List MirStruct :=
  [⟨"Outer", [⟨"inner", .struct "Inner"⟩, ⟨"c", .i32⟩]⟩, ⟨"Inner", [⟨"x", .i64⟩]⟩]

/-- `struct Pair { a: i32; b: i32; }  struct Entry { key: Pair; value: i64; }` -/
def orderedStructs : List MirStruct :=
  [⟨"Pair", [⟨"a", .i32⟩, ⟨"b", .i32⟩]⟩, ⟨"Entry", [⟨"key", .struct "Pair"⟩, ⟨"value", .i64⟩]⟩]

theorem tripleStruct_finite : FiniteStructs tripleStruct := by
  have hnone : ∀ a b, ¬ ContainsStruct tripleStruct a b := by
    rintro a b ⟨s, hs, -, f, hf, htype⟩
    obtain rfl := List.mem_singleton.mp hs
    fin_cases hf <;> cases htype
  intro name hpath
  obtain ⟨b, hb, -⟩ := TransGen.head'_iff.mp hpath
  exact hnone _ _ hb

/-- A struct that contains the second of two structs, and nothing else, is the first. -/
theorem finite_of_pair {structs : List MirStruct} (outer inner : String) (hne : outer ≠ inner)
    (h : ∀ a b, ContainsStruct structs a b → a = outer ∧ b = inner) : FiniteStructs structs := by
  have hpath : ∀ a b, TransGen (ContainsStruct structs) a b → a = outer ∧ b = inner := by
    intro a b hab
    induction hab with
    | single hab => exact h _ _ hab
    | tail _ hbc ih => exact absurd (ih.2.symm.trans (h _ _ hbc).1) (Ne.symm hne)
  intro name hname
  obtain ⟨houter, hinner⟩ := hpath name name hname
  exact hne (houter.symm.trans hinner)

theorem forwardStructs_finite : FiniteStructs forwardStructs := by
  refine finite_of_pair "Outer" "Inner" (by decide) ?_
  rintro a b ⟨s, hs, rfl, f, hf, htype⟩
  fin_cases hs <;> fin_cases hf <;> cases htype
  exact ⟨rfl, rfl⟩

theorem orderedStructs_finite : FiniteStructs orderedStructs := by
  refine finite_of_pair "Entry" "Pair" (by decide) ?_
  rintro a b ⟨s, hs, rfl, f, hf, htype⟩
  fin_cases hs <;> fin_cases hf <;> cases htype
  exact ⟨rfl, rfl⟩

theorem tripleStruct_checked : CheckedStructs tripleStruct where
  names := by decide
  fieldNames := by decide
  stored := by simp [tripleStruct, Stored]

theorem forwardStructs_checked : CheckedStructs forwardStructs where
  names := by decide
  fieldNames := by decide
  stored := by simp [forwardStructs, Stored]

theorem orderedStructs_checked : CheckedStructs orderedStructs where
  names := by decide
  fieldNames := by decide
  stored := by simp [orderedStructs, Stored]

end CalcKernel
