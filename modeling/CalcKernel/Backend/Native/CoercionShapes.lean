import CalcKernel.Backend.Native.Classification
import CalcKernel.Backend.Native.Coercion

/-!
# Shapes and registers

A type with a layout has a shape of that layout, the chunks of the classifier are those of
its scalars, and a group is homogeneous when its members are.
-/

namespace CalcKernel

open Lib

/-! ## Chunks -/

/-- The used bits of a chunk after a scalar. -/
def spanBits (k used : Nat) (s : Span) : Nat :=
  if s.offset / 8 = k then max used (8 * (s.stop - 8 * k)) else used

/-- The used bits of a chunk after the scalars. -/
def chunkBits (k : Nat) (spans : List Span) (used : Nat) : Nat := spans.foldl (spanBits k) used

theorem chunkBits_append (k : Nat) (spans spans' : List Span) (used : Nat) :
    chunkBits k (spans ++ spans') used = chunkBits k spans' (chunkBits k spans used) :=
  List.foldl_append

theorem le_spanBits (k used : Nat) (s : Span) : used ≤ spanBits k used s := by
  rw [spanBits]
  split
  · exact le_max_left _ _
  · exact le_refl _

theorem le_chunkBits (k : Nat) (spans : List Span) (used : Nat) :
    used ≤ chunkBits k spans used := by
  induction spans generalizing used with
  | nil => exact le_refl _
  | cons s spans ih => exact le_trans (le_spanBits k used s) (ih _)

/-- A scalar of the chunk is inside its used bits. -/
theorem le_chunkBits_of_mem {k : Nat} {spans : List Span} {s : Span} (hs : s ∈ spans)
    (hk : s.offset / 8 = k) (used : Nat) : 8 * (s.stop - 8 * k) ≤ chunkBits k spans used := by
  induction spans generalizing used with
  | nil => cases hs
  | cons s' spans ih =>
      rcases List.mem_cons.mp hs with rfl | hs
      · refine le_trans ?_ (le_chunkBits k spans _)
        rw [spanBits, if_pos hk]
        exact le_max_right _ _
      · exact ih hs _

theorem chunkBits_le {k bound : Nat} {spans : List Span}
    (h : ∀ s ∈ spans, s.offset / 8 = k → 8 * (s.stop - 8 * k) ≤ bound) {used : Nat}
    (hused : used ≤ bound) : chunkBits k spans used ≤ bound := by
  induction spans generalizing used with
  | nil => exact hused
  | cons s spans ih =>
      refine ih (fun s' hs' ↦ h s' (List.mem_cons_of_mem _ hs')) ?_
      rw [spanBits]
      split
      · rename_i hk
        exact max_le hused (h s List.mem_cons_self hk)
      · exact hused

/-- The scalars have used up the bits of the chunks. -/
def UsedBy (spans : List Span) (chunks chunks' : List AggregateChunk) : Prop :=
  ∀ k, chunks'[k]?.map AggregateChunk.usedBits =
    chunks[k]?.map fun chunk ↦ chunkBits k spans chunk.usedBits

namespace UsedBy

variable {spans spans' : List Span} {chunks chunks' chunks'' : List AggregateChunk}

theorem nil (chunks : List AggregateChunk) : UsedBy [] chunks chunks := fun _ ↦ Eq.refl _

theorem trans (h : UsedBy spans chunks chunks') (h' : UsedBy spans' chunks' chunks'') :
    UsedBy (spans ++ spans') chunks chunks'' := by
  intro k
  have hmap : (chunks'[k]?.map fun chunk ↦ chunkBits k spans' chunk.usedBits) =
      (chunks'[k]?.map AggregateChunk.usedBits).map (chunkBits k spans') := by
    rw [Option.map_map]
    exact Eq.refl _
  rw [h' k, hmap, h k, Option.map_map]
  refine congrArg (Option.map · _) (funext fun chunk ↦ ?_)
  rw [Function.comp_apply, chunkBits_append]

end UsedBy

/-- A scalar in one eightbyte uses the bits up to its end. -/
theorem markChunk_usedBy (cls : NativeAbiRegisterClass) {chunks : List AggregateChunk}
    {s : Span} (h : s.offset % 8 + s.width.bytes ≤ 8) :
    UsedBy [s] chunks (markChunk chunks s.offset s.width.bytes cls) := by
  intro k
  rw [markChunk, markChunks, if_neg (by omega), List.getElem?_modify]
  split
  · rename_i hk
    rw [Option.map_eq_map, Option.map_map]
    refine congrArg (Option.map · _) (funext fun chunk ↦ ?_)
    have hstop : (s.offset % 8 + min s.width.bytes (8 - s.offset % 8)) * 8 =
        8 * (s.stop - 8 * k) := by
      rw [Span.stop]
      omega
    have hmark : (chunk.mark (s.offset % 8) s.width.bytes cls).usedBits =
        max chunk.usedBits ((s.offset % 8 + min s.width.bytes (8 - s.offset % 8)) * 8) := Eq.refl _
    rw [Function.comp_apply, hmark, hstop]
    exact (if_pos hk).symm
  · rename_i hk
    rw [Option.map_eq_map, Option.map_id_fun', id_eq]
    refine congrArg (Option.map · _) (funext fun chunk ↦ ?_)
    exact (if_neg hk).symm

namespace NativeAbiClassifier

variable {classifier : NativeAbiClassifier}

/-! ## Layouts -/

theorem structureNamed_ok {name : String} {declared : MirStruct}
    (h : classifier.structureNamed name = .ok declared) :
    classifier.structs.find? (·.name = name) = some declared := by
  unfold structureNamed at h
  split at h
  · rename_i found hfound
    cases h
    exact hfound
  · cases h

theorem layoutFields_shape {layout : MirType → Except NativeAbiError NativeAbiLayout}
    {shape : MirType → Option CShape} {name : String} (alignment : Width)
    (hlayout : ∀ typeNode fieldLayout, layout typeNode = .ok fieldLayout →
      ∃ type, shape typeNode = some type ∧ IsLayoutOf fieldLayout type)
    {fields : List MirStructField} {size : Nat} {result : NativeAbiLayout}
    (h : layoutFields layout name size alignment.bytes fields = .ok result) :
    ∃ types, fields.mapM (fun field ↦ shape field.typeNode) = some types ∧
      result.size = (alignment.max (CShape.fieldsAlign types)).alignUp
        (CShape.fieldsEnd size types) ∧
      result.alignment = (alignment.max (CShape.fieldsAlign types)).bytes := by
  induction fields generalizing size alignment with
  | nil =>
      rw [layoutFields] at h
      obtain ⟨aligned, haligned, h⟩ := bind_eq_ok.mp h
      cases h
      refine ⟨[], Eq.refl _, ?_⟩
      rw [CShape.fieldsAlign, CShape.fieldsEnd, Width.max_one]
      exact ⟨alignTo_eq haligned, Eq.refl _⟩
  | cons field fields ih =>
      rw [layoutFields] at h
      obtain ⟨fieldLayout, hok, h⟩ := bind_eq_ok.mp h
      obtain ⟨aligned, haligned, h⟩ := bind_eq_ok.mp h
      obtain ⟨type, htype, hsize, halign⟩ := hlayout _ _ hok
      rw [halign] at haligned h
      rw [hsize, alignTo_eq haligned, ← Width.bytes_max] at h
      split at h
      · obtain ⟨types, htypes, hrest⟩ := ih _ h
        refine ⟨type :: types, ?_, ?_⟩
        · rw [List.mapM_cons, htype, htypes]
          exact Eq.refl _
        · rw [CShape.fieldsAlign, CShape.fieldsEnd, ← Width.max_assoc]
          exact hrest
      · cases h

theorem layoutInner_shape {fuel : Nat} {active : List String} {typeNode : MirType}
    {result : NativeAbiLayout} (h : classifier.layoutInner fuel active typeNode = .ok result) :
    ∃ type, classifier.shapeInner fuel typeNode = some type ∧ IsLayoutOf result type := by
  induction fuel generalizing active typeNode result with
  | zero =>
      cases typeNode with
      | struct name => cases h
      | primitive name =>
          cases name <;> cases h <;> exact ⟨_, Eq.refl _, by constructor <;> decide⟩
      | _ => cases h; exact ⟨_, Eq.refl _, by constructor <;> decide⟩
  | succ fuel ih =>
      cases typeNode with
      | struct name =>
          rw [layoutInner] at h
          split at h
          · cases h
          · obtain ⟨declared, hdeclared, h⟩ := bind_eq_ok.mp h
            obtain ⟨types, htypes, hresult⟩ := layoutFields_shape .one (fun _ _ hok ↦ ih hok) h
            rw [Width.one_max] at hresult
            refine ⟨.struct types, ?_, ?_⟩
            · rw [shapeInner, structureNamed_ok hdeclared, Option.bind_some, htypes]
              exact Eq.refl _
            · rw [IsLayoutOf, CShape.size, CShape.align]
              exact hresult
      | primitive name =>
          cases name <;> cases h <;> exact ⟨_, Eq.refl _, by constructor <;> decide⟩
      | _ => cases h; exact ⟨_, Eq.refl _, by constructor <;> decide⟩

theorem layout_shape {typeNode : MirType} {result : NativeAbiLayout}
    (h : classifier.layout typeNode = .ok result) :
    ∃ type, classifier.shape typeNode = some type ∧ IsLayoutOf result type :=
  layoutInner_shape h

theorem mapM_option_mono {α β : Type} {f g : α → Option β}
    (hle : ∀ a b, f a = some b → g a = some b) {l : List α} {l' : List β}
    (h : l.mapM f = some l') : l.mapM g = some l' := by
  induction l generalizing l' with
  | nil => exact h
  | cons a l ih =>
      rw [List.mapM_cons] at h ⊢
      obtain ⟨b, hb, h⟩ := Option.bind_eq_some_iff.mp h
      obtain ⟨bs, hbs, h⟩ := Option.bind_eq_some_iff.mp h
      rw [hle a b hb, ih hbs]
      exact h

/-- Deeper recursion finds the same shape. -/
theorem shapeInner_succ {fuel : Nat} {typeNode : MirType} {type : CShape}
    (h : classifier.shapeInner fuel typeNode = some type) :
    classifier.shapeInner (fuel + 1) typeNode = some type := by
  induction fuel generalizing typeNode type with
  | zero =>
      cases typeNode with
      | struct name => cases h
      | primitive name => cases name <;> exact h
      | _ => exact h
  | succ fuel ih =>
      cases typeNode with
      | struct name =>
          rw [shapeInner] at h
          obtain ⟨declared, hfound, h⟩ := Option.bind_eq_some_iff.mp h
          obtain ⟨types, htypes, rfl⟩ := Option.map_eq_some_iff.mp h
          rw [shapeInner, hfound, Option.bind_some]
          exact Option.map_eq_some_iff.mpr
            ⟨types, mapM_option_mono (fun _ _ hfield ↦ ih hfield) htypes, Eq.refl _⟩
      | primitive name => cases name <;> exact h
      | _ => exact h

theorem shape_of_shapeInner {fuel : Nat} (hfuel : fuel ≤ classifier.depth) {typeNode : MirType}
    {type : CShape} (h : classifier.shapeInner fuel typeNode = some type) :
    classifier.shape typeNode = some type := by
  rw [shape]
  generalize classifier.depth = depth at hfuel
  induction depth, hfuel using Nat.le_induction with
  | base => exact h
  | succ depth _ ih => exact shapeInner_succ ih

/-- A field of a structure that has a shape. -/
theorem layout_of_shapeInner {fuel : Nat} (hfuel : fuel ≤ classifier.depth) {typeNode : MirType}
    {type : CShape} (h : classifier.shapeInner fuel typeNode = some type)
    {layout : NativeAbiLayout} (hlayout : classifier.layout typeNode = .ok layout) :
    IsLayoutOf layout type := by
  obtain ⟨type', htype', hlayout⟩ := layout_shape hlayout
  obtain rfl := Option.some.inj ((shape_of_shapeInner hfuel h).symm.trans htype')
  exact hlayout

/-! ## Classes and used bits of chunks -/

/-- The scalars have been marked in the chunks. -/
def Marked (spans : List Span) (chunks chunks' : List AggregateChunk) : Prop :=
  ClassifiedBy (spans.map fun s ↦ (s.offset, s.cls)) chunks chunks' ∧ UsedBy spans chunks chunks'

theorem Marked.nil (chunks : List AggregateChunk) : Marked [] chunks chunks :=
  ⟨ClassifiedBy.nil _, UsedBy.nil _⟩

theorem Marked.trans {spans spans' : List Span} {chunks chunks' chunks'' : List AggregateChunk}
    (h : Marked spans chunks chunks') (h' : Marked spans' chunks' chunks'') :
    Marked (spans ++ spans') chunks chunks'' :=
  ⟨List.map_append ▸ h.1.trans h'.1, h.2.trans h'.2⟩

theorem markChunk_marked (cls : NativeAbiRegisterClass) (width : Width) {offset : Nat}
    (hdvd : width.bytes ∣ offset) (chunks : List AggregateChunk) :
    Marked [⟨offset, cls.regClass, width⟩] chunks (markChunk chunks offset width.bytes cls) := by
  have hwithin : offset % 8 + width.bytes ≤ 8 := by
    cases width <;> simp only [Width.bytes] at hdvd ⊢ <;> omega
  have hused := @markChunk_usedBy cls chunks ⟨offset, cls.regClass, width⟩ hwithin
  exact ⟨markChunk_of_within cls hwithin, hused⟩

theorem classifyFields_marked (base offset : Nat) {fuel : Nat} (hfuel : fuel ≤ classifier.depth)
    {classify : MirType → Nat → List AggregateChunk → Except NativeAbiError (List AggregateChunk)}
    (hclassify : ∀ typeNode type offset chunks chunks',
      classifier.shapeInner fuel typeNode = some type → type.align.bytes ∣ offset →
        classify typeNode offset chunks = .ok chunks' → Marked (type.spans offset) chunks chunks')
    {fields : List MirStructField} {types : List CShape}
    (htypes : List.Forall₂ (fun field type ↦
      classifier.shapeInner fuel field.typeNode = some type) fields types)
    {chunks chunks' : List AggregateChunk} (hbase : ∀ type ∈ types, type.align.bytes ∣ base)
    (h : classifier.classifyFields classify (base + offset) chunks fields = .ok chunks') :
    Marked (CShape.fieldsSpans base offset types) chunks chunks' := by
  induction htypes generalizing offset chunks with
  | nil =>
      rw [classifyFields] at h
      cases h
      rw [CShape.fieldsSpans]
      exact Marked.nil _
  | @cons field type fields types hfield _ ih =>
      rw [classifyFields] at h
      obtain ⟨layout, hlayout, h⟩ := bind_eq_ok.mp h
      obtain ⟨aligned, haligned, h⟩ := bind_eq_ok.mp h
      obtain ⟨marked, hmarked, h⟩ := bind_eq_ok.mp h
      obtain ⟨hsize, halign⟩ := layout_of_shapeInner hfuel hfield hlayout
      have hdvd := hbase type List.mem_cons_self
      rw [halign] at haligned
      rw [alignTo_eq haligned, Width.alignUp_add hdvd] at hmarked h
      rw [hsize, Nat.add_assoc] at h
      rw [CShape.fieldsSpans]
      refine (hclassify _ _ _ _ _ hfield ?_ hmarked).trans
        (ih _ (fun t ht ↦ hbase t (List.mem_cons_of_mem _ ht)) h)
      exact Nat.dvd_add hdvd (Width.dvd_alignUp _ _)

theorem slice_spans (offset : Nat) :
    (CShape.struct [.scalar .integer .eight, .scalar .integer .four]).spans offset =
      [⟨offset, .integer, .eight⟩] ++ [⟨offset + 8, .integer, .four⟩] := by
  simp [CShape.spans, CShape.fieldsSpans, CShape.align, CShape.size, Width.alignUp, Width.bytes]

theorem classifySysvChunks_marked_of_not_struct {fuel fuel' : Nat} {typeNode : MirType}
    {type : CShape} {offset : Nat} {chunks chunks' : List AggregateChunk}
    (hstruct : ∀ name, typeNode ≠ .struct name)
    (htype : classifier.shapeInner fuel typeNode = some type) (hdvd : type.align.bytes ∣ offset)
    (h : classifier.classifySysvChunks fuel' typeNode offset chunks = .ok chunks') :
    Marked (type.spans offset) chunks chunks' := by
  cases typeNode with
  | struct name => exact absurd (Eq.refl _) (hstruct name)
  | slice element =>
      rw [shapeInner] at htype
      rw [classifySysvChunks] at h
      cases htype
      cases h
      have hoffset : 8 ∣ offset := hdvd
      rw [slice_spans]
      exact (markChunk_marked .integer .eight hoffset _).trans
        (markChunk_marked .integer .four (by simp only [Width.bytes]; omega) _)
  | void =>
      rw [shapeInner] at htype
      rw [classifySysvChunks] at h
      cases htype
      cases h
      exact Marked.nil _
  | pointer element =>
      rw [shapeInner] at htype
      rw [classifySysvChunks] at h
      cases htype
      cases h
      exact markChunk_marked .integer .eight hdvd _
  | primitive name =>
      cases name <;> rw [shapeInner] at htype <;> rw [classifySysvChunks] at h <;> cases htype <;>
        cases h
      · exact markChunk_marked .integer .four hdvd _
      · exact markChunk_marked .integer .eight hdvd _
      · exact markChunk_marked .integer .four hdvd _
      · exact markChunk_marked .integer .eight hdvd _
      · exact markChunk_marked .floating .eight hdvd _
      · exact markChunk_marked .integer .one hdvd _

theorem classifySysvChunks_marked {fuel : Nat} (hfuel : fuel ≤ classifier.depth)
    {typeNode : MirType} {type : CShape} {offset : Nat} {chunks chunks' : List AggregateChunk}
    (htype : classifier.shapeInner fuel typeNode = some type) (hdvd : type.align.bytes ∣ offset)
    (h : classifier.classifySysvChunks fuel typeNode offset chunks = .ok chunks') :
    Marked (type.spans offset) chunks chunks' := by
  induction fuel generalizing typeNode type offset chunks chunks' with
  | zero =>
      by_cases hstruct : ∃ name, typeNode = .struct name
      · obtain ⟨name, rfl⟩ := hstruct
        cases htype
      · exact classifySysvChunks_marked_of_not_struct (not_exists.mp hstruct) htype hdvd h
  | succ fuel ih =>
      by_cases hstruct : ∃ name, typeNode = .struct name
      · obtain ⟨name, rfl⟩ := hstruct
        rw [shapeInner] at htype
        obtain ⟨declared, hfound, htype⟩ := Option.bind_eq_some_iff.mp htype
        obtain ⟨types, htypes, rfl⟩ := Option.map_eq_some_iff.mp htype
        rw [classifySysvChunks] at h
        obtain ⟨declared', hdeclared, h⟩ := bind_eq_ok.mp h
        obtain rfl := structureNamed_eq hdeclared hfound
        rw [CShape.align] at hdvd
        rw [CShape.spans]
        have hfuel' : fuel ≤ classifier.depth := by omega
        refine classifyFields_marked offset 0 hfuel'
          (fun _ _ _ _ _ htype hdvd hok ↦ ih hfuel' htype hdvd hok) (mapM_option_eq_some htypes)
          (fun type hmem ↦ ?_) h
        exact Nat.dvd_trans (CShape.align_dvd_fieldsAlign hmem) hdvd
      · exact classifySysvChunks_marked_of_not_struct (not_exists.mp hstruct) htype hdvd h

/-! ## Homogeneous groups -/

theorem wideFloats_of_forall {types : List CShape} (h : ∀ type ∈ types, type.WideFloats) :
    CShape.FieldsWideFloats types := by
  induction types with
  | nil =>
      rw [CShape.FieldsWideFloats]
      trivial
  | cons type types ih =>
      rw [CShape.FieldsWideFloats]
      exact ⟨h type List.mem_cons_self, ih fun t ht ↦ h t (List.mem_cons_of_mem _ ht)⟩

theorem shapeInner_wideFloats {fuel : Nat} {typeNode : MirType} {type : CShape}
    (h : classifier.shapeInner fuel typeNode = some type) : type.WideFloats := by
  induction fuel generalizing typeNode type with
  | zero =>
      cases typeNode with
      | struct name => cases h
      | primitive name =>
          cases name <;> cases h <;> rw [CShape.WideFloats] <;> decide
      | _ => cases h; simp [CShape.WideFloats, CShape.FieldsWideFloats]
  | succ fuel ih =>
      cases typeNode with
      | struct name =>
          rw [shapeInner] at h
          obtain ⟨declared, -, h⟩ := Option.bind_eq_some_iff.mp h
          obtain ⟨types, htypes, rfl⟩ := Option.map_eq_some_iff.mp h
          rw [CShape.WideFloats]
          refine wideFloats_of_forall fun type htype ↦ ?_
          obtain ⟨field, -, hfield⟩ := forall₂_mem_right (mapM_option_eq_some htypes) htype
          exact ih hfield
      | primitive name =>
          cases name <;> cases h <;> rw [CShape.WideFloats] <;> decide
      | _ => cases h; simp [CShape.WideFloats, CShape.FieldsWideFloats]

/-- The number of members when all of them are floating, as far as a byte can count it. -/
def floatingMembers (total : Nat) (members : List (Option RegClass)) : Option Nat :=
  if ∀ c ∈ members, c = some .sse then some (min 255 (total + members.length)) else none

theorem homogeneousFields_eq
    {members : MirType → Except NativeAbiError (Option Nat)} {fuel : Nat}
    (hmembers : ∀ typeNode type result, classifier.shapeInner fuel typeNode = some type →
      members typeNode = .ok result → result = floatingMembers 0 type.members)
    {fields : List MirStructField} {types : List CShape}
    (htypes : List.Forall₂ (fun field type ↦
      classifier.shapeInner fuel field.typeNode = some type) fields types)
    (total : Nat) {result : Option Nat}
    (h : homogeneousFields members (min 255 total) fields = .ok result) :
    result = floatingMembers total (CShape.fieldsMembers types) := by
  induction htypes generalizing total result with
  | nil =>
      rw [homogeneousFields] at h
      cases h
      rw [CShape.fieldsMembers, floatingMembers, if_pos (by simp)]
      exact Eq.refl _
  | @cons field type fields types hfield _ ih =>
      rw [homogeneousFields] at h
      obtain ⟨count, hcount, h⟩ := bind_eq_ok.mp h
      obtain rfl := hmembers _ _ _ hfield hcount
      rw [CShape.fieldsMembers]
      by_cases hall : ∀ c ∈ type.members, c = some .sse
      · rw [floatingMembers, if_pos hall] at h
        have hmin : min 255 (min 255 total + min 255 (0 + type.members.length)) =
            min 255 (total + type.members.length) := by omega
        simp only [hmin] at h
        rw [ih _ h, floatingMembers, floatingMembers, List.length_append, Nat.add_assoc]
        have hiff : (∀ c ∈ type.members ++ CShape.fieldsMembers types, c = some RegClass.sse) ↔
            ∀ c ∈ CShape.fieldsMembers types, c = some RegClass.sse := by
          rw [List.forall_mem_append]
          exact and_iff_right hall
        simp only [hiff]
      · rw [floatingMembers, if_neg hall] at h
        cases h
        rw [floatingMembers, if_neg fun h ↦ hall fun c hc ↦ h c (List.mem_append_left _ hc)]

theorem homogeneousF64Members_eq {fuel : Nat} {typeNode : MirType} {type : CShape}
    {result : Option Nat} (htype : classifier.shapeInner fuel typeNode = some type)
    (h : classifier.homogeneousF64Members fuel typeNode = .ok result) :
    result = floatingMembers 0 type.members := by
  induction fuel generalizing typeNode type result with
  | zero =>
      cases typeNode with
      | struct name => cases htype
      | primitive name => cases name <;> cases htype <;> cases h <;> decide
      | _ => cases htype; cases h; decide
  | succ fuel ih =>
      cases typeNode with
      | struct name =>
          rw [shapeInner] at htype
          obtain ⟨declared, hfound, htype⟩ := Option.bind_eq_some_iff.mp htype
          obtain ⟨types, htypes, rfl⟩ := Option.map_eq_some_iff.mp htype
          rw [homogeneousF64Members] at h
          obtain ⟨declared', hdeclared, h⟩ := bind_eq_ok.mp h
          obtain rfl := structureNamed_eq hdeclared hfound
          have htypes := mapM_option_eq_some htypes
          split at h
          · rename_i hnil
            rw [hnil] at htypes
            cases htypes
            cases h
            decide
          · rename_i hcons
            have heq := homogeneousFields_eq (fun _ _ _ ↦ ih) htypes 0 h
            generalize declared'.fields = fields at htypes hcons
            cases htypes with
            | nil => exact absurd (Eq.refl _) hcons
            | cons _ _ =>
                rw [heq, CShape.members, CShape.fieldsMembers]
      | primitive name => cases name <;> cases htype <;> cases h <;> decide
      | _ => cases htype; cases h; decide

end NativeAbiClassifier

end CalcKernel
