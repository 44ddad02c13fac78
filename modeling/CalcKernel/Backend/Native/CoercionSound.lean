import CalcKernel.Backend.Native.CoercionShapes

/-!
# Aggregates keep their fields

Registers that stand at multiples of eight bytes carry a structure through memory, if the slot
that the thunk makes is as large as they are.
-/

namespace CalcKernel

open Lib

/-! ## Registers at multiples of eight -/

/-- The registers stand in memory where the bytes of their chunks do. -/
structure Regular (registers : List NativeAbiRegister) (coercion : CoercionType) : Prop where
  places : coercion.places = registers.mapIdx fun k r ↦ (8 * k, r)
  within : ∀ k r, registers[k]? = some r → 8 * k + r.bytes ≤ coercion.size

theorem findSome?_eq_of_forall {α β : Type} {f : α → Option β} {l : List α} {b : β}
    (h : ∀ a ∈ l, f a = none ∨ f a = some b) (hex : ∃ a ∈ l, f a = some b) :
    l.findSome? f = some b := by
  induction l with
  | nil =>
      obtain ⟨a, ha, -⟩ := hex
      cases ha
  | cons a l ih =>
      rw [List.findSome?_cons]
      rcases h a List.mem_cons_self with hnone | hsome
      · rw [hnone]
        refine ih (fun c hc ↦ h c (List.mem_cons_of_mem _ hc)) ?_
        obtain ⟨c, hc, hb⟩ := hex
        rcases List.mem_cons.mp hc with rfl | hc
        · rw [hnone] at hb
          cases hb
        · exact ⟨c, hc, hb⟩
      · rw [hsome]

namespace Regular

variable {registers : List NativeAbiRegister} {coercion : CoercionType} {type : CShape}

/-- The bytes of the registers stand in memory as they did in the structure. -/
theorem image_getElem? (h : Regular registers coercion) (bytes : Nat → Option UInt8)
    {k j : Nat} {r : NativeAbiRegister} (hr : registers[k]? = some r) (hj : j < r.bytes) :
    (coercion.image (registerContents registers bytes))[8 * k + j]? =
      some (bytes (8 * k + j)) := by
  have hwithin := h.within k r hr
  rw [CoercionType.image, List.getElem?_map, List.getElem?_range (by omega), Option.map_some,
    h.places]
  refine congrArg some ?_
  have hcontents (k' : Nat) (r' : NativeAbiRegister) (hle : 8 * k' ≤ 8 * k + j)
      (hlt : 8 * k + j < 8 * k' + r'.bytes) :
      ((List.range r'.bytes).map fun j' ↦ bytes (8 * k' + j')).getD (8 * k + j - 8 * k') none =
        bytes (8 * k + j) := by
    rw [List.getD_eq_getElem?_getD, List.getElem?_map, List.getElem?_range (by omega)]
    exact congrArg bytes (by omega)
  refine (congrArg (Option.getD · none) (findSome?_eq_of_forall (b := bytes (8 * k + j)) ?_ ?_))
  · rintro ⟨⟨place, r'⟩, part⟩ hmem
    obtain ⟨k', hk'⟩ := List.mem_iff_getElem?.mp hmem
    obtain ⟨hplace, hpart⟩ := List.getElem?_zip_eq_some.mp hk'
    rw [List.getElem?_mapIdx] at hplace
    rw [registerContents, List.getElem?_mapIdx] at hpart
    obtain ⟨r'', hr'', heq⟩ := Option.map_eq_some_iff.mp hplace
    rw [hr'', Option.map_some] at hpart
    cases heq
    cases hpart
    dsimp only
    split
    · rename_i hin
      exact .inr (congrArg some (hcontents k' r' hin.1 hin.2))
    · exact .inl (Eq.refl _)
  · refine ⟨((8 * k, r), (List.range r.bytes).map fun j' ↦ bytes (8 * k + j')), ?_, ?_⟩
    · refine List.mem_iff_getElem?.mpr ⟨k, List.getElem?_zip_eq_some.mpr ⟨?_, ?_⟩⟩
      · rw [List.getElem?_mapIdx, hr, Option.map_some]
      · rw [registerContents, List.getElem?_mapIdx, hr, Option.map_some]
    · dsimp only
      rw [if_pos (by omega), hcontents k r (by omega) (by omega)]

/-- A byte that is in the register of its chunk. -/
theorem exists_register {o : Nat} (hin : FieldsInRegisters type registers)
    (ho : type.FieldByte o) : ∃ r, registers[o / 8]? = some r ∧ o % 8 < r.bytes := by
  obtain ⟨r, hr, hbits⟩ := hin o ho
  exact ⟨r, hr, by rw [NativeAbiRegister.bytes]; omega⟩

theorem parameterUnchanged_iff (h : Regular registers coercion)
    (hin : FieldsInRegisters type registers) :
    ParameterUnchanged type registers coercion ↔ coercion.size ≤ type.size := by
  have hlength (bytes : Nat → Option UInt8) :
      (coercion.image (registerContents registers bytes)).length = coercion.size := by
    rw [CoercionType.image, List.length_map, List.length_range]
  constructor
  · intro hunchanged
    obtain ⟨out, hout, -⟩ := hunchanged fun _ ↦ none
    rw [reinterpretValue, hlength] at hout
    by_contra hlt
    rw [if_neg hlt] at hout
    cases hout
  · intro hle bytes
    refine ⟨_, by rw [reinterpretValue, hlength, if_pos hle], fun o ho ↦ ?_⟩
    obtain ⟨r, hr, hbyte⟩ := exists_register hin ho
    have hget := h.image_getElem? bytes hr hbyte
    have hdiv : 8 * (o / 8) + o % 8 = o := by omega
    rw [hdiv] at hget
    rw [List.getElem?_append_left (List.getElem?_eq_some_iff.mp hget).1]
    exact hget

theorem resultUnchanged (h : Regular registers coercion) (hcovers : type.size ≤ coercion.size)
    (hin : FieldsInRegisters type registers) : ResultUnchanged type coercion := by
  intro bytes
  have hlength : ((List.range type.size).map bytes).length = type.size := by
    rw [List.length_map, List.length_range]
  refine ⟨_, by rw [reinterpretValue, hlength, if_pos hcovers], fun o ho ↦ ?_⟩
  obtain ⟨r, hr, hbyte⟩ := exists_register hin ho
  have hsize : o < type.size := by
    obtain ⟨s, hs, hholds⟩ := ho
    have hwithin := (type.spans_within 0 s hs).2
    exact lt_of_lt_of_le hholds.2 (by omega)
  refine ⟨((((List.range type.size).map bytes) ++
    List.replicate (coercion.size - ((List.range type.size).map bytes).length) none).drop
      (8 * (o / 8))).take r.bytes, ?_, ?_⟩
  · rw [CoercionType.contents, List.getElem?_map, h.places, List.getElem?_mapIdx, hr, hlength]
    exact Eq.refl _
  · have hdiv : 8 * (o / 8) + o % 8 = o := by omega
    rw [List.getElem?_take_of_lt hbyte, List.getElem?_drop, hdiv,
      List.getElem?_append_left (by rw [hlength]; exact hsize), List.getElem?_map,
      List.getElem?_range hsize]
    exact Eq.refl _

end Regular

/-! ## The registers of each target -/

/-- A scalar ends in the eightbyte in which it starts. -/
theorem stop_le {s : Span} (h : s.width.bytes ∣ s.offset) : s.stop ≤ 8 * (s.offset / 8) + 8 := by
  obtain ⟨offset, cls, width⟩ := s
  cases width <;> simp only [Span.stop, Width.bytes] at h ⊢ <;> omega

theorem chunkBits_spans_le (type : CShape) (k : Nat) : chunkBits k (type.spans 0) 0 ≤ 64 := by
  refine chunkBits_le (fun s hs hk ↦ ?_) (Nat.zero_le _)
  have hstop := stop_le (type.spans_aligned 0 (Nat.dvd_zero _) s hs)
  omega

theorem le_normalizedIntegerWidth {usedBits : Nat} (h : usedBits ≤ 64) :
    usedBits ≤ normalizedIntegerWidth usedBits := by
  unfold normalizedIntegerWidth
  split_ifs <;> omega

/-- The register of an eightbyte. -/
def sysvRegister (type : CShape) (k : Nat) : NativeAbiRegister where
  cls := if ∀ s ∈ type.spans 0, s.offset / 8 = k → s.cls = .sse then .floating else .integer
  bits := normalizedIntegerWidth (chunkBits k (type.spans 0) 0)

theorem sysvRegister_floating {type : CShape} {k : Nat} : (sysvRegister type k).cls = .floating ↔
    ∀ s ∈ type.spans 0, s.offset / 8 = k → s.cls = .sse := by
  rw [sysvRegister]
  split
  · exact iff_of_true (Eq.refl _) ‹_›
  · exact iff_of_false NativeAbiRegisterClass.noConfusion ‹_›

theorem eightbyteClass_eq {type : CShape} {k : Nat}
    (h : (eightbyteClass (type.leaves 0) k).isSome) :
    (eightbyteClass (type.leaves 0) k) = some (sysvRegister type k).cls.regClass := by
  rw [sysvRegister]
  unfold eightbyteClass at h ⊢
  rw [type.leaves_eq_spans] at h ⊢
  by_cases hinteger : ((type.spans 0).map fun s ↦ (s.offset, s.cls)).any
      fun leaf ↦ leaf.1 / 8 = k ∧ leaf.2 = .integer
  · rw [if_pos hinteger]
    obtain ⟨leaf, hleaf, hk⟩ := List.any_eq_true.mp hinteger
    obtain ⟨s, hs, rfl⟩ := List.mem_map.mp hleaf
    obtain ⟨hk, hcls⟩ := of_decide_eq_true hk
    rw [if_neg fun hall ↦ by rw [hall s hs hk] at hcls; cases hcls]
    exact Eq.refl _
  · rw [if_neg hinteger] at h ⊢
    split at h
    · rename_i hany
      rw [if_pos hany, if_pos]
      · exact Eq.refl _
      · intro s hs hk
        cases hcls : s.cls with
        | sse => exact Eq.refl _
        | integer =>
            refine absurd (List.any_eq_true.mpr ⟨_, List.mem_map_of_mem hs, ?_⟩) hinteger
            exact decide_eq_true ⟨hk, hcls⟩
    · cases h

namespace NativeAbiClassifier

variable {classifier : NativeAbiClassifier} {typeNode : MirType} {type : CShape}
  {registers : List NativeAbiRegister}

theorem regClass_injective {a b : NativeAbiRegisterClass} (h : a.regClass = b.regClass) : a = b := by
  cases a <;> cases b <;> first | exact Eq.refl _ | cases h

theorem chunks_of_classifySysv (htype : classifier.shape typeNode = some type) {n : Nat}
    (hn : ∀ k < n, (eightbyteClass (type.leaves 0) k).isSome) {chunks : List AggregateChunk}
    (h : classifier.classifySysvChunks classifier.depth typeNode 0
      (List.replicate n AggregateChunk.default) = .ok chunks) :
    (chunks.map fun chunk ↦
      (⟨chunk.cls.getD .integer, normalizedIntegerWidth chunk.usedBits⟩ : NativeAbiRegister)) =
        (List.range n).map (sysvRegister type) := by
  obtain ⟨hclasses, hused⟩ := classifySysvChunks_marked (le_refl _) htype (Nat.dvd_zero _) h
  refine List.ext_getElem? fun k ↦ ?_
  have hclasses := hclasses k
  have hused := hused k
  rw [← type.leaves_eq_spans, List.getElem?_replicate] at hclasses
  rw [List.getElem?_replicate] at hused
  rw [List.getElem?_map, List.getElem?_map]
  by_cases hk : k < n
  · rw [if_pos hk] at hclasses hused
    rw [List.getElem?_range hk]
    obtain ⟨chunk, hchunk, hcls⟩ := Option.map_eq_some_iff.mp hclasses
    rw [hchunk] at hused ⊢
    have hbits : chunk.usedBits = chunkBits k (type.spans 0) 0 := Option.some.inj hused
    rw [eightbyteClass_eq (hn k hk)] at hcls
    rw [Option.map_some, Option.map_some, hbits]
    refine congrArg (fun cls ↦ some (NativeAbiRegister.mk cls _)) ?_
    have hcls : chunk.regClass = some (sysvRegister type k).cls.regClass :=
      hcls.trans (none_joinClass _)
    rw [AggregateChunk.regClass] at hcls
    obtain ⟨cls, hsome, hcls⟩ := Option.map_eq_some_iff.mp hcls
    rw [hsome]
    exact regClass_injective hcls
  · rw [if_neg hk] at hused
    have hnone : chunks[k]? = none := Option.map_eq_none_iff.mp hused
    rw [hnone, List.getElem?_eq_none (by simpa using hk)]
    exact Eq.refl _

theorem exists_classifySysv {position : NativeAbiPosition}
    (h : classifier.classifySysv typeNode position = .ok (.direct registers)) :
    ∃ type, classifier.shape typeNode = some type ∧
      classifier.layout typeNode = .ok ⟨type.size, type.align.bytes⟩ ∧ type.size ≤ 16 ∧
        registers = (List.range ((type.size + 7) / 8)).map (sysvRegister type) := by
  unfold classifySysv at h
  obtain ⟨⟨size, alignment⟩, hlayout, h⟩ := bind_eq_ok.mp h
  obtain ⟨type, htype, rfl, rfl⟩ := layout_shape hlayout
  dsimp only at h
  split at h
  · cases h
  · rename_i hle
    obtain ⟨chunks, hchunks, h⟩ := bind_eq_ok.mp h
    cases h
    have hle : type.size ≤ 16 := by omega
    exact ⟨type, htype, hlayout, hle,
      chunks_of_classifySysv htype (fun k hk ↦ eightbyteClass_leaves hle hk) hchunks⟩

/-- All members are floating, and there are one to four. -/
def HomogeneousGroup (type : CShape) : Prop :=
  (∀ c ∈ type.members, c = some .sse) ∧ 1 ≤ type.members.length ∧ type.members.length ≤ 4

theorem exists_classifyAapcs64
    (h : classifier.classifyAapcs64 typeNode = .ok (.direct registers)) :
    ∃ type, classifier.shape typeNode = some type ∧
      classifier.layout typeNode = .ok ⟨type.size, type.align.bytes⟩ ∧
        ((HomogeneousGroup type ∧ type.size = 8 * type.members.length ∧
            registers = List.replicate type.members.length ⟨.floating, 64⟩) ∨
          (¬ HomogeneousGroup type ∧
            registers = List.replicate ((type.size + 7) / 8) ⟨.integer, 64⟩)) := by
  unfold classifyAapcs64 at h
  obtain ⟨⟨size, alignment⟩, hlayout, h⟩ := bind_eq_ok.mp h
  obtain ⟨type, htype, rfl, rfl⟩ := layout_shape hlayout
  obtain ⟨members, hmembers, h⟩ := bind_eq_ok.mp h
  obtain rfl := homogeneousF64Members_eq htype hmembers
  have hcount : ((floatingMembers 0 type.members).any fun n ↦ decide (1 ≤ n ∧ n ≤ 4)) = true ↔
      HomogeneousGroup type := by
    rw [floatingMembers, HomogeneousGroup]
    split
    · rename_i hall
      rw [Option.any_some, decide_eq_true_iff, and_iff_right hall]
      omega
    · rename_i hall
      exact iff_of_false (by simp) fun h ↦ hall h.1
  refine ⟨type, htype, hlayout, ?_⟩
  split at h
  · rename_i hany
    have hgroup := hcount.mp hany
    cases h
    rw [floatingMembers, if_pos hgroup.1, Option.getD_some]
    have hmin : min 255 (0 + type.members.length) = type.members.length := by
      have hle := hgroup.2.2
      omega
    rw [hmin]
    exact .inl ⟨hgroup, (type.size_of_members (shapeInner_wideFloats htype) hgroup.1).2, Eq.refl _⟩
  · rename_i hany
    split at h
    · cases h
      exact .inr ⟨mt hcount.mpr hany, Eq.refl _⟩
    · cases h

theorem exists_classifyWindowsX64
    (h : classifier.classifyWindowsX64 typeNode = .ok (.direct registers)) :
    ∃ type, classifier.shape typeNode = some type ∧
      classifier.layout typeNode = .ok ⟨type.size, type.align.bytes⟩ ∧
        (type.size = 1 ∨ type.size = 2 ∨ type.size = 4 ∨ type.size = 8) ∧
          registers = [⟨.integer, type.size * 8⟩] := by
  unfold classifyWindowsX64 at h
  obtain ⟨⟨size, alignment⟩, hlayout, h⟩ := bind_eq_ok.mp h
  obtain ⟨type, htype, rfl, rfl⟩ := layout_shape hlayout
  dsimp only at h
  split at h
  · cases h
    exact ⟨type, htype, hlayout, ‹_›, Eq.refl _⟩
  · cases h

end NativeAbiClassifier

/-! ## Widths -/

/-- The one register of a small structure is as wide as the structure is long. -/
theorem bits_of_size_le {type : CShape} (hpos : 0 < type.size) (hle : type.size ≤ 8) :
    (sysvRegister type 0).bits = normalizedIntegerWidth (8 * type.size) := by
  have hupper : chunkBits 0 (type.spans 0) 0 ≤ 8 * type.size := by
    refine chunkBits_le (fun s hs _ ↦ ?_) (Nat.zero_le _)
    have hwithin := (type.spans_within 0 s hs).2
    omega
  have hlower : ∀ s ∈ type.spans 0, 8 * s.stop ≤ chunkBits 0 (type.spans 0) 0 := by
    intro s hs
    have hwithin := (type.spans_within 0 s hs).2
    have hwidth := s.width.bytes_pos
    have hk : s.offset / 8 = 0 := by
      rw [Span.stop] at hwithin
      omega
    have hbits := le_chunkBits_of_mem hs hk 0
    omega
  obtain ⟨last, hlast, -, hstop⟩ := type.exists_span_last hpos
  have hbits := hlower last hlast
  have hdvd := type.align_dvd_size
  have halign : type.align = .one ∨ 8 * type.align.bytes ≤ chunkBits 0 (type.spans 0) 0 := by
    by_cases hone : type.align = .one
    · exact .inl hone
    · obtain ⟨s, hs, hwidth⟩ := type.exists_span_align 0 hone
      have hs' := hlower s hs
      rw [Span.stop, hwidth] at hs'
      exact .inr (by omega)
  show normalizedIntegerWidth _ = normalizedIntegerWidth _
  generalize chunkBits 0 (type.spans 0) 0 = used at hupper hbits halign
  generalize type.size = size at *
  unfold normalizedIntegerWidth
  rcases hwidth : type.align <;> rw [hwidth] at hdvd halign hstop <;>
    simp only [Width.bytes, reduceCtorEq, false_or] at hdvd halign hstop <;>
    split_ifs <;> omega

/-- Of two registers one is full. -/
theorem bits_of_lt_size {type : CShape} (hlt : 8 < type.size) (hle : type.size ≤ 16) :
    (sysvRegister type 0).bits = 64 ∨ (sysvRegister type 1).bits = 64 := by
  have hfull (k : Nat) (h : 32 < chunkBits k (type.spans 0) 0) : (sysvRegister type k).bits = 64 := by
    show normalizedIntegerWidth _ = 64
    unfold normalizedIntegerWidth
    split_ifs <;> omega
  have hdvd := type.align_dvd_size
  by_cases height : type.align = .eight
  · obtain ⟨s, hs, hwidth⟩ := type.exists_span_align 0 (by rw [height]; decide)
    have hwithin := (type.spans_within 0 s hs).2
    rw [Span.stop, hwidth, height, Width.bytes] at hwithin
    have hbits := le_chunkBits_of_mem hs (Eq.refl _) 0
    have halignedOffset := type.spans_aligned 0 (Nat.dvd_zero _) s hs
    rw [hwidth, height, Width.bytes] at halignedOffset
    rw [Span.stop, hwidth, height, Width.bytes] at hbits
    rcases (by omega : s.offset / 8 = 0 ∨ s.offset / 8 = 1) with hk | hk <;> rw [hk] at hbits
    · exact .inl (hfull 0 (by omega))
    · exact .inr (hfull 1 (by omega))
  · have hfour : type.align.bytes ∣ 4 := by
      cases halign : type.align <;> first | decide | exact absurd halign height
    obtain ⟨s, hs, hoffset⟩ := type.exists_span_at 0 4 (Nat.dvd_zero _) hfour (Nat.zero_le _)
      (by omega)
    have hbits := le_chunkBits_of_mem hs (k := 0) (by omega) 0
    have hwidth := s.width.bytes_pos
    rw [Span.stop] at hbits
    exact .inl (hfull 0 (by omega))

/-! ## The coercion of each target -/

theorem normalizedIntegerWidth_eq (usedBits : Nat) : normalizedIntegerWidth usedBits = 8 ∨
    normalizedIntegerWidth usedBits = 16 ∨ normalizedIntegerWidth usedBits = 32 ∨
      normalizedIntegerWidth usedBits = 64 := by
  unfold normalizedIntegerWidth
  split_ifs <;> simp

theorem sysvRegister_bits (type : CShape) (k : Nat) : (sysvRegister type k).bits = 8 ∨
    (sysvRegister type k).bits = 16 ∨ (sysvRegister type k).bits = 32 ∨
      (sysvRegister type k).bits = 64 :=
  normalizedIntegerWidth_eq _

theorem regular_nil : Regular [] (.literalStruct []) :=
  ⟨Eq.refl _, fun _ _ h ↦ by cases h⟩

theorem regular_register (r : NativeAbiRegister) : Regular [r] (.register r) := by
  refine ⟨Eq.refl _, fun k r' h ↦ ?_⟩
  cases k with
  | zero =>
      cases h
      rw [CoercionType.size]
      omega
  | succ k => cases h

/-- Two registers of which one is full stand in two eightbytes. -/
theorem regular_pair {a b : NativeAbiRegister}
    (ha : a.bits = 8 ∨ a.bits = 16 ∨ a.bits = 32 ∨ a.bits = 64)
    (hb : b.bits = 8 ∨ b.bits = 16 ∨ b.bits = 32 ∨ b.bits = 64) (h : a.bits = 64 ∨ b.bits = 64) :
    Regular [a, b] (.literalStruct [a, b]) ∧ (CoercionType.literalStruct [a, b]).size = 16 := by
  have hsize : (CoercionType.literalStruct [a, b]).size = 16 := by
    simp only [CoercionType.size, structAlign, structEnd, roundUp, NativeAbiRegister.bytes]
    rcases ha with ha | ha | ha | ha <;> rcases hb with hb | hb | hb | hb <;>
      simp [ha, hb] at h ⊢
  have hplaces : (CoercionType.literalStruct [a, b]).places = [(0, a), (8, b)] := by
    simp only [CoercionType.places, structPlaces, roundUp, NativeAbiRegister.bytes]
    rcases ha with ha | ha | ha | ha <;> rcases hb with hb | hb | hb | hb <;>
      simp [ha, hb] at h ⊢
  refine ⟨⟨hplaces, fun k r hr ↦ ?_⟩, hsize⟩
  rw [hsize, NativeAbiRegister.bytes]
  match k with
  | 0 =>
      cases hr
      omega
  | 1 =>
      cases hr
      omega
  | k + 2 => cases hr

theorem regular_array {r : NativeAbiRegister} (hr : r.bytes = 8) (n : Nat) :
    Regular (List.replicate n r) (.array r n) := by
  refine ⟨List.ext_getElem? fun k ↦ ?_, fun k r' h ↦ ?_⟩
  · rw [CoercionType.places, List.getElem?_map, List.getElem?_mapIdx, List.getElem?_replicate, hr,
      Nat.mul_comm 8]
    by_cases hk : k < n
    · rw [if_pos hk, List.getElem?_range hk]
      exact Eq.refl _
    · rw [if_neg hk, List.getElem?_eq_none (by simpa using hk)]
      exact Eq.refl _
  · rw [List.getElem?_replicate] at h
    split at h
    · rename_i hk
      cases h
      rw [CoercionType.size, hr]
      omega
    · cases h

theorem coercionType_of_isSysv {target : NativeAbiTarget} (h : target.isSysv = true)
    {position : NativeAbiPosition} {registers : List NativeAbiRegister} {coercion : CoercionType}
    (hc : coercionType target position registers = .ok coercion) :
    (∃ r, registers = [r] ∧ coercion = .register r) ∨
      (registers.length ≠ 1 ∧ coercion = .literalStruct registers) := by
  cases position with
  | parameter =>
      rw [coercionType, aggregateParameterTypes, if_pos h] at hc
      cases htypes : registerTypes registers with
      | error e =>
          rw [htypes] at hc
          cases hc
      | ok types =>
          rw [htypes] at hc
          match registers with
          | [] =>
              cases hc
              exact .inr ⟨by simp, Eq.refl _⟩
          | [r] =>
              cases hc
              exact .inl ⟨r, Eq.refl _, Eq.refl _⟩
          | a :: b :: rest =>
              cases hc
              refine .inr ⟨by simp, ?_⟩
              rw [List.map_cons, List.map_cons, joinedType, ← List.map_cons, ← List.map_cons,
                List.filterMap_map]
              · exact congrArg CoercionType.literalStruct List.filterMap_some
              · simp
  | «return» =>
      rw [coercionType] at hc
      match registers with
      | [] =>
          rw [resultCoercionType, if_pos h] at hc
          · obtain ⟨types, -, hc⟩ := bind_eq_ok.mp hc
            cases hc
            exact .inr ⟨by simp, Eq.refl _⟩
          · simp
      | [r] =>
          rw [resultCoercionType] at hc
          obtain ⟨types, -, hc⟩ := bind_eq_ok.mp hc
          cases hc
          exact .inl ⟨r, Eq.refl _, Eq.refl _⟩
      | a :: b :: rest =>
          rw [resultCoercionType, if_pos h] at hc
          · obtain ⟨types, -, hc⟩ := bind_eq_ok.mp hc
            cases hc
            exact .inr ⟨by simp, Eq.refl _⟩
          · simp

theorem coercionType_of_group {target : NativeAbiTarget} (h : target.isSysv = false)
    {position : NativeAbiPosition} {registers : List NativeAbiRegister} {coercion : CoercionType}
    (hc : coercionType target position registers = .ok coercion) :
    groupRegisterTypes registers = .ok coercion := by
  cases position with
  | parameter =>
      rw [coercionType, aggregateParameterTypes, if_neg (by rw [h]; decide)] at hc
      cases htypes : registerTypes registers with
      | error e =>
          rw [htypes] at hc
          cases hc
      | ok types =>
          rw [htypes] at hc
          cases hgroup : groupRegisterTypes registers with
          | error e =>
              rw [hgroup] at hc
              cases hc
          | ok group =>
              rw [hgroup] at hc
              cases hc
              exact Eq.refl _
  | «return» =>
      have hgroup : (target.isSysv = true) = False := by rw [h]; exact eq_false (by decide)
      rw [coercionType] at hc
      match registers with
      | [] =>
          rw [resultCoercionType] at hc
          · simp only [hgroup, if_false] at hc
            obtain ⟨types, -, hc⟩ := bind_eq_ok.mp hc
            exact hc
          · simp
      | [r] =>
          rw [resultCoercionType] at hc
          obtain ⟨types, -, hc⟩ := bind_eq_ok.mp hc
          exact hc
      | a :: b :: rest =>
          rw [resultCoercionType] at hc
          · simp only [hgroup, if_false] at hc
            obtain ⟨types, -, hc⟩ := bind_eq_ok.mp hc
            exact hc
          · simp

theorem groupRegisterTypes_replicate {r : NativeAbiRegister} (hr : r.bits = 64) {n : Nat}
    {coercion : CoercionType} (h : groupRegisterTypes (List.replicate n r) = .ok coercion) :
    Regular (List.replicate n r) coercion ∧ coercion.size = 8 * n := by
  have hbytes : r.bytes = 8 := by rw [NativeAbiRegister.bytes, hr]
  match n with
  | 0 => cases h
  | 1 =>
      cases h
      exact ⟨regular_register r, hbytes⟩
  | n + 2 =>
      cases h
      refine ⟨?_, ?_⟩
      · rw [List.length_replicate]
        exact regular_array hbytes (n + 2)
      · rw [CoercionType.size, List.length_replicate, hbytes]
        omega

/-- A coercion whose registers stand where the chunks do and take no fewer bytes. -/
structure Carries (target : NativeAbiTarget) (type : CShape) (registers : List NativeAbiRegister)
    (coercion : CoercionType) : Prop where
  regular : Regular registers coercion
  covers : type.size ≤ coercion.size
  fits : coercion.size ≤ type.size ↔ FitsSlot target type.size

theorem carries_sysv {target : NativeAbiTarget} (h : target.isSysv = true) {type : CShape}
    (hle : type.size ≤ 16) {position : NativeAbiPosition} {coercion : CoercionType}
    (hc : coercionType target position
      ((List.range ((type.size + 7) / 8)).map (sysvRegister type)) = .ok coercion) :
    Carries target type ((List.range ((type.size + 7) / 8)).map (sysvRegister type)) coercion := by
  have hfits : FitsSlot target type.size ↔ type.size = 0 ∨ type.size = 1 ∨ type.size = 2 ∨
      type.size = 4 ∨ type.size = 8 ∨ type.size = 16 := by
    cases target <;> first | exact Iff.rfl | cases h
  have hc := coercionType_of_isSysv h hc
  rcases (by omega : type.size = 0 ∨ (0 < type.size ∧ type.size ≤ 8) ∨ 8 < type.size) with
    hzero | ⟨hpos, hsmall⟩ | hlarge
  · rw [hzero] at hc ⊢
    obtain rfl : coercion = .literalStruct [] := by
      rcases hc with ⟨r, hr, -⟩ | ⟨-, hc⟩
      · cases hr
      · exact hc
    refine ⟨regular_nil, by rw [hzero]; exact Nat.zero_le _, ?_⟩
    rw [hfits, hzero]
    decide
  · have hregisters : (List.range ((type.size + 7) / 8)).map (sysvRegister type) =
        [sysvRegister type 0] := by
      have hn : (type.size + 7) / 8 = 1 := by omega
      rw [hn]
      exact Eq.refl _
    rw [hregisters] at hc ⊢
    obtain rfl : coercion = .register (sysvRegister type 0) := by
      rcases hc with ⟨r, hr, hc⟩ | ⟨hne, -⟩
      · cases hr
        exact hc
      · exact absurd (Eq.refl _) hne
    have hsize : (CoercionType.register (sysvRegister type 0)).size =
        normalizedIntegerWidth (8 * type.size) / 8 := by
      rw [CoercionType.size, NativeAbiRegister.bytes, bits_of_size_le hpos hsmall]
    refine ⟨regular_register _, ?_, ?_⟩ <;> rw [hsize]
    · unfold normalizedIntegerWidth
      split_ifs <;> omega
    · rw [hfits]
      unfold normalizedIntegerWidth
      split_ifs <;> omega
  · have hregisters : (List.range ((type.size + 7) / 8)).map (sysvRegister type) =
        [sysvRegister type 0, sysvRegister type 1] := by
      have hn : (type.size + 7) / 8 = 2 := by omega
      rw [hn]
      exact Eq.refl _
    rw [hregisters] at hc ⊢
    obtain rfl : coercion = .literalStruct [sysvRegister type 0, sysvRegister type 1] := by
      rcases hc with ⟨r, hr, -⟩ | ⟨-, hc⟩
      · cases hr
      · exact hc
    obtain ⟨hregular, hsize⟩ := regular_pair (sysvRegister_bits type 0) (sysvRegister_bits type 1)
      (bits_of_lt_size hlarge hle)
    refine ⟨hregular, by omega, ?_⟩
    rw [hfits, hsize]
    omega

theorem carries_replicate {target : NativeAbiTarget} (h : target.isSysv = false)
    (hfits : ∀ size, FitsSlot target size ↔ 8 ∣ size) {type : CShape} {r : NativeAbiRegister}
    (hr : r.bits = 64) {n : Nat} (hn : n = (type.size + 7) / 8) {position : NativeAbiPosition}
    {coercion : CoercionType}
    (hc : coercionType target position (List.replicate n r) = .ok coercion) :
    Carries target type (List.replicate n r) coercion := by
  obtain ⟨hregular, hsize⟩ := groupRegisterTypes_replicate hr (coercionType_of_group h hc)
  refine ⟨hregular, ?_, ?_⟩
  · rw [hsize]
    omega
  · rw [hsize, hfits]
    omega

theorem carries_windowsX64 {type : CShape} {position : NativeAbiPosition}
    {coercion : CoercionType}
    (hc : coercionType .windowsX86_64 position [⟨.integer, type.size * 8⟩] = .ok coercion) :
    Carries .windowsX86_64 type [⟨.integer, type.size * 8⟩] coercion := by
  cases coercionType_of_group (Eq.refl _) hc
  have heq : (CoercionType.register ⟨.integer, type.size * 8⟩).size = type.size := by
    rw [CoercionType.size, NativeAbiRegister.bytes]
    exact Nat.mul_div_cancel _ (by decide)
  exact ⟨regular_register _, heq.ge, iff_of_true heq.le trivial⟩

/-! ## Fields in chunks and registers -/

/-- The chunk of a byte of a field is used up to it. -/
theorem FieldByte.le_chunkBits {type : CShape} {o : Nat} (h : type.FieldByte o) :
    o / 8 < (type.size + 7) / 8 ∧
      8 * (o % 8) + 8 ≤ chunkBits (o / 8) (type.spans 0) 0 := by
  obtain ⟨s, hs, hlow, hhigh⟩ := h
  have hwithin := (type.spans_within 0 s hs).2
  have hstop := stop_le (type.spans_aligned 0 (Nat.dvd_zero _) s hs)
  have hk : s.offset / 8 = o / 8 := by omega
  have hbits := le_chunkBits_of_mem hs hk 0
  exact ⟨by omega, by omega⟩

theorem fieldsInChunks {classifier : NativeAbiClassifier} {typeNode : MirType} {type : CShape}
    (htype : classifier.shape typeNode = some type) {chunks : List AggregateChunk}
    (h : classifier.classifySysvChunks classifier.depth typeNode 0
      (List.replicate ((type.size + 7) / 8) AggregateChunk.default) = .ok chunks) :
    FieldsInChunks type chunks := by
  intro o ho
  obtain ⟨hk, hbits⟩ := FieldByte.le_chunkBits ho
  have hused := (NativeAbiClassifier.classifySysvChunks_marked (le_refl _) htype
    (Nat.dvd_zero _) h).2 (o / 8)
  rw [List.getElem?_replicate, if_pos hk] at hused
  obtain ⟨chunk, hchunk, heq⟩ := Option.map_eq_some_iff.mp hused
  exact ⟨chunk, hchunk, by rw [heq]; exact hbits⟩

theorem fieldsInRegisters_sysv (type : CShape) :
    FieldsInRegisters type ((List.range ((type.size + 7) / 8)).map (sysvRegister type)) := by
  intro o ho
  obtain ⟨hk, hbits⟩ := FieldByte.le_chunkBits ho
  refine ⟨sysvRegister type (o / 8), ?_, ?_⟩
  · rw [List.getElem?_map, List.getElem?_range hk]
    exact Eq.refl _
  · exact le_trans hbits (le_normalizedIntegerWidth (chunkBits_spans_le type _))

theorem fieldsInRegisters_replicate {type : CShape} {r : NativeAbiRegister} (hr : r.bits = 64)
    {n : Nat} (hn : n = (type.size + 7) / 8) : FieldsInRegisters type (List.replicate n r) := by
  intro o ho
  obtain ⟨hk, -⟩ := FieldByte.le_chunkBits ho
  refine ⟨r, ?_, by omega⟩
  rw [List.getElem?_replicate, if_pos (hn ▸ hk)]

theorem fieldsInRegisters_windowsX64 {type : CShape} (hle : type.size ≤ 8) :
    FieldsInRegisters type [⟨.integer, type.size * 8⟩] := by
  intro o ho
  obtain ⟨s, hs, hlow, hhigh⟩ := ho
  have hwithin := (type.spans_within 0 s hs).2
  have hk : o / 8 = 0 := by omega
  refine ⟨⟨.integer, type.size * 8⟩, by rw [hk]; exact Eq.refl _, ?_⟩
  show 8 * (o % 8) + 8 ≤ type.size * 8
  omega

/-! ## The coercion of a parameter exists -/

theorem registerTypes_ok {registers : List NativeAbiRegister}
    (h : ∀ r ∈ registers, r.cls = .floating → r.bits = 64) :
    ∃ types, registerTypes registers = .ok types := by
  rw [registerTypes]
  induction registers with
  | nil => exact ⟨[], Eq.refl _⟩
  | cons r registers ih =>
      obtain ⟨types, htypes⟩ := ih fun r' hr' ↦ h r' (List.mem_cons_of_mem _ hr')
      obtain ⟨type, htype⟩ : ∃ type, registerType r = .ok type := by
        have hr := h r List.mem_cons_self
        unfold registerType
        cases hcls : r.cls with
        | integer => exact ⟨_, Eq.refl _⟩
        | floating =>
            dsimp only
            rw [if_pos (hr hcls)]
            exact ⟨_, Eq.refl _⟩
      refine ⟨type :: types, ?_⟩
      rw [List.mapM_cons, htype, htypes]
      exact Eq.refl _

theorem exists_coercionType {target : NativeAbiTarget} {registers : List NativeAbiRegister}
    (hbits : ∀ r ∈ registers, r.cls = .floating → r.bits = 64)
    (hne : target.isSysv = false → registers ≠ []) :
    ∃ coercion, coercionType target .parameter registers = .ok coercion := by
  obtain ⟨types, htypes⟩ := registerTypes_ok hbits
  rw [coercionType, aggregateParameterTypes, htypes]
  cases hsysv : target.isSysv with
  | true => exact ⟨_, Eq.refl _⟩
  | false =>
      match registers with
      | [] => exact absurd (Eq.refl _) (hne hsysv)
      | [r] => exact ⟨_, Eq.refl _⟩
      | a :: b :: rest => exact ⟨_, Eq.refl _⟩

/-- A floating register is full. -/
theorem sysvRegister_bits_of_floating {type : CShape} (hwide : type.WideFloats) {k : Nat}
    (hsome : (eightbyteClass (type.leaves 0) k).isSome)
    (h : (sysvRegister type k).cls = .floating) : (sysvRegister type k).bits = 64 := by
  obtain ⟨s, hs, hk⟩ : ∃ s ∈ type.spans 0, s.offset / 8 = k := by
    by_contra hnone
    rw [type.leaves_eq_spans] at hsome
    unfold eightbyteClass at hsome
    have hany : ((type.spans 0).map fun s ↦ (s.offset, s.cls)).any
        (fun leaf ↦ leaf.1 / 8 = k) = false := by
      refine List.any_eq_false.mpr fun leaf hleaf ↦ ?_
      obtain ⟨s, hs, rfl⟩ := List.mem_map.mp hleaf
      exact fun heq ↦ hnone ⟨s, hs, of_decide_eq_true heq⟩
    have hinteger : ((type.spans 0).map fun s ↦ (s.offset, s.cls)).any
        (fun leaf ↦ leaf.1 / 8 = k ∧ leaf.2 = .integer) = false := by
      refine List.any_eq_false.mpr fun leaf hleaf ↦ ?_
      obtain ⟨s, hs, rfl⟩ := List.mem_map.mp hleaf
      exact fun heq ↦ hnone ⟨s, hs, (of_decide_eq_true heq).1⟩
    rw [hany, hinteger] at hsome
    cases hsome
  have hcls := sysvRegister_floating.mp h s hs hk
  have hwidth := type.spans_wide 0 hwide s hs hcls
  have hdvd := type.spans_aligned 0 (Nat.dvd_zero _) s hs
  have hbits := le_chunkBits_of_mem hs hk 0
  rw [Span.stop, hwidth, Width.bytes] at hbits
  rw [hwidth, Width.bytes] at hdvd
  have hle := chunkBits_spans_le type k
  have heq : chunkBits k (type.spans 0) 0 = 64 := by omega
  show normalizedIntegerWidth _ = 64
  rw [heq]
  decide

/-! ## When the fields are kept -/

/-- What the registers of a target are to a structure. -/
structure Classified (target : NativeAbiTarget) (type : CShape)
    (registers : List NativeAbiRegister) : Prop where
  inRegisters : FieldsInRegisters type registers
  floating : RegistersFloating target type registers
  carries : ∀ position coercion, coercionType target position registers = .ok coercion →
    Carries target type registers coercion
  exists_coercion : ¬ FitsSlot target type.size →
    ∃ coercion, coercionType target .parameter registers = .ok coercion

theorem classified_sysv {target : NativeAbiTarget} (h : target.isSysv = true) {type : CShape}
    (hwide : type.WideFloats) (hle : type.size ≤ 16) :
    Classified target type ((List.range ((type.size + 7) / 8)).map (sysvRegister type)) where
  inRegisters := fieldsInRegisters_sysv type
  floating := by
    have hchunks : ChunksFloating type
        ((List.range ((type.size + 7) / 8)).map (sysvRegister type)) := by
      intro k r hr
      rw [List.getElem?_map] at hr
      obtain ⟨k', hk', rfl⟩ := Option.map_eq_some_iff.mp hr
      obtain ⟨-, rfl⟩ := List.getElem?_eq_some_iff.mp hk'
      rw [List.getElem_range]
      exact sysvRegister_floating
    cases target <;> first | exact hchunks | cases h
  carries := fun _ _ hc ↦ carries_sysv h hle hc
  exists_coercion := by
    intro _
    refine exists_coercionType (fun r hr ↦ ?_) (fun hgroup ↦ by rw [h] at hgroup; cases hgroup)
    obtain ⟨k, hk, rfl⟩ := List.mem_map.mp hr
    exact sysvRegister_bits_of_floating hwide
      (NativeAbiClassifier.eightbyteClass_leaves hle (List.mem_range.mp hk))

/-- The targets that pass a group of registers of one class. -/
def IsAapcs64 (target : NativeAbiTarget) : Prop :=
  target = .aapcs64Linux ∨ target = .aapcs64Darwin ∨ target = .windowsArm64

theorem classified_replicate {target : NativeAbiTarget} (h : IsAapcs64 target) {type : CShape}
    {cls : NativeAbiRegisterClass}
    (hcls : cls = .floating ↔ NativeAbiClassifier.HomogeneousGroup type) {n : Nat}
    (hn : n = (type.size + 7) / 8) : Classified target type (List.replicate n ⟨cls, 64⟩) where
  inRegisters := fieldsInRegisters_replicate (Eq.refl _) hn
  floating := by
    have hgroup : GroupFloating type (List.replicate n ⟨cls, 64⟩) := by
      intro r hr
      obtain ⟨-, rfl⟩ := List.mem_replicate.mp hr
      exact hcls
    rcases h with rfl | rfl | rfl <;> exact hgroup
  carries := by
    intro position coercion hc
    rcases h with rfl | rfl | rfl <;>
      exact carries_replicate (Eq.refl _) (fun _ ↦ Iff.rfl) (Eq.refl _) hn hc
  exists_coercion := by
    intro hfits
    refine exists_coercionType (fun r hr _ ↦ ?_) (fun _ hnil ↦ hfits ?_)
    · obtain ⟨-, rfl⟩ := List.mem_replicate.mp hr
      exact Eq.refl _
    · have hzero : n = 0 := by
        rw [← List.length_replicate (n := n) (a := (⟨cls, 64⟩ : NativeAbiRegister)), hnil]
        exact Eq.refl _
      have hsize : type.size = 0 := by omega
      rw [hsize]
      rcases h with rfl | rfl | rfl <;> exact Nat.dvd_zero _

theorem exists_classified {classifier : NativeAbiClassifier} {target : NativeAbiTarget}
    {position : NativeAbiPosition} {typeNode : MirType} {registers : List NativeAbiRegister}
    (h : classifier.classifyAggregate target typeNode position = .ok (.direct registers)) :
    ∃ type, classifier.shape typeNode = some type ∧
      classifier.layout typeNode = .ok ⟨type.size, type.align.bytes⟩ ∧
        Classified target type registers := by
  have hsysv (hmode : classifier.classifySysv typeNode position = .ok (.direct registers))
      (htarget : target.isSysv = true) : ∃ type, classifier.shape typeNode = some type ∧
        classifier.layout typeNode = .ok ⟨type.size, type.align.bytes⟩ ∧
          Classified target type registers := by
    obtain ⟨type, htype, hlayout, hle, rfl⟩ := NativeAbiClassifier.exists_classifySysv hmode
    exact ⟨type, htype, hlayout,
      classified_sysv htarget (NativeAbiClassifier.shapeInner_wideFloats htype) hle⟩
  have haapcs (hmode : classifier.classifyAapcs64 typeNode = .ok (.direct registers))
      (htarget : IsAapcs64 target) : ∃ type, classifier.shape typeNode = some type ∧
        classifier.layout typeNode = .ok ⟨type.size, type.align.bytes⟩ ∧
          Classified target type registers := by
    obtain ⟨type, htype, hlayout, hregisters⟩ := NativeAbiClassifier.exists_classifyAapcs64 hmode
    refine ⟨type, htype, hlayout, ?_⟩
    rcases hregisters with ⟨hgroup, hsize, rfl⟩ | ⟨hgroup, rfl⟩
    · exact classified_replicate htarget (iff_of_true (Eq.refl _) hgroup) (by omega)
    · exact classified_replicate htarget
        (iff_of_false NativeAbiRegisterClass.noConfusion hgroup) (Eq.refl _)
  cases target with
  | sysvX86_64 => exact hsysv h (Eq.refl _)
  | darwinX86_64 => exact hsysv h (Eq.refl _)
  | aapcs64Linux => exact haapcs h (.inl (Eq.refl _))
  | aapcs64Darwin => exact haapcs h (.inr (.inl (Eq.refl _)))
  | windowsArm64 => exact haapcs h (.inr (.inr (Eq.refl _)))
  | windowsX86_64 =>
      obtain ⟨type, htype, hlayout, hsize, rfl⟩ :=
        NativeAbiClassifier.exists_classifyWindowsX64 h
      refine ⟨type, htype, hlayout, fieldsInRegisters_windowsX64 (by omega), trivial,
        fun _ _ hc ↦ carries_windowsX64 hc, fun hfits ↦ absurd trivial hfits⟩

theorem Classified.preserves_iff {classifier : NativeAbiClassifier} {target : NativeAbiTarget}
    {name : String} {type : CShape} {registers : List NativeAbiRegister}
    (h : Classified target type registers) (htype : classifier.shape (.struct name) = some type)
    (position : NativeAbiPosition) :
    CoercionPreserves classifier target position name type registers ↔
      position = .return ∨ FitsSlot target type.size := by
  constructor
  · intro hpreserves
    cases position with
    | «return» => exact .inl (Eq.refl _)
    | parameter =>
        by_contra hnot
        have hslot : ¬ FitsSlot target type.size := fun hfits ↦ hnot (.inr hfits)
        obtain ⟨coercion, hc⟩ := h.exists_coercion hslot
        have hcarries := h.carries _ _ hc
        have hunchanged := hpreserves.unchanged coercion hc
        have hle := (hcarries.regular.parameterUnchanged_iff h.inRegisters).mp hunchanged
        exact hslot (hcarries.fits.mp hle)
  · intro hfits
    refine ⟨fun _ chunks hchunks ↦ fieldsInChunks htype hchunks, h.inRegisters, h.floating,
      fun coercion hc ↦ ?_⟩
    have hcarries := h.carries _ _ hc
    cases position with
    | «return» => exact hcarries.regular.resultUnchanged hcarries.covers h.inRegisters
    | parameter =>
        have hslot := hfits.resolve_left NativeAbiPosition.noConfusion
        exact (hcarries.regular.parameterUnchanged_iff h.inRegisters).mpr
          (hcarries.fits.mpr hslot)

/-- A structure of a small integer and a floating number. -/
def sampleStructs : List MirStruct :=
  [⟨"Sample", [⟨"count", .primitive .i32⟩, ⟨"value", .primitive .f64⟩]⟩]

/-- A structure of three `i32`. -/
def tripleStructs : List MirStruct :=
  [⟨"Triple", [⟨"x", .primitive .i32⟩, ⟨"y", .primitive .i32⟩, ⟨"z", .primitive .i32⟩]⟩]

end CalcKernel
