import CalcKernel.Lib.CLayout

/-!
# The bytes of C types

The scalars of a type with the bytes they take: where they start, that they stay inside
the type, and that what is left between them is less than an alignment.
-/

namespace CalcKernel.Lib

/-- A scalar of a type, at its offset. -/
structure Span where
  offset : Nat
  cls : RegClass
  width : Width
deriving DecidableEq, Repr

namespace Span

def stop (s : Span) : Nat := s.offset + s.width.bytes

/-- The byte belongs to the scalar. -/
def Holds (s : Span) (o : Nat) : Prop := s.offset ≤ o ∧ o < s.stop

end Span

namespace CShape

mutual

/-- The scalars of a type that stands at `base`. -/
def spans (base : Nat) : CShape → List Span
  | .scalar cls width => [⟨base, cls, width⟩]
  | .struct fields => fieldsSpans base 0 fields

def fieldsSpans (base offset : Nat) : List CShape → List Span
  | [] => []
  | field :: fields =>
      field.spans (base + field.align.alignUp offset) ++
        fieldsSpans base (field.align.alignUp offset + field.size) fields

end

/-- A byte of a field, however deep. -/
def FieldByte (t : CShape) (o : Nat) : Prop := ∃ s ∈ t.spans 0, s.Holds o

mutual

theorem leaves_eq_spans : ∀ (t : CShape) (base : Nat),
    t.leaves base = (t.spans base).map fun s ↦ (s.offset, s.cls)
  | .scalar cls width, base => by
      rw [leaves, spans]
      exact Eq.refl _
  | .struct fields, base => by
      rw [leaves, spans]
      exact fieldsLeaves_eq_spans fields base 0

theorem fieldsLeaves_eq_spans : ∀ (fields : List CShape) (base offset : Nat),
    fieldsLeaves base offset fields = (fieldsSpans base offset fields).map fun s ↦ (s.offset, s.cls)
  | [], base, offset => by
      rw [fieldsLeaves, fieldsSpans]
      exact Eq.refl _
  | field :: fields, base, offset => by
      rw [fieldsLeaves, fieldsSpans, List.map_append, leaves_eq_spans field,
        fieldsLeaves_eq_spans fields]

end

mutual

theorem spans_within : ∀ (t : CShape) (base : Nat), ∀ s ∈ t.spans base,
    base ≤ s.offset ∧ s.stop ≤ base + t.size
  | .scalar cls width, base, s, h => by
      rw [spans, List.mem_singleton] at h
      subst h
      rw [size]
      exact ⟨le_refl _, le_refl _⟩
  | .struct fields, base, s, h => by
      rw [spans] at h
      obtain ⟨hlow, hhigh⟩ := fieldsSpans_within fields base 0 s h
      rw [size]
      have hle := (fieldsAlign fields).le_alignUp (fieldsEnd 0 fields)
      omega

theorem fieldsSpans_within : ∀ (fields : List CShape) (base offset : Nat),
    ∀ s ∈ fieldsSpans base offset fields,
      base + offset ≤ s.offset ∧ s.stop ≤ base + fieldsEnd offset fields
  | [], base, offset, s, h => by
      rw [fieldsSpans] at h
      cases h
  | field :: fields, base, offset, s, h => by
      rw [fieldsSpans] at h
      rw [fieldsEnd]
      have hle := field.align.le_alignUp offset
      rcases List.mem_append.mp h with h | h
      · obtain ⟨hlow, hhigh⟩ := spans_within field _ s h
        have hend := le_fieldsEnd fields (field.align.alignUp offset + field.size)
        omega
      · obtain ⟨hlow, hhigh⟩ := fieldsSpans_within fields base _ s h
        omega

end

mutual

/-- A scalar of an aligned type is aligned. -/
theorem spans_aligned : ∀ (t : CShape) (base : Nat), t.align.bytes ∣ base →
    ∀ s ∈ t.spans base, s.width.bytes ∣ s.offset
  | .scalar cls width, base, hbase, s, h => by
      rw [spans, List.mem_singleton] at h
      subst h
      rw [align] at hbase
      exact hbase
  | .struct fields, base, hbase, s, h => by
      rw [align] at hbase
      rw [spans] at h
      exact fieldsSpans_aligned fields base 0
        (fun field hfield ↦ Nat.dvd_trans (align_dvd_fieldsAlign hfield) hbase) s h

theorem fieldsSpans_aligned : ∀ (fields : List CShape) (base offset : Nat),
    (∀ field ∈ fields, field.align.bytes ∣ base) →
      ∀ s ∈ fieldsSpans base offset fields, s.width.bytes ∣ s.offset
  | [], base, offset, _, s, h => by
      rw [fieldsSpans] at h
      cases h
  | field :: fields, base, offset, hbase, s, h => by
      rw [fieldsSpans] at h
      rcases List.mem_append.mp h with h | h
      · exact spans_aligned field _
          (Nat.dvd_add (hbase field List.mem_cons_self) (Width.dvd_alignUp _ _)) s h
      · exact fieldsSpans_aligned fields base _
          (fun f hf ↦ hbase f (List.mem_cons_of_mem _ hf)) s h

end

/-- A multiple of the alignment is not inside an aligned scalar. -/
theorem offset_eq_of_dvd {w : Width} {base m : Nat} (hbase : w.bytes ∣ base) (hm : w.bytes ∣ m)
    (hle : base ≤ m) (hlt : m < base + w.bytes) : base = m := by
  cases w <;> simp only [Width.bytes] at hbase hm hlt <;> omega

mutual

/-- At every multiple of its alignment inside a type there starts a scalar. -/
theorem exists_span_at : ∀ (t : CShape) (base m : Nat), t.align.bytes ∣ base → t.align.bytes ∣ m →
    base ≤ m → m < base + t.size → ∃ s ∈ t.spans base, s.offset = m
  | .scalar cls width, base, m, hbase, hm, hle, hlt => by
      rw [align] at hbase hm
      rw [size] at hlt
      rw [spans]
      exact ⟨_, List.mem_singleton_self _, offset_eq_of_dvd hbase hm hle hlt⟩
  | .struct fields, base, m, hbase, hm, hle, hlt => by
      rw [align] at hbase hm
      rw [size] at hlt
      rw [spans]
      have hend := Width.lt_of_lt_alignUp (n := fieldsEnd 0 fields) (Nat.dvd_sub hm hbase)
        (show m - base < (fieldsAlign fields).alignUp (fieldsEnd 0 fields) by omega)
      refine fieldsSpans_at fields base 0 m (fun field hfield ↦ ?_) (by omega) (by omega)
      exact ⟨Nat.dvd_trans (align_dvd_fieldsAlign hfield) hbase,
        Nat.dvd_trans (align_dvd_fieldsAlign hfield) hm⟩

theorem fieldsSpans_at : ∀ (fields : List CShape) (base offset m : Nat),
    (∀ field ∈ fields, field.align.bytes ∣ base ∧ field.align.bytes ∣ m) → base + offset ≤ m →
      m < base + fieldsEnd offset fields → ∃ s ∈ fieldsSpans base offset fields, s.offset = m
  | [], base, offset, m, _, hle, hlt => by
      rw [fieldsEnd] at hlt
      omega
  | field :: fields, base, offset, m, halign, hle, hlt => by
      rw [fieldsEnd] at hlt
      rw [fieldsSpans]
      obtain ⟨hbase, hm⟩ := halign field List.mem_cons_self
      have hstart : field.align.bytes ∣ base + field.align.alignUp offset :=
        Nat.dvd_add hbase (Width.dvd_alignUp _ _)
      by_cases hin : m < base + field.align.alignUp offset + field.size
      · have hstartLe : base + field.align.alignUp offset ≤ m := by
          by_contra hlt'
          have hoffset := Width.lt_of_lt_alignUp (n := offset) (Nat.dvd_sub hm hbase)
            (show m - base < field.align.alignUp offset by omega)
          omega
        obtain ⟨s, hs, heq⟩ := exists_span_at field _ m hstart hm hstartLe hin
        exact ⟨s, List.mem_append_left _ hs, heq⟩
      · obtain ⟨s, hs, heq⟩ := fieldsSpans_at fields base _ m
          (fun f hf ↦ halign f (List.mem_cons_of_mem _ hf)) (by omega) hlt
        exact ⟨s, List.mem_append_right _ hs, heq⟩

end

mutual

/-- The alignment of a type is that of a scalar in it. -/
theorem exists_span_align : ∀ (t : CShape) (base : Nat), t.align ≠ .one →
    ∃ s ∈ t.spans base, s.width = t.align
  | .scalar cls width, base, _ => by
      rw [spans, align]
      exact ⟨_, List.mem_singleton_self _, Eq.refl _⟩
  | .struct fields, base, h => by
      rw [align] at h ⊢
      rw [spans]
      exact fieldsSpans_align fields base 0 h

theorem fieldsSpans_align : ∀ (fields : List CShape) (base offset : Nat),
    fieldsAlign fields ≠ .one → ∃ s ∈ fieldsSpans base offset fields, s.width = fieldsAlign fields
  | [], base, offset, h => by
      rw [fieldsAlign] at h
      exact absurd (Eq.refl _) h
  | field :: fields, base, offset, h => by
      rw [fieldsAlign] at h ⊢
      rw [fieldsSpans]
      have hmax : field.align.max (fieldsAlign fields) = field.align ∨
          field.align.max (fieldsAlign fields) = fieldsAlign fields := by
        rw [Width.max]
        split
        · exact .inr (Eq.refl _)
        · exact .inl (Eq.refl _)
      rcases hmax with hmax | hmax
      · rw [hmax] at h ⊢
        obtain ⟨s, hs, heq⟩ := exists_span_align field _ h
        exact ⟨s, List.mem_append_left _ hs, heq⟩
      · rw [hmax] at h ⊢
        obtain ⟨s, hs, heq⟩ := fieldsSpans_align fields base _ h
        exact ⟨s, List.mem_append_right _ hs, heq⟩

end

/-- Less than an alignment is left behind the last scalar. -/
theorem exists_span_last {t : CShape} (h : 0 < t.size) :
    ∃ s ∈ t.spans 0, s.offset = t.size - t.align.bytes ∧ t.size - t.align.bytes < s.stop := by
  have hdvd := t.align_dvd_size
  have hpos := t.align.bytes_pos
  have hle := Nat.le_of_dvd h hdvd
  obtain ⟨s, hs, heq⟩ := t.exists_span_at 0 (t.size - t.align.bytes) (Nat.dvd_zero _)
    (Nat.dvd_sub hdvd (Nat.dvd_refl _)) (Nat.zero_le _) (by omega)
  have hwidth := s.width.bytes_pos
  exact ⟨s, hs, heq, by rw [Span.stop]; omega⟩

/-! ## Members -/

mutual

/-- The innermost parts of a type; a structure without fields is one of no class. -/
def members : CShape → List (Option RegClass)
  | .scalar cls _ => [some cls]
  | .struct [] => [none]
  | .struct (field :: fields) => field.members ++ fieldsMembers fields

def fieldsMembers : List CShape → List (Option RegClass)
  | [] => []
  | field :: fields => field.members ++ fieldsMembers fields

end

mutual

/-- Floating scalars have eight bytes. -/
def WideFloats : CShape → Prop
  | .scalar cls width => cls = .sse → width = .eight
  | .struct fields => FieldsWideFloats fields

def FieldsWideFloats : List CShape → Prop
  | [] => True
  | field :: fields => field.WideFloats ∧ FieldsWideFloats fields

end

mutual

theorem spans_wide : ∀ (t : CShape) (base : Nat), t.WideFloats →
    ∀ s ∈ t.spans base, s.cls = .sse → s.width = .eight
  | .scalar cls width, base, hwide, s, h => by
      rw [spans, List.mem_singleton] at h
      subst h
      rw [WideFloats] at hwide
      exact hwide
  | .struct fields, base, hwide, s, h => by
      rw [spans] at h
      rw [WideFloats] at hwide
      exact fieldsSpans_wide fields base 0 hwide s h

theorem fieldsSpans_wide : ∀ (fields : List CShape) (base offset : Nat), FieldsWideFloats fields →
    ∀ s ∈ fieldsSpans base offset fields, s.cls = .sse → s.width = .eight
  | [], base, offset, _, s, h => by
      rw [fieldsSpans] at h
      cases h
  | field :: fields, base, offset, hwide, s, h => by
      rw [fieldsSpans] at h
      rw [FieldsWideFloats] at hwide
      rcases List.mem_append.mp h with h | h
      · exact spans_wide field _ hwide.1 s h
      · exact fieldsSpans_wide fields base _ hwide.2 s h

end

mutual

/-- A type of floating members only has no padding. -/
theorem size_of_members : ∀ (t : CShape), t.WideFloats → (∀ c ∈ t.members, c = some .sse) →
    t.align = .eight ∧ t.size = 8 * t.members.length
  | .scalar cls width, hwide, h => by
      rw [members] at h ⊢
      rw [WideFloats] at hwide
      have hcls := Option.some.inj (h _ (List.mem_singleton_self _))
      rw [align, size, hwide hcls]
      exact ⟨Eq.refl _, Eq.refl _⟩
  | .struct [], _, h => by
      rw [members] at h
      cases h _ (List.mem_singleton_self _)
  | .struct (field :: fields), hwide, h => by
      rw [members] at h ⊢
      rw [WideFloats, FieldsWideFloats] at hwide
      obtain ⟨halign, hsize⟩ := size_of_members field hwide.1
        fun c hc ↦ h c (List.mem_append_left _ hc)
      obtain ⟨hfields, hend⟩ := fieldsEnd_of_members fields (8 * field.members.length) hwide.2
        (fun c hc ↦ h c (List.mem_append_right _ hc)) (Nat.dvd_mul_right _ _)
      have hmax : fieldsAlign (field :: fields) = .eight := by
        rw [fieldsAlign, halign]
        rcases hfields with hfields | hfields <;> rw [hfields] <;> exact Eq.refl _
      rw [align, size, hmax, fieldsEnd, halign, hsize, Width.alignUp_zero, Nat.zero_add, hend,
        List.length_append]
      refine ⟨Eq.refl _, ?_⟩
      rw [Width.alignUp_of_dvd (by rw [Width.bytes]; omega)]
      omega

theorem fieldsEnd_of_members : ∀ (fields : List CShape) (offset : Nat), FieldsWideFloats fields →
    (∀ c ∈ fieldsMembers fields, c = some .sse) → 8 ∣ offset →
      (fieldsAlign fields = .one ∨ fieldsAlign fields = .eight) ∧
        fieldsEnd offset fields = offset + 8 * (fieldsMembers fields).length
  | [], offset, _, _, _ => by
      rw [fieldsAlign, fieldsEnd, fieldsMembers]
      exact ⟨.inl (Eq.refl _), Eq.refl _⟩
  | field :: fields, offset, hwide, h, hdvd => by
      rw [fieldsMembers] at h ⊢
      rw [FieldsWideFloats] at hwide
      obtain ⟨halign, hsize⟩ := size_of_members field hwide.1
        fun c hc ↦ h c (List.mem_append_left _ hc)
      have hup : Width.eight.alignUp offset = offset := Width.alignUp_of_dvd hdvd
      obtain ⟨hfields, hend⟩ := fieldsEnd_of_members fields (offset + 8 * field.members.length)
        hwide.2 (fun c hc ↦ h c (List.mem_append_right _ hc))
        (Nat.dvd_add hdvd (Nat.dvd_mul_right _ _))
      rw [fieldsAlign, fieldsEnd, halign, hup, hsize, hend, List.length_append]
      refine ⟨.inr ?_, by omega⟩
      rcases hfields with hfields | hfields <;> rw [hfields] <;> exact Eq.refl _

end

end CShape

end CalcKernel.Lib
