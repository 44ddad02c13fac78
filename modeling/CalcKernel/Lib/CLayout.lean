import Mathlib.Order.Nat
import Mathlib.Tactic.Common

/-!
# The layout of C types

Scalars of one, two, four or eight bytes, each aligned to its size, and structures of
such types.  A structure is a tree; its leaves are its scalars with their offsets.
-/

namespace CalcKernel.Lib

/-- The size and the alignment of a scalar. -/
inductive Width where
  | one | two | four | eight
deriving DecidableEq, Repr

namespace Width

def bytes : Width → Nat
  | one => 1
  | two => 2
  | four => 4
  | eight => 8

protected def max (v w : Width) : Width := if v.bytes ≤ w.bytes then w else v

/-- The least multiple of the width that is not below `n`. -/
def alignUp (w : Width) (n : Nat) : Nat := (n + (w.bytes - 1)) / w.bytes * w.bytes

variable {v w : Width} {m n : Nat}

theorem bytes_pos (w : Width) : 0 < w.bytes := by cases w <;> decide

theorem bytes_dvd_eight (w : Width) : w.bytes ∣ 8 := by cases w <;> decide

theorem bytes_max : (v.max w).bytes = max v.bytes w.bytes := by
  cases v <;> cases w <;> decide

theorem dvd_max_left (v w : Width) : v.bytes ∣ (v.max w).bytes := by
  cases v <;> cases w <;> decide

theorem dvd_max_right (v w : Width) : w.bytes ∣ (v.max w).bytes := by
  cases v <;> cases w <;> decide

theorem le_alignUp (w : Width) (n : Nat) : n ≤ w.alignUp n := by
  cases w <;> simp only [alignUp, bytes] <;> omega

theorem alignUp_lt (w : Width) (n : Nat) : w.alignUp n < n + w.bytes := by
  cases w <;> simp only [alignUp, bytes] <;> omega

theorem dvd_alignUp (w : Width) (n : Nat) : w.bytes ∣ w.alignUp n := Nat.dvd_mul_left _ _

theorem alignUp_zero (w : Width) : w.alignUp 0 = 0 := by cases w <;> decide

theorem alignUp_add (h : w.bytes ∣ m) (n : Nat) : w.alignUp (m + n) = m + w.alignUp n := by
  cases w <;> simp only [alignUp, bytes] at h ⊢ <;> omega

theorem alignUp_of_dvd (h : w.bytes ∣ n) : w.alignUp n = n := by
  cases w <;> simp only [alignUp, bytes] at h ⊢ <;> omega

/-- What lies beyond a multiple of the width stays so when the end is rounded up. -/
theorem lt_of_lt_alignUp (h : w.bytes ∣ m) (hlt : m < w.alignUp n) : m < n := by
  cases w <;> simp only [alignUp, bytes] at h hlt <;> omega

end Width

/-- The register class of a scalar. -/
inductive RegClass where
  | integer | sse
deriving DecidableEq, Repr

/-- A C type, as far as its layout depends on it. -/
inductive CShape where
  | scalar (cls : RegClass) (width : Width)
  | struct (fields : List CShape)

namespace CShape

mutual

def align : CShape → Width
  | .scalar _ width => width
  | .struct fields => fieldsAlign fields

def fieldsAlign : List CShape → Width
  | [] => .one
  | field :: fields => field.align.max (fieldsAlign fields)

end

mutual

def size : CShape → Nat
  | .scalar _ width => width.bytes
  | .struct fields => (fieldsAlign fields).alignUp (fieldsEnd 0 fields)

/-- Where the last field ends when the fields are laid out from an offset. -/
def fieldsEnd (offset : Nat) : List CShape → Nat
  | [] => offset
  | field :: fields => fieldsEnd (field.align.alignUp offset + field.size) fields

end

mutual

/-- The scalars of a type that stands at `base`, with their offsets. -/
def leaves (base : Nat) : CShape → List (Nat × RegClass)
  | .scalar cls _ => [(base, cls)]
  | .struct fields => fieldsLeaves base 0 fields

def fieldsLeaves (base offset : Nat) : List CShape → List (Nat × RegClass)
  | [] => []
  | field :: fields =>
      field.leaves (base + field.align.alignUp offset) ++
        fieldsLeaves base (field.align.alignUp offset + field.size) fields

end

/-! ## Alignments and sizes -/

theorem le_fieldsEnd (fields : List CShape) (offset : Nat) : offset ≤ fieldsEnd offset fields := by
  induction fields generalizing offset with
  | nil => rw [fieldsEnd]
  | cons field fields ih =>
      rw [fieldsEnd]
      have h := field.align.le_alignUp offset
      have h' := ih (field.align.alignUp offset + field.size)
      omega

theorem align_dvd_fieldsAlign {field : CShape} {fields : List CShape} (h : field ∈ fields) :
    field.align.bytes ∣ (fieldsAlign fields).bytes := by
  induction fields with
  | nil => cases h
  | cons f fields ih =>
      rw [fieldsAlign]
      rcases List.mem_cons.mp h with rfl | h
      · exact Width.dvd_max_left _ _
      · exact Nat.dvd_trans (ih h) (Width.dvd_max_right _ _)

theorem align_dvd_size (t : CShape) : t.align.bytes ∣ t.size := by
  cases t with
  | scalar cls width =>
      unfold align size
      exact Nat.dvd_refl _
  | struct fields =>
      rw [align, size]
      exact Width.dvd_alignUp _ _

/-! ## Leaves -/

mutual

/-- Every leaf lies inside the type, and its eightbyte does not depend on its size. -/
theorem leaves_lt : ∀ (t : CShape) (base : Nat), ∀ leaf ∈ t.leaves base,
    base ≤ leaf.1 ∧ leaf.1 < base + t.size
  | .scalar cls width, base, leaf, h => by
      rw [leaves, List.mem_singleton] at h
      subst h
      rw [size]
      have hpos := width.bytes_pos
      exact ⟨le_refl _, by omega⟩
  | .struct fields, base, leaf, h => by
      rw [leaves] at h
      obtain ⟨hlow, hhigh⟩ := fieldsLeaves_lt fields base 0 leaf h
      rw [size]
      have hle := (fieldsAlign fields).le_alignUp (fieldsEnd 0 fields)
      omega

theorem fieldsLeaves_lt : ∀ (fields : List CShape) (base offset : Nat),
    ∀ leaf ∈ fieldsLeaves base offset fields,
      base + offset ≤ leaf.1 ∧ leaf.1 < base + fieldsEnd offset fields
  | [], base, offset, leaf, h => by
      rw [fieldsLeaves] at h
      cases h
  | field :: fields, base, offset, leaf, h => by
      rw [fieldsLeaves] at h
      rw [fieldsEnd]
      have hle := field.align.le_alignUp offset
      rcases List.mem_append.mp h with h | h
      · obtain ⟨hlow, hhigh⟩ := leaves_lt field _ leaf h
        have hend := le_fieldsEnd fields (field.align.alignUp offset + field.size)
        omega
      · obtain ⟨hlow, hhigh⟩ := fieldsLeaves_lt fields base _ leaf h
        omega

end

mutual

/-- A type that is not empty starts with a leaf. -/
theorem exists_leaf_first : ∀ (t : CShape) (base : Nat), 0 < t.size →
    ∃ leaf ∈ t.leaves base, leaf.1 = base
  | .scalar cls width, base, _ => ⟨(base, cls), by rw [leaves]; exact List.mem_singleton_self _, by rfl⟩
  | .struct fields, base, h => by
      rw [size] at h
      rw [leaves]
      refine fieldsLeaves_first fields base ?_
      by_contra hend
      rw [Nat.eq_zero_of_not_pos hend, Width.alignUp_zero] at h
      exact lt_irrefl _ h

theorem fieldsLeaves_first : ∀ (fields : List CShape) (base : Nat), 0 < fieldsEnd 0 fields →
    ∃ leaf ∈ fieldsLeaves base 0 fields, leaf.1 = base
  | [], base, h => by
      rw [fieldsEnd] at h
      exact absurd h (lt_irrefl _)
  | field :: fields, base, h => by
      rw [fieldsEnd, Width.alignUp_zero, Nat.zero_add] at h
      rw [fieldsLeaves, Width.alignUp_zero, Nat.add_zero, Nat.zero_add]
      by_cases hsize : 0 < field.size
      · obtain ⟨leaf, hleaf, heq⟩ := exists_leaf_first field base hsize
        exact ⟨leaf, List.mem_append_left _ hleaf, heq⟩
      · rw [Nat.eq_zero_of_not_pos hsize] at h ⊢
        obtain ⟨leaf, hleaf, heq⟩ := fieldsLeaves_first fields base h
        exact ⟨leaf, List.mem_append_right _ hleaf, heq⟩

end

mutual

/-- A type that reaches beyond a multiple of eight bytes has a leaf there. -/
theorem exists_leaf_beyond : ∀ (t : CShape) (base m : Nat), t.align.bytes ∣ base → 8 ∣ m →
    m < base + t.size → base ≤ m → ∃ leaf ∈ t.leaves base, m ≤ leaf.1
  | .scalar cls width, base, m, hbase, hm, hlt, hle => by
      rw [align] at hbase
      rw [size] at hlt
      refine ⟨(base, cls), by rw [leaves]; exact List.mem_singleton_self _, ?_⟩
      cases width <;> simp only [Width.bytes] at hbase hlt <;> omega
  | .struct fields, base, m, hbase, hm, hlt, hle => by
      rw [align] at hbase
      rw [size] at hlt
      rw [leaves]
      have hdvd : (fieldsAlign fields).bytes ∣ m - base :=
        Nat.dvd_sub (Nat.dvd_trans (Width.bytes_dvd_eight _) hm) hbase
      have hlt : m - base < (fieldsAlign fields).alignUp (fieldsEnd 0 fields) := by omega
      have hend := Width.lt_of_lt_alignUp hdvd hlt
      refine fieldsLeaves_beyond fields base 0 m (fun field hfield ↦ ?_) hm (by omega) (by omega)
      exact Nat.dvd_trans (align_dvd_fieldsAlign hfield) hbase

theorem fieldsLeaves_beyond : ∀ (fields : List CShape) (base offset m : Nat),
    (∀ field ∈ fields, field.align.bytes ∣ base) → 8 ∣ m → m < base + fieldsEnd offset fields →
      base + offset ≤ m → ∃ leaf ∈ fieldsLeaves base offset fields, m ≤ leaf.1
  | [], base, offset, m, _, _, hlt, hle => by
      rw [fieldsEnd] at hlt
      omega
  | field :: fields, base, offset, m, hbase, hm, hlt, hle => by
      rw [fieldsEnd] at hlt
      rw [fieldsLeaves]
      have hfield := hbase field List.mem_cons_self
      have hstart : field.align.bytes ∣ base + field.align.alignUp offset :=
        Nat.dvd_add hfield (Width.dvd_alignUp _ _)
      by_cases hin : m < base + field.align.alignUp offset + field.size
      · have hstartLe : base + field.align.alignUp offset ≤ m := by
          have hdvd : field.align.bytes ∣ m := Nat.dvd_trans (Width.bytes_dvd_eight _) hm
          have hup := field.align.alignUp_lt offset
          rw [← Width.alignUp_add hfield] at hstart hin ⊢
          by_contra hlt'
          exact absurd (Width.lt_of_lt_alignUp hdvd (not_le.mp hlt')) (not_lt.mpr hle)
        obtain ⟨leaf, hleaf, hge⟩ := exists_leaf_beyond field _ m hstart hm hin hstartLe
        exact ⟨leaf, List.mem_append_left _ hleaf, hge⟩
      · obtain ⟨leaf, hleaf, hge⟩ := fieldsLeaves_beyond fields base _ m
          (fun f hf ↦ hbase f (List.mem_cons_of_mem _ hf)) hm hlt (by omega)
        exact ⟨leaf, List.mem_append_right _ hleaf, hge⟩

end

end CShape

end CalcKernel.Lib
