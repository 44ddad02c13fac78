import Mathlib.Data.List.Basic
import Mathlib.Data.List.Flatten
import Mathlib.Data.List.Range

/-!
# Overwriting parts of an image

An image is a list; a range of it is an offset and a length.  Writing content of the length of
a range keeps the rest, and content laid out piece after piece can be written piece by piece.
-/

namespace CalcKernel.Lib

variable {α β : Type}

/-- `content` in the place of as many elements from `offset` on. -/
def writeAt (image : List α) (offset : Nat) (content : List α) : List α :=
  image.take offset ++ content ++ image.drop (offset + content.length)

theorem writeAt_append (before old content after : List α) {offset : Nat}
    (hoffset : offset = before.length) (hlen : content.length = old.length) :
    writeAt (before ++ old ++ after) offset content = before ++ content ++ after := by
  have hend : offset + content.length = (before ++ old).length := by
    rw [hoffset, hlen, List.length_append]
  rw [writeAt, hend, List.drop_left, hoffset, List.append_assoc before old after,
    List.take_left]

theorem writeAt_length {image content : List α} {offset : Nat}
    (h : offset + content.length ≤ image.length) :
    (writeAt image offset content).length = image.length := by
  simp only [writeAt, List.length_append, List.length_take, List.length_drop]
  omega

theorem writeAt_getElem? {image content : List α} {offset k : Nat}
    (h : offset + content.length ≤ image.length)
    (hk : k < offset ∨ offset + content.length ≤ k) :
    (writeAt image offset content)[k]? = image[k]? := by
  have htake : (image.take offset).length = offset := by
    rw [List.length_take]
    omega
  rcases hk with hk | hk
  · rw [writeAt, List.append_assoc, List.getElem?_append_left (by omega),
      List.getElem?_take_of_lt hk]
  · have hfront : (image.take offset ++ content).length = offset + content.length := by
      rw [List.length_append, htake]
    rw [writeAt, List.getElem?_append_right (by omega), hfront, List.getElem?_drop]
    congr 1
    omega

/-- What lies outside of all the written ranges stays. -/
theorem foldl_writeAt_outside {offset : β → Nat} {content : β → List α} {places : List β}
    {image : List α} {k : Nat}
    (h : ∀ p ∈ places, offset p + (content p).length ≤ image.length ∧
      (k < offset p ∨ offset p + (content p).length ≤ k)) :
    (places.foldl (fun image p ↦ writeAt image (offset p) (content p)) image).length =
        image.length ∧
      (places.foldl (fun image p ↦ writeAt image (offset p) (content p)) image)[k]? =
        image[k]? := by
  induction places generalizing image with
  | nil => exact ⟨rfl, rfl⟩
  | cons p places ih =>
      obtain ⟨⟨hinside, houtside⟩, hrest⟩ := List.forall_mem_cons.mp h
      have hlength := writeAt_length hinside
      rw [← hlength] at hrest
      obtain ⟨hsame, hkept⟩ := ih hrest
      exact ⟨hsame.trans hlength, hkept.trans (writeAt_getElem? hinside houtside)⟩

/-- Pieces of one width, one after the other. -/
theorem foldl_writeAt_range' (write : β → List α) {width : Nat}
    (hwrite : ∀ b, (write b).length = width) {olds news : List β}
    (hlen : news.length = olds.length) (before after : List α) :
    ((List.range' before.length olds.length width).zip news).foldl
        (fun image p ↦ writeAt image p.1 (write p.2)) (before ++ olds.flatMap write ++ after) =
      before ++ news.flatMap write ++ after := by
  induction olds generalizing news before with
  | nil =>
      obtain rfl := List.length_eq_zero_iff.mp hlen
      rfl
  | cons old olds ih =>
      cases news with
      | nil => cases hlen
      | cons new news =>
          rw [List.length_cons, List.length_cons, Nat.add_right_cancel_iff] at hlen
          have hnext : before.length + width = (before ++ write new).length := by
            rw [List.length_append, hwrite]
          rw [List.length_cons, List.range'_succ, List.zip_cons_cons, List.foldl_cons,
            List.flatMap_cons, List.flatMap_cons]
          have hfirst : writeAt (before ++ (write old ++ olds.flatMap write) ++ after)
              before.length (write new) =
                before ++ write new ++ olds.flatMap write ++ after := by
            rw [List.append_assoc, List.append_assoc, ← List.append_assoc before,
              writeAt_append before (write old) (write new) _ rfl
                ((hwrite new).trans (hwrite old).symm),
              List.append_assoc, List.append_assoc, List.append_assoc]
          rw [hfirst, hnext, ih hlen, List.append_assoc before]

/-! ## Ranges -/

/-- Two ranges do not overlap. -/
def Apart (r s : Nat × Nat) : Prop := r.1 + r.2 ≤ s.1 ∨ s.1 + s.2 ≤ r.1

instance (r s : Nat × Nat) : Decidable (Apart r s) := inferInstanceAs (Decidable (_ ∨ _))

theorem Apart.symm {r s : Nat × Nat} (h : Apart r s) : Apart s r := Or.symm h

/-- A range lies between two positions. -/
def Within (low high : Nat) (r : Nat × Nat) : Prop := low ≤ r.1 ∧ r.1 + r.2 ≤ high

/-- Ranges on the two sides of a position. -/
theorem pairwise_apart_append {rs ss : List (Nat × Nat)} {low middle high : Nat}
    (hrs : rs.Pairwise Apart) (hss : ss.Pairwise Apart) (hleft : ∀ r ∈ rs, Within low middle r)
    (hright : ∀ s ∈ ss, Within middle high s) : (rs ++ ss).Pairwise Apart := by
  refine List.pairwise_append.mpr ⟨hrs, hss, fun r hr s hs ↦ ?_⟩
  exact .inl ((hleft r hr).2.trans (hright s hs).1)

theorem range'_apart (start count width : Nat) :
    ((List.range' start count width).map fun offset ↦ (offset, width)).Pairwise Apart := by
  induction count generalizing start with
  | zero => exact .nil
  | succ count ih =>
      rw [List.range'_succ, List.map_cons]
      refine List.pairwise_cons.mpr ⟨fun s hs ↦ ?_, ih _⟩
      obtain ⟨offset, hoffset, rfl⟩ := List.mem_map.mp hs
      obtain ⟨i, -, rfl⟩ := List.mem_range'.mp hoffset
      exact .inl (Nat.le_add_right _ _)

theorem range'_within {start count width : Nat} {r : Nat × Nat}
    (hr : r ∈ (List.range' start count width).map fun offset ↦ (offset, width)) :
    Within start (start + width * count) r := by
  obtain ⟨offset, hoffset, rfl⟩ := List.mem_map.mp hr
  obtain ⟨i, hi, rfl⟩ := List.mem_range'.mp hoffset
  have hmul : width * (i + 1) ≤ width * count := Nat.mul_le_mul_left width hi
  rw [Nat.mul_add, Nat.mul_one] at hmul
  exact ⟨Nat.le_add_right _ _, by rw [Nat.add_assoc]; exact Nat.add_le_add_left hmul _⟩

end CalcKernel.Lib
