import Mathlib.Data.List.Basic
import Mathlib.Tactic.Common

/-!
# UTF-8 read with replacements

Bytes that are no UTF-8 are read as if each broken part were the replacement character.  Bytes
that are UTF-8 stay as they are.
-/

namespace CalcKernel.Lib

/-- The bytes of a text. -/
def utf8 (text : List Char) : List UInt8 := text.flatMap String.utf8EncodeChar

/-- The bytes of U+FFFD. -/
def replacement : List UInt8 := [0xEF, 0xBF, 0xBD]

/-- What may follow the first byte of a character, a range for each byte. -/
def continuations (b : UInt8) : Option (List (UInt8 × UInt8)) :=
  if b < 0x80 then some []
  else if 0xC2 ≤ b ∧ b ≤ 0xDF then some [(0x80, 0xBF)]
  else if b = 0xE0 then some [(0xA0, 0xBF), (0x80, 0xBF)]
  else if 0xE1 ≤ b ∧ b ≤ 0xEC then some [(0x80, 0xBF), (0x80, 0xBF)]
  else if b = 0xED then some [(0x80, 0x9F), (0x80, 0xBF)]
  else if 0xEE ≤ b ∧ b ≤ 0xEF then some [(0x80, 0xBF), (0x80, 0xBF)]
  else if b = 0xF0 then some [(0x90, 0xBF), (0x80, 0xBF), (0x80, 0xBF)]
  else if 0xF1 ≤ b ∧ b ≤ 0xF3 then some [(0x80, 0xBF), (0x80, 0xBF), (0x80, 0xBF)]
  else if b = 0xF4 then some [(0x80, 0x8F), (0x80, 0xBF), (0x80, 0xBF)]
  else none

/-- Read on behind the bytes held of a character whose next bytes have the given ranges.  A byte
outside its range ends the broken part and may begin a character itself. -/
def lossyFrom (held : List UInt8) (owed : List (UInt8 × UInt8)) : List UInt8 → List UInt8
  | [] => if owed = [] then held else replacement
  | b :: bytes =>
      let fresh := match continuations b with
        | some owed => lossyFrom [b] owed bytes
        | none => replacement ++ lossyFrom [] [] bytes
      match owed with
      | [] => held ++ fresh
      | (low, high) :: owed =>
          if low ≤ b ∧ b ≤ high then lossyFrom (held ++ [b]) owed bytes
          else replacement ++ fresh

/-- The bytes of `String::from_utf8_lossy`. -/
def fromUtf8Lossy (bytes : List UInt8) : List UInt8 := lossyFrom [] [] bytes

theorem lossyFrom_held (held bytes : List UInt8) :
    lossyFrom held [] bytes = held ++ lossyFrom [] [] bytes := by
  cases bytes with
  | nil => simp [lossyFrom]
  | cons b bytes => simp [lossyFrom]

/-- The bytes lie in the ranges, one by one. -/
def InRanges : List (UInt8 × UInt8) → List UInt8 → Prop :=
  List.Forall₂ fun range b ↦ range.1 ≤ b ∧ b ≤ range.2

theorem lossyFrom_within {owed : List (UInt8 × UInt8)} {tail : List UInt8} (h : InRanges owed tail)
    (held rest : List UInt8) :
    lossyFrom held owed (tail ++ rest) = held ++ tail ++ lossyFrom [] [] rest := by
  induction h generalizing held with
  | nil => simpa using lossyFrom_held held rest
  | cons hb _ ih =>
      rw [List.cons_append, lossyFrom, if_pos hb, ih]
      simp

theorem byte_within {n : Nat} (low high : UInt8) (hn : n < 256) (hlow : low.toNat ≤ n)
    (hhigh : n ≤ high.toNat) : low ≤ UInt8.ofNat n ∧ UInt8.ofNat n ≤ high := by
  rw [UInt8.le_iff_toNat_le, UInt8.le_iff_toNat_le, UInt8.toNat_ofNat_of_lt' hn]
  exact ⟨hlow, hhigh⟩

/-- Every byte behind the first of a character is one of these. -/
theorem low_within (n : Nat) :
    (0x80 : UInt8) ≤ UInt8.ofNat (n % 0x40 + 0x80) ∧
      UInt8.ofNat (n % 0x40 + 0x80) ≤ (0xBF : UInt8) := by
  have hmod : n % 0x40 < 0x40 := Nat.mod_lt _ (by decide)
  exact byte_within 0x80 0xBF (by omega) (Nat.le_add_left _ _) (Nat.le_of_lt_succ (by
    simp only [UInt8.reduceToNat]
    omega))

theorem continuations_one : ∀ n < 0x80, continuations (UInt8.ofNat n) = some [] := by
  decide

theorem continuations_two : ∀ n < 0x20, 2 ≤ n →
    continuations (UInt8.ofNat (n + 0xC0)) = some [(0x80, 0xBF)] := by
  decide

theorem continuations_three : ∀ n < 0x10, continuations (UInt8.ofNat (n + 0xE0)) =
    some [if n = 0 then (0xA0, 0xBF) else if n = 13 then (0x80, 0x9F) else (0x80, 0xBF),
      (0x80, 0xBF)] := by
  decide

theorem continuations_four : ∀ n < 5, continuations (UInt8.ofNat (n + 0xF0)) =
    some [if n = 0 then (0x90, 0xBF) else if n = 4 then (0x80, 0x8F) else (0x80, 0xBF),
      (0x80, 0xBF), (0x80, 0xBF)] := by
  decide

/-- A character's bytes are a first byte and what may follow it. -/
theorem exists_continuations (c : Char) :
    ∃ first tail owed, String.utf8EncodeChar c = first :: tail ∧
      continuations first = some owed ∧ InRanges owed tail := by
  have hvalid : c.val.toNat < 0xD800 ∨ 0xDFFF < c.val.toNat ∧ c.val.toNat < 0x110000 := c.valid
  rw [String.utf8EncodeChar]
  generalize c.val.toNat = v at hvalid ⊢
  split
  · exact ⟨_, _, _, rfl, continuations_one v (by omega), .nil⟩
  split
  · exact ⟨_, _, _, rfl, continuations_two (v / 64 % 0x20) (by omega) (by omega),
      .cons (low_within v) .nil⟩
  split
  · refine ⟨_, _, _, rfl, continuations_three (v / 4096 % 0x10) (by omega), .cons ?_
      (.cons (low_within v) .nil)⟩
    -- The second byte rules out what fewer bytes can say, and the surrogates.
    split
    · exact byte_within _ _ (by omega) (by simp only [UInt8.reduceToNat]; omega)
        (by simp only [UInt8.reduceToNat]; omega)
    split
    · exact byte_within _ _ (by omega) (by simp only [UInt8.reduceToNat]; omega)
        (by simp only [UInt8.reduceToNat]; omega)
    · exact low_within (v / 64)
  · have hfour : v / 262144 % 0x08 = v / 262144 := by omega
    refine ⟨_, _, _, rfl, continuations_four (v / 262144 % 0x08) (by omega), .cons ?_
      (.cons (low_within (v / 64)) (.cons (low_within v) .nil))⟩
    split
    · exact byte_within _ _ (by omega) (by simp only [UInt8.reduceToNat]; omega)
        (by simp only [UInt8.reduceToNat]; omega)
    split
    · exact byte_within _ _ (by omega) (by simp only [UInt8.reduceToNat]; omega)
        (by simp only [UInt8.reduceToNat]; omega)
    · exact low_within (v / 4096)

theorem fromUtf8Lossy_utf8 (text : List Char) : fromUtf8Lossy (utf8 text) = utf8 text := by
  induction text with
  | nil => rfl
  | cons c text ih =>
      obtain ⟨first, tail, owed, hencode, howed, hwithin⟩ := exists_continuations c
      rw [utf8, List.flatMap_cons, hencode, fromUtf8Lossy, List.cons_append, lossyFrom]
      simp only [howed, List.nil_append]
      rw [lossyFrom_within hwithin]
      exact congrArg (first :: tail ++ ·) ih

theorem utf8_append (a b : List Char) : utf8 (a ++ b) = utf8 a ++ utf8 b := List.flatMap_append

theorem utf8_toList (s : String) : utf8 s.toList = s.toByteArray.data.toList := by
  rw [← String.utf8Encode_toList, List.utf8Encode, List.toList_data_toByteArray, utf8]

/-- Characters whose bytes are ASCII are their bytes. -/
theorem bounds_of_bytes {s : String} {low high : Nat} (hhigh : high < 128)
    (h : ∀ b ∈ s.toByteArray.data.toList, low ≤ b.toNat ∧ b.toNat ≤ high) {c : Char}
    (hc : c ∈ s.toList) : low ≤ c.toNat ∧ c.toNat ≤ high := by
  have hbytes : ∀ b ∈ String.utf8EncodeChar c, low ≤ b.toNat ∧ b.toNat ≤ high := by
    intro b hb
    refine h b ?_
    rw [← utf8_toList]
    exact List.mem_flatMap.mpr ⟨c, hc, hb⟩
  rw [String.utf8EncodeChar] at hbytes
  simp only [Char.toNat]
  generalize c.val.toNat = v at hbytes ⊢
  -- The first byte of a character beyond ASCII is above every ASCII byte.
  split at hbytes
  · have hfirst := hbytes _ List.mem_cons_self
    rw [UInt8.toNat_ofNat'] at hfirst
    omega
  split at hbytes
  · have hfirst := hbytes _ List.mem_cons_self
    rw [UInt8.toNat_ofNat'] at hfirst
    omega
  split at hbytes
  · have hfirst := hbytes _ List.mem_cons_self
    rw [UInt8.toNat_ofNat'] at hfirst
    omega
  · have hfirst := hbytes _ List.mem_cons_self
    rw [UInt8.toNat_ofNat'] at hfirst
    omega

end CalcKernel.Lib
