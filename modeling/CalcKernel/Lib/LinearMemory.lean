import Mathlib.Data.BitVec
import Mathlib.Tactic.Common

/-!
# Linear memories

A memory of bytes in pages, with little-endian words of 32 bits.  A loop that stores word
after word is a copy or a fill of the whole range where the range neither wraps nor ends
behind the memory, nor, for a copy, meets the range that is read.
-/

namespace CalcKernel.Lib

/-- Bytes in at most 65536 pages of 64 KiB; what lies behind the pages cannot be reached. -/
structure LinearMemory where
  pages : Nat
  pages_le : pages ≤ 65536
  bytes : Nat → BitVec 8

/-- A memory at the end of a computation. -/
inductive MemoryEnd where
  | returned (m : LinearMemory)
  | trapped (m : LinearMemory)

namespace LinearMemory

def wordOf (b₀ b₁ b₂ b₃ : BitVec 8) : BitVec 32 :=
  BitVec.ofNat 32 (b₀.toNat + 256 * b₁.toNat + 65536 * b₂.toNat + 16777216 * b₃.toNat)

def byteOf (w : BitVec 32) (k : Nat) : BitVec 8 := BitVec.ofNat 8 (w.toNat / 256 ^ k)

theorem byteOf_wordOf (b₀ b₁ b₂ b₃ : BitVec 8) :
    byteOf (wordOf b₀ b₁ b₂ b₃) 0 = b₀ ∧ byteOf (wordOf b₀ b₁ b₂ b₃) 1 = b₁ ∧
      byteOf (wordOf b₀ b₁ b₂ b₃) 2 = b₂ ∧ byteOf (wordOf b₀ b₁ b₂ b₃) 3 = b₃ := by
  have h₀ := b₀.isLt
  have h₁ := b₁.isLt
  have h₂ := b₂.isLt
  have h₃ := b₃.isLt
  refine ⟨?_, ?_, ?_, ?_⟩ <;> apply BitVec.eq_of_toNat_eq <;>
    simp only [byteOf, wordOf, BitVec.toNat_ofNat] <;> omega

variable (m : LinearMemory)

def size : Nat := m.pages * 65536

theorem size_le : m.size ≤ 4294967296 := by
  have h := m.pages_le
  unfold size
  omega

def load32 (a : Nat) : Option (BitVec 32) :=
  if a + 4 ≤ m.size then
    some (wordOf (m.bytes a) (m.bytes (a + 1)) (m.bytes (a + 2)) (m.bytes (a + 3)))
  else none

/-- A word that is read has the bytes of its range. -/
theorem load32_word {a : Nat} {byte : Nat → BitVec 8} (hsize : a + 4 ≤ m.size)
    (hbytes : ∀ b < 4, m.bytes (a + b) = byte b) :
    ∃ w, m.load32 a = some w ∧ ∀ b < 4, byteOf w b = byte b := by
  refine ⟨_, if_pos hsize, fun b hb ↦ ?_⟩
  obtain ⟨h₀, h₁, h₂, h₃⟩ :=
    byteOf_wordOf (m.bytes a) (m.bytes (a + 1)) (m.bytes (a + 2)) (m.bytes (a + 3))
  rw [← hbytes b hb]
  match b, hb with
  | 0, _ => exact h₀
  | 1, _ => exact h₁
  | 2, _ => exact h₂
  | 3, _ => exact h₃

/-- The memory with other bytes in a range. -/
def withRange (start length : Nat) (byte : Nat → BitVec 8) : LinearMemory :=
  { m with bytes := fun a ↦
      if start ≤ a ∧ a < start + length then byte (a - start) else m.bytes a }

def store32 (a : Nat) (w : BitVec 32) : Option LinearMemory :=
  if a + 4 ≤ m.size then some (m.withRange a 4 (byteOf w)) else none

/-- `memory.copy` reads the whole range before it writes. -/
def copy (destination source length : Nat) : Option LinearMemory :=
  if source + length ≤ m.size ∧ destination + length ≤ m.size then
    some (m.withRange destination length fun k ↦ m.bytes (source + k))
  else none

def fill (destination : Nat) (byte : BitVec 8) (length : Nat) : Option LinearMemory :=
  if destination + length ≤ m.size then some (m.withRange destination length fun _ ↦ byte)
  else none

@[simp] theorem withRange_size (start length : Nat) (byte : Nat → BitVec 8) :
    (m.withRange start length byte).size = m.size := rfl

theorem withRange_zero (start : Nat) (byte : Nat → BitVec 8) : m.withRange start 0 byte = m := by
  have hbytes : (fun a ↦ if start ≤ a ∧ a < start + 0 then byte (a - start) else m.bytes a) =
      m.bytes := by
    funext a
    exact if_neg (by omega)
  rw [withRange, hbytes]

/-- A range behind another one, with bytes that belong to both. -/
theorem withRange_withRange (start l l' : Nat) (byte : Nat → BitVec 8) :
    (m.withRange start l byte).withRange (start + l) l' (fun k ↦ byte (l + k)) =
      m.withRange start (l + l') byte := by
  unfold withRange
  congr 1
  funext a
  dsimp only
  by_cases hl : start ≤ a ∧ a < start + l
  · rw [if_neg (by omega), if_pos hl, if_pos (by omega)]
  · by_cases hl' : start + l ≤ a ∧ a < start + l + l'
    · have hindex : l + (a - (start + l)) = a - start := by omega
      rw [if_pos hl', hindex]
      exact (if_pos (by omega)).symm
    · rw [if_neg hl', if_neg hl, if_neg (by omega)]

/-! ## Words stored one after another -/

variable {m}

/-- Stores the words of a loop from index `i` on. -/
def storeWords (word : LinearMemory → BitVec 32 → Option (BitVec 32)) (destination : BitVec 32) :
    Nat → BitVec 32 → LinearMemory → MemoryEnd
  | 0, _, m => .returned m
  | n + 1, i, m =>
      match (word m i).bind (m.store32 (destination + i * 4#32).toNat) with
      | none => .trapped m
      | some m' => storeWords word destination n (i + 1#32) m'

/-- An element of an array whose end does not wrap is where it should be. -/
theorem toNat_element {p i : BitVec 32} (h : p.toNat + 4 * i.toNat < 4294967296) :
    (p + i * 4#32).toNat = p.toNat + 4 * i.toNat := by
  rw [BitVec.toNat_add, BitVec.toNat_mul, BitVec.toNat_ofNat]
  omega

theorem toNat_next {i : BitVec 32} (h : i.toNat + 1 < 4294967296) :
    (i + 1#32).toNat = i.toNat + 1 := by
  rw [BitVec.toNat_add, BitVec.toNat_ofNat]
  omega

/-- Where the words of a loop are four bytes of a fixed sequence each, the loop writes the
sequence. -/
theorem storeWords_eq {word : LinearMemory → BitVec 32 → Option (BitVec 32)}
    {destination : BitVec 32} {byte : Nat → BitVec 8} {start : Nat} (n : Nat) {i : BitVec 32}
    (hstart : destination.toNat + 4 * start ≤ destination.toNat + 4 * i.toNat)
    (hwrap : destination.toNat + 4 * (i.toNat + n) ≤ 4294967296)
    (hsize : destination.toNat + 4 * (i.toNat + n) ≤ m.size)
    (hword : ∀ k, start ≤ k → k < i.toNat + n → ∀ j : BitVec 32, j.toNat = k →
      ∃ w, word (m.withRange (destination.toNat + 4 * start) (4 * (k - start)) byte) j = some w ∧
        ∀ b < 4, byteOf w b = byte (4 * (k - start) + b)) :
    storeWords word destination n i
        (m.withRange (destination.toNat + 4 * start) (4 * (i.toNat - start)) byte) =
      .returned (m.withRange (destination.toNat + 4 * start) (4 * (i.toNat + n - start)) byte) := by
  induction n generalizing i with
  | zero => rfl
  | succ n ih =>
      obtain ⟨w, hw, hbytes⟩ := hword i.toNat (by omega) (by omega) i rfl
      have hlt : destination.toNat + 4 * i.toNat < 4294967296 := by omega
      have hstore : (m.withRange (destination.toNat + 4 * start) (4 * (i.toNat - start))
          byte).store32 (destination + i * 4#32).toNat w = some
            (m.withRange (destination.toNat + 4 * start) (4 * (i.toNat + 1 - start)) byte) := by
        rw [toNat_element hlt, store32, withRange_size, if_pos (by omega)]
        have hsplit : 4 * (i.toNat + 1 - start) = 4 * (i.toNat - start) + 4 := by omega
        have haddress : destination.toNat + 4 * i.toNat =
            destination.toNat + 4 * start + 4 * (i.toNat - start) := by omega
        rw [hsplit, haddress, ← withRange_withRange]
        congr 1
        unfold withRange
        congr 1
        funext a
        split
        · rename_i ha
          exact hbytes _ (by omega)
        · rfl
      have hi : i.toNat + n + 1 ≤ 4294967296 := by omega
      rw [storeWords, hw, Option.bind_some, hstore]
      dsimp only
      cases n with
      | zero => rfl
      | succ n =>
          have hnext : (i + 1#32).toNat = i.toNat + 1 := toNat_next (by omega)
          have hrest := @ih (i + 1#32) (by omega) (by omega) (by omega)
            (fun k hk hk' ↦ hword k hk (by omega))
          rw [hnext] at hrest
          rw [hrest]
          congr 3
          omega

/-- A loop that copies words is a copy where the ranges are apart. -/
theorem copyWords_eq {destination source i : BitVec 32} (n : Nat)
    (hdestination : destination.toNat + 4 * (i.toNat + n) ≤ 4294967296)
    (hsource : source.toNat + 4 * (i.toNat + n) ≤ 4294967296)
    (hdestinationSize : destination.toNat + 4 * (i.toNat + n) ≤ m.size)
    (hsourceSize : source.toNat + 4 * (i.toNat + n) ≤ m.size)
    (hapart : source.toNat + 4 * (i.toNat + n) ≤ destination.toNat + 4 * i.toNat ∨
      destination.toNat + 4 * (i.toNat + n) ≤ source.toNat + 4 * i.toNat) :
    ∃ m', m.copy (destination.toNat + 4 * i.toNat) (source.toNat + 4 * i.toNat) (4 * n) = some m' ∧
      storeWords (fun m j ↦ m.load32 (source + j * 4#32).toNat) destination n i m =
        .returned m' := by
  refine ⟨_, if_pos ⟨by omega, by omega⟩, ?_⟩
  have hloop := @storeWords_eq m (fun m j ↦ m.load32 (source + j * 4#32).toNat) destination
    (fun k ↦ m.bytes (source.toNat + 4 * i.toNat + k)) i.toNat n i le_rfl hdestination
    hdestinationSize ?_
  · have hlength : i.toNat + n - i.toNat = n := by omega
    rw [Nat.sub_self, Nat.mul_zero, withRange_zero, hlength] at hloop
    exact hloop
  · intro k hk hkn j hj
    have helement : (source + j * 4#32).toNat = source.toNat + 4 * k := by
      rw [toNat_element (by omega), hj]
    -- what has been written is apart from the word that is read
    have hread : ∀ b < 4, (m.withRange (destination.toNat + 4 * i.toNat) (4 * (k - i.toNat))
        fun k ↦ m.bytes (source.toNat + 4 * i.toNat + k)).bytes (source.toNat + 4 * k + b) =
          m.bytes (source.toNat + 4 * i.toNat + (4 * (k - i.toNat) + b)) := by
      intro b hb
      have hsame : source.toNat + 4 * i.toNat + (4 * (k - i.toNat) + b) =
          source.toNat + 4 * k + b := by omega
      rw [hsame]
      exact if_neg (by omega)
    rw [helement]
    exact load32_word (m.withRange _ _ _) (by rw [withRange_size]; omega) hread

/-- A loop that stores one word with equal bytes is a fill. -/
theorem fillWords_eq {destination i w : BitVec 32} {byte : BitVec 8} (n : Nat)
    (hw : w = wordOf byte byte byte byte)
    (hdestination : destination.toNat + 4 * (i.toNat + n) ≤ 4294967296)
    (hsize : destination.toNat + 4 * (i.toNat + n) ≤ m.size) :
    ∃ m', m.fill (destination.toNat + 4 * i.toNat) byte (4 * n) = some m' ∧
      storeWords (fun _ _ ↦ some w) destination n i m = .returned m' := by
  refine ⟨_, if_pos (by omega), ?_⟩
  have hloop := @storeWords_eq m (fun _ _ ↦ some w) destination (fun _ ↦ byte) i.toNat n i le_rfl
    hdestination hsize ?_
  · have hlength : i.toNat + n - i.toNat = n := by omega
    rw [Nat.sub_self, Nat.mul_zero, withRange_zero, hlength] at hloop
    exact hloop
  · intro k hk hkn j hj
    refine ⟨w, rfl, fun b hb ↦ ?_⟩
    obtain ⟨h₀, h₁, h₂, h₃⟩ := byteOf_wordOf byte byte byte byte
    rw [hw]
    match b, hb with
    | 0, _ => exact h₀
    | 1, _ => exact h₁
    | 2, _ => exact h₂
    | 3, _ => exact h₃

end LinearMemory

end CalcKernel.Lib
