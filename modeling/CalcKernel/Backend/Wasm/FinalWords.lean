import CalcKernel.Backend.Wasm.FinalParse
import Mathlib.Tactic.Ring

/-!
# Numbers and words of the final text

A number is read back from the text it is printed as.  An instruction is printed as words with
a space between them.
-/

namespace CalcKernel

open Lib

/-! ## Integers -/

theorem isWord_decimal (n : Nat) : IsWord (decimal n) := by
  refine isWord_of_visible Nat.toDigits_ne_nil fun c hc ↦ ?_
  have hbounds := visible_of_isAlphanum (isAlphanum_of_mem_toDigits (by decide) (by decide) hc)
  omega

theorem isWord_signedDecimal (n : Int) : IsWord (signedDecimal n) := by
  rw [signedDecimal]
  split
  · exact (isWord_of_all (by decide) : IsWord ['-']).append (isWord_decimal _)
  · exact isWord_decimal _

theorem stripPrefix_hex_decimal (n : Nat) : stripPrefix "0x".toList (decimal n) = none := by
  cases hstrip : stripPrefix "0x".toList (decimal n) with
  | none => rfl
  | some rest =>
      have hmem : 'x' ∈ decimal n := by
        rw [stripPrefix_eq_some.mp hstrip]
        exact List.mem_append_left _ (by decide)
      have hdigit := Nat.isDigit_of_mem_toDigits (by decide) (by decide) hmem
      exact absurd hdigit (by decide)

theorem stripPrefix_sign_decimal (n : Nat) : stripPrefix ['-'] (decimal n) = none := by
  refine stripPrefix_eq_none fun hhead ↦ ?_
  have hdigit := Nat.isDigit_of_mem_toDigits (by decide) (by decide) (List.mem_of_mem_head? hhead)
  exact absurd hdigit (by decide)

theorem parseU64_decimal {n : Nat} (h : n < 2 ^ 64) : parseU64 (decimal n) = some n := by
  rw [parseU64, stripPrefix_hex_decimal]
  exact parseUnsigned_toDigits (by decide) (by decide) h

theorem parseU32_decimal {n : Nat} (h : n < 2 ^ 32) : parseU32 (decimal n) = some n := by
  rw [parseU32, parseU64_decimal (by omega)]
  simpa using h

theorem parseIntegerBits_negative {width n : Nat} (hwidth : width ≤ 64) (h : n ≤ 2 ^ (width - 1)) :
    parseIntegerBits ('-' :: decimal n) width = some ((2 ^ width - n) % 2 ^ width) := by
  have hle : 2 ^ (width - 1) ≤ 2 ^ 63 := Nat.pow_le_pow_right (by decide) (by omega)
  have hmagnitude : parseUnsigned 10 (2 ^ 64) (Nat.toDigits 10 n) = some n :=
    parseUnsigned_toDigits (by decide) (by decide) (by omega)
  have hsign : stripPrefix ['-'] ('-' :: decimal n) = some (decimal n) := rfl
  simp only [parseIntegerBits, hsign, stripPrefix_hex_decimal]
  rw [decimal, hmagnitude]
  simp only [Option.bind_eq_bind, Option.bind_some, if_true]
  by_cases h64 : width = 64
  · subst h64
    rw [if_pos rfl, if_neg (by omega)]
  · rw [if_neg h64, if_neg (by omega)]

theorem parseIntegerBits_positive {width n : Nat} (hwidth : width ≤ 64) (h : n < 2 ^ width) :
    parseIntegerBits (decimal n) width = some n := by
  have hle : 2 ^ width ≤ 2 ^ 64 := Nat.pow_le_pow_right (by decide) hwidth
  have hmagnitude : parseUnsigned 10 (2 ^ 64) (Nat.toDigits 10 n) = some n :=
    parseUnsigned_toDigits (by decide) (by decide) (by omega)
  simp only [parseIntegerBits, stripPrefix_sign_decimal, stripPrefix_hex_decimal]
  rw [decimal, hmagnitude]
  simp only [Option.bind_eq_bind, Option.bind_some, Bool.false_eq_true, if_false]
  by_cases h64 : width = 64
  · rw [if_pos h64]
  · rw [if_neg h64, if_pos h]

theorem parseIntegerBits_signed {width : Nat} (hpos : 0 < width) (hwidth : width ≤ 64)
    (v : BitVec width) : parseIntegerBits (signedDecimal v.toInt) width = some v.toNat := by
  have hlt := v.isLt
  have hhalf : 2 ^ width = 2 * 2 ^ (width - 1) := by
    rw [← Nat.pow_succ']
    congr 1
    omega
  rw [BitVec.toInt_eq_toNat_cond]
  split
  · rw [signedDecimal, if_neg (by omega), Int.natAbs_natCast]
    exact parseIntegerBits_positive hwidth hlt
  · have habs : ((v.toNat : Int) - (2 ^ width : Nat)).natAbs = 2 ^ width - v.toNat := by omega
    rw [signedDecimal, if_pos (by omega), habs,
      parseIntegerBits_negative hwidth (by omega), Nat.sub_sub_self hlt.le, Nat.mod_eq_of_lt hlt]

theorem parseI32_signed (v : BitVec 32) : parseI32 (signedDecimal v.toInt) = some v := by
  rw [parseI32, parseIntegerBits_signed (by decide) (by decide), Option.map_some, BitVec.ofNat_toNat,
    BitVec.setWidth_eq]

theorem parseI64_signed (v : BitVec 64) : parseI64 (signedDecimal v.toInt) = some v := by
  rw [parseI64, parseIntegerBits_signed (by decide) (by decide), Option.map_some, BitVec.ofNat_toNat,
    BitVec.setWidth_eq]

/-! ## Floats -/

def IsFinite (bits : BitVec 64) : Prop := bits.toNat / 2 ^ 52 % 0x800 ≠ 0x7ff

/-- Decimal numbers are printed with digits, a sign and a point, and are read back. -/
structure FloatText.Inverse (floats : FloatText) : Prop where
  ne_nil : ∀ {bits}, IsFinite bits → floats.formatF64 bits ≠ []
  plain : ∀ {bits}, IsFinite bits → ∀ c ∈ floats.formatF64 bits,
    c.isDigit = true ∨ c = '-' ∨ c = '.'
  parse : ∀ {bits}, IsFinite bits → floats.parseF64 (floats.formatF64 bits) = some bits

section Floats

variable {floats : FloatText} {bits : BitVec 64}

/-- The sign, the exponent and the fraction of a float that is not finite. -/
theorem floatBits_parts (h : ¬IsFinite bits) :
    floatBits 64 52 (decide (bits.toNat / 2 ^ 63 ≠ 0)) 0x7ff (bits.toNat % 2 ^ 52) = bits := by
  have hexponent : bits.toNat / 2 ^ 52 % 0x800 = 0x7ff := not_not.mp h
  have hlt := bits.isLt
  apply BitVec.eq_of_toNat_eq
  rw [floatBits, BitVec.toNat_ofNat]
  by_cases hsign : bits.toNat / 2 ^ 63 = 0
  · simp only [hsign, ne_eq, not_true_eq_false, decide_false, Bool.false_eq_true, if_false]
    omega
  · simp only [hsign, ne_eq, not_false_eq_true, decide_true, if_true]
    omega

theorem parseNanPayload_hex (negative : Bool) {n zeros : Nat} (hn : n < 2 ^ 64) :
    parseNanPayload ((if negative then ['-'] else []) ++ "nan:0x".toList ++
      (List.replicate zeros '0' ++ Nat.toDigits 16 n)) = some (negative, n) := by
  generalize hdigits : List.replicate zeros '0' ++ Nat.toDigits 16 n = digits
  have hpayload : parseUnsigned 16 (2 ^ 64) digits = some n := by
    subst hdigits
    refine parseUnsigned_of_digits (by simp [Nat.toDigits_ne_nil]) (fun hhead ↦ ?_) ?_ hn
    · rcases List.mem_append.mp (List.mem_of_mem_head? hhead) with hmem | hmem
      · exact absurd (List.eq_of_mem_replicate hmem) (by decide)
      · exact absurd (isAlphanum_of_mem_toDigits (by decide) (by decide) hmem) (by decide)
    · rw [digitsFrom_zeros 16 zeros (by decide)]
      exact digitsFrom_toDigits (by decide) (by decide) n
  cases negative with
  | false =>
      have hsign : stripPrefix ['-'] ("nan:0x".toList ++ digits) = none := rfl
      simp only [parseNanPayload, Bool.false_eq_true, if_false, List.nil_append, hsign,
        stripPrefix_append]
      rw [Option.bind_eq_bind, Option.bind_some, hpayload]
      rfl
  | true =>
      have hsign : stripPrefix ['-'] ('-' :: ("nan:0x".toList ++ digits)) =
          some ("nan:0x".toList ++ digits) := rfl
      simp only [parseNanPayload, if_true, List.cons_append, List.nil_append, hsign,
        stripPrefix_append]
      rw [Option.bind_eq_bind, Option.bind_some, hpayload]
      rfl

/-- No decimal number has a letter. -/
def IsPlain (text : List Char) : Prop := ∀ c ∈ text, c.isDigit = true ∨ c = '-' ∨ c = '.'

theorem IsPlain.of_suffix {a b : List Char} (h : IsPlain (a ++ b)) : IsPlain b :=
  fun c hc ↦ h c (List.mem_append_right _ hc)

theorem IsPlain.notMem_n {text : List Char} (h : IsPlain text) : 'n' ∉ text := by
  intro hmem
  have hn := h _ hmem
  exact absurd hn (by decide)

theorem stripPrefix_nan_of_plain {text : List Char} (h : IsPlain text) :
    stripPrefix "nan:0x".toList text = none := by
  cases hstrip : stripPrefix "nan:0x".toList text with
  | none => rfl
  | some rest =>
      refine absurd ?_ h.notMem_n
      rw [stripPrefix_eq_some.mp hstrip]
      exact List.mem_append_left _ (by decide)

theorem parseNanPayload_plain {text : List Char} (h : IsPlain text) :
    parseNanPayload text = none := by
  cases hsign : stripPrefix ['-'] text with
  | none => simp only [parseNanPayload, hsign, stripPrefix_nan_of_plain h]; rfl
  | some rest =>
      have hrest : IsPlain rest := IsPlain.of_suffix (stripPrefix_eq_some.mp hsign ▸ h)
      simp only [parseNanPayload, hsign, stripPrefix_nan_of_plain hrest]
      rfl

/-- Every special spelling has an `n`. -/
theorem specialFloat_plain {text : List Char} (h : IsPlain text) :
    specialFloat 64 52 0x7ff text = none := by
  have hne : ∀ spelling : List Char, 'n' ∈ spelling → text ≠ spelling := by
    rintro spelling hmem rfl
    exact h.notMem_n hmem
  simp only [specialFloat, List.mem_cons, List.not_mem_nil, or_false]
  rw [if_neg, if_neg, if_neg, if_neg]
  · exact not_or.mpr ⟨hne _ (by decide), not_or.mpr ⟨hne _ (by decide), hne _ (by decide)⟩⟩
  · exact not_or.mpr ⟨hne _ (by decide), not_or.mpr ⟨hne _ (by decide),
      not_or.mpr ⟨hne _ (by decide), hne _ (by decide)⟩⟩⟩
  · exact hne _ (by decide)
  · exact not_or.mpr ⟨hne _ (by decide), hne _ (by decide)⟩

theorem specialFloat_inf (negative : Bool) :
    specialFloat 64 52 0x7ff ((if negative then ['-'] else []) ++ "inf".toList) =
      some (floatBits 64 52 negative 0x7ff 0) := by
  cases negative <;> rfl

theorem parseNanPayload_inf (negative : Bool) :
    parseNanPayload ((if negative then ['-'] else []) ++ "inf".toList) = none := by
  cases negative <;> rfl

theorem parseF64Bits_format (hfloats : floats.Inverse) (bits : BitVec 64) :
    parseF64Bits floats (formatF64 floats bits) = some bits := by
  by_cases hfinite : IsFinite bits
  · have hplain : IsPlain (floats.formatF64 bits) := hfloats.plain hfinite
    rw [formatF64]
    simp only
    rw [if_neg (fun h ↦ hfinite h.1), if_neg hfinite, parseF64Bits, parseNanPayload_plain hplain,
      specialFloat_plain hplain, hfloats.parse hfinite]
    rfl
  · have hparts := floatBits_parts hfinite
    have hexponent : bits.toNat / 2 ^ 52 % 0x800 = 0x7ff := not_not.mp hfinite
    have hsign : (if bits.toNat / 2 ^ 63 ≠ 0 then ['-'] else []) =
        if decide (bits.toNat / 2 ^ 63 ≠ 0) then ['-'] else [] := by
      simp only [decide_eq_true_eq]
    have hfraction : bits.toNat % 2 ^ 52 < 2 ^ 52 := Nat.mod_lt _ (by decide)
    rw [formatF64]
    simp only
    rw [hsign]
    generalize decide (bits.toNat / 2 ^ 63 ≠ 0) = negative at hparts ⊢
    by_cases hzero : bits.toNat % 2 ^ 52 = 0
    · rw [if_neg (fun h ↦ h.2 hzero), if_pos hexponent, parseF64Bits, parseNanPayload_inf,
        specialFloat_inf, ← hparts, hzero]
      rfl
    · rw [if_pos ⟨hexponent, hzero⟩, parseF64Bits, parseNanPayload_hex negative (by omega)]
      simp only
      rw [if_neg (by omega), hparts]

theorem isWord_sign (p : Prop) [Decidable p] {text : List Char} (h : IsWord text) :
    IsWord ((if p then ['-'] else []) ++ text) := by
  split
  · exact IsWord.append (isWord_of_all (by decide)) h
  · exact h

theorem isWord_formatF64 (hfloats : floats.Inverse) (bits : BitVec 64) :
    IsWord (formatF64 floats bits) := by
  rw [formatF64]
  simp only
  split
  · have hdigits : IsWord (List.replicate (13 - (Nat.toDigits 16 (bits.toNat % 2 ^ 52)).length) '0' ++
        Nat.toDigits 16 (bits.toNat % 2 ^ 52)) := by
      refine isWord_of_visible (by simp [Nat.toDigits_ne_nil]) fun c hc ↦ ?_
      rcases List.mem_append.mp hc with hc | hc
      · rw [List.eq_of_mem_replicate hc]
        decide
      · have hbounds := visible_of_isAlphanum (isAlphanum_of_mem_toDigits (by decide) (by decide) hc)
        omega
    rw [List.append_assoc]
    exact isWord_sign _ (IsWord.append (isWord_of_all (by decide)) hdigits)
  split
  · exact isWord_sign _ (isWord_of_all (by decide))
  · rename_i hfinite
    refine isWord_of_visible (hfloats.ne_nil hfinite) fun c hc ↦ ?_
    rcases hfloats.plain hfinite c hc with hdigit | rfl | rfl
    · have hbounds := visible_of_isAlphanum (c := c) (by simp [Char.isAlphanum, hdigit])
      omega
    · decide
    · decide

end Floats

end CalcKernel
