import Mathlib.Data.List.Basic
import Mathlib.Data.List.Induction
import Mathlib.Data.Nat.Init
import Mathlib.Tactic.Common

/-!
# Text taken apart

Prefixes and suffixes, the words of a line, and numbers in a radix up to sixteen.  What is
written word by word is read back word by word.
-/

namespace CalcKernel.Lib

/-! ## Blanks -/

/-- The characters with Unicode's `White_Space` property. -/
def isBlank (c : Char) : Bool :=
  let n := c.toNat
  decide (9 ≤ n ∧ n ≤ 13) || n == 0x20 || n == 0x85 || n == 0xA0 || n == 0x1680 ||
    decide (0x2000 ≤ n ∧ n ≤ 0x200A) || n == 0x2028 || n == 0x2029 || n == 0x202F ||
    n == 0x205F || n == 0x3000

/-- A text without its blanks at both ends. -/
def trim (text : List Char) : List Char :=
  ((text.dropWhile isBlank).reverse.dropWhile isBlank).reverse

/-- A text that begins and ends with a character that is no blank. -/
def Trimmed (text : List Char) : Prop :=
  (∃ c ∈ text.head?, isBlank c = false) ∧ ∃ c ∈ text.getLast?, isBlank c = false

/-- A word has a character and no blank. -/
def IsWord (text : List Char) : Prop := text ≠ [] ∧ ∀ c ∈ text, isBlank c = false

theorem Trimmed.ne_nil {text : List Char} (h : Trimmed text) : text ≠ [] := by
  rintro rfl
  obtain ⟨c, hc, -⟩ := h.1
  cases hc

theorem dropWhile_of_head {text : List Char} (h : ∃ c ∈ text.head?, isBlank c = false) :
    text.dropWhile isBlank = text := by
  obtain ⟨c, hc, hblank⟩ := h
  cases text with
  | nil => cases hc
  | cons d rest =>
      cases hc
      exact List.dropWhile_cons_of_neg (by simp [hblank])

theorem trim_spaces (n : Nat) {text : List Char} (h : Trimmed text) :
    trim (List.replicate n ' ' ++ text) = text := by
  have hstart : (List.replicate n ' ' ++ text).dropWhile isBlank = text := by
    rw [List.dropWhile_append_of_pos (by
      intro c hc
      rw [List.eq_of_mem_replicate hc]
      rfl)]
    exact dropWhile_of_head h.1
  rw [trim, hstart, dropWhile_of_head (by simpa only [List.head?_reverse] using h.2),
    List.reverse_reverse]

theorem trim_self {text : List Char} (h : Trimmed text) : trim text = text :=
  trim_spaces 0 h

theorem IsWord.trimmed {text : List Char} (h : IsWord text) : Trimmed text := by
  obtain ⟨hne, hblank⟩ := h
  exact ⟨⟨text.head hne, List.head?_eq_some_head hne, hblank _ (List.head_mem hne)⟩,
    ⟨text.getLast hne, List.getLast?_eq_some_getLast hne, hblank _ (List.getLast_mem hne)⟩⟩

theorem IsWord.append {a b : List Char} (ha : IsWord a) (hb : IsWord b) : IsWord (a ++ b) := by
  refine ⟨fun h ↦ ha.1 (List.append_eq_nil_iff.mp h).1, fun c hc ↦ ?_⟩
  rcases List.mem_append.mp hc with hc | hc
  · exact ha.2 c hc
  · exact hb.2 c hc

theorem isBlank_of_visible {c : Char} (hlow : 32 < c.toNat) (hhigh : c.toNat < 127) :
    isBlank c = false := by
  simp only [isBlank, Bool.or_eq_false_iff, decide_eq_false_iff_not, beq_eq_false_iff_ne, ne_eq]
  omega

theorem visible_of_isAlphanum {c : Char} (h : c.isAlphanum = true) :
    48 ≤ c.toNat ∧ c.toNat ≤ 122 := by
  delta Char.isAlphanum Char.isAlpha Char.isUpper Char.isLower Char.isDigit at h
  simp only [Bool.or_eq_true, Bool.and_eq_true, decide_eq_true_eq, ge_iff_le,
    UInt32.le_iff_toNat_le] at h
  simp only [Char.toNat]
  rcases h with (⟨hlow, hhigh⟩ | ⟨hlow, hhigh⟩) | ⟨hlow, hhigh⟩
  · exact ⟨Nat.le_trans (by decide) hlow, Nat.le_trans hhigh (by decide)⟩
  · exact ⟨Nat.le_trans (by decide) hlow, Nat.le_trans hhigh (by decide)⟩
  · exact ⟨Nat.le_trans (by decide) hlow, Nat.le_trans hhigh (by decide)⟩

theorem isWord_of_visible {text : List Char} (hne : text ≠ [])
    (h : ∀ c ∈ text, 32 < c.toNat ∧ c.toNat < 127) : IsWord text :=
  ⟨hne, fun c hc ↦ isBlank_of_visible (h c hc).1 (h c hc).2⟩

/-- What `decide` checks of a closed word. -/
theorem isWord_of_all {text : List Char} (h : (!text.isEmpty && text.all (!isBlank ·)) = true) :
    IsWord text := by
  obtain ⟨hne, hall⟩ := (Bool.and_eq_true _ _).mp h
  refine ⟨?_, fun c hc ↦ ?_⟩
  · rintro rfl
    cases hne
  · simpa using List.all_eq_true.mp hall c hc

theorem forall_of_all {p : Char → Prop} [DecidablePred p] {text : List Char}
    (h : text.all (fun c ↦ decide (p c)) = true) : ∀ c ∈ text, p c :=
  fun c hc ↦ of_decide_eq_true (List.all_eq_true.mp h c hc)

/-! ## Words -/

/-- `str::split_whitespace`: the words between the blanks. -/
def splitWhitespace (text : List Char) : List (List Char) :=
  (text.splitOnP isBlank).filter fun word ↦ !word.isEmpty

/-- Words behind a first one, a space before each. -/
def spaced (words : List (List Char)) : List Char := words.flatMap (' ' :: ·)

@[simp] theorem spaced_nil : spaced [] = [] := rfl

@[simp] theorem spaced_cons (word : List Char) (words : List (List Char)) :
    spaced (word :: words) = ' ' :: (word ++ spaced words) := rfl

@[simp] theorem spaced_append (a b : List (List Char)) : spaced (a ++ b) = spaced a ++ spaced b :=
  List.flatMap_append

theorem splitWhitespace_spaced {word : List Char} {words : List (List Char)} (hword : IsWord word)
    (hwords : ∀ w ∈ words, IsWord w) : splitWhitespace (word ++ spaced words) = word :: words := by
  induction words generalizing word with
  | nil =>
      rw [spaced_nil, List.append_nil, splitWhitespace, List.splitOnP_eq_singleton hword.2]
      simp [hword.1]
  | cons next words ih =>
      rw [spaced_cons, splitWhitespace,
        List.splitOnP_append_cons_of_forall_mem hword.2 ' ' rfl, List.filter_cons_of_pos (by
          simp [hword.1])]
      exact congrArg (word :: ·) (ih (hwords next List.mem_cons_self)
        fun w hw ↦ hwords w (List.mem_cons_of_mem _ hw))

theorem trimmed_spaced {word : List Char} {words : List (List Char)} (hword : IsWord word)
    (hwords : ∀ w ∈ words, IsWord w) : Trimmed (word ++ spaced words) := by
  have hhead : ∃ c ∈ (word ++ spaced words).head?, isBlank c = false := by
    obtain ⟨c, hc, hblank⟩ := hword.trimmed.1
    exact ⟨c, by rw [List.head?_append, Option.mem_def.mp hc]; rfl, hblank⟩
  refine ⟨hhead, ?_⟩
  induction words using List.reverseRecOn with
  | nil => simpa using hword.trimmed.2
  | append_singleton words last ih =>
      have hlast := hwords last (List.mem_append_right _ List.mem_cons_self)
      obtain ⟨c, hc, hblank⟩ := hlast.trimmed.2
      refine ⟨c, ?_, hblank⟩
      rw [spaced_append, ← List.append_assoc, spaced_cons, spaced_nil, List.append_nil,
        List.append_cons, List.getLast?_append, Option.mem_def.mp hc]
      rfl

theorem mem_spaced {c : Char} {words : List (List Char)} (h : c ∈ spaced words) :
    c = ' ' ∨ ∃ w ∈ words, c ∈ w := by
  obtain ⟨w, hw, hc⟩ := List.mem_flatMap.mp h
  rcases List.mem_cons.mp hc with rfl | hc
  · exact .inl rfl
  · exact .inr ⟨w, hw, hc⟩

/-! ## Prefixes and suffixes -/

/-- `str::strip_prefix`. -/
def stripPrefix : List Char → List Char → Option (List Char)
  | [], text => some text
  | p :: ps, c :: cs => if p = c then stripPrefix ps cs else none
  | _ :: _, [] => none

/-- `str::strip_suffix`. -/
def stripSuffix (suffix text : List Char) : Option (List Char) :=
  (stripPrefix suffix.reverse text.reverse).map List.reverse

/-- `str::split_once`: the text before and behind the first place where the pattern stands. -/
def splitOnce (pattern : List Char) : List Char → Option (List Char × List Char)
  | [] => (stripPrefix pattern []).map fun rest ↦ ([], rest)
  | c :: text =>
      match stripPrefix pattern (c :: text) with
      | some rest => some ([], rest)
      | none => (splitOnce pattern text).map fun parts ↦ (c :: parts.1, parts.2)

theorem stripPrefix_eq_some {p text rest : List Char} :
    stripPrefix p text = some rest ↔ text = p ++ rest := by
  induction p generalizing text with
  | nil => simp [stripPrefix]
  | cons c p ih =>
      cases text with
      | nil => simp [stripPrefix]
      | cons d text =>
          rw [stripPrefix]
          split
          · rename_i h
            simp [ih, h]
          · rename_i h
            simpa using fun heq _ ↦ h heq.symm

@[simp] theorem stripPrefix_append (p rest : List Char) : stripPrefix p (p ++ rest) = some rest :=
  stripPrefix_eq_some.mpr rfl

theorem stripPrefix_eq_none {c : Char} {p text : List Char} (h : text.head? ≠ some c) :
    stripPrefix (c :: p) text = none := by
  cases text with
  | nil => rfl
  | cons d text =>
      refine if_neg ?_
      rintro rfl
      exact h rfl

/-- Texts that differ near their start. -/
theorem stripPrefix_append_eq_none {p text : List Char} (n : Nat) (hp : n ≤ p.length)
    (htext : n ≤ text.length) (hne : p.take n ≠ text.take n) (rest : List Char) :
    stripPrefix p (text ++ rest) = none := by
  cases hstrip : stripPrefix p (text ++ rest) with
  | none => rfl
  | some suffix =>
      refine absurd ?_ hne
      have htake := congrArg (List.take n) (stripPrefix_eq_some.mp hstrip)
      rw [List.take_append_of_le_length htext, List.take_append_of_le_length hp] at htake
      exact htake.symm

theorem stripSuffix_eq_some {suffix text rest : List Char} :
    stripSuffix suffix text = some rest ↔ text = rest ++ suffix := by
  rw [stripSuffix, Option.map_eq_some_iff]
  constructor
  · rintro ⟨r, hr, rfl⟩
    have htext := congrArg List.reverse (stripPrefix_eq_some.mp hr)
    simpa using htext
  · rintro rfl
    exact ⟨rest.reverse, by simp, by simp⟩

@[simp] theorem stripSuffix_append (rest suffix : List Char) :
    stripSuffix suffix (rest ++ suffix) = some rest :=
  stripSuffix_eq_some.mpr rfl

theorem splitOnce_eq_some {pattern text a b : List Char} (h : splitOnce pattern text = some (a, b)) :
    text = a ++ pattern ++ b := by
  induction text generalizing a with
  | nil =>
      obtain ⟨rest, hrest, heq⟩ := Option.map_eq_some_iff.mp h
      cases heq
      simpa using stripPrefix_eq_some.mp hrest
  | cons c text ih =>
      rw [splitOnce] at h
      split at h
      · rename_i rest hrest
        cases h
        simpa using stripPrefix_eq_some.mp hrest
      · obtain ⟨parts, hparts, heq⟩ := Option.map_eq_some_iff.mp h
        cases heq
        simp [ih hparts]

/-- The pattern's first character stands nowhere before it. -/
theorem splitOnce_append {c : Char} {pattern a b : List Char} (h : c ∉ a) :
    splitOnce (c :: pattern) (a ++ (c :: pattern) ++ b) = some (a, b) := by
  induction a with
  | nil =>
      have hstrip : stripPrefix (c :: pattern) (c :: (pattern ++ b)) = some b :=
        stripPrefix_append (c :: pattern) b
      simp only [List.nil_append, List.cons_append]
      rw [splitOnce, hstrip]
  | cons d a ih =>
      have hne : d ≠ c := fun heq ↦ h (heq ▸ List.mem_cons_self)
      have hnone : stripPrefix (c :: pattern) (d :: (a ++ (c :: pattern) ++ b)) = none :=
        stripPrefix_eq_none (by simpa using hne)
      simp only [List.cons_append] at hnone ih ⊢
      rw [splitOnce, hnone, ih fun hmem ↦ h (List.mem_cons_of_mem _ hmem)]
      rfl

theorem splitOnce_eq_none {c : Char} {pattern text : List Char} (h : c ∉ text) :
    splitOnce (c :: pattern) text = none := by
  cases hsplit : splitOnce (c :: pattern) text with
  | none => rfl
  | some parts =>
      refine absurd ?_ h
      rw [splitOnce_eq_some hsplit]
      simp

/-! ## Numbers -/

/-- `char::to_digit`. -/
def digitOf (radix : Nat) (c : Char) : Option Nat :=
  let n := c.toNat
  let value :=
    if 48 ≤ n ∧ n ≤ 57 then n - 48
    else if 97 ≤ n ∧ n ≤ 122 then n - 87
    else if 65 ≤ n ∧ n ≤ 90 then n - 55
    else radix
  if value < radix then some value else none

/-- The value of a row of digits behind a number. -/
def digitsFrom (radix start : Nat) (text : List Char) : Option Nat :=
  text.foldlM (fun n c ↦ (digitOf radix c).map (n * radix + ·)) start

/-- `from_str_radix` of an unsigned type with the given number of values: digits behind at most
one plus sign, whose value fits. -/
def parseUnsigned (radix limit : Nat) (text : List Char) : Option Nat :=
  let digits := (stripPrefix ['+'] text).getD text
  if digits = [] then none else (digitsFrom radix 0 digits).filter (· < limit)

theorem digitOf_digitChar {radix d : Nat} (hradix : radix ≤ 16) (hd : d < radix) :
    digitOf radix d.digitChar = some d := by
  have hvalue : ∀ d < 16, 48 ≤ d.digitChar.toNat ∧ d.digitChar.toNat ≤ 57 ∧
        d.digitChar.toNat - 48 = d ∨
      97 ≤ d.digitChar.toNat ∧ d.digitChar.toNat ≤ 122 ∧ d.digitChar.toNat - 87 = d := by
    decide
  simp only [digitOf]
  rcases hvalue d (by omega) with ⟨hlow, hhigh, heq⟩ | ⟨hlow, hhigh, heq⟩
  · simp only [hlow, hhigh, heq, hd, and_self, if_true]
  · have hletter : ¬(48 ≤ d.digitChar.toNat ∧ d.digitChar.toNat ≤ 57) := by omega
    simp only [hletter, hlow, hhigh, heq, hd, and_self, if_true, if_false]

theorem digitsFrom_append (radix start : Nat) (a b : List Char) :
    digitsFrom radix start (a ++ b) = (digitsFrom radix start a).bind (digitsFrom radix · b) :=
  List.foldlM_append ..

theorem digitsFrom_toDigits {radix : Nat} (hlow : 1 < radix) (hhigh : radix ≤ 16) (n : Nat) :
    digitsFrom radix 0 (Nat.toDigits radix n) = some n := by
  induction n using Nat.strongRecOn with
  | ind n ih =>
      by_cases hn : n < radix
      · rw [Nat.toDigits_of_lt_base hn]
        simp [digitsFrom, digitOf_digitChar hhigh hn]
      · have hmod : n % radix < radix := Nat.mod_lt _ (by omega)
        have hdiv : 0 < n / radix := Nat.div_pos (by omega) (by omega)
        have hsmall : n / radix < n := Nat.div_lt_self (by omega) hlow
        have hdigits := Nat.toDigits_append_toDigits hlow hdiv hmod
        rw [Nat.div_add_mod] at hdigits
        rw [← hdigits, digitsFrom_append, ih _ hsmall, Nat.toDigits_of_lt_base hmod]
        simp [digitsFrom, digitOf_digitChar hhigh hmod, Nat.div_add_mod']

theorem digitsFrom_zeros (radix n : Nat) (hradix : 0 < radix) (text : List Char) :
    digitsFrom radix 0 (List.replicate n '0' ++ text) = digitsFrom radix 0 text := by
  induction n with
  | zero => rfl
  | succ n ih =>
      have hzero : digitOf radix '0' = some 0 := if_pos hradix
      rw [List.replicate_succ, List.cons_append, ← ih, digitsFrom, List.foldlM_cons, hzero]
      simp [digitsFrom]

theorem isAlphanum_of_mem_toDigits {radix n : Nat} (hlow : 1 < radix) (hhigh : radix ≤ 16) {c : Char}
    (hc : c ∈ Nat.toDigits radix n) : c.isAlphanum = true := by
  induction n using Nat.strongRecOn with
  | ind n ih =>
      have hdigit : ∀ d < 16, d.digitChar.isAlphanum = true := by decide
      by_cases hn : n < radix
      · rw [Nat.toDigits_of_lt_base hn, List.mem_singleton] at hc
        exact hc ▸ hdigit n (by omega)
      · have hmod : n % radix < radix := Nat.mod_lt _ (by omega)
        have hdiv : 0 < n / radix := Nat.div_pos (by omega) (by omega)
        have hdigits := Nat.toDigits_append_toDigits hlow hdiv hmod
        rw [Nat.div_add_mod] at hdigits
        rw [← hdigits, Nat.toDigits_of_lt_base hmod] at hc
        rcases List.mem_append.mp hc with hc | hc
        · exact ih _ (Nat.div_lt_self (by omega) hlow) hc
        · rw [List.mem_singleton] at hc
          exact hc ▸ hdigit _ (by omega)

theorem parseUnsigned_of_digits {radix limit n : Nat} {text : List Char} (hne : text ≠ [])
    (hsign : text.head? ≠ some '+') (hvalue : digitsFrom radix 0 text = some n) (hn : n < limit) :
    parseUnsigned radix limit text = some n := by
  have hplus : stripPrefix ['+'] text = none := stripPrefix_eq_none hsign
  simp only [parseUnsigned]
  rw [hplus, Option.getD_none, if_neg hne, hvalue]
  simp [hn]

theorem parseUnsigned_toDigits {radix limit n : Nat} (hlow : 1 < radix) (hhigh : radix ≤ 16)
    (hn : n < limit) : parseUnsigned radix limit (Nat.toDigits radix n) = some n := by
  refine parseUnsigned_of_digits Nat.toDigits_ne_nil (fun h ↦ ?_)
    (digitsFrom_toDigits hlow hhigh n) hn
  have halpha := isAlphanum_of_mem_toDigits hlow hhigh (List.mem_of_mem_head? h)
  exact absurd halpha (by decide)

theorem parseUnsigned_lt {radix limit n : Nat} {text : List Char}
    (h : parseUnsigned radix limit text = some n) : n < limit := by
  simp only [parseUnsigned] at h
  split at h
  · cases h
  · simpa using (Option.filter_eq_some_iff.mp h).2

end CalcKernel.Lib
