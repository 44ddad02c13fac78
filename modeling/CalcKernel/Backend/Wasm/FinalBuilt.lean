import CalcKernel.Backend.Wasm.FinalRoundTrip
import CalcKernel.Lib.Assoc

/-!
# What the builder builds

Every line keeps the functions and the instructions well formed, so every module a builder
finishes is.
-/

namespace CalcKernel

open Lib

variable {floats : FloatText}

theorem map_eq_ok {ε α β : Type} {x : Except ε α} {f : α → β} {b : β} :
    f <$> x = .ok b ↔ ∃ a, x = .ok a ∧ f a = b := by
  cases x with
  | error e => simp [Functor.map, Except.map]
  | ok a => simp [Functor.map, Except.map]

theorem orUnsupported_eq_ok {α : Type} {line : List Char} {o : Option α} {a : α} :
    orUnsupported line o = .ok a ↔ o = some a := by
  cases o with
  | none => simp [orUnsupported, unsupportedInstruction]
  | some b => simp [orUnsupported]

/-! ## Instructions -/

theorem parseLabel_valid {line text name : List Char} (h : parseLabel line text = .ok name) :
    validIdentifier name = true :=
  (Option.filter_eq_some_iff.mp (orUnsupported_eq_ok.mp h)).2

theorem parseLane_length {laneType : String} {width : Nat} (hwidth : laneWidth laneType = some width)
    {value : List Char} {bytes : List UInt8}
    (h : parseLane floats laneType width value = some bytes) : bytes.length = width := by
  rw [parseLane] at h
  split at h
  · rename_i htype
    subst htype
    cases hwidth
    obtain ⟨bits, -, rfl⟩ := Option.map_eq_some_iff.mp h
    simp [littleEndian]
  split at h
  · rename_i htype
    subst htype
    cases hwidth
    obtain ⟨bits, -, rfl⟩ := Option.map_eq_some_iff.mp h
    simp [littleEndian]
  · obtain ⟨n, -, rfl⟩ := Option.map_eq_some_iff.mp h
    simp [littleEndian]

theorem laneWidth_dvd {laneType : String} {width : Nat} (h : laneWidth laneType = some width) :
    16 / width * width = 16 := by
  unfold laneWidth at h
  repeat' split at h
  all_goals cases h
  all_goals rfl

theorem parseV128Const_length {words : List (List Char)} {bytes : List UInt8}
    (h : parseV128Const floats words = some bytes) : bytes.length = 16 := by
  cases words with
  | nil => cases h
  | cons laneType values =>
      rw [parseV128Const] at h
      obtain ⟨width, hwidth, h⟩ := Option.bind_eq_some_iff.mp h
      split at h
      · cases h
      · rename_i hlength
        obtain ⟨lanes, hlanes, rfl⟩ := Option.map_eq_some_iff.mp h
        have hparsed := mapM_option_eq_some hlanes
        have hlane : ∀ lane ∈ lanes, lane.length = width := fun lane hlane ↦ by
          obtain ⟨value, -, hvalue⟩ := forall₂_mem_right hparsed hlane
          exact parseLane_length hwidth hvalue
        have hsum : lanes.flatten.length = lanes.length * width := by
          rw [List.length_flatten, List.map_congr_left hlane, List.map_const',
            List.sum_replicate_nat]
        rw [hsum, ← hparsed.length_eq, not_not.mp hlength, laneWidth_dvd hwidth]

theorem parseImmediate_align {line immediate : List Char} {offset align : Option Nat}
    {result : Option Nat × Option Nat} (halign : ∀ a ∈ align, a < 32)
    (h : parseImmediate line (offset, align) immediate = .ok result) :
    ∀ a ∈ result.2, a < 32 := by
  rw [parseImmediate] at h
  split at h
  · obtain ⟨n, -, h⟩ := bind_eq_ok.mp h
    cases h
    exact halign
  split at h
  · obtain ⟨bytes, hbytes, h⟩ := bind_eq_ok.mp h
    split at h
    · rename_i hpow
      cases h
      intro a ha
      cases ha
      have hsmall : bytes < 2 ^ 32 := by
        simpa using (Option.filter_eq_some_iff.mp (orUnsupported_eq_ok.mp hbytes)).2
      rw [hpow] at hsmall
      exact (Nat.pow_lt_pow_iff_right (by decide)).mp hsmall
    · cases h
  · cases h

theorem parseImmediates_align {line : List Char} {rest : List (List Char)}
    {start result : Option Nat × Option Nat} (hstart : ∀ a ∈ start.2, a < 32)
    (h : rest.foldlM (parseImmediate line) start = .ok result) : ∀ a ∈ result.2, a < 32 := by
  induction rest generalizing start with
  | nil =>
      cases h
      exact hstart
  | cons immediate rest ih =>
      rw [List.foldlM_cons] at h
      obtain ⟨next, hnext, h⟩ := bind_eq_ok.mp h
      exact ih (parseImmediate_align hstart hnext) h

theorem parseMemoryInstruction_wellFormed {line : List Char} {opcode : MemoryOpcode}
    {isStore : Bool} (hstore : opcode.isStore = isStore) {rest : List (List Char)}
    {kind : FinalInstructionKind}
    (h : parseMemoryInstruction line opcode isStore rest = .ok kind) : kind.WellFormed := by
  obtain ⟨⟨offset, align⟩, himmediates, h⟩ := bind_eq_ok.mp h
  obtain ⟨n, -, h⟩ := bind_eq_ok.mp h
  obtain ⟨a, halign, h⟩ := bind_eq_ok.mp h
  have hsmall : a < 32 := parseImmediates_align (fun _ ha ↦ by cases ha) himmediates a
    (orUnsupported_eq_ok.mp halign)
  split at h
  · rename_i htrue
    cases h
    exact ⟨hstore.trans htrue, hsmall⟩
  · rename_i hfalse
    cases h
    exact ⟨hstore.trans (Bool.eq_false_iff.mpr hfalse), hsmall⟩

theorem parseShuffle_wellFormed {line : List Char} {rest : List (List Char)}
    {kind : FinalInstructionKind} (h : parseShuffle line rest = .ok kind) : kind.WellFormed := by
  obtain ⟨lanes, hlanes, h⟩ := bind_eq_ok.mp h
  split at h
  · rename_i hlength
    cases h
    intro lane hlane
    have hparsed := mapM_option_eq_some (orUnsupported_eq_ok.mp hlanes)
    obtain ⟨value, -, hvalue⟩ := forall₂_mem_right hparsed (by simpa using hlane)
    obtain ⟨n, hn, rfl⟩ := Option.map_eq_some_iff.mp hvalue
    have hsmall : n < 32 := by simpa using (Option.filter_eq_some_iff.mp hn).2
    rw [UInt8.toNat_ofNat']
    omega
  · cases h

theorem parseOpcode_wellFormed {line : List Char} {opcode : String} {rest : List (List Char)}
    {kind : FinalInstructionKind} (h : parseOpcode line opcode rest = .ok kind) :
    kind.WellFormed := by
  unfold parseOpcode at h
  split at h
  · obtain ⟨n, -, h⟩ := bind_eq_ok.mp h
    cases h
    exact trivial
  split at h
  · rename_i hmemory
    obtain ⟨memory, -, heq⟩ := Option.map_eq_some_iff.mp hmemory
    cases heq
    exact parseMemoryInstruction_wellFormed rfl h
  split at h
  · split at h
    · cases h
      exact trivial
    · cases h
  · cases h

theorem parsePiece_label {line piece : List Char}
    {start result : Option (List Char) × List WasmValueType}
    (hstart : ∀ name ∈ start.1, validIdentifier name = true)
    (h : parsePiece line start piece = .ok result) :
    ∀ name ∈ result.1, validIdentifier name = true := by
  obtain ⟨label, results⟩ := start
  rw [parsePiece] at h
  split at h
  · split at h
    · cases h
    · rename_i name _ hvalid
      cases h
      intro n hn
      cases hn
      have hboth : label = none ∧ validIdentifier name = true := by simpa using hvalid
      exact hboth.2
  split at h
  · cases h
    exact hstart
  split at h
  · cases h
    exact hstart
  · cases h

theorem parseControlHeader_label {line : List Char}
    {header : Option (List Char) × List WasmValueType}
    (h : parseControlHeader line = .ok header) :
    ∀ name ∈ header.1, validIdentifier name = true := by
  obtain ⟨result, hresult, h⟩ := bind_eq_ok.mp h
  have hfold : ∀ (pieces : List (List Char)) (start : Option (List Char) × List WasmValueType),
      (∀ name ∈ start.1, validIdentifier name = true) →
      pieces.foldlM (parsePiece line) start = .ok result →
      ∀ name ∈ result.1, validIdentifier name = true := by
    intro pieces
    induction pieces with
    | nil =>
        intro start hstart hfold
        cases hfold
        exact hstart
    | cons piece pieces ih =>
        intro start hstart hfold
        rw [List.foldlM_cons] at hfold
        obtain ⟨next, hnext, hfold⟩ := bind_eq_ok.mp hfold
        exact ih next (parsePiece_label hstart hnext) hfold
  split at h
  · cases h
  · cases h
    exact hfold _ _ (fun _ hn ↦ by cases hn) hresult

theorem parseKind_wellFormed {line : List Char} {opcode : String} {rest : List (List Char)}
    {kind : FinalInstructionKind} (h : parseKind floats line opcode rest = .ok kind) :
    kind.WellFormed := by
  unfold parseKind at h
  split at h
  case h_22 => exact parseOpcode_wellFormed h
  case h_1 | h_2 | h_3 =>
    obtain ⟨header, hheader, rfl⟩ := map_eq_ok.mp h
    exact parseControlHeader_label hheader
  case h_6 | h_7 | h_9 | h_10 | h_11 | h_12 =>
    obtain ⟨name, hname, rfl⟩ := map_eq_ok.mp h
    exact parseLabel_valid hname
  case h_8 =>
    obtain ⟨labels, hlabels, h⟩ := bind_eq_ok.mp h
    obtain ⟨default, hdefault, h⟩ := bind_eq_ok.mp h
    cases h
    have hvalid : ∀ label ∈ labels, validIdentifier label = true := fun label hlabel ↦ by
      obtain ⟨text, -, htext⟩ := mapM_except_mem hlabels hlabel
      exact parseLabel_valid htext
    exact ⟨fun target htarget ↦ hvalid target ((List.dropLast_sublist labels).mem htarget),
      hvalid default (List.mem_of_getLast? (orUnsupported_eq_ok.mp hdefault))⟩
  case h_16 =>
    obtain ⟨bytes, hbytes, rfl⟩ := map_eq_ok.mp h
    exact parseV128Const_length (orUnsupported_eq_ok.mp hbytes)
  case h_21 =>
    split at h
    · exact parseShuffle_wellFormed h
    · exact parseOpcode_wellFormed h
  case h_4 | h_5 | h_17 | h_18 | h_19 | h_20 =>
    cases h
    exact trivial
  case h_13 | h_14 | h_15 =>
    obtain ⟨value, -, rfl⟩ := map_eq_ok.mp h
    exact trivial

theorem parseInstruction_wellFormed {raw : List Char} {instruction : FinalInstruction}
    (h : parseInstruction floats raw = .ok instruction) : instruction.kind.WellFormed := by
  unfold parseInstruction at h
  simp only at h
  split at h
  · cases h
  · obtain ⟨kind, hkind, h⟩ := bind_eq_ok.mp h
    cases h
    exact parseKind_wellFormed hkind

/-! ## Declarations -/

theorem parseLocal_valid {inner : List Char} {kind : String} {l : FinalLocal}
    (h : parseLocal inner kind = .ok l) : validIdentifier l.name = true := by
  unfold parseLocal at h
  simp only at h
  split at h
  · cases h
  split at h
  · cases h
  rename_i hname
  split at h
  · cases h
  split at h
  · cases h
  split at h
  · cases h
    exact (Option.filter_eq_some_iff.mp hname).2
  · cases h

theorem newline_notMem_trim {raw : List Char} (h : '\n' ∉ raw) : '\n' ∉ trim raw := by
  intro hmem
  refine h ((List.dropWhile_sublist isBlank).mem ?_)
  have hreverse := List.mem_reverse.mp hmem
  exact List.mem_reverse.mp ((List.dropWhile_sublist isBlank).mem hreverse)

/-- A header has the names of a function, and the function has nothing else yet. -/
theorem parseFunctionHeader_wellFormed {line : List Char} (hline : '\n' ∉ line)
    {f : FinalWasmFunction} (h : parseFunctionHeader line = .ok f) : f.WellFormed := by
  unfold parseFunctionHeader at h
  split at h
  · cases h
  rename_i inner hinner
  have hparts := stripPrefix_eq_some.mp hinner
  have hnewline : '\n' ∉ inner := fun hmem ↦ hline (hparts ▸ List.mem_append_right _ hmem)
  obtain ⟨⟨name, exportName⟩, hnames, h⟩ := bind_eq_ok.mp h
  simp only at h
  split at h
  · cases h
  · rename_i hvalid
    cases h
    have hboth : validIdentifier name = true ∧ exportName.any (·.contains '"') = false := by
      simpa using hvalid
    refine ⟨hboth.1, ?_, ?_, ?_, ?_⟩
    · rintro e he
      cases he
      refine ⟨by simpa using hboth.2, fun hmem ↦ hnewline ?_⟩
      unfold parseHeaderNames at hnames
      split at hnames
      · cases hnames
      · rename_i rest hsplit
        split at hnames
        · rename_i hsuffix
          cases hnames
          rw [splitOnce_eq_some hsplit, stripSuffix_eq_some.mp hsuffix]
          exact List.mem_append_right _ (List.mem_append_left _ hmem)
        · cases hnames
    · intro p hp
      cases hp
    · intro l hl
      cases hl
    · intro i hi
      cases hi

/-! ## Lines -/

structure FinalWasmText.Built (s : FinalWasmText) : Prop where
  functions : s.module.WellFormed
  current : ∀ f ∈ s.currentFunction, f.WellFormed

theorem parseFunctionLine_built {s s' : FinalWasmText} (hs : s.Built) {f : FinalWasmFunction}
    (hf : f.WellFormed) {raw : List Char} (h : s.parseFunctionLine floats f raw = .ok s') :
    s'.Built := by
  have hcurrent : ∀ g : FinalWasmFunction, g.WellFormed →
      FinalWasmText.Built { s with currentFunction := some g } := fun g hg ↦
    ⟨hs.functions, fun g' hg' ↦ by
      cases hg'
      exact hg⟩
  have hsnoc : ∀ {α : Type} {P : α → Prop} {l : List α} {a : α}, (∀ b ∈ l, P b) → P a →
      ∀ b ∈ l ++ [a], P b := by
    intro α P l a hl ha b hb
    rcases List.mem_append.mp hb with hb | hb
    · exact hl b hb
    · exact List.mem_singleton.mp hb ▸ ha
  unfold FinalWasmText.parseFunctionLine at h
  simp only at h
  split at h
  · cases h
    exact ⟨hsnoc hs.functions hf, fun g hg ↦ by cases hg⟩
  split at h
  · obtain ⟨param, hparam, h⟩ := bind_eq_ok.mp h
    cases h
    exact hcurrent _ { hf with params := hsnoc hf.params (parseLocal_valid hparam) }
  split at h
  · obtain ⟨l, hl, h⟩ := bind_eq_ok.mp h
    cases h
    exact hcurrent _ { hf with locals := hsnoc hf.locals (parseLocal_valid hl) }
  split at h
  · split at h
    · cases h
    obtain ⟨results, -, h⟩ := bind_eq_ok.mp h
    split at h
    · cases h
    · cases h
      exact hcurrent _ { hf with }
  · obtain ⟨instruction, hinstruction, h⟩ := bind_eq_ok.mp h
    cases h
    exact hcurrent _ { hf with body := hsnoc hf.body (parseInstruction_wellFormed hinstruction) }

theorem parseModuleLine_built {s s' : FinalWasmText} (hs : s.Built) {trimmed : List Char}
    (htrimmed : '\n' ∉ trimmed) (h : s.parseModuleLine trimmed = .ok s') : s'.Built := by
  unfold FinalWasmText.parseModuleLine at h
  split at h
  · cases h
    exact ⟨hs.functions, hs.current⟩
  split at h
  · obtain ⟨f, hf, h⟩ := bind_eq_ok.mp h
    cases h
    refine ⟨hs.functions, fun g hg ↦ ?_⟩
    cases hg
    exact parseFunctionHeader_wellFormed htrimmed hf
  split at h
  · obtain ⟨n, -, h⟩ := bind_eq_ok.mp h
    cases h
    exact ⟨hs.functions, hs.current⟩
  split at h
  · obtain ⟨metadata, -, h⟩ := bind_eq_ok.mp h
    obtain ⟨m, hm, h⟩ := bind_eq_ok.mp h
    cases h
    unfold FinalWasmModule.setTargetMetadata at hm
    split at hm
    · cases hm
    · cases hm
      exact ⟨hs.functions, hs.current⟩
  split at h
  · split at h
    · cases h
      exact hs
    · cases h
  · cases h

theorem parseLine_built {s s' : FinalWasmText} (hs : s.Built) {raw : List Char}
    (hraw : '\n' ∉ raw) (h : s.parseLine floats raw = .ok s') : s'.Built := by
  unfold FinalWasmText.parseLine at h
  simp only at h
  split at h
  · cases h
    exact hs
  split at h
  · cases h
  split at h
  · split at h
    · cases h
    · cases h
      exact ⟨hs.functions, hs.current⟩
  split at h
  · rename_i f hf
    exact parseFunctionLine_built hs (hs.current f hf) h
  · exact parseModuleLine_built hs (newline_notMem_trim hraw) h

/-- Every module a text gives is well formed and passes the checks. -/
theorem readWat_built {chunks : List (List Char)} {m : FinalWasmModule}
    (h : readWat floats chunks = .ok m) : m.WellFormed ∧ validateModule m = .ok () := by
  obtain ⟨s, hs, h⟩ := bind_eq_ok.mp h
  have hstart : FinalWasmText.start.Built := by
    refine ⟨fun f hf ↦ ?_, fun f hf ↦ ?_⟩
    · cases hf
    · cases hf
  have hbuilt : s.Built :=
    LineFeed.invariant hstart (fun hs hraw hline ↦ parseLine_built hs hraw hline) hs
  split at h
  · cases h
  · obtain ⟨hvalid, h⟩ := check_bind_eq_ok.mp h
    cases h
    exact ⟨hbuilt.functions, hvalid⟩

/-! ## A sample -/

/-- One and a half is written in decimals, every other number by its bits. -/
def sampleFloats : FloatText where
  formatF64 bits := if bits = 0x3ff8000000000000#64 then "1.5".toList else decimal bits.toNat
  parseF64 text :=
    if text = "1.5".toList then some 0x3ff8000000000000#64
    else (parseUnsigned 10 (2 ^ 64) text).map (BitVec.ofNat 64)
  parseF32 _ := none

theorem sampleFloats_inverse : sampleFloats.Inverse where
  ne_nil := by
    intro bits _
    show (if _ then _ else _) ≠ []
    split
    · decide
    · exact Nat.toDigits_ne_nil
  plain := by
    intro bits _ c hc
    change c ∈ (if _ then _ else _) at hc
    split at hc
    · exact forall_of_all (p := fun c ↦ c.isDigit = true ∨ c = '-' ∨ c = '.') (by decide) c hc
    · exact .inl (Nat.isDigit_of_mem_toDigits (by decide) (by decide) hc)
  parse := by
    intro bits _
    by_cases heq : bits = 0x3ff8000000000000#64
    · have hformat : sampleFloats.formatF64 bits = "1.5".toList := if_pos heq
      have hparse : sampleFloats.parseF64 "1.5".toList = some 0x3ff8000000000000#64 := by decide
      rw [hformat, hparse, heq]
    · have hformat : sampleFloats.formatF64 bits = decimal bits.toNat := if_neg heq
      have hpoint : decimal bits.toNat ≠ "1.5".toList := by
        intro heq
        have hdigit := Nat.isDigit_of_mem_toDigits (n := bits.toNat) (by decide) (by decide)
          (show '.' ∈ decimal bits.toNat from heq ▸ by decide)
        exact absurd hdigit (by decide)
      have hvalue : parseUnsigned 10 (2 ^ 64) (decimal bits.toNat) = some bits.toNat :=
        parseUnsigned_toDigits (by decide) (by decide) bits.isLt
      have hparse : sampleFloats.parseF64 (decimal bits.toNat) =
          (parseUnsigned 10 (2 ^ 64) (decimal bits.toNat)).map (BitVec.ofNat 64) := if_neg hpoint
      rw [hformat, hparse, hvalue, Option.map_some, BitVec.ofNat_toNat, BitVec.setWidth_eq]

def bareModule : FinalWasmModule := ⟨[], 1, none⟩

def sampleSource : List Char :=
  "(module\n  (func $f\n    (result f64)\n    f64.const 1.5\n  )\n)".toList

def sampleModule : FinalWasmModule where
  functions := [⟨"f".toList, none, [], [.f64], [], [⟨4, .f64Const 0x3ff8000000000000#64⟩]⟩]
  memoryMinimum := 1
  targetMetadata := none

/-! ## The round trip -/

/-- The checks at the end look at the metadata only for being empty. -/
theorem validateModule_congr {m m' : FinalWasmModule} (h : validateModule m = .ok ())
    (hfunctions : m'.functions = m.functions) (hmemory : m'.memoryMinimum = m.memoryMinimum)
    (hmetadata : m'.targetMetadata ≠ some []) : validateModule m' = .ok () := by
  unfold validateModule at h ⊢
  rw [hfunctions, hmemory]
  split at h
  · cases h
  · rename_i hne
    obtain ⟨hnames, -⟩ := check_bind_eq_ok.mp h
    rw [if_neg hne, hnames, if_neg hmetadata]
    rfl

theorem readWat_toWat (hfloats : floats.Inverse) {m : FinalWasmModule} (h : m.WellFormed)
    (hvalid : validateModule m = .ok ())
    (hutf8 : ∀ metadata ∈ m.targetMetadata, fromUtf8Lossy metadata = metadata)
    {chunks : List (List Char)} (hchunks : chunks.flatten = m.toWat floats) :
    readWat floats chunks = .ok m := by
  have hread := (LineFeed.close_push FinalWasmText.start (newline_notMem_module hfloats h)
    hchunks).trans (run_module hfloats h hutf8)
  refine bind_eq_ok.mpr ⟨_, hread, ?_⟩
  show (validateModule m >>= fun _ ↦ Except.ok m) = _
  rw [hvalid]
  rfl

/-- A module with a payload, or the module as it is. -/
inductive WithMetadata (m : FinalWasmModule) : FinalWasmModule → Prop
  | unchanged : WithMetadata m m
  | set {metadata : List UInt8} {m' : FinalWasmModule}
      (hset : m.setTargetMetadata metadata = .ok m') : WithMetadata m m'

/-- The text of a finished module, with any payload that is UTF-8 and not empty, gives the
module again in whatever chunks it is fed. -/
theorem toWat_roundTrip (hfloats : floats.Inverse) {source : List (List Char)}
    {m m' : FinalWasmModule} (hbuilt : readWat floats source = .ok m) (hmetadata : WithMetadata m m')
    (hpayload : ∀ metadata ∈ m'.targetMetadata, metadata ≠ [] ∧ ∃ text, metadata = utf8 text)
    {chunks : List (List Char)} (hchunks : chunks.flatten = m'.toWat floats) :
    readWat floats chunks = .ok m' := by
  obtain ⟨hwell, hvalid⟩ := readWat_built hbuilt
  have hsame : m'.functions = m.functions ∧ m'.memoryMinimum = m.memoryMinimum := by
    cases hmetadata with
    | unchanged => exact ⟨rfl, rfl⟩
    | set hset =>
        unfold FinalWasmModule.setTargetMetadata at hset
        split at hset
        · cases hset
        · cases hset
          exact ⟨rfl, rfl⟩
  have hutf8 : ∀ metadata ∈ m'.targetMetadata, fromUtf8Lossy metadata = metadata := by
    intro metadata hmem
    obtain ⟨-, text, rfl⟩ := hpayload metadata hmem
    exact fromUtf8Lossy_utf8 text
  have hne : m'.targetMetadata ≠ some [] := fun heq ↦ (hpayload [] heq).1 rfl
  refine readWat_toWat hfloats (fun f hf ↦ hwell f (hsame.1 ▸ hf))
    (validateModule_congr hvalid hsame.1 hsame.2 hne) hutf8 hchunks

/-- An empty payload is refused, and one that is no UTF-8 comes back changed. -/
theorem toWat_not_roundTrip : sampleFloats.Inverse ∧
    readWat sampleFloats ["(module\n)".toList] = .ok bareModule ∧
    (∃ m', bareModule.setTargetMetadata [] = .ok m' ∧
      readWat sampleFloats [m'.toWat sampleFloats] =
        .error "ck.wasm.target metadata payload must not be empty") ∧
    ∃ m', bareModule.setTargetMetadata [0xff] = .ok m' ∧
      readWat sampleFloats [m'.toWat sampleFloats] ≠ .ok m' :=
  ⟨sampleFloats_inverse, by decide +kernel, ⟨⟨[], 1, some []⟩, rfl, by decide +kernel⟩,
    ⟨[], 1, some [0xff]⟩, rfl, by decide +kernel⟩

theorem toWat_roundTrip_sample :
    readWat sampleFloats [({ sampleModule with targetMetadata := some (utf8 ['a']) } :
      FinalWasmModule).toWat sampleFloats] =
        .ok { sampleModule with targetMetadata := some (utf8 ['a']) } :=
  toWat_roundTrip sampleFloats_inverse
    (show readWat sampleFloats [sampleSource] = .ok sampleModule by decide +kernel)
    (.set (show sampleModule.setTargetMetadata (utf8 ['a']) = .ok _ from rfl))
    (by
      rintro metadata heq
      cases heq
      exact ⟨by decide, ['a'], rfl⟩)
    (by simp)

end CalcKernel
