import CalcKernel.Backend.Wasm.FinalWords

/-!
# Instructions of the final text

A printed instruction is a name and its operands, and is read back as it was.
-/

namespace CalcKernel

open Lib

/-! ## Well-formed instructions -/

/-- What the parser makes sure of. -/
def FinalInstructionKind.WellFormed : FinalInstructionKind → Prop
  | .v128Const bytes => bytes.length = 16
  | .localGet name | .localSet name | .localTee name | .call name | .br name | .brIf name =>
      validIdentifier name = true
  | .block label _ | .loop label _ | .if_ label _ => ∀ name ∈ label, validIdentifier name = true
  | .brTable targets default =>
      (∀ target ∈ targets, validIdentifier target = true) ∧ validIdentifier default = true
  | .load opcode _ align => opcode.isStore = false ∧ align < 32
  | .store opcode _ align => opcode.isStore = true ∧ align < 32
  | .shuffle lanes => ∀ lane ∈ lanes.toList, lane.toNat < 32
  | _ => True

theorem validIdentifier_iff {name : List Char} : validIdentifier name = true ↔
    name ≠ [] ∧ ∀ c ∈ name, c.isAlphanum = true ∨ c = '_' ∨ c = '.' ∨ c = '-' := by
  simp [validIdentifier, or_assoc]

theorem identifier_bounds {name : List Char} (h : validIdentifier name = true) {c : Char}
    (hc : c ∈ name) : 45 ≤ c.toNat ∧ c.toNat ≤ 122 := by
  rcases (validIdentifier_iff.mp h).2 c hc with halpha | rfl | rfl | rfl
  · have hbounds := visible_of_isAlphanum halpha
    omega
  · decide
  · decide
  · decide

theorem isWord_label {name : List Char} (h : validIdentifier name = true) : IsWord ('$' :: name) := by
  refine isWord_of_visible (List.cons_ne_nil _ _) fun c hc ↦ ?_
  rcases List.mem_cons.mp hc with rfl | hc
  · decide
  · have hbounds := identifier_bounds h hc
    omega

theorem isWord_valueType (ty : WasmValueType) : IsWord ty.wat.toList := by
  cases ty <;> exact isWord_of_all (by decide)

theorem parseValueType_wat (ty : WasmValueType) : parseValueType ty.wat.toList = some ty := by
  rw [parseValueType, String.ofList_toList, WasmValueType.parse_wat]

/-! ## Words of an instruction -/

/-- The words with a closing bracket behind the last. -/
def closeLast : List (List Char) → List (List Char)
  | [] => []
  | [word] => [word ++ [')']]
  | word :: words => word :: closeLast words

def typeWords (types : List WasmValueType) : List (List Char) := types.map fun ty ↦ ty.wat.toList

def resultWords (results : List WasmValueType) : List (List Char) :=
  if results = [] then [] else "(result".toList :: closeLast (typeWords results)

def controlWords (label : Option (List Char)) (results : List WasmValueType) :
    List (List Char) :=
  label.toList.map ('$' :: ·) ++ resultWords results

namespace FinalInstructionKind

def name : FinalInstructionKind → String
  | .simple opcode => opcode.wat
  | .i32Const _ => "i32.const"
  | .i64Const _ => "i64.const"
  | .f64Const _ => "f64.const"
  | .v128Const _ => "v128.const"
  | .localGet _ => "local.get"
  | .localSet _ => "local.set"
  | .localTee _ => "local.tee"
  | .call _ => "call"
  | .block _ _ => "block"
  | .loop _ _ => "loop"
  | .if_ _ _ => "if"
  | .else_ => "else"
  | .end_ => "end"
  | .br _ => "br"
  | .brIf _ => "br_if"
  | .brTable _ _ => "br_table"
  | .load opcode _ _ | .store opcode _ _ => opcode.wat
  | .memorySize => "memory.size"
  | .memoryGrow => "memory.grow"
  | .memoryCopy => "memory.copy"
  | .memoryFill => "memory.fill"
  | .lane opcode _ => opcode.wat
  | .shuffle _ => "i8x16.shuffle"

def operands (floats : FloatText) : FinalInstructionKind → List (List Char)
  | .i32Const value => [signedDecimal value.toInt]
  | .i64Const value => [signedDecimal value.toInt]
  | .f64Const bits => [formatF64 floats bits]
  | .v128Const bytes => "i8x16".toList :: bytes.map fun byte ↦ signedDecimal byte.toBitVec.toInt
  | .localGet name | .localSet name | .localTee name | .call name | .br name | .brIf name => ['$' :: name]
  | .block label results | .loop label results | .if_ label results => controlWords label results
  | .brTable targets default => (targets ++ [default]).map ('$' :: ·)
  | .load _ offset align | .store _ offset align =>
      ["offset=".toList ++ decimal offset.toNat, "align=".toList ++ decimal (alignBytes align)]
  | .lane _ n => [decimal n.toNat]
  | .shuffle lanes => lanes.toList.map fun lane ↦ decimal lane.toNat
  | _ => []

end FinalInstructionKind

theorem spaced_map {α : Type} (f : α → List Char) (l : List α) :
    spaced (l.map f) = l.flatMap fun a ↦ ' ' :: f a :=
  List.flatMap_map ..

theorem spaced_closeLast {words : List (List Char)} (h : words ≠ []) :
    spaced (closeLast words) = spaced words ++ [')'] := by
  induction words with
  | nil => exact absurd rfl h
  | cons word words ih =>
      cases words with
      | nil => simp [closeLast]
      | cons next words => simp [closeLast, ih (List.cons_ne_nil _ _)]

theorem writeControl_eq (kind : String) (label : Option (List Char))
    (results : List WasmValueType) :
    writeControl kind label results = kind.toList ++ spaced (controlWords label results) := by
  have hlabel : label.elim [] (fun label ↦ ' ' :: '$' :: label) =
      spaced (label.toList.map ('$' :: ·)) := by
    cases label <;> simp
  have hresults : (if results = [] then []
      else ' ' :: "(result".toList ++ writeTypes results ++ [')']) =
      spaced (resultWords results) := by
    rw [resultWords]
    split
    · rfl
    · rename_i hne
      rw [spaced_cons, spaced_closeLast (by simpa [typeWords] using hne), typeWords, spaced_map,
        writeTypes]
      simp
  rw [writeControl, hlabel, hresults, controlWords, spaced_append, List.append_assoc]

theorem writeInstruction_eq (floats : FloatText) (kind : FinalInstructionKind) :
    writeInstruction floats kind = kind.name.toList ++ spaced (kind.operands floats) := by
  cases kind <;> unfold writeInstruction FinalInstructionKind.name FinalInstructionKind.operands
  case block label results => exact writeControl_eq _ label results
  case loop label results => exact writeControl_eq _ label results
  case if_ label results => exact writeControl_eq _ label results
  case v128Const bytes =>
    have hstart : "v128.const i8x16".toList = "v128.const".toList ++ ' ' :: "i8x16".toList := by
      decide
    simp only [spaced_cons, spaced_map, hstart, List.append_assoc, List.cons_append]
  case brTable targets default =>
    simp only [spaced_map, List.flatMap_append, List.flatMap_singleton, List.append_assoc]
  case shuffle lanes => simp only [spaced_map]
  all_goals
    simp only [spaced_cons, spaced_nil, List.append_nil, List.append_assoc, List.cons_append]

theorem name_mem (kind : FinalInstructionKind) : kind.name ∈ instructionNames := by
  have hkeyword : ∀ name ∈ instructionKeywords, name ∈ instructionNames := fun name h ↦
    List.mem_append_left _ (List.mem_append_left _ (List.mem_append_left _ h))
  have hmemory : ∀ opcode : MemoryOpcode, opcode.wat ∈ instructionNames := fun opcode ↦
    List.mem_append_left _ (List.mem_append_right _ opcode.wat_mem)
  cases kind with
  | simple opcode => exact List.mem_append_right _ opcode.wat_mem
  | load opcode => exact hmemory opcode
  | store opcode => exact hmemory opcode
  | lane opcode =>
      exact List.mem_append_left _ (List.mem_append_left _ (List.mem_append_right _ opcode.wat_mem))
  | _ => exact hkeyword _ (by simp [FinalInstructionKind.name, instructionKeywords])

/-! ## The words are words -/

theorem isWord_closeLast {words : List (List Char)} (h : ∀ w ∈ words, IsWord w) :
    ∀ w ∈ closeLast words, IsWord w := by
  induction words with
  | nil => exact h
  | cons word words ih =>
      cases words with
      | nil =>
          intro w hw
          rw [closeLast, List.mem_singleton] at hw
          subst hw
          exact (h word List.mem_cons_self).append (isWord_of_all (by decide))
      | cons next words =>
          intro w hw
          rcases List.mem_cons.mp hw with rfl | hw
          · exact h w List.mem_cons_self
          · exact ih (fun v hv ↦ h v (List.mem_cons_of_mem _ hv)) w hw

theorem isWord_resultWords (results : List WasmValueType) :
    ∀ w ∈ resultWords results, IsWord w := by
  intro w hw
  rw [resultWords] at hw
  split at hw
  · cases hw
  · rcases List.mem_cons.mp hw with rfl | hw
    · exact isWord_of_all (by decide)
    · refine isWord_closeLast (fun v hv ↦ ?_) w hw
      obtain ⟨ty, -, rfl⟩ := List.mem_map.mp hv
      exact isWord_valueType ty

theorem isWord_controlWords {label : Option (List Char)} (results : List WasmValueType)
    (h : ∀ name ∈ label, validIdentifier name = true) :
    ∀ w ∈ controlWords label results, IsWord w := by
  intro w hw
  rcases List.mem_append.mp hw with hw | hw
  · obtain ⟨name, hname, rfl⟩ := List.mem_map.mp hw
    exact isWord_label (h name (Option.mem_toList.mp hname))
  · exact isWord_resultWords results w hw

theorem isWord_operands {floats : FloatText} (hfloats : floats.Inverse)
    {kind : FinalInstructionKind} (h : kind.WellFormed) :
    ∀ w ∈ kind.operands floats, IsWord w := by
  have hlabel : ∀ name, validIdentifier name = true → ∀ w ∈ ['$' :: name], IsWord w := by
    intro name hname w hw
    rw [List.mem_singleton.mp hw]
    exact isWord_label hname
  have hmemory : ∀ offset align : Nat,
      ∀ w ∈ ["offset=".toList ++ decimal offset, "align=".toList ++ decimal align], IsWord w := by
    intro offset align w hw
    rcases List.mem_cons.mp hw with rfl | hw
    · exact IsWord.append (isWord_of_all (by decide)) (isWord_decimal offset)
    · rw [List.mem_singleton.mp hw]
      exact IsWord.append (isWord_of_all (by decide)) (isWord_decimal align)
  cases kind with
  | i32Const value =>
      intro w hw
      rw [List.mem_singleton.mp hw]
      exact isWord_signedDecimal _
  | i64Const value =>
      intro w hw
      rw [List.mem_singleton.mp hw]
      exact isWord_signedDecimal _
  | f64Const bits =>
      intro w hw
      rw [List.mem_singleton.mp hw]
      exact isWord_formatF64 hfloats bits
  | v128Const bytes =>
      intro w hw
      rcases List.mem_cons.mp hw with rfl | hw
      · exact isWord_of_all (by decide)
      · obtain ⟨byte, -, rfl⟩ := List.mem_map.mp hw
        exact isWord_signedDecimal _
  | localGet name => exact hlabel name h
  | localSet name => exact hlabel name h
  | localTee name => exact hlabel name h
  | call name => exact hlabel name h
  | br name => exact hlabel name h
  | brIf name => exact hlabel name h
  | block label results => exact isWord_controlWords results h
  | loop label results => exact isWord_controlWords results h
  | if_ label results => exact isWord_controlWords results h
  | brTable targets default =>
      intro w hw
      obtain ⟨name, hname, rfl⟩ := List.mem_map.mp hw
      rcases List.mem_append.mp hname with hname | hname
      · exact isWord_label (h.1 name hname)
      · rw [List.mem_singleton.mp hname]
        exact isWord_label h.2
  | load opcode offset align => exact hmemory _ _
  | store opcode offset align => exact hmemory _ _
  | lane opcode n =>
      intro w hw
      rw [List.mem_singleton.mp hw]
      exact isWord_decimal _
  | shuffle lanes =>
      intro w hw
      obtain ⟨lane, -, rfl⟩ := List.mem_map.mp hw
      exact isWord_decimal _
  | _ =>
      intro w hw
      cases hw

/-! ## Reading an instruction -/

theorem parseLabel_label (line : List Char) {name : List Char}
    (h : validIdentifier name = true) : parseLabel line ('$' :: name) = .ok name := by
  have hstrip : stripPrefix ['$'] ('$' :: name) = some name := stripPrefix_append ['$'] name
  rw [parseLabel, hstrip, Option.filter_some, if_pos h]
  rfl

theorem parseLabels_map (line : List Char) {names : List (List Char)}
    (h : ∀ name ∈ names, validIdentifier name = true) :
    (names.map ('$' :: ·)).mapM (parseLabel line) = .ok names := by
  induction names with
  | nil => rfl
  | cons name names ih =>
      rw [List.map_cons, List.mapM_cons, parseLabel_label line (h name List.mem_cons_self),
        ih fun n hn ↦ h n (List.mem_cons_of_mem _ hn)]
      rfl

/-- Only the keywords are read before the tables. -/
theorem parseKind_opcode (floats : FloatText) (line : List Char) {opcode : String}
    (rest : List (List Char)) (h : opcode ∉ instructionKeywords) :
    parseKind floats line opcode rest = parseOpcode line opcode rest := by
  unfold parseKind
  split
  case h_22 => rfl
  all_goals exact absurd (by simp [instructionKeywords]) h

theorem parseMemoryInstruction_operands (line : List Char) (opcode : MemoryOpcode) (isStore : Bool)
    (offset : UInt64) {align : Nat} (h : align < 32) :
    parseMemoryInstruction line opcode isStore
        ["offset=".toList ++ decimal offset.toNat, "align=".toList ++ decimal (alignBytes align)] =
      .ok (if isStore then .store opcode offset align else .load opcode offset align) := by
  have hpow : 2 ^ align < 2 ^ 32 := Nat.pow_lt_pow_right (by decide) h
  have hnone : stripPrefix "offset=".toList ("align=".toList ++ decimal (alignBytes align)) = none :=
    rfl
  have hoffset : parseImmediate line (none, none) ("offset=".toList ++ decimal offset.toNat) =
      .ok (some offset.toNat, none) := by
    simp only [parseImmediate, stripPrefix_append, parseU64_decimal offset.toNat_lt]
    rfl
  have halign : parseImmediate line (some offset.toNat, none)
      ("align=".toList ++ decimal (alignBytes align)) = .ok (some offset.toNat, some align) := by
    rw [alignBytes, if_pos h] at hnone ⊢
    simp only [parseImmediate, hnone, stripPrefix_append, parseU32_decimal hpow]
    show (if 2 ^ align = 2 ^ (2 ^ align).log2 then _ else _) = _
    rw [Nat.log2_two_pow, if_pos rfl]
    rfl
  rw [parseMemoryInstruction, List.foldlM_cons, hoffset]
  show ((parseImmediate line _ _ >>= fun s ↦ pure s) >>= _) = _
  rw [halign]
  have hround : UInt64.ofNat offset.toNat = offset := UInt64.ofNat_toNat
  show (if isStore = true then Except.ok (FinalInstructionKind.store opcode _ align)
    else .ok (.load opcode _ align)) = _
  rw [hround]
  split <;> rfl

theorem parseShuffle_lanes (line : List Char) (lanes : Vector UInt8 16)
    (h : ∀ lane ∈ lanes.toList, lane.toNat < 32) :
    parseShuffle line (lanes.toList.map fun lane ↦ decimal lane.toNat) = .ok (.shuffle lanes) := by
  have hlanes : (lanes.toList.map fun lane ↦ decimal lane.toNat).mapM parseShuffleLane =
      some lanes.toList := by
    generalize lanes.toList = l at h
    induction l with
    | nil => rfl
    | cons lane l ih =>
        have hlane : parseShuffleLane (decimal lane.toNat) = some lane := by
          have hsmall := h lane List.mem_cons_self
          rw [parseShuffleLane, decimal,
            parseUnsigned_toDigits (by decide) (by decide) (Nat.lt_trans hsmall (by decide)),
            Option.filter_some, if_pos (by simpa using hsmall), Option.map_some, UInt8.ofNat_toNat]
        rw [List.map_cons, List.mapM_cons, hlane, ih fun n hn ↦ h n (List.mem_cons_of_mem _ hn)]
        rfl
  rw [parseShuffle, hlanes]
  show (if h : lanes.toList.length = 16 then _ else _) = _
  rw [dif_pos (by simp)]
  exact congrArg (fun v ↦ Except.ok (FinalInstructionKind.shuffle v))
    (Vector.toArray_inj.mp (Array.toArray_toList))

theorem parseV128Const_bytes (floats : FloatText) {bytes : List UInt8} (h : bytes.length = 16) :
    parseV128Const floats
        ("i8x16".toList :: bytes.map fun byte ↦ signedDecimal byte.toBitVec.toInt) =
      some bytes := by
  have hlanes : (bytes.map fun byte ↦ signedDecimal byte.toBitVec.toInt).mapM
      (parseLane floats "i8x16" 1) = some (bytes.map ([·])) := by
    clear h
    induction bytes with
    | nil => rfl
    | cons byte bytes ih =>
        have hbyte : parseLane floats "i8x16" 1 (signedDecimal byte.toBitVec.toInt) =
            some [byte] := by
          have hbits := parseIntegerBits_signed (by decide) (by decide) byte.toBitVec
          rw [parseLane, if_neg (by decide), if_neg (by decide), hbits, Option.map_some]
          simp [littleEndian, bigEndian]
        rw [List.map_cons, List.mapM_cons, hbyte, ih]
        rfl
  rw [parseV128Const]
  simp only [String.ofList_toList]
  show (if (bytes.map fun byte ↦ signedDecimal byte.toBitVec.toInt).length ≠ 16 / 1 then none
    else List.flatten <$> _) = _
  rw [if_neg (by simp [h]), hlanes]
  have hflat : (bytes.map ([·])).flatten = bytes := by
    rw [← List.flatMap_def, List.flatMap_singleton']
  exact congrArg some hflat

/-! ## Block headers -/

theorem trimBrackets_of_head {text : List Char} (n : Nat) (h : text.getLast? ≠ some ')') :
    ((text ++ List.replicate n ')').reverse.dropWhile (· == ')')).reverse = text := by
  rw [List.reverse_append, List.reverse_replicate, List.dropWhile_append_of_pos (by
    intro c hc
    rw [List.eq_of_mem_replicate hc]
    rfl)]
  cases hreverse : text.reverse with
  | nil => simpa using hreverse.symm
  | cons c rest =>
      have hlast : text.getLast? = some c := by
        rw [← List.head?_reverse, hreverse]
        rfl
      have hne : c ≠ ')' := fun heq ↦ h (heq ▸ hlast)
      rw [List.dropWhile_cons_of_neg (by simpa using hne), ← hreverse, List.reverse_reverse]

theorem valueType_head (ty : WasmValueType) :
    ty.wat.toList.head? ≠ some '$' ∧ ty.wat.toList.head? ≠ some '(' ∧
      ty.wat.toList.getLast? ≠ some ')' := by
  cases ty <;> decide

theorem parsePiece_type (line : List Char) (label : Option (List Char))
    (results : List WasmValueType) (ty : WasmValueType) (n : Nat) :
    parsePiece line (label, results) (ty.wat.toList ++ List.replicate n ')') =
      .ok (label, results ++ [ty]) := by
  obtain ⟨hlabel, hresult, hlast⟩ := valueType_head ty
  have hne := (isWord_valueType ty).1
  have hhead : (ty.wat.toList ++ List.replicate n ')').head? = ty.wat.toList.head? := by
    rw [List.head?_append_of_ne_nil _ hne]
  have hword : ty.wat.toList ++ List.replicate n ')' ≠ "(result".toList := by
    intro heq
    rw [heq] at hhead
    exact hresult (hhead.symm.trans (by decide))
  simp only [parsePiece, stripPrefix_eq_none (hhead ▸ hlabel)]
  rw [if_neg hword, trimBrackets_of_head n hlast, parseValueType_wat]

theorem parsePieces_types (line : List Char) (label : Option (List Char))
    (results : List WasmValueType) (types : List WasmValueType) :
    (closeLast (typeWords types)).foldlM (parsePiece line) (label, results) =
      .ok (label, results ++ types) := by
  induction types generalizing results with
  | nil => simp [typeWords, closeLast]; rfl
  | cons ty types ih =>
      cases types with
      | nil =>
          have hlast := parsePiece_type line label results ty 1
          rw [typeWords, List.map_singleton, closeLast, List.foldlM_cons]
          rw [List.replicate_one] at hlast
          rw [hlast]
          rfl
      | cons next types =>
          have hfirst := parsePiece_type line label results ty 0
          rw [List.replicate_zero, List.append_nil] at hfirst
          have hrest := ih (results ++ [ty])
          have hwords : closeLast (typeWords (ty :: next :: types)) =
              ty.wat.toList :: closeLast (typeWords (next :: types)) := rfl
          rw [List.append_assoc] at hrest
          rw [hwords, List.foldlM_cons, hfirst]
          exact hrest

theorem parsePieces_control (line : List Char) {label : Option (List Char)}
    (results : List WasmValueType) (h : ∀ name ∈ label, validIdentifier name = true) :
    (controlWords label results).foldlM (parsePiece line) (none, []) = .ok (label, results) := by
  have hlabel : (label.toList.map ('$' :: ·)).foldlM (parsePiece line) (none, []) =
      .ok (label, []) := by
    cases label with
    | none => rfl
    | some name =>
        have hstrip : stripPrefix ['$'] ('$' :: name) = some name := stripPrefix_append ['$'] name
        have hpiece : parsePiece line (none, []) ('$' :: name) = .ok (some name, []) := by
          simp only [parsePiece, hstrip, h name rfl, Option.isSome_none, Bool.not_true,
            Bool.or_self, Bool.false_eq_true, if_false]
        rw [Option.toList_some, List.map_singleton, List.foldlM_cons, hpiece]
        rfl
  have hresults : (resultWords results).foldlM (parsePiece line) (label, []) =
      .ok (label, results) := by
    rw [resultWords]
    split
    · rename_i hnil
      rw [hnil]
      rfl
    · have hstrip : stripPrefix ['$'] "(result".toList = none := by decide
      have hpiece : parsePiece line (label, []) "(result".toList = .ok (label, []) := by
        simp only [parsePiece, hstrip, if_true]
      have htypes := parsePieces_types line label [] results
      rw [List.foldlM_cons, hpiece]
      exact htypes
  rw [controlWords, List.foldlM_append, hlabel]
  exact hresults

theorem parseControlHeader_control {kind : String} {label : Option (List Char)}
    (results : List WasmValueType) (hkind : kind ∈ instructionNames)
    (h : ∀ name ∈ label, validIdentifier name = true) :
    parseControlHeader (writeControl kind label results) = .ok (label, results) := by
  have hsplit : splitWhitespace (writeControl kind label results) =
      kind.toList :: controlWords label results := by
    rw [writeControl_eq]
    exact splitWhitespace_spaced (isWord_name hkind) (isWord_controlWords results h)
  have hbrackets : ((splitOnce "(result".toList (writeControl kind label results)).isSome &&
      (stripSuffix [')'] (writeControl kind label results)).isNone) = false := by
    by_cases hresults : results = []
    · have hnone : splitOnce "(result".toList (writeControl kind label results) = none := by
        refine splitOnce_eq_none (c := '(') fun hmem ↦ ?_
        rw [writeControl, if_pos hresults, List.append_nil] at hmem
        rcases List.mem_append.mp hmem with hmem | hmem
        · have hbounds := name_bounds hkind hmem
          exact absurd hbounds.1 (by decide)
        · cases label with
          | none => cases hmem
          | some name =>
              rcases List.mem_cons.mp hmem with heq | hmem
              · exact absurd heq (by decide)
              rcases List.mem_cons.mp hmem with heq | hmem
              · exact absurd heq (by decide)
              · have hbounds := identifier_bounds (h name rfl) hmem
                exact absurd hbounds.1 (by decide)
      rw [hnone]
      rfl
    · rw [writeControl, if_neg hresults, ← List.append_assoc, stripSuffix_append]
      exact Bool.and_false _
  rw [parseControlHeader, hsplit, List.tail_cons, parsePieces_control _ results h]
  show (if _ then _ else _) = _
  rw [hbrackets]
  rfl

/-- A printed instruction is read as it was. -/
theorem parseKind_write {floats : FloatText} (hfloats : floats.Inverse)
    {kind : FinalInstructionKind} (h : kind.WellFormed) :
    parseKind floats (writeInstruction floats kind) kind.name (kind.operands floats) = .ok kind := by
  generalize hline : writeInstruction floats kind = line
  have hmem := name_mem kind
  cases kind with
  | block label results =>
      have hheader : parseControlHeader line = .ok (label, results) :=
        hline ▸ parseControlHeader_control results hmem h
      show _ <$> parseControlHeader line = _
      rw [hheader]
      rfl
  | loop label results =>
      have hheader : parseControlHeader line = .ok (label, results) :=
        hline ▸ parseControlHeader_control results hmem h
      show _ <$> parseControlHeader line = _
      rw [hheader]
      rfl
  | if_ label results =>
      have hheader : parseControlHeader line = .ok (label, results) :=
        hline ▸ parseControlHeader_control results hmem h
      show _ <$> parseControlHeader line = _
      rw [hheader]
      rfl
  | simple opcode =>
      show parseKind floats line opcode.wat [] = _
      rw [parseKind_opcode floats line [] opcode.wat_notMem]
      simp only [parseOpcode, opcode.lane_parse, opcode.memory_parse, opcode.parse_wat, if_true]
  | lane opcode n =>
      show parseKind floats line opcode.wat [decimal n.toNat] = _
      have hvalue : parseUnsigned 10 256 (decimal n.toNat) = some n.toNat :=
        parseUnsigned_toDigits (by decide) (by decide) n.toNat_lt
      rw [parseKind_opcode floats line _ opcode.wat_notMem]
      simp only [parseOpcode, opcode.parse_wat, hvalue]
      exact congrArg (fun v ↦ Except.ok (FinalInstructionKind.lane opcode v)) UInt8.ofNat_toNat
  | load opcode offset align =>
      show parseKind floats line opcode.wat _ = _
      rw [parseKind_opcode floats line _ opcode.wat_notMem]
      simp only [parseOpcode, opcode.lane_parse, opcode.parse_wat]
      rw [h.1]
      exact parseMemoryInstruction_operands line opcode false offset h.2
  | store opcode offset align =>
      show parseKind floats line opcode.wat _ = _
      rw [parseKind_opcode floats line _ opcode.wat_notMem]
      simp only [parseOpcode, opcode.lane_parse, opcode.parse_wat]
      rw [h.1]
      exact parseMemoryInstruction_operands line opcode true offset h.2
  | i32Const value =>
      show FinalInstructionKind.i32Const <$> orUnsupported line (parseI32 _) = _
      rw [parseI32_signed]
      rfl
  | i64Const value =>
      show FinalInstructionKind.i64Const <$> orUnsupported line (parseI64 _) = _
      rw [parseI64_signed]
      rfl
  | f64Const bits =>
      show FinalInstructionKind.f64Const <$> orUnsupported line (parseF64Bits floats _) = _
      rw [parseF64Bits_format hfloats]
      rfl
  | v128Const bytes =>
      have hbytes := parseV128Const_bytes floats h
      show FinalInstructionKind.v128Const <$> orUnsupported line
        (parseV128Const floats (_ :: bytes.map _)) = _
      rw [hbytes]
      rfl
  | localGet name =>
      show FinalInstructionKind.localGet <$> parseLabel line _ = _
      rw [parseLabel_label line h]
      rfl
  | localSet name =>
      show FinalInstructionKind.localSet <$> parseLabel line _ = _
      rw [parseLabel_label line h]
      rfl
  | localTee name =>
      show FinalInstructionKind.localTee <$> parseLabel line _ = _
      rw [parseLabel_label line h]
      rfl
  | call name =>
      show FinalInstructionKind.call <$> parseLabel line _ = _
      rw [parseLabel_label line h]
      rfl
  | br name =>
      show FinalInstructionKind.br <$> parseLabel line _ = _
      rw [parseLabel_label line h]
      rfl
  | brIf name =>
      show FinalInstructionKind.brIf <$> parseLabel line _ = _
      rw [parseLabel_label line h]
      rfl
  | brTable targets default =>
      have hlabels : ((targets ++ [default]).map ('$' :: ·)).mapM (parseLabel line) =
          .ok (targets ++ [default]) := by
        refine parseLabels_map line fun name hname ↦ ?_
        rcases List.mem_append.mp hname with hname | hname
        · exact h.1 name hname
        · exact List.mem_singleton.mp hname ▸ h.2
      show parseKind floats line "br_table" ((targets ++ [default]).map ('$' :: ·)) = _
      obtain ⟨first, more, hwords⟩ := List.exists_cons_of_ne_nil
        (show (targets ++ [default]).map ('$' :: ·) ≠ [] by simp)
      rw [hwords] at hlabels ⊢
      show (do
        let labels ← (first :: more).mapM (parseLabel line)
        let default ← orUnsupported line labels.getLast?
        return FinalInstructionKind.brTable labels.dropLast default) = _
      rw [hlabels]
      show (do
        let last ← orUnsupported line (targets ++ [default]).getLast?
        return FinalInstructionKind.brTable (targets ++ [default]).dropLast last) = _
      rw [List.getLast?_concat, List.dropLast_concat]
      rfl
  | shuffle lanes =>
      have hlength : (lanes.toList.map fun lane ↦ decimal lane.toNat).length = 16 := by simp
      show (if (lanes.toList.map fun lane ↦ decimal lane.toNat).length = 16 then
        parseShuffle line _ else _) = _
      rw [if_pos hlength]
      exact parseShuffle_lanes line lanes h
  | _ => rfl

theorem trimmed_write {floats : FloatText} (hfloats : floats.Inverse)
    {kind : FinalInstructionKind} (h : kind.WellFormed) :
    Trimmed (writeInstruction floats kind) := by
  rw [writeInstruction_eq]
  exact trimmed_spaced (isWord_name (name_mem kind)) (isWord_operands hfloats h)

theorem writeInstruction_head (floats : FloatText) (kind : FinalInstructionKind) :
    ∃ c ∈ (writeInstruction floats kind).head?, 46 ≤ c.toNat := by
  have hword := isWord_name (name_mem kind)
  obtain ⟨c, rest, hname⟩ := List.exists_cons_of_ne_nil hword.1
  have hbounds := name_bounds (name_mem kind) (hname ▸ List.mem_cons_self : c ∈ kind.name.toList)
  refine ⟨c, ?_, hbounds.1⟩
  rw [writeInstruction_eq, hname]
  rfl

theorem parseInstruction_line {floats : FloatText} (hfloats : floats.Inverse)
    {instruction : FinalInstruction} (h : instruction.kind.WellFormed) :
    parseInstruction floats (instructionLine floats instruction) = .ok instruction := by
  obtain ⟨indent, kind⟩ := instruction
  have htrim : trim (instructionLine floats ⟨indent, kind⟩) = writeInstruction floats kind :=
    trim_spaces indent (trimmed_write hfloats h)
  have hsplit : splitWhitespace (writeInstruction floats kind) =
      kind.name.toList :: kind.operands floats := by
    rw [writeInstruction_eq]
    exact splitWhitespace_spaced (isWord_name (name_mem kind)) (isWord_operands hfloats h)
  have hindent : ((instructionLine floats ⟨indent, kind⟩).takeWhile (· == ' ')).length =
      indent := by
    obtain ⟨c, hc, hbound⟩ := writeInstruction_head floats kind
    have hspace : ((c == ' ') = true) = False := by
      simp only [beq_iff_eq, eq_iff_iff, iff_false]
      rintro rfl
      exact absurd hbound (by decide)
    cases hwrite : writeInstruction floats kind with
    | nil => rw [hwrite] at hc; cases hc
    | cons d rest =>
        rw [hwrite] at hc
        cases hc
        rw [instructionLine, hwrite, List.takeWhile_append_of_pos (by
          intro e he
          rw [List.eq_of_mem_replicate he]
          rfl), List.takeWhile_cons, if_neg (by rw [hspace]; exact not_false)]
        simp
  rw [parseInstruction]
  simp only [htrim, hsplit, String.ofList_toList, parseKind_write hfloats h, hindent]
  rfl

end CalcKernel
