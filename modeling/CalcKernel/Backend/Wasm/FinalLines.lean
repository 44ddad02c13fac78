import CalcKernel.Backend.Wasm.FinalInstructions

/-!
# Lines of the final text

Every line of a printed function or module is read as the declaration or the instruction it was
printed from.
-/

namespace CalcKernel

open Lib

/-- A function as the parser builds it. -/
structure FinalWasmFunction.WellFormed (f : FinalWasmFunction) : Prop where
  name : validIdentifier f.name = true
  exportName : ∀ exportName ∈ f.exportName, '"' ∉ exportName ∧ '\n' ∉ exportName
  params : ∀ param ∈ f.params, validIdentifier param.name = true
  locals : ∀ l ∈ f.locals, validIdentifier l.name = true
  body : ∀ instruction ∈ f.body, instruction.kind.WellFormed

/-! ## Lines in brackets -/

/-- A kind and what it declares, in brackets. -/
def declaration (kind : String) (inner : List Char) : List Char :=
  '(' :: (kind.toList ++ ' ' :: (inner ++ [')']))

theorem trimmed_declaration (kind : String) (inner : List Char) :
    Trimmed (declaration kind inner) := by
  have hend : declaration kind inner = '(' :: (kind.toList ++ ' ' :: inner) ++ [')'] := by
    simp only [declaration, List.cons_append, List.append_assoc]
  refine ⟨⟨'(', rfl, rfl⟩, ⟨')', ?_, rfl⟩⟩
  rw [hend, List.getLast?_concat]
  rfl

theorem trim_declaration (n : Nat) (kind : String) (inner : List Char) :
    trim (List.replicate n ' ' ++ declaration kind inner) = declaration kind inner :=
  trim_spaces n (trimmed_declaration kind inner)

theorem declaration_ne_nil (kind : String) (inner : List Char) : declaration kind inner ≠ [] :=
  List.cons_ne_nil _ _

theorem declaration_ne_close (kind : String) (inner : List Char) :
    declaration kind inner ≠ [')'] := by
  intro h
  have hhead : '(' = ')' := (List.cons.inj h).1
  exact absurd hhead (by decide)

theorem declared_self (kind : String) (inner : List Char) :
    FinalWasmText.declared kind (declaration kind inner) = some inner := by
  have hstrip : stripPrefix ('(' :: kind.toList ++ [' ']) (declaration kind inner) =
      some (inner ++ [')']) := by
    rw [stripPrefix_eq_some]
    simp only [declaration, List.cons_append, List.append_assoc, List.nil_append]
  rw [FinalWasmText.declared, hstrip, Option.bind_some, stripSuffix_append]

theorem declared_of_head (kind : String) {text : List Char} (h : text.head? ≠ some '(') :
    FinalWasmText.declared kind text = none := by
  rw [FinalWasmText.declared, List.cons_append, stripPrefix_eq_none h]
  rfl

theorem declared_of_kind {kind other : String} (inner : List Char)
    (h : (kind.toList ++ [' ']).head? ≠ (other.toList ++ [' ']).head?) :
    FinalWasmText.declared kind (declaration other inner) = none := by
  obtain ⟨c, rest, hkind⟩ := List.exists_cons_of_ne_nil
    (List.append_ne_nil_of_right_ne_nil kind.toList (List.cons_ne_nil ' ' []))
  have hhead : (other.toList ++ ' ' :: (inner ++ [')'])).head? = (other.toList ++ [' ']).head? := by
    cases other.toList <;> rfl
  have hstrip : stripPrefix (c :: rest) (other.toList ++ ' ' :: (inner ++ [')'])) = none := by
    refine stripPrefix_eq_none ?_
    rw [hhead]
    rw [hkind] at h
    exact h.symm
  rw [FinalWasmText.declared, List.cons_append, hkind, declaration, stripPrefix, if_pos rfl, hstrip]
  rfl

section Lines

variable {floats : FloatText} {m : FinalWasmModule} {g : FinalWasmFunction}

theorem parseLine_blank (s : FinalWasmText) : s.parseLine floats [] = .ok s := rfl

/-- A line in a function. -/
theorem parseLine_function {raw text : List Char} (htrim : trim raw = text) (hne : text ≠ []) :
    FinalWasmText.parseLine floats ⟨m, some g, true, false⟩ raw =
      FinalWasmText.parseFunctionLine floats ⟨m, some g, true, false⟩ g raw := by
  simp only [FinalWasmText.parseLine, htrim, hne, Bool.false_eq_true, Bool.not_true, if_false]

/-- A line between the functions. -/
theorem parseLine_module {raw text : List Char} (htrim : trim raw = text) (hne : text ≠ []) :
    FinalWasmText.parseLine floats ⟨m, none, true, false⟩ raw =
      FinalWasmText.parseModuleLine ⟨m, none, true, false⟩ text := by
  simp only [FinalWasmText.parseLine, htrim, hne, Bool.false_eq_true, Bool.not_true, if_false]

/-! ## Declarations of a function -/

theorem parseLocal_text {l : FinalLocal} (kind : String) (h : validIdentifier l.name = true) :
    parseLocal ('$' :: l.name ++ ' ' :: l.ty.wat.toList) kind = .ok l := by
  have htext : '$' :: l.name ++ ' ' :: l.ty.wat.toList =
      ('$' :: l.name) ++ spaced [l.ty.wat.toList] := by
    rw [spaced_cons, spaced_nil, List.append_nil]
  have hsplit : splitWhitespace ('$' :: l.name ++ ' ' :: l.ty.wat.toList) =
      ['$' :: l.name, l.ty.wat.toList] := by
    rw [htext]
    refine splitWhitespace_spaced (isWord_label h) fun w hw ↦ ?_
    rw [List.mem_singleton.mp hw]
    exact isWord_valueType l.ty
  have hstrip : (stripPrefix ['$'] ('$' :: l.name)).filter validIdentifier = some l.name := by
    rw [show stripPrefix ['$'] ('$' :: l.name) = some l.name from stripPrefix_append ['$'] l.name,
      Option.filter_some, if_pos h]
  simp only [parseLocal, hsplit, hstrip, parseValueType_wat, if_true]

theorem namedType_wat (ty : WasmValueType) : namedType ty.wat.toList = .ok ty := by
  rw [namedType, parseValueType_wat]

theorem namedTypes_words (types : List WasmValueType) :
    (typeWords types).mapM namedType = .ok types := by
  induction types with
  | nil => rfl
  | cons ty types ih =>
      rw [typeWords] at ih
      rw [typeWords, List.map_cons, List.mapM_cons, namedType_wat, ih]
      rfl

theorem parseTypes_types (ty : WasmValueType) (types : List WasmValueType) :
    parseTypes (ty.wat.toList ++ spaced (typeWords types)) = .ok (ty :: types) := by
  have hword : ∀ w ∈ typeWords types, IsWord w := by
    intro w hw
    obtain ⟨t, -, rfl⟩ := List.mem_map.mp hw
    exact isWord_valueType t
  rw [parseTypes, splitWhitespace_spaced (isWord_valueType ty) hword]
  exact namedTypes_words (ty :: types)

theorem localLine_eq (kind : String) (l : FinalLocal) : localLine kind l =
    List.replicate 4 ' ' ++ declaration kind ('$' :: l.name ++ ' ' :: l.ty.wat.toList) := by
  simp only [localLine, declaration, List.cons_append, List.append_assoc]

theorem resultLine_eq (ty : WasmValueType) (types : List WasmValueType) :
    resultLine (ty :: types) = List.replicate 4 ' ' ++
      declaration "result" (ty.wat.toList ++ spaced (typeWords types)) := by
  have htypes : writeTypes (ty :: types) = ' ' :: (ty.wat.toList ++ spaced (typeWords types)) := by
    rw [typeWords, spaced_map]
    rfl
  simp only [resultLine, htypes, declaration, List.cons_append, List.append_assoc]

theorem parseLine_param {l : FinalLocal} (h : validIdentifier l.name = true) :
    FinalWasmText.parseLine floats ⟨m, some g, true, false⟩ (localLine "param" l) =
      .ok ⟨m, some { g with params := g.params ++ [l] }, true, false⟩ := by
  rw [localLine_eq]
  generalize hinner : '$' :: l.name ++ ' ' :: l.ty.wat.toList = inner
  have htrim := trim_declaration 4 "param" inner
  rw [parseLine_function htrim (declaration_ne_nil _ _), FinalWasmText.parseFunctionLine]
  simp only [htrim, declaration_ne_close, if_false, declared_self]
  rw [← hinner, parseLocal_text "param" h]
  rfl

theorem parseLine_local {l : FinalLocal} (h : validIdentifier l.name = true) :
    FinalWasmText.parseLine floats ⟨m, some g, true, false⟩ (localLine "local" l) =
      .ok ⟨m, some { g with locals := g.locals ++ [l] }, true, false⟩ := by
  rw [localLine_eq]
  generalize hinner : '$' :: l.name ++ ' ' :: l.ty.wat.toList = inner
  have htrim := trim_declaration 4 "local" inner
  have hparam : FinalWasmText.declared "param" (declaration "local" inner) = none :=
    declared_of_kind inner (by decide)
  rw [parseLine_function htrim (declaration_ne_nil _ _), FinalWasmText.parseFunctionLine]
  simp only [htrim, declaration_ne_close, if_false, hparam, declared_self]
  rw [← hinner, parseLocal_text "local" h]
  rfl

theorem parseLine_result (hresults : g.results = []) {results : List WasmValueType}
    (hne : results ≠ []) :
    FinalWasmText.parseLine floats ⟨m, some g, true, false⟩ (resultLine results) =
      .ok ⟨m, some { g with results }, true, false⟩ := by
  obtain ⟨ty, types, rfl⟩ := List.exists_cons_of_ne_nil hne
  rw [resultLine_eq]
  generalize hinner : ty.wat.toList ++ spaced (typeWords types) = inner
  have htrim := trim_declaration 4 "result" inner
  have hparam : FinalWasmText.declared "param" (declaration "result" inner) = none :=
    declared_of_kind inner (by decide)
  have hlocal : FinalWasmText.declared "local" (declaration "result" inner) = none :=
    declared_of_kind inner (by decide)
  rw [parseLine_function htrim (declaration_ne_nil _ _), FinalWasmText.parseFunctionLine]
  simp only [htrim, declaration_ne_close, if_false, hparam, hlocal, declared_self, hresults,
    ne_eq, not_true_eq_false]
  rw [← hinner, parseTypes_types]
  rfl

theorem parseLine_instruction (hfloats : floats.Inverse) {instruction : FinalInstruction}
    (h : instruction.kind.WellFormed) :
    FinalWasmText.parseLine floats ⟨m, some g, true, false⟩
        (instructionLine floats instruction) =
      .ok ⟨m, some { g with body := g.body ++ [instruction] }, true, false⟩ := by
  have htrimmed := trimmed_write hfloats h
  have htrim : trim (instructionLine floats instruction) =
      writeInstruction floats instruction.kind := trim_spaces instruction.indent htrimmed
  obtain ⟨c, hc, hbound⟩ := writeInstruction_head floats instruction.kind
  have hhead : ∀ d : Char, d.toNat < 46 →
      (writeInstruction floats instruction.kind).head? ≠ some d := by
    rintro d hd heq
    rw [heq] at hc
    cases hc
    omega
  have hclose : writeInstruction floats instruction.kind ≠ [')'] := by
    intro heq
    exact hhead ')' (by decide) (heq ▸ rfl)
  have hdeclared : ∀ kind, FinalWasmText.declared kind
      (writeInstruction floats instruction.kind) = none := fun kind ↦
    declared_of_head kind (hhead '(' (by decide))
  rw [parseLine_function htrim htrimmed.ne_nil, FinalWasmText.parseFunctionLine]
  simp only [htrim, hclose, if_false, hdeclared, parseInstruction_line hfloats h]
  rfl

theorem parseLine_end : FinalWasmText.parseLine floats ⟨m, some g, true, false⟩
      (List.replicate 2 ' ' ++ [')']) =
    .ok ⟨{ m with functions := m.functions ++ [g] }, none, true, false⟩ := by
  have htrim : trim (List.replicate 2 ' ' ++ [')']) = [')'] := by decide
  rw [parseLine_function htrim (List.cons_ne_nil _ _), FinalWasmText.parseFunctionLine]
  simp only [htrim, if_true]

/-! ## Declarations of a module -/

theorem headerText_eq (f : FinalWasmFunction) : headerText f = "(func $".toList ++ (f.name ++
    f.exportName.elim [] fun exportName ↦
      " (export \"".toList ++ (exportName ++ "\")".toList)) := by
  unfold headerText
  simp only [List.append_assoc]

theorem trimmed_header {f : FinalWasmFunction} (h : f.WellFormed) : Trimmed (headerText f) := by
  have hstart : "(func $".toList = ['(', 'f', 'u', 'n', 'c', ' ', '$'] := by decide
  have hend : "\")".toList = ['"', ')'] := by decide
  rw [headerText_eq, hstart]
  refine ⟨⟨'(', rfl, rfl⟩, ?_⟩
  cases f.exportName with
  | none =>
      obtain ⟨c, hc, hblank⟩ := (isWord_label h.name).trimmed.2
      refine ⟨c, ?_, hblank⟩
      rw [Option.elim_none, List.append_nil]
      exact (List.getLast?_append_of_ne_nil ['(', 'f', 'u', 'n', 'c', ' ']
        (List.cons_ne_nil '$' f.name)).trans hc
  | some exportName =>
      refine ⟨')', ?_, rfl⟩
      rw [Option.elim_some, hend]
      have hlast : ∀ before : List Char, (before ++ ['"', ')']).getLast? = some ')' :=
        fun before ↦ List.getLast?_append_of_ne_nil before (List.cons_ne_nil _ _)
      rw [← List.append_assoc, ← List.append_assoc, ← List.append_assoc]
      exact hlast _

theorem parseHeaderNames_header {f : FinalWasmFunction} (h : f.WellFormed) (line : List Char) :
    parseHeaderNames line (f.name ++ f.exportName.elim [] fun exportName ↦
      " (export \"".toList ++ (exportName ++ "\")".toList)) = .ok (f.name, f.exportName) := by
  have hpattern : " (export \"".toList = ' ' :: "(export \"".toList := by decide
  have hspace : ' ' ∉ f.name := by
    intro hmem
    have hbounds := identifier_bounds h.name hmem
    exact absurd hbounds.1 (by decide)
  unfold parseHeaderNames
  cases f.exportName with
  | none => rw [Option.elim_none, List.append_nil, hpattern, splitOnce_eq_none hspace]
  | some exportName =>
      have hsplit : splitOnce " (export \"".toList
          (f.name ++ (" (export \"".toList ++ (exportName ++ "\")".toList))) =
          some (f.name, exportName ++ "\")".toList) := by
        rw [hpattern, ← List.append_assoc]
        exact splitOnce_append hspace
      rw [Option.elim_some, hsplit]
      dsimp only
      rw [stripSuffix_append]

theorem parseFunctionHeader_header {f : FinalWasmFunction} (h : f.WellFormed) :
    parseFunctionHeader (headerText f) = .ok ⟨f.name, f.exportName, [], [], [], []⟩ := by
  have hquote : f.exportName.any (·.contains '"') = false := by
    cases hexport : f.exportName with
    | none => rfl
    | some exportName => simpa using (h.exportName exportName hexport).1
  have hstrip : stripPrefix "(func $".toList (headerText f) = some _ :=
    headerText_eq f ▸ stripPrefix_append _ _
  rw [parseFunctionHeader, hstrip]
  show (parseHeaderNames (headerText f) _ >>= _) = _
  rw [parseHeaderNames_header h]
  show (if (!validIdentifier f.name || f.exportName.any (·.contains '"')) = true then _
    else _) = _
  rw [h.name, hquote]
  rfl

theorem parseLine_header {f : FinalWasmFunction} (h : f.WellFormed) :
    FinalWasmText.parseLine floats ⟨m, none, true, false⟩ (headerLine f) =
      .ok ⟨m, some ⟨f.name, f.exportName, [], [], [], []⟩, true, false⟩ := by
  have htrim : trim (headerLine f) = headerText f := trim_spaces 2 (trimmed_header h)
  have hfunc : (stripPrefix "(func $".toList (headerText f)).isSome = true := by
    rw [headerText_eq, stripPrefix_append]
    rfl
  have hclose : headerText f ≠ [')'] := by
    intro heq
    rw [heq] at hfunc
    exact absurd hfunc (by decide)
  rw [parseLine_module htrim (trimmed_header h).ne_nil, FinalWasmText.parseModuleLine,
    if_neg hclose, if_pos hfunc, parseFunctionHeader_header h]
  rfl

theorem trimmed_between {c d : Char} (text : List Char) (hc : isBlank c = false)
    (hd : isBlank d = false) : Trimmed (c :: (text ++ [d])) := by
  refine ⟨⟨c, rfl, hc⟩, ⟨d, ?_, hd⟩⟩
  rw [← List.cons_append, List.getLast?_concat]
  rfl

theorem parseLine_memory (memoryMinimum : UInt32) :
    FinalWasmText.parseLine floats ⟨m, none, true, false⟩ (memoryLine memoryMinimum) =
      .ok ⟨{ m with memoryMinimum }, none, true, false⟩ := by
  generalize hliteral : "(memory (export \"memory\") ".toList = literal
  have hstart : literal = '(' :: literal.tail := by
    subst hliteral
    decide
  have htext : memoryLine memoryMinimum = List.replicate 2 ' ' ++
      (literal ++ (decimal memoryMinimum.toNat ++ [')'])) := by
    unfold memoryLine
    rw [hliteral, List.append_assoc]
  have htrimmed : Trimmed (literal ++ (decimal memoryMinimum.toNat ++ [')'])) := by
    rw [hstart, List.cons_append, ← List.append_assoc]
    exact trimmed_between _ rfl rfl
  have hfunc : stripPrefix "(func $".toList
      (literal ++ (decimal memoryMinimum.toNat ++ [')'])) = none := by
    subst hliteral
    exact stripPrefix_append_eq_none 2 (by decide) (by decide) (by decide) _
  have hmemory : (stripPrefix "(memory ".toList
      (literal ++ (decimal memoryMinimum.toNat ++ [')']))).isSome = true := by
    have hliteral' : literal = "(memory ".toList ++ "(export \"memory\") ".toList := by
      subst hliteral
      decide
    rw [hliteral', List.append_assoc, stripPrefix_append]
    rfl
  have hclose : literal ++ (decimal memoryMinimum.toNat ++ [')']) ≠ [')'] := by
    rw [hstart]
    intro heq
    have hhead : '(' = ')' := (List.cons.inj heq).1
    exact absurd hhead (by decide)
  have hparse : parseMemory (literal ++ (decimal memoryMinimum.toNat ++ [')'])) =
      .ok memoryMinimum := by
    unfold parseMemory
    rw [hliteral, stripPrefix_append, Option.bind_some, stripSuffix_append]
    dsimp only
    rw [decimal, parseUnsigned_toDigits (by decide) (by decide) memoryMinimum.toNat_lt]
    exact congrArg Except.ok UInt32.ofNat_toNat
  rw [htext, parseLine_module (trim_spaces 2 htrimmed) htrimmed.ne_nil,
    FinalWasmText.parseModuleLine, if_neg hclose, hfunc, if_neg (by decide), if_pos hmemory, hparse]
  rfl

theorem parseLine_global : FinalWasmText.parseLine floats ⟨m, none, true, false⟩
    (List.replicate 2 ' ' ++ "(global (export \"__ck_heap_base\") i32 (i32.const 0))".toList) =
      .ok ⟨m, none, true, false⟩ := by
  generalize hliteral : "(global (export \"__ck_heap_base\") i32 (i32.const 0))".toList = literal
  have htrim : trim (List.replicate 2 ' ' ++ literal) = literal := by
    subst hliteral
    decide
  have hclose : literal ≠ [')'] ∧ literal ≠ [] := by
    subst hliteral
    exact ⟨by decide, by decide⟩
  have hfunc : (stripPrefix "(func $".toList literal).isSome = false := by
    subst hliteral
    decide
  have hmemory : (stripPrefix "(memory ".toList literal).isSome = false := by
    subst hliteral
    decide
  have hcustom : (stripPrefix "(@custom ".toList literal).isSome = false := by
    subst hliteral
    decide
  have hglobal : (stripPrefix "(global ".toList literal).isSome = true := by
    subst hliteral
    decide
  rw [parseLine_module htrim hclose.2]
  unfold FinalWasmText.parseModuleLine
  rw [if_neg hclose.1, hfunc, if_neg (by decide), hmemory, if_neg (by decide), hcustom,
    if_neg (by decide), if_pos hglobal, hliteral, if_pos rfl]

theorem parseLine_close : FinalWasmText.parseLine floats ⟨m, none, true, false⟩ [')'] =
    .ok ⟨m, none, true, true⟩ := rfl

/-! ## The metadata -/

/-- A byte stands for itself or is written as two digits behind a backslash. -/
theorem escapeByte_cases : ∀ n < 256, (UInt8.ofNat n ≠ 0x5c ∧
      utf8 (escapeByte (UInt8.ofNat n)) = [UInt8.ofNat n]) ∨
    (utf8 (escapeByte (UInt8.ofNat n)) = [0x5c, UInt8.ofNat (n / 16).digitChar.toNat,
        UInt8.ofNat (n % 16).digitChar.toNat] ∧
      parseUnsigned 16 256 [Char.ofNat (UInt8.ofNat (n / 16).digitChar.toNat).toNat,
        Char.ofNat (UInt8.ofNat (n % 16).digitChar.toNat).toNat] = some n) := by
  decide +kernel

theorem escapeByte_visible (b : UInt8) : ∀ c ∈ escapeByte b, 32 ≤ c.toNat ∧ c.toNat < 127 := by
  have hdigit : ∀ d < 16, 32 ≤ d.digitChar.toNat ∧ d.digitChar.toNat < 127 := by decide
  have hlt := b.toNat_lt
  intro c hc
  unfold escapeByte at hc
  split at hc
  · exact forall_of_all (p := fun c ↦ 32 ≤ c.toNat ∧ c.toNat < 127) (by decide) c hc
  split at hc
  · exact forall_of_all (p := fun c ↦ 32 ≤ c.toNat ∧ c.toNat < 127) (by decide) c hc
  split at hc
  · rename_i hrange
    rw [UInt8.le_iff_toNat_le, UInt8.le_iff_toNat_le] at hrange
    have hchar : ∀ n < 128, (Char.ofNat n).toNat = n := by decide +kernel
    have hhigh : b.toNat ≤ 126 := hrange.2
    rw [List.mem_singleton.mp hc, hchar _ (by omega)]
    exact ⟨hrange.1, Nat.lt_succ_of_le hrange.2⟩
  · simp only [List.mem_cons, List.not_mem_nil, or_false] at hc
    rcases hc with rfl | rfl | rfl
    · decide
    · exact hdigit _ (by omega)
    · exact hdigit _ (by omega)

theorem unescape_plain (line : List Char) {b : UInt8} (bytes : List UInt8) (h : b ≠ 0x5c) :
    unescape line (b :: bytes) = (b :: ·) <$> unescape line bytes := by
  rw [unescape.eq_def]
  exact if_pos h

theorem unescape_escape (line : List Char) (bytes : List UInt8) :
    unescape line (utf8 (bytes.flatMap escapeByte)) = .ok bytes := by
  induction bytes with
  | nil => rfl
  | cons b bytes ih =>
      rw [List.flatMap_cons, utf8_append]
      have hb : UInt8.ofNat b.toNat = b := UInt8.ofNat_toNat
      rcases escapeByte_cases b.toNat b.toNat_lt with ⟨hne, hself⟩ | ⟨hescape, hvalue⟩
      · rw [hb] at hne hself
        rw [hself, List.singleton_append, unescape_plain line _ hne, ih]
        rfl
      · rw [hb] at hescape
        rw [hescape, List.cons_append, List.cons_append, List.singleton_append, unescape,
          if_neg (by decide)]
        simp only [hvalue, ih, hb]
        rfl

theorem parseLine_metadata {metadata : List UInt8} (hnone : m.targetMetadata = none)
    (hutf8 : fromUtf8Lossy metadata = metadata) :
    FinalWasmText.parseLine floats ⟨m, none, true, false⟩ (metadataLine metadata) =
      .ok ⟨{ m with targetMetadata := some metadata }, none, true, false⟩ := by
  generalize hliteral : "(@custom \"ck.wasm.target\" \"".toList = literal
  generalize hending : "\")".toList = ending
  have hstart : literal = '(' :: literal.tail := by
    subst hliteral
    decide
  have hend : ending = ['"'] ++ [')'] := by
    subst hending
    decide
  generalize hescaped : metadata.flatMap escapeByte = escaped
  have htext : metadataLine metadata =
      List.replicate 2 ' ' ++ (literal ++ (escaped ++ ending)) := by
    unfold metadataLine
    rw [hliteral, hending, hutf8, hescaped, List.append_assoc]
  have htrimmed : Trimmed (literal ++ (escaped ++ ending)) := by
    rw [hstart, hend, List.cons_append, ← List.append_assoc, ← List.append_assoc]
    exact trimmed_between _ rfl rfl
  have hother : ∀ p : List Char, 2 ≤ p.length → p.take 2 ≠ literal.take 2 →
      ¬(stripPrefix p (literal ++ (escaped ++ ending))).isSome = true := by
    intro p hp hne
    rw [stripPrefix_append_eq_none 2 hp (by subst hliteral; decide) hne]
    decide
  have hcustom : (stripPrefix "(@custom ".toList (literal ++ (escaped ++ ending))).isSome =
      true := by
    have hliteral' : literal = "(@custom ".toList ++ "\"ck.wasm.target\" \"".toList := by
      subst hliteral
      decide
    rw [hliteral', List.append_assoc, stripPrefix_append]
    rfl
  have hclose : literal ++ (escaped ++ ending) ≠ [')'] := by
    rw [hstart]
    intro heq
    have hhead : '(' = ')' := (List.cons.inj heq).1
    exact absurd hhead (by decide)
  have hparse : parseTargetCustom (literal ++ (escaped ++ ending)) = .ok metadata := by
    unfold parseTargetCustom
    rw [hliteral, hending, stripPrefix_append, Option.bind_some, stripSuffix_append]
    dsimp only
    rw [← hescaped]
    exact unescape_escape _ metadata
  have hset : m.setTargetMetadata metadata = .ok { m with targetMetadata := some metadata } := by
    rw [FinalWasmModule.setTargetMetadata, hnone]
  rw [htext, parseLine_module (trim_spaces 2 htrimmed) htrimmed.ne_nil]
  unfold FinalWasmText.parseModuleLine
  rw [if_neg hclose, if_neg (hother _ (by decide) (by subst hliteral; decide)),
    if_neg (hother _ (by decide) (by subst hliteral; decide)), if_pos hcustom, hparse]
  show (m.setTargetMetadata metadata >>= _) = _
  rw [hset]
  rfl

end Lines

end CalcKernel
