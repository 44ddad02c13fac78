import CalcKernel.Backend.Wasm.FinalLines

/-!
# The final text reads back

The lines of a module build it again function by function.  Everything a builder finishes is
well formed, so its text gives the same module, whatever chunks it comes in.
-/

namespace CalcKernel

open Lib

/-- A module as the parser builds it. -/
def FinalWasmModule.WellFormed (m : FinalWasmModule) : Prop := ∀ f ∈ m.functions, f.WellFormed

/-! ## No line has a newline -/

theorem newline_notMem_of_isWord {text : List Char} (h : IsWord text) : '\n' ∉ text := by
  intro hmem
  have hblank := h.2 _ hmem
  exact absurd hblank (by decide)

theorem newline_notMem_spaced {words : List (List Char)} (h : ∀ w ∈ words, IsWord w) :
    '\n' ∉ spaced words := by
  intro hmem
  rcases mem_spaced hmem with heq | ⟨w, hw, hmem⟩
  · exact absurd heq (by decide)
  · exact newline_notMem_of_isWord (h w hw) hmem

theorem newline_notMem_replicate (n : Nat) : '\n' ∉ List.replicate n ' ' := by
  intro hmem
  exact absurd (List.eq_of_mem_replicate hmem) (by decide)

theorem newline_notMem_append {a b : List Char} (ha : '\n' ∉ a) (hb : '\n' ∉ b) :
    '\n' ∉ a ++ b :=
  fun hmem ↦ (List.mem_append.mp hmem).elim ha hb

theorem newline_notMem_cons {c : Char} {text : List Char} (hc : '\n' ≠ c) (h : '\n' ∉ text) :
    '\n' ∉ c :: text :=
  fun hmem ↦ (List.mem_cons.mp hmem).elim hc h

theorem newline_notMem_declaration {kind : String} {inner : List Char} (hkind : '\n' ∉ kind.toList)
    (h : '\n' ∉ inner) : '\n' ∉ declaration kind inner :=
  newline_notMem_cons (by decide) (newline_notMem_append hkind
    (newline_notMem_cons (by decide) (newline_notMem_append h (by decide))))

section

variable {floats : FloatText}

theorem newline_notMem_local {kind : String} {l : FinalLocal} (hkind : '\n' ∉ kind.toList)
    (h : validIdentifier l.name = true) : '\n' ∉ localLine kind l := by
  rw [localLine_eq]
  exact newline_notMem_append (newline_notMem_replicate 4) (newline_notMem_declaration hkind
    (newline_notMem_append (newline_notMem_of_isWord (isWord_label h))
      (newline_notMem_cons (by decide) (newline_notMem_of_isWord (isWord_valueType l.ty)))))

theorem newline_notMem_result {results : List WasmValueType} (hne : results ≠ []) :
    '\n' ∉ resultLine results := by
  obtain ⟨ty, types, rfl⟩ := List.exists_cons_of_ne_nil hne
  rw [resultLine_eq]
  refine newline_notMem_append (newline_notMem_replicate 4) (newline_notMem_declaration (by decide)
    (newline_notMem_append (newline_notMem_of_isWord (isWord_valueType ty))
      (newline_notMem_spaced fun w hw ↦ ?_)))
  obtain ⟨t, -, rfl⟩ := List.mem_map.mp hw
  exact isWord_valueType t

theorem newline_notMem_header {f : FinalWasmFunction} (h : f.WellFormed) :
    '\n' ∉ headerLine f := by
  have hname : '\n' ∉ f.name := fun hmem ↦
    newline_notMem_of_isWord (isWord_label h.name) (List.mem_cons_of_mem _ hmem)
  rw [headerLine, headerText_eq]
  refine newline_notMem_append (newline_notMem_replicate 2) (newline_notMem_append (by decide)
    (newline_notMem_append hname ?_))
  cases hexport : f.exportName with
  | none => exact List.not_mem_nil
  | some exportName =>
      exact newline_notMem_append (by decide)
        (newline_notMem_append (h.exportName exportName hexport).2 (by decide))

theorem newline_notMem_instruction (hfloats : floats.Inverse) {instruction : FinalInstruction}
    (h : instruction.kind.WellFormed) : '\n' ∉ instructionLine floats instruction := by
  rw [instructionLine, writeInstruction_eq]
  exact newline_notMem_append (newline_notMem_replicate _) (newline_notMem_append
    (newline_notMem_of_isWord (isWord_name (name_mem _)))
    (newline_notMem_spaced (isWord_operands hfloats h)))

theorem newline_notMem_function (hfloats : floats.Inverse) {f : FinalWasmFunction}
    (h : f.WellFormed) : ∀ line ∈ f.lines floats, '\n' ∉ line := by
  have hlocals : ∀ kind : String, '\n' ∉ kind.toList → ∀ ls : List FinalLocal,
      (∀ l ∈ ls, validIdentifier l.name = true) → ∀ line ∈ ls.map (localLine kind), '\n' ∉ line := by
    intro kind hkind ls hls line hline
    obtain ⟨l, hl, rfl⟩ := List.mem_map.mp hline
    exact newline_notMem_local hkind (hls l hl)
  intro line hline
  simp only [FinalWasmFunction.lines, List.append_assoc, List.mem_append] at hline
  rcases hline with hline | hline | hline | hline | hline | hline
  · rcases List.mem_cons.mp hline with rfl | hline
    · exact List.not_mem_nil
    · rw [List.mem_singleton.mp hline]
      exact newline_notMem_header h
  · exact hlocals "param" (by decide) f.params h.params line hline
  · split at hline
    · cases hline
    · rename_i hne
      rw [List.mem_singleton.mp hline]
      exact newline_notMem_result hne
  · exact hlocals "local" (by decide) f.locals h.locals line hline
  · obtain ⟨instruction, hmem, rfl⟩ := List.mem_map.mp hline
    exact newline_notMem_instruction hfloats (h.body instruction hmem)
  · rw [List.mem_singleton.mp hline]
    decide

theorem newline_notMem_module (hfloats : floats.Inverse) {m : FinalWasmModule}
    (h : m.WellFormed) : ∀ line ∈ m.lines floats, '\n' ∉ line := by
  intro line hline
  simp only [FinalWasmModule.lines, List.append_assoc, List.mem_append] at hline
  rcases hline with hline | hline | hline | hline
  · rcases List.mem_cons.mp hline with rfl | hline
    · decide
    rcases List.mem_cons.mp hline with rfl | hline
    · unfold memoryLine
      exact newline_notMem_append (newline_notMem_replicate 2) (newline_notMem_append
        (newline_notMem_append (by decide) (newline_notMem_of_isWord (isWord_decimal _)))
        (by decide))
    · rw [List.mem_singleton.mp hline]
      decide
  · obtain ⟨f, hf, hline⟩ := List.mem_flatMap.mp hline
    exact newline_notMem_function hfloats (h f hf) line hline
  · cases hmetadata : m.targetMetadata with
    | none =>
        rw [hmetadata] at hline
        cases hline
    | some metadata =>
        rw [hmetadata, Option.elim_some, List.mem_singleton] at hline
        subst hline
        unfold metadataLine
        refine newline_notMem_append (newline_notMem_replicate 2) (newline_notMem_append
          (newline_notMem_append (by decide) fun hmem ↦ ?_) (by decide))
        obtain ⟨b, -, hmem⟩ := List.mem_flatMap.mp hmem
        have hvisible := escapeByte_visible b _ hmem
        exact absurd hvisible (by decide)
  · rw [List.mem_singleton.mp hline]
    decide

/-! ## Reading the lines -/

theorem run_params {m : FinalWasmModule} {params : List FinalLocal} (g : FinalWasmFunction)
    (h : ∀ param ∈ params, validIdentifier param.name = true) :
    (params.map (localLine "param")).foldlM (FinalWasmText.parseLine floats)
        ⟨m, some g, true, false⟩ =
      .ok ⟨m, some { g with params := g.params ++ params }, true, false⟩ := by
  induction params generalizing g with
  | nil => simp [pure, Except.pure]
  | cons param params ih =>
      rw [List.map_cons, List.foldlM_cons, parseLine_param (h param List.mem_cons_self)]
      have hrest := ih { g with params := g.params ++ [param] }
        fun p hp ↦ h p (List.mem_cons_of_mem _ hp)
      rw [List.append_assoc] at hrest
      exact hrest

theorem run_locals {m : FinalWasmModule} {locals : List FinalLocal} (g : FinalWasmFunction)
    (h : ∀ l ∈ locals, validIdentifier l.name = true) :
    (locals.map (localLine "local")).foldlM (FinalWasmText.parseLine floats)
        ⟨m, some g, true, false⟩ =
      .ok ⟨m, some { g with locals := g.locals ++ locals }, true, false⟩ := by
  induction locals generalizing g with
  | nil => simp [pure, Except.pure]
  | cons l locals ih =>
      rw [List.map_cons, List.foldlM_cons, parseLine_local (h l List.mem_cons_self)]
      have hrest := ih { g with locals := g.locals ++ [l] }
        fun p hp ↦ h p (List.mem_cons_of_mem _ hp)
      rw [List.append_assoc] at hrest
      exact hrest

theorem run_body (hfloats : floats.Inverse) {m : FinalWasmModule} {body : List FinalInstruction}
    (g : FinalWasmFunction) (h : ∀ instruction ∈ body, instruction.kind.WellFormed) :
    (body.map (instructionLine floats)).foldlM (FinalWasmText.parseLine floats)
        ⟨m, some g, true, false⟩ =
      .ok ⟨m, some { g with body := g.body ++ body }, true, false⟩ := by
  induction body generalizing g with
  | nil => simp [pure, Except.pure]
  | cons instruction body ih =>
      rw [List.map_cons, List.foldlM_cons,
        parseLine_instruction hfloats (h instruction List.mem_cons_self)]
      have hrest := ih { g with body := g.body ++ [instruction] }
        fun i hi ↦ h i (List.mem_cons_of_mem _ hi)
      rw [List.append_assoc] at hrest
      exact hrest

theorem run_results {m : FinalWasmModule} (g : FinalWasmFunction) (hg : g.results = [])
    (results : List WasmValueType) :
    (if results = [] then [] else [resultLine results]).foldlM (FinalWasmText.parseLine floats)
        ⟨m, some g, true, false⟩ = .ok ⟨m, some { g with results }, true, false⟩ := by
  split
  · rename_i hnil
    rw [hnil, ← hg]
    rfl
  · rename_i hne
    rw [List.foldlM_cons, parseLine_result hg hne]
    rfl

/-- The lines of a function add it to the module. -/
theorem run_function (hfloats : floats.Inverse) (m : FinalWasmModule) {f : FinalWasmFunction}
    (h : f.WellFormed) :
    (f.lines floats).foldlM (FinalWasmText.parseLine floats) ⟨m, none, true, false⟩ =
      .ok ⟨{ m with functions := m.functions ++ [f] }, none, true, false⟩ := by
  have hstart : [[], headerLine f].foldlM (FinalWasmText.parseLine floats) ⟨m, none, true, false⟩ =
      .ok ⟨m, some ⟨f.name, f.exportName, [], [], [], []⟩, true, false⟩ :=
    (LineFeed.run_append (LineFeed.run_single (parseLine_blank _)) [headerLine f]).trans
      (LineFeed.run_single (parseLine_header h))
  simp only [FinalWasmFunction.lines, List.append_assoc]
  rw [LineFeed.run_append hstart, LineFeed.run_append (run_params _ h.params),
    LineFeed.run_append (run_results _ rfl f.results), LineFeed.run_append (run_locals _ h.locals),
    LineFeed.run_append (run_body hfloats _ h.body)]
  exact LineFeed.run_single parseLine_end

/-- The lines of functions add them one after the other. -/
theorem run_functions (hfloats : floats.Inverse) (m : FinalWasmModule)
    {functions : List FinalWasmFunction} (h : ∀ f ∈ functions, f.WellFormed) :
    (functions.flatMap (·.lines floats)).foldlM (FinalWasmText.parseLine floats)
        ⟨m, none, true, false⟩ =
      .ok ⟨{ m with functions := m.functions ++ functions }, none, true, false⟩ := by
  induction functions generalizing m with
  | nil => simp [pure, Except.pure]
  | cons f functions ih =>
      have hrest := ih { m with functions := m.functions ++ [f] }
        fun g hg ↦ h g (List.mem_cons_of_mem _ hg)
      rw [List.append_assoc] at hrest
      rw [List.flatMap_cons, LineFeed.run_append (run_function hfloats m (h f List.mem_cons_self))]
      exact hrest

/-- The lines of a module build it. -/
theorem run_module (hfloats : floats.Inverse) {m : FinalWasmModule} (h : m.WellFormed)
    (hutf8 : ∀ metadata ∈ m.targetMetadata, fromUtf8Lossy metadata = metadata) :
    (m.lines floats).foldlM (FinalWasmText.parseLine floats) FinalWasmText.start =
      .ok ⟨m, none, true, true⟩ := by
  have hopen : FinalWasmText.parseLine floats FinalWasmText.start "(module".toList =
      .ok ⟨⟨[], 1, none⟩, none, true, false⟩ := by
    have htrim : trim "(module".toList = "(module".toList := by decide
    have hne : "(module".toList ≠ [] := by decide
    simp only [FinalWasmText.parseLine, htrim, hne, FinalWasmText.start, Bool.false_eq_true,
      Bool.not_false, ne_eq, not_true_eq_false, if_true, if_false]
  have hstart : ["(module".toList, memoryLine m.memoryMinimum,
      List.replicate 2 ' ' ++ "(global (export \"__ck_heap_base\") i32 (i32.const 0))".toList].foldlM
        (FinalWasmText.parseLine floats) FinalWasmText.start =
      .ok ⟨⟨[], m.memoryMinimum, none⟩, none, true, false⟩ :=
    (LineFeed.run_append (LineFeed.run_single hopen) [_, _]).trans
      ((LineFeed.run_append (LineFeed.run_single (parseLine_memory _)) [_]).trans
        (LineFeed.run_single parseLine_global))
  have hmetadata : (m.targetMetadata.elim [] fun metadata ↦ [metadataLine metadata]).foldlM
      (FinalWasmText.parseLine floats) ⟨⟨m.functions, m.memoryMinimum, none⟩, none, true, false⟩ =
        .ok ⟨m, none, true, false⟩ := by
    obtain ⟨functions, memoryMinimum, targetMetadata⟩ := m
    cases targetMetadata with
    | none => rfl
    | some metadata => exact LineFeed.run_single (parseLine_metadata rfl (hutf8 metadata rfl))
  have hfunctions := run_functions hfloats ⟨[], m.memoryMinimum, none⟩ h
  rw [List.nil_append] at hfunctions
  simp only [FinalWasmModule.lines, List.append_assoc]
  rw [LineFeed.run_append hstart, LineFeed.run_append hfunctions, LineFeed.run_append hmetadata]
  exact LineFeed.run_single parseLine_close

end

end CalcKernel
