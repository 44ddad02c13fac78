import CalcKernel.Backend.C.NamesSound

/-!
# The condition on the names of the source
-/

namespace CalcKernel

open Lib

/-! ## Generated names are not reserved -/

/-- No reserved identifier has the first segment of a value, or the first two of a slice type. -/
def ReservedForm (name : String) : Prop :=
  (segments name).head? ≠ some ['c', 'k'] ∧
    (segments name).take 2 ≠ [['C', 'K'], ['S', 'l', 'i', 'c', 'e']]

instance (name : String) : Decidable (ReservedForm name) := inferInstanceAs (Decidable (_ ∧ _))

set_option maxRecDepth 4000 in
theorem reservedForm_of_cKeywords : ∀ name ∈ cKeywords, ReservedForm name := by decide

set_option maxRecDepth 4000 in
theorem reservedForm_of_cHeaderNames : ∀ name ∈ cHeaderNames, ReservedForm name := by decide

set_option maxRecDepth 4000 in
theorem reservedForm_of_cMacros : ∀ status, ∀ name ∈ cMacros status, ReservedForm name := by decide

theorem head_segments_of_underscore {name : String} (h : name.toList.head? = some '_') :
    (segments name).head? = some [] := by
  cases hlist : name.toList with
  | nil => rw [hlist] at h; cases h
  | cons c rest =>
      rw [hlist, List.head?_cons, Option.some.injEq] at h
      subst h
      rw [segments, hlist]
      exact congrArg List.head? (List.splitOn_append_cons_self [] rest)

theorem reservedForm_of_head {name : String} (h : (segments name).head? = some []) :
    ReservedForm name := by
  cases hsegments : segments name with
  | nil => exact absurd hsegments (segments_ne_nil name)
  | cons s rest =>
      rw [hsegments, List.head?_cons, Option.some.injEq] at h
      subst h
      rw [ReservedForm, hsegments]
      simp

theorem reservedForm_of_isReserved {status : Bool} {name : String}
    (h : isReserved status name = true) : ReservedForm name := by
  rw [isReserved] at h
  rcases Bool.or_eq_true_iff.mp h with h | hstart
  · rcases Bool.or_eq_true_iff.mp h with h | h
    · rcases Bool.or_eq_true_iff.mp h with h | h
      · exact reservedForm_of_cKeywords name (List.contains_iff_mem.mp h)
      · exact reservedForm_of_cHeaderNames name (List.contains_iff_mem.mp h)
    · exact reservedForm_of_cMacros status name (List.contains_iff_mem.mp h)
  · refine reservedForm_of_head (head_segments_of_underscore ?_)
    rw [hasReservedStart] at hstart
    split at hstart
    · rename_i c rest hlist
      rw [hlist]
      exact Eq.refl _
    · cases hstart

theorem not_isReserved_of_ck {status : Bool} {name : String}
    (h : (segments name).head? = some ['c', 'k']) : isReserved status name = false := by
  by_contra hreserved
  exact (reservedForm_of_isReserved (Bool.not_eq_false _ ▸ hreserved)).1 h

/-! ## The beginnings of generated names -/

theorem second_firstFree (used : List String) {preferred : String} {s t : List Char}
    {rest : List (List Char)} (h : segments preferred = s :: t :: rest) :
    ∃ rest', segments (firstFree used preferred) = s :: t :: rest' := by
  obtain ⟨n, hn⟩ := exists_candidate used preferred
  obtain ⟨number, hnumber⟩ := exists_segments_candidate preferred n
  refine ⟨rest ++ number, ?_⟩
  rw [hn, hnumber, h]
  exact Eq.refl _

/-- A made name begins like a value, a result or a status, and not like a temporary. -/
theorem segments_of_wanted {f : KirFunction} {status : Bool} {preferred : String}
    (h : preferred ∈ f.wantedNames status) :
    ∃ t rest, segments (firstFree f.paramNames preferred) = ['c', 'k'] :: t :: rest ∧
      t ≠ ['e', 'd', 'g', 'e'] := by
  rcases KirFunction.mem_wantedNames h with rfl | ⟨v, rfl⟩ | ⟨i, rfl⟩
  · obtain ⟨rest, hrest⟩ := second_firstFree f.paramNames segments_return
    exact ⟨_, rest, hrest, by decide⟩
  · obtain ⟨rest, hrest⟩ := second_firstFree f.paramNames (segments_cValueName v)
    exact ⟨_, rest, hrest, by simp⟩
  · obtain ⟨rest, hrest⟩ := second_firstFree f.paramNames (segments_callStatusName i)
    exact ⟨_, rest, hrest, by decide⟩

theorem segments_of_sliceNames {m : KirModule} {slices : List MirType} {name : String}
    (h : name ∈ m.sliceNames slices) :
    ∃ rest, segments name = ['C', 'K'] :: ['S', 'l', 'i', 'c', 'e'] :: rest := by
  obtain ⟨p, hp, n, rfl⟩ := exists_of_mem_allocateAll name h
  obtain ⟨t, -, rfl⟩ := List.mem_map.mp hp
  obtain ⟨rest, hrest⟩ := segments_cSliceName t
  obtain ⟨number, hnumber⟩ := exists_segments_candidate (cSliceName t) n
  refine ⟨rest ++ number, ?_⟩
  rw [hnumber, hrest]
  exact Eq.refl _

theorem not_isReservedAtFileScope_of_sliceNames {m : KirModule} {slices : List MirType}
    {name : String} (h : name ∈ m.sliceNames slices) (status : Bool) :
    isReservedAtFileScope status name = false := by
  obtain ⟨rest, hrest⟩ := segments_of_sliceNames h
  by_contra hreserved
  have hreserved := Bool.not_eq_false _ ▸ hreserved
  have hform : ReservedForm name := by
    rcases Bool.or_eq_true_iff.mp hreserved with hstart | hreserved
    · exact reservedForm_of_head (head_segments_of_underscore (by simpa using hstart))
    · exact reservedForm_of_isReserved hreserved
  exact hform.2 (by rw [hrest]; exact Eq.refl _)

theorem edgeNames_eq (f : KirFunction) (edge : KirEdge) : ∃ n, f.edgeNames edge =
    (List.range n).map (edgeTemporaryName edge.target) := by
  rw [KirFunction.edgeNames]
  cases f.blocks.find? (·.id = edge.target) with
  | none => exact ⟨0, Eq.refl _⟩
  | some target =>
      refine ⟨(target.params.zip edge.args).length, List.ext_getElem ?_ fun i hi hi' ↦ ?_⟩
      · rw [List.length_mapIdx, List.length_map, List.length_range]
      · rw [List.getElem_mapIdx, List.getElem_map, List.getElem_range]

theorem nodup_edgeNames (f : KirFunction) (edge : KirEdge) : (f.edgeNames edge).Nodup := by
  obtain ⟨n, hn⟩ := edgeNames_eq f edge
  rw [hn]
  refine List.nodup_range.map fun i j h ↦ ?_
  have hsegments := congrArg segments h
  rw [segments_edgeTemporaryName, segments_edgeTemporaryName] at hsegments
  simp only [List.cons.injEq, and_true, true_and] at hsegments
  exact digits_injective hsegments

theorem segments_of_edgeNames {f : KirFunction} {edge : KirEdge} {name : String}
    (h : name ∈ f.edgeNames edge) :
    ∃ rest, segments name = ['c', 'k'] :: ['e', 'd', 'g', 'e'] :: rest := by
  obtain ⟨n, hn⟩ := edgeNames_eq f edge
  rw [hn] at h
  obtain ⟨i, -, rfl⟩ := List.mem_map.mp h
  exact ⟨_, segments_edgeTemporaryName _ _⟩

/-! ## Declarations of the file -/

section

variable {m : KirModule} {slices : List MirType}

theorem mem_fileNames {name : String} : name ∈ m.fileNames slices ↔
    (m.statusAbi = true ∧ name = "CK_Status") ∨ (∃ s ∈ m.structs, s.name = name) ∨
      name ∈ m.sliceNames slices ∨ ∃ f ∈ m.functions, f.name = name := by
  have hstatus : name ∈ (if m.statusAbi then ["CK_Status"] else []) ↔
      m.statusAbi = true ∧ name = "CK_Status" := by
    cases m.statusAbi <;> simp
  rw [KirModule.fileNames, List.mem_append, List.mem_append, List.mem_append, List.mem_map,
    List.mem_map, hstatus, or_assoc, or_assoc]

theorem notMem_globalNames {name : String} (h : name ∈ m.sliceNames slices) :
    name ≠ "CK_Status" ∧ (∀ s ∈ m.structs, s.name ≠ name) ∧ ∀ f ∈ m.functions, f.name ≠ name := by
  have hnot := allocateAll_disjoint name h
  refine ⟨fun heq ↦ hnot ?_, fun s hs heq ↦ hnot ?_, fun f hf heq ↦ hnot ?_⟩
  · rw [heq, KirModule.globalNames]
    exact List.mem_append_left _ (List.mem_append_left _ List.mem_cons_self)
  · exact List.mem_append_left _ (List.mem_append_right _ (List.mem_map.mpr ⟨s, hs, heq⟩))
  · exact List.mem_append_right _ (List.mem_map.mpr ⟨f, hf, heq⟩)

theorem nodup_fileNames (h : CheckedNames m)
    (hstructs : ∀ s ∈ m.structs, ∀ f ∈ m.functions, s.name ≠ f.name)
    (hstatus : m.statusAbi = true → (∀ s ∈ m.structs, s.name ≠ "CK_Status") ∧
      ∀ f ∈ m.functions, f.name ≠ "CK_Status") : (m.fileNames slices).Nodup := by
  have hmem {name : String} (hname : name ∈ if m.statusAbi then ["CK_Status"] else []) :
      m.statusAbi = true ∧ name = "CK_Status" := by
    split at hname
    · rename_i hon
      exact ⟨hon, List.mem_singleton.mp hname⟩
    · cases hname
  rw [KirModule.fileNames]
  refine List.nodup_append.mpr ⟨List.nodup_append.mpr ⟨List.nodup_append.mpr ⟨?_, h.structs, ?_⟩,
    allocateAll_nodup, ?_⟩, h.functions, ?_⟩
  · split
    · exact List.nodup_singleton _
    · exact List.nodup_nil
  · rintro name hname name' hname' rfl
    obtain ⟨hon, rfl⟩ := hmem hname
    obtain ⟨s, hs, heq⟩ := List.mem_map.mp hname'
    exact (hstatus hon).1 s hs heq
  · rintro name hname name' hname' rfl
    obtain ⟨hnotStatus, hnotStruct, -⟩ := notMem_globalNames hname'
    rcases List.mem_append.mp hname with hname | hname
    · exact hnotStatus (hmem hname).2
    · obtain ⟨s, hs, heq⟩ := List.mem_map.mp hname
      exact hnotStruct s hs heq
  · rintro name hname name' hname' rfl
    obtain ⟨f, hf, heq⟩ := List.mem_map.mp hname'
    rcases List.mem_append.mp hname with hname | hname
    · rcases List.mem_append.mp hname with hname | hname
      · obtain ⟨hon, rfl⟩ := hmem hname
        exact (hstatus hon).2 f hf heq
      · obtain ⟨s, hs, heq'⟩ := List.mem_map.mp hname
        exact hstructs s hs f hf (heq'.trans heq.symm)
    · obtain ⟨-, -, hnotFunction⟩ := notMem_globalNames hname
      exact hnotFunction f hf heq

theorem nodup_callIds {f : KirFunction} (h : (f.instructions.map (·.id)).Nodup) :
    f.callIds.Nodup :=
  (List.filter_sublist.map _).nodup h

/-- A name that begins as a value or a temporary does is no slice type and no status. -/
theorem notMem_fileNames_of_ck {name : String} (hck : (segments name).head? = some ['c', 'k'])
    (hstructs : ∀ s ∈ m.structs, s.name ≠ name) (hfunctions : ∀ f ∈ m.functions, f.name ≠ name) :
    name ∉ m.fileNames slices := by
  intro hmem
  rcases mem_fileNames.mp hmem with ⟨-, rfl⟩ | ⟨s, hs, heq⟩ | hslice | ⟨f, hf, heq⟩
  · exact absurd hck (by decide)
  · exact hstructs s hs heq
  · obtain ⟨rest, hrest⟩ := segments_of_sliceNames hslice
    rw [hrest] at hck
    cases hck
  · exact hfunctions f hf heq

/-! ## The condition -/

end

/-- An exported function that hands its argument to another one:
`fn callee(a: i32) -> i32 { return a; }` and
`export fn f(b: i32) -> i32 { return callee(b); }`. -/
def callModule (callee : String) : KirModule where
  config := ⟨.c, .checked, .checked, .disabled⟩
  entry := none
  structs := []
  functions := [
    { id := 0, name := callee, exported := false
      params := [⟨0, "a", .primitive .i32⟩]
      returnType := .primitive .i32
      regions := [⟨0, .conservative, none, 0, none⟩]
      initialMemory := [⟨0, 0⟩]
      vectorRegions := []
      blocks := [⟨0, "entry", [], [], [], .return (some 0) [(0, 0)] 0⟩] },
    { id := 1, name := "f", exported := true
      params := [⟨1, "b", .primitive .i32⟩]
      returnType := .primitive .i32
      regions := [⟨1, .conservative, none, 1, none⟩]
      initialMemory := [⟨1, 1⟩]
      vectorRegions := []
      blocks := [⟨1, "entry", [], [],
        [⟨0, [⟨2, .scalar (.primitive .i32)⟩], .call callee [1], some ⟨1, 1, some 2⟩,
          some ⟨0, .call⟩⟩],
        .return (some 2) [(1, 2)] 1⟩] }]

end CalcKernel
