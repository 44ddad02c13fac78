import Mathlib.Data.List.Dedup
import CalcKernel.Backend.C.Names

/-!
# When the names of a C file are apart

The generated names are apart from each other, from the parameters and from the reserved
identifiers, whatever the names of the source are.  What is left is a matter of these.
-/

namespace CalcKernel

open Lib

/-! ## The segments of generated names -/

/-- The last segment is no number. -/
def Plain (name : String) : Prop :=
  ∃ init last, segments name = init ++ [last] ∧ ∀ n, last ≠ digits n

theorem apart_of_plain {p q : String} (hp : Plain p) (hq : Plain q) (hne : p ≠ q) :
    KeptApart p q := by
  obtain ⟨init, last, hsegments, hlast⟩ := hp
  obtain ⟨init', last', hsegments', hlast'⟩ := hq
  refine apart_of_ne hne (fun n heq ↦ ?_) (fun n heq ↦ ?_)
  · rw [hsegments] at heq
    obtain ⟨-, hnumber⟩ := List.append_inj' heq (Eq.refl _)
    exact hlast n (List.head_eq_of_cons_eq hnumber)
  · rw [hsegments'] at heq
    obtain ⟨-, hnumber⟩ := List.append_inj' heq (Eq.refl _)
    exact hlast' n (List.head_eq_of_cons_eq hnumber)

theorem segments_data (name : String) :
    segments (name ++ "_data") = segments name ++ [['d', 'a', 't', 'a']] := by
  have happend : name ++ "_data" = name ++ "_" ++ "data" := by
    rw [String.append_assoc]
    exact Eq.refl _
  rw [happend, segments_append]
  exact congrArg _ (by decide)

theorem segments_len (name : String) :
    segments (name ++ "_len") = segments name ++ [['l', 'e', 'n']] := by
  have happend : name ++ "_len" = name ++ "_" ++ "len" := by
    rw [String.append_assoc]
    exact Eq.refl _
  rw [happend, segments_append]
  exact congrArg _ (by decide)

theorem segments_cValueName (v : ValueId) :
    segments (cValueName v) = [['c', 'k'], 'v' :: digits v] := by
  have happend : cValueName v = "ck" ++ "_" ++ ("v" ++ toString v) := by
    rw [cValueName, ← String.append_assoc]
    exact Eq.refl _
  have hv : segments ("v" ++ toString v) = ['v' :: digits v] := by
    have hlist : ("v" ++ toString v).toList = 'v' :: digits v := by
      rw [String.toList_append]
      exact Eq.refl _
    rw [segments_of_notMem, hlist]
    rw [hlist, List.mem_cons]
    rintro (h | h)
    · exact absurd h (by decide)
    · exact absurd (isDigit_of_mem_digits h) (by decide)
  have hck : segments "ck" = [['c', 'k']] := by decide
  rw [happend, segments_append, hv, hck]
  exact Eq.refl _

theorem segments_return : segments "ck_return" = [['c', 'k'], ['r', 'e', 't', 'u', 'r', 'n']] := by
  decide

theorem segments_callStatusName (i : InstructionId) :
    segments (callStatusName i) = [['c', 'k'], ['s', 't', 'a', 't', 'u', 's'], digits i] := by
  have happend : callStatusName i = "ck_status" ++ "_" ++ toString i := Eq.refl _
  have hstatus : segments "ck_status" = [['c', 'k'], ['s', 't', 'a', 't', 'u', 's']] := by decide
  rw [happend, segments_append, segments_toString, hstatus]
  exact Eq.refl _

theorem segments_edgeTemporaryName (target : BlockId) (index : Nat) :
    segments (edgeTemporaryName target index) =
      [['c', 'k'], ['e', 'd', 'g', 'e'], digits target, digits index] := by
  have happend : edgeTemporaryName target index =
      "ck_edge" ++ "_" ++ toString target ++ "_" ++ toString index := Eq.refl _
  have hedge : segments "ck_edge" = [['c', 'k'], ['e', 'd', 'g', 'e']] := by decide
  rw [happend, segments_append, segments_append, segments_toString, segments_toString, hedge]
  exact Eq.refl _

theorem segments_cSliceName (t : MirType) :
    ∃ rest, segments (cSliceName t) = ['C', 'K'] :: ['S', 'l', 'i', 'c', 'e'] :: rest := by
  have hprefix (name : String) : segments ("CK_Slice_" ++ name) =
      ['C', 'K'] :: ['S', 'l', 'i', 'c', 'e'] :: segments name := by
    have happend : "CK_Slice_" ++ name = "CK_Slice" ++ "_" ++ name := Eq.refl _
    have hslice : segments "CK_Slice" = [['C', 'K'], ['S', 'l', 'i', 'c', 'e']] := by decide
    rw [happend, segments_append, hslice]
    exact Eq.refl _
  cases t <;> exact ⟨_, hprefix _⟩

theorem plain_data (name : String) : Plain (name ++ "_data") :=
  ⟨_, _, segments_data name, ne_digits ⟨'d', by decide, by decide⟩⟩

theorem plain_len (name : String) : Plain (name ++ "_len") :=
  ⟨_, _, segments_len name, ne_digits ⟨'l', by decide, by decide⟩⟩

theorem plain_cValueName (v : ValueId) : Plain (cValueName v) :=
  ⟨[_], _, segments_cValueName v, ne_digits ⟨'v', List.mem_cons_self, by decide⟩⟩

theorem plain_return : Plain "ck_return" :=
  ⟨[_], _, segments_return, ne_digits ⟨'r', by decide, by decide⟩⟩

/-- The wanted name of a status ends with a number. -/
theorem apart_callStatusName {q : String} (hq : Plain q)
    (hne : segments q ≠ [['c', 'k'], ['s', 't', 'a', 't', 'u', 's']]) (i : InstructionId) :
    KeptApart q (callStatusName i) := by
  obtain ⟨init, last, hsegments, hlast⟩ := hq
  have hnumber (l : List (List Char)) (n : Nat) : segments q ≠ l ++ [digits n] := by
    rw [hsegments]
    intro heq
    obtain ⟨-, heq⟩ := List.append_inj' heq (Eq.refl _)
    exact hlast n (List.head_eq_of_cons_eq heq)
  have hstatus : segments (callStatusName i) =
      [['c', 'k'], ['s', 't', 'a', 't', 'u', 's']] ++ [digits i] := segments_callStatusName i
  refine apart_of_ne (fun heq ↦ ?_) (fun n ↦ hnumber _ n) (fun n heq ↦ ?_)
  · exact hnumber _ i (heq ▸ hstatus)
  · rw [hstatus] at heq
    obtain ⟨heq, -⟩ := List.append_inj' heq (Eq.refl _)
    exact hne heq.symm

theorem apart_callStatusName_callStatusName {i j : InstructionId} (h : i ≠ j) :
    KeptApart (callStatusName i) (callStatusName j) := by
  refine apart_of_ne (fun heq ↦ ?_) (fun n heq ↦ ?_) (fun n heq ↦ ?_)
  · have hsegments := congrArg segments heq
    rw [segments_callStatusName, segments_callStatusName] at hsegments
    simp only [List.cons.injEq, and_true, true_and] at hsegments
    exact h (digits_injective hsegments)
  · rw [segments_callStatusName, segments_callStatusName] at heq
    exact absurd (congrArg List.length heq) (by simp)
  · rw [segments_callStatusName, segments_callStatusName] at heq
    exact absurd (congrArg List.length heq) (by simp)

/-! ## The layout of a function -/

/-- The names that are wanted for the parts of a slice parameter. -/
def KirParam.wantedParts (param : KirParam) : List String :=
  match param.typeNode with
  | .slice _ => [param.name ++ "_data", param.name ++ "_len"]
  | _ => []

theorem plain_of_mem_wantedParts {param : KirParam} {name : String}
    (h : name ∈ param.wantedParts) : Plain name := by
  unfold KirParam.wantedParts at h
  split at h
  · rcases List.mem_cons.mp h with rfl | h
    · exact plain_data _
    · rw [List.mem_singleton.mp h]
      exact plain_len _
  · cases h

theorem segments_of_mem_wantedParts {param : KirParam} {name : String}
    (h : name ∈ param.wantedParts) : ∃ last, segments name = segments param.name ++ [last] ∧
      (last = ['d', 'a', 't', 'a'] ∨ last = ['l', 'e', 'n']) := by
  unfold KirParam.wantedParts at h
  split at h
  · rcases List.mem_cons.mp h with rfl | h
    · exact ⟨_, segments_data _, .inl (Eq.refl _)⟩
    · rw [List.mem_singleton.mp h]
      exact ⟨_, segments_len _, .inr (Eq.refl _)⟩
  · cases h

theorem apart_data_len (p q : String) : KeptApart (p ++ "_data") (q ++ "_len") := by
  refine apart_of_plain (plain_data p) (plain_len q) fun heq ↦ ?_
  have hsegments := congrArg segments heq
  rw [segments_data, segments_len] at hsegments
  obtain ⟨-, hlast⟩ := List.append_inj' hsegments (Eq.refl _)
  exact absurd hlast (by decide)

theorem apart_wantedParts {p q : KirParam} (hne : p.name ≠ q.name) :
    ∀ a ∈ p.wantedParts, ∀ b ∈ q.wantedParts, KeptApart a b := by
  intro a ha b hb
  refine apart_of_plain (plain_of_mem_wantedParts ha) (plain_of_mem_wantedParts hb) fun heq ↦ ?_
  obtain ⟨last, hsegments, -⟩ := segments_of_mem_wantedParts ha
  obtain ⟨last', hsegments', -⟩ := segments_of_mem_wantedParts hb
  rw [heq, hsegments'] at hsegments
  obtain ⟨hinit, -⟩ := List.append_inj' hsegments (Eq.refl _)
  exact hne (segments_injective hinit.symm)

/-- None of the names is a candidate of a wanted one. -/
def ClearOf (names wanted : List String) : Prop :=
  ∀ name ∈ names, ∀ preferred ∈ wanted, ∀ n, candidate preferred n ≠ name

theorem firstFree_of_clearOf {names wanted used : List String} (h : ClearOf names wanted)
    {preferred : String} (hmem : preferred ∈ wanted) :
    firstFree (names ++ used) preferred = firstFree used preferred :=
  firstFree_append fun name hname n ↦ h name hname preferred hmem n

theorem clearOf_map_firstFree {wanted wanted' used : List String}
    (h : ∀ p ∈ wanted, ∀ q ∈ wanted', KeptApart p q) :
    ClearOf (wanted.map (firstFree used)) wanted' := by
  intro name hname q hq n
  obtain ⟨p, hp, rfl⟩ := List.mem_map.mp hname
  obtain ⟨m, hm⟩ := exists_candidate used p
  rw [hm]
  exact (h p hp q hq).symm n m

theorem ClearOf.append {names names' wanted : List String} (h : ClearOf names wanted)
    (h' : ClearOf names' wanted) : ClearOf (names ++ names') wanted := by
  intro name hname
  rcases List.mem_append.mp hname with hname | hname
  · exact h name hname
  · exact h' name hname

/-- The names of a parameter, when nothing but the parameters of the source is in the way. -/
def KirParam.cLayout (used : List String) (param : KirParam) : KirCParamLayout :=
  match param.typeNode with
  | .slice _ => .slice (firstFree used (param.name ++ "_data"))
      (firstFree used (param.name ++ "_len"))
  | _ => .scalar param.name

theorem allocateParams_eq {params : List KirParam} (hnodup : (params.map (·.name)).Nodup)
    {names used : List String} (hclear : ClearOf names (params.flatMap KirParam.wantedParts)) :
    (allocateParams (names ++ used) params).1 =
        params.map (fun param ↦ (param.value, param.cLayout used)) ∧
      (allocateParams (names ++ used) params).2 =
        ((params.flatMap KirParam.wantedParts).map (firstFree used)).reverse ++ names ++ used := by
  induction params generalizing names with
  | nil => exact ⟨Eq.refl _, Eq.refl _⟩
  | cons param params ih =>
      obtain ⟨hparam, hrest⟩ := List.nodup_cons.mp hnodup
      have hclearRest : ClearOf names (params.flatMap KirParam.wantedParts) :=
        fun name hname preferred hmem ↦ hclear name hname preferred
          (by rw [List.flatMap_cons]; exact List.mem_append_right _ hmem)
      cases htype : param.typeNode with
      | slice element =>
          have hparts : param.wantedParts = [param.name ++ "_data", param.name ++ "_len"] := by
            rw [KirParam.wantedParts, htype]
          have hlayout : param.cLayout used = .slice (firstFree used (param.name ++ "_data"))
              (firstFree used (param.name ++ "_len")) := by
            rw [KirParam.cLayout, htype]
          have hwanted (name : String) (hname : name ∈ param.wantedParts) :
              name ∈ (param :: params).flatMap KirParam.wantedParts := by
            rw [List.flatMap_cons]
            exact List.mem_append_left _ hname
          have hdata : firstFree (names ++ used) (param.name ++ "_data") =
              firstFree used (param.name ++ "_data") :=
            firstFree_of_clearOf hclear (hwanted _ (by simp [hparts]))
          have hlen : firstFree (firstFree used (param.name ++ "_data") :: names ++ used)
              (param.name ++ "_len") = firstFree used (param.name ++ "_len") := by
            refine firstFree_append fun name hname n ↦ ?_
            rcases List.mem_cons.mp hname with rfl | hname
            · obtain ⟨m, hm⟩ := exists_candidate used (param.name ++ "_data")
              rw [hm]
              exact (apart_data_len _ _).symm n m
            · exact hclear name hname _ (hwanted _ (by simp [hparts])) n
          have hclearNext : ClearOf (firstFree used (param.name ++ "_len") ::
              firstFree used (param.name ++ "_data") :: names)
                (params.flatMap KirParam.wantedParts) := by
            have hown : ClearOf (param.wantedParts.reverse.map (firstFree used))
                (params.flatMap KirParam.wantedParts) := by
              refine clearOf_map_firstFree fun p hp q hq ↦ ?_
              obtain ⟨param', hmem, hq⟩ := List.mem_flatMap.mp hq
              have hne : param.name ≠ param'.name := fun heq ↦
                hparam (List.mem_map.mpr ⟨param', hmem, heq.symm⟩)
              exact apart_wantedParts hne p (List.mem_reverse.mp hp) q hq
            rw [hparts] at hown
            exact hown.append hclearRest
          obtain ⟨hfirst, hsecond⟩ := ih hrest hclearNext
          rw [allocateParams, htype]
          simp only [hdata]
          rw [← List.cons_append, hlen, ← List.cons_append]
          refine ⟨?_, ?_⟩
          · rw [hfirst, List.map_cons, hlayout]
          · rw [hsecond, List.flatMap_cons, hparts]
            simp
      | _ =>
          have hparts : param.wantedParts = [] := by rw [KirParam.wantedParts, htype]
          have hlayout : param.cLayout used = .scalar param.name := by
            rw [KirParam.cLayout, htype]
          obtain ⟨hfirst, hsecond⟩ := ih hrest hclearRest
          rw [allocateParams, htype, List.flatMap_cons, hparts, List.map_cons, hlayout]
          exact ⟨congrArg _ hfirst, hsecond⟩

theorem allocateEach_eq {wanted : List (Nat × String)}
    (happart : (wanted.map Prod.snd).Pairwise KeptApart) {names used : List String}
    (hclear : ClearOf names (wanted.map Prod.snd)) :
    (allocateEach (names ++ used) wanted).1 = wanted.map (fun w ↦ (w.1, firstFree used w.2)) ∧
      (allocateEach (names ++ used) wanted).2 =
        ((wanted.map Prod.snd).map (firstFree used)).reverse ++ names ++ used := by
  induction wanted generalizing names with
  | nil => exact ⟨Eq.refl _, Eq.refl _⟩
  | cons w wanted ih =>
      obtain ⟨key, preferred⟩ := w
      obtain ⟨hp, hrest⟩ := List.pairwise_cons.mp happart
      have hfirst : firstFree (names ++ used) preferred = firstFree used preferred :=
        firstFree_of_clearOf hclear List.mem_cons_self
      have hown : ClearOf ([preferred].map (firstFree used)) (wanted.map Prod.snd) :=
        clearOf_map_firstFree fun p hp' q hq ↦ by
          rw [List.mem_singleton.mp hp']
          exact hp q hq
      have hclearRest : ClearOf names (wanted.map Prod.snd) :=
        fun name hname q hq ↦ hclear name hname q (List.mem_cons_of_mem _ hq)
      obtain ⟨hnames, hused⟩ := ih hrest (hown.append hclearRest)
      simp only [allocateEach, hfirst]
      rw [← List.cons_append]
      refine ⟨?_, ?_⟩
      · exact congrArg _ hnames
      · refine hused.trans ?_
        simp

/-! ## What a function declares -/

theorem apart_wantedParts_cValueName {param : KirParam} {name : String}
    (h : name ∈ param.wantedParts) (v : ValueId) : KeptApart name (cValueName v) := by
  refine apart_of_plain (plain_of_mem_wantedParts h) (plain_cValueName v) fun heq ↦ ?_
  obtain ⟨last, hsegments, hlast⟩ := segments_of_mem_wantedParts h
  have hv : segments name = [['c', 'k']] ++ ['v' :: digits v] := by
    rw [heq]
    exact segments_cValueName v
  obtain ⟨-, heq⟩ := List.append_inj' (hsegments.symm.trans hv) (Eq.refl _)
  rcases hlast with rfl | rfl <;> simp at heq

theorem apart_wantedParts_return {param : KirParam} {name : String}
    (h : name ∈ param.wantedParts) : KeptApart name "ck_return" := by
  refine apart_of_plain (plain_of_mem_wantedParts h) plain_return fun heq ↦ ?_
  obtain ⟨last, hsegments, hlast⟩ := segments_of_mem_wantedParts h
  have hreturn : segments name = [['c', 'k']] ++ [['r', 'e', 't', 'u', 'r', 'n']] := by
    rw [heq]
    exact segments_return
  obtain ⟨-, heq⟩ := List.append_inj' (hsegments.symm.trans hreturn) (Eq.refl _)
  rcases hlast with rfl | rfl <;> simp at heq

theorem apart_wantedParts_callStatusName {param : KirParam} {name : String}
    (h : name ∈ param.wantedParts) (i : InstructionId) : KeptApart name (callStatusName i) := by
  refine apart_callStatusName (plain_of_mem_wantedParts h) (fun heq ↦ ?_) i
  obtain ⟨last, hsegments, hlast⟩ := segments_of_mem_wantedParts h
  have hstatus : segments name = [['c', 'k']] ++ [['s', 't', 'a', 't', 'u', 's']] := heq
  obtain ⟨-, heq⟩ := List.append_inj' (hsegments.symm.trans hstatus) (Eq.refl _)
  rcases hlast with rfl | rfl <;> simp at heq

theorem apart_cValueName_cValueName {v w : ValueId} (h : v ≠ w) :
    KeptApart (cValueName v) (cValueName w) := by
  refine apart_of_plain (plain_cValueName v) (plain_cValueName w) fun heq ↦ h ?_
  have hsegments := congrArg segments heq
  rw [segments_cValueName, segments_cValueName] at hsegments
  simp only [List.cons.injEq, and_true, true_and] at hsegments
  exact digits_injective hsegments

theorem apart_return_cValueName (v : ValueId) : KeptApart "ck_return" (cValueName v) := by
  refine apart_of_plain plain_return (plain_cValueName v) fun heq ↦ ?_
  have hsegments := congrArg segments heq
  rw [segments_return, segments_cValueName] at hsegments
  simp at hsegments

theorem apart_return_callStatusName (i : InstructionId) :
    KeptApart "ck_return" (callStatusName i) :=
  apart_callStatusName plain_return (by decide) i

theorem apart_cValueName_callStatusName (v : ValueId) (i : InstructionId) :
    KeptApart (cValueName v) (callStatusName i) := by
  refine apart_callStatusName (plain_cValueName v) ?_ i
  rw [segments_cValueName]
  simp

namespace KirFunction

variable {f : KirFunction}

theorem nodup_sortedValueIds (f : KirFunction) : f.sortedValueIds.Nodup :=
  (List.mergeSort_perm _ _).nodup_iff.mpr (List.nodup_dedup _)

theorem pairwise_cValueNames (f : KirFunction) :
    (f.sortedValueIds.map cValueName).Pairwise KeptApart :=
  List.pairwise_map.mpr (f.nodup_sortedValueIds.imp apart_cValueName_cValueName)

theorem pairwise_callStatusNames (h : f.callIds.Nodup) :
    (f.callIds.map callStatusName).Pairwise KeptApart :=
  List.pairwise_map.mpr (h.imp apart_callStatusName_callStatusName)

theorem cLayout_eq (hparams : f.paramNames.Nodup) (hcalls : f.callIds.Nodup) : f.cLayout = {
    params := f.params.map fun param ↦ (param.value, param.cLayout f.paramNames)
    values := f.sortedValueIds.map fun v ↦ (v, firstFree f.paramNames (cValueName v))
    returnPointer := firstFree f.paramNames "ck_return"
    callStatus := f.callIds.map fun i ↦ (i, firstFree f.paramNames (callStatusName i)) } := by
  have hparts : ∀ a ∈ f.params.flatMap KirParam.wantedParts, ∃ param : KirParam,
      a ∈ param.wantedParts := fun a ha ↦ by
    obtain ⟨param, -, ha⟩ := List.mem_flatMap.mp ha
    exact ⟨param, ha⟩
  obtain ⟨hfirst, hused⟩ := @allocateParams_eq f.params hparams [] f.paramNames
    fun _ h ↦ by cases h
  rw [List.nil_append, List.append_nil, ← List.map_reverse] at hused
  rw [List.nil_append] at hfirst
  have hvaluesSnd : (f.sortedValueIds.map fun v ↦ (v, cValueName v)).map Prod.snd =
      f.sortedValueIds.map cValueName := by
    rw [List.map_map]
    exact Eq.refl _
  have hcallsSnd : (f.callIds.map fun i ↦ (i, callStatusName i)).map Prod.snd =
      f.callIds.map callStatusName := by
    rw [List.map_map]
    exact Eq.refl _
  have hvaluesClear : ClearOf
      ((f.params.flatMap KirParam.wantedParts).reverse.map (firstFree f.paramNames))
      ((f.sortedValueIds.map fun v ↦ (v, cValueName v)).map Prod.snd) := by
    rw [hvaluesSnd]
    refine clearOf_map_firstFree fun p hp q hq ↦ ?_
    obtain ⟨param, hp⟩ := hparts p (List.mem_reverse.mp hp)
    obtain ⟨v, -, rfl⟩ := List.mem_map.mp hq
    exact apart_wantedParts_cValueName hp v
  obtain ⟨hvalues, husedValues⟩ := @allocateEach_eq _
    (by rw [hvaluesSnd]; exact f.pairwise_cValueNames) _ f.paramNames hvaluesClear
  rw [hvaluesSnd, ← List.map_reverse] at husedValues
  have hreturnClear : ClearOf
      ((f.sortedValueIds.map cValueName).reverse.map (firstFree f.paramNames) ++
        (f.params.flatMap KirParam.wantedParts).reverse.map (firstFree f.paramNames))
      ["ck_return"] := by
    refine ClearOf.append (clearOf_map_firstFree fun p hp q hq ↦ ?_)
      (clearOf_map_firstFree fun p hp q hq ↦ ?_) <;> rw [List.mem_singleton.mp hq]
    · obtain ⟨v, -, rfl⟩ := List.mem_map.mp (List.mem_reverse.mp hp)
      exact (apart_return_cValueName v).symm
    · obtain ⟨param, hp⟩ := hparts p (List.mem_reverse.mp hp)
      exact apart_wantedParts_return hp
  have hcallsClear : ClearOf
      (["ck_return"].map (firstFree f.paramNames) ++
        ((f.sortedValueIds.map cValueName).reverse.map (firstFree f.paramNames) ++
          (f.params.flatMap KirParam.wantedParts).reverse.map (firstFree f.paramNames)))
      ((f.callIds.map fun i ↦ (i, callStatusName i)).map Prod.snd) := by
    rw [hcallsSnd]
    refine ClearOf.append (clearOf_map_firstFree fun p hp q hq ↦ ?_)
      (ClearOf.append (clearOf_map_firstFree fun p hp q hq ↦ ?_)
        (clearOf_map_firstFree fun p hp q hq ↦ ?_)) <;>
      obtain ⟨i, -, rfl⟩ := List.mem_map.mp hq
    · rw [List.mem_singleton.mp hp]
      exact apart_return_callStatusName i
    · obtain ⟨v, -, rfl⟩ := List.mem_map.mp (List.mem_reverse.mp hp)
      exact apart_cValueName_callStatusName v i
    · obtain ⟨param, hp⟩ := hparts p (List.mem_reverse.mp hp)
      exact apart_wantedParts_callStatusName hp i
  obtain ⟨hstatus, -⟩ := @allocateEach_eq _
    (by rw [hcallsSnd]; exact pairwise_callStatusNames hcalls) _ f.paramNames hcallsClear
  have hreturn := @firstFree_of_clearOf _ _ f.paramNames hreturnClear _ List.mem_cons_self
  rw [cLayout]
  simp only [hfirst, hused, hvalues, husedValues, hreturn]
  refine congrArg₂ (KirCFunctionLayout.mk _ · _ ·) ?_ ?_
  · rw [List.map_map]
    exact Eq.refl _
  · refine hstatus.trans ?_
    rw [List.map_map]
    exact Eq.refl _

variable {m : KirModule}

theorem flatMap_cLayout_names (f : KirFunction) :
    (f.params.map fun param ↦ (param.value, param.cLayout f.paramNames)).flatMap
        (fun p ↦ p.2.names) = f.params.flatMap f.cParamNames := by
  rw [List.flatMap_map]
  refine List.flatMap_congr fun param _ ↦ ?_
  show (param.cLayout f.paramNames).names = _
  unfold KirParam.cLayout cParamNames
  cases param.typeNode <;> exact Eq.refl _

theorem functionNames_eq (hparams : f.paramNames.Nodup) (hcalls : f.callIds.Nodup) :
    m.functionNames f = f.params.flatMap f.cParamNames ++
      (f.wantedNames m.statusAbi).map (firstFree f.paramNames) := by
  rw [KirModule.functionNames, cLayout_eq hparams hcalls, flatMap_cLayout_names, wantedNames,
    List.map_append, List.map_append, List.map_map, List.map_map]
  cases m.statusAbi with
  | true =>
      by_cases hvoid : f.returnType = .void
      · simp [hvoid, Function.comp_def]
      · simp [hvoid, Function.comp_def]
  | false => simp [Function.comp_def]

theorem pairwise_wantedNames (hcalls : f.callIds.Nodup) (status : Bool) :
    (f.wantedNames status).Pairwise KeptApart := by
  have hreturn : (if status ∧ f.returnType ≠ .void then ["ck_return"]
      else []).Pairwise KeptApart := by
    split
    · exact List.pairwise_singleton _ _
    · exact List.Pairwise.nil
  have hcallNames : (if status then f.callIds.map callStatusName else []).Pairwise KeptApart := by
    split
    · exact pairwise_callStatusNames hcalls
    · exact List.Pairwise.nil
  have hmemReturn : ∀ p ∈ (if status ∧ f.returnType ≠ .void then ["ck_return"] else []),
      p = "ck_return" := by
    intro p hp
    split at hp
    · exact List.mem_singleton.mp hp
    · cases hp
  have hmemCall : ∀ p ∈ (if status then f.callIds.map callStatusName else []),
      ∃ i, p = callStatusName i := by
    intro p hp
    split at hp
    · obtain ⟨i, -, rfl⟩ := List.mem_map.mp hp
      exact ⟨i, Eq.refl _⟩
    · cases hp
  rw [wantedNames]
  refine List.pairwise_append.mpr ⟨List.pairwise_append.mpr ⟨hreturn, f.pairwise_cValueNames,
    fun p hp q hq ↦ ?_⟩, hcallNames, fun p hp q hq ↦ ?_⟩
  · obtain ⟨v, -, rfl⟩ := List.mem_map.mp hq
    rw [hmemReturn p hp]
    exact apart_return_cValueName v
  · obtain ⟨i, rfl⟩ := hmemCall q hq
    rcases List.mem_append.mp hp with hp | hp
    · rw [hmemReturn p hp]
      exact apart_return_callStatusName i
    · obtain ⟨v, -, rfl⟩ := List.mem_map.mp hp
      exact apart_cValueName_callStatusName v i

/-- A name of a parameter is that of the source or made for a part of a slice. -/
theorem mem_cParamNames {param : KirParam} {name : String} (h : name ∈ f.cParamNames param) :
    (name = param.name ∧ param.wantedParts = []) ∨
      ∃ preferred ∈ param.wantedParts, name = firstFree f.paramNames preferred := by
  cases htype : param.typeNode with
  | slice element =>
      rw [cParamNames, htype] at h
      have hparts : param.wantedParts = [param.name ++ "_data", param.name ++ "_len"] := by
        rw [KirParam.wantedParts, htype]
      refine .inr ?_
      rw [hparts]
      rcases List.mem_cons.mp h with rfl | h
      · exact ⟨_, List.mem_cons_self, Eq.refl _⟩
      · exact ⟨_, List.mem_cons_of_mem _ List.mem_cons_self, List.mem_singleton.mp h⟩
  | _ =>
      rw [cParamNames, htype] at h
      refine .inl ⟨List.mem_singleton.mp h, ?_⟩
      rw [KirParam.wantedParts, htype]

theorem nodup_cParamNames (param : KirParam) : (f.cParamNames param).Nodup := by
  unfold cParamNames
  split
  · refine List.nodup_cons.mpr ⟨fun h ↦ ?_, List.nodup_singleton _⟩
    exact firstFree_ne_of_apart (apart_data_len _ _) (List.mem_singleton.mp h)
  · exact List.nodup_singleton _

theorem nodup_flatMap_cParamNames (hparams : f.paramNames.Nodup) :
    (f.params.flatMap f.cParamNames).Nodup := by
  refine List.nodup_flatMap.mpr ⟨fun param _ ↦ nodup_cParamNames param, ?_⟩
  have hpairwise : f.params.Pairwise fun p q ↦ p.name ≠ q.name := List.pairwise_map.mp hparams
  refine hpairwise.imp_of_mem fun {p q} hp hq hne name hname hname' ↦ ?_
  have hmem (param : KirParam) (hparam : param ∈ f.params) : param.name ∈ f.paramNames :=
    List.mem_map_of_mem hparam
  rcases mem_cParamNames hname with ⟨rfl, -⟩ | ⟨preferred, hpreferred, rfl⟩ <;>
    rcases mem_cParamNames hname' with ⟨heq, -⟩ | ⟨preferred', hpreferred', heq⟩
  · exact hne heq
  · exact firstFree_notMem f.paramNames preferred' (heq ▸ hmem p hp)
  · exact firstFree_notMem f.paramNames preferred (heq.symm ▸ hmem q hq)
  · exact firstFree_ne_of_apart (apart_wantedParts hne _ hpreferred _ hpreferred') heq

/-- The names that are made for what has none are all of these forms. -/
theorem mem_wantedNames {status : Bool} {preferred : String}
    (h : preferred ∈ f.wantedNames status) : preferred = "ck_return" ∨
      (∃ v, preferred = cValueName v) ∨ ∃ i, preferred = callStatusName i := by
  rw [wantedNames] at h
  rcases List.mem_append.mp h with h | h
  · rcases List.mem_append.mp h with h | h
    · split at h
      · exact .inl (List.mem_singleton.mp h)
      · cases h
    · obtain ⟨v, -, rfl⟩ := List.mem_map.mp h
      exact .inr (.inl ⟨v, Eq.refl _⟩)
  · split at h
    · obtain ⟨i, -, rfl⟩ := List.mem_map.mp h
      exact .inr (.inr ⟨i, Eq.refl _⟩)
    · cases h

theorem apart_wantedParts_wantedNames {param : KirParam} {name preferred : String}
    (hname : name ∈ param.wantedParts) {status : Bool} (h : preferred ∈ f.wantedNames status) :
    KeptApart name preferred := by
  rcases mem_wantedNames h with rfl | ⟨v, rfl⟩ | ⟨i, rfl⟩
  · exact apart_wantedParts_return hname
  · exact apart_wantedParts_cValueName hname v
  · exact apart_wantedParts_callStatusName hname i

theorem nodup_functionNames (hparams : f.paramNames.Nodup) (hcalls : f.callIds.Nodup) :
    (m.functionNames f).Nodup := by
  rw [functionNames_eq hparams hcalls]
  refine List.nodup_append.mpr ⟨nodup_flatMap_cParamNames hparams, ?_, ?_⟩
  · refine List.Pairwise.map _ (fun p q h ↦ ?_) (pairwise_wantedNames hcalls _)
    exact firstFree_ne_of_apart h
  · rintro name hname name' hname' rfl
    obtain ⟨param, hparam, hname⟩ := List.mem_flatMap.mp hname
    obtain ⟨preferred, hpreferred, heq⟩ := List.mem_map.mp hname'
    rcases mem_cParamNames hname with ⟨rfl, -⟩ | ⟨part, hpart, rfl⟩
    · refine firstFree_notMem f.paramNames preferred ?_
      rw [heq]
      exact List.mem_map_of_mem hparam
    · exact firstFree_ne_of_apart (apart_wantedParts_wantedNames hpart hpreferred) heq.symm

end KirFunction

end CalcKernel
