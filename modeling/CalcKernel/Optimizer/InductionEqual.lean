import CalcKernel.Kir.PlainValues
import CalcKernel.Optimizer.InductionSteps

/-!
# Equal inductions as values

The pairs of an accepted induction equality are of integer type.  In a well-typed function no
store reaches them, so the two values of a pair are not only equal as integers: whatever one
of them holds, the other holds it too.
-/

namespace CalcKernel

open Lib

theorem Env.eq_of_scalar {env : Env} {v w : ValueId} {x : KirValue} (h : env.scalar v = env.scalar w)
    (hx : env.scalar v = some x) : env v = env w :=
  (Env.scalar_eq_some.mp hx).1.trans (Env.scalar_eq_some.mp (h.symm.trans hx)).1.symm

/-- No operator makes a struct. -/
theorem evalBinary_plain {fl : FloatOps} {op : MirBinaryOp} {semantics : KirArithmeticSemantics}
    {x y : KirValue} {n : Nat} {values : List KirValue}
    (h : evalBinary fl op semantics x y n = some values) : ∀ z ∈ values, z.isRecord = false := by
  have hint : ∀ {type : IntegerType} {a b : Int}, integerBinary op semantics type a b n = some values →
      ∀ z ∈ values, z.isRecord = false := by
    intro type a b h
    have hchecked : ∀ {c : Int}, checkedResult type c n = some values →
        ∀ z ∈ values, z.isRecord = false := by
      intro c h
      unfold checkedResult at h
      split at h
      · cases h
        simp [KirValue.isRecord]
      · split at h <;> cases h
        simp [KirValue.isRecord]
    cases semantics with
    | modular =>
        obtain ⟨c, -, rfl⟩ := Option.map_eq_some_iff.mp h
        simp [KirValue.isRecord]
    | checked =>
        cases op with
        | add | sub | mul => exact hchecked h
        | div | mod =>
            simp only [integerBinary] at h
            split at h
            · cases h
            · obtain ⟨c, -, rfl⟩ := Option.map_eq_some_iff.mp h
              simp [KirValue.isRecord]
    | strictFloat => cases h
  cases x with
  | int type x =>
      cases y with
      | int type' y =>
          simp only [evalBinary] at h
          split at h
          · exact hint h
          · cases h
      | _ => cases h
  | float a =>
      cases y with
      | float b =>
          simp only [evalBinary] at h
          split at h
          · obtain ⟨c, -, rfl⟩ := Option.map_eq_some_iff.mp h
            simp [KirValue.isRecord]
          · cases h
      | _ => cases h
  | _ => cases h

namespace Activation

variable {t : TargetModel} {mod : KirModule} {f : KirFunction} {past : List Moment} {frame : Frame}
variable {memory : Memory} {pairs : List (ValueId × ValueId)}

/-- The result of an operation that is available is there, and is no struct. -/
theorem operation_some (h : Activation t f past frame memory) (hf : f.Strict) {i : KirInstruction}
    {v a b : ValueId} {op : MirBinaryOp} {semantics : KirArithmeticSemantics}
    (hi : i ∈ f.instructions) (hv : (i.results.head?).map (·.value) = some v)
    (hkind : i.kind = .binary op a b semantics) (havail : f.Available v frame.site) :
    ∃ x, frame.env.scalar v = some x := by
  obtain ⟨r, hr, rfl⟩ := Option.map_eq_some_iff.mp hv
  obtain ⟨⟨before, memory', values, heval, hcount, -, hresults⟩, -⟩ :=
    h.evaluated_of_result hf hi (by simp [KirInstruction.isComputed, hkind])
      (List.mem_map_of_mem (List.mem_of_head? hr)) havail
  rw [List.head?_eq_getElem?] at hr
  have hlt : 0 < values.length := lt_of_lt_of_le (List.getElem?_eq_some_iff.mp hr).1 hcount
  have hvalue := hresults 0 r _ hr (List.getElem?_eq_getElem hlt)
  simp only [evalInstruction, hkind, Option.bind_eq_some_iff] at heval
  obtain ⟨x, -, y, -, heval⟩ := heval
  have hplain := evalBinary_plain heval values[0] (List.getElem_mem hlt)
  exact ⟨values[0], by simpa [Option.filter, hplain] using hvalue⟩

/-- The pairs among the parameters of one block hold one value. -/
def ParamsShare (f : KirFunction) (pairs : List (ValueId × ValueId)) (env : Env) : Prop :=
  ∀ b ∈ f.blocks, ∀ l ∈ b.params.map (·.value), ∀ r ∈ b.params.map (·.value), (l, r) ∈ pairs →
    env l = env r

/-- Where both values of a pair are available they hold one value, if those of the parameters
do. -/
theorem paired_env (h : Activation t f past frame memory) (hf : f.Strict) (htyped : f.WellTyped mod)
    (hpairs : ∀ p ∈ pairs, f.Equated pairs p.1 p.2)
    (hplain : ∀ p ∈ pairs, f.Plain p.1 ∧ f.Plain p.2) (hparams : ParamsShare f pairs frame.env)
    {l r : ValueId} (hpaired : Paired pairs l r) (hl : f.Available l frame.site)
    (hr : f.Available r frame.site) : frame.env l = frame.env r := by
  have hequal : ParamsEqual f pairs frame.env := fun b hb l hl r hr hmem ↦
    Env.scalar_of_eq (hparams b hb l hl r hr hmem)
  induction hn : f.rank l + f.rank r using Nat.strong_induction_on generalizing l r with
  | _ n ih =>
  subst hn
  have hpair : ∀ l r, (l, r) ∈ pairs → f.Available l frame.site → f.Available r frame.site →
      (∀ a b, Paired pairs a b → f.Available a frame.site → f.Available b frame.site →
        f.rank a + f.rank b < f.rank l + f.rank r → frame.env a = frame.env b) →
      frame.env l = frame.env r := by
    intro l r hmem hl hr ih
    have hscalar := h.paired_scalar hf hpairs hequal (.inr (.inl hmem)) hl hr
    cases hpairs (l, r) hmem with
    | copyLeft hi hleft hkind hpaired =>
        obtain ⟨-, hv, hrank⟩ := h.copied_scalar hf hi hleft hkind hl
        have heq := h.copy_env hf htyped hi hleft hkind (hplain _ hmem).1 hl
        exact heq.trans (ih _ _ hpaired hv hr (Nat.add_lt_add_right hrank _))
    | copyRight hi hright hkind hpaired =>
        obtain ⟨-, hv, hrank⟩ := h.copied_scalar hf hi hright hkind hr
        have heq := h.copy_env hf htyped hi hright hkind (hplain _ hmem).2 hr
        exact (ih _ _ hpaired hl hv (Nat.add_lt_add_left hrank _)).trans heq.symm
    | param hb hleft hright _ =>
        exact hparams _ hb l (List.mem_of_getElem? hleft) r (List.mem_of_getElem? hright) hmem
    | constant hleft hright hleftType hrightType =>
        obtain ⟨type, -, -, hval⟩ := h.constant hf hleft hl
        exact Env.eq_of_scalar hscalar hval
    | operation hi hk hleft hright hiKind hkKind hpairLeft hpairRight =>
        obtain ⟨x, hx⟩ := h.operation_some hf hi hleft hiKind hl
        exact Env.eq_of_scalar hscalar hx
  rcases hpaired with rfl | hmem | hmem
  · rfl
  · exact hpair l r hmem hl hr fun a b hpaired ha hb hlt ↦ ih _ hlt hpaired ha hb rfl
  · refine (hpair r l hmem hr hl fun a b hpaired ha hb hlt ↦ ?_).symm
    exact ih _ (by omega) hpaired ha hb rfl

/-- The pairs of parameters hold one value all along a run. -/
theorem params_share (h : Activation t f past frame memory) (hf : f.Strict)
    (htyped : f.WellTyped mod) (hpairs : ∀ p ∈ pairs, f.Equated pairs p.1 p.2)
    (hplain : ∀ p ∈ pairs, f.Plain p.1 ∧ f.Plain p.2) : ParamsShare f pairs frame.env := by
  refine h.step_induction (P := fun _ env ↦ ParamsShare f pairs env) ?_ ?_ ?_
  · intro first args _ b hb l hl r hr _
    have hunset : ∀ v ∈ b.params.map (·.value),
        Env.empty.setAll ((f.params.map (·.value)).zip args) v = none := fun v hv ↦
      Env.setAll_of_notMem (fun hparam ↦ KirFunction.param_notMem_blockParams hf.values
        (mem_of_mem_map_fst_zip hparam) hb hv) _
    rw [hunset l hl, hunset r hr]
  · intro past frame memory i rest env' h hrest hstep ih b hb l hl r hr hmem
    have hi := KirFunction.mem_instructions.mpr
      ⟨frame.block, h.block_mem, h.head_mem_instructions hrest⟩
    have hkeeps : ∀ v ∈ b.params.map (·.value), f.Plain v → env' v = frame.env v :=
      fun v hv hplain ↦ hstep.plain (htyped.instruction hi) hplain fun hdef ↦
        KirFunction.blockParam_notMem_defs hf.values hi hdef hb hv
    rw [hkeeps l hl (hplain _ hmem).1, hkeeps r hr (hplain _ hmem).2]
    exact ih b hb l hl r hr hmem
  · intro past frame memory edge c xs h hrest htaken hc hxs hlen ih b hb l hl r hr hmem
    obtain ⟨hcMem, hedge, -⟩ := h.follow_edge htaken hc
    by_cases hsame : b = c
    case neg =>
      have hkeeps : ∀ v ∈ b.params.map (·.value),
          frame.env.setAll ((c.params.map (·.value)).zip xs) v = frame.env v := fun v hv ↦
        Env.setAll_of_notMem (fun hzip ↦ hsame
          (KirFunction.param_block_ext hf hb hcMem hv (mem_of_mem_map_fst_zip hzip))) _
      rw [hkeeps l hl, hkeeps r hr]
      exact ih b hb l hl r hr hmem
    subst hsame
    obtain ⟨i, j, hleft, hright, hargs⟩ := (hpairs (l, r) hmem).params hf hb hl hr
    have htarget : edge.target = b.id := (KirFunction.mem_blocks_of_block? hc).2.symm
    obtain ⟨x, y, hx, hy, hpaired⟩ := hargs (frame.block.id, edge)
      (KirFunction.mem_predecessorEdges.mpr ⟨frame.block, h.block_mem, rfl, hedge, htarget⟩)
    have hlength : (b.params.map (·.value)).length = xs.length := by rw [List.length_map, hlen]
    have hnodup := KirFunction.params_nodup hf.values hb
    rw [Env.setAll_params hxs hlength hnodup hleft hx,
      Env.setAll_params hxs hlength hnodup hright hy]
    exact h.paired_env hf htyped hpairs hplain ih hpaired
      (h.edge_arg_available hf hrest hedge (List.mem_of_getElem? hx))
      (h.edge_arg_available hf hrest hedge (List.mem_of_getElem? hy))

end Activation

namespace KirFunction

variable {f : KirFunction} {pairs : List (ValueId × ValueId)} {l r : ValueId}

/-- The values of an accepted pair are of one integer type, the lesser one first. -/
theorem typed_of_pairMatches (hvalues : f.valueIds.Nodup) (h : f.pairMatches pairs l r = true) :
    l < r ∧ ∃ type, (f.valueType? l).bind IntegerType.fromKir = some type ∧
      (f.valueType? r).bind IntegerType.fromKir = some type := by
  unfold pairMatches at h
  split at h
  case h_1 => cases h
  rename_i type htype
  simp only [Bool.and_eq_true, decide_eq_true_eq] at h
  exact ⟨h.1.1, type, valueIntegerType_eq hvalues htype, valueIntegerType_eq hvalues h.1.2⟩

end KirFunction

end CalcKernel
