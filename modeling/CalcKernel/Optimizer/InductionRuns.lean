import CalcKernel.Optimizer.ForwardingSound
import CalcKernel.Optimizer.InductionRewrite

/-!
# Runs of a simplified module

Where the original follows an edge the simplified module follows what is left of it and runs
the copies of the target; every other step is the same step.  After the copies both have the
same values: a dropped parameter gets the value of its source, which is what it would have
been handed.
-/

namespace CalcKernel

open Lib

/-! ## Handing over what is left -/

theorem Env.getAll_eraseAt {env : Env} {args : List ValueId} {xs : List KirValue}
    (h : env.getAll args = some xs) (drop : Nat → Bool) :
    env.getAll (eraseAt drop args) = some (eraseAt drop xs) := by
  induction args generalizing drop xs with
  | nil =>
      cases h
      rfl
  | cons a args ih =>
      obtain ⟨x, hx, h⟩ := Option.bind_eq_some_iff.mp h
      obtain ⟨rest, hrest, rfl⟩ := Option.map_eq_some_iff.mp h
      rw [eraseAt, eraseAt]
      cases drop 0
      · rw [if_neg Bool.false_ne_true, if_neg Bool.false_ne_true, Env.getAll, hx, ih hrest,
          Option.bind_some, Option.map_some]
      · exact ih hrest _

theorem Env.getAll_of_set {env : Env} {args : List ValueId}
    (h : ∀ a ∈ args, ∃ x, env a = some x) : ∃ xs, env.getAll args = some xs := by
  induction args with
  | nil => exact ⟨[], rfl⟩
  | cons a args ih =>
      obtain ⟨x, hx⟩ := h a List.mem_cons_self
      obtain ⟨xs, hxs⟩ := ih fun b hb ↦ h b (List.mem_cons_of_mem _ hb)
      exact ⟨x :: xs, by rw [Env.getAll, hx, hxs]; rfl⟩

theorem Env.set_of_getAll {env : Env} {args : List ValueId} {xs : List KirValue}
    (h : env.getAll args = some xs) {a : ValueId} (ha : a ∈ args) : ∃ x, env a = some x := by
  obtain ⟨k, hk⟩ := List.mem_iff_getElem?.mp ha
  obtain ⟨x, -, hx⟩ := Env.getAll_getElem? h hk
  exact ⟨x, hx⟩

/-- Binding less than everything differs in what is left out only. -/
theorem Env.setAll_eraseAt {l : List (ValueId × KirValue)} (hnodup : (l.map Prod.fst).Nodup)
    {drop : Nat → Bool} (env : Env) {v : ValueId}
    (hv : ∀ (k : Nat) p, drop k = true → l[k]? = some p → p.1 ≠ v) :
    env.setAll (eraseAt drop l) v = env.setAll l v := by
  by_cases hmem : v ∈ l.map Prod.fst
  · obtain ⟨⟨_, x⟩, hp, rfl⟩ := List.mem_map.mp hmem
    obtain ⟨k, hk⟩ := List.mem_iff_getElem?.mp hp
    have hkept : drop k = false := by
      cases hdrop : drop k
      · rfl
      · exact absurd rfl (hv k _ hdrop hk)
    have hleft : (eraseAt drop l).map Prod.fst |>.Nodup :=
      ((eraseAt_sublist drop l).map Prod.fst).nodup hnodup
    rw [setAll_of_mem hnodup hp, setAll_of_mem hleft (mem_eraseAt.mpr ⟨k, hkept, hk⟩)]
  · have hleft : v ∉ (eraseAt drop l).map Prod.fst := fun h ↦
      hmem (((eraseAt_sublist drop l).map Prod.fst).subset h)
    rw [setAll_of_notMem hmem, setAll_of_notMem hleft]

/-! ## Running the copies -/

section Copies

variable {t : TargetModel} {m : KirModule} {values : Env} {todo rest : List KirInstruction}

/-- A copy whose source and result hold one value in the end. -/
def CopiesValue (values : Env) (i : KirInstruction) : Prop :=
  ∃ value typeNode source, i = ⟨i.id, [⟨value, typeNode⟩], .copy source, none, none⟩ ∧
    source < value ∧ values value = values source ∧ ∃ x, values source = some x

/-- Sorted copies bring about the values, from values that lack the results only. -/
theorem reaches_copies {s : State} (hrest : s.frame.rest = todo ++ rest)
    (hcopies : ∀ i ∈ todo, CopiesValue values i)
    (hsorted : todo.Pairwise fun i k ↦ i.firstResult < k.firstResult)
    (henv : ∀ v, (∀ i ∈ todo, i.firstResult ≠ v) → s.frame.env v = values v) :
    (kirMachine t m).Reaches s { s with frame := { s.frame with rest := rest, env := values } } := by
  induction todo generalizing s with
  | nil =>
      have hsame : s.frame.env = values := funext fun v ↦ henv v (by simp)
      obtain ⟨⟨f, b, r, env⟩, callers, memory, printed⟩ := s
      obtain rfl : r = rest := hrest
      obtain rfl : env = values := hsame
      exact .refl _
  | cons i todo ih =>
      obtain ⟨value, typeNode, source, hi, hlt, hshare, x, hx⟩ := hcopies i List.mem_cons_self
      obtain ⟨hlater, hsorted⟩ := List.pairwise_cons.mp hsorted
      have hfirst : i.firstResult = value := by
        rw [KirInstruction.firstResult, hi]
        rfl
      -- the source is no result of a copy still to run
      have hsource : s.frame.env source = some x := by
        rw [henv source, hx]
        intro k hk heq
        rcases List.mem_cons.mp hk with rfl | hk
        · exact hlt.ne (heq.symm.trans hfirst)
        · exact (hlt.trans (hfirst ▸ hlater k hk)).ne heq.symm
      have hstep : (kirMachine t m).step s = .next { s with
          frame := { s.frame with rest := todo ++ rest, env := s.frame.env.set value x } } := by
        show step t m s = _
        rw [step, hrest, List.cons_append]
        dsimp only
        rw [hi]
        simp [stepInstruction, executeInstruction, evalInstruction, hsource, Env.bindResults,
          Env.setAll]
      refine .head hstep (ih rfl (fun k hk ↦ hcopies k (List.mem_cons_of_mem _ hk)) hsorted ?_)
      intro v hv
      by_cases hvalue : v = value
      · subst hvalue
        rw [hshare, hx]
        exact Env.set_same _ _ _
      · refine (Env.set_of_ne _ hvalue _).trans (henv v fun k hk heq ↦ ?_)
        rcases List.mem_cons.mp hk with rfl | hk
        · exact hvalue (heq.symm.trans hfirst)
        · exact hv k hk heq

end Copies

/-! ## The simplified state -/

section Simplify

variable (prepared : List PreparedCopy)

def Frame.simplify (F : Frame) : Frame :=
  ⟨F.function.simplify prepared, F.block.simplify prepared F.function.id, F.rest, F.env⟩

def State.simplify (s : State) : State :=
  { s with
    frame := s.frame.simplify prepared
    callers := s.callers.map fun c ↦ ⟨c.frame.simplify prepared, c.results⟩ }

variable {prepared} {f : KirFunction} {b : KirBlock} {m : KirModule} {env : Env}

theorem KirFunction.simplify_block? (id : BlockId) :
    (f.simplify prepared).block? id = (f.block? id).map (·.simplify prepared f.id) := by
  rw [block?, block?, simplify, List.find?_map]
  rfl

theorem KirModule.simplify_function? (name : String) :
    (m.simplify prepared).function? name = (m.function? name).map (·.simplify prepared) := by
  rw [function?, function?, simplify, List.find?_map]
  rfl

theorem KirTerminator.repair_taken {function : FunctionId} {terminator : KirTerminator} :
    (terminator.repair prepared function).taken env =
      (terminator.taken env).map (repairEdge prepared function) := by
  cases terminator with
  | «return» | jump => rfl
  | branch condition thenEdge elseEdge =>
      rw [repair, taken, taken, Option.map_map]
      congr 1
      funext c
      cases c <;> rfl

/-- A block without parameters gets no copies. -/
theorem BlockCopies.eq_nil {drop : Nat → Bool} {copies : List KirInstruction}
    (h : BlockCopies f b drop copies) (hparams : b.params = []) : copies = [] := by
  refine List.eq_nil_iff_forall_not_mem.mpr fun i hi ↦ ?_
  obtain ⟨k, param, -, -, hparam, -⟩ := h.copy i hi
  rw [hparams] at hparam
  cases hparam

end Simplify

/-! ## The simulation -/

/-- Every frame runs a function of the module. -/
structure State.Inside (m : KirModule) (s : State) : Prop where
  frame : s.frame.function ∈ m.functions
  callers : ∀ c ∈ s.callers, c.frame.function ∈ m.functions

section Inside

variable {t : TargetModel} {m : KirModule} {s s' : State}

theorem start_inside {name : String} {args : List KirValue} {memory : Memory}
    (h : m.start name args memory = some s) : s.Inside m := by
  obtain ⟨frame, hframe, rfl⟩ := Option.map_eq_some_iff.mp h
  obtain ⟨f, hf, henter⟩ := Option.bind_eq_some_iff.mp hframe
  obtain ⟨-, b, -, rfl⟩ := KirFunction.enter_eq_some henter
  exact ⟨(KirModule.mem_functions_of_function? hf).1, by simp⟩

theorem step_inside (hs : s.Inside m) (h : step t m s = .next s') : s'.Inside m := by
  unfold step at h
  split at h
  · unfold stepTerminator at h
    split at h
    · split at h
      case h_2 => cases h
      unfold resume at h
      split at h
      case h_1 => cases h
      rename_i caller callers hcallers
      have hinside := hs.callers
      rw [hcallers] at hinside
      split at h
      · cases h
        exact ⟨hinside caller List.mem_cons_self, fun c hc ↦ hinside c (List.mem_cons_of_mem _ hc)⟩
      · cases h
    · split at h
      · rename_i frame hframe
        cases h
        obtain ⟨edge, -, hfollow⟩ := Option.bind_eq_some_iff.mp hframe
        obtain ⟨b, xs, -, -, -, rfl⟩ := Frame.follow_eq_some hfollow
        exact ⟨hs.frame, hs.callers⟩
      · cases h
  · unfold stepInstruction at h
    split at h
    · split at h
      · rename_i callee hcallee
        cases h
        obtain ⟨f, hf, hcallee⟩ := Option.bind_eq_some_iff.mp hcallee
        obtain ⟨xs, -, henter⟩ := Option.bind_eq_some_iff.mp hcallee
        obtain ⟨-, b, -, rfl⟩ := KirFunction.enter_eq_some henter
        refine ⟨(KirModule.mem_functions_of_function? hf).1, fun c hc ↦ ?_⟩
        rcases List.mem_cons.mp hc with rfl | hc
        · exact hs.frame
        · exact hs.callers c hc
      · cases h
    · split at h
      · cases h
        exact ⟨hs.frame, hs.callers⟩
      · cases h
      · cases h

end Inside

theorem KirModule.blockIds_nodup {m : KirModule} (h : m.valueErrors = []) :
    (m.functions.flatMap (·.blockIds)).Nodup := by
  obtain ⟨hids, -⟩ := List.append_eq_nil_iff.mp h
  obtain ⟨hids, -⟩ := List.append_eq_nil_iff.mp hids
  obtain ⟨-, hblocks⟩ := List.append_eq_nil_iff.mp hids
  exact (duplicateErrors_eq_nil.mp hblocks).1

/-- The module is one the pass is meant for: checked, well-typed, entered without block
arguments. -/
structure Simplifiable (m : KirModule) : Prop where
  values : m.valueErrors = []
  typed : m.WellTyped
  entries : ∀ f ∈ m.functions, f.PlainEntry

namespace Simplifiable

variable {t : TargetModel} {m : KirModule} {prepared : List PreparedCopy} {f : KirFunction}
variable {b : KirBlock} {past : List Moment} {frame : Frame} {memory : Memory} {s s' : State}

theorem strict (hm : Simplifiable m) (hf : f ∈ m.functions) : f.Strict :=
  KirFunction.strict_of_errors hm.values hf

theorem copies (hm : Simplifiable m) (hprepared : PreparedCopies m prepared)
    (hf : f ∈ m.functions) (hb : b ∈ f.blocks) :
    BlockCopies f b (droppedAt prepared f.id b.id) (copiesAt prepared f.id b.id) :=
  hprepared.block (KirModule.blockIds_nodup hm.values) hf hb
    (KirFunction.params_nodup (hm.strict hf).values hb)

/-- Along a run the two values of an accepted pair of parameters are one. -/
theorem source_env (hm : Simplifiable m) (hf : f ∈ m.functions)
    (h : Activation t f past frame memory) (hb : b ∈ f.blocks) {source value : ValueId}
    (hsource : source ∈ b.params.map (·.value)) (hvalue : value ∈ b.params.map (·.value))
    {pairs : List (ValueId × ValueId)} (hpair : (source, value) ∈ pairs)
    (hpairs : ∀ q ∈ pairs, f.pairMatches pairs q.1 q.2 = true) :
    frame.env value = frame.env source := by
  have hstrict := hm.strict hf
  refine (h.params_share hstrict (hm.typed.functions f hf) (fun q hq ↦ ?_) (fun q hq ↦ ?_) b hb
    source hsource value hvalue hpair).symm
  · exact KirFunction.equated_of_pairMatches hstrict.values hstrict.blocks (hpairs q hq)
  · obtain ⟨-, type, hleft, hright⟩ :=
      KirFunction.typed_of_pairMatches hstrict.values (hpairs q hq)
    exact ⟨KirFunction.plain_of_integerType hleft, KirFunction.plain_of_integerType hright⟩

/-- The copies of a block bring about what its parameters hold. -/
theorem copies_value (hm : Simplifiable m) (hprepared : PreparedCopies m prepared)
    (hf : f ∈ m.functions) (h : Activation t f past frame memory) (hb : b ∈ f.blocks)
    (hset : ∀ v ∈ b.params.map (·.value), ∃ x, frame.env v = some x) :
    ∀ i ∈ copiesAt prepared f.id b.id, CopiesValue frame.env i := by
  intro i hi
  obtain ⟨k, param, source, -, hparam, hcopy, hsource, pairs, hpair, hpairs⟩ :=
    (hm.copies hprepared hf hb).copy i hi
  have hvalue : param.value ∈ b.params.map (·.value) :=
    List.mem_map_of_mem (List.mem_of_getElem? hparam)
  obtain ⟨hlt, -⟩ := KirFunction.typed_of_pairMatches (hm.strict hf).values (hpairs _ hpair)
  exact ⟨param.value, param.typeNode, source, hcopy, hlt,
    hm.source_env hf h hb hsource hvalue hpair hpairs, hset source hsource⟩

/-- The simplified module follows what is left of an edge and runs the copies of its target. -/
theorem follow (hm : Simplifiable m) (hprepared : PreparedCopies m prepared) (hs : s.Active t)
    (hinside : s.Inside m) (hrest : s.frame.rest = []) {edge : KirEdge} {frame' : Frame}
    (htaken : s.frame.block.terminator.taken s.frame.env = some edge)
    (hfollow : s.frame.follow edge = some frame') :
    ∃ frame₀, (s.frame.simplify prepared).follow
        (repairEdge prepared s.frame.function.id edge) = some frame₀ ∧
      (kirMachine t (m.simplify prepared)).Reaches { s.simplify prepared with frame := frame₀ }
        ({ s with frame := frame' }.simplify prepared) := by
  obtain ⟨past, hact⟩ := hs.frame
  have hact' := hact.follow hrest htaken hfollow
  have hf := hinside.frame
  obtain ⟨b, xs, hb, hxs, hlen, rfl⟩ := Frame.follow_eq_some hfollow
  obtain ⟨hbMem, hbId⟩ := KirFunction.mem_blocks_of_block? hb
  have hnodup := KirFunction.params_nodup (hm.strict hf).values hbMem
  have hcopies := hm.copies hprepared hf hbMem
  have hzip : (((b.params.map (·.value)).zip xs).map Prod.fst).Nodup := by
    rwa [List.map_fst_zip (by rw [List.length_map, hlen])]
  have hset : ∀ v ∈ b.params.map (·.value), ∃ x,
      s.frame.env.setAll ((b.params.map (·.value)).zip xs) v = some x := by
    intro v hv
    obtain ⟨k, hk⟩ := List.mem_iff_getElem?.mp hv
    obtain ⟨hlt, -⟩ := List.getElem?_eq_some_iff.mp hk
    rw [List.length_map, hlen] at hlt
    refine ⟨xs[k], Env.setAll_of_mem hzip (List.mem_iff_getElem?.mpr ⟨k, ?_⟩) _⟩
    exact List.getElem?_zip_eq_some.mpr ⟨hk, List.getElem?_eq_getElem hlt⟩
  have hleft : (eraseAt (droppedAt prepared s.frame.function.id b.id) b.params).length =
      (eraseAt (droppedAt prepared s.frame.function.id b.id) xs).length :=
    length_eraseAt_congr hlen _
  refine ⟨⟨s.frame.function.simplify prepared, b.simplify prepared s.frame.function.id,
    copiesAt prepared s.frame.function.id b.id ++ b.instructions, s.frame.env.setAll
      (eraseAt (droppedAt prepared s.frame.function.id b.id)
        ((b.params.map (·.value)).zip xs))⟩, ?_, ?_⟩
  · rw [Frame.follow, Frame.simplify, repairEdge, KirFunction.simplify_block?, hb,
      ← hbId, Option.map_some, Option.bind_some, Env.getAll_eraseAt hxs, Option.bind_some,
      KirBlock.simplify, if_pos hleft, ← eraseAt_map, eraseAt_zip]
  · refine reaches_copies rfl (hm.copies_value hprepared hf hact' hbMem hset) hcopies.sorted ?_
    intro v hv
    refine Env.setAll_eraseAt hzip _ ?_
    rintro k ⟨w, x⟩ hdrop hk rfl
    obtain ⟨hparam, -⟩ := List.getElem?_zip_eq_some.mp hk
    rw [List.getElem?_map, Option.map_eq_some_iff] at hparam
    obtain ⟨param, hparam, rfl⟩ := hparam
    obtain ⟨i, hi, hresults⟩ := hcopies.dropped k param hdrop hparam
    refine hv i hi ?_
    rw [KirInstruction.firstResult, KirInstruction.defs, hresults]
    rfl

/-- Where the kept arguments of an edge are set, all are: a dropped one has the value of its
source, which is a parameter of lesser identity. -/
theorem args_set (hm : Simplifiable m) (hprepared : PreparedCopies m prepared)
    (hf : f ∈ m.functions) (h : Activation t f past frame memory) (hrest : frame.rest = [])
    {edge : KirEdge} (hedge : edge ∈ frame.block.terminator.edges) {c : KirBlock}
    (hc : f.block? edge.target = some c)
    (hkept : ∀ (k : Nat) a, droppedAt prepared f.id c.id k = false → edge.args[k]? = some a →
      ∃ x, frame.env a = some x) {k : Nat} {param : KirBlockParam} {a : ValueId}
    (hparam : c.params[k]? = some param) (ha : edge.args[k]? = some a) :
    ∃ x, frame.env a = some x := by
  have hstrict := hm.strict hf
  obtain ⟨hcMem, hcId⟩ := KirFunction.mem_blocks_of_block? hc
  induction hn : param.value using Nat.strong_induction_on generalizing k param a with
  | _ n ih =>
  subst hn
  cases hdrop : droppedAt prepared f.id c.id k
  · exact hkept k a hdrop ha
  obtain ⟨i, hi, hresults⟩ := (hm.copies hprepared hf hcMem).dropped k param hdrop hparam
  obtain ⟨-, param', source, -, hparam', hcopy, hsource, pairs, hpair, hpairs⟩ :=
    (hm.copies hprepared hf hcMem).copy i hi
  have hvalue : param'.value = param.value := by
    rw [hcopy] at hresults
    simpa using congrArg (List.map (·.value)) hresults
  rw [hvalue] at hpair
  have hequated : ∀ q ∈ pairs, f.Equated pairs q.1 q.2 := fun q hq ↦
    KirFunction.equated_of_pairMatches hstrict.values hstrict.blocks (hpairs q hq)
  have hplain : ∀ q ∈ pairs, f.Plain q.1 ∧ f.Plain q.2 := by
    intro q hq
    obtain ⟨-, type, hleft, hright⟩ :=
      KirFunction.typed_of_pairMatches hstrict.values (hpairs q hq)
    exact ⟨KirFunction.plain_of_integerType hleft, KirFunction.plain_of_integerType hright⟩
  obtain ⟨hlt, -⟩ := KirFunction.typed_of_pairMatches hstrict.values (hpairs _ hpair)
  have hmem : param.value ∈ c.params.map (·.value) :=
    List.mem_map_of_mem (List.mem_of_getElem? hparam)
  obtain ⟨j, k', hj, hk', hargs⟩ := (hequated _ hpair).params hstrict hcMem hsource hmem
  obtain ⟨x, y, hx, hy, hpaired⟩ := hargs (frame.block.id, edge)
    (KirFunction.mem_predecessorEdges.mpr ⟨frame.block, h.block_mem, rfl, hedge, hcId.symm⟩)
  -- the place of the dropped parameter is the one the pair names
  obtain rfl : k = k' := by
    have hnodup := KirFunction.params_nodup hstrict.values hcMem
    have hk : (c.params.map (·.value))[k]? = some param.value := by rw [List.getElem?_map, hparam]; rfl
    obtain ⟨hlt, hget⟩ := List.getElem?_eq_some_iff.mp hk
    obtain ⟨hlt', hget'⟩ := List.getElem?_eq_some_iff.mp hk'
    exact hnodup.getElem_inj_iff.mp (hget.trans hget'.symm)
  obtain rfl := Option.some.inj (ha.symm.trans hy)
  have htyped := hm.typed.functions f hf
  rw [← h.paired_env hstrict htyped hequated hplain (h.params_share hstrict htyped hequated hplain)
    hpaired (h.edge_arg_available hstrict hrest hedge (List.mem_of_getElem? hx))
    (h.edge_arg_available hstrict hrest hedge (List.mem_of_getElem? ha))]
  rw [List.getElem?_map, Option.map_eq_some_iff] at hj
  obtain ⟨sourceParam, hj, rfl⟩ := hj
  exact ih sourceParam.value hlt hj hx rfl

/-- What is left of an edge cannot be followed where the edge cannot be. -/
theorem follow_none (hm : Simplifiable m) (hprepared : PreparedCopies m prepared) (hs : s.Active t)
    (hinside : s.Inside m) (hrest : s.frame.rest = []) {edge : KirEdge}
    (hedge : edge ∈ s.frame.block.terminator.edges) (hfollow : s.frame.follow edge = none) :
    (s.frame.simplify prepared).follow (repairEdge prepared s.frame.function.id edge) = none := by
  obtain ⟨past, hact⟩ := hs.frame
  have hf := hinside.frame
  obtain ⟨c, hc, hlen, -⟩ := (hm.strict hf).edges s.frame.block hact.block_mem edge hedge
  obtain ⟨hcMem, hcId⟩ := KirFunction.mem_blocks_of_block? hc
  refine Option.eq_none_iff_forall_not_mem.mpr fun frame' hframe' ↦ ?_
  obtain ⟨c', xs', hc', hxs', -, -⟩ := Frame.follow_eq_some hframe'
  obtain ⟨xs, hxs⟩ : ∃ xs, s.frame.env.getAll edge.args = some xs := by
    refine Env.getAll_of_set fun a ha ↦ ?_
    obtain ⟨k, hk⟩ := List.mem_iff_getElem?.mp ha
    have hklt := (List.getElem?_eq_some_iff.mp hk).1
    rw [hlen] at hklt
    refine hm.args_set hprepared hf hact hrest hedge hc (fun j a hj ha ↦ ?_)
      (List.getElem?_eq_getElem hklt) hk
    refine Env.set_of_getAll hxs' (mem_eraseAt.mpr ⟨j, ?_, ha⟩)
    rw [← hcId]
    exact hj
  rw [Frame.follow, hc, Option.bind_some, hxs, Option.bind_some,
    if_pos (hlen.symm.trans (Env.getAll_length hxs).symm)] at hfollow
  cases hfollow

/-- Entering a function is entering it simplified. -/
theorem enter (hm : Simplifiable m) (hprepared : PreparedCopies m prepared) (hf : f ∈ m.functions)
    (args : List KirValue) :
    (f.simplify prepared).enter args = (f.enter args).map (·.simplify prepared) := by
  have hparams : (f.simplify prepared).params = f.params := rfl
  have hblocks : (f.simplify prepared).blocks = f.blocks.map (·.simplify prepared f.id) := rfl
  unfold KirFunction.enter
  rw [hparams, hblocks, List.head?_map]
  by_cases hlen : f.params.length = args.length
  case neg => rw [if_neg hlen, if_neg hlen, Option.map_none]
  rw [if_pos hlen, if_pos hlen]
  cases hb : f.blocks.head? with
  | none => rfl
  | some b =>
      have hempty : copiesAt prepared f.id b.id = [] :=
        (hm.copies hprepared hf (List.mem_of_head? hb)).eq_nil (hm.entries f hf b hb)
      simp only [Option.map_some, Frame.simplify, KirBlock.simplify, hempty, List.nil_append]

theorem resume (s : State) (value : Option KirValue) :
    CalcKernel.resume (s.simplify prepared) value =
      (CalcKernel.resume s value).map (·.simplify prepared) := by
  obtain ⟨frame, callers, memory, printed⟩ := s
  cases callers with
  | nil => rfl
  | cons caller callers =>
      unfold CalcKernel.resume
      simp only [State.simplify, List.map_cons, Frame.simplify]
      cases caller.frame.env.bindResults caller.results value.toList <;> rfl

/-- Running an instruction is running it in the simplified state. -/
theorem stepInstruction (hm : Simplifiable m) (hprepared : PreparedCopies m prepared)
    (s : State) (i : KirInstruction) (rest : List KirInstruction) :
    CalcKernel.stepInstruction t (m.simplify prepared) (s.simplify prepared) i rest =
      (CalcKernel.stepInstruction t m s i rest).map (·.simplify prepared) := by
  unfold CalcKernel.stepInstruction
  have henv : (s.simplify prepared).frame.env = s.frame.env := rfl
  have hmemory : (s.simplify prepared).memory = s.memory := rfl
  rw [henv, hmemory]
  split
  · rename_i name args hkind
    rw [KirModule.simplify_function?]
    cases hf : m.function? name with
    | none => rfl
    | some f =>
        rw [Option.map_some, Option.bind_some, Option.bind_some]
        cases s.frame.env.getAll args with
        | none => rfl
        | some xs =>
            rw [Option.bind_some, Option.bind_some,
              hm.enter hprepared (KirModule.mem_functions_of_function? hf).1]
            cases f.enter xs <;> rfl
  · cases executeInstruction t s.frame.env s.memory i with
    | none => rfl
    | some o => cases o <;> rfl

/-- A return is the same return. -/
theorem stepTerminator_return (s : State) {value : Option ValueId}
    {memory : List (MemoryRegionId × MemoryVersionId)} {effectOrder : Nat}
    (h : s.frame.block.terminator = .return value memory effectOrder) :
    stepTerminator (s.simplify prepared) = (stepTerminator s).map (·.simplify prepared) := by
  have hsame : (s.simplify prepared).frame.block.terminator = .return value memory effectOrder := by
    have hrepair : (s.simplify prepared).frame.block.terminator =
      s.frame.block.terminator.repair prepared s.frame.function.id := rfl
    rw [hrepair, h]
    rfl
  have henv : (s.simplify prepared).frame.env = s.frame.env := rfl
  unfold stepTerminator
  rw [hsame, h]
  dsimp only
  rw [henv]
  cases returnValue s.frame.env value with
  | none => rfl
  | some v => exact resume s v

theorem edges_simplify (s : State)
    (h : ∀ value memory effectOrder,
      s.frame.block.terminator ≠ .return value memory effectOrder) :
    stepTerminator (s.simplify prepared) =
      match ((s.frame.block.terminator.taken s.frame.env).map
        (repairEdge prepared s.frame.function.id)).bind (s.frame.simplify prepared).follow with
      | some frame => .next { s.simplify prepared with frame := frame }
      | none => .stuck := by
  have hrepair : (s.simplify prepared).frame.block.terminator =
    s.frame.block.terminator.repair prepared s.frame.function.id := rfl
  have hedges : ∀ value memory effectOrder,
      (s.simplify prepared).frame.block.terminator ≠ .return value memory effectOrder := by
    intro value memory effectOrder heq
    rw [hrepair] at heq
    cases hterminator : s.frame.block.terminator with
    | «return» value memory effectOrder => exact h value memory effectOrder hterminator
    | jump | branch =>
        rw [hterminator] at heq
        cases heq
  have henv : (s.simplify prepared).frame.env = s.frame.env := rfl
  have hframe : (s.simplify prepared).frame = s.frame.simplify prepared := rfl
  have hstep := stepTerminator_follow hedges
  rw [hrepair, henv, KirTerminator.repair_taken, hframe] at hstep
  exact hstep

/-- Taking an edge is taking what is left of it, and running the copies. -/
theorem stepTerminator_next (hm : Simplifiable m) (hprepared : PreparedCopies m prepared)
    (hs : s.Active t) (hinside : s.Inside m) (hrest : s.frame.rest = [])
    (hedges : ∀ value memory effectOrder,
      s.frame.block.terminator ≠ .return value memory effectOrder)
    (h : stepTerminator s = .next s') :
    (kirMachine t (m.simplify prepared)).ReachesPlus (s.simplify prepared)
      (s'.simplify prepared) := by
  rw [stepTerminator_follow hedges] at h
  split at h
  case h_2 => cases h
  rename_i frame' hframe'
  cases h
  obtain ⟨edge, htaken, hfollow⟩ := Option.bind_eq_some_iff.mp hframe'
  obtain ⟨frame₀, hfollow₀, hreaches⟩ := hm.follow hprepared hs hinside hrest htaken hfollow
  refine Relation.TransGen.head' ?_ hreaches
  show step t (m.simplify prepared) (s.simplify prepared) = _
  have hrest' : (s.simplify prepared).frame.rest = [] := hrest
  rw [step, hrest']
  dsimp only
  rw [edges_simplify s hedges, htaken, Option.map_some, Option.bind_some, hfollow₀]

theorem stepTerminator_stuck (hm : Simplifiable m) (hprepared : PreparedCopies m prepared)
    (hs : s.Active t) (hinside : s.Inside m) (hrest : s.frame.rest = [])
    (hedges : ∀ value memory effectOrder,
      s.frame.block.terminator ≠ .return value memory effectOrder)
    (h : stepTerminator s = .stuck) : stepTerminator (s.simplify prepared) = .stuck := by
  rw [stepTerminator_follow hedges] at h
  rw [edges_simplify s hedges]
  cases htaken : s.frame.block.terminator.taken s.frame.env with
  | none => rfl
  | some edge =>
      rw [htaken, Option.bind_some] at h
      rw [Option.map_some, Option.bind_some]
      cases hfollow : s.frame.follow edge with
      | some frame' =>
          rw [hfollow] at h
          cases h
      | none =>
          rw [hm.follow_none hprepared hs hinside hrest
            (KirTerminator.taken_mem_edges htaken) hfollow]

/-- Where the module gets stuck, so does the simplified one. -/
theorem step_stuck (hm : Simplifiable m) (hprepared : PreparedCopies m prepared)
    (hs : s.Active t) (hinside : s.Inside m) (h : step t m s = .stuck) :
    step t (m.simplify prepared) (s.simplify prepared) = .stuck := by
  cases hrest : s.frame.rest with
  | nil =>
      have hrest' : (s.simplify prepared).frame.rest = [] := hrest
      rw [step, hrest] at h
      rw [step, hrest']
      cases hkind : s.frame.block.terminator with
      | «return» value memory effectOrder =>
          exact (stepTerminator_return s hkind).trans (congrArg _ h)
      | jump | branch =>
          refine hm.stepTerminator_stuck hprepared hs hinside hrest ?_ h
          simp [hkind]
  | cons i rest =>
      have hrest' : (s.simplify prepared).frame.rest = i :: rest := hrest
      rw [step, hrest] at h
      rw [step, hrest']
      exact (hm.stepInstruction hprepared s i rest).trans (congrArg _ h)

/-- The simplified module does what the module does. -/
theorem simulation (hm : Simplifiable m) (hprepared : PreparedCopies m prepared) :
    ForwardSimulation (kirMachine t m) (kirMachine t (m.simplify prepared))
      (fun s s' ↦ s' = s.simplify prepared ∧ s.Active t ∧ s.Inside m) Eq where
  next := by
    rintro s s₁ _ ⟨rfl, hs, hinside⟩ h
    have h : step t m s = .next s₁ := h
    refine ⟨s₁.simplify prepared, ?_, rfl, step_active hs h, step_inside hinside h⟩
    have hone : step t (m.simplify prepared) (s.simplify prepared) =
        (step t m s).map (·.simplify prepared) →
        (kirMachine t (m.simplify prepared)).ReachesPlus (s.simplify prepared)
          (s₁.simplify prepared) := fun hstep ↦ .single (hstep.trans (congrArg _ h))
    cases hrest : s.frame.rest with
    | nil =>
        have hterminator : step t m s = stepTerminator s := by rw [step, hrest]
        cases hkind : s.frame.block.terminator with
        | «return» value memory effectOrder =>
            refine hone ?_
            have hrest' : (s.simplify prepared).frame.rest = [] := hrest
            rw [hterminator, step, hrest']
            exact stepTerminator_return s hkind
        | jump | branch =>
            refine hm.stepTerminator_next hprepared hs hinside hrest ?_ (hterminator.symm.trans h)
            simp [hkind]
    | cons i rest =>
        refine hone ?_
        have hrest' : (s.simplify prepared).frame.rest = i :: rest := hrest
        rw [step, step, hrest', hrest]
        exact hm.stepInstruction hprepared s i rest
  halt := by
    rintro s o _ ⟨rfl, hs, hinside⟩ h
    have h : step t m s = .halt o := h
    refine ⟨o, Machine.halts_of_step_halt ?_, rfl⟩
    show step t (m.simplify prepared) (s.simplify prepared) = .halt o
    cases hrest : s.frame.rest with
    | nil =>
        have hrest' : (s.simplify prepared).frame.rest = [] := hrest
        have hterminator : step t m s = stepTerminator s := by rw [step, hrest]
        rw [hterminator] at h
        cases hkind : s.frame.block.terminator with
        | «return» value memory effectOrder =>
            rw [step, hrest']
            exact (stepTerminator_return s hkind).trans (congrArg _ h)
        | jump | branch =>
            rw [stepTerminator_follow (by simp [hkind])] at h
            split at h <;> cases h
    | cons i rest =>
        have hrest' : (s.simplify prepared).frame.rest = i :: rest := hrest
        rw [step, hrest] at h
        rw [step, hrest']
        exact (hm.stepInstruction hprepared s i rest).trans (congrArg _ h)

theorem start (hm : Simplifiable m) (hprepared : PreparedCopies m prepared) (name : String)
    (args : List KirValue) (memory : Memory) :
    (m.simplify prepared).start name args memory =
      (m.start name args memory).map (·.simplify prepared) := by
  rw [KirModule.start, KirModule.start, KirModule.simplify_function?]
  cases hf : m.function? name with
  | none => rfl
  | some f =>
      rw [Option.map_some, Option.bind_some, Option.bind_some,
        hm.enter hprepared (KirModule.mem_functions_of_function? hf).1]
      cases f.enter args <;> rfl

/-- A call of any function ends in both modules alike, or in neither. -/
theorem equivalent (hm : Simplifiable m) (hprepared : PreparedCopies m prepared) {name : String}
    {args : List KirValue} {memory : Memory} (h : m.start name args memory = some s) :
    (m.simplify prepared).start name args memory = some (s.simplify prepared) ∧
      (∀ o, (kirMachine t (m.simplify prepared)).Halts (s.simplify prepared) o ↔
        (kirMachine t m).Halts s o) ∧
      ((kirMachine t (m.simplify prepared)).Diverges (s.simplify prepared) ↔
        (kirMachine t m).Diverges s) ∧
      ((kirMachine t (m.simplify prepared)).GetsStuck (s.simplify prepared) ↔
        (kirMachine t m).GetsStuck s) := by
  refine ⟨by rw [hm.start hprepared, h, Option.map_some], ?_⟩
  refine (hm.simulation hprepared).equivalent ?_ ⟨rfl, start_active h, start_inside h⟩
  rintro s _ ⟨rfl, hs, hinside⟩ hstep
  exact ⟨_, .refl _, hm.step_stuck hprepared hs hinside hstep⟩

end Simplifiable

end CalcKernel
