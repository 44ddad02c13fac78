import CalcKernel.Kir.Availability

/-!
# Evaluated instructions

Along a run of a strict function, what an instruction computed agrees with its operands
wherever its results are available: no operand is defined again in between.  Struct values
are left out, their fields can be stored to.
-/

namespace CalcKernel

open Lib Relation

/-! ## Environments without structs -/

namespace Env

/-- The value, unless it is a struct. -/
def scalar (env : Env) (v : ValueId) : Option KirValue := (env v).filter fun x ↦ !x.isRecord

theorem scalar_eq_some {env : Env} {v : ValueId} {x : KirValue} :
    env.scalar v = some x ↔ env v = some x ∧ x.isRecord = false := by
  simp [scalar, Option.filter_eq_some_iff]

theorem scalar_congr {env env' : Env} {v : ValueId}
    (h : ∀ x, x.isRecord = false → (env' v = some x ↔ env v = some x)) :
    env'.scalar v = env.scalar v := by
  ext x
  rw [scalar_eq_some, scalar_eq_some]
  exact and_congr_left fun hx ↦ h x hx

theorem scalar_of_eq {env env' : Env} {v w : ValueId} (h : env' v = env w) :
    env'.scalar v = env.scalar w := by
  rw [scalar, scalar, h]

theorem scalar_of_boolOperand {env : Env} {v : ValueId} {x : Bool}
    (h : boolOperand env v = some x) : env.scalar v = some (.bool x) := by
  unfold boolOperand at h
  split at h
  · rename_i hv
    cases h
    exact scalar_eq_some.mpr ⟨hv, rfl⟩
  · cases h

theorem intOperand_of_scalar {env : Env} {v : ValueId} {type : IntegerType} {x : Int}
    (h : env.scalar v = some (.int type x)) : intOperand env v = some x := by
  rw [intOperand, (scalar_eq_some.mp h).1]

theorem sliceOperand_of_scalar {env : Env} {v : ValueId} {data len : Int}
    (h : env.scalar v = some (.slice data len)) : sliceOperand env v = some (data, len) := by
  rw [sliceOperand, (scalar_eq_some.mp h).1]

theorem setAll_of_mem {l : List (ValueId × KirValue)} (hnodup : (l.map Prod.fst).Nodup)
    {v : ValueId} {x : KirValue} (h : (v, x) ∈ l) (env : Env) : env.setAll l v = some x := by
  induction l generalizing env with
  | nil => cases h
  | cons p l ih =>
      rw [List.map_cons, List.nodup_cons] at hnodup
      rcases List.mem_cons.mp h with rfl | h
      · rw [setAll, setAll_of_notMem hnodup.1, set_same]
      · exact ih hnodup.2 h _

theorem bindResults_eq_some {env env' : Env} {results : List KirResult} {values : List KirValue}
    (h : env.bindResults results values = some env') :
    results.length ≤ values.length ∧
      env' = env.setAll ((results.map (·.value)).zip values) := by
  unfold bindResults at h
  split at h
  · rename_i hlen
    exact ⟨hlen, (Option.some.inj h).symm⟩
  · cases h

/-- A bound result holds the value in its place. -/
theorem bindResults_getElem? {env env' : Env} {results : List KirResult} {values : List KirValue}
    (h : env.bindResults results values = some env') (hnodup : (results.map (·.value)).Nodup)
    {k : Nat} {r : KirResult} {x : KirValue} (hr : results[k]? = some r)
    (hx : values[k]? = some x) : env' r.value = some x := by
  obtain ⟨hlen, rfl⟩ := bindResults_eq_some h
  apply setAll_of_mem
  · rwa [List.map_fst_zip (by simpa using hlen)]
  · refine List.mem_iff_getElem?.mpr ⟨k, ?_⟩
    rw [List.getElem?_zip_eq_some]
    exact ⟨by rw [List.getElem?_map, hr]; rfl, hx⟩

theorem getAll_getElem? {env : Env} {args : List ValueId} {xs : List KirValue}
    (h : env.getAll args = some xs) {k : Nat} {a : ValueId} (ha : args[k]? = some a) :
    ∃ x, xs[k]? = some x ∧ env a = some x := by
  induction args generalizing xs k with
  | nil => cases ha
  | cons w args ih =>
      obtain ⟨x, hx, h⟩ := Option.bind_eq_some_iff.mp h
      obtain ⟨ys, hys, rfl⟩ := Option.map_eq_some_iff.mp h
      cases k with
      | zero =>
          cases ha
          exact ⟨x, rfl, hx⟩
      | succ k => exact ih hys ha

theorem getAll_length {env : Env} {args : List ValueId} {xs : List KirValue}
    (h : env.getAll args = some xs) : xs.length = args.length := by
  induction args generalizing xs with
  | nil =>
      cases h
      rfl
  | cons w args ih =>
      obtain ⟨x, _, h⟩ := Option.bind_eq_some_iff.mp h
      obtain ⟨ys, hys, rfl⟩ := Option.map_eq_some_iff.mp h
      exact congrArg (· + 1) (ih hys)

/-- The parameter in a place gets the value of the argument in that place. -/
theorem setAll_params {env : Env} {params : List ValueId} {args : List ValueId}
    {xs : List KirValue} (h : env.getAll args = some xs) (hlen : params.length = xs.length)
    (hnodup : params.Nodup) {k : Nat} {p a : ValueId} (hp : params[k]? = some p)
    (ha : args[k]? = some a) : env.setAll (params.zip xs) p = env a := by
  obtain ⟨x, hx, henv⟩ := getAll_getElem? h ha
  rw [henv]
  apply setAll_of_mem
  · rwa [List.map_fst_zip hlen.le]
  · refine List.mem_iff_getElem?.mpr ⟨k, ?_⟩
    rw [List.getElem?_zip_eq_some]
    exact ⟨hp, hx⟩

end Env

/-! ## Steps between sites -/

/-- The instructions whose results are computed by evaluation. -/
def KirInstruction.isComputed (i : KirInstruction) : Bool :=
  match i.kind with
  | .guard _ _ | .store _ _ | .vectorStore _ _ _ | .call _ _ | .runtimeCall _ _ => false
  | _ => true

/-- What running an instruction does to the environment. -/
structure Ran (t : TargetModel) (env : Env) (i : KirInstruction) (env' : Env) : Prop where
  keeps : ∀ v ∉ i.defs, env'.scalar v = env.scalar v
  computed : i.isComputed → ∃ memory values,
    evalInstruction t env memory i = some values ∧ env.bindResults i.results values = some env'

theorem ran_execute {t : TargetModel} {env env' : Env} {m m' : Memory} {i : KirInstruction}
    {printed : List Printed} (h : executeInstruction t env m i = some (.next env' m' printed)) :
    Ran t env i env' := by
  refine ⟨fun v hv ↦ Env.scalar_congr fun x hx ↦ executeInstruction_keeps h hx hv, fun hi ↦ ?_⟩
  unfold executeInstruction at h
  split at h
  case h_5 =>
    obtain ⟨values, hvalues, h⟩ := Option.bind_eq_some_iff.mp h
    obtain ⟨e, hbind, h⟩ := Option.map_eq_some_iff.mp h
    cases h
    exact ⟨m, values, hvalues, hbind⟩
  all_goals simp_all [KirInstruction.isComputed]

theorem ran_call {t : TargetModel} {env env' : Env} {i : KirInstruction} {name : String}
    {args : List ValueId} {values : List KirValue} (hi : i.kind = .call name args)
    (h : env.bindResults i.results values = some env') : Ran t env i env' where
  keeps _ hv := Env.scalar_of_eq (Env.bindResults_of_notMem h hv)
  computed hcomputed := by simp [KirInstruction.isComputed, hi] at hcomputed

/-- An instruction ran without failing, or the call it is came back. -/
inductive Stepped (t : TargetModel) (env : Env) (i : KirInstruction) (env' : Env) : Prop
  | execute {m m' : Memory} {printed : List Printed}
      (h : executeInstruction t env m i = some (.next env' m' printed))
  | call {name : String} {args : List ValueId} {values : List KirValue}
      (hkind : i.kind = .call name args) (h : env.bindResults i.results values = some env')

theorem Stepped.ran {t : TargetModel} {env env' : Env} {i : KirInstruction}
    (h : Stepped t env i env') : Ran t env i env' := by
  cases h with
  | execute h => exact ran_execute h
  | call hkind h => exact ran_call hkind h

def Frame.site (frame : Frame) : Site :=
  (frame.block.id, frame.block.instructions.length - frame.rest.length)

namespace Activation

variable {t : TargetModel} {f : KirFunction} {past : List Moment} {frame : Frame}
variable {memory : Memory} {i : KirInstruction} {rest : List KirInstruction}

theorem site_head (h : Activation t f past frame memory) (hrest : frame.rest = i :: rest) :
    frame.block.instructions[frame.site.2]? = some i ∧
      frame.block.instructions.length - rest.length = frame.site.2 + 1 := by
  obtain ⟨done, hdone⟩ := h.rest_suffix
  rw [Frame.site, ← hdone, hrest]
  simp only [List.length_append, List.length_cons]
  constructor
  · rw [Nat.add_sub_cancel, List.getElem?_append_right (le_refl _), Nat.sub_self]
    rfl
  · omega

theorem site_end (hrest : frame.rest = []) :
    frame.site = (frame.block.id, frame.block.instructions.length) := by
  rw [Frame.site, hrest]
  rfl

/-- What holds at the start, and is kept by every instruction and along every edge, holds at
every site a run is at. -/
theorem step_induction {P : Site → Env → Prop}
    (enter : ∀ b args, f.blocks.head? = some b →
      P (b.id, 0) (Env.empty.setAll ((f.params.map (·.value)).zip args)))
    (run : ∀ {past frame memory i rest env'}, Activation t f past frame memory →
      frame.rest = i :: rest → Stepped t frame.env i env' → P frame.site frame.env →
      P (frame.block.id, frame.site.2 + 1) env')
    (follow : ∀ {past frame memory edge c xs}, Activation t f past frame memory →
      frame.rest = [] → frame.block.terminator.taken frame.env = some edge →
      f.block? edge.target = some c → frame.env.getAll edge.args = some xs →
      c.params.length = xs.length → P frame.site frame.env →
      P (c.id, 0) (frame.env.setAll ((c.params.map (·.value)).zip xs)))
    (h : Activation t f past frame memory) : P frame.site frame.env := by
  induction h with
  | @enter args _ _ henter =>
      obtain ⟨_, b, hb, rfl⟩ := KirFunction.enter_eq_some henter
      have hstart := enter b args hb
      rwa [← Nat.sub_self b.instructions.length] at hstart
  | execute h hrest hi ih =>
      have hnext := run h hrest (.execute hi) ih
      rwa [← (h.site_head hrest).2] at hnext
  | call h hrest hi hbind ih =>
      have hnext := run h hrest (.call hi hbind) ih
      rwa [← (h.site_head hrest).2] at hnext
  | follow h hrest htaken hfollow ih =>
      obtain ⟨c, xs, hc, hxs, hlen, rfl⟩ := Frame.follow_eq_some hfollow
      rw [h.function_eq] at hc
      have hnext := follow h hrest htaken hc hxs hlen ih
      rwa [← Nat.sub_self c.instructions.length] at hnext

/-- The same with what an instruction does to values that are no structs. -/
theorem site_induction {P : Site → Env → Prop}
    (enter : ∀ b args, f.blocks.head? = some b →
      P (b.id, 0) (Env.empty.setAll ((f.params.map (·.value)).zip args)))
    (run : ∀ {past frame memory i rest env'}, Activation t f past frame memory →
      frame.rest = i :: rest → Ran t frame.env i env' → P frame.site frame.env →
      P (frame.block.id, frame.site.2 + 1) env')
    (follow : ∀ {past frame memory edge c xs}, Activation t f past frame memory →
      frame.rest = [] → frame.block.terminator.taken frame.env = some edge →
      f.block? edge.target = some c → frame.env.getAll edge.args = some xs →
      c.params.length = xs.length → P frame.site frame.env →
      P (c.id, 0) (frame.env.setAll ((c.params.map (·.value)).zip xs)))
    (h : Activation t f past frame memory) : P frame.site frame.env :=
  step_induction enter (fun h hrest hstep hP ↦ run h hrest hstep.ran hP) follow h

theorem follow_edge (h : Activation t f past frame memory) {edge : KirEdge} {c : KirBlock}
    (htaken : frame.block.terminator.taken frame.env = some edge)
    (hc : f.block? edge.target = some c) :
    c ∈ f.blocks ∧ edge ∈ frame.block.terminator.edges ∧
      f.entryGraph.edge frame.block.id c.id := by
  obtain ⟨hmem, hid⟩ := KirFunction.mem_blocks_of_block? hc
  have hedge := KirTerminator.taken_mem_edges htaken
  exact ⟨hmem, hedge, KirFunction.entryGraph_edge h.block_mem hmem hedge hid.symm⟩

/-- The block of a run is reached from the entry. -/
theorem reachable (h : Activation t f past frame memory) :
    f.entryGraph.Reachable frame.block.id := by
  refine h.site_induction (P := fun q _ ↦ f.entryGraph.Reachable q.1) ?_ ?_ ?_
  · intro b _ hb
    exact ⟨b.id, by simp [KirFunction.entryGraph, KirFunction.entryId?, hb], .refl⟩
  · exact fun _ _ _ ih ↦ ih
  · intro _ _ _ _ _ _ h _ htaken hc _ _ hreached
    obtain ⟨r, hroot, hpath⟩ := hreached
    exact ⟨r, hroot, hpath.tail (h.follow_edge htaken hc).2.2⟩

end Activation

/-! ## Results agree with operands -/

/-- The results of an instruction are what it computes from operands that have not changed. -/
def Evaluated (t : TargetModel) (env : Env) (i : KirInstruction) : Prop :=
  ∃ before memory values, evalInstruction t before memory i = some values ∧
    i.results.length ≤ values.length ∧ (∀ u ∈ i.uses, env.scalar u = before.scalar u) ∧
    ∀ (k : Nat) (r : KirResult) (x : KirValue), i.results[k]? = some r → values[k]? = some x →
      env.scalar r.value = (some x).filter fun x ↦ !x.isRecord

/-- The instruction stays evaluated while neither operands nor results change. -/
theorem Evaluated.keep {t : TargetModel} {env env' : Env} {i : KirInstruction}
    (h : Evaluated t env i) (huses : ∀ u ∈ i.uses, env'.scalar u = env.scalar u)
    (hdefs : ∀ v ∈ i.defs, env'.scalar v = env.scalar v) : Evaluated t env' i := by
  obtain ⟨before, memory, values, heval, hlen, hsame, hresults⟩ := h
  refine ⟨before, memory, values, heval, hlen, fun u hu ↦ (huses u hu).trans (hsame u hu), ?_⟩
  intro k r x hr hx
  rw [hdefs r.value (List.mem_map_of_mem (List.mem_of_getElem? hr))]
  exact hresults k r x hr hx

/-- An instruction that does not use its own results is evaluated when it has run. -/
theorem Ran.evaluated {t : TargetModel} {env env' : Env} {i : KirInstruction} (h : Ran t env i env')
    (hi : i.isComputed) (hnodup : i.defs.Nodup) (huses : ∀ u ∈ i.uses, u ∉ i.defs) :
    Evaluated t env' i := by
  obtain ⟨memory, values, heval, hbind⟩ := h.computed hi
  refine ⟨env, memory, values, heval, (Env.bindResults_eq_some hbind).1,
    fun u hu ↦ h.keeps u (huses u hu), ?_⟩
  intro k r x hr hx
  rw [Env.scalar, Env.bindResults_getElem? hbind hnodup hr hx]

/-- A copy takes over the value of its operand. -/
theorem Ran.copy {t : TargetModel} {env env' : Env} {i : KirInstruction} {x y : ValueId}
    (h : Ran t env i env') (hkind : i.kind = .copy y) (hnodup : i.defs.Nodup)
    (hx : (i.results.head?).map (·.value) = some x) : env' x = env y := by
  obtain ⟨memory, values, heval, hbind⟩ := h.computed (by simp [KirInstruction.isComputed, hkind])
  obtain ⟨r, hr, rfl⟩ := Option.map_eq_some_iff.mp hx
  simp only [evalInstruction, hkind, Option.map_eq_some_iff] at heval
  obtain ⟨z, hz, rfl⟩ := heval
  rw [hz]
  exact Env.bindResults_getElem? hbind hnodup (k := 0) (by rwa [← List.head?_eq_getElem?]) rfl

namespace KirFunction

variable {f : KirFunction} {b c : KirBlock} {i : KirInstruction} {j : Nat} {v : ValueId}

/-- Blocks of one identity are one block. -/
theorem block_ext (hblocks : f.blockIds.Nodup) (hb : b ∈ f.blocks) (hc : c ∈ f.blocks)
    (h : b.id = c.id) : b = c :=
  List.inj_on_of_nodup_map hblocks hb hc h

theorem defs_nodup (hvalues : f.valueIds.Nodup) (hi : i ∈ f.instructions) : i.defs.Nodup := by
  have hdefs := (List.nodup_append.mp (List.nodup_append.mp
    (valueIds_perm.nodup_iff.mp hvalues)).2.1).2.1
  exact (List.nodup_flatMap.mp hdefs).1 i hi

theorem params_nodup (hvalues : f.valueIds.Nodup) (hb : b ∈ f.blocks) :
    (b.params.map (·.value)).Nodup := by
  have hparams := (List.nodup_append.mp (List.nodup_append.mp
    (valueIds_perm.nodup_iff.mp hvalues)).2.1).1
  exact (List.nodup_flatMap.mp hparams).1 b hb

/-- A block parameter belongs to one block. -/
theorem param_block_ext (hf : f.Strict) (hb : b ∈ f.blocks) (hc : c ∈ f.blocks)
    (hvb : v ∈ b.params.map (·.value)) (hvc : v ∈ c.params.map (·.value)) : b = c := by
  have hsite := (site?_of_blockParam hf.values hb hvb).symm.trans
    (site?_of_blockParam hf.values hc hvc)
  exact block_ext hf.blocks hb hc (congrArg Prod.fst (Option.some.inj hsite))

/-- Along an edge the parameters of the target take over the arguments, and those of other blocks
stay. -/
theorem Strict.follow_scalars (hf : f.Strict) {env : Env} {edge : KirEdge} {xs : List KirValue}
    (hc : c ∈ f.blocks)
    (hxs : env.getAll edge.args = some xs) (hlen : c.params.length = xs.length) :
    (∀ (k : Nat) v, (c.params.map (·.value))[k]? = some v → ∃ a, edge.args[k]? = some a ∧
      (env.setAll ((c.params.map (·.value)).zip xs)).scalar v = env.scalar a) ∧
    ∀ b ∈ f.blocks, b ≠ c → ∀ v ∈ b.params.map (·.value),
      (env.setAll ((c.params.map (·.value)).zip xs)).scalar v = env.scalar v := by
  constructor
  · intro k v hv
    obtain ⟨hk, -⟩ := List.getElem?_eq_some_iff.mp hv
    have hargs : edge.args.length = xs.length := (Env.getAll_length hxs).symm
    rw [List.length_map, hlen, ← hargs] at hk
    refine ⟨edge.args[k], List.getElem?_eq_getElem hk, Env.scalar_of_eq ?_⟩
    exact Env.setAll_params hxs (by rw [List.length_map, hlen])
      (params_nodup hf.values hc) hv (List.getElem?_eq_getElem hk)
  · intro b hb hne v hv
    refine Env.scalar_of_eq (Env.setAll_of_notMem (fun hzip ↦ hne ?_) _)
    exact param_block_ext hf hb hc hv (mem_of_mem_map_fst_zip hzip)

/-- Where an instruction has run, none of its operands is just being defined. -/
theorem Strict.use_site_ne (hf : f.Strict) (hc : c ∈ f.blocks) (hi : c.instructions[j]? = some i)
    (hv : v ∈ i.uses) {q : Site} (hreach : f.entryGraph.Reachable q.1)
    (hran : f.Precedes (c.id, j + 1) q) : f.site? v ≠ some q :=
  fun hsite ↦ (hf.uses c hc j i hi v hv q hsite).not_later hreach hran

end KirFunction

namespace Activation

variable {t : TargetModel} {f : KirFunction} {past : List Moment} {frame : Frame}
variable {memory : Memory}

/-- What an instruction brings about, and what lasts while neither its operands nor its results
change, holds wherever the results are available. -/
theorem since_ran (h : Activation t f past frame memory) (hf : f.Strict) {c : KirBlock}
    (hc : c ∈ f.blocks) {j : Nat} {i : KirInstruction} (hi : c.instructions[j]? = some i)
    {Q : Env → Prop}
    (run : ∀ {env env'}, Stepped t env i env' → (∀ u ∈ i.uses, u ∉ i.defs) → Q env')
    (keep : ∀ {env i' env'}, i' ∈ f.instructions → Stepped t env i' env' →
      (∀ v, v ∈ i.uses ∨ v ∈ i.defs → v ∉ i'.defs) → Q env → Q env')
    (bind : ∀ {env : Env} {l}, (∀ v, v ∈ i.uses ∨ v ∈ i.defs → v ∉ l.map Prod.fst) → Q env →
      Q (env.setAll l))
    (hran : f.Precedes (c.id, j + 1) frame.site) : Q frame.env := by
  have hlt : j + 1 ≤ c.instructions.length := (List.getElem?_eq_some_iff.mp hi).1
  revert hran
  refine h.step_induction (P := fun q env ↦ f.Precedes (c.id, j + 1) q → Q env) ?_ ?_ ?_
  · intro b args hb hran
    have hroot : f.entryGraph.root b.id := by
      simp [KirFunction.entryGraph, KirFunction.entryId?, hb]
    rw [KirFunction.Precedes] at hran
    split at hran
    · omega
    · rename_i hne
      exact absurd .refl (hran b.id hroot (Ne.symm hne))
  · intro past frame memory i' rest env' h hrest hstep ih hran
    obtain ⟨hi', _⟩ := h.site_head hrest
    have hsite : ∀ v ∈ i'.defs, f.site? v = some (frame.block.id, frame.site.2 + 1) := fun v hv ↦
      KirFunction.site?_of_result hf.values h.block_mem hi' hv
    have huses : ∀ u ∈ i.uses, u ∉ i'.defs := fun u hu hdef ↦
      hf.use_site_ne hc hi hu h.reachable hran (hsite u hdef)
    by_cases hsame : (c.id, j + 1) = (frame.block.id, frame.site.2 + 1)
    · obtain ⟨hid, hindex⟩ := Prod.mk.inj hsame
      obtain rfl := KirFunction.block_ext hf.blocks hc h.block_mem hid
      obtain rfl := Nat.succ.inj hindex
      obtain rfl := Option.some.inj (hi'.symm.trans hi)
      exact run hstep huses
    · have hmem' := KirFunction.mem_instructions.mpr
        ⟨frame.block, h.block_mem, List.mem_of_getElem? hi'⟩
      refine keep hmem' hstep (fun v hv ↦ ?_) (ih (hran.of_next hsame))
      rcases hv with hv | hv
      · exact huses v hv
      · intro hdef
        have hdefined := KirFunction.site?_of_result hf.values hc hi hv
        exact hsame (Option.some.inj (hdefined.symm.trans (hsite v hdef)))
  · intro past frame memory edge b xs h hrest htaken hb hxs hlen ih hran
    obtain ⟨hmemb, _, hedge⟩ := h.follow_edge htaken hb
    have hsite : ∀ v ∈ b.params.map (·.value), f.site? v = some (b.id, 0) := fun v hv ↦
      KirFunction.site?_of_blockParam hf.values hmemb hv
    have hreach : f.entryGraph.Reachable b.id := by
      obtain ⟨r, hroot, hpath⟩ := h.reachable
      exact ⟨r, hroot, hpath.tail hedge⟩
    have hbefore : f.Precedes (c.id, j + 1) frame.site := by
      rw [site_end hrest]
      refine hran.of_edge (by simp) hedge fun hid ↦ ?_
      obtain rfl := KirFunction.block_ext hf.blocks hc h.block_mem hid
      exact hlt
    refine bind (fun v hv hzip ↦ ?_) (ih hbefore)
    have hparam := hsite v (mem_of_mem_map_fst_zip hzip)
    rcases hv with hv | hv
    · exact hf.use_site_ne hc hi hv hreach hran hparam
    · rw [KirFunction.site?_of_result hf.values hc hi hv] at hparam
      simp at hparam

/-- Where its results are available an instruction is evaluated. -/
theorem evaluated (h : Activation t f past frame memory) (hf : f.Strict) {c : KirBlock}
    (hc : c ∈ f.blocks) {j : Nat} {i : KirInstruction} (hi : c.instructions[j]? = some i)
    (hcomputed : i.isComputed) (hran : f.Precedes (c.id, j + 1) frame.site) :
    Evaluated t frame.env i := by
  have hmem : i ∈ f.instructions :=
    KirFunction.mem_instructions.mpr ⟨c, hc, List.mem_of_getElem? hi⟩
  refine h.since_ran hf hc hi (Q := fun env ↦ Evaluated t env i) ?_ ?_ ?_ hran
  · intro env env' hstep huses
    exact hstep.ran.evaluated hcomputed (KirFunction.defs_nodup hf.values hmem) huses
  · intro env i' env' _ hstep hnot heval
    exact heval.keep (fun u hu ↦ hstep.ran.keeps u (hnot u (.inl hu)))
      fun v hv ↦ hstep.ran.keeps v (hnot v (.inr hv))
  · intro env l hnot heval
    exact heval.keep (fun u hu ↦ Env.scalar_of_eq (Env.setAll_of_notMem (hnot u (.inl hu)) _))
      fun v hv ↦ Env.scalar_of_eq (Env.setAll_of_notMem (hnot v (.inr hv)) _)

/-- Where a result is available its instruction is evaluated, and the operands are available. -/
theorem evaluated_of_result (h : Activation t f past frame memory) (hf : f.Strict)
    {i : KirInstruction} (hi : i ∈ f.instructions) (hcomputed : i.isComputed) {v : ValueId}
    (hv : v ∈ i.defs) (havail : f.Available v frame.site) :
    Evaluated t frame.env i ∧ ∀ u ∈ i.uses, f.Available u frame.site := by
  obtain ⟨c, hc, hic⟩ := KirFunction.mem_instructions.mp hi
  obtain ⟨j, hj⟩ := List.mem_iff_getElem?.mp hic
  have hbefore := havail _ (KirFunction.site?_of_result hf.values hc hj hv)
  refine ⟨h.evaluated hf hc hj hcomputed hbefore, fun u hu p hp ↦ ?_⟩
  have hreach : f.entryGraph.Reachable c.id := by
    obtain ⟨r, hroot, hpath⟩ := h.reachable
    exact ⟨r, hroot, (hbefore.dominates.split hroot hpath).1⟩
  exact (hf.uses c hc j i hj u hu p hp).trans hreach hbefore.of_later

/-- Operands of available results have a lower rank. -/
theorem rank_use (h : Activation t f past frame memory) (hf : f.Strict) {i : KirInstruction}
    (hi : i ∈ f.instructions) {u v : ValueId} (hv : v ∈ i.defs)
    (havail : f.Available v frame.site) (hu : u ∈ i.uses) : f.rank u < f.rank v := by
  obtain ⟨c, hc, hic⟩ := KirFunction.mem_instructions.mp hi
  obtain ⟨j, hj⟩ := List.mem_iff_getElem?.mp hic
  have hbefore := havail _ (KirFunction.site?_of_result hf.values hc hj hv)
  obtain ⟨e, hroot, hpath⟩ := h.reachable
  exact hf.rank_use hc hic hv hu ⟨e, hroot, (hbefore.dominates.split hroot hpath).1⟩

/-! ## Block parameters along a run -/

/-- What is about block parameters, holds while none of them is set, and is kept along every
edge, holds all along a run. -/
theorem params_induction (hf : f.Strict) {P : Env → Prop}
    (congr : ∀ env env' : Env, (∀ b ∈ f.blocks, ∀ v ∈ b.params.map (·.value),
      env'.scalar v = env.scalar v) → P env → P env')
    (start : ∀ env : Env, (∀ b ∈ f.blocks, ∀ v ∈ b.params.map (·.value), env.scalar v = none) →
      P env)
    (follow : ∀ {past frame memory edge c} {env' : Env}, Activation t f past frame memory →
      frame.rest = [] → edge ∈ frame.block.terminator.edges → c ∈ f.blocks → edge.target = c.id →
      (∀ (k : Nat) v, (c.params.map (·.value))[k]? = some v →
        ∃ a, edge.args[k]? = some a ∧ env'.scalar v = frame.env.scalar a) →
      (∀ b ∈ f.blocks, b ≠ c → ∀ v ∈ b.params.map (·.value),
        env'.scalar v = frame.env.scalar v) → P frame.env → P env')
    (h : Activation t f past frame memory) : P frame.env := by
  refine h.site_induction (P := fun _ env ↦ P env) ?_ ?_ ?_
  · intro first args _
    refine start _ fun b hb v hv ↦ ?_
    rw [Env.scalar, Env.setAll_of_notMem]
    · rfl
    · exact fun hparam ↦ KirFunction.param_notMem_blockParams hf.values
        (mem_of_mem_map_fst_zip hparam) hb hv
  · intro past frame memory i rest env' h hrest hran ih
    have hi := KirFunction.mem_instructions.mpr
      ⟨frame.block, h.block_mem, h.head_mem_instructions hrest⟩
    exact congr _ _
      (fun b hb v hv ↦ hran.keeps v fun hdef ↦
        KirFunction.blockParam_notMem_defs hf.values hi hdef hb hv) ih
  · intro past frame memory edge c xs h hrest htaken hc hxs hlen ih
    obtain ⟨hmem, hedge, -⟩ := h.follow_edge htaken hc
    obtain ⟨hset, hkeep⟩ := hf.follow_scalars hmem hxs hlen
    exact follow h hrest hedge hmem (KirFunction.mem_blocks_of_block? hc).2.symm hset hkeep ih

end Activation

end CalcKernel
