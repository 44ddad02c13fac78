import CalcKernel.Kir.Evaluation
import CalcKernel.Kir.Refinement
import CalcKernel.Lib.Substitution

/-!
# Rewired functions

A function whose blocks keep their instructions while their edges skip blocks that only hand
values on.  A frame of the rewired function waits before its edge until the frame of the
original has gone through the skipped blocks; their parameters are hidden from the others.
-/

namespace CalcKernel

open Lib Relation

/-! ## Binding and replacing -/

namespace Env

/-- The last binding of a value counts. -/
theorem setAll_eq_lookup (env : Env) (l : List (ValueId × KirValue)) (v : ValueId) :
    env.setAll l v = (l.reverse.lookup v).or (env v) := by
  induction l generalizing env with
  | nil => rfl
  | cons p l ih =>
      rw [setAll, ih, List.reverse_cons, List.lookup_append, Option.or_assoc]
      congr 1
      by_cases hv : v = p.1
      · rw [hv, set_same, List.lookup_cons_self]
        rfl
      · rw [set_of_ne env hv, List.lookup_cons, beq_eq_false_iff_ne.mpr hv]
        rfl

/-- The values of parameters are those of the arguments that replace them. -/
theorem lookup_zip_getAll {env : Env} {params args : List ValueId} {xs : List KirValue}
    (h : env.getAll args = some xs) (v : ValueId) :
    (params.zip xs).reverse.lookup v = ((params.zip args).reverse.lookup v).bind env := by
  induction params generalizing args xs with
  | nil => rfl
  | cons p params ih =>
      cases args with
      | nil =>
          cases h
          rfl
      | cons a args =>
          obtain ⟨x, hx, h⟩ := Option.bind_eq_some_iff.mp h
          obtain ⟨ys, hys, rfl⟩ := Option.map_eq_some_iff.mp h
          rw [List.zip_cons_cons, List.zip_cons_cons, List.reverse_cons, List.reverse_cons,
            List.lookup_append, List.lookup_append, ih hys]
          cases hlast : (params.zip args).reverse.lookup v with
          | none =>
              rw [Option.bind_none, Option.none_or, Option.none_or]
              by_cases hv : v = p
              · rw [hv, List.lookup_cons_self, List.lookup_cons_self, Option.bind_some, hx]
              · rw [List.lookup_cons, List.lookup_cons, beq_eq_false_iff_ne.mpr hv]
                rfl
          | some w =>
              rw [Option.some_or, Option.bind_some]
              obtain ⟨q, hq⟩ : ∃ q, (q, w) ∈ params.zip args :=
                ⟨v, List.mem_reverse.mp (mem_of_lookup hlast)⟩
              obtain ⟨y, hy⟩ : ∃ y, env w = some y := by
                obtain ⟨k, hk⟩ := List.getElem?_of_mem (List.of_mem_zip hq).2
                obtain ⟨y, -, hy⟩ := getAll_getElem? hys hk
                exact ⟨y, hy⟩
              rw [hy, Option.some_or]

/-- Reading through replaced parameters is reading after binding them. -/
theorem replaceBy_zip {env : Env} {params args : List ValueId} {xs : List KirValue}
    (h : env.getAll args = some xs) (v : ValueId) :
    env (replaceBy (params.zip args).reverse v) = env.setAll (params.zip xs) v := by
  rw [setAll_eq_lookup, lookup_zip_getAll h, replaceBy]
  cases hlookup : (params.zip args).reverse.lookup v with
  | none => rfl
  | some w =>
      have hq := List.mem_reverse.mp (mem_of_lookup hlookup)
      obtain ⟨k, hk⟩ := List.getElem?_of_mem (List.of_mem_zip hq).2
      obtain ⟨y, -, hy⟩ := getAll_getElem? h hk
      rw [Option.getD_some, Option.bind_some, hy, Option.some_or]

theorem getAll_map {env env' : Env} {g : ValueId → ValueId} {vs : List ValueId}
    (h : ∀ v ∈ vs, env (g v) = env' v) : env.getAll (vs.map g) = env'.getAll vs := by
  induction vs with
  | nil => rfl
  | cons v vs ih =>
      rw [List.map_cons, getAll, getAll, h v List.mem_cons_self,
        ih fun w hw ↦ h w (List.mem_cons_of_mem v hw)]

end Env

/-- `forward_edge`: the incoming edge of a block composed with one that leaves it. -/
def KirEdge.through (incoming : KirEdge) (bridge : KirBlock) (outgoing : KirEdge) : KirEdge where
  target := outgoing.target
  args := outgoing.args.map
    (replaceBy ((bridge.params.map (·.value)).zip incoming.args).reverse)
  memoryArgs := outgoing.memoryArgs.map
    (replaceBy ((bridge.memoryParams.map (·.version)).zip incoming.memoryArgs).reverse)

/-! ## Rewirings -/

/-- A block reads its own parameters and what is hidden from no block. -/
def KirBlock.Sees (hidden : ValueId → Prop) (b : KirBlock) (v : ValueId) : Prop :=
  v ∈ b.params.map (·.value) ∨ ¬hidden v

/-- Taking the one edge means taking the other one later, behind a block that runs nothing and
whose parameters are hidden. -/
structure LeadsOn (f : KirFunction) (hidden : ValueId → Prop) (known : Env → Prop)
    (edge : KirEdge) (b : KirBlock) (out : KirEdge) : Prop where
  block : f.block? edge.target = some b
  instructions : b.instructions = []
  hides : ∀ p ∈ b.params, hidden p.value
  sees : ∀ a ∈ out.args, b.Sees hidden a
  taken : ∀ {env env' : Env} {xs : List KirValue}, known env → env.getAll edge.args = some xs →
    b.params.length = xs.length →
    Env.Agree (b.Sees hidden) env' (env.setAll ((b.params.map (·.value)).zip xs)) →
    b.terminator.taken env' = some out

/-- An edge, and the one it stands for behind a number of blocks. -/
inductive LeadsTo (f : KirFunction) (hidden : ValueId → Prop) (known : Env → Prop) :
    Nat → KirEdge → KirEdge → Prop
  | refl (edge : KirEdge) : LeadsTo f hidden known 0 edge edge
  | step {edge : KirEdge} {b : KirBlock} {out : KirEdge} {n : Nat} {edge' : KirEdge}
      (h : LeadsOn f hidden known edge b out)
      (hrest : LeadsTo f hidden known n (edge.through b out) edge') :
      LeadsTo f hidden known (n + 1) edge edge'

/-- How the blocks of one function stand for those of another.  What is known of environments is
kept by everything the function does. -/
structure Rewiring (f g : KirFunction) where
  hidden : ValueId → Prop
  known : Env → Prop
  keep : KirBlock → Prop
  blocks : KirBlock → KirBlock
  bound : Nat
  name : g.name = f.name
  functionParams : g.params = f.params
  entry : ∀ b, f.blocks.head? = some b → keep b ∧ g.blocks.head? = some (blocks b)
  block : ∀ {id b}, f.block? id = some b → keep b → g.block? id = some (blocks b)
  params : ∀ b, (blocks b).params = b.params
  instructions : ∀ b, (blocks b).instructions = b.instructions
  sees : ∀ {b}, b ∈ f.blocks → keep b → ∀ i ∈ b.instructions, ∀ v ∈ i.uses, b.Sees hidden v
  «return» : ∀ {b}, b ∈ f.blocks → keep b → ∀ {value versions effectOrder},
    b.terminator = .return value versions effectOrder →
      (blocks b).terminator = .return value versions effectOrder ∧
        ∀ v ∈ value, b.Sees hidden v
  edge : ∀ {b}, b ∈ f.blocks → keep b → ∀ {env env' e}, known env' →
    Env.Agree (b.Sees hidden) env env' → b.terminator.taken env = some e →
      (∀ a ∈ e.args, b.Sees hidden a) ∧ ∃ n ≤ bound, ∃ e',
        (blocks b).terminator.taken env' = some e' ∧ LeadsTo f hidden known n e e' ∧
          ∀ c, f.block? e'.target = some c → keep c
  known_enter : ∀ {args F}, f.enter args = some F → known F.env
  known_step : ∀ {b i t env env'}, b ∈ f.blocks → i ∈ b.instructions → known env →
    Stepped t env i env' → known env'
  known_follow : ∀ {c env} {xs : List KirValue}, c ∈ f.blocks → known env →
    known (env.setAll ((c.params.map (·.value)).zip xs))

namespace Rewiring

variable {f g : KirFunction} (w : Rewiring f g) {F F' G : Frame}

/-- The frames run the same block. -/
structure Beside (F F' : Frame) : Prop where
  function : F.function = f
  function' : F'.function = g
  block_mem : F.block ∈ f.blocks
  keep : w.keep F.block
  block : F'.block = w.blocks F.block
  rest : F'.rest = F.rest
  rest_mem : ∀ i ∈ F.rest, i ∈ F.block.instructions
  known : w.known F'.env
  agree : Env.Agree (F.block.Sees w.hidden) F.env F'.env

/-- The frame of the original has entered a skipped block, with so many to leave. -/
structure Behind (n : Nat) (F F' : Frame) : Prop where
  function : F.function = f
  function' : F'.function = g
  known : w.known F'.env
  rest : F.rest = []
  rest' : F'.rest = []
  ahead : ∃ edge out edge' xs, LeadsOn f w.hidden w.known edge F.block out ∧
    LeadsTo f w.hidden w.known n (edge.through F.block out) edge' ∧
    F'.env.getAll edge.args = some xs ∧ F.block.params.length = xs.length ∧
    Env.Agree (F.block.Sees w.hidden) F.env
      (F'.env.setAll ((F.block.params.map (·.value)).zip xs)) ∧
    F'.block.terminator.taken F'.env = some edge' ∧ ∀ c, f.block? edge'.target = some c → w.keep c

variable {w}

/-- The values that come with an edge are those its composition comes with. -/
theorem getAll_through {hidden : ValueId → Prop} {b : KirBlock} {env env' : Env}
    {edge out : KirEdge} {xs : List KirValue} (hxs : env'.getAll edge.args = some xs)
    (hsees : ∀ a ∈ out.args, b.Sees hidden a)
    (hagree : Env.Agree (b.Sees hidden) env
      (env'.setAll ((b.params.map (·.value)).zip xs))) :
    env'.getAll (edge.through b out).args = env.getAll out.args :=
  Env.getAll_map fun v hv ↦ (Env.replaceBy_zip hxs v).trans (hagree v (hsees v hv)).symm

/-- The parameters of a block bound over environments that differ in what is hidden. -/
theorem agree_bound {hidden : ValueId → Prop} {c : KirBlock} {env env' : Env} {xs : List KirValue}
    (hlength : c.params.length = xs.length) (hagree : ∀ v, ¬hidden v → env v = env' v) :
    Env.Agree (c.Sees hidden) (env.setAll ((c.params.map (·.value)).zip xs))
      (env'.setAll ((c.params.map (·.value)).zip xs)) := by
  intro v hv
  rw [Env.setAll_eq_lookup, Env.setAll_eq_lookup]
  cases hlookup : ((c.params.map (·.value)).zip xs).reverse.lookup v with
  | some x => rfl
  | none =>
      have hnone := List.lookup_eq_none_iff.mp hlookup
      rw [Option.none_or, Option.none_or]
      refine hagree v (hv.resolve_left fun hparam ↦ ?_)
      have hzip : v ∈ ((c.params.map (·.value)).zip xs).map Prod.fst := by
        rwa [List.map_fst_zip (by simpa using hlength.le)]
      obtain ⟨p, hp, rfl⟩ := List.mem_map.mp hzip
      simpa using hnone p (List.mem_reverse.mpr hp)

/-- The frame of the original enters a block; the other one enters the same, or waits. -/
theorem arrive {n : Nat} {edge edge' : KirEdge} {c : KirBlock} {xs : List KirValue} {env : Env}
    (hfunction' : F'.function = g) (hknown : w.known F'.env) (hrest' : F'.rest = [])
    (htaken : F'.block.terminator.taken F'.env = some edge')
    (hleads : LeadsTo f w.hidden w.known n edge edge')
    (hkeep : ∀ c, f.block? edge'.target = some c → w.keep c)
    (hc : f.block? edge.target = some c) (hxs : F'.env.getAll edge.args = some xs)
    (hlength : c.params.length = xs.length) (hagree : ∀ v, ¬w.hidden v → env v = F'.env v) :
    (∃ G', F'.follow edge' = some G' ∧
      w.Beside ⟨f, c, c.instructions, env.setAll ((c.params.map (·.value)).zip xs)⟩ G') ∨
    ∃ k < n, w.Behind k ⟨f, c, c.instructions, env.setAll ((c.params.map (·.value)).zip xs)⟩ F' := by
  have hbound : Env.Agree (c.Sees w.hidden) _ _ := agree_bound hlength hagree
  cases hleads with
  | refl =>
      have hmem := (KirFunction.mem_blocks_of_block? hc).1
      refine .inl ⟨⟨g, w.blocks c, c.instructions,
        F'.env.setAll ((c.params.map (·.value)).zip xs)⟩, ?_,
        ⟨rfl, rfl, hmem, hkeep c hc, rfl, rfl, fun _ hi ↦ hi, w.known_follow hmem hknown, hbound⟩⟩
      rw [Frame.follow, hfunction', w.block hc (hkeep c hc), Option.bind_some, hxs,
        Option.bind_some, w.params, if_pos hlength, w.instructions]
  | @step _ b out n _ h hrest =>
      obtain rfl := Option.some.inj (h.block.symm.trans hc)
      exact .inr ⟨n, Nat.lt_succ_self n, rfl, hfunction', hknown, h.instructions, hrest',
        edge, out, edge', xs, h, hrest, hxs, hlength, hbound, htaken, hkeep⟩

/-! ## Moves of the two frames -/

variable {t : TargetModel} {memory memory' : Memory} {printed : List Printed} {n : Nat}

/-- A frame and the one of the rewired function. -/
def Answers (w : Rewiring f g) (n : Nat) (F F' : Frame) : Prop :=
  w.Beside F F' ∧ n = w.bound + 1 ∨ w.Behind n F F' ∧ n ≤ w.bound

theorem Beside.answers (h : w.Beside F F') : w.Answers (w.bound + 1) F F' := .inl ⟨h, rfl⟩

theorem Beside.next (h : w.Beside F F') (hmove : F.move t memory = .next G memory' printed) :
    (memory' = memory ∧ printed = [] ∧ ∃ k ≤ w.bound, w.Behind k G F') ∨
      ∃ G', F'.move t memory = .next G' memory' printed ∧ w.Beside G G' := by
  obtain ⟨function, block, rest, env⟩ := F
  obtain ⟨function', block', rest', env'⟩ := F'
  obtain ⟨hf, hg, hmem, hkeep, hblock, hrest', hrest, hknown, hagree⟩ := h
  dsimp only at hf hg hmem hkeep hblock hrest' hrest hknown hagree
  subst hf hg hblock hrest'
  rcases Frame.move_eq_next hmove with
    ⟨hnil, rfl, rfl, e, htaken, hfollow⟩ | ⟨i, rest, e, hcons, hexecute, rfl⟩
  · obtain ⟨hargs, n, hn, e', htaken', hleads, hkept⟩ := w.edge hmem hkeep hknown hagree htaken
    obtain ⟨c, xs, hc, hxs, hlength, rfl⟩ := Frame.follow_eq_some hfollow
    have hxs' : env'.getAll e.args = some xs :=
      (Env.getAll_congr fun a ha ↦ (hagree a (hargs a ha)).symm).trans hxs
    have hfunction' : Frame.function ⟨function', w.blocks block, rest', env'⟩ = function' := rfl
    rcases arrive (w := w) hfunction' hknown hnil htaken' hleads hkept hc hxs' hlength
      fun v hv ↦ hagree v (.inr hv) with ⟨G', hG', hbeside⟩ | ⟨k, hk, hbehind⟩
    · exact .inr ⟨G', Frame.move_of_taken hnil htaken' hG', hbeside⟩
    · exact .inl ⟨rfl, rfl, k, hk.le.trans hn, hbehind⟩
  · dsimp only at hcons
    subst hcons
    have hi := hrest i List.mem_cons_self
    obtain ⟨o', ho', houtcomes⟩ := hagree.execute (w.sees hmem hkeep i hi) hexecute
    cases houtcomes with
    | next hagree' =>
        exact .inr ⟨_, Frame.move_of_next rfl ho', rfl, rfl, hmem, hkeep, rfl, rfl,
          fun j hj ↦ hrest j (List.mem_cons_of_mem i hj),
          w.known_step hmem hi hknown (.execute ho'), hagree'⟩

theorem Behind.next (h : w.Behind n F F') (hmove : F.move t memory = .next G memory' printed) :
    (memory' = memory ∧ printed = [] ∧ ∃ k < n, w.Behind k G F') ∨
      ∃ G', F'.move t memory = .next G' memory' printed ∧ w.Beside G G' := by
  obtain ⟨function, block, rest, env⟩ := F
  obtain ⟨hf, hfunction', hknown, hrest, hrest', edge, out, edge', xs, hon, hleads, hxs, hlength,
    hagree, htaken', hkept⟩ := h
  dsimp only at hf hrest hon hleads hlength hagree
  subst hf hrest
  rw [Frame.move_nil rfl] at hmove
  obtain ⟨rfl, rfl, e, htaken, hfollow⟩ := Frame.leave_eq_next hmove
  obtain rfl := Option.some.inj (htaken.symm.trans (hon.taken hknown hxs hlength hagree))
  obtain ⟨c, ys, hc, hys, hlength', rfl⟩ := Frame.follow_eq_some hfollow
  have hys' : F'.env.getAll (edge.through block e).args = some ys :=
    (getAll_through hxs hon.sees hagree).trans hys
  have hvisible : ∀ v, ¬w.hidden v → env v = F'.env v := by
    intro v hv
    refine (hagree v (.inr hv)).trans (Env.setAll_of_notMem (fun hmem ↦ ?_) _)
    obtain ⟨p, hp, rfl⟩ := List.mem_map.mp hmem
    obtain ⟨q, hq, heq⟩ := List.mem_map.mp (List.of_mem_zip hp).1
    exact hv (heq ▸ hon.hides q hq)
  rcases arrive (w := w) hfunction' hknown hrest' htaken' hleads hkept hc hys' hlength' hvisible with
    ⟨G', hG', hbeside⟩ | ⟨k, hk, hbehind⟩
  · exact .inr ⟨G', Frame.move_of_taken hrest' htaken' hG', hbeside⟩
  · exact .inl ⟨rfl, rfl, k, hk, hbehind⟩

/-- A frame that has fallen behind only follows edges. -/
theorem Behind.moves (h : w.Behind n F F') (t : TargetModel) (memory : Memory) : ∃ edge, F.move t memory = .stuck ∨
    ∃ G, F.follow edge = some G ∧ F.move t memory = .next G memory [] := by
  obtain ⟨-, -, hknown, hrest, -, edge, out, edge', xs, hon, -, hxs, hlength, hagree, -⟩ := h
  have htaken := hon.taken hknown hxs hlength hagree
  refine ⟨out, ?_⟩
  cases hfollow : F.follow out with
  | some G => exact .inr ⟨G, rfl, Frame.move_of_taken hrest htaken hfollow⟩
  | none =>
      refine .inl ?_
      rw [Frame.move_nil hrest, Frame.leave_edge, htaken, Option.bind_some, hfollow]
      intro value versions effectOrder heq
      rw [heq] at htaken
      cases htaken

theorem Beside.fail (h : w.Beside F F') {failure : KirFailureKind}
    (hmove : F.move t memory = .fail failure) : F'.move t memory = .fail failure := by
  obtain ⟨i, rest, hrest, hexecute⟩ := Frame.move_eq_fail hmove
  have hi := h.rest_mem i (hrest ▸ List.mem_cons_self)
  obtain ⟨o', ho', houtcomes⟩ :=
    h.agree.execute (w.sees h.block_mem h.keep i hi) hexecute
  cases houtcomes
  exact Frame.move_of_fail (h.rest.trans hrest) ho'

theorem Beside.return (h : w.Beside F F') {v : Option KirValue}
    (hmove : F.move t memory = .return v) : F'.move t memory = .return v := by
  obtain ⟨hrest, value, versions, effectOrder, hterminator, hvalue⟩ := Frame.move_eq_return hmove
  obtain ⟨hterminator', hsees⟩ := w.return h.block_mem h.keep hterminator
  refine Frame.move_of_return (h.rest.trans hrest) (h.block ▸ hterminator') ?_
  cases value with
  | none => exact hvalue
  | some u =>
      rw [← hvalue, returnValue, returnValue, h.agree u (hsees u rfl)]

theorem Beside.call (h : w.Beside F F') {name : String} {xs : List KirValue}
    {results : List KirResult} (hmove : F.move t memory = .call name xs results G) :
    ∃ G', F'.move t memory = .call name xs results G' ∧
      ∀ (values : List KirValue) (env : Env), G.env.bindResults results values = some env →
        ∃ env', G'.env.bindResults results values = some env' ∧
          w.Beside { G with env := env } { G' with env := env' } := by
  obtain ⟨i, rest, args, hrest, hkind, hargs, rfl, rfl⟩ := Frame.move_eq_call hmove
  have hi := h.rest_mem i (hrest ▸ List.mem_cons_self)
  have hsees := w.sees h.block_mem h.keep i hi
  have hargs' : F'.env.getAll args = some xs := by
    refine (Env.getAll_congr fun v hv ↦ (h.agree v (hsees v ?_)).symm).trans hargs
    rwa [KirInstruction.uses, hkind]
  refine ⟨_, Frame.move_of_call (h.rest.trans hrest) hkind hargs', fun values env hbind ↦ ?_⟩
  obtain ⟨env', hbind', hagree⟩ := h.agree.bindResults hbind
  exact ⟨env', hbind', { h with
    rest := rfl
    rest_mem := fun j hj ↦ h.rest_mem j (hrest ▸ List.mem_cons_of_mem i hj)
    known := w.known_step (t := t) h.block_mem hi h.known (.call hkind hbind')
    agree := hagree }⟩

theorem enter (w : Rewiring f g) {args : List KirValue} (h : f.enter args = some F) :
    ∃ F', g.enter args = some F' ∧ w.Beside F F' := by
  have hknown := w.known_enter h
  obtain ⟨hlength, b, hb, rfl⟩ := KirFunction.enter_eq_some h
  obtain ⟨hkeep, hb'⟩ := w.entry b hb
  refine ⟨⟨g, w.blocks b, b.instructions, _⟩, ?_, rfl, rfl, List.mem_of_mem_head? hb, hkeep, rfl,
    rfl, fun _ hi ↦ hi, hknown, fun v _ ↦ rfl⟩
  rw [KirFunction.enter, w.functionParams, if_pos hlength, hb', Option.map_some, w.instructions]

end Rewiring

/-! ## Rewirings that skip nothing -/

theorem agree_of_nothing_hidden {b : KirBlock} {env env' : Env}
    (h : Env.Agree (b.Sees fun _ ↦ False) env env') : env = env' :=
  funext fun v ↦ h v (.inr id)

/-- Blocks that change their terminators only, each so that the same edge is taken. -/
def Rewiring.ofTerminators {f g : KirFunction} (known : Env → Prop) (keep : KirBlock → Prop)
    (terminator : KirBlock → KirTerminator) (name : g.name = f.name) (params : g.params = f.params)
    (entry : ∀ b, f.blocks.head? = some b → keep b ∧
      g.blocks.head? = some { b with terminator := terminator b })
    (block : ∀ {id b}, f.block? id = some b → keep b →
      g.block? id = some { b with terminator := terminator b })
    («return» : ∀ {b value versions effectOrder},
      b.terminator = .return value versions effectOrder →
        terminator b = .return value versions effectOrder)
    (edge : ∀ {b}, b ∈ f.blocks → keep b → ∀ {env e}, known env →
      b.terminator.taken env = some e →
        (terminator b).taken env = some e ∧ ∀ c, f.block? e.target = some c → keep c)
    (known_enter : ∀ {args F}, f.enter args = some F → known F.env)
    (known_step : ∀ {b i t env env'}, b ∈ f.blocks → i ∈ b.instructions → known env →
      Stepped t env i env' → known env')
    (known_follow : ∀ {c env} {xs : List KirValue}, c ∈ f.blocks → known env →
      known (env.setAll ((c.params.map (·.value)).zip xs))) : Rewiring f g where
  hidden _ := False
  known := known
  keep := keep
  blocks b := { b with terminator := terminator b }
  bound := 0
  name := name
  functionParams := params
  entry := entry
  block := block
  params _ := rfl
  instructions _ := rfl
  sees _ _ _ _ _ _ := .inr id
  «return» := by
    intro b _ _ value versions effectOrder h
    exact ⟨«return» h, fun _ _ ↦ .inr id⟩
  edge := by
    intro b hb hkeep env env' e hknown hagree htaken
    obtain rfl := agree_of_nothing_hidden hagree
    obtain ⟨htaken', hkept⟩ := edge hb hkeep hknown htaken
    exact ⟨fun _ _ ↦ .inr id, 0, le_rfl, e, htaken', .refl e, hkept⟩
  known_enter := known_enter
  known_step := known_step
  known_follow := known_follow

/-- Only the blocks matter. -/
def Rewiring.ofBlocks {f g : KirFunction} (name : g.name = f.name) (params : g.params = f.params)
    (blocks : g.blocks = f.blocks) : Rewiring f g :=
  Rewiring.ofTerminators (fun _ ↦ True) (fun _ ↦ True) (·.terminator) name params
    (fun _ hb ↦ ⟨trivial, by rw [blocks]; exact hb⟩)
    (fun hb _ ↦ by rw [KirFunction.block?, blocks]; exact hb) (fun h ↦ h)
    (fun _ _ _ _ _ htaken ↦ ⟨htaken, fun _ _ ↦ trivial⟩) (fun _ ↦ trivial)
    (fun _ _ _ _ ↦ trivial) (fun _ _ ↦ trivial)

/-! ## Rewired modules -/

/-- A frame of a module whose functions are rewired one by one. -/
def Rewires (m : KirModule) (T : KirFunction → KirFunction)
    (w : ∀ f ∈ m.functions, Rewiring f (T f)) (n : Nat) (F F' : Frame) : Prop :=
  ∃ f, ∃ hf : f ∈ m.functions, (w f hf).Answers n F F'

/-- Rewiring the functions of a module keeps what it does. -/
theorem KirModule.refinedBy_of_rewirings {m : KirModule} {T : KirFunction → KirFunction}
    (w : ∀ f ∈ m.functions, Rewiring f (T f)) :
    m.RefinedBy (m.mapFunctions T) := by
  refine KirModule.refinedBy_of_simulation (Rewires m T w) fun t ↦ ?_
  constructor
  case enter =>
    intro name f args F hf hF
    have hmem := (KirModule.mem_functions_of_function? hf).1
    obtain ⟨F', hF', hbeside⟩ := (w f hmem).enter hF
    exact ⟨T f, F', _, KirModule.mapFunctions_function? (fun f hf ↦ (w f hf).name) hf, hF', f, hmem,
      hbeside.answers⟩
  case next =>
    rintro n F F' G past memory memory' printed ⟨f, hf, ⟨h, rfl⟩ | ⟨h, hn⟩⟩ - hmove
    · rcases h.next hmove with ⟨hm, hp, k, hk, hbehind⟩ | ⟨G', hG', hbeside⟩
      · exact .inl ⟨hm, hp, k, Nat.lt_succ_of_le hk, f, hf, .inr ⟨hbehind, hk⟩⟩
      · exact .inr ⟨_, F', G', .refl, hG', f, hf, hbeside.answers⟩
    · rcases h.next hmove with ⟨hm, hp, k, hk, hbehind⟩ | ⟨G', hG', hbeside⟩
      · exact .inl ⟨hm, hp, k, hk, f, hf, .inr ⟨hbehind, hk.le.trans hn⟩⟩
      · exact .inr ⟨_, F', G', .refl, hG', f, hf, hbeside.answers⟩
  case fail =>
    rintro n F F' past memory failure ⟨f, hf, ⟨h, rfl⟩ | ⟨h, hn⟩⟩ - hmove
    · exact ⟨F', .refl, h.fail hmove⟩
    · obtain ⟨-, hstuck | ⟨G, -, hnext⟩⟩ := h.moves t memory
      · cases hstuck.symm.trans hmove
      · cases hnext.symm.trans hmove
  case call =>
    rintro n F F' past memory name args results G ⟨f, hf, ⟨h, rfl⟩ | ⟨h, hn⟩⟩ - hmove
    · obtain ⟨G', hG', hwaits⟩ := h.call hmove
      refine ⟨F', results, G', .refl, hG', fun values env hbind ↦ ?_⟩
      obtain ⟨env', hbind', hbeside⟩ := hwaits values env hbind
      exact ⟨_, env', hbind', f, hf, hbeside.answers⟩
    · obtain ⟨-, hstuck | ⟨G, -, hnext⟩⟩ := h.moves t memory
      · cases hstuck.symm.trans hmove
      · cases hnext.symm.trans hmove
  case «return» =>
    rintro n F F' past memory value ⟨f, hf, ⟨h, rfl⟩ | ⟨h, hn⟩⟩ - hmove
    · exact ⟨F', .refl, h.return hmove⟩
    · obtain ⟨-, hstuck | ⟨G, -, hnext⟩⟩ := h.moves t memory
      · cases hstuck.symm.trans hmove
      · cases hnext.symm.trans hmove

theorem KirModule.refinedBy_mapFunctions {m : KirModule} {T : KirFunction → KirFunction}
    (h : ∀ f ∈ m.functions, Nonempty (Rewiring f (T f))) : m.RefinedBy (m.mapFunctions T) :=
  KirModule.refinedBy_of_rewirings fun f hf ↦ Classical.choice (h f hf)

end CalcKernel
