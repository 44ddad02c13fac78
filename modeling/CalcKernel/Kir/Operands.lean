import CalcKernel.Kir.ValueValidation

/-!
# Operands

What an instruction does depends on the values of its operands only.  Environments that
agree on a set of values agree on it after every instruction whose operands are in the set.
-/

namespace CalcKernel

/-- The environments have the same values for the live ones. -/
def Env.Agree (live : ValueId → Prop) (env env' : Env) : Prop := ∀ v, live v → env v = env' v

section Operands

variable {env env' : Env} {v : ValueId} {t : TargetModel} {m : Memory}

theorem intOperand_congr (h : env v = env' v) : intOperand env v = intOperand env' v := by
  rw [intOperand, intOperand, h]

theorem boolOperand_congr (h : env v = env' v) : boolOperand env v = boolOperand env' v := by
  rw [boolOperand, boolOperand, h]

theorem pointerOperand_congr (h : env v = env' v) :
    pointerOperand env v = pointerOperand env' v := by
  rw [pointerOperand, pointerOperand, h]

theorem sliceOperand_congr (h : env v = env' v) : sliceOperand env v = sliceOperand env' v := by
  rw [sliceOperand, sliceOperand, h]

theorem vectorOperand_congr (h : env v = env' v) :
    vectorOperand env v = vectorOperand env' v := by
  rw [vectorOperand, vectorOperand, h]

theorem maskOperand_congr (h : env v = env' v) : maskOperand env v = maskOperand env' v := by
  rw [maskOperand, maskOperand, h]

theorem Env.getAll_congr {vs : List ValueId} (h : ∀ v ∈ vs, env v = env' v) :
    env.getAll vs = env'.getAll vs := by
  induction vs with
  | nil => rfl
  | cons v vs ih =>
      rw [Env.getAll, Env.getAll, h v List.mem_cons_self,
        ih fun w hw ↦ h w (List.mem_cons_of_mem _ hw)]

/-- A place in a value names one of its operands. -/
theorem KirPlace.locate_local {place : KirPlace} {path : List String}
    (h : place.locate t env m = some (.local v path)) : v ∈ place.uses := by
  induction place generalizing path with
  | value w _ _ =>
      cases h
      exact List.mem_singleton_self _
  | deref p _ _ =>
      obtain ⟨a, -, h⟩ := Option.map_eq_some_iff.mp h
      cases h
  | index base i _ _ ih =>
      obtain ⟨loc, hloc, h⟩ := Option.bind_eq_some_iff.mp h
      split at h
      · obtain ⟨n, -, h⟩ := Option.map_eq_some_iff.mp h
        cases h
      · cases h
  | sliceIndex s i _ _ =>
      obtain ⟨p, -, h⟩ := Option.bind_eq_some_iff.mp h
      obtain ⟨n, -, h⟩ := Option.map_eq_some_iff.mp h
      cases h
  | field base name _ _ ih =>
      obtain ⟨loc, hloc, h⟩ := Option.map_eq_some_iff.mp h
      cases loc with
      | memory a => cases h
      | «local» w path' =>
          cases h
          exact ih hloc

theorem Location.read_congr {loc : Location} {type : MirType}
    (h : ∀ v path, loc = .local v path → env v = env' v) :
    loc.read t env m type = loc.read t env' m type := by
  cases loc with
  | memory a => rfl
  | «local» v path => rw [Location.read, Location.read, h v path rfl]

theorem KirPlace.locate_congr {place : KirPlace} (h : ∀ v ∈ place.uses, env v = env' v) :
    place.locate t env m = place.locate t env' m := by
  induction place with
  | value v _ _ => rfl
  | deref p _ _ =>
      rw [KirPlace.locate, KirPlace.locate, pointerOperand_congr (h p (List.mem_singleton_self p))]
  | index base i _ _ ih =>
      have hbase : ∀ v ∈ base.uses, env v = env' v := fun v hv ↦
        h v (List.mem_append_left _ hv)
      have hi := h i (List.mem_append_right _ (List.mem_singleton_self i))
      rw [KirPlace.locate, KirPlace.locate, ← ih hbase]
      cases hloc : base.locate t env m with
      | none => rfl
      | some loc =>
          rw [Option.bind_some, Option.bind_some, intOperand_congr hi, Location.read_congr]
          rintro v path rfl
          exact hbase v (KirPlace.locate_local hloc)
  | sliceIndex s i _ _ =>
      rw [KirPlace.locate, KirPlace.locate, sliceOperand_congr (h s (by simp [KirPlace.uses])),
        intOperand_congr (h i (by simp [KirPlace.uses]))]
  | field base name _ _ ih => rw [KirPlace.locate, KirPlace.locate, ih h]

theorem KirPlace.read_congr {place : KirPlace} (h : ∀ v ∈ place.uses, env v = env' v)
    {loc : Location} (hloc : place.locate t env m = some loc) (type : MirType) :
    loc.read t env m type = loc.read t env' m type := by
  refine Location.read_congr ?_
  rintro v path rfl
  exact h v (KirPlace.locate_local hloc)

theorem KirVersionPredicateConjunct.eval_congr {conjunct : KirVersionPredicateConjunct}
    (h : ∀ v ∈ conjunct.uses, env v = env' v) : conjunct.eval t env = conjunct.eval t env' := by
  cases conjunct with
  | tripThreshold v minimum =>
      rw [eval, eval, intOperand_congr (h v (List.mem_singleton_self v))]
  | addressIntervalsDisjoint left leftCount leftBytes right rightCount rightBytes =>
      rw [eval, eval, sliceOperand_congr (h left (by simp [uses])),
        intOperand_congr (h leftCount (by simp [uses])),
        sliceOperand_congr (h right (by simp [uses])),
        intOperand_congr (h rightCount (by simp [uses]))]
  | wasmSliceRange slice start count bytes =>
      rw [eval, eval, sliceOperand_congr (h slice (by simp [uses])),
        intOperand_congr (h start (by simp [uses])),
        intOperand_congr (h count (by simp [uses]))]

theorem KirVersionPredicate.eval_congr {predicate : KirVersionPredicate}
    (h : ∀ v ∈ predicate.conjuncts.flatMap (·.uses), env v = env' v) :
    predicate.eval t env = predicate.eval t env' := by
  rw [eval, eval]
  congr 1
  have hall : ∀ c ∈ predicate.conjuncts, c.eval t env = c.eval t env' := fun c hc ↦
    KirVersionPredicateConjunct.eval_congr fun v hv ↦ h v (List.mem_flatMap.mpr ⟨c, hc, hv⟩)
  generalize predicate.conjuncts = conjuncts at hall
  induction conjuncts with
  | nil => rfl
  | cons c conjuncts ih =>
      rw [List.mapM_cons, List.mapM_cons, hall c List.mem_cons_self,
        ih fun d hd ↦ hall d (List.mem_cons_of_mem _ hd)]

theorem KirVectorMemoryAccess.base_congr {access : KirVectorMemoryAccess}
    (h : ∀ v ∈ access.uses, env v = env' v) : access.base t env = access.base t env' := by
  rw [base, base, sliceOperand_congr (h access.slice (by simp [uses])),
    intOperand_congr (h access.start (by simp [uses]))]

theorem evalInstruction_congr {i : KirInstruction} (h : ∀ v ∈ i.uses, env v = env' v) :
    evalInstruction t env m i = evalInstruction t env' m i := by
  obtain ⟨id, results, kind, memory, effect⟩ := i
  cases kind with
  | undef | constInt | constFloat | constBool | guard | store | vectorStore | call | runtimeCall =>
      rfl
  | copy v | cast op v => simp only [evalInstruction, h v (by simp [KirInstruction.uses])]
  | binary op l r semantics =>
      simp only [evalInstruction, h l (by simp [KirInstruction.uses]),
        h r (by simp [KirInstruction.uses])]
  | unary op v semantics => simp only [evalInstruction, h v (by simp [KirInstruction.uses])]
  | compare op l r =>
      simp only [evalInstruction, h l (by simp [KirInstruction.uses]),
        h r (by simp [KirInstruction.uses])]
  | checkCondition kind args =>
      have hargs : env.getAll args = env'.getAll args := Env.getAll_congr h
      simp only [evalInstruction, hargs]
  | address place => simp only [evalInstruction, KirPlace.locate_congr h]
  | load place =>
      simp only [evalInstruction, ← KirPlace.locate_congr h]
      cases hloc : place.locate t env m with
      | none => rfl
      | some loc => rw [Option.bind_some, Option.bind_some, KirPlace.read_congr h hloc]
  | makeSlice data len =>
      simp only [evalInstruction, pointerOperand_congr (h data (by simp [KirInstruction.uses])),
        intOperand_congr (h len (by simp [KirInstruction.uses]))]
  | sliceData s | sliceLen s =>
      simp only [evalInstruction, sliceOperand_congr (h s (by simp [KirInstruction.uses]))]
  | subslice s start stop =>
      simp only [evalInstruction, sliceOperand_congr (h s (by simp [KirInstruction.uses])),
        intOperand_congr (h start (by simp [KirInstruction.uses])),
        intOperand_congr (h stop (by simp [KirInstruction.uses]))]
  | versionPredicate predicate =>
      simp only [evalInstruction, KirVersionPredicate.eval_congr h]
  | vectorSplat scalar region =>
      simp only [evalInstruction, laneCount, h scalar (by simp [KirInstruction.uses])]
  | vectorLoad access region =>
      simp only [evalInstruction, KirVectorMemoryAccess.base_congr h]
  | vectorBinary op l r semantics proof region =>
      simp only [evalInstruction, vectorOperand_congr (h l (by simp [KirInstruction.uses])),
        vectorOperand_congr (h r (by simp [KirInstruction.uses]))]
  | vectorUnary op v semantics proof region =>
      cases op with
      | negate =>
          simp only [evalInstruction, vectorOperand_congr (h v (by simp [KirInstruction.uses]))]
      | maskNot =>
          simp only [evalInstruction, maskOperand_congr (h v (by simp [KirInstruction.uses]))]
  | vectorCompare op l r region =>
      simp only [evalInstruction, vectorOperand_congr (h l (by simp [KirInstruction.uses])),
        vectorOperand_congr (h r (by simp [KirInstruction.uses]))]
  | vectorSelect mask a b region =>
      simp only [evalInstruction, maskOperand_congr (h mask (by simp [KirInstruction.uses])),
        vectorOperand_congr (h a (by simp [KirInstruction.uses])),
        vectorOperand_congr (h b (by simp [KirInstruction.uses]))]
  | vectorCast op v region | vectorExtract v lane region | vectorReduce op v semantics region =>
      simp only [evalInstruction, vectorOperand_congr (h v (by simp [KirInstruction.uses]))]
  | vectorInsert v scalar lane region =>
      simp only [evalInstruction, vectorOperand_congr (h v (by simp [KirInstruction.uses])),
        h scalar (by simp [KirInstruction.uses])]

end Operands

/-! ## Agreement -/

namespace Env.Agree

variable {live : ValueId → Prop} {env env' : Env}

theorem set (h : Agree live env env') (v : ValueId) (x : KirValue) :
    Agree live (env.set v x) (env'.set v x) := by
  intro w hw
  by_cases hv : w = v
  · rw [hv, Env.set_same, Env.set_same]
  · rw [Env.set_of_ne env hv, Env.set_of_ne env' hv]
    exact h w hw

theorem setAll (h : Agree live env env') (l : List (ValueId × KirValue)) :
    Agree live (env.setAll l) (env'.setAll l) := by
  induction l generalizing env env' with
  | nil => exact h
  | cons p l ih => exact ih (h.set p.1 p.2)

theorem bindResults (h : Agree live env env') {results : List KirResult} {values : List KirValue}
    {e : Env} (hbind : env.bindResults results values = some e) :
    ∃ e', env'.bindResults results values = some e' ∧ Agree live e e' := by
  unfold Env.bindResults at hbind ⊢
  split at hbind
  · rename_i hlength
    cases hbind
    exact ⟨_, if_pos hlength, h.setAll _⟩
  · cases hbind

/-- A store to the live values keeps the agreement. -/
theorem write (h : Agree live env env') {t : TargetModel} {m m' : Memory} {type : MirType}
    {x : KirValue} {loc : Location} (hloc : ∀ v path, loc = .local v path → live v) {e : Env}
    (hwrite : loc.write t env m type x = some (e, m')) :
    ∃ e', loc.write t env' m type x = some (e', m') ∧ Agree live e e' := by
  cases loc with
  | memory a =>
      obtain ⟨n, hn, heq⟩ := Option.map_eq_some_iff.mp hwrite
      cases heq
      exact ⟨env', by rw [Location.write, hn]; rfl, h⟩
  | «local» v path =>
      cases path with
      | nil => cases hwrite
      | cons name path =>
          obtain ⟨old, hold, hwrite⟩ := Option.bind_eq_some_iff.mp hwrite
          obtain ⟨new, hnew, heq⟩ := Option.map_eq_some_iff.mp hwrite
          cases heq
          refine ⟨env'.set v new, ?_, h.set v new⟩
          rw [Location.write, ← h v (hloc v _ rfl), hold, Option.bind_some, hnew]
          rfl

/-- Outcomes that differ in environments only, and there not in what is live. -/
inductive Outcomes (live : ValueId → Prop) : InstructionOutcome → InstructionOutcome → Prop
  | next {env env' : Env} (h : Agree live env env') (memory : Memory) (printed : List Printed) :
      Outcomes live (.next env memory printed) (.next env' memory printed)
  | fail (failure : KirFailureKind) : Outcomes live (.fail failure) (.fail failure)

/-- An instruction whose operands are live does the same in environments that agree. -/
theorem execute (h : Agree live env env') {t : TargetModel} {m : Memory} {i : KirInstruction}
    (hlive : ∀ v ∈ i.uses, live v) {o : InstructionOutcome}
    (hi : executeInstruction t env m i = some o) :
    ∃ o', executeInstruction t env' m i = some o' ∧ Outcomes live o o' := by
  have huses : ∀ v ∈ i.uses, env v = env' v := fun v hv ↦ h v (hlive v hv)
  have hcomputed : (evalInstruction t env m i).bind (fun xs ↦
      (env.bindResults i.results xs).map fun e ↦ InstructionOutcome.next e m []) = some o →
      ∃ o', ((evalInstruction t env' m i).bind fun xs ↦
        (env'.bindResults i.results xs).map fun e ↦ InstructionOutcome.next e m []) = some o' ∧
          Outcomes live o o' := by
    intro hi
    obtain ⟨xs, hxs, hi⟩ := Option.bind_eq_some_iff.mp hi
    obtain ⟨e, he, rfl⟩ := Option.map_eq_some_iff.mp hi
    obtain ⟨e', he', hagree⟩ := h.bindResults he
    refine ⟨_, ?_, .next hagree m []⟩
    rw [← evalInstruction_congr huses, hxs, Option.bind_some, he']
    rfl
  obtain ⟨id, results, kind, memory, effect⟩ := i
  cases kind with
  | guard condition failure =>
      have hcondition := boolOperand_congr (huses condition (List.mem_singleton_self _))
      obtain ⟨failed, hfailed, rfl⟩ := Option.map_eq_some_iff.mp hi
      refine ⟨if failed then .fail failure else .next env' m [], ?_, ?_⟩
      · simp only [executeInstruction, ← hcondition, hfailed, Option.map_some]
      cases failed
      · exact .next h m []
      · exact .fail failure
  | store place v =>
      have hplace : ∀ w ∈ place.uses, w ∈ place.uses ++ [v] := fun w ↦ List.mem_append_left _
      obtain ⟨loc, hloc, hi⟩ := Option.bind_eq_some_iff.mp hi
      obtain ⟨x, hx, hi⟩ := Option.bind_eq_some_iff.mp hi
      obtain ⟨⟨e, m'⟩, hwrite, rfl⟩ := Option.map_eq_some_iff.mp hi
      obtain ⟨e', hwrite', hagree⟩ := h.write (fun w path heq ↦
        hlive w (hplace w (KirPlace.locate_local (heq ▸ hloc)))) hwrite
      refine ⟨_, ?_, .next hagree m' []⟩
      have hloc' := (KirPlace.locate_congr fun w hw ↦ huses w (hplace w hw)).symm.trans hloc
      have hx' := (huses v (List.mem_append_right _ (List.mem_singleton_self v))).symm.trans hx
      simp only [executeInstruction, hloc', hx', Option.bind_some, hwrite', Option.map_some]
  | vectorStore access v region =>
      obtain ⟨a, ha, hi⟩ := Option.bind_eq_some_iff.mp hi
      obtain ⟨xs, hxs, hi⟩ := Option.bind_eq_some_iff.mp hi
      obtain ⟨m', hm', rfl⟩ := Option.map_eq_some_iff.mp hi
      refine ⟨_, ?_, .next h m' []⟩
      have ha' := (KirVectorMemoryAccess.base_congr fun w hw ↦
        huses w (List.mem_append_left _ hw)).symm.trans ha
      have hxs' := (vectorOperand_congr
        (huses v (List.mem_append_right _ (List.mem_singleton_self v)))).symm.trans hxs
      simp only [executeInstruction, ha', hxs', Option.bind_some, hm', Option.map_some]
  | runtimeCall intrinsic args =>
      obtain ⟨xs, hxs, rfl⟩ := Option.map_eq_some_iff.mp hi
      have hargs : env'.getAll args = some xs := (Env.getAll_congr huses).symm.trans hxs
      exact ⟨_, by simp only [executeInstruction, hargs, Option.map_some],
        .next h m [(intrinsic, xs)]⟩
  | _ => exact hcomputed hi

end Env.Agree

end CalcKernel
