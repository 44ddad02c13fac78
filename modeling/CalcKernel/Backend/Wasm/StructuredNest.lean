import CalcKernel.Backend.Wasm.StructuredRuns

/-!
# The nest of a valid plan

A valid plan is laid out without a missing label, every block stands in the nest, and
wherever a block stands the labels of its edges are among those around it.
-/

namespace CalcKernel

/-- The blocks of a region in the order they are laid out. -/
def StructureItems.blocks : StructureItems → List BlockId
  | .nil => []
  | .block id rest => id :: rest.blocks
  | .loop _ body rest => body.blocks ++ rest.blocks

section Nest

variable {f : KirFunction} {plan : StructurePlan} {exitLabel : String}
  {items rest body : StructureItems} {codes inner : List (BlockId × List Wat)} {b id x : BlockId}
  {nest : List Wat} {scopes outer : List String} {activeLoops forward : List BlockId}

/-! ## Emission succeeds -/

variable (exitLabel) in
theorem emitBlock_isSome (hvalid : plan.Valid f) {source : KirBlock}
    (hsource : f.block? id = some source)
    (harms : ∀ arm ∈ source.terminator.outgoingEdges, ∃ target,
      scopedTarget plan.labels activeLoops forward arm.2.target = some target ∧
        ((id, arm.1), target) ∈ plan.branchTargets) :
    ∃ code, f.emitBlock plan exitLabel id = some code := by
  have hlabel : ∀ arm ∈ source.terminator.outgoingEdges, ∃ label,
      plan.edgeLabel id arm.1 = some label := by
    intro arm harm
    obtain ⟨target, htarget, hmem⟩ := harms arm harm
    rcases edgeLabel_of_scoped hvalid.labels.toNamed hvalid.nodup htarget hmem with
      ⟨_, _, hl⟩ | ⟨_, _, hl⟩
    · exact ⟨_, hl⟩
    · exact ⟨_, hl⟩
  rw [KirFunction.emitBlock, hsource, Option.bind_eq_bind, Option.bind_some]
  cases hterm : source.terminator with
  | «return» value memory effectOrder => exact ⟨_, Eq.refl _⟩
  | jump edge =>
      rw [hterm] at hlabel
      obtain ⟨label, hl⟩ := hlabel (0, edge) (List.mem_singleton_self _)
      refine ⟨[.code id, .br label], ?_⟩
      simp only [StructurePlan.emitTerminator, hl, Option.map_some, Option.bind_eq_bind,
        Option.bind_some]
  | branch condition thenEdge elseEdge =>
      rw [hterm] at hlabel
      obtain ⟨thenLabel, hthen⟩ := hlabel (0, thenEdge) List.mem_cons_self
      obtain ⟨elseLabel, helse⟩ := hlabel (1, elseEdge)
        (List.mem_cons_of_mem _ (List.mem_singleton_self _))
      refine ⟨[.code id, .ifElse [.br thenLabel] [.br elseLabel]], ?_⟩
      simp only [StructurePlan.emitTerminator, hthen, helse, Option.bind_eq_bind,
        Option.bind_some]

variable (exitLabel) in
theorem itemCodes_isSome (hvalid : plan.Valid f) (hheaders : items.headers ⊆ plan.root.headers)
    (hscoped : f.Scoped plan.labels plan.branchTargets activeLoops forward items) :
    ∃ codes, f.itemCodes plan exitLabel items = some codes := by
  induction items generalizing activeLoops forward with
  | nil => exact ⟨[], Eq.refl _⟩
  | block id rest ih =>
      obtain ⟨⟨source, hsource, harms⟩, hrest⟩ := hscoped
      obtain ⟨code, hcode⟩ := emitBlock_isSome exitLabel hvalid hsource harms
      obtain ⟨later, hlater⟩ := ih hheaders hrest
      exact ⟨(id, code) :: later, by simp [KirFunction.itemCodes, hcode, hlater]⟩
  | loop header body rest ihBody ihRest =>
      obtain ⟨inner, hinner⟩ := ihBody
        (fun y hy ↦ hheaders (List.mem_cons_of_mem _ (List.mem_append_left _ hy))) hscoped.1
      obtain ⟨later, hlater⟩ := ihRest
        (fun y hy ↦ hheaders (List.mem_cons_of_mem _ (List.mem_append_right _ hy))) hscoped.2
      obtain ⟨label, hlabel⟩ := Option.isSome_iff_exists.mp
        (hvalid.labels.headers header (hheaders List.mem_cons_self))
      refine ⟨(header, [.loop label (plan.layCodes inner)]) :: later, ?_⟩
      simp [KirFunction.itemCodes, hinner, hlater, hlabel]

/-- The code of the root region leads to its first block. -/
theorem leads_root (hvalid : plan.Valid f) (hfirst : plan.root.heads.head? = some x)
    (hcodes : f.itemCodes plan exitLabel plan.root = some codes) (frames : List WatFrame) :
    Leads f plan exitLabel frames plan.root x ⟨plan.layCodes codes, frames⟩ := by
  have hlabels : ∀ {first : BlockId × List Wat} {later : List (BlockId × List Wat)},
      codes = first :: later → ∀ item ∈ later,
        (plan.labels.forward.lookup item.1).isSome := by
    rintro first later rfl item hitem
    apply hvalid.labels.heads
    apply StructureItems.heads_subset_deepHeads
    rw [← heads_itemCodes hcodes]
    exact List.mem_map_of_mem (List.mem_cons_of_mem _ hitem)
  have hheaders := hvalid.headersFirst
  have hdeep := List.Subset.refl plan.root.deepHeads
  generalize hroot : plan.root = root at hfirst hcodes hheaders
  rw [hroot] at hdeep
  cases root with
  | nil => cases hfirst
  | block id rest =>
      cases hfirst
      obtain ⟨code, later, hcode, hlater, rfl⟩ := itemCodes_block hcodes
      exact ⟨_, .block hcode hlater, enters_layCodes (x, code) later (hlabels (Eq.refl _)) frames⟩
  | loop header body rest =>
      cases hfirst
      obtain ⟨inner, label, later, hinner, hlabel, hlater, rfl⟩ := itemCodes_loop hcodes
      have hbody : body.deepHeads ⊆ plan.root.deepHeads := by
        rw [hroot]
        exact fun y hy ↦ hdeep (List.mem_cons_of_mem _ (List.mem_append_left _ hy))
      obtain ⟨q, hq, henters⟩ := leads_loop hvalid.labels hbody hheaders.1 hinner hlabel hlater
        frames
      exact ⟨q, hq, (enters_layCodes _ later (hlabels (Eq.refl _)) frames).trans henters⟩

/-! ## Scopes in the nest -/

theorem EmittedUnder.mono {nest' : List Wat} (h : EmittedUnder nest b scopes)
    (hsub : ∀ w ∈ nest, w ∈ nest') : EmittedUnder nest' b scopes := by
  cases h with
  | code hmem => exact .code (hsub _ hmem)
  | block hmem hbody => exact .block (hsub _ hmem) hbody
  | loop hmem hbody => exact .loop (hsub _ hmem) hbody

theorem EmittedUnder.cons {w : Wat} (h : EmittedUnder (w :: nest) b scopes) :
    EmittedUnder [w] b scopes ∨ EmittedUnder nest b scopes := by
  cases h with
  | code hmem =>
      rcases List.mem_cons.mp hmem with rfl | hmem
      · exact Or.inl (.code (List.mem_singleton_self _))
      · exact Or.inr (.code hmem)
  | block hmem hbody =>
      rcases List.mem_cons.mp hmem with rfl | hmem
      · exact Or.inl (.block (List.mem_singleton_self _) hbody)
      · exact Or.inr (.block hmem hbody)
  | loop hmem hbody =>
      rcases List.mem_cons.mp hmem with rfl | hmem
      · exact Or.inl (.loop (List.mem_singleton_self _) hbody)
      · exact Or.inr (.loop hmem hbody)

theorem emittedUnder_block {label : String} {inner : List Wat} :
    EmittedUnder [.block label inner] b scopes ↔
      ∃ within, EmittedUnder inner b within ∧ scopes = within ++ [label] := by
  constructor
  · intro h
    cases h with
    | code hmem => simp at hmem
    | block hmem hbody =>
        cases List.mem_singleton.mp hmem
        exact ⟨_, hbody, Eq.refl _⟩
    | loop hmem _ => simp at hmem
  · rintro ⟨within, hbody, rfl⟩
    exact .block (List.mem_singleton_self _) hbody

theorem emittedUnder_loop {label : String} {inner : List Wat} :
    EmittedUnder [.loop label inner] b scopes ↔
      ∃ within, EmittedUnder inner b within ∧ scopes = within ++ [label] := by
  constructor
  · intro h
    cases h with
    | code hmem => simp at hmem
    | block hmem _ => simp at hmem
    | loop hmem hbody =>
        cases List.mem_singleton.mp hmem
        exact ⟨_, hbody, Eq.refl _⟩
  · rintro ⟨within, hbody, rfl⟩
    exact .loop (List.mem_singleton_self _) hbody

/-- A terminator holds no code of a block. -/
theorem emittedUnder_emitBlock {code : List Wat} (hcode : f.emitBlock plan exitLabel id = some code) :
    EmittedUnder code b scopes ↔ b = id ∧ scopes = [] := by
  obtain ⟨source, _, hcode⟩ := Option.bind_eq_some_iff.mp hcode
  obtain ⟨terminator, hterm, hcode⟩ := Option.bind_eq_some_iff.mp hcode
  cases hcode
  have hplain : ∀ w ∈ terminator, (∃ label, w = .br label) ∨ ∃ t e, w = .ifElse t e := by
    intro w hw
    cases hsource : source.terminator with
    | «return» value memory effectOrder =>
        rw [hsource] at hterm
        cases hterm
        exact Or.inl ⟨_, List.mem_singleton.mp hw⟩
    | jump edge =>
        rw [hsource] at hterm
        obtain ⟨label, _, rfl⟩ := Option.map_eq_some_iff.mp hterm
        exact Or.inl ⟨_, List.mem_singleton.mp hw⟩
    | branch condition thenEdge elseEdge =>
        rw [hsource] at hterm
        obtain ⟨thenLabel, _, hterm⟩ := Option.bind_eq_some_iff.mp hterm
        obtain ⟨elseLabel, _, hterm⟩ := Option.bind_eq_some_iff.mp hterm
        cases hterm
        exact Or.inr ⟨_, _, List.mem_singleton.mp hw⟩
  constructor
  · intro h
    cases h with
    | code hmem =>
        rcases List.mem_cons.mp hmem with heq | hmem
        · cases heq
          exact ⟨Eq.refl _, Eq.refl _⟩
        · rcases hplain _ hmem with ⟨_, heq⟩ | ⟨_, _, heq⟩ <;> cases heq
    | block hmem _ =>
        rcases List.mem_cons.mp hmem with heq | hmem
        · cases heq
        · rcases hplain _ hmem with ⟨_, heq⟩ | ⟨_, _, heq⟩ <;> cases heq
    | loop hmem _ =>
        rcases List.mem_cons.mp hmem with heq | hmem
        · cases heq
        · rcases hplain _ hmem with ⟨_, heq⟩ | ⟨_, _, heq⟩ <;> cases heq
  · rintro ⟨rfl, rfl⟩
    exact .code List.mem_cons_self

def laterLabels (later : List (BlockId × List Wat)) : List String :=
  later.map fun item ↦ forwardLabel item.1

/-- Inside a region a block stands in the code of an item, under the labels of the later items. -/
theorem emittedUnder_layCodes (hlabels : plan.labels.Complete plan.root)
    (hdeep : ∀ item ∈ codes, item.1 ∈ plan.root.deepHeads) :
    EmittedUnder (plan.layCodes codes) b scopes ↔ ∃ earlier item later within,
      codes = earlier ++ item :: later ∧ EmittedUnder item.2 b within ∧
        scopes = within ++ laterLabels later := by
  induction codes using List.reverseRecOn generalizing scopes with
  | nil =>
      constructor
      · intro h
        cases h with
        | code hmem => cases hmem
        | block hmem _ => cases hmem
        | loop hmem _ => cases hmem
      · rintro ⟨earlier, item, later, _, hcodes, _⟩
        cases earlier <;> cases hcodes
  | append_singleton codes last ih =>
      have ih := @ih
      cases codes with
      | nil =>
          have hlay : plan.layCodes ([] ++ [last]) = last.2 := by simp [StructurePlan.layCodes]
          rw [hlay]
          constructor
          · intro h
            exact ⟨[], last, [], scopes, Eq.refl _, h, by simp [laterLabels]⟩
          · rintro ⟨earlier, item, later, within, hcodes, hitem, rfl⟩
            cases earlier with
            | nil =>
                cases hcodes
                simpa [laterLabels] using hitem
            | cons first earlier =>
                injection hcodes with _ hcodes
                cases earlier <;> cases hcodes
      | cons first codes =>
          obtain ⟨label, hlabel⟩ := Option.isSome_iff_exists.mp (hlabels.heads last.1
            (hdeep last (List.mem_append_right _ (List.mem_singleton_self _))))
          have hname := hlabels.forward last.1 label hlabel
          subst hname
          have hlay : plan.layCodes (first :: codes ++ [last]) =
              .block (forwardLabel last.1) (plan.layCodes (first :: codes)) :: last.2 := by
            simp only [StructurePlan.layCodes, List.cons_append, List.foldl_append,
              List.foldl_cons, List.foldl_nil, hlabel]
          have ih := fun scopes ↦ @ih scopes
            fun item hitem ↦ hdeep item (List.mem_append_left _ hitem)
          rw [hlay]
          constructor
          · intro h
            rcases h.cons with h | h
            · obtain ⟨within, hwithin, rfl⟩ := emittedUnder_block.mp h
              obtain ⟨earlier, item, later, within', hcodes, hitem, rfl⟩ := (ih within).mp hwithin
              refine ⟨earlier, item, later ++ [last], within', ?_, hitem, ?_⟩
              · rw [hcodes, List.append_assoc, List.cons_append]
              · simp [laterLabels]
            · exact ⟨first :: codes, last, [], scopes, Eq.refl _, h, by simp [laterLabels]⟩
          · rintro ⟨earlier, item, later, within, hcodes, hitem, rfl⟩
            rcases List.eq_nil_or_concat later with rfl | ⟨later, final, rfl⟩
            · obtain ⟨_, hlast⟩ := List.append_inj' hcodes (Eq.refl _)
              cases hlast
              refine EmittedUnder.mono (by simpa [laterLabels] using hitem) fun w hw ↦ ?_
              exact List.mem_cons_of_mem _ hw
            · rw [List.concat_eq_append, ← List.cons_append, ← List.append_assoc] at hcodes
              obtain ⟨hinit, hlast⟩ := List.append_inj' hcodes (Eq.refl _)
              cases hlast
              have hinner := (ih (within ++ laterLabels later)).mpr
                ⟨earlier, item, later, within, hinit, hitem, Eq.refl _⟩
              have hblock := emittedUnder_block.mpr
                ⟨_, hinner, Eq.refl (within ++ laterLabels later ++ [forwardLabel last.1])⟩
              refine EmittedUnder.mono (by simpa [laterLabels] using hblock) fun w hw ↦ ?_
              rw [List.mem_singleton.mp hw]
              exact List.mem_cons_self

/-- What the label of an edge is, and that it is among the labels around its source. -/
def EdgesInScope (f : KirFunction) (plan : StructurePlan) (b : BlockId)
    (scopes : List String) : Prop :=
  ∃ source, f.block? b = some source ∧ ∀ arm ∈ source.terminator.outgoingEdges,
    (plan.branchTargets.lookup (b, arm.1) = some (.loop arm.2.target) ∨
      plan.branchTargets.lookup (b, arm.1) = some (.forward arm.2.target)) ∧
    ∃ label ∈ scopes, plan.edgeLabel b arm.1 = some label

/-- The labels in scope around an item. -/
theorem edgesInScope_item (hvalid : plan.Valid f)
    (hdeep : items.deepHeads ⊆ plan.root.deepHeads)
    (hscoped : f.Scoped plan.labels plan.branchTargets activeLoops forward items)
    (hactive : ∀ x ∈ activeLoops, loopLabel x ∈ outer)
    (hforward : ∀ x ∈ forward, forwardLabel x ∈ outer)
    (hcodes : f.itemCodes plan exitLabel items = some codes)
    {earlier later : List (BlockId × List Wat)} {item : BlockId × List Wat}
    (hsplit : codes = earlier ++ item :: later) (hitem : EmittedUnder item.2 b scopes) :
    EdgesInScope f plan b (scopes ++ (laterLabels later ++ outer)) := by
  induction items generalizing activeLoops forward outer codes earlier item later scopes with
  | nil =>
      cases hcodes
      cases earlier <;> cases hsplit
  | block id rest ih =>
      obtain ⟨code, after, hcode, hafter, rfl⟩ := itemCodes_block hcodes
      obtain ⟨⟨source, hsource, harms⟩, hrest⟩ := hscoped
      cases earlier with
      | cons first earlier =>
          injection hsplit with _ hsplit
          exact ih (fun y hy ↦ hdeep (List.mem_cons_of_mem _ hy)) hrest hactive hforward hafter
            hsplit hitem
      | nil =>
          injection hsplit with hhead htail
          subst hhead htail
          obtain ⟨rfl, rfl⟩ := (emittedUnder_emitBlock hcode).mp hitem
          refine ⟨source, hsource, fun arm harm ↦ ?_⟩
          obtain ⟨target, htarget, hmem⟩ := harms arm harm
          have hlookup := Lib.lookup_of_mem hvalid.nodup hmem
          rcases edgeLabel_of_scoped hvalid.labels.toNamed hvalid.nodup htarget hmem with
            ⟨hx, rfl, hl⟩ | ⟨hx, rfl, hl⟩
          · refine ⟨Or.inl hlookup, _, ?_, hl⟩
            exact List.mem_append_right _ (List.mem_append_right _ (hactive _ hx))
          · refine ⟨Or.inr hlookup, _, ?_, hl⟩
            rw [List.nil_append, List.mem_append]
            refine (List.mem_append.mp hx).imp (fun hx ↦ ?_) (hforward _)
            rw [← heads_itemCodes hafter] at hx
            obtain ⟨entry, hentry, hx⟩ := List.mem_map.mp hx
            exact List.mem_map.mpr ⟨entry, hentry, congrArg forwardLabel hx⟩
  | loop header body rest ihBody ihRest =>
      obtain ⟨inner, label, after, hinner, hlabel, hafter, rfl⟩ := itemCodes_loop hcodes
      cases earlier with
      | cons first earlier =>
          injection hsplit with _ hsplit
          exact ihRest (fun y hy ↦ hdeep (List.mem_cons_of_mem _ (List.mem_append_right _ hy)))
            hscoped.2 hactive hforward hafter hsplit hitem
      | nil =>
          injection hsplit with hhead htail
          subst hhead htail
          have hdeepBody : body.deepHeads ⊆ plan.root.deepHeads := fun y hy ↦
            hdeep (List.mem_cons_of_mem _ (List.mem_append_left _ hy))
          obtain ⟨within, hwithin, rfl⟩ := emittedUnder_loop.mp hitem
          obtain ⟨earlier', item', later', within', hsplit', hitem', rfl⟩ :=
            (emittedUnder_layCodes hvalid.labels (fun entry hentry ↦ hdeepBody
              (StructureItems.heads_subset_deepHeads body
                (heads_itemCodes hinner ▸ List.mem_map_of_mem hentry)))).mp hwithin
          obtain rfl := hvalid.labels.loop header label hlabel
          have hactiveBody : ∀ x ∈ header :: activeLoops,
              loopLabel x ∈ loopLabel header :: (laterLabels after ++ outer) := by
            intro x hx
            rcases List.mem_cons.mp hx with rfl | hx
            · exact List.mem_cons_self
            · exact List.mem_cons_of_mem _ (List.mem_append_right _ (hactive x hx))
          have hforwardBody : ∀ x ∈ rest.heads ++ forward,
              forwardLabel x ∈ loopLabel header :: (laterLabels after ++ outer) := by
            intro x hx
            refine List.mem_cons_of_mem _ (List.mem_append.mpr ?_)
            refine (List.mem_append.mp hx).imp (fun hx ↦ ?_) (hforward x)
            rw [← heads_itemCodes hafter] at hx
            obtain ⟨entry, hentry, hx⟩ := List.mem_map.mp hx
            exact List.mem_map.mpr ⟨entry, hentry, congrArg forwardLabel hx⟩
          have hbody := ihBody hdeepBody hscoped.1 hactiveBody hforwardBody hinner hsplit' hitem'
          simpa [List.append_assoc] using hbody

/-- Every block of a region stands in the code of one of its items. -/
theorem exists_emittedUnder_item (hlabels : plan.labels.Complete plan.root)
    (hdeep : items.deepHeads ⊆ plan.root.deepHeads)
    (hcodes : f.itemCodes plan exitLabel items = some codes) (hb : b ∈ items.blocks) :
    ∃ item ∈ codes, ∃ scopes, EmittedUnder item.2 b scopes := by
  induction items generalizing codes with
  | nil => cases hb
  | block id rest ih =>
      obtain ⟨code, after, hcode, hafter, rfl⟩ := itemCodes_block hcodes
      rcases List.mem_cons.mp hb with rfl | hb
      · exact ⟨_, List.mem_cons_self, [], (emittedUnder_emitBlock hcode).mpr ⟨Eq.refl _, Eq.refl _⟩⟩
      · obtain ⟨item, hitem, hemitted⟩ := ih (fun y hy ↦ hdeep (List.mem_cons_of_mem _ hy)) hafter hb
        exact ⟨item, List.mem_cons_of_mem _ hitem, hemitted⟩
  | loop header body rest ihBody ihRest =>
      obtain ⟨inner, label, after, hinner, hlabel, hafter, rfl⟩ := itemCodes_loop hcodes
      have hdeepBody : body.deepHeads ⊆ plan.root.deepHeads := fun y hy ↦
        hdeep (List.mem_cons_of_mem _ (List.mem_append_left _ hy))
      rcases List.mem_append.mp hb with hb | hb
      · obtain ⟨item, hitem, scopes, hemitted⟩ := ihBody hdeepBody hinner hb
        obtain ⟨earlier, later, hsplit⟩ := List.append_of_mem hitem
        have hbody := (emittedUnder_layCodes hlabels fun entry hentry ↦ hdeepBody
          (StructureItems.heads_subset_deepHeads body
            (heads_itemCodes hinner ▸ List.mem_map_of_mem hentry))).mpr
          ⟨earlier, item, later, scopes, hsplit, hemitted, Eq.refl _⟩
        exact ⟨_, List.mem_cons_self, _, emittedUnder_loop.mpr ⟨_, hbody, Eq.refl _⟩⟩
      · obtain ⟨item, hitem, hemitted⟩ := ihRest
          (fun y hy ↦ hdeep (List.mem_cons_of_mem _ (List.mem_append_right _ hy))) hafter hb
        exact ⟨item, List.mem_cons_of_mem _ hitem, hemitted⟩

end Nest

/-- A valid plan is laid out as a nest in which every edge has a label in scope, and the
nest visits the blocks that the flow graph visits. -/
theorem StructurePlan.Valid.emitted {f : KirFunction} {plan : StructurePlan} {exitLabel : String}
    {entry : BlockId} (hvalid : plan.Valid f) (hexit : FreshExit exitLabel)
    (hentry : plan.root.heads.head? = some entry) :
    ∃ nest, f.emitStructured plan exitLabel = some nest ∧
      (∀ b ∈ plan.root.blocks, ∃ scopes, EmittedUnder nest b scopes) ∧
      (∀ b scopes, EmittedUnder nest b scopes → EdgesInScope f plan b scopes) ∧
      ∀ decisions, Lib.EventMachine.SameTrace (f.flowMachine decisions) (watMachine decisions)
        ⟨entry, 0⟩ ⟨nest, [], 0⟩ := by
  obtain ⟨codes, hcodes⟩ := itemCodes_isSome exitLabel hvalid
    (List.Subset.refl _) hvalid.scopes
  have hdeep : ∀ item ∈ codes, item.1 ∈ plan.root.deepHeads := fun item hitem ↦
    StructureItems.heads_subset_deepHeads _ (heads_itemCodes hcodes ▸ List.mem_map_of_mem hitem)
  refine ⟨[.block exitLabel (plan.layCodes codes)], ?_, fun b hb ↦ ?_, fun b scopes h ↦ ?_,
    fun decisions ↦ ?_⟩
  · simp [KirFunction.emitStructured, KirFunction.emitRegion, hcodes]
  · obtain ⟨item, hitem, scopes, hemitted⟩ := exists_emittedUnder_item hvalid.labels
      (List.Subset.refl _) hcodes hb
    obtain ⟨earlier, later, hsplit⟩ := List.append_of_mem hitem
    exact ⟨_, emittedUnder_block.mpr ⟨_, (emittedUnder_layCodes hvalid.labels hdeep).mpr
      ⟨earlier, item, later, scopes, hsplit, hemitted, Eq.refl _⟩, Eq.refl _⟩⟩
  · obtain ⟨within, hwithin, rfl⟩ := emittedUnder_block.mp h
    obtain ⟨earlier, item, later, scopes, hsplit, hemitted, rfl⟩ :=
      (emittedUnder_layCodes hvalid.labels hdeep).mp hwithin
    have hedges : EdgesInScope f plan b (scopes ++ (laterLabels later ++ [exitLabel])) :=
      edgesInScope_item hvalid (List.Subset.refl _) hvalid.scopes (by simp) (by simp) hcodes hsplit
        hemitted
    rwa [List.append_assoc]
  · have hplaces : ∀ b p, Placed f plan exitLabel (rootFrames exitLabel) plan.root b p →
        PlaceValid f plan exitLabel b p := by
      intro b p hp
      refine hp.valid hvalid hexit ⟨by simp, by simp, ?_⟩ (List.Subset.refl _)
        hvalid.headersFirst (fun _ _ h ↦ h) hvalid.scopes
      simp [rootFrames, watBranch]
    apply (answers_flow decisions hplaces).sameTrace
    obtain ⟨q, hq, henters⟩ := leads_root hvalid hentry hcodes (rootFrames exitLabel)
    exact ⟨q, hq, ((WatPlace.enters_block exitLabel _ [] []).trans henters) decisions 0⟩

end CalcKernel
