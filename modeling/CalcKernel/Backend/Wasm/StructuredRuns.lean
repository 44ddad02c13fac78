import CalcKernel.Backend.Wasm.Scopes

/-!
# Runs of the nest

Each block of a plan has one place in the nest: its code with the frames around it.
A branch to the label of an edge leads to the place of the edge's target, so the nest
and the flow graph visit the same blocks.
-/

namespace CalcKernel

open Relation

/-- The frames of the blocks that end in front of the later items. -/
def laterFrames (labels : StructureLabels) (codes : List (BlockId × List Wat)) : List WatFrame :=
  codes.map fun item ↦ ⟨labels.forward.lookup item.1, item.2, item.2⟩

/-- A place in the nest. -/
structure WatPlace where
  code : List Wat
  frames : List WatFrame

def WatPlace.state (p : WatPlace) (taken : Nat) : WatState := ⟨p.code, p.frames, taken⟩

/-- Without events or decisions the run gets from one place to another. -/
def WatPlace.Enters (p q : WatPlace) : Prop :=
  ∀ decisions taken, (watMachine decisions).Silent (p.state taken) (q.state taken)

namespace WatPlace

theorem Enters.refl (p : WatPlace) : p.Enters p := fun _ _ ↦ .refl

theorem Enters.trans {p q r : WatPlace} (h : p.Enters q) (h' : q.Enters r) : p.Enters r :=
  fun decisions taken ↦ ReflTransGen.trans (h decisions taken) (h' decisions taken)

theorem enters_block (label : String) (body rest : List Wat) (frames : List WatFrame) :
    Enters ⟨.block label body :: rest, frames⟩ ⟨body, ⟨some label, rest, rest⟩ :: frames⟩ :=
  fun _ _ ↦ .single (Eq.refl _)

theorem enters_loop (label : String) (body rest : List Wat) (frames : List WatFrame) :
    Enters ⟨.loop label body :: rest, frames⟩
      ⟨body, ⟨some label, .loop label body :: rest, rest⟩ :: frames⟩ :=
  fun _ _ ↦ .single (Eq.refl _)

end WatPlace

/-! ## Places -/

/-- The place of a block, for a region that is run with frames around it. -/
inductive Placed (f : KirFunction) (plan : StructurePlan) (exitLabel : String) :
    List WatFrame → StructureItems → BlockId → WatPlace → Prop
  | block {frames id rest code codes} (hcode : f.emitBlock plan exitLabel id = some code)
      (hcodes : f.itemCodes plan exitLabel rest = some codes) :
      Placed f plan exitLabel frames (.block id rest) id
        ⟨code, laterFrames plan.labels codes ++ frames⟩
  | inner {frames header body rest label inner codes b p}
      (hinner : f.itemCodes plan exitLabel body = some inner)
      (hlabel : plan.labels.loop.lookup header = some label)
      (hcodes : f.itemCodes plan exitLabel rest = some codes)
      (h : Placed f plan exitLabel (⟨some label, [.loop label (plan.layCodes inner)], []⟩ ::
        (laterFrames plan.labels codes ++ frames)) body b p) :
      Placed f plan exitLabel frames (.loop header body rest) b p
  | afterBlock {frames id rest b p} (h : Placed f plan exitLabel frames rest b p) :
      Placed f plan exitLabel frames (.block id rest) b p
  | afterLoop {frames header body rest b p} (h : Placed f plan exitLabel frames rest b p) :
      Placed f plan exitLabel frames (.loop header body rest) b p

section Places

variable {f : KirFunction} {plan : StructurePlan} {exitLabel : String} {frames : List WatFrame}
  {items rest body : StructureItems} {codes inner : List (BlockId × List Wat)} {b id x : BlockId}
  {p q : WatPlace}

/-- The body of every loop starts with its header. -/
def StructureItems.HeadersFirst : StructureItems → Prop
  | .nil => True
  | .block _ rest => rest.HeadersFirst
  | .loop header body rest =>
      (∃ inner, body = .block header inner) ∧ body.HeadersFirst ∧ rest.HeadersFirst

theorem itemCodes_block {codes : List (BlockId × List Wat)}
    (h : f.itemCodes plan exitLabel (.block id rest) = some codes) :
    ∃ code later, f.emitBlock plan exitLabel id = some code ∧
      f.itemCodes plan exitLabel rest = some later ∧ codes = (id, code) :: later := by
  rw [KirFunction.itemCodes] at h
  obtain ⟨code, hcode, h⟩ := Option.bind_eq_some_iff.mp h
  obtain ⟨later, hlater, h⟩ := Option.bind_eq_some_iff.mp h
  cases h
  exact ⟨code, later, hcode, hlater, by simp⟩

theorem itemCodes_loop {codes : List (BlockId × List Wat)}
    (h : f.itemCodes plan exitLabel (.loop id body rest) = some codes) :
    ∃ inner label later, f.itemCodes plan exitLabel body = some inner ∧
      plan.labels.loop.lookup id = some label ∧ f.itemCodes plan exitLabel rest = some later ∧
      codes = (id, [.loop label (plan.layCodes inner)]) :: later := by
  rw [KirFunction.itemCodes] at h
  obtain ⟨inner, hinner, h⟩ := Option.bind_eq_some_iff.mp h
  obtain ⟨label, hlabel, h⟩ := Option.bind_eq_some_iff.mp h
  obtain ⟨later, hlater, h⟩ := Option.bind_eq_some_iff.mp h
  cases h
  exact ⟨inner, label, later, hinner, hlabel, hlater, by simp⟩

theorem heads_itemCodes (h : f.itemCodes plan exitLabel items = some codes) :
    codes.map (·.1) = items.heads := by
  induction items generalizing codes with
  | nil =>
      cases h
      simp [StructureItems.heads]
  | block id rest ih =>
      obtain ⟨code, later, _, hlater, rfl⟩ := itemCodes_block h
      rw [List.map_cons, ih hlater, StructureItems.heads]
  | loop header body rest _ ih =>
      obtain ⟨inner, label, later, _, _, hlater, rfl⟩ := itemCodes_loop h
      rw [List.map_cons, ih hlater, StructureItems.heads]

/-- A region is entered at its first item, inside the blocks of the others. -/
theorem enters_layCodes (first : BlockId × List Wat) (later : List (BlockId × List Wat))
    (hlabels : ∀ item ∈ later, (plan.labels.forward.lookup item.1).isSome)
    (frames : List WatFrame) :
    WatPlace.Enters ⟨plan.layCodes (first :: later), frames⟩
      ⟨first.2, laterFrames plan.labels later ++ frames⟩ := by
  induction later using List.reverseRecOn generalizing frames with
  | nil => exact WatPlace.Enters.refl _
  | append_singleton later item ih =>
      obtain ⟨label, hlabel⟩ := Option.isSome_iff_exists.mp
        (hlabels item (List.mem_append_right _ (List.mem_singleton_self item)))
      have hcode : plan.layCodes (first :: (later ++ [item])) =
          .block label (plan.layCodes (first :: later)) :: item.2 := by
        simp only [StructurePlan.layCodes, List.foldl_append, List.foldl_cons, List.foldl_nil,
          hlabel]
      have hframes : laterFrames plan.labels (later ++ [item]) ++ frames =
          laterFrames plan.labels later ++ (⟨some label, item.2, item.2⟩ :: frames) := by
        simp [laterFrames, hlabel]
      rw [hcode, hframes]
      refine (WatPlace.enters_block label _ _ frames).trans (ih (fun item hitem ↦ ?_) _)
      exact hlabels item (List.mem_append_left _ hitem)

/-- Whatever precedes the place of a block is left behind silently: the code of an item
leads to the block that stands for the item. -/
def Leads (f : KirFunction) (plan : StructurePlan) (exitLabel : String) (frames : List WatFrame)
    (items : StructureItems) (x : BlockId) (p : WatPlace) : Prop :=
  ∃ q, Placed f plan exitLabel frames items x q ∧ p.Enters q

theorem leads_loop (hlabels : plan.labels.Complete plan.root)
    (hdeep : body.deepHeads ⊆ plan.root.deepHeads) (hfirst : ∃ inner, body = .block x inner)
    (hinner : f.itemCodes plan exitLabel body = some inner) {label : String}
    (hlabel : plan.labels.loop.lookup x = some label)
    (hcodes : f.itemCodes plan exitLabel rest = some codes) (frames : List WatFrame) :
    Leads f plan exitLabel frames (.loop x body rest) x
      ⟨[.loop label (plan.layCodes inner)], laterFrames plan.labels codes ++ frames⟩ := by
  obtain ⟨afterHeader, rfl⟩ := hfirst
  obtain ⟨code, later, hcode, hlater, rfl⟩ := itemCodes_block hinner
  refine ⟨_, .inner hinner hlabel hcodes (.block hcode hlater),
    (WatPlace.enters_loop label _ [] _).trans (enters_layCodes (x, code) later ?_ _)⟩
  intro item hitem
  apply hlabels.heads
  apply hdeep
  apply StructureItems.heads_subset_deepHeads
  rw [StructureItems.heads, ← heads_itemCodes hlater]
  exact List.mem_cons_of_mem _ (List.mem_map_of_mem hitem)

/-- A branch to the label of an item leads to its block. -/
theorem leads_forward (hlabels : plan.labels.Complete plan.root)
    (hdeep : items.deepHeads ⊆ plan.root.deepHeads) (hfirst : items.HeadersFirst)
    (hcodes : f.itemCodes plan exitLabel items = some codes) (hx : x ∈ items.heads) :
    ∃ code frames', watBranch (forwardLabel x) (laterFrames plan.labels codes ++ frames) =
        some (code, frames') ∧ Leads f plan exitLabel frames items x ⟨code, frames'⟩ := by
  have hname : ∀ {y}, y ∈ plan.root.deepHeads → ∀ {code : List Wat} {fs : List WatFrame},
      watBranch (forwardLabel x) (⟨plan.labels.forward.lookup y, code, code⟩ :: fs) =
        if y = x then some (code, fs) else watBranch (forwardLabel x) fs := by
    intro y hy code fs
    obtain ⟨l, hl⟩ := Option.isSome_iff_exists.mp (hlabels.heads y hy)
    obtain rfl := hlabels.forward y l hl
    rw [watBranch, hl]
    by_cases hyx : y = x
    · rw [hyx, if_pos (Eq.refl _), if_pos (Eq.refl _)]
    · rw [if_neg hyx, if_neg fun heq ↦ hyx (forwardLabel_injective (Option.some.inj heq))]
  induction items generalizing codes with
  | nil => cases hx
  | block id rest ih =>
      obtain ⟨code, later, hcode, hlater, rfl⟩ := itemCodes_block hcodes
      have hid : id ∈ plan.root.deepHeads := hdeep List.mem_cons_self
      rw [laterFrames, List.map_cons, List.cons_append, hname hid]
      by_cases hidx : id = x
      · subst hidx
        rw [if_pos (Eq.refl _)]
        exact ⟨_, _, Eq.refl _, _, .block hcode hlater, .refl _⟩
      · rw [if_neg hidx]
        have hx' : x ∈ rest.heads := (List.mem_cons.mp hx).resolve_left (Ne.symm hidx)
        obtain ⟨code', frames', hbranch, q, hq, hent⟩ :=
          ih (fun y hy ↦ hdeep (List.mem_cons_of_mem _ hy)) hfirst hlater hx'
        exact ⟨code', frames', hbranch, q, .afterBlock hq, hent⟩
  | loop header body rest _ ih =>
      obtain ⟨inner, label, later, hinner, hlabel, hlater, rfl⟩ := itemCodes_loop hcodes
      obtain ⟨hheader, _, hrestFirst⟩ := hfirst
      have hid : header ∈ plan.root.deepHeads := hdeep List.mem_cons_self
      rw [laterFrames, List.map_cons, List.cons_append, hname hid]
      by_cases hidx : header = x
      · subst hidx
        rw [if_pos (Eq.refl _)]
        refine ⟨_, _, Eq.refl _, leads_loop hlabels (fun y hy ↦ ?_) hheader hinner hlabel hlater frames⟩
        exact hdeep (List.mem_cons_of_mem _ (List.mem_append_left _ hy))
      · rw [if_neg hidx]
        have hx' : x ∈ rest.heads := (List.mem_cons.mp hx).resolve_left (Ne.symm hidx)
        obtain ⟨code', frames', hbranch, q, hq, hent⟩ :=
          ih (fun y hy ↦ hdeep (List.mem_cons_of_mem _ (List.mem_append_right _ hy))) hrestFirst
            hlater hx'
        exact ⟨code', frames', hbranch, q, .afterLoop hq, hent⟩

/-- A branch to another label passes the frames of the later items. -/
theorem watBranch_laterFrames {labels : StructureLabels} {label : String}
    (hne : ∀ y ∈ codes.map (·.1), labels.forward.lookup y ≠ some label) :
    watBranch label (laterFrames labels codes ++ frames) = watBranch label frames := by
  induction codes with
  | nil => simp [laterFrames]
  | cons item codes ih =>
      rw [laterFrames, List.map_cons, List.cons_append, watBranch,
        if_neg (hne item.1 List.mem_cons_self)]
      exact ih fun y hy ↦ hne y (List.mem_cons_of_mem _ hy)

/-! ## Branches -/

theorem scopedTarget_eq_some {labels : StructureLabels} {activeLoops forward : List BlockId}
    {target : BranchTarget} (h : scopedTarget labels activeLoops forward x = some target) :
    (x ∈ activeLoops ∧ target = .loop x ∧ (labels.loop.lookup x).isSome) ∨
      (x ∈ forward ∧ target = .forward x ∧ (labels.forward.lookup x).isSome) := by
  unfold scopedTarget at h
  split at h
  · rename_i hx
    split at h
    · rename_i hl
      cases h
      exact Or.inl ⟨hx, Eq.refl _, hl⟩
    · cases h
  · split at h
    · rename_i hx
      split at h
      · rename_i hl
        cases h
        exact Or.inr ⟨hx, Eq.refl _, hl⟩
      · cases h
    · cases h

/-- An edge is labelled by where its target is in scope. -/
theorem edgeLabel_of_scoped {activeLoops forward : List BlockId} {arm : Nat}
    {target : BranchTarget} (hnamed : plan.labels.Named)
    (hnodup : (plan.branchTargets.map (·.1)).Nodup)
    (hscoped : scopedTarget plan.labels activeLoops forward x = some target)
    (hmem : ((b, arm), target) ∈ plan.branchTargets) :
    (x ∈ activeLoops ∧ target = .loop x ∧ plan.edgeLabel b arm = some (loopLabel x)) ∨
      (x ∈ forward ∧ target = .forward x ∧ plan.edgeLabel b arm = some (forwardLabel x)) := by
  have hlookup := Lib.lookup_of_mem hnodup hmem
  rcases scopedTarget_eq_some hscoped with ⟨hx, rfl, hl⟩ | ⟨hx, rfl, hl⟩
  · obtain ⟨l, hl⟩ := Option.isSome_iff_exists.mp hl
    refine Or.inl ⟨hx, Eq.refl _, ?_⟩
    rw [StructurePlan.edgeLabel, hlookup, ← hnamed.loop x l hl]
    exact hl
  · obtain ⟨l, hl⟩ := Option.isSome_iff_exists.mp hl
    refine Or.inr ⟨hx, Eq.refl _, ?_⟩
    rw [StructurePlan.edgeLabel, hlookup, ← hnamed.forward x l hl]
    exact hl

/-- The frame of the block around the root region. -/
def rootFrames (exitLabel : String) : List WatFrame := [⟨some exitLabel, [], []⟩]

/-- A branch to the label leads to the place of the block. -/
def Resolves (f : KirFunction) (plan : StructurePlan) (exitLabel : String)
    (frames : List WatFrame) (label : String) (x : BlockId) : Prop :=
  ∃ code frames', watBranch label frames = some (code, frames') ∧
    Leads f plan exitLabel (rootFrames exitLabel) plan.root x ⟨code, frames'⟩

/-- Every label in scope leads where it should. -/
structure ScopeFrames (f : KirFunction) (plan : StructurePlan) (exitLabel : String)
    (frames : List WatFrame) (activeLoops forward : List BlockId) : Prop where
  loop : ∀ x ∈ activeLoops, Resolves f plan exitLabel frames (loopLabel x) x
  forward : ∀ x ∈ forward, Resolves f plan exitLabel frames (forwardLabel x) x
  exit : watBranch exitLabel frames = some ([], [])

/-- What the planner establishes about a plan. -/
structure StructurePlan.Valid (f : KirFunction) (plan : StructurePlan) : Prop where
  labels : plan.labels.Complete plan.root
  nodup : (plan.branchTargets.map (·.1)).Nodup
  scopes : f.Scoped plan.labels plan.branchTargets [] [] plan.root
  headersFirst : plan.root.HeadersFirst

/-- A label of its own for the block around the root region. -/
def FreshExit (exitLabel : String) : Prop :=
  ∀ x, exitLabel ≠ forwardLabel x ∧ exitLabel ≠ loopLabel x

/-- The frames of the later items bring these items into scope. -/
theorem ScopeFrames.later {activeLoops forward : List BlockId} (hvalid : plan.Valid f)
    (hexit : FreshExit exitLabel)
    (hframes : ScopeFrames f plan exitLabel frames activeLoops forward)
    (hdeep : items.deepHeads ⊆ plan.root.deepHeads) (hfirst : items.HeadersFirst)
    (hsub : ∀ x p, Placed f plan exitLabel frames items x p →
      Placed f plan exitLabel (rootFrames exitLabel) plan.root x p)
    (hcodes : f.itemCodes plan exitLabel items = some codes) :
    ScopeFrames f plan exitLabel (laterFrames plan.labels codes ++ frames) activeLoops
      (items.heads ++ forward) := by
  have hother : ∀ {label : String}, (∀ y ∈ items.heads, label ≠ forwardLabel y) →
      watBranch label (laterFrames plan.labels codes ++ frames) = watBranch label frames := by
    intro label hne
    refine watBranch_laterFrames fun y hy hl ↦ ?_
    rw [heads_itemCodes hcodes] at hy
    exact hne y hy (hvalid.labels.forward y label hl)
  refine ⟨fun x hx ↦ ?_, fun x hx ↦ ?_, ?_⟩
  · obtain ⟨code, frames', hbranch, hleads⟩ := hframes.loop x hx
    exact ⟨code, frames', (hother fun y _ ↦ loopLabel_ne_forwardLabel x y).trans hbranch, hleads⟩
  · by_cases hmem : x ∈ items.heads
    · obtain ⟨code, frames', hbranch, q, hq, henters⟩ :=
        leads_forward hvalid.labels hdeep hfirst hcodes hmem
      exact ⟨code, frames', hbranch, q, hsub x q hq, henters⟩
    · have hx : x ∈ forward := (List.mem_append.mp hx).resolve_left hmem
      obtain ⟨code, frames', hbranch, hleads⟩ := hframes.forward x hx
      refine ⟨code, frames', (hother fun y hy heq ↦ hmem ?_).trans hbranch, hleads⟩
      rw [forwardLabel_injective heq]
      exact hy
  · exact (hother fun y _ ↦ (hexit y).1).trans hframes.exit

/-- The frame of a loop brings its header into scope. -/
theorem ScopeFrames.enterLoop {activeLoops forward : List BlockId} {code : List Wat}
    (hexit : FreshExit exitLabel)
    (hframes : ScopeFrames f plan exitLabel frames activeLoops forward)
    (hleads : Leads f plan exitLabel (rootFrames exitLabel) plan.root x ⟨code, frames⟩) :
    ScopeFrames f plan exitLabel (⟨some (loopLabel x), code, []⟩ :: frames) (x :: activeLoops)
      forward := by
  have hother : ∀ {label : String}, loopLabel x ≠ label →
      watBranch label (⟨some (loopLabel x), code, []⟩ :: frames) = watBranch label frames := by
    intro label hne
    rw [watBranch, if_neg fun heq ↦ hne (Option.some.inj heq)]
  refine ⟨fun y hy ↦ ?_, fun y hy ↦ ?_, (hother (hexit x).2.symm).trans hframes.exit⟩
  · by_cases hyx : y = x
    · subst hyx
      exact ⟨code, frames, if_pos (Eq.refl _), hleads⟩
    · obtain ⟨code', frames', hbranch, hleads'⟩ :=
        hframes.loop y ((List.mem_cons.mp hy).resolve_left hyx)
      exact ⟨code', frames',
        (hother fun heq ↦ hyx (loopLabel_injective heq).symm).trans hbranch, hleads'⟩
  · obtain ⟨code', frames', hbranch, hleads'⟩ := hframes.forward y hy
    exact ⟨code', frames', (hother (loopLabel_ne_forwardLabel x y)).trans hbranch, hleads'⟩

/-- What holds at the place of a block. -/
structure PlaceValid (f : KirFunction) (plan : StructurePlan) (exitLabel : String) (b : BlockId)
    (p : WatPlace) : Prop where
  code : f.emitBlock plan exitLabel b = some p.code
  exit : watBranch exitLabel p.frames = some ([], [])
  edges : ∃ source, f.block? b = some source ∧ ∀ arm ∈ source.terminator.outgoingEdges,
    ∃ label, plan.edgeLabel b arm.1 = some label ∧
      Resolves f plan exitLabel p.frames label arm.2.target

theorem Placed.valid {activeLoops forward : List BlockId} (hvalid : plan.Valid f)
    (hexit : FreshExit exitLabel)
    (hframes : ScopeFrames f plan exitLabel frames activeLoops forward)
    (hdeep : items.deepHeads ⊆ plan.root.deepHeads) (hfirst : items.HeadersFirst)
    (hsub : ∀ x p, Placed f plan exitLabel frames items x p →
      Placed f plan exitLabel (rootFrames exitLabel) plan.root x p)
    (hscoped : f.Scoped plan.labels plan.branchTargets activeLoops forward items)
    (hp : Placed f plan exitLabel frames items b p) : PlaceValid f plan exitLabel b p := by
  induction hp generalizing activeLoops forward with
  | @block frames id rest code codes hcode hcodes =>
      have hrest := hframes.later hvalid hexit (fun y hy ↦ hdeep (List.mem_cons_of_mem _ hy)) hfirst
        (fun x p hp ↦ hsub x p (.afterBlock hp)) hcodes
      obtain ⟨⟨source, hsource, harms⟩, _⟩ := hscoped
      refine ⟨hcode, hrest.exit, source, hsource, fun arm harm ↦ ?_⟩
      obtain ⟨target, htarget, hmem⟩ := harms arm harm
      rcases edgeLabel_of_scoped hvalid.labels.toNamed hvalid.nodup htarget hmem with
        ⟨hx, _, hlabel⟩ | ⟨hx, _, hlabel⟩
      · exact ⟨_, hlabel, hrest.loop _ hx⟩
      · exact ⟨_, hlabel, hrest.forward _ hx⟩
  | @inner frames header body rest label inner codes b p hinner hlabel hcodes _ ih =>
      obtain ⟨hheader, hbodyFirst, hrestFirst⟩ := hfirst
      have hdeepBody : body.deepHeads ⊆ plan.root.deepHeads := fun y hy ↦
        hdeep (List.mem_cons_of_mem _ (List.mem_append_left _ hy))
      have hrest := hframes.later hvalid hexit
        (fun y hy ↦ hdeep (List.mem_cons_of_mem _ (List.mem_append_right _ hy))) hrestFirst
        (fun x p hp ↦ hsub x p (.afterLoop hp)) hcodes
      obtain ⟨q, hq, henters⟩ := leads_loop hvalid.labels hdeepBody hheader hinner hlabel hcodes
        frames
      have hloop := hrest.enterLoop hexit ⟨q, hsub header q hq, henters⟩
      rw [← hvalid.labels.loop header label hlabel] at hloop
      exact ih hloop hdeepBody hbodyFirst
        (fun x p hp ↦ hsub x p (.inner hinner hlabel hcodes hp)) hscoped.1
  | afterBlock _ ih =>
      exact ih hframes (fun y hy ↦ hdeep (List.mem_cons_of_mem _ hy)) hfirst
        (fun x p hp ↦ hsub x p (.afterBlock hp)) hscoped.2
  | afterLoop _ ih =>
      exact ih hframes (fun y hy ↦ hdeep (List.mem_cons_of_mem _ (List.mem_append_right _ hy)))
        hfirst.2.2 (fun x p hp ↦ hsub x p (.afterLoop hp)) hscoped.2

end Places

/-! ## The simulation -/

section Simulation

variable {f : KirFunction} {plan : StructurePlan} {exitLabel : String} {b x : BlockId}
  {p : WatPlace}

/-- The nest is at the place of the block, or gets there silently. -/
def AtBlock (f : KirFunction) (plan : StructurePlan) (exitLabel : String)
    (decisions : Nat → Bool) (s : FlowState) (t : WatState) : Prop :=
  ∃ p, Placed f plan exitLabel (rootFrames exitLabel) plan.root s.block p ∧
    (watMachine decisions).Silent t (p.state s.taken)

theorem watMachine_br {decisions : Nat → Bool} {label : String} {rest code : List Wat}
    {frames frames' : List WatFrame} (h : watBranch label frames = some (code, frames'))
    (taken : Nat) : (watMachine decisions).step ⟨.br label :: rest, frames, taken⟩ =
      ([], some ⟨code, frames', taken⟩) := by
  simp only [watMachine, h]

/-- Branching on an edge. -/
theorem Resolves.atBlock {decisions : Nat → Bool} {frames : List WatFrame} {label : String}
    (h : Resolves f plan exitLabel frames label x) (taken : Nat) :
    AtBlock f plan exitLabel decisions ⟨x, taken⟩ ⟨[.br label], frames, taken⟩ := by
  obtain ⟨code, frames', hbranch, q, hq, henters⟩ := h
  exact ⟨q, hq, (henters decisions taken).head (watMachine_br hbranch taken)⟩

/-- A branch from inside an arm of a conditional. -/
theorem Resolves.inArm {frames : List WatFrame} {label : String} {rest : List Wat}
    (h : Resolves f plan exitLabel frames label x) :
    Resolves f plan exitLabel (⟨none, rest, rest⟩ :: frames) label x := by
  obtain ⟨code, frames', hbranch, hleads⟩ := h
  refine ⟨code, frames', ?_, hleads⟩
  rw [watBranch, if_neg (by simp), hbranch]

theorem answers_flow (decisions : Nat → Bool)
    (hplaces : ∀ b p, Placed f plan exitLabel (rootFrames exitLabel) plan.root b p →
      PlaceValid f plan exitLabel b p) :
    Lib.EventMachine.Answers (f.flowMachine decisions) (watMachine decisions)
      (AtBlock f plan exitLabel decisions) := by
  rintro ⟨b, taken⟩ t ⟨p, hp, hsilent⟩
  obtain ⟨hcode, hexit, source, hsource, hedges⟩ := hplaces b p hp
  rw [KirFunction.emitBlock, hsource, Option.bind_eq_bind, Option.bind_some] at hcode
  obtain ⟨terminator, hterm, hcode⟩ := Option.bind_eq_some_iff.mp hcode
  have hvisit : (watMachine decisions).step (p.state taken) =
      ([.visit b], some ⟨terminator, p.frames, taken⟩) := by
    rw [WatPlace.state, ← Option.some.inj hcode]
    simp only [watMachine]
  cases hsourceTerm : source.terminator with
  | «return» value memory effectOrder =>
      rw [hsourceTerm] at hterm
      cases hterm
      have hleave : (watMachine decisions).step ⟨[], [], taken⟩ = ([.leave], none) := by
        simp only [watMachine]
      obtain ⟨k, hk⟩ := Lib.EventMachine.Path.after_silent hsilent
        (.next hvisit (.next (watMachine_br hexit taken) (.last hleave)))
      refine Or.inl ⟨_, k, ?_, hk⟩
      simp only [KirFunction.flowMachine, hsource, hsourceTerm, List.nil_append, List.cons_append]
  | jump edge =>
      rw [hsourceTerm] at hterm hedges
      obtain ⟨label, hlabel, hresolves⟩ := hedges (0, edge) (List.mem_singleton_self _)
      obtain ⟨label', hlabel', rfl⟩ := Option.map_eq_some_iff.mp hterm
      cases hlabel.symm.trans hlabel'
      obtain ⟨q, hq, hq'⟩ := hresolves.atBlock taken
      obtain ⟨k, hk⟩ := Lib.EventMachine.Path.of_silent hvisit hq'
      obtain ⟨k, hk⟩ := hk.after_silent hsilent
      refine Or.inr ⟨_, k, ⟨edge.target, taken⟩, _, ?_, hk, q, hq, .refl⟩
      simp only [KirFunction.flowMachine, hsource, hsourceTerm]
  | branch condition thenEdge elseEdge =>
      rw [hsourceTerm] at hterm hedges
      obtain ⟨thenLabel, hthen, hthenResolves⟩ := hedges (0, thenEdge) List.mem_cons_self
      obtain ⟨elseLabel, helse, helseResolves⟩ := hedges (1, elseEdge)
        (List.mem_cons_of_mem _ (List.mem_singleton_self _))
      simp only [StructurePlan.emitTerminator, hthen, helse, Option.bind_eq_bind,
        Option.bind_some, Option.some.injEq] at hterm
      subst hterm
      obtain ⟨label, target, hchosen, hdecision⟩ : ∃ label x,
          Resolves f plan exitLabel p.frames label x ∧
          ((if decisions taken then [Wat.br thenLabel] else [.br elseLabel]) = [.br label] ∧
            (if decisions taken then thenEdge.target else elseEdge.target) = x) := by
        cases decisions taken with
        | true => exact ⟨thenLabel, _, hthenResolves, by simp⟩
        | false => exact ⟨elseLabel, _, helseResolves, by simp⟩
      obtain ⟨q, hq, hq'⟩ := (hchosen.inArm).atBlock
        (taken + 1)
      have harm : (watMachine decisions).step
          ⟨[.ifElse [.br thenLabel] [.br elseLabel]], p.frames, taken⟩ =
            ([], some ⟨[.br label], ⟨none, [], []⟩ :: p.frames, taken + 1⟩) := by
        simp only [watMachine, hdecision.1]
      obtain ⟨k, hk⟩ := Lib.EventMachine.Path.of_silent hvisit (hq'.head harm)
      obtain ⟨k, hk⟩ := hk.after_silent hsilent
      refine Or.inr ⟨_, k, ⟨target, taken + 1⟩, _, ?_, hk, q, hq, .refl⟩
      simp only [KirFunction.flowMachine, hsource, hsourceTerm, hdecision.2]

end Simulation

end CalcKernel
