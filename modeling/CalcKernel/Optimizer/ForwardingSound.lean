import CalcKernel.Optimizer.Forwarding

/-!
# Forwarded values hold what their origin holds

A set of values that are handed over along edges and by copies from one origin.  Where the
entry block takes no parameters the origin comes before them on every path, so it is not
defined again without them, and wherever one of them is available it holds the value of the
origin.
-/

namespace CalcKernel

open Lib Relation

namespace KirFunction

variable {f : KirFunction} {b c : KirBlock} {i : KirInstruction} {j : Nat} {o v w x y : ValueId}
variable {S : ValueId → Prop} {p q : Site}

/-! ## Values from one origin -/

/-- A value of the set is handed over along every edge to the block, or by a copy. -/
inductive Handed (f : KirFunction) (S : ValueId → Prop) (x : ValueId) : Prop
  | param {b : KirBlock} {index : Nat} (hb : b ∈ f.blocks)
      (hx : (b.params.map (·.value))[index]? = some x)
      (hargs : ∀ c ∈ f.blocks, ∀ edge ∈ c.terminator.edges, edge.target = b.id →
        ∃ a, edge.args[index]? = some a ∧ S a)
  | copy {i : KirInstruction} {y : ValueId} (hi : i ∈ f.instructions) (hkind : i.kind = .copy y)
      (hx : (i.results.head?).map (·.value) = some x) (hy : S y)

theorem Handed.mono {T : ValueId → Prop} (h : f.Handed S x) (hST : ∀ y, S y → T y) :
    f.Handed T x := by
  cases h with
  | param hb hx hargs =>
      refine .param hb hx fun c hc edge hedge htarget ↦ ?_
      obtain ⟨a, ha, hSa⟩ := hargs c hc edge hedge htarget
      exact ⟨a, ha, hST a hSa⟩
  | copy hi hkind hx hy => exact .copy hi hkind hx (hST _ hy)

/-- All values of the set come from the origin: handed over, or computed from one of them. -/
def RootedIn (f : KirFunction) (o : ValueId) (S : ValueId → Prop) : Prop :=
  ∀ x, S x → x = o ∨ f.Handed S x ∨ ∃ i ∈ f.instructions, x ∈ i.defs ∧ ∃ y ∈ i.uses, S y

/-- What is handed over or computed has a site, and comes from a value available there. -/
theorem RootedIn.cases (hf : f.Strict) (h : f.RootedIn o S) (hx : S x) (hne : x ≠ o) :
    (∃ b ∈ f.blocks, f.site? x = some (b.id, 0) ∧ b.params ≠ [] ∧
      ∀ c ∈ f.blocks, f.entryGraph.edge c.id b.id →
        ∃ a, S a ∧ f.Available a (c.id, c.instructions.length)) ∨
    (∃ b ∈ f.blocks, ∃ j, f.site? x = some (b.id, j + 1) ∧
      ∃ y, S y ∧ f.Available y (b.id, j)) := by
  have hcomputed : ∀ i ∈ f.instructions, x ∈ i.defs → ∀ y ∈ i.uses, S y →
      ∃ b ∈ f.blocks, ∃ j, f.site? x = some (b.id, j + 1) ∧
        ∃ y, S y ∧ f.Available y (b.id, j) := by
    intro i hi hdef y hy hSy
    obtain ⟨b, hb, hib⟩ := mem_instructions.mp hi
    obtain ⟨j, hj⟩ := List.mem_iff_getElem?.mp hib
    exact ⟨b, hb, j, site?_of_result hf.values hb hj hdef, y, hSy, hf.uses b hb j i hj y hy⟩
  rcases h x hx with rfl | hhanded | ⟨i, hi, hdef, y, hy, hSy⟩
  · exact absurd rfl hne
  · cases hhanded with
    | @param b index hb hindex hargs =>
        have hmem : x ∈ b.params.map (·.value) := List.mem_of_getElem? hindex
        refine Or.inl ⟨b, hb, site?_of_blockParam hf.values hb hmem, ?_, ?_⟩
        · rintro hnil
          rw [hnil] at hmem
          cases hmem
        · intro c hc hedge
          obtain ⟨c', hc', hid, htarget⟩ := mem_flowPredecessors.mp hedge.1
          obtain rfl := block_ext hf.blocks hc' hc hid
          obtain ⟨edge, hedge, htarget⟩ := List.mem_map.mp htarget
          obtain ⟨a, ha, hSa⟩ := hargs c' hc' edge hedge htarget
          refine ⟨a, hSa, hf.ends c' hc' a ?_⟩
          exact List.mem_append_right _ (List.mem_flatMap.mpr ⟨edge, hedge, List.mem_of_getElem? ha⟩)
    | copy hi hkind hdef hy =>
        obtain ⟨r, hr, rfl⟩ := Option.map_eq_some_iff.mp hdef
        refine Or.inr (hcomputed _ hi (List.mem_map_of_mem (List.mem_of_head? hr)) _ ?_ hy)
        rw [KirInstruction.uses, hkind]
        exact List.mem_singleton_self _
  · exact Or.inr (hcomputed i hi hdef y hy hSy)

/-- A value of the set that is available has a site there. -/
theorem RootedIn.site (hf : f.Strict) (h : f.RootedIn o S) (ho : f.site? o = some p) (hx : S x) :
    ∃ q, f.site? x = some q := by
  by_cases hne : x = o
  · exact ⟨p, hne ▸ ho⟩
  · rcases h.cases hf hx hne with ⟨b, _, hsite, _⟩ | ⟨b, _, j, hsite, _⟩
    · exact ⟨_, hsite⟩
    · exact ⟨_, hsite⟩

/-! ## The origin comes first -/

/-- The entry block takes no parameters. -/
def PlainEntry (f : KirFunction) : Prop := ∀ b, f.blocks.head? = some b → b.params = []

instance (f : KirFunction) : Decidable f.PlainEntry :=
  match h : f.blocks.head? with
  | none => isTrue fun b hb ↦ by rw [h] at hb; cases hb
  | some b => decidable_of_iff (b.params = []) ⟨fun hb c hc ↦ by
      rw [h] at hc
      cases hc
      exact hb, fun hb ↦ hb b h⟩

theorem PlainEntry.params (hentry : f.PlainEntry) (hf : f.Strict) (hb : b ∈ f.blocks)
    (hroot : f.entryGraph.root b.id) : b.params = [] := by
  obtain ⟨first, hfirst, hid⟩ := Option.map_eq_some_iff.mp hroot
  obtain rfl := block_ext hf.blocks (List.mem_of_head? hfirst) hb hid
  exact hentry first hfirst

/-- Only the entry dominates the entry. -/
theorem eq_of_dominates_root {G : FlowGraph BlockId} {d r : BlockId} (hroot : G.root r)
    (h : G.Dominates d r) : d = r := by
  by_contra hne
  exact h r hroot (Ne.symm hne) .refl

/-- On a path that stays apart from the block of the origin no value of the set is available. -/
theorem RootedIn.not_dominates (hf : f.Strict) (hentry : f.PlainEntry) (h : f.RootedIn o S)
    (ho : f.site? o = some p) {r d : BlockId} (hroot : f.entryGraph.root r) (hr : r ≠ p.1)
    (hpath : f.entryGraph.Avoids p.1 r d) :
    ∀ x, S x → ∀ q, f.site? x = some q → ¬ f.entryGraph.Dominates q.1 d := by
  -- values defined in a block come from earlier ones or from before the block
  have hblock : ∀ d, d ≠ p.1 →
      (∀ b ∈ f.blocks, b.id = d → b.params ≠ [] →
        ∃ c ∈ f.blocks, f.entryGraph.edge c.id b.id ∧
          ∀ y, S y → ∀ q, f.site? y = some q → ¬ f.entryGraph.Dominates q.1 c.id) →
      (∀ y, S y → ∀ q, f.site? y = some q → q.1 ≠ d → ¬ f.entryGraph.Dominates q.1 d) →
      ∀ n x, S x → f.site? x ≠ some (d, n) := by
    intro d hd hparams hother n
    induction n using Nat.strong_induction_on with
    | _ n ih =>
        intro x hx hsite
        have hne : x ≠ o := by
          rintro rfl
          cases ho.symm.trans hsite
          exact hd rfl
        rcases h.cases hf hx hne with ⟨b, hb, hsite', hne, hargs⟩ | ⟨b, _, j, hsite', y, hy, havail⟩
        · cases hsite'.symm.trans hsite
          obtain ⟨c, hc, hedge, hnone⟩ := hparams b hb rfl hne
          obtain ⟨a, ha, havail⟩ := hargs c hc hedge
          obtain ⟨q, hq⟩ := h.site hf ho ha
          exact hnone a ha q hq (havail q hq).dominates
        · cases hsite'.symm.trans hsite
          obtain ⟨q, hq⟩ := h.site hf ho hy
          have hbefore := havail q hq
          by_cases hsame : q.1 = b.id
          · rw [Precedes, if_pos hsame] at hbefore
            exact ih q.2 (Nat.lt_succ_of_le hbefore) y hy (by rw [hq, ← hsame])
          · exact hother y hy q hq hsame hbefore.dominates
  induction hpath with
  | refl =>
      intro x hx q hq hdom
      have hsame := eq_of_dominates_root hroot hdom
      refine hblock r hr ?_ ?_ q.2 x hx (by rw [hq, ← hsame])
      · rintro b hb rfl hne
        exact absurd (hentry.params hf hb hroot) hne
      · intro y _ q' _ hne hdom'
        exact hne (eq_of_dominates_root hroot hdom')
  | @tail c d _ hstep ih =>
      obtain ⟨hedge, hd⟩ := hstep
      have hother : ∀ y, S y → ∀ q, f.site? y = some q → q.1 ≠ d →
          ¬ f.entryGraph.Dominates q.1 d :=
        fun y hy q hq hne hdom ↦ ih y hy q hq (hdom.of_edge (Ne.symm hne) hedge)
      intro x hx q hq hdom
      by_cases hsame : q.1 = d
      · refine hblock d hd ?_ hother q.2 x hx (by rw [hq, ← hsame])
        rintro b hb rfl _
        obtain ⟨c', hc', hid, _⟩ := mem_flowPredecessors.mp hedge.1
        exact ⟨c', hc', hid ▸ hedge, hid ▸ ih⟩
      · exact hother x hx q hq hsame hdom

/-- The block of the origin is on every path to the blocks of the set. -/
theorem RootedIn.dominates (hf : f.Strict) (hentry : f.PlainEntry) (h : f.RootedIn o S)
    (ho : f.site? o = some p) (hx : S x) (hq : f.site? x = some q) :
    f.entryGraph.Dominates p.1 q.1 :=
  fun _ hroot hr hpath ↦
    h.not_dominates hf hentry ho hroot hr hpath x hx q hq (FlowGraph.Dominates.refl _ _)

/-- The origin comes before the other values of the set. -/
theorem RootedIn.before (hf : f.Strict) (hentry : f.PlainEntry) (h : f.RootedIn o S)
    (ho : f.site? o = some p) (hx : S x) (hne : x ≠ o) (hq : f.site? x = some q)
    (hreach : f.entryGraph.Reachable q.1) : f.Before p q := by
  by_cases hsame : p.1 = q.1
  case neg =>
    refine ⟨?_, fun heq ↦ hsame (congrArg Prod.fst heq)⟩
    rw [Precedes, if_neg hsame]
    exact h.dominates hf hentry ho hx hq
  -- in one block, the values of the set are computed one from the other
  have hlater : ∀ n x, S x → x ≠ o → f.site? x = some (p.1, n) → p.2 < n := by
    intro n
    induction n using Nat.strong_induction_on with
    | _ n ih =>
        intro x hx hne hsite
        rcases h.cases hf hx hne with ⟨b, hb, hsite', hparams, hargs⟩ | ⟨b, _, j, hsite', y, hy, havail⟩
        · obtain ⟨hblock, rfl⟩ := Prod.mk.inj (Option.some.inj (hsite'.symm.trans hsite))
          obtain ⟨r, hroot, hpath⟩ := hreach
          have hr : r ≠ p.1 := fun heq ↦ hparams (hentry.params hf hb (hblock ▸ heq ▸ hroot))
          rw [← hsame] at hpath
          obtain ⟨c, havoid, hedge⟩ := FlowGraph.exists_arrival hpath hr
          obtain ⟨c', hc', hid, _⟩ := mem_flowPredecessors.mp hedge.1
          obtain ⟨a, ha, havail⟩ := hargs c' hc' (hid ▸ hblock ▸ hedge)
          obtain ⟨q', hq'⟩ := h.site hf ho ha
          have hdom := (havail q' hq').dominates
          exact absurd (hid ▸ hdom) (h.not_dominates hf hentry ho hroot hr havoid a ha q' hq')
        · obtain ⟨hblock, rfl⟩ := Prod.mk.inj (Option.some.inj (hsite'.symm.trans hsite))
          rw [hblock] at havail
          obtain ⟨q', hq'⟩ := h.site hf ho hy
          have hbefore := havail q' hq'
          have hinside : q'.1 = p.1 := FlowGraph.Dominates.antisymm (hsame ▸ hreach)
            hbefore.dominates (h.dominates hf hentry ho hy hq')
          rw [Precedes, if_pos hinside] at hbefore
          by_cases hyo : y = o
          · subst hyo
            cases ho.symm.trans hq'
            exact Nat.lt_succ_of_le hbefore
          · have hless := ih q'.2 (Nat.lt_succ_of_le hbefore) y hy hyo (by rw [hq', ← hinside])
            exact hless.trans (Nat.lt_succ_of_le hbefore)
  have hlt := hlater q.2 x hx hne (by rw [hq, hsame])
  refine ⟨?_, fun heq ↦ ?_⟩
  · rw [Precedes, if_pos hsame]
    exact hlt.le
  · rw [heq] at hlt
    exact lt_irrefl _ hlt

theorem site?_eq_some_of_later (hf : f.Strict) (hb : b ∈ f.blocks)
    (hi : b.instructions[j]? = some i) (h : f.site? v = some (b.id, j + 1)) : v ∈ i.defs := by
  rcases site?_cases h with ⟨_, _, _, heq⟩ | ⟨c, hc, k, i', hi', hv, heq⟩
  · exact absurd (congrArg Prod.snd heq) (Nat.succ_ne_zero j)
  · obtain ⟨hid, hindex⟩ := Prod.mk.inj heq
    obtain rfl := block_ext hf.blocks hb hc hid
    obtain rfl := Nat.succ.inj hindex
    obtain rfl := Option.some.inj (hi.symm.trans hi')
    exact hv

theorem site?_eq_some_of_param (hf : f.Strict) (hb : b ∈ f.blocks)
    (h : f.site? v = some (b.id, 0)) : v ∈ b.params.map (·.value) := by
  rcases site?_cases h with ⟨c, hc, hv, heq⟩ | ⟨_, _, _, _, _, _, heq⟩
  · obtain rfl := block_ext hf.blocks hb hc (congrArg Prod.fst heq)
    exact hv
  · exact absurd (congrArg Prod.snd heq) (Nat.succ_ne_zero _).symm

theorem site_le (hf : f.Strict) (hb : b ∈ f.blocks) (h : f.site? v = some p) (hid : p.1 = b.id) :
    p.2 ≤ b.instructions.length := by
  rcases site?_cases h with ⟨c, hc, _, rfl⟩ | ⟨c, hc, k, i, hi, _, rfl⟩
  · exact Nat.zero_le _
  · obtain rfl := block_ext hf.blocks hb hc hid.symm
    exact (List.getElem?_eq_some_iff.mp hi).1

/-! ## Values that follow their origin -/

/-- Where a value that is handed over is defined. -/
theorem Handed.cases (hf : f.Strict) (h : f.Handed S x) :
    (∃ b ∈ f.blocks, f.site? x = some (b.id, 0) ∧ ∃ index : Nat,
      (b.params.map (·.value))[index]? = some x ∧
      ∀ c ∈ f.blocks, ∀ edge ∈ c.terminator.edges, edge.target = b.id →
        ∃ a, edge.args[index]? = some a ∧ S a) ∨
    ∃ b ∈ f.blocks, ∃ j i y, f.site? x = some (b.id, j + 1) ∧ b.instructions[j]? = some i ∧
      i.kind = .copy y ∧ (i.results.head?).map (·.value) = some x ∧ S y := by
  cases h with
  | @param b index hb hindex hargs =>
      exact Or.inl ⟨b, hb, site?_of_blockParam hf.values hb (List.mem_of_getElem? hindex), index,
        hindex, hargs⟩
  | @copy i y hi hkind hhead hy =>
      obtain ⟨b, hb, hib⟩ := mem_instructions.mp hi
      obtain ⟨j, hj⟩ := List.mem_iff_getElem?.mp hib
      obtain ⟨r, hr, rfl⟩ := Option.map_eq_some_iff.mp hhead
      exact Or.inr ⟨b, hb, j, i, y, site?_of_result hf.values hb hj
        (List.mem_map_of_mem (List.mem_of_head? hr)), hj, hkind, hhead, hy⟩

theorem Handed.site (hf : f.Strict) (h : f.Handed S x) : ∃ q, f.site? x = some q := by
  rcases h.cases hf with ⟨b, _, hsite, _⟩ | ⟨b, _, j, _, _, hsite, _⟩
  · exact ⟨_, hsite⟩
  · exact ⟨_, hsite⟩

/-- Nothing has been handed over at the entry. -/
theorem Handed.not_at_entry (hf : f.Strict) (hentry : f.PlainEntry) (h : f.Handed S x)
    {entry : BlockId} (hroot : f.entryGraph.root entry) : ¬ f.Available x (entry, 0) := by
  intro havail
  rcases h.cases hf with ⟨b, hb, hsite, _, hindex, _⟩ | ⟨b, _, j, _, _, hsite, _⟩
  · have hid : b.id = entry := eq_of_dominates_root hroot (havail _ hsite).dominates
    rw [hentry.params hf hb (hid ▸ hroot)] at hindex
    cases hindex
  · have hbefore : f.Precedes (b.id, j + 1) (entry, 0) := havail _ hsite
    have hid : b.id = entry := eq_of_dominates_root hroot hbefore.dominates
    rw [Precedes, if_pos hid] at hbefore
    exact absurd hbefore (Nat.not_succ_le_zero j)

/-- A value other than the origin that comes after it. -/
def After (f : KirFunction) (o x : ValueId) : Prop :=
  ∀ p q, f.site? o = some p → f.site? x = some q → f.entryGraph.Reachable q.1 → f.Before p q

theorem RootedIn.after (hf : f.Strict) (hentry : f.PlainEntry) (h : f.RootedIn o S) (hx : S x)
    (hne : x ≠ o) : f.After o x :=
  fun _ _ ho hq hreach ↦ h.before hf hentry ho hx hne hq hreach

/-- Where a value is available its origin is not just being defined. -/
theorem After.site_ne (h : f.After o x) (hx : f.site? x = some p) {block : BlockId} {n : Nat}
    (hreach : f.entryGraph.Reachable block) (hprecedes : f.Precedes p (block, n)) :
    f.site? o ≠ some (block, n) := by
  intro ho
  have hpreach : f.entryGraph.Reachable p.1 := by
    obtain ⟨r, hroot, hpath⟩ := hreach
    exact ⟨r, hroot, (hprecedes.dominates.split hroot hpath).1⟩
  exact (h (block, n) p ho hx hpreach).not_precedes hpreach hprecedes

end KirFunction

namespace Activation

variable {t : TargetModel} {f : KirFunction} {past : List Moment} {frame : Frame}
variable {memory : Memory}

/-- A relation to the origin that holds of the values a set starts from holds of all values
handed over from them. -/
theorem tracks (hf : f.Strict) (hentry : f.PlainEntry) {o : ValueId} {S : ValueId → Prop}
    {R : Option KirValue → Option KirValue → Prop}
    (hS : ∀ x, S x → (f.After o x ∧ f.Handed S x) ∨
      ∀ {past frame memory}, Activation t f past frame memory → f.Available x frame.site →
        R (frame.env.scalar o) (frame.env.scalar x))
    (h : Activation t f past frame memory) {x : ValueId} (hx : S x)
    (havail : f.Available x frame.site) : R (frame.env.scalar o) (frame.env.scalar x) := by
  rcases hS x hx with ⟨hafter, hhanded⟩ | hbase
  case inr => exact hbase h havail
  -- at every site all values of the set that are available follow the origin
  have hall : ∀ x, S x → f.After o x → f.Handed S x → f.Available x frame.site →
      R (frame.env.scalar o) (frame.env.scalar x) := by
    refine h.site_induction (P := fun q env ↦ ∀ x, S x → f.After o x → f.Handed S x →
      f.Available x q → R (env.scalar o) (env.scalar x)) ?_ ?_ ?_
    · intro b args hb x _ _ hhanded havail
      have hroot : f.entryGraph.root b.id := by
        simp [KirFunction.entryGraph, KirFunction.entryId?, hb]
      exact absurd havail (hhanded.not_at_entry hf hentry hroot)
    · intro past frame memory i rest env' h hrest hrun ih x hx hafter hhanded havail
      obtain ⟨hi, _⟩ := h.site_head hrest
      have hmem : i ∈ f.instructions :=
        KirFunction.mem_instructions.mpr ⟨_, h.block_mem, List.mem_of_getElem? hi⟩
      obtain ⟨q, hq⟩ := hhanded.site hf
      have ho : env'.scalar o = frame.env.scalar o := hrun.keeps o fun hdef ↦
        hafter.site_ne hq h.reachable (havail q hq)
          (KirFunction.site?_of_result hf.values h.block_mem hi hdef)
      rw [ho]
      by_cases hdef : x ∈ i.defs
      · have hsite := KirFunction.site?_of_result hf.values h.block_mem hi hdef
        rcases hhanded.cases hf with ⟨b, _, hsite', _⟩ | ⟨b, hb, j, i', y, hsite', hi', hkind, hhead, hy⟩
        · have hindex := congrArg Prod.snd (Option.some.inj (hsite'.symm.trans hsite))
          exact absurd hindex (Nat.succ_ne_zero _).symm
        · obtain ⟨hid, hindex⟩ := Prod.mk.inj (Option.some.inj (hsite'.symm.trans hsite))
          obtain rfl := KirFunction.block_ext hf.blocks hb h.block_mem hid
          obtain rfl := Nat.succ.inj hindex
          obtain rfl := Option.some.inj (hi.symm.trans hi')
          rw [Env.scalar_of_eq (hrun.copy hkind (KirFunction.defs_nodup hf.values hmem) hhead)]
          have huse : y ∈ i.uses := by
            rw [KirInstruction.uses, hkind]
            exact List.mem_singleton_self _
          have havaily := hf.uses _ h.block_mem _ i hi y huse
          rcases hS y hy with ⟨hafter', hhanded'⟩ | hbase
          · exact ih y hy hafter' hhanded' havaily
          · exact hbase h havaily
      · rw [hrun.keeps x hdef]
        refine ih x hx hafter hhanded fun p hp ↦ (havail p hp).of_next ?_
        rintro rfl
        exact hdef (KirFunction.site?_eq_some_of_later hf h.block_mem hi hp)
    · intro past frame memory edge c xs h hrest htaken hc hxs hlen ih x hx hafter hhanded havail
      obtain ⟨hmemc, hedge, hflow⟩ := h.follow_edge htaken hc
      have hid : edge.target = c.id := (KirFunction.mem_blocks_of_block? hc).2.symm
      have hreach : f.entryGraph.Reachable c.id := by
        obtain ⟨r, hroot, hpath⟩ := h.reachable
        exact ⟨r, hroot, hpath.tail hflow⟩
      have hkeep : ∀ v, f.site? v ≠ some (c.id, 0) →
          (frame.env.setAll ((c.params.map (·.value)).zip xs)).scalar v = frame.env.scalar v :=
        fun v hv ↦ Env.scalar_of_eq (Env.setAll_of_notMem (fun hzip ↦ hv
          (KirFunction.site?_of_blockParam hf.values hmemc (mem_of_mem_map_fst_zip hzip))) _)
      obtain ⟨q, hq⟩ := hhanded.site hf
      rw [hkeep o (hafter.site_ne hq hreach (havail q hq))]
      by_cases hstart : q = (c.id, 0)
      · subst hstart
        rcases hhanded.cases hf with ⟨b, hb, hsite, index, hindex, hargs⟩ | ⟨b, _, j, _, _, hsite, _⟩
        · obtain rfl := KirFunction.block_ext hf.blocks hb hmemc
            (congrArg Prod.fst (Option.some.inj (hsite.symm.trans hq)))
          obtain ⟨a, ha, hSa⟩ := hargs _ h.block_mem edge hedge hid
          have hvalue := Env.setAll_params hxs (by simpa using hlen)
            (KirFunction.params_nodup hf.values hmemc) hindex ha
          rw [Env.scalar_of_eq hvalue]
          have havaila : f.Available a frame.site := by
            rw [site_end hrest]
            exact hf.ends _ h.block_mem a (List.mem_append_right _
              (List.mem_flatMap.mpr ⟨edge, hedge, List.mem_of_getElem? ha⟩))
          rcases hS a hSa with ⟨hafter', hhanded'⟩ | hbase
          · exact ih a hSa hafter' hhanded' havaila
          · exact hbase h havaila
        · have hindex := congrArg Prod.snd (Option.some.inj (hsite.symm.trans hq))
          exact absurd hindex (Nat.succ_ne_zero _)
      · rw [hkeep x (by rw [hq]; simpa using hstart)]
        refine ih x hx hafter hhanded fun p hp ↦ ?_
        obtain rfl := Option.some.inj (hq.symm.trans hp)
        rw [site_end hrest]
        exact (havail q hq).of_edge hstart hflow fun hsame ↦
          KirFunction.site_le hf h.block_mem hq hsame
  exact hall x hx hafter hhanded havail

end Activation

/-! ## Results of the search -/

namespace KirFunction

variable {f : KirFunction} {o v w : ValueId} {S : ValueId → Prop} {stopAt : Option ValueId}

theorem Follows.handed {leaf : ValueId → Prop} (h : f.Follows stopAt leaf S w) :
    leaf w ∨ f.Handed S w := by
  cases h with
  | leaf hleaf => exact Or.inl hleaf
  | param _ hposition _ hargs =>
      obtain ⟨b, hb, rfl, hindex⟩ := paramPosition?_eq_some hposition
      refine Or.inr (.param hb hindex fun c hc edge hedge htarget ↦ ?_)
      exact hargs (c.id, edge) (mem_predecessorEdges.mpr ⟨c, hc, rfl, hedge, htarget⟩)
  | copy _ _ hcopy hknown =>
      obtain ⟨i, hi, hkind, hhead⟩ := copyOperand?_eq_some hcopy
      exact Or.inr (.copy hi hkind hhead hknown)

/-- A value with one leaf belongs to a set handed over from that leaf. -/
theorem forwards_of_leaves (h : f.forwardingLeaves v stopAt = some [o]) :
    ∃ S : ValueId → Prop, S v ∧ ∀ w, S w → w = o ∨ f.Handed S w := by
  obtain ⟨S, hv, hfollows⟩ := forwardingLeaves_eq_some h
  refine ⟨S, hv, fun w hw ↦ ?_⟩
  exact (hfollows w hw).handed.imp_left List.mem_singleton.mp

theorem rootedIn_of_handed (h : ∀ w, S w → w = o ∨ f.Handed S w) : f.RootedIn o S :=
  fun w hw ↦ (h w hw).imp_right Or.inl

theorem forwardingOrigin_eq_some (h : f.forwardingOrigin v = some o) :
    f.forwardingLeaves v none = some [o] := by
  unfold forwardingOrigin at h
  split at h
  · rename_i hleaves
    cases h
    exact hleaves
  · cases h

end KirFunction

namespace Activation

variable {t : TargetModel} {f : KirFunction} {past : List Moment} {frame : Frame}
variable {memory : Memory} {o v : ValueId} {stopAt : Option ValueId}

/-- Wherever a forwarded value is available it holds the value of its only leaf. -/
theorem forwarded (h : Activation t f past frame memory) (hf : f.Strict) (hentry : f.PlainEntry)
    (hleaves : f.forwardingLeaves v stopAt = some [o]) (havail : f.Available v frame.site) :
    frame.env.scalar v = frame.env.scalar o := by
  obtain ⟨S, hv, hS⟩ := KirFunction.forwards_of_leaves hleaves
  have hrooted := KirFunction.rootedIn_of_handed hS
  refine (tracks (o := o) (S := S) (R := Eq) hf hentry (fun w hw ↦ ?_) h hv havail).symm
  by_cases hwo : w = o
  · subst hwo
    exact Or.inr fun _ _ ↦ Eq.refl _
  · exact Or.inl ⟨hrooted.after hf hentry hw hwo, (hS w hw).resolve_left hwo⟩

/-- The leaf is available, too. -/
theorem leaf_available (h : Activation t f past frame memory) (hf : f.Strict)
    (hentry : f.PlainEntry) (hleaves : f.forwardingLeaves v stopAt = some [o])
    (havail : f.Available v frame.site) : f.Available o frame.site := by
  intro p ho
  obtain ⟨S, hv, hS⟩ := KirFunction.forwards_of_leaves hleaves
  have hrooted := KirFunction.rootedIn_of_handed hS
  obtain ⟨q, hq⟩ := hrooted.site hf ho hv
  have hbefore := havail q hq
  have hreach : f.entryGraph.Reachable q.1 := by
    obtain ⟨r, hroot, hpath⟩ := h.reachable
    exact ⟨r, hroot, (hbefore.dominates.split hroot hpath).1⟩
  by_cases hvo : v = o
  · subst hvo
    cases ho.symm.trans hq
    exact hbefore
  · exact (hrooted.before hf hentry ho hv hvo hq hreach).1.trans hreach hbefore

/-- A value agrees with its origin, which is available with it. -/
theorem origin (h : Activation t f past frame memory) (hf : f.Strict) (hentry : f.PlainEntry)
    {v : ValueId} (havail : f.Available v frame.site) :
    frame.env.scalar v = frame.env.scalar ((f.forwardingOrigin v).getD v) ∧
      f.Available ((f.forwardingOrigin v).getD v) frame.site := by
  cases horigin : f.forwardingOrigin v with
  | none => exact ⟨rfl, havail⟩
  | some o =>
      have hleaves := KirFunction.forwardingOrigin_eq_some horigin
      exact ⟨h.forwarded hf hentry hleaves havail, h.leaf_available hf hentry hleaves havail⟩

end Activation

end CalcKernel
