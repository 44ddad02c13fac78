import CalcKernel.Lib.Search

/-!
# Depth-first traversal

A stack of elements to enter and to leave.  Where an edge leads to an element that is left
later, everything left in between is reached from that element; so of a strongly connected
component the element that is left last is left after all that the component reaches.
-/

namespace CalcKernel.Lib

open Relation

universe u

variable {α : Type u}

/-! ## Orders of leaving -/

/-- Each of the two is reached from the other. -/
def StronglyConnected (E : α → α → Prop) (x y : α) : Prop :=
  ReflTransGen E x y ∧ ReflTransGen E y x

namespace StronglyConnected

variable {E : α → α → Prop} {x y z : α}

theorem refl (x : α) : StronglyConnected E x x := ⟨.refl, .refl⟩

theorem symm (h : StronglyConnected E x y) : StronglyConnected E y x := ⟨h.2, h.1⟩

theorem trans (h : StronglyConnected E x y) (h' : StronglyConnected E y z) :
    StronglyConnected E x z :=
  ⟨h.1.trans h'.1, h'.2.trans h.2⟩

end StronglyConnected

/-- The element in a place reaches what stands there and behind, up to another place. -/
def ReachesFrom (E : α → α → Prop) (finish : List α) (y : α) (j i : Nat) : Prop :=
  ∀ k u, j ≤ k → k ≤ i → finish[k]? = some u → ReflTransGen E y u

/-- The last element left comes first.  The target of an edge reaches all that was left from the
source on until the target itself. -/
structure LeavingOrder (E : α → α → Prop) (finish : List α) : Prop where
  nodup : finish.Nodup
  edge : ∀ {i x y}, finish[i]? = some x → E x y →
    ∃ j, finish[j]? = some y ∧ ReachesFrom E finish y j i

/-- What an element reaches was not left after it, when no element of its component was. -/
theorem LeavingOrder.le_of_reaches {E : α → α → Prop} {finish : List α} (h : LeavingOrder E finish)
    {p : Nat} {r y : α} (hr : finish[p]? = some r)
    (hfirst : ∀ k < p, ∀ u, finish[k]? = some u → ¬StronglyConnected E u r)
    (hreach : ReflTransGen E r y) : ∃ j, finish[j]? = some y ∧ p ≤ j := by
  induction hreach with
  | refl => exact ⟨p, hr, le_rfl⟩
  | @tail z y hrz hzy ih =>
      obtain ⟨i, hz, hpi⟩ := ih
      obtain ⟨j, hy, hall⟩ := h.edge hz hzy
      refine ⟨j, hy, ?_⟩
      by_contra hlt
      have hlt := Nat.lt_of_not_le hlt
      exact hfirst j hlt y hy ⟨hall p r hlt.le hpi hr, hrz.tail hzy⟩

/-! ## The traversal -/

/-- What is to do, what was entered, and what was left, the last first. -/
structure Traversal (α : Type u) where
  stack : List (α × Bool)
  visited : List α
  finish : List α

namespace Traversal

variable (push : List α → α → List α)

/-- The element on top is left, or entered unless it was before. -/
def step [DecidableEq α] (s : Traversal α) : Option (Traversal α) :=
  match s.stack with
  | [] => none
  | (v, true) :: rest => some ⟨rest, s.visited, v :: s.finish⟩
  | (v, false) :: rest =>
      if v ∈ s.visited then some ⟨rest, s.visited, s.finish⟩
      else some ⟨(push (v :: s.visited) v).map (·, false) ++ (v, true) :: rest,
        v :: s.visited, s.finish⟩

/-- Steps until the stack is empty; each takes a unit of fuel. -/
def run [DecidableEq α] : Nat → Traversal α → Option (Nat × Traversal α)
  | 0, s => if s.stack = [] then some (0, s) else none
  | fuel + 1, s =>
      match s.step push with
      | none => some (fuel + 1, s)
      | some s' => run fuel s'

/-- The elements on the stack that were entered and not left. -/
def open_ (s : Traversal α) : List α := (s.stack.filter (·.2)).map (·.1)

variable (next : α → List α)

def Edge (x y : α) : Prop := y ∈ next x

/-- What is pushed are successors, among them all that were not entered. -/
structure Pushes : Prop where
  subset : ∀ visited x, ∀ y ∈ push visited x, y ∈ next x
  covers : ∀ visited x, ∀ y ∈ next x, y ∈ visited ∨ y ∈ push visited x

/-- The open elements form a path, their successors are known, and the edges of what was left lead
to what was left, or to an open element that reaches all that was left since. -/
structure Invariant (s : Traversal α) : Prop where
  nodup : (s.open_ ++ s.finish).Nodup
  visited : ∀ v, v ∈ s.visited ↔ v ∈ s.open_ ++ s.finish
  path : s.stack.Pairwise fun p q ↦ q.2 = true → ReflTransGen (Edge next) q.1 p.1
  fan : ∀ above v below, s.stack = above ++ (v, true) :: below →
    ∀ y ∈ next v, y ∈ s.visited ∨ (y, false) ∈ above
  edge : ∀ {i x y}, s.finish[i]? = some x → y ∈ next x →
    (∃ j, s.finish[j]? = some y ∧ ReachesFrom (Edge next) s.finish y j i) ∨
      (y ∈ s.open_ ∧ ReachesFrom (Edge next) s.finish y 0 i)

variable {push next} {s s' : Traversal α}

theorem mem_open {v : α} : v ∈ s.open_ ↔ (v, true) ∈ s.stack := by
  unfold open_
  constructor
  · intro h
    obtain ⟨⟨w, b⟩, hmem, rfl⟩ := List.mem_map.mp h
    obtain ⟨hmem, hb⟩ := List.mem_filter.mp hmem
    obtain rfl : b = true := hb
    exact hmem
  · intro h
    exact List.mem_map.mpr ⟨(v, true), List.mem_filter.mpr ⟨h, rfl⟩, rfl⟩

namespace Invariant

theorem leave {v : α} {rest : List (α × Bool)} {visited finish : List α}
    (h : Invariant next ⟨(v, true) :: rest, visited, finish⟩) :
    Invariant next ⟨rest, visited, v :: finish⟩ := by
  have hopen : open_ ⟨(v, true) :: rest, visited, finish⟩ = v :: open_ ⟨rest, visited, v :: finish⟩ :=
    rfl
  have hperm : (open_ ⟨rest, visited, v :: finish⟩ ++ v :: finish).Perm
      (v :: open_ ⟨rest, visited, v :: finish⟩ ++ finish) := List.perm_middle
  have hreach : ∀ y, (y, true) ∈ (v, true) :: rest → ReflTransGen (Edge next) y v := by
    intro y hy
    rcases List.mem_cons.mp hy with heq | hy
    · cases heq
      exact .refl
    · exact (List.pairwise_cons.mp h.path).1 _ hy rfl
  refine ⟨?_, ?_, (List.pairwise_cons.mp h.path).2, ?_, ?_⟩
  · rw [hperm.nodup_iff, ← hopen]
    exact h.nodup
  · intro w
    rw [hperm.mem_iff, ← hopen]
    exact h.visited w
  · intro above w below heq y hy
    have hstack : (v, true) :: rest = ((v, true) :: above) ++ (w, true) :: below := by
      rw [show rest = above ++ (w, true) :: below from heq, List.cons_append]
    refine (h.fan _ _ _ hstack y hy).imp_right fun hmem ↦ ?_
    rcases List.mem_cons.mp hmem with heq | hmem
    · cases heq
    · exact hmem
  · intro i x y hx hy
    -- an open element reaches the one that is left, the one that is left reaches itself
    have hclose : ∀ {i : Nat}, (y, true) ∈ (v, true) :: rest →
        (∀ k u, k < i → finish[k]? = some u → ReflTransGen (Edge next) y u) →
        (∃ j, (v :: finish)[j]? = some y ∧ ReachesFrom (Edge next) (v :: finish) y j i) ∨
          (y ∈ open_ ⟨rest, visited, v :: finish⟩ ∧
            ReachesFrom (Edge next) (v :: finish) y 0 i) := by
      intro i hmem hall
      have hfrom : ReachesFrom (Edge next) (v :: finish) y 0 i := by
        intro k u _ hk hu
        cases k with
        | zero =>
            cases hu
            exact hreach y hmem
        | succ k => exact hall k u hk hu
      rcases List.mem_cons.mp hmem with heq | hmem
      · cases heq
        exact .inl ⟨0, rfl, hfrom⟩
      · exact .inr ⟨mem_open.mpr hmem, hfrom⟩
    cases i with
    | zero =>
        cases hx
        rcases h.fan [] v rest rfl y hy with hvisited | hmem
        · rcases List.mem_append.mp ((h.visited y).mp hvisited) with hmem | hmem
          · exact hclose (mem_open.mp hmem) fun k u hk ↦ absurd hk (Nat.not_lt_zero k)
          · obtain ⟨j, hj⟩ := List.getElem?_of_mem hmem
            exact .inl ⟨j + 1, hj, fun k u hk hk' ↦ absurd (hk.trans hk') (Nat.not_succ_le_zero j)⟩
        · cases hmem
    | succ i =>
        rcases h.edge hx hy with ⟨j, hj, hall⟩ | ⟨hmem, hall⟩
        · refine .inl ⟨j + 1, hj, fun k u hk hk' hu ↦ ?_⟩
          cases k with
          | zero => exact absurd hk (Nat.not_succ_le_zero j)
          | succ k => exact hall k u (Nat.le_of_succ_le_succ hk) (Nat.le_of_succ_le_succ hk') hu
        · exact hclose (mem_open.mp hmem) fun k u hk hu ↦
            hall k u (Nat.zero_le k) (Nat.le_of_lt_succ hk) hu

theorem skip {v : α} {rest : List (α × Bool)} {visited finish : List α}
    (h : Invariant next ⟨(v, false) :: rest, visited, finish⟩) (hv : v ∈ visited) :
    Invariant next ⟨rest, visited, finish⟩ := by
  refine ⟨h.nodup, h.visited, (List.pairwise_cons.mp h.path).2, ?_, h.edge⟩
  intro above w below heq y hy
  have hstack : (v, false) :: rest = ((v, false) :: above) ++ (w, true) :: below := by
    rw [show rest = above ++ (w, true) :: below from heq, List.cons_append]
  rcases h.fan _ _ _ hstack y hy with hmem | hmem
  · exact .inl hmem
  rcases List.mem_cons.mp hmem with heq | hmem
  · cases heq
    exact .inl hv
  · exact .inr hmem

theorem enter (hpush : Pushes push next) {v : α} {rest : List (α × Bool)} {visited finish : List α}
    (h : Invariant next ⟨(v, false) :: rest, visited, finish⟩) (hv : v ∉ visited) :
    Invariant next ⟨(push (v :: visited) v).map (·, false) ++ (v, true) :: rest, v :: visited,
      finish⟩ := by
  have hopen : open_ ⟨(push (v :: visited) v).map (·, false) ++ (v, true) :: rest, v :: visited,
      finish⟩ = v :: open_ ⟨(v, false) :: rest, visited, finish⟩ := by
    have hnone : ((push (v :: visited) v).map (·, false)).filter (·.2) = [] :=
      List.filter_eq_nil_iff.mpr fun p hp ↦ by
        obtain ⟨w, -, rfl⟩ := List.mem_map.mp hp
        exact Bool.false_ne_true
    rw [open_, List.filter_append, hnone]
    rfl
  have hrest := (List.pairwise_cons.mp h.path)
  refine ⟨?_, ?_, ?_, ?_, ?_⟩
  · rw [hopen, List.cons_append, List.nodup_cons]
    exact ⟨fun hmem ↦ hv ((h.visited v).mpr hmem), h.nodup⟩
  · intro w
    rw [hopen, List.cons_append, List.mem_cons, List.mem_cons]
    exact or_congr_right (h.visited w)
  · refine List.pairwise_append.mpr ⟨?_, List.pairwise_cons.mpr ⟨fun q hq hopen ↦ ?_, hrest.2⟩, ?_⟩
    · refine List.pairwise_of_forall_mem_list fun p _ q hq htrue ↦ ?_
      obtain ⟨w, -, rfl⟩ := List.mem_map.mp hq
      cases htrue
    · exact hrest.1 q hq hopen
    · intro p hp q hq htrue
      obtain ⟨w, hw, rfl⟩ := List.mem_map.mp hp
      have hedge : Edge next v w := hpush.subset _ _ w hw
      rcases List.mem_cons.mp hq with rfl | hq
      · exact .single hedge
      · exact (hrest.1 q hq htrue).tail hedge
  · intro above w below heq y hy
    rcases List.append_eq_append_iff.mp heq with ⟨inner, habove, hbelow⟩ | ⟨inner, habove, hbelow⟩
    · cases inner with
      | nil =>
          rw [List.nil_append] at hbelow
          cases hbelow
          rw [habove, List.append_nil]
          exact (hpush.covers (v :: visited) v y hy).imp_right fun hmem ↦
            List.mem_map.mpr ⟨y, hmem, rfl⟩
      | cons p inner =>
          rw [List.cons_append] at hbelow
          injection hbelow with hp hbelow
          have hstack : (v, false) :: rest = ((v, false) :: inner) ++ (w, true) :: below := by
            rw [hbelow, List.cons_append]
          rcases h.fan _ _ _ hstack y hy with hmem | hmem
          · exact .inl (List.mem_cons_of_mem v hmem)
          rcases List.mem_cons.mp hmem with heq | hmem
          · cases heq
            exact .inl List.mem_cons_self
          · rw [habove]
            exact .inr (List.mem_append_right _ (List.mem_cons_of_mem p hmem))
    · -- the pushed elements are not open
      cases inner with
      | nil =>
          rw [List.nil_append] at hbelow
          cases hbelow
          rw [List.append_nil] at habove
          rw [← habove]
          exact (hpush.covers (v :: visited) v y hy).imp_right fun hmem ↦
            List.mem_map.mpr ⟨y, hmem, rfl⟩
      | cons p inner =>
          rw [List.cons_append] at hbelow
          injection hbelow with hp hbelow
          have hmem : (w, true) ∈ (push (v :: visited) v).map (·, false) := by
            rw [habove, hp]
            exact List.mem_append_right _ List.mem_cons_self
          obtain ⟨u, -, hu⟩ := List.mem_map.mp hmem
          cases hu
  · intro i x y hx hy
    rcases h.edge hx hy with hleft | ⟨hmem, hall⟩
    · exact .inl hleft
    · exact .inr ⟨hopen ▸ List.mem_cons_of_mem v hmem, hall⟩

theorem step [DecidableEq α] (hpush : Pushes push next) (h : Invariant next s)
    (hstep : s.step push = some s') : Invariant next s' := by
  obtain ⟨stack, visited, finish⟩ := s
  unfold Traversal.step at hstep
  dsimp only at hstep
  split at hstep
  · cases hstep
  · cases hstep
    exact h.leave
  · split at hstep
    · rename_i hv
      cases hstep
      exact h.skip hv
    · rename_i hv
      cases hstep
      exact h.enter hpush hv

/-- At rest, with nothing on the stack, what was left is in a leaving order. -/
theorem leavingOrder (h : Invariant next s) (hstack : s.stack = []) :
    LeavingOrder (Edge next) s.finish := by
  have hopen : s.open_ = [] := by rw [open_, hstack]; rfl
  refine ⟨(List.nodup_append.mp h.nodup).2.1, fun hx hy ↦ ?_⟩
  refine (h.edge hx hy).resolve_right fun hmem ↦ ?_
  rw [hopen] at hmem
  cases hmem.1

/-- What is entered has its successors entered once nothing is left on the stack. -/
theorem closed (h : Invariant next s) (hstack : s.stack = []) {x y : α} (hx : x ∈ s.visited)
    (hy : y ∈ next x) : y ∈ s.visited := by
  have hopen : s.open_ = [] := by rw [open_, hstack]; rfl
  have hfinish : ∀ v, v ∈ s.visited ↔ v ∈ s.finish := by
    intro v
    rw [h.visited, hopen, List.nil_append]
  obtain ⟨i, hi⟩ := List.getElem?_of_mem ((hfinish x).mp hx)
  rcases h.edge hi hy with ⟨j, hj, -⟩ | ⟨hmem, -⟩
  · exact (hfinish y).mpr (List.mem_of_getElem? hj)
  · rw [hopen] at hmem
    cases hmem

end Invariant

/-! ## Runs -/

/-- Nothing is on the stack, and what was left is in a leaving order. -/
structure Rested (next : α → List α) (s : Traversal α) : Prop where
  stack : s.stack = []
  invariant : Invariant next s

namespace Rested

theorem start (next : α → List α) : Rested next ⟨[], [], []⟩ :=
  ⟨rfl, List.nodup_nil, by simp [open_], List.Pairwise.nil, by simp, by simp⟩

theorem mem_visited (h : Rested next s) {v : α} : v ∈ s.visited ↔ v ∈ s.finish := by
  have hopen : s.open_ = [] := by rw [open_, h.stack]; rfl
  rw [h.invariant.visited, hopen, List.nil_append]

theorem root (h : Rested next s) (r : α) : Invariant next { s with stack := [(r, false)] } := by
  have hopen : s.open_ = [] := by rw [open_, h.stack]; rfl
  have hfinish := h.invariant.nodup
  have hvisited := h.invariant.visited
  have hedge := @h.invariant.edge
  rw [hopen] at hfinish hvisited hedge
  refine ⟨hfinish, hvisited, List.pairwise_singleton _ _, ?_, hedge⟩
  intro above v below heq
  rcases List.append_eq_cons_iff.mp heq.symm with ⟨-, hcons⟩ | ⟨above', -, hnil⟩
  · cases hcons
  · exact absurd hnil.symm (by simp)

end Rested

variable [DecidableEq α]

/-- What a step has entered it entered before or finds on top. -/
theorem step_visited (hstep : s.step push = some s') :
    s.visited ⊆ s'.visited ∧ ∀ v b, (v, b) ∈ s.stack → v ∈ s'.visited ∨ (v, b) ∈ s'.stack ∨
      b = true := by
  obtain ⟨stack, visited, finish⟩ := s
  unfold step at hstep
  dsimp only at hstep
  split at hstep
  · cases hstep
  · cases hstep
    refine ⟨fun v hv ↦ hv, fun v b hmem ↦ ?_⟩
    rcases List.mem_cons.mp hmem with heq | hmem
    · cases heq
      exact .inr (.inr rfl)
    · exact .inr (.inl hmem)
  · rename_i w rest
    split at hstep
    · rename_i hw
      cases hstep
      refine ⟨fun v hv ↦ hv, fun v b hmem ↦ ?_⟩
      rcases List.mem_cons.mp hmem with heq | hmem
      · cases heq
        exact .inl hw
      · exact .inr (.inl hmem)
    · cases hstep
      refine ⟨fun v hv ↦ List.mem_cons_of_mem w hv, fun v b hmem ↦ ?_⟩
      rcases List.mem_cons.mp hmem with heq | hmem
      · cases heq
        exact .inl List.mem_cons_self
      · exact .inr (.inl (List.mem_append_right _ (List.mem_cons_of_mem _ hmem)))

/-- A run that comes to its end is at rest and has entered what was to enter. -/
theorem run_spec (hpush : Pushes push next) {fuel fuel' : Nat} (h : Invariant next s)
    (hrun : s.run push fuel = some (fuel', s')) :
    Rested next s' ∧ s.visited ⊆ s'.visited ∧ ∀ v, (v, false) ∈ s.stack → v ∈ s'.visited := by
  have hend : ∀ {s : Traversal α}, Invariant next s → s.stack = [] → Rested next s ∧
      s.visited ⊆ s.visited ∧ ∀ v, (v, false) ∈ s.stack → v ∈ s.visited := by
    intro s h hstack
    refine ⟨⟨hstack, h⟩, fun v hv ↦ hv, fun v hv ↦ ?_⟩
    rw [hstack] at hv
    cases hv
  induction fuel generalizing s with
  | zero =>
      unfold run at hrun
      split at hrun
      · rename_i hstack
        cases hrun
        exact hend h hstack
      · cases hrun
  | succ fuel ih =>
      unfold run at hrun
      split at hrun
      · rename_i hstep
        cases hrun
        refine hend h ?_
        unfold step at hstep
        split at hstep
        · assumption
        · cases hstep
        · split at hstep <;> cases hstep
      · rename_i t hstep
        obtain ⟨hrest, hsub, hall⟩ := ih (h.step hpush hstep) hrun
        obtain ⟨hgrow, hmem⟩ := step_visited hstep
        refine ⟨hrest, fun v hv ↦ hsub (hgrow hv), fun v hv ↦ ?_⟩
        rcases hmem v false hv with hv | hv | hv
        · exact hsub hv
        · exact hall v hv
        · cases hv

/-! ## The steps of a run -/

/-- A unit for each element on the stack, and for each that is not entered its fan and its own
way back. -/
def potential (next : α → List α) (l : List α) (s : Traversal α) : Nat :=
  s.stack.length + (l.map fun v ↦ if v ∈ s.visited then 0 else (next v).length + 1).sum

/-- Every step takes at least a unit, as long as the stack stays inside a known set. -/
theorem potential_step {l : List α} (hlength : ∀ visited v, (push visited v).length ≤ (next v).length)
    (hstack : ∀ p ∈ s.stack, p.1 ∈ l) (hstep : s.step push = some s') :
    potential next l s' < potential next l s := by
  obtain ⟨stack, visited, finish⟩ := s
  unfold step at hstep
  dsimp only at hstep
  split at hstep
  · cases hstep
  · cases hstep
    exact Nat.add_lt_add_right (Nat.lt_succ_self _) _
  · rename_i v rest
    split at hstep
    · cases hstep
      exact Nat.add_lt_add_right (Nat.lt_succ_self _) _
    · rename_i hv
      cases hstep
      have hless := sum_unvisited (fun v ↦ (next v).length + 1) hv l
      have hmem : v ∈ l := hstack (v, false) List.mem_cons_self
      have hfan := hlength (v :: visited) v
      rw [if_pos hmem] at hless
      simp only [potential, List.length_append, List.length_map, List.length_cons]
      omega

theorem stack_step {l : List α} (hpush : Pushes push next) (hclosed : ∀ v ∈ l, next v ⊆ l)
    (hstack : ∀ p ∈ s.stack, p.1 ∈ l) (hstep : s.step push = some s') :
    ∀ p ∈ s'.stack, p.1 ∈ l := by
  obtain ⟨stack, visited, finish⟩ := s
  unfold step at hstep
  dsimp only at hstep
  split at hstep
  · cases hstep
  · cases hstep
    exact fun p hp ↦ hstack p (List.mem_cons_of_mem _ hp)
  · rename_i v rest
    split at hstep
    · cases hstep
      exact fun p hp ↦ hstack p (List.mem_cons_of_mem _ hp)
    · cases hstep
      intro p hp
      have hv : v ∈ l := hstack (v, false) List.mem_cons_self
      rcases List.mem_append.mp hp with hp | hp
      · obtain ⟨w, hw, rfl⟩ := List.mem_map.mp hp
        exact hclosed v hv (hpush.subset _ _ w hw)
      · rcases List.mem_cons.mp hp with rfl | hp
        · exact hv
        · exact hstack p (List.mem_cons_of_mem _ hp)

theorem visited_step {l : List α} (hstack : ∀ p ∈ s.stack, p.1 ∈ l) (hvisited : s.visited ⊆ l)
    (hstep : s.step push = some s') : s'.visited ⊆ l := by
  obtain ⟨stack, visited, finish⟩ := s
  unfold step at hstep
  dsimp only at hstep
  split at hstep
  · cases hstep
  · cases hstep
    exact hvisited
  · rename_i v rest
    split at hstep
    · cases hstep
      exact hvisited
    · cases hstep
      exact List.cons_subset.mpr ⟨hstack (v, false) List.mem_cons_self, hvisited⟩

/-- A run enters nothing outside of a set that is closed under successors. -/
theorem run_inside {l : List α} (hpush : Pushes push next) (hclosed : ∀ v ∈ l, next v ⊆ l)
    {fuel fuel' : Nat} (hstack : ∀ p ∈ s.stack, p.1 ∈ l) (hvisited : s.visited ⊆ l)
    (hrun : s.run push fuel = some (fuel', s')) : s'.visited ⊆ l := by
  induction fuel generalizing s with
  | zero =>
      unfold run at hrun
      split at hrun
      · cases hrun
        exact hvisited
      · cases hrun
  | succ fuel ih =>
      unfold run at hrun
      split at hrun
      · cases hrun
        exact hvisited
      · rename_i t hstep
        exact ih (stack_step hpush hclosed hstack hstep) (visited_step hstack hvisited hstep) hrun

/-- With fuel for the potential a run comes to its end, and takes no more than that. -/
theorem run_returns {l : List α} (hpush : Pushes push next)
    (hlength : ∀ visited v, (push visited v).length ≤ (next v).length)
    (hclosed : ∀ v ∈ l, next v ⊆ l) {fuel : Nat} (hstack : ∀ p ∈ s.stack, p.1 ∈ l)
    (hfuel : potential next l s ≤ fuel) :
    ∃ fuel' s', s.run push fuel = some (fuel', s') ∧
      potential next l s' + fuel ≤ potential next l s + fuel' := by
  induction fuel generalizing s with
  | zero =>
      have hzero : s.stack = [] := by
        refine List.length_eq_zero_iff.mp ?_
        simp only [potential] at hfuel
        omega
      exact ⟨0, s, by rw [run, if_pos hzero], le_rfl⟩
  | succ fuel ih =>
      cases hstep : s.step push with
      | none => exact ⟨fuel + 1, s, by rw [run, hstep], le_rfl⟩
      | some t =>
          have hless := potential_step hlength hstack hstep
          obtain ⟨fuel', s', hrun, hle⟩ := ih (stack_step hpush hclosed hstack hstep) (by omega)
          refine ⟨fuel', s', ?_, by omega⟩
          rw [run, hstep]
          exact hrun

theorem stack_of_stepNone (h : s.step push = none) : s.stack = [] := by
  unfold step at h
  split at h
  · assumption
  · cases h
  · split at h <;> cases h

/-- What a run takes does not depend on what it has. -/
theorem run_price {fuel left : Nat} (h : s.run push fuel = some (left, s')) :
    left ≤ fuel ∧ ∀ remaining, s.run push remaining =
      if fuel - left ≤ remaining then some (remaining - (fuel - left), s') else none := by
  induction fuel generalizing s with
  | zero =>
      unfold run at h
      split at h
      · rename_i hstack
        cases h
        refine ⟨le_rfl, fun remaining ↦ ?_⟩
        rw [if_pos (Nat.zero_le _)]
        cases remaining with
        | zero => rw [run, if_pos hstack]
        | succ remaining => rw [run, step, hstack]; rfl
      · cases h
  | succ fuel ih =>
      unfold run at h
      split at h
      · rename_i hstep
        cases h
        refine ⟨le_rfl, fun remaining ↦ ?_⟩
        rw [Nat.sub_self, if_pos (Nat.zero_le _)]
        cases remaining with
        | zero => rw [run, if_pos (stack_of_stepNone hstep)]
        | succ remaining => rw [run, hstep]; rfl
      · rename_i t hstep
        obtain ⟨hle, hprice⟩ := ih h
        refine ⟨by omega, fun remaining ↦ ?_⟩
        cases remaining with
        | zero =>
            have hstack : s.stack ≠ [] := by
              intro hnil
              rw [step, hnil] at hstep
              cases hstep
            rw [run, if_neg hstack, if_neg (by omega)]
        | succ remaining =>
            rw [run, hstep]
            change t.run push remaining = _
            rw [hprice]
            by_cases hpaid : fuel - left ≤ remaining
            · rw [if_pos hpaid, if_pos (by omega)]
              congr 2
              omega
            · rw [if_neg hpaid, if_neg (by omega)]

end Traversal

end CalcKernel.Lib
