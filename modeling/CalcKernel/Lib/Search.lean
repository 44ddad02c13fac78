import Mathlib.Algebra.GroupWithZero.Nat
import CalcKernel.Lib.Loop
import Mathlib.Algebra.Order.BigOperators.Group.List
import Mathlib.Logic.Relation

/-!
# Searching with a stack

A search follows successors from a stack until nothing is pending, and gives up where
there are none to tell.  What it has visited is closed under successors; the rounds it
takes are bounded by the sizes of the fans of what it can visit.
-/

namespace CalcKernel.Lib

open Relation

universe u

variable {α : Type u} [DecidableEq α]

structure Search (α : Type u) where
  pending : List α
  visited : List α
  stuck : Bool

def searchRound (next : α → Option (List α)) (s : Search α) : Option (Search α) :=
  match s.pending with
  | [] => some s
  | a :: pending =>
      if a ∈ s.visited then some { s with pending := pending }
      else match next a with
        | none => some ⟨pending, s.visited, true⟩
        | some new => some ⟨new ++ pending, a :: s.visited, s.stuck⟩

def searchLoop (next : α → Option (List α)) (fuel : Nat) (start : List α) : Option (Search α) :=
  whileLoop (fun s : Search α ↦ !s.stuck && !s.pending.isEmpty) (searchRound next) fuel
    ⟨start, [], false⟩

/-- What is visited, unless the search gives up. -/
def search (next : α → Option (List α)) (fuel : Nat) (start : List α) : Option (List α) :=
  (searchLoop next fuel start).bind fun s ↦ if s.stuck then none else some s.visited

variable {next : α → Option (List α)} {start visited : List α} {fuel : Nat}

/-- What was visited has successors, all of them known. -/
structure SearchClosed (next : α → Option (List α)) (start : List α) (s : Search α) : Prop where
  start : ∀ a ∈ start, a ∈ s.visited ∨ a ∈ s.pending
  next : ∀ a ∈ s.visited, ∃ new, next a = some new ∧ ∀ b ∈ new, b ∈ s.visited ∨ b ∈ s.pending

theorem SearchClosed.round {s s' : Search α} (h : SearchClosed next start s)
    (hround : searchRound next s = some s') (hstuck : s'.stuck = false) :
    SearchClosed next start s' := by
  obtain ⟨hstart, hnext⟩ := h
  unfold searchRound at hround
  split at hround
  case h_1 =>
    cases hround
    exact ⟨hstart, hnext⟩
  rename_i a pending hpending
  rw [hpending] at hstart hnext
  simp only [List.mem_cons] at hstart hnext
  split at hround
  · rename_i ha
    cases hround
    have hknown : ∀ b, b ∈ s.visited ∨ b = a ∨ b ∈ pending → b ∈ s.visited ∨ b ∈ pending := by
      rintro b (hb | rfl | hb)
      · exact Or.inl hb
      · exact Or.inl ha
      · exact Or.inr hb
    refine ⟨fun b hb ↦ hknown b (hstart b hb), fun b hb ↦ ?_⟩
    obtain ⟨new, hnew, hmem⟩ := hnext b hb
    exact ⟨new, hnew, fun c hc ↦ hknown c (hmem c hc)⟩
  · split at hround
    · cases hround
      cases hstuck
    · rename_i new hnew
      cases hround
      have hknown : ∀ b, b ∈ s.visited ∨ b = a ∨ b ∈ pending →
          b ∈ a :: s.visited ∨ b ∈ new ++ pending := by
        rintro b (hb | rfl | hb)
        · exact Or.inl (List.mem_cons_of_mem _ hb)
        · exact Or.inl List.mem_cons_self
        · exact Or.inr (List.mem_append_right _ hb)
      refine ⟨fun b hb ↦ hknown b (hstart b hb), fun b hb ↦ ?_⟩
      rcases List.mem_cons.mp hb with rfl | hb
      · exact ⟨new, hnew, fun c hc ↦ Or.inr (List.mem_append_left _ hc)⟩
      · obtain ⟨new', hnew', hmem⟩ := hnext b hb
        exact ⟨new', hnew', fun c hc ↦ hknown c (hmem c hc)⟩

/-- The visited elements contain the start and their own successors. -/
theorem search_closed (h : search next fuel start = some visited) :
    (∀ a ∈ start, a ∈ visited) ∧
      ∀ a ∈ visited, ∃ new, next a = some new ∧ ∀ b ∈ new, b ∈ visited := by
  obtain ⟨s, hloop, h⟩ := Option.bind_eq_some_iff.mp h
  split at h
  case isTrue => cases h
  rename_i hstuck
  cases h
  have hstuck : s.stuck = false := by simpa using hstuck
  obtain ⟨hinv, hdone⟩ := whileLoop.invariant
    (I := fun s ↦ s.stuck = false → SearchClosed next start s)
    (fun s t hs hcond hbody ht ↦ (hs (by
      simp only [Bool.and_eq_true, Bool.not_eq_true'] at hcond
      exact hcond.1)).round hbody ht)
    (fun _ ↦ ⟨fun _ ha ↦ Or.inr ha, by simp⟩) hloop
  have hpending : s.pending = [] := by simpa [hstuck] using hdone
  obtain ⟨hstart, hnext⟩ := hinv hstuck
  simp only [hpending, List.not_mem_nil, or_false] at hstart hnext
  exact ⟨hstart, hnext⟩

/-- One element is among the known successors of another. -/
def Successor (next : α → Option (List α)) (a b : α) : Prop :=
  ∃ new, next a = some new ∧ b ∈ new

/-- What is pending or visited is reached from the start. -/
def SearchReached (next : α → Option (List α)) (start : List α) (s : Search α) : Prop :=
  ∀ a, a ∈ s.visited ∨ a ∈ s.pending → ∃ r ∈ start, ReflTransGen (Successor next) r a

theorem SearchReached.round {s s' : Search α} (h : SearchReached next start s)
    (hround : searchRound next s = some s') : SearchReached next start s' := by
  unfold searchRound at hround
  split at hround
  case h_1 =>
    cases hround
    exact h
  rename_i a pending hpending
  have ha := h a (Or.inr (hpending ▸ List.mem_cons_self))
  have hrest : ∀ b ∈ pending, ∃ r ∈ start, ReflTransGen (Successor next) r b := fun b hb ↦
    h b (Or.inr (hpending ▸ List.mem_cons_of_mem _ hb))
  split at hround
  · cases hround
    exact fun b hb ↦ hb.elim (fun hb ↦ h b (Or.inl hb)) (hrest b)
  · split at hround
    · cases hround
      exact fun b hb ↦ hb.elim (fun hb ↦ h b (Or.inl hb)) (hrest b)
    · rename_i new hnew
      cases hround
      rintro b (hb | hb)
      · rcases List.mem_cons.mp hb with rfl | hb
        · exact ha
        · exact h b (Or.inl hb)
      · rcases List.mem_append.mp hb with hb | hb
        · obtain ⟨r, hr, hpath⟩ := ha
          exact ⟨r, hr, hpath.tail ⟨new, hnew, hb⟩⟩
        · exact hrest b hb

/-- A search visits what is reached from its start. -/
theorem mem_search (h : search next fuel start = some visited) {a : α} :
    a ∈ visited ↔ ∃ r ∈ start, ReflTransGen (Successor next) r a := by
  obtain ⟨hstart, hclosed⟩ := search_closed h
  constructor
  · obtain ⟨s, hloop, h⟩ := Option.bind_eq_some_iff.mp h
    split at h
    case isTrue => cases h
    cases h
    exact fun ha ↦ (whileLoop.invariant (fun s t hs _ hbody ↦ SearchReached.round hs hbody)
      (fun b hb ↦ ⟨b, hb.resolve_left List.not_mem_nil, .refl⟩) hloop).1 a (Or.inl ha)
  · rintro ⟨r, hr, hpath⟩
    induction hpath with
    | refl => exact hstart r hr
    | tail _ hstep ih =>
        obtain ⟨new, hnew, hb⟩ := hstep
        obtain ⟨new', hnew', hall⟩ := hclosed _ ih
        obtain rfl := Option.some.inj (hnew.symm.trans hnew')
        exact hall _ hb

/-! ## The rounds of a search -/

/-- Visiting an element takes its fan from what is not yet visited. -/
theorem sum_unvisited (g : α → Nat) {a : α} (ha : a ∉ visited) (l : List α) :
    (l.map fun b ↦ if b ∈ a :: visited then 0 else g b).sum + (if a ∈ l then g a else 0) ≤
      (l.map fun b ↦ if b ∈ visited then 0 else g b).sum := by
  induction l with
  | nil => simp
  | cons b l ih =>
      simp only [List.map_cons, List.sum_cons]
      by_cases hb : b = a
      · subst hb
        rw [if_pos List.mem_cons_self, if_pos List.mem_cons_self, if_neg ha]
        have hle : (l.map fun c ↦ if c ∈ b :: visited then 0 else g c).sum ≤
            (l.map fun c ↦ if c ∈ visited then 0 else g c).sum :=
          le_trans (Nat.le_add_right _ _) ih
        omega
      · have hmem : (a ∈ b :: l) = (a ∈ l) := by simp [Ne.symm hb]
        have hvis : (b ∈ a :: visited) = (b ∈ visited) := by simp [hb]
        simp only [hmem, hvis]
        omega

/-- With rounds for the start and for all fans the search comes to its end. -/
theorem searchLoop_returns (g : α → Nat) (l : List α)
    (hg : ∀ a new, next a = some new → new.length ≤ g a) (hl : ∀ a, a ∉ l → g a = 0)
    (hfuel : start.length + (l.map g).sum ≤ fuel) :
    ∃ s, searchLoop next fuel start = some s ∧ (s.stuck = true ∨ s.pending = []) := by
  obtain ⟨s, hs, _, hdone⟩ := whileLoop.terminates
    (fun s : Search α ↦ !s.stuck && !s.pending.isEmpty) (searchRound next) fuel
    (I := fun _ ↦ True) (s := ⟨start, [], false⟩)
    (fun s ↦ s.pending.length + (l.map fun b ↦ if b ∈ s.visited then 0 else g b).sum)
    (fun s _ hcond ↦ by
      obtain ⟨pending, visited, stuck⟩ := s
      simp only [Bool.and_eq_true, Bool.not_eq_true', List.isEmpty_eq_false_iff] at hcond
      obtain ⟨rfl, hpending⟩ := hcond
      cases pending with
      | nil => exact absurd rfl hpending
      | cons a pending =>
          unfold searchRound
          dsimp only
          split
          · exact ⟨_, rfl, trivial, by simp⟩
          · rename_i ha
            have hless := sum_unvisited g ha l
            have hfan : ¬ a ∈ l → g a = 0 := hl a
            split
            · exact ⟨_, rfl, trivial, by simp⟩
            · rename_i new hnew
              refine ⟨_, rfl, trivial, ?_⟩
              have hlen := hg a new hnew
              simp only [List.length_append, List.length_cons]
              split at hless
              · omega
              · rename_i hmem
                have hzero := hfan hmem
                omega) trivial (by simpa using hfuel)
  refine ⟨s, hs, ?_⟩
  cases hstuck : s.stuck with
  | true => exact Or.inl rfl
  | false => exact Or.inr (by simpa [hstuck] using hdone)

/-- A search that meets elements with known successors only does not give up. -/
theorem search_succeeds {I : α → Prop} (hstart : ∀ a ∈ start, I a)
    (hnext : ∀ a, I a → ∃ new, next a = some new ∧ ∀ b ∈ new, I b) (g : α → Nat) (l : List α)
    (hg : ∀ a new, next a = some new → new.length ≤ g a) (hl : ∀ a, a ∉ l → g a = 0)
    (hfuel : start.length + (l.map g).sum ≤ fuel) :
    ∃ visited, search next fuel start = some visited := by
  obtain ⟨s, hloop, -⟩ := searchLoop_returns g l hg hl hfuel
  have hinv : s.stuck = false ∧ ∀ a ∈ s.pending, I a := by
    refine (whileLoop.invariant (I := fun s : Search α ↦ s.stuck = false ∧ ∀ a ∈ s.pending, I a)
      (fun s t hs _ ht ↦ ?_) ⟨rfl, hstart⟩ hloop).1
    obtain ⟨hstuck, hpending⟩ := hs
    unfold searchRound at ht
    split at ht
    case h_1 =>
      cases ht
      exact ⟨hstuck, hpending⟩
    rename_i a pending heq
    have hrest : ∀ b ∈ pending, I b := fun b hb ↦ hpending b (heq ▸ List.mem_cons_of_mem _ hb)
    obtain ⟨new, hnew, hall⟩ := hnext a (hpending a (heq ▸ List.mem_cons_self))
    rw [hnew] at ht
    split at ht
    · cases ht
      exact ⟨hstuck, hrest⟩
    · cases ht
      exact ⟨hstuck, fun b hb ↦ (List.mem_append.mp hb).elim (hall b) (hrest b)⟩
  refine ⟨s.visited, ?_⟩
  rw [search, hloop, Option.bind_some, hinv.1]
  rfl

/-- A search whose elements all have successors visits what is reached from its start. -/
theorem search_returns (successors : α → List α) (l : List α) (hl : ∀ a, a ∉ l → successors a = [])
    (hfuel : start.length + (l.map fun a ↦ (successors a).length).sum ≤ fuel) :
    ∃ visited, search (fun a ↦ some (successors a)) fuel start = some visited ∧
      ∀ a, a ∈ visited ↔ ∃ r ∈ start, ReflTransGen (fun a b ↦ b ∈ successors a) r a := by
  obtain ⟨visited, hvisited⟩ := @search_succeeds α _ (fun a ↦ some (successors a)) start fuel
    (fun _ ↦ True) (fun _ _ ↦ trivial) (fun a _ ↦ ⟨_, rfl, fun _ _ ↦ trivial⟩)
    (fun a ↦ (successors a).length) l (fun a new hnew ↦ (Option.some.inj hnew) ▸ le_rfl)
    (fun a ha ↦ by rw [hl a ha]; rfl) hfuel
  refine ⟨visited, hvisited, fun a ↦ (mem_search hvisited).trans ?_⟩
  refine exists_congr fun r ↦ and_congr_right fun _ ↦ ⟨?_, ?_⟩
  · refine ReflTransGen.mono ?_ r a
    rintro b c ⟨new, hnew, hc⟩
    cases hnew
    exact hc
  · exact ReflTransGen.mono (fun b c hc ↦ ⟨_, rfl, hc⟩) r a

end CalcKernel.Lib
