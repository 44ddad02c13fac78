import CalcKernel.Lib.DepthFirst
import Mathlib.Order.WellFounded

/-!
# Strongly connected components

The second pass of Kosaraju's algorithm: the elements in a leaving order, each with what
reaches it and was not gathered before.  What is gathered together is a component, and every
element is gathered.
-/

namespace CalcKernel.Lib

open Relation

universe u

variable {α : Type u}

/-- What is gathered at an element: all that reaches it outside of what was gathered before. -/
structure Gathers (E : α → α → Prop) (assigned : List α) (r : α) (component : List α) : Prop where
  nodup : component.Nodup
  mem : ∀ x, x ∈ component ↔ x ∉ assigned ∧ ReflTransGen (fun x y ↦ E x y ∧ y ∉ assigned) x r

theorem index_unique {l : List α} (h : l.Nodup) {i j : Nat} {x : α} (hi : l[i]? = some x)
    (hj : l[j]? = some x) : i = j :=
  (List.getElem?_inj (List.getElem?_eq_some_iff.mp hi).1 h).mp (hi.trans hj.symm)

/-- A set without repetitions that is closed under predecessors but for what was gathered. -/
theorem gathers_of_closed {E : α → α → Prop} {assigned component : List α} {r : α}
    (hnodup : component.Nodup) (hroot : r ∈ component) (hapart : ∀ x ∈ component, x ∉ assigned)
    (hreach : ∀ x ∈ component, ReflTransGen (fun x y ↦ E x y ∧ y ∉ assigned) x r)
    (hclosed : ∀ y ∈ component, ∀ x, E x y → x ∈ assigned ∨ x ∈ component) :
    Gathers E assigned r component := by
  refine ⟨hnodup, fun x ↦ ⟨fun hx ↦ ⟨hapart x hx, hreach x hx⟩, fun h ↦ ?_⟩⟩
  obtain ⟨hx, hpath⟩ := h
  induction hpath using ReflTransGen.head_induction_on with
  | refl => exact hroot
  | head hedge _ ih => exact (hclosed _ (ih hedge.2) _ hedge.1).resolve_left hx

/-- An element lies on a cycle when its component has another element or it has an edge to
itself. -/
theorem onCycle_iff {x : α} :
    TransGen E x x ↔ (∃ y, y ≠ x ∧ StronglyConnected E y x) ∨ E x x := by
  constructor
  · intro h
    by_cases hself : E x x
    · exact .inr hself
    obtain ⟨y, hxy, hyx⟩ := TransGen.head'_iff.mp h
    refine .inl ⟨y, ?_, hyx, .single hxy⟩
    rintro rfl
    exact hself hxy
  · rintro (⟨y, hne, hyx, hxy⟩ | hself)
    · rcases reflTransGen_iff_eq_or_transGen.mp hxy with heq | hxy
      · exact absurd heq hne
      · exact TransGen.trans_left hxy hyx
    · exact .single hself

theorem one_lt_length_of_ne {l : List α} {x y : α} (hx : x ∈ l) (hy : y ∈ l) (hne : y ≠ x) :
    1 < l.length := by
  match l with
  | [] => cases hx
  | [a] => exact absurd ((List.mem_singleton.mp hy).trans (List.mem_singleton.mp hx).symm) hne
  | _ :: _ :: _ => exact Nat.succ_lt_succ (Nat.succ_pos _)

theorem exists_ne_of_one_lt_length {l : List α} (hnodup : l.Nodup) (h : 1 < l.length) (x : α) :
    ∃ y ∈ l, y ≠ x := by
  match l with
  | [] | [_] => simp at h
  | a :: b :: l =>
      by_cases ha : a = x
      · refine ⟨b, by simp, ?_⟩
        rintro rfl
        exact (List.nodup_cons.mp hnodup).1 (ha ▸ List.mem_cons_self)
      · exact ⟨a, List.mem_cons_self, ha⟩

section Kosaraju

variable {E : α → α → Prop} {gather : List α → α → Option (List α)} {finish : List α}

/-- What is gathered at an element in a leaving order is its component. -/
theorem Gathers.component {assigned component done rest : List α} {r : α}
    (hgather : Gathers E assigned r component) (horder : LeavingOrder E (done ++ r :: rest))
    (hsource : ∀ x y, E x y → x ∈ done ++ r :: rest)
    (hassigned : ∀ x, x ∈ assigned ↔ ∃ u ∈ done, StronglyConnected E x u) (hr : r ∉ assigned)
    (x : α) : x ∈ component ↔ StronglyConnected E x r := by
  have hclosed : ∀ {x y}, StronglyConnected E x y → y ∈ assigned → x ∈ assigned := by
    intro x y hxy hy
    obtain ⟨u, hu, hyu⟩ := (hassigned y).mp hy
    exact (hassigned x).mpr ⟨u, hu, hxy.trans hyu⟩
  rw [hgather.mem]
  constructor
  · rintro ⟨hx, hpath⟩
    induction hpath using ReflTransGen.head_induction_on with
    | refl => exact .refl r
    | @head x y hedge _ ih =>
        have hyr := ih hedge.2
        obtain ⟨q, hq⟩ := List.getElem?_of_mem (hsource x y hedge.1)
        -- the element of the component that stands first cannot stand before `r`
        obtain ⟨p, ⟨u, hu, hux⟩, hfirst⟩ := WellFounded.has_min (wellFounded_lt (α := Nat))
          {k | ∃ u, (done ++ r :: rest)[k]? = some u ∧ StronglyConnected E u x}
          ⟨q, x, hq, .refl x⟩
        have hreach : ReflTransGen E u r := hux.1.trans (.head hedge.1 hyr.1)
        obtain ⟨j, hj, hpj⟩ := horder.le_of_reaches hu (fun k hk w hw hwu ↦
          hfirst k ⟨w, hw, hwu.trans hux⟩ hk) hreach
        have hplace : (done ++ r :: rest)[done.length]? = some r := by simp
        obtain rfl : j = done.length := index_unique horder.nodup hj hplace
        have hle : done.length ≤ p := by
          by_contra hlt
          have hmem : u ∈ done := by
            have hlt := Nat.lt_of_not_le hlt
            rw [List.getElem?_append_left hlt] at hu
            exact List.mem_of_getElem? hu
          exact hx ((hassigned x).mpr ⟨u, hmem, hux.symm⟩)
        obtain rfl : p = done.length := le_antisymm hpj hle
        rw [hplace] at hu
        cases hu
        exact hux.symm
  · intro hxr
    have hx : x ∉ assigned := fun hx ↦ hr (hclosed hxr.symm hx)
    refine ⟨hx, ?_⟩
    obtain ⟨hpath, hback⟩ := hxr
    clear hx
    induction hpath using ReflTransGen.head_induction_on with
    | refl => exact .refl
    | @head x y hedge hyr ih =>
        have hry : ReflTransGen E r y := hback.tail hedge
        exact .head ⟨hedge, fun hy ↦ hr (hclosed ⟨hry, hyr⟩ hy)⟩ (ih hry)

variable [DecidableEq α]

/-- The components, each with the element it was gathered at. -/
def sweep (gather : List α → α → Option (List α)) :
    List α → List α → Option (List (α × List α))
  | _, [] => some []
  | assigned, r :: rest =>
      if r ∈ assigned then sweep gather assigned rest
      else (gather assigned r).bind fun component ↦
        (sweep gather (component ++ assigned) rest).map ((r, component) :: ·)

theorem sweep_spec_from {done rest assigned : List α} {components : List (α × List α)}
    (hgather : ∀ assigned, ∀ r ∈ rest, ∀ c, r ∉ assigned → gather assigned r = some c →
      Gathers E assigned r c) (horder : LeavingOrder E (done ++ rest)) (hsource : ∀ x y, E x y → x ∈ done ++ rest)
    (hassigned : ∀ x, x ∈ assigned ↔ ∃ u ∈ done, StronglyConnected E x u)
    (h : sweep gather assigned rest = some components) :
    (∀ p ∈ components, p.1 ∈ rest ∧ p.2.Nodup ∧ ∀ x, x ∈ p.2 ↔ StronglyConnected E x p.1) ∧
      ∀ x ∈ rest, x ∈ assigned ∨ ∃ p ∈ components, StronglyConnected E x p.1 := by
  induction rest generalizing done assigned components with
  | nil =>
      cases h
      exact ⟨by simp, by simp⟩
  | cons r rest ih =>
      have happend : done ++ r :: rest = (done ++ [r]) ++ rest := by simp
      have hgather' := fun assigned s hs ↦ hgather assigned s (List.mem_cons_of_mem r hs)
      have horder' : LeavingOrder E ((done ++ [r]) ++ rest) := happend ▸ horder
      have hsource' : ∀ x y, E x y → x ∈ (done ++ [r]) ++ rest := happend ▸ hsource
      unfold sweep at h
      split at h
      · rename_i hr
        obtain ⟨hcomponents, hall⟩ := ih hgather' horder' hsource' (fun x ↦ by
            rw [hassigned]
            constructor
            · rintro ⟨u, hu, hxu⟩
              exact ⟨u, List.mem_append_left _ hu, hxu⟩
            · rintro ⟨u, hu, hxu⟩
              rcases List.mem_append.mp hu with hu | hu
              · exact ⟨u, hu, hxu⟩
              · obtain rfl := List.mem_singleton.mp hu
                obtain ⟨w, hw, huw⟩ := (hassigned u).mp hr
                exact ⟨w, hw, hxu.trans huw⟩) h
        refine ⟨fun p hp ↦ ?_, fun x hx ↦ ?_⟩
        · obtain ⟨hmem, hrest⟩ := hcomponents p hp
          exact ⟨List.mem_cons_of_mem r hmem, hrest⟩
        · rcases List.mem_cons.mp hx with rfl | hx
          · exact .inl hr
          · exact hall x hx
      · rename_i hr
        obtain ⟨c, hc, h⟩ := Option.bind_eq_some_iff.mp h
        obtain ⟨cs, hcs, rfl⟩ := Option.map_eq_some_iff.mp h
        have hgathers := hgather assigned r List.mem_cons_self c hr hc
        have hcomponent := hgathers.component horder hsource hassigned hr
        obtain ⟨hcomponents, hall⟩ := ih hgather' horder' hsource' (fun x ↦ by
            rw [List.mem_append, hcomponent, hassigned]
            constructor
            · rintro (hx | ⟨u, hu, hxu⟩)
              · exact ⟨r, List.mem_append_right _ (List.mem_singleton_self r), hx⟩
              · exact ⟨u, List.mem_append_left _ hu, hxu⟩
            · rintro ⟨u, hu, hxu⟩
              rcases List.mem_append.mp hu with hu | hu
              · exact .inr ⟨u, hu, hxu⟩
              · obtain rfl := List.mem_singleton.mp hu
                exact .inl hxu) hcs
        refine ⟨fun p hp ↦ ?_, fun x hx ↦ ?_⟩
        · rcases List.mem_cons.mp hp with rfl | hp
          · exact ⟨List.mem_cons_self, hgathers.nodup, hcomponent⟩
          · obtain ⟨hmem, hrest⟩ := hcomponents p hp
            exact ⟨List.mem_cons_of_mem r hmem, hrest⟩
        · rcases List.mem_cons.mp hx with rfl | hx
          · exact .inr ⟨_, List.mem_cons_self, .refl x⟩
          · rcases hall x hx with hmem | ⟨p, hp, hxp⟩
            · rcases List.mem_append.mp hmem with hmem | hmem
              · exact .inr ⟨_, List.mem_cons_self, (hcomponent x).mp hmem⟩
              · exact .inl hmem
            · exact .inr ⟨p, List.mem_cons_of_mem _ hp, hxp⟩

/-- The sweep of a leaving order finds the components, all of them and nothing else. -/
theorem sweep_spec {components : List (α × List α)}
    (hgather : ∀ assigned, ∀ r ∈ finish, ∀ c, r ∉ assigned → gather assigned r = some c →
      Gathers E assigned r c) (horder : LeavingOrder E finish)
    (hsource : ∀ x y, E x y → x ∈ finish) (h : sweep gather [] finish = some components) :
    (∀ p ∈ components, p.1 ∈ finish ∧ p.2.Nodup ∧ ∀ x, x ∈ p.2 ↔ StronglyConnected E x p.1) ∧
      ∀ x ∈ finish, ∃ p ∈ components, StronglyConnected E x p.1 := by
  have horder' : LeavingOrder E ([] ++ finish) := horder
  obtain ⟨hcomponents, hall⟩ := sweep_spec_from hgather horder' hsource (by simp) h
  exact ⟨hcomponents, fun x hx ↦ (hall x hx).resolve_left List.not_mem_nil⟩

/-- The components with more than one element, or whose element has an edge to itself, hold the
elements on cycles. -/
theorem mem_cyclic_components {components : List (α × List α)} (hself : α → Bool)
    (hsource : ∀ x y, E x y → x ∈ finish) (hedge : ∀ x, hself x = true ↔ E x x)
    (hcomponents : ∀ p ∈ components, p.1 ∈ finish ∧ p.2.Nodup ∧
      ∀ x, x ∈ p.2 ↔ StronglyConnected E x p.1)
    (hall : ∀ x ∈ finish, ∃ p ∈ components, StronglyConnected E x p.1) (x : α) :
    x ∈ components.flatMap (fun p ↦ if 1 < p.2.length ∨ hself p.1 = true then p.2 else []) ↔
      TransGen E x x := by
  rw [List.mem_flatMap]
  constructor
  · rintro ⟨p, hp, hx⟩
    obtain ⟨-, hnodup, hmem⟩ := hcomponents p hp
    split at hx
    case isFalse => cases hx
    rename_i hcyclic
    have hxp := (hmem x).mp hx
    rw [onCycle_iff]
    by_cases hother : ∃ y ∈ p.2, y ≠ x
    · obtain ⟨y, hy, hne⟩ := hother
      exact .inl ⟨y, hne, ((hmem y).mp hy).trans hxp.symm⟩
    · have hroot : p.1 = x := by
        by_contra hne
        exact hother ⟨p.1, (hmem p.1).mpr (.refl _), hne⟩
      rcases hcyclic with hlength | hloop
      · exact absurd (exists_ne_of_one_lt_length hnodup hlength x) hother
      · exact .inr (hroot ▸ (hedge p.1).mp hloop)
  · intro hcycle
    obtain ⟨y, hxy, -⟩ := TransGen.head'_iff.mp hcycle
    obtain ⟨p, hp, hxp⟩ := hall x (hsource x y hxy)
    obtain ⟨-, hnodup, hmem⟩ := hcomponents p hp
    have hx := (hmem x).mpr hxp
    refine ⟨p, hp, ?_⟩
    rw [if_pos]
    · exact hx
    rcases onCycle_iff.mp hcycle with ⟨z, hne, hzx⟩ | hloop
    · exact .inl (one_lt_length_of_ne hx ((hmem z).mpr (hzx.trans hxp)) hne)
    · by_cases hroot : p.1 = x
      · exact .inr ((hedge p.1).mpr (hroot ▸ hloop))
      · exact .inl (one_lt_length_of_ne hx ((hmem p.1).mpr (.refl _)) hroot)

end Kosaraju

end CalcKernel.Lib
