import Mathlib.Order.Lattice
import Mathlib.Data.List.Perm.Basic
import Mathlib.Order.Basic
import Mathlib.Order.Defs.LinearOrder

/-!
# Sorted maps

Maps as lists of entries in ascending order of their keys.  A map is determined by what
is found under its keys, so it does not depend on the order in which it was filled.
-/

namespace CalcKernel.Lib

universe u v w

variable {K : Type u} {V : Type v} [LinearOrder K]

structure SortedMap (K : Type u) (V : Type v) [LinearOrder K] where
  entries : List (K × V)
  ascending : entries.Pairwise fun a b ↦ a.1 < b.1

/-- Entries with one put in its place. -/
def insertEntry (k : K) (x : V) : List (K × V) → List (K × V)
  | [] => [(k, x)]
  | p :: l =>
      if k < p.1 then (k, x) :: p :: l
      else if k = p.1 then (k, x) :: l
      else p :: insertEntry k x l

theorem mem_insertEntry {k : K} {x : V} {p : K × V} {l : List (K × V)}
    (h : p ∈ insertEntry k x l) : p = (k, x) ∨ p ∈ l := by
  induction l with
  | nil => exact Or.inl (List.mem_singleton.mp h)
  | cons q l ih =>
      rw [insertEntry] at h
      split at h
      · exact List.mem_cons.mp h
      · split at h
        · exact (List.mem_cons.mp h).imp_right (List.mem_cons_of_mem _)
        · rcases List.mem_cons.mp h with rfl | h
          · exact Or.inr List.mem_cons_self
          · exact (ih h).imp_right (List.mem_cons_of_mem _)

theorem ascending_insertEntry (k : K) (x : V) {l : List (K × V)}
    (h : l.Pairwise fun a b ↦ a.1 < b.1) :
    (insertEntry k x l).Pairwise fun a b ↦ a.1 < b.1 := by
  induction l with
  | nil => exact List.pairwise_singleton _ _
  | cons p l ih =>
      obtain ⟨hp, hl⟩ := List.pairwise_cons.mp h
      rw [insertEntry]
      split
      · rename_i hlt
        refine List.pairwise_cons.mpr ⟨fun q hq ↦ ?_, h⟩
        rcases List.mem_cons.mp hq with rfl | hq
        · exact hlt
        · exact lt_trans hlt (hp q hq)
      · split
        · rename_i heq
          exact List.pairwise_cons.mpr ⟨fun q hq ↦ heq ▸ hp q hq, hl⟩
        · rename_i hlt hne
          refine List.pairwise_cons.mpr ⟨fun q hq ↦ ?_, ih hl⟩
          rcases mem_insertEntry hq with rfl | hq
          · exact lt_of_le_of_ne (not_lt.mp hlt) (Ne.symm hne)
          · exact hp q hq

theorem lookup_insertEntry (k k' : K) (x : V) (l : List (K × V)) :
    (insertEntry k x l).lookup k' = if k' = k then some x else l.lookup k' := by
  induction l with
  | nil =>
      rw [insertEntry, List.lookup_cons, List.lookup_nil]
      by_cases hk : k' = k
      · rw [if_pos hk, hk, beq_self_eq_true]
      · rw [if_neg hk, beq_eq_false_iff_ne.mpr hk]
  | cons p l ih =>
      rw [insertEntry]
      split
      · rw [List.lookup_cons]
        by_cases hk : k' = k
        · rw [if_pos hk, hk, beq_self_eq_true]
        · rw [if_neg hk, beq_eq_false_iff_ne.mpr hk]
      · split
        · rename_i heq
          rw [List.lookup_cons, List.lookup_cons, ← heq]
          by_cases hk : k' = k
          · rw [if_pos hk, hk, beq_self_eq_true]
          · rw [if_neg hk, beq_eq_false_iff_ne.mpr hk]
        · rename_i hne
          rw [List.lookup_cons, List.lookup_cons, ih]
          by_cases hp : k' = p.1
          · subst hp
            have hnot : p.1 ≠ k := Ne.symm hne
            simp [hnot]
          · rw [beq_eq_false_iff_ne.mpr hp]

namespace SortedMap

def empty : SortedMap K V := ⟨[], .nil⟩

variable (m : SortedMap K V)

def find? (k : K) : Option V := m.entries.lookup k

def keys : List K := m.entries.map Prod.fst

def insert (k : K) (x : V) : SortedMap K V :=
  ⟨insertEntry k x m.entries, ascending_insertEntry k x m.ascending⟩

def erase (k : K) : SortedMap K V :=
  ⟨m.entries.filter fun p ↦ p.1 ≠ k, m.ascending.filter _⟩

/-- The values changed along with their keys. -/
def mapValues {W : Type w} (g : V → W) : SortedMap K W :=
  ⟨m.entries.map fun p ↦ (p.1, g p.2), List.pairwise_map.mpr m.ascending⟩

/-- A map filled from a list; the last of the values of a key stays. -/
def ofList (l : List (K × V)) : SortedMap K V :=
  l.foldl (fun m p ↦ m.insert p.1 p.2) empty

instance [DecidableEq V] : DecidableEq (SortedMap K V) := fun m n ↦
  decidable_of_iff (m.entries = n.entries) (by cases m; cases n; simp)

variable {m} {n : SortedMap K V} {k k' : K} {x : V}

@[simp] theorem find?_empty (k : K) : (empty : SortedMap K V).find? k = none := rfl

@[simp] theorem find?_insert (m : SortedMap K V) (k k' : K) (x : V) :
    (m.insert k x).find? k' = if k' = k then some x else m.find? k' :=
  lookup_insertEntry k k' x m.entries

theorem keys_nodup (m : SortedMap K V) : m.keys.Nodup :=
  List.pairwise_map.mpr (m.ascending.imp fun h ↦ h.ne)

theorem mem_entries : (k, x) ∈ m.entries ↔ m.find? k = some x := by
  obtain ⟨l, hl⟩ := m
  unfold find?
  induction l with
  | nil => simp
  | cons p l ih =>
      obtain ⟨hp, hl⟩ := List.pairwise_cons.mp hl
      rw [List.mem_cons, List.lookup_cons]
      by_cases hk : k = p.1
      · subst hk
        rw [beq_self_eq_true]
        constructor
        · rintro (heq | hmem)
          · exact congrArg some (congrArg Prod.snd heq).symm
          · exact absurd (hp _ hmem) (lt_irrefl _)
        · intro h
          exact Or.inl (Prod.ext rfl (Option.some.inj h).symm)
      · rw [beq_eq_false_iff_ne.mpr hk, ← ih hl]
        exact or_iff_right fun heq ↦ hk (congrArg Prod.fst heq)

theorem mem_keys : k ∈ m.keys ↔ ∃ x, m.find? k = some x := by
  rw [keys, List.mem_map]
  constructor
  · rintro ⟨⟨k, x⟩, hmem, rfl⟩
    exact ⟨x, mem_entries.mp hmem⟩
  · rintro ⟨x, hx⟩
    exact ⟨(k, x), mem_entries.mpr hx, rfl⟩

theorem find?_erase (m : SortedMap K V) (k k' : K) :
    (m.erase k).find? k' = if k' = k then none else m.find? k' := by
  have hmem : ∀ x, (m.erase k).find? k' = some x ↔ k' ≠ k ∧ m.find? k' = some x := by
    intro x
    rw [← mem_entries, ← mem_entries]
    unfold erase
    rw [List.mem_filter, and_comm]
    exact and_congr_left' decide_eq_true_iff
  by_cases hk : k' = k
  · rw [if_pos hk]
    exact Option.eq_none_iff_forall_ne_some.mpr fun x hx ↦ ((hmem x).mp hx).1 hk
  · rw [if_neg hk]
    refine Option.ext fun x ↦ ?_
    exact (hmem x).trans (and_iff_right hk)

theorem find?_mapValues {W : Type w} (m : SortedMap K V) (g : V → W) (k : K) :
    (m.mapValues g).find? k = (m.find? k).map g := by
  refine Option.ext fun y ↦ ?_
  rw [← mem_entries, Option.map_eq_some_iff]
  unfold mapValues
  rw [List.mem_map]
  constructor
  · rintro ⟨⟨k, x⟩, hmem, heq⟩
    cases heq
    exact ⟨x, mem_entries.mp hmem, rfl⟩
  · rintro ⟨x, hx, rfl⟩
    exact ⟨(k, x), mem_entries.mpr hx, rfl⟩

theorem keys_mapValues {W : Type w} (m : SortedMap K V) (g : V → W) :
    (m.mapValues g).keys = m.keys := by
  unfold keys mapValues
  rw [List.map_map]
  rfl

/-- Maps with the same values are equal. -/
theorem ext (h : ∀ k, m.find? k = n.find? k) : m = n := by
  have hnodup : ∀ m : SortedMap K V, m.entries.Nodup := fun m ↦
    m.ascending.imp fun hlt heq ↦ hlt.ne (congrArg Prod.fst heq)
  have hperm : m.entries.Perm n.entries := by
    refine (List.perm_ext_iff_of_nodup (hnodup m) (hnodup n)).mpr fun ⟨k, x⟩ ↦ ?_
    rw [mem_entries, mem_entries, h]
  have heq : m.entries = n.entries := hperm.eq_of_pairwise
    (fun a b _ _ hab hba ↦ absurd hab (lt_asymm hba)) m.ascending n.ascending
  cases m
  cases n
  cases heq
  rfl

/-- With distinct keys a map finds what the list it was filled from contains. -/
theorem find?_ofList {l : List (K × V)} (hnodup : (l.map Prod.fst).Nodup) (k : K) (x : V) :
    (ofList l).find? k = some x ↔ (k, x) ∈ l := by
  have hfold : ∀ (l : List (K × V)) (m : SortedMap K V), (l.map Prod.fst).Nodup →
      ((l.foldl (fun m p ↦ m.insert p.1 p.2) m).find? k = some x ↔
        (k, x) ∈ l ∨ k ∉ l.map Prod.fst ∧ m.find? k = some x) := by
    intro l
    induction l with
    | nil => simp
    | cons p l ih =>
        intro m hnodup
        obtain ⟨hp, hl⟩ := List.nodup_cons.mp hnodup
        rw [List.foldl_cons, ih _ hl, find?_insert, List.mem_cons, List.map_cons, List.mem_cons]
        by_cases hk : k = p.1
        · subst hk
          have hnot : (p.1, x) ∉ l := fun hmem ↦ hp (List.mem_map.mpr ⟨_, hmem, rfl⟩)
          rw [if_pos rfl]
          constructor
          · rintro (hmem | ⟨-, hx⟩)
            · exact absurd hmem hnot
            · exact Or.inl (Or.inl (Prod.ext rfl (Option.some.inj hx).symm))
          · rintro ((heq | hmem) | ⟨hnot, -⟩)
            · exact Or.inr ⟨hp, congrArg some (congrArg Prod.snd heq).symm⟩
            · exact absurd hmem hnot
            · exact absurd (Or.inl rfl) hnot
        · have hne : (k, x) ≠ p := fun heq ↦ hk (congrArg Prod.fst heq)
          rw [if_neg hk]
          simp only [hne, hk, false_or]
  rw [ofList, hfold l empty hnodup]
  simp

/-- A map does not depend on the order in which distinct keys are filled in. -/
theorem ofList_perm {l l' : List (K × V)} (hperm : l.Perm l') (hnodup : (l.map Prod.fst).Nodup) :
    ofList l = ofList l' := by
  refine ext fun k ↦ Option.ext fun x ↦ ?_
  rw [find?_ofList hnodup, find?_ofList ((hperm.map Prod.fst).nodup_iff.mp hnodup),
    hperm.mem_iff]

end SortedMap

end CalcKernel.Lib
