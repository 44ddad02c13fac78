import Mathlib.Data.List.Perm.Basic

/-!
# Recently used entries

A bounded list of entries with keys.  The entry of a key moves to the front when it is asked for;
a new entry pushes out the one that was used longest ago.
-/

namespace CalcKernel.Lib

universe u v

variable {E : Type u} {K : Type v} [DecidableEq K]

/-- The entry of a key, and the list with it in front. -/
def recallEntry (key : E → K) (k : K) (entries : List E) : Option (E × List E) :=
  (entries.findIdx? (key · = k)).bind fun index ↦
    entries[index]?.map fun entry ↦ (entry, entry :: entries.eraseIdx index)

/-- A new entry in front, as long as there is room. -/
def rememberEntry (capacity : Nat) (entry : E) (entries : List E) : List E :=
  (entry :: entries).take capacity

variable {key : E → K} {k : K} {entry : E} {entries entries' : List E}

theorem recallEntry_eq_some (h : recallEntry key k entries = some (entry, entries')) :
    entry ∈ entries ∧ key entry = k ∧ entries'.Perm entries := by
  obtain ⟨index, hindex, h⟩ := Option.bind_eq_some_iff.mp h
  obtain ⟨found, hfound, heq⟩ := Option.map_eq_some_iff.mp h
  cases heq
  obtain ⟨hlt, hkey, -⟩ := List.findIdx?_eq_some_iff_getElem.mp hindex
  have hentry : entries[index] = entry := (List.getElem?_eq_some_iff.mp hfound).2
  rw [hentry, decide_eq_true_eq] at hkey
  refine ⟨hentry ▸ List.getElem_mem hlt, hkey, ?_⟩
  rw [← hentry]
  exact List.getElem_cons_eraseIdx_perm hlt

theorem recallEntry_eq_none (h : recallEntry key k entries = none) : ∀ e ∈ entries, key e ≠ k := by
  intro e he hkey
  rcases hindex : entries.findIdx? (key · = k) with _ | index
  · have hne := List.findIdx?_eq_none_iff.mp hindex e he
    simp [hkey] at hne
  · obtain ⟨hlt, -⟩ := List.findIdx?_eq_some_iff_getElem.mp hindex
    rw [recallEntry, hindex, Option.bind_some, List.getElem?_eq_getElem hlt] at h
    cases h

theorem mem_rememberEntry {capacity : Nat} {e : E} (h : e ∈ rememberEntry capacity entry entries) :
    e = entry ∨ e ∈ entries :=
  List.mem_cons.mp (List.mem_of_mem_take h)

theorem length_rememberEntry_le {capacity : Nat} :
    (rememberEntry capacity entry entries).length ≤ capacity :=
  List.length_take_le _ _

end CalcKernel.Lib
