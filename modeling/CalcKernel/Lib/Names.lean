import Mathlib.Data.List.Nodup
import Mathlib.Data.List.Basic
import Mathlib.Data.List.Perm.Subperm

/-!
# Names that are kept apart

A name is made new by a number behind it.  Names are compared by their segments, the parts
between their underscores.
-/

namespace CalcKernel.Lib

/-! ## Segments -/

def segments (name : String) : List (List Char) := name.toList.splitOn '_'

def digits (n : Nat) : List Char := (toString n).toList

theorem digits_eq (n : Nat) : digits n = Nat.toDigits 10 n := by
  rw [digits, Nat.toString_eq_ofList_toDigits, String.toList_ofList]

theorem digits_injective {m n : Nat} (h : digits m = digits n) : m = n := by
  rw [digits_eq, digits_eq] at h
  rw [← Nat.ofDigitChars_ten_toDigits (n := m), h, Nat.ofDigitChars_ten_toDigits]

theorem isDigit_of_mem_digits {n : Nat} {c : Char} (h : c ∈ digits n) : c.isDigit = true := by
  rw [digits_eq] at h
  exact Nat.isDigit_of_mem_toDigits (by decide) (by decide) h

theorem segments_append (a b : String) : segments (a ++ "_" ++ b) = segments a ++ segments b := by
  have hlist : (a ++ "_" ++ b).toList = a.toList ++ '_' :: b.toList := by
    simp [String.toList_append]
  rw [segments, hlist, List.splitOn_append_cons_self]
  exact Eq.refl _

theorem segments_of_notMem {name : String} (h : '_' ∉ name.toList) :
    segments name = [name.toList] :=
  List.splitOn_eq_singleton h

theorem segments_toString (n : Nat) : segments (toString n) = [digits n] := by
  refine segments_of_notMem fun h ↦ ?_
  have hdigit := isDigit_of_mem_digits h
  exact absurd hdigit (by decide)

theorem segments_injective {a b : String} (h : segments a = segments b) : a = b := by
  rw [segments, segments] at h
  have hlist := congrArg (['_'].intercalate) h
  rw [List.intercalate_splitOn, List.intercalate_splitOn] at hlist
  exact String.toList_inj.mp hlist

theorem segments_ne_nil (name : String) : segments name ≠ [] := List.splitOn_ne_nil _ _

/-- A segment that has a character which is no digit is no number. -/
theorem ne_digits {s : List Char} (h : ∃ c ∈ s, c.isDigit = false) (n : Nat) : s ≠ digits n := by
  rintro rfl
  obtain ⟨c, hc, hdigit⟩ := h
  rw [isDigit_of_mem_digits hc] at hdigit
  cases hdigit

/-! ## Candidates -/

/-- The name itself, then the name with the numbers from one on. -/
def candidate (preferred : String) : Nat → String
  | 0 => preferred
  | n + 1 => preferred ++ "_" ++ toString (n + 1)

theorem segments_candidate_succ (preferred : String) (n : Nat) :
    segments (candidate preferred (n + 1)) = segments preferred ++ [digits (n + 1)] := by
  rw [candidate, segments_append, segments_toString]

/-- A candidate begins like the name. -/
theorem exists_segments_candidate (preferred : String) (n : Nat) :
    ∃ number, segments (candidate preferred n) = segments preferred ++ number := by
  cases n with
  | zero => exact ⟨[], (List.append_nil _).symm⟩
  | succ n => exact ⟨_, segments_candidate_succ preferred n⟩

theorem candidate_injective (preferred : String) {m n : Nat}
    (h : candidate preferred m = candidate preferred n) : m = n := by
  have hlength (k : Nat) : segments preferred ≠ segments (candidate preferred (k + 1)) := by
    intro heq
    have hlength := congrArg List.length heq
    rw [segments_candidate_succ, List.length_append, List.length_singleton] at hlength
    omega
  cases m with
  | zero =>
      cases n with
      | zero => exact Eq.refl _
      | succ n => exact absurd (congrArg segments h) (hlength n)
  | succ m =>
      cases n with
      | zero => exact absurd (congrArg segments h.symm) (hlength m)
      | succ n =>
          have hsegments := congrArg segments h
          rw [segments_candidate_succ, segments_candidate_succ] at hsegments
          have hlast := List.append_cancel_left hsegments
          exact digits_injective (List.head_eq_of_cons_eq hlast)

/-- No candidate of one name is one of the other. -/
def KeptApart (p q : String) : Prop := ∀ m n, candidate p m ≠ candidate q n

theorem KeptApart.symm {p q : String} (h : KeptApart p q) : KeptApart q p :=
  fun m n heq ↦ h n m heq.symm

/-- Names are apart when they differ and neither is the other with a number. -/
theorem apart_of_ne {p q : String} (hne : p ≠ q)
    (hpq : ∀ n, segments p ≠ segments q ++ [digits n])
    (hqp : ∀ n, segments q ≠ segments p ++ [digits n]) : KeptApart p q := by
  intro m n h
  cases m with
  | zero =>
      cases n with
      | zero => exact hne h
      | succ n =>
          have hsegments := congrArg segments h
          rw [segments_candidate_succ] at hsegments
          exact hpq _ hsegments
  | succ m =>
      cases n with
      | zero =>
          have hsegments := congrArg segments h
          rw [segments_candidate_succ] at hsegments
          exact hqp _ hsegments.symm
      | succ n =>
          have hsegments := congrArg segments h
          rw [segments_candidate_succ, segments_candidate_succ] at hsegments
          obtain ⟨hinit, -⟩ := List.append_inj' hsegments (Eq.refl _)
          exact hne (segments_injective hinit)

/-! ## The first free candidate -/

/-- The first candidate that is not used; there is one among as many as there are names and one
more. -/
def firstFree (used : List String) (preferred : String) : String :=
  (((List.range (used.length + 1)).map (candidate preferred)).find? (· ∉ used)).getD preferred

theorem exists_free (used : List String) (preferred : String) :
    ∃ n ≤ used.length, candidate preferred n ∉ used := by
  by_contra h
  have hall : ∀ n ≤ used.length, candidate preferred n ∈ used :=
    fun n hn ↦ by_contra fun hnot ↦ h ⟨n, hn, hnot⟩
  have hnodup : ((List.range (used.length + 1)).map (candidate preferred)).Nodup :=
    List.nodup_range.map fun _ _ heq ↦ candidate_injective preferred heq
  have hsubset : (List.range (used.length + 1)).map (candidate preferred) ⊆ used := by
    intro name hname
    obtain ⟨n, hn, rfl⟩ := List.mem_map.mp hname
    exact hall n (Nat.lt_succ_iff.mp (List.mem_range.mp hn))
  have hlength := (hnodup.subperm hsubset).length_le
  rw [List.length_map, List.length_range] at hlength
  omega

/-- The first free candidate, with all candidates before it used. -/
theorem firstFree_spec (used : List String) (preferred : String) :
    ∃ n, firstFree used preferred = candidate preferred n ∧ candidate preferred n ∉ used ∧
      ∀ k < n, candidate preferred k ∈ used := by
  obtain ⟨free, hle, hfree⟩ := exists_free used preferred
  have hmem : candidate preferred free ∈ (List.range (used.length + 1)).map (candidate preferred) :=
    List.mem_map_of_mem (List.mem_range.mpr (by omega))
  cases hfind : ((List.range (used.length + 1)).map (candidate preferred)).find? (· ∉ used) with
  | none =>
      have hnone := List.find?_eq_none.mp hfind _ hmem
      exact absurd hfree (by simpa using hnone)
  | some name =>
      obtain ⟨hname, before, after, hsplit, hbefore⟩ := List.find?_eq_some_iff_append.mp hfind
      have hn := List.getElem_of_eq hsplit (i := before.length) (by
        rw [hsplit, List.length_append, List.length_cons]
        omega)
      rw [List.getElem_map, List.getElem_range,
        List.getElem_append_right (Nat.le_refl _)] at hn
      simp only [Nat.sub_self, List.getElem_cons_zero] at hn
      refine ⟨before.length, ?_, ?_, fun k hk ↦ ?_⟩
      · rw [firstFree, hfind, hn]
        exact Eq.refl _
      · rw [hn]
        simpa using hname
      · have hget : before[k] = candidate preferred k := by
          have hk' := List.getElem_of_eq hsplit (i := k) (by
            rw [hsplit, List.length_append, List.length_cons]
            omega)
          rw [List.getElem_map, List.getElem_range, List.getElem_append_left hk] at hk'
          exact hk'.symm
        have hused := hbefore _ (List.getElem_mem hk)
        rw [hget] at hused
        simpa using hused

theorem firstFree_notMem (used : List String) (preferred : String) :
    firstFree used preferred ∉ used := by
  obtain ⟨n, hn, hfree, -⟩ := firstFree_spec used preferred
  rw [hn]
  exact hfree

theorem exists_candidate (used : List String) (preferred : String) :
    ∃ n, firstFree used preferred = candidate preferred n := by
  obtain ⟨n, hn, -⟩ := firstFree_spec used preferred
  exact ⟨n, hn⟩

/-- Only the candidates of a name count. -/
theorem firstFree_congr {used used' : List String} {preferred : String}
    (h : ∀ n, candidate preferred n ∈ used ↔ candidate preferred n ∈ used') :
    firstFree used preferred = firstFree used' preferred := by
  obtain ⟨m, hm, hfree, hbefore⟩ := firstFree_spec used preferred
  obtain ⟨n, hn, hfree', hbefore'⟩ := firstFree_spec used' preferred
  rcases Nat.lt_trichotomy m n with hlt | rfl | hlt
  · exact absurd ((h m).mpr (hbefore' m hlt)) hfree
  · rw [hm, hn]
  · exact absurd ((h n).mp (hbefore n hlt)) hfree'

theorem firstFree_append {names used : List String} {preferred : String}
    (h : ∀ name ∈ names, ∀ n, candidate preferred n ≠ name) :
    firstFree (names ++ used) preferred = firstFree used preferred := by
  refine firstFree_congr fun n ↦ ?_
  rw [List.mem_append]
  exact or_iff_right fun hmem ↦ h _ hmem n (Eq.refl _)

theorem firstFree_ne_of_apart {used used' : List String} {p q : String} (h : KeptApart p q) :
    firstFree used p ≠ firstFree used' q := by
  obtain ⟨m, hm⟩ := exists_candidate used p
  obtain ⟨n, hn⟩ := exists_candidate used' q
  rw [hm, hn]
  exact h m n

/-! ## One name after the other -/

/-- Every name is the first free candidate, and is used from then on. -/
def allocateAll (used : List String) : List String → List String
  | [] => []
  | preferred :: rest => firstFree used preferred ::
      allocateAll (firstFree used preferred :: used) rest

theorem allocateAll_disjoint {used preferred : List String} :
    ∀ name ∈ allocateAll used preferred, name ∉ used := by
  induction preferred generalizing used with
  | nil => exact fun _ h ↦ by cases h
  | cons p rest ih =>
      intro name hname
      rw [allocateAll] at hname
      rcases List.mem_cons.mp hname with rfl | hname
      · exact firstFree_notMem used p
      · exact fun hmem ↦ ih name hname (List.mem_cons_of_mem _ hmem)

theorem exists_of_mem_allocateAll {used preferred : List String} :
    ∀ name ∈ allocateAll used preferred, ∃ p ∈ preferred, ∃ n, name = candidate p n := by
  induction preferred generalizing used with
  | nil => exact fun _ h ↦ by cases h
  | cons p rest ih =>
      intro name hname
      rw [allocateAll] at hname
      rcases List.mem_cons.mp hname with rfl | hname
      · exact ⟨p, List.mem_cons_self, exists_candidate used p⟩
      · obtain ⟨q, hq, hn⟩ := ih name hname
        exact ⟨q, List.mem_cons_of_mem _ hq, hn⟩

theorem allocateAll_nodup {used preferred : List String} : (allocateAll used preferred).Nodup := by
  induction preferred generalizing used with
  | nil => exact List.nodup_nil
  | cons p rest ih =>
      rw [allocateAll, List.nodup_cons]
      exact ⟨fun hmem ↦ allocateAll_disjoint _ hmem List.mem_cons_self, ih⟩

/-- Names that are apart are not in each other's way. -/
theorem allocateAll_eq {used preferred : List String} (h : preferred.Pairwise KeptApart) :
    allocateAll used preferred = preferred.map (firstFree used) := by
  have hgeneral (names : List String) (hnames : ∀ p ∈ preferred, ∀ name ∈ names, ∀ n,
      candidate p n ≠ name) :
        allocateAll (names ++ used) preferred = preferred.map (firstFree used) := by
    induction preferred generalizing names with
    | nil => exact Eq.refl _
    | cons p rest ih =>
        obtain ⟨hp, hrest⟩ := List.pairwise_cons.mp h
        have hfirst : firstFree (names ++ used) p = firstFree used p :=
          firstFree_append (hnames p List.mem_cons_self)
        rw [allocateAll, List.map_cons, hfirst, ← List.cons_append]
        refine congrArg _ (ih hrest _ fun q hq name hname n ↦ ?_)
        rcases List.mem_cons.mp hname with rfl | hname
        · obtain ⟨m, hm⟩ := exists_candidate used p
          rw [hm]
          exact (hp q hq).symm n m
        · exact hnames q (List.mem_cons_of_mem _ hq) name hname n
  exact hgeneral [] fun _ _ _ hname ↦ by cases hname

end CalcKernel.Lib
