import Mathlib.Data.List.Dedup
import Mathlib.Data.List.Forall2
import Mathlib.Data.List.Nodup
import Mathlib.Data.List.Sort

/-!
# Association lists, sorted sets and monadic maps

Keys, lookups and zips of lists, sets of numbers as ascending lists, and what a
successful monadic map says about its elements.
-/

namespace CalcKernel.Lib

universe u v

section Lookup

variable {α : Type u} {β : Type v} [BEq α] [LawfulBEq α]

theorem mem_of_lookup {l : List (α × β)} {k : α} {x : β} (h : l.lookup k = some x) :
    (k, x) ∈ l := by
  induction l with
  | nil => cases h
  | cons p l ih =>
      obtain ⟨a, b⟩ := p
      rw [List.lookup_cons] at h
      split at h
      · rename_i hk
        obtain rfl : k = a := by simpa using hk
        cases h
        exact List.mem_cons_self
      · exact List.mem_cons_of_mem _ (ih h)

/-- With distinct keys every pair of the list is found. -/
theorem lookup_of_mem {l : List (α × β)} (hnodup : (l.map Prod.fst).Nodup) {k : α} {x : β}
    (h : (k, x) ∈ l) : l.lookup k = some x := by
  induction l with
  | nil => cases h
  | cons p l ih =>
      obtain ⟨a, b⟩ := p
      rw [List.map_cons, List.nodup_cons] at hnodup
      rw [List.lookup_cons]
      rcases List.mem_cons.mp h with heq | hmem
      · cases heq
        simp
      · have hne : k ≠ a := by
          intro hk
          exact hnodup.1 (List.mem_map.mpr ⟨(k, x), hmem, hk⟩)
        have hbeq : (k == a) = false := by simpa using hne
        rw [hbeq]
        exact ih hnodup.2 hmem

/-- The list with the value of a key replaced, or added at the end. -/
def upsert (k : α) (x : β) : List (α × β) → List (α × β)
  | [] => [(k, x)]
  | p :: l => if k == p.1 then (k, x) :: l else p :: upsert k x l

theorem lookup_upsert (k k' : α) (x : β) (l : List (α × β)) :
    (upsert k x l).lookup k' = if k' == k then some x else l.lookup k' := by
  induction l with
  | nil => rw [upsert, List.lookup_cons, List.lookup_nil]; cases k' == k <;> rfl
  | cons p l ih =>
      rw [upsert]
      split
      · rename_i hk
        obtain rfl : k = p.1 := by simpa using hk
        rw [List.lookup_cons, List.lookup_cons]
        cases k' == p.1 <;> rfl
      · rename_i hk
        rw [List.lookup_cons, List.lookup_cons, ih]
        cases hp : k' == p.1 with
        | false => rfl
        | true =>
            obtain rfl : k' = p.1 := by simpa using hp
            have hne : (p.1 == k) = false := by
              rw [beq_eq_false_iff_ne]
              rintro rfl
              exact hk BEq.rfl
            rw [hne]
            rfl

theorem upsert_of_lookup {l : List (α × β)} {k : α} {x : β} (h : l.lookup k = some x) :
    upsert k x l = l := by
  induction l with
  | nil => cases h
  | cons p l ih =>
      obtain ⟨a, b⟩ := p
      rw [List.lookup_cons] at h
      rw [upsert]
      split at h
      · rename_i hk
        obtain rfl : k = a := by simpa using hk
        cases h
        rw [if_pos hk]
      · rename_i hk
        rw [if_neg (by simpa using hk), ih h]

/-- Looking up in a list whose values change with their key. -/
theorem lookup_map_values {l : List (α × β)} (g : α → β → β) (k : α) :
    (l.map fun p ↦ (p.1, g p.1 p.2)).lookup k = (l.lookup k).map (g k) := by
  induction l with
  | nil => rfl
  | cons p l ih =>
      rw [List.map_cons, List.lookup_cons, List.lookup_cons, ih]
      cases hk : k == p.1 with
      | false => rfl
      | true =>
          obtain rfl : k = p.1 := by simpa using hk
          rfl

end Lookup

/-- The members of a list in ascending order, each once. -/
def sortedSet (l : List Nat) : List Nat :=
  l.dedup.insertionSort (· ≤ ·)

theorem mem_sortedSet {l : List Nat} {n : Nat} : n ∈ sortedSet l ↔ n ∈ l := by
  simp [sortedSet]

theorem sortedSet_nodup (l : List Nat) : (sortedSet l).Nodup :=
  (List.perm_insertionSort _ _).nodup_iff.mpr l.nodup_dedup

theorem sortedSet_pairwise (l : List Nat) : (sortedSet l).Pairwise (· < ·) :=
  ((List.pairwise_insertionSort _ _).and (sortedSet_nodup l)).imp fun h ↦ lt_of_le_of_ne h.1 h.2

theorem map_fst_zip_sublist (l : List α) (l' : List β) : ((l.zip l').map Prod.fst).Sublist l := by
  induction l generalizing l' with
  | nil => exact List.Sublist.refl _
  | cons a l ih =>
      cases l' with
      | nil => exact List.nil_sublist _
      | cons b l' => exact (ih l').cons_cons a

theorem mem_of_mem_map_fst_zip {α : Type u} {β : Type v} {l : List α} {xs : List β} {a : α}
    (h : a ∈ (l.zip xs).map Prod.fst) : a ∈ l := by
  obtain ⟨⟨a, b⟩, hab, rfl⟩ := List.mem_map.mp h
  exact (List.of_mem_zip hab).1

theorem exists_forall₂ {α : Type u} {β : Type v} {R : α → β → Prop} {l : List α}
    (h : ∀ a ∈ l, ∃ b, R a b) : ∃ l' : List β, List.Forall₂ R l l' := by
  induction l with
  | nil => exact ⟨[], .nil⟩
  | cons a l ih =>
      obtain ⟨b, hb⟩ := h a List.mem_cons_self
      obtain ⟨l', hl'⟩ := ih fun x hx ↦ h x (List.mem_cons_of_mem _ hx)
      exact ⟨b :: l', .cons hb hl'⟩

theorem bind_eq_ok {ε : Type u} {α β : Type v} {x : Except ε α} {f : α → Except ε β} {b : β} :
    (x >>= f) = .ok b ↔ ∃ a, x = .ok a ∧ f a = .ok b := by
  cases x with
  | error e => simp [bind, Except.bind]
  | ok a => simp [bind, Except.bind]

/-- A check in front of the rest. -/
theorem check_bind_eq_ok {ε : Type} {β : Type} {x : Except ε Unit} {f : Unit → Except ε β} {b : β} :
    (x >>= f) = .ok b ↔ x = .ok () ∧ f () = .ok b := by
  rw [bind_eq_ok]
  constructor
  · rintro ⟨⟨⟩, hx, hf⟩
    exact ⟨hx, hf⟩
  · rintro ⟨hx, hf⟩
    exact ⟨(), hx, hf⟩

theorem pure_eq_ok {ε : Type u} {α : Type v} {a b : α} :
    (pure a : Except ε α) = .ok b ↔ a = b := by
  simp [pure, Except.pure]

theorem mapM_eq_ok {ε α β : Type u} {f : α → Except ε β} {l : List α} {l' : List β}
    (h : l.mapM f = .ok l') : List.Forall₂ (fun a b ↦ f a = .ok b) l l' := by
  induction l generalizing l' with
  | nil =>
      obtain rfl : [] = l' := by simpa [pure, Except.pure] using h
      exact .nil
  | cons a l ih =>
      rw [List.mapM_cons] at h
      obtain ⟨b, hb, h⟩ := bind_eq_ok.mp h
      obtain ⟨bs, hbs, h⟩ := bind_eq_ok.mp h
      cases pure_eq_ok.mp h
      exact .cons hb (ih hbs)

theorem mapM_of_forall₂ {ε α β : Type u} {f : α → Except ε β} {l : List α} {l' : List β}
    (h : List.Forall₂ (fun a b ↦ f a = .ok b) l l') : l.mapM f = .ok l' := by
  induction h with
  | nil => rfl
  | cons hab _ ih =>
      rw [List.mapM_cons]
      exact bind_eq_ok.mpr ⟨_, hab, bind_eq_ok.mpr ⟨_, ih, rfl⟩⟩

/-- A monadic map whose steps succeed on some elements, with known values. -/
theorem mapM_eq_ok_iff {ε α β : Type u} {f : α → Except ε β} {p : α → Prop} {g : α → β}
    (h : ∀ a b, f a = .ok b ↔ p a ∧ b = g a) {l : List α} {l' : List β} :
    l.mapM f = .ok l' ↔ (∀ a ∈ l, p a) ∧ l' = l.map g := by
  induction l generalizing l' with
  | nil => simp [pure, Except.pure, eq_comm]
  | cons a l ih =>
      rw [List.mapM_cons, bind_eq_ok]
      constructor
      · rintro ⟨b, hb, hrest⟩
        obtain ⟨bs, hbs, hl'⟩ := bind_eq_ok.mp hrest
        cases pure_eq_ok.mp hl'
        obtain ⟨hpa, rfl⟩ := (h a b).mp hb
        obtain ⟨hpl, rfl⟩ := ih.mp hbs
        exact ⟨List.forall_mem_cons.mpr ⟨hpa, hpl⟩, rfl⟩
      · rintro ⟨hp, rfl⟩
        obtain ⟨hpa, hpl⟩ := List.forall_mem_cons.mp hp
        refine ⟨g a, (h a _).mpr ⟨hpa, rfl⟩, bind_eq_ok.mpr ⟨l.map g, ih.mpr ⟨hpl, rfl⟩, rfl⟩⟩

theorem forall₂_mem_right {α β : Type u} {R : α → β → Prop} {l : List α} {l' : List β}
    (h : List.Forall₂ R l l') {b : β} (hb : b ∈ l') : ∃ a ∈ l, R a b := by
  induction h with
  | nil => cases hb
  | cons hab _ ih =>
      rcases List.mem_cons.mp hb with rfl | hb
      · exact ⟨_, List.mem_cons_self, hab⟩
      · obtain ⟨a, ha, hR⟩ := ih hb
        exact ⟨a, List.mem_cons_of_mem _ ha, hR⟩

theorem forall₂_mem_left {α β : Type u} {R : α → β → Prop} {l : List α} {l' : List β}
    (h : List.Forall₂ R l l') {a : α} (ha : a ∈ l) : ∃ b ∈ l', R a b :=
  forall₂_mem_right h.flip ha

theorem forall₂_and {α β : Type u} {R S : α → β → Prop} {l : List α} {l' : List β}
    (h : List.Forall₂ R l l') (h' : List.Forall₂ S l l') :
    List.Forall₂ (fun a b ↦ R a b ∧ S a b) l l' := by
  induction h with
  | nil => exact .nil
  | cons hab _ ih =>
      cases h' with
      | cons hab' h' => exact .cons ⟨hab, hab'⟩ (ih h')

theorem forall₂_mem {α β : Type u} {R : α → β → Prop} {l : List α} {l' : List β}
    (h : List.Forall₂ R l l') : List.Forall₂ (fun a b ↦ a ∈ l ∧ b ∈ l' ∧ R a b) l l' := by
  induction h with
  | nil => exact .nil
  | cons hab _ ih =>
      refine .cons ⟨List.mem_cons_self, List.mem_cons_self, hab⟩ (ih.imp ?_)
      rintro a b ⟨ha, hb, hR⟩
      exact ⟨List.mem_cons_of_mem _ ha, List.mem_cons_of_mem _ hb, hR⟩

theorem map_eq_of_forall₂ {α β : Type u} {γ : Type v} {R : α → β → Prop} {key : α → γ}
    {key' : β → γ} {l : List α} {l' : List β} (h : List.Forall₂ R l l')
    (hR : ∀ a b, R a b → key' b = key a) : l'.map key' = l.map key := by
  induction h with
  | nil => rfl
  | cons hab _ ih => rw [List.map_cons, List.map_cons, hR _ _ hab, ih]

theorem map_some_of_forall₂ {α β : Type u} {g : α → Option β} {l : List α} {l' : List β}
    (h : List.Forall₂ (fun a b ↦ g a = some b) l l') : l'.map some = l.map g := by
  induction h with
  | nil => rfl
  | cons hab _ ih => rw [List.map_cons, List.map_cons, hab, ih]

theorem mapM_except_mem {ε α β : Type u} {f : α → Except ε β} {l : List α} {l' : List β}
    (h : l.mapM f = .ok l') {b : β} (hb : b ∈ l') : ∃ a ∈ l, f a = .ok b :=
  forall₂_mem_right (mapM_eq_ok h) hb

/-- A monadic map whose steps all return. -/
theorem mapM_option_returns {α β : Type u} {g : α → Option β} {R : α → β → Prop} {l : List α}
    (h : ∀ a ∈ l, ∃ b, g a = some b ∧ R a b) : ∃ l', l.mapM g = some l' ∧ List.Forall₂ R l l' := by
  induction l with
  | nil => exact ⟨[], List.mapM_nil, .nil⟩
  | cons a l ih =>
      obtain ⟨b, hb, hR⟩ := h a List.mem_cons_self
      obtain ⟨l', hl', hrest⟩ := ih fun c hc ↦ h c (List.mem_cons_of_mem _ hc)
      refine ⟨b :: l', ?_, .cons hR hrest⟩
      rw [List.mapM_cons, hb, hl']
      exact Eq.refl _

theorem mapM_option_eq_some {α β : Type u} {g : α → Option β} {l : List α} {l' : List β}
    (h : l.mapM g = some l') : List.Forall₂ (fun a b ↦ g a = some b) l l' := by
  induction l generalizing l' with
  | nil =>
      cases h
      exact .nil
  | cons a l ih =>
      rw [List.mapM_cons] at h
      obtain ⟨b, hb, h⟩ := Option.bind_eq_some_iff.mp h
      obtain ⟨bs, hbs, h⟩ := Option.bind_eq_some_iff.mp h
      cases h
      exact .cons hb (ih hbs)

theorem forall₂_trans {α β γ : Type u} {R : α → β → Prop} {S : β → γ → Prop} {T : α → γ → Prop}
    (hT : ∀ a b c, R a b → S b c → T a c) {l : List α} {l' : List β} {l'' : List γ}
    (h : List.Forall₂ R l l') (h' : List.Forall₂ S l' l'') : List.Forall₂ T l l'' := by
  induction h generalizing l'' with
  | nil =>
      cases h'
      exact .nil
  | cons hab _ ih =>
      cases h' with
      | cons hbc h' => exact .cons (hT _ _ _ hab hbc) (ih h')

/-- With distinct keys every element is found by its key. -/
theorem find?_of_mem {α : Type u} {β : Type v} [DecidableEq β] (key : α → β) {l : List α}
    (hnodup : (l.map key).Nodup) {a : α} (h : a ∈ l) : l.find? (key · = key a) = some a := by
  induction l with
  | nil => cases h
  | cons c l ih =>
      rw [List.map_cons, List.nodup_cons] at hnodup
      rw [List.find?_cons]
      rcases List.mem_cons.mp h with rfl | hmem
      · simp
      · have hne : key c ≠ key a := by
          intro heq
          exact hnodup.1 (heq ▸ List.mem_map_of_mem hmem)
        rw [decide_eq_false hne]
        exact ih hnodup.2 hmem

/-- An element of a list stands at the head of one of its tails. -/
theorem exists_suffix_of_mem {α : Type u} {l : List α} {a : α} (h : a ∈ l) :
    ∃ older, a :: older <:+ l := by
  obtain ⟨newer, older, rfl⟩ := List.append_of_mem h
  exact ⟨older, newer, rfl⟩

end CalcKernel.Lib
