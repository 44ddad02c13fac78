import CalcKernel.Lib.CLayout

/-!
# Argument passing of the System V ABI for x86-64

An argument of at most sixteen bytes is classified eightbyte by eightbyte and is passed
in registers when all its eightbytes find one; otherwise, and when it is larger, it is
passed on the stack.  What comes of passing the eightbytes of an argument one by one is
compared with that.
-/

namespace CalcKernel.Lib

/-- Where an eightbyte of an argument is passed. -/
inductive Place where
  | integer (index : Nat)
  | sse (index : Nat)
  | stack (offset : Nat)
deriving DecidableEq, Repr

/-- An argument, as the ABI classifies it. -/
inductive Passing where
  | registers (classes : List RegClass)
  | memory (size : Nat)
deriving DecidableEq, Repr

/-- The eightbytes that a size covers. -/
def eightbytes (size : Nat) : Nat := (size + 7) / 8

/-- The class of an eightbyte: integer as soon as one of its scalars is, none without scalars. -/
def eightbyteClass (leaves : List (Nat × RegClass)) (k : Nat) : Option RegClass :=
  if leaves.any (fun leaf ↦ leaf.1 / 8 = k ∧ leaf.2 = .integer) then some .integer
  else if leaves.any (fun leaf ↦ leaf.1 / 8 = k) then some .sse
  else none

/-- The class of an eightbyte of which two parts are classified. -/
def joinClass : Option RegClass → Option RegClass → Option RegClass
  | some .integer, _ | _, some .integer => some .integer
  | some .sse, _ | _, some .sse => some .sse
  | none, none => none

theorem eightbyteClass_append (leaves leaves' : List (Nat × RegClass)) (k : Nat) :
    eightbyteClass (leaves ++ leaves') k =
      joinClass (eightbyteClass leaves k) (eightbyteClass leaves' k) := by
  simp only [eightbyteClass, List.any_append]
  cases leaves.any fun leaf ↦ leaf.1 / 8 = k ∧ leaf.2 = .integer <;>
    cases leaves'.any fun leaf ↦ leaf.1 / 8 = k ∧ leaf.2 = .integer <;>
    cases leaves.any fun leaf ↦ leaf.1 / 8 = k <;>
    cases leaves'.any fun leaf ↦ leaf.1 / 8 = k <;> exact Eq.refl _

theorem joinClass_assoc (a b c : Option RegClass) :
    joinClass (joinClass a b) c = joinClass a (joinClass b c) := by
  rcases a with _ | _ | _ <;> rcases b with _ | _ | _ <;> rcases c with _ | _ | _ <;> exact Eq.refl _

theorem joinClass_none (a : Option RegClass) : joinClass a none = a := by
  rcases a with _ | _ | _ <;> exact Eq.refl _

theorem none_joinClass (a : Option RegClass) : joinClass none a = a := by
  rcases a with _ | _ | _ <;> exact Eq.refl _

theorem eightbyteClass_isSome {leaves : List (Nat × RegClass)} {k : Nat}
    (h : ∃ leaf ∈ leaves, leaf.1 / 8 = k) : (eightbyteClass leaves k).isSome := by
  obtain ⟨leaf, hleaf, hk⟩ := h
  unfold eightbyteClass
  split
  · exact Eq.refl _
  · rw [if_pos (List.any_eq_true.mpr ⟨leaf, hleaf, decide_eq_true hk⟩)]
    exact Eq.refl _

def CShape.passing : CShape → Passing
  | .scalar cls _ => .registers [cls]
  | .struct fields =>
      let t := CShape.struct fields
      if 16 < t.size then .memory t.size
      else .registers ((List.range (eightbytes t.size)).filterMap (eightbyteClass (t.leaves 0)))

/-- The integer and the floating registers taken so far, and the bytes of the stack. -/
structure Taken where
  integer : Nat
  sse : Nat
  stack : Nat
deriving DecidableEq, Repr

namespace Taken

def start : Taken := ⟨0, 0, 0⟩

/-- Enough of the six integer and eight floating registers are left. -/
def Fits (s : Taken) (classes : List RegClass) : Prop :=
  s.integer + classes.count .integer ≤ 6 ∧ s.sse + classes.count .sse ≤ 8

instance (s : Taken) (classes : List RegClass) : Decidable (s.Fits classes) :=
  inferInstanceAs (Decidable (_ ∧ _))

def next (s : Taken) : RegClass → Place
  | .integer => .integer s.integer
  | .sse => .sse s.sse

def take (s : Taken) : RegClass → Taken
  | .integer => { s with integer := s.integer + 1 }
  | .sse => { s with sse := s.sse + 1 }

def inRegisters (s : Taken) : List RegClass → List Place × Taken
  | [] => ([], s)
  | c :: classes =>
      let rest := (s.take c).inRegisters classes
      (s.next c :: rest.1, rest.2)

def onStack (s : Taken) (n : Nat) : List Place × Taken :=
  ((List.range n).map fun k ↦ .stack (s.stack + 8 * k), { s with stack := s.stack + 8 * n })

def pass (s : Taken) : Passing → List Place × Taken
  | .registers classes => if s.Fits classes then s.inRegisters classes else s.onStack classes.length
  | .memory size => s.onStack (eightbytes size)

/-- One argument after the other. -/
def passList (s : Taken) : List Passing → List Place × Taken
  | [] => ([], s)
  | p :: ps =>
      let rest := (s.pass p).2.passList ps
      ((s.pass p).1 ++ rest.1, rest.2)

def passGroups (s : Taken) : List (List Passing) → List (List Place)
  | [] => []
  | group :: groups => (s.passList group).1 :: (s.passList group).2.passGroups groups

/-- The places of each argument apart. -/
def passEach (s : Taken) : List Passing → List (List Place)
  | [] => []
  | p :: ps => (s.pass p).1 :: (s.pass p).2.passEach ps

def passGroupsEach (s : Taken) : List (List Passing) → List (List (List Place))
  | [] => []
  | group :: groups => s.passEach group :: (s.passList group).2.passGroupsEach groups

/-- There are registers for some eightbytes of the argument, but not for all. -/
def Splits (s : Taken) : Passing → Prop
  | .registers classes => ¬ s.Fits classes ∧ ∃ c ∈ classes, s.Fits [c]
  | .memory _ => False

instance (s : Taken) (p : Passing) : Decidable (s.Splits p) :=
  match p with
  | .registers classes => inferInstanceAs (Decidable (¬ s.Fits classes ∧ ∃ c ∈ classes, s.Fits [c]))
  | .memory _ => inferInstanceAs (Decidable False)

/-- No argument arrives when there are registers for a part of it only. -/
def NoSplit (s : Taken) : List Passing → Prop
  | [] => True
  | p :: ps => ¬ s.Splits p ∧ (s.pass p).2.NoSplit ps

instance decidableNoSplit (s : Taken) : (ps : List Passing) → Decidable (s.NoSplit ps)
  | [] => inferInstanceAs (Decidable True)
  | p :: ps =>
      have := decidableNoSplit (s.pass p).2 ps
      inferInstanceAs (Decidable (¬ s.Splits p ∧ (s.pass p).2.NoSplit ps))

end Taken

/-- Each eightbyte as an argument of its own. -/
def Passing.expand : Passing → List Passing
  | .registers classes => classes.map fun c ↦ .registers [c]
  | .memory size => [.memory size]

namespace Taken

variable {s : Taken} {c : RegClass} {classes : List RegClass} {p : Passing} {ps qs : List Passing}

theorem fits_cons : s.Fits (c :: classes) ↔ s.Fits [c] ∧ (s.take c).Fits classes := by
  cases c <;> simp only [Fits, take, List.count_cons, List.count_nil] <;> simp <;> omega

theorem passList_nil : s.passList [] = ([], s) := Eq.refl _

theorem passList_cons : s.passList (p :: ps) =
    ((s.pass p).1 ++ ((s.pass p).2.passList ps).1, ((s.pass p).2.passList ps).2) := Eq.refl _

theorem passList_append : s.passList (ps ++ qs) =
    ((s.passList ps).1 ++ ((s.passList ps).2.passList qs).1, ((s.passList ps).2.passList qs).2) := by
  induction ps generalizing s with
  | nil => simp [passList]
  | cons p ps ih => simp [passList_cons, ih]

theorem length_passEach (s : Taken) (ps : List Passing) : (s.passEach ps).length = ps.length := by
  induction ps generalizing s with
  | nil => exact Eq.refl _
  | cons p ps ih => rw [passEach, List.length_cons, List.length_cons, ih]

theorem passEach_append : s.passEach (ps ++ qs) = s.passEach ps ++ (s.passList ps).2.passEach qs := by
  induction ps generalizing s with
  | nil => simp [passEach, passList]
  | cons p ps ih => simp [passEach, passList_cons, ih]

theorem flatten_passEach (s : Taken) (ps : List Passing) :
    (s.passEach ps).flatten = (s.passList ps).1 := by
  induction ps generalizing s with
  | nil => exact Eq.refl _
  | cons p ps ih => rw [passEach, List.flatten_cons, ih, passList_cons]

theorem passEach_flatten (s : Taken) (groups : List (List Passing)) :
    s.passEach groups.flatten = (s.passGroupsEach groups).flatten := by
  induction groups generalizing s with
  | nil => exact Eq.refl _
  | cons group groups ih => rw [List.flatten_cons, passEach_append, passGroupsEach, ih, List.flatten_cons]

theorem map_flatten_passGroupsEach (s : Taken) (groups : List (List Passing)) :
    (s.passGroupsEach groups).map List.flatten = s.passGroups groups := by
  induction groups generalizing s with
  | nil => exact Eq.refl _
  | cons group groups ih => rw [passGroupsEach, List.map_cons, ih, flatten_passEach, passGroups]

theorem passGroupsEach_append (s : Taken) (groups groups' : List (List Passing)) :
    s.passGroupsEach (groups ++ groups') =
      s.passGroupsEach groups ++ (s.passList groups.flatten).2.passGroupsEach groups' := by
  induction groups generalizing s with
  | nil => simp [passGroupsEach, passList]
  | cons group groups ih => simp [passGroupsEach, ih, passList_append]

theorem forall₂_passGroupsEach (s : Taken) (groups : List (List Passing)) :
    List.Forall₂ (fun group places ↦ places.length = group.length) groups
      (s.passGroupsEach groups) := by
  induction groups generalizing s with
  | nil => exact .nil
  | cons group groups ih => exact .cons (s.length_passEach group) (ih _)

theorem noSplit_append : s.NoSplit (ps ++ qs) ↔ s.NoSplit ps ∧ (s.passList ps).2.NoSplit qs := by
  induction ps generalizing s with
  | nil => simp [NoSplit, passList]
  | cons p ps ih => simp [NoSplit, passList_cons, ih, and_assoc]

theorem length_inRegisters (s : Taken) (classes : List RegClass) :
    (s.inRegisters classes).1.length = classes.length := by
  induction classes generalizing s with
  | nil => exact Eq.refl _
  | cons c classes ih => simp [inRegisters, ih]

theorem length_onStack (s : Taken) (n : Nat) : (s.onStack n).1.length = n := by
  simp [onStack]

theorem length_pass_registers : (s.pass (.registers classes)).1.length = classes.length := by
  unfold pass
  dsimp only
  split
  · exact s.length_inRegisters classes
  · exact s.length_onStack _

theorem pass_single_of_fits (h : s.Fits [c]) : s.pass (.registers [c]) = ([s.next c], s.take c) := by
  rw [pass, if_pos h, inRegisters, inRegisters]

theorem pass_single_of_not_fits (h : ¬ s.Fits [c]) :
    s.pass (.registers [c]) = ([.stack s.stack], { s with stack := s.stack + 8 }) := by
  rw [pass, if_neg h, onStack]
  simp

/-- While there are registers for all, each finds its own. -/
theorem passList_expand_of_fits (h : s.Fits classes) :
    s.passList (Passing.registers classes).expand = s.inRegisters classes := by
  rw [Passing.expand]
  induction classes generalizing s with
  | nil => exact Eq.refl _
  | cons c classes ih =>
      obtain ⟨hc, hrest⟩ := fits_cons.mp h
      rw [List.map_cons, passList_cons, pass_single_of_fits hc, ih hrest, inRegisters]
      simp

theorem onStack_succ (s : Taken) (n : Nat) : s.onStack (n + 1) =
    (.stack s.stack :: (({ s with stack := s.stack + 8 } : Taken).onStack n).1,
      (({ s with stack := s.stack + 8 } : Taken).onStack n).2) := by
  simp only [onStack, List.range_succ_eq_map, List.map_cons, List.map_map, Nat.mul_zero,
    Nat.add_zero]
  rw [Prod.mk.injEq, List.cons.injEq, mk.injEq]
  refine ⟨⟨Eq.refl _, List.map_congr_left fun k _ ↦ ?_⟩, Eq.refl _, Eq.refl _, by omega⟩
  rw [Function.comp_apply, Place.stack.injEq]
  omega

/-- Without a register for any they follow each other on the stack, as the whole does. -/
theorem passList_expand_of_none (h : ∀ c ∈ classes, ¬ s.Fits [c]) :
    s.passList (Passing.registers classes).expand = s.onStack classes.length := by
  rw [Passing.expand]
  induction classes generalizing s with
  | nil => simp [passList, onStack]
  | cons c classes ih =>
      have hrest : ∀ d ∈ classes, ¬ ({ s with stack := s.stack + 8 } : Taken).Fits [d] :=
        fun d hd ↦ h d (List.mem_cons_of_mem _ hd)
      rw [List.map_cons, passList_cons, pass_single_of_not_fits (h c List.mem_cons_self), ih hrest,
        List.length_cons, onStack_succ]
      simp

theorem passList_expand_of_not_splits (h : ¬ s.Splits p) : s.passList p.expand = s.pass p := by
  cases p with
  | memory size => simp [Passing.expand, passList]
  | registers classes =>
      rw [pass]
      split
      · exact passList_expand_of_fits ‹_›
      · rename_i hfits
        exact passList_expand_of_none fun c hc hfit ↦ h ⟨hfits, c, hc, hfit⟩

/-- One of the eightbytes finds a register when there is one for its class at the start. -/
theorem exists_register (h : ∃ c ∈ classes, s.Fits [c]) :
    ∃ place ∈ (s.passList (Passing.registers classes).expand).1, ∀ offset, place ≠ .stack offset := by
  rw [Passing.expand]
  induction classes generalizing s with
  | nil =>
      obtain ⟨c, hc, _⟩ := h
      cases hc
  | cons d classes ih =>
      rw [List.map_cons, passList_cons]
      by_cases hd : s.Fits [d]
      · rw [pass_single_of_fits hd]
        exact ⟨s.next d, List.mem_append_left _ (List.mem_singleton_self _), by
          cases d <;> exact fun _ ↦ Place.noConfusion⟩
      · rw [pass_single_of_not_fits hd]
        obtain ⟨c, hc, hfit⟩ := h
        have hrest : ∃ c ∈ classes, ({ s with stack := s.stack + 8 } : Taken).Fits [c] := by
          rcases List.mem_cons.mp hc with rfl | hc
          · exact absurd hfit hd
          · exact ⟨c, hc, hfit⟩
        obtain ⟨place, hplace, hregister⟩ := ih hrest
        exact ⟨place, List.mem_append_right _ hplace, hregister⟩

theorem passList_expand_of_splits (h : s.Splits p) :
    (s.passList p.expand).1 ≠ (s.pass p).1 := by
  cases p with
  | memory size => exact h.elim
  | registers classes =>
      obtain ⟨hfits, hone⟩ := h
      obtain ⟨place, hplace, hregister⟩ := exists_register hone
      intro heq
      rw [heq, pass, if_neg hfits, onStack] at hplace
      obtain ⟨k, _, hk⟩ := List.mem_map.mp hplace
      exact hregister _ hk.symm

theorem length_passList_expand (s : Taken) (p : Passing) :
    (s.passList p.expand).1.length = (s.pass p).1.length := by
  cases p with
  | memory size => simp [Passing.expand, passList]
  | registers classes =>
      rw [length_pass_registers, Passing.expand]
      induction classes generalizing s with
      | nil => exact Eq.refl _
      | cons c classes ih =>
          rw [List.map_cons, passList_cons, List.length_append, ih, length_pass_registers,
            List.length_singleton, List.length_cons, Nat.add_comm]

theorem passList_expand_of_noSplit (h : s.NoSplit ps) :
    s.passList (ps.flatMap Passing.expand) = s.passList ps := by
  induction ps generalizing s with
  | nil => exact Eq.refl _
  | cons p ps ih =>
      rw [List.flatMap_cons, passList_append, passList_cons, passList_expand_of_not_splits h.1,
        ih h.2]

theorem noSplit_of_passList_expand
    (h : (s.passList (ps.flatMap Passing.expand)).1 = (s.passList ps).1) : s.NoSplit ps := by
  induction ps generalizing s with
  | nil => exact trivial
  | cons p ps ih =>
      rw [List.flatMap_cons, passList_append, passList_cons] at h
      obtain ⟨hhead, htail⟩ := List.append_inj h (s.length_passList_expand p)
      have hsplit : ¬ s.Splits p := fun hsplit ↦ passList_expand_of_splits hsplit hhead
      rw [passList_expand_of_not_splits hsplit] at htail
      exact ⟨hsplit, ih htail⟩

/-- Passing every eightbyte on its own puts each where the ABI puts it if and only if no argument
is split. -/
theorem passGroups_expand_iff {groups : List (List Passing)} :
    s.passGroups (groups.map (·.flatMap Passing.expand)) = s.passGroups groups ↔
      s.NoSplit groups.flatten := by
  induction groups generalizing s with
  | nil => simp [passGroups, NoSplit]
  | cons group groups ih =>
      rw [List.map_cons, passGroups, passGroups, List.flatten_cons, noSplit_append, List.cons.injEq]
      constructor
      · rintro ⟨hhead, htail⟩
        have hgroup := noSplit_of_passList_expand hhead
        rw [passList_expand_of_noSplit hgroup] at htail
        exact ⟨hgroup, ih.mp htail⟩
      · rintro ⟨hgroup, hgroups⟩
        rw [passList_expand_of_noSplit hgroup]
        exact ⟨Eq.refl _, ih.mpr hgroups⟩

end Taken

end CalcKernel.Lib
