import Mathlib.Data.Nat.Cast.WithTop
import CalcKernel.Lib.SortedMap
import Mathlib.Data.Set.Basic
import Mathlib.Order.WithBot

/-!
# Effect summaries

The effect lattice that source and KIR call graphs share.  A summary stands for the set of
its effects; joins are unions, and a call maps the effects of the callee one by one.
-/

namespace CalcKernel

open Lib

inductive EffectTarget where
  | parameter (index : Nat)
  | all
deriving DecidableEq, Repr

namespace EffectTarget

/-- Parameters come in order, in front of `all`. -/
def rank : EffectTarget → WithTop Nat
  | parameter index => index
  | all => ⊤

theorem rank_injective : Function.Injective rank := by
  intro a b h
  cases a <;> cases b <;> simp_all [rank]

instance : LinearOrder EffectTarget := LinearOrder.lift' rank rank_injective

end EffectTarget

inductive MemoryEffect where
  | none | read | write | readWrite
deriving DecidableEq, Repr

namespace MemoryEffect

def join : MemoryEffect → MemoryEffect → MemoryEffect
  | .none, effect | effect, .none => effect
  | .read, .read => .read
  | .write, .write => .write
  | .readWrite, _ | _, .readWrite | .read, .write | .write, .read => .readWrite

def allows : MemoryEffect → MemoryEffect → Bool
  | _, .none => true
  | .read, .read => true
  | .write, .write => true
  | .readWrite, _ => true
  | _, _ => false

theorem allows_join (a b : MemoryEffect) {e : MemoryEffect} (h : e ≠ .readWrite) :
    (a.join b).allows e = (a.allows e || b.allows e) := by
  cases a <;> cases b <;> cases e <;> simp_all [join, allows]

end MemoryEffect

structure EffectAccess where
  target : EffectTarget
  effect : MemoryEffect
deriving DecidableEq, Repr

structure EffectSummary where
  memory : SortedMap EffectTarget MemoryEffect
  runtimeEffect : Bool
  mayFail : Bool
  unsafeCalls : Bool
  conservative : Bool
deriving DecidableEq

namespace EffectSummary

def empty : EffectSummary := ⟨.empty, false, false, false, false⟩

/-- What is recorded under a target. -/
def recorded (summary : EffectSummary) (target : EffectTarget) : MemoryEffect :=
  (summary.memory.find? target).getD .none

def addAccess (summary : EffectSummary) (access : EffectAccess) : EffectSummary :=
  let joined := (summary.recorded access.target).join access.effect
  if joined = .none then { summary with memory := summary.memory.erase access.target }
  else { summary with memory := summary.memory.insert access.target joined }

def fromAccess (access : EffectAccess) : EffectSummary := empty.addAccess access

def fullConservative : EffectSummary :=
  { fromAccess ⟨.all, .readWrite⟩ with
    runtimeEffect := true, mayFail := true, unsafeCalls := true, conservative := true }

def accesses (summary : EffectSummary) : List EffectAccess :=
  summary.memory.entries.map fun p ↦ ⟨p.1, p.2⟩

def join (summary other : EffectSummary) : EffectSummary :=
  let joined := other.accesses.foldl addAccess summary
  { joined with
    runtimeEffect := summary.runtimeEffect || other.runtimeEffect
    mayFail := summary.mayFail || other.mayFail
    unsafeCalls := summary.unsafeCalls || other.unsafeCalls
    conservative := summary.conservative || other.conservative }

def effect (summary : EffectSummary) (target : EffectTarget) : MemoryEffect :=
  (summary.recorded target).join (summary.recorded .all)

end EffectSummary

/-- A call, with the roots that the arguments stand for; `none` is private storage. -/
structure EffectCall where
  callee : String
  arguments : List (Option EffectTarget)
  isUnsafe : Bool
deriving DecidableEq, Repr

structure EffectFunction where
  name : String
  parameterCount : Nat
  direct : EffectSummary
  calls : List EffectCall
deriving DecidableEq

structure EffectGraph where
  functions : List EffectFunction

/-- The root of the caller that a root of the callee stands for. -/
def EffectCall.mapTarget (call : EffectCall) : EffectTarget → Option EffectTarget
  | .all => some .all
  | .parameter index =>
      match call.arguments[index]? with
      | some target => target
      | none => some .all

def mapCalleeSummary (summary : EffectSummary) (call : EffectCall) : EffectSummary :=
  let mapped : EffectSummary :=
    ⟨.empty, summary.runtimeEffect, summary.mayFail, summary.unsafeCalls || call.isUnsafe,
      summary.conservative⟩
  summary.accesses.foldl (fun mapped access ↦
    match call.mapTarget access.target with
    | some target => mapped.addAccess ⟨target, access.effect⟩
    | none => mapped) mapped

/-! ## Single effects -/

/-- A single effect of a function. -/
inductive Effect where
  | read (target : EffectTarget)
  | write (target : EffectTarget)
  | runtimeEffect
  | mayFail
  | unsafeCall
  | conservative
deriving DecidableEq, Repr

/-- The target and the access of an effect on memory. -/
def Effect.access? : Effect → Option EffectAccess
  | .read target => some ⟨target, .read⟩
  | .write target => some ⟨target, .write⟩
  | _ => none

def EffectSummary.flag (summary : EffectSummary) : Effect → Bool
  | .runtimeEffect => summary.runtimeEffect
  | .mayFail => summary.mayFail
  | .unsafeCall => summary.unsafeCalls
  | .conservative => summary.conservative
  | .read _ | .write _ => false

/-- The effects that a summary records. -/
def EffectSummary.Has (summary : EffectSummary) (e : Effect) : Prop :=
  match e.access? with
  | some access => (summary.recorded access.target).allows access.effect = true
  | none => summary.flag e = true

/-- The effects that a summary allows: what is recorded under `all` is allowed everywhere. -/
def EffectSummary.Covers (summary : EffectSummary) (e : Effect) : Prop :=
  match e.access? with
  | some access => (summary.effect access.target).allows access.effect = true
  | none => summary.flag e = true

/-- What an effect of the callee is for the caller. -/
def EffectCall.map? (call : EffectCall) : Effect → Option Effect
  | .read target => (call.mapTarget target).map .read
  | .write target => (call.mapTarget target).map .write
  | e => some e

/-- The access for the caller of an access of the callee. -/
def EffectCall.mapAccess (call : EffectCall) (access : EffectAccess) : Option EffectAccess :=
  (call.mapTarget access.target).map fun target ↦ ⟨target, access.effect⟩

namespace EffectSummary

variable {summary other : EffectSummary} {e : Effect}

theorem recorded_addAccess (summary : EffectSummary) (access : EffectAccess) (t : EffectTarget) :
    (summary.addAccess access).recorded t =
      if t = access.target then (summary.recorded t).join access.effect
      else summary.recorded t := by
  unfold addAccess
  dsimp only
  split
  · rename_i hjoin
    unfold recorded at hjoin ⊢
    dsimp only
    rw [SortedMap.find?_erase]
    by_cases ht : t = access.target
    · rw [if_pos ht, if_pos ht, ht, hjoin]
      rfl
    · rw [if_neg ht, if_neg ht]
  · unfold recorded
    dsimp only
    rw [SortedMap.find?_insert]
    by_cases ht : t = access.target
    · rw [if_pos ht, if_pos ht, ht]
      rfl
    · rw [if_neg ht, if_neg ht]

theorem flag_addAccess (summary : EffectSummary) (access : EffectAccess) (e : Effect) :
    (summary.addAccess access).flag e = summary.flag e := by
  unfold addAccess
  dsimp only
  split <;> cases e <;> rfl

theorem effect_ne_readWrite {access : EffectAccess} (h : e.access? = some access) :
    access.effect ≠ .readWrite := by
  cases e <;> cases h <;> exact MemoryEffect.noConfusion

/-- Adding an access adds the effects it allows under its target. -/
theorem has_addAccess (summary : EffectSummary) (access : EffectAccess) :
    (summary.addAccess access).Has e ↔ summary.Has e ∨ ∃ a, e.access? = some a ∧
      a.target = access.target ∧ access.effect.allows a.effect = true := by
  unfold Has
  split
  · rename_i a ha
    rw [recorded_addAccess]
    by_cases ht : a.target = access.target
    · rw [if_pos ht, MemoryEffect.allows_join _ _ (effect_ne_readWrite ha), Bool.or_eq_true]
      simp [ha, ht]
    · rw [if_neg ht]
      simp [ha, ht]
  · rename_i ha
    rw [flag_addAccess]
    simp [ha]

/-- Adding accesses one after another, those that a selection lets through. -/
theorem has_foldl_addAccess (select : EffectAccess → Option EffectAccess) (l : List EffectAccess)
    (summary : EffectSummary) :
    (l.foldl (fun s access ↦ match select access with
      | some access => s.addAccess access
      | none => s) summary).Has e ↔ summary.Has e ∨ ∃ access ∈ l, ∃ b, select access = some b ∧
        ∃ a, e.access? = some a ∧ a.target = b.target ∧ b.effect.allows a.effect = true := by
  induction l generalizing summary with
  | nil => simp
  | cons access l ih =>
      rw [List.foldl_cons, ih]
      cases hselect : select access with
      | none => simp [hselect]
      | some b =>
          dsimp only
          rw [has_addAccess]
          simp [hselect, or_assoc]

theorem mem_accesses {access : EffectAccess} :
    access ∈ summary.accesses ↔ summary.memory.find? access.target = some access.effect := by
  rw [← SortedMap.mem_entries]
  unfold accesses
  rw [List.mem_map]
  constructor
  · rintro ⟨p, hp, rfl⟩
    exact hp
  · exact fun h ↦ ⟨_, h, rfl⟩

/-- An effect on memory is recorded by an access. -/
theorem has_access {a : EffectAccess} (h : e.access? = some a) :
    summary.Has e ↔ ∃ access ∈ summary.accesses, access.target = a.target ∧
      access.effect.allows a.effect = true := by
  have hnone : MemoryEffect.none.allows a.effect = false := by
    cases e <;> cases h <;> rfl
  unfold Has
  rw [h]
  dsimp only
  unfold recorded
  constructor
  · intro hallows
    cases hfind : summary.memory.find? a.target with
    | none =>
        rw [hfind, Option.getD_none, hnone] at hallows
        cases hallows
    | some effect =>
        rw [hfind, Option.getD_some] at hallows
        exact ⟨⟨a.target, effect⟩, mem_accesses.mpr hfind, rfl, hallows⟩
  · rintro ⟨access, hmem, htarget, hallows⟩
    rw [← htarget, mem_accesses.mp hmem]
    exact hallows

theorem flag_foldl (select : EffectAccess → Option EffectAccess) (l : List EffectAccess)
    (summary : EffectSummary) :
    (l.foldl (fun s access ↦ match select access with
      | some access => s.addAccess access
      | none => s) summary).flag e = summary.flag e := by
  induction l generalizing summary with
  | nil => rfl
  | cons access l ih =>
      rw [List.foldl_cons, ih]
      cases select access with
      | none => rfl
      | some b => exact flag_addAccess summary b e

@[simp] theorem has_empty : ¬ empty.Has e := by
  unfold Has
  split
  · rename_i a ha
    cases e <;> cases ha <;> exact Bool.false_ne_true
  · cases e <;> simp [flag, empty]

/-- A join has the effects of both sides. -/
theorem has_join (summary other : EffectSummary) :
    (summary.join other).Has e ↔ summary.Has e ∨ other.Has e := by
  cases haccess : e.access? with
  | some a =>
      have hfold := has_foldl_addAccess (e := e) some other.accesses summary
      have hsame : (summary.join other).Has e ↔
          (other.accesses.foldl addAccess summary).Has e := by
        unfold Has
        rw [haccess]
        exact Iff.rfl
      rw [hsame, @has_access other _ _ haccess]
      refine hfold.trans (or_congr_right ?_)
      rw [haccess]
      simp only [Option.some.injEq, exists_eq_left', eq_comm]
  | none =>
      unfold Has
      rw [haccess]
      cases e <;> simp [flag, join]

theorem mapCalleeSummary_eq (summary : EffectSummary) (call : EffectCall) :
    mapCalleeSummary summary call = summary.accesses.foldl (fun s access ↦
      match call.mapAccess access with
      | some access => s.addAccess access
      | none => s)
      ⟨.empty, summary.runtimeEffect, summary.mayFail, summary.unsafeCalls || call.isUnsafe,
        summary.conservative⟩ := by
  unfold mapCalleeSummary EffectCall.mapAccess
  dsimp only
  congr 1
  funext s access
  cases call.mapTarget access.target <;> rfl

/-- The effects of the callee on memory, mapped to the caller. -/
theorem has_mapCalleeSummary_access (summary : EffectSummary) (call : EffectCall)
    {a : EffectAccess} (h : e.access? = some a) :
    (mapCalleeSummary summary call).Has e ↔ ∃ access ∈ summary.accesses,
      call.mapTarget access.target = some a.target ∧ access.effect.allows a.effect = true := by
  rw [mapCalleeSummary_eq, has_foldl_addAccess, h]
  have hinit : ¬ Has ⟨.empty, summary.runtimeEffect, summary.mayFail,
      summary.unsafeCalls || call.isUnsafe, summary.conservative⟩ e := by
    unfold Has
    rw [h]
    cases e <;> cases h <;> exact Bool.false_ne_true
  rw [or_iff_right hinit]
  refine exists_congr fun access ↦ and_congr_right fun _ ↦ ?_
  simp only [EffectCall.mapAccess, Option.map_eq_some_iff, Option.some.injEq, exists_eq_left']
  constructor
  · rintro ⟨b, ⟨t, ht, rfl⟩, htarget, hallows⟩
    exact ⟨htarget ▸ ht, hallows⟩
  · rintro ⟨ht, hallows⟩
    exact ⟨_, ⟨a.target, ht, rfl⟩, rfl, hallows⟩

/-- A callee has for the caller what its effects are mapped to, and the effect of an unsafe call. -/
theorem has_mapCalleeSummary (summary : EffectSummary) (call : EffectCall) :
    (mapCalleeSummary summary call).Has e ↔
      (∃ d, summary.Has d ∧ call.map? d = some e) ∨ call.isUnsafe = true ∧ e = .unsafeCall := by
  cases haccess : e.access? with
  | some a =>
      rw [has_mapCalleeSummary_access summary call haccess, or_iff_left]
      · constructor
        · rintro ⟨access, hmem, htarget, hallows⟩
          cases e <;> cases haccess
          · exact ⟨.read access.target,
              (has_access (a := ⟨access.target, .read⟩) rfl).mpr ⟨access, hmem, rfl, hallows⟩,
              by rw [EffectCall.map?, htarget]; rfl⟩
          · exact ⟨.write access.target,
              (has_access (a := ⟨access.target, .write⟩) rfl).mpr ⟨access, hmem, rfl, hallows⟩,
              by rw [EffectCall.map?, htarget]; rfl⟩
        · rintro ⟨d, hd, hmap⟩
          cases d with
          | read t | write t =>
              obtain ⟨t', ht', rfl⟩ := Option.map_eq_some_iff.mp hmap
              cases haccess
              obtain ⟨access, hmem, htarget, hallows⟩ := (has_access rfl).mp hd
              exact ⟨access, hmem, htarget ▸ ht', hallows⟩
          | runtimeEffect | mayFail | unsafeCall | conservative =>
              cases hmap
              cases haccess
      · rintro ⟨-, rfl⟩
        cases haccess
  | none =>
      have hflag : (mapCalleeSummary summary call).flag e =
          flag ⟨.empty, summary.runtimeEffect, summary.mayFail,
            summary.unsafeCalls || call.isUnsafe, summary.conservative⟩ e := by
        rw [mapCalleeSummary_eq, flag_foldl]
      have hmap : ∀ d, call.map? d = some e ↔ d = e := by
        intro d
        cases d with
        | read t | write t =>
            constructor
            · intro h
              obtain ⟨t', -, rfl⟩ := Option.map_eq_some_iff.mp h
              cases haccess
            · rintro rfl
              cases haccess
        | runtimeEffect | mayFail | unsafeCall | conservative => exact Option.some_inj
      simp only [hmap, exists_eq_right]
      unfold Has
      rw [haccess]
      dsimp only
      rw [hflag]
      cases e with
      | read | write => cases haccess
      | runtimeEffect | mayFail | conservative => simp [flag]
      | unsafeCall => simp [flag]

end EffectSummary

end CalcKernel
