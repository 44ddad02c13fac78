import CalcKernel.Backend.Wasm.BulkShape
import CalcKernel.Backend.Wasm.WordRuns

/-!
# Runs of an accepted loop

From the header on, an accepted loop stores the words of its array one after another, and
ends as that ends.
-/

namespace CalcKernel

open Lib

namespace KirFunction

variable {f : KirFunction} {layout : WasmStructLayout}

variable {block : KirBlock} {locals locals' : WasmLocals} {m m' : LinearMemory}

theorem step_next (h : f.Executes layout block.instructions locals m (.next ⟨locals', [], m'⟩)) :
    (f.wordMachine layout).step ⟨block, locals, m⟩ = f.leaveWords block.terminator locals' m' := by
  obtain ⟨code, hcode, hexec⟩ := h
  change f.stepWords layout _ = _
  rw [stepWords, hcode, Option.bind_some, hexec]

theorem step_ended {e : MemoryEnd}
    (h : f.Executes layout block.instructions locals m (.ended e)) :
    (f.wordMachine layout).step ⟨block, locals, m⟩ = .halt e := by
  obtain ⟨code, hcode, hexec⟩ := h
  change f.stepWords layout _ = _
  rw [stepWords, hcode, Option.bind_some, hexec]

/-- An edge hands the words of its arguments to the parameters. -/
theorem followWords_eq {locals : WasmLocals} {m : LinearMemory} {edge : KirEdge} {b : KirBlock}
    {words : List (BitVec 32)} (hb : f.block? edge.target = some b)
    (hargs : locals.Hold edge.args words) :
    f.followWords locals m edge =
      .next ⟨b, locals.setAll ((b.params.map (·.value)).zip (words.map .i32)), m⟩ := by
  rw [followWords, hb]
  dsimp only
  rw [hargs.map_eq]

end KirFunction

open KirFunction

/-- The constants that a loop uses. -/
abbrev WordConsts := List (ValueId × BitVec 32)

def WasmLocals.HoldConsts (locals : WasmLocals) (consts : WordConsts) : Prop :=
  ∀ p ∈ consts, locals (.value p.1) = .i32 p.2

/-- What is defined in one place of the loop is not defined in another one. -/
structure BulkApart (blocks : BulkBlocks) (consts : WordConsts) : Prop where
  headerNodup : (blocks.header.params.map (·.value)).Nodup
  bodyNodup : (blocks.body.params.map (·.value)).Nodup
  condition : blocks.condition ∉ blocks.header.params.map (·.value)
  constCondition : ∀ p ∈ consts, p.1 ≠ blocks.condition
  constHeader : ∀ p ∈ consts, p.1 ∉ blocks.header.params.map (·.value)
  constBody : ∀ p ∈ consts, p.1 ∉ blocks.body.params.map (·.value)
  constDefs : ∀ p ∈ consts, p.1 ∉ blocks.body.instructions.flatMap (·.defs)
  bodyDefs : ∀ v ∈ blocks.body.params.map (·.value),
    v ∉ blocks.body.instructions.flatMap (·.defs)

/-- The words that a loop stores, for the words that it carries. -/
abbrev LoopWord := List (BitVec 32) → LinearMemory → BitVec 32 → Option (BitVec 32)

/-- The body stores one word at the index and counts the index up. -/
def RunsBody (f : KirFunction) (layout : WasmStructLayout) (body : KirBlock) (consts : WordConsts)
    (indexSlot destinationSlot : Nat) (incremented : ValueId) (word : LoopWord) : Prop :=
  ∀ (locals : WasmLocals) (m : LinearMemory) (words : List (BitVec 32)) (i d : BitVec 32),
    locals.HoldConsts consts → locals.Hold (body.params.map (·.value)) words →
      words[indexSlot]? = some i → words[destinationSlot]? = some d →
        match (word words m i).bind (m.store32 (d + i * 4#32).toNat) with
        | none => f.Executes layout body.instructions locals m (.ended (.trapped m))
        | some m' => ∃ locals' : WasmLocals,
            f.Executes layout body.instructions locals m (.next ⟨locals', [], m'⟩) ∧
              locals' (.value incremented) = .i32 (i + 1#32) ∧
                ∀ v, v ∉ body.instructions.flatMap (·.defs) →
                  locals' (.value v) = locals (.value v)

section Loop

variable {f : KirFunction} {layout : WasmStructLayout} {c : CheckedWasmBulkMemory}
  {blocks : BulkBlocks} {index stop incremented : ValueId} {slots : BulkSlots} {body : BulkBody}
  {consts : WordConsts} {word : LoopWord} {locals : WasmLocals} {m : LinearMemory}

/-- The header compares the index with its bound. -/
theorem header_executes (haccepted : BulkAccepted f c blocks index stop slots body incremented)
    {words : List (BitVec 32)} {i s : BitVec 32}
    (hwords : locals.Hold (blocks.header.params.map (·.value)) words)
    (hi : words[slots.index]? = some i) (hs : words[slots.stop]? = some s) :
    f.Executes layout blocks.header.instructions locals m
      (.next ⟨Function.update locals (.value blocks.condition) (.i32 (wasmBool (i.ult s))), [],
        m⟩) := by
  have hcompare := haccepted.compare
  unfold bulkCompare at hcompare
  split at hcompare
  case h_2 => cases hcompare
  rename_i id result _ _ memory effect heq
  split at hcompare
  case isFalse => cases hcompare
  rename_i hresult
  cases hcompare
  rw [heq]
  have htarget : f.emitResult ⟨id, [result], .compare .lt index stop, memory, effect⟩ =
      some (.value blocks.condition) := by
    rw [← hresult.1]
    exact emitResult_eq rfl hresult.2 rfl
  exact .cons (emit_lt rfl htarget haccepted.slotsChecked.indexType)
    (fun code ↦ exec_lt (hwords.get haccepted.slotsChecked.indexParam hi)
      (hwords.get haccepted.slotsChecked.stopParam hs)) .nil

/-- Behind the bound the header goes to the exit. -/
theorem leaves_loop (haccepted : BulkAccepted f c blocks index stop slots body incremented)
    {words : List (BitVec 32)} {i s : BitVec 32}
    (hwords : locals.Hold (blocks.header.params.map (·.value)) words)
    (hi : words[slots.index]? = some i) (hs : words[slots.stop]? = some s)
    (hlt : i.ult s = false) :
    (f.wordMachine layout).Halts ⟨blocks.header, locals, m⟩ (.returned m) := by
  obtain ⟨thenEdge, elseEdge, hbranch, -, helse, -, helseArgs⟩ := haccepted.flow.branch
  obtain ⟨hexit, hreturns⟩ := haccepted.flow.exit
  have hheader : (f.wordMachine layout).step ⟨blocks.header, locals, m⟩ =
      f.followWords (Function.update locals (.value blocks.condition) (.i32 0#32)) m elseEdge := by
    rw [step_next (header_executes haccepted hwords hi hs), hbranch, leaveWords,
      Function.update_self, hlt]
    rfl
  have hargs : WasmLocals.Hold (Function.update locals (.value blocks.condition) (.i32 0#32))
      elseEdge.args [] := helseArgs ▸ .nil
  refine .head (hheader.trans (followWords_eq helse hargs)) (Machine.halts_of_step_halt ?_)
  have hexecutes : ∀ locals : WasmLocals,
      f.Executes layout blocks.exit.instructions locals m (.next ⟨locals, [], m⟩) :=
    fun locals ↦ hexit ▸ .nil
  refine (step_next (hexecutes _)).trans ?_
  cases hterminator : blocks.exit.terminator with
  | «return» value memory order =>
      cases value with
      | none => rfl
      | some v =>
          rw [hterminator] at hreturns
          cases hreturns
  | jump | branch =>
      rw [hterminator] at hreturns
      cases hreturns

/-- In front of the bound the header goes to the body. -/
theorem enters_body (haccepted : BulkAccepted f c blocks index stop slots body incremented)
    (hapart : BulkApart blocks consts) {words : List (BitVec 32)} {i s : BitVec 32}
    (hconsts : locals.HoldConsts consts)
    (hwords : locals.Hold (blocks.header.params.map (·.value)) words)
    (hi : words[slots.index]? = some i) (hs : words[slots.stop]? = some s)
    (hlt : i.ult s = true) :
    ∃ locals' : WasmLocals, (f.wordMachine layout).step ⟨blocks.header, locals, m⟩ =
        .next ⟨blocks.body, locals', m⟩ ∧
      locals'.HoldConsts consts ∧ locals'.Hold (blocks.body.params.map (·.value)) words := by
  obtain ⟨thenEdge, elseEdge, hbranch, hthen, -, hthenArgs, -⟩ := haccepted.flow.branch
  have hheader : (f.wordMachine layout).step ⟨blocks.header, locals, m⟩ =
      f.followWords (Function.update locals (.value blocks.condition) (.i32 1#32)) m thenEdge := by
    rw [step_next (header_executes haccepted hwords hi hs), hbranch, leaveWords,
      Function.update_self, hlt]
    rfl
  have hargs : WasmLocals.Hold (Function.update locals (.value blocks.condition) (.i32 1#32))
      thenEdge.args words := by
    rw [hthenArgs]
    refine hwords.congr fun v hv ↦ Function.update_of_ne (fun heq ↦ ?_) _ _
    exact hapart.condition (WasmLocal.value.inj heq ▸ hv)
  refine ⟨_, hheader.trans (followWords_eq hthen hargs), fun p hp ↦ ?_, ?_⟩
  · rw [WasmLocals.setAll_value_of_notMem (hapart.constBody p hp),
      Function.update_of_ne fun heq ↦ hapart.constCondition p hp (WasmLocal.value.inj heq)]
    exact hconsts p hp
  · refine WasmLocals.setAll_hold hapart.bodyNodup ?_
    rw [List.length_map, haccepted.flow.bodyParams, ← List.Forall₂.length_eq hwords,
      List.length_map]

/-- The back edge counts the index up. -/
theorem back_to_header (haccepted : BulkAccepted f c blocks index stop slots body incremented)
    (hapart : BulkApart blocks consts) {words : List (BitVec 32)} {locals' : WasmLocals}
    {m' : LinearMemory} {x : BitVec 32} (hconsts : locals.HoldConsts consts)
    (hwords : locals.Hold (blocks.body.params.map (·.value)) words)
    (hexec : f.Executes layout blocks.body.instructions locals m (.next ⟨locals', [], m'⟩))
    (hincremented : locals' (.value incremented) = .i32 x)
    (hsame : ∀ v, v ∉ blocks.body.instructions.flatMap (·.defs) →
      locals' (.value v) = locals (.value v)) :
    ∃ locals'' : WasmLocals, (f.wordMachine layout).step ⟨blocks.body, locals, m⟩ =
        .next ⟨blocks.header, locals'', m'⟩ ∧ locals''.HoldConsts consts ∧
      locals''.Hold (blocks.header.params.map (·.value)) (words.set slots.index x) := by
  have hstep : (f.wordMachine layout).step ⟨blocks.body, locals, m⟩ =
      f.leaveWords blocks.body.terminator locals' m' := step_next hexec
  have hargs : locals'.Hold blocks.backedge.args (words.set slots.index x) := by
    rw [haccepted.backedge]
    exact (hwords.congr fun v hv ↦ hsame v (hapart.bodyDefs v hv)).set hincremented slots.index
  rw [haccepted.flow.bodyJump, leaveWords] at hstep
  refine ⟨_, hstep.trans (followWords_eq haccepted.flow.back hargs), fun p hp ↦ ?_, ?_⟩
  · rw [WasmLocals.setAll_value_of_notMem (hapart.constHeader p hp),
      hsame p.1 (hapart.constDefs p hp)]
    exact hconsts p hp
  · refine WasmLocals.setAll_hold hapart.headerNodup ?_
    rw [List.length_set, ← List.Forall₂.length_eq hwords, List.length_map, List.length_map,
      haccepted.flow.bodyParams]

/-- The loop ends as storing its words ends. -/
theorem loop_halts (haccepted : BulkAccepted f c blocks index stop slots body incremented)
    (hapart : BulkApart blocks consts)
    (hbody : RunsBody f layout blocks.body consts slots.index body.destinationSlot incremented word)
    (hword : ∀ words x, word (words.set slots.index x) = word words) (n : Nat)
    {words : List (BitVec 32)} {i s d : BitVec 32}
    (hconsts : locals.HoldConsts consts)
    (hwords : locals.Hold (blocks.header.params.map (·.value)) words)
    (hi : words[slots.index]? = some i) (hs : words[slots.stop]? = some s)
    (hd : words[body.destinationSlot]? = some d) (hn : s.toNat - i.toNat = n) :
    (f.wordMachine layout).Halts ⟨blocks.header, locals, m⟩
      (LinearMemory.storeWords (word words) d n i m) := by
  induction n generalizing locals m words i with
  | zero =>
      have hlt : i.ult s = false := by
        rw [BitVec.ult, decide_eq_false_iff_not]
        omega
      exact leaves_loop haccepted hwords hi hs hlt
  | succ n ih =>
      have hlt : i.ult s = true := by
        rw [BitVec.ult, decide_eq_true_eq]
        omega
      obtain ⟨locals₁, hstep₁, hconsts₁, hwords₁⟩ :=
        enters_body (m := m) haccepted hapart hconsts hwords hi hs hlt
      have hrun := hbody locals₁ m words i d hconsts₁ hwords₁ hi hd
      rw [LinearMemory.storeWords]
      cases hstore : (word words m i).bind (m.store32 (d + i * 4#32).toNat) with
      | none =>
          rw [hstore] at hrun
          exact .head hstep₁ (Machine.halts_of_step_halt (step_ended hrun))
      | some m' =>
          rw [hstore] at hrun
          obtain ⟨locals₂, hexec, hincremented, hsame⟩ := hrun
          obtain ⟨locals₃, hstep₃, hconsts₃, hwords₃⟩ :=
            back_to_header haccepted hapart hconsts₁ hwords₁ hexec hincremented hsame
          have hnext : (i + 1#32).toNat = i.toNat + 1 := by
            refine LinearMemory.toNat_next ?_
            have := s.isLt
            omega
          have hset : (words.set slots.index (i + 1#32))[slots.index]? = some (i + 1#32) := by
            rw [List.getElem?_set_self (List.getElem?_eq_some_iff.mp hi).1]
          have hother : ∀ {k : Nat} {x : BitVec 32}, k ≠ slots.index → words[k]? = some x →
              (words.set slots.index (i + 1#32))[k]? = some x := fun hk hx ↦ by
            rw [List.getElem?_set_ne (Ne.symm hk), hx]
          have hrest := @ih locals₃ m' (words.set slots.index (i + 1#32)) (i + 1#32) hconsts₃
            hwords₃ hset (hother haccepted.slotsChecked.different.symm hs)
            (hother haccepted.operands.destinationSlot hd) (by rw [hnext]; omega)
          rw [hword] at hrest
          exact .head hstep₁ (.head hstep₃ hrest)

end Loop

end CalcKernel
