import CalcKernel.Backend.Wasm.Bulk
import CalcKernel.Kir.Definitions

/-!
# What an accepted candidate looks like

The checks on a candidate, read back: the four blocks, the slots of the parameters that
the loop carries, and the instructions of its body in one of few orders.
-/

namespace CalcKernel

open Lib

variable {f : KirFunction} {blocks : BulkBlocks}

theorem single?_eq_some {α : Type} {l : List α} {a : α} (h : single? l = some a) : l = [a] := by
  match l, h with
  | [b], h => rw [Option.some.inj h]

namespace KirInstructionKind

variable {kind : KirInstructionKind}

theorem loadPlace?_eq_some {place : KirPlace} (h : kind.loadPlace? = some place) :
    kind = .load place := by
  unfold loadPlace? at h
  split at h
  · rw [Option.some.inj h]
  · cases h

theorem stored?_eq_some {place : KirPlace} {v : ValueId} (h : kind.stored? = some (place, v)) :
    kind = .store place v := by
  unfold stored? at h
  split at h
  · cases h
    rfl
  · cases h

theorem modularAdd?_eq_some {l r : ValueId} (h : kind.modularAdd? = some (l, r)) :
    kind = .binary .add l r .modular := by
  unfold modularAdd? at h
  split at h
  · cases h
    rfl
  · cases h

theorem constIntText?_eq_some {text : String} (h : kind.constIntText? = some text) :
    kind = .constInt text := by
  unfold constIntText? at h
  split at h
  · rw [Option.some.inj h]
  · cases h

end KirInstructionKind

theorem KirTerminator.jumpEdge?_eq_some {terminator : KirTerminator} {edge : KirEdge}
    (h : terminator.jumpEdge? = some edge) : terminator = .jump edge := by
  unfold jumpEdge? at h
  split at h
  · rw [Option.some.inj h]
  · cases h

theorem KirTerminator.branchEdges?_eq_some {terminator : KirTerminator} {condition : ValueId}
    {thenEdge elseEdge : KirEdge}
    (h : terminator.branchEdges? = some (condition, thenEdge, elseEdge)) :
    terminator = .branch condition thenEdge elseEdge := by
  unfold branchEdges? at h
  split at h
  · cases h
    rfl
  · cases h

/-- The blocks and edges of one loop in front of a return. -/
structure BulkFlow (f : KirFunction) (blocks : BulkBlocks) : Prop where
  entry : f.blocks.head? = some blocks.entry
  entryJump : blocks.entry.terminator = .jump blocks.entryEdge
  header : f.block? blocks.entryEdge.target = some blocks.header
  branch : ∃ thenEdge elseEdge,
    blocks.header.terminator = .branch blocks.condition thenEdge elseEdge ∧
      f.block? thenEdge.target = some blocks.body ∧ f.block? elseEdge.target = some blocks.exit ∧
        thenEdge.args = blocks.header.params.map (·.value) ∧ elseEdge.args = []
  bodyJump : blocks.body.terminator = .jump blocks.backedge
  back : f.block? blocks.backedge.target = some blocks.header
  exit : blocks.exit.instructions = [] ∧ blocks.exit.terminator.returnsNothing = true
  entryArgs : blocks.entryEdge.args.length = blocks.header.params.length
  bodyParams : blocks.body.params.length = blocks.header.params.length

theorem bulkBlocks_eq_some (h : bulkBlocks f = some blocks) : BulkFlow f blocks := by
  simp only [bulkBlocks, bind, Option.bind_eq_some_iff, Option.guard_eq_some', pure,
    Option.some.injEq, Prod.exists] at h
  obtain ⟨-, -, entry, hentry, -, -, entryEdge, hentryJump, header, hheader, condition, thenEdge,
    elseEdge, hbranch, body, hbody, exit, hexit, backedge, hback, -,
    ⟨-, -, -, htarget, -, hexitCode, hreturns, hentryArgs, -, helse, -, hbodyParams, hthen⟩,
    rfl⟩ := h
  refine ⟨hentry, KirTerminator.jumpEdge?_eq_some hentryJump, hheader,
    ⟨thenEdge, elseEdge, KirTerminator.branchEdges?_eq_some hbranch, hbody, hexit, hthen, helse⟩,
    KirTerminator.jumpEdge?_eq_some hback, ?_, ⟨hexitCode, hreturns⟩, hentryArgs, hbodyParams⟩
  rw [htarget, (KirFunction.mem_blocks_of_block? hheader).2]
  exact hheader

theorem getElem?_of_findIdx? {params : List KirBlockParam} {v : ValueId} {slot : Nat}
    (h : params.findIdx? (·.value = v) = some slot) : (params.map (·.value))[slot]? = some v := by
  obtain ⟨hlt, hvalue, -⟩ := List.findIdx?_eq_some_iff_getElem.mp h
  rw [List.getElem?_map, List.getElem?_eq_getElem hlt, Option.map_some, of_decide_eq_true hvalue]

/-- The checks on the slots of the loop. -/
structure SlotsChecked (f : KirFunction) (blocks : BulkBlocks) (index stop : ValueId)
    (slots : BulkSlots) : Prop where
  indexParam : (blocks.header.params.map (·.value))[slots.index]? = some index
  stopParam : (blocks.header.params.map (·.value))[slots.stop]? = some stop
  bodyParam : (blocks.body.params.map (·.value))[slots.index]? = some slots.bodyIndex
  different : slots.index ≠ slots.stop
  indexType : f.scalarType? index = some .u32

theorem bulkSlots_eq_some {index stop : ValueId} {slots : BulkSlots}
    (h : bulkSlots f blocks index stop = some slots) : SlotsChecked f blocks index stop slots := by
  simp only [bulkSlots, bind, Option.bind_eq_some_iff, Option.guard_eq_some', pure,
    Option.some.injEq] at h
  obtain ⟨indexSlot, hindex, stopSlot, hstop, -, ⟨hne, htype, -⟩, bodyIndex, hbodyIndex, rfl⟩ := h
  refine ⟨getElem?_of_findIdx? hindex, getElem?_of_findIdx? hstop, ?_, hne, htype⟩
  rw [List.getElem?_map, hbodyIndex]
  rfl

/-- The checks on the parameters that the loop is entered with. -/
structure OperandsChecked (f : KirFunction) (args : List ValueId) (slots : BulkSlots)
    (body : BulkBody) (operands : BulkOperands) : Prop where
  params : ∀ a ∈ args, a ∈ f.params.map (·.value)
  destination : args[body.destinationSlot]? = some operands.destination
  start : args[slots.index]? = some operands.start
  stop : args[slots.stop]? = some operands.stop
  destinationSlot : body.destinationSlot ≠ slots.index
  source : ∀ slot, body.sourceSlot = some slot → slot ≠ slots.index ∧
    ∃ source, args[slot]? = some source ∧ operands.source = some source
  noSource : body.sourceSlot = none → operands.source = none

theorem bulkOperands_eq_some {args : List ValueId} {slots : BulkSlots} {body : BulkBody}
    {operands : BulkOperands} (h : bulkOperands f args slots body = some operands) :
    OperandsChecked f args slots body operands := by
  simp only [bulkOperands, bind, Option.bind_eq_some_iff, Option.guard_eq_some', pure,
    Option.some.injEq] at h
  obtain ⟨-, hparams, destination, hdestination, source, hsource, start, hstart, stop, hstop, -,
    ⟨hne, -, -, -⟩, -, ⟨-, hstartType, -, hsourceType⟩, rfl⟩ := h
  refine ⟨fun a ha ↦ List.mem_map.mpr (hparams a ha), hdestination, hstart, hstop,
    fun heq ↦ hne ?_, fun slot hslot ↦ ?_, fun hnone ↦ ?_⟩
  · rw [heq, hstart] at hdestination
    exact (Option.some.inj hdestination).symm
  · rw [hslot] at hsource
    obtain ⟨v, hv, rfl⟩ := Option.map_eq_some_iff.mp hsource
    refine ⟨fun heq ↦ ?_, v, hv, rfl⟩
    rw [heq, hstart] at hv
    have htype := hsourceType v rfl
    rw [← Option.some.inj hv, hstartType] at htype
    cases htype
  · rw [hnone] at hsource
    exact (Option.some.inj hsource).symm

/-- What the checker has found out about a candidate. -/
structure BulkAccepted (f : KirFunction) (c : CheckedWasmBulkMemory) (blocks : BulkBlocks)
    (index stop : ValueId) (slots : BulkSlots) (body : BulkBody) (incremented : ValueId) :
    Prop where
  flow : BulkFlow f blocks
  compare : bulkCompare f blocks = some (index, stop)
  slotsChecked : SlotsChecked f blocks index stop slots
  increment : bulkIncrement f blocks.entry slots.bodyIndex body.increment = some incremented
  operands : OperandsChecked f blocks.entryEdge.args slots body
    ⟨c.destination, c.source, c.start, c.stop⟩
  backedge : blocks.backedge.args =
    (blocks.body.params.map (·.value)).set slots.index incremented
  elementBytes : c.elementBytes = 4
  form : (c.kind = .copy ∧ bulkCopyBody f blocks.body slots.bodyIndex = some body ∧
      blocks.entry.instructions.length = 1) ∨
    ∃ byte value, c.kind = .fill byte ∧ bulkFillBody blocks.body slots.bodyIndex = some body ∧
      blocks.entry.instructions.length = 2 ∧ body.storeValue = some value ∧
        bulkFillByte blocks.entry body.elementType value = some byte

theorem bulkCopyBody_storeValue {body : KirBlock} {index : ValueId} {b : BulkBody}
    (h : bulkCopyBody f body index = some b) : b.storeValue = none := by
  simp only [bulkCopyBody, bind, Option.bind_eq_some_iff, pure, Option.some.injEq,
    Prod.exists] at h
  obtain ⟨-, -, -, -, -, -, -, -, -, -, -, -, -, -, -, -, -, -, -, -, -, -, -, -, -, -, -, -, -, -,
    rfl⟩ := h
  rfl

theorem bulkFillBody_storeValue {body : KirBlock} {index : ValueId} {b : BulkBody}
    (h : bulkFillBody body index = some b) : ∃ value, b.storeValue = some value := by
  simp only [bulkFillBody, bind, Option.bind_eq_some_iff, pure, Option.some.injEq,
    Prod.exists] at h
  obtain ⟨-, -, -, -, -, -, -, value, -, -, -, -, -, -, -, rfl⟩ := h
  exact ⟨value, rfl⟩

theorem bulkFillBody_sourceSlot {body : KirBlock} {index : ValueId} {b : BulkBody}
    (h : bulkFillBody body index = some b) : b.sourceSlot = none := by
  simp only [bulkFillBody, bind, Option.bind_eq_some_iff, pure, Option.some.injEq,
    Prod.exists] at h
  obtain ⟨-, -, -, -, -, -, -, -, -, -, -, -, -, -, -, rfl⟩ := h
  rfl

theorem checkWasmBulkMemoryCandidate_eq_some {proposal : WasmBulkKind} {c : CheckedWasmBulkMemory}
    (h : checkWasmBulkMemoryCandidate f proposal = some c) :
    ∃ blocks index stop slots body incremented,
      BulkAccepted f c blocks index stop slots body incremented := by
  simp only [checkWasmBulkMemoryCandidate, bind, Option.bind_eq_some_iff, Option.guard_eq_some',
    pure, Option.some.injEq, Prod.exists] at h
  obtain ⟨blocks, hblocks, -, ⟨-, -, hlength⟩, index, stop, hcompare, slots, hslots, body, hbody,
    incremented, hincrement, operands, hoperands, -, hbackedge, kind, hkind, rfl⟩ := h
  refine ⟨blocks, index, stop, slots, body, incremented, bulkBlocks_eq_some hblocks, hcompare,
    bulkSlots_eq_some hslots, hincrement, bulkOperands_eq_some hoperands, hbackedge, rfl, ?_⟩
  cases proposal with
  | copy =>
      have hcopy : bulkCopyBody f blocks.body slots.bodyIndex = some body := hbody
      simp only [bulkKind, bulkCopyBody_storeValue hcopy, if_pos, bind, Option.bind_some,
        Option.bind_eq_some_iff, pure, Option.some.injEq] at hkind
      obtain ⟨-, -, rfl⟩ := hkind
      exact .inl ⟨rfl, hcopy, hlength⟩
  | fill b =>
      have hfill : bulkFillBody blocks.body slots.bodyIndex = some body := hbody
      obtain ⟨value, hvalue⟩ := bulkFillBody_storeValue hfill
      simp only [bulkKind, hvalue, bind, Option.bind_eq_some_iff, pure, Option.some.injEq,
        Option.map_eq_some_iff] at hkind
      obtain ⟨-, ⟨byte, hbyte, rfl⟩, -, -, rfl⟩ := hkind
      exact .inr ⟨byte, value, rfl, hfill, hlength, hvalue, hbyte⟩

end CalcKernel
