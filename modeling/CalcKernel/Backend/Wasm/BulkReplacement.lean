import CalcKernel.Backend.Wasm.BulkBodies
import CalcKernel.Backend.Wasm.BulkGuard

/-!
# Bulk operations in place of loops

An accepted function ends, from every memory and with every arguments, as its loop does;
with the guard in front of it, it ends in the same way.
-/

namespace CalcKernel

open Lib KirFunction

variable {f : KirFunction} {layout : WasmStructLayout} {module : KirModule}

/-! ## The entry -/

/-- An instruction that sets a value to a constant word. -/
structure SetsConst (f : KirFunction) (layout : WasmStructLayout) (i : KirInstruction)
    (v : ValueId) (w : BitVec 32) : Prop where
  const : i.kind.constIntText?.isSome = true
  defs : i.defs = [v]
  emit : f.emitInstruction layout i = some [.i32Const w, .localSet (.value v)]

theorem setsConst {i : KirInstruction} {v : ValueId} {type : MirType} {text : String} {n : Int}
    (hssa : f.valueIds.Nodup) (hi : i ∈ f.instructions) (hkind : i.kind = .constInt text)
    (hresults : i.results = [⟨v, .scalar type⟩]) (hword : isWasmWord type = true)
    (hn : parseInteger text = some n) :
    SetsConst f layout i v (BitVec.ofInt 32 n) ∧ f.scalarType? v = some type := by
  have htype : f.scalarType? v = some type := by
    have hmem : (⟨v, .scalar type⟩ : KirResult) ∈ i.results :=
      hresults ▸ List.mem_singleton_self _
    have hvalue := valueType?_of_result hssa hi hmem
    rw [scalarType?, hvalue]
    rfl
  refine ⟨⟨by rw [hkind]; rfl, by rw [KirInstruction.defs, hresults]; rfl, ?_⟩, htype⟩
  exact emit_constInt hkind (emitResult_eq hresults htype hword) hn

theorem SetsConst.executes {i : KirInstruction} {v : ValueId} {w : BitVec 32}
    (h : SetsConst f layout i v w) {rest : List KirInstruction} {locals : WasmLocals}
    {m : LinearMemory} {out : WasmOutcome WasmLocal}
    (hrest : f.Executes layout rest (Function.update locals (.value v) (.i32 w)) m out) :
    f.Executes layout (i :: rest) locals m out :=
  .cons h.emit (fun _ ↦ exec_constInt) hrest

/-- A constant that the entry sets. -/
def EntryConst (f : KirFunction) (layout : WasmStructLayout) (entry : KirBlock)
    (p : ValueId × BitVec 32) : Prop :=
  ∃ i ∈ entry.instructions, SetsConst f layout i p.1 p.2

/-- The entry sets its constants and leaves the parameters. -/
def EntryRuns (f : KirFunction) (layout : WasmStructLayout) (entry : KirBlock)
    (consts : WordConsts) : Prop :=
  ∀ (locals : WasmLocals) (m : LinearMemory), ∃ locals' : WasmLocals,
    f.Executes layout entry.instructions locals m (.next ⟨locals', [], m⟩) ∧
      locals'.HoldConsts consts ∧
        ∀ v ∈ f.params.map (·.value), locals' (.value v) = locals (.value v)

theorem param_ne_const (hssa : f.valueIds.Nodup) {entry : KirBlock} (hentry : entry ∈ f.blocks)
    {p : ValueId × BitVec 32} (hp : EntryConst f layout entry p) {v : ValueId}
    (hv : v ∈ f.params.map (·.value)) : v ≠ p.1 := by
  obtain ⟨i, hi, hset⟩ := hp
  intro heq
  exact param_notMem_defs hssa (mem_instructions.mpr ⟨entry, hentry, hi⟩)
    (hset.defs ▸ List.mem_singleton_self p.1) (heq ▸ hv)

/-- An entry with one constant. -/
theorem entry_runs_one (hssa : f.valueIds.Nodup) {entry : KirBlock} (hentry : entry ∈ f.blocks)
    (hlength : entry.instructions.length = 1) {p : ValueId × BitVec 32}
    (hp : EntryConst f layout entry p) : EntryRuns f layout entry [p] := by
  intro locals m
  have hparam := fun v hv ↦ @param_ne_const f layout hssa entry hentry p hp v hv
  obtain ⟨i, hi, hset⟩ := hp
  obtain ⟨j, hlist⟩ := List.length_eq_one_iff.mp hlength
  rw [hlist] at hi
  obtain rfl := List.mem_singleton.mp hi
  refine ⟨Function.update locals (.value p.1) (.i32 p.2), hlist ▸ hset.executes .nil, ?_,
    fun v hv ↦ update_value_of_ne (hparam v hv)⟩
  intro q hq
  obtain rfl := List.mem_singleton.mp hq
  exact Function.update_self _ _ _

/-- An entry with two constants, in any order. -/
theorem entry_runs_two (hssa : f.valueIds.Nodup) {entry : KirBlock} (hentry : entry ∈ f.blocks)
    (hlength : entry.instructions.length = 2) {p q : ValueId × BitVec 32}
    (hp : EntryConst f layout entry p) (hq : EntryConst f layout entry q) (hpq : p.2 ≠ q.2) :
    EntryRuns f layout entry [p, q] := by
  intro locals m
  have hparam := fun v hv ↦ @param_ne_const f layout hssa entry hentry p hp v hv
  have hparam' := fun v hv ↦ @param_ne_const f layout hssa entry hentry q hq v hv
  obtain ⟨i, hi, hset⟩ := hp
  obtain ⟨j, hj, hset'⟩ := hq
  have hij : i ≠ j := by
    intro heq
    have hemit := hset.emit.symm.trans (heq ▸ hset'.emit)
    have hhead := (List.cons.inj (Option.some.inj hemit)).1
    exact hpq (WasmOp.i32Const.inj hhead)
  have hne : p.1 ≠ q.1 := by
    intro heq
    refine hij (instruction_unique hssa (mem_instructions.mpr ⟨entry, hentry, hi⟩)
      (mem_instructions.mpr ⟨entry, hentry, hj⟩) (hset.defs ▸ List.mem_singleton_self p.1) ?_)
    rw [hset'.defs, heq]
    exact List.mem_singleton_self _
  obtain ⟨x, y, hlist⟩ := List.length_eq_two.mp hlength
  rw [hlist] at hi hj
  have horder : entry.instructions = [i, j] ∨ entry.instructions = [j, i] := by
    rw [hlist]
    simp only [List.mem_cons, List.not_mem_nil, or_false] at hi hj
    rcases hi with rfl | rfl <;> rcases hj with rfl | rfl <;> first
      | exact absurd rfl hij
      | exact .inl rfl
      | exact .inr rfl
  rcases horder with h | h
  · refine ⟨Function.update (Function.update locals (.value p.1) (.i32 p.2)) (.value q.1)
      (.i32 q.2), h ▸ hset.executes (hset'.executes .nil), fun r hr ↦ ?_, fun v hv ↦
        (update_value_of_ne (hparam' v hv)).trans (update_value_of_ne (hparam v hv))⟩
    rcases List.mem_cons.mp hr with rfl | hr
    · exact (update_value_of_ne hne).trans (Function.update_self _ _ _)
    · obtain rfl := List.mem_singleton.mp hr
      exact Function.update_self _ _ _
  · refine ⟨Function.update (Function.update locals (.value q.1) (.i32 q.2)) (.value p.1)
      (.i32 p.2), h ▸ hset'.executes (hset.executes .nil), fun r hr ↦ ?_, fun v hv ↦
        (update_value_of_ne (hparam v hv)).trans (update_value_of_ne (hparam' v hv))⟩
    rcases List.mem_cons.mp hr with rfl | hr
    · exact Function.update_self _ _ _
    · obtain rfl := List.mem_singleton.mp hr
      exact (update_value_of_ne hne.symm).trans (Function.update_self _ _ _)

theorem bulkFillByte_eq_some {entry : KirBlock} {type : MirType} {value : ValueId}
    {byte : BitVec 8} (h : bulkFillByte entry type value = some byte) :
    ∃ i ∈ entry.instructions, ∃ text n, i.kind = .constInt text ∧
      i.results = [⟨value, .scalar type⟩] ∧ parseInteger text = some n ∧
        BitVec.ofInt 32 n = LinearMemory.wordOf byte byte byte byte := by
  simp only [bulkFillByte, bind, Option.bind_eq_some_iff, Option.guard_eq_some', pure,
    Option.some.injEq] at h
  obtain ⟨text, htext, n, hn, -, -, -, hword, rfl⟩ := h
  obtain ⟨i, hi, hfound⟩ := List.exists_of_findSome?_eq_some htext
  obtain ⟨⟨v, node⟩, hresult, hconst⟩ := Option.bind_eq_some_iff.mp hfound
  split at hconst
  case isFalse => cases hconst
  rename_i hsame
  obtain ⟨rfl, rfl⟩ := hsame
  exact ⟨i, hi, text, n, KirInstructionKind.constIntText?_eq_some hconst,
    single?_eq_some hresult, hn, hword⟩

/-! ## Nothing is defined twice -/

section Apart

variable {c : CheckedWasmBulkMemory} {blocks : BulkBlocks} {index stop incremented : ValueId}
  {slots : BulkSlots} {body : BulkBody} {consts : WordConsts}

theorem blockParams_nodup (hssa : f.valueIds.Nodup) {b : KirBlock} (hb : b ∈ f.blocks) :
    (b.params.map (·.value)).Nodup := by
  have hparams := (List.nodup_append.mp (List.nodup_append.mp
    (valueIds_perm.nodup_iff.mp hssa)).2.1).1
  exact (List.nodup_flatMap.mp hparams).1 b hb

theorem BulkFlow.mem_blocks (h : BulkFlow f blocks) :
    blocks.entry ∈ f.blocks ∧ blocks.header ∈ f.blocks ∧ blocks.body ∈ f.blocks := by
  obtain ⟨thenEdge, -, -, hthen, -⟩ := h.branch
  exact ⟨List.mem_of_mem_head? h.entry, (mem_blocks_of_block? h.header).1,
    (mem_blocks_of_block? hthen).1⟩

/-- The condition is the result of the only instruction of the header. -/
theorem condition_defined (h : bulkCompare f blocks = some (index, stop)) :
    ∃ i ∈ blocks.header.instructions, blocks.condition ∈ i.defs ∧ i.kind.constIntText? = none := by
  unfold bulkCompare at h
  split at h
  case h_2 => cases h
  rename_i id result left right memory effect heq
  split at h
  case isFalse => cases h
  rename_i hresult
  refine ⟨_, heq ▸ List.mem_singleton_self _, ?_, rfl⟩
  rw [← hresult.1]
  exact List.mem_singleton_self _

theorem bulkApart (hssa : f.valueIds.Nodup)
    (haccepted : BulkAccepted f c blocks index stop slots body incremented)
    (hconsts : ∀ p ∈ consts, EntryConst f layout blocks.entry p)
    (hbody : ∀ i ∈ blocks.body.instructions, i.kind.constIntText? = none) :
    BulkApart blocks consts := by
  obtain ⟨hentry, hheader, hblock⟩ := haccepted.flow.mem_blocks
  obtain ⟨compare, hcompare, hcondition, hcompareConst⟩ := condition_defined haccepted.compare
  have hcompareMem := mem_instructions.mpr ⟨blocks.header, hheader, hcompare⟩
  -- a constant is defined by a constant instruction only
  have hother : ∀ p ∈ consts, ∀ i ∈ f.instructions, i.kind.constIntText? = none →
      p.1 ∉ i.defs := by
    intro p hp i hi hnone hdef
    obtain ⟨j, hj, hset⟩ := hconsts p hp
    have hsame := instruction_unique hssa (mem_instructions.mpr ⟨blocks.entry, hentry, hj⟩) hi
      (hset.defs ▸ List.mem_singleton_self p.1) hdef
    have hconst := hset.const
    rw [hsame, hnone] at hconst
    cases hconst
  have hparam : ∀ p ∈ consts, ∀ b ∈ f.blocks, p.1 ∉ b.params.map (·.value) := by
    intro p hp b hb
    obtain ⟨j, hj, hset⟩ := hconsts p hp
    exact blockParam_notMem_defs hssa (mem_instructions.mpr ⟨blocks.entry, hentry, hj⟩)
      (hset.defs ▸ List.mem_singleton_self p.1) hb
  refine ⟨blockParams_nodup hssa hheader, blockParams_nodup hssa hblock,
    blockParam_notMem_defs hssa hcompareMem hcondition hheader, fun p hp heq ↦ ?_,
    fun p hp ↦ hparam p hp _ hheader, fun p hp ↦ hparam p hp _ hblock, fun p hp hdef ↦ ?_,
    fun v hv hdef ↦ ?_⟩
  · exact hother p hp compare hcompareMem hcompareConst (heq ▸ hcondition)
  · obtain ⟨i, hi, hdef⟩ := List.mem_flatMap.mp hdef
    exact hother p hp i (mem_instructions.mpr ⟨blocks.body, hblock, hi⟩) (hbody i hi) hdef
  · obtain ⟨i, hi, hdef⟩ := List.mem_flatMap.mp hdef
    exact blockParam_notMem_defs hssa (mem_instructions.mpr ⟨blocks.body, hblock, hi⟩) hdef hblock
      hv

/-! ## The original loop -/

/-- From the call on, an accepted function ends as storing the words of its loop ends. -/
theorem ends_of_runs {word : LoopWord}
    (haccepted : BulkAccepted f c blocks index stop slots body incremented)
    (hapart : BulkApart blocks consts) (hentry : EntryRuns f layout blocks.entry consts)
    (hbody : RunsBody f layout blocks.body consts slots.index body.destinationSlot incremented word)
    (hword : ∀ words x, word (words.set slots.index x) = word words) {locals : WasmLocals}
    {m : LinearMemory} {words : List (BitVec 32)} {a b d : BitVec 32}
    (hwords : locals.Hold blocks.entryEdge.args words) (ha : words[slots.index]? = some a)
    (hb : words[slots.stop]? = some b) (hd : words[body.destinationSlot]? = some d) :
    f.EndsFrom layout locals m
      (LinearMemory.storeWords (word words) d (b.toNat - a.toNat) a m) := by
  obtain ⟨locals', hexec, hconsts, hparams⟩ := hentry locals m
  have hargs : locals'.Hold blocks.entryEdge.args words :=
    hwords.congr fun v hv ↦ hparams v (haccepted.operands.params v hv)
  have hstep : (f.wordMachine layout).step ⟨blocks.entry, locals, m⟩ =
      .next ⟨blocks.header, locals'.setAll ((blocks.header.params.map (·.value)).zip
        (words.map .i32)), m⟩ := by
    rw [step_next hexec, haccepted.flow.entryJump, leaveWords]
    exact followWords_eq haccepted.flow.header hargs
  refine ⟨blocks.entry, haccepted.flow.entry, .head hstep ?_⟩
  refine loop_halts haccepted hapart hbody hword _ (fun p hp ↦ ?_) ?_ ha hb hd rfl
  · rw [WasmLocals.setAll_value_of_notMem (hapart.constHeader p hp)]
    exact hconsts p hp
  · refine WasmLocals.setAll_hold hapart.headerNodup ?_
    rw [List.length_map, ← haccepted.flow.entryArgs, List.Forall₂.length_eq hwords]

end Apart

/-- Values among those that hold words hold words. -/
theorem WasmLocals.Hold.subset {locals : WasmLocals} {values vs : List ValueId}
    {words : List (BitVec 32)} (h : locals.Hold values words) (hvs : ∀ v ∈ vs, v ∈ values) :
    ∃ ws, locals.Hold vs ws := by
  refine exists_forall₂ fun v hv ↦ ?_
  obtain ⟨k, hk⟩ := List.getElem?_of_mem (hvs v hv)
  obtain ⟨x, hx⟩ := h.exists_word hk
  exact ⟨x, h.get hk hx⟩

/-! ## The replacement -/

/-- The guard ends the call, or the original loop goes on where it falls through. -/
def EndsGuarded (f : KirFunction) (layout : WasmStructLayout) (c : CheckedWasmBulkMemory)
    (locals : WasmLocals) (m : LinearMemory) (e : MemoryEnd) : Prop :=
  match c.emitBulkMemoryGuard.exec ⟨locals, [], m⟩ with
  | some (.ended e') => e = e'
  | some (.next s) => f.EndsFrom layout s.locals s.memory e
  | none => False

/-- What a run of the guard may be, for a loop that ends alike wherever the values are alike. -/
theorem endsGuarded_of_guard {c : CheckedWasmBulkMemory} {locals : WasmLocals} {m : LinearMemory}
    {e : MemoryEnd} {out : WasmOutcome WasmLocal}
    (hguard : c.emitBulkMemoryGuard.exec ⟨locals, [], m⟩ = some out)
    (hout : FallsThrough locals m out ∨ out = .ended e)
    (hloop : ∀ locals' : WasmLocals, (∀ v, locals' (.value v) = locals (.value v)) →
      f.EndsFrom layout locals' m e) : EndsGuarded f layout c locals m e := by
  unfold EndsGuarded
  rw [hguard]
  rcases hout with ⟨locals', rfl, hsame⟩ | rfl
  · exact hloop locals' hsame
  · rfl

section Accepted

variable {c : CheckedWasmBulkMemory} {blocks : BulkBlocks} {index stop incremented : ValueId}
  {slots : BulkSlots} {body : BulkBody} {locals : WasmLocals} {m : LinearMemory}
  {args : List (BitVec 32)}

/-- The loop and the guard in front of it end in one way. -/
def EndsAlike (f : KirFunction) (layout : WasmStructLayout) (c : CheckedWasmBulkMemory)
    (locals : WasmLocals) (m : LinearMemory) : Prop :=
  ∃ e, f.EndsFrom layout locals m e ∧ EndsGuarded f layout c locals m e

/-- The loop ends alike from all locals with the same values, and the guard ends as the loop does
or falls through. -/
theorem endsAlike_of_guard (word : LinearMemory → BitVec 32 → Option (BitVec 32))
    {a b : BitVec 32} (d : BitVec 32) (hbytes : c.elementBytes = 4)
    (ha : locals (.value c.start) = .i32 a) (hb : locals (.value c.stop) = .i32 b)
    (hloop : ∀ locals' : WasmLocals, (∀ v, locals' (.value v) = locals (.value v)) →
      f.EndsFrom layout locals' m (LinearMemory.storeWords word d (b.toNat - a.toNat) a m))
    (hranges : a.toNat < b.toNat → 4 * (b.toNat - a.toNat) ≤ 4294967295 → ∀ locals' : WasmLocals,
      (∀ v, locals' (.value v) = locals (.value v)) →
        locals' .bulkLength = .i64 (wideLength a b) →
          ∃ out, c.emitRanges.exec ⟨locals', [], m⟩ = some out ∧ (FallsThrough locals' m out ∨
            out = .ended (LinearMemory.storeWords word d (b.toNat - a.toNat) a m))) :
    EndsAlike f layout c locals m := by
  refine ⟨_, hloop locals fun _ ↦ rfl, ?_⟩
  rcases @guard_cases c locals m a b hbytes ha hb with ⟨out, hexec, hfalls⟩ |
      ⟨hlt, hlength, hexec⟩
  · exact endsGuarded_of_guard hexec (.inl hfalls) hloop
  · have hsame : ∀ v, Function.update locals .bulkLength (.i64 (wideLength a b)) (.value v) =
        locals (.value v) := fun v ↦ update_own (fun _ h ↦ WasmLocal.noConfusion h) v
    obtain ⟨out, hout, hcases⟩ := hranges hlt hlength _ hsame (Function.update_self _ _ _)
    rw [hout] at hexec
    rcases hcases with ⟨locals', rfl, hsame'⟩ | rfl
    · exact endsGuarded_of_guard hexec
        (.inl ⟨locals', rfl, fun v ↦ (hsame' v).trans (hsame v)⟩) hloop
    · exact endsGuarded_of_guard hexec (.inr rfl) hloop

theorem wordOf_ne_one (byte : BitVec 8) : LinearMemory.wordOf byte byte byte byte ≠ 1#32 := by
  intro heq
  obtain ⟨h₀, h₁, -, -⟩ := LinearMemory.byteOf_wordOf byte byte byte byte
  rw [heq] at h₀ h₁
  exact absurd (h₀.trans h₁.symm) (by decide)

/-- The constant one of the entry. -/
theorem entryConst_one (hssa : f.valueIds.Nodup) {entry : KirBlock} (hentry : entry ∈ f.blocks)
    {step : ValueId}
    (h : ∃ i ∈ entry.instructions, i.kind = .constInt "1" ∧ i.results = [⟨step, .scalar .u32⟩]) :
    EntryConst f layout entry (step, 1#32) := by
  obtain ⟨i, hi, hkind, hresults⟩ := h
  exact ⟨i, hi, (setsConst hssa (mem_instructions.mpr ⟨entry, hentry, hi⟩) hkind hresults rfl
    (n := 1) (by decide)).1⟩

theorem copy_endsAlike (hf : f.WellTyped module)
    (haccepted : BulkAccepted f c blocks index stop slots body incremented)
    (hkind : c.kind = .copy) (hcopy : bulkCopyBody f blocks.body slots.bodyIndex = some body)
    (hlength : blocks.entry.instructions.length = 1)
    (hargs : locals.Hold (f.params.map (·.value)) args) : EndsAlike f layout c locals m := by
  have hssa := hf.values
  obtain ⟨hentry, hheader, hblock⟩ := haccepted.flow.mem_blocks
  obtain ⟨load, store, source, destination, loaded, sourceSlot, hbody⟩ :=
    @bulkCopyBody_eq_some f layout _ _ _ hcopy
  have hincrement : body.increment ∈ blocks.body.instructions := by
    rcases hbody.order with h | h | h <;> rw [h] <;> simp
  obtain ⟨step, hcounts, hone⟩ := @bulkIncrement_eq_some f layout module hf _ _ _ _
    (mem_instructions.mpr ⟨blocks.body, hblock, hincrement⟩) haccepted.increment
  have hconst : EntryConst f layout blocks.entry (step, 1#32) := entryConst_one hssa hentry hone
  have hapart : BulkApart blocks [(step, 1#32)] := by
    refine @bulkApart f layout _ _ _ _ _ _ _ _ hssa haccepted (fun p hp ↦ ?_) hbody.noConst
    obtain rfl := List.mem_singleton.mp hp
    exact hconst
  have hruns : RunsBody f layout blocks.body [(step, 1#32)] slots.index body.destinationSlot
      incremented (copyWord sourceSlot) :=
    copy_runs hssa hblock hbody ⟨hcounts, List.mem_singleton_self _,
      haccepted.slotsChecked.bodyParam, hapart.bodyDefs, hapart.constDefs⟩
  obtain ⟨hslot, origin, horigin, hsource⟩ := haccepted.operands.source sourceSlot hbody.slot
  have hword : ∀ words x, copyWord sourceSlot (words.set slots.index x) =
      copyWord sourceSlot words := fun words x ↦ by
    funext m i
    rw [copyWord, copyWord, List.getElem?_set_ne (Ne.symm hslot)]
  obtain ⟨words, hwords⟩ := hargs.subset haccepted.operands.params
  obtain ⟨d, hd⟩ := hwords.exists_word haccepted.operands.destination
  obtain ⟨s, hs⟩ := hwords.exists_word horigin
  obtain ⟨a, ha⟩ := hwords.exists_word haccepted.operands.start
  obtain ⟨b, hb⟩ := hwords.exists_word haccepted.operands.stop
  have hcopyWord : copyWord sourceSlot words = fun m j ↦ m.load32 (s + j * 4#32).toNat := by
    funext m j
    rw [copyWord, hs, Option.bind_some]
  refine endsAlike_of_guard (fun m j ↦ m.load32 (s + j * 4#32).toNat) d haccepted.elementBytes
    (hwords.get haccepted.operands.start ha) (hwords.get haccepted.operands.stop hb)
    (fun locals' hsame ↦ ?_) fun hlt hle locals' hsame hl ↦ ?_
  · rw [← hcopyWord]
    exact ends_of_runs haccepted hapart (entry_runs_one hssa hentry hlength hconst) hruns hword
      (hwords.congr fun v _ ↦ hsame v) ha hb hd
  · exact ranges_copy hkind hsource haccepted.elementBytes
      ((hsame _).trans (hwords.get haccepted.operands.destination hd))
      ((hsame _).trans (hwords.get horigin hs))
      ((hsame _).trans (hwords.get haccepted.operands.start ha)) hlt hle hl

theorem fill_endsAlike (hf : f.WellTyped module)
    (haccepted : BulkAccepted f c blocks index stop slots body incremented) {byte : BitVec 8}
    {value : ValueId} (hkind : c.kind = .fill byte)
    (hfill : bulkFillBody blocks.body slots.bodyIndex = some body)
    (hlength : blocks.entry.instructions.length = 2) (hvalue : body.storeValue = some value)
    (hbyte : bulkFillByte blocks.entry body.elementType value = some byte)
    (hargs : locals.Hold (f.params.map (·.value)) args) : EndsAlike f layout c locals m := by
  have hssa := hf.values
  obtain ⟨hentry, hheader, hblock⟩ := haccepted.flow.mem_blocks
  obtain ⟨value', store, destination, hbody⟩ := @bulkFillBody_eq_some f layout _ _ _ hfill
  obtain rfl := Option.some.inj (hvalue.symm.trans hbody.stored)
  have hincrement : body.increment ∈ blocks.body.instructions := by
    rcases hbody.order with h | h <;> rw [h] <;> simp
  obtain ⟨step, hcounts, hone⟩ := @bulkIncrement_eq_some f layout module hf _ _ _ _
    (mem_instructions.mpr ⟨blocks.body, hblock, hincrement⟩) haccepted.increment
  have hconst : EntryConst f layout blocks.entry (step, 1#32) := entryConst_one hssa hentry hone
  obtain ⟨i, hi, text, n, hkindConst, hresults, hn, hword⟩ := bulkFillByte_eq_some hbyte
  obtain ⟨hset, htype⟩ := @setsConst f layout i value body.elementType text n hssa
    (mem_instructions.mpr ⟨blocks.entry, hentry, hi⟩) hkindConst hresults hbody.word hn
  have hconst' : EntryConst f layout blocks.entry (value, BitVec.ofInt 32 n) := ⟨i, hi, hset⟩
  have hne : (1#32 : BitVec 32) ≠ BitVec.ofInt 32 n := by
    rw [hword]
    exact (wordOf_ne_one byte).symm
  have hapart : BulkApart blocks [(step, 1#32), (value, BitVec.ofInt 32 n)] := by
    refine @bulkApart f layout _ _ _ _ _ _ _ _ hssa haccepted (fun p hp ↦ ?_) hbody.noConst
    rcases List.mem_cons.mp hp with rfl | hp
    · exact hconst
    · obtain rfl := List.mem_singleton.mp hp
      exact hconst'
  have hruns : RunsBody f layout blocks.body [(step, 1#32), (value, BitVec.ofInt 32 n)]
      slots.index body.destinationSlot incremented (fillWord (BitVec.ofInt 32 n)) :=
    fill_runs hbody ⟨hcounts, List.mem_cons_self, haccepted.slotsChecked.bodyParam,
      hapart.bodyDefs, hapart.constDefs⟩ htype (List.mem_cons_of_mem _ List.mem_cons_self)
  have hsource := haccepted.operands.noSource (bulkFillBody_sourceSlot hfill)
  obtain ⟨words, hwords⟩ := hargs.subset haccepted.operands.params
  obtain ⟨d, hd⟩ := hwords.exists_word haccepted.operands.destination
  obtain ⟨a, ha⟩ := hwords.exists_word haccepted.operands.start
  obtain ⟨b, hb⟩ := hwords.exists_word haccepted.operands.stop
  refine endsAlike_of_guard (fun _ _ ↦ some (BitVec.ofInt 32 n)) d haccepted.elementBytes
    (hwords.get haccepted.operands.start ha) (hwords.get haccepted.operands.stop hb)
    (fun locals' hsame ↦ ?_) fun hlt hle locals' hsame hl ↦ ?_
  · exact ends_of_runs haccepted hapart (entry_runs_two hssa hentry hlength hconst hconst' hne)
      hruns (fun _ _ ↦ rfl) (hwords.congr fun v _ ↦ hsame v) ha hb hd
  · exact ranges_fill hkind hsource haccepted.elementBytes
      ((hsame _).trans (hwords.get haccepted.operands.destination hd))
      ((hsame _).trans (hwords.get haccepted.operands.start ha)) hlt hle hword hl

end Accepted

theorem KirFunction.EndsFrom.unique {locals : WasmLocals} {m : LinearMemory} {e e' : MemoryEnd}
    (h : f.EndsFrom layout locals m e) (h' : f.EndsFrom layout locals m e') : e = e' := by
  obtain ⟨b, hb, hhalts⟩ := h
  obtain ⟨b', hb', hhalts'⟩ := h'
  obtain rfl := Option.some.inj (hb.symm.trans hb')
  exact hhalts.unique hhalts'

theorem EndsGuarded.unique {c : CheckedWasmBulkMemory} {locals : WasmLocals} {m : LinearMemory}
    {e e' : MemoryEnd} (h : EndsGuarded f layout c locals m e)
    (h' : EndsGuarded f layout c locals m e') : e = e' := by
  unfold EndsGuarded at h h'
  split at h
  case h_1 hexec =>
    rw [hexec] at h'
    exact h.trans h'.symm
  case h_2 hexec =>
    rw [hexec] at h'
    exact h.unique h'
  case h_3 => exact h.elim

/-- An accepted function on arguments that fit. -/
theorem endsAlike_of_candidate (hf : f.WellTyped module) {c : CheckedWasmBulkMemory}
    (hc : checkedWasmBulkMemoryCandidate f = some c) {args : List (BitVec 32)}
    (hargs : args.length = f.params.length) (m : LinearMemory) :
    EndsAlike f layout c (f.entryLocals args) m := by
  obtain ⟨proposal, -, hcheck⟩ := Option.bind_eq_some_iff.mp hc
  obtain ⟨blocks, index, stop, slots, body, incremented, haccepted⟩ :=
    checkWasmBulkMemoryCandidate_eq_some hcheck
  have hhold : (f.entryLocals args).Hold (f.params.map (·.value)) args := by
    refine WasmLocals.setAll_hold
      (List.nodup_append.mp (valueIds_perm.nodup_iff.mp hf.values)).1 ?_
    rw [List.length_map, hargs]
  rcases haccepted.form with ⟨hkind, hcopy, hlength⟩ |
      ⟨byte, value, hkind, hfill, hlength, hvalue, hbyte⟩
  · exact copy_endsAlike hf haccepted hkind hcopy hlength hhold
  · exact fill_endsAlike hf haccepted hkind hfill hlength hvalue hbyte hhold

/-- For every accepted function, arguments and memory, the guarded function ends as the original
loop does, and both end. -/
theorem bulkMemory_replaces_loop (hf : f.WellTyped module) {c : CheckedWasmBulkMemory}
    (hc : checkedWasmBulkMemoryCandidate f = some c) (layout : WasmStructLayout)
    (args : List (BitVec 32)) (hargs : args.length = f.params.length) (m : LinearMemory) :
    (∃ e, f.EndsFrom layout (f.entryLocals args) m e) ∧
      ∀ e, EndsGuarded f layout c (f.entryLocals args) m e ↔
        f.EndsFrom layout (f.entryLocals args) m e := by
  obtain ⟨e, hloop, hguarded⟩ := @endsAlike_of_candidate f layout module hf c hc args hargs m
  refine ⟨⟨e, hloop⟩, fun e' ↦ ⟨fun h ↦ ?_, fun h ↦ ?_⟩⟩
  · exact h.unique hguarded ▸ hloop
  · exact h.unique hloop ▸ hguarded

/-! ## A fill -/

/-- Sets the words from the second to the third argument to zero. -/
def fillKir : KirFunction :=
  ⟨0, "fill", true, [⟨0, "data", .pointer (.primitive .i32)⟩, ⟨1, "start", .primitive .u32⟩,
      ⟨2, "end", .primitive .u32⟩], .void, [], [], [],
    [⟨0, "bb0", [], [], [⟨0, [⟨3, .scalar (.primitive .u32)⟩], .constInt "1", none, none⟩,
        ⟨1, [⟨4, .scalar (.primitive .i32)⟩], .constInt "0", none, none⟩],
        .jump ⟨1, [0, 1, 2], []⟩⟩,
      ⟨1, "bb1", [⟨5, "data", .scalar (.pointer (.primitive .i32))⟩,
          ⟨6, "i", .scalar (.primitive .u32)⟩, ⟨7, "end", .scalar (.primitive .u32)⟩], [],
        [⟨2, [⟨8, .scalar (.primitive .bool)⟩], .compare .lt 6 7, none, none⟩],
        .branch 8 ⟨2, [5, 6, 7], []⟩ ⟨3, [], []⟩⟩,
      ⟨2, "bb2", [⟨9, "data", .scalar (.pointer (.primitive .i32))⟩,
          ⟨10, "i", .scalar (.primitive .u32)⟩, ⟨11, "end", .scalar (.primitive .u32)⟩], [],
        [⟨3, [], .store (.index (.value 9 (.pointer (.primitive .i32)) 0) 10 (.primitive .i32) 0)
            4, none, none⟩,
          ⟨4, [⟨12, .scalar (.primitive .u32)⟩], .binary .add 10 3 .modular, none, none⟩],
        .jump ⟨1, [9, 12, 11], []⟩⟩,
      ⟨3, "bb3", [], [], [], .return none [] 0⟩]⟩

def fillKirModule : KirModule :=
  ⟨⟨.webAssembly, .unchecked, .unchecked, .disabled⟩, none, [], [fillKir]⟩

def fillKirMemory : LinearMemory := ⟨1, by decide, fun a ↦ BitVec.ofNat 8 a⟩

theorem bulkMemory_replaces_loop_fillKir :
    (∃ e, fillKir.EndsFrom ⟨[], []⟩ (fillKir.entryLocals [4096, 0, 20]) fillKirMemory e) ∧
      ∀ e, EndsGuarded fillKir ⟨[], []⟩ ⟨.fill 0, 0, none, 1, 2, 4⟩
          (fillKir.entryLocals [4096, 0, 20]) fillKirMemory e ↔
        fillKir.EndsFrom ⟨[], []⟩ (fillKir.entryLocals [4096, 0, 20]) fillKirMemory e := by
  have hf : fillKir.WellTyped fillKirModule := by decide
  exact bulkMemory_replaces_loop hf rfl ⟨[], []⟩ [4096, 0, 20] rfl fillKirMemory

end CalcKernel
