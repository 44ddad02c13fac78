import CalcKernel.Profile.RoundTrip

/-!
# Merging shards

Shards of one build are added up counter by counter with saturating arithmetic.
The merge is characterised by the totals of the cells, so it does not depend on
the order of the shards.
-/

namespace CalcKernel

open Lib

/-! ## The merge -/

/-- The sum and whether it overflowed. -/
def saturatingAdd (target input : UInt64) : UInt64 × Bool :=
  if target.toNat + input.toNat < 2 ^ 64 then (target + input, false) else (u64Max, true)

/-- The sums of two rows of cells and whether one of them overflowed. -/
def addCells (target input : List UInt64) : List UInt64 × Bool :=
  let sums := List.zipWith saturatingAdd target input
  (sums.map (·.1), sums.any (·.2))

/-- The merged counter and whether the profile overflowed. -/
def addCounter : CkProfileCounter → CkProfileCounter →
    Except CkProfileError (CkProfileCounter × Bool)
  | .scalar target, .scalar input =>
      let sum := saturatingAdd target input
      .ok (.scalar sum.1, sum.2)
  | .histogram target targetSaturated, .histogram input inputSaturated =>
      let sums := Vector.zipWith saturatingAdd target input
      let overflowed := sums.toList.any (·.2)
      .ok (.histogram (sums.map (·.1)) (targetSaturated || (inputSaturated || overflowed)),
        overflowed)
  | .candidateConstant target targetOther targetSaturated,
      .candidateConstant input inputOther inputSaturated =>
      if target.length = input.length then
        let sums := addCells target input
        let other := saturatingAdd targetOther inputOther
        let overflowed := sums.2 || other.2
        .ok (.candidateConstant sums.1 other.1 (targetSaturated || (inputSaturated || overflowed)),
          overflowed)
      else .error .counterTableMismatch
  | _, _ => .error .counterTableMismatch

/-- The loop over two tables of one length. -/
def addRecords : List CkProfileCounterRecord → List CkProfileCounterRecord →
    Except CkProfileError (List CkProfileCounterRecord × Bool)
  | target :: aggregate, input :: observed =>
      if target.siteId ≠ input.siteId then .error .counterTableMismatch
      else do
        let (counter, overflowed) ← addCounter target.counter input.counter
        let (records, overflowed') ← addRecords aggregate observed
        return (⟨target.siteId, counter⟩ :: records, overflowed || overflowed')
  | _, _ => .ok ([], false)

def addCounterTables (aggregate observed : List CkProfileCounterRecord) (overflowed : Bool) :
    Except CkProfileError (List CkProfileCounterRecord × Bool) :=
  if aggregate.length ≠ observed.length then .error .counterTableMismatch
  else do
    let (records, overflowed') ← addRecords aggregate observed
    return (records, overflowed || overflowed')

/-- What the loop over the shards carries. -/
structure MergeState where
  runIds : List (Vector UInt8 16)
  shardDigests : List Digest
  counters : List CkProfileCounterRecord
  overflowed : Bool
  incomplete : Bool

def anySaturated (counters : List CkProfileCounterRecord) : Bool :=
  counters.any (·.counter.isSaturated)

/-- The counters after a round; those of the first shard are in the table from the start. -/
def MergeState.addShard (state : MergeState) (shard : CkProfileShard) (index : Nat) :
    Except CkProfileError (List CkProfileCounterRecord × Bool) :=
  if index ≠ 0 then addCounterTables state.counters shard.counters state.overflowed
  else .ok (state.counters, state.overflowed)

section Sha

variable (sha : List UInt8 → Digest)

/-- One round of the loop over the shards. -/
def mergeShard (first : CkProfileShard) (state : MergeState) (shard : CkProfileShard) (index : Nat) :
    Except CkProfileError MergeState :=
  if shard.runId ∈ state.runIds then .error .duplicateRunIdentity
  else do
    let canonical ← serializeProfileShard sha shard
    if sha canonical ∈ state.shardDigests then .error .duplicateShardContent
    else match first.identity.firstMismatch shard.identity with
      | some field => .error (.identityMismatch field)
      | none =>
          if first.sites ≠ shard.sites then .error .siteTableMismatch
          else do
            let (counters, overflowed) ← state.addShard shard index
            return { runIds := shard.runId :: state.runIds
                     shardDigests := sha canonical :: state.shardDigests
                     counters
                     overflowed := overflowed || (shard.overflowed || anySaturated shard.counters)
                     incomplete := state.incomplete || shard.incompleteObservations }

/-- The rounds from an index on. -/
def mergeLoop (first : CkProfileShard) : MergeState → Nat → List CkProfileShard →
    Except CkProfileError MergeState
  | state, _, [] => .ok state
  | state, index, shard :: shards => do
      let state ← mergeShard sha first state shard index
      mergeLoop first state (index + 1) shards

def mergeProfileShards (shards : List CkProfileShard) : Except CkProfileError CkProfile :=
  match shards with
  | [] => .error (.invalidValue "merge.empty")
  | first :: _ =>
      if ckProfileMaxShards.toNat < shards.length then .error (.resourceLimit "merge shard count")
      else do
        let state ← mergeLoop sha first
          { runIds := []
            shardDigests := []
            counters := first.counters
            overflowed := first.overflowed || anySaturated first.counters
            incomplete := first.incompleteObservations } 0 shards
        let mergedShards := UInt32.ofNat shards.length
        return { identity := first.identity
                 sites := first.sites
                 counters := state.counters
                 completedRuns := mergedShards.toUInt64
                 mergedShards
                 overflowed := state.overflowed
                 incompleteObservations := state.incomplete }

end Sha

/-! ## Cells, flags and shapes -/

namespace CkProfileCounter

def cells : CkProfileCounter → List UInt64
  | .scalar value => [value]
  | .histogram buckets _ => buckets.toList
  | .candidateConstant candidates other _ => candidates ++ [other]

/-- The saturated flag of a counter that has one. -/
def flag : CkProfileCounter → Bool
  | .scalar _ => false
  | .histogram _ saturated | .candidateConstant _ _ saturated => saturated

/-- The kind of a counter and the number of its cells. -/
def shape (counter : CkProfileCounter) : UInt8 × Nat := (counter.tag, counter.cells.length)

/-- The `j`-th cell, zero if there is none. -/
def cell (counter : CkProfileCounter) (j : Nat) : Nat := (counter.cells[j]?.getD 0).toNat

theorem ext_cells {a b : CkProfileCounter} (hshape : a.shape = b.shape) (hcells : a.cells = b.cells)
    (hflag : a.flag = b.flag) : a = b := by
  cases a <;> cases b <;> simp_all [shape, tag, cells, flag]
  · apply Vector.toList_inj.mp
    exact hcells

theorem cell_le (counter : CkProfileCounter) (j : Nat) : counter.cell j ≤ 2 ^ 64 - 1 := by
  have := (counter.cells[j]?.getD 0).toNat_lt
  unfold cell
  omega

end CkProfileCounter

def CkProfileCounterRecord.shape (record : CkProfileCounterRecord) : CkProfileSiteId × UInt8 × Nat :=
  (record.siteId, record.counter.shape)

/-- The shape of the counter that belongs to a site. -/
def CkProfileSiteDescriptor.shape (site : CkProfileSiteDescriptor) : CkProfileSiteId × UInt8 × Nat :=
  match site.kind with
  | .functionEntry | .edge _ _ _ => (site.id, 1, 1)
  | .loopTripHistogram _ | .sliceLengthHistogram _ => (site.id, 2, 16)
  | .candidateConstant _ candidates => (site.id, 3, candidates.length + 1)

theorem counterMatchesSite_iff {site : CkProfileSiteDescriptor} {record : CkProfileCounterRecord} :
    (site.id = record.siteId ∧ counterMatchesSite record.counter site.kind = true) ↔
      record.shape = site.shape := by
  obtain ⟨id, functionDigest, location, kind⟩ := site
  obtain ⟨siteId, counter⟩ := record
  cases kind <;> cases counter <;>
    simp [counterMatchesSite, CkProfileCounterRecord.shape, CkProfileSiteDescriptor.shape,
      CkProfileCounter.shape, CkProfileCounter.tag, CkProfileCounter.cells, eq_comm]

/-! ## Adding two counters -/

theorem saturatingAdd_toNat (a b : UInt64) :
    (saturatingAdd a b).1.toNat = min (2 ^ 64 - 1) (a.toNat + b.toNat) := by
  unfold saturatingAdd
  split
  · rename_i h
    rw [UInt64.toNat_add, Nat.mod_eq_of_lt h]
    omega
  · rename_i h
    change 2 ^ 64 - 1 = _
    omega

theorem saturatingAdd_overflowed (a b : UInt64) :
    (saturatingAdd a b).2 = true ↔ 2 ^ 64 - 1 < a.toNat + b.toNat := by
  unfold saturatingAdd
  split
  · rename_i h
    simp only [Bool.false_eq_true, false_iff]
    omega
  · rename_i h
    simp only [true_iff]
    omega

/-- Sums of two rows of one length, cell by cell. -/
theorem addCells_cell {a b : List UInt64} (hlen : a.length = b.length) (j : Nat) :
    ((addCells a b).1[j]?.getD 0).toNat =
      min (2 ^ 64 - 1) ((a[j]?.getD 0).toNat + (b[j]?.getD 0).toNat) := by
  unfold addCells
  simp only [List.getElem?_map, List.getElem?_zipWith]
  by_cases hj : j < a.length
  · have hj' : j < b.length := by omega
    simp [hj, hj', saturatingAdd_toNat]
  · have hj' : ¬ j < b.length := by omega
    simp [hj, hj']

theorem addCells_overflowed {a b : List UInt64} (hlen : a.length = b.length) :
    (addCells a b).2 = true ↔
      ∃ j : Nat, 2 ^ 64 - 1 < (a[j]?.getD 0).toNat + (b[j]?.getD 0).toNat := by
  unfold addCells
  rw [List.any_eq_true]
  constructor
  · rintro ⟨sum, hsum, hover⟩
    obtain ⟨j, hj, rfl⟩ := List.mem_iff_getElem.mp hsum
    rw [List.length_zipWith] at hj
    rw [List.getElem_zipWith, saturatingAdd_overflowed] at hover
    refine ⟨j, ?_⟩
    have hja : j < a.length := by omega
    have hjb : j < b.length := by omega
    simpa [hja, hjb] using hover
  · rintro ⟨j, hover⟩
    by_cases hj : j < a.length
    · have hjb : j < b.length := by omega
      have hjz : j < (List.zipWith saturatingAdd a b).length := by
        rw [List.length_zipWith]
        omega
      refine ⟨_, List.getElem_mem hjz, ?_⟩
      rw [List.getElem_zipWith, saturatingAdd_overflowed]
      simpa [hj, hjb] using hover
    · have hjb : ¬ j < b.length := by omega
      simp [hj, hjb] at hover

theorem addCells_length {a b : List UInt64} (hlen : a.length = b.length) :
    (addCells a b).1.length = a.length := by
  simp [addCells, hlen]

theorem addCells_append {a b a' b' : List UInt64} (hlen : a.length = b.length) :
    addCells (a ++ a') (b ++ b') =
      ((addCells a b).1 ++ (addCells a' b').1, (addCells a b).2 || (addCells a' b').2) := by
  simp [addCells, List.zipWith_append hlen]

/-- Counters of one shape are added cell by cell. -/
theorem addCounter_of_shape {a b : CkProfileCounter} (h : a.shape = b.shape) :
    ∃ counter overflowed, addCounter a b = .ok (counter, overflowed) ∧ counter.tag = a.tag ∧
      addCells a.cells b.cells = (counter.cells, overflowed) ∧
      (a.tag ≠ 1 → counter.flag = (a.flag || (b.flag || overflowed))) := by
  cases a with
  | scalar target =>
      cases b with
      | scalar input =>
          refine ⟨_, _, rfl, rfl, ?_, ?_⟩
          · simp [addCells, CkProfileCounter.cells]
          · intro hne
            exact absurd rfl hne
      | _ => simp [CkProfileCounter.shape, CkProfileCounter.tag] at h
  | histogram target targetSaturated =>
      cases b with
      | histogram input inputSaturated =>
          refine ⟨_, _, rfl, rfl, ?_, fun _ ↦ rfl⟩
          simp only [addCells, CkProfileCounter.cells, Vector.toList_map, Vector.toList_zipWith]
      | _ => simp [CkProfileCounter.shape, CkProfileCounter.tag] at h
  | candidateConstant target targetOther targetSaturated =>
      cases b with
      | candidateConstant input inputOther inputSaturated =>
          have hlen : target.length = input.length := by
            simpa [CkProfileCounter.shape, CkProfileCounter.tag, CkProfileCounter.cells] using h
          refine ⟨_, _, if_pos hlen, rfl, ?_, fun _ ↦ rfl⟩
          simp only [CkProfileCounter.cells]
          rw [addCells_append hlen]
          simp [addCells]
      | _ => simp [CkProfileCounter.shape, CkProfileCounter.tag] at h

theorem addCounter_cell {a b counter : CkProfileCounter} {overflowed : Bool}
    (h : a.shape = b.shape) (hcells : addCells a.cells b.cells = (counter.cells, overflowed)) :
    counter.cells.length = a.cells.length ∧
      (∀ j, counter.cell j = min (2 ^ 64 - 1) (a.cell j + b.cell j)) ∧
      (overflowed = true ↔ ∃ j, 2 ^ 64 - 1 < a.cell j + b.cell j) := by
  have hlen : a.cells.length = b.cells.length := congrArg Prod.snd h
  refine ⟨?_, ?_, ?_⟩
  · have := addCells_length hlen
    rwa [hcells] at this
  · intro j
    have := addCells_cell hlen j
    rwa [hcells] at this
  · have := addCells_overflowed hlen
    rwa [hcells] at this

/-! ## Tables -/

/-- The `j`-th cell of the `i`-th counter, zero if there is none. -/
def cellAt (counters : List CkProfileCounterRecord) (i j : Nat) : Nat :=
  counters[i]?.elim 0 (·.counter.cell j)

def flagAt (counters : List CkProfileCounterRecord) (i : Nat) : Bool :=
  counters[i]?.any (·.counter.flag)

def scalarAt (counters : List CkProfileCounterRecord) (i : Nat) : Bool :=
  counters[i]?.any (·.counter.tag = 1)

def tableShape (counters : List CkProfileCounterRecord) : List (CkProfileSiteId × UInt8 × Nat) :=
  counters.map (·.shape)

@[simp] theorem cellAt_nil (i j : Nat) : cellAt [] i j = 0 := rfl
@[simp] theorem cellAt_zero (r : CkProfileCounterRecord) (l : List CkProfileCounterRecord)
    (j : Nat) : cellAt (r :: l) 0 j = r.counter.cell j := rfl
@[simp] theorem cellAt_succ (r : CkProfileCounterRecord) (l : List CkProfileCounterRecord)
    (i j : Nat) : cellAt (r :: l) (i + 1) j = cellAt l i j := rfl
@[simp] theorem flagAt_nil (i : Nat) : flagAt [] i = false := rfl
@[simp] theorem flagAt_zero (r : CkProfileCounterRecord) (l : List CkProfileCounterRecord) :
    flagAt (r :: l) 0 = r.counter.flag := rfl
@[simp] theorem flagAt_succ (r : CkProfileCounterRecord) (l : List CkProfileCounterRecord)
    (i : Nat) : flagAt (r :: l) (i + 1) = flagAt l i := rfl
@[simp] theorem scalarAt_nil (i : Nat) : scalarAt [] i = false := rfl
@[simp] theorem scalarAt_zero (r : CkProfileCounterRecord) (l : List CkProfileCounterRecord) :
    scalarAt (r :: l) 0 = decide (r.counter.tag = 1) := rfl
@[simp] theorem scalarAt_succ (r : CkProfileCounterRecord) (l : List CkProfileCounterRecord)
    (i : Nat) : scalarAt (r :: l) (i + 1) = scalarAt l i := rfl

theorem cellAt_le (counters : List CkProfileCounterRecord) (i j : Nat) :
    cellAt counters i j ≤ 2 ^ 64 - 1 := by
  unfold cellAt
  cases counters[i]? with
  | none => exact Nat.zero_le _
  | some record => exact record.counter.cell_le j

/-- What adding two tables yields. -/
structure AddsTo (a b c : List CkProfileCounterRecord) (overflowed : Bool) : Prop where
  shape : tableShape c = tableShape a
  cell : ∀ i j, cellAt c i j = min (2 ^ 64 - 1) (cellAt a i j + cellAt b i j)
  flag : ∀ i, scalarAt a i = false → (flagAt c i = true ↔
    flagAt a i = true ∨ flagAt b i = true ∨ ∃ j, 2 ^ 64 - 1 < cellAt a i j + cellAt b i j)
  overflow : overflowed = true ↔ ∃ i j, 2 ^ 64 - 1 < cellAt a i j + cellAt b i j

/-- Tables of one shape are added, cell by cell. -/
theorem addRecords_of_shape {a b : List CkProfileCounterRecord} (h : tableShape a = tableShape b) :
    ∃ c overflowed, addRecords a b = .ok (c, overflowed) ∧ AddsTo a b c overflowed := by
  induction a generalizing b with
  | nil =>
      obtain rfl : b = [] := by simpa [tableShape, eq_comm] using h
      exact ⟨[], false, rfl, ⟨rfl, by simp, by simp, by simp⟩⟩
  | cons target aggregate ih =>
      cases b with
      | nil => simp [tableShape] at h
      | cons input observed =>
          simp only [tableShape, List.map_cons, List.cons.injEq] at h
          have hsite : target.siteId = input.siteId := congrArg Prod.fst h.1
          have hshape : target.counter.shape = input.counter.shape := congrArg Prod.snd h.1
          obtain ⟨counter, overflowed, hadd, htag, hcells, hflag⟩ := addCounter_of_shape hshape
          obtain ⟨hlen, hcell, hover⟩ := addCounter_cell hshape hcells
          obtain ⟨rest, overflowed', hrest, hadds⟩ := ih h.2
          refine ⟨⟨target.siteId, counter⟩ :: rest, overflowed || overflowed', ?_, ?_, ?_, ?_, ?_⟩
          · rw [addRecords, if_neg (not_not.mpr hsite), hadd]
            change (addRecords aggregate observed >>= _) = _
            rw [hrest]
            rfl
          · have htail : rest.map (·.shape) = aggregate.map (·.shape) := hadds.shape
            have hhead : (⟨target.siteId, counter⟩ : CkProfileCounterRecord).shape = target.shape := by
              simp [CkProfileCounterRecord.shape, CkProfileCounter.shape, htag, hlen]
            rw [tableShape, List.map_cons, hhead, htail]
            rfl
          · intro i j
            cases i with
            | zero => exact hcell j
            | succ i => exact hadds.cell i j
          · intro i hscalar
            cases i with
            | zero =>
                have htag' : target.counter.tag ≠ 1 := by simpa using hscalar
                simp only [flagAt_zero, cellAt_zero, hflag htag', Bool.or_eq_true, hover]
            | succ i => exact hadds.flag i hscalar
          · rw [Bool.or_eq_true, hover, hadds.overflow]
            constructor
            · rintro (⟨j, hj⟩ | ⟨i, j, hij⟩)
              · exact ⟨0, j, hj⟩
              · exact ⟨i + 1, j, hij⟩
            · rintro ⟨i, j, hij⟩
              cases i with
              | zero => exact .inl ⟨j, hij⟩
              | succ i => exact .inr ⟨i, j, hij⟩

theorem addCounterTables_of_shape {a b : List CkProfileCounterRecord} (overflowed : Bool)
    (h : tableShape a = tableShape b) :
    ∃ c overflowed', addCounterTables a b overflowed = .ok (c, overflowed || overflowed') ∧
      AddsTo a b c overflowed' := by
  obtain ⟨c, overflowed', hadd, hadds⟩ := addRecords_of_shape h
  have hlen : a.length = b.length := by
    have := congrArg List.length h
    simpa [tableShape] using this
  refine ⟨c, overflowed', ?_, hadds⟩
  rw [addCounterTables, if_neg (not_not.mpr hlen), hadd]
  rfl

end CalcKernel
