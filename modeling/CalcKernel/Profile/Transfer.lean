import CalcKernel.Profile.Merge
import Mathlib.Algebra.Order.BigOperators.Group.List

/-!
# Transferring counts

A rewrite that changes the sites comes with a record that says which old sites are summed
into which new one.  The record is untrusted: it has to be a partition of the sources over
the targets.
-/

namespace CalcKernel

open Lib

/-- One target site and the old sites summed into it. -/
structure CkProfileTransferEntry where
  target : CkProfileSiteId
  sources : List CkProfileSiteId
deriving DecidableEq, Repr

structure CkProfileMappingTransfer where
  sourceSiteTableDigest : Digest
  targetSiteTableDigest : Digest
  entries : List CkProfileTransferEntry
deriving DecidableEq, Repr

structure CkTransferredProfileCounter where
  siteId : CkProfileSiteId
  counter : Option CkProfileCounter
deriving DecidableEq, Repr

/-! ## Adding counters -/

/-- The sum of two cells, and whether it came to the maximum only now. -/
def addCellMarking (left right : UInt64) : UInt64 × Bool :=
  let sum := (saturatingAdd left right).1
  (sum, sum = u64Max ∧ left ≠ u64Max)

/-- `add_counter` of the transfer. -/
def addTransferredCounter : CkProfileCounter → CkProfileCounter →
    Except CkProfileError CkProfileCounter
  | .scalar left, .scalar right => .ok (.scalar (saturatingAdd left right).1)
  | .histogram left leftSaturated, .histogram right rightSaturated =>
      let sums := Vector.zipWith addCellMarking left right
      .ok (.histogram (sums.map (·.1))
        (leftSaturated || sums.toList.any (·.2) || rightSaturated))
  | .candidateConstant left leftOther leftSaturated,
      .candidateConstant right rightOther rightSaturated =>
      if left.length = right.length then
        let sums := List.zipWith addCellMarking left right
        let other := addCellMarking leftOther rightOther
        .ok (.candidateConstant (sums.map (·.1)) other.1
          (leftSaturated || sums.any (·.2) || other.2 || rightSaturated))
      else .error (.mappingTransfer "counter shape changed")
  | _, _ => .error (.mappingTransfer "counter shape changed")

/-! ## The transfer -/

/-- The counter of a site; of two records with one id the last. -/
def sourceCounter (counters : List CkProfileCounterRecord) (id : CkProfileSiteId) :
    Option CkProfileCounter :=
  (counters.reverse.map fun record ↦ (record.siteId, record.counter)).lookup id

def addAggregate (aggregate : Option CkProfileCounter) (counter : CkProfileCounter) :
    Except CkProfileError (Option CkProfileCounter) :=
  match aggregate with
  | none => .ok (some counter)
  | some value => (addTransferredCounter value counter).map some

/-- One source of an entry. -/
def addSource (source : CkProfileSiteId → Option CkProfileCounter)
    (state : List CkProfileSiteId × Option CkProfileCounter) (sourceId : CkProfileSiteId) :
    Except CkProfileError (List CkProfileSiteId × Option CkProfileCounter) :=
  if sourceId ∈ state.1 then .error (.mappingTransfer "source mapping is not one-use")
  else match source sourceId with
    | none => .error (.mappingTransfer "mapping names an unknown source")
    | some counter => do
        let aggregate ← addAggregate state.2 counter
        return (sourceId :: state.1, aggregate)

structure TransferState where
  seenSources : List CkProfileSiteId
  seenTargets : List CkProfileSiteId
  output : List CkTransferredProfileCounter
deriving DecidableEq, Repr

def TransferState.addEntry (source : CkProfileSiteId → Option CkProfileCounter)
    (targets : List CkProfileSiteId) (state : TransferState) (entry : CkProfileTransferEntry) :
    Except CkProfileError TransferState :=
  if entry.sources = [] ∨ entry.target ∉ targets ∨ entry.target ∈ state.seenTargets then
    .error (.mappingTransfer "target mapping is not closed")
  else do
    let (seenSources, aggregate) ← entry.sources.foldlM (addSource source)
      (state.seenSources, none)
    return {
      seenSources
      seenTargets := entry.target :: state.seenTargets
      output := state.output ++ [⟨entry.target, aggregate⟩] }

section Sha

variable (sha : List UInt8 → Digest)

def transferProfileCounts (sourceSites : List CkProfileSiteDescriptor)
    (sourceCounters : List CkProfileCounterRecord) (targetSites : List CkProfileSiteDescriptor)
    (transfer : Option CkProfileMappingTransfer) :
    Except CkProfileError (List CkTransferredProfileCounter) :=
  if sourceSites.length ≠ sourceCounters.length ∨
      (sourceSites.zip sourceCounters).any fun p ↦ p.1.id ≠ p.2.siteId then
    .error .counterTableMismatch
  else do
    let sourceDigest ← profileSiteTableDigest sha sourceSites
    let targetDigest ← profileSiteTableDigest sha targetSites
    match transfer with
    | none =>
        if sourceDigest = targetDigest ∧ sourceSites = targetSites then
          return sourceCounters.map fun record ↦ ⟨record.siteId, some record.counter⟩
        else return targetSites.map fun site ↦ ⟨site.id, none⟩
    | some transfer =>
        if transfer.sourceSiteTableDigest ≠ sourceDigest ∨
            transfer.targetSiteTableDigest ≠ targetDigest then
          .error (.mappingTransfer "site-table digest mismatch")
        else
          let targets := targetSites.map (·.id)
          let state ← transfer.entries.foldlM
            (TransferState.addEntry (sourceCounter sourceCounters) targets) ⟨[], [], []⟩
          if state.seenSources.length ≠ (sourceCounters.map (·.siteId)).dedup.length ∨
              ¬ (targets ⊆ state.seenTargets ∧ state.seenTargets ⊆ targets) then
            .error (.mappingTransfer "mapping is incomplete")
          else return state.output.insertionSort fun a b ↦ ¬ siteIdLess b.siteId a.siteId

end Sha

/-! ## Sums of counters -/

/-- The sum of the `j`-th cells. -/
def cellTotal (counters : List CkProfileCounter) (j : Nat) : Nat :=
  (counters.map (·.cell j)).sum

/-- Some cell is below the maximum in the first counter and comes to it in the end. -/
def Reaches (counters : List CkProfileCounter) : Prop :=
  ∃ j, ∃ first ∈ counters.head?, first.cell j < 2 ^ 64 - 1 ∧ 2 ^ 64 - 1 ≤ cellTotal counters j

/-- What adding up the counters in their order gives. -/
structure Combines (counters : List CkProfileCounter) (counter : CkProfileCounter) : Prop where
  shape : ∀ c ∈ counters, c.shape = counter.shape
  cell : ∀ j, counter.cell j = min (2 ^ 64 - 1) (cellTotal counters j)
  flag : counter.tag ≠ 1 → (counter.flag = true ↔
    (∃ c ∈ counters, c.flag = true) ∨ Reaches counters)

theorem addCellMarking_eq (left right : UInt64) :
    (addCellMarking left right).1 = (saturatingAdd left right).1 ∧
      ((addCellMarking left right).2 = true ↔
        left.toNat < 2 ^ 64 - 1 ∧ 2 ^ 64 - 1 ≤ left.toNat + right.toNat) := by
  refine ⟨rfl, ?_⟩
  have hmax : u64Max.toNat = 2 ^ 64 - 1 := rfl
  have hlt := left.toNat_lt
  have hsum := saturatingAdd_toNat left right
  simp only [addCellMarking, decide_eq_true_eq, ← UInt64.toNat_inj, hmax, ne_eq]
  omega

/-- The rows of two counters of one length. -/
theorem addCellMarking_any {a b : List UInt64} (hlen : a.length = b.length) :
    (List.zipWith addCellMarking a b).any (·.2) = true ↔ ∃ j : Nat,
      (a[j]?.getD 0).toNat < 2 ^ 64 - 1 ∧
        2 ^ 64 - 1 ≤ (a[j]?.getD 0).toNat + (b[j]?.getD 0).toNat := by
  rw [List.any_eq_true]
  constructor
  · rintro ⟨sum, hsum, hmarked⟩
    obtain ⟨j, hj, rfl⟩ := List.mem_iff_getElem.mp hsum
    rw [List.length_zipWith] at hj
    rw [List.getElem_zipWith, (addCellMarking_eq _ _).2] at hmarked
    have hja : j < a.length := by omega
    have hjb : j < b.length := by omega
    exact ⟨j, by simpa [hja, hjb] using hmarked⟩
  · rintro ⟨j, hmarked⟩
    by_cases hj : j < a.length
    · have hjb : j < b.length := by omega
      have hjz : j < (List.zipWith addCellMarking a b).length := by
        rw [List.length_zipWith]
        omega
      refine ⟨_, List.getElem_mem hjz, ?_⟩
      rw [List.getElem_zipWith, (addCellMarking_eq _ _).2]
      simpa [hj, hjb] using hmarked
    · have hjb : ¬ j < b.length := by omega
      simp [hj, hjb] at hmarked

theorem zipWith_addCellMarking_fst (a b : List UInt64) :
    (List.zipWith addCellMarking a b).map (·.1) = (addCells a b).1 := by
  simp only [addCells, List.map_zipWith]
  rfl

/-- Counters of one shape are added cell by cell. -/
theorem addTransferredCounter_of_shape {a b : CkProfileCounter} (h : a.shape = b.shape) :
    ∃ counter, addTransferredCounter a b = .ok counter ∧ counter.tag = a.tag ∧
      counter.cells = (addCells a.cells b.cells).1 ∧
      (a.tag ≠ 1 → (counter.flag = true ↔ a.flag = true ∨ b.flag = true ∨
        (List.zipWith addCellMarking a.cells b.cells).any (·.2) = true)) := by
  cases a with
  | scalar left =>
      cases b with
      | scalar right =>
          refine ⟨_, rfl, rfl, ?_, fun hne ↦ absurd rfl hne⟩
          simp [addCells, CkProfileCounter.cells]
      | _ => simp [CkProfileCounter.shape, CkProfileCounter.tag] at h
  | histogram left leftSaturated =>
      cases b with
      | histogram right rightSaturated =>
          refine ⟨_, rfl, rfl, ?_, fun _ ↦ ?_⟩
          · rw [← zipWith_addCellMarking_fst]
            simp only [CkProfileCounter.cells, Vector.toList_map, Vector.toList_zipWith]
          · simp only [CkProfileCounter.flag, CkProfileCounter.cells, Vector.toList_zipWith,
              Bool.or_eq_true]
            tauto
      | _ => simp [CkProfileCounter.shape, CkProfileCounter.tag] at h
  | candidateConstant left leftOther leftSaturated =>
      cases b with
      | candidateConstant right rightOther rightSaturated =>
          have hlen : left.length = right.length := by
            simpa [CkProfileCounter.shape, CkProfileCounter.tag, CkProfileCounter.cells] using h
          refine ⟨_, if_pos hlen, rfl, ?_, fun _ ↦ ?_⟩
          · rw [← zipWith_addCellMarking_fst]
            simp [CkProfileCounter.cells, List.zipWith_append hlen]
          · simp only [CkProfileCounter.flag, CkProfileCounter.cells, List.zipWith_append hlen,
              List.any_append, Bool.or_eq_true]
            simp only [List.zipWith_cons_cons, List.zipWith_nil_left, List.any_cons,
              List.any_nil, Bool.or_false]
            tauto
      | _ => simp [CkProfileCounter.shape, CkProfileCounter.tag] at h

theorem shape_of_addTransferredCounter {a b counter : CkProfileCounter}
    (h : addTransferredCounter a b = .ok counter) : a.shape = b.shape := by
  cases a <;> cases b <;> simp [addTransferredCounter] at h ⊢ <;>
    simp [CkProfileCounter.shape, CkProfileCounter.tag, CkProfileCounter.cells]
  split at h
  · assumption
  · cases h

/-- One counter alone. -/
theorem Combines.single (counter : CkProfileCounter) : Combines [counter] counter where
  shape := by simp
  cell j := by
    have hle := counter.cell_le j
    simp only [cellTotal, List.map_cons, List.map_nil, List.sum_cons, List.sum_nil]
    omega
  flag _ := by
    have hnot : ¬ Reaches [counter] := by
      rintro ⟨j, first, hfirst, hlow, hhigh⟩
      obtain rfl : counter = first := Option.some.inj hfirst
      simp only [cellTotal, List.map_cons, List.map_nil, List.sum_cons, List.sum_nil] at hhigh
      omega
    simp [hnot]

theorem cellTotal_append (counters : List CkProfileCounter) (counter : CkProfileCounter)
    (j : Nat) : cellTotal (counters ++ [counter]) j = cellTotal counters j + counter.cell j := by
  simp [cellTotal]

theorem cell_le_cellTotal {counters : List CkProfileCounter} {counter : CkProfileCounter}
    (h : counter ∈ counters) (j : Nat) : counter.cell j ≤ cellTotal counters j :=
  List.le_sum_of_mem (List.mem_map.mpr ⟨counter, h, rfl⟩)

/-- One more counter of the same shape. -/
theorem Combines.add {counters : List CkProfileCounter} {value counter : CkProfileCounter}
    (h : Combines counters value) (hne : counters ≠ []) (hshape : value.shape = counter.shape) :
    ∃ sum, addTransferredCounter value counter = .ok sum ∧ Combines (counters ++ [counter]) sum := by
  obtain ⟨sum, hsum, htag, hcells, hflag⟩ := addTransferredCounter_of_shape hshape
  have hlen : value.cells.length = counter.cells.length := congrArg Prod.snd hshape
  have hlength : sum.cells.length = value.cells.length := by
    rw [hcells, addCells_length hlen]
  have hsame : sum.shape = value.shape := by
    rw [CkProfileCounter.shape, CkProfileCounter.shape, htag, hlength]
  have hcell : ∀ j, sum.cell j = min (2 ^ 64 - 1) (value.cell j + counter.cell j) := by
    intro j
    rw [CkProfileCounter.cell, hcells]
    exact addCells_cell hlen j
  obtain ⟨first, tail, rfl⟩ := List.exists_cons_of_ne_nil hne
  have hmarked : (List.zipWith addCellMarking value.cells counter.cells).any (·.2) = true ↔
      ∃ j, cellTotal (first :: tail) j < 2 ^ 64 - 1 ∧
        2 ^ 64 - 1 ≤ cellTotal (first :: tail) j + counter.cell j := by
    rw [addCellMarking_any hlen]
    apply exists_congr
    intro j
    change value.cell j < _ ∧ _ ≤ value.cell j + counter.cell j ↔ _
    rw [h.cell j]
    omega
  have hreaches : Reaches (first :: tail ++ [counter]) ↔ Reaches (first :: tail) ∨
      ∃ j, cellTotal (first :: tail) j < 2 ^ 64 - 1 ∧
        2 ^ 64 - 1 ≤ cellTotal (first :: tail) j + counter.cell j := by
    have hmem : ∀ l : List CkProfileCounter, Reaches (first :: l) ↔
        ∃ j, first.cell j < 2 ^ 64 - 1 ∧ 2 ^ 64 - 1 ≤ cellTotal (first :: l) j := by
      intro l
      simp [Reaches]
    rw [List.cons_append, hmem, hmem, ← exists_or]
    apply exists_congr
    intro j
    rw [← List.cons_append, cellTotal_append]
    have hle := cell_le_cellTotal (List.mem_cons_self (a := first) (l := tail)) j
    omega
  refine ⟨sum, hsum, ?_, ?_, ?_⟩
  · intro c hc
    rw [hsame]
    rcases List.mem_append.mp hc with hc | hc
    · exact h.shape c hc
    · obtain rfl := List.mem_singleton.mp hc
      exact hshape.symm
  · intro j
    rw [hcell, h.cell j, cellTotal_append]
    omega
  · intro hscalar
    rw [htag] at hscalar
    rw [hflag hscalar, h.flag hscalar, hmarked, hreaches]
    have hflags : (∃ c ∈ first :: tail ++ [counter], c.flag = true) ↔
        (∃ c ∈ first :: tail, c.flag = true) ∨ counter.flag = true := by
      simp [or_and_right, exists_or, or_assoc]
    rw [hflags]
    exact or_or_or_comm

theorem Combines.unique {counters : List CkProfileCounter} {a b : CkProfileCounter}
    (ha : Combines counters a) (hb : Combines counters b) (hne : counters ≠ []) : a = b := by
  obtain ⟨first, tail, rfl⟩ := List.exists_cons_of_ne_nil hne
  have hshape : a.shape = b.shape :=
    (ha.shape first List.mem_cons_self).symm.trans (hb.shape first List.mem_cons_self)
  have htag : a.tag = b.tag := congrArg Prod.fst hshape
  have hlen : a.cells.length = b.cells.length := congrArg Prod.snd hshape
  apply CkProfileCounter.ext_cells hshape
  · apply List.ext_getElem hlen
    intro j hj hj'
    apply UInt64.toNat_inj.mp
    have hcell : a.cell j = b.cell j := (ha.cell j).trans (hb.cell j).symm
    simpa [CkProfileCounter.cell, hj, hj'] using hcell
  · by_cases hscalar : a.tag = 1
    · have hnone : ∀ c : CkProfileCounter, c.tag = 1 → c.flag = false := by
        intro c hc
        cases c with
        | scalar value => rfl
        | histogram buckets saturated => cases hc
        | candidateConstant candidates other saturated => cases hc
      rw [hnone a hscalar, hnone b (htag ▸ hscalar)]
    · rw [Bool.eq_iff_iff, ha.flag hscalar, hb.flag (htag ▸ hscalar)]

/-- Counters of one shape have a sum. -/
theorem exists_combines {counters : List CkProfileCounter} {shape : UInt8 × Nat}
    (hne : counters ≠ []) (h : ∀ c ∈ counters, c.shape = shape) :
    ∃ sum, Combines counters sum := by
  induction counters using List.reverseRecOn with
  | nil => exact absurd rfl hne
  | append_singleton counters counter ih =>
      by_cases hnil : counters = []
      · subst hnil
        exact ⟨counter, .single counter⟩
      · obtain ⟨value, hvalue⟩ := ih hnil fun c hc ↦ h c (List.mem_append_left _ hc)
        have hshape : value.shape = counter.shape := by
          obtain ⟨first, tail, rfl⟩ := List.exists_cons_of_ne_nil hnil
          rw [← hvalue.shape first List.mem_cons_self, h first (by simp), h counter (by simp)]
        obtain ⟨sum, _, hsum⟩ := hvalue.add hnil hshape
        exact ⟨sum, hsum⟩

/-- Adding up a list from nothing. -/
theorem addAggregate_last (aggregate : Option CkProfileCounter) (counter : CkProfileCounter) :
    [counter].foldlM addAggregate aggregate = addAggregate aggregate counter := by
  rw [List.foldlM_cons]
  exact bind_pure _

theorem addAggregates_eq_ok {counters : List CkProfileCounter} (hne : counters ≠ [])
    {aggregate : Option CkProfileCounter} :
    counters.foldlM addAggregate none = .ok aggregate ↔
      ∃ sum, aggregate = some sum ∧ Combines counters sum := by
  induction counters using List.reverseRecOn generalizing aggregate with
  | nil => exact absurd rfl hne
  | append_singleton counters counter ih =>
      rw [List.foldlM_append, bind_eq_ok]
      simp only [addAggregate_last]
      by_cases hnil : counters = []
      · subst hnil
        constructor
        · rintro ⟨_, hstart, hadd⟩
          cases hstart
          cases hadd
          exact ⟨counter, rfl, .single counter⟩
        · rintro ⟨sum, rfl, hsum⟩
          obtain rfl := hsum.unique (.single counter) hne
          exact ⟨none, rfl, rfl⟩
      · constructor
        · rintro ⟨before, hbefore, hadd⟩
          obtain ⟨value, rfl, hvalue⟩ := (ih hnil).mp hbefore
          cases hsum : addTransferredCounter value counter with
          | error e =>
              rw [addAggregate, hsum] at hadd
              cases hadd
          | ok sum =>
              rw [addAggregate, hsum] at hadd
              cases hadd
              obtain ⟨sum', hsum', hcombines⟩ :=
                hvalue.add hnil (shape_of_addTransferredCounter hsum)
              rw [hsum] at hsum'
              cases hsum'
              exact ⟨sum, rfl, hcombines⟩
        · rintro ⟨sum, rfl, hsum⟩
          -- counters of one shape can always be added
          obtain ⟨value, hvalue⟩ := exists_combines hnil fun c hc ↦
            hsum.shape c (List.mem_append_left _ hc)
          have hshape : value.shape = counter.shape := by
            obtain ⟨first, tail, rfl⟩ := List.exists_cons_of_ne_nil hnil
            rw [← hvalue.shape first List.mem_cons_self, hsum.shape first (by simp),
              hsum.shape counter (by simp)]
          obtain ⟨sum', hsum', hcombines⟩ := hvalue.add hnil hshape
          obtain rfl := hsum.unique hcombines hne
          refine ⟨some value, (ih hnil).mpr ⟨value, rfl, hvalue⟩, ?_⟩
          rw [addAggregate, hsum']
          rfl

/-! ## Sums in another order -/

/-- The sum does not depend on the order, and a cell beyond the maximum is reported. -/
structure Steady (counters : List CkProfileCounter) : Prop where
  order : ∀ others, others.Perm counters → ∀ sum sum', Combines counters sum →
    Combines others sum' → sum = sum'
  saturated : ∀ sum, Combines counters sum → ∀ j, 2 ^ 64 - 1 < cellTotal counters j →
    sum.isSaturated = true

/-- One of several counters, none of them flagged, is at the maximum in some cells, and it alone
brings these and no other cells to the maximum. -/
def Hides (counters : List CkProfileCounter) : Prop :=
  2 ≤ counters.length ∧ (∀ c ∈ counters, c.tag ≠ 1 ∧ c.flag = false) ∧
    ∃ c ∈ counters, (∃ j, c.cell j = 2 ^ 64 - 1) ∧
      ∀ j, c.cell j < 2 ^ 64 - 1 → cellTotal counters j < 2 ^ 64 - 1

theorem cellTotal_perm {counters others : List CkProfileCounter} (h : others.Perm counters)
    (j : Nat) : cellTotal others j = cellTotal counters j :=
  (h.map _).sum_nat

/-- Unless a maximum is hidden, every order meets every cell that comes to the maximum. -/
theorem reaches_iff {counters others : List CkProfileCounter} (hperm : others.Perm counters)
    (hlength : 2 ≤ counters.length) (hflags : ∀ c ∈ counters, c.tag ≠ 1 ∧ c.flag = false)
    (hides : ¬ Hides counters) :
    Reaches others ↔ ∃ j, 2 ^ 64 - 1 ≤ cellTotal counters j := by
  constructor
  · rintro ⟨j, _, _, _, hhigh⟩
    exact ⟨j, (cellTotal_perm hperm j) ▸ hhigh⟩
  · rintro ⟨j, hhigh⟩
    have hne : others ≠ [] := by
      rintro rfl
      rw [← hperm.length_eq] at hlength
      exact absurd hlength (by decide)
    obtain ⟨first, tail, rfl⟩ := List.exists_cons_of_ne_nil hne
    by_cases hlow : first.cell j < 2 ^ 64 - 1
    · exact ⟨j, first, rfl, hlow, (cellTotal_perm hperm j).symm ▸ hhigh⟩
    · have hmax : first.cell j = 2 ^ 64 - 1 := by
        have hle := first.cell_le j
        omega
      obtain ⟨j', hlow', hhigh'⟩ : ∃ j', first.cell j' < 2 ^ 64 - 1 ∧
          2 ^ 64 - 1 ≤ cellTotal counters j' := by
        by_contra hnone
        push Not at hnone
        exact hides ⟨hlength, hflags, first, hperm.mem_iff.mp List.mem_cons_self, ⟨j, hmax⟩,
          hnone⟩
      exact ⟨j', first, rfl, hlow', (cellTotal_perm hperm j').symm ▸ hhigh'⟩

theorem Combines.tag {counters : List CkProfileCounter} {sum c : CkProfileCounter}
    (h : Combines counters sum) (hc : c ∈ counters) : c.tag = sum.tag :=
  congrArg Prod.fst (h.shape c hc)

theorem isSaturated_of_flag {c : CkProfileCounter} (htag : c.tag ≠ 1) :
    c.isSaturated = c.flag := by
  cases c with
  | scalar value => exact absurd rfl htag
  | histogram buckets saturated => rfl
  | candidateConstant candidates other saturated => rfl

theorem isSaturated_scalar {c : CkProfileCounter} (htag : c.tag = 1) {j : Nat}
    (h : c.cell j = 2 ^ 64 - 1) : c.isSaturated = true := by
  cases c with
  | scalar value =>
      cases j with
      | zero =>
          have hvalue : value = u64Max := UInt64.toNat_inj.mp h
          simp [CkProfileCounter.isSaturated, hvalue]
      | succ j => exact absurd h (by simp [CkProfileCounter.cell, CkProfileCounter.cells])
  | histogram buckets saturated => cases htag
  | candidateConstant candidates other saturated => cases htag

theorem steady_of_not_hides {counters : List CkProfileCounter} (hne : counters ≠ [])
    (hides : ¬ Hides counters) : Steady counters := by
  have hmany : ∀ sum, Combines counters sum → sum.tag ≠ 1 →
      (∀ c ∈ counters, c.flag ≠ true) → 2 ≤ counters.length →
      ∀ others, others.Perm counters → (Reaches others ↔ ∃ j, 2 ^ 64 - 1 ≤ cellTotal counters j) := by
    intro sum hsum htag hflags hlength others hperm
    apply reaches_iff hperm hlength _ hides
    intro c hc
    exact ⟨(hsum.tag hc).symm ▸ htag, Bool.eq_false_of_not_eq_true (hflags c hc)⟩
  refine ⟨?_, ?_⟩
  · intro others hperm sum sum' hsum hsum'
    obtain ⟨first, tail, rfl⟩ := List.exists_cons_of_ne_nil hne
    by_cases hlength : 2 ≤ (first :: tail).length
    · have hshape : sum.shape = sum'.shape :=
        (hsum.shape first List.mem_cons_self).symm.trans
          (hsum'.shape first (hperm.mem_iff.mpr List.mem_cons_self))
      have hbetter : Combines (first :: tail) sum' := by
        refine ⟨fun c hc ↦ hsum'.shape c (hperm.mem_iff.mpr hc), fun j ↦ ?_, fun htag ↦ ?_⟩
        · rw [hsum'.cell j, cellTotal_perm hperm]
        · have hsameTag : sum.tag = sum'.tag := congrArg Prod.fst hshape
          have htag' : sum.tag ≠ 1 := hsameTag ▸ htag
          rw [hsum'.flag htag]
          have hsame : (∃ c ∈ others, c.flag = true) ↔ ∃ c ∈ first :: tail, c.flag = true := by
            simp only [hperm.mem_iff]
          rw [hsame]
          by_cases hflag : ∃ c ∈ first :: tail, c.flag = true
          · simp only [hflag, true_or]
          · push Not at hflag
            rw [hmany sum hsum htag' hflag hlength others hperm,
              hmany sum hsum htag' hflag hlength _ (.refl _)]
      exact hsum.unique hbetter hne
    · obtain rfl : tail = [] := by
        rw [List.length_cons] at hlength
        exact List.length_eq_zero_iff.mp (by omega)
      obtain rfl := List.perm_singleton.mp hperm
      exact hsum.unique hsum' hne
  · intro sum hsum j hover
    have hcell := hsum.cell j
    by_cases htag : sum.tag = 1
    · exact isSaturated_scalar htag (j := j) (by omega)
    · rw [isSaturated_of_flag htag, hsum.flag htag]
      by_cases hflag : ∃ c ∈ counters, c.flag = true
      · exact .inl hflag
      · push Not at hflag
        have hlength : 2 ≤ counters.length := by
          by_contra hshort
          obtain ⟨first, tail, rfl⟩ := List.exists_cons_of_ne_nil hne
          obtain rfl : tail = [] := by
            rw [List.length_cons] at hshort
            exact List.length_eq_zero_iff.mp (by omega)
          have hle := first.cell_le j
          simp only [cellTotal, List.map_cons, List.map_nil, List.sum_cons, List.sum_nil] at hover
          omega
        right
        rw [hmany sum hsum htag hflag hlength _ (.refl _)]
        exact ⟨j, hover.le⟩

theorem not_steady_of_hides {counters : List CkProfileCounter} {sum : CkProfileCounter}
    (hsum : Combines counters sum) (hides : Hides counters) : ¬ Steady counters := by
  intro hsteady
  obtain ⟨hlength, hflags, c, hc, ⟨j, hmax⟩, hlow⟩ := hides
  -- the hidden counter first, then another one
  obtain ⟨t, rest, hperm⟩ : ∃ t rest, (c :: t :: rest).Perm counters := by
    have herase := List.perm_cons_erase hc
    cases htail : counters.erase c with
    | nil =>
        rw [htail] at herase
        rw [herase.length_eq, List.length_singleton] at hlength
        omega
    | cons t rest => exact ⟨t, rest, htail ▸ herase.symm⟩
  have hsum_of : ∀ others : List CkProfileCounter, others.Perm counters → others ≠ [] →
      Combines others sum := by
    intro others hothers hne
    obtain ⟨sum', hsum'⟩ := exists_combines hne fun d hd ↦ hsum.shape d (hothers.mem_iff.mp hd)
    obtain rfl := hsteady.order others hothers sum sum' hsum hsum'
    exact hsum'
  have htag : sum.tag ≠ 1 := hsum.tag hc ▸ (hflags c hc).1
  have hnone : ∀ others : List CkProfileCounter, others.Perm counters →
      ¬ ∃ d ∈ others, d.flag = true := by
    rintro others hothers ⟨d, hd, hflag⟩
    rw [(hflags d (hothers.mem_iff.mp hd)).2] at hflag
    cases hflag
  have hunflagged : ¬ sum.flag = true := by
    rw [(hsum_of _ hperm (List.cons_ne_nil _ _)).flag htag]
    rintro (hflag | ⟨j', first, hfirst, hbelow, hhigh⟩)
    · exact hnone _ hperm hflag
    · obtain rfl : c = first := Option.some.inj hfirst
      rw [cellTotal_perm hperm] at hhigh
      have hlow' := hlow j' hbelow
      omega
  have htotal : cellTotal counters j = c.cell j + (t.cell j + cellTotal rest j) := by
    rw [← cellTotal_perm hperm]
    rfl
  by_cases ht : t.cell j = 0
  · apply hunflagged
    have hswap : (t :: c :: rest).Perm counters := (List.Perm.swap c t rest).trans hperm
    rw [(hsum_of _ hswap (List.cons_ne_nil _ _)).flag htag]
    refine .inr ⟨j, t, rfl, by omega, ?_⟩
    rw [cellTotal_perm hswap, htotal]
    omega
  · apply hunflagged
    rw [← isSaturated_of_flag htag]
    exact hsteady.saturated sum hsum j (by omega)

end CalcKernel
