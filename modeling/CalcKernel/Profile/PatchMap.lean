import CalcKernel.Profile.Generation

/-!
# Where the collector writes

Each counter record is a head, the cells and, unless it is a scalar, a saturation byte.  The
computed offsets are the positions of the cells and of these bytes in the encoded table.
-/

namespace CalcKernel

open Lib

/-! ## The parts of a record -/

namespace CkProfileCounter

/-- The bytes of a record before the first cell. -/
def cellStart : CkProfileCounter → Nat
  | .scalar _ | .histogram _ _ => 17
  | .candidateConstant _ _ _ => 18

/-- The bytes after the last cell. -/
def trailer : CkProfileCounter → List UInt8
  | .scalar _ => []
  | .histogram _ saturated | .candidateConstant _ _ saturated => boolByte saturated

/-- The saturation byte of a record that starts at a position. -/
def saturationOffset (wire : Nat) (counter : CkProfileCounter) : Nat :=
  if counter.tag = 1 then ckProfileNoWireOffset
  else wire + counter.cellStart + 8 * counter.cells.length

/-- Other cells in a counter of the same shape. -/
def fill (cells : List UInt64) : CkProfileCounter → CkProfileCounter
  | .scalar _ => .scalar (cells.headD 0)
  | .histogram _ saturated => .histogram (.ofFn fun i ↦ cells.getD i 0) saturated
  | .candidateConstant candidates _ saturated =>
      .candidateConstant (cells.take candidates.length) (cells.getD candidates.length 0) saturated

/-- Another saturation mark. -/
def mark (saturated : Bool) : CkProfileCounter → CkProfileCounter
  | .scalar value => .scalar value
  | .histogram buckets _ => .histogram buckets saturated
  | .candidateConstant candidates other _ => .candidateConstant candidates other saturated

@[simp] theorem mark_cells (saturated : Bool) (counter : CkProfileCounter) :
    (counter.mark saturated).cells = counter.cells := by
  cases counter <;> rfl

@[simp] theorem mark_cellStart (saturated : Bool) (counter : CkProfileCounter) :
    (counter.mark saturated).cellStart = counter.cellStart := by
  cases counter <;> rfl

theorem mark_trailer_length (saturated : Bool) (counter : CkProfileCounter) :
    (counter.mark saturated).trailer.length = counter.trailer.length := by
  cases counter <;> rfl

@[simp] theorem mark_tag (saturated : Bool) (counter : CkProfileCounter) :
    (counter.mark saturated).tag = counter.tag := by
  cases counter <;> rfl

theorem mark_flag (saturated : Bool) {counter : CkProfileCounter} (h : counter.tag ≠ 1) :
    (counter.mark saturated).flag = saturated := by
  cases counter with
  | scalar value => exact absurd rfl h
  | _ => rfl

theorem mark_of_scalar {saturated : Bool} {counter : CkProfileCounter} (h : counter.tag = 1) :
    counter.mark saturated = counter := by
  cases counter with
  | scalar value => rfl
  | histogram buckets flag => cases h
  | candidateConstant candidates other flag => cases h

theorem trailer_eq {counter : CkProfileCounter} (h : counter.tag ≠ 1) :
    counter.trailer = boolByte counter.flag := by
  cases counter with
  | scalar value => exact absurd rfl h
  | _ => rfl

@[simp] theorem fill_tag (cells : List UInt64) (counter : CkProfileCounter) :
    (counter.fill cells).tag = counter.tag := by
  cases counter <;> simp only [fill, tag]

@[simp] theorem fill_cellStart (cells : List UInt64) (counter : CkProfileCounter) :
    (counter.fill cells).cellStart = counter.cellStart := by
  cases counter <;> simp only [fill, cellStart]

@[simp] theorem fill_trailer (cells : List UInt64) (counter : CkProfileCounter) :
    (counter.fill cells).trailer = counter.trailer := by
  cases counter <;> simp only [fill, trailer]

theorem fill_cells {cells : List UInt64} {counter : CkProfileCounter}
    (h : cells.length = counter.cells.length) : (counter.fill cells).cells = cells := by
  cases counter with
  | scalar value =>
      obtain ⟨cell, rfl⟩ := List.length_eq_one_iff.mp h
      rfl
  | histogram buckets saturated =>
      have hlen : cells.length = 16 := by simpa [CkProfileCounter.cells] using h
      apply List.ext_getElem
      · simp [fill, CkProfileCounter.cells, hlen]
      · intro i hi hi'
        simp [fill, CkProfileCounter.cells, hi']
  | candidateConstant candidates other saturated =>
      have hlen : cells.length = candidates.length + 1 := by
        simpa [CkProfileCounter.cells] using h
      have hlast : candidates.length < cells.length := by omega
      have hdrop : cells.drop candidates.length = [cells[candidates.length]] := by
        rw [List.drop_eq_getElem_cons hlast, List.drop_eq_nil_of_le (by omega)]
      calc (fill cells (.candidateConstant candidates other saturated)).cells
          = cells.take candidates.length ++ [cells[candidates.length]] := by
            simp [fill, CkProfileCounter.cells, hlast]
        _ = cells := by rw [← hdrop, List.take_append_drop]

end CkProfileCounter

namespace CkProfileCounterRecord

/-- The bytes before the first cell. -/
def head (record : CkProfileCounterRecord) : List UInt8 :=
  record.siteId.toList ++ [record.counter.tag] ++ match record.counter with
    | .candidateConstant candidates _ _ => [UInt8.ofNat candidates.length]
    | _ => []

theorem bytes_eq (record : CkProfileCounterRecord) :
    record.bytes = record.head ++ record.counter.cells.flatMap u64Bytes ++ record.counter.trailer := by
  obtain ⟨siteId, counter⟩ := record
  cases counter <;>
    simp [bytes, head, CkProfileCounter.payload, CkProfileCounter.cells, CkProfileCounter.trailer]

theorem head_length (record : CkProfileCounterRecord) :
    record.head.length = record.counter.cellStart := by
  obtain ⟨siteId, counter⟩ := record
  cases counter <;> simp [head, CkProfileCounter.cellStart]

def fill (record : CkProfileCounterRecord) (cells : List UInt64) : CkProfileCounterRecord :=
  ⟨record.siteId, record.counter.fill cells⟩

def mark (record : CkProfileCounterRecord) (saturated : Bool) : CkProfileCounterRecord :=
  ⟨record.siteId, record.counter.mark saturated⟩

theorem fill_head {record : CkProfileCounterRecord} {cells : List UInt64}
    (h : cells.length = record.counter.cells.length) : (record.fill cells).head = record.head := by
  obtain ⟨siteId, counter⟩ := record
  cases counter with
  | candidateConstant candidates other saturated =>
      have hlen : candidates.length ≤ cells.length := by
        simp only [CkProfileCounter.cells, List.length_append, List.length_singleton] at h
        omega
      simp [head, fill, CkProfileCounter.fill, CkProfileCounter.tag, hlen]
  | scalar | histogram => simp only [head, fill, CkProfileCounter.fill, CkProfileCounter.tag]

theorem mark_head (record : CkProfileCounterRecord) (saturated : Bool) :
    (record.mark saturated).head = record.head := by
  obtain ⟨siteId, counter⟩ := record
  cases counter <;> rfl

end CkProfileCounterRecord

theorem flatMap_u64Bytes_length (cells : List UInt64) :
    (cells.flatMap u64Bytes).length = 8 * cells.length := by
  induction cells with
  | nil => rfl
  | cons cell cells ih =>
      rw [List.flatMap_cons, List.length_append, ih, List.length_cons]
      simp
      omega

theorem CkProfileCounterRecord.bytes_length (record : CkProfileCounterRecord) :
    record.bytes.length = record.counter.cellStart + 8 * record.counter.cells.length +
      record.counter.trailer.length := by
  rw [record.bytes_eq, List.length_append, List.length_append, record.head_length,
    flatMap_u64Bytes_length]

/-! ## The computed offsets -/

/-- The positions of the cells in a table that starts at a position. -/
def cellOffsets : Nat → List CkProfileCounterRecord → List Nat
  | _, [] => []
  | wire, record :: records =>
      List.range' (wire + record.counter.cellStart) record.counter.cells.length 8 ++
        cellOffsets (wire + record.bytes.length) records

def saturationOffsets : Nat → List CkProfileCounterRecord → List Nat
  | _, [] => []
  | wire, record :: records =>
      record.counter.saturationOffset wire :: saturationOffsets (wire + record.bytes.length) records

/-- The number of cells before each record. -/
def firstCounters : Nat → List CkProfileCounterRecord → List Nat
  | _, [] => []
  | first, record :: records =>
      first :: firstCounters (first + record.counter.cells.length) records

theorem checkedU32_eq_ok {value checked : Nat} (h : checkedU32 value = .ok checked) :
    checked = value ∧ value < 2 ^ 32 := by
  unfold checkedU32 at h
  split at h
  · cases h
    exact ⟨rfl, ‹_›⟩
  · cases h

theorem pushCells_eq_ok {cells wire wire' : Nat} {offsets offsets' : List Nat}
    (h : pushCells cells wire offsets = .ok (wire', offsets')) :
    wire' = wire + 8 * cells ∧ offsets' = offsets ++ List.range' wire cells 8 := by
  induction cells generalizing wire offsets with
  | zero =>
      cases h
      exact ⟨rfl, by simp⟩
  | succ cells ih =>
      obtain ⟨next, hnext, h⟩ := bind_eq_ok.mp h
      obtain ⟨rfl, -⟩ := checkedU32_eq_ok hnext
      obtain ⟨rfl, rfl⟩ := ih h
      refine ⟨by omega, ?_⟩
      rw [List.range'_succ, List.append_assoc, List.singleton_append]

/-- What one record adds to the tables. -/
theorem layoutRecord_eq_ok {wire wire' : Nat} {layout layout' : CounterLayout}
    {record : CkProfileCounterRecord} (h : layoutRecord (wire, layout) record = .ok (wire', layout')) :
    wire' = wire + record.bytes.length ∧ layout' = {
      counterOffsets := layout.counterOffsets ++
        List.range' (wire + record.counter.cellStart) record.counter.cells.length 8
      siteFirstCounters := layout.siteFirstCounters ++ [layout.counterOffsets.length]
      siteCounterCounts := layout.siteCounterCounts ++ [record.counter.cells.length]
      siteSaturationOffsets := layout.siteSaturationOffsets ++
        [record.counter.saturationOffset wire] } := by
  rw [record.bytes_length]
  obtain ⟨siteId, counter⟩ := record
  unfold layoutRecord at h
  obtain ⟨start, hstart, h⟩ := bind_eq_ok.mp h
  obtain ⟨first, hfirst, h⟩ := bind_eq_ok.mp h
  obtain ⟨rfl, -⟩ := checkedU32_eq_ok hstart
  obtain ⟨rfl, -⟩ := checkedU32_eq_ok hfirst
  cases counter with
  | scalar value =>
      obtain ⟨next, hnext, h⟩ := bind_eq_ok.mp h
      obtain ⟨rfl, -⟩ := checkedU32_eq_ok hnext
      cases h
      exact ⟨rfl, rfl⟩
  | histogram buckets saturated =>
      obtain ⟨⟨middle, offsets⟩, hcells, h⟩ := bind_eq_ok.mp h
      obtain ⟨rfl, rfl⟩ := pushCells_eq_ok hcells
      obtain ⟨next, hnext, h⟩ := bind_eq_ok.mp h
      obtain ⟨rfl, -⟩ := checkedU32_eq_ok hnext
      cases h
      simp [CkProfileCounter.cells, CkProfileCounter.cellStart, CkProfileCounter.trailer,
        CkProfileCounter.saturationOffset, CkProfileCounter.tag, Nat.add_assoc]
  | candidateConstant candidates other saturated =>
      obtain ⟨start, hstart, h⟩ := bind_eq_ok.mp h
      obtain ⟨rfl, -⟩ := checkedU32_eq_ok hstart
      obtain ⟨⟨middle, offsets⟩, hcells, h⟩ := bind_eq_ok.mp h
      obtain ⟨rfl, rfl⟩ := pushCells_eq_ok hcells
      obtain ⟨count, hcount, h⟩ := bind_eq_ok.mp h
      obtain ⟨rfl, -⟩ := checkedU32_eq_ok hcount
      obtain ⟨next, hnext, h⟩ := bind_eq_ok.mp h
      obtain ⟨rfl, -⟩ := checkedU32_eq_ok hnext
      cases h
      simp [CkProfileCounter.cells, CkProfileCounter.cellStart, CkProfileCounter.trailer,
        CkProfileCounter.saturationOffset, CkProfileCounter.tag, Nat.add_assoc]

theorem layoutRecords_eq_ok {records : List CkProfileCounterRecord} {wire wire' : Nat}
    {layout layout' : CounterLayout}
    (h : records.foldlM layoutRecord (wire, layout) = .ok (wire', layout')) :
    layout' = {
      counterOffsets := layout.counterOffsets ++ cellOffsets wire records
      siteFirstCounters := layout.siteFirstCounters ++
        firstCounters layout.counterOffsets.length records
      siteCounterCounts := layout.siteCounterCounts ++
        records.map (·.counter.cells.length)
      siteSaturationOffsets := layout.siteSaturationOffsets ++ saturationOffsets wire records } := by
  induction records generalizing wire layout with
  | nil =>
      cases h
      simp [cellOffsets, saturationOffsets, firstCounters]
  | cons record records ih =>
      obtain ⟨⟨next, middle⟩, hrecord, h⟩ := bind_eq_ok.mp h
      obtain ⟨rfl, rfl⟩ := layoutRecord_eq_ok hrecord
      rw [ih h]
      simp [cellOffsets, saturationOffsets, firstCounters]

theorem counterLayout_eq_ok {counters : List CkProfileCounterRecord} {payloadOffset : Nat}
    {layout : CounterLayout} (h : counterLayout counters payloadOffset = .ok layout) :
    layout = {
      counterOffsets := cellOffsets (payloadOffset + 4) counters
      siteFirstCounters := firstCounters 0 counters
      siteCounterCounts := counters.map (·.counter.cells.length)
      siteSaturationOffsets := saturationOffsets (payloadOffset + 4) counters } := by
  obtain ⟨wire, hwire, h⟩ := bind_eq_ok.mp h
  obtain ⟨rfl, -⟩ := checkedU32_eq_ok hwire
  obtain ⟨⟨next, layout'⟩, hrecords, h⟩ := bind_eq_ok.mp h
  cases h
  simpa using layoutRecords_eq_ok hrecords

/-! ## Writing the cells -/

def fillRecords : List CkProfileCounterRecord → List UInt64 → List CkProfileCounterRecord
  | [], _ => []
  | record :: records, values =>
      record.fill (values.take record.counter.cells.length) ::
        fillRecords records (values.drop record.counter.cells.length)

def cellCount (records : List CkProfileCounterRecord) : Nat :=
  (records.map (·.counter.cells.length)).sum

theorem cellOffsets_length (wire : Nat) (records : List CkProfileCounterRecord) :
    (cellOffsets wire records).length = cellCount records := by
  induction records generalizing wire with
  | nil => rfl
  | cons record records ih =>
      rw [cellOffsets, List.length_append, List.length_range', ih, cellCount, cellCount,
        List.map_cons, List.sum_cons]

theorem fill_bytes_length {record : CkProfileCounterRecord} {cells : List UInt64}
    (h : cells.length = record.counter.cells.length) :
    (record.fill cells).bytes.length = record.bytes.length := by
  rw [CkProfileCounterRecord.bytes_length, CkProfileCounterRecord.bytes_length,
    CkProfileCounterRecord.fill, CkProfileCounter.fill_cells h, h, CkProfileCounter.fill_cellStart,
    CkProfileCounter.fill_trailer]

/-- The cells of one record. -/
theorem writeCounters_record (before after : List UInt8) {record : CkProfileCounterRecord}
    {cells : List UInt64} (h : cells.length = record.counter.cells.length) :
    writeCounters (before ++ record.bytes ++ after)
      ((List.range' (before.length + record.counter.cellStart) record.counter.cells.length 8).zip
        cells) = before ++ (record.fill cells).bytes ++ after := by
  have hstart : before.length + record.counter.cellStart = (before ++ record.head).length := by
    rw [List.length_append, record.head_length]
  have hfilled : (record.fill cells).bytes =
      record.head ++ cells.flatMap u64Bytes ++ record.counter.trailer := by
    rw [CkProfileCounterRecord.bytes_eq, CkProfileCounterRecord.fill_head h]
    simp only [CkProfileCounterRecord.fill, CkProfileCounter.fill_cells h,
      CkProfileCounter.fill_trailer]
  rw [hstart, record.bytes_eq, hfilled, writeCounters]
  have hwrite := foldl_writeAt_range' u64Bytes u64Bytes_length h
    (before ++ record.head) (record.counter.trailer ++ after)
  simp only [← List.append_assoc] at hwrite ⊢
  exact hwrite

/-- Writing at the positions of the cells replaces the cells. -/
theorem writeCounters_records {records : List CkProfileCounterRecord} {values : List UInt64}
    (h : values.length = cellCount records) (before after : List UInt8) :
    writeCounters (before ++ records.flatMap (·.bytes) ++ after)
      ((cellOffsets before.length records).zip values) =
        before ++ (fillRecords records values).flatMap (·.bytes) ++ after := by
  induction records generalizing values before with
  | nil => rfl
  | cons record records ih =>
      rw [cellCount, List.map_cons, List.sum_cons] at h
      have hcells : (values.take record.counter.cells.length).length =
          record.counter.cells.length := by
        rw [List.length_take]
        omega
      have hrest : (values.drop record.counter.cells.length).length = cellCount records := by
        rw [List.length_drop, cellCount]
        omega
      have hsplit : (cellOffsets before.length (record :: records)).zip values =
          (List.range' (before.length + record.counter.cellStart)
            record.counter.cells.length 8).zip (values.take record.counter.cells.length) ++
          (cellOffsets (before.length + record.bytes.length) records).zip
            (values.drop record.counter.cells.length) := by
        rw [cellOffsets, ← List.zip_append (by rw [List.length_range', hcells]),
          List.take_append_drop]
      have hfirst := writeCounters_record before (records.flatMap (·.bytes) ++ after) hcells
      have hnext : before.length + record.bytes.length =
          (before ++ (record.fill (values.take record.counter.cells.length)).bytes).length := by
        rw [List.length_append, fill_bytes_length hcells]
      rw [hsplit, writeCounters, List.foldl_append, ← writeCounters, ← writeCounters,
        List.flatMap_cons, ← List.append_assoc before, List.append_assoc (before ++ record.bytes),
        hfirst, ← List.append_assoc, hnext, ih hrest, fillRecords, List.flatMap_cons,
        ← List.append_assoc before]

/-! ## Writing the saturation bytes -/

theorem writeSaturations_cons (image : List UInt8) (place : Nat × Bool)
    (places : List (Nat × Bool)) : writeSaturations image (place :: places) =
      writeSaturations (writeSaturations image [place]) places :=
  rfl

theorem mark_bytes_length (record : CkProfileCounterRecord) (saturated : Bool) :
    (record.mark saturated).bytes.length = record.bytes.length := by
  rw [CkProfileCounterRecord.bytes_length, CkProfileCounterRecord.bytes_length,
    CkProfileCounterRecord.mark, CkProfileCounter.mark_cellStart, CkProfileCounter.mark_cells,
    CkProfileCounter.mark_trailer_length]

/-- The saturation byte of one record. -/
theorem writeSaturations_record (before after : List UInt8) (record : CkProfileCounterRecord)
    (saturated : Bool)
    (hsmall : before.length + record.bytes.length < ckProfileNoWireOffset) :
    writeSaturations (before ++ record.bytes ++ after)
      [(record.counter.saturationOffset before.length, saturated)] =
        before ++ (record.mark saturated).bytes ++ after := by
  rw [writeSaturations, List.foldl_cons, List.foldl_nil, CkProfileCounter.saturationOffset]
  by_cases htag : record.counter.tag = 1
  · rw [if_pos htag, if_pos rfl, CkProfileCounterRecord.mark, CkProfileCounter.mark_of_scalar htag]
  · have hmarked : (record.mark saturated).bytes = record.head ++
        record.counter.cells.flatMap u64Bytes ++ boolByte saturated := by
      rw [CkProfileCounterRecord.bytes_eq, record.mark_head]
      simp only [CkProfileCounterRecord.mark, CkProfileCounter.mark_cells]
      rw [CkProfileCounter.trailer_eq (by rwa [CkProfileCounter.mark_tag]),
        CkProfileCounter.mark_flag saturated htag]
    have hplace : before.length + record.counter.cellStart + 8 * record.counter.cells.length =
        (before ++ (record.head ++ record.counter.cells.flatMap u64Bytes)).length := by
      rw [List.length_append, List.length_append, record.head_length, flatMap_u64Bytes_length,
        Nat.add_assoc]
    have hpatched := writeAt_append _ (boolByte record.counter.flag) (boolByte saturated) after
      hplace rfl
    rw [record.bytes_length] at hsmall
    rw [if_neg htag, if_neg (by omega), hmarked, record.bytes_eq, CkProfileCounter.trailer_eq htag]
    simpa only [List.append_assoc] using hpatched

/-- Writing at the saturation offsets replaces the marks. -/
theorem writeSaturations_records (records : List CkProfileCounterRecord) {saturations : List Bool}
    (h : saturations.length = records.length) (before after : List UInt8)
    (hsmall : before.length + (records.flatMap (·.bytes)).length < ckProfileNoWireOffset) :
    writeSaturations (before ++ records.flatMap (·.bytes) ++ after)
      ((saturationOffsets before.length records).zip saturations) =
        before ++ (List.zipWith CkProfileCounterRecord.mark records saturations).flatMap (·.bytes) ++
          after := by
  induction records generalizing saturations before with
  | nil => rfl
  | cons record records ih =>
      cases saturations with
      | nil => cases h
      | cons saturated saturations =>
          rw [List.flatMap_cons, List.length_append] at hsmall
          have hfirst := writeSaturations_record before (records.flatMap (·.bytes) ++ after) record
            saturated (by omega)
          have hnext : before.length + record.bytes.length =
              (before ++ (record.mark saturated).bytes).length := by
            rw [List.length_append, mark_bytes_length]
          have hrest := ih (Nat.succ.inj h) (before ++ (record.mark saturated).bytes)
            (by rw [← hnext]; omega)
          rw [saturationOffsets, List.zip_cons_cons, writeSaturations_cons, List.flatMap_cons,
            ← List.append_assoc before, List.append_assoc (before ++ record.bytes), hfirst,
            ← List.append_assoc, hnext, hrest, List.zipWith_cons_cons, List.flatMap_cons,
            ← List.append_assoc before]

end CalcKernel
