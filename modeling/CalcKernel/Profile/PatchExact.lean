import CalcKernel.Profile.MergeOrder
import CalcKernel.Profile.PatchMap

/-!
# The patch map is exact

A patched template is the serialization of the shard with the written counters, so it is parsed
back to that shard.
-/

namespace CalcKernel

open Lib

/-! ## Records with other cells and marks -/

/-- The records with the written cells and marks. -/
def patchRecords (records : List CkProfileCounterRecord) (values : List UInt64)
    (saturations : List Bool) : List CkProfileCounterRecord :=
  List.zipWith CkProfileCounterRecord.mark (fillRecords records values) saturations

section Records

variable {records : List CkProfileCounterRecord} {values : List UInt64} {saturations : List Bool}

theorem fillRecords_length : (fillRecords records values).length = records.length := by
  induction records generalizing values with
  | nil => rfl
  | cons record records ih => rw [fillRecords, List.length_cons, List.length_cons, ih]

theorem patchRecords_length (h : saturations.length = records.length) :
    (patchRecords records values saturations).length = records.length := by
  rw [patchRecords, List.length_zipWith, fillRecords_length, h, Nat.min_self]

theorem fillRecords_shape (h : values.length = cellCount records) :
    tableShape (fillRecords records values) = tableShape records := by
  induction records generalizing values with
  | nil => rfl
  | cons record records ih =>
      rw [cellCount, List.map_cons, List.sum_cons] at h
      have hcells : (values.take record.counter.cells.length).length =
          record.counter.cells.length := by
        rw [List.length_take]
        omega
      have hrest := @ih (values.drop record.counter.cells.length) (by
        rw [List.length_drop, cellCount]
        omega)
      simp only [tableShape] at hrest
      rw [tableShape, tableShape, fillRecords, List.map_cons, List.map_cons, hrest]
      simp only [CkProfileCounterRecord.shape, CkProfileCounter.shape, CkProfileCounterRecord.fill,
        CkProfileCounter.fill_tag, CkProfileCounter.fill_cells hcells, hcells]

theorem fillRecords_cells (h : values.length = cellCount records) :
    (fillRecords records values).flatMap (·.counter.cells) = values := by
  induction records generalizing values with
  | nil => exact (List.length_eq_zero_iff.mp h).symm
  | cons record records ih =>
      rw [cellCount, List.map_cons, List.sum_cons] at h
      have hcells : (values.take record.counter.cells.length).length =
          record.counter.cells.length := by
        rw [List.length_take]
        omega
      rw [fillRecords, List.flatMap_cons, ih (by rw [List.length_drop, cellCount]; omega),
        CkProfileCounterRecord.fill, CkProfileCounter.fill_cells hcells, List.take_append_drop]

/-- The cells of each record are a slice of the values. -/
theorem fillRecords_slices (before : List UInt64) (h : values.length = cellCount records) :
    (fillRecords records values).map (·.counter.cells) =
      ((firstCounters before.length records).zip (records.map (·.counter.cells.length))).map
        fun p ↦ ((before ++ values).drop p.1).take p.2 := by
  induction records generalizing values before with
  | nil => rfl
  | cons record records ih =>
      rw [cellCount, List.map_cons, List.sum_cons] at h
      have hcells : (values.take record.counter.cells.length).length =
          record.counter.cells.length := by
        rw [List.length_take]
        omega
      have hnext : before.length + record.counter.cells.length =
          (before ++ values.take record.counter.cells.length).length := by
        rw [List.length_append, hcells]
      have hdropped : (values.drop record.counter.cells.length).length = cellCount records := by
        rw [List.length_drop, cellCount]
        omega
      have hrest := ih (before ++ values.take record.counter.cells.length) hdropped
      rw [← hnext, List.append_assoc, List.take_append_drop] at hrest
      rw [fillRecords, List.map_cons, hrest, firstCounters, List.map_cons, List.zip_cons_cons,
        List.map_cons, List.drop_left, CkProfileCounterRecord.fill,
        CkProfileCounter.fill_cells hcells]

theorem zipWith_mark_map {α : Type} (f : CkProfileCounterRecord → α)
    (hf : ∀ record saturated, f (record.mark saturated) = f record)
    (h : saturations.length = records.length) :
    (List.zipWith CkProfileCounterRecord.mark records saturations).map f = records.map f := by
  induction records generalizing saturations with
  | nil => rfl
  | cons record records ih =>
      cases saturations with
      | nil => cases h
      | cons saturated saturations =>
          rw [List.zipWith_cons_cons, List.map_cons, List.map_cons, hf, ih (Nat.succ.inj h)]

theorem zipWith_mark_flags (h : saturations.length = records.length) :
    List.Forall₂ (fun record saturated ↦ record.counter.tag ≠ 1 → record.counter.flag = saturated)
      (List.zipWith CkProfileCounterRecord.mark records saturations) saturations := by
  induction records generalizing saturations with
  | nil =>
      obtain rfl := List.length_eq_zero_iff.mp h
      exact .nil
  | cons record records ih =>
      cases saturations with
      | nil => cases h
      | cons saturated saturations =>
          refine .cons (fun htag ↦ ?_) (ih (Nat.succ.inj h))
          rw [CkProfileCounterRecord.mark, CkProfileCounter.mark_tag] at htag
          exact CkProfileCounter.mark_flag saturated htag

/-- What the patched records hold. -/
structure Patched (records : List CkProfileCounterRecord) (values : List UInt64)
    (saturations : List Bool) (counters : List CkProfileCounterRecord) : Prop where
  shape : tableShape counters = tableShape records
  cells : counters.flatMap (·.counter.cells) = values
  slices : counters.map (·.counter.cells) =
    ((firstCounters 0 records).zip (records.map (·.counter.cells.length))).map
      fun p ↦ (values.drop p.1).take p.2
  flags : List.Forall₂ (fun record saturated ↦
    record.counter.tag ≠ 1 → record.counter.flag = saturated) counters saturations

theorem patchRecords_patched (hvalues : values.length = cellCount records)
    (hsaturations : saturations.length = records.length) :
    Patched records values saturations (patchRecords records values saturations) where
  shape := by
    rw [tableShape, patchRecords, zipWith_mark_map, ← tableShape, fillRecords_shape hvalues]
    · intro record saturated
      simp only [CkProfileCounterRecord.shape, CkProfileCounter.shape, CkProfileCounterRecord.mark,
        CkProfileCounter.mark_tag, CkProfileCounter.mark_cells]
    · rw [fillRecords_length, hsaturations]
  cells := by
    rw [List.flatMap_def, patchRecords, zipWith_mark_map, ← List.flatMap_def,
      fillRecords_cells hvalues]
    · exact fun record saturated ↦ CkProfileCounter.mark_cells saturated record.counter
    · rw [fillRecords_length, hsaturations]
  slices := by
    rw [patchRecords, zipWith_mark_map]
    · exact fillRecords_slices [] hvalues
    · exact fun record saturated ↦ CkProfileCounter.mark_cells saturated record.counter
    · rw [fillRecords_length, hsaturations]
  flags := zipWith_mark_flags (by rw [fillRecords_length, hsaturations])

theorem saturationOffsets_length (wire : Nat) :
    (saturationOffsets wire records).length = records.length := by
  induction records generalizing wire with
  | nil => rfl
  | cons record records ih => rw [saturationOffsets, List.length_cons, List.length_cons, ih]

theorem fillRecords_bytes_length (h : values.length = cellCount records) :
    ((fillRecords records values).flatMap (·.bytes)).length =
      (records.flatMap (·.bytes)).length := by
  induction records generalizing values with
  | nil => rfl
  | cons record records ih =>
      rw [cellCount, List.map_cons, List.sum_cons] at h
      rw [fillRecords, List.flatMap_cons, List.flatMap_cons, List.length_append, List.length_append,
        fill_bytes_length (by rw [List.length_take]; omega),
        ih (by rw [List.length_drop, cellCount]; omega)]

theorem fillRecords_saturationOffsets (h : values.length = cellCount records) (wire : Nat) :
    saturationOffsets wire (fillRecords records values) = saturationOffsets wire records := by
  induction records generalizing values wire with
  | nil => rfl
  | cons record records ih =>
      rw [cellCount, List.map_cons, List.sum_cons] at h
      have hcells : (values.take record.counter.cells.length).length =
          record.counter.cells.length := by
        rw [List.length_take]
        omega
      rw [fillRecords, saturationOffsets, saturationOffsets, fill_bytes_length hcells,
        ih (by rw [List.length_drop, cellCount]; omega)]
      simp only [CkProfileCounterRecord.fill, CkProfileCounter.saturationOffset,
        CkProfileCounter.fill_tag, CkProfileCounter.fill_cellStart,
        CkProfileCounter.fill_cells hcells, hcells]

theorem patchRecords_bytes_length (hvalues : values.length = cellCount records)
    (hsaturations : saturations.length = records.length) :
    ((patchRecords records values saturations).flatMap (·.bytes)).length =
      (records.flatMap (·.bytes)).length := by
  rw [← fillRecords_bytes_length hvalues, List.length_flatMap, List.length_flatMap, patchRecords,
    zipWith_mark_map]
  · exact fun record saturated ↦ mark_bytes_length record saturated
  · rw [fillRecords_length, hsaturations]

end Records

/-! ## The image of a shard -/

theorem Patched.bounded {records counters : List CkProfileCounterRecord} {values : List UInt64}
    {saturations : List Bool} (h : Patched records values saturations counters)
    (hbounded : ∀ record ∈ records, record.counter.Bounded) :
    ∀ record ∈ counters, record.counter.Bounded := by
  intro record hrecord
  have hshape : record.shape ∈ tableShape records := h.shape ▸ List.mem_map_of_mem hrecord
  obtain ⟨original, horiginal, hsame⟩ := List.mem_map.mp hshape
  have hkind : original.counter.shape = record.counter.shape := congrArg Prod.snd hsame
  have hlimit := hbounded original horiginal
  cases horig : original.counter <;> cases hcounter : record.counter <;>
    rw [horig, hcounter] at hkind <;>
    simp [CkProfileCounter.shape, CkProfileCounter.tag, CkProfileCounter.cells] at hkind <;>
    simp_all [CkProfileCounter.Bounded]

/-- The fields of a shard. -/
def shardFields (shard : CkProfileShard) : List OuterField :=
  [(1, shard.identity.bytes), (2, tableBytes CkProfileSiteDescriptor.bytes shard.sites),
    (3, tableBytes CkProfileCounterRecord.bytes shard.counters), (4, shard.runId.toList),
    (5, encodeFlags shard.overflowed shard.incompleteObservations)]

section Sha

variable {sha : List UInt8 → Digest}

theorem serializeProfileShard_eq_ok {shard : CkProfileShard} {bytes : List UInt8} :
    serializeProfileShard sha shard = .ok bytes ↔
      validateTables sha shard.identity shard.sites shard.counters = .ok () ∧
        shard.identity.Valid ∧ (∀ site ∈ shard.sites, site.kind.Bounded) ∧
        (∀ record ∈ shard.counters, record.counter.Bounded) ∧
        encodeOuter sha shardMagic shardDomain (shardFields shard) = .ok bytes := by
  have hidentity : ∀ bytes, shard.identity.canonicalBytes = .ok bytes ↔
      shard.identity.Valid ∧ bytes = shard.identity.bytes := by
    intro bytes
    rw [CkProfileIdentity.canonicalBytes, check_bind_eq_ok, validate_eq_ok, pure_eq_ok,
      eq_comm (a := bytes)]
  unfold serializeProfileShard
  rw [check_bind_eq_ok]
  constructor
  · rintro ⟨htables, h⟩
    obtain ⟨identity, hid, h⟩ := bind_eq_ok.mp h
    obtain ⟨siteBytes, hsites, h⟩ := bind_eq_ok.mp h
    obtain ⟨counterBytes, hcounters, h⟩ := bind_eq_ok.mp h
    obtain ⟨hvalid, rfl⟩ := (hidentity _).mp hid
    obtain ⟨-, hboundedSites, rfl⟩ := encodeSites_eq_ok.mp hsites
    obtain ⟨-, hbounded, rfl⟩ := encodeCounters_eq_ok.mp hcounters
    exact ⟨htables, hvalid, hboundedSites.2, hbounded.2, h⟩
  · rintro ⟨htables, hvalid, hsites, hcounters, h⟩
    obtain ⟨-, hlimit, hcanonical, hcanonical', hshape, -⟩ := (validateTables_eq_ok sha).mp htables
    have hlength : shard.counters.length = shard.sites.length := by
      have hmap := congrArg List.length hshape
      rwa [tableShape, List.length_map, List.length_map] at hmap
    refine ⟨htables, bind_eq_ok.mpr ⟨_, (hidentity _).mpr ⟨hvalid, rfl⟩, ?_⟩⟩
    refine bind_eq_ok.mpr ⟨_, encodeSites_eq_ok.mpr ⟨hcanonical, ⟨hlimit, hsites⟩, rfl⟩, ?_⟩
    exact bind_eq_ok.mpr ⟨_, encodeCounters_eq_ok.mpr
      ⟨hcanonical', ⟨hlength ▸ hlimit, hcounters⟩, rfl⟩, h⟩

/-- The same shard with other counters of the same shape, another run and another flag is
serialized too, to as many bytes. -/
theorem serializeProfileShard_patched {shard : CkProfileShard} {bytes : List UInt8}
    (h : serializeProfileShard sha shard = .ok bytes) {values : List UInt64}
    {saturations : List Bool} (hvalues : values.length = cellCount shard.counters)
    (hsaturations : saturations.length = shard.counters.length) (runId : Vector UInt8 16)
    (overflowed : Bool) :
    let patched := { shard with
      counters := patchRecords shard.counters values saturations
      runId
      overflowed }
    serializeProfileShard sha patched = .ok (outerBody shardMagic (shardFields patched) ++
      (sha (shardDomain ++ outerBody shardMagic (shardFields patched))).toList) := by
  intro patched
  obtain ⟨htables, hvalid, hsites, hcounters, houter⟩ := serializeProfileShard_eq_ok.mp h
  have hpatched := patchRecords_patched hvalues hsaturations
  obtain ⟨hidentity, hlimit, hcanonical, hcanonical', hshape, hdigest⟩ :=
    (validateTables_eq_ok sha).mp htables
  obtain ⟨hfields, hsize, rfl⟩ := (encodeOuter_eq_ok sha).mp houter
  have hlength : (tableBytes CkProfileCounterRecord.bytes patched.counters).length =
      (tableBytes CkProfileCounterRecord.bytes shard.counters).length := by
    simp only [tableBytes, List.length_append, bigEndian_length, patched]
    rw [patchRecords_bytes_length hvalues hsaturations]
  have hbody : (outerBody shardMagic (shardFields patched)).length =
      (outerBody shardMagic (shardFields shard)).length := by
    simp only [outerBody, shardFields, List.length_append, List.flatMap_cons, List.flatMap_nil,
      fieldBytes_length, hlength, Vector.length_toList]
    rfl
  refine serializeProfileShard_eq_ok.mpr ⟨(validateTables_eq_ok sha).mpr ⟨hidentity, hlimit,
    hcanonical, ?_, ?_, hdigest⟩, hvalid, hsites, hpatched.bounded hcounters,
    (encodeOuter_eq_ok sha).mpr ⟨?_, ?_, rfl⟩⟩
  · rw [ensureCountersCanonical_of_shape hpatched.shape]
    exact hcanonical'
  · rw [hpatched.shape, hshape]
  · intro field hfield
    simp only [shardFields, List.forall_mem_cons] at hfields
    simp only [shardFields, List.mem_cons, List.not_mem_nil, or_false] at hfield
    obtain rfl | rfl | rfl | rfl | rfl := hfield
    · exact hfields.1
    · exact hfields.2.1
    · rw [hlength]
      exact hfields.2.2.1
    · rw [Vector.length_toList]
      decide
    · change 2 < 2 ^ 32
      decide
  · rw [List.length_append, hbody, Vector.length_toList]
    rwa [List.length_append, Vector.length_toList] at hsize

/-! ## The template -/

/-- The bytes before the first counter record. -/
def shardPrefix (identityBytes siteBytes : List UInt8) (count size : Nat) : List UInt8 :=
  shardMagic ++ u32Bytes ckProfileFormatSchema ++ fieldBytes (1, identityBytes) ++
    fieldBytes (2, siteBytes) ++ (u16Bytes 3 ++ bigEndian 4 (4 + size)) ++ bigEndian 4 count

/-- The bytes before the run id, and those before the flags. -/
def runIdHeader : List UInt8 := u16Bytes 4 ++ bigEndian 4 16
def flagsHeader : List UInt8 := u16Bytes 5 ++ bigEndian 4 2

theorem shardPrefix_length (identityBytes siteBytes : List UInt8) (count size : Nat) :
    (shardPrefix identityBytes siteBytes count size).length =
      12 + 6 + identityBytes.length + 6 + siteBytes.length + 6 + 4 := by
  simp only [shardPrefix, List.length_append, fieldBytes_length, magic_length.1, u32Bytes_length,
    u16Bytes_length, bigEndian_length]
  omega

theorem outerBody_shardFields (shard : CkProfileShard) :
    outerBody shardMagic (shardFields shard) =
      shardPrefix shard.identity.bytes (tableBytes CkProfileSiteDescriptor.bytes shard.sites)
        shard.counters.length (shard.counters.flatMap (·.bytes)).length ++
      shard.counters.flatMap (·.bytes) ++ (runIdHeader ++ shard.runId.toList ++ flagsHeader ++
        boolByte shard.overflowed ++ boolByte shard.incompleteObservations) := by
  have htable : (tableBytes CkProfileCounterRecord.bytes shard.counters).length =
      4 + (shard.counters.flatMap (·.bytes)).length := by
    rw [tableBytes, List.length_append, bigEndian_length]
  have hcounters : fieldBytes (3, tableBytes CkProfileCounterRecord.bytes shard.counters) =
      (u16Bytes 3 ++ bigEndian 4 (4 + (shard.counters.flatMap (·.bytes)).length)) ++
        bigEndian 4 shard.counters.length ++ shard.counters.flatMap (·.bytes) := by
    rw [fieldBytes, htable, tableBytes]
    simp only [List.append_assoc]
  have hrun : fieldBytes (4, shard.runId.toList) = runIdHeader ++ shard.runId.toList := by
    rw [fieldBytes, runIdHeader, Vector.length_toList]
  have hflags : fieldBytes (5, encodeFlags shard.overflowed shard.incompleteObservations) =
      flagsHeader ++ boolByte shard.overflowed ++ boolByte shard.incompleteObservations := by
    rw [fieldBytes, flagsHeader, encodeFlags, List.append_assoc, List.append_assoc]
    rfl
  simp only [outerBody, shardFields, List.flatMap_cons, List.flatMap_nil, hcounters, hrun, hflags,
    shardPrefix, List.append_assoc, List.append_nil]

/-- The shard of a template. -/
def zeroShard (identity : CkProfileIdentity) (sites : List CkProfileSiteDescriptor) :
    CkProfileShard where
  identity := identity
  sites := sites
  counters := zeroCounters sites
  runId := .replicate 16 0
  overflowed := false
  incompleteObservations := false

/-- A template is the image of the zero shard, and its offsets are positions in it. -/
structure TemplateOf (sha : List UInt8 → Digest) (identity : CkProfileIdentity)
    (sites : List CkProfileSiteDescriptor) (template : CkProfileShardTemplate) (start : Nat) :
    Prop where
  bytes : serializeProfileShard sha (zeroShard identity sites) = .ok template.bytes
  payload : start = 12 + 6 + identity.bytes.length + 6 +
    (tableBytes CkProfileSiteDescriptor.bytes sites).length + 6 + 4
  counters : template.counterOffsets = cellOffsets start (zeroCounters sites)
  firsts : template.siteFirstCounters = firstCounters 0 (zeroCounters sites)
  counts : template.siteCounterCounts = (zeroCounters sites).map (·.counter.cells.length)
  saturations : template.siteSaturationOffsets = saturationOffsets start (zeroCounters sites)
  runId : template.runIdOffset = start + ((zeroCounters sites).flatMap (·.bytes)).length + 6
  overflowFlag : template.overflowFlagOffset = template.runIdOffset + 22
  digest : template.digestOffset + 32 = template.bytes.length

theorem createProfileShardTemplate_eq_ok {identity : CkProfileIdentity}
    {sites : List CkProfileSiteDescriptor} {template : CkProfileShardTemplate}
    (h : createProfileShardTemplate sha identity sites = .ok template) :
    ∃ start, TemplateOf sha identity sites template start := by
  unfold createProfileShardTemplate at h
  obtain ⟨identityBytes, hidentity, h⟩ := bind_eq_ok.mp h
  obtain ⟨siteBytes, hsites, h⟩ := bind_eq_ok.mp h
  obtain ⟨counterBytes, hcounters, h⟩ := bind_eq_ok.mp h
  obtain ⟨payloadOffset, hpayload, h⟩ := bind_eq_ok.mp h
  obtain ⟨layout, hlayout, h⟩ := bind_eq_ok.mp h
  obtain ⟨runIdOffset, hrunId, h⟩ := bind_eq_ok.mp h
  obtain ⟨overflowFlagOffset, hoverflow, h⟩ := bind_eq_ok.mp h
  obtain ⟨bytes, hbytes, h⟩ := bind_eq_ok.mp h
  split at h
  · cases h
  rename_i hlong
  obtain ⟨digestOffset, hdigest, h⟩ := bind_eq_ok.mp h
  split at h
  · cases h
  cases h
  obtain ⟨-, hidentity⟩ := check_bind_eq_ok.mp hidentity
  cases pure_eq_ok.mp hidentity
  obtain ⟨-, -, rfl⟩ := encodeSites_eq_ok.mp hsites
  obtain ⟨-, -, rfl⟩ := encodeCounters_eq_ok.mp hcounters
  obtain ⟨rfl, -⟩ := checkedU32_eq_ok hpayload
  obtain ⟨rfl, -⟩ := checkedU32_eq_ok hrunId
  obtain ⟨rfl, -⟩ := checkedU32_eq_ok hoverflow
  obtain ⟨rfl, -⟩ := checkedU32_eq_ok hdigest
  obtain rfl := counterLayout_eq_ok hlayout
  refine ⟨_, hbytes, rfl, rfl, rfl, rfl, rfl, ?_, rfl, ?_⟩
  · have htable : (tableBytes CkProfileCounterRecord.bytes (zeroCounters sites)).length =
        4 + ((zeroCounters sites).flatMap (·.bytes)).length := by
      rw [tableBytes, List.length_append, bigEndian_length]
    dsimp only
    omega
  · exact Nat.sub_add_cancel (not_lt.mp hlong)

/-- Patching gives the serialization of the shard with the written results. -/
theorem TemplateOf.patch {identity : CkProfileIdentity} {sites : List CkProfileSiteDescriptor}
    {template : CkProfileShardTemplate} {start : Nat}
    (h : TemplateOf sha identity sites template start) {values : List UInt64}
    {saturations : List Bool} (hvalues : values.length = template.counterOffsets.length)
    (hsaturations : saturations.length = sites.length) (runId : Vector UInt8 16)
    (overflowed : Bool) :
    serializeProfileShard sha {
      identity
      sites
      counters := patchRecords (zeroCounters sites) values saturations
      runId
      overflowed
      incompleteObservations := false } =
        .ok (template.patch sha values saturations runId overflowed) := by
  have hcount : values.length = cellCount (zeroCounters sites) := by
    rw [hvalues, h.counters, cellOffsets_length]
  have hmarks : saturations.length = (zeroCounters sites).length := by
    rw [hsaturations, zeroCounters, List.length_map]
  have hserialized := serializeProfileShard_patched h.bytes hcount hmarks runId overflowed
  obtain ⟨-, -, -, -, houter⟩ := serializeProfileShard_eq_ok.mp h.bytes
  obtain ⟨-, hsize, hbytes⟩ := (encodeOuter_eq_ok sha).mp houter
  refine hserialized.trans (congrArg Except.ok ?_)
  -- the image before and after, cut at the places of the writes
  rw [outerBody_shardFields] at hbytes ⊢
  simp only [zeroShard] at hbytes ⊢
  rw [patchRecords_bytes_length hcount hmarks, patchRecords_length hmarks]
  have hstart := shardPrefix_length identity.bytes
    (tableBytes CkProfileSiteDescriptor.bytes sites) (zeroCounters sites).length
    ((zeroCounters sites).flatMap (·.bytes)).length
  rw [← h.payload] at hstart
  have hrunId := h.runId
  have hoverflow := h.overflowFlag
  have hdigest := h.digest
  have hpatchedLength := patchRecords_bytes_length hcount hmarks
  have hfilledLength := fillRecords_bytes_length hcount
  generalize shardPrefix identity.bytes (tableBytes CkProfileSiteDescriptor.bytes sites)
    (zeroCounters sites).length ((zeroCounters sites).flatMap (·.bytes)).length = front at *
  generalize hold : (sha _).toList = old at hbytes
  have holdLength : old.length = 32 := by rw [← hold, Vector.length_toList]
  have hheaders : runIdHeader.length = 6 ∧ flagsHeader.length = 6 := by decide
  have hflag : ∀ flag, (boolByte flag).length = 1 := fun _ ↦ rfl
  have hrunLength : ∀ runId : Vector UInt8 16, runId.toList.length = 16 :=
    fun runId ↦ Vector.length_toList
  have hsum := congrArg List.length hbytes
  simp only [List.length_append, hheaders, hflag, hrunLength, holdLength] at hsum
  have hcells := writeCounters_records hcount front (runIdHeader ++ (Vector.replicate 16 0).toList ++
    flagsHeader ++ boolByte false ++ boolByte false ++ old)
  have hsaturated := writeSaturations_records (fillRecords (zeroCounters sites) values)
    (by rw [fillRecords_length, hmarks]) front
    (runIdHeader ++ (Vector.replicate 16 0).toList ++ flagsHeader ++ boolByte false ++
      boolByte false ++ old) (by rw [hfilledLength, ckProfileNoWireOffset]; omega)
  rw [fillRecords_saturationOffsets hcount, ← patchRecords] at hsaturated
  have hrun := writeAt_append
    (front ++ (patchRecords (zeroCounters sites) values saturations).flatMap (·.bytes) ++
      runIdHeader) (Vector.replicate 16 0).toList runId.toList
    (flagsHeader ++ boolByte false ++ boolByte false ++ old)
    (show template.runIdOffset = _ by simp only [List.length_append, hheaders]; omega) (by rw [hrunLength, hrunLength])
  have hoverflowed := writeAt_append
    (front ++ (patchRecords (zeroCounters sites) values saturations).flatMap (·.bytes) ++
      runIdHeader ++ runId.toList ++ flagsHeader) (boolByte false) (boolByte overflowed)
    (boolByte false ++ old)
    (show template.overflowFlagOffset = _ by simp only [List.length_append, hheaders, hrunLength]; omega) rfl
  have hend : template.digestOffset = (front ++
      (patchRecords (zeroCounters sites) values saturations).flatMap (·.bytes) ++ runIdHeader ++
      runId.toList ++ flagsHeader ++ boolByte overflowed ++ boolByte false).length := by
    simp only [List.length_append, hheaders, hrunLength, hflag]
    omega
  have hlast := fun digest : Digest ↦ writeAt_append _ old digest.toList [] hend
    (by rw [Vector.length_toList, holdLength])
  have htake : (front ++ (patchRecords (zeroCounters sites) values saturations).flatMap (·.bytes) ++
      runIdHeader ++ runId.toList ++ flagsHeader ++ boolByte overflowed ++ boolByte false ++
      old).take template.digestOffset = _ := List.take_left' hend.symm
  simp only [List.append_assoc] at hbytes hcells hsaturated hrun hoverflowed
  simp only [List.append_assoc] at htake
  simp only [List.append_nil, List.append_assoc] at hlast
  simp only [CkProfileShardTemplate.patch, hbytes, h.counters, h.saturations, ← hstart,
    List.append_assoc, hcells, hsaturated, hrun, hoverflowed, htake, hlast]

end Sha

/-! ## The ranges -/

/-- The parts of the image that the collector writes. -/
def CkProfileShardTemplate.ranges (template : CkProfileShardTemplate) : List (Nat × Nat) :=
  template.counterOffsets.map (fun offset ↦ (offset, 8)) ++
    (template.siteSaturationOffsets.filter (· ≠ ckProfileNoWireOffset)).map
      (fun offset ↦ (offset, 1)) ++
    [(template.runIdOffset, 16), (template.overflowFlagOffset, 1), (template.digestOffset, 32)]

/-- The written parts of one record in their order. -/
def recordRanges (wire : Nat) (record : CkProfileCounterRecord) : List (Nat × Nat) :=
  (List.range' (wire + record.counter.cellStart) record.counter.cells.length 8).map
      (fun offset ↦ (offset, 8)) ++
    ([record.counter.saturationOffset wire].filter (· ≠ ckProfileNoWireOffset)).map
      (fun offset ↦ (offset, 1))

def tableRanges : Nat → List CkProfileCounterRecord → List (Nat × Nat)
  | _, [] => []
  | wire, record :: records =>
      recordRanges wire record ++ tableRanges (wire + record.bytes.length) records

theorem recordRanges_apart (wire : Nat) (record : CkProfileCounterRecord) :
    (recordRanges wire record).Pairwise Apart ∧
      ∀ r ∈ recordRanges wire record, Within wire (wire + record.bytes.length) r := by
  have hlength := record.bytes_length
  have hcells : ∀ r ∈ (List.range' (wire + record.counter.cellStart) record.counter.cells.length
      8).map (fun offset ↦ (offset, 8)), Within wire (wire + record.counter.cellStart +
        8 * record.counter.cells.length) r :=
    fun r hr ↦ ⟨(Nat.le_add_right _ _).trans (range'_within hr).1, (range'_within hr).2⟩
  have hmark : ∀ s ∈ ([record.counter.saturationOffset wire].filter
      (· ≠ ckProfileNoWireOffset)).map (fun offset ↦ (offset, 1)),
      Within (wire + record.counter.cellStart + 8 * record.counter.cells.length)
        (wire + record.bytes.length) s := by
    intro s hs
    obtain ⟨offset, hoffset, rfl⟩ := List.mem_map.mp hs
    obtain ⟨hoffset, hreal⟩ := List.mem_filter.mp hoffset
    obtain rfl := List.mem_singleton.mp hoffset
    by_cases htag : record.counter.tag = 1
    · rw [CkProfileCounter.saturationOffset, if_pos htag] at hreal
      exact absurd hreal (by decide)
    · have htrailer : record.counter.trailer.length = 1 := by
        rw [CkProfileCounter.trailer_eq htag]
        rfl
      rw [CkProfileCounter.saturationOffset, if_neg htag]
      exact ⟨le_rfl, by dsimp only; omega⟩
  refine ⟨pairwise_apart_append (range'_apart _ _ _) ?_ hcells hmark, ?_⟩
  · rw [List.filter_cons]
    split <;> simp
  · intro r hr
    rcases List.mem_append.mp hr with hr | hr
    · exact ⟨(hcells r hr).1, (hcells r hr).2.trans (by omega)⟩
    · exact ⟨le_trans (by omega) (hmark r hr).1, (hmark r hr).2⟩

theorem tableRanges_apart (wire : Nat) (records : List CkProfileCounterRecord) :
    (tableRanges wire records).Pairwise Apart ∧
      ∀ r ∈ tableRanges wire records,
        Within wire (wire + (records.flatMap (·.bytes)).length) r := by
  induction records generalizing wire with
  | nil => exact ⟨.nil, fun r hr ↦ absurd hr List.not_mem_nil⟩
  | cons record records ih =>
      obtain ⟨hapart, hwithin⟩ := recordRanges_apart wire record
      obtain ⟨hrest, hrestWithin⟩ := ih (wire + record.bytes.length)
      rw [List.flatMap_cons, List.length_append]
      refine ⟨pairwise_apart_append hapart hrest hwithin hrestWithin, fun r hr ↦ ?_⟩
      rcases List.mem_append.mp hr with hr | hr
      · exact ⟨(hwithin r hr).1, (hwithin r hr).2.trans (by omega)⟩
      · have hafter := hrestWithin r hr
        exact ⟨(Nat.le_add_right _ _).trans hafter.1, hafter.2.trans (by omega)⟩

/-- The cells first and the saturation bytes then are the same ranges. -/
theorem tableRanges_perm (wire : Nat) (records : List CkProfileCounterRecord) :
    ((cellOffsets wire records).map (fun offset ↦ (offset, 8)) ++
      ((saturationOffsets wire records).filter (· ≠ ckProfileNoWireOffset)).map
        (fun offset ↦ (offset, 1))).Perm (tableRanges wire records) := by
  induction records generalizing wire with
  | nil => exact .refl _
  | cons record records ih =>
      have hsplit : (record.counter.saturationOffset wire ::
          saturationOffsets (wire + record.bytes.length) records) =
            [record.counter.saturationOffset wire] ++
              saturationOffsets (wire + record.bytes.length) records := rfl
      rw [cellOffsets, saturationOffsets, tableRanges, recordRanges, List.map_append, hsplit,
        List.filter_append, List.map_append]
      refine List.Perm.trans ?_ ((ih (wire + record.bytes.length)).append_left _)
      simp only [List.append_assoc]
      apply List.Perm.append_left
      simp only [← List.append_assoc]
      exact List.perm_append_comm.append_right _

section Sha

variable {sha : List UInt8 → Digest} {identity : CkProfileIdentity}
  {sites : List CkProfileSiteDescriptor} {template : CkProfileShardTemplate} {start : Nat}

theorem TemplateOf.length (h : TemplateOf sha identity sites template start) :
    template.bytes.length =
      start + ((zeroCounters sites).flatMap (·.bytes)).length + 62 := by
  obtain ⟨-, -, -, -, houter⟩ := serializeProfileShard_eq_ok.mp h.bytes
  obtain ⟨-, -, hbytes⟩ := (encodeOuter_eq_ok sha).mp houter
  rw [outerBody_shardFields] at hbytes
  have hlength := congrArg List.length hbytes
  have hheaders : runIdHeader.length = 6 ∧ flagsHeader.length = 6 := by decide
  have hflag : ∀ flag, (boolByte flag).length = 1 := fun _ ↦ rfl
  have hpayload := h.payload
  simp only [List.length_append, hheaders, hflag, Vector.length_toList, shardPrefix_length,
    zeroShard] at hlength
  omega

/-- The ranges are disjoint parts of the image. -/
theorem TemplateOf.ranges_apart (h : TemplateOf sha identity sites template start) :
    template.ranges.Pairwise Apart ∧
      ∀ r ∈ template.ranges, Within 0 template.bytes.length r := by
  have hlength := h.length
  have hrunId := h.runId
  have hoverflow := h.overflowFlag
  have hdigest := h.digest
  obtain ⟨hapart, hwithin⟩ := tableRanges_apart start (zeroCounters sites)
  have hperm : template.ranges.Perm (tableRanges start (zeroCounters sites) ++
      [(template.runIdOffset, 16), (template.overflowFlagOffset, 1),
        (template.digestOffset, 32)]) := by
    rw [CkProfileShardTemplate.ranges, h.counters, h.saturations]
    exact (tableRanges_perm start _).append_right _
  have hlast : ∀ s ∈ [(template.runIdOffset, 16), (template.overflowFlagOffset, 1),
      (template.digestOffset, 32)],
      Within (start + ((zeroCounters sites).flatMap (·.bytes)).length) template.bytes.length s := by
    simp only [List.forall_mem_cons, Within]
    refine ⟨?_, ?_, ?_, List.forall_mem_nil _⟩ <;> omega
  constructor
  · apply (hperm.pairwise_iff Apart.symm).mpr
    refine pairwise_apart_append hapart ?_ hwithin hlast
    simp only [List.pairwise_cons, List.forall_mem_cons, Apart]
    refine ⟨⟨?_, ?_, List.forall_mem_nil _⟩, ⟨?_, List.forall_mem_nil _⟩,
      List.forall_mem_nil _, .nil⟩ <;> omega
  · intro r hr
    rcases List.mem_append.mp (hperm.mem_iff.mp hr) with hr | hr
    · exact ⟨Nat.zero_le _, (hwithin r hr).2.trans (by omega)⟩
    · exact ⟨Nat.zero_le _, (hlast r hr).2⟩

theorem writeSaturations_eq_foldl (image : List UInt8) (places : List (Nat × Bool)) :
    writeSaturations image places = (places.filter (·.1 ≠ ckProfileNoWireOffset)).foldl
      (fun image p ↦ writeAt image p.1 (boolByte p.2)) image := by
  rw [List.foldl_filter, writeSaturations]
  congr 1
  funext image p
  by_cases hp : p.1 = ckProfileNoWireOffset <;> simp [hp]

/-- Nothing is written outside of the ranges. -/
theorem TemplateOf.patch_outside (h : TemplateOf sha identity sites template start)
    (values : List UInt64) (saturations : List Bool) (runId : Vector UInt8 16) (overflowed : Bool)
    {k : Nat} (hk : ∀ r ∈ template.ranges, k < r.1 ∨ r.1 + r.2 ≤ k) :
    (template.patch sha values saturations runId overflowed)[k]? = template.bytes[k]? := by
  have hranges : ∀ r ∈ template.ranges,
      r.1 + r.2 ≤ template.bytes.length ∧ (k < r.1 ∨ r.1 + r.2 ≤ k) :=
    fun r hr ↦ ⟨(h.ranges_apart.2 r hr).2, hk r hr⟩
  simp only [CkProfileShardTemplate.ranges, List.forall_mem_append, List.forall_mem_cons,
    List.forall_mem_map] at hranges
  obtain ⟨⟨hcells, hmarks⟩, hrun, hflag, hdigest, -⟩ := hranges
  let cells := writeCounters template.bytes (template.counterOffsets.zip values)
  let marks := writeSaturations cells (template.siteSaturationOffsets.zip saturations)
  let run := writeAt marks template.runIdOffset runId.toList
  let flag := writeAt run template.overflowFlagOffset (boolByte overflowed)
  have hone : cells.length = template.bytes.length ∧ cells[k]? = template.bytes[k]? :=
    foldl_writeAt_outside fun p hp ↦ hcells _ (List.of_mem_zip hp).1
  have htwo : marks.length = cells.length ∧ marks[k]? = cells[k]? := by
    simp only [marks, writeSaturations_eq_foldl]
    apply foldl_writeAt_outside
    intro p hp
    obtain ⟨hp, hreal⟩ := List.mem_filter.mp hp
    rw [hone.1]
    exact hmarks _ (List.mem_filter.mpr ⟨(List.of_mem_zip hp).1, hreal⟩)
  have hrunInside : template.runIdOffset + runId.toList.length ≤ marks.length := by
    rw [Vector.length_toList, htwo.1, hone.1]
    exact hrun.1
  have hrunOutside : k < template.runIdOffset ∨
      template.runIdOffset + runId.toList.length ≤ k := by
    rw [Vector.length_toList]
    exact hrun.2
  have hrunLength : run.length = template.bytes.length :=
    (writeAt_length hrunInside).trans (htwo.1.trans hone.1)
  have hflagInside : template.overflowFlagOffset + (boolByte overflowed).length ≤ run.length := by
    rw [hrunLength]
    exact hflag.1
  have hflagLength : flag.length = template.bytes.length :=
    (writeAt_length hflagInside).trans hrunLength
  have hthree : run[k]? = marks[k]? := writeAt_getElem? hrunInside hrunOutside
  have hfour : flag[k]? = run[k]? := writeAt_getElem? hflagInside hflag.2
  have hfive : (template.patch sha values saturations runId overflowed)[k]? = flag[k]? := by
    apply writeAt_getElem?
    · rw [Vector.length_toList]
      exact hflagLength ▸ hdigest.1
    · rw [Vector.length_toList]
      exact hdigest.2
  rw [hfive, hfour, hthree, htwo.2, hone.2]

end Sha

theorem zeroCounters_shape (sites : List CkProfileSiteDescriptor) :
    tableShape (zeroCounters sites) = sites.map (·.shape) := by
  rw [tableShape, zeroCounters, List.map_map]
  apply List.map_congr_left
  rintro ⟨id, functionDigest, location, kind⟩ -
  cases kind <;> simp [CkProfileCounterRecord.shape, CkProfileSiteDescriptor.shape,
    CkProfileCounter.shape, zeroCounter, CkProfileCounter.tag, CkProfileCounter.cells]

/-! ## The patch map -/

/-- The counters hold what was written, site by site. -/
structure Written (template : CkProfileShardTemplate) (sites : List CkProfileSiteDescriptor)
    (values : List UInt64) (saturations : List Bool) (counters : List CkProfileCounterRecord) :
    Prop where
  sites : List.Forall₂ (fun site record ↦ site.id = record.siteId ∧
    counterMatchesSite record.counter site.kind = true) sites counters
  cells : counters.flatMap (·.counter.cells) = values
  slices : counters.map (·.counter.cells) =
    (template.siteFirstCounters.zip template.siteCounterCounts).map
      fun p ↦ (values.drop p.1).take p.2
  flags : List.Forall₂ (fun record saturated ↦
    record.counter.tag ≠ 1 → record.counter.flag = saturated) counters saturations

/-- The patched ranges are disjoint parts of the image, and any results written there are read
back, with nothing else changed. -/
theorem createProfileShardTemplate_patch {sha : List UInt8 → Digest} {identity : CkProfileIdentity}
    {sites : List CkProfileSiteDescriptor} {template : CkProfileShardTemplate}
    (h : createProfileShardTemplate sha identity sites = .ok template) :
    template.ranges.Pairwise Apart ∧
    (∀ r ∈ template.ranges, Within 0 template.bytes.length r) ∧
    ∀ values saturations runId overflowed, values.length = template.counterOffsets.length →
      saturations.length = template.siteSaturationOffsets.length →
      let patched := template.patch sha values saturations runId overflowed
      (∀ k, (∀ r ∈ template.ranges, k < r.1 ∨ r.1 + r.2 ≤ k) → patched[k]? = template.bytes[k]?) ∧
      ∃ counters, parseProfileShard sha patched = .ok {
          identity
          sites
          counters
          runId
          overflowed
          incompleteObservations := false } ∧
        Written template sites values saturations counters := by
  obtain ⟨start, htemplate⟩ := createProfileShardTemplate_eq_ok h
  refine ⟨htemplate.ranges_apart.1, htemplate.ranges_apart.2, ?_⟩
  intro values saturations runId overflowed hvalues hsaturations patched
  refine ⟨fun k hk ↦ htemplate.patch_outside values saturations runId overflowed hk,
    patchRecords (zeroCounters sites) values saturations, ?_, ?_⟩
  · rw [htemplate.saturations, saturationOffsets_length, zeroCounters, List.length_map]
      at hsaturations
    exact (parseProfileShard_eq_ok sha).mpr
      (htemplate.patch hvalues hsaturations runId overflowed)
  · rw [htemplate.saturations, saturationOffsets_length] at hsaturations
    rw [htemplate.counters, cellOffsets_length] at hvalues
    have hpatched := patchRecords_patched hvalues hsaturations
    refine ⟨?_, hpatched.cells, ?_, hpatched.flags⟩
    · have hshape := List.forall₂_eq_eq_eq ▸ hpatched.shape.trans (zeroCounters_shape sites)
      have hrecords := List.forall₂_map_left_iff.mp (List.forall₂_map_right_iff.mp hshape)
      exact hrecords.flip.imp fun site record hsame ↦ counterMatchesSite_iff.mpr hsame
    · rw [htemplate.firsts, htemplate.counts]
      exact hpatched.slices

/-- The sites of a function and of two constants that it may be specialised to. -/
def templateSites : List CkProfileSiteDescriptor :=
  [⟨.replicate 16 1, .replicate 32 7, 0, .functionEntry⟩,
    ⟨.replicate 16 2, .replicate 32 7, 1, .candidateConstant 0 [5, 8]⟩]

def templateIdentity : CkProfileIdentity :=
  { sampleIdentity with
    module := { sampleIdentity.module with
      siteTableDigest := ((profileSiteTableDigest sumSha templateSites).toOption).getD
        (.replicate 32 0) } }

def sampleTemplate : CkProfileShardTemplate :=
  ((createProfileShardTemplate sumSha templateIdentity templateSites).toOption).getD
    ⟨[], [], [], [], [], 0, 0, 0⟩

theorem createProfileShardTemplate_patch_sample :
    ∃ counters, parseProfileShard sumSha (sampleTemplate.patch sumSha [3, 10, 20, 30] [false, true]
        (.replicate 16 4) true) = .ok {
          identity := templateIdentity
          sites := templateSites
          counters
          runId := .replicate 16 4
          overflowed := true
          incompleteObservations := false } ∧
        Written sampleTemplate templateSites [3, 10, 20, 30] [false, true] counters := by
  have h : createProfileShardTemplate sumSha templateIdentity templateSites = .ok sampleTemplate := by
    decide +kernel
  exact ((createProfileShardTemplate_patch h).2.2 [3, 10, 20, 30] [false, true] (.replicate 16 4)
    true (by decide +kernel) (by decide +kernel)).2

end CalcKernel
