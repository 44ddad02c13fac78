import CalcKernel.Profile.Format
import CalcKernel.Profile.IdentityCodec

/-!
# The codec of profiles

The readers of site descriptors and counters read what the writers write, and the
fields of the outer format are found where they were put; a shard or an aggregate
is parsed from exactly the bytes it is serialized to.
-/

namespace CalcKernel

open Lib

/-! ## Site descriptors -/

namespace CkProfileSiteKind

/-- The number of candidates fits the format. -/
def Bounded : CkProfileSiteKind → Prop
  | .candidateConstant _ candidates => 0 < candidates.length ∧ candidates.length ≤ 8
  | _ => True

end CkProfileSiteKind

theorem reads_functionEntry :
    Reads (pure .functionEntry : ProfileReader CkProfileSiteKind) CkProfileSiteKind.payload
      (fun kind ↦ kind.tag = 1 ∧ kind.Bounded) := by
  apply (Reads.pure CkProfileSiteKind.functionEntry).congr
  · intro kind
    cases kind <;> simp [CkProfileSiteKind.tag, CkProfileSiteKind.Bounded]
  · rintro kind rfl
    rfl

theorem reads_edge : Reads (do
      let fromBlock ← readU32
      let toBlock ← readU32
      let reconstructed ← readBool "site.edge.reconstructed"
      return .edge fromBlock toBlock reconstructed) CkProfileSiteKind.payload
    (fun kind ↦ kind.tag = 2 ∧ kind.Bounded) := by
  have h := reads_u32.bind (fun | .edge fromBlock _ _ => fromBlock | _ => 0) (fun fromBlock ↦
    reads_u32.bind (fun | .edge _ toBlock _ => toBlock | _ => 0) (fun toBlock ↦
    (reads_bool "site.edge.reconstructed").bind
      (fun | .edge _ _ reconstructed => reconstructed | _ => false) (fun reconstructed ↦
    Reads.pure (CkProfileSiteKind.edge fromBlock toBlock reconstructed))
      (by grind)) (by grind)) (by grind)
  apply h.congr
  · intro kind
    cases kind <;> simp [CkProfileSiteKind.tag, CkProfileSiteKind.Bounded]
  · intro kind hkind
    cases kind <;> simp_all [CkProfileSiteKind.payload]

theorem reads_loopTripHistogram : Reads (do
      let loopIdentity ← readU32
      return .loopTripHistogram loopIdentity) CkProfileSiteKind.payload
    (fun kind ↦ kind.tag = 3 ∧ kind.Bounded) := by
  have h := reads_u32.bind (fun | .loopTripHistogram loopIdentity => loopIdentity | _ => 0)
    (fun loopIdentity ↦ Reads.pure (CkProfileSiteKind.loopTripHistogram loopIdentity)) (by grind)
  apply h.congr
  · intro kind
    cases kind <;> simp [CkProfileSiteKind.tag, CkProfileSiteKind.Bounded]
  · intro kind hkind
    cases kind <;> simp_all [CkProfileSiteKind.payload]

theorem reads_sliceLengthHistogram : Reads (do
      let decisionIdentity ← readU32
      return .sliceLengthHistogram decisionIdentity) CkProfileSiteKind.payload
    (fun kind ↦ kind.tag = 4 ∧ kind.Bounded) := by
  have h := reads_u32.bind
    (fun | .sliceLengthHistogram decisionIdentity => decisionIdentity | _ => 0)
    (fun decisionIdentity ↦ Reads.pure (CkProfileSiteKind.sliceLengthHistogram decisionIdentity))
    (by grind)
  apply h.congr
  · intro kind
    cases kind <;> simp [CkProfileSiteKind.tag, CkProfileSiteKind.Bounded]
  · intro kind hkind
    cases kind <;> simp_all [CkProfileSiteKind.payload]

/-- The count of a candidate list, as one byte, is neither zero nor over the limit. -/
theorem candidateCount (n : Nat) (count : UInt8) :
    (¬ (count = 0 ∨ ckProfileMaxCandidates < count) ∧ n = count.toNat) ↔
      count = UInt8.ofNat n ∧ 0 < n ∧ n ≤ 8 := by
  have hmax : ckProfileMaxCandidates.toNat = 8 := rfl
  rw [not_or, UInt8.lt_iff_toNat_lt, hmax, ← UInt8.toNat_inj, ← UInt8.toNat_inj,
    UInt8.toNat_ofNat', UInt8.toNat_zero]
  have hcount := count.toNat_lt
  omega

theorem reads_candidateConstant : Reads (do
      let decisionIdentity ← readU32
      let count ← readU8
      if count = 0 ∨ ckProfileMaxCandidates < count then
        Lib.Reader.fail (.resourceLimit "candidate constants")
      else
        let candidates ← Lib.Reader.repeated readI64 count.toNat
        return .candidateConstant decisionIdentity candidates) CkProfileSiteKind.payload
    (fun kind ↦ kind.tag = 5 ∧ kind.Bounded) := by
  have h := reads_u32.bind
    (fun | .candidateConstant decisionIdentity _ => decisionIdentity | _ => 0)
    (fun decisionIdentity ↦
    reads_u8.bind (fun | .candidateConstant _ candidates => UInt8.ofNat candidates.length | _ => 0)
      (fun count ↦
    ((reads_i64.repeated count.toNat).bind
      (fun | .candidateConstant _ candidates => candidates | _ => []) (fun candidates ↦
    Reads.pure (CkProfileSiteKind.candidateConstant decisionIdentity candidates))
      (by grind)).ite (c := count = 0 ∨ ckProfileMaxCandidates < count)
        (e := .resourceLimit "candidate constants"))
      (by
        rintro count kind ⟨hcount, ⟨hlen, _⟩, hkind⟩
        cases kind with
        | candidateConstant _ _ => exact ((candidateCount _ _).mp ⟨hcount, hlen⟩).1.symm
        | _ => cases hkind)) (by grind)
  apply h.congr
  · intro kind
    cases kind with
    | candidateConstant decisionIdentity candidates =>
        have hcount := candidateCount candidates.length (UInt8.ofNat candidates.length)
        simp only [true_and] at hcount
        simp [CkProfileSiteKind.tag, CkProfileSiteKind.Bounded, ← hcount]
    | _ => simp [CkProfileSiteKind.tag]
  · intro kind hkind
    cases kind with
    | candidateConstant decisionIdentity candidates => simp [CkProfileSiteKind.payload]
    | _ => simp at hkind

theorem reads_siteKind : Reads readSiteKind (fun kind ↦ [kind.tag] ++ kind.payload)
    CkProfileSiteKind.Bounded := by
  have hbranch : ∀ tag : UInt8, Reads (if tag = 1 then return .functionEntry else
      if tag = 2 then do
        let fromBlock ← readU32
        let toBlock ← readU32
        let reconstructed ← readBool "site.edge.reconstructed"
        return .edge fromBlock toBlock reconstructed
      else if tag = 3 then do
        let loopIdentity ← readU32
        return .loopTripHistogram loopIdentity
      else if tag = 4 then do
        let decisionIdentity ← readU32
        return .sliceLengthHistogram decisionIdentity
      else if tag = 5 then do
        let decisionIdentity ← readU32
        let count ← readU8
        if count = 0 ∨ ckProfileMaxCandidates < count then
          Lib.Reader.fail (.resourceLimit "candidate constants")
        else
          let candidates ← Lib.Reader.repeated readI64 count.toNat
          return .candidateConstant decisionIdentity candidates
      else Lib.Reader.fail (.invalidValue "site.kind")) CkProfileSiteKind.payload
      (fun kind ↦ kind.tag = tag ∧ kind.Bounded) := by
    intro tag
    split_ifs with h1 h2 h3 h4 h5
    · exact h1 ▸ reads_functionEntry
    · exact h2 ▸ reads_edge
    · exact h3 ▸ reads_loopTripHistogram
    · exact h4 ▸ reads_sliceLengthHistogram
    · exact h5 ▸ reads_candidateConstant
    · apply Reads.fail
      rintro kind ⟨rfl, _⟩
      cases kind <;> simp_all [CkProfileSiteKind.tag]
  apply (reads_u8.bind (·.tag) hbranch (by grind)).congr
  · simp
  · intro kind _
    rfl

def CkProfileSiteDescriptor.bytes (site : CkProfileSiteDescriptor) : List UInt8 :=
  site.id.toList ++ site.functionDigest.toList ++ u32Bytes site.location ++ [site.kind.tag] ++
    site.kind.payload

theorem reads_site : Reads readSite CkProfileSiteDescriptor.bytes (·.kind.Bounded) := by
  have h := (reads_array 16).bind (·.id) (fun id ↦
    (reads_array 32).bind (·.functionDigest) (fun functionDigest ↦
    reads_u32.bind (·.location) (fun location ↦
    reads_siteKind.bind (·.kind) (fun kind ↦
    Reads.pure (⟨id, functionDigest, location, kind⟩ : CkProfileSiteDescriptor))
      (by grind)) (by grind)) (by grind)) (by grind)
  apply h.congr
  · simp
  · intro site _
    simp [CkProfileSiteDescriptor.bytes]

theorem candidates_over {α : Type} {candidates : List α} :
    (candidates = [] ∨ ckProfileMaxCandidates.toNat < candidates.length) ↔
      ¬ (0 < candidates.length ∧ candidates.length ≤ 8) := by
  have hmax : ckProfileMaxCandidates.toNat = 8 := rfl
  rw [← List.length_eq_zero_iff]
  omega

theorem encodeSite_eq_ok (site : CkProfileSiteDescriptor) (bytes : List UInt8) :
    encodeSite site = .ok bytes ↔ site.kind.Bounded ∧ bytes = site.bytes := by
  obtain ⟨id, functionDigest, location, kind⟩ := site
  cases kind with
  | candidateConstant decisionIdentity candidates =>
      simp only [encodeSite, CkProfileSiteKind.Bounded, CkProfileSiteDescriptor.bytes]
      split
      · rename_i hover
        simp [candidates_over.mp hover]
      · rename_i hwithin
        rw [candidates_over, not_not] at hwithin
        simp [hwithin, eq_comm (a := bytes)]
  | _ => simp [encodeSite, CkProfileSiteKind.Bounded, CkProfileSiteDescriptor.bytes, eq_comm]

/-! ## Tables -/

def tableBytes {α : Type} (write : α → List UInt8) (l : List α) : List UInt8 :=
  bigEndian 4 l.length ++ l.flatMap write

theorem reads_table {α : Type} (limit : String) {record : ProfileReader α}
    {write : α → List UInt8} {valid : α → Prop} (h : Reads record write valid) :
    Reads (readTable limit record) (tableBytes write)
      (fun l ↦ l.length ≤ 1048576 ∧ ∀ a ∈ l, valid a) := by
  have hmax : ckProfileMaxSites.toNat = 1048576 := rfl
  have htable := reads_u32.bind (fun l : List α ↦ UInt32.ofNat l.length)
    (fun count ↦ (h.repeated count.toNat).ite (c := ckProfileMaxSites < count)
      (e := .resourceLimit limit))
    (by
      rintro count l ⟨_, hlen, _⟩
      rw [hlen]
      exact UInt32.ofNat_toNat)
  have hsize : ∀ l : List α, l.length ≤ 1048576 →
      (UInt32.ofNat l.length).toNat = l.length := by
    intro l hl
    rw [UInt32.toNat_ofNat']
    omega
  have hbound : ∀ l : List α, (True ∧ ¬ ckProfileMaxSites < UInt32.ofNat l.length ∧
      l.length = (UInt32.ofNat l.length).toNat ∧ ∀ a ∈ l, valid a) ↔
      l.length ≤ 1048576 ∧ ∀ a ∈ l, valid a := by
    intro l
    rw [UInt32.lt_iff_toNat_lt, hmax]
    constructor
    · rintro ⟨_, hlt, hlen, hl⟩
      exact ⟨by omega, hl⟩
    · rintro ⟨hlen, hl⟩
      rw [hsize l hlen]
      exact ⟨trivial, by omega, rfl, hl⟩
  apply htable.congr
  · intro l
    exact (hbound l).symm
  · intro l hl
    rw [u32Bytes, hsize l ((hbound l).mp hl).1]
    rfl

/-- A table of records is decoded from exactly the bytes it is encoded to, when its records are
and both sides ask for the same order. -/
theorem table_eq_ok {α : Type} {limit trailing : String} {record : ProfileReader α}
    {write : α → List UInt8} {valid : α → Prop} (h : Reads record write valid)
    {encode : α → Except CkProfileError (List UInt8)}
    (hencode : ∀ a bytes, encode a = .ok bytes ↔ valid a ∧ bytes = write a)
    {canonical : List α → Except CkProfileError Unit} {bytes : List UInt8} {l : List α} :
    (do
      let l ← (readTable limit record).whole (.nonCanonicalOrder trailing) bytes
      canonical l
      return l) = .ok l ↔
    (do
      canonical l
      if 2 ^ 32 ≤ l.length then .error .lengthOverflow
      else if ckProfileMaxSites.toNat < l.length then .error (.resourceLimit limit)
      else
        let records ← l.mapM encode
        return Lib.bigEndian 4 l.length ++ records.flatten) = .ok bytes := by
  have hmax : ckProfileMaxSites.toNat = 1048576 := rfl
  have hread : ∀ l, (readTable limit record).whole (.nonCanonicalOrder trailing) bytes = .ok l ↔
      (l.length ≤ 1048576 ∧ ∀ a ∈ l, valid a) ∧ bytes = tableBytes write l :=
    fun _ ↦ (reads_table limit h).whole_eq_ok
  rw [check_bind_eq_ok, hmax]
  constructor
  · intro hdecode
    obtain ⟨l', hwhole, hrest⟩ := bind_eq_ok.mp hdecode
    obtain ⟨hcanonical, hl⟩ := check_bind_eq_ok.mp hrest
    cases pure_eq_ok.mp hl
    obtain ⟨⟨hlen, hl⟩, rfl⟩ := (hread l).mp hwhole
    refine ⟨hcanonical, ?_⟩
    rw [if_neg (by omega), if_neg (by omega)]
    apply bind_eq_ok.mpr
    exact ⟨l.map write, (mapM_eq_ok_iff hencode).mpr ⟨hl, rfl⟩, rfl⟩
  · rintro ⟨hcanonical, hencoded⟩
    split_ifs at hencoded with hover hlimit
    obtain ⟨records, hrecords, hbytes⟩ := bind_eq_ok.mp hencoded
    cases pure_eq_ok.mp hbytes
    obtain ⟨hl, rfl⟩ := (mapM_eq_ok_iff hencode).mp hrecords
    apply bind_eq_ok.mpr
    exact ⟨l, (hread l).mpr ⟨⟨by omega, hl⟩, rfl⟩, check_bind_eq_ok.mpr ⟨hcanonical, rfl⟩⟩

theorem decodeSites_eq_ok {bytes : List UInt8} {sites : List CkProfileSiteDescriptor} :
    decodeSites bytes = .ok sites ↔ encodeSites sites = .ok bytes :=
  table_eq_ok reads_site encodeSite_eq_ok

/-! ## Counters -/

namespace CkProfileCounter

/-- The number of candidates fits the format. -/
def Bounded : CkProfileCounter → Prop
  | .candidateConstant candidates _ _ => 0 < candidates.length ∧ candidates.length ≤ 8
  | _ => True

end CkProfileCounter

theorem reads_buckets :
    Reads readBuckets (fun buckets ↦ buckets.toList.flatMap u64Bytes) (fun _ ↦ True) := by
  have hf : ∀ (l : List UInt64) (v : Vector UInt64 16),
      (if h : l.length = 16 then .ok ⟨l.toArray, h⟩ else .error .truncated :
        Except CkProfileError (Vector UInt64 16)) = .ok v ↔ l = v.toList ∧ True := by
    intro l v
    constructor
    · intro h
      split at h
      · cases h
        exact ⟨by simp, trivial⟩
      · cases h
    · rintro ⟨rfl, -⟩
      obtain ⟨l, hlen⟩ := v
      simp [hlen]
  apply ((reads_u64.repeated 16).mapExcept hf).congr
  · simp
  · intro v _
    rfl

theorem reads_scalar : Reads (do
      let value ← readU64
      return .scalar value) CkProfileCounter.payload
    (fun counter ↦ counter.tag = 1 ∧ counter.Bounded) := by
  have h := reads_u64.bind (fun | .scalar value => value | _ => 0)
    (fun value ↦ Reads.pure (CkProfileCounter.scalar value)) (by grind)
  apply h.congr
  · intro counter
    cases counter <;> simp [CkProfileCounter.tag, CkProfileCounter.Bounded]
  · intro counter hcounter
    cases counter <;> simp_all [CkProfileCounter.payload]

theorem reads_histogram : Reads (do
      let buckets ← readBuckets
      let saturated ← readBool "counter.histogram.saturated"
      return .histogram buckets saturated) CkProfileCounter.payload
    (fun counter ↦ counter.tag = 2 ∧ counter.Bounded) := by
  have h := reads_buckets.bind
    (fun | .histogram buckets _ => buckets | _ => Vector.replicate 16 0) (fun buckets ↦
    (reads_bool "counter.histogram.saturated").bind
      (fun | .histogram _ saturated => saturated | _ => false) (fun saturated ↦
    Reads.pure (CkProfileCounter.histogram buckets saturated)) (by grind)) (by grind)
  apply h.congr
  · intro counter
    cases counter <;> simp [CkProfileCounter.tag, CkProfileCounter.Bounded]
  · intro counter hcounter
    cases counter <;> simp_all [CkProfileCounter.payload]

theorem reads_candidateCounters : Reads (do
      let count ← readU8
      if count = 0 ∨ ckProfileMaxCandidates < count then
        Lib.Reader.fail (.resourceLimit "candidate counters")
      else
        let candidates ← Lib.Reader.repeated readU64 count.toNat
        let other ← readU64
        let saturated ← readBool "counter.constant.saturated"
        return .candidateConstant candidates other saturated) CkProfileCounter.payload
    (fun counter ↦ counter.tag = 3 ∧ counter.Bounded) := by
  have h := reads_u8.bind
    (fun | .candidateConstant candidates _ _ => UInt8.ofNat candidates.length | _ => 0)
    (fun count ↦
    ((reads_u64.repeated count.toNat).bind
      (fun | .candidateConstant candidates _ _ => candidates | _ => []) (fun candidates ↦
    reads_u64.bind (fun | .candidateConstant _ other _ => other | _ => 0) (fun other ↦
    (reads_bool "counter.constant.saturated").bind
      (fun | .candidateConstant _ _ saturated => saturated | _ => false) (fun saturated ↦
    Reads.pure (CkProfileCounter.candidateConstant candidates other saturated))
      (by grind)) (by grind)) (by grind)).ite (c := count = 0 ∨ ckProfileMaxCandidates < count)
        (e := .resourceLimit "candidate counters"))
    (by
      rintro count counter ⟨hcount, ⟨hlen, _⟩, _, _, hcounter⟩
      cases counter with
      | candidateConstant _ _ _ => exact ((candidateCount _ _).mp ⟨hcount, hlen⟩).1.symm
      | _ => cases hcounter)
  apply h.congr
  · intro counter
    cases counter with
    | candidateConstant candidates other saturated =>
        have hcount := candidateCount candidates.length (UInt8.ofNat candidates.length)
        simp only [true_and] at hcount
        simp [CkProfileCounter.tag, CkProfileCounter.Bounded, ← hcount]
    | _ => simp [CkProfileCounter.tag]
  · intro counter hcounter
    cases counter with
    | candidateConstant candidates other saturated => simp [CkProfileCounter.payload]
    | _ => simp at hcounter

theorem reads_counter : Reads readCounter (fun counter ↦ [counter.tag] ++ counter.payload)
    CkProfileCounter.Bounded := by
  have hbranch : ∀ tag : UInt8, Reads (if tag = 1 then do
        let value ← readU64
        return .scalar value
      else if tag = 2 then do
        let buckets ← readBuckets
        let saturated ← readBool "counter.histogram.saturated"
        return .histogram buckets saturated
      else if tag = 3 then do
        let count ← readU8
        if count = 0 ∨ ckProfileMaxCandidates < count then
          Lib.Reader.fail (.resourceLimit "candidate counters")
        else
          let candidates ← Lib.Reader.repeated readU64 count.toNat
          let other ← readU64
          let saturated ← readBool "counter.constant.saturated"
          return .candidateConstant candidates other saturated
      else Lib.Reader.fail (.invalidValue "counter.kind")) CkProfileCounter.payload
      (fun counter ↦ counter.tag = tag ∧ counter.Bounded) := by
    intro tag
    split_ifs with h1 h2 h3
    · exact h1 ▸ reads_scalar
    · exact h2 ▸ reads_histogram
    · exact h3 ▸ reads_candidateCounters
    · apply Reads.fail
      rintro counter ⟨rfl, _⟩
      cases counter <;> simp_all [CkProfileCounter.tag]
  apply (reads_u8.bind (·.tag) hbranch (by grind)).congr
  · simp
  · intro counter _
    rfl

def CkProfileCounterRecord.bytes (record : CkProfileCounterRecord) : List UInt8 :=
  record.siteId.toList ++ [record.counter.tag] ++ record.counter.payload

theorem reads_counterRecord :
    Reads readCounterRecord CkProfileCounterRecord.bytes (·.counter.Bounded) := by
  have h := (reads_array 16).bind (·.siteId) (fun siteId ↦
    reads_counter.bind (·.counter) (fun counter ↦
    Reads.pure (⟨siteId, counter⟩ : CkProfileCounterRecord)) (by grind)) (by grind)
  apply h.congr
  · simp
  · intro record _
    simp [CkProfileCounterRecord.bytes]

theorem encodeCounter_eq_ok (record : CkProfileCounterRecord) (bytes : List UInt8) :
    encodeCounter record = .ok bytes ↔ record.counter.Bounded ∧ bytes = record.bytes := by
  obtain ⟨siteId, counter⟩ := record
  cases counter with
  | candidateConstant candidates other saturated =>
      simp only [encodeCounter, CkProfileCounter.Bounded, CkProfileCounterRecord.bytes]
      split
      · rename_i hover
        simp [candidates_over.mp hover]
      · rename_i hwithin
        rw [candidates_over, not_not] at hwithin
        simp [hwithin, eq_comm (a := bytes)]
  | _ => simp [encodeCounter, CkProfileCounter.Bounded, CkProfileCounterRecord.bytes, eq_comm]

theorem decodeCounters_eq_ok {bytes : List UInt8} {counters : List CkProfileCounterRecord} :
    decodeCounters bytes = .ok counters ↔ encodeCounters counters = .ok bytes :=
  table_eq_ok reads_counterRecord encodeCounter_eq_ok

/-! ## Fixed fields -/

theorem decodeFlags_eq_ok {bytes : List UInt8} {flags : Bool × Bool} :
    decodeFlags bytes = .ok flags ↔ bytes = encodeFlags flags.1 flags.2 := by
  obtain ⟨overflowed, incomplete⟩ := flags
  have hlen : (encodeFlags overflowed incomplete).length = 2 := rfl
  unfold decodeFlags
  split
  · rename_i first second
    simp only [bind_eq_ok, decodeBool_eq_ok, pure_eq_ok, Prod.mk.injEq]
    constructor
    · rintro ⟨_, rfl, _, rfl, rfl, rfl⟩
      rfl
    · intro h
      cases h
      exact ⟨_, rfl, _, rfl, rfl, rfl⟩
  · rename_i hne
    simp only [reduceCtorEq, false_iff]
    rintro rfl
    exact hne _ _ rfl

theorem decodeArray_eq_ok {n : Nat} {field : String} {bytes : List UInt8} {v : Vector UInt8 n} :
    decodeArray n field bytes = .ok v ↔ bytes = v.toList := by
  unfold decodeArray
  constructor
  · intro h
    split at h
    · cases h
      simp
    · cases h
  · rintro rfl
    obtain ⟨bytes, hlen⟩ := v
    simp [hlen]

theorem decodeU64_eq_ok {field : String} {bytes : List UInt8} {x : UInt64} :
    decodeU64 field bytes = .ok x ↔ bytes = u64Bytes x := by
  unfold decodeU64 u64Bytes
  constructor
  · intro h
    split at h
    · rename_i hlen
      cases h
      have hlt := ofBigEndian_lt bytes
      rw [hlen] at hlt
      rw [UInt64.toNat_ofNat', Nat.mod_eq_of_lt (by simpa using hlt), ← hlen,
        bigEndian_ofBigEndian]
    · cases h
  · rintro rfl
    have hlt := x.toNat_lt
    rw [if_pos (bigEndian_length 8 _), ofBigEndian_bigEndian, Nat.mod_eq_of_lt (by omega),
      UInt64.ofNat_toNat]

theorem decodeU32_eq_ok {field : String} {bytes : List UInt8} {x : UInt32} :
    decodeU32 field bytes = .ok x ↔ bytes = u32Bytes x := by
  unfold decodeU32 u32Bytes
  constructor
  · intro h
    split at h
    · rename_i hlen
      cases h
      have hlt := ofBigEndian_lt bytes
      rw [hlen] at hlt
      rw [UInt32.toNat_ofNat', Nat.mod_eq_of_lt (by simpa using hlt), ← hlen,
        bigEndian_ofBigEndian]
    · cases h
  · rintro rfl
    have hlt := x.toNat_lt
    rw [if_pos (bigEndian_length 4 _), ofBigEndian_bigEndian, Nat.mod_eq_of_lt (by omega),
      UInt32.ofNat_toNat]

end CalcKernel
