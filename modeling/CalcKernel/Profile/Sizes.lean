import CalcKernel.Profile.RoundTrip

/-!
# Sizes of profiles

The limits on sites, candidates and strings keep every profile below the limit on
its bytes, so a profile with valid tables is always serialized.
-/

namespace CalcKernel

open Lib

theorem flatMap_length_le {α : Type} {write : α → List UInt8} {limit : Nat} {l : List α}
    (h : ∀ a ∈ l, (write a).length ≤ limit) : (l.flatMap write).length ≤ l.length * limit := by
  induction l with
  | nil => simp
  | cons a l ih =>
      have hhead := h a List.mem_cons_self
      have htail := ih fun b hb ↦ h b (List.mem_cons_of_mem _ hb)
      rw [List.flatMap_cons, List.length_append, List.length_cons, Nat.succ_mul]
      omega

@[simp] theorem u16Bytes_length (x : UInt16) : (u16Bytes x).length = 2 := bigEndian_length 2 _
@[simp] theorem u32Bytes_length (x : UInt32) : (u32Bytes x).length = 4 := bigEndian_length 4 _
@[simp] theorem u64Bytes_length (x : UInt64) : (u64Bytes x).length = 8 := bigEndian_length 8 _
@[simp] theorem i64Bytes_length (x : Int64) : (i64Bytes x).length = 8 := bigEndian_length 8 _
@[simp] theorem boolByte_length (b : Bool) : (boolByte b).length = 1 := rfl

theorem stringBytes_length {s : String} (h : ValidString s) : (stringBytes s).length ≤ 4100 := by
  have := h.2.1
  rw [stringBytes, List.length_append, bigEndian_length, utf8Bytes_length]
  omega

theorem target_bytes_length {target : CkProfileTargetIdentity} (htriple : ValidString target.triple)
    (habi : ValidString target.osAbi) : target.bytes.length ≤ 8240 := by
  have htriple := stringBytes_length htriple
  have habi := stringBytes_length habi
  simp only [CkProfileTargetIdentity.bytes, List.length_append, List.length_singleton,
    Vector.length_toList]
  omega

theorem compiler_bytes_length {compiler : CkCompilerProfileIdentity}
    (hversion : ValidString compiler.packageVersion) : compiler.bytes.length ≤ 4200 := by
  have hversion := stringBytes_length hversion
  simp only [CkCompilerProfileIdentity.bytes, List.length_append, Vector.length_toList]
  omega

theorem contract_bytes_length (contract : CkProfileContract) : contract.bytes.length = 57 := by
  simp [CkProfileContract.bytes]

theorem identity_bytes_length {identity : CkProfileIdentity} (h : identity.Valid) :
    identity.bytes.length ≤ 13000 := by
  have hcompiler := compiler_bytes_length h.1
  have htarget := target_bytes_length h.2.1 h.2.2.1
  have hcontract := contract_bytes_length identity.contract
  have hmodule : identity.module.bytes.length = 96 := by simp [CkModuleProfileIdentity.bytes]
  have hschemas : identity.schemas.bytes.length = 36 := by simp [CkProfileSchemaIdentity.bytes]
  have hmodes : identity.modes.bytes.length = 7 := by simp [CkProfileModes.bytes]
  have hmagic : (utf8Bytes "CKIDENT1").length = 8 := rfl
  simp only [CkProfileIdentity.bytes, List.length_append, hmagic, hmodule, hschemas, hmodes,
    hcontract]
  omega

theorem site_bytes_length {site : CkProfileSiteDescriptor} (h : site.kind.Bounded) :
    site.bytes.length ≤ 122 := by
  have hpayload : site.kind.payload.length ≤ 69 := by
    cases hkind : site.kind with
    | candidateConstant decisionIdentity candidates =>
        rw [hkind] at h
        have hbytes : (candidates.flatMap i64Bytes).length ≤ candidates.length * 8 :=
          flatMap_length_le (by simp)
        have := h.2
        simp [CkProfileSiteKind.payload] at hbytes ⊢
        omega
    | _ => simp [CkProfileSiteKind.payload]
  simp [CkProfileSiteDescriptor.bytes]
  omega

theorem record_bytes_length {record : CkProfileCounterRecord} (h : record.counter.Bounded) :
    record.bytes.length ≤ 146 := by
  have hpayload : record.counter.payload.length ≤ 129 := by
    cases hcounter : record.counter with
    | scalar value => simp [CkProfileCounter.payload]
    | histogram buckets saturated =>
        have hbytes : (buckets.toList.flatMap u64Bytes).length ≤ buckets.toList.length * 8 :=
          flatMap_length_le (by simp)
        simp [CkProfileCounter.payload] at hbytes ⊢
    | candidateConstant candidates other saturated =>
        rw [hcounter] at h
        have hbytes : (candidates.flatMap u64Bytes).length ≤ candidates.length * 8 :=
          flatMap_length_le (by simp)
        have := h.2
        simp [CkProfileCounter.payload] at hbytes ⊢
        omega
  simp [CkProfileCounterRecord.bytes]
  omega

/-! ## Tables -/

theorem encodeSites_eq_ok {sites : List CkProfileSiteDescriptor} {bytes : List UInt8} :
    encodeSites sites = .ok bytes ↔ ensureSitesCanonical sites = .ok () ∧
      (sites.length ≤ 1048576 ∧ ∀ site ∈ sites, site.kind.Bounded) ∧
      bytes = tableBytes CkProfileSiteDescriptor.bytes sites := by
  rw [← decodeSites_eq_ok, decodeSites, bind_eq_ok]
  simp only [(reads_table "site count" reads_site).whole_eq_ok, check_bind_eq_ok, pure_eq_ok]
  constructor
  · rintro ⟨sites', ⟨hsites, hbytes⟩, hcanonical, rfl⟩
    exact ⟨hcanonical, hsites, hbytes⟩
  · rintro ⟨hcanonical, hsites, hbytes⟩
    exact ⟨sites, ⟨hsites, hbytes⟩, hcanonical, rfl⟩

theorem encodeCounters_eq_ok {counters : List CkProfileCounterRecord} {bytes : List UInt8} :
    encodeCounters counters = .ok bytes ↔ ensureCountersCanonical counters = .ok () ∧
      (counters.length ≤ 1048576 ∧ ∀ record ∈ counters, record.counter.Bounded) ∧
      bytes = tableBytes CkProfileCounterRecord.bytes counters := by
  rw [← decodeCounters_eq_ok, decodeCounters, bind_eq_ok]
  simp only [(reads_table "counter count" reads_counterRecord).whole_eq_ok, check_bind_eq_ok,
    pure_eq_ok]
  constructor
  · rintro ⟨counters', ⟨hcounters, hbytes⟩, hcanonical, rfl⟩
    exact ⟨hcanonical, hcounters, hbytes⟩
  · rintro ⟨hcanonical, hcounters, hbytes⟩
    exact ⟨counters, ⟨hcounters, hbytes⟩, hcanonical, rfl⟩

theorem tableBytes_length_le {α : Type} {write : α → List UInt8} {limit : Nat} {l : List α}
    (hcount : l.length ≤ 1048576) (h : ∀ a ∈ l, (write a).length ≤ limit) :
    (tableBytes write l).length ≤ 4 + 1048576 * limit := by
  have hrecords := flatMap_length_le h
  have hmul : l.length * limit ≤ 1048576 * limit := Nat.mul_le_mul_right limit hcount
  rw [tableBytes, List.length_append, bigEndian_length]
  omega

section Sha

variable (sha : List UInt8 → Digest)

/-- Fields that are small together are always encoded. -/
theorem encodeOuter_ok {magic domain : List UInt8} {fields : List OuterField}
    (hmagic : magic.length = 8) (hfields : (fields.flatMap fieldBytes).length ≤ 536870800) :
    ∃ bytes, encodeOuter sha magic domain fields = .ok bytes := by
  refine ⟨_, (encodeOuter_eq_ok sha).mpr ⟨?_, ?_, rfl⟩⟩
  · intro field hfield
    have hsub : (fieldBytes field).length ≤ (fields.flatMap fieldBytes).length := by
      rw [List.flatMap_def]
      exact (List.sublist_flatten_of_mem (List.mem_map_of_mem hfield)).length_le
    rw [fieldBytes_length] at hsub
    omega
  · simp only [outerBody, List.length_append, hmagic, u32Bytes_length, Vector.length_toList]
    omega

/-- A profile with valid tables is serialized. -/
theorem serializeProfile_ok {profile : CkProfile}
    (htables : validateTables sha profile.identity profile.sites profile.counters = .ok ())
    (hidentity : profile.identity.Valid) {siteBytes : List UInt8}
    (hsites : encodeSites profile.sites = .ok siteBytes)
    (hcanonical : ensureCountersCanonical profile.counters = .ok ())
    (hcounters : profile.counters.length ≤ 1048576 ∧
      ∀ record ∈ profile.counters, record.counter.Bounded)
    (hruns : profile.completedRuns ≠ 0) (hshards : profile.mergedShards ≠ 0) :
    ∃ bytes, serializeProfile sha profile = .ok bytes := by
  have hcanonicalBytes : profile.identity.canonicalBytes = .ok profile.identity.bytes := by
    rw [CkProfileIdentity.canonicalBytes, check_bind_eq_ok, validate_eq_ok]
    exact ⟨hidentity, rfl⟩
  have hcounterBytes := encodeCounters_eq_ok.mpr ⟨hcanonical, hcounters, rfl⟩
  obtain ⟨_, hbounded, rfl⟩ := encodeSites_eq_ok.mp hsites
  have hidentitySize := identity_bytes_length hidentity
  have hsiteSize : (tableBytes CkProfileSiteDescriptor.bytes profile.sites).length ≤
      4 + 1048576 * 122 :=
    tableBytes_length_le hbounded.1 fun site hsite ↦ site_bytes_length (hbounded.2 site hsite)
  have hcounterSize : (tableBytes CkProfileCounterRecord.bytes profile.counters).length ≤
      4 + 1048576 * 146 :=
    tableBytes_length_le hcounters.1 fun record hrecord ↦
      record_bytes_length (hcounters.2 record hrecord)
  have hflags : (encodeFlags profile.overflowed profile.incompleteObservations).length = 2 := rfl
  obtain ⟨bytes, hbytes⟩ : ∃ bytes, encodeOuter sha profileMagic profileDomain
      [(1, profile.identity.bytes), (2, tableBytes CkProfileSiteDescriptor.bytes profile.sites),
        (3, tableBytes CkProfileCounterRecord.bytes profile.counters),
        (4, u64Bytes profile.completedRuns), (5, u32Bytes profile.mergedShards),
        (6, encodeFlags profile.overflowed profile.incompleteObservations)] = .ok bytes := by
    apply encodeOuter_ok sha magic_length.2
    simp only [List.flatMap_cons, List.flatMap_nil, List.length_append, fieldBytes_length, hflags,
      u32Bytes_length, u64Bytes_length, List.length_nil]
    omega
  refine ⟨bytes, ?_⟩
  unfold serializeProfile
  rw [check_bind_eq_ok]
  refine ⟨htables, ?_⟩
  rw [if_neg (not_or.mpr ⟨hruns, hshards⟩)]
  refine bind_eq_ok.mpr ⟨_, hcanonicalBytes, bind_eq_ok.mpr ⟨_, hsites, ?_⟩⟩
  exact bind_eq_ok.mpr ⟨_, hcounterBytes, hbytes⟩

end Sha

end CalcKernel
