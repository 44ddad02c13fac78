import CalcKernel.Lib.Assoc
import CalcKernel.Profile.Identity

/-!
# The codec of profile identities

Each reader of a field, and of a record of fields, reads what the writer of it
writes; decoding the canonical bytes is the inverse of writing them.
-/

namespace CalcKernel

open Lib

/-! ## Primitive fields -/

theorem reads_array (n : Nat) :
    Reads (readArray n) (fun v : Vector UInt8 n ↦ v.toList) (fun _ ↦ True) :=
  Reads.array n CkProfileError.truncated CkProfileError.truncated

theorem reads_u8 : Reads readU8 (fun x ↦ [x]) (fun _ ↦ True) := Reads.u8 _

theorem reads_u16 : Reads readU16 u16Bytes (fun _ ↦ True) := Reads.u16 _

theorem reads_u32 : Reads readU32 u32Bytes (fun _ ↦ True) := Reads.u32 _

theorem reads_u64 : Reads readU64 u64Bytes (fun _ ↦ True) := by
  have h := (Reads.natural 8 CkProfileError.truncated).map (f := UInt64.ofNat) (g := UInt64.toNat)
    (fun n hn ↦ by simpa using hn) (fun x ↦ UInt64.ofNat_toNat)
  apply h.congr
  · intro x
    simpa using x.toNat_lt
  · intro x _
    rfl

theorem reads_i64 : Reads readI64 i64Bytes (fun _ ↦ True) :=
  reads_u64.map (fun x _ ↦ UInt64.toUInt64_toInt64 x) Int64.toInt64_toUInt64

/-- A byte decoded by a partial function that undoes a tag. -/
theorem reads_tag {α : Type} {decode : UInt8 → Except CkProfileError α} {tag : α → UInt8}
    (h : ∀ x a, decode x = .ok a ↔ x = tag a) :
    Reads (readTag decode) (fun a ↦ [tag a]) (fun _ ↦ True) := by
  have hf : ∀ x a, decode x = .ok a ↔ x = tag a ∧ True := by simpa using h
  apply (reads_u8.mapExcept hf).congr
  · simp
  · intro a _
    rfl

theorem decodeBool_eq_ok (field : String) (x : UInt8) (b : Bool) :
    decodeBool field x = .ok b ↔ x = if b then 1 else 0 := by
  unfold decodeBool
  split
  · cases b <;> simp_all
  · split
    · cases b <;> simp_all
    · cases b <;> simp_all

theorem reads_bool (field : String) : Reads (readBool field) boolByte (fun _ ↦ True) :=
  reads_tag (decodeBool_eq_ok field)

theorem decodeEndianness_eq_ok (x : UInt8) (a : CkProfileEndianness) :
    decodeEndianness x = .ok a ↔ x = endiannessTag a := by
  unfold decodeEndianness
  repeat' split
  all_goals cases a <;> simp_all [endiannessTag]

theorem decodeObjectFormat_eq_ok (x : UInt8) (a : CkProfileObjectFormat) :
    decodeObjectFormat x = .ok a ↔ x = objectFormatTag a := by
  unfold decodeObjectFormat
  repeat' split
  all_goals cases a <;> simp_all [objectFormatTag]

theorem decodeTopology_eq_ok (x : UInt8) (a : CkProfileTopology) :
    decodeTopology x = .ok a ↔ x = topologyTag a := by
  unfold decodeTopology
  repeat' split
  all_goals cases a <;> simp_all [topologyTag]

theorem decodeOptimization_eq_ok (x : UInt8) (a : CkProfileOptimizationFamily) :
    decodeOptimization x = .ok a ↔ x = optimizationTag a := by
  unfold decodeOptimization
  repeat' split
  all_goals cases a <;> simp_all [optimizationTag]

theorem decodeCpuPolicy_eq_ok (x : UInt8) (a : CkProfileCpuPolicy) :
    decodeCpuPolicy x = .ok a ↔ x = cpuPolicyTag a := by
  unfold decodeCpuPolicy
  repeat' split
  all_goals cases a <;> simp_all [cpuPolicyTag]

/-! ## Strings -/

/-- A string that a profile may hold. -/
def ValidString (s : String) : Prop :=
  s.utf8ByteSize ≠ 0 ∧ s.utf8ByteSize ≤ 4096 ∧ '\x00' ∉ s.toList

theorem validateString_eq_ok {s field : String} :
    validateString s field = .ok () ↔ ValidString s := by
  unfold validateString ValidString
  split
  · rename_i h
    simp only [reduceCtorEq, false_iff]
    rintro ⟨hempty, hlong, hnul⟩
    rcases h with h | h | h
    · exact hempty h
    · omega
    · exact hnul h
  · rename_i h
    simp only [not_or, not_lt] at h
    simpa using h

theorem utf8Bytes_length (s : String) : (utf8Bytes s).length = s.utf8ByteSize := rfl

theorem fromUTF8?_eq_some {bytes : List UInt8} {s : String} :
    String.fromUTF8? ⟨bytes.toArray⟩ = some s ↔ bytes = utf8Bytes s := by
  constructor
  · intro h
    unfold String.fromUTF8? at h
    split at h
    · cases h
      simp [utf8Bytes, String.fromUTF8]
    · cases h
  · rintro rfl
    have harray : (⟨(utf8Bytes s).toArray⟩ : ByteArray) = s.toByteArray := by
      simp [utf8Bytes]
    rw [harray, String.fromUTF8?, dif_pos s.isValidUTF8]
    rfl

theorem decodeString_eq_ok {bytes : List UInt8} {s : String} :
    decodeString bytes = .ok s ↔ bytes = utf8Bytes s ∧ ValidString s := by
  unfold decodeString
  split
  · rename_i h
    simp only [reduceCtorEq, false_iff, not_and]
    intro hbytes
    rw [fromUTF8?_eq_some.mpr hbytes] at h
    cases h
  · rename_i value h
    have hvalue := fromUTF8?_eq_some.mp h
    split
    · rename_i hvalid
      rw [validateString_eq_ok] at hvalid
      constructor
      · intro hs
        cases hs
        exact ⟨hvalue, hvalid⟩
      · rintro ⟨hs, _⟩
        have hfrom := fromUTF8?_eq_some.mpr hs
        rw [h] at hfrom
        cases hfrom
        rfl
    · rename_i e hinvalid
      simp only [reduceCtorEq, false_iff, not_and]
      intro hs hvalid
      have hfrom := fromUTF8?_eq_some.mpr hs
      rw [h] at hfrom
      cases hfrom
      rw [validateString_eq_ok.mpr hvalid] at hinvalid
      cases hinvalid

theorem reads_string : Reads readString stringBytes ValidString := by
  have hbytes : ∀ n : Nat, Reads (do
      let bytes ← Reader.exact n CkProfileError.truncated
      decodeString bytes) utf8Bytes (fun s ↦ (utf8Bytes s).length = n ∧ ValidString s) := fun n ↦
    (Reads.exact n CkProfileError.truncated).mapExcept fun _ _ ↦ decodeString_eq_ok
  have h := reads_u32.bind (fun s : String ↦ UInt32.ofNat s.utf8ByteSize)
    (fun length ↦ (hbytes length.toNat).ite (c := 4096 < length.toNat)
      (e := .resourceLimit "identity string"))
    (by
      rintro length s ⟨_, hlen, _⟩
      rw [← utf8Bytes_length, hlen]
      exact UInt32.ofNat_toNat)
  have hsize : ∀ s : String, s.utf8ByteSize ≤ 4096 →
      (UInt32.ofNat s.utf8ByteSize).toNat = s.utf8ByteSize := by
    intro s hs
    rw [UInt32.toNat_ofNat']
    omega
  apply h.congr
  · intro s
    constructor
    · intro hs
      rw [hsize s hs.2.1]
      exact ⟨trivial, by simpa using hs.2.1, utf8Bytes_length s, hs⟩
    · rintro ⟨_, _, _, hs⟩
      exact hs
  · rintro s ⟨_, _, _, hs⟩
    rw [u32Bytes, hsize s hs.2.1]
    rfl

/-! ## Records -/

theorem reads_compiler : Reads readCompiler CkCompilerProfileIdentity.bytes
    (fun c ↦ ValidString c.packageVersion) := by
  have h := reads_string.bind (·.packageVersion) (fun packageVersion ↦
    (reads_array 32).bind (·.sourceIdentity) (fun sourceIdentity ↦
    (reads_array 32).bind (·.profileRuntimeIdentity) (fun profileRuntimeIdentity ↦
    Reads.pure (⟨packageVersion, sourceIdentity, profileRuntimeIdentity⟩ :
      CkCompilerProfileIdentity)) (by grind)) (by grind)) (by grind)
  apply h.congr
  · simp
  · intro c _
    simp [CkCompilerProfileIdentity.bytes]

theorem reads_module : Reads readModule CkModuleProfileIdentity.bytes
    (fun _ ↦ True) := by
  have h := (reads_array 32).bind (·.semanticGraphDigest) (fun semanticGraphDigest ↦
    (reads_array 32).bind (·.preProfileKirDigest) (fun preProfileKirDigest ↦
    (reads_array 32).bind (·.siteTableDigest) (fun siteTableDigest ↦
    Reads.pure (⟨semanticGraphDigest, preProfileKirDigest, siteTableDigest⟩ :
      CkModuleProfileIdentity)) (by grind)) (by grind)) (by grind)
  apply h.congr
  · simp
  · intro c _
    simp [CkModuleProfileIdentity.bytes]

theorem reads_schemas : Reads readSchemas CkProfileSchemaIdentity.bytes
    (fun _ ↦ True) := by
  have h := reads_u32.bind (·.language) (fun language ↦
    reads_u32.bind (·.nativeAbi) (fun nativeAbi ↦
    reads_u32.bind (·.runtimeAbi) (fun runtimeAbi ↦
    reads_u32.bind (·.kir) (fun kir ↦
    reads_u32.bind (·.proof) (fun proof ↦
    reads_u32.bind (·.costModel) (fun costModel ↦
    reads_u32.bind (·.targetProfile) (fun targetProfile ↦
    reads_u32.bind (·.llvmBridge) (fun llvmBridge ↦
    reads_u32.bind (·.cache) (fun cache ↦
    Reads.pure (⟨language, nativeAbi, runtimeAbi, kir, proof, costModel, targetProfile,
      llvmBridge, cache⟩ : CkProfileSchemaIdentity)) (by grind)) (by grind)) (by grind))
      (by grind)) (by grind)) (by grind)) (by grind)) (by grind)) (by grind)
  apply h.congr
  · simp
  · intro c _
    simp [CkProfileSchemaIdentity.bytes]

theorem reads_target : Reads readTarget CkProfileTargetIdentity.bytes
    (fun t ↦ ValidString t.triple ∧ ValidString t.osAbi) := by
  have h := reads_string.bind (·.triple) (fun triple ↦
    reads_u8.bind (·.pointerWidth) (fun pointerWidth ↦
    (reads_tag decodeEndianness_eq_ok).bind (·.endianness) (fun endianness ↦
    (reads_tag decodeObjectFormat_eq_ok).bind (·.objectFormat) (fun objectFormat ↦
    reads_string.bind (·.osAbi) (fun osAbi ↦
    (reads_array 32).bind (·.targetSetDigest) (fun targetSetDigest ↦
    Reads.pure (⟨triple, pointerWidth, endianness, objectFormat, osAbi, targetSetDigest⟩ :
      CkProfileTargetIdentity)) (by grind)) (by grind)) (by grind)) (by grind)) (by grind))
      (by grind)
  apply h.congr
  · simp
  · intro c _
    simp [CkProfileTargetIdentity.bytes]

theorem reads_modes : Reads readModes CkProfileModes.bytes
    (fun _ ↦ True) := by
  have h := (reads_bool "modes.overflowChecked").bind (·.overflowChecked) (fun overflowChecked ↦
    (reads_bool "modes.boundsChecked").bind (·.boundsChecked) (fun boundsChecked ↦
    (reads_bool "modes.strictFloat").bind (·.strictFloat) (fun strictFloat ↦
    (reads_bool "modes.sanitizer").bind (·.sanitizer) (fun sanitizer ↦
    (reads_tag decodeTopology_eq_ok).bind (·.topology) (fun topology ↦
    (reads_tag decodeOptimization_eq_ok).bind (·.optimizationFamily) (fun optimizationFamily ↦
    (reads_tag decodeCpuPolicy_eq_ok).bind (·.cpuPolicy) (fun cpuPolicy ↦
    Reads.pure (⟨overflowChecked, boundsChecked, strictFloat, sanitizer, topology,
      optimizationFamily, cpuPolicy⟩ : CkProfileModes)) (by grind)) (by grind)) (by grind))
      (by grind)) (by grind)) (by grind)) (by grind)
  apply h.congr
  · simp
  · intro c _
    simp [CkProfileModes.bytes]

theorem reads_contract : Reads readContract CkProfileContract.bytes
    (fun _ ↦ True) := by
  have h := reads_u32.bind (·.formatSchema) (fun formatSchema ↦
    reads_u32.bind (·.contractSchema) (fun contractSchema ↦
    reads_u32.bind (·.inspectionSchema) (fun inspectionSchema ↦
    reads_u64.bind (·.minimumDecisionObservations) (fun minimumDecisionObservations ↦
    reads_u16.bind (·.branchDominanceBasisPoints) (fun branchDominanceBasisPoints ↦
    reads_u16.bind (·.histogramDominanceBasisPoints) (fun histogramDominanceBasisPoints ↦
    reads_u16.bind (·.coldBasisPoints) (fun coldBasisPoints ↦
    reads_u16.bind (·.hotWorkCoverageBasisPoints) (fun hotWorkCoverageBasisPoints ↦
    reads_u16.bind (·.minimumRootWorkBasisPoints) (fun minimumRootWorkBasisPoints ↦
    reads_u16.bind (·.minimumVariantBenefitBasisPoints) (fun minimumVariantBenefitBasisPoints ↦
    reads_u32.bind (·.minimumAbsoluteCostUnits) (fun minimumAbsoluteCostUnits ↦
    reads_u8.bind (·.maximumEnhancedVariants) (fun maximumEnhancedVariants ↦
    reads_u16.bind (·.maximumAdditionalKirBasisPoints) (fun maximumAdditionalKirBasisPoints ↦
    reads_u32.bind (·.maximumSites) (fun maximumSites ↦
    reads_u32.bind (·.maximumShards) (fun maximumShards ↦
    reads_u8.bind (·.histogramBuckets) (fun histogramBuckets ↦
    reads_u8.bind (·.maximumCandidateConstants) (fun maximumCandidateConstants ↦
    reads_u64.bind (·.maximumProfileBytes) (fun maximumProfileBytes ↦
    Reads.pure (⟨formatSchema, contractSchema, inspectionSchema, minimumDecisionObservations,
      branchDominanceBasisPoints, histogramDominanceBasisPoints, coldBasisPoints,
      hotWorkCoverageBasisPoints, minimumRootWorkBasisPoints, minimumVariantBenefitBasisPoints,
      minimumAbsoluteCostUnits, maximumEnhancedVariants, maximumAdditionalKirBasisPoints,
      maximumSites, maximumShards, histogramBuckets, maximumCandidateConstants,
      maximumProfileBytes⟩ : CkProfileContract)) (by grind)) (by grind)) (by grind)) (by grind))
      (by grind)) (by grind)) (by grind)) (by grind)) (by grind)) (by grind)) (by grind))
      (by grind)) (by grind)) (by grind)) (by grind)) (by grind)) (by grind)) (by grind)
  apply h.congr
  · simp
  · intro c _
    simp [CkProfileContract.bytes]

/-- What the reader of an identity accepts; `validate` asks for more. -/
theorem reads_identity : Reads readIdentity CkProfileIdentity.bytes (fun identity ↦
    ValidString identity.compiler.packageVersion ∧ ValidString identity.target.triple ∧
      ValidString identity.target.osAbi) := by
  have hrecords := reads_compiler.bind (·.compiler) (fun compiler ↦
    reads_module.bind (·.module) (fun module ↦
    reads_schemas.bind (·.schemas) (fun schemas ↦
    reads_target.bind (·.target) (fun target ↦
    reads_modes.bind (·.modes) (fun modes ↦
    reads_contract.bind (·.contract) (fun contract ↦
    Reads.pure (⟨compiler, module, schemas, target, modes, contract⟩ : CkProfileIdentity))
      (by grind)) (by grind)) (by grind)) (by grind)) (by grind)) (by grind)
  have hmagic : (utf8Bytes "CKIDENT1").length = 8 := rfl
  have h := (Reads.exact 8 CkProfileError.truncated).bind (fun _ ↦ utf8Bytes "CKIDENT1")
    (fun magic ↦ hrecords.ite (c := magic ≠ utf8Bytes "CKIDENT1") (e := .unexpectedMagic))
    (fun _ _ h ↦ (not_not.mp h.1).symm)
  apply h.congr
  · intro identity
    simp [hmagic]
  · intro identity _
    simp [CkProfileIdentity.bytes]

/-- What `validate` accepts. -/
def CkProfileIdentity.Valid (identity : CkProfileIdentity) : Prop :=
  ValidString identity.compiler.packageVersion ∧ ValidString identity.target.triple ∧
    ValidString identity.target.osAbi ∧
    (identity.target.pointerWidth = 32 ∨ identity.target.pointerWidth = 64) ∧
    identity.modes.sanitizer = false ∧ identity.contract = .schema1

theorem validate_eq_ok {identity : CkProfileIdentity} :
    identity.validate = .ok () ↔ identity.Valid := by
  have hchecks : (if identity.target.pointerWidth ≠ 32 ∧ identity.target.pointerWidth ≠ 64 then
        .error (.invalidValue "target.pointerWidth")
      else if identity.modes.sanitizer then .error (.invalidValue "modes.sanitizer")
      else if identity.contract ≠ .schema1 then .error (.invalidValue "contract")
      else .ok () : Except CkProfileError Unit) = .ok () ↔
      (identity.target.pointerWidth = 32 ∨ identity.target.pointerWidth = 64) ∧
        identity.modes.sanitizer = false ∧ identity.contract = .schema1 := by
    split
    · rename_i h
      simp only [reduceCtorEq, false_iff, not_and]
      rintro (h32 | h64)
      · exact absurd h32 h.1
      · exact absurd h64 h.2
    · rename_i h
      have hwidth : identity.target.pointerWidth = 32 ∨ identity.target.pointerWidth = 64 := by
        by_contra hne
        exact h (not_or.mp hne)
      split
      · rename_i hsanitizer
        simp [hsanitizer]
      · rename_i hsanitizer
        split
        · rename_i hcontract
          simp [hcontract]
        · rename_i hcontract
          simp_all
  unfold CkProfileIdentity.validate CkProfileIdentity.Valid
  simp only [check_bind_eq_ok, hchecks, validateString_eq_ok]

/-- Decoding accepts exactly the canonical bytes of valid identities. -/
theorem decodeIdentity_eq_ok {bytes : List UInt8} {identity : CkProfileIdentity} :
    decodeIdentity bytes = .ok identity ↔ identity.canonicalBytes = .ok bytes := by
  have hcanonical : identity.canonicalBytes = .ok bytes ↔
      identity.Valid ∧ bytes = identity.bytes := by
    unfold CkProfileIdentity.canonicalBytes
    rw [check_bind_eq_ok, pure_eq_ok, validate_eq_ok, eq_comm (a := bytes)]
  rw [hcanonical, decodeIdentity, bind_eq_ok]
  constructor
  · rintro ⟨read, hread, h⟩
    obtain ⟨hvalid, h⟩ := check_bind_eq_ok.mp h
    cases pure_eq_ok.mp h
    exact ⟨validate_eq_ok.mp hvalid, (reads_identity.whole_eq_ok.mp hread).2⟩
  · rintro ⟨hvalid, rfl⟩
    refine ⟨identity, reads_identity.whole_eq_ok.mpr ⟨?_, rfl⟩, ?_⟩
    · exact ⟨hvalid.1, hvalid.2.1, hvalid.2.2.1⟩
    · exact check_bind_eq_ok.mpr ⟨validate_eq_ok.mpr hvalid, rfl⟩

end CalcKernel
