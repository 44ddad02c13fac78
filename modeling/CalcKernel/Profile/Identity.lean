import CalcKernel.Lib.Codec

/-!
# Profile identities

The compatibility identity of a workload profile, its canonical bytes and the
decoder of these bytes.
-/

namespace CalcKernel

abbrev Digest := Vector UInt8 32

/-- `CkProfileError`, without the failures of file access.  A mismatch keeps the field, not the
two printed values. -/
inductive CkProfileError where
  | unexpectedMagic
  | unsupportedSchema (kind : String) (expected observed : UInt32)
  | digestMismatch
  | truncated
  | resourceLimit (limit : String)
  | lengthOverflow
  | unknownField (context : String) (tag : UInt16)
  | nonCanonicalOrder (context : String)
  | missingField (context : String) (field : UInt16)
  | invalidValue (field : String)
  | invalidUtf8
  | duplicateRunIdentity
  | duplicateShardContent
  | identityMismatch (field : String)
  | siteTableMismatch
  | counterTableMismatch
  | siteIdCollision
  | application (reason : String)
  | mappingTransfer (reason : String)
  | arithmeticOverflow (operation : String)
deriving DecidableEq, Repr

def ckProfileFormatSchema : UInt32 := 1
def ckProfileContractSchema : UInt32 := 1
def ckProfileInspectionSchema : UInt32 := 1
def ckProfileMaxSites : UInt32 := 1048576
def ckProfileMaxShards : UInt32 := 4096
def ckProfileHistogramBuckets : UInt8 := 16
def ckProfileMaxCandidates : UInt8 := 8
def ckProfileMaxBytes : UInt64 := 536870912

structure CkCompilerProfileIdentity where
  packageVersion : String
  sourceIdentity : Digest
  profileRuntimeIdentity : Digest
deriving DecidableEq, Repr

structure CkModuleProfileIdentity where
  semanticGraphDigest : Digest
  preProfileKirDigest : Digest
  siteTableDigest : Digest
deriving DecidableEq, Repr

structure CkProfileSchemaIdentity where
  language : UInt32
  nativeAbi : UInt32
  runtimeAbi : UInt32
  kir : UInt32
  proof : UInt32
  costModel : UInt32
  targetProfile : UInt32
  llvmBridge : UInt32
  cache : UInt32
deriving DecidableEq, Repr

inductive CkProfileEndianness where
  | little | big
deriving DecidableEq, Repr

inductive CkProfileObjectFormat where
  | elf | machO | coff
deriving DecidableEq, Repr

structure CkProfileTargetIdentity where
  triple : String
  pointerWidth : UInt8
  endianness : CkProfileEndianness
  objectFormat : CkProfileObjectFormat
  osAbi : String
  targetSetDigest : Digest
deriving DecidableEq, Repr

inductive CkProfileTopology where
  | nativeExecutable | nativeLibrary
deriving DecidableEq, Repr

inductive CkProfileOptimizationFamily where
  | o2 | o3
deriving DecidableEq, Repr

inductive CkProfileCpuPolicy where
  | baseline | native | multiversion
deriving DecidableEq, Repr

structure CkProfileModes where
  overflowChecked : Bool
  boundsChecked : Bool
  strictFloat : Bool
  sanitizer : Bool
  topology : CkProfileTopology
  optimizationFamily : CkProfileOptimizationFamily
  cpuPolicy : CkProfileCpuPolicy
deriving DecidableEq, Repr

structure CkProfileContract where
  formatSchema : UInt32
  contractSchema : UInt32
  inspectionSchema : UInt32
  minimumDecisionObservations : UInt64
  branchDominanceBasisPoints : UInt16
  histogramDominanceBasisPoints : UInt16
  coldBasisPoints : UInt16
  hotWorkCoverageBasisPoints : UInt16
  minimumRootWorkBasisPoints : UInt16
  minimumVariantBenefitBasisPoints : UInt16
  minimumAbsoluteCostUnits : UInt32
  maximumEnhancedVariants : UInt8
  maximumAdditionalKirBasisPoints : UInt16
  maximumSites : UInt32
  maximumShards : UInt32
  histogramBuckets : UInt8
  maximumCandidateConstants : UInt8
  maximumProfileBytes : UInt64
deriving DecidableEq, Repr

/-- The frozen contract of schema 1. -/
def CkProfileContract.schema1 : CkProfileContract where
  formatSchema := ckProfileFormatSchema
  contractSchema := ckProfileContractSchema
  inspectionSchema := ckProfileInspectionSchema
  minimumDecisionObservations := 128
  branchDominanceBasisPoints := 9000
  histogramDominanceBasisPoints := 8500
  coldBasisPoints := 100
  hotWorkCoverageBasisPoints := 9000
  minimumRootWorkBasisPoints := 100
  minimumVariantBenefitBasisPoints := 1000
  minimumAbsoluteCostUnits := 2
  maximumEnhancedVariants := 2
  maximumAdditionalKirBasisPoints := 10000
  maximumSites := ckProfileMaxSites
  maximumShards := ckProfileMaxShards
  histogramBuckets := ckProfileHistogramBuckets
  maximumCandidateConstants := ckProfileMaxCandidates
  maximumProfileBytes := ckProfileMaxBytes

structure CkProfileIdentity where
  compiler : CkCompilerProfileIdentity
  module : CkModuleProfileIdentity
  schemas : CkProfileSchemaIdentity
  target : CkProfileTargetIdentity
  modes : CkProfileModes
  contract : CkProfileContract
deriving DecidableEq, Repr

/-! ## Primitive fields -/

abbrev ProfileReader := Lib.Reader CkProfileError

def utf8Bytes (s : String) : List UInt8 := s.toByteArray.data.toList

def u16Bytes (x : UInt16) : List UInt8 := Lib.bigEndian 2 x.toNat
def u32Bytes (x : UInt32) : List UInt8 := Lib.bigEndian 4 x.toNat
def u64Bytes (x : UInt64) : List UInt8 := Lib.bigEndian 8 x.toNat
def i64Bytes (x : Int64) : List UInt8 := u64Bytes x.toUInt64
def boolByte (b : Bool) : List UInt8 := [if b then 1 else 0]

def readArray (n : Nat) : ProfileReader (Vector UInt8 n) := do
  let bytes ← Lib.Reader.exact n .truncated
  (if h : bytes.length = n then .ok ⟨bytes.toArray, h⟩ else .error .truncated :
    Except CkProfileError _)

def readU8 : ProfileReader UInt8 := UInt8.ofNat <$> Lib.Reader.natural 1 .truncated
def readU16 : ProfileReader UInt16 := UInt16.ofNat <$> Lib.Reader.natural 2 .truncated
def readU32 : ProfileReader UInt32 := UInt32.ofNat <$> Lib.Reader.natural 4 .truncated
def readU64 : ProfileReader UInt64 := UInt64.ofNat <$> Lib.Reader.natural 8 .truncated
def readI64 : ProfileReader Int64 := UInt64.toInt64 <$> readU64

def decodeBool (field : String) (value : UInt8) : Except CkProfileError Bool :=
  if value = 0 then .ok false else if value = 1 then .ok true else .error (.invalidValue field)

def readBool (field : String) : ProfileReader Bool := do
  let value ← readU8
  decodeBool field value

def validateString (value : String) (field : String) : Except CkProfileError Unit :=
  if value.utf8ByteSize = 0 ∨ 4096 < value.utf8ByteSize ∨ '\x00' ∈ value.toList then
    .error (.invalidValue field)
  else .ok ()

/-- `push_string`, once the string is validated. -/
def stringBytes (s : String) : List UInt8 := Lib.bigEndian 4 s.utf8ByteSize ++ utf8Bytes s

def decodeString (bytes : List UInt8) : Except CkProfileError String :=
  match String.fromUTF8? ⟨bytes.toArray⟩ with
  | none => .error .invalidUtf8
  | some value =>
      match validateString value "identity.string" with
      | .ok () => .ok value
      | .error e => .error e

def readString : ProfileReader String := do
  let length ← readU32
  if 4096 < length.toNat then Lib.Reader.fail (.resourceLimit "identity string")
  else
    let bytes ← Lib.Reader.exact length.toNat .truncated
    decodeString bytes

/-! ## Tags -/

def endiannessTag : CkProfileEndianness → UInt8
  | .little => 1
  | .big => 2

def decodeEndianness (value : UInt8) : Except CkProfileError CkProfileEndianness :=
  if value = 1 then .ok .little
  else if value = 2 then .ok .big
  else .error (.invalidValue "target.endianness")

def objectFormatTag : CkProfileObjectFormat → UInt8
  | .elf => 1
  | .machO => 2
  | .coff => 3

def decodeObjectFormat (value : UInt8) : Except CkProfileError CkProfileObjectFormat :=
  if value = 1 then .ok .elf
  else if value = 2 then .ok .machO
  else if value = 3 then .ok .coff
  else .error (.invalidValue "target.objectFormat")

def topologyTag : CkProfileTopology → UInt8
  | .nativeExecutable => 1
  | .nativeLibrary => 2

def decodeTopology (value : UInt8) : Except CkProfileError CkProfileTopology :=
  if value = 1 then .ok .nativeExecutable
  else if value = 2 then .ok .nativeLibrary
  else .error (.invalidValue "modes.topology")

def optimizationTag : CkProfileOptimizationFamily → UInt8
  | .o2 => 2
  | .o3 => 3

def decodeOptimization (value : UInt8) : Except CkProfileError CkProfileOptimizationFamily :=
  if value = 2 then .ok .o2
  else if value = 3 then .ok .o3
  else .error (.invalidValue "modes.optimizationFamily")

def cpuPolicyTag : CkProfileCpuPolicy → UInt8
  | .baseline => 1
  | .native => 2
  | .multiversion => 3

def decodeCpuPolicy (value : UInt8) : Except CkProfileError CkProfileCpuPolicy :=
  if value = 1 then .ok .baseline
  else if value = 2 then .ok .native
  else if value = 3 then .ok .multiversion
  else .error (.invalidValue "modes.cpuPolicy")

/-! ## Canonical bytes -/

def CkCompilerProfileIdentity.bytes (c : CkCompilerProfileIdentity) : List UInt8 :=
  stringBytes c.packageVersion ++ c.sourceIdentity.toList ++ c.profileRuntimeIdentity.toList

def CkModuleProfileIdentity.bytes (m : CkModuleProfileIdentity) : List UInt8 :=
  m.semanticGraphDigest.toList ++ m.preProfileKirDigest.toList ++ m.siteTableDigest.toList

def CkProfileSchemaIdentity.bytes (s : CkProfileSchemaIdentity) : List UInt8 :=
  [s.language, s.nativeAbi, s.runtimeAbi, s.kir, s.proof, s.costModel, s.targetProfile,
    s.llvmBridge, s.cache].flatMap u32Bytes

def CkProfileTargetIdentity.bytes (t : CkProfileTargetIdentity) : List UInt8 :=
  stringBytes t.triple ++ [t.pointerWidth] ++ [endiannessTag t.endianness] ++
    [objectFormatTag t.objectFormat] ++ stringBytes t.osAbi ++ t.targetSetDigest.toList

def CkProfileModes.bytes (m : CkProfileModes) : List UInt8 :=
  boolByte m.overflowChecked ++ boolByte m.boundsChecked ++ boolByte m.strictFloat ++
    boolByte m.sanitizer ++ [topologyTag m.topology] ++ [optimizationTag m.optimizationFamily] ++
    [cpuPolicyTag m.cpuPolicy]

/-- `encode_contract`. -/
def CkProfileContract.bytes (c : CkProfileContract) : List UInt8 :=
  [c.formatSchema, c.contractSchema, c.inspectionSchema].flatMap u32Bytes ++
    u64Bytes c.minimumDecisionObservations ++
    [c.branchDominanceBasisPoints, c.histogramDominanceBasisPoints, c.coldBasisPoints,
      c.hotWorkCoverageBasisPoints, c.minimumRootWorkBasisPoints,
      c.minimumVariantBenefitBasisPoints].flatMap u16Bytes ++
    u32Bytes c.minimumAbsoluteCostUnits ++ [c.maximumEnhancedVariants] ++
    u16Bytes c.maximumAdditionalKirBasisPoints ++ u32Bytes c.maximumSites ++
    u32Bytes c.maximumShards ++ [c.histogramBuckets] ++ [c.maximumCandidateConstants] ++
    u64Bytes c.maximumProfileBytes

namespace CkProfileIdentity

variable (identity : CkProfileIdentity)

def validate : Except CkProfileError Unit := do
  validateString identity.compiler.packageVersion "compiler.packageVersion"
  validateString identity.target.triple "target.triple"
  validateString identity.target.osAbi "target.osAbi"
  if identity.target.pointerWidth ≠ 32 ∧ identity.target.pointerWidth ≠ 64 then
    .error (.invalidValue "target.pointerWidth")
  else if identity.modes.sanitizer then .error (.invalidValue "modes.sanitizer")
  else if identity.contract ≠ .schema1 then .error (.invalidValue "contract")
  else .ok ()

def bytes : List UInt8 :=
  utf8Bytes "CKIDENT1" ++ identity.compiler.bytes ++ identity.module.bytes ++
    identity.schemas.bytes ++ identity.target.bytes ++ identity.modes.bytes ++
    identity.contract.bytes

def canonicalBytes : Except CkProfileError (List UInt8) := do
  identity.validate
  return identity.bytes

end CkProfileIdentity

def readCompiler : ProfileReader CkCompilerProfileIdentity := do
  let packageVersion ← readString
  let sourceIdentity ← readArray 32
  let profileRuntimeIdentity ← readArray 32
  return ⟨packageVersion, sourceIdentity, profileRuntimeIdentity⟩

def readModule : ProfileReader CkModuleProfileIdentity := do
  let semanticGraphDigest ← readArray 32
  let preProfileKirDigest ← readArray 32
  let siteTableDigest ← readArray 32
  return ⟨semanticGraphDigest, preProfileKirDigest, siteTableDigest⟩

def readSchemas : ProfileReader CkProfileSchemaIdentity := do
  let language ← readU32
  let nativeAbi ← readU32
  let runtimeAbi ← readU32
  let kir ← readU32
  let proof ← readU32
  let costModel ← readU32
  let targetProfile ← readU32
  let llvmBridge ← readU32
  let cache ← readU32
  return ⟨language, nativeAbi, runtimeAbi, kir, proof, costModel, targetProfile, llvmBridge, cache⟩

/-- A tag of one byte. -/
def readTag {α : Type} (decode : UInt8 → Except CkProfileError α) : ProfileReader α := do
  let value ← readU8
  decode value

def readTarget : ProfileReader CkProfileTargetIdentity := do
  let triple ← readString
  let pointerWidth ← readU8
  let endianness ← readTag decodeEndianness
  let objectFormat ← readTag decodeObjectFormat
  let osAbi ← readString
  let targetSetDigest ← readArray 32
  return ⟨triple, pointerWidth, endianness, objectFormat, osAbi, targetSetDigest⟩

def readModes : ProfileReader CkProfileModes := do
  let overflowChecked ← readBool "modes.overflowChecked"
  let boundsChecked ← readBool "modes.boundsChecked"
  let strictFloat ← readBool "modes.strictFloat"
  let sanitizer ← readBool "modes.sanitizer"
  let topology ← readTag decodeTopology
  let optimizationFamily ← readTag decodeOptimization
  let cpuPolicy ← readTag decodeCpuPolicy
  return ⟨overflowChecked, boundsChecked, strictFloat, sanitizer, topology, optimizationFamily,
    cpuPolicy⟩

/-- `decode_contract`. -/
def readContract : ProfileReader CkProfileContract := do
  let formatSchema ← readU32
  let contractSchema ← readU32
  let inspectionSchema ← readU32
  let minimumDecisionObservations ← readU64
  let branchDominanceBasisPoints ← readU16
  let histogramDominanceBasisPoints ← readU16
  let coldBasisPoints ← readU16
  let hotWorkCoverageBasisPoints ← readU16
  let minimumRootWorkBasisPoints ← readU16
  let minimumVariantBenefitBasisPoints ← readU16
  let minimumAbsoluteCostUnits ← readU32
  let maximumEnhancedVariants ← readU8
  let maximumAdditionalKirBasisPoints ← readU16
  let maximumSites ← readU32
  let maximumShards ← readU32
  let histogramBuckets ← readU8
  let maximumCandidateConstants ← readU8
  let maximumProfileBytes ← readU64
  return ⟨formatSchema, contractSchema, inspectionSchema, minimumDecisionObservations,
    branchDominanceBasisPoints, histogramDominanceBasisPoints, coldBasisPoints,
    hotWorkCoverageBasisPoints, minimumRootWorkBasisPoints, minimumVariantBenefitBasisPoints,
    minimumAbsoluteCostUnits, maximumEnhancedVariants, maximumAdditionalKirBasisPoints,
    maximumSites, maximumShards, histogramBuckets, maximumCandidateConstants, maximumProfileBytes⟩

def readIdentity : ProfileReader CkProfileIdentity := do
  let magic ← Lib.Reader.exact 8 .truncated
  if magic ≠ utf8Bytes "CKIDENT1" then Lib.Reader.fail .unexpectedMagic
  else
    let compiler ← readCompiler
    let module ← readModule
    let schemas ← readSchemas
    let target ← readTarget
    let modes ← readModes
    let contract ← readContract
    return ⟨compiler, module, schemas, target, modes, contract⟩

def decodeIdentity (bytes : List UInt8) : Except CkProfileError CkProfileIdentity := do
  let identity ← readIdentity.whole (.nonCanonicalOrder "identity.trailing") bytes
  identity.validate
  return identity

/-- The first field, in a fixed order, in which two identities differ. -/
def CkProfileIdentity.firstMismatch (expected observed : CkProfileIdentity) : Option String :=
  ([("compiler.packageVersion", decide (expected.compiler.packageVersion =
        observed.compiler.packageVersion)),
    ("compiler.sourceIdentity", decide (expected.compiler.sourceIdentity =
        observed.compiler.sourceIdentity)),
    ("compiler.profileRuntimeIdentity", decide (expected.compiler.profileRuntimeIdentity =
        observed.compiler.profileRuntimeIdentity)),
    ("module.semanticGraphDigest", decide (expected.module.semanticGraphDigest =
        observed.module.semanticGraphDigest)),
    ("module.preProfileKirDigest", decide (expected.module.preProfileKirDigest =
        observed.module.preProfileKirDigest)),
    ("module.siteTableDigest", decide (expected.module.siteTableDigest =
        observed.module.siteTableDigest)),
    ("schemas.language", decide (expected.schemas.language = observed.schemas.language)),
    ("schemas.nativeAbi", decide (expected.schemas.nativeAbi = observed.schemas.nativeAbi)),
    ("schemas.runtimeAbi", decide (expected.schemas.runtimeAbi = observed.schemas.runtimeAbi)),
    ("schemas.kir", decide (expected.schemas.kir = observed.schemas.kir)),
    ("schemas.proof", decide (expected.schemas.proof = observed.schemas.proof)),
    ("schemas.costModel", decide (expected.schemas.costModel = observed.schemas.costModel)),
    ("schemas.targetProfile", decide (expected.schemas.targetProfile =
        observed.schemas.targetProfile)),
    ("schemas.llvmBridge", decide (expected.schemas.llvmBridge = observed.schemas.llvmBridge)),
    ("schemas.cache", decide (expected.schemas.cache = observed.schemas.cache)),
    ("target.triple", decide (expected.target.triple = observed.target.triple)),
    ("target.pointerWidth", decide (expected.target.pointerWidth = observed.target.pointerWidth)),
    ("target.endianness", decide (expected.target.endianness = observed.target.endianness)),
    ("target.objectFormat", decide (expected.target.objectFormat = observed.target.objectFormat)),
    ("target.osAbi", decide (expected.target.osAbi = observed.target.osAbi)),
    ("target.targetSetDigest", decide (expected.target.targetSetDigest =
        observed.target.targetSetDigest)),
    ("modes.overflowChecked", decide (expected.modes.overflowChecked =
        observed.modes.overflowChecked)),
    ("modes.boundsChecked", decide (expected.modes.boundsChecked = observed.modes.boundsChecked)),
    ("modes.strictFloat", decide (expected.modes.strictFloat = observed.modes.strictFloat)),
    ("modes.sanitizer", decide (expected.modes.sanitizer = observed.modes.sanitizer)),
    ("modes.topology", decide (expected.modes.topology = observed.modes.topology)),
    ("modes.optimizationFamily", decide (expected.modes.optimizationFamily =
        observed.modes.optimizationFamily)),
    ("modes.cpuPolicy", decide (expected.modes.cpuPolicy = observed.modes.cpuPolicy)),
    ("contract", decide (expected.contract = observed.contract))].find? (!·.2)).map (·.1)

theorem CkProfileIdentity.firstMismatch_eq_none {expected observed : CkProfileIdentity} :
    expected.firstMismatch observed = none ↔ expected = observed := by
  constructor
  · intro h
    simp only [firstMismatch, Option.map_eq_none_iff, List.find?_eq_none, List.mem_cons,
      List.not_mem_nil, or_false, forall_eq_or_imp, forall_eq, Bool.not_eq_true,
      Bool.not_eq_false', decide_eq_true_eq] at h
    obtain ⟨⟨_, _, _⟩, ⟨_, _, _⟩, ⟨_, _, _, _, _, _, _, _, _⟩, ⟨_, _, _, _, _, _⟩,
      ⟨_, _, _, _, _, _, _⟩, _⟩ := expected
    obtain ⟨⟨_, _, _⟩, ⟨_, _, _⟩, ⟨_, _, _, _, _, _, _, _, _⟩, ⟨_, _, _, _, _, _⟩,
      ⟨_, _, _, _, _, _, _⟩, _⟩ := observed
    simp only at h
    obtain ⟨rfl, rfl, rfl, rfl, rfl, rfl, rfl, rfl, rfl, rfl, rfl, rfl, rfl, rfl, rfl, rfl, rfl,
      rfl, rfl, rfl, rfl, rfl, rfl, rfl, rfl, rfl, rfl, rfl, rfl⟩ := h
    rfl
  · rintro rfl
    simp [firstMismatch]

end CalcKernel
