import CalcKernel.Profile.Identity

/-!
# Profile shards and aggregates

Site descriptors, counters, the two kinds of profile and their bytes.  SHA-256 is
a parameter: any function from bytes to digests.
-/

namespace CalcKernel

abbrev CkProfileSiteId := Vector UInt8 16

instance CkProfileSiteId.lawfulBEq : LawfulBEq CkProfileSiteId :=
  inferInstanceAs (LawfulBEq (Vector UInt8 16))

inductive CkProfileSiteKind where
  | functionEntry
  | edge (fromBlock toBlock : UInt32) (reconstructed : Bool)
  | loopTripHistogram (loopIdentity : UInt32)
  | sliceLengthHistogram (decisionIdentity : UInt32)
  | candidateConstant (decisionIdentity : UInt32) (candidates : List Int64)
deriving DecidableEq, Repr

structure CkProfileSiteDescriptor where
  id : CkProfileSiteId
  functionDigest : Digest
  location : UInt32
  kind : CkProfileSiteKind
deriving DecidableEq, Repr

inductive CkProfileCounter where
  | scalar (value : UInt64)
  | histogram (buckets : Vector UInt64 16) (saturated : Bool)
  | candidateConstant (candidates : List UInt64) (other : UInt64) (saturated : Bool)
deriving DecidableEq, Repr

def u64Max : UInt64 := 18446744073709551615

def CkProfileCounter.isSaturated : CkProfileCounter → Bool
  | .scalar value => value = u64Max
  | .histogram _ saturated | .candidateConstant _ _ saturated => saturated

structure CkProfileCounterRecord where
  siteId : CkProfileSiteId
  counter : CkProfileCounter
deriving DecidableEq, Repr

/-- One completed run. -/
structure CkProfileShard where
  identity : CkProfileIdentity
  sites : List CkProfileSiteDescriptor
  counters : List CkProfileCounterRecord
  runId : Vector UInt8 16
  overflowed : Bool
  incompleteObservations : Bool
deriving DecidableEq, Repr

/-- A terminal aggregate. -/
structure CkProfile where
  identity : CkProfileIdentity
  sites : List CkProfileSiteDescriptor
  counters : List CkProfileCounterRecord
  completedRuns : UInt64
  mergedShards : UInt32
  overflowed : Bool
  incompleteObservations : Bool
deriving DecidableEq, Repr

/-! ## Tables -/

/-- Every two neighbours of the list satisfy the relation. -/
def adjacent {α : Type} (p : α → α → Bool) : List α → Bool
  | [] | [_] => true
  | a :: b :: rest => p a b && adjacent p (b :: rest)

def siteIdLess (a b : CkProfileSiteId) : Bool := a.toList < b.toList

def ensureSitesCanonical : List CkProfileSiteDescriptor → Except CkProfileError Unit
  | [] | [_] => .ok ()
  | a :: b :: rest =>
      if siteIdLess a.id b.id then ensureSitesCanonical (b :: rest)
      else if a.id = b.id ∧ a ≠ b then .error .siteIdCollision
      else .error (.nonCanonicalOrder "site table")

def ensureCountersCanonical (counters : List CkProfileCounterRecord) :
    Except CkProfileError Unit :=
  if adjacent (fun a b ↦ siteIdLess a.siteId b.siteId) counters then .ok ()
  else .error (.nonCanonicalOrder "counter table")

namespace CkProfileSiteKind

def tag : CkProfileSiteKind → UInt8
  | .functionEntry => 1
  | .edge _ _ _ => 2
  | .loopTripHistogram _ => 3
  | .sliceLengthHistogram _ => 4
  | .candidateConstant _ _ => 5

/-- What follows the tag. -/
def payload : CkProfileSiteKind → List UInt8
  | .functionEntry => []
  | .edge fromBlock toBlock reconstructed =>
      u32Bytes fromBlock ++ u32Bytes toBlock ++ boolByte reconstructed
  | .loopTripHistogram loopIdentity => u32Bytes loopIdentity
  | .sliceLengthHistogram decisionIdentity => u32Bytes decisionIdentity
  | .candidateConstant decisionIdentity candidates =>
      u32Bytes decisionIdentity ++ [UInt8.ofNat candidates.length] ++ candidates.flatMap i64Bytes

end CkProfileSiteKind

def encodeSite (site : CkProfileSiteDescriptor) : Except CkProfileError (List UInt8) :=
  let bytes := site.id.toList ++ site.functionDigest.toList ++ u32Bytes site.location ++
    [site.kind.tag] ++ site.kind.payload
  match site.kind with
  | .candidateConstant _ candidates =>
      if candidates = [] ∨ ckProfileMaxCandidates.toNat < candidates.length then
        .error (.resourceLimit "candidate constants")
      else .ok bytes
  | _ => .ok bytes

def encodeSites (sites : List CkProfileSiteDescriptor) : Except CkProfileError (List UInt8) := do
  ensureSitesCanonical sites
  if 2 ^ 32 ≤ sites.length then .error .lengthOverflow
  else if ckProfileMaxSites.toNat < sites.length then .error (.resourceLimit "site count")
  else
    let records ← sites.mapM encodeSite
    return Lib.bigEndian 4 sites.length ++ records.flatten

def readSiteKind : ProfileReader CkProfileSiteKind := do
  let tag ← readU8
  if tag = 1 then return .functionEntry
  else if tag = 2 then
    let fromBlock ← readU32
    let toBlock ← readU32
    let reconstructed ← readBool "site.edge.reconstructed"
    return .edge fromBlock toBlock reconstructed
  else if tag = 3 then
    let loopIdentity ← readU32
    return .loopTripHistogram loopIdentity
  else if tag = 4 then
    let decisionIdentity ← readU32
    return .sliceLengthHistogram decisionIdentity
  else if tag = 5 then
    let decisionIdentity ← readU32
    let count ← readU8
    if count = 0 ∨ ckProfileMaxCandidates < count then
      Lib.Reader.fail (.resourceLimit "candidate constants")
    else
      let candidates ← Lib.Reader.repeated readI64 count.toNat
      return .candidateConstant decisionIdentity candidates
  else Lib.Reader.fail (.invalidValue "site.kind")

def readSite : ProfileReader CkProfileSiteDescriptor := do
  let id ← readArray 16
  let functionDigest ← readArray 32
  let location ← readU32
  let kind ← readSiteKind
  return ⟨id, functionDigest, location, kind⟩

/-- A table: the number of records, then the records. -/
def readTable {α : Type} (limit : String) (record : ProfileReader α) : ProfileReader (List α) := do
  let count ← readU32
  if ckProfileMaxSites < count then Lib.Reader.fail (.resourceLimit limit)
  else Lib.Reader.repeated record count.toNat

def decodeSites (bytes : List UInt8) : Except CkProfileError (List CkProfileSiteDescriptor) := do
  let sites ← (readTable "site count" readSite).whole (.nonCanonicalOrder "site trailing bytes") bytes
  ensureSitesCanonical sites
  return sites

namespace CkProfileCounter

def tag : CkProfileCounter → UInt8
  | .scalar _ => 1
  | .histogram _ _ => 2
  | .candidateConstant _ _ _ => 3

def payload : CkProfileCounter → List UInt8
  | .scalar value => u64Bytes value
  | .histogram buckets saturated => buckets.toList.flatMap u64Bytes ++ boolByte saturated
  | .candidateConstant candidates other saturated =>
      [UInt8.ofNat candidates.length] ++ candidates.flatMap u64Bytes ++ u64Bytes other ++
        boolByte saturated

end CkProfileCounter

def encodeCounter (record : CkProfileCounterRecord) : Except CkProfileError (List UInt8) :=
  let bytes := record.siteId.toList ++ [record.counter.tag] ++ record.counter.payload
  match record.counter with
  | .candidateConstant candidates _ _ =>
      if candidates = [] ∨ ckProfileMaxCandidates.toNat < candidates.length then
        .error (.resourceLimit "candidate counters")
      else .ok bytes
  | _ => .ok bytes

def encodeCounters (counters : List CkProfileCounterRecord) :
    Except CkProfileError (List UInt8) := do
  ensureCountersCanonical counters
  if 2 ^ 32 ≤ counters.length then .error .lengthOverflow
  else if ckProfileMaxSites.toNat < counters.length then .error (.resourceLimit "counter count")
  else
    let records ← counters.mapM encodeCounter
    return Lib.bigEndian 4 counters.length ++ records.flatten

def readBuckets : ProfileReader (Vector UInt64 16) := do
  let buckets ← Lib.Reader.repeated readU64 16
  (if h : buckets.length = 16 then .ok ⟨buckets.toArray, h⟩ else .error .truncated :
    Except CkProfileError _)

def readCounter : ProfileReader CkProfileCounter := do
  let tag ← readU8
  if tag = 1 then
    let value ← readU64
    return .scalar value
  else if tag = 2 then
    let buckets ← readBuckets
    let saturated ← readBool "counter.histogram.saturated"
    return .histogram buckets saturated
  else if tag = 3 then
    let count ← readU8
    if count = 0 ∨ ckProfileMaxCandidates < count then
      Lib.Reader.fail (.resourceLimit "candidate counters")
    else
      let candidates ← Lib.Reader.repeated readU64 count.toNat
      let other ← readU64
      let saturated ← readBool "counter.constant.saturated"
      return .candidateConstant candidates other saturated
  else Lib.Reader.fail (.invalidValue "counter.kind")

def readCounterRecord : ProfileReader CkProfileCounterRecord := do
  let siteId ← readArray 16
  let counter ← readCounter
  return ⟨siteId, counter⟩

def decodeCounters (bytes : List UInt8) : Except CkProfileError (List CkProfileCounterRecord) := do
  let counters ← (readTable "counter count" readCounterRecord).whole
    (.nonCanonicalOrder "counter trailing bytes") bytes
  ensureCountersCanonical counters
  return counters

def counterMatchesSite : CkProfileCounter → CkProfileSiteKind → Bool
  | .scalar _, .functionEntry | .scalar _, .edge _ _ _ => true
  | .histogram _ _, .loopTripHistogram _ | .histogram _ _, .sliceLengthHistogram _ => true
  | .candidateConstant candidates _ _, .candidateConstant _ expected =>
      candidates.length = expected.length
  | _, _ => false

def encodeFlags (overflowed incomplete : Bool) : List UInt8 :=
  boolByte overflowed ++ boolByte incomplete

def decodeFlags (bytes : List UInt8) : Except CkProfileError (Bool × Bool) :=
  match bytes with
  | [first, second] => do
      let overflowed ← decodeBool "flags.overflowed" first
      let incomplete ← decodeBool "flags.incomplete" second
      return (overflowed, incomplete)
  | _ => .error (.invalidValue "profile.flags")

/-- A field of fixed width. -/
def decodeArray (n : Nat) (field : String) (bytes : List UInt8) :
    Except CkProfileError (Vector UInt8 n) :=
  if h : bytes.length = n then .ok ⟨bytes.toArray, h⟩ else .error (.invalidValue field)

/-! ## The outer format -/

def shardMagic : List UInt8 := utf8Bytes "CKPART01"
def profileMagic : List UInt8 := utf8Bytes "CKPROF01"
def shardDomain : List UInt8 := utf8Bytes "CK-PROFILE-SHARD\x00"
def profileDomain : List UInt8 := utf8Bytes "CK-PROFILE-FINAL\x00"
def siteTableDomain : List UInt8 := utf8Bytes "CK-PROFILE-SITE-TABLE\x00"

def outerHeaderBytes : Nat := 12
def digestBytes : Nat := 32

/-- A field: tag, length, payload. -/
abbrev OuterField := UInt16 × List UInt8

def fieldBytes (field : OuterField) : List UInt8 :=
  u16Bytes field.1 ++ Lib.bigEndian 4 field.2.length ++ field.2

def pushField (field : OuterField) : Except CkProfileError (List UInt8) :=
  if 2 ^ 32 ≤ field.2.length then .error .lengthOverflow else .ok (fieldBytes field)

section Sha

variable (sha : List UInt8 → Digest)

def encodeOuter (magic domain : List UInt8) (fields : List OuterField) :
    Except CkProfileError (List UInt8) := do
  let pushed ← fields.mapM pushField
  let body := magic ++ u32Bytes ckProfileFormatSchema ++ pushed.flatten
  let output := body ++ (sha (domain ++ body)).toList
  if ckProfileMaxBytes.toNat < output.length then .error (.resourceLimit "profile bytes")
  else return output

/-- One field of the outer format. -/
def readField (requiredTags : List UInt16) (previous : UInt16) : ProfileReader OuterField := do
  let tag ← readU16
  if tag ≤ previous then Lib.Reader.fail (.nonCanonicalOrder "outer fields")
  else
    let length ← readU32
    if ckProfileMaxBytes.toNat < length.toNat then
      Lib.Reader.fail (.resourceLimit "outer field bytes")
    else
      let payload ← Lib.Reader.exact length.toNat .truncated
      if tag ∉ requiredTags then Lib.Reader.fail (.unknownField "outer" tag)
      else return (tag, payload)

/-- The loop over the fields.  Each takes bytes, so as many rounds as there are bytes suffice. -/
def parseFields (requiredTags : List UInt16) :
    Nat → UInt16 → List UInt8 → Except CkProfileError (List OuterField)
  | _, _, [] => .ok []
  | 0, _, _ :: _ => .error .truncated
  | rounds + 1, previous, bytes => do
      let (field, rest) ← (readField requiredTags previous).run bytes
      let fields ← parseFields requiredTags rounds field.1 rest
      return field :: fields

/-- The payloads in the order of the required tags. -/
def orderFields (fields : List OuterField) (requiredTags : List UInt16) :
    Except CkProfileError (List (List UInt8)) :=
  requiredTags.mapM fun required ↦
    match fields.find? (·.1 = required) with
    | some field => .ok field.2
    | none => .error (.missingField "outer" required)

def parseOuter (magic domain : List UInt8) (requiredTags : List UInt16) (bytes : List UInt8) :
    Except CkProfileError (List (List UInt8)) := do
  if ckProfileMaxBytes.toNat < bytes.length then .error (.resourceLimit "profile bytes")
  else if bytes.length < outerHeaderBytes + digestBytes then .error .truncated
  else if bytes.take 8 ≠ magic then .error .unexpectedMagic
  else
    let schema := UInt32.ofNat (Lib.ofBigEndian ((bytes.drop 8).take 4))
    if schema ≠ ckProfileFormatSchema then
      .error (.unsupportedSchema "profile format" ckProfileFormatSchema schema)
    else
      let body := bytes.take (bytes.length - digestBytes)
      if (sha (domain ++ body)).toList ≠ bytes.drop (bytes.length - digestBytes) then
        .error .digestMismatch
      else
        let content := body.drop outerHeaderBytes
        let fields ← parseFields requiredTags content.length 0 content
        orderFields fields requiredTags

def profileSiteTableDigest (sites : List CkProfileSiteDescriptor) : Except CkProfileError Digest := do
  let bytes ← encodeSites sites
  return sha (siteTableDomain ++ bytes)

def validateTables (identity : CkProfileIdentity) (sites : List CkProfileSiteDescriptor)
    (counters : List CkProfileCounterRecord) : Except CkProfileError Unit := do
  identity.validate
  if ckProfileMaxSites.toNat < sites.length then .error (.resourceLimit "site count")
  else if sites.length ≠ counters.length then .error .counterTableMismatch
  else
    ensureSitesCanonical sites
    ensureCountersCanonical counters
    if (sites.zip counters).any fun p ↦
        p.1.id ≠ p.2.siteId || !counterMatchesSite p.2.counter p.1.kind then
      .error .counterTableMismatch
    else
      let digest ← profileSiteTableDigest sha sites
      if digest ≠ identity.module.siteTableDigest then .error .siteTableMismatch else .ok ()

/-! ## Shards and aggregates -/

def serializeProfileShard (shard : CkProfileShard) : Except CkProfileError (List UInt8) := do
  validateTables sha shard.identity shard.sites shard.counters
  let identity ← shard.identity.canonicalBytes
  let sites ← encodeSites shard.sites
  let counters ← encodeCounters shard.counters
  encodeOuter sha shardMagic shardDomain
    [(1, identity), (2, sites), (3, counters), (4, shard.runId.toList),
      (5, encodeFlags shard.overflowed shard.incompleteObservations)]

def parseProfileShard (bytes : List UInt8) : Except CkProfileError CkProfileShard := do
  let fields ← parseOuter sha shardMagic shardDomain [1, 2, 3, 4, 5] bytes
  match fields with
  | [identity, sites, counters, runId, flags] =>
      let identity ← decodeIdentity identity
      let sites ← decodeSites sites
      let counters ← decodeCounters counters
      let runId ← decodeArray 16 "shard.runId" runId
      let flags ← decodeFlags flags
      validateTables sha identity sites counters
      return ⟨identity, sites, counters, runId, flags.1, flags.2⟩
  | _ => .error .truncated

def serializeProfile (profile : CkProfile) : Except CkProfileError (List UInt8) := do
  validateTables sha profile.identity profile.sites profile.counters
  if profile.completedRuns = 0 ∨ profile.mergedShards = 0 then
    .error (.invalidValue "profile.aggregateCounts")
  else
    let identity ← profile.identity.canonicalBytes
    let sites ← encodeSites profile.sites
    let counters ← encodeCounters profile.counters
    encodeOuter sha profileMagic profileDomain
      [(1, identity), (2, sites), (3, counters), (4, u64Bytes profile.completedRuns),
        (5, u32Bytes profile.mergedShards),
        (6, encodeFlags profile.overflowed profile.incompleteObservations)]

def decodeU64 (field : String) (bytes : List UInt8) : Except CkProfileError UInt64 :=
  if bytes.length = 8 then .ok (UInt64.ofNat (Lib.ofBigEndian bytes))
  else .error (.invalidValue field)

def decodeU32 (field : String) (bytes : List UInt8) : Except CkProfileError UInt32 :=
  if bytes.length = 4 then .ok (UInt32.ofNat (Lib.ofBigEndian bytes))
  else .error (.invalidValue field)

def parseProfile (bytes : List UInt8) : Except CkProfileError CkProfile := do
  let fields ← parseOuter sha profileMagic profileDomain [1, 2, 3, 4, 5, 6] bytes
  match fields with
  | [identity, sites, counters, runs, shards, flags] =>
      let identity ← decodeIdentity identity
      let sites ← decodeSites sites
      let counters ← decodeCounters counters
      let completedRuns ← decodeU64 "profile.completedRuns" runs
      let mergedShards ← decodeU32 "profile.mergedShards" shards
      let flags ← decodeFlags flags
      if completedRuns = 0 ∨ mergedShards = 0 ∨ ckProfileMaxShards < mergedShards then
        .error (.invalidValue "profile.aggregateCounts")
      else
        validateTables sha identity sites counters
        return ⟨identity, sites, counters, completedRuns, mergedShards, flags.1, flags.2⟩
  | _ => .error .truncated

end Sha

end CalcKernel
