import CalcKernel.Profile.IdentityCodec

/-!
# Entries of the object cache

An entry holds a manifest and an object, with a digest over both.  What is decoded under a
key is exactly what is encoded with that key in the manifest.
-/

namespace CalcKernel

open Lib

structure CacheManifest where
  key : String
  compilerVersion : String
  llvmVersion : String
  targetTriple : String
  cpu : String
  features : String
  codegenContract : String
  nativeAbi : UInt32
  runtimeAbi : UInt32
  bridgeAbi : UInt32
  optimizationLevel : UInt8
  overflowMode : UInt8
  boundsMode : UInt8
  kirContractVersion : UInt32
  sanitizerMode : UInt8
  targetProfileDigest : String
  vectorCostModelSchema : UInt32
  vectorProofSchema : UInt32
  vectorBudgetIdentity : String
  profileIdentity : String
  artifactIdentity : String
  pgoIdentity : String
  multiversionIdentity : String
  dispatchIdentity : String
  budgetIdentity : String
deriving DecidableEq, Repr

def entryMagic : List UInt8 := utf8Bytes "CKCOBJ03"
def manifestMagic : List UInt8 := utf8Bytes "CKC-MANIFEST\x00"
def manifestSchema : UInt32 := 4
def maxManifestBytes : Nat := 16 * 1024
def maxObjectBytes : Nat := 256 * 1024 * 1024

abbrev CacheReader := Lib.Reader String

/-! ## Strings and numbers -/

def validKey (key : String) : Bool :=
  key.utf8ByteSize = 64 && (utf8Bytes key).all fun byte ↦
    (48 ≤ byte && byte ≤ 57) || (97 ≤ byte && byte ≤ 102)

def writeString (output : List UInt8) (value : String) : Except String (List UInt8) :=
  if 2 ^ 32 ≤ value.utf8ByteSize then .error "cache manifest field exceeds u32"
  else if maxManifestBytes < (output ++ stringBytes value).length then
    .error "cache manifest exceeds size limit"
  else .ok (output ++ stringBytes value)

def truncatedField : String := "cache manifest field is truncated"

def readCacheU8 : CacheReader UInt8 := UInt8.ofNat <$> Lib.Reader.natural 1 truncatedField
def readCacheU32 : CacheReader UInt32 := UInt32.ofNat <$> Lib.Reader.natural 4 truncatedField

def decodeUtf8 (invalid : String) (bytes : List UInt8) : Except String String :=
  match String.fromUTF8? ⟨bytes.toArray⟩ with
  | none => .error invalid
  | some value => .ok value

def readCacheString : CacheReader String := do
  let length ← readCacheU32
  let bytes ← Lib.Reader.exact length.toNat truncatedField
  decodeUtf8 "cache manifest field is not UTF-8" bytes

/-! ## Manifests -/

/-- The strings of a manifest, as they are written. -/
def CacheManifest.strings (m : CacheManifest) : List String :=
  [m.key, m.compilerVersion, m.llvmVersion, m.targetTriple, m.cpu, m.features, m.codegenContract,
    m.targetProfileDigest, m.vectorBudgetIdentity, m.profileIdentity, m.artifactIdentity,
    m.pgoIdentity, m.multiversionIdentity, m.dispatchIdentity, m.budgetIdentity]

/-- The numbers of a manifest, as they are written. -/
def CacheManifest.numbers (m : CacheManifest) : List UInt8 :=
  u32Bytes m.nativeAbi ++ u32Bytes m.runtimeAbi ++ u32Bytes m.bridgeAbi ++
    [m.optimizationLevel, m.overflowMode, m.boundsMode] ++ u32Bytes m.kirContractVersion ++
    [m.sanitizerMode] ++ u32Bytes m.vectorCostModelSchema ++ u32Bytes m.vectorProofSchema

def encodeManifest (m : CacheManifest) : Except String (List UInt8) :=
  if validKey m.key then do
    let strings ← m.strings.foldlM writeString (manifestMagic ++ u32Bytes manifestSchema)
    let output := strings ++ m.numbers
    if maxManifestBytes < output.length then .error "cache manifest exceeds size limit"
    else .ok output
  else .error "cache manifest key is invalid"

def readManifest : CacheReader CacheManifest := do
  let key ← readCacheString
  let compilerVersion ← readCacheString
  let llvmVersion ← readCacheString
  let targetTriple ← readCacheString
  let cpu ← readCacheString
  let features ← readCacheString
  let codegenContract ← readCacheString
  let targetProfileDigest ← readCacheString
  let vectorBudgetIdentity ← readCacheString
  let profileIdentity ← readCacheString
  let artifactIdentity ← readCacheString
  let pgoIdentity ← readCacheString
  let multiversionIdentity ← readCacheString
  let dispatchIdentity ← readCacheString
  let budgetIdentity ← readCacheString
  let nativeAbi ← readCacheU32
  let runtimeAbi ← readCacheU32
  let bridgeAbi ← readCacheU32
  let optimizationLevel ← readCacheU8
  let overflowMode ← readCacheU8
  let boundsMode ← readCacheU8
  let kirContractVersion ← readCacheU32
  let sanitizerMode ← readCacheU8
  let vectorCostModelSchema ← readCacheU32
  let vectorProofSchema ← readCacheU32
  return ⟨key, compilerVersion, llvmVersion, targetTriple, cpu, features, codegenContract,
    nativeAbi, runtimeAbi, bridgeAbi, optimizationLevel, overflowMode, boundsMode,
    kirContractVersion, sanitizerMode, targetProfileDigest, vectorCostModelSchema,
    vectorProofSchema, vectorBudgetIdentity, profileIdentity, artifactIdentity, pgoIdentity,
    multiversionIdentity, dispatchIdentity, budgetIdentity⟩

def trailingManifest : String := "cache manifest has trailing or invalid data"

def decodeManifest (bytes : List UInt8) : Except String CacheManifest :=
  if bytes.length < 17 ∨ bytes.take 13 ≠ manifestMagic ∨
      ofBigEndian ((bytes.drop 13).take 4) ≠ manifestSchema.toNat then
    .error "cache manifest header is invalid"
  else do
    let m ← readManifest.whole trailingManifest (bytes.drop 17)
    if validKey m.key then .ok m else .error trailingManifest

/-! ## Entries -/

section Entries

-- SHA-256, of which only the length of its digests is used.
variable (sha256 : List UInt8 → Digest)

def encodeEntry (m : CacheManifest) (object : List UInt8) : Except String (List UInt8) :=
  if maxObjectBytes < object.length then .error "cache object exceeds size limit"
  else do
    let manifestBytes ← encodeManifest m
    if 2 ^ 32 ≤ manifestBytes.length then .error "cache manifest length exceeds u32"
    else .ok (entryMagic ++ bigEndian 4 manifestBytes.length ++ bigEndian 8 object.length ++
      manifestBytes ++ object ++ (sha256 (manifestBytes ++ object)).toList)

/-- The length of the manifest that the header of an entry declares. -/
def declaredManifest (bytes : List UInt8) : Nat := ofBigEndian ((bytes.drop 8).take 4)

/-- The length of the object that the header of an entry declares. -/
def declaredObject (bytes : List UInt8) : Nat := ofBigEndian ((bytes.drop 12).take 8)

def decodeEntry (expectedKey : String) (bytes : List UInt8) :
    Except String (CacheManifest × List UInt8) :=
  let manifestLen := declaredManifest bytes
  let objectLen := declaredObject bytes
  let manifestBytes := (bytes.drop 20).take manifestLen
  let object := (bytes.drop (20 + manifestLen)).take objectLen
  if bytes.length < 20 + 32 ∨ bytes.take 8 ≠ entryMagic then .error "cache entry header is invalid"
  else if maxManifestBytes < manifestLen ∨ maxObjectBytes < objectLen then
    .error "cache entry declared length exceeds limit"
  else if 20 + manifestLen + objectLen + 32 ≠ bytes.length then
    .error "cache entry length does not match header"
  else if (sha256 (manifestBytes ++ object)).toList ≠ bytes.drop (20 + manifestLen + objectLen) then
    .error "cache entry digest mismatch"
  else do
    let m ← decodeManifest manifestBytes
    if m.key ≠ expectedKey then .error "cache manifest key mismatch" else .ok (m, object)

end Entries

/-! ## The codec of manifests -/

theorem reads_cacheU8 : Reads readCacheU8 (fun x ↦ [x]) (fun _ ↦ True) := Reads.u8 _

theorem reads_cacheU32 : Reads readCacheU32 u32Bytes (fun _ ↦ True) := Reads.u32 _

theorem decodeUtf8_eq_ok {invalid s : String} {bytes : List UInt8} :
    decodeUtf8 invalid bytes = .ok s ↔ bytes = utf8Bytes s := by
  rw [← fromUTF8?_eq_some]
  unfold decodeUtf8
  cases String.fromUTF8? ⟨bytes.toArray⟩ <;> simp

/-- A string whose length is written as 32 bits. -/
def ShortString (s : String) : Prop := s.utf8ByteSize < 2 ^ 32

theorem reads_cacheString : Reads readCacheString stringBytes ShortString := by
  have hbytes : ∀ n : Nat, Reads (do
      let bytes ← Reader.exact n truncatedField
      decodeUtf8 "cache manifest field is not UTF-8" bytes) utf8Bytes
      (fun s ↦ (utf8Bytes s).length = n ∧ True) := fun n ↦
    (Reads.exact n truncatedField).mapExcept fun _ _ ↦ by
      rw [and_true]
      exact decodeUtf8_eq_ok
  have h := reads_cacheU32.bind (fun s : String ↦ UInt32.ofNat s.utf8ByteSize)
    (fun length ↦ hbytes length.toNat)
    (by
      rintro length s ⟨hlen, -⟩
      rw [← utf8Bytes_length, hlen]
      exact UInt32.ofNat_toNat)
  have hsize : ∀ s : String, (UInt32.ofNat s.utf8ByteSize).toNat = s.utf8ByteSize % 2 ^ 32 :=
    fun s ↦ UInt32.toNat_ofNat'
  apply h.congr
  · intro s
    rw [hsize, utf8Bytes_length, ShortString]
    constructor
    · exact fun hs ↦ ⟨trivial, (Nat.mod_eq_of_lt hs).symm, trivial⟩
    · rintro ⟨-, hs, -⟩
      rw [hs]
      exact Nat.mod_lt _ (by decide)
  · rintro s ⟨-, hs, -⟩
    rw [u32Bytes, hsize, ← hsize, ← hs]
    rfl


theorem reads_manifest : Reads readManifest (fun m ↦ m.strings.flatMap stringBytes ++ m.numbers)
    (fun m ↦ ∀ s ∈ m.strings, ShortString s) := by
  have h := reads_cacheString.bind (·.key) (fun key ↦
    reads_cacheString.bind (·.compilerVersion) (fun compilerVersion ↦
    reads_cacheString.bind (·.llvmVersion) (fun llvmVersion ↦
    reads_cacheString.bind (·.targetTriple) (fun targetTriple ↦
    reads_cacheString.bind (·.cpu) (fun cpu ↦
    reads_cacheString.bind (·.features) (fun features ↦
    reads_cacheString.bind (·.codegenContract) (fun codegenContract ↦
    reads_cacheString.bind (·.targetProfileDigest) (fun targetProfileDigest ↦
    reads_cacheString.bind (·.vectorBudgetIdentity) (fun vectorBudgetIdentity ↦
    reads_cacheString.bind (·.profileIdentity) (fun profileIdentity ↦
    reads_cacheString.bind (·.artifactIdentity) (fun artifactIdentity ↦
    reads_cacheString.bind (·.pgoIdentity) (fun pgoIdentity ↦
    reads_cacheString.bind (·.multiversionIdentity) (fun multiversionIdentity ↦
    reads_cacheString.bind (·.dispatchIdentity) (fun dispatchIdentity ↦
    reads_cacheString.bind (·.budgetIdentity) (fun budgetIdentity ↦
    reads_cacheU32.bind (·.nativeAbi) (fun nativeAbi ↦
    reads_cacheU32.bind (·.runtimeAbi) (fun runtimeAbi ↦
    reads_cacheU32.bind (·.bridgeAbi) (fun bridgeAbi ↦
    reads_cacheU8.bind (·.optimizationLevel) (fun optimizationLevel ↦
    reads_cacheU8.bind (·.overflowMode) (fun overflowMode ↦
    reads_cacheU8.bind (·.boundsMode) (fun boundsMode ↦
    reads_cacheU32.bind (·.kirContractVersion) (fun kirContractVersion ↦
    reads_cacheU8.bind (·.sanitizerMode) (fun sanitizerMode ↦
    reads_cacheU32.bind (·.vectorCostModelSchema) (fun vectorCostModelSchema ↦
    reads_cacheU32.bind (·.vectorProofSchema) (fun vectorProofSchema ↦
    Reads.pure (⟨key, compilerVersion, llvmVersion, targetTriple, cpu, features, codegenContract,
      nativeAbi, runtimeAbi, bridgeAbi, optimizationLevel, overflowMode, boundsMode,
      kirContractVersion, sanitizerMode, targetProfileDigest, vectorCostModelSchema,
      vectorProofSchema, vectorBudgetIdentity, profileIdentity, artifactIdentity, pgoIdentity,
      multiversionIdentity, dispatchIdentity, budgetIdentity⟩ : CacheManifest))
      (by grind)) (by grind)) (by grind)) (by grind)) (by grind)) (by grind)) (by grind))
      (by grind)) (by grind)) (by grind)) (by grind)) (by grind)) (by grind)) (by grind))
      (by grind)) (by grind)) (by grind)) (by grind)) (by grind)) (by grind)) (by grind))
      (by grind)) (by grind)) (by grind)) (by grind)
  apply h.congr
  · simp [CacheManifest.strings]
  · intro m _
    simp [CacheManifest.strings, CacheManifest.numbers]

/-- What a manifest is written as. -/
def CacheManifest.bytes (m : CacheManifest) : List UInt8 :=
  manifestMagic ++ u32Bytes manifestSchema ++ (m.strings.flatMap stringBytes ++ m.numbers)

/-- A manifest that can be written. -/
structure CacheManifest.Valid (m : CacheManifest) : Prop where
  key : validKey m.key = true
  size : m.bytes.length ≤ maxManifestBytes

theorem foldlM_writeString_ok {l : List String} {output bytes : List UInt8}
    (h : l.foldlM writeString output = .ok bytes) : bytes = output ++ l.flatMap stringBytes := by
  induction l generalizing output with
  | nil =>
      cases h
      exact (List.append_nil _).symm
  | cons s l ih =>
      rw [List.foldlM_cons] at h
      cases hwrite : writeString output s with
      | error e =>
          rw [hwrite] at h
          cases h
      | ok next =>
          rw [hwrite] at h
          unfold writeString at hwrite
          split at hwrite
          · cases hwrite
          · split at hwrite
            · cases hwrite
            · cases hwrite
              rw [ih h, List.flatMap_cons, List.append_assoc]

theorem length_stringBytes (s : String) : (stringBytes s).length = 4 + s.utf8ByteSize := by
  rw [stringBytes, List.length_append, bigEndian_length, utf8Bytes_length]

theorem foldlM_writeString {l : List String} {output : List UInt8}
    (h : (output ++ l.flatMap stringBytes).length ≤ maxManifestBytes) :
    l.foldlM writeString output = .ok (output ++ l.flatMap stringBytes) := by
  induction l generalizing output with
  | nil => exact congrArg Except.ok (List.append_nil _).symm
  | cons s l ih =>
      rw [List.flatMap_cons, ← List.append_assoc] at h ⊢
      have hwrite : writeString output s = .ok (output ++ stringBytes s) := by
        have hfits : maxManifestBytes < 2 ^ 32 := by decide
        have hlength := length_stringBytes s
        rw [List.length_append, List.length_append] at h
        rw [writeString, if_neg (by omega), if_neg (by rw [List.length_append]; omega)]
      rw [List.foldlM_cons, hwrite]
      exact ih h

theorem encodeManifest_eq_ok {m : CacheManifest} {bytes : List UInt8} :
    encodeManifest m = .ok bytes ↔ m.Valid ∧ bytes = m.bytes := by
  unfold encodeManifest
  split
  · rename_i hkey
    constructor
    · intro h
      cases hstrings : m.strings.foldlM writeString (manifestMagic ++ u32Bytes manifestSchema) with
      | error e =>
          rw [hstrings] at h
          cases h
      | ok strings =>
          rw [hstrings] at h
          change (if _ then _ else _) = _ at h
          obtain rfl := foldlM_writeString_ok hstrings
          split at h
          · cases h
          · rename_i hsize
            cases h
            rw [List.append_assoc] at hsize ⊢
            exact ⟨⟨hkey, not_lt.mp hsize⟩, rfl⟩
    · rintro ⟨⟨-, hsize⟩, rfl⟩
      have hstrings := hsize
      rw [CacheManifest.bytes, ← List.append_assoc] at hsize ⊢
      rw [foldlM_writeString ((List.length_append ▸ Nat.le_add_right _ _).trans hsize)]
      exact if_neg (not_lt.mpr hsize)
  · rename_i hkey
    refine iff_of_false (fun h ↦ by cases h) ?_
    exact fun h ↦ hkey h.1.key

theorem decodeManifest_eq_ok {m : CacheManifest} {bytes : List UInt8} :
    decodeManifest bytes = .ok m ↔
      validKey m.key = true ∧ (∀ s ∈ m.strings, ShortString s) ∧ bytes = m.bytes := by
  have hmagic : manifestMagic.length = 13 := by decide
  have hschema : (u32Bytes manifestSchema).length = 4 := by decide
  have hbytes : bytes = m.bytes ↔ (bytes.take 13 = manifestMagic ∧
      (bytes.drop 13).take 4 = u32Bytes manifestSchema) ∧
      bytes.drop 17 = m.strings.flatMap stringBytes ++ m.numbers := by
    rw [CacheManifest.bytes, List.append_assoc, eq_append_iff, hmagic, eq_append_iff, hschema,
      List.drop_drop, and_assoc]
  unfold decodeManifest
  split
  · rename_i hheader
    refine iff_of_false (fun h ↦ by cases h) ?_
    rintro ⟨-, -, rfl⟩
    obtain ⟨⟨hfirst, hsecond⟩, -⟩ := hbytes.mp rfl
    have hlength : 17 ≤ m.bytes.length := by
      simp only [CacheManifest.bytes, List.length_append, hmagic, hschema]
      omega
    rw [hfirst, hsecond] at hheader
    rcases hheader with h | h | h
    · omega
    · exact h rfl
    · exact h (by decide)
  · rename_i hheader
    obtain ⟨hlength, hfirst, hsecond⟩ : 17 ≤ bytes.length ∧ bytes.take 13 = manifestMagic ∧
        ofBigEndian ((bytes.drop 13).take 4) = manifestSchema.toNat := by
      simpa only [not_or, not_lt, not_not] using hheader
    have hword : ((bytes.drop 13).take 4).length = 4 := by
      rw [List.length_take, List.length_drop]
      omega
    rw [ofBigEndian_eq_iff hword (by decide)] at hsecond
    have hread : readManifest.whole trailingManifest (bytes.drop 17) = .ok m ↔ _ :=
      reads_manifest.whole_eq_ok
    rw [hbytes]
    constructor
    · intro h
      cases hwhole : readManifest.whole trailingManifest (bytes.drop 17) with
      | error e =>
          rw [hwhole] at h
          cases h
      | ok m' =>
          rw [hwhole] at h
          change (if _ then _ else _) = _ at h
          split at h
          · rename_i hkey
            cases h
            obtain ⟨hshort, hrest⟩ := hread.mp hwhole
            exact ⟨hkey, hshort, ⟨hfirst, hsecond⟩, hrest⟩
          · cases h
    · rintro ⟨hkey, hshort, -, hrest⟩
      rw [hread.mpr ⟨hshort, hrest⟩]
      exact if_pos hkey

/-- The strings of a manifest that can be written are short. -/
theorem CacheManifest.Valid.shortString {m : CacheManifest} (h : m.Valid) :
    ∀ s ∈ m.strings, ShortString s := by
  intro s hs
  have hsize := h.size
  have hpart := (List.sublist_flatten_of_mem (List.mem_map_of_mem (f := stringBytes) hs)).length_le
  have hfits : maxManifestBytes < 2 ^ 32 := by decide
  rw [CacheManifest.bytes, List.flatMap, List.length_append, List.length_append,
    List.length_append] at hsize
  rw [length_stringBytes] at hpart
  unfold ShortString
  omega

/-! ## The codec of entries -/

section EntryCodec

variable {sha256 : List UInt8 → Digest} {m : CacheManifest} {object bytes : List UInt8}
variable {key : String}

/-- What an entry is written as. -/
def entryBytes (sha256 : List UInt8 → Digest) (m : CacheManifest) (object : List UInt8) :
    List UInt8 :=
  entryMagic ++ (bigEndian 4 m.bytes.length ++ (bigEndian 8 object.length ++
    (m.bytes ++ (object ++ (sha256 (m.bytes ++ object)).toList))))

theorem encodeEntry_eq_ok : encodeEntry sha256 m object = .ok bytes ↔
    (m.Valid ∧ object.length ≤ maxObjectBytes) ∧ bytes = entryBytes sha256 m object := by
  unfold encodeEntry
  split
  · rename_i hsize
    refine iff_of_false (fun h ↦ by cases h) ?_
    rintro ⟨⟨-, hobject⟩, -⟩
    omega
  · rename_i hsize
    cases hencode : encodeManifest m with
    | error e =>
        refine iff_of_false (fun h ↦ by cases h) ?_
        rintro ⟨⟨hvalid, -⟩, -⟩
        rw [encodeManifest_eq_ok.mpr ⟨hvalid, rfl⟩] at hencode
        cases hencode
    | ok manifestBytes =>
        obtain ⟨hvalid, rfl⟩ := encodeManifest_eq_ok.mp hencode
        have hfits : maxManifestBytes < 2 ^ 32 := by decide
        have hlength := hvalid.size
        change (if _ then _ else _) = _ ↔ _
        rw [if_neg (by omega)]
        simp only [Except.ok.injEq, hvalid, not_lt.mp hsize, and_self, true_and, entryBytes,
          List.append_assoc, eq_comm (a := bytes)]

/-- The parts of an input of the length that its header declares. -/
theorem entry_parts (hmagic : bytes.take 8 = entryMagic)
    (hlength : 20 + declaredManifest bytes + declaredObject bytes + 32 = bytes.length) :
    bytes = entryMagic ++ (bigEndian 4 (declaredManifest bytes) ++
      (bigEndian 8 (declaredObject bytes) ++
        ((bytes.drop 20).take (declaredManifest bytes) ++
          ((bytes.drop (20 + declaredManifest bytes)).take (declaredObject bytes) ++
            bytes.drop (20 + declaredManifest bytes + declaredObject bytes))))) := by
  have hfour : ((bytes.drop 8).take 4).length = 4 := by
    rw [List.length_take, List.length_drop]
    omega
  have height : ((bytes.drop 12).take 8).length = 8 := by
    rw [List.length_take, List.length_drop]
    omega
  have hmanifest : bigEndian 4 (declaredManifest bytes) = (bytes.drop 8).take 4 := by
    rw [← hfour, declaredManifest, bigEndian_ofBigEndian, hfour]
  have hobject : bigEndian 8 (declaredObject bytes) = (bytes.drop 12).take 8 := by
    rw [← height, declaredObject, bigEndian_ofBigEndian, height]
  rw [hmanifest, hobject, ← hmagic]
  have hdrop : ∀ (n k : Nat), (bytes.drop n).take k ++ bytes.drop (n + k) = bytes.drop n := by
    intro n k
    rw [← List.drop_drop]
    exact List.take_append_drop _ _
  rw [hdrop, hdrop, hdrop 12 8, hdrop 8 4]
  exact (List.take_append_drop _ _).symm

/-- The parts of an input made of a manifest and an object are found where they were put. -/
theorem entry_read {manifestBytes digest : List UInt8} (hmanifest : manifestBytes.length < 2 ^ 32)
    (hobject : object.length < 2 ^ 64)
    (hbytes : bytes = entryMagic ++ (bigEndian 4 manifestBytes.length ++
      (bigEndian 8 object.length ++ (manifestBytes ++ (object ++ digest))))) :
    bytes.take 8 = entryMagic ∧ declaredManifest bytes = manifestBytes.length ∧
      declaredObject bytes = object.length ∧
      (bytes.drop 20).take manifestBytes.length = manifestBytes ∧
      (bytes.drop (20 + manifestBytes.length)).take object.length = object ∧
      bytes.drop (20 + manifestBytes.length + object.length) = digest := by
  have hmagic : entryMagic.length = 8 := by decide
  obtain ⟨hfirst, h8⟩ := eq_append_iff.mp hbytes
  rw [hmagic] at hfirst h8
  obtain ⟨hfour, h12⟩ := eq_append_iff.mp h8
  rw [bigEndian_length, List.drop_drop] at h12
  rw [bigEndian_length] at hfour
  obtain ⟨height, h20⟩ := eq_append_iff.mp h12
  rw [bigEndian_length, List.drop_drop] at h20
  rw [bigEndian_length] at height
  obtain ⟨hmb, hend⟩ := eq_append_iff.mp h20
  rw [List.drop_drop] at hend
  obtain ⟨hob, hdigest⟩ := eq_append_iff.mp hend
  rw [List.drop_drop] at hdigest
  refine ⟨hfirst, ?_, ?_, hmb, hob, hdigest⟩
  · rw [declaredManifest, hfour, ofBigEndian_bigEndian]
    exact Nat.mod_eq_of_lt hmanifest
  · rw [declaredObject, height, ofBigEndian_bigEndian]
    exact Nat.mod_eq_of_lt hobject

/-- What is decoded under a key is what is encoded, with this key in the manifest. -/
theorem decodeEntry_eq_ok : decodeEntry sha256 key bytes = .ok (m, object) ↔
    (m.Valid ∧ object.length ≤ maxObjectBytes) ∧ bytes = entryBytes sha256 m object ∧
      m.key = key := by
  have hfits : maxManifestBytes < 2 ^ 32 ∧ maxObjectBytes < 2 ^ 64 := by decide
  constructor
  · intro h
    unfold decodeEntry at h
    dsimp only at h
    split at h
    · cases h
    rename_i hheader
    split at h
    · cases h
    rename_i hlimits
    split at h
    · cases h
    rename_i hlength
    split at h
    · cases h
    rename_i hdigest
    obtain ⟨-, hmagic⟩ := not_or.mp hheader
    obtain ⟨hmanifest, hobject⟩ := not_or.mp hlimits
    rw [not_not] at hmagic hlength hdigest
    have hparts := entry_parts hmagic hlength
    have hmanifestLen : ((bytes.drop 20).take (declaredManifest bytes)).length =
        declaredManifest bytes := by
      rw [List.length_take, List.length_drop]
      omega
    have hobjectLen : ((bytes.drop (20 + declaredManifest bytes)).take
        (declaredObject bytes)).length = declaredObject bytes := by
      rw [List.length_take, List.length_drop]
      omega
    rw [← hdigest] at hparts
    cases hdecode : decodeManifest ((bytes.drop 20).take (declaredManifest bytes)) with
    | error e =>
        rw [hdecode] at h
        cases h
    | ok m' =>
        rw [hdecode] at h
        change (if _ then _ else _) = _ at h
        split at h
        · cases h
        · rename_i hkey
          rw [not_not] at hkey
          cases h
          obtain ⟨hvalidKey, -, hmanifestBytes⟩ := decodeManifest_eq_ok.mp hdecode
          rw [hmanifestBytes] at hmanifestLen hparts
          rw [← hmanifestLen] at hmanifest
          refine ⟨⟨⟨hvalidKey, not_lt.mp hmanifest⟩, ?_⟩, ?_, hkey⟩
          · rw [hobjectLen]
            exact not_lt.mp hobject
          · rw [entryBytes, hobjectLen, hmanifestLen]
            exact hparts
  · rintro ⟨⟨hvalid, hobject⟩, hbytes, rfl⟩
    have hmanifest := hvalid.size
    obtain ⟨hmagic, hmanifestLen, hobjectLen, hmb, hob, hdigest⟩ :=
      entry_read (by omega) (by omega) hbytes
    have hlength : bytes.length = 20 + m.bytes.length + object.length + 32 := by
      have hmagicLen : entryMagic.length = 8 := by decide
      rw [hbytes, entryBytes]
      simp only [List.length_append, bigEndian_length, hmagicLen, Vector.length_toList]
      omega
    unfold decodeEntry
    dsimp only
    rw [hmanifestLen, hobjectLen, hmb, hob, hdigest, if_neg, if_neg, if_neg, if_neg,
      decodeManifest_eq_ok.mpr ⟨hvalid.key, hvalid.shortString, rfl⟩]
    · exact if_neg (not_not_intro rfl)
    · exact not_not_intro rfl
    · omega
    · omega
    · rw [not_or, not_not]
      exact ⟨by omega, hmagic⟩

end EntryCodec

end CalcKernel
