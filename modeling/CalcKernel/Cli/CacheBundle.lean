import Mathlib.Data.List.Infix
import CalcKernel.Cli.CacheEntry

/-!
# Indices of object bundles

A bundle of objects for several processors is cached with an index of their names, roles and
digests.  What is decoded is exactly what is encoded.
-/

namespace CalcKernel

open Lib

inductive KirMultiversionTierId where
  | baseline | x86_64V3 | x86_64V4 | aArch64Sve | aArch64Sve2
deriving DecidableEq, Repr

inductive NativeMultiversionObjectRole where
  | baseline
  | variant (root : UInt32) (tier : KirMultiversionTierId)
  | dispatchRuntime
deriving DecidableEq, Repr

structure CacheBundleReference where
  name : String
  role : NativeMultiversionObjectRole
  digest : Digest
deriving DecidableEq, Repr

structure CacheBundleIndex where
  targetSetDigest : Digest
  dispatchRuntimeDigest : Digest
  objects : List CacheBundleReference
deriving DecidableEq, Repr

def bundleMagic : List UInt8 := utf8Bytes "CKCBND01"
def maxBundleObjects : Nat := 64

def tierCode : KirMultiversionTierId → UInt8
  | .baseline => 0
  | .x86_64V3 => 1
  | .x86_64V4 => 2
  | .aArch64Sve => 3
  | .aArch64Sve2 => 4

def tierFromCode (code : UInt8) : Except String KirMultiversionTierId :=
  if code = 0 then .ok .baseline
  else if code = 1 then .ok .x86_64V3
  else if code = 2 then .ok .x86_64V4
  else if code = 3 then .ok .aArch64Sve
  else if code = 4 then .ok .aArch64Sve2
  else .error "cache bundle tier is invalid"

/-! ## The checks -/

/-- The first eight bytes as lower case hexadecimal digits. -/
def hexPrefix (digest : Digest) : List Char :=
  (digest.toList.take 8).flatMap fun byte ↦
    [Nat.digitChar (byte.toNat / 16), Nat.digitChar (byte.toNat % 16)]

def nameByte (byte : UInt8) : Bool :=
  (48 ≤ byte && byte ≤ 57) || (65 ≤ byte && byte ≤ 90) || (97 ≤ byte && byte ≤ 122) ||
    byte = 46 || byte = 95 || byte = 45

/-- The name of an object, given the names before it. -/
def objectNameValid (space : List Char) (names : List String) (name : String) : Bool :=
  name.utf8ByteSize ≠ 0 && name.utf8ByteSize ≤ 255 && name.toList.head? ≠ some '.' &&
    [ '.', 'o' ].isSuffixOf name.toList && decide (space <:+: name.toList) &&
    (utf8Bytes name).all nameByte && !names.contains name

namespace CacheBundleIndex

variable (index : CacheBundleIndex)

/-- The loop of `validate_bundle_index` over the objects from a position on. -/
def validateObjects : List CacheBundleReference → Nat → List String → Option (UInt32 × UInt8) →
    Except String Unit
  | [], _, _, _ => .ok ()
  | object :: rest, position, names, priorVariant =>
      if ¬ objectNameValid (hexPrefix index.targetSetDigest) names object.name then
        .error "cache bundle object name is invalid"
      else match object.role with
      | .baseline =>
          if position = 0 then
            validateObjects rest (position + 1) (object.name :: names) priorVariant
          else .error "cache bundle object role position is invalid"
      | .dispatchRuntime =>
          if position + 1 = index.objects.length then
            if object.digest ≠ index.dispatchRuntimeDigest then
              .error "cache bundle dispatch digest mismatch"
            else validateObjects rest (position + 1) (object.name :: names) priorVariant
          else .error "cache bundle object role position is invalid"
      | .variant root tier =>
          if 0 < position ∧ position + 1 < index.objects.length then
            if priorVariant.any fun prior ↦
                root < prior.1 || (root = prior.1 && tierCode tier ≤ prior.2) then
              .error "cache bundle variant order is invalid"
            else validateObjects rest (position + 1) (object.name :: names)
              (some (root, tierCode tier))
          else .error "cache bundle object role position is invalid"

/-- `validate_bundle_index`. -/
def validate : Except String Unit :=
  if ¬ (2 ≤ index.objects.length ∧ index.objects.length ≤ maxBundleObjects) ∨
      index.objects.head?.map (·.role) ≠ some .baseline ∨
      index.objects.getLast?.map (·.role) ≠ some .dispatchRuntime then
    .error "cache bundle roles are not closed"
  else index.validateObjects index.objects 0 [] none

end CacheBundleIndex

/-! ## Writing and reading -/

namespace NativeMultiversionObjectRole

def tag : NativeMultiversionObjectRole → UInt8
  | .baseline => 1
  | .variant _ _ => 2
  | .dispatchRuntime => 3

def payload : NativeMultiversionObjectRole → List UInt8
  | .variant root tier => u32Bytes root ++ [tierCode tier]
  | .baseline | .dispatchRuntime => []

end NativeMultiversionObjectRole

def encodeReference (object : CacheBundleReference) : Except String (List UInt8) :=
  if 2 ^ 16 ≤ object.name.utf8ByteSize then .error "bundle name too long"
  else .ok (bigEndian 2 object.name.utf8ByteSize ++ utf8Bytes object.name ++ [object.role.tag] ++
    object.role.payload ++ object.digest.toList)

def encodeBundleIndex (index : CacheBundleIndex) : Except String (List UInt8) := do
  index.validate
  let objects ← index.objects.mapM encodeReference
  return bundleMagic ++ u32Bytes 1 ++ index.targetSetDigest.toList ++
    index.dispatchRuntimeDigest.toList ++ bigEndian 4 index.objects.length ++ objects.flatten

def readName : CacheReader String := do
  let length ← Lib.Reader.natural 2 truncatedField
  let bytes ← Lib.Reader.exact length truncatedField
  decodeUtf8 "bundle name is not UTF-8" bytes

def readTier : CacheReader KirMultiversionTierId := do
  let code ← readCacheU8
  tierFromCode code

def readRole : CacheReader NativeMultiversionObjectRole := do
  let tag ← readCacheU8
  if tag = 1 then return .baseline
  else if tag = 2 then
    let root ← readCacheU32
    let tier ← readTier
    return .variant root tier
  else if tag = 3 then return .dispatchRuntime
  else Lib.Reader.fail "cache bundle role is invalid"

def readReference : CacheReader CacheBundleReference := do
  let name ← readName
  let role ← readRole
  let digest ← Lib.Reader.array 32 truncatedField "object digest"
  return ⟨name, role, digest⟩

def readBundleIndex : CacheReader CacheBundleIndex := do
  let schema ← readCacheU32
  if schema ≠ 1 then Lib.Reader.fail "cache bundle schema is invalid"
  else
    let targetSetDigest ← Lib.Reader.array 32 truncatedField "target digest"
    let dispatchRuntimeDigest ← Lib.Reader.array 32 truncatedField "runtime digest"
    let count ← Lib.Reader.natural 4 truncatedField
    if ¬ (2 ≤ count ∧ count ≤ maxBundleObjects) then
      Lib.Reader.fail "cache bundle object count is invalid"
    else
      let objects ← Lib.Reader.repeated readReference count
      return ⟨targetSetDigest, dispatchRuntimeDigest, objects⟩

def decodeBundleIndex (bytes : List UInt8) : Except String CacheBundleIndex :=
  if bytes.length < 8 + 4 + 32 + 32 + 4 ∨ bytes.take 8 ≠ bundleMagic then
    .error "cache bundle header is invalid"
  else do
    let index ← readBundleIndex.whole "cache bundle has trailing data" (bytes.drop 8)
    index.validate
    return index

/-! ## What is checked -/

namespace CacheBundleIndex

variable {index : CacheBundleIndex}

theorem validateObjects_names {objects : List CacheBundleReference} {position : Nat}
    {names : List String} {prior : Option (UInt32 × UInt8)}
    (h : index.validateObjects objects position names prior = .ok ()) :
    ∀ object ∈ objects, object.name.utf8ByteSize ≤ 255 := by
  induction objects generalizing position names prior with
  | nil => exact fun _ h ↦ by cases h
  | cons object rest ih =>
      rw [validateObjects] at h
      split at h
      · cases h
      rename_i hname
      have hsize : object.name.utf8ByteSize ≤ 255 := by
        simp only [objectNameValid, Bool.and_eq_true, decide_eq_true_eq, not_not] at hname
        exact hname.1.1.1.1.1.2
      have hrest : ∃ names' prior', index.validateObjects rest (position + 1) names' prior' =
          .ok () := by
        split at h
        · split at h
          · exact ⟨_, _, h⟩
          · cases h
        · split at h
          · split at h
            · cases h
            · exact ⟨_, _, h⟩
          · cases h
        · split at h
          · split at h
            · cases h
            · exact ⟨_, _, h⟩
          · cases h
      obtain ⟨_, _, hrest⟩ := hrest
      exact List.forall_mem_cons.mpr ⟨hsize, ih hrest⟩

/-- A checked index has from 2 to 64 objects with short names. -/
theorem validate_sizes (h : index.validate = .ok ()) :
    (2 ≤ index.objects.length ∧ index.objects.length ≤ maxBundleObjects) ∧
      ∀ object ∈ index.objects, object.name.utf8ByteSize ≤ 255 := by
  unfold validate at h
  split at h
  · cases h
  · rename_i hclosed
    exact ⟨not_not.mp (not_or.mp hclosed).1, validateObjects_names h⟩

end CacheBundleIndex

/-! ## The codec of references -/

theorem tierFromCode_eq_ok (code : UInt8) (tier : KirMultiversionTierId) :
    tierFromCode code = .ok tier ↔ code = tierCode tier := by
  unfold tierFromCode
  repeat' split
  all_goals cases tier <;> simp_all [tierCode]

/-- The name of an object whose length is written as 16 bits. -/
def nameBytes (name : String) : List UInt8 := bigEndian 2 name.utf8ByteSize ++ utf8Bytes name

theorem reads_name : Reads readName nameBytes (fun name ↦ name.utf8ByteSize < 2 ^ 16) := by
  have hbytes : ∀ n : Nat, Reads (do
      let bytes ← Reader.exact n truncatedField
      decodeUtf8 "bundle name is not UTF-8" bytes) utf8Bytes
      (fun s ↦ (utf8Bytes s).length = n ∧ True) := fun n ↦
    (Reads.exact n truncatedField).mapExcept fun _ _ ↦ by
      rw [and_true]
      exact decodeUtf8_eq_ok
  have h := (Reads.natural 2 truncatedField).bind (fun s : String ↦ s.utf8ByteSize) hbytes
    (fun _ _ h ↦ h.1)
  apply h.congr
  · intro s
    simp [utf8Bytes_length]
  · intro s _
    rfl

theorem reads_tier : Reads readTier (fun tier ↦ [tierCode tier]) (fun _ ↦ True) := by
  have hf : ∀ code tier, tierFromCode code = .ok tier ↔ code = tierCode tier ∧ True := by
    simpa using tierFromCode_eq_ok
  apply (reads_cacheU8.mapExcept hf).congr
  · simp
  · exact fun _ _ ↦ rfl

theorem reads_variant : Reads (do
      let root ← readCacheU32
      let tier ← readTier
      return .variant root tier) NativeMultiversionObjectRole.payload (fun role ↦ role.tag = 2) := by
  have h := reads_cacheU32.bind (fun | .variant root _ => root | _ => 0) (fun root ↦
    reads_tier.bind (fun | .variant _ tier => tier | _ => .baseline) (fun tier ↦
    Reads.pure (NativeMultiversionObjectRole.variant root tier)) (by grind)) (by grind)
  apply h.congr
  · intro role
    cases role <;> simp [NativeMultiversionObjectRole.tag]
  · intro role hrole
    cases role <;> simp_all [NativeMultiversionObjectRole.payload]

theorem reads_role : Reads readRole (fun role ↦ [role.tag] ++ role.payload) (fun _ ↦ True) := by
  have hbranch : ∀ tag : UInt8, Reads (if tag = 1 then return .baseline
      else if tag = 2 then do
        let root ← readCacheU32
        let tier ← readTier
        return .variant root tier
      else if tag = 3 then return .dispatchRuntime
      else Lib.Reader.fail "cache bundle role is invalid" : CacheReader _)
      NativeMultiversionObjectRole.payload (fun role ↦ role.tag = tag) := by
    intro tag
    split_ifs with h1 h2 h3
    · apply (Reads.pure NativeMultiversionObjectRole.baseline).congr
      · intro role
        cases role <;> simp [NativeMultiversionObjectRole.tag, h1]
      · rintro role rfl
        rfl
    · exact h2 ▸ reads_variant
    · apply (Reads.pure NativeMultiversionObjectRole.dispatchRuntime).congr
      · intro role
        cases role <;> simp [NativeMultiversionObjectRole.tag, h3]
      · rintro role rfl
        rfl
    · apply Reads.fail
      rintro role rfl
      cases role <;> simp_all [NativeMultiversionObjectRole.tag]
  apply (reads_cacheU8.bind (·.tag) hbranch (by grind)).congr
  · simp
  · exact fun _ _ ↦ rfl

def CacheBundleReference.bytes (object : CacheBundleReference) : List UInt8 :=
  nameBytes object.name ++ ([object.role.tag] ++ object.role.payload ++ object.digest.toList)

/-- The length of the name fits in 16 bits. -/
def CacheBundleReference.Bounded (object : CacheBundleReference) : Prop :=
  object.name.utf8ByteSize < 2 ^ 16

theorem reads_reference :
    Reads readReference CacheBundleReference.bytes CacheBundleReference.Bounded := by
  have h := reads_name.bind (·.name) (fun name ↦
    reads_role.bind (·.role) (fun role ↦
    (Reads.array 32 truncatedField "object digest").bind (·.digest) (fun digest ↦
    Reads.pure (⟨name, role, digest⟩ : CacheBundleReference))
      (by grind)) (by grind)) (by grind)
  apply h.congr
  · intro object
    simp [CacheBundleReference.Bounded]
  · intro object _
    simp [CacheBundleReference.bytes]

theorem encodeReference_eq_ok (object : CacheBundleReference) (bytes : List UInt8) :
    encodeReference object = .ok bytes ↔ object.Bounded ∧ bytes = object.bytes := by
  rw [encodeReference, CacheBundleReference.Bounded, ← not_le]
  split
  · rename_i hlong
    exact iff_of_false (fun h ↦ by cases h) fun h ↦ h.1 hlong
  · rename_i hshort
    simp only [hshort, not_false_eq_true, true_and, Except.ok.injEq, CacheBundleReference.bytes,
      nameBytes, List.append_assoc, eq_comm (a := bytes)]

/-! ## The codec of indices -/

namespace CacheBundleIndex

variable {index : CacheBundleIndex} {bytes : List UInt8}

/-- What an index is written as, without the magic. -/
def body (index : CacheBundleIndex) : List UInt8 :=
  u32Bytes 1 ++ (index.targetSetDigest.toList ++ (index.dispatchRuntimeDigest.toList ++
    (bigEndian 4 index.objects.length ++ index.objects.flatMap (·.bytes))))

/-- The number of objects and the lengths of their names fit the format. -/
def Bounded (index : CacheBundleIndex) : Prop :=
  (2 ≤ index.objects.length ∧ index.objects.length ≤ maxBundleObjects) ∧
    ∀ object ∈ index.objects, object.Bounded

theorem bounded (h : index.validate = .ok ()) : index.Bounded := by
  obtain ⟨hcount, hnames⟩ := validate_sizes h
  exact ⟨hcount, fun object hobject ↦ lt_of_le_of_lt (hnames object hobject) (by decide)⟩

theorem reads_index : Reads readBundleIndex body Bounded := by
  have h := reads_cacheU32.bind (fun _ ↦ 1) (fun schema ↦
    ((Reads.array 32 truncatedField "target digest").bind (·.targetSetDigest)
      (fun targetSetDigest ↦
    (Reads.array 32 truncatedField "runtime digest").bind (·.dispatchRuntimeDigest)
      (fun dispatchRuntimeDigest ↦
    (Reads.natural 4 truncatedField).bind (·.objects.length) (fun count ↦
    ((reads_reference.repeated count).bind (·.objects) (fun objects ↦
    Reads.pure (⟨targetSetDigest, dispatchRuntimeDigest, objects⟩ : CacheBundleIndex))
      (by grind)).ite (c := ¬ (2 ≤ count ∧ count ≤ maxBundleObjects))
        (e := "cache bundle object count is invalid"))
      (by grind)) (by grind)) (by grind)).ite (c := schema ≠ 1)
        (e := "cache bundle schema is invalid"))
    (by grind)
  have hmax : maxBundleObjects < 256 ^ 4 := by decide
  apply h.congr
  · intro index
    simp only [Bounded]
    constructor
    · rintro ⟨hcount, hnames⟩
      exact ⟨trivial, by simp, trivial, trivial, by omega, not_not_intro hcount,
        ⟨trivial, hnames⟩, trivial⟩
    · rintro ⟨-, -, -, -, -, hcount, ⟨-, hnames⟩, -⟩
      exact ⟨not_not.mp hcount, hnames⟩
  · intro index _
    simp [body]

theorem encodeBundleIndex_eq_ok : encodeBundleIndex index = .ok bytes ↔
    index.validate = .ok () ∧ bytes = bundleMagic ++ index.body := by
  unfold encodeBundleIndex
  cases hvalidate : index.validate with
  | error e => exact iff_of_false (fun h ↦ by cases h) fun h ↦ by cases h.1
  | ok u =>
      have hobjects : index.objects.mapM encodeReference =
          .ok (index.objects.map (·.bytes)) :=
        (mapM_eq_ok_iff encodeReference_eq_ok).mpr ⟨(bounded hvalidate).2, rfl⟩
      rw [hobjects]
      change Except.ok _ = Except.ok bytes ↔ _
      simp only [Except.ok.injEq, true_and, body, List.flatMap, List.append_assoc,
        eq_comm (a := bytes)]

theorem decodeBundleIndex_eq_ok : decodeBundleIndex bytes = .ok index ↔
    index.validate = .ok () ∧ bytes = bundleMagic ++ index.body := by
  have hmagic : bundleMagic.length = 8 := by decide
  unfold decodeBundleIndex
  split
  · rename_i hheader
    refine iff_of_false (fun h ↦ by cases h) ?_
    rintro ⟨-, rfl⟩
    obtain ⟨hfirst, -⟩ := eq_append_iff.mp (Eq.refl (bundleMagic ++ index.body))
    rw [hmagic] at hfirst
    rcases hheader with hlength | hne
    · simp [body, u32Bytes, hmagic] at hlength
      omega
    · exact hne hfirst
  · rename_i hheader
    have hfirst : bytes.take 8 = bundleMagic := not_not.mp (not_or.mp hheader).2
    have hread : readBundleIndex.whole "cache bundle has trailing data" (bytes.drop 8) = .ok index ↔
        _ := reads_index.whole_eq_ok
    rw [eq_append_iff, hmagic]
    constructor
    · intro h
      cases hwhole : readBundleIndex.whole "cache bundle has trailing data" (bytes.drop 8) with
      | error e =>
          rw [hwhole] at h
          cases h
      | ok index' =>
          rw [hwhole] at h
          change (index'.validate >>= fun _ ↦ Except.ok index') = _ at h
          cases hvalidate : index'.validate with
          | error e =>
              rw [hvalidate] at h
              cases h
          | ok u =>
              rw [hvalidate] at h
              cases h
              exact ⟨hvalidate, hfirst, (hread.mp hwhole).2⟩
    · rintro ⟨hvalidate, -, hbody⟩
      rw [hread.mpr ⟨bounded hvalidate, hbody⟩]
      change (index.validate >>= fun _ ↦ Except.ok index) = _
      rw [hvalidate]
      rfl

end CacheBundleIndex

end CalcKernel
