import CalcKernel.Cli.CacheBundle

/-!
# Keys of the object cache

The canonical bytes of a key list all its inputs as tagged fields with their lengths, so
that they determine the inputs.  With the codecs of entries and bundle indices this makes
the cache unambiguous.
-/

namespace CalcKernel

open Lib

/-! ## The inputs of a key -/

/-- A `Vec<u8>`, which holds at most `isize::MAX` bytes. -/
abbrev ByteVec := { bytes : List UInt8 // bytes.length < 2 ^ 63 }

/-- A `String`, likewise. -/
abbrev OwnedString := { s : String // s.utf8ByteSize < 2 ^ 63 }

structure CacheKeyInput where
  source : ByteVec
  compilerVersion : OwnedString
  nativeAbi : UInt32
  runtimeAbi : UInt32
  bridgeAbi : UInt32
  llvmVersion : OwnedString
  llvmManifestSha256 : OwnedString
  targetTriple : OwnedString
  optimizationLevel : UInt8
  overflowMode : UInt8
  boundsMode : UInt8
  kirContractVersion : UInt32
  sanitizerMode : UInt8
  targetProfileDigest : OwnedString
  vectorCostModelSchema : UInt32
  vectorProofSchema : UInt32
  vectorBudgetIdentity : OwnedString
  cpu : OwnedString
  features : OwnedString
  codegenContract : OwnedString
  runtimeSha256 : Vector OwnedString 5
  profileIdentity : OwnedString
  artifactIdentity : OwnedString
  pgoIdentity : OwnedString
  multiversionIdentity : OwnedString
  dispatchIdentity : OwnedString
  budgetIdentity : OwnedString

def keyMagic : List UInt8 := utf8Bytes "CKC-CACHE-KEY\x00"
def keySchema : UInt32 := 4

/-- `field`; the length is taken as a `u64`. -/
def keyField (tag : UInt16) (value : List UInt8) : List UInt8 :=
  u16Bytes tag ++ u64Bytes (UInt64.ofNat value.length) ++ value

namespace CacheKeyInput

/-- The fields of a key in the order of `canonical_key_bytes`. -/
def fields (input : CacheKeyInput) : List (UInt16 × List UInt8) :=
  [(1, input.source.1), (2, utf8Bytes input.compilerVersion), (3, u32Bytes input.nativeAbi),
    (4, u32Bytes input.runtimeAbi), (5, u32Bytes input.bridgeAbi),
    (6, utf8Bytes input.llvmVersion), (7, utf8Bytes input.llvmManifestSha256),
    (8, utf8Bytes input.targetTriple), (9, [input.optimizationLevel]),
    (10, [input.overflowMode]), (11, [input.boundsMode]), (12, utf8Bytes input.cpu),
    (13, utf8Bytes input.features), (14, utf8Bytes input.codegenContract),
    (15, u32Bytes input.kirContractVersion), (16, [input.sanitizerMode]),
    (17, utf8Bytes input.targetProfileDigest), (18, u32Bytes input.vectorCostModelSchema),
    (19, u32Bytes input.vectorProofSchema)] ++
  (List.ofFn fun index : Fin 5 ↦
    (20 + UInt16.ofNat index, utf8Bytes (input.runtimeSha256.get index))) ++
  [(30, utf8Bytes input.vectorBudgetIdentity), (31, utf8Bytes input.profileIdentity),
    (32, utf8Bytes input.artifactIdentity), (33, utf8Bytes input.pgoIdentity),
    (34, utf8Bytes input.multiversionIdentity), (35, utf8Bytes input.dispatchIdentity),
    (36, utf8Bytes input.budgetIdentity)]

end CacheKeyInput

def canonicalKeyBytes (input : CacheKeyInput) : List UInt8 :=
  keyMagic ++ u32Bytes keySchema ++ input.fields.flatMap fun field ↦ keyField field.1 field.2

/-! ## The bytes determine the inputs -/

theorem u32Bytes_injective : Function.Injective u32Bytes := by
  intro x y h
  have hread := reads_u32.read (a := x) trivial []
  have hread' := reads_u32.read (a := y) trivial []
  rw [h, hread'] at hread
  cases hread
  rfl

theorem u64Bytes_injective : Function.Injective u64Bytes := by
  intro x y h
  have hread := reads_u64.read (a := x) trivial []
  have hread' := reads_u64.read (a := y) trivial []
  rw [h, hread'] at hread
  cases hread
  rfl

theorem utf8Bytes_injective : Function.Injective utf8Bytes := by
  intro s s' h
  have hread := fromUTF8?_eq_some.mpr (Eq.refl (utf8Bytes s))
  rw [h, fromUTF8?_eq_some.mpr rfl] at hread
  exact (Option.some.inj hread).symm

/-- Fields that follow each other with the same tag and sizes of a `u64` are the same. -/
theorem keyField_append {tag : UInt16} {value value' rest rest' : List UInt8}
    (hvalue : value.length < 2 ^ 64) (hvalue' : value'.length < 2 ^ 64)
    (h : keyField tag value ++ rest = keyField tag value' ++ rest') :
    value = value' ∧ rest = rest' := by
  simp only [keyField, List.append_assoc] at h
  obtain ⟨hlength, h⟩ := List.append_inj (List.append_cancel_left h) (by simp [u64Bytes])
  have hsame := congrArg UInt64.toNat (u64Bytes_injective hlength)
  rw [UInt64.toNat_ofNat', UInt64.toNat_ofNat', Nat.mod_eq_of_lt hvalue,
    Nat.mod_eq_of_lt hvalue'] at hsame
  exact List.append_inj h hsame

/-- Fields with the same tags are determined by their bytes. -/
theorem flatMap_keyField {l l' : List (UInt16 × List UInt8)}
    (htags : l.map Prod.fst = l'.map Prod.fst) (hl : ∀ field ∈ l, field.2.length < 2 ^ 64)
    (hl' : ∀ field ∈ l', field.2.length < 2 ^ 64)
    (h : (l.flatMap fun field ↦ keyField field.1 field.2) =
      l'.flatMap fun field ↦ keyField field.1 field.2) : l = l' := by
  induction l generalizing l' with
  | nil => exact (List.map_eq_nil_iff.mp htags.symm).symm
  | cons field l ih =>
      obtain ⟨tag, value⟩ := field
      cases l' with
      | nil => cases htags
      | cons field' l' =>
          obtain ⟨tag', value'⟩ := field'
          obtain ⟨rfl, htags'⟩ := List.cons.inj htags
          obtain ⟨hfield, hrest⟩ := List.forall_mem_cons.mp hl
          obtain ⟨hfield', hrest'⟩ := List.forall_mem_cons.mp hl'
          obtain ⟨rfl, hbytes⟩ := keyField_append hfield hfield' h
          rw [ih htags' hrest hrest' hbytes]

namespace CacheKeyInput

theorem fields_sizes (input : CacheKeyInput) :
    ∀ field ∈ input.fields, field.2.length < 2 ^ 64 := by
  have hsource := input.source.2
  have hstring : ∀ s : OwnedString, (utf8Bytes s).length < 2 ^ 64 := by
    intro s
    have hs := s.2
    rw [utf8Bytes_length]
    omega
  have hnumber : ∀ x : UInt32, (u32Bytes x).length < 2 ^ 64 := by simp [u32Bytes]
  have hbyte : ∀ x : UInt8, [x].length < 2 ^ 64 := by simp
  have hnone : ∀ field ∈ ([] : List (UInt16 × List UInt8)), field.2.length < 2 ^ 64 :=
    fun _ h ↦ by cases h
  simp only [fields, List.forall_mem_append, List.forall_mem_cons, List.forall_mem_ofFn_iff,
    hstring, hnumber, hbyte, implies_true, and_true, true_and]
  exact ⟨⟨by omega, hnone⟩, hnone⟩

theorem fields_injective : Function.Injective fields := by
  intro input input' h
  unfold fields at h
  obtain ⟨h, hlast⟩ := List.append_inj h (by simp)
  obtain ⟨hfirst, hruntime⟩ := List.append_inj h (by simp)
  have hhashes : input.runtimeSha256 = input'.runtimeSha256 := by
    refine Vector.ext fun i hi ↦ Subtype.ext ?_
    have hindex := congrFun (List.ofFn_injective hruntime) ⟨i, hi⟩
    exact utf8Bytes_injective (Prod.mk.inj hindex).2
  simp only [List.cons.injEq, Prod.mk.injEq, true_and, and_true, u32Bytes_injective.eq_iff,
    utf8Bytes_injective.eq_iff, Subtype.val_inj] at hfirst hlast
  cases input
  cases input'
  simp_all

end CacheKeyInput

/-- Two keys with the same canonical bytes are the same in every input. -/
theorem canonicalKeyBytes_injective : Function.Injective canonicalKeyBytes := by
  intro input input' h
  apply CacheKeyInput.fields_injective
  refine flatMap_keyField ?_ input.fields_sizes input'.fields_sizes (List.append_cancel_left h)
  rfl

/-! ## The cache is unambiguous -/

section Cache

variable {sha256 : List UInt8 → Digest} {key : String} {bytes : List UInt8}

theorem decodeEntry_iff_encodeEntry {m : CacheManifest} {object : List UInt8} :
    decodeEntry sha256 key bytes = .ok (m, object) ↔
      encodeEntry sha256 m object = .ok bytes ∧ m.key = key := by
  rw [decodeEntry_eq_ok, encodeEntry_eq_ok]
  exact and_assoc.symm

/-- An entry of the declared lengths ends with the digest of its payload. -/
theorem decodeEntry_payload {p : CacheManifest × List UInt8}
    (h : decodeEntry sha256 key bytes = .ok p) :
    20 + declaredManifest bytes + declaredObject bytes + 32 = bytes.length ∧
      (sha256 ((bytes.drop 20).take (declaredManifest bytes + declaredObject bytes))).toList =
        bytes.drop (20 + declaredManifest bytes + declaredObject bytes) := by
  unfold decodeEntry at h
  dsimp only at h
  split at h
  · cases h
  split at h
  · cases h
  split at h
  · cases h
  rename_i hlength
  split at h
  · cases h
  rename_i hdigest
  rw [List.take_add, List.drop_drop]
  exact ⟨not_not.mp hlength, not_not.mp hdigest⟩

theorem exists_error_of_not_ok {ε α : Type} {x : Except ε α} (h : ∀ a, x ≠ .ok a) :
    ∃ e, x = .error e := by
  cases x with
  | error e => exact ⟨e, rfl⟩
  | ok a => exact absurd rfl (h a)

end Cache

/-- Whatever SHA-256 computes: entries and bundle indices are decoded from exactly what they are
encoded to, under their own key; everything else is refused; and the canonical bytes of keys
differ wherever the keys do. -/
theorem cache_unambiguous (sha256 : List UInt8 → Digest) :
    (∀ m object bytes, encodeEntry sha256 m object = .ok bytes →
      decodeEntry sha256 m.key bytes = .ok (m, object)) ∧
    (∀ key bytes m object, decodeEntry sha256 key bytes = .ok (m, object) →
      encodeEntry sha256 m object = .ok bytes ∧ m.key = key) ∧
    (∀ key bytes, (∀ m object, encodeEntry sha256 m object = .ok bytes → m.key ≠ key) →
      ∃ e, decodeEntry sha256 key bytes = .error e) ∧
    (∀ key bytes, 20 + declaredManifest bytes + declaredObject bytes + 32 ≠ bytes.length ∨
        (sha256 ((bytes.drop 20).take (declaredManifest bytes + declaredObject bytes))).toList ≠
          bytes.drop (20 + declaredManifest bytes + declaredObject bytes) →
      ∃ e, decodeEntry sha256 key bytes = .error e) ∧
    (∀ index bytes, encodeBundleIndex index = .ok bytes ↔ decodeBundleIndex bytes = .ok index) ∧
    (∀ bytes, (∀ index, encodeBundleIndex index ≠ .ok bytes) →
      ∃ e, decodeBundleIndex bytes = .error e) ∧
    Function.Injective canonicalKeyBytes := by
  have hbundle : ∀ index bytes,
      encodeBundleIndex index = .ok bytes ↔ decodeBundleIndex bytes = .ok index := by
    intro index bytes
    rw [CacheBundleIndex.encodeBundleIndex_eq_ok, CacheBundleIndex.decodeBundleIndex_eq_ok]
  refine ⟨?_, ?_, ?_, ?_, hbundle, ?_, canonicalKeyBytes_injective⟩
  · exact fun m object bytes h ↦ decodeEntry_iff_encodeEntry.mpr ⟨h, rfl⟩
  · exact fun key bytes m object h ↦ decodeEntry_iff_encodeEntry.mp h
  · intro key bytes h
    refine exists_error_of_not_ok fun p hp ↦ ?_
    obtain ⟨hencode, hkey⟩ := decodeEntry_iff_encodeEntry.mp hp
    exact h p.1 p.2 hencode hkey
  · intro key bytes h
    refine exists_error_of_not_ok fun p hp ↦ ?_
    obtain ⟨hlength, hdigest⟩ := decodeEntry_payload hp
    exact h.elim (fun hne ↦ hne hlength) fun hne ↦ hne hdigest
  · intro bytes h
    exact exists_error_of_not_ok fun index hindex ↦ h index ((hbundle index bytes).mpr hindex)

end CalcKernel
