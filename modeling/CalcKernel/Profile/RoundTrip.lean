import CalcKernel.Profile.OuterCodec

/-!
# Round trips of shards and aggregates

A shard is parsed from exactly the bytes it is serialized to, for every SHA-256.
For an aggregate this holds up to the number of merged shards: the parser has a
limit there that the serializer does not check.
-/

namespace CalcKernel

open Lib

section Sha

variable (sha : List UInt8 → Digest)

theorem parseProfileShard_eq_ok {bytes : List UInt8} {shard : CkProfileShard} :
    parseProfileShard sha bytes = .ok shard ↔ serializeProfileShard sha shard = .ok bytes := by
  have houter : ∀ payloads, parseOuter sha shardMagic shardDomain [1, 2, 3, 4, 5] bytes =
      .ok payloads ↔ payloads.length = 5 ∧
        encodeOuter sha shardMagic shardDomain ([1, 2, 3, 4, 5].zip payloads) = .ok bytes :=
    fun _ ↦ parseOuter_eq_ok sha magic_length.1 (by decide)
  unfold parseProfileShard serializeProfileShard
  rw [check_bind_eq_ok]
  constructor
  · intro h
    obtain ⟨fields, hfields, h⟩ := bind_eq_ok.mp h
    split at h
    · obtain ⟨identity, hidentity, h⟩ := bind_eq_ok.mp h
      obtain ⟨sites, hsites, h⟩ := bind_eq_ok.mp h
      obtain ⟨counters, hcounters, h⟩ := bind_eq_ok.mp h
      obtain ⟨runId, hrunId, h⟩ := bind_eq_ok.mp h
      obtain ⟨flags, hflags, h⟩ := bind_eq_ok.mp h
      obtain ⟨htables, h⟩ := check_bind_eq_ok.mp h
      cases pure_eq_ok.mp h
      obtain rfl := decodeArray_eq_ok.mp hrunId
      obtain rfl := decodeFlags_eq_ok.mp hflags
      refine ⟨htables, bind_eq_ok.mpr ⟨_, decodeIdentity_eq_ok.mp hidentity, ?_⟩⟩
      refine bind_eq_ok.mpr ⟨_, decodeSites_eq_ok.mp hsites, ?_⟩
      refine bind_eq_ok.mpr ⟨_, decodeCounters_eq_ok.mp hcounters, ?_⟩
      exact ((houter _).mp hfields).2
    · cases h
  · rintro ⟨htables, h⟩
    obtain ⟨identity, hidentity, h⟩ := bind_eq_ok.mp h
    obtain ⟨sites, hsites, h⟩ := bind_eq_ok.mp h
    obtain ⟨counters, hcounters, h⟩ := bind_eq_ok.mp h
    refine bind_eq_ok.mpr ⟨[identity, sites, counters, shard.runId.toList,
      encodeFlags shard.overflowed shard.incompleteObservations], (houter _).mpr ⟨rfl, h⟩, ?_⟩
    refine bind_eq_ok.mpr ⟨_, decodeIdentity_eq_ok.mpr hidentity, ?_⟩
    refine bind_eq_ok.mpr ⟨_, decodeSites_eq_ok.mpr hsites, ?_⟩
    refine bind_eq_ok.mpr ⟨_, decodeCounters_eq_ok.mpr hcounters, ?_⟩
    refine bind_eq_ok.mpr ⟨_, decodeArray_eq_ok.mpr rfl, ?_⟩
    refine bind_eq_ok.mpr ⟨(shard.overflowed, shard.incompleteObservations),
      decodeFlags_eq_ok.mpr rfl, ?_⟩
    exact check_bind_eq_ok.mpr ⟨htables, rfl⟩

theorem parseProfile_eq_ok {bytes : List UInt8} {profile : CkProfile} :
    parseProfile sha bytes = .ok profile ↔
      serializeProfile sha profile = .ok bytes ∧ profile.mergedShards ≤ ckProfileMaxShards := by
  have houter : ∀ payloads, parseOuter sha profileMagic profileDomain [1, 2, 3, 4, 5, 6] bytes =
      .ok payloads ↔ payloads.length = 6 ∧
        encodeOuter sha profileMagic profileDomain ([1, 2, 3, 4, 5, 6].zip payloads) = .ok bytes :=
    fun _ ↦ parseOuter_eq_ok sha magic_length.2 (by decide)
  unfold parseProfile serializeProfile
  rw [check_bind_eq_ok]
  constructor
  · intro h
    obtain ⟨fields, hfields, h⟩ := bind_eq_ok.mp h
    split at h
    · obtain ⟨identity, hidentity, h⟩ := bind_eq_ok.mp h
      obtain ⟨sites, hsites, h⟩ := bind_eq_ok.mp h
      obtain ⟨counters, hcounters, h⟩ := bind_eq_ok.mp h
      obtain ⟨runs, hruns, h⟩ := bind_eq_ok.mp h
      obtain ⟨shards, hshards, h⟩ := bind_eq_ok.mp h
      obtain ⟨flags, hflags, h⟩ := bind_eq_ok.mp h
      split_ifs at h with hcounts
      obtain ⟨htables, h⟩ := check_bind_eq_ok.mp h
      cases pure_eq_ok.mp h
      obtain rfl := decodeU64_eq_ok.mp hruns
      obtain rfl := decodeU32_eq_ok.mp hshards
      obtain rfl := decodeFlags_eq_ok.mp hflags
      simp only [not_or] at hcounts
      refine ⟨⟨htables, ?_⟩, UInt32.not_lt.mp hcounts.2.2⟩
      rw [if_neg (not_or.mpr ⟨hcounts.1, hcounts.2.1⟩)]
      refine bind_eq_ok.mpr ⟨_, decodeIdentity_eq_ok.mp hidentity, ?_⟩
      refine bind_eq_ok.mpr ⟨_, decodeSites_eq_ok.mp hsites, ?_⟩
      refine bind_eq_ok.mpr ⟨_, decodeCounters_eq_ok.mp hcounters, ?_⟩
      exact ((houter _).mp hfields).2
    · cases h
  · rintro ⟨⟨htables, h⟩, hlimit⟩
    split_ifs at h with hcounts
    obtain ⟨identity, hidentity, h⟩ := bind_eq_ok.mp h
    obtain ⟨sites, hsites, h⟩ := bind_eq_ok.mp h
    obtain ⟨counters, hcounters, h⟩ := bind_eq_ok.mp h
    refine bind_eq_ok.mpr ⟨[identity, sites, counters, u64Bytes profile.completedRuns,
      u32Bytes profile.mergedShards, encodeFlags profile.overflowed
        profile.incompleteObservations], (houter _).mpr ⟨rfl, h⟩, ?_⟩
    refine bind_eq_ok.mpr ⟨_, decodeIdentity_eq_ok.mpr hidentity, ?_⟩
    refine bind_eq_ok.mpr ⟨_, decodeSites_eq_ok.mpr hsites, ?_⟩
    refine bind_eq_ok.mpr ⟨_, decodeCounters_eq_ok.mpr hcounters, ?_⟩
    refine bind_eq_ok.mpr ⟨_, decodeU64_eq_ok.mpr rfl, ?_⟩
    refine bind_eq_ok.mpr ⟨_, decodeU32_eq_ok.mpr rfl, ?_⟩
    refine bind_eq_ok.mpr ⟨(profile.overflowed, profile.incompleteObservations),
      decodeFlags_eq_ok.mpr rfl, ?_⟩
    rw [if_neg (by rw [← or_assoc, not_or]; exact ⟨hcounts, UInt32.not_lt.mpr hlimit⟩)]
    exact check_bind_eq_ok.mpr ⟨htables, rfl⟩

/-- Shards and their bytes correspond; what is parsed as an aggregate is serialized to the same
bytes; an aggregate that is serialized is read back exactly when it merges at most as many shards
as the parser accepts. -/
theorem profile_roundTrip :
    (∀ shard bytes, serializeProfileShard sha shard = .ok bytes →
      parseProfileShard sha bytes = .ok shard) ∧
    (∀ bytes shard, parseProfileShard sha bytes = .ok shard →
      serializeProfileShard sha shard = .ok bytes) ∧
    (∀ bytes bytes' shard, parseProfileShard sha bytes = .ok shard →
      parseProfileShard sha bytes' = .ok shard → bytes = bytes') ∧
    (∀ bytes profile, parseProfile sha bytes = .ok profile →
      serializeProfile sha profile = .ok bytes) ∧
    (∀ bytes bytes' profile, parseProfile sha bytes = .ok profile →
      parseProfile sha bytes' = .ok profile → bytes = bytes') ∧
    ∀ profile bytes, serializeProfile sha profile = .ok bytes →
      (parseProfile sha bytes = .ok profile ↔ profile.mergedShards ≤ ckProfileMaxShards) := by
  refine ⟨?_, ?_, ?_, ?_, ?_, ?_⟩
  · intro shard bytes h
    exact (parseProfileShard_eq_ok sha).mpr h
  · intro bytes shard h
    exact (parseProfileShard_eq_ok sha).mp h
  · intro bytes bytes' shard h h'
    have hwritten := (parseProfileShard_eq_ok sha).mp h
    rw [(parseProfileShard_eq_ok sha).mp h'] at hwritten
    exact (Except.ok.inj hwritten).symm
  · intro bytes profile h
    exact ((parseProfile_eq_ok sha).mp h).1
  · intro bytes bytes' profile h h'
    have hwritten := ((parseProfile_eq_ok sha).mp h).1
    rw [((parseProfile_eq_ok sha).mp h').1] at hwritten
    exact (Except.ok.inj hwritten).symm
  · intro profile bytes h
    rw [parseProfile_eq_ok sha]
    exact and_iff_right h

end Sha

/-- An identity that passes validation. -/
def sampleIdentity : CkProfileIdentity where
  compiler := ⟨"0.13.0", .replicate 32 1, .replicate 32 2⟩
  module := ⟨.replicate 32 3, .replicate 32 4, .replicate 32 0⟩
  schemas := ⟨1, 1, 1, 1, 1, 1, 1, 1, 1⟩
  target := ⟨"x86_64-unknown-linux-gnu", 64, .little, .elf, "gnu", .replicate 32 5⟩
  modes := ⟨true, true, true, false, .nativeExecutable, .o2, .baseline⟩
  contract := .schema1

/-- A digest that does not depend on the bytes. -/
def constantSha (_ : List UInt8) : Digest := .replicate 32 0

/-- An aggregate of one shard more than the parser accepts. -/
def overfullProfile : CkProfile where
  identity := sampleIdentity
  sites := []
  counters := []
  completedRuns := 4097
  mergedShards := 4097
  overflowed := false
  incompleteObservations := false

theorem overfullProfile_not_read_back :
    ¬ ∀ sha profile bytes, serializeProfile sha profile = .ok bytes →
      parseProfile sha bytes = .ok profile := by
  intro h
  have hserialized : ∃ bytes, serializeProfile constantSha overfullProfile = .ok bytes ∧
      parseProfile constantSha bytes = .error (.invalidValue "profile.aggregateCounts") := by
    have hok : (serializeProfile constantSha overfullProfile).toOption.isSome = true := by
      decide +kernel
    obtain ⟨bytes, hbytes⟩ : ∃ bytes, serializeProfile constantSha overfullProfile = .ok bytes := by
      cases hs : serializeProfile constantSha overfullProfile with
      | ok bytes => exact ⟨bytes, rfl⟩
      | error e => simp [hs, Except.toOption] at hok
    refine ⟨bytes, hbytes, ?_⟩
    have hparsed : (serializeProfile constantSha overfullProfile >>= parseProfile constantSha) =
        .error (.invalidValue "profile.aggregateCounts") := by
      decide +kernel
    rw [hbytes] at hparsed
    exact hparsed
  obtain ⟨bytes, hbytes, hparsed⟩ := hserialized
  rw [h _ _ _ hbytes] at hparsed
  cases hparsed

end CalcKernel
