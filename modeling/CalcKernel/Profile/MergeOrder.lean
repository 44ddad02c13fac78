import CalcKernel.Profile.MergeTotals
import CalcKernel.Profile.Sizes

/-!
# Merging does not depend on the order

The loop over the shards keeps its invariant, so a merge yields the profile that
the totals determine; every permutation of the shards has the same totals.
-/

namespace CalcKernel

open Lib

section Sha

variable (sha : List UInt8 → Digest)

/-! ## The invariant of the loop -/

/-- After the rounds of the shards `done`. -/
structure LoopInv (done : List CkProfileShard) (state : MergeState) : Prop where
  compatible : Compatible sha done
  runs : ∀ runId, runId ∈ state.runIds ↔ runId ∈ done.map (·.runId)
  digests : ∀ digest, digest ∈ state.shardDigests ↔ Except.ok digest ∈ done.map (shardDigest sha)
  merges : Merges done state.counters state.overflowed state.incomplete

theorem shardDigest_of_ok {shard : CkProfileShard} {bytes : List UInt8}
    (h : serializeProfileShard sha shard = .ok bytes) : shardDigest sha shard = .ok (sha bytes) := by
  rw [shardDigest, h]
  rfl

variable {sha} {done rest : List CkProfileShard} {first shard : CkProfileShard}
  {state state' : MergeState} {index : Nat}

/-- The checks of a round succeed exactly when the shard is compatible with those before it. -/
theorem LoopInv.compatible_iff (h : LoopInv sha done state) (hfirst : first ∈ done) :
    Compatible sha (done ++ [shard]) ↔ shard.runId ∉ state.runIds ∧
      ∃ bytes, serializeProfileShard sha shard = .ok bytes ∧ sha bytes ∉ state.shardDigests ∧
        first.identity = shard.identity ∧ first.sites = shard.sites := by
  rw [compatible_append sha h.compatible hfirst, h.runs]
  constructor
  · rintro ⟨hrun, hdigest, ⟨bytes, hbytes⟩, hidentity, hsites⟩
    refine ⟨hrun, bytes, hbytes, ?_, hidentity, hsites⟩
    rw [h.digests, ← shardDigest_of_ok sha hbytes]
    exact hdigest
  · rintro ⟨hrun, bytes, hbytes, hdigest, hidentity, hsites⟩
    refine ⟨hrun, ?_, ⟨bytes, hbytes⟩, hidentity, hsites⟩
    rw [shardDigest_of_ok sha hbytes, ← h.digests]
    exact hdigest

theorem LoopInv.addShard (h : LoopInv sha done state) (hfirst : first ∈ done) (hindex : index ≠ 0)
    (hcompatible : Compatible sha (done ++ [shard])) :
    ∃ counters overflowed, state.addShard shard index = .ok (counters, overflowed) ∧
      Merges (done ++ [shard]) counters
        (overflowed || (shard.overflowed || anySaturated shard.counters))
        (state.incomplete || shard.incompleteObservations) := by
  have hshape : tableShape state.counters = tableShape shard.counters := by
    rw [h.merges.shape first hfirst]
    exact hcompatible.shape sha (List.mem_append_left _ hfirst) (by simp)
  obtain ⟨counters, overflowed, hadd, hadds⟩ := addCounterTables_of_shape state.overflowed hshape
  refine ⟨counters, _, ?_, h.merges.add hadds hshape⟩
  rw [MergeState.addShard, if_pos hindex, hadd]

/-- A round keeps the invariant. -/
theorem LoopInv.step (h : LoopInv sha done state) (hfirst : first ∈ done) (hindex : index ≠ 0)
    (hstep : mergeShard sha first state shard index = .ok state') :
    LoopInv sha (done ++ [shard]) state' := by
  obtain ⟨hrun, bytes, hbytes, hdigest, hidentity, hsites, counters, overflowed, hadd, rfl⟩ :=
    (mergeShard_eq_ok sha).mp hstep
  have hcompatible : Compatible sha (done ++ [shard]) :=
    (h.compatible_iff hfirst).mpr ⟨hrun, bytes, hbytes, hdigest, hidentity, hsites⟩
  obtain ⟨counters', overflowed', hadd', hmerges⟩ := h.addShard hfirst hindex hcompatible
  rw [hadd] at hadd'
  cases hadd'
  refine ⟨hcompatible, ?_, ?_, hmerges⟩
  · intro runId
    rw [List.mem_cons, h.runs, List.map_append, List.mem_append, or_comm]
    simp
  · intro digest
    rw [List.mem_cons, h.digests, List.map_append, List.mem_append, List.map_singleton,
      shardDigest_of_ok sha hbytes, or_comm]
    simp

/-- A compatible shard is merged. -/
theorem LoopInv.progress (h : LoopInv sha done state) (hfirst : first ∈ done) (hindex : index ≠ 0)
    (hcompatible : Compatible sha (done ++ [shard])) :
    ∃ state', mergeShard sha first state shard index = .ok state' := by
  obtain ⟨hrun, bytes, hbytes, hdigest, hidentity, hsites⟩ :=
    (h.compatible_iff hfirst).mp hcompatible
  obtain ⟨counters, overflowed, hadd, _⟩ := h.addShard hfirst hindex hcompatible
  exact ⟨_, (mergeShard_eq_ok sha).mpr
    ⟨hrun, bytes, hbytes, hdigest, hidentity, hsites, counters, overflowed, hadd, rfl⟩⟩

theorem Compatible.left {l l' : List CkProfileShard} (h : Compatible sha (l ++ l')) :
    Compatible sha l where
  runs := (List.map_append ▸ h.runs).of_append_left
  digests := (List.map_append ▸ h.digests).of_append_left
  serialized := fun shard hshard ↦ h.serialized shard (List.mem_append_left _ hshard)
  identity := fun shard hshard shard' hshard' ↦
    h.identity shard (List.mem_append_left _ hshard) shard' (List.mem_append_left _ hshard')
  sites := fun shard hshard shard' hshard' ↦
    h.sites shard (List.mem_append_left _ hshard) shard' (List.mem_append_left _ hshard')

/-- The rounds after the first keep the invariant. -/
theorem LoopInv.run (h : LoopInv sha done state) (hfirst : first ∈ done) (hindex : index ≠ 0)
    (hrun : mergeLoop sha first state index rest = .ok state') :
    LoopInv sha (done ++ rest) state' := by
  induction rest generalizing done state index with
  | nil =>
      cases hrun
      simpa using h
  | cons shard rest ih =>
      obtain ⟨middle, hstep, hrest⟩ := bind_eq_ok.mp hrun
      have hmiddle := h.step hfirst hindex hstep
      have := ih hmiddle (List.mem_append_left _ hfirst) (Nat.succ_ne_zero index) hrest
      rwa [List.append_assoc, List.singleton_append] at this

theorem LoopInv.completes (h : LoopInv sha done state) (hfirst : first ∈ done) (hindex : index ≠ 0)
    (hcompatible : Compatible sha (done ++ rest)) :
    ∃ state', mergeLoop sha first state index rest = .ok state' := by
  induction rest generalizing done state index with
  | nil => exact ⟨state, rfl⟩
  | cons shard rest ih =>
      rw [← List.singleton_append, ← List.append_assoc] at hcompatible
      obtain ⟨middle, hstep⟩ := h.progress hfirst hindex hcompatible.left
      have hmiddle := h.step hfirst hindex hstep
      obtain ⟨state', hrest⟩ := ih hmiddle (List.mem_append_left _ hfirst)
        (Nat.succ_ne_zero index) hcompatible
      exact ⟨state', bind_eq_ok.mpr ⟨middle, hstep, hrest⟩⟩

/-- The state before the first round. -/
def MergeState.start (first : CkProfileShard) : MergeState where
  runIds := []
  shardDigests := []
  counters := first.counters
  overflowed := first.overflowed || anySaturated first.counters
  incomplete := first.incompleteObservations

theorem compatible_singleton :
    Compatible sha [first] ↔ ∃ bytes, serializeProfileShard sha first = .ok bytes := by
  constructor
  · intro h
    exact h.serialized first List.mem_cons_self
  · intro h
    exact ⟨by simp, by simp, by simpa using h, by simp, by simp⟩

theorem mergeShard_first (hstep : mergeShard sha first (.start first) first 0 = .ok state) :
    LoopInv sha [first] state := by
  obtain ⟨_, bytes, hbytes, _, _, _, counters, overflowed, hadd, rfl⟩ :=
    (mergeShard_eq_ok sha).mp hstep
  cases hadd
  refine ⟨compatible_singleton.mpr ⟨bytes, hbytes⟩, by simp [MergeState.start], ?_, ?_⟩
  · simp [MergeState.start, shardDigest_of_ok sha hbytes]
  · have h := merges_first first
    simpa [MergeState.start] using h

theorem mergeShard_first_ok (h : Compatible sha [first]) :
    ∃ state, mergeShard sha first (.start first) first 0 = .ok state := by
  obtain ⟨bytes, hbytes⟩ := compatible_singleton.mp h
  exact ⟨_, (mergeShard_eq_ok sha).mpr ⟨by simp [MergeState.start], bytes, hbytes,
    by simp [MergeState.start], rfl, rfl, _, _, rfl, rfl⟩⟩

/-! ## The merged profile -/

/-- The profile that holds the totals of the shards. -/
structure Merged (shards : List CkProfileShard) (profile : CkProfile) : Prop where
  identity : ∀ shard ∈ shards, profile.identity = shard.identity
  sites : ∀ shard ∈ shards, profile.sites = shard.sites
  merges : Merges shards profile.counters profile.overflowed profile.incompleteObservations
  completedRuns : profile.completedRuns.toNat = shards.length
  mergedShards : profile.mergedShards.toNat = shards.length

theorem mergeProfileShards_of_ok {shards : List CkProfileShard} {profile : CkProfile}
    (h : mergeProfileShards sha shards = .ok profile) :
    shards ≠ [] ∧ shards.length ≤ 4096 ∧ Compatible sha shards ∧ Merged shards profile := by
  have hmax : ckProfileMaxShards.toNat = 4096 := rfl
  unfold mergeProfileShards at h
  split at h
  · cases h
  · rename_i first rest
    rw [hmax] at h
    split at h
    · cases h
    · rename_i hcount
      obtain ⟨state, hloop, h⟩ := bind_eq_ok.mp h
      cases pure_eq_ok.mp h
      obtain ⟨middle, hstep, hrest⟩ := bind_eq_ok.mp hloop
      have hinv := (mergeShard_first hstep).run List.mem_cons_self one_ne_zero hrest
      rw [List.singleton_append] at hinv
      have hlen : (UInt32.ofNat (first :: rest).length).toNat = (first :: rest).length := by
        rw [UInt32.toNat_ofNat']
        omega
      refine ⟨List.cons_ne_nil _ _, by omega, hinv.compatible, ?_, ?_, hinv.merges, ?_, hlen⟩
      · intro shard hshard
        exact hinv.compatible.identity first List.mem_cons_self shard hshard
      · intro shard hshard
        exact hinv.compatible.sites first List.mem_cons_self shard hshard
      · exact hlen

theorem mergeProfileShards_ok {shards : List CkProfileShard} (hne : shards ≠ [])
    (hcount : shards.length ≤ 4096) (h : Compatible sha shards) :
    ∃ profile, mergeProfileShards sha shards = .ok profile := by
  have hmax : ckProfileMaxShards.toNat = 4096 := rfl
  cases shards with
  | nil => exact absurd rfl hne
  | cons first rest =>
      rw [← List.singleton_append] at h
      obtain ⟨middle, hstep⟩ := mergeShard_first_ok h.left
      obtain ⟨state, hrest⟩ := (mergeShard_first hstep).completes List.mem_cons_self one_ne_zero h
      unfold mergeProfileShards
      dsimp only
      rw [hmax, if_neg (by omega)]
      refine ⟨_, bind_eq_ok.mpr ⟨state, ?_, rfl⟩⟩
      exact bind_eq_ok.mpr ⟨middle, hstep, hrest⟩

/-! ## Order -/

theorem Merges.perm {shards shards' : List CkProfileShard} {counters : List CkProfileCounterRecord}
    {overflowed incomplete : Bool} (h : Merges shards counters overflowed incomplete)
    (hperm : shards.Perm shards') : Merges shards' counters overflowed incomplete where
  shape := fun shard hshard ↦ h.shape shard (hperm.mem_iff.mpr hshard)
  cell := by
    intro i j
    rw [← total_perm hperm]
    exact h.cell i j
  flag := by
    intro i hscalar
    simp only [← total_perm hperm, ← hperm.mem_iff]
    exact h.flag i hscalar
  overflow := by
    simp only [← total_perm hperm, ← hperm.mem_iff]
    exact h.overflow
  incomplete := by
    simp only [← hperm.mem_iff]
    exact h.incomplete

theorem Merged.perm {shards shards' : List CkProfileShard} {profile : CkProfile}
    (h : Merged shards profile) (hperm : shards.Perm shards') : Merged shards' profile where
  identity := fun shard hshard ↦ h.identity shard (hperm.mem_iff.mpr hshard)
  sites := fun shard hshard ↦ h.sites shard (hperm.mem_iff.mpr hshard)
  merges := h.merges.perm hperm
  completedRuns := h.completedRuns.trans hperm.length_eq
  mergedShards := h.mergedShards.trans hperm.length_eq

theorem cells_ext {a b : CkProfileCounter} (hshape : a.shape = b.shape)
    (hcell : ∀ j, a.cell j = b.cell j) : a.cells = b.cells := by
  have hlen : a.cells.length = b.cells.length := congrArg Prod.snd hshape
  apply List.ext_getElem hlen
  intro j hja hjb
  have hj := hcell j
  simp only [CkProfileCounter.cell, List.getElem?_eq_getElem hja, List.getElem?_eq_getElem hjb,
    Option.getD_some] at hj
  exact UInt64.toNat_inj.mp hj

/-- A table is determined by its shape, its cells and its flags. -/
theorem table_ext {a b : List CkProfileCounterRecord} (hshape : tableShape a = tableShape b)
    (hcell : ∀ i j, cellAt a i j = cellAt b i j)
    (hflag : ∀ i, scalarAt a i = false → flagAt a i = flagAt b i) : a = b := by
  induction a generalizing b with
  | nil => simpa [tableShape, eq_comm] using hshape
  | cons record a ih =>
      cases b with
      | nil => simp [tableShape] at hshape
      | cons record' b =>
          simp only [tableShape, List.map_cons, List.cons.injEq] at hshape
          have hcounter : record.counter.shape = record'.counter.shape :=
            congrArg Prod.snd hshape.1
          have htag : record.counter.tag = record'.counter.tag := congrArg Prod.fst hcounter
          have hflag0 : record.counter.flag = record'.counter.flag := by
            by_cases hscalar : record.counter.tag = 1
            · have hscalar' := htag ▸ hscalar
              cases hr : record.counter <;> cases hr' : record'.counter <;>
                simp_all [CkProfileCounter.flag, CkProfileCounter.tag]
            · exact hflag 0 (by simpa using hscalar)
          have hhead : record.counter = record'.counter :=
            CkProfileCounter.ext_cells hcounter (cells_ext hcounter (hcell 0)) hflag0
          have htail : a = b := ih hshape.2 (fun i ↦ hcell (i + 1)) fun i ↦ hflag (i + 1)
          obtain ⟨siteId, counter⟩ := record
          obtain ⟨siteId', counter'⟩ := record'
          obtain rfl : siteId = siteId' := congrArg Prod.fst hshape.1
          obtain rfl : counter = counter' := hhead
          rw [htail]

theorem Merged.unique {shards : List CkProfileShard} {profile profile' : CkProfile}
    (hne : shards ≠ []) (h : Merged shards profile) (h' : Merged shards profile') :
    profile = profile' := by
  obtain ⟨shard, hshard⟩ := List.exists_mem_of_ne_nil shards hne
  have hshape : tableShape profile.counters = tableShape profile'.counters :=
    (h.merges.shape shard hshard).trans (h'.merges.shape shard hshard).symm
  have hcounters : profile.counters = profile'.counters := by
    apply table_ext hshape
    · intro i j
      rw [h.merges.cell, h'.merges.cell]
    · intro i hscalar
      have hscalar' := (scalarAt_of_shape hshape i).symm.trans hscalar
      rw [Bool.eq_iff_iff, h.merges.flag i hscalar, h'.merges.flag i hscalar']
  obtain ⟨identity, sites, counters, completedRuns, mergedShards, overflowed, incomplete⟩ := profile
  obtain ⟨identity', sites', counters', completedRuns', mergedShards', overflowed',
    incomplete'⟩ := profile'
  obtain rfl : identity = identity' :=
    (h.identity shard hshard).trans (h'.identity shard hshard).symm
  obtain rfl : sites = sites' := (h.sites shard hshard).trans (h'.sites shard hshard).symm
  obtain rfl : counters = counters' := hcounters
  obtain rfl : completedRuns = completedRuns' :=
    UInt64.toNat_inj.mp (h.completedRuns.trans h'.completedRuns.symm)
  obtain rfl : mergedShards = mergedShards' :=
    UInt32.toNat_inj.mp (h.mergedShards.trans h'.mergedShards.symm)
  obtain rfl : overflowed = overflowed' := by
    rw [Bool.eq_iff_iff]
    exact h.merges.overflow.trans h'.merges.overflow.symm
  obtain rfl : incomplete = incomplete' := by
    rw [Bool.eq_iff_iff]
    exact h.merges.incomplete.trans h'.merges.incomplete.symm
  rfl

theorem mergeProfileShards_perm {shards shards' : List CkProfileShard} {profile : CkProfile}
    (h : mergeProfileShards sha shards = .ok profile) (hperm : shards.Perm shards') :
    mergeProfileShards sha shards' = .ok profile := by
  obtain ⟨hne, hcount, hcompatible, hmerged⟩ := mergeProfileShards_of_ok h
  have hne' : shards' ≠ [] := by
    rintro rfl
    exact hne hperm.eq_nil
  obtain ⟨profile', h'⟩ := mergeProfileShards_ok hne' (hperm.length_eq ▸ hcount)
    (hcompatible.perm sha hperm)
  obtain ⟨_, _, _, hmerged'⟩ := mergeProfileShards_of_ok h'
  rw [h', (hmerged.perm hperm).unique hne' hmerged']

/-! ## The merged profile is serialized -/

theorem ensureCountersCanonical_of_shape {a b : List CkProfileCounterRecord}
    (h : tableShape a = tableShape b) : ensureCountersCanonical a = ensureCountersCanonical b := by
  have hadjacent : adjacent (fun r r' : CkProfileCounterRecord ↦ siteIdLess r.siteId r'.siteId) a =
      adjacent (fun r r' : CkProfileCounterRecord ↦ siteIdLess r.siteId r'.siteId) b := by
    induction a generalizing b with
    | nil =>
        obtain rfl : b = [] := by simpa [tableShape, eq_comm] using h
        rfl
    | cons record a ih =>
        cases b with
        | nil => simp [tableShape] at h
        | cons record' b =>
            simp only [tableShape, List.map_cons, List.cons.injEq] at h
            have hid : record.siteId = record'.siteId := congrArg Prod.fst h.1
            cases a with
            | nil =>
                obtain rfl : b = [] := by simpa [eq_comm] using h.2
                rfl
            | cons next a =>
                cases b with
                | nil => simp at h
                | cons next' b =>
                    have hnext : next.siteId = next'.siteId := by
                      have := h.2
                      simp only [List.map_cons, List.cons.injEq] at this
                      exact congrArg Prod.fst this.1
                    rw [adjacent, adjacent, hid, hnext, ih h.2]
  unfold ensureCountersCanonical
  rw [hadjacent]

theorem bounded_of_shape {a b : CkProfileCounter} (h : a.shape = b.shape) (hb : b.Bounded) :
    a.Bounded := by
  cases a <;> cases b <;>
    simp_all [CkProfileCounter.shape, CkProfileCounter.tag, CkProfileCounter.cells,
      CkProfileCounter.Bounded]

theorem Merged.serializes {shards : List CkProfileShard} {profile : CkProfile} (hne : shards ≠ [])
    (hcompatible : Compatible sha shards) (h : Merged shards profile)
    (hcount : shards.length ≤ 4096) : ∃ bytes, serializeProfile sha profile = .ok bytes := by
  obtain ⟨shard, hshard⟩ := List.exists_mem_of_ne_nil shards hne
  have hlen := List.length_pos_iff.mpr hne
  have hshape := h.merges.shape shard hshard
  obtain ⟨bytes, hbytes⟩ := hcompatible.serialized shard hshard
  obtain ⟨htables, hrest⟩ := check_bind_eq_ok.mp hbytes
  obtain ⟨_, _, hrest⟩ := bind_eq_ok.mp hrest
  obtain ⟨siteBytes, hsites, hrest⟩ := bind_eq_ok.mp hrest
  obtain ⟨counterBytes, hcounters, _⟩ := bind_eq_ok.mp hrest
  obtain ⟨hcanonical, ⟨hlimit, hbounded⟩, _⟩ := encodeCounters_eq_ok.mp hcounters
  obtain ⟨hidentity, hsiteCount, hsitesCanonical, _, hmatch, hdigest⟩ :=
    (validateTables_eq_ok sha).mp htables
  rw [← h.identity shard hshard] at hidentity hdigest
  rw [← h.sites shard hshard] at hsiteCount hsitesCanonical hmatch hdigest hsites
  rw [← hshape] at hmatch
  rw [← ensureCountersCanonical_of_shape hshape] at hcanonical
  apply serializeProfile_ok sha
  · exact (validateTables_eq_ok sha).mpr
      ⟨hidentity, hsiteCount, hsitesCanonical, hcanonical, hmatch, hdigest⟩
  · exact validate_eq_ok.mp hidentity
  · exact hsites
  · exact hcanonical
  · constructor
    · have := congrArg List.length hshape
      simp only [tableShape, List.length_map] at this
      omega
    · intro record hrecord
      have hmem : record.shape ∈ tableShape shard.counters :=
        hshape ▸ List.mem_map_of_mem hrecord
      obtain ⟨record', hrecord', hsame⟩ := List.mem_map.mp hmem
      exact bounded_of_shape (congrArg Prod.snd hsame.symm) (hbounded record' hrecord')
  · intro hzero
    have := h.completedRuns
    rw [hzero, UInt64.toNat_zero] at this
    omega
  · intro hzero
    have := h.mergedShards
    rw [hzero, UInt32.toNat_zero] at this
    omega

/-! ## Saturation -/

/-- The saturation of the merged counters shows in the inputs or in a total that overflows, or no
scalar total is exactly the largest value. -/
def SaturationVisible (shards : List CkProfileShard) : Prop :=
  (∃ shard ∈ shards, shard.Saturated) ∨ (∃ i j, 2 ^ 64 - 1 < total shards i j) ∨
    ∀ i, (∃ shard ∈ shards, scalarAt shard.counters i = true) → total shards i 0 ≠ 2 ^ 64 - 1

theorem scalar_saturated {counter : CkProfileCounter} (h : counter.tag = 1) :
    counter.isSaturated = true ↔ counter.cell 0 = 2 ^ 64 - 1 := by
  cases counter with
  | scalar value =>
      have hmax : u64Max.toNat = 2 ^ 64 - 1 := rfl
      simp only [CkProfileCounter.isSaturated, CkProfileCounter.cell, CkProfileCounter.cells,
        decide_eq_true_eq, ← UInt64.toNat_inj, hmax]
      rfl
  | histogram buckets saturated => simp [CkProfileCounter.tag] at h
  | candidateConstant candidates other saturated => simp [CkProfileCounter.tag] at h

theorem flag_saturated {counter : CkProfileCounter} (h : counter.tag ≠ 1) :
    counter.isSaturated = counter.flag := by
  cases counter with
  | scalar value => exact absurd rfl h
  | histogram buckets saturated => rfl
  | candidateConstant candidates other saturated => rfl

theorem anySaturated_iff {counters : List CkProfileCounterRecord} :
    anySaturated counters = true ↔ ∃ i,
      (scalarAt counters i = true ∧ cellAt counters i 0 = 2 ^ 64 - 1) ∨
        (scalarAt counters i = false ∧ flagAt counters i = true) := by
  have hrecord : ∀ (i : Nat) (record : CkProfileCounterRecord), counters[i]? = some record →
      (record.counter.isSaturated = true ↔
        (scalarAt counters i = true ∧ cellAt counters i 0 = 2 ^ 64 - 1) ∨
          (scalarAt counters i = false ∧ flagAt counters i = true)) := by
    intro i record hi
    simp only [scalarAt, cellAt, flagAt, hi, Option.any_some, Option.elim_some,
      decide_eq_true_eq, decide_eq_false_iff_not]
    by_cases htag : record.counter.tag = 1
    · simp [htag, scalar_saturated htag]
    · simp [htag, flag_saturated htag]
  unfold anySaturated
  rw [List.any_eq_true]
  constructor
  · rintro ⟨record, hmem, hsat⟩
    obtain ⟨i, hi⟩ := List.mem_iff_getElem?.mp hmem
    exact ⟨i, (hrecord i record hi).mp hsat⟩
  · rintro ⟨i, hi⟩
    cases hat : counters[i]? with
    | none => simp [scalarAt, flagAt, hat] at hi
    | some record =>
        exact ⟨record, List.mem_of_getElem? hat, (hrecord i record hat).mpr hi⟩

/-- A saturated counter or an overflowed input sets the flag of the profile, exactly when the
saturation is visible. -/
theorem Merged.overflow_iff {shards : List CkProfileShard} {profile : CkProfile}
    (hne : shards ≠ []) (h : Merged shards profile) :
    ((anySaturated profile.counters = true ∨ ∃ shard ∈ shards, shard.overflowed = true) →
      profile.overflowed = true) ↔ SaturationVisible shards := by
  obtain ⟨shard, hshard⟩ := List.exists_mem_of_ne_nil shards hne
  rw [h.merges.overflow, anySaturated_iff]
  constructor
  · intro hreport
    by_contra hhidden
    obtain ⟨hinputs, hrest⟩ := not_or.mp hhidden
    obtain ⟨htotals, hexact⟩ := not_or.mp hrest
    push Not at hexact
    obtain ⟨i, ⟨s, hs, hscalar⟩, htotal⟩ := hexact
    have hscalar' : scalarAt profile.counters i = true := by
      rw [scalarAt_of_shape (h.merges.shape s hs) i, hscalar]
    have hcell : cellAt profile.counters i 0 = 2 ^ 64 - 1 := by
      rw [h.merges.cell, htotal]
      rfl
    rcases hreport (.inl ⟨i, .inl ⟨hscalar', hcell⟩⟩) with hsat | hover
    · exact hinputs hsat
    · exact htotals hover
  · rintro hvisible (⟨i, ⟨hscalar, hcell⟩ | ⟨hscalar, hflag⟩⟩ | ⟨s, hs, hover⟩)
    · rw [h.merges.cell] at hcell
      rcases hvisible with hinputs | htotals | hexact
      · exact .inl hinputs
      · exact .inr htotals
      · have hne' := hexact i ⟨shard, hshard, by
          rw [← scalarAt_of_shape (h.merges.shape shard hshard) i, hscalar]⟩
        exact .inr ⟨i, 0, by omega⟩
    · rcases (h.merges.flag i hscalar).mp hflag with ⟨s, hs, hflag⟩ | ⟨j, hj⟩
      · have hscalar' : scalarAt s.counters i = false := by
          rw [← scalarAt_of_shape (h.merges.shape s hs) i, hscalar]
        exact .inl ⟨s, hs, .inr (anySaturated_iff.mpr ⟨i, .inr ⟨hscalar', hflag⟩⟩)⟩
      · exact .inr ⟨i, j, hj⟩
    · exact .inl ⟨s, hs, .inl hover⟩

/-- An accepted merge does not depend on the order, its cells are the capped totals, its flags say
which of them are, it is serialized; and its overflow flag reports saturated counters exactly when
the saturation is visible. -/
theorem mergeProfileShards_totals {shards : List CkProfileShard} {profile : CkProfile}
    (h : mergeProfileShards sha shards = .ok profile) :
    (∀ shards', shards.Perm shards' → mergeProfileShards sha shards' = .ok profile) ∧
    (∀ i j, cellAt profile.counters i j = min (2 ^ 64 - 1)
      (shards.map fun shard ↦ cellAt shard.counters i j).sum) ∧
    (∀ shard ∈ shards, tableShape profile.counters = tableShape shard.counters) ∧
    (∀ i, scalarAt profile.counters i = false → (flagAt profile.counters i = true ↔
      (∃ shard ∈ shards, flagAt shard.counters i = true) ∨ ∃ j, 2 ^ 64 - 1 <
        (shards.map fun shard ↦ cellAt shard.counters i j).sum)) ∧
    (∃ bytes, serializeProfile sha profile = .ok bytes) ∧
    (((anySaturated profile.counters = true ∨ ∃ shard ∈ shards, shard.overflowed = true) →
      profile.overflowed = true) ↔ SaturationVisible shards) := by
  obtain ⟨hne, hcount, hcompatible, hmerged⟩ := mergeProfileShards_of_ok h
  refine ⟨?_, hmerged.merges.cell, hmerged.merges.shape, hmerged.merges.flag, ?_, ?_⟩
  · intro shards' hperm
    exact mergeProfileShards_perm h hperm
  · exact hmerged.serializes hne hcompatible hcount
  · exact hmerged.overflow_iff hne

end Sha

/-- A digest that tells shards with different sums of bytes apart. -/
def sumSha (bytes : List UInt8) : Digest := .replicate 32 (bytes.foldl (· + ·) 0)

/-- A run that entered the one function of a module `count` times. -/
def sampleShard (run : UInt8) (count : UInt64) : CkProfileShard where
  identity := { sampleIdentity with
    module := { sampleIdentity.module with siteTableDigest := .replicate 32 53 } }
  sites := [⟨.replicate 16 9, .replicate 32 7, 0, .functionEntry⟩]
  counters := [⟨.replicate 16 9, .scalar count⟩]
  runId := .replicate 16 run
  overflowed := false
  incompleteObservations := false

/-- The aggregate of two such runs. -/
def sampleProfile (count : UInt64) : CkProfile where
  identity := (sampleShard 0 0).identity
  sites := (sampleShard 0 0).sites
  counters := [⟨.replicate 16 9, .scalar count⟩]
  completedRuns := 2
  mergedShards := 2
  overflowed := false
  incompleteObservations := false

theorem mergeProfileShards_totals_sample :
    mergeProfileShards sumSha [sampleShard 2 4, sampleShard 1 3] = .ok (sampleProfile 7) ∧
      ∃ bytes, serializeProfile sumSha (sampleProfile 7) = .ok bytes := by
  have hmerge : mergeProfileShards sumSha [sampleShard 1 3, sampleShard 2 4] =
      .ok (sampleProfile 7) := by
    decide +kernel
  have h := mergeProfileShards_totals hmerge
  exact ⟨h.1 _ (List.Perm.swap _ _ _), h.2.2.2.2.1⟩

/-- Two counts that add up to exactly the largest value leave the overflow flag unset. -/
theorem exact_maximum_not_reported :
    ¬ ∀ sha shards profile, mergeProfileShards sha shards = .ok profile →
      (anySaturated profile.counters = true ∨ ∃ shard ∈ shards, shard.overflowed = true) →
        profile.overflowed = true := by
  intro h
  have hmerge : mergeProfileShards sumSha
      [sampleShard 1 9223372036854775808, sampleShard 2 9223372036854775807] =
      .ok (sampleProfile u64Max) := by
    decide +kernel
  have hsaturated : anySaturated (sampleProfile u64Max).counters = true := by decide
  have hreported := h _ _ _ hmerge (.inl hsaturated)
  cases hreported

end CalcKernel
