import CalcKernel.Profile.Merge

/-!
# What a merge yields

The loop over the shards accepts them exactly when their runs and digests are
distinct and they describe one build, and the merged cells are the capped totals.
Neither depends on the order of the shards.
-/

namespace CalcKernel

open Lib

/-! ## Totals -/

def total (shards : List CkProfileShard) (i j : Nat) : Nat :=
  (shards.map fun shard ↦ cellAt shard.counters i j).sum

/-- The run of a shard overflowed, or one of its counters is saturated. -/
def CkProfileShard.Saturated (shard : CkProfileShard) : Prop :=
  shard.overflowed = true ∨ anySaturated shard.counters = true

theorem total_append (shards : List CkProfileShard) (shard : CkProfileShard) (i j : Nat) :
    total (shards ++ [shard]) i j = total shards i j + cellAt shard.counters i j := by
  simp [total]

theorem total_perm {shards shards' : List CkProfileShard} (h : shards.Perm shards') (i j : Nat) :
    total shards i j = total shards' i j :=
  (h.map _).sum_nat

/-- Counters and flags are those of all the shards together. -/
structure Merges (shards : List CkProfileShard) (counters : List CkProfileCounterRecord)
    (overflowed incomplete : Bool) : Prop where
  shape : ∀ shard ∈ shards, tableShape counters = tableShape shard.counters
  cell : ∀ i j, cellAt counters i j = min (2 ^ 64 - 1) (total shards i j)
  flag : ∀ i, scalarAt counters i = false → (flagAt counters i = true ↔
    (∃ shard ∈ shards, flagAt shard.counters i = true) ∨ ∃ j, 2 ^ 64 - 1 < total shards i j)
  overflow : overflowed = true ↔
    (∃ shard ∈ shards, shard.Saturated) ∨ ∃ i j, 2 ^ 64 - 1 < total shards i j
  incomplete : incomplete = true ↔ ∃ shard ∈ shards, shard.incompleteObservations = true

theorem scalarAt_of_shape {a b : List CkProfileCounterRecord} (h : tableShape a = tableShape b)
    (i : Nat) : scalarAt a i = scalarAt b i := by
  have hi := congrArg (fun l ↦ l[i]?) h
  simp only [tableShape, List.getElem?_map] at hi
  unfold scalarAt
  cases ha : a[i]? with
  | none =>
      rw [ha] at hi
      cases hb : b[i]? with
      | none => rfl
      | some record' => simp [hb] at hi
  | some record =>
      rw [ha] at hi
      cases hb : b[i]? with
      | none => simp [hb] at hi
      | some record' =>
          rw [hb] at hi
          have htag : record.counter.tag = record'.counter.tag :=
            congrArg (fun s : CkProfileSiteId × UInt8 × Nat ↦ s.2.1) (Option.some.inj hi)
          simp [htag]

theorem total_singleton (shard : CkProfileShard) (i j : Nat) :
    total [shard] i j = cellAt shard.counters i j := by
  simp [total]

/-- The first shard alone. -/
theorem merges_first (first : CkProfileShard) :
    Merges [first] first.counters (first.overflowed || anySaturated first.counters)
      first.incompleteObservations where
  shape := by simp
  cell := by
    intro i j
    have := cellAt_le first.counters i j
    rw [total_singleton]
    omega
  flag := by
    intro i _
    have hno : ¬ ∃ j, 2 ^ 64 - 1 < total [first] i j := by
      rintro ⟨j, hj⟩
      rw [total_singleton] at hj
      exact absurd hj (not_lt.mpr (cellAt_le first.counters i j))
    rw [or_iff_left hno]
    simp
  overflow := by
    have hno : ¬ ∃ i j, 2 ^ 64 - 1 < total [first] i j := by
      rintro ⟨i, j, hj⟩
      rw [total_singleton] at hj
      exact absurd hj (not_lt.mpr (cellAt_le first.counters i j))
    rw [or_iff_left hno]
    simp [CkProfileShard.Saturated]
  incomplete := by simp

/-- One more shard. -/
theorem Merges.add {shards : List CkProfileShard} {counters c : List CkProfileCounterRecord}
    {overflowed overflowed' incomplete : Bool} {shard : CkProfileShard}
    (h : Merges shards counters overflowed incomplete) (hadds : AddsTo counters shard.counters c overflowed')
    (hshape : tableShape counters = tableShape shard.counters) :
    Merges (shards ++ [shard]) c
      (overflowed || overflowed' || (shard.overflowed || anySaturated shard.counters))
      (incomplete || shard.incompleteObservations) where
  shape := by
    intro s hs
    rw [hadds.shape]
    rcases List.mem_append.mp hs with hs | hs
    · exact h.shape s hs
    · obtain rfl := List.mem_singleton.mp hs
      exact hshape
  cell := by
    intro i j
    rw [hadds.cell, h.cell, total_append]
    omega
  flag := by
    intro i hscalar
    have hscalar' : scalarAt counters i = false := by
      rw [← hscalar]
      exact (scalarAt_of_shape hadds.shape i).symm
    rw [hadds.flag i hscalar', h.flag i hscalar']
    constructor
    · rintro ((⟨s, hs, hflag⟩ | ⟨j, hj⟩) | hflag | ⟨j, hj⟩)
      · exact .inl ⟨s, List.mem_append_left _ hs, hflag⟩
      · refine .inr ⟨j, ?_⟩
        rw [total_append]
        omega
      · exact .inl ⟨shard, by simp, hflag⟩
      · refine .inr ⟨j, ?_⟩
        rw [h.cell] at hj
        rw [total_append]
        omega
    · rintro (⟨s, hs, hflag⟩ | ⟨j, hj⟩)
      · rcases List.mem_append.mp hs with hs | hs
        · exact .inl (.inl ⟨s, hs, hflag⟩)
        · obtain rfl := List.mem_singleton.mp hs
          exact .inr (.inl hflag)
      · rw [total_append] at hj
        by_cases hbefore : 2 ^ 64 - 1 < total shards i j
        · exact .inl (.inr ⟨j, hbefore⟩)
        · refine .inr (.inr ⟨j, ?_⟩)
          rw [h.cell]
          omega
  overflow := by
    rw [Bool.or_eq_true, Bool.or_eq_true, h.overflow, hadds.overflow, Bool.or_eq_true]
    constructor
    · rintro (((⟨s, hs, hsat⟩ | ⟨i, j, hj⟩) | ⟨i, j, hj⟩) | hsat)
      · exact .inl ⟨s, List.mem_append_left _ hs, hsat⟩
      · refine .inr ⟨i, j, ?_⟩
        rw [total_append]
        omega
      · refine .inr ⟨i, j, ?_⟩
        rw [h.cell] at hj
        rw [total_append]
        omega
      · exact .inl ⟨shard, by simp, hsat⟩
    · rintro (⟨s, hs, hsat⟩ | ⟨i, j, hj⟩)
      · rcases List.mem_append.mp hs with hs | hs
        · exact .inl (.inl (.inl ⟨s, hs, hsat⟩))
        · obtain rfl := List.mem_singleton.mp hs
          exact .inr hsat
      · rw [total_append] at hj
        by_cases hbefore : 2 ^ 64 - 1 < total shards i j
        · exact .inl (.inl (.inr ⟨i, j, hbefore⟩))
        · refine .inl (.inr ⟨i, j, ?_⟩)
          rw [h.cell]
          omega
  incomplete := by
    rw [Bool.or_eq_true, h.incomplete]
    simp [or_and_right, exists_or]

/-! ## What validation says about the tables -/

theorem zip_shapes {sites : List CkProfileSiteDescriptor} {counters : List CkProfileCounterRecord} :
    (sites.length = counters.length ∧ ((sites.zip counters).any fun p ↦
      p.1.id ≠ p.2.siteId || !counterMatchesSite p.2.counter p.1.kind) = false) ↔
      tableShape counters = sites.map (·.shape) := by
  induction sites generalizing counters with
  | nil => cases counters <;> simp [tableShape]
  | cons site sites ih =>
      cases counters with
      | nil => simp [tableShape]
      | cons record counters =>
          have hhead : (site.id = record.siteId ∧ counterMatchesSite record.counter site.kind) ↔
              record.shape = site.shape := counterMatchesSite_iff
          have htail := @ih counters
          simp only [tableShape] at htail
          simp only [tableShape, List.map_cons, List.cons.injEq, ← hhead, ← htail,
            List.zip_cons_cons, List.any_cons, List.length_cons, Nat.add_right_cancel_iff,
            Bool.or_eq_false_iff, decide_eq_false_iff_not, not_not, Bool.not_eq_false']
          tauto

section Sha

variable (sha : List UInt8 → Digest)

theorem validateTables_eq_ok {identity : CkProfileIdentity} {sites : List CkProfileSiteDescriptor}
    {counters : List CkProfileCounterRecord} :
    validateTables sha identity sites counters = .ok () ↔
      identity.validate = .ok () ∧ sites.length ≤ 1048576 ∧ ensureSitesCanonical sites = .ok () ∧
        ensureCountersCanonical counters = .ok () ∧
        tableShape counters = sites.map (·.shape) ∧
        profileSiteTableDigest sha sites = .ok identity.module.siteTableDigest := by
  have hmax : ckProfileMaxSites.toNat = 1048576 := rfl
  rw [← zip_shapes]
  unfold validateTables
  rw [check_bind_eq_ok, hmax]
  constructor
  · rintro ⟨hidentity, h⟩
    by_cases hlimit : 1048576 < sites.length
    · rw [if_pos hlimit] at h
      cases h
    by_cases hlen : sites.length ≠ counters.length
    · rw [if_neg hlimit, if_pos hlen] at h
      cases h
    rw [if_neg hlimit, if_neg hlen] at h
    obtain ⟨hsites, h⟩ := check_bind_eq_ok.mp h
    obtain ⟨hcounters, h⟩ := check_bind_eq_ok.mp h
    split at h
    · cases h
    · rename_i hmatch
      obtain ⟨digest, hdigest, h⟩ := bind_eq_ok.mp h
      split at h
      · cases h
      · rename_i hsame
        rw [not_not] at hsame
        refine ⟨hidentity, by omega, hsites, hcounters, ⟨not_not.mp hlen, ?_⟩, hsame ▸ hdigest⟩
        simpa using hmatch
  · rintro ⟨hidentity, hlimit, hsites, hcounters, ⟨hlen, hmatch⟩, hdigest⟩
    refine ⟨hidentity, ?_⟩
    rw [if_neg (by omega), if_neg (not_not.mpr hlen)]
    apply check_bind_eq_ok.mpr
    refine ⟨hsites, check_bind_eq_ok.mpr ⟨hcounters, ?_⟩⟩
    rw [if_neg (by simpa using hmatch)]
    refine bind_eq_ok.mpr ⟨_, hdigest, ?_⟩
    exact if_neg (not_not.mpr rfl)

/-! ## Acceptance -/

def shardDigest (shard : CkProfileShard) : Except CkProfileError Digest :=
  (serializeProfileShard sha shard).map sha

/-- Distinct runs of one build. -/
structure Compatible (shards : List CkProfileShard) : Prop where
  runs : (shards.map (·.runId)).Nodup
  digests : (shards.map (shardDigest sha)).Nodup
  serialized : ∀ shard ∈ shards, ∃ bytes, serializeProfileShard sha shard = .ok bytes
  identity : ∀ shard ∈ shards, ∀ shard' ∈ shards, shard.identity = shard'.identity
  sites : ∀ shard ∈ shards, ∀ shard' ∈ shards, shard.sites = shard'.sites

theorem Compatible.perm {shards shards' : List CkProfileShard} (h : Compatible sha shards)
    (hperm : shards.Perm shards') : Compatible sha shards' where
  runs := (hperm.map _).nodup_iff.mp h.runs
  digests := (hperm.map _).nodup_iff.mp h.digests
  serialized := fun shard hshard ↦ h.serialized shard (hperm.mem_iff.mpr hshard)
  identity := fun shard hshard shard' hshard' ↦
    h.identity shard (hperm.mem_iff.mpr hshard) shard' (hperm.mem_iff.mpr hshard')
  sites := fun shard hshard shard' hshard' ↦
    h.sites shard (hperm.mem_iff.mpr hshard) shard' (hperm.mem_iff.mpr hshard')

/-- Shards of one build have counters of one shape. -/
theorem Compatible.shape {shards : List CkProfileShard} (h : Compatible sha shards)
    {shard shard' : CkProfileShard} (hshard : shard ∈ shards) (hshard' : shard' ∈ shards) :
    tableShape shard.counters = tableShape shard'.counters := by
  have htables : ∀ s ∈ shards, tableShape s.counters = s.sites.map (·.shape) := by
    intro s hs
    obtain ⟨bytes, hbytes⟩ := h.serialized s hs
    unfold serializeProfileShard at hbytes
    exact ((validateTables_eq_ok sha).mp (check_bind_eq_ok.mp hbytes).1).2.2.2.2.1
  rw [htables shard hshard, htables shard' hshard', h.sites shard hshard shard' hshard']

theorem compatible_append {done : List CkProfileShard} {shard first : CkProfileShard}
    (hdone : Compatible sha done) (hfirst : first ∈ done) :
    Compatible sha (done ++ [shard]) ↔
      shard.runId ∉ done.map (·.runId) ∧ shardDigest sha shard ∉ done.map (shardDigest sha) ∧
        (∃ bytes, serializeProfileShard sha shard = .ok bytes) ∧
        first.identity = shard.identity ∧ first.sites = shard.sites := by
  constructor
  · intro h
    have hruns := h.runs
    have hdigests := h.digests
    rw [List.map_append, List.map_singleton, List.nodup_append] at hruns hdigests
    refine ⟨?_, ?_, h.serialized shard (by simp), ?_, ?_⟩
    · intro hmem
      exact hruns.2.2 _ hmem _ (List.mem_singleton_self _) rfl
    · intro hmem
      exact hdigests.2.2 _ hmem _ (List.mem_singleton_self _) rfl
    · exact h.identity first (List.mem_append_left _ hfirst) shard (by simp)
    · exact h.sites first (List.mem_append_left _ hfirst) shard (by simp)
  · rintro ⟨hrun, hdigest, hserialized, hidentity, hsites⟩
    have hall : ∀ s ∈ done ++ [shard], s.identity = first.identity ∧ s.sites = first.sites := by
      intro s hs
      rcases List.mem_append.mp hs with hs | hs
      · exact ⟨hdone.identity s hs first hfirst, hdone.sites s hs first hfirst⟩
      · obtain rfl := List.mem_singleton.mp hs
        exact ⟨hidentity.symm, hsites.symm⟩
    refine ⟨?_, ?_, ?_, ?_, ?_⟩
    · rw [List.map_append, List.map_singleton]
      exact List.nodup_append.mpr ⟨hdone.runs, List.nodup_singleton _, by grind⟩
    · rw [List.map_append, List.map_singleton]
      exact List.nodup_append.mpr ⟨hdone.digests, List.nodup_singleton _, by grind⟩
    · intro s hs
      rcases List.mem_append.mp hs with hs | hs
      · exact hdone.serialized s hs
      · obtain rfl := List.mem_singleton.mp hs
        exact hserialized
    · intro s hs s' hs'
      rw [(hall s hs).1, (hall s' hs').1]
    · intro s hs s' hs'
      rw [(hall s hs).2, (hall s' hs').2]

/-! ## The loop -/

/-- What one round checks and does. -/
theorem mergeShard_eq_ok {first shard : CkProfileShard} {state state' : MergeState} {index : Nat} :
    mergeShard sha first state shard index = .ok state' ↔
      shard.runId ∉ state.runIds ∧ ∃ bytes, serializeProfileShard sha shard = .ok bytes ∧
        sha bytes ∉ state.shardDigests ∧ first.identity = shard.identity ∧
        first.sites = shard.sites ∧ ∃ counters overflowed,
          state.addShard shard index = .ok (counters, overflowed) ∧
          state' = { runIds := shard.runId :: state.runIds
                     shardDigests := sha bytes :: state.shardDigests
                     counters
                     overflowed := overflowed || (shard.overflowed || anySaturated shard.counters)
                     incomplete := state.incomplete || shard.incompleteObservations } := by
  unfold mergeShard
  constructor
  · intro h
    split at h
    · cases h
    rename_i hrun
    obtain ⟨bytes, hbytes, h⟩ := bind_eq_ok.mp h
    split at h
    · cases h
    rename_i hdigest
    split at h
    · cases h
    rename_i hmismatch
    split at h
    · cases h
    rename_i hsites
    obtain ⟨⟨counters, overflowed⟩, hadd, h⟩ := bind_eq_ok.mp h
    cases pure_eq_ok.mp h
    exact ⟨hrun, bytes, hbytes, hdigest, CkProfileIdentity.firstMismatch_eq_none.mp hmismatch,
      not_not.mp hsites, counters, overflowed, hadd, rfl⟩
  · rintro ⟨hrun, bytes, hbytes, hdigest, hidentity, hsites, counters, overflowed, hadd, rfl⟩
    rw [if_neg hrun, hbytes]
    have hmismatch := CkProfileIdentity.firstMismatch_eq_none.mpr hidentity
    change (if sha bytes ∈ state.shardDigests then _ else _) = _
    rw [if_neg hdigest]
    simp only [hmismatch]
    rw [if_neg (not_not.mpr hsites)]
    exact bind_eq_ok.mpr ⟨_, hadd, rfl⟩

end Sha

end CalcKernel
