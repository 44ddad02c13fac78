import CalcKernel.Profile.MergeOrder
import CalcKernel.Profile.Transfer

/-!
# What a transfer yields

An accepted record partitions the sources over the targets, and the counters are the capped
sums.  Whether they fit the sites and are independent of the order is a condition on the
entries, one by one.
-/

namespace CalcKernel

open Lib

/-! ## Runs over the entries -/

/-- The counters of an entry's sources, and their sum. -/
def EntrySum (source : CkProfileSiteId → Option CkProfileCounter) (entry : CkProfileTransferEntry)
    (sum : CkProfileCounter) : Prop :=
  ∃ counters, List.Forall₂ (fun id c ↦ source id = some c) entry.sources counters ∧
    Combines counters sum

variable {source : CkProfileSiteId → Option CkProfileCounter} {targets : List CkProfileSiteId}

theorem addSources_eq_ok {ids seen seen' : List CkProfileSiteId}
    {aggregate aggregate' : Option CkProfileCounter} :
    ids.foldlM (addSource source) (seen, aggregate) = .ok (seen', aggregate') ↔
      ids.Nodup ∧ (∀ id ∈ ids, id ∉ seen) ∧ seen' = ids.reverse ++ seen ∧
        ∃ counters, List.Forall₂ (fun id c ↦ source id = some c) ids counters ∧
          counters.foldlM addAggregate aggregate = .ok aggregate' := by
  induction ids generalizing seen aggregate with
  | nil =>
      constructor
      · intro h
        cases h
        exact ⟨.nil, by simp, rfl, [], .nil, rfl⟩
      · rintro ⟨-, -, rfl, counters, hcounters, h⟩
        cases hcounters
        cases h
        rfl
  | cons id ids ih =>
      rw [List.foldlM_cons, bind_eq_ok]
      constructor
      · rintro ⟨⟨seen₁, aggregate₁⟩, hadd, h⟩
        obtain ⟨hnodup, hfresh, rfl, counters, hcounters, hsum⟩ := ih.mp h
        unfold addSource at hadd
        split at hadd
        · cases hadd
        rename_i hid
        split at hadd
        · cases hadd
        rename_i counter hcounter
        obtain ⟨a, ha, hadd⟩ := bind_eq_ok.mp hadd
        cases hadd
        refine ⟨List.nodup_cons.mpr ⟨fun hmem ↦ hfresh id hmem List.mem_cons_self, hnodup⟩, ?_, ?_,
          counter :: counters, .cons hcounter hcounters, ?_⟩
        · intro id' hid'
          rcases List.mem_cons.mp hid' with rfl | hid'
          · exact hid
          · exact fun hmem ↦ hfresh id' hid' (List.mem_cons_of_mem _ hmem)
        · simp
        · rw [List.foldlM_cons, bind_eq_ok]
          exact ⟨_, ha, hsum⟩
      · rintro ⟨hnodup, hfresh, rfl, counters, hcounters, hsum⟩
        cases hcounters with
        | cons hcounter hcounters =>
            rw [List.foldlM_cons, bind_eq_ok] at hsum
            obtain ⟨a, ha, hsum⟩ := hsum
            obtain ⟨hid, hnodup⟩ := List.nodup_cons.mp hnodup
            refine ⟨(id :: seen, a), ?_, ih.mpr ⟨hnodup, ?_, by simp, _, hcounters, hsum⟩⟩
            · rw [addSource, if_neg (hfresh id List.mem_cons_self), hcounter]
              simp only [ha]
              rfl
            · intro id' hid' hmem
              rcases List.mem_cons.mp hmem with rfl | hmem
              · exact hid hid'
              · exact hfresh id' (List.mem_cons_of_mem _ hid') hmem

theorem addEntry_eq_ok {state state' : TransferState} {entry : CkProfileTransferEntry} :
    state.addEntry source targets entry = .ok state' ↔
      (entry.sources ≠ [] ∧ entry.target ∈ targets ∧ entry.target ∉ state.seenTargets) ∧
        entry.sources.Nodup ∧ (∀ id ∈ entry.sources, id ∉ state.seenSources) ∧
        ∃ sum, EntrySum source entry sum ∧ state' = {
          seenSources := entry.sources.reverse ++ state.seenSources
          seenTargets := entry.target :: state.seenTargets
          output := state.output ++ [⟨entry.target, some sum⟩] } := by
  unfold TransferState.addEntry
  constructor
  · intro h
    split at h
    · cases h
    rename_i hclosed
    push Not at hclosed
    obtain ⟨⟨seen', aggregate⟩, hsources, h⟩ := bind_eq_ok.mp h
    cases h
    obtain ⟨hnodup, hfresh, rfl, counters, hcounters, hsum⟩ := addSources_eq_ok.mp hsources
    have hne : counters ≠ [] := by
      rintro rfl
      cases hlist : entry.sources with
      | nil => exact hclosed.1 hlist
      | cons id ids =>
          rw [hlist] at hcounters
          cases hcounters
    obtain ⟨sum, rfl, hcombines⟩ := (addAggregates_eq_ok hne).mp hsum
    exact ⟨hclosed, hnodup, hfresh, sum, ⟨counters, hcounters, hcombines⟩, rfl⟩
  · rintro ⟨hclosed, hnodup, hfresh, sum, ⟨counters, hcounters, hcombines⟩, rfl⟩
    have hne : counters ≠ [] := by
      rintro rfl
      cases hlist : entry.sources with
      | nil => exact hclosed.1 hlist
      | cons id ids =>
          rw [hlist] at hcounters
          cases hcounters
    rw [if_neg (by tauto), bind_eq_ok]
    refine ⟨(entry.sources.reverse ++ state.seenSources, some sum), ?_, rfl⟩
    exact addSources_eq_ok.mpr ⟨hnodup, hfresh, rfl, counters, hcounters,
      (addAggregates_eq_ok hne).mpr ⟨sum, rfl, hcombines⟩⟩

/-- The entries partition their sources and name different targets. -/
structure ClosedEntries (targets seenTargets seenSources : List CkProfileSiteId)
    (entries : List CkProfileTransferEntry) : Prop where
  nonempty : ∀ entry ∈ entries, entry.sources ≠ []
  known : ∀ entry ∈ entries, entry.target ∈ targets
  targets : (entries.map (·.target)).Nodup
  freshTargets : ∀ entry ∈ entries, entry.target ∉ seenTargets
  sources : (entries.flatMap (·.sources)).Nodup
  freshSources : ∀ id ∈ entries.flatMap (·.sources), id ∉ seenSources

/-- What an entry adds to the output. -/
def EntryOutput (source : CkProfileSiteId → Option CkProfileCounter)
    (entry : CkProfileTransferEntry) (output : CkTransferredProfileCounter) : Prop :=
  ∃ sum, EntrySum source entry sum ∧ output = ⟨entry.target, some sum⟩

theorem addEntries_eq_ok {entries : List CkProfileTransferEntry} {state state' : TransferState} :
    entries.foldlM (TransferState.addEntry source targets) state = .ok state' ↔
      ClosedEntries targets state.seenTargets state.seenSources entries ∧
        ∃ outputs, List.Forall₂ (EntryOutput source) entries outputs ∧ state' = {
          seenSources := (entries.flatMap (·.sources)).reverse ++ state.seenSources
          seenTargets := (entries.map (·.target)).reverse ++ state.seenTargets
          output := state.output ++ outputs } := by
  induction entries generalizing state with
  | nil =>
      constructor
      · intro h
        cases h
        exact ⟨⟨by simp, by simp, .nil, by simp, .nil, by simp⟩, [], .nil, by simp⟩
      · rintro ⟨-, outputs, houtputs, rfl⟩
        cases houtputs
        simp [pure, Except.pure]
  | cons entry entries ih =>
      rw [List.foldlM_cons, bind_eq_ok]
      constructor
      · rintro ⟨next, hentry, h⟩
        obtain ⟨⟨hne, hknown, hfresh⟩, hnodup, hsources, sum, hsum, rfl⟩ := addEntry_eq_ok.mp hentry
        obtain ⟨hclosed, outputs, houtputs, rfl⟩ := ih.mp h
        refine ⟨⟨?_, ?_, ?_, ?_, ?_, ?_⟩, _ :: outputs, .cons ⟨sum, hsum, rfl⟩ houtputs, by simp⟩
        · exact List.forall_mem_cons.mpr ⟨hne, hclosed.nonempty⟩
        · exact List.forall_mem_cons.mpr ⟨hknown, hclosed.known⟩
        · refine List.nodup_cons.mpr ⟨fun hmem ↦ ?_, hclosed.targets⟩
          obtain ⟨other, hother, heq⟩ := List.mem_map.mp hmem
          exact hclosed.freshTargets other hother (heq ▸ List.mem_cons_self)
        · refine List.forall_mem_cons.mpr ⟨hfresh, fun other hother hmem ↦ ?_⟩
          exact hclosed.freshTargets other hother (List.mem_cons_of_mem _ hmem)
        · rw [List.flatMap_cons]
          refine List.nodup_append.mpr ⟨hnodup, hclosed.sources, ?_⟩
          rintro id hid _ hother rfl
          exact hclosed.freshSources id hother (by simp [hid])
        · intro id hid hmem
          rw [List.flatMap_cons] at hid
          rcases List.mem_append.mp hid with hid | hid
          · exact hsources id hid hmem
          · exact hclosed.freshSources id hid (List.mem_append_right _ hmem)
      · rintro ⟨hclosed, outputs, houtputs, rfl⟩
        cases houtputs with
        | cons hentry houtputs =>
            obtain ⟨sum, hsum, rfl⟩ := hentry
            have hlist := hclosed.sources
            rw [List.flatMap_cons, List.nodup_append] at hlist
            have htargets := List.nodup_cons.mp hclosed.targets
            refine ⟨_, addEntry_eq_ok.mpr ⟨⟨hclosed.nonempty entry List.mem_cons_self,
              hclosed.known entry List.mem_cons_self,
              hclosed.freshTargets entry List.mem_cons_self⟩, hlist.1, ?_, sum, hsum, rfl⟩,
              ih.mpr ⟨⟨?_, ?_, htargets.2, ?_, hlist.2.1, ?_⟩, _, houtputs, ?_⟩⟩
            · intro id hid
              exact hclosed.freshSources id (by simp [hid])
            · exact fun e he ↦ hclosed.nonempty e (List.mem_cons_of_mem _ he)
            · exact fun e he ↦ hclosed.known e (List.mem_cons_of_mem _ he)
            · intro e he hmem
              rcases List.mem_cons.mp hmem with heq | hmem
              · exact htargets.1 (List.mem_map.mpr ⟨e, he, heq⟩)
              · exact hclosed.freshTargets e (List.mem_cons_of_mem _ he) hmem
            · intro id hid hmem
              rcases List.mem_append.mp hmem with hmem | hmem
              · exact hlist.2.2 id (List.mem_reverse.mp hmem) id hid rfl
              · apply hclosed.freshSources id _ hmem
                rw [List.flatMap_cons]
                exact List.mem_append_right _ hid
            · simp

/-! ## Tables in order -/

theorem siteIdLess_irrefl (a : CkProfileSiteId) : siteIdLess a a = false := by
  simp [siteIdLess, List.lt_irrefl]

theorem siteIdLess_trans {a b c : CkProfileSiteId} (h : siteIdLess a b = true)
    (h' : siteIdLess b c = true) : siteIdLess a c = true := by
  simp only [siteIdLess, decide_eq_true_eq] at *
  exact List.lt_trans h h'

theorem siteId_eq {a b : CkProfileSiteId} (h : ¬ siteIdLess a b = true)
    (h' : ¬ siteIdLess b a = true) : a = b := by
  simp only [siteIdLess, decide_eq_true_eq] at *
  exact Vector.toList_inj.mp (List.le_antisymm h' h)

theorem siteIdLess_asymm {a b : CkProfileSiteId} (h : siteIdLess a b = true) :
    ¬ siteIdLess b a = true := by
  intro h'
  have hself := siteIdLess_trans h h'
  rw [siteIdLess_irrefl] at hself
  cases hself

/-- A canonical table is strictly ascending. -/
theorem ensureSitesCanonical_ordered {sites : List CkProfileSiteDescriptor}
    (h : ensureSitesCanonical sites = .ok ()) :
    (sites.map (·.id)).Pairwise (siteIdLess · · = true) := by
  have htrans : IsTrans CkProfileSiteId (siteIdLess · · = true) :=
    ⟨fun _ _ _ ↦ siteIdLess_trans⟩
  apply List.isChain_iff_pairwise.mp
  induction sites with
  | nil => exact .nil
  | cons a sites ih =>
      cases sites with
      | nil => exact .singleton _
      | cons b rest =>
          rw [ensureSitesCanonical] at h
          split at h
          · rename_i hless
            exact .cons_cons hless (ih h)
          · split at h <;> cases h

theorem nodup_of_ordered {ids : List CkProfileSiteId}
    (h : ids.Pairwise (siteIdLess · · = true)) : ids.Nodup := by
  apply h.imp
  rintro a b hless rfl
  rw [siteIdLess_irrefl] at hless
  cases hless

/-- The order in which the output is sorted. -/
abbrev SiteOrder (a b : CkTransferredProfileCounter) : Prop := ¬ siteIdLess b.siteId a.siteId = true

theorem pairwise_siteOrder (output : List CkTransferredProfileCounter) :
    (output.insertionSort SiteOrder).Pairwise SiteOrder := by
  have htotal : Std.Total SiteOrder := by
    refine ⟨fun a b ↦ ?_⟩
    by_cases h : siteIdLess b.siteId a.siteId = true
    · exact .inr (siteIdLess_asymm h)
    · exact .inl h
  have htrans : IsTrans CkTransferredProfileCounter SiteOrder := by
    refine ⟨fun a b c hab hbc ↦ ?_⟩
    simp only [SiteOrder, siteIdLess, decide_eq_true_eq] at *
    exact List.le_trans hab hbc
  exact List.pairwise_insertionSort SiteOrder output

/-- Sorting counters that belong to the sites of a table gives the order of the table. -/
theorem map_insertionSort_siteId {output : List CkTransferredProfileCounter}
    {ids : List CkProfileSiteId} (hperm : (output.map (·.siteId)).Perm ids)
    (hordered : ids.Pairwise (siteIdLess · · = true)) :
    (output.insertionSort SiteOrder).map (·.siteId) = ids := by
  have hsame := ((List.perm_insertionSort SiteOrder output).map (·.siteId)).trans hperm
  have hsorted : ((output.insertionSort SiteOrder).map (·.siteId)).Pairwise
      (fun a b ↦ ¬ siteIdLess b a = true) :=
    List.pairwise_map.mpr (pairwise_siteOrder output)
  apply hsame.eq_of_pairwise _ hsorted (hordered.imp siteIdLess_asymm)
  intro a b _ _ hab hba
  exact siteId_eq hba hab

/-- With distinct sites the order before sorting does not matter. -/
theorem insertionSort_siteOrder_perm {output output' : List CkTransferredProfileCounter}
    (hperm : output.Perm output') (hnodup : (output.map (·.siteId)).Nodup) :
    output.insertionSort SiteOrder = output'.insertionSort SiteOrder := by
  have hleft := List.perm_insertionSort SiteOrder output
  have hright := (List.perm_insertionSort SiteOrder output').trans hperm.symm
  apply (hleft.trans hright.symm).eq_of_pairwise _ (pairwise_siteOrder _) (pairwise_siteOrder _)
  intro a b ha hb hab hba
  exact List.inj_on_of_nodup_map hnodup (hleft.mem_iff.mp ha) (hright.mem_iff.mp hb)
    (siteId_eq hba hab)

/-! ## Acceptance -/

section Sha

variable (sha : List UInt8 → Digest)

/-- What is checked of the tables and of the record as a whole. -/
structure TransferAccepted (sourceSites : List CkProfileSiteDescriptor)
    (sourceCounters : List CkProfileCounterRecord) (targetSites : List CkProfileSiteDescriptor)
    (transfer : CkProfileMappingTransfer) : Prop where
  ids : sourceSites.map (·.id) = sourceCounters.map (·.siteId)
  sourceDigest : profileSiteTableDigest sha sourceSites = .ok transfer.sourceSiteTableDigest
  targetDigest : profileSiteTableDigest sha targetSites = .ok transfer.targetSiteTableDigest
  closed : ClosedEntries (targetSites.map (·.id)) [] [] transfer.entries
  allSources : (transfer.entries.flatMap (·.sources)).length =
    (sourceCounters.map (·.siteId)).dedup.length
  allTargets : targetSites.map (·.id) ⊆ transfer.entries.map (·.target)

theorem zip_ids {sites : List CkProfileSiteDescriptor} {counters : List CkProfileCounterRecord} :
    ¬ (sites.length ≠ counters.length ∨
      ((sites.zip counters).any fun p ↦ p.1.id ≠ p.2.siteId) = true) ↔
        sites.map (·.id) = counters.map (·.siteId) := by
  induction sites generalizing counters with
  | nil => cases counters <;> simp
  | cons site sites ih =>
      cases counters with
      | nil => simp
      | cons record counters =>
          rw [List.map_cons, List.map_cons, List.cons.injEq, ← ih]
          simp only [List.length_cons, List.zip_cons_cons, List.any_cons, Bool.or_eq_true,
            decide_eq_true_eq, ne_eq, Nat.add_right_cancel_iff]
          tauto

variable {sha} {sourceSites : List CkProfileSiteDescriptor}
  {sourceCounters : List CkProfileCounterRecord} {targetSites : List CkProfileSiteDescriptor}
  {transfer : CkProfileMappingTransfer}
  {output : List CkTransferredProfileCounter}

theorem transferProfileCounts_eq_ok :
    transferProfileCounts sha sourceSites sourceCounters targetSites (some transfer) = .ok output ↔
      TransferAccepted sha sourceSites sourceCounters targetSites transfer ∧
        ∃ outputs, List.Forall₂ (EntryOutput (sourceCounter sourceCounters)) transfer.entries
          outputs ∧ output = outputs.insertionSort SiteOrder := by
  unfold transferProfileCounts
  constructor
  · intro h
    split at h
    · cases h
    rename_i hids
    obtain ⟨sourceDigest, hsource, h⟩ := bind_eq_ok.mp h
    obtain ⟨targetDigest, htarget, h⟩ := bind_eq_ok.mp h
    dsimp only at h
    split at h
    · cases h
    rename_i hdigests
    push Not at hdigests
    obtain ⟨state, hentries, h⟩ := bind_eq_ok.mp h
    obtain ⟨hclosed, outputs, houtputs, rfl⟩ := addEntries_eq_ok.mp hentries
    split at h
    · cases h
    rename_i hcomplete
    push Not at hcomplete
    cases h
    simp only [List.append_nil, List.length_reverse] at hcomplete
    refine ⟨⟨zip_ids.mp hids, hdigests.1 ▸ hsource, hdigests.2 ▸ htarget, hclosed, hcomplete.1, ?_⟩,
      outputs, houtputs, rfl⟩
    intro id hid
    exact List.mem_reverse.mp (hcomplete.2.1 hid)
  · rintro ⟨h, outputs, houtputs, rfl⟩
    have hentries : transfer.entries.foldlM (TransferState.addEntry (sourceCounter sourceCounters)
        (targetSites.map (·.id))) ⟨[], [], []⟩ = _ :=
      addEntries_eq_ok.mpr ⟨h.closed, outputs, houtputs, rfl⟩
    rw [if_neg (zip_ids.mpr h.ids), h.sourceDigest, h.targetDigest]
    change (if _ then _ else _) = _
    rw [if_neg (by simp)]
    rw [hentries]
    change (if _ then _ else _) = _
    rw [if_neg]
    · rfl
    · simp only [List.append_nil, List.length_reverse, ne_eq, h.allSources, not_true_eq_false,
        false_or, not_not]
      refine ⟨fun id hid ↦ List.mem_reverse.mpr (h.allTargets hid), fun id hid ↦ ?_⟩
      obtain ⟨entry, hentry, rfl⟩ := List.mem_map.mp (List.mem_reverse.mp hid)
      exact h.closed.known entry hentry

/-! ## What a transfer promises -/

/-- The counters summed into an entry's target. -/
def entryCounters (sourceCounters : List CkProfileCounterRecord) (entry : CkProfileTransferEntry) :
    List CkProfileCounter :=
  entry.sources.filterMap (sourceCounter sourceCounters)

/-- One entry with its sources in another order. -/
def SameEntry (entry entry' : CkProfileTransferEntry) : Prop :=
  entry.target = entry'.target ∧ entry.sources.Perm entry'.sources

/-- The same entries in another order, each with its sources in another order. -/
def SameMapping (entries entries' : List CkProfileTransferEntry) : Prop :=
  ∃ middle, List.Forall₂ SameEntry entries middle ∧ entries'.Perm middle

variable (sha sourceSites sourceCounters targetSites transfer output) in
/-- The transfer is closed and conservative, and blind to the order. -/
structure TransferExact : Prop where
  /-- One counter for each target site, in the order of the sites. -/
  sites : output.map (·.siteId) = targetSites.map (·.id)
  targets : (transfer.entries.map (·.target)).Perm (targetSites.map (·.id))
  sources : (transfer.entries.flatMap (·.sources)).Perm (sourceCounters.map (·.siteId))
  available : ∀ record ∈ output, ∃ counter, record.counter = some counter
  shape : ∀ site ∈ targetSites, ∀ counter, ⟨site.id, some counter⟩ ∈ output →
    counterMatchesSite counter site.kind = true
  cell : ∀ entry ∈ transfer.entries, ∀ counter, ⟨entry.target, some counter⟩ ∈ output →
    ∀ j, counter.cell j = min (2 ^ 64 - 1) (cellTotal (entryCounters sourceCounters entry) j)
  saturated : ∀ entry ∈ transfer.entries, ∀ counter, ⟨entry.target, some counter⟩ ∈ output →
    ∀ j, 2 ^ 64 - 1 < cellTotal (entryCounters sourceCounters entry) j →
      counter.isSaturated = true
  order : ∀ entries, SameMapping transfer.entries entries →
    transferProfileCounts sha sourceSites sourceCounters targetSites
      (some { transfer with entries }) = .ok output

theorem filterMap_eq_of_forall₂ {α β : Type} {f : α → Option β} {as : List α} {bs : List β}
    (h : List.Forall₂ (fun a b ↦ f a = some b) as bs) : as.filterMap f = bs := by
  induction h with
  | nil => rfl
  | cons hab _ ih => rw [List.filterMap_cons_some hab, ih]

theorem EntrySum.combines {entry : CkProfileTransferEntry} {sum : CkProfileCounter}
    (h : EntrySum (sourceCounter sourceCounters) entry sum) :
    Combines (entryCounters sourceCounters entry) sum := by
  obtain ⟨counters, hcounters, hsum⟩ := h
  rw [entryCounters, filterMap_eq_of_forall₂ hcounters]
  exact hsum

theorem sourceCounter_mem {id : CkProfileSiteId} {counter : CkProfileCounter}
    (h : sourceCounter sourceCounters id = some counter) :
    id ∈ sourceCounters.map (·.siteId) := by
  obtain ⟨record, hrecord, heq⟩ := List.mem_map.mp (mem_of_lookup h)
  exact List.mem_map.mpr ⟨record, List.mem_reverse.mp hrecord, congrArg Prod.fst heq⟩

theorem counterMatchesSite_congr {a b : CkProfileCounter} (h : a.shape = b.shape)
    (kind : CkProfileSiteKind) : counterMatchesSite a kind = counterMatchesSite b kind := by
  cases a <;> cases b <;>
    simp [CkProfileCounter.shape, CkProfileCounter.tag, CkProfileCounter.cells] at h <;>
    cases kind <;> simp [counterMatchesSite, h]

/-! ## Accepted transfers -/

theorem TransferAccepted.ordered
    (h : TransferAccepted sha sourceSites sourceCounters targetSites transfer) :
    (targetSites.map (·.id)).Nodup ∧ (targetSites.map (·.id)).Pairwise (siteIdLess · · = true) ∧
      (sourceCounters.map (·.siteId)).Nodup := by
  have hordered : ∀ sites digest, profileSiteTableDigest sha sites = .ok digest →
      (sites.map (·.id)).Pairwise (siteIdLess · · = true) := by
    intro sites digest hdigest
    obtain ⟨bytes, hbytes, -⟩ := bind_eq_ok.mp hdigest
    exact ensureSitesCanonical_ordered (check_bind_eq_ok.mp hbytes).1
  have htarget := hordered _ _ h.targetDigest
  refine ⟨nodup_of_ordered htarget, htarget, ?_⟩
  rw [← h.ids]
  exact nodup_of_ordered (hordered _ _ h.sourceDigest)

theorem TransferAccepted.targets_perm
    (h : TransferAccepted sha sourceSites sourceCounters targetSites transfer) :
    (transfer.entries.map (·.target)).Perm (targetSites.map (·.id)) := by
  apply (List.perm_ext_iff_of_nodup h.closed.targets h.ordered.1).mpr
  intro id
  refine ⟨fun hid ↦ ?_, fun hid ↦ h.allTargets hid⟩
  obtain ⟨entry, hentry, rfl⟩ := List.mem_map.mp hid
  exact h.closed.known entry hentry

theorem forall₂_mem_left {α β : Type} {R : α → β → Prop} {as : List α} {bs : List β}
    (h : List.Forall₂ R as bs) {a : α} (ha : a ∈ as) : ∃ b ∈ bs, R a b := by
  induction h with
  | nil => cases ha
  | cons hab _ ih =>
      rcases List.mem_cons.mp ha with rfl | ha
      · exact ⟨_, List.mem_cons_self, hab⟩
      · obtain ⟨b, hb, hR⟩ := ih ha
        exact ⟨b, List.mem_cons_of_mem _ hb, hR⟩

theorem EntryOutput.map_siteId {entries : List CkProfileTransferEntry}
    {outputs : List CkTransferredProfileCounter} {source : CkProfileSiteId → Option CkProfileCounter}
    (h : List.Forall₂ (EntryOutput source) entries outputs) :
    outputs.map (·.siteId) = entries.map (·.target) := by
  induction h with
  | nil => rfl
  | cons hentry _ ih =>
      obtain ⟨sum, -, rfl⟩ := hentry
      rw [List.map_cons, List.map_cons, ih]

theorem TransferAccepted.sources_perm
    (h : TransferAccepted sha sourceSites sourceCounters targetSites transfer)
    {outputs : List CkTransferredProfileCounter}
    (houtputs : List.Forall₂ (EntryOutput (sourceCounter sourceCounters)) transfer.entries
      outputs) :
    (transfer.entries.flatMap (·.sources)).Perm (sourceCounters.map (·.siteId)) := by
  have hsubset : transfer.entries.flatMap (·.sources) ⊆ sourceCounters.map (·.siteId) := by
    intro id hid
    obtain ⟨entry, hentry, hid⟩ := List.mem_flatMap.mp hid
    obtain ⟨_, _, sum, ⟨counters, hcounters, _⟩, _⟩ := forall₂_mem_left houtputs hentry
    obtain ⟨counter, _, hcounter⟩ := forall₂_mem_left hcounters hid
    exact sourceCounter_mem hcounter
  apply (List.subperm_of_subset h.closed.sources hsubset).perm_of_length_le
  rw [h.allSources, h.ordered.2.2.dedup]

/-! ## Another order -/

theorem SameMapping.refl (entries : List CkProfileTransferEntry) : SameMapping entries entries :=
  ⟨entries, List.forall₂_same.mpr fun _ _ ↦ ⟨rfl, .refl _⟩, .refl _⟩

theorem forall₂_sameEntry {entries middle : List CkProfileTransferEntry}
    (h : List.Forall₂ SameEntry entries middle) :
    entries.map (·.target) = middle.map (·.target) ∧
      (entries.flatMap (·.sources)).Perm (middle.flatMap (·.sources)) := by
  induction h with
  | nil => exact ⟨rfl, .refl _⟩
  | cons hentry _ ih =>
      rw [List.map_cons, List.map_cons, List.flatMap_cons, List.flatMap_cons, hentry.1, ih.1]
      exact ⟨rfl, hentry.2.append ih.2⟩

theorem SameMapping.perm {entries entries' : List CkProfileTransferEntry}
    (h : SameMapping entries entries') :
    (entries'.map (·.target)).Perm (entries.map (·.target)) ∧
      (entries'.flatMap (·.sources)).Perm (entries.flatMap (·.sources)) := by
  obtain ⟨middle, hmiddle, hperm⟩ := h
  obtain ⟨htargets, hsources⟩ := forall₂_sameEntry hmiddle
  exact ⟨htargets ▸ hperm.map _, (hperm.flatMap_right _).trans hsources.symm⟩

theorem SameMapping.mem {entries entries' : List CkProfileTransferEntry}
    (h : SameMapping entries entries') {entry' : CkProfileTransferEntry} (hmem : entry' ∈ entries') :
    ∃ entry ∈ entries, SameEntry entry entry' := by
  obtain ⟨middle, hmiddle, hperm⟩ := h
  exact forall₂_mem_left hmiddle.flip (hperm.mem_iff.mp hmem)

theorem ClosedEntries.same {targets : List CkProfileSiteId}
    {entries entries' : List CkProfileTransferEntry} (h : ClosedEntries targets [] [] entries)
    (hsame : SameMapping entries entries') : ClosedEntries targets [] [] entries' where
  nonempty := by
    rintro entry' hentry' hnil
    obtain ⟨entry, hentry, -, hsources⟩ := hsame.mem hentry'
    rw [hnil] at hsources
    exact h.nonempty entry hentry hsources.eq_nil
  known := by
    intro entry' hentry'
    obtain ⟨entry, hentry, htarget, -⟩ := hsame.mem hentry'
    exact htarget ▸ h.known entry hentry
  targets := hsame.perm.1.nodup_iff.mpr h.targets
  freshTargets _ _ := List.not_mem_nil
  sources := hsame.perm.2.nodup_iff.mpr h.sources
  freshSources _ _ := List.not_mem_nil

theorem TransferAccepted.same {entries : List CkProfileTransferEntry}
    (h : TransferAccepted sha sourceSites sourceCounters targetSites transfer)
    (hsame : SameMapping transfer.entries entries) :
    TransferAccepted sha sourceSites sourceCounters targetSites { transfer with entries } where
  ids := h.ids
  sourceDigest := h.sourceDigest
  targetDigest := h.targetDigest
  closed := h.closed.same hsame
  allSources := hsame.perm.2.length_eq.trans h.allSources
  allTargets _ hid := hsame.perm.1.mem_iff.mpr (h.allTargets hid)

/-- The sum of an entry's sources in another order. -/
theorem EntrySum.same {source : CkProfileSiteId → Option CkProfileCounter}
    {entry entry' : CkProfileTransferEntry} {sum : CkProfileCounter}
    (h : EntrySum source entry sum) (hne : entry.sources ≠ [])
    (hsteady : Steady (entry.sources.filterMap source)) (hsame : SameEntry entry entry') :
    EntrySum source entry' sum := by
  obtain ⟨counters, hcounters, hsum⟩ := h
  obtain ⟨counters', hcounters', hperm⟩ := List.perm_comp_forall₂ hsame.2.symm hcounters
  rw [filterMap_eq_of_forall₂ hcounters] at hsteady
  have hne' : counters' ≠ [] := by
    rintro rfl
    obtain rfl := hperm.symm.eq_nil
    exact hne (List.forall₂_nil_right_iff.mp hcounters)
  obtain ⟨sum', hsum'⟩ := exists_combines hne' fun c hc ↦ hsum.shape c (hperm.mem_iff.mp hc)
  obtain rfl := hsteady.order counters' hperm sum sum' hsum hsum'
  exact ⟨counters', hcounters', hsum'⟩

/-- Steady entries give one output in every order. -/
theorem transferProfileCounts_same {entries : List CkProfileTransferEntry}
    (h : transferProfileCounts sha sourceSites sourceCounters targetSites (some transfer) =
      .ok output)
    (hsteady : ∀ entry ∈ transfer.entries, Steady (entryCounters sourceCounters entry))
    (hsame : SameMapping transfer.entries entries) :
    transferProfileCounts sha sourceSites sourceCounters targetSites
      (some { transfer with entries }) = .ok output := by
  obtain ⟨haccepted, outputs, houtputs, rfl⟩ := transferProfileCounts_eq_ok.mp h
  have hclosed := haccepted.same hsame
  obtain ⟨middle, hmiddle, hperm⟩ := hsame
  have hmoved : ∀ {es ms : List CkProfileTransferEntry} {os : List CkTransferredProfileCounter},
      (∀ entry ∈ es, entry ∈ transfer.entries) → List.Forall₂ SameEntry es ms →
      List.Forall₂ (EntryOutput (sourceCounter sourceCounters)) es os →
      List.Forall₂ (EntryOutput (sourceCounter sourceCounters)) ms os := by
    intro es ms os hmem hms hos
    induction hms generalizing os with
    | nil => exact hos
    | cons hentry _ ih =>
        obtain ⟨hin, hrest⟩ := List.forall_mem_cons.mp hmem
        cases hos with
        | cons houtput hos =>
            obtain ⟨sum, hsum, rfl⟩ := houtput
            refine .cons ⟨sum, ?_, by rw [hentry.1]⟩ (ih hrest hos)
            exact hsum.same (haccepted.closed.nonempty _ hin) (hsteady _ hin) hentry
  have hmoved := hmoved (fun _ hentry ↦ hentry) hmiddle houtputs
  obtain ⟨outputs', houtputs', hperm'⟩ := List.perm_comp_forall₂ hperm hmoved
  refine transferProfileCounts_eq_ok.mpr ⟨hclosed, outputs', houtputs', ?_⟩
  apply insertionSort_siteOrder_perm hperm'.symm
  rw [EntryOutput.map_siteId houtputs]
  exact haccepted.closed.targets

/-- One entry with the counters of its sources in another order. -/
theorem exists_sameMapping {source : CkProfileSiteId → Option CkProfileCounter}
    {entries : List CkProfileTransferEntry} {entry : CkProfileTransferEntry}
    (hentry : entry ∈ entries) {counters others : List CkProfileCounter}
    (hcounters : List.Forall₂ (fun id c ↦ source id = some c) entry.sources counters)
    (hperm : others.Perm counters) :
    ∃ entries' entry', SameMapping entries entries' ∧ entry' ∈ entries' ∧
      entry'.target = entry.target ∧ entry'.sources.filterMap source = others := by
  obtain ⟨ids, hids, hperm⟩ := List.perm_comp_forall₂ hperm hcounters.flip
  obtain ⟨before, after, rfl⟩ := List.append_of_mem hentry
  refine ⟨before ++ ⟨entry.target, ids⟩ :: after, ⟨entry.target, ids⟩, ⟨_, ?_, .refl _⟩, by simp,
    rfl, filterMap_eq_of_forall₂ hids.flip⟩
  have hself : ∀ es : List CkProfileTransferEntry, List.Forall₂ SameEntry es es :=
    fun es ↦ List.forall₂_same.mpr fun _ _ ↦ ⟨rfl, .refl _⟩
  exact List.rel_append (hself before) (.cons ⟨rfl, hperm.symm⟩ (hself after))

theorem TransferAccepted.entry_output
    (h : TransferAccepted sha sourceSites sourceCounters targetSites transfer)
    (houtput : ∃ outputs, List.Forall₂ (EntryOutput (sourceCounter sourceCounters))
      transfer.entries outputs ∧ output = outputs.insertionSort SiteOrder)
    {entry : CkProfileTransferEntry} (hentry : entry ∈ transfer.entries) :
    ∃ sum, EntrySum (sourceCounter sourceCounters) entry sum ∧
      ∀ counter, ⟨entry.target, some counter⟩ ∈ output ↔ counter = sum := by
  obtain ⟨outputs, houtputs, rfl⟩ := houtput
  obtain ⟨_, hrecord, sum, hsum, rfl⟩ := forall₂_mem_left houtputs hentry
  refine ⟨sum, hsum, fun counter ↦ ⟨fun hmem ↦ ?_, ?_⟩⟩
  · have hnodup : (outputs.map (·.siteId)).Nodup := by
      rw [EntryOutput.map_siteId houtputs]
      exact h.closed.targets
    cases List.inj_on_of_nodup_map hnodup ((List.mem_insertionSort SiteOrder).mp hmem) hrecord rfl
    rfl
  · rintro rfl
    exact (List.mem_insertionSort SiteOrder).mpr hrecord

theorem TransferAccepted.entryCounters_ne_nil
    (h : TransferAccepted sha sourceSites sourceCounters targetSites transfer)
    {entry : CkProfileTransferEntry} (hentry : entry ∈ transfer.entries)
    {sum : CkProfileCounter} (hsum : EntrySum (sourceCounter sourceCounters) entry sum) :
    entryCounters sourceCounters entry ≠ [] := by
  obtain ⟨counters, hcounters, -⟩ := hsum
  rw [entryCounters, filterMap_eq_of_forall₂ hcounters]
  rintro rfl
  exact h.closed.nonempty entry hentry (List.forall₂_nil_right_iff.mp hcounters)

/-- A transfer that is blind to the order, and reports what is above the maximum, has steady
entries only. -/
theorem TransferExact.steady
    (h : transferProfileCounts sha sourceSites sourceCounters targetSites (some transfer) =
      .ok output)
    (hexact : TransferExact sha sourceSites sourceCounters targetSites transfer output)
    {entry : CkProfileTransferEntry} (hentry : entry ∈ transfer.entries) :
    Steady (entryCounters sourceCounters entry) := by
  obtain ⟨haccepted, houtput⟩ := transferProfileCounts_eq_ok.mp h
  obtain ⟨sum, hsum, hunique⟩ := haccepted.entry_output houtput hentry
  have hne := haccepted.entryCounters_ne_nil hentry hsum
  refine ⟨?_, ?_⟩
  · intro others hperm first second hfirst hsecond
    obtain rfl := hfirst.unique hsum.combines hne
    obtain ⟨counters, hcounters, hcombines⟩ := hsum
    have hlist : entryCounters sourceCounters entry = counters := filterMap_eq_of_forall₂ hcounters
    rw [hlist] at hperm hne
    obtain ⟨entries, entry', hsame, hentry', htarget, hothers⟩ :=
      exists_sameMapping hentry hcounters hperm
    -- the transfer of the reordered record yields the same counter
    obtain ⟨haccepted', houtput'⟩ := transferProfileCounts_eq_ok.mp (hexact.order entries hsame)
    have hmember : entry' ∈ { transfer with entries }.entries := hentry'
    obtain ⟨sum', hsum', hunique'⟩ := haccepted'.entry_output houtput' hmember
    have hboth : sum' = first := by
      rw [← hunique, ← htarget]
      exact (hunique' sum').mpr rfl
    have hcombines' := hsum'.combines
    rw [entryCounters, hothers, hboth] at hcombines'
    exact hcombines'.unique hsecond fun hnil ↦ hne (hnil ▸ hperm).symm.eq_nil
  · intro other hother j hover
    obtain rfl := hother.unique hsum.combines hne
    exact hexact.saturated entry hentry other ((hunique other).mpr rfl) j hover

/-- A transfer of steady entries, each of the shape of its target, is exact. -/
theorem transferExact_of_steady
    (h : transferProfileCounts sha sourceSites sourceCounters targetSites (some transfer) =
      .ok output)
    (hshape : ∀ entry ∈ transfer.entries, ∀ site ∈ targetSites, site.id = entry.target →
      ∀ c ∈ entryCounters sourceCounters entry, counterMatchesSite c site.kind = true)
    (hsteady : ∀ entry ∈ transfer.entries, Steady (entryCounters sourceCounters entry)) :
    TransferExact sha sourceSites sourceCounters targetSites transfer output := by
  obtain ⟨haccepted, houtput⟩ := transferProfileCounts_eq_ok.mp h
  refine ⟨?_, haccepted.targets_perm, ?_, ?_, ?_, ?_, ?_, ?_⟩
  · obtain ⟨outputs, houtputs, rfl⟩ := houtput
    apply map_insertionSort_siteId _ haccepted.ordered.2.1
    rw [EntryOutput.map_siteId houtputs]
    exact haccepted.targets_perm
  · obtain ⟨outputs, houtputs, -⟩ := houtput
    exact haccepted.sources_perm houtputs
  · obtain ⟨outputs, houtputs, rfl⟩ := houtput
    intro record hrecord
    obtain ⟨entry, -, sum, -, rfl⟩ :=
      forall₂_mem_left houtputs.flip ((List.mem_insertionSort SiteOrder).mp hrecord)
    exact ⟨sum, rfl⟩
  · intro site hsite counter hcounter
    obtain ⟨entry, hentry, htarget⟩ :=
      List.mem_map.mp (haccepted.allTargets (List.mem_map_of_mem hsite))
    obtain ⟨sum, hsum, hunique⟩ := haccepted.entry_output houtput hentry
    rw [← htarget] at hcounter
    obtain rfl := (hunique counter).mp hcounter
    obtain ⟨c, hc⟩ := List.exists_mem_of_ne_nil _ (haccepted.entryCounters_ne_nil hentry hsum)
    rw [← counterMatchesSite_congr (hsum.combines.shape c hc)]
    exact hshape entry hentry site hsite htarget.symm c hc
  · intro entry hentry counter hcounter
    obtain ⟨sum, hsum, hunique⟩ := haccepted.entry_output houtput hentry
    obtain rfl := (hunique counter).mp hcounter
    exact hsum.combines.cell
  · intro entry hentry counter hcounter j hover
    obtain ⟨sum, hsum, hunique⟩ := haccepted.entry_output houtput hentry
    obtain rfl := (hunique counter).mp hcounter
    exact (hsteady entry hentry).saturated counter hsum.combines j hover
  · intro entries hsame
    exact transferProfileCounts_same h hsteady hsame

/-- The transfer is exact just when every entry's sources have the shape of its target, and none
of them hides a maximum. -/
theorem transferProfileCounts_exact_iff
    (h : transferProfileCounts sha sourceSites sourceCounters targetSites (some transfer) =
      .ok output) :
    TransferExact sha sourceSites sourceCounters targetSites transfer output ↔
      ∀ entry ∈ transfer.entries,
        (∀ site ∈ targetSites, site.id = entry.target →
          ∀ c ∈ entryCounters sourceCounters entry, counterMatchesSite c site.kind = true) ∧
        ¬ Hides (entryCounters sourceCounters entry) := by
  obtain ⟨haccepted, houtput⟩ := transferProfileCounts_eq_ok.mp h
  constructor
  · intro hexact entry hentry
    obtain ⟨sum, hsum, hunique⟩ := haccepted.entry_output houtput hentry
    refine ⟨?_, fun hides ↦ not_steady_of_hides hsum.combines hides (hexact.steady h hentry)⟩
    intro site hsite hid c hc
    rw [counterMatchesSite_congr (hsum.combines.shape c hc)]
    apply hexact.shape site hsite
    exact hid ▸ (hunique sum).mpr rfl
  · intro hgood
    apply transferExact_of_steady h fun entry hentry ↦ (hgood entry hentry).1
    intro entry hentry
    obtain ⟨sum, hsum, -⟩ := haccepted.entry_output houtput hentry
    exact steady_of_not_hides (haccepted.entryCounters_ne_nil hentry hsum) (hgood entry hentry).2

end Sha

def transferSite (id : UInt8) (kind : CkProfileSiteKind) : CkProfileSiteDescriptor where
  id := .replicate 16 id
  functionDigest := .replicate 32 0
  location := 0
  kind := kind

/-- All sources summed into the one target. -/
def transferOnto (sources : List CkProfileSiteDescriptor) (target : CkProfileSiteDescriptor)
    (order : List UInt8) : CkProfileMappingTransfer where
  sourceSiteTableDigest := ((profileSiteTableDigest sumSha sources).toOption).getD (.replicate 32 0)
  targetSiteTableDigest := ((profileSiteTableDigest sumSha [target]).toOption).getD
    (.replicate 32 0)
  entries := [⟨target.id, order.map fun id ↦ .replicate 16 id⟩]

/-- A histogram of values in the first bucket. -/
def firstBucket (value : UInt64) (saturated : Bool) : CkProfileCounter :=
  .histogram (Vector.ofFn fun i ↦ if i.val = 0 then value else 0) saturated

def histogramSites : List CkProfileSiteDescriptor :=
  [transferSite 1 (.loopTripHistogram 0), transferSite 2 (.loopTripHistogram 1)]

def histogramRecords (first second : UInt64) : List CkProfileCounterRecord :=
  [⟨.replicate 16 1, firstBucket first false⟩, ⟨.replicate 16 2, firstBucket second false⟩]

theorem transferProfileCounts_exact_histograms :
    TransferExact sumSha histogramSites (histogramRecords 3 4)
      [transferSite 3 (.loopTripHistogram 0)]
      (transferOnto histogramSites (transferSite 3 (.loopTripHistogram 0)) [2, 1])
      [⟨.replicate 16 3, some (firstBucket 7 false)⟩] := by
  have h : transferProfileCounts sumSha histogramSites (histogramRecords 3 4)
      [transferSite 3 (.loopTripHistogram 0)]
      (some (transferOnto histogramSites (transferSite 3 (.loopTripHistogram 0)) [2, 1])) =
        .ok [⟨.replicate 16 3, some (firstBucket 7 false)⟩] := by
    decide +kernel
  refine (transferProfileCounts_exact_iff h).mpr ?_
  intro entry hentry
  obtain rfl := List.mem_singleton.mp hentry
  refine ⟨by decide +kernel, ?_⟩
  rintro ⟨-, -, c, hc, ⟨j, hmax⟩, -⟩
  have hsmall : ∀ c ∈ entryCounters (histogramRecords 3 4)
      ⟨.replicate 16 3, [.replicate 16 2, .replicate 16 1]⟩,
      c.cells.all (fun cell ↦ cell.toNat < 2 ^ 64 - 1) = true := by
    decide +kernel
  rw [CkProfileCounter.cell] at hmax
  cases hcell : c.cells[j]? with
  | none => simp [hcell] at hmax
  | some cell =>
      have hlow := List.all_eq_true.mp (hsmall c hc) cell (List.mem_of_getElem? hcell)
      rw [hcell] at hmax
      exact absurd hmax (of_decide_eq_true hlow).ne

/-- A scalar becomes the counter of a histogram site, and an overflow goes unreported in one order
of the sources and not in the other. -/
theorem transferProfileCounts_not_exact :
    (transferProfileCounts sumSha [transferSite 1 .functionEntry] [⟨.replicate 16 1, .scalar 7⟩]
        [transferSite 3 (.loopTripHistogram 0)]
        (some (transferOnto [transferSite 1 .functionEntry]
          (transferSite 3 (.loopTripHistogram 0)) [1])) =
          .ok [⟨.replicate 16 3, some (.scalar 7)⟩] ∧
      ¬ TransferExact sumSha [transferSite 1 .functionEntry] [⟨.replicate 16 1, .scalar 7⟩]
        [transferSite 3 (.loopTripHistogram 0)]
        (transferOnto [transferSite 1 .functionEntry] (transferSite 3 (.loopTripHistogram 0)) [1])
        [⟨.replicate 16 3, some (.scalar 7)⟩]) ∧
    ∀ run ∈ [([1, 2], false), ([2, 1], true)],
      transferProfileCounts sumSha histogramSites (histogramRecords u64Max 1)
        [transferSite 3 (.loopTripHistogram 0)]
        (some (transferOnto histogramSites (transferSite 3 (.loopTripHistogram 0)) run.1)) =
          .ok [⟨.replicate 16 3, some (firstBucket u64Max run.2)⟩] := by
  refine ⟨⟨by decide +kernel, fun hexact ↦ ?_⟩, by decide +kernel⟩
  have hshape := hexact.shape _ List.mem_cons_self (.scalar 7) List.mem_cons_self
  cases hshape

end CalcKernel
