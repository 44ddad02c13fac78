import CalcKernel.Lib.Patch
import CalcKernel.Profile.MergeTotals
import CalcKernel.Profile.RoundTrip
import CalcKernel.Profile.Sizes

/-!
# Shard templates

A generation artifact carries the image of a shard whose counters are all zero, and a table of
the places where the collector writes when the program ends.  The places are computed apart
from the encoder.
-/

namespace CalcKernel

open Lib

/-- In the place of a saturation byte, for a site that has none. -/
def ckProfileNoWireOffset : Nat := 2 ^ 32 - 1

structure CkProfileShardTemplate where
  bytes : List UInt8
  counterOffsets : List Nat
  siteFirstCounters : List Nat
  siteCounterCounts : List Nat
  siteSaturationOffsets : List Nat
  runIdOffset : Nat
  overflowFlagOffset : Nat
  digestOffset : Nat
deriving DecidableEq, Repr

def checkedU32 (value : Nat) : Except CkProfileError Nat :=
  if value < 2 ^ 32 then .ok value else .error .lengthOverflow

def zeroCounter : CkProfileSiteKind → CkProfileCounter
  | .functionEntry | .edge _ _ _ => .scalar 0
  | .loopTripHistogram _ | .sliceLengthHistogram _ => .histogram (.replicate 16 0) false
  | .candidateConstant _ candidates =>
      .candidateConstant (.replicate candidates.length 0) 0 false

def zeroCounters (sites : List CkProfileSiteDescriptor) : List CkProfileCounterRecord :=
  sites.map fun site ↦ ⟨site.id, zeroCounter site.kind⟩

structure CounterLayout where
  counterOffsets : List Nat
  siteFirstCounters : List Nat
  siteCounterCounts : List Nat
  siteSaturationOffsets : List Nat
deriving DecidableEq, Repr

/-- The offsets of a number of cells, and the position after them. -/
def pushCells : Nat → Nat → List Nat → Except CkProfileError (Nat × List Nat)
  | 0, wire, offsets => .ok (wire, offsets)
  | cells + 1, wire, offsets => do
      let next ← checkedU32 (wire + 8)
      pushCells cells next (offsets ++ [wire])

/-- One record of the loop; the first component is the position. -/
def layoutRecord (state : Nat × CounterLayout) (record : CkProfileCounterRecord) :
    Except CkProfileError (Nat × CounterLayout) := do
  let wire ← checkedU32 (state.1 + 17)
  let layout := state.2
  let first ← checkedU32 layout.counterOffsets.length
  match record.counter with
  | .scalar _ =>
      let next ← checkedU32 (wire + 8)
      return (next, {
        counterOffsets := layout.counterOffsets ++ [wire]
        siteFirstCounters := layout.siteFirstCounters ++ [first]
        siteCounterCounts := layout.siteCounterCounts ++ [1]
        siteSaturationOffsets := layout.siteSaturationOffsets ++ [ckProfileNoWireOffset] })
  | .histogram _ _ =>
      let (wire, counterOffsets) ← pushCells 16 wire layout.counterOffsets
      let next ← checkedU32 (wire + 1)
      return (next, {
        counterOffsets
        siteFirstCounters := layout.siteFirstCounters ++ [first]
        siteCounterCounts := layout.siteCounterCounts ++ [16]
        siteSaturationOffsets := layout.siteSaturationOffsets ++ [wire] })
  | .candidateConstant candidates _ _ =>
      let wire ← checkedU32 (wire + 1)
      let cells := candidates.length + 1
      let (wire, counterOffsets) ← pushCells cells wire layout.counterOffsets
      let count ← checkedU32 cells
      let next ← checkedU32 (wire + 1)
      return (next, {
        counterOffsets
        siteFirstCounters := layout.siteFirstCounters ++ [first]
        siteCounterCounts := layout.siteCounterCounts ++ [count]
        siteSaturationOffsets := layout.siteSaturationOffsets ++ [wire] })

def counterLayout (counters : List CkProfileCounterRecord) (payloadOffset : Nat) :
    Except CkProfileError CounterLayout := do
  let wire ← checkedU32 (payloadOffset + 4)
  let (_, layout) ← counters.foldlM layoutRecord (wire, ⟨[], [], [], []⟩)
  return layout

section Sha

variable (sha : List UInt8 → Digest)

def createProfileShardTemplate (identity : CkProfileIdentity)
    (sites : List CkProfileSiteDescriptor) : Except CkProfileError CkProfileShardTemplate := do
  let counters := zeroCounters sites
  let identityBytes ← identity.canonicalBytes
  let siteBytes ← encodeSites sites
  let counterBytes ← encodeCounters counters
  let counterPayloadOffset ←
    checkedU32 (12 + 6 + identityBytes.length + 6 + siteBytes.length + 6)
  let layout ← counterLayout counters counterPayloadOffset
  let runIdOffset ← checkedU32 (counterPayloadOffset + counterBytes.length + 6)
  let overflowFlagOffset ← checkedU32 (runIdOffset + 16 + 6)
  let bytes ← serializeProfileShard sha {
    identity
    sites
    counters
    runId := .replicate 16 0
    overflowed := false
    incompleteObservations := false }
  if bytes.length < 32 then .error .lengthOverflow
  else
    let digestOffset ← checkedU32 (bytes.length - 32)
    if bytes.length ≤ overflowFlagOffset ∨ bytes.length < runIdOffset + 16 then
      .error .lengthOverflow
    else return {
      bytes
      counterOffsets := layout.counterOffsets
      siteFirstCounters := layout.siteFirstCounters
      siteCounterCounts := layout.siteCounterCounts
      siteSaturationOffsets := layout.siteSaturationOffsets
      runIdOffset
      overflowFlagOffset
      digestOffset }

end Sha

/-! ## The collector -/

/-- The saturation bytes of the sites that have one. -/
def writeSaturations (image : List UInt8) (places : List (Nat × Bool)) : List UInt8 :=
  places.foldl (fun image p ↦
    if p.1 = ckProfileNoWireOffset then image else writeAt image p.1 (boolByte p.2)) image

/-- The counters at their places. -/
def writeCounters (image : List UInt8) (places : List (Nat × UInt64)) : List UInt8 :=
  places.foldl (fun image p ↦ writeAt image p.1 (u64Bytes p.2)) image

/-- The image with the results of a run, and the digest of all before it. -/
def CkProfileShardTemplate.patch (sha : List UInt8 → Digest) (template : CkProfileShardTemplate)
    (values : List UInt64) (saturations : List Bool) (runId : Vector UInt8 16)
    (overflowed : Bool) : List UInt8 :=
  let image := writeCounters template.bytes (template.counterOffsets.zip values)
  let image := writeSaturations image (template.siteSaturationOffsets.zip saturations)
  let image := writeAt image template.runIdOffset runId.toList
  let image := writeAt image template.overflowFlagOffset (boolByte overflowed)
  writeAt image template.digestOffset
    (sha (shardDomain ++ image.take template.digestOffset)).toList

end CalcKernel
