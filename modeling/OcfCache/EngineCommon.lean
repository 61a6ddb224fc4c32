import OcfCache.Loops
import OcfCache.Requests

/-!
# Lookup and re-check of a request

Embedding of the lookup part of `engine_common.c`. A lookup clears the
counters of a request, finds the cache line of each of its core lines and
counts hits, dirty lines, foreign partitions and physical neighbours. The
check after a wait for cache line locks runs the same accounting over the map
that an earlier lookup and mapping left. Table bounds asserted by
`ENV_BUG_ON` and the hotness update are left out.
-/

namespace OcfCache.EngineCommon

open Loops Metadata Requests

variable (g : Geometry) (md : LineTable)

/-- `ocf_engine_lookup_map_entry`. -/
def ocfEngineLookupMapEntry (entry : MapInfo) (coreId coreLine : Nat) : MapInfo :=
  match lookupLine g md coreId coreLine with
  | some line =>
    { entry with
      hash := ocfMetadataHashFunc g coreLine coreId
      status := .hit, collIdx := line, coreLine := coreLine, coreId := coreId }
  | none =>
    { entry with
      hash := ocfMetadataHashFunc g coreLine coreId
      status := .miss, collIdx := g.collisionEntries, coreLine := coreLine, coreId := coreId }

/-- `_ocf_engine_check_map_entry`: whether the mapping still stands. -/
def ocfEngineCheckMapEntry (entry : MapInfo) (coreId : Nat) : Bool :=
  entry.status == .miss || md.coreInfo entry.collIdx == (coreId, entry.coreLine)

/-- `ocf_engine_clines_phys_cont`. -/
def ocfEngineClinesPhysCont (req : Request) (entry : Nat) : Bool :=
  (req.map entry).status != .miss && (req.map (entry + 1)).status != .miss &&
    decide ((req.map entry).collIdx < (req.map (entry + 1)).collIdx) &&
    (req.map entry).collIdx + 1 == (req.map (entry + 1)).collIdx

/-- `ocf_engine_patch_req_info`. -/
def ocfEnginePatchReqInfo (req : Request) (idx : Nat) : Request :=
  let before := decide (0 < idx) && ocfEngineClinesPhysCont req (idx - 1)
  let after := decide (idx + 1 < req.coreLineCount g) && ocfEngineClinesPhysCont req idx
  { req with info :=
    { req.info with
      insertNo := req.info.insertNo + 1
      seqNo := req.info.seqNo + before.toNat + after.toNat } }

/-- `metadata_test_valid_sec` of the requested blocks of an entry. -/
def entryValid (req : Request) (entry : MapInfo) (idx : Nat) : Bool :=
  metadataTestValidSec md entry.collIdx (ocfMapLineStartBlock g req idx)
    (ocfMapLineEndBlock g req idx)

/-- `metadata_test_dirty_all_sec` of the requested blocks of an entry. -/
def entryDirtyAll (req : Request) (entry : MapInfo) (idx : Nat) : Bool :=
  metadataTestDirtyAllSec md entry.collIdx (ocfMapLineStartBlock g req idx)
    (ocfMapLineEndBlock g req idx)

/-- A mapped entry in a foreign partition. -/
def entryRePart (req : Request) (entry : MapInfo) : Bool :=
  entry.status != .miss && req.partId != md.partitionId entry.collIdx

/-- `ocf_engine_update_req_info`. The status change of a partially valid hit
comes first in the source; the later conditions do not tell the two apart. -/
def ocfEngineUpdateReqInfo (req : Request) (idx : Nat) : Request :=
  let entry := req.map idx
  let hit := entry.status == .hit
  let valid := entryValid g md req entry idx
  let dirty := metadataTestDirty g md entry.collIdx
  let rePart := entryRePart md req entry
  let seq := decide (0 < idx) && ocfEngineClinesPhysCont req (idx - 1)
  { req with
    map := Function.update req.map idx
      { entry with
        status := if hit && !valid then .hitInvalid else entry.status
        rePart := entry.rePart || rePart }
    info := { req.info with
      hitNo := req.info.hitNo + (hit && valid).toNat
      invalidNo := req.info.invalidNo + (hit && !valid).toNat
      dirtyAny := req.info.dirtyAny + (hit && dirty).toNat
      dirtyAll := req.info.dirtyAll + (hit && (dirty && entryDirtyAll g md req entry idx)).toNat
      rePartNo := req.info.rePartNo + rePart.toNat
      insertNo := req.info.insertNo + (entry.status == .remapped).toNat
      seqNo := req.info.seqNo + seq.toNat } }

/-- Body of the lookup loop. -/
def lookupBody (req : Request) (i : Nat) : Request :=
  let entry := ocfEngineLookupMapEntry g md (req.map i) req.coreId (req.coreLineFirst g + i)
  let req' := req.setMap i { entry with rePart := false }
  if entry.status ≠ .hit then req' else ocfEngineUpdateReqInfo g md req' i

/-- Body of the check loop; the flag is set when a mapping is gone. -/
def checkBody (st : Bool × Request) (i : Nat) : Bool × Request :=
  let req := st.2
  let entry : MapInfo := { req.map i with rePart := false }
  if entry.status = .miss then
    (st.1, req.setMap i entry)
  else if ocfEngineCheckMapEntry md entry req.coreId then
    (st.1, ocfEngineUpdateReqInfo g md (req.setMap i { entry with invalid := false }) i)
  else
    (true, req.setMap i { entry with invalid := true })

/-- `ocf_engine_lookup`. -/
def ocfEngineLookup (req : Request) : Request :=
  forRange (req.coreLineCount g) (lookupBody g md) (ocfReqClearInfo req)

/-- `ocf_engine_check`: whether some mapping is gone, and the request. -/
def ocfEngineCheck (req : Request) : Bool × Request :=
  forRange (req.coreLineCount g) (checkBody g md) (false, ocfReqClearInfo req)

end OcfCache.EngineCommon
