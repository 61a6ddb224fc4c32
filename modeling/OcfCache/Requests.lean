import OcfCache.Metadata

/-!
# Requests

`struct ocf_request` as far as the engines use it: the address range on the
core, the map of its core lines and the counters of the last lookup. The
number of core lines is a function of the range, as in `ocf_req_new`. Fields
of queues, statistics and atomic volumes are left out.
-/

namespace OcfCache.Requests

open Metadata

/-- Traverse or mapping status of a map entry. -/
inductive LookupStatus
  | hit
  | miss
  | remapped
  | hitInvalid
  deriving DecidableEq, Repr

/-- `struct ocf_map_info`. -/
structure MapInfo where
  /-- Hash bucket of the core line. -/
  hash : Nat
  /-- Cache line, or the number of lines when there is none. -/
  collIdx : Nat
  /-- Core line of the entry. -/
  coreLine : Nat
  /-- Core of the entry. -/
  coreId : Nat
  /-- Result of the last lookup or mapping. -/
  status : LookupStatus
  /-- The mapping was found to be gone. -/
  invalid : Bool
  /-- The line has to move to the partition of the request. -/
  rePart : Bool
  /-- The metadata of the line has to be flushed. -/
  flush : Bool
  deriving DecidableEq, Repr

/-- `struct ocf_req_info`. -/
structure ReqInfo where
  /-- Entries with all requested blocks valid. -/
  hitNo : Nat
  /-- Entries with a requested block that is not valid. -/
  invalidNo : Nat
  /-- Entries in a foreign partition. -/
  rePartNo : Nat
  /-- Entries that follow their predecessor on the cache device. -/
  seqNo : Nat
  /-- Entries mapped by this request. -/
  insertNo : Nat
  /-- Entries with all requested blocks dirty. -/
  dirtyAll : Nat
  /-- Entries on a line with a dirty block. -/
  dirtyAny : Nat
  /-- Some entry needs a metadata flush. -/
  flushMetadata : Bool
  /-- The core lines could not be mapped. -/
  mappingError : Bool
  /-- Mapping failed for lack of clean lines. -/
  cleaningRequired : Bool
  deriving DecidableEq, Repr

/-- Cleared counters. -/
def ReqInfo.zero : ReqInfo := ⟨0, 0, 0, 0, 0, 0, 0, false, false, false⟩

/-- Direction of a request. -/
inductive Dir
  | read
  | write
  deriving DecidableEq, Repr

/-- `struct ocf_request`. -/
structure Request where
  /-- Core of the request. -/
  coreId : Nat
  /-- First block on the core. -/
  addr : Nat
  /-- Number of blocks. -/
  blocks : Nat
  /-- Direction. -/
  rw : Dir
  /-- Target partition. -/
  partId : Nat
  /-- Map of the core lines. -/
  map : Nat → MapInfo
  /-- Counters of the last lookup. -/
  info : ReqInfo

variable (g : Geometry) (req : Request)

/-- First core line of the range. -/
def Request.coreLineFirst : Nat := req.addr / g.lineBlocks

/-- Last core line of the range; a request without data has its first line. -/
def Request.coreLineLast : Nat :=
  if 0 < req.blocks then (req.addr + req.blocks - 1) / g.lineBlocks else req.coreLineFirst g

/-- Number of core lines of the range. -/
def Request.coreLineCount : Nat := req.coreLineLast g - req.coreLineFirst g + 1

/-- `ocf_map_line_start_block`. -/
def ocfMapLineStartBlock (line : Nat) : Nat :=
  if line = 0 then req.addr % g.lineBlocks else 0

/-- `ocf_map_line_end_block`. The last byte of a request without data at address
zero wraps around to the end of the addresses, which ends a line. -/
def ocfMapLineEndBlock (line : Nat) : Nat :=
  if line = req.coreLineCount g - 1 then
    if req.addr + req.blocks = 0 then g.endBlock else (req.addr + req.blocks - 1) % g.lineBlocks
  else g.endBlock

/-- `ocf_engine_is_hit`. -/
def ocfEngineIsHit : Bool := req.info.hitNo == req.coreLineCount g

/-- `ocf_engine_is_mapped`. -/
def ocfEngineIsMapped : Bool := req.info.hitNo + req.info.invalidNo == req.coreLineCount g

/-- `ocf_engine_is_dirty_all`. -/
def ocfEngineIsDirtyAll : Bool := req.info.dirtyAll == req.coreLineCount g

/-- `ocf_engine_mapped_count`. -/
def ocfEngineMappedCount : Nat := req.info.hitNo + req.info.invalidNo

/-- `ocf_engine_unmapped_count`. -/
def ocfEngineUnmappedCount : Nat :=
  req.coreLineCount g - (req.info.hitNo + req.info.invalidNo + req.info.insertNo)

/-- `ocf_engine_is_sequential`. -/
def ocfEngineIsSequential : Bool :=
  req.info.hitNo + req.info.insertNo == req.coreLineCount g &&
    req.info.seqNo == req.coreLineCount g - 1

/-- Replace one map entry. -/
def Request.setMap (i : Nat) (e : MapInfo) : Request :=
  { req with map := Function.update req.map i e }

/-- `ocf_req_clear_info`. -/
def ocfReqClearInfo : Request := { req with info := .zero }

end OcfCache.Requests
