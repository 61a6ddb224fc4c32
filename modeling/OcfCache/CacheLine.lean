import OcfCache.Loops
import OcfCache.Requests

/-!
# Status changes of the cache lines of a request

Embedding of `utils_cache_line.[ch]`: setting the requested blocks of a line
valid, invalid, dirty or clean, with the marks for a metadata flush, and the
loops that do so for every line of a request. A line that loses its last valid
block leaves the collision table unless a request waits for it. Counters of
cached and dirty lines, the eviction lists and the cleaning policy are left
out; volumes are not atomic, so an invalidation alone marks nothing.
-/

namespace OcfCache.CacheLine

open Function Loops Metadata Requests

/-- Metadata together with the flush marks of a request. -/
structure Marked where
  /-- Cache line metadata. -/
  md : LineTable
  /-- Entries marked for a metadata flush. -/
  flush : Nat → Bool
  /-- `info.flush_metadata`. -/
  flushMetadata : Bool

/-- Start from the marks that a request has. -/
def Marked.ofReq (md : LineTable) (req : Request) : Marked :=
  ⟨md, fun i => (req.map i).flush, req.info.flushMetadata⟩

/-- Put the marks back into the request. -/
def Marked.toReq (m : Marked) (req : Request) : Request :=
  { req with
    map := fun i => { req.map i with flush := m.flush i }
    info := { req.info with flushMetadata := m.flushMetadata } }

/-- `ocf_metadata_flush_mark` for a change to dirty or clean. -/
def Marked.mark (m : Marked) (i : Nat) : Marked :=
  { m with flush := update m.flush i true, flushMetadata := true }

/-- Replace the valid bits of a line. -/
def setValidBits (md : LineTable) (line : Nat) (b : Bits) : LineTable :=
  { md with valid := update md.valid line b }

/-- Replace the dirty bits of a line. -/
def setDirtyBits (md : LineTable) (line : Nat) (b : Bits) : LineTable :=
  { md with dirty := update md.dirty line b }

/-- `set_cache_line_valid`. -/
def setCacheLineValid (md : LineTable) (start stop line : Nat) : LineTable :=
  setValidBits md line (setRange (md.valid line) start stop)

/-- `__set_cache_line_invalid`. -/
def setCacheLineInvalid (g : Geometry) (waiters : Nat → Bool) (md : LineTable)
    (start stop line : Nat) : LineTable :=
  let md' := setValidBits md line (clearRange (md.valid line) start stop)
  if metadataTestValidAny g md' line || waiters line then md'
  else ocfMetadataRemoveFromCollision g md' line

/-- `set_cache_line_clean`. -/
def setCacheLineClean (m : Marked) (start stop line i : Nat) : Marked :=
  let m' := { m with md := setDirtyBits m.md line (clearRange (m.md.dirty line) start stop) }
  if metadataTestDirtySec m.md line start stop then m'.mark i else m'

/-- `set_cache_line_dirty`. -/
def setCacheLineDirty (m : Marked) (start stop line i : Nat) : Marked :=
  let m' := { m with md := setDirtyBits m.md line (setRange (m.md.dirty line) start stop) }
  if !metadataTestDirtyAllSec m.md line start stop then m'.mark i else m'

/-- `_ocf_purge_cache_line_sec`. -/
def ocfPurgeCacheLineSec (g : Geometry) (waiters : Nat → Bool) (m : Marked)
    (start stop line i : Nat) : Marked :=
  let m' := setCacheLineClean m start stop line i
  { m' with md := setCacheLineInvalid g waiters m'.md start stop line }

variable (g : Geometry) (req : Request)

/-- `ocf_set_valid_map_info`. -/
def ocfSetValidMapInfo (md : LineTable) : LineTable :=
  forRange (req.coreLineCount g) (fun md i => setCacheLineValid md (ocfMapLineStartBlock g req i)
    (ocfMapLineEndBlock g req i) (req.map i).collIdx) md

/-- `ocf_set_dirty_map_info`. -/
def ocfSetDirtyMapInfo (m : Marked) : Marked :=
  forRange (req.coreLineCount g) (fun m i => setCacheLineDirty m (ocfMapLineStartBlock g req i)
    (ocfMapLineEndBlock g req i) (req.map i).collIdx i) m

/-- `ocf_set_clean_map_info`. -/
def ocfSetCleanMapInfo (m : Marked) : Marked :=
  forRange (req.coreLineCount g) (fun m i => setCacheLineClean m (ocfMapLineStartBlock g req i)
    (ocfMapLineEndBlock g req i) (req.map i).collIdx i) m

/-- `ocf_purge_map_info`. -/
def ocfPurgeMapInfo (waiters : Nat → Bool) (m : Marked) : Marked :=
  forRange (req.coreLineCount g) (fun m i =>
    if (req.map i).status = .miss then m
    else ocfPurgeCacheLineSec g waiters m (ocfMapLineStartBlock g req i)
      (ocfMapLineEndBlock g req i) (req.map i).collIdx i) m

end OcfCache.CacheLine
