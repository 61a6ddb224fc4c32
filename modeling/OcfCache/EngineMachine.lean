import OcfCache.Space
import OcfCache.WoOverlay

/-!
# The engines as a machine

Embedding of the read, write, backfill, invalidate and discard engines and of
the cleaner. A request in flight is at one of the handlers and callbacks of
the source; one step runs a handler up to the next queue push, lock wait or
device transfer, or lets a transfer take effect and runs its completion. What
the environment decides (outcomes of transfers, locks obtained at once,
victims of a mapping) comes with the step. Volumes are not atomic, metadata is
persistent and its transfers succeed; memory is short only for the backfill
buffer. Statistics, hotness, the prefetcher and the flush engine, which
changes nothing that is modelled, are left out.
-/

namespace OcfCache.EngineMachine

open Loops Metadata Requests EngineCommon CacheLine EngineIo WoOverlay Space

/-- `ocf_req_cache_mode_t`. -/
inductive ReqCacheMode
  | wt
  | wb
  | wa
  | pt
  | wi
  | wo
  | fast
  deriving DecidableEq, Repr

/-- Entry points of the engines. -/
inductive EngineCb
  | readGeneric
  | readPt
  | readWo
  | readFast
  | writeWt
  | writeWb
  | writeWa
  | writeWi
  | writeFast
  deriving DecidableEq, Repr

/-- `ocf_cache_mode_to_engine_cb`. -/
def ocfCacheModeToEngineCb : ReqCacheMode → Dir → EngineCb
  | .pt, .read => .readPt
  | .wo, .read => .readWo
  | .fast, .read => .readFast
  | .wt, .read | .wb, .read | .wa, .read | .wi, .read => .readGeneric
  | .wt, .write => .writeWt
  | .wb, .write | .wo, .write => .writeWb
  | .wa, .write => .writeWa
  | .wi, .write | .pt, .write => .writeWi
  | .fast, .write => .writeFast

/-- Values of `engine_handler` that a request runs under its locks. -/
inductive Handler
  | readGenericDo
  | readPtDo
  | readWoDo
  | readFastDo
  | writeWbDo
  | writeWtDo
  | writeWiCoreWrite
  | writeWiUpdateAndFlushMetadata
  | discardStepDo
  | cleanerCheckMap
  deriving DecidableEq, Repr

/-- Handlers that have the lines of their request cleaned first. -/
inductive CleanFirst
  | readGenericDo
  | readPtDo
  | writeWiCoreWrite
  deriving DecidableEq, Repr

/-- The handler that is resumed after the cleaning. -/
def CleanFirst.handler : CleanFirst → Handler
  | .readGenericDo => .readGenericDo
  | .readPtDo => .readPtDo
  | .writeWiCoreWrite => .writeWiCoreWrite

/-- What follows a metadata flush. -/
inductive FlushCont
  | wb
  | wt
  | wi
  | discard
  | clean (back : Option CleanFirst)
  deriving DecidableEq, Repr

/-- Stages of the cleaner after it has its lines. -/
inductive CleanStage
  | checkMap
  | fireCache
  | fireCore
  | fireFlushCore
  | updateMetadata
  | fireFlushCache
  deriving DecidableEq, Repr

/-- Where a request is. -/
inductive Pc
  | call (cb : EngineCb)
  | wait (refresh : Bool) (h : Handler)
  | refresh (h : Handler)
  | run (h : Handler)
  | readHit
  | readMiss
  | readPt
  | readWoCore
  | readWoCache
  | writeWb
  | writeWbFlushMetadata
  | writeWt (cacheDone coreDone : Bool)
  | writeWtFlushMetadata
  | writeWi
  | writeWiNextPass
  | flush (k : FlushCont)
  | backfillDo
  | backfill
  | backfillUpdateMetadata
  | invalidateDo
  | cleanerFire
  | clean (stage : CleanStage) (back : Option CleanFirst)
  | discardCore
  | discardStep
  | discardFlushCache
  | done
  deriving DecidableEq, Repr

/-- A cache instance. -/
structure Config where
  /-- Layout of the cache. -/
  g : Geometry
  /-- Collision entries of a metadata page. -/
  entriesInPage : Nat
  /-- `use_submit_io_fast`. -/
  useSubmitIoFast : Bool
  /-- `ocf_user_part_get_max_size` of the partitions. -/
  maxSize : Nat → Nat
  /-- `MAX_TRIM_RQ_SIZE`, in blocks. -/
  maxTrim : Nat
  /-- `PAGE_SIZE`, in blocks. -/
  pageBlocks : Nat

/-- Collision entry on the cache device. -/
structure Persisted where
  /-- Core id and core line. -/
  coreInfo : Nat × Nat
  /-- Dirty blocks. -/
  dirty : Bits

/-- What all requests share. -/
structure Shared (D : Type*) where
  /-- Metadata in memory. -/
  md : LineTable
  /-- Collision metadata on the cache device. -/
  disk : Nat → Persisted
  /-- Data of the cache device. -/
  cacheDev : Nat → D
  /-- Data of the cores. -/
  coreDev : Nat → Nat → D
  /-- `refcnt.dirty`. -/
  dirtyRefs : Nat
  /-- `refcnt.dirty` is frozen. -/
  dirtyFrozen : Bool
  /-- `runtime->curr_size` of the user partitions. -/
  currSize : Nat → Int

/-- Map entry of a cleaning request. -/
structure CleanEntry where
  /-- Cache line. -/
  collIdx : Nat
  /-- Core of the line. -/
  coreId : Nat
  /-- Core line. -/
  coreLine : Nat
  /-- The line is cleaned. -/
  flush : Bool
  /-- A transfer of the line failed. -/
  invalid : Bool
  deriving DecidableEq, Repr

/-- What was submitted. -/
inductive Kind
  | io
  | discard
  | cleaner
  deriving DecidableEq, Repr

/-- A request in flight. -/
structure Flight (D : Type*) where
  /-- What was submitted. -/
  kind : Kind
  /-- The request. -/
  req : Request
  /-- `cache_mode` outside of the fast path. -/
  mode : ReqCacheMode
  /-- Next handler or callback. -/
  pc : Pc
  /-- Data buffer. -/
  data : Nat → D
  /-- `cp_data`. -/
  cpData : Option (Nat → D)
  /-- Cache lines locked. -/
  held : List Nat
  /-- `alock_rw`. -/
  alockRw : Dir
  /-- `dirty`: a reference on `refcnt.dirty` is held. -/
  dirty : Bool
  /-- `seq_cutoff`. -/
  seqCutoff : Bool
  /-- `force_pt`. -/
  forcePt : Bool
  /-- `wi_second_pass`. -/
  wiSecondPass : Bool
  /-- `info.cache_error`. -/
  cacheError : Bool
  /-- `info.core_error`. -/
  coreError : Bool
  /-- Result of `complete`, true for no error. -/
  outcome : Option Bool
  /-- Map of the cleaning request. -/
  job : List CleanEntry
  /-- Buffer of the cleaning request, by cache line. -/
  jobData : Nat → Nat → D
  /-- `info.flush_metadata` of the cleaning request. -/
  jobFlush : Bool
  /-- Error of the cleaning request. -/
  jobError : Bool
  /-- `discard.addr`. -/
  discardAddr : Nat
  /-- `discard.bytes`, in blocks. -/
  discardBlocks : Nat
  /-- `discard.handled`, in blocks. -/
  discardHandled : Nat

/-- What the environment decides in a step. -/
structure Choice (D : Type*) where
  /-- The transfer succeeds. -/
  ok : Bool
  /-- The locks are obtained at once. -/
  acquired : Bool
  /-- The partition of the request is enabled. -/
  enabled : Bool
  /-- `ocf_promotion_req_should_promote`. -/
  promote : Bool
  /-- `pending_read_misses_list_blocked`. -/
  blocked : Bool
  /-- The backfill buffer is allocated. -/
  alloc : Bool
  /-- Lines found for missing entries, and whether from the free list. -/
  victims : Nat → Option (Nat × Bool)
  /-- Requests wait for the cache line. -/
  waiters : Nat → Bool
  /-- Content left by a failed transfer. -/
  garbage : Nat → D
  /-- Occupancies after the step. -/
  sizes : Nat → Int
  /-- The cache transfer of a write-through completes first. -/
  cacheFirst : Bool

/-- Result of a step. -/
abbrev Next (D : Type*) := Shared D × Flight D

section Requests

variable (g : Geometry)

/-- `ocf_req_clear_map` and `ocf_req_clear_info`. The status zero is none of
the lookup results; a lookup follows. -/
def ocfReqClear (req : Request) : Request :=
  { req with map := fun _ => ⟨0, 0, 0, 0, .miss, false, false, false⟩, info := .zero }

/-- `ocf_engine_is_miss`. -/
def ocfEngineIsMiss (req : Request) : Bool := !ocfEngineIsHit g req

/-- Entries on which a lock acts. -/
def mappedLines (req : Request) : List Nat :=
  ((List.range (req.coreLineCount g)).filter fun i => (req.map i).status != .miss).map
    fun i => (req.map i).collIdx

/-- Entries locked by the mapping. -/
def remappedLines (req : Request) : List Nat :=
  ((List.range (req.coreLineCount g)).filter fun i => (req.map i).status == .remapped).map
    fun i => (req.map i).collIdx

/-- `ocf_user_part_move`. -/
def ocfUserPartMove (md : LineTable) (req : Request) : LineTable :=
  forRange (req.coreLineCount g) (fun md i =>
    if (req.map i).rePart then
      { md with partitionId :=
        Function.update md.partitionId (req.map i).collIdx req.partId }
    else md) md

/-- `ocf_user_part_move` if `ocf_engine_needs_repart`. -/
def rePart (md : LineTable) (req : Request) : LineTable :=
  if 0 < req.info.rePartNo then ocfUserPartMove g md req else md

/-- One entry of `ocf_space_managment_remap_do`, with the line found for it. -/
def remapEntry (victims : Nat → Option (Nat × Bool)) (s : Option (LineTable × Request)) (i : Nat) :
    Option (LineTable × Request) :=
  s.bind fun s =>
    if (s.2.map i).status ≠ .miss then some s
    else match victims i with
    | none => some s
    | some (line, free) =>
      if metadataTestDirty g s.1 line then none
      else
        let md := if free then s.1 else evictInvalidate g s.1 line
        let r := ocfMapCacheLine g md s.2 i line
        let req := r.2.setMap i { r.2.map i with status := .remapped }
        some (r.1, ocfEnginePatchReqInfo g req i)

/-- One entry of `ocf_engine_map_hndl_error`. -/
def mapHndlErrorEntry (waiters : Nat → Bool) (s : LineTable × Request) (i : Nat) :
    LineTable × Request :=
  if (s.2.map i).status = .remapped then
    (setCacheLineInvalid g waiters s.1 0 g.endBlock (s.2.map i).collIdx,
      s.2.setMap i { s.2.map i with status := .miss })
  else s

/-- All core lines are mapped. -/
def allMapped (req : Request) : Bool :=
  (List.range (req.coreLineCount g)).all fun i => (req.map i).status != .miss

/-- `ocf_engine_prepare_clines` up to the locks: the metadata, the request, and
whether there is no mapping error. -/
def ocfEnginePrepareClines {D : Type*} (md : LineTable) (req : Request) (ch : Choice D) :
    Option (LineTable × Request × Bool) :=
  if ch.enabled = false then some (md, req, false)
  else
    let req := ocfEngineLookup g md req
    if ocfEngineIsMapped g req then some (md, req, true)
    else if ch.promote = false then some (md, req, false)
    else
      (forRange (req.coreLineCount g) (remapEntry g ch.victims) (some (md, req))).map fun r =>
        if allMapped g r.2 then (r.1, r.2, true)
        else
          let e := forRange (r.2.coreLineCount g) (mapHndlErrorEntry g ch.waiters) r
          (e.1, e.2, false)

/-- Direction of `lock_clines`. -/
def lockClines (req : Request) : Dir :=
  if req.rw = .read ∧ ocfEngineIsHit g req = true then .read else .write

/-- `_ocf_write_wb_update_bits`. -/
def ocfWriteWbUpdateBits (m : Marked) (req : Request) : Marked :=
  let m := if ocfEngineIsMiss g req then { m with md := ocfSetValidMapInfo g req m.md } else m
  if ocfEngineIsDirtyAll g req then m else ocfSetDirtyMapInfo g req m

/-- `_ocf_write_wt_update_bits`. -/
def ocfWriteWtUpdateBits (m : Marked) (req : Request) : Marked :=
  let m := if ocfEngineIsMiss g req then { m with md := ocfSetValidMapInfo g req m.md } else m
  let m := if 0 < req.info.dirtyAny then ocfSetCleanMapInfo g req m else m
  { m with md := rePart g m.md req }

end Requests

section Cleaner

variable (g : Geometry)

/-- `ocf_cleaner_populate_req` with `_ocf_engine_clean_getter`. -/
def ocfEngineClean (md : LineTable) (req : Request) : List CleanEntry :=
  ((List.range (req.coreLineCount g)).filter fun i =>
    ((req.map i).status == .hit || (req.map i).status == .hitInvalid) &&
      metadataTestDirty g md (req.map i).collIdx).map fun i =>
    ⟨(req.map i).collIdx, (md.coreInfo (req.map i).collIdx).1, (md.coreInfo (req.map i).collIdx).2,
      false, false⟩

/-- `ocf_cleaner_populate_req` for given lines. -/
def ocfCleanerPopulateReq (md : LineTable) (lines : List Nat) : List CleanEntry :=
  lines.map fun x => ⟨x, (md.coreInfo x).1, (md.coreInfo x).2, false, false⟩

/-- `_ocf_cleaner_check_map` for an entry. -/
def checkEntry (md : LineTable) (e : CleanEntry) : CleanEntry :=
  if md.coreInfo e.collIdx = (e.coreId, e.coreLine) ∧ metadataTestDirty g md e.collIdx = true then
    { e with flush := true }
  else e

/-- A failed transfer spoils all lines that are cleaned. -/
def spoil (job : List CleanEntry) : List CleanEntry :=
  job.map fun e => if e.flush then { e with invalid := true } else e

/-- Lines that are still to be cleaned. -/
def CleanEntry.live (e : CleanEntry) : Bool := e.flush && !e.invalid

/-- Blocks that `_ocf_cleaner_core_submit_io` writes: the whole line if all of
it is valid, else its dirty blocks. -/
def coreSubmitBlock (md : LineTable) (line b : Nat) : Bool :=
  (testAll (md.valid line) 0 g.endBlock && metadataTestDirty g md line) ||
    (md.valid line b && md.dirty line b)

/-- `_ocf_cleaner_core_submit_io`. -/
def ocfCleanerCoreSubmitIo {D : Type*} (md : LineTable) (data : Nat → Nat → D)
    (dev : Nat → Nat → D) (e : CleanEntry) : Nat → Nat → D :=
  fun core a =>
    if core = e.coreId ∧ a / g.lineBlocks = e.coreLine ∧
        coreSubmitBlock g md e.collIdx (a % g.lineBlocks) = true then
      data e.collIdx (a % g.lineBlocks)
    else dev core a

/-- `_ocf_cleaner_fire_core`. -/
def ocfCleanerFireCore {D : Type*} (md : LineTable) (data : Nat → Nat → D) (job : List CleanEntry)
    (dev : Nat → Nat → D) : Nat → Nat → D :=
  (job.filter CleanEntry.live).foldl (ocfCleanerCoreSubmitIo g md data) dev

/-- One line in `_ocf_cleaner_update_metadata`; dirty lines mark a flush. -/
def cleanLine (s : LineTable × Bool) (e : CleanEntry) : LineTable × Bool :=
  if metadataTestDirty g s.1 e.collIdx then
    (setDirtyBits s.1 e.collIdx (clearRange (s.1.dirty e.collIdx) 0 g.endBlock), true)
  else s

/-- `_ocf_cleaner_update_metadata`. -/
def ocfCleanerUpdateMetadata (md : LineTable) (job : List CleanEntry) : LineTable × Bool :=
  (job.filter CleanEntry.live).foldl (cleanLine g) (md, false)

end Cleaner

variable {D : Type*} (cfg : Config)

/-- Lines that a handler is run under. -/
def lockLines (g : Geometry) (f : Flight D) : Handler → List Nat
  | .cleanerCheckMap => f.job.map CleanEntry.collIdx
  | _ => mappedLines g f.req

/-- `ocf_req_async_lock_rd` or `_wr`: run the handler, or wait for the locks. -/
def asyncLock (f : Flight D) (ch : Choice D) (rw : Dir) (refresh : Bool) (h : Handler) : Flight D :=
  if ch.acquired then
    { f with alockRw := rw, held := lockLines cfg.g f h, pc := .run h }
  else { f with alockRw := rw, held := remappedLines cfg.g f.req, pc := .wait refresh h }

/-- Locks are needed only if lines are mapped. -/
def asyncLockMapped (f : Flight D) (ch : Choice D) (rw : Dir) (refresh : Bool) (h : Handler) :
    Flight D :=
  if 0 < ocfEngineMappedCount f.req then asyncLock cfg f ch rw refresh h
  else { f with alockRw := rw, held := [], pc := .run h }

/-- `complete`, with the reference on `refcnt.dirty`. -/
def complete (s : Shared D) (f : Flight D) (ok : Bool) : Next D :=
  ({ s with dirtyRefs := if f.dirty then s.dirtyRefs - 1 else s.dirtyRefs },
    { f with outcome := some ok, dirty := false })

/-- Complete, unlock and put the request. -/
def finish (s : Shared D) (f : Flight D) (ok : Bool) : Next D :=
  let r := complete s f ok
  (r.1, { r.2 with held := [], pc := .done })

/-- Replace the metadata. -/
def Shared.setMd (s : Shared D) (md : LineTable) : Shared D := { s with md := md }

/-- `ocf_user_part_has_space`. -/
def ocfUserPartHasSpace (s : Shared D) (req : Request) : Bool :=
  decide (s.currSize req.partId +
    (req.info.rePartNo + ocfEngineUnmappedCount cfg.g req : Nat) ≤ cfg.maxSize req.partId)

/-- Core blocks of the request. -/
def coreRead (dev : Nat → Nat → D) (req : Request) : Nat → D := fun k => dev req.coreId (req.addr + k)

/-- Write the range of the request on its core. -/
def coreWrite (data : Nat → D) (dev : Nat → Nat → D) (req : Request) : Nat → Nat → D :=
  fun core a =>
    if core = req.coreId ∧ req.addr ≤ a ∧ a < req.addr + req.blocks then data (a - req.addr)
    else dev core a

/-- `ocf_engine_forward_cache_io_req` for a write. -/
def cacheWrite (data : Nat → D) (dev : Nat → D) (req : Request) : Nat → D :=
  writeBlocks data dev (blocksOf (ocfEngineForwardCacheIoReq cfg.g req))

/-- `ocf_engine_forward_cache_io_req` for a read. -/
def cacheRead (dev : Nat → D) (buf : Nat → D) (req : Request) : Nat → D :=
  readBlocks dev buf (blocksOf (ocfEngineForwardCacheIoReq cfg.g req))

/-- Transfers of `_ocf_backfill_do`. -/
def backfillWrite (data : Nat → D) (dev : Nat → D) (req : Request) : Nat → D :=
  writeBlocks data dev (blocksOf (ocfBackfillDo cfg.g req))

/-- The map of a request after `ocf_engine_lookup`. -/
def looked (s : Shared D) (f : Flight D) : Flight D :=
  { f with req := ocfEngineLookup cfg.g s.md f.req }

/-- Start over with a cleared map. -/
def restart (f : Flight D) (cb : EngineCb) : Flight D :=
  { f with req := ocfReqClear f.req, held := [], pc := .call cb }

/-- Engines that map the core lines of the request. -/
def callPrepared (s : Shared D) (f : Flight D) (ch : Choice D) (h : Handler)
    (onError : Flight D → Flight D) : Option (Next D) :=
  (ocfEnginePrepareClines cfg.g s.md f.req ch).map fun r =>
    let s := { s.setMd r.1 with currSize := ch.sizes }
    let f := { f with req := r.2.1 }
    if r.2.2 then (s, asyncLock cfg f ch (lockClines cfg.g f.req) true h) else (s, onError f)

/-- Entry points of the engines. -/
def call (s : Shared D) (f : Flight D) (ch : Choice D) : EngineCb → Option (Next D)
  | .readGeneric =>
    if ch.blocked then some (s, { f with forcePt := true, pc := .call .readPt })
    else callPrepared cfg s f ch .readGenericDo fun f =>
      { restart f .readPt with forcePt := true }
  | .readPt =>
    let f := looked cfg s f
    if f.seqCutoff && ocfEngineIsDirtyAll cfg.g f.req && !f.forcePt then
      some (s, restart f .readGeneric)
    else some (s, asyncLockMapped cfg f ch .read true .readPtDo)
  | .readWo =>
    some (s, asyncLockMapped cfg (looked cfg s f) ch .read true .readWoDo)
  | .readFast =>
    let f := looked cfg s f
    if ocfEngineIsHit cfg.g f.req && ocfUserPartHasSpace cfg s f.req then
      some (s, asyncLock cfg f ch .read true .readFastDo)
    else some (s, restart f (ocfCacheModeToEngineCb f.mode .read))
  | .writeWt => callPrepared cfg s f ch .writeWtDo fun f => restart f .writeWi
  | .writeWb => callPrepared cfg s f ch .writeWbDo fun f => restart f .writeWi
  | .writeWa =>
    let f := looked cfg s f
    if ocfEngineIsHit cfg.g f.req then some (s, restart f .writeWt)
    else some (s, restart f .writeWi)
  | .writeWi =>
    let h := if f.wiSecondPass then Handler.writeWiUpdateAndFlushMetadata else .writeWiCoreWrite
    some (s, asyncLockMapped cfg (looked cfg s f) ch .write false h)
  | .writeFast =>
    let f := looked cfg s f
    if ocfEngineIsMapped cfg.g f.req && ocfUserPartHasSpace cfg s f.req then
      some (s, asyncLock cfg f ch .write true .writeWbDo)
    else some (s, restart f (ocfCacheModeToEngineCb f.mode .write))

/-- `ocf_engine_clean`. -/
def startClean (s : Shared D) (f : Flight D) (h : CleanFirst) : Flight D :=
  { f with
    job := ocfEngineClean cfg.g s.md f.req
    jobFlush := false
    jobError := false
    pc := .clean .checkMap (some h) }

/-- `_ocf_write_wi_next_pass`. -/
def ocfWriteWiNextPass (s : Shared D) (f : Flight D) : Next D :=
  if f.wiSecondPass then finish s f true
  else (s, { f with wiSecondPass := true, held := [], pc := .call .writeWi })

/-- `_ocf_write_wi_io_flush_metadata` without an error. -/
def ocfWriteWiIoFlushMetadata (s : Shared D) (f : Flight D) : Next D :=
  if !f.wiSecondPass && ocfEngineIsMiss cfg.g f.req then
    (s, { f with pc := .writeWiNextPass })
  else finish s f true

/-- `_ocf_discard_finish_step`, after the locks are released. -/
def ocfDiscardFinishStep (f : Flight D) : Flight D :=
  let handled := f.discardHandled + f.req.blocks
  { f with
    discardHandled := handled
    held := []
    pc := if handled < f.discardBlocks then .discardStep else .discardFlushCache }

/-- `ocf_purge_map_info`. -/
def purge (s : Shared D) (f : Flight D) (ch : Choice D) : Next D :=
  let m := ocfPurgeMapInfo cfg.g f.req ch.waiters (.ofReq s.md f.req)
  ({ s with md := m.md, currSize := ch.sizes }, { f with req := m.toReq f.req })

/-- Handlers that run under the locks of the request. -/
def run (s : Shared D) (f : Flight D) (ch : Choice D) : Handler → Next D
  | .readGenericDo =>
    let miss := ocfEngineIsMiss cfg.g f.req
    if miss && f.alockRw = .read then (s, { f with pc := .run .readPtDo })
    else if miss && 0 < f.req.info.dirtyAny then (s, startClean cfg s f .readGenericDo)
    else
      let s := { s.setMd (rePart cfg.g s.md f.req) with currSize := ch.sizes }
      if miss then (s, { f with pc := .readMiss }) else (s, { f with pc := .readHit })
  | .readPtDo =>
    if 0 < f.req.info.dirtyAny then (s, startClean cfg s f .readPtDo)
    else
      ({ s.setMd (rePart cfg.g s.md f.req) with currSize := ch.sizes }, { f with pc := .readPt })
  | .readWoDo =>
    if ocfEngineIsHit cfg.g f.req then (s, { f with pc := .readHit })
    else (s, { f with pc := .readWoCore })
  | .readFastDo =>
    if ocfEngineIsMiss cfg.g f.req then (s, { f with pc := .run .readPtDo })
    else
      ({ s.setMd (rePart cfg.g s.md f.req) with currSize := ch.sizes }, { f with pc := .readHit })
  | .writeWbDo =>
    ({ s.setMd (rePart cfg.g s.md f.req) with currSize := ch.sizes }, { f with pc := .writeWb })
  | .writeWtDo =>
    let f' := { f with pc := .writeWt false false, cacheError := false, coreError := false }
    if 0 < f.req.info.dirtyAny then (s, f')
    else
      let m := ocfWriteWtUpdateBits cfg.g (.ofReq s.md f.req) f.req
      ({ s with md := m.md, currSize := ch.sizes }, { f' with req := m.toReq f.req })
  | .writeWiCoreWrite =>
    if 0 < f.req.info.dirtyAny then (s, startClean cfg s f .writeWiCoreWrite)
    else (s, { f with pc := .writeWi })
  | .writeWiUpdateAndFlushMetadata =>
    if ocfEngineMappedCount f.req = 0 then ocfWriteWiNextPass s f
    else
      let r := purge cfg s f ch
      if r.2.req.info.flushMetadata then (r.1, { r.2 with pc := .flush .wi })
      else ocfWriteWiIoFlushMetadata cfg r.1 r.2
  | .discardStepDo =>
    if ocfEngineMappedCount f.req = 0 then (s, ocfDiscardFinishStep f)
    else
      let r := purge cfg s f ch
      if r.2.req.info.flushMetadata then (r.1, { r.2 with pc := .flush .discard })
      else (r.1, ocfDiscardFinishStep r.2)
  | .cleanerCheckMap => (s, { f with pc := .clean .checkMap none })

/-- `_ocf_cleaner_finish_req`, and `_ocf_engine_clean_end` for a request that is
cleaned. -/
def cleanEnd (s : Shared D) (f : Flight D) : Option CleanFirst → Next D
  | none => (s, { f with held := [], pc := .done })
  | some h =>
    if f.jobError then finish s f false
    else
      (s, { f with
        req := { f.req with info := { f.req.info with dirtyAny := 0, dirtyAll := 0 } }
        pc := .run h.handler })

/-- Stages of the cleaner. -/
def clean (s : Shared D) (f : Flight D) (ch : Choice D) (back : Option CleanFirst) :
    CleanStage → Next D
  | .checkMap =>
    let job := f.job.map (checkEntry cfg.g s.md)
    if job.any CleanEntry.flush then (s, { f with job := job, pc := .clean .fireCache back })
    else cleanEnd s { f with job := job } back
  | .fireCache =>
    if ch.ok then
      (s, { f with
        jobData := fun line b => s.cacheDev (lineAddr cfg.g line + b)
        pc := .clean .fireCore back })
    else (s, { f with job := spoil f.job, jobError := true, pc := .clean .fireCore back })
  | .fireCore =>
    if ch.ok then
      ({ s with coreDev := ocfCleanerFireCore cfg.g s.md f.jobData f.job s.coreDev },
        { f with pc := .clean .fireFlushCore back })
    else
      ({ s with
        coreDev := ocfCleanerFireCore cfg.g s.md (fun _ b => ch.garbage b) f.job s.coreDev },
        { f with job := spoil f.job, jobError := true, pc := .clean .fireFlushCore back })
  | .fireFlushCore =>
    if ch.ok then (s, { f with pc := .clean .updateMetadata back })
    else (s, { f with job := spoil f.job, jobError := true, pc := .clean .updateMetadata back })
  | .updateMetadata =>
    let r := ocfCleanerUpdateMetadata cfg.g s.md f.job
    (s.setMd r.1, { f with jobFlush := r.2, pc := .flush (.clean back) })
  | .fireFlushCache => cleanEnd s f back

/-- Lines whose metadata is flushed. -/
def flushLines (f : Flight D) : FlushCont → List Nat
  | .clean _ =>
    if f.jobFlush then (f.job.filter CleanEntry.flush).map CleanEntry.collIdx else []
  | _ =>
    if f.req.info.flushMetadata then
      ((List.range (f.req.coreLineCount cfg.g)).filter fun i => (f.req.map i).flush).map
        fun i => (f.req.map i).collIdx
    else []

/-- `ocf_metadata_flush_do_asynch`: the metadata pages of the lines are written
as they are in memory. -/
def ocfMetadataFlush (md : LineTable) (disk : Nat → Persisted) (lines : List Nat) :
    Nat → Persisted :=
  fun x =>
    if lines.any fun y => decide (y / cfg.entriesInPage = x / cfg.entriesInPage) then
      ⟨md.coreInfo x, md.dirty x⟩
    else disk x

/-- Completion of a metadata flush. -/
def flushed (s : Shared D) (f : Flight D) (k : FlushCont) : Next D :=
  let s := { s with disk := ocfMetadataFlush cfg s.md s.disk (flushLines cfg f k) }
  match k with
  | .wb | .wt => finish s f true
  | .wi => ocfWriteWiIoFlushMetadata cfg s f
  | .discard => (s, ocfDiscardFinishStep f)
  | .clean back => (s, { f with pc := .clean .fireFlushCache back })

/-- `_ocf_write_wt_req_complete`, when the transfer left was the last. -/
def ocfWriteWtReqComplete (s : Shared D) (f : Flight D) : Next D :=
  if f.cacheError || f.coreError then
    let r := complete s f !f.coreError
    (r.1, { r.2 with pc := .invalidateDo })
  else if 0 < f.req.info.dirtyAny then (s, { f with pc := .writeWtFlushMetadata })
  else finish s f true

/-- A transfer of a write-through takes effect and completes. -/
def writeWt (s : Shared D) (f : Flight D) (ch : Choice D) (cacheDone coreDone : Bool) : Next D :=
  if !cacheDone && (ch.cacheFirst || coreDone) then
    let data := if ch.ok then f.data else ch.garbage
    let s := { s with cacheDev := cacheWrite cfg data s.cacheDev f.req }
    let f := { f with cacheError := f.cacheError || !ch.ok }
    if coreDone then ocfWriteWtReqComplete s f else (s, { f with pc := .writeWt true coreDone })
  else
    let data := if ch.ok then f.data else ch.garbage
    let s := { s with coreDev := coreWrite data s.coreDev f.req }
    let f := { f with coreError := f.coreError || !ch.ok }
    if cacheDone then ocfWriteWtReqComplete s f else (s, { f with pc := .writeWt cacheDone true })

/-- The rest of the discarded range that is whole lines. -/
def discardLines (g : Geometry) (addr blocks : Nat) : Nat × Nat :=
  let head := if addr % g.lineBlocks = 0 then 0 else g.lineBlocks - addr % g.lineBlocks
  (addr + head, (blocks - head) - (blocks - head) % g.lineBlocks)

/-- `_ocf_discard_core_complete` without an error. -/
def ocfDiscardCoreComplete (s : Shared D) (f : Flight D) : Next D :=
  if f.discardBlocks < cfg.g.lineBlocks then finish s f true
  else
    let d := discardLines cfg.g f.discardAddr f.discardBlocks
    let f := { f with discardAddr := d.1, discardBlocks := d.2 }
    if d.2 = 0 then finish s f true else (s, { f with pc := .discardStep })

/-- The next part of the discarded range. -/
def discardReq (f : Flight D) : Request :=
  ocfReqClear
    { f.req with
      addr := f.discardAddr + f.discardHandled
      blocks := min (f.discardBlocks - f.discardHandled) cfg.maxTrim }

/-- `_ocf_discard_step`. -/
def ocfDiscardStep (s : Shared D) (f : Flight D) (ch : Choice D) : Flight D :=
  asyncLockMapped cfg (looked cfg s { f with req := discardReq cfg f }) ch .write false .discardStepDo

/-- One step of a request in flight. -/
def step (s : Shared D) (f : Flight D) (ch : Choice D) : Option (Next D) :=
  match f.pc with
  | .call cb => call cfg s f ch cb
  | .wait refresh h =>
    some (s, { f with
      held := lockLines cfg.g f h
      pc := if refresh then .refresh h else .run h })
  | .refresh h =>
    let r := ocfEngineCheck cfg.g s.md f.req
    if r.1 then some (finish s { f with req := r.2 } false)
    else some (s, { f with req := r.2, pc := .run h })
  | .run h => some (run cfg s f ch h)
  | .readHit =>
    if ch.ok then
      some (finish s { f with data := cacheRead cfg s.cacheDev f.data f.req } true)
    else some (s, { f with pc := .run .readPtDo })
  | .readMiss =>
    if ch.ok then
      let data := coreRead s.coreDev f.req
      let r := complete s { f with data := data } true
      some (r.1, { r.2 with
        cpData := if ch.alloc then some data else none, pc := .backfillDo })
    else
      let r := complete s f false
      some (r.1, { r.2 with pc := .invalidateDo })
  | .readPt => some (finish s { f with data := coreRead s.coreDev f.req } ch.ok)
  | .readWoCore =>
    let f := { f with data := coreRead s.coreDev f.req }
    if ch.ok = false ∨ f.req.info.dirtyAny = 0 then some (finish s f ch.ok)
    else some (s, { f with pc := .readWoCache })
  | .readWoCache =>
    some (finish s { f with
      data := readBlocks s.cacheDev f.data (blocksOf (ocfReadWoCacheDo cfg.g s.md f.req)) } ch.ok)
  | .writeWb =>
    if ch.ok then
      some ({ s with cacheDev := cacheWrite cfg f.data s.cacheDev f.req },
        { f with pc := .writeWbFlushMetadata })
    else
      let r := complete s f false
      some ({ r.1 with cacheDev := cacheWrite cfg ch.garbage s.cacheDev f.req },
        { r.2 with pc := .invalidateDo })
  | .writeWbFlushMetadata =>
    let m := ocfWriteWbUpdateBits cfg.g (.ofReq s.md f.req) f.req
    let s := s.setMd m.md
    let f := { f with req := m.toReq f.req }
    if f.req.info.flushMetadata then some (s, { f with pc := .flush .wb })
    else some (finish s f true)
  | .writeWt cacheDone coreDone => some (writeWt cfg s f ch cacheDone coreDone)
  | .writeWtFlushMetadata =>
    let m := ocfWriteWtUpdateBits cfg.g (.ofReq s.md f.req) f.req
    let s := { s with md := m.md, currSize := ch.sizes }
    let f := { f with req := m.toReq f.req }
    if f.req.info.flushMetadata then some (s, { f with pc := .flush .wt })
    else some (finish s f true)
  | .writeWi =>
    if ch.ok then
      some ({ s with coreDev := coreWrite f.data s.coreDev f.req },
        { f with pc := .run .writeWiUpdateAndFlushMetadata })
    else
      some (finish { s with coreDev := coreWrite ch.garbage s.coreDev f.req } f false)
  | .writeWiNextPass => some (ocfWriteWiNextPass s f)
  | .flush k => some (flushed cfg s f k)
  | .backfillDo =>
    if f.cpData.isSome then some (s, { f with pc := .backfill })
    else some (s, { f with pc := .invalidateDo })
  | .backfill =>
    if ch.ok then
      some ({ s with cacheDev := backfillWrite cfg (f.cpData.getD f.data) s.cacheDev f.req },
        { f with pc := .backfillUpdateMetadata })
    else
      some ({ s with cacheDev := backfillWrite cfg ch.garbage s.cacheDev f.req },
        { f with pc := .invalidateDo })
  | .backfillUpdateMetadata =>
    some (s.setMd (ocfSetValidMapInfo cfg.g f.req s.md), { f with held := [], pc := .done })
  | .invalidateDo =>
    let r := purge cfg s f ch
    some (r.1, { r.2 with held := [], pc := .done })
  | .cleanerFire => some (s, asyncLock cfg f ch .read false .cleanerCheckMap)
  | .clean stage back => some (clean cfg s f ch back stage)
  | .discardCore =>
    let s := { s with coreDev := coreWrite ch.garbage s.coreDev f.req }
    if ch.ok then some (ocfDiscardCoreComplete cfg s f) else some (finish s f false)
  | .discardStep => some (s, ocfDiscardStep cfg s f ch)
  | .discardFlushCache => some (finish s f ch.ok)
  | .done => none

end OcfCache.EngineMachine
