import OcfCache.Requests
import OcfCache.Runs
import Mathlib.Data.Int.Bitwise

/-!
# One I/O of a core volume

The submit functions of `ocf_core.c` and the engines behind them, for one
request. A function is one step up to the point where it hands the request
over, to a queue, to a lock, to the cleaner or to a device; the `ocf_req_put`
at its end comes later, in any order with what it started. Outcomes of
lookups, locks, allocations and devices are arbitrary. Statistics, locks and
the data of the lines are left out.
-/

namespace OcfCache.CoreIo

open Requests (ReqInfo)

/-- What was submitted. -/
inductive Op
  /-- `ocf_core_volume_submit_io`. -/
  | io
  /-- `ocf_core_volume_submit_flush`. -/
  | flush
  /-- `ocf_core_volume_submit_discard`. -/
  | discard
  deriving DecidableEq

/-- `rw`. -/
inductive Rw
  /-- `OCF_READ`. -/
  | read
  /-- `OCF_WRITE`. -/
  | write
  deriving DecidableEq

/-- `ocf_req_cache_mode_t`; `max` has no engine. -/
inductive Mode
  | wt
  | wb
  | wa
  | pt
  | wi
  | wo
  | max
  deriving DecidableEq

/-- Functions that run on a request, from a queue or called. -/
inductive Handler
  | readGeneric
  | readGenericDo
  | readPt
  | readPtDo
  | readWo
  | readWoDo
  | readWoCacheDo
  | readFastDo
  | writeWt
  | writeWtDo
  | writeWtDoFlushMetadata
  | writeWb
  | writeWbDo
  | writeWbDoFlushMetadata
  | writeWa
  | writeWi
  | writeWiCoreWrite
  | writeWiUpdateAndFlushMetadata
  | writeWiNextPass
  | engineFlush
  | engineDiscard
  | discardStep
  | discardStepDo
  | discardFlushCache
  | backfillDo
  | backfillUpdateMetadata
  | invalidateDo
  | engineRefresh
  deriving DecidableEq

/-- Completions of a device or of a metadata flush. -/
inductive Callback
  | readGenericHitComplete
  | readGenericMissComplete
  | readPtComplete
  | readWoCoreComplete
  | readWoCacheComplete
  | readFastComplete
  | writeWbComplete
  | writeWbIoFlushMetadata
  | writeWtDoFlushMetadataCompl
  | writeWiCoreComplete
  | writeWiIoFlushMetadata
  | backfillComplete
  | invalidateReq
  | discardCoreComplete
  | discardCacheFlushComplete
  | d2cCompletion
  deriving DecidableEq

/-- Completions of two parts that `req_remaining` counts. -/
inductive Pair
  /-- The cache and the core of `_ocf_write_wt_submit`. -/
  | writeWt
  /-- The core and the cache of `ocf_engine_flush`. -/
  | engineFlush
  /-- The metadata flush and the rest of `_ocf_discard_step_do`. -/
  | discardStep
  deriving DecidableEq

/-- Where the request is. -/
inductive Stage
  /-- In no engine. -/
  | idle
  /-- A function is called. -/
  | call (h : Handler)
  /-- It is in a queue with its `engine_handler`. -/
  | queued
  /-- It waits for its locks; the resume function refreshes it, or pushes it. -/
  | locking (refresh : Bool)
  /-- `ocf_engine_clean` runs. -/
  | cleaning
  /-- A device or a metadata flush has it. -/
  | io (cb : Callback)
  /-- Two parts are under way, each until its flag is cleared. -/
  | pair (p : Pair) (first second : Bool)
  /-- The completion of its metadata flush never comes. -/
  | lost
  deriving DecidableEq

/-- What the submit function does next. -/
inductive Sub
  /-- It begins. -/
  | start
  /-- It allocates the map. -/
  | alloc
  /-- It resolves the cache mode. -/
  | resolve
  /-- It tries the fast path. -/
  | fast (mode : Mode)
  /-- It calls `ocf_engine_hndl_req`. -/
  | slow (mode : Mode)
  /-- It prefetches and puts its own reference. -/
  | prefetch
  /-- It has returned. -/
  | returned
  deriving DecidableEq

/-- What does not change for the request. -/
structure Cache where
  /-- `ocf_line_size`. -/
  lineSize : Nat
  /-- A line is not empty. -/
  lineSize_pos : 0 < lineSize
  /-- `metadata.is_volatile`. -/
  isVolatile : Bool
  /-- `ocf_volume_is_atomic`. -/
  isAtomic : Bool
  /-- `use_submit_io_fast`. -/
  useSubmitIoFast : Bool

/-- The request, with what happened to it. -/
structure Req where
  /-- What was submitted. -/
  op : Op
  /-- `rw`. -/
  rw : Rw
  /-- `d2c`. -/
  d2c : Bool
  /-- `ref_count`. -/
  refCount : Int
  /-- Errors that the end callback was called with. -/
  ends : List Int
  /-- `dirty`. -/
  dirty : Bool
  /-- `refcnt.dirty` of the cache. -/
  dirtyRefs : Int
  /-- `error`. -/
  error : Int
  /-- `core_line_count`. -/
  coreLineCount : Nat
  /-- `info`. -/
  info : ReqInfo
  /-- `info.cache_error`. -/
  cacheError : Bool
  /-- `info.core_error`. -/
  coreError : Bool
  /-- `alock_rw` is `OCF_READ`. -/
  alockRead : Bool
  /-- `seq_cutoff`. -/
  seqCutoff : Bool
  /-- `force_pt`. -/
  forcePt : Bool
  /-- `wi_second_pass`. -/
  wiSecondPass : Bool
  /-- `cp_data` is there. -/
  cpData : Bool
  /-- `engine_handler`. -/
  handler : Handler
  /-- `priv`, the handler behind a refresh. -/
  priv : Option Handler
  /-- `req_remaining`. -/
  reqRemaining : Int
  /-- `bytes`. -/
  bytes : Nat
  /-- `discard.addr`. -/
  discardAddr : Nat
  /-- `discard.bytes`. -/
  discardBytes : Nat
  /-- `discard.handled`. -/
  discardHandled : Nat
  /-- The submit function. -/
  sub : Sub
  /-- The engine. -/
  stage : Stage
  /-- Functions that have handed the request over and will put it. -/
  tails : Nat
  /-- The submit function has taken the reference for the completion. -/
  got : Bool
  /-- References that error paths have left behind. -/
  leaked : Nat

/-- Result of `ocf_req_async_lock_rd` and `ocf_req_async_lock_wr`. -/
inductive Lock
  /-- `OCF_LOCK_ACQUIRED`. -/
  | acquired
  /-- `OCF_LOCK_NOT_ACQUIRED`. -/
  | notAcquired
  /-- An error. -/
  | error (e : Int)

/-- Result of `ocf_engine_prepare_clines`. -/
inductive Prepared
  /-- The lines are mapped, and were to be locked. -/
  | lock (l : Lock)
  /-- `ocf_req_test_mapping_error`. -/
  | mappingError

/-- Result of `ocf_metadata_flush_do_asynch`. -/
inductive Flush
  /-- It is under way. -/
  | submitted
  /-- Its context cannot be allocated, and the completion is called with that. -/
  | noMem
  /-- A page I/O could not be submitted, or is stuck: the completion never comes. -/
  | lost

/-- What the outside decides in a step. -/
structure Outcome where
  /-- Result of `ocf_core_validate_io`. -/
  validate : Int
  /-- `ocf_cache_is_standby`. -/
  standby : Bool
  /-- The map can be allocated. -/
  mapAllocated : Bool
  /-- The resolved cache mode. -/
  mode : Mode
  /-- `ocf_core_seq_cutoff_check`. -/
  seqCutoff : Bool
  /-- `refcnt.dirty` is frozen. -/
  dirtyFrozen : Bool
  /-- Result of the lookup. -/
  info : ReqInfo
  /-- `ocf_user_part_has_space`. -/
  partHasSpace : Bool
  /-- `pending_read_misses_list_blocked`. -/
  readMissesBlocked : Bool
  /-- Result of the lock. -/
  lock : Lock
  /-- Result of `ocf_engine_prepare_clines`. -/
  prepared : Prepared
  /-- The backfill buffer can be allocated and locked. -/
  cpData : Bool
  /-- Result of `ocf_engine_check`. -/
  checkOk : Bool
  /-- Result of `env_memset` of the map. -/
  memset : Int
  /-- Result of the metadata flush. -/
  flush : Flush

section Prims

variable (r : Req)

/-- `ocf_engine_is_hit`. -/
def Req.isHit : Bool := r.info.hitNo = r.coreLineCount

/-- `ocf_engine_is_mapped`. -/
def Req.isMapped : Bool := r.info.hitNo + r.info.invalidNo = r.coreLineCount

/-- `ocf_engine_mapped_count` is not zero. -/
def Req.mappedAny : Bool := r.info.hitNo + r.info.invalidNo ≠ 0

/-- `ocf_engine_is_dirty_all`. -/
def Req.isDirtyAll : Bool := r.info.dirtyAll = r.coreLineCount

/-- `info.dirty_any`. -/
def Req.dirtyAny : Bool := r.info.dirtyAny ≠ 0

/-- `ocf_req_get`. -/
def Req.get : Req := { r with refCount := r.refCount + 1 }

/-- `ocf_req_put`. -/
def Req.put : Req := { r with refCount := r.refCount - 1 }

/-- The request is somewhere else. -/
def Req.goto (stage : Stage) : Req := { r with stage }

/-- The function goes on to its `ocf_req_put`. -/
def Req.later : Req := { r with tails := r.tails + 1 }

/-- The engine puts the request and is done with it. -/
def Req.done : Req := r.put.goto .idle

/-- `ocf_queue_push_req_cb`. -/
def Req.pushCb (h : Handler) : Req := { r with handler := h }.goto .queued

/-- `ocf_io_end_func`. -/
def ocfIoEndFunc (error : Int) : Req := { r with ends := r.ends ++ [error] }

/-- `dec_counter_if_req_was_dirty`. -/
def decCounterIfReqWasDirty : Req :=
  if r.dirty then { r with dirty := false, dirtyRefs := r.dirtyRefs - 1 } else r

/-- `ocf_req_complete`. -/
def ocfReqComplete (error : Int) : Req := (decCounterIfReqWasDirty (ocfIoEndFunc r error)).put

/-- The request is completed and put. -/
def Req.finish (error : Int) : Req := (ocfReqComplete r error).done

/-- `ocf_req_clear`. -/
def Req.clear : Req := { r with info := .zero, cacheError := false, coreError := false, reqRemaining := 0 }

/-- Behind a lock: a function is called, the request waits, or it ends. -/
def Req.withLock (l : Lock) (refresh : Bool) (h : Handler) : Req :=
  match l with
  | .acquired => r.goto (.call h)
  | .notAcquired => r.goto (.locking refresh)
  | .error e => r.finish e

/-- `ocf_metadata_flush_do_asynch`. -/
def Req.flushMetadata (f : Flush) (cb : Callback) (complete : Req → Int → Req) : Req :=
  match f with
  | .submitted => r.goto (.io cb)
  | .noMem => complete r errNoMem
  | .lost => r.goto .lost

end Prims

section Engines

variable (c : Cache) (r : Req) (o : Outcome)

/-- `_ocf_invalidate_req`. -/
def ocfInvalidateReq (_error : Int) : Req := r.done

/-- `_ocf_invalidate_do`. -/
def ocfInvalidateDo : Req :=
  if c.isAtomic && r.info.flushMetadata then r.flushMetadata o.flush .invalidateReq ocfInvalidateReq
  else ocfInvalidateReq r 0

/-- `_ocf_engine_clean_end`. -/
def ocfEngineCleanEnd (error : Int) : Req :=
  if error ≠ 0 then r.finish error
  else { r with info := { r.info with dirtyAny := 0, dirtyAll := 0 } }.goto .queued

/-- `_ocf_engine_refresh`. -/
def ocfEngineRefresh : Req :=
  let r := { r with info := o.info }
  if o.checkOk then
    match r.priv with
    | some h => { r with handler := h, priv := none }.goto (.call h)
    | none => r
  else { r with error := errInval }.finish errInval

/-- `ocf_engine_on_resume`. -/
def ocfEngineOnResume : Req := { r with priv := some r.handler }.pushCb .engineRefresh

/-- `_ocf_backfill_update_metadata`. -/
def ocfBackfillUpdateMetadata : Req := r.done

/-- `_ocf_backfill_complete`. -/
def ocfBackfillComplete (error : Int) : Req :=
  if error ≠ 0 then r.pushCb .invalidateDo else r.pushCb .backfillUpdateMetadata

/-- `_ocf_backfill_do`. -/
def ocfBackfillDo : Req :=
  if r.cpData then r.goto (.io .backfillComplete) else ocfBackfillComplete r errNoMem

/-- `_ocf_read_generic_hit_complete`. -/
def ocfReadGenericHitComplete (error : Int) : Req :=
  if error ≠ 0 then r.pushCb .readPtDo else r.finish error

/-- `_ocf_read_generic_miss_complete`. -/
def ocfReadGenericMissComplete (error : Int) : Req :=
  if error ≠ 0 then { ocfReqComplete r error with cpData := false }.pushCb .invalidateDo
  else (ocfReqComplete r error).pushCb .backfillDo

/-- `_ocf_read_generic_do`. -/
def ocfReadGenericDo : Req :=
  if !r.isHit && r.alockRead then r.goto (.call .readPtDo)
  else
    let r := r.get
    if !r.isHit && r.dirtyAny then (r.goto .cleaning).later
    else if r.isHit then (r.goto (.io .readGenericHitComplete)).later
    else ({ r with cpData := o.cpData }.goto (.io .readGenericMissComplete)).later

/-- `ocf_read_generic`. -/
def ocfReadGeneric : Req :=
  if o.readMissesBlocked then { r with forcePt := true }.goto (.call .readPt)
  else
    let r := { r.get with handler := .readGenericDo, info := o.info }
    match o.prepared with
    | .lock l => ({ r with alockRead := r.isHit }.withLock l true .readGenericDo).later
    | .mappingError => ({ r.clear with forcePt := true }.goto (.call .readPt)).later

/-- `_ocf_read_pt_complete`. -/
def ocfReadPtComplete (error : Int) : Req := r.finish error

/-- `ocf_read_pt_do`. -/
def ocfReadPtDo : Req :=
  let r := r.get
  if r.dirtyAny then (r.goto .cleaning).later else (r.goto (.io .readPtComplete)).later

/-- `ocf_read_pt`. -/
def ocfReadPt : Req :=
  let r := { r.get with handler := .readPtDo, info := o.info }
  if r.seqCutoff && r.isDirtyAll && !r.forcePt then (r.clear.goto (.call .readGeneric)).later
  else if r.mappedAny then ({ r with alockRead := true }.withLock o.lock true .readPtDo).later
  else (r.withLock .acquired true .readPtDo).later

/-- `ocf_read_wo_cache_complete`. -/
def ocfReadWoCacheComplete (error : Int) : Req :=
  let r := if error ≠ 0 then { r with error := if r.error ≠ 0 then r.error else error } else r
  r.finish r.error

/-- `ocf_read_wo_cache_do`. -/
def ocfReadWoCacheDo : Req := r.goto (.io .readWoCacheComplete)

/-- `_ocf_read_wo_core_complete`. -/
def ocfReadWoCoreComplete (error : Int) : Req :=
  if error ≠ 0 ∨ r.dirtyAny = false then r.finish error else r.pushCb .readWoCacheDo

/-- `ocf_read_wo_do`. -/
def ocfReadWoDo : Req :=
  let r := r.get
  if r.isHit then (r.goto (.io .readGenericHitComplete)).later else (r.goto (.io .readWoCoreComplete)).later

/-- `ocf_read_wo`. -/
def ocfReadWo : Req :=
  let r := { r.get with handler := .readWoDo, info := o.info }
  if r.mappedAny then ({ r with alockRead := true }.withLock o.lock true .readWoDo).later
  else (r.withLock .acquired true .readWoDo).later

/-- `_ocf_write_wt_do_flush_metadata_compl`. -/
def ocfWriteWtDoFlushMetadataCompl (error : Int) : Req := r.finish error

/-- `ocf_write_wt_do_flush_metadata`. -/
def ocfWriteWtDoFlushMetadata : Req :=
  if r.info.flushMetadata then r.flushMetadata o.flush .writeWtDoFlushMetadataCompl ocfWriteWtDoFlushMetadataCompl
  else ocfWriteWtDoFlushMetadataCompl r 0

/-- `_ocf_write_wt_req_complete` of the last part. -/
def ocfWriteWtReqComplete : Req :=
  if r.cacheError || r.coreError then (ocfReqComplete r r.error).pushCb .invalidateDo
  else if r.dirtyAny then r.pushCb .writeWtDoFlushMetadata
  else r.finish 0

/-- `_ocf_write_wt_cache_complete` before `_ocf_write_wt_req_complete`. -/
def ocfWriteWtCacheComplete (error : Int) : Req := if error ≠ 0 then { r with cacheError := true } else r

/-- `_ocf_write_wt_core_complete` before `_ocf_write_wt_req_complete`. -/
def ocfWriteWtCoreComplete (error : Int) : Req :=
  if error ≠ 0 then { r with coreError := true, error } else r

/-- `_ocf_write_wt_do`. -/
def ocfWriteWtDo : Req := ({ r.get with reqRemaining := 2 }.goto (.pair .writeWt true true)).later

/-- `ocf_write_wt`. -/
def ocfWriteWt : Req :=
  let r := { r.get with handler := .writeWtDo, info := o.info }
  match o.prepared with
  | .lock l => ({ r with alockRead := false }.withLock l true .writeWtDo).later
  | .mappingError => (r.clear.goto (.call .writeWi)).later

/-- `_ocf_write_wb_io_flush_metadata`. -/
def ocfWriteWbIoFlushMetadata (error : Int) : Req := r.finish error

/-- `ocf_write_wb_do_flush_metadata`. -/
def ocfWriteWbDoFlushMetadata : Req :=
  if r.info.flushMetadata then r.flushMetadata o.flush .writeWbIoFlushMetadata ocfWriteWbIoFlushMetadata
  else ocfWriteWbIoFlushMetadata r 0

/-- `_ocf_write_wb_complete`. -/
def ocfWriteWbComplete (error : Int) : Req :=
  if error ≠ 0 then (ocfReqComplete r error).pushCb .invalidateDo else r.pushCb .writeWbDoFlushMetadata

/-- `ocf_write_wb_do`. -/
def ocfWriteWbDo : Req := (r.get.goto (.io .writeWbComplete)).later

/-- `ocf_write_wb`. -/
def ocfWriteWb : Req :=
  let r := { r.get with handler := .writeWbDo, info := o.info }
  match o.prepared with
  | .lock l => ({ r with alockRead := false }.withLock l true .writeWbDo).later
  | .mappingError => (r.clear.goto (.call .writeWi)).later

/-- `ocf_write_wa`. -/
def ocfWriteWa : Req :=
  let r := { r.get with info := o.info }
  (r.clear.goto (.call (if r.isHit then .writeWt else .writeWi))).later

/-- `_ocf_write_wi_next_pass`. -/
def ocfWriteWiNextPass : Req :=
  if r.wiSecondPass then r.finish 0 else { r with wiSecondPass := true }.goto (.call .writeWi)

/-- `_ocf_write_wi_io_flush_metadata`. -/
def ocfWriteWiIoFlushMetadata (error : Int) : Req :=
  if error = 0 ∧ r.wiSecondPass = false ∧ r.isHit = false then r.pushCb .writeWiNextPass else r.finish error

/-- `ocf_write_wi_update_and_flush_metadata`. -/
def ocfWriteWiUpdateAndFlushMetadata : Req :=
  if !r.mappedAny then ocfWriteWiNextPass r
  else if r.info.flushMetadata then r.flushMetadata o.flush .writeWiIoFlushMetadata ocfWriteWiIoFlushMetadata
  else ocfWriteWiIoFlushMetadata r 0

/-- `_ocf_write_wi_core_complete`. -/
def ocfWriteWiCoreComplete (error : Int) : Req :=
  if error ≠ 0 then r.finish error else r.pushCb .writeWiUpdateAndFlushMetadata

/-- `_ocf_write_wi_core_write`. -/
def ocfWriteWiCoreWrite : Req :=
  let r := r.get
  if r.dirtyAny then (r.goto .cleaning).later else (r.goto (.io .writeWiCoreComplete)).later

/-- `ocf_write_wi`. -/
def ocfWriteWi : Req :=
  let h : Handler := if r.wiSecondPass then .writeWiUpdateAndFlushMetadata else .writeWiCoreWrite
  let r := { r.get with handler := h, info := o.info }
  if r.mappedAny then ({ r with alockRead := false }.withLock o.lock false h).later
  else (r.withLock .acquired false h).later

/-- `_ocf_read_fast_complete`. -/
def ocfReadFastComplete (error : Int) : Req := if error ≠ 0 then r.pushCb .readPtDo else r.finish error

/-- `_ocf_read_fast_do`. -/
def ocfReadFastDo : Req :=
  if !r.isHit then r.goto (.call .readPtDo) else (r.get.goto (.io .readFastComplete)).later

/-- `ocf_read_fast`, with its result. -/
def ocfReadFast : Req × Bool :=
  let r := { r.get with handler := .readFastDo, info := o.info }
  if r.isHit && o.partHasSpace then
    (({ r with alockRead := true }.withLock o.lock true .readFastDo).later, true)
  else (r.put, false)

/-- `ocf_write_fast`, with its result. -/
def ocfWriteFast : Req × Bool :=
  let r := { r.get with handler := .writeWbDo, info := o.info }
  if r.isMapped && o.partHasSpace then
    (({ r with alockRead := false }.withLock o.lock true .writeWbDo).later, true)
  else (r.put, false)

/-- `_ocf_engine_flush_complete` of the last part. -/
def ocfEngineFlushComplete : Req := r.finish r.error

/-- `ocf_engine_flush`. -/
def ocfEngineFlush : Req := ({ r.get with reqRemaining := 2 }.goto (.pair .engineFlush true true)).later

/-- `_ocf_discard_complete_req`. -/
def ocfDiscardCompleteReq (error : Int) : Req := r.finish error

/-- `_ocf_discard_flush_cache`. -/
def ocfDiscardFlushCache : Req := r.goto (.io .discardCacheFlushComplete)

/-- `_ocf_discard_finish_step`. -/
def ocfDiscardFinishStep : Req :=
  let r := { r with discardHandled := r.discardHandled + r.bytes }
  if r.discardHandled < r.discardBytes then r.pushCb .discardStep
  else if !c.isVolatile then r.pushCb .discardFlushCache
  else ocfDiscardCompleteReq r 0

/-- `_ocf_discard_step_complete` of the last part. -/
def ocfDiscardStepComplete (error : Int) : Req :=
  if error ≠ 0 then ocfDiscardCompleteReq r error else ocfDiscardFinishStep c r

/-- `_ocf_discard_step_do` up to its own `_ocf_discard_step_complete`. -/
def ocfDiscardStepDo : Req :=
  let r := { r.get with reqRemaining := 1 }
  if r.mappedAny && r.info.flushMetadata then
    match o.flush with
    | .submitted => ({ r with reqRemaining := 2 }.goto (.pair .discardStep true true)).later
    | .noMem => (r.goto (.pair .discardStep false true)).later
    | .lost => (r.goto .lost).later
  else (r.goto (.pair .discardStep false true)).later

/-- `_ocf_discard_step`. -/
def ocfDiscardStep : Req :=
  let r := { r with bytes := min (r.discardBytes - r.discardHandled) maxTrimRqSize, handler := .discardStepDo }
  if o.memset ≠ 0 then ocfDiscardCompleteReq r o.memset
  else
    let r := { r with info := o.info }
    if r.mappedAny then
      match o.lock with
      | .acquired => r.goto (.call .discardStepDo)
      | .notAcquired => r.goto (.locking false)
      | .error e => ocfDiscardFinishStep c { r with error := r.error.lor e }
    else r.goto (.call .discardStepDo)

/-- `_ocf_discard_core_complete`. -/
def ocfDiscardCoreComplete (error : Int) : Req :=
  if error ≠ 0 then ocfDiscardCompleteReq r error
  else if r.discardBytes < c.lineSize then ocfDiscardCompleteReq r 0
  else
    let skip := (c.lineSize - r.discardAddr % c.lineSize) % c.lineSize
    let bytes := r.discardBytes - skip
    let r := { r with discardAddr := r.discardAddr + skip, discardBytes := bytes - bytes % c.lineSize }
    if r.discardBytes = 0 then ocfDiscardCompleteReq r 0 else r.pushCb .discardStep

/-- `ocf_engine_discard`. -/
def ocfEngineDiscard : Req :=
  match r.rw with
  | .read => ocfDiscardCompleteReq r errInval
  | .write => ({ r.get with bytes := r.discardBytes }.goto (.io .discardCoreComplete)).later

/-- `_ocf_d2c_completion`. -/
def ocfD2cCompletion (error : Int) : Req := r.finish error

/-- `ocf_d2c_io_fast`. -/
def ocfD2cIoFast : Req := (r.get.get.goto (.io .d2cCompletion)).later

/-- `ocf_d2c_flush_fast` and `ocf_d2c_discard_fast`. -/
def ocfD2cFast : Req := r.get.goto (.io .d2cCompletion)

end Engines

section Dispatch

variable (c : Cache) (r : Req) (o : Outcome)

/-- The function is called. -/
def Handler.run : Handler → Req
  | .readGeneric => ocfReadGeneric r o
  | .readGenericDo => ocfReadGenericDo r o
  | .readPt => ocfReadPt r o
  | .readPtDo => ocfReadPtDo r
  | .readWo => ocfReadWo r o
  | .readWoDo => ocfReadWoDo r
  | .readWoCacheDo => ocfReadWoCacheDo r
  | .readFastDo => ocfReadFastDo r
  | .writeWt => ocfWriteWt r o
  | .writeWtDo => ocfWriteWtDo r
  | .writeWtDoFlushMetadata => ocfWriteWtDoFlushMetadata r o
  | .writeWb => ocfWriteWb r o
  | .writeWbDo => ocfWriteWbDo r
  | .writeWbDoFlushMetadata => ocfWriteWbDoFlushMetadata r o
  | .writeWa => ocfWriteWa r o
  | .writeWi => ocfWriteWi r o
  | .writeWiCoreWrite => ocfWriteWiCoreWrite r
  | .writeWiUpdateAndFlushMetadata => ocfWriteWiUpdateAndFlushMetadata r o
  | .writeWiNextPass => ocfWriteWiNextPass r
  | .engineFlush => ocfEngineFlush r
  | .engineDiscard => ocfEngineDiscard r
  | .discardStep => ocfDiscardStep c r o
  | .discardStepDo => ocfDiscardStepDo r o
  | .discardFlushCache => ocfDiscardFlushCache r
  | .backfillDo => ocfBackfillDo r
  | .backfillUpdateMetadata => ocfBackfillUpdateMetadata r
  | .invalidateDo => ocfInvalidateDo c r o
  | .engineRefresh => ocfEngineRefresh r o

/-- The completion is called. -/
def Callback.run (error : Int) : Callback → Req
  | .readGenericHitComplete => ocfReadGenericHitComplete r error
  | .readGenericMissComplete => ocfReadGenericMissComplete r error
  | .readPtComplete => ocfReadPtComplete r error
  | .readWoCoreComplete => ocfReadWoCoreComplete r error
  | .readWoCacheComplete => ocfReadWoCacheComplete r error
  | .readFastComplete => ocfReadFastComplete r error
  | .writeWbComplete => ocfWriteWbComplete r error
  | .writeWbIoFlushMetadata => ocfWriteWbIoFlushMetadata r error
  | .writeWtDoFlushMetadataCompl => ocfWriteWtDoFlushMetadataCompl r error
  | .writeWiCoreComplete => ocfWriteWiCoreComplete r error
  | .writeWiIoFlushMetadata => ocfWriteWiIoFlushMetadata r error
  | .backfillComplete => ocfBackfillComplete r error
  | .invalidateReq => ocfInvalidateReq r error
  | .discardCoreComplete => ocfDiscardCoreComplete c r error
  | .discardCacheFlushComplete => ocfDiscardCompleteReq r error
  | .d2cCompletion => ocfD2cCompletion r error

/-- What a part writes before `req_remaining` is decremented. -/
def Pair.note (second : Bool) (error : Int) : Pair → Req
  | .writeWt => if second then ocfWriteWtCoreComplete r error else ocfWriteWtCacheComplete r error
  | .engineFlush =>
    if error ≠ 0 then { r with error := if r.error ≠ 0 then r.error else error } else r
  | .discardStep => r

/-- The completion of the last part; the part of `_ocf_discard_step_do` has no error. -/
def Pair.last (second : Bool) (error : Int) : Pair → Req
  | .writeWt => ocfWriteWtReqComplete r
  | .engineFlush => ocfEngineFlushComplete r
  | .discardStep => ocfDiscardStepComplete c r (if second then 0 else error)

/-- The completion of a part is called. -/
def Pair.run (p : Pair) (first second which : Bool) (error : Int) : Req :=
  let r := p.note r which error
  let r := { r with reqRemaining := r.reqRemaining - 1 }
  if r.reqRemaining = 0 then p.last c r which error
  else r.goto (.pair p (first && which) (second && !which))

end Dispatch

section Submit

variable (c : Cache) (r : Req) (o : Outcome)

/-- `ocf_cache_mode_to_engine_cb`. -/
def ocfCacheModeToEngineCb (mode : Mode) (rw : Rw) : Option Handler :=
  match mode, rw with
  | .max, _ => none
  | .wt, .read => some .readGeneric
  | .wb, .read => some .readGeneric
  | .wa, .read => some .readGeneric
  | .wi, .read => some .readGeneric
  | .pt, .read => some .readPt
  | .wo, .read => some .readWo
  | .wt, .write => some .writeWt
  | .wb, .write => some .writeWb
  | .wa, .write => some .writeWa
  | .wi, .write => some .writeWi
  | .pt, .write => some .writeWi
  | .wo, .write => some .writeWb

/-- The submit function goes on. -/
def Req.goOn (sub : Sub) : Req := { r with sub }

/-- An error path of the submit function. -/
def Req.refuse (error : Int) : Req := (ocfIoEndFunc r error).goOn .returned

/-- The submit function has returned without putting a reference that it took. -/
def Req.leave : Req := { r with leaked := r.leaked + 1 }

/-- The submit functions up to the allocation of the map. -/
def submitStart : Req :=
  if r.op = .discard ∧ r.bytes = 0 then r.refuse errInval
  else if o.validate < 0 then r.refuse o.validate
  else if o.standby then r.refuse errCacheStandby
  else
    let r := { r.get with got := true }
    match r.op with
    | .io => if r.d2c then (ocfD2cIoFast r).goOn .returned else r.goOn .alloc
    | .flush => if r.d2c then (ocfD2cFast r).goOn .returned else (r.get.pushCb .engineFlush).goOn .returned
    | .discard => if r.d2c then (ocfD2cFast r).goOn .returned else r.goOn .alloc

/-- `ocf_req_alloc_map` and `ocf_req_alloc_map_discard`, with their error paths. -/
def submitAlloc : Req :=
  match r.op with
  | .discard =>
    if o.mapAllocated then (r.get.goto (.call .engineDiscard)).goOn .returned else (r.refuse errNoMem).leave
  | _ => if o.mapAllocated then r.goOn .resolve else (r.refuse errNoMem).put

/-- `ocf_req_set_dirty`, which fails while `refcnt.dirty` is frozen. -/
def ocfReqSetDirty : Req × Bool :=
  if o.dirtyFrozen then (r, false) else ({ r with dirty := true, dirtyRefs := r.dirtyRefs + 1 }, true)

/-- `ocf_resolve_effective_cache_mode`, with the mode. -/
def ocfResolveEffectiveCacheMode : Req × Mode :=
  if o.seqCutoff then ({ r with seqCutoff := true }, .pt)
  else if r.rw = .write ∧ (o.mode = .wb ∨ o.mode = .wo) then
    let (r, set) := ocfReqSetDirty r o
    (r, if set then o.mode else .wt)
  else (r, o.mode)

/-- The mode is resolved, and a reference is taken for the prefetch. -/
def submitResolve : Req :=
  let (r, mode) := ocfResolveEffectiveCacheMode r o
  r.get.goOn (.fast mode)

/-- `ocf_engine_hndl_fast_req`, with its result. -/
def ocfEngineHndlFastReq : Req × Bool :=
  let r := r.get
  let (r, yes) := match r.rw with
    | .read => ocfReadFast r o
    | .write => ocfWriteFast r o
  if yes then (r, true) else (r.put, false)

/-- `ocf_core_submit_io_fast`, with its result. -/
def ocfCoreSubmitIoFast (mode : Mode) : Req × Bool :=
  if mode = .pt then (r, false)
  else if mode = .wb ∨ mode = .wo ∨ c.useSubmitIoFast then ocfEngineHndlFastReq r o
  else (r, false)

/-- The fast path is tried. -/
def submitFast (mode : Mode) : Req :=
  let (r, yes) := ocfCoreSubmitIoFast c r o mode
  r.goOn (if yes then .prefetch else .slow mode)

/-- `ocf_engine_hndl_req`, with its error path. -/
def submitSlow (mode : Mode) : Req :=
  match ocfCacheModeToEngineCb mode r.rw with
  | none => ((decCounterIfReqWasDirty r).refuse errInval).put.leave
  | some h => (r.get.pushCb h).goOn .prefetch

/-- The next part of the submit function. -/
def submitGo : Req :=
  match r.sub with
  | .start => submitStart r o
  | .alloc => submitAlloc r o
  | .resolve => submitResolve r o
  | .fast mode => submitFast c r o mode
  | .slow mode => submitSlow r mode
  | .prefetch => r.put.goOn .returned
  | .returned => r

end Submit

/-- What happens next to the request. -/
inductive Act
  /-- The submit function goes on. -/
  | submit (o : Outcome)
  /-- A function is called, or its queue runs it. -/
  | run (o : Outcome)
  /-- All its locks are granted. -/
  | granted
  /-- The cleaner completes. -/
  | cleaned (error : Int)
  /-- The device or the metadata flush completes. -/
  | ioEnd (error : Int)
  /-- One of two parts completes. -/
  | partEnd (second : Bool) (error : Int)
  /-- A function that has handed the request over puts it. -/
  | tail

/-- What can happen. -/
def guard (r : Req) : Act → Prop
  | .submit _ => r.sub ≠ .returned
  | .run _ => r.stage = .queued ∨ ∃ h, r.stage = .call h
  | .granted => ∃ refresh, r.stage = .locking refresh
  | .cleaned _ => r.stage = .cleaning
  | .ioEnd _ => ∃ cb, r.stage = .io cb
  | .partEnd second _ => ∃ p a b, r.stage = .pair p a b ∧ (if second then b else a) = true
  | .tail => 0 < r.tails

/-- What it does. -/
def step (c : Cache) (r : Req) : Act → Req
  | .submit o => submitGo c r o
  | .run o =>
    match r.stage with
    | .call h => h.run c r o
    | _ => r.handler.run c r o
  | .granted =>
    match r.stage with
    | .locking true => ocfEngineOnResume r
    | _ => r.goto .queued
  | .cleaned error => ocfEngineCleanEnd r error
  | .ioEnd error =>
    match r.stage with
    | .io cb => cb.run c r error
    | _ => r
  | .partEnd second error =>
    match r.stage with
    | .pair p a b => p.run c r a b second error
    | _ => r
  | .tail => { r.put with tails := r.tails - 1 }

/-- The steps of one I/O, of which only some are allowed. -/
def system (c : Cache) (allowed : Req → Act → Prop) : Runs.System Req Act where
  guard r a := guard r a ∧ allowed r a
  step r a := some (step c r a)

end OcfCache.CoreIo
