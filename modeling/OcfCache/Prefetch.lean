import OcfCache.Constants
import OcfCache.Runs

/-!
# One prefetch request

The request of `ocf_prefetch_range` from `ocf_prefetch_read` on, through the
resume, cleaning, backfill and invalidate code that it shares with the engines.
It begins with one reference, which `_ocf_prefetch_complete` puts. Outcomes of
lookups, locks, allocations and devices are arbitrary. A reference count that
drops to zero frees the request, and what touches it then is noted.
-/

namespace OcfCache.Prefetch

/-- `enum` of the lookup status of a map entry. -/
inductive Status
  /-- `LOOKUP_HIT`. -/
  | hit
  /-- `LOOKUP_HIT_INVALID`. -/
  | hitInvalid
  /-- `LOOKUP_MISS`. -/
  | miss
  /-- `LOOKUP_REMAPPED`. -/
  | remapped
  deriving DecidableEq

/-- An entry of the request's map, with the cache line behind it. -/
structure Line where
  /-- The core line. -/
  coreLine : Nat
  /-- `status`. -/
  status : Status
  /-- The request has mapped the cache line. -/
  mapped : Bool
  /-- The cache line is locked by the request. -/
  locked : Bool
  /-- Its valid bits are set. -/
  valid : Bool
  /-- It holds the core's data. -/
  data : Bool
  /-- It is back on the free list. -/
  free : Bool
  /-- It was invalidated and left mapped, because a request waited for it. -/
  kept : Bool
  /-- Its lock went to a request that waited for it. -/
  handed : Bool

/-- Functions that run on the request from a queue. -/
inductive Handler
  | prefetchReadDo
  | engineRefresh
  | backfillDo
  | backfillUpdateMetadata
  | invalidateDo
  deriving DecidableEq

/-- Completions of a device or of a metadata flush. -/
inductive Callback
  | prefetchReadComplete
  | backfillComplete
  | invalidateReq
  deriving DecidableEq

/-- Where the request is. -/
inductive Stage
  /-- `ocf_prefetch_read` is called. -/
  | start
  /-- In a queue with its `engine_handler`. -/
  | queued
  /-- It waits for its locks. -/
  | locking
  /-- `ocf_engine_clean` runs. -/
  | cleaning
  /-- A device or a metadata flush has it. -/
  | io (cb : Callback)
  /-- Nothing has it. -/
  | idle
  /-- The completion of its metadata flush never comes. -/
  | lost
  deriving DecidableEq

/-- The request, with what happened to it. -/
structure Req where
  /-- `ref_count`. -/
  refCount : Int
  /-- How often it was freed. -/
  freed : Nat
  /-- It was touched after it had been freed. -/
  misused : Bool
  /-- Calls of `complete`. -/
  completes : Nat
  /-- `data` is there. -/
  data : Bool
  /-- `cp_data` is there. -/
  cpData : Bool
  /-- Its buffer holds the core's data. -/
  full : Bool
  /-- Buffers that were allocated. -/
  allocs : Nat
  /-- Buffers that were freed. -/
  frees : Nat
  /-- `map`. -/
  lines : List Line
  /-- `info.dirty_any`. -/
  dirtyAny : Bool
  /-- `engine_handler`. -/
  handler : Handler
  /-- `priv`, the handler behind a refresh. -/
  priv : Option Handler
  /-- Where it is. -/
  stage : Stage
  /-- `_ocf_prefetch_read_do` still has to put it behind the submission. -/
  tailPut : Bool
  /-- `_ocf_prefetch_read_do` still has to unlock its hash buckets behind the cleaner. -/
  tailUnlock : Bool

/-- Result of `ocf_req_async_lock_wr`. -/
inductive Lock
  /-- `OCF_LOCK_ACQUIRED`. -/
  | acquired
  /-- `OCF_LOCK_NOT_ACQUIRED`. -/
  | notAcquired
  /-- An error, with the core lines whose entries stay locked by the request. -/
  | error (left : Nat → Bool)

/-- Result of `ocf_metadata_flush_do_asynch`. -/
inductive Flush
  /-- It is under way. -/
  | submitted
  /-- Its context cannot be allocated, and the completion is called with that. -/
  | noMem
  /-- A page I/O could not be submitted, or is stuck: the completion never comes. -/
  | lost

/-- What the outside decides in a step. -/
structure Outcome where
  /-- `pending_read_misses_list_blocked`. -/
  blocked : Bool
  /-- `ocf_user_part_is_enabled`. -/
  partEnabled : Bool
  /-- Status of a core line at the lookup. -/
  lookup : Nat → Status
  /-- Some line of the lookup has a dirty block. -/
  dirtyAny : Bool
  /-- The missing lines can be remapped. -/
  remap : Bool
  /-- Core lines that are remapped before that fails. -/
  remapped : Nat → Bool
  /-- Result of the lock. -/
  lock : Lock
  /-- Result of `ocf_engine_check`. -/
  checkOk : Bool
  /-- Hits whose blocks are not valid any more at the check. -/
  invalid : Nat → Bool
  /-- The data buffer can be allocated. -/
  dataAlloc : Bool
  /-- `ocf_cache_line_are_waiters` of the line of a core line. -/
  waits : Nat → Bool
  /-- The device is atomic and metadata is to be flushed. -/
  flushNeeded : Bool
  /-- Result of the metadata flush. -/
  flush : Flush

section Lines

variable (o : Outcome) (l : Line)

/-- `ocf_engine_lookup`. -/
def Line.lookup : Line := { l with status := o.lookup l.coreLine }

/-- A missing line that is remapped and locked by the eviction. -/
def Line.remap : Line :=
  if l.status = .miss then
    { l with status := .remapped, mapped := true, locked := true, valid := false, data := false, free := false }
  else l

/-- `set_cache_line_invalid` of a whole line. -/
def Line.invalidate : Line :=
  if o.waits l.coreLine then { l with valid := false, kept := true }
  else { l with valid := false, free := true }

/-- The lock of the request is released; a request that waits gets it. -/
def Line.unlock : Line :=
  if l.locked then { l with locked := false, handed := o.waits l.coreLine } else l

/-- `ocf_engine_map_hndl_error` for a line, which was remapped or was not reached. -/
def Line.mapHndlError : Line :=
  if l.status = .miss ∧ o.remapped l.coreLine then
    { (l.remap.invalidate o).unlock o with status := .miss }
  else l

/-- The entry is locked with the request; what was remapped is locked already. -/
def Line.lock : Line := if l.status = .miss then l else { l with locked := true }

/-- What an error of the lock leaves. -/
def Line.lockError (left : Nat → Bool) : Line := if left l.coreLine then { l with locked := true } else l

/-- `ocf_engine_check` tests hits again. -/
def Line.check : Line := if l.status = .hit ∧ o.invalid l.coreLine then { l with status := .hitInvalid } else l

/-- `ocf_set_valid_map_info`. -/
def Line.setValid : Line := { l with valid := true }

/-- `ocf_purge_map_info`. -/
def Line.purge : Line := if l.status = .miss then l else l.invalidate o

/-- The buffer is written to the line. -/
def Line.backfill (full : Bool) : Line := { l with data := full }

end Lines

section Prims

variable (r : Req)

/-- The request is read or written. -/
def Req.touch : Req := { r with misused := r.misused || decide (0 < r.freed) }

/-- `ocf_req_get`. -/
def Req.get : Req := { r.touch with refCount := r.refCount + 1 }

/-- `ocf_req_put`. -/
def Req.put : Req :=
  { r.touch with refCount := r.refCount - 1, freed := if r.refCount = 1 then r.freed + 1 else r.freed }

/-- `req->complete`, that is, `_ocf_prefetch_complete`. -/
def Req.complete : Req := { r with completes := r.completes + 1 }.put

/-- The request is somewhere else. -/
def Req.goto (stage : Stage) : Req := { r with stage }

/-- `ocf_queue_push_req_cb`. -/
def Req.pushCb (h : Handler) : Req := { r.touch with handler := h, stage := .queued }

/-- The lines are changed. -/
def Req.mapLines (f : Line → Line) : Req := { r.touch with lines := r.lines.map f }

/-- `ocf_engine_is_hit`. -/
def Req.isHit : Bool := r.lines.all fun l => l.status = .hit

/-- `ctx_data_free` of `data`. -/
def Req.freeData : Req := { r.touch with frees := r.frees + 1 }

end Prims

section Engine

variable (r : Req) (o : Outcome)

/-- `ocf_req_unlock`. -/
def ocfReqUnlock : Req := r.mapLines (Line.unlock o)

/-- `_ocf_invalidate_req`. -/
def ocfInvalidateReq : Req := (ocfReqUnlock r o).put.goto .idle

/-- `_ocf_invalidate_do`. -/
def ocfInvalidateDo : Req :=
  let r := r.mapLines (Line.purge o)
  if o.flushNeeded then
    match o.flush with
    | .submitted => r.goto (.io .invalidateReq)
    | .noMem => ocfInvalidateReq r o
    | .lost => r.goto .lost
  else ocfInvalidateReq r o

/-- `_ocf_backfill_update_metadata`. -/
def ocfBackfillUpdateMetadata : Req := (ocfReqUnlock (r.mapLines Line.setValid) o).put.goto .idle

/-- `_ocf_backfill_complete`. -/
def ocfBackfillComplete (error : Int) : Req :=
  let r := if r.data then { r.freeData with data := false } else r
  if error ≠ 0 then r.pushCb .invalidateDo else r.pushCb .backfillUpdateMetadata

/-- `_ocf_backfill_do`. -/
def ocfBackfillDo : Req :=
  let r := { r.touch with data := r.cpData }
  if r.data then r.goto (.io .backfillComplete) else ocfBackfillComplete r errNoMem

/-- `_ocf_prefetch_read_complete`. -/
def ocfPrefetchReadComplete (error : Int) : Req :=
  let r := r.get
  if error ≠ 0 then r.complete.freeData.pushCb .invalidateDo
  else { r with cpData := r.data, data := false, full := true }.complete.pushCb .backfillDo

/-- `_ocf_prefetch_read_do`, up to the `ocf_req_put` behind its submission and
the unlock of the hash buckets behind `ocf_engine_clean`. -/
def ocfPrefetchReadDo : Req :=
  if r.isHit then (ocfReqUnlock r o).complete.goto .idle
  else if r.dirtyAny then { r.touch with tailUnlock := true }.goto .cleaning
  else if !o.dataAlloc then (ocfReqUnlock r o).complete.goto .idle
  else
    let r := { r with data := true, full := false, allocs := r.allocs + 1 }.mapLines Line.setValid
    { r.get with tailPut := true }.goto (.io .prefetchReadComplete)

/-- `_ocf_engine_clean_end`. -/
def ocfEngineCleanEnd (error : Int) : Req :=
  if error ≠ 0 then (ocfReqUnlock r o).complete.put.goto .idle
  else { r.touch with dirtyAny := false }.goto .queued

/-- `_ocf_engine_refresh`. -/
def ocfEngineRefresh : Req :=
  let r := { r.mapLines (Line.check o) with dirtyAny := o.dirtyAny }
  if o.checkOk then
    match r.priv with
    | some h => ocfPrefetchReadDo { r with handler := h, priv := none } o
    | none => r
  else (ocfReqUnlock r.complete o).put.goto .idle

/-- `ocf_engine_on_resume`, behind the last lock. -/
def ocfEngineOnResume : Req :=
  { r.mapLines Line.lock with priv := some r.handler }.pushCb .engineRefresh

/-- `ocf_prefetch_read`. -/
def ocfPrefetchRead : Req :=
  if o.blocked then r.complete.goto .idle
  else
    let r := { r.touch with handler := .prefetchReadDo }
    if !o.partEnabled then r.complete.goto .idle
    else
      let r := { r.mapLines (Line.lookup o) with dirtyAny := o.dirtyAny }
      if r.isHit then r.complete.goto .idle
      else if !o.remap then (r.mapLines (Line.mapHndlError o)).complete.goto .idle
      else
        let r := r.mapLines Line.remap
        match o.lock with
        | .acquired => ocfPrefetchReadDo (r.mapLines Line.lock) o
        | .notAcquired => r.goto .locking
        | .error left => (r.mapLines (·.lockError left)).complete.goto .idle

end Engine

/-- What happens next to the request. -/
inductive Act
  /-- `ocf_prefetch_read` is called, or a queue runs the request. -/
  | run (o : Outcome)
  /-- All its locks are granted. -/
  | granted
  /-- The cleaner completes. -/
  | cleaned (error : Int) (o : Outcome)
  /-- The device or the metadata flush completes. -/
  | ioEnd (error : Int) (o : Outcome)
  /-- `_ocf_prefetch_read_do` puts the request. -/
  | tailPut
  /-- `_ocf_prefetch_read_do` unlocks the hash buckets of the request. -/
  | tailUnlock

/-- What can happen; a request whose hash buckets are locked waits before it sets the valid bits. -/
def guard (r : Req) : Act → Prop
  | .run o => r.stage = .start ∨
      r.stage = .queued ∧ (r.handler = .prefetchReadDo → o.dataAlloc = true → r.tailUnlock = false)
  | .granted => r.stage = .locking
  | .cleaned _ _ => r.stage = .cleaning
  | .ioEnd _ _ => ∃ cb, r.stage = .io cb
  | .tailPut => r.tailPut = true
  | .tailUnlock => r.tailUnlock = true

/-- A queue runs the request. -/
def Handler.run (r : Req) (o : Outcome) : Handler → Req
  | .prefetchReadDo => ocfPrefetchReadDo r o
  | .engineRefresh => ocfEngineRefresh r o
  | .backfillDo => ocfBackfillDo r
  | .backfillUpdateMetadata => ocfBackfillUpdateMetadata r o
  | .invalidateDo => ocfInvalidateDo r o

/-- A completion is called. -/
def Callback.run (r : Req) (o : Outcome) (error : Int) : Callback → Req
  | .prefetchReadComplete => ocfPrefetchReadComplete r error
  | .backfillComplete =>
    ocfBackfillComplete (if error ≠ 0 then r else r.mapLines (·.backfill r.full)) error
  | .invalidateReq => ocfInvalidateReq r o

/-- What it does. -/
def step (r : Req) : Act → Req
  | .run o =>
    match r.stage with
    | .start => ocfPrefetchRead r o
    | _ => r.handler.run r o
  | .granted => ocfEngineOnResume r
  | .cleaned error o => ocfEngineCleanEnd r o error
  | .ioEnd error o =>
    match r.stage with
    | .io cb => cb.run r o error
    | _ => r
  | .tailPut => { r.put with tailPut := false }
  | .tailUnlock => { r.touch with tailUnlock := false }

/-- The steps of one request, of which only some are allowed. -/
def system (allowed : Req → Act → Prop) : Runs.System Req Act where
  guard r a := guard r a ∧ allowed r a
  step r a := some (step r a)

end OcfCache.Prefetch
