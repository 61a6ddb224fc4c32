import OcfCache.Constants
import OcfCache.Runs
import Mathlib.Algebra.BigOperators.Intervals

/-!
# Creation of requests and I/O of the cache front volume

`ocf_req_new` and its siblings in `ocf_request.c`, and the submit functions of
the front volume in `ocf_cache.c`. A constructor is one call whose allocations
and freeze states decide what it does; the references it takes are atomic
counters, so what other threads do in between adds up. A submitted I/O goes on
step by step, with its forwarded part and its metadata update beside it.
-/

namespace OcfCache.RequestNew

open Function Runs

/-- `struct env_refcnt` with the operations as a whole. -/
structure EnvRefcnt where
  /-- `counter`. -/
  counter : Nat
  /-- `freeze`. -/
  freeze : Nat
  deriving DecidableEq

/-- `env_refcnt_inc`; `none` when the counter is frozen. -/
def envRefcntInc (rc : EnvRefcnt) : Option EnvRefcnt :=
  if rc.freeze = 0 then some { rc with counter := rc.counter + 1 } else none

/-- `env_refcnt_dec`; `none` is the `ENV_BUG_ON`. -/
def envRefcntDec (rc : EnvRefcnt) : Option EnvRefcnt :=
  if rc.counter = 0 then none else some { rc with counter := rc.counter - 1 }

/-- `struct ocf_queue`. -/
structure Queue where
  /-- `ref_count`. -/
  refCount : Int
  /-- `lock_idx`. -/
  lockIdx : Nat
  deriving DecidableEq

/-- Direction of a request. -/
inductive Rw
  /-- `OCF_READ`. -/
  | read
  /-- `OCF_WRITE`. -/
  | write
  deriving DecidableEq

/-- `map`, with `alock_status` behind it. -/
inductive ReqMap
  /-- `NULL`. -/
  | null
  /-- `__map`, a part of the request. -/
  | embedded
  /-- Memory of its own. -/
  | allocated
  deriving DecidableEq

/-- `struct ocf_req_discard_info`. -/
structure Discard where
  /-- `addr`. -/
  addr : UInt64
  /-- `bytes`. -/
  bytes : UInt32
  /-- `handled`. -/
  handled : UInt32
  deriving DecidableEq

/-- `struct ocf_request`. -/
structure Req where
  /-- `io_queue`. -/
  ioQueue : Nat
  /-- `core`. -/
  core : Option Nat
  /-- `ref_count`. -/
  refCount : Int
  /-- `addr`. -/
  addr : UInt64
  /-- `bytes`. -/
  bytes : UInt32
  /-- `rw`. -/
  rw : Rw
  /-- `core_line_first`. -/
  coreLineFirst : UInt64
  /-- `core_line_last`. -/
  coreLineLast : UInt64
  /-- `core_line_count`. -/
  coreLineCount : UInt32
  /-- `alloc_core_line_count`. -/
  allocCoreLineCount : UInt32
  /-- `map`. -/
  map : ReqMap
  /-- `discard`. -/
  discard : Discard
  /-- `part_id`. -/
  partId : Nat
  /-- `lock_idx`. -/
  lockIdx : Nat
  /-- `error`. -/
  error : Int
  /-- `d2c`. -/
  d2c : Bool
  /-- `cleaner`. -/
  cleaner : Bool
  /-- `is_mngt`. -/
  isMngt : Bool
  deriving DecidableEq

/-- Zeroed memory of a request. -/
def Req.zero : Req :=
  ⟨0, none, 0, 0, 0, .read, 0, 0, 0, 0, .null, ⟨0, 0, 0⟩, 0, 0, 0, false, false, false⟩

/-- What stays the same while the cache runs. -/
structure Cache where
  /-- Binary logarithm of `ocf_line_size`. -/
  lineBits : Fin 5
  /-- `mngt_queue`. -/
  mngtQueue : Nat
  /-- `ocf_metadata_get_pages_count`. -/
  metadataPages : UInt64

/-- `ocf_line_size`, from 4 KiB to 64 KiB. -/
def Cache.lineSize (c : Cache) : UInt64 :=
  match c.lineBits with
  | 0 => 4096
  | 1 => 8192
  | 2 => 16384
  | 3 => 32768
  | 4 => 65536

/-- `ocf_bytes_2_lines`. -/
def Cache.bytes2Lines (c : Cache) (bytes : UInt64) : UInt64 := bytes / c.lineSize

/-- Which submit function of the front volume was called. -/
inductive Kind
  /-- `ocf_cache_volume_submit_io`. -/
  | io
  /-- `ocf_cache_volume_submit_flush`. -/
  | flush
  /-- `ocf_cache_volume_submit_discard`. -/
  | discard
  deriving DecidableEq

/-- What a submit function does next. -/
inductive Pc
  /-- It takes the reference. -/
  | start
  /-- It looks at the state of the cache. -/
  | test
  /-- It forwards the I/O. -/
  | forward
  /-- `ocf_metadata_passive_update`. -/
  | update
  /-- Its own `ocf_cache_io_complete`. -/
  | complete
  /-- It has returned. -/
  | returned
  deriving DecidableEq

/-- What the last completion does next. -/
inductive Tail
  /-- There was no last completion. -/
  | pending
  /-- It calls `ocf_io_end_func` with an error. -/
  | ending (error : Int)
  /-- It drops the reference. -/
  | dropping
  /-- It is over. -/
  | finished
  deriving DecidableEq

/-- An I/O that was submitted to the front volume. -/
structure Io where
  /-- The submit function. -/
  kind : Kind
  /-- The request. -/
  req : Nat
  /-- What the submit function does next. -/
  pc : Pc
  /-- `req_remaining`. -/
  reqRemaining : Int
  /-- The forwarded part is in flight. -/
  forward : Bool
  /-- The metadata update waits for page locks. -/
  locking : Bool
  /-- What the last completion does next. -/
  tail : Tail
  /-- Errors that the end callback was called with. -/
  ends : List Int
  /-- The reference was taken and not dropped. -/
  holds : Bool
  /-- The cache was found not to be in standby. -/
  refused : Bool
  deriving DecidableEq

/-- The counters, the requests and the front volume. -/
structure State where
  /-- `refcnt.metadata`. -/
  metadata : EnvRefcnt
  /-- `refcnt.d2c`. -/
  d2c : EnvRefcnt
  /-- The queues. -/
  queues : Nat → Queue
  /-- `ocf_cache_state_standby`. -/
  standby : Bool
  /-- Addresses of the requests that were not freed. -/
  live : Finset Nat
  /-- The memory of the requests. -/
  req : Nat → Req
  /-- I/Os submitted so far. -/
  submitted : Nat
  /-- The submitted I/Os. -/
  ios : Nat → Io
  /-- Calls that kept a reference on `refcnt.d2c` without a request. -/
  lostD2c : Nat

/-- Whether the allocations of a call succeed. -/
structure Allocs where
  /-- `env_zalloc` of a request. -/
  zalloc : Bool
  /-- `env_mpool_new` with the number of core lines. -/
  mpool : Bool
  /-- `env_mpool_new` with one core line. -/
  mpoolOne : Bool
  /-- `env_zalloc` of a map. -/
  map : Bool

section Constructors

/-- A queue is written. -/
def State.setQueue (s : State) (queue : Nat) (q : Queue) : State :=
  { s with queues := update s.queues queue q }

/-- `ocf_queue_get`. -/
def State.queueGet (s : State) (queue : Nat) : State :=
  s.setQueue queue { s.queues queue with refCount := (s.queues queue).refCount + 1 }

/-- `ocf_queue_put`. -/
def State.queuePut (s : State) (queue : Nat) : State :=
  s.setQueue queue { s.queues queue with refCount := (s.queues queue).refCount - 1 }

/-- The counter behind `ocf_metadata_concurrency_next_idx`. -/
def State.nextIdx (s : State) (queue : Nat) : State :=
  s.setQueue queue { s.queues queue with lockIdx := (s.queues queue).lockIdx + 1 }

/-- `ocf_metadata_concurrency_next_idx`. -/
def State.lockIdx (s : State) (queue : Nat) : Nat := (s.queues queue).lockIdx % ocfNumGlobalMetaLocks

/-- A request is written. -/
def State.setReq (s : State) (i : Nat) (r : Req) : State := { s with req := update s.req i r }

/-- The memory of a request is allocated. -/
def State.store (s : State) (i : Nat) (r : Req) : State := { s with live := insert i s.live }.setReq i r

/-- `ocf_req_init`. -/
def ocfReqInit (r : Req) (queue : Nat) (core : Option Nat) (addr : UInt64) (bytes : UInt32) (rw : Rw) : Req :=
  { r with ioQueue := queue, core, refCount := 1, addr, bytes, rw }

/-- The counter that `ocf_req_put` drops. -/
def State.drop (s : State) (r : Req) : Option State :=
  if r.d2c then (envRefcntDec s.d2c).map fun d2c => { s with d2c }
  else if !r.isMngt || r.cleaner then (envRefcntDec s.metadata).map fun metadata => { s with metadata }
  else some s

/-- `ocf_req_get`. -/
def ocfReqGet (s : State) (i : Nat) : State :=
  s.setReq i { s.req i with refCount := (s.req i).refCount + 1 }

/-- A request with one reference less. -/
def Req.put (r : Req) : Req := { r with refCount := r.refCount - 1 }

/-- `ocf_req_put`. -/
def ocfReqPut (s : State) (i : Nat) : Option State :=
  let r := (s.req i).put
  let s := s.setReq i r
  if r.refCount ≠ 0 then some s
  else (s.drop r).map fun s => { s with live := s.live.erase i }.queuePut r.ioQueue

/-- `ocf_req_alloc_map`, with its result; `none` is the `ENV_BUG_ON`. -/
def ocfReqAllocMap (r : Req) (map : Bool) : Option (Req × Int) :=
  if r.map ≠ .null then some (r, 0)
  else if r.coreLineCount = 0 then none
  else if map then some ({ r with map := .allocated }, 0)
  else some ({ r with error := errNoMem }, errNoMem)

/-- `ocf_req_new_mngt`. -/
def ocfReqNewMngt (s : State) (a : Allocs) (i queue : Nat) : State × Option Nat :=
  if a.zalloc then
    ((s.queueGet queue).store i { ocfReqInit .zero queue none 0 0 .read with isMngt := true }, some i)
  else (s, none)

/-- A request without a map gets one, or it is put. -/
def State.allocMap (s : State) (a : Allocs) (i : Nat) : Option (State × Option Nat) :=
  (ocfReqAllocMap (s.req i) a.map).bind fun (r, result) =>
    let s := s.setReq i r
    if result ≠ 0 then (ocfReqPut s i).map fun s => (s, none) else some (s, some i)

/-- `ocf_req_new_cleaner` behind the allocation of the request. -/
def State.initCleaner (s : State) (a : Allocs) (i queue : Nat) (count : UInt32) (isMngt mapAllocated : Bool) :
    Option (State × Option Nat) :=
  let s := s.queueGet queue
  let r := { ocfReqInit { Req.zero with isMngt } queue none 0 0 .read with
    map := if mapAllocated then .embedded else .null
    allocCoreLineCount := if mapAllocated then count else 1
    coreLineCount := count
    lockIdx := s.lockIdx queue
    cleaner := true }
  ((s.nextIdx queue).store i r).allocMap a i

/-- `ocf_req_new_cleaner`; `none` is an `ENV_BUG_ON`. -/
def ocfReqNewCleaner (c : Cache) (s : State) (a : Allocs) (i queue : Nat) (count : UInt32) :
    Option (State × Option Nat) :=
  match envRefcntInc s.metadata with
  | none => some (s, none)
  | some metadata =>
    let s := { s with metadata }
    let fail := (envRefcntDec s.metadata).map fun metadata => ({ s with metadata }, none)
    if queue = c.mngtQueue then
      -- `ocf_req_sizeof_map`
      if count = 0 then none
      else if a.zalloc then s.initCleaner a i queue count true true
      else fail
    else if a.mpool then s.initCleaner a i queue count false true
    else if a.mpoolOne then s.initCleaner a i queue count false false
    else fail

/-- `ocf_req_new_d2c`. -/
def ocfReqNewD2c (s : State) (a : Allocs) (i queue core : Nat) (addr : UInt64) (bytes : UInt32) (rw : Rw) :
    State × Option Nat :=
  if a.mpoolOne then
    (s.store i { ocfReqInit { Req.zero with allocCoreLineCount := 1 } queue (some core) addr bytes rw with
      d2c := true }, some i)
  else (s, none)

/-- The last core line of a range, as the constructors compute it. -/
def Cache.coreLineLast (c : Cache) (addr : UInt64) (bytes : UInt32) : UInt64 :=
  if bytes = 0 then c.bytes2Lines addr else c.bytes2Lines (addr + bytes.toUInt64 - 1)

/-- The number of core lines of a range, as the constructors compute it. -/
def Cache.coreLineCount (c : Cache) (addr : UInt64) (bytes : UInt32) : UInt64 :=
  if bytes = 0 then 1 else c.coreLineLast addr bytes - c.bytes2Lines addr + 1

/-- `ocf_req_new` behind the allocation of the request. -/
def State.initCore (c : Cache) (s : State) (i queue core : Nat) (addr : UInt64) (bytes : UInt32) (rw : Rw)
    (mapAllocated : Bool) : State :=
  let count := (c.coreLineCount addr bytes).toUInt32
  let r := { ocfReqInit .zero queue (some core) addr bytes rw with
    map := if mapAllocated then .embedded else .null
    allocCoreLineCount := if mapAllocated then count else 1
    coreLineFirst := c.bytes2Lines addr
    coreLineLast := c.coreLineLast addr bytes
    coreLineCount := count
    discard := ⟨addr, bytes, 0⟩
    partId := ocfIoClassUnclassified
    lockIdx := s.lockIdx queue }
  (s.nextIdx queue).store i r

/-- `ocf_req_new`; `none` is an `ENV_BUG`. -/
def ocfReqNew (c : Cache) (s : State) (a : Allocs) (i queue core : Nat) (addr : UInt64) (bytes : UInt32)
    (rw : Rw) : Option (State × Option Nat) :=
  if queue = c.mngtQueue then none
  else
    let s := s.queueGet queue
    match envRefcntInc s.metadata with
    | none =>
      match envRefcntInc s.d2c with
      | none => none
      | some d2c =>
        match ocfReqNewD2c { s with d2c } a i queue core addr bytes rw with
        -- the reference on `refcnt.d2c` stays
        | (s, none) => some ({ s with lostD2c := s.lostD2c + 1 }.queuePut queue, none)
        | (s, some i) => some (s, some i)
    | some metadata =>
      let s := { s with metadata }
      if a.mpool then some (s.initCore c i queue core addr bytes rw true, some i)
      else if a.mpoolOne then some (s.initCore c i queue core addr bytes rw false, some i)
      else (envRefcntDec s.metadata).map fun metadata => ({ s with metadata }.queuePut queue, none)

/-- `ocf_req_new_cache` behind the allocation of the request. -/
def State.initCache (c : Cache) (s : State) (i queue : Nat) (addr : UInt64) (bytes : UInt32) (rw : Rw)
    (mapAllocated : Bool) : State :=
  let count := (c.coreLineCount addr bytes).toUInt32
  let r := { ocfReqInit .zero queue none addr bytes rw with
    map := if mapAllocated then .embedded else .null
    allocCoreLineCount := if mapAllocated then count else 1
    lockIdx := s.lockIdx queue }
  (s.nextIdx queue).store i r

/-- `ocf_req_new_cache`; `none` is an `ENV_BUG`. -/
def ocfReqNewCache (c : Cache) (s : State) (a : Allocs) (i queue : Nat) (addr : UInt64) (bytes : UInt32)
    (rw : Rw) : Option (State × Option Nat) :=
  if queue = c.mngtQueue then none
  else
    match envRefcntInc s.metadata with
    | none => some (s, none)
    | some metadata =>
      let s := { s with metadata }.queueGet queue
      if a.mpool then some (s.initCache c i queue addr bytes rw true, some i)
      else if a.mpoolOne then some (s.initCache c i queue addr bytes rw false, some i)
      else (envRefcntDec s.metadata).map fun metadata => ({ s with metadata }.queuePut queue, none)

/-- `ocf_req_new_extended`. -/
def ocfReqNewExtended (c : Cache) (s : State) (a : Allocs) (i queue core : Nat) (addr : UInt64)
    (bytes : UInt32) (rw : Rw) : Option (State × Option Nat) :=
  (ocfReqNew c s a i queue core addr bytes rw).bind fun
    | (s, none) => some (s, none)
    | (s, some i) => s.allocMap a i

/-- `ocf_req_new_discard`. -/
def ocfReqNewDiscard (c : Cache) (s : State) (a : Allocs) (i queue core : Nat) (addr : UInt64)
    (bytes : UInt32) (rw : Rw) : Option (State × Option Nat) :=
  ocfReqNewExtended c s a i queue core addr (min bytes maxTrimRqSize.toUInt32) rw

end Constructors

end OcfCache.RequestNew
