import OcfCache.RequestNew

/-!
# The front volume and the counters

The submit functions of the cache front volume, and the counters in any order
of constructor calls, references, freezes and submitted I/Os.
-/

namespace OcfCache.RequestNew

open Runs

/-- A call of a constructor. -/
inductive Call
  /-- `ocf_req_new`. -/
  | reqNew (queue core : Nat) (addr : UInt64) (bytes : UInt32) (rw : Rw)
  /-- `ocf_req_new_extended`. -/
  | reqNewExtended (queue core : Nat) (addr : UInt64) (bytes : UInt32) (rw : Rw)
  /-- `ocf_req_new_discard`. -/
  | reqNewDiscard (queue core : Nat) (addr : UInt64) (bytes : UInt32) (rw : Rw)
  /-- `ocf_req_new_cleaner`. -/
  | reqNewCleaner (queue : Nat) (count : UInt32)
  /-- `ocf_req_new_cache`. -/
  | reqNewCache (queue : Nat) (addr : UInt64) (bytes : UInt32) (rw : Rw)

/-- The queue of a call. -/
def Call.queue : Call → Nat
  | reqNew queue _ _ _ _ => queue
  | reqNewExtended queue _ _ _ _ => queue
  | reqNewDiscard queue _ _ _ _ => queue
  | reqNewCleaner queue _ => queue
  | reqNewCache queue _ _ _ => queue

/-- Effect of a call that would place its request at an address. -/
def Call.run (c : Cache) (s : State) (a : Allocs) (i : Nat) : Call → Option (State × Option Nat)
  | reqNew queue core addr bytes rw => ocfReqNew c s a i queue core addr bytes rw
  | reqNewExtended queue core addr bytes rw => ocfReqNewExtended c s a i queue core addr bytes rw
  | reqNewDiscard queue core addr bytes rw => ocfReqNewDiscard c s a i queue core addr bytes rw
  | reqNewCleaner queue count => ocfReqNewCleaner c s a i queue count
  | reqNewCache queue addr bytes rw => ocfReqNewCache c s a i queue addr bytes rw

/-- Result of the allocation and the page locks of a metadata update. -/
inductive Update
  /-- `env_allocator_new` fails. -/
  | noMem
  /-- `ocf_pio_async_lock` returns an error. -/
  | error (e : Int)
  /-- `OCF_LOCK_ACQUIRED`. -/
  | acquired
  /-- `OCF_LOCK_NOT_ACQUIRED`. -/
  | notAcquired

/-- `BYTES_TO_PAGES`, in 64 bits. -/
def bytesToPages (x : UInt64) : UInt64 := (x + (pageSize.toUInt64 - 1)) / pageSize.toUInt64

/-- `ocf_metadata_passive_update`: what it calls `complete` with, or `none`
when that is left to `passive_io_page_lock_acquired`. -/
def ocfMetadataPassiveUpdate (c : Cache) (master : Req) (u : Update) : Option Int :=
  if master.rw = .read then some 0
  else if c.metadataPages ≤ bytesToPages master.addr then some 0
  else if master.addr % pageSize.toUInt64 ≠ 0 ∨ master.bytes.toUInt64 % pageSize.toUInt64 ≠ 0 then some errInval
  else if maxPassiveIoSize.toUInt32 < master.bytes then some errInval
  else match u with
    | .noMem => some errNoMem
    | .error e => some e
    | .acquired => some 0
    | .notAcquired => none

section Submit

/-- An I/O is written. -/
def State.setIo (s : State) (k : Nat) (io : Io) : State := { s with ios := Function.update s.ios k io }

/-- The error that `ocf_cache_io_complete` keeps. -/
def Req.addError (r : Req) (error : Int) : Req :=
  if error ≠ 0 then { r with error := if r.error ≠ 0 then r.error else error } else r

/-- An I/O behind the decrement of `ocf_cache_io_complete`. -/
def Io.complete (io : Io) (error : Int) : Io :=
  { io with
    reqRemaining := io.reqRemaining - 1
    tail := if io.reqRemaining - 1 = 0 then .ending error else io.tail }

/-- `ocf_cache_io_complete` of an I/O. -/
def ocfCacheIoComplete (s : State) (k : Nat) (io : Io) (error : Int) : State :=
  let r := (s.req io.req).addError error
  (s.setReq io.req r).setIo k (io.complete r.error)

/-- The next step of the submit function of an I/O. -/
def submitGo (c : Cache) (s : State) (k : Nat) (u : Update) : Option State :=
  let io := s.ios k
  match io.pc with
  | .start =>
    match envRefcntInc s.metadata with
    | none => some (s.setIo k { io with pc := .returned, tail := .finished, ends := io.ends ++ [errIo] })
    | some metadata => some ({ s with metadata }.setIo k { io with pc := .test, holds := true })
  | .test =>
    if s.standby then some (s.setIo k { io with pc := .forward })
    else
      -- the reference is not dropped
      some (s.setIo k { io with
        pc := .returned, tail := .finished, ends := io.ends ++ [errCacheNotStandby], refused := true })
  | .forward =>
    match io.kind with
    | .io => some (s.setIo k { io with pc := .update, reqRemaining := 3, forward := true })
    | .flush => some (s.setIo k { io with pc := .returned, forward := true })
    | .discard => some (s.setIo k { io with pc := .returned, forward := true })
  | .update =>
    match ocfMetadataPassiveUpdate c (s.req io.req) u with
    | some error => some (ocfCacheIoComplete s k { io with pc := .complete } error)
    | none => some (s.setIo k { io with pc := .complete, locking := true })
  | .complete => some (ocfCacheIoComplete s k { io with pc := .returned } 0)
  | .returned => none

/-- The forwarded part of an I/O ends. -/
def forwardEnd (s : State) (k : Nat) (error : Int) : State :=
  let io := { s.ios k with forward := false }
  match io.kind with
  | .io => ocfCacheIoComplete s k io error
  -- `ocf_cache_volume_io_complete_generic`
  | .flush => s.setIo k { io with tail := .ending error }
  | .discard => s.setIo k { io with tail := .ending error }

/-- `passive_io_resume`. -/
def passiveIoResume (s : State) (k : Nat) : State := ocfCacheIoComplete s k { s.ios k with locking := false } 0

/-- The next step of the last completion of an I/O. -/
def completionGo (s : State) (k : Nat) : Option State :=
  let io := s.ios k
  match io.tail with
  | .pending => none
  | .ending error => some (s.setIo k { io with tail := .dropping, ends := io.ends ++ [error] })
  | .dropping => (envRefcntDec s.metadata).map fun metadata =>
      { s with metadata }.setIo k { io with tail := .finished, holds := false }
  | .finished => none

/-- What happens. -/
inductive Act
  /-- A constructor is called. -/
  | new (call : Call) (a : Allocs) (i : Nat)
  /-- `ocf_req_new_mngt` is called. -/
  | newMngt (a : Allocs) (i queue : Nat)
  /-- `ocf_req_get`. -/
  | get (i : Nat)
  /-- `ocf_req_put`. -/
  | put (i : Nat)
  /-- `env_refcnt_freeze` of `refcnt.metadata`. -/
  | freezeMetadata
  /-- `env_refcnt_unfreeze` of `refcnt.metadata`. -/
  | unfreezeMetadata
  /-- `env_refcnt_freeze` of `refcnt.d2c`. -/
  | freezeD2c
  /-- `env_refcnt_unfreeze` of `refcnt.d2c`. -/
  | unfreezeD2c
  /-- The cache enters or leaves standby. -/
  | setStandby (standby : Bool)
  /-- An I/O is submitted to the front volume. -/
  | submit (kind : Kind) (i : Nat)
  /-- A submit function goes on. -/
  | go (k : Nat) (u : Update)
  /-- The forwarded part of an I/O ends. -/
  | forwardEnd (k : Nat) (error : Int)
  /-- The page locks of a metadata update are acquired later. -/
  | pageLock (k : Nat)
  /-- The last completion of an I/O goes on. -/
  | finish (k : Nat)

/-- An I/O before its submit function. -/
def newIo (kind : Kind) (req : Nat) : Io :=
  ⟨kind, req, .start, 0, false, false, .pending, [], false, false⟩

/-- The I/O that a step is about. -/
def Act.io? : Act → Option Nat
  | go k _ => some k
  | forwardEnd k _ => some k
  | pageLock k => some k
  | finish k => some k
  | _ => none

/-- Effect of what happens. -/
def step (c : Cache) (s : State) : Act → Option State
  | .new call a i => (call.run c s a i).map Prod.fst
  | .newMngt a i queue => some (ocfReqNewMngt s a i queue).1
  | .get i => some (ocfReqGet s i)
  | .put i => ocfReqPut s i
  | .freezeMetadata => some { s with metadata := { s.metadata with freeze := s.metadata.freeze + 1 } }
  | .unfreezeMetadata => some { s with metadata := { s.metadata with freeze := s.metadata.freeze - 1 } }
  | .freezeD2c => some { s with d2c := { s.d2c with freeze := s.d2c.freeze + 1 } }
  | .unfreezeD2c => some { s with d2c := { s.d2c with freeze := s.d2c.freeze - 1 } }
  | .setStandby standby => some { s with standby }
  | .submit kind i => some { s.setIo s.submitted (newIo kind i) with submitted := s.submitted + 1 }
  | .go k u => submitGo c s k u
  | .forwardEnd k error => some (forwardEnd s k error)
  | .pageLock k => some (passiveIoResume s k)
  | .finish k => completionGo s k

/-- The end callback of an I/O was not called. -/
def Io.Open (io : Io) : Prop := io.ends = []

instance (io : Io) : Decidable io.Open := inferInstanceAs (Decidable (io.ends = []))

/-- What the callers ensure: memory is fresh, a reference is put once and the
last one not before its I/O has ended, and an I/O is submitted once at a time. -/
def guard (s : State) : Act → Prop
  | .new _ _ i => i ∉ s.live
  | .newMngt _ i _ => i ∉ s.live
  | .get i => i ∈ s.live
  | .put i => i ∈ s.live ∧ ((s.req i).refCount = 1 → ∀ k < s.submitted, (s.ios k).req = i → ¬(s.ios k).Open)
  | .unfreezeMetadata => 0 < s.metadata.freeze
  | .unfreezeD2c => 0 < s.d2c.freeze
  | .submit _ i => i ∈ s.live ∧ ∀ k < s.submitted, (s.ios k).req = i → ¬(s.ios k).Open
  | .go k _ => k < s.submitted
  | .forwardEnd k _ => k < s.submitted ∧ (s.ios k).forward = true
  | .pageLock k => k < s.submitted ∧ (s.ios k).locking = true
  | .finish k => k < s.submitted
  | _ => True

/-- Runs in which only some of the steps are taken. -/
def system (c : Cache) (allowed : State → Act → Prop) : System State Act where
  guard s act := guard s act ∧ allowed s act
  step := step c

/-- No request, and no I/O. -/
def start (metadataFreeze d2cFreeze : Nat) (queues : Nat → Queue) (standby : Bool) : State where
  metadata := ⟨0, metadataFreeze⟩
  d2c := ⟨0, d2cFreeze⟩
  queues := queues
  standby := standby
  live := ∅
  req := fun _ => .zero
  submitted := 0
  ios := fun _ => newIo .io 0
  lostD2c := 0

end Submit

section Condition

/-- The condition under which a call of a constructor keeps the counters
balanced. -/
def Call.Clean (c : Cache) (s : State) (a : Allocs) : Call → Prop
  | reqNew queue _ _ _ _ => queue ≠ c.mngtQueue ∧
      (s.metadata.freeze ≠ 0 → s.d2c.freeze = 0 ∧ a.mpoolOne = true)
  | reqNewExtended queue _ _ _ _ => queue ≠ c.mngtQueue ∧ s.metadata.freeze = 0
  | reqNewDiscard queue _ _ _ _ => queue ≠ c.mngtQueue ∧ s.metadata.freeze = 0
  | reqNewCleaner queue count => s.metadata.freeze ≠ 0 ∨ count ≠ 0 ∨
      (queue ≠ c.mngtQueue ∧ (a.mpool = true ∨ a.mpoolOne = false))
  | reqNewCache queue _ _ _ => queue ≠ c.mngtQueue

/-- Steps that keep the counters balanced: clean calls, and submissions that
do not find the cache outside of standby. -/
def Clean (c : Cache) (s : State) : Act → Prop
  | .new call a _ => call.Clean c s a
  | .go k _ => (s.ios k).pc = .test → s.standby = true
  | _ => True

/-- The reference counts that a constructor may touch. -/
def State.SameRefs (s s' : State) : Prop :=
  s'.metadata.counter = s.metadata.counter ∧ s'.d2c.counter = s.d2c.counter ∧
    ∀ q, (s'.queues q).refCount = (s.queues q).refCount

/-- A call took one reference on its queue and one on one of the two counters. -/
def State.OneRef (s s' : State) (queue : Nat) : Prop :=
  (s'.metadata.counter = s.metadata.counter + 1 ∧ s'.d2c.counter = s.d2c.counter ∨
    s'.metadata.counter = s.metadata.counter ∧ s'.d2c.counter = s.d2c.counter + 1) ∧
  ∀ q, (s'.queues q).refCount = (s.queues q).refCount + if q = queue then 1 else 0

/-- In any later state in which a request has one reference left and its
counter counts it, `ocf_req_put` returns what its constructor took. -/
def Returned (s s' : State) (i : Nat) : Prop :=
  ∀ t : State, (t.req i).ioQueue = (s'.req i).ioQueue → (t.req i).d2c = (s'.req i).d2c →
    (t.req i).isMngt = (s'.req i).isMngt → (t.req i).cleaner = (s'.req i).cleaner →
    (t.req i).refCount = 1 → s'.metadata.counter ≤ s.metadata.counter + t.metadata.counter →
    s'.d2c.counter ≤ s.d2c.counter + t.d2c.counter →
    ∃ t', ocfReqPut t i = some t' ∧
      t'.metadata.counter + s'.metadata.counter = t.metadata.counter + s.metadata.counter ∧
      t'.d2c.counter + s'.d2c.counter = t.d2c.counter + s.d2c.counter ∧
      ∀ q, (t'.queues q).refCount + (s'.queues q).refCount = (t.queues q).refCount + (s.queues q).refCount

/-- A call does not abort; without a request it leaves the counts as they
were, and with one it has taken one reference on the queue and one on a
counter, which the last `ocf_req_put` returns. -/
def Call.Balanced (c : Cache) (s : State) (a : Allocs) (i : Nat) (call : Call) : Prop :=
  ∃ s' result, call.run c s a i = some (s', result) ∧
    match result with
    | none => s.SameRefs s'
    | some i' => i' = i ∧ i ∈ s'.live ∧ (s'.req i).refCount = 1 ∧ s.OneRef s' call.queue ∧ Returned s s' i

end Condition

end OcfCache.RequestNew
