import OcfCache.Loops
import OcfCache.MetadataLayout
import OcfCache.Runs

/-!
# Metadata I/O

`metadata_io.c`. A call splits a page range into pieces and has a number of
sub-requests work on them in any order; every access to a shared field is a
step of its own. `req_remaining` counts the sub-requests that still have to
end and `req_active` those that still use the common structure, each of them
with the caller itself.
-/

namespace OcfCache.MetadataIo

open Runs
open MetadataSize (divRoundUp)

/-- `METADATA_IO_REQS_LIMIT`. -/
def metadataIoReqsLimit : Nat := 128

/-- Arguments of a call and the device. -/
structure Io where
  /-- `page`. -/
  page : Nat
  /-- `count`. -/
  count : Nat
  /-- A call is for at least one page. -/
  count_pos : 0 < count
  /-- The call is a write. -/
  write : Bool
  /-- There are page locks. -/
  mioConc : Bool
  /-- `ocf_volume_get_max_io_size`. -/
  maxIoSize : Nat
  /-- A page can be transferred at once. -/
  maxIoSize_le : pageSize ≤ maxIoSize

/-- `metadata_io_max_page`, with a map of 64 bits. -/
def Io.metadataIoMaxPage (io : Io) : Nat := min (io.maxIoSize / pageSize) 64

/-- `io_count`. -/
def Io.ioCount (io : Io) : Nat := divRoundUp io.count io.metadataIoMaxPage

/-- `req_count`. -/
def Io.reqCount (io : Io) : Nat := min io.ioCount metadataIoReqsLimit

/-- What a sub-request does next. The flags of the first four say whether
`metadata_io_req_start` called. -/
inductive Pc
  /-- It was not started. -/
  | idle
  /-- `metadata_io_req_advance` looks at the error. -/
  | advance (first : Bool)
  /-- It takes a piece. -/
  | take (first : Bool)
  /-- `metadata_io_req_end`. -/
  | ending (first : Bool)
  /-- The caller of `metadata_io_req_advance` looks at the result; `ended` tells of `metadata_io_req_end`. -/
  | check (first ended : Bool)
  /-- `metadata_io_req_finalize`. -/
  | finalize
  /-- `metadata_io_restart_req`. -/
  | restart
  /-- It waits for a page lock. -/
  | waiting
  /-- `metadata_io_do`. -/
  | perform
  /-- Its I/O is in flight. -/
  | flight
  /-- It is done. -/
  | done
  deriving DecidableEq

/-- `struct metadata_io_request`. -/
structure MReq where
  /-- What it does next. -/
  pc : Pc
  /-- `page`. -/
  page : Nat
  /-- `count`. -/
  count : Nat
  /-- It holds its page locks. -/
  locked : Bool
  deriving DecidableEq

/-- What the caller does next. -/
inductive Caller
  /-- It allocates. -/
  | alloc
  /-- It starts the sub-requests from an index on. -/
  | start (i : Nat)
  /-- It takes itself off `req_remaining`. -/
  | finish
  /-- It takes itself off `req_active`. -/
  | release
  /-- It has returned. -/
  | returned (result : Int)
  deriving DecidableEq

/-- `struct metadata_io_request_asynch` with what happened. -/
structure State (n : Nat) where
  /-- `req_remaining`. -/
  reqRemaining : Int
  /-- `req_active`. -/
  reqActive : Int
  /-- `req_current` and one. -/
  taken : Nat
  /-- `error`. -/
  error : Int
  /-- `reqs`. -/
  reqs : Fin n → MReq
  /-- The caller. -/
  caller : Caller
  /-- Pages that were filled or drained. -/
  handled : List Nat
  /-- Pages that were transferred without an error. -/
  transferred : List Nat
  /-- Errors that `compl_hndl` was called with. -/
  completed : List Int
  /-- Times that the common structure was freed. -/
  freed : Nat

/-- A call of `metadata_io_i_asynch` begins. -/
def metadataIoIAsynch (n : Nat) : State n where
  reqRemaining := 1
  reqActive := 1
  taken := 0
  error := 0
  reqs _ := ⟨.idle, 0, 0, false⟩
  caller := .alloc
  handled := []
  transferred := []
  completed := []
  freed := 0

/-- Result of the allocations. -/
inductive Alloc
  /-- All succeed. -/
  | ok
  /-- The common structure cannot be allocated. -/
  | noRequest
  /-- The data of a sub-request cannot be allocated. -/
  | noData

/-- Result of `ocf_mio_async_lock`. -/
inductive Lock
  /-- `OCF_LOCK_ACQUIRED`. -/
  | acquired
  /-- `OCF_LOCK_NOT_ACQUIRED`. -/
  | notAcquired
  /-- An error. -/
  | error (e : Int)

/-- What happens. -/
inductive Act (n : Nat)
  /-- The caller allocates. -/
  | alloc (r : Alloc)
  /-- The caller goes on. -/
  | caller
  /-- A sub-request goes on. -/
  | go (i : Fin n)
  /-- A sub-request asks for its page locks. -/
  | lock (i : Fin n) (r : Lock)
  /-- The page locks are acquired later. -/
  | granted (i : Fin n)
  /-- The I/O of a sub-request ends. -/
  | ioEnd (i : Fin n) (error : Int)

section Code

variable (io : Io) {n : Nat}

/-- A sub-request moves on. -/
def State.goto (s : State n) (i : Fin n) (m : MReq) : State n := { s with reqs := Function.update s.reqs i m }

/-- Pages of a sub-request. -/
def MReq.pages (m : MReq) : List Nat := List.range' m.page m.count

/-- The decrement of `metadata_io_req_end`. -/
def metadataIoReqEnd (s : State n) : State n :=
  { s with
    reqRemaining := s.reqRemaining - 1
    completed := if s.reqRemaining - 1 = 0 then s.completed ++ [s.error] else s.completed }

/-- `metadata_io_req_finalize`. -/
def metadataIoReqFinalize (s : State n) : State n :=
  { s with
    reqActive := s.reqActive - 1
    freed := if s.reqActive - 1 = 0 then s.freed + 1 else s.freed }

/-- `metadata_io_req_advance` behind the look at the error. -/
def metadataIoReqTake (s : State n) (i : Fin n) (first : Bool) : State n :=
  let m := s.reqs i
  let curr := s.taken
  let s := { s with taken := curr + 1 }
  if io.ioCount ≤ curr then s.goto i { m with count := 0, pc := .ending first }
  else s.goto i { m with
    page := io.page + curr * io.metadataIoMaxPage
    count := min (io.count - curr * io.metadataIoMaxPage) io.metadataIoMaxPage
    pc := .check first false }

/-- `metadata_io_do`. -/
def metadataIoDo (s : State n) (i : Fin n) : State n :=
  let m := s.reqs i
  let s := if io.write then { s with handled := s.handled ++ m.pages } else s
  s.goto i { m with pc := .flight }

/-- `metadata_io_end`. -/
def metadataIoEnd (s : State n) (i : Fin n) (error : Int) : State n :=
  let m := s.reqs i
  let s := if error ≠ 0 then { s with error := if s.error = 0 then error else s.error }
    else { s with
      transferred := s.transferred ++ m.pages
      handled := if io.write then s.handled else s.handled ++ m.pages }
  s.goto i { m with locked := false, pc := .advance false }

/-- `metadata_io_restart_req`. -/
def metadataIoRestartReq (s : State n) (i : Fin n) : Lock → State n
  | .acquired => s.goto i { s.reqs i with locked := io.mioConc, pc := .perform }
  | .notAcquired => s.goto i { s.reqs i with pc := .waiting }
  | .error e => { s with error := e }.goto i { s.reqs i with pc := .finalize }

/-- A sub-request goes on. -/
def go (s : State n) (i : Fin n) : State n :=
  let m := s.reqs i
  match m.pc with
  | .advance first => s.goto i { m with pc := if s.error ≠ 0 then .ending first else .take first }
  | .take first => metadataIoReqTake io s i first
  | .ending first => (metadataIoReqEnd s).goto i { m with pc := .check first true }
  | .check true _ => s.goto i { m with pc := if m.count = 0 then .finalize else .restart }
  | .check false _ => s.goto i { m with pc := if m.count = 0 ∨ s.error ≠ 0 then .finalize else .restart }
  | .finalize => (metadataIoReqFinalize s).goto i { m with pc := .done }
  | .perform => metadataIoDo io s i
  | _ => s

/-- The caller goes on. -/
def callerStep (s : State n) : State n :=
  match s.caller with
  | .start k =>
    if h : k < n then
      { s with
        reqRemaining := s.reqRemaining + 1
        reqActive := s.reqActive + 1
        caller := .start (k + 1) }.goto ⟨k, h⟩ { s.reqs ⟨k, h⟩ with pc := .advance true }
    else { s with caller := .finish }
  | .finish => { metadataIoReqEnd s with caller := .release }
  | .release => { metadataIoReqFinalize s with caller := .returned 0 }
  | _ => s

/-- Effect of what happens. -/
def step (s : State n) : Act n → Option (State n)
  | .alloc .ok => some { s with caller := .start 0 }
  | .alloc .noRequest => some { s with caller := .returned errNoMem }
  | .alloc .noData => some { s with caller := .returned errNoMem, freed := s.freed + 1 }
  | .caller => some (callerStep s)
  | .go i => some (go io s i)
  | .lock i r => some (metadataIoRestartReq io s i r)
  | .granted i => some (s.goto i { s.reqs i with locked := true, pc := .perform })
  | .ioEnd i error => some (metadataIoEnd io s i error)

/-- A sub-request is at a place where it goes on by itself. -/
def Pc.runs : Pc → Bool
  | .advance _ | .take _ | .ending _ | .check _ _ | .finalize | .perform => true
  | _ => false

/-- The caller is at a place where it goes on by itself. -/
def Caller.runs : Caller → Bool
  | .start _ | .finish | .release => true
  | _ => false

/-- What may happen. Without page locks there is nothing to wait for. -/
def guard (s : State n) : Act n → Prop
  | .alloc _ => s.caller = .alloc
  | .caller => s.caller.runs = true
  | .go i => (s.reqs i).pc.runs = true
  | .lock i r => (s.reqs i).pc = .restart ∧ match r with
    | .acquired => True
    | .notAcquired => io.mioConc = true
    | .error e => io.mioConc = true ∧ e < 0
  | .granted i => (s.reqs i).pc = .waiting
  | .ioEnd i _ => (s.reqs i).pc = .flight

/-- Runs in which only some of the allowed steps are taken. -/
def system (allowed : State n → Act n → Prop) : System (State n) (Act n) where
  guard s act := guard io s act ∧ allowed s act
  step := step io

end Code

end OcfCache.MetadataIo
