import Mathlib.Logic.Function.Iterate
import OcfCache.AlockClient
import OcfCache.Requests

/-!
# Locking all lines of a request

Embedding of `ocf_alock_lock_rd` and `ocf_alock_lock_wr` with the callbacks of
the cache line lock, `ocf_cl_lock_line_fast` and `ocf_cl_lock_line_slow`, as a
machine that takes one step of the lock at a time. Steps of other requests come
in between and may grant what the request waits for. The machine counts
`lock_remaining` and the calls of the completion.
-/

namespace OcfCache.AlockRequests

open Runs Requests Alock AlockExclusion AlockWakeup AlockClient

/-- A request that locks its cache lines. -/
structure Client where
  /-- Number of waiters lists of the lock. -/
  lists : Nat
  /-- There is a waiters list. -/
  lists_pos : 0 < lists
  /-- The request. -/
  id : Nat
  /-- Direction of the lock. -/
  rw : Rw
  /-- `core_line_count`. -/
  count : Nat
  /-- Map of the request. -/
  map : Nat → MapInfo

/-- Return values of `ocf_alock_lock_rd` and `ocf_alock_lock_wr`. -/
inductive Result
  /-- `OCF_LOCK_ACQUIRED`. -/
  | acquired
  /-- `OCF_LOCK_NOT_ACQUIRED`. -/
  | notAcquired
  /-- `-OCF_ERR_NO_MEM`. -/
  | noMem
  deriving DecidableEq, Repr

/-- Where the call is. -/
inductive Pc
  /-- First loop of `ocf_cl_lock_line_fast`. -/
  | fast (i : Nat)
  /-- Its second loop, with the indices left. -/
  | undo (left : Nat)
  /-- The counter is set up. -/
  | prepare
  /-- First loop of `ocf_cl_lock_line_slow`. -/
  | slow (i : Nat)
  /-- In `lock_one`, with a waiter allocated. -/
  | queue (i : Nat)
  /-- Error path of `ocf_cl_lock_line_slow`, with the indices left. -/
  | rollback (left : Nat)
  /-- The counter is decremented at the end. -/
  | finish
  /-- The counter is cleared after an error. -/
  | fail
  /-- The call returned. -/
  | done (result : Result)
  deriving DecidableEq, Repr

/-- A call with the lock. -/
structure Call where
  /-- The lock. -/
  lock : State
  /-- Where the call is. -/
  pc : Pc
  /-- `lock_remaining`. -/
  lockRemaining : Int
  /-- Number of completion calls. -/
  cmplCalls : Nat

section Code

variable (cl : Client)

/-- `ocf_cl_lock_line_needs_lock`. -/
def ocfClLockLineNeedsLock (i : Nat) : Bool :=
  decide ((cl.map i).status ≠ .miss) && decide ((cl.map i).status ≠ .remapped)

/-- The lock for an index, on the entry of `ocf_cl_lock_line_get_entry`. -/
def lockOf (i : Nat) : Lock := ⟨(cl.map i).collIdx, i, cl.id, cl.rw⟩

/-- `ocf_alock_entry_locked`. -/
def ocfAlockEntryLocked (c : Call) : Call :=
  { c with
    lockRemaining := c.lockRemaining - 1
    cmplCalls := if c.lockRemaining - 1 = 0 then c.cmplCalls + 1 else c.cmplCalls }

/-- The lock after a step, with `ocf_alock_entry_locked` for every waiter of
the request that the step granted. -/
def Call.after (c : Call) (lock : State) : Call :=
  ocfAlockEntryLocked^[resumed cl.id c.lock lock] { c with lock := lock }

/-- `ocf_alock_is_index_locked` for the request. -/
def isLocked (lock : State) (i : Nat) : Bool := ocfAlockIsIndexLocked lock cl.id i

/-- The next step of the call, with the outcome of an allocation. -/
def run (alloc : Bool) (c : Call) : Option Call :=
  match c.pc with
  | .fast i =>
    if cl.count ≤ i then some { c with pc := .done .acquired }
    else if ocfClLockLineNeedsLock cl i = false then some { c with pc := .fast (i + 1) }
    else if isLocked cl c.lock i then none
    else (step cl.lists c.lock (tryAct (lockOf cl i))).map fun lock =>
      { c with lock := lock, pc := if isLocked cl lock i then .fast (i + 1) else .undo (i + 1) }
  | .undo 0 => some { c with pc := .prepare }
  | .undo (k + 1) =>
    if ocfClLockLineNeedsLock cl k && isLocked cl c.lock k then
      (step cl.lists c.lock (unlockAct (lockOf cl k))).map fun lock =>
        { c.after cl lock with pc := .undo k }
    else some { c with pc := .undo k }
  | .prepare =>
    if c.lockRemaining ≠ 0 then none
    else some { c with lockRemaining := cl.count + 1, pc := .slow 0 }
  | .slow i =>
    if cl.count ≤ i then some { c with pc := .finish }
    else if ocfClLockLineNeedsLock cl i = false then
      some { c with lockRemaining := c.lockRemaining - 1, pc := .slow (i + 1) }
    else if isLocked cl c.lock i then none
    else (step cl.lists c.lock (tryAct (lockOf cl i))).map fun lock =>
      if isLocked cl lock i then
        { ocfAlockEntryLocked { c with lock := lock } with pc := .slow (i + 1) }
      else { c with lock := lock, pc := if alloc then .queue i else .rollback (i + 1) }
  | .queue i =>
    (step cl.lists c.lock (lockAct (lockOf cl i))).map fun lock =>
      if isLocked cl lock i then
        { ocfAlockEntryLocked { c with lock := lock } with pc := .slow (i + 1) }
      else { c with lock := lock, pc := .slow (i + 1) }
  | .rollback 0 => some { c with pc := .fail }
  | .rollback (k + 1) =>
    if ocfClLockLineNeedsLock cl k then
      (step cl.lists c.lock (.waitlistRemoveEntry (lockOf cl k))).map fun lock =>
        { c.after cl lock with pc := .rollback k }
    else some { c with pc := .rollback k }
  | .finish =>
    some { c with
      lockRemaining := c.lockRemaining - 1
      pc := .done (if c.lockRemaining - 1 = 0 then .acquired else .notAcquired) }
  | .fail => some { c with lockRemaining := 0, pc := .done .noMem }
  | .done _ => none

/-- Steps: one of another request, or one of the call. -/
inductive Act
  | other (act : Action)
  | run (alloc : Bool)

/-- When the error path comes to an index that still waits, the waiter of that
index is the first one of the request on its list. -/
def OwnWaiterFirst (c : Call) : Prop :=
  match c.pc with
  | .rollback (k + 1) => lockOf cl k ∈ waitingBy cl.lists cl.id c.lock →
    ∀ w, findWaiter cl.id (c.lock.waitersLsts ((lockOf cl k).entry % cl.lists)) = some w →
      w.idx = k
  | _ => True

/-- Other requests keep the contract of the lock; the call meets the condition. -/
def Guard (c : Call) : Act → Prop
  | .other act => (actionLock act).req ≠ cl.id ∧ Permitted c.lock act
  | .run _ => OwnWaiterFirst cl c

/-- Effect of one step. -/
def next (c : Call) : Act → Option Call
  | .other act => (step cl.lists c.lock act).map (c.after cl)
  | .run alloc => run cl alloc c

/-- The call among other requests. -/
def callSystem : System Call Act := ⟨Guard cl, next cl⟩

/-- Start of a call: the request waits for nothing, it holds no line that the
call is to lock, and the counter is zero. -/
def Start (c : Call) : Prop :=
  RunIn (alock cl.lists) FewReaders init c.lock ∧ c.pc = .fast 0 ∧ c.lockRemaining = 0 ∧
    c.cmplCalls = 0 ∧ (∀ i, ∀ w ∈ c.lock.waitersLsts i, w.req ≠ cl.id) ∧
    ∀ h ∈ c.lock.holders, h.req = cl.id →
      ¬(h.idx < cl.count ∧ ocfClLockLineNeedsLock cl h.idx = true)

/-- Every line that needs a lock is locked for the request. -/
def AllLocked (c : Call) : Prop :=
  ∀ i < cl.count, ocfClLockLineNeedsLock cl i = true → lockOf cl i ∈ c.lock.holders

/-- Every line that needs a lock is locked for the request or waited for. -/
def LockedOrAwaited (c : Call) : Prop :=
  ∀ i < cl.count, ocfClLockLineNeedsLock cl i = true →
    lockOf cl i ∈ c.lock.holders ∨ lockOf cl i ∈ waitingBy cl.lists cl.id c.lock

/-- How the call ended, if it did. Without an error no line is left out; the
completion is called when the last line becomes locked, and otherwise not. -/
def Outcome (c : Call) : Prop :=
  match c.pc with
  | .done .acquired => AllLocked cl c ∧ c.cmplCalls = 0
  | .done .notAcquired => LockedOrAwaited cl c ∧
    ((AllLocked cl c ∧ c.cmplCalls = 1) ∨ (¬AllLocked cl c ∧ c.cmplCalls = 0))
  | .done .noMem =>
    c.cmplCalls = 0 ∧ (∀ i, ∀ w ∈ c.lock.waitersLsts i, w.req ≠ cl.id) ∧
      (∀ i < cl.count, ocfClLockLineNeedsLock cl i = true → isLocked cl c.lock i = false) ∧
      c.lockRemaining = 0
  | _ => c.cmplCalls = 0

/-- Bound on the number of steps that a call still takes. -/
def left : Pc → Nat
  | .fast i => 4 * cl.count + 8 + (cl.count - i)
  | .undo k => 3 * cl.count + 6 + k
  | .prepare => 3 * cl.count + 5
  | .slow i => cl.count + 4 + 2 * (cl.count - i)
  | .queue i => cl.count + 3 + 2 * (cl.count - i)
  | .rollback k => k + 2
  | .finish => 1
  | .fail => 1
  | .done _ => 0

/-- The call has returned, or its next step succeeds and brings it closer to
its end. -/
def Advances (c : Call) : Prop :=
  (∃ result, c.pc = .done result) ∨
    ∀ alloc, ∃ c', run cl alloc c = some c' ∧ left cl c'.pc < left cl c.pc

end Code

end OcfCache.AlockRequests
