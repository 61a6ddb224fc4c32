import OcfCache.Constants
import OcfCache.Runs

/-!
# The management lock

`utils_async_lock.c`. A critical section under `waiters_lock` is one step. The
completions of the waiters run outside of it: the list that a thread took out
of the section is part of the state, and its waiters are completed one by one
while other threads use the lock. Every call that may take the lock has a
number, which names its waiter if it has one. A `uint32_t` counts fewer
holders than it can hold.
-/

namespace OcfCache.AsyncLock

open Runs

/-- `struct ocf_async_lock_waiter`. -/
structure Waiter where
  /-- Number of the call. -/
  id : Nat
  /-- `write_lock`. -/
  writeLock : Bool
  deriving DecidableEq

/-- `struct ocf_async_lock`. -/
structure OcfAsyncLock where
  /-- `waiters`. -/
  waiters : List Waiter
  /-- `rd`. -/
  rd : Nat
  /-- `wr`. -/
  wr : Nat
  deriving DecidableEq

/-- The loop of `_ocf_async_lock_collect_waiters`, with the waiters moved so far. -/
def collectFrom (moved : List Waiter) (lock : OcfAsyncLock) : List Waiter → List Waiter × OcfAsyncLock
  | [] => (moved, { lock with waiters := [] })
  | iter :: temp =>
    if iter.writeLock = false then collectFrom (moved ++ [iter]) { lock with rd := lock.rd + 1 } temp
    else if lock.rd = 0 then (moved ++ [iter], { lock with waiters := temp, wr := 1 })
    else (moved, { lock with waiters := iter :: temp })

/-- `_ocf_async_lock_collect_waiters`. -/
def ocfAsyncLockCollectWaiters (lock : OcfAsyncLock) : List Waiter × OcfAsyncLock :=
  collectFrom [] lock lock.waiters

/-- `_ocf_async_trylock`. -/
def ocfAsyncTrylock (lock : OcfAsyncLock) : OcfAsyncLock × Int :=
  if lock.wr ≠ 0 ∨ lock.rd ≠ 0 then (lock, errNoLock) else ({ lock with wr := 1 }, 0)

/-- `_ocf_async_read_trylock`. -/
def ocfAsyncReadTrylock (lock : OcfAsyncLock) : OcfAsyncLock × Int :=
  if lock.wr ≠ 0 ∨ lock.waiters ≠ [] then (lock, errNoLock) else ({ lock with rd := lock.rd + 1 }, 0)

/-- The critical section of `ocf_async_unlock`. -/
def ocfAsyncUnlock (lock : OcfAsyncLock) : Option (List Waiter × OcfAsyncLock) :=
  if lock.rd ≠ 0 then none
  else if lock.wr = 0 then none
  else some (ocfAsyncLockCollectWaiters { lock with wr := 0 })

/-- The critical section of `ocf_async_read_unlock`. -/
def ocfAsyncReadUnlock (lock : OcfAsyncLock) : Option (List Waiter × OcfAsyncLock) :=
  if lock.rd = 0 then none
  else if lock.wr ≠ 0 then none
  else
    let lock := { lock with rd := lock.rd - 1 }
    if lock.rd ≠ 0 then some ([], lock) else some (ocfAsyncLockCollectWaiters lock)

/-- The lock with its users. -/
structure State where
  /-- The lock. -/
  lock : OcfAsyncLock
  /-- Waiters that threads still have to complete, in the order of their list, with the status. -/
  lists : List (List Waiter × Int)
  /-- Number of calls. -/
  calls : Nat
  /-- Calls that hold the lock for reading. -/
  readers : List Nat
  /-- Calls that hold the lock for writing. -/
  writers : List Nat
  /-- Waiters in the order in which their calls came. -/
  arrived : List Waiter
  /-- Waiters in the order in which they got the lock. -/
  granted : List Waiter
  /-- Statuses that `cmpl` of a waiter was called with. -/
  completed : Nat → List Int
  /-- `ocf_async_lock_deinit` was not called. -/
  live : Bool

/-- `ocf_async_lock_init`. -/
def ocfAsyncLockInit : State where
  lock := ⟨[], 0, 0⟩
  lists := []
  calls := 0
  readers := []
  writers := []
  arrived := []
  granted := []
  completed := fun _ => []
  live := true

/-- What the users do. -/
inductive Act
  /-- `ocf_async_lock`. -/
  | lock
  /-- `ocf_async_read_lock`. -/
  | readLock
  /-- `ocf_async_trylock`. -/
  | trylock
  /-- `ocf_async_read_trylock`. -/
  | readTrylock
  /-- `ocf_async_unlock` for the lock that a call got. -/
  | unlock (id : Nat)
  /-- `ocf_async_read_unlock` for the lock that a call got. -/
  | readUnlock (id : Nat)
  /-- `ocf_async_lock_deinit`. -/
  | deinit
  /-- A thread completes the next waiter of its list. -/
  | cmpl (i : Nat)

/-- Waiters that were given the lock hold it. -/
def State.grant (s : State) (moved : List Waiter) : State :=
  { s with
    lists := (moved, 0) :: s.lists
    granted := s.granted ++ moved
    readers := s.readers ++ (moved.filter (!·.writeLock)).map Waiter.id
    writers := s.writers ++ (moved.filter (·.writeLock)).map Waiter.id }

/-- `ocf_async_lock` and `ocf_async_read_lock`: the waiter gets the lock or
is appended to the list. -/
def lockWith (tryIt : OcfAsyncLock → OcfAsyncLock × Int) (writeLock : Bool) (s : State) : State :=
  let waiter := ⟨s.calls, writeLock⟩
  let result := tryIt s.lock
  let s := { s with calls := s.calls + 1, arrived := s.arrived ++ [waiter] }
  if result.2 = 0 then { s with lock := result.1 }.grant [waiter]
  else { s with lock := { result.1 with waiters := result.1.waiters ++ [waiter] } }

/-- Effect of what a user does; `none` is an `ENV_BUG_ON`. -/
def step (s : State) : Act → Option State
  | .lock => some (lockWith ocfAsyncTrylock true s)
  | .readLock => some (lockWith ocfAsyncReadTrylock false s)
  | .trylock =>
    let result := ocfAsyncTrylock s.lock
    let s' := { s with lock := result.1, calls := s.calls + 1 }
    some (if result.2 = 0 then { s' with writers := s.writers ++ [s.calls] } else s')
  | .readTrylock =>
    let result := ocfAsyncReadTrylock s.lock
    let s' := { s with lock := result.1, calls := s.calls + 1 }
    some (if result.2 = 0 then { s' with readers := s.readers ++ [s.calls] } else s')
  | .unlock id => (ocfAsyncUnlock s.lock).map fun r =>
      { s with lock := r.2, writers := s.writers.erase id }.grant r.1
  | .readUnlock id => (ocfAsyncReadUnlock s.lock).map fun r =>
      { s with lock := r.2, readers := s.readers.erase id }.grant r.1
  | .deinit => some { s with
      lock := { s.lock with waiters := [] }
      lists := (s.lock.waiters, errNoLock) :: s.lists
      live := false }
  | .cmpl i =>
    match s.lists[i]? with
    | some (iter :: temp, status) => some { s with
        lists := s.lists.set i (temp, status)
        completed := Function.update s.completed iter.id (s.completed iter.id ++ [status]) }
    | _ => none

/-- A call knows that it holds the lock: its waiter was completed, or it has none. -/
def Told (s : State) (id : Nat) : Prop := ∀ w ∈ s.arrived, w.id = id → s.completed id ≠ []

/-- What the users ensure: who unlocks holds the lock and knows it, and nothing
but completions comes after `ocf_async_lock_deinit`. -/
def guard (s : State) : Act → Prop
  | .unlock id => s.live = true ∧ id ∈ s.writers ∧ Told s id
  | .readUnlock id => s.live = true ∧ id ∈ s.readers ∧ Told s id
  | .cmpl i => ∃ iter temp status, s.lists[i]? = some (iter :: temp, status)
  | _ => s.live = true

/-- The lock and its users. -/
def system : System State Act := ⟨guard, step⟩

end OcfCache.AsyncLock
