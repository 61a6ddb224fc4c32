import OcfCache.Runs

/-!
# The asynchronous cache line lock

Embedding of `utils_alock.c`: one 8-bit access word per entry, waiters lists
shared by all entries of one residue, and the hand-over of a released lock to
the waiters of its entry. A word operation and a section under a waiters list
spinlock are one step each; `none` is a fired `ENV_BUG_ON`.

The counter `lock_remaining`, the resume callback and the allocator are left
out. A failed allocation in `lock_one` is the run that takes no section step.
The number of waiters lists is a parameter because it depends on the size of
the environment's spinlock.
-/

namespace OcfCache.Alock

open Function Runs

/-- Direction of a lock request: `OCF_READ` or `OCF_WRITE`. -/
inductive Rw
  | read
  | write
  deriving DecidableEq, Repr

/-- The value `OCF_CACHE_LINE_ACCESS_WR`, an `unsigned char` of `-1`. -/
def accessWr : BitVec 8 := 255#8

/-- The value `OCF_CACHE_LINE_ACCESS_IDLE`. -/
def accessIdle : BitVec 8 := 0#8

/-- The value `OCF_CACHE_LINE_ACCESS_ONE_RD`. -/
def accessOneRd : BitVec 8 := 1#8

/-- Compare and exchange: the new word and whether the exchange took place. -/
def cmpxchg (old new v : BitVec 8) : BitVec 8 × Bool :=
  if v = old then (new, true) else (v, false)

/-- Outcome of an access word operation that may fire `ENV_BUG_ON`. -/
abbrev WordOp := BitVec 8 → Option (BitVec 8 × Bool)

/-- Write lock an idle entry. -/
def ocfAlockTrylockEntryWr : WordOp :=
  fun v => some (cmpxchg accessIdle accessWr v)

/-- Read lock an idle entry. -/
def ocfAlockTrylockEntryRdIdle : WordOp :=
  fun v => some (cmpxchg accessIdle accessOneRd v)

/-- Add a reader with `env_atomic8_add_unless`, unless the word reads as a
write lock. -/
def ocfAlockTrylockEntryRd : WordOp :=
  fun v => if v = accessWr then some (v, false) else some (v + 1#8, true)

/-- Pass a write lock on to another writer. -/
def ocfAlockTrylockEntryWr2wr : WordOp :=
  fun v => if v ≠ accessWr then none else some (v, true)

/-- Downgrade a write lock for a waiting reader. -/
def ocfAlockTrylockEntryWr2rd : WordOp :=
  fun v => if v ≠ accessWr then none else some (accessOneRd, true)

/-- Upgrade the only read lock for a waiting writer. -/
def ocfAlockTrylockEntryRd2wr : WordOp :=
  fun v => if v = accessIdle then none else if v = accessWr then none else
    some (cmpxchg accessOneRd accessWr v)

/-- Pass a read lock on to another reader. -/
def ocfAlockTrylockEntryRd2rd : WordOp :=
  fun v => if v = accessIdle then none else if v = accessWr then none else some (v, true)

/-- Drop a write lock. -/
def ocfAlockUnlockEntryWr (v : BitVec 8) : Option (BitVec 8) :=
  if v ≠ accessWr then none else some accessIdle

/-- Drop one read lock. -/
def ocfAlockUnlockEntryRd (v : BitVec 8) : Option (BitVec 8) :=
  if v = 0#8 then none else if v = accessWr then none else some (v - 1#8)

/-- One lock on one entry, taken by index `idx` of a request. -/
structure Lock where
  /-- Locked entry. -/
  entry : Nat
  /-- Index in the request's map. -/
  idx : Nat
  /-- Locking client. -/
  req : Nat
  /-- Direction of the lock. -/
  rw : Rw
  deriving DecidableEq, Repr

/-- A queued `struct ocf_alock_waiter`. -/
structure Waiter extends Lock where
  /-- Ghost queueing number. -/
  ticket : Nat
  deriving DecidableEq, Repr

/-- The lock object, with ghost records of grants and removals. -/
structure State where
  /-- The access words. -/
  access : Nat → BitVec 8
  /-- The waiters lists, queue heads first. -/
  waitersLsts : Nat → List Waiter
  /-- Locks held, which are the set bits of the requests' `alock_status`. -/
  holders : List Lock
  /-- Ghost log of waiters that were granted, oldest first. -/
  granted : List Waiter
  /-- Ghost log of waiters that were cancelled, oldest first. -/
  removed : List Waiter
  /-- Ghost next queueing number. -/
  nextTicket : Nat

/-- A freshly initialised lock. -/
def init : State := ⟨fun _ => accessIdle, fun _ => [], [], [], [], 0⟩

/-- `ocf_alock_is_index_locked`. -/
def ocfAlockIsIndexLocked (s : State) (req idx : Nat) : Bool :=
  s.holders.any fun l => decide (l.req = req ∧ l.idx = idx)

/-- What distinguishes the two copies of the common unlock. -/
structure UnlockOps where
  /-- Exchange of the released lock for a waiting writer. -/
  toWr : WordOp
  /-- Exchange of the released lock for a waiting reader. -/
  toRd : WordOp
  /-- Release without exchange. -/
  drop : BitVec 8 → Option (BitVec 8)

/-- Operations of `ocf_alock_unlock_one_rd_common`. -/
def rdOps : UnlockOps :=
  ⟨ocfAlockTrylockEntryRd2wr, ocfAlockTrylockEntryRd2rd, ocfAlockUnlockEntryRd⟩

/-- Operations of `ocf_alock_unlock_one_wr_common`. -/
def wrOps : UnlockOps :=
  ⟨ocfAlockTrylockEntryWr2wr, ocfAlockTrylockEntryWr2rd, ocfAlockUnlockEntryWr⟩

/-- Operations of the unlock that matches a direction. -/
def opsOf : Rw → UnlockOps
  | .read => rdOps
  | .write => wrOps

/-- Operation that tries to grant one waiter. -/
def grantOp (ops : UnlockOps) (exchanged : Bool) : Rw → WordOp
  | .write => if exchanged then ops.toWr else ocfAlockTrylockEntryWr
  | .read => if exchanged then ops.toRd else ocfAlockTrylockEntryRd

/-- Result of the walk over a waiters list. -/
structure Walk where
  /-- Access word after the walk. -/
  word : BitVec 8
  /-- No waiter was granted. -/
  exchanged : Bool
  /-- Waiters left on the list. -/
  kept : List Waiter
  /-- Waiters granted, first granted first. -/
  woken : List Waiter

/-- The `list_for_each_safe` loop of the common unlock: skip foreign entries,
grant waiters of the entry and stop at the first that cannot be granted. -/
def unlockWalk (ops : UnlockOps) (entry : Nat) :
    Bool → BitVec 8 → List Waiter → Option Walk
  | exchanged, v, [] => some ⟨v, exchanged, [], []⟩
  | exchanged, v, w :: ws =>
    if entry ≠ w.entry then
      (unlockWalk ops entry exchanged v ws).map fun r => { r with kept := w :: r.kept }
    else
      match grantOp ops exchanged w.rw v with
      | none => none
      | some (v', false) => some ⟨v', exchanged, w :: ws, []⟩
      | some (v', true) =>
        (unlockWalk ops entry false v' ws).map fun r => { r with woken := w :: r.woken }

/-- Commit a finished walk to the lock object. -/
def State.commit (s : State) (n entry : Nat) (r : Walk) (v : BitVec 8) : State :=
  { s with
    access := update s.access entry v
    waitersLsts := update s.waitersLsts (entry % n) r.kept
    holders := s.holders ++ r.woken.map Waiter.toLock
    granted := s.granted ++ r.woken }

/-- Word left by a finished walk: without an exchange the lock is dropped. -/
def Walk.release (ops : UnlockOps) (r : Walk) : Option (BitVec 8) :=
  if r.exchanged then ops.drop r.word else some r.word

/-- Common unlock, under the waiters list lock. -/
def unlockOneCommon (ops : UnlockOps) (n : Nat) (s : State) (entry : Nat) : Option State :=
  match unlockWalk ops entry true (s.access entry) (s.waitersLsts (entry % n)) with
  | none => none
  | some r => (r.release ops).map (s.commit n entry r)

/-- `ocf_alock_unlock_one_rd_common`. -/
def ocfAlockUnlockOneRdCommon : Nat → State → Nat → Option State :=
  unlockOneCommon rdOps

/-- `ocf_alock_unlock_one_wr_common`. -/
def ocfAlockUnlockOneWrCommon : Nat → State → Nat → Option State :=
  unlockOneCommon wrOps

/-- `ocf_alock_mark_index_locked` with a cleared bit. -/
def State.clear (s : State) (l : Lock) : State :=
  { s with holders := s.holders.erase l }

/-- `ocf_alock_mark_index_locked` with a set bit, after the word was taken. -/
def State.hold (s : State) (l : Lock) (v : BitVec 8) : State :=
  { s with
    access := update s.access l.entry v
    holders := s.holders ++ [l] }

/-- `ocf_alock_waitlist_add` of a waiter set up for a lock. -/
def State.waitlistAdd (s : State) (n : Nat) (l : Lock) : State :=
  { s with
    waitersLsts := update s.waitersLsts (l.entry % n)
      (s.waitersLsts (l.entry % n) ++ [⟨l, s.nextTicket⟩])
    nextTicket := s.nextTicket + 1 }

theorem unlock_cases {ops : UnlockOps} {n e : Nat} {s s' : State} {l : Lock}
    (h : (unlockOneCommon ops n s e).map (·.clear l) = some s') :
    ∃ r v, unlockWalk ops e true (s.access e) (s.waitersLsts (e % n)) = some r ∧
      r.release ops = some v ∧ s' = (s.commit n e r v).clear l := by
  obtain ⟨s1, hs1, rfl⟩ := Option.map_eq_some_iff.mp h
  unfold unlockOneCommon at hs1
  split at hs1
  · cases hs1
  · rename_i r hwalk
    obtain ⟨v, hrel, rfl⟩ := Option.map_eq_some_iff.mp hs1
    exact ⟨r, v, hwalk, hrel, rfl⟩

/-- A fast trylock followed by the marking of the index on success. -/
def State.tryWith (s : State) (op : WordOp) (l : Lock) : Option State :=
  match op (s.access l.entry) with
  | none => none
  | some (v, true) => some (s.hold l v)
  | some (_, false) => some s

/-- `ocf_alock_waitlist_is_empty_locked`. -/
def ocfAlockWaitlistIsEmptyLocked (s : State) (n entry : Nat) : Bool :=
  !((s.waitersLsts (entry % n)).any fun w => decide (w.entry = entry))

/-- A trylock under the waiters list lock that queues the lock on failure. -/
def State.tryOrAdd (s : State) (n : Nat) (op : WordOp) (l : Lock) : Option State :=
  match op (s.access l.entry) with
  | none => none
  | some (v, true) => some (s.hold l v)
  | some (_, false) => some (s.waitlistAdd n l)

/-- Section of `ocf_alock_lock_one_wr` under the waiters list lock. -/
def ocfAlockLockOneWr (n : Nat) (s : State) (l : Lock) : Option State :=
  s.tryOrAdd n ocfAlockTrylockEntryWr l

/-- Section of `ocf_alock_lock_one_rd` under the waiters list lock. -/
def ocfAlockLockOneRd (n : Nat) (s : State) (l : Lock) : Option State :=
  if ocfAlockWaitlistIsEmptyLocked s n l.entry then
    s.tryOrAdd n ocfAlockTrylockEntryRd l
  else
    some (s.waitlistAdd n l)

/-- First waiter of a request on a list, whatever entry it waits for. -/
def findWaiter (req : Nat) (ws : List Waiter) : Option Waiter :=
  ws.find? fun w => decide (w.req = req)

/-- Unlink the first waiter of a request from a list. -/
def State.unlink (s : State) (n entry req : Nat) : State :=
  match findWaiter req (s.waitersLsts (entry % n)) with
  | none => s
  | some w =>
    { s with
      waitersLsts := update s.waitersLsts (entry % n)
        ((s.waitersLsts (entry % n)).eraseP fun w => decide (w.req = req))
      removed := s.removed ++ [w] }

/-- `ocf_alock_waitlist_remove_entry`: a lock granted in the meantime is
released, else the request's first waiter on the list is unlinked. -/
def ocfAlockWaitlistRemoveEntry (n : Nat) (s : State) (l : Lock) : Option State :=
  if ocfAlockIsIndexLocked s l.req l.idx then
    (unlockOneCommon (opsOf l.rw) n s l.entry).map (·.clear l)
  else
    some (s.unlink n l.entry l.req)

/-- Steps of the lock clients. -/
inductive Action
  /-- `ocf_alock_trylock_entry_wr`, also the first attempt of `lock_one_wr`. -/
  | trylockEntryWr (l : Lock)
  /-- `ocf_alock_trylock_entry_rd_idle`, also the first attempt of `lock_one_rd`. -/
  | trylockEntryRdIdle (l : Lock)
  /-- Queueing section of `ocf_alock_lock_one_wr`. -/
  | lockOneWr (l : Lock)
  /-- Queueing section of `ocf_alock_lock_one_rd`. -/
  | lockOneRd (l : Lock)
  /-- `ocf_alock_unlock_one_rd`. -/
  | unlockOneRd (l : Lock)
  /-- `ocf_alock_unlock_one_wr`. -/
  | unlockOneWr (l : Lock)
  /-- `ocf_alock_waitlist_remove_entry`. -/
  | waitlistRemoveEntry (l : Lock)
  deriving DecidableEq, Repr

/-- The index neither holds nor awaits a lock. -/
def Unused (s : State) (l : Lock) : Prop :=
  (∀ h ∈ s.holders, ¬(h.req = l.req ∧ h.idx = l.idx)) ∧
    ∀ i, ∀ w ∈ s.waitersLsts i, ¬(w.req = l.req ∧ w.idx = l.idx)

/-- Callers' contract: lock an unused index in the step's direction, unlock
what is held, and cancel an index with its own entry and direction. -/
def Permitted (s : State) : Action → Prop
  | .trylockEntryWr l => l.rw = .write ∧ Unused s l
  | .trylockEntryRdIdle l => l.rw = .read ∧ Unused s l
  | .lockOneWr l => l.rw = .write ∧ Unused s l
  | .lockOneRd l => l.rw = .read ∧ Unused s l
  | .unlockOneRd l => l.rw = .read ∧ l ∈ s.holders
  | .unlockOneWr l => l.rw = .write ∧ l ∈ s.holders
  | .waitlistRemoveEntry l =>
    ∀ h ∈ s.holders, h.req = l.req → h.idx = l.idx → h = l

/-- Effect of one step. -/
def step (n : Nat) (s : State) : Action → Option State
  | .trylockEntryWr l => s.tryWith ocfAlockTrylockEntryWr l
  | .trylockEntryRdIdle l => s.tryWith ocfAlockTrylockEntryRdIdle l
  | .lockOneWr l => ocfAlockLockOneWr n s l
  | .lockOneRd l => ocfAlockLockOneRd n s l
  | .unlockOneRd l => (ocfAlockUnlockOneRdCommon n s l.entry).map (·.clear l)
  | .unlockOneWr l => (ocfAlockUnlockOneWrCommon n s l.entry).map (·.clear l)
  | .waitlistRemoveEntry l => ocfAlockWaitlistRemoveEntry n s l

/-- The lock as a system, for `n` waiters lists. -/
def alock (n : Nat) : System State Action := ⟨Permitted, step n⟩

end OcfCache.Alock
