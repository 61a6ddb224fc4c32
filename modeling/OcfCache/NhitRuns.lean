import Mathlib.Algebra.Order.BigOperators.Group.Finset
import OcfCache.NhitHash
import OcfCache.Runs

/-!
# Threads on the N-hit hash table

Any number of threads call `nhit_hash_insert`, `nhit_hash_query` and
`nhit_hash_set_occurences`. A step is a section under the lock of the ring
pointer, the change or the look-up under the locks of the hash buckets, one
operation on such a lock, or one of the two reads of the slot that an insertion
does outside all locks. A step that waits for a lock is not enabled; the
release of a lock that the thread does not hold, and a look-up that does not
end, are the result `none`.
-/

namespace OcfCache.Nhit

open Function LinkedLists Runs

/-- Variables of `nhit_hash_insert`. -/
structure Ins where
  /-- Core to insert. -/
  core : Nat
  /-- Core line to insert. -/
  lba : Nat
  /-- `slot_id`. -/
  slot : Nat
  /-- `slot_core_id`. -/
  slotCore : Nat
  /-- `slot_core_lba`. -/
  slotLba : Nat

/-- What is done with a slot that is found. -/
inductive ReadOp
  /-- `nhit_hash_query`. -/
  | query
  /-- `nhit_hash_set_occurences`. -/
  | setOccurences (occurences : Int)

/-- Where a thread is. -/
inductive Pc
  /-- In no call. -/
  | idle
  /-- Before `get_rb_slot`. -/
  | claim (core lba : Nat)
  /-- Before the read of the core of the slot. -/
  | readId (core lba slot : Nat)
  /-- Before the read of its core line. -/
  | readLba (core lba slot slotCore : Nat)
  /-- Before the first lock of `write_lock_hashes`. -/
  | lockFirst (i : Ins)
  /-- Before the second one. -/
  | lockSecond (i : Ins)
  /-- Before `collision_remove` and `collision_insert_new`. -/
  | change (i : Ins)
  /-- Before the first release of `write_unlock_hashes`. -/
  | unlockFirst (i : Ins)
  /-- Before the second one. -/
  | unlockSecond (i : Ins)
  /-- Before `commit_rb_slot`. -/
  | commit (slot : Nat)
  /-- Before the lock of a reader. -/
  | lockRead (op : ReadOp) (core lba : Nat)
  /-- Before `core_line_lookup`. -/
  | lookup (op : ReadOp) (core lba : Nat)
  /-- Before the release of a reader. -/
  | unlockRead (core lba : Nat)

/-- Locks of the buckets. -/
structure Locks where
  /-- Writer of a bucket. -/
  writer : Nat → Option Nat
  /-- Readers of a bucket. -/
  readers : Nat → List Nat

/-- The table, its locks and the threads. -/
structure State where
  /-- The table. -/
  table : Table
  /-- The locks. -/
  locks : Locks
  /-- The threads. -/
  pc : Nat → Pc

/-- Calls of a thread. -/
inductive Call
  /-- `nhit_hash_insert`. -/
  | insert (core lba : Nat)
  /-- `nhit_hash_query` and `nhit_hash_set_occurences`. -/
  | read (op : ReadOp) (core lba : Nat)

/-- Core of a call. -/
def Call.core : Call → Nat
  | .insert core _ => core
  | .read _ core _ => core

/-- Start of a call. -/
def Call.start : Call → Pc
  | .insert core lba => .claim core lba
  | .read op core lba => .lockRead op core lba

/-- A call or a step of a thread. -/
inductive Act
  /-- A thread enters a call. -/
  | call (t : Nat) (c : Call)
  /-- A thread goes on. -/
  | step (t : Nat)

/-- `env_rwsem_down_write`. -/
def Locks.downWrite (l : Locks) (h t : Nat) : Locks := { l with writer := update l.writer h (some t) }

/-- `env_rwsem_up_write`. -/
def Locks.upWrite (l : Locks) (h t : Nat) : Option Locks :=
  if l.writer h = some t then some { l with writer := update l.writer h none } else none

/-- `env_rwsem_down_read`. -/
def Locks.downRead (l : Locks) (h t : Nat) : Locks :=
  { l with readers := update l.readers h (t :: l.readers h) }

/-- `env_rwsem_up_read`. -/
def Locks.upRead (l : Locks) (h t : Nat) : Option Locks :=
  if t ∈ l.readers h then some { l with readers := update l.readers h ((l.readers h).erase t) } else none

/-- A bucket can be locked for write. -/
def Locks.Free (l : Locks) (h : Nat) : Prop := l.writer h = none ∧ l.readers h = []

section Code

variable (cfg : Config)

/-- `hash1` of an insertion. -/
def Ins.hash1 (i : Ins) : Nat := hashFunction cfg i.core i.lba

/-- `hash2` of an insertion. -/
def Ins.hash2 (i : Ins) : Nat := hashFunction cfg i.slotCore i.slotLba

/-- `lock_order[0]`. -/
def Ins.first (i : Ins) : Nat := min (i.hash1 cfg) (i.hash2 cfg)

/-- `lock_order[1]`. -/
def Ins.second (i : Ins) : Nat := max (i.hash1 cfg) (i.hash2 cfg)

/-- The bucket whose lock a thread asks for, for write or for read. -/
def awaits : Pc → Option (Nat × Bool)
  | .lockFirst i => if i.first cfg ≠ cfg.hashEntries then some (i.first cfg, true) else none
  | .lockSecond i =>
    if i.second cfg ≠ cfg.hashEntries ∧ i.first cfg ≠ i.second cfg then some (i.second cfg, true) else none
  | .lockRead _ core lba => some (hashFunction cfg core lba, false)
  | _ => none

/-- A thread can go on. -/
def Enabled (s : State) (t : Nat) : Prop :=
  match awaits cfg (s.pc t) with
  | some (h, true) => s.locks.Free h
  | some (h, false) => s.locks.writer h = none
  | none => match s.pc t with
    | .idle => False
    | _ => True

/-- The effect of a look-up on the counter of the slot. -/
def readSlot (t : Table) (op : ReadOp) (slot : Nat) : Table :=
  if slot = cfg.rbEntries then t
  else setSlot t slot fun e =>
    { e with counter := match op with
      | .query => envAtomicIncReturn e.counter
      | .setOccurences n => n }

/-- The thread goes to another place. -/
def State.goto (s : State) (t : Nat) (pc : Pc) : State := { s with pc := update s.pc t pc }

/-- A step of a thread. -/
def stepThread (s : State) (t : Nat) : Option State :=
  match s.pc t with
  | .idle => none
  | .claim core lba =>
    let r := getRbSlot cfg s.table
    some ({ s with table := r.2.2 }.goto t (if r.1 = true then .readId core lba r.2.1 else .idle))
  | .readId core lba slot => some (s.goto t (.readLba core lba slot (s.table.ring slot).coreId))
  | .readLba core lba slot slotCore =>
    some (s.goto t (.lockFirst ⟨core, lba, slot, slotCore, (s.table.ring slot).coreLba⟩))
  | .lockFirst i =>
    some ({ s with locks := if i.first cfg ≠ cfg.hashEntries then s.locks.downWrite (i.first cfg) t else s.locks }.goto
      t (.lockSecond i))
  | .lockSecond i =>
    some ({ s with locks := if i.second cfg ≠ cfg.hashEntries ∧ i.first cfg ≠ i.second cfg then
      s.locks.downWrite (i.second cfg) t else s.locks }.goto t (.change i))
  | .change i =>
    some ({ s with table := collisionInsertNew cfg (collisionRemove cfg s.table i.slot) i.slot i.core i.lba }.goto t
      (.unlockFirst i))
  | .unlockFirst i =>
    (if i.hash1 cfg ≠ cfg.hashEntries then s.locks.upWrite (i.hash1 cfg) t else some s.locks).map fun locks =>
      { s with locks }.goto t (.unlockSecond i)
  | .unlockSecond i =>
    (if i.hash2 cfg ≠ cfg.hashEntries ∧ i.hash1 cfg ≠ i.hash2 cfg then s.locks.upWrite (i.hash2 cfg) t
      else some s.locks).map fun locks => { s with locks }.goto t (.commit i.slot)
  | .commit slot => some ({ s with table := commitRbSlot s.table slot }.goto t .idle)
  | .lockRead op core lba =>
    some ({ s with locks := s.locks.downRead (hashFunction cfg core lba) t }.goto t (.lookup op core lba))
  | .lookup op core lba =>
    (coreLineLookup cfg s.table core lba).map fun slot =>
      { s with table := readSlot cfg s.table op slot }.goto t (.unlockRead core lba)
  | .unlockRead core lba =>
    (s.locks.upRead (hashFunction cfg core lba) t).map fun locks => { s with locks }.goto t .idle

/-- When an action can be taken. -/
def guard (s : State) : Act → Prop
  | .call t c => (match s.pc t with | .idle => True | _ => False) ∧ c.core ≠ ocfCoreIdInvalid
  | .step t => Enabled cfg s t

/-- Effect of an action. -/
def step (s : State) : Act → Option State
  | .call t c => some (s.goto t c.start)
  | .step t => stepThread cfg s t

/-- The threads as a labelled system. -/
def system : System State Act := ⟨guard cfg, step cfg⟩

/-- The table after `nhit_hash_init`, with no thread in a call. -/
def initial : State := ⟨nhitHashInit cfg, ⟨fun _ => none, fun _ => []⟩, fun _ => .idle⟩

end Code

/-- The slot that a thread has claimed. -/
def claims : Pc → Option Nat
  | .readId _ _ slot => some slot
  | .readLba _ _ slot _ => some slot
  | .lockFirst i => some i.slot
  | .lockSecond i => some i.slot
  | .change i => some i.slot
  | .unlockFirst i => some i.slot
  | .unlockSecond i => some i.slot
  | .commit slot => some slot
  | _ => none

/-- The core that a thread works for is valid. -/
def Proper : Pc → Prop
  | .claim core _ => core ≠ ocfCoreIdInvalid
  | .readId core _ _ => core ≠ ocfCoreIdInvalid
  | .readLba core _ _ _ => core ≠ ocfCoreIdInvalid
  | .lockFirst i => i.core ≠ ocfCoreIdInvalid
  | .lockSecond i => i.core ≠ ocfCoreIdInvalid
  | .change i => i.core ≠ ocfCoreIdInvalid
  | .unlockFirst i => i.core ≠ ocfCoreIdInvalid
  | .unlockSecond i => i.core ≠ ocfCoreIdInvalid
  | .lockRead _ core _ => core ≠ ocfCoreIdInvalid
  | .lookup _ core _ => core ≠ ocfCoreIdInvalid
  | .unlockRead core _ => core ≠ ocfCoreIdInvalid
  | _ => True

/-- What a thread has read of its slot is still there. -/
def Known (t : Table) : Pc → Prop
  | .readLba _ _ slot slotCore => (t.ring slot).coreId = slotCore
  | .lockFirst i => (t.ring i.slot).coreId = i.slotCore ∧ (t.ring i.slot).coreLba = i.slotLba
  | .lockSecond i => (t.ring i.slot).coreId = i.slotCore ∧ (t.ring i.slot).coreLba = i.slotLba
  | .change i => (t.ring i.slot).coreId = i.slotCore ∧ (t.ring i.slot).coreLba = i.slotLba
  | _ => True

/-- The buckets that a thread has locked for write. -/
def HoldsWrite (cfg : Config) : Pc → Nat → Prop
  | .lockSecond i, h => h ≠ cfg.hashEntries ∧ h = i.first cfg
  | .change i, h => h ≠ cfg.hashEntries ∧ (h = i.hash1 cfg ∨ h = i.hash2 cfg)
  | .unlockFirst i, h => h ≠ cfg.hashEntries ∧ (h = i.hash1 cfg ∨ h = i.hash2 cfg)
  | .unlockSecond i, h => h ≠ cfg.hashEntries ∧ h = i.hash2 cfg ∧ h ≠ i.hash1 cfg
  | _, _ => False

/-- The buckets that a thread has locked for read. -/
def HoldsRead (cfg : Config) : Pc → Nat → Prop
  | .lookup _ core lba, h => h = hashFunction cfg core lba
  | .unlockRead core lba, h => h = hashFunction cfg core lba
  | _, _ => False

end OcfCache.Nhit
