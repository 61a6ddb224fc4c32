import Mathlib.Algebra.GroupWithZero.Nat
import OcfCache.Runs

/-!
# The lock word of a hash bucket

Embedding of `hash_lock_lock` and `hash_lock_unlock` of
`ocf_metadata_concurrency.c` and of `ocf_metadata_set_hash`: the head of the
bucket's chain, a reader counter and a writer bit share one 32-bit word. Reads,
compare-and-swaps and stores of the word are one step each; `none` is a fired
`ENV_BUG_ON`. A caller that holds the bucket more than once counts as that many
threads.
-/

namespace OcfCache.HashLock

open Runs

/-- `OCF_METADATA_RD` or `OCF_METADATA_WR`. -/
inductive Rw
  | rd
  | wr
  deriving DecidableEq, Repr

/-- `struct ocf_hash_entry`. -/
structure HashEntry where
  /-- First line of the chain, `OCF_CACHE_LINE_BITS` wide. -/
  line : BitVec 29
  /-- Number of readers. -/
  rd : BitVec 2
  /-- There is a writer. -/
  wr : BitVec 1
  deriving DecidableEq, Repr

/-- The union's `raw`, bit-fields from the low end up. -/
def HashEntry.raw (entry : HashEntry) : BitVec 32 :=
  BitVec.ofNat 32 (entry.line.toNat + 2 ^ 29 * (entry.rd.toNat + 2 ^ 2 * entry.wr.toNat))

/-- The fields behind a raw word. -/
def HashEntry.ofRaw (raw : BitVec 32) : HashEntry :=
  ⟨raw.extractLsb' 0 29, raw.extractLsb' 29 2, raw.extractLsb' 31 1⟩

theorem HashEntry.raw_toNat (entry : HashEntry) :
    entry.raw.toNat = entry.line.toNat + 2 ^ 29 * (entry.rd.toNat + 2 ^ 2 * entry.wr.toNat) := by
  have hline := entry.line.isLt
  have hrd := entry.rd.isLt
  have hwr := entry.wr.isLt
  have hlt : entry.line.toNat + 2 ^ 29 * (entry.rd.toNat + 2 ^ 2 * entry.wr.toNat) < 2 ^ 32 := by omega
  exact Nat.mod_eq_of_lt hlt

@[simp] theorem HashEntry.ofRaw_raw (entry : HashEntry) : ofRaw entry.raw = entry := by
  have hraw := entry.raw_toNat
  have hline := entry.line.isLt
  have hrd := entry.rd.isLt
  have hwr := entry.wr.isLt
  have h1 : entry.raw.extractLsb' 0 29 = entry.line := by
    apply BitVec.eq_of_toNat_eq
    rw [BitVec.extractLsb'_toNat, Nat.shiftRight_eq_div_pow]
    omega
  have h2 : entry.raw.extractLsb' 29 2 = entry.rd := by
    apply BitVec.eq_of_toNat_eq
    rw [BitVec.extractLsb'_toNat, Nat.shiftRight_eq_div_pow]
    omega
  have h3 : entry.raw.extractLsb' 31 1 = entry.wr := by
    apply BitVec.eq_of_toNat_eq
    rw [BitVec.extractLsb'_toNat, Nat.shiftRight_eq_div_pow]
    omega
  rw [ofRaw, h1, h2, h3]

theorem HashEntry.raw_inj {a b : HashEntry} (h : a.raw = b.raw) : a = b := by
  have hab := congrArg ofRaw h
  simpa using hab

/-- Body of the loop of `hash_lock_lock` up to the compare-and-swap: the new
word, or nothing where the source goes to `next`. -/
def lockWord (rw : Rw) (curline : HashEntry) : Option HashEntry :=
  if curline.wr = 1#1 then none
  else
    match rw with
    | .rd =>
      let rd := curline.rd + 1#2
      if rd = 0#2 then none else some { curline with rd := rd }
    | .wr => if curline.rd ≠ 0#2 then none else some { curline with wr := 1#1 }

/-- `env_atomic_cmpxchg`: the word it leaves and whether it was exchanged. -/
def cmpxchg (word old new : HashEntry) : HashEntry × Bool :=
  if word.raw = old.raw then (new, true) else (word, false)

/-- Where a thread is. -/
inductive Pc
  /-- Without the lock and in no call. -/
  | out
  /-- Before the read of the word in `hash_lock_lock`. -/
  | locking (once : Bool) (rw : Rw)
  /-- Before its compare-and-swap. -/
  | swapping (once : Bool) (rw : Rw) (curline newline : HashEntry)
  /-- The call returned 1. -/
  | refused
  /-- The call returned 0. -/
  | locked (rw : Rw)
  /-- `ocf_metadata_set_hash` has loaded the word. -/
  | storing (line : BitVec 32) (word : HashEntry)
  /-- Before the read of the word in `hash_lock_unlock`. -/
  | unlocking (rw : Rw)
  /-- Before its `env_atomic_set`. -/
  | clearing (newline : HashEntry)
  /-- Before its compare-and-swap. -/
  | dropping (curline newline : HashEntry)
  deriving DecidableEq, Repr

/-- The lock that a thread has at some place. -/
def Pc.holding : Pc → Option Rw
  | .locked rw => some rw
  | .storing _ _ => some .wr
  | .unlocking rw => some rw
  | .clearing _ => some .wr
  | .dropping _ _ => some .rd
  | _ => none

/-- The thread is inside `hash_lock_lock`. -/
def Pc.inLock : Pc → Bool
  | .locking _ _ => true
  | .swapping _ _ _ _ => true
  | _ => false

/-- One bucket and its threads. -/
structure State where
  /-- The bucket's word. -/
  entry : HashEntry
  /-- Places of the threads. -/
  pc : Nat → Pc
  /-- Ghost line that was set last. -/
  set : BitVec 32

/-- The bucket with head `line`, nobody in it. -/
def start (line : BitVec 29) : State := ⟨⟨line, 0#2, 0#1⟩, fun _ => .out, line.setWidth 32⟩

/-- A thread goes on. -/
def State.goto (s : State) (t : Nat) (q : Pc) : State := { s with pc := Function.update s.pc t q }

/-- The label `next` of `hash_lock_lock`. -/
def State.retry (s : State) (t : Nat) (once : Bool) (rw : Rw) : State :=
  s.goto t (if once then .refused else .locking once rw)

/-- Actions: calls of the functions, and the next step of a thread in one. -/
inductive Act
  /-- Call of `hash_lock_lock`. -/
  | lock (t : Nat) (once : Bool) (rw : Rw)
  /-- Call of `ocf_metadata_set_hash`, up to the load of the word. -/
  | setHash (t : Nat) (line : BitVec 32)
  /-- Call of `hash_lock_unlock`. -/
  | unlock (t : Nat)
  /-- Next step of a call. -/
  | run (t : Nat)
  deriving DecidableEq, Repr

/-- The thread of an action. -/
def Act.thread : Act → Nat
  | .lock t _ _ => t
  | .setHash t _ => t
  | .unlock t => t
  | .run t => t

/-- The word that `hash_lock_unlock` sees decides between a store and a
compare-and-swap; the caller's `rw` is not used. -/
def unlockRead (curline : HashEntry) : Pc :=
  if curline.wr = 1#1 then .clearing { curline with wr := 0#1 }
  else .dropping curline { curline with rd := curline.rd - 1#2 }

/-- Next step of a thread. -/
def runThread (s : State) (t : Nat) : State :=
  match s.pc t with
  | .locking once rw =>
    match lockWord rw s.entry with
    | some newline => s.goto t (.swapping once rw s.entry newline)
    | none => s.retry t once rw
  | .swapping once rw curline newline =>
    match cmpxchg s.entry curline newline with
    | (entry, true) => { s with entry := entry }.goto t (.locked rw)
    | (_, false) => s.retry t once rw
  | .storing line word =>
    { s with entry := { word with line := line.setWidth 29 }, set := line }.goto t (.locked .wr)
  | .unlocking _ => s.goto t (unlockRead s.entry)
  | .clearing newline => { s with entry := newline }.goto t .out
  | .dropping curline newline =>
    match cmpxchg s.entry curline newline with
    | (entry, true) => { s with entry := entry }.goto t .out
    | (_, false) => s.goto t (.unlocking .rd)
  | _ => s

/-- The callers' contract: a lock is taken by a thread outside, a head is set
by a write holder, and a holder unlocks. -/
def guard (s : State) : Act → Prop
  | .lock t _ _ => s.pc t = .out ∨ s.pc t = .refused
  | .setHash t _ => s.pc t = .locked .wr
  | .unlock t => ∃ rw, s.pc t = .locked rw
  | .run t => (s.pc t).inLock = true ∨ ∃ rw, (s.pc t).holding = some rw ∧ s.pc t ≠ .locked rw

/-- The cache device as far as the head of a bucket depends on it. -/
structure Device where
  /-- Size of the collision table, also the end mark of a chain. -/
  collisionTableEntries : BitVec 32
  /-- `ocf_metadata_init_variable_size` accepts up to `OCF_CACHE_LINE_MAX` lines. -/
  fits : collisionTableEntries.toNat ≤ 2 ^ 29 - 2

/-- One step; `none` is the `ENV_BUG_ON` of `ocf_metadata_set_hash`. -/
def step (device : Device) (s : State) : Act → Option State
  | .lock t once rw => some (s.goto t (.locking once rw))
  | .setHash t line =>
    if line > device.collisionTableEntries then none else some (s.goto t (.storing line s.entry))
  | .unlock t =>
    match s.pc t with
    | .locked rw => some (s.goto t (.unlocking rw))
    | _ => some s
  | .run t => some (runThread s t)

/-- The bucket under any number of threads. -/
def system (device : Device) : System State Act := ⟨guard, step device⟩

end OcfCache.HashLock
