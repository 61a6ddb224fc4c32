import OcfCache.AlockWriters
import OcfCache.HashBuckets
import OcfCache.Space

/-!
# Requests that look up and requests that evict

Any number of requests, one lock operation at a time. A request takes the hash
buckets of its core lines, looks them up, locks the lines that it found or
waits for them, and drops the buckets. A request that holds its buckets for
write may also evict: it tries to lock a line, tries to lock the hash bucket of
the line's mapping, removes the mapping and maps the line to a core line of its
own. On the way that goes through the lists it checks for waiters after the
bucket is locked; on the way of the physical successor it does not.

Which line is tried is left open: the lists do not matter here. The buckets of
a request are taken in one step, which allows more interleavings than one
bucket after another.
-/

namespace OcfCache.EvictionRace

open Function Runs Metadata Requests EngineCommon HashBuckets Space Alock AlockWriters AlockClient

/-- Size of the metadata and of the lock. -/
structure Config where
  /-- Cache geometry. -/
  g : Geometry
  /-- Number of waiters lists. -/
  lists : Nat
  /-- There is a waiters list. -/
  lists_pos : 0 < lists

/-- The two ways of an eviction to its next line. -/
inductive Path
  /-- `lru_iter_eviction_next` and `lfu_iter_eviction_next`. -/
  | list
  /-- `lru_req_next_cline` and `lfu_req_next_cline`. -/
  | successor
  deriving DecidableEq, Repr

/-- Where the eviction of a line is. -/
inductive Stage
  /-- The line is write locked. -/
  | lineLocked (path : Path)
  /-- The hash bucket of its mapping is locked too. -/
  | hashLocked (path : Path)
  /-- The line is to lose its mapping. -/
  | chosen
  /-- The line has no mapping. -/
  | unmapped
  /-- The line is to be unlocked again. -/
  | putBack
  deriving DecidableEq, Repr

/-- Where a request is. -/
inductive Phase
  /-- Nothing is held. -/
  | idle
  /-- The hash buckets are held and the core lines are looked up. -/
  | prepare (mode : Rw)
  /-- A line is being evicted for an entry of the map. -/
  | evict (line idx : Nat) (stage : Stage)
  /-- The buckets are dropped; the lines are locked or awaited. -/
  | waiting
  /-- The request was resumed and drops its lines. -/
  | complete
  deriving DecidableEq, Repr

/-- A request and where it is. -/
structure Proc where
  /-- The request with its map. -/
  req : Request
  /-- Where it is. -/
  phase : Phase

/-- Metadata, locks and requests. -/
structure State where
  /-- Cache line metadata. -/
  md : LineTable
  /-- The cache line lock. -/
  lock : Alock.State
  /-- Readers of the hash bucket locks. -/
  hashRd : Nat → List Nat
  /-- Writers of the hash bucket locks. -/
  hashWr : Nat → Option Nat
  /-- All requests. -/
  procs : Nat → Proc

variable (cfg : Config)

/-- The hash buckets of the core lines of a request. -/
def buckets (req : Request) : List Nat :=
  (List.range (req.coreLineCount cfg.g)).map fun i =>
    ocfMetadataHashFunc cfg.g (req.coreLineFirst cfg.g + i) req.coreId

/-- The hash bucket of the mapping of a line. -/
def bucketOf (md : LineTable) (line : Nat) : Nat :=
  ocfMetadataHashFunc cfg.g (md.coreInfo line).2 (md.coreInfo line).1

/-- The mapping of a line is one of the request's own core lines. -/
def isTarget (md : LineTable) (req : Request) (line : Nat) : Bool :=
  (md.coreInfo line).1 == req.coreId &&
    decide (req.coreLineFirst cfg.g ≤ (md.coreInfo line).2) &&
    decide ((md.coreInfo line).2 ≤ req.coreLineLast cfg.g)

/-- `ocf_cl_lock_line_needs_lock`. -/
def needsLock (e : MapInfo) : Bool := e.status != .miss && e.status != .remapped

/-- The lock of a line for an entry. -/
def entryLock (s : State) (r i : Nat) (rw : Rw) : Lock :=
  ⟨((s.procs r).req.map i).collIdx, i, r, rw⟩

/-- The write lock that an eviction takes. -/
def victimLock (r line idx : Nat) : Lock := ⟨line, idx, r, .write⟩

/-- Replace a request. -/
def State.setProc (s : State) (r : Nat) (p : Proc) : State :=
  { s with procs := update s.procs r p }

/-- Replace the phase of a request. -/
def State.setPhase (s : State) (r : Nat) (phase : Phase) : State :=
  s.setProc r { s.procs r with phase := phase }

/-- `ocf_hb_req_prot_lock_rd` or `ocf_hb_req_prot_lock_wr`, when no bucket is
locked against it. -/
def hbReqProtLock (s : State) (r : Nat) (req : Request) : Rw → Option State
  | .read =>
    if (buckets cfg req).all fun b => s.hashWr b == none then
      some { s with hashRd := fun b => if b ∈ buckets cfg req then r :: s.hashRd b else s.hashRd b }
    else none
  | .write =>
    if (buckets cfg req).all fun b => s.hashWr b == none && s.hashRd b == [] then
      some { s with hashWr := fun b => if b ∈ buckets cfg req then some r else s.hashWr b }
    else none

/-- `ocf_hb_req_prot_unlock_rd` and `ocf_hb_req_prot_unlock_wr`. -/
def hbReqProtUnlock (s : State) (r : Nat) : State :=
  { s with
    hashRd := fun b =>
      if b ∈ buckets cfg (s.procs r).req then (s.hashRd b).erase r else s.hashRd b
    hashWr := fun b =>
      if b ∈ buckets cfg (s.procs r).req ∧ s.hashWr b = some r then none else s.hashWr b }

/-- `_lru_trylock_hash` and `_lfu_trylock_hash`. -/
def trylockHash (s : State) (r b : Nat) : Option State :=
  if b ∈ buckets cfg (s.procs r).req then some s
  else if s.hashWr b = none ∧ s.hashRd b = [] then
    some { s with hashWr := update s.hashWr b (some r) }
  else none

/-- `_lru_unlock_hash` and `_lfu_unlock_hash`. -/
def unlockHash (s : State) (r b : Nat) : State :=
  if b ∈ buckets cfg (s.procs r).req then s
  else { s with hashWr := update s.hashWr b none }

/-- The request after `ocf_map_cache_line`, with the entry marked as remapped. -/
def mappedReq (md : LineTable) (req : Request) (idx line : Nat) : Request :=
  (ocfMapCacheLine cfg.g md req idx line).2.setMap idx
    { (ocfMapCacheLine cfg.g md req idx line).2.map idx with status := .remapped }

/-- Steps of a request. -/
inductive Act
  /-- Lock the hash buckets and look up. -/
  | lookup (r : Nat) (req : Request) (mode : Rw)
  /-- A step of the cache line lock for a line that was found. -/
  | lineStep (r : Nat) (act : Action)
  /-- Drop the hash buckets with the lines locked or awaited. -/
  | release (r : Nat)
  /-- Drop the hash buckets without lines. -/
  | giveUp (r : Nat)
  /-- Try to lock a mapped line for an entry. -/
  | tryLine (r line idx : Nat) (path : Path)
  /-- Try to lock a line of the free list for an entry. -/
  | tryFree (r line idx : Nat)
  /-- Look at the mapping of the line and try to lock its hash bucket. -/
  | tryHash (r : Nat)
  /-- Take the line, on the way through the lists only without waiters. -/
  | takeLine (r : Nat)
  /-- `ocf_lru_invalidate` or `ocf_lfu_invalidate`, and drop the bucket. -/
  | invalidate (r : Nat)
  /-- `ocf_map_cache_line`. -/
  | mapLine (r : Nat)
  /-- Unlock a line that was not taken. -/
  | putBack (r : Nat)
  /-- All lines are locked and the request is resumed. -/
  | resume (r : Nat)
  /-- Unlock a line. -/
  | unlockLine (r : Nat) (l : Lock)
  /-- The request is done. -/
  | finish (r : Nat)

/-- A step of the cache line lock. -/
def lockStep (s : State) (act : Action) : Option State :=
  (Alock.step cfg.lists s.lock act).map fun lock => { s with lock := lock }

/-- A try-lock for an eviction: the stage is entered when the lock is taken. -/
def tryVictim (s : State) (r line idx : Nat) (stage : Stage) : Option State :=
  (lockStep cfg s (.trylockEntryWr (victimLock r line idx))).map fun s' =>
    if victimLock r line idx ∈ s'.lock.holders then s'.setPhase r (.evict line idx stage) else s'

/-- Effect of one step; `none` is a step that cannot be taken. -/
def next (s : State) : Act → Option State
  | .lookup r req mode =>
    (hbReqProtLock cfg s r req mode).map fun s' =>
      s'.setProc r ⟨ocfEngineLookup cfg.g s.md req, .prepare mode⟩
  | .lineStep _ act => lockStep cfg s act
  | .release r => some ((hbReqProtUnlock cfg s r).setPhase r .waiting)
  | .giveUp r => some ((hbReqProtUnlock cfg s r).setPhase r .idle)
  | .tryLine r line idx path => tryVictim cfg s r line idx (.lineLocked path)
  | .tryFree r line idx => tryVictim cfg s r line idx .unmapped
  | .tryHash r =>
    match (s.procs r).phase with
    | .evict line idx (.lineLocked path) =>
      if isTarget cfg s.md (s.procs r).req line then some (s.setPhase r (.evict line idx .putBack))
      else
        match trylockHash cfg s r (bucketOf cfg s.md line) with
        | some s' => some (s'.setPhase r (.evict line idx (.hashLocked path)))
        | none => some (s.setPhase r (.evict line idx .putBack))
    | _ => none
  | .takeLine r =>
    match (s.procs r).phase with
    | .evict line idx (.hashLocked .list) =>
      if ocfAlockWaitlistIsEmptyLocked s.lock cfg.lists line then
        some (s.setPhase r (.evict line idx .chosen))
      else
        some ((unlockHash cfg s r (bucketOf cfg s.md line)).setPhase r (.evict line idx .putBack))
    | .evict line idx (.hashLocked .successor) => some (s.setPhase r (.evict line idx .chosen))
    | _ => none
  | .invalidate r =>
    match (s.procs r).phase with
    | .evict line idx .chosen =>
      let s' := unlockHash cfg s r (bucketOf cfg s.md line)
      some (State.setPhase { s' with md := evictInvalidate cfg.g s.md line } r
        (.evict line idx .unmapped))
    | _ => none
  | .mapLine r =>
    match (s.procs r).phase with
    | .evict line idx .unmapped =>
      let md := (ocfMapCacheLine cfg.g s.md (s.procs r).req idx line).1
      some (State.setProc { s with md := md } r
        ⟨mappedReq cfg s.md (s.procs r).req idx line, .prepare .write⟩)
    | _ => none
  | .putBack r =>
    match (s.procs r).phase with
    | .evict line idx .putBack =>
      (lockStep cfg s (.unlockOneWr (victimLock r line idx))).map fun s' =>
        s'.setPhase r (.prepare .write)
    | _ => none
  | .resume r => some (s.setPhase r .complete)
  | .unlockLine _ l => lockStep cfg s (unlockAct l)
  | .finish r => some (s.setPhase r .idle)

/-- The request neither holds nor awaits a line. -/
def Free (s : State) (r : Nat) : Prop :=
  (∀ l ∈ s.lock.holders, l.req ≠ r) ∧ ∀ i, ∀ w ∈ s.lock.waitersLsts i, w.req ≠ r

/-- No request waits for the line. -/
def NoWaiters (s : State) (line : Nat) : Prop :=
  ∀ i, ∀ w ∈ s.lock.waitersLsts i, w.entry ≠ line

/-- A request may lock lines that it found in its lookup. -/
def FoundLine (s : State) (r : Nat) (act : Action) : Prop :=
  (actionLock act).req = r ∧ (actionLock act).idx < (s.procs r).req.coreLineCount cfg.g ∧
    needsLock ((s.procs r).req.map (actionLock act).idx) = true ∧
    (actionLock act).entry = ((s.procs r).req.map (actionLock act).idx).collIdx

/-- A line is tried for an entry without a line. As a physical successor it
follows a line that the request was just given. -/
def VictimFor (s : State) (r line idx : Nat) : Prop :=
  (s.procs r).phase = .prepare .write ∧ idx < (s.procs r).req.coreLineCount cfg.g ∧
    ((s.procs r).req.map idx).status = .miss ∧
    Permitted s.lock (.trylockEntryWr (victimLock r line idx))

/-- When a request takes a step. -/
def CanStep (s : State) : Act → Prop
  | .lookup r req _ => (s.procs r).phase = .idle ∧ req.coreId < ocfCoreNum
  | .lineStep r act =>
    (∃ mode, (s.procs r).phase = .prepare mode) ∧ FoundLine cfg s r act ∧ Permitted s.lock act
  | .release r =>
    (∃ mode, (s.procs r).phase = .prepare mode) ∧
      ∀ i < (s.procs r).req.coreLineCount cfg.g, needsLock ((s.procs r).req.map i) = true →
        ∃ rw, Owned cfg.lists s.lock (entryLock s r i rw)
  | .giveUp r => (∃ mode, (s.procs r).phase = .prepare mode) ∧ Free s r
  | .tryLine r line idx path =>
    VictimFor cfg s r line idx ∧ (path = .successor → ∃ i < (s.procs r).req.coreLineCount cfg.g,
      ((s.procs r).req.map i).status = .remapped ∧ ((s.procs r).req.map i).collIdx + 1 = line)
  | .tryFree r line idx =>
    VictimFor cfg s r line idx ∧ s.md.coreInfo line = (ocfCoreNum, ullongMax)
  | .resume r =>
    (s.procs r).phase = .waiting ∧ ∀ i, ∀ w ∈ s.lock.waitersLsts i, w.req ≠ r
  | .unlockLine r l => (s.procs r).phase = .complete ∧ l.req = r ∧ l ∈ s.lock.holders
  | .finish r => (s.procs r).phase = .complete ∧ Free s r
  | _ => True

/-- When a line is taken as physical successor, nobody waits for it. -/
def SuccessorFree (s : State) : Act → Prop
  | .takeLine r => ∀ line idx, (s.procs r).phase = .evict line idx (.hashLocked .successor) →
    NoWaiters s line
  | _ => True

/-- The requests, with every interleaving. -/
def raceSystem : System State Act := ⟨CanStep cfg, next cfg⟩

/-- The requests, with interleavings in which the successor has no waiters. -/
def checkedSystem : System State Act :=
  ⟨fun s act => CanStep cfg s act ∧ SuccessorFree s act, next cfg⟩

/-- No request runs, no lock is held. -/
def Quiet (s : State) : Prop :=
  s.lock = Alock.init ∧ (∀ b, s.hashRd b = []) ∧ (∀ b, s.hashWr b = none) ∧
    ∀ r, (s.procs r).phase = .idle

/-- Every request on a waiters list finds the mapping that it looked up, and
the check of a request that dropped its buckets finds no mapping gone. -/
def MappingsKept (s : State) : Prop :=
  (∀ i, ∀ w ∈ s.lock.waitersLsts i,
    s.md.coreInfo w.entry =
      ((s.procs w.req).req.coreId, (s.procs w.req).req.coreLineFirst cfg.g + w.idx)) ∧
    ∀ r, (s.procs r).phase = .waiting → (ocfEngineCheck cfg.g s.md (s.procs r).req).1 = false

end OcfCache.EvictionRace
