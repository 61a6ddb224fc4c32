import OcfCache.DetachRuns

/-!
# Occupancy counters

The counters of cached and dirty lines that each core has in its runtime
metadata, in total and for every partition, with the functions that change
them: the invalidation of evicted lines, `set_cache_line_valid`, `_dirty`,
`_clean` and `_invalid`, and `ocf_user_part_move`. Counters are integers, as
the atomic counters of the source are.
-/

namespace OcfCache.Occupancy

open Function Loops Metadata Requests CacheLine Partitions Space SpaceFrame DetachRange
open LruRuns (State)

/-- Counters of `runtime_meta`, by core. -/
structure Counters where
  /-- `part_counters[part].cached_clines`. -/
  cached : Nat → Nat → Int
  /-- `part_counters[part].dirty_clines`. -/
  dirty : Nat → Nat → Int
  /-- `cached_clines`. -/
  cachedClines : Nat → Int
  /-- `dirty_clines`. -/
  dirtyClines : Nat → Int

/-- Add to the counter of a partition. -/
def add (k : Nat → Nat → Int) (core part : Nat) (n : Int) : Nat → Nat → Int :=
  fun c p => if c = core ∧ p = part then k c p + n else k c p

/-- Add to the counter of a core. -/
def addTotal (k : Nat → Int) (core : Nat) (n : Int) : Nat → Int := fun c => if c = core then k c + n else k c

/-- Add to both counters of cached lines. -/
def Counters.addCached (k : Counters) (core part : Nat) (n : Int) : Counters :=
  { k with cached := add k.cached core part n, cachedClines := addTotal k.cachedClines core n }

/-- Add to both counters of dirty lines. -/
def Counters.addDirty (k : Counters) (core part : Nat) (n : Int) : Counters :=
  { k with dirty := add k.dirty core part n, dirtyClines := addTotal k.dirtyClines core n }

/-- Cache lines with the counters of the cores. -/
structure Counted where
  /-- The cache lines. -/
  lines : State
  /-- The counters. -/
  counters : Counters

/-- The cache of a state. -/
abbrev Counted.cache (s : Counted) : Cache := s.lines.cache

section Code

variable (g : Geometry)

/-- The counters in `ocf_lru_invalidate` and `ocf_lfu_invalidate`, for the lines
that a request was handed. -/
def evictCounters (k : Counters) (handed : List Handed) : Counters :=
  handed.foldl (fun k t =>
    if t.src ≠ partitionFreelist then k.addCached (t.before.md.coreInfo t.line).1 t.src (-1) else k) k

/-- `ocf_lru_req_clines` and `ocf_lfu_req_clines`. -/
def reqClines (s : Counted) (req : Request) (src : Part) (clineNo : Nat) : Option Counted :=
  (ocfEvictionReqClines g s.cache req src clineNo).map fun r =>
    ⟨⟨r.1, LruPlacement.handOver s.lines.owner req.partId r.2.2⟩, evictCounters s.counters r.2.2⟩

/-- `set_cache_line_valid`. -/
def setValid (s : Counted) (core start stop line : Nat) : Counted :=
  ⟨⟨{ s.cache with md := setCacheLineValid s.cache.md start stop line }, s.lines.owner⟩,
    if metadataTestValidAny g s.cache.md line = false then
      s.counters.addCached core (s.cache.md.partitionId line) 1
    else s.counters⟩

/-- `set_cache_line_dirty`. -/
def setDirty (s : Counted) (core start stop line : Nat) : Option Counted :=
  (setLineDirty g s.cache start stop line).map fun c =>
    ⟨⟨c, s.lines.owner⟩,
      if metadataTestDirtyAllSec s.cache.md line start stop = false ∧ metadataTestDirty g s.cache.md line = false then
        s.counters.addDirty core (s.cache.md.partitionId line) 1
      else s.counters⟩

/-- `set_cache_line_clean`. -/
def setClean (s : Counted) (core start stop line : Nat) : Option Counted :=
  (setLineClean g s.cache start stop line).map fun c =>
    ⟨⟨c, s.lines.owner⟩,
      if metadataTestDirtySec s.cache.md line start stop = true ∧ metadataTestDirty g c.md line = false then
        s.counters.addDirty core (s.cache.md.partitionId line) (-1)
      else s.counters⟩

/-- `__set_cache_line_invalid`, called by `set_cache_line_invalid` and by
`set_cache_line_invalid_no_flush`. -/
def setInvalid (s : Counted) (core start stop line : Nat) : Option Counted :=
  (setLineInvalid g s.cache start stop line).map fun c =>
    ⟨⟨c, if c.md.partitionId line = partitionFreelist then update s.lines.owner line .free
        else s.lines.owner⟩,
      if metadataTestValidAny g s.cache.md line = true ∧
          testAny (clearRange (s.cache.md.valid line) start stop) 0 g.endBlock = false then
        s.counters.addCached core (s.cache.md.partitionId line) (-1)
      else s.counters⟩

/-- The counters in `ocf_user_part_move`, for a line that is dirty or not. -/
def moveCounters (k : Counters) (core idOld idNew : Nat) (dirty : Bool) : Counters :=
  { k with
    dirty := if dirty = true then add (add k.dirty core idNew 1) core idOld (-1) else k.dirty
    cached := add (add k.cached core idNew 1) core idOld (-1) }

/-- A round of `ocf_user_part_move`. -/
def userPartMoveLine (req : Request) (s : Counted) (i : Nat) : Option Counted :=
  let entry := req.map i
  let line := entry.collIdx
  let idOld := s.cache.md.partitionId line
  if entry.rePart = false then some s
  else if ocfUserIoClassMax ≤ idOld ∨ ocfUserIoClassMax ≤ req.partId then none
  else if entry.status = .miss then none
  else if idOld = req.partId then some s
  else
    (ocfEvictionRepart g s.cache line (.user idOld) (.user req.partId)).map fun c =>
      ⟨⟨c, update s.lines.owner line (.user req.partId)⟩,
        moveCounters s.counters req.coreId idOld req.partId (metadataTestDirty g c.md line)⟩

/-- `ocf_user_part_move`. -/
def ocfUserPartMove (req : Request) (s : Counted) : Option Counted :=
  (List.range (req.coreLineCount g)).foldlM (userPartMoveLine g req) s

end Code

/-- Core and partition of a line with a valid block. -/
def cachedKey (g : Geometry) (md : LineTable) (x : Nat) : Option (Nat × Nat) :=
  if metadataTestValidAny g md x = true then some ((md.coreInfo x).1, md.partitionId x) else none

/-- Core and partition of a line with a dirty block. -/
def dirtyKey (g : Geometry) (md : LineTable) (x : Nat) : Option (Nat × Nat) :=
  if metadataTestDirty g md x = true then some ((md.coreInfo x).1, md.partitionId x) else none

/-- The counters of partitions are the numbers of lines with their key. -/
def Counts (key : Nat → Option (Nat × Nat)) (n : Nat) (k : Nat → Nat → Int) : Prop :=
  ∀ core < ocfCoreNum, ∀ p < ocfUserIoClassMax, k core p = countBelow (fun x => decide (key x = some (core, p))) n

/-- The counters of cores are the sums over the partitions. -/
def Sums (k : Nat → Nat → Int) (total : Nat → Int) : Prop :=
  ∀ core, total core = ∑ p ∈ Finset.range ocfUserIoClassMax, k core p

/-- A key as a number. -/
def weight (key : Option (Nat × Nat)) (core p : Nat) : Int := if key = some (core, p) then 1 else 0

section Counting

variable {key key' : Nat → Option (Nat × Nat)} {n : Nat} {k k' : Nat → Nat → Int}

theorem Counts.move (h : Counts key n k) {x : Nat} (hx : x < n) (hoff : ∀ y < n, y ≠ x → key' y = key y)
    (hk : ∀ core p, k' core p = k core p - weight (key x) core p + weight (key' x) core p) :
    Counts key' n k' := by
  intro core hcore p hp
  have hchange := countBelow_change (p := fun y => decide (key y = some (core, p)))
    (q := fun y => decide (key' y = some (core, p))) hx fun y hy hne => by rw [hoff y hy hne]
  have hweight : ∀ o : Option (Nat × Nat), weight o core p = ((decide (o = some (core, p))).toNat : Int) := by
    intro o
    unfold weight
    by_cases ho : o = some (core, p)
    · simp [ho]
    · simp [ho]
  rw [hk core p, h core hcore p hp, hweight, hweight]
  omega

theorem add_eq_weight (core part : Nat) (m : Int) (c p : Nat) :
    add k core part m c p = k c p + m * weight (some (core, part)) c p := by
  unfold add weight
  by_cases h : c = core ∧ p = part
  · rw [if_pos h, h.1, h.2, if_pos rfl]
    omega
  · rw [if_neg h, if_neg fun heq => h ⟨(Prod.mk.inj (Option.some.inj heq)).1.symm,
      (Prod.mk.inj (Option.some.inj heq)).2.symm⟩]
    omega

theorem sum_add {part : Nat} (hp : part < ocfUserIoClassMax) (core : Nat) (m : Int) (c : Nat) :
    ∑ p ∈ Finset.range ocfUserIoClassMax, add k core part m c p =
      (∑ p ∈ Finset.range ocfUserIoClassMax, k c p) + if c = core then m else 0 := by
  have hsplit : ∀ p, add k core part m c p = k c p + if p = part then (if c = core then m else 0) else 0 := by
    intro p
    unfold add
    by_cases hc : c = core
    · by_cases hpp : p = part
      · simp [hc, hpp]
      · simp [hpp]
    · simp [hc]
  simp only [hsplit, Finset.sum_add_distrib, Finset.sum_ite_eq', Finset.mem_range, if_pos hp]

theorem Sums.add {total : Nat → Int} (h : Sums k total) {part : Nat} (hp : part < ocfUserIoClassMax) (core : Nat)
    (m : Int) : Sums (add k core part m) (addTotal total core m) := by
  intro c
  rw [sum_add hp, ← h c]
  unfold addTotal
  by_cases hc : c = core
  · rw [if_pos hc, if_pos hc]
  · rw [if_neg hc, if_neg hc]
    omega

theorem Sums.move {total : Nat → Int} (h : Sums k total) {src dst : Nat} (hsrc : src < ocfUserIoClassMax)
    (hdst : dst < ocfUserIoClassMax) (core : Nat) :
    Sums (Occupancy.add (Occupancy.add k core dst 1) core src (-1)) total := by
  intro c
  rw [sum_add hsrc, sum_add hdst, ← h c]
  split <;> omega

end Counting

end OcfCache.Occupancy
