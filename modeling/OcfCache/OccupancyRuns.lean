import Mathlib.Algebra.Order.BigOperators.Group.Finset
import OcfCache.Occupancy

/-!
# Occupancy counters in runs

The counters are exact after every operation, as long as no line without a
valid block is evicted and none is moved to another partition: eviction and
`ocf_user_part_move` count a line as cached without a look at its valid bits,
while a line may be mapped with no valid block at all.
-/

namespace OcfCache.Occupancy

open Function Loops Metadata Requests CacheLine Partitions Space SpaceFrame DetachRange Runs
open Option (map_eq_some_iff)
open LruRuns (State)
open DetachRuns (InUse)

/-- What other parts of the cache change in between. -/
structure Surroundings where
  /-- Lines that cannot be locked. -/
  lineLocked : Nat → Bool
  /-- Hash buckets that cannot be locked. -/
  hashLocked : Nat → Nat → Bool
  /-- Lines that requests wait for. -/
  waiters : Nat → Bool
  /-- Configuration of the partitions. -/
  config : Nat → UserPartConfig
  /-- Order of the partitions. -/
  userPartList : List Nat
  /-- Eviction counters. -/
  evictCounter : Nat → Int
  /-- `lru_idx` of the queue of the next request. -/
  lruIdx : Nat

/-- The cache in new surroundings. -/
def surround (c : Cache) (env : Surroundings) : Cache :=
  { c with
    lineLocked := env.lineLocked
    hashLocked := env.hashLocked
    waiters := env.waiters
    config := env.config
    userPartList := env.userPartList
    evictCounter := env.evictCounter
    lruIdx := env.lruIdx }

/-- Operations on cache lines. -/
inductive Op
  /-- Mapping and eviction. -/
  | reqClines (req : Request) (src : Part) (clineNo : Nat)
  /-- `set_cache_line_valid`. -/
  | setValid (core start stop line : Nat)
  /-- `set_cache_line_dirty`. -/
  | setDirty (core start stop line : Nat)
  /-- `set_cache_line_clean`. -/
  | setClean (core start stop line : Nat)
  /-- `set_cache_line_invalid` and `set_cache_line_invalid_no_flush`. -/
  | setInvalid (core start stop line : Nat)
  /-- `ocf_user_part_move`. -/
  | userPartMove (req : Request)
  /-- Locks, waiters and the configuration change. -/
  | other (env : Surroundings)

/-- Blocks of a line that is mapped to a core. -/
structure Blocks (g : Geometry) (s : Counted) (core start stop line : Nat) : Prop where
  /-- The line is mapped. -/
  inUse : InUse g s.lines line
  /-- It is mapped to the core. -/
  core_eq : (s.cache.md.coreInfo line).1 = core
  /-- There is a block. -/
  le : start ≤ stop
  /-- The blocks are in the line. -/
  stop_le : stop ≤ g.endBlock

/-- Contract of the callers: lines are mapped to the core of the request, valid
blocks become dirty, and clean ones invalid. -/
def Permitted (g : Geometry) (s : Counted) : Op → Prop
  | .reqClines req src _ => req.partId < ocfUserIoClassMax ∧ req.coreId < ocfCoreNum ∧ src.Exists
  | .setValid core start stop line => Blocks g s core start stop line
  | .setDirty core start stop line => Blocks g s core start stop line ∧
    ∀ b, start ≤ b → b ≤ stop → s.cache.md.valid line b = true
  | .setClean core start stop line => Blocks g s core start stop line
  | .setInvalid core start stop line => Blocks g s core start stop line ∧
    ∀ b, start ≤ b → b ≤ stop → s.cache.md.dirty line b = false
  | .userPartMove req => req.partId < ocfUserIoClassMax ∧ ∀ i < req.coreLineCount g, (req.map i).rePart = true →
    InUse g s.lines (req.map i).collIdx ∧ (s.cache.md.coreInfo (req.map i).collIdx).1 = req.coreId
  | .other _ => True

/-- A mapped line without a valid block is locked. -/
def EmptyLocked (g : Geometry) (c : Cache) : Prop :=
  ∀ x < g.collisionEntries, (c.md.coreInfo x).1 ≠ ocfCoreNum → metadataTestValidAny g c.md x = false →
    c.lineLocked x = true

/-- Lines without a valid block are locked against eviction, and are not moved
to another partition. -/
def KeepsEmpty (g : Geometry) (s : Counted) : Op → Prop
  | .reqClines .. => EmptyLocked g s.cache
  | .userPartMove req => ∀ i < req.coreLineCount g, (req.map i).rePart = true →
    s.cache.md.partitionId (req.map i).collIdx ≠ req.partId →
    metadataTestValidAny g s.cache.md (req.map i).collIdx = true
  | _ => True

/-- The operations. -/
def step (g : Geometry) (s : Counted) : Op → Option Counted
  | .reqClines req src n => reqClines g s req src n
  | .setValid core start stop line => some (setValid g s core start stop line)
  | .setDirty core start stop line => setDirty g s core start stop line
  | .setClean core start stop line => setClean g s core start stop line
  | .setInvalid core start stop line => setInvalid g s core start stop line
  | .userPartMove req => ocfUserPartMove g req s
  | .other env => some ⟨⟨surround s.cache env, s.lines.owner⟩, s.counters⟩

/-- Use of the cache lines under a further condition on the operations. -/
def system (g : Geometry) (ok : Counted → Op → Prop) : System Counted Op :=
  ⟨fun s op => Permitted g s op ∧ ok s op, step g⟩

/-- The counters are exact. -/
structure Exact (g : Geometry) (s : Counted) : Prop where
  /-- Lines of a core in a partition with a valid block. -/
  cached : ∀ core < ocfCoreNum, ∀ p < ocfUserIoClassMax, s.counters.cached core p =
    countBelow (fun x => decide ((s.cache.md.coreInfo x).1 = core ∧ s.cache.md.partitionId x = p) &&
      metadataTestValidAny g s.cache.md x) g.collisionEntries
  /-- Lines of a core in a partition with a dirty block. -/
  dirty : ∀ core < ocfCoreNum, ∀ p < ocfUserIoClassMax, s.counters.dirty core p =
    countBelow (fun x => decide ((s.cache.md.coreInfo x).1 = core ∧ s.cache.md.partitionId x = p) &&
      metadataTestDirty g s.cache.md x) g.collisionEntries
  /-- `cached_clines` is the sum over the partitions. -/
  cachedSum : Sums s.counters.cached s.counters.cachedClines
  /-- So is `dirty_clines`. -/
  dirtySum : Sums s.counters.dirty s.counters.dirtyClines

/-- The invariant of the runs. -/
structure Inv (g : Geometry) (s : Counted) : Prop where
  /-- Lines are on their lists. -/
  lines : DetachRange.Inv g s.lines
  /-- Lines without a core line have no valid block. -/
  blank : ∀ x < g.collisionEntries, (s.cache.md.coreInfo x).1 = ocfCoreNum →
    metadataTestValidAny g s.cache.md x = false
  /-- Dirty blocks are valid. -/
  valid : ∀ x < g.collisionEntries, ∀ b ≤ g.endBlock, s.cache.md.dirty x b = true → s.cache.md.valid x b = true
  /-- Counters of cached lines. -/
  cached : Counts (cachedKey g s.cache.md) g.collisionEntries s.counters.cached
  /-- Counters of dirty lines. -/
  dirty : Counts (dirtyKey g s.cache.md) g.collisionEntries s.counters.dirty
  /-- Sums of cached lines. -/
  cachedSum : Sums s.counters.cached s.counters.cachedClines
  /-- Sums of dirty lines. -/
  dirtySum : Sums s.counters.dirty s.counters.dirtyClines

/-- A line has the same metadata in two tables. -/
structure SameLine (md md' : LineTable) (x : Nat) : Prop where
  /-- The same core. -/
  core : (md'.coreInfo x).1 = (md.coreInfo x).1
  /-- The same partition. -/
  part : md'.partitionId x = md.partitionId x
  /-- The same valid blocks. -/
  valid : md'.valid x = md.valid x
  /-- The same dirty blocks. -/
  dirty : md'.dirty x = md.dirty x

variable {md : LineTable} {c c' : Cache} {owner : Nat → Part} {start stop line core : Nat}
  {src : Part} {req : Request}

section Steps

variable {g : Geometry} {s s' : Counted} {x : Nat}

theorem SameLine.cachedKey {md' : LineTable} (h : SameLine md md' x) :
    Occupancy.cachedKey g md' x = Occupancy.cachedKey g md x := by
  unfold Occupancy.cachedKey metadataTestValidAny
  rw [h.valid, h.core, h.part]

theorem SameLine.dirtyKey {md' : LineTable} (h : SameLine md md' x) :
    Occupancy.dirtyKey g md' x = Occupancy.dirtyKey g md x := by
  unfold Occupancy.dirtyKey metadataTestDirty
  rw [h.dirty, h.core, h.part]

theorem Inv.core_ne (h : Inv g s) (hx : InUse g s.lines x) : (s.cache.md.coreInfo x).1 ≠ ocfCoreNum := by
  intro hcore
  have hid := (h.lines.mapped x hx.1).mpr hcore
  rw [← h.lines.managed.id hx.1] at hid
  exact user_ne_freelist hx.2 hid

theorem Inv.of_line (h : Inv g s) (hx : x < g.collisionEntries) (hlines : DetachRange.Inv g s'.lines)
    (hsame : ∀ y < g.collisionEntries, y ≠ x → SameLine s.cache.md s'.cache.md y)
    (hblank : (s'.cache.md.coreInfo x).1 = ocfCoreNum → metadataTestValidAny g s'.cache.md x = false)
    (hvalid : ∀ b ≤ g.endBlock, s'.cache.md.dirty x b = true → s'.cache.md.valid x b = true)
    (hcached : ∀ core p, s'.counters.cached core p = s.counters.cached core p -
      weight (cachedKey g s.cache.md x) core p + weight (cachedKey g s'.cache.md x) core p)
    (hdirty : ∀ core p, s'.counters.dirty core p = s.counters.dirty core p -
      weight (dirtyKey g s.cache.md x) core p + weight (dirtyKey g s'.cache.md x) core p)
    (hcsum : Sums s'.counters.cached s'.counters.cachedClines)
    (hdsum : Sums s'.counters.dirty s'.counters.dirtyClines) : Inv g s' := by
  refine ⟨hlines, fun y hy hcore => ?_, fun y hy b hb hd => ?_,
    h.cached.move hx (fun y hy hne => (hsame y hy hne).cachedKey) hcached,
    h.dirty.move hx (fun y hy hne => (hsame y hy hne).dirtyKey) hdirty, hcsum, hdsum⟩
  · by_cases hne : y = x
    · rw [hne] at hcore ⊢
      exact hblank hcore
    · have heq := hsame y hy hne
      rw [heq.core] at hcore
      have hold := h.blank y hy hcore
      simp only [metadataTestValidAny, heq.valid] at hold ⊢
      exact hold
  · by_cases hne : y = x
    · rw [hne] at hd ⊢
      exact hvalid b hb hd
    · have heq := hsame y hy hne
      rw [heq.dirty] at hd
      rw [heq.valid]
      exact h.valid y hy b hb hd

theorem part_of_owner {owner' : Nat → Part} (h : Managed g c owner) (h' : Managed g c' owner')
    {y : Nat} (hy : y < g.collisionEntries) (hown : owner' y = owner y) :
    c'.md.partitionId y = c.md.partitionId y := by
  rw [h'.id hy, h.id hy, hown]

theorem cachedKey_pos (h : metadataTestValidAny g md x = true) :
    cachedKey g md x = some ((md.coreInfo x).1, md.partitionId x) := if_pos h

theorem cachedKey_neg (h : metadataTestValidAny g md x = false) : cachedKey g md x = none :=
  if_neg (by rw [h]; decide)

theorem dirtyKey_pos (h : metadataTestDirty g md x = true) :
    dirtyKey g md x = some ((md.coreInfo x).1, md.partitionId x) := if_pos h

theorem dirtyKey_neg (h : metadataTestDirty g md x = false) : dirtyKey g md x = none :=
  if_neg (by rw [h]; decide)

theorem weight_none (core p : Nat) : weight none core p = 0 := rfl

theorem weight_same {k : Int} {a b : Option (Nat × Nat)} (h : b = a) (core p : Nat) :
    k = k - weight a core p + weight b core p := by
  rw [h]
  omega

/-- `set_cache_line_valid` makes a line valid. -/
theorem validAny_setValid (hle : start ≤ stop) (hstop : stop ≤ g.endBlock) :
    metadataTestValidAny g (setCacheLineValid md start stop line) line = true := by
  have hbits : (setCacheLineValid md start stop line).valid line = setRange (md.valid line) start stop :=
    update_self ..
  unfold metadataTestValidAny
  rw [hbits, testAny_eq_true]
  exact ⟨start, by omega, Nat.zero_le _, by simp [setRange, hle]⟩

/-- `set_cache_line_valid`. -/
theorem Inv.setValid (h : Inv g s) (hb : Blocks g s core start stop line) :
    Inv g (setValid g s core start stop line) := by
  have hlines : DetachRange.Inv g (Occupancy.setValid g s core start stop line).lines :=
    ⟨h.lines.managed.of_md (fun _ _ => rfl) fun _ _ _ => rfl, h.lines.mapped⟩
  have hafter : metadataTestValidAny g (Occupancy.setValid g s core start stop line).cache.md line = true :=
    validAny_setValid hb.le hb.stop_le
  have hkey : cachedKey g (Occupancy.setValid g s core start stop line).cache.md line =
      some (core, s.cache.md.partitionId line) := by
    rw [cachedKey_pos hafter, ← hb.core_eq]
    rfl
  have hdirty : dirtyKey g (Occupancy.setValid g s core start stop line).cache.md line =
      dirtyKey g s.cache.md line := rfl
  have hbits : (Occupancy.setValid g s core start stop line).cache.md.valid line =
      setRange (s.cache.md.valid line) start stop := update_self ..
  have hsame : ∀ y < g.collisionEntries, y ≠ line →
      SameLine s.cache.md (Occupancy.setValid g s core start stop line).cache.md y :=
    fun y _ hne => ⟨rfl, rfl, update_of_ne hne .., rfl⟩
  have hvalid : ∀ b ≤ g.endBlock, (Occupancy.setValid g s core start stop line).cache.md.dirty line b = true →
      (Occupancy.setValid g s core start stop line).cache.md.valid line b = true := by
    intro b hle hd
    rw [hbits]
    simp [setRange, h.valid line hb.inUse.1 b hle hd]
  have hcore : ((Occupancy.setValid g s core start stop line).cache.md.coreInfo line).1 ≠ ocfCoreNum :=
    h.core_ne hb.inUse
  by_cases hempty : metadataTestValidAny g s.cache.md line = false
  · have hk : (Occupancy.setValid g s core start stop line).counters =
        s.counters.addCached core (s.cache.md.partitionId line) 1 := if_pos hempty
    refine h.of_line hb.inUse.1 hlines hsame (fun hc => absurd hc hcore) hvalid (fun c p => ?_) (fun c p => ?_) ?_ ?_
    · rw [hkey, cachedKey_neg hempty, hk, weight_none]
      change add s.counters.cached core _ 1 c p = _
      rw [add_eq_weight]
      omega
    · rw [hk]
      exact weight_same hdirty c p
    · rw [hk]
      exact h.cachedSum.add hb.inUse.2 core 1
    · rw [hk]
      exact h.dirtySum
  · have hk : (Occupancy.setValid g s core start stop line).counters = s.counters := if_neg hempty
    have hfull : metadataTestValidAny g s.cache.md line = true := by simpa using hempty
    refine h.of_line hb.inUse.1 hlines hsame (fun hc => absurd hc hcore) hvalid (fun c p => ?_) (fun c p => ?_) ?_ ?_
    · rw [hk]
      refine weight_same ?_ c p
      rw [hkey, cachedKey_pos hfull, hb.core_eq]
    · rw [hk]
      exact weight_same hdirty c p
    · rw [hk]
      exact h.cachedSum
    · rw [hk]
      exact h.dirtySum

theorem sameLine_dirtyBits {bits : Bits} (h : Managed g s.cache owner) (h' : Managed g c owner)
    (hlists : ListsOnly { s.cache with md := setDirtyBits s.cache.md line bits } c) {y : Nat}
    (hy : y < g.collisionEntries) (hne : y ≠ line) : SameLine s.cache.md c.md y := by
  refine ⟨?_, part_of_owner h h' hy rfl, ?_, ?_⟩
  · rw [hlists.coreInfo]
    rfl
  · rw [hlists.valid]
    rfl
  · rw [hlists.dirty]
    exact update_of_ne hne ..

theorem dirty_dirtyBits {bits : Bits}
    (hlists : ListsOnly { s.cache with md := setDirtyBits s.cache.md line bits } c) : c.md.dirty line = bits := by
  rw [hlists.dirty]
  exact update_self ..

theorem Inv.of_dirtyBits (h : Inv g s) (hb : Blocks g s core start stop line)
    {bits : Bits} (hm : Managed g c s.lines.owner)
    (hlists : ListsOnly { s.cache with md := setDirtyBits s.cache.md line bits } c)
    (hvalid : ∀ b ≤ g.endBlock, bits b = true → s.cache.md.valid line b = true) {k : Counters}
    (hk : k.cached = s.counters.cached) (hk' : k.cachedClines = s.counters.cachedClines)
    (hdirty : ∀ c' p, k.dirty c' p = s.counters.dirty c' p - weight (dirtyKey g s.cache.md line) c' p +
      weight (if testAny bits 0 g.endBlock = true then some (core, s.cache.md.partitionId line) else none) c' p)
    (hsum : Sums k.dirty k.dirtyClines) : Inv g ⟨⟨c, s.lines.owner⟩, k⟩ := by
  have hcore : (c.md.coreInfo line).1 = core := by
    rw [hlists.coreInfo]
    exact hb.core_eq
  have hpart : c.md.partitionId line = s.cache.md.partitionId line :=
    part_of_owner h.lines.managed hm hb.inUse.1 rfl
  have hinfo : c.md.coreInfo = s.cache.md.coreInfo := hlists.coreInfo
  refine h.of_line hb.inUse.1 ⟨hm, fun y hy => ?_⟩
    (fun y hy hne => sameLine_dirtyBits h.lines.managed hm hlists hy hne) (fun hc => ?_) (fun b hle hd => ?_)
    (fun c' p => ?_) (fun c' p => ?_) ?_ hsum
  · change _ ↔ (c.md.coreInfo y).1 = ocfCoreNum
    rw [hinfo]
    exact h.lines.mapped y hy
  · change (c.md.coreInfo line).1 = ocfCoreNum at hc
    rw [hinfo] at hc
    exact absurd hc (h.core_ne hb.inUse)
  · change c.md.dirty line b = true at hd
    change c.md.valid line b = true
    rw [dirty_dirtyBits hlists] at hd
    rw [hlists.valid]
    exact hvalid b hle hd
  · change k.cached c' p = _
    rw [hk]
    refine weight_same ?_ c' p
    change cachedKey g c.md line = _
    unfold cachedKey metadataTestValidAny
    rw [hlists.valid, hinfo, hpart]
    rfl
  · change k.dirty c' p = _
    rw [hdirty c' p]
    change _ = _ + weight (dirtyKey g c.md line) c' p
    unfold dirtyKey metadataTestDirty
    rw [dirty_dirtyBits hlists, hcore, hpart]
  · change Sums k.cached k.cachedClines
    rw [hk, hk']
    exact h.cachedSum

/-- `set_cache_line_dirty` for valid blocks. -/
theorem Inv.setDirty (h : Inv g s) (hb : Blocks g s core start stop line)
    (hvalid : ∀ b, start ≤ b → b ≤ stop → s.cache.md.valid line b = true)
    (hs : setDirty g s core start stop line = some s') : Inv g s' := by
  obtain ⟨c, heq, rfl⟩ := map_eq_some_iff.mp hs
  obtain ⟨hm, -⟩ := h.lines.managed.setLineDirty hb.inUse.1 hb.inUse.2 hb.stop_le heq
  have hbits : ∀ b ≤ g.endBlock, setRange (s.cache.md.dirty line) start stop b = true →
      s.cache.md.valid line b = true := by
    intro b hle hd
    rcases Bool.or_eq_true_iff.mp hd with hd | hd
    · exact h.valid line hb.inUse.1 b hle hd
    · exact hvalid b (of_decide_eq_true hd).1 (of_decide_eq_true hd).2
  have hbool : (!metadataTestDirtyAllSec s.cache.md line start stop && !metadataTestDirty g s.cache.md line) = true ↔
      metadataTestDirtyAllSec s.cache.md line start stop = false ∧ metadataTestDirty g s.cache.md line = false := by
    simp
  by_cases hfirst : metadataTestDirtyAllSec s.cache.md line start stop = false ∧
      metadataTestDirty g s.cache.md line = false
  · rw [if_pos hfirst]
    obtain ⟨hclean, hdirty⟩ := LruPlacement.testDirty_setRange_first hb.stop_le (hbool.mpr hfirst)
    rw [LruPlacement.testDirty_same] at hdirty
    refine h.of_dirtyBits hb hm (listsOnly_setLineDirty heq) hbits rfl rfl (fun c' p => ?_)
      (h.dirtySum.add hb.inUse.2 core 1)
    change add s.counters.dirty core _ 1 c' p = _
    rw [add_eq_weight, dirtyKey_neg hclean, weight_none, if_pos hdirty]
    omega
  · rw [if_neg hfirst]
    refine h.of_dirtyBits hb hm (listsOnly_setLineDirty heq) hbits rfl rfl (fun c' p => ?_) h.dirtySum
    refine weight_same ?_ c' p
    rw [LruPlacement.testDirty_setRange_keep (fun hn => hfirst (hbool.mp hn)), ← hb.core_eq]
    rfl

/-- `set_cache_line_clean`. -/
theorem Inv.setClean (h : Inv g s) (hb : Blocks g s core start stop line)
    (hs : setClean g s core start stop line = some s') : Inv g s' := by
  obtain ⟨c, heq, rfl⟩ := map_eq_some_iff.mp hs
  obtain ⟨hm, -⟩ := h.lines.managed.setLineClean hb.inUse.1 hb.inUse.2 hb.stop_le heq
  have hlists := listsOnly_setLineClean heq
  have hbits : ∀ b ≤ g.endBlock, clearRange (s.cache.md.dirty line) start stop b = true →
      s.cache.md.valid line b = true :=
    fun b hle hd => h.valid line hb.inUse.1 b hle (Bool.and_eq_true_iff.mp hd).1
  have htest : metadataTestDirty g c.md line = metadataTestDirty g
      (setDirtyBits s.cache.md line (clearRange (s.cache.md.dirty line) start stop)) line := by
    unfold metadataTestDirty
    rw [hlists.dirty]
  have hbool : (metadataTestDirtySec s.cache.md line start stop && !metadataTestDirty g
      (setDirtyBits s.cache.md line (clearRange (s.cache.md.dirty line) start stop)) line) = true ↔
      metadataTestDirtySec s.cache.md line start stop = true ∧ metadataTestDirty g c.md line = false := by
    rw [htest]
    simp
  by_cases hlast : metadataTestDirtySec s.cache.md line start stop = true ∧ metadataTestDirty g c.md line = false
  · rw [if_pos hlast]
    obtain ⟨hdirty, hclean⟩ := LruPlacement.testDirty_clearRange_last hb.stop_le (hbool.mpr hlast)
    rw [LruPlacement.testDirty_same] at hclean
    refine h.of_dirtyBits hb hm hlists hbits rfl rfl (fun c' p => ?_) (h.dirtySum.add hb.inUse.2 core (-1))
    change add s.counters.dirty core _ (-1) c' p = _
    rw [add_eq_weight, dirtyKey_pos hdirty, hb.core_eq, hclean, if_neg (by decide), weight_none]
    omega
  · rw [if_neg hlast]
    refine h.of_dirtyBits hb hm hlists hbits rfl rfl (fun c' p => ?_) h.dirtySum
    refine weight_same ?_ c' p
    rw [LruPlacement.testDirty_clearRange_keep (fun hn => hlast (hbool.mp hn)), ← hb.core_eq]
    rfl

/-- What `__set_cache_line_invalid` does to the metadata. -/
structure Invalidated (g : Geometry) (c : Cache) (start stop line : Nat) (c' : Cache) : Prop where
  /-- The valid blocks of the line. -/
  valid : c'.md.valid = update c.md.valid line (clearRange (c.md.valid line) start stop)
  /-- Dirty blocks stay. -/
  dirty : c'.md.dirty = c.md.dirty
  /-- Other lines stay mapped. -/
  coreInfo : ∀ y, y ≠ line → c'.md.coreInfo y = c.md.coreInfo y
  /-- So does the line if it keeps a valid block. -/
  keeps : testAny (clearRange (c.md.valid line) start stop) 0 g.endBlock = true →
    c'.md.coreInfo line = c.md.coreInfo line ∧ c'.md.partitionId line = c.md.partitionId line

theorem invalidated_setLineInvalid
    (h : setLineInvalid g c start stop line = some c') : Invalidated g c start stop line c' := by
  simp only [setLineInvalid] at h
  have htest : metadataTestValidAny g (setValidBits c.md line (clearRange (c.md.valid line) start stop)) line =
      testAny (clearRange (c.md.valid line) start stop) 0 g.endBlock := by
    have hbits : (setValidBits c.md line (clearRange (c.md.valid line) start stop)).valid line =
        clearRange (c.md.valid line) start stop := update_self ..
    unfold metadataTestValidAny
    rw [hbits]
  split at h
  · cases h
  · split at h
    · cases h
      exact ⟨rfl, rfl, fun _ _ => rfl, fun _ => ⟨rfl, rfl⟩⟩
    · rename_i hstays
      obtain ⟨c1, hrm, rfl⟩ := map_eq_some_iff.mp h
      have hlists : ListsOnly { c with md := setValidBits c.md line (clearRange (c.md.valid line) start stop) } c1 := by
        unfold ocfEvictionRmCline at hrm
        split at hrm
        · exact listsOnly_ocfLruRepartLocked hrm
        · simp only [Lfu.ocfLfuRmCline] at hrm
          split at hrm
          · cases hrm
          · exact listsOnly_ocfLfuRepartLocked hrm
      refine ⟨hlists.valid, hlists.dirty, fun y hne => ?_, fun hkeep => ?_⟩
      · change update c1.md.coreInfo line _ y = _
        rw [update_of_ne hne, hlists.coreInfo]
        rfl
      · rw [htest, hkeep] at hstays
        simp at hstays

section

variable (h : Invalidated g c start stop line c')
include h

theorem Invalidated.bits : c'.md.valid line = clearRange (c.md.valid line) start stop := by
  rw [h.valid, update_self]

theorem Invalidated.keys
    (hkeep : testAny (clearRange (c.md.valid line) start stop) 0 g.endBlock = true) :
    cachedKey g c'.md line = cachedKey g c.md line ∧ dirtyKey g c'.md line = dirtyKey g c.md line := by
  obtain ⟨hcore, hpart⟩ := h.keeps hkeep
  have hafter : metadataTestValidAny g c'.md line = true := by
    unfold metadataTestValidAny
    rw [h.bits]
    exact hkeep
  have hbefore : metadataTestValidAny g c.md line = true := by
    obtain ⟨b, hle, h0, hv⟩ := testAny_eq_true.mp hkeep
    exact testAny_eq_true.mpr ⟨b, hle, h0, (Bool.and_eq_true_iff.mp hv).1⟩
  constructor
  · rw [cachedKey_pos hafter, cachedKey_pos hbefore, hcore, hpart]
  · unfold dirtyKey metadataTestDirty
    rw [h.dirty, hcore, hpart]

theorem Invalidated.dirty_valid (hclean : ∀ b, start ≤ b → b ≤ stop → c.md.dirty line b = false)
    (hvalid : ∀ b ≤ g.endBlock, c.md.dirty line b = true → c.md.valid line b = true) :
    ∀ b ≤ g.endBlock, c'.md.dirty line b = true → c'.md.valid line b = true := by
  intro b hle hd
  rw [h.dirty] at hd
  rw [h.bits]
  have hold := hvalid b hle hd
  have hout : ¬(start ≤ b ∧ b ≤ stop) := fun hin => absurd (hclean b hin.1 hin.2) (by rw [hd]; decide)
  simp [clearRange, hold, hout]

theorem Invalidated.no_keys
    (hvalid : ∀ b ≤ g.endBlock, c'.md.dirty line b = true → c'.md.valid line b = true)
    (hnone : testAny (clearRange (c.md.valid line) start stop) 0 g.endBlock = false) :
    cachedKey g c'.md line = none ∧ dirtyKey g c'.md line = dirtyKey g c.md line := by
  have hafter : metadataTestValidAny g c'.md line = false := by
    unfold metadataTestValidAny
    rw [h.bits]
    exact hnone
  have hnodirty : metadataTestDirty g c'.md line = false := by
    rw [Bool.eq_false_iff] at hafter ⊢
    intro hdirty
    obtain ⟨b, hle, h0, hd⟩ := testAny_eq_true.mp hdirty
    exact hafter (testAny_eq_true.mpr ⟨b, hle, h0, hvalid b hle hd⟩)
  have hnodirty' : metadataTestDirty g c.md line = false := by
    unfold metadataTestDirty at hnodirty ⊢
    rwa [h.dirty] at hnodirty
  exact ⟨cachedKey_neg hafter, by rw [dirtyKey_neg hnodirty, dirtyKey_neg hnodirty']⟩

end

/-- `__set_cache_line_invalid` for clean blocks. -/
theorem Inv.setInvalid (h : Inv g s) (hb : Blocks g s core start stop line)
    (hclean : ∀ b, start ≤ b → b ≤ stop → s.cache.md.dirty line b = false)
    (hs : setInvalid g s core start stop line = some s') : Inv g s' := by
  obtain ⟨c, heq, rfl⟩ := map_eq_some_iff.mp hs
  have hmd := invalidated_setLineInvalid heq
  obtain ⟨owner, hdef, howner, hlines⟩ : ∃ owner,
      (if c.md.partitionId line = partitionFreelist then update s.lines.owner line .free
        else s.lines.owner) = owner ∧ (∀ y, y ≠ line → owner y = s.lines.owner y) ∧
      DetachRange.Inv g ⟨c, owner⟩ := by
    obtain ⟨⟨hinv, hid⟩ | ⟨hinv, hid⟩, -⟩ := DetachRuns.Inv.setLineInvalid h.lines hb.inUse heq
    · exact ⟨_, if_neg hid, fun y _ => rfl, hinv⟩
    · exact ⟨_, if_pos hid, fun y hne => update_of_ne hne .., hinv⟩
  rw [hdef]
  have hvalid := hmd.dirty_valid hclean (h.valid line hb.inUse.1)
  have hsame : ∀ y < g.collisionEntries, y ≠ line → SameLine s.cache.md c.md y := by
    intro y hy hne
    refine ⟨by rw [hmd.coreInfo y hne], part_of_owner h.lines.managed hlines.managed hy (howner y hne), ?_, ?_⟩
    · rw [hmd.valid, update_of_ne hne]
    · rw [hmd.dirty]
  have hblank : (c.md.coreInfo line).1 = ocfCoreNum → metadataTestValidAny g c.md line = false := by
    intro hc
    unfold metadataTestValidAny
    rw [hmd.bits, Bool.eq_false_iff]
    intro hkeep
    rw [(hmd.keeps hkeep).1] at hc
    exact h.core_ne hb.inUse hc
  cases htest : testAny (clearRange (s.cache.md.valid line) start stop) 0 g.endBlock with
  | true =>
    obtain ⟨hck, hdk⟩ := hmd.keys htest
    have hcond : ¬(metadataTestValidAny g s.cache.md line = true ∧ true = false) := by simp
    rw [if_neg hcond]
    exact h.of_line hb.inUse.1 hlines hsame hblank hvalid (fun c' p => weight_same hck c' p)
      (fun c' p => weight_same hdk c' p) h.cachedSum h.dirtySum
  | false =>
    obtain ⟨hck, hdk⟩ := hmd.no_keys hvalid htest
    by_cases hwas : metadataTestValidAny g s.cache.md line = true
    · have hcond : metadataTestValidAny g s.cache.md line = true ∧ false = false := ⟨hwas, rfl⟩
      rw [if_pos hcond]
      refine h.of_line hb.inUse.1 hlines hsame hblank hvalid (fun c' p => ?_)
        (fun c' p => weight_same hdk c' p) (h.cachedSum.add hb.inUse.2 core (-1)) h.dirtySum
      change add s.counters.cached core _ (-1) c' p = _ + weight (cachedKey g c.md line) c' p
      rw [add_eq_weight, hck, cachedKey_pos hwas, hb.core_eq, weight_none]
      omega
    · have hcond : ¬(metadataTestValidAny g s.cache.md line = true ∧ false = false) := fun hx => hwas hx.1
      rw [if_neg hcond]
      have hwas' : metadataTestValidAny g s.cache.md line = false := by simpa using hwas
      exact h.of_line hb.inUse.1 hlines hsame hblank hvalid
        (fun c' p => weight_same (hck.trans (cachedKey_neg hwas').symm) c' p)
        (fun c' p => weight_same hdk c' p) h.cachedSum h.dirtySum

theorem listsOnly_ocfEvictionRepart {dst : Part} (h : ocfEvictionRepart g c x src dst = some c') :
    ListsOnly c c' := by
  unfold ocfEvictionRepart at h
  split at h
  · exact listsOnly_ocfLruRepartLocked h
  · exact listsOnly_ocfLfuRepart h

/-- A line that may be moved to the partition of a request. -/
structure Movable (g : Geometry) (s : Counted) (req : Request) (line : Nat) : Prop where
  /-- The line is mapped. -/
  inUse : InUse g s.lines line
  /-- It is mapped to the core of the request. -/
  core : (s.cache.md.coreInfo line).1 = req.coreId
  /-- It has a valid block if its partition changes. -/
  filled : s.cache.md.partitionId line ≠ req.partId → metadataTestValidAny g s.cache.md line = true

/-- A line that changes its partition is counted there. -/
theorem Inv.moveLine (h : Inv g s) (hd : req.partId < ocfUserIoClassMax)
    (hmove : Movable g s req line) (hne : s.cache.md.partitionId line ≠ req.partId)
    (heq : ocfEvictionRepart g s.cache line (.user (s.cache.md.partitionId line)) (.user req.partId) = some c) :
    Inv g ⟨⟨c, update s.lines.owner line (.user req.partId)⟩,
        moveCounters s.counters req.coreId (s.cache.md.partitionId line) req.partId (metadataTestDirty g c.md line)⟩ ∧
      ∀ y, Movable g s req y → Movable g ⟨⟨c, update s.lines.owner line (.user req.partId)⟩,
        moveCounters s.counters req.coreId (s.cache.md.partitionId line) req.partId
          (metadataTestDirty g c.md line)⟩ req y := by
  have hlists := listsOnly_ocfEvictionRepart heq
  obtain ⟨hlines, -⟩ := DetachRuns.Inv.repart h.lines hmove.inUse hd hne heq
  have hpart : c.md.partitionId line = req.partId := by
    rw [hlines.managed.id hmove.inUse.1]
    change (update s.lines.owner line (.user req.partId) line).id = req.partId
    rw [update_self]
    rfl
  have hother : ∀ y < g.collisionEntries, y ≠ line → c.md.partitionId y = s.cache.md.partitionId y :=
    fun y hy hyl => part_of_owner h.lines.managed hlines.managed hy (update_of_ne hyl ..)
  have hvalid : metadataTestValidAny g c.md line = true := by
    unfold metadataTestValidAny
    rw [hlists.valid]
    exact hmove.filled hne
  have htest : metadataTestDirty g c.md line = metadataTestDirty g s.cache.md line := by
    unfold metadataTestDirty
    rw [hlists.dirty]
  constructor
  · refine h.of_line hmove.inUse.1 hlines (fun y hy hyl => ?_) (fun hc => ?_) (fun b hle hb => ?_) (fun c' p => ?_)
      (fun c' p => ?_) (h.cachedSum.move hmove.inUse.2 hd req.coreId) ?_
    · exact ⟨by rw [hlists.coreInfo], hother y hy hyl, by rw [hlists.valid], by rw [hlists.dirty]⟩
    · change (c.md.coreInfo line).1 = ocfCoreNum at hc
      rw [hlists.coreInfo] at hc
      exact absurd hc (h.core_ne hmove.inUse)
    · change c.md.dirty line b = true at hb
      change c.md.valid line b = true
      rw [hlists.dirty] at hb
      rw [hlists.valid]
      exact h.valid line hmove.inUse.1 b hle hb
    · change add (add s.counters.cached req.coreId req.partId 1) req.coreId _ (-1) c' p =
        _ + weight (cachedKey g c.md line) c' p
      rw [add_eq_weight, add_eq_weight, cachedKey_pos (hmove.filled hne), cachedKey_pos hvalid, hlists.coreInfo,
        hmove.core, hpart]
      omega
    · change (if metadataTestDirty g c.md line = true then
          add (add s.counters.dirty req.coreId req.partId 1) req.coreId _ (-1) else s.counters.dirty) c' p =
        _ + weight (dirtyKey g c.md line) c' p
      cases hdirty : metadataTestDirty g s.cache.md line with
      | true =>
        rw [if_pos (htest.trans hdirty), add_eq_weight, add_eq_weight, dirtyKey_pos hdirty,
          dirtyKey_pos (htest.trans hdirty), hlists.coreInfo, hmove.core, hpart]
        omega
      | false =>
        rw [if_neg (by rw [htest, hdirty]; decide), dirtyKey_neg hdirty, dirtyKey_neg (htest.trans hdirty)]
        exact weight_same rfl c' p
    · change Sums (if metadataTestDirty g c.md line = true then
        add (add s.counters.dirty req.coreId req.partId 1) req.coreId _ (-1) else s.counters.dirty) s.counters.dirtyClines
      split
      · exact h.dirtySum.move hmove.inUse.2 hd req.coreId
      · exact h.dirtySum
  · intro y hy
    have hid : c.md.partitionId y = req.partId ∨ c.md.partitionId y = s.cache.md.partitionId y := by
      by_cases hyl : y = line
      · exact .inl (by rw [hyl]; exact hpart)
      · exact .inr (hother y hy.inUse.1 hyl)
    refine ⟨⟨hy.inUse.1, ?_⟩, ?_, fun hyne => ?_⟩
    · change c.md.partitionId y < ocfUserIoClassMax
      rcases hid with hid | hid
      · rw [hid]
        exact hd
      · rw [hid]
        exact hy.inUse.2
    · change (c.md.coreInfo y).1 = req.coreId
      rw [hlists.coreInfo]
      exact hy.core
    · change metadataTestValidAny g c.md y = true
      unfold metadataTestValidAny
      rw [hlists.valid]
      rcases hid with hid | hid
      · exact absurd hid hyne
      · exact hy.filled (by rw [← hid]; exact hyne)

theorem Inv.userPartMoveLine (h : Inv g s) {i : Nat} (hd : req.partId < ocfUserIoClassMax)
    (hmove : (req.map i).rePart = true → Movable g s req (req.map i).collIdx)
    (hs : userPartMoveLine g req s i = some s') :
    Inv g s' ∧ ∀ y, Movable g s req y → Movable g s' req y := by
  unfold Occupancy.userPartMoveLine at hs
  dsimp only at hs
  by_cases hskip : (req.map i).rePart = false
  · rw [if_pos hskip] at hs
    cases hs
    exact ⟨h, fun _ hy => hy⟩
  · rw [if_neg hskip] at hs
    obtain ⟨-, hs⟩ := Option.ite_none_left_eq_some.mp hs
    obtain ⟨-, hs⟩ := Option.ite_none_left_eq_some.mp hs
    by_cases hsame : s.cache.md.partitionId (req.map i).collIdx = req.partId
    · rw [if_pos hsame] at hs
      cases hs
      exact ⟨h, fun _ hy => hy⟩
    · rw [if_neg hsame] at hs
      obtain ⟨c, heq, rfl⟩ := map_eq_some_iff.mp hs
      exact h.moveLine hd (hmove (by simpa using hskip)) hsame heq

/-- `ocf_user_part_move`. -/
theorem Inv.userPartMove (h : Inv g s) (hd : req.partId < ocfUserIoClassMax)
    (hmove : ∀ i < req.coreLineCount g, (req.map i).rePart = true → Movable g s req (req.map i).collIdx)
    (hs : ocfUserPartMove g req s = some s') : Inv g s' := by
  unfold ocfUserPartMove at hs
  have hgen : ∀ (l : List Nat) (t : Counted), Inv g t →
      (∀ i ∈ l, (req.map i).rePart = true → Movable g t req (req.map i).collIdx) →
      l.foldlM (Occupancy.userPartMoveLine g req) t = some s' → Inv g s' := by
    intro l
    induction l with
    | nil =>
      intro t ht _ heq
      cases heq
      exact ht
    | cons i l ih =>
      intro t ht hall heq
      obtain ⟨t', ht', hrest⟩ := Option.bind_eq_some_iff.mp heq
      obtain ⟨hinv, hkeep⟩ := ht.userPartMoveLine hd (hall i (by simp)) ht'
      exact ih t' hinv (fun j hj hre => hkeep _ (hall j (by simp [hj]) hre)) hrest
  exact hgen _ s h (fun i hi => hmove i (List.mem_range.mp hi)) hs

/-- What mapping a line to the core of a request does to the metadata. -/
structure Assigned (g : Geometry) (c : Cache) (req : Request) (line src : Nat) (c' : Cache) : Prop where
  /-- The line is not dirty. -/
  clean : metadataTestDirty g c.md line = false
  /-- It gets a core line of the request. -/
  core : (c'.md.coreInfo line).1 = req.coreId
  /-- Other lines stay mapped. -/
  coreInfo : ∀ y, y ≠ line → c'.md.coreInfo y = c.md.coreInfo y
  /-- An evicted line loses its valid blocks. -/
  bits : c'.md.valid line =
    if src ≠ partitionFreelist then clearRange (c.md.valid line) 0 g.endBlock else c.md.valid line
  /-- Blocks of other lines stay valid. -/
  valid : ∀ y, y ≠ line → c'.md.valid y = c.md.valid y
  /-- Dirty blocks stay. -/
  dirty : c'.md.dirty = c.md.dirty
  /-- Partitions stay. -/
  part : c'.md.partitionId = c.md.partitionId
  /-- Locks stay. -/
  locked : c'.lineLocked = c.lineLocked

theorem assigned_assignLine {req' : Request} {src idx idx' : Nat}
    (h : assignLine g c req line src idx = some (c', req', idx')) : Assigned g c req line src c' := by
  obtain ⟨⟨coreLine, hinfo⟩, -⟩ := assignLine_core h
  have hcore : (c'.md.coreInfo line).1 = req.coreId := by
    rw [hinfo, update_self]
  have hother : ∀ y, y ≠ line → c'.md.coreInfo y = c.md.coreInfo y := by
    intro y hne
    rw [hinfo, update_of_ne hne]
  simp only [assignLine, Option.ite_none_left_eq_some, Option.some.injEq, Prod.mk.injEq] at h
  obtain ⟨hlock, -, rfl, -, -⟩ := h
  have hclean : metadataTestDirty g c.md line = false := by
    rw [Bool.eq_false_iff]
    exact fun hd => hlock (.inr hd)
  by_cases hsrc : src ≠ partitionFreelist
  · simp only [if_pos hsrc] at hcore hother ⊢
    refine ⟨hclean, hcore, hother, ?_, fun y hne => ?_, rfl, rfl, rfl⟩
    · rw [if_pos hsrc]
      exact update_self ..
    · exact update_of_ne hne ..
  · simp only [if_neg hsrc] at hcore hother ⊢
    refine ⟨hclean, hcore, hother, ?_, fun y _ => rfl, rfl, rfl, rfl⟩
    rw [if_neg hsrc]
    rfl

/-- A line that is handed over is counted for its new core and partition. -/
theorem Inv.assign {c1 c2 : Cache} {k : Counters} (h : Inv g ⟨⟨c, owner⟩, k⟩)
    (hlocked : EmptyLocked g c) {req' : Request} {t : Handed} {d idx idx' : Nat}
    (hd : d < ocfUserIoClassMax) (hcore : req.coreId < ocfCoreNum) (hline : t.line < g.collisionEntries)
    (hsrc : t.src = (owner t.line).id)
    (hmoved : Managed g c1 (update owner t.line (.user d))) (htook : Took g req src cline c c1 t)
    (heq : assignLine g c1 req t.line t.src idx = some (c2, req', idx')) :
    Inv g ⟨⟨c2, update owner t.line (.user d)⟩, evictCounters k [t]⟩ ∧ EmptyLocked g c2 := by
  have hlines := h.lines.assign hd hcore hmoved htook heq
  have hassign := assigned_assignLine heq
  obtain ⟨c0, hlists, rfl⟩ := htook.lists
  have hinfo : (lockLine c0 t.line).md.coreInfo = c.md.coreInfo := hlists.coreInfo
  have hvalid : (lockLine c0 t.line).md.valid = c.md.valid := hlists.valid
  have hdirty : (lockLine c0 t.line).md.dirty = c.md.dirty := hlists.dirty
  have hmapped : t.src = partitionFreelist ↔ (c.md.coreInfo t.line).1 = ocfCoreNum := by
    rw [hsrc]
    exact h.lines.mapped t.line hline
  have hclean : metadataTestDirty g c.md t.line = false := by
    have hc := hassign.clean
    unfold metadataTestDirty at hc ⊢
    rwa [hdirty] at hc
  have hclean' : metadataTestDirty g c2.md t.line = false := by
    have hc := hclean
    unfold metadataTestDirty at hc ⊢
    rwa [hassign.dirty, hdirty]
  -- a line of the free list had no valid block, an evicted one has none left
  have hempty : metadataTestValidAny g c2.md t.line = false := by
    unfold metadataTestValidAny
    rw [hassign.bits, hvalid]
    by_cases hfree : t.src = partitionFreelist
    · rw [if_neg (not_not.mpr hfree)]
      exact h.blank t.line hline (hmapped.mp hfree)
    · rw [if_pos hfree, Bool.eq_false_iff]
      intro hany
      obtain ⟨b, hle, -, hb⟩ := testAny_eq_true.mp hany
      simp [clearRange, hle] at hb
  have hsame : ∀ y < g.collisionEntries, y ≠ t.line → SameLine c.md c2.md y := by
    intro y hy hne
    refine ⟨by rw [hassign.coreInfo y hne, hinfo], ?_, by rw [hassign.valid y hne, hvalid], ?_⟩
    · rw [hassign.part]
      exact part_of_owner h.lines.managed hmoved hy (update_of_ne hne ..)
    · rw [hassign.dirty, hdirty]
  have hlocks : c2.lineLocked = update c.lineLocked t.line true := by
    rw [hassign.locked]
    change update c0.lineLocked t.line true = _
    rw [hlists.lineLocked]
  constructor
  · have hdk : dirtyKey g c2.md t.line = dirtyKey g c.md t.line := by
      rw [dirtyKey_neg hclean', dirtyKey_neg hclean]
    have hblank : (c2.md.coreInfo t.line).1 = ocfCoreNum → metadataTestValidAny g c2.md t.line = false :=
      fun _ => hempty
    have hbits : ∀ b ≤ g.endBlock, c2.md.dirty t.line b = true → c2.md.valid t.line b = true := by
      intro b hle hb
      rw [Bool.eq_false_iff] at hclean'
      exact absurd (testAny_eq_true.mpr ⟨b, hle, Nat.zero_le b, hb⟩) hclean'
    by_cases hfree : t.src = partitionFreelist
    · have hk : evictCounters k [t] = k := if_neg (not_not.mpr hfree)
      have hnone := h.blank t.line hline (hmapped.mp hfree)
      rw [hk]
      exact h.of_line hline hlines hsame hblank hbits
        (fun c' p => weight_same ((cachedKey_neg hempty).trans (cachedKey_neg hnone).symm) c' p)
        (fun c' p => weight_same hdk c' p) h.cachedSum h.dirtySum
    · have hk : evictCounters k [t] = k.addCached (c.md.coreInfo t.line).1 t.src (-1) := by
        have hstep : evictCounters k [t] = k.addCached (t.before.md.coreInfo t.line).1 t.src (-1) := if_pos hfree
        rw [hstep, htook.before]
      have hfull : metadataTestValidAny g c.md t.line = true := by
        by_contra hno
        have hlock := hlocked t.line hline (fun hc => hfree (hmapped.mpr hc)) (by simpa using hno)
        rw [htook.free] at hlock
        cases hlock
      have hpart : c.md.partitionId t.line = t.src := by
        rw [h.lines.managed.id hline, hsrc]
      have huser : t.src < ocfUserIoClassMax := by
        have howner := h.lines.managed.owner_of_id hline (by rw [hpart]; exact hfree)
        have hexists := h.lines.managed.part t.line
        rw [howner, hpart] at hexists
        exact hexists
      rw [hk]
      refine h.of_line hline hlines hsame hblank hbits (fun c' p => ?_) (fun c' p => weight_same hdk c' p)
        (h.cachedSum.add huser _ (-1)) h.dirtySum
      change add k.cached (c.md.coreInfo t.line).1 t.src (-1) c' p =
        k.cached c' p - weight (cachedKey g c.md t.line) c' p + weight (cachedKey g c2.md t.line) c' p
      rw [add_eq_weight, cachedKey_pos hfull, hpart, cachedKey_neg hempty, weight_none]
      omega
  · intro y hy hmap hno
    rw [hlocks]
    by_cases hne : y = t.line
    · rw [hne, update_self]
    · rw [update_of_ne hne]
      have heq := hsame y hy hne
      rw [heq.core] at hmap
      refine hlocked y hy hmap ?_
      unfold metadataTestValidAny at hno ⊢
      rwa [heq.valid] at hno

theorem Inv.reqClinesLoop (hsrc : src.Exists) {d : Nat} (hd : d < ocfUserIoClassMax)
    {dstMax n : Nat} {k : Counters} {it : Iter}
    {cline : Option Nat} {idx : Nat} {r : Result} (h : Inv g ⟨⟨c, owner⟩, k⟩) (hlocked : EmptyLocked g c)
    (hidx : OnLists c it) (hcore : req.coreId < ocfCoreNum)
    (heq : reqClinesLoop g src (.user d) dstMax n c req it cline idx = some r) :
    Inv g ⟨⟨r.1, LruPlacement.handOver owner d r.2.2⟩, evictCounters k r.2.2⟩ := by
  refine reqClinesLoop_rule (P := fun _ c req it _ r => ∀ owner k, Inv g ⟨⟨c, owner⟩, k⟩ → EmptyLocked g c →
    OnLists c it → req.coreId < ocfCoreNum →
      Inv g ⟨⟨r.1, LruPlacement.handOver owner d r.2.2⟩, evictCounters k r.2.2⟩)
    (fun _ _ _ _ _ _ _ h _ _ _ => h) ?_ heq owner k h hlocked hidx hcore
  intro n c req it cline c1 it1 t c2 req2 idx idx2 r hnext htook hassign ih owner k h hlocked hidx hcore
  obtain ⟨-, hidx1, hsome⟩ := h.lines.managed.nextLine hsrc hd hidx hnext
  obtain ⟨hline, hpart, -⟩ := h.lines.managed.nextLine_owner hsrc hidx hnext
  obtain ⟨hinv, hlocked2⟩ := h.assign hlocked hd hcore hline hpart (hsome t rfl) htook hassign
  have hcore2 : req2.coreId < ocfCoreNum := (assignLine_core hassign).2 ▸ hcore
  exact ih _ _ hinv hlocked2 (hidx1.assignLine hassign) hcore2

/-- `ocf_lru_req_clines` and `ocf_lfu_req_clines`. -/
theorem Inv.reqClines (h : Inv g s) (hlocked : EmptyLocked g s.cache)
    (hd : req.partId < ocfUserIoClassMax) (hcore : req.coreId < ocfCoreNum) (hsrc : src.Exists)
    {n : Nat} (hs : reqClines g s req src n = some s') : Inv g s' := by
  obtain ⟨r, heq, rfl⟩ := map_eq_some_iff.mp hs
  simp only [ocfEvictionReqClines] at heq
  split at heq
  · cases heq
    exact h
  · split at heq
    · cases heq
    · have hmanaged : Managed g { s.cache with lruIdx := s.cache.lruIdx + 1 } s.lines.owner :=
        h.lines.managed.congr rfl rfl rfl rfl rfl rfl rfl
      have hstart : Inv g ⟨⟨{ s.cache with lruIdx := s.cache.lruIdx + 1 }, s.lines.owner⟩, s.counters⟩ :=
        ⟨⟨hmanaged, h.lines.mapped⟩, h.blank, h.valid, h.cached, h.dirty, h.cachedSum, h.dirtySum⟩
      exact hstart.reqClinesLoop hsrc hd hlocked (fun _ => Nat.mod_lt _ (by decide)) hcore heq

/-- An operation keeps the counters exact. -/
theorem step_inv {op : Op} (h : Inv g s) (hp : Permitted g s op) (hk : KeepsEmpty g s op)
    (hs : step g s op = some s') : Inv g s' := by
  cases op with
  | reqClines req src n => exact h.reqClines hk hp.1 hp.2.1 hp.2.2 hs
  | setValid core start stop line =>
    cases hs
    exact h.setValid hp
  | setDirty core start stop line => exact h.setDirty hp.1 hp.2 hs
  | setClean core start stop line => exact h.setClean hp hs
  | setInvalid core start stop line => exact h.setInvalid hp.1 hp.2 hs
  | userPartMove req =>
    refine h.userPartMove hp.1 (fun i hi hre => ?_) hs
    obtain ⟨hin, hcore⟩ := hp.2 i hi hre
    exact ⟨hin, hcore, hk i hi hre⟩
  | other env =>
    cases hs
    have hmanaged : Managed g (surround s.cache env) s.lines.owner :=
      h.lines.managed.congr rfl rfl rfl rfl rfl rfl rfl
    exact ⟨⟨hmanaged, h.lines.mapped⟩, h.blank, h.valid, h.cached, h.dirty, h.cachedSum, h.dirtySum⟩

theorem countBelow_cachedKey (md : LineTable) (n core p : Nat) :
    countBelow (fun x => decide (cachedKey g md x = some (core, p))) n =
      countBelow (fun x => decide ((md.coreInfo x).1 = core ∧ md.partitionId x = p) && metadataTestValidAny g md x) n := by
  refine countBelow_congr fun x _ => ?_
  cases hany : metadataTestValidAny g md x with
  | true => simp [cachedKey_pos hany]
  | false => simp [cachedKey_neg hany]

theorem countBelow_dirtyKey (md : LineTable) (n core p : Nat) :
    countBelow (fun x => decide (dirtyKey g md x = some (core, p))) n =
      countBelow (fun x => decide ((md.coreInfo x).1 = core ∧ md.partitionId x = p) && metadataTestDirty g md x) n := by
  refine countBelow_congr fun x _ => ?_
  cases hany : metadataTestDirty g md x with
  | true => simp [dirtyKey_pos hany]
  | false => simp [dirtyKey_neg hany]

theorem Inv.exact (h : Inv g s) : Exact g s := by
  refine ⟨fun core hcore p hp => ?_, fun core hcore p hp => ?_, h.cachedSum, h.dirtySum⟩
  · rw [h.cached core hcore p hp, countBelow_cachedKey]
  · rw [h.dirty core hcore p hp, countBelow_dirtyKey]

/-- Where a run starts: lines on their lists, free lines without valid blocks,
dirty blocks that are valid and exact counters. -/
structure Start (g : Geometry) (s : Counted) : Prop where
  /-- Lines are on their lists, and those in user partitions are mapped. -/
  lines : DetachRange.Inv g s.lines
  /-- Lines without a core line have no valid block. -/
  blank : ∀ x < g.collisionEntries, (s.cache.md.coreInfo x).1 = ocfCoreNum →
    metadataTestValidAny g s.cache.md x = false
  /-- Dirty blocks are valid. -/
  valid : ∀ x < g.collisionEntries, ∀ b ≤ g.endBlock, s.cache.md.dirty x b = true → s.cache.md.valid x b = true
  /-- The counters are exact. -/
  exact : Exact g s

theorem Start.inv (h : Start g s) : Inv g s := by
  refine ⟨h.lines, h.blank, h.valid, fun core hcore p hp => ?_, fun core hcore p hp => ?_, h.exact.cachedSum,
    h.exact.dirtySum⟩
  · rw [h.exact.cached core hcore p hp, countBelow_cachedKey]
  · rw [h.exact.dirty core hcore p hp, countBelow_dirtyKey]

/-- No counter is negative. -/
structure NonNegative (k : Counters) : Prop where
  /-- Counters of partitions. -/
  parts : ∀ core < ocfCoreNum, ∀ p < ocfUserIoClassMax, 0 ≤ k.cached core p ∧ 0 ≤ k.dirty core p
  /-- Counters of cores. -/
  totals : ∀ core < ocfCoreNum, 0 ≤ k.cachedClines core ∧ 0 ≤ k.dirtyClines core

theorem Exact.nonNegative (h : Exact g s) : NonNegative s.counters := by
  have hparts : ∀ core < ocfCoreNum, ∀ p < ocfUserIoClassMax,
      0 ≤ s.counters.cached core p ∧ 0 ≤ s.counters.dirty core p := by
    intro core hcore p hp
    rw [h.cached core hcore p hp, h.dirty core hcore p hp]
    exact ⟨Int.natCast_nonneg _, Int.natCast_nonneg _⟩
  refine ⟨hparts, fun core hcore => ?_⟩
  rw [h.cachedSum core, h.dirtySum core]
  exact ⟨Finset.sum_nonneg fun p hp => (hparts core hcore p (Finset.mem_range.mp hp)).1,
    Finset.sum_nonneg fun p hp => (hparts core hcore p (Finset.mem_range.mp hp)).2⟩

/-- In every run in which lines without a valid block are locked whenever lines
are evicted, and only lines with a valid block change their partition, the
counters are exact in every state, and none is negative. -/
theorem occupancy_exact {start : Counted} (h0 : Start g start)
    (h : Reachable (system g (KeepsEmpty g)) start s) : Exact g s ∧ NonNegative s.counters := by
  have hinv : Inv g s := RunIn.invariant h (fun _ => h0.inv)
    fun t op t' ht _ hg hs _ => step_inv ht hg.1 hg.2 hs
  exact ⟨hinv.exact, hinv.exact.nonNegative⟩

end Steps

section Checks

variable (g : Geometry) (s : Counted)

/-- Check of `Blocks`. -/
def blocksCheck (core start stop line : Nat) : Bool :=
  decide (line < g.collisionEntries ∧ s.cache.md.partitionId line < ocfUserIoClassMax ∧
    (s.cache.md.coreInfo line).1 = core ∧ start ≤ stop ∧ stop ≤ g.endBlock)

/-- Check of `Permitted`. -/
def permittedCheck : Op → Bool
  | .reqClines req src _ => decide (req.partId < ocfUserIoClassMax ∧ req.coreId < ocfCoreNum ∧ src.Exists)
  | .setValid core start stop line => blocksCheck g s core start stop line
  | .setDirty core start stop line =>
    blocksCheck g s core start stop line && testAll (s.cache.md.valid line) start stop
  | .setClean core start stop line => blocksCheck g s core start stop line
  | .setInvalid core start stop line =>
    blocksCheck g s core start stop line && testAll (fun b => !s.cache.md.dirty line b) start stop
  | .userPartMove req => decide (req.partId < ocfUserIoClassMax) && (List.range (req.coreLineCount g)).all fun i =>
    !(req.map i).rePart || decide ((req.map i).collIdx < g.collisionEntries ∧
      s.cache.md.partitionId (req.map i).collIdx < ocfUserIoClassMax ∧
      (s.cache.md.coreInfo (req.map i).collIdx).1 = req.coreId)
  | .other _ => true

/-- Check of `KeepsEmpty`. -/
def keepsEmptyCheck : Op → Bool
  | .reqClines .. => (List.range g.collisionEntries).all fun x =>
    decide ((s.cache.md.coreInfo x).1 = ocfCoreNum) || metadataTestValidAny g s.cache.md x || s.cache.lineLocked x
  | .userPartMove req => (List.range (req.coreLineCount g)).all fun i =>
    !(req.map i).rePart || decide (s.cache.md.partitionId (req.map i).collIdx = req.partId) ||
      metadataTestValidAny g s.cache.md (req.map i).collIdx
  | _ => true

variable {g s}

theorem blocks_of_check (h : blocksCheck g s core start stop line = true) :
    Blocks g s core start stop line := by
  obtain ⟨hline, hpart, hcore, hle, hstop⟩ := of_decide_eq_true h
  exact ⟨⟨hline, hpart⟩, hcore, hle, hstop⟩

theorem permitted_of_check {op : Op} (h : permittedCheck g s op = true) : Permitted g s op := by
  cases op with
  | reqClines req src n =>
    have hreq := of_decide_eq_true h
    exact hreq
  | setValid core start stop line => exact blocks_of_check h
  | setDirty core start stop line =>
    obtain ⟨hb, hvalid⟩ := Bool.and_eq_true_iff.mp h
    exact ⟨blocks_of_check hb, fun b hlo hhi => testAll_eq_true.mp hvalid b hhi hlo⟩
  | setClean core start stop line => exact blocks_of_check h
  | setInvalid core start stop line =>
    obtain ⟨hb, hclean⟩ := Bool.and_eq_true_iff.mp h
    exact ⟨blocks_of_check hb, fun b hlo hhi => by simpa using testAll_eq_true.mp hclean b hhi hlo⟩
  | userPartMove req =>
    obtain ⟨hpart, hall⟩ := Bool.and_eq_true_iff.mp h
    refine ⟨of_decide_eq_true hpart, fun i hi hre => ?_⟩
    have hi' := List.all_eq_true.mp hall i (List.mem_range.mpr hi)
    rw [hre, Bool.not_true, Bool.false_or] at hi'
    obtain ⟨hline, hid, hcore⟩ := of_decide_eq_true hi'
    exact ⟨⟨hline, hid⟩, hcore⟩
  | other env => trivial

theorem keepsEmpty_of_check {op : Op} (h : keepsEmptyCheck g s op = true) : KeepsEmpty g s op := by
  cases op with
  | reqClines req src n =>
    intro x hx hmapped hempty
    have hx' := List.all_eq_true.mp h x (List.mem_range.mpr hx)
    rw [hempty, decide_eq_false hmapped] at hx'
    simpa using hx'
  | userPartMove req =>
    intro i hi hre hne
    have hi' := List.all_eq_true.mp h i (List.mem_range.mpr hi)
    rw [hre, decide_eq_false hne] at hi'
    simpa using hi'
  | _ => trivial

end Checks

/-- A request for the first core line of a core, not mapped yet. -/
def firstLine (core : Nat) : Request where
  coreId := core
  addr := 0
  blocks := 1
  rw := .write
  partId := 1
  map := fun _ => ⟨0, 3, 0, core, .miss, false, false, false⟩
  info := .zero

/-- Nobody holds a line, and somebody waits for one or not. -/
def unlocked (waiters : Nat → Bool) : Surroundings :=
  ⟨fun _ => false, fun _ _ => false, waiters, fun _ => ⟨0, 100, true, 0⟩, [1], fun _ => 0, 0⟩

/-- Three free lines. -/
def freeLines : Counted :=
  ⟨LruRuns.startThree (fun _ => ⟨0, 100, true, 0⟩) [1], ⟨fun _ _ => 0, fun _ _ => 0, fun _ => 0, fun _ => 0⟩⟩

theorem start_freeLines : Start LruRuns.threeLines freeLines := by
  have hempty : ∀ x < 3, metadataTestValidAny LruRuns.threeLines freeLines.cache.md x = false ∧
      metadataTestDirty LruRuns.threeLines freeLines.cache.md x = false := by decide +kernel
  have hlines : DetachRuns.Start LruRuns.threeLines freeLines.lines := by
    refine ⟨.inl (LruRuns.start_startThree (by decide +kernel)), ?_⟩
    decide +kernel
  refine ⟨hlines.inv, fun x hx _ => (hempty x hx).1, fun x hx b hb hd => ?_, fun core _ p _ => ?_, fun core _ p _ => ?_,
    fun core => ?_, fun core => ?_⟩
  · have hclean := (hempty x hx).2
    rw [Bool.eq_false_iff] at hclean
    exact absurd (testAny_eq_true.mpr ⟨b, hb, Nat.zero_le b, hd⟩) hclean
  · rw [countBelow_eq_zero.mpr fun x hx => by rw [(hempty x hx).1, Bool.and_false]]
    rfl
  · rw [countBelow_eq_zero.mpr fun x hx => by rw [(hempty x hx).2, Bool.and_false]]
    rfl
  · exact (Finset.sum_const_zero).symm
  · exact (Finset.sum_const_zero).symm

/-- A line is mapped, written and evicted. -/
def mapWriteEvict : List Op :=
  [.reqClines (firstLine 0) .free 1, .setValid 0 0 0 0, .setDirty 0 0 0 0, .setClean 0 0 0 0,
    .other (unlocked fun _ => false), .reqClines (firstLine 1) (.user 1) 1, .setValid 1 0 0 0]

/-- After these operations the line counts for the second core. -/
theorem occupancy_exact_mapWriteEvict :
    ∃ s, Reachable (system LruRuns.threeLines (KeepsEmpty LruRuns.threeLines)) freeLines s ∧
      s.counters.cached 0 1 = 0 ∧ s.counters.cached 1 1 = 1 ∧
      Exact LruRuns.threeLines s ∧ NonNegative s.counters := by
  have hview : (mapWriteEvict.foldlM (checkedStep (system LruRuns.threeLines (KeepsEmpty LruRuns.threeLines))
      fun s op => permittedCheck LruRuns.threeLines s op && keepsEmptyCheck LruRuns.threeLines s op) freeLines).map
      (fun s => (s.counters.cached 0 1, s.counters.cached 1 1)) = some (0, 1) := by decide +kernel
  obtain ⟨s, hrun, hview⟩ := map_eq_some_iff.mp hview
  have hcheck : ∀ t op, (permittedCheck LruRuns.threeLines t op && keepsEmptyCheck LruRuns.threeLines t op) = true →
      Permitted LruRuns.threeLines t op ∧ KeepsEmpty LruRuns.threeLines t op := by
    intro t op hok
    obtain ⟨hp, hk⟩ := Bool.and_eq_true_iff.mp hok
    exact ⟨permitted_of_check hp, keepsEmpty_of_check hk⟩
  have hreach := Reachable.of_checked hcheck hrun
  obtain ⟨hexact, hnonneg⟩ := occupancy_exact start_freeLines hreach
  exact ⟨s, hreach, congrArg Prod.fst hview, congrArg Prod.snd hview, hexact, hnonneg⟩

/-- A line is mapped, its write fails while another request waits for it, and
it is evicted after that request. -/
def failedWriteEvicted : List Op :=
  [.reqClines (firstLine 0) .free 1, .other (unlocked fun _ => true), .setClean 0 0 0 0, .setInvalid 0 0 0 0,
    .other (unlocked fun _ => false), .reqClines (firstLine 1) (.user 1) 1]

/-- Eviction of a line without a valid block makes its counters negative. -/
theorem evicted_empty_line_counted : Start LruRuns.threeLines freeLines ∧
      ∃ s, Reachable (system LruRuns.threeLines fun _ _ => True) freeLines s ∧ s.counters.cached 0 1 = -1 ∧
        ¬Exact LruRuns.threeLines s := by
  have hview : (failedWriteEvicted.foldlM (checkedStep (system LruRuns.threeLines fun _ _ => True)
      (permittedCheck LruRuns.threeLines)) freeLines).map (fun s => s.counters.cached 0 1) = some (-1) := by
    decide +kernel
  obtain ⟨s, hrun, hview⟩ := map_eq_some_iff.mp hview
  have hcheck : ∀ t op, permittedCheck LruRuns.threeLines t op = true → Permitted LruRuns.threeLines t op ∧ True :=
    fun t op hok => ⟨permitted_of_check hok, trivial⟩
  have hreach := Reachable.of_checked hcheck hrun
  refine ⟨start_freeLines, s, hreach, hview, fun hexact => ?_⟩
  have hpos := (hexact.nonNegative.parts 0 (by decide) 1 (by decide)).1
  omega

end OcfCache.Occupancy
