import OcfCache.CacheLine
import OcfCache.LinkedLists

/-!
# Lists of the ALRU cleaning policy

The functions of `alru.c` that change the list of dirty lines of a partition,
and those that build the lists of all partitions. The links have the number of
cache lines as the index that stands for no line. An `ENV_BUG_ON` is the result
`none`. Time stamps are not modelled: they only decide when a line is stale.
-/

namespace OcfCache.Alru

open Function Metadata Loops CacheLine

/-- `OCF_ALRU_FILL_SHARDS_CNT`. -/
def ocfAlruFillShardsCnt : Nat := 32

/-- `struct alru_cleaning_policy_meta`. -/
@[ext] structure AlruMeta where
  /-- Previous line of the list. -/
  lruPrev : Nat
  /-- Next line of the list. -/
  lruNext : Nat

/-- `struct alru_cleaning_policy`. -/
structure PartAlru where
  /-- Number of lines. -/
  size : Int
  /-- First line. -/
  lruHead : Nat
  /-- Last line. -/
  lruTail : Nat

/-- The cache as the policy sees it. -/
structure State where
  /-- Mapping, status bits and partitions of the lines. -/
  md : LineTable
  /-- Links of the lines. -/
  links : Nat → AlruMeta
  /-- Lists of the partitions. -/
  part : Nat → PartAlru

/-- Write the predecessor of a line. -/
def setPrev (links : Nat → AlruMeta) (x v : Nat) : Nat → AlruMeta :=
  update links x { links x with lruPrev := v }

/-- Write the successor of a line. -/
def setNext (links : Nat → AlruMeta) (x v : Nat) : Nat → AlruMeta :=
  update links x { links x with lruNext := v }

section Code

variable (g : Geometry)

/-- `append_alru_head`. -/
def appendAlruHead (s : State) (p head tail : Nat) : Option State :=
  let terminator := g.collisionEntries
  if head = terminator ∧ tail = terminator then some s
  else if head = terminator ∨ tail = terminator then none
  else if (s.part p).lruHead = terminator then
    some { s with part := update s.part p { s.part p with lruHead := head, lruTail := tail } }
  else
    let links := setPrev s.links (s.part p).lruHead tail
    some { s with
      links := setNext links tail (s.part p).lruHead
      part := update s.part p { s.part p with lruHead := head } }

/-- `add_alru_head`. -/
def addAlruHead (s : State) (p x : Nat) : Option State :=
  if ¬x < g.collisionEntries then none
  else
    let links := update s.links x ⟨g.collisionEntries, g.collisionEntries⟩
    (appendAlruHead g { s with links } p x x).map fun s =>
      { s with part := update s.part p { s.part p with size := (s.part p).size + 1 } }

/-- `remove_alru_list`. -/
def removeAlruList (s : State) (p x : Nat) : Option State :=
  let terminator := g.collisionEntries
  let part := s.part p
  let next := (s.links x).lruNext
  let prev := (s.links x).lruPrev
  if ¬x < terminator then none
  else if next = terminator ∧ prev = terminator ∧ part.lruHead ≠ x ∧ part.lruTail ≠ x then some s
  else if part.lruHead = x ∧ part.lruTail = x then
    some { s with
      links := update s.links x ⟨terminator, terminator⟩
      part := update s.part p ⟨part.size - 1, terminator, terminator⟩ }
  else if part.lruTail ≠ x ∧ part.lruHead = x then
    if ¬next < terminator then none
    else some { s with
      links := setPrev (setNext s.links x terminator) next terminator
      part := update s.part p { part with size := part.size - 1, lruHead := next } }
  else if part.lruHead ≠ x ∧ part.lruTail = x then
    if ¬prev < terminator then none
    else some { s with
      links := setNext (setPrev s.links x terminator) prev terminator
      part := update s.part p { part with size := part.size - 1, lruTail := prev } }
  else if ¬next < terminator ∨ ¬prev < terminator then none
  else some { s with
    links := update (setPrev (setNext s.links prev next) next prev) x ⟨terminator, terminator⟩
    part := update s.part p { part with size := part.size - 1 } }

/-- `is_on_alru_list`. -/
def isOnAlruList (s : State) (p x : Nat) : Bool :=
  decide ((s.part p).lruTail = x) || decide ((s.part p).lruHead = x) ||
    decide ((s.links x).lruNext ≠ g.collisionEntries) || decide ((s.links x).lruPrev ≠ g.collisionEntries)

/-- `cleaning_policy_alru_init_cache_block`. -/
def cleaningPolicyAlruInitCacheBlock (s : State) (x : Nat) : State :=
  { s with links := update s.links x ⟨g.collisionEntries, g.collisionEntries⟩ }

/-- `cleaning_policy_alru_purge_cache_block`. -/
def cleaningPolicyAlruPurgeCacheBlock (s : State) (x : Nat) : Option State :=
  removeAlruList g s (s.md.partitionId x) x

/-- `__cleaning_policy_alru_purge_cache_block_any`. -/
def purgeCacheBlockAny (s : State) (x : Nat) : Option State :=
  if isOnAlruList g s (s.md.partitionId x) x then removeAlruList g s (s.md.partitionId x) x else some s

/-- `cleaning_policy_alru_set_hot_cache_line`. -/
def cleaningPolicyAlruSetHotCacheLine (s : State) (x : Nat) : Option State :=
  let p := s.md.partitionId x
  (if (s.links x).lruNext ≠ g.collisionEntries ∨ (s.links x).lruPrev ≠ g.collisionEntries ∨
      (s.part p).lruHead = x ∧ (s.part p).lruTail = x then removeAlruList g s p x else some s).bind fun s =>
    addAlruHead g s p x

/-- Ends of the lists that the shards build, `struct ocf_alru_fill_context`. -/
abbrev Shards := Nat → Nat → Nat × Nat

/-- `add_alru_head_populate`. -/
def addAlruHeadPopulate (st : State × Shards) (shard p x : Nat) : State × Shards :=
  let terminator := g.collisionEntries
  let head := (st.2 shard p).1
  if head = terminator then
    ({ st.1 with links := update st.1.links x ⟨terminator, terminator⟩ },
      update st.2 shard (update (st.2 shard) p (x, x)))
  else
    ({ st.1 with links := setPrev (update st.1.links x ⟨terminator, head⟩) head x },
      update st.2 shard (update (st.2 shard) p (x, (st.2 shard p).2)))

/-- The body of `ocf_alru_populate_handle` for one line, with the numbers of
lines that the shard has added. -/
def populateLine (shard : Nat) (st : (State × Shards) × (Nat → Nat)) (x : Nat) : (State × Shards) × (Nat → Nat) :=
  let s := st.1.1
  if (s.md.coreInfo x).1 = ocfCoreNum then st
  else if metadataTestDirty g s.md x = false then ((cleaningPolicyAlruInitCacheBlock g s x, st.1.2), st.2)
  else
    let p := s.md.partitionId x
    (addAlruHeadPopulate g st.1 shard p x, update st.2 p (st.2 p + 1))

/-- Lines of a shard. -/
def shardLines (entries shards shard : Nat) : List Nat :=
  let portion := (entries + (shards - 1)) / shards
  List.range' (portion * shard) (min (portion * (shard + 1)) entries - portion * shard)

/-- The lists of a shard start empty. -/
def resetShard (shards : Shards) (shard : Nat) : Shards :=
  update shards shard fun _ => (g.collisionEntries, g.collisionEntries)

/-- The sizes of all partitions grow. -/
def addSizes (s : State) (count : Nat → Nat) : State :=
  forRange ocfUserIoClassMax (fun s p =>
    { s with part := update s.part p { s.part p with size := (s.part p).size + count p } }) s

/-- `ocf_alru_populate_handle`. -/
def ocfAlruPopulateHandle (st : State × Shards) (shard : Nat) : State × Shards :=
  let r := (shardLines g.collisionEntries ocfAlruFillShardsCnt shard).foldl (populateLine g shard)
    ((st.1, resetShard g st.2 shard), fun _ => 0)
  (addSizes r.1.1 r.2, r.1.2)

/-- `ocf_alru_prepopulate_handle`. -/
def ocfAlruPrepopulateHandle (st : State × Shards) (shard : Nat) : State × Shards :=
  ((shardLines g.collisionEntries ocfAlruFillShardsCnt shard).foldl (cleaningPolicyAlruInitCacheBlock g) st.1,
    resetShard g st.2 shard)

/-- `ocf_alru_fill_finish` without an error. -/
def ocfAlruFillFinish (st : State × Shards) : Option State :=
  (List.range ocfUserIoClassMax).foldlM (fun s p =>
    (List.range ocfAlruFillShardsCnt).foldlM (fun s shard =>
      appendAlruHead g s p (st.2 shard p).1 (st.2 shard p).2) s) st.1

/-- The lists of all partitions are made empty. -/
def resetParts (s : State) : State :=
  forRange ocfUserIoClassMax (fun s p =>
    { s with part := update s.part p ⟨0, g.collisionEntries, g.collisionEntries⟩ }) s

/-- `cleaning_policy_alru_fill` when its allocation succeeds. -/
def cleaningPolicyAlruFill (handle : State × Shards → Nat → State × Shards) (s : State) : Option State :=
  ocfAlruFillFinish g
    (forRange ocfAlruFillShardsCnt handle (resetParts g s, fun _ _ => (0, 0)))

/-- `cleaning_policy_alru_populate` with `reconstruct`. -/
def cleaningPolicyAlruPopulate (s : State) : Option State := cleaningPolicyAlruFill g (ocfAlruPopulateHandle g) s

/-- `cleaning_policy_alru_prepopulate`. -/
def cleaningPolicyAlruPrepopulate (s : State) : Option State :=
  cleaningPolicyAlruFill g (ocfAlruPrepopulateHandle g) s

/-- `cleaning_policy_alru_update`: the walk of `ocf_alru_update_handle` over the
hash buckets, shard after shard. -/
def cleaningPolicyAlruUpdate (s : State) : Option State :=
  (List.range g.hashEntries).foldlM (fun s hash =>
    (s.md.hash hash).foldlM (fun s x =>
      if metadataTestDirty g s.md x then cleaningPolicyAlruSetHotCacheLine g s x else some s) s) s

/-- `ocf_map_cache_line`, with the partition that the line was given. -/
def ocfMapCacheLine (s : State) (core coreLine x p : Nat) : State :=
  let md := ocfMetadataAddToCollision s.md core coreLine (ocfMetadataHashFunc g coreLine core) x
  cleaningPolicyAlruInitCacheBlock g
    { s with md := { md with partitionId := update md.partitionId x p } } x

/-- `set_cache_line_dirty`. -/
def setCacheLineDirty (s : State) (start stop x : Nat) : Option State :=
  if s.md.partitionId x > ocfUserIoClassMax then none
  else cleaningPolicyAlruSetHotCacheLine g
    { s with md := setDirtyBits s.md x (setRange (s.md.dirty x) start stop) } x

/-- `set_cache_line_clean`. -/
def setCacheLineClean (s : State) (start stop x : Nat) : Option State :=
  let md := setDirtyBits s.md x (clearRange (s.md.dirty x) start stop)
  if s.md.partitionId x > ocfUserIoClassMax then none
  else if metadataTestDirtySec s.md x start stop = true ∧ metadataTestDirty g md x = false then
    cleaningPolicyAlruPurgeCacheBlock g { s with md } x
  else some { s with md }

/-- `ocf_user_part_move` for one line of a request. -/
def ocfUserPartMove (s : State) (x new : Nat) : Option State :=
  let old := s.md.partitionId x
  if old ≥ ocfUserIoClassMax ∨ new ≥ ocfUserIoClassMax then none
  else if old = new then some s
  else
    (if metadataTestDirty g s.md x then cleaningPolicyAlruPurgeCacheBlock g s x else some s).bind fun s =>
      let s := { s with md := { s.md with partitionId := update s.md.partitionId x new } }
      if metadataTestDirty g s.md x then cleaningPolicyAlruSetHotCacheLine g s x else some s

/-- `ocf_metadata_sparse_cache_line`. -/
def ocfMetadataSparseCacheLine (waiters : Nat → Bool) (s : State) (x : Nat) : State :=
  let md := setCacheLineInvalid g waiters s.md 0 g.endBlock x
  { s with md := setDirtyBits md x (clearRange (md.dirty x) 0 g.endBlock) }

/-- The lines of a core, or of all cores, that a range has. -/
def isCacheLineActing (md : LineTable) (core startLine endLine x : Nat) : Bool :=
  if core ≠ ocfCoreNum then
    decide ((md.coreInfo x).1 = core ∧ startLine ≤ (md.coreInfo x).2 ∧ (md.coreInfo x).2 ≤ endLine)
  else decide ((md.coreInfo x).1 ≠ ocfCoreNum)

/-- `cleaning_policy_alru_purge_range`: `visit` has the lines of the eviction
lists of each partition in the order of `ocf_metadata_actor`, `used` the lines
that are locked. -/
def cleaningPolicyAlruPurgeRange (visit : Nat → List Nat) (used : Nat → Bool) (core startLine endLine : Nat)
    (s : State) : Option State :=
  (List.range ocfUserIoClassMax).foldlM (fun s p =>
    if (s.part p).size = 0 then some s
    else (visit p).foldlM (fun s x =>
      if isCacheLineActing s.md core startLine endLine x && !used x then purgeCacheBlockAny g s x else some s) s) s

/-- `ocf_metadata_sparse_range`; lines that are not used have no waiters. -/
def ocfMetadataSparseRange (used : Nat → Bool) (core startLine endLine : Nat) (s : State) : State :=
  forRange g.collisionEntries (fun s x =>
    if isCacheLineActing s.md core startLine endLine x && !used x then
      ocfMetadataSparseCacheLine g (fun _ => false) s x else s) s

end Code

end OcfCache.Alru
