import OcfCache.CacheLine
import OcfCache.Partitions

/-!
# The LFU eviction policy

Embedding of `ocf_lfu.c`. Every partition has 32 shards of 16 frequency
buckets, each with a list of clean and a list of dirty lines. An operation that
hits a failed `ENV_BUG_ON` has the result `none`. The shard locks are left out:
each operation works under the lock of the one shard it uses.
-/

namespace OcfCache.Lfu

open Function Metadata Requests CacheLine Partitions

/-- `LFU_MAX_FREQ`. -/
def lfuMaxFreq : Nat := 16

/-- `LFU_NUM_SHARDS`. -/
def lfuNumShards : Nat := 32

/-- `LFU_CHUNK_SIZE`. -/
def lfuChunkSize : Nat := 256

/-- Largest value of `ocf_lfu_hits_t`. -/
def lfuHitsMax : Nat := 2 ^ 16 - 1

/-- `OCF_LFU_GET_SHARD_INDEX`. -/
def ocfLfuGetShardIndex (cline : Nat) : Nat := cline / lfuChunkSize % lfuNumShards

/-- `ocf_lfu_get_list`. -/
def ocfLfuGetList (part : Part) (shard freq : Nat) (clean : Bool) : LfuKey :=
  if part.id = partitionFreelist then ⟨part, shard, freq, true⟩ else ⟨part, shard, freq, clean⟩

/-- `ocf_lfu_increment_hits`. -/
def ocfLfuIncrementHits (hits : Nat) : Nat := if hits = lfuHitsMax then lfuHitsMax else hits + 1

/-- `ocf_lfu_hits_to_freq`: the number of halvings, capped. -/
def ocfLfuHitsToFreq (hits : Nat) : Nat := min (Nat.log2 hits) (lfuMaxFreq - 1)

/-- `lfu_get_cline_part`. -/
def lfuGetClinePart (c : Cache) (cline : Nat) : Part :=
  if c.md.partitionId cline = partitionFreelist then .free else .user (c.md.partitionId cline)

/-- Update one node. -/
def setLfuNode (c : Cache) (x : Nat) (f : LfuMeta → LfuMeta) : Cache :=
  { c with lfuNodes := update c.lfuNodes x (f (c.lfuNodes x)) }

/-- Update a node if there is one. -/
def setLfuNode? (c : Cache) (x : Option Nat) (f : LfuMeta → LfuMeta) : Cache :=
  match x with
  | none => c
  | some x => setLfuNode c x f

/-- Update one list. -/
def setLfuList (c : Cache) (key : LfuKey) (l : LfuHead) : Cache :=
  { c with lfuLists := update c.lfuLists key l }

/-- `add_to_list`. -/
def addToList (c : Cache) (key : LfuKey) (cline : Nat) : Cache :=
  let l := c.lfuLists key
  let c := setLfuNode c cline fun m => { m with prev := none, next := l.head }
  let c := setLfuNode? c l.head fun m => { m with prev := some cline }
  setLfuList c key
    { head := some cline
      tail := if l.tail = none then some cline else l.tail
      numNodes := l.numNodes + 1 }

/-- `remove_from_list`. -/
def removeFromList (c : Cache) (key : LfuKey) (cline : Nat) : Option Cache :=
  let l := c.lfuLists key
  let node := c.lfuNodes cline
  let prevOk := match node.prev with
    | none => l.head == some cline
    | some p => (c.lfuNodes p).next == some cline
  let nextOk := match node.next with
    | none => l.tail == some cline
    | some n => (c.lfuNodes n).prev == some cline
  if l.numNodes = 0 ∨ prevOk = false ∨ nextOk = false then none
  else
    let c := setLfuNode? c node.prev fun m => { m with next := node.next }
    let c := setLfuNode? c node.next fun m => { m with prev := node.prev }
    let c := setLfuNode c cline fun m => { m with prev := none, next := none }
    some (setLfuList c key
      { head := if node.prev = none then node.next else l.head
        tail := if node.next = none then node.prev else l.tail
        numNodes := l.numNodes - 1 })

/-- `add_to_freq_bucket`. -/
def addToFreqBucket (c : Cache) (freq cline : Nat) (clean : Bool) : Cache :=
  addToList c (ocfLfuGetList (lfuGetClinePart c cline) (ocfLfuGetShardIndex cline) freq clean) cline

/-- `ocf_lfu_remove`. -/
def ocfLfuRemove (c : Cache) (cline : Nat) : Option Cache :=
  let node := c.lfuNodes cline
  removeFromList c (ocfLfuGetList (lfuGetClinePart c cline) (ocfLfuGetShardIndex cline) node.freq
    node.clean) cline

/-- `ocf_lfu_add`. -/
def ocfLfuAdd (g : Geometry) (c : Cache) (cline : Nat) : Cache :=
  let clean := !metadataTestDirty g c.md cline
  let c := setLfuNode c cline fun m => { m with hits := 1, freq := 0, clean := clean }
  addToFreqBucket c 0 cline clean

/-- `ocf_lfu_repart_locked`. -/
def ocfLfuRepartLocked (c : Cache) (cline : Nat) (src dst : Part) : Option Cache :=
  let node := c.lfuNodes cline
  let shard := ocfLfuGetShardIndex cline
  let srcList := c.lfuLists (ocfLfuGetList src shard node.freq node.clean)
  if src = dst ∨ srcList.numNodes = 0 ∨
      decide (srcList.head = none) ≠ decide (srcList.tail = none) then none
  else (removeFromList c (ocfLfuGetList src shard node.freq node.clean) cline).map fun c =>
    (addToList c (ocfLfuGetList dst shard node.freq node.clean) cline).moveSize cline src dst

/-- `ocf_lfu_rm_cline`. -/
def ocfLfuRmCline (c : Cache) (cline : Nat) : Option Cache :=
  if lfuGetClinePart c cline ≠ .user (c.md.partitionId cline) then none
  else ocfLfuRepartLocked c cline (.user (c.md.partitionId cline)) .free

/-- Move a line to the lowest bucket of another partition. -/
def lfuRepartReset (g : Geometry) (c : Cache) (cline : Nat) (src dst : Part) : Option Cache :=
  (ocfLfuRepartLocked c cline src dst).bind fun c =>
    (ocfLfuRemove c cline).map fun c => ocfLfuAdd g c cline

/-- The first line of a shard that can be locked, from the lowest bucket on. -/
def lfuFindLine (c : Cache) (part : Part) (lock : Nat → Bool) (shard : Nat) : Option Nat :=
  (List.range lfuMaxFreq).findSome? fun f =>
    let l := c.lfuLists (ocfLfuGetList part shard f true)
    scanTail (fun x => (c.lfuNodes x).prev) lock l.numNodes l.tail

/-- The loop over the shards of `lfu_iter_eviction_next` and
`lfu_iter_free_next`. -/
def lfuIterNext (c : Cache) (part : Part) (lock : Nat → Bool) : Nat → Iter → Option Nat × Iter
  | 0, it => (none, it)
  | fuel + 1, it =>
    let it := { it with currentShard := (it.currentShard + 1) % lfuNumShards }
    match lfuFindLine c part lock it.currentShard with
    | some x => (some x, it)
    | none => lfuIterNext c part lock fuel it

/-- `lfu_iter_eviction_next`. -/
def lfuIterEvictionNext (g : Geometry) (c : Cache) (req : Request) (part dst : Part) (it : Iter) :
    Option (Cache × Iter × Option Nat) :=
  match lfuIterNext c part (evictionLock g c req) lfuNumShards it with
  | (none, it) => some (c, it, none)
  | (some x, it) =>
    (if dst ≠ part then lfuRepartReset g c x part dst else some c).map
      fun c => (lockLine c x, it, some x)

/-- `lfu_iter_free_next`. -/
def lfuIterFreeNext (g : Geometry) (c : Cache) (dst : Part) (it : Iter) :
    Option (Cache × Iter × Option Nat) :=
  match lfuIterNext c .free (fun x => !c.lineLocked x) lfuNumShards it with
  | (none, it) => some (c, it, none)
  | (some x, it) => (lfuRepartReset g c x .free dst).map fun c => (lockLine c x, it, some x)

/-- The checks of `lfu_req_next_cline`. -/
def lfuTakesSuccessor (g : Geometry) (c : Cache) (req : Request) (cline : Nat) : Bool :=
  let node := c.lfuNodes cline
  let partId := c.md.partitionId cline
  partId != partitionFreelist && (c.config partId).eviction && !c.lineLocked cline &&
    !inRequestRange g c req cline && !metadataTestDirty g c.md cline && node.clean &&
    (List.range node.freq).all (fun f => (c.lfuLists (ocfLfuGetList (.user partId)
      (ocfLfuGetShardIndex cline) f node.clean)).numNodes == 0) &&
    !c.hashLocked (c.md.coreInfo cline).1 (c.md.coreInfo cline).2

/-- `lfu_req_next_cline` for a line that passes its checks. -/
def lfuReqNextCline (g : Geometry) (c : Cache) (cline : Nat) (dst : Part) : Option Cache :=
  let srcPartId := c.md.partitionId cline
  (if dst.id ≠ srcPartId then lfuRepartReset g c cline (.user srcPartId) dst
    else (ocfLfuRemove c cline).map fun c =>
      let hits := ocfLfuIncrementHits (c.lfuNodes cline).hits
      let freq := ocfLfuHitsToFreq hits
      let c := setLfuNode c cline fun m => { m with hits := hits, freq := freq }
      addToFreqBucket c freq cline (c.lfuNodes cline).clean).map fun c => lockLine c cline

/-- `_lfu_init`. -/
def lfuInit : LfuHead := ⟨none, none, 0⟩

/-- `ocf_lfu_init`. -/
def ocfLfuInit (c : Cache) (part : Part) : Cache :=
  { c with
    lfuLists := fun key =>
      if key.part = part ∧ key.shard < lfuNumShards ∧ key.freq < lfuMaxFreq ∧
          (part.id = partitionFreelist → key.clean = true) then lfuInit
      else c.lfuLists key
    currSize := update c.currSize part 0
    evictCounter := match part with
      | .user id => update c.evictCounter id 0
      | _ => c.evictCounter }

/-- `ocf_lfu_init_cline`. -/
def ocfLfuInitCline (c : Cache) (cline : Nat) : Cache :=
  setLfuNode c cline fun _ => ⟨none, none, true, 0, 0⟩

/-- `ocf_lfu_increment`. -/
def ocfLfuIncrement (c : Cache) (cline : Nat) : Option Cache :=
  let node := c.lfuNodes cline
  let hits := ocfLfuIncrementHits node.hits
  let freq := ocfLfuHitsToFreq hits
  if freq = node.freq then some (setLfuNode c cline fun m => { m with hits := hits })
  else (ocfLfuRemove c cline).map fun c =>
    addToFreqBucket (setLfuNode c cline fun m => { m with hits := hits, freq := freq }) freq cline
      node.clean

/-- `ocf_lfu_repart`, which checks the partition of the line again. -/
def ocfLfuRepart (c : Cache) (cline : Nat) (src dst : Part) : Option Cache :=
  if lfuGetClinePart c cline ≠ src then none else ocfLfuRepartLocked c cline src dst

/-- `ocf_lfu_detach`. -/
def ocfLfuDetach (c : Cache) (part : Part) (cline : Nat) : Option Cache :=
  ocfLfuRepart c cline part .freeDetached

/-- `ocf_lfu_reattach`. -/
def ocfLfuReattach (c : Cache) (cline : Nat) : Option Cache :=
  ocfLfuRepart c cline .freeDetached .free

/-- `ocf_lfu_clean_cline` and `ocf_lfu_dirty_cline`. -/
def lfuMoveCline (c : Cache) (cline : Nat) (clean : Bool) : Option Cache :=
  (ocfLfuRemove c cline).map fun c =>
    addToFreqBucket (setLfuNode c cline fun m => { m with clean := clean }) (c.lfuNodes cline).freq
      cline clean

/-- `ocf_lfu_clean_cline`. -/
def ocfLfuCleanCline (c : Cache) (cline : Nat) : Option Cache := lfuMoveCline c cline true

/-- `ocf_lfu_dirty_cline`. -/
def ocfLfuDirtyCline (c : Cache) (cline : Nat) : Option Cache := lfuMoveCline c cline false

/-- The dirty bits and the lists in `set_cache_line_clean`. -/
def lfuSetCacheLineClean (g : Geometry) (c : Cache) (start stop line : Nat) : Option Cache :=
  let md := setDirtyBits c.md line (clearRange (c.md.dirty line) start stop)
  if ocfUserIoClassMax < c.md.partitionId line then none
  else if metadataTestDirtySec c.md line start stop && !metadataTestDirty g md line then
    ocfLfuCleanCline { c with md := md } line
  else some { c with md := md }

/-- The dirty bits and the lists in `set_cache_line_dirty`. -/
def lfuSetCacheLineDirty (g : Geometry) (c : Cache) (start stop line : Nat) : Option Cache :=
  let md := setDirtyBits c.md line (setRange (c.md.dirty line) start stop)
  if ocfUserIoClassMax < c.md.partitionId line then none
  else if !metadataTestDirtyAllSec c.md line start stop && !metadataTestDirty g c.md line then
    ocfLfuDirtyCline { c with md := md } line
  else some { c with md := md }

end OcfCache.Lfu
