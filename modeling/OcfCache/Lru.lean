import OcfCache.CacheLine
import OcfCache.Partitions

/-!
# The LRU eviction policy

Embedding of `ocf_lru.c`. Every partition has 32 lists, and user partitions
have one more set of them for dirty lines. An operation that hits a failed
`ENV_BUG_ON` has the result `none`. The list locks are left out: each operation
works under the lock of the one list index it uses.
-/

namespace OcfCache.Lru

open Function Metadata Requests LruList Partitions CacheLine

/-- `OCF_NUM_LRU_LISTS`. -/
def ocfNumLruLists : Nat := 32

/-- `OCF_LRU_CHUNK_SIZE`. -/
def ocfLruChunkSize : Nat := 256

/-- `OCF_LRU_MAX_LRU_ELEMENT_IDX`. -/
def ocfLruMaxLruElementIdx : Nat := 256

/-- `OCF_LRU_GET_LIST_INDEX`. -/
def ocfLruGetListIndex (cline : Nat) : Nat := cline / ocfLruChunkSize % ocfNumLruLists

/-- `ocf_lru_get_list`. -/
def ocfLruGetList (part : Part) (idx : Nat) (clean : Bool) : ListKey :=
  if part.id = partitionFreelist then ⟨part, idx, true⟩ else ⟨part, idx, clean⟩

/-- Apply an operation to one list. -/
def withList (c : Cache) (key : ListKey) (op : Nodes → LruHead → Option (Nodes × LruHead)) :
    Option Cache :=
  (op c.lruNodes (c.lruLists key)).map fun r =>
    { c with lruNodes := r.1, lruLists := update c.lruLists key r.2 }

/-- `ocf_lru_init`. -/
def ocfLruInit (c : Cache) (part : Part) : Cache :=
  { c with
    lruLists := fun key =>
      if key.part = part ∧ key.idx < ocfNumLruLists then
        if part.id = partitionFreelist then
          if key.clean then lruInit false else c.lruLists key
        else lruInit true
      else c.lruLists key
    currSize := update c.currSize part 0
    evictCounter := match part with
      | .user id => update c.evictCounter id 0
      | _ => c.evictCounter }

/-- `lru_get_cline_list`. -/
def lruGetClineList (g : Geometry) (c : Cache) (cline : Nat) : Option ListKey :=
  if ocfUserIoClassMax < c.md.partitionId cline then none
  else some (ocfLruGetList (.user (c.md.partitionId cline)) (ocfLruGetListIndex cline)
    (!metadataTestDirty g c.md cline))

/-- `ocf_lru_add`. -/
def ocfLruAdd (g : Geometry) (c : Cache) (cline : Nat) : Option Cache :=
  (lruGetClineList g c cline).bind fun key =>
    withList c key fun nodes l => addLruHead nodes l cline

/-- `ocf_lru_add_free`. -/
def ocfLruAddFree (c : Cache) (cline : Nat) : Option Cache :=
  withList c (ocfLruGetList .free (ocfLruGetListIndex cline) true)
    fun nodes l => addLruHeadNobalance nodes l cline

/-- `ocf_lru_move`. -/
def ocfLruMove (c : Cache) (cline : Nat) (src dst : ListKey) : Option Cache :=
  (withList c src fun nodes l => ocfLruRemoveLocked nodes l cline).bind fun c =>
    withList c dst fun nodes l => addLruHead nodes l cline

/-- `ocf_lru_repart_locked`. -/
def ocfLruRepartLocked (g : Geometry) (c : Cache) (cline : Nat) (src dst : Part) : Option Cache :=
  let clean := !metadataTestDirty g c.md cline
  (ocfLruMove c cline (ocfLruGetList src (ocfLruGetListIndex cline) clean)
    (ocfLruGetList dst (ocfLruGetListIndex cline) clean)).map fun c => c.moveSize cline src dst

/-- `ocf_lru_repart`. -/
def ocfLruRepart (g : Geometry) (c : Cache) (cline : Nat) (src dst : Part) : Option Cache :=
  ocfLruRepartLocked g c cline src dst

/-- `ocf_lru_detach`. -/
def ocfLruDetach (g : Geometry) (c : Cache) (part : Part) (cline : Nat) : Option Cache :=
  ocfLruRepart g c cline part .freeDetached

/-- `ocf_lru_reattach`. -/
def ocfLruReattach (g : Geometry) (c : Cache) (cline : Nat) : Option Cache :=
  ocfLruRepart g c cline .freeDetached .free

/-- `ocf_lru_rm_cline`. -/
def ocfLruRmCline (g : Geometry) (c : Cache) (cline : Nat) : Option Cache :=
  ocfLruRepart g c cline (.user (c.md.partitionId cline)) .free

/-- `ocf_lru_hot_cline`. -/
def ocfLruHotCline (g : Geometry) (c : Cache) (cline : Nat) : Option Cache :=
  let node := c.lruNodes cline
  let key := ocfLruGetList (.user (c.md.partitionId cline)) (ocfLruGetListIndex cline)
    (!metadataTestDirty g c.md cline)
  if node.hot then some c
  else if node.next = none ∧ (c.lruLists key).tail ≠ some cline then none
  else if node.prev = none ∧ (c.lruLists key).head ≠ some cline then none
  else withList c key fun nodes l => ocfLruSetHot nodes l cline

/-- `ocf_lru_clean_cline`. -/
def ocfLruCleanCline (c : Cache) (part : Part) (cline : Nat) : Option Cache :=
  ocfLruMove c cline (ocfLruGetList part (ocfLruGetListIndex cline) false)
    (ocfLruGetList part (ocfLruGetListIndex cline) true)

/-- `ocf_lru_dirty_cline`. -/
def ocfLruDirtyCline (c : Cache) (part : Part) (cline : Nat) : Option Cache :=
  ocfLruMove c cline (ocfLruGetList part (ocfLruGetListIndex cline) true)
    (ocfLruGetList part (ocfLruGetListIndex cline) false)

/-- The dirty bits and the lists in `set_cache_line_clean`. -/
def lruSetCacheLineClean (g : Geometry) (c : Cache) (start stop line : Nat) : Option Cache :=
  let partId := c.md.partitionId line
  let md := setDirtyBits c.md line (clearRange (c.md.dirty line) start stop)
  if ocfUserIoClassMax < partId then none
  else if metadataTestDirtySec c.md line start stop && !metadataTestDirty g md line then
    ocfLruCleanCline { c with md := md } (.user partId) line
  else some { c with md := md }

/-- The dirty bits and the lists in `set_cache_line_dirty`. -/
def lruSetCacheLineDirty (g : Geometry) (c : Cache) (start stop line : Nat) : Option Cache :=
  let partId := c.md.partitionId line
  let md := setDirtyBits c.md line (setRange (c.md.dirty line) start stop)
  if ocfUserIoClassMax < partId then none
  else if !metadataTestDirtyAllSec c.md line start stop && !metadataTestDirty g c.md line then
    ocfLruDirtyCline { c with md := md } (.user partId) line
  else some { c with md := md }

/-- `lru_iter_init`. -/
def lruIterInit (start : Nat) : Iter :=
  { lruIdx := (start + ocfNumLruLists - 1) % ocfNumLruLists
    lruElementIdx := 0
    avail := fun _ => true
    numAvailLrus := ocfNumLruLists
    currentShard := start }

/-- `_lru_iter_advance_list`: the next available list, or no change. -/
def lruIterAdvanceList (it : Iter) : Iter :=
  match (List.range ocfNumLruLists).find?
      fun k => it.avail ((it.lruIdx + (k + 1)) % ocfNumLruLists) with
  | some k => { it with lruIdx := (it.lruIdx + (k + 1)) % ocfNumLruLists }
  | none => it

/-- `lru_iter_advance`. -/
def lruIterAdvance (it : Iter) : Iter :=
  let it := { it with lruElementIdx := it.lruElementIdx + 1 }
  if ocfLruMaxLruElementIdx ≤ it.lruElementIdx ∨ it.avail it.lruIdx = false then
    { lruIterAdvanceList it with lruElementIdx := 0 }
  else it

/-- `_lru_lru_set_empty`, for a list that is still available. -/
def lruSetEmpty (it : Iter) : Iter :=
  if it.avail it.lruIdx then
    { it with
      avail := update it.avail it.lruIdx false
      numAvailLrus := it.numAvailLrus - 1 }
  else it

/-- The checks of `lru_req_next_cline`. -/
def lruTakesSuccessor (g : Geometry) (c : Cache) (req : Request) (cline : Nat) : Bool :=
  c.md.partitionId cline != partitionFreelist &&
    (c.config (c.md.partitionId cline)).eviction && !c.lineLocked cline &&
    !inRequestRange g c req cline && !(c.lruNodes cline).hot &&
    !metadataTestDirty g c.md cline &&
    !c.hashLocked (c.md.coreInfo cline).1 (c.md.coreInfo cline).2

/-- `lru_req_next_cline` for a line that passes its checks. -/
def lruReqNextCline (g : Geometry) (c : Cache) (cline : Nat) (dst : Part) : Option Cache :=
  let srcPartId := c.md.partitionId cline
  (if dst.id ≠ srcPartId then ocfLruRepartLocked g c cline (.user srcPartId) dst
    else (lruGetClineList g c cline).bind fun key =>
      withList c key fun nodes l => ocfLruSetHot nodes l cline).map fun c => lockLine c cline

/-- The loop of `lru_iter_eviction_next` and `lru_iter_free_next`: the line
found on the next list, and the iterator. -/
def lruIterNext (c : Cache) (part : Part) (lock : Nat → Bool) : Nat → Iter → Option Nat × Iter
  | 0, it => (none, it)
  | fuel + 1, it =>
    let it := lruIterAdvance it
    let l := c.lruLists (ocfLruGetList part it.lruIdx true)
    match scanTail (fun x => (c.lruNodes x).prev) lock l.numNodes l.tail with
    | some x => (some x, it)
    | none =>
      let it := lruSetEmpty it
      if it.numAvailLrus = 0 then (none, it) else lruIterNext c part lock fuel it

/-- `lru_iter_eviction_next`. -/
def lruIterEvictionNext (g : Geometry) (c : Cache) (req : Request) (part dst : Part) (it : Iter) :
    Option (Cache × Iter × Option Nat) :=
  match lruIterNext c part (evictionLock g c req) (it.numAvailLrus + 1) it with
  | (none, it) => some (c, it, none)
  | (some x, it) =>
    (if dst ≠ part then ocfLruRepartLocked g c x part dst
      else withList c (ocfLruGetList part it.lruIdx true)
        fun nodes l => ocfLruSetHot nodes l x).map fun c => (lockLine c x, it, some x)

/-- `lru_iter_free_next`. -/
def lruIterFreeNext (g : Geometry) (c : Cache) (dst : Part) (it : Iter) :
    Option (Cache × Iter × Option Nat) :=
  match lruIterNext c .free (fun x => !c.lineLocked x) (it.numAvailLrus + 1) it with
  | (none, it) => some (c, it, none)
  | (some x, it) => (ocfLruRepartLocked g c x .free dst).map fun c => (lockLine c x, it, some x)

end OcfCache.Lru
