import OcfCache.Loops
import OcfCache.Metadata

/-!
# Chunks and buckets of the ACP cleaning policy

ACP divides every core into chunks of `ACP_CHUNK_SIZE` bytes, counts the dirty
lines of each chunk and keeps the chunks on the lists of eleven buckets by
that count. The module has the functions of `acp.c` that change the counts,
the flags of the lines and the lists. A chunk is named by its core and its
index, a `list_head` is the list of chunks it links, and a read through a
missing chunk is an abort, as is every `ENV_BUG_ON`. The choice of the chunk
that is cleaned next is not modelled, so neither is its time stamp.
-/

namespace OcfCache.Acp

open Function Metadata Loops

/-- `ACP_CHUNK_SIZE`. -/
def acpChunkSize : Nat := 100 * 2 ^ 20

/-- `ACP_MAX_BUCKETS`. -/
def acpMaxBuckets : Nat := 11

/-- `ACP_BUCKET_DEFAULTS`. -/
def acpBucketDefaults : List Nat := [0, 10, 20, 30, 40, 50, 60, 70, 80, 90, 100]

/-- `OCF_ACP_POPULATE_SHARDS_CNT`. -/
def populateShardsCnt : Nat := 32

/-- Values of `ocf_cache_line_size_t` that a cache can have. -/
def cacheLineSizes : List Nat := [4096, 8192, 16384, 32768, 65536]

/-- Constants of a cache instance. -/
structure Config where
  /-- Sizes of the metadata tables. -/
  geometry : Geometry
  /-- `ocf_line_size`. -/
  lineSize : Nat
  /-- The line size is one of the supported ones. -/
  lineSize_valid : lineSize ∈ cacheLineSizes

/-- `struct acp_chunk_info`, without the links and the names. -/
structure ChunkInfo where
  /-- Dirty lines of the chunk, 16 bits. -/
  numDirty : Nat
  /-- Bucket whose list the chunk is on. -/
  bucketId : Nat
  deriving DecidableEq

/-- Core and index of a chunk. -/
abbrev ChunkKey := Nat × Nat

/-- `struct acp_state`. -/
structure CleaningState where
  /-- Chunk that is being cleaned. -/
  chunk : Option ChunkKey
  /-- Next line of the chunk. -/
  iter : Nat
  /-- Lines of the chunk remain. -/
  inProgress : Bool

/-- `struct acp_context`. -/
structure AcpContext where
  /-- Chunks of a core. -/
  numChunks : Nat → Nat
  /-- The chunk table of a core is not `NULL`. -/
  allocated : Nat → Bool
  /-- Contents of the chunk tables. -/
  chunkInfo : ChunkKey → ChunkInfo
  /-- Chunk list of a bucket. -/
  chunkList : Nat → List ChunkKey
  /-- Upper threshold of a bucket, in lines. -/
  threshold : Nat → Nat
  /-- Chunks of all cores. -/
  chunksTotal : Nat
  /-- Cleaning in progress. -/
  state : CleaningState

/-- The cache as the policy sees it. -/
structure State where
  /-- Mapping and status bits of the lines. -/
  md : LineTable
  /-- Flag `dirty` of the policy's metadata of a line. -/
  acpDirty : Nat → Bool
  /-- `core->added`. -/
  added : Nat → Bool
  /-- Length of a core in bytes. -/
  length : Nat → Nat
  /-- Context of the policy. -/
  acp : AcpContext

/-- A chunk read through its table. -/
def AcpContext.chunk (acp : AcpContext) (key : ChunkKey) : Option ChunkInfo :=
  if acp.allocated key.1 = true ∧ key.2 < acp.numChunks key.1 then some (acp.chunkInfo key) else none

/-- Overwrite a chunk. -/
def AcpContext.setChunk (acp : AcpContext) (key : ChunkKey) (chunk : ChunkInfo) : AcpContext :=
  { acp with chunkInfo := update acp.chunkInfo key chunk }

/-- `list_del` of a chunk. -/
def AcpContext.listDel (acp : AcpContext) (key : ChunkKey) : AcpContext :=
  { acp with chunkList := fun b => (acp.chunkList b).erase key }

/-- `list_add`. -/
def AcpContext.listAdd (acp : AcpContext) (key : ChunkKey) (b : Nat) : AcpContext :=
  { acp with chunkList := update acp.chunkList b (key :: acp.chunkList b) }

/-- `list_add_tail`. -/
def AcpContext.listAddTail (acp : AcpContext) (key : ChunkKey) (b : Nat) : AcpContext :=
  { acp with chunkList := update acp.chunkList b (acp.chunkList b ++ [key]) }

/-- `list_move`. -/
def AcpContext.listMove (acp : AcpContext) (key : ChunkKey) (b : Nat) : AcpContext :=
  (acp.listDel key).listAdd key b

/-- `list_move_tail`. -/
def AcpContext.listMoveTail (acp : AcpContext) (key : ChunkKey) (b : Nat) : AcpContext :=
  (acp.listDel key).listAddTail key b

/-- Chunk of a cache line: the address computed by `_acp_get_chunk`. The byte
address of a core line fits in 64 bits. -/
def acpGetChunk (cfg : Config) (md : LineTable) (line : Nat) : ChunkKey :=
  ((md.coreInfo line).1, (md.coreInfo line).2 * cfg.lineSize / acpChunkSize)

/-- `_acp_update_bucket`. -/
def acpUpdateBucket (acp : AcpContext) (key : ChunkKey) : Option AcpContext := do
  let chunk ← acp.chunk key
  if acp.threshold chunk.bucketId < chunk.numDirty then
    if chunk.bucketId = acpMaxBuckets - 1 then none
    else
      let acp := acp.setChunk key { chunk with bucketId := chunk.bucketId + 1 }
      some (acp.listMoveTail key (chunk.bucketId + 1))
  else if chunk.bucketId ≠ 0 ∧ chunk.numDirty ≤ acp.threshold (chunk.bucketId - 1) then
    let acp := acp.setChunk key { chunk with bucketId := chunk.bucketId - 1 }
    some (acp.listMove key (chunk.bucketId - 1))
  else some acp

/-- `cleaning_policy_acp_init_cache_block`. -/
def cleaningPolicyAcpInitCacheBlock (s : State) (line : Nat) : State :=
  { s with acpDirty := update s.acpDirty line false }

/-- Bring the flag of a line to a value and the 16-bit count of its chunk along. -/
def countFlag (flag : Bool) (count : Nat → Nat) (s : State) (line : Nat) (key : ChunkKey) (chunk : ChunkInfo) :
    State :=
  if s.acpDirty line = flag then s else
    { s with
      acpDirty := update s.acpDirty line flag
      acp := s.acp.setChunk key { chunk with numDirty := count chunk.numDirty } }

/-- The common body of `cleaning_policy_acp_set_hot_cache_line` and
`cleaning_policy_acp_purge_block`. -/
def setFlag (cfg : Config) (flag : Bool) (count : Nat → Nat) (s : State) (line : Nat) : Option State := do
  let key := acpGetChunk cfg s.md line
  let chunk ← s.acp.chunk key
  let s := countFlag flag count s line key chunk
  let acp ← acpUpdateBucket s.acp key
  some { s with acp }

/-- `cleaning_policy_acp_set_hot_cache_line`. -/
def cleaningPolicyAcpSetHotCacheLine (cfg : Config) (s : State) (line : Nat) : Option State :=
  setFlag cfg true (fun n => (n + 1) % 2 ^ 16) s line

/-- `cleaning_policy_acp_purge_block`. -/
def cleaningPolicyAcpPurgeBlock (cfg : Config) (s : State) (line : Nat) : Option State :=
  setFlag cfg false (fun n => (n + (2 ^ 16 - 1)) % 2 ^ 16) s line

/-- `_is_cache_line_acting`. -/
def isCacheLineActing (md : LineTable) (coreId startLine endLine line : Nat) : Bool :=
  if coreId ≠ ocfCoreNum then
    decide ((md.coreInfo line).1 = coreId ∧ startLine ≤ (md.coreInfo line).2 ∧
      (md.coreInfo line).2 ≤ endLine)
  else decide ((md.coreInfo line).1 ≠ ocfCoreNum)

/-- `ocf_metadata_actor` without a partition, for an actor that keeps the
mapping: the lines in use are skipped. -/
def ocfMetadataActor (cfg : Config) (used : Nat → Bool) (coreId startByte endByte : Nat)
    (actor : State → Nat → Option State) (s : State) : Option State :=
  (List.range cfg.geometry.collisionEntries).foldlM (fun s line =>
    if isCacheLineActing s.md coreId (startByte / cfg.lineSize) (endByte / cfg.lineSize) line
        && !used line then actor s line else some s) s

/-- `cleaning_policy_acp_purge_range`. -/
def cleaningPolicyAcpPurgeRange (cfg : Config) (used : Nat → Bool) (coreId startByte endByte : Nat)
    (s : State) : Option State :=
  ocfMetadataActor cfg used coreId startByte endByte (cleaningPolicyAcpPurgeBlock cfg) s

/-- The chunk table of a core is freed. -/
def AcpContext.release (acp : AcpContext) (core : Nat) : AcpContext :=
  { acp with
    chunksTotal := acp.chunksTotal - acp.numChunks core
    numChunks := update acp.numChunks core 0
    allocated := update acp.allocated core false }

/-- The cleaning state forgets a chunk of a core that goes. -/
def AcpContext.resetState (acp : AcpContext) (core : Nat) : AcpContext :=
  if acp.state.inProgress = true ∧ acp.state.chunk.map Prod.fst = some core then
    { acp with state := { chunk := none, iter := 0, inProgress := false } }
  else acp

/-- `cleaning_policy_acp_remove_core`. -/
def cleaningPolicyAcpRemoveCore (s : State) (core : Nat) : Option State :=
  if s.acp.chunksTotal < s.acp.numChunks core then none
  else if s.acp.allocated core = false then none
  else
    let acp := forRange (s.acp.numChunks core) (fun acp i => acp.listDel (core, i)) (s.acp.resetState core)
    some { s with acp := acp.release core }

/-- Chunks of a core of some length. -/
def numChunksOf (length : Nat) : Nat := (length + (acpChunkSize - 1)) / acpChunkSize

/-- A zeroed chunk table for a core. -/
def AcpContext.allocate (acp : AcpContext) (core n : Nat) : AcpContext :=
  { acp with
    allocated := update acp.allocated core true
    chunkInfo := fun key => if key.1 = core then ⟨0, 0⟩ else acp.chunkInfo key
    numChunks := update acp.numChunks core n
    chunksTotal := acp.chunksTotal + n }

/-- `cleaning_policy_acp_add_core`, with the outcome of the allocation. -/
def cleaningPolicyAcpAddCore (s : State) (core : Nat) (alloc : Bool) : Option State :=
  if s.acp.allocated core = true then none
  else if alloc = false then some s
  else
    let n := numChunksOf (s.length core)
    some { s with acp := forRange n (fun acp i => acp.listAdd (core, i) 0) (s.acp.allocate core n) }

/-- Threshold of a bucket as `cleaning_policy_acp_initialize` computes it. -/
def initialThreshold (cfg : Config) (b : Nat) : Nat :=
  acpChunkSize / cfg.lineSize * acpBucketDefaults.getD b 0 / 100

/-- The context before the cores are loaded. -/
def emptyContext (cfg : Config) : AcpContext where
  numChunks := fun _ => 0
  allocated := fun _ => false
  chunkInfo := fun _ => ⟨0, 0⟩
  chunkList := fun _ => []
  threshold := initialThreshold cfg
  chunksTotal := 0
  state := ⟨none, 0, false⟩

/-- `for_each_core`. -/
def forEachCore (added : Nat → Bool) (body : State → Nat → Option State) (s : State) : Option State :=
  (List.range ocfCoreNum).foldlM (fun s core => if added core then body s core else some s) s

/-- `cleaning_policy_acp_initialize` when every allocation succeeds; the
context it leaves otherwise is freed. -/
def cleaningPolicyAcpInitialize (cfg : Config) (s : State) : Option State :=
  forEachCore s.added (fun s core => cleaningPolicyAcpAddCore s core true)
    { s with acp := emptyContext cfg }

/-- Counters of the shards of `struct ocf_acp_populate_context`. -/
abbrev ShardCounts := Nat → ChunkKey → Nat

/-- The body of `ocf_acp_populate_handle` for one line. -/
def populateLine (cfg : Config) (shard : Nat) (st : State × ShardCounts) (line : Nat) :
    Option (State × ShardCounts) :=
  if (st.1.md.coreInfo line).1 = ocfCoreNum then some st
  else if metadataTestDirty cfg.geometry st.1.md line = false then
    some (cleaningPolicyAcpInitCacheBlock st.1 line, st.2)
  else do
    let s := { st.1 with acpDirty := update st.1.acpDirty line true }
    let key := acpGetChunk cfg s.md line
    let _ ← s.acp.chunk key
    some (s, update st.2 shard
      (update (st.2 shard) key ((st.2 shard key + 1) % 2 ^ 16)))

/-- Lines of a shard. -/
def shardLines (entries shards shard : Nat) : List Nat :=
  let portion := (entries + (shards - 1)) / shards
  List.range' (portion * shard) (min (portion * (shard + 1)) entries - portion * shard)

/-- `ocf_acp_populate_handle`. -/
def ocfAcpPopulateHandle (cfg : Config) (st : State × ShardCounts) (shard : Nat) :
    Option (State × ShardCounts) :=
  (shardLines cfg.geometry.collisionEntries populateShardsCnt shard).foldlM (populateLine cfg shard) st

/-- The bucket that `ocf_acp_populate_chunk` stops at. -/
def populateBucket (threshold : Nat → Nat) (n : Nat) : Nat :=
  ((List.range' 1 (acpMaxBuckets - 1)).find? fun b => decide (n < threshold b)).getD acpMaxBuckets - 1

/-- `ocf_acp_populate_chunk`. -/
def ocfAcpPopulateChunk (counts : ShardCounts) (s : State) (key : ChunkKey) : Option State := do
  let chunk ← s.acp.chunk key
  let n := forRange populateShardsCnt (fun n shard => (n + counts shard key) % 2 ^ 16) 0
  let b := populateBucket s.acp.threshold n
  some { s with acp := (s.acp.setChunk key { chunk with numDirty := n, bucketId := b }).listMoveTail key b }

/-- `ocf_acp_populate_finish`. -/
def ocfAcpPopulateFinish (counts : ShardCounts) (s : State) : Option State :=
  forEachCore s.added (fun s core =>
    (List.range (numChunksOf (s.length core))).foldlM
      (fun s i => ocfAcpPopulateChunk counts s (core, i)) s) s

/-- `cleaning_policy_acp_populate` when its allocations succeed: all shards,
each with counters of its own, then the finish handler. -/
def cleaningPolicyAcpPopulate (cfg : Config) (s : State) : Option State := do
  let st ← (List.range populateShardsCnt).foldlM (ocfAcpPopulateHandle cfg) (s, fun _ _ => 0)
  ocfAcpPopulateFinish st.2 st.1

/-- `cleaning_policy_acp_prepopulate`. -/
def cleaningPolicyAcpPrepopulate (cfg : Config) (s : State) : State :=
  forRange cfg.geometry.collisionEntries cleaningPolicyAcpInitCacheBlock s

/-- `cleaning_policy_acp_update`: the walk of `ocf_acp_update_handle` over the
hash buckets, shard after shard. -/
def cleaningPolicyAcpUpdate (cfg : Config) (s : State) : Option State :=
  (List.range cfg.geometry.hashEntries).foldlM (fun s hash =>
    (s.md.hash hash).foldlM (fun s line =>
      if metadataTestDirty cfg.geometry s.md line then cleaningPolicyAcpSetHotCacheLine cfg s line
      else some s) s) s

end OcfCache.Acp
