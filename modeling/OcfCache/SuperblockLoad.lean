import OcfCache.PassiveUpdate
import OcfCache.RawDynamic

/-!
# Loading the superblock

`metadata_superblock.c`: the pipelines that load the metadata of fixed size.
They back up the segments in memory, load the superblock, validate it, load the
other segments from the copies that the superblock selects, and check them. An
error restores the backups. The segment of core UUIDs is sparse and has none.
-/

namespace OcfCache.SuperblockLoad

open Function
open Option (bind_some map_some)
open List (cons_append map_cons mem_cons mem_cons_of_mem mem_cons_self)

open MetadataSize (divRoundUp)
open PassiveUpdate (RawRam Bytes)
open RawDynamic (Raw Ctrl Page Answers zeroPage)

/-- `-OCF_ERR_METADATA_VER`. -/
def metadataVer : Int := -1000007

/-- `-OCF_ERR_NO_METADATA`. -/
def noMetadata : Int := -1000008

/-- `-OCF_ERR_CRC_MISMATCH`. -/
def crcMismatch : Int := -1000011

/-- `CACHE_MAGIC_NUMBER`. -/
def cacheMagicNumber : UInt32 := 0x187E1CA6

/-- `OCF_CACHE_NAME_SIZE`. -/
def ocfCacheNameSize : Nat := 32

/-- The segments of fixed size in memory that the pipelines load. -/
inductive RamSegment
  | sbConfig
  | sbRuntime
  | partConfig
  | partRuntime
  | coreConfig
  deriving DecidableEq

/-- The segments that the pipelines load. -/
inductive Segment
  | ram (g : RamSegment)
  | coreUuid
  deriving DecidableEq

/-- `ocf_metadata_is_flapped`. -/
def Segment.flapped : Segment → Bool
  | .ram .partConfig => true
  | .ram .coreConfig => true
  | .coreUuid => true
  | _ => false

/-- The part of `struct ocf_superblock_config` that the pipelines read. -/
structure SuperblockConfig where
  /-- `clean_shutdown`. -/
  cleanShutdown : Nat
  /-- `dirty_flushed`. -/
  dirtyFlushed : Nat
  /-- `magic_number`. -/
  magicNumber : UInt32
  /-- `metadata_version`. -/
  metadataVersion : UInt32
  /-- `flapping_idx`. -/
  flappingIdx : Nat
  /-- `cache_mode`. -/
  cacheMode : Int
  /-- `name`. -/
  name : Fin ocfCacheNameSize → UInt8
  /-- `valid_parts_no`. -/
  validPartsNo : Nat
  /-- `line_size`. -/
  lineSize : Nat
  /-- `core_count`. -/
  coreCount : Nat
  /-- `valid_core_bitmap`. -/
  validCoreBitmap : Nat → Bool
  /-- `cleaner_disabled`. -/
  cleanerDisabled : Bool
  /-- `cleaning_policy_type`. -/
  cleaningPolicyType : Int
  /-- `promotion_policy_type`. -/
  promotionPolicyType : Int
  /-- `eviction_policy_type`. -/
  evictionPolicyType : Int
  /-- `checksum`. -/
  checksum : Segment → UInt32

/-- The segments, and how the structures in them are read. -/
structure Layout where
  /-- The segments in memory. -/
  raw : RamSegment → RawRam
  /-- The segment of core UUIDs. -/
  coreUuid : Raw
  /-- It has a page. -/
  coreUuid_pos : 0 < coreUuid.ssdPages
  /-- A memory pool as a `struct ocf_superblock_config`. -/
  superblock : Bytes → SuperblockConfig
  /-- Offset of `checksum`, the last field. -/
  checksumOffset : Nat
  /-- `valid` of a `struct ocf_core_meta_config` in a memory pool. -/
  coreValid : Bytes → Nat → Bool
  /-- `METADATA_VERSION`. -/
  version : UInt32
  /-- `env_crc32`. -/
  crc32 : UInt32 → List UInt8 → UInt32

/-- The segments in memory. -/
@[ext]
structure Memory where
  /-- Memory pools. -/
  pool : RamSegment → Bytes
  /-- The segment of core UUIDs. -/
  coreUuid : Ctrl

/-- What the environment answers to a load of a segment in memory. -/
structure ReadAnswer where
  /-- There is memory for the context. -/
  memory : Bool
  /-- Error of the reads. -/
  error : Int
  /-- Pages that were drained before an error. -/
  drained : List Nat

/-- What the environment answers. -/
structure Environment where
  /-- Result of `ocf_pipeline_create`. -/
  create : Int
  /-- There is memory for the backup of a segment. -/
  alloc : RamSegment → Bool
  /-- Error of the copy into a backup. -/
  copyError : RamSegment → Int
  /-- Loads of segments in memory. -/
  read : RamSegment → ReadAnswer
  /-- Load of the core UUIDs. -/
  coreUuid : Answers

/-- What a pipeline works on. -/
structure State where
  /-- The segments. -/
  memory : Memory
  /-- `segment_copy`. -/
  segmentCopy : RamSegment → Option Bytes

/-- Steps of the pipelines. -/
inductive Handler
  /-- `ocf_metadata_store_segment`. -/
  | store (g : RamSegment)
  /-- `ocf_metadata_load_segment`. -/
  | load (seg : Segment)
  /-- `_ocf_metadata_validate_superblock`. -/
  | validateSuperblock
  /-- `ocf_metadata_check_crc`. -/
  | checkCrc (seg : Segment)
  /-- `_ocf_metadata_validate_core_config`. -/
  | validateCoreConfig

/-- `ocf_metadata_load_sb_store_segment_args`. -/
def ocfMetadataLoadSbStoreSegmentArgs : List RamSegment :=
  [.sbConfig, .sbRuntime, .partConfig, .partRuntime, .coreConfig]

/-- `ocf_metadata_load_sb_load_segment_args`. -/
def ocfMetadataLoadSbLoadSegmentArgs : List Segment :=
  [.ram .sbRuntime, .ram .partConfig, .ram .partRuntime, .ram .coreConfig, .coreUuid]

/-- `ocf_metadata_load_sb_recov_load_segment_args`. -/
def ocfMetadataLoadSbRecovLoadSegmentArgs : List Segment :=
  [.ram .partConfig, .ram .coreConfig, .coreUuid]

/-- The steps of a pipeline for the segments it loads. -/
def pipelineSteps (args : List Segment) : List Handler :=
  ocfMetadataLoadSbStoreSegmentArgs.map .store ++
    [.load (.ram .sbConfig), .validateSuperblock] ++
    args.map .load ++ args.map .checkCrc ++ [.validateCoreConfig]

/-- `ocf_metadata_load_sb_pipeline_props`. -/
def ocfMetadataLoadSbPipelineProps : List Handler :=
  pipelineSteps ocfMetadataLoadSbLoadSegmentArgs

/-- `ocf_metadata_load_sb_recov_pipeline_props`. -/
def ocfMetadataLoadSbRecovPipelineProps : List Handler :=
  pipelineSteps ocfMetadataLoadSbRecovLoadSegmentArgs

/-- `env_strnlen` of a cache name. -/
def nameLen (name : Fin ocfCacheNameSize → UInt8) : Nat :=
  (List.ofFn name).findIdx (· == 0)

/-- `ocf_cache_line_size_is_valid`. -/
def ocfCacheLineSizeIsValid (size : Nat) : Bool :=
  size == 4096 || size == 8192 || size == 16384 || size == 32768 || size == 65536

variable (l : Layout) (dev : Bytes) (env : Environment)

/-- `mem_pool_limit`. -/
def memPoolLimit (g : RamSegment) : Nat := (l.raw g).ssdPages * pageSize

/-- First page on the device of a copy of a segment in memory. -/
def copyOffset (g : RamSegment) (idx : Nat) : Nat :=
  (l.raw g).ssdPagesOffset + divRoundUp (l.raw g).ssdPages 32 * 32 * idx

/-- A page of the device. -/
def devPage (p : Nat) : Page := fun i => dev (p * pageSize + i.val)

/-- The superblock in memory. -/
def Memory.superblock (m : Memory) : SuperblockConfig := l.superblock (m.pool .sbConfig)

/-- A memory pool is replaced. -/
def Memory.setPool (m : Memory) (g : RamSegment) (b : Bytes) : Memory :=
  ⟨update m.pool g b, m.coreUuid⟩

/-- `_raw_ram_drain_page` for a page of a copy of the segment. -/
def rawRamDrainPage (g : RamSegment) (idx : Nat) (pool : Bytes) (page : Nat) : Bytes :=
  let size := (l.raw g).size
  let start := (l.raw g).entrySize * (page * (l.raw g).entriesInPage)
  fun x => if start ≤ x ∧ x < start + size then
    dev ((copyOffset l g idx + page) * pageSize + (x - start)) else pool x

/-- `_raw_ram_load_all`: all pages are drained, or some of them before an error. -/
def rawRamLoadAll (g : RamSegment) (idx : Nat) (pool : Bytes) : Bytes × Int :=
  let answer := env.read g
  if answer.memory = false then (pool, errNoMem)
  else
    let pages := if answer.error = 0 then List.range (l.raw g).ssdPages
      else answer.drained.filter (· < (l.raw g).ssdPages)
    (pages.foldl (rawRamDrainPage l dev g idx) pool, answer.error)

/-- `_raw_ram_checksum`. -/
def rawRamChecksum (g : RamSegment) (pool : Bytes) : UInt32 :=
  (List.range (l.raw g).ssdPages).foldl
    (fun crc i => l.crc32 crc ((List.range pageSize).map fun k => pool (i * pageSize + k))) 0

/-- `ocf_metadata_raw_checksum`. -/
def ocfMetadataRawChecksum (m : Memory) : Segment → UInt32
  | .ram g => rawRamChecksum l g (m.pool g)
  | .coreUuid => RawDynamic.rawDynamicChecksum l.coreUuid (fun crc q => l.crc32 crc (List.ofFn q)) m.coreUuid

/-- `ocf_metadata_store_segment`. -/
def ocfMetadataStoreSegment (s : State) (g : RamSegment) : State × Int :=
  if env.alloc g = false then ({ s with segmentCopy := update s.segmentCopy g none }, errNoMem)
  else if env.copyError g ≠ 0 then
    ({ s with segmentCopy := update s.segmentCopy g none }, env.copyError g)
  else
    ({ s with segmentCopy := update s.segmentCopy g (some (s.memory.pool g)) }, 0)

/-- `ocf_metadata_load_segment`; no result when an assertion fails. -/
def ocfMetadataLoadSegment (s : State) (seg : Segment) : Option (State × Int) :=
  let flappingIdx := (s.memory.superblock l).flappingIdx
  if seg.flapped = true ∧ 1 < flappingIdx then none
  else
    let idx := if seg.flapped then flappingIdx else 0
    match seg with
    | .ram g =>
      let r := rawRamLoadAll l dev env g idx (s.memory.pool g)
      some ({ s with memory := s.memory.setPool g r.1 }, r.2)
    | .coreUuid =>
      let r := RawDynamic.rawDynamicLoadAll l.coreUuid s.memory.coreUuid (devPage dev) idx env.coreUuid
      some ({ s with memory := ⟨s.memory.pool, r.1⟩ }, r.2)

/-- `ocf_metadata_validate_superblock` for a memory pool. -/
def ocfMetadataValidateSuperblock (pool : Bytes) : Int :=
  let superblock := l.superblock pool
  if superblock.magicNumber ≠ cacheMagicNumber then noMetadata
  else if l.version ≠ superblock.metadataVersion then metadataVer
  else if l.crc32 0 ((List.range l.checksumOffset).map pool) ≠ superblock.checksum (.ram .sbConfig) then
    crcMismatch
  else if 1 < superblock.cleanShutdown then errInval
  else if 1 < superblock.dirtyFlushed then errInval
  else if 1 < superblock.flappingIdx then errInval
  else if superblock.cacheMode < 0 ∨ 6 ≤ superblock.cacheMode then errInval
  else if ocfCacheNameSize ≤ nameLen superblock.name then errInval
  else if ocfUserIoClassMax < superblock.validPartsNo then errInval
  else if ocfCacheLineSizeIsValid superblock.lineSize = false then errInval
  else if ocfCoreNum < superblock.coreCount then errInval
  else if superblock.cleaningPolicyType < 0 ∨ 3 ≤ superblock.cleaningPolicyType then errInval
  else if superblock.cleanerDisabled = true ∧ superblock.cleaningPolicyType ≠ 0 then errInval
  else if superblock.promotionPolicyType < 0 ∨ 2 ≤ superblock.promotionPolicyType then errInval
  else if superblock.evictionPolicyType < 0 ∨ 2 ≤ superblock.evictionPolicyType then errInval
  else 0

/-- `ocf_metadata_check_crc`. -/
def ocfMetadataCheckCrc (m : Memory) (seg : Segment) : Int :=
  if ocfMetadataRawChecksum l m seg ≠ (m.superblock l).checksum seg then crcMismatch else 0

/-- `_ocf_metadata_validate_core_config`: a core is marked as valid in one of
the two places only. -/
def ocfMetadataValidateCoreConfig (m : Memory) : Int :=
  let bitmap := (m.superblock l).validCoreBitmap
  let valid := l.coreValid (m.pool .coreConfig)
  if (List.range ocfCoreNum).any fun id => bitmap id && !valid id || valid id && !bitmap id then errInval
  else 0

/-- A step of a pipeline: the state behind it, and 0 when the pipeline goes on
or the error it is finished with. -/
def runHandler (s : State) : Handler → Option (State × Int)
  | .store g => some (ocfMetadataStoreSegment env s g)
  | .load seg => ocfMetadataLoadSegment l dev env s seg
  | .validateSuperblock => some (s, ocfMetadataValidateSuperblock l (s.memory.pool .sbConfig))
  | .checkCrc seg => some (s, ocfMetadataCheckCrc l s.memory seg)
  | .validateCoreConfig => some (s, ocfMetadataValidateCoreConfig l s.memory)

/-- Steps of a pipeline up to the first error. -/
def runSteps : List Handler → State → Option (State × Int)
  | [], s => some (s, 0)
  | h :: rest, s => (runHandler l dev env s h).bind fun r =>
    if r.2 ≠ 0 then some r else runSteps rest r.1

/-- `ocf_metadata_load_sb_restore`. -/
def ocfMetadataLoadSbRestore (s : State) : Memory :=
  ⟨fun g => match s.segmentCopy g with
    | none => s.memory.pool g
    | some copy => fun x => if x < memPoolLimit l g then copy x else s.memory.pool g x,
    s.memory.coreUuid⟩

/-- `ocf_metadata_load_superblock_finish`: the segments behind it. -/
def ocfMetadataLoadSuperblockFinish (s : State) (error : Int) : Memory :=
  if error ≠ 0 then ocfMetadataLoadSbRestore l s else s.memory

/-- A load with the steps of a pipeline: the segments behind it and the error it
completes with; no result when an assertion fails. -/
def loadWith (steps : List Handler) (m : Memory) : Option (Memory × Int) :=
  if env.create ≠ 0 then some (m, env.create)
  else (runSteps l dev env steps ⟨m, fun _ => none⟩).map fun r =>
    (ocfMetadataLoadSuperblockFinish l r.1 r.2, r.2)

/-- `ocf_metadata_load_superblock`. -/
def ocfMetadataLoadSuperblock (m : Memory) : Option (Memory × Int) :=
  loadWith l dev env ocfMetadataLoadSbPipelineProps m

/-- `ocf_metadata_load_superblock_recovery`. -/
def ocfMetadataLoadSuperblockRecovery (m : Memory) : Option (Memory × Int) :=
  loadWith l dev env ocfMetadataLoadSbRecovPipelineProps m

/-- The segments in memory that a pipeline loads behind the superblock. -/
def ramArgs (gs : List RamSegment) : List Segment := gs.map .ram ++ [.coreUuid]

/-- A memory pool with the entries of a copy on the device. -/
def loadedPool (g : RamSegment) (idx : Nat) (pool : Bytes) : Bytes :=
  fun x => if x < (l.raw g).ssdPages * (l.raw g).size then
    dev ((copyOffset l g idx + x / (l.raw g).size) * pageSize + x % (l.raw g).size) else pool x

/-- A page of the core UUIDs as its entries are read. -/
def uuidPage (c : Ctrl) (p : Nat) : Page := (c.pages p).getD zeroPage

/-- A page of a copy of the core UUIDs on the device. -/
def devUuid (idx p : Nat) : Page := devPage dev (RawDynamic.copyOffset l.coreUuid idx + p)

/-- The copy that a superblock selects. -/
def SuperblockConfig.selected (sb : SuperblockConfig) (seg : Segment) : Nat :=
  if seg.flapped then sb.flappingIdx else 0

/-- The segments hold what they held. -/
structure SameContents (m t : Memory) : Prop where
  /-- The memory pools. -/
  pool : t.pool = m.pool
  /-- The core UUIDs. -/
  coreUuid : ∀ p < l.coreUuid.ssdPages, uuidPage t.coreUuid p = uuidPage m.coreUuid p

/-- The segments hold the copies that the superblock selects, and passed their
checks. -/
structure Loaded (args : List Segment) (t : Memory) : Prop where
  /-- The segments in memory. -/
  pool : ∀ g, g = .sbConfig ∨ .ram g ∈ args → ∀ x < (l.raw g).ssdPages * (l.raw g).size,
    t.pool g x = dev ((copyOffset l g ((t.superblock l).selected (.ram g)) + x / (l.raw g).size) * pageSize +
      x % (l.raw g).size)
  /-- The core UUIDs. -/
  coreUuid : ∀ p < l.coreUuid.ssdPages,
    uuidPage t.coreUuid p = devUuid l dev ((t.superblock l).selected .coreUuid) p
  /-- The checksum of the superblock. -/
  superblock : l.crc32 0 ((List.range l.checksumOffset).map (t.pool .sbConfig)) =
    (t.superblock l).checksum (.ram .sbConfig)
  /-- The other checksums. -/
  checksum : ∀ seg ∈ args, ocfMetadataRawChecksum l t seg = (t.superblock l).checksum seg

/-- A load changes nothing or loads everything. -/
structure AllOrNothing (args : List Segment) (m : Memory) (r : Memory × Int) : Prop where
  /-- An error changes nothing. -/
  failed : r.2 ≠ 0 → SameContents l m r.1
  /-- Without one the segments are loaded. -/
  loaded : r.2 = 0 → Loaded l dev args r.1

/-- The superblock on the device. -/
def devSuperblock (m : Memory) : SuperblockConfig :=
  l.superblock (loadedPool l dev .sbConfig 0 (m.pool .sbConfig))

/-- The segments with all copies that the superblock on the device selects. -/
def image (args : List Segment) (m : Memory) : Memory :=
  ⟨fun g => if g = .sbConfig ∨ .ram g ∈ args then
      loadedPool l dev g ((devSuperblock l dev m).selected (.ram g)) (m.pool g)
    else m.pool g,
    ⟨m.coreUuid.count, fun p => if p < l.coreUuid.ssdPages then
      RawDynamic.ofPage (devUuid l dev ((devSuperblock l dev m).selected .coreUuid) p)
      else m.coreUuid.pages p⟩⟩

/-- A load of a segment in memory succeeds. -/
def ReadAnswer.Succeeds (a : ReadAnswer) : Prop := a.memory = true ∧ a.error = 0

/-- Nothing ends the load in front of the core UUIDs. -/
structure ReachesCoreUuid (args : List Segment) (m : Memory) : Prop where
  /-- There is a pipeline. -/
  create : env.create = 0
  /-- The segments in memory are backed up. -/
  store : ∀ g, env.alloc g = true ∧ env.copyError g = 0
  /-- The superblock is read. -/
  superblock : (env.read .sbConfig).Succeeds
  /-- The superblock on the device is valid. -/
  valid : ocfMetadataValidateSuperblock l (loadedPool l dev .sbConfig 0 (m.pool .sbConfig)) = 0
  /-- The segments in memory are read. -/
  read : ∀ g, .ram g ∈ args → (env.read g).Succeeds

/-- The load of the core UUIDs ends in front of a page or of an earlier one. -/
def UuidEnds (m : Memory) (p : Nat) : Prop :=
  env.coreUuid.memory = false ∨
    ∃ q ≤ p, RawDynamic.Stops (devUuid l dev ((devSuperblock l dev m).selected .coreUuid)) env.coreUuid q

/-- Nothing ends the load behind the core UUIDs either. -/
structure Completes (args : List Segment) (m : Memory) : Prop where
  /-- All their pages are read. -/
  coreUuid : ∀ p < l.coreUuid.ssdPages, ¬ UuidEnds l dev env m p
  /-- The checksums of what is on the device are right. -/
  checksum : ∀ seg ∈ args, ocfMetadataCheckCrc l (image l dev args m) seg = 0
  /-- The cores on the device are those of the bitmap. -/
  coreConfig : ocfMetadataValidateCoreConfig l (image l dev args m) = 0

/-- If the load fails behind the first page of the core UUIDs, then the pages it
takes from the device hold what the segment holds. -/
def UuidUnchanged (args : List Segment) (m : Memory) : Prop :=
  ReachesCoreUuid l dev env args m → ¬ Completes l dev env args m →
    ∀ p < l.coreUuid.ssdPages, ¬ UuidEnds l dev env m p →
      devUuid l dev ((devSuperblock l dev m).selected .coreUuid) p = uuidPage m.coreUuid p

variable {l dev env} {s t : State} {m : Memory}

/-! ## Draining a segment in memory -/

theorem foldl_drainPage (g : RamSegment) (idx n : Nat) (pool : Bytes) :
    (List.range n).foldl (rawRamDrainPage l dev g idx) pool = fun x =>
      if x < n * (l.raw g).size then
        dev ((copyOffset l g idx + x / (l.raw g).size) * pageSize + x % (l.raw g).size) else pool x := by
  induction n with
  | zero => simp
  | succ n ih =>
    rw [List.range_succ, List.foldl_append, List.foldl_cons, List.foldl_nil, ih]
    funext x
    have hstart : (l.raw g).entrySize * (n * (l.raw g).entriesInPage) = n * (l.raw g).size := by
      rw [RawRam.size, Nat.mul_left_comm]
    have hsucc : (n + 1) * (l.raw g).size = n * (l.raw g).size + (l.raw g).size := Nat.succ_mul _ _
    unfold rawRamDrainPage
    simp only [hstart]
    by_cases hin : n * (l.raw g).size ≤ x ∧ x < n * (l.raw g).size + (l.raw g).size
    · have hdiv : x / (l.raw g).size = n :=
        Nat.div_eq_of_lt_le hin.1 (by omega)
      have hmod : x % (l.raw g).size = x - n * (l.raw g).size := by
        have hsum := Nat.div_add_mod x (l.raw g).size
        rw [hdiv, Nat.mul_comm] at hsum
        omega
      rw [if_pos hin, if_pos (by omega), hdiv, hmod]
    · rw [if_neg hin]
      by_cases hlt : x < n * (l.raw g).size
      · rw [if_pos hlt, if_pos (by omega)]
      · rw [if_neg hlt, if_neg (by omega)]

theorem rawRamLoadAll_of_succeeds {g : RamSegment} (h : (env.read g).Succeeds) (idx : Nat) (pool : Bytes) :
    rawRamLoadAll l dev env g idx pool = (loadedPool l dev g idx pool, 0) := by
  unfold rawRamLoadAll
  have hmemory : ¬ (env.read g).memory = false := by
    rw [h.1]
    decide
  simp only [if_neg hmemory, h.2, if_true]
  rw [foldl_drainPage]
  rfl

theorem rawRamLoadAll_of_fails {g : RamSegment} (h : ¬ (env.read g).Succeeds) (idx : Nat) (pool : Bytes) :
    (rawRamLoadAll l dev env g idx pool).2 ≠ 0 := by
  unfold rawRamLoadAll
  by_cases hmemory : (env.read g).memory = false
  · simp only [if_pos hmemory]
    decide
  · simp only [if_neg hmemory]
    intro hzero
    exact h ⟨by simpa using hmemory, hzero⟩

theorem rawRamLoadAll_outside (g : RamSegment) (idx : Nat) (pool : Bytes) {x : Nat}
    (hx : memPoolLimit l g ≤ x) : (rawRamLoadAll l dev env g idx pool).1 x = pool x := by
  have hpage : ∀ (pool : Bytes) (page : Nat), page < (l.raw g).ssdPages →
      rawRamDrainPage l dev g idx pool page x = pool x := by
    intro pool page hlt
    have hstart : (l.raw g).entrySize * (page * (l.raw g).entriesInPage) = page * (l.raw g).size := by
      rw [RawRam.size, Nat.mul_left_comm]
    have hsize : (l.raw g).size ≤ pageSize := (l.raw g).size_le
    have hend : (page + 1) * (l.raw g).size ≤ (l.raw g).ssdPages * pageSize :=
      Nat.mul_le_mul hlt hsize
    rw [Nat.succ_mul] at hend
    unfold memPoolLimit at hx
    unfold rawRamDrainPage
    exact if_neg (by omega)
  have hfold : ∀ (pages : List Nat) (pool : Bytes), (∀ page ∈ pages, page < (l.raw g).ssdPages) →
      pages.foldl (rawRamDrainPage l dev g idx) pool x = pool x := by
    intro pages
    induction pages with
    | nil => exact fun _ _ => rfl
    | cons page rest ih =>
      intro pool hin
      rw [List.foldl_cons, ih _ fun q hq => hin q (mem_cons_of_mem _ hq)]
      exact hpage pool page (hin page mem_cons_self)
  unfold rawRamLoadAll
  by_cases hmemory : (env.read g).memory = false
  · simp only [if_pos hmemory]
  · simp only [if_neg hmemory]
    apply hfold
    intro page hmem
    split at hmem
    · exact List.mem_range.mp hmem
    · simpa using (List.mem_filter.mp hmem).2

/-! ## Backups -/

/-- The segments in memory can be restored. -/
structure Backed (l : Layout) (start : Memory) (s : State) : Prop where
  /-- The backups. -/
  copies : ∀ g, s.segmentCopy g = some (start.pool g)
  /-- Nothing is changed outside of them. -/
  outside : ∀ g x, memPoolLimit l g ≤ x → s.memory.pool g x = start.pool g x

/-- Steps other than a backup. -/
def Handler.Keeps : Handler → Prop
  | .store _ => False
  | _ => True

theorem Backed.runHandler {start : Memory} (hs : Backed l start s) {h : Handler} (hkeeps : h.Keeps)
    {r : State × Int} (hr : runHandler l dev env s h = some r) : Backed l start r.1 := by
  cases h with
  | store g => exact absurd hkeeps not_false
  | load seg =>
    simp only [SuperblockLoad.runHandler, ocfMetadataLoadSegment] at hr
    split at hr
    · cases hr
    · cases seg with
      | ram g =>
        obtain rfl := Option.some.inj hr
        refine ⟨hs.copies, fun g' x hx => ?_⟩
        simp only [Memory.setPool]
        by_cases hg : g' = g
        · subst hg
          rw [update_self, rawRamLoadAll_outside _ _ _ hx, hs.outside _ x hx]
        · rw [update_of_ne hg]
          exact hs.outside g' x hx
      | coreUuid =>
        obtain rfl := Option.some.inj hr
        exact ⟨hs.copies, hs.outside⟩
  | validateSuperblock =>
    obtain rfl := Option.some.inj hr
    exact hs
  | checkCrc seg =>
    obtain rfl := Option.some.inj hr
    exact hs
  | validateCoreConfig =>
    obtain rfl := Option.some.inj hr
    exact hs

theorem Backed.runSteps {start : Memory} {steps : List Handler} (hs : Backed l start s)
    (hkeeps : ∀ h ∈ steps, h.Keeps) {r : State × Int} (hr : runSteps l dev env steps s = some r) :
    Backed l start r.1 := by
  induction steps generalizing s with
  | nil =>
    obtain rfl := Option.some.inj hr
    exact hs
  | cons h rest ih =>
    obtain ⟨q, hq, hr⟩ := Option.bind_eq_some_iff.mp hr
    have hnext := hs.runHandler (hkeeps h mem_cons_self) hq
    split at hr
    · obtain rfl := Option.some.inj hr
      exact hnext
    · exact ih hnext (fun h' hmem => hkeeps h' (mem_cons_of_mem _ hmem)) hr

theorem Backed.restore {start : Memory} (hs : Backed l start s) :
    (ocfMetadataLoadSbRestore l s).pool = start.pool := by
  funext g x
  simp only [ocfMetadataLoadSbRestore, hs.copies]
  split
  · rfl
  · exact hs.outside g x (by omega)

/-! ## The steps of a pipeline -/

theorem runSteps_store (gs : List RamSegment) (rest : List Handler) (s : State)
    (h : ∀ g ∈ gs, env.alloc g = true ∧ env.copyError g = 0) :
    runSteps l dev env (gs.map .store ++ rest) s = runSteps l dev env rest
      ⟨s.memory, fun g => if g ∈ gs then some (s.memory.pool g) else s.segmentCopy g⟩ := by
  induction gs generalizing s with
  | nil => simp
  | cons g gs ih =>
    obtain ⟨halloc, hcopy⟩ := h g mem_cons_self
    have hstore : ocfMetadataStoreSegment env s g =
        ({ s with segmentCopy := update s.segmentCopy g (some (s.memory.pool g)) }, 0) := by
      simp [ocfMetadataStoreSegment, halloc, hcopy]
    rw [map_cons, cons_append, runSteps, runHandler, hstore, bind_some]
    simp only [ne_eq, not_true_eq_false, if_false]
    rw [ih _ fun g' hg' => h g' (mem_cons_of_mem _ hg')]
    congr 2
    funext g'
    by_cases hin : g' ∈ gs
    · rw [if_pos hin, if_pos (mem_cons_of_mem _ hin)]
    · rw [if_neg hin]
      by_cases hg : g' = g
      · simp only [hg, update_self, mem_cons_self, if_true]
      · have hout : g' ∉ g :: gs := fun hmem => (mem_cons.mp hmem).elim hg hin
        simp only [update_of_ne hg, if_neg hout]

theorem runSteps_store_fails (gs : List RamSegment) (rest : List Handler) (s : State)
    (hcopies : ∀ g copy, s.segmentCopy g = some copy → copy = s.memory.pool g)
    (h : ¬ ∀ g ∈ gs, env.alloc g = true ∧ env.copyError g = 0) :
    ∃ t error, runSteps l dev env (gs.map .store ++ rest) s = some (t, error) ∧ error ≠ 0 ∧
      t.memory = s.memory ∧ ∀ g copy, t.segmentCopy g = some copy → copy = s.memory.pool g := by
  have hupdate : ∀ (copies : RamSegment → Option Bytes) (g : RamSegment) (b : Option Bytes),
      (∀ g copy, copies g = some copy → copy = s.memory.pool g) →
      (∀ copy, b = some copy → copy = s.memory.pool g) →
      ∀ g' copy, update copies g b g' = some copy → copy = s.memory.pool g' := by
    intro copies g b hold hnew g' copy hg'
    by_cases hg : g' = g
    · subst hg
      rw [update_self] at hg'
      exact hnew copy hg'
    · rw [update_of_ne hg] at hg'
      exact hold g' copy hg'
  have hnone : errNoMem ≠ 0 := by decide
  induction gs generalizing s with
  | nil => exact absurd (fun g hg => absurd hg List.not_mem_nil) h
  | cons g gs ih =>
    rw [map_cons, cons_append, runSteps, runHandler, bind_some]
    unfold ocfMetadataStoreSegment
    by_cases halloc : env.alloc g = false
    · rw [if_pos halloc, if_pos hnone]
      exact ⟨_, _, rfl, hnone, rfl,
        hupdate _ g none hcopies fun copy hb => absurd hb (Option.some_ne_none copy).symm⟩
    · rw [if_neg halloc]
      by_cases hcopy : env.copyError g = 0
      · rw [if_neg (not_not.mpr hcopy), if_neg (not_not.mpr rfl)]
        have hrest : ¬ ∀ g' ∈ gs, env.alloc g' = true ∧ env.copyError g' = 0 := by
          intro hall
          refine h fun g' hg' => ?_
          cases mem_cons.mp hg' with
          | inl heq => exact heq ▸ ⟨by simpa using halloc, hcopy⟩
          | inr hin => exact hall g' hin
        exact ih { s with segmentCopy := update s.segmentCopy g (some (s.memory.pool g)) }
          (hupdate _ g _ hcopies fun copy hb => (Option.some.inj hb).symm) hrest hupdate
      · rw [if_pos hcopy, if_pos hcopy]
        exact ⟨_, _, rfl, hcopy, rfl,
          hupdate _ g none hcopies fun copy hb => absurd hb (Option.some_ne_none copy).symm⟩

/-- The segments with the copies of some of them. -/
def loadPools (l : Layout) (dev : Bytes) (gs : List RamSegment) (m : Memory) : Memory :=
  ⟨fun g => if g ∈ gs then loadedPool l dev g ((m.superblock l).selected (.ram g)) (m.pool g)
    else m.pool g, m.coreUuid⟩

theorem load_ram (s : State) (g : RamSegment) (hidx : (s.memory.superblock l).flappingIdx ≤ 1) :
    ocfMetadataLoadSegment l dev env s (.ram g) =
      some ({ s with memory := s.memory.setPool g (rawRamLoadAll l dev env g
          ((s.memory.superblock l).selected (.ram g)) (s.memory.pool g)).1 },
        (rawRamLoadAll l dev env g ((s.memory.superblock l).selected (.ram g)) (s.memory.pool g)).2) := by
  exact if_neg fun h => absurd h.2 (by omega)

theorem setPool_superblock {g : RamSegment} (hg : g ≠ .sbConfig) (m : Memory) (b : Bytes) :
    (m.setPool g b).superblock l = m.superblock l := by
  unfold Memory.superblock Memory.setPool
  simp only [update_of_ne hg.symm]

theorem loadedPool_loadedPool (g : RamSegment) (idx : Nat) (pool : Bytes) :
    loadedPool l dev g idx (loadedPool l dev g idx pool) = loadedPool l dev g idx pool := by
  funext x
  unfold loadedPool
  split
  · rfl
  · rfl

theorem runSteps_load (gs : List RamSegment) (rest : List Handler) (s : State)
    (hsb : .sbConfig ∉ gs) (hidx : (s.memory.superblock l).flappingIdx ≤ 1)
    (h : ∀ g ∈ gs, (env.read g).Succeeds) :
    runSteps l dev env ((gs.map Segment.ram).map .load ++ rest) s =
      runSteps l dev env rest { s with memory := loadPools l dev gs s.memory } := by
  induction gs generalizing s with
  | nil =>
    have hnil : loadPools l dev [] s.memory = s.memory := by
      simp [loadPools]
    rfl
  | cons g gs ih =>
    obtain ⟨hg, hgs⟩ := not_or.mp fun hmem => hsb (mem_cons.mpr hmem)
    rw [map_cons, map_cons, cons_append, runSteps, runHandler, load_ram s g hidx,
      rawRamLoadAll_of_succeeds (h g mem_cons_self), bind_some]
    simp only [ne_eq, not_true_eq_false, if_false]
    have hsame := setPool_superblock (l := l) (Ne.symm hg) s.memory
      (loadedPool l dev g ((s.memory.superblock l).selected (.ram g)) (s.memory.pool g))
    rw [ih _ hgs (by rw [hsame]; exact hidx) fun g' hg' => h g' (mem_cons_of_mem _ hg')]
    have hpools : loadPools l dev gs (s.memory.setPool g
        (loadedPool l dev g ((s.memory.superblock l).selected (.ram g)) (s.memory.pool g))) =
        loadPools l dev (g :: gs) s.memory := by
      unfold loadPools
      rw [hsame]
      congr 1
      funext g'
      by_cases heq : g' = g
      · subst heq
        simp only [Memory.setPool, update_self, mem_cons_self, if_true]
        split
        · exact loadedPool_loadedPool _ _ _
        · rfl
      · simp only [Memory.setPool, update_of_ne heq, mem_cons, heq, false_or]
    rw [hpools]

theorem runSteps_load_fails (gs : List RamSegment) (rest : List Handler) (s : State)
    (hsb : .sbConfig ∉ gs) (hidx : (s.memory.superblock l).flappingIdx ≤ 1)
    (h : ¬ ∀ g ∈ gs, (env.read g).Succeeds) :
    ∃ t error, runSteps l dev env ((gs.map Segment.ram).map .load ++ rest) s = some (t, error) ∧
      error ≠ 0 ∧ t.memory.coreUuid = s.memory.coreUuid := by
  induction gs generalizing s with
  | nil => exact absurd (fun g hg => absurd hg List.not_mem_nil) h
  | cons g gs ih =>
    obtain ⟨hg, hgs⟩ := not_or.mp fun hmem => hsb (mem_cons.mpr hmem)
    rw [map_cons, map_cons, cons_append, runSteps, runHandler, load_ram s g hidx,
      bind_some]
    by_cases hread : (env.read g).Succeeds
    · rw [rawRamLoadAll_of_succeeds hread]
      have hsame := setPool_superblock (l := l) (Ne.symm hg) s.memory
        (loadedPool l dev g ((s.memory.superblock l).selected (.ram g)) (s.memory.pool g))
      have hrest : ¬ ∀ g' ∈ gs, (env.read g').Succeeds := by
        intro hall
        refine h fun g' hg' => ?_
        cases mem_cons.mp hg' with
        | inl heq => exact heq ▸ hread
        | inr hin => exact hall g' hin
      exact ih _ hgs (by rw [hsame]; exact hidx) hrest
    · have herror := @rawRamLoadAll_of_fails l dev env g hread
        ((s.memory.superblock l).selected (.ram g)) (s.memory.pool g)
      rw [if_pos herror]
      exact ⟨_, _, rfl, herror, rfl⟩

theorem runSteps_checks (args : List Segment) (s : State) :
    ∃ error, runSteps l dev env (args.map .checkCrc ++ [.validateCoreConfig]) s = some (s, error) ∧
      (error = 0 ↔ (∀ seg ∈ args, ocfMetadataCheckCrc l s.memory seg = 0) ∧
        ocfMetadataValidateCoreConfig l s.memory = 0) := by
  induction args with
  | nil =>
    refine ⟨ocfMetadataValidateCoreConfig l s.memory, ?_, by simp⟩
    simp only [List.map_nil, List.nil_append, runSteps, runHandler, bind_some]
    split
    · rfl
    · rename_i hzero
      rw [not_not.mp hzero]
  | cons seg args ih =>
    rw [map_cons, cons_append, runSteps, runHandler, bind_some]
    by_cases hcrc : ocfMetadataCheckCrc l s.memory seg = 0
    · rw [if_neg (not_not.mpr hcrc)]
      obtain ⟨error, hrun, hiff⟩ := ih
      refine ⟨error, hrun, ?_⟩
      rw [hiff]
      simp [hcrc]
    · rw [if_pos hcrc]
      refine ⟨_, rfl, ?_⟩
      simp [hcrc]

theorem flappingIdx_le {pool : Bytes} (h : ocfMetadataValidateSuperblock l pool = 0) :
    (l.superblock pool).flappingIdx ≤ 1 := by
  by_contra hlarge
  have hidx : 1 < (l.superblock pool).flappingIdx := by omega
  have hver : metadataVer ≠ 0 := by decide
  have hmagic : noMetadata ≠ 0 := by decide
  have hcrc : crcMismatch ≠ 0 := by decide
  have hinval : errInval ≠ 0 := by decide
  unfold ocfMetadataValidateSuperblock at h
  simp only [if_pos hidx] at h
  repeat' split at h
  all_goals contradiction

/-! ## The load -/

/-- The steps behind the loads of segments in memory. -/
def uuidSteps (gs : List RamSegment) : List Handler :=
  .load .coreUuid :: ((ramArgs gs).map .checkCrc ++ [.validateCoreConfig])

theorem pipelineSteps_ramArgs (gs : List RamSegment) :
    pipelineSteps (ramArgs gs) = ocfMetadataLoadSbStoreSegmentArgs.map .store ++
      (.load (.ram .sbConfig) :: .validateSuperblock ::
        ((gs.map Segment.ram).map .load ++ uuidSteps gs)) := by
  simp [pipelineSteps, ramArgs, uuidSteps]

/-- The segments with the superblock on the device. -/
def withSuperblock (l : Layout) (dev : Bytes) (m : Memory) : Memory :=
  m.setPool .sbConfig (loadedPool l dev .sbConfig 0 (m.pool .sbConfig))

theorem withSuperblock_pool (l : Layout) (dev : Bytes) (m : Memory) :
    (withSuperblock l dev m).pool .sbConfig = loadedPool l dev .sbConfig 0 (m.pool .sbConfig) := by
  simp only [withSuperblock, Memory.setPool, update_self]

theorem withSuperblock_superblock : (withSuperblock l dev m).superblock l = devSuperblock l dev m := by
  unfold Memory.superblock devSuperblock
  rw [withSuperblock_pool]

variable {gs : List RamSegment}

theorem loadPools_pool (hsb : .sbConfig ∉ gs) :
    (loadPools l dev gs (withSuperblock l dev m)).pool = (image l dev (ramArgs gs) m).pool := by
  funext g
  unfold loadPools image
  simp only [withSuperblock_superblock]
  have hargs : Segment.ram g ∈ ramArgs gs ↔ g ∈ gs := by simp [ramArgs]
  by_cases hg : g = .sbConfig
  · subst hg
    rw [if_neg hsb, if_pos (.inl rfl)]
    simp only [withSuperblock, Memory.setPool, update_self, SuperblockConfig.selected,
      Segment.flapped, Bool.false_eq_true, if_false]
  · simp only [withSuperblock, Memory.setPool, update_of_ne hg, hargs, hg, false_or]

theorem load_superblock (s : State) : ocfMetadataLoadSegment l dev env s (.ram .sbConfig) =
    some (⟨s.memory.setPool .sbConfig (rawRamLoadAll l dev env .sbConfig 0 (s.memory.pool .sbConfig)).1,
        s.segmentCopy⟩, (rawRamLoadAll l dev env .sbConfig 0 (s.memory.pool .sbConfig)).2) := by
  unfold ocfMetadataLoadSegment
  exact if_neg fun h => absurd h.1 (by simp [Segment.flapped])

theorem runSteps_front (hsb : .sbConfig ∉ gs) {s : State}
    (h : ReachesCoreUuid l dev env (ramArgs gs) s.memory) :
    runSteps l dev env (.load (.ram .sbConfig) :: .validateSuperblock ::
        ((gs.map Segment.ram).map .load ++ uuidSteps gs)) s = runSteps l dev env (uuidSteps gs)
        { s with memory := loadPools l dev gs (withSuperblock l dev s.memory) } := by
  have hread : ∀ g ∈ gs, (env.read g).Succeeds := fun g hg => h.read g (by simp [ramArgs, hg])
  have hpool := withSuperblock_pool l dev s.memory
  have hvalid := h.valid
  have hidx : ((withSuperblock l dev s.memory).superblock l).flappingIdx ≤ 1 := by
    exact flappingIdx_le hvalid
  rw [runSteps, runHandler, load_superblock, rawRamLoadAll_of_succeeds h.superblock, bind_some]
  rw [runSteps, runHandler, bind_some]
  unfold withSuperblock at hpool
  simp only [hpool, hvalid, ne_eq, not_true_eq_false, if_false]
  exact runSteps_load gs (uuidSteps gs) _ hsb hidx hread

theorem runSteps_front_fails (hsb : .sbConfig ∉ gs) {s : State}
    (h : ¬ ((env.read .sbConfig).Succeeds ∧
      ocfMetadataValidateSuperblock l (loadedPool l dev .sbConfig 0 (s.memory.pool .sbConfig)) = 0 ∧
      ∀ g ∈ gs, (env.read g).Succeeds)) :
    ∃ t error, runSteps l dev env (.load (.ram .sbConfig) :: .validateSuperblock ::
        ((gs.map Segment.ram).map .load ++ uuidSteps gs)) s = some (t, error) ∧
      error ≠ 0 ∧ t.memory.coreUuid = s.memory.coreUuid := by
  rw [runSteps, runHandler, load_superblock, bind_some]
  by_cases hsuper : (env.read .sbConfig).Succeeds
  · rw [rawRamLoadAll_of_succeeds hsuper]
    have hpool := withSuperblock_pool l dev s.memory
    unfold withSuperblock at hpool
    rw [runSteps, runHandler, bind_some]
    simp only [hpool]
    by_cases hvalid : ocfMetadataValidateSuperblock l
        (loadedPool l dev .sbConfig 0 (s.memory.pool .sbConfig)) = 0
    · rw [if_neg (not_not.mpr hvalid)]
      have hread : ¬ ∀ g ∈ gs, (env.read g).Succeeds := fun hall => h ⟨hsuper, hvalid, hall⟩
      have hidx : ((withSuperblock l dev s.memory).superblock l).flappingIdx ≤ 1 := by
        exact flappingIdx_le hvalid
      exact runSteps_load_fails gs (uuidSteps gs)
        { s with memory := withSuperblock l dev s.memory } hsb hidx hread
    · rw [if_pos hvalid]
      exact ⟨_, _, rfl, hvalid, rfl⟩
  · have herror := @rawRamLoadAll_of_fails l dev env .sbConfig hsuper 0 (s.memory.pool .sbConfig)
    rw [if_pos herror]
    exact ⟨_, _, rfl, herror, rfl⟩

theorem keeps_uuidSteps (gs : List RamSegment) : ∀ h ∈ uuidSteps gs, h.Keeps := by
  intro h hmem
  simp only [uuidSteps, mem_cons, List.mem_append, List.mem_map, List.not_mem_nil, or_false] at hmem
  rcases hmem with rfl | ⟨seg, -, rfl⟩ | rfl
  · trivial
  · trivial
  · trivial

theorem keeps_steps (gs : List RamSegment) : ∀ h ∈ Handler.load (.ram .sbConfig) ::
    .validateSuperblock :: ((gs.map Segment.ram).map .load ++ uuidSteps gs), h.Keeps := by
  intro h hmem
  simp only [mem_cons, List.mem_append, List.mem_map] at hmem
  rcases hmem with rfl | rfl | ⟨seg, -, rfl⟩ | hrest
  · trivial
  · trivial
  · trivial
  · exact keeps_uuidSteps gs h hrest

/-- The state behind the backups. -/
def stored (m : Memory) : State := ⟨m, fun g => some (m.pool g)⟩

theorem backed_stored : Backed l m (stored m) := ⟨fun _ => rfl, fun _ _ _ => rfl⟩

theorem loadWith_stored (hcreate : env.create = 0)
    (hstore : ∀ g, env.alloc g = true ∧ env.copyError g = 0) :
    loadWith l dev env (pipelineSteps (ramArgs gs)) m =
      (runSteps l dev env (.load (.ram .sbConfig) :: .validateSuperblock ::
        ((gs.map Segment.ram).map .load ++ uuidSteps gs)) (stored m)).map fun r =>
          (ocfMetadataLoadSuperblockFinish l r.1 r.2, r.2) := by
  unfold loadWith
  rw [if_neg (not_not.mpr hcreate), pipelineSteps_ramArgs, runSteps_store _ _ _ fun g _ => hstore g]
  have hall : (fun g => if g ∈ ocfMetadataLoadSbStoreSegmentArgs then some (m.pool g) else none) =
      fun g => some (m.pool g) := by
    funext g
    cases g <;> rfl
  simp only [hall]
  rfl

/-- A load that fails before the names of the cores leaves all as it was. -/
theorem loadWith_front_fails (hsb : .sbConfig ∉ gs)
    (h : ¬ ReachesCoreUuid l dev env (ramArgs gs) m) :
    ∃ t error, loadWith l dev env (pipelineSteps (ramArgs gs)) m = some (t, error) ∧ error ≠ 0 ∧
      t.pool = m.pool ∧ t.coreUuid = m.coreUuid := by
  by_cases hcreate : env.create = 0
  · by_cases hstore : ∀ g, env.alloc g = true ∧ env.copyError g = 0
    · have hfront : ¬ ((env.read .sbConfig).Succeeds ∧
          ocfMetadataValidateSuperblock l (loadedPool l dev .sbConfig 0 (m.pool .sbConfig)) = 0 ∧
          ∀ g ∈ gs, (env.read g).Succeeds) := by
        intro hall
        refine h ⟨hcreate, hstore, hall.1, hall.2.1, fun g hg => hall.2.2 g ?_⟩
        simpa [ramArgs] using hg
      obtain ⟨t, error, hrun, herror, huuid⟩ := runSteps_front_fails hsb (s := stored m) hfront
      have hbacked := backed_stored.runSteps (keeps_steps gs) hrun
      refine ⟨ocfMetadataLoadSbRestore l t, error, ?_, herror, hbacked.restore, huuid⟩
      rw [loadWith_stored hcreate hstore, hrun, map_some, ocfMetadataLoadSuperblockFinish,
        if_pos herror]
    · have hsome : ¬ ∀ g ∈ ocfMetadataLoadSbStoreSegmentArgs,
          env.alloc g = true ∧ env.copyError g = 0 := by
        intro hall
        exact hstore fun g => hall g (by cases g <;> decide)
      obtain ⟨t, error, hrun, herror, hmem, hcopies⟩ := runSteps_store_fails (l := l)
        ocfMetadataLoadSbStoreSegmentArgs (.load (.ram .sbConfig) :: .validateSuperblock ::
        ((gs.map Segment.ram).map .load ++ uuidSteps gs)) ⟨m, fun _ => none⟩
        (fun g copy hnone => absurd hnone (Option.some_ne_none copy).symm) hsome
      refine ⟨ocfMetadataLoadSbRestore l t, error, ?_, herror, ?_, ?_⟩
      · unfold loadWith
        rw [if_neg (not_not.mpr hcreate), pipelineSteps_ramArgs, hrun, map_some,
          ocfMetadataLoadSuperblockFinish, if_pos herror]
      · funext g x
        unfold ocfMetadataLoadSbRestore
        simp only [hmem]
        cases hcopy : t.segmentCopy g with
        | none => rfl
        | some copy =>
          obtain rfl := hcopies g copy hcopy
          simp
      · simp only [ocfMetadataLoadSbRestore, hmem]
  · refine ⟨m, env.create, ?_, hcreate, rfl, rfl⟩
    unfold loadWith
    rw [if_pos hcreate]

theorem checks_congr {t u : Memory} (hpool : t.pool = u.pool)
    (huuid : ∀ p < l.coreUuid.ssdPages, t.coreUuid.pages p = u.coreUuid.pages p) :
    (∀ seg, ocfMetadataRawChecksum l t seg = ocfMetadataRawChecksum l u seg) ∧
      t.superblock l = u.superblock l ∧
      ocfMetadataValidateCoreConfig l t = ocfMetadataValidateCoreConfig l u := by
  have hsuper : t.superblock l = u.superblock l := by
    unfold Memory.superblock
    rw [hpool]
  refine ⟨fun seg => ?_, hsuper, ?_⟩
  · cases seg with
    | ram g =>
      simp only [ocfMetadataRawChecksum]
      rw [hpool]
    | coreUuid => exact RawDynamic.checksum_congr huuid
  · unfold ocfMetadataValidateCoreConfig
    rw [hsuper, hpool]

/-- What a load that comes to the core UUIDs does. -/
structure Outcome (l : Layout) (dev : Bytes) (env : Environment) (args : List Segment) (m t : Memory)
    (error : Int) (k : Nat) : Prop where
  /-- The pages of the core UUIDs that it takes from the device. -/
  taken : ∀ p < l.coreUuid.ssdPages, p < k ↔ ¬ UuidEnds l dev env m p
  /-- It completes or fails. -/
  completes : error = 0 ↔ Completes l dev env args m
  /-- The core UUIDs behind it. -/
  coreUuid : t.coreUuid.pages = fun p => if p < k then
    RawDynamic.ofPage (devUuid l dev ((devSuperblock l dev m).selected .coreUuid) p) else m.coreUuid.pages p
  /-- The other segments behind it. -/
  pool : t.pool = if error = 0 then (image l dev args m).pool else m.pool

/-- Outcome of a load that reads the names of the cores. -/
theorem loadWith_reached (hsb : .sbConfig ∉ gs) (h : ReachesCoreUuid l dev env (ramArgs gs) m) :
    ∃ t error k, loadWith l dev env (pipelineSteps (ramArgs gs)) m = some (t, error) ∧
      Outcome l dev env (ramArgs gs) m t error k := by
  have hfront := runSteps_front hsb (s := stored m) h
  have hpools := @loadPools_pool l dev m gs hsb
  have hsuper : (loadPools l dev gs (withSuperblock l dev m)).superblock l = devSuperblock l dev m := by
    unfold Memory.superblock
    rw [hpools]
    unfold image devSuperblock
    rfl
  have hidx : (devSuperblock l dev m).flappingIdx ≤ 1 := flappingIdx_le h.valid
  obtain ⟨k, hk⟩ := @RawDynamic.rawDynamicLoadAll_reaches l.coreUuid (devPage dev)
    ((devSuperblock l dev m).selected .coreUuid) env.coreUuid l.coreUuid_pos m.coreUuid
  have htaken : ∀ p < l.coreUuid.ssdPages, p < k ↔ ¬ UuidEnds l dev env m p := by
    intro p hp
    constructor
    · intro hlt hends
      cases hends with
      | inl hmemory => exact hk.passed p (Nat.zero_le p) hlt (.inl hmemory)
      | inr hstop =>
        obtain ⟨q, hq, hstop⟩ := hstop
        exact hk.passed q (Nat.zero_le q) (by omega) (.inr hstop)
    · intro hgoes
      by_contra hge
      have hstop := hk.ends.resolve_left fun hall => by omega
      cases hstop.2.1 with
      | inl hmemory => exact hgoes (.inl hmemory)
      | inr hstop => exact hgoes (.inr ⟨k, by omega, hstop⟩)
  have hload : ocfMetadataLoadSegment l dev env
      { stored m with memory := loadPools l dev gs (withSuperblock l dev m) } .coreUuid =
      some ({ stored m with memory := ⟨(image l dev (ramArgs gs) m).pool,
          (RawDynamic.rawDynamicLoadAll l.coreUuid m.coreUuid (devPage dev)
            ((devSuperblock l dev m).selected .coreUuid) env.coreUuid).1⟩ },
        (RawDynamic.rawDynamicLoadAll l.coreUuid m.coreUuid (devPage dev)
          ((devSuperblock l dev m).selected .coreUuid) env.coreUuid).2) := by
    unfold ocfMetadataLoadSegment
    simp only [hsuper, hpools]
    exact if_neg fun hflap => absurd hflap.2 (by omega)
  have hend : ∀ t error, runSteps l dev env (uuidSteps gs)
      { stored m with memory := loadPools l dev gs (withSuperblock l dev m) } = some (t, error) →
      loadWith l dev env (pipelineSteps (ramArgs gs)) m =
        some (ocfMetadataLoadSuperblockFinish l t error, error) ∧ Backed l m t := by
    intro t error hrun
    have hrun' := hfront.trans hrun
    refine ⟨?_, backed_stored.runSteps (keeps_steps gs) hrun'⟩
    rw [loadWith_stored h.create h.store, hrun', map_some]
  generalize RawDynamic.rawDynamicLoadAll l.coreUuid m.coreUuid (devPage dev)
    ((devSuperblock l dev m).selected .coreUuid) env.coreUuid = r at hk hload
  have hrun : ∀ rest, runSteps l dev env (.load .coreUuid :: rest)
      { stored m with memory := loadPools l dev gs (withSuperblock l dev m) } =
      if r.2 ≠ 0 then some ({ stored m with memory := ⟨(image l dev (ramArgs gs) m).pool, r.1⟩ }, r.2)
      else runSteps l dev env rest
        { stored m with memory := ⟨(image l dev (ramArgs gs) m).pool, r.1⟩ } := by
    intro rest
    rw [runSteps, runHandler, hload, bind_some]
  by_cases hzero : r.2 = 0
  · have hall := hk.ends.resolve_right fun hstop => hstop.2.2 hzero
    obtain ⟨error, hchecks, hiff⟩ := @runSteps_checks l dev env (ramArgs gs)
      { stored m with memory := ⟨(image l dev (ramArgs gs) m).pool, r.1⟩ }
    have hstep := hrun ((ramArgs gs).map .checkCrc ++ [.validateCoreConfig])
    rw [if_neg (not_not.mpr hzero), hchecks] at hstep
    obtain ⟨hloaded, hbacked⟩ := hend _ _ hstep
    obtain ⟨hcrc, hsuper', hcore⟩ := @checks_congr l ⟨(image l dev (ramArgs gs) m).pool, r.1⟩
      (image l dev (ramArgs gs) m) rfl (by
        intro p hp
        rw [hk.loaded.pages]
        simp only [image, hall.1, if_pos hp]
        rfl)
    have hcompletes : error = 0 ↔ Completes l dev env (ramArgs gs) m := by
      simp only [ocfMetadataCheckCrc, hcrc, hsuper', hcore] at hiff
      rw [hiff]
      constructor
      · intro hpass
        exact ⟨fun p hp => (htaken p hp).mp (by omega), hpass.1, hpass.2⟩
      · intro hpass
        exact ⟨hpass.checksum, hpass.coreConfig⟩
    refine ⟨_, error, k, hloaded, htaken, hcompletes, ?_, ?_⟩
    · unfold ocfMetadataLoadSuperblockFinish
      split
      · exact hk.loaded.pages
      · exact hk.loaded.pages
    · unfold ocfMetadataLoadSuperblockFinish
      by_cases herror : error = 0
      · rw [if_neg (not_not.mpr herror), if_pos herror]
      · rw [if_pos herror, if_neg herror]
        exact hbacked.restore
  · have hstop := hk.ends.resolve_left fun hall => hzero hall.2
    have hstep := hrun ((ramArgs gs).map .checkCrc ++ [.validateCoreConfig])
    rw [if_pos hzero] at hstep
    obtain ⟨hloaded, hbacked⟩ := hend _ _ hstep
    have hfails : ¬ Completes l dev env (ramArgs gs) m := by
      intro hcompletes
      have hlt := (htaken k hstop.1).mpr (hcompletes.coreUuid k hstop.1)
      omega
    refine ⟨_, r.2, k, hloaded, htaken, iff_of_false hzero hfails, ?_, ?_⟩
    · unfold ocfMetadataLoadSuperblockFinish
      rw [if_pos hzero]
      exact hk.loaded.pages
    · unfold ocfMetadataLoadSuperblockFinish
      rw [if_pos hzero, if_neg hzero]
      exact hbacked.restore

theorem superblock_checksum {pool : Bytes} (h : ocfMetadataValidateSuperblock l pool = 0) :
    l.crc32 0 ((List.range l.checksumOffset).map pool) =
      (l.superblock pool).checksum (.ram .sbConfig) := by
  by_contra hdiff
  have hver : metadataVer ≠ 0 := by decide
  have hmagic : noMetadata ≠ 0 := by decide
  have hcrc : crcMismatch ≠ 0 := by decide
  unfold ocfMetadataValidateSuperblock at h
  simp only [if_pos hdiff] at h
  repeat' split at h
  all_goals contradiction

/-- With the steps of either pipeline a load returns, and it changes nothing or
loads everything if and only if it leaves the core UUIDs as they are. -/
theorem loadWith_spec (hsb : .sbConfig ∉ gs) :
    ∃ r, loadWith l dev env (pipelineSteps (ramArgs gs)) m = some r ∧
      (AllOrNothing l dev (ramArgs gs) m r ↔ UuidUnchanged l dev env (ramArgs gs) m) ∧
      (r.2 ≠ 0 → r.1.pool = m.pool) ∧ (r.2 = 0 → Loaded l dev (ramArgs gs) r.1) := by
  by_cases hreach : ReachesCoreUuid l dev env (ramArgs gs) m
  · obtain ⟨t, error, k, hrun, hout⟩ := loadWith_reached hsb hreach
    have hpool : error ≠ 0 → t.pool = m.pool := by
      intro herror
      rw [hout.pool, if_neg herror]
    have hloaded : error = 0 → Loaded l dev (ramArgs gs) t := by
      intro hzero
      have hcompletes := hout.completes.mp hzero
      have himage : t.pool = (image l dev (ramArgs gs) m).pool := by
        rw [hout.pool, if_pos hzero]
      have hpages : ∀ p < l.coreUuid.ssdPages, t.coreUuid.pages p =
          RawDynamic.ofPage (devUuid l dev ((devSuperblock l dev m).selected .coreUuid) p) := by
        intro p hp
        rw [hout.coreUuid]
        exact if_pos ((hout.taken p hp).mpr (hcompletes.coreUuid p hp))
      obtain ⟨hcrc, hsuper, -⟩ := @checks_congr l t (image l dev (ramArgs gs) m) himage (by
        intro p hp
        rw [hpages p hp]
        simp only [image, if_pos hp])
      have hpool' : t.pool .sbConfig = loadedPool l dev .sbConfig 0 (m.pool .sbConfig) := by
        rw [himage]
        rfl
      have hdev : t.superblock l = devSuperblock l dev m := by
        unfold Memory.superblock devSuperblock
        rw [hpool']
      exact {
        pool := by
          intro g hg x hx
          rw [himage, hdev]
          simp only [image, if_pos hg]
          exact if_pos hx
        coreUuid := by
          intro p hp
          unfold uuidPage
          rw [hpages p hp, RawDynamic.ofPage_getD, hdev]
        superblock := by
          rw [Memory.superblock, hpool']
          exact superblock_checksum hreach.valid
        checksum := by
          intro seg hseg
          have hzero := hcompletes.checksum seg hseg
          unfold ocfMetadataCheckCrc at hzero
          rw [hcrc, hsuper]
          by_contra hdiff
          rw [if_pos hdiff] at hzero
          exact absurd hzero (by decide) }
    have hsame : error ≠ 0 → (SameContents l m t ↔ ∀ p < l.coreUuid.ssdPages,
        ¬ UuidEnds l dev env m p →
          devUuid l dev ((devSuperblock l dev m).selected .coreUuid) p = uuidPage m.coreUuid p) := by
      intro herror
      constructor
      · intro hsame p hp hgoes
        have hpage := hsame.coreUuid p hp
        unfold uuidPage at hpage ⊢
        rw [hout.coreUuid] at hpage
        simp only [if_pos ((hout.taken p hp).mpr hgoes), RawDynamic.ofPage_getD] at hpage
        exact hpage
      · intro hkept
        refine ⟨hpool herror, fun p hp => ?_⟩
        unfold uuidPage
        rw [hout.coreUuid]
        by_cases hlt : p < k
        · simp only [if_pos hlt, RawDynamic.ofPage_getD]
          exact hkept p hp ((hout.taken p hp).mp hlt)
        · simp only [if_neg hlt]
    refine ⟨(t, error), hrun, ?_, hpool, hloaded⟩
    by_cases hzero : error = 0
    · exact iff_of_true ⟨fun herror => absurd hzero herror, hloaded⟩
        fun _ hfails => absurd (hout.completes.mp hzero) hfails
    · constructor
      · intro hall _ _
        exact (hsame hzero).mp (hall.failed hzero)
      · intro hkept
        exact ⟨fun herror => (hsame herror).mpr
          (hkept hreach fun hcompletes => hzero (hout.completes.mpr hcompletes)),
          fun heq => absurd heq hzero⟩
  · obtain ⟨t, error, hrun, herror, hpool, huuid⟩ := loadWith_front_fails hsb hreach
    refine ⟨(t, error), hrun, ?_, fun _ => hpool, fun hzero => absurd hzero herror⟩
    exact iff_of_true ⟨fun _ => ⟨hpool, fun p _ => by rw [huuid]⟩, fun hzero => absurd hzero herror⟩
      fun hreaches => absurd hreaches hreach

/-- Both loads return, and change nothing or load everything, if and only if the
core UUIDs that they take from the device in front of an error are the ones the
segment holds. The segments with a backup are restored in any case. -/
theorem load_allOrNothing_iff (l : Layout) (dev : Bytes) (env : Environment) (m : Memory) :
    (∃ r, ocfMetadataLoadSuperblock l dev env m = some r ∧
      (AllOrNothing l dev ocfMetadataLoadSbLoadSegmentArgs m r ↔
        UuidUnchanged l dev env ocfMetadataLoadSbLoadSegmentArgs m) ∧
      (r.2 ≠ 0 → r.1.pool = m.pool) ∧ (r.2 = 0 → Loaded l dev ocfMetadataLoadSbLoadSegmentArgs r.1)) ∧
    ∃ r, ocfMetadataLoadSuperblockRecovery l dev env m = some r ∧
      (AllOrNothing l dev ocfMetadataLoadSbRecovLoadSegmentArgs m r ↔
        UuidUnchanged l dev env ocfMetadataLoadSbRecovLoadSegmentArgs m) ∧
      (r.2 ≠ 0 → r.1.pool = m.pool) ∧
      (r.2 = 0 → Loaded l dev ocfMetadataLoadSbRecovLoadSegmentArgs r.1) := by
  have hload := @loadWith_spec l dev env m [.sbRuntime, .partConfig, .partRuntime, .coreConfig] (by decide)
  have hrecovery := @loadWith_spec l dev env m [.partConfig, .coreConfig] (by decide)
  exact ⟨hload, hrecovery⟩

/-- First page of a segment in memory. -/
def smallOffset : RamSegment → Nat
  | .sbConfig => 0
  | .sbRuntime => 32
  | .partConfig => 64
  | .partRuntime => 128
  | .coreConfig => 160

/-- A valid superblock with a checksum. -/
def smallSuperblock (checksum : UInt32) : SuperblockConfig :=
  ⟨1, 1, cacheMagicNumber, 0, 0, 0, fun _ => 0, 1, 4096, 0, fun _ => false, false, 0, 0, 0, fun _ => checksum⟩

theorem pageEntry_le : 1 * pageSize ≤ pageSize := Nat.le_of_eq (Nat.one_mul _)

theorem pageRamEntry_le : pageSize * 1 ≤ pageSize := Nat.le_of_eq (Nat.mul_one _)

theorem pageEntries_le : 2 ≤ 2 * 1 := Nat.le_refl 2

/-- Segments of one page in memory and two pages of core UUIDs. -/
def smallLayout (crc32 : UInt32 → List UInt8 → UInt32) : Layout where
  raw g := ⟨smallOffset g, 1, Nat.one_pos, pageSize, 1, pageRamEntry_le⟩
  coreUuid := ⟨224, 2, 2, pageSize, 1, pageEntry_le, pageEntries_le⟩
  coreUuid_pos := Nat.two_pos
  superblock _ := smallSuperblock (crc32 0 (List.replicate 8 0))
  checksumOffset := 8
  coreValid _ _ := false
  version := 0
  crc32 := crc32

/-- A device with data in the core UUIDs. -/
def smallDevice : Bytes := fun x => if 224 * pageSize ≤ x then 1 else 0

/-- Everything succeeds, but there is a buffer for one page of the core UUIDs
only. -/
def oneBuffer : Environment where
  create := 0
  alloc _ := true
  copyError _ := 0
  read _ := ⟨true, 0, []⟩
  coreUuid := ⟨true, fun p => p == 0, fun _ => 0⟩

/-- Segments that hold nothing. -/
def emptyMemory : Memory := ⟨fun _ _ => 0, RawDynamic.rawDynamicInit⟩

theorem smallSuperblock_valid (crc32 : UInt32 → List UInt8 → UInt32) :
    ocfMetadataValidateSuperblock (smallLayout crc32)
      (loadedPool (smallLayout crc32) smallDevice .sbConfig 0 (emptyMemory.pool .sbConfig)) = 0 := by
  have hbytes : (List.range 8).map
      (loadedPool (smallLayout crc32) smallDevice .sbConfig 0 (emptyMemory.pool .sbConfig)) =
      List.replicate 8 0 := by
    rw [List.eq_replicate_iff]
    refine ⟨by rw [List.length_map, List.length_range], fun b hb => ?_⟩
    obtain ⟨x, hx, rfl⟩ := List.mem_map.mp hb
    have hlt := List.mem_range.mp hx
    have hsize : ((smallLayout crc32).raw .sbConfig).size = 4096 := rfl
    have hoffset : copyOffset (smallLayout crc32) .sbConfig 0 = 0 := rfl
    have hpage : pageSize = 4096 := rfl
    unfold loadedPool
    split
    · rw [hsize, hoffset, hpage]
      exact if_neg (by omega)
    · rfl
  unfold ocfMetadataValidateSuperblock
  have hoffset : (smallLayout crc32).checksumOffset = 8 := rfl
  have hname : ¬ ocfCacheNameSize ≤ nameLen (fun _ => 0) := by decide
  rw [hoffset, hbytes]
  simp [smallLayout, smallSuperblock, hname, ocfUserIoClassMax, ocfCacheLineSizeIsValid, ocfCoreNum]

theorem devPage_ne_zero {p : Nat} (hp : 224 ≤ p) : devPage smallDevice p ≠ zeroPage := by
  intro h
  have hbyte : (if 224 * pageSize ≤ p * pageSize + 0 then (1 : UInt8) else 0) = 0 :=
    congrFun h ⟨0, Nat.succ_pos 4095⟩
  have hge : 224 * pageSize ≤ p * pageSize := Nat.mul_le_mul_right _ hp
  rw [if_pos (by omega)] at hbyte
  exact absurd hbyte (by decide)

theorem devUuid_ne_zero (crc32 : UInt32 → List UInt8 → UInt32) (idx : Nat) :
    devUuid (smallLayout crc32) smallDevice idx 0 ≠ zeroPage := by
  have hge : 224 ≤ RawDynamic.copyOffset (smallLayout crc32).coreUuid idx := Nat.le_add_right 224 _
  exact devPage_ne_zero hge

/-- A load that finds no buffer for the second page of the core UUIDs fails and
leaves the first page replaced, whatever the checksum function. -/
theorem failed_load_replaces_coreUuid :
    ¬ ∃ crc32 : UInt32 → List UInt8 → UInt32, ∀ (l : Layout) (dev : Bytes) (env : Environment)
      (m : Memory) (r : Memory × Int), l.crc32 = crc32 → ocfMetadataLoadSuperblock l dev env m = some r →
      AllOrNothing l dev ocfMetadataLoadSbLoadSegmentArgs m r := by
  rintro ⟨crc32, h⟩
  obtain ⟨r, hrun, hiff, -⟩ := @loadWith_spec (smallLayout crc32) smallDevice oneBuffer emptyMemory
    [.sbRuntime, .partConfig, .partRuntime, .coreConfig] (by decide)
  have hkept := hiff.mp (h _ _ _ _ r rfl hrun)
  have hreach : ReachesCoreUuid (smallLayout crc32) smallDevice oneBuffer
      (ramArgs [.sbRuntime, .partConfig, .partRuntime, .coreConfig]) emptyMemory :=
    ⟨rfl, fun _ => ⟨rfl, rfl⟩, ⟨rfl, rfl⟩, smallSuperblock_valid crc32, fun _ _ => ⟨rfl, rfl⟩⟩
  have hfails : ¬ Completes (smallLayout crc32) smallDevice oneBuffer
      (ramArgs [.sbRuntime, .partConfig, .partRuntime, .coreConfig]) emptyMemory := by
    intro hcompletes
    exact hcompletes.coreUuid 1 Nat.one_lt_two
      (.inr ⟨1, le_rfl, .inr ⟨rfl, .inr (devUuid_ne_zero crc32 _)⟩⟩)
  have hgoes : ¬ UuidEnds (smallLayout crc32) smallDevice oneBuffer emptyMemory 0 := by
    intro hends
    cases hends with
    | inl hmemory => exact absurd hmemory (by decide)
    | inr hstop =>
      obtain ⟨q, hq, hstop⟩ := hstop
      obtain rfl := Nat.le_zero.mp hq
      cases hstop with
      | inl hread => exact hread.2 rfl
      | inr hstarved => exact absurd hstarved.1 (by decide)
  exact devUuid_ne_zero crc32 _ (hkept hreach hfails 0 Nat.two_pos hgoes)

end OcfCache.SuperblockLoad
