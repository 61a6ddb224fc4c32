import Mathlib.Algebra.Group.Int.Defs
import Mathlib.Data.Nat.Log
import OcfCache.Constants

/-!
# Layout of the metadata on the cache device

Embedding of the part of `metadata.c` that places the metadata segments and
computes the number of cache lines. The sizes of the stored structures are those
of a 64-bit platform. The result `none` is an `ENV_BUG_ON`, or a loop that does
not end.
-/

namespace OcfCache.MetadataSize

/-- `OCF_CACHE_SIZE_MIN`. -/
def ocfCacheSizeMin : Nat := 40 * 2 ^ 20

/-- `OCF_METADATA_HASH_DIFF_MAX`. -/
def ocfMetadataHashDiffMax : Nat := 1000

/-- `OCF_NUM_PARTITIONS`. -/
def ocfNumPartitions : Nat := ocfUserIoClassMax + 3

/-- `-OCF_ERR_INVAL_CACHE_DEV`. -/
def invalCacheDev : Int := -1000046

/-- `OCF_DIV_ROUND_UP`. -/
def divRoundUp (x y : Nat) : Nat := (x + y - 1) / y

/-- `enum ocf_metadata_segment_id`. -/
inductive SegmentId
  /-- Super block, configuration. -/
  | sbConfig
  /-- Super block, runtime. -/
  | sbRuntime
  /-- Reserved space. -/
  | reserved
  /-- Partitions, configuration. -/
  | partConfig
  /-- Partitions, runtime. -/
  | partRuntime
  /-- Cores, configuration. -/
  | coreConfig
  /-- Cores, runtime. -/
  | coreRuntime
  /-- Identifiers of the cores. -/
  | coreUuid
  /-- Cleaning policy. -/
  | cleaning
  /-- Eviction policy. -/
  | eviction
  /-- Collision table. -/
  | collision
  /-- Collision lists. -/
  | listInfo
  /-- Hash table. -/
  | hash
  deriving DecidableEq

/-- Segments below `metadata_segment_fixed_size_max`. -/
def fixedSegments : List SegmentId :=
  [.sbConfig, .sbRuntime, .reserved, .partConfig, .partRuntime, .coreConfig, .coreRuntime, .coreUuid]

/-- Segments from `metadata_segment_variable_size_start` on. -/
def variableSegments : List SegmentId := [.cleaning, .eviction, .collision, .listInfo, .hash]

/-- `enum ocf_metadata_raw_type`. -/
inductive RawType
  /-- In memory and on the device. -/
  | ram
  /-- Allocated when used. -/
  | dynamic
  /-- In memory only. -/
  | volatile
  /-- On an atomic device. -/
  | atomic

/-- `ocf_cache_line_size_t`. -/
inductive LineSize
  /-- 4 KiB. -/
  | k4
  /-- 8 KiB. -/
  | k8
  /-- 16 KiB. -/
  | k16
  /-- 32 KiB. -/
  | k32
  /-- 64 KiB. -/
  | k64

/-- Bytes of a cache line. -/
def LineSize.bytes : LineSize → Nat
  | .k4 => 4096
  | .k8 => 8192
  | .k16 => 16384
  | .k32 => 32768
  | .k64 => 65536

/-- `ocf_eviction_t`. -/
inductive Eviction
  /-- Least recently used. -/
  | lru
  /-- Least frequently used. -/
  | lfu

/-- Configuration of a cache. -/
structure Config where
  /-- `is_volatile`. -/
  isVolatile : Bool
  /-- `ocf_volume_is_atomic`. -/
  atomicVolume : Bool
  /-- The build has `OCF_BLOCK_SIZE_4K`. -/
  blockSize4k : Bool
  /-- Cache line size. -/
  lineSize : LineSize
  /-- Eviction policy. -/
  eviction : Eviction
  /-- `cleaner_disabled`. -/
  cleanerDisabled : Bool

/-- `struct ocf_metadata_raw`. -/
structure Raw where
  /-- `metadata_segment`. -/
  segment : SegmentId
  /-- `raw_type`. -/
  rawType : RawType
  /-- The segment is not used. -/
  disabled : Bool
  /-- Size of an entry. -/
  entrySize : Nat
  /-- Entries of a page. -/
  entriesInPage : Nat
  /-- Number of entries. -/
  entries : Nat
  /-- The segment is stored twice. -/
  flapping : Bool
  /-- First page. -/
  ssdPagesOffset : Nat
  /-- Pages of the entries. -/
  ssdPages : Nat

/-- `struct ocf_metadata_ctrl`. -/
structure Ctrl where
  /-- `cachelines`. -/
  cachelines : Nat
  /-- `count_pages_fixed`. -/
  countPagesFixed : Nat
  /-- `count_pages_variable`. -/
  countPagesVariable : Nat
  /-- `device_lines`. -/
  deviceLines : Nat
  /-- Descriptors of the segments. -/
  rawDesc : List Raw

/-- `BYTES_TO_BLOCKS`. -/
def Config.bytesToBlocks (cfg : Config) (x : Nat) : Nat :=
  if cfg.blockSize4k then (x + 4095) / 4096 else (x + 511) / 512

/-- `ocf_metadata_status_sizeof`: the bits of valid and dirty blocks. -/
def Config.statusSizeof (cfg : Config) : Nat :=
  (match cfg.lineSize, cfg.blockSize4k with
    | .k4, true => 0
    | size, _ => divRoundUp (cfg.bytesToBlocks size.bytes) 8) * 2

/-- `ocf_metadata_get_entries`. -/
def ocfMetadataGetEntries (type : SegmentId) (cacheLines : Nat) : Option Nat :=
  if type ∈ variableSegments ∧ cacheLines = 0 then none
  else some (match type with
    | .collision => cacheLines
    | .cleaning => cacheLines
    | .eviction => cacheLines
    | .listInfo => cacheLines
    | .hash => (cacheLines + 3) % 2 ^ 32 / 4
    -- `sizeof(struct ocf_superblock_config)` and `sizeof(struct ocf_superblock_runtime)`
    | .sbConfig => divRoundUp 2968 pageSize
    | .sbRuntime => divRoundUp 4 pageSize
    | .reserved => 32
    | .partConfig => ocfUserIoClassMax + 1
    | .partRuntime => ocfNumPartitions
    | .coreConfig => ocfCoreNum
    | .coreRuntime => ocfCoreNum
    | .coreUuid => ocfCoreNum)

/-- `ocf_metadata_get_element_size` and `ocf_metadata_get_eviction_size`: the
sizes of the structures. -/
def Config.elementSize (cfg : Config) : SegmentId → Nat
  | .cleaning => 12
  | .collision => 8 + cfg.statusSizeof
  | .listInfo => 8
  | .sbConfig => pageSize
  | .sbRuntime => pageSize
  | .reserved => pageSize
  | .partConfig => 1040
  | .partRuntime => 20
  | .hash => 4
  | .coreConfig => 128
  | .coreRuntime => 296
  | .coreUuid => 4096
  | .eviction => match cfg.eviction with
    | .lru => 9
    | .lfu => 16

/-- `ocf_metadata_is_flapped`. -/
def ocfMetadataIsFlapped : SegmentId → Bool
  | .partConfig => true
  | .coreConfig => true
  | .coreUuid => true
  | _ => false

/-- Type of the descriptor of a segment. -/
def Config.rawType (cfg : Config) (type : SegmentId) : RawType :=
  if cfg.isVolatile then .volatile
  else if type = .coreUuid then .dynamic
  else if type = .collision ∧ cfg.atomicVolume = true then .atomic
  else .ram

/-- `_raw_ram_segment_size_on_ssd`: segments are aligned to 128 KiB. -/
def segmentSizeOnSsd (ssdPages : Nat) : Nat := divRoundUp ssdPages 32 * 32 % 2 ^ 32

/-- `ocf_metadata_raw_size_on_ssd`. -/
def Raw.sizeOnSsd (raw : Raw) : Nat :=
  match raw.rawType with
  | .volatile => 0
  | _ => segmentSizeOnSsd raw.ssdPages * (if raw.flapping then 2 else 1) % 2 ^ 32

/-- The descriptor of a segment with its entries, from an offset on. -/
def Config.raw (cfg : Config) (type : SegmentId) (entries offset : Nat) : Raw where
  segment := type
  rawType := cfg.rawType type
  disabled := false
  entrySize := cfg.elementSize type
  entriesInPage := pageSize / cfg.elementSize type
  entries := entries
  flapping := ocfMetadataIsFlapped type
  ssdPagesOffset := offset
  ssdPages := divRoundUp entries (pageSize / cfg.elementSize type)

/-- The descriptor of a segment that is not used. -/
def Config.disabledRaw (cfg : Config) (type : SegmentId) : Raw where
  segment := type
  rawType := cfg.rawType type
  disabled := true
  entrySize := 0
  entriesInPage := 0
  entries := 0
  flapping := false
  ssdPagesOffset := 0
  ssdPages := 0

/-- The loops over the segments: descriptors, and the pages after `page`. -/
def Config.place (cfg : Config) (cacheLines base : Nat) : List SegmentId → Nat → Option (List Raw × Nat)
  | [], page => some ([], page)
  | type :: types, page =>
    if type = .cleaning ∧ cfg.cleanerDisabled = true then
      (cfg.place cacheLines base types page).map fun r => (cfg.disabledRaw type :: r.1, r.2)
    else do
      let entries ← ocfMetadataGetEntries type cacheLines
      let raw := cfg.raw type entries ((base + page) % 2 ^ 32)
      let r ← cfg.place cacheLines base types ((page + raw.sizeOnSsd) % 2 ^ 32)
      pure (raw :: r.1, r.2)

/-- `ocf_metadata_ctrl_init`. -/
def ocfMetadataCtrlInit (cfg : Config) : Option Ctrl :=
  (cfg.place 0 0 fixedSegments 0).map fun r => ⟨0, r.2, 0, 0, r.1⟩

/-- `ocf_metadata_calculate_exception_hndl`. -/
def ocfMetadataCalculateExceptionHndl (unusedLines deviceLines : Int) : Bool :=
  if unusedLines < 0 then false
  else decide (90 ≤ ((deviceLines - unusedLines) * 100).tdiv deviceLines)

/-- Variables of `ocf_metadata_calculate_metadata_size`. -/
structure Calc where
  /-- `i_diff`. -/
  iDiff : Nat
  /-- `diff_lines`. -/
  diffLines : Int
  /-- `cache_lines`. -/
  cacheLines : Int
  /-- `lowest_diff`. -/
  lowestDiff : Int

/-- The difference between the cache lines that fit beside the metadata and the
given ones. The division is one of unsigned numbers. -/
def diffLines (cfg : Config) (ctrl : Ctrl) (countPages : Nat) (cacheLines : Int) : Int :=
  let diff : Int := (ctrl.deviceLines * cfg.lineSize.bytes : Nat)
  let diff := diff - ((ctrl.countPagesFixed + countPages) % 2 ^ 32 * pageSize : Nat)
  diff % 2 ^ 64 / cfg.lineSize.bytes - cacheLines

/-- The end of `ocf_metadata_calculate_metadata_size`. -/
def calcEnd (ctrl : Ctrl) (raws : List Raw) (countPages : Nat) (cacheLines : Int) : Int × Ctrl :=
  let cachelines := (cacheLines % 2 ^ 32).toNat
  (if ctrl.deviceLines < cachelines then -1 else 0,
    { ctrl with countPagesVariable := countPages, cachelines, rawDesc := ctrl.rawDesc ++ raws })

/-- The loop of `ocf_metadata_calculate_metadata_size`. -/
def calcLoop (cfg : Config) (ctrl : Ctrl) : Nat → Calc → Option (Int × Ctrl)
  | 0, _ => none
  | fuel + 1, c => do
    let (raws, countPages) ← cfg.place (c.cacheLines % 2 ^ 32).toNat ctrl.countPagesFixed variableSegments 0
    if ocfMetadataHashDiffMax ≤ c.iDiff ∧ ocfMetadataCalculateExceptionHndl c.diffLines ctrl.deviceLines = true then
      pure (calcEnd ctrl raws countPages c.cacheLines)
    else if 2 * ocfMetadataHashDiffMax < c.iDiff then pure (-1, ctrl)
    else
      let diff := diffLines cfg ctrl countPages c.cacheLines
      if 0 < diff ∧ diff = c.lowestDiff then pure (calcEnd ctrl raws countPages c.cacheLines)
      else
        let cacheLines := c.cacheLines + diff
        if diff = 0 then pure (calcEnd ctrl raws countPages cacheLines)
        else
          calcLoop cfg ctrl fuel
            ⟨c.iDiff + 1, diff, cacheLines, if 0 < diff ∧ diff < c.lowestDiff then diff else c.lowestDiff⟩

/-- `ocf_metadata_calculate_metadata_size`; the iterations are limited by the
loop itself. -/
def ocfMetadataCalculateMetadataSize (cfg : Config) (ctrl : Ctrl) : Option (Int × Ctrl) :=
  calcLoop cfg ctrl (2 * ocfMetadataHashDiffMax + 2) ⟨0, 0, ctrl.deviceLines, ctrl.deviceLines⟩

/-- `ocf_metadata_init_variable_size` for a device, up to the computed layout. -/
def ocfMetadataInitVariableSize (cfg : Config) (ctrl : Ctrl) (deviceSize : Nat) : Option (Int × Ctrl) :=
  let deviceLines := deviceSize / cfg.lineSize.bytes
  if ocfCacheLineMax < deviceLines then some (invalCacheDev, ctrl)
  else do
    let (result, ctrl) ← ocfMetadataCalculateMetadataSize cfg { ctrl with deviceLines }
    pure (if result ≠ 0 then invalCacheDev else 0, ctrl)

end OcfCache.MetadataSize
