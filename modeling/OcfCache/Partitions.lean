import OcfCache.LruList
import OcfCache.Requests

/-!
# Partitions and the state of the eviction policies

The user partitions with their configuration and occupancy, the free lists,
and the runtime data of the two eviction policies. The locks of cache lines
and hash buckets appear as what a try-lock of the running request sees. Counts
of cache lines per partition are integers, as the atomic counters of the
source are.
-/

namespace OcfCache.Partitions

open Function Metadata LruList

/-- `PARTITION_FREELIST`. -/
def partitionFreelist : Nat := ocfUserIoClassMax + 1

/-- `struct ocf_part`: a user partition or one of the two free lists. -/
inductive Part
  | user (id : Nat)
  | free
  | freeDetached
  deriving DecidableEq, Repr

/-- `part->id`; the two free lists share one. -/
def Part.id : Part → Nat
  | .user id => id
  | .free => partitionFreelist
  | .freeDetached => partitionFreelist

/-- Partitions that are set up: the user partitions of the configuration and
the free lists. -/
def Part.Exists : Part → Prop
  | .user id => id < ocfUserIoClassMax
  | .free => True
  | .freeDetached => True

instance : DecidablePred Part.Exists
  | .user id => inferInstanceAs (Decidable (id < ocfUserIoClassMax))
  | .free => .isTrue trivial
  | .freeDetached => .isTrue trivial

/-- `struct ocf_user_part_config`. -/
structure UserPartConfig where
  /-- Minimum size in percent. -/
  minSize : Nat
  /-- Maximum size in percent. -/
  maxSize : Nat
  /-- `flags.eviction`. -/
  eviction : Bool
  /-- Priority, the lower the number the higher. -/
  priority : Int
  deriving DecidableEq, Repr

/-- Eviction policies. -/
inductive EvictionPolicy
  | lru
  | lfu
  deriving DecidableEq, Repr

/-- Index of an LRU list. -/
structure ListKey where
  /-- Partition of the list. -/
  part : Part
  /-- Number of the list in the partition. -/
  idx : Nat
  /-- The list of the clean lines. -/
  clean : Bool
  deriving DecidableEq, Repr

/-- `struct ocf_lfu_meta`; `END_MARKER` is `none`. -/
structure LfuMeta where
  /-- Neighbour towards the head. -/
  prev : Option Nat
  /-- Neighbour towards the tail. -/
  next : Option Nat
  /-- The line is on a list of clean lines. -/
  clean : Bool
  /-- Frequency bucket. -/
  freq : Nat
  /-- Number of hits. -/
  hits : Nat
  deriving DecidableEq, Repr

/-- `struct ocf_lfu_list`. -/
structure LfuHead where
  /-- First line. -/
  head : Option Nat
  /-- Last line. -/
  tail : Option Nat
  /-- Number of lines. -/
  numNodes : Nat
  deriving DecidableEq, Repr

/-- Index of an LFU list. -/
structure LfuKey where
  /-- Partition of the list. -/
  part : Part
  /-- Shard. -/
  shard : Nat
  /-- Frequency bucket. -/
  freq : Nat
  /-- The list of the clean lines. -/
  clean : Bool
  deriving DecidableEq, Repr

/-- State of the cache as the eviction code sees it. -/
structure Cache where
  /-- Eviction policy. -/
  policy : EvictionPolicy
  /-- Cache line metadata. -/
  md : LineTable
  /-- `runtime->curr_size` of each partition. -/
  currSize : Part → Int
  /-- `runtime->evict_counter` of each user partition. -/
  evictCounter : Nat → Int
  /-- Configuration of the user partitions. -/
  config : Nat → UserPartConfig
  /-- `user_part_list`, the order of `for_each_user_part`. -/
  userPartList : List Nat
  /-- LRU nodes of the cache lines. -/
  lruNodes : Nodes
  /-- LRU lists. -/
  lruLists : ListKey → LruHead
  /-- LFU nodes of the cache lines. -/
  lfuNodes : Nat → LfuMeta
  /-- LFU lists. -/
  lfuLists : LfuKey → LfuHead
  /-- `lru_idx` of the queue of the running request. -/
  lruIdx : Nat
  /-- A try-lock for write of the cache line fails. -/
  lineLocked : Nat → Bool
  /-- A try-lock of the hash bucket of a core line fails. -/
  hashLocked : Nat → Nat → Bool
  /-- Requests wait for the cache line. -/
  waiters : Nat → Bool

/-- Change the occupancy of a partition. -/
def Cache.addSize (c : Cache) (part : Part) (n : Int) : Cache :=
  { c with currSize := update c.currSize part (c.currSize part + n) }

/-- `ocf_metadata_set_partition_id`. -/
def ocfMetadataSetPartitionId (c : Cache) (line id : Nat) : Cache :=
  { c with md := { c.md with partitionId := update c.md.partitionId line id } }

/-- `env_atomic_dec(&src->runtime->curr_size)` and `env_atomic_inc` for the
destination, with the partition of the line. -/
def Cache.moveSize (c : Cache) (line : Nat) (src dst : Part) : Cache :=
  ((ocfMetadataSetPartitionId c line dst.id).addSize src (-1)).addSize dst 1

/-- Take the write lock of a cache line. -/
def lockLine (c : Cache) (cline : Nat) : Cache :=
  { c with lineLocked := update c.lineLocked cline true }

/-- A cache line lies in the core range of the request. -/
def inRequestRange (g : Geometry) (c : Cache) (req : Requests.Request) (line : Nat) : Bool :=
  (c.md.coreInfo line).1 == req.coreId &&
    decide (req.coreLineFirst g ≤ (c.md.coreInfo line).2) &&
    decide ((c.md.coreInfo line).2 ≤ req.coreLineLast g)

/-- `struct ocf_lru_iter` and `struct ocf_lfu_iter`. The bitmap of available
lists is indexed by list; the source keeps it rotated to the current one. -/
structure Iter where
  /-- `lru_idx`. -/
  lruIdx : Nat
  /-- `lru_element_idx`. -/
  lruElementIdx : Nat
  /-- Lists not found empty yet. -/
  avail : Nat → Bool
  /-- `num_avail_lrus`. -/
  numAvailLrus : Nat
  /-- `current_shard` of the LFU iterator. -/
  currentShard : Nat

/-- `_lru_iter_eviction_lock` and `_lfu_iter_eviction_lock`. -/
def evictionLock (g : Geometry) (c : Cache) (req : Requests.Request) (line : Nat) : Bool :=
  !c.lineLocked line && !inRequestRange g c req line &&
    !c.hashLocked (c.md.coreInfo line).1 (c.md.coreInfo line).2 && !c.waiters line

/-- Walk a list from its tail to the first line that can be locked. -/
def scanTail (prev : Nat → Option Nat) (lock : Nat → Bool) : Nat → Option Nat → Option Nat
  | 0, _ => none
  | _ + 1, none => none
  | fuel + 1, some x => if lock x then some x else scanTail prev lock fuel (prev x)

theorem scanTail_spec {prev : Nat → Option Nat} {lock : Nat → Bool} {fuel : Nat}
    {start : Option Nat} {x : Nat} (p : Nat → Prop) (hstart : ∀ y, start = some y → p y)
    (hprev : ∀ y z, p y → prev y = some z → p z) (h : scanTail prev lock fuel start = some x) :
    p x ∧ lock x = true := by
  induction fuel generalizing start with
  | zero => cases h
  | succ fuel ih =>
    cases start with
    | none => cases h
    | some y =>
      simp only [scanTail] at h
      split at h
      · rename_i hlock
        have hxy : y = x := Option.some.inj h
        exact ⟨hxy ▸ hstart y rfl, hxy ▸ hlock⟩
      · exact ih (fun z hz => hprev y z (hstart y rfl) hz) h

theorem taken_cases {c c' : Cache} {it' : Iter} {found : Option Nat} {r : Option Nat × Iter}
    {take : Nat → Iter → Option Cache} (h : (match r with
      | (none, it) => some (c, it, none)
      | (some x, it) => (take x it).map fun c => (lockLine c x, it, some x)) = some (c', it', found)) :
    (r = (none, it') ∧ found = none ∧ c' = c) ∨
      ∃ x c1, r = (some x, it') ∧ take x it' = some c1 ∧ found = some x ∧ c' = lockLine c1 x := by
  obtain ⟨line, it⟩ := r
  cases line with
  | none =>
    cases h
    exact .inl ⟨rfl, rfl, rfl⟩
  | some x =>
    obtain ⟨c1, h1, h2⟩ := Option.map_eq_some_iff.mp h
    cases h2
    exact .inr ⟨x, c1, rfl, h1, rfl, rfl⟩

end OcfCache.Partitions
