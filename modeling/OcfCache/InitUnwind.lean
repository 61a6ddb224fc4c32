import OcfCache.Unwind
import OcfCache.CleaningSwitch
import OcfCache.Lfu
import OcfCache.Lru

/-!
# Unwinding of failed initialisations

Embedding of `ocf_metadata_concurrency_init` and `_ocf_mngt_init_new_cache`
with the labels they unwind through. Every initialisation may fail, and the
resources of the world tell what is torn down. The module shows after which
failures exactly the resources set up so far are torn down, and none is used
that is not set up.
-/

namespace OcfCache.InitUnwind

open Unwind Lru Lfu Alru CleaningSwitch

/-- Locks of `struct ocf_metadata_lock` that have to be initialised. -/
inductive MetadataLock
  /-- `lru[i]`. -/
  | lru (i : Nat)
  /-- `lfu[i]`. -/
  | lfu (i : Nat)
  /-- `global[i].sem`. -/
  | global (i : Nat)
  /-- `partition[i]`. -/
  | partition (i : Nat)
  deriving DecidableEq

namespace MetadataLock

/-- Locks that are elements of their arrays. -/
def Exists : MetadataLock → Prop
  | lru i => i < ocfNumLruLists
  | lfu i => i < lfuNumShards
  | global i => i < ocfNumGlobalMetaLocks
  | partition i => i < ocfUserIoClassMax

end MetadataLock

section MetadataLocks

/-- Label `lfu_err`. -/
def lfuErr (lfuIter : Nat) (err : Int) (w : World MetadataLock) : Int × World MetadataLock :=
  (err, destroyDown .lfu lfuIter w)

/-- Label `lru_err`. -/
def lruErr (lruIter lfuIter : Nat) (err : Int) (w : World MetadataLock) : Int × World MetadataLock :=
  lfuErr lfuIter err (destroyDown .lru lruIter w)

/-- Label `global_err`. -/
def globalErr (globalIter lruIter lfuIter : Nat) (err : Int) (w : World MetadataLock) :
    Int × World MetadataLock :=
  lruErr lruIter lfuIter err (destroyDown .global globalIter w)

/-- Label `partition_err`. -/
def partitionErr (partIter globalIter lruIter lfuIter : Nat) (err : Int) (w : World MetadataLock) :
    Int × World MetadataLock :=
  globalErr globalIter lruIter lfuIter err (destroyDown .partition partIter w)

/-- `ocf_metadata_concurrency_init`, with the results of the initialisations and
the value of `lfu_iter` before it is set. -/
def ocfMetadataConcurrencyInit (call : MetadataLock → Int) (unset : Nat) (w : World MetadataLock) :
    Int × World MetadataLock :=
  let lru := initLoop (fun i => call (.lru i)) .lru ocfNumLruLists 0 w
  if lru.err ≠ 0 then lruErr lru.iter unset lru.err lru.world
  else
    let lfu := initLoop (fun i => call (.lfu i)) .lfu lfuNumShards 0 lru.world
    if lfu.err ≠ 0 then lfuErr lfu.iter lfu.err lfu.world
    else
      let global := initLoop (fun i => call (.global i)) .global ocfNumGlobalMetaLocks 0 lfu.world
      if global.err ≠ 0 then globalErr global.iter lru.iter lfu.iter global.err global.world
      else
        let part := initLoop (fun i => call (.partition i)) .partition ocfUserIoClassMax 0 global.world
        if part.err ≠ 0 then
          partitionErr part.iter global.iter lru.iter lfu.iter part.err part.world
        else (part.err, part.world)

end MetadataLocks

/-- What `_ocf_mngt_init_new_cache` sets up. -/
inductive CacheResource
  /-- The memory of the cache. -/
  | memory
  /-- `refcnt.lock`. -/
  | lockRefcnt
  /-- `lock.waiters_lock`. -/
  | waitersLock
  /-- `refcnt.cache`. -/
  | cacheRefcnt
  /-- `refcnt.dirty`. -/
  | dirtyRefcnt
  /-- `refcnt.metadata`. -/
  | metadataRefcnt
  /-- `refcnt.d2c`. -/
  | d2cRefcnt
  /-- `user_parts[i].cleaning.counter`. -/
  | cleaningRefcnt (i : Nat)
  /-- The cache lock is taken. -/
  | locked
  /-- `flush_mutex`. -/
  | flushMutex
  /-- `io_queues_lock`. -/
  | ioQueuesLock
  deriving DecidableEq

/-- Resources of a cache; the counters are those of the loop. -/
def CacheResource.Exists : CacheResource → Prop
  | .cleaningRefcnt i => i < ocfUserIoClassMax
  | _ => True

section NewCache

/-- `ocf_mngt_cache_lock_init`. -/
def ocfMngtCacheLockInit (call : CacheResource → Int) (w : World CacheResource) :
    Int × World CacheResource :=
  if call .lockRefcnt ≠ 0 then (call .lockRefcnt, w)
  else
    let w := w.init .lockRefcnt
    if call .waitersLock ≠ 0 then (call .waitersLock, w.destroy .lockRefcnt)
    else (0, w.init .waitersLock)

/-- `_ocf_mngt_cache_lock_deinit`. -/
def lockZeroCallback (w : World CacheResource) : World CacheResource :=
  ((w.destroy .waitersLock).touch .cacheRefcnt).destroy .lockRefcnt

/-- `ocf_mngt_cache_lock_deinit`. It takes a reference of the cache, which may
not fail, and its callback gives it back. The counter of the lock is zero, so
the callback runs at once. -/
def ocfMngtCacheLockDeinit (w : World CacheResource) : World CacheResource :=
  lockZeroCallback ((w.touch .cacheRefcnt).touch .lockRefcnt)

/-- The counters that `ocf_mngt_cache_trylock` uses. -/
def ocfMngtCacheTrylock (w : World CacheResource) : World CacheResource :=
  (w.touch .cacheRefcnt).touch .lockRefcnt

/-- `ocf_mngt_cache_unlock`. -/
def ocfMngtCacheUnlock (w : World CacheResource) : World CacheResource :=
  (w.destroy .locked).touch .cacheRefcnt

/-- Label `alloc_err`. -/
def allocErr (result : Int) (w : World CacheResource) : Int × World CacheResource :=
  (result, w.destroy .memory)

/-- Label `lock_init_err`. -/
def lockInitErr (result : Int) (w : World CacheResource) : Int × World CacheResource :=
  allocErr result (ocfMngtCacheLockDeinit w)

/-- Label `dirty_refcnt_err`. -/
def dirtyRefcntErr (result : Int) (w : World CacheResource) : Int × World CacheResource :=
  lockInitErr result (w.destroy .cacheRefcnt)

/-- Label `metadata_refcnt_err`. -/
def metadataRefcntErr (result : Int) (w : World CacheResource) : Int × World CacheResource :=
  dirtyRefcntErr result (w.destroy .dirtyRefcnt)

/-- Label `d2c_refcnt_err`. -/
def d2cRefcntErr (result : Int) (w : World CacheResource) : Int × World CacheResource :=
  metadataRefcntErr result (w.destroy .metadataRefcnt)

/-- Label `cleaning_refcnt_err`: the loop is `for (; i >= 0; i--)`. -/
def cleaningRefcntErr (i : Nat) (result : Int) (w : World CacheResource) :
    Int × World CacheResource :=
  d2cRefcntErr result ((destroyDown .cleaningRefcnt (i + 1) w).destroy .d2cRefcnt)

/-- Label `lock_err`. -/
def lockErr (i : Nat) (result : Int) (w : World CacheResource) : Int × World CacheResource :=
  cleaningRefcntErr i result (ocfMngtCacheUnlock w)

/-- Label `mutex_err`. -/
def mutexErr (i : Nat) (result : Int) (w : World CacheResource) : Int × World CacheResource :=
  lockErr i result (w.destroy .flushMutex)

/-- Label `cache_refcnt_inc_err`. -/
def cacheRefcntIncErr (i : Nat) (result : Int) (w : World CacheResource) :
    Int × World CacheResource :=
  mutexErr i result (w.destroy .ioQueuesLock)

/-- `_ocf_mngt_init_new_cache` from the first `env_refcnt_init` of the counters
of the partitions on. -/
def initCleaningCounters (call : CacheResource → Int) (inc : Bool) (w : World CacheResource) :
    Int × World CacheResource :=
  let parts := initLoop (fun i => call (.cleaningRefcnt i)) .cleaningRefcnt ocfUserIoClassMax 0 w
  if parts.err ≠ 0 then cleaningRefcntErr parts.iter parts.err parts.world
  else
    let w := ocfMngtCacheTrylock parts.world
    if call .locked ≠ 0 then cleaningRefcntErr parts.iter (call .locked) w
    else
      let w := w.init .locked
      if call .flushMutex ≠ 0 then lockErr parts.iter errNoMem w
      else
        let w := w.init .flushMutex
        if call .ioQueuesLock ≠ 0 then mutexErr parts.iter (call .ioQueuesLock) w
        else
          let w := (w.init .ioQueuesLock).touch .cacheRefcnt
          if inc = false then cacheRefcntIncErr parts.iter 1 w
          -- the counter of the metadata is frozen
          else (0, w.touch .metadataRefcnt)

/-- `_ocf_mngt_init_new_cache`, with the results of the initialisations, of the
`trylock` and of the increment of the cache counter. -/
def ocfMngtInitNewCache (call : CacheResource → Int) (inc : Bool) (w : World CacheResource) :
    Int × World CacheResource :=
  if call .memory ≠ 0 then (errNoMem, w)
  else
    let lock := ocfMngtCacheLockInit call (w.init .memory)
    if lock.1 ≠ 0 then allocErr errNoMem lock.2
    else if call .cacheRefcnt ≠ 0 then lockInitErr (call .cacheRefcnt) lock.2
    else
      let w := lock.2.init .cacheRefcnt
      if call .dirtyRefcnt ≠ 0 then dirtyRefcntErr (call .dirtyRefcnt) w
      else
        let w := w.init .dirtyRefcnt
        if call .metadataRefcnt ≠ 0 then metadataRefcntErr (call .metadataRefcnt) w
        else
          let w := w.init .metadataRefcnt
          if call .d2cRefcnt ≠ 0 then d2cRefcntErr (call .d2cRefcnt) w
          else initCleaningCounters call inc (w.init .d2cRefcnt)

end NewCache

section MetadataLockSpec

variable {call : MetadataLock → Int}

/-- Live locks once the arrays of LRU and LFU locks are set up. -/
def listLocks : Set MetadataLock := firsts .lru ocfNumLruLists ∪ firsts .lfu lfuNumShards

theorem globalErr_exact {all : Set MetadataLock} {w : World MetadataLock} {n : Nat} {err : Int}
    (herr : err ≠ 0) (h : w.Holds (listLocks ∪ firsts .global n)) :
    Exact all (globalErr n ocfNumLruLists lfuNumShards err w).1
      (globalErr n ocfNumLruLists lfuNumShards err w).2 := by
  have hglobal := destroyDown_spec (fun _ _ h => MetadataLock.global.inj h) n h
    fun i hi => .inr ⟨i, hi, rfl⟩
  have hlru := destroyDown_spec (fun _ _ h => MetadataLock.lru.inj h) ocfNumLruLists hglobal
    fun i hi => ⟨.inl (.inl ⟨i, hi, rfl⟩), by simp [firsts]⟩
  have hlfu := destroyDown_spec (fun _ _ h => MetadataLock.lfu.inj h) lfuNumShards hlru
    fun i hi => ⟨⟨.inl (.inr ⟨i, hi, rfl⟩), by simp [firsts]⟩, by simp [firsts]⟩
  refine .inr ⟨herr, hlfu.congr ?_⟩
  ext l
  simp only [listLocks, Set.mem_sdiff, Set.mem_union, Set.mem_empty_iff_false, iff_false]
  tauto

theorem partitionErr_exact {all : Set MetadataLock} {w : World MetadataLock} {n : Nat} {err : Int}
    (herr : err ≠ 0)
    (h : w.Holds (listLocks ∪ firsts .global ocfNumGlobalMetaLocks ∪ firsts .partition n)) :
    Exact all (partitionErr n ocfNumGlobalMetaLocks ocfNumLruLists lfuNumShards err w).1
      (partitionErr n ocfNumGlobalMetaLocks ocfNumLruLists lfuNumShards err w).2 := by
  have hpart := destroyDown_spec (fun _ _ h => MetadataLock.partition.inj h) n h
    fun i hi => .inr ⟨i, hi, rfl⟩
  refine globalErr_exact herr (hpart.congr ?_)
  ext l
  cases l <;> simp [listLocks, firsts]

/-- Once the locks of the lists are made, the rest is exact. -/
theorem concurrencyInit_exact (hlru : ∀ i < ocfNumLruLists, call (.lru i) = 0)
    (hlfu : ∀ i < lfuNumShards, call (.lfu i) = 0) (unset : Nat) :
    Exact {l | l.Exists} (ocfMetadataConcurrencyInit call unset .empty).1
      (ocfMetadataConcurrencyInit call unset .empty).2 := by
  simp only [ocfMetadataConcurrencyInit]
  have hlruEnd := initLoop_all (fun _ _ h => MetadataLock.lru.inj h)
    (fun _ => Set.notMem_empty _) World.holds_empty hlru
  generalize initLoop (fun i => call (.lru i)) MetadataLock.lru ocfNumLruLists 0 .empty = lru at hlruEnd ⊢
  obtain ⟨hlruWorld, hlruErr, hlruIter⟩ := hlruEnd
  have hlfuEnd := initLoop_all (fun _ _ h => MetadataLock.lfu.inj h)
    (fun _ => by simp [firsts]) hlruWorld hlfu
  generalize initLoop (fun i => call (.lfu i)) MetadataLock.lfu lfuNumShards 0 lru.world = lfu at hlfuEnd ⊢
  obtain ⟨hlfuWorld, hlfuErr, hlfuIter⟩ := hlfuEnd
  rw [Set.empty_union] at hlfuWorld
  have hglobalEnd := @initLoop_spec _ _ (fun i => call (.global i)) _ _ _
    (fun _ _ h => MetadataLock.global.inj h) (fun _ => by simp [firsts]) ocfNumGlobalMetaLocks
    hlfuWorld
  generalize initLoop (fun i => call (.global i)) MetadataLock.global ocfNumGlobalMetaLocks 0 lfu.world = global
    at hglobalEnd ⊢
  obtain ⟨hglobalWorld, -, hglobalEnd⟩ := hglobalEnd
  simp only [hlruErr, hlfuErr, hlruIter, hlfuIter, ne_eq, not_true_eq_false, if_false]
  by_cases hglobalErr : global.err = 0
  · have hglobalIter : global.iter = ocfNumGlobalMetaLocks := by omega
    rw [if_neg (not_not.mpr hglobalErr), hglobalIter]
    rw [hglobalIter] at hglobalWorld
    have hpartEnd := @initLoop_spec _ _ (fun i => call (.partition i)) _ _ _
      (fun _ _ h => MetadataLock.partition.inj h) (fun _ => by simp [firsts]) ocfUserIoClassMax
      hglobalWorld
    generalize initLoop (fun i => call (.partition i)) MetadataLock.partition ocfUserIoClassMax 0 global.world =
      part at hpartEnd ⊢
    obtain ⟨hpartWorld, -, hpartEnd⟩ := hpartEnd
    by_cases hpartErr : part.err = 0
    · have hpartIter : part.iter = ocfUserIoClassMax := by omega
      rw [if_neg (not_not.mpr hpartErr)]
      refine .inl ⟨hpartErr, hpartWorld.congr ?_⟩
      ext l
      cases l <;> simp [hpartIter, firsts, MetadataLock.Exists]
    · rw [if_pos hpartErr]
      exact partitionErr_exact hpartErr hpartWorld
  · rw [if_pos hglobalErr]
    exact globalErr_exact hglobalErr hglobalWorld

theorem concurrencyInit_lru {i : Nat} (hi : i < ocfNumLruLists) (hcall : call (.lru i) ≠ 0) :
    ¬Exact {l | l.Exists} (ocfMetadataConcurrencyInit call 1 .empty).1
      (ocfMetadataConcurrencyInit call 1 .empty).2 := by
  simp only [ocfMetadataConcurrencyInit]
  have hend := @initLoop_spec _ _ (fun i => call (.lru i)) _ _ _
    (fun _ _ h => MetadataLock.lru.inj h) (fun _ => Set.notMem_empty _) ocfNumLruLists
    World.holds_empty
  generalize initLoop (fun i => call (.lru i)) MetadataLock.lru ocfNumLruLists 0 .empty = lru at hend ⊢
  obtain ⟨hworld, hbefore, hend⟩ := hend
  have herr : lru.err ≠ 0 := by
    intro herr
    have hiter : lru.iter = ocfNumLruLists := by omega
    exact hcall (hbefore i (hiter ▸ hi))
  have hlru := destroyDown_spec (fun _ _ h => MetadataLock.lru.inj h) lru.iter hworld
    fun i hi => .inr ⟨i, hi, rfl⟩
  have hdead : (destroyDown MetadataLock.lru lru.iter lru.world).live (.lfu 0) = false := by
    rw [← Bool.not_eq_true, hlru.live_iff]
    simp [firsts]
  simp only [herr, ne_eq, not_false_eq_true, if_true]
  exact not_exact_of_misused (misused_destroyDown hdead)

theorem concurrencyInit_lfu (hlru : ∀ i < ocfNumLruLists, call (.lru i) = 0) {i : Nat}
    (hi : i < lfuNumShards) (hcall : call (.lfu i) ≠ 0) (unset : Nat) :
    ¬Exact {l | l.Exists} (ocfMetadataConcurrencyInit call unset .empty).1
      (ocfMetadataConcurrencyInit call unset .empty).2 := by
  simp only [ocfMetadataConcurrencyInit]
  have hlruEnd := initLoop_all (fun _ _ h => MetadataLock.lru.inj h)
    (fun _ => Set.notMem_empty _) World.holds_empty hlru
  generalize initLoop (fun i => call (.lru i)) MetadataLock.lru ocfNumLruLists 0 .empty = lru at hlruEnd ⊢
  obtain ⟨hlruWorld, hlruErr, hlruIter⟩ := hlruEnd
  have hend := @initLoop_spec _ _ (fun i => call (.lfu i)) _ _ _
    (fun _ _ h => MetadataLock.lfu.inj h) (fun _ => by simp [firsts]) lfuNumShards hlruWorld
  generalize initLoop (fun i => call (.lfu i)) MetadataLock.lfu lfuNumShards 0 lru.world = lfu at hend ⊢
  obtain ⟨hworld, hbefore, hend⟩ := hend
  have herr : lfu.err ≠ 0 := by
    intro herr
    have hiter : lfu.iter = lfuNumShards := by omega
    exact hcall (hbefore i (hiter ▸ hi))
  have hlfu := destroyDown_spec (fun _ _ h => MetadataLock.lfu.inj h) lfu.iter hworld
    fun i hi => .inr ⟨i, hi, rfl⟩
  simp only [hlruErr, herr, ne_eq, not_true_eq_false, not_false_eq_true, if_false, if_true]
  intro hexact
  have hnone := hexact.holds_empty herr
  have hleft : MetadataLock.lru 0 ∈ (∅ : Set MetadataLock) := by
    rw [hnone.unique hlfu]
    exact ⟨.inl (.inr ⟨0, Nat.succ_pos _, rfl⟩), by simp [firsts]⟩
  exact hleft

/-- `ocf_metadata_concurrency_init` unwinds exactly if and only if no LRU or LFU
lock fails. -/
theorem concurrencyInit_iff :
    (∀ unset, Exact {l | l.Exists} (ocfMetadataConcurrencyInit call unset .empty).1
      (ocfMetadataConcurrencyInit call unset .empty).2) ↔
      (∀ i < ocfNumLruLists, call (.lru i) = 0) ∧ ∀ i < lfuNumShards, call (.lfu i) = 0 := by
  constructor
  · intro h
    have hlru : ∀ i < ocfNumLruLists, call (.lru i) = 0 := by
      intro i hi
      by_contra hcall
      exact concurrencyInit_lru hi hcall (h 1)
    refine ⟨hlru, fun i hi => ?_⟩
    by_contra hcall
    exact concurrencyInit_lfu hlru hi hcall 0 (h 0)
  · rintro ⟨hlru, hlfu⟩ unset
    exact concurrencyInit_exact hlru hlfu unset

end MetadataLockSpec

section NewCacheSpec

variable {call : CacheResource → Int} {inc : Bool} {w : World CacheResource}
  {all : Set CacheResource} {result : Int}

theorem allocErr_exact (hresult : result ≠ 0) (h : w.Holds {.memory}) :
    Exact all (allocErr result w).1 (allocErr result w).2 := by
  have hmemory := h.destroy (Set.mem_singleton _)
  refine .inr ⟨hresult, hmemory.congr ?_⟩
  exact Set.sdiff_self

/-- What is set up when `lock_init_err` is reached. -/
def lockReady : Set CacheResource := {.waitersLock, .lockRefcnt, .memory}

/-- `lock_init_err` needs the counter of the cache. -/
theorem lockInitErr_misused (h : (w.touch .cacheRefcnt).misused = true) :
    (lockInitErr result w).2.misused = true := by
  simp only [lockInitErr, allocErr, ocfMngtCacheLockDeinit, lockZeroCallback]
  refine World.misused_destroy_mono (World.misused_destroy_mono ?_)
  exact World.misused_touch_mono (World.misused_destroy_mono (World.misused_touch_mono h))

/-- The exits from `dirty_refcnt_err` on tear it down before. -/
theorem dirtyRefcntErr_misused (result : Int) (w : World CacheResource) :
    (dirtyRefcntErr result w).2.misused = true :=
  lockInitErr_misused (World.misused_touch (by simp [World.destroy]))

/-- What is set up when the counters of the partitions are initialised. -/
def countersReady : Set CacheResource :=
  insert .d2cRefcnt (insert .metadataRefcnt (insert .dirtyRefcnt (insert .cacheRefcnt lockReady)))

/-- Every initialisation from the counters on succeeds. -/
def LateOk (call : CacheResource → Int) (inc : Bool) : Prop :=
  call .cacheRefcnt = 0 ∧ call .dirtyRefcnt = 0 ∧ call .metadataRefcnt = 0 ∧ call .d2cRefcnt = 0 ∧
    (∀ i < ocfUserIoClassMax, call (.cleaningRefcnt i) = 0) ∧ call .locked = 0 ∧
    call .flushMutex = 0 ∧ call .ioQueuesLock = 0 ∧ inc = true

/-- `cleaning_refcnt_err` with a counter that is not set up. -/
theorem cleaningRefcntErr_misused {i : Nat} (h : w.live (.cleaningRefcnt i) = false) :
    (cleaningRefcntErr i result w).2.misused = true := by
  have hloop := misused_destroyDown (f := CacheResource.cleaningRefcnt) h
  refine lockInitErr_misused (World.misused_touch_mono ?_)
  iterate 4 refine World.misused_destroy_mono ?_
  exact hloop

/-- Exact if and only if each of these calls succeeds. -/
theorem initCleaningCounters_iff (h : w.Holds countersReady) :
    Exact {r | r.Exists} (initCleaningCounters call inc w).1 (initCleaningCounters call inc w).2 ↔
      (∀ i < ocfUserIoClassMax, call (.cleaningRefcnt i) = 0) ∧ call .locked = 0 ∧
        call .flushMutex = 0 ∧ call .ioQueuesLock = 0 ∧ inc = true := by
  simp only [initCleaningCounters]
  have hend := @initLoop_spec _ _ (fun i => call (.cleaningRefcnt i)) _ _ _
    (fun _ _ h => CacheResource.cleaningRefcnt.inj h) (fun _ => by simp [countersReady, lockReady])
    ocfUserIoClassMax h
  generalize initLoop (fun i => call (.cleaningRefcnt i)) CacheResource.cleaningRefcnt
    ocfUserIoClassMax 0 w = parts at hend ⊢
  obtain ⟨hworld, hbefore, hend⟩ := hend
  have hdead : parts.world.live (.cleaningRefcnt parts.iter) = false := by
    rw [← Bool.not_eq_true, hworld.live_iff]
    simp [countersReady, lockReady, firsts]
  have hfails : ∀ result v, v.live (.cleaningRefcnt parts.iter) = false →
      ¬Exact {r | r.Exists} (cleaningRefcntErr parts.iter result v).1
        (cleaningRefcntErr parts.iter result v).2 :=
    fun _ _ hv => not_exact_of_misused (cleaningRefcntErr_misused hv)
  have hlock := (hworld.touch (r := .cacheRefcnt) (by simp [countersReady, lockReady])).touch
    (r := .lockRefcnt) (by simp [countersReady, lockReady])
  by_cases herr : parts.err = 0
  · have hiter : parts.iter = ocfUserIoClassMax := by omega
    rw [if_neg (not_not.mpr herr)]
    by_cases hlocked : call .locked = 0
    · rw [if_neg (not_not.mpr hlocked)]
      by_cases hmutex : call .flushMutex = 0
      · rw [if_neg (not_not.mpr hmutex)]
        by_cases hqueues : call .ioQueuesLock = 0
        · rw [if_neg (not_not.mpr hqueues)]
          by_cases hinc : inc = true
          · have hall := ((((hlock.init (r := .locked) (by simp [countersReady, lockReady, firsts])).init
              (r := .flushMutex) (by simp [countersReady, lockReady, firsts])).init
              (r := .ioQueuesLock) (by simp [countersReady, lockReady, firsts])).touch
              (r := .cacheRefcnt) (by simp [countersReady, lockReady])).touch
              (r := .metadataRefcnt) (by simp [countersReady, lockReady])
            rw [if_neg (by simp [hinc])]
            refine iff_of_true (.inl ⟨rfl, hall.congr ?_⟩)
              ⟨fun i hi => hbefore i (hiter ▸ hi), hlocked, hmutex, hqueues, hinc⟩
            ext r
            cases r <;> simp [countersReady, lockReady, firsts, hiter, CacheResource.Exists]
          · rw [if_pos (Bool.not_eq_true _ ▸ hinc)]
            refine iff_of_false (hfails _ _ ?_) fun hok => hinc hok.2.2.2.2
            simp [ocfMngtCacheTrylock, ocfMngtCacheUnlock, World.init, World.destroy, World.touch, hdead]
        · rw [if_pos hqueues]
          refine iff_of_false (hfails _ _ ?_) fun hok => hqueues hok.2.2.2.1
          simp [ocfMngtCacheTrylock, ocfMngtCacheUnlock, World.init, World.destroy, World.touch, hdead]
      · rw [if_pos hmutex]
        refine iff_of_false (hfails _ _ ?_) fun hok => hmutex hok.2.2.1
        simp [ocfMngtCacheTrylock, ocfMngtCacheUnlock, World.init, World.destroy, World.touch, hdead]
    · rw [if_pos hlocked]
      exact iff_of_false (hfails _ _ hdead) fun hok => hlocked hok.2.1
  · rw [if_pos herr]
    refine iff_of_false (hfails _ _ hdead) fun hok => ?_
    have hcall : parts.err = call (.cleaningRefcnt parts.iter) := by omega
    exact herr (hcall.trans (hok.1 _ (by omega)))

/-- The allocation or the lock of the cache fails. -/
def EarlyError (call : CacheResource → Int) : Prop :=
  call .memory ≠ 0 ∨ call .lockRefcnt ≠ 0 ∨ call .waitersLock ≠ 0

theorem lockReady_holds :
    (((World.empty.init .memory).init .lockRefcnt).init .waitersLock).Holds lockReady := by
  have hmemory := World.holds_empty.init (Set.notMem_empty CacheResource.memory)
  have hlock := hmemory.init (r := .lockRefcnt) (by simp)
  refine (hlock.init (r := .waitersLock) (by simp)).congr ?_
  ext r
  cases r <;> simp [lockReady]

theorem initNewCache_lock (hmemory : call .memory = 0)
    (h : call .lockRefcnt ≠ 0 ∨ call .waitersLock ≠ 0) :
    Exact all (ocfMngtInitNewCache call inc .empty).1 (ocfMngtInitNewCache call inc .empty).2 := by
  have hmemoryWorld := World.holds_empty.init (Set.notMem_empty CacheResource.memory)
  rw [insert_empty_eq] at hmemoryWorld
  by_cases hlock : call .lockRefcnt = 0
  · have hwaiters : call .waitersLock ≠ 0 := h.resolve_left (not_not.mpr hlock)
    have hundone := (hmemoryWorld.init (r := .lockRefcnt) (by simp)).destroy (Set.mem_insert _ _)
    simp only [ocfMngtInitNewCache, ocfMngtCacheLockInit, hmemory, hlock, hwaiters, ne_eq,
      not_true_eq_false, not_false_eq_true, if_true, if_false]
    refine allocErr_exact (by decide) (hundone.congr ?_)
    ext r
    cases r <;> simp
  · simp only [ocfMngtInitNewCache, ocfMngtCacheLockInit, hmemory, hlock, ne_eq,
      not_true_eq_false, not_false_eq_true, if_true, if_false]
    exact allocErr_exact (by decide) hmemoryWorld

/-- `_ocf_mngt_init_new_cache` unwinds exactly if and only if the allocation or
the lock of the cache fails, or nothing at all. -/
theorem initNewCache_iff : Exact {r | r.Exists} (ocfMngtInitNewCache call inc .empty).1
      (ocfMngtInitNewCache call inc .empty).2 ↔ EarlyError call ∨ LateOk call inc := by
  by_cases hmemory : call .memory = 0
  swap
  · refine iff_of_true ?_ (.inl (.inl hmemory))
    simp only [ocfMngtInitNewCache, if_pos hmemory]
    exact .inr ⟨by decide, World.holds_empty⟩
  by_cases hlockInit : call .lockRefcnt ≠ 0 ∨ call .waitersLock ≠ 0
  · refine iff_of_true (initNewCache_lock hmemory hlockInit) (.inl ?_)
    cases hlockInit with
    | inl hlock => exact .inr (.inl hlock)
    | inr hwaiters => exact .inr (.inr hwaiters)
  have hlock : call .lockRefcnt = 0 := not_not.mp fun hlock => hlockInit (.inl hlock)
  have hwaiters : call .waitersLock = 0 := not_not.mp fun hwaiters => hlockInit (.inr hwaiters)
  have hlockWorld := lockReady_holds
  have hcacheWorld := hlockWorld.init (r := .cacheRefcnt) (by simp [lockReady])
  have hdirtyWorld := hcacheWorld.init (r := .dirtyRefcnt) (by simp [lockReady])
  have hmetadataWorld := hdirtyWorld.init (r := .metadataRefcnt) (by simp [lockReady])
  have hd2cWorld := hmetadataWorld.init (r := .d2cRefcnt) (by simp [lockReady])
  simp only [ocfMngtInitNewCache, ocfMngtCacheLockInit, EarlyError, hmemory, hlock, hwaiters, ne_eq,
    not_true_eq_false, if_false, false_or]
  by_cases hcache : call .cacheRefcnt = 0
  swap
  · rw [if_pos hcache]
    have hdead := mt (hlockWorld.live_iff .cacheRefcnt).mp (by simp [lockReady])
    refine iff_of_false (not_exact_of_misused ?_) fun hok => hcache hok.1
    exact lockInitErr_misused (World.misused_touch (Bool.eq_false_iff.mpr hdead))
  rw [if_neg (not_not.mpr hcache)]
  by_cases hdirty : call .dirtyRefcnt = 0
  swap
  · rw [if_pos hdirty]
    exact iff_of_false (not_exact_of_misused (dirtyRefcntErr_misused ..)) fun hok => hdirty hok.2.1
  rw [if_neg (not_not.mpr hdirty)]
  by_cases hmetadata : call .metadataRefcnt = 0
  swap
  · rw [if_pos hmetadata]
    exact iff_of_false (not_exact_of_misused (dirtyRefcntErr_misused ..)) fun hok => hmetadata hok.2.2.1
  rw [if_neg (not_not.mpr hmetadata)]
  by_cases hd2c : call .d2cRefcnt = 0
  swap
  · rw [if_pos hd2c]
    exact iff_of_false (not_exact_of_misused (dirtyRefcntErr_misused ..)) fun hok => hd2c hok.2.2.2.1
  rw [if_neg (not_not.mpr hd2c)]
  exact (initCleaningCounters_iff hd2cWorld).trans
    ⟨fun hok => ⟨hcache, hdirty, hmetadata, hd2c, hok⟩, fun hok => hok.2.2.2.2⟩

end NewCacheSpec

/-- Both initialisations unwind exactly, whatever an unset counter holds. -/
def UnwindsExactly (lock : MetadataLock → Int) (cache : CacheResource → Int) (inc : Bool) : Prop :=
  (∀ unset, Exact {l | l.Exists} (ocfMetadataConcurrencyInit lock unset .empty).1
    (ocfMetadataConcurrencyInit lock unset .empty).2) ∧
  Exact {r | r.Exists} (ocfMngtInitNewCache cache inc .empty).1
    (ocfMngtInitNewCache cache inc .empty).2

/-- Both initialisations unwind exactly if and only if no LRU or LFU lock of the
metadata fails, and for the cache its allocation, its lock or nothing at all. -/
theorem unwinds_exactly_iff (lock : MetadataLock → Int) (cache : CacheResource → Int) (inc : Bool) :
    UnwindsExactly lock cache inc ↔
      ((∀ i < ocfNumLruLists, lock (.lru i) = 0) ∧ ∀ i < lfuNumShards, lock (.lfu i) = 0) ∧
        (EarlyError cache ∨ LateOk cache inc) :=
  and_congr concurrencyInit_iff initNewCache_iff

/-- With an error on the first LFU lock the LRU locks are not torn down, with one
on the mutex a counter is that was never initialised, and with one on a counter
the lock of the cache is torn down by means of a counter that is gone. -/
theorem unwinds_exactly_fails : (¬∀ unset, Exact {l | l.Exists}
      (ocfMetadataConcurrencyInit (fun l => if l = .lfu 0 then -1 else 0) unset .empty).1
      (ocfMetadataConcurrencyInit (fun l => if l = .lfu 0 then -1 else 0) unset .empty).2) ∧
    (¬Exact {r | r.Exists}
      (ocfMngtInitNewCache (fun r => if r = .flushMutex then -1 else 0) true .empty).1
      (ocfMngtInitNewCache (fun r => if r = .flushMutex then -1 else 0) true .empty).2) ∧
    ¬Exact {r | r.Exists}
      (ocfMngtInitNewCache (fun r => if r = .d2cRefcnt then -1 else 0) true .empty).1
      (ocfMngtInitNewCache (fun r => if r = .d2cRefcnt then -1 else 0) true .empty).2 := by
  refine ⟨fun h => ?_, fun h => ?_, fun h => ?_⟩
  · have hlfu := (concurrencyInit_iff.mp h).2 0 (Nat.succ_pos _)
    exact absurd hlfu (by decide)
  · rcases initNewCache_iff.mp h with hearly | hlate
    · exact absurd hearly (by simp [EarlyError])
    · exact absurd hlate.2.2.2.2.2.2.1 (by decide)
  · rcases initNewCache_iff.mp h with hearly | hlate
    · exact absurd hearly (by simp [EarlyError])
    · exact absurd hlate.2.2.2.1 (by decide)

end OcfCache.InitUnwind
