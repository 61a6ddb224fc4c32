import OcfCache.Acp
import OcfCache.Alru

/-!
# Switching the cleaning policy

Embedding of `ocf_mngt_cache_cleaning_set_policy` with its pipeline, the
callbacks of `cleaning_ops.h` and the operations of the engines and the cleaner
that use them. A callback of a frozen cleaner is dropped. A callback is one
step, so a frozen counter may reach zero at any time. The scan of the update
takes the hash buckets in any order, several at a time, and holds the read lock
of a bucket until it is through with it; the other operations hold the write
lock of the bucket of their line. The policy metadata of the lines is a union
in the source; every policy sets its own up before it reads it. The checks in
front of the pipeline change nothing and are not modelled.
-/

namespace OcfCache.CleaningSwitch

open Function Metadata Loops CacheLine

/-- `ocf_cleaning_t`. -/
inductive Policy
  /-- `ocf_cleaning_nop`. -/
  | nop
  /-- `ocf_cleaning_alru`. -/
  | alru
  /-- `ocf_cleaning_acp`. -/
  | acp
  deriving DecidableEq, Repr

/-- The cache as the switch sees it. -/
structure Cache where
  /-- Mapping, status bits and partitions of the lines. -/
  md : LineTable
  /-- ALRU metadata of the lines. -/
  links : Nat → Alru.AlruMeta
  /-- ALRU lists of the partitions. -/
  part : Nat → Alru.PartAlru
  /-- ACP metadata of the lines. -/
  acpDirty : Nat → Bool
  /-- `core->added`. -/
  added : Nat → Bool
  /-- Length of a core in bytes. -/
  length : Nat → Nat
  /-- Contents of an ACP context. -/
  acp : Acp.AcpContext
  /-- `cleaner.policy`. -/
  policy : Policy
  /-- The policy whose context `cleaner.cleaning_policy_context` is; `none` is `NULL`. -/
  context : Option Policy
  /-- `cleaner.refcnt.freeze`. -/
  freeze : Nat

/-- The cache as ALRU sees it. -/
def Cache.alruState (c : Cache) : Alru.State := ⟨c.md, c.links, c.part⟩

/-- The cache after an ALRU function. -/
def Cache.setAlru (c : Cache) (s : Alru.State) : Cache :=
  { c with md := s.md, links := s.links, part := s.part }

/-- The cache as ACP sees it. -/
def Cache.acpState (c : Cache) : Acp.State := ⟨c.md, c.acpDirty, c.added, c.length, c.acp⟩

/-- The cache after an ACP function. -/
def Cache.setAcp (c : Cache) (s : Acp.State) : Cache :=
  { c with md := s.md, acpDirty := s.acpDirty, added := s.added, length := s.length, acp := s.acp }

section Callbacks

variable (cfg : Acp.Config)

/-- `ocf_cleaning_set_hot_cache_line`. -/
def ocfCleaningSetHotCacheLine (c : Cache) (x : Nat) : Option Cache :=
  if c.freeze ≠ 0 then some c
  else match c.policy with
    | .nop => some c
    | .alru => (Alru.cleaningPolicyAlruSetHotCacheLine cfg.geometry c.alruState x).map c.setAlru
    | .acp => (Acp.cleaningPolicyAcpSetHotCacheLine cfg c.acpState x).map c.setAcp

/-- `ocf_cleaning_purge_cache_block`. -/
def ocfCleaningPurgeCacheBlock (c : Cache) (x : Nat) : Option Cache :=
  if c.freeze ≠ 0 then some c
  else match c.policy with
    | .nop => some c
    | .alru => (Alru.cleaningPolicyAlruPurgeCacheBlock cfg.geometry c.alruState x).map c.setAlru
    | .acp => (Acp.cleaningPolicyAcpPurgeBlock cfg c.acpState x).map c.setAcp

/-- `ocf_cleaning_init_cache_block`. -/
def ocfCleaningInitCacheBlock (c : Cache) (x : Nat) : Cache :=
  if c.freeze ≠ 0 then c
  else match c.policy with
    | .nop => c
    | .alru => c.setAlru (Alru.cleaningPolicyAlruInitCacheBlock cfg.geometry c.alruState x)
    | .acp => c.setAcp (Acp.cleaningPolicyAcpInitCacheBlock c.acpState x)

/-- `set_cache_line_dirty`. -/
def setCacheLineDirty (c : Cache) (start stop x : Nat) : Option Cache :=
  ocfCleaningSetHotCacheLine cfg { c with md := setDirtyBits c.md x (setRange (c.md.dirty x) start stop) } x

/-- `set_cache_line_clean`. -/
def setCacheLineClean (c : Cache) (start stop x : Nat) : Option Cache :=
  let md := setDirtyBits c.md x (clearRange (c.md.dirty x) start stop)
  if metadataTestDirtySec c.md x start stop = true ∧ metadataTestDirty cfg.geometry md x = false then
    ocfCleaningPurgeCacheBlock cfg { c with md } x
  else some { c with md }

/-- `ocf_map_cache_line`, with the partition that the line was given. -/
def ocfMapCacheLine (c : Cache) (core coreLine x p : Nat) : Cache :=
  let md := ocfMetadataAddToCollision c.md core coreLine (ocfMetadataHashFunc cfg.geometry coreLine core) x
  ocfCleaningInitCacheBlock cfg
    { c with md := { md with partitionId := update md.partitionId x p } } x

/-- `ocf_user_part_move` for one line of a request. -/
def ocfUserPartMove (c : Cache) (x new : Nat) : Option Cache :=
  if c.md.partitionId x = new then some c
  else
    (if metadataTestDirty cfg.geometry c.md x then ocfCleaningPurgeCacheBlock cfg c x else some c).bind fun c =>
      let c := { c with md := { c.md with partitionId := update c.md.partitionId x new } }
      if metadataTestDirty cfg.geometry c.md x then ocfCleaningSetHotCacheLine cfg c x else some c

/-- Results of the allocations of a step. -/
structure Outcome where
  /-- The context of a policy is set up; otherwise the error. -/
  context : Int
  /-- The chunk table of a core is allocated. -/
  table : Nat → Bool
  /-- Result of `ocf_parallelize_create`. -/
  create : Int

/-- `_acp_remove_cores`. -/
def acpRemoveCores (s : Acp.State) : Option Acp.State :=
  Acp.forEachCore s.added Acp.cleaningPolicyAcpRemoveCore s

/-- One round of `_acp_load_cores`; a core whose table is not allocated ends the loop. -/
def acpLoadCore (table : Nat → Bool) (st : Acp.State × Bool) (core : Nat) : Option (Acp.State × Bool) :=
  if st.2 = false ∨ st.1.added core = false then some st
  else (Acp.cleaningPolicyAcpAddCore st.1 core (table core)).map fun s => (s, table core)

/-- `_acp_load_cores`. -/
def acpLoadCores (table : Nat → Bool) (s : Acp.State) : Option (Acp.State × Bool) :=
  ((List.range ocfCoreNum).foldlM (acpLoadCore table) (s, true)).bind fun st =>
    if st.2 then some st else (acpRemoveCores st.1).map fun s => (s, false)

/-- `cleaning_policy_acp_deinitialize`. -/
def cleaningPolicyAcpDeinitialize (c : Cache) : Option Cache :=
  (acpRemoveCores c.acpState).map fun s => { c.setAcp s with context := none }

/-- `cleaning_policy_acp_initialize`. -/
def cleaningPolicyAcpInitialize (o : Outcome) (c : Cache) : Option (Cache × Int) :=
  if c.context ≠ none then none
  else if o.context ≠ 0 then some (c, o.context)
  else
    let c := { c with context := some .acp }
    (acpLoadCores o.table { c.acpState with acp := Acp.emptyContext cfg }).bind fun r =>
      if r.2 then some (c.setAcp r.1, 0)
      else ( cleaningPolicyAcpDeinitialize (c.setAcp r.1)).map fun c => (c, errNoMem)

/-- `cleaning_policy_alru_initialize`. -/
def cleaningPolicyAlruInitialize (o : Outcome) (c : Cache) : Cache × Int :=
  if o.context ≠ 0 then (c, o.context) else ({ c with context := some .alru }, 0)

/-- `ocf_cleaning_initialize`. -/
def ocfCleaningInitialize (o : Outcome) (c : Cache) : Policy → Option (Cache × Int)
  | .nop => some (c, 0)
  | .alru => some (cleaningPolicyAlruInitialize o c)
  | .acp => cleaningPolicyAcpInitialize cfg o c

/-- `ocf_cleaning_deinitialize`. -/
def ocfCleaningDeinitialize (c : Cache) : Option Cache :=
  match c.policy with
  | .nop => some c
  | .alru => some { c with context := none }
  | .acp => cleaningPolicyAcpDeinitialize c

/-- `ocf_cleaning_prepopulate`, with the error it completes with. The cleaner is
frozen, so nothing else uses what it writes. -/
def ocfCleaningPrepopulate (o : Outcome) (c : Cache) : Policy → Option (Cache × Int)
  | .nop => some (c, 0)
  | .alru =>
    if o.create ≠ 0 then some (c, o.create)
    else (Alru.cleaningPolicyAlruPrepopulate cfg.geometry c.alruState).map fun s => (c.setAlru s, 0)
  | .acp => some (c.setAcp (Acp.cleaningPolicyAcpPrepopulate cfg c.acpState), 0)

end Callbacks

/-- Steps of the pipeline, `_ocf_mngt_cache_cleaning_set_policy_*`. -/
inductive Step
  | setPolicyDeinitialize
  | setPolicyInitialize
  | setPolicyPrepopulate
  | setPolicyUpdate
  deriving DecidableEq, Repr

/-- What a pipeline waits for. -/
inductive Phase
  /-- Its request is in the management queue. -/
  | queued
  /-- The zero callback of the cleaner counter is registered. -/
  | waitZero
  /-- The update scans the buckets: the rest of each bucket that was begun. -/
  | scanning (rest : Nat → Option (List Nat))

/-- `struct ocf_pipeline` with the context of the switch. -/
structure Pipeline where
  /-- `context->new_policy`. -/
  newPolicy : Policy
  /-- `context->flags.cleaner_frozen`. -/
  cleanerFrozen : Bool
  /-- Steps from `step` to the terminator. -/
  steps : List Step
  /-- `rollback`. -/
  rollback : Bool
  /-- `finish`. -/
  finish : Bool
  /-- `error`. -/
  error : Int
  /-- What comes next. -/
  phase : Phase

/-- `ocf_mngt_cache_cleaning_set_policy_properties.steps`. -/
def setPolicySteps : List Step := [Step.setPolicyDeinitialize, .setPolicyInitialize, .setPolicyPrepopulate, .setPolicyUpdate]

/-- `ocf_mngt_cache_cleaning_set_policy_properties.rollback`. -/
def setPolicyRollback : List Step := [Step.setPolicyDeinitialize]

/-- `ocf_pipeline_next`. -/
def Pipeline.next (p : Pipeline) : Pipeline := { p with phase := .queued }

/-- `ocf_pipeline_rollback`. -/
def Pipeline.rollBack (p : Pipeline) (error : Int) : Pipeline :=
  { p with rollback := true, error, steps := setPolicyRollback, phase := .queued }

/-- `ocf_pipeline_finish`. -/
def Pipeline.finishWith (p : Pipeline) (error : Int) : Pipeline :=
  { p with finish := true, error := if p.rollback then p.error else error, phase := .queued }

/-- `OCF_PL_NEXT_ON_SUCCESS_RET`. -/
def Pipeline.nextOnSuccess (p : Pipeline) (error : Int) : Pipeline :=
  if error ≠ 0 then p.finishWith error else p.next

/-- The cache and its management. -/
structure World where
  /-- The cache. -/
  cache : Cache
  /-- The switch in progress. -/
  pipeline : Option Pipeline
  /-- New policy and error of the completion of the last switch. -/
  result : Option (Policy × Int)

/-- `env_refcnt_unfreeze`. -/
def envRefcntUnfreeze (c : Cache) : Option Cache :=
  if c.freeze = 0 then none else some { c with freeze := c.freeze - 1 }

/-- `_ocf_mngt_cleaning_set_finish`. -/
def cleaningSetFinish (w : World) (p : Pipeline) : Option World :=
  let c := { w.cache with policy := if p.error ≠ 0 then Policy.nop else p.newPolicy }
  (if p.cleanerFrozen then envRefcntUnfreeze c else some c).map fun cache =>
    { cache, pipeline := none, result := some (p.newPolicy, p.error) }

/-- `_ocf_mngt_cache_cleaning_set_policy_update`. -/
def setPolicyUpdate (o : Outcome) (w : World) (p : Pipeline) : Option World :=
  (envRefcntUnfreeze { w.cache with policy := p.newPolicy }).map fun cache =>
    let p := { p with cleanerFrozen := false }
    let p := match p.newPolicy with
      | .nop => p.next
      | .alru | .acp => if o.create ≠ 0 then p.rollBack o.create else { p with phase := .scanning fun _ => none }
    { w with cache, pipeline := some p }

/-- `_ocf_pipeline_run_step`. -/
def pipelineRunStep (cfg : Acp.Config) (o : Outcome) (w : World) (p : Pipeline) : Option World :=
  if p.finish then cleaningSetFinish w p
  else match p.steps with
    | [] => cleaningSetFinish w p
    | step :: steps =>
      let p := { p with steps }
      match step with
      | Step.setPolicyDeinitialize => some { w with
          cache := { w.cache with freeze := w.cache.freeze + 1 }
          pipeline := some { p with cleanerFrozen := true, phase := .waitZero } }
      | .setPolicyInitialize => (ocfCleaningInitialize cfg o w.cache p.newPolicy).map fun r =>
          { w with cache := r.1, pipeline := some (p.nextOnSuccess r.2) }
      | .setPolicyPrepopulate => (ocfCleaningPrepopulate cfg o w.cache p.newPolicy).map fun r =>
          { w with cache := r.1, pipeline := some (p.nextOnSuccess r.2) }
      | .setPolicyUpdate => setPolicyUpdate o w p

/-- What may happen. -/
inductive Act
  /-- `ocf_mngt_cache_cleaning_set_policy` starts its pipeline. -/
  | setPolicy (new : Policy)
  /-- The management queue runs the request of the pipeline. -/
  | run (o : Outcome)
  /-- `_ocf_mngt_cache_cleaning_set_policy_zero_cb`. -/
  | zeroCallback
  /-- The update locks a bucket. -/
  | scanBucket (hash : Nat)
  /-- The update looks at the next line of a bucket; behind the last it unlocks the bucket. -/
  | scanLine (hash : Nat)
  /-- All buckets are through. -/
  | scanEnd
  /-- A line is mapped. -/
  | map (core coreLine x p : Nat)
  /-- `set_cache_line_dirty`. -/
  | setDirty (start stop x : Nat)
  /-- `set_cache_line_clean`. -/
  | setClean (start stop x : Nat)
  /-- `set_cache_line_invalid`. -/
  | setInvalid (waiters : Nat → Bool) (start stop x : Nat)
  /-- `ocf_user_part_move`. -/
  | move (x new : Nat)

/-- Bucket of the core line of a cache line. -/
def bucketOf (g : Geometry) (md : LineTable) (x : Nat) : Nat :=
  ocfMetadataHashFunc g (md.coreInfo x).2 (md.coreInfo x).1

/-- The scan does not hold the lock of a bucket. -/
def Unlocked (w : World) (hash : Nat) : Prop :=
  ∀ p rest, w.pipeline = some p → p.phase = .scanning rest → rest hash = none ∨ rest hash = some []

section System

variable (cfg : Acp.Config)

/-- The line belongs to a core, and its bucket is not locked. -/
def Usable (w : World) (x : Nat) : Prop :=
  x < cfg.geometry.collisionEntries ∧ (w.cache.md.coreInfo x).1 ≠ ocfCoreNum ∧
    Unlocked w (bucketOf cfg.geometry w.cache.md x)

/-- What the callers ensure. -/
def guard (w : World) : Act → Prop
  | .setPolicy new => w.pipeline = none ∧ new ≠ w.cache.policy
  | .run _ => ∃ p, w.pipeline = some p ∧ p.phase = .queued
  | .zeroCallback => ∃ p, w.pipeline = some p ∧ p.phase = .waitZero
  | .scanBucket hash => ∃ p rest, w.pipeline = some p ∧ p.phase = .scanning rest ∧
    hash < cfg.geometry.hashEntries ∧ rest hash = none
  | .scanLine hash => ∃ p rest x xs, w.pipeline = some p ∧ p.phase = .scanning rest ∧ rest hash = some (x :: xs)
  | .scanEnd => ∃ p rest, w.pipeline = some p ∧ p.phase = .scanning rest ∧
    ∀ hash < cfg.geometry.hashEntries, rest hash = some []
  | .map core coreLine x p => x < cfg.geometry.collisionEntries ∧ (w.cache.md.coreInfo x).1 = ocfCoreNum ∧
    metadataTestDirty cfg.geometry w.cache.md x = false ∧ core < ocfCoreNum ∧ w.cache.added core = true ∧
    coreLine * cfg.lineSize < w.cache.length core ∧ p < ocfUserIoClassMax ∧
    (∀ y < cfg.geometry.collisionEntries, w.cache.md.coreInfo y ≠ (core, coreLine)) ∧
    Unlocked w (ocfMetadataHashFunc cfg.geometry coreLine core)
  | .setDirty start stop x => Usable cfg w x ∧ start ≤ stop ∧ stop ≤ cfg.geometry.endBlock
  | .setClean _ _ x => Usable cfg w x
  -- the blocks that become invalid are clean, and dirty blocks are valid
  | .setInvalid _ start stop x => Usable cfg w x ∧ ∀ i ≤ cfg.geometry.endBlock,
    w.cache.md.dirty x i = true → w.cache.md.valid x i = true ∧ ¬(start ≤ i ∧ i ≤ stop)
  | .move x new => Usable cfg w x ∧ new < ocfUserIoClassMax

/-- The switch in progress goes on with what a function makes of it. -/
def withScan (w : World) (f : Pipeline → (Nat → Option (List Nat)) → Option World) : Option World :=
  w.pipeline.bind fun p =>
    match p.phase with
    | .scanning rest => f p rest
    | _ => none

/-- Effect of what happens; `none` is an `ENV_BUG_ON` or an impossible step. -/
def step (w : World) : Act → Option World
  | .setPolicy new => some { w with
      pipeline := some ⟨new, false, setPolicySteps, false, false, 0, .queued⟩
      result := none }
  | .run o => w.pipeline.bind (pipelineRunStep cfg o w)
  | .zeroCallback => w.pipeline.bind fun p =>
      ( ocfCleaningDeinitialize w.cache).map fun cache => { w with cache, pipeline := some p.next }
  | .scanBucket hash => withScan w fun p rest => some { w with
      pipeline := some { p with phase := .scanning (update rest hash (some (w.cache.md.hash hash))) } }
  | .scanLine hash => withScan w fun p rest =>
      match rest hash with
      | some (x :: xs) =>
        let p := { p with phase := .scanning (update rest hash (some xs)) }
        (if metadataTestDirty cfg.geometry w.cache.md x then
          match p.newPolicy with
          | .nop => none
          | .alru =>
            (Alru.cleaningPolicyAlruSetHotCacheLine cfg.geometry w.cache.alruState x).map w.cache.setAlru
          | .acp => (Acp.cleaningPolicyAcpSetHotCacheLine cfg w.cache.acpState x).map w.cache.setAcp
        else some w.cache).map fun cache => { w with cache, pipeline := some p }
      | _ => none
  | .scanEnd => withScan w fun p _ => some { w with pipeline := some p.next }
  | .map core coreLine x p => some { w with cache := ocfMapCacheLine cfg w.cache core coreLine x p }
  | .setDirty start stop x => (setCacheLineDirty cfg w.cache start stop x).map fun cache => { w with cache }
  | .setClean start stop x => (setCacheLineClean cfg w.cache start stop x).map fun cache => { w with cache }
  | .setInvalid waiters start stop x => some { w with cache := { w.cache with
      md := CacheLine.setCacheLineInvalid cfg.geometry waiters w.cache.md start stop x } }
  | .move x new => (ocfUserPartMove cfg w.cache x new).map fun cache => { w with cache }

end System

end OcfCache.CleaningSwitch
