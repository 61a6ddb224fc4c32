import OcfCache.EngineMachine
import OcfCache.Runs

/-!
# Submission, and requests in flight together

Embedding of the submission functions of `ocf_core.c`, of the resolution of
the cache mode in `cache_engine.c` and of the start of a background cleaning
request. The system below takes submissions at any time and lets any request
in flight take the next step. Requests that fail validation and requests to a
cache in standby or without a cache device never get to the engines and are
left out.
-/

namespace OcfCache.EngineSystem

open Metadata Requests Partitions EngineMachine Runs

/-- `ocf_cache_mode_t`. -/
inductive CacheMode
  | wt
  | wb
  | wa
  | pt
  | wi
  | wo
  deriving DecidableEq, Repr

/-- `ocf_cache_mode_to_req_cache_mode`. -/
def ocfCacheModeToReqCacheMode : CacheMode → ReqCacheMode
  | .wt => .wt
  | .wb => .wb
  | .wa => .wa
  | .pt => .pt
  | .wi => .wi
  | .wo => .wo

/-- `ocf_req_cache_mode_has_lazy_write`. -/
def ocfReqCacheModeHasLazyWrite (mode : ReqCacheMode) : Bool := mode == .wb || mode == .wo

/-- What the resolution of the cache mode reads. -/
structure Settings where
  /-- `fallback_pt_error_threshold`; `none` when inactive. -/
  fallbackPtErrorThreshold : Option Nat
  /-- `fallback_pt_error_counter`. -/
  fallbackPtErrorCounter : Nat
  /-- `attach_pt`. -/
  attachPt : Bool
  /-- `pt_unaligned_io`. -/
  ptUnalignedIo : Bool
  /-- `ocf_core_seq_cutoff_check` of the request. -/
  seqCutoff : Bool
  /-- `flags.valid` of the partitions. -/
  partValid : Nat → Bool
  /-- Cache modes of the partitions; `none` is `ocf_cache_mode_none`. -/
  partCacheMode : Nat → Option CacheMode
  /-- Cache mode of the cache. -/
  cacheMode : CacheMode

/-- A read or write of the user, or a discarded range. -/
structure Io (D : Type*) where
  /-- Core. -/
  coreId : Nat
  /-- First block. -/
  addr : Nat
  /-- Number of blocks. -/
  blocks : Nat
  /-- Direction. -/
  rw : Dir
  /-- I/O class. -/
  ioClass : Nat
  /-- Data buffer. -/
  data : Nat → D

section Submission

variable {D : Type*} (cfg : Config) (set : Settings)

/-- `ocf_user_part_class2id`. -/
def ocfUserPartClass2id (ioClass : Nat) : Nat :=
  if ioClass < ocfUserIoClassMax ∧ set.partValid ioClass = true then ioClass
  else ocfIoClassUnclassified

/-- `ocf_user_part_get_cache_mode`. -/
def ocfUserPartGetCacheMode (partId : Nat) : Option CacheMode :=
  if partId < ocfUserIoClassMax then set.partCacheMode partId else none

/-- `ocf_fallback_pt_is_on`. -/
def ocfFallbackPtIsOn : Bool :=
  match set.fallbackPtErrorThreshold with
  | none => false
  | some threshold => decide (threshold ≤ set.fallbackPtErrorCounter)

/-- `ocf_req_is_4k`. -/
def ocfReqIs4k (addr blocks : Nat) : Bool :=
  addr % cfg.pageBlocks == 0 && blocks % cfg.pageBlocks == 0

/-- A request without a handler yet. -/
def newFlight (kind : Kind) (io : Io D) (partId : Nat) (pc : Pc) : Flight D where
  kind := kind
  req := ⟨io.coreId, io.addr, io.blocks, io.rw, partId,
    fun _ => ⟨0, 0, 0, 0, .miss, false, false, false⟩, .zero⟩
  mode := .pt
  pc := pc
  data := io.data
  cpData := none
  held := []
  alockRw := .read
  dirty := false
  seqCutoff := false
  forcePt := false
  wiSecondPass := false
  cacheError := false
  coreError := false
  outcome := none
  job := []
  jobData := fun _ => io.data
  jobFlush := false
  jobError := false
  discardAddr := io.addr
  discardBlocks := io.blocks
  discardHandled := 0

/-- `ocf_req_set_dirty`: take a reference on `refcnt.dirty` unless it is
frozen. -/
def ocfReqSetDirty (s : Shared D) (f : Flight D) : Next D :=
  if s.dirtyFrozen then (s, { f with dirty := false })
  else ({ s with dirtyRefs := s.dirtyRefs + 1 }, { f with dirty := true })

/-- The mode configured for a partition, with the default of the cache. -/
def configuredMode (partId : Nat) : ReqCacheMode :=
  ocfCacheModeToReqCacheMode
    ((ocfUserPartGetCacheMode set (ocfUserPartClass2id set partId)).getD set.cacheMode)

/-- `ocf_resolve_effective_cache_mode`. -/
def ocfResolveEffectiveCacheMode (s : Shared D) (f : Flight D) : Next D :=
  if ocfFallbackPtIsOn set then (s, { f with mode := .pt })
  else if set.attachPt then (s, { f with mode := .pt })
  else if set.ptUnalignedIo && !ocfReqIs4k cfg f.req.addr f.req.blocks then
    (s, { f with mode := .pt })
  else if cfg.g.collisionEntries < f.req.coreLineCount cfg.g then (s, { f with mode := .pt })
  else if set.seqCutoff then (s, { f with mode := .pt, seqCutoff := true })
  else
    let f := { f with mode := configuredMode set f.req.partId }
    if f.req.rw = .write ∧ ocfReqCacheModeHasLazyWrite f.mode = true then
      let r := ocfReqSetDirty s f
      if r.2.dirty then r else (r.1, { r.2 with mode := .wt })
    else (s, f)

/-- `_ocf_core_req_resolve_fast_mode`; `none` is `ocf_req_cache_mode_max`. -/
def ocfCoreReqResolveFastMode : ReqCacheMode → Option ReqCacheMode
  | .wb | .wo => some .fast
  | _ => if cfg.useSubmitIoFast then some .fast else none

/-- Engine that gets the request first: the fast path of
`ocf_core_submit_io_fast`, or the engine of the mode. -/
def firstEngine (mode : ReqCacheMode) (rw : Dir) : EngineCb :=
  if mode = .pt then ocfCacheModeToEngineCb mode rw
  else ocfCacheModeToEngineCb ((ocfCoreReqResolveFastMode cfg mode).getD mode) rw

/-- `ocf_core_volume_submit_io`. -/
def ocfCoreVolumeSubmitIo (s : Shared D) (io : Io D) : Next D :=
  let f := newFlight .io io (ocfUserPartClass2id set io.ioClass) .done
  let r := ocfResolveEffectiveCacheMode cfg set s f
  (r.1, { r.2 with pc := .call (firstEngine cfg r.2.mode r.2.req.rw) })

/-- `ocf_core_volume_submit_discard`. -/
def ocfCoreVolumeSubmitDiscard (io : Io D) : Option (Flight D) :=
  if io.blocks = 0 then none else some (newFlight .discard io 0 .discardCore)

/-- `ocf_cleaner_fire` for given cache lines. -/
def ocfCleanerFire (s : Shared D) (io : Io D) (lines : List Nat) : Flight D :=
  { newFlight .cleaner io 0 .cleanerFire with job := ocfCleanerPopulateReq s.md lines }

end Submission

section System

variable {D : Type*} (cfg : Config)

/-- The cache with the requests submitted so far. -/
structure State (D : Type*) where
  /-- What all requests share. -/
  shared : Shared D
  /-- The requests. -/
  flights : List (Flight D)

/-- What happens next. -/
inductive Action (D : Type*)
  | submit (set : Settings) (io : Io D)
  | discard (io : Io D)
  | clean (io : Io D) (lines : List Nat)
  | freeze (frozen : Bool)
  | step (i : Nat) (ch : Choice D)

/-- A step of the system. -/
def State.step (st : State D) : Action D → Option (State D)
  | .submit set io =>
    let r := ocfCoreVolumeSubmitIo cfg set st.shared io
    some ⟨r.1, st.flights ++ [r.2]⟩
  | .discard io => (ocfCoreVolumeSubmitDiscard io).map fun f => ⟨st.shared, st.flights ++ [f]⟩
  | .clean io lines => some ⟨st.shared, st.flights ++ [ocfCleanerFire st.shared io lines]⟩
  | .freeze frozen => some ⟨{ st.shared with dirtyFrozen := frozen }, st.flights⟩
  | .step i ch =>
    st.flights[i]?.bind fun f =>
      (EngineMachine.step cfg st.shared f ch).map fun r => ⟨r.1, st.flights.set i r.2⟩

/-- The system under a contract of its actions. -/
def engines (guard : State D → Action D → Prop) : System (State D) (Action D) where
  guard := guard
  step := State.step cfg

variable {cfg}

theorem State.step_eq_some {st st' : State D} {i : Nat} {ch : Choice D}
    (h : st.step cfg (.step i ch) = some st') :
    ∃ f s' f', st.flights[i]? = some f ∧ EngineMachine.step cfg st.shared f ch = some (s', f') ∧
      st' = ⟨s', st.flights.set i f'⟩ := by
  obtain ⟨f, hf, h⟩ := Option.bind_eq_some_iff.mp h
  obtain ⟨⟨s', f'⟩, hstep, heq⟩ := Option.map_eq_some_iff.mp h
  exact ⟨f, s', f', hf, hstep, heq.symm⟩

end System

end OcfCache.EngineSystem
