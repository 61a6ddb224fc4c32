import OcfCache.EngineSystem
import OcfCache.LookupSpec

/-!
# What the steps of a request leave alone

No step changes the core, the direction, the partition or the cache mode of a
request, and only a discard moves on to another range. A request stays on the
path it was submitted on: reads stay reads, and a write leaves the lazy path
only for a direct one. The module says so once, for every step.
-/

namespace OcfCache.EngineFrame

open Loops Metadata Requests EngineCommon LookupSpec CacheLine Space EngineMachine EngineSystem

/-- The same blocks of the same core, in the same direction. -/
structure SameRange (r r' : Request) : Prop where
  /-- Core. -/
  coreId : r'.coreId = r.coreId
  /-- First block. -/
  addr : r'.addr = r.addr
  /-- Number of blocks. -/
  blocks : r'.blocks = r.blocks
  /-- Direction. -/
  rw : r'.rw = r.rw
  /-- Partition. -/
  partId : r'.partId = r.partId

theorem SameRange.rfl' {r : Request} : SameRange r r := ⟨rfl, rfl, rfl, rfl, rfl⟩

theorem SameRange.trans {r r' r'' : Request} (h : SameRange r r') (h' : SameRange r' r'') :
    SameRange r r'' :=
  ⟨h'.coreId.trans h.coreId, h'.addr.trans h.addr, h'.blocks.trans h.blocks, h'.rw.trans h.rw,
    h'.partId.trans h.partId⟩

section Requests

variable {g : Geometry} {md : LineTable}

theorem SameRange.coreLineCount {r r' : Request} (h : SameRange r r') (g : Geometry) :
    r'.coreLineCount g = r.coreLineCount g := by
  simp only [Request.coreLineCount, Request.coreLineLast, Request.coreLineFirst, h.addr, h.blocks]

theorem sameRange_setMap (r : Request) (i : Nat) (e : MapInfo) : SameRange r (r.setMap i e) :=
  ⟨rfl, rfl, rfl, rfl, rfl⟩

theorem sameRange_lookup (req : Request) : SameRange req (ocfEngineLookup g md req) := by
  rw [ocfEngineLookup_eq, account_eq]
  exact ⟨rfl, rfl, rfl, rfl, rfl⟩

theorem sameRange_updateReqInfo (req : Request) (i : Nat) :
    SameRange req (ocfEngineUpdateReqInfo g md req i) :=
  ⟨rfl, rfl, rfl, rfl, rfl⟩

theorem sameRange_check (req : Request) : SameRange req (ocfEngineCheck g md req).2 := by
  refine forRange_inv (fun _ (st : Bool × Request) => SameRange req st.2) ⟨rfl, rfl, rfl, rfl, rfl⟩ ?_
  intro i st _ h
  refine h.trans ?_
  simp only [checkBody]
  split
  · exact sameRange_setMap _ _ _
  · split
    · exact (sameRange_setMap _ _ _).trans (sameRange_updateReqInfo _ _)
    · exact sameRange_setMap _ _ _

theorem sameRange_remapEntry (victims : Nat → Option (Nat × Bool)) {s s' : LineTable × Request}
    {i : Nat} (h : remapEntry g victims (some s) i = some s') : SameRange s.2 s'.2 := by
  simp only [remapEntry, Option.bind_some] at h
  split at h
  · cases h
    exact .rfl'
  · split at h
    · cases h
      exact .rfl'
    · split at h
      · cases h
      · cases h
        exact ⟨rfl, rfl, rfl, rfl, rfl⟩

theorem sameRange_mapHndlErrorEntry (waiters : Nat → Bool) (s : LineTable × Request) (i : Nat) :
    SameRange s.2 (mapHndlErrorEntry g waiters s i).2 := by
  unfold mapHndlErrorEntry
  split
  · exact sameRange_setMap _ _ _
  · exact .rfl'

theorem sameRange_prepareClines {D : Type*} {req : Request} {ch : Choice D}
    {r : LineTable × Request × Bool} (h : ocfEnginePrepareClines g md req ch = some r) :
    SameRange req r.2.1 := by
  have hlook : SameRange req (ocfEngineLookup g md req) := sameRange_lookup req
  simp only [ocfEnginePrepareClines] at h
  split at h
  · cases h
    exact .rfl'
  · split at h
    · cases h
      exact hlook
    · split at h
      · cases h
        exact hlook
      · obtain ⟨m, hm, hr⟩ := Option.map_eq_some_iff.mp h
        have hremap : SameRange req m.2 := by
          refine forRange_option (fun _ => rfl) (fun _ t => SameRange req t.2) hlook ?_ hm
          intro i t t' _ ht hbody
          exact ht.trans (sameRange_remapEntry _ hbody)
        rw [← hr]
        split
        · exact hremap
        · refine forRange_inv (fun _ (t : LineTable × Request) => SameRange req t.2) hremap ?_
          intro i t _ ht
          exact ht.trans (sameRange_mapHndlErrorEntry _ t i)

theorem sameRange_toReq (m : Marked) (req : Request) : SameRange req (m.toReq req) :=
  ⟨rfl, rfl, rfl, rfl, rfl⟩

end Requests

/-- Paths through the engines. -/
inductive Path
  | read
  | fast
  | lazy
  | direct
  | discard
  | clean
  | ended
  deriving DecidableEq, Repr

/-- Path of an engine. -/
def cbPath : EngineCb → Path
  | .readGeneric | .readPt | .readWo | .readFast => .read
  | .writeWt | .writeWa | .writeWi => .direct
  | .writeWb => .lazy
  | .writeFast => .fast

/-- Path of a handler. -/
def handlerPath : Handler → Path
  | .readGenericDo | .readPtDo | .readWoDo | .readFastDo => .read
  | .writeWbDo => .lazy
  | .writeWtDo | .writeWiCoreWrite | .writeWiUpdateAndFlushMetadata => .direct
  | .discardStepDo => .discard
  | .cleanerCheckMap => .clean

/-- Path of a cleaning, on behalf of a request or in the background. -/
def backPath : Option CleanFirst → Path
  | none => .clean
  | some h => handlerPath h.handler

/-- Path of a request; `ended` once its result is known. -/
def pcPath : Pc → Path
  | .call cb => cbPath cb
  | .wait _ h | .refresh h | .run h => handlerPath h
  | .readHit | .readMiss | .readPt | .readWoCore | .readWoCache => .read
  | .writeWb | .writeWbFlushMetadata | .flush .wb => .lazy
  | .writeWt _ _ | .writeWtFlushMetadata | .flush .wt => .direct
  | .writeWi | .writeWiNextPass | .flush .wi => .direct
  | .flush .discard | .discardCore | .discardStep | .discardFlushCache => .discard
  | .flush (.clean back) | .clean _ back => backPath back
  | .cleanerFire => .clean
  | .backfillDo | .backfill | .backfillUpdateMetadata | .invalidateDo | .done => .ended

/-- How a step may change the path. -/
inductive Path.Next : Path → Path → Prop
  | same (p : Path) : Path.Next p p
  | ended (p : Path) : Path.Next p .ended
  | fastLazy : Path.Next .fast .lazy
  | fastDirect : Path.Next .fast .direct
  | lazyDirect : Path.Next .lazy .direct

/-- The same submission, without a new result. -/
structure Same {D : Type*} (f f' : Flight D) : Prop where
  /-- What was submitted. -/
  kind : f'.kind = f.kind
  /-- Cache mode. -/
  mode : f'.mode = f.mode
  /-- Range. -/
  range : SameRange f.req f'.req
  /-- Data. -/
  data : f'.data = f.data
  /-- Reference on `refcnt.dirty`. -/
  dirty : f'.dirty = f.dirty
  /-- Result. -/
  outcome : f'.outcome = f.outcome

/-- The counter `refcnt.dirty` is as before. -/
structure SameRefs {D : Type*} (s s' : Shared D) : Prop where
  /-- Frozen or not. -/
  frozen : s'.dirtyFrozen = s.dirtyFrozen
  /-- References. -/
  refs : s'.dirtyRefs = s.dirtyRefs

/-- What a step of a request on a path may do to what it is. -/
structure Moves {D : Type*} (p : Path) (s : Shared D) (f : Flight D) (r : Next D) : Prop where
  /-- What was submitted stays. -/
  kind : r.2.kind = f.kind
  /-- The cache mode stays. -/
  mode : r.2.mode = f.mode
  /-- The range stays, except for a discard. -/
  range : p ≠ .discard → SameRange f.req r.2.req
  /-- The direction stays. -/
  dir : r.2.req.rw = f.req.rw
  /-- Only reads fill the data buffer. -/
  data : p ≠ .read → r.2.data = f.data
  /-- The counter of dirty requests is not frozen by requests. -/
  frozen : r.1.dirtyFrozen = s.dirtyFrozen
  /-- The path. -/
  path : Path.Next p (pcPath r.2.pc)
  /-- A result is given once, with the reference on `refcnt.dirty`. -/
  result : (r.2.dirty = f.dirty ∧ r.2.outcome = f.outcome ∧ r.1.dirtyRefs = s.dirtyRefs) ∨
    (pcPath r.2.pc = .ended ∧ r.2.dirty = false ∧ r.2.outcome ≠ none ∧
      r.1.dirtyRefs = s.dirtyRefs - f.dirty.toNat)

section Moves

variable {D : Type*} {cfg : Config} {s s' : Shared D} {f f' : Flight D} {ch : Choice D} {p : Path}

variable {r : Next D}

/-- What a step on a path keeps of a request. -/
def kept (f : Flight D) :=
  (f.kind, f.mode, f.req.coreId, f.req.addr, f.req.blocks, f.req.rw, f.req.partId, f.data, f.dirty, f.outcome)

theorem Same.of_kept (h : kept f' = kept f) : Same f f' := by
  simp only [kept, Prod.mk.injEq] at h
  obtain ⟨hkind, hmode, hcore, haddr, hblocks, hrw, hpart, hdata, hdirty, hout⟩ := h
  exact ⟨hkind, hmode, ⟨hcore, haddr, hblocks, hrw, hpart⟩, hdata, hdirty, hout⟩

theorem Moves.goOn (hp : Path.Next p (pcPath r.2.pc)) (h : Same f r.2) (hs : SameRefs s r.1) :
    Moves p s f r :=
  ⟨h.kind, h.mode, fun _ => h.range, h.range.rw, fun _ => h.data, hs.frozen, hp,
    .inl ⟨h.dirty, h.outcome, hs.refs⟩⟩

theorem Moves.stay (hp : pcPath r.2.pc = p) (h : kept r.2 = kept f)
    (hf : r.1.dirtyFrozen = s.dirtyFrozen) (hr : r.1.dirtyRefs = s.dirtyRefs) : Moves p s f r :=
  .goOn (hp ▸ .same _) (.of_kept h) ⟨hf, hr⟩

theorem Moves.of_data {d : Nat → D} (h : Moves .read s { f with data := d } r) :
    Moves .read s f r :=
  ⟨h.kind, h.mode, h.range, h.dir, fun hp => absurd rfl hp, h.frozen, h.path, h.result⟩

theorem complete_moves (ok : Bool) (h : Same f f') (hs : SameRefs s s')
    (h₁ : r.1.dirtyRefs = (complete s' f' ok).1.dirtyRefs)
    (h₂ : r.1.dirtyFrozen = s'.dirtyFrozen) (hk : r.2.kind = f'.kind) (hm : r.2.mode = f'.mode)
    (hr : r.2.req = f'.req) (hx : r.2.data = f'.data) (hd : r.2.dirty = false) (ho : r.2.outcome = some ok)
    (hp : pcPath r.2.pc = .ended) : Moves p s f r := by
  have hrange : SameRange f.req r.2.req := hr ▸ h.range
  refine ⟨hk.trans h.kind, hm.trans h.mode, fun _ => hrange, hrange.rw,
    fun _ => hx.trans h.data, h₂.trans hs.frozen, hp ▸ .ended p, .inr ⟨hp, hd, by rw [ho]; nofun, ?_⟩⟩
  rw [h₁]
  simp only [complete, h.dirty, hs.refs]
  cases f.dirty <;> rfl

theorem finish_moves (ok : Bool) (h : Same f f') (hs : SameRefs s s') :
    Moves p s f (finish s' f' ok) :=
  complete_moves ok h hs rfl rfl rfl rfl rfl rfl rfl rfl rfl

variable {h : Handler}

theorem asyncLock_moves {rw : Dir} {refresh : Bool} (hp : Path.Next p (handlerPath h))
    (hf : Same f f') (hs : SameRefs s s') : Moves p s f (s', asyncLock cfg f' ch rw refresh h) := by
  unfold asyncLock
  split
  · exact .goOn hp ⟨hf.1, hf.2, hf.3, hf.4, hf.5, hf.6⟩ hs
  · exact .goOn hp ⟨hf.1, hf.2, hf.3, hf.4, hf.5, hf.6⟩ hs

theorem asyncLockMapped_moves {rw : Dir} {refresh : Bool}
    (hp : Path.Next p (handlerPath h)) (hf : Same f f') (hs : SameRefs s s') :
    Moves p s f (s', asyncLockMapped cfg f' ch rw refresh h) := by
  unfold asyncLockMapped
  split
  · exact asyncLock_moves hp hf hs
  · exact .goOn hp ⟨hf.1, hf.2, hf.3, hf.4, hf.5, hf.6⟩ hs

variable (cfg s f) in
theorem looked_same : Same f (looked cfg s f) := ⟨rfl, rfl, sameRange_lookup _, rfl, rfl, rfl⟩

variable (f) in
theorem restart_same (cb : EngineCb) : Same f (restart f cb) :=
  ⟨rfl, rfl, ⟨rfl, rfl, rfl, rfl, rfl⟩, rfl, rfl, rfl⟩

theorem Same.trans {f'' : Flight D} (h : Same f f') (h' : Same f' f'') : Same f f'' :=
  ⟨h'.kind.trans h.kind, h'.mode.trans h.mode, h.range.trans h'.range, h'.data.trans h.data,
    h'.dirty.trans h.dirty, h'.outcome.trans h.outcome⟩

theorem callPrepared_moves {onError : Flight D → Flight D}
    (hr : callPrepared cfg s f ch h onError = some r) (hp : Path.Next p (handlerPath h))
    (herr : ∀ f', Same f f' → Same f (onError f') ∧ Path.Next p (pcPath (onError f').pc)) :
    Moves p s f r := by
  obtain ⟨q, hq, hr⟩ := Option.map_eq_some_iff.mp hr
  have hsame : Same f { f with req := q.2.1 } :=
    ⟨rfl, rfl, sameRange_prepareClines hq, rfl, rfl, rfl⟩
  rw [← hr]
  split
  · exact asyncLock_moves hp hsame ⟨rfl, rfl⟩
  · exact .goOn (herr _ hsame).2 (herr _ hsame).1 ⟨rfl, rfl⟩

theorem call_moves {cb : EngineCb} (h : call cfg s f ch cb = some r) : Moves (cbPath cb) s f r := by
  have hlook := looked_same cfg s f
  cases cb with
  | readGeneric =>
    simp only [call] at h
    split at h
    · cases h
      exact .stay rfl rfl rfl rfl
    · refine callPrepared_moves h (.same _) fun f' hf' => ⟨?_, .same _⟩
      have hre := hf'.trans (restart_same f' .readPt)
      exact ⟨hre.1, hre.2, hre.3, hre.4, hre.5, hre.6⟩
  | readPt =>
    simp only [call] at h
    split at h
    · cases h
      exact .goOn (.same _) (hlook.trans (restart_same _ _)) ⟨rfl, rfl⟩
    · cases h
      exact asyncLockMapped_moves (.same _) hlook ⟨rfl, rfl⟩
  | readWo =>
    cases h
    exact asyncLockMapped_moves (.same _) hlook ⟨rfl, rfl⟩
  | readFast =>
    simp only [call] at h
    split at h
    · cases h
      exact asyncLock_moves (.same _) hlook ⟨rfl, rfl⟩
    · cases h
      refine .goOn ?_ (hlook.trans (restart_same _ _)) ⟨rfl, rfl⟩
      cases hm : f.mode <;> simp only [restart, looked, hm] <;> exact .same _
  | writeWt =>
    simp only [call] at h
    exact callPrepared_moves h (.same _) fun f' hf' => ⟨hf'.trans (restart_same f' _), .same _⟩
  | writeWb =>
    simp only [call] at h
    exact callPrepared_moves h (.same _) fun f' hf' => ⟨hf'.trans (restart_same f' _), .lazyDirect⟩
  | writeWa =>
    simp only [call] at h
    split at h
    · cases h
      exact .goOn (.same _) (hlook.trans (restart_same _ _)) ⟨rfl, rfl⟩
    · cases h
      exact .goOn (.same _) (hlook.trans (restart_same _ _)) ⟨rfl, rfl⟩
  | writeWi =>
    cases h
    refine asyncLockMapped_moves ?_ hlook ⟨rfl, rfl⟩
    split
    · exact .same _
    · exact .same _
  | writeFast =>
    simp only [call] at h
    split at h
    · cases h
      exact asyncLock_moves .fastLazy hlook ⟨rfl, rfl⟩
    · cases h
      refine .goOn ?_ (hlook.trans (restart_same _ _)) ⟨rfl, rfl⟩
      cases hm : f.mode <;> simp only [restart, looked, hm] <;>
        first | exact .fastLazy | exact .fastDirect | exact .same _

theorem purge_same : Same f (purge cfg s f ch).2 := ⟨rfl, rfl, sameRange_toReq _ _, rfl, rfl, rfl⟩

theorem discardFinishStep_moves (h : Same f f') (hs : SameRefs s s') :
    Moves .discard s f (s', ocfDiscardFinishStep f') := by
  refine .goOn ?_ ⟨h.1, h.2, h.3, h.4, h.5, h.6⟩ hs
  simp only [ocfDiscardFinishStep]
  split
  · exact .same _
  · exact .same _

theorem writeWiNextPass_moves (h : Same f f') (hs : SameRefs s s') :
    Moves .direct s f (ocfWriteWiNextPass s' f') := by
  unfold ocfWriteWiNextPass
  split
  · exact finish_moves true h hs
  · exact .goOn (.same _) ⟨h.1, h.2, h.3, h.4, h.5, h.6⟩ hs

theorem writeWiIoFlushMetadata_moves (h : Same f f') (hs : SameRefs s s') :
    Moves .direct s f (ocfWriteWiIoFlushMetadata cfg s' f') := by
  unfold ocfWriteWiIoFlushMetadata
  split
  · exact .goOn (.same _) ⟨h.1, h.2, h.3, h.4, h.5, h.6⟩ hs
  · exact finish_moves true h hs

theorem run_moves (h : Handler) : Moves (handlerPath h) s f (run cfg s f ch h) := by
  have hpurge : Same f (purge cfg s f ch).2 := purge_same
  cases h with
  | readGenericDo | readPtDo | readWoDo | readFastDo =>
    simp only [run]
    split_ifs <;> exact .stay rfl rfl rfl rfl
  | writeWbDo => exact .stay rfl rfl rfl rfl
  | writeWtDo =>
    simp only [run]
    split
    · exact .stay rfl rfl rfl rfl
    · exact .stay rfl rfl rfl rfl
  | writeWiCoreWrite =>
    simp only [run]
    split_ifs <;> exact .stay rfl rfl rfl rfl
  | writeWiUpdateAndFlushMetadata =>
    simp only [run]
    split
    · exact writeWiNextPass_moves (.of_kept rfl) ⟨rfl, rfl⟩
    · split
      · exact .stay rfl rfl rfl rfl
      · exact writeWiIoFlushMetadata_moves hpurge ⟨rfl, rfl⟩
  | discardStepDo =>
    simp only [run]
    split
    · exact discardFinishStep_moves (.of_kept rfl) ⟨rfl, rfl⟩
    · split
      · exact .stay rfl rfl rfl rfl
      · exact discardFinishStep_moves hpurge ⟨rfl, rfl⟩
  | cleanerCheckMap => exact .stay rfl rfl rfl rfl

variable {back : Option CleanFirst}

theorem cleanEnd_moves (h : Same f f') : Moves (backPath back) s f (cleanEnd s f' back) := by
  cases back with
  | none => exact .goOn (.ended _) ⟨h.1, h.2, h.3, h.4, h.5, h.6⟩ ⟨rfl, rfl⟩
  | some hd =>
    simp only [cleanEnd]
    split
    · exact finish_moves false h ⟨rfl, rfl⟩
    · exact .goOn (.same _) ⟨h.1, h.2, ⟨h.3.1, h.3.2, h.3.3, h.3.4, h.3.5⟩, h.4, h.5, h.6⟩ ⟨rfl, rfl⟩

theorem clean_moves (stage : CleanStage) :
    Moves (backPath back) s f (clean cfg s f ch back stage) := by
  cases stage with
  | checkMap =>
    simp only [clean]
    split
    · exact .stay rfl rfl rfl rfl
    · exact cleanEnd_moves (.of_kept rfl)
  | fireFlushCache => exact cleanEnd_moves (.of_kept rfl)
  | updateMetadata => exact .stay rfl rfl rfl rfl
  | _ =>
    simp only [clean]
    split
    · exact .stay rfl rfl rfl rfl
    · exact .stay rfl rfl rfl rfl

theorem flushed_moves (k : FlushCont) : Moves (pcPath (.flush k)) s f (flushed cfg s f k) := by
  cases k with
  | wb => exact finish_moves true (.of_kept rfl) ⟨rfl, rfl⟩
  | wt => exact finish_moves true (.of_kept rfl) ⟨rfl, rfl⟩
  | wi => exact writeWiIoFlushMetadata_moves (.of_kept rfl) ⟨rfl, rfl⟩
  | discard => exact discardFinishStep_moves (.of_kept rfl) ⟨rfl, rfl⟩
  | clean back => exact .stay rfl rfl rfl rfl

theorem writeWtReqComplete_moves (h : Same f f') (hs : SameRefs s s') :
    Moves .direct s f (ocfWriteWtReqComplete s' f') := by
  unfold ocfWriteWtReqComplete
  split
  · exact complete_moves _ h hs rfl rfl rfl rfl rfl rfl rfl rfl rfl
  · split
    · exact .goOn (.same _) ⟨h.1, h.2, h.3, h.4, h.5, h.6⟩ hs
    · exact finish_moves true h hs

theorem writeWt_moves (cacheDone coreDone : Bool) :
    Moves .direct s f (writeWt cfg s f ch cacheDone coreDone) := by
  unfold writeWt
  split
  · cases coreDone
    · exact .stay rfl rfl rfl rfl
    · exact writeWtReqComplete_moves (.of_kept rfl) ⟨rfl, rfl⟩
  · cases cacheDone
    · exact .stay rfl rfl rfl rfl
    · exact writeWtReqComplete_moves (.of_kept rfl) ⟨rfl, rfl⟩

theorem discardCoreComplete_moves (h : Same f f') (hs : SameRefs s s') :
    Moves .discard s f (ocfDiscardCoreComplete cfg s' f') := by
  simp only [ocfDiscardCoreComplete]
  split
  · exact finish_moves true h hs
  · split
    · exact finish_moves true ⟨h.1, h.2, h.3, h.4, h.5, h.6⟩ hs
    · exact .goOn (.same _) ⟨h.1, h.2, h.3, h.4, h.5, h.6⟩ hs

theorem discardStep_moves : Moves .discard s f (s, ocfDiscardStep cfg s f ch) := by
  have hmv : Moves .discard s { f with req := discardReq cfg f } (s, ocfDiscardStep cfg s f ch) :=
    asyncLockMapped_moves (.same _) (looked_same cfg s { f with req := discardReq cfg f })
      ⟨rfl, rfl⟩
  exact ⟨hmv.kind, hmv.mode, fun h => absurd rfl h, hmv.dir, hmv.data, hmv.frozen, hmv.path, hmv.result⟩

/-- How a step moves a request. -/
theorem step_moves (h : step cfg s f ch = some r) : Moves (pcPath f.pc) s f r := by
  cases hpc : f.pc with
  | call cb =>
    simp only [step, hpc] at h
    exact call_moves h
  | wait refresh hd =>
    simp only [step, hpc, Option.some.injEq] at h
    subst h
    refine .goOn ?_ (.of_kept rfl) ⟨rfl, rfl⟩
    cases refresh
    · exact .same _
    · exact .same _
  | refresh hd =>
    simp only [step, hpc] at h
    split at h
    · cases h
      exact finish_moves false ⟨rfl, rfl, sameRange_check _, rfl, rfl, rfl⟩ ⟨rfl, rfl⟩
    · cases h
      exact .goOn (.same _) ⟨rfl, rfl, sameRange_check _, rfl, rfl, rfl⟩ ⟨rfl, rfl⟩
  | run hd =>
    simp only [step, hpc, Option.some.injEq] at h
    subst h
    exact run_moves hd
  | readHit =>
    simp only [step, hpc] at h
    split at h
    · cases h
      exact .of_data (finish_moves true (.of_kept rfl) ⟨rfl, rfl⟩)
    · cases h
      exact .stay rfl rfl rfl rfl
  | readMiss =>
    simp only [step, hpc] at h
    split at h
    · cases h
      refine .of_data (d := coreRead s.coreDev f.req) ?_
      exact complete_moves true (f := { f with data := coreRead s.coreDev f.req })
        (.of_kept rfl) ⟨rfl, rfl⟩ rfl rfl rfl rfl rfl rfl rfl rfl rfl
    · cases h
      exact complete_moves false (.of_kept rfl) ⟨rfl, rfl⟩ rfl rfl rfl rfl rfl rfl
        rfl rfl rfl
  | readPt =>
    simp only [step, hpc, Option.some.injEq] at h
    subst h
    exact .of_data (finish_moves _ (.of_kept rfl) ⟨rfl, rfl⟩)
  | readWoCore =>
    simp only [step, hpc] at h
    split at h
    · cases h
      exact .of_data (finish_moves _ (.of_kept rfl) ⟨rfl, rfl⟩)
    · cases h
      exact .of_data (.stay rfl rfl rfl rfl)
  | readWoCache =>
    simp only [step, hpc, Option.some.injEq] at h
    subst h
    exact .of_data (finish_moves _ (.of_kept rfl) ⟨rfl, rfl⟩)
  | writeWb =>
    simp only [step, hpc] at h
    split at h
    · cases h
      exact .stay rfl rfl rfl rfl
    · cases h
      exact complete_moves false (.of_kept rfl) ⟨rfl, rfl⟩ rfl rfl rfl rfl rfl rfl
        rfl rfl rfl
  | writeWbFlushMetadata =>
    simp only [step, hpc] at h
    split at h
    · cases h
      exact .stay rfl rfl rfl rfl
    · cases h
      exact finish_moves true (.of_kept rfl) ⟨rfl, rfl⟩
  | writeWt cacheDone coreDone =>
    simp only [step, hpc, Option.some.injEq] at h
    subst h
    exact writeWt_moves cacheDone coreDone
  | writeWtFlushMetadata =>
    simp only [step, hpc] at h
    split at h
    · cases h
      exact .stay rfl rfl rfl rfl
    · cases h
      exact finish_moves true (.of_kept rfl) ⟨rfl, rfl⟩
  | writeWi =>
    simp only [step, hpc] at h
    split at h
    · cases h
      exact .stay rfl rfl rfl rfl
    · cases h
      exact finish_moves false (.of_kept rfl) ⟨rfl, rfl⟩
  | writeWiNextPass =>
    simp only [step, hpc, Option.some.injEq] at h
    subst h
    exact writeWiNextPass_moves (.of_kept rfl) ⟨rfl, rfl⟩
  | flush k =>
    simp only [step, hpc, Option.some.injEq] at h
    subst h
    exact flushed_moves k
  | backfillDo | backfill =>
    simp only [step, hpc] at h
    split at h
    · cases h
      exact .stay rfl rfl rfl rfl
    · cases h
      exact .stay rfl rfl rfl rfl
  | backfillUpdateMetadata | invalidateDo =>
    simp only [step, hpc, Option.some.injEq] at h
    subst h
    exact .stay rfl rfl rfl rfl
  | cleanerFire =>
    simp only [step, hpc, Option.some.injEq] at h
    subst h
    exact asyncLock_moves (.same _) (.of_kept rfl) ⟨rfl, rfl⟩
  | clean stage back =>
    simp only [step, hpc, Option.some.injEq] at h
    subst h
    exact clean_moves stage
  | discardCore =>
    simp only [step, hpc] at h
    split at h
    · cases h
      exact discardCoreComplete_moves (.of_kept rfl) ⟨rfl, rfl⟩
    · cases h
      exact finish_moves false (.of_kept rfl) ⟨rfl, rfl⟩
  | discardStep =>
    simp only [step, hpc, Option.some.injEq] at h
    subst h
    exact discardStep_moves
  | discardFlushCache =>
    simp only [step, hpc, Option.some.injEq] at h
    subst h
    exact finish_moves _ (.of_kept rfl) ⟨rfl, rfl⟩
  | done => simp [step, hpc] at h

variable (cfg) in
theorem firstEngine_path (mode : ReqCacheMode) : cbPath (firstEngine cfg mode .read) = .read ∧
      (cbPath (firstEngine cfg mode .write) = .fast ∨
        cbPath (firstEngine cfg mode .write) = .direct) := by
  cases mode <;> cases hu : cfg.useSubmitIoFast <;>
    simp [firstEngine, ocfCoreReqResolveFastMode, ocfCacheModeToEngineCb, cbPath, hu]

end Moves

end OcfCache.EngineFrame
