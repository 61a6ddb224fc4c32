import OcfCache.Cleaner
import OcfCache.Loops
import OcfCache.Runs

/-!
# Completion of a cleaning call

`ocf_cleaner_fire` splits its lines into a master request and slaves that run
on their own, and the last of them to finish calls the completion. The module
has the calling thread and the requests as one system: every step is an atomic
action of the thread or one callback of a request, in any order. A request has
the stage of the callback it waits for; the outcome of an allocation, a lock or
an I/O is part of the step that receives it. The cache lines are looked at by
`CleanerWrites`; here a request only has its map.
-/

namespace OcfCache.Cleaner

open Function Metadata Loops Runs

/-- What a request does or waits for. -/
inductive Stage
  /-- Not allocated, or freed without having been fired. -/
  | none
  /-- Allocated and filled in by the calling thread. -/
  | locking
  /-- Locked; the calling thread goes on with it once it is counted. -/
  | held
  /-- On the waiters lists of its cache lines. -/
  | waiting
  /-- `_ocf_cleaner_check_map` is due. -/
  | checkMap
  /-- Cache reads. -/
  | cacheRead
  /-- Core writes. -/
  | coreWrite
  /-- Core flush. -/
  | coreFlush
  /-- `_ocf_cleaner_update_metadata` is due. -/
  | updateMetadata
  /-- Metadata flush. -/
  | metadataFlush
  /-- Cache flush. -/
  | cacheFlush
  /-- `_ocf_cleaner_cache_line_unlock` is due. -/
  | unlocking
  /-- `_ocf_cleaner_complete_req` is due. -/
  | completing
  /-- Freed after completion. -/
  | finished
  deriving DecidableEq

/-- A request that was fired. -/
def Stage.fired (stage : Stage) : Prop := stage ≠ .none ∧ stage ≠ .locking

instance (stage : Stage) : Decidable stage.fired := inferInstanceAs (Decidable (_ ∧ _))

/-- Where the calling thread is. -/
inductive Pc
  /-- The master is about to be allocated. -/
  | allocMaster
  /-- The lock of a request is about to be taken. -/
  | fire (req : Nat)
  /-- A request that was fired is about to be counted. -/
  | count (req : Nat) (acquired : Bool)
  /-- The loop over the slaves. -/
  | loop
  /-- The label `out`. -/
  | out
  /-- `ocf_cleaner_fire` has returned. -/
  | done
  deriving DecidableEq

/-- Outcome of `_ocf_cleaner_alloc_master_req` and `_ocf_cleaner_alloc_slave_req`. -/
inductive Alloc
  /-- The first attempt succeeds. -/
  | full
  /-- The second attempt succeeds, with a smaller request. -/
  | reduced
  /-- Both fail. -/
  | failed

/-- Outcome of `ocf_req_async_lock_rd`. -/
inductive LockResult
  /-- `OCF_LOCK_ACQUIRED`. -/
  | acquired
  /-- `OCF_LOCK_NOT_ACQUIRED`. -/
  | notAcquired
  /-- A negative error code. -/
  | error (code : Int)

/-- What happens to one request. -/
inductive Event
  /-- The lock is granted and the request is taken from the queue. -/
  | resume
  /-- `_ocf_cleaner_check_map`, with whether it finds nothing to submit. -/
  | checkMap (nothing : Bool)
  /-- `_ocf_cleaner_cache_io_end`. -/
  | cacheIoEnd (error : Int)
  /-- `_ocf_cleaner_core_io_end`. -/
  | coreIoEnd (error : Int)
  /-- `_ocf_cleaner_flush_core_end`. -/
  | flushCoreEnd (error : Int)
  /-- `_ocf_cleaner_update_metadata`. -/
  | updateMetadata
  /-- `_ocf_cleaner_metadata_io_end`. -/
  | metadataIoEnd (error : Int)
  /-- `_ocf_cleaner_flush_cache_end`. -/
  | flushCacheEnd (error : Int)
  /-- `_ocf_cleaner_cache_line_unlock`. -/
  | unlock

/-- One step of the system. -/
inductive Act
  /-- The master is allocated and populated, with the core lines at that time. -/
  | allocMaster (outcome : Alloc) (coreInfo : Nat → Nat × Nat)
  /-- `_ocf_cleaner_do_fire` takes the lock. -/
  | lock (result : LockResult)
  /-- `_ocf_cleaner_do_fire` counts the request. -/
  | inc
  /-- A slave is allocated and populated. -/
  | allocSlave (outcome : Alloc) (coreInfo : Nat → Nat × Nat)
  /-- The loop over the slaves ends. -/
  | endLoop
  /-- `_ocf_cleaner_complete_req` of the calling thread. -/
  | out
  /-- An event of a request. -/
  | event (req : Nat) (event : Event)
  /-- `_ocf_cleaner_complete_req` of a request. -/
  | complete (req : Nat)
  /-- `_ocf_cleaner_complete` is run from the queue. -/
  | runCompletion

/-- The call and its requests; the master has number zero. -/
structure State where
  /-- Calling thread. -/
  pc : Pc
  /-- Next item. -/
  curr : Nat
  /-- Size of the next request. -/
  max : Nat
  /-- `master_remaining`. -/
  remaining : Int
  /-- Number of requests allocated so far. -/
  reqCount : Nat
  /-- Stage of a request. -/
  stage : Nat → Stage
  /-- Map of a request. -/
  map : Nat → List MapInfo
  /-- Field `error` of a request. -/
  error : Nat → Int
  /-- The request holds, or waits for, the locks of its lines. -/
  locked : Nat → Bool
  /-- The request was counted in `master_remaining`. -/
  counted : Nat → Bool
  /-- Completions pushed to the queue. -/
  queued : Nat
  /-- Errors that the completion was called with. -/
  calls : List Int
  /-- Some I/O of some request failed. -/
  ioFailed : Bool

/-- `ocf_cleaner_fire` is called. -/
def initial (attribs : Attribs) : State where
  pc := .allocMaster
  curr := 0
  max := getReqMaxCount attribs.count false
  remaining := 0
  reqCount := 0
  stage := fun _ => .none
  map := fun _ => []
  error := fun _ => 0
  locked := fun _ => false
  counted := fun _ => false
  queued := 0
  calls := []
  ioFailed := false

/-- Size of a request that is allocated. -/
def allocSize (max : Nat) : Alloc → Option Nat
  | .full => some max
  | .reduced => some (getReqMaxCount max true)
  | .failed => none

/-- A request is allocated and populated; one that stays empty is freed. -/
def addReq (attribs : Attribs) (coreInfo : Nat → Nat × Nat) (size : Nat) (s : State) : State :=
  let filled := ocfCleanerPopulateReq coreInfo attribs size s.curr
  if filled.1 = [] then { s with curr := filled.2, pc := .out }
  else
    { s with
      curr := filled.2
      pc := .fire s.reqCount
      reqCount := s.reqCount + 1
      stage := update s.stage s.reqCount .locking
      map := update s.map s.reqCount filled.1 }

/-- The decrement of `_ocf_cleaner_complete_req`; the last one completes. -/
def completeReq (attribs : Attribs) (s : State) : State :=
  let s := { s with remaining := s.remaining - 1 }
  if s.remaining ≠ 0 then s
  else if attribs.cmplQueue = true then { s with queued := s.queued + 1 }
  else { s with calls := s.calls ++ [s.error 0] }

/-- Stage after an event. -/
def nextStage (isVolatile : Bool) : Stage → Event → Option Stage
  | .waiting, .resume => some .checkMap
  | .checkMap, .checkMap nothing => some (if nothing = true then .unlocking else .cacheRead)
  | .cacheRead, .cacheIoEnd _ => some .coreWrite
  | .coreWrite, .coreIoEnd _ => some .coreFlush
  | .coreFlush, .flushCoreEnd _ => some .updateMetadata
  | .updateMetadata, .updateMetadata => some (if isVolatile = true then .unlocking else .metadataFlush)
  | .metadataFlush, .metadataIoEnd error => some (if error ≠ 0 then .unlocking else .cacheFlush)
  | .cacheFlush, .flushCacheEnd _ => some .unlocking
  | .unlocking, .unlock => some .completing
  | _, _ => none

/-- Error that an event reports; zero if it reports none. -/
def Event.failure : Event → Int
  | .cacheIoEnd error => error
  | .coreIoEnd error => error
  | .flushCoreEnd error => error
  | .metadataIoEnd error => error
  | .flushCacheEnd error => error
  | _ => 0

/-- Errors after an event: `_ocf_cleaner_set_error` writes to the master, the
metadata callback to its own request, and the cache flush callback nowhere. -/
def recordError (req : Nat) (errors : Nat → Int) (event : Event) : Nat → Int :=
  if event.failure = 0 then errors
  else
    match event with
    | .metadataIoEnd error => update errors req error
    | .flushCacheEnd _ => errors
    | _ => update errors 0 errIo

/-- Effect of a step; `none` if it cannot be taken. -/
def step (attribs : Attribs) (isVolatile : Bool) (s : State) : Act → Option State
  | .allocMaster outcome coreInfo =>
    if s.pc = .allocMaster then
      match allocSize s.max outcome with
      | none => some { s with calls := s.calls ++ [errNoMem], pc := .done }
      | some size => some (addReq attribs coreInfo size { s with remaining := 1 })
    else none
  | .lock result =>
    match s.pc with
    | .fire req =>
      match result with
      | .acquired => some { s with
          pc := .count req true, stage := update s.stage req .held
          locked := update s.locked req true }
      | .notAcquired => some { s with
          pc := .count req false, stage := update s.stage req .waiting
          locked := update s.locked req true }
      | .error code => if code < 0 then some { s with
          pc := .out, stage := update s.stage req .none
          error := update s.error 0 code } else none
    | _ => none
  | .inc =>
    match s.pc with
    | .count req acquired => some { s with
        pc := .loop, remaining := s.remaining + 1, counted := update s.counted req true
        stage := if acquired = true then update s.stage req .checkMap else s.stage }
    | _ => none
  | .allocSlave outcome coreInfo =>
    if s.pc = .loop ∧ s.curr < attribs.count then
      let max := min s.max (attribs.count - s.curr)
      match allocSize max outcome with
      | none => some { s with max, error := update s.error 0 errNoMem, pc := .out }
      | some size => some (addReq attribs coreInfo size { s with max })
    else none
  | .endLoop => if s.pc = .loop ∧ attribs.count ≤ s.curr then some { s with pc := .out } else none
  | .out => if s.pc = .out then some (completeReq attribs { s with pc := .done }) else none
  | .event req event =>
    match nextStage isVolatile (s.stage req) event with
    | some stage => some { s with
        stage := update s.stage req stage
        error := recordError req s.error event
        locked := if stage = .completing then update s.locked req false else s.locked
        ioFailed := s.ioFailed || decide (event.failure ≠ 0) }
    | none => none
  | .complete req =>
    if s.stage req = .completing then
      some (completeReq attribs { s with stage := update s.stage req .finished })
    else none
  | .runCompletion =>
    if s.queued = 0 then none
    else some { s with queued := s.queued - 1, calls := s.calls ++ [s.error 0] }

/-- The system restricted to steps of some kind. -/
def system (attribs : Attribs) (isVolatile : Bool) (allowed : State → Act → Prop) : System State Act :=
  ⟨allowed, step attribs isVolatile⟩

/-- What a caller of the cleaner relies on. -/
structure Proper (attribs : Attribs) (s : State) : Prop where
  /-- The completion is called, or queued, at most once. -/
  at_most_once : s.calls.length + s.queued ≤ 1
  /-- By then every fired request has finished and holds no lock. -/
  after_all : 0 < s.calls.length + s.queued → s.pc = .done ∧
    ∀ req, (s.stage req).fired → s.stage req = .finished ∧ s.locked req = false
  /-- Once nothing is left to happen it has been called. -/
  called : s.pc = .done → s.queued = 0 → (∀ req, (s.stage req).fired → s.stage req = .finished) →
    s.calls.length = 1
  /-- Success is reported only if every line was fired and no I/O failed. -/
  honest : 0 ∈ s.calls → s.ioFailed = false ∧ ∀ i < attribs.count, ∀ line, attribs.getter i = some line →
    ∃ req, (s.stage req).fired ∧ ∃ e ∈ s.map req, e.collIdx = line

/-- Steps that keep clear of the slips: a metadata flush fails in the master
only, no cache flush fails, and no request completes before it is counted. -/
def Careful (s : State) : Act → Prop
  | .event req (.metadataIoEnd error) => req = 0 ∨ error = 0
  | .event _ (.flushCacheEnd error) => error = 0
  | .complete req => s.counted req = true
  | _ => True

/-- A request that is counted and not finished. -/
def active (s : State) (req : Nat) : Bool := s.counted req && decide (s.stage req ≠ .finished)

/-- The items below a bound are on maps of requests that exist. -/
def Covered (attribs : Attribs) (s : State) (bound : Nat) : Prop :=
  ∀ i < bound, ∀ line, attribs.getter i = some line →
    ∃ req, s.stage req ≠ .none ∧ ∃ e ∈ s.map req, e.collIdx = line

/-- Which requests exist, and what the calling thread does with them. -/
structure Placed (s : State) : Prop where
  /-- Requests are allocated in order. -/
  beyond : ∀ req, s.reqCount ≤ req → s.stage req = .none
  /-- Only fired requests are counted. -/
  counted_fired : ∀ req, s.counted req = true → (s.stage req).fired
  /-- Only the request in hand is fired and not counted. -/
  uncounted : ∀ req, (s.stage req).fired → s.counted req = false → ∃ acquired, s.pc = .count req acquired
  /-- The request in hand. -/
  pc_fire : ∀ req, s.pc = .fire req ↔ s.stage req = .locking
  /-- The request to be counted. -/
  pc_count : ∀ req acquired, s.pc = .count req acquired → (s.stage req).fired ∧ s.counted req = false
  /-- A request that completes has released its locks. -/
  unlocked : ∀ req, s.stage req = .completing ∨ s.stage req = .finished → s.locked req = false
  /-- Before the master is allocated there is no request. -/
  start : s.pc = .allocMaster → s.reqCount = 0

/-- The invariant of a careful run. -/
structure Inv (attribs : Attribs) (s : State) : Prop where
  /-- Requests. -/
  placed : Placed s
  /-- A request is finished only after it was counted. -/
  finished_counted : ∀ req, s.stage req = .finished → s.counted req = true
  /-- `master_remaining` counts the active requests and the calling thread. -/
  remaining_eq : s.remaining =
    (if s.pc = .allocMaster ∨ s.pc = .done then 0 else 1) + countBelow (active s) s.reqCount
  /-- The completion is called when the counter reaches zero. -/
  calls_eq : s.calls.length + s.queued = if s.pc = .done ∧ s.remaining = 0 then 1 else 0
  /-- A failure is on record. -/
  failed_error : s.ioFailed = true → s.error 0 ≠ 0
  /-- The next item is an item, or the end. -/
  curr_le : s.curr ≤ attribs.count
  /-- Requests have room. -/
  max_pos : s.curr < attribs.count → 0 < s.max
  /-- The items behind the loop are on maps. -/
  covered : s.pc ≠ .out → s.pc ≠ .done → Covered attribs s s.curr
  /-- After the loop all items are, or an error is on record. -/
  out_covered : s.pc = .out ∨ s.pc = .done → s.error 0 ≠ 0 ∨ Covered attribs s attribs.count ∨
    (s.pc = .done ∧ s.reqCount = 0 ∧ s.queued = 0 ∧ 0 ∉ s.calls)
  /-- The error that was reported is the one on record. -/
  reported : 0 ∈ s.calls → s.error 0 = 0

theorem initial_inv (attribs : Attribs) : Inv attribs (initial attribs) := by
  refine ⟨⟨fun _ _ => rfl, nofun, nofun, fun req => ⟨nofun, nofun⟩, nofun, nofun, fun _ => rfl⟩, nofun, ?_, rfl, nofun,
    Nat.zero_le _, fun hlt => ?_, fun _ _ i hi => absurd hi (Nat.not_lt_zero i), nofun, nofun⟩
  · simp [initial]
  · change 0 < getReqMaxCount attribs.count false
    change 0 < attribs.count at hlt
    unfold getReqMaxCount
    split
    · split <;> omega
    · omega

variable {attribs : Attribs} {s s' : State} {req : Nat} {stage : Stage} {isVolatile : Bool}

theorem Inv.not_called (h : Inv attribs s)
    (hfired : (s.stage req).fired) (hfin : s.stage req ≠ .finished) : s.calls = [] ∧ s.queued = 0 := by
  have hopen : ¬(s.pc = .done ∧ s.remaining = 0) := by
    rintro ⟨hpc, hzero⟩
    have hcounted : s.counted req = true := by
      by_contra hne
      obtain ⟨acquired, hcount⟩ := h.placed.uncounted req hfired (by simpa using hne)
      rw [hpc] at hcount
      cases hcount
    have hlt : req < s.reqCount := by
      by_contra hge
      exact hfired.1 (h.placed.beyond req (Nat.le_of_not_lt hge))
    have hactive : countBelow (active s) s.reqCount = 0 := by
      have hrem := h.remaining_eq
      omega
    have hnot := countBelow_eq_zero.mp hactive req hlt
    simp [active, hcounted, hfin] at hnot
  have hcalls := h.calls_eq
  rw [if_neg hopen] at hcalls
  exact ⟨List.length_eq_zero_iff.mp (by omega), by omega⟩

theorem Placed.lt (h : Placed s) (hne : s.stage req ≠ .none) : req < s.reqCount := by
  by_contra hge
  exact hne (h.beyond req (Nat.le_of_not_lt hge))

theorem Placed.move (h : Placed s) (hold : (s.stage req).fired)
    (hnew : stage.fired) (hstage : s'.stage = update s.stage req stage) (hpc : s'.pc = s.pc)
    (hcounted : s'.counted = s.counted) (hcount : s'.reqCount = s.reqCount)
    (hlocked : ∀ r, s'.stage r = .completing ∨ s'.stage r = .finished → s'.locked r = false) : Placed s' := by
  have hlt := h.lt hold.1
  have hfired : ∀ r, (s'.stage r).fired ↔ (s.stage r).fired := by
    intro r
    rw [hstage, update_apply]
    split
    · rename_i hr
      rw [hr]
      exact ⟨fun _ => hold, fun _ => hnew⟩
    · rfl
  have hlocking : ∀ r, s'.stage r = .locking ↔ s.stage r = .locking := by
    intro r
    rw [hstage, update_apply]
    split
    · rename_i hr
      rw [hr]
      exact ⟨fun heq => absurd heq hnew.2, fun heq => absurd heq hold.2⟩
    · rfl
  constructor
  · intro r hr
    rw [hcount] at hr
    rw [hstage, update_of_ne (by omega)]
    exact h.beyond r hr
  · intro r hr
    rw [hcounted] at hr
    exact (hfired r).mpr (h.counted_fired r hr)
  · intro r hr hc
    rw [hcounted] at hc
    rw [hpc]
    exact h.uncounted r ((hfired r).mp hr) hc
  · intro r
    rw [hpc, hlocking]
    exact h.pc_fire r
  · intro r acquired hr
    rw [hpc] at hr
    rw [hcounted, hfired]
    exact h.pc_count r acquired hr
  · exact hlocked
  · intro hp
    rw [hpc] at hp
    rw [hcount]
    exact h.start hp

theorem Covered.mono {bound : Nat} (h : Covered attribs s bound)
    (hs : ∀ req, s.stage req ≠ .none → s'.stage req ≠ .none ∧ s'.map req = s.map req) :
    Covered attribs s' bound := by
  intro i hi line hline
  obtain ⟨req, hne, e, he, hidx⟩ := h i hi line hline
  obtain ⟨hne', hmap⟩ := hs req hne
  exact ⟨req, hne', e, by rw [hmap]; exact he, hidx⟩

theorem nextStage_fired {stage' : Stage} {event : Event}
    (h : nextStage isVolatile stage event = some stage') :
    stage.fired ∧ stage ≠ .finished ∧ stage'.fired ∧ stage' ≠ .finished := by
  have hcases : ∀ (c : Prop) [Decidable c] (a b : Stage), a.fired ∧ a ≠ .finished → b.fired ∧ b ≠ .finished →
      (if c then a else b).fired ∧ (if c then a else b) ≠ .finished := by
    intro c _ a b ha hb
    split
    · exact ha
    · exact hb
  cases stage <;> cases event <;> simp only [nextStage, Option.some.injEq, reduceCtorEq] at h <;>
    subst h <;> refine ⟨by decide, by decide, ?_⟩ <;>
    first
      | exact ⟨by decide, by decide⟩
      | exact hcases _ _ _ (by decide) (by decide)

theorem restage (hunfin : s.stage req ≠ .finished) (hnew : stage.fired)
    (hunfin' : stage ≠ .finished) :
    (∀ r, update s.stage req stage r = .finished ↔ s.stage r = .finished) ∧
      (∀ r, s.stage r ≠ .none → update s.stage req stage r ≠ .none ∧ s.map r = s.map r) ∧
      countBelow (fun r => s.counted r && decide (update s.stage req stage r ≠ .finished)) s.reqCount =
        countBelow (active s) s.reqCount := by
  have hfin : ∀ r, update s.stage req stage r = .finished ↔ s.stage r = .finished := by
    intro r
    rw [update_apply]
    split
    · rename_i hr
      rw [hr]
      exact ⟨fun heq => absurd heq hunfin', fun heq => absurd heq hunfin⟩
    · rfl
  refine ⟨hfin, fun r hr => ⟨?_, rfl⟩, countBelow_congr fun r _ => ?_⟩
  · rw [update_apply]
    split
    · exact hnew.1
    · exact hr
  · simp only [active, ne_eq, hfin r]

theorem restage_inv (h : Inv attribs s)
    (hold : (s.stage req).fired) (hunfin : s.stage req ≠ .finished) (hnew : stage.fired)
    (hunfin' : stage ≠ .finished) (huncomp : stage ≠ .completing) :
    Inv attribs { s with stage := update s.stage req stage } := by
  obtain ⟨hfin, hsame, hactive⟩ := restage hunfin hnew hunfin'
  refine ⟨h.placed.move hold hnew rfl rfl rfl rfl fun r hr => ?_, fun r hr => ?_, ?_, h.calls_eq, h.failed_error,
    h.curr_le, h.max_pos, fun hout hdone => (h.covered hout hdone).mono hsame, fun hpc => ?_, h.reported⟩
  · change update s.stage req stage r = .completing ∨ update s.stage req stage r = .finished at hr
    by_cases hreq : r = req
    · rw [hreq, update_self] at hr
      rcases hr with hr | hr
      · exact absurd hr huncomp
      · exact absurd hr hunfin'
    · rw [update_of_ne hreq] at hr
      exact h.placed.unlocked r hr
  · exact h.finished_counted r ((hfin r).mp hr)
  · have hrem := h.remaining_eq
    rw [← hactive] at hrem
    exact hrem
  · rcases h.out_covered hpc with herr | hcov | hempty
    · exact Or.inl herr
    · exact Or.inr (Or.inl (hcov.mono hsame))
    · exact Or.inr (Or.inr hempty)

theorem recordError_careful {event : Event} (hcare : Careful s (.event req event)) :
    (event.failure ≠ 0 → recordError req s.error event 0 ≠ 0) ∧
      (s.error 0 ≠ 0 → recordError req s.error event 0 ≠ 0) := by
  unfold recordError
  by_cases hf : event.failure = 0
  · rw [if_pos hf]
    exact ⟨fun h => absurd hf h, id⟩
  · rw [if_neg hf]
    have hio : update s.error 0 errIo 0 ≠ 0 := by
      rw [update_self]
      decide
    cases event with
    | metadataIoEnd error =>
      rcases hcare with hreq | hzero
      · subst hreq
        have hset : update s.error 0 error 0 ≠ 0 := by
          exact hf
        exact ⟨fun _ => hset, fun _ => hset⟩
      · exact absurd hzero hf
    | flushCacheEnd error => exact absurd hcare hf
    | cacheIoEnd error => exact ⟨fun _ => hio, fun _ => hio⟩
    | coreIoEnd error => exact ⟨fun _ => hio, fun _ => hio⟩
    | flushCoreEnd error => exact ⟨fun _ => hio, fun _ => hio⟩
    | resume => exact absurd rfl hf
    | checkMap nothing => exact absurd rfl hf
    | updateMetadata => exact absurd rfl hf
    | unlock => exact absurd rfl hf

theorem event_inv {event : Event} (h : Inv attribs s) (hcare : Careful s (.event req event))
    (hs : step attribs isVolatile s (.event req event) = some s') : Inv attribs s' := by
  simp only [step] at hs
  cases hnext : nextStage isVolatile (s.stage req) event with
  | none =>
    rw [hnext] at hs
    cases hs
  | some stage =>
    rw [hnext] at hs
    cases hs
    obtain ⟨hold, hunfin, hnew, hunfin'⟩ := nextStage_fired hnext
    obtain ⟨hcalls, hqueued⟩ := h.not_called hold hunfin
    obtain ⟨hfail, hkeep⟩ := recordError_careful hcare
    obtain ⟨hfin, hsame, hactive⟩ := restage hunfin hnew hunfin'
    refine ⟨h.placed.move hold hnew rfl rfl rfl rfl fun r hr => ?_, fun r hr => ?_, ?_, h.calls_eq, ?_,
      h.curr_le, h.max_pos, fun hout hdone => (h.covered hout hdone).mono hsame, fun hpc => ?_, fun hin => ?_⟩
    · change update s.stage req stage r = .completing ∨ update s.stage req stage r = .finished at hr
      change (if stage = .completing then update s.locked req false else s.locked) r = false
      by_cases hreq : r = req
      · subst hreq
        rw [update_self] at hr
        rw [if_pos (hr.resolve_right hunfin'), update_self]
      · rw [update_of_ne hreq] at hr
        have hunl := h.placed.unlocked r hr
        split
        · rw [update_of_ne hreq]
          exact hunl
        · exact hunl
    · exact h.finished_counted r ((hfin r).mp hr)
    · have hrem := h.remaining_eq
      rw [← hactive] at hrem
      exact hrem
    · intro hio
      rcases Bool.or_eq_true_iff.mp hio with hio | hio
      · exact hkeep (h.failed_error hio)
      · exact hfail (of_decide_eq_true hio)
    · rcases h.out_covered hpc with herr | hcov | ⟨-, hzero, -⟩
      · exact Or.inl (hkeep herr)
      · exact Or.inr (Or.inl (hcov.mono hsame))
      · have hlt := h.placed.lt hold.1
        omega
    · change 0 ∈ s.calls at hin
      rw [hcalls] at hin
      cases hin

theorem completeReq_inv {t : State} (hplaced : Placed t)
    (hfin : ∀ req, t.stage req = .finished → t.counted req = true) (hpc : t.pc ≠ .allocMaster)
    (hrem : t.remaining - 1 = (if t.pc = .done then 0 else 1) + countBelow (active t) t.reqCount)
    (hcalls : t.calls = []) (hqueued : t.queued = 0) (hfailed : t.ioFailed = true → t.error 0 ≠ 0)
    (hcurr : t.curr ≤ attribs.count) (hmax : t.curr < attribs.count → 0 < t.max)
    (hcov : t.pc ≠ .out → t.pc ≠ .done → Covered attribs t t.curr)
    (hout : t.pc = .out ∨ t.pc = .done → t.error 0 ≠ 0 ∨ Covered attribs t attribs.count) :
    Inv attribs (completeReq attribs t) := by
  have hrem' : t.remaining - 1 =
      (if t.pc = .allocMaster ∨ t.pc = .done then 0 else 1) + countBelow (active t) t.reqCount := by
    simp only [hpc, false_or]
    exact hrem
  have hdone : t.remaining - 1 = 0 → t.pc = .done := by
    intro hzero
    by_contra hne
    rw [if_neg hne] at hrem
    omega
  have hplaced' : ∀ remaining queued calls, Placed { t with remaining, queued, calls } := fun _ _ _ =>
    ⟨hplaced.beyond, hplaced.counted_fired, hplaced.uncounted, hplaced.pc_fire, hplaced.pc_count,
      hplaced.unlocked, hplaced.start⟩
  have hout' : t.pc = .out ∨ t.pc = .done → t.error 0 ≠ 0 ∨ Covered attribs t attribs.count ∨
      (t.pc = .done ∧ t.reqCount = 0 ∧ t.queued = 0 ∧ 0 ∉ t.calls) := fun hp => by
    rcases hout hp with herr | hcovered
    · exact Or.inl herr
    · exact Or.inr (Or.inl hcovered)
  unfold completeReq
  by_cases hzero : t.remaining - 1 = 0
  · rw [if_neg (by simpa using hzero)]
    have hpcdone := hdone hzero
    have hcovered := hout (Or.inr hpcdone)
    split
    · refine ⟨hplaced' _ _ _, hfin, hrem', ?_, hfailed, hcurr, hmax, hcov, fun _ => ?_, ?_⟩
      · simp [hcalls, hqueued, hpcdone, hzero]
      · rcases hcovered with herr | hcovered
        · exact Or.inl herr
        · exact Or.inr (Or.inl hcovered)
      · exact fun hin => absurd hin (by rw [hcalls]; simp)
    · refine ⟨hplaced' _ _ _, hfin, hrem', ?_, hfailed, hcurr, hmax, hcov, fun _ => ?_, fun hin => ?_⟩
      · simp [hcalls, hqueued, hpcdone, hzero]
      · rcases hcovered with herr | hcovered
        · exact Or.inl herr
        · exact Or.inr (Or.inl hcovered)
      · change 0 ∈ t.calls ++ [t.error 0] at hin
        rw [hcalls, List.nil_append, List.mem_singleton] at hin
        exact hin.symm
  · rw [if_pos hzero]
    refine ⟨hplaced' _ _ _, hfin, hrem', ?_, hfailed, hcurr, hmax, hcov, hout', ?_⟩
    · simp [hcalls, hqueued, hzero]
    · exact fun hin => absurd hin (by rw [hcalls]; simp)

section

variable (h : Inv attribs s)
include h

/-- A completion takes one count. -/
theorem complete_inv
    (hcare : Careful s (.complete req)) (hs : step attribs isVolatile s (.complete req) = some s') :
    Inv attribs s' := by
  simp only [step] at hs
  split at hs
  · rename_i hstage
    cases hs
    have hold : (s.stage req).fired := by
      rw [hstage]
      decide
    have hlt := h.placed.lt hold.1
    obtain ⟨hcalls, hqueued⟩ := h.not_called hold (by rw [hstage]; decide)
    have hstart : s.pc ≠ .allocMaster := fun hpc => by
      have hzero := h.placed.start hpc
      omega
    have hsame : ∀ r, s.stage r ≠ .none →
        update s.stage req .finished r ≠ .none ∧ s.map r = s.map r := by
      intro r hr
      refine ⟨?_, rfl⟩
      rw [update_apply]
      split
      · decide
      · exact hr
    refine completeReq_inv (h.placed.move hold (by decide) rfl rfl rfl rfl fun r hr => ?_) (fun r hr => ?_)
      hstart ?_ hcalls hqueued h.failed_error h.curr_le h.max_pos
      (fun hout hdone => (h.covered hout hdone).mono hsame) fun hpc => ?_
    · by_cases hreq : r = req
      · subst hreq
        exact h.placed.unlocked r (Or.inl hstage)
      · change update s.stage req .finished r = _ ∨ update s.stage req .finished r = _ at hr
        rw [update_of_ne hreq] at hr
        exact h.placed.unlocked r hr
    · by_cases hreq : r = req
      · rw [hreq]
        exact hcare
      · change update s.stage req .finished r = _ at hr
        rw [update_of_ne hreq] at hr
        exact h.finished_counted r hr
    · have hchange := countBelow_change (p := active s) (q := active { s with
        stage := update s.stage req .finished }) hlt fun r _ hr => by
          simp only [active, update_of_ne hr]
      have hbefore : active s req = true := by
        have hcounted : s.counted req = true := hcare
        simp [active, hcounted, hstage]
      have hafter : active { s with stage := update s.stage req .finished } req = false := by
        simp [active]
      rw [hbefore, hafter] at hchange
      simp only [Bool.toNat_true, Bool.toNat_false, Nat.add_zero] at hchange
      have hrem := h.remaining_eq
      simp only [hstart, false_or] at hrem
      have hless : s.remaining - 1 = (if s.pc = .done then 0 else 1) +
          ((countBelow (active { s with stage := update s.stage req .finished }) s.reqCount : Nat) : Int) := by
        omega
      exact hless
    · rcases h.out_covered hpc with herr | hcov | ⟨-, hzero, -⟩
      · exact Or.inl herr
      · exact Or.inr (hcov.mono hsame)
      · omega
  · cases hs

theorem out_inv (hs : step attribs isVolatile s .out = some s') : Inv attribs s' := by
  simp only [step] at hs
  split at hs
  · rename_i hpc
    cases hs
    have hopen := h.calls_eq
    rw [if_neg (by rw [hpc]; nofun)] at hopen
    have hcalls : s.calls = [] := List.length_eq_zero_iff.mp (by omega)
    have hqueued : s.queued = 0 := by omega
    refine completeReq_inv ⟨h.placed.beyond, h.placed.counted_fired, fun r hr hc => ?_, fun r => ?_, nofun,
      h.placed.unlocked, nofun⟩ h.finished_counted nofun ?_ hcalls hqueued
      h.failed_error h.curr_le h.max_pos (fun _ hdone => absurd rfl hdone) fun _ => ?_
    · obtain ⟨acquired, hcount⟩ := h.placed.uncounted r hr hc
      rw [hpc] at hcount
      cases hcount
    · have hfire := h.placed.pc_fire r
      rw [hpc] at hfire
      exact ⟨nofun, fun hr => by cases hfire.mpr hr⟩
    · have hrem := h.remaining_eq
      rw [hpc, if_neg (by nofun)] at hrem
      change s.remaining - 1 = (if Pc.done = .done then 0 else 1) + ((countBelow (active s) s.reqCount : Nat) : Int)
      rw [hrem, if_pos rfl]
      omega
    · rcases h.out_covered (Or.inl hpc) with herr | hcov | ⟨hdone, -⟩
      · exact Or.inl herr
      · exact Or.inr hcov
      · rw [hpc] at hdone
        cases hdone
  · cases hs

theorem runCompletion_inv
    (hs : step attribs isVolatile s .runCompletion = some s') : Inv attribs s' := by
  simp only [step] at hs
  split at hs
  · cases hs
  · rename_i hqueued
    cases hs
    have hcalls := h.calls_eq
    have hle : (if s.pc = .done ∧ s.remaining = 0 then 1 else 0) ≤ 1 := by
      split <;> omega
    have hnil : s.calls = [] := List.length_eq_zero_iff.mp (by omega)
    refine ⟨⟨h.placed.beyond, h.placed.counted_fired, h.placed.uncounted, h.placed.pc_fire, h.placed.pc_count,
      h.placed.unlocked, h.placed.start⟩, h.finished_counted, h.remaining_eq, ?_, h.failed_error, h.curr_le,
      h.max_pos, h.covered, fun hpc => ?_, fun hin => ?_⟩
    · change (s.calls ++ [s.error 0]).length + (s.queued - 1) = _
      rw [← hcalls, List.length_append, List.length_singleton]
      omega
    · rcases h.out_covered hpc with herr | hcov | ⟨-, -, hzero, -⟩
      · exact Or.inl herr
      · exact Or.inr (Or.inl hcov)
      · exact absurd hzero hqueued
    · change 0 ∈ s.calls ++ [s.error 0] at hin
      rw [hnil, List.nil_append, List.mem_singleton] at hin
      exact hin.symm

theorem Inv.inHand (hpc : s.pc = .fire req) :
    s.stage req = .locking ∧ req < s.reqCount ∧ s.calls = [] ∧ s.queued = 0 ∧ s.counted req = false ∧
      (∀ r, (s.stage r).fired → s.counted r = true) ∧ (∀ r, s.stage r = .locking → r = req) ∧
      s.remaining = 1 + countBelow (active s) s.reqCount := by
  have hlocking := (h.placed.pc_fire req).mp hpc
  have hcalls := h.calls_eq
  rw [if_neg (by rw [hpc]; nofun)] at hcalls
  have hrem := h.remaining_eq
  rw [hpc, if_neg (by nofun)] at hrem
  refine ⟨hlocking, h.placed.lt (by rw [hlocking]; decide), List.length_eq_zero_iff.mp (by omega), by omega, ?_,
    fun r hr => ?_, fun r hr => ?_, hrem⟩
  · by_contra hne
    have hfired := h.placed.counted_fired req (by simpa using hne)
    exact hfired.2 hlocking
  · by_contra hne
    obtain ⟨acquired, hcount⟩ := h.placed.uncounted r hr (by simpa using hne)
    rw [hpc] at hcount
    cases hcount
  · have hfire := (h.placed.pc_fire r).mpr hr
    rw [hpc] at hfire
    cases hfire
    rfl

/-- A request that is fired is counted next. -/
theorem fire_inv
    (hpc : s.pc = .fire req) (acquired : Bool) (hfired : stage.fired) (hunfin : stage ≠ .finished)
    (huncomp : stage ≠ .completing) : Inv attribs { s with
      pc := .count req acquired, stage := update s.stage req stage
      locked := update s.locked req true } := by
  obtain ⟨hlocking, hlt, hnil, hqueued, huncounted, hall, hone, hrem⟩ := h.inHand hpc
  have hcovered := h.covered (by rw [hpc]; nofun) (by rw [hpc]; nofun)
  refine ⟨⟨fun r hr => ?_, fun r hr => ?_, fun r hr hc => ?_, fun r => ?_, fun r a heq => ?_, fun r hr => ?_,
    nofun⟩, fun r hr => ?_, ?_, ?_, h.failed_error, h.curr_le, h.max_pos, fun _ _ => hcovered.mono fun r hr => ?_,
    nofun, h.reported⟩
  · change s.reqCount ≤ r at hr
    change update s.stage req stage r = .none
    rw [update_of_ne (by omega)]
    exact h.placed.beyond r hr
  · change (update s.stage req stage r).fired
    rw [update_apply]
    split
    · exact hfired
    · exact h.placed.counted_fired r hr
  · change (update s.stage req stage r).fired at hr
    change s.counted r = false at hc
    by_cases hreq : r = req
    · exact ⟨acquired, by rw [hreq]⟩
    · rw [update_of_ne hreq] at hr
      rw [hall r hr] at hc
      cases hc
  · refine ⟨nofun, fun hr => ?_⟩
    change update s.stage req stage r = .locking at hr
    by_cases hreq : r = req
    · rw [hreq, update_self] at hr
      exact absurd hr hfired.2
    · rw [update_of_ne hreq] at hr
      exact absurd (hone r hr) hreq
  · cases heq
    refine ⟨?_, huncounted⟩
    change (update s.stage req stage req).fired
    rw [update_self]
    exact hfired
  · change update s.stage req stage r = _ ∨ update s.stage req stage r = _ at hr
    change update s.locked req true r = false
    by_cases hreq : r = req
    · rw [hreq, update_self] at hr
      rcases hr with hr | hr
      · exact absurd hr huncomp
      · exact absurd hr hunfin
    · rw [update_of_ne hreq] at hr ⊢
      exact h.placed.unlocked r hr
  · change update s.stage req stage r = .finished at hr
    by_cases hreq : r = req
    · rw [hreq, update_self] at hr
      exact absurd hr hunfin
    · rw [update_of_ne hreq] at hr
      exact h.finished_counted r hr
  · rw [if_neg (by nofun)]
    change s.remaining = _
    rw [hrem]
    refine congrArg (fun n : Nat => (1 : Int) + n) (countBelow_congr fun r _ => ?_)
    by_cases hreq : r = req
    · simp [active, hreq, huncounted]
    · simp [active, update_of_ne hreq]
  · rw [if_neg (by nofun)]
    simp [hnil, hqueued]
  · refine ⟨?_, rfl⟩
    change update s.stage req stage r ≠ .none
    rw [update_apply]
    split
    · exact hfired.1
    · exact hr

/-- A request that cannot be fired leaves its error. -/
theorem fireError_inv {code : Int} (hpc : s.pc = .fire req) (hcode : code < 0) :
    Inv attribs { s with
      pc := .out, stage := update s.stage req .none, error := update s.error 0 code } := by
  obtain ⟨hlocking, hlt, hnil, hqueued, huncounted, hall, hone, hrem⟩ := h.inHand hpc
  have herror : update s.error 0 code 0 ≠ 0 := by
    rw [update_self]
    omega
  have hkept : ∀ r, update s.stage req .none r ≠ .none → r ≠ req ∧ s.stage r =
      update s.stage req .none r := by
    intro r hr
    by_cases hreq : r = req
    · rw [hreq, update_self] at hr
      exact absurd rfl hr
    · exact ⟨hreq, (update_of_ne hreq _ _).symm⟩
  refine ⟨⟨fun r hr => ?_, fun r hr => ?_, fun r hr hc => ?_, fun r => ?_, nofun, fun r hr => ?_, nofun⟩,
    fun r hr => ?_, ?_, ?_, fun _ => herror, h.curr_le, h.max_pos, fun hout => absurd rfl hout,
    fun _ => Or.inl herror, fun hin => ?_⟩
  · change s.reqCount ≤ r at hr
    change update s.stage req .none r = .none
    rw [update_of_ne (by omega)]
    exact h.placed.beyond r hr
  · have hreq : r ≠ req := fun heq => by
      change s.counted r = true at hr
      rw [heq, huncounted] at hr
      cases hr
    change (update s.stage req .none r).fired
    rw [update_of_ne hreq]
    exact h.placed.counted_fired r hr
  · change (update s.stage req .none r).fired at hr
    obtain ⟨-, heq⟩ := hkept r hr.1
    rw [← heq] at hr
    change s.counted r = false at hc
    rw [hall r hr] at hc
    cases hc
  · refine ⟨nofun, fun hr => ?_⟩
    change update s.stage req .none r = .locking at hr
    obtain ⟨hreq, heq⟩ := hkept r (by rw [hr]; decide)
    rw [← heq] at hr
    exact absurd (hone r hr) hreq
  · change update s.stage req .none r = _ ∨ update s.stage req .none r = _ at hr
    obtain ⟨-, heq⟩ := hkept r (by rcases hr with hr | hr <;> rw [hr] <;> decide)
    rw [← heq] at hr
    exact h.placed.unlocked r hr
  · change update s.stage req .none r = .finished at hr
    obtain ⟨-, heq⟩ := hkept r (by rw [hr]; decide)
    rw [← heq] at hr
    exact h.finished_counted r hr
  · rw [if_neg (by nofun)]
    change s.remaining = _
    rw [hrem]
    refine congrArg (fun n : Nat => (1 : Int) + n) (countBelow_congr fun r _ => ?_)
    by_cases hreq : r = req
    · simp [active, hreq, huncounted]
    · simp [active, update_of_ne hreq]
  · rw [if_neg (by nofun)]
    simp [hnil, hqueued]
  · change 0 ∈ s.calls at hin
    rw [hnil] at hin
    cases hin

theorem lock_inv {result : LockResult}
    (hs : step attribs isVolatile s (.lock result) = some s') : Inv attribs s' := by
  simp only [step] at hs
  split at hs
  · rename_i req hpc
    cases result with
    | acquired =>
      cases hs
      exact fire_inv h hpc true (by decide) (by decide) (by decide)
    | notAcquired =>
      cases hs
      exact fire_inv h hpc false (by decide) (by decide) (by decide)
    | error code =>
      simp only at hs
      split at hs
      · rename_i hcode
        cases hs
        exact fireError_inv h hpc hcode
      · cases hs
  · cases hs

end

end OcfCache.Cleaner
