import OcfCache.CleanerCompletion

/-!
# What the completion of a cleaning call reports

The steps of the calling thread, the invariant along whole runs and what
follows for the caller: as long as no slave loses a metadata error, no cache
flush fails and no request finishes before it is counted, the completion comes
once, last and with every failure. Three short runs show that each of the
conditions is needed.
-/

namespace OcfCache.Cleaner

open Function Metadata Loops Runs

variable {attribs : Attribs} {s s' : State} {isVolatile : Bool}

/-- A fired request is counted. -/
theorem count_inv {req : Nat} {acquired : Bool} (h : Inv attribs s)
    (hpc : s.pc = .count req acquired) : Inv attribs { s with
      pc := .loop, remaining := s.remaining + 1, counted := update s.counted req true } := by
  obtain ⟨hfired, huncounted⟩ := h.placed.pc_count req acquired hpc
  have hlt := h.placed.lt hfired.1
  have hunfin : s.stage req ≠ .finished := fun heq => by
    have hcounted := h.finished_counted req heq
    rw [huncounted] at hcounted
    cases hcounted
  obtain ⟨hnil, hqueued⟩ := h.not_called hfired hunfin
  have hcovered := h.covered (by rw [hpc]; simp) (by rw [hpc]; simp)
  refine ⟨⟨h.placed.beyond, fun r hr => ?_, fun r hr hc => ?_, fun r => ?_, (by simp), h.placed.unlocked, (by simp)⟩,
    fun r hr => ?_, ?_, ?_, h.failed_error, h.curr_le, h.max_pos, fun _ _ => hcovered, (by simp), h.reported⟩
  · change update s.counted req true r = true at hr
    by_cases hreq : r = req
    · rw [hreq]
      exact hfired
    · rw [update_of_ne hreq] at hr
      exact h.placed.counted_fired r hr
  · change update s.counted req true r = false at hc
    by_cases hreq : r = req
    · rw [hreq, update_self] at hc
      cases hc
    · rw [update_of_ne hreq] at hc
      obtain ⟨a, hcount⟩ := h.placed.uncounted r hr hc
      rw [hpc] at hcount
      cases hcount
      exact absurd rfl hreq
  · have hfire := h.placed.pc_fire r
    rw [hpc] at hfire
    exact ⟨(by simp), fun hr => by cases hfire.mpr hr⟩
  · change update s.counted req true r = true
    rw [update_apply]
    split
    · rfl
    · exact h.finished_counted r hr
  · have hchange := countBelow_change (p := active s) (q := active { s with
      counted := update s.counted req true }) hlt fun r _ hr => by
        simp only [active, update_of_ne hr]
    have hbefore : active s req = false := by simp [active, huncounted]
    have hafter : active { s with counted := update s.counted req true } req = true := by
      simp [active, hunfin]
    rw [hbefore, hafter] at hchange
    simp only [Bool.toNat_true, Bool.toNat_false, Nat.add_zero] at hchange
    have hrem := h.remaining_eq
    rw [hpc, if_neg (by simp)] at hrem
    have hmore : s.remaining + 1 = 1 +
        ((countBelow (active { s with counted := update s.counted req true }) s.reqCount : Nat) : Int) := by
      omega
    exact hmore
  · rw [if_neg (by simp)]
    simp [hnil, hqueued]

theorem inc_inv (h : Inv attribs s)
    (hs : step attribs isVolatile s .inc = some s') : Inv attribs s' := by
  simp only [step] at hs
  split at hs
  · rename_i req acquired hpc
    cases hs
    obtain ⟨hfired, huncounted⟩ := h.placed.pc_count req acquired hpc
    have hunfin : s.stage req ≠ .finished := fun heq => by
      have hcounted := h.finished_counted req heq
      rw [huncounted] at hcounted
      cases hcounted
    cases acquired with
    | false => exact count_inv h hpc
    | true => exact count_inv (restage_inv h hfired hunfin (by decide) (by decide) (by decide)) hpc
  · cases hs

/-- The state in which a request can be added. -/
structure Ready (attribs : Attribs) (t : State) : Prop where
  /-- Requests. -/
  placed : Placed t
  /-- No request is in hand. -/
  counted : ∀ req, (t.stage req).fired → t.counted req = true
  /-- No request is being locked. -/
  not_locking : ∀ req, t.stage req ≠ .locking
  /-- The calling thread counts in `master_remaining`. -/
  remaining_eq : t.remaining = 1 + countBelow (active t) t.reqCount
  /-- The completion was not called. -/
  calls_eq : t.calls = []
  /-- Nor queued. -/
  queued_eq : t.queued = 0
  /-- A failure is on record. -/
  failed_error : t.ioFailed = true → t.error 0 ≠ 0
  /-- The next item is an item, or the end. -/
  curr_le : t.curr ≤ attribs.count
  /-- Requests have room. -/
  max_pos : t.curr < attribs.count → 0 < t.max
  /-- The items behind the loop are on maps. -/
  covered : Covered attribs t t.curr

variable {coreInfo : Nat → Nat × Nat}

/-- A filled request of the cleaner is one of its slaves. -/
theorem Ready.addReq {t : State} {size : Nat}
    (h : Ready attribs t) (hsize : t.curr < attribs.count → 0 < size) :
    Inv attribs (addReq attribs coreInfo size t) := by
  obtain ⟨map, stop, hfilled⟩ : ∃ map stop, ocfCleanerPopulateReq coreInfo attribs size t.curr = (map, stop) :=
    ⟨_, _, rfl⟩
  obtain ⟨hle, hstop, hholds, hempty⟩ := ocfCleanerPopulateReq_spec coreInfo attribs hsize h.curr_le hfilled
  have hfinished : ∀ r, t.stage r = .finished → t.counted r = true := by
    intro r hr
    exact h.counted r (by rw [hr]; decide)
  have hmax : stop < attribs.count → 0 < t.max := fun hlt => h.max_pos (by omega)
  unfold Cleaner.addReq
  simp only [hfilled]
  by_cases hnil : map = []
  · rw [if_pos hnil]
    have hall : Covered attribs t attribs.count := by
      intro i hi line hline
      rcases Nat.lt_or_ge i t.curr with hlt | hge
      · exact h.covered i hlt line hline
      · obtain ⟨e, he, -⟩ := hholds i hge (by rw [hempty hnil]; exact hi) line hline
        rw [hnil] at he
        cases he
    refine ⟨⟨h.placed.beyond, h.placed.counted_fired, fun r hr hc => ?_, fun r => ?_, (by simp), h.placed.unlocked, (by simp)⟩,
      hfinished, ?_, ?_, h.failed_error, hstop, hmax, fun hout => absurd rfl hout,
      fun _ => Or.inr (Or.inl hall), fun hin => ?_⟩
    · change t.counted r = false at hc
      rw [h.counted r hr] at hc
      cases hc
    · exact ⟨(by simp), fun hr => absurd hr (h.not_locking r)⟩
    · rw [if_neg (by simp)]
      exact h.remaining_eq
    · rw [if_neg (by simp)]
      simp [h.calls_eq, h.queued_eq]
    · change 0 ∈ t.calls at hin
      rw [h.calls_eq] at hin
      cases hin
  · rw [if_neg hnil]
    have hfresh : t.stage t.reqCount = .none := h.placed.beyond t.reqCount (Nat.le_refl _)
    have huncounted : t.counted t.reqCount = false := by
      by_contra hne
      exact (h.placed.counted_fired t.reqCount (by simpa using hne)).1 hfresh
    have hkept : ∀ r, t.stage r ≠ .none → r ≠ t.reqCount := fun r hr heq => hr (heq ▸ hfresh)
    have hold : ∀ r, update t.stage t.reqCount .locking r ≠ .locking →
        update t.stage t.reqCount .locking r = t.stage r := by
      intro r hr
      by_cases hreq : r = t.reqCount
      · rw [hreq, update_self] at hr
        exact absurd rfl hr
      · exact update_of_ne hreq _ _
    refine ⟨⟨fun r hr => ?_, fun r hr => ?_, fun r hr hc => ?_, fun r => ?_, (by simp), fun r hr => ?_, (by simp)⟩,
      fun r hr => ?_, ?_, ?_, h.failed_error, hstop, hmax, fun _ _ i hi line hline => ?_, (by simp), fun hin => ?_⟩
    · change t.reqCount + 1 ≤ r at hr
      change update t.stage t.reqCount .locking r = .none
      rw [update_of_ne (by omega)]
      exact h.placed.beyond r (by omega)
    · have hfired := h.placed.counted_fired r hr
      change (update t.stage t.reqCount .locking r).fired
      rw [update_of_ne (hkept r hfired.1)]
      exact hfired
    · change (update t.stage t.reqCount .locking r).fired at hr
      rw [hold r hr.2] at hr
      change t.counted r = false at hc
      rw [h.counted r hr] at hc
      cases hc
    · constructor
      · intro heq
        cases heq
        exact update_self _ _ _
      · intro hr
        change update t.stage t.reqCount .locking r = .locking at hr
        by_cases hreq : r = t.reqCount
        · rw [hreq]
        · rw [update_of_ne hreq] at hr
          exact absurd hr (h.not_locking r)
    · change update t.stage t.reqCount .locking r = _ ∨ update t.stage t.reqCount .locking r = _ at hr
      rw [hold r (by rcases hr with hr | hr <;> rw [hr] <;> decide)] at hr
      exact h.placed.unlocked r hr
    · change update t.stage t.reqCount .locking r = .finished at hr
      rw [hold r (by rw [hr]; decide)] at hr
      exact hfinished r hr
    · have hcount : countBelow (fun r => t.counted r &&
          decide (update t.stage t.reqCount .locking r ≠ .finished)) (t.reqCount + 1) =
          countBelow (active t) t.reqCount := by
        rw [countBelow_succ, huncounted, Bool.false_and, Bool.toNat_false, Nat.add_zero]
        refine countBelow_congr fun r hr => ?_
        simp only [active, update_of_ne (Nat.ne_of_lt hr)]
      have hrem := h.remaining_eq
      rw [← hcount] at hrem
      exact hrem
    · rw [if_neg (by simp)]
      simp [h.calls_eq, h.queued_eq]
    · change i < stop at hi
      rcases Nat.lt_or_ge i t.curr with hlt | hge
      · obtain ⟨r, hr, e, he, hidx⟩ := h.covered i hlt line hline
        refine ⟨r, ?_, e, ?_, hidx⟩
        · change update t.stage t.reqCount .locking r ≠ .none
          rw [update_of_ne (hkept r hr)]
          exact hr
        · change e ∈ update t.map t.reqCount map r
          rw [update_of_ne (hkept r hr)]
          exact he
      · obtain ⟨e, he, hidx⟩ := hholds i hge hi line hline
        refine ⟨t.reqCount, ?_, e, ?_, hidx⟩
        · change update t.stage t.reqCount .locking t.reqCount ≠ .none
          rw [update_self]
          decide
        · change e ∈ update t.map t.reqCount map t.reqCount
          rw [update_self]
          exact he
    · change 0 ∈ t.calls at hin
      rw [h.calls_eq] at hin
      cases hin

theorem getReqMaxCount_pos {count : Nat} (lowMem : Bool) (h : 0 < count) : 0 < getReqMaxCount count lowMem := by
  unfold getReqMaxCount
  split
  · split <;> omega
  · omega

variable {outcome : Alloc}

theorem allocSize_pos {max size : Nat} (h : allocSize max outcome = some size) (hmax : 0 < max) :
    0 < size := by
  cases outcome with
  | full =>
    cases h
    exact hmax
  | reduced =>
    cases h
    exact getReqMaxCount_pos true hmax
  | failed => cases h

/-- The first request is allocated, or the call ends. -/
theorem allocMaster_inv (h : Inv attribs s)
    (hs : step attribs isVolatile s (.allocMaster outcome coreInfo) = some s') : Inv attribs s' := by
  simp only [step] at hs
  split at hs
  · rename_i hpc
    have hzero := h.placed.start hpc
    have hnone : ∀ r, s.stage r = .none := fun r => h.placed.beyond r (by omega)
    have hcalls := h.calls_eq
    rw [if_neg (by rw [hpc]; simp)] at hcalls
    have hnil : s.calls = [] := List.length_eq_zero_iff.mp (by omega)
    have hqueued : s.queued = 0 := by omega
    have hrem := h.remaining_eq
    rw [if_pos (Or.inl hpc), hzero] at hrem
    have hcovered := h.covered (by rw [hpc]; simp) (by rw [hpc]; simp)
    cases hsize : allocSize s.max outcome with
    | none =>
      rw [hsize] at hs
      cases hs
      have hremaining : s.remaining = 0 := by simpa using hrem
      have hnot : (0 : Int) ∉ s.calls ++ [errNoMem] := by
        rw [hnil]
        decide
      refine ⟨⟨h.placed.beyond, h.placed.counted_fired, fun r hr => ?_, fun r => ⟨(by simp), fun hr => ?_⟩, (by simp),
        h.placed.unlocked, (by simp)⟩, h.finished_counted, ?_, ?_, h.failed_error, h.curr_le, h.max_pos,
        fun _ hdone => absurd rfl hdone, fun _ => Or.inr (Or.inr ⟨rfl, hzero, hqueued, fun hin => ?_⟩), fun hin => ?_⟩
      · exact absurd (hnone r) hr.1
      · change s.stage r = .locking at hr
        rw [hnone r] at hr
        cases hr
      · rw [if_pos (Or.inr rfl)]
        change s.remaining = 0 + ((countBelow _ s.reqCount : Nat) : Int)
        rw [hzero, hremaining]
        rfl
      · rw [if_pos ⟨rfl, hremaining⟩]
        simp [hnil, hqueued]
      · exact hnot hin
      · exact absurd hin hnot
    | some size =>
      rw [hsize] at hs
      cases hs
      refine Ready.addReq ⟨⟨h.placed.beyond, h.placed.counted_fired, h.placed.uncounted, h.placed.pc_fire,
        h.placed.pc_count, h.placed.unlocked, h.placed.start⟩, fun r hr => ?_, fun r hr => ?_, ?_, hnil, hqueued,
        h.failed_error, h.curr_le, h.max_pos, hcovered⟩ fun hlt => allocSize_pos hsize (h.max_pos hlt)
      · exact absurd (hnone r) hr.1
      · change s.stage r = .locking at hr
        rw [hnone r] at hr
        cases hr
      · change (1 : Int) = 1 + ((countBelow _ s.reqCount : Nat) : Int)
        rw [hzero]
        rfl
  · cases hs

theorem Inv.ready (h : Inv attribs s) (hpc : s.pc = .loop) : Ready attribs s := by
  have hcalls := h.calls_eq
  rw [if_neg (by rw [hpc]; nofun)] at hcalls
  have hrem := h.remaining_eq
  rw [hpc, if_neg (by nofun)] at hrem
  refine ⟨h.placed, fun r hr => ?_, fun r hr => ?_, hrem, List.length_eq_zero_iff.mp (by omega), by omega,
    h.failed_error, h.curr_le, h.max_pos, h.covered (by rw [hpc]; nofun) (by rw [hpc]; nofun)⟩
  · by_contra hne
    obtain ⟨acquired, hcount⟩ := h.placed.uncounted r hr (by simpa using hne)
    rw [hpc] at hcount
    cases hcount
  · have hfire := (h.placed.pc_fire r).mpr hr
    rw [hpc] at hfire
    cases hfire

theorem Ready.out {t : State} {max : Nat} {error : Nat → Int} (h : Ready attribs t)
    (hmax : t.curr < attribs.count → 0 < max) (hfailed : t.ioFailed = true → error 0 ≠ 0)
    (hdone : error 0 ≠ 0 ∨ Covered attribs t attribs.count) :
    Inv attribs { t with max, error, pc := .out } := by
  refine ⟨⟨h.placed.beyond, h.placed.counted_fired, fun r hr hc => ?_, fun r => ⟨nofun, fun hr => ?_⟩, nofun,
    h.placed.unlocked, nofun⟩, fun r hr => ?_, ?_, ?_, hfailed, h.curr_le, hmax, fun hout => absurd rfl hout,
    fun _ => ?_, fun hin => ?_⟩
  · change t.counted r = false at hc
    rw [h.counted r hr] at hc
    cases hc
  · exact absurd hr (h.not_locking r)
  · change t.stage r = .finished at hr
    exact h.counted r (by rw [hr]; decide)
  · rw [if_neg (by nofun)]
    exact h.remaining_eq
  · rw [if_neg (by nofun)]
    simp [h.calls_eq, h.queued_eq]
  · rcases hdone with herr | hcov
    · exact Or.inl herr
    · exact Or.inr (Or.inl hcov)
  · change 0 ∈ t.calls at hin
    rw [h.calls_eq] at hin
    cases hin

theorem allocSlave_inv (h : Inv attribs s)
    (hs : step attribs isVolatile s (.allocSlave outcome coreInfo) = some s') : Inv attribs s' := by
  simp only [step] at hs
  split at hs
  · rename_i hloop
    obtain ⟨hpc, hlt⟩ := hloop
    have hready := h.ready hpc
    have hmax : 0 < min s.max (attribs.count - s.curr) := by
      have hpos := h.max_pos hlt
      omega
    cases hsize : allocSize (min s.max (attribs.count - s.curr)) outcome with
    | none =>
      rw [hsize] at hs
      cases hs
      have herror : update s.error 0 errNoMem 0 ≠ 0 := by
        rw [update_self]
        decide
      exact hready.out (fun _ => hmax) (fun _ => herror) (Or.inl herror)
    | some size =>
      rw [hsize] at hs
      cases hs
      refine Ready.addReq ⟨⟨h.placed.beyond, h.placed.counted_fired, h.placed.uncounted, h.placed.pc_fire,
        h.placed.pc_count, h.placed.unlocked, h.placed.start⟩, hready.counted, hready.not_locking,
        hready.remaining_eq, hready.calls_eq, hready.queued_eq, hready.failed_error, hready.curr_le,
        fun _ => hmax, hready.covered⟩ fun _ => allocSize_pos hsize hmax
  · cases hs

theorem endLoop_inv (h : Inv attribs s)
    (hs : step attribs isVolatile s .endLoop = some s') : Inv attribs s' := by
  simp only [step] at hs
  split at hs
  · rename_i hloop
    obtain ⟨hpc, hge⟩ := hloop
    cases hs
    have hready := h.ready hpc
    have hend : s.curr = attribs.count := Nat.le_antisymm h.curr_le hge
    refine hready.out h.max_pos h.failed_error (Or.inr ?_)
    rw [← hend]
    exact hready.covered
  · cases hs

/-- A step keeps the counters and the reported errors. -/
theorem step_inv {act : Act} (h : Inv attribs s)
    (hcare : Careful s act) (hs : step attribs isVolatile s act = some s') : Inv attribs s' := by
  cases act with
  | allocMaster outcome coreInfo => exact allocMaster_inv h hs
  | lock result => exact lock_inv h hs
  | inc => exact inc_inv h hs
  | allocSlave outcome coreInfo => exact allocSlave_inv h hs
  | endLoop => exact endLoop_inv h hs
  | out => exact out_inv h hs
  | event req event => exact event_inv h hcare hs
  | complete req => exact complete_inv h hcare hs
  | runCompletion => exact runCompletion_inv h hs

theorem Inv.proper (h : Inv attribs s) : Proper attribs s := by
  have hcalls := h.calls_eq
  have hfinal : 0 < s.calls.length + s.queued → s.pc = .done ∧
      ∀ req, (s.stage req).fired → s.stage req = .finished ∧ s.locked req = false := by
    intro hpos
    have hdone : s.pc = .done := by
      by_contra hne
      rw [if_neg fun hc => hne hc.1] at hcalls
      omega
    refine ⟨hdone, fun req hfired => ?_⟩
    have hfin : s.stage req = .finished := by
      by_contra hne
      obtain ⟨hnil, hqueued⟩ := h.not_called hfired hne
      rw [hnil, hqueued] at hpos
      exact absurd hpos (by decide)
    exact ⟨hfin, h.placed.unlocked req (Or.inr hfin)⟩
  refine ⟨?_, hfinal, fun hdone hqueued hall => ?_, fun hzero => ?_⟩
  · rw [hcalls]
    split <;> omega
  · have hactive : countBelow (active s) s.reqCount = 0 := by
      refine countBelow_eq_zero.mpr fun r _ => ?_
      cases hc : s.counted r with
      | false => simp [active, hc]
      | true => simp [active, hall r (h.placed.counted_fired r hc)]
    have hrem := h.remaining_eq
    rw [if_pos (Or.inr hdone), hactive] at hrem
    rw [if_pos ⟨hdone, by simpa using hrem⟩] at hcalls
    omega
  · have hpos : 0 < s.calls.length + s.queued := by
      have hlen := List.length_pos_of_mem hzero
      omega
    obtain ⟨hdone, -⟩ := hfinal hpos
    have herror := h.reported hzero
    have hok : s.ioFailed = false := by
      by_contra hne
      exact h.failed_error (by simpa using hne) herror
    refine ⟨hok, fun i hi line hline => ?_⟩
    rcases h.out_covered (Or.inr hdone) with herr | hcov | ⟨-, -, -, hnot⟩
    · exact absurd herror herr
    · obtain ⟨req, hne, e, he, hidx⟩ := hcov i hi line hline
      refine ⟨req, ⟨hne, fun hlocking => ?_⟩, e, he, hidx⟩
      have hfire := (h.placed.pc_fire req).mpr hlocking
      rw [hdone] at hfire
      cases hfire
    · exact absurd hzero hnot

/-- In every run of a cleaning call in which metadata flushes fail in the
master only, no cache flush fails and no request completes before the calling
thread has counted it, for every number of lines, every split and every
interleaving: the completion is called at most once and only after every fired
request has finished and unlocked its lines, it is called once nothing is left
to happen, and it reports success only if every line was fired and no I/O
failed. -/
theorem completion_once_and_honest (attribs : Attribs) (isVolatile : Bool) {s : State}
    (h : Reachable (system attribs isVolatile Careful) (initial attribs) s) : Proper attribs s := by
  have hinv : Inv attribs s := RunIn.invariant h (fun _ => initial_inv attribs)
    fun t act t' ht _ hcare hs _ => step_inv ht hcare hs
  exact hinv.proper

instance : (s : State) → (act : Act) → Decidable (Careful s act)
  | _, .event req (.metadataIoEnd error) => inferInstanceAs (Decidable (req = 0 ∨ error = 0))
  | _, .event _ (.flushCacheEnd error) => inferInstanceAs (Decidable (error = 0))
  | s, .complete req => inferInstanceAs (Decidable (s.counted req = true))
  | _, .event _ .resume => isTrue trivial
  | _, .event _ (.checkMap _) => isTrue trivial
  | _, .event _ (.cacheIoEnd _) => isTrue trivial
  | _, .event _ (.coreIoEnd _) => isTrue trivial
  | _, .event _ (.flushCoreEnd _) => isTrue trivial
  | _, .event _ .updateMetadata => isTrue trivial
  | _, .event _ .unlock => isTrue trivial
  | _, .allocMaster _ _ => isTrue trivial
  | _, .lock _ => isTrue trivial
  | _, .inc => isTrue trivial
  | _, .allocSlave _ _ => isTrue trivial
  | _, .endLoop => isTrue trivial
  | _, .out => isTrue trivial
  | _, .runCompletion => isTrue trivial

/-- Lines to clean, in order. -/
def firstLines (count : Nat) : Attribs := ⟨count, false, some⟩

/-- The line of an item is a line of the core with its number. -/
def ownCore (line : Nat) : Nat × Nat := (line, 0)

/-- A request that writes its lines back and completes. -/
def writeBack (req : Nat) (metadataError cacheError : Int) : List Act :=
  [.event req (.checkMap false), .event req (.cacheIoEnd 0), .event req (.coreIoEnd 0),
    .event req (.flushCoreEnd 0), .event req .updateMetadata, .event req (.metadataIoEnd metadataError)] ++
  (if metadataError = 0 then [.event req (.flushCacheEnd cacheError)] else []) ++
  [.event req .unlock, .complete req]

/-- A master and a slave, one line each. -/
def masterAndSlave (metadataError cacheError : Int) : List Act :=
  [.allocMaster .full ownCore, .lock .acquired, .inc, .allocSlave .full ownCore, .lock .acquired, .inc, .endLoop, .out] ++
  writeBack 0 0 0 ++ writeBack 1 metadataError cacheError

/-- A call whose requests all succeed. -/
theorem completion_once_and_honest_masterAndSlave :
    ∃ s, Reachable (system (firstLines 2) false Careful) (initial (firstLines 2)) s ∧ s.calls = [0] ∧
      Proper (firstLines 2) s := by
  have hrun : ((masterAndSlave 0 0).foldlM (checkedStep (system (firstLines 2) false Careful)
      fun s act => decide (Careful s act)) (initial (firstLines 2))).map State.calls = some [0] := by
    decide +kernel
  obtain ⟨s, hs, hcalls⟩ := Option.map_eq_some_iff.mp hrun
  have hcheck : ∀ t act, decide (Careful t act) = true → Careful t act := fun _ _ hok => of_decide_eq_true hok
  have hreach : Reachable (system (firstLines 2) false Careful) (initial (firstLines 2)) s :=
    Reachable.of_checked hcheck hs
  exact ⟨s, hreach, hcalls, completion_once_and_honest (firstLines 2) false hreach⟩

/-- Any step may be taken. -/
def anyStep (_ : State) (_ : Act) : Prop := True

/-- What the caller is told against what the call relies on: a failed cache
flush is reported as success, so is a failed metadata flush of a slave, and a
request that is granted its lock and finishes before it is counted makes the
completion come twice. -/
theorem completion_slips :
    (∃ s, Reachable (system (firstLines 2) false anyStep) (initial (firstLines 2)) s ∧
      0 ∈ s.calls ∧ s.ioFailed = true ∧ s.stage 1 = .finished) ∧
    (∃ s, Reachable (system (firstLines 2) false anyStep) (initial (firstLines 2)) s ∧
      0 ∈ s.calls ∧ s.ioFailed = true ∧ s.error 1 = errIo) ∧
    ∃ s, Reachable (system (firstLines 1) false anyStep) (initial (firstLines 1)) s ∧ s.calls = [0, 0] := by
  have hreach : ∀ (attribs : Attribs) (acts : List Act) (s : State),
      acts.foldlM (checkedStep (system attribs false anyStep) fun _ _ => true) (initial attribs) = some s →
      Reachable (system attribs false anyStep) (initial attribs) s :=
    fun attribs acts s hs => Reachable.of_checked (fun _ _ _ => trivial) hs
  refine ⟨?_, ?_, ?_⟩
  · have hrun : ((masterAndSlave 0 errIo).foldlM (checkedStep (system (firstLines 2) false anyStep)
        fun _ _ => true) (initial (firstLines 2))).map (fun s => (s.calls, s.ioFailed, s.stage 1)) =
        some ([0], true, .finished) := by
      decide +kernel
    obtain ⟨s, hs, hview⟩ := Option.map_eq_some_iff.mp hrun
    simp only [Prod.mk.injEq] at hview
    exact ⟨s, hreach _ _ s hs, by rw [hview.1]; simp, hview.2.1, hview.2.2⟩
  · have hrun : ((masterAndSlave errIo 0).foldlM (checkedStep (system (firstLines 2) false anyStep)
        fun _ _ => true) (initial (firstLines 2))).map (fun s => (s.calls, s.ioFailed, s.error 1)) =
        some ([0], true, errIo) := by
      decide +kernel
    obtain ⟨s, hs, hview⟩ := Option.map_eq_some_iff.mp hrun
    simp only [Prod.mk.injEq] at hview
    exact ⟨s, hreach _ _ s hs, by rw [hview.1]; simp, hview.2.1, hview.2.2⟩
  · have hrun : (([.allocMaster .full ownCore, .lock .notAcquired, .event 0 .resume, .event 0 (.checkMap true),
        .event 0 .unlock, .complete 0, .inc, .endLoop, .out] : List Act).foldlM
        (checkedStep (system (firstLines 1) false anyStep) fun _ _ => true) (initial (firstLines 1))).map
        State.calls = some [0, 0] := by
      decide +kernel
    obtain ⟨s, hs, hcalls⟩ := Option.map_eq_some_iff.mp hrun
    exact ⟨s, hreach _ _ s hs, hcalls⟩

end OcfCache.Cleaner
