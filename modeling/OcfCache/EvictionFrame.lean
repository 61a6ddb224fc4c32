import OcfCache.EngineRecheck
import OcfCache.EvictionRace

/-!
# What lookups and evictions rely on

A request that looked up a line holds its hash bucket, waits for the line or
holds it. An eviction that is about to remove the mapping of a line holds the
line and the bucket and has seen that nobody waits; the bucket keeps new
waiters away. So no request uses the line that loses its mapping. The module
has this invariant, what a step leaves to the requests that do not take it,
and the effects of the hash bucket operations.
-/

namespace OcfCache.EvictionFrame

open Function Runs Metadata Requests EngineCommon LookupSpec HashBuckets Space AlockWakeup AlockWriters
  AlockClient EvictionRace
open Alock hiding State

/-- The mode in which a request holds its hash buckets. -/
def mode : Phase → Option Rw
  | .prepare mode => some mode
  | .evict _ _ _ => some .write
  | _ => none

/-- The request relies on its lookup. -/
def Active (phase : Phase) : Prop := mode phase ≠ none ∨ phase = .waiting

variable (cfg : Config) (s : State) (r : Nat)

/-- Number of entries of a request. -/
def count : Nat := (s.procs r).req.coreLineCount cfg.g

/-- Entry of a request. -/
def entry (i : Nat) : MapInfo := (s.procs r).req.map i

/-- Entries with a line map the core lines of the request. -/
structure Looked : Prop where
  /-- The core exists. -/
  core : (s.procs r).req.coreId < ocfCoreNum
  /-- Core lines of the entries. -/
  coreLine : ∀ i < count cfg s r, (entry s r i).coreLine = (s.procs r).req.coreLineFirst cfg.g + i
  /-- Mappings of the lines. -/
  mapped : ∀ i < count cfg s r, (entry s r i).status ≠ .miss →
    s.md.coreInfo (entry s r i).collIdx =
      ((s.procs r).req.coreId, (s.procs r).req.coreLineFirst cfg.g + i)

/-- The hash buckets of a range are locked for the request. -/
def BucketsHeld (req : Request) : Rw → Prop
  | .read => ∀ b ∈ buckets cfg req, r ∈ s.hashRd b
  | .write => ∀ b ∈ buckets cfg req, s.hashWr b = some r

/-- The hash buckets of the request are locked. -/
def HashHeld (m : Rw) : Prop := BucketsHeld cfg s r (s.procs r).req m

/-- The hash bucket of a foreign mapping is locked. -/
def HashTaken (line : Nat) : Prop :=
  s.hashWr (bucketOf cfg s.md line) = some r ∧ isTarget cfg s.md (s.procs r).req line = false

/-- What an eviction has established. -/
def StageOk (line : Nat) : Stage → Prop
  | .hashLocked _ => HashTaken cfg s r line
  | .chosen => HashTaken cfg s r line ∧ NoWaiters s line
  | .unmapped => s.md.coreInfo line = (ocfCoreNum, ullongMax)
  | _ => True

/-- What holds of one request. -/
structure ProcOk : Prop where
  /-- The lookup stands. -/
  looked : Active (s.procs r).phase → Looked cfg s r
  /-- Lines mapped by the request are locked. -/
  remapped : mode (s.procs r).phase ≠ none → ∀ i < count cfg s r,
    (entry s r i).status = .remapped → entryLock s r i .write ∈ s.lock.holders
  /-- The hash buckets are held. -/
  hash : ∀ m, mode (s.procs r).phase = some m → HashHeld cfg s r m
  /-- The line to be evicted is locked. -/
  victim : ∀ line idx stage, (s.procs r).phase = .evict line idx stage →
    victimLock r line idx ∈ s.lock.holders ∧ idx < count cfg s r ∧
      (entry s r idx).status = .miss ∧ StageOk cfg s r line stage
  /-- Without the buckets all lines are locked or awaited. -/
  owned : (s.procs r).phase = .waiting → ∀ i < count cfg s r, (entry s r i).status ≠ .miss →
    ∃ rw, Owned cfg.lists s.lock (entryLock s r i rw)

/-- Every waiter is for a line that its request looked up. -/
def WaitersOk : Prop :=
  ∀ i, ∀ w ∈ s.lock.waitersLsts i, Active (s.procs w.req).phase ∧ w.idx < count cfg s w.req ∧
    (entry s w.req w.idx).status ≠ .miss ∧ w.entry = (entry s w.req w.idx).collIdx

/-- The invariant of runs in which successors have no waiters. -/
structure Inv : Prop where
  /-- Writers of lines are alone. -/
  words : WordsFit s.lock
  /-- Waiters lists are in order. -/
  queued : Queued cfg.lists s.lock
  /-- Writers of hash buckets are alone. -/
  hash : ∀ b x, s.hashWr b = some x → s.hashRd b = []
  /-- Waiters. -/
  waiters : WaitersOk cfg s
  /-- Requests. -/
  procs : ∀ r, ProcOk cfg s r

/-- The request relies on the mapping of a line. -/
def Uses (line : Nat) : Prop :=
  (Active (s.procs r).phase ∧ ∃ i < count cfg s r, (entry s r i).status ≠ .miss ∧
    (entry s r i).collIdx = line) ∨ ∃ idx stage, (s.procs r).phase = .evict line idx stage

variable {cfg s r} {s' : State} {q : Nat}

/-- What a step leaves to a request that does not take it. -/
structure Frame (cfg : Config) (s s' : State) (q : Nat) : Prop where
  /-- The request itself. -/
  proc : s'.procs q = s.procs q
  /-- Mappings that it relies on. -/
  info : ∀ line, Uses cfg s q line → s'.md.coreInfo line = s.md.coreInfo line
  /-- Buckets held for read. -/
  rd : ∀ b, q ∈ s.hashRd b → q ∈ s'.hashRd b
  /-- Buckets held for write. -/
  wr : ∀ b, s.hashWr b = some q → s'.hashWr b = some q
  /-- Lines held. -/
  held : ∀ l ∈ s.lock.holders, l.req = q → l ∈ s'.lock.holders
  /-- Lines held or awaited. -/
  owned : ∀ l, l.req = q → Owned cfg.lists s.lock l → Owned cfg.lists s'.lock l
  /-- A line chosen for eviction gets no waiters. -/
  waiters : ∀ line idx, (s.procs q).phase = .evict line idx .chosen → NoWaiters s line →
    NoWaiters s' line

theorem Frame.count (h : Frame cfg s s' q) : count cfg s' q = count cfg s q := by
  rw [EvictionFrame.count, h.proc, EvictionFrame.count]

theorem Frame.entry (h : Frame cfg s s' q) (i : Nat) : entry s' q i = entry s q i := by
  rw [EvictionFrame.entry, h.proc, EvictionFrame.entry]

theorem Frame.entryLock (h : Frame cfg s s' q) (i : Nat) (rw : Rw) :
    entryLock s' q i rw = entryLock s q i rw := by
  rw [EvictionRace.entryLock, h.proc, EvictionRace.entryLock]

theorem Looked.frame (h : Looked cfg s q) (hf : Frame cfg s s' q)
    (hact : Active (s.procs q).phase) : Looked cfg s' q := by
  refine ⟨?_, fun i hi => ?_, fun i hi hs => ?_⟩
  · rw [hf.proc]
    exact h.core
  · rw [hf.count] at hi
    rw [hf.entry, hf.proc]
    exact h.coreLine i hi
  · rw [hf.count] at hi
    rw [hf.entry] at hs ⊢
    rw [hf.proc, hf.info _ (.inl ⟨hact, i, hi, hs, rfl⟩)]
    exact h.mapped i hi hs

variable {m : Rw} {line i idx : Nat} {stage : Stage}

theorem HashHeld.frame (h : HashHeld cfg s q m) (hf : Frame cfg s s' q) : HashHeld cfg s' q m := by
  cases m with
  | read =>
    intro b hb
    rw [hf.proc] at hb
    exact hf.rd b (h b hb)
  | write =>
    intro b hb
    rw [hf.proc] at hb
    exact hf.wr b (h b hb)

theorem HashTaken.frame (h : HashTaken cfg s q line) (hf : Frame cfg s s' q)
    (hinfo : s'.md.coreInfo line = s.md.coreInfo line) : HashTaken cfg s' q line := by
  refine ⟨?_, ?_⟩
  · rw [bucketOf, hinfo]
    exact hf.wr _ h.1
  · rw [isTarget, hinfo, hf.proc]
    exact h.2

theorem ProcOk.frame (h : ProcOk cfg s q) (hf : Frame cfg s s' q) : ProcOk cfg s' q := by
  refine ⟨fun hact => ?_, fun hm i hi hs => ?_, fun m hm => ?_, fun line idx stage hph => ?_,
    fun hph i hi hs => ?_⟩
  · rw [hf.proc] at hact
    exact (h.looked hact).frame hf hact
  · rw [hf.proc] at hm
    rw [hf.count] at hi
    rw [hf.entry] at hs
    rw [hf.entryLock]
    exact hf.held _ (h.remapped hm i hi hs) rfl
  · rw [hf.proc] at hm
    exact (h.hash m hm).frame hf
  · rw [hf.proc] at hph
    obtain ⟨hheld, hidx, hmiss, hstage⟩ := h.victim line idx stage hph
    have hinfo := hf.info line (.inr ⟨idx, stage, hph⟩)
    rw [hf.count, hf.entry]
    refine ⟨hf.held _ hheld rfl, hidx, hmiss, ?_⟩
    cases stage with
    | lineLocked path => trivial
    | hashLocked path =>
      have htaken : HashTaken cfg s q line := hstage
      exact htaken.frame hf hinfo
    | chosen => exact ⟨hstage.1.frame hf hinfo, hf.waiters line idx hph hstage.2⟩
    | unmapped => exact hinfo.trans hstage
    | putBack => trivial
  · rw [hf.proc] at hph
    rw [hf.count] at hi
    rw [hf.entry] at hs
    obtain ⟨rw', hown⟩ := h.owned hph i hi hs
    refine ⟨rw', ?_⟩
    rw [hf.entryLock]
    exact hf.owned _ rfl hown

section Apart

theorem Looked.bucket (h : Looked cfg s q) (hi : i < count cfg s q)
    (hs : (entry s q i).status ≠ .miss) (hline : (entry s q i).collIdx = line) :
    bucketOf cfg s.md line ∈ buckets cfg (s.procs q).req := by
  have hinfo := h.mapped i hi hs
  rw [hline] at hinfo
  rw [bucketOf, hinfo]
  exact List.mem_map.mpr ⟨i, List.mem_range.mpr hi, rfl⟩

theorem Inv.bucket_alone (h : Inv cfg s) {b : Nat} (hb : s.hashWr b = some r)
    (hm : mode (s.procs q).phase = some m) (hown : b ∈ buckets cfg (s.procs q).req) : q = r := by
  have hheld := (h.procs q).hash m hm
  cases m with
  | read =>
    have hmem := hheld b hown
    rw [h.hash b r hb] at hmem
    exact absurd hmem List.not_mem_nil
  | write => exact Option.some.inj ((hheld b hown).symm.trans hb)

theorem waiter_of_waitingBy {n : Nat} {lock : Alock.State} {l : Lock}
    (hl : l ∈ waitingBy n q lock) : ∃ i, ∃ w ∈ lock.waitersLsts i, w.entry = l.entry := by
  obtain ⟨w, hw, rfl⟩ := List.mem_map.mp hl
  obtain ⟨i, -, hi⟩ := List.mem_flatMap.mp (List.mem_filter.mp hw).1
  exact ⟨i, w, hi, rfl⟩

theorem Inv.victim_alone (h : Inv cfg s) {idx' : Nat} {stage' : Stage}
    (hr : (s.procs r).phase = .evict line idx stage)
    (hq : (s.procs q).phase = .evict line idx' stage') : q = r := by
  obtain ⟨hheld, -⟩ := (h.procs r).victim line idx stage hr
  obtain ⟨hheld', -⟩ := (h.procs q).victim line idx' stage' hq
  exact congrArg Lock.req (h.words.alone hheld rfl hheld' rfl)

theorem Inv.not_uses_chosen (h : Inv cfg s) (hne : q ≠ r)
    (hr : (s.procs r).phase = .evict line idx .chosen) : ¬Uses cfg s q line := by
  obtain ⟨hheld, -, -, ⟨hwr, -⟩, hfree⟩ := (h.procs r).victim line idx .chosen hr
  rintro (⟨hact, i, hi, hs, hline⟩ | ⟨idx', stage, hq⟩)
  · have hbucket := ((h.procs q).looked hact).bucket hi hs hline
    rcases hact with hm | hwait
    · obtain ⟨m, hm⟩ := Option.ne_none_iff_exists'.mp hm
      exact hne (h.bucket_alone hwr hm hbucket)
    · obtain ⟨rw', hown⟩ := (h.procs q).owned hwait i hi hs
      rcases hown with hlock | hlock
      · exact hne (congrArg Lock.req (h.words.alone hheld rfl hlock hline))
      · obtain ⟨j, w, hw, hentry⟩ := waiter_of_waitingBy hlock
        exact hfree j w hw (hentry.trans hline)
  · exact hne (h.victim_alone hr hq)

theorem Inv.not_uses_unmapped (h : Inv cfg s) (hne : q ≠ r)
    (hr : (s.procs r).phase = .evict line idx .unmapped) : ¬Uses cfg s q line := by
  obtain ⟨-, -, -, hinfo⟩ := (h.procs r).victim line idx .unmapped hr
  rintro (⟨hact, i, hi, hs, hline⟩ | ⟨idx', stage, hq⟩)
  · have hlooked := (h.procs q).looked hact
    have hmapped := hlooked.mapped i hi hs
    rw [hline, hinfo] at hmapped
    have hcore := hlooked.core
    have heq : ocfCoreNum = (s.procs q).req.coreId := congrArg Prod.fst hmapped
    omega
  · exact hne (h.victim_alone hr hq)

end Apart

section Locks

variable {act : Action} {lock : Alock.State}

theorem frame_lock (hn : q ≠ r) (hreq : (actionLock act).req = r)
    (hs : Alock.step cfg.lists s.lock act = some lock) (hlock : s'.lock = lock)
    (hmd : s'.md = s.md) (hrd : s'.hashRd = s.hashRd) (hwr : s'.hashWr = s.hashWr)
    (hproc : s'.procs q = s.procs q)
    (hapart : Queues act → ∀ line idx, (s.procs q).phase = .evict line idx .chosen →
      (actionLock act).entry ≠ line) : Frame cfg s s' q := by
  refine ⟨hproc, fun line _ => by rw [hmd], fun b hb => by rw [hrd]; exact hb,
    fun b hb => by rw [hwr]; exact hb, fun l hl hlq => ?_, fun l hlq hown => ?_, ?_⟩
  · rw [hlock]
    refine step_holders hl ?_ hs
    rintro rfl
    exact hn (hlq.symm.trans hreq)
  · rw [hlock]
    refine step_owned cfg.lists_pos hown ?_ hs
    rw [hreq, hlq]
    exact Ne.symm hn
  · intro line idx hph hfree i w hw
    rw [hlock] at hw
    rcases step_waiters hs hw with hold | ⟨hq, hnew⟩
    · exact hfree i w hold
    · have hentry : w.entry = (actionLock act).entry := congrArg Lock.entry hnew
      rw [hentry]
      exact hapart hq line idx hph

theorem waitersOk_lock (h : WaitersOk cfg s)
    (hs : Alock.step cfg.lists s.lock act = some lock) (hlock : s'.lock = lock)
    (hproc : ∀ x, (s'.procs x).req = (s.procs x).req ∧
      (Active (s.procs x).phase → Active (s'.procs x).phase))
    (hnew : Queues act → Active (s.procs (actionLock act).req).phase ∧
      FoundLine cfg s (actionLock act).req act) : WaitersOk cfg s' := by
  intro i w hw
  rw [hlock] at hw
  have hold : Active (s.procs w.req).phase ∧ w.idx < count cfg s w.req ∧
      (entry s w.req w.idx).status ≠ .miss ∧ w.entry = (entry s w.req w.idx).collIdx := by
    rcases step_waiters hs hw with hmem | ⟨hq, hlock'⟩
    · exact h i w hmem
    · obtain ⟨hact, -, hidx, hneeds, hentry⟩ := hnew hq
      rw [← hlock'] at hact hidx hneeds hentry
      refine ⟨hact, hidx, ?_, hentry⟩
      intro hmiss
      have hmiss' : ((s.procs w.req).req.map w.idx).status = .miss := hmiss
      rw [needsLock, hmiss'] at hneeds
      cases hneeds
  obtain ⟨hact, hidx, hst, hentry⟩ := hold
  obtain ⟨hreq, hphase⟩ := hproc w.req
  refine ⟨hphase hact, ?_, ?_, ?_⟩
  · rw [count, hreq]
    exact hidx
  · rw [entry, hreq]
    exact hst
  · rw [entry, hreq]
    exact hentry

end Locks

/-- A step of one process keeps what the others rely on. -/
theorem Inv.of_step (h : Inv cfg s) (r : Nat) (hwords : WordsFit s'.lock)
    (hqueued : Queued cfg.lists s'.lock) (hhash : ∀ b x, s'.hashWr b = some x → s'.hashRd b = [])
    (hwaiters : WaitersOk cfg s') (hproc : ProcOk cfg s' r)
    (hframe : ∀ q, q ≠ r → Frame cfg s s' q) : Inv cfg s' := by
  refine ⟨hwords, hqueued, hhash, hwaiters, fun q => ?_⟩
  by_cases hq : q = r
  · rw [hq]
    exact hproc
  · exact (h.procs q).frame (hframe q hq)

theorem setProc_self (s : State) (r : Nat) (p : Proc) : (s.setProc r p).procs r = p := by
  simp only [State.setProc, update_self]

theorem setProc_of_ne (s : State) (p : Proc) (hq : q ≠ r) :
    (s.setProc r p).procs q = s.procs q := by
  simp only [State.setProc, update_of_ne hq]

theorem setPhase_req (s : State) (r : Nat) (phase : Phase) (x : Nat) :
    ((s.setPhase r phase).procs x).req = (s.procs x).req := by
  by_cases hx : x = r
  · rw [hx, State.setPhase, setProc_self]
  · rw [State.setPhase, setProc_of_ne s _ hx]

theorem setPhase_phase (s : State) (r : Nat) (phase : Phase) :
    ((s.setPhase r phase).procs r).phase = phase := by
  rw [State.setPhase, setProc_self]

theorem Looked.of_same (h : Looked cfg s r) (hreq : (s'.procs r).req = (s.procs r).req)
    (hmd : s'.md.coreInfo = s.md.coreInfo) : Looked cfg s' r := by
  refine ⟨?_, fun i hi => ?_, fun i hi hs => ?_⟩
  · rw [hreq]
    exact h.core
  · rw [count, hreq] at hi
    rw [entry, hreq]
    exact h.coreLine i hi
  · rw [count, hreq] at hi
    rw [entry, hreq] at hs ⊢
    rw [hmd]
    exact h.mapped i hi hs

theorem waitersOk_of_same (h : WaitersOk cfg s) (hlock : s'.lock = s.lock)
    (hproc : ∀ x, (s'.procs x).req = (s.procs x).req)
    (hact : ∀ x, Active (s.procs x).phase → Active (s'.procs x).phase) : WaitersOk cfg s' := by
  intro i w hw
  rw [hlock] at hw
  obtain ⟨hactive, hidx, hst, hentry⟩ := h i w hw
  refine ⟨hact w.req hactive, ?_, ?_, ?_⟩
  · rw [count, hproc]
    exact hidx
  · rw [entry, hproc]
    exact hst
  · rw [entry, hproc]
    exact hentry

theorem waitersOk_of_none (h : WaitersOk cfg s) (hlock : s'.lock = s.lock)
    (hnone : ∀ i, ∀ w ∈ s.lock.waitersLsts i, w.req ≠ r)
    (hproc : ∀ x, x ≠ r → s'.procs x = s.procs x) : WaitersOk cfg s' := by
  intro i w hw
  rw [hlock] at hw
  have hsame := hproc w.req (hnone i w hw)
  have hold := h i w hw
  rw [count, entry, hsame]
  exact hold

theorem frame_hash (hlock : s'.lock = s.lock) (hmd : s'.md = s.md)
    (hrd : ∀ b, q ∈ s.hashRd b → q ∈ s'.hashRd b)
    (hwr : ∀ b, s.hashWr b = some q → s'.hashWr b = some q)
    (hproc : s'.procs q = s.procs q) : Frame cfg s s' q := by
  refine ⟨hproc, fun line _ => by rw [hmd], hrd, hwr, fun l hl _ => by rw [hlock]; exact hl,
    fun l _ hown => by rw [hlock]; exact hown, ?_⟩
  intro line idx _ hfree i w hw
  rw [hlock] at hw
  exact hfree i w hw

section Lookup

variable {md : LineTable} {req : Request}

theorem lookup_range : (ocfEngineLookup cfg.g md req).coreId = req.coreId ∧
    (ocfEngineLookup cfg.g md req).coreLineFirst cfg.g = req.coreLineFirst cfg.g ∧
    (ocfEngineLookup cfg.g md req).coreLineCount cfg.g = req.coreLineCount cfg.g := by
  rw [ocfEngineLookup_eq, account_eq]
  exact ⟨rfl, rfl, rfl⟩

theorem lookup_entry (hi : i < req.coreLineCount cfg.g) :
    ((ocfEngineLookup cfg.g md req).map i).coreLine = req.coreLineFirst cfg.g + i ∧
      ((ocfEngineLookup cfg.g md req).map i).status ≠ .remapped ∧
      (((ocfEngineLookup cfg.g md req).map i).status ≠ .miss →
        md.coreInfo ((ocfEngineLookup cfg.g md req).map i).collIdx =
          (req.coreId, req.coreLineFirst cfg.g + i)) := by
  have hmap : (ocfEngineLookup cfg.g md req).map i =
      accounted cfg.g md req (lookupPlan cfg.g md req i) i := by
    rw [ocfEngineLookup_eq, account_eq]
    exact if_pos hi
  rw [hmap]
  cases hline : lookupLine cfg.g md req.coreId (req.coreLineFirst cfg.g + i) with
  | none =>
    have hmiss : (lookupPlan cfg.g md req i).status = .miss := by
      simp [lookupPlan, ocfEngineLookupMapEntry, hline]
    rw [accounted_of_miss req hmiss]
    refine ⟨?_, ?_, fun h => absurd hmiss h⟩
    · simp [lookupPlan, ocfEngineLookupMapEntry, hline]
    · rw [hmiss]
      decide
  | some line =>
    have hfound := List.find?_some hline
    have hinfo : md.coreInfo line = (req.coreId, req.coreLineFirst cfg.g + i) := by
      simpa using hfound
    refine ⟨?_, ?_, fun _ => ?_⟩
    · simp [accounted, lookupPlan, ocfEngineLookupMapEntry, hline]
    · simp only [accounted, lookupPlan, ocfEngineLookupMapEntry, hline]
      split <;> decide
    · simpa [accounted, lookupPlan, ocfEngineLookupMapEntry, hline] using hinfo

end Lookup

/-- The locks of the buckets of a request. -/
theorem hbReqProtLock_spec {req : Request} {s₁ : State}
    (h : ∀ b x, s.hashWr b = some x → s.hashRd b = [])
    (hs : hbReqProtLock cfg s r req m = some s₁) :
    (s₁.md = s.md ∧ s₁.lock = s.lock ∧ s₁.procs = s.procs) ∧
      (∀ b x, s₁.hashWr b = some x → s₁.hashRd b = []) ∧ (∀ q b, q ∈ s.hashRd b → q ∈ s₁.hashRd b) ∧
      (∀ q b, s.hashWr b = some q → s₁.hashWr b = some q) ∧ BucketsHeld cfg s₁ r req m := by
  cases m with
  | read =>
    obtain ⟨hfree, heq⟩ := Option.ite_none_right_eq_some.mp hs
    cases heq
    have hnone : ∀ b ∈ buckets cfg req, s.hashWr b = none := by
      intro b hb
      simpa using List.all_eq_true.mp hfree b hb
    refine ⟨⟨rfl, rfl, rfl⟩, fun b x hx => ?_, fun q b hq => ?_, fun q b hq => hq, fun b hb => ?_⟩
    · have hb : b ∉ buckets cfg req := by
        intro hb
        have hx' : s.hashWr b = some x := hx
        rw [hnone b hb] at hx'
        cases hx'
      change (if b ∈ buckets cfg req then r :: s.hashRd b else s.hashRd b) = []
      rw [if_neg hb]
      exact h b x hx
    · change q ∈ if b ∈ buckets cfg req then r :: s.hashRd b else s.hashRd b
      split
      · exact List.mem_cons_of_mem _ hq
      · exact hq
    · change r ∈ if b ∈ buckets cfg req then r :: s.hashRd b else s.hashRd b
      rw [if_pos hb]
      exact List.mem_cons_self
  | write =>
    obtain ⟨hfree, heq⟩ := Option.ite_none_right_eq_some.mp hs
    cases heq
    have hnone : ∀ b ∈ buckets cfg req, s.hashWr b = none ∧ s.hashRd b = [] := by
      intro b hb
      simpa using List.all_eq_true.mp hfree b hb
    refine ⟨⟨rfl, rfl, rfl⟩, fun b x hx => ?_, fun q b hq => hq, fun q b hq => ?_, fun b hb => ?_⟩
    · change s.hashRd b = []
      by_cases hb : b ∈ buckets cfg req
      · exact (hnone b hb).2
      · change (if b ∈ buckets cfg req then some r else s.hashWr b) = some x at hx
        rw [if_neg hb] at hx
        exact h b x hx
    · have hb : b ∉ buckets cfg req := by
        intro hb
        rw [(hnone b hb).1] at hq
        cases hq
      change (if b ∈ buckets cfg req then some r else s.hashWr b) = some q
      rw [if_neg hb]
      exact hq
    · change (if b ∈ buckets cfg req then some r else s.hashWr b) = some r
      rw [if_pos hb]

theorem hbReqProtUnlock_spec (h : ∀ b x, s.hashWr b = some x → s.hashRd b = []) :
    (∀ b x, (hbReqProtUnlock cfg s r).hashWr b = some x → (hbReqProtUnlock cfg s r).hashRd b = []) ∧
      (∀ q b, q ≠ r → q ∈ s.hashRd b → q ∈ (hbReqProtUnlock cfg s r).hashRd b) ∧
      (∀ q b, q ≠ r → s.hashWr b = some q → (hbReqProtUnlock cfg s r).hashWr b = some q) := by
  refine ⟨fun b x hx => ?_, fun q b hq hmem => ?_, fun q b hq hb => ?_⟩
  · simp only [hbReqProtUnlock] at hx ⊢
    split at hx
    · cases hx
    · rw [h b x hx]
      simp
  · simp only [hbReqProtUnlock]
    split
    · exact (List.mem_erase_of_ne hq).mpr hmem
    · exact hmem
  · simp only [hbReqProtUnlock]
    rw [if_neg]
    · exact hb
    · rintro ⟨-, hr⟩
      exact hq (Option.some.inj (hb.symm.trans hr))

theorem Inv.no_waiter (h : Inv cfg s) (hph : ¬Active (s.procs r).phase) :
    ∀ i, ∀ w ∈ s.lock.waitersLsts i, w.req ≠ r := by
  intro i w hw hreq
  have hact := (h.waiters i w hw).1
  rw [hreq] at hact
  exact hph hact

theorem not_active_idle : ¬Active .idle := by
  rintro (h | h)
  · exact h rfl
  · cases h

theorem not_active_complete : ¬Active .complete := by
  rintro (h | h)
  · exact h rfl
  · cases h

theorem active_evict (line idx : Nat) (stage : Stage) : Active (.evict line idx stage) :=
  .inl nofun

theorem active_prepare (m : Rw) : Active (.prepare m) := .inl nofun

theorem procOk_of_inactive (hph : ¬Active (s.procs r).phase) : ProcOk cfg s r := by
  have hmode : mode (s.procs r).phase = none := by
    by_contra hm
    exact hph (.inl hm)
  refine ⟨fun hact => absurd hact hph, fun hm => absurd hmode hm, fun m hm => ?_,
    fun line idx stage hev => ?_, fun hwait => absurd (.inr hwait) hph⟩
  · rw [hmode] at hm
    cases hm
  · rw [hev] at hph
    exact absurd (active_evict line idx stage) hph

theorem procOk_prepare (hph : (s.procs r).phase = .prepare m) (hlooked : Looked cfg s r)
    (hrem : ∀ i < count cfg s r, (entry s r i).status = .remapped →
      entryLock s r i .write ∈ s.lock.holders) (hhash : HashHeld cfg s r m) : ProcOk cfg s r := by
  refine ⟨fun _ => hlooked, fun _ => hrem, fun m' hm' => ?_, fun line idx stage hev => ?_,
    fun hwait => ?_⟩
  · rw [hph] at hm'
    cases hm'
    exact hhash
  · rw [hph] at hev
    cases hev
  · rw [hph] at hwait
    cases hwait

theorem procOk_evict (hph : (s.procs r).phase = .evict line idx stage) (hlooked : Looked cfg s r)
    (hrem : ∀ i < count cfg s r, (entry s r i).status = .remapped →
      entryLock s r i .write ∈ s.lock.holders)
    (hhash : HashHeld cfg s r .write) (hheld : victimLock r line idx ∈ s.lock.holders)
    (hidx : idx < count cfg s r) (hmiss : (entry s r idx).status = .miss)
    (hstage : StageOk cfg s r line stage) : ProcOk cfg s r := by
  refine ⟨fun _ => hlooked, fun _ => hrem, fun m' hm' => ?_, fun line' idx' stage' hev => ?_,
    fun hwait => ?_⟩
  · rw [hph] at hm'
    cases hm'
    exact hhash
  · rw [hph] at hev
    cases hev
    exact ⟨hheld, hidx, hmiss, hstage⟩
  · rw [hph] at hwait
    cases hwait

theorem phase_active (hph : ∃ m, (s.procs r).phase = .prepare m) :
    Active (s.procs r).phase ∧ mode (s.procs r).phase ≠ none := by
  obtain ⟨m, hph⟩ := hph
  rw [hph]
  exact ⟨active_prepare m, nofun⟩

theorem evict_active (hph : (s.procs r).phase = .evict line idx stage) :
    Active (s.procs r).phase ∧ mode (s.procs r).phase ≠ none := by
  rw [hph]
  exact ⟨active_evict line idx stage, nofun⟩

theorem StageOk.setPhase (h : StageOk cfg s r line stage)
    (phase : Phase) : StageOk cfg (s.setPhase r phase) r line stage := by
  have htaken : HashTaken cfg s r line → HashTaken cfg (s.setPhase r phase) r line := by
    intro ht
    refine ⟨ht.1, ?_⟩
    rw [isTarget, setPhase_req]
    exact ht.2
  cases stage with
  | lineLocked path => trivial
  | hashLocked path => exact htaken h
  | chosen => exact ⟨htaken h.1, h.2⟩
  | unmapped => exact h
  | putBack => trivial

/-- Hash buckets after a step of an eviction. -/
structure HashStep (cfg : Config) (s s₁ : State) (r : Nat) : Prop where
  /-- Nothing else changed. -/
  same : s₁.lock = s.lock ∧ s₁.procs = s.procs
  /-- Writers are alone. -/
  alone : ∀ b x, s₁.hashWr b = some x → s₁.hashRd b = []
  /-- Readers. -/
  rd : ∀ b, s₁.hashRd b = s.hashRd b
  /-- Writers. -/
  wr : ∀ q b, q ≠ r → s.hashWr b = some q → s₁.hashWr b = some q
  /-- The request's own buckets. -/
  own : HashHeld cfg s r .write → HashHeld cfg s₁ r .write

theorem HashStep.refl (h : ∀ b x, s.hashWr b = some x → s.hashRd b = []) : HashStep cfg s s r :=
  ⟨⟨rfl, rfl⟩, h, fun _ => rfl, fun _ _ _ hb => hb, fun hown => hown⟩

theorem trylockHash_spec {b : Nat} {s₁ : State}
    (h : ∀ b x, s.hashWr b = some x → s.hashRd b = []) (hown : HashHeld cfg s r .write)
    (hs : trylockHash cfg s r b = some s₁) :
    HashStep cfg s s₁ r ∧ s₁.md = s.md ∧ s₁.hashWr b = some r := by
  unfold trylockHash at hs
  split at hs
  · rename_i hb
    cases hs
    exact ⟨HashStep.refl h, rfl, hown b hb⟩
  · rename_i hb
    obtain ⟨⟨hnone, hrd⟩, heq⟩ := Option.ite_none_right_eq_some.mp hs
    cases heq
    refine ⟨⟨⟨rfl, rfl⟩, fun b' x hx => ?_, fun _ => rfl, fun q b' _ hq => ?_, fun ho b' hb' => ?_⟩,
      rfl, update_self b (some r) s.hashWr⟩
    · by_cases hbb : b' = b
      · rw [hbb]
        exact hrd
      · change update s.hashWr b (some r) b' = some x at hx
        rw [update_of_ne hbb] at hx
        exact h b' x hx
    · have hbb : b' ≠ b := by
        rintro rfl
        rw [hnone] at hq
        cases hq
      change update s.hashWr b (some r) b' = some q
      rw [update_of_ne hbb]
      exact hq
    · have hbb : b' ≠ b := by
        rintro rfl
        exact hb hb'
      change update s.hashWr b (some r) b' = some r
      rw [update_of_ne hbb]
      exact ho b' hb'

theorem unlockHash_spec {b : Nat} (h : ∀ b x, s.hashWr b = some x → s.hashRd b = [])
    (hb : s.hashWr b = some r) :
    HashStep cfg s (unlockHash cfg s r b) r ∧ (unlockHash cfg s r b).md = s.md := by
  unfold unlockHash
  split
  · exact ⟨HashStep.refl h, rfl⟩
  · rename_i hnot
    refine ⟨⟨⟨rfl, rfl⟩, fun b' x hx => ?_, fun _ => rfl, fun q b' hq hwr => ?_, fun ho b' hb' => ?_⟩,
      rfl⟩
    · by_cases hbb : b' = b
      · change update s.hashWr b none b' = some x at hx
        rw [hbb, update_self] at hx
        cases hx
      · change update s.hashWr b none b' = some x at hx
        rw [update_of_ne hbb] at hx
        exact h b' x hx
    · have hbb : b' ≠ b := by
        rintro rfl
        exact hq (Option.some.inj (hwr.symm.trans hb))
      change update s.hashWr b none b' = some q
      rw [update_of_ne hbb]
      exact hwr
    · have hbb : b' ≠ b := by
        rintro rfl
        exact hnot hb'
      change update s.hashWr b none b' = some r
      rw [update_of_ne hbb]
      exact ho b' hb'

theorem noWaiters_of_isEmpty (hq : Queued cfg.lists s.lock)
    (h : ocfAlockWaitlistIsEmptyLocked s.lock cfg.lists line = true) : NoWaiters s line := by
  intro i w hw hentry
  have hhome := hq.home i w hw
  rw [hentry] at hhome
  rw [ocfAlockWaitlistIsEmptyLocked, Bool.not_eq_true', List.any_eq_false] at h
  rw [← hhome] at hw
  exact h w hw (decide_eq_true hentry)

theorem Looked.not_target (h : Looked cfg s r)
    (htarget : isTarget cfg s.md (s.procs r).req line = false) (hi : i < count cfg s r)
    (hst : (entry s r i).status ≠ .miss) : (entry s r i).collIdx ≠ line := by
  intro hline
  have hinfo := h.mapped i hi hst
  rw [hline] at hinfo
  have hlast : (s.procs r).req.coreLineFirst cfg.g + i ≤ (s.procs r).req.coreLineLast cfg.g := by
    have hle : (s.procs r).req.coreLineFirst cfg.g ≤ (s.procs r).req.coreLineLast cfg.g := by
      unfold Request.coreLineLast
      split
      · exact Nat.div_le_div_right (by omega)
      · exact Nat.le_refl _
    rw [count, Request.coreLineCount] at hi
    omega
  rw [isTarget, hinfo] at htarget
  simp [hlast] at htarget

theorem coreInfo_evictInvalidate (g : Geometry) (md : LineTable) (line : Nat) :
    (evictInvalidate g md line).coreInfo = update md.coreInfo line (ocfCoreNum, ullongMax) := rfl

theorem mappedReq_map {md : LineTable} {req : Request} : (mappedReq cfg md req idx line).map i =
      if i = idx then { req.map idx with collIdx := line, status := .remapped } else req.map i := by
  by_cases hi : i = idx
  · simp [mappedReq, ocfMapCacheLine, Request.setMap, hi]
  · simp [mappedReq, ocfMapCacheLine, Request.setMap, hi]

theorem not_queues_unlockAct (l : Lock) : ¬Queues (unlockAct l) ∧ actionLock (unlockAct l) = l := by
  cases hrw : l.rw with
  | read =>
    simp only [unlockAct, hrw]
    exact ⟨fun h => h, rfl⟩
  | write =>
    simp only [unlockAct, hrw]
    exact ⟨fun h => h, rfl⟩

theorem remapped_step {act : Action} {lock : Alock.State}
    (hrem : ∀ i < count cfg s r, (entry s r i).status = .remapped →
      entryLock s r i .write ∈ s.lock.holders)
    (hlock : actionLock act = victimLock r line idx) (hmiss : (entry s r idx).status = .miss)
    (hs : Alock.step cfg.lists s.lock act = some lock) :
    ∀ i < count cfg s r, (entry s r i).status = .remapped →
      entryLock s r i .write ∈ lock.holders := by
  intro i hi hst
  refine step_holders (hrem i hi hst) ?_ hs
  rw [hlock]
  intro heq
  have hidx : i = idx := congrArg Lock.idx heq
  rw [hidx, hmiss] at hst
  cases hst

theorem active_update {phase : Phase} (hphase : Active phase) (x : Nat)
    (hx : Active (s.procs x).phase) : Active ((s.setPhase r phase).procs x).phase := by
  by_cases hxr : x = r
  · rw [hxr, setPhase_phase]
    exact hphase
  · rw [State.setPhase, setProc_of_ne _ _ hxr]
    exact hx

theorem Inv.mappingsKept (h : Inv cfg s) : MappingsKept cfg s := by
  refine ⟨fun i w hw => ?_, fun r hph => ?_⟩
  · obtain ⟨hact, hidx, hst, hentry⟩ := h.waiters i w hw
    rw [hentry]
    exact ((h.procs w.req).looked hact).mapped w.idx hidx hst
  · have hlooked := (h.procs r).looked (.inr hph)
    rw [EngineRecheck.ocfEngineCheck_of_entries]
    intro i hi hst
    have hline := hlooked.coreLine i hi
    have hmapped := hlooked.mapped i hi hst
    rw [entry] at hline hmapped
    rw [hline]
    exact hmapped

theorem inv_quiet (h : Quiet s) : Inv cfg s := by
  obtain ⟨hlock, hrd, -, hphase⟩ := h
  refine ⟨?_, ?_, fun b x _ => hrd b, ?_, fun r => procOk_of_inactive ?_⟩
  · rw [hlock]
    exact wordsFit_init
  · rw [hlock]
    exact queued_init cfg.lists
  · intro i w hw
    rw [hlock] at hw
    exact absurd hw List.not_mem_nil
  · rw [hphase r]
    exact not_active_idle

end OcfCache.EvictionFrame
