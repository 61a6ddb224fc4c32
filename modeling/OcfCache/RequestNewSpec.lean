import OcfCache.FrontVolume
import OcfCache.Loops

/-!
# Balance of the quiesce counters

A call that makes a request raises the counts by what `ocf_req_put` drops for
that request later. In every run a counter is therefore the number of live
requests and open I/Os that hold it, and of those that an error path has left
behind.
-/

namespace OcfCache.RequestNew

open Function Runs

section Range

theorem coreLineCount_ne_zero (c : Cache) (addr : UInt64) (bytes : UInt32) :
    (c.coreLineCount addr bytes).toUInt32 ≠ 0 := by
  unfold Cache.coreLineCount
  by_cases hb : bytes = 0
  · rw [if_pos hb]
    decide
  · rw [if_neg hb]
    have hpos : bytes.toNat ≠ 0 := fun h => hb (UInt32.toNat_inj.mp h)
    have hlt : bytes.toNat < 4294967296 := bytes.toNat_lt
    have haddr : addr.toNat < 18446744073709551616 := addr.toNat_lt
    intro h
    have hn := congrArg UInt32.toNat h
    rw [Cache.coreLineLast, if_neg hb] at hn
    have hline : c.lineSize.toNat = 4096 ∨ c.lineSize.toNat = 8192 ∨ c.lineSize.toNat = 16384 ∨
        c.lineSize.toNat = 32768 ∨ c.lineSize.toNat = 65536 := by
      unfold Cache.lineSize
      split <;> simp
    simp only [UInt64.toNat_toUInt32, UInt64.toNat_add, UInt64.toNat_sub, Cache.bytes2Lines, UInt64.toNat_div,
      UInt32.toNat_toUInt64, UInt64.toNat_one, UInt32.toNat_zero, Nat.reducePow] at hn
    obtain h | h | h | h | h := hline <;> rw [h] at hn <;> omega

end Range

section Put

variable {s : State} {r : Req}

/-- References of a request on `refcnt.metadata`. -/
def Req.metadataRefs (r : Req) : Nat := if !r.d2c && (!r.isMngt || r.cleaner) then 1 else 0

/-- References of a request on `refcnt.d2c`. -/
def Req.d2cRefs (r : Req) : Nat := if r.d2c then 1 else 0

/-- A state with references dropped. -/
def State.less (s : State) (metadata d2c : Nat) : State :=
  { s with
    metadata := { s.metadata with counter := s.metadata.counter - metadata }
    d2c := { s.d2c with counter := s.d2c.counter - d2c } }

theorem envRefcntDec_of_pos {rc : EnvRefcnt} (h : 0 < rc.counter) :
    envRefcntDec rc = some { rc with counter := rc.counter - 1 } := if_neg h.ne'

theorem drop_spec (hm : r.metadataRefs ≤ s.metadata.counter) (hd : r.d2cRefs ≤ s.d2c.counter) :
    s.drop r = some (s.less r.metadataRefs r.d2cRefs) := by
  unfold State.drop
  cases h : r.d2c with
  | true =>
    rw [Req.d2cRefs, if_pos h] at hd
    rw [envRefcntDec_of_pos hd]
    simp [State.less, Req.metadataRefs, Req.d2cRefs, h]
  | false =>
    cases hk : (!r.isMngt || r.cleaner) with
    | true =>
      have h1 : r.metadataRefs = 1 := by simp [Req.metadataRefs, h, hk]
      rw [h1] at hm
      rw [if_pos rfl, envRefcntDec_of_pos hm]
      simp [State.less, h1, Req.d2cRefs, h]
    | false => simp [State.less, Req.metadataRefs, Req.d2cRefs, h, hk]

/-- `ocf_req_put` of a reference that is not the last one. -/
theorem ocfReqPut_keep {i : Nat} (h : (s.req i).refCount ≠ 1) :
    ocfReqPut s i = some (s.setReq i (s.req i).put) := by
  have hne : (s.req i).put.refCount ≠ 0 := by
    simp only [Req.put]
    omega
  exact if_pos hne

/-- `ocf_req_put` of the last reference. -/
theorem ocfReqPut_last {i : Nat} (h : (s.req i).refCount = 1) (hm : (s.req i).metadataRefs ≤ s.metadata.counter)
    (hd : (s.req i).d2cRefs ≤ s.d2c.counter) : ocfReqPut s i =
    some ({ (s.setReq i (s.req i).put).less (s.req i).metadataRefs (s.req i).d2cRefs with
      live := s.live.erase i }.queuePut (s.req i).ioQueue) := by
  have hzero : ¬(s.req i).put.refCount ≠ 0 := by
    simp only [Req.put]
    omega
  have hdrop : (s.setReq i (s.req i).put).drop (s.req i).put =
      some ((s.setReq i (s.req i).put).less (s.req i).metadataRefs (s.req i).d2cRefs) := drop_spec hm hd
  unfold ocfReqPut
  rw [if_neg hzero, hdrop]
  rfl

@[simp] theorem queueGet_refCount (s : State) (queue q : Nat) : ((s.queueGet queue).queues q).refCount =
    (s.queues q).refCount + if q = queue then 1 else 0 := by
  by_cases hq : q = queue
  · subst hq
    simp [State.queueGet, State.setQueue]
  · simp [State.queueGet, State.setQueue, hq]

@[simp] theorem queuePut_refCount (s : State) (queue q : Nat) : ((s.queuePut queue).queues q).refCount =
    (s.queues q).refCount - if q = queue then 1 else 0 := by
  by_cases hq : q = queue
  · subst hq
    simp [State.queuePut, State.setQueue]
  · simp [State.queuePut, State.setQueue, hq]

@[simp] theorem nextIdx_refCount (s : State) (queue q : Nat) : ((s.nextIdx queue).queues q).refCount =
    (s.queues q).refCount := by
  by_cases hq : q = queue
  · subst hq
    simp [State.nextIdx, State.setQueue]
  · simp [State.nextIdx, State.setQueue, hq]

end Put

section Made

variable {c : Cache} {s s' : State} {a : Allocs} {i queue core : Nat} {addr : UInt64} {bytes : UInt32} {rw : Rw}

/-- What is neither a count nor a request. -/
structure State.SameRest (s s' : State) : Prop where
  /-- The freeze of `refcnt.metadata`. -/
  metadataFreeze : s'.metadata.freeze = s.metadata.freeze
  /-- The freeze of `refcnt.d2c`. -/
  d2cFreeze : s'.d2c.freeze = s.d2c.freeze
  /-- The state of the cache. -/
  standby : s'.standby = s.standby
  /-- The number of I/Os. -/
  submitted : s'.submitted = s.submitted
  /-- The I/Os. -/
  ios : s'.ios = s.ios
  /-- The other requests. -/
  live : ∀ j, j ∈ s.live → j ∈ s'.live ∧ s'.req j = s.req j

/-- A constructor has made a request that holds what the counts were raised by. -/
structure State.Made (s s' : State) (i queue : Nat) : Prop where
  /-- The rest is as before. -/
  rest : s.SameRest s'
  /-- The request is the only new one. -/
  live : s'.live = insert i s.live
  /-- It has one reference. -/
  refCount : (s'.req i).refCount = 1
  /-- It is for the queue. -/
  ioQueue : (s'.req i).ioQueue = queue
  /-- `refcnt.metadata` counts it. -/
  metadata : s'.metadata.counter = s.metadata.counter + (s'.req i).metadataRefs
  /-- `refcnt.d2c` counts it. -/
  d2c : s'.d2c.counter = s.d2c.counter + (s'.req i).d2cRefs
  /-- The queue counts it. -/
  queues : ∀ q, (s'.queues q).refCount = (s.queues q).refCount + if q = queue then 1 else 0
  /-- No reference was left behind. -/
  lost : s'.lostD2c = s.lostD2c

/-- A constructor has failed. -/
structure State.Failed (s s' : State) : Prop where
  /-- The rest is as before. -/
  rest : s.SameRest s'
  /-- There is no new request. -/
  live : s'.live = s.live
  /-- `refcnt.metadata` is as before. -/
  metadata : s'.metadata.counter = s.metadata.counter
  /-- `refcnt.d2c` has the references left behind. -/
  d2c : s'.d2c.counter + s.lostD2c = s.d2c.counter + s'.lostD2c
  /-- The queues are as before. -/
  queues : ∀ q, (s'.queues q).refCount = (s.queues q).refCount

/-- One of the two counters counts a request once. -/
def Req.Counted (r : Req) : Prop := r.metadataRefs + r.d2cRefs = 1

/-- A constructor has returned. -/
def State.New (s s' : State) (i queue : Nat) : Option Nat → Prop
  | none => s.Failed s'
  | some j => j = i ∧ s.Made s' i queue ∧ (s'.req i).Counted

@[simp] theorem setReq_self (s : State) (i : Nat) (r : Req) : (s.setReq i r).req i = r := update_self ..

theorem setReq_of_ne (s : State) (r : Req) {i j : Nat} (h : j ≠ i) : (s.setReq i r).req j = s.req j :=
  update_of_ne h ..

theorem State.SameRest.refl (s : State) : s.SameRest s := ⟨rfl, rfl, rfl, rfl, rfl, fun _ hj => ⟨hj, rfl⟩⟩

theorem State.Made.setReq (h : s.Made s' i queue) (hi : i ∉ s.live) {r : Req} (hq : r.ioQueue = (s'.req i).ioQueue)
    (hc : r.refCount = (s'.req i).refCount) (hm : r.metadataRefs = (s'.req i).metadataRefs)
    (hd : r.d2cRefs = (s'.req i).d2cRefs) : s.Made (s'.setReq i r) i queue where
  rest :=
    { metadataFreeze := h.rest.metadataFreeze
      d2cFreeze := h.rest.d2cFreeze
      standby := h.rest.standby
      submitted := h.rest.submitted
      ios := h.rest.ios
      live := fun j hj => by
        have hne : j ≠ i := fun heq => hi (heq ▸ hj)
        rw [setReq_of_ne _ _ hne]
        exact h.rest.live j hj }
  live := h.live
  refCount := by
    rw [setReq_self, hc]
    exact h.refCount
  ioQueue := by
    rw [setReq_self, hq]
    exact h.ioQueue
  metadata := by
    rw [setReq_self, hm]
    exact h.metadata
  d2c := by
    rw [setReq_self, hd]
    exact h.d2c
  queues := h.queues
  lost := h.lost

theorem State.Made.put (h : s.Made s' i queue) (hi : i ∉ s.live) :
    ∃ t, ocfReqPut s' i = some t ∧ s.Failed t ∧ t.lostD2c = s.lostD2c := by
  have hm : (s'.req i).metadataRefs ≤ s'.metadata.counter := by
    rw [h.metadata]
    exact Nat.le_add_left ..
  have hd : (s'.req i).d2cRefs ≤ s'.d2c.counter := by
    rw [h.d2c]
    exact Nat.le_add_left ..
  have hlive : s'.live.erase i = s.live := by
    rw [h.live]
    exact Finset.erase_insert hi
  refine ⟨_, ocfReqPut_last h.refCount hm hd, ⟨⟨h.rest.metadataFreeze, h.rest.d2cFreeze, h.rest.standby,
    h.rest.submitted, h.rest.ios, fun j hj => ?_⟩, hlive, ?_, ?_, fun q => ?_⟩, h.lost⟩
  · have hne : j ≠ i := fun heq => hi (heq ▸ hj)
    exact ⟨hlive ▸ hj, (setReq_of_ne s' _ hne).trans (h.rest.live j hj).2⟩
  · have hmet := h.metadata
    change s'.metadata.counter - (s'.req i).metadataRefs = s.metadata.counter
    omega
  · have hd2c := h.d2c
    have hlost := h.lost
    change s'.d2c.counter - (s'.req i).d2cRefs + s.lostD2c = s.d2c.counter + s'.lostD2c
    omega
  · have hq := h.queues q
    rw [queuePut_refCount, h.ioQueue]
    change (s'.queues q).refCount - _ = _
    rw [hq]
    exact add_sub_cancel_right ..

theorem State.Made.allocMap (h : s.Made s' i queue) (hi : i ∉ s.live) (hone : (s'.req i).Counted)
    (hmap : (s'.req i).map = .null → (s'.req i).coreLineCount ≠ 0) :
    ∃ t result, s'.allocMap a i = some (t, result) ∧ s.New t i queue result ∧ t.lostD2c = s.lostD2c := by
  unfold State.allocMap ocfReqAllocMap
  by_cases hnull : (s'.req i).map = .null
  · rw [if_neg (not_not.mpr hnull), if_neg (hmap hnull)]
    cases hok : a.map with
    | true =>
      have hmade := h.setReq hi (r := { s'.req i with map := .allocated }) rfl rfl rfl rfl
      refine ⟨_, _, rfl, ⟨rfl, hmade, ?_⟩, hmade.lost⟩
      rw [setReq_self]
      exact hone
    | false =>
      have hmade := h.setReq hi (r := { s'.req i with error := errNoMem }) rfl rfl rfl rfl
      obtain ⟨t, ht, hfailed, hlost⟩ := hmade.put hi
      refine ⟨t, none, ?_, hfailed, hlost⟩
      rw [if_neg nofun, Option.bind_some]
      have hne : errNoMem ≠ 0 := by decide
      change (if errNoMem ≠ 0 then _ else _) = _
      rw [if_pos hne, ht]
      rfl
  · rw [if_pos hnull]
    have hmade := h.setReq hi (r := s'.req i) rfl rfl rfl rfl
    refine ⟨_, _, rfl, ⟨rfl, hmade, ?_⟩, hmade.lost⟩
    rw [setReq_self]
    exact hone

theorem State.Made.of_store {t : State} {r : Req} (hi : i ∉ s.live) (hrest : s.SameRest t) (hlive : t.live = s.live)
    (hrc : r.refCount = 1) (hq : r.ioQueue = queue) (hm : t.metadata.counter = s.metadata.counter + r.metadataRefs)
    (hd : t.d2c.counter = s.d2c.counter + r.d2cRefs)
    (hqueues : ∀ q, (t.queues q).refCount = (s.queues q).refCount + if q = queue then 1 else 0)
    (hlost : t.lostD2c = s.lostD2c) : s.Made (t.store i r) i queue where
  rest :=
    { metadataFreeze := hrest.metadataFreeze
      d2cFreeze := hrest.d2cFreeze
      standby := hrest.standby
      submitted := hrest.submitted
      ios := hrest.ios
      live := fun j hj => by
        have hne : j ≠ i := fun heq => hi (heq ▸ hj)
        exact ⟨Finset.mem_insert_of_mem (hlive ▸ hj), (update_of_ne hne ..).trans (hrest.live j hj).2⟩ }
  live := congrArg (insert i) hlive
  refCount := by
    rw [State.store, setReq_self, hrc]
  ioQueue := by
    rw [State.store, setReq_self, hq]
  metadata := by
    rw [State.store, setReq_self]
    exact hm
  d2c := by
    rw [State.store, setReq_self]
    exact hd
  queues := hqueues
  lost := hlost

theorem envRefcntInc_of_free {rc : EnvRefcnt} (h : rc.freeze = 0) :
    envRefcntInc rc = some { rc with counter := rc.counter + 1 } := if_pos h

theorem envRefcntInc_of_frozen {rc : EnvRefcnt} (h : rc.freeze ≠ 0) : envRefcntInc rc = none := if_neg h

theorem undo_metadata (rc : EnvRefcnt) :
    envRefcntDec { rc with counter := rc.counter + 1 } = some rc := envRefcntDec_of_pos (Nat.succ_pos _)

theorem failed_of_eq (h : s'.metadata = s.metadata) (hd : s'.d2c = s.d2c) (hst : s'.standby = s.standby)
    (hsub : s'.submitted = s.submitted) (hios : s'.ios = s.ios) (hlive : s'.live = s.live) (hreq : s'.req = s.req)
    (hlost : s'.lostD2c = s.lostD2c) (hq : ∀ q, (s'.queues q).refCount = (s.queues q).refCount) : s.Failed s' where
  rest :=
    { metadataFreeze := by rw [h]
      d2cFreeze := by rw [hd]
      standby := hst
      submitted := hsub
      ios := hios
      live := fun j hj => ⟨hlive ▸ hj, by rw [hreq]⟩ }
  live := hlive
  metadata := by rw [h]
  d2c := by rw [hd, hlost]
  queues := hq

theorem failed_get_put (s : State) (queue : Nat) : s.Failed ((s.queueGet queue).queuePut queue) :=
  failed_of_eq rfl rfl rfl rfl rfl rfl rfl rfl fun q => by
    rw [queuePut_refCount, queueGet_refCount]
    exact add_sub_cancel_right ..

theorem initCore_made (c : Cache) (hi : i ∉ s.live) (core : Nat) (addr : UInt64) (bytes : UInt32) (rw : Rw)
    (mapAllocated : Bool) : s.Made ({ s with metadata := { s.metadata with counter := s.metadata.counter + 1 }
      }.queueGet queue |>.initCore c i queue core addr bytes rw mapAllocated) i queue :=
  State.Made.of_store hi ⟨rfl, rfl, rfl, rfl, rfl, fun _ hj => ⟨hj, rfl⟩⟩ rfl rfl rfl rfl rfl
    (fun q => by rw [nextIdx_refCount, queueGet_refCount]) rfl

theorem initCache_made (c : Cache) (hi : i ∉ s.live) (addr : UInt64) (bytes : UInt32) (rw : Rw)
    (mapAllocated : Bool) : s.Made ({ s with metadata := { s.metadata with counter := s.metadata.counter + 1 }
      }.queueGet queue |>.initCache c i queue addr bytes rw mapAllocated) i queue :=
  State.Made.of_store hi ⟨rfl, rfl, rfl, rfl, rfl, fun _ hj => ⟨hj, rfl⟩⟩ rfl rfl rfl rfl rfl
    (fun q => by rw [nextIdx_refCount, queueGet_refCount]) rfl

end Made

section Calls

variable {c : Cache} {s : State} {a : Allocs} {i queue core : Nat} {addr : UInt64} {bytes : UInt32} {rw : Rw}

/-- `ocf_req_new` while `refcnt.metadata` is not frozen. -/
theorem ocfReqNew_free (hi : i ∉ s.live) (hq : queue ≠ c.mngtQueue) (hm : s.metadata.freeze = 0) :
    ocfReqNew c s a i queue core addr bytes rw = some ((s.queueGet queue).queuePut queue, none) ∨
    ∃ t, ocfReqNew c s a i queue core addr bytes rw = some (t, some i) ∧ s.Made t i queue ∧
      (t.req i).Counted ∧ (t.req i).coreLineCount ≠ 0 := by
  have hinc : envRefcntInc (s.queueGet queue).metadata = some ⟨s.metadata.counter + 1, s.metadata.freeze⟩ :=
    envRefcntInc_of_free hm
  have hcount : ∀ (t : State) (alloc : Bool),
      ((t.initCore c i queue core addr bytes rw alloc).req i).coreLineCount ≠ 0 := fun t alloc => by
    rw [State.initCore, State.store, setReq_self]
    exact coreLineCount_ne_zero c addr bytes
  have hone : ∀ (t : State) (alloc : Bool), ((t.initCore c i queue core addr bytes rw alloc).req i).Counted :=
    fun t alloc => by
      rw [State.initCore, State.store, setReq_self]
      rfl
  unfold ocfReqNew
  rw [if_neg hq]
  simp only [hinc]
  cases hp : a.mpool with
  | true => exact .inr ⟨_, rfl, initCore_made c hi core addr bytes rw true, hone _ _, hcount _ _⟩
  | false =>
    cases ho : a.mpoolOne with
    | true => exact .inr ⟨_, rfl, initCore_made c hi core addr bytes rw false, hone _ _, hcount _ _⟩
    | false =>
      refine .inl ?_
      rfl

/-- `ocf_req_new` while `refcnt.metadata` is frozen. -/
theorem ocfReqNew_frozen (hq : queue ≠ c.mngtQueue) (hm : s.metadata.freeze ≠ 0) :
    ocfReqNew c s a i queue core addr bytes rw = if s.d2c.freeze = 0 then
        let t := { s.queueGet queue with d2c := { s.d2c with counter := s.d2c.counter + 1 } }
        if a.mpoolOne then some (t.store i { ocfReqInit { Req.zero with allocCoreLineCount := 1 } queue
          (some core) addr bytes rw with d2c := true }, some i)
        else some ({ t with lostD2c := s.lostD2c + 1 }.queuePut queue, none)
      else none := by
  have hinc : envRefcntInc (s.queueGet queue).metadata = none := envRefcntInc_of_frozen hm
  unfold ocfReqNew
  rw [if_neg hq]
  simp only [hinc]
  by_cases hd : s.d2c.freeze = 0
  · have hd2c : envRefcntInc (s.queueGet queue).d2c = some { s.d2c with counter := s.d2c.counter + 1 } :=
      envRefcntInc_of_free hd
    rw [if_pos hd]
    simp only [hd2c]
    unfold ocfReqNewD2c
    cases a.mpoolOne with
    | true => rfl
    | false => rfl
  · have hd2c : envRefcntInc (s.queueGet queue).d2c = none := envRefcntInc_of_frozen hd
    rw [if_neg hd]
    simp only [hd2c]

theorem d2c_made (hi : i ∉ s.live) (core : Nat) (addr : UInt64) (bytes : UInt32) (rw : Rw) :
    s.Made ({ s.queueGet queue with d2c := { s.d2c with counter := s.d2c.counter + 1 } }.store i
      { ocfReqInit { Req.zero with allocCoreLineCount := 1 } queue (some core) addr bytes rw with d2c := true })
      i queue :=
  State.Made.of_store hi ⟨rfl, rfl, rfl, rfl, rfl, fun _ hj => ⟨hj, rfl⟩⟩ rfl rfl rfl rfl rfl
    (fun q => queueGet_refCount s queue q) rfl

theorem d2c_failed (s : State) (queue : Nat) : s.Failed ({ s.queueGet queue with
      d2c := { s.d2c with counter := s.d2c.counter + 1 }, lostD2c := s.lostD2c + 1 }.queuePut queue) where
  rest := ⟨rfl, rfl, rfl, rfl, rfl, fun _ hj => ⟨hj, rfl⟩⟩
  live := rfl
  metadata := rfl
  d2c := by
    change s.d2c.counter + 1 + s.lostD2c = s.d2c.counter + (s.lostD2c + 1)
    omega
  queues q := by
    rw [queuePut_refCount]
    change ((s.queueGet queue).queues q).refCount - _ = _
    rw [queueGet_refCount]
    exact add_sub_cancel_right ..

theorem initCleaner_new (hi : i ∉ s.live) (count : UInt32) (isMngt mapAllocated : Bool)
    (hcount : mapAllocated = true ∨ count ≠ 0) :
    ∃ t result, ({ s with metadata := { s.metadata with counter := s.metadata.counter + 1 } }.initCleaner a i
      queue count isMngt mapAllocated) = some (t, result) ∧ s.New t i queue result ∧ t.lostD2c = s.lostD2c := by
  refine State.Made.allocMap (s := s) ?_ hi ?_ ?_
  · refine State.Made.of_store hi ⟨rfl, rfl, rfl, rfl, rfl, fun _ hj => ⟨hj, rfl⟩⟩ rfl rfl rfl ?_ rfl
      (fun q => by rw [nextIdx_refCount, queueGet_refCount]) rfl
    simp [Req.metadataRefs, ocfReqInit, Req.zero, State.queueGet, State.setQueue, State.nextIdx]
  · rw [State.store, setReq_self]
    simp [Req.Counted, Req.metadataRefs, Req.d2cRefs, ocfReqInit, Req.zero]
  · intro hnull
    rw [State.store, setReq_self] at hnull ⊢
    obtain rfl | hne := hcount
    · cases hnull
    · exact hne

/-- A clean call. -/
def Call.Kept (c : Cache) (s : State) (a : Allocs) (i : Nat) (call : Call) : Prop :=
  ∃ t result, call.run c s a i = some (t, result) ∧ s.New t i call.queue result ∧ t.lostD2c = s.lostD2c

/-- A call that aborts, or fails and leaves a reference on `refcnt.d2c` behind. -/
def Call.Broken (c : Cache) (s : State) (a : Allocs) (i : Nat) (call : Call) : Prop :=
  call.run c s a i = none ∨
    ∃ t, call.run c s a i = some (t, none) ∧ s.Failed t ∧ t.lostD2c = s.lostD2c + 1

theorem reqNew_kept (hi : i ∉ s.live) (h : (Call.reqNew queue core addr bytes rw).Clean c s a) :
    (Call.reqNew queue core addr bytes rw).Kept c s a i := by
  obtain ⟨hq, hfrozen⟩ := h
  by_cases hm : s.metadata.freeze = 0
  · obtain hfail | ⟨t, ht, hmade, hone, -⟩ := ocfReqNew_free hi hq hm
    · exact ⟨_, _, hfail, failed_get_put s queue, rfl⟩
    · exact ⟨_, _, ht, ⟨rfl, hmade, hone⟩, hmade.lost⟩
  · obtain ⟨hd, hpool⟩ := hfrozen hm
    have hrun := @ocfReqNew_frozen c s a i queue core addr bytes rw hq hm
    rw [if_pos hd] at hrun
    simp only [hpool, if_true] at hrun
    have hmade := @d2c_made s i queue hi core addr bytes rw
    refine ⟨_, _, hrun, ⟨rfl, hmade, ?_⟩, hmade.lost⟩
    rw [State.store, setReq_self]
    rfl

theorem reqNew_broken (h : ¬(Call.reqNew queue core addr bytes rw).Clean c s a) :
    (Call.reqNew queue core addr bytes rw).Broken c s a i := by
  by_cases hq : queue = c.mngtQueue
  · exact .inl (if_pos hq)
  · have hm : s.metadata.freeze ≠ 0 := fun hm => h ⟨hq, fun hne => absurd hm hne⟩
    have hrun := @ocfReqNew_frozen c s a i queue core addr bytes rw hq hm
    by_cases hd : s.d2c.freeze = 0
    · have hpool : ¬a.mpoolOne = true := fun hpool => h ⟨hq, fun _ => ⟨hd, hpool⟩⟩
      rw [if_pos hd] at hrun
      simp only [if_neg hpool] at hrun
      exact .inr ⟨_, hrun, d2c_failed s queue, rfl⟩
    · rw [if_neg hd] at hrun
      exact .inl hrun

theorem reqNewExtended_kept (hi : i ∉ s.live) (h : (Call.reqNewExtended queue core addr bytes rw).Clean c s a) :
    (Call.reqNewExtended queue core addr bytes rw).Kept c s a i := by
  obtain hfail | ⟨t, ht, hmade, hone, hcount⟩ := ocfReqNew_free hi h.1 h.2
  · refine ⟨_, none, ?_, failed_get_put s queue, rfl⟩
    change (ocfReqNew c s a i queue core addr bytes rw).bind _ = _
    rw [hfail]
    rfl
  · obtain ⟨t', result, halloc, hnew, hlost⟩ := hmade.allocMap (a := a) hi hone fun _ => hcount
    refine ⟨t', result, ?_, hnew, hlost⟩
    change (ocfReqNew c s a i queue core addr bytes rw).bind _ = _
    rw [ht]
    exact halloc

theorem d2c_allocMap (t : State) (r : Req) (hmap : r.map = .null) (hcount : r.coreLineCount = 0) :
    (t.store i r).allocMap a i = none := by
  unfold State.allocMap ocfReqAllocMap
  rw [State.store, setReq_self, if_neg (not_not.mpr hmap), if_pos hcount]
  rfl

theorem reqNewExtended_broken (h : ¬(Call.reqNewExtended queue core addr bytes rw).Clean c s a) :
    (Call.reqNewExtended queue core addr bytes rw).Broken c s a i := by
  change (ocfReqNew c s a i queue core addr bytes rw).bind _ = none ∨
    ∃ t, (ocfReqNew c s a i queue core addr bytes rw).bind _ = some (t, none) ∧ _
  by_cases hq : queue = c.mngtQueue
  · have hrun : ocfReqNew c s a i queue core addr bytes rw = none := if_pos hq
    rw [hrun]
    exact .inl rfl
  · have hm : s.metadata.freeze ≠ 0 := fun hm => h ⟨hq, hm⟩
    rw [ocfReqNew_frozen hq hm]
    by_cases hd : s.d2c.freeze = 0
    · rw [if_pos hd]
      cases hpool : a.mpoolOne with
      | true =>
        refine .inl ?_
        exact d2c_allocMap _ _ rfl rfl
      | false => exact .inr ⟨_, rfl, d2c_failed s queue, rfl⟩
    · rw [if_neg hd]
      exact .inl rfl

theorem reqNewCleaner_kept {count : UInt32} (hi : i ∉ s.live)
    (h : (Call.reqNewCleaner queue count).Clean c s a) : (Call.reqNewCleaner queue count).Kept c s a i := by
  change ∃ t result, ocfReqNewCleaner c s a i queue count = some (t, result) ∧ _
  unfold ocfReqNewCleaner
  by_cases hm : s.metadata.freeze = 0
  · rw [envRefcntInc_of_free hm]
    have hfail : ∃ t result, ((envRefcntDec { s.metadata with counter := s.metadata.counter + 1 }).map
        fun metadata => ({ s with metadata }, none)) = some (t, result) ∧ s.New t i queue result ∧
        t.lostD2c = s.lostD2c := by
      exact ⟨s, none, rfl, failed_of_eq rfl rfl rfl rfl rfl rfl rfl rfl fun _ => rfl, rfl⟩
    by_cases hq : queue = c.mngtQueue
    · have hcount : count ≠ 0 := by
        obtain hne | hne | ⟨hne, -⟩ := h
        · exact absurd hm hne
        · exact hne
        · exact absurd hq hne
      simp only [if_pos hq, if_neg hcount]
      cases a.zalloc with
      | true => exact initCleaner_new hi count true true (.inl rfl)
      | false => exact hfail
    · simp only [if_neg hq]
      cases hp : a.mpool with
      | true => exact initCleaner_new hi count false true (.inl rfl)
      | false =>
        cases ho : a.mpoolOne with
        | true =>
          have hcount : count ≠ 0 := by
            obtain hne | hne | ⟨-, hne | hne⟩ := h
            · exact absurd hm hne
            · exact hne
            · rw [hp] at hne
              cases hne
            · rw [ho] at hne
              cases hne
          exact initCleaner_new hi count false false (.inr hcount)
        | false => exact hfail
  · rw [envRefcntInc_of_frozen hm]
    exact ⟨s, none, rfl, failed_of_eq rfl rfl rfl rfl rfl rfl rfl rfl fun _ => rfl, rfl⟩

theorem reqNewCleaner_broken {count : UInt32} (h : ¬(Call.reqNewCleaner queue count).Clean c s a) :
    (Call.reqNewCleaner queue count).Broken c s a i := by
  obtain ⟨hm, h⟩ := not_or.mp h
  obtain ⟨hcount, h⟩ := not_or.mp h
  have hm : s.metadata.freeze = 0 := not_not.mp hm
  have hcount : count = 0 := not_not.mp hcount
  refine .inl ?_
  change ocfReqNewCleaner c s a i queue count = none
  unfold ocfReqNewCleaner
  rw [envRefcntInc_of_free hm]
  by_cases hq : queue = c.mngtQueue
  · simp only [if_pos hq, if_pos hcount]
  · obtain ⟨hp, ho⟩ := not_or.mp fun hpool => h ⟨hq, hpool⟩
    simp only [if_neg hq, if_neg hp, if_pos ((Bool.not_eq_false _).mp ho)]
    exact d2c_allocMap _ _ rfl hcount

theorem reqNewCache_kept (hi : i ∉ s.live) (h : (Call.reqNewCache queue addr bytes rw).Clean c s a) :
    (Call.reqNewCache queue addr bytes rw).Kept c s a i := by
  have hone : ∀ (t : State) (alloc : Bool), ((t.initCache c i queue addr bytes rw alloc).req i).Counted :=
    fun t alloc => by
      rw [State.initCache, State.store, setReq_self]
      rfl
  change ∃ t result, ocfReqNewCache c s a i queue addr bytes rw = some (t, result) ∧ _
  unfold ocfReqNewCache
  rw [if_neg h]
  by_cases hm : s.metadata.freeze = 0
  · rw [envRefcntInc_of_free hm]
    cases hp : a.mpool with
    | true =>
      have hmade := @initCache_made s i queue c hi addr bytes rw true
      exact ⟨_, _, rfl, ⟨rfl, hmade, hone _ _⟩, hmade.lost⟩
    | false =>
      cases ho : a.mpoolOne with
      | true =>
        have hmade := @initCache_made s i queue c hi addr bytes rw false
        exact ⟨_, _, rfl, ⟨rfl, hmade, hone _ _⟩, hmade.lost⟩
      | false =>
        have hundo : envRefcntDec ({ s with metadata := { s.metadata with counter := s.metadata.counter + 1 }
            }.queueGet queue).metadata = some s.metadata := undo_metadata s.metadata
        exact ⟨_, none, rfl, failed_get_put s queue, rfl⟩
  · rw [envRefcntInc_of_frozen hm]
    exact ⟨s, none, rfl, failed_of_eq rfl rfl rfl rfl rfl rfl rfl rfl fun _ => rfl, rfl⟩

theorem Call.kept (hi : i ∉ s.live) {call : Call} (h : call.Clean c s a) : call.Kept c s a i := by
  cases call with
  | reqNew queue core addr bytes rw => exact reqNew_kept hi h
  | reqNewExtended queue core addr bytes rw => exact reqNewExtended_kept hi h
  | reqNewDiscard queue core addr bytes rw => exact @reqNewExtended_kept c s a i queue core addr (min bytes maxTrimRqSize.toUInt32) rw hi h
  | reqNewCleaner queue count => exact reqNewCleaner_kept hi h
  | reqNewCache queue addr bytes rw => exact reqNewCache_kept hi h

theorem Call.broken {call : Call} (h : ¬call.Clean c s a) : call.Broken c s a i := by
  cases call with
  | reqNew queue core addr bytes rw => exact reqNew_broken h
  | reqNewExtended queue core addr bytes rw => exact reqNewExtended_broken h
  | reqNewDiscard queue core addr bytes rw => exact @reqNewExtended_broken c s a i queue core addr (min bytes maxTrimRqSize.toUInt32) rw h
  | reqNewCleaner queue count => exact reqNewCleaner_broken h
  | reqNewCache queue addr bytes rw => exact .inl (if_pos (not_not.mp h))

theorem State.Made.returned {s' : State} (h : s.Made s' i queue) : Returned s s' i := by
  intro t hq hd2c hmngt hcleaner href hm hd
  have hrefs : (t.req i).metadataRefs = (s'.req i).metadataRefs := by
    unfold Req.metadataRefs
    rw [hd2c, hmngt, hcleaner]
  have hrefs' : (t.req i).d2cRefs = (s'.req i).d2cRefs := by
    unfold Req.d2cRefs
    rw [hd2c]
  have hmet := h.metadata
  have hcnt := h.d2c
  refine ⟨_, ocfReqPut_last href (by omega) (by omega), ?_, ?_, fun q => ?_⟩
  · change t.metadata.counter - (t.req i).metadataRefs + s'.metadata.counter = _
    omega
  · change t.d2c.counter - (t.req i).d2cRefs + s'.d2c.counter = _
    omega
  · rw [queuePut_refCount, hq, h.ioQueue, h.queues q]
    change (t.queues q).refCount - _ + _ = _
    omega

theorem State.Made.oneRef {s' : State} (h : s.Made s' i queue) (hone : (s'.req i).Counted) :
    s.OneRef s' queue := by
  refine ⟨?_, h.queues⟩
  have hone : (s'.req i).metadataRefs + (s'.req i).d2cRefs = 1 := hone
  have hm := h.metadata
  have hd := h.d2c
  omega

theorem Call.balanced_iff (hi : i ∉ s.live) (call : Call) : call.Balanced c s a i ↔ call.Clean c s a := by
  constructor
  · rintro ⟨t, result, hrun, hresult⟩
    by_contra hclean
    obtain hnone | ⟨t', hfail, hfailed, hlost⟩ := Call.broken (i := i) hclean
    · rw [hnone] at hrun
      cases hrun
    · rw [hfail] at hrun
      cases hrun
      have hsame : t.d2c.counter = s.d2c.counter := hresult.2.1
      have hd := hfailed.d2c
      omega
  · intro hclean
    obtain ⟨t, result, hrun, hnew, hlost⟩ := Call.kept hi hclean
    refine ⟨t, result, hrun, ?_⟩
    cases result with
    | none =>
      have hfailed : s.Failed t := hnew
      have hd := hfailed.d2c
      exact ⟨hfailed.metadata, by omega, hfailed.queues⟩
    | some j =>
      obtain ⟨rfl, hmade, hone⟩ := hnew
      refine ⟨rfl, ?_, hmade.refCount, hmade.oneRef hone, hmade.returned⟩
      rw [hmade.live]
      exact Finset.mem_insert_self ..

end Calls

end OcfCache.RequestNew
