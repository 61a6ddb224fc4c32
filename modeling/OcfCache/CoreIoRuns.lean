import OcfCache.CoreIo

/-!
# Runs of a core I/O

A request is open until its end callback is called and closed behind it. While
it is open the completion holds one reference, and until it is over the engine
holds one more. Every function of the engines hands an open request over, or
completes it once.
-/

namespace OcfCache.CoreIo

open Runs
open Requests (ReqInfo)

variable {h hd : Handler} {r' : Req}

section Places

/-- Functions that run behind the completion. -/
def Handler.after : Handler → Bool
  | .backfillDo => true
  | .backfillUpdateMetadata => true
  | .invalidateDo => true
  | _ => false

/-- Completions behind that of the request. -/
def Callback.after : Callback → Bool
  | .backfillComplete => true
  | .invalidateReq => true
  | _ => false

/-- Functions that a refresh goes on with. -/
def Handler.refreshed : Handler → Bool
  | .readGenericDo => true
  | .readPtDo => true
  | .readWoDo => true
  | .readFastDo => true
  | .writeWtDo => true
  | .writeWbDo => true
  | _ => false

/-- Functions that are resumed without a refresh. -/
def Handler.resumed : Handler → Bool
  | .writeWiCoreWrite => true
  | .writeWiUpdateAndFlushMetadata => true
  | .discardStepDo => true
  | _ => false

/-- Functions that start over behind the cleaner. -/
def Handler.cleans : Handler → Bool
  | .readGenericDo => true
  | .readPtDo => true
  | .readFastDo => true
  | .writeWiCoreWrite => true
  | _ => false

variable (r : Req)

/-- Lines are left for the discard. -/
def Req.Discarding : Prop := r.discardHandled < r.discardBytes

/-- What a function relies on; behind the cleaner the `engine_handler` runs again. -/
def Req.Ready : Handler → Prop
  | .readGenericDo => r.handler.cleans = true
  | .readPtDo => r.handler.cleans = true
  | .readFastDo => r.handler.cleans = true
  | .writeWiCoreWrite => r.handler.cleans = true
  | .engineDiscard => r.discardHandled = 0
  | .discardStep => r.Discarding
  | .discardStepDo => r.Discarding ∧ 0 < r.bytes
  | .engineRefresh => ∃ h, r.priv = some h ∧ h.refreshed = true
  | _ => True

/-- What holds of the request where it is. -/
def Req.PlacedAt : Stage → Prop
  | .idle => True
  | .call h => r.Ready h
  | .queued => r.Ready r.handler
  | .locking true => r.handler.refreshed = true
  | .locking false => r.handler.resumed = true ∧ r.Ready r.handler
  | .cleaning => r.handler.cleans = true
  | .io cb => cb = .discardCoreComplete → r.discardHandled = 0
  | .pair p a b => r.reqRemaining = a.toInt + b.toInt ∧ 0 < r.reqRemaining ∧
      (p = .discardStep → r.Discarding ∧ 0 < r.bytes)
  | .lost => False

theorem ready_of_refreshed (hr : h.refreshed = true) (hhandler : r.handler = h) : r.Ready h := by
  cases h <;> simp_all [Handler.refreshed, Handler.cleans, Req.Ready]

/-- The place is behind the completion. -/
def Req.afterAt : Stage → Bool
  | .idle => true
  | .call h => h.after
  | .queued => r.handler.after
  | .io cb => cb.after
  | _ => false

end Places

section Work

variable (r : Req)

/-- Steps that the cleaner may cost. -/
def Req.unclean : Nat := if r.info.dirtyAny = 0 then 0 else 40

/-- Work left from a function on, in steps. -/
def Handler.work : Handler → Nat
  | .readGeneric => 106
  | .readGenericDo => 14 + r.unclean
  | .readPt => if r.forcePt then 104 else 108
  | .readPtDo => 10 + r.unclean
  | .readWo => 106
  | .readWoDo => 14 + r.unclean
  | .readWoCacheDo => 8
  | .readFastDo => 14 + r.unclean
  | .writeWt => 106
  | .writeWtDo => 14
  | .writeWtDoFlushMetadata => 7
  | .writeWb => 106
  | .writeWbDo => 14
  | .writeWbDoFlushMetadata => 7
  | .writeWa => 108
  | .writeWi => 104
  | .writeWiCoreWrite => 14 + r.unclean
  | .writeWiUpdateAndFlushMetadata => 10
  | .writeWiNextPass => 8
  | .engineFlush => 14
  | .engineDiscard => 114
  | .discardStep => 110
  | .discardStepDo => 14
  | .discardFlushCache => 8
  | .backfillDo => 4
  | .backfillUpdateMetadata => 2
  | .invalidateDo => 2
  | .engineRefresh => 101

/-- Work left from a completion on. -/
def Callback.work : Callback → Nat
  | .readGenericHitComplete => 12 + r.unclean
  | .readGenericMissComplete => 8
  | .readPtComplete => 5
  | .readWoCoreComplete => 9
  | .readWoCacheComplete => 7
  | .readFastComplete => 12 + r.unclean
  | .writeWbComplete => 8
  | .writeWbIoFlushMetadata => 5
  | .writeWtDoFlushMetadataCompl => 5
  | .writeWiCoreComplete => 11
  | .writeWiIoFlushMetadata => 9
  | .backfillComplete => 3
  | .invalidateReq => 1
  | .discardCoreComplete => 112
  | .discardCacheFlushComplete => 7
  | .d2cCompletion => 5

/-- Work left from a place on. -/
def Stage.work : Stage → Nat
  | .idle => 0
  | .call h => h.work r
  | .queued => r.handler.work r
  | .locking _ => 102
  | .cleaning => 35
  | .io cb => cb.work r
  | .pair _ a b => 10 + a.toNat + b.toNat
  | .lost => 0

/-- Work of the passes and of the discard that are still to come. -/
def Req.base : Nat := 400 * (r.discardBytes - r.discardHandled) + if r.wiSecondPass then 0 else 300

/-- Work of the engine. -/
def Req.work : Nat := r.base + r.stage.work r

/-- Work of the submit function. -/
def Sub.work : Sub → Nat
  | .start => 1004
  | .alloc => 1003
  | .resolve => 1002
  | .fast _ => 1001
  | .slow _ => 1000
  | .prefetch => 1
  | .returned => 0

/-- Steps that the request still takes, at most. -/
def Req.todo : Nat := 2 * r.work + r.sub.work + r.tails

theorem work_of_locked (hh : h.refreshed = true ∨ h.resumed = true) : h.work r ≤ 54 := by
  have hunclean : r.unclean ≤ 40 := by
    unfold Req.unclean
    split <;> omega
  cases h <;> simp_all [Handler.refreshed, Handler.resumed, Handler.work] <;> omega

theorem work_of_cleans (hh : h.cleans = true) : h.work r ≤ 14 + r.unclean := by
  cases h <;> simp_all [Handler.cleans, Handler.work]

theorem work_of_after (hh : h.after = true) : h.work r < 5 := by
  cases h <;> simp_all [Handler.after, Handler.work]

end Work

section Account

/-- What does not change while the engines work. -/
structure Books where
  /-- References that neither the completion nor the engine nor a tail holds. -/
  refs : Int
  /-- `refcnt.dirty` without the request. -/
  dirtyRefs : Int
  /-- The submit function. -/
  sub : Sub
  /-- References left behind. -/
  leaked : Nat

/-- One more reference of somebody else. -/
def Books.up (b : Books) : Books := { b with refs := b.refs + 1 }

variable {b : Books} {t k : Nat} {r : Req}

/-- The completion is owed, and the engine has the request. -/
structure Open (b : Books) (t : Nat) (r : Req) : Prop where
  /-- The completion and the engine hold one reference each. -/
  refs : r.refCount = b.refs + 2 + r.tails
  /-- The request may hold one on `refcnt.dirty`. -/
  dirty : r.dirtyRefs = b.dirtyRefs + r.dirty.toInt
  /-- There was no completion. -/
  ends : r.ends = []
  sub : r.sub = b.sub
  leaked : r.leaked = b.leaked
  tails : r.tails ≤ t

/-- The request is completed, and the engine holds `n` references. -/
structure Closed (b : Books) (t : Nat) (n : Int) (r : Req) : Prop where
  refs : r.refCount = b.refs + n + r.tails
  /-- Nothing is held on `refcnt.dirty`. -/
  dirtyRefs : r.dirtyRefs = b.dirtyRefs
  dirty : r.dirty = false
  /-- There was one completion. -/
  ends : r.ends.length = 1
  sub : r.sub = b.sub
  leaked : r.leaked = b.leaked
  tails : r.tails ≤ t

/-- What the books are about. -/
def Req.kept (r : Req) : Int × Int × Bool × List Int × Sub × Nat × Nat :=
  (r.refCount, r.dirtyRefs, r.dirty, r.ends, r.sub, r.leaked, r.tails)

theorem Open.congr (h : Open b t r) (heq : r'.kept = r.kept) : Open b t r' := by
  simp only [Req.kept, Prod.mk.injEq] at heq
  obtain ⟨hrefs, hdirtyRefs, hdirty, hends, hsub, hleaked, htails⟩ := heq
  constructor
  · rw [hrefs, htails, h.refs]
  · rw [hdirtyRefs, hdirty, h.dirty]
  · rw [hends, h.ends]
  · rw [hsub, h.sub]
  · rw [hleaked, h.leaked]
  · rw [htails]
    exact h.tails

theorem Closed.congr {n : Int} (h : Closed b t n r) (heq : r'.kept = r.kept) : Closed b t n r' := by
  simp only [Req.kept, Prod.mk.injEq] at heq
  obtain ⟨hrefs, hdirtyRefs, hdirty, hends, hsub, hleaked, htails⟩ := heq
  constructor
  · rw [hrefs, htails, h.refs]
  · rw [hdirtyRefs, h.dirtyRefs]
  · rw [hdirty, h.dirty]
  · rw [hends, h.ends]
  · rw [hsub, h.sub]
  · rw [hleaked, h.leaked]
  · rw [htails]
    exact h.tails

/-- The request is where it should be, with its references. -/
structure Placed (b : Books) (t : Nat) (r : Req) : Prop where
  here : r.PlacedAt r.stage
  finished : r.stage = .idle → Closed b t 0 r
  closed : r.stage ≠ .idle → r.afterAt r.stage = true → Closed b t 1 r
  opened : r.afterAt r.stage = false → Open b t r

/-- A function leaves the request at its place, with less work to do. -/
structure Out (b : Books) (t k : Nat) (r : Req) : Prop where
  placed : Placed b t r
  work : r.work < k

theorem Open.get (h : Open b t r) : Open b.up t r.get := by
  refine ⟨?_, h.dirty, h.ends, h.sub, h.leaked, h.tails⟩
  change r.refCount + 1 = b.refs + 1 + 2 + r.tails
  have hrefs := h.refs
  omega

theorem Closed.later {n : Int} (h : Closed b.up t n r) : Closed b (t + 1) n r.later := by
  refine ⟨?_, h.dirtyRefs, h.dirty, h.ends, h.sub, h.leaked, Nat.succ_le_succ h.tails⟩
  have hrefs : r.refCount = b.refs + 1 + n + r.tails := h.refs
  change r.refCount = b.refs + n + (r.tails + 1 : Nat)
  omega

theorem Open.later (h : Open b.up t r) : Open b (t + 1) r.later := by
  refine ⟨?_, h.dirty, h.ends, h.sub, h.leaked, Nat.succ_le_succ h.tails⟩
  have hrefs : r.refCount = b.refs + 1 + 2 + r.tails := h.refs
  change r.refCount = b.refs + 2 + (r.tails + 1 : Nat)
  omega

theorem Out.later (h : Out b.up t k r) : Out b (t + 1) k r.later where
  placed :=
    { here := h.placed.here
      finished := fun hs => (h.placed.finished hs).later
      closed := fun hs ha => (h.placed.closed hs ha).later
      opened := fun ha => (h.placed.opened ha).later }
  work := h.work

theorem Open.weaken (h : Open b t r) : Open b (t + 1) r :=
  ⟨h.refs, h.dirty, h.ends, h.sub, h.leaked, Nat.le_succ_of_le h.tails⟩

theorem Closed.weaken {n : Int} (h : Closed b t n r) : Closed b (t + 1) n r :=
  ⟨h.refs, h.dirtyRefs, h.dirty, h.ends, h.sub, h.leaked, Nat.le_succ_of_le h.tails⟩

theorem Out.weaken (h : Out b t k r) : Out b (t + 1) k r where
  placed :=
    { here := h.placed.here
      finished := fun hs => (h.placed.finished hs).weaken
      closed := fun hs ha => (h.placed.closed hs ha).weaken
      opened := fun ha => (h.placed.opened ha).weaken }
  work := h.work

theorem Open.goto (h : Open b t r) {stage : Stage} (hafter : r.afterAt stage = false)
    (hplace : r.PlacedAt stage) (hwork : r.base + stage.work r < k) : Out b t k (r.goto stage) where
  placed :=
    { here := hplace
      finished := fun hs => by
        have hidle : stage = .idle := hs
        rw [hidle] at hafter
        cases hafter
      closed := fun _ ha => absurd (hafter.symm.trans ha) nofun
      opened := fun _ => h.congr rfl }
  work := hwork

theorem Closed.goto (h : Closed b t 1 r) {stage : Stage} (hidle : stage ≠ .idle) (hafter : r.afterAt stage = true)
    (hplace : r.PlacedAt stage) (hwork : r.base + stage.work r < k) : Out b t k (r.goto stage) where
  placed :=
    { here := hplace
      finished := fun hs => absurd hs hidle
      closed := fun _ _ => h.congr rfl
      opened := fun ha => absurd (hafter.symm.trans ha) nofun }
  work := hwork

theorem Closed.done (h : Closed b t 1 r) (hwork : r.base < k) : Out b t k r.done where
  placed :=
    { here := trivial
      finished := fun _ => by
        refine ⟨?_, h.dirtyRefs, h.dirty, h.ends, h.sub, h.leaked, h.tails⟩
        change r.refCount - 1 = b.refs + 0 + r.tails
        have hrefs := h.refs
        omega
      closed := fun hs _ => absurd rfl hs
      opened := nofun }
  work := hwork

/-- `ocf_req_complete` calls the end callback and drops what the completion holds. -/
theorem Open.complete (h : Open b t r) (error : Int) : Closed b t 1 (ocfReqComplete r error) := by
  have hrefs := h.refs
  have hdirty := h.dirty
  have hends : (r.ends ++ [error]).length = 1 := by rw [h.ends]; rfl
  unfold ocfReqComplete decCounterIfReqWasDirty
  by_cases hd : (ocfIoEndFunc r error).dirty = true
  · have hd' : r.dirty = true := hd
    rw [if_pos hd]
    rw [hd'] at hdirty
    refine ⟨?_, ?_, rfl, hends, h.sub, h.leaked, h.tails⟩
    · change r.refCount - 1 = b.refs + 1 + r.tails
      omega
    · change r.dirtyRefs - 1 = b.dirtyRefs
      rw [hdirty]
      exact Int.add_sub_cancel ..
  · rw [if_neg hd]
    have hd' : r.dirty = false := Bool.eq_false_iff.mpr hd
    rw [hd'] at hdirty
    refine ⟨?_, ?_, hd', hends, h.sub, h.leaked, h.tails⟩
    · change r.refCount - 1 = b.refs + 1 + r.tails
      omega
    · exact hdirty.trans (Int.add_zero _)

theorem complete_base (r : Req) (error : Int) : (ocfReqComplete r error).base = r.base := by
  unfold ocfReqComplete decCounterIfReqWasDirty
  split <;> rfl

theorem Open.finish (h : Open b t r) (error : Int) (hwork : r.base < k) : Out b t k (r.finish error) :=
  (h.complete error).done ((complete_base r error).symm ▸ hwork)

theorem Open.pushCb (h : Open b t r) (hafter : hd.after = false)
    (hready : Req.Ready { r with handler := hd } hd) (hwork : r.base + hd.work r < k) : Out b t k (r.pushCb hd) :=
  Open.goto (r := { r with handler := hd }) (h.congr rfl) hafter hready (by cases hd <;> exact hwork)

theorem Closed.pushCb (h : Closed b t 1 r) (hafter : hd.after = true)
    (hwork : r.base + 5 ≤ k) : Out b t k (r.pushCb hd) :=
  Closed.goto (r := { r with handler := hd }) (h.congr rfl) nofun hafter
    (by cases hd <;> trivial)
    (by
      have hlt := work_of_after { r with handler := hd } hafter
      change r.base + hd.work { r with handler := hd } < k
      omega)

theorem Open.completePush (h : Open b t r) (error : Int) (hafter : hd.after = true)
    (hwork : r.base + 5 ≤ k) : Out b t k ((ocfReqComplete r error).pushCb hd) :=
  (h.complete error).pushCb hafter ((complete_base r error).symm ▸ hwork)

theorem Open.withLock (h : Open b t r) (l : Lock) (hhandler : r.handler = hd)
    (hr : hd.refreshed = true) (hwork : r.base + 102 < k) : Out b t k (r.withLock l true hd) := by
  have hcheap := work_of_locked r (.inl hr)
  cases l with
  | acquired =>
    refine h.goto ?_ ?_ ?_
    · cases hd <;> first | rfl | cases hr
    · exact ready_of_refreshed r hr hhandler
    · change r.base + hd.work r < k
      omega
  | notAcquired =>
    refine h.goto rfl ?_ hwork
    change r.handler.refreshed = true
    rw [hhandler]
    exact hr
  | error e => exact h.finish e (by omega)

theorem Open.withLockResumed (h : Open b t r) (l : Lock) (hhandler : r.handler = hd)
    (hr : hd.resumed = true) (hready : r.Ready hd) (hwork : r.base + 102 < k) :
    Out b t k (r.withLock l false hd) := by
  have hcheap := work_of_locked r (.inr hr)
  cases l with
  | acquired =>
    refine h.goto ?_ hready ?_
    · cases hd <;> first | rfl | cases hr
    · change r.base + hd.work r < k
      omega
  | notAcquired =>
    refine h.goto rfl ?_ hwork
    change r.handler.resumed = true ∧ r.Ready r.handler
    rw [hhandler]
    exact ⟨hr, hready⟩
  | error e => exact h.finish e (by omega)

theorem Open.flushMetadata (h : Open b t r) {f : Flush} (hf : f ≠ .lost) {cb : Callback}
    {complete : Req → Int → Req} (hafter : cb.after = false) (hcb : cb ≠ .discardCoreComplete)
    (hcomplete : Out b t k (complete r errNoMem)) (hwork : r.base + cb.work r < k) :
    Out b t k (r.flushMetadata f cb complete) := by
  cases f with
  | submitted => exact h.goto hafter (fun heq => absurd heq hcb) hwork
  | noMem => exact hcomplete
  | lost => exact absurd rfl hf

theorem work_lt {base m n : Nat} (h : base + n ≤ k) (hmn : m < n) : base + m < k := by
  omega

end Account

section Engines

variable {b : Books} {t k : Nat} {r : Req} {c : Cache} {o : Outcome}

theorem readGeneric_out (h : Open b t r) (hk : r.base + 106 ≤ k) : Out b (t + 1) k (ocfReadGeneric r o) := by
  unfold ocfReadGeneric
  by_cases hblocked : o.readMissesBlocked = true
  · rw [if_pos hblocked]
    refine Out.weaken (Open.goto ?_ rfl trivial ?_)
    · exact h.congr rfl
    · exact work_lt hk (by decide : 104 < 106)
  · rw [if_neg hblocked]
    cases o.prepared with
    | lock l =>
      refine Out.later (Open.withLock ?_ l rfl rfl ?_)
      · exact h.get.congr rfl
      · exact work_lt hk (by decide : 102 < 106)
    | mappingError =>
      refine Out.later (Open.goto ?_ rfl trivial ?_)
      · exact h.get.congr rfl
      · exact work_lt hk (by decide : 104 < 106)

theorem readPtDo_out (h : Open b t r) (hk : r.base + (10 + r.unclean) ≤ k) (hcleans : r.handler.cleans = true) :
    Out b (t + 1) k (ocfReadPtDo r) := by
  unfold ocfReadPtDo
  by_cases hdirty : r.get.dirtyAny = true
  · rw [if_pos hdirty]
    have hunclean : r.unclean = 40 := if_neg (of_decide_eq_true hdirty)
    refine Out.later (h.get.goto rfl hcleans ?_)
    exact work_lt hk (show 35 < 10 + r.unclean by omega)
  · rw [if_neg hdirty]
    refine Out.later (h.get.goto rfl nofun ?_)
    exact work_lt hk (show 5 < 10 + r.unclean by omega)

theorem readPt_out (h : Open b t r) (hk : r.base + Handler.readPt.work r ≤ k) : Out b (t + 1) k (ocfReadPt r o) := by
  have hcost : 104 ≤ Handler.readPt.work r := by
    change 104 ≤ if r.forcePt then 104 else 108
    split <;> omega
  unfold ocfReadPt
  simp only
  split
  · rename_i hcut
    have hforce : Handler.readPt.work r = 108 := by
      refine if_neg ?_
      intro htrue
      rw [Bool.and_eq_true, Bool.not_eq_true'] at hcut
      exact absurd (hcut.2.symm.trans htrue) nofun
    refine Out.later (Open.goto ?_ rfl trivial ?_)
    · exact h.get.congr rfl
    · exact work_lt hk (hforce ▸ (by decide : 106 < 108))
  · split
    · refine Out.later (Open.withLock ?_ o.lock rfl rfl ?_)
      · exact h.get.congr rfl
      · exact work_lt hk (Nat.lt_of_lt_of_le (by decide) hcost)
    · refine Out.later (Open.withLock ?_ .acquired rfl rfl ?_)
      · exact h.get.congr rfl
      · exact work_lt hk (Nat.lt_of_lt_of_le (by decide) hcost)

theorem readGenericDo_out (h : Open b t r) (hk : r.base + (14 + r.unclean) ≤ k) (hcleans : r.handler.cleans = true) :
    Out b (t + 1) k (ocfReadGenericDo r o) := by
  unfold ocfReadGenericDo
  simp only
  split
  · refine Out.weaken (h.goto rfl hcleans ?_)
    exact work_lt hk (show 10 + r.unclean < 14 + r.unclean by omega)
  · split
    · rename_i hdirty
      have hunclean : r.unclean = 40 := if_neg (of_decide_eq_true (Bool.and_eq_true _ _ ▸ hdirty).2)
      refine Out.later (h.get.goto rfl hcleans ?_)
      exact work_lt hk (show 35 < 14 + r.unclean by omega)
    · split
      · refine Out.later (h.get.goto rfl nofun ?_)
        exact work_lt hk (show 12 + r.unclean < 14 + r.unclean by omega)
      · refine Out.later (Open.goto ?_ rfl nofun ?_)
        · exact h.get.congr rfl
        · exact work_lt hk (show 8 < 14 + r.unclean by omega)

theorem readWoDo_out (h : Open b t r) (hk : r.base + (14 + r.unclean) ≤ k) : Out b (t + 1) k (ocfReadWoDo r) := by
  unfold ocfReadWoDo
  simp only
  split
  · refine Out.later (h.get.goto rfl nofun ?_)
    exact work_lt hk (show 12 + r.unclean < 14 + r.unclean by omega)
  · refine Out.later (h.get.goto rfl nofun ?_)
    exact work_lt hk (show 9 < 14 + r.unclean by omega)

theorem readWo_out (h : Open b t r) (hk : r.base + 106 ≤ k) : Out b (t + 1) k (ocfReadWo r o) := by
  unfold ocfReadWo
  simp only
  split
  · refine Out.later (Open.withLock ?_ o.lock rfl rfl ?_)
    · exact h.get.congr rfl
    · exact work_lt hk (by decide : 102 < 106)
  · refine Out.later (Open.withLock ?_ .acquired rfl rfl ?_)
    · exact h.get.congr rfl
    · exact work_lt hk (by decide : 102 < 106)

theorem readFastDo_out (h : Open b t r) (hk : r.base + (14 + r.unclean) ≤ k) (hcleans : r.handler.cleans = true) :
    Out b (t + 1) k (ocfReadFastDo r) := by
  unfold ocfReadFastDo
  split
  · refine Out.weaken (h.goto rfl hcleans ?_)
    exact work_lt hk (show 10 + r.unclean < 14 + r.unclean by omega)
  · refine Out.later (h.get.goto rfl nofun ?_)
    exact work_lt hk (show 12 + r.unclean < 14 + r.unclean by omega)

/-- `ocf_write_wt` and `ocf_write_wb` prepare the lines, or write around the cache. -/
theorem prepared_out (h : Open b t r) (hk : r.base + 106 ≤ k) (p : Prepared)
    (hr : hd.refreshed = true) :
    Out b (t + 1) k (match p with
      | .lock l => (Req.withLock { r.get with handler := hd, info := o.info, alockRead := false } l true hd).later
      | .mappingError =>
        ((Req.clear { r.get with handler := hd, info := o.info }).goto (.call .writeWi)).later) := by
  cases p with
  | lock l =>
    refine Out.later (Open.withLock ?_ l rfl hr ?_)
    · exact h.get.congr rfl
    · exact work_lt hk (by decide : 102 < 106)
  | mappingError =>
    refine Out.later (Open.goto ?_ rfl trivial ?_)
    · exact h.get.congr rfl
    · exact work_lt hk (by decide : 104 < 106)

theorem writeWt_out (h : Open b t r) (hk : r.base + 106 ≤ k) : Out b (t + 1) k (ocfWriteWt r o) :=
  prepared_out h hk o.prepared rfl

theorem writeWb_out (h : Open b t r) (hk : r.base + 106 ≤ k) : Out b (t + 1) k (ocfWriteWb r o) :=
  prepared_out h hk o.prepared rfl

theorem writeWa_out (h : Open b t r) (hk : r.base + 108 ≤ k) : Out b (t + 1) k (ocfWriteWa r o) := by
  unfold ocfWriteWa
  simp only
  split
  · refine Out.later (Open.goto ?_ rfl trivial ?_)
    · exact h.get.congr rfl
    · exact work_lt hk (by decide : 106 < 108)
  · refine Out.later (Open.goto ?_ rfl trivial ?_)
    · exact h.get.congr rfl
    · exact work_lt hk (by decide : 104 < 108)

/-- `ocf_write_wi` takes its lock for one of its two passes. -/
theorem writeWi_locked (h : Open b t r) (hk : r.base + 104 ≤ k)
    (hpass : hd = .writeWiUpdateAndFlushMetadata ∨ hd = .writeWiCoreWrite) : Out b (t + 1) k (
      let r := { r.get with handler := hd, info := o.info }
      if r.mappedAny then ({ r with alockRead := false }.withLock o.lock false hd).later
      else (r.withLock .acquired false hd).later) := by
  have hresumed : hd.resumed = true := by
    obtain rfl | rfl := hpass <;> rfl
  have hready : ∀ r', r'.handler = hd → Req.Ready r' hd := by
    intro r' hr'
    obtain rfl | rfl := hpass
    · trivial
    · change r'.handler.cleans = true
      rw [hr']
      rfl
  simp only
  split
  · refine Out.later (Open.withLockResumed ?_ o.lock rfl hresumed (hready _ rfl) ?_)
    · exact h.get.congr rfl
    · exact work_lt hk (by decide : 102 < 104)
  · refine Out.later (Open.withLockResumed ?_ .acquired rfl hresumed (hready _ rfl) ?_)
    · exact h.get.congr rfl
    · exact work_lt hk (by decide : 102 < 104)

theorem writeWi_out (h : Open b t r) (hk : r.base + 104 ≤ k) : Out b (t + 1) k (ocfWriteWi r o) := by
  refine writeWi_locked h hk ?_
  by_cases hsecond : r.wiSecondPass = true
  · exact .inl (if_pos hsecond)
  · exact .inr (if_neg hsecond)

theorem writeWiCoreWrite_out (h : Open b t r) (hk : r.base + (14 + r.unclean) ≤ k)
    (hcleans : r.handler.cleans = true) : Out b (t + 1) k (ocfWriteWiCoreWrite r) := by
  unfold ocfWriteWiCoreWrite
  simp only
  split
  · rename_i hdirty
    have hunclean : r.unclean = 40 := if_neg (of_decide_eq_true hdirty)
    refine Out.later (h.get.goto rfl hcleans ?_)
    exact work_lt hk (show 35 < 14 + r.unclean by omega)
  · refine Out.later (h.get.goto rfl nofun ?_)
    exact work_lt hk (show 11 < 14 + r.unclean by omega)

theorem writeWiNextPass_out (h : Open b t r) (hk : r.base + 8 ≤ k) : Out b t k (ocfWriteWiNextPass r) := by
  unfold ocfWriteWiNextPass
  split
  · exact h.finish 0 (by omega)
  · rename_i hsecond
    refine Open.goto ?_ rfl trivial ?_
    · exact h.congr rfl
    · have hbase : r.base = 400 * (r.discardBytes - r.discardHandled) + 300 := by
        unfold Req.base
        rw [if_neg hsecond]
      change 400 * (r.discardBytes - r.discardHandled) + 0 + 104 < k
      omega

theorem writeWiIoFlushMetadata_out (h : Open b t r) (error : Int) (hk : r.base + 9 ≤ k) :
    Out b t k (ocfWriteWiIoFlushMetadata r error) := by
  unfold ocfWriteWiIoFlushMetadata
  split
  · exact h.pushCb rfl trivial (work_lt hk (by decide : 8 < 9))
  · exact h.finish error (by omega)

theorem writeWiUpdateAndFlushMetadata_out (h : Open b t r) (hf : o.flush ≠ .lost) (hk : r.base + 10 ≤ k) :
    Out b t k (ocfWriteWiUpdateAndFlushMetadata r o) := by
  unfold ocfWriteWiUpdateAndFlushMetadata
  split
  · exact writeWiNextPass_out h (by omega)
  · split
    · refine h.flushMetadata hf rfl nofun ?_ (work_lt hk (by decide : 9 < 10))
      exact writeWiIoFlushMetadata_out h errNoMem (by omega)
    · exact writeWiIoFlushMetadata_out h 0 (by omega)

theorem writeWtDoFlushMetadata_out (h : Open b t r) (hf : o.flush ≠ .lost) (hk : r.base + 7 ≤ k) :
    Out b t k (ocfWriteWtDoFlushMetadata r o) := by
  have hfinish : ∀ e, Out b t k (ocfWriteWtDoFlushMetadataCompl r e) := fun e =>
    h.finish e (by omega)
  unfold ocfWriteWtDoFlushMetadata
  split
  · exact h.flushMetadata hf rfl nofun (hfinish _) (work_lt hk (by decide : 5 < 7))
  · exact hfinish 0

theorem writeWbDoFlushMetadata_out (h : Open b t r) (hf : o.flush ≠ .lost) (hk : r.base + 7 ≤ k) :
    Out b t k (ocfWriteWbDoFlushMetadata r o) := by
  have hfinish : ∀ e, Out b t k (ocfWriteWbIoFlushMetadata r e) := fun e =>
    h.finish e (by omega)
  unfold ocfWriteWbDoFlushMetadata
  split
  · exact h.flushMetadata hf rfl nofun (hfinish _) (work_lt hk (by decide : 5 < 7))
  · exact hfinish 0

theorem Open.submitPair (h : Open b t r) {p : Pair} (hp : p ≠ .discardStep) (hk : r.base + 14 ≤ k) :
    Out b (t + 1) k (({ r.get with reqRemaining := 2 }.goto (.pair p true true)).later) := by
  refine Out.later (Open.goto ?_ rfl ⟨rfl, show (0 : Int) < 2 by decide, fun heq => absurd heq hp⟩ ?_)
  · exact h.get.congr rfl
  · exact work_lt hk (by decide : 12 < 14)

theorem discardFinishStep_out (h : Open b t r) (hleft : r.Discarding) (hbytes : 0 < r.bytes)
    (hk : r.base + 10 ≤ k) : Out b t k (ocfDiscardFinishStep c r) := by
  have hopen : Open b t { r with discardHandled := r.discardHandled + r.bytes } := h.congr rfl
  have hbase : Req.base { r with discardHandled := r.discardHandled + r.bytes } + 400 ≤ r.base := by
    change 400 * (r.discardBytes - (r.discardHandled + r.bytes)) + (if r.wiSecondPass then 0 else 300) + 400 ≤
      400 * (r.discardBytes - r.discardHandled) + if r.wiSecondPass then 0 else 300
    unfold Req.Discarding at hleft
    omega
  have hlt : ∀ n, n ≤ 110 → Req.base { r with discardHandled := r.discardHandled + r.bytes } + n < k := fun n hn => by
    omega
  unfold ocfDiscardFinishStep
  simp only
  split
  · rename_i hmore
    exact hopen.pushCb rfl hmore (hlt 110 (by decide))
  · split
    · exact hopen.pushCb rfl trivial (hlt 8 (by decide))
    · exact hopen.finish 0 (hlt 0 (by decide))

theorem discardStepComplete_out (h : Open b t r) (hleft : r.Discarding) (hbytes : 0 < r.bytes)
    (hk : r.base + 10 ≤ k) (error : Int) : Out b t k (ocfDiscardStepComplete c r error) := by
  unfold ocfDiscardStepComplete
  split
  · exact h.finish error (by omega)
  · exact discardFinishStep_out h hleft hbytes hk

theorem discardStepDo_out (h : Open b t r) (hf : o.flush ≠ .lost) (hleft : r.Discarding) (hbytes : 0 < r.bytes)
    (hk : r.base + 14 ≤ k) : Out b (t + 1) k (ocfDiscardStepDo r o) := by
  have hone : ∀ n, 1 = n → Out b (t + 1) k
      (({ r.get with reqRemaining := n }.goto (.pair .discardStep false true)).later) := by
    intro n hn
    refine Out.later (Open.goto ?_ rfl ⟨?_, ?_, fun _ => ⟨hleft, hbytes⟩⟩ ?_)
    · exact h.get.congr rfl
    · exact hn.symm
    · change 0 < n
      omega
    · exact work_lt hk (by decide : 11 < 14)
  unfold ocfDiscardStepDo
  simp only
  split
  · cases hflush : o.flush with
    | submitted =>
      refine Out.later (Open.goto ?_ rfl ⟨rfl, show (0 : Int) < 2 by decide, fun _ => ⟨hleft, hbytes⟩⟩ ?_)
      · exact h.get.congr rfl
      · exact work_lt hk (by decide : 12 < 14)
    | noMem => exact hone 1 rfl
    | lost => exact absurd hflush hf
  · exact hone 1 rfl

theorem discardStep_out (h : Open b t r) (hleft : r.Discarding) (hk : r.base + 110 ≤ k) :
    Out b t k (ocfDiscardStep c r o) := by
  have hbytes : 0 < min (r.discardBytes - r.discardHandled) maxTrimRqSize := by
    unfold Req.Discarding at hleft
    unfold maxTrimRqSize
    omega
  unfold ocfDiscardStep
  simp only
  split
  · refine Open.finish ?_ _ ?_
    · exact h.congr rfl
    · change r.base < k
      omega
  · split
    · cases o.lock with
      | acquired =>
        refine Open.goto ?_ rfl ⟨hleft, hbytes⟩ ?_
        · exact h.congr rfl
        · exact work_lt hk (by decide : 14 < 110)
      | notAcquired =>
        refine Open.goto ?_ rfl ⟨rfl, hleft, hbytes⟩ ?_
        · exact h.congr rfl
        · exact work_lt hk (by decide : 102 < 110)
      | error e =>
        refine discardFinishStep_out ?_ hleft hbytes ?_
        · exact h.congr rfl
        · exact Nat.le_of_lt (work_lt hk (by decide : 10 < 110))
    · refine Open.goto ?_ rfl ⟨hleft, hbytes⟩ ?_
      · exact h.congr rfl
      · exact work_lt hk (by decide : 14 < 110)

theorem discardCoreComplete_out (h : Open b t r) (hzero : r.discardHandled = 0) (hk : r.base + 112 ≤ k)
    (error : Int) : Out b t k (ocfDiscardCoreComplete c r error) := by
  unfold ocfDiscardCoreComplete
  split
  · exact h.finish error (by omega)
  · split
    · exact h.finish 0 (by omega)
    · simp only
      generalize (c.lineSize - r.discardAddr % c.lineSize) % c.lineSize = skip
      have hle : r.discardBytes - skip - (r.discardBytes - skip) % c.lineSize ≤ r.discardBytes := by omega
      generalize r.discardBytes - skip - (r.discardBytes - skip) % c.lineSize = bytes at hle
      have hbase : Req.base { r with discardAddr := r.discardAddr + skip, discardBytes := bytes } ≤ r.base := by
        change 400 * (bytes - r.discardHandled) + (if r.wiSecondPass then 0 else 300) ≤
          400 * (r.discardBytes - r.discardHandled) + if r.wiSecondPass then 0 else 300
        omega
      have hopen : Open b t { r with discardAddr := r.discardAddr + skip, discardBytes := bytes } := h.congr rfl
      split
      · exact hopen.finish 0 (by omega)
      · rename_i hpos
        refine hopen.pushCb rfl ?_ ?_
        · change r.discardHandled < bytes
          omega
        · change Req.base { r with discardAddr := r.discardAddr + skip, discardBytes := bytes } + 110 < k
          omega

theorem engineDiscard_out (h : Open b t r) (hzero : r.discardHandled = 0) (hk : r.base + 114 ≤ k) :
    Out b (t + 1) k (ocfEngineDiscard r) := by
  unfold ocfEngineDiscard
  split
  · exact (h.finish errInval (by omega)).weaken
  · refine Out.later (Open.goto ?_ rfl (fun _ => hzero) ?_)
    · exact h.get.congr rfl
    · exact work_lt hk (by decide : 112 < 114)

theorem engineRefresh_out (h : Open b t r) (hpriv : ∃ hd, r.priv = some hd ∧ hd.refreshed = true)
    (hk : r.base + 101 ≤ k) : Out b t k (ocfEngineRefresh r o) := by
  obtain ⟨hd, hpriv, hr⟩ := hpriv
  unfold ocfEngineRefresh
  simp only [hpriv]
  split
  · refine Open.goto ?_ ?_ ?_ ?_
    · exact h.congr rfl
    · cases hd <;> first | rfl | cases hr
    · exact ready_of_refreshed _ hr rfl
    · have hcheap := work_of_locked { r with info := o.info, handler := hd, priv := none } (.inl hr)
      exact work_lt hk (Nat.lt_of_le_of_lt hcheap (by decide))
  · refine Open.finish ?_ _ ?_
    · exact h.congr rfl
    · change r.base < k
      omega

theorem invalidateDo_out (h : Closed b t 1 r) (hf : o.flush ≠ .lost) (hk : r.base + 2 ≤ k) :
    Out b t k (ocfInvalidateDo c r o) := by
  have hdone : ∀ e, Out b t k (ocfInvalidateReq r e) := fun _ => h.done (by omega)
  unfold ocfInvalidateDo
  split
  · cases hflush : o.flush with
    | submitted => exact h.goto nofun rfl nofun (work_lt hk (by decide : 1 < 2))
    | noMem => exact hdone errNoMem
    | lost => exact absurd hflush hf
  · exact hdone 0

theorem backfillComplete_out (h : Closed b t 1 r) (hk : r.base + 3 ≤ k) (error : Int) :
    Out b t k (ocfBackfillComplete r error) := by
  unfold ocfBackfillComplete
  split
  · exact Closed.goto (r := { r with handler := .invalidateDo }) (h.congr rfl) nofun rfl trivial
      (work_lt hk (by decide : 2 < 3))
  · exact Closed.goto (r := { r with handler := .backfillUpdateMetadata }) (h.congr rfl) nofun rfl trivial
      (work_lt hk (by decide : 2 < 3))

theorem backfillDo_out (h : Closed b t 1 r) (hk : r.base + 4 ≤ k) : Out b t k (ocfBackfillDo r) := by
  unfold ocfBackfillDo
  split
  · exact h.goto nofun rfl nofun (work_lt hk (by decide : 3 < 4))
  · exact backfillComplete_out h (by omega) errNoMem

end Engines

section Dispatch

variable {b : Books} {t : Nat} {r : Req} {c : Cache} {o : Outcome}

/-- A handler ends what it is called for. -/
theorem handlerRun_out (h : Handler) (hf : o.flush ≠ .lost) (hready : r.Ready h)
    (hopen : h.after = false → Open b t r) (hclosed : h.after = true → Closed b t 1 r) :
    Out b (t + 1) (r.base + h.work r) (h.run c r o) := by
  cases h with
  | readGeneric => exact readGeneric_out (hopen rfl) le_rfl
  | readGenericDo => exact readGenericDo_out (hopen rfl) le_rfl hready
  | readPt => exact readPt_out (hopen rfl) le_rfl
  | readPtDo => exact readPtDo_out (hopen rfl) le_rfl hready
  | readWo => exact readWo_out (hopen rfl) le_rfl
  | readWoDo => exact readWoDo_out (hopen rfl) le_rfl
  | readWoCacheDo => exact Out.weaken ((hopen rfl).goto rfl nofun (work_lt le_rfl (by decide : 7 < 8)))
  | readFastDo => exact readFastDo_out (hopen rfl) le_rfl hready
  | writeWt => exact writeWt_out (hopen rfl) le_rfl
  | writeWtDo => exact (hopen rfl).submitPair nofun le_rfl
  | writeWtDoFlushMetadata => exact (writeWtDoFlushMetadata_out (hopen rfl) hf le_rfl).weaken
  | writeWb => exact writeWb_out (hopen rfl) le_rfl
  | writeWbDo => exact Out.later ((hopen rfl).get.goto rfl nofun (work_lt le_rfl (by decide : 8 < 14)))
  | writeWbDoFlushMetadata => exact (writeWbDoFlushMetadata_out (hopen rfl) hf le_rfl).weaken
  | writeWa => exact writeWa_out (hopen rfl) le_rfl
  | writeWi => exact writeWi_out (hopen rfl) le_rfl
  | writeWiCoreWrite => exact writeWiCoreWrite_out (hopen rfl) le_rfl hready
  | writeWiUpdateAndFlushMetadata => exact (writeWiUpdateAndFlushMetadata_out (hopen rfl) hf le_rfl).weaken
  | writeWiNextPass => exact (writeWiNextPass_out (hopen rfl) le_rfl).weaken
  | engineFlush => exact (hopen rfl).submitPair nofun le_rfl
  | engineDiscard => exact engineDiscard_out (hopen rfl) hready le_rfl
  | discardStep => exact (discardStep_out (hopen rfl) hready le_rfl).weaken
  | discardStepDo => exact discardStepDo_out (hopen rfl) hf hready.1 hready.2 le_rfl
  | discardFlushCache => exact Out.weaken ((hopen rfl).goto rfl nofun (work_lt le_rfl (by decide : 7 < 8)))
  | backfillDo => exact (backfillDo_out (hclosed rfl) le_rfl).weaken
  | backfillUpdateMetadata => exact ((hclosed rfl).done (Nat.lt_add_of_pos_right (by decide : 0 < 2))).weaken
  | invalidateDo => exact (invalidateDo_out (hclosed rfl) hf le_rfl).weaken
  | engineRefresh => exact (engineRefresh_out (hopen rfl) hready le_rfl).weaken

/-- A callback ends what it was called for. -/
theorem callbackRun_out (cb : Callback) (error : Int) (hready : cb = .discardCoreComplete → r.discardHandled = 0)
    (hopen : cb.after = false → Open b t r) (hclosed : cb.after = true → Closed b t 1 r) :
    Out b t (r.base + cb.work r) (cb.run c r error) := by
  have hpt : ∀ k, 12 + r.unclean ≤ k → (cb.after = false → Out b t (r.base + k) (r.pushCb .readPtDo)) := by
    intro k hk hafter
    refine (hopen hafter).pushCb rfl rfl ?_
    change r.base + (10 + r.unclean) < r.base + k
    omega
  have hfinish : ∀ e, cb.after = false → Out b t (r.base + cb.work r) (r.finish e) := fun e hafter => by
    refine (hopen hafter).finish e (Nat.lt_add_of_pos_right ?_)
    cases cb <;> simp only [Callback.work] <;> omega
  cases cb with
  | readGenericHitComplete =>
    change Out b t _ (ocfReadGenericHitComplete r error)
    unfold ocfReadGenericHitComplete
    split
    · exact hpt _ le_rfl rfl
    · exact hfinish error rfl
  | readGenericMissComplete =>
    change Out b t _ (ocfReadGenericMissComplete r error)
    unfold ocfReadGenericMissComplete
    split
    · refine Closed.pushCb ?_ rfl ?_
      · exact ((hopen rfl).complete error).congr rfl
      · exact le_of_eq_of_le (congrArg (· + 5) (complete_base r error)) (Nat.add_le_add_left (show 5 ≤ 8 by decide) _)
    · exact (hopen rfl).completePush error rfl (Nat.add_le_add_left (by decide : 5 ≤ 8) _)
  | readPtComplete => exact hfinish error rfl
  | readWoCoreComplete =>
    change Out b t _ (ocfReadWoCoreComplete r error)
    unfold ocfReadWoCoreComplete
    split
    · exact hfinish error rfl
    · exact (hopen rfl).pushCb rfl trivial (Nat.add_lt_add_left (by decide : 8 < 9) _)
  | readWoCacheComplete =>
    change Out b t _ (ocfReadWoCacheComplete r error)
    unfold ocfReadWoCacheComplete
    split
    · refine Open.finish ?_ _ ?_
      · exact (hopen rfl).congr rfl
      · exact Nat.lt_add_of_pos_right (by decide : 0 < 7)
    · exact hfinish r.error rfl
  | readFastComplete =>
    change Out b t _ (ocfReadFastComplete r error)
    unfold ocfReadFastComplete
    split
    · exact hpt _ le_rfl rfl
    · exact hfinish error rfl
  | writeWbComplete =>
    change Out b t _ (ocfWriteWbComplete r error)
    unfold ocfWriteWbComplete
    split
    · exact (hopen rfl).completePush error rfl (Nat.add_le_add_left (by decide : 5 ≤ 8) _)
    · exact (hopen rfl).pushCb rfl trivial (Nat.add_lt_add_left (by decide : 7 < 8) _)
  | writeWbIoFlushMetadata => exact hfinish error rfl
  | writeWtDoFlushMetadataCompl => exact hfinish error rfl
  | writeWiCoreComplete =>
    change Out b t _ (ocfWriteWiCoreComplete r error)
    unfold ocfWriteWiCoreComplete
    split
    · exact hfinish error rfl
    · exact (hopen rfl).pushCb rfl trivial (Nat.add_lt_add_left (by decide : 10 < 11) _)
  | writeWiIoFlushMetadata => exact writeWiIoFlushMetadata_out (hopen rfl) error le_rfl
  | backfillComplete => exact backfillComplete_out (hclosed rfl) le_rfl error
  | invalidateReq => exact (hclosed rfl).done (Nat.lt_add_of_pos_right (by decide : 0 < 1))
  | discardCoreComplete => exact discardCoreComplete_out (hopen rfl) (hready rfl) le_rfl error
  | discardCacheFlushComplete => exact hfinish error rfl
  | d2cCompletion => exact hfinish error rfl

theorem note_kept (p : Pair) (r : Req) (which : Bool) (error : Int) :
    (p.note r which error).kept = r.kept ∧ (p.note r which error).base = r.base ∧
      (p.note r which error).reqRemaining = r.reqRemaining ∧
      ((p.note r which error).Discarding ↔ r.Discarding) ∧ (p.note r which error).bytes = r.bytes := by
  cases p with
  | writeWt =>
    change Req.kept (if which then _ else _) = _ ∧ _
    unfold Pair.note ocfWriteWtCoreComplete ocfWriteWtCacheComplete
    split <;> split <;> exact ⟨rfl, rfl, rfl, Iff.rfl, rfl⟩
  | engineFlush =>
    unfold Pair.note
    simp only
    split <;> exact ⟨rfl, rfl, rfl, Iff.rfl, rfl⟩
  | discardStep => exact ⟨rfl, rfl, rfl, Iff.rfl, rfl⟩

theorem writeWtReqComplete_out {k : Nat} (h : Open b t r) (hk : r.base + 10 ≤ k) :
    Out b t k (ocfWriteWtReqComplete r) := by
  unfold ocfWriteWtReqComplete
  split
  · exact h.completePush r.error rfl (by omega)
  · split
    · exact h.pushCb rfl trivial (work_lt hk (by decide : 7 < 10))
    · exact h.finish 0 (by omega)

theorem pairLast_out {k : Nat} (p : Pair) (h : Open b t r) (which : Bool) (error : Int)
    (hdiscard : p = .discardStep → r.Discarding ∧ 0 < r.bytes) (hk : r.base + 10 ≤ k) :
    Out b t k (p.last c r which error) := by
  cases p with
  | writeWt => exact writeWtReqComplete_out h hk
  | engineFlush => exact h.finish r.error (by omega)
  | discardStep =>
    obtain ⟨hleft, hbytes⟩ := hdiscard rfl
    exact discardStepComplete_out h hleft hbytes hk _

/-- The completion of a part; `req_remaining` counts the parts that are still to come. -/
theorem pairRun_out (p : Pair) (x y which : Bool) (error : Int) (h : Open b t r)
    (hcount : r.reqRemaining = x.toInt + y.toInt) (hflag : (if which then y else x) = true)
    (hdiscard : p = .discardStep → r.Discarding ∧ 0 < r.bytes) :
    Out b t (r.base + (10 + x.toNat + y.toNat)) (p.run c r x y which error) := by
  obtain ⟨hkept, hbase, hrem, hleft, hbytes⟩ := note_kept p r which error
  unfold Pair.run
  simp only
  generalize p.note r which error = r' at *
  have hopen : Open b t { r' with reqRemaining := r'.reqRemaining - 1 } :=
    (h.congr hkept).congr rfl
  have hdiscard' : p = .discardStep → r'.Discarding ∧ 0 < r'.bytes := fun hp => by
    rw [hleft, hbytes]
    exact hdiscard hp
  have hbase' : Req.base { r' with reqRemaining := r'.reqRemaining - 1 } = r.base := hbase
  split
  · exact pairLast_out p hopen which error hdiscard' (by omega)
  · rename_i hmore
    refine hopen.goto rfl ⟨?_, ?_, hdiscard'⟩ ?_
    · change r'.reqRemaining - 1 = _
      cases which <;> cases x <;> cases y <;> simp_all
    · change 0 < r'.reqRemaining - 1
      rw [hrem, hcount]
      cases x <;> cases y <;> simp_all
    · rw [hbase']
      cases which <;> cases x <;> cases y <;> simp_all [Stage.work]

theorem granted_out (refresh : Bool) (h : Open b t r) (hplace : r.PlacedAt (.locking refresh)) :
    Out b t (r.base + 102) (if refresh then ocfEngineOnResume r else r.goto .queued) := by
  cases refresh with
  | true =>
    have hopen : Open b t { r with priv := some r.handler } := h.congr rfl
    exact hopen.pushCb rfl ⟨r.handler, rfl, hplace⟩ (Nat.add_lt_add_left (show 101 < 102 by decide) _)
  | false =>
    obtain ⟨hresumed, hready⟩ := hplace
    have hcheap := work_of_locked r (.inr hresumed)
    refine h.goto ?_ hready ?_
    · change r.handler.after = false
      cases hh : r.handler <;> first | rfl | (rw [hh] at hresumed; cases hresumed)
    · change r.base + r.handler.work r < r.base + 102
      omega

theorem cleanEnd_out (error : Int) (h : Open b t r) (hcleans : r.handler.cleans = true) :
    Out b t (r.base + 35) (ocfEngineCleanEnd r error) := by
  unfold ocfEngineCleanEnd
  split
  · exact h.finish error (by omega)
  · refine Open.goto ?_ ?_ ?_ ?_
    · exact h.congr rfl
    · change r.handler.after = false
      cases hh : r.handler <;> first | rfl | (rw [hh] at hcleans; cases hcleans)
    · change Req.Ready _ r.handler
      cases hh : r.handler <;> rw [hh] at hcleans <;> first | exact hcleans | cases hcleans
    · have hcost := work_of_cleans { r with info := { r.info with dirtyAny := 0, dirtyAll := 0 } } hcleans
      exact Nat.add_lt_add_left (Nat.lt_of_le_of_lt hcost (show 14 < 35 by decide)) _

end Dispatch

section Submit

variable {r0 r : Req} {c : Cache} {o : Outcome} {n : Int}

/-- References that the submit function holds for the prefetch. -/
def Sub.refs : Sub → Int
  | .fast _ => 1
  | .slow _ => 1
  | .prefetch => 1
  | _ => 0

/-- The books of a request with the submit function at a place. -/
def books (r0 : Req) (sub : Sub) : Books := ⟨r0.refCount + sub.refs, r0.dirtyRefs, sub, 0⟩

/-- No engine has the request yet, and the submit function holds `n` references. -/
structure Early (r0 r : Req) (n : Int) : Prop where
  refs : r.refCount = r0.refCount + n
  dirty : r.dirtyRefs = r0.dirtyRefs + r.dirty.toInt
  ends : r.ends = []
  stage : r.stage = .idle
  tails : r.tails = 0
  leaked : r.leaked = 0
  handled : r.discardHandled = 0

/-- What holds of the request in every state. -/
def Inv (r0 r : Req) : Prop :=
  match r.sub with
  | .start => Early r0 r 0 ∧ r.dirty = false
  | .alloc => Early r0 r 1 ∧ r.dirty = false
  | .resolve => Early r0 r 1 ∧ r.dirty = false
  | .fast _ => Early r0 r 2
  | .slow _ => Early r0 r 2
  | .prefetch => Placed (books r0 .prefetch) r.tails r
  | .returned => Placed (books r0 .returned) r.tails r

variable {b : Books} {t : Nat}

theorem Placed.goOn (h : Placed b t r) (sub : Sub) : Placed { b with sub } t (r.goOn sub) where
  here := h.here
  finished := fun hs => { h.finished hs with sub := rfl }
  closed := fun hs ha => { h.closed hs ha with sub := rfl }
  opened := fun ha => { h.opened ha with sub := rfl }

theorem Placed.kept_eq (h : Placed b t r) : r.sub = b.sub ∧ r.leaked = b.leaked ∧ r.tails ≤ t := by
  cases ha : r.afterAt r.stage with
  | false =>
    have hopen := h.opened ha
    exact ⟨hopen.sub, hopen.leaked, hopen.tails⟩
  | true =>
    by_cases hs : r.stage = .idle
    · have hclosed := h.finished hs
      exact ⟨hclosed.sub, hclosed.leaked, hclosed.tails⟩
    · have hclosed := h.closed hs ha
      exact ⟨hclosed.sub, hclosed.leaked, hclosed.tails⟩

theorem Placed.exact (h : Placed b t r) : Placed b r.tails r where
  here := h.here
  finished := fun hs => { h.finished hs with tails := le_rfl }
  closed := fun hs ha => { h.closed hs ha with tails := le_rfl }
  opened := fun ha => { h.opened ha with tails := le_rfl }

theorem Early.refuse (h : Early r0 r n) (hdirty : r.dirty = false) (error : Int) (hn : n = 0) :
    Placed (books r0 .returned) 0 (r.refuse error) where
  here := by
    change r.PlacedAt r.stage
    rw [h.stage]
    trivial
  finished := fun _ => by
    have hrefs := h.refs
    have htails := h.tails
    refine ⟨?_, ?_, hdirty, ?_, rfl, h.leaked, ?_⟩
    · change r.refCount = r0.refCount + 0 + 0 + (r.tails : Int)
      omega
    · change r.dirtyRefs = r0.dirtyRefs
      rw [h.dirty, hdirty]
      exact Int.add_zero _
    · change (r.ends ++ [error]).length = 1
      rw [h.ends]
      rfl
    · exact le_of_eq h.tails
  closed := fun hs _ => absurd h.stage hs
  opened := fun ha => by
    have hidle : r.afterAt r.stage = true := by
      rw [h.stage]
      rfl
    exact absurd (hidle.symm.trans ha) nofun

theorem Early.toOpen (h : Early r0 r n) (hrefs : r'.refCount = b.refs + 2 + r'.tails)
    (hdirty : (r'.dirtyRefs, r'.dirty) = (r.dirtyRefs, r.dirty)) (hdirtyRefs : b.dirtyRefs = r0.dirtyRefs)
    (hends : r'.ends = r.ends) (hsub : r'.sub = b.sub) (hleaked : r'.leaked = r.leaked) (hb : b.leaked = 0)
    (htails : r'.tails ≤ t) : Open b t r' := by
  obtain ⟨hrefs', hdirty'⟩ := Prod.mk.injEq .. ▸ hdirty
  refine ⟨hrefs, ?_, hends.trans h.ends, hsub, ?_, htails⟩
  · rw [hrefs', hdirty', hdirtyRefs]
    exact h.dirty
  · rw [hleaked, hb]
    exact h.leaked

theorem Early.todo_eq (h : Early r0 r n) : r.todo = 2 * r.base + r.sub.work := by
  unfold Req.todo Req.work
  rw [h.stage, h.tails]
  rfl

/-- A step of the request. -/
structure Ahead (r0 r r' : Req) : Prop where
  inv : Inv r0 r'
  todo : r'.todo < r.todo

theorem Early.refused (h : Early r0 r 0) (hdirty : r.dirty = false) (error : Int) (hsub : 2 ≤ r.sub.work) :
    Ahead r0 r (r.refuse error) where
  inv := (h.refuse hdirty error rfl).exact
  todo := by
    have htodo : (r.refuse error).todo = 2 * r.base + 0 := by
      unfold Req.todo Req.work
      have hstage : (r.refuse error).stage = .idle := h.stage
      have htails : (r.refuse error).tails = 0 := h.tails
      rw [hstage, htails]
      rfl
    rw [htodo, h.todo_eq]
    omega

theorem Early.handed {t k : Nat} {sub : Sub} (h : Early r0 r n) (hsub : 1000 ≤ r.sub.work)
    (hlate : sub = .prefetch ∨ sub = .returned) (hout : Out (books r0 sub) t k r') (hr' : r'.sub = sub)
    (hk : k ≤ r.base + 120) (ht : r'.tails ≤ 5) : Ahead r0 r r' where
  inv := by
    unfold Inv
    obtain rfl | rfl := hlate
    · rw [hr']
      exact hout.placed.exact
    · rw [hr']
      exact hout.placed.exact
  todo := by
    have hwork := hout.work
    have hlate' : r'.sub.work ≤ 1 := by
      rw [hr']
      obtain rfl | rfl := hlate <;> decide
    rw [h.todo_eq]
    unfold Req.todo
    omega

/-- A submission is refused or goes forward. -/
theorem submitStart_ahead (hsub : r.sub = .start) (h : Early r0 r 0) (hdirty : r.dirty = false) :
    Ahead r0 r (submitStart r o) := by
  have hwork : r.sub.work = 1004 := by rw [hsub]; rfl
  have hrefs := h.refs
  have htails := h.tails
  have hrefuse : ∀ e, Ahead r0 r (r.refuse e) := fun e => h.refused hdirty e (by omega)
  have halloc : Ahead r0 r ({ r.get with got := true }.goOn .alloc) := by
    have hearly : Early r0 ({ r.get with got := true }.goOn .alloc) 1 := by
      refine ⟨?_, h.dirty, h.ends, h.stage, h.tails, h.leaked, h.handled⟩
      change r.refCount + 1 = r0.refCount + 1
      omega
    refine ⟨⟨hearly, hdirty⟩, ?_⟩
    rw [hearly.todo_eq, h.todo_eq, hwork]
    exact Nat.add_lt_add_left (show 1003 < 1004 by decide) _
  have hd2c : Ahead r0 r ((ocfD2cFast { r.get with got := true }).goOn .returned) := by
    have hopen : Open (books r0 .returned) r.tails ((ocfD2cFast { r.get with got := true }).goOn .returned) := by
      refine h.toOpen ?_ rfl rfl rfl rfl rfl rfl le_rfl
      change r.refCount + 1 + 1 = r0.refCount + 0 + 2 + (r.tails : Int)
      omega
    refine h.handed (by omega) (.inr rfl) (hopen.goto rfl nofun ?_) rfl le_rfl ?_
    · exact Nat.add_lt_add_left (by decide : 5 < 120) _
    · change r.tails ≤ 5
      omega
  unfold submitStart
  split
  · exact hrefuse _
  · split
    · exact hrefuse _
    · split
      · exact hrefuse _
      · simp only
        split
        · split
          · have hopen : Open (books r0 .returned) (r.tails + 1)
                ((ocfD2cIoFast { r.get with got := true }).goOn .returned) := by
              refine h.toOpen ?_ rfl rfl rfl rfl rfl rfl le_rfl
              change r.refCount + 1 + 1 + 1 = r0.refCount + 0 + 2 + ((r.tails + 1 : Nat) : Int)
              omega
            refine h.handed (by omega) (.inr rfl) (hopen.goto rfl nofun ?_) rfl le_rfl ?_
            · exact Nat.add_lt_add_left (by decide : 5 < 120) _
            · change r.tails + 1 ≤ 5
              omega
          · exact halloc
        · split
          · exact hd2c
          · have hopen : Open (books r0 .returned) r.tails
                ((({ r.get with got := true } : Req).get.pushCb .engineFlush).goOn .returned) := by
              refine h.toOpen ?_ rfl rfl rfl rfl rfl rfl le_rfl
              change r.refCount + 1 + 1 = r0.refCount + 0 + 2 + (r.tails : Int)
              omega
            refine h.handed (by omega) (.inr rfl) (hopen.goto rfl trivial ?_) rfl le_rfl ?_
            · exact Nat.add_lt_add_left (by decide : 14 < 120) _
            · change r.tails ≤ 5
              omega
        · split
          · exact hd2c
          · exact halloc

theorem submitAlloc_ahead (hsub : r.sub = .alloc) (h : Early r0 r 1) (hdirty : r.dirty = false)
    (hclean : r.op = .discard → o.mapAllocated = true) : Ahead r0 r (submitAlloc r o) := by
  have hwork : r.sub.work = 1003 := by rw [hsub]; rfl
  have hrefs := h.refs
  have htails := h.tails
  have hresolve : Ahead r0 r (r.goOn .resolve) := by
    have hearly : Early r0 (r.goOn .resolve) 1 := ⟨h.refs, h.dirty, h.ends, h.stage, h.tails, h.leaked, h.handled⟩
    refine ⟨⟨hearly, hdirty⟩, ?_⟩
    rw [hearly.todo_eq, h.todo_eq, hwork]
    exact Nat.add_lt_add_left (show 1002 < 1003 by decide) _
  have hrefuse : Ahead r0 r ((r.refuse errNoMem).put) := by
    have hput : Early r0 r.put 0 := by
      refine ⟨?_, h.dirty, h.ends, h.stage, h.tails, h.leaked, h.handled⟩
      change r.refCount - 1 = r0.refCount + 0
      omega
    have hahead := hput.refused hdirty errNoMem (show 2 ≤ r.sub.work by omega)
    exact ⟨hahead.inv, hahead.todo⟩
  unfold submitAlloc
  split
  · rename_i hop
    rw [if_pos (hclean hop)]
    have hopen : Open (books r0 .returned) r.tails ((r.get.goto (.call .engineDiscard)).goOn .returned) := by
      refine h.toOpen ?_ rfl rfl rfl rfl rfl rfl le_rfl
      change r.refCount + 1 = r0.refCount + 0 + 2 + (r.tails : Int)
      omega
    refine h.handed (by omega) (.inr rfl) (hopen.goto rfl h.handled ?_) rfl le_rfl ?_
    · exact Nat.add_lt_add_left (by decide : 114 < 120) _
    · change r.tails ≤ 5
      omega
  · split
    · exact hresolve
    · exact hrefuse

theorem resolve_early (h : Early r0 r 1) (hdirty : r.dirty = false) :
    Early r0 (ocfResolveEffectiveCacheMode r o).1 1 ∧ (ocfResolveEffectiveCacheMode r o).1.base = r.base := by
  unfold ocfResolveEffectiveCacheMode
  split
  · exact ⟨⟨h.refs, h.dirty, h.ends, h.stage, h.tails, h.leaked, h.handled⟩, rfl⟩
  · split
    · by_cases hfrozen : o.dirtyFrozen = true
      · have hset : ocfReqSetDirty r o = (r, false) := if_pos hfrozen
        rw [hset]
        exact ⟨h, rfl⟩
      · have hset : ocfReqSetDirty r o = ({ r with dirty := true, dirtyRefs := r.dirtyRefs + 1 }, true) :=
          if_neg hfrozen
        rw [hset]
        refine ⟨⟨h.refs, ?_, h.ends, h.stage, h.tails, h.leaked, h.handled⟩, rfl⟩
        have hrefs := h.dirty
        rw [hdirty] at hrefs
        change r.dirtyRefs + 1 = r0.dirtyRefs + 1
        rw [hrefs]
        exact congrArg (· + 1) (Int.add_zero _)
    · exact ⟨h, rfl⟩

theorem submitResolve_ahead (hsub : r.sub = .resolve) (h : Early r0 r 1) (hdirty : r.dirty = false) :
    Ahead r0 r (submitResolve r o) := by
  have hwork : r.sub.work = 1002 := by rw [hsub]; rfl
  obtain ⟨hresolved, hbase⟩ := resolve_early h hdirty (o := o)
  unfold submitResolve
  simp only
  generalize (ocfResolveEffectiveCacheMode r o).2 = mode
  generalize (ocfResolveEffectiveCacheMode r o).1 = r' at *
  have hearly : Early r0 (r'.get.goOn (.fast mode)) 2 := by
    refine ⟨?_, hresolved.dirty, hresolved.ends, hresolved.stage, hresolved.tails, hresolved.leaked, hresolved.handled⟩
    have hrefs := hresolved.refs
    change r'.refCount + 1 = r0.refCount + 2
    omega
  refine ⟨hearly, ?_⟩
  rw [hearly.todo_eq, h.todo_eq, hwork, ← hbase]
  exact Nat.add_lt_add_left (show 1001 < 1002 by decide) _

theorem fast_out (hopen : Open b t r) (hr : hd.refreshed = true) (hit : Bool) :
    Out b (t + 1) (r.base + 103)
      (Req.withLock { r.get with handler := hd, info := o.info, alockRead := hit } o.lock true hd).later := by
  refine Out.later (Open.withLock ?_ o.lock rfl hr ?_)
  · exact hopen.get.congr rfl
  · exact Nat.add_lt_add_left (show 102 < 103 by decide) _

theorem Early.withInfo (h : Early r0 r n) (hd : Handler) (info : ReqInfo) :
    Early r0 (Req.put { r.get with handler := hd, info }) n := by
  refine ⟨?_, h.dirty, h.ends, h.stage, h.tails, h.leaked, h.handled⟩
  have hrefs := h.refs
  change r.refCount + 1 - 1 = r0.refCount + n
  omega

theorem fastReq_spec (mode : Sub) (hmode : mode.refs = 1) (hsub : r.sub = mode) (h : Early r0 r 2) :
    ((ocfEngineHndlFastReq r o).2 = true ∧
      Out (books r0 mode) 1 (r.base + 103) (ocfEngineHndlFastReq r o).1) ∨
    ((ocfEngineHndlFastReq r o).2 = false ∧ Early r0 (ocfEngineHndlFastReq r o).1 2 ∧
      (ocfEngineHndlFastReq r o).1.base = r.base) := by
  have hopen : Open (books r0 mode) 0 r.get := by
    refine h.toOpen ?_ rfl rfl rfl hsub rfl rfl (le_of_eq h.tails)
    have hrefs := h.refs
    have htails : r.get.tails = 0 := h.tails
    change r.refCount + 1 = r0.refCount + mode.refs + 2 + (r.get.tails : Int)
    omega
  have hget : Early r0 r.get 3 := by
    refine ⟨?_, h.dirty, h.ends, h.stage, h.tails, h.leaked, h.handled⟩
    have hrefs := h.refs
    change r.refCount + 1 = r0.refCount + 3
    omega
  have hput : ∀ {r' : Req}, Early r0 r' 3 → Early r0 r'.put 2 := by
    intro r' h'
    refine ⟨?_, h'.dirty, h'.ends, h'.stage, h'.tails, h'.leaked, h'.handled⟩
    have hrefs := h'.refs
    change r'.refCount - 1 = r0.refCount + 2
    omega
  unfold ocfEngineHndlFastReq
  simp only
  cases r.get.rw with
  | read =>
    unfold ocfReadFast
    simp only
    split
    · exact .inl ⟨rfl, fast_out hopen rfl true⟩
    · exact .inr ⟨rfl, hput (hget.withInfo _ _), rfl⟩
  | write =>
    unfold ocfWriteFast
    simp only
    split
    · exact .inl ⟨rfl, fast_out hopen rfl false⟩
    · exact .inr ⟨rfl, hput (hget.withInfo _ _), rfl⟩

variable {mode : Mode}

theorem submitFast_ahead (hsub : r.sub = .fast mode) (h : Early r0 r 2) :
    Ahead r0 r (submitFast c r o mode) := by
  have hwork : r.sub.work = 1001 := by rw [hsub]; rfl
  have hslow : ∀ {r' : Req}, Early r0 r' 2 → r'.base = r.base → Ahead r0 r (r'.goOn (.slow mode)) := by
    intro r' h' hbase
    have hearly : Early r0 (r'.goOn (.slow mode)) 2 :=
      ⟨h'.refs, h'.dirty, h'.ends, h'.stage, h'.tails, h'.leaked, h'.handled⟩
    refine ⟨hearly, ?_⟩
    rw [hearly.todo_eq, h.todo_eq, hwork, ← hbase]
    exact Nat.add_lt_add_left (show 1000 < 1001 by decide) _
  unfold submitFast
  by_cases hpt : mode = .pt
  · have hno : ocfCoreSubmitIoFast c r o mode = (r, false) := if_pos hpt
    rw [hno]
    exact hslow h rfl
  · by_cases htry : mode = .wb ∨ mode = .wo ∨ c.useSubmitIoFast = true
    · have hreq : ocfCoreSubmitIoFast c r o mode = ocfEngineHndlFastReq r o := (if_neg hpt).trans (if_pos htry)
      rw [hreq]
      have hspec := fastReq_spec (.fast mode) rfl hsub h (o := o)
      generalize ocfEngineHndlFastReq r o = p at *
      obtain ⟨r', yes⟩ := p
      obtain ⟨rfl, hout⟩ | ⟨rfl, hearly, hbase⟩ := hspec
      · have hprefetch : Out (books r0 .prefetch) 1 (r.base + 103) (r'.goOn .prefetch) :=
          ⟨hout.placed.goOn .prefetch, hout.work⟩
        refine h.handed (by omega) (.inl rfl) hprefetch rfl (by omega) ?_
        change r'.tails ≤ 5
        have htails : r'.tails ≤ 1 := hout.placed.kept_eq.2.2
        omega
      · exact hslow hearly hbase
    · have hno : ocfCoreSubmitIoFast c r o mode = (r, false) := (if_neg hpt).trans (if_neg htry)
      rw [hno]
      exact hslow h rfl

theorem engineCb_ready {rw : Rw} (heq : ocfCacheModeToEngineCb mode rw = some h) :
    h.after = false ∧ (∀ r : Req, r.Ready h) ∧ ∀ r : Req, h.work r ≤ 108 := by
  have hpt : ∀ r : Req, Handler.readPt.work r ≤ 108 := fun r => by
    change (if r.forcePt then 104 else 108) ≤ 108
    split <;> omega
  cases mode <;> cases rw <;> cases heq <;>
    first
      | exact ⟨rfl, fun _ => trivial, hpt⟩
      | exact ⟨rfl, fun _ => trivial, fun _ => by simp [Handler.work]⟩

theorem submitSlow_ahead (hsub : r.sub = .slow mode) (h : Early r0 r 2) (hmode : mode ≠ .max) :
    Ahead r0 r (submitSlow r mode) := by
  have hwork : r.sub.work = 1000 := by rw [hsub]; rfl
  have hrefs := h.refs
  have htails := h.tails
  unfold submitSlow
  cases heq : ocfCacheModeToEngineCb mode r.rw with
  | none =>
    cases mode <;> first | exact absurd rfl hmode | (cases hrw : r.rw <;> rw [hrw] at heq <;> cases heq)
  | some hd =>
    obtain ⟨hafter, hready, hcost⟩ := engineCb_ready heq
    have hopen : Open (books r0 .prefetch) r.tails ((r.get.pushCb hd).goOn .prefetch) := by
      refine h.toOpen ?_ rfl rfl rfl rfl rfl rfl le_rfl
      change r.refCount + 1 = r0.refCount + 1 + 2 + (r.tails : Int)
      omega
    refine h.handed (by omega) (.inl rfl) (hopen.goto hafter (hready _) ?_) rfl le_rfl ?_
    · exact Nat.add_lt_add_left (Nat.lt_of_le_of_lt (hcost _) (by decide : 108 < 120)) _
    · change r.tails ≤ 5
      omega

theorem prefetch_ahead (hsub : r.sub = .prefetch) (h : Placed (books r0 .prefetch) r.tails r) :
    Ahead r0 r (r.put.goOn .returned) where
  inv :=
    { here := h.here
      finished := fun hs => by
        have hclosed := h.finished hs
        refine ⟨?_, hclosed.dirtyRefs, hclosed.dirty, hclosed.ends, rfl, hclosed.leaked, le_rfl⟩
        have hrefs : r.refCount = r0.refCount + 1 + 0 + r.tails := hclosed.refs
        change r.refCount - 1 = r0.refCount + 0 + 0 + (r.tails : Int)
        omega
      closed := fun hs ha => by
        have hclosed := h.closed hs ha
        refine ⟨?_, hclosed.dirtyRefs, hclosed.dirty, hclosed.ends, rfl, hclosed.leaked, le_rfl⟩
        have hrefs : r.refCount = r0.refCount + 1 + 1 + r.tails := hclosed.refs
        change r.refCount - 1 = r0.refCount + 0 + 1 + (r.tails : Int)
        omega
      opened := fun ha => by
        have hopen := h.opened ha
        refine ⟨?_, hopen.dirty, hopen.ends, rfl, hopen.leaked, le_rfl⟩
        have hrefs : r.refCount = r0.refCount + 1 + 2 + r.tails := hopen.refs
        change r.refCount - 1 = r0.refCount + 0 + 2 + (r.tails : Int)
        omega }
  todo := by
    have hwork : r.todo = 2 * r.work + 1 + r.tails := by
      unfold Req.todo
      rw [hsub]
      rfl
    rw [hwork]
    exact Nat.add_lt_add_right (Nat.lt_succ_self (2 * r.work)) _

end Submit

section Runs

variable {r0 r : Req} {c : Cache}

/-- The steps that drop everything they should: the map of a discard is
allocated, the resolved mode has an engine, and a metadata flush completes. -/
def Clean (r : Req) : Act → Prop
  | .submit o => (r.sub = .alloc → r.op = .discard → o.mapAllocated = true) ∧ r.sub ≠ .slow .max
  | .run o => o.flush ≠ .lost
  | _ => True

/-- An engine has the request, or something is still to be put. -/
def Req.Busy (r : Req) : Prop := r.stage ≠ .idle ∨ 0 < r.tails

theorem Inv.placed (h : Inv r0 r) (hbusy : r.Busy) : Placed (books r0 r.sub) r.tails r ∧ r.sub.work ≤ 1 := by
  have hearly : ∀ n, ¬Early r0 r n := by
    intro n he
    obtain hs | ht := hbusy
    · exact hs he.stage
    · have htails := he.tails
      omega
  unfold Inv at h
  cases hsub : r.sub with
  | start => exact absurd (show Early r0 r 0 ∧ r.dirty = false by simpa only [hsub] using h).1 (hearly 0)
  | alloc => exact absurd (show Early r0 r 1 ∧ r.dirty = false by simpa only [hsub] using h).1 (hearly 1)
  | resolve => exact absurd (show Early r0 r 1 ∧ r.dirty = false by simpa only [hsub] using h).1 (hearly 1)
  | fast mode => exact absurd (show Early r0 r 2 by simpa only [hsub] using h) (hearly 2)
  | slow mode => exact absurd (show Early r0 r 2 by simpa only [hsub] using h) (hearly 2)
  | prefetch => exact ⟨by simpa only [hsub] using h, by decide⟩
  | returned => exact ⟨by simpa only [hsub] using h, by decide⟩

theorem Placed.inv {t : Nat} {sub : Sub} (h : Placed (books r0 sub) t r) (hsub : sub.work ≤ 1) : Inv r0 r := by
  have heq : r.sub = sub := h.kept_eq.1
  unfold Inv
  cases sub with
  | prefetch =>
    rw [heq]
    exact h.exact
  | returned =>
    rw [heq]
    exact h.exact
  | start => exact absurd hsub (by decide)
  | alloc => exact absurd hsub (by decide)
  | resolve => exact absurd hsub (by decide)
  | fast mode => exact absurd hsub (by simp [Sub.work])
  | slow mode => exact absurd hsub (by simp [Sub.work])

theorem Out.ahead (hsub : r.sub.work ≤ 1) (h : Out (books r0 r.sub) (r.tails + 1) r.work r') :
    Ahead r0 r r' := by
  obtain ⟨hsub', -, htails⟩ := h.placed.kept_eq
  have hwork := h.work
  refine ⟨h.placed.inv hsub, ?_⟩
  have heq : r'.sub.work = r.sub.work := congrArg Sub.work hsub'
  unfold Req.todo
  omega

theorem Placed.hand {b : Books} {t : Nat} (h : Placed b t r) {stage : Stage} (hs : r.stage = stage)
    (hidle : stage ≠ .idle) :
    (r.afterAt stage = false → Open b t r) ∧ (r.afterAt stage = true → Closed b t 1 r) ∧ r.PlacedAt stage := by
  subst hs
  exact ⟨h.opened, h.closed hidle, h.here⟩

theorem tail_ahead (h : Inv r0 r) (htail : 0 < r.tails) : Ahead r0 r { r.put with tails := r.tails - 1 } := by
  obtain ⟨hplaced, hsub⟩ := h.placed (.inr htail)
  have hcast : ((r.tails - 1 : Nat) : Int) = r.tails - 1 := by omega
  refine ⟨Placed.inv (t := r.tails - 1) ⟨hplaced.here, fun hs => ?_, fun hs ha => ?_, fun ha => ?_⟩ hsub, ?_⟩
  · have hclosed := hplaced.finished hs
    refine ⟨?_, hclosed.dirtyRefs, hclosed.dirty, hclosed.ends, hclosed.sub, hclosed.leaked, le_rfl⟩
    have hrefs := hclosed.refs
    change r.refCount - 1 = (books r0 r.sub).refs + 0 + ((r.tails - 1 : Nat) : Int)
    omega
  · have hclosed := hplaced.closed hs ha
    refine ⟨?_, hclosed.dirtyRefs, hclosed.dirty, hclosed.ends, hclosed.sub, hclosed.leaked, le_rfl⟩
    have hrefs := hclosed.refs
    change r.refCount - 1 = (books r0 r.sub).refs + 1 + ((r.tails - 1 : Nat) : Int)
    omega
  · have hopen := hplaced.opened ha
    refine ⟨?_, hopen.dirty, hopen.ends, hopen.sub, hopen.leaked, le_rfl⟩
    have hrefs := hopen.refs
    change r.refCount - 1 = (books r0 r.sub).refs + 2 + ((r.tails - 1 : Nat) : Int)
    omega
  · change 2 * r.work + r.sub.work + (r.tails - 1) < 2 * r.work + r.sub.work + r.tails
    omega

/-- Every step keeps the account and leaves less to do. -/
theorem step_ahead {a : Act} (h : Inv r0 r) (hg : guard r a) (hc : Clean r a) : Ahead r0 r (step c r a) := by
  cases a with
  | submit o =>
    change Ahead r0 r (submitGo c r o)
    unfold submitGo
    unfold Inv at h
    cases hsub : r.sub with
    | start =>
      simp only [hsub] at h
      exact submitStart_ahead hsub h.1 h.2
    | alloc =>
      simp only [hsub] at h
      exact submitAlloc_ahead hsub h.1 h.2 (hc.1 hsub)
    | resolve =>
      simp only [hsub] at h
      exact submitResolve_ahead hsub h.1 h.2
    | fast mode =>
      simp only [hsub] at h
      exact submitFast_ahead hsub h
    | slow mode =>
      simp only [hsub] at h
      exact submitSlow_ahead hsub h fun heq => hc.2 (heq ▸ hsub)
    | prefetch =>
      simp only [hsub] at h
      exact prefetch_ahead hsub h
    | returned => exact absurd hsub hg
  | run o =>
    obtain hs | ⟨hd, hs⟩ := hg
    · obtain ⟨hplaced, hsub⟩ := h.placed (.inl (by rw [hs]; nofun))
      obtain ⟨hopen, hclosed, hready⟩ := hplaced.hand hs nofun
      have hout := handlerRun_out r.handler hc hready hopen hclosed (c := c)
      have hwork : r.work = r.base + r.handler.work r := by
        unfold Req.work
        rw [hs]
        rfl
      have hstep : step c r (.run o) = r.handler.run c r o := by
        unfold step
        rw [hs]
      rw [hstep]
      exact Out.ahead hsub (hwork ▸ hout)
    · obtain ⟨hplaced, hsub⟩ := h.placed (.inl (by rw [hs]; nofun))
      obtain ⟨hopen, hclosed, hready⟩ := hplaced.hand hs nofun
      have hout := handlerRun_out hd hc hready hopen hclosed (c := c)
      have hwork : r.work = r.base + hd.work r := by
        unfold Req.work
        rw [hs]
        rfl
      have hstep : step c r (.run o) = hd.run c r o := by
        unfold step
        rw [hs]
      rw [hstep]
      exact Out.ahead hsub (hwork ▸ hout)
  | granted =>
    obtain ⟨refresh, hs⟩ := hg
    obtain ⟨hplaced, hsub⟩ := h.placed (.inl (by rw [hs]; nofun))
    obtain ⟨hopen, -, hplace⟩ := hplaced.hand hs nofun
    have hwork : r.work = r.base + 102 := by
      unfold Req.work
      rw [hs]
      rfl
    have hout := granted_out refresh (hopen rfl) hplace
    rw [← hwork] at hout
    have hstep : step c r .granted = if refresh then ocfEngineOnResume r else r.goto .queued := by
      unfold step
      rw [hs]
      cases refresh <;> rfl
    rw [hstep]
    exact hout.weaken.ahead hsub
  | cleaned error =>
    have hs : r.stage = .cleaning := hg
    obtain ⟨hplaced, hsub⟩ := h.placed (.inl (by rw [hs]; nofun))
    obtain ⟨hopen, -, hplace⟩ := hplaced.hand hs nofun
    have hwork : r.work = r.base + 35 := by
      unfold Req.work
      rw [hs]
      rfl
    have hout := cleanEnd_out error (hopen rfl) hplace
    rw [← hwork] at hout
    exact hout.weaken.ahead hsub
  | ioEnd error =>
    obtain ⟨cb, hs⟩ := hg
    obtain ⟨hplaced, hsub⟩ := h.placed (.inl (by rw [hs]; nofun))
    obtain ⟨hopen, hclosed, hplace⟩ := hplaced.hand hs nofun
    have hwork : r.work = r.base + cb.work r := by
      unfold Req.work
      rw [hs]
      rfl
    have hout := callbackRun_out cb error hplace hopen hclosed (c := c)
    rw [← hwork] at hout
    have hstep : step c r (.ioEnd error) = cb.run c r error := by
      unfold step
      rw [hs]
    rw [hstep]
    exact hout.weaken.ahead hsub
  | partEnd which error =>
    obtain ⟨p, x, y, hs, hflag⟩ := hg
    obtain ⟨hplaced, hsub⟩ := h.placed (.inl (by rw [hs]; nofun))
    obtain ⟨hopen, -, hcount, -, hdiscard⟩ := hplaced.hand hs nofun
    have hwork : r.work = r.base + (10 + x.toNat + y.toNat) := by
      unfold Req.work
      rw [hs]
      rfl
    have hout := pairRun_out p x y which error (hopen rfl) hcount hflag hdiscard (c := c)
    rw [← hwork] at hout
    have hstep : step c r (.partEnd which error) = p.run c r x y which error := by
      unfold step
      rw [hs]
    rw [hstep]
    exact hout.weaken.ahead hsub
  | tail => exact tail_ahead h hg

/-- A request before its submission. -/
structure Fresh (r : Req) : Prop where
  sub : r.sub = .start
  stage : r.stage = .idle
  ends : r.ends = []
  dirty : r.dirty = false
  tails : r.tails = 0
  leaked : r.leaked = 0
  handled : r.discardHandled = 0

theorem Fresh.inv (h : Fresh r) : Inv r r := by
  unfold Inv
  rw [h.sub]
  refine ⟨⟨(Int.add_zero _).symm, ?_, h.ends, h.stage, h.tails, h.leaked, h.handled⟩, h.dirty⟩
  rw [h.dirty]
  exact (Int.add_zero _).symm

/-- Nothing fails, and nothing is mapped. -/
def plain : Outcome where
  validate := 0
  standby := false
  mapAllocated := true
  mode := .wb
  seqCutoff := false
  dirtyFrozen := false
  info := .zero
  partHasSpace := true
  readMissesBlocked := false
  lock := .acquired
  prepared := .lock .acquired
  cpData := true
  checkOk := true
  memset := 0
  flush := .submitted

/-- All asynchronous work has ended: nothing can happen to the request any more. -/
def Req.Over (r : Req) : Prop := ∀ a, ¬guard r a

/-- The end callback is called once, and what was taken is dropped. -/
structure Req.EndedOnce (r0 r : Req) : Prop where
  /-- One call of the end callback. -/
  ends : r.ends.length = 1
  /-- The references are those before the submission. -/
  refs : r.refCount = r0.refCount
  /-- `refcnt.dirty` is as before the submission. -/
  dirtyRefs : r.dirtyRefs = r0.dirtyRefs

/-- Where nothing can happen any more the submit function has returned and no engine has the request. -/
theorem over_iff (h : Inv r0 r) : r.Over ↔ r.sub = .returned ∧ r.stage = .idle ∧ r.tails = 0 := by
  constructor
  · intro hover
    have hsub : r.sub = .returned := by
      by_contra hne
      exact hover (.submit plain) hne
    have htails : r.tails = 0 := Nat.eq_zero_of_not_pos (hover .tail)
    refine ⟨hsub, ?_, htails⟩
    by_contra hidle
    obtain ⟨hplaced, -⟩ := h.placed (.inl hidle)
    have hplace := hplaced.here
    cases hs : r.stage with
    | idle => exact hidle hs
    | call hd => exact hover (.run plain) (.inr ⟨hd, hs⟩)
    | queued => exact hover (.run plain) (.inl hs)
    | locking refresh => exact hover .granted ⟨refresh, hs⟩
    | cleaning => exact hover (.cleaned 0) hs
    | io cb => exact hover (.ioEnd 0) ⟨cb, hs⟩
    | pair p x y =>
      rw [hs] at hplace
      obtain ⟨hcount, hpos, -⟩ := hplace
      rw [hcount] at hpos
      cases y with
      | true => exact hover (.partEnd true 0) ⟨p, x, true, hs, rfl⟩
      | false =>
        cases x with
        | true => exact hover (.partEnd false 0) ⟨p, true, false, hs, rfl⟩
        | false => exact absurd hpos (by decide)
    | lost =>
      rw [hs] at hplace
      exact hplace
  · rintro ⟨hsub, hstage, htails⟩ a hg
    cases a with
    | submit o => exact hg hsub
    | run o =>
      obtain hs | ⟨hd, hs⟩ := hg <;> rw [hstage] at hs <;> cases hs
    | granted =>
      obtain ⟨refresh, hs⟩ := hg
      rw [hstage] at hs
      cases hs
    | cleaned error =>
      have hs : r.stage = .cleaning := hg
      rw [hstage] at hs
      cases hs
    | ioEnd error =>
      obtain ⟨cb, hs⟩ := hg
      rw [hstage] at hs
      cases hs
    | partEnd which error =>
      obtain ⟨p, x, y, hs, -⟩ := hg
      rw [hstage] at hs
      cases hs
    | tail =>
      have hpos : 0 < r.tails := hg
      omega

/-- What holds of a fresh request holds in its run. -/
theorem run_inv (hfresh : Fresh r0) (hrun : Reachable (system c Clean) r0 r) : Inv r0 r := by
  refine hrun.invariant (fun _ => hfresh.inv) ?_
  intro s a s' hs _ hg hstep _
  cases hstep
  exact (step_ahead hs hg.1 hg.2).inv

theorem ends_le_one (h : Inv r0 r) : r.ends.length ≤ 1 := by
  by_cases hbusy : r.Busy
  · obtain ⟨hplaced, -⟩ := h.placed hbusy
    cases ha : r.afterAt r.stage with
    | false =>
      rw [(hplaced.opened ha).ends]
      exact Nat.zero_le _
    | true =>
      by_cases hs : r.stage = .idle
      · exact le_of_eq (hplaced.finished hs).ends
      · exact le_of_eq (hplaced.closed hs ha).ends
  · have hidle : r.stage = .idle := by
      by_contra hne
      exact hbusy (.inl hne)
    have hearly : ∀ {n}, Early r0 r n → r.ends.length ≤ 1 := fun he => by
      rw [he.ends]
      exact Nat.zero_le _
    unfold Inv at h
    cases hsub : r.sub with
    | start =>
      simp only [hsub] at h
      exact hearly h.1
    | alloc =>
      simp only [hsub] at h
      exact hearly h.1
    | resolve =>
      simp only [hsub] at h
      exact hearly h.1
    | fast mode =>
      simp only [hsub] at h
      exact hearly h
    | slow mode =>
      simp only [hsub] at h
      exact hearly h
    | prefetch =>
      simp only [hsub] at h
      exact le_of_eq (h.finished hidle).ends
    | returned =>
      simp only [hsub] at h
      exact le_of_eq (h.finished hidle).ends

theorem endedOnce_of_over (h : Inv r0 r) (hover : r.Over) : Req.EndedOnce r0 r := by
  obtain ⟨hsub, hstage, htails⟩ := (over_iff h).mp hover
  unfold Inv at h
  simp only [hsub] at h
  have hclosed := h.finished hstage
  refine ⟨hclosed.ends, ?_, hclosed.dirtyRefs⟩
  have hrefs : r.refCount = r0.refCount + 0 + 0 + r.tails := hclosed.refs
  omega

/-- In every run of the submission and of what follows it, the end callback is
called at most once. Each step brings the request closer to its end, and where
nothing can happen any more the callback was called exactly once, the
reference count is that before the submission, and so is `refcnt.dirty`. -/
theorem core_io_ends_once (c : Cache) (r0 r : Req) (hfresh : Fresh r0)
    (hrun : Reachable (system c Clean) r0 r) :
    r.ends.length ≤ 1 ∧ (∀ a, guard r a → Clean r a → (step c r a).todo < r.todo) ∧
      (r.Over → Req.EndedOnce r0 r) := by
  have hinv := run_inv hfresh hrun
  refine ⟨ends_le_one hinv, fun a hg hc => (step_ahead hinv hg hc).todo, endedOnce_of_over hinv⟩

/-- A request for one line before its submission. -/
def fresh (op : Op) : Req where
  op := op
  rw := .write
  d2c := false
  refCount := 1
  ends := []
  dirty := false
  dirtyRefs := 0
  error := 0
  coreLineCount := 1
  info := .zero
  cacheError := false
  coreError := false
  alockRead := false
  seqCutoff := false
  forcePt := false
  wiSecondPass := false
  cpData := false
  handler := .readGeneric
  priv := none
  reqRemaining := 0
  bytes := 4096
  discardAddr := 0
  discardBytes := 4096
  discardHandled := 0
  sub := .start
  stage := .idle
  tails := 0
  got := false
  leaked := 0

theorem fresh_fresh (op : Op) : Fresh (fresh op) := ⟨rfl, rfl, rfl, rfl, rfl, rfl, rfl⟩

/-- A cache with lines of one page. -/
def pageLines : Cache := ⟨4096, by decide, false, false, false⟩

/-- A write in write-back mode that misses. -/
def writeBack : List Act :=
  [.submit plain, .submit plain, .submit plain, .submit plain, .submit plain, .submit plain, .run plain, .run plain,
    .ioEnd 0, .run plain, .tail, .tail]

theorem core_io_ends_once_write :
    Req.EndedOnce (fresh .io) (writeBack.foldl (step pageLines) (fresh .io)) := by
  have h0 : Reachable (system pageLines Clean) (fresh .io) (fresh .io) := .refl trivial
  have h1 := h0.next (.submit plain) ⟨nofun, nofun, nofun⟩ rfl
  have h2 := h1.next (.submit plain) ⟨nofun, fun _ _ => rfl, nofun⟩ rfl
  have h3 := h2.next (.submit plain) ⟨nofun, nofun, nofun⟩ rfl
  have h4 := h3.next (.submit plain) ⟨nofun, nofun, nofun⟩ rfl
  have h5 := h4.next (.submit plain) ⟨nofun, nofun, nofun⟩ rfl
  have h6 := h5.next (.submit plain) ⟨nofun, nofun, nofun⟩ rfl
  have h7 := h6.next (.run plain) ⟨.inl rfl, nofun⟩ rfl
  have h8 := h7.next (.run plain) ⟨.inr ⟨_, rfl⟩, nofun⟩ rfl
  have h9 := h8.next (.ioEnd 0) ⟨⟨_, rfl⟩, trivial⟩ rfl
  have h10 := h9.next (.run plain) ⟨.inl rfl, nofun⟩ rfl
  have h11 := h10.next .tail ⟨Nat.succ_pos 1, trivial⟩ rfl
  have h12 := h11.next .tail ⟨Nat.succ_pos 0, trivial⟩ rfl
  have hall := core_io_ends_once pageLines (fresh .io) _ (fresh_fresh .io) h12
  have hover := (over_iff (run_inv (fresh_fresh .io) h12)).mpr ⟨rfl, rfl, rfl⟩
  exact hall.2.2 hover

/-- A discard whose map cannot be allocated keeps the reference for its completion. -/
theorem discard_keeps_reference :
    ¬∀ (c : Cache) (r0 r : Req), Fresh r0 → Reachable (system c fun _ _ => True) r0 r →
      r.ends.length ≤ 1 ∧ (r.Over → Req.EndedOnce r0 r) := by
  intro hall
  have h0 : Reachable (system pageLines fun _ _ => True) (fresh .discard) (fresh .discard) := .refl trivial
  have h1 := h0.next (.submit plain) ⟨nofun, trivial⟩ rfl
  have h2 := h1.next (.submit { plain with mapAllocated := false }) ⟨nofun, trivial⟩ rfl
  have hover : (submitAlloc (submitStart (fresh .discard) plain) { plain with mapAllocated := false }).Over := by
    intro a hg
    cases a with
    | submit o => exact hg rfl
    | run o =>
      obtain hs | ⟨hd, hs⟩ := hg <;> cases hs
    | granted =>
      obtain ⟨refresh, hs⟩ := hg
      cases hs
    | cleaned error => cases hg
    | ioEnd error =>
      obtain ⟨cb, hs⟩ := hg
      cases hs
    | partEnd which error =>
      obtain ⟨p, x, y, hs, -⟩ := hg
      cases hs
    | tail => exact absurd (show 0 < 0 from hg) (by decide)
  have hended := (hall pageLines (fresh .discard) _ (fresh_fresh .discard) h2).2 hover
  exact absurd hended.refs (by decide)

end Runs

end OcfCache.CoreIo
