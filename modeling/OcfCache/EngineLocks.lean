import OcfCache.MappingSpec

/-!
# Locks of a request by the place where it is

From the handlers that run under locks to the release, the cache lines of a
request are among its locked lines, and the places that change metadata have
them locked for writing. The module shows that every step keeps this.
-/

namespace OcfCache.EngineLocks

open Loops Metadata Requests EngineCommon CacheLine EngineMachine EngineSystem EngineFrame
open LineChanges MappingSpec

section Control

variable {D : Type*} {cfg : Config} {s : Shared D} {f : Flight D} {ch : Choice D}

/-- Places at which a request has the locks of its lines. -/
def hasLocks : Pc → Bool
  | .refresh h | .run h => h != .cleanerCheckMap
  | .readHit | .readMiss | .readPt | .readWoCore | .readWoCache => true
  | .writeWb | .writeWbFlushMetadata | .writeWt _ _ | .writeWtFlushMetadata => true
  | .writeWi | .writeWiNextPass | .backfillDo | .backfill | .backfillUpdateMetadata => true
  | .invalidateDo => true
  | .flush (.clean back) | .clean _ back => back.isSome
  | .flush _ => true
  | .call _ | .wait _ _ | .cleanerFire | .discardCore | .discardStep | .discardFlushCache => false
  | .done => false

/-- Places whose locks are write locks. -/
def hasWriteLocks (pc : Pc) : Bool :=
  match pc with
  | .call _ | .discardCore | .discardStep | .discardFlushCache => false
  | .readMiss | .backfillDo | .backfill | .backfillUpdateMetadata | .invalidateDo => true
  | pc => pcPath pc == .lazy || pcPath pc == .direct || pcPath pc == .discard

/-- The lines of the request are locked. -/
def Covered (g : Geometry) (f : Flight D) : Prop :=
  ∀ i < f.req.coreLineCount g, (f.req.map i).status ≠ .miss → (f.req.map i).collIdx ∈ f.held

/-- Locks of a request by the place where it is. -/
structure Locked (g : Geometry) (f : Flight D) : Prop where
  /-- Its lines are locked. -/
  covered : hasLocks f.pc = true → Covered g f
  /-- Some places need write locks. -/
  write : hasWriteLocks f.pc = true → f.alockRw = .write
  /-- A write-back looks again after a wait. -/
  waits : f.pc ≠ .wait false .writeWbDo

/-- The direction of a request fits its path. -/
def DirFits (f : Flight D) : Prop :=
  (pcPath f.pc = .fast ∨ pcPath f.pc = .lazy ∨ pcPath f.pc = .direct) → f.req.rw = .write

variable {r : Next D}

theorem DirFits.step (hd : DirFits f) (h : step cfg s f ch = some r) : DirFits r.2 := by
  intro hp
  have hm := step_moves h
  rw [hm.dir]
  refine hd ?_
  have hnext := hm.path
  generalize pcPath r.2.pc = p' at hnext hp
  generalize pcPath f.pc = p at hnext
  cases hnext with
  | same => exact hp
  | ended => rcases hp with h | h | h <;> cases h
  | fastLazy => exact .inl rfl
  | fastDirect => exact .inl rfl
  | lazyDirect => exact .inr (.inl rfl)

variable {g : Geometry} {f' : Flight D}

theorem Locked.move (hl : Locked g f) (hpc : hasLocks f.pc = true) (hheld : f'.held = f.held)
    (hmap : ∀ i, (f'.req.map i).status = (f.req.map i).status ∧
      (f'.req.map i).collIdx = (f.req.map i).collIdx)
    (hrange : SameRange f.req f'.req) (hrw : f'.alockRw = f.alockRw)
    (hw : hasWriteLocks f'.pc = true → hasWriteLocks f.pc = true)
    (hwait : f'.pc ≠ .wait false .writeWbDo) : Locked g f' := by
  refine ⟨fun _ i hi hs => ?_, fun h => hrw.trans (hl.write (hw h)), hwait⟩
  rw [hrange.coreLineCount] at hi
  rw [(hmap i).1] at hs
  rw [(hmap i).2, hheld]
  exact hl.covered hpc i hi hs

/-- A write-back that waits here does not look again. -/
def waitsWriteWb : Pc → Bool
  | .wait false .writeWbDo => true
  | _ => false

theorem ne_wait {pc : Pc} (h : waitsWriteWb pc = false) : pc ≠ .wait false .writeWbDo := by
  rintro rfl
  cases h

theorem locked_release (h : (hasLocks f'.pc || hasWriteLocks f'.pc || waitsWriteWb f'.pc) = false) :
    Locked g f' := by
  simp only [Bool.or_eq_false_iff] at h
  exact ⟨fun h' => absurd (h.1.1.symm.trans h') Bool.false_ne_true,
    fun h' => absurd (h.1.2.symm.trans h') Bool.false_ne_true, ne_wait h.2⟩

theorem mem_mappedLines {req : Request} {i : Nat} (hi : i < req.coreLineCount g)
    (hs : (req.map i).status ≠ .miss) : (req.map i).collIdx ∈ mappedLines g req := by
  refine List.mem_map.mpr ⟨i, List.mem_filter.mpr ⟨List.mem_range.mpr hi, ?_⟩, rfl⟩
  simpa using hs

variable {h : Handler}

/-- All lines of the request are locked, or it waits for them. -/
theorem asyncLock_locked {rw : Dir} {refresh : Bool}
    (hw : hasWriteLocks (.run h) = true → rw = .write) (hr : refresh = false → h ≠ .writeWbDo) :
    Locked cfg.g (asyncLock cfg f ch rw refresh h) := by
  unfold asyncLock
  split
  · refine ⟨fun hl i hi hs => ?_, hw, nofun⟩
    have hne : h ≠ .cleanerCheckMap := by simpa [hasLocks] using hl
    have hlines : lockLines cfg.g f h = mappedLines cfg.g f.req := by
      cases h <;> first | rfl | exact absurd rfl hne
    simp only [hlines]
    exact mem_mappedLines hi hs
  · refine ⟨nofun, fun h' => hw ?_, fun hpc => ?_⟩
    · cases h <;> exact h'
    · cases hpc
      exact hr rfl rfl

/-- The same for requests that may have no line. -/
theorem asyncLockMapped_locked {rw : Dir} {refresh : Bool}
    (hw : hasWriteLocks (.run h) = true → rw = .write) (hr : refresh = false → h ≠ .writeWbDo)
    (hzero : ocfEngineMappedCount f.req = 0 →
      ∀ i < f.req.coreLineCount cfg.g, (f.req.map i).status = .miss) :
    Locked cfg.g (asyncLockMapped cfg f ch rw refresh h) := by
  unfold asyncLockMapped
  split
  · exact asyncLock_locked hw hr
  · rename_i hcount
    exact ⟨fun _ i hi hs => absurd (hzero (by omega) i hi) hs, hw, nofun⟩

theorem looked_zero (h : ocfEngineMappedCount (looked cfg s f).req = 0) :
    ∀ i < (looked cfg s f).req.coreLineCount cfg.g, ((looked cfg s f).req.map i).status = .miss := by
  intro i hi
  rw [(looked_same cfg s f).range.coreLineCount] at hi
  exact (lookup_status hi).2 h

theorem callPrepared_locked {onError : Flight D → Flight D}
    (hr : callPrepared cfg s f ch h onError = some r)
    (hw : hasWriteLocks (.run h) = true → f.req.rw = .write)
    (herr : ∀ f', Locked cfg.g (onError f')) : Locked cfg.g r.2 := by
  obtain ⟨q, hq, hr⟩ := Option.map_eq_some_iff.mp hr
  have hdir := (sameRange_prepareClines hq).rw
  rw [← hr]
  split
  · refine asyncLock_locked (fun h' => ?_) nofun
    simp only [lockClines, hdir, hw h', reduceCtorEq, false_and, if_false]
  · exact herr _

theorem call_locked {cb : EngineCb} (h : call cfg s f ch cb = some r)
    (hpc : f.pc = .call cb) (hd : DirFits f) : Locked cfg.g r.2 := by
  have hrestart : ∀ (f' : Flight D) (cb : EngineCb), Locked cfg.g (restart f' cb) :=
    fun f' cb => locked_release rfl
  cases cb with
  | readGeneric =>
    simp only [call] at h
    split at h
    · cases h
      exact locked_release rfl
    · exact callPrepared_locked h (fun h => by cases h) fun f' => locked_release rfl
  | readPt =>
    simp only [call] at h
    split at h
    · cases h
      exact hrestart _ _
    · cases h
      exact asyncLockMapped_locked (fun h => by cases h) (by simp) looked_zero
  | readWo =>
    cases h
    exact asyncLockMapped_locked (fun h => by cases h) (by simp) looked_zero
  | readFast =>
    simp only [call] at h
    split at h
    · cases h
      exact asyncLock_locked (fun h => by cases h) (by simp)
    · cases h
      exact hrestart _ _
  | writeWt | writeWb =>
    simp only [call] at h
    exact callPrepared_locked h (fun _ => hd (by rw [hpc]; simp [pcPath, cbPath]))
      fun f' => hrestart f' _
  | writeWa =>
    simp only [call] at h
    split at h
    · cases h
      exact hrestart _ _
    · cases h
      exact hrestart _ _
  | writeWi =>
    cases h
    refine asyncLockMapped_locked (fun _ => rfl) (fun _ => ?_) looked_zero
    split <;> simp
  | writeFast =>
    simp only [call] at h
    split at h
    · cases h
      exact asyncLock_locked (fun _ => rfl) (by simp)
    · cases h
      exact hrestart _ _

/-- The locks taken at one place are enough for another. -/
def keepsLocks (pc pc' : Pc) : Bool :=
  hasLocks pc && !waitsWriteWb pc' && (!hasWriteLocks pc' || hasWriteLocks pc)

theorem keepsLocks_iff {pc pc' : Pc} : keepsLocks pc pc' = true ↔
    (hasLocks pc = true ∧ waitsWriteWb pc' = false) ∧ (hasWriteLocks pc' = true → hasWriteLocks pc = true) := by
  rw [keepsLocks, Bool.and_eq_true, Bool.and_eq_true, Bool.not_eq_true']
  cases hasWriteLocks pc' <;> simp

/-- A step that leaves the request as it is. -/
theorem Locked.stay {pc : Pc} (hl : Locked g f) (hpc : f.pc = pc)
    (hsame : (f'.held, f'.req, f'.alockRw) = (f.held, f.req, f.alockRw)) (hkeep : keepsLocks pc f'.pc = true) :
    Locked g f' := by
  subst hpc
  obtain ⟨hheld, hreq, hrw⟩ := (by simpa using hsame : f'.held = f.held ∧ f'.req = f.req ∧ f'.alockRw = f.alockRw)
  obtain ⟨⟨hlocks, hwait⟩, hwrite⟩ := keepsLocks_iff.mp hkeep
  exact hl.move hlocks hheld (fun i => by rw [hreq]; exact ⟨rfl, rfl⟩) (by rw [hreq]; exact .rfl') hrw hwrite
    (ne_wait hwait)

/-- A step that sets marks for a metadata flush. -/
theorem Locked.mark {pc : Pc} (hl : Locked g f) (hpc : f.pc = pc) {m : Marked}
    (hreq : f'.req = m.toReq f.req) (hheld : f'.held = f.held) (hrw : f'.alockRw = f.alockRw)
    (hkeep : keepsLocks pc f'.pc = true) : Locked g f' := by
  subst hpc
  obtain ⟨⟨hlocks, hwait⟩, hwrite⟩ := keepsLocks_iff.mp hkeep
  exact hl.move hlocks hheld (fun i => by rw [hreq]; exact ⟨rfl, rfl⟩)
    (by rw [hreq]; exact sameRange_toReq m f.req) hrw hwrite (ne_wait hwait)

theorem finish_locked (s : Shared D) (f : Flight D) (ok : Bool) : Locked g (finish s f ok).2 :=
  locked_release rfl

theorem nextPass_locked (s : Shared D) (f : Flight D) : Locked g (ocfWriteWiNextPass s f).2 := by
  unfold ocfWriteWiNextPass
  split
  · exact finish_locked _ _ _
  · exact locked_release rfl

theorem discardFinishStep_locked (f : Flight D) : Locked g (ocfDiscardFinishStep f) := by
  simp only [ocfDiscardFinishStep]
  split
  · exact locked_release rfl
  · exact locked_release rfl

section

variable (hl : Locked cfg.g f)
include hl

theorem run_locked (hpc : f.pc = .run h) : Locked cfg.g (run cfg s f ch h).2 := by
  cases h with
  | readGenericDo =>
    simp only [run]
    split
    · exact hl.stay hpc rfl rfl
    · rename_i hread
      split
      · exact hl.stay hpc rfl rfl
      · split
        · -- the read lock was turned down above
          rename_i hmiss
          have hstay : Locked cfg.g { f with pc := .readPt } :=
            hl.stay hpc rfl rfl
          refine ⟨fun _ => hstay.covered rfl, fun _ => ?_, (by simp)⟩
          simp only [hmiss, Bool.true_and, decide_eq_true_eq] at hread
          cases hrw : f.alockRw with
          | read => exact absurd hrw hread
          | write => rfl
        · exact hl.stay hpc rfl rfl
  | readPtDo | readWoDo | readFastDo =>
    simp only [run]
    split
    · exact hl.stay hpc rfl rfl
    · exact hl.stay hpc rfl rfl
  | writeWbDo => exact hl.stay hpc rfl rfl
  | writeWtDo =>
    simp only [run]
    split
    · exact hl.stay hpc rfl rfl
    · exact hl.mark hpc rfl rfl rfl rfl
  | writeWiCoreWrite =>
    simp only [run]
    split
    · exact hl.stay hpc rfl rfl
    · exact hl.stay hpc rfl rfl
  | writeWiUpdateAndFlushMetadata =>
    simp only [run]
    split
    · exact nextPass_locked _ _
    · split
      · exact hl.mark hpc rfl rfl rfl rfl
      · simp only [ocfWriteWiIoFlushMetadata]
        split
        · exact hl.mark hpc rfl rfl rfl rfl
        · exact finish_locked _ _ _
  | discardStepDo =>
    simp only [run]
    split
    · exact discardFinishStep_locked _
    · split
      · exact hl.mark hpc rfl rfl rfl rfl
      · exact discardFinishStep_locked _
  | cleanerCheckMap => exact locked_release rfl

theorem clean_locked {stage : CleanStage} {back : Option CleanFirst}
    (hpc : f.pc = .clean stage back) : Locked cfg.g (clean cfg s f ch back stage).2 := by
  cases back with
  | none =>
    cases stage with
    | checkMap =>
      simp only [clean]
      split
      · exact locked_release rfl
      · exact locked_release rfl
    | fireFlushCache | updateMetadata => exact locked_release rfl
    | fireCache | fireCore | fireFlushCore =>
      simp only [clean]
      split
      · exact locked_release rfl
      · exact locked_release rfl
  | some h =>
    have hlocks : hasLocks f.pc = true := by rw [hpc]; rfl
    have hrun : hasWriteLocks (.run h.handler) = true → hasWriteLocks f.pc = true := by
      rw [hpc]
      cases h <;> exact id
    have hkeep := Bool.not_or_self (hasWriteLocks (.clean .checkMap (some h)))
    have hend : ∀ f' : Flight D, f'.held = f.held → f'.req = f.req → f'.alockRw = f.alockRw →
        Locked cfg.g (cleanEnd s f' (some h)).2 := by
      intro f' hheld hreq hrw
      simp only [cleanEnd]
      split
      · exact finish_locked _ _ _
      · refine hl.move hlocks hheld (fun i => ?_) ?_ hrw hrun (by simp)
        · rw [hreq]
          exact ⟨rfl, rfl⟩
        · rw [hreq]
          exact ⟨rfl, rfl, rfl, rfl, rfl⟩
    cases stage with
    | checkMap =>
      simp only [clean]
      split
      · exact hl.stay hpc rfl hkeep
      · exact hend _ rfl rfl rfl
    | fireFlushCache => exact hend _ rfl rfl rfl
    | updateMetadata => exact hl.stay hpc rfl hkeep
    | fireCache | fireCore | fireFlushCore =>
      simp only [clean]
      split
      · exact hl.stay hpc rfl hkeep
      · exact hl.stay hpc rfl hkeep

theorem writeWt_locked {cacheDone coreDone : Bool} (hpc : f.pc = .writeWt cacheDone coreDone) :
    Locked cfg.g (writeWt cfg s f ch cacheDone coreDone).2 := by
  have hdone : ∀ (s' : Shared D) (f' : Flight D), (f'.held, f'.req, f'.alockRw) = (f.held, f.req, f.alockRw) →
      Locked cfg.g (ocfWriteWtReqComplete s' f').2 := by
    intro s' f' hsame
    simp only [ocfWriteWtReqComplete]
    split
    · exact hl.stay hpc hsame rfl
    · split
      · exact hl.stay hpc hsame rfl
      · exact finish_locked _ _ _
  unfold writeWt
  split
  · cases coreDone
    · exact hl.stay hpc rfl rfl
    · exact hdone _ _ rfl
  · cases cacheDone
    · exact hl.stay hpc rfl rfl
    · exact hdone _ _ rfl

theorem flushed_locked {k : FlushCont} (hpc : f.pc = .flush k) :
    Locked cfg.g (flushed cfg s f k).2 := by
  cases k with
  | wb | wt => exact finish_locked _ _ _
  | wi =>
    simp only [flushed, ocfWriteWiIoFlushMetadata]
    split
    · exact hl.stay hpc rfl rfl
    · exact finish_locked _ _ _
  | discard => exact discardFinishStep_locked _
  | clean back =>
    cases back with
    | none => exact locked_release rfl
    | some h => exact hl.stay hpc rfl (Bool.not_or_self _)

/-- Every step keeps the locks that the place of the request needs. -/
theorem Locked.step (hd : DirFits f)
    (h : EngineMachine.step cfg s f ch = some r) : Locked cfg.g r.2 := by
  cases hpc : f.pc with
  | call cb =>
    simp only [EngineMachine.step, hpc] at h
    exact call_locked h hpc hd
  | wait refresh hd =>
    simp only [EngineMachine.step, hpc, Option.some.injEq] at h
    subst h
    have hlines : hd ≠ .cleanerCheckMap → lockLines cfg.g f hd = mappedLines cfg.g f.req := by
      intro hne
      cases hd <;> first | rfl | exact absurd rfl hne
    refine ⟨fun hh i hi hs => ?_, fun hw => hl.write ?_, by cases refresh <;> simp⟩
    · have hne : hd ≠ .cleanerCheckMap := by
        cases refresh <;> simpa [hasLocks] using hh
      simp only [hlines hne]
      exact mem_mappedLines hi hs
    · rw [hpc]
      cases refresh <;> exact hw
  | refresh hd =>
    simp only [EngineMachine.step, hpc] at h
    split at h
    · cases h
      exact finish_locked _ _ _
    · rename_i hgone
      cases h
      have hrange : SameRange f.req (ocfEngineCheck cfg.g s.md f.req).2 := sameRange_check f.req
      refine ⟨fun hh i hi hs => ?_, fun hw => hl.write (by rw [hpc]; exact hw), (by simp)⟩
      simp only [hrange.coreLineCount] at hi
      obtain ⟨hline, hmiss⟩ := check_entry (by simpa using hgone) hi
      simp only [hline]
      exact hl.covered (by rw [hpc]; exact hh) i hi fun hm => hs (hmiss.mpr hm)
  | run hd =>
    simp only [EngineMachine.step, hpc, Option.some.injEq] at h
    subst h
    exact run_locked hl hpc
  | clean stage back =>
    simp only [EngineMachine.step, hpc, Option.some.injEq] at h
    subst h
    exact clean_locked hl hpc
  | flush k =>
    simp only [EngineMachine.step, hpc, Option.some.injEq] at h
    subst h
    exact flushed_locked hl hpc
  | writeWt cacheDone coreDone =>
    simp only [EngineMachine.step, hpc, Option.some.injEq] at h
    subst h
    exact writeWt_locked hl hpc
  | readHit | readWoCore =>
    simp only [EngineMachine.step, hpc] at h
    split at h
    · cases h
      exact finish_locked _ _ _
    · cases h
      exact hl.stay hpc rfl rfl
  | readPt | readWoCache | discardFlushCache =>
    simp only [EngineMachine.step, hpc, Option.some.injEq] at h
    subst h
    exact finish_locked _ _ _
  | readMiss | writeWb | backfillDo | backfill =>
    simp only [EngineMachine.step, hpc] at h
    split at h
    · cases h
      exact hl.stay hpc rfl rfl
    · cases h
      exact hl.stay hpc rfl rfl
  | writeWbFlushMetadata | writeWtFlushMetadata =>
    simp only [EngineMachine.step, hpc] at h
    split at h
    · cases h
      exact hl.mark hpc rfl rfl rfl rfl
    · cases h
      exact finish_locked _ _ _
  | writeWi =>
    simp only [EngineMachine.step, hpc] at h
    split at h
    · cases h
      exact hl.stay hpc rfl rfl
    · cases h
      exact finish_locked _ _ _
  | writeWiNextPass =>
    simp only [EngineMachine.step, hpc, Option.some.injEq] at h
    subst h
    exact nextPass_locked _ _
  | backfillUpdateMetadata | invalidateDo =>
    simp only [EngineMachine.step, hpc, Option.some.injEq] at h
    subst h
    exact locked_release rfl
  | cleanerFire =>
    simp only [EngineMachine.step, hpc, Option.some.injEq] at h
    subst h
    exact asyncLock_locked (fun h => by cases h) (fun _ => (by simp))
  | discardCore =>
    simp only [EngineMachine.step, hpc, ocfDiscardCoreComplete] at h
    split at h
    · cases h
      split
      · exact finish_locked _ _ _
      · split
        · exact finish_locked _ _ _
        · exact locked_release rfl
    · cases h
      exact finish_locked _ _ _
  | discardStep =>
    simp only [EngineMachine.step, hpc, Option.some.injEq] at h
    subst h
    exact asyncLockMapped_locked (fun _ => rfl) (fun _ => (by simp)) looked_zero
  | done => simp [EngineMachine.step, hpc] at h

end

end Control

end OcfCache.EngineLocks
