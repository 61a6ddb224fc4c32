import OcfCache.EngineFrame
import OcfCache.EngineRecheck
import OcfCache.LineChanges

/-!
# Dirty data needs a lazy mode and a reference

A block is to become dirty only by a write that was resolved to a lazy mode
and holds a reference on `refcnt.dirty`, and every other write that succeeds
is to leave its data on the core. The fast path runs the write-back engine
for whatever mode the write was resolved to, so both fail when it takes a
write of another mode, and hold for all runs in which it does not.
-/

namespace OcfCache.DirtyReference

open Loops Metadata Requests EngineCommon CacheLine EngineIo EngineMachine EngineSystem EngineFrame
open LineChanges Runs

section Metadata

variable {D : Type*} {cfg : Config} {s : Shared D} {f : Flight D} {ch : Choice D}

/-- No block becomes dirty. -/
def NoNewDirty (md md' : LineTable) : Prop := ∀ x b, md'.dirty x b = true → md.dirty x b = true

theorem noNewDirty_of_eq {md md' : LineTable} (h : md'.dirty = md.dirty) : NoNewDirty md md' :=
  fun x b hb => by rw [← h]; exact hb

variable {r : Next D}

theorem callPrepared_noNewDirty {h : Handler} {onError : Flight D → Flight D}
    (hr : callPrepared cfg s f ch h onError = some r) : NoNewDirty s.md r.1.md := by
  obtain ⟨q, hq, hr⟩ := Option.map_eq_some_iff.mp hr
  refine noNewDirty_of_eq ?_
  rw [← prepareClines_dirty hq, ← hr]
  split <;> rfl

theorem call_noNewDirty {cb : EngineCb} (h : call cfg s f ch cb = some r) :
    NoNewDirty s.md r.1.md := by
  cases cb with
  | readGeneric =>
    simp only [call] at h
    split at h
    · cases h
      exact noNewDirty_of_eq rfl
    · exact callPrepared_noNewDirty h
  | writeWt | writeWb =>
    simp only [call] at h
    exact callPrepared_noNewDirty h
  | readWo | writeWi =>
    cases h
    exact noNewDirty_of_eq rfl
  | readPt | readFast | writeWa | writeFast =>
    simp only [call] at h
    split at h
    · cases h
      exact noNewDirty_of_eq rfl
    · cases h
      exact noNewDirty_of_eq rfl

theorem purge_noNewDirty : NoNewDirty s.md (purge cfg s f ch).1.md :=
  fun x b hb => (((purgeMapInfo_spec _ _ _ _).2.2.1 x b).mp hb).1

theorem writeWtUpdateBits_noNewDirty (g : Geometry) (m : Marked) (req : Request) :
    NoNewDirty m.md (ocfWriteWtUpdateBits g m req).md := by
  have hvalid : NoNewDirty m.md (if ocfEngineIsMiss g req then
      { m with md := ocfSetValidMapInfo g req m.md } else m).md := by
    split
    · exact noNewDirty_of_eq (setValidMapInfo_spec _ _ m.md).1.dirty
    · exact noNewDirty_of_eq rfl
  intro x b hb
  simp only [ocfWriteWtUpdateBits] at hb
  rw [(rePart_same _ _ _).2.2.2] at hb
  split at hb
  · exact hvalid x b (((setCleanMapInfo_spec _ _ _).2.2 x b).mp hb).1
  · exact hvalid x b hb

theorem run_noNewDirty (h : Handler) : NoNewDirty s.md (run cfg s f ch h).1.md := by
  have hpart : NoNewDirty s.md (rePart cfg.g s.md f.req) := noNewDirty_of_eq (rePart_same _ _ _).2.2.2
  have hsame : NoNewDirty s.md s.md := noNewDirty_of_eq rfl
  have hpurge : NoNewDirty s.md (purge cfg s f ch).1.md := purge_noNewDirty
  cases h with
  | readGenericDo | readPtDo | readWoDo | readFastDo =>
    simp only [run]
    split_ifs <;> first | exact hpart | exact hsame
  | writeWbDo => exact hpart
  | writeWtDo =>
    simp only [run]
    split
    · exact hsame
    · exact writeWtUpdateBits_noNewDirty cfg.g (.ofReq s.md f.req) f.req
  | writeWiCoreWrite =>
    simp only [run]
    split_ifs <;> exact hsame
  | writeWiUpdateAndFlushMetadata =>
    simp only [run, ocfWriteWiNextPass, ocfWriteWiIoFlushMetadata]
    split
    · split <;> exact hsame
    · split
      · exact hpurge
      · split <;> exact hpurge
  | discardStepDo =>
    simp only [run]
    split
    · exact hsame
    · split <;> exact hpurge
  | cleanerCheckMap => exact hsame

theorem clean_noNewDirty (back : Option CleanFirst) (stage : CleanStage) :
    NoNewDirty s.md (clean cfg s f ch back stage).1.md := by
  have hsame : NoNewDirty s.md s.md := noNewDirty_of_eq rfl
  have hend : ∀ f' : Flight D, NoNewDirty s.md (cleanEnd s f' back).1.md := by
    intro f'
    cases back with
    | none => exact hsame
    | some h =>
      simp only [cleanEnd]
      split <;> exact hsame
  cases stage with
  | checkMap =>
    simp only [clean]
    split
    · exact hsame
    · exact hend _
  | fireFlushCache => exact hend _
  | updateMetadata =>
    exact fun x b hb => (((cleanerUpdateMetadata_spec _ _).2.1 x b).mp hb).1
  | fireCache | fireCore | fireFlushCore =>
    simp only [clean]
    split <;> exact hsame

theorem writeWt_md (cacheDone coreDone : Bool) :
    (writeWt cfg s f ch cacheDone coreDone).1.md = s.md := by
  have hdone : ∀ (s' : Shared D) (f' : Flight D), (ocfWriteWtReqComplete s' f').1.md = s'.md := by
    intro s' f'
    unfold ocfWriteWtReqComplete
    split
    · rfl
    · split <;> rfl
  unfold writeWt
  split
  · cases coreDone
    · rfl
    · exact hdone _ _
  · cases cacheDone
    · rfl
    · exact hdone _ _

theorem step_noNewDirty (h : step cfg s f ch = some r)
    (hpc : f.pc ≠ .writeWbFlushMetadata) : NoNewDirty s.md r.1.md := by
  have hsame : NoNewDirty s.md s.md := noNewDirty_of_eq rfl
  cases hp : f.pc with
  | call cb =>
    simp only [step, hp] at h
    exact call_noNewDirty h
  | run hd =>
    simp only [step, hp, Option.some.injEq] at h
    subst h
    exact run_noNewDirty hd
  | clean stage back =>
    simp only [step, hp, Option.some.injEq] at h
    subst h
    exact clean_noNewDirty back stage
  | writeWt cacheDone coreDone =>
    simp only [step, hp, Option.some.injEq] at h
    subst h
    exact noNewDirty_of_eq (by rw [writeWt_md])
  | writeWbFlushMetadata => exact absurd hp hpc
  | writeWtFlushMetadata =>
    have hbits := writeWtUpdateBits_noNewDirty cfg.g (.ofReq s.md f.req) f.req
    simp only [step, hp] at h
    split at h
    · cases h
      exact hbits
    · cases h
      exact hbits
  | flush k =>
    simp only [step, hp, Option.some.injEq] at h
    subst h
    cases k with
    | wi =>
      simp only [flushed, ocfWriteWiIoFlushMetadata]
      split <;> exact hsame
    | _ => exact hsame
  | writeWiNextPass =>
    simp only [step, hp, Option.some.injEq] at h
    subst h
    simp only [ocfWriteWiNextPass]
    split <;> exact hsame
  | invalidateDo =>
    simp only [step, hp, Option.some.injEq] at h
    subst h
    exact purge_noNewDirty
  | backfillUpdateMetadata =>
    simp only [step, hp, Option.some.injEq] at h
    subst h
    exact noNewDirty_of_eq (setValidMapInfo_spec _ _ s.md).1.dirty
  | discardCore =>
    simp only [step, hp, ocfDiscardCoreComplete] at h
    split at h
    · cases h
      split
      · exact hsame
      · split <;> exact hsame
    · cases h
      exact hsame
  | done => simp [step, hp] at h
  | wait | readPt | readWoCache | cleanerFire | discardStep | discardFlushCache =>
    simp only [step, hp, Option.some.injEq] at h
    subst h
    exact hsame
  | refresh | readHit | readMiss | readWoCore | writeWb | writeWi | backfillDo | backfill =>
    simp only [step, hp] at h
    split at h
    · cases h
      exact hsame
    · cases h
      exact hsame

end Metadata

section Steps

variable {D : Type*} {cfg : Config} {s : Shared D} {f : Flight D} {ch : Choice D}

variable {r : Next D}

/-- A write-back that makes a block dirty goes on to flush metadata, with its
reference. -/
theorem writeWb_newDirty (h : step cfg s f ch = some r)
    (hpc : f.pc = .writeWbFlushMetadata) {x b : Nat} (hold : s.md.dirty x b = false)
    (hnew : r.1.md.dirty x b = true) :
    r.2.dirty = f.dirty ∧ r.2.outcome = f.outcome ∧ r.1.dirtyRefs = s.dirtyRefs := by
  have hmarks := writeWbUpdateBits_marks cfg.g f.req (.ofReq s.md f.req)
  simp only [step, hpc] at h
  split at h
  · cases h
    exact ⟨rfl, rfl, rfl⟩
  · rename_i hflush
    cases h
    have hchange := hmarks.change x ⟨b, by
      have hd : (Marked.ofReq s.md f.req).md.dirty x b = false := hold
      rw [hd]
      exact fun heq => Bool.false_ne_true (heq.symm.trans hnew)⟩
    exact absurd hchange.1 hflush

/-- The part of a write-invalidate behind its core write. -/
def behindCoreWrite : Pc → Bool
  | .wait _ h | .refresh h | .run h => h == .writeWiUpdateAndFlushMetadata
  | .flush .wi | .writeWiNextPass => true
  | _ => false

/-- The second pass of a write-invalidate is all behind its core write. -/
def SecondPass (f : Flight D) : Prop :=
  f.wiSecondPass = true →
    behindCoreWrite f.pc = true ∨ f.pc = .call .writeWi ∨ f.pc = .done

/-- A write of a mode that is not lazy has its data on the core. -/
inductive Landed (f : Flight D) : Prop
  | done : f.outcome = some true → Landed f
  | behind : behindCoreWrite f.pc = true → Landed f
  | nextPass : f.pc = .call .writeWi → f.wiSecondPass = true → Landed f
  | through (c : Bool) : f.pc = .writeWt c true → f.coreError = false → Landed f
  | flush : f.pc = .writeWtFlushMetadata ∨ f.pc = .flush .wt → Landed f

/-- The core blocks of the request hold its data. -/
def OnCore (s : Shared D) (f : Flight D) : Prop :=
  ∀ j < f.req.blocks, s.coreDev f.req.coreId (f.req.addr + j) = f.data j

theorem onCore_coreWrite (data : Nat → D) (req : Request) (dev : Nat → Nat → D) :
    ∀ j < req.blocks, coreWrite data dev req req.coreId (req.addr + j) = data j := by
  intro j hj
  simp [coreWrite, hj]

theorem not_landed {f : Flight D} (ho : f.outcome ≠ some true) (hb : behindCoreWrite f.pc = false)
    (hc : f.pc = .call .writeWi → f.wiSecondPass = false)
    (ht : ∀ c, f.pc = .writeWt c true → f.coreError = true)
    (hf : f.pc ≠ .writeWtFlushMetadata ∧ f.pc ≠ .flush .wt) : ¬Landed f := by
  rintro (h | h | ⟨h, h'⟩ | ⟨c, h, h'⟩ | (h | h))
  · exact ho h
  · rw [hb] at h
    cases h
  · rw [hc h] at h'
    cases h'
  · rw [ht c h] at h'
    cases h'
  · exact hf.1 h
  · exact hf.2 h

/-- What a step of a write without a lazy mode does to its core write. -/
def Advances (s : Shared D) (f : Flight D) (r : Next D) : Prop :=
  SecondPass r.2 ∧ (Landed r.2 → (Landed f ∧ r.1.coreDev = s.coreDev) ∨
    r.1.coreDev = coreWrite f.data s.coreDev f.req)

/-- Nothing is on the core at this place. -/
def beforeCoreWrite : Pc → Bool
  | .writeWt _ true | .writeWtFlushMetadata | .flush .wt => false
  | pc => !behindCoreWrite pc

theorem advances_before (hw : f.wiSecondPass = false) (ho : r.2.outcome ≠ some true)
    (hw' : r.2.wiSecondPass = f.wiSecondPass) (hb : beforeCoreWrite r.2.pc = true) :
    Advances s f r := by
  have hnot : ∀ pc, beforeCoreWrite pc = false → r.2.pc ≠ pc := by
    rintro pc hpc rfl
    exact absurd (hb.symm.trans hpc) Bool.false_ne_true.symm
  have hbehind : behindCoreWrite r.2.pc = false := by
    unfold beforeCoreWrite at hb
    split at hb
    all_goals simp_all
  rw [hw] at hw'
  exact ⟨fun h => absurd (hw'.symm.trans h) Bool.false_ne_true,
    fun h => absurd h (not_landed ho hbehind (fun _ => hw') (fun c h => absurd h (hnot _ rfl))
      ⟨hnot _ rfl, hnot _ rfl⟩)⟩

theorem advances_behind (hl : Landed f) (hc : r.1.coreDev = s.coreDev)
    (hs : SecondPass r.2) : Advances s f r :=
  ⟨hs, fun _ => .inl ⟨hl, hc⟩⟩

/-- Places of the first pass only. -/
def firstPass : Pc → Bool
  | .call .writeWi | .done => false
  | pc => !behindCoreWrite pc

theorem SecondPass.first {f : Flight D} {pc : Pc} (h : SecondPass f) (hpc : f.pc = pc)
    (hp : firstPass pc = true) : f.wiSecondPass = false := by
  rw [← hpc] at hp
  cases hw : f.wiSecondPass with
  | false => rfl
  | true =>
    rcases h hw with h | h | h
    · unfold firstPass at hp
      split at hp
      all_goals simp_all
    · rw [h] at hp
      cases hp
    · rw [h] at hp
      cases hp

variable (cfg f ch) in
theorem asyncLock_fields (rw : Dir) (refresh : Bool) (h : Handler) :
    ((asyncLock cfg f ch rw refresh h).pc = .run h ∨
        (asyncLock cfg f ch rw refresh h).pc = .wait refresh h) ∧
      (asyncLock cfg f ch rw refresh h).outcome = f.outcome ∧
      (asyncLock cfg f ch rw refresh h).wiSecondPass = f.wiSecondPass := by
  unfold asyncLock
  split
  · exact ⟨.inl rfl, rfl, rfl⟩
  · exact ⟨.inr rfl, rfl, rfl⟩

variable (cfg f ch) in
theorem asyncLockMapped_fields (rw : Dir) (refresh : Bool) (h : Handler) :
    ((asyncLockMapped cfg f ch rw refresh h).pc = .run h ∨
        (asyncLockMapped cfg f ch rw refresh h).pc = .wait refresh h) ∧
      (asyncLockMapped cfg f ch rw refresh h).outcome = f.outcome ∧
      (asyncLockMapped cfg f ch rw refresh h).wiSecondPass = f.wiSecondPass := by
  unfold asyncLockMapped
  split
  · exact asyncLock_fields cfg f ch rw refresh h
  · exact ⟨.inl rfl, rfl, rfl⟩

theorem advances_locked (h : Handler) {refresh : Bool} (hw : f.wiSecondPass = false)
    (ho : f.outcome = none) (hh : h ≠ .writeWiUpdateAndFlushMetadata)
    (hpc : r.2.pc = .run h ∨ r.2.pc = .wait refresh h) (ho' : r.2.outcome = f.outcome)
    (hw' : r.2.wiSecondPass = f.wiSecondPass) : Advances s f r := by
  have hout : r.2.outcome ≠ some true := by rw [ho', ho]; nofun
  rcases hpc with hpc | hpc
  · exact advances_before hw hout hw' (by simp [hpc, beforeCoreWrite, behindCoreWrite, hh])
  · exact advances_before hw hout hw' (by simp [hpc, beforeCoreWrite, behindCoreWrite, hh])

variable {s' : Shared D} {f' : Flight D}

theorem advances_restart (cb : EngineCb)
    (hw : f.wiSecondPass = false) (ho : f.outcome = none) (ho' : f'.outcome = f.outcome)
    (hw' : f'.wiSecondPass = f.wiSecondPass) : Advances s f (s', restart f' cb) :=
  advances_before hw (by simp [restart, ho', ho]) hw' rfl

theorem call_advances {cb : EngineCb} (h : call cfg s f ch cb = some r)
    (hpc : f.pc = .call cb) (hcb : cbPath cb = .fast ∨ cbPath cb = .direct) (hs : SecondPass f)
    (ho : f.outcome = none) : Advances s f r := by
  have hfirst : cb ≠ .writeWi → f.wiSecondPass = false := fun hne =>
    hs.first hpc (by cases cb <;> first | rfl | exact absurd rfl hne)
  cases cb with
  | writeWt =>
    have hw := hfirst (by simp)
    obtain ⟨q, -, hr⟩ := Option.map_eq_some_iff.mp h
    rw [← hr]
    split
    · obtain ⟨hp, ho', hw'⟩ := asyncLock_fields cfg { f with req := q.2.1 } ch
        (lockClines cfg.g q.2.1) true .writeWtDo
      exact advances_locked .writeWtDo hw ho (by simp) hp ho' hw'
    · exact advances_restart _ hw ho rfl rfl
  | writeWa =>
    have hw := hfirst (by simp)
    simp only [call] at h
    split at h
    · cases h
      exact advances_restart _ hw ho rfl rfl
    · cases h
      exact advances_restart _ hw ho rfl rfl
  | writeFast =>
    have hw := hfirst (by simp)
    simp only [call] at h
    split at h
    · cases h
      obtain ⟨hp, ho', hw'⟩ := asyncLock_fields cfg (looked cfg s f) ch .write true .writeWbDo
      exact advances_locked .writeWbDo hw ho (by simp) hp ho' hw'
    · cases h
      exact advances_restart _ hw ho rfl rfl
  | writeWi =>
    cases hw : f.wiSecondPass with
    | true =>
      simp only [call, hw, if_true, Option.some.injEq] at h
      obtain ⟨hp, -, -⟩ := asyncLockMapped_fields cfg (looked cfg s f) ch
        .write false .writeWiUpdateAndFlushMetadata
      have hpc' : r.2.pc = .run .writeWiUpdateAndFlushMetadata ∨
          r.2.pc = .wait false .writeWiUpdateAndFlushMetadata := by
        rw [← h]
        exact hp
      refine advances_behind (.nextPass hpc hw) (by rw [← h]) fun _ => .inl ?_
      rcases hpc' with hp | hp
      · rw [hp]
        rfl
      · rw [hp]
        rfl
    | false =>
      simp only [call, hw, Bool.false_eq_true, if_false, Option.some.injEq] at h
      obtain ⟨hp, ho', hw'⟩ := asyncLockMapped_fields cfg (looked cfg s f) ch
        .write false .writeWiCoreWrite
      rw [← h]
      exact advances_locked .writeWiCoreWrite hw ho (by simp) hp ho' hw'
  | readGeneric | readPt | readWo | readFast | writeWb => simp [cbPath] at hcb

theorem behind_nextPass (hl : Landed f)
    (hc : s'.coreDev = s.coreDev) : Advances s f (ocfWriteWiNextPass s' f') := by
  unfold ocfWriteWiNextPass
  split
  · exact advances_behind hl hc fun _ => .inr (.inr rfl)
  · exact advances_behind hl hc fun _ => .inr (.inl rfl)

theorem behind_ioFlushMetadata (hl : Landed f)
    (hc : s'.coreDev = s.coreDev) : Advances s f (ocfWriteWiIoFlushMetadata cfg s' f') := by
  unfold ocfWriteWiIoFlushMetadata
  split
  · exact advances_behind hl hc fun _ => .inl rfl
  · exact advances_behind hl hc fun _ => .inr (.inr rfl)

theorem run_advances {h : Handler} (hpc : f.pc = .run h) (hh : handlerPath h = .direct)
    (hs : SecondPass f) (ho : f.outcome = none) : Advances s f (run cfg s f ch h) := by
  have hout : f.outcome ≠ some true := by rw [ho]; simp
  have hfirst : h ≠ .writeWiUpdateAndFlushMetadata → f.wiSecondPass = false := fun hne =>
    hs.first hpc (by simp [firstPass, behindCoreWrite, hne])
  cases h with
  | writeWtDo | writeWiCoreWrite =>
    have hw := hfirst (by simp)
    simp only [run]
    split
    · exact advances_before hw hout rfl rfl
    · exact advances_before hw hout rfl rfl
  | writeWiUpdateAndFlushMetadata =>
    have hl : Landed f := .behind (by rw [hpc]; rfl)
    simp only [run]
    split
    · exact behind_nextPass hl rfl
    · split
      · exact advances_behind hl rfl fun _ => .inl rfl
      · exact behind_ioFlushMetadata hl rfl
  | readGenericDo | readPtDo | readWoDo | readFastDo | writeWbDo | discardStepDo
  | cleanerCheckMap => simp [handlerPath] at hh

theorem writeWtReqComplete_advances (hw : f.wiSecondPass = false)
    (hw' : f'.wiSecondPass = f.wiSecondPass)
    (h : f'.coreError = false → (Landed f ∧ s'.coreDev = s.coreDev) ∨
      s'.coreDev = coreWrite f.data s.coreDev f.req) :
    Advances s f (ocfWriteWtReqComplete s' f') := by
  have hsec : ∀ g : Flight D, g.wiSecondPass = f'.wiSecondPass → SecondPass g := by
    intro g hg h
    rw [hg, hw', hw] at h
    cases h
  simp only [ocfWriteWtReqComplete]
  split
  · refine ⟨hsec _ rfl, fun hl => ?_⟩
    cases hce : f'.coreError with
    | false => exact h hce
    | true =>
      refine absurd hl (not_landed ?_ rfl nofun nofun ⟨nofun, nofun⟩)
      simp [complete, hce]
  · rename_i hok
    have hce : f'.coreError = false := by
      simp only [Bool.or_eq_true, not_or, Bool.not_eq_true] at hok
      exact hok.2
    split
    · exact ⟨hsec _ rfl, fun _ => h hce⟩
    · exact ⟨hsec _ rfl, fun _ => h hce⟩

theorem writeWt_advances {cacheDone coreDone : Bool} (hpc : f.pc = .writeWt cacheDone coreDone)
    (hs : SecondPass f) (ho : f.outcome = none) :
    Advances s f (writeWt cfg s f ch cacheDone coreDone) := by
  have hw : f.wiSecondPass = false :=
    hs.first hpc rfl
  have hout : f.outcome ≠ some true := by rw [ho]; nofun
  unfold writeWt
  split
  · cases coreDone with
    | false => exact advances_before hw hout rfl rfl
    | true =>
      exact writeWtReqComplete_advances hw rfl fun hce => .inl ⟨.through cacheDone hpc hce, rfl⟩
  · have hcore : (f.coreError || !ch.ok) = false → coreWrite (if ch.ok then f.data else ch.garbage)
        s.coreDev f.req = coreWrite f.data s.coreDev f.req := by
      intro hce
      simp only [Bool.or_eq_false_iff, Bool.not_eq_false'] at hce
      rw [if_pos hce.2]
    cases cacheDone with
    | true => exact writeWtReqComplete_advances hw rfl fun hce => .inr (hcore hce)
    | false =>
      refine ⟨fun h => absurd (hw.symm.trans h) Bool.false_ne_true, fun hl => .inr ?_⟩
      cases hce : (f.coreError || !ch.ok) with
      | false => exact hcore hce
      | true => exact absurd hl (not_landed hout rfl nofun (fun c _ => hce) ⟨nofun, nofun⟩)

theorem clean_advances {stage : CleanStage} {h : CleanFirst}
    (hpc : f.pc = .clean stage (some h)) (hs : SecondPass f) (ho : f.outcome = none) :
    Advances s f (clean cfg s f ch (some h) stage) := by
  have hw : f.wiSecondPass = false :=
    hs.first hpc rfl
  have hout : f.outcome ≠ some true := by rw [ho]; simp
  have hend : ∀ f' : Flight D, f'.outcome = f.outcome → f'.wiSecondPass = f.wiSecondPass →
      Advances s f (cleanEnd s f' (some h)) := by
    intro f' ho' hw'
    simp only [cleanEnd]
    split
    · exact advances_before hw (by simp [finish, complete]) hw' rfl
    · refine advances_before hw (by rw [ho', ho]; simp) hw' ?_
      cases h <;> rfl
  cases stage with
  | checkMap =>
    simp only [clean]
    split
    · exact advances_before hw hout rfl rfl
    · exact hend _ rfl rfl
  | fireFlushCache => exact hend f rfl rfl
  | updateMetadata => exact advances_before hw hout rfl rfl
  | fireCache | fireCore | fireFlushCore =>
    simp only [clean]
    split
    · exact advances_before hw hout rfl rfl
    · exact advances_before hw hout rfl rfl

theorem path_of_behind {pc : Pc} (h : behindCoreWrite pc = true) : pcPath pc = .direct := by
  cases pc with
  | wait _ hd | refresh hd | run hd =>
    simp only [behindCoreWrite, beq_iff_eq] at h
    subst h
    rfl
  | flush k => cases k <;> first | rfl | cases h
  | writeWiNextPass => rfl
  | _ => cases h

theorem advances_ended {pc : Pc} (hs : SecondPass f) (hpc : f.pc = pc)
    (hp : firstPass pc = true) (ho : r.2.outcome = f.outcome) (hw : r.2.wiSecondPass = f.wiSecondPass)
    (hc' : r.1.coreDev = s.coreDev) (hpc' : pcPath r.2.pc = .ended) : Advances s f r := by
  have hfirst := hs.first hpc hp
  refine ⟨fun h => absurd (hfirst.symm.trans (hw.symm.trans h)) Bool.false_ne_true, fun hl => ?_⟩
  refine .inl ⟨.done ?_, hc'⟩
  rw [← ho]
  by_contra hout
  refine absurd hl (not_landed hout ?_ ?_ ?_ ⟨?_, ?_⟩)
  · rw [← Bool.not_eq_true]
    intro h
    rw [path_of_behind h] at hpc'
    cases hpc'
  · intro h
    simp [h, pcPath, cbPath] at hpc'
  · intro c h
    simp [h, pcPath] at hpc'
  · intro h
    simp [h, pcPath] at hpc'
  · intro h
    simp [h, pcPath] at hpc'

/-- Every step of a write without a lazy mode puts its data on the core or
leaves alone what it has put there. -/
theorem step_advances (h : step cfg s f ch = some r)
    (hp : pcPath f.pc = .fast ∨ pcPath f.pc = .direct ∨ pcPath f.pc = .ended)
    (hs : SecondPass f) (ho : pcPath f.pc ≠ .ended → f.outcome = none) : Advances s f r := by
  cases hpc : f.pc with
  | call cb =>
    rw [hpc] at hp ho
    simp only [step, hpc] at h
    refine call_advances h hpc ?_ hs (ho ?_)
    · cases cb <;> simp_all [pcPath, cbPath]
    · cases cb <;> simp [pcPath, cbPath]
  | wait refresh hd =>
    rw [hpc] at hp ho
    have hnone := ho (by cases hd <;> simp [pcPath, handlerPath])
    simp only [step, hpc, Option.some.injEq] at h
    subst h
    by_cases hh : hd = .writeWiUpdateAndFlushMetadata
    · subst hh
      refine advances_behind (.behind (by rw [hpc]; rfl)) rfl fun _ => .inl ?_
      cases refresh <;> rfl
    · have hw := hs.first hpc (by simp [firstPass, behindCoreWrite, hh])
      refine advances_before hw (by simp [hnone]) rfl ?_
      cases refresh <;> simp [beforeCoreWrite, behindCoreWrite, hh]
  | refresh hd =>
    rw [hpc] at hp ho
    have hnone := ho (by cases hd <;> simp [pcPath, handlerPath])
    by_cases hh : hd = .writeWiUpdateAndFlushMetadata
    · subst hh
      have hl : Landed f := .behind (by rw [hpc]; rfl)
      simp only [step, hpc] at h
      split at h
      · cases h
        exact advances_behind hl rfl fun _ => .inr (.inr rfl)
      · cases h
        exact advances_behind hl rfl fun _ => .inl rfl
    · have hw := hs.first hpc (by simp [firstPass, behindCoreWrite, hh])
      simp only [step, hpc] at h
      split at h
      · cases h
        exact advances_before hw (by simp [finish, complete]) rfl rfl
      · cases h
        exact advances_before hw (by simp [hnone]) rfl (by simp [beforeCoreWrite, behindCoreWrite, hh])
  | run hd =>
    rw [hpc] at hp ho
    have hnone := ho (by cases hd <;> simp [pcPath, handlerPath])
    simp only [step, hpc, Option.some.injEq] at h
    subst h
    refine run_advances hpc ?_ hs hnone
    cases hd <;> simp_all [pcPath, handlerPath]
  | writeWt cacheDone coreDone =>
    rw [hpc] at ho
    simp only [step, hpc, Option.some.injEq] at h
    subst h
    exact writeWt_advances hpc hs (ho (fun h => by cases h))
  | writeWtFlushMetadata =>
    have hw := hs.first hpc rfl
    have hsec : ∀ g : Flight D, g.wiSecondPass = f.wiSecondPass → SecondPass g :=
      fun g hg h => absurd (hw.symm.trans (hg.symm.trans h)) Bool.false_ne_true
    simp only [step, hpc] at h
    split at h
    · cases h
      exact advances_behind (.flush (.inl hpc)) rfl (hsec _ rfl)
    · cases h
      exact advances_behind (.flush (.inl hpc)) rfl (hsec _ rfl)
  | writeWi =>
    have hw := hs.first hpc rfl
    simp only [step, hpc] at h
    split at h
    · cases h
      exact ⟨fun h => absurd (hw.symm.trans h) Bool.false_ne_true, fun _ => .inr rfl⟩
    · cases h
      exact advances_before hw (by simp [finish, complete]) rfl rfl
  | writeWiNextPass =>
    simp only [step, hpc, Option.some.injEq] at h
    subst h
    exact behind_nextPass (.behind (by rw [hpc]; rfl)) rfl
  | flush k =>
    rw [hpc] at hp ho
    simp only [step, hpc, Option.some.injEq] at h
    subst h
    cases k with
    | wt =>
      have hw := hs.first hpc rfl
      exact advances_behind (.flush (.inr hpc)) rfl
        fun h => absurd (hw.symm.trans h) Bool.false_ne_true
    | wi => exact behind_ioFlushMetadata (.behind (by rw [hpc]; rfl)) rfl
    | clean back =>
      have hw := hs.first hpc rfl
      have hnone := ho (by rcases back with _ | (_ | _ | _) <;> simp [pcPath, backPath, handlerPath,
        CleanFirst.handler])
      exact advances_before hw (by simp [flushed, hnone]) rfl rfl
    | wb | discard => simp [pcPath] at hp
  | clean stage back =>
    rw [hpc] at hp ho
    simp only [step, hpc, Option.some.injEq] at h
    subst h
    cases back with
    | none => simp [pcPath, backPath] at hp
    | some hd =>
      refine clean_advances hpc hs (ho ?_)
      cases hd <;> simp [pcPath, backPath, handlerPath, CleanFirst.handler]
  | backfillDo | backfill =>
    simp only [step, hpc] at h
    split at h
    · cases h
      exact advances_ended hs hpc rfl rfl rfl rfl rfl
    · cases h
      exact advances_ended hs hpc rfl rfl rfl rfl rfl
  | backfillUpdateMetadata | invalidateDo =>
    simp only [step, hpc, Option.some.injEq] at h
    subst h
    exact advances_ended hs hpc rfl rfl rfl rfl rfl
  | done => simp [step, hpc] at h
  | readHit | readMiss | readPt | readWoCore | readWoCache | writeWb | writeWbFlushMetadata
  | cleanerFire | discardCore | discardStep | discardFlushCache =>
    rw [hpc] at hp
    simp [pcPath] at hp

end Steps

section Runs

variable {D : Type*} (cfg : Config)

/-- The fast path finds all lines of the write mapped and room in its
partition. -/
def fastTakes (s : Shared D) (f : Flight D) : Bool :=
  ocfEngineIsMapped cfg.g (ocfEngineLookup cfg.g s.md f.req) &&
    ocfUserPartHasSpace cfg s (ocfEngineLookup cfg.g s.md f.req)

/-- A write on the fast path has a lazy mode, or the fast path declines it. -/
def FastOnlyLazy (s : Shared D) (f : Flight D) : Prop :=
  f.pc = .call .writeFast → ocfReqCacheModeHasLazyWrite f.mode = true ∨ fastTakes cfg s f = false

/-- Steps of all requests under a condition; steps of others leave alone the
core blocks that request `k` writes. -/
def stepGuard (k : Nat) (cond : Shared D → Flight D → Prop) (st : State D) : Action D → Prop
  | .step i ch => ∀ f, st.flights[i]? = some f → cond st.shared f ∧
    (i ≠ k → ∀ w r, st.flights[k]? = some w → step cfg st.shared f ch = some r →
      ∀ j < w.req.blocks, r.1.coreDev w.req.coreId (w.req.addr + j) =
        st.shared.coreDev w.req.coreId (w.req.addr + j))
  | _ => True

/-- A write of the user that was resolved to a mode. -/
def IsWrite (f : Flight D) (lazy : Bool) : Prop :=
  f.kind = .io ∧ f.req.rw = .write ∧ ocfReqCacheModeHasLazyWrite f.mode = lazy

/-- Dirty data only by lazy writes that hold a reference, and the data of
request `k` on the core when it succeeds in another mode. -/
structure DirtyDiscipline (k : Nat) (st : State D) : Prop where
  /-- A block becomes dirty only by a lazy write that holds a reference before
  and after, and is not completed. -/
  newDirty : ∀ (i : Nat) f ch r, st.flights[i]? = some f → step cfg st.shared f ch = some r →
    ∀ x b, st.shared.md.dirty x b = false → r.1.md.dirty x b = true →
      IsWrite f true ∧ f.dirty = true ∧ f.outcome = none ∧ 0 < st.shared.dirtyRefs ∧
        r.2.dirty = true ∧ r.2.outcome = none ∧ 0 < r.1.dirtyRefs
  /-- Lazy writes hold a reference until they complete. -/
  reference : ∀ f ∈ st.flights, IsWrite f true → f.outcome = none → f.dirty = true
  /-- The references are counted. -/
  counted : st.shared.dirtyRefs = st.flights.countP (·.dirty)
  /-- The data of a successful write of another mode is on the core. -/
  onCore : ∀ f, st.flights[k]? = some f → IsWrite f false → f.outcome = some true →
    OnCore st.shared f

/-- What the path of a request says about it. -/
def OnPath (f : Flight D) : Path → Prop
  | .read => f.kind = .io ∧ f.req.rw = .read ∧ f.outcome = none
  | .fast | .direct => f.kind = .io ∧ f.req.rw = .write ∧ f.outcome = none
  | .lazy => IsWrite f true ∧ f.outcome = none
  | .discard => f.kind = .discard
  | .clean => f.kind = .cleaner
  | .ended => True

/-- Invariant of a request. -/
structure FlightInv (f : Flight D) : Prop where
  /-- The path fits. -/
  path : OnPath f (pcPath f.pc)
  /-- Lazy writes hold a reference. -/
  reference : IsWrite f true → f.outcome = none → f.dirty = true

/-- Invariant of the core write of a request. -/
def CoreInv (s : Shared D) (f : Flight D) : Prop :=
  IsWrite f false → SecondPass f ∧ (Landed f → OnCore s f)

/-- Invariant of the system. -/
structure Inv (k : Nat) (st : State D) : Prop where
  /-- Every request. -/
  flights : ∀ f ∈ st.flights, FlightInv f
  /-- The references are counted. -/
  counted : st.shared.dirtyRefs = st.flights.countP (·.dirty)
  /-- The core write of request `k`. -/
  core : ∀ f, st.flights[k]? = some f → CoreInv st.shared f

variable {cfg} {s : Shared D} {f : Flight D} {ch : Choice D}

variable {r : Next D}

theorem writeFast_lazy (h : step cfg s f ch = some r) (hpc : f.pc = .call .writeFast)
    (hp : pcPath r.2.pc = .lazy) (hcond : FastOnlyLazy cfg s f) :
    ocfReqCacheModeHasLazyWrite f.mode = true := by
  rcases hcond hpc with hl | hl
  · exact hl
  · simp only [step, hpc, call] at h
    rw [if_neg (by simpa [fastTakes, looked] using hl)] at h
    cases h
    cases hm : f.mode <;> simp_all [restart, looked, ocfCacheModeToEngineCb, pcPath, cbPath,
      ocfReqCacheModeHasLazyWrite]

theorem path_fast {pc : Pc} (h : pcPath pc = .fast) : pc = .call .writeFast := by
  cases pc with
  | call cb => cases cb <;> first | rfl | cases h
  | wait _ hd | refresh hd | run hd => cases hd <;> cases h
  | flush k =>
    rcases k with _ | _ | _ | _ | (_ | (_ | _ | _)) <;> cases h
  | clean _ back => rcases back with _ | (_ | _ | _) <;> cases h
  | _ => cases h

/-- A step keeps what is known of the request alone. -/
theorem FlightInv.step (hi : FlightInv f) (h : EngineMachine.step cfg s f ch = some r)
    (hcond : FastOnlyLazy cfg s f) : FlightInv r.2 := by
  have hm := step_moves h
  have hkeep : ∀ {lazy}, IsWrite r.2 lazy ↔ IsWrite f lazy := by
    intro lazy
    simp only [IsWrite, hm.kind, hm.dir, hm.mode]
  have hout : pcPath r.2.pc ≠ .ended → r.2.outcome = f.outcome := by
    intro hne
    rcases hm.result with ⟨-, ho, -⟩ | ⟨hend, -⟩
    · exact ho
    · exact absurd hend hne
  refine ⟨?_, fun hw ho => ?_⟩
  · have hpath := hi.path
    have hnext := hm.path
    generalize hp' : pcPath r.2.pc = p' at hnext hout
    generalize hp : pcPath f.pc = p at hnext hpath
    cases hnext with
    | same =>
      cases p' with
      | ended => exact trivial
      | read | fast | direct =>
        exact ⟨hm.kind.trans hpath.1, hm.dir.trans hpath.2.1, (hout nofun).trans hpath.2.2⟩
      | lazy => exact ⟨hkeep.mpr hpath.1, (hout nofun).trans hpath.2⟩
      | discard | clean => exact hm.kind.trans hpath
    | ended => exact trivial
    | fastLazy =>
      exact ⟨hkeep.mpr ⟨hpath.1, hpath.2.1, writeFast_lazy h (path_fast hp) hp' hcond⟩,
        (hout nofun).trans hpath.2.2⟩
    | fastDirect =>
      exact ⟨hm.kind.trans hpath.1, hm.dir.trans hpath.2.1, (hout nofun).trans hpath.2.2⟩
    | lazyDirect =>
      exact ⟨hm.kind.trans hpath.1.1, hm.dir.trans hpath.1.2.1, (hout nofun).trans hpath.2⟩
  · rcases hm.result with ⟨hd, ho', -⟩ | ⟨-, -, ho', -⟩
    · exact hd.trans (hi.reference (hkeep.mp hw) (ho'.symm.trans ho))
    · exact absurd ho ho'

theorem CoreInv.step (hc : CoreInv s f) (hi : FlightInv f)
    (h : EngineMachine.step cfg s f ch = some r) : CoreInv r.1 r.2 := by
  intro hw
  have hm := step_moves h
  have hw' : IsWrite f false := by
    simp only [IsWrite, ← hm.kind, ← hm.dir, ← hm.mode]
    exact hw
  obtain ⟨hs, hl⟩ := hc hw'
  have hpath := hi.path
  have hp : pcPath f.pc = .fast ∨ pcPath f.pc = .direct ∨ pcPath f.pc = .ended := by
    obtain ⟨hk, hd, hm⟩ := hw'
    generalize pcPath f.pc = p at hpath
    cases p <;> simp_all [OnPath, IsWrite]
  have ho : pcPath f.pc ≠ .ended → f.outcome = none := by
    intro hne
    generalize pcPath f.pc = p at hpath hp hne
    rcases hp with rfl | rfl | rfl
    · exact hpath.2.2
    · exact hpath.2.2
    · exact absurd rfl hne
  obtain ⟨hs', hl'⟩ := step_advances h hp hs ho
  refine ⟨hs', fun hland => ?_⟩
  have hrange := hm.range (by rcases hp with h | h | h <;> rw [h] <;> nofun)
  have hdata := hm.data (by rcases hp with h | h | h <;> rw [h] <;> nofun)
  intro j hj
  rw [hrange.coreId, hrange.addr, hdata]
  rw [hrange.blocks] at hj
  rcases hl' hland with ⟨hlf, hdev⟩ | hdev
  · rw [hdev]
    exact hl hlf j hj
  · rw [hdev]
    exact onCore_coreWrite f.data f.req s.coreDev j hj

theorem counted_step {fs : List (Flight D)} {i : Nat} (hf : fs[i]? = some f)
    (h : step cfg s f ch = some r) (hc : s.dirtyRefs = fs.countP (·.dirty)) :
    r.1.dirtyRefs = (fs.set i r.2).countP (·.dirty) := by
  obtain ⟨hi, rfl⟩ := List.getElem?_eq_some_iff.mp hf
  have hpos : fs[i].dirty = true → 0 < fs.countP (·.dirty) := fun hd =>
    List.countP_pos_iff.mpr ⟨fs[i], List.getElem_mem hi, hd⟩
  rw [List.countP_set hi, ← hc]
  rcases (step_moves h).result with ⟨hd, -, hn⟩ | ⟨-, hd, -, hn⟩
  · rw [hd, hn]
    cases hd' : fs[i].dirty with
    | false => simp
    | true =>
      have := hpos hd'
      simp only [if_true]
      omega
  · rw [hd, hn]
    cases fs[i].dirty <;> simp

variable {k : Nat} {st : State D}

theorem inv_start (h : st.flights = []) (h' : st.shared.dirtyRefs = 0) : Inv k st := by
  refine ⟨?_, ?_, ?_⟩
  · simp [h]
  · simp [h, h']
  · simp [h]

theorem Inv.append (hi : Inv k st) {s' : Shared D} {f : Flight D}
    (hf : FlightInv f) (hs : s'.coreDev = st.shared.coreDev)
    (hn : s'.dirtyRefs = st.shared.dirtyRefs + f.dirty.toNat)
    (hw : f.wiSecondPass = false) (ho : f.outcome = none)
    (hpc : (∃ cb, f.pc = .call cb) ∨ f.pc = .discardCore ∨ f.pc = .cleanerFire) :
    Inv k ⟨s', st.flights ++ [f]⟩ := by
  refine ⟨fun x hx => ?_, ?_, fun x hx => ?_⟩
  · rcases List.mem_append.mp hx with hx | hx
    · exact hi.flights x hx
    · rw [List.mem_singleton.mp hx]
      exact hf
  · simp only [List.countP_append, hn, hi.counted, List.countP_singleton]
    cases f.dirty <;> rfl
  · simp only [List.getElem?_append] at hx
    split at hx
    · intro hwr
      obtain ⟨hs', hl⟩ := hi.core x hx hwr
      refine ⟨hs', fun h j hj => ?_⟩
      rw [hs]
      exact hl h j hj
    · obtain ⟨_, hxf⟩ := List.getElem?_eq_some_iff.mp hx
      simp only [List.getElem_singleton] at hxf
      subst hxf
      refine fun _ => ⟨fun h => absurd (hw.symm.trans h) Bool.false_ne_true, fun h => ?_⟩
      refine absurd h (not_landed (by simp [ho]) ?_ (fun _ => hw) ?_ ⟨?_, ?_⟩)
      all_goals rcases hpc with ⟨cb, hpc⟩ | hpc | hpc <;> simp [hpc, behindCoreWrite]

variable (cfg) in
theorem resolve_spec (set : Settings) (s : Shared D) {f : Flight D} (hd : f.dirty = false) :
    let r := ocfResolveEffectiveCacheMode cfg set s f
    r.2.kind = f.kind ∧ r.2.req = f.req ∧ r.2.outcome = f.outcome ∧
      r.2.wiSecondPass = f.wiSecondPass ∧ r.1.coreDev = s.coreDev ∧
      r.1.dirtyRefs = s.dirtyRefs + r.2.dirty.toNat ∧
      (r.2.req.rw = .write → ocfReqCacheModeHasLazyWrite r.2.mode = true → r.2.dirty = true) := by
  unfold ocfResolveEffectiveCacheMode
  have hpt : ∀ f' : Flight D, f'.mode = .pt → ocfReqCacheModeHasLazyWrite f'.mode = true →
      f'.dirty = true := by
    intro f' hm h
    rw [hm] at h
    cases h
  split_ifs with h1 h2 h3 h4 h5
  · exact ⟨rfl, rfl, rfl, rfl, rfl, by simp [hd], fun _ => hpt _ rfl⟩
  · exact ⟨rfl, rfl, rfl, rfl, rfl, by simp [hd], fun _ => hpt _ rfl⟩
  · exact ⟨rfl, rfl, rfl, rfl, rfl, by simp [hd], fun _ => hpt _ rfl⟩
  · exact ⟨rfl, rfl, rfl, rfl, rfl, by simp [hd], fun _ => hpt _ rfl⟩
  · exact ⟨rfl, rfl, rfl, rfl, rfl, by simp [hd], fun _ => hpt _ rfl⟩
  · simp only [ocfReqSetDirty]
    split
    · -- a lazy write takes its reference, or falls back to write-through
      cases hfr : s.dirtyFrozen with
      | true => exact ⟨rfl, rfl, rfl, rfl, rfl, rfl, fun _ h => by cases h⟩
      | false => exact ⟨rfl, rfl, rfl, rfl, rfl, rfl, fun _ _ => rfl⟩
    · rename_i hlazy
      refine ⟨rfl, rfl, rfl, rfl, rfl, by simp [hd], fun hw h => absurd ⟨hw, h⟩ hlazy⟩

/-- A step keeps the invariant of the system. -/
theorem Inv.next {st st' : State D} {act : Action D} (hi : Inv k st)
    (hg : stepGuard cfg k (FastOnlyLazy cfg) st act) (h : st.step cfg act = some st') :
    Inv k st' := by
  cases act with
  | submit set io =>
    cases h
    obtain ⟨hk, hr, ho, hw, hc, hn, hl⟩ := resolve_spec cfg set st.shared
      (f := newFlight .io io (ocfUserPartClass2id set io.ioClass) .done) rfl
    refine hi.append ⟨?_, fun h _ => hl h.2.1 h.2.2⟩ hc hn hw ho (.inl ⟨_, rfl⟩)
    simp only [ocfCoreVolumeSubmitIo]
    generalize ocfResolveEffectiveCacheMode cfg set st.shared
      (newFlight .io io (ocfUserPartClass2id set io.ioClass) .done) = r at hk hr ho ⊢
    obtain ⟨hread, hwrite⟩ := firstEngine_path cfg r.2.mode
    simp only [pcPath]
    cases hrw : r.2.req.rw with
    | read =>
      rw [hread]
      exact ⟨hk, hrw, ho⟩
    | write =>
      rcases hwrite with hp | hp
      · rw [hp]
        exact ⟨hk, hrw, ho⟩
      · rw [hp]
        exact ⟨hk, hrw, ho⟩
  | discard io =>
    obtain ⟨f, hf, hst⟩ := Option.map_eq_some_iff.mp h
    unfold ocfCoreVolumeSubmitDiscard at hf
    split at hf
    · cases hf
    · cases hf
      rw [← hst]
      exact hi.append ⟨rfl, fun h => by cases h.1⟩ rfl rfl rfl rfl (.inr (.inl rfl))
  | clean io lines =>
    cases h
    exact hi.append ⟨rfl, fun h => by cases h.1⟩ rfl rfl rfl rfl (.inr (.inr rfl))
  | freeze frozen =>
    cases h
    exact ⟨hi.flights, hi.counted, hi.core⟩
  | step i ch =>
    obtain ⟨f, s', f', hf, hstep, rfl⟩ := State.step_eq_some h
    obtain ⟨hcond, hother⟩ := hg f hf
    have hinv := hi.flights f (List.mem_of_getElem? hf)
    refine ⟨fun x hx => ?_, counted_step hf hstep hi.counted, fun x hx => ?_⟩
    · rcases List.mem_or_eq_of_mem_set hx with hx | rfl
      · exact hi.flights x hx
      · exact hinv.step hstep hcond
    · by_cases hik : i = k
      · subst hik
        have hxf : x = f' := by
          rw [List.getElem?_set_self (List.getElem?_eq_some_iff.mp hf).1] at hx
          exact (Option.some.inj hx).symm
        subst hxf
        exact (hi.core f hf).step hinv hstep
      · rw [List.getElem?_set_ne hik] at hx
        intro hw
        obtain ⟨hs, hl⟩ := hi.core x hx hw
        refine ⟨hs, fun hland j hj => ?_⟩
        rw [hother hik x _ hx hstep j hj]
        exact hl hland j hj

theorem Inv.discipline (hi : Inv k st) : DirtyDiscipline cfg k st := by
  refine ⟨fun i f ch r hf h x b hold hnew => ?_, fun f hf => (hi.flights f hf).reference,
    hi.counted, fun f hf hw ho => (hi.core f hf hw).2 (.done ho)⟩
  have hmem := List.mem_of_getElem? hf
  have hpc : f.pc = .writeWbFlushMetadata := by
    by_contra hne
    have := step_noNewDirty h hne x b hnew
    rw [hold] at this
    cases this
  have hpath := (hi.flights f hmem).path
  rw [hpc] at hpath
  obtain ⟨hw, ho⟩ := hpath
  have hd := (hi.flights f hmem).reference hw ho
  have hpos : 0 < st.shared.dirtyRefs := by
    rw [hi.counted]
    exact List.countP_pos_iff.mpr ⟨f, hmem, hd⟩
  obtain ⟨hd', ho', hn'⟩ := writeWb_newDirty h hpc hold hnew
  exact ⟨hw, hd, ho, hpos, hd'.trans hd, ho'.trans ho, by rw [hn']; exact hpos⟩

/-- In every run in which the fast path takes lazy writes only, blocks become
dirty only by lazy writes that hold a reference, and a successful write of any
other mode has its data on the core. -/
theorem dirtyDiscipline_run (cfg : Config) (k : Nat) {start st : State D}
    (h0 : start.flights = []) (hrefs : start.shared.dirtyRefs = 0)
    (hrun : Reachable (engines cfg (stepGuard cfg k (FastOnlyLazy cfg))) start st) :
    DirtyDiscipline cfg k st :=
  Inv.discipline (hrun.invariant (fun _ => inv_start h0 hrefs)
    fun _ _ _ hi _ hg hs _ => hi.next hg hs)

end Runs

section Examples

open EngineRecheck

/-- A cache with `use_submit_io_fast`. -/
def fastConfig : Config := ⟨smallGeometry, 64, true, fun _ => 128, 256, 8⟩

/-- Line 5 holds core line 0 of core 0, all of it valid and clean. -/
def cleanTable : LineTable :=
  { partialTable with valid := fun l b => decide (l = 5 ∧ b < 8), dirty := fun _ _ => false }

/-- The cache with a frozen counter and no requests. -/
def frozenStart : State Nat where
  shared := ⟨cleanTable, fun x => ⟨cleanTable.coreInfo x, cleanTable.dirty x⟩, fun _ => 0,
    fun _ _ => 0, 0, true, fun _ => 0⟩
  flights := []

/-- Settings with a cache mode and nothing special. -/
def plainSettings (mode : CacheMode) : Settings where
  fallbackPtErrorThreshold := none
  fallbackPtErrorCounter := 0
  attachPt := false
  ptUnalignedIo := false
  seqCutoff := false
  partValid := fun _ => true
  partCacheMode := fun _ => none
  cacheMode := mode

/-- A write of core line 0. -/
def lineWrite : Io Nat := ⟨0, 0, 8, .write, 0, fun _ => 7⟩

/-- All transfers succeed and all locks are free. -/
def smooth : Choice Nat where
  ok := true
  acquired := true
  enabled := true
  promote := true
  blocked := false
  alloc := true
  victims := fun _ => none
  waiters := fun _ => false
  garbage := fun _ => 0
  sizes := fun _ => 0
  cacheFirst := true

/-- A write in write-through mode and five steps of it. -/
def fastWrite : List (Action Nat) :=
  .submit (plainSettings .wt) lineWrite :: List.replicate 5 (.step 0 smooth)

/-- The engines with `use_submit_io_fast`. -/
def fastEngines : System (State Nat) (Action Nat) :=
  engines fastConfig (stepGuard fastConfig 0 fun _ _ => True)

/-- Only the first request takes steps. -/
def firstSteps (_ : State Nat) : Action Nat → Bool
  | .step i _ => i == 0
  | _ => true

/-- What becomes of the write. -/
def fastWriteResult {α : Type} (view : Shared Nat → Flight Nat → α) : Option α :=
  (fastWrite.foldlM (checkedStep fastEngines firstSteps) frozenStart).bind fun st =>
    st.flights[0]?.map (view st.shared)

/-- The fast path makes a write-through write dirty while the counter of dirty
requests is frozen at zero, and completes it without its data on the core. -/
theorem dirtyDiscipline_not_kept : ∃ (st : State Nat) (f : Flight Nat),
      Reachable (engines fastConfig (stepGuard fastConfig 0 fun _ _ => True)) frozenStart st ∧
      st.flights[0]? = some f ∧ f.mode = .wt ∧ f.outcome = some true ∧
      st.shared.md.dirty 5 0 = true ∧ st.shared.dirtyRefs = 0 ∧
      ¬DirtyDiscipline fastConfig 0 st := by
  have hres : fastWriteResult (fun s f => (f.mode, f.outcome, s.coreDev 0 0, s.md.dirty 5 0,
      s.dirtyRefs)) = some (.wt, some true, 0, true, 0) := by decide +kernel
  have hflight : fastWriteResult (fun _ f => (f.kind, f.req.coreId, f.req.addr, f.req.blocks,
      f.req.rw, f.data 0)) = some (.io, 0, 0, 8, .write, 7) := by decide +kernel
  obtain ⟨st, hst, hf⟩ := Option.bind_eq_some_iff.mp hres
  obtain ⟨f, hf, hvals⟩ := Option.map_eq_some_iff.mp hf
  obtain ⟨hmode, hout, hcore, hdirty, hrefs⟩ : f.mode = .wt ∧ f.outcome = some true ∧
      st.shared.coreDev 0 0 = 0 ∧ st.shared.md.dirty 5 0 = true ∧ st.shared.dirtyRefs = 0 := by
    simpa using hvals
  rw [fastWriteResult, hst, Option.bind_some, hf] at hflight
  obtain ⟨hkind, hid, haddr, hblocks, hrw, hdata⟩ : f.kind = .io ∧ f.req.coreId = 0 ∧
      f.req.addr = 0 ∧ f.req.blocks = 8 ∧ f.req.rw = .write ∧ f.data 0 = 7 := by
    simpa using hflight
  refine ⟨st, f, Reachable.of_checked ?_ hst, hf, hmode, hout, hdirty, hrefs, fun hd => ?_⟩
  · intro s a ha
    cases a with
    | step i ch =>
      have hi : i = 0 := by simpa [firstSteps] using ha
      exact fun f _ => ⟨trivial, fun h => absurd hi h⟩
    | _ => exact trivial
  · have hon := hd.onCore f hf ⟨hkind, hrw, by rw [hmode]; rfl⟩ hout 0 (by omega)
    rw [hid, haddr, hcore, hdata] at hon
    cases hon

/-- The state behind the submission of a write-back write. -/
def lazySubmitted : State Nat :=
  let r := ocfCoreVolumeSubmitIo fastConfig (plainSettings .wb)
    { frozenStart.shared with dirtyFrozen := false } lineWrite
  ⟨r.1, [r.2]⟩

/-- A write-back write on the fast path keeps the discipline. -/
theorem dirtyDiscipline_run_lazy : ∃ st : State Nat,
      Reachable (engines fastConfig (stepGuard fastConfig 0 (FastOnlyLazy fastConfig)))
        ⟨{ frozenStart.shared with dirtyFrozen := false }, []⟩ st ∧
      (st.flights.map fun f => (f.pc, f.mode, f.dirty)) = [(.run .writeWbDo, .wb, true)] ∧
      DirtyDiscipline fastConfig 0 st := by
  obtain ⟨st, hst⟩ : ∃ st, State.step fastConfig lazySubmitted (.step 0 smooth) = some st :=
    Option.isSome_iff_exists.mp (by decide +kernel)
  have hvals : (State.step fastConfig lazySubmitted (.step 0 smooth)).map (fun st =>
      st.flights.map fun f => (f.pc, f.mode, f.dirty)) =
        some [(.run .writeWbDo, .wb, true)] := by decide +kernel
  rw [hst, Option.map_some] at hvals
  have hsub : Reachable (engines fastConfig (stepGuard fastConfig 0 (FastOnlyLazy fastConfig)))
      ⟨{ frozenStart.shared with dirtyFrozen := false }, []⟩ lazySubmitted :=
    Reachable.next (.refl trivial) (.submit (plainSettings .wb) lineWrite) trivial rfl
  have hreach := hsub.next (.step 0 smooth) (fun f hf => by
    cases hf
    exact ⟨fun _ => .inl (by decide), fun h => absurd rfl h⟩) hst
  exact ⟨st, hreach, Option.some.inj hvals, dirtyDiscipline_run fastConfig 0 rfl rfl hreach⟩

end Examples

end OcfCache.DirtyReference
