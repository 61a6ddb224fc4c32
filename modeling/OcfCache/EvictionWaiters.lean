import OcfCache.EvictionFrame

/-!
# Waiting requests keep their mappings

Every step of a request keeps the invariant of lookups and evictions, provided
that a line which is taken as physical successor has no waiters when it is
taken. The check for waiters is missing there; a request that queues between
the try-lock of the line and the lock of its hash bucket loses its mapping.
-/

namespace OcfCache.EvictionWaiters

open Function Runs Metadata Requests EngineCommon LookupSpec HashBuckets Space AlockWakeup AlockWriters AlockClient
  EvictionRace EvictionFrame
open Option (map_eq_some_iff)
open Alock hiding State

variable {cfg : Config} {s s' : State} {r : Nat}

section

variable (h : Inv cfg s)
include h

theorem inv_lookup {req : Request} {m : Rw}
    (hg : CanStep cfg s (.lookup r req m)) (hs : next cfg s (.lookup r req m) = some s') :
    Inv cfg s' := by
  obtain ⟨hph, hcore⟩ := hg
  obtain ⟨s₁, hlock, rfl⟩ := map_eq_some_iff.mp hs
  obtain ⟨⟨hmd, hlk, hprocs⟩, hhash, hrd, hwr, hheld⟩ := hbReqProtLock_spec h.hash hlock
  obtain ⟨hid, hfirst, hcount⟩ := @lookup_range cfg s.md req
  have hidle : ¬Active (s.procs r).phase := by
    rw [hph]
    exact not_active_idle
  have hother : ∀ x, x ≠ r → (s₁.setProc r
      ⟨ocfEngineLookup cfg.g s.md req, .prepare m⟩).procs x = s.procs x := by
    intro x hx
    rw [setProc_of_ne _ _ hx, hprocs]
  refine h.of_step r ?_ ?_ hhash (waitersOk_of_none h.waiters hlk (h.no_waiter hidle) hother) ?_ ?_
  · change WordsFit s₁.lock
    rw [hlk]
    exact h.words
  · change Queued cfg.lists s₁.lock
    rw [hlk]
    exact h.queued
  · have hself := setProc_self s₁ r ⟨ocfEngineLookup cfg.g s.md req, .prepare m⟩
    refine procOk_prepare (m := m) (by rw [hself]) ⟨?_, ?_, ?_⟩ ?_ ?_
    · rw [hself, hid]
      exact hcore
    · intro i hi
      rw [count, hself, hcount] at hi
      rw [entry, hself, hfirst]
      exact (lookup_entry hi).1
    · intro i hi hst
      rw [count, hself, hcount] at hi
      rw [entry, hself] at hst ⊢
      rw [hid, hfirst]
      change s₁.md.coreInfo _ = _
      rw [hmd]
      exact (lookup_entry hi).2.2 hst
    · intro i hi hst
      rw [count, hself, hcount] at hi
      rw [entry, hself] at hst
      exact absurd hst (lookup_entry hi).2.1
    · have hbuckets : buckets cfg (ocfEngineLookup cfg.g s.md req) = buckets cfg req := by
        rw [buckets, hcount, hfirst, hid, buckets]
      rw [HashHeld, hself]
      change BucketsHeld cfg _ r (ocfEngineLookup cfg.g s.md req) m
      cases m with
      | read =>
        rw [BucketsHeld, hbuckets]
        exact hheld
      | write =>
        rw [BucketsHeld, hbuckets]
        exact hheld
  · intro q hq
    exact frame_hash hlk hmd (hrd q) (hwr q) (hother q hq)

/-- A lock step of a request that prepares its lines. -/
theorem inv_lineStep {act : Action} (hg : CanStep cfg s (.lineStep r act))
    (hs : next cfg s (.lineStep r act) = some s') : Inv cfg s' := by
  obtain ⟨⟨m, hph⟩, hfound, hperm⟩ := hg
  obtain ⟨lock, hstep, rfl⟩ := map_eq_some_iff.mp hs
  have hact : Active (s.procs r).phase := by
    rw [hph]
    exact active_prepare m
  have hst : (entry s r (actionLock act).idx).status ≠ .miss ∧
      (entry s r (actionLock act).idx).status ≠ .remapped := by
    have hneeds := hfound.2.2.1
    rw [needsLock, Bool.and_eq_true, bne_iff_ne, bne_iff_ne] at hneeds
    exact hneeds
  refine h.of_step r (step_wordsFit h.words hperm hstep) (step_queued h.queued hstep) h.hash
    (waitersOk_lock h.waiters hstep rfl (fun x => ⟨rfl, fun hx => hx⟩) ?_) ?_ ?_
  · intro _
    rw [hfound.1]
    exact ⟨hact, hfound⟩
  · refine procOk_prepare hph (((h.procs r).looked hact).of_same rfl rfl) ?_
      ((h.procs r).hash m (by rw [hph]; rfl))
    intro i hi hrem
    have hmode : mode (s.procs r).phase ≠ none := by
      rw [hph]
      exact Option.some_ne_none _
    refine step_holders ((h.procs r).remapped hmode i hi hrem) ?_ hstep
    intro heq
    have hidx : i = (actionLock act).idx := congrArg Lock.idx heq
    rw [hidx] at hrem
    exact hst.2 hrem
  · intro q hq
    refine frame_lock hq hfound.1 hstep rfl rfl rfl rfl rfl ?_
    intro _ line idx hch hentry
    have huses : Uses cfg s r line := by
      refine .inl ⟨hact, (actionLock act).idx, hfound.2.1, hst.1, ?_⟩
      rw [← hentry]
      exact hfound.2.2.2.symm
    exact h.not_uses_chosen (Ne.symm hq) hch huses

/-- The buckets are dropped and the lines are locked or awaited. -/
theorem inv_release (hg : CanStep cfg s (.release r))
    (hs : next cfg s (.release r) = some s') : Inv cfg s' := by
  obtain ⟨hph, howned⟩ := hg
  obtain ⟨hact, hmode⟩ := phase_active hph
  obtain rfl := Option.some.inj hs
  obtain ⟨hhash, hrd, hwr⟩ := @hbReqProtUnlock_spec cfg s r h.hash
  have hself := setPhase_phase (hbReqProtUnlock cfg s r) r .waiting
  have hreq := setPhase_req (hbReqProtUnlock cfg s r) r .waiting
  refine h.of_step r h.words h.queued hhash (waitersOk_of_same h.waiters rfl hreq ?_) ?_ ?_
  · intro x hx
    by_cases hxr : x = r
    · rw [hxr, hself]
      exact .inr rfl
    · rw [State.setPhase, setProc_of_ne _ _ hxr]
      exact hx
  · refine ⟨fun _ => ((h.procs r).looked hact).of_same (hreq r) rfl, fun hm => ?_, fun m hm => ?_,
      fun line idx stage hev => ?_, fun _ i hi hst => ?_⟩
    · rw [hself] at hm
      exact absurd rfl hm
    · rw [hself] at hm
      cases hm
    · rw [hself] at hev
      cases hev
    · rw [count, hreq] at hi
      rw [entry, hreq] at hst
      have hlock : ∀ rw, entryLock ((hbReqProtUnlock cfg s r).setPhase r .waiting) r i rw =
          entryLock s r i rw := by
        intro rw
        simp only [entryLock, hreq]
        rfl
      by_cases hrem : ((s.procs r).req.map i).status = .remapped
      · refine ⟨.write, ?_⟩
        rw [hlock]
        exact .inl ((h.procs r).remapped hmode i hi hrem)
      · have hneeds : needsLock ((s.procs r).req.map i) = true := by
          rw [needsLock, Bool.and_eq_true, bne_iff_ne, bne_iff_ne]
          exact ⟨hst, hrem⟩
        obtain ⟨rw', hown⟩ := howned i hi hneeds
        refine ⟨rw', ?_⟩
        rw [hlock]
        exact hown
  · intro q hq
    exact frame_hash rfl rfl (fun b => hrd q b hq) (fun b => hwr q b hq) (setProc_of_ne _ _ hq)

/-- A request without lines ends or is resumed. -/
theorem inv_inactive {phase : Phase}
    (hnone : ∀ i, ∀ w ∈ s.lock.waitersLsts i, w.req ≠ r) (hphase : ¬Active phase) :
    Inv cfg ((hbReqProtUnlock cfg s r).setPhase r phase) ∧ Inv cfg (s.setPhase r phase) := by
  obtain ⟨hhash, hrd, hwr⟩ := @hbReqProtUnlock_spec cfg s r h.hash
  constructor
  · refine h.of_step r h.words h.queued hhash ?_ (procOk_of_inactive ?_) ?_
    · exact waitersOk_of_none h.waiters rfl hnone fun x hx => setProc_of_ne _ _ hx
    · rw [setPhase_phase]
      exact hphase
    · intro q hq
      exact frame_hash rfl rfl (fun b => hrd q b hq) (fun b => hwr q b hq) (setProc_of_ne _ _ hq)
  · refine h.of_step r h.words h.queued h.hash ?_ (procOk_of_inactive ?_) ?_
    · exact waitersOk_of_none h.waiters rfl hnone fun x hx => setProc_of_ne _ _ hx
    · rw [setPhase_phase]
      exact hphase
    · intro q hq
      exact frame_hash rfl rfl (fun b hb => hb) (fun b hb => hb) (setProc_of_ne _ _ hq)

theorem inv_tryVictim {line idx : Nat} {stage : Stage}
    (hg : VictimFor cfg s r line idx) (hstage : StageOk cfg s r line stage)
    (hsimple : (∃ path, stage = .lineLocked path) ∨ stage = .unmapped)
    (hs : tryVictim cfg s r line idx stage = some s') : Inv cfg s' := by
  obtain ⟨hph, hidx, hmiss, hperm⟩ := hg
  obtain ⟨hact, hmode⟩ := phase_active ⟨.write, hph⟩
  obtain ⟨s₁, hs₁, hs'⟩ := map_eq_some_iff.mp hs
  obtain ⟨lock, hstep, rfl⟩ := map_eq_some_iff.mp hs₁
  have hwords := step_wordsFit h.words hperm hstep
  have hqueued := step_queued h.queued hstep
  have hlooked := (h.procs r).looked hact
  have hhash := (h.procs r).hash .write (by rw [hph]; rfl)
  have hrem := remapped_step ((h.procs r).remapped hmode) rfl hmiss hstep
  by_cases hheld : victimLock r line idx ∈ lock.holders
  · rw [if_pos hheld] at hs'
    rw [← hs']
    have hreq := setPhase_req { s with lock := lock } r (.evict line idx stage)
    refine h.of_step r hwords hqueued h.hash (waitersOk_lock h.waiters hstep rfl
      (fun x => ⟨hreq x, active_update (active_evict line idx stage) x⟩) (fun h => by cases h)) ?_ ?_
    · refine procOk_evict (setPhase_phase _ r _) (hlooked.of_same (hreq r) rfl) ?_ ?_ hheld ?_ ?_ ?_
      · intro i hi hst
        rw [count, hreq] at hi
        rw [entry, hreq] at hst
        rw [entryLock, hreq]
        exact hrem i hi hst
      · rw [HashHeld, hreq]
        exact hhash
      · rw [count, hreq]
        exact hidx
      · rw [entry, hreq]
        exact hmiss
      · rcases hsimple with ⟨path, rfl⟩ | rfl
        · trivial
        · exact hstage
    · intro q hq
      exact frame_lock hq rfl hstep rfl rfl rfl rfl (setProc_of_ne _ _ hq) (fun h => by cases h)
  · rw [if_neg hheld] at hs'
    rw [← hs']
    refine h.of_step r hwords hqueued h.hash
      (waitersOk_lock h.waiters hstep rfl (fun x => ⟨rfl, fun hx => hx⟩) (fun h => by cases h)) ?_ ?_
    · exact procOk_prepare hph (hlooked.of_same rfl rfl) hrem hhash
    · intro q hq
      exact frame_lock hq rfl hstep rfl rfl rfl rfl rfl (fun h => by cases h)

/-- An eviction goes to its next stage. The metadata may change at lines that
no other request uses. -/
theorem inv_stage {line idx : Nat} {stage stage' : Stage} {s₁ : State}
    (hph : (s.procs r).phase = .evict line idx stage) (hstep : HashStep cfg s s₁ r)
    (hlooked : Looked cfg s₁ r)
    (hinfo : ∀ q, q ≠ r → ∀ x, Uses cfg s q x → s₁.md.coreInfo x = s.md.coreInfo x)
    (hstage : StageOk cfg s₁ r line stage') : Inv cfg (s₁.setPhase r (.evict line idx stage')) := by
  obtain ⟨hact, hmode⟩ := evict_active hph
  obtain ⟨hheld, hidx, hmiss, -⟩ := (h.procs r).victim line idx stage hph
  obtain ⟨hlock, hprocs⟩ := hstep.same
  have hreq : ∀ x, ((s₁.setPhase r (.evict line idx stage')).procs x).req = (s.procs x).req := by
    intro x
    rw [setPhase_req, hprocs]
  refine h.of_step r ?_ ?_ hstep.alone (waitersOk_of_same h.waiters hlock hreq ?_) ?_ ?_
  · change WordsFit s₁.lock
    rw [hlock]
    exact h.words
  · change Queued cfg.lists s₁.lock
    rw [hlock]
    exact h.queued
  · intro x hx
    refine active_update (active_evict line idx stage') x ?_
    rw [hprocs]
    exact hx
  · refine procOk_evict (setPhase_phase _ r _) (hlooked.of_same ?_ rfl) ?_ ?_ ?_ ?_ ?_
      (hstage.setPhase _)
    · rw [setPhase_req]
    · intro i hi hst
      rw [count, hreq] at hi
      rw [entry, hreq] at hst
      rw [entryLock, hreq]
      change _ ∈ s₁.lock.holders
      rw [hlock]
      exact (h.procs r).remapped hmode i hi hst
    · have hown := hstep.own ((h.procs r).hash .write (by rw [hph]; rfl))
      rw [HashHeld, setPhase_req]
      exact hown
    · change _ ∈ s₁.lock.holders
      rw [hlock]
      exact hheld
    · rw [count, hreq]
      exact hidx
    · rw [entry, hreq]
      exact hmiss
  · intro q hq
    refine ⟨?_, hinfo q hq, fun b hb => ?_, fun b hb => hstep.wr q b hq hb, fun l hl _ => ?_,
      fun l _ hown => ?_, ?_⟩
    · rw [State.setPhase, setProc_of_ne _ _ hq, hprocs]
    · change q ∈ s₁.hashRd b
      rw [hstep.rd]
      exact hb
    · change l ∈ s₁.lock.holders
      rw [hlock]
      exact hl
    · change Owned cfg.lists s₁.lock l
      rw [hlock]
      exact hown
    · intro x idx' _ hfree i w hw
      change w ∈ s₁.lock.waitersLsts i at hw
      rw [hlock] at hw
      exact hfree i w hw

/-- A stage step that leaves the metadata alone. -/
theorem inv_stage_same {line idx : Nat} {stage stage' : Stage} {s₁ : State}
    (hph : (s.procs r).phase = .evict line idx stage) (hstep : HashStep cfg s s₁ r)
    (hmd : s₁.md = s.md) (hstage : StageOk cfg s₁ r line stage') :
    Inv cfg (s₁.setPhase r (.evict line idx stage')) := by
  have hlooked := (h.procs r).looked (evict_active hph).1
  refine inv_stage h hph hstep (hlooked.of_same ?_ ?_) ?_ hstage
  · rw [hstep.same.2]
  · rw [hmd]
  · intro q _ x _
    rw [hmd]

theorem inv_tryHash (hs : next cfg s (.tryHash r) = some s') : Inv cfg s' := by
  simp only [next] at hs
  split at hs
  · rename_i line idx path hph
    split at hs
    · cases hs
      exact inv_stage_same h hph (HashStep.refl h.hash) rfl trivial
    · rename_i htarget
      have hown := (h.procs r).hash .write (by rw [hph]; rfl)
      split at hs
      · rename_i s₁ htry
        cases hs
        obtain ⟨hstep, hmd, hwr⟩ := trylockHash_spec h.hash hown htry
        refine inv_stage_same h hph hstep hmd ⟨?_, ?_⟩
        · rw [bucketOf, hmd]
          exact hwr
        · rw [isTarget, hmd, hstep.same.2]
          exact Bool.eq_false_iff.mpr htarget
      · cases hs
        exact inv_stage_same h hph (HashStep.refl h.hash) rfl trivial
  · cases hs

theorem inv_takeLine (hfree : SuccessorFree s (.takeLine r))
    (hs : next cfg s (.takeLine r) = some s') : Inv cfg s' := by
  simp only [next] at hs
  split at hs
  · rename_i line idx hph
    obtain ⟨-, -, -, htaken⟩ := (h.procs r).victim _ _ _ hph
    split at hs
    · rename_i hempty
      cases hs
      exact inv_stage_same h hph (HashStep.refl h.hash) rfl
        ⟨htaken, noWaiters_of_isEmpty h.queued hempty⟩
    · cases hs
      obtain ⟨hstep, hmd⟩ := unlockHash_spec h.hash htaken.1
      exact inv_stage_same h hph hstep hmd trivial
  · rename_i line idx hph
    obtain ⟨-, -, -, htaken⟩ := (h.procs r).victim _ _ _ hph
    cases hs
    exact inv_stage_same h hph (HashStep.refl h.hash) rfl ⟨htaken, hfree line idx hph⟩
  · cases hs

theorem inv_invalidate (hs : next cfg s (.invalidate r) = some s') : Inv cfg s' := by
  simp only [next] at hs
  split at hs
  · rename_i line idx hph
    cases hs
    obtain ⟨-, -, -, ⟨hwr, htarget⟩, -⟩ := (h.procs r).victim _ _ _ hph
    have hlooked := (h.procs r).looked (evict_active hph).1
    have hstep := (@unlockHash_spec cfg s r _ h.hash hwr).1
    have hreq : ((unlockHash cfg s r (bucketOf cfg s.md line)).procs r).req = (s.procs r).req := by
      rw [hstep.same.2]
    have hstep' : HashStep cfg s { unlockHash cfg s r (bucketOf cfg s.md line) with
        md := evictInvalidate cfg.g s.md line } r :=
      ⟨hstep.same, hstep.alone, hstep.rd, hstep.wr, hstep.own⟩
    refine inv_stage h hph hstep' ⟨?_, ?_, ?_⟩ ?_ ?_
    · dsimp only
      rw [hreq]
      exact hlooked.core
    · intro i hi
      dsimp only [count, entry] at hi ⊢
      rw [hreq] at hi ⊢
      exact hlooked.coreLine i hi
    · intro i hi hst
      dsimp only [count, entry] at hi hst ⊢
      rw [hreq] at hi hst ⊢
      have hne : ((s.procs r).req.map i).collIdx ≠ line := hlooked.not_target htarget hi hst
      rw [coreInfo_evictInvalidate, update_of_ne hne]
      exact hlooked.mapped i hi hst
    · intro q hq x hx
      have hne : x ≠ line := by
        rintro rfl
        exact h.not_uses_chosen hq hph hx
      rw [coreInfo_evictInvalidate, update_of_ne hne]
    · change (evictInvalidate cfg.g s.md line).coreInfo line = _
      rw [coreInfo_evictInvalidate, update_self]
  · cases hs

/-- A line without mapping is mapped to a core line of the request. -/
theorem inv_mapLine (hs : next cfg s (.mapLine r) = some s') : Inv cfg s' := by
  simp only [next] at hs
  split at hs
  · rename_i line idx hph
    cases hs
    obtain ⟨hheld, hidx, hmiss, hinfo⟩ := (h.procs r).victim _ _ _ hph
    obtain ⟨hact, hmode⟩ := evict_active hph
    have hlooked := (h.procs r).looked hact
    have hself := setProc_self
      { s with md := (ocfMapCacheLine cfg.g s.md (s.procs r).req idx line).1 } r
      ⟨mappedReq cfg s.md (s.procs r).req idx line, .prepare .write⟩
    have hne : ∀ i < count cfg s r, (entry s r i).status ≠ .miss → (entry s r i).collIdx ≠ line := by
      intro i hi hst hline
      have hmapped := hlooked.mapped i hi hst
      rw [hline, hinfo] at hmapped
      have heq : ocfCoreNum = (s.procs r).req.coreId := congrArg Prod.fst hmapped
      have hcore := hlooked.core
      omega
    refine h.of_step r h.words h.queued h.hash ?_ ?_ ?_
    · intro i w hw
      obtain ⟨hwact, hwidx, hwst, hwentry⟩ := h.waiters i w hw
      by_cases hwr : w.req = r
      · rw [hwr] at hwact hwidx hwst hwentry ⊢
        have hwne : w.idx ≠ idx := by
          intro heq
          rw [heq] at hwst
          exact hwst hmiss
        rw [count, entry, hself]
        refine ⟨active_prepare .write, hwidx, ?_, ?_⟩
        · rw [mappedReq_map, if_neg hwne]
          exact hwst
        · rw [mappedReq_map, if_neg hwne]
          exact hwentry
      · rw [count, entry, setProc_of_ne _ _ hwr]
        exact ⟨hwact, hwidx, hwst, hwentry⟩
    · refine procOk_prepare (m := .write) (by rw [hself]) ⟨?_, ?_, ?_⟩ ?_ ?_
      · rw [hself]
        exact hlooked.core
      · intro i hi
        rw [count, hself] at hi
        rw [entry, hself]
        change ((mappedReq cfg s.md (s.procs r).req idx line).map i).coreLine = _
        rw [mappedReq_map]
        split
        · rename_i heq
          rw [heq]
          exact hlooked.coreLine idx hidx
        · exact hlooked.coreLine i hi
      · intro i hi hst
        rw [count, hself] at hi
        rw [entry, hself] at hst ⊢
        change update s.md.coreInfo line _ _ = _
        change ((mappedReq cfg s.md (s.procs r).req idx line).map i).status ≠ _ at hst
        rw [mappedReq_map] at hst ⊢
        by_cases hii : i = idx
        · rw [if_pos hii, update_self, hii]
          rfl
        · rw [if_neg hii] at hst ⊢
          have hnot : ((s.procs r).req.map i).collIdx ≠ line := hne i hi hst
          rw [update_of_ne hnot]
          exact hlooked.mapped i hi hst
      · intro i hi hst
        rw [count, hself] at hi
        rw [entry, hself] at hst
        rw [entryLock, hself]
        change ((mappedReq cfg s.md (s.procs r).req idx line).map i).status = _ at hst
        rw [mappedReq_map] at hst ⊢
        by_cases hii : i = idx
        · rw [if_pos hii, hii]
          exact hheld
        · rw [if_neg hii] at hst ⊢
          exact (h.procs r).remapped hmode i hi hst
      · rw [HashHeld, hself]
        exact (h.procs r).hash .write (by rw [hph]; rfl)
    · intro q hq
      refine ⟨setProc_of_ne _ _ hq, fun x hx => ?_, fun b hb => hb, fun b hb => hb, fun l hl _ => hl,
        fun l _ hown => hown, fun x idx' _ hfree => hfree⟩
      have hne : x ≠ line := by
        rintro rfl
        exact h.not_uses_unmapped hq hph hx
      exact update_of_ne hne _ _
  · cases hs

/-- A line that was not taken is unlocked. -/
theorem inv_putBack (hs : next cfg s (.putBack r) = some s') : Inv cfg s' := by
  simp only [next] at hs
  split at hs
  · rename_i line idx hph
    obtain ⟨hheld, hidx, hmiss, -⟩ := (h.procs r).victim _ _ _ hph
    obtain ⟨hact, hmode⟩ := evict_active hph
    obtain ⟨s₁, hs₁, rfl⟩ := map_eq_some_iff.mp hs
    obtain ⟨lock, hstep, rfl⟩ := map_eq_some_iff.mp hs₁
    have hperm : Permitted s.lock (.unlockOneWr (victimLock r line idx)) := ⟨rfl, hheld⟩
    have hrem := remapped_step ((h.procs r).remapped hmode) rfl hmiss hstep
    have hreq := setPhase_req { s with lock := lock } r (.prepare .write)
    refine h.of_step r (step_wordsFit h.words hperm hstep) (step_queued h.queued hstep) h.hash
      (waitersOk_lock h.waiters hstep rfl
        (fun x => ⟨hreq x, active_update (active_prepare .write) x⟩) (fun h => by cases h)) ?_ ?_
    · refine procOk_prepare (setPhase_phase _ r _) (((h.procs r).looked hact).of_same (hreq r) rfl)
        ?_ ?_
      · intro i hi hst
        rw [count, hreq] at hi
        rw [entry, hreq] at hst
        rw [entryLock, hreq]
        exact hrem i hi hst
      · rw [HashHeld, hreq]
        exact (h.procs r).hash .write (by rw [hph]; rfl)
    · intro q hq
      exact frame_lock hq rfl hstep rfl rfl rfl rfl (setProc_of_ne _ _ hq) (fun h => by cases h)
  · cases hs

theorem inv_unlockLine {l : Lock} (hg : CanStep cfg s (.unlockLine r l))
    (hs : next cfg s (.unlockLine r l) = some s') : Inv cfg s' := by
  obtain ⟨hph, hreq, hheld⟩ := hg
  obtain ⟨lock, hstep, rfl⟩ := map_eq_some_iff.mp hs
  obtain ⟨hqueues, hlock⟩ := not_queues_unlockAct l
  have hperm : Permitted s.lock (unlockAct l) := by
    cases hrw : l.rw with
    | read =>
      simp only [unlockAct, hrw]
      exact ⟨hrw, hheld⟩
    | write =>
      simp only [unlockAct, hrw]
      exact ⟨hrw, hheld⟩
  refine h.of_step r (step_wordsFit h.words hperm hstep) (step_queued h.queued hstep) h.hash
    (waitersOk_lock h.waiters hstep rfl (fun x => ⟨rfl, fun hx => hx⟩)
      (fun hq => absurd hq hqueues)) (procOk_of_inactive ?_) ?_
  · change ¬Active (s.procs r).phase
    rw [hph]
    exact not_active_complete
  · intro q hq
    refine frame_lock hq ?_ hstep rfl rfl rfl rfl rfl (fun hq' => absurd hq' hqueues)
    rw [hlock]
    exact hreq

/-- Step rule: every step that meets the condition keeps the invariant. -/
theorem inv_next {act : Act} (hg : CanStep cfg s act)
    (hfree : SuccessorFree s act) (hs : next cfg s act = some s') : Inv cfg s' := by
  cases act with
  | lookup r req m => exact inv_lookup h hg hs
  | lineStep r act => exact inv_lineStep h hg hs
  | release r => exact inv_release h hg hs
  | giveUp r =>
    obtain rfl := Option.some.inj hs
    exact (inv_inactive h hg.2.2 not_active_idle).1
  | tryLine r line idx path =>
    have hstage : StageOk cfg s r line (.lineLocked path) := trivial
    exact inv_tryVictim h hg.1 hstage (.inl ⟨path, rfl⟩) hs
  | tryFree r line idx =>
    have hstage : StageOk cfg s r line .unmapped := hg.2
    exact inv_tryVictim h hg.1 hstage (.inr rfl) hs
  | tryHash r => exact inv_tryHash h hs
  | takeLine r => exact inv_takeLine h hfree hs
  | invalidate r => exact inv_invalidate h hs
  | mapLine r => exact inv_mapLine h hs
  | putBack r => exact inv_putBack h hs
  | resume r =>
    obtain rfl := Option.some.inj hs
    exact (inv_inactive h hg.2 not_active_complete).2
  | unlockLine r l => exact inv_unlockLine h hg hs
  | finish r =>
    obtain rfl := Option.some.inj hs
    exact (inv_inactive h hg.2.2 not_active_idle).2

end

/-- Along every run in which lines taken as physical successors have no waiters
when they are taken, requests that wait for a line keep the mapping that they
looked up, and their check after the wait finds no mapping gone. -/
theorem waiting_keeps_mapping {start state : State} (h0 : Quiet start)
    (h : Reachable (checkedSystem cfg) start state) : MappingsKept cfg state := by
  have hinv : Inv cfg state := by
    refine h.invariant (fun _ => inv_quiet h0) ?_
    intro s act s' hs _ hg hstep _
    exact inv_next hs hg.1 hg.2 hstep
  exact hinv.mappingsKept

/-- Four lines, of which the first two are mapped to the first core lines. -/
def twoMapped : State where
  md := {
    hash := fun b => if b < 2 then [b] else []
    coreInfo := fun line => if line < 2 then (0, line) else (ocfCoreNum, ullongMax)
    valid := fun line _ => decide (line < 2)
    dirty := fun _ _ => false
    partitionId := fun _ => 0 }
  lock := Alock.init
  hashRd := fun _ => []
  hashWr := fun _ => none
  procs := fun _ => ⟨linesRequest 0 1, .idle⟩

/-- Four hash buckets and lines of eight blocks. -/
def fourLines : Config where
  g := ⟨8, eightBlocks_pos, 4, 4, 0⟩
  lists := 699050
  lists_pos := waitersLists_pos

theorem quiet_twoMapped : Quiet twoMapped := ⟨rfl, fun _ => rfl, fun _ => rfl, fun _ => rfl⟩

/-- The steps of the runs below, checked while nobody has queued yet. -/
def canStep (cfg : Config) (s : State) : Act → Bool
  | .lookup r req _ => decide ((s.procs r).phase = .idle) && decide (req.coreId < ocfCoreNum)
  | .lineStep r (.lockOneWr l) =>
    decide ((s.procs r).phase = .prepare .read) && decide (l.req = r ∧ l.rw = .write) &&
      decide (l.idx < (s.procs r).req.coreLineCount cfg.g) &&
      needsLock ((s.procs r).req.map l.idx) &&
      decide (l.entry = ((s.procs r).req.map l.idx).collIdx) && decide (s.lock.nextTicket = 0) &&
      s.lock.holders.all fun h => decide (¬(h.req = l.req ∧ h.idx = l.idx))
  | .release r =>
    decide ((s.procs r).phase = .prepare .read) &&
      (List.range ((s.procs r).req.coreLineCount cfg.g)).all fun i =>
        (s.lock.waitersLsts ((entryLock s r i .write).entry % cfg.lists)).any fun w =>
          decide (w.toLock = entryLock s r i .write)
  | .tryLine r line idx path =>
    decide ((s.procs r).phase = .prepare .write) &&
      decide (idx < (s.procs r).req.coreLineCount cfg.g) &&
      decide (((s.procs r).req.map idx).status = .miss) && decide (s.lock.nextTicket = 0) &&
      (s.lock.holders.all fun h => decide (¬(h.req = r ∧ h.idx = idx))) &&
      (decide (path = .list) || decide (0 < (s.procs r).req.coreLineCount cfg.g ∧
        ((s.procs r).req.map 0).status = .remapped ∧ ((s.procs r).req.map 0).collIdx + 1 = line))
  | .tryHash _ => true
  | .takeLine _ => true
  | .invalidate _ => true
  | .mapLine _ => true
  | _ => false

/-- Without a queueing number no request waits. -/
theorem unused_of_holders {n : Nat} {lock : Alock.State} {l : Lock} (hq : Queued n lock)
    (hnext : lock.nextTicket = 0)
    (h : (lock.holders.all fun h => decide (¬(h.req = l.req ∧ h.idx = l.idx))) = true) :
    Unused lock l := by
  refine ⟨fun h' hh => of_decide_eq_true (List.all_eq_true.mp h h' hh), fun i w hw => ?_⟩
  have hlt := hq.fresh i w hw
  rw [hnext] at hlt
  exact absurd hlt (Nat.not_lt_zero _)

theorem canStep_spec {act : Act} (hq : Queued cfg.lists s.lock) (h : canStep cfg s act = true) :
    CanStep cfg s act := by
  cases act with
  | lookup r req m =>
    obtain ⟨hph, hcore⟩ := Bool.and_eq_true_iff.mp h
    exact ⟨of_decide_eq_true hph, of_decide_eq_true hcore⟩
  | lineStep r act =>
    cases act with
    | lockOneWr l =>
      simp only [canStep, Bool.and_eq_true] at h
      obtain ⟨⟨⟨⟨⟨⟨hph, hl⟩, hidx⟩, hneeds⟩, hentry⟩, hnext⟩, hheld⟩ := h
      obtain ⟨hreq, hrw⟩ := of_decide_eq_true hl
      exact ⟨⟨.read, of_decide_eq_true hph⟩,
        ⟨hreq, of_decide_eq_true hidx, hneeds, of_decide_eq_true hentry⟩,
        hrw, unused_of_holders hq (of_decide_eq_true hnext) hheld⟩
    | _ => cases h
  | release r =>
    obtain ⟨hph, hall⟩ := Bool.and_eq_true_iff.mp h
    refine ⟨⟨.read, of_decide_eq_true hph⟩, fun i hi _ => ⟨.write, .inr ?_⟩⟩
    have hany := List.all_eq_true.mp hall i (List.mem_range.mpr hi)
    obtain ⟨w, hw, hlock⟩ := List.any_eq_true.mp hany
    have heq : w.toLock = entryLock s r i .write := of_decide_eq_true hlock
    have hreq : w.req = r := congrArg Lock.req heq
    exact List.mem_map.mpr ⟨w, (mem_queuedBy cfg.lists_pos hq hw).mpr hreq, heq⟩
  | tryLine r line idx path =>
    simp only [canStep, Bool.and_eq_true] at h
    obtain ⟨⟨⟨⟨⟨hph, hidx⟩, hmiss⟩, hnext⟩, hheld⟩, hpath⟩ := h
    refine ⟨⟨of_decide_eq_true hph, of_decide_eq_true hidx, of_decide_eq_true hmiss, rfl,
      unused_of_holders hq (of_decide_eq_true hnext) hheld⟩, fun hsucc => ⟨0, ?_⟩⟩
    rw [hsucc] at hpath
    exact of_decide_eq_true hpath
  | tryHash r => trivial
  | takeLine r => trivial
  | invalidate r => trivial
  | mapLine r => trivial
  | _ => cases h

/-- Request 0 maps line 0 to its first core line and locks line 1, the physical
successor; then request 1 looks up core line 1, finds line 1 and waits. -/
def queueBehind : List Act :=
  [.lookup 0 (linesRequest 2 2) .write, .tryLine 0 0 0 .list, .tryHash 0, .takeLine 0,
    .invalidate 0, .mapLine 0, .tryLine 0 1 1 .successor, .lookup 1 (linesRequest 1 1) .read,
    .lineStep 1 (.lockOneWr ⟨1, 0, 1, .write⟩), .release 1]

theorem queued_lockStep {act : Action} (h : Queued cfg.lists s.lock)
    (hs : lockStep cfg s act = some s') : Queued cfg.lists s'.lock := by
  obtain ⟨lock, hstep, rfl⟩ := map_eq_some_iff.mp hs
  exact step_queued h hstep

/-- The waiters lists are in order along every run. -/
theorem queued_next {act : Act} (h : Queued cfg.lists s.lock) (hs : next cfg s act = some s') :
    Queued cfg.lists s'.lock := by
  have htry : ∀ r line idx stage, tryVictim cfg s r line idx stage = some s' →
      Queued cfg.lists s'.lock := by
    intro r line idx stage htry
    obtain ⟨s₁, hs₁, rfl⟩ := map_eq_some_iff.mp htry
    have hq := queued_lockStep h hs₁
    split
    · exact hq
    · exact hq
  cases act with
  | lookup r req m =>
    obtain ⟨s₁, hlock, rfl⟩ := map_eq_some_iff.mp hs
    have hsame : s₁.lock = s.lock := by
      cases m <;>
      · obtain ⟨-, heq⟩ := Option.ite_none_right_eq_some.mp hlock
        cases heq
        rfl
    change Queued cfg.lists s₁.lock
    rw [hsame]
    exact h
  | lineStep r act => exact queued_lockStep h hs
  | tryLine r line idx path => exact htry _ _ _ _ hs
  | tryFree r line idx => exact htry _ _ _ _ hs
  | unlockLine r l => exact queued_lockStep h hs
  | putBack r =>
    simp only [next] at hs
    split at hs
    · obtain ⟨s₁, hs₁, rfl⟩ := map_eq_some_iff.mp hs
      have hq := queued_lockStep h hs₁
      exact hq
    · cases hs
  | tryHash r =>
    simp only [next, trylockHash] at hs
    split at hs
    · split at hs
      · cases hs
        exact h
      · split at hs
        · rename_i s₁ htry'
          cases hs
          split at htry'
          · cases htry'
            exact h
          · obtain ⟨-, heq⟩ := Option.ite_none_right_eq_some.mp htry'
            cases heq
            exact h
        · cases hs
          exact h
    · cases hs
  | takeLine r =>
    simp only [next, unlockHash] at hs
    split at hs
    · split at hs
      · cases hs
        exact h
      · cases hs
        split <;> exact h
    · cases hs
      exact h
    · cases hs
  | invalidate r =>
    simp only [next, unlockHash] at hs
    split at hs
    · cases hs
      split <;> exact h
    · cases hs
  | mapLine r =>
    simp only [next] at hs
    split at hs
    · cases hs
      exact h
    · cases hs
  | release r =>
    cases hs
    exact h
  | giveUp r =>
    cases hs
    exact h
  | resume r =>
    cases hs
    exact h
  | finish r =>
    cases hs
    exact h

/-- Checked steps from a state without waiters are a run. -/
theorem reachable_of_canStep {acts : List Act} {guard : State → Act → Prop} {ok : State → Act → Bool}
    {start state : State} (hstart : Queued cfg.lists start.lock)
    (hguard : ∀ s act, CanStep cfg s act → ok s act = true → guard s act)
    (h : acts.foldlM (checkedStep ⟨guard, next cfg⟩ fun s act => canStep cfg s act && ok s act)
      start = some state) : Reachable ⟨guard, next cfg⟩ start state := by
  have hrun : RunIn ⟨guard, next cfg⟩ (fun s => Queued cfg.lists s.lock) start state := by
    refine RunIn.of_checked hstart ?_ h
    intro s act s' hq hok hs
    obtain ⟨hcan, hok'⟩ := Bool.and_eq_true_iff.mp hok
    exact ⟨hguard s act (canStep_spec hq hcan) hok', queued_next hq hs⟩
  exact hrun.mono fun _ _ => trivial

/-- Steps that take no physical successor. -/
def noSuccessor (s : State) : Act → Bool
  | .takeLine r =>
    match (s.procs r).phase with
    | .evict _ _ (.hashLocked .successor) => false
    | _ => true
  | _ => true

theorem successorFree_of_noSuccessor {act : Act} (h : noSuccessor s act = true) :
    SuccessorFree s act := by
  cases act with
  | takeLine r =>
    intro line idx hph
    simp only [noSuccessor, hph] at h
    cases h
  | _ => trivial

theorem waiting_keeps_mapping_queueBehind :
    ∃ state, Reachable (checkedSystem fourLines) twoMapped state ∧
      (state.procs 1).phase = .waiting ∧ state.lock.waitersLsts 1 = [⟨⟨1, 0, 1, .write⟩, 0⟩] ∧
      MappingsKept fourLines state := by
  have hview : (queueBehind.foldlM (checkedStep (checkedSystem fourLines) fun s act =>
      canStep fourLines s act && noSuccessor s act) twoMapped).map
        (fun s => ((s.procs 1).phase, s.lock.waitersLsts 1)) =
          some (.waiting, [⟨⟨1, 0, 1, .write⟩, 0⟩]) := by
    decide +kernel
  obtain ⟨state, hstate, hpair⟩ := map_eq_some_iff.mp hview
  obtain ⟨hph, hw⟩ := Prod.mk.inj hpair
  have hrun : Reachable (checkedSystem fourLines) twoMapped state :=
    reachable_of_canStep (queued_init 699050)
      (fun s act hcan hok => ⟨hcan, successorFree_of_noSuccessor hok⟩) hstate
  exact ⟨state, hrun, hph, hw, waiting_keeps_mapping quiet_twoMapped hrun⟩

/-- Request 0 goes on with line 1, whose hash bucket is free again. -/
def takeSuccessor : List Act := queueBehind ++ [.tryHash 0, .takeLine 0, .invalidate 0]

/-- The line loses its mapping while request 1 waits for it. -/
theorem successor_takes_mapping : ∃ state, Reachable (raceSystem fourLines) twoMapped state ∧
      (state.procs 1).phase = .waiting ∧ state.lock.waitersLsts 1 = [⟨⟨1, 0, 1, .write⟩, 0⟩] ∧
      state.md.coreInfo 1 = (ocfCoreNum, ullongMax) ∧ ¬MappingsKept fourLines state := by
  have hview : (takeSuccessor.foldlM (checkedStep (raceSystem fourLines) fun s act =>
      canStep fourLines s act && true) twoMapped).map (fun s => ((s.procs 1).phase,
        s.lock.waitersLsts 1, s.md.coreInfo 1, (s.procs 1).req.coreId)) =
          some (.waiting, [⟨⟨1, 0, 1, .write⟩, 0⟩], (ocfCoreNum, ullongMax), 0) := by
    decide +kernel
  obtain ⟨state, hstate, hview⟩ := map_eq_some_iff.mp hview
  simp only [Prod.mk.injEq] at hview
  obtain ⟨hph, hw, hinfo, hcore⟩ := hview
  have hrun : Reachable (raceSystem fourLines) twoMapped state :=
    reachable_of_canStep (queued_init 699050) (fun s act hcan _ => hcan) hstate
  refine ⟨state, hrun, hph, hw, hinfo, fun hkept => ?_⟩
  have hmem : (⟨⟨1, 0, 1, .write⟩, 0⟩ : Waiter) ∈ state.lock.waitersLsts 1 := by
    rw [hw]
    exact List.mem_cons_self
  have hmapped := hkept.1 1 _ hmem
  change state.md.coreInfo 1 = ((state.procs 1).req.coreId, _) at hmapped
  rw [hinfo, hcore] at hmapped
  cases congrArg Prod.fst hmapped

end OcfCache.EvictionWaiters
