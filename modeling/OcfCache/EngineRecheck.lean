import OcfCache.LookupSpec

/-!
# Re-check after a wait for locks

A request that waited for cache line locks re-runs the accounting of its
lookup over the statuses that the lookup left behind. The accounting counts
entries with status hit only, so an entry that was classified as partially
valid before the wait drops out of all counters, dirtiness included. The
re-check equals a fresh lookup exactly for maps without such an entry.
-/

namespace OcfCache.EngineRecheck

open Loops Metadata Requests EngineCommon LookupSpec

variable (g : Geometry) (md : LineTable)

/-- Body of a lookup of the entries that were mapped before: entries without
a line stay without one, and a line mapped by the request itself stays counted
as an insertion. -/
def freshBody (req : Request) (i : Nat) : Request :=
  match (req.map i).status with
  | .miss => req.setMap i { req.map i with rePart := false }
  | .remapped => ocfEngineUpdateReqInfo g md (req.setMap i { req.map i with rePart := false }) i
  | _ => lookupBody g md req i

/-- What a lookup would now find for the entries that were mapped before. -/
def freshLookup (req : Request) : Request :=
  forRange (req.coreLineCount g) (freshBody g md) (ocfReqClearInfo req)

/-- The entry was found by the lookup, with or without all blocks valid. -/
def WasFound (req : Request) (i : Nat) : Prop :=
  (req.map i).status = .hit ∨ (req.map i).status = .hitInvalid

/-- Every mapped entry still maps its core line. -/
def StillMapped (req : Request) : Prop :=
  ∀ i < req.coreLineCount g, (req.map i).status ≠ .miss →
    lookupLine g md req.coreId (req.coreLineFirst g + i) = some (req.map i).collIdx ∧
      (req.map i).coreLine = req.coreLineFirst g + i

/-- The check finds the mapping in place, counts like a fresh lookup, and
classifies the entries found before by their current valid bits. -/
structure CheckIsFresh (req : Request) : Prop where
  /-- The check succeeds. -/
  valid : (ocfEngineCheck g md req).1 = false
  /-- All counters agree. -/
  info : (ocfEngineCheck g md req).2.info = (freshLookup g md req).info
  /-- The classification follows the valid bits. -/
  status : ∀ i < req.coreLineCount g, WasFound req i →
    ((ocfEngineCheck g md req).2.map i).status =
      if entryValid g md req (req.map i) i then .hit else .hitInvalid
  /-- Dirty lines are noticed. -/
  dirty : (∃ i < req.coreLineCount g, WasFound req i ∧
    metadataTestDirty g md (req.map i).collIdx = true) →
      0 < (ocfEngineCheck g md req).2.info.dirtyAny

variable {g md}

/-- Map entries that the check accounts for. -/
def checkPlan (req : Request) (i : Nat) : MapInfo :=
  if (req.map i).status = .miss then { req.map i with rePart := false }
  else { req.map i with rePart := false, invalid := false }

/-- Map entries of a fresh lookup. -/
def freshPlan (g : Geometry) (md : LineTable) (req : Request) (i : Nat) : MapInfo :=
  match (req.map i).status with
  | .hit | .hitInvalid => lookupPlan g md req i
  | _ => { req.map i with rePart := false }

theorem checkPlan_status (req : Request) (i : Nat) :
    (checkPlan req i).status = (req.map i).status := by
  unfold checkPlan
  split <;> rfl

theorem checkPlan_collIdx (req : Request) (i : Nat) :
    (checkPlan req i).collIdx = (req.map i).collIdx := by
  unfold checkPlan
  split <;> rfl

variable {req : Request}

theorem StillMapped.check (h : StillMapped g md req) {i : Nat}
    (hi : i < req.coreLineCount g) (hs : (req.map i).status ≠ .miss) :
    md.coreInfo (req.map i).collIdx = (req.coreId, (req.map i).coreLine) := by
  obtain ⟨hl, hc⟩ := h i hi hs
  have hfound := List.find?_some hl
  rw [hc]
  simpa using hfound

theorem ocfEngineCheck_of_entries (h : ∀ i < req.coreLineCount g, (req.map i).status ≠ .miss →
      md.coreInfo (req.map i).collIdx = (req.coreId, (req.map i).coreLine)) :
    ocfEngineCheck g md req = (false, account g md (checkPlan req) req) := by
  refine (forRange_rel (fun n st r => st = (false, r) ∧ r = { req with
    map := accountedMap g md (checkPlan req) req n
    info := accountedInfo g md (checkPlan req) req n }) ?_ ?_).1
  · exact ⟨rfl, rfl⟩
  · rintro i st r hi ⟨rfl, rfl⟩
    refine ⟨?_, accountBody_spec _ _ _⟩
    have hm : accountedMap g md (checkPlan req) req i i = req.map i := by simp [accountedMap]
    simp only [checkBody, accountBody, hm]
    by_cases hs : (req.map i).status = .miss
    · simp [hs, checkPlan]
    · have hck := h i hi hs
      simp [hs, checkPlan, ocfEngineCheckMapEntry, hck]

theorem ocfEngineCheck_eq (h : StillMapped g md req) :
    ocfEngineCheck g md req = (false, account g md (checkPlan req) req) :=
  ocfEngineCheck_of_entries fun _ hi hs => h.check hi hs

theorem check_of_valid (h : (ocfEngineCheck g md req).1 = false) :
    (ocfEngineCheck g md req).2 = account g md (checkPlan req) req := by
  refine (forRange_rel (fun n (st : Bool × Request) r => (st.1 = false → st.2 = r) ∧ r = { req with
    map := accountedMap g md (checkPlan req) req n
    info := accountedInfo g md (checkPlan req) req n }) ?_ ?_).1 h
  · exact ⟨fun _ => rfl, rfl⟩
  · rintro i ⟨gone, st⟩ r hi ⟨hst, rfl⟩
    refine ⟨fun hgone => ?_, accountBody_spec _ _ _⟩
    have hm : accountedMap g md (checkPlan req) req i i = req.map i := by simp [accountedMap]
    cases hg : gone with
    | true =>
      simp only [checkBody, hg] at hgone
      split at hgone
      · cases hgone
      · split at hgone <;> cases hgone
    | false =>
      have hst' : st = _ := hst hg
      subst hst'
      by_cases hs : (req.map i).status = .miss
      · simp [checkBody, accountBody, hm, hs, checkPlan]
      · by_cases hck : md.coreInfo (req.map i).collIdx = (req.coreId, (req.map i).coreLine)
        · simp [checkBody, accountBody, hm, hs, checkPlan, ocfEngineCheckMapEntry, hck]
        · simp [checkBody, hm, hs, ocfEngineCheckMapEntry, hck] at hgone

theorem freshLookup_eq (req : Request) :
    freshLookup g md req = account g md (freshPlan g md req) req := by
  refine forRange_eq_account fun i _ m info hm => ?_
  cases hs : (req.map i).status with
  | hit | hitInvalid =>
    have hbody := lookupBody_eq g md info hm
    simpa [freshBody, accountBody, freshPlan, hm, hs] using hbody
  | miss => simp [freshBody, accountBody, freshPlan, hm, hs]
  | remapped => simp [freshBody, accountBody, freshPlan, hm, hs]

theorem StillMapped.freshPlan (h : StillMapped g md req) {i : Nat} (hi : i < req.coreLineCount g) :
    (freshPlan g md req i).collIdx = (req.map i).collIdx ∧ (freshPlan g md req i).status =
        if (req.map i).status = .hitInvalid then .hit else (req.map i).status := by
  have hline : (req.map i).status ≠ .miss →
      (lookupPlan g md req i).collIdx = (req.map i).collIdx ∧
        (lookupPlan g md req i).status = .hit := by
    intro hs
    obtain ⟨hl, -⟩ := h i hi hs
    simp [lookupPlan, ocfEngineLookupMapEntry, hl]
  cases hs : (req.map i).status with
  | hit => simpa [EngineRecheck.freshPlan, hs] using hline (by simp [hs])
  | hitInvalid => simpa [EngineRecheck.freshPlan, hs] using hline (by simp [hs])
  | miss => simp [EngineRecheck.freshPlan, hs]
  | remapped => simp [EngineRecheck.freshPlan, hs]

theorem check_counts (h : StillMapped g md req) :
    (ocfEngineCheck g md req).2.info.hitNo + (ocfEngineCheck g md req).2.info.invalidNo =
        countBelow (fun i => (req.map i).status == .hit) (req.coreLineCount g) ∧
      (freshLookup g md req).info.hitNo + (freshLookup g md req).info.invalidNo =
        countBelow (fun i => (req.map i).status == .hit || (req.map i).status == .hitInvalid)
          (req.coreLineCount g) := by
  rw [ocfEngineCheck_eq h, freshLookup_eq, account_eq, account_eq]
  refine ⟨?_, ?_⟩
  · rw [accountedInfo_found]
    simp only [checkPlan_status]
  · rw [accountedInfo_found]
    refine countBelow_congr fun i hi => ?_
    rw [(h.freshPlan hi).2]
    cases (req.map i).status <;> rfl

/-- The re-check equals a fresh lookup of the mapped entries exactly when no
entry was left with the status of a partially valid line. -/
theorem checkIsFresh_iff {req : Request} (h : StillMapped g md req) : CheckIsFresh g md req ↔
      ∀ i < req.coreLineCount g, (req.map i).status ≠ .hitInvalid := by
  constructor
  · intro hf i hi
    obtain ⟨hck, hfr⟩ := check_counts h
    have hinfo := hf.info
    rw [← hinfo, hck, countBelow_or] at hfr
    · have hzero : countBelow (fun i => (req.map i).status == .hitInvalid)
          (req.coreLineCount g) = 0 := by omega
      simpa using countBelow_eq_zero.mp hzero i hi
    · intro j _ hj
      simp only [beq_iff_eq] at hj
      exact absurd (hj.1.symm.trans hj.2) (by decide)
  · intro hno
    have hplan : ∀ i < req.coreLineCount g,
        (checkPlan req i).status = (freshPlan g md req i).status := by
      intro i hi
      rw [checkPlan_status, (h.freshPlan hi).2, if_neg (hno i hi)]
    have hcoll : ∀ i < req.coreLineCount g,
        (checkPlan req i).collIdx = (freshPlan g md req i).collIdx := by
      intro i hi
      rw [checkPlan_collIdx, (h.freshPlan hi).1]
    have hhit : ∀ i < req.coreLineCount g, WasFound req i → (req.map i).status = .hit :=
      fun i hi hw => hw.resolve_right (hno i hi)
    refine ⟨?_, ?_, ?_, ?_⟩
    · rw [ocfEngineCheck_eq h]
    · rw [ocfEngineCheck_eq h, freshLookup_eq, account_eq, account_eq]
      exact accountedInfo_congr hplan hcoll
    · intro i hi hw
      have hst := hhit i hi hw
      rw [ocfEngineCheck_eq h, account_eq]
      simp only [accountedMap, if_pos hi, accounted, checkPlan_status, hst, entryValid,
        checkPlan_collIdx]
      split <;> simp_all
    · rintro ⟨i, hi, hw, hd⟩
      have hst := hhit i hi hw
      rw [ocfEngineCheck_eq h, account_eq]
      refine Nat.pos_of_ne_zero fun h0 => ?_
      have hfalse := countBelow_eq_zero.mp h0 i hi
      simp [checkPlan_status, checkPlan_collIdx, hst, hd] at hfalse

/-- A cache with lines of eight blocks. -/
def smallGeometry : Geometry := ⟨8, eightBlocks_pos, 64, 128, 16⟩

/-- Line 5 holds core line 0 of core 0, with its first block valid and dirty. -/
def partialTable : LineTable where
  hash := fun h => if h = 0 then [5] else []
  coreInfo := fun l => if l = 5 then (0, 0) else (ocfCoreNum, ullongMax)
  valid := fun l b => decide (l = 5 ∧ b = 0)
  dirty := fun l b => decide (l = 5 ∧ b = 0)
  partitionId := fun _ => 0

/-- A read of some blocks of core line 0, before its lookup. -/
def newRead (blocks : Nat) : Request where
  coreId := 0
  addr := 0
  blocks := blocks
  rw := .read
  partId := 0
  map := fun _ => ⟨0, 128, 0, 0, .miss, false, false, false⟩
  info := .zero

/-- The read of the whole line, as its lookup leaves it. -/
def partialHit : Request := ocfEngineLookup smallGeometry partialTable (newRead 8)

/-- The read of the first block, as its lookup leaves it. -/
def fullHit : Request := ocfEngineLookup smallGeometry partialTable (newRead 1)

/-- With nothing changed during the wait, the re-check of a partially valid
line reports no dirty data where the lookup reported it. -/
theorem partialHit_not_fresh : StillMapped smallGeometry partialTable partialHit ∧
      ¬ CheckIsFresh smallGeometry partialTable partialHit ∧ partialHit.info.dirtyAny = 1 ∧
      (ocfEngineCheck smallGeometry partialTable partialHit).2.info.dirtyAny = 0 := by
  have hzero : (ocfEngineCheck smallGeometry partialTable partialHit).2.info.dirtyAny = 0 := by
    decide
  refine ⟨by unfold StillMapped; decide, fun h => ?_, by decide, hzero⟩
  have hpos := h.dirty ⟨0, by decide, .inr (by decide), by decide⟩
  omega

theorem checkIsFresh_iff_fullHit : StillMapped smallGeometry partialTable fullHit ∧
      (CheckIsFresh smallGeometry partialTable fullHit ↔
        ∀ i < fullHit.coreLineCount smallGeometry, (fullHit.map i).status ≠ .hitInvalid) :=
  have h : StillMapped smallGeometry partialTable fullHit := by unfold StillMapped; decide
  ⟨h, checkIsFresh_iff h⟩

end OcfCache.EngineRecheck
