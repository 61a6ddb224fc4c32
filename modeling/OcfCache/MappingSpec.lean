import OcfCache.EngineFrame
import OcfCache.EngineRecheck
import OcfCache.LineChanges

/-!
# What lookups and mappings find and change

A request that counts as a hit has all its blocks valid, and a lookup that
counts no mapped line has none. Mapping missing core lines touches only the
lines that were found for them, none of which has a dirty block, and leaves
every line that loses its core line without one.
-/

namespace OcfCache.MappingSpec

open Function Loops Metadata Requests EngineCommon LookupSpec EngineRecheck CacheLine Space EngineMachine
open EngineFrame LineChanges

variable {g : Geometry} {md : LineTable} {req : Request}

section Lookup

/-- All requested blocks are valid on hit lines. -/
def AllValid (g : Geometry) (md : LineTable) (req : Request) : Prop :=
  ∀ i < req.coreLineCount g, (req.map i).status = .hit ∧ ∀ b,
    ocfMapLineStartBlock g req i ≤ b → b ≤ ocfMapLineEndBlock g req i →
      md.valid (req.map i).collIdx b = true

theorem account_isHit {plan : Nat → MapInfo} (h : ocfEngineIsHit g (account g md plan req) = true) :
    AllValid g md (account g md plan req) := by
  rw [account_eq] at h ⊢
  have hcount : countBelow (fun i => (plan i).status == .hit && entryValid g md req (plan i) i)
      (req.coreLineCount g) = req.coreLineCount g := by
    simp only [ocfEngineIsHit, beq_iff_eq] at h
    exact h
  intro i hi
  have hi' : i < req.coreLineCount g := hi
  have hent := countBelow_eq_self.mp hcount i hi'
  simp only [Bool.and_eq_true, beq_iff_eq] at hent
  simp only [accountedMap, if_pos hi', accounted, hent.1, hent.2, Bool.not_true, Bool.and_false,
    Bool.false_eq_true, if_false]
  refine ⟨trivial, fun b hs he => ?_⟩
  have hv := hent.2
  simp only [entryValid, metadataTestValidSec, testAll_eq_true] at hv
  exact hv b he hs

theorem lookup_isHit (h : ocfEngineIsHit g (ocfEngineLookup g md req) = true) :
    AllValid g md (ocfEngineLookup g md req) := by
  rw [ocfEngineLookup_eq] at h ⊢
  exact account_isHit h

theorem check_isHit (hv : (ocfEngineCheck g md req).1 = false)
    (h : ocfEngineIsHit g (ocfEngineCheck g md req).2 = true) :
    AllValid g md (ocfEngineCheck g md req).2 := by
  rw [check_of_valid hv] at h ⊢
  exact account_isHit h

theorem check_entry (hv : (ocfEngineCheck g md req).1 = false) {i : Nat}
    (hi : i < req.coreLineCount g) :
    ((ocfEngineCheck g md req).2.map i).collIdx = (req.map i).collIdx ∧
      (((ocfEngineCheck g md req).2.map i).status = .miss ↔ (req.map i).status = .miss) := by
  rw [check_of_valid hv, account_eq]
  simp only [accountedMap, if_pos hi, accounted_miss_iff, checkPlan_status]
  exact ⟨checkPlan_collIdx req i, trivial⟩

variable (g md req) in
theorem lookup_found_le : (ocfEngineLookup g md req).info.hitNo +
    (ocfEngineLookup g md req).info.invalidNo ≤ req.coreLineCount g := by
  rw [ocfEngineLookup_eq, account_eq, accountedInfo_found]
  exact countBelow_le _ _

theorem lookup_status {i : Nat} (hi : i < req.coreLineCount g) :
    ((ocfEngineLookup g md req).map i).status ≠ .remapped ∧
      (ocfEngineMappedCount (ocfEngineLookup g md req) = 0 →
        ((ocfEngineLookup g md req).map i).status = .miss) := by
  have hplan : (lookupPlan g md req i).status = .hit ∨ (lookupPlan g md req i).status = .miss :=
    lookupMapEntry_status g md (req.map i) req.coreId (req.coreLineFirst g + i)
  rw [ocfEngineLookup_eq, account_eq]
  simp only [accountedMap, if_pos hi]
  refine ⟨?_, fun h0 => ?_⟩
  · rcases hplan with hs | hs
    · simp only [accounted, hs]
      split <;> simp
    · rw [(accounted_miss_iff g md req _ i).mpr hs]
      simp
  · rw [accounted_miss_iff]
    refine hplan.resolve_left fun hs => ?_
    simp only [ocfEngineMappedCount, accountedInfo_found] at h0
    have := countBelow_eq_zero.mp h0 i hi
    simp [hs] at this

end Lookup

section Mapping

/-- No block of the line is dirty. -/
def CleanLine (g : Geometry) (md : LineTable) (x : Nat) : Prop :=
  ∀ b < g.lineBlocks, md.dirty x b = false

/-- Dirty blocks are valid. -/
def DirtyValid (g : Geometry) (md : LineTable) : Prop :=
  ∀ x, ∀ b < g.lineBlocks, md.dirty x b = true → md.valid x b = true

/-- Lines with another core line than before have no dirty block. -/
def InfoKept (g : Geometry) (md md' : LineTable) : Prop :=
  ∀ x, md'.coreInfo x = md.coreInfo x ∨ CleanLine g md' x

theorem cleanLine_of_test {x : Nat} (h : ¬metadataTestDirty g md x = true) : CleanLine g md x := by
  intro b hb
  simp only [metadataTestDirty, testAny_eq_true, not_exists, not_and, Bool.not_eq_true,
    Geometry.endBlock] at h
  exact h b (by omega) (Nat.zero_le b)

/-- The line is found for a missing entry. -/
def Victim (victims : Nat → Option (Nat × Bool)) (x : Nat) : Prop :=
  ∃ i free, victims i = some (x, free)

/-- State of a mapping that started from `md₀` and the request `req₀`. -/
structure Remapping (g : Geometry) (victims : Nat → Option (Nat × Bool)) (md₀ : LineTable)
    (req₀ : Request) (t : LineTable × Request) : Prop where
  /-- Dirty bits stay. -/
  dirty : t.1.dirty = md₀.dirty
  /-- Dirty blocks stay valid. -/
  valid : DirtyValid g t.1
  /-- Lines with a new core line are clean. -/
  info : InfoKept g md₀ t.1
  /-- Only lines found for the request become invalid. -/
  keep : ∀ x b, md₀.valid x b = true → t.1.valid x b = true ∨ Victim victims x
  /-- Mapped entries are on clean lines found for the request. -/
  entries : ∀ i, i < req₀.coreLineCount g → (t.2.map i).status = .remapped →
    Victim victims (t.2.map i).collIdx ∧ CleanLine g md₀ (t.2.map i).collIdx
  /-- The range stays. -/
  range : SameRange req₀ t.2
  /-- Hits stay. -/
  hitNo : t.2.info.hitNo = req₀.info.hitNo

theorem CleanLine.congr {md' : LineTable} (h : md'.dirty = md.dirty) {x : Nat} :
    CleanLine g md' x ↔ CleanLine g md x := by
  simp only [CleanLine, h]

theorem infoKept_update {md₀ md' : LineTable} {x : Nat} (h : InfoKept g md₀ md)
    (hd : md'.dirty = md.dirty) (hx : CleanLine g md x)
    (ho : ∀ y, y ≠ x → md'.coreInfo y = md.coreInfo y) : InfoKept g md₀ md' := by
  intro y
  by_cases hy : y = x
  · subst hy
    exact .inr ((CleanLine.congr hd).mpr hx)
  · rcases h y with heq | hc
    · exact .inl ((ho y hy).trans heq)
    · exact .inr ((CleanLine.congr hd).mpr hc)

/-- One entry is remapped. -/
theorem Remapping.remapEntry {victims : Nat → Option (Nat × Bool)} {md₀ : LineTable}
    {req₀ : Request} {t t' : LineTable × Request} {i : Nat} (h : Remapping g victims md₀ req₀ t)
    (hb : EngineMachine.remapEntry g victims (some t) i = some t') :
    Remapping g victims md₀ req₀ t' := by
  have hd' := remapEntry_dirty hb
  have hr' := sameRange_remapEntry victims hb
  simp only [EngineMachine.remapEntry, Option.bind_some] at hb
  split at hb
  · cases hb
    exact h
  · split at hb
    · cases hb
      exact h
    · rename_i line free hvictim
      have hv : Victim victims line := ⟨i, free, hvictim⟩
      split at hb
      · cases hb
      · rename_i hclean
        have hc := cleanLine_of_test hclean
        have hc₀ := (CleanLine.congr h.dirty).mp hc
        cases hb
        have hvalid : ∀ x b, x ≠ line →
            (if free = true then t.1 else evictInvalidate g t.1 line).valid x b = t.1.valid x b := by
          intro x b hx
          cases free
          · simp [evictInvalidate, ocfMetadataRemoveFromCollision, setValidBits,
              update_of_ne hx]
          · rfl
        have hinfo : ∀ y, y ≠ line → (if free = true then t.1
            else evictInvalidate g t.1 line).coreInfo y = t.1.coreInfo y := by
          intro y hy
          cases free
          · simp [evictInvalidate, ocfMetadataRemoveFromCollision, setValidBits,
              update_of_ne hy]
          · rfl
        refine ⟨hd'.trans h.dirty, fun x b hb hdirty => ?_, ?_, fun x b hval => ?_,
          fun j hj hs => ?_, h.range.trans hr', h.hitNo⟩
        · rw [hd'] at hdirty
          by_cases hx : x = line
          · subst hx
            exact absurd hdirty (by simp [hc b hb])
          · have hval := h.valid x b hb hdirty
            rw [← hvalid x b hx] at hval
            exact hval
        · refine infoKept_update h.info hd' hc fun y hy => ?_
          refine Eq.trans ?_ (hinfo y hy)
          simp [ocfMapCacheLine, ocfMetadataAddToCollision, update_of_ne hy]
        · by_cases hx : x = line
          · exact .inr (hx ▸ hv)
          · rcases h.keep x b hval with hval' | hvic
            · rw [← hvalid x b hx] at hval'
              exact .inl hval'
            · exact .inr hvic
        · by_cases hji : j = i
          · subst hji
            simp only [ocfEnginePatchReqInfo, ocfMapCacheLine, Request.setMap, update_self]
            exact ⟨hv, hc₀⟩
          · simp only [ocfEnginePatchReqInfo, ocfMapCacheLine, Request.setMap,
              update_of_ne hji] at hs ⊢
            exact h.entries j hj hs

theorem Remapping.mapHndlErrorEntry {victims : Nat → Option (Nat × Bool)} {md₀ : LineTable}
    {req₀ : Request} {t : LineTable × Request} {i : Nat} (h : Remapping g victims md₀ req₀ t)
    (hi : i < req₀.coreLineCount g) (waiters : Nat → Bool) :
    Remapping g victims md₀ req₀ (EngineMachine.mapHndlErrorEntry g waiters t i) := by
  have hr := sameRange_mapHndlErrorEntry (g := g) waiters t i
  unfold EngineMachine.mapHndlErrorEntry at hr ⊢
  split
  · rename_i hs
    rw [if_pos hs] at hr
    obtain ⟨hvic, hclean⟩ := h.entries i hi hs
    obtain ⟨hd, hdrop, hv⟩ := setCacheLineInvalid_spec (g := g) waiters t.1 0 g.endBlock
      (t.2.map i).collIdx
    have hc := (CleanLine.congr h.dirty).mpr hclean
    have hvalid : DirtyValid g
        (setCacheLineInvalid g waiters t.1 0 g.endBlock (t.2.map i).collIdx) := by
      intro x b hb hdirty
      rw [hd] at hdirty
      refine (hv x b).mpr ⟨h.valid x b hb hdirty, fun hx => ?_⟩
      rw [← hx.1, hc b hb] at hdirty
      cases hdirty
    refine ⟨hd.trans h.dirty, hvalid, fun x => ?_, fun x b hval => ?_, fun j hj hsj => ?_,
      h.range.trans hr, h.hitNo⟩
    · rcases hdrop x with heq | hnone
      · rcases h.info x with heq₀ | hc₀
        · exact .inl (heq.trans heq₀)
        · exact .inr ((CleanLine.congr hd).mpr hc₀)
      · refine .inr fun b hb => ?_
        rw [← Bool.not_eq_true]
        intro hdirty
        have := hvalid x b hb hdirty
        rw [hnone b hb] at this
        cases this
    · rcases h.keep x b hval with hval' | hvic'
      · by_cases hx : (t.2.map i).collIdx = x
        · exact .inr (hx ▸ hvic)
        · exact .inl ((hv x b).mpr ⟨hval', fun hx' => hx hx'.1⟩)
      · exact .inr hvic'
    · by_cases hji : j = i
      · subst hji
        simp [Request.setMap] at hsj
      · simp only [Request.setMap, update_of_ne hji] at hsj ⊢
        exact h.entries j hj hsj
  · exact h

/-- What the preparation of the cache lines of a request does. -/
structure Prepared (g : Geometry) (victims : Nat → Option (Nat × Bool)) (md₀ : LineTable)
    (r : LineTable × Request × Bool) : Prop where
  /-- Dirty bits stay. -/
  dirty : r.1.dirty = md₀.dirty
  /-- Dirty blocks stay valid. -/
  valid : DirtyValid g r.1
  /-- Lines with a new core line are clean. -/
  info : InfoKept g md₀ r.1
  /-- Only lines found for the request become invalid. -/
  keep : ∀ x b, md₀.valid x b = true → r.1.valid x b = true ∨ Victim victims x
  /-- A hit has all its blocks valid. -/
  hit : r.2.2 = true → ocfEngineIsHit g r.2.1 = true → AllValid g r.1 r.2.1

theorem prepared_same (victims : Nat → Option (Nat × Bool)) (h : DirtyValid g md)
    {r : Request × Bool} (hhit : r.2 = true → ocfEngineIsHit g r.1 = true → AllValid g md r.1) :
    Prepared g victims md (md, r) :=
  ⟨rfl, h, fun _ => .inl rfl, fun _ _ hv => .inl hv, hhit⟩

/-- The lines of a request after its mapping. -/
theorem prepareClines_spec {D : Type*} {ch : Choice D} {r : LineTable × Request × Bool}
    (h : ocfEnginePrepareClines g md req ch = some r) (hv : DirtyValid g md) :
    Prepared g ch.victims md r := by
  simp only [ocfEnginePrepareClines] at h
  split at h
  · cases h
    exact prepared_same _ hv (by simp)
  · split at h
    · cases h
      exact prepared_same _ hv fun _ => lookup_isHit
    · rename_i hmapped
      split at h
      · cases h
        exact prepared_same _ hv (by simp)
      · obtain ⟨m, hm, hr⟩ := Option.map_eq_some_iff.mp h
        have hrange : SameRange req (ocfEngineLookup g md req) := sameRange_lookup req
        have hstart : Remapping g ch.victims md (ocfEngineLookup g md req)
            (md, ocfEngineLookup g md req) := by
          refine ⟨rfl, hv, fun _ => .inl rfl, fun _ _ h => .inl h, fun i hi hs => ?_, .rfl', rfl⟩
          rw [hrange.coreLineCount] at hi
          exact absurd hs (lookup_status hi).1
        have hremap : Remapping g ch.victims md (ocfEngineLookup g md req) m := by
          refine forRange_option (fun _ => rfl)
            (fun _ t => Remapping g ch.victims md (ocfEngineLookup g md req) t) hstart ?_ hm
          exact fun i t t' _ ht hbody => ht.remapEntry hbody
        have hmiss : ocfEngineIsHit g m.2 = false := by
          have hle := lookup_found_le g md req
          simp only [ocfEngineIsMapped, beq_iff_eq, hrange.coreLineCount] at hmapped
          simp only [ocfEngineIsHit, hremap.hitNo, hremap.range.coreLineCount, hrange.coreLineCount,
            beq_eq_false_iff_ne, ne_eq]
          omega
        rw [← hr]
        split
        · exact ⟨hremap.dirty, hremap.valid, hremap.info, hremap.keep,
            fun _ hhit => absurd hhit (by simp [hmiss])⟩
        · have herr : Remapping g ch.victims md (ocfEngineLookup g md req)
              (forRange (m.2.coreLineCount g) (mapHndlErrorEntry g ch.waiters) m) := by
            refine forRange_inv (fun _ t =>
              Remapping g ch.victims md (ocfEngineLookup g md req) t) hremap ?_
            intro i t hi ht
            exact ht.mapHndlErrorEntry (by rwa [hremap.range.coreLineCount] at hi) ch.waiters
          exact ⟨herr.dirty, herr.valid, herr.info, herr.keep, (by simp)⟩

end Mapping

end OcfCache.MappingSpec
