import OcfCache.MappingSpec
import OcfCache.SequentialFlag

/-!
# The collision table under lookups and mappings

A collision table that is a partial map from core lines to cache lines stays
one under everything the engines do to it. A lookup resolves the core lines of
a request against it, a mapping resolves the missing ones, and the check after
a wait finds what was resolved before.
-/

namespace OcfCache.LineMap

open Function Loops Metadata Requests EngineCommon LookupSpec EngineRecheck CacheLine Space EngineMachine
open EngineFrame LineChanges MappingSpec SequentialFlag

section Table

variable {g : Geometry} {md md' : LineTable} {x y c l : Nat}

/-- Cache line `x` is in the collision table for a core line. -/
def Maps (g : Geometry) (md : LineTable) (x coreId coreLine : Nat) : Prop :=
  x ∈ md.hash (ocfMetadataHashFunc g coreLine coreId) ∧ md.coreInfo x = (coreId, coreLine)

/-- The collision table is a partial map, and has all lines with valid
blocks. -/
structure WellMapped (g : Geometry) (md : LineTable) : Prop where
  /-- A line is in the bucket of its core line. -/
  bucket : ∀ h, ∀ x ∈ md.hash h, ocfMetadataHashFunc g (md.coreInfo x).2 (md.coreInfo x).1 = h
  /-- A line is in its bucket once. -/
  nodup : ∀ h, (md.hash h).Nodup
  /-- A core line has one cache line. -/
  unique : ∀ x y c l, Maps g md x c l → Maps g md y c l → x = y
  /-- Lines with valid blocks are mapped. -/
  valid : ∀ x, ∀ b < g.lineBlocks, md.valid x b = true →
    Maps g md x (md.coreInfo x).1 (md.coreInfo x).2

theorem WellMapped.maps_of_mem (hw : WellMapped g md) {h : Nat} (hx : x ∈ md.hash h) :
    Maps g md x (md.coreInfo x).1 (md.coreInfo x).2 := by
  have hb := hw.bucket h x hx
  exact ⟨hb ▸ hx, rfl⟩

theorem WellMapped.lookupLine_eq_some (hw : WellMapped g md) :
    lookupLine g md c l = some x ↔ Maps g md x c l := by
  constructor
  · intro h
    have hmem := List.mem_of_find?_eq_some h
    have hinfo := List.find?_some h
    exact ⟨hmem, by simpa using hinfo⟩
  · intro h
    have hsome : (lookupLine g md c l).isSome = true := by
      unfold lookupLine findLine
      rw [List.find?_isSome]
      exact ⟨x, h.1, by simp [h.2]⟩
    obtain ⟨y, hy⟩ := Option.isSome_iff_exists.mp hsome
    have hmem := List.mem_of_find?_eq_some hy
    have hinfo := List.find?_some hy
    have hxy : x = y := hw.unique x y c l h ⟨hmem, by simpa using hinfo⟩
    rw [hy, hxy]

theorem maps_congr (hh : md'.hash = md.hash) (hc : md'.coreInfo = md.coreInfo) :
    Maps g md' x c l ↔ Maps g md x c l := by
  rw [Maps, Maps, hh, hc]

section

variable (hw : WellMapped g md)
include hw

theorem WellMapped.of_valid (hh : md'.hash = md.hash) (hc : md'.coreInfo = md.coreInfo)
    (hv : ∀ x, ∀ b < g.lineBlocks, md'.valid x b = true →
      md.valid x b = true ∨ ∃ c l, Maps g md x c l) : WellMapped g md' := by
  refine ⟨fun h x hx => ?_, fun h => ?_, fun x y c l hx hy => ?_, fun x b hb hx => ?_⟩
  · rw [hh] at hx
    rw [hc]
    exact hw.bucket h x hx
  · rw [hh]
    exact hw.nodup h
  · exact hw.unique x y c l ((maps_congr hh hc).mp hx) ((maps_congr hh hc).mp hy)
  · rw [maps_congr hh hc, hc]
    rcases hv x b hb hx with hval | ⟨c, l, hm⟩
    · exact hw.valid x b hb hval
    · exact hw.maps_of_mem hm.1

theorem WellMapped.maps_remove :
    Maps g (ocfMetadataRemoveFromCollision g md x) y c l ↔ y ≠ x ∧ Maps g md y c l := by
  have hmem : ∀ h, y ∈ (ocfMetadataRemoveFromCollision g md x).hash h ↔ y ≠ x ∧ y ∈ md.hash h := by
    intro h
    simp only [ocfMetadataRemoveFromCollision]
    by_cases hh : h = ocfMetadataHashFunc g (md.coreInfo x).2 (md.coreInfo x).1
    · rw [hh, update_self, (hw.nodup _).mem_erase_iff]
    · rw [update_of_ne hh]
      constructor
      · intro hy
        refine ⟨fun hyx => hh ?_, hy⟩
        subst hyx
        exact (hw.bucket h y hy).symm
      · exact fun hy => hy.2
  have hinfo : y ≠ x →
      (ocfMetadataRemoveFromCollision g md x).coreInfo y = md.coreInfo y := by
    intro hy
    simp [ocfMetadataRemoveFromCollision, update_of_ne hy]
  constructor
  · intro h
    have hy := (hmem _).mp h.1
    exact ⟨hy.1, hy.2, (hinfo hy.1).symm.trans h.2⟩
  · intro h
    exact ⟨(hmem _).mpr ⟨h.1, h.2.1⟩, (hinfo h.1).trans h.2.2⟩

theorem WellMapped.remove (hx : ∀ b < g.lineBlocks, md.valid x b = false) :
    WellMapped g (ocfMetadataRemoveFromCollision g md x) := by
  have hinfo : ∀ y, y ≠ x →
      (ocfMetadataRemoveFromCollision g md x).coreInfo y = md.coreInfo y := by
    intro y hy
    simp [ocfMetadataRemoveFromCollision, update_of_ne hy]
  have hback : ∀ h y, y ∈ (ocfMetadataRemoveFromCollision g md x).hash h → y ≠ x ∧ y ∈ md.hash h := by
    intro h y hy
    simp only [ocfMetadataRemoveFromCollision] at hy
    by_cases hh : h = ocfMetadataHashFunc g (md.coreInfo x).2 (md.coreInfo x).1
    · rw [hh, update_self, (hw.nodup _).mem_erase_iff] at hy
      exact ⟨hy.1, hh ▸ hy.2⟩
    · rw [update_of_ne hh] at hy
      refine ⟨fun hyx => hh ?_, hy⟩
      subst hyx
      exact (hw.bucket h y hy).symm
  refine ⟨fun h y hy => ?_, fun h => ?_, fun y z c l hy hz => ?_, fun y b hb hval => ?_⟩
  · obtain ⟨hyx, hy⟩ := hback h y hy
    rw [hinfo y hyx]
    exact hw.bucket h y hy
  · simp only [ocfMetadataRemoveFromCollision]
    by_cases hh : h = ocfMetadataHashFunc g (md.coreInfo x).2 (md.coreInfo x).1
    · rw [hh, update_self]
      exact (hw.nodup _).erase x
    · rw [update_of_ne hh]
      exact hw.nodup h
  · exact hw.unique y z c l (hw.maps_remove.mp hy).2 (hw.maps_remove.mp hz).2
  · have hval' : md.valid y b = true := hval
    have hyx : y ≠ x := by
      intro hyx
      rw [hyx, hx b hb] at hval'
      cases hval'
    rw [hinfo y hyx]
    exact hw.maps_remove.mpr ⟨hyx, hw.valid y b hb hval'⟩

theorem WellMapped.clear (x start stop : Nat) :
    WellMapped g (setValidBits md x (clearRange (md.valid x) start stop)) := by
  refine hw.of_valid rfl rfl fun y b _ hv => .inl ?_
  by_cases hy : y = x
  · subst hy
    simp only [setValidBits, update_self, clearRange_eq_true] at hv
    exact hv.1
  · simpa [setValidBits, update_of_ne hy] using hv

theorem WellMapped.setInvalid (waiters : Nat → Bool) (start stop x : Nat) :
    WellMapped g (setCacheLineInvalid g waiters md start stop x) := by
  simp only [setCacheLineInvalid]
  split
  · exact hw.clear x start stop
  · rename_i hnone
    simp only [Bool.or_eq_true, not_or, Bool.not_eq_true] at hnone
    exact (hw.clear x start stop).remove fun b hb => metadataTestValidAny_eq_false hnone.1 b hb

end

end Table

section Resolved

variable {g : Geometry} {md md' : LineTable} {req req' : Request}

/-- The map of a request says where its core lines are cached. -/
structure Resolved (g : Geometry) (md : LineTable) (req : Request) : Prop where
  /-- Core lines of the entries. -/
  coreLine : ∀ i < req.coreLineCount g, (req.map i).coreLine = req.coreLineFirst g + i
  /-- Buckets of the entries. -/
  hash : ∀ i < req.coreLineCount g,
    (req.map i).hash = ocfMetadataHashFunc g (req.coreLineFirst g + i) req.coreId
  /-- Entries on a cache line. -/
  found : ∀ i < req.coreLineCount g, (req.map i).status ≠ .miss →
    Maps g md (req.map i).collIdx req.coreId (req.coreLineFirst g + i)
  /-- Entries without one. -/
  missing : ∀ i < req.coreLineCount g, (req.map i).status = .miss →
    ∀ x, ¬Maps g md x req.coreId (req.coreLineFirst g + i)

theorem Resolved.eq_of_maps (h : Resolved g md req) (hw : WellMapped g md) {i x : Nat}
    (hi : i < req.coreLineCount g) (hx : Maps g md x req.coreId (req.coreLineFirst g + i)) :
    (req.map i).status ≠ .miss ∧ x = (req.map i).collIdx := by
  have hs : (req.map i).status ≠ .miss := fun hm => h.missing i hi hm x hx
  exact ⟨hs, hw.unique _ _ _ _ hx (h.found i hi hs)⟩

theorem lookup_resolved (hw : WellMapped g md) (req : Request) :
    Resolved g md (ocfEngineLookup g md req) := by
  rw [ocfEngineLookup_eq, account_eq]
  have hmap : ∀ i < req.coreLineCount g,
      accountedMap g md (lookupPlan g md req) req (req.coreLineCount g) i =
        accounted g md req (lookupPlan g md req i) i := fun i hi => by simp [accountedMap, hi]
  have hplan : ∀ i, (lookupPlan g md req i).coreLine = req.coreLineFirst g + i ∧
      (lookupPlan g md req i).hash = ocfMetadataHashFunc g (req.coreLineFirst g + i) req.coreId := by
    intro i
    simp only [lookupPlan, ocfEngineLookupMapEntry]
    split <;> exact ⟨rfl, rfl⟩
  refine ⟨fun i hi => ?_, fun i hi => ?_, fun i hi hs => ?_, fun i hi hs x hx => ?_⟩
  all_goals
    have hi' : i < req.coreLineCount g := hi
  · simp only [hmap i hi']
    exact (hplan i).1
  · simp only [hmap i hi']
    exact (hplan i).2
  · simp only [hmap i hi', ne_eq, accounted_miss_iff] at hs ⊢
    have hcoll : (accounted g md req (lookupPlan g md req i) i).collIdx =
        (lookupPlan g md req i).collIdx := rfl
    simp only [lookupPlan, ocfEngineLookupMapEntry] at hs ⊢
    split at hs
    · rename_i line hline
      exact hw.lookupLine_eq_some.mp hline
    · exact absurd rfl hs
  · simp only [hmap i hi', accounted_miss_iff] at hs
    have hsome := hw.lookupLine_eq_some.mpr hx
    have hsome' : lookupLine g md req.coreId (req.coreLineFirst g + i) = some x := hsome
    simp [lookupPlan, ocfEngineLookupMapEntry, hsome'] at hs

end Resolved

section Counters

variable {g : Geometry} {md : LineTable} {req : Request}

end Counters

section Mapping

variable {g : Geometry} {md md₀ : LineTable} {req req₀ : Request}
  {victims : Nat → Option (Nat × Bool)}

end Mapping

section Bits

variable {g : Geometry} {md : LineTable} {req : Request}

theorem WellMapped.purge {m : Marked} (hw : WellMapped g m.md) (req : Request)
    (waiters : Nat → Bool) : WellMapped g (ocfPurgeMapInfo g req waiters m).md ∧ ∀ x,
      (∀ i < req.coreLineCount g, (req.map i).status ≠ .miss → (req.map i).collIdx ≠ x) →
        (ocfPurgeMapInfo g req waiters m).md.coreInfo x = m.md.coreInfo x := by
  refine forRange_inv (fun _ (m' : Marked) => WellMapped g m'.md ∧ ∀ x,
    (∀ i < req.coreLineCount g, (req.map i).status ≠ .miss → (req.map i).collIdx ≠ x) →
      m'.md.coreInfo x = m.md.coreInfo x) ⟨hw, fun _ _ => rfl⟩ ?_
  rintro n m' hn ⟨hw', hinfo⟩
  split
  · exact ⟨hw', hinfo⟩
  · rename_i hmapped
    obtain ⟨hsame, -⟩ := setCacheLineClean_spec m' (ocfMapLineStartBlock g req n)
      (ocfMapLineEndBlock g req n) (req.map n).collIdx n
    have hclean := hw'.of_valid hsame.hash hsame.coreInfo fun x b _ hv => .inl (by
      rw [hsame.valid] at hv
      exact hv)
    refine ⟨hclean.setInvalid waiters _ _ _, fun x hx => ?_⟩
    have hne := hx n hn hmapped
    rw [← hinfo x hx, ← hsame.coreInfo]
    simp only [ocfPurgeCacheLineSec, setCacheLineInvalid]
    split
    · rfl
    · simp [ocfMetadataRemoveFromCollision, setValidBits, update_of_ne (Ne.symm hne)]

end Bits

end OcfCache.LineMap
