import OcfCache.Metadata

/-!
# Cleaning requests

The part of `utils_cleaner.c` that turns the lines of a caller into cleaning
requests: the size of a request and the loop that fills its map. What a request
then does with its map, and how the requests of one call finish, is in the
modules that import this one.
-/

namespace OcfCache.Cleaner

open Metadata

/-- `struct ocf_map_info`, as far as the cleaner uses it. -/
structure MapInfo where
  /-- Core of the line when it was chosen. -/
  coreId : Nat
  /-- Core line when it was chosen. -/
  coreLine : Nat
  /-- Cache line. -/
  collIdx : Nat
  /-- Slot of the data buffer. -/
  hash : Nat
  /-- The line is read and written back. -/
  flush : Bool
  /-- An I/O of the request failed. -/
  invalid : Bool
  deriving DecidableEq

/-- `struct ocf_cleaner_attribs`. -/
structure Attribs where
  /-- Number of items. -/
  count : Nat
  /-- The completion is called from the queue. -/
  cmplQueue : Bool
  /-- Cache line of an item, unless it is skipped. -/
  getter : Nat → Option Nat

/-- `_ocf_cleaner_get_req_max_count`. -/
def getReqMaxCount (count : Nat) (lowMem : Bool) : Nat :=
  if lowMem = true ∨ count ≤ 4096 then if count < 128 then count else 128 else 1024

/-- The loop of `ocf_cleaner_populate_req`: the items left, the next item, the
core of the request so far and the map. -/
def populateLoop (coreInfo : Nat → Nat × Nat) (attribs : Attribs) (mapMax : Nat) :
    Nat → Nat → Nat → List MapInfo → List MapInfo × Nat
  | 0, curr, _, map => (map, curr)
  | n + 1, curr, lastCoreId, map =>
    if mapMax ≤ map.length then (map, curr)
    else
      match attribs.getter curr with
      | none => populateLoop coreInfo attribs mapMax n (curr + 1) lastCoreId map
      | some line =>
        let coreId := (coreInfo line).1
        let lastCoreId := if lastCoreId = ocfCoreNum then coreId else lastCoreId
        if coreId ≠ lastCoreId then (map, curr)
        else
          let entry := ⟨coreId, (coreInfo line).2, line, map.length, false, false⟩
          populateLoop coreInfo attribs mapMax n (curr + 1) lastCoreId (map ++ [entry])

/-- `ocf_cleaner_populate_req`: the map of a request of some size and the item
after its last one, with the core lines of the cache lines at that time. -/
def ocfCleanerPopulateReq (coreInfo : Nat → Nat × Nat) (attribs : Attribs) (mapMax curr : Nat) :
    List MapInfo × Nat :=
  populateLoop coreInfo attribs mapMax (attribs.count - curr) curr ocfCoreNum []

/-- The items below a bound are in a list of maps. -/
def Holds (attribs : Attribs) (start stop : Nat) (map : List MapInfo) : Prop :=
  ∀ i, start ≤ i → i < stop → ∀ line, attribs.getter i = some line → ∃ e ∈ map, e.collIdx = line

/-- What the loop has done when it ends: it has put every item that it passed
on the map, and it stops before the last item only with a nonempty map. -/
theorem populateLoop_spec (coreInfo : Nat → Nat × Nat) (attribs : Attribs) {mapMax : Nat} (hmax : 0 < mapMax)
    (start : Nat) (n curr lastCoreId : Nat) (map : List MapInfo) (hstart : start ≤ curr)
    (hlast : map = [] → lastCoreId = ocfCoreNum) (hmap : Holds attribs start curr map) :
    ∃ map' stop, populateLoop coreInfo attribs mapMax n curr lastCoreId map = (map', stop) ∧
      curr ≤ stop ∧ stop ≤ curr + n ∧ Holds attribs start stop map' ∧ (map' = [] → stop = curr + n) := by
  induction n generalizing curr lastCoreId map with
  | zero => exact ⟨map, curr, rfl, Nat.le_refl _, Nat.le_refl _, hmap, fun _ => rfl⟩
  | succ n ih =>
    unfold populateLoop
    by_cases hfull : mapMax ≤ map.length
    · rw [if_pos hfull]
      refine ⟨map, curr, rfl, Nat.le_refl _, by omega, hmap, fun hnil => ?_⟩
      rw [hnil, List.length_nil] at hfull
      omega
    · rw [if_neg hfull]
      cases hitem : attribs.getter curr with
      | none =>
        have hmap' : Holds attribs start (curr + 1) map := by
          intro i hi hlt line hline
          rcases Nat.lt_succ_iff_lt_or_eq.mp hlt with hlt | heq
          · exact hmap i hi hlt line hline
          · rw [heq, hitem] at hline
            cases hline
        obtain ⟨map', stop, heq, hle, hbound, hholds, hnil⟩ := ih (curr + 1) lastCoreId map (by omega) hlast hmap'
        exact ⟨map', stop, heq, by omega, by omega, hholds, fun h => by rw [hnil h]; omega⟩
      | some line =>
        obtain ⟨last', hlast'⟩ : ∃ c, (if lastCoreId = ocfCoreNum then (coreInfo line).1 else lastCoreId) = c :=
          ⟨_, rfl⟩
        dsimp only
        rw [hlast']
        by_cases hcore : (coreInfo line).1 ≠ last'
        · rw [if_pos hcore]
          refine ⟨map, curr, rfl, Nat.le_refl _, by omega, hmap, fun hnil => ?_⟩
          rw [hlast hnil, if_pos rfl] at hlast'
          exact absurd hlast' hcore
        · rw [if_neg hcore]
          have hmap' : Holds attribs start (curr + 1)
              (map ++ [⟨(coreInfo line).1, (coreInfo line).2, line, map.length, false, false⟩]) := by
            intro i hi hlt line' hline
            rcases Nat.lt_succ_iff_lt_or_eq.mp hlt with hlt | heq
            · obtain ⟨e, he, hidx⟩ := hmap i hi hlt line' hline
              exact ⟨e, List.mem_append_left _ he, hidx⟩
            · rw [heq, hitem] at hline
              cases hline
              exact ⟨_, List.mem_append_right _ (List.mem_singleton.mpr rfl), rfl⟩
          obtain ⟨map', stop, heq, hle, hbound, hholds, hnil⟩ := ih (curr + 1) _ _ (by omega)
            (fun h => absurd h (by simp)) hmap'
          exact ⟨map', stop, heq, by omega, by omega, hholds, fun h => by rw [hnil h]; omega⟩

/-- `ocf_cleaner_populate_req` puts the items it passes on the map, and passes
all of them if the map stays empty. -/
theorem ocfCleanerPopulateReq_spec (coreInfo : Nat → Nat × Nat) (attribs : Attribs) {mapMax curr : Nat}
    (hmax : curr < attribs.count → 0 < mapMax) (hcurr : curr ≤ attribs.count) {map : List MapInfo} {stop : Nat}
    (h : ocfCleanerPopulateReq coreInfo attribs mapMax curr = (map, stop)) :
    curr ≤ stop ∧ stop ≤ attribs.count ∧ Holds attribs curr stop map ∧ (map = [] → stop = attribs.count) := by
  unfold ocfCleanerPopulateReq at h
  rcases Nat.lt_or_ge curr attribs.count with hlt | hge
  · obtain ⟨map', stop', heq, hle, hbound, hholds, hnil⟩ := populateLoop_spec coreInfo attribs (hmax hlt) curr
      (attribs.count - curr) curr ocfCoreNum [] (Nat.le_refl _) (fun _ => rfl)
      fun i hi hlt => absurd hlt (by omega)
    rw [heq] at h
    cases h
    exact ⟨hle, by omega, hholds, fun h => by rw [hnil h]; omega⟩
  · have hend : attribs.count - curr = 0 := by omega
    rw [hend] at h
    cases h
    exact ⟨Nat.le_refl _, hcurr, fun i hi hlt => absurd hlt (by omega), fun _ => by omega⟩

end OcfCache.Cleaner
