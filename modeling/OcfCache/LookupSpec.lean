import OcfCache.EngineCommon

/-!
# What a lookup counts

Lookup and re-check are one accounting loop over different map entries: an
entry is put into the map and, unless it is a miss, accounted for. The module
has the closed form of that loop: the statuses it leaves and every counter as
the number of entries with a property.
-/

namespace OcfCache.LookupSpec

open Function Loops Metadata Requests EngineCommon

variable (g : Geometry) (md : LineTable)

/-- Body of the accounting loop over planned entries. -/
def accountBody (plan : Nat → MapInfo) (req : Request) (i : Nat) : Request :=
  if (plan i).status = .miss then req.setMap i (plan i)
  else ocfEngineUpdateReqInfo g md (req.setMap i (plan i)) i

/-- The accounting loop. -/
def account (plan : Nat → MapInfo) (req : Request) : Request :=
  forRange (req.coreLineCount g) (accountBody g md plan) (ocfReqClearInfo req)

/-- A planned entry after its accounting. -/
def accounted (req : Request) (e : MapInfo) (i : Nat) : MapInfo :=
  { e with
    status := if e.status == .hit && !entryValid g md req e i then .hitInvalid else e.status
    rePart := e.rePart || entryRePart md req e }

/-- The planned entry follows its predecessor on the cache device. -/
def planSeq (plan : Nat → MapInfo) (i : Nat) : Bool :=
  decide (0 < i) && (plan (i - 1)).status != .miss && (plan i).status != .miss &&
    decide ((plan (i - 1)).collIdx + 1 = (plan i).collIdx)

/-- Counters after the accounting of the first `n` entries. -/
def accountedInfo (plan : Nat → MapInfo) (req : Request) (n : Nat) : ReqInfo where
  hitNo := countBelow (fun i => (plan i).status == .hit && entryValid g md req (plan i) i) n
  invalidNo := countBelow (fun i => (plan i).status == .hit && !entryValid g md req (plan i) i) n
  rePartNo := countBelow (fun i => entryRePart md req (plan i)) n
  seqNo := countBelow (planSeq plan) n
  insertNo := countBelow (fun i => (plan i).status == .remapped) n
  dirtyAll := countBelow (fun i => (plan i).status == .hit &&
    (metadataTestDirty g md (plan i).collIdx && entryDirtyAll g md req (plan i) i)) n
  dirtyAny := countBelow (fun i => (plan i).status == .hit &&
    metadataTestDirty g md (plan i).collIdx) n
  flushMetadata := false
  mappingError := false
  cleaningRequired := false

/-- Map after the accounting of the first `n` entries. -/
def accountedMap (plan : Nat → MapInfo) (req : Request) (n : Nat) (i : Nat) : MapInfo :=
  if i < n then accounted g md req (plan i) i else req.map i

variable {g md}

theorem accountedMap_succ (plan : Nat → MapInfo) (req : Request) (n : Nat) :
    accountedMap g md plan req (n + 1) =
      update (accountedMap g md plan req n) n (accounted g md req (plan n) n) := by
  funext i
  by_cases hi : i = n
  · simp [accountedMap, hi]
  · have hlt : i < n + 1 ↔ i < n := by omega
    simp [accountedMap, update_of_ne hi, hlt]

variable (g md) in
theorem accounted_miss_iff (req : Request) (e : MapInfo) (i : Nat) :
    (accounted g md req e i).status = .miss ↔ e.status = .miss := by
  cases hs : e.status <;> simp [accounted, hs]
  split <;> simp

theorem accounted_of_miss (req : Request) {e : MapInfo} (h : e.status = .miss) (i : Nat) :
    accounted g md req e i = e := by
  have hre : entryRePart md req e = false := by simp [entryRePart, h]
  have hhit : (e.status == LookupStatus.hit) = false := by simp [h]
  simp only [accounted, hre, hhit, Bool.false_and, Bool.or_false]
  rfl

variable (g md) in
theorem physCont_accounted (plan : Nat → MapInfo) (req : Request) {r : Request}
    {n : Nat} (hn : 0 < n) (hmap : r.map (n - 1) = accounted g md req (plan (n - 1)) (n - 1))
    (hs : (r.map n).status = .miss ↔ (plan n).status = .miss)
    (hc : (r.map n).collIdx = (plan n).collIdx) :
    ocfEngineClinesPhysCont r (n - 1) = planSeq plan n := by
  have hn' : n - 1 + 1 = n := by omega
  have hleft := accounted_miss_iff g md req (plan (n - 1)) (n - 1)
  have hcoll : (accounted g md req (plan (n - 1)) (n - 1)).collIdx = (plan (n - 1)).collIdx := rfl
  rw [Bool.eq_iff_iff]
  simp only [ocfEngineClinesPhysCont, planSeq, hn', hmap, hc, hcoll, Bool.and_eq_true,
    bne_iff_ne, ne_eq, hleft, hs, decide_eq_true_eq, beq_iff_eq]
  constructor
  · rintro ⟨⟨⟨h1, h2⟩, -⟩, h3⟩
    exact ⟨⟨⟨hn, h1⟩, h2⟩, h3⟩
  · rintro ⟨⟨⟨-, h1⟩, h2⟩, h3⟩
    exact ⟨⟨⟨h1, h2⟩, by omega⟩, h3⟩

theorem accountBody_spec (plan : Nat → MapInfo) (req : Request) (n : Nat) : accountBody g md plan
        { req with map := accountedMap g md plan req n, info := accountedInfo g md plan req n } n =
      { req with
        map := accountedMap g md plan req (n + 1)
        info := accountedInfo g md plan req (n + 1) } := by
  rw [accountedMap_succ]
  by_cases hst : (plan n).status = .miss
  · have hacc : accounted g md req (plan n) n = plan n := accounted_of_miss req hst n
    simp only [accountBody, hst, if_true, Request.setMap, hacc, Request.mk.injEq, true_and]
    simp [accountedInfo, countBelow_succ, hst, entryRePart, planSeq]
  · have hseq : (decide (0 < n) && ocfEngineClinesPhysCont
        { req with
          map := update (accountedMap g md plan req n) n (plan n)
          info := accountedInfo g md plan req n } (n - 1)) = planSeq plan n := by
      by_cases hn : 0 < n
      · have hne : n - 1 ≠ n := by omega
        have hlt : n - 1 < n := by omega
        rw [physCont_accounted g md plan req hn]
        · simp [hn]
        · simp [update_of_ne hne, accountedMap, hlt]
        · simp
        · simp
      · simp [hn, planSeq]
    simp only [accountBody, hst, if_false, ocfEngineUpdateReqInfo, Request.setMap,
      update_self, update_idem, hseq, Request.mk.injEq, true_and]
    refine ⟨rfl, ?_⟩
    simp only [accountedInfo, countBelow_succ]
    rfl

theorem account_eq (plan : Nat → MapInfo) (req : Request) : account g md plan req = { req with
        map := accountedMap g md plan req (req.coreLineCount g)
        info := accountedInfo g md plan req (req.coreLineCount g) } := by
  refine forRange_inv (fun n r => r = { req with
    map := accountedMap g md plan req n, info := accountedInfo g md plan req n }) ?_ ?_
  · rfl
  · intro i r _ hr
    rw [hr]
    exact accountBody_spec plan req i

theorem accountedInfo_congr {plan plan' : Nat → MapInfo} {req : Request} {n : Nat}
    (hs : ∀ i < n, (plan i).status = (plan' i).status)
    (hc : ∀ i < n, (plan i).collIdx = (plan' i).collIdx) :
    accountedInfo g md plan req n = accountedInfo g md plan' req n := by
  have hseq : ∀ i < n, planSeq plan i = planSeq plan' i := by
    intro i hi
    have hp : i - 1 < n := by omega
    simp only [planSeq, hs i hi, hc i hi, hs _ hp, hc _ hp]
  simp only [accountedInfo, ReqInfo.mk.injEq, and_true]
  refine ⟨?_, ?_, ?_, countBelow_congr hseq, ?_, ?_, ?_⟩
  all_goals
    refine countBelow_congr fun i hi => ?_
    simp only [entryValid, entryDirtyAll, entryRePart, hs i hi, hc i hi]

theorem accountedInfo_found (plan : Nat → MapInfo) (req : Request) (n : Nat) :
    (accountedInfo g md plan req n).hitNo + (accountedInfo g md plan req n).invalidNo =
      countBelow (fun i => (plan i).status == .hit) n := by
  simp only [accountedInfo]
  rw [← countBelow_or]
  · refine countBelow_congr fun i _ => ?_
    cases entryValid g md req (plan i) i <;> simp
  · intro i _
    cases entryValid g md req (plan i) i <;> simp

/-- Map entries that a lookup accounts for. -/
def lookupPlan (g : Geometry) (md : LineTable) (req : Request) (i : Nat) : MapInfo :=
  { ocfEngineLookupMapEntry g md (req.map i) req.coreId (req.coreLineFirst g + i) with
    rePart := false }

/-- A loop whose body accounts for a planned entry, as long as entries not yet
visited are as in the request, is the accounting loop. -/
theorem forRange_eq_account {plan : Nat → MapInfo} {req : Request} {body : Request → Nat → Request}
    (h : ∀ i < req.coreLineCount g, ∀ m info, m i = req.map i →
      body { req with map := m, info := info } i =
        accountBody g md plan { req with map := m, info := info } i) :
    forRange (req.coreLineCount g) body (ocfReqClearInfo req) = account g md plan req := by
  refine (forRange_rel (fun n r r' => r = r' ∧ r' = { req with
    map := accountedMap g md plan req n, info := accountedInfo g md plan req n }) ?_ ?_).1
  · exact ⟨rfl, rfl⟩
  · rintro i r r' hi ⟨rfl, rfl⟩
    rw [h i hi _ _ (by simp [accountedMap]), accountBody_spec]
    exact ⟨rfl, rfl⟩

variable (g md) in
theorem lookupMapEntry_status (e : MapInfo) (coreId coreLine : Nat) :
    (ocfEngineLookupMapEntry g md e coreId coreLine).status = .hit ∨
      (ocfEngineLookupMapEntry g md e coreId coreLine).status = .miss := by
  unfold ocfEngineLookupMapEntry
  split
  · exact .inl rfl
  · exact .inr rfl

variable (g md) in
theorem lookupBody_eq {req : Request} {i : Nat} {m : Nat → MapInfo} (info : ReqInfo)
    (hm : m i = req.map i) : lookupBody g md { req with map := m, info := info } i =
      accountBody g md (lookupPlan g md req) { req with map := m, info := info } i := by
  have hplan : { ocfEngineLookupMapEntry g md (m i) req.coreId (req.coreLineFirst g + i) with
      rePart := false } = lookupPlan g md req i := by
    rw [hm]
    rfl
  have hst : (lookupPlan g md req i).status =
      (ocfEngineLookupMapEntry g md (req.map i) req.coreId (req.coreLineFirst g + i)).status := rfl
  have hfirst : ({ req with map := m, info := info } : Request).coreLineFirst g =
      req.coreLineFirst g := rfl
  simp only [lookupBody, accountBody, hfirst, hplan]
  rw [hm, hst]
  rcases lookupMapEntry_status g md (req.map i) req.coreId
    (req.coreLineFirst g + i) with h | h
  · simp [h]
  · simp [h]

theorem ocfEngineLookup_eq (req : Request) :
    ocfEngineLookup g md req = account g md (lookupPlan g md req) req :=
  forRange_eq_account fun _ _ _ info hm => lookupBody_eq g md info hm

end OcfCache.LookupSpec
