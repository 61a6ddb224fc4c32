import OcfCache.LfuRuns
import OcfCache.LookupSpec

/-!
# Physical neighbours of a request

The engine counts, while the map of a request is filled, the entries that
follow their predecessor on the cache device. A lookup compares each entry with
the one before it; an entry that is filled later is compared with both sides.
Each pair is counted once, so a request whose counter is complete may be served
with a single I/O.
-/

namespace OcfCache.SequentialFlag

open Function Loops Metadata Requests EngineCommon LookupSpec Partitions Space

variable {g : Geometry}

/-- Entries `i` and `i + 1` have cache lines, and these are neighbours. -/
def adjacent (map : Nat → MapInfo) (i : Nat) : Bool :=
  (map i).status != .miss && (map (i + 1)).status != .miss &&
    (map i).collIdx + 1 == (map (i + 1)).collIdx

/-- The counters of the request are those of its map. -/
structure SeqCounted (g : Geometry) (req : Request) : Prop where
  /-- Number of neighbours. -/
  seq : req.info.seqNo = countBelow (adjacent req.map) (req.coreLineCount g - 1)
  /-- Number of remapped entries. -/
  insert : req.info.insertNo =
    countBelow (fun i => (req.map i).status == .remapped) (req.coreLineCount g)

/-- A request after a lookup and any number of calls that map missing entries,
each of them in a state of the cache of its own. -/
inductive Mapped (g : Geometry) (md : LineTable) (req : Request) : Request → Prop
  /-- `ocf_engine_lookup`. -/
  | lookup : Mapped g md req (ocfEngineLookup g md req)
  /-- `ocf_lru_req_clines` or `ocf_lfu_req_clines`. -/
  | reqClines {c : Cache} {r : Request} {src : Part} {n : Nat} {res : Result} :
      Mapped g md req r → ocfEvictionReqClines g c r src n = some res → Mapped g md req res.2.1

section Pairs

variable {map map' : Nat → MapInfo}

theorem physCont_eq (req : Request) (i : Nat) :
    ocfEngineClinesPhysCont req i = adjacent req.map i := by
  rw [Bool.eq_iff_iff]
  simp only [ocfEngineClinesPhysCont, adjacent, Bool.and_eq_true, decide_eq_true_eq, beq_iff_eq]
  constructor
  · intro h
    exact ⟨h.1.1, h.2⟩
  · intro h
    exact ⟨⟨h.1, by omega⟩, h.2⟩

theorem adjacent_congr {i : Nat} (h : map' i = map i) (h' : map' (i + 1) = map (i + 1)) :
    adjacent map' i = adjacent map i := by
  rw [adjacent, h, h']
  rfl

theorem adjacent_miss {i : Nat} (h : (map i).status = .miss ∨ (map (i + 1)).status = .miss) :
    adjacent map i = false := by
  unfold adjacent
  rcases h with h | h
  · simp [h]
  · simp [h]

theorem countBelow_planSeq (map : Nat → MapInfo) (n : Nat) :
    countBelow (planSeq map) (n + 1) = countBelow (adjacent map) n := by
  induction n with
  | zero => rfl
  | succ n ih =>
    have hlast : planSeq map (n + 1) = adjacent map n := by
      rw [Bool.eq_iff_iff]
      simp [planSeq, adjacent]
    rw [countBelow_succ, ih, countBelow_succ, hlast]

theorem countBelow_set {p q : Nat → Bool} {n : Nat} (i : Nat) (h : ∀ j < n, j ≠ i → q j = p j)
    (hp : p i = false) : countBelow q n = countBelow p n + (decide (i < n) && q i).toNat := by
  by_cases hi : i < n
  · have hchange := countBelow_change hi h
    rw [hp] at hchange
    simp only [hi, decide_true, Bool.true_and, Bool.toNat_false] at hchange ⊢
    omega
  · have hsame : countBelow q n = countBelow p n :=
      countBelow_congr fun j hj => h j hj (by omega)
    simp [hi, hsame]

theorem countBelow_fill {idx : Nat} (n : Nat) (hmiss : (map idx).status = .miss)
    (hother : ∀ j, j ≠ idx → map' j = map j) :
    countBelow (adjacent map') n = countBelow (adjacent map) n +
      (decide (0 < idx) && (decide (idx - 1 < n) && adjacent map' (idx - 1))).toNat +
      (decide (idx < n) && adjacent map' idx).toNat := by
  have hhere : adjacent map idx = false := adjacent_miss (.inl hmiss)
  have hfar : ∀ j, j ≠ idx → j + 1 ≠ idx → adjacent map' j = adjacent map j := by
    intro j hj hj'
    exact adjacent_congr (hother j hj) (hother (j + 1) hj')
  -- first the pair that starts at the entry, then the one that ends there
  have hright := countBelow_set (p := adjacent map)
    (q := update (adjacent map) idx (adjacent map' idx)) (n := n) idx
    (fun j _ hj => update_of_ne hj _ _) hhere
  rw [update_self] at hright
  by_cases hpos : 0 < idx
  · have hprev : idx - 1 + 1 = idx := by omega
    have hleft := countBelow_set (p := update (adjacent map) idx (adjacent map' idx))
      (q := adjacent map') (n := n) (idx - 1)
      (by
        intro j _ hj
        by_cases hji : j = idx
        · rw [hji, update_self]
        · rw [update_of_ne hji]
          exact hfar j hji (by omega))
      (by
        rw [update_of_ne (by omega)]
        exact adjacent_miss (.inr (by rw [hprev]; exact hmiss)))
    simp only [hpos, decide_true, Bool.true_and]
    omega
  · have hsame : countBelow (adjacent map') n =
        countBelow (update (adjacent map) idx (adjacent map' idx)) n := by
      apply countBelow_congr
      intro j _
      by_cases hji : j = idx
      · rw [hji, update_self]
      · rw [update_of_ne hji]
        exact hfar j hji (by omega)
    rw [hsame, hright]
    simp [hpos]

end Pairs

section Counting

variable {md : LineTable} {req : Request}

theorem SeqCounted.account (md : LineTable) (plan : Nat → MapInfo) (req : Request) :
    SeqCounted g (LookupSpec.account g md plan req) := by
  rw [account_eq]
  have hcount : 0 < req.coreLineCount g := Nat.succ_pos _
  constructor
  · change countBelow (planSeq plan) (req.coreLineCount g) =
      countBelow (adjacent (accountedMap g md plan req (req.coreLineCount g)))
        (req.coreLineCount g - 1)
    obtain ⟨n, hn⟩ : ∃ n, req.coreLineCount g = n + 1 := ⟨req.coreLineCount g - 1, by omega⟩
    rw [hn, countBelow_planSeq, Nat.add_sub_cancel]
    apply countBelow_congr
    intro i hi
    have hi1 : i < n + 1 := by omega
    have hi2 : i + 1 < n + 1 := by omega
    rw [Bool.eq_iff_iff]
    simp only [adjacent, accountedMap, if_pos hi1, if_pos hi2, Bool.and_eq_true, bne_iff_ne, ne_eq,
      accounted_miss_iff]
    exact Iff.rfl
  · apply countBelow_congr
    intro i hi
    simp only [accountedMap, if_pos hi]
    cases hs : (plan i).status <;> simp only [accounted, hs]
    · split <;> simp
    all_goals simp

theorem SeqCounted.lookup (md : LineTable) (req : Request) :
    SeqCounted g (ocfEngineLookup g md req) := by
  rw [ocfEngineLookup_eq]
  exact SeqCounted.account md _ req

theorem nextMiss_lt (req : Request) (fuel : Nat) {idx : Nat} (h : idx < req.coreLineCount g) :
    nextMiss g req fuel idx < req.coreLineCount g := by
  induction fuel generalizing idx with
  | zero => exact h
  | succ fuel ih =>
    rw [nextMiss]
    split
    · rename_i hnext
      exact ih hnext.1
    · exact h

/-- A missing entry with a cache line, as `ocf_lru_req_clines` leaves it. -/
def mapEntry (g : Geometry) (md : LineTable) (req : Request) (i x : Nat) : Request :=
  let r := (ocfMapCacheLine g md req i x).2
  ocfEnginePatchReqInfo g (r.setMap i { r.map i with status := .remapped }) i

theorem mapEntry_map (md : LineTable) (req : Request) (i x : Nat) : (mapEntry g md req i x).map =
      update req.map i { req.map i with collIdx := x, status := .remapped } := by
  simp [mapEntry, ocfMapCacheLine, ocfEnginePatchReqInfo, Request.setMap]

theorem SeqCounted.mapEntry {x i : Nat} (h : SeqCounted g req) (md : LineTable)
    (hlt : i < req.coreLineCount g) (hmiss : (req.map i).status = .miss) :
    SeqCounted g (SequentialFlag.mapEntry g md req i x) := by
  have hmap := mapEntry_map (g := g) md req i x
  have hsame : (SequentialFlag.mapEntry g md req i x).coreLineCount g = req.coreLineCount g := rfl
  have hseq : (SequentialFlag.mapEntry g md req i x).info.seqNo = req.info.seqNo +
      (decide (0 < i) && adjacent (SequentialFlag.mapEntry g md req i x).map (i - 1)).toNat +
      (decide (i + 1 < req.coreLineCount g) &&
        adjacent (SequentialFlag.mapEntry g md req i x).map i).toNat := by
    simp only [SequentialFlag.mapEntry, ocfEnginePatchReqInfo, physCont_eq]
    rfl
  have hinsert : (SequentialFlag.mapEntry g md req i x).info.insertNo = req.info.insertNo + 1 := rfl
  generalize SequentialFlag.mapEntry g md req i x = req' at hmap hsame hseq hinsert ⊢
  have hother : ∀ j, j ≠ i → req'.map j = req.map j := by
    intro j hj
    rw [hmap, update_of_ne hj]
  constructor
  · have hfill := countBelow_fill (req.coreLineCount g - 1) hmiss hother
    have hleft : (decide (0 < i) && (decide (i - 1 < req.coreLineCount g - 1) &&
        adjacent req'.map (i - 1))) = (decide (0 < i) && adjacent req'.map (i - 1)) := by
      by_cases hpos : 0 < i
      · have hin : i - 1 < req.coreLineCount g - 1 := by omega
        simp [hin]
      · simp [hpos]
    have hright : decide (i < req.coreLineCount g - 1) = decide (i + 1 < req.coreLineCount g) :=
      decide_eq_decide.mpr (by omega)
    rw [hsame, hseq, hfill, hleft, hright, h.seq]
  · have hnew := countBelow_set (p := fun j => (req.map j).status == .remapped)
      (q := fun j => (req'.map j).status == .remapped) (n := req.coreLineCount g) i
      (by
        intro j _ hj
        rw [hother j hj])
      (by simp [hmiss])
    have hset : (req'.map i).status = .remapped := by
      rw [hmap, update_self]
    rw [hsame, hinsert, hnew, h.insert]
    simp [hlt, hset]

theorem SeqCounted.assign {c c' : Cache} {req' : Request} {x src idx idx' : Nat}
    (h : SeqCounted g req) (hidx : idx < req.coreLineCount g)
    (heq : assignLine g c req x src idx = some (c', req', idx')) :
    SeqCounted g req' ∧ req'.coreLineCount g = req.coreLineCount g ∧
      idx' ≤ req.coreLineCount g := by
  simp only [assignLine, Option.ite_none_left_eq_some, Option.some.injEq, Prod.mk.injEq] at heq
  obtain ⟨-, hmiss, -, hreq, hnext⟩ := heq
  have hlt := nextMiss_lt (g := g) req (req.coreLineCount g) hidx
  subst hnext
  rw [← hreq]
  exact ⟨h.mapEntry _ hlt (not_not.mp hmiss), rfl, hlt⟩

theorem SeqCounted.loop {src dst : Part} {dstMax n : Nat} {c : Cache}
    {it : Iter} {cline : Option Nat} {idx : Nat} {r : Result} (h : SeqCounted g req)
    (hidx : n ≠ 0 → idx < req.coreLineCount g)
    (heq : reqClinesLoop g src dst dstMax n c req it cline idx = some r) : SeqCounted g r.2.1 := by
  induction n generalizing c req it cline idx r with
  | zero =>
    cases heq
    exact h
  | succ n ih =>
    simp only [reqClinesLoop, Option.bind_eq_some_iff] at heq
    obtain ⟨⟨c1, it1, found⟩, -, heq⟩ := heq
    cases found with
    | none =>
      cases heq
      exact h
    | some t =>
      simp only [Option.bind_eq_some_iff] at heq
      obtain ⟨⟨c2, req2, idx2⟩, hassign, heq⟩ := heq
      obtain ⟨hnew, hsame, hle⟩ := h.assign (hidx (Nat.succ_ne_zero n)) hassign
      split at heq
      · cases heq
        exact hnew
      · split at heq
        · cases heq
        · rename_i hmore
          obtain ⟨r', hrest, hr⟩ := Option.map_eq_some_iff.mp heq
          cases hr
          have hidx2 : n ≠ 0 → idx2 < req2.coreLineCount g := by
            intro hn
            have hne : idx2 ≠ req2.coreLineCount g := fun hlast => hmore ⟨hlast, hn⟩
            omega
          have hdone := ih hnew hidx2 hrest
          exact hdone

theorem Mapped.counted {r : Request} (h : Mapped g md req r) : SeqCounted g r := by
  induction h with
  | lookup => exact SeqCounted.lookup md req
  | @reqClines c r src n res _ heq ih =>
    simp only [ocfEvictionReqClines] at heq
    split at heq
    · cases heq
      exact ih
    · split at heq
      · cases heq
      · exact ih.loop (fun _ => Nat.succ_pos _) heq

theorem SeqCounted.contiguous (h : SeqCounted g req) (hseq : ocfEngineIsSequential g req = true) :
    ∀ i < req.coreLineCount g, (req.map i).collIdx = (req.map 0).collIdx + i := by
  simp only [ocfEngineIsSequential, Bool.and_eq_true, beq_iff_eq] at hseq
  have hall := countBelow_eq_self.mp (h.seq.symm.trans hseq.2)
  intro i
  induction i with
  | zero =>
    intro _
    rfl
  | succ i ih =>
    intro hi
    have hpair := hall i (by omega)
    simp only [adjacent, Bool.and_eq_true, beq_iff_eq] at hpair
    have hprev := ih (by omega)
    omega

end Counting

/-- After a lookup and any number of mapping calls the counters are exact, and
the flag for a single I/O is right. -/
theorem sequential_flag_exact {md : LineTable} {req r : Request} (h : Mapped g md req r) :
    SeqCounted g r ∧ ((∀ i < r.coreLineCount g, (r.map i).status ≠ .miss) →
      ocfEngineIsSequential g r = true →
      ∀ i < r.coreLineCount g, (r.map i).collIdx = (r.map 0).collIdx + i) :=
  ⟨h.counted, fun _ => h.counted.contiguous⟩

/-- A write of two blocks, each of which is a cache line. -/
def twoBlocks : Request := { LfuRuns.missOfOne with blocks := 2 }

/-- Two free lines that are neighbours are handed out in order. -/
theorem sequential_flag_exact_two : ∃ r,
    Mapped LruRuns.threeLines LfuRuns.startThree.cache.md twoBlocks r ∧
      ocfEngineIsSequential LruRuns.threeLines r = true ∧ (SeqCounted LruRuns.threeLines r ∧
        ((∀ i < r.coreLineCount LruRuns.threeLines, (r.map i).status ≠ .miss) →
          ocfEngineIsSequential LruRuns.threeLines r = true →
          ∀ i < r.coreLineCount LruRuns.threeLines, (r.map i).collIdx = (r.map 0).collIdx + i)) := by
  have hrun : (ocfEvictionReqClines LruRuns.threeLines LfuRuns.startThree.cache
      (ocfEngineLookup LruRuns.threeLines LfuRuns.startThree.cache.md twoBlocks) .free 2).map
        (fun res => ocfEngineIsSequential LruRuns.threeLines res.2.1) = some true := by
    decide +kernel
  obtain ⟨res, hres, hseq⟩ := Option.map_eq_some_iff.mp hrun
  have hmapped : Mapped LruRuns.threeLines LfuRuns.startThree.cache.md twoBlocks res.2.1 :=
    .reqClines .lookup hres
  exact ⟨res.2.1, hmapped, hseq, sequential_flag_exact hmapped⟩

end OcfCache.SequentialFlag
