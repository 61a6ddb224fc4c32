import OcfCache.Loops
import OcfCache.Requests

/-!
# Hash buckets of a request

Embedding of the bucket iteration of `ocf_metadata_concurrency.c`. The core
lines of a request have consecutive hashes modulo the number of buckets, so
the buckets are an interval, two intervals with a gap between them, or all.
Sums are taken modulo `2 ^ 32`, the width of a hash value. A metadata segment
has at most `2 ^ 27` buckets and a request of 32-bit length fewer than `2 ^ 21`
core lines, so a request always fits the width.
-/

namespace OcfCache.HashBuckets

open Loops Metadata Requests

variable (g : Geometry) (req : Request)

/-- Addition of hash values. -/
def u32Add (a b : Nat) : Nat := (a + b) % 2 ^ 32

/-- `ocf_metadata_hash_next`. -/
def ocfMetadataHashNext (hash : Nat) : Nat :=
  if u32Add hash 1 < g.hashEntries then u32Add hash 1 else 0

/-- Write the hash of a map entry. -/
def setHash (req : Request) (i hash : Nat) : Request :=
  req.setMap i { req.map i with hash := hash }

/-- One round of the loop of `ocf_req_hash`. -/
def reqHashBody (st : Nat × Request) (i : Nat) : Nat × Request :=
  (ocfMetadataHashNext g st.1, setHash st.2 (i + 1) (ocfMetadataHashNext g st.1))

/-- `ocf_req_hash`; a request has at least one core line. -/
def ocfReqHash : Request :=
  let hash := ocfMetadataHashFunc g (req.coreLineFirst g) req.coreId
  (forRange (req.coreLineCount g - 1) (reqHashBody g) (hash, setHash req 0 hash)).2

/-- `_IS_MONOTONIC`. -/
def isMonotonic : Bool := decide (u32Add (req.map 0).hash (req.coreLineCount g) ≤ g.hashEntries)

/-- `_MIN_HASH`. -/
def minHash : Nat := if isMonotonic g req then (req.map 0).hash else 0

/-- `_MAX_HASH`. -/
def maxHash : Nat :=
  if isMonotonic g req then (req.map (req.coreLineCount g - 1)).hash else g.hashEntries - 1

/-- `_HASH_COUNT`. -/
def hashCount : Nat := min (req.coreLineCount g) g.hashEntries

/-- `_HAS_GAP`. -/
def hasGap : Bool := decide (u32Add (maxHash g req - minHash g req) 1 > hashCount g req)

/-- `_GAP_VAL`. -/
def gapVal : Nat := u32Add (maxHash g req - minHash g req) 1 - hashCount g req

/-- `_GAP_START`. -/
def gapStart : Nat := (req.map (req.coreLineCount g - 1)).hash

/-- `_HASH_NEXT`. -/
def hashNext (hash : Nat) : Nat :=
  u32Add (u32Add hash 1) (if hasGap g req && hash == gapStart g req then gapVal g req else 0)

/-- The buckets that `for_each_req_hash_asc` visits from a bucket on; `none`
when the fuel runs out. -/
def forEachReqHashAsc : Nat → Nat → Option (List Nat)
  | 0, _ => none
  | fuel + 1, hash =>
    if hash ≤ maxHash g req then
      (forEachReqHashAsc fuel (hashNext g req hash)).map fun rest => hash :: rest
    else some []

/-- `ocf_req_hash_in_range`. -/
def ocfReqHashInRange (coreId coreLine : Nat) : Bool :=
  let hash := ocfMetadataHashFunc g coreLine coreId
  if !hasGap g req then decide (minHash g req ≤ hash ∧ hash ≤ maxHash g req)
  else decide (minHash g req ≤ hash ∧ hash ≤ gapStart g req) ||
    decide (u32Add (gapStart g req) (gapVal g req) < hash ∧ hash ≤ maxHash g req)

/-- The buckets of the core lines of a request. -/
def IsBucket (hash : Nat) : Prop :=
  ∃ i < req.coreLineCount g, ocfMetadataHashFunc g (req.coreLineFirst g + i) req.coreId = hash

section Spec

variable {g req}

theorem u32Add_eq {a b : Nat} (h : a + b < 2 ^ 32) : u32Add a b = a + b := Nat.mod_eq_of_lt h

theorem ocfMetadataHashNext_eq (hpos : 0 < g.hashEntries) (hfit : g.hashEntries < 2 ^ 32)
    (coreLine coreId : Nat) : ocfMetadataHashNext g (ocfMetadataHashFunc g coreLine coreId) =
      ocfMetadataHashFunc g (coreLine + 1) coreId := by
  unfold ocfMetadataHashNext ocfMetadataHashFunc
  generalize coreId * (g.hashEntries / 32) % 2 ^ 32 = shift
  have hlt := Nat.mod_lt (coreLine + shift) hpos
  have hnext : coreLine + 1 + shift = (coreLine + shift) + 1 := by omega
  have hmod := Nat.mod_add_mod (coreLine + shift) g.hashEntries 1
  rw [u32Add_eq (by omega), hnext, ← hmod]
  by_cases hwrap : (coreLine + shift) % g.hashEntries + 1 < g.hashEntries
  · rw [if_pos hwrap, Nat.mod_eq_of_lt hwrap]
  · have heq : (coreLine + shift) % g.hashEntries + 1 = g.hashEntries := by omega
    rw [if_neg hwrap, heq, Nat.mod_self]

/-- Hashes are written to the first entries of the map. -/
structure ReqHashed (g : Geometry) (req : Request) (n : Nat) (req' : Request) : Prop where
  /-- The address stays. -/
  addr : req'.addr = req.addr
  /-- The length stays. -/
  blocks : req'.blocks = req.blocks
  /-- The hashes. -/
  hash : ∀ i ≤ n, (req'.map i).hash =
    ocfMetadataHashFunc g (req.coreLineFirst g + i) req.coreId

theorem ocfReqHash_spec (hpos : 0 < g.hashEntries) (hfit : g.hashEntries < 2 ^ 32) :
    (ocfReqHash g req).addr = req.addr ∧ (ocfReqHash g req).blocks = req.blocks ∧
      ∀ i < req.coreLineCount g, ((ocfReqHash g req).map i).hash =
        ocfMetadataHashFunc g (req.coreLineFirst g + i) req.coreId := by
  have hcount : 0 < req.coreLineCount g := Nat.succ_pos _
  suffices hinv : ∀ n, (forRange n (reqHashBody g) (ocfMetadataHashFunc g (req.coreLineFirst g)
      req.coreId, setHash req 0 (ocfMetadataHashFunc g (req.coreLineFirst g) req.coreId))).1 =
        ocfMetadataHashFunc g (req.coreLineFirst g + n) req.coreId ∧ ReqHashed g req n
      (forRange n (reqHashBody g) (ocfMetadataHashFunc g (req.coreLineFirst g) req.coreId,
        setHash req 0 (ocfMetadataHashFunc g (req.coreLineFirst g) req.coreId))).2 by
    obtain ⟨haddr, hblocks, hmap⟩ := (hinv (req.coreLineCount g - 1)).2
    exact ⟨haddr, hblocks, fun i hi => hmap i (by omega)⟩
  intro n
  induction n with
  | zero =>
    refine ⟨rfl, rfl, rfl, fun i hi => ?_⟩
    have hi0 : i = 0 := by omega
    subst hi0
    simp [setHash, Request.setMap]
  | succ n ih =>
    obtain ⟨hhash, haddr, hblocks, hmap⟩ := ih
    rw [forRange_succ]
    simp only [reqHashBody, hhash, ocfMetadataHashNext_eq hpos hfit]
    refine ⟨rfl, haddr, hblocks, fun i hi => ?_⟩
    by_cases hin : i = n + 1
    · subst hin
      simp [setHash, Request.setMap, Nat.add_assoc]
    · simp only [setHash, Request.setMap, Function.update_of_ne hin]
      exact hmap i (by omega)

theorem ocfMetadataHashFunc_add (coreLine i coreId : Nat) :
    ocfMetadataHashFunc g (coreLine + i) coreId =
      (ocfMetadataHashFunc g coreLine coreId + i) % g.hashEntries := by
  unfold ocfMetadataHashFunc
  rw [Nat.mod_add_mod]
  congr 1
  omega

/-- The range of a request and its hashes, as the iteration reads them. -/
structure Hashed (g : Geometry) (req : Request) (h0 n : Nat) : Prop where
  /-- Number of core lines. -/
  count : req.coreLineCount g = n
  /-- There is a core line. -/
  count_pos : 0 < n
  /-- The first hash. -/
  first : (req.map 0).hash = h0
  /-- The first hash is a bucket. -/
  first_lt : h0 < g.hashEntries
  /-- The last hash. -/
  last : (req.map (n - 1)).hash = (h0 + (n - 1)) % g.hashEntries
  /-- Sums of a hash and the number of core lines have 32 bits. -/
  fits : g.hashEntries + n ≤ 2 ^ 32

/-- The three shapes of the buckets of a request. -/
inductive Shape (g : Geometry) (req : Request) (first count : Nat) : Prop
  /-- One interval. -/
  | interval (hle : first + count ≤ g.hashEntries) (hmin : minHash g req = first)
      (hmax : maxHash g req = first + count - 1) (hgap : hasGap g req = false)
  /-- Two intervals with a gap. -/
  | gap (hlt : g.hashEntries < first + count) (hcount : count < g.hashEntries)
      (hmin : minHash g req = 0) (hmax : maxHash g req = g.hashEntries - 1)
      (hgap : hasGap g req = true) (hval : gapVal g req = g.hashEntries - count)
      (hstart : gapStart g req = first + count - 1 - g.hashEntries)
  /-- All buckets. -/
  | all (hcount : g.hashEntries ≤ count) (hmin : minHash g req = 0)
      (hmax : maxHash g req = g.hashEntries - 1) (hgap : hasGap g req = false)

variable {first count : Nat}

theorem Hashed.shape (h : Hashed g req first count) : Shape g req first count := by
  have hfits := h.fits
  have hpos := h.count_pos
  have hlt := h.first_lt
  have hmono : isMonotonic g req = decide (first + count ≤ g.hashEntries) := by
    rw [isMonotonic, h.first, h.count, u32Add_eq (by omega)]
  by_cases hle : first + count ≤ g.hashEntries
  · have hm : isMonotonic g req = true := by simp [hmono, hle]
    have hmin : minHash g req = first := by simp [minHash, hm, h.first]
    have hmax : maxHash g req = first + count - 1 := by
      rw [maxHash, if_pos hm, h.count, h.last, Nat.mod_eq_of_lt (by omega)]
      omega
    refine .interval hle hmin hmax ?_
    rw [hasGap, hmin, hmax, hashCount, h.count, u32Add_eq (by omega)]
    exact decide_eq_false (by omega)
  · have hm : isMonotonic g req = false := by simp [hmono, hle]
    have hmin : minHash g req = 0 := by simp [minHash, hm]
    have hmax : maxHash g req = g.hashEntries - 1 := by simp [maxHash, hm]
    have hsize : u32Add (maxHash g req - minHash g req) 1 = g.hashEntries := by
      rw [hmin, hmax, u32Add_eq (by omega)]
      omega
    by_cases hcount : count < g.hashEntries
    · refine .gap (by omega) hcount hmin hmax ?_ ?_ ?_
      · rw [hasGap, hsize, hashCount, h.count]
        exact decide_eq_true (by omega)
      · rw [gapVal, hsize, hashCount, h.count]
        omega
      · rw [gapStart, h.count, h.last, Nat.mod_eq_sub_mod (by omega), Nat.mod_eq_of_lt (by omega)]
        omega
    · refine .all (by omega) hmin hmax ?_
      rw [hasGap, hsize, hashCount, h.count]
      exact decide_eq_false (by omega)

/-- The interval from the smallest to the largest hash without the gap. -/
def InBuckets (g : Geometry) (req : Request) (hash : Nat) : Prop :=
  minHash g req ≤ hash ∧ hash ≤ maxHash g req ∧
    ¬(hasGap g req = true ∧ gapStart g req < hash ∧ hash ≤ gapStart g req + gapVal g req)

theorem Hashed.inBuckets_iff (h : Hashed g req first count) (hash : Nat) :
    InBuckets g req hash ↔ ∃ i < count, (first + i) % g.hashEntries = hash := by
  have hlt := h.first_lt
  have hpos := h.count_pos
  unfold InBuckets
  cases h.shape with
  | interval hle hmin hmax hgap =>
    rw [hmin, hmax, hgap]
    constructor
    · intro hin
      refine ⟨hash - first, by omega, ?_⟩
      rw [Nat.mod_eq_of_lt (by omega)]
      omega
    · rintro ⟨i, hi, rfl⟩
      rw [Nat.mod_eq_of_lt (by omega)]
      simp
      omega
  | gap hle hcount hmin hmax hgap hval hstart =>
    rw [hmin, hmax, hgap, hval, hstart]
    simp only [true_and]
    constructor
    · rintro ⟨-, hin, hnot⟩
      by_cases hfirst : first ≤ hash
      · refine ⟨hash - first, by omega, ?_⟩
        rw [Nat.mod_eq_of_lt (by omega)]
        omega
      · refine ⟨hash + g.hashEntries - first, by omega, ?_⟩
        rw [Nat.mod_eq_sub_mod (by omega), Nat.mod_eq_of_lt (by omega)]
        omega
    · rintro ⟨i, hi, rfl⟩
      by_cases hwrap : first + i < g.hashEntries
      · rw [Nat.mod_eq_of_lt hwrap]
        omega
      · rw [Nat.mod_eq_sub_mod (by omega), Nat.mod_eq_of_lt (by omega)]
        omega
  | all hcount hmin hmax hgap =>
    rw [hmin, hmax, hgap]
    constructor
    · rintro ⟨-, hin, -⟩
      by_cases hfirst : first ≤ hash
      · refine ⟨hash - first, by omega, ?_⟩
        rw [Nat.mod_eq_of_lt (by omega)]
        omega
      · refine ⟨hash + g.hashEntries - first, by omega, ?_⟩
        rw [Nat.mod_eq_sub_mod (by omega), Nat.mod_eq_of_lt (by omega)]
        omega
    · rintro ⟨i, hi, rfl⟩
      have hmod := Nat.mod_lt (first + i) (show 0 < g.hashEntries by omega)
      simp
      omega

variable {hash : Nat}

theorem hashNext_of_not (hgap : ¬(hasGap g req = true ∧ hash = gapStart g req))
    (hlt : hash + 1 < 2 ^ 32) : hashNext g req hash = hash + 1 := by
  have hcond : (hasGap g req && hash == gapStart g req) = false := by
    simpa using hgap
  rw [hashNext, hcond, u32Add_eq hlt]
  exact u32Add_eq hlt

theorem hashNext_of_gap (hgap : hasGap g req = true) (hstart : hash = gapStart g req)
    (hlt : hash + 1 + gapVal g req < 2 ^ 32) : hashNext g req hash = hash + 1 + gapVal g req := by
  have hcond : (hasGap g req && hash == gapStart g req) = true := by
    simpa using ⟨hgap, hstart⟩
  rw [hashNext, hcond, u32Add_eq (Nat.lt_of_le_of_lt (Nat.le_add_right _ _) hlt)]
  exact u32Add_eq hlt

theorem Hashed.hashNext_spec (h : Hashed g req first count) (hin : InBuckets g req hash) :
    hash < hashNext g req hash ∧ (hashNext g req hash ≤ maxHash g req →
      InBuckets g req (hashNext g req hash)) ∧
      ∀ x, InBuckets g req x → hash < x → hashNext g req hash ≤ x := by
  have hfits := h.fits
  have hpos := h.count_pos
  have hlt := h.first_lt
  unfold InBuckets at hin ⊢
  cases h.shape with
  | interval hle hmin hmax hgap =>
    rw [hashNext_of_not (by simp [hgap]) (by omega), hgap]
    refine ⟨by omega, fun _ => ⟨by omega, by omega, by simp⟩, fun x _ hx => by omega⟩
  | gap hle hcount hmin hmax hgap hval hstart =>
    by_cases hlast : hash = gapStart g req
    · rw [hashNext_of_gap hgap hlast (by omega)]
      simp only [hgap, true_and] at hin ⊢
      refine ⟨by omega, fun _ => ⟨by omega, by omega, by omega⟩, fun x hx hlx => by omega⟩
    · rw [hashNext_of_not (fun hc => hlast hc.2) (by omega)]
      simp only [hgap, true_and] at hin ⊢
      refine ⟨by omega, fun _ => ⟨by omega, by omega, by omega⟩, fun x _ hx => by omega⟩
  | all hcount hmin hmax hgap =>
    rw [hashNext_of_not (by simp [hgap]) (by omega), hgap]
    refine ⟨by omega, fun _ => ⟨by omega, by omega, by simp⟩, fun x _ hx => by omega⟩

theorem Hashed.forEachReqHashAsc_spec (h : Hashed g req first count)
    {fuel hash : Nat} (hfuel : maxHash g req + 1 - hash < fuel)
    (hin : hash ≤ maxHash g req → InBuckets g req hash) :
    ∃ xs, forEachReqHashAsc g req fuel hash = some xs ∧ xs.Pairwise (· < ·) ∧
      ∀ x, x ∈ xs ↔ hash ≤ x ∧ InBuckets g req x := by
  induction fuel generalizing hash with
  | zero => omega
  | succ fuel ih =>
    by_cases hmax : hash ≤ maxHash g req
    · obtain ⟨hlt, hnext, hskip⟩ := h.hashNext_spec (hin hmax)
      obtain ⟨xs, hxs, hsorted, hmem⟩ := @ih (hashNext g req hash) (by omega) hnext
      refine ⟨hash :: xs, ?_, ?_, fun x => ?_⟩
      · rw [forEachReqHashAsc, if_pos hmax, hxs, Option.map_some]
      · refine List.pairwise_cons.mpr ⟨fun x hx => ?_, hsorted⟩
        have hle := ((hmem x).mp hx).1
        omega
      · rw [List.mem_cons, hmem x]
        constructor
        · rintro (rfl | ⟨hle, hx⟩)
          · exact ⟨Nat.le_refl _, hin hmax⟩
          · exact ⟨by omega, hx⟩
        · rintro ⟨hle, hx⟩
          rcases Nat.eq_or_lt_of_le hle with heq | hgt
          · exact Or.inl heq.symm
          · exact Or.inr ⟨hskip x hx hgt, hx⟩
    · refine ⟨[], by rw [forEachReqHashAsc, if_neg hmax], List.Pairwise.nil, fun x => ?_⟩
      constructor
      · intro hx
        cases hx
      · rintro ⟨hle, hx⟩
        have hxmax := hx.2.1
        omega

theorem Hashed.ocfReqHashInRange_iff (h : Hashed g req first count)
    (coreId coreLine : Nat) : ocfReqHashInRange g req coreId coreLine = true ↔
      InBuckets g req (ocfMetadataHashFunc g coreLine coreId) := by
  have hfits := h.fits
  have hlt := h.first_lt
  have hpos := h.count_pos
  unfold ocfReqHashInRange InBuckets
  cases hgap : hasGap g req with
  | false => simp
  | true =>
    have hsum : u32Add (gapStart g req) (gapVal g req) = gapStart g req + gapVal g req ∧
        minHash g req ≤ gapStart g req ∧ gapStart g req + gapVal g req ≤ maxHash g req := by
      cases h.shape with
      | interval hle hmin hmax hnogap => simp [hnogap] at hgap
      | gap hle hcount hmin hmax hgap hval hstart =>
        exact ⟨u32Add_eq (by omega), by omega, by omega⟩
      | all hcount hmin hmax hnogap => simp [hnogap] at hgap
    obtain ⟨hsum, hmin, hmax⟩ := hsum
    simp only [hsum, Bool.not_true, Bool.false_eq_true, if_false, Bool.or_eq_true, decide_eq_true_eq,
      true_and]
    omega

theorem hashed_ocfReqHash (hpos : 0 < g.hashEntries)
    (hfits : g.hashEntries + req.coreLineCount g ≤ 2 ^ 32) :
    Hashed g (ocfReqHash g req) (ocfMetadataHashFunc g (req.coreLineFirst g) req.coreId)
      (req.coreLineCount g) := by
  have hcount : 0 < req.coreLineCount g := Nat.succ_pos _
  obtain ⟨haddr, hblocks, hhash⟩ := @ocfReqHash_spec g req hpos (by omega)
  refine ⟨?_, hcount, ?_, Nat.mod_lt _ hpos, ?_, hfits⟩
  · simp only [Request.coreLineCount, Request.coreLineLast, Request.coreLineFirst, haddr, hblocks]
  · exact hhash 0 hcount
  · rw [hhash _ (by omega), ocfMetadataHashFunc_add]

end Spec

/-- Locking the hash buckets of a request: the iteration ends, visits the
buckets of its core lines once each in increasing order, and the range test
tells exactly these buckets. -/
theorem forEachReqHashAsc_visits (g : Geometry) (req : Request) (hpos : 0 < g.hashEntries)
    (hfits : g.hashEntries + req.coreLineCount g ≤ 2 ^ 32) :
    (∃ xs : List Nat, (∀ fuel, g.hashEntries < fuel → forEachReqHashAsc g (ocfReqHash g req) fuel
        (minHash g (ocfReqHash g req)) = some xs) ∧
      xs.Pairwise (· < ·) ∧ ∀ hash, hash ∈ xs ↔ IsBucket g req hash) ∧
    ∀ coreId coreLine, ocfReqHashInRange g (ocfReqHash g req) coreId coreLine = true ↔
      IsBucket g req (ocfMetadataHashFunc g coreLine coreId) := by
  have hhashed := @hashed_ocfReqHash g req hpos hfits
  have hbucket : ∀ hash, InBuckets g (ocfReqHash g req) hash ↔ IsBucket g req hash := by
    intro hash
    rw [hhashed.inBuckets_iff]
    simp only [IsBucket, ocfMetadataHashFunc_add]
  have hmax : maxHash g (ocfReqHash g req) < g.hashEntries := by
    have hlt := hhashed.first_lt
    cases hhashed.shape <;> omega
  refine ⟨?_, fun coreId coreLine => ?_⟩
  · have hmin : minHash g (ocfReqHash g req) ≤ maxHash g (ocfReqHash g req) →
        InBuckets g (ocfReqHash g req) (minHash g (ocfReqHash g req)) := by
      intro hle
      refine ⟨Nat.le_refl _, hle, ?_⟩
      cases hhashed.shape with
      | interval _ _ _ hgap => simp [hgap]
      | gap _ _ hmin => omega
      | all _ _ _ hgap => simp [hgap]
    have hspec : ∀ fuel, g.hashEntries < fuel → ∃ xs, forEachReqHashAsc g (ocfReqHash g req) fuel
        (minHash g (ocfReqHash g req)) = some xs ∧ xs.Pairwise (· < ·) ∧
        ∀ x, x ∈ xs ↔ minHash g (ocfReqHash g req) ≤ x ∧ InBuckets g (ocfReqHash g req) x :=
      fun fuel hfuel => hhashed.forEachReqHashAsc_spec (by omega) hmin
    obtain ⟨xs, hxs, hsorted, hmem⟩ := hspec (g.hashEntries + 1) (Nat.lt_succ_self _)
    refine ⟨xs, fun fuel hfuel => ?_, hsorted, fun hash => ?_⟩
    · obtain ⟨ys, hys, hsorted', hmem'⟩ := hspec fuel hfuel
      rw [hys, hsorted'.eq_of_mem_iff hsorted fun x => (hmem' x).trans (hmem x).symm]
    · rw [hmem, ← hbucket]
      exact ⟨fun h => h.2, fun h => ⟨h.1, h⟩⟩
  · rw [hhashed.ocfReqHashInRange_iff, hbucket]

/-- Five buckets and lines of eight blocks. -/
def fiveBuckets : Geometry where
  lineBlocks := 8
  lineBlocks_pos := eightBlocks_pos
  hashEntries := 5
  collisionEntries := 16
  metadataOffset := 0

/-- A request of the given core lines of the first core. -/
def linesRequest (first count : Nat) : Request where
  coreId := 0
  addr := first * 8
  blocks := count * 8
  rw := .read
  partId := 0
  map _ := ⟨0, 0, 0, 0, .miss, false, false, false⟩
  info := .zero

/-- Four core lines of five buckets, with the wrap in the middle. -/
theorem forEachReqHashAsc_visits_wrap :
    forEachReqHashAsc fiveBuckets (ocfReqHash fiveBuckets (linesRequest 2 4)) 6
      (minHash fiveBuckets (ocfReqHash fiveBuckets (linesRequest 2 4))) = some [0, 2, 3, 4] ∧
      (IsBucket fiveBuckets (linesRequest 2 4) 0 ∧ ¬IsBucket fiveBuckets (linesRequest 2 4) 1) := by
  have hrun : forEachReqHashAsc fiveBuckets (ocfReqHash fiveBuckets (linesRequest 2 4)) 6
      (minHash fiveBuckets (ocfReqHash fiveBuckets (linesRequest 2 4))) = some [0, 2, 3, 4] := by
    decide
  obtain ⟨xs, hxs, -, hmem⟩ :=
    (forEachReqHashAsc_visits fiveBuckets (linesRequest 2 4) (by decide) (by decide)).1
  have heq : xs = [0, 2, 3, 4] := by
    have hsome := hxs 6 (by decide)
    exact (Option.some.inj hsome).symm
  refine ⟨hrun, (hmem 0).mp (by simp [heq]), fun h => ?_⟩
  have h1 := (hmem 1).mpr h
  simp [heq] at h1

end OcfCache.HashBuckets
