import OcfCache.LruRuns

/-!
# Eviction quotas

Each user partition has a quota of lines that may still be evicted from it. The
loop over the partitions charges the quotas, and when none is left they are
filled up in proportion to the sizes. The partitions that are filled up are
selected by the converted priority, those that evict by the signed one; the
module says when the two agree, and what a second try then does.
-/

namespace OcfCache.EvictQuota

open Function Metadata Requests EngineCommon Partitions Space

variable (g : Geometry)

/-- Values of the C types, over a list without repetition. -/
structure Ranged (c : Cache) : Prop where
  /-- Every partition is listed once. -/
  distinct : c.userPartList.Nodup
  /-- `config->priority` is an `int16_t`. -/
  priority : ∀ p, -2 ^ 15 ≤ (c.config p).priority ∧ (c.config p).priority < 2 ^ 15
  /-- `evict_counter` is an `env_atomic`. -/
  counter : ∀ p, -2 ^ 31 ≤ c.evictCounter p ∧ c.evictCounter p < 2 ^ 31
  /-- So is `curr_size`, which counts lines. -/
  size : ∀ p, 0 ≤ c.currSize (.user p) ∧ c.currSize (.user p) < 2 ^ 31

/-- A priority that a partition may be configured with. -/
def ValidPriority (m : Int) : Prop := m = ocfIoClassPrioPinned ∨ (0 ≤ m ∧ m ≤ 255)

/-- Partitions that `ocf_evict_user_partitions_once` gets to without a break. -/
def reached (c : Cache) (m : Int) : List Nat :=
  c.userPartList.takeWhile fun p => decide (m ≤ (c.config p).priority) && (c.config p).eviction

/-- What `ocf_evict_counters_update` adds for a partition. -/
def quota (c : Cache) (m : Int) (p : Nat) : Nat :=
  let sizes := (evictable c m).map fun p => (c.currSize (.user p)).toNat
  let least := max ((sizes.filter fun n => n != 0).foldl min g.collisionEntries) minEvictQuota
  (c.currSize (.user p)).toNat * minEvictQuota / least

/-- Every partition that takes part and is not empty gets a greater quota. -/
def Refills (c : Cache) (m : Int) : Prop :=
  ∀ p ∈ reached c m, c.currSize (.user p) ≠ 0 →
    c.evictCounter p + 1 ≤ (ocfEvictCountersUpdate g c m).evictCounter p

/-- The priority is not pinned, unless nothing is there to fill up, and no
counter leaves its type. -/
def Refillable (c : Cache) (m : Int) : Prop :=
  (m = ocfIoClassPrioPinned → ∀ p ∈ reached c m, c.currSize (.user p) = 0) ∧
    ∀ p ∈ reached c m, c.currSize (.user p) ≠ 0 → c.evictCounter p + quota g c m p < 2 ^ 31

section Arithmetic

theorem int32_of_range {x : Int} (h : -2 ^ 31 ≤ x ∧ x < 2 ^ 31) : int32 x = x := by
  simp only [int32, Int.bmod]
  omega

theorem int32_overflow {x : Int} (h : 2 ^ 31 ≤ x ∧ x < 2 ^ 32) : int32 x = x - 2 ^ 32 := by
  simp only [int32, Int.bmod]
  omega

theorem uint16_of_valid {m : Int} (h : 0 ≤ m ∧ m ≤ 255) : uint16 m = m := by
  simp only [uint16]
  omega

theorem uint16_pinned : uint16 ocfIoClassPrioPinned = 65535 := by
  decide

theorem foldl_min_le (l : List Nat) (a : Nat) : l.foldl min a ≤ a ∧ ∀ n ∈ l, l.foldl min a ≤ n := by
  induction l generalizing a with
  | nil => exact ⟨Nat.le_refl a, nofun⟩
  | cons b l ih =>
    obtain ⟨hstart, hall⟩ := ih (min a b)
    have hmin : min a b ≤ a ∧ min a b ≤ b := ⟨Nat.min_le_left a b, Nat.min_le_right a b⟩
    refine ⟨Nat.le_trans hstart hmin.1, ?_⟩
    intro n hn
    rcases List.mem_cons.mp hn with hn | hn
    · rw [hn]
      exact Nat.le_trans hstart hmin.2
    · exact hall n hn

end Arithmetic

section Refill

variable {g} {c : Cache} {m : Int} {p : Nat}

theorem quota_bounds (hmem : p ∈ evictable c m) (hsize : (c.currSize (.user p)).toNat ≠ 0) :
    1 ≤ quota g c m p ∧ quota g c m p ≤ (c.currSize (.user p)).toNat := by
  simp only [quota]
  generalize hsizes : ((evictable c m).map fun p => (c.currSize (.user p)).toNat).filter
    (fun n => n != 0) = sizes
  have hin : (c.currSize (.user p)).toNat ∈ sizes := by
    rw [← hsizes]
    exact List.mem_filter.mpr ⟨List.mem_map_of_mem hmem, by simpa using hsize⟩
  have hle := (foldl_min_le sizes g.collisionEntries).2 _ hin
  generalize sizes.foldl min g.collisionEntries = least at hle
  generalize (c.currSize (.user p)).toNat = size at hle hsize
  have hquota : minEvictQuota = 256 := rfl
  rw [hquota]
  constructor
  · apply Nat.div_pos
    · omega
    · omega
  · have hdiv : size * 256 / max least 256 ≤ size * 256 / 256 :=
      Nat.div_le_div_left (Nat.le_max_right least 256) (by omega)
    omega

theorem foldl_counters (sizes : Nat → Nat) (delta : Nat → Int) {parts : List Nat}
    (hd : parts.Nodup) (c : Cache) (q : Nat) :
    (parts.foldl (fun c' p => if sizes p = 0 then c' else ocfEvictCountersInc c' p (delta p))
      c).evictCounter q =
      if q ∈ parts ∧ sizes q ≠ 0 then int32 (c.evictCounter q + delta q) else c.evictCounter q := by
  induction parts generalizing c with
  | nil => simp
  | cons p ps ih =>
    obtain ⟨hp, hps⟩ := List.nodup_cons.mp hd
    rw [List.foldl_cons, ih hps]
    by_cases hq : q = p
    · rw [hq, if_neg (fun h => hp h.1)]
      by_cases hsize : sizes p = 0
      · simp [hsize]
      · simp [hsize, ocfEvictCountersInc]
    · have hsame : (if sizes p = 0 then c else ocfEvictCountersInc c p (delta p)).evictCounter q =
          c.evictCounter q := by
        by_cases hsize : sizes p = 0
        · rw [if_pos hsize]
        · rw [if_neg hsize]
          exact update_of_ne hq _ _
      rw [hsame]
      simp [hq]

theorem update_evictCounter (hd : c.userPartList.Nodup) (q : Nat) :
    (ocfEvictCountersUpdate g c m).evictCounter q =
      if q ∈ evictable c m ∧ (c.currSize (.user q)).toNat ≠ 0 then
        int32 (c.evictCounter q + quota g c m q) else c.evictCounter q := by
  have hnodup : (evictable c m).Nodup := hd.sublist (List.takeWhile_sublist _)
  exact foldl_counters (fun p => (c.currSize (.user p)).toNat) (fun p => (quota g c m p : Int))
    hnodup c q

theorem takeWhile_mono {α : Type*} {f h : α → Bool} (l : List α) (hfh : ∀ x ∈ l, f x = true → h x = true)
    {x : α} (hx : x ∈ l.takeWhile f) : x ∈ l.takeWhile h := by
  induction l with
  | nil => exact hx
  | cons y ys ih =>
    rw [List.takeWhile_cons] at hx
    split at hx
    · rename_i hy
      rw [List.takeWhile_cons, if_pos (hfh y List.mem_cons_self hy)]
      rcases List.mem_cons.mp hx with hx | hx
      · rw [hx]
        exact List.mem_cons_self
      · exact List.mem_cons_of_mem y
          (ih (fun z hz => hfh z (List.mem_cons_of_mem y hz)) hx)
    · exact nomatch hx

theorem evictable_of_reached (hm : 0 ≤ m ∧ m ≤ 255) (hp : p ∈ reached c m) : p ∈ evictable c m := by
  apply takeWhile_mono c.userPartList _ hp
  intro q _ hq
  rw [Bool.and_eq_true] at hq
  rw [uint16_of_valid hm]
  exact hq.1

theorem evictable_pinned (hc : Ranged c) : evictable c ocfIoClassPrioPinned = [] := by
  unfold evictable
  rw [uint16_pinned]
  cases c.userPartList with
  | nil => rfl
  | cons p ps =>
    have hlt := (hc.priority p).2
    rw [List.takeWhile_cons, if_neg]
    simp only [decide_eq_true_eq]
    omega

theorem refills_iff (hc : Ranged c) (hm : ValidPriority m) : Refills g c m ↔ Refillable g c m := by
  have hnat : ∀ p, c.currSize (.user p) ≠ 0 ↔ (c.currSize (.user p)).toNat ≠ 0 := by
    intro p
    have hsize := (hc.size p).1
    omega
  rcases hm with hm | hm
  · subst hm
    have hsame : ∀ p, (ocfEvictCountersUpdate g c ocfIoClassPrioPinned).evictCounter p =
        c.evictCounter p := by
      intro p
      rw [update_evictCounter hc.distinct, evictable_pinned hc]
      simp
    constructor
    · intro h
      have hempty : ∀ p ∈ reached c ocfIoClassPrioPinned, c.currSize (.user p) = 0 := by
        intro p hp
        by_contra hne
        have hinc := h p hp hne
        rw [hsame p] at hinc
        omega
      exact ⟨fun _ => hempty, fun p hp hne => absurd (hempty p hp) hne⟩
    · intro h p hp hne
      exact absurd (h.1 rfl p hp) hne
  · have hpinned : m ≠ ocfIoClassPrioPinned := by
      intro h
      rw [h] at hm
      exact absurd hm.1 (by decide)
    have hnew : ∀ p ∈ reached c m, c.currSize (.user p) ≠ 0 →
        (ocfEvictCountersUpdate g c m).evictCounter p = int32 (c.evictCounter p + quota g c m p) ∧
          1 ≤ quota g c m p ∧ (quota g c m p : Int) < 2 ^ 31 := by
      intro p hp hne
      have hin := evictable_of_reached hm hp
      have hsize := (hnat p).mp hne
      have hlt := (hc.size p).2
      obtain ⟨hpos, hle⟩ := quota_bounds (g := g) hin hsize
      refine ⟨?_, hpos, by omega⟩
      rw [update_evictCounter hc.distinct, if_pos ⟨hin, hsize⟩]
    constructor
    · intro h
      refine ⟨fun heq => absurd heq hpinned, ?_⟩
      intro p hp hne
      obtain ⟨heq, hpos, hlt⟩ := hnew p hp hne
      obtain ⟨hlow, hhigh⟩ := hc.counter p
      have hinc := h p hp hne
      by_contra hover
      rw [heq, int32_overflow (by omega)] at hinc
      omega
    · intro h p hp hne
      obtain ⟨heq, hpos, hlt⟩ := hnew p hp hne
      obtain ⟨hlow, hhigh⟩ := hc.counter p
      have hfit := h.2 p hp hne
      rw [heq, int32_of_range (by omega)]
      omega

end Refill

section Tries

/-- The loop over the partitions, from the rest of the list, gets to partition
`q` and does not break there: in which state, and with how many lines evicted. -/
inductive Visits (m : Int) (n : Nat) :
    List Nat → Cache → Request → Nat → Nat → Cache → Nat → Prop
  /-- It is the next one. -/
  | here {p : Nat} {ps : List Nat} {c : Cache} {req : Request} {ev : Nat}
      (hprio : ¬ (c.config p).priority < m) (hevict : (c.config p).eviction = true) :
      Visits m n (p :: ps) c req ev p c ev
  /-- The next one has no line to spare. -/
  | idle {p q : Nat} {ps : List Nat} {c c' : Cache} {req : Request} {ev ev' : Nat}
      (hprio : ¬ (c.config p).priority < m) (hevict : (c.config p).eviction = true)
      (hidle : ocfEvictCalculate g c p (n - ev) = 0) (hrest : Visits m n ps c req ev q c' ev') :
      Visits m n (p :: ps) c req ev q c' ev'
  /-- The next one had its turn, and more lines are needed. -/
  | turn {p q : Nat} {ps : List Nat} {c c' : Cache} {req : Request} {ev ev' : Nat}
      {counter counter' : Int} {r : Result}
      (hprio : ¬ (c.config p).priority < m) (hevict : (c.config p).eviction = true)
      (hturn : evictPartition g false c req p (ocfEvictCalculate g c p (n - ev)) counter =
        some (r, counter'))
      (hmore : ¬ n ≤ ev + r.2.2.length)
      (hrest : Visits m n ps r.1 r.2.1 (ev + r.2.2.length) q c' ev') :
      Visits m n (p :: ps) c req ev q c' ev'

/-- The partition's quota lets the loop call `ocf_eviction_req_clines`. -/
def CallsReqClines (c : Cache) (p n evicted : Nat) : Prop :=
  let toEvict := ocfEvictCalculate g c p (n - evicted)
  toEvict ≠ 0 ∧ ¬ int32 (c.evictCounter p - toEvict) ≤ -(toEvict : Int)

/-- The first try finds no quota and evicts nothing; the second one calls
`ocf_eviction_req_clines` for the partition if it gets there with lines to spare
in it, and it gets there unless it has all lines before or an assertion fails. -/
structure SecondTryCalls (c : Cache) (req : Request) (n : Nat) (m : Int) (p : Nat) : Prop where
  /-- The first try. -/
  first : ocfEvictUserPartitionsOnce g false m n c.userPartList c req 0 0 true =
    some ((c, req, []), true)
  /-- The second try calls. -/
  calls : ∀ c' evicted,
    Visits g m n c.userPartList (ocfEvictCountersUpdate g c m) req 0 p c' evicted →
      (ocfUserPartGetMinSize g c' p : Int) < c'.currSize (.user p) → CallsReqClines g c' p n evicted
  /-- It gets there. -/
  visits : ∀ r noMore, ocfEvictUserPartitionsOnce g false m n c.userPartList
      (ocfEvictCountersUpdate g c m) req 0 0 true = some (r, noMore) →
    n ≤ r.2.2.length ∨ ∃ c' evicted,
      Visits g m n c.userPartList (ocfEvictCountersUpdate g c m) req 0 p c' evicted

variable {g} {c : Cache} {req : Request} {m : Int}

theorem reqClinesLoop_evictCounter {src dst : Part} {dstMax n idx : Nat} {it : Iter}
    {cline : Option Nat} {r : Result}
    (h : reqClinesLoop g src dst dstMax n c req it cline idx = some r) :
    r.1.evictCounter = c.evictCounter := by
  refine SpaceFrame.reqClinesLoop_rule (P := fun _ c _ _ _ r => r.1.evictCounter = c.evictCounter)
    (fun _ _ _ _ _ => rfl) ?_ h
  intro n c req it cline c1 it1 t c2 req2 idx idx2 r _ htook hassign ih
  obtain ⟨c0, hlists, rfl⟩ := htook.lists
  have hsame : c0.evictCounter = c.evictCounter := by
    rw [hlists]
  have hkeep : c2.evictCounter = c0.evictCounter := by
    simp only [assignLine, Option.ite_none_left_eq_some, Option.some.injEq, Prod.mk.injEq] at hassign
    obtain ⟨-, -, rfl, -, -⟩ := hassign
    rfl
  exact ih.trans (hkeep.trans hsame)

theorem ocfEvictionReqClines_evictCounter {src : Part} {n : Nat} {r : Result}
    (h : ocfEvictionReqClines g c req src n = some r) : r.1.evictCounter = c.evictCounter := by
  simp only [ocfEvictionReqClines] at h
  split at h
  · cases h
    rfl
  · split at h
    · cases h
    · have hloop := reqClinesLoop_evictCounter h
      exact hloop

theorem evictPartition_evictCounter {p q n : Nat} {counter counter' : Int} {r : Result}
    (h : evictPartition g false c req p n counter = some (r, counter')) (hq : q ≠ p) :
    r.1.evictCounter q = c.evictCounter q := by
  simp only [evictPartition, Bool.false_eq_true, if_false] at h
  have hinc : ∀ (c : Cache) (delta : Int),
      (ocfEvictCountersInc c p delta).evictCounter q = c.evictCounter q :=
    fun c delta => update_of_ne hq _ _
  split at h
  · cases h
    rfl
  · obtain ⟨r', h', hr⟩ := Option.map_eq_some_iff.mp h
    have hcall := congrFun (ocfEvictionReqClines_evictCounter h') q
    rw [hinc] at hcall
    split at hr
    · cases hr
      exact (hinc r'.1 _).trans hcall
    · cases hr
      exact hcall

theorem Visits.spec {n q ev ev' : Nat} {ps : List Nat} {c' : Cache}
    (h : Visits g m n ps c req ev q c' ev') (hd : ps.Nodup) (hev : ev < n) :
    q ∈ ps ∧ c'.evictCounter q = c.evictCounter q ∧ ev' < n := by
  induction h with
  | here hprio hevict => exact ⟨List.mem_cons_self, rfl, hev⟩
  | idle hprio hevict hidle hrest ih =>
    obtain ⟨hmem, hsame, hlt⟩ := ih (List.nodup_cons.mp hd).2 hev
    exact ⟨List.mem_cons_of_mem _ hmem, hsame, hlt⟩
  | turn hprio hevict hturn hmore hrest ih =>
    obtain ⟨hp, hps⟩ := List.nodup_cons.mp hd
    obtain ⟨hmem, hsame, hlt⟩ := ih hps (by omega)
    have hkeep := evictPartition_evictCounter hturn (fun heq => hp (heq ▸ hmem))
    exact ⟨List.mem_cons_of_mem _ hmem, hsame.trans hkeep, hlt⟩

theorem visits_of_once {n q ev : Nat} {ps : List Nat} {counter : Int} {noMore noMore' : Bool}
    {r : Result}
    (h : ocfEvictUserPartitionsOnce g false m n ps c req ev counter noMore = some (r, noMore'))
    (hq : q ∈ ps.takeWhile fun p => decide (m ≤ (c.config p).priority) && (c.config p).eviction) :
    n ≤ ev + r.2.2.length ∨ ∃ c' ev', Visits g m n ps c req ev q c' ev' := by
  induction ps generalizing c req ev counter noMore noMore' r with
  | nil => exact nomatch hq
  | cons p ps ih =>
    rw [List.takeWhile_cons] at hq
    split at hq
    swap
    · exact nomatch hq
    rename_i hp
    rw [Bool.and_eq_true, decide_eq_true_eq] at hp
    have hprio : ¬ (c.config p).priority < m := by omega
    have hevict := hp.2
    by_cases hqp : q = p
    · rw [hqp]
      exact .inr ⟨c, ev, .here hprio hevict⟩
    have hqs := (List.mem_cons.mp hq).resolve_left hqp
    simp only [ocfEvictUserPartitionsOnce, if_neg hprio, hevict, Bool.not_true, Bool.and_false,
      Bool.false_eq_true, if_false, Bool.false_and] at h
    split at h
    · rename_i hidle
      rcases ih h hqs with hall | ⟨c', ev', hvisit⟩
      · exact .inl hall
      · exact .inr ⟨c', ev', .idle hprio hevict hidle hvisit⟩
    · obtain ⟨⟨r1, counter1⟩, hturn, h⟩ := Option.bind_eq_some_iff.mp h
      simp only at h
      split at h
      · rename_i hall
        cases h
        exact .inl hall
      · rename_i hmore
        obtain ⟨⟨r2, noMore2⟩, h2, hr⟩ := Option.map_eq_some_iff.mp h
        cases hr
        have hconfig := (SpaceTrace.evictPartition_follows hturn).1.frame.config
        rw [← hconfig] at hqs
        rcases ih h2 hqs with hall | ⟨c', ev', hvisit⟩
        · left
          simp only [List.length_append] at hall ⊢
          omega
        · exact .inr ⟨c', ev', .turn hprio hevict hturn hmore hvisit⟩

theorem once_without_quota {n : Nat} (hn : 0 < n) (hzero : ∀ p, c.evictCounter p ≤ 0)
    (hlow : ∀ p, -2 ^ 31 + (n : Int) ≤ c.evictCounter p) (ps : List Nat) (counter : Int) :
    ocfEvictUserPartitionsOnce g false m n ps c req 0 counter true = some ((c, req, []), true) := by
  induction ps generalizing counter with
  | nil => rfl
  | cons p ps ih =>
    simp only [ocfEvictUserPartitionsOnce, Bool.not_false, Bool.true_and, Bool.false_and,
      Bool.false_eq_true, if_false, Nat.sub_zero]
    by_cases hprio : (c.config p).priority < m
    · rw [if_pos hprio]
    rw [if_neg hprio]
    cases hevict : (c.config p).eviction with
    | false => rfl
    | true =>
      simp only [Bool.not_true, Bool.false_eq_true, if_false]
      by_cases hidle : ocfEvictCalculate g c p n = 0
      · rw [if_pos hidle]
        exact ih counter
      rw [if_neg hidle]
      have hle : ocfEvictCalculate g c p n ≤ n := Nat.min_le_left _ _
      generalize ocfEvictCalculate g c p n = toEvict at hidle hle
      have hz := hzero p
      have hl := hlow p
      have hrange : int32 (c.evictCounter p - toEvict) = c.evictCounter p - toEvict :=
        int32_of_range (by omega)
      have hno : int32 (c.evictCounter p - toEvict) ≤ -(toEvict : Int) := by
        rw [hrange]
        omega
      have hturn : evictPartition g false c req p toEvict counter =
          some ((c, req, []), int32 (c.evictCounter p - toEvict) + toEvict) := by
        simp only [evictPartition, Bool.false_eq_true, if_false]
        rw [if_pos hno]
      have hspent : ¬ 0 < int32 (c.evictCounter p - toEvict) + toEvict := by
        rw [hrange]
        omega
      rw [hturn]
      simp only [Option.bind_some, List.length_nil, Nat.add_zero, if_neg hspent,
        if_neg (Nat.not_le_of_gt hn)]
      rw [ih]
      rfl

theorem secondTryCalls {n p : Nat} (hc : Ranged c) (hm : ValidPriority m) (hfill : Refillable g c m)
    (hn : 0 < n ∧ n < 2 ^ 31) (hzero : ∀ p, c.evictCounter p ≤ 0)
    (hlow : ∀ p, -2 ^ 31 + (n : Int) ≤ c.evictCounter p) (hp : p ∈ reached c m)
    (habove : (ocfUserPartGetMinSize g c p : Int) < c.currSize (.user p))
    (hcounter : c.evictCounter p = 0) : SecondTryCalls g c req n m p := by
  have hsize : c.currSize (.user p) ≠ 0 := by omega
  have hmore := (refills_iff hc hm).mpr hfill p hp hsize
  have hnew : (ocfEvictCountersUpdate g c m).evictCounter p < 2 ^ 31 := by
    rw [update_evictCounter hc.distinct]
    split
    · have hfit := hfill.2 p hp hsize
      have hlow := (hc.counter p).1
      rw [int32_of_range (by omega)]
      exact hfit
    · exact (hc.counter p).2
  have hconfig : (ocfEvictCountersUpdate g c m).config = c.config := by
    obtain ⟨e, he⟩ := SpaceTrace.ocfEvictCountersUpdate_eq g c m
    rw [he]
  refine ⟨once_without_quota hn.1 hzero hlow _ 0, ?_, ?_⟩
  · intro c' evicted hvisit habove'
    obtain ⟨-, hsame, hlt⟩ := hvisit.spec hc.distinct hn.1
    have hcalc : ocfEvictCalculate g c' p (n - evicted) =
        min (n - evicted) (c'.currSize (.user p) - ocfUserPartGetMinSize g c' p).toNat := rfl
    unfold CallsReqClines
    rw [hcalc]
    generalize htake : min (n - evicted)
      (c'.currSize (.user p) - ocfUserPartGetMinSize g c' p).toNat = toEvict
    have hpos : toEvict ≠ 0 := by omega
    refine ⟨hpos, ?_⟩
    rw [hsame, int32_of_range (by omega)]
    omega
  · intro r noMore honce
    have hq : p ∈ c.userPartList.takeWhile fun q =>
        decide (m ≤ ((ocfEvictCountersUpdate g c m).config q).priority) &&
          ((ocfEvictCountersUpdate g c m).config q).eviction := by
      rw [hconfig]
      exact hp
    rcases visits_of_once honce hq with hall | hvisit
    · left
      omega
    · exact .inr hvisit

end Tries

/-- The refill agrees with the eviction, and a second try then calls the
eviction, exactly if the priority is not the pinned one and no counter overflows. -/
theorem evict_refill_iff {c : Cache} {m : Int} (hc : Ranged c) (hm : ValidPriority m) :
    (Refills g c m ∧ ∀ (req : Request) (n p : Nat), 0 < n ∧ n < 2 ^ 31 →
      (∀ q, c.evictCounter q ≤ 0 ∧ -2 ^ 31 + (n : Int) ≤ c.evictCounter q) → p ∈ reached c m →
      (ocfUserPartGetMinSize g c p : Int) < c.currSize (.user p) → c.evictCounter p = 0 →
      SecondTryCalls g c req n m p) ↔ Refillable g c m := by
  constructor
  · intro h
    exact (refills_iff hc hm).mp h.1
  · intro h
    refine ⟨(refills_iff hc hm).mpr h, ?_⟩
    intro req n p hn hcounters hp habove hcounter
    exact secondTryCalls hc hm h hn (fun q => (hcounters q).1) (fun q => (hcounters q).2) hp habove
      hcounter

/-- One partition of a thousand lines, of the lowest priority, without quota. -/
def thousandLines : Cache :=
  { LruRuns.blankCache (fun _ => ⟨0, 100, true, 255⟩) [0] with currSize := fun _ => 1000 }

/-- A thousand lines. -/
def thousand : Geometry := ⟨1, Nat.one_pos, 1, 1000, 0⟩

theorem ranged_thousandLines : Ranged thousandLines := by
  refine ⟨?_, ?_, ?_, ?_⟩
  · exact List.nodup_singleton 0
  · intro p
    change -2 ^ 15 ≤ (255 : Int) ∧ (255 : Int) < 2 ^ 15
    omega
  · intro p
    change -2 ^ 31 ≤ (0 : Int) ∧ (0 : Int) < 2 ^ 31
    omega
  · intro p
    change 0 ≤ (1000 : Int) ∧ (1000 : Int) < 2 ^ 31
    omega

/-- For a regular priority the partition is filled up and evicted from. -/
theorem evict_refill_regular : Refillable thousand thousandLines 255 ∧
      ((Refills thousand thousandLines 255 ∧ ∀ (req : Request) (n p : Nat), 0 < n ∧ n < 2 ^ 31 →
        (∀ q, thousandLines.evictCounter q ≤ 0 ∧ -2 ^ 31 + (n : Int) ≤ thousandLines.evictCounter q) →
        p ∈ reached thousandLines 255 →
        (ocfUserPartGetMinSize thousand thousandLines p : Int) < thousandLines.currSize (.user p) →
        thousandLines.evictCounter p = 0 → SecondTryCalls thousand thousandLines req n 255 p) ↔
        Refillable thousand thousandLines 255) := by
  refine ⟨⟨nofun, ?_⟩, evict_refill_iff thousand ranged_thousandLines (.inr (by decide))⟩
  intro p hp _
  have hp0 : p = 0 := List.mem_singleton.mp ((List.takeWhile_sublist _).mem hp)
  rw [hp0]
  decide

/-- For the pinned priority the only partition takes part and is not filled up. -/
theorem evict_refill_pinned : Ranged thousandLines ∧ ValidPriority ocfIoClassPrioPinned ∧
      0 ∈ reached thousandLines ocfIoClassPrioPinned ∧
      ¬ Refills thousand thousandLines ocfIoClassPrioPinned := by
  have hmem : 0 ∈ reached thousandLines ocfIoClassPrioPinned := by decide
  refine ⟨ranged_thousandLines, .inl rfl, hmem, ?_⟩
  intro h
  have hinc := h 0 hmem (by decide)
  exact absurd hinc (by decide)

end OcfCache.EvictQuota
