import OcfCache.DetachRuns

/-!
# Switching the eviction policy

Embedding of `ocf_mngt_cache_eviction_set_policy`. The switch frees the lists
of the old policy and sets up empty ones for the new one; it puts no line on
them. The entries of the cache lines in the eviction metadata stay as they are
and are read in the layout of the policy in use; what they read as in the other
layout is a parameter. Of the exits only those in front of the lock leave the
cache as the caller may expect it.
-/

namespace OcfCache.PolicySwitch

open Function Metadata Partitions DetachRange DetachRuns Runs Loops
open LruRuns (State)

/-- Return values of `ocf_mngt_cache_eviction_set_policy`. -/
inductive Outcome
  /-- `0`. -/
  | ok
  /-- `-OCF_ERR_CACHE_STANDBY`. -/
  | cacheStandby
  /-- `-OCF_ERR_CACHE_DETACHED`. -/
  | cacheDetached
  /-- `-OCF_ERR_NO_MEM`. -/
  | noMem
  deriving DecidableEq, Repr

/-- What the eviction metadata of the lines reads as in one layout. -/
structure Reading where
  /-- Partition of each line. -/
  partitionId : Nat → Nat
  /-- LRU nodes. -/
  lruNodes : LruList.Nodes
  /-- LFU nodes. -/
  lfuNodes : Nat → LfuMeta

/-- A cache as its management sees it. -/
structure Mngt where
  /-- The cache, with its eviction policy. -/
  cache : Cache
  /-- The cache is in standby mode. -/
  standby : Bool
  /-- The cache has a device. -/
  attached : Bool
  /-- The eviction metadata in the layout of each policy. -/
  entries : EvictionPolicy → Reading
  /-- `part->eviction_runtime` is there. -/
  runtime : Part → Bool
  /-- Exclusive access to the metadata is taken. -/
  exclusive : Bool

/-- All partitions, in the order of the loops. -/
def allParts : List Part :=
  (List.range ocfUserIoClassMax).map .user ++ [.free, .freeDetached]

/-- Set the policy; the eviction metadata is read in its layout from then on. -/
def setType (m : Mngt) (type : EvictionPolicy) : Mngt :=
  { m with cache :=
    { m.cache with
      policy := type
      md := { m.cache.md with partitionId := (m.entries type).partitionId }
      lruNodes := (m.entries type).lruNodes
      lfuNodes := (m.entries type).lfuNodes } }

/-- `ocf_lru_init_part` and `ocf_lfu_init_part` with memory for the lists. -/
def initPart (m : Mngt) (part : Part) : Mngt :=
  { m with
    cache := match m.cache.policy with
      | .lru => Lru.ocfLruInit m.cache part
      | .lfu => Lfu.ocfLfuInit m.cache part
    runtime := update m.runtime part true }

/-- `ocf_eviction_deinit_part`. -/
def ocfEvictionDeinitPart (m : Mngt) (part : Part) : Mngt :=
  { m with runtime := update m.runtime part false }

/-- `__deinit_eviction_policy`, but for the policy, which is set next. -/
def deinitEvictionPolicy (m : Mngt) : Mngt := allParts.foldl ocfEvictionDeinitPart m

/-- The initialisation of partitions up to the first one without memory. -/
def initParts (alloc : Part → Bool) : Mngt → List Part → Mngt × Bool
  | m, [] => (m, true)
  | m, part :: parts => if alloc part then initParts alloc (initPart m part) parts else (m, false)

/-- `__init_eviction_policy`. -/
def initEvictionPolicy (alloc : Part → Bool) (m : Mngt) : Mngt × Bool :=
  let r := initParts alloc m allParts
  if r.2 then r else (deinitEvictionPolicy r.1, false)

/-- The policy is torn down, another one set and initialised. -/
def switchTo (alloc : Part → Bool) (m : Mngt) (type : EvictionPolicy) : Mngt × Bool :=
  initEvictionPolicy alloc (setType (deinitEvictionPolicy m) type)

/-- `ocf_mngt_cache_eviction_set_policy`, with the allocations that succeed. -/
def ocfMngtCacheEvictionSetPolicy (alloc : Part → Bool) (m : Mngt) (type : EvictionPolicy) :
    Mngt × Outcome :=
  if m.standby then (m, .cacheStandby)
  else if !m.attached then (m, .cacheDetached)
  else
    let m := { m with exclusive := true }
    -- this return keeps the exclusive access
    if type = m.cache.policy then (m, .ok)
    else
      let r := switchTo alloc m type
      if r.2 then ({ r.1 with exclusive := false }, .ok)
      else ({ setType r.1 .lru with exclusive := false }, .noMem)

/-- Lines on the lists of a partition, if it has lists. -/
def lists (m : Mngt) (p : Part) : List Nat := if m.runtime p then linesOf m.cache p else []

/-- Every line is on one list, the occupancies add up to the number of lines,
and mapped lines are where they were. -/
def StillManaged (g : Geometry) (m m' : Mngt) : Prop :=
  (∀ x < g.collisionEntries, (allParts.flatMap (lists m')).count x = 1) ∧
    (allParts.map m'.cache.currSize).sum = g.collisionEntries ∧
    ∀ x < g.collisionEntries, (m.cache.md.coreInfo x).1 ≠ ocfCoreNum →
      m'.cache.md.partitionId x = m.cache.md.partitionId x ∧
        x ∈ lists m' (.user (m.cache.md.partitionId x))

/-- Policy, lists and occupancies are as they were. -/
def SamePlacement (m m' : Mngt) : Prop :=
  m'.cache.policy = m.cache.policy ∧
    ∀ p : Part, p.Exists → lists m' p = lists m p ∧ m'.cache.currSize p = m.cache.currSize p

/-- The switch keeps every line managed, an error changes nothing, and nobody
is left with exclusive access. -/
def Keeps (g : Geometry) (alloc : Part → Bool) (m : Mngt) (type : EvictionPolicy) : Prop :=
  (ocfMngtCacheEvictionSetPolicy alloc m type).1.exclusive = false ∧
    ((ocfMngtCacheEvictionSetPolicy alloc m type).2 = .ok →
      StillManaged g m (ocfMngtCacheEvictionSetPolicy alloc m type).1) ∧
    ((ocfMngtCacheEvictionSetPolicy alloc m type).2 ≠ .ok →
      SamePlacement m (ocfMngtCacheEvictionSetPolicy alloc m type).1)

/-- A state of the eviction policy as its management finds it: the metadata
reads as it does in the policy's own layout, all lists are there, and nobody
has exclusive access. -/
def ofState (s : State) (standby attached : Bool) (entries : EvictionPolicy → Reading) : Mngt where
  cache := s.cache
  standby := standby
  attached := attached
  entries := update entries s.cache.policy
    ⟨s.cache.md.partitionId, s.cache.lruNodes, s.cache.lfuNodes⟩
  runtime := fun _ => true
  exclusive := false

theorem mem_allParts {p : Part} : p ∈ allParts ↔ p.Exists := by
  cases p with
  | user i => simp [allParts, Part.Exists]
  | free => simp [allParts, Part.Exists]
  | freeDetached => simp [allParts, Part.Exists]

/-- The lists of a partition are empty. -/
def Blank (c : Cache) (p : Part) : Prop :=
  (c.policy = .lru → LruRuns.Ready c p) ∧ (c.policy = .lfu → LfuRuns.Ready c p)

theorem linesOf_blank {c : Cache} {p : Part} (hp : p.Exists) (h : Blank c p) :
    linesOf c p = [] := by
  rcases policy_cases c with hpol | hpol
  · simp only [linesOf, hpol, List.flatMap_eq_nil_iff]
    intro key hkey
    obtain ⟨hlisted, hpart⟩ := (LruRuns.mem_partLists hp).mp hkey
    rw [LruRuns.linesOn, (h.1 hpol).2 key hlisted hpart]
    rfl
  · simp only [linesOf, hpol, List.flatMap_eq_nil_iff]
    intro key hkey
    obtain ⟨hlisted, hpart⟩ := (LfuRuns.mem_partLists hp).mp hkey
    rw [LfuRuns.linesOn, (h.2 hpol).2 key hlisted hpart]
    rfl

theorem initPart_policy (m : Mngt) (p : Part) : (initPart m p).cache.policy = m.cache.policy := by
  simp only [initPart]
  split <;> rfl

theorem blank_initPart (m : Mngt) (p : Part) : Blank (initPart m p).cache p := by
  constructor
  · intro hpol
    rw [initPart_policy] at hpol
    simp only [initPart, hpol]
    exact LruRuns.ready_ocfLruInit m.cache p
  · intro hpol
    rw [initPart_policy] at hpol
    simp only [initPart, hpol]
    exact LfuRuns.ready_ocfLfuInit m.cache p

theorem Blank.initPart {m : Mngt} {p : Part} (h : Blank m.cache p) (q : Part) :
    Blank (initPart m q).cache p := by
  constructor
  · intro hpol
    rw [initPart_policy] at hpol
    simp only [PolicySwitch.initPart, hpol]
    exact (h.1 hpol).ocfLruInit q
  · intro hpol
    rw [initPart_policy] at hpol
    simp only [PolicySwitch.initPart, hpol]
    exact (h.2 hpol).ocfLfuInit q

theorem initParts_blank {alloc : Part → Bool} {parts : List Part} {m m' : Mngt}
    (h : initParts alloc m parts = (m', true)) {p : Part} (hp : p ∈ parts ∨ Blank m.cache p) :
    Blank m'.cache p := by
  induction parts generalizing m with
  | nil =>
    cases h
    rcases hp with hp | hp
    · cases hp
    · exact hp
  | cons q parts ih =>
    simp only [initParts] at h
    split at h
    · refine ih h ?_
      rcases hp with hp | hp
      · rcases List.mem_cons.mp hp with rfl | hp
        · exact .inr (blank_initPart m p)
        · exact .inl hp
      · exact .inr (hp.initPart q)
    · cases h

theorem deinitEvictionPolicy_runtime (m : Mngt) {p : Part} (hp : p.Exists) :
    (deinitEvictionPolicy m).runtime p = false := by
  have hgen : ∀ (parts : List Part) (m : Mngt), p ∈ parts ∨ m.runtime p = false →
      (parts.foldl ocfEvictionDeinitPart m).runtime p = false := by
    intro parts
    induction parts with
    | nil =>
      intro m h
      rcases h with h | h
      · cases h
      · exact h
    | cons q parts ih =>
      intro m h
      refine ih (ocfEvictionDeinitPart m q) ?_
      by_cases hpq : p = q
      · subst hpq
        exact .inr (update_self ..)
      · rcases h with h | h
        · exact .inl ((List.mem_cons.mp h).resolve_left hpq)
        · exact .inr ((update_of_ne hpq ..).trans h)
  exact hgen allParts m (.inl (mem_allParts.mpr hp))

section Exits

variable {g : Geometry} {alloc : Part → Bool} {m : Mngt} {type : EvictionPolicy}

theorem keeps_of_refused (h : m.standby = true ∨ m.attached = false)
    (hexcl : m.exclusive = false) : Keeps g alloc m type := by
  have hcall : ∃ outcome, outcome ≠ .ok ∧
      ocfMngtCacheEvictionSetPolicy alloc m type = (m, outcome) := by
    rw [ocfMngtCacheEvictionSetPolicy]
    split
    · exact ⟨.cacheStandby, nofun, rfl⟩
    · rename_i hstandby
      rw [if_pos (by rw [h.resolve_left hstandby]; rfl)]
      exact ⟨.cacheDetached, nofun, rfl⟩
  obtain ⟨outcome, hne, hcall⟩ := hcall
  refine ⟨?_, fun hok => ?_, fun _ => ?_⟩
  · rw [hcall]
    exact hexcl
  · rw [hcall] at hok
    exact absurd hok hne
  · rw [hcall]
    exact ⟨rfl, fun p _ => ⟨rfl, rfl⟩⟩

theorem not_keeps_of_same (hs : m.standby = false) (ha : m.attached = true)
    (hsame : type = m.cache.policy) : ¬Keeps g alloc m type := by
  rintro ⟨hexcl, -⟩
  simp only [ocfMngtCacheEvictionSetPolicy, hs, ha, hsame] at hexcl
  cases hexcl

theorem setPolicy_active (hs : m.standby = false) (ha : m.attached = true)
    (hne : type ≠ m.cache.policy) : ocfMngtCacheEvictionSetPolicy alloc m type =
      if (switchTo alloc { m with exclusive := true } type).2 then
        ({ (switchTo alloc { m with exclusive := true } type).1 with exclusive := false }, .ok)
      else ({ setType (switchTo alloc { m with exclusive := true } type).1 .lru with
        exclusive := false }, .noMem) := by
  rw [ocfMngtCacheEvictionSetPolicy, if_neg (by rw [hs]; exact Bool.false_ne_true),
    if_neg (by rw [ha]; exact Bool.false_ne_true)]
  exact if_neg hne

theorem switchTo_blank (hok : (switchTo alloc m type).2 = true) {p : Part} (hp : p.Exists) :
    Blank (switchTo alloc m type).1.cache p := by
  simp only [switchTo, initEvictionPolicy] at hok ⊢
  split at hok
  · rename_i hinit
    rw [if_pos hinit]
    exact initParts_blank (Prod.ext rfl hinit) (.inl (mem_allParts.mpr hp))
  · cases hok

theorem switchTo_freed (hfail : ¬(switchTo alloc m type).2 = true) {p : Part} (hp : p.Exists) :
    (switchTo alloc m type).1.runtime p = false := by
  simp only [switchTo, initEvictionPolicy] at hfail ⊢
  split
  · rename_i hinit
    rw [if_pos hinit] at hfail
    exact absurd hinit hfail
  · exact deinitEvictionPolicy_runtime _ hp

theorem not_keeps_of_switch (hpos : 0 < g.collisionEntries) (hs : m.standby = false)
    (ha : m.attached = true) (hne : type ≠ m.cache.policy)
    (hok : (switchTo alloc { m with exclusive := true } type).2 = true) :
    (ocfMngtCacheEvictionSetPolicy alloc m type).2 = .ok ∧
      (∀ p : Part, p.Exists → lists (ocfMngtCacheEvictionSetPolicy alloc m type).1 p = []) ∧
      ¬Keeps g alloc m type := by
  have hcall : ocfMngtCacheEvictionSetPolicy alloc m type =
      ({ (switchTo alloc { m with exclusive := true } type).1 with exclusive := false }, .ok) :=
    (setPolicy_active hs ha hne).trans (if_pos hok)
  have hempty : ∀ p : Part, p.Exists →
      lists (ocfMngtCacheEvictionSetPolicy alloc m type).1 p = [] := by
    intro p hp
    rw [hcall, lists]
    split
    · exact linesOf_blank hp (switchTo_blank hok hp)
    · rfl
  refine ⟨by rw [hcall], hempty, ?_⟩
  rintro ⟨-, hmanaged, -⟩
  obtain ⟨hone, -⟩ := hmanaged (by rw [hcall])
  have hnone : allParts.flatMap (lists (ocfMngtCacheEvictionSetPolicy alloc m type).1) = [] :=
    List.flatMap_eq_nil_iff.mpr fun p hp => hempty p (mem_allParts.mp hp)
  have hcount := hone 0 hpos
  rw [hnone] at hcount
  cases hcount

theorem not_keeps_of_noMem (hs : m.standby = false) (ha : m.attached = true)
    (hne : type ≠ m.cache.policy)
    (hfail : ¬(switchTo alloc { m with exclusive := true } type).2 = true)
    {p : Part} (hp : p.Exists) (hlines : lists m p ≠ []) : ¬Keeps g alloc m type := by
  have hcall : ocfMngtCacheEvictionSetPolicy alloc m type =
      ({ setType (switchTo alloc { m with exclusive := true } type).1 .lru with
        exclusive := false }, .noMem) := (setPolicy_active hs ha hne).trans (if_neg hfail)
  rintro ⟨-, -, hsame⟩
  obtain ⟨-, hlists⟩ := hsame (by rw [hcall]; nofun)
  have hnone : lists (ocfMngtCacheEvictionSetPolicy alloc m type).1 p = [] := by
    rw [hcall, lists]
    refine if_neg ?_
    simp only [setType, switchTo_freed hfail hp]
    exact Bool.false_ne_true
  exact hlines ((hlists p hp).1.symm.trans hnone)

end Exits

/-- In every reachable state of a cache with lines the call does what it should
just when it is refused, in standby mode or without a device. -/
theorem setPolicy_keeps_iff {g : Geometry} {start s : State} (h0 : Start g start)
    (h : Reachable (linesSystem g) start s) (hpos : 0 < g.collisionEntries) (standby attached : Bool)
    (entries : EvictionPolicy → Reading) (alloc : Part → Bool) (type : EvictionPolicy) :
    Keeps g alloc (ofState s standby attached entries) type ↔
      standby = true ∨ attached = false := by
  constructor
  · intro hkeeps
    by_contra hactive
    rw [not_or, Bool.not_eq_true, Bool.not_eq_false] at hactive
    obtain ⟨hs, ha⟩ := hactive
    have hinv := reachable_inv h0 h
    -- the first line is on some list before the call
    have hlines : lists (ofState s standby attached entries) (s.owner 0) ≠ [] := by
      obtain ⟨-, hmem⟩ := managed_linesOf hinv.managed (hinv.managed.part 0)
      exact List.ne_nil_of_mem ((hmem 0).mpr ⟨hpos, rfl⟩)
    by_cases hsame : type = s.cache.policy
    · exact not_keeps_of_same hs ha hsame hkeeps
    · by_cases hok : (switchTo alloc
          { ofState s standby attached entries with exclusive := true } type).2 = true
      · exact (not_keeps_of_switch hpos hs ha hsame hok).2.2 hkeeps
      · exact not_keeps_of_noMem hs ha hsame hok (hinv.managed.part 0) hlines hkeeps
  · intro hrefused
    exact keeps_of_refused hrefused rfl

/-- A write that misses two lines. -/
def missOfTwo : Requests.Request := ⟨0, 0, 2, .write, 1, fun i => ⟨0, 3, i, 0, .miss, false, false, false⟩, .zero⟩

/-- The write takes two free lines, and one of them moves to another partition. -/
def twoUsed : Option State :=
  (step LruRuns.threeLines lruStart (.reqClines missOfTwo .free 2)).bind fun s =>
    step LruRuns.threeLines s (.repart 1 0)

/-- The locks of the request are gone. -/
def unlocked (s : State) : State := ⟨{ s.cache with lineLocked := fun _ => false }, s.owner⟩

theorem reachable_twoUsed {s : State} (h : twoUsed = some s) :
    Reachable (linesSystem LruRuns.threeLines) lruStart (unlocked s) := by
  obtain ⟨s1, hs1, hs⟩ := Option.bind_eq_some_iff.mp h
  have hpart : (step LruRuns.threeLines lruStart (.reqClines missOfTwo .free 2)).map
      (fun s => s.cache.md.partitionId 1) = some 1 := by decide +kernel
  rw [hs1, Option.map_some, Option.some.injEq] at hpart
  have hreach : Reachable (linesSystem LruRuns.threeLines) lruStart s :=
    Reachable.next (.next (.refl trivial) (.reqClines missOfTwo .free 2) ⟨by decide, by decide, trivial⟩ hs1)
      (.repart 1 0) ⟨⟨by decide, by rw [hpart]; decide⟩, by decide, by rw [hpart]; decide⟩ hs
  exact hreach.next (.other (unlocked s).cache) ⟨rfl, rfl, rfl, rfl, rfl, rfl, fun _ _ => ⟨rfl, rfl⟩,
    fun _ _ _ => rfl⟩ rfl

/-- With two mapped lines in different partitions the call is refused in standby mode. -/
theorem setPolicy_keeps_iff_standby : ∃ s : State, (s.owner 0, s.owner 1, s.owner 2) = (.user 1, .user 0, .free) ∧
    Keeps LruRuns.threeLines (fun _ => true)
      (ofState s true true fun _ => ⟨fun _ => 0, fun _ => ⟨none, none, false⟩,
        fun _ => ⟨none, none, false, 0, 0⟩⟩) .lfu := by
  have hview : twoUsed.map (fun s => (s.owner 0, s.owner 1, s.owner 2)) =
      some (.user 1, .user 0, .free) := by decide +kernel
  obtain ⟨s, hs, howner⟩ := Option.map_eq_some_iff.mp hview
  exact ⟨unlocked s, howner, (setPolicy_keeps_iff start_lruStart (reachable_twoUsed hs) (by decide)
    true true _ _ _).mpr (.inl rfl)⟩

/-- Three free lines with LRU lists: the switch to LFU succeeds and leaves no
line on any list, and setting LRU again leaves the metadata locked. -/
theorem setPolicy_not_keeps : ∃ m : Mngt, m.cache = lruStart.cache ∧ m.standby = false ∧
    m.attached = true ∧ (ocfMngtCacheEvictionSetPolicy (fun _ => true) m .lfu).2 = .ok ∧
    (∀ p : Part, p.Exists → lists (ocfMngtCacheEvictionSetPolicy (fun _ => true) m .lfu).1 p = []) ∧
    ¬Keeps LruRuns.threeLines (fun _ => true) m .lfu ∧
    ¬Keeps LruRuns.threeLines (fun _ => true) m .lru := by
  let m := ofState lruStart false true fun _ => ⟨fun _ => 0, fun _ => ⟨none, none, false⟩,
    fun _ => ⟨none, none, false, 0, 0⟩⟩
  have hpol : m.cache.policy = .lru := by decide +kernel
  have hok : (switchTo (fun _ => true) { m with exclusive := true } .lfu).2 = true := by
    decide +kernel
  obtain ⟨hout, hempty, hnot⟩ := not_keeps_of_switch (g := LruRuns.threeLines) (m := m)
    (by decide) rfl rfl (by rw [hpol]; nofun) hok
  exact ⟨m, rfl, rfl, rfl, hout, hempty, hnot, not_keeps_of_same rfl rfl hpol.symm⟩

/-- In every reachable state a line is on one list, it is a list of a user
partition if and only if the line is mapped, and the counters of the partitions
count the lines on their lists, so that they add up to the size of the cache. -/
theorem line_on_one_list {g : Geometry} {start s : State} (h0 : Start g start)
    (h : Reachable (linesSystem g) start s) :
    (∀ x < g.collisionEntries, (allParts.flatMap (linesOf s.cache)).count x = 1) ∧
      (∀ p : Part, p.Exists → s.cache.currSize p = (linesOf s.cache p).length ∧
        ∀ x ∈ linesOf s.cache p, p.id = partitionFreelist ↔ (s.cache.md.coreInfo x).1 = ocfCoreNum) ∧
      (allParts.map s.cache.currSize).sum = g.collisionEntries := by
  have hinv := reachable_inv h0 h
  have hlines := fun p hp => @managed_linesOf g s.cache s.owner hinv.managed p hp
  have hparts : allParts.Nodup := by decide
  have howner : ∀ x, s.owner x ∈ allParts := fun x => mem_allParts.mpr (hinv.managed.part x)
  have hsize : ∀ p : Part, p.Exists →
      s.cache.currSize p = countBelow (fun x => decide (s.owner x = p)) g.collisionEntries := by
    rcases policy_cases s.cache with hpol | hpol
    · exact ((managed_lru hpol).mp hinv.managed).size
    · exact ((managed_lfu hpol).mp hinv.managed).size
  refine ⟨fun x hx => ?_, fun p hp => ⟨?_, fun x hx => ?_⟩, ?_⟩
  · obtain ⟨hnodup, hmem⟩ := flatMap_lines hparts (fun p hp => (hlines p (mem_allParts.mp hp)).1)
      fun p hp x => by rw [(hlines p (mem_allParts.mp hp)).2 x, eq_comm (a := p)]
    exact List.count_eq_one_of_mem hnodup ((hmem x).mpr ⟨hx, howner x⟩)
  · obtain ⟨hnodup, hmem⟩ := hlines p hp
    have hlen := @length_eq_countBelow (fun x => decide (s.owner x = p)) _ _ hnodup
      fun x => by rw [hmem x, decide_eq_true_eq]
    rw [hsize p hp, hlen]
  · obtain ⟨hlt, rfl⟩ := ((hlines p hp).2 x).mp hx
    exact hinv.mapped x hlt
  · have hcast : allParts.map s.cache.currSize = (allParts.map fun p =>
        countBelow (fun x => decide (s.owner x = p)) g.collisionEntries).map Nat.cast := by
      rw [List.map_map]
      exact List.map_congr_left fun p hp => hsize p (mem_allParts.mp hp)
    have hall : countBelow (fun x => decide (s.owner x ∈ allParts)) g.collisionEntries =
        g.collisionEntries := countBelow_eq_self.mpr fun x _ => decide_eq_true (howner x)
    rw [hcast, ← Nat.cast_list_sum, sum_countBelow hparts, hall]

/-- A request got two lines, one of them moved to another partition, and the
other one is detached. -/
theorem line_on_one_list_detached : ∃ s, Reachable (linesSystem LruRuns.threeLines) lruStart s ∧
    (linesOf s.cache .freeDetached, linesOf s.cache (.user 0), linesOf s.cache .free) = ([0], [1], [2]) ∧
    ∀ x < 3, (allParts.flatMap (linesOf s.cache)).count x = 1 := by
  let after := twoUsed.bind fun s => step LruRuns.threeLines (unlocked s) (.detach 0 1)
  have hview : after.map (fun s => (linesOf s.cache .freeDetached, linesOf s.cache (.user 0),
      linesOf s.cache .free)) = some ([0], [1], [2]) := by decide +kernel
  obtain ⟨t, ht, hlists⟩ := Option.map_eq_some_iff.mp hview
  obtain ⟨s, hs, hdetach⟩ := Option.bind_eq_some_iff.mp ht
  have hidle : Idle (unlocked s) 0 1 := by
    have hline : twoUsed.map (fun s => (s.cache.waiters 0, s.owner 0)) = some (false, .user 1) := by
      decide +kernel
    rw [hs, Option.map_some, Option.some.injEq, Prod.mk.injEq] at hline
    intro x _ hx
    obtain rfl := Nat.lt_one_iff.mp hx
    exact ⟨rfl, hline.1, fun hd => nomatch hline.2.symm.trans hd⟩
  have hreach := (reachable_twoUsed hs).next (.detach 0 1) hidle hdetach
  exact ⟨t, hreach, hlists, (line_on_one_list start_lruStart hreach).1⟩

end OcfCache.PolicySwitch
