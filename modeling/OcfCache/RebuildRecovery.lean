import OcfCache.LineMap
import OcfCache.Occupancy
import OcfCache.Restore

/-!
# Recovery after a dirty shutdown

Embedding of `ocf_mngt_rebuild_metadata` with the steps of the load before it.
One shard for each list index walks its cache lines. A line whose metadata is
refused ends the recovery; a line with dirty sectors of a core keeps them and
is put in the collision table, and any other line is reset. The shards count
the lines of each core, and the sums replace the counters. Two lines may hold
the same core line on the device: the module shows that everything else is
rebuilt as it should be.
-/

namespace OcfCache.RebuildRecovery

open Function Loops Metadata Partitions CacheLine LineMap Occupancy Restore
open List (mem_range nodup_range)
open LruRuns (Interleaves rebuildShard recovered)

/-- `ocf_mngt_cline_rebuild_metadata` and `ocf_mngt_cline_reset_metadata` under
the eviction policy. -/
def rebuildLine (g : Geometry) (policy : EvictionPolicy) (c : Cache) (x : Nat) : Option Cache :=
  match policy with
  | .lru => LruRuns.rebuildLine g c x
  | .lfu => some (LfuRuns.rebuildLine g c x)

/-- Set-up of the eviction policy. -/
def initPolicy (c : Cache) : Cache :=
  match c.policy with
  | .lru => LruRuns.initPolicy c
  | .lfu => LfuRuns.initPolicy c

/-- The cache with the counters of the shards. -/
structure Progress where
  /-- The cache. -/
  cache : Cache
  /-- `shard[].core[].lines`. -/
  lines : Nat → Nat → Nat
  /-- `free_lines` of each shard. -/
  free : Nat → Nat

/-- One line in `ocf_mngt_rebuild_metadata_handle`; no result stands for
`-OCF_ERR_INVAL`. -/
def handleLine (g : Geometry) (coreValid : Nat → Bool) (policy : EvictionPolicy) (s : Progress)
    (x : Nat) : Option Progress :=
  let core := (s.cache.md.coreInfo x).1
  let shard := Lru.ocfLruGetListIndex x
  if ocfMetadataCheck g s.cache.md x = false ∨ ocfCoreNum < core then none
  else if recovered g s.cache.md x = false then
    (rebuildLine g policy s.cache x).map fun c =>
      { s with cache := c, free := fun i => if i = shard then s.free i + 1 else s.free i }
  else if coreValid core = false then none
  else (rebuildLine g policy s.cache x).map fun c =>
    { s with
      cache := c
      lines := fun i k => if i = shard ∧ k = core then s.lines i k + 1 else s.lines i k }

/-- The recovered cache with the counters of its cores. -/
structure Recovered where
  /-- The cache. -/
  cache : Cache
  /-- The counters. -/
  counters : Counters

/-- `context->core[].lines`, added up by the shards at their ends. -/
def coreLines (s : Progress) (core : Nat) : Nat :=
  ((List.range Lru.ocfNumLruLists).map fun shard => s.lines shard core).sum

/-- The cores of `for_each_core`. -/
def addedCores (added : Nat → Bool) : List Nat := (List.range ocfCoreNum).filter added

/-- A counter of a core, set to its lines in `for_each_core`. -/
def setLines (added : Nat → Bool) (s : Progress) (core : Nat) (old : Int) : Int :=
  if core ∈ addedCores added then coreLines s core else old

/-- `ocf_mngt_rebuild_metadata_finish`. -/
def ocfMngtRebuildMetadataFinish (added : Nat → Bool) (k : Counters) (s : Progress) : Recovered :=
  let total := ((addedCores added).map (coreLines s)).sum
  let free := ((List.range Lru.ocfNumLruLists).map s.free).sum
  { cache := { s.cache with
      currSize := update (update s.cache.currSize (.user 0) total) .free free }
    counters := {
      cached := fun core part => if part = 0 then setLines added s core (k.cached core part) else k.cached core part
      dirty := fun core part => if part = 0 then setLines added s core (k.dirty core part) else k.dirty core part
      cachedClines := fun core => setLines added s core (k.cachedClines core)
      dirtyClines := fun core => setLines added s core (k.dirtyClines core) } }

/-- `_reset_stats`. -/
def resetStats : Counters := ⟨fun _ _ => 0, fun _ _ => 0, fun _ => 0, fun _ => 0⟩

/-- Load of metadata after a dirty shutdown: the eviction policy is set up,
the cores of the superblock are added, the hash table and the counters are
initialized, and the metadata is rebuilt in the order in which the shards come
to the lines. -/
def recover (g : Geometry) (coreValid : Nat → Bool) (c : Cache) (order : List Nat) :
    Option Recovered :=
  let c := initPolicy { c with md := { c.md with hash := fun _ => [] } }
  (order.foldlM (handleLine g coreValid c.policy) ⟨c, fun _ _ => 0, fun _ => 0⟩).map
    (ocfMngtRebuildMetadataFinish coreValid resetStats)

/-- The line has a dirty sector and the id of a core. -/
def dirtyLine (g : Geometry) (md : LineTable) (x : Nat) : Bool :=
  metadataTestDirty g md x && decide ((md.coreInfo x).1 < ocfCoreNum)

/-- The partition of a line by what was on the device. -/
def partOf (g : Geometry) (md : LineTable) (x : Nat) : Part :=
  if dirtyLine g md x then .user 0 else .free

/-- The line is on the dirty list of its index in a user partition, or on the
free list, and on no other list. -/
def OnList (c : Cache) (x : Nat) (part : Part) : Prop :=
  match c.policy with
  | .lru => ∀ key, LruPlacement.Listed key → (x ∈ LruRuns.linesOn c key ↔
      key = Lru.ocfLruGetList part (Lru.ocfLruGetListIndex x) false)
  | .lfu => ∀ key, LfuPlacement.Listed key → (x ∈ LfuRuns.linesOn c key ↔
      key = Lfu.ocfLfuGetList part (Lfu.ocfLfuGetShardIndex x) (c.lfuNodes x).freq false)

/-- The dirty lines are rebuilt from what was on the device, and all other
lines are free. -/
structure Rebuilt (g : Geometry) (md : LineTable) (r : Recovered) : Prop where
  /-- Dirty lines are mapped to their core lines. -/
  maps : ∀ x < g.collisionEntries, ∀ core line, Maps g r.cache.md x core line ↔
    dirtyLine g md x = true ∧ md.coreInfo x = (core, line)
  /-- Collision lists hold lines of the cache once, by their core lines. -/
  chains : ∀ h, (r.cache.md.hash h).Nodup ∧ ∀ x ∈ r.cache.md.hash h, x < g.collisionEntries ∧
    ocfMetadataHashFunc g (r.cache.md.coreInfo x).2 (r.cache.md.coreInfo x).1 = h
  /-- Other lines have no core. -/
  unmapped : ∀ x < g.collisionEntries, dirtyLine g md x = false →
    (r.cache.md.coreInfo x).1 = ocfCoreNum
  /-- Dirty sectors of dirty lines are valid and dirty, and no others. -/
  bits : ∀ x < g.collisionEntries, ∀ b < g.lineBlocks,
    r.cache.md.valid x b = r.cache.md.dirty x b ∧
      r.cache.md.dirty x b = (md.dirty x b && dirtyLine g md x)
  /-- Lines are in their partitions. -/
  parts : ∀ x < g.collisionEntries, r.cache.md.partitionId x = (partOf g md x).id ∧
    OnList r.cache x (partOf g md x)
  /-- The sizes of the partitions. -/
  sizes : ∀ p : Part, p.Exists →
    r.cache.currSize p = countBelow (fun x => decide (partOf g md x = p)) g.collisionEntries
  /-- The counters of the cores, whose lines are all dirty and unclassified. -/
  counters : ∀ core < ocfCoreNum, ∀ part : Nat,
    let lines : Int := countBelow
      (fun x => dirtyLine g md x && decide ((md.coreInfo x).1 = core)) g.collisionEntries
    r.counters.cachedClines core = lines ∧ r.counters.dirtyClines core = lines ∧
      r.counters.cached core part = (if part = 0 then lines else 0) ∧
      r.counters.dirty core part = (if part = 0 then lines else 0)

/-- No core line has two cache lines. -/
def Unique (g : Geometry) (md : LineTable) : Prop :=
  ∀ x < g.collisionEntries, ∀ y < g.collisionEntries, ∀ core line,
    Maps g md x core line → Maps g md y core line → x = y

/-- Dirty lines on the device are of different core lines. -/
def Distinct (g : Geometry) (md : LineTable) : Prop :=
  ∀ x < g.collisionEntries, ∀ y < g.collisionEntries, dirtyLine g md x = true →
    dirtyLine g md y = true → md.coreInfo x = md.coreInfo y → x = y

section Lines

variable {g : Geometry} {coreValid : Nat → Bool} {policy : EvictionPolicy} {md md0 : LineTable}
  {c c' c0 : Cache} {done : List Nat} {x : Nat}

/-- What one line does to the metadata, under either policy. -/
def rebuildTable (g : Geometry) (md : LineTable) (x : Nat) : LineTable :=
  if recovered g md x then
    let md := setValidBits md x fun i => md.valid x i && md.dirty x i
    let info := md.coreInfo x
    ocfMetadataAddToCollision { md with partitionId := update md.partitionId x 0 } info.1 info.2
      (ocfMetadataHashFunc g info.2 info.1) x
  else
    let md := { md with coreInfo := update md.coreInfo x (ocfCoreNum, ullongMax) }
    let md := setDirtyBits (setValidBits md x fun _ => false) x fun _ => false
    { md with partitionId := update md.partitionId x partitionFreelist }

theorem withList_md {key : ListKey}
    {op : LruList.Nodes → LruList.LruHead → Option (LruList.Nodes × LruList.LruHead)}
    (h : Lru.withList c key op = some c') : c'.md = c.md := by
  obtain ⟨r, -, rfl⟩ := Option.map_eq_some_iff.mp h
  rfl

theorem rebuildLine_md (h : rebuildLine g policy c x = some c') : c'.md = rebuildTable g c.md x := by
  cases policy with
  | lru =>
    simp only [rebuildLine, LruRuns.rebuildLine] at h
    rw [rebuildTable]
    split at h
    · rename_i hrec
      obtain ⟨key, -, hadd⟩ := Option.bind_eq_some_iff.mp h
      rw [withList_md hadd, if_pos hrec]
      rfl
    · rename_i hrec
      rw [withList_md h, if_neg hrec]
      rfl
  | lfu =>
    obtain rfl := Option.some.inj h
    have hadd : ∀ c : Cache, (Lfu.ocfLfuAdd g c x).md = c.md := by
      intro c
      exact (LfuPlacement.addToList_only _ _ x).md
    rw [LfuRuns.rebuildLine, rebuildTable]
    split
    · rw [hadd]
      rfl
    · rw [hadd]
      rfl

/-- Hash of the core line of a cache line. -/
def hashOf (g : Geometry) (md : LineTable) (x : Nat) : Nat :=
  ocfMetadataHashFunc g (md.coreInfo x).2 (md.coreInfo x).1

/-- The metadata behind some lines, and ahead of the others. -/
structure Table (g : Geometry) (md0 : LineTable) (done : List Nat) (md : LineTable) : Prop where
  /-- Lines ahead are as they were. -/
  ahead : ∀ x ∉ done, md.valid x = md0.valid x ∧ md.dirty x = md0.dirty x ∧
    md.coreInfo x = md0.coreInfo x
  /-- Collision lists hold the recovered lines. -/
  hash : ∀ h, md.hash h =
    (done.filter fun x => recovered g md0 x && decide (hashOf g md0 x = h)).reverse
  /-- Recovered lines keep their dirty sectors and core lines. -/
  kept : ∀ x ∈ done, recovered g md0 x = true → md.coreInfo x = md0.coreInfo x ∧
    md.dirty x = md0.dirty x ∧ md.valid x = fun i => md0.valid x i && md0.dirty x i
  /-- Other lines lose them. -/
  lost : ∀ x ∈ done, recovered g md0 x = false → md.coreInfo x = (ocfCoreNum, ullongMax) ∧
    md.dirty x = (fun _ => false) ∧ md.valid x = fun _ => false

theorem Table.step (h : Table g md0 done md) (hx : x ∉ done) :
    Table g md0 (done ++ [x]) (rebuildTable g md x) := by
  obtain ⟨hv, hd, hc⟩ := h.ahead x hx
  have hrec : recovered g md x = recovered g md0 x := LruRuns.recovered_congr hv hd hc
  have hother : ∀ y, y ≠ x → (rebuildTable g md x).coreInfo y = md.coreInfo y ∧
      (rebuildTable g md x).dirty y = md.dirty y ∧ (rebuildTable g md x).valid y = md.valid y := by
    intro y hy
    rw [rebuildTable]
    split <;>
      simp [ocfMetadataAddToCollision, setValidBits, setDirtyBits, update_of_ne hy]
  have hcases : ∀ y ∈ done ++ [x], y = x ∨ y ∈ done ∧ y ≠ x := by
    intro y hy
    rcases List.mem_append.mp hy with hy | hy
    · exact .inr ⟨hy, fun hyx => hx (hyx ▸ hy)⟩
    · exact .inl (List.mem_singleton.mp hy)
  refine ⟨fun y hy => ?_, fun i => ?_, fun y hy hr => ?_, fun y hy hr => ?_⟩
  · obtain ⟨hyd, hyx⟩ : y ∉ done ∧ y ≠ x := by simpa [not_or] using hy
    obtain ⟨h1, h2, h3⟩ := hother y hyx
    rw [h1, h2, h3]
    exact h.ahead y hyd
  · rw [List.filter_append, List.reverse_append, ← h.hash i, rebuildTable]
    cases hr : recovered g md0 x with
    | false => simp [hrec, hr, setValidBits, setDirtyBits]
    | true =>
      rw [if_pos (hrec.trans hr)]
      simp only [ocfMetadataAddToCollision, setValidBits, hc, ← hashOf.eq_1]
      by_cases hi : hashOf g md0 x = i
      · subst hi
        simp [hr]
      · rw [update_of_ne (Ne.symm hi)]
        simp [hr, hi]
  · rcases hcases y hy with rfl | ⟨hyd, hyx⟩
    · rw [rebuildTable, if_pos (hrec.trans hr)]
      simp [ocfMetadataAddToCollision, setValidBits, hv, hd, hc]
    · obtain ⟨h1, h2, h3⟩ := hother y hyx
      rw [h1, h2, h3]
      exact h.kept y hyd hr
  · rcases hcases y hy with rfl | ⟨hyd, hyx⟩
    · rw [rebuildTable, if_neg (by rw [hrec, hr]; exact Bool.false_ne_true)]
      simp [setValidBits, setDirtyBits]
    · obtain ⟨h1, h2, h3⟩ := hother y hyx
      rw [h1, h2, h3]
      exact h.lost y hyd hr

/-- The core whose counter a line adds to. -/
def coreKey (g : Geometry) (md : LineTable) (x : Nat) : Option Nat :=
  if recovered g md x then some (md.coreInfo x).1 else none

/-- The shard and the core whose counter a line adds to. -/
def lineKey (g : Geometry) (md : LineTable) (x : Nat) : Option (Nat × Nat) :=
  (coreKey g md x).map fun core => (Lru.ocfLruGetListIndex x, core)

/-- The shard whose counter of free lines a line adds to. -/
def freeKey (g : Geometry) (md : LineTable) (x : Nat) : Option Nat :=
  if recovered g md x then none else some (Lru.ocfLruGetListIndex x)

/-- The metadata of a line is not refused. -/
structure Accepted (g : Geometry) (coreValid : Nat → Bool) (md : LineTable) (x : Nat) : Prop where
  /-- Dirty sectors are valid. -/
  check : ocfMetadataCheck g md x = true
  /-- The core id is one, or stands for none. -/
  core : (md.coreInfo x).1 ≤ ocfCoreNum
  /-- The core of a recovered line is in the superblock. -/
  valid : recovered g md x = true → coreValid (md.coreInfo x).1 = true

theorem handleLine_some {s s' : Progress} (h : handleLine g coreValid policy s x = some s') :
    Accepted g coreValid s.cache.md x ∧ rebuildLine g policy s.cache x = some s'.cache ∧
      (∀ i k, s'.lines i k = s.lines i k + if lineKey g s.cache.md x = some (i, k) then 1 else 0) ∧
      ∀ i, s'.free i = s.free i + if freeKey g s.cache.md x = some i then 1 else 0 := by
  simp only [handleLine, Option.ite_none_left_eq_some, not_or, Bool.not_eq_false] at h
  obtain ⟨⟨hcheck, hcore⟩, h⟩ := h
  have hle : (s.cache.md.coreInfo x).1 ≤ ocfCoreNum := Nat.le_of_not_lt hcore
  cases hr : recovered g s.cache.md x with
  | false =>
    rw [if_pos hr] at h
    obtain ⟨c', hline, rfl⟩ := Option.map_eq_some_iff.mp h
    refine ⟨⟨hcheck, hle, fun h => by rw [hr] at h; cases h⟩, hline, fun i k => ?_, fun i => ?_⟩
    · simp [lineKey, coreKey, hr]
    · simp only [freeKey, hr, Bool.false_eq_true, if_false, Option.some.injEq, eq_comm (b := i)]
      split <;> rfl
  | true =>
    rw [if_neg (by rw [hr]; exact Bool.false_ne_true.symm)] at h
    obtain ⟨hvalid, h⟩ := Option.ite_none_left_eq_some.mp h
    obtain ⟨c', hline, rfl⟩ := Option.map_eq_some_iff.mp h
    refine ⟨⟨hcheck, hle, fun _ => Bool.of_not_eq_false hvalid⟩, hline, fun i k => ?_, fun i => ?_⟩
    · simp only [lineKey, coreKey, hr, if_true, Option.map_some, Option.some.injEq, Prod.mk.injEq,
        eq_comm (b := i), eq_comm (b := k)]
      split <;> rfl
    · simp [freeKey, hr]

theorem keys_congr {md' : LineTable} (hv : md'.valid x = md.valid x) (hd : md'.dirty x = md.dirty x)
    (hc : md'.coreInfo x = md.coreInfo x) : coreKey g md' x = coreKey g md x ∧
      lineKey g md' x = lineKey g md x ∧ freeKey g md' x = freeKey g md x := by
  have hrec := LruRuns.recovered_congr (g := g) hv hd hc
  have hcore : coreKey g md' x = coreKey g md x := by rw [coreKey, coreKey, hrec, hc]
  exact ⟨hcore, by rw [lineKey, lineKey, hcore], by rw [freeKey, freeKey, hrec]⟩

theorem Accepted.congr {md' : LineTable} (h : Accepted g coreValid md' x)
    (hv : md'.valid x = md.valid x) (hd : md'.dirty x = md.dirty x)
    (hc : md'.coreInfo x = md.coreInfo x) : Accepted g coreValid md x := by
  have hrec := LruRuns.recovered_congr (g := g) hv hd hc
  refine ⟨?_, hc ▸ h.core, fun hr => ?_⟩
  · have hcheck := h.check
    simp only [ocfMetadataCheck, hv, hd] at hcheck ⊢
    exact hcheck
  · rw [← hc]
    exact h.valid (hrec.trans hr)

/-- The shards behind some lines. -/
structure Shards (g : Geometry) (coreValid : Nat → Bool) (policy : EvictionPolicy) (c0 : Cache)
    (done : List Nat) (s : Progress) : Prop where
  /-- The lists and the metadata. -/
  fold : done.foldlM (rebuildLine g policy) c0 = some s.cache
  /-- The metadata. -/
  table : Table g c0.md done s.cache.md
  /-- No line was refused. -/
  accepted : ∀ x ∈ done, Accepted g coreValid c0.md x
  /-- Counters of the cores. -/
  lines : ∀ i k, s.lines i k = done.countP fun x => decide (lineKey g c0.md x = some (i, k))
  /-- Counters of free lines. -/
  free : ∀ i, s.free i = done.countP fun x => decide (freeKey g c0.md x = some i)

theorem Shards.step {s s' : Progress} (hx : x ∉ done) (h : Shards g coreValid policy c0 done s)
    (hs : handleLine g coreValid policy s x = some s') :
    Shards g coreValid policy c0 (done ++ [x]) s' := by
  obtain ⟨haccept, hline, hlines, hfree⟩ := handleLine_some hs
  obtain ⟨hv, hd, hc⟩ := h.table.ahead x hx
  obtain ⟨-, hkey, hfkey⟩ := keys_congr (g := g) hv hd hc
  refine ⟨?_, ?_, fun y hy => ?_, fun i k => ?_, fun i => ?_⟩
  · rw [List.foldlM_append, h.fold]
    simpa using hline
  · rw [rebuildLine_md hline]
    exact h.table.step hx
  · rcases List.mem_append.mp hy with hy | hy
    · exact h.accepted y hy
    · rw [List.mem_singleton.mp hy]
      exact haccept.congr hv hd hc
  · rw [hlines, hkey, h.lines, List.countP_append, List.countP_singleton]
    simp only [decide_eq_true_eq]
  · rw [hfree, hfkey, h.free, List.countP_append, List.countP_singleton]
    simp only [decide_eq_true_eq]

theorem Accepted.recovered_eq (h : Accepted g coreValid md x) :
    recovered g md x = dirtyLine g md x := by
  have hcheck := h.check
  have hcore := h.core
  simp only [ocfMetadataCheck, testAll_eq_true, Bool.or_eq_true, Bool.not_eq_true'] at hcheck
  rw [Bool.eq_iff_iff]
  simp only [recovered, dirtyLine, metadataTestDirty, Bool.and_eq_true, testAny_eq_true, bne_iff_ne,
    ne_eq, decide_eq_true_eq]
  constructor
  · rintro ⟨⟨i, hi, h0, -, hd⟩, hne⟩
    exact ⟨⟨i, hi, h0, hd⟩, by omega⟩
  · rintro ⟨⟨i, hi, h0, hd⟩, hlt⟩
    have hvalid := (hcheck i hi h0).resolve_left (by rw [hd]; exact Bool.false_ne_true.symm)
    exact ⟨⟨i, hi, h0, hvalid, hd⟩, by omega⟩

end Lines

section Recovery

variable {g : Geometry} {coreValid : Nat → Bool} {c : Cache} {order : List Nat} {s : Progress}

theorem initPolicy_spec (c : Cache) :
    (initPolicy c).md = c.md ∧ (initPolicy c).policy = c.policy := by
  rw [initPolicy]
  split
  · exact (LruRuns.initPolicy_spec c).2
  · exact (LfuRuns.initPolicy_spec c).2

theorem order_perm (hi : Interleaves order (rebuildShard g.collisionEntries)) :
    order.Perm (List.range g.collisionEntries) := by
  have hlines : order.Nodup ∧ ∀ x, x ∈ order ↔ x < g.collisionEntries :=
    hi.lines (fun s => nodup_range.filter _) fun s _ x => by simp [rebuildShard]
  obtain ⟨hd, hmem⟩ := hlines
  exact (List.perm_ext_iff_of_nodup hd nodup_range).mpr fun x => by rw [hmem x, mem_range]

theorem coreLines_eq (h : Shards g coreValid c.policy c order s)
    (hp : order.Perm (List.range g.collisionEntries)) (core : Nat) :
    coreLines s core = countBelow (fun x => decide (coreKey g c.md x = some core)) g.collisionEntries := by
  have hshard : ∀ i, s.lines i core =
      countBelow (fun x => decide (lineKey g c.md x = some (i, core))) g.collisionEntries := by
    intro i
    rw [h.lines, countBelow, hp.countP_eq]
  have hkeys : ((List.range Lru.ocfNumLruLists).map fun i => some (i, core)).Nodup :=
    nodup_range.map fun a b hab => by simpa using hab
  have hsum := sum_countBelow hkeys (lineKey g c.md) g.collisionEntries
  simp only [coreLines, hshard]
  refine hsum.trans (countBelow_congr fun x _ => decide_eq_decide.mpr ?_)
  have hidx := LruPlacement.ocfLruGetListIndex_lt x
  simp only [lineKey, List.mem_map, mem_range]
  cases coreKey g c.md x with
  | none => simp
  | some k =>
    simp only [Option.map_some, Option.some.injEq, Prod.mk.injEq]
    constructor
    · rintro ⟨i, -, -, hk⟩
      exact hk.symm
    · exact fun hk => ⟨_, hidx, rfl, hk.symm⟩

theorem sums_eq (h : Shards g coreValid c.policy c order s)
    (hp : order.Perm (List.range g.collisionEntries)) :
    ((addedCores coreValid).map (coreLines s)).sum = countBelow (recovered g c.md) g.collisionEntries ∧
      ((List.range Lru.ocfNumLruLists).map s.free).sum =
        countBelow (fun x => !recovered g c.md x) g.collisionEntries := by
  have hin : ∀ x < g.collisionEntries, x ∈ order := by
    intro x hx
    exact hp.mem_iff.mpr (mem_range.mpr hx)
  constructor
  · have hkeys : ((addedCores coreValid).map some).Nodup :=
      (nodup_range.filter _).map (Option.some_injective _)
    have hsum := sum_countBelow hkeys (coreKey g c.md) g.collisionEntries
    rw [List.map_map] at hsum
    have hlines : coreLines s = fun core =>
        countBelow (fun x => decide (coreKey g c.md x = some core)) g.collisionEntries :=
      funext (coreLines_eq h hp)
    rw [hlines]
    refine hsum.trans (countBelow_congr fun x hx => ?_)
    have haccept := h.accepted x (hin x hx)
    cases hr : recovered g c.md x with
    | false => simp [coreKey, hr]
    | true =>
      have hlt : (c.md.coreInfo x).1 < ocfCoreNum := by
        rw [haccept.recovered_eq, dirtyLine, Bool.and_eq_true] at hr
        exact of_decide_eq_true hr.2
      simp [coreKey, hr, addedCores, hlt, haccept.valid hr]
  · have hkeys : ((List.range Lru.ocfNumLruLists).map some).Nodup :=
      nodup_range.map (Option.some_injective _)
    have hsum := sum_countBelow hkeys (freeKey g c.md) g.collisionEntries
    have hshard : s.free = fun i =>
        countBelow (fun x => decide (freeKey g c.md x = some i)) g.collisionEntries := by
      funext i
      rw [h.free, countBelow, hp.countP_eq]
    rw [hshard]
    refine hsum.trans (countBelow_congr fun x _ => ?_)
    have hidx := LruPlacement.ocfLruGetListIndex_lt x
    cases hr : recovered g c.md x with
    | false => simp [freeKey, hr, hidx]
    | true => simp [freeKey, hr]

/-- Every line is on the list of its partition after a recovery. -/
theorem placed_finish (h : Shards g coreValid (initPolicy c).policy (initPolicy c) order s)
    (hi : Interleaves order (rebuildShard g.collisionEntries)) (k : Counters) :
    let c' := (ocfMngtRebuildMetadataFinish coreValid k s).cache
    let owner x := if recovered g c.md x then Part.user 0 else .free
    (∀ x < g.collisionEntries, c'.md.partitionId x = (owner x).id ∧
      ((recovered g c.md x = true → metadataTestDirty g c'.md x = true) → OnList c' x (owner x))) ∧
    ∀ p : Part, p.Exists →
      c'.currSize p = countBelow (fun x => decide (owner x = p)) g.collisionEntries := by
  intro c' owner
  obtain ⟨hmd, hpolicy⟩ := initPolicy_spec c
  have hp := order_perm hi
  have hfold := h.fold
  have hcount : (order.filter fun x => recovered g (initPolicy c).md x).length =
      countBelow (recovered g (initPolicy c).md) g.collisionEntries := by
    rw [← List.countP_eq_length_filter, hp.countP_eq, countBelow]
  have hsplit : order.length - (order.filter fun x => recovered g (initPolicy c).md x).length =
      countBelow (fun x => !recovered g (initPolicy c).md x) g.collisionEntries := by
    have hall := List.length_eq_length_filter_add (l := order) fun x => recovered g (initPolicy c).md x
    have hrest := hp.countP_eq fun x => !recovered g (initPolicy c).md x
    rw [List.countP_eq_length_filter] at hrest
    rw [countBelow, ← hrest]
    omega
  have hc' : c' = { s.cache with
      currSize := update (update s.cache.currSize (.user 0)
        ((order.filter fun x => recovered g (initPolicy c).md x).length : Int)) .free
        ((order.length - (order.filter fun x => recovered g (initPolicy c).md x).length : Nat) : Int) } := by
    obtain ⟨htotal, hfree⟩ := sums_eq h hp
    rw [hsplit, hcount, ← htotal, ← hfree]
    rfl
  cases hpol : c.policy with
  | lru =>
    have hinit : initPolicy c = LruRuns.initPolicy c := by simp only [initPolicy, hpol]
    rw [hpolicy, hpol, hinit] at hfold
    rw [hinit] at hc'
    have heq : LruRuns.ocfMngtRebuildMetadata g (LruRuns.initPolicy c) order = some c' := by
      rw [LruRuns.ocfMngtRebuildMetadata, show order.foldlM (LruRuns.rebuildLine g) _ = _ from hfold,
        Option.map_some, hc']
    obtain ⟨hplaced, hpol'⟩ := LruRuns.ocfMngtRebuildMetadata_placed hi heq
    refine ⟨fun x hx => ⟨hplaced.id x hx, fun hdirty => ?_⟩, hplaced.size⟩
    rw [OnList, hpol', hpol]
    intro key hkey
    rw [(LruRuns.Placed.linesOn hplaced hkey).2.2 x, and_iff_right hx, LruPlacement.listOf]
    cases hr : recovered g c.md x with
    | false => simp [owner, hr, Lru.ocfLruGetList, Part.id]
    | true =>
      rw [hdirty hr]
      simp [owner, hr]
  | lfu =>
    have hinit : initPolicy c = LfuRuns.initPolicy c := by simp only [initPolicy, hpol]
    rw [hpolicy, hpol, hinit] at hfold
    rw [hinit] at hc'
    have hfoldl : order.foldl (LfuRuns.rebuildLine g) (LfuRuns.initPolicy c) = s.cache := by
      have hpure := List.foldlM_pure (m := Option) (f := LfuRuns.rebuildLine g)
        (b := LfuRuns.initPolicy c) (l := order)
      exact Option.some.inj (hpure.symm.trans hfold)
    have heq : LfuRuns.ocfMngtRebuildMetadata g (LfuRuns.initPolicy c) order = c' := by
      rw [LfuRuns.ocfMngtRebuildMetadata, hfoldl, hc']
    obtain ⟨hplaced, hpol'⟩ := LfuRuns.ocfMngtRebuildMetadata_placed c hi
    rw [heq] at hplaced hpol'
    refine ⟨fun x hx => ⟨hplaced.id x hx, fun hdirty => ?_⟩, hplaced.size⟩
    rw [OnList, hpol', hpol]
    intro key hkey
    rw [(LfuRuns.Placed.linesOn hplaced hkey).2.2 x, and_iff_right hx, LfuPlacement.listOf]
    cases hr : recovered g c.md x with
    | false => simp [owner, hr, Lfu.ocfLfuGetList, Part.id]
    | true =>
      have huser : (if recovered g c.md x then Part.user 0 else .free).id ≠ partitionFreelist := by
        rw [if_pos hr]
        exact Nat.zero_ne_add_one _
      rw [hplaced.clean x hx (Option.some_ne_none _).symm huser, hdirty hr]
      simp [owner, hr]

theorem Table.maps_iff {md0 md : LineTable} (h : Table g md0 order md)
    (hin : ∀ x, x ∈ order ↔ x < g.collisionEntries) {x : Nat} (hx : x < g.collisionEntries)
    (core line : Nat) :
    Maps g md x core line ↔ recovered g md0 x = true ∧ md0.coreInfo x = (core, line) := by
  rw [Maps, h.hash, List.mem_reverse, List.mem_filter, Bool.and_eq_true, decide_eq_true_eq, hin x,
    and_iff_right hx]
  constructor
  · rintro ⟨⟨hr, -⟩, hinfo⟩
    exact ⟨hr, (h.kept x ((hin x).mpr hx) hr).1 ▸ hinfo⟩
  · rintro ⟨hr, hinfo⟩
    refine ⟨⟨hr, ?_⟩, (h.kept x ((hin x).mpr hx) hr).1.trans hinfo⟩
    rw [hashOf, hinfo]

/-- The recovered lines are mapped as they were. -/
theorem rebuilt_finish (h : Shards g coreValid (initPolicy c).policy (initPolicy c) order s)
    (hi : Interleaves order (rebuildShard g.collisionEntries)) :
    Rebuilt g c.md (ocfMngtRebuildMetadataFinish coreValid resetStats s) := by
  have hp := order_perm hi
  have hin : ∀ x, x ∈ order ↔ x < g.collisionEntries := fun x => by rw [hp.mem_iff, mem_range]
  obtain ⟨hlists, hsizes⟩ := placed_finish h hi resetStats
  have hcore := coreLines_eq h hp
  have haccept := h.accepted
  have htable := h.table
  rw [(initPolicy_spec c).1] at htable haccept hcore
  have hrec : ∀ x < g.collisionEntries, recovered g c.md x = dirtyLine g c.md x :=
    fun x hx => (haccept x ((hin x).mpr hx)).recovered_eq
  have howner : ∀ x < g.collisionEntries,
      (if recovered g c.md x then Part.user 0 else .free) = partOf g c.md x :=
    fun x hx => by rw [partOf, hrec x hx]
  refine ⟨fun x hx core line => ?_, fun i => ⟨?_, fun x hx => ?_⟩, fun x hx hd => ?_,
    fun x hx b hb => ?_, fun x hx => ?_, fun p hpart => ?_, fun core hlt part => ?_⟩
  · rw [← hrec x hx]
    exact htable.maps_iff hin hx core line
  · have hnodup : order.Nodup := hp.nodup_iff.mpr nodup_range
    exact htable.hash i ▸ List.nodup_reverse.mpr (hnodup.filter _)
  · have hmem : x ∈ s.cache.md.hash i := hx
    rw [htable.hash, List.mem_reverse, List.mem_filter, Bool.and_eq_true, decide_eq_true_eq] at hmem
    refine ⟨(hin x).mp hmem.1, ?_⟩
    have hinfo : s.cache.md.coreInfo x = c.md.coreInfo x := (htable.kept x hmem.1 hmem.2.1).1
    rw [← hmem.2.2, hashOf, ← hinfo]
    rfl
  · exact congrArg Prod.fst (htable.lost x ((hin x).mpr hx) ((hrec x hx).trans hd)).1
  · change s.cache.md.valid x b = s.cache.md.dirty x b ∧ s.cache.md.dirty x b = _
    rw [← hrec x hx]
    cases hr : recovered g c.md x with
    | false =>
      obtain ⟨-, hd, hv⟩ := htable.lost x ((hin x).mpr hx) hr
      simp [hd, hv]
    | true =>
      obtain ⟨-, hd, hv⟩ := htable.kept x ((hin x).mpr hx) hr
      have hcheck := (haccept x ((hin x).mpr hx)).check
      simp only [ocfMetadataCheck, testAll_eq_true, Bool.or_eq_true, Bool.not_eq_true'] at hcheck
      have hb' := hcheck b (Nat.le_sub_one_of_lt hb) (Nat.zero_le b)
      rw [hv, hd, Bool.and_true]
      refine ⟨?_, rfl⟩
      rcases hb' with hb' | hb' <;> simp [hb']
  · obtain ⟨hid, hlist⟩ := hlists x hx
    rw [← howner x hx]
    refine ⟨hid, hlist fun hr => ?_⟩
    have hd : s.cache.md.dirty x = c.md.dirty x := (htable.kept x ((hin x).mpr hx) hr).2.1
    have hdirty := (hrec x hx).symm.trans hr
    rw [dirtyLine, Bool.and_eq_true] at hdirty
    exact (congrArg (fun bits => testAny bits 0 g.endBlock) hd).trans hdirty.1
  · rw [hsizes p hpart]
    exact congrArg _ (countBelow_congr fun x hx =>
      congrArg (fun q => decide (q = p)) (howner x hx))
  · have hcount : (countBelow (fun x => dirtyLine g c.md x && decide ((c.md.coreInfo x).1 = core))
        g.collisionEntries) = countBelow (fun x => decide (coreKey g c.md x = some core))
          g.collisionEntries := by
      refine countBelow_congr fun x hx => ?_
      rw [coreKey, hrec x hx]
      cases dirtyLine g c.md x <;> simp
    have hset : setLines coreValid s core 0 =
        countBelow (fun x => dirtyLine g c.md x && decide ((c.md.coreInfo x).1 = core))
          g.collisionEntries := by
      rw [hcount, ← hcore core, setLines]
      split
      · rfl
      · rename_i hnot
        rw [hcore core, countBelow_eq_zero.mpr fun x hx => ?_]
        · rfl
        · rw [decide_eq_false_iff_not]
          intro hkey
          simp only [coreKey, Option.ite_none_right_eq_some, Option.some.injEq] at hkey
          have hvalid := (haccept x ((hin x).mpr hx)).valid hkey.1
          rw [hkey.2] at hvalid
          exact hnot (List.mem_filter.mpr ⟨mem_range.mpr hlt, hvalid⟩)
    intro lines
    have hpart : (if part = 0 then setLines coreValid s core 0 else 0) = if part = 0 then lines else 0 :=
      congrArg (fun n => if part = 0 then n else 0) hset
    refine ⟨?_, ?_, hpart, hpart⟩
    · simp only [ocfMngtRebuildMetadataFinish, resetStats]
      exact hset
    · simp only [ocfMngtRebuildMetadataFinish, resetStats]
      exact hset

theorem recover_rebuilt {r : Recovered} (hi : Interleaves order (rebuildShard g.collisionEntries))
    (h : recover g coreValid c order = some r) : Rebuilt g c.md r := by
  obtain ⟨s, hfold, rfl⟩ := Option.map_eq_some_iff.mp h
  have hd : order.Nodup := (order_perm hi).nodup_iff.mpr nodup_range
  have hmd := (initPolicy_spec { c with md := { c.md with hash := fun _ => [] } }).1
  have h0 : ∀ policy, Shards g coreValid policy
      (initPolicy { c with md := { c.md with hash := fun _ => [] } }) []
      ⟨initPolicy { c with md := { c.md with hash := fun _ => [] } }, fun _ _ => 0, fun _ => 0⟩ := by
    intro policy
    refine ⟨rfl, ⟨fun _ _ => ⟨rfl, rfl, rfl⟩, fun i => ?_, nofun, nofun⟩, nofun, fun _ _ => rfl,
      fun _ => rfl⟩
    rw [hmd]
    rfl
  have hshards := foldlM_inv (Shards g coreValid _ _) (fun _ _ _ _ hx hs hline => hs.step hx hline)
    hd (h0 _) hfold
  have hr := rebuilt_finish hshards hi
  exact ⟨hr.maps, hr.chains, hr.unmapped, hr.bits, hr.parts, hr.sizes, hr.counters⟩

/-- A recovery that ends without an error rebuilds the dirty lines and maps no
core line twice if and only if the dirty lines on the device are of different
core lines. -/
theorem recover_unique_iff_distinct {r : Recovered}
    (hi : Interleaves order (rebuildShard g.collisionEntries))
    (h : recover g coreValid c order = some r) :
    Rebuilt g c.md r ∧ Unique g r.cache.md ↔ Distinct g c.md := by
  have hr := recover_rebuilt hi h
  constructor
  · intro hu x hx y hy hdx hdy heq
    exact hu.2 x hx y hy _ _ ((hr.maps x hx _ _).mpr ⟨hdx, rfl⟩)
      ((hr.maps y hy _ _).mpr ⟨hdy, heq.symm⟩)
  · intro hd
    refine ⟨hr, fun x hx y hy core line hmx hmy => ?_⟩
    obtain ⟨hdx, hx'⟩ := (hr.maps x hx core line).mp hmx
    obtain ⟨hdy, hy'⟩ := (hr.maps y hy core line).mp hmy
    exact hd x hx y hy hdx hdy (hx'.trans hy'.symm)

end Recovery

/-- Three lines on a device, of which the first two are dirty. -/
def twoDirty (line : Nat) : Cache :=
  { LruRuns.blankCache (fun _ => ⟨0, 100, false, 0⟩) [] with
    policy := .lfu
    md := {
      hash := fun _ => []
      coreInfo := fun x => if x = 0 then (0, 7) else if x = 1 then (0, line) else (ocfCoreNum, ullongMax)
      valid := fun x _ => decide (x < 2)
      dirty := fun x _ => decide (x < 2)
      partitionId := fun _ => partitionFreelist } }

theorem interleaves_three : Interleaves [0, 1, 2] (rebuildShard LruRuns.threeLines.collisionEntries) := by
  unfold Interleaves
  decide

/-- Two dirty lines of different core lines are recovered. -/
theorem twoDirty_unique : ∃ r, recover LruRuns.threeLines (fun core => decide (core = 0)) (twoDirty 8)
    [0, 1, 2] = some r ∧ Rebuilt LruRuns.threeLines (twoDirty 8).md r ∧
      Unique LruRuns.threeLines r.cache.md := by
  have hsome : (recover LruRuns.threeLines (fun core => decide (core = 0)) (twoDirty 8)
      [0, 1, 2]).isSome = true := by decide +kernel
  obtain ⟨r, hr⟩ := Option.isSome_iff_exists.mp hsome
  have hdistinct : Distinct LruRuns.threeLines (twoDirty 8).md := by
    have hall : ∀ x < 3, ∀ y < 3, (dirtyLine LruRuns.threeLines (twoDirty 8).md x &&
        dirtyLine LruRuns.threeLines (twoDirty 8).md y &&
        decide ((twoDirty 8).md.coreInfo x = (twoDirty 8).md.coreInfo y)) = true → x = y := by
      decide
    intro x hx y hy hdx hdy heq
    exact hall x hx y hy (by simp [hdx, hdy, heq])
  exact ⟨r, hr, (recover_unique_iff_distinct interleaves_three hr).mpr hdistinct⟩

/-- Two dirty lines of one core line are both mapped to it, without an error. -/
theorem twoDirty_mapped_twice : ∃ r, recover LruRuns.threeLines (fun core => decide (core = 0))
    (twoDirty 7) [0, 1, 2] = some r ∧ Maps LruRuns.threeLines r.cache.md 0 0 7 ∧
      Maps LruRuns.threeLines r.cache.md 1 0 7 ∧ ¬Unique LruRuns.threeLines r.cache.md := by
  have hsome : (recover LruRuns.threeLines (fun core => decide (core = 0)) (twoDirty 7)
      [0, 1, 2]).isSome = true := by decide +kernel
  obtain ⟨r, hr⟩ := Option.isSome_iff_exists.mp hsome
  have hrebuilt := recover_rebuilt interleaves_three hr
  have hdirty : dirtyLine LruRuns.threeLines (twoDirty 7).md 0 = true ∧
      dirtyLine LruRuns.threeLines (twoDirty 7).md 1 = true := by decide
  have h0 := (hrebuilt.maps 0 (by decide) 0 7).mpr ⟨hdirty.1, rfl⟩
  have h1 := (hrebuilt.maps 1 (by decide) 0 7).mpr ⟨hdirty.2, rfl⟩
  refine ⟨r, hr, h0, h1, fun hu => ?_⟩
  exact Nat.zero_ne_one (hu 0 (by decide) 1 (by decide) 0 7 h0 h1)

end OcfCache.RebuildRecovery
