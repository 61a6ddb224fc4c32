import OcfCache.LfuPlacement
import OcfCache.LruRuns

/-!
# Runs of the LFU policy

The lists are filled by `ocf_lfu_populate`, which puts every line into the
lowest bucket of the free list, or by `ocf_mngt_rebuild_metadata`. From there
the system takes the operations of the policy in any order, each under the
contract of its callers. Detaching is a part of the system that can be left
out: the flag in front of the contract says whether it is there.
-/

namespace OcfCache.LfuRuns

open Function Loops Metadata Requests LinkedLists Partitions Lfu CacheLine Space LfuPlacement Runs
open LruPlacement (handOver)
open LruRuns (Interleaves populateShard rebuildShard recovered State)

/-- `ocf_lfu_init` for all partitions, as the eviction policy is set up. -/
def initPolicy (c : Cache) : Cache :=
  ocfLfuInit (ocfLfuInit (forRange ocfUserIoClassMax (fun c i => ocfLfuInit c (.user i)) c) .free)
    .freeDetached

/-- One line in `ocf_lfu_populate_handle`. -/
def populateLine (entries : Nat) (c : Cache) (x : Nat) : Option Cache :=
  if entries ≤ x then none
  else
    let c := ocfLfuInitCline (ocfMetadataSetPartitionId c x partitionFreelist) x
    some (addToList c (ocfLfuGetList .free (ocfLfuGetShardIndex x) 0 true) x)

/-- `ocf_lfu_populate`. Shards and chunks are those of `ocf_lru_populate`. -/
def ocfLfuPopulate (g : Geometry) (c : Cache) (order : List Nat) : Option Cache :=
  (order.foldlM (populateLine g.collisionEntries) c).map fun c =>
    { c with currSize := update c.currSize .free order.length }

/-- `ocf_mngt_cline_rebuild_metadata` and `ocf_mngt_cline_reset_metadata`. -/
def rebuildLine (g : Geometry) (c : Cache) (x : Nat) : Cache :=
  if recovered g c.md x then
    let md := setValidBits c.md x fun i => c.md.valid x i && c.md.dirty x i
    let c := ocfMetadataSetPartitionId { c with md := md } x 0
    let info := c.md.coreInfo x
    let md := ocfMetadataAddToCollision c.md info.1 info.2 (ocfMetadataHashFunc g info.2 info.1) x
    ocfLfuAdd g (ocfLfuInitCline { c with md := md } x) x
  else
    let md := { c.md with coreInfo := update c.md.coreInfo x (ocfCoreNum, ullongMax) }
    let md := setDirtyBits (setValidBits md x fun _ => false) x fun _ => false
    ocfLfuAdd g (ocfMetadataSetPartitionId { c with md := md } x partitionFreelist) x

/-- `ocf_mngt_rebuild_metadata`: the lines, then the counters of the
unclassified partition and the free list. -/
def ocfMngtRebuildMetadata (g : Geometry) (c : Cache) (order : List Nat) : Cache :=
  let c' := order.foldl (rebuildLine g) c
  let lines := (order.filter fun x => recovered g c.md x).length
  { c' with
    currSize := update (update c'.currSize (.user 0) lines) .free
      (order.length - lines : Nat) }

/-- Operations of the policy. -/
inductive Op
  | increment (cline : Nat)
  | repart (cline : Nat) (src dst : Part)
  | rmCline (cline : Nat)
  | setDirty (cline start stop : Nat)
  | setClean (cline start stop : Nat)
  | reqClines (req : Request) (src : Part) (clineNo : Nat)
  | detach (part : Part) (cline : Nat)
  | reattach (cline : Nat)
  | other (next : Cache)

/-- Contract of the callers: the line and its partition exist, the partition
named is the one of the line, and blocks are blocks of a line. Anything else
may change what does not decide the list of a line. -/
def Permitted (g : Geometry) (detaching : Bool) (s : State) : Op → Prop
  | .increment x => x < g.collisionEntries ∧ s.owner x ≠ .freeDetached
  | .repart x src dst => x < g.collisionEntries ∧ s.owner x = src ∧ dst.Exists ∧ src ≠ dst ∧
    dst ≠ .freeDetached ∧ src.id ≠ partitionFreelist
  | .rmCline x => x < g.collisionEntries ∧ s.cache.md.partitionId x < ocfUserIoClassMax
  | .setDirty x _ stop =>
    x < g.collisionEntries ∧ s.cache.md.partitionId x < ocfUserIoClassMax ∧ stop ≤ g.endBlock
  | .setClean x _ stop =>
    x < g.collisionEntries ∧ s.cache.md.partitionId x < ocfUserIoClassMax ∧ stop ≤ g.endBlock
  | .reqClines req src _ => req.partId < ocfUserIoClassMax ∧ src.Exists
  | .detach part x => detaching = true ∧ x < g.collisionEntries ∧ s.owner x = part ∧
    part ≠ .freeDetached
  | .reattach x => detaching = true ∧ x < g.collisionEntries ∧ s.owner x = .freeDetached
  | .other next =>
    next.lfuNodes = s.cache.lfuNodes ∧ next.lfuLists = s.cache.lfuLists ∧
      next.currSize = s.cache.currSize ∧ next.policy = s.cache.policy ∧
      (∀ x < g.collisionEntries, next.md.partitionId x = s.cache.md.partitionId x) ∧
      ∀ x < g.collisionEntries, s.cache.md.partitionId x ≠ partitionFreelist →
        metadataTestDirty g next.md x = metadataTestDirty g s.cache.md x

/-- The operations, with the partition that they leave each line in. -/
def step (g : Geometry) (s : State) : Op → Option State
  | .increment x => (ocfLfuIncrement s.cache x).map fun c => ⟨c, s.owner⟩
  | .repart x src dst =>
    (ocfLfuRepart s.cache x src dst).map fun c => ⟨c, update s.owner x dst⟩
  | .rmCline x => (ocfLfuRmCline s.cache x).map fun c => ⟨c, update s.owner x .free⟩
  | .setDirty x start stop =>
    (lfuSetCacheLineDirty g s.cache start stop x).map fun c => ⟨c, s.owner⟩
  | .setClean x start stop =>
    (lfuSetCacheLineClean g s.cache start stop x).map fun c => ⟨c, s.owner⟩
  | .reqClines req src n =>
    (ocfEvictionReqClines g s.cache req src n).map fun r =>
      ⟨r.1, handOver s.owner req.partId r.2.2⟩
  | .detach part x =>
    (ocfLfuDetach s.cache part x).map fun c => ⟨c, update s.owner x .freeDetached⟩
  | .reattach x => (ocfLfuReattach s.cache x).map fun c => ⟨c, update s.owner x .free⟩
  | .other next => some ⟨next, s.owner⟩

/-- The LFU policy as a transition system. -/
def lfuSystem (g : Geometry) (detaching : Bool) : System State Op := ⟨Permitted g detaching, step g⟩

/-- States in which the policy starts, from any content of the metadata. -/
inductive Start (g : Geometry) : State → Prop
  | populate {c c' : Cache} {order : List Nat} :
      c.policy = .lfu → g.collisionEntries < 2 ^ 32 →
      Interleaves order (populateShard g.collisionEntries) →
      ocfLfuPopulate g (initPolicy c) order = some c' → Start g ⟨c', fun _ => .free⟩
  | rebuild {c : Cache} {order : List Nat} :
      c.policy = .lfu → Interleaves order (rebuildShard g.collisionEntries) →
      Start g ⟨ocfMngtRebuildMetadata g (initPolicy c) order,
        fun x => if recovered g c.md x then .user 0 else .free⟩

/-- A partition whose lists and counter are set up and empty. -/
def Ready (c : Cache) (p : Part) : Prop :=
  c.currSize p = 0 ∧ ∀ key, Listed key → key.part = p → c.lfuLists key = lfuInit

theorem ready_ocfLfuInit (c : Cache) (p : Part) : Ready (ocfLfuInit c p) p := by
  refine ⟨update_self .., fun key hkey hp => ?_⟩
  obtain ⟨-, hshard, hfreq, hclean⟩ := hkey
  rw [hp] at hclean
  exact if_pos ⟨hp, hshard, hfreq, hclean⟩

theorem Ready.ocfLfuInit {c : Cache} {p : Part} (h : Ready c p) (q : Part) :
    Ready (ocfLfuInit c q) p := by
  by_cases hpq : p = q
  · subst hpq
    exact ready_ocfLfuInit c p
  · refine ⟨(update_of_ne hpq _ _).trans h.1, fun key hkey hp => ?_⟩
    have hne : key.part ≠ q := fun hq => hpq (hp.symm.trans hq)
    simp only [Lfu.ocfLfuInit, hne, false_and, if_false]
    exact h.2 key hkey hp

theorem initPolicy_spec (c : Cache) :
    (∀ p, p.Exists → Ready (initPolicy c) p) ∧ (initPolicy c).md = c.md ∧
      (initPolicy c).policy = c.policy :=
  ⟨LruRuns.setUp_all ocfLfuInit c ready_ocfLfuInit fun _ _ q h => h.ocfLfuInit q,
    LruRuns.setUp_same ocfLfuInit c fun _ _ => rfl, LruRuns.setUp_same ocfLfuInit c fun _ _ => rfl⟩

theorem initPolicy_nodes (c : Cache) : (initPolicy c).lfuNodes = c.lfuNodes :=
  LruRuns.setUp_same ocfLfuInit c fun _ _ => rfl

/-- The lists while they are filled: the lines behind the loop are on their
lists, and the metadata of the others is as it was. -/
structure Filling (g : Geometry) (c0 : Cache) (owner : Nat → Part) (done : List Nat)
    (c : Cache) : Prop where
  /-- Lists hold the lines behind the loop. -/
  holds : Holds c fun x => if x ∈ done then some (listOf c owner x) else none
  /-- The metadata names their partition. -/
  id : ∀ x ∈ done, c.md.partitionId x = (owner x).id
  /-- Their buckets follow from the hits. -/
  freq : ∀ x ∈ done, FreqOfHits (c.lfuNodes x)
  /-- Their flags tell the dirty bits. -/
  clean : ∀ x ∈ done, CleanFlag g c owner x
  /-- Counters are set at the end. -/
  size : c.currSize = c0.currSize
  /-- The policy stays. -/
  policy : c.policy = c0.policy
  /-- Valid blocks of the lines ahead. -/
  valid : ∀ x ∉ done, c.md.valid x = c0.md.valid x
  /-- Dirty blocks of the lines ahead. -/
  dirty : ∀ x ∉ done, c.md.dirty x = c0.md.dirty x
  /-- Core lines of the lines ahead. -/
  coreInfo : ∀ x ∉ done, c.md.coreInfo x = c0.md.coreInfo x

theorem filling_nil (g : Geometry) {c : Cache} (h : ∀ p, p.Exists → Ready c p)
    (owner : Nat → Part) : Filling g c owner [] c := by
  refine ⟨fun key hkey => ?_, nofun, nofun, nofun, rfl, rfl, fun _ _ => rfl, fun _ _ => rfl,
    fun _ _ => rfl⟩
  rw [(h key.part hkey.1).2 key hkey rfl]
  exact ⟨[], ⟨trivial, List.nodup_nil, rfl, rfl, rfl⟩, by simp⟩

/-- Metadata and nodes changed for one line only. -/
structure OnlyLine (x : Nat) (c c' : Cache) : Prop where
  /-- Lists. -/
  lists : c'.lfuLists = c.lfuLists
  /-- Nodes. -/
  nodes : ∀ y, y ≠ x → c'.lfuNodes y = c.lfuNodes y
  /-- Counters. -/
  size : c'.currSize = c.currSize
  /-- Policy. -/
  policy : c'.policy = c.policy
  /-- Partitions. -/
  id : ∀ y, y ≠ x → c'.md.partitionId y = c.md.partitionId y
  /-- Valid blocks. -/
  valid : ∀ y, y ≠ x → c'.md.valid y = c.md.valid y
  /-- Dirty blocks. -/
  dirty : ∀ y, y ≠ x → c'.md.dirty y = c.md.dirty y
  /-- Core lines. -/
  coreInfo : ∀ y, y ≠ x → c'.md.coreInfo y = c.md.coreInfo y

section Filling

variable {g : Geometry} {c0 c c1 : Cache} {owner : Nat → Part} {done : List Nat} {x : Nat}

/-- One more line is on its list. -/
theorem Filling.insert (h : Filling g c0 owner done c) (hx : x ∉ done) (hline : OnlyLine x c c1)
    (hpart : (owner x).Exists) (hid : c1.md.partitionId x = (owner x).id)
    (hfreq : FreqOfHits (c1.lfuNodes x)) (hclean : CleanFlag g c1 owner x) :
    Filling g c0 owner (done ++ [x]) (addToList c1 (listOf c1 owner x) x) := by
  have honly : OnlyLinks c1 (addToList c1 (listOf c1 owner x) x) := addToList_only c1 _ x
  have hne : ∀ y ∈ done, y ≠ x := fun y hy heq => hx (heq ▸ hy)
  have hahead : ∀ y ∉ done ++ [x], y ∉ done ∧ y ≠ x := by
    intro y hy
    simpa [not_or] using hy
  have hlisted : Listed (listOf c1 owner x) :=
    listed_getList hpart (ocfLfuGetShardIndex_lt x) hfreq.lt _
  have hbefore : Holds c1 fun y => if y ∈ done then some (listOf c owner y) else none := by
    refine h.holds.of_links hline.lists (fun y hy => ?_) fun y hy => ?_
    all_goals
      have hyd : y ∈ done := by
        by_contra hnot
        exact hy (if_neg hnot)
      rw [hline.nodes y (hne y hyd)]
  have hplace : (fun y => if y ∈ done ++ [x] then
      some (listOf (addToList c1 (listOf c1 owner x) x) owner y) else none) =
      update (fun y => if y ∈ done then some (listOf c owner y) else none) x
        (some (listOf c1 owner x)) := by
    funext y
    rw [honly.listOf y]
    by_cases hyx : y = x
    · subst hyx
      simp
    · rw [update_of_ne hyx]
      by_cases hyd : y ∈ done
      · simp [hyd, listOf, hline.nodes y hyx]
      · simp [hyd, hyx]
  have hcases : ∀ y ∈ done ++ [x], y = x ∨ y ∈ done ∧ y ≠ x := by
    intro y hy
    by_cases hyx : y = x
    · exact .inl hyx
    · exact .inr ⟨by simpa [hyx] using hy, hyx⟩
  refine ⟨?_, fun y hy => ?_, fun y hy => honly.freqOfHits ?_, fun y hy => honly.cleanFlag ?_,
    honly.currSize.trans (hline.size.trans h.size),
    honly.policy.trans (hline.policy.trans h.policy), fun y hy => ?_, fun y hy => ?_, fun y hy => ?_⟩
  · rw [hplace]
    exact hbefore.add hlisted (if_neg hx)
  · rw [honly.md]
    rcases hcases y hy with rfl | ⟨hyd, hyx⟩
    · exact hid
    · rw [hline.id y hyx]
      exact h.id y hyd
  · rcases hcases y hy with rfl | ⟨hyd, hyx⟩
    · exact hfreq
    · rw [hline.nodes y hyx]
      exact h.freq y hyd
  · rcases hcases y hy with rfl | ⟨hyd, hyx⟩
    · exact hclean
    · have hflag := h.clean y hyd
      simp only [CleanFlag, metadataTestDirty] at hflag ⊢
      rw [hline.nodes y hyx, hline.dirty y hyx]
      exact hflag
  · rw [honly.md, hline.valid y (hahead y hy).2]
    exact h.valid y (hahead y hy).1
  · rw [honly.md, hline.dirty y (hahead y hy).2]
    exact h.dirty y (hahead y hy).1
  · rw [honly.md, hline.coreInfo y (hahead y hy).2]
    exact h.coreInfo y (hahead y hy).1

/-- `ocf_lfu_add` of a line whose metadata names its partition. -/
theorem Filling.add (h : Filling g c0 owner done c) (hx : x ∉ done) (hline : OnlyLine x c c1)
    (hpart : (owner x).Exists) (hid : c1.md.partitionId x = (owner x).id)
    (hd : owner x ≠ .freeDetached) : Filling g c0 owner (done ++ [x]) (ocfLfuAdd g c1 x) := by
  have hget : lfuGetClinePart c1 x = owner x := getClinePart_eq hpart hd hid
  have hline' : OnlyLine x c (setLfuNode c1 x fun m =>
      { m with hits := 1, freq := 0, clean := !metadataTestDirty g c1.md x }) := by
    refine ⟨hline.lists, fun y hy => ?_, hline.size, hline.policy, hline.id, hline.valid,
      hline.dirty, hline.coreInfo⟩
    rw [setLfuNode_of_ne hy]
    exact hline.nodes y hy
  have hnew := h.insert hx hline' hpart hid
    (by rw [setLfuNode_same]; exact ⟨Nat.le_of_ble_eq_true rfl, rfl⟩)
    (fun _ => by rw [setLfuNode_same]; rfl)
  simp only [listOf, setLfuNode_same, ← hget] at hnew
  exact hnew

theorem Filling.placed (h : Filling g c0 owner done c) (hin : ∀ x, x ∈ done ↔ x < g.collisionEntries)
    (hpart : ∀ x, (owner x).Exists) {sizes : Part → Int} (hsize : ∀ p, p.Exists →
      sizes p = countBelow (fun x => decide (owner x = p)) g.collisionEntries) :
    Placed g { c with currSize := sizes } owner := by
  refine ⟨⟨hpart, fun x hx => h.id x ((hin x).mpr hx), hsize⟩, ?_,
    fun x hx => h.freq x ((hin x).mpr hx), fun x hx _ => h.clean x ((hin x).mpr hx)⟩
  have hplace : place g { c with currSize := sizes } owner =
      fun x => if x ∈ done then some (listOf c owner x) else none := by
    funext x
    simp only [place, hin x]
    rfl
  rw [hplace]
  exact h.holds

end Filling

variable {g : Geometry}

theorem ocfLfuPopulate_placed {c c' : Cache} {order : List Nat} (hn : g.collisionEntries < 2 ^ 32)
    (hi : Interleaves order (populateShard g.collisionEntries))
    (heq : ocfLfuPopulate g (initPolicy c) order = some c') :
    Placed g c' (fun _ => .free) ∧ c'.policy = c.policy := by
  obtain ⟨hd, hmem⟩ := hi.lines (fun _ => LruRuns.nodup_populateShard hn)
    fun s hs x => LruRuns.mem_populateShard hs hn
  obtain ⟨hready, -, hpolicy⟩ := initPolicy_spec c
  obtain ⟨c1, hfold, rfl⟩ := Option.map_eq_some_iff.mp heq
  have hfill := foldlM_inv (Filling g (initPolicy c) fun _ => .free)
    (fun done x s s' hx hfill hline => ?_) hd (filling_nil g hready _) hfold
  · refine ⟨hfill.placed hmem (fun _ => trivial) ?_, hfill.policy.trans hpolicy⟩
    refine LruRuns.populateSizes hd hmem fun p hp => ?_
    rw [hfill.size]
    exact (hready p hp).1
  · obtain ⟨-, hline⟩ := Option.ite_none_left_eq_some.mp hline
    cases hline
    have honly : OnlyLine x s (ocfLfuInitCline (ocfMetadataSetPartitionId s x partitionFreelist) x) :=
      ⟨rfl, fun y hy => setLfuNode_of_ne hy, rfl, rfl, fun y hy => update_of_ne hy _ _,
        fun _ _ => rfl, fun _ _ => rfl, fun _ _ => rfl⟩
    have hnew := hfill.insert hx honly trivial (update_self ..)
      (by rw [ocfLfuInitCline, setLfuNode_same]; exact ⟨Nat.zero_le _, rfl⟩)
      fun hfree => absurd rfl hfree
    simp only [listOf, ocfLfuInitCline, setLfuNode_same] at hnew
    exact hnew

theorem Filling.rebuildLine {c0 c : Cache} {done : List Nat} {x : Nat}
    (h : Filling g c0 (fun y => if recovered g c0.md y then .user 0 else .free) done c)
    (hx : x ∉ done) :
    Filling g c0 (fun y => if recovered g c0.md y then .user 0 else .free) (done ++ [x])
      (rebuildLine g c x) := by
  have hrec : recovered g c.md x = recovered g c0.md x :=
    LruRuns.recovered_congr (h.valid x hx) (h.dirty x hx) (h.coreInfo x hx)
  have hne : ∀ {α : Type} {f : Nat → α} {v : α} (y : Nat), y ≠ x → update f x v y = f y :=
    fun y hy => update_of_ne hy _ _
  simp only [LfuRuns.rebuildLine]
  split
  · rename_i hr
    have howner : (if recovered g c0.md x then Part.user 0 else .free) = .user 0 := by
      simp [← hrec, hr]
    refine h.add hx ?_ ?_ ?_ ?_
    · exact ⟨rfl, fun y hy => setLfuNode_of_ne hy, rfl, rfl, hne, hne, fun _ _ => rfl, hne⟩
    · rw [howner]
      exact Nat.zero_lt_succ _
    · rw [howner]
      exact update_self ..
    · rw [howner]
      nofun
  · rename_i hr
    have howner : (if recovered g c0.md x then Part.user 0 else .free) = .free := by
      simp [← hrec, hr]
    refine h.add hx ?_ ?_ ?_ ?_
    · exact ⟨rfl, fun _ _ => rfl, rfl, rfl, hne, hne, hne, hne⟩
    · rw [howner]
      trivial
    · rw [howner]
      exact update_self ..
    · rw [howner]
      nofun

theorem ocfMngtRebuildMetadata_placed (c : Cache) {order : List Nat}
    (hi : Interleaves order (rebuildShard g.collisionEntries)) :
    Placed g (ocfMngtRebuildMetadata g (initPolicy c) order)
        (fun x => if recovered g c.md x then .user 0 else .free) ∧
      (ocfMngtRebuildMetadata g (initPolicy c) order).policy = c.policy := by
  have hlines : order.Nodup ∧ ∀ x, x ∈ order ↔ x < g.collisionEntries :=
    hi.lines (fun s => List.nodup_range.filter _) fun s _ x => by simp [rebuildShard]
  obtain ⟨hd, hmem⟩ := hlines
  obtain ⟨hready, hmd, hpolicy⟩ := initPolicy_spec c
  have hfill := foldl_inv (Filling g (initPolicy c) fun y =>
      if recovered g (initPolicy c).md y then .user 0 else .free)
    (fun done x s hx hfill => hfill.rebuildLine hx) hd (filling_nil g hready _)
  rw [hmd] at hfill
  refine ⟨hfill.placed hmem (fun x => ?_) ?_, hfill.policy.trans hpolicy⟩
  · split
    · exact Nat.zero_lt_succ _
    · trivial
  · rw [hmd]
    refine LruRuns.rebuildSizes c.md hd hmem fun p hp => ?_
    rw [hfill.size]
    exact (hready p hp).1

/-- What holds of the policy in every state. -/
structure Inv (g : Geometry) (detaching : Bool) (s : State) : Prop where
  /-- All lines are placed. -/
  placed : Placed g s.cache s.owner
  /-- The policy is LFU. -/
  policy : s.cache.policy = .lfu
  /-- Lines get detached by detaching only. -/
  attached : detaching = false → ∀ x, s.owner x ≠ .freeDetached

variable {s : State}

theorem Start.inv (h : Start g s) (detaching : Bool) : Inv g detaching s := by
  cases h with
  | populate hpolicy hn hi heq =>
    obtain ⟨hplaced, hpol⟩ := ocfLfuPopulate_placed hn hi heq
    exact ⟨hplaced, hpol.trans hpolicy, fun _ _ => nofun⟩
  | @rebuild c order hpolicy hi =>
    obtain ⟨hplaced, hpol⟩ := ocfMngtRebuildMetadata_placed c hi
    refine ⟨hplaced, hpol.trans hpolicy, fun _ x => ?_⟩
    simp only
    split <;> nofun

theorem update_ne_freeDetached {owner : Nat → Part} {x : Nat} {dst : Part}
    (hdst : dst ≠ .freeDetached) (h : ∀ y, owner y ≠ .freeDetached) (y : Nat) :
    update owner x dst y ≠ .freeDetached := by
  by_cases hyx : y = x
  · subst hyx
    rw [update_self]
    exact hdst
  · rw [update_of_ne hyx]
    exact h y

theorem handOver_ne_freeDetached {owner : Nat → Part} {d : Nat} (log : List Handed)
    (h : ∀ y, owner y ≠ .freeDetached) (y : Nat) : handOver owner d log y ≠ .freeDetached := by
  induction log generalizing owner with
  | nil => exact h y
  | cons t log ih => exact ih (update_ne_freeDetached nofun h)

variable {detaching : Bool} {op : Op}

/-- The operations on lists as they are called: one for lines and one on the
detached list excepted, they succeed and keep the placement. -/
theorem step_ok (h : Inv g detaching s) (hp : Permitted g detaching s op)
    (hreq : ∀ req src n, op ≠ .reqClines req src n) (hre : ∀ x, op ≠ .reattach x) :
    ∃ s', step g s op = some s' ∧ Inv g detaching s' := by
  obtain ⟨hplaced, hpolicy, hattached⟩ := h
  cases op with
  | increment x =>
    obtain ⟨c1, heq, hnew, hpol⟩ := hplaced.increment hp.1 hp.2
    exact ⟨⟨c1, s.owner⟩, by rw [step, heq, Option.map_some], hnew, hpol.trans hpolicy, hattached⟩
  | repart x src dst =>
    obtain ⟨hx, rfl, hdst, hne, hdd, hsrc⟩ := hp
    have hd : s.owner x ≠ .freeDetached := fun heq => hsrc (by rw [heq]; rfl)
    obtain ⟨c1, heq, hnew, hpol⟩ := hplaced.repart hx hdst hne hd fun _ => hsrc
    exact ⟨⟨c1, update s.owner x dst⟩, by rw [step, heq, Option.map_some], hnew,
      hpol.trans hpolicy, fun hdet => update_ne_freeDetached hdd (hattached hdet)⟩
  | rmCline x =>
    obtain ⟨c1, heq, hnew, hpol⟩ := hplaced.rmCline hp.1 hp.2
    exact ⟨⟨c1, update s.owner x .free⟩, by rw [step, heq, Option.map_some], hnew,
      hpol.trans hpolicy, fun hdet => update_ne_freeDetached (by nofun) (hattached hdet)⟩
  | setDirty x start stop =>
    obtain ⟨c1, heq, hnew, hpol⟩ := hplaced.setDirty start hp.1 hp.2.1 hp.2.2
    exact ⟨⟨c1, s.owner⟩, by rw [step, heq, Option.map_some], hnew, hpol.trans hpolicy, hattached⟩
  | setClean x start stop =>
    obtain ⟨c1, heq, hnew, hpol⟩ := hplaced.setClean start hp.1 hp.2.1 hp.2.2
    exact ⟨⟨c1, s.owner⟩, by rw [step, heq, Option.map_some], hnew, hpol.trans hpolicy, hattached⟩
  | reqClines req src n => exact absurd rfl (hreq req src n)
  | detach part x =>
    obtain ⟨hdet, hx, rfl, hd⟩ := hp
    obtain ⟨c1, heq, hnew, hpol⟩ := hplaced.repart hx (show Part.freeDetached.Exists from trivial)
      hd hd fun hf => absurd rfl hf
    refine ⟨⟨c1, update s.owner x .freeDetached⟩,
      by rw [step, ocfLfuDetach, heq, Option.map_some], hnew, hpol.trans hpolicy, ?_⟩
    intro hdet'
    rw [hdet] at hdet'
    cases hdet'
  | reattach x => exact absurd rfl (hre x)
  | other next =>
    obtain ⟨hn, hl, hsz, hpol, hid, hdirty⟩ := hp
    have hmd := hplaced.of_md hid fun x hx hf => hdirty x hx (by rwa [hplaced.id x hx])
    exact ⟨_, rfl, hmd.congr hn hl rfl hsz, hpol.trans hpolicy, hattached⟩

theorem ocfLfuReattach_none (c : Cache) (x : Nat) : ocfLfuReattach c x = none := by
  have hpart : lfuGetClinePart c x ≠ .freeDetached := by
    rw [lfuGetClinePart]
    split <;> simp
  rw [ocfLfuReattach, ocfLfuRepart, if_pos hpart]

/-- Every operation of the policy keeps the placement. -/
theorem step_inv {s s' : State}
    (h : Inv g detaching s) (hp : Permitted g detaching s op) (hs : step g s op = some s') :
    Inv g detaching s' := by
  by_cases hreq : ∃ req src n, op = .reqClines req src n
  · obtain ⟨req, src, n, rfl⟩ := hreq
    obtain ⟨r, heq, rfl⟩ := Option.map_eq_some_iff.mp hs
    obtain ⟨hnew, hpol⟩ := h.placed.reqClines h.policy hp.1 hp.2 heq
    exact ⟨hnew, hpol, fun hdet => handOver_ne_freeDetached r.2.2 (h.attached hdet)⟩
  · by_cases hre : ∃ x, op = .reattach x
    · obtain ⟨x, rfl⟩ := hre
      rw [step, ocfLfuReattach_none] at hs
      cases hs
    · push Not at hreq hre
      obtain ⟨s1, heq, hinv⟩ := step_ok h hp hreq hre
      rw [heq] at hs
      cases hs
      exact hinv

/-- Where an operation stops without detaching: at an assertion about the
request for lines, and never at one about the lists. -/
theorem step_none (h : Inv g false s) (hp : Permitted g false s op) (hs : step g s op = none) :
    ∃ req src n, op = .reqClines req src n ∧ (ocfEngineUnmappedCount g req < n ∨
      AssignFails g src (.user req.partId) (ocfUserPartGetMaxSize g s.cache req.partId) n
        { s.cache with lruIdx := s.cache.lruIdx + 1 } req
        (Lru.lruIterInit (s.cache.lruIdx % Lru.ocfNumLruLists)) none 0) := by
  by_cases hreq : ∃ req src n, op = .reqClines req src n
  · obtain ⟨req, src, n, rfl⟩ := hreq
    refine ⟨req, src, n, rfl, ?_⟩
    have heq := Option.map_eq_none_iff.mp hs
    simp only [ocfEvictionReqClines] at heq
    split at heq
    · cases heq
    · split at heq
      · rename_i hcheck
        rcases hcheck with hcount | hpart
        · exact .inl hcount
        · have hlt : req.partId < ocfUserIoClassMax := hp.1
          rw [hpart, partitionFreelist] at hlt
          omega
      · have hplaced : Placed g { s.cache with lruIdx := s.cache.lruIdx + 1 } s.owner :=
          h.placed.congr rfl rfl rfl rfl
        exact .inr (Linked.assignFails hp.2 hp.1 hplaced h.policy heq)
  · push Not at hreq
    have hre : ∀ x, op ≠ .reattach x := by
      rintro x rfl
      cases hp.1
    obtain ⟨s1, heq, -⟩ := step_ok h hp hreq hre
    rw [heq] at hs
    cases hs

/-- Every line is on one list in every run. -/
theorem reachable_inv {start s : State} (h0 : Start g start)
    (h : Reachable (lfuSystem g detaching) start s) : Inv g detaching s :=
  h.invariant (fun _ => h0.inv detaching) fun _ _ _ hinv _ hp hs _ => step_inv hinv hp hs

/-- Lines met on the way from the head of a list. -/
def linesOn (c : Cache) (key : LfuKey) : List Nat :=
  walk (fun x => (c.lfuNodes x).next) (c.lfuLists key).numNodes (c.lfuLists key).head

/-- Buckets of all shards. -/
def buckets : List (Nat × Nat) := (List.range lfuNumShards) ×ˢ (List.range lfuMaxFreq)

/-- The lists of a partition. -/
def partLists (p : Part) : List LfuKey :=
  buckets.map (fun b => LfuKey.mk p b.1 b.2 true) ++
    if p.id = partitionFreelist then [] else buckets.map fun b => LfuKey.mk p b.1 b.2 false

theorem mem_buckets {s f : Nat} : (s, f) ∈ buckets ↔ s < lfuNumShards ∧ f < lfuMaxFreq := by
  rw [buckets, List.mem_product, List.mem_range, List.mem_range]

theorem mem_partLists {p : Part} (hp : p.Exists) {key : LfuKey} :
    key ∈ partLists p ↔ Listed key ∧ key.part = p := by
  obtain ⟨part, shard, freq, clean⟩ := key
  simp only [partLists, List.mem_append, List.mem_map, Prod.exists, mem_buckets,
    LfuKey.mk.injEq, Listed]
  by_cases hf : p.id = partitionFreelist
  · simp only [if_pos hf, List.not_mem_nil, or_false]
    constructor
    · rintro ⟨i, j, ⟨hi, hj⟩, rfl, rfl, rfl, rfl⟩
      exact ⟨⟨hp, hi, hj, fun _ => rfl⟩, rfl⟩
    · rintro ⟨⟨-, hi, hj, hclean⟩, rfl⟩
      exact ⟨shard, freq, ⟨hi, hj⟩, rfl, rfl, rfl, (hclean hf).symm⟩
  · simp only [if_neg hf, List.mem_map, Prod.exists, mem_buckets, LfuKey.mk.injEq]
    constructor
    · rintro (⟨i, j, ⟨hi, hj⟩, rfl, rfl, rfl, rfl⟩ | ⟨i, j, ⟨hi, hj⟩, rfl, rfl, rfl, rfl⟩)
      · exact ⟨⟨hp, hi, hj, fun _ => rfl⟩, rfl⟩
      · exact ⟨⟨hp, hi, hj, fun hf' => absurd hf' hf⟩, rfl⟩
    · rintro ⟨⟨-, hi, hj, -⟩, rfl⟩
      cases clean with
      | true => exact .inl ⟨shard, freq, ⟨hi, hj⟩, rfl, rfl, rfl, rfl⟩
      | false => exact .inr ⟨shard, freq, ⟨hi, hj⟩, rfl, rfl, rfl, rfl⟩

theorem nodup_partLists (p : Part) : (partLists p).Nodup := by
  have hbuckets : buckets.Nodup := List.nodup_range.product List.nodup_range
  have hmap : ∀ clean, (buckets.map fun b => LfuKey.mk p b.1 b.2 clean).Nodup := by
    intro clean
    refine hbuckets.map fun a b hab => ?_
    exact Prod.ext (congrArg LfuKey.shard hab) (congrArg LfuKey.freq hab)
  refine List.nodup_append.mpr ⟨hmap true, ?_, ?_⟩
  · split
    · exact List.nodup_nil
    · exact hmap false
  · intro key hkey key' hkey'
    obtain ⟨i, -, rfl⟩ := List.mem_map.mp hkey
    split at hkey'
    · cases hkey'
    · obtain ⟨j, -, rfl⟩ := List.mem_map.mp hkey'
      intro heq
      cases congrArg LfuKey.clean heq

section Placement

variable {g : Geometry} {c : Cache} {owner : Nat → Part}

theorem Placed.linesOn (h : Placed g c owner) {key : LfuKey} (hkey : Listed key) :
    (linesOn c key).Nodup ∧ (c.lfuLists key).numNodes = (linesOn c key).length ∧
      ∀ x, x ∈ linesOn c key ↔ x < g.collisionEntries ∧ key = listOf c owner x := by
  obtain ⟨lines, hlfu, hmem⟩ := h.holds key hkey
  have hwalk : LfuRuns.linesOn c key = lines := by
    rw [LfuRuns.linesOn, hlfu.numNodes, hlfu.head]
    exact hlfu.linked.walk_eq
  rw [hwalk]
  refine ⟨hlfu.nodup, hlfu.numNodes, fun x => ?_⟩
  rw [hmem x, place, Option.ite_none_right_eq_some, Option.some.injEq, eq_comm (a := key)]

theorem Placed.size_eq_sum (h : Placed g c owner) {p : Part} (hp : p.Exists) :
    c.currSize p = ((partLists p).map fun key => (c.lfuLists key).numNodes).sum := by
  rw [h.size p hp, sum_lengths (nodup_partLists p) fun key hkey =>
    Placed.linesOn h ((mem_partLists hp).mp hkey).1]
  congr 1
  refine countBelow_congr fun x hx => decide_eq_decide.mpr ?_
  rw [mem_partLists hp]
  have hlisted : Listed (listOf c owner x) :=
    listed_getList (h.part x) (ocfLfuGetShardIndex_lt x) (h.freq x hx).lt _
  have hpart : (listOf c owner x).part = owner x := by
    simp only [listOf, ocfLfuGetList]
    split <;> rfl
  rw [hpart]
  exact ⟨fun howner => ⟨hlisted, howner⟩, fun hk => hk.2⟩

end Placement

/-- In every reachable state each line is on exactly one list, the one of its
partition, shard, bucket and flag; buckets follow from hits, and flags of lines
in user partitions from dirty bits; counters are sums over the lists; and no
assertion about the lists fails in the next operation. -/
theorem lfu_lines_on_one_list {g : Geometry} {start s : State} (h0 : Start g start)
    (h : Reachable (lfuSystem g false) start s) :
    (∀ x < g.collisionEntries, (lfuGetClinePart s.cache x).Exists ∧
      (∀ key, Listed key → (x ∈ linesOn s.cache key ↔
        key = ocfLfuGetList (lfuGetClinePart s.cache x) (ocfLfuGetShardIndex x)
          (s.cache.lfuNodes x).freq (s.cache.lfuNodes x).clean)) ∧
      (s.cache.lfuNodes x).freq = ocfLfuHitsToFreq (s.cache.lfuNodes x).hits ∧
      (s.cache.lfuNodes x).freq < lfuMaxFreq ∧ (s.cache.md.partitionId x ≠ partitionFreelist →
        (s.cache.lfuNodes x).clean = !metadataTestDirty g s.cache.md x)) ∧
    (∀ key, Listed key → (linesOn s.cache key).Nodup ∧
      (s.cache.lfuLists key).numNodes = (linesOn s.cache key).length ∧
      ∀ x ∈ linesOn s.cache key, x < g.collisionEntries) ∧ (∀ p : Part, p.Exists →
      s.cache.currSize p = ((partLists p).map fun key => (s.cache.lfuLists key).numNodes).sum) ∧
    ∀ op, Permitted g false s op → step g s op = none → ∃ req src n, op = .reqClines req src n ∧
      (ocfEngineUnmappedCount g req < n ∨
        AssignFails g src (.user req.partId) (ocfUserPartGetMaxSize g s.cache req.partId) n
          { s.cache with lruIdx := s.cache.lruIdx + 1 } req
          (Lru.lruIterInit (s.cache.lruIdx % Lru.ocfNumLruLists)) none 0) := by
  have hinv := reachable_inv h0 h
  have hplaced := hinv.placed
  refine ⟨fun x hx => ?_, fun key hkey => ?_, fun p hp => Placed.size_eq_sum hplaced hp,
    fun op hp hs => step_none hinv hp hs⟩
  · have hget := hplaced.toCounted.getClinePart hx (hinv.attached rfl x)
    rw [hget]
    refine ⟨hplaced.part x, fun key hkey => ?_, (hplaced.freq x hx).2, (hplaced.freq x hx).lt,
      fun hid => ?_⟩
    · obtain ⟨-, -, hmem⟩ := Placed.linesOn hplaced hkey
      rw [hmem x]
      exact ⟨fun hx' => hx'.2, fun hk => ⟨hx, hk⟩⟩
    · rw [hplaced.id x hx] at hid
      exact hplaced.clean x hx nofun hid
  · obtain ⟨hd, hlen, hmem⟩ := Placed.linesOn hplaced hkey
    exact ⟨hd, hlen, fun x hx => ((hmem x).mp hx).1⟩

/-- Three lines of one block after `ocf_lfu_populate`. -/
def populated : Option Cache :=
  ocfLfuPopulate LruRuns.threeLines
    (initPolicy { LruRuns.blankCache (fun _ => ⟨0, 100, true, 0⟩) [1] with policy := .lfu }) [0, 1, 2]

/-- The three lines as the policy starts. -/
def startThree : State :=
  ⟨populated.getD (LruRuns.blankCache (fun _ => ⟨0, 100, true, 0⟩) [1]), fun _ => .free⟩

theorem start_startThree : Start LruRuns.threeLines startThree := by
  have hsome : populated.isSome = true := by decide +kernel
  obtain ⟨c, hc⟩ := Option.isSome_iff_exists.mp hsome
  have hstart : startThree = ⟨c, fun _ => .free⟩ := by
    rw [startThree, hc, Option.getD_some]
  rw [hstart]
  exact .populate (by rfl) (by decide) LruRuns.interleaves_three hc

/-- A write of one block that misses. -/
def missOfOne : Request :=
  ⟨0, 0, 1, .write, 1, fun _ => ⟨0, 3, 0, 0, .miss, false, false, false⟩, .zero⟩

/-- The contract of the operations below as a check. -/
def checks (g : Geometry) (s : State) : Op → Bool
  | .increment x => decide (x < g.collisionEntries ∧ s.owner x ≠ .freeDetached)
  | .setDirty x _ stop => decide (x < g.collisionEntries ∧
    s.cache.md.partitionId x < ocfUserIoClassMax ∧ stop ≤ g.endBlock)
  | .reqClines req src _ => decide (req.partId < ocfUserIoClassMax ∧ src.Exists)
  | _ => false

theorem permitted_of_checks (h : checks g s op = true) : Permitted g false s op := by
  cases op with
  | increment x =>
    rw [checks, decide_eq_true_eq] at h
    exact h
  | setDirty x start stop =>
    rw [checks, decide_eq_true_eq] at h
    exact h
  | reqClines req src n =>
    rw [checks, decide_eq_true_eq] at h
    exact h
  | _ => cases h

/-- A line is given to a write, hit once more and becomes dirty. -/
theorem lfu_lines_on_one_list_hit : ∃ start s, Start LruRuns.threeLines start ∧
    Reachable (lfuSystem LruRuns.threeLines false) start s ∧
    (∀ key, Listed key → (0 ∈ linesOn s.cache key ↔ key = ⟨.user 1, 0, 1, false⟩)) ∧
    s.cache.currSize (.user 1) = 1 ∧ s.cache.currSize (.user 1) =
      ((partLists (.user 1)).map fun key => (s.cache.lfuLists key).numNodes).sum := by
  let ops : List Op := [.reqClines missOfOne .free 1, .increment 0, .setDirty 0 0 0]
  let run := ops.foldlM (checkedStep (lfuSystem LruRuns.threeLines false)
    (checks LruRuns.threeLines)) startThree
  have hvals : run.map (fun s => (lfuGetClinePart s.cache 0, (s.cache.lfuNodes 0).freq,
      (s.cache.lfuNodes 0).clean, s.cache.currSize (.user 1))) = some (.user 1, 1, false, 1) := by
    decide +kernel
  obtain ⟨s, hs, hview⟩ := Option.map_eq_some_iff.mp hvals
  simp only [Prod.mk.injEq] at hview
  obtain ⟨hpart, hfreq, hclean, hsize⟩ := hview
  have hreach : Reachable (lfuSystem LruRuns.threeLines false) startThree s :=
    Reachable.of_checked (fun _ _ h => permitted_of_checks h) hs
  obtain ⟨hlists, -, hsizes, -⟩ := lfu_lines_on_one_list start_startThree hreach
  refine ⟨startThree, s, start_startThree, hreach, fun key hkey => ?_, hsize,
    hsizes (.user 1) (by decide)⟩
  rw [(hlists 0 (by decide)).2.1 key hkey, hpart, hfreq, hclean]
  exact Iff.rfl

end OcfCache.LfuRuns
