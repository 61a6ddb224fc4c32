import OcfCache.Bisect
import OcfCache.LruPlacement
import OcfCache.Runs

/-!
# Runs of the LRU policy

The lists are filled by `ocf_lru_populate`, which puts every line on the free
list, or by `ocf_mngt_rebuild_metadata`, which recovers dirty lines and frees
the others. Both work in one shard for each list index, side by side. From
there the system takes the operations of the policy in any order, each under
the contract of its callers. The partition that a line is in is kept beside
the cache: the metadata does not tell the two free lists apart.
-/

namespace OcfCache.LruRuns

open Function Loops Metadata Requests LruList Partitions Lru CacheLine Space Bisect LruPlacement Runs
open Option (map_eq_some_iff map_some)

/-- `OCF_LRU_STRIPE_SIZE`. -/
def ocfLruStripeSize : Nat := ocfNumLruLists * ocfLruChunkSize

/-- `partial_chunk_lines` of a shard. -/
def partialChunkLines (entries shard : Nat) : Nat :=
  min (entries % ocfLruStripeSize - shard * ocfLruChunkSize) ocfLruChunkSize

/-- `num_chunks` of a shard. -/
def numChunks (entries shard : Nat) : Nat :=
  entries / ocfLruStripeSize + if 0 < partialChunkLines entries shard then 1 else 0

/-- `ocf_get_chunk_cline`. -/
def ocfGetChunkCline (shard chunk pos : Nat) : Nat :=
  (chunk * ocfNumLruLists + shard) * ocfLruChunkSize + pos

/-- Lines of a chunk. -/
def chunkLines (entries shard chunk : Nat) : List Nat :=
  (List.range (if chunk = entries / ocfLruStripeSize then partialChunkLines entries shard
    else ocfLruChunkSize)).map (ocfGetChunkCline shard chunk)

/-- Lines in the order of `ocf_lru_populate_handle`. -/
def populateShard (entries shard : Nat) : List Nat :=
  (bisectOrder (numChunks entries shard)).flatMap (chunkLines entries shard)

/-- Lines in the order of `ocf_mngt_rebuild_metadata_handle`. -/
def rebuildShard (entries shard : Nat) : List Nat :=
  (List.range entries).filter fun x => decide (ocfLruGetListIndex x = shard)

/-- The shards run side by side in the given order of lines. -/
def Interleaves (order : List Nat) (shards : Nat → List Nat) : Prop :=
  ∀ s < ocfNumLruLists, order.filter (fun x => decide (ocfLruGetListIndex x = s)) = shards s

/-- `ocf_lru_init` for all partitions, as the eviction policy is set up. -/
def initPolicy (c : Cache) : Cache :=
  ocfLruInit (ocfLruInit (forRange ocfUserIoClassMax (fun c i => ocfLruInit c (.user i)) c) .free)
    .freeDetached

/-- One line in `ocf_lru_populate_handle`. -/
def populateLine (c : Cache) (x : Nat) : Option Cache :=
  ocfLruAddFree (ocfMetadataSetPartitionId c x partitionFreelist) x

/-- `ocf_lru_populate`. -/
def ocfLruPopulate (c : Cache) (order : List Nat) : Option Cache :=
  (order.foldlM populateLine c).map fun c =>
    { c with currSize := update c.currSize .free order.length }

/-- The line holds dirty data of a core: `metadata_clear_valid_if_clean` leaves
it valid. -/
def recovered (g : Geometry) (md : LineTable) (x : Nat) : Bool :=
  testAny (fun i => md.valid x i && md.dirty x i) 0 g.endBlock &&
    (md.coreInfo x).1 != ocfCoreNum

/-- One line in `ocf_mngt_rebuild_metadata_handle`. -/
def rebuildLine (g : Geometry) (c : Cache) (x : Nat) : Option Cache :=
  if recovered g c.md x then
    let md := setValidBits c.md x fun i => c.md.valid x i && c.md.dirty x i
    let c := ocfMetadataSetPartitionId { c with md := md } x 0
    let info := c.md.coreInfo x
    ocfLruAdd g
      { c with
        md := ocfMetadataAddToCollision c.md info.1 info.2 (ocfMetadataHashFunc g info.2 info.1) x
        lruNodes := setNode c.lruNodes x fun _ => ⟨none, none, false⟩ } x
  else
    let md := { c.md with coreInfo := update c.md.coreInfo x (ocfCoreNum, ullongMax) }
    let md := setDirtyBits (setValidBits md x fun _ => false) x fun _ => false
    ocfLruAddFree (ocfMetadataSetPartitionId { c with md := md } x partitionFreelist) x

/-- `ocf_mngt_rebuild_metadata`: the lines, then the counters of the
unclassified partition and the free list. -/
def ocfMngtRebuildMetadata (g : Geometry) (c : Cache) (order : List Nat) : Option Cache :=
  (order.foldlM (rebuildLine g) c).map fun c' =>
    let lines := (order.filter fun x => recovered g c.md x).length
    { c' with
      currSize := update (update c'.currSize (.user 0) lines) .free
        (order.length - lines : Nat) }

/-- State of the policy with the partition of each line. -/
structure State where
  /-- The cache. -/
  cache : Cache
  /-- Partition of each line. -/
  owner : Nat → Part

/-- Operations of the policy. -/
inductive Op
  | repart (cline : Nat) (src dst : Part)
  | rmCline (cline : Nat)
  | hotCline (cline : Nat)
  | setDirty (cline start stop : Nat)
  | setClean (cline start stop : Nat)
  | reqClines (req : Request) (src : Part) (clineNo : Nat)
  | detach (part : Part) (cline : Nat)
  | reattach (cline : Nat)
  | other (next : Cache)

/-- Contract of the callers: the line and its partition exist, the partition
named is the one of the line, and blocks are blocks of a line. Anything else
may change what does not decide the list of a line. -/
def Permitted (g : Geometry) (s : State) : Op → Prop
  | .repart x src dst => x < g.collisionEntries ∧ s.owner x = src ∧ dst.Exists
  | .rmCline x => x < g.collisionEntries ∧ s.cache.md.partitionId x < ocfUserIoClassMax
  | .hotCline x => x < g.collisionEntries ∧ s.cache.md.partitionId x < ocfUserIoClassMax
  | .setDirty x _ stop =>
    x < g.collisionEntries ∧ s.cache.md.partitionId x < ocfUserIoClassMax ∧ stop ≤ g.endBlock
  | .setClean x _ stop =>
    x < g.collisionEntries ∧ s.cache.md.partitionId x < ocfUserIoClassMax ∧ stop ≤ g.endBlock
  | .reqClines req src _ => req.partId < ocfUserIoClassMax ∧ src.Exists
  | .detach part x => x < g.collisionEntries ∧ s.owner x = part
  | .reattach x => x < g.collisionEntries ∧ s.owner x = .freeDetached
  | .other next =>
    next.lruNodes = s.cache.lruNodes ∧ next.lruLists = s.cache.lruLists ∧
      next.currSize = s.cache.currSize ∧ next.policy = s.cache.policy ∧
      (∀ x < g.collisionEntries, next.md.partitionId x = s.cache.md.partitionId x) ∧
      ∀ x < g.collisionEntries, s.cache.md.partitionId x ≠ partitionFreelist →
        metadataTestDirty g next.md x = metadataTestDirty g s.cache.md x

/-- The operations, with the partition that they leave each line in. -/
def step (g : Geometry) (s : State) : Op → Option State
  | .repart x src dst =>
    (ocfLruRepart g s.cache x src dst).map fun c => ⟨c, update s.owner x dst⟩
  | .rmCline x => (ocfLruRmCline g s.cache x).map fun c => ⟨c, update s.owner x .free⟩
  | .hotCline x => (ocfLruHotCline g s.cache x).map fun c => ⟨c, s.owner⟩
  | .setDirty x start stop =>
    (lruSetCacheLineDirty g s.cache start stop x).map fun c => ⟨c, s.owner⟩
  | .setClean x start stop =>
    (lruSetCacheLineClean g s.cache start stop x).map fun c => ⟨c, s.owner⟩
  | .reqClines req src n =>
    (ocfEvictionReqClines g s.cache req src n).map fun r =>
      ⟨r.1, handOver s.owner req.partId r.2.2⟩
  | .detach part x =>
    (ocfLruDetach g s.cache part x).map fun c => ⟨c, update s.owner x .freeDetached⟩
  | .reattach x => (ocfLruReattach g s.cache x).map fun c => ⟨c, update s.owner x .free⟩
  | .other next => some ⟨next, s.owner⟩

/-- The LRU policy as a transition system. -/
def lruSystem (g : Geometry) : System State Op := ⟨Permitted g, step g⟩

/-- States in which the policy starts, from any content of the metadata. -/
inductive Start (g : Geometry) : State → Prop
  | populate {c c' : Cache} {order : List Nat} :
      c.policy = .lru → g.collisionEntries < 2 ^ 32 →
      Interleaves order (populateShard g.collisionEntries) →
      ocfLruPopulate (initPolicy c) order = some c' → Start g ⟨c', fun _ => .free⟩
  | rebuild {c c' : Cache} {order : List Nat} :
      c.policy = .lru → Interleaves order (rebuildShard g.collisionEntries) →
      ocfMngtRebuildMetadata g (initPolicy c) order = some c' →
      Start g ⟨c', fun x => if recovered g c.md x then .user 0 else .free⟩

theorem mem_populateShard {entries shard x : Nat} (hs : shard < ocfNumLruLists)
    (hn : entries < 2 ^ 32) :
    x ∈ populateShard entries shard ↔ x < entries ∧ ocfLruGetListIndex x = shard := by
  have hperm : (bisectOrder (numChunks entries shard)).Perm
      (List.range (numChunks entries shard)) := by
    refine bisectOrder_perm ?_
    have hdiv : entries / ocfLruStripeSize ≤ entries := Nat.div_le_self _ _
    simp only [numChunks]
    split <;> omega
  simp only [populateShard, List.mem_flatMap, hperm.mem_iff, List.mem_range, chunkLines,
    List.mem_map]
  have hstripe : ocfLruStripeSize = 8192 := rfl
  have hpart : partialChunkLines entries shard = min (entries % 8192 - shard * 256) 256 := rfl
  have hlists : ocfNumLruLists = 32 := rfl
  have hsize : ocfLruChunkSize = 256 := rfl
  have hnum : numChunks entries shard = entries / 8192 ∧ partialChunkLines entries shard = 0 ∨
      numChunks entries shard = entries / 8192 + 1 ∧ 0 < partialChunkLines entries shard := by
    simp only [numChunks, hstripe]
    split <;> omega
  have hlen : ∀ chunk, (chunk = entries / 8192 ∧
        (if chunk = entries / ocfLruStripeSize then partialChunkLines entries shard
          else ocfLruChunkSize) = partialChunkLines entries shard) ∨
      (chunk ≠ entries / 8192 ∧
        (if chunk = entries / ocfLruStripeSize then partialChunkLines entries shard
          else ocfLruChunkSize) = 256) := by
    intro chunk
    rw [hstripe]
    split
    · exact .inl ⟨by omega, rfl⟩
    · exact .inr ⟨by omega, hsize⟩
  simp only [ocfGetChunkCline, ocfLruGetListIndex]
  simp only [hlists, hsize] at hs hlen ⊢
  constructor
  · rintro ⟨chunk, hchunk, pos, hpos, rfl⟩
    have := hlen chunk
    omega
  · rintro ⟨hx, hidx⟩
    have := hlen (x / 8192)
    exact ⟨x / 8192, by omega, x % 256, by omega, by omega⟩

theorem nodup_populateShard {entries shard : Nat} (hn : entries < 2 ^ 32) :
    (populateShard entries shard).Nodup := by
  have hperm : (bisectOrder (numChunks entries shard)).Perm
      (List.range (numChunks entries shard)) := by
    refine bisectOrder_perm ?_
    have hdiv : entries / ocfLruStripeSize ≤ entries := Nat.div_le_self _ _
    simp only [numChunks]
    split <;> omega
  have hpos : ∀ chunk, ∀ x ∈ chunkLines entries shard chunk,
      ∃ pos < ocfLruChunkSize, x = ocfGetChunkCline shard chunk pos := by
    intro chunk x hx
    obtain ⟨pos, hpos, rfl⟩ := List.mem_map.mp hx
    rw [List.mem_range] at hpos
    refine ⟨pos, ?_, rfl⟩
    split at hpos
    · exact Nat.lt_of_lt_of_le hpos (Nat.min_le_right _ _)
    · exact hpos
  refine List.nodup_flatMap.mpr ⟨fun chunk _ => ?_, ?_⟩
  · refine List.nodup_range.map_on fun a _ b _ h => ?_
    simp only [ocfGetChunkCline] at h
    omega
  · refine (hperm.nodup_iff.mpr List.nodup_range).pairwise_of_forall_ne fun a _ b _ hab => ?_
    intro x hxa hxb
    obtain ⟨p, hp, rfl⟩ := hpos a x hxa
    obtain ⟨q, hq, heq⟩ := hpos b _ hxb
    simp only [ocfGetChunkCline, ocfNumLruLists, ocfLruChunkSize] at hp hq heq
    omega

variable {order : List Nat}

theorem Interleaves.lines {shards : Nat → List Nat} {entries : Nat}
    (h : Interleaves order shards) (hd : ∀ s, (shards s).Nodup)
    (hmem : ∀ s < ocfNumLruLists, ∀ x, x ∈ shards s ↔ x < entries ∧ ocfLruGetListIndex x = s) :
    order.Nodup ∧ ∀ x, x ∈ order ↔ x < entries := by
  have hin : ∀ x, x ∈ order ↔ x ∈ shards (ocfLruGetListIndex x) := by
    intro x
    rw [← h _ (ocfLruGetListIndex_lt x), List.mem_filter]
    simp
  refine ⟨List.nodup_iff_count_le_one.mpr fun x => ?_, fun x => ?_⟩
  · have hcount := List.nodup_iff_count_le_one.mp (hd (ocfLruGetListIndex x)) x
    rw [← h _ (ocfLruGetListIndex_lt x), List.count_filter (by simp)] at hcount
    exact hcount
  · rw [hin, hmem _ (ocfLruGetListIndex_lt x)]
    simp


/-- A partition whose lists and counter are set up and empty. -/
def Ready (c : Cache) (p : Part) : Prop :=
  c.currSize p = 0 ∧ ∀ key, Listed key → key.part = p →
    c.lruLists key = lruInit (decide (p.id ≠ partitionFreelist))

theorem ready_ocfLruInit (c : Cache) (p : Part) : Ready (ocfLruInit c p) p := by
  refine ⟨update_self .., fun key hkey hp => ?_⟩
  obtain ⟨-, hidx, hclean⟩ := hkey
  subst hp
  by_cases hf : key.part.id = partitionFreelist
  · simp [ocfLruInit, hidx, hf, hclean hf]
  · simp [ocfLruInit, hidx, hf]

theorem Ready.ocfLruInit {c : Cache} {p : Part} (h : Ready c p) (q : Part) :
    Ready (ocfLruInit c q) p := by
  by_cases hpq : p = q
  · subst hpq
    exact ready_ocfLruInit c p
  · refine ⟨(update_of_ne hpq _ _).trans h.1, fun key hkey hp => ?_⟩
    have hne : ¬(key.part = q ∧ key.idx < ocfNumLruLists) := fun hq => hpq (hp.symm.trans hq.1)
    simp only [Lru.ocfLruInit, if_neg hne]
    exact h.2 key hkey hp

section SetUp

variable (init : Cache → Part → Cache) (c : Cache)

theorem setUp_all {P : Cache → Part → Prop} (hself : ∀ c p, P (init c p) p)
    (hkeep : ∀ c p q, P c p → P (init c q) p) (p : Part) (hp : p.Exists) :
    P (init (init (forRange ocfUserIoClassMax (fun c i => init c (.user i)) c) .free) .freeDetached) p := by
  have hloop := @forRange_inv _ ocfUserIoClassMax (fun c i => init c (.user i)) c
    (fun n c' => ∀ i < n, P c' (.user i)) (fun i hi => absurd hi (Nat.not_lt_zero i))
    (fun n c' _ hready i hi => ?_)
  · cases p with
    | user i => exact hkeep _ _ _ (hkeep _ _ _ (hloop i hp))
    | free => exact hkeep _ _ _ (hself _ _)
    | freeDetached => exact hself _ _
  · by_cases hin : i = n
    · subst hin
      exact hself _ _
    · exact hkeep _ _ _ (hready i (by omega))

theorem setUp_same {β : Type} {f : Cache → β} (hf : ∀ c p, f (init c p) = f c) :
    f (init (init (forRange ocfUserIoClassMax (fun c i => init c (.user i)) c) .free) .freeDetached) =
      f c := by
  rw [hf, hf]
  exact forRange_inv (fun _ c' => f c' = f c) rfl fun _ _ _ h => (hf _ _).trans h

end SetUp

theorem initPolicy_spec (c : Cache) :
    (∀ p, p.Exists → Ready (initPolicy c) p) ∧ (initPolicy c).md = c.md ∧
      (initPolicy c).policy = c.policy :=
  ⟨setUp_all ocfLruInit c ready_ocfLruInit fun _ _ q h => h.ocfLruInit q,
    setUp_same ocfLruInit c fun _ _ => rfl, setUp_same ocfLruInit c fun _ _ => rfl⟩

theorem initPolicy_nodes (c : Cache) : (initPolicy c).lruNodes = c.lruNodes :=
  setUp_same ocfLruInit c fun _ _ => rfl

/-- The lists while they are filled: the lines behind the loop are on their
lists, and the metadata of the others is as it was. -/
structure Filling (g : Geometry) (c0 : Cache) (owner : Nat → Part) (done : List Nat)
    (c : Cache) : Prop where
  /-- Lists hold the lines behind the loop. -/
  holds : Holds c fun x => if x ∈ done then some (listOf g c owner x) else none
  /-- The metadata names their partition. -/
  id : ∀ x ∈ done, c.md.partitionId x = (owner x).id
  /-- Counters are set at the end. -/
  size : c.currSize = c0.currSize
  /-- The policy stays. -/
  policy : c.policy = c0.policy
  /-- Valid blocks of the lines ahead. -/
  valid : ∀ x ∉ done, c.md.valid x = c0.md.valid x
  /-- Dirty blocks of the lines ahead. -/
  dirty : ∀ x ∉ done, c.md.dirty x = c0.md.dirty x
  /-- Core lines of the lines ahead. -/
  coreInfo : ∀ x ∉ done, c.md.coreInfo x = c0.md.coreInfo x

theorem filling_nil (g : Geometry) {c : Cache} (h : ∀ p, p.Exists → Ready c p)
    (owner : Nat → Part) : Filling g c owner [] c := by
  refine ⟨fun key hkey => ?_, nofun, rfl, rfl, fun _ _ => rfl, fun _ _ => rfl, fun _ _ => rfl⟩
  rw [(h key.part hkey.1).2 key hkey rfl]
  exact ⟨rfl, [], lru_lruInit _ _, by simp⟩

/-- Metadata and nodes changed for one line only. -/
structure OnlyLine (x : Nat) (c c' : Cache) : Prop where
  /-- Lists. -/
  lists : c'.lruLists = c.lruLists
  /-- Nodes. -/
  nodes : ∀ y, y ≠ x → c'.lruNodes y = c.lruNodes y
  /-- Counters. -/
  size : c'.currSize = c.currSize
  /-- Policy. -/
  policy : c'.policy = c.policy
  /-- Partitions. -/
  id : ∀ y, y ≠ x → c'.md.partitionId y = c.md.partitionId y
  /-- Valid blocks. -/
  valid : ∀ y, y ≠ x → c'.md.valid y = c.md.valid y
  /-- Dirty blocks. -/
  dirty : ∀ y, y ≠ x → c'.md.dirty y = c.md.dirty y
  /-- Core lines. -/
  coreInfo : ∀ y, y ≠ x → c'.md.coreInfo y = c.md.coreInfo y

section Filling

variable {g : Geometry} {c0 c c1 c2 : Cache} {owner : Nat → Part} {done : List Nat} {x : Nat}

section

variable (h : Filling g c0 owner done c)
include h

theorem Filling.holds_before (hx : x ∉ done) (hline : OnlyLine x c c1) :
    Holds c1 fun y => if y ∈ done then some (listOf g c1 owner y) else none := by
  intro key hkey
  obtain ⟨htrack, lines, hlru, hmem⟩ := h.holds key hkey
  have hnot : ∀ y ∈ lines, y ≠ x := by
    rintro y hy rfl
    have hplace := (hmem y).mp hy
    simp [hx] at hplace
  rw [hline.lists]
  refine ⟨htrack, lines, hlru.congr fun y hy => hline.nodes y (hnot y hy), fun y => ?_⟩
  rw [hmem y]
  by_cases hy : y ∈ done
  · have hyx : y ≠ x := fun heq => hx (heq ▸ hy)
    simp only [hy, listOf, metadataTestDirty, hline.dirty y hyx]
  · simp only [hy, if_false]

theorem Filling.insert (hline : OnlyLine x c c1) (hid : c1.md.partitionId x = (owner x).id)
    (hadd : Holds c2 (update (fun y => if y ∈ done then some (listOf g c1 owner y) else none) x
        (some (listOf g c1 owner x)))) (honly : OnlyLists c1 c2) :
    Filling g c0 owner (done ++ [x]) c2 := by
  have hmd : c2.md = c1.md := by rw [honly]
  have hsize : c2.currSize = c1.currSize := by rw [honly]
  have hpolicy : c2.policy = c1.policy := by rw [honly]
  have hahead : ∀ y ∉ done ++ [x], y ∉ done ∧ y ≠ x := by
    intro y hy
    simpa [not_or] using hy
  refine ⟨?_, fun y hy => ?_, hsize.trans (hline.size.trans h.size),
    hpolicy.trans (hline.policy.trans h.policy), fun y hy => ?_, fun y hy => ?_, fun y hy => ?_⟩
  · have hplace : (fun y => if y ∈ done ++ [x] then some (listOf g c2 owner y) else none) =
        update (fun y => if y ∈ done then some (listOf g c1 owner y) else none) x
          (some (listOf g c1 owner x)) := by
      funext y
      by_cases hy : y = x
      · subst hy
        simp [listOf, hmd]
      · simp [listOf, hmd, hy]
    rw [hplace]
    exact hadd
  · rw [hmd]
    by_cases hyx : y = x
    · subst hyx
      exact hid
    · rw [hline.id y hyx]
      exact h.id y (by simpa [hyx] using hy)
  · rw [hmd, hline.valid y (hahead y hy).2]
    exact h.valid y (hahead y hy).1
  · rw [hmd, hline.dirty y (hahead y hy).2]
    exact h.dirty y (hahead y hy).1
  · rw [hmd, hline.coreInfo y (hahead y hy).2]
    exact h.coreInfo y (hahead y hy).1

theorem Filling.addFree (hx : x ∉ done) (hline : OnlyLine x c c1)
    (hid : c1.md.partitionId x = partitionFreelist) (howner : owner x = .free)
    (heq : ocfLruAddFree c1 x = some c2) : Filling g c0 owner (done ++ [x]) c2 := by
  have hkey : listOf g c1 owner x = ocfLruGetList .free (ocfLruGetListIndex x) true := by
    simp [listOf, howner, ocfLruGetList, Part.id]
  have hlisted : Listed (ocfLruGetList .free (ocfLruGetListIndex x) true) :=
    listed_getList (show Part.free.Exists from trivial) (ocfLruGetListIndex_lt x) true
  obtain ⟨c3, heq3, hholds, honly⟩ :=
    (h.holds_before hx hline).addFree hlisted (by simp [ocfLruGetList, Part.id]) (if_neg hx)
  rw [ocfLruAddFree, heq3] at heq
  cases heq
  refine h.insert hline ?_ ?_ honly
  · rw [hid, howner]
    rfl
  · rw [hkey]
    exact hholds

theorem Filling.add (hx : x ∉ done) (hline : OnlyLine x c c1)
    {p : Nat} (hp : p < ocfUserIoClassMax) (hid : c1.md.partitionId x = p)
    (howner : owner x = .user p) (heq : ocfLruAdd g c1 x = some c2) :
    Filling g c0 owner (done ++ [x]) c2 := by
  obtain ⟨key, hget, hadd⟩ := Option.bind_eq_some_iff.mp heq
  simp only [lruGetClineList, Option.ite_none_left_eq_some, Option.some.injEq] at hget
  have hkey : key = listOf g c1 owner x := by
    rw [← hget.2, hid, listOf, howner]
  subst hkey
  have hlisted : Listed (listOf g c1 owner x) :=
    listed_getList (howner ▸ hp) (ocfLruGetListIndex_lt x) _
  obtain ⟨c3, heq3, hholds, honly⟩ := (h.holds_before hx hline).add hlisted (if_neg hx)
  rw [heq3] at hadd
  cases hadd
  refine h.insert hline ?_ hholds honly
  rw [hid, howner]
  rfl

theorem Filling.placed (hin : ∀ x, x ∈ done ↔ x < g.collisionEntries)
    (hpart : ∀ x, (owner x).Exists) {sizes : Part → Int} (hsize : ∀ p, p.Exists →
      sizes p = countBelow (fun x => decide (owner x = p)) g.collisionEntries) :
    Placed g { c with currSize := sizes } owner := by
  refine ⟨?_, hpart, fun x hx => h.id x ((hin x).mpr hx), hsize⟩
  have hplace : place g { c with currSize := sizes } owner =
      fun x => if x ∈ done then some (listOf g c owner x) else none := by
    funext x
    simp only [place, hin x]
    rfl
  rw [hplace]
  exact h.holds

end

end Filling


theorem onlyLine_setPartitionId (c : Cache) (x id : Nat) :
    OnlyLine x c (ocfMetadataSetPartitionId c x id) := by
  refine ⟨rfl, fun _ _ => rfl, rfl, rfl, fun y hy => ?_, fun _ _ => rfl, fun _ _ => rfl,
    fun _ _ => rfl⟩
  exact update_of_ne hy _ _

variable {g : Geometry}

theorem populateSizes (hd : order.Nodup)
    (hmem : ∀ x, x ∈ order ↔ x < g.collisionEntries) {sizes : Part → Int}
    (hzero : ∀ p, p.Exists → sizes p = 0) :
    ∀ p, p.Exists → update sizes .free (order.length : Int) p =
      countBelow (fun _ => decide (Part.free = p)) g.collisionEntries := by
  intro p hp
  by_cases hfree : p = .free
  · subst hfree
    have hlen : order.length =
        countBelow (fun _ => decide (Part.free = .free)) g.collisionEntries :=
      length_eq_countBelow hd fun x => (hmem x).trans (by simp)
    rw [update_self, hlen]
  · rw [update_of_ne hfree, hzero p hp]
    have hnone : countBelow (fun _ => decide (Part.free = p)) g.collisionEntries = 0 :=
      countBelow_eq_zero.mpr fun _ _ => by simp [Ne.symm hfree]
    rw [hnone]
    rfl

theorem rebuildSizes (md : LineTable) (hd : order.Nodup)
    (hmem : ∀ x, x ∈ order ↔ x < g.collisionEntries) {sizes : Part → Int}
    (hzero : ∀ p, p.Exists → sizes p = 0) : ∀ p, p.Exists → update (update sizes (.user 0)
      ((order.filter fun x => recovered g md x).length : Int)) .free
      ((order.length - (order.filter fun x => recovered g md x).length : Nat) : Int) p =
      countBelow (fun x => decide ((if recovered g md x then Part.user 0 else .free) = p))
        g.collisionEntries := by
  have hdirty : (order.filter fun x => recovered g md x).length =
      countBelow (recovered g md) g.collisionEntries :=
    length_eq_countBelow (hd.filter _) fun x => by rw [List.mem_filter, hmem x]
  have hfree : order.length - (order.filter fun x => recovered g md x).length =
      countBelow (fun x => !recovered g md x) g.collisionEntries := by
    have hrest : (order.filter fun x => !recovered g md x).length =
        countBelow (fun x => !recovered g md x) g.collisionEntries :=
      length_eq_countBelow (hd.filter _) fun x => by rw [List.mem_filter, hmem x]
    have hall := List.length_eq_length_filter_add (l := order) fun x => recovered g md x
    omega
  intro p hp
  rw [hfree, hdirty]
  by_cases hpf : p = .free
  · subst hpf
    rw [update_self]
    congr 1
    refine countBelow_congr fun x _ => ?_
    cases recovered g md x <;> rfl
  · rw [update_of_ne hpf]
    by_cases hp0 : p = .user 0
    · subst hp0
      rw [update_self]
      congr 1
      refine countBelow_congr fun x _ => ?_
      cases recovered g md x <;> rfl
    · rw [update_of_ne hp0, hzero p hp]
      have hnone : countBelow (fun x => decide
          ((if recovered g md x then Part.user 0 else .free) = p)) g.collisionEntries = 0 := by
        refine countBelow_eq_zero.mpr fun x _ => ?_
        cases recovered g md x <;> simp [Ne.symm hpf, Ne.symm hp0]
      rw [hnone]
      rfl

theorem ocfLruPopulate_placed {c c' : Cache} (hn : g.collisionEntries < 2 ^ 32)
    (hi : Interleaves order (populateShard g.collisionEntries))
    (heq : ocfLruPopulate (initPolicy c) order = some c') :
    Placed g c' (fun _ => .free) ∧ c'.policy = c.policy := by
  obtain ⟨hd, hmem⟩ := hi.lines (fun _ => nodup_populateShard hn)
    fun s hs x => mem_populateShard hs hn
  obtain ⟨hready, -, hpolicy⟩ := initPolicy_spec c
  obtain ⟨c1, hfold, rfl⟩ := map_eq_some_iff.mp heq
  have hfill := foldlM_inv (Filling g (initPolicy c) fun _ => .free)
    (fun done x s s' hx hfill hline => hfill.addFree hx
      (onlyLine_setPartitionId s x partitionFreelist) (update_self ..) rfl hline)
    hd (filling_nil g hready _) hfold
  refine ⟨hfill.placed hmem (fun _ => trivial) ?_, hfill.policy.trans hpolicy⟩
  refine populateSizes hd hmem fun p hp => ?_
  rw [hfill.size]
  exact (hready p hp).1

theorem recovered_congr {md md' : LineTable} {x : Nat}
    (hv : md'.valid x = md.valid x) (hd : md'.dirty x = md.dirty x)
    (hc : md'.coreInfo x = md.coreInfo x) : recovered g md' x = recovered g md x := by
  simp only [recovered, hv, hd, hc]

theorem Filling.rebuildLine {c0 c c' : Cache} {done : List Nat} {x : Nat}
    (h : Filling g c0 (fun y => if recovered g c0.md y then .user 0 else .free) done c)
    (hx : x ∉ done) (heq : rebuildLine g c x = some c') :
    Filling g c0 (fun y => if recovered g c0.md y then .user 0 else .free) (done ++ [x]) c' := by
  have hrec : recovered g c.md x = recovered g c0.md x :=
    recovered_congr (h.valid x hx) (h.dirty x hx) (h.coreInfo x hx)
  have hne : ∀ {α : Type} {f : Nat → α} {v : α} (y : Nat), y ≠ x → update f x v y = f y :=
    fun y hy => update_of_ne hy _ _
  simp only [LruRuns.rebuildLine] at heq
  split at heq
  · rename_i hr
    refine h.add hx (p := 0) ?_ (by decide) ?_ (by simp [← hrec, hr]) heq
    · have hnode : ∀ y, y ≠ x → setNode c.lruNodes x (fun _ => ⟨none, none, false⟩) y =
          c.lruNodes y := fun y hy => setNode_of_ne hy
      exact ⟨rfl, hnode, rfl, rfl, hne, hne, fun _ _ => rfl, hne⟩
    · exact update_self ..
  · rename_i hr
    refine h.addFree hx ?_ ?_ (by simp [← hrec, hr]) heq
    · exact ⟨rfl, fun _ _ => rfl, rfl, rfl, hne, hne, hne, hne⟩
    · exact update_self ..

theorem ocfMngtRebuildMetadata_placed {c c' : Cache}
    (hi : Interleaves order (rebuildShard g.collisionEntries))
    (heq : ocfMngtRebuildMetadata g (initPolicy c) order = some c') :
    Placed g c' (fun x => if recovered g c.md x then .user 0 else .free) ∧
      c'.policy = c.policy := by
  have hlines : order.Nodup ∧ ∀ x, x ∈ order ↔ x < g.collisionEntries :=
    hi.lines (fun s => List.nodup_range.filter _) fun s _ x => by simp [rebuildShard]
  obtain ⟨hd, hmem⟩ := hlines
  obtain ⟨hready, hmd, hpolicy⟩ := initPolicy_spec c
  obtain ⟨c1, hfold, rfl⟩ := map_eq_some_iff.mp heq
  have hfill := foldlM_inv (Filling g (initPolicy c) fun y =>
      if recovered g (initPolicy c).md y then .user 0 else .free)
    (fun done x s s' hx hfill hline => hfill.rebuildLine hx hline)
    hd (filling_nil g hready _) hfold
  rw [hmd] at hfill
  refine ⟨hfill.placed hmem (fun x => ?_) ?_, hfill.policy.trans hpolicy⟩
  · split
    · exact Nat.zero_lt_succ _
    · trivial
  · rw [hmd]
    refine rebuildSizes c.md hd hmem fun p hp => ?_
    rw [hfill.size]
    exact (hready p hp).1

theorem Start.placed {s : State} (h : Start g s) :
    Placed g s.cache s.owner ∧ s.cache.policy = .lru := by
  cases h with
  | populate hpolicy hn hi heq =>
    obtain ⟨hplaced, hpol⟩ := ocfLruPopulate_placed hn hi heq
    exact ⟨hplaced, hpol.trans hpolicy⟩
  | rebuild hpolicy hi heq =>
    obtain ⟨hplaced, hpol⟩ := ocfMngtRebuildMetadata_placed hi heq
    exact ⟨hplaced, hpol.trans hpolicy⟩


/-- Every operation keeps the placement. -/
theorem step_placed {s s' : State} {op : Op}
    (h : Placed g s.cache s.owner ∧ s.cache.policy = .lru) (hp : Permitted g s op)
    (hs : step g s op = some s') : Placed g s'.cache s'.owner ∧ s'.cache.policy = .lru := by
  obtain ⟨hplaced, hpolicy⟩ := h
  -- a move between partitions, for any of the four operations that are one
  have hmove : ∀ {x : Nat} {src dst : Part} {c : Cache}, x < g.collisionEntries →
      s.owner x = src → dst.Exists → ocfLruRepart g s.cache x src dst = some c →
      Placed g c (update s.owner x dst) ∧ c.policy = .lru := by
    rintro x src dst c hx rfl hdst heq
    obtain ⟨c1, heq1, hnew, hpol⟩ := hplaced.repart hx hdst
    rw [ocfLruRepart, heq1] at heq
    cases heq
    exact ⟨hnew, hpol.trans hpolicy⟩
  have huser : ∀ {x : Nat}, s.cache.md.partitionId x < ocfUserIoClassMax →
      s.cache.md.partitionId x ≠ partitionFreelist := by
    simp only [partitionFreelist]
    omega
  cases op with
  | repart x src dst =>
    obtain ⟨c, heq, rfl⟩ := map_eq_some_iff.mp hs
    exact hmove hp.1 hp.2.1 hp.2.2 heq
  | rmCline x =>
    obtain ⟨c, heq, rfl⟩ := map_eq_some_iff.mp hs
    exact hmove hp.1 (hplaced.owner_of_id hp.1 (huser hp.2)) trivial heq
  | hotCline x =>
    obtain ⟨c, heq, rfl⟩ := map_eq_some_iff.mp hs
    obtain ⟨c1, heq1, hnew, hpol⟩ := hplaced.hotCline hp.1 (huser hp.2)
    rw [heq1] at heq
    cases heq
    exact ⟨hnew, hpol.trans hpolicy⟩
  | setDirty x start stop =>
    obtain ⟨c, heq, rfl⟩ := map_eq_some_iff.mp hs
    obtain ⟨c1, heq1, hnew, hpol⟩ := hplaced.setDirty start hp.1 hp.2.1 hp.2.2
    rw [heq1] at heq
    cases heq
    exact ⟨hnew, hpol.trans hpolicy⟩
  | setClean x start stop =>
    obtain ⟨c, heq, rfl⟩ := map_eq_some_iff.mp hs
    obtain ⟨c1, heq1, hnew, hpol⟩ := hplaced.setClean start hp.1 hp.2.1 hp.2.2
    rw [heq1] at heq
    cases heq
    exact ⟨hnew, hpol.trans hpolicy⟩
  | reqClines req src n =>
    obtain ⟨r, heq, rfl⟩ := map_eq_some_iff.mp hs
    exact hplaced.reqClines hpolicy hp.1 hp.2 heq
  | detach part x =>
    obtain ⟨c, heq, rfl⟩ := map_eq_some_iff.mp hs
    exact hmove hp.1 hp.2 trivial heq
  | reattach x =>
    obtain ⟨c, heq, rfl⟩ := map_eq_some_iff.mp hs
    exact hmove hp.1 hp.2 trivial heq
  | other next =>
    cases hs
    obtain ⟨hn, hl, hsz, hpol, hid, hdirty⟩ := hp
    have hmd := hplaced.of_md hid fun x hx hf => hdirty x hx (by rwa [hplaced.id x hx])
    exact ⟨hmd.congr hn hl rfl hsz, hpol.trans hpolicy⟩

theorem reachable_placed {start s : State} (h0 : Start g start)
    (h : Reachable (lruSystem g) start s) : Placed g s.cache s.owner ∧ s.cache.policy = .lru :=
  h.invariant (fun _ => h0.placed) fun _ _ _ hinv _ hp hs _ => step_placed hinv hp hs

/-- Lines met on the way from the head of a list. -/
def linesOn (c : Cache) (key : ListKey) : List Nat :=
  LinkedLists.walk (fun x => (c.lruNodes x).next) (c.lruLists key).numNodes (c.lruLists key).head

/-- The lists of a partition. -/
def partLists (p : Part) : List ListKey :=
  (List.range ocfNumLruLists).map (ListKey.mk p · true) ++
    if p.id = partitionFreelist then [] else (List.range ocfNumLruLists).map (ListKey.mk p · false)

theorem mem_partLists {p : Part} (hp : p.Exists) {key : ListKey} :
    key ∈ partLists p ↔ Listed key ∧ key.part = p := by
  obtain ⟨part, idx, clean⟩ := key
  simp only [partLists, List.mem_append, List.mem_map, List.mem_range, ListKey.mk.injEq, Listed]
  by_cases hf : p.id = partitionFreelist
  · simp only [if_pos hf, List.not_mem_nil, or_false]
    constructor
    · rintro ⟨i, hi, rfl, rfl, rfl⟩
      exact ⟨⟨hp, hi, fun _ => rfl⟩, rfl⟩
    · rintro ⟨⟨-, hi, hclean⟩, rfl⟩
      exact ⟨idx, hi, rfl, rfl, (hclean hf).symm⟩
  · simp only [if_neg hf, List.mem_map, List.mem_range, ListKey.mk.injEq]
    constructor
    · rintro (⟨i, hi, rfl, rfl, rfl⟩ | ⟨i, hi, rfl, rfl, rfl⟩)
      · exact ⟨⟨hp, hi, fun _ => rfl⟩, rfl⟩
      · exact ⟨⟨hp, hi, fun hf' => absurd hf' hf⟩, rfl⟩
    · rintro ⟨⟨-, hi, -⟩, rfl⟩
      cases clean with
      | true => exact .inl ⟨idx, hi, rfl, rfl, rfl⟩
      | false => exact .inr ⟨idx, hi, rfl, rfl, rfl⟩

theorem nodup_partLists (p : Part) : (partLists p).Nodup := by
  have hmap : ∀ clean, ((List.range ocfNumLruLists).map (ListKey.mk p · clean)).Nodup :=
    fun clean => List.nodup_range.map fun a b hab => congrArg ListKey.idx hab
  refine List.nodup_append.mpr ⟨hmap true, ?_, ?_⟩
  · split
    · exact List.nodup_nil
    · exact hmap false
  · intro key hkey key' hkey'
    obtain ⟨i, -, rfl⟩ := List.mem_map.mp hkey
    split at hkey'
    · cases hkey'
    · obtain ⟨j, -, rfl⟩ := List.mem_map.mp hkey'
      intro heq
      cases heq

section Placement

variable {g : Geometry} {c : Cache} {owner : Nat → Part}

theorem Placed.linesOn (h : Placed g c owner) {key : ListKey} (hkey : Listed key) :
    (linesOn c key).Nodup ∧ (c.lruLists key).numNodes = (linesOn c key).length ∧
      ∀ x, x ∈ linesOn c key ↔ x < g.collisionEntries ∧ key = listOf g c owner x := by
  obtain ⟨-, lines, hlru, hmem⟩ := h.holds key hkey
  have hwalk : LruRuns.linesOn c key = lines := hlru.walk_eq
  rw [hwalk]
  refine ⟨hlru.nodup, hlru.numNodes, fun x => ?_⟩
  rw [hmem x, place, Option.ite_none_right_eq_some, Option.some.injEq, eq_comm (a := key)]

theorem Placed.size_eq_sum (h : Placed g c owner) {p : Part} (hp : p.Exists) :
    c.currSize p = ((partLists p).map fun key => (c.lruLists key).numNodes).sum := by
  rw [h.size p hp, sum_lengths (nodup_partLists p) fun key hkey =>
    Placed.linesOn h ((mem_partLists hp).mp hkey).1]
  congr 1
  refine countBelow_congr fun x _ => decide_eq_decide.mpr ?_
  rw [mem_partLists hp]
  have hlisted : Listed (listOf g c owner x) :=
    listed_getList (h.part x) (ocfLruGetListIndex_lt x) _
  have hpart : (listOf g c owner x).part = owner x := by
    simp only [listOf, ocfLruGetList]
    split <;> rfl
  rw [hpart]
  exact ⟨fun howner => ⟨hlisted, howner⟩, fun hk => hk.2⟩

end Placement


/-- In every reachable state each line is on exactly one list, the one of its
partition, index and dirtiness, and the counter of each partition is the number
of nodes on its lists. -/
theorem lru_lines_on_one_list {g : Geometry} {start s : State} (h0 : Start g start)
    (h : Reachable (lruSystem g) start s) :
    (∀ x < g.collisionEntries, s.cache.md.partitionId x = (s.owner x).id ∧ (s.owner x).Exists ∧
      ∀ key, Listed key → (x ∈ linesOn s.cache key ↔
        key = ocfLruGetList (s.owner x) (ocfLruGetListIndex x)
          (!metadataTestDirty g s.cache.md x))) ∧ (∀ key, Listed key → (linesOn s.cache key).Nodup ∧
      (s.cache.lruLists key).numNodes = (linesOn s.cache key).length ∧
      ∀ x ∈ linesOn s.cache key, x < g.collisionEntries) ∧ ∀ p : Part, p.Exists →
      s.cache.currSize p = ((partLists p).map fun key => (s.cache.lruLists key).numNodes).sum := by
  obtain ⟨hplaced, -⟩ := reachable_placed h0 h
  refine ⟨fun x hx => ⟨hplaced.id x hx, hplaced.part x, fun key hkey => ?_⟩, fun key hkey => ?_,
    fun p hp => Placed.size_eq_sum hplaced hp⟩
  · obtain ⟨-, -, hmem⟩ := Placed.linesOn hplaced hkey
    rw [hmem x]
    exact ⟨fun hx' => hx'.2, fun hk => ⟨hx, hk⟩⟩
  · obtain ⟨hd, hlen, hmem⟩ := Placed.linesOn hplaced hkey
    exact ⟨hd, hlen, fun x hx => ((hmem x).mp hx).1⟩

/-- A cache of three lines with one block each. -/
def threeLines : Geometry := ⟨1, Nat.one_pos, 1, 3, 0⟩

/-- A cache before its policy is set up. -/
def blankCache (config : Nat → UserPartConfig) (userPartList : List Nat) : Cache where
  policy := .lru
  md := ⟨fun _ => [], fun _ => (ocfCoreNum, ullongMax), fun _ _ => false, fun _ _ => false,
    fun _ => partitionFreelist⟩
  currSize := fun _ => 0
  evictCounter := fun _ => 0
  config := config
  userPartList := userPartList
  lruNodes := fun _ => ⟨none, none, false⟩
  lruLists := fun _ => lruInit false
  lfuNodes := fun _ => ⟨none, none, false, 0, 0⟩
  lfuLists := fun _ => ⟨none, none, 0⟩
  lruIdx := 0
  lineLocked := fun _ => false
  hashLocked := fun _ _ => false
  waiters := fun _ => false

/-- The three lines after `ocf_lru_populate`. -/
def populated (config : Nat → UserPartConfig) (userPartList : List Nat) : Option Cache :=
  ocfLruPopulate (initPolicy (blankCache config userPartList)) [0, 1, 2]

theorem interleaves_three : Interleaves [0, 1, 2] (populateShard 3) := by
  unfold Interleaves
  decide +kernel

/-- Execute operations from a state. -/
def exec (g : Geometry) : State → List Op → Option State
  | s, [] => some s
  | s, op :: ops => (step g s op).bind fun s => exec g s ops

/-- Every operation is permitted when its turn comes. -/
def Allowed (g : Geometry) : State → List Op → Prop
  | _, [] => True
  | s, op :: ops => Permitted g s op ∧ ∀ t, step g s op = some t → Allowed g t ops

theorem exec_reachable {start s s' : State} {ops : List Op}
    (hs : Reachable (lruSystem g) start s) (hp : Allowed g s ops)
    (h : exec g s ops = some s') : Reachable (lruSystem g) start s' := by
  induction ops generalizing s with
  | nil =>
    cases h
    exact hs
  | cons op ops ih =>
    obtain ⟨t, ht, hrest⟩ := Option.bind_eq_some_iff.mp h
    exact ih (hs.next op hp.1 ht) (hp.2 t ht) hrest

/-- The three lines as the policy starts. -/
def startThree (config : Nat → UserPartConfig) (userPartList : List Nat) : State :=
  ⟨(populated config userPartList).getD (blankCache config userPartList), fun _ => .free⟩

theorem start_startThree {config : Nat → UserPartConfig} {userPartList : List Nat}
    (h : (populated config userPartList).isSome = true) :
    Start threeLines (startThree config userPartList) := by
  obtain ⟨c, hc⟩ := Option.isSome_iff_exists.mp h
  have hstart : startThree config userPartList = ⟨c, fun _ => .free⟩ := by
    rw [startThree, hc, Option.getD_some]
  rw [hstart]
  exact .populate (by rfl) (by decide) interleaves_three hc

/-- Two lines are given to a partition and one of them becomes dirty. -/
theorem lru_lines_on_one_list_three : ∃ start s, Start threeLines start ∧
    Reachable (lruSystem threeLines) start s ∧ metadataTestDirty threeLines s.cache.md 0 = true ∧
    (∀ key, Listed key → (0 ∈ linesOn s.cache key ↔ key = ⟨.user 1, 0, false⟩)) ∧
    s.cache.currSize (.user 1) = 2 ∧ s.cache.currSize (.user 1) =
      ((partLists (.user 1)).map fun key => (s.cache.lruLists key).numNodes).sum := by
  let start := startThree (fun _ => ⟨0, 100, true, 0⟩) [1, 2]
  let ops : List Op := [.repart 0 .free (.user 1), .repart 2 .free (.user 1), .setDirty 0 0 0]
  have hstart : Start threeLines start := start_startThree (by decide +kernel)
  obtain ⟨s, hs⟩ : ∃ s, exec threeLines start ops = some s :=
    Option.isSome_iff_exists.mp (by decide +kernel)
  have hvals : (exec threeLines start ops).map (fun s =>
      (metadataTestDirty threeLines s.cache.md 0, s.owner 0, s.cache.currSize (.user 1))) =
      some (true, .user 1, 2) := by decide +kernel
  rw [hs, map_some, Option.some.injEq, Prod.mk.injEq, Prod.mk.injEq] at hvals
  obtain ⟨hdirty, howner, hsize⟩ := hvals
  have hallowed : Allowed threeLines start ops := by
    refine ⟨⟨by decide, rfl, by decide⟩, fun t ht => ?_⟩
    have hown : (step threeLines start (.repart 0 .free (.user 1))).map (·.owner 2) =
        some .free := by decide +kernel
    rw [ht, map_some, Option.some.injEq] at hown
    refine ⟨⟨by decide, hown, by decide⟩, fun t' ht' => ?_⟩
    have hid : ((step threeLines start (.repart 0 .free (.user 1))).bind fun t =>
        (step threeLines t (.repart 2 .free (.user 1))).map (·.cache.md.partitionId 0)) =
        some 1 := by decide +kernel
    rw [ht, Option.bind_some, ht', map_some, Option.some.injEq] at hid
    refine ⟨⟨by decide, ?_, by decide⟩, fun _ _ => trivial⟩
    rw [hid]
    decide
  have hreach : Reachable (lruSystem threeLines) start s :=
    exec_reachable (.refl trivial) hallowed hs
  obtain ⟨hlists, -, hsizes⟩ := lru_lines_on_one_list hstart hreach
  refine ⟨start, s, hstart, hreach, hdirty, fun key hkey => ?_, hsize, hsizes (.user 1) (by decide)⟩
  rw [(hlists 0 (by decide)).2.2 key hkey, howner, hdirty]
  exact Iff.rfl

end OcfCache.LruRuns
