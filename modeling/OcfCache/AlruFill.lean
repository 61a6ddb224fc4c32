import OcfCache.AlruLists

/-!
# Building the ALRU lists

The shards of a fill cover the lines in order. After the shards of a populate,
every dirty line that is mapped is on the chain of its shard and partition; the
finish merges these chains into the lists of the partitions. A prepopulate
leaves empty lists, and the update puts the dirty lines of all hash buckets on
them.
-/

namespace OcfCache.Alru

open Function Metadata Loops

/-- The line belongs to a core. -/
def Mapped (md : LineTable) (x : Nat) : Prop := (md.coreInfo x).1 ≠ ocfCoreNum

/-- The lines that belong on a list. -/
def Wanted (g : Geometry) (md : LineTable) (x : Nat) : Prop :=
  x < g.collisionEntries ∧ Mapped md x ∧ metadataTestDirty g md x = true

/-- The lines whose links are kept. -/
def Cared (g : Geometry) (md : LineTable) (x : Nat) : Prop := x < g.collisionEntries ∧ Mapped md x

/-- The mapped lines are in user partitions. -/
def InPartitions (g : Geometry) (md : LineTable) : Prop :=
  ∀ x < g.collisionEntries, Mapped md x → md.partitionId x < ocfUserIoClassMax

/-- The lists hold exactly the dirty mapped lines. -/
def Holds (g : Geometry) (s : State) (lists : Nat → List Nat) : Prop :=
  Tracks g s s.md.partitionId (Wanted g s.md) (Cared g s.md) lists

/-- Number of lines of a shard. -/
def portion (entries shards : Nat) : Nat := (entries + (shards - 1)) / shards

variable {n k j x : Nat} {st : State × Shards} {t : State}

theorem shardLines_inv {σ : Type*} {f : σ → Nat → σ} (inv : Nat → σ → Prop) {s : σ}
    (h0 : inv (min (portion n k * j) n) s)
    (hstep : ∀ x t, portion n k * j ≤ x → x < portion n k * (j + 1) → x < n → inv x t → inv (x + 1) (f t x)) :
    inv (min (portion n k * (j + 1)) n) ((shardLines n k j).foldl f s) := by
  have hle : portion n k * j ≤ portion n k * (j + 1) := Nat.mul_le_mul_left _ (Nat.le_succ j)
  have hloop := foldl_range'_inv (f := f) (fun i t => inv (min i n) t) (a := portion n k * j)
    (m := min (portion n k * (j + 1)) n - portion n k * j) h0 (by
      intro i t hai him ht
      have hin : i < n := by omega
      have hmin : min i n = i := by omega
      have hmin' : min (i + 1) n = i + 1 := by omega
      rw [hmin] at ht
      rw [hmin']
      exact hstep i t hai (by omega) hin ht)
  have hend : min (portion n k * j + (min (portion n k * (j + 1)) n - portion n k * j)) n =
      min (portion n k * (j + 1)) n := by omega
  rw [← hend]
  exact hloop

theorem portion_mul (n : Nat) (hk : 0 < k) : min (portion n k * k) n = n := by
  have hdiv := Nat.div_add_mod (n + (k - 1)) k
  have hmod := Nat.mod_lt (n + (k - 1)) hk
  rw [portion, Nat.mul_comm]
  omega

theorem shard_eq (hle : portion n k * j ≤ x) (hlt : x < portion n k * (j + 1)) :
    x / portion n k = j :=
  Nat.div_eq_of_lt_le (by rwa [Nat.mul_comm]) (by rwa [Nat.mul_comm])

theorem shard_lt (hlt : x < portion n k * j) : x / portion n k < j :=
  Nat.div_lt_of_lt_mul hlt

/-- `resetParts` makes the lists of the user partitions empty. -/
theorem resetParts_spec (g : Geometry) (s : State) : (resetParts g s).md = s.md ∧
    ∀ p < ocfUserIoClassMax, (resetParts g s).part p = ⟨0, g.collisionEntries, g.collisionEntries⟩ := by
  refine forRange_inv (fun i (t : State) => t.md = s.md ∧
    ∀ p < i, t.part p = ⟨0, g.collisionEntries, g.collisionEntries⟩) ⟨rfl, fun p hp => ?_⟩ ?_
  · omega
  · intro i t _ ⟨hmd, ht⟩
    refine ⟨hmd, fun p hp => ?_⟩
    change update t.part i _ p = _
    by_cases hpi : p = i
    · rw [hpi, update_self]
    · rw [update_of_ne hpi]
      exact ht p (by omega)

/-- `addSizes` changes the sizes of the user partitions. -/
theorem addSizes_spec (s : State) (count : Nat → Nat) : (addSizes s count).md = s.md ∧
    (addSizes s count).links = s.links ∧ ∀ p < ocfUserIoClassMax,
      (addSizes s count).part p = { s.part p with size := (s.part p).size + count p } := by
  have h : (addSizes s count).md = s.md ∧ (addSizes s count).links = s.links ∧
      ∀ p, (addSizes s count).part p =
        if p < ocfUserIoClassMax then { s.part p with size := (s.part p).size + count p } else s.part p := by
    refine forRange_inv (fun i (t : State) => t.md = s.md ∧ t.links = s.links ∧ ∀ p, t.part p =
      if p < i then { s.part p with size := (s.part p).size + count p } else s.part p)
      ⟨rfl, rfl, fun p => by simp⟩ ?_
    intro i t _ ⟨hmd, hlinks, ht⟩
    refine ⟨hmd, hlinks, fun p => ?_⟩
    change update t.part i _ p = _
    by_cases hpi : p = i
    · have hlt : ¬p < i := by omega
      rw [hpi, update_self, ht i, if_neg (Nat.lt_irrefl i), if_pos (Nat.lt_succ_self i)]
    · rw [update_of_ne hpi, ht p]
      have hiff : p < i ↔ p < i + 1 := by omega
      simp only [hiff]
  exact ⟨h.1, h.2.1, fun p hp => (h.2.2 p).trans (if_pos hp)⟩

section Populate

variable (g : Geometry) (md : LineTable)

/-- Shard and partition of a line. -/
def shardKey (x : Nat) : Nat × Nat := (x / portion g.collisionEntries ocfAlruFillShardsCnt, md.partitionId x)

/-- Dirty mapped lines of a partition. -/
def inPartition (p x : Nat) : Bool :=
  decide ((md.coreInfo x).1 ≠ ocfCoreNum) && metadataTestDirty g md x && decide (md.partitionId x = p)

/-- What the shards have built of the lines before `i`, in the shards before `j`. -/
structure Filled (st : State × Shards) (count : Nat → Nat) (j i : Nat) : Prop where
  /-- The metadata is only read. -/
  md_eq : st.1.md = md
  /-- The lists of the partitions are still empty. -/
  ends : ∀ p < ocfUserIoClassMax,
    (st.1.part p).lruHead = g.collisionEntries ∧ (st.1.part p).lruTail = g.collisionEntries
  /-- The counters. -/
  size : ∀ p < ocfUserIoClassMax, (st.1.part p).size + count p = countBelow (inPartition g md p) i
  /-- The chains of the shards. -/
  family : ∃ lists, Family g.collisionEntries st.1.links (fun k : Nat × Nat => st.2 k.1 k.2)
    (fun k => k.1 < j ∧ k.2 < ocfUserIoClassMax) (shardKey g md) (fun x => x < i ∧ Mapped md x ∧
      metadataTestDirty g md x = true) (fun x => x < i ∧ Mapped md x) lists

variable {g md}

theorem push_single (links : Nat → AlruMeta) (e : Nat × Nat) (x : Nat) (he : e.1 ≠ n) :
    push n (update links x ⟨n, n⟩) e x x = (setPrev (update links x ⟨n, e.1⟩) e.1 x, (x, e.2)) := by
  rw [push, if_neg he]
  refine Prod.ext (funext fun y => AlruMeta.ext ?_ ?_) rfl
  · rw [setNext_lruPrev, setPrev_lruPrev, setPrev_lruPrev]
    by_cases hyx : y = x <;> simp [hyx]
  · rw [setNext_lruNext, setPrev_lruNext, setPrev_lruNext]
    by_cases hyx : y = x <;> simp [hyx]

theorem shards_update (sh : Shards) (j p : Nat) (e : Nat × Nat) :
    (fun k : Nat × Nat => update sh j (update (sh j) p e) k.1 k.2) =
      update (fun k : Nat × Nat => sh k.1 k.2) (j, p) e := by
  funext ⟨a, b⟩
  by_cases ha : a = j
  · subst ha
    by_cases hb : b = p <;> simp [hb]
  · simp [ha]

/-- `add_alru_head_populate` puts a line before the chain of its shard and partition. -/
theorem addAlruHeadPopulate_eq (st : State × Shards) (shard p x : Nat) :
    addAlruHeadPopulate g st shard p x = ({ st.1 with links := (push g.collisionEntries
          (update st.1.links x ⟨g.collisionEntries, g.collisionEntries⟩) (st.2 shard p) x x).1 },
        update st.2 shard (update (st.2 shard) p (push g.collisionEntries
          (update st.1.links x ⟨g.collisionEntries, g.collisionEntries⟩) (st.2 shard p) x x).2)) := by
  rw [addAlruHeadPopulate]
  by_cases h : (st.2 shard p).1 = g.collisionEntries
  · rw [if_pos h, push, if_pos h]
  · rw [if_neg h, push_single st.1.links (st.2 shard p) x h]

/-- A line that is passed by a populate is on its list. -/
theorem Filled.line {st : (State × Shards) × (Nat → Nat)} (hin : InPartitions g md)
    (hlt : x < g.collisionEntries) (hj : x / portion g.collisionEntries ocfAlruFillShardsCnt = j)
    (h : Filled g md st.1 st.2 (j + 1) x) :
    Filled g md (populateLine g j st x).1 (populateLine g j st x).2 (j + 1) (x + 1) := by
  obtain ⟨lists, hfam⟩ := h.family
  have hsize : ∀ p < ocfUserIoClassMax, inPartition g md p x = false →
      (st.1.1.part p).size + st.2 p = countBelow (inPartition g md p) (x + 1) := by
    intro p hp hnot
    rw [h.size p hp, countBelow_succ, hnot]
    rfl
  have hlast : ∀ y, y < x + 1 → y ≠ x → y < x := by omega
  rw [populateLine, h.md_eq]
  by_cases hmap : (md.coreInfo x).1 = ocfCoreNum
  · -- an unmapped line is skipped
    have hnot : ∀ y, y < x + 1 → Mapped md y → y < x :=
      fun y hy hm => hlast y hy fun heq => hm (heq ▸ hmap)
    rw [if_pos hmap]
    refine ⟨h.md_eq, h.ends, fun p hp => hsize p hp (by simp [inPartition, hmap]), lists, ?_⟩
    refine hfam.congr (fun y => ?_) (fun _ _ => rfl) fun y hy _ => ⟨hnot y hy.1 hy.2, hy.2⟩
    exact ⟨fun hy => ⟨hnot y hy.1 hy.2.1, hy.2⟩, fun hy => ⟨Nat.lt_succ_of_lt hy.1, hy.2⟩⟩
  · rw [if_neg hmap]
    by_cases hdirty : metadataTestDirty g md x = true
    · have hp := hin x hlt hmap
      have hkey : shardKey g md x = (j, md.partitionId x) := Prod.ext hj rfl
      have hdom : (shardKey g md x).1 < j + 1 ∧ (shardKey g md x).2 < ocfUserIoClassMax := by
        rw [hkey]
        exact ⟨Nat.lt_succ_self j, hp⟩
      have hnw : ¬(x < x ∧ Mapped md x ∧ metadataTestDirty g md x = true) := fun hc => Nat.lt_irrefl x hc.1
      rw [if_neg (by simp [hdirty])]
      dsimp only
      rw [addAlruHeadPopulate_eq]
      have hadd := hfam.add (shardKey g md) hlt hnw hdom (fun _ _ => rfl) rfl rfl
      rw [hkey, ← shards_update] at hadd
      refine ⟨h.md_eq, h.ends, fun p hp => ?_, _, hadd.congr (fun y => ?_) (fun _ _ => rfl) fun y hy hny => ?_⟩
      · change (st.1.1.part p).size + (update st.2 _ _ p : Nat) = _
        have hs := h.size p hp
        rw [countBelow_succ]
        by_cases hpx : p = md.partitionId x
        · subst hpx
          have hone : inPartition g md (md.partitionId x) x = true := by simp [inPartition, hmap, hdirty]
          rw [update_self, hone, Bool.toNat_true]
          omega
        · have hzero : inPartition g md p x = false := by simp [inPartition, Ne.symm hpx]
          rw [update_of_ne hpx, hzero, Bool.toNat_false]
          omega
      · by_cases hyx : y = x
        · rw [hyx]
          exact ⟨fun _ => .inr rfl, fun _ => ⟨Nat.lt_succ_self x, hmap, hdirty⟩⟩
        · refine ⟨fun hy => .inl ⟨hlast y hy.1 hyx, hy.2⟩, fun hy => ?_⟩
          have hy := hy.resolve_right hyx
          exact ⟨Nat.lt_succ_of_lt hy.1, hy.2⟩
      · rw [not_or] at hny
        exact ⟨hlast y hy.1 hny.2, hy.2⟩
    · rw [Bool.not_eq_true] at hdirty
      have hnot : ∀ y, y < x + 1 → metadataTestDirty g md y = true → y < x := by
        refine fun y hy hd => hlast y hy fun heq => ?_
        rw [heq, hdirty] at hd
        exact Bool.false_ne_true hd
      rw [if_pos hdirty]
      refine ⟨h.md_eq, h.ends, fun p hp => hsize p hp (by simp [inPartition, hdirty]), lists, ?_⟩
      have hnw : ¬(x < x ∧ Mapped md x ∧ metadataTestDirty g md x = true) := fun hc => Nat.lt_irrefl x hc.1
      refine (hfam.clear hnw).congr (fun y => ?_) (fun _ _ => rfl) fun y hy _ => ?_
      · exact ⟨fun hy => ⟨hnot y hy.1 hy.2.2, hy.2⟩, fun hy => ⟨Nat.lt_succ_of_lt hy.1, hy.2⟩⟩
      · by_cases hyx : y = x
        · exact .inr hyx
        · exact .inl ⟨hlast y hy.1 hyx, hy.2⟩

/-- Bound of the lines of the first shards. -/
def shardEnd (g : Geometry) (j : Nat) : Nat := min (portion g.collisionEntries ocfAlruFillShardsCnt * j) g.collisionEntries

theorem shard_of_shardEnd {g : Geometry} (h : x < shardEnd g j) :
    x / portion g.collisionEntries ocfAlruFillShardsCnt < j :=
  shard_lt (Nat.lt_of_lt_of_le h (Nat.min_le_left ..))

theorem Filled.reset {i : Nat} (h : Filled g md st (fun _ => 0) j i) :
    Filled g md (st.1, resetShard g st.2 j) (fun _ => 0) (j + 1) i := by
  obtain ⟨lists, hfam⟩ := h.family
  have hends : ∀ k : Nat × Nat, k.1 < j ∧ k.2 < ocfUserIoClassMax → resetShard g st.2 j k.1 k.2 = st.2 k.1 k.2 := by
    intro k hk
    rw [resetShard, update_of_ne (Nat.ne_of_lt hk.1)]
  obtain ⟨lists', hfam'⟩ := hfam.extend (fun k => resetShard g st.2 j k.1 k.2)
    (fun k => k.1 < j + 1 ∧ k.2 < ocfUserIoClassMax)
    (fun k hk => ⟨Nat.lt_succ_of_lt hk.1, hk.2⟩) hends (by
      intro k hk hnot
      have hkj : k.1 = j := by
        by_contra hne
        exact hnot ⟨by omega, hk.2⟩
      rw [resetShard, hkj, update_self])
  exact ⟨h.md_eq, h.ends, h.size, lists', hfam'⟩

/-- `ocf_alru_populate_handle` for one shard. -/
theorem Filled.shard (hin : InPartitions g md) (h : Filled g md st (fun _ => 0) j (shardEnd g j)) :
    Filled g md (ocfAlruPopulateHandle g st j) (fun _ => 0) (j + 1) (shardEnd g (j + 1)) := by
  obtain ⟨r, hr⟩ : ∃ r, (shardLines g.collisionEntries ocfAlruFillShardsCnt j).foldl (populateLine g j)
      ((st.1, resetShard g st.2 j), fun _ => 0) = r := ⟨_, rfl⟩
  have hlines : Filled g md r.1 r.2 (j + 1) (shardEnd g (j + 1)) := by
    rw [← hr]
    refine shardLines_inv (fun i (t : (State × Shards) × (Nat → Nat)) => Filled g md t.1 t.2 (j + 1) i) h.reset ?_
    intro x t hle hlt hx ht
    exact ht.line hin hx (shard_eq hle hlt)
  obtain ⟨lists, hfam⟩ := hlines.family
  obtain ⟨hmd, hlinks, hpart⟩ := addSizes_spec r.1.1 r.2
  rw [ocfAlruPopulateHandle, hr]
  refine ⟨hmd.trans hlines.md_eq, fun p hp => ?_, fun p hp => ?_, lists, ?_⟩
  · rw [hpart p hp]
    exact hlines.ends p hp
  · rw [hpart p hp]
    simpa using hlines.size p hp
  · rw [hlinks]
    exact hfam

theorem filled_populate (s : State) (hmd : s.md = md) (hin : InPartitions g md) :
    Filled g md (forRange ocfAlruFillShardsCnt (ocfAlruPopulateHandle g) (resetParts g s, fun _ _ => (0, 0)))
      (fun _ => 0) ocfAlruFillShardsCnt g.collisionEntries := by
  have hall : shardEnd g ocfAlruFillShardsCnt = g.collisionEntries := portion_mul _ (by decide)
  rw [← hall]
  refine forRange_inv (fun j st => Filled g md st (fun _ => 0) j (shardEnd g j)) ?_ fun j st _ h => h.shard hin
  obtain ⟨hmd', hpart⟩ := resetParts_spec g s
  have hzero : shardEnd g 0 = 0 := by simp [shardEnd]
  refine ⟨hmd'.trans hmd, fun p hp => ?_, fun p hp => ?_, fun _ => [], ⟨?_, ?_, ?_, ?_⟩⟩
  · rw [hpart p hp]
    exact ⟨rfl, rfl⟩
  · rw [hpart p hp]
    rfl
  · exact fun k hk => absurd hk.1 (Nat.not_lt_zero k.1)
  · exact fun k hk => absurd hk.1 (Nat.not_lt_zero k.1)
  · exact fun x hx => absurd hx.1 (Nat.not_lt_zero x)
  · exact fun x hx => absurd hx.1 (Nat.not_lt_zero x)

/-- Where a line is while the finish merges the chains of the partition `p`,
the shards before `j` being merged. -/
def mergeKey (g : Geometry) (md : LineTable) (p j x : Nat) : Nat ⊕ Nat × Nat :=
  if md.partitionId x < p ∨ md.partitionId x = p ∧ (shardKey g md x).1 < j then .inl (md.partitionId x)
  else .inr (shardKey g md x)

/-- The chains that are left then. -/
def mergeDom (p j : Nat) : Nat ⊕ Nat × Nat → Prop
  | .inl q => q < ocfUserIoClassMax
  | .inr k => k.1 < ocfAlruFillShardsCnt ∧ k.2 < ocfUserIoClassMax ∧ (p < k.2 ∨ p = k.2 ∧ j ≤ k.1)

/-- The ends of the lists of the partitions and of the chains of the shards. -/
def mergeEnds (shards : Shards) (part : Nat → PartAlru) : Nat ⊕ Nat × Nat → Nat × Nat :=
  Sum.elim (endsOf part) fun k => shards k.1 k.2

/-- The state of the finish. -/
structure Merged (g : Geometry) (md : LineTable) (shards : Shards) (t : State) (p j : Nat) : Prop where
  /-- The metadata is only read. -/
  md_eq : t.md = md
  /-- The counters. -/
  size : ∀ q < ocfUserIoClassMax, (t.part q).size = countBelow (inPartition g md q) g.collisionEntries
  /-- The lists and the chains. -/
  family : ∃ lists, Family g.collisionEntries t.links (mergeEnds shards t.part) (mergeDom p j) (mergeKey g md p j)
    (Wanted g md) (Cared g md) lists

theorem Filled.merged
    (h : Filled g md st (fun _ => 0) ocfAlruFillShardsCnt g.collisionEntries) : Merged g md st.2 st.1 0 0 := by
  obtain ⟨lists, hfam⟩ := h.family
  have hkey : ∀ x, mergeKey g md 0 0 x = .inr (shardKey g md x) := by
    intro x
    rw [mergeKey, if_neg]
    omega
  refine ⟨h.md_eq, fun q hq => ?_, Sum.elim (fun _ => []) lists, ?_, ?_, fun x hx => ?_, hfam.off⟩
  · simpa using h.size q hq
  · rintro (q | k) hk
    · obtain ⟨hhead, htail⟩ := h.ends q hk
      change Chain _ _ (st.1.part q).lruHead (st.1.part q).lruTail []
      rw [hhead, htail]
      exact Chain.nil ..
    · exact hfam.chain k ⟨hk.1, hk.2.1⟩
  · rintro (q | k) hk x
    · rw [hkey]
      simp
    · rw [hkey, Sum.inr.injEq]
      exact hfam.mem k ⟨hk.1, hk.2.1⟩ x
  · rw [hkey]
    obtain ⟨h1, h2⟩ := hfam.dom_key x hx
    exact ⟨h1, h2, by omega⟩

theorem Merged.append {shards : Shards} {p : Nat} (h : Merged g md shards t p j)
    (hp : p < ocfUserIoClassMax) (hj : j < ocfAlruFillShardsCnt) :
    ∃ t', appendAlruHead g t p (shards j p).1 (shards j p).2 = some t' ∧ Merged g md shards t' p (j + 1) := by
  obtain ⟨lists, hfam⟩ := h.family
  have hk : mergeDom p j (.inr (j, p)) := ⟨hj, hp, .inr ⟨rfl, Nat.le_refl j⟩⟩
  have hi : mergeDom p j (.inl p) := hp
  have hdom : ∀ k, mergeDom p (j + 1) k ↔ mergeDom p j k ∧ k ≠ .inr (j, p) := by
    rintro (q | ⟨a, b⟩)
    · simp [mergeDom]
    · simp only [mergeDom, ne_eq, Sum.inr.injEq, Prod.mk.injEq]
      omega
  have hkey : ∀ x, Wanted g md x →
      mergeKey g md p (j + 1) x = if mergeKey g md p j x = .inr (j, p) then .inl p else mergeKey g md p j x := by
    intro x _
    have hpart : (shardKey g md x).2 = md.partitionId x := rfl
    by_cases hbefore : md.partitionId x < p ∨ md.partitionId x = p ∧ (shardKey g md x).1 < j
    · rw [mergeKey, if_pos (by omega), mergeKey, if_pos hbefore, if_neg Sum.inl_ne_inr]
    · have hold : mergeKey g md p j x = .inr (shardKey g md x) := by rw [mergeKey, if_neg hbefore]
      rw [hold, mergeKey]
      by_cases hthis : shardKey g md x = (j, p)
      · rw [hthis] at hpart
        rw [if_pos (by rw [hthis]; exact .inr ⟨hpart.symm, Nat.lt_succ_self j⟩), if_pos (by rw [hthis]), ← hpart]
      · rw [if_neg, if_neg fun hc => hthis (Sum.inr.inj hc)]
        intro hc
        refine hthis (Prod.ext ?_ ?_) <;> omega
  have hmerge := fun t' => hfam.merge (State.links t') (mergeEnds shards t'.part) (mergeDom p (j + 1))
    (mergeKey g md p (j + 1)) hi hk Sum.inl_ne_inr hdom hkey
  have hchain : Chain _ _ (shards j p).1 (shards j p).2 (lists (.inr (j, p))) := hfam.chain _ hk
  by_cases hhead : (shards j p).1 = g.collisionEntries
  · have htail : (shards j p).2 = g.collisionEntries := by
      rw [hchain.eq_nil hhead] at hchain
      exact hchain.tail_of_nil
    have hends : (mergeEnds shards t.part (.inr (j, p))).1 = g.collisionEntries := hhead
    exact ⟨t, by rw [appendAlruHead, if_pos ⟨hhead, htail⟩], h.md_eq, h.size, _,
      hmerge t (if_pos hends).symm (if_pos hends).symm fun _ _ _ => rfl⟩
  · have htail : (shards j p).2 ≠ g.collisionEntries := by
      intro hn
      have heq := hchain.tail_eq
      rw [hn, node_self] at heq
      have hmem := hchain.head_mem hhead
      rw [List.getLast?_eq_none_iff.mp heq.symm] at hmem
      exact List.not_mem_nil hmem
    have hends : ¬(mergeEnds shards t.part (.inr (j, p))).1 = g.collisionEntries := hhead
    refine ⟨_, appendAlruHead_eq g t hhead htail, h.md_eq, fun q hq => ?_, _,
      hmerge _ (if_neg hends).symm ?_ fun k _ hne => ?_⟩
    · have hs := h.size q hq
      dsimp only
      by_cases hqp : q = p
      · subst hqp
        rw [update_self]
        exact hs
      · rw [update_of_ne hqp]
        exact hs
    · rw [if_neg hends]
      change endsOf (update t.part p _) p = _
      rw [endsOf_update, update_self]
      rfl
    · cases k with
      | inl q =>
        have hqp : q ≠ p := fun hqp => hne (by rw [hqp])
        change endsOf (update t.part p _) q = endsOf t.part q
        rw [endsOf_update, update_of_ne hqp]
      | inr k => rfl

theorem Merged.next {shards : Shards} {p : Nat} (h : Merged g md shards t p ocfAlruFillShardsCnt) :
    Merged g md shards t (p + 1) 0 := by
  obtain ⟨lists, hfam⟩ := h.family
  have hall : shardEnd g ocfAlruFillShardsCnt = g.collisionEntries := portion_mul _ (by decide)
  have hkey : ∀ x, Wanted g md x → mergeKey g md (p + 1) 0 x = mergeKey g md p ocfAlruFillShardsCnt x := by
    intro x hx
    have hshard : (shardKey g md x).1 < ocfAlruFillShardsCnt := shard_of_shardEnd (hall.symm ▸ hx.1)
    have hiff : (md.partitionId x < p + 1 ∨ md.partitionId x = p + 1 ∧ (shardKey g md x).1 < 0) ↔
        (md.partitionId x < p ∨ md.partitionId x = p ∧ (shardKey g md x).1 < ocfAlruFillShardsCnt) := by omega
    simp only [mergeKey, hiff]
  have hdom : ∀ k, mergeDom (p + 1) 0 k ↔ mergeDom p ocfAlruFillShardsCnt k := by
    rintro (q | ⟨a, b⟩)
    · exact Iff.rfl
    · simp only [mergeDom]
      omega
  refine ⟨h.md_eq, h.size, lists, ?_⟩
  have hcongr := hfam.congr (fun _ => Iff.rfl) hkey fun _ hx _ => hx
  exact hcongr.restrict (fun k hk => (hdom k).mp hk) fun x hx => (hdom _).mpr (hcongr.dom_key x hx)

theorem Merged.holds {shards : Shards} (hin : InPartitions g md)
    (h : Merged g md shards t ocfUserIoClassMax 0) : ∃ lists, Holds g t lists := by
  obtain ⟨lists, hfam⟩ := h.family
  have hkey : ∀ x, Wanted g md x → mergeKey g md ocfUserIoClassMax 0 x = .inl (md.partitionId x) := by
    intro x hx
    rw [mergeKey, if_pos (.inl (hin x hx.1 hx.2.1))]
  have hnew : Family g.collisionEntries t.links (endsOf t.part) (· < ocfUserIoClassMax) md.partitionId
      (Wanted g md) (Cared g md) fun q => lists (.inl q) := by
    refine ⟨fun q hq => hfam.chain (.inl q) hq, fun q hq x => ?_, fun x hx => hin x hx.1 hx.2.1, hfam.off⟩
    rw [hfam.mem (.inl q) hq x]
    refine and_congr_right fun hx => ?_
    rw [hkey x hx, Sum.inl.injEq]
  have hmd := h.md_eq
  subst hmd
  refine ⟨fun q => lists (.inl q), hnew, fun x hx => hx.1, fun q hq => ?_⟩
  rw [h.size q hq, length_eq_countBelow (hnew.chain q hq).nodup fun x => ?_]
  rw [hnew.mem q hq x, inPartition, Wanted, Mapped]
  simp [and_assoc]

/-- `cleaning_policy_alru_populate` builds the lists of all dirty lines. -/
theorem populate_holds (s : State) (hin : InPartitions g s.md) :
    ∃ s' lists, cleaningPolicyAlruPopulate g s = some s' ∧ s'.md = s.md ∧ Holds g s' lists := by
  obtain ⟨st, hst⟩ : ∃ st, forRange ocfAlruFillShardsCnt (ocfAlruPopulateHandle g)
      (resetParts g s, fun _ _ => (0, 0)) = st := ⟨_, rfl⟩
  have hfilled := filled_populate s rfl hin
  rw [hst] at hfilled
  obtain ⟨s', hs', hend⟩ : ∃ s', ocfAlruFillFinish g st = some s' ∧
      Merged g s.md st.2 s' ocfUserIoClassMax 0 := by
    refine foldlM_range_some (fun p t => Merged g s.md st.2 t p 0) hfilled.merged fun p t hp ht => ?_
    obtain ⟨t', ht', hm⟩ := foldlM_range_some (fun j t => Merged g s.md st.2 t p j) ht
      (f := fun t j => appendAlruHead g t p (st.2 j p).1 (st.2 j p).2) fun j t hj ht => ht.append hp hj
    exact ⟨t', ht', hm.next⟩
  obtain ⟨lists, hl⟩ := hend.holds hin
  exact ⟨s', lists, by rw [cleaningPolicyAlruPopulate, cleaningPolicyAlruFill, hst, hs'], hend.md_eq, hl⟩

end Populate

section Prepopulate

variable {g : Geometry} {md : LineTable}

/-- What the shards of a prepopulate have cleared. -/
structure Blank (g : Geometry) (md : LineTable) (st : State × Shards) (j i : Nat) : Prop where
  /-- The metadata is not used. -/
  md_eq : st.1.md = md
  /-- The lists are empty. -/
  part : ∀ p < ocfUserIoClassMax, st.1.part p = ⟨0, g.collisionEntries, g.collisionEntries⟩
  /-- The lines before `i` have no links. -/
  links : ∀ x < i, st.1.links x = ⟨g.collisionEntries, g.collisionEntries⟩
  /-- The shards before `j` have no chains. -/
  shards : ∀ k < j, ∀ p, st.2 k p = (g.collisionEntries, g.collisionEntries)

/-- `ocf_alru_prepopulate_handle` for one shard. -/
theorem Blank.shard (h : Blank g md st j (shardEnd g j)) :
    Blank g md (ocfAlruPrepopulateHandle g st j) (j + 1) (shardEnd g (j + 1)) := by
  have hlines : Blank g md ((shardLines g.collisionEntries ocfAlruFillShardsCnt j).foldl
      (cleaningPolicyAlruInitCacheBlock g) st.1, st.2) j (shardEnd g (j + 1)) := by
    refine shardLines_inv (fun i t => Blank g md (t, st.2) j i) h fun x t _ _ _ ht => ?_
    refine ⟨ht.md_eq, ht.part, fun y hy => ?_, ht.shards⟩
    change update t.links x _ y = _
    by_cases hyx : y = x
    · rw [hyx, update_self]
    · rw [update_of_ne hyx]
      exact ht.links y (by omega)
  refine ⟨hlines.md_eq, hlines.part, hlines.links, fun k hk p => ?_⟩
  change resetShard g st.2 j k p = _
  by_cases hkj : k = j
  · rw [resetShard, hkj, update_self]
  · rw [resetShard, update_of_ne hkj]
    exact h.shards k (by omega) p

/-- `cleaning_policy_alru_prepopulate` leaves empty lists and lines without links. -/
theorem prepopulate_tracks (g : Geometry) (s : State) :
    ∃ s', cleaningPolicyAlruPrepopulate g s = some s' ∧ s'.md = s.md ∧
      Tracks g s' s.md.partitionId (fun _ => False) (· < g.collisionEntries) fun _ => [] := by
  obtain ⟨st, hst⟩ : ∃ st, forRange ocfAlruFillShardsCnt (ocfAlruPrepopulateHandle g)
      (resetParts g s, fun _ _ => (0, 0)) = st := ⟨_, rfl⟩
  have hall : shardEnd g ocfAlruFillShardsCnt = g.collisionEntries := portion_mul _ (by decide)
  have hblank : Blank g s.md st ocfAlruFillShardsCnt g.collisionEntries := by
    rw [← hst, ← hall]
    refine forRange_inv (fun j st => Blank g s.md st j (shardEnd g j)) ?_ fun j st _ h => h.shard
    obtain ⟨hmd, hpart⟩ := resetParts_spec g s
    have hzero : shardEnd g 0 = 0 := by simp [shardEnd]
    exact ⟨hmd, hpart, fun x hx => absurd hx (Nat.not_lt_zero x), fun k hk => absurd hk (Nat.not_lt_zero k)⟩
  have hfinish : ocfAlruFillFinish g st = some st.1 := by
    obtain ⟨s', hs', heq⟩ := foldlM_range_some (fun _ t => t = st.1) (s := st.1) rfl
      (n := ocfUserIoClassMax) (f := fun t p => (List.range ocfAlruFillShardsCnt).foldlM
        (fun t k => appendAlruHead g t p (st.2 k p).1 (st.2 k p).2) t) fun p t _ ht => by
      refine foldlM_range_some (fun _ t => t = st.1) ht fun k t hk ht => ⟨t, ?_, ht⟩
      rw [hblank.shards k hk p, appendAlruHead, if_pos ⟨rfl, rfl⟩]
    exact hs'.trans (congrArg some heq)
  refine ⟨st.1, ?_, hblank.md_eq, ⟨⟨fun p hp => ?_, ?_, ?_, ?_⟩, fun x hx => hx, fun p hp => ?_⟩⟩
  · rw [cleaningPolicyAlruPrepopulate, cleaningPolicyAlruFill, hst, hfinish]
  · rw [endsOf, hblank.part p hp]
    exact Chain.nil ..
  · exact fun p _ x => by simp
  · exact fun x hx => hx.elim
  · exact fun x hx _ => hblank.links x hx
  · rw [hblank.part p hp]
    rfl

end Prepopulate

section Update

variable {g : Geometry}

/-- The hash buckets hold exactly the mapped lines. -/
structure InBuckets (g : Geometry) (md : LineTable) : Prop where
  /-- A line of a bucket exists and is mapped. -/
  cared : ∀ hash < g.hashEntries, ∀ x ∈ md.hash hash, Cared g md x
  /-- A mapped line is in a bucket. -/
  covered : ∀ x, Cared g md x → ∃ hash < g.hashEntries, x ∈ md.hash hash

theorem updateBucket_tracks {s : State} {want : Nat → Prop} {lists : Nat → List Nat} {xs : List Nat}
    (hin : InPartitions g s.md) (hxs : ∀ x ∈ xs, Cared g s.md x) (hmd : t.md = s.md)
    (h : Tracks g t s.md.partitionId want (· < g.collisionEntries) lists) :
    ∃ t' lists', xs.foldlM (fun t x =>
        if metadataTestDirty g t.md x then cleaningPolicyAlruSetHotCacheLine g t x else some t) t = some t' ∧
      t'.md = s.md ∧ Tracks g t' s.md.partitionId (fun x => want x ∨ metadataTestDirty g s.md x = true ∧ x ∈ xs)
        (· < g.collisionEntries) lists' := by
  obtain ⟨t', ht', hmd', lists', htr⟩ := foldlM_done_some (s := t)
    (f := fun t x => if metadataTestDirty g t.md x then cleaningPolicyAlruSetHotCacheLine g t x else some t)
    (fun done t => t.md = s.md ∧ ∃ lists, Tracks g t s.md.partitionId
      (fun x => want x ∨ metadataTestDirty g s.md x = true ∧ x ∈ done) (· < g.collisionEntries) lists)
    ⟨hmd, lists, h.congr (fun x => by simp) (fun _ _ => rfl) (fun x hx => ⟨hx, fun _ => hx⟩) t.md⟩ (by
      rintro done x t hx ⟨hmd, lists, ht⟩
      obtain ⟨hlt, hmap⟩ := hxs x hx
      rw [hmd]
      by_cases hdirty : metadataTestDirty g s.md x = true
      · have hp : t.md.partitionId x < ocfUserIoClassMax := hmd ▸ hin x hlt hmap
        have hkey := congrArg LineTable.partitionId hmd
        rw [← hkey] at ht
        obtain ⟨t', lists', ht', hmd', htr⟩ := ht.setHot hp hlt
        rw [hkey] at htr
        rw [if_pos hdirty]
        refine ⟨t', ht', hmd'.trans hmd, lists', htr.congr (fun y => ?_) (fun _ _ => rfl)
          (fun y hy => ⟨hy, fun _ => hy⟩) t'.md⟩
        by_cases hyx : y = x <;> simp [hyx, hdirty]
      · rw [if_neg hdirty]
        refine ⟨t, rfl, hmd, lists, ht.congr (fun y => ?_) (fun _ _ => rfl) (fun y hy => ⟨hy, fun _ => hy⟩) t.md⟩
        rw [List.mem_append, List.mem_singleton]
        by_cases hyx : y = x <;> simp [hyx, hdirty])
  exact ⟨t', lists', ht', hmd', htr⟩

/-- The walk over the buckets puts every dirty line on the list of its
partition, whatever lines are on the lists before. -/
theorem update_tracks {s : State} {want : Nat → Prop} {lists : Nat → List Nat} (hin : InPartitions g s.md)
    (hb : InBuckets g s.md) (h : Tracks g s s.md.partitionId want (· < g.collisionEntries) lists) :
    ∃ s' lists', cleaningPolicyAlruUpdate g s = some s' ∧ s'.md = s.md ∧
      Tracks g s' s.md.partitionId (fun x => want x ∨ Wanted g s.md x) (· < g.collisionEntries) lists' := by
  obtain ⟨s', hs', hmd, lists', htr⟩ := foldlM_range_some (n := g.hashEntries) (s := s)
    (f := fun t hash => (t.md.hash hash).foldlM (fun t x =>
      if metadataTestDirty g t.md x then cleaningPolicyAlruSetHotCacheLine g t x else some t) t)
    (fun k t => t.md = s.md ∧ ∃ lists, Tracks g t s.md.partitionId
      (fun x => want x ∨ metadataTestDirty g s.md x = true ∧ ∃ hash < k, x ∈ s.md.hash hash)
      (· < g.collisionEntries) lists)
    ⟨rfl, lists, h.congr (fun x => by simp) (fun _ _ => rfl) (fun x hx => ⟨hx, fun _ => hx⟩) s.md⟩ (by
      rintro k t hk ⟨hmd, lists, ht⟩
      rw [hmd]
      obtain ⟨t', lists', ht', hmd', htr⟩ := updateBucket_tracks hin (hb.cared k hk) hmd ht
      refine ⟨t', ht', hmd', lists', htr.congr (fun y => ?_) (fun _ _ => rfl) (fun y hy => ⟨hy, fun _ => hy⟩) t'.md⟩
      rw [or_assoc, ← and_or_left]
      refine or_congr_right (and_congr_right fun _ => ?_)
      constructor
      · rintro ⟨hash, hlt, hy⟩
        by_cases heq : hash = k
        · exact .inr (heq ▸ hy)
        · exact .inl ⟨hash, by omega, hy⟩
      · rintro (⟨hash, hlt, hy⟩ | hy)
        · exact ⟨hash, by omega, hy⟩
        · exact ⟨k, Nat.lt_succ_self k, hy⟩)
  refine ⟨s', lists', hs', hmd, htr.congr (fun x => ?_) (fun _ _ => rfl) (fun x hx => ⟨hx, fun _ => hx⟩) s'.md⟩
  refine or_congr_right ⟨fun hx => ⟨hx.2.2, hb.covered x ⟨hx.1, hx.2.1⟩⟩, fun ⟨hd, hash, hlt, hx⟩ => ?_⟩
  have hc := hb.cared hash hlt x hx
  exact ⟨hc.1, hc.2, hd⟩

theorem prepopulate_update_holds (s : State) (hin : InPartitions g s.md) (hb : InBuckets g s.md) :
    ∃ t s' lists, cleaningPolicyAlruPrepopulate g s = some t ∧ cleaningPolicyAlruUpdate g t = some s' ∧
      s'.md = s.md ∧ Holds g s' lists := by
  obtain ⟨t, ht, hmd, htr⟩ := prepopulate_tracks g s
  rw [← hmd] at hin hb htr
  obtain ⟨s', lists, hs', hmd', htr'⟩ := update_tracks hin hb htr
  refine ⟨t, s', lists, ht, hs', hmd'.trans hmd, ?_⟩
  rw [Holds, hmd']
  exact htr'.congr (fun x => by simp) (fun _ _ => rfl) (fun x hx => ⟨hx.1, fun _ => hx.1⟩) s'.md

end Update

end OcfCache.Alru
