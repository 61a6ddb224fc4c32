import OcfCache.AcpPopulate
import OcfCache.AlruRuns
import OcfCache.CleaningSwitch

/-!
# What a cleaning policy tracks

The lines that a policy tracks are the ones on its lists, or the ones with its
flag. The callbacks are described for any policy by the lines that are tracked
before and behind them; a change of the metadata that leaves the tracked lines
alone does not matter to the policy.
-/

namespace OcfCache.CleaningSwitch

open Function Metadata Loops CacheLine
open Alru (Cared Wanted Mapped)

/-- The mapped lines belong to cores and partitions, and the buckets hold them. -/
structure MdOk (cfg : Acp.Config) (c : Cache) : Prop where
  /-- There are buckets. -/
  hash_pos : 0 < cfg.geometry.hashEntries
  /-- Partitions of the mapped lines. -/
  inPartitions : Alru.InPartitions cfg.geometry c.md
  /-- Cores of the mapped lines. -/
  attached : Acp.Attached cfg c.acpState
  /-- A mapped line is in its bucket. -/
  inBucket : ∀ x, Cared cfg.geometry c.md x → x ∈ c.md.hash (bucketOf cfg.geometry c.md x)
  /-- A line in a bucket is mapped to it. -/
  cared : ∀ hash < cfg.geometry.hashEntries, ∀ x ∈ c.md.hash hash,
    Cared cfg.geometry c.md x ∧ bucketOf cfg.geometry c.md x = hash
  /-- A line is in a bucket once. -/
  nodup : ∀ hash < cfg.geometry.hashEntries, (c.md.hash hash).Nodup

theorem MdOk.bucket_lt {cfg : Acp.Config} {c : Cache} (h : MdOk cfg c) (core coreLine : Nat) :
    ocfMetadataHashFunc cfg.geometry coreLine core < cfg.geometry.hashEntries :=
  Nat.mod_lt _ h.hash_pos

/-- The policy of the cache tracks the lines `T`. -/
def PolicyTracks (cfg : Acp.Config) (c : Cache) (T : Nat → Prop) : Prop :=
  match c.policy with
  | .nop => True
  | .alru => ∃ lists, Alru.Tracks cfg.geometry c.alruState c.md.partitionId T (Cared cfg.geometry c.md) lists
  | .acp => Acp.Inv cfg c.acpState ∧ (∀ core < ocfCoreNum, c.acp.allocated core = c.added core) ∧
    ∀ x < cfg.geometry.collisionEntries, c.acpDirty x = true ↔ T x

/-- Only the contents of the policy and the metadata differ. -/
structure Kept (c c' : Cache) : Prop where
  /-- Cores. -/
  added : c'.added = c.added
  /-- Their lengths. -/
  length : c'.length = c.length
  /-- The policy. -/
  policy : c'.policy = c.policy
  /-- Its context. -/
  context : c'.context = c.context
  /-- The cleaner counter. -/
  freeze : c'.freeze = c.freeze
  /-- A frozen policy is left alone. -/
  frozen : c.freeze ≠ 0 → c' = { c with md := c'.md }

theorem Kept.refl (c : Cache) (md : LineTable) : Kept c { c with md } := ⟨rfl, rfl, rfl, rfl, rfl, fun _ => rfl⟩

theorem Kept.trans {c c' c'' : Cache} (h : Kept c c') (h' : Kept c' c'') : Kept c c'' where
  added := h'.added.trans h.added
  length := h'.length.trans h.length
  policy := h'.policy.trans h.policy
  context := h'.context.trans h.context
  freeze := h'.freeze.trans h.freeze
  frozen := by
    intro hf
    have h1 := h.frozen hf
    have h2 := h'.frozen (h.freeze ▸ hf)
    rw [h1] at h2
    exact h2

section Frames

variable {cfg : Acp.Config} {c c' : Cache} {x : Nat}

variable {g : Geometry} {s s' : Alru.State}

theorem removeAlruList_md {p : Nat} (h : Alru.removeAlruList g s p x = some s') : s'.md = s.md := by
  rw [Alru.removeAlruList] at h
  repeat' split at h
  all_goals first
    | cases h; rfl
    | cases h

theorem addAlruHead_md {p : Nat} (h : Alru.addAlruHead g s p x = some s') : s'.md = s.md := by
  rw [Alru.addAlruHead] at h
  split at h
  · cases h
  · obtain ⟨t, ht, rfl⟩ := Option.map_eq_some_iff.mp h
    rw [Alru.appendAlruHead] at ht
    repeat' split at ht
    all_goals first
      | cases ht; rfl
      | cases ht

theorem alruSetHot_md
    (h : Alru.cleaningPolicyAlruSetHotCacheLine g s x = some s') : s'.md = s.md := by
  obtain ⟨t, ht, hadd⟩ := Option.bind_eq_some_iff.mp h
  rw [addAlruHead_md hadd]
  split at ht
  · exact removeAlruList_md ht
  · cases ht
    rfl

theorem acpSetFlag_frame {s s' : Acp.State} {flag : Bool} {count : Nat → Nat}
    (h : Acp.setFlag cfg flag count s x = some s') : s'.md = s.md ∧ s'.added = s.added ∧ s'.length = s.length := by
  obtain ⟨chunk, -, h⟩ := Option.bind_eq_some_iff.mp h
  obtain ⟨acp, -, h⟩ := Option.bind_eq_some_iff.mp h
  cases h
  rw [Acp.countFlag]
  split <;> exact ⟨rfl, rfl, rfl⟩

theorem kept_setAlru (c : Cache) {s : Alru.State} (hmd : s.md = c.md) (hf : c.freeze = 0) :
    Kept c (c.setAlru s) ∧ (c.setAlru s).md = c.md :=
  ⟨⟨rfl, rfl, rfl, rfl, rfl, fun hc => absurd hf hc⟩, hmd⟩

theorem kept_setAcp (c : Cache) {s : Acp.State} (h : s.md = c.md ∧ s.added = c.added ∧ s.length = c.length)
    (hf : c.freeze = 0) : Kept c (c.setAcp s) ∧ (c.setAcp s).md = c.md :=
  ⟨⟨h.2.1, h.2.2, rfl, rfl, rfl, fun hc => absurd hf hc⟩, h.1⟩

/-- `ocf_cleaning_set_hot_cache_line` changes the policy only. -/
theorem setHot_kept (h : ocfCleaningSetHotCacheLine cfg c x = some c') : Kept c c' ∧ c'.md = c.md := by
  rw [ocfCleaningSetHotCacheLine] at h
  split at h
  · cases h
    exact ⟨.refl c c.md, rfl⟩
  next hf =>
    have hf := not_not.mp hf
    split at h
    · cases h
      exact ⟨.refl c c.md, rfl⟩
    · obtain ⟨s, hs, rfl⟩ := Option.map_eq_some_iff.mp h
      exact kept_setAlru c (alruSetHot_md hs) hf
    · obtain ⟨s, hs, rfl⟩ := Option.map_eq_some_iff.mp h
      exact kept_setAcp c (acpSetFlag_frame hs) hf

/-- `ocf_cleaning_purge_cache_block` changes the policy only. -/
theorem purge_kept (h : ocfCleaningPurgeCacheBlock cfg c x = some c') : Kept c c' ∧ c'.md = c.md := by
  rw [ocfCleaningPurgeCacheBlock] at h
  split at h
  · cases h
    exact ⟨.refl c c.md, rfl⟩
  next hf =>
    have hf := not_not.mp hf
    split at h
    · cases h
      exact ⟨.refl c c.md, rfl⟩
    · obtain ⟨s, hs, rfl⟩ := Option.map_eq_some_iff.mp h
      exact kept_setAlru c (removeAlruList_md hs) hf
    · obtain ⟨s, hs, rfl⟩ := Option.map_eq_some_iff.mp h
      exact kept_setAcp c (acpSetFlag_frame hs) hf

/-- `ocf_cleaning_init_cache_block` changes the policy only. -/
theorem initCacheBlock_kept (cfg : Acp.Config) (c : Cache) (x : Nat) :
    Kept c (ocfCleaningInitCacheBlock cfg c x) ∧ (ocfCleaningInitCacheBlock cfg c x).md = c.md := by
  rw [ocfCleaningInitCacheBlock]
  split
  · exact ⟨.refl c c.md, rfl⟩
  next hf =>
    have hf := not_not.mp hf
    split
    · exact ⟨.refl c c.md, rfl⟩
    · exact kept_setAlru c rfl hf
    · exact kept_setAcp c ⟨rfl, rfl, rfl⟩ hf

end Frames

section Tracking

variable {cfg : Acp.Config} {c c' : Cache} {x : Nat} {T T' : Nat → Prop}

theorem policy_cases (c : Cache) : c.policy = .nop ∨ c.policy = .alru ∨ c.policy = .acp := by
  cases c.policy <;> simp

theorem policyTracks_nop (hp : c.policy = .nop) : PolicyTracks cfg c T := by
  simp only [PolicyTracks, hp]

theorem policyTracks_alru (hp : c.policy = .alru) : PolicyTracks cfg c T ↔
    ∃ lists, Alru.Tracks cfg.geometry c.alruState c.md.partitionId T (Cared cfg.geometry c.md) lists := by
  simp only [PolicyTracks, hp]

theorem policyTracks_acp (hp : c.policy = .acp) : PolicyTracks cfg c T ↔ Acp.Inv cfg c.acpState ∧
    (∀ core < ocfCoreNum, c.acp.allocated core = c.added core) ∧
    ∀ x < cfg.geometry.collisionEntries, c.acpDirty x = true ↔ T x := by
  simp only [PolicyTracks, hp]

theorem PolicyTracks.congr (h : PolicyTracks cfg c T) (hT : ∀ x, T' x ↔ T x) : PolicyTracks cfg c T' := by
  have heq : T' = T := funext fun x => propext (hT x)
  rw [heq]
  exact h

theorem MdOk.allocated (hok : MdOk cfg c) (ha : ∀ core < ocfCoreNum, c.acp.allocated core = c.added core)
    (hc : Cared cfg.geometry c.md x) : c.acp.allocated (c.md.coreInfo x).1 = true := by
  obtain ⟨hlt, hadded, -⟩ := hok.attached.inCore x hc.1 hc.2
  exact (ha _ hlt).trans hadded

theorem acpSetFlag_tracks (hok : MdOk cfg c) (hp : c.policy = .acp) (h : PolicyTracks cfg c T)
    (hc : Cared cfg.geometry c.md x) {flag : Bool} {count : Nat → Nat} (hcount : Acp.Follows cfg flag count) :
    ∃ s', Acp.setFlag cfg flag count c.acpState x = some s' ∧ s'.md = c.md ∧ s'.added = c.added ∧
      s'.length = c.length ∧ PolicyTracks cfg (c.setAcp s') fun y => if y = x then flag = true else T y := by
  obtain ⟨hinv, ha, hflag⟩ := (policyTracks_acp hp).mp h
  obtain ⟨s', hs', hinv', hsame, hdirty⟩ := Acp.setFlag_spec hinv hc.1 (hok.allocated ha hc) hcount
  refine ⟨s', hs', hsame.md, hsame.added, hsame.length, (policyTracks_acp (c := c.setAcp s') hp).mpr
    ⟨hinv', fun core hcore => ?_, fun y hy => ?_⟩⟩
  · change s'.acp.allocated core = s'.added core
    rw [hsame.shape.allocated, hsame.added]
    exact ha core hcore
  · change s'.acpDirty y = true ↔ _
    rw [hdirty, update_apply]
    change (if y = x then flag else c.acpDirty y) = true ↔ _
    split
    · exact Iff.rfl
    · exact hflag y hy

/-- `ocf_cleaning_set_hot_cache_line` makes the policy track a line. -/
theorem PolicyTracks.setHot (h : PolicyTracks cfg c T) (hok : MdOk cfg c) (hf : c.freeze = 0)
    (hc : Cared cfg.geometry c.md x) :
    ∃ c', ocfCleaningSetHotCacheLine cfg c x = some c' ∧ PolicyTracks cfg c' fun y => T y ∨ y = x := by
  rw [ocfCleaningSetHotCacheLine, if_neg (not_not.mpr hf)]
  cases hp : c.policy with
  | nop => exact ⟨c, rfl, policyTracks_nop hp⟩
  | alru =>
    obtain ⟨lists, hl⟩ := (policyTracks_alru hp).mp h
    obtain ⟨s', lists', hs', hmd, htr⟩ := hl.setHot (hok.inPartitions x hc.1 hc.2) hc
    refine ⟨c.setAlru s', by dsimp only; rw [hs']; rfl, (policyTracks_alru (c := c.setAlru s') hp).mpr ⟨lists', ?_⟩⟩
    change Alru.Tracks _ s' s'.md.partitionId _ (Cared cfg.geometry s'.md) lists'
    rw [hmd]
    exact htr
  | acp =>
    obtain ⟨s', hs', -, -, -, htr⟩ := acpSetFlag_tracks hok hp h hc (Acp.follows_inc cfg)
    refine ⟨c.setAcp s', by dsimp only; rw [Acp.cleaningPolicyAcpSetHotCacheLine, hs']; rfl, htr.congr fun y => ?_⟩
    by_cases hyx : y = x <;> simp [hyx]

/-- `ocf_cleaning_purge_cache_block` makes the policy forget a line. -/
theorem PolicyTracks.purge (h : PolicyTracks cfg c T) (hok : MdOk cfg c) (hf : c.freeze = 0)
    (hc : Cared cfg.geometry c.md x) :
    ∃ c', ocfCleaningPurgeCacheBlock cfg c x = some c' ∧ PolicyTracks cfg c' fun y => T y ∧ y ≠ x := by
  rw [ocfCleaningPurgeCacheBlock, if_neg (not_not.mpr hf)]
  cases hp : c.policy with
  | nop => exact ⟨c, rfl, policyTracks_nop hp⟩
  | alru =>
    obtain ⟨lists, hl⟩ := (policyTracks_alru hp).mp h
    obtain ⟨s', lists', hs', hmd, htr⟩ := hl.purge (hok.inPartitions x hc.1 hc.2) hc
    refine ⟨c.setAlru s', by dsimp only; rw [hs']; rfl, (policyTracks_alru (c := c.setAlru s') hp).mpr ⟨lists', ?_⟩⟩
    change Alru.Tracks _ s' s'.md.partitionId _ (Cared cfg.geometry s'.md) lists'
    rw [hmd]
    exact htr
  | acp =>
    obtain ⟨s', hs', -, -, -, htr⟩ := acpSetFlag_tracks hok hp h hc (Acp.follows_dec cfg)
    refine ⟨c.setAcp s', by dsimp only; rw [Acp.cleaningPolicyAcpPurgeBlock, hs']; rfl, htr.congr fun y => ?_⟩
    by_cases hyx : y = x <;> simp [hyx]

variable {md : LineTable}

theorem acpInv_withMd (h : Acp.Inv cfg c.acpState) {flags : Nat → Bool}
    (hatt : Acp.Attached cfg { c.acpState with md })
    (hflags : ∀ x < cfg.geometry.collisionEntries, flags x = c.acpDirty x)
    (hinfo : ∀ x < cfg.geometry.collisionEntries, c.acpDirty x = true → md.coreInfo x = c.md.coreInfo x) :
    Acp.Inv cfg { c.acpState with md, acpDirty := flags } := by
  refine ⟨h.accounted.of_counts rfl fun key _ => countBelow_congr fun y hy => ?_, hatt.unique, fun y hy hal => ?_,
    h.placed.core_lt, h.placed.numChunks_eq, h.placed.chunksTotal_eq, h.placed.threshold_eq⟩
  · change (decide (Acp.acpGetChunk cfg md y = key) && flags y) =
      (decide (Acp.acpGetChunk cfg c.md y = key) && c.acpDirty y)
    rw [hflags y hy]
    cases hd : c.acpDirty y with
    | false => simp
    | true => rw [Acp.acpGetChunk, hinfo y hy hd, Acp.acpGetChunk]
  · have hlt := h.placed.core_lt _ hal
    exact (hatt.inCore y hy (Nat.ne_of_lt hlt)).2.2

theorem PolicyTracks.withMd (h : PolicyTracks cfg c T) (hatt : Acp.Attached cfg { c.acpState with md })
    (hT : ∀ x, T x → md.coreInfo x = c.md.coreInfo x ∧ md.partitionId x = c.md.partitionId x)
    (hcare : ∀ x, Cared cfg.geometry md x → Cared cfg.geometry c.md x) : PolicyTracks cfg { c with md } T := by
  obtain hp | hp | hp := policy_cases c
  · exact policyTracks_nop hp
  · obtain ⟨lists, hl⟩ := (policyTracks_alru hp).mp h
    refine (policyTracks_alru (c := { c with md }) hp).mpr ⟨lists, ?_⟩
    exact hl.congr (fun _ => Iff.rfl) (fun y hy => (hT y hy).2) (fun y hy => ⟨hy.1, fun _ => hcare y hy⟩) md
  · obtain ⟨hinv, ha, hflag⟩ := (policyTracks_acp hp).mp h
    refine (policyTracks_acp (c := { c with md }) hp).mpr ⟨?_, ha, hflag⟩
    exact acpInv_withMd hinv hatt (fun _ _ => rfl) fun y hy hd => (hT y ((hflag y hy).mp hd)).1

/-- `ocf_cleaning_init_cache_block` of ALRU. -/
theorem initCacheBlock_alru (hf : c.freeze = 0) (hp : c.policy = .alru) : ocfCleaningInitCacheBlock cfg c x =
    c.setAlru (Alru.cleaningPolicyAlruInitCacheBlock cfg.geometry c.alruState x) := by
  rw [ocfCleaningInitCacheBlock, if_neg (not_not.mpr hf), hp]

/-- `ocf_cleaning_init_cache_block` of ACP. -/
theorem initCacheBlock_acp (hf : c.freeze = 0) (hp : c.policy = .acp) : ocfCleaningInitCacheBlock cfg c x =
    c.setAcp (Acp.cleaningPolicyAcpInitCacheBlock c.acpState x) := by
  rw [ocfCleaningInitCacheBlock, if_neg (not_not.mpr hf), hp]

theorem PolicyTracks.map (h : PolicyTracks cfg c T) (hf : c.freeze = 0)
    (hatt : Acp.Attached cfg { c.acpState with md }) (hlt : x < cfg.geometry.collisionEntries) (hx : ¬T x)
    (hother : ∀ y, y ≠ x → md.coreInfo y = c.md.coreInfo y ∧ md.partitionId y = c.md.partitionId y) :
    PolicyTracks cfg (ocfCleaningInitCacheBlock cfg { c with md } x) T := by
  have hne : ∀ y, T y → y ≠ x := fun y hy heq => hx (heq ▸ hy)
  obtain hp | hp | hp := policy_cases c
  · refine policyTracks_nop ?_
    rw [(initCacheBlock_kept cfg { c with md } x).1.policy]
    exact hp
  · obtain ⟨lists, hl⟩ := (policyTracks_alru hp).mp h
    rw [initCacheBlock_alru (c := { c with md }) hf hp]
    refine (policyTracks_alru (by exact hp)).mpr ⟨lists, ?_⟩
    refine (hl.initCacheBlock hlt hx).congr (fun _ => Iff.rfl) (fun y hy => (hother y (hne y hy)).2)
      (fun y hy => ⟨hy.1, fun _ => ?_⟩) md
    by_cases hyx : y = x
    · exact .inr hyx
    · refine .inl ⟨hy.1, ?_⟩
      have hm : (md.coreInfo y).1 ≠ ocfCoreNum := hy.2
      rw [(hother y hyx).1] at hm
      exact hm
  · obtain ⟨hinv, ha, hflag⟩ := (policyTracks_acp hp).mp h
    have hoff : c.acpDirty x = false := by
      rw [← Bool.not_eq_true]
      exact fun hc => hx ((hflag x hlt).mp hc)
    have hclear : ∀ y < cfg.geometry.collisionEntries, update c.acpDirty x false y = c.acpDirty y := by
      intro y hy
      by_cases hyx : y = x
      · rw [hyx, update_self, hoff]
      · rw [update_of_ne hyx]
    rw [initCacheBlock_acp (c := { c with md }) hf hp]
    refine (policyTracks_acp (by exact hp)).mpr ⟨?_, ha, fun y hy => ?_⟩
    · exact acpInv_withMd hinv hatt hclear fun y hy hd => (hother y (hne y ((hflag y hy).mp hd))).1
    · change update c.acpDirty x false y = true ↔ T y
      rw [hclear y hy]
      exact hflag y hy

end Tracking

end OcfCache.CleaningSwitch
