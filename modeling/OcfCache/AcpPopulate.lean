import Mathlib.Algebra.Order.BigOperators.Group.Finset
import OcfCache.AcpRuns

/-!
# Starting the ACP cleaning policy

The two ways in which the policy starts on a cache: the populate handler
counts the dirty lines shard by shard and sorts the chunks into buckets from
scratch, and the prepopulate handler clears the flags and leaves the counting
to the callbacks. After the second the accounting is exact. After the first
the counts are, but a chunk is in its bucket only if its count is a multiple
of the bucket width.
-/

namespace OcfCache.Acp

open Function Metadata Loops Runs

/-- A cache whose mapped lines belong to its cores, before the policy starts. -/
structure Attached (cfg : Config) (s : State) : Prop where
  /-- A core line is mapped at most once. -/
  unique : ∀ line line', line < cfg.geometry.collisionEntries → line' < cfg.geometry.collisionEntries →
    (s.md.coreInfo line).1 < ocfCoreNum → s.md.coreInfo line = s.md.coreInfo line' → line = line'
  /-- A mapped line is a line of a core. -/
  inCore : ∀ line, line < cfg.geometry.collisionEntries → (s.md.coreInfo line).1 ≠ ocfCoreNum →
    (s.md.coreInfo line).1 < ocfCoreNum ∧ s.added (s.md.coreInfo line).1 = true ∧
      (s.md.coreInfo line).2 * cfg.lineSize < s.length (s.md.coreInfo line).1

/-- The context right after `cleaning_policy_acp_initialize`. -/
structure Fresh (cfg : Config) (s : State) : Prop where
  /-- Mapped lines belong to cores. -/
  attached : Attached cfg s
  /-- Facts about the mapping. -/
  placed : Placed cfg s
  /-- The chunks are on the list of the first bucket. -/
  listed : Listed s.acp
  /-- The chunks are empty. -/
  chunk_eq : ∀ key chunk, s.acp.chunk key = some chunk → chunk = ⟨0, 0⟩
  /-- The cores have chunks. -/
  allocated_eq : ∀ core < ocfCoreNum, s.acp.allocated core = s.added core

/-- The context while the cores are loaded. -/
structure Loading (cfg : Config) (s : State) (j : Nat) (t : State) : Prop where
  /-- Metadata. -/
  md : t.md = s.md
  /-- Cores. -/
  added : t.added = s.added
  /-- Their lengths. -/
  length : t.length = s.length
  /-- Facts about the mapping. -/
  placed : Placed cfg t
  /-- Lists. -/
  listed : Listed t.acp
  /-- The chunks are empty. -/
  chunk_eq : ∀ key chunk, t.acp.chunk key = some chunk → chunk = ⟨0, 0⟩
  /-- The cores behind the loop have chunks. -/
  allocated_eq : ∀ core, t.acp.allocated core = (s.added core && decide (core < j))

variable {cfg : Config} {s : State}

theorem Attached.loading (h : Attached cfg s) :
    Loading cfg s 0 { s with acp := emptyContext cfg } := by
  have hnone : ∀ key, (emptyContext cfg).chunk key = none := fun key => if_neg (by simp [emptyContext])
  refine ⟨rfl, rfl, rfl, ⟨h.unique, ?_, ?_, ?_, ?_, rfl⟩, ⟨fun b key => ?_, fun b => List.nodup_nil⟩, ?_, ?_⟩
  · exact fun _ _ ha => by cases ha
  · exact fun _ ha => by cases ha
  · exact fun _ => rfl
  · exact (Finset.sum_const_zero).symm
  · change key ∈ [] ↔ ∃ chunk, (emptyContext cfg).chunk key = some chunk ∧ chunk.bucketId = b
    simp [hnone]
  · exact fun key chunk hc => by rw [hnone] at hc; cases hc
  · exact fun core => by simp [emptyContext]

variable {s t : State}

theorem Loading.step {j : Nat} (hs : Attached cfg s) (h : Loading cfg s j t) (hj : j < ocfCoreNum) :
    ∃ t', (if s.added j then cleaningPolicyAcpAddCore t j true else some t) = some t' ∧
      Loading cfg s (j + 1) t' := by
  split
  · rename_i hadded
    have hfree : t.acp.allocated j = false := by simp [h.allocated_eq]
    obtain ⟨t', ht', hl, hmd, hflag, hadd, hlen, hth, ha, hn, htotal, hchunk⟩ := addCore_spec hfree h.listed
    refine ⟨t', ht', hmd.trans h.md, hadd.trans h.added, hlen.trans h.length,
      h.placed.addCore hj hfree hmd hlen hth ha hn htotal fun line hline hc => ?_, hl, fun key chunk hc => ?_,
      fun core => ?_⟩
    · rw [h.md] at hc ⊢
      have hin := (hs.inCore line hline (by omega)).2.2
      rw [hc] at hin
      rw [h.length]
      exact hin
    · rw [hchunk] at hc
      split at hc
      · split at hc
        · cases hc
          rfl
        · cases hc
      · exact h.chunk_eq key chunk hc
    · rw [ha, update_apply, h.allocated_eq]
      split
      · rename_i hc
        rw [hc, hadded]
        simp
      · rename_i hc
        have hlt : core < j + 1 ↔ core < j := by omega
        simp [hlt]
  · rename_i hadded
    refine ⟨t, rfl, h.md, h.added, h.length, h.placed, h.listed, h.chunk_eq, fun core => ?_⟩
    rw [h.allocated_eq]
    by_cases hc : core = j
    · rw [hc]
      simp [hadded]
    · have hlt : core < j + 1 ↔ core < j := by omega
      simp [hlt]

/-- `cleaning_policy_acp_initialize`. -/
theorem initialize_spec (h : Attached cfg s) :
    ∃ s', cleaningPolicyAcpInitialize cfg s = some s' ∧ Fresh cfg s' ∧ s'.md = s.md ∧
      s'.added = s.added ∧ s'.length = s.length := by
  obtain ⟨s', hs', hload⟩ := foldlM_range_some (Loading cfg s) h.loading
    fun j t hj ht => Loading.step h ht hj
  refine ⟨s', hs', ⟨⟨?_, ?_⟩, hload.placed, hload.listed, hload.chunk_eq, fun core hcore => ?_⟩,
    hload.md, hload.added, hload.length⟩
  · rw [hload.md]
    exact h.unique
  · rw [hload.md, hload.added, hload.length]
    exact h.inCore
  · rw [hload.allocated_eq, hload.added]
    simp [hcore]

theorem Fresh.withMd (h : Fresh cfg s) {md : LineTable}
    (hatt : Attached cfg { s with md }) : Fresh cfg { s with md } where
  attached := hatt
  placed := by
    refine ⟨hatt.unique, fun line hline ha => ?_, h.placed.core_lt, h.placed.numChunks_eq,
      h.placed.chunksTotal_eq, h.placed.threshold_eq⟩
    have hlt := h.placed.core_lt _ ha
    exact (hatt.inCore line hline (Nat.ne_of_lt hlt)).2.2
  listed := h.listed
  chunk_eq := h.chunk_eq
  allocated_eq := h.allocated_eq

theorem Fresh.inv (h : Fresh cfg s)
    (hclean : ∀ line < cfg.geometry.collisionEntries, s.acpDirty line = false) : Inv cfg s := by
  refine ⟨⟨fun key chunk hc => ?_, h.listed, fun key chunk hc => ?_⟩, h.placed⟩
  · rw [h.chunk_eq key chunk hc]
    exact (countBelow_eq_zero.mpr fun line hline => by rw [hclean line hline, Bool.and_false]).symm
  · rw [h.chunk_eq key chunk hc]
    exact ⟨fun _ => rfl, fun hlt => absurd hlt (Nat.lt_irrefl 0)⟩

/-- `cleaning_policy_acp_prepopulate` clears the flags. -/
theorem prepopulate_spec (cfg : Config) (s : State) :
    ∃ flags, cleaningPolicyAcpPrepopulate cfg s = { s with acpDirty := flags } ∧
      ∀ line < cfg.geometry.collisionEntries, flags line = false := by
  refine forRange_inv (fun j (t : State) => ∃ flags, t = { s with acpDirty := flags } ∧ ∀ line < j, flags line = false)
    ⟨s.acpDirty, rfl, fun line hlt => absurd hlt (Nat.not_lt_zero line)⟩ ?_
  rintro i t hi ⟨flags, rfl, hclean⟩
  refine ⟨update flags i false, rfl, fun line hlt => ?_⟩
  by_cases hline : line = i
  · rw [hline, update_self]
  · rw [update_of_ne hline]
    exact hclean line (by omega)

theorem Fresh.withFlags (h : Fresh cfg s) (flags : Nat → Bool) :
    Fresh cfg { s with acpDirty := flags } where
  attached := ⟨h.attached.unique, h.attached.inCore⟩
  placed := ⟨h.placed.unique, h.placed.inCore, h.placed.core_lt, h.placed.numChunks_eq, h.placed.chunksTotal_eq,
    h.placed.threshold_eq⟩
  listed := h.listed
  chunk_eq := h.chunk_eq
  allocated_eq := h.allocated_eq

theorem prepopulate_inv (h : Fresh cfg s) : Inv cfg (cleaningPolicyAcpPrepopulate cfg s) := by
  obtain ⟨flags, heq, hclean⟩ := prepopulate_spec cfg s
  rw [heq]
  exact (h.withFlags flags).inv hclean

/-- Dirty lines of a chunk. -/
def dirtyLines (cfg : Config) (md : LineTable) (key : ChunkKey) (n : Nat) : Nat :=
  countBelow (fun line => decide (acpGetChunk cfg md line = key) && metadataTestDirty cfg.geometry md line) n

/-- The scan of the populate handler after some lines. -/
structure Scanned (cfg : Config) (s : State) (j : Nat) (st : State × ShardCounts) : Prop where
  /-- Metadata. -/
  md : st.1.md = s.md
  /-- Cores. -/
  added : st.1.added = s.added
  /-- Their lengths. -/
  length : st.1.length = s.length
  /-- Chunks. -/
  acp : st.1.acp = s.acp
  /-- The flags behind the scan are the dirty lines. -/
  flag_eq : ∀ line < j, (s.md.coreInfo line).1 ≠ ocfCoreNum →
    st.1.acpDirty line = metadataTestDirty cfg.geometry s.md line
  /-- The counters of the shards together count the dirty lines. -/
  count_eq : ∀ key : ChunkKey, key.1 < ocfCoreNum →
    ∑ shard ∈ Finset.range populateShardsCnt, st.2 shard key = dirtyLines cfg s.md key j

theorem dirtyLines_le {cfg : Config} {s : State} (h : Placed cfg s) {key : ChunkKey} (hkey : key.1 < ocfCoreNum)
    {j : Nat} (hj : j ≤ cfg.geometry.collisionEntries) : dirtyLines cfg s.md key j ≤ linesPerChunk cfg := by
  refine Nat.le_trans ?_ (h.count_le hkey (p := fun line => decide (acpGetChunk cfg s.md line = key) &&
    metadataTestDirty cfg.geometry s.md line) fun _ hp => of_decide_eq_true (Bool.and_eq_true_iff.mp hp).1)
  exact List.Sublist.countP_le (List.range_sublist.mpr hj)

theorem scanFlag {j : Nat} {flags : Nat → Bool}
    (h : ∀ line < j, (s.md.coreInfo line).1 ≠ ocfCoreNum → flags line = metadataTestDirty cfg.geometry s.md line) :
    ∀ line < j + 1, (s.md.coreInfo line).1 ≠ ocfCoreNum →
      update flags j (metadataTestDirty cfg.geometry s.md j) line =
        metadataTestDirty cfg.geometry s.md line := by
  intro line hline hmapped
  by_cases hj : line = j
  · rw [hj, update_self]
  · rw [update_of_ne hj]
    exact h line (by omega) hmapped

variable {st : State × ShardCounts}

/-- A line is counted in its chunk. -/
theorem populateLine_spec {j shard : Nat}
    (hs : Fresh cfg s) (hshard : shard < populateShardsCnt) (hj : j < cfg.geometry.collisionEntries)
    (h : Scanned cfg s j st) :
    ∃ st', populateLine cfg shard st j = some st' ∧ Scanned cfg s (j + 1) st' := by
  unfold populateLine
  rw [h.md]
  by_cases hmapped : (s.md.coreInfo j).1 = ocfCoreNum
  · rw [if_pos hmapped]
    refine ⟨st, rfl, h.md, h.added, h.length, h.acp, fun line hline hm => ?_, fun key hkey => ?_⟩
    · have hne : line ≠ j := fun heq => hm (heq ▸ hmapped)
      exact h.flag_eq line (by omega) hm
    · have hne : acpGetChunk cfg s.md j ≠ key := by
        intro heq
        rw [← heq] at hkey
        change (s.md.coreInfo j).1 < ocfCoreNum at hkey
        omega
      rw [h.count_eq key hkey, dirtyLines, dirtyLines, countBelow_succ]
      simp [hne]
  · rw [if_neg hmapped]
    by_cases hdirty : metadataTestDirty cfg.geometry s.md j = false
    · rw [if_pos hdirty]
      have hflag := scanFlag (j := j) h.flag_eq
      rw [hdirty] at hflag
      refine ⟨_, rfl, h.md, h.added, h.length, h.acp, hflag, fun key hkey => ?_⟩
      rw [h.count_eq key hkey, dirtyLines, dirtyLines, countBelow_succ]
      simp [hdirty]
    · rw [if_neg hdirty]
      have hdirty' : metadataTestDirty cfg.geometry s.md j = true := by simpa using hdirty
      obtain ⟨hcore, hadded, -⟩ := hs.attached.inCore j hj hmapped
      have ha : s.acp.allocated (s.md.coreInfo j).1 = true := by
        rw [hs.allocated_eq _ hcore]
        exact hadded
      obtain ⟨chunk, hc⟩ := hs.placed.chunk hj ha
      simp only [h.acp, h.md, hc, Option.bind_eq_bind, Option.bind_some]
      have hflag := scanFlag (j := j) h.flag_eq
      rw [hdirty'] at hflag
      refine ⟨_, rfl, rfl, h.added, h.length, rfl, hflag, fun key hkey => ?_⟩
      obtain ⟨k, hk⟩ : ∃ k, acpGetChunk cfg s.md j = k := ⟨_, rfl⟩
      rw [hk]
      have hmem : shard ∈ Finset.range populateShardsCnt := Finset.mem_range.mpr hshard
      have hsplit := Finset.add_sum_erase (Finset.range populateShardsCnt) (fun sh => st.2 sh key) hmem
      have hsplit' := Finset.add_sum_erase (Finset.range populateShardsCnt) (fun sh =>
        update st.2 shard (update (st.2 shard) k ((st.2 shard k + 1) % 2 ^ 16)) sh key) hmem
      have hrest : ∑ sh ∈ (Finset.range populateShardsCnt).erase shard,
          update st.2 shard (update (st.2 shard) k ((st.2 shard k + 1) % 2 ^ 16)) sh key =
          ∑ sh ∈ (Finset.range populateShardsCnt).erase shard, st.2 sh key := by
        refine Finset.sum_congr rfl fun sh hsh => ?_
        rw [update_of_ne (Finset.ne_of_mem_erase hsh)]
      have hval : update st.2 shard (update (st.2 shard) k ((st.2 shard k + 1) % 2 ^ 16)) shard key =
          if key = k then (st.2 shard k + 1) % 2 ^ 16 else st.2 shard key := by
        rw [update_self, update_apply]
      have hsum := h.count_eq key hkey
      have hle := dirtyLines_le hs.placed hkey (by omega : j + 1 ≤ cfg.geometry.collisionEntries)
      obtain ⟨hlines, -, hwidth, -, -⟩ := linesPerChunk_eq cfg
      have hsucc : dirtyLines cfg s.md key (j + 1) = dirtyLines cfg s.md key j + (decide (k = key)).toNat := by
        unfold dirtyLines
        rw [countBelow_succ, hdirty', Bool.and_true, hk]
      rw [hval, hrest] at hsplit'
      rw [← hsplit']
      by_cases hkk : key = k
      · subst hkk
        rw [if_pos rfl]
        simp only [decide_true, Bool.toNat_true] at hsucc
        omega
      · rw [if_neg hkk]
        have hne : k ≠ key := Ne.symm hkk
        simp only [hne, decide_false, Bool.toNat_false, Nat.add_zero] at hsucc
        omega

theorem populateHandle_spec {shard : Nat} (hs : Fresh cfg s) (hshard : shard < populateShardsCnt)
    (h : Scanned cfg s (min ((cfg.geometry.collisionEntries + (populateShardsCnt - 1)) / populateShardsCnt * shard)
      cfg.geometry.collisionEntries) st) : ∃ st', ocfAcpPopulateHandle cfg st shard = some st' ∧
      Scanned cfg s (min ((cfg.geometry.collisionEntries + (populateShardsCnt - 1)) / populateShardsCnt *
        (shard + 1)) cfg.geometry.collisionEntries) st' := by
  obtain ⟨entries, hentries⟩ : ∃ n, cfg.geometry.collisionEntries = n := ⟨_, rfl⟩
  obtain ⟨portion, hportion⟩ : ∃ p, (entries + (populateShardsCnt - 1)) / populateShardsCnt = p := ⟨_, rfl⟩
  unfold ocfAcpPopulateHandle shardLines
  rw [hentries, hportion] at h ⊢
  dsimp only
  have hsucc : portion * (shard + 1) = portion * shard + portion := Nat.mul_succ _ _
  rcases Nat.lt_or_ge (portion * shard) entries with hlt | hge
  · rw [Nat.min_eq_left (Nat.le_of_lt hlt)] at h
    obtain ⟨st', hst', hscan⟩ := foldlM_range'_some (f := populateLine cfg shard) (Scanned cfg s)
      (m := min (portion * (shard + 1)) entries - portion * shard) h
      fun i t _ hi ht => populateLine_spec hs hshard (by omega) ht
    refine ⟨st', hst', ?_⟩
    have hend : portion * shard + (min (portion * (shard + 1)) entries - portion * shard) =
        min (portion * (shard + 1)) entries := by omega
    rwa [hend] at hscan
  · have hempty : min (portion * (shard + 1)) entries - portion * shard = 0 := by omega
    rw [hempty]
    refine ⟨st, rfl, ?_⟩
    have hend : min (portion * (shard + 1)) entries = min (portion * shard) entries := by omega
    rwa [hend]

theorem populateShards_spec (hs : Fresh cfg s) :
    ∃ st, (List.range populateShardsCnt).foldlM (ocfAcpPopulateHandle cfg) (s, fun _ _ => 0) = some st ∧
      Scanned cfg s cfg.geometry.collisionEntries st := by
  have hstart : Scanned cfg s 0 (s, fun _ _ => 0) := by
    refine ⟨rfl, rfl, rfl, rfl, fun line hlt => absurd hlt (Nat.not_lt_zero line), fun key _ => ?_⟩
    exact Finset.sum_const_zero
  have hloop := foldlM_range_some (n := populateShardsCnt) (f := ocfAcpPopulateHandle cfg)
    (fun k st => Scanned cfg s (min ((cfg.geometry.collisionEntries + (populateShardsCnt - 1)) /
      populateShardsCnt * k) cfg.geometry.collisionEntries) st)
    (s := (s, fun _ _ => 0)) (by simpa using hstart)
    fun k st hk hst => populateHandle_spec hs hk hst
  obtain ⟨st, hst, hscan⟩ := hloop
  refine ⟨st, hst, ?_⟩
  have hcover : cfg.geometry.collisionEntries ≤
      (cfg.geometry.collisionEntries + (populateShardsCnt - 1)) / populateShardsCnt * populateShardsCnt := by
    unfold populateShardsCnt
    omega
  rwa [Nat.min_eq_right hcover] at hscan

/-- The chunks while the finish handler fills them in. -/
structure Filled (s : State) (target : ChunkKey → ChunkInfo) (done : ChunkKey → Prop) (t : State) : Prop where
  /-- Metadata, cores and tables. -/
  same : SameLines s t
  /-- Flags. -/
  flag_eq : t.acpDirty = s.acpDirty
  /-- Lists. -/
  listed : Listed t.acp
  /-- The chunks behind the loop have their values. -/
  chunk_done : ∀ key chunk, t.acp.chunk key = some chunk → done key → chunk = target key

variable {target : ChunkKey → ChunkInfo}

theorem populateChunk_spec {counts : ShardCounts}
    {done : ChunkKey → Prop} {key : ChunkKey} (h : Filled s target done t)
    (hkey : ∃ chunk, s.acp.chunk key = some chunk)
    (htarget : target key = ⟨forRange populateShardsCnt (fun n shard => (n + counts shard key) % 2 ^ 16) 0,
      populateBucket s.acp.threshold
        (forRange populateShardsCnt (fun n shard => (n + counts shard key) % 2 ^ 16) 0)⟩) :
    ∃ t', ocfAcpPopulateChunk counts t key = some t' ∧ Filled s target (fun k => done k ∨ k = key) t' := by
  obtain ⟨chunk, hc⟩ : ∃ chunk, t.acp.chunk key = some chunk := by
    obtain ⟨c, hc⟩ := hkey
    obtain ⟨ha, hn, -⟩ := chunk_eq_some.mp hc
    refine ⟨_, chunk_eq_some.mpr ⟨?_, ?_, rfl⟩⟩
    · rw [h.same.shape.allocated]
      exact ha
    · rw [h.same.shape.numChunks]
      exact hn
  have hstep : ocfAcpPopulateChunk counts t key =
      some { t with acp := (t.acp.setChunk key (target key)).listMoveTail key (target key).bucketId } := by
    unfold ocfAcpPopulateChunk
    simp only [hc, Option.bind_eq_bind, Option.bind_some]
    rw [htarget, h.same.shape.threshold]
  have hmoved := @listsMoved_listMoveTail (t.acp.setChunk key (target key)) h.listed.nodup key (target key).bucketId
  refine ⟨_, hstep, h.same.trans ⟨rfl, rfl, rfl, ⟨rfl, rfl, rfl, rfl⟩⟩, h.flag_eq,
    h.listed.moved hc ⟨rfl, rfl, rfl, rfl⟩ rfl hmoved, fun k c hkc hdone => ?_⟩
  have hchunk := chunk_setChunk t.acp key k (target key)
  change (t.acp.setChunk key (target key)).chunk k = some c at hkc
  rw [hchunk] at hkc
  split at hkc
  · rename_i hk
    rw [hc] at hkc
    cases hkc
    rw [hk]
  · rename_i hk
    exact h.chunk_done k c hkc (hdone.resolve_right hk)

theorem Filled.of_done {done done' : ChunkKey → Prop} (h : Filled s target done t)
    (hdone : ∀ key, s.acp.allocated key.1 = true → key.2 < s.acp.numChunks key.1 → done' key → done key) :
    Filled s target done' t := by
  refine ⟨h.same, h.flag_eq, h.listed, fun key chunk hc hk => ?_⟩
  obtain ⟨ha, hn, -⟩ := chunk_eq_some.mp hc
  rw [h.same.shape.allocated] at ha
  rw [h.same.shape.numChunks] at hn
  exact h.chunk_done key chunk hc (hdone key ha hn hk)

theorem sumShards_eq {f : Nat → Nat} {n : Nat} (h : ∑ shard ∈ Finset.range n, f shard < 2 ^ 16) :
    forRange n (fun m shard => (m + f shard) % 2 ^ 16) 0 = ∑ shard ∈ Finset.range n, f shard := by
  refine forRange_inv (fun i m => m = ∑ shard ∈ Finset.range i, f shard) rfl ?_
  intro i m hi hm
  have hle : ∑ shard ∈ Finset.range (i + 1), f shard ≤ ∑ shard ∈ Finset.range n, f shard :=
    Finset.sum_le_sum_of_subset (Finset.range_mono hi)
  have hsucc := Finset.sum_range_succ f i
  rw [hm, hsucc]
  exact Nat.mod_eq_of_lt (by omega)

/-- What the populate handler makes of a chunk. -/
def populated (cfg : Config) (md : LineTable) (key : ChunkKey) : ChunkInfo :=
  ⟨dirtyLines cfg md key cfg.geometry.collisionEntries,
    populateBucket (initialThreshold cfg) (dirtyLines cfg md key cfg.geometry.collisionEntries)⟩

/-- `ocf_acp_populate_finish`. -/
theorem populateFinish_spec (hs : Fresh cfg s)
    (h : Scanned cfg s cfg.geometry.collisionEntries st) :
    ∃ t, ocfAcpPopulateFinish st.2 st.1 = some t ∧ Filled st.1 (populated cfg s.md) (fun _ => True) t := by
  have htarget : ∀ key : ChunkKey, key.1 < ocfCoreNum → populated cfg s.md key =
      ⟨forRange populateShardsCnt (fun n shard => (n + st.2 shard key) % 2 ^ 16) 0,
        populateBucket st.1.acp.threshold
          (forRange populateShardsCnt (fun n shard => (n + st.2 shard key) % 2 ^ 16) 0)⟩ := by
    intro key hkey
    have hsum := h.count_eq key hkey
    have hle := dirtyLines_le hs.placed hkey (Nat.le_refl _)
    obtain ⟨hlines, -, hwidth, -, -⟩ := linesPerChunk_eq cfg
    have hwrap := sumShards_eq (f := fun shard => st.2 shard key) (n := populateShardsCnt) (by omega)
    rw [hwrap, hsum, h.acp, hs.placed.threshold_eq]
    rfl
  have hstart : Filled st.1 (populated cfg s.md) (fun k => k.1 < 0) st.1 := by
    refine ⟨.refl _, rfl, ?_, fun _ _ _ hk => absurd hk (Nat.not_lt_zero _)⟩
    rw [h.acp]
    exact hs.listed
  have hnum : ∀ core, st.1.acp.allocated core = true → st.1.acp.numChunks core = numChunksOf (st.1.length core) := by
    intro core ha
    rw [h.acp] at ha ⊢
    rw [h.length, hs.placed.numChunks_eq, if_pos ha]
  obtain ⟨t, ht, hfill⟩ := foldlM_range_some (n := ocfCoreNum)
    (f := fun t core => if st.1.added core then
      (List.range (numChunksOf (t.length core))).foldlM (fun t i => ocfAcpPopulateChunk st.2 t (core, i)) t
      else some t)
    (fun j t => Filled st.1 (populated cfg s.md) (fun k => k.1 < j) t) hstart (by
    intro j t hj hfill
    split
    · rename_i hadded
      have ha : st.1.acp.allocated j = true := by
        rw [h.acp, hs.allocated_eq j hj, ← h.added]
        exact hadded
      rw [hfill.same.length]
      obtain ⟨t', ht', hfill'⟩ := foldlM_range_some (n := numChunksOf (st.1.length j))
        (f := fun t i => ocfAcpPopulateChunk st.2 t (j, i))
        (fun i t => Filled st.1 (populated cfg s.md) (fun k => k.1 < j ∨ (k.1 = j ∧ k.2 < i)) t)
        (hfill.of_done fun k _ _ hk => hk.resolve_right fun hlt => Nat.not_lt_zero _ hlt.2) (by
        intro i u hi hu
        have hkey : ∃ chunk, st.1.acp.chunk (j, i) = some chunk :=
          ⟨_, chunk_eq_some.mpr ⟨ha, by rw [hnum j ha]; exact hi, rfl⟩⟩
        obtain ⟨u', hu', hfill''⟩ := populateChunk_spec hu hkey (htarget (j, i) hj)
        refine ⟨u', hu', hfill''.of_done fun k _ _ hk => ?_⟩
        rcases hk with hk | ⟨hk, hlt⟩
        · exact Or.inl (Or.inl hk)
        · rcases Nat.lt_succ_iff_lt_or_eq.mp hlt with hlt | heq
          · exact Or.inl (Or.inr ⟨hk, hlt⟩)
          · exact Or.inr (Prod.ext hk heq))
      refine ⟨t', ht', hfill'.of_done fun k hka hkn hk => ?_⟩
      rcases Nat.lt_succ_iff_lt_or_eq.mp hk with hlt | heq
      · exact Or.inl hlt
      · refine Or.inr ⟨heq, ?_⟩
        rw [hnum k.1 hka, heq] at hkn
        exact hkn
    · rename_i hadded
      refine ⟨t, rfl, hfill.of_done fun k hka _ hk => ?_⟩
      rcases Nat.lt_succ_iff_lt_or_eq.mp hk with hlt | heq
      · exact hlt
      · rw [h.acp, heq, hs.allocated_eq j hj, ← h.added] at hka
        exact absurd hka hadded)
  refine ⟨t, ht, hfill.of_done fun k hka _ _ => ?_⟩
  rw [h.acp] at hka
  exact hs.placed.core_lt k.1 hka

theorem populate_spec (hs : Fresh cfg s) :
    ∃ t, cleaningPolicyAcpPopulate cfg s = some t ∧ Placed cfg t ∧ SameLines s t ∧ Listed t.acp ∧
      ∀ key chunk, t.acp.chunk key = some chunk → chunk = populated cfg s.md key ∧
        flaggedLines cfg t key = dirtyLines cfg s.md key cfg.geometry.collisionEntries := by
  obtain ⟨st, hst, hscan⟩ := populateShards_spec hs
  obtain ⟨t, ht, hfill⟩ := populateFinish_spec hs hscan
  have hsame : SameLines s t := by
    have hsame₁ : SameLines s st.1 := ⟨hscan.md, hscan.added, hscan.length, by rw [hscan.acp]; exact .refl _⟩
    exact hsame₁.trans hfill.same
  refine ⟨t, ?_, hs.placed.of_same hsame, hsame, hfill.listed, fun key chunk hc => ?_⟩
  · unfold cleaningPolicyAcpPopulate
    rw [hst, Option.bind_eq_bind, Option.bind_some, ht]
  · refine ⟨hfill.chunk_done key chunk hc trivial, countBelow_congr fun line hline => ?_⟩
    have hcore := (hs.placed.of_same hsame).core_lt key.1 (chunk_eq_some.mp hc).1
    rw [hsame.md, hfill.flag_eq]
    by_cases hk : acpGetChunk cfg s.md line = key
    · have hmapped : (s.md.coreInfo line).1 ≠ ocfCoreNum := by
        rw [← hk] at hcore
        change (s.md.coreInfo line).1 < ocfCoreNum at hcore
        omega
      rw [hscan.flag_eq line hline hmapped]
    · simp [hk]

/-- A state with exact accounting in which no operation aborts. -/
structure Sound (cfg : Config) (s : State) : Prop where
  /-- Exact accounting. -/
  accounted : Accounted cfg s
  /-- No `ENV_BUG_ON` fires and no missing chunk is read. -/
  no_bug : ∀ act, guard cfg s act → ∃ s', step cfg s act = some s'

theorem Inv.sound (h : Inv cfg s) : Sound cfg s := by
  refine ⟨h.accounted, fun act hg => ?_⟩
  obtain ⟨s', hs', -⟩ := step_inv h hg
  exact ⟨s', hs'⟩

/-- Every chunk of the cache has as many dirty lines as a threshold says. -/
def AtThresholds (cfg : Config) (s : State) : Prop :=
  ∀ core < ocfCoreNum, s.added core = true → ∀ i < numChunksOf (s.length core),
    ∃ b < acpMaxBuckets,
      dirtyLines cfg s.md (core, i) cfg.geometry.collisionEntries = initialThreshold cfg b

theorem atThreshold_iff (cfg : Config) {n : Nat} (hn : n ≤ linesPerChunk cfg) :
    (∃ b < acpMaxBuckets, n = initialThreshold cfg b) ↔ bucketWidth cfg ∣ n := by
  obtain ⟨hlines, hwidth, -, -, -⟩ := linesPerChunk_eq cfg
  constructor
  · rintro ⟨b, hb, rfl⟩
    rw [initialThreshold_eq cfg hb]
    exact Nat.dvd_mul_right _ _
  · rintro ⟨q, rfl⟩
    rw [hlines, Nat.mul_comm] at hn
    have hq : q ≤ 10 := Nat.le_of_mul_le_mul_right hn (by omega)
    have hlt : q < acpMaxBuckets := Nat.lt_succ_of_le hq
    exact ⟨q, hlt, (initialThreshold_eq cfg hlt).symm⟩

theorem populate_accounted_iff (hs : Fresh cfg s) (ht : cleaningPolicyAcpPopulate cfg s = some t) :
    (Accounted cfg t ↔ AtThresholds cfg s) ∧ Placed cfg t := by
  obtain ⟨t', ht', hplaced, hsame, hlisted, hchunk⟩ := populate_spec hs
  rw [ht] at ht'
  cases ht'
  refine ⟨⟨fun hacc core hcore hadded i hi => ?_, fun hat => ⟨fun key chunk hc => ?_, hlisted, fun key chunk hc => ?_⟩⟩,
    hplaced⟩
  · have ha : t.acp.allocated core = true := by
      rw [hsame.shape.allocated, hs.allocated_eq core hcore]
      exact hadded
    have hi' : i < t.acp.numChunks core := by
      rw [hplaced.numChunks_eq, if_pos ha, hsame.length]
      exact hi
    have hc : t.acp.chunk (core, i) = some (t.acp.chunkInfo (core, i)) := chunk_eq_some.mpr ⟨ha, hi', rfl⟩
    have hin := hacc.inBucket _ _ hc
    rw [(hchunk _ _ hc).1, hplaced.threshold_eq] at hin
    have hle := @dirtyLines_le cfg s hs.placed (core, i) hcore _ (Nat.le_refl _)
    exact (atThreshold_iff cfg hle).mpr ((populateBucket_inBucket_iff cfg hle).mp hin)
  · obtain ⟨hpop, hcount⟩ := hchunk key chunk hc
    rw [hpop, hcount]
    rfl
  · obtain ⟨hpop, -⟩ := hchunk key chunk hc
    obtain ⟨ha, hi, -⟩ := chunk_eq_some.mp hc
    have hcore := hplaced.core_lt key.1 ha
    rw [hplaced.numChunks_eq, if_pos ha, hsame.length] at hi
    rw [hsame.shape.allocated, hs.allocated_eq key.1 hcore] at ha
    have hle := dirtyLines_le hs.placed hcore (Nat.le_refl _)
    rw [hpop, hplaced.threshold_eq]
    exact (populateBucket_inBucket_iff cfg hle).mpr ((atThreshold_iff cfg hle).mp (hat key.1 hcore ha key.2 hi))

/-- On every cache, in every run after the start of the policy: started
through the populate handler the accounting stays exact exactly if every chunk
had a number of dirty lines that is a bucket threshold, zero included, and
started through the prepopulate handler it always does. -/
theorem chunks_accounted (cfg : Config) {cache : State} (h : Attached cfg cache) :
    ∃ s t, cleaningPolicyAcpInitialize cfg cache = some s ∧ cleaningPolicyAcpPopulate cfg s = some t ∧
      ((∀ u, Reachable (system cfg) t u → Sound cfg u) ↔ AtThresholds cfg cache) ∧
      ∀ u, Reachable (system cfg) (cleaningPolicyAcpPrepopulate cfg s) u → Sound cfg u := by
  obtain ⟨s, hs, hfresh, hmd, hadded, hlength⟩ := initialize_spec h
  obtain ⟨t, ht, -⟩ := populate_spec hfresh
  obtain ⟨hiff, hplaced⟩ := populate_accounted_iff hfresh ht
  have hat : AtThresholds cfg s ↔ AtThresholds cfg cache := by
    unfold AtThresholds
    rw [hmd, hadded, hlength]
  rw [hat] at hiff
  refine ⟨s, t, hs, ht, ⟨fun hall => ?_, fun hcond u hu => ?_⟩, fun u hu => ?_⟩
  · exact hiff.mp (hall t (.refl trivial)).accounted
  · exact (run_inv ⟨hiff.mpr hcond, hplaced⟩ hu).sound
  · exact (run_inv (prepopulate_inv hfresh) hu).sound

/-- A cache of one line of 4 KiB. -/
def oneLine : Config where
  geometry := ⟨8, eightBlocks_pos, 1, 1, 0⟩
  lineSize := 4096
  lineSize_valid := by decide

/-- The line is mapped to the first core, and dirty. -/
def oneDirtyLine : State where
  md := ⟨fun _ => [0], fun _ => (0, 0), fun _ _ => true, fun _ _ => true, fun _ => 0⟩
  acpDirty := fun _ => false
  added := fun core => decide (core = 0)
  length := fun _ => 4096
  acp := emptyContext oneLine

theorem oneDirtyLine_attached : Attached oneLine oneDirtyLine := by
  refine ⟨fun line line' hline hline' _ _ => ?_, fun line _ _ => ?_⟩
  · change line < 1 at hline
    change line' < 1 at hline'
    omega
  · change (0 : Nat) < ocfCoreNum ∧ decide ((0 : Nat) = 0) = true ∧ 0 * 4096 < 4096
    decide

/-- One dirty line is not at a threshold, so the prepopulate handler is the
one that serves this cache. -/
theorem chunks_accounted_oneDirtyLine :
    Attached oneLine oneDirtyLine ∧ ∃ s, cleaningPolicyAcpInitialize oneLine oneDirtyLine = some s ∧
      ∀ u, Reachable (system oneLine) (cleaningPolicyAcpPrepopulate oneLine s) u → Sound oneLine u := by
  obtain ⟨s, t, hs, -, -, hall⟩ := chunks_accounted oneLine oneDirtyLine_attached
  exact ⟨oneDirtyLine_attached, s, hs, hall⟩

/-- The populate handler leaves a chunk with one dirty line in the bucket of
the clean chunks. -/
theorem populate_leaves_dirty_chunk :
    ∃ s t, cleaningPolicyAcpInitialize oneLine oneDirtyLine = some s ∧
      cleaningPolicyAcpPopulate oneLine s = some t ∧ t.acp.chunk (0, 0) = some ⟨1, 0⟩ ∧
      flaggedLines oneLine t (0, 0) = 1 ∧ ¬InBucket t.acp.threshold 1 0 := by
  obtain ⟨s, hs, hfresh, hmd, hadded, hlength⟩ := initialize_spec oneDirtyLine_attached
  obtain ⟨t, ht, hplaced, hsame, -, hchunk⟩ := populate_spec hfresh
  have ha : t.acp.allocated 0 = true := by
    rw [hsame.shape.allocated, hfresh.allocated_eq 0 (by decide), hadded]
    rfl
  have hn : 0 < t.acp.numChunks 0 := by
    rw [hplaced.numChunks_eq, if_pos ha, hsame.length, hlength]
    decide
  have hc : t.acp.chunk (0, 0) = some (t.acp.chunkInfo (0, 0)) := chunk_eq_some.mpr ⟨ha, hn, rfl⟩
  obtain ⟨hpop, hcount⟩ := hchunk _ _ hc
  rw [hmd] at hpop hcount
  have hone : dirtyLines oneLine oneDirtyLine.md (0, 0) oneLine.geometry.collisionEntries = 1 := by decide
  refine ⟨s, t, hs, ht, ?_, ?_, ?_⟩
  · rw [hc, hpop]
    decide
  · rw [hcount, hone]
  · rw [hplaced.threshold_eq]
    decide

end OcfCache.Acp
