import Mathlib.Data.List.Find
import Mathlib.Tactic.Ring
import OcfCache.Acp

/-!
# Buckets of the ACP chunks

What one change of a dirty count does to the bucket of a chunk. The thresholds
are the multiples of a tenth of a chunk, so a count that moves by one leaves
its bucket by at most one, and `_acp_update_bucket` follows it. The bucket
that the populate handler computes is a quotient instead, and the two agree
exactly at the multiples.
-/

namespace OcfCache.Acp

open Function Metadata Loops

/-- Cache lines of a full chunk. -/
def linesPerChunk (cfg : Config) : Nat := acpChunkSize / cfg.lineSize

/-- Width of a bucket: a tenth of a chunk. -/
def bucketWidth (cfg : Config) : Nat := linesPerChunk cfg / 10

theorem linesPerChunk_eq (cfg : Config) :
    linesPerChunk cfg = 10 * bucketWidth cfg ∧ 160 ≤ bucketWidth cfg ∧ bucketWidth cfg ≤ 2560 ∧
      acpChunkSize = linesPerChunk cfg * cfg.lineSize ∧ 0 < cfg.lineSize := by
  have h := cfg.lineSize_valid
  simp only [cacheLineSizes, List.mem_cons, List.not_mem_nil, or_false] at h
  rcases h with h | h | h | h | h <;>
    simp [linesPerChunk, bucketWidth, acpChunkSize, h]

variable {b n : Nat} {acp : AcpContext} {key : ChunkKey} {chunk : ChunkInfo}

theorem initialThreshold_eq (cfg : Config) (hb : b < acpMaxBuckets) :
    initialThreshold cfg b = bucketWidth cfg * b := by
  have hpercent : acpBucketDefaults.getD b 0 = 10 * b := by
    revert b
    decide
  have hlines := (linesPerChunk_eq cfg).1
  change linesPerChunk cfg * _ / 100 = _
  rw [hlines, hpercent]
  have hmul : 10 * bucketWidth cfg * (10 * b) = bucketWidth cfg * b * 100 := by ring
  rw [hmul, Nat.mul_div_cancel _ (by omega)]

/-- The bucket that belongs to a dirty count. -/
def InBucket (threshold : Nat → Nat) (n b : Nat) : Prop :=
  (n = 0 → b = 0) ∧
    (0 < n → 1 ≤ b ∧ b < acpMaxBuckets ∧ threshold (b - 1) < n ∧ n ≤ threshold b)

instance (threshold : Nat → Nat) (n b : Nat) : Decidable (InBucket threshold n b) :=
  inferInstanceAs (Decidable (_ ∧ _))

theorem InBucket.lt {threshold : Nat → Nat} (h : InBucket threshold n b) : b < acpMaxBuckets := by
  rcases Nat.eq_zero_or_pos n with hn | hn
  · rw [h.1 hn]
    decide
  · exact (h.2 hn).2.1

theorem inBucket_initial_iff (cfg : Config) : InBucket (initialThreshold cfg) n b ↔
      b < acpMaxBuckets ∧ n ≤ bucketWidth cfg * b ∧ (0 < b → bucketWidth cfg * (b - 1) < n) := by
  constructor
  · intro h
    have hb := h.lt
    rcases Nat.eq_zero_or_pos n with hn | hn
    · have hb0 := h.1 hn
      exact ⟨hb, by omega, by omega⟩
    · obtain ⟨hb1, -, hlow, hhigh⟩ := h.2 hn
      rw [initialThreshold_eq cfg (by omega)] at hlow hhigh
      exact ⟨hb, hhigh, fun _ => hlow⟩
  · rintro ⟨hb, hhigh, hlow⟩
    refine ⟨fun hn => ?_, fun hn => ?_⟩
    · by_contra hb0
      have := hlow (by omega)
      omega
    · have hb1 : 0 < b := by
        rcases Nat.eq_zero_or_pos b with hb0 | hb0
        · subst hb0
          omega
        · exact hb0
      rw [initialThreshold_eq cfg (by omega), initialThreshold_eq cfg hb]
      exact ⟨hb1, hb, hlow hb1, hhigh⟩

theorem populateBucket_eq (cfg : Config) (hn : n ≤ linesPerChunk cfg) :
    populateBucket (initialThreshold cfg) n = n / bucketWidth cfg := by
  obtain ⟨hlines, hwidth, -, -, -⟩ := linesPerChunk_eq cfg
  have hdiv : n / bucketWidth cfg ≤ 10 := by
    rw [hlines, Nat.mul_comm] at hn
    exact Nat.div_le_of_le_mul hn
  have hpast : ∀ b, 1 ≤ b → b ≤ 10 → (n < initialThreshold cfg b ↔ n / bucketWidth cfg < b) := by
    intro b hb hb'
    rw [initialThreshold_eq cfg (by unfold acpMaxBuckets; omega),
      Nat.div_lt_iff_lt_mul (by omega), Nat.mul_comm]
  have hfind : (List.range' 1 10).find? (fun b => decide (n < initialThreshold cfg b)) =
      (List.range' 1 10).find? (fun b => decide (n / bucketWidth cfg < b)) := by
    refine List.find?_congr fun b hb => ?_
    have hbound : 1 ≤ b ∧ b < 1 + 10 := List.mem_range'_1.mp hb
    exact decide_eq_decide.mpr (hpast b hbound.1 (by omega))
  have hquot : ∀ q, q ≤ 10 → ((List.range' 1 10).find? fun b => decide (q < b)).getD 11 - 1 = q := by
    decide
  change ((List.range' 1 10).find? _).getD 11 - 1 = _
  rw [hfind]
  exact hquot _ hdiv

theorem populateBucket_inBucket_iff (cfg : Config) (hn : n ≤ linesPerChunk cfg) :
    InBucket (initialThreshold cfg) n (populateBucket (initialThreshold cfg) n) ↔
      bucketWidth cfg ∣ n := by
  obtain ⟨hlines, hwidth, -, -, -⟩ := linesPerChunk_eq cfg
  have hpos : 0 < bucketWidth cfg := by omega
  have hdiv : n / bucketWidth cfg ≤ 10 := by
    rw [hlines, Nat.mul_comm] at hn
    exact Nat.div_le_of_le_mul hn
  rw [populateBucket_eq cfg hn, inBucket_initial_iff]
  constructor
  · rintro ⟨-, hhigh, -⟩
    have hle : bucketWidth cfg * (n / bucketWidth cfg) ≤ n := Nat.mul_div_le _ _
    exact ⟨n / bucketWidth cfg, by omega⟩
  · rintro ⟨q, rfl⟩
    rw [Nat.mul_div_cancel_left _ hpos] at hdiv ⊢
    refine ⟨by unfold acpMaxBuckets; omega, le_refl _, fun hq => ?_⟩
    exact Nat.mul_lt_mul_of_pos_left (by omega) hpos

theorem inBucket_next (cfg : Config) {m : Nat} (h : InBucket (initialThreshold cfg) n b)
    (hup : m ≤ n + 1) (hdown : n ≤ m + 1) (hmax : m ≤ linesPerChunk cfg) :
    (initialThreshold cfg b < m ∧ b ≠ acpMaxBuckets - 1 ∧ InBucket (initialThreshold cfg) m (b + 1)) ∨
      (m ≤ initialThreshold cfg b ∧ b ≠ 0 ∧ m ≤ initialThreshold cfg (b - 1) ∧
        InBucket (initialThreshold cfg) m (b - 1)) ∨
      (m ≤ initialThreshold cfg b ∧ ¬(b ≠ 0 ∧ m ≤ initialThreshold cfg (b - 1)) ∧
        InBucket (initialThreshold cfg) m b) := by
  obtain ⟨hlines, hwidth, -, -, -⟩ := linesPerChunk_eq cfg
  obtain ⟨hb, hhigh, hlow⟩ := (inBucket_initial_iff cfg).mp h
  have hb11 : b < 11 := hb
  simp only [inBucket_initial_iff]
  rw [initialThreshold_eq cfg hb, initialThreshold_eq cfg (by omega : b - 1 < acpMaxBuckets)]
  have hsucc : bucketWidth cfg * (b + 1) = bucketWidth cfg * b + bucketWidth cfg := Nat.mul_succ _ _
  rcases Nat.lt_or_ge (bucketWidth cfg * b) m with hover | hin
  · have hb10 : b < 10 := by
      by_contra hge
      have hmul : bucketWidth cfg * 10 ≤ bucketWidth cfg * b := Nat.mul_le_mul_left _ (by omega)
      omega
    refine Or.inl ⟨hover, by unfold acpMaxBuckets; omega, by unfold acpMaxBuckets; omega, by omega, fun _ => ?_⟩
    exact hover
  · right
    rcases Nat.eq_zero_or_pos b with hb0 | hb0
    · subst hb0
      exact Or.inr ⟨hin, by simp, hb, hin, by omega⟩
    · have hprev : bucketWidth cfg * b = bucketWidth cfg * (b - 1) + bucketWidth cfg := by
        have hpred := Nat.mul_succ (bucketWidth cfg) (b - 1)
        rwa [Nat.succ_eq_add_one, Nat.sub_add_cancel hb0] at hpred
      have hlow := hlow hb0
      rcases Nat.lt_or_ge (bucketWidth cfg * (b - 1)) m with hm | hm
      · exact Or.inr ⟨hin, by omega, hb, hin, fun _ => hm⟩
      · refine Or.inl ⟨hin, by omega, hm, by omega, hm, fun hb1 => ?_⟩
        have hprev2 : bucketWidth cfg * (b - 1) = bucketWidth cfg * (b - 1 - 1) + bucketWidth cfg := by
          have hpred := Nat.mul_succ (bucketWidth cfg) (b - 1 - 1)
          rwa [Nat.succ_eq_add_one, Nat.sub_add_cancel hb1] at hpred
        omega

/-- Every chunk is on the list of its bucket, once, and on no other. -/
structure Listed (acp : AcpContext) : Prop where
  /-- The list of a bucket holds the chunks that name the bucket. -/
  mem_iff : ∀ b key, key ∈ acp.chunkList b ↔ ∃ chunk, acp.chunk key = some chunk ∧ chunk.bucketId = b
  /-- No chunk is twice on a list. -/
  nodup : ∀ b, (acp.chunkList b).Nodup

/-- What the bucket functions leave alone. -/
structure SameShape (acp acp' : AcpContext) : Prop where
  /-- Tables. -/
  allocated : acp'.allocated = acp.allocated
  /-- Their sizes. -/
  numChunks : acp'.numChunks = acp.numChunks
  /-- Thresholds. -/
  threshold : acp'.threshold = acp.threshold
  /-- Number of all chunks. -/
  chunksTotal : acp'.chunksTotal = acp.chunksTotal

theorem SameShape.refl (acp : AcpContext) : SameShape acp acp := ⟨rfl, rfl, rfl, rfl⟩

theorem SameShape.trans {a b c : AcpContext} (h : SameShape a b) (h' : SameShape b c) : SameShape a c :=
  ⟨h'.1.trans h.1, h'.2.trans h.2, h'.3.trans h.3, h'.4.trans h.4⟩

theorem chunk_eq_some : acp.chunk key = some chunk ↔
      acp.allocated key.1 = true ∧ key.2 < acp.numChunks key.1 ∧ acp.chunkInfo key = chunk := by
  unfold AcpContext.chunk
  split
  · rename_i h
    simp [h.1, h.2]
  · rename_i h
    constructor
    · exact fun hn => by cases hn
    · exact fun hk => absurd ⟨hk.1, hk.2.1⟩ h

theorem chunk_setChunk (acp : AcpContext) (key key' : ChunkKey) (chunk : ChunkInfo) :
    (acp.setChunk key chunk).chunk key' =
      if key' = key then (acp.chunk key).map fun _ => chunk else acp.chunk key' := by
  by_cases hk : key' = key
  · subst hk
    unfold AcpContext.chunk AcpContext.setChunk
    simp only [update_self]
    split <;> rfl
  · rw [if_neg hk]
    unfold AcpContext.chunk AcpContext.setChunk
    simp only [update_of_ne hk]

theorem chunk_congr {acp' : AcpContext} (h : SameShape acp acp') (hinfo : acp'.chunkInfo = acp.chunkInfo)
    (key : ChunkKey) : acp'.chunk key = acp.chunk key := by
  unfold AcpContext.chunk
  rw [h.allocated, h.numChunks, hinfo]

/-- Lists after a chunk was moved to a bucket, at either end. -/
structure ListsMoved (lists lists' : Nat → List ChunkKey) (key : ChunkKey) (b : Nat) : Prop where
  /-- Only the chunk moved. -/
  mem_iff : ∀ i k, k ∈ lists' i ↔ (k ≠ key ∧ k ∈ lists i) ∨ (k = key ∧ i = b)
  /-- Repetitions are not made. -/
  nodup : ∀ i, (lists' i).Nodup

theorem listsMoved_listMove (h : ∀ i, (acp.chunkList i).Nodup) (key : ChunkKey) (b : Nat) :
    ListsMoved acp.chunkList (acp.listMove key b).chunkList key b := by
  constructor
  · intro i k
    simp only [AcpContext.listMove, AcpContext.listAdd, AcpContext.listDel, update_apply]
    split
    · rename_i hi
      subst hi
      rw [List.mem_cons, (h i).mem_erase_iff]
      tauto
    · rename_i hi
      rw [(h i).mem_erase_iff]
      tauto
  · intro i
    simp only [AcpContext.listMove, AcpContext.listAdd, AcpContext.listDel, update_apply]
    split
    · exact List.nodup_cons.mpr ⟨(h b).not_mem_erase, (h b).erase _⟩
    · exact (h i).erase _

theorem listsMoved_listMoveTail (h : ∀ i, (acp.chunkList i).Nodup) (key : ChunkKey) (b : Nat) :
    ListsMoved acp.chunkList (acp.listMoveTail key b).chunkList key b := by
  constructor
  · intro i k
    simp only [AcpContext.listMoveTail, AcpContext.listAddTail, AcpContext.listDel, update_apply]
    split
    · rename_i hi
      subst hi
      rw [List.mem_append, List.mem_singleton, (h i).mem_erase_iff]
      tauto
    · rename_i hi
      rw [(h i).mem_erase_iff]
      tauto
  · intro i
    simp only [AcpContext.listMoveTail, AcpContext.listAddTail, AcpContext.listDel, update_apply]
    split
    · refine List.nodup_append.mpr ⟨(h b).erase _, List.nodup_singleton _, ?_⟩
      rintro x hx y hy rfl
      rw [List.mem_singleton.mp hy] at hx
      exact (h b).not_mem_erase hx
    · exact (h i).erase _

theorem Listed.moved {acp' : AcpContext} {chunk' : ChunkInfo} (h : Listed acp)
    (hc : acp.chunk key = some chunk) (hshape : SameShape (acp.setChunk key chunk') acp')
    (hinfo : acp'.chunkInfo = (acp.setChunk key chunk').chunkInfo)
    (hmoved : ListsMoved acp.chunkList acp'.chunkList key chunk'.bucketId) : Listed acp' := by
  have hchunk : ∀ k, acp'.chunk k = if k = key then some chunk' else acp.chunk k := by
    intro k
    have hset := chunk_congr hshape hinfo k
    rw [hset, chunk_setChunk, hc]
    rfl
  refine ⟨fun b k => ?_, hmoved.nodup⟩
  rw [hmoved.mem_iff, hchunk]
  by_cases hk : k = key
  · subst hk
    simp [eq_comm]
  · simp [hk, h.mem_iff]

theorem Listed.setChunk {chunk' : ChunkInfo} (h : Listed acp)
    (hc : acp.chunk key = some chunk) (hb : chunk'.bucketId = chunk.bucketId) :
    Listed (acp.setChunk key chunk') := by
  refine ⟨fun b k => ?_, h.nodup⟩
  change k ∈ acp.chunkList b ↔ _
  rw [h.mem_iff, chunk_setChunk]
  by_cases hk : k = key
  · subst hk
    simp [hc, hb]
  · simp [hk]

/-- `_acp_update_bucket` after a count that moved by at most one: it does not
abort and brings the chunk to the bucket of the count. -/
theorem acpUpdateBucket_spec (cfg : Config)
    (hth : acp.threshold = initialThreshold cfg) (hl : Listed acp) (hc : acp.chunk key = some chunk)
    (hold : InBucket (initialThreshold cfg) n chunk.bucketId) (hup : chunk.numDirty ≤ n + 1)
    (hdown : n ≤ chunk.numDirty + 1) (hmax : chunk.numDirty ≤ linesPerChunk cfg) :
    ∃ acp' b, acpUpdateBucket acp key = some acp' ∧ Listed acp' ∧ SameShape acp acp' ∧
      InBucket (initialThreshold cfg) chunk.numDirty b ∧
      ∀ k, acp'.chunk k = if k = key then some { chunk with bucketId := b } else acp.chunk k := by
  have hchunk : ∀ (chunk' : ChunkInfo) (acp' : AcpContext), SameShape (acp.setChunk key chunk') acp' →
      acp'.chunkInfo = (acp.setChunk key chunk').chunkInfo →
      ∀ k, acp'.chunk k = if k = key then some chunk' else acp.chunk k := by
    intro chunk' acp' hshape hinfo k
    rw [chunk_congr hshape hinfo k, chunk_setChunk, hc]
    rfl
  unfold acpUpdateBucket
  simp only [hc, Option.bind_eq_bind, Option.bind_some, hth]
  rcases inBucket_next cfg hold hup hdown hmax with
    ⟨hover, hlast, hin⟩ | ⟨hle, hb, hlow, hin⟩ | ⟨hle, hb, hin⟩
  · rw [if_pos hover, if_neg hlast]
    have hmoved := @listsMoved_listMoveTail (acp.setChunk key ⟨chunk.numDirty, chunk.bucketId + 1⟩)
      hl.nodup key (chunk.bucketId + 1)
    exact ⟨_, chunk.bucketId + 1, rfl, hl.moved hc ⟨rfl, rfl, rfl, rfl⟩ rfl hmoved,
      ⟨rfl, rfl, rfl, rfl⟩, hin, hchunk _ _ ⟨rfl, rfl, rfl, rfl⟩ rfl⟩
  · rw [if_neg (Nat.not_lt.mpr hle), if_pos ⟨hb, hlow⟩]
    have hmoved := @listsMoved_listMove (acp.setChunk key ⟨chunk.numDirty, chunk.bucketId - 1⟩)
      hl.nodup key (chunk.bucketId - 1)
    exact ⟨_, chunk.bucketId - 1, rfl, hl.moved hc ⟨rfl, rfl, rfl, rfl⟩ rfl hmoved,
      ⟨rfl, rfl, rfl, rfl⟩, hin, hchunk _ _ ⟨rfl, rfl, rfl, rfl⟩ rfl⟩
  · rw [if_neg (Nat.not_lt.mpr hle), if_neg hb]
    refine ⟨acp, chunk.bucketId, rfl, hl, .refl acp, hin, fun k => ?_⟩
    split
    · rename_i hk
      rw [hk, hc]
    · rfl

end OcfCache.Acp
