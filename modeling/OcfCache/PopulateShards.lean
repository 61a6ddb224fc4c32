import OcfCache.LruRuns

/-!
# Shards of the population and of the rebuild

Embedding of the shard handlers that put every cache line on the free list and
that walk the recovered metadata of every cache line. A handler of a shard
visits the chunks of its stripe, the population in the order of the bisecting
generator and the rebuild by skipping the chunks of the other shards. The module
shows that the shards together visit every line once, and that the generator is
defined exactly if no shard has a single chunk.
-/

namespace OcfCache.PopulateShards

open Bisect Lru LruRuns Lfu Loops

/-- Width of `ocf_cache_line_t`. -/
def lineWidth : Nat := 2 ^ 32

/-- `__builtin_clz` of a 32-bit word, without a result for zero. -/
def builtinClz (x : Nat) : Option Nat := if x = 0 then none else some (31 - Nat.log2 x)

/-- `ocf_generator_bisect_state`. -/
structure Generator where
  /-- Position in the order before the reversal of bits. -/
  curr : Nat
  /-- Bound of the generated values. -/
  limit : Nat

/-- `ocf_generator_bisect_init`. -/
def ocfGeneratorBisectInit (limit offset : Nat) : Option Generator :=
  (builtinClz (limit - 1)).map fun clz => ⟨offset * 2 ^ (32 - clz) / limit % 2 ^ 32, limit⟩

/-- `ocf_generator_bisect_next`, with the leading zeros it counts first. -/
def generatorNext (generator : Generator) : Option (Nat × Generator) :=
  (builtinClz (generator.limit - 1)).map fun _ =>
    let next := ocfGeneratorBisectNext generator.limit generator.curr
    (next.1, { generator with curr := next.2 })

/-- Constants of the striping of an eviction policy. -/
structure Striping where
  /-- Number of lists, one of each shard. -/
  lists : Nat
  /-- Number of lines of a chunk. -/
  chunkSize : Nat

/-- Number of lines of a stripe. -/
def Striping.stripeSize (k : Striping) : Nat := k.lists * k.chunkSize

/-- `partial_chunk_lines` of a shard. -/
def Striping.partialChunkLines (k : Striping) (entries shard : Nat) : Nat :=
  let remainder := entries % k.stripeSize
  if shard * k.chunkSize < remainder then
    if k.chunkSize < remainder - shard * k.chunkSize then k.chunkSize
    else remainder - shard * k.chunkSize
  else 0

/-- Body of the loop over a chunk; `none` is the `ENV_BUG_ON`. -/
def addLine (k : Striping) (entries shard chunk : Nat) (added : List Nat) (j : Nat) :
    Option (List Nat) :=
  let stripe := (chunk * k.lists + shard) % lineWidth
  let cline := (stripe * k.chunkSize + j) % lineWidth
  if entries ≤ cline then none else some (added ++ [cline])

/-- Loop over the chunks of a shard. -/
def populateLoop (k : Striping) (entries shard : Nat) : Nat → Generator → List Nat →
    Option (List Nat)
  | 0, _, added => some added
  | n + 1, generator, added =>
    (generatorNext generator).bind fun next =>
      let chunkLines :=
        if next.1 = entries / k.stripeSize then k.partialChunkLines entries shard
        else k.chunkSize
      ((List.range chunkLines).foldlM (addLine k entries shard next.1) added).bind
        (populateLoop k entries shard n next.2)

/-- The lines added by the handler of a shard in their order. -/
def populateHandle (k : Striping) (entries shard : Nat) : Option (List Nat) :=
  let numChunks :=
    entries / k.stripeSize + if 0 < k.partialChunkLines entries shard then 1 else 0
  if numChunks = 0 then some []
  else (ocfGeneratorBisectInit numChunks 0).bind fun generator =>
    populateLoop k entries shard numChunks generator []

/-- `ocf_lru_populate_handle`. -/
def ocfLruPopulateHandle : Nat → Nat → Option (List Nat) :=
  populateHandle ⟨ocfNumLruLists, ocfLruChunkSize⟩

/-- `ocf_lfu_populate_handle`. -/
def ocfLfuPopulateHandle : Nat → Nat → Option (List Nat) :=
  populateHandle ⟨lfuNumShards, lfuChunkSize⟩

/-- Lines visited by the handler of a shard, and its result. -/
structure Visit where
  /-- Visited lines in their order. -/
  lines : List Nat
  /-- The handler returned `-OCF_ERR_INVAL`. -/
  error : Bool

/-- Loop of `ocf_mngt_rebuild_metadata_handle`; a line is `ok` if neither its
metadata nor its core is refused. The first argument bounds the iterations. -/
def rebuildLoop (ok : Nat → Bool) (entries shard : Nat) : Nat → Nat → List Nat → Option Visit
  | 0, _, _ => none
  | fuel + 1, cline, visited =>
    if cline < entries then
      if ocfLruGetListIndex cline ≠ shard then
        rebuildLoop ok entries shard fuel
          ((cline + (ocfLruStripeSize - ocfLruChunkSize - 1) + 1) % lineWidth) visited
      else if ok cline then
        rebuildLoop ok entries shard fuel ((cline + 1) % lineWidth) (visited ++ [cline])
      else some ⟨visited ++ [cline], true⟩
    else some ⟨visited, false⟩

/-- `ocf_mngt_rebuild_metadata_handle`. -/
def ocfMngtRebuildMetadataHandle (ok : Nat → Bool) (entries shard : Nat) : Option Visit :=
  rebuildLoop ok entries shard (entries + 1) (shard * ocfLruChunkSize) []

/-- The final `curr_size` of the free partition, the sum of the counts of the
shards. -/
def currSize (added : Nat → List Nat) : Nat :=
  ((List.range ocfNumLruLists).map fun shard => (added shard).length).sum

theorem builtinClz_bitLength {x clz : Nat} (h : builtinClz x = some clz) (hx : x < 2 ^ 32) :
    32 - clz = bitLength x := by
  unfold builtinClz at h
  split at h
  · exact absurd h nofun
  · rename_i h0
    have hlog : Nat.log2 x < 32 := (Nat.log2_lt h0).mpr hx
    have hclz : 31 - Nat.log2 x = clz := Option.some.inj h
    rw [bitLength, if_neg h0]
    omega

theorem generatorNext_eq {limit curr : Nat} (hlimit : 2 ≤ limit) : generatorNext ⟨curr, limit⟩ =
      some ((ocfGeneratorBisectNext limit curr).1,
        ⟨(ocfGeneratorBisectNext limit curr).2, limit⟩) := by
  have hne : limit - 1 ≠ 0 := by omega
  simp [generatorNext, builtinClz, hne]

theorem generatorInit_eq {limit : Nat} (hlimit : 2 ≤ limit) :
    ocfGeneratorBisectInit limit 0 = some ⟨0, limit⟩ := by
  have hne : limit - 1 ≠ 0 := by omega
  simp [ocfGeneratorBisectInit, builtinClz, hne]

theorem generatorInit_one : ocfGeneratorBisectInit 1 0 = none := rfl

/-- The striping of both eviction policies. -/
def striping : Striping := ⟨ocfNumLruLists, ocfLruChunkSize⟩

@[simp] theorem striping_stripeSize : striping.stripeSize = ocfLruStripeSize := rfl

theorem striping_partialChunkLines (entries shard : Nat) :
    striping.partialChunkLines entries shard = partialChunkLines entries shard := by
  have hchunk : striping.chunkSize = ocfLruChunkSize := rfl
  simp only [Striping.partialChunkLines, striping_stripeSize, hchunk, partialChunkLines]
  split
  · split <;> omega
  · omega

section Population

variable {entries shard : Nat}

theorem addLine_foldlM {chunk : Nat} (hn : entries ≤ lineWidth) (js added : List Nat)
    (hlt : ∀ j ∈ js, ocfGetChunkCline shard chunk j < entries) :
    js.foldlM (addLine striping entries shard chunk) added =
      some (added ++ js.map (ocfGetChunkCline shard chunk)) := by
  induction js generalizing added with
  | nil => simp
  | cons j js ih =>
    have hj : ocfGetChunkCline shard chunk j < entries := hlt j (List.mem_cons_self ..)
    have hrest := fun i hi => hlt i (List.mem_cons_of_mem _ hi)
    have hcline : ((chunk * striping.lists + shard) % lineWidth * striping.chunkSize + j) %
        lineWidth = ocfGetChunkCline shard chunk j := by
      have hdef : ocfGetChunkCline shard chunk j = (chunk * 32 + shard) * 256 + j := rfl
      have hlists : striping.lists = 32 := rfl
      have hsize : striping.chunkSize = 256 := rfl
      have hwidth : lineWidth = 4294967296 := rfl
      rw [hlists, hsize, hdef, hwidth]
      omega
    have hstep : addLine striping entries shard chunk added j =
        some (added ++ [ocfGetChunkCline shard chunk j]) := by
      simp only [addLine, hcline]
      rw [if_neg (by omega)]
    rw [List.foldlM_cons, hstep]
    refine (ih _ hrest).trans ?_
    simp

theorem populateLoop_eq {limit : Nat} (hlimit : 2 ≤ limit) (hn : entries ≤ lineWidth) (n curr : Nat)
    (added : List Nat)
    (hlt : ∀ chunk ∈ bisectValues limit n curr, ∀ x ∈ chunkLines entries shard chunk, x < entries) :
    populateLoop striping entries shard n ⟨curr, limit⟩ added =
      some (added ++ (bisectValues limit n curr).flatMap (chunkLines entries shard)) := by
  induction n generalizing curr added with
  | zero => simp [populateLoop, bisectValues]
  | succ n ih =>
    generalize hnext : ocfGeneratorBisectNext limit curr = next
    have hvalues : bisectValues limit (n + 1) curr = next.1 :: bisectValues limit n next.2 := by
      rw [bisectValues, hnext]
    rw [hvalues] at hlt ⊢
    have hlines : chunkLines entries shard next.1 =
        (List.range (if next.1 = entries / striping.stripeSize then
            striping.partialChunkLines entries shard else striping.chunkSize)).map
          (ocfGetChunkCline shard next.1) := by
      rw [striping_partialChunkLines]
      rfl
    have hchunk := hlt next.1 (List.mem_cons_self ..)
    rw [hlines] at hchunk
    have hadd := addLine_foldlM hn _ added fun j hj => hchunk _ (List.mem_map_of_mem hj)
    rw [populateLoop, generatorNext_eq hlimit, hnext]
    simp only [Option.bind_some, hadd, ← hlines]
    rw [ih _ _ fun chunk hmem => hlt chunk (List.mem_cons_of_mem _ hmem)]
    simp

theorem populateHandle_eq (hs : shard < ocfNumLruLists) (hn : entries < lineWidth)
    (hchunks : numChunks entries shard ≠ 1) :
    populateHandle striping entries shard = some (populateShard entries shard) := by
  have hnum : (entries / striping.stripeSize +
      if 0 < striping.partialChunkLines entries shard then 1 else 0) =
        numChunks entries shard := by
    rw [striping_partialChunkLines]
    rfl
  simp only [populateHandle, hnum]
  by_cases h0 : numChunks entries shard = 0
  · rw [if_pos h0]
    simp [populateShard, h0, bisectOrder, bisectValues]
  · have hlimit : 2 ≤ numChunks entries shard := by omega
    have hlt : ∀ chunk ∈ bisectValues (numChunks entries shard) (numChunks entries shard) 0,
        ∀ x ∈ chunkLines entries shard chunk, x < entries := by
      intro chunk hchunk x hx
      have hmem : x ∈ populateShard entries shard := List.mem_flatMap.mpr ⟨chunk, hchunk, hx⟩
      exact ((mem_populateShard hs hn).mp hmem).1
    rw [if_neg h0, generatorInit_eq hlimit]
    refine (populateLoop_eq hlimit hn.le _ _ [] hlt).trans ?_
    simp [populateShard, bisectOrder]

theorem populateHandle_none (hchunks : numChunks entries shard = 1) :
    populateHandle striping entries shard = none := by
  have hnum : (entries / striping.stripeSize +
      if 0 < striping.partialChunkLines entries shard then 1 else 0) =
        numChunks entries shard := by
    rw [striping_partialChunkLines]
    rfl
  simp only [populateHandle, hnum, hchunks, generatorInit_one]
  rfl

theorem numChunks_eq_one (hpos : 1 ≤ entries) :
    (∃ shard < ocfNumLruLists, numChunks entries shard = 1) ↔ entries ≤ 16128 := by
  have hnum : ∀ shard, numChunks entries shard =
      entries / 8192 + if 0 < min (entries % 8192 - shard * 256) 256 then 1 else 0 :=
    fun _ => rfl
  have hlists : ocfNumLruLists = 32 := rfl
  simp only [hnum, hlists]
  constructor
  · rintro ⟨shard, hshard, hone⟩
    split at hone <;> omega
  · intro hle
    by_cases hfull : entries < 8192
    · refine ⟨0, by omega, ?_⟩
      split <;> omega
    · refine ⟨31, by omega, ?_⟩
      split <;> omega

end Population

section Rebuild

variable {ok : Nat → Bool} {entries shard : Nat}

theorem rebuildShard_skip {a b : Nat} (hab : a ≤ b)
    (hskip : ∀ x, a ≤ x → x < b → ocfLruGetListIndex x ≠ shard) :
    rebuildShard b shard = rebuildShard a shard := by
  induction b, hab using Nat.le_induction with
  | base => rfl
  | succ b hb ih =>
    have hlast : ocfLruGetListIndex b ≠ shard := hskip b hb (Nat.lt_succ_self b)
    have hbefore := ih fun x hx hlt => hskip x hx (Nat.lt_succ_of_lt hlt)
    rw [← hbefore, rebuildShard, List.range_succ, List.filter_append]
    simp [hlast, rebuildShard]

theorem rebuildShard_succ {cline : Nat} (h : ocfLruGetListIndex cline = shard) :
    rebuildShard (cline + 1) shard = rebuildShard cline shard ++ [cline] := by
  rw [rebuildShard, List.range_succ, List.filter_append]
  simp [h, rebuildShard]

/-- The loop stands in a chunk of its shard or right after one, and has visited
the lines of its shard up to there. -/
structure AtLine (entries shard cline : Nat) (visited : List Nat) : Prop where
  /-- The loop starts with the first line of the shard. -/
  from_begin : shard * ocfLruChunkSize ≤ cline
  /-- The loop is at most one line behind a chunk of the shard. -/
  in_chunk : (cline - shard * ocfLruChunkSize) % ocfLruStripeSize ≤ ocfLruChunkSize
  /-- The lines of the shard up to here are visited. -/
  visited : visited = rebuildShard (min cline entries) shard

theorem AtLine.skip {cline : Nat} {visited : List Nat} (h : AtLine entries shard cline visited)
    (hs : shard < ocfNumLruLists) (hlt : cline < entries)
    (hindex : ocfLruGetListIndex cline ≠ shard) :
    AtLine entries shard (cline + (ocfLruStripeSize - ocfLruChunkSize - 1) + 1) visited := by
  have hbegin : shard * 256 ≤ cline := h.from_begin
  have hchunk : (cline - shard * 256) % 8192 ≤ 256 := h.in_chunk
  have hs' : shard < 32 := hs
  have hother : cline / 256 % 32 ≠ shard := hindex
  have hbehind : (cline - shard * 256) % 8192 = 256 := by omega
  have hnext : cline + (ocfLruStripeSize - ocfLruChunkSize - 1) + 1 = cline + 7936 := rfl
  rw [hnext]
  refine ⟨?_, ?_, ?_⟩
  · change shard * 256 ≤ cline + 7936
    omega
  · change (cline + 7936 - shard * 256) % 8192 ≤ 256
    omega
  · rw [h.visited]
    refine (rebuildShard_skip (by omega) fun x hx hx' => ?_).symm
    change x / 256 % 32 ≠ shard
    omega

theorem AtLine.next {cline : Nat} {visited : List Nat} (h : AtLine entries shard cline visited)
    (hlt : cline < entries) (hindex : ocfLruGetListIndex cline = shard) :
    AtLine entries shard (cline + 1) (visited ++ [cline]) := by
  have hbegin := h.from_begin
  have hchunk := h.in_chunk
  refine ⟨by omega, ?_, ?_⟩
  · simp only [ocfLruGetListIndex, ocfLruStripeSize, ocfNumLruLists, ocfLruChunkSize] at *
    omega
  · rw [h.visited, Nat.min_eq_left hlt.le, Nat.min_eq_left hlt, rebuildShard_succ hindex]

theorem rebuildLoop_eq (hs : shard < ocfNumLruLists) (hmax : entries ≤ ocfCacheLineMax)
    (hok : ∀ x < entries, ok x = true) (fuel cline : Nat) (visited : List Nat)
    (h : AtLine entries shard cline visited) (hfuel : entries - cline < fuel) :
    rebuildLoop ok entries shard fuel cline visited = some ⟨rebuildShard entries shard, false⟩ := by
  have hmax' : entries ≤ 2 ^ 29 - 2 := hmax
  have hwidth : lineWidth = 2 ^ 32 := rfl
  have hskip : ocfLruStripeSize - ocfLruChunkSize - 1 = 7935 := rfl
  induction fuel generalizing cline visited with
  | zero => exact absurd hfuel (Nat.not_lt_zero _)
  | succ fuel ih =>
    rw [rebuildLoop]
    by_cases hlt : cline < entries
    · by_cases hindex : ocfLruGetListIndex cline = shard
      · have hnext : (cline + 1) % lineWidth = cline + 1 := Nat.mod_eq_of_lt (by omega)
        rw [if_pos hlt, if_neg (not_not.mpr hindex), if_pos (hok cline hlt), hnext]
        exact ih _ _ (h.next hlt hindex) (by omega)
      · have hnext : (cline + (ocfLruStripeSize - ocfLruChunkSize - 1) + 1) % lineWidth =
            cline + (ocfLruStripeSize - ocfLruChunkSize - 1) + 1 :=
          Nat.mod_eq_of_lt (by omega)
        rw [if_pos hlt, if_pos hindex, hnext]
        exact ih _ _ (h.skip hs hlt hindex) (by omega)
    · rw [if_neg hlt, h.visited, Nat.min_eq_right (by omega)]

theorem atLine_begin (hs : shard < ocfNumLruLists) :
    AtLine entries shard (shard * ocfLruChunkSize) [] := by
  refine ⟨Nat.le_refl _, ?_, ?_⟩
  · rw [Nat.sub_self, Nat.zero_mod]
    exact Nat.zero_le _
  · have hbefore : ∀ x, 0 ≤ x → x < min (shard * ocfLruChunkSize) entries →
        ocfLruGetListIndex x ≠ shard := by
      intro x _ hx
      have hx' : x < shard * 256 := hx.trans_le (Nat.min_le_left _ _)
      have hs' : shard < 32 := hs
      change x / 256 % 32 ≠ shard
      omega
    rw [rebuildShard_skip (Nat.zero_le _) hbefore]
    rfl

theorem rebuildHandle_eq (hs : shard < ocfNumLruLists) (hmax : entries ≤ ocfCacheLineMax)
    (hok : ∀ x < entries, ok x = true) :
    ocfMngtRebuildMetadataHandle ok entries shard = some ⟨rebuildShard entries shard, false⟩ :=
  rebuildLoop_eq hs hmax hok _ _ _ (atLine_begin hs) (by omega)

end Rebuild

/-- The shards together cover the cache, each with the lines of its list. -/
structure Covers (index : Nat → Nat) (entries : Nat) (added : Nat → List Nat) : Prop where
  /-- The lines of all shards are the cache lines, each once. -/
  lines : ((List.range ocfNumLruLists).flatMap added).Perm (List.range entries)
  /-- A line belongs to the shard of its list. -/
  own_list : ∀ shard < ocfNumLruLists, ∀ x ∈ added shard, index x = shard

theorem Covers.of_lists {index : Nat → Nat} {entries : Nat} {added : Nat → List Nat}
    (hindex : ∀ x, index x < ocfNumLruLists) (hd : ∀ shard < ocfNumLruLists, (added shard).Nodup)
    (hmem : ∀ shard < ocfNumLruLists, ∀ x, x ∈ added shard ↔ x < entries ∧ index x = shard) :
    Covers index entries added := by
  have hshard : ∀ shard ∈ List.range ocfNumLruLists, shard < ocfNumLruLists :=
    fun shard h => List.mem_range.mp h
  have hnodup : ((List.range ocfNumLruLists).flatMap added).Nodup := by
    refine List.nodup_flatMap.mpr ⟨fun shard h => hd shard (hshard shard h), ?_⟩
    refine List.Pairwise.imp_of_mem ?_ List.nodup_range
    intro a b ha hb hne x hxa hxb
    have hindexa := ((hmem a (hshard a ha) x).mp hxa).2
    have hindexb := ((hmem b (hshard b hb) x).mp hxb).2
    exact hne (hindexa.symm.trans hindexb)
  refine ⟨(List.perm_ext_iff_of_nodup hnodup List.nodup_range).mpr fun x => ?_,
    fun shard hs x hx => ((hmem shard hs x).mp hx).2⟩
  rw [List.mem_flatMap, List.mem_range]
  constructor
  · rintro ⟨shard, hs, hx⟩
    exact ((hmem shard (hshard shard hs) x).mp hx).1
  · intro hx
    have hlist := (hmem _ (hindex x) x).mpr ⟨hx, rfl⟩
    exact ⟨index x, List.mem_range.mpr (hindex x), hlist⟩

theorem Covers.currSize_eq {index : Nat → Nat} {entries : Nat} {added : Nat → List Nat}
    (h : Covers index entries added) : currSize added = entries := by
  have hlength := h.lines.length_eq
  rw [List.length_flatMap, List.length_range] at hlength
  exact hlength

/-- Population and rebuild cover the cache exactly: every handler comes to its
end, with leading zeros counted of nonzero words only. -/
structure CoverExactly (entries : Nat) : Prop where
  /-- Population of the LRU lists. -/
  lru : ∃ added, (∀ shard < ocfNumLruLists, ocfLruPopulateHandle entries shard = some (added shard)) ∧
    Covers ocfLruGetListIndex entries added ∧ currSize added = entries
  /-- Population of the LFU lists. -/
  lfu : ∃ added, (∀ shard < lfuNumShards, ocfLfuPopulateHandle entries shard = some (added shard)) ∧
    Covers ocfLfuGetShardIndex entries added ∧ currSize added = entries
  /-- Rebuild of metadata without a refused line. -/
  rebuild : ∀ ok : Nat → Bool, (∀ x < entries, ok x = true) → ∃ visited,
    (∀ shard < ocfNumLruLists,
      ocfMngtRebuildMetadataHandle ok entries shard = some ⟨visited shard, false⟩) ∧
    Covers ocfLruGetListIndex entries visited

/-- Population and rebuild cover the cache exactly if and only if it has more
than 16128 lines; otherwise some shard has a single chunk. -/
theorem cover_exactly_iff {entries : Nat} (hpos : 1 ≤ entries)
    (hmax : entries ≤ ocfCacheLineMax) : CoverExactly entries ↔ 16128 < entries := by
  have hsingle := numChunks_eq_one hpos
  constructor
  · intro h
    by_contra hle
    obtain ⟨shard, hs, hone⟩ := hsingle.mpr (Nat.not_lt.mp hle)
    obtain ⟨added, hadded, -⟩ := h.lru
    have hnone : ocfLruPopulateHandle entries shard = none := populateHandle_none hone
    rw [hadded shard hs] at hnone
    exact absurd hnone nofun
  · intro hlt
    have hmax' : entries ≤ 2 ^ 29 - 2 := hmax
    have hn : entries < lineWidth := by
      have hwidth : lineWidth = 2 ^ 32 := rfl
      omega
    have hchunks : ∀ shard < ocfNumLruLists, numChunks entries shard ≠ 1 := by
      intro shard hs hone
      have hle := hsingle.mp ⟨shard, hs, hone⟩
      omega
    have hpopulate : ∀ shard < ocfNumLruLists,
        populateHandle striping entries shard = some (populateShard entries shard) :=
      fun shard hs => populateHandle_eq hs hn (hchunks shard hs)
    have hcovers : Covers ocfLruGetListIndex entries (populateShard entries) :=
      .of_lists LruPlacement.ocfLruGetListIndex_lt (fun _ _ => nodup_populateShard hn)
        fun _ hs _ => mem_populateShard hs hn
    refine ⟨⟨_, hpopulate, hcovers, hcovers.currSize_eq⟩,
      ⟨_, hpopulate, hcovers, hcovers.currSize_eq⟩, fun ok hok => ?_⟩
    refine ⟨rebuildShard entries, fun shard hs => rebuildHandle_eq hs hmax hok, ?_⟩
    refine .of_lists LruPlacement.ocfLruGetListIndex_lt (fun shard _ => List.nodup_range.filter _) ?_
    simp [rebuildShard]

/-- A cache of 20000 lines is covered exactly. -/
theorem cover_exactly_twenty_thousand :
    1 ≤ 20000 ∧ 20000 ≤ ocfCacheLineMax ∧ (CoverExactly 20000 ↔ 16128 < 20000) :=
  ⟨by decide, by decide, cover_exactly_iff (by decide) (by decide)⟩

/-- A cache of 5000 lines has a single chunk in its first shard. -/
theorem cover_exactly_fails : ¬∀ entries, 1 ≤ entries → entries ≤ ocfCacheLineMax →
    CoverExactly entries := by
  intro h
  obtain ⟨added, hadded, -⟩ := (h 5000 (by decide) (by decide)).lru
  have hnone : ocfLruPopulateHandle 5000 0 = none := rfl
  rw [hadded 0 (Nat.succ_pos _)] at hnone
  exact absurd hnone nofun

end OcfCache.PopulateShards
