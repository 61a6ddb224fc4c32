import OcfCache.AcpBuckets
import OcfCache.Runs

/-!
# Runs of the ACP cleaning policy

The policy as a system: lines are mapped and unmapped, their dirty bits
change, and the policy's callbacks run in any order, each under the lock of
the chunks. The invariant is the accounting itself together with the facts
about the mapping that bound a count by the lines of a chunk.
-/

namespace OcfCache.Acp

open Function Metadata Loops Runs

/-- Lines of a chunk whose flag is set. -/
def flaggedLines (cfg : Config) (s : State) (key : ChunkKey) : Nat :=
  countBelow (fun line => decide (acpGetChunk cfg s.md line = key) && s.acpDirty line)
    cfg.geometry.collisionEntries

/-- The accounting of the chunks is exact. -/
structure Accounted (cfg : Config) (s : State) : Prop where
  /-- A count is the number of flagged lines of its chunk. -/
  numDirty_eq : ∀ key chunk, s.acp.chunk key = some chunk → chunk.numDirty = flaggedLines cfg s key
  /-- Every chunk is on the list of its bucket. -/
  listed : Listed s.acp
  /-- The bucket is the one of the count. -/
  inBucket : ∀ key chunk, s.acp.chunk key = some chunk →
    InBucket s.acp.threshold chunk.numDirty chunk.bucketId

/-- What the rest of the cache keeps about mapped lines and cores. -/
structure Placed (cfg : Config) (s : State) : Prop where
  /-- A core line is mapped at most once. -/
  unique : ∀ line line', line < cfg.geometry.collisionEntries → line' < cfg.geometry.collisionEntries →
    (s.md.coreInfo line).1 < ocfCoreNum → s.md.coreInfo line = s.md.coreInfo line' → line = line'
  /-- The lines of a core with chunks are lines of the core. -/
  inCore : ∀ line, line < cfg.geometry.collisionEntries → s.acp.allocated (s.md.coreInfo line).1 = true →
    (s.md.coreInfo line).2 * cfg.lineSize < s.length (s.md.coreInfo line).1
  /-- Only core ids have chunks. -/
  core_lt : ∀ core, s.acp.allocated core = true → core < ocfCoreNum
  /-- Size of a chunk table. -/
  numChunks_eq : ∀ core, s.acp.numChunks core =
    if s.acp.allocated core = true then numChunksOf (s.length core) else 0
  /-- Number of all chunks. -/
  chunksTotal_eq : s.acp.chunksTotal = ∑ core ∈ Finset.range ocfCoreNum, s.acp.numChunks core
  /-- The thresholds do not change. -/
  threshold_eq : s.acp.threshold = initialThreshold cfg

/-- The invariant of a run. -/
structure Inv (cfg : Config) (s : State) : Prop where
  /-- Exact accounting. -/
  accounted : Accounted cfg s
  /-- Facts about the mapping. -/
  placed : Placed cfg s

variable {cfg : Config} {s : State} {line core : Nat}

theorem Placed.chunk (h : Placed cfg s)
    (hline : line < cfg.geometry.collisionEntries) (ha : s.acp.allocated (s.md.coreInfo line).1 = true) :
    ∃ chunk, s.acp.chunk (acpGetChunk cfg s.md line) = some chunk := by
  refine ⟨_, chunk_eq_some.mpr ⟨ha, ?_, rfl⟩⟩
  have hnum := h.numChunks_eq (s.md.coreInfo line).1
  rw [if_pos ha] at hnum
  change (s.md.coreInfo line).2 * cfg.lineSize / acpChunkSize < s.acp.numChunks (s.md.coreInfo line).1
  rw [hnum]
  have hin := h.inCore line hline ha
  have hpos : 0 < acpChunkSize := by decide
  unfold numChunksOf
  rw [Nat.div_lt_iff_lt_mul hpos]
  have hround := Nat.lt_div_mul_add (a := s.length (s.md.coreInfo line).1 + (acpChunkSize - 1)) hpos
  omega

theorem Placed.count_le (h : Placed cfg s) {key : ChunkKey} (hkey : key.1 < ocfCoreNum)
    {p : Nat → Bool} (hp : ∀ line, p line = true → acpGetChunk cfg s.md line = key) :
    countBelow p cfg.geometry.collisionEntries ≤ linesPerChunk cfg := by
  obtain ⟨-, -, -, hchunk, hsize⟩ := linesPerChunk_eq cfg
  refine countBelow_le_of_inj (fun line => (s.md.coreInfo line).2) (key.2 * linesPerChunk cfg) ?_ ?_
  · intro line hline hpl
    have hk := congrArg Prod.snd (hp line hpl)
    change (s.md.coreInfo line).2 * cfg.lineSize / acpChunkSize = key.2 at hk
    rw [hchunk, Nat.mul_div_mul_right _ _ hsize] at hk
    have hpos : 0 < linesPerChunk cfg := by
      obtain ⟨hl, hw, -⟩ := linesPerChunk_eq cfg
      omega
    rw [← hk]
    exact ⟨Nat.div_mul_le_self _ _, Nat.lt_div_mul_add hpos⟩
  · intro line line' hline hline' hpl hpl' heq
    have hk := congrArg Prod.fst (hp line hpl)
    have hk' := congrArg Prod.fst (hp line' hpl')
    change (s.md.coreInfo line).1 = key.1 at hk
    change (s.md.coreInfo line').1 = key.1 at hk'
    exact h.unique line line' hline hline' (by omega) (Prod.ext (hk.trans hk'.symm) heq)

theorem flaggedLines_update (cfg : Config) (s s' : State) {flag : Bool}
    (hline : line < cfg.geometry.collisionEntries) (hmd : s'.md = s.md)
    (hflag : s'.acpDirty = update s.acpDirty line flag) :
    flaggedLines cfg s' (acpGetChunk cfg s.md line) + (s.acpDirty line).toNat =
        flaggedLines cfg s (acpGetChunk cfg s.md line) + flag.toNat ∧
      ∀ key, key ≠ acpGetChunk cfg s.md line → flaggedLines cfg s' key = flaggedLines cfg s key := by
  unfold flaggedLines
  rw [hmd, hflag]
  constructor
  · have hother : ∀ j < cfg.geometry.collisionEntries, j ≠ line →
        (decide (acpGetChunk cfg s.md j = acpGetChunk cfg s.md line) &&
          update s.acpDirty line flag j) =
        (decide (acpGetChunk cfg s.md j = acpGetChunk cfg s.md line) && s.acpDirty j) := by
      intro j _ hj
      rw [update_of_ne hj]
    have hchange := countBelow_change hline hother
    simpa using hchange
  · intro key hkey
    refine countBelow_congr fun j _ => ?_
    by_cases hj : j = line
    · subst hj
      simp [Ne.symm hkey]
    · rw [update_of_ne hj]

/-- What a callback about one line leaves alone. -/
structure SameLines (s s' : State) : Prop where
  /-- Metadata. -/
  md : s'.md = s.md
  /-- Cores. -/
  added : s'.added = s.added
  /-- Their lengths. -/
  length : s'.length = s.length
  /-- Tables of chunks. -/
  shape : SameShape s.acp s'.acp

theorem SameLines.refl (s : State) : SameLines s s := ⟨rfl, rfl, rfl, .refl _⟩

theorem SameLines.trans {a b c : State} (h : SameLines a b) (h' : SameLines b c) : SameLines a c :=
  ⟨h'.1.trans h.1, h'.2.trans h.2, h'.3.trans h.3, h.4.trans h'.4⟩

theorem Placed.of_same {s' : State} (h : Placed cfg s) (hs : SameLines s s') : Placed cfg s' := by
  constructor
  · rw [hs.md]
    exact h.unique
  · rw [hs.md, hs.length, hs.shape.allocated]
    exact h.inCore
  · rw [hs.shape.allocated]
    exact h.core_lt
  · rw [hs.shape.allocated, hs.shape.numChunks, hs.length]
    exact h.numChunks_eq
  · rw [hs.shape.numChunks, hs.shape.chunksTotal]
    exact h.chunksTotal_eq
  · rw [hs.shape.threshold]
    exact h.threshold_eq

theorem Placed.of_added {added : Nat → Bool} (h : Placed cfg s) :
    Placed cfg { s with added := added } :=
  ⟨h.unique, h.inCore, h.core_lt, h.numChunks_eq, h.chunksTotal_eq, h.threshold_eq⟩

theorem flaggedLines_le (h : Placed cfg s) {key : ChunkKey}
    (hkey : key.1 < ocfCoreNum) : flaggedLines cfg s key ≤ linesPerChunk cfg :=
  h.count_le hkey fun _ hp => of_decide_eq_true (Bool.and_eq_true_iff.mp hp).1

/-- How the 16-bit count follows a flag that changes. -/
def Follows (cfg : Config) (flag : Bool) (count : Nat → Nat) : Prop :=
  ∀ n m, m ≤ linesPerChunk cfg → n ≤ linesPerChunk cfg → m + (!flag).toNat = n + flag.toNat → count n = m

theorem follows_inc (cfg : Config) : Follows cfg true fun n => (n + 1) % 2 ^ 16 := by
  obtain ⟨hl, -, hw, -, -⟩ := linesPerChunk_eq cfg
  intro n m hm hn h
  simp only [Bool.not_true, Bool.toNat_false, Bool.toNat_true] at h
  change (n + 1) % 2 ^ 16 = m
  omega

theorem follows_dec (cfg : Config) : Follows cfg false fun n => (n + (2 ^ 16 - 1)) % 2 ^ 16 := by
  obtain ⟨hl, -, hw, -, -⟩ := linesPerChunk_eq cfg
  intro n m hm hn h
  simp only [Bool.not_false, Bool.toNat_false, Bool.toNat_true] at h
  change (n + (2 ^ 16 - 1)) % 2 ^ 16 = m
  omega

theorem countFlag_spec {flag : Bool} {count : Nat → Nat}
    {chunk : ChunkInfo} (h : Inv cfg s) (hline : line < cfg.geometry.collisionEntries)
    (hc : s.acp.chunk (acpGetChunk cfg s.md line) = some chunk) (hcount : Follows cfg flag count)
    {s₁ : State} (hs₁ : countFlag flag count s line (acpGetChunk cfg s.md line) chunk = s₁) :
    SameLines s s₁ ∧ s₁.acpDirty = update s.acpDirty line flag ∧ Listed s₁.acp ∧
      ∀ k, s₁.acp.chunk k = if k = acpGetChunk cfg s.md line then
        some ⟨flaggedLines cfg s₁ (acpGetChunk cfg s.md line), chunk.bucketId⟩ else s.acp.chunk k := by
  have hn := h.accounted.numDirty_eq _ _ hc
  have hkey : (acpGetChunk cfg s.md line).1 < ocfCoreNum := h.placed.core_lt _ (chunk_eq_some.mp hc).1
  unfold countFlag at hs₁
  split at hs₁
  · rename_i hflag
    subst hs₁
    have hsame : s.acpDirty = update s.acpDirty line flag := by
      rw [← hflag, update_eq_self]
    refine ⟨.refl s, hsame, h.accounted.listed, fun k => ?_⟩
    split
    · rename_i hk
      rw [hk, hc, ← hn]
    · rfl
  · rename_i hflag
    have hsame : SameLines s s₁ := by
      subst hs₁
      exact ⟨rfl, rfl, rfl, ⟨rfl, rfl, rfl, rfl⟩⟩
    have hdirty : s₁.acpDirty = update s.acpDirty line flag := by
      subst hs₁
      rfl
    have hold : s.acpDirty line = !flag := Bool.eq_not.mpr hflag
    have hchange := (flaggedLines_update cfg s s₁ hline hsame.md hdirty).1
    rw [hold, ← hn] at hchange
    have hnew : count chunk.numDirty = flaggedLines cfg s₁ (acpGetChunk cfg s.md line) :=
      hcount _ _ (flaggedLines_le (h.placed.of_same hsame) hkey)
        (by rw [hn]; exact flaggedLines_le h.placed hkey) hchange
    refine ⟨hsame, hdirty, ?_, fun k => ?_⟩
    · subst hs₁
      exact h.accounted.listed.setChunk hc rfl
    · rw [← hnew]
      subst hs₁
      rw [chunk_setChunk, hc]
      rfl

/-- A changed flag is counted in the chunk of the line. -/
theorem setFlag_spec {flag : Bool} {count : Nat → Nat} (h : Inv cfg s)
    (hline : line < cfg.geometry.collisionEntries) (ha : s.acp.allocated (s.md.coreInfo line).1 = true)
    (hcount : Follows cfg flag count) :
    ∃ s', setFlag cfg flag count s line = some s' ∧ Inv cfg s' ∧ SameLines s s' ∧
      s'.acpDirty = update s.acpDirty line flag := by
  obtain ⟨chunk, hc⟩ := h.placed.chunk hline ha
  have hkey : (acpGetChunk cfg s.md line).1 < ocfCoreNum := h.placed.core_lt _ ha
  have hn := h.accounted.numDirty_eq _ _ hc
  obtain ⟨s₁, heq⟩ : ∃ s₁, countFlag flag count s line (acpGetChunk cfg s.md line) chunk = s₁ := ⟨_, rfl⟩
  obtain ⟨hsame, hdirty, hlisted, hchunk⟩ := countFlag_spec h hline hc hcount heq
  obtain ⟨hchange, hother⟩ := flaggedLines_update cfg s s₁ hline hsame.md hdirty
  have hplaced₁ := h.placed.of_same hsame
  have hc₁ := hchunk (acpGetChunk cfg s.md line)
  rw [if_pos rfl] at hc₁
  have hold : InBucket (initialThreshold cfg) chunk.numDirty chunk.bucketId := by
    rw [← h.placed.threshold_eq]
    exact h.accounted.inBucket _ _ hc
  have hbits : (s.acpDirty line).toNat ≤ 1 ∧ flag.toNat ≤ 1 := ⟨Bool.toNat_le _, Bool.toNat_le _⟩
  obtain ⟨acp', b, hupdate, hlisted', hshape, hin, hchunk'⟩ := acpUpdateBucket_spec cfg hplaced₁.threshold_eq
    hlisted hc₁ hold (by rw [hn]; dsimp only; omega) (by rw [hn]; dsimp only; omega)
    (flaggedLines_le hplaced₁ hkey)
  have hsame' : SameLines s { s₁ with acp := acp' } := hsame.trans ⟨rfl, rfl, rfl, hshape⟩
  have hchunks : ∀ key c, acp'.chunk key = some c →
      (key = acpGetChunk cfg s.md line ∧ c = ⟨flaggedLines cfg s₁ key, b⟩) ∨
      (key ≠ acpGetChunk cfg s.md line ∧ s.acp.chunk key = some c) := by
    intro key c hkc
    rw [hchunk', hchunk] at hkc
    by_cases hk : key = acpGetChunk cfg s.md line
    · rw [if_pos hk] at hkc
      cases hkc
      exact Or.inl ⟨hk, by rw [hk]⟩
    · rw [if_neg hk, if_neg hk] at hkc
      exact Or.inr ⟨hk, hkc⟩
  refine ⟨{ s₁ with acp := acp' }, ?_, ⟨⟨?_, hlisted', ?_⟩, h.placed.of_same hsame'⟩, hsame', hdirty⟩
  · unfold setFlag
    simp only [hc, Option.bind_eq_bind, Option.bind_some, heq, hupdate]
  · intro key c hkc
    change c.numDirty = flaggedLines cfg s₁ key
    obtain ⟨hk, rfl⟩ | ⟨hk, hkc⟩ := hchunks key c hkc
    · rfl
    · rw [hother key hk]
      exact h.accounted.numDirty_eq key c hkc
  · intro key c hkc
    change InBucket acp'.threshold c.numDirty c.bucketId
    rw [hshape.threshold, hplaced₁.threshold_eq]
    obtain ⟨hk, rfl⟩ | ⟨hk, hkc⟩ := hchunks key c hkc
    · rw [hk]
      exact hin
    · rw [← h.placed.threshold_eq]
      exact h.accounted.inBucket key c hkc

theorem listAdd_loop (acp : AcpContext) (core n : Nat) (hd : ∀ b, (acp.chunkList b).Nodup)
    (hnew : ∀ b i, (core, i) ∉ acp.chunkList b) :
    ∃ lists, forRange n (fun acp i => acp.listAdd (core, i) 0) acp = { acp with chunkList := lists } ∧
      (∀ b, (lists b).Nodup) ∧
      ∀ b key, key ∈ lists b ↔ key ∈ acp.chunkList b ∨ (b = 0 ∧ key.1 = core ∧ key.2 < n) := by
  refine forRange_inv (fun j (t : AcpContext) => ∃ lists, t = { acp with chunkList := lists } ∧
    (∀ b, (lists b).Nodup) ∧
      ∀ b key, key ∈ lists b ↔ key ∈ acp.chunkList b ∨ (b = 0 ∧ key.1 = core ∧ key.2 < j)) ?_ ?_
  · exact ⟨acp.chunkList, rfl, hd, by simp⟩
  · rintro i t hi ⟨lists, rfl, hdl, hmem⟩
    refine ⟨_, rfl, fun b => ?_, fun b key => ?_⟩
    · simp only [update_apply]
      split
      · refine List.nodup_cons.mpr ⟨fun hin => ?_, hdl 0⟩
        rcases (hmem 0 _).mp hin with hold | ⟨-, -, hlt⟩
        · exact hnew 0 i hold
        · exact Nat.lt_irrefl i hlt
      · exact hdl b
    · simp only [update_apply]
      split
      · rename_i hb
        subst hb
        rw [List.mem_cons, hmem]
        constructor
        · rintro (rfl | hold | ⟨-, hc, hlt⟩)
          · exact Or.inr ⟨rfl, rfl, Nat.lt_succ_self i⟩
          · exact Or.inl hold
          · exact Or.inr ⟨rfl, hc, by omega⟩
        · rintro (hold | ⟨-, hc, hlt⟩)
          · exact Or.inr (Or.inl hold)
          · rcases Nat.lt_succ_iff_lt_or_eq.mp hlt with hlt | heq
            · exact Or.inr (Or.inr ⟨rfl, hc, hlt⟩)
            · exact Or.inl (Prod.ext hc heq)
      · rename_i hb
        rw [hmem]
        simp [hb]

theorem listDel_loop (acp : AcpContext) (core n : Nat) (hd : ∀ b, (acp.chunkList b).Nodup) :
    ∃ lists, forRange n (fun acp i => acp.listDel (core, i)) acp = { acp with chunkList := lists } ∧
      (∀ b, (lists b).Nodup) ∧
      ∀ b key, key ∈ lists b ↔ key ∈ acp.chunkList b ∧ ¬(key.1 = core ∧ key.2 < n) := by
  refine forRange_inv (fun j (t : AcpContext) => ∃ lists, t = { acp with chunkList := lists } ∧
    (∀ b, (lists b).Nodup) ∧
      ∀ b key, key ∈ lists b ↔ key ∈ acp.chunkList b ∧ ¬(key.1 = core ∧ key.2 < j)) ?_ ?_
  · exact ⟨acp.chunkList, rfl, hd, by simp⟩
  · rintro i t hi ⟨lists, rfl, hdl, hmem⟩
    refine ⟨_, rfl, fun b => (hdl b).erase _, fun b key => ?_⟩
    change key ∈ (lists b).erase (core, i) ↔ _
    rw [(hdl b).mem_erase_iff, hmem]
    have hkey : key = (core, i) ↔ key.1 = core ∧ key.2 = i := Prod.ext_iff
    rw [Ne, hkey]
    constructor
    · rintro ⟨hne, hin, hout⟩
      exact ⟨hin, fun hlt => by omega⟩
    · rintro ⟨hin, hout⟩
      exact ⟨fun heq => hout ⟨heq.1, by omega⟩, hin, fun hlt => hout ⟨hlt.1, by omega⟩⟩

theorem addCore_spec (hfree : s.acp.allocated core = false) (hl : Listed s.acp) :
    ∃ s', cleaningPolicyAcpAddCore s core true = some s' ∧ Listed s'.acp ∧
      s'.md = s.md ∧ s'.acpDirty = s.acpDirty ∧ s'.added = s.added ∧ s'.length = s.length ∧
      s'.acp.threshold = s.acp.threshold ∧ s'.acp.allocated = update s.acp.allocated core true ∧
      s'.acp.numChunks = update s.acp.numChunks core (numChunksOf (s.length core)) ∧
      s'.acp.chunksTotal = s.acp.chunksTotal + numChunksOf (s.length core) ∧
      ∀ key, s'.acp.chunk key = if key.1 = core then
        if key.2 < numChunksOf (s.length core) then some ⟨0, 0⟩ else none else s.acp.chunk key := by
  have hnew : ∀ b i, (core, i) ∉ s.acp.chunkList b := by
    intro b i hin
    obtain ⟨chunk, hc, -⟩ := (hl.mem_iff b (core, i)).mp hin
    have ha := (chunk_eq_some.mp hc).1
    rw [hfree] at ha
    cases ha
  obtain ⟨lists, hloop, hd, hmem⟩ := listAdd_loop (s.acp.allocate core (numChunksOf (s.length core))) core
    (numChunksOf (s.length core)) hl.nodup hnew
  have hchunk : ∀ key, ({ s.acp.allocate core (numChunksOf (s.length core)) with chunkList := lists } :
      AcpContext).chunk key = if key.1 = core then
        if key.2 < numChunksOf (s.length core) then some ⟨0, 0⟩ else none else s.acp.chunk key := by
    intro key
    unfold AcpContext.chunk AcpContext.allocate
    by_cases hk : key.1 = core
    · simp [hk]
    · simp [hk]
  have hstep : cleaningPolicyAcpAddCore s core true = some { s with
      acp := { s.acp.allocate core (numChunksOf (s.length core)) with chunkList := lists } } := by
    unfold cleaningPolicyAcpAddCore
    rw [if_neg (by simp [hfree]), if_neg (by simp)]
    dsimp only
    rw [hloop]
  refine ⟨_, hstep, ⟨fun b key => ?_, hd⟩, rfl, rfl, rfl, rfl, rfl, rfl, rfl, rfl, hchunk⟩
  change key ∈ lists b ↔ _
  rw [hchunk, hmem]
  change key ∈ s.acp.chunkList b ∨ _ ↔ _
  by_cases hk : key.1 = core
  · have hout : key ∉ s.acp.chunkList b := by
      have hpair : key = (core, key.2) := Prod.ext hk rfl
      rw [hpair]
      exact hnew b key.2
    by_cases hlt : key.2 < numChunksOf (s.length core)
    · simp [hk, hlt, hout, eq_comm]
    · simp [hk, hlt, hout]
  · simp [hk, hl.mem_iff]

theorem removeCore_spec (ha : s.acp.allocated core = true)
    (htotal : s.acp.numChunks core ≤ s.acp.chunksTotal) (hl : Listed s.acp) :
    ∃ s', cleaningPolicyAcpRemoveCore s core = some s' ∧ Listed s'.acp ∧
      s'.md = s.md ∧ s'.acpDirty = s.acpDirty ∧ s'.added = s.added ∧ s'.length = s.length ∧
      s'.acp.threshold = s.acp.threshold ∧ s'.acp.allocated = update s.acp.allocated core false ∧
      s'.acp.numChunks = update s.acp.numChunks core 0 ∧
      s'.acp.chunksTotal = s.acp.chunksTotal - s.acp.numChunks core ∧
      ∀ key, s'.acp.chunk key = if key.1 = core then none else s.acp.chunk key := by
  obtain ⟨state, hreset⟩ : ∃ state, s.acp.resetState core = { s.acp with state } := by
    unfold AcpContext.resetState
    split
    · exact ⟨_, rfl⟩
    · exact ⟨_, rfl⟩
  obtain ⟨lists, hloop, hd, hmem⟩ := listDel_loop { s.acp with state } core (s.acp.numChunks core) hl.nodup
  have hchunk : ∀ key, (AcpContext.release { s.acp with state, chunkList := lists } core).chunk key =
      if key.1 = core then none else s.acp.chunk key := by
    intro key
    unfold AcpContext.chunk AcpContext.release
    by_cases hk : key.1 = core
    · simp [hk]
    · simp [hk]
  have hstep : cleaningPolicyAcpRemoveCore s core =
      some { s with acp := AcpContext.release { s.acp with state, chunkList := lists } core } := by
    unfold cleaningPolicyAcpRemoveCore
    rw [if_neg (by omega), if_neg (by simp [ha]), hreset]
    dsimp only
    rw [hloop]
  refine ⟨_, hstep, ⟨fun b key => ?_, hd⟩, rfl, rfl, rfl, rfl, rfl, rfl, rfl, rfl, hchunk⟩
  change key ∈ lists b ↔ _
  rw [hchunk, hmem]
  change key ∈ s.acp.chunkList b ∧ _ ↔ _
  rw [hl.mem_iff]
  by_cases hk : key.1 = core
  · have hlt : ∀ chunk, s.acp.chunk key = some chunk → key.2 < s.acp.numChunks core := by
      intro chunk hc
      rw [← hk]
      exact (chunk_eq_some.mp hc).2.1
    simp only [hk, true_and, Nat.not_lt, if_true, reduceCtorEq, false_and, exists_false, iff_false]
    rintro ⟨⟨chunk, hc, -⟩, hge⟩
    exact absurd (hlt chunk hc) (Nat.not_lt.mpr hge)
  · simp [hk]

theorem Placed.addCore {s' : State} (h : Placed cfg s) (hcore : core < ocfCoreNum)
    (hfree : s.acp.allocated core = false) (hmd : s'.md = s.md)
    (hlength : s'.length = s.length) (hth : s'.acp.threshold = s.acp.threshold)
    (ha : s'.acp.allocated = update s.acp.allocated core true)
    (hn : s'.acp.numChunks = update s.acp.numChunks core (numChunksOf (s.length core)))
    (ht : s'.acp.chunksTotal = s.acp.chunksTotal + numChunksOf (s.length core))
    (hin : ∀ line, line < cfg.geometry.collisionEntries → (s.md.coreInfo line).1 = core →
      (s.md.coreInfo line).2 * cfg.lineSize < s.length core) : Placed cfg s' := by
  have hzero : s.acp.numChunks core = 0 := by
    rw [h.numChunks_eq, hfree]
    rfl
  constructor
  · rw [hmd]
    exact h.unique
  · intro line hline
    rw [hmd, hlength, ha, update_apply]
    split
    · rename_i hc
      intro _
      rw [hc]
      exact hin line hline hc
    · exact h.inCore line hline
  · intro c
    rw [ha, update_apply]
    split
    · rename_i hc
      intro _
      rw [hc]
      exact hcore
    · exact h.core_lt c
  · intro c
    rw [ha, hn, hlength, update_apply, update_apply]
    split
    · rename_i hc
      rw [hc, if_pos rfl]
    · exact h.numChunks_eq c
  · have hmem : core ∈ Finset.range ocfCoreNum := Finset.mem_range.mpr hcore
    have hsum := Finset.sum_update_of_mem hmem s.acp.numChunks (numChunksOf (s.length core))
    have hsplit := Finset.add_sum_erase (Finset.range ocfCoreNum) s.acp.numChunks hmem
    rw [hn, hsum, ht, h.chunksTotal_eq, ← hsplit, hzero, Finset.erase_eq]
    omega
  · rw [hth]
    exact h.threshold_eq

theorem Placed.removeCore {s' : State} (h : Placed cfg s)
    (hcore : s.acp.allocated core = true) (hmd : s'.md = s.md)
    (hlength : s'.length = s.length) (hth : s'.acp.threshold = s.acp.threshold)
    (ha : s'.acp.allocated = update s.acp.allocated core false)
    (hn : s'.acp.numChunks = update s.acp.numChunks core 0)
    (ht : s'.acp.chunksTotal = s.acp.chunksTotal - s.acp.numChunks core) : Placed cfg s' := by
  have hkept : ∀ c, s'.acp.allocated c = true → s.acp.allocated c = true := by
    intro c hc
    rw [ha, update_apply] at hc
    split at hc
    · cases hc
    · exact hc
  constructor
  · rw [hmd]
    exact h.unique
  · intro line hline hc
    rw [hmd] at hc ⊢
    rw [hlength]
    exact h.inCore line hline (hkept _ hc)
  · exact fun c hc => h.core_lt c (hkept c hc)
  · intro c
    rw [ha, hn, hlength, update_apply, update_apply]
    split
    · rfl
    · exact h.numChunks_eq c
  · have hmem : core ∈ Finset.range ocfCoreNum := Finset.mem_range.mpr (h.core_lt core hcore)
    have hsum := Finset.sum_update_of_mem hmem s.acp.numChunks 0
    have hsplit := Finset.add_sum_erase (Finset.range ocfCoreNum) s.acp.numChunks hmem
    rw [hn, hsum, ht, h.chunksTotal_eq, ← hsplit, Finset.erase_eq]
    omega
  · rw [hth]
    exact h.threshold_eq

theorem Placed.numChunks_le (h : Placed cfg s) (hcore : core < ocfCoreNum) :
    s.acp.numChunks core ≤ s.acp.chunksTotal := by
  have hsplit := Finset.add_sum_erase (Finset.range ocfCoreNum) s.acp.numChunks (Finset.mem_range.mpr hcore)
  rw [h.chunksTotal_eq, ← hsplit]
  exact Nat.le_add_right _ _

/-- Operations of the cache and callbacks of the policy. -/
inductive Act
  /-- `ocf_map_cache_line`: a line is mapped and its policy metadata set up. -/
  | map (core coreLine line : Nat)
  /-- A line leaves the collision table. -/
  | unmap (line : Nat)
  /-- The dirty bits of a line change. -/
  | setDirtyBits (line : Nat) (bits : Bits)
  /-- `cleaning_policy_acp_set_hot_cache_line`. -/
  | setHot (line : Nat)
  /-- `cleaning_policy_acp_purge_block`. -/
  | purgeBlock (line : Nat)
  /-- `cleaning_policy_acp_purge_range`, with the lines in use. -/
  | purgeRange (used : Nat → Bool) (core startByte endByte : Nat)
  /-- `cleaning_policy_acp_add_core` for a core of some length. -/
  | addCore (core length : Nat) (alloc : Bool)
  /-- `cleaning_policy_acp_remove_core`. -/
  | removeCore (core : Nat)
  /-- `cleaning_policy_acp_update`. -/
  | update

/-- What the callers keep to. -/
def guard (cfg : Config) (s : State) : Act → Prop
  | .map core coreLine line =>
    line < cfg.geometry.collisionEntries ∧ (s.md.coreInfo line).1 = ocfCoreNum ∧
      metadataTestDirty cfg.geometry s.md line = false ∧ s.acp.allocated core = true ∧
      coreLine * cfg.lineSize < s.length core ∧
      ∀ line' < cfg.geometry.collisionEntries, s.md.coreInfo line' ≠ (core, coreLine)
  -- the callers purge a line before they unmap it
  | .unmap line => s.acpDirty line = false ∨ s.acp.allocated (s.md.coreInfo line).1 = false
  | .setDirtyBits _ _ => True
  | .setHot line => line < cfg.geometry.collisionEntries ∧ s.acp.allocated (s.md.coreInfo line).1 = true
  | .purgeBlock line => line < cfg.geometry.collisionEntries ∧ s.acp.allocated (s.md.coreInfo line).1 = true
  | .purgeRange used core startByte endByte => ∀ line < cfg.geometry.collisionEntries,
    isCacheLineActing s.md core (startByte / cfg.lineSize) (endByte / cfg.lineSize) line = true →
      used line = false → s.acp.allocated (s.md.coreInfo line).1 = true
  -- a core is added without lines
  | .addCore core _ _ => core < ocfCoreNum ∧ s.acp.allocated core = false ∧
    ∀ line < cfg.geometry.collisionEntries, (s.md.coreInfo line).1 ≠ core
  | .removeCore core => s.acp.allocated core = true
  | .update => ∀ hash < cfg.geometry.hashEntries, ∀ line ∈ s.md.hash hash,
    line < cfg.geometry.collisionEntries ∧ s.acp.allocated (s.md.coreInfo line).1 = true

/-- Effect of an operation; `none` is an `ENV_BUG_ON` or a read through a
missing chunk. -/
def step (cfg : Config) (s : State) : Act → Option State
  | .map core coreLine line =>
    let hash := ocfMetadataHashFunc cfg.geometry coreLine core
    some (cleaningPolicyAcpInitCacheBlock
      { s with md := ocfMetadataAddToCollision s.md core coreLine hash line } line)
  | .unmap line => some { s with md := ocfMetadataRemoveFromCollision cfg.geometry s.md line }
  | .setDirtyBits line bits => some { s with md := { s.md with dirty := update s.md.dirty line bits } }
  | .setHot line => cleaningPolicyAcpSetHotCacheLine cfg s line
  | .purgeBlock line => cleaningPolicyAcpPurgeBlock cfg s line
  | .purgeRange used core startByte endByte => cleaningPolicyAcpPurgeRange cfg used core startByte endByte s
  | .addCore core length alloc => cleaningPolicyAcpAddCore
    { s with
      length := update s.length core length
      added := update s.added core alloc } core alloc
  | .removeCore core =>
    (cleaningPolicyAcpRemoveCore s core).map fun s => { s with added := update s.added core false }
  | .update => cleaningPolicyAcpUpdate cfg s

/-- The policy as a labelled system. -/
def system (cfg : Config) : System State Act := ⟨guard cfg, step cfg⟩

theorem Accounted.of_counts {s' : State} (h : Accounted cfg s) (hacp : s'.acp = s.acp)
    (hcount : ∀ key, s.acp.allocated key.1 = true → flaggedLines cfg s' key = flaggedLines cfg s key) :
    Accounted cfg s' := by
  constructor
  · intro key chunk hc
    rw [hacp] at hc
    rw [hcount key (chunk_eq_some.mp hc).1]
    exact h.numDirty_eq key chunk hc
  · rw [hacp]
    exact h.listed
  · rw [hacp]
    exact h.inBucket

section

variable (h : Inv cfg s)
include h

/-- A line that is mapped is clean. -/
theorem map_inv {coreLine : Nat} (hg : guard cfg s (.map core coreLine line)) :
    ∃ s', step cfg s (.map core coreLine line) = some s' ∧ Inv cfg s' := by
  obtain ⟨hline, hfree, -, ha, hin, hnew⟩ := hg
  refine ⟨_, rfl, h.accounted.of_counts rfl fun key hkey => ?_, ?_⟩
  · refine countBelow_congr fun j _ => ?_
    have hlt := h.placed.core_lt _ hkey
    by_cases hj : j = line
    · subst hj
      have hne : acpGetChunk cfg s.md j ≠ key := by
        intro heq
        rw [← heq] at hlt
        change (s.md.coreInfo j).1 < ocfCoreNum at hlt
        omega
      simp [cleaningPolicyAcpInitCacheBlock, hne]
    · have hchunk : acpGetChunk cfg (ocfMetadataAddToCollision s.md core coreLine
          (ocfMetadataHashFunc cfg.geometry coreLine core) line) j = acpGetChunk cfg s.md j := by
        unfold acpGetChunk
        simp only [ocfMetadataAddToCollision, update_of_ne hj]
      simp only [cleaningPolicyAcpInitCacheBlock, hchunk, update_of_ne hj]
  · constructor
    · intro a b hlta hltb
      change (update s.md.coreInfo line (core, coreLine) a).1 < ocfCoreNum →
        update s.md.coreInfo line (core, coreLine) a =
          update s.md.coreInfo line (core, coreLine) b → a = b
      by_cases hja : a = line
      · by_cases hjb : b = line
        · exact fun _ _ => hja.trans hjb.symm
        · rw [hja, update_self, update_of_ne hjb]
          exact fun _ heq => absurd heq.symm (hnew b hltb)
      · rw [update_of_ne hja]
        by_cases hjb : b = line
        · rw [hjb, update_self]
          exact fun _ heq => absurd heq (hnew a hlta)
        · rw [update_of_ne hjb]
          exact h.placed.unique a b hlta hltb
    · intro j hj
      change s.acp.allocated (update s.md.coreInfo line (core, coreLine) j).1 = true →
        (update s.md.coreInfo line (core, coreLine) j).2 * cfg.lineSize <
          s.length (update s.md.coreInfo line (core, coreLine) j).1
      by_cases hjl : j = line
      · rw [hjl, update_self]
        exact fun _ => hin
      · rw [update_of_ne hjl]
        exact h.placed.inCore j hj
    · exact h.placed.core_lt
    · exact h.placed.numChunks_eq
    · exact h.placed.chunksTotal_eq
    · exact h.placed.threshold_eq

/-- A line that is unmapped was clean. -/
theorem unmap_inv (hg : guard cfg s (.unmap line)) :
    ∃ s', step cfg s (.unmap line) = some s' ∧ Inv cfg s' := by
  have hcore : s.acp.allocated ocfCoreNum = false := by
    by_contra hne
    exact Nat.lt_irrefl _ (h.placed.core_lt ocfCoreNum (by simpa using hne))
  refine ⟨_, rfl, h.accounted.of_counts rfl fun key hkey => ?_, ?_⟩
  · refine countBelow_congr fun j _ => ?_
    by_cases hj : j = line
    · subst hj
      have hnow : acpGetChunk cfg (ocfMetadataRemoveFromCollision cfg.geometry s.md j) j ≠ key := by
        intro heq
        rw [← heq] at hkey
        simp only [acpGetChunk, ocfMetadataRemoveFromCollision, update_self] at hkey
        rw [hcore] at hkey
        cases hkey
      rcases hg with hflag | hgone
      · simp [hflag]
      · have hthen : acpGetChunk cfg s.md j ≠ key := by
          intro heq
          rw [← heq] at hkey
          change s.acp.allocated (s.md.coreInfo j).1 = true at hkey
          rw [hgone] at hkey
          cases hkey
        simp [hnow, hthen]
    · have hchunk : acpGetChunk cfg (ocfMetadataRemoveFromCollision cfg.geometry s.md line) j =
          acpGetChunk cfg s.md j := by
        unfold acpGetChunk
        simp only [ocfMetadataRemoveFromCollision, update_of_ne hj]
      rw [hchunk]
  · constructor
    · intro a b hlta hltb
      change (update s.md.coreInfo line (ocfCoreNum, ullongMax) a).1 < ocfCoreNum →
        update s.md.coreInfo line (ocfCoreNum, ullongMax) a =
          update s.md.coreInfo line (ocfCoreNum, ullongMax) b → a = b
      by_cases hja : a = line
      · rw [hja, update_self]
        exact fun hlt => absurd hlt (Nat.lt_irrefl _)
      · rw [update_of_ne hja]
        by_cases hjb : b = line
        · rw [hjb, update_self]
          intro hlt heq
          rw [heq] at hlt
          exact absurd hlt (Nat.lt_irrefl _)
        · rw [update_of_ne hjb]
          exact h.placed.unique a b hlta hltb
    · intro j hj
      change s.acp.allocated (update s.md.coreInfo line (ocfCoreNum, ullongMax) j).1 = true →
        (update s.md.coreInfo line (ocfCoreNum, ullongMax) j).2 * cfg.lineSize <
          s.length (update s.md.coreInfo line (ocfCoreNum, ullongMax) j).1
      by_cases hjl : j = line
      · rw [hjl, update_self]
        intro hc
        rw [hcore] at hc
        cases hc
      · rw [update_of_ne hjl]
        exact h.placed.inCore j hj
    · exact h.placed.core_lt
    · exact h.placed.numChunks_eq
    · exact h.placed.chunksTotal_eq
    · exact h.placed.threshold_eq

theorem purgeRange_inv {used : Nat → Bool} {startByte endByte : Nat} (hg : guard cfg s (.purgeRange used core startByte endByte)) :
    ∃ s', step cfg s (.purgeRange used core startByte endByte) = some s' ∧ Inv cfg s' := by
  have hloop : ∃ s', cleaningPolicyAcpPurgeRange cfg used core startByte endByte s = some s' ∧
      Inv cfg s' ∧ SameLines s s' := by
    unfold cleaningPolicyAcpPurgeRange ocfMetadataActor
    refine foldlM_some (fun t => Inv cfg t ∧ SameLines s t) ⟨h, .refl s⟩ ?_
    rintro line hline t ⟨hinv, hsame⟩
    split
    · rename_i hact
      rw [Bool.and_eq_true, hsame.md] at hact
      have ha := hg line (List.mem_range.mp hline) hact.1 (by simpa using hact.2)
      rw [← hsame.shape.allocated, ← hsame.md] at ha
      obtain ⟨t', ht', hinv', hsame', -⟩ :=
        setFlag_spec hinv (List.mem_range.mp hline) ha (follows_dec cfg)
      exact ⟨t', ht', hinv', hsame.trans hsame'⟩
    · exact ⟨t, rfl, hinv, hsame⟩
  obtain ⟨s', hs', hinv, -⟩ := hloop
  exact ⟨s', hs', hinv⟩

theorem update_inv (hg : guard cfg s .update) :
    ∃ s', step cfg s .update = some s' ∧ Inv cfg s' := by
  have hloop : ∃ s', cleaningPolicyAcpUpdate cfg s = some s' ∧ Inv cfg s' ∧ SameLines s s' := by
    unfold cleaningPolicyAcpUpdate
    refine foldlM_some (fun t => Inv cfg t ∧ SameLines s t) ⟨h, .refl s⟩ ?_
    intro hash hhash t ht
    refine foldlM_some (fun t => Inv cfg t ∧ SameLines s t) ht ?_
    rintro line hline u ⟨hinv, hsame⟩
    split
    · rw [ht.2.md] at hline
      obtain ⟨hlt, ha⟩ := hg hash (List.mem_range.mp hhash) line hline
      rw [← hsame.shape.allocated, ← hsame.md] at ha
      obtain ⟨u', hu', hinv', hsame', -⟩ := setFlag_spec hinv hlt ha (follows_inc cfg)
      exact ⟨u', hu', hinv', hsame.trans hsame'⟩
    · exact ⟨u, rfl, hinv, hsame⟩
  obtain ⟨s', hs', hinv, -⟩ := hloop
  exact ⟨s', hs', hinv⟩

/-- A new core brings its chunks. -/
theorem addCore_inv {length : Nat} {alloc : Bool} (hg : guard cfg s (.addCore core length alloc)) :
    ∃ s', step cfg s (.addCore core length alloc) = some s' ∧ Inv cfg s' := by
  obtain ⟨hcore, hfree, hnone⟩ := hg
  obtain ⟨t, ht⟩ : ∃ t : State, t = { s with
    length := update s.length core length
    added := update s.added core alloc } := ⟨_, rfl⟩
  have hmd : t.md = s.md := by rw [ht]
  have hacp : t.acp = s.acp := by rw [ht]
  have hplaced : Placed cfg t := by
    have hlen : ∀ c, s.acp.allocated c = true → t.length c = s.length c := by
      intro c hc
      rw [ht]
      refine update_of_ne (fun heq => ?_) _ _
      rw [heq, hfree] at hc
      cases hc
    constructor
    · rw [hmd]
      exact h.placed.unique
    · intro line hline ha
      rw [hacp] at ha
      rw [hmd] at ha ⊢
      rw [hlen _ ha]
      exact h.placed.inCore line hline ha
    · rw [hacp]
      exact h.placed.core_lt
    · intro c
      rw [hacp, h.placed.numChunks_eq]
      split
      · rename_i ha
        rw [hlen c ha]
      · rfl
    · rw [hacp]
      exact h.placed.chunksTotal_eq
    · rw [hacp]
      exact h.placed.threshold_eq
  have hacc : Accounted cfg t := h.accounted.of_counts hacp fun key _ => by rw [ht]; rfl
  change ∃ s', cleaningPolicyAcpAddCore _ core alloc = some s' ∧ Inv cfg s'
  rw [← ht]
  cases alloc with
  | false =>
    refine ⟨t, ?_, hacc, hplaced⟩
    unfold cleaningPolicyAcpAddCore
    rw [if_neg (by rw [hacp, hfree]; simp), if_pos rfl]
  | true =>
    have hfree' : t.acp.allocated core = false := by rw [hacp, hfree]
    obtain ⟨s', hs', hl, hmd', hflag, -, hlen, hth, ha, hn, htotal, hchunk⟩ := addCore_spec hfree' hacc.listed
    refine ⟨s', hs', ⟨fun key chunk hc => ?_, hl, fun key chunk hc => ?_⟩,
      hplaced.addCore hcore hfree' hmd' hlen hth ha hn htotal fun line hline hc => ?_⟩
    · have hcount : flaggedLines cfg s' key = flaggedLines cfg t key := by
        unfold flaggedLines
        rw [hmd', hflag]
      rw [hcount]
      rw [hchunk] at hc
      split at hc
      · rename_i hk
        split at hc
        · cases hc
          refine (countBelow_eq_zero.mpr fun line hline => ?_).symm
          have hne : acpGetChunk cfg t.md line ≠ key := by
            intro heq
            refine hnone line hline ?_
            rw [← hmd, ← hk, ← heq]
            rfl
          simp [hne]
        · cases hc
      · exact hacc.numDirty_eq key chunk hc
    · rw [hth]
      rw [hchunk] at hc
      split at hc
      · split at hc
        · cases hc
          exact ⟨fun _ => rfl, fun hlt => absurd hlt (Nat.lt_irrefl 0)⟩
        · cases hc
      · exact hacc.inBucket key chunk hc
    · rw [hmd] at hc
      exact absurd hc (hnone line hline)

theorem removeCore_inv (hg : guard cfg s (.removeCore core)) :
    ∃ s', step cfg s (.removeCore core) = some s' ∧ Inv cfg s' := by
  have hcore := h.placed.core_lt core hg
  obtain ⟨t, ht, hl, hmd, hflag, -, hlen, hth, ha, hn, htotal, hchunk⟩ :=
    removeCore_spec hg (h.placed.numChunks_le hcore) h.accounted.listed
  have hplaced := h.placed.removeCore hg hmd hlen hth ha hn htotal
  have hold : ∀ key chunk, t.acp.chunk key = some chunk → s.acp.chunk key = some chunk := by
    intro key chunk hc
    rw [hchunk] at hc
    split at hc
    · cases hc
    · exact hc
  have hacc : Accounted cfg t := by
    refine ⟨fun key chunk hc => ?_, hl, fun key chunk hc => ?_⟩
    · have hcount : flaggedLines cfg t key = flaggedLines cfg s key := by
        unfold flaggedLines
        rw [hmd, hflag]
      rw [hcount]
      exact h.accounted.numDirty_eq key chunk (hold key chunk hc)
    · rw [hth]
      exact h.accounted.inBucket key chunk (hold key chunk hc)
  refine ⟨{ t with added := update t.added core false }, ?_,
    hacc.of_counts rfl fun _ _ => rfl, hplaced.of_added⟩
  change (cleaningPolicyAcpRemoveCore s core).map _ = _
  rw [ht]
  rfl

/-- Every operation succeeds and keeps the buckets exact. -/
theorem step_inv {act : Act} (hg : guard cfg s act) :
    ∃ s', step cfg s act = some s' ∧ Inv cfg s' := by
  cases act with
  | map core coreLine line => exact map_inv h hg
  | unmap line => exact unmap_inv h hg
  | setDirtyBits line bits =>
    exact ⟨_, rfl, h.accounted.of_counts rfl fun _ _ => rfl,
      ⟨h.placed.unique, h.placed.inCore, h.placed.core_lt, h.placed.numChunks_eq, h.placed.chunksTotal_eq,
        h.placed.threshold_eq⟩⟩
  | setHot line =>
    obtain ⟨s', hs', hinv, -⟩ := setFlag_spec h hg.1 hg.2 (follows_inc cfg)
    exact ⟨s', hs', hinv⟩
  | purgeBlock line =>
    obtain ⟨s', hs', hinv, -⟩ := setFlag_spec h hg.1 hg.2 (follows_dec cfg)
    exact ⟨s', hs', hinv⟩
  | purgeRange used core startByte endByte => exact purgeRange_inv h hg
  | addCore core length alloc => exact addCore_inv h hg
  | removeCore core => exact removeCore_inv h hg
  | update => exact update_inv h hg

end

/-- The buckets are exact in every run. -/
theorem run_inv {start : State} (h0 : Inv cfg start) (h : Reachable (system cfg) start s) :
    Inv cfg s := by
  refine RunIn.invariant h (fun _ => h0) fun s act s' hinv _ hg hs _ => ?_
  obtain ⟨t, ht, hinv'⟩ := step_inv hinv hg
  have heq : some t = some s' := ht.symm.trans hs
  cases heq
  exact hinv'

end OcfCache.Acp
