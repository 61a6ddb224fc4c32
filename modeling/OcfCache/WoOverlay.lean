import OcfCache.EngineCommon
import OcfCache.EngineIo

/-!
# Overlay of cached blocks in write-only mode

Embedding of `ocf_read_wo_cache_do`. After the whole range was read from the
core, the valid blocks of the mapped lines are read from the cache over it.
The loop collects runs of valid blocks across neighbouring lines into one
transfer. The module shows that exactly the valid blocks are transferred, each
from its own place on the cache device.
-/

namespace OcfCache.WoOverlay

open Loops Metadata Requests EngineCommon EngineIo

/-- Variables of the overlay loop. -/
structure Overlay where
  /-- A run of valid blocks is open. -/
  io : Bool
  /-- Start of the open run in the buffer. -/
  ioStart : Nat
  /-- Blocks behind the loop. -/
  offset : Nat
  /-- Cache line of the last mapped entry. -/
  physCurr : Nat
  /-- Transfers submitted so far. -/
  out : List Piece

variable (g : Geometry) (md : LineTable) (req : Request)

theorem addr_eq_seek : req.addr = seek g req + g.lineBlocks * req.coreLineFirst g := by
  have := Nat.mod_add_div req.addr g.lineBlocks
  simp only [seek, Request.coreLineFirst]
  omega

theorem div_mod_of_offset (k : Nat) :
    (req.addr + k) / g.lineBlocks = (seek g req + k) / g.lineBlocks + req.coreLineFirst g ∧
      (req.addr + k) % g.lineBlocks = (seek g req + k) % g.lineBlocks := by
  have hx : req.addr + k = (seek g req + k) + g.lineBlocks * req.coreLineFirst g := by
    have := addr_eq_seek g req
    omega
  rw [hx, Nat.add_mul_div_left _ _ g.lineBlocks_pos, Nat.add_mul_mod_self_left]
  exact ⟨rfl, rfl⟩

/-- Transfer of `ocf_engine_forward_cache_io`. -/
def ocfEngineForwardCacheIo (offset size : Nat) : Piece :=
  let firstCl := (offset + seek g req) / g.lineBlocks
  ⟨lineAddr g (req.map firstCl).collIdx + (offset + seek g req) % g.lineBlocks, size, offset⟩

/-- `ocf_read_wo_cache_io` for the open run. -/
def Overlay.submit (st : Overlay) : Overlay :=
  { st with
    io := false
    out := st.out ++ [ocfEngineForwardCacheIo g req st.ioStart (st.offset - st.ioStart)] }

/-- One round of the inner loop, for a number of blocks of one validity. -/
def Overlay.advance (st : Overlay) (valid : Bool) (increment : Nat) : Overlay :=
  let st := if st.io && !valid then st.submit g req else st
  let st := if !st.io && valid then { st with io := true, ioStart := st.offset } else st
  { st with offset := st.offset + increment }

/-- Number of blocks from `i` to `e` before the validity changes. -/
def sameValid (valid : Nat → Bool) (v : Bool) (e : Nat) : Nat → Nat → Nat
  | 0, _ => 0
  | fuel + 1, i => if i ≤ e ∧ valid i = v then sameValid valid v e fuel (i + 1) + 1 else 0

/-- The inner loop block by block. -/
def Overlay.blocks (valid : Nat → Bool) (e : Nat) : Nat → Nat → Overlay → Overlay
  | 0, _, st => st
  | fuel + 1, i, st =>
    if i ≤ e then
      let n := sameValid valid (valid i) e fuel (i + 1) + 1
      Overlay.blocks valid e fuel (i + n) (st.advance g req (valid i) n)
    else st

/-- Close the open run when the next line is not its continuation. -/
def Overlay.enter (st : Overlay) (entry : MapInfo) : Overlay :=
  let physCurr := if entry.status ≠ .miss then entry.collIdx else st.physCurr
  let st' := { st with physCurr := physCurr }
  if st.io && st.physCurr + 1 != physCurr then st'.submit g req else st'

/-- `ocf_engine_map_all_sec_valid`. -/
def ocfEngineMapAllSecValid (line : Nat) : Bool :=
  (req.map line).status == .hit && entryValid g md req (req.map line) line

/-- Body of the loop over the lines of the request. -/
def Overlay.line (st : Overlay) (line : Nat) : Overlay :=
  let entry := req.map line
  let s := ocfMapLineStartBlock g req line
  let e := ocfMapLineEndBlock g req line
  let n := e + 1 - s
  let st := st.enter g req entry
  if entry.status = .miss then st.advance g req false n
  else if ocfEngineMapAllSecValid g md req line then st.advance g req true n
  else Overlay.blocks g req (md.valid entry.collIdx) e (n + 1) s st

/-- Transfers of `ocf_read_wo_cache_do`. -/
def ocfReadWoCacheDo : List Piece :=
  let st := forRange (req.coreLineCount g) (Overlay.line g md req) ⟨false, 0, 0, 0, []⟩
  (if st.io then st.submit g req else st).out

variable {g md req}

theorem advance_add (st : Overlay) (v : Bool) (m n : Nat) :
    st.advance g req v (m + n) = (st.advance g req v m).advance g req v n := by
  cases hio : st.io <;> cases v <;> simp [Overlay.advance, Overlay.submit, hio, Nat.add_assoc]

/-- Entry of a block of the buffer. -/
def lineOf (g : Geometry) (req : Request) (k : Nat) : Nat := (seek g req + k) / g.lineBlocks

/-- The block is cached: its entry is mapped and the block valid there. -/
def cached (g : Geometry) (md : LineTable) (req : Request) (k : Nat) : Bool :=
  (req.map (lineOf g req k)).status != .miss &&
    md.valid (req.map (lineOf g req k)).collIdx ((seek g req + k) % g.lineBlocks)

/-- Invariant of the overlay loop, with `k` blocks behind it and line `i`
entered. -/
structure Collected (g : Geometry) (md : LineTable) (req : Request) (i k : Nat)
    (st : Overlay) : Prop where
  /-- The loop is at block `k`. -/
  offset : st.offset = k
  /-- Only cached blocks were transferred, from their places. -/
  placed : ∀ b ∈ blocksOf st.out, b.2 < k ∧ b.1 = targetBlock g req b.2 ∧
    cached g md req b.2 = true
  /-- Cached blocks were transferred or are in the open run. -/
  cover : ∀ j < k, cached g md req j = true →
    (st.io = true ∧ st.ioStart ≤ j) ∨ (targetBlock g req j, j) ∈ blocksOf st.out
  /-- The open run is cached and contiguous on the device. -/
  run : st.io = true → st.ioStart < k ∧ ∀ j, st.ioStart ≤ j → j < k →
    cached g md req j = true ∧
      targetBlock g req j = targetBlock g req st.ioStart + (j - st.ioStart)
  /-- The line is known. -/
  phys : (req.map i).status ≠ .miss → st.physCurr = (req.map i).collIdx
  /-- A run is open on mapped lines only. -/
  mapped : st.io = true → (req.map i).status ≠ .miss

theorem blocksOf_append (ps qs : List Piece) : blocksOf (ps ++ qs) = blocksOf ps ++ blocksOf qs := by
  simp [blocksOf]

theorem mem_forward {start size : Nat} {b : Nat × Nat} :
    b ∈ blocksOf [ocfEngineForwardCacheIo g req start size] ↔
      ∃ t < size, b = (targetBlock g req start + t, start + t) := by
  simp only [blocksOf, List.flatMap_cons, List.flatMap_nil, List.append_nil, mem_piece_blocks,
    ocfEngineForwardCacheIo, targetBlock, Nat.add_comm start (seek g req)]

variable {i k : Nat} {st : Overlay}

theorem Collected.submit (h : Collected g md req i k st)
    (hio : st.io = true) : Collected g md req i k (st.submit g req) := by
  obtain ⟨hlt, hrun⟩ := h.run hio
  have hoff := h.offset
  refine ⟨h.offset, ?_, ?_, by simp [Overlay.submit], h.phys, by simp [Overlay.submit]⟩
  · intro b hb
    simp only [Overlay.submit, blocksOf_append] at hb
    rcases List.mem_append.mp hb with hb | hb
    · exact h.placed b hb
    · obtain ⟨t, ht, rfl⟩ := mem_forward.mp hb
      obtain ⟨hc, ha⟩ := hrun (st.ioStart + t) (by omega) (by omega)
      refine ⟨by omega, ?_, hc⟩
      rw [ha]
      omega
  · intro j hj hc
    refine .inr ?_
    simp only [Overlay.submit, blocksOf_append]
    rcases h.cover j hj hc with ⟨-, hs⟩ | hm
    · refine List.mem_append_right _ (mem_forward.mpr ⟨j - st.ioStart, by omega, ?_⟩)
      rw [(hrun j hs hj).2]
      congr 1
      omega
    · exact List.mem_append_left _ hm

/-- The walk passes a sector. -/
theorem Collected.advance (h : Collected g md req i k st) (hi : lineOf g req k = i)
    (hnext : st.io = true → targetBlock g req k = targetBlock g req st.ioStart + (k - st.ioStart)) :
    Collected g md req i (k + 1) (st.advance g req (cached g md req k) 1) := by
  have hmiss : cached g md req k = true → (req.map i).status ≠ .miss := by
    intro hc
    simp only [cached, hi, Bool.and_eq_true, bne_iff_ne] at hc
    exact hc.1
  cases hv : cached g md req k with
  | true =>
    cases hio : st.io with
    | true =>
      obtain ⟨hlt, hrun⟩ := h.run hio
      have hadv : st.advance g req true 1 = { st with offset := st.offset + 1 } := by
        simp [Overlay.advance, hio]
      rw [hadv]
      refine ⟨by simp [h.offset], fun b hb => ?_, fun j hj hc => ?_,
        fun _ => ⟨Nat.lt_succ_of_lt hlt, ?_⟩, h.phys, fun _ => hmiss hv⟩
      · obtain ⟨hb1, hb2⟩ := h.placed b hb
        exact ⟨by omega, hb2⟩
      · by_cases hjk : j = k
        · exact .inl ⟨hio, by simp only; omega⟩
        · exact h.cover j (by omega) hc
      · intro j hsj hjk
        by_cases heq : j = k
        · subst heq
          exact ⟨hv, hnext hio⟩
        · exact hrun j hsj (by omega)
    | false =>
      have hadv : st.advance g req true 1 =
          { st with io := true, ioStart := st.offset, offset := st.offset + 1 } := by
        simp [Overlay.advance, hio]
      rw [hadv]
      have hoff := h.offset
      refine ⟨by simp [h.offset], fun b hb => ?_, fun j hj hc => ?_, fun _ => ⟨by simp only; omega, ?_⟩,
        h.phys, fun _ => hmiss hv⟩
      · obtain ⟨hb1, hb2⟩ := h.placed b hb
        exact ⟨by omega, hb2⟩
      · by_cases hjk : j = k
        · exact .inl ⟨rfl, by simp only; omega⟩
        · rcases h.cover j (by omega) hc with ⟨hio', -⟩ | hm
          · rw [hio] at hio'
            cases hio'
          · exact .inr hm
      · intro j hsj hjk
        have hj : j = k := by
          simp only at hsj
          omega
        subst hj
        rw [hoff]
        exact ⟨hv, by simp⟩
  | false =>
    have hclosed : ∀ st' : Overlay, Collected g md req i k st' → st'.io = false →
        Collected g md req i (k + 1) { st' with offset := st'.offset + 1 } := by
      intro st' h' hio'
      refine ⟨by simp [h'.offset], fun b hb => ?_, fun j hj hc => ?_, fun hio => ?_, h'.phys,
        fun hio => ?_⟩
      · obtain ⟨hb1, hb2⟩ := h'.placed b hb
        exact ⟨by omega, hb2⟩
      · have hjk : j ≠ k := by
          intro hjk
          rw [hjk, hv] at hc
          cases hc
        rcases h'.cover j (by omega) hc with ⟨hio, -⟩ | hm
        · rw [hio'] at hio
          cases hio
        · exact .inr hm
      · exact absurd hio (by simp [hio'])
      · exact absurd hio (by simp [hio'])
    cases hio : st.io with
    | true =>
      have hadv : st.advance g req false 1 =
          { st.submit g req with offset := (st.submit g req).offset + 1 } := by
        simp [Overlay.advance, Overlay.submit, hio]
      rw [hadv]
      exact hclosed _ (h.submit hio) rfl
    | false =>
      have hadv : st.advance g req false 1 = { st with offset := st.offset + 1 } := by
        simp [Overlay.advance, hio]
      rw [hadv]
      exact hclosed _ h hio

theorem targetBlock_sameLine {j : Nat} (hj : lineOf g req j = i) (hk : lineOf g req k = i)
    (hjk : j ≤ k) : targetBlock g req k = targetBlock g req j + (k - j) := by
  have hdj := Nat.div_add_mod (seek g req + j) g.lineBlocks
  have hdk := Nat.div_add_mod (seek g req + k) g.lineBlocks
  simp only [lineOf] at hj hk
  simp only [targetBlock, hj, hk]
  rw [hj] at hdj
  rw [hk] at hdk
  omega

/-- The open run continues with block `k`. -/
def Continues (g : Geometry) (req : Request) (k : Nat) (st : Overlay) : Prop :=
  st.io = true → targetBlock g req k = targetBlock g req st.ioStart + (k - st.ioStart)

theorem Collected.continues (h : Collected g md req i (k + 1) st)
    (hk : lineOf g req k = i) (hk' : lineOf g req (k + 1) = i) : Continues g req (k + 1) st := by
  intro hio
  obtain ⟨hlt, hrun⟩ := h.run hio
  have hprev := (hrun k (by omega) (by omega)).2
  have hstep := targetBlock_sameLine hk hk' (Nat.le_succ k)
  omega

theorem Collected.advanceRun (v : Bool) (n : Nat) :
    ∀ {k : Nat} {st : Overlay}, Collected g md req i k st → 0 < n →
      (∀ t < n, lineOf g req (k + t) = i ∧ cached g md req (k + t) = v) →
      Continues g req k st → Collected g md req i (k + n) (st.advance g req v n) := by
  induction n with
  | zero =>
    intro k st h hpos
    omega
  | succ n ih =>
    intro k st h _ hall hcont
    obtain ⟨hi, hv⟩ := hall 0 (by omega)
    simp only [Nat.add_zero] at hi hv
    have hone := h.advance hi hcont
    rw [hv] at hone
    by_cases hn : n = 0
    · subst hn
      exact hone
    · have hi1 := (hall 1 (by omega)).1
      have hrest := ih hone (by omega)
        (fun t ht => by
          have := hall (1 + t) (by omega)
          rwa [← Nat.add_assoc] at this)
        (hone.continues hi hi1)
      rw [Nat.add_comm n 1, advance_add, ← Nat.add_assoc]
      exact hrest

theorem sameValid_spec (valid : Nat → Bool) (v : Bool) (e : Nat) (fuel : Nat) :
    ∀ i, (∀ t < sameValid valid v e fuel i, i + t ≤ e ∧ valid (i + t) = v) := by
  induction fuel with
  | zero =>
    intro i t ht
    simp [sameValid] at ht
  | succ fuel ih =>
    intro i t ht
    simp only [sameValid] at ht
    split at ht
    · rename_i hi
      by_cases ht0 : t = 0
      · subst ht0
        exact hi
      · have := ih (i + 1) (t - 1) (by omega)
        have heq : i + 1 + (t - 1) = i + t := by omega
        rwa [heq] at this
    · omega

theorem Collected.blocks {e : Nat} {valid : Nat → Bool} (fuel : Nat) :
    ∀ {b k : Nat} {st : Overlay}, Collected g md req i k st → e + 1 - b ≤ fuel → b ≤ e + 1 →
      (∀ t, b + t ≤ e → lineOf g req (k + t) = i ∧ cached g md req (k + t) = valid (b + t)) →
      (b ≤ e → Continues g req k st) →
      Collected g md req i (k + (e + 1 - b)) (Overlay.blocks g req valid e fuel b st) := by
  induction fuel with
  | zero =>
    intro b k st h hfuel hb _ _
    have h0 : e + 1 - b = 0 := by omega
    rw [h0]
    exact h
  | succ fuel ih =>
    intro b k st h hfuel hb hall hcont
    by_cases hbe : b ≤ e
    · simp only [Overlay.blocks, if_pos hbe]
      generalize hn : sameValid valid (valid b) e fuel (b + 1) = n
      have hspec := sameValid_spec valid (valid b) e fuel (b + 1)
      rw [hn] at hspec
      have hrange : ∀ t < n + 1, b + t ≤ e ∧ valid (b + t) = valid b := by
        intro t ht
        by_cases ht0 : t = 0
        · subst ht0
          exact ⟨hbe, rfl⟩
        · have := hspec (t - 1) (by omega)
          have heq : b + 1 + (t - 1) = b + t := by omega
          rwa [heq] at this
      have hadv := h.advanceRun (valid b) (n + 1) (by omega)
        (fun t ht => by
          obtain ⟨hle, hv⟩ := hrange t ht
          obtain ⟨hl, hc⟩ := hall t hle
          exact ⟨hl, hc.trans hv⟩) (hcont hbe)
      have hle := (hrange n (by omega)).1
      have hrest := ih hadv (by omega) (by omega : b + (n + 1) ≤ e + 1)
        (fun t ht => by
          have := hall (n + 1 + t) (by omega)
          rwa [← Nat.add_assoc, ← Nat.add_assoc b] at this)
        (fun hend => by
          have hlast := (hall n hle).1
          have hnew := (hall (n + 1) (by omega)).1
          exact Collected.continues (k := k + n) hadv hlast hnew)
      have hk : k + (n + 1) + (e + 1 - (b + (n + 1))) = k + (e + 1 - b) := by omega
      rw [hk] at hrest
      exact hrest
    · simp only [Overlay.blocks, if_neg hbe]
      have h0 : e + 1 - b = 0 := by omega
      rw [h0]
      exact h

/-- Blocks before line `i` of the request. -/
def lineStart (g : Geometry) (req : Request) (i : Nat) : Nat :=
  if i = 0 then 0 else i * g.lineBlocks - seek g req

theorem lineOf_lineStart {t : Nat} (ht : ocfMapLineStartBlock g req i + t < g.lineBlocks) :
    lineOf g req (lineStart g req i + t) = i ∧
      (seek g req + (lineStart g req i + t)) % g.lineBlocks = ocfMapLineStartBlock g req i + t := by
  have hseek : seek g req < g.lineBlocks := seek_lt
  by_cases h0 : i = 0
  · subst h0
    simp only [ocfMapLineStartBlock, if_pos] at ht
    simp only [lineOf, lineStart, ocfMapLineStartBlock, if_pos, Nat.zero_add]
    exact ⟨Nat.div_eq_of_lt ht, Nat.mod_eq_of_lt ht⟩
  · simp only [ocfMapLineStartBlock, if_neg h0, Nat.zero_add] at ht
    have hmul : g.lineBlocks ≤ i * g.lineBlocks := Nat.le_mul_of_pos_left _ (by omega)
    have hsum : seek g req + (lineStart g req i + t) = t + g.lineBlocks * i := by
      simp only [lineStart, if_neg h0]
      rw [Nat.mul_comm g.lineBlocks]
      omega
    simp only [lineOf, hsum, ocfMapLineStartBlock, if_neg h0, Nat.zero_add]
    rw [Nat.add_mul_div_left _ _ g.lineBlocks_pos, Nat.add_mul_mod_self_left,
      Nat.div_eq_of_lt ht, Nat.mod_eq_of_lt ht]
    exact ⟨by omega, rfl⟩

/-- Blocks of the request behind the loop after line `i` was finished. -/
def behind (g : Geometry) (req : Request) (i : Nat) : Nat := min (lineStart g req (i + 1)) req.blocks

theorem lineStart_succ (i : Nat) :
    lineStart g req (i + 1) = lineStart g req i + (g.lineBlocks - ocfMapLineStartBlock g req i) := by
  have hseek : seek g req < g.lineBlocks := seek_lt
  simp only [lineStart, ocfMapLineStartBlock, if_neg (Nat.succ_ne_zero i), Nat.succ_mul]
  by_cases h0 : i = 0
  · subst h0
    simp [seek]
  · have hmul : g.lineBlocks ≤ i * g.lineBlocks := Nat.le_mul_of_pos_left _ (by omega)
    simp only [if_neg h0]
    omega

theorem lineStart_add (h : 0 < req.blocks) (hi : i < req.coreLineCount g) :
    ocfMapLineEndBlock g req i < g.lineBlocks ∧
      ocfMapLineStartBlock g req i ≤ ocfMapLineEndBlock g req i ∧
      lineStart g req i + (ocfMapLineEndBlock g req i + 1 - ocfMapLineStartBlock g req i) =
        behind g req i := by
  have hB := g.lineBlocks_pos
  have hseek : seek g req < g.lineBlocks := seek_lt
  have hstart : ocfMapLineStartBlock g req i < g.lineBlocks := by
    simp only [ocfMapLineStartBlock]
    split
    · exact Nat.mod_lt _ hB
    · exact hB
  have hcount := coreLineCount_eq (g := g) h
  have hdm := Nat.div_add_mod (seek g req + req.blocks - 1) g.lineBlocks
  generalize hq : (seek g req + req.blocks - 1) / g.lineBlocks = q at hcount hdm
  have hmodlt := Nat.mod_lt (seek g req + req.blocks - 1) hB
  have hmod : (req.addr + req.blocks - 1) % g.lineBlocks =
      (seek g req + req.blocks - 1) % g.lineBlocks := by
    have hsum := div_mod_of_offset g req (req.blocks - 1)
    have h1 : req.addr + (req.blocks - 1) = req.addr + req.blocks - 1 := by omega
    have h2 : seek g req + (req.blocks - 1) = seek g req + req.blocks - 1 := by omega
    rw [h1, h2] at hsum
    exact hsum.2
  have hnext : lineStart g req (i + 1) =
      lineStart g req i + (g.lineBlocks - ocfMapLineStartBlock g req i) := lineStart_succ i
  by_cases hlast : i = req.coreLineCount g - 1
  · have hiq : i = q := by omega
    simp only [ocfMapLineEndBlock, if_pos hlast, if_neg (by omega : ¬req.addr + req.blocks = 0), hmod, behind, hnext]
    have hls : lineStart g req i + seek g req =
        g.lineBlocks * q + ocfMapLineStartBlock g req i := by
      simp only [lineStart, ocfMapLineStartBlock, ← hiq]
      by_cases h0 : i = 0
      · simp [h0, seek]
      · have hmul : g.lineBlocks ≤ i * g.lineBlocks := Nat.le_mul_of_pos_left _ (by omega)
        simp only [if_neg h0, Nat.mul_comm g.lineBlocks]
        omega
    have hle : ocfMapLineStartBlock g req i ≤ (seek g req + req.blocks - 1) % g.lineBlocks := by
      by_cases h0 : i = 0
      · simp only [ocfMapLineStartBlock, if_pos h0]
        rw [← hiq, h0] at hdm
        simp only [seek] at hdm ⊢
        omega
      · simp [ocfMapLineStartBlock, if_neg h0]
    generalize (seek g req + req.blocks - 1) % g.lineBlocks = r at hdm hmodlt hle ⊢
    generalize g.lineBlocks * q = p at hdm hls
    have hsum : lineStart g req i + (r + 1 - ocfMapLineStartBlock g req i) = req.blocks := by omega
    have hcap : req.blocks ≤ lineStart g req i + (g.lineBlocks - ocfMapLineStartBlock g req i) := by
      omega
    rw [Nat.min_eq_right hcap]
    exact ⟨hmodlt, hle, hsum⟩
  · simp only [ocfMapLineEndBlock, if_neg hlast, Geometry.endBlock, behind]
    refine ⟨by omega, by omega, ?_⟩
    have hle : lineStart g req (i + 1) ≤ req.blocks := by
      simp only [lineStart, if_neg (Nat.succ_ne_zero i)]
      have hmul : g.lineBlocks * (i + 1) ≤ g.lineBlocks * q := Nat.mul_le_mul_left _ (by omega)
      rw [Nat.mul_comm]
      omega
    omega

/-- The walk enters the next line. -/
theorem Collected.enter (h : Collected g md req i (lineStart g req (i + 1)) st) :
    Collected g md req (i + 1) (lineStart g req (i + 1)) (st.enter g req (req.map (i + 1))) ∧
      Continues g req (lineStart g req (i + 1)) (st.enter g req (req.map (i + 1))) := by
  have hB := g.lineBlocks_pos
  have hseek : seek g req < g.lineBlocks := seek_lt
  generalize hp : (if (req.map (i + 1)).status ≠ .miss then (req.map (i + 1)).collIdx
    else st.physCurr) = phys
  have hphys : (req.map (i + 1)).status ≠ .miss → phys = (req.map (i + 1)).collIdx := by
    intro hm
    rw [← hp, if_pos hm]
  cases hio : st.io with
  | false =>
    have henter : st.enter g req (req.map (i + 1)) = { st with physCurr := phys } := by
      simp only [Overlay.enter, hio, Bool.false_and, hp]
      rfl
    rw [henter]
    refine ⟨⟨h.offset, h.placed, h.cover, h.run, hphys, fun hio' => ?_⟩, fun hio' => ?_⟩
    · exact absurd hio' (by simp [hio])
    · exact absurd hio' (by simp [hio])
  | true =>
    by_cases hseq : st.physCurr + 1 = phys
    · have hmapped : (req.map (i + 1)).status ≠ .miss := by
        intro hm
        rw [if_neg (by simp [hm])] at hp
        omega
      have henter : st.enter g req (req.map (i + 1)) = { st with physCurr := phys } := by
        simp [Overlay.enter, hio, hp, hseq]
      rw [henter]
      refine ⟨⟨h.offset, h.placed, h.cover, h.run, hphys, fun _ => hmapped⟩, fun _ => ?_⟩
      obtain ⟨hlt, hrun⟩ := h.run hio
      have hcoll : (req.map (i + 1)).collIdx = (req.map i).collIdx + 1 := by
        rw [← hphys hmapped, ← hseq, h.phys (h.mapped hio)]
      have hprev := (hrun (lineStart g req (i + 1) - 1) (by omega) (by omega)).2
      have hmul : g.lineBlocks ≤ (i + 1) * g.lineBlocks := Nat.le_mul_of_pos_left _ (by omega)
      have hstart : lineStart g req (i + 1) = (i + 1) * g.lineBlocks - seek g req := by
        simp [lineStart]
      have hhere : targetBlock g req (lineStart g req (i + 1)) =
          lineAddr g (req.map (i + 1)).collIdx := by
        have hsum : seek g req + lineStart g req (i + 1) = 0 + g.lineBlocks * (i + 1) := by
          rw [hstart, Nat.mul_comm g.lineBlocks]
          omega
        rw [targetBlock, hsum, Nat.add_mul_div_left _ _ hB, Nat.add_mul_mod_self_left,
          Nat.zero_div, Nat.zero_mod, Nat.zero_add, Nat.add_zero]
      have hbefore : targetBlock g req (lineStart g req (i + 1) - 1) =
          lineAddr g (req.map i).collIdx + (g.lineBlocks - 1) := by
        have hsum : seek g req + (lineStart g req (i + 1) - 1) =
            (g.lineBlocks - 1) + g.lineBlocks * i := by
          rw [hstart, Nat.mul_comm g.lineBlocks, Nat.succ_mul]
          rw [Nat.succ_mul] at hmul
          omega
        rw [targetBlock, hsum, Nat.add_mul_div_left _ _ hB, Nat.add_mul_mod_self_left,
          Nat.div_eq_of_lt (by omega), Nat.mod_eq_of_lt (by omega), Nat.zero_add]
      have hline : lineAddr g (req.map (i + 1)).collIdx =
          lineAddr g (req.map i).collIdx + g.lineBlocks := by
        simp only [lineAddr, hcoll, Nat.succ_mul]
        omega
      simp only
      omega
    · have henter : st.enter g req (req.map (i + 1)) =
          Overlay.submit g req { st with physCurr := phys } := by
        simp [Overlay.enter, hio, hp, hseq]
      have hsub := h.submit hio
      rw [henter]
      refine ⟨⟨hsub.offset, hsub.placed, hsub.cover, hsub.run, hphys, fun hio' => ?_⟩,
        fun hio' => ?_⟩
      · exact absurd hio' (by simp [Overlay.submit])
      · exact absurd hio' (by simp [Overlay.submit])

theorem Collected.line (h0 : 0 < req.blocks) (hi : i < req.coreLineCount g)
    (h : Collected g md req i (lineStart g req i) (st.enter g req (req.map i)))
    (hcont : Continues g req (lineStart g req i) (st.enter g req (req.map i))) :
    Collected g md req i (behind g req i) (st.line g md req i) := by
  obtain ⟨hend, hle, hbehind⟩ := lineStart_add h0 hi
  have hblock : ∀ t, ocfMapLineStartBlock g req i + t ≤ ocfMapLineEndBlock g req i →
      lineOf g req (lineStart g req i + t) = i ∧ cached g md req (lineStart g req i + t) =
        ((req.map i).status != .miss &&
          md.valid (req.map i).collIdx (ocfMapLineStartBlock g req i + t)) := by
    intro t ht
    have hlt : ocfMapLineStartBlock g req i + t < g.lineBlocks := by omega
    obtain ⟨hl, hm⟩ := lineOf_lineStart hlt
    exact ⟨hl, by rw [cached, hl, hm]⟩
  rw [← hbehind]
  simp only [Overlay.line]
  by_cases hmiss : (req.map i).status = .miss
  · rw [if_pos hmiss]
    refine h.advanceRun false _ (by omega) (fun t ht => ?_) hcont
    obtain ⟨hl, hc⟩ := hblock t (by omega)
    exact ⟨hl, by rw [hc, hmiss]; rfl⟩
  · rw [if_neg hmiss]
    split
    · rename_i hall
      simp only [ocfEngineMapAllSecValid, Bool.and_eq_true, entryValid, metadataTestValidSec,
        testAll_eq_true] at hall
      refine h.advanceRun true _ (by omega) (fun t ht => ?_) hcont
      obtain ⟨hl, hc⟩ := hblock t (by omega)
      refine ⟨hl, ?_⟩
      rw [hc, hall.2 _ (by omega) (by omega)]
      simp [hmiss]
    · refine h.blocks _ (by omega) (by omega) (fun t ht => ?_) (fun _ => hcont)
      obtain ⟨hl, hc⟩ := hblock t ht
      exact ⟨hl, by rw [hc]; simp [hmiss]⟩

/-- State of the loop between two lines. -/
def Between (g : Geometry) (md : LineTable) (req : Request) (n : Nat) (st : Overlay) : Prop :=
  (n = 0 → st = ⟨false, 0, 0, 0, []⟩) ∧
    (0 < n → Collected g md req (n - 1) (behind g req (n - 1)) st)

theorem Between.line (h0 : 0 < req.blocks)
    (h : Between g md req i st) (hi : i < req.coreLineCount g) :
    Between g md req (i + 1) (st.line g md req i) := by
  refine ⟨fun h => absurd h (Nat.succ_ne_zero i), fun _ => ?_⟩
  simp only [Nat.add_sub_cancel]
  cases i with
  | zero =>
    rw [h.1 rfl]
    refine Collected.line h0 hi ⟨?_, ?_, ?_, ?_, ?_, ?_⟩ ?_
    all_goals simp +contextual [Overlay.enter, lineStart, blocksOf, Continues]
  | succ i =>
    have hcol := h.2 (Nat.succ_pos i)
    simp only [Nat.add_sub_cancel] at hcol
    have hbeh : behind g req i = lineStart g req (i + 1) := by
      obtain ⟨-, hle, hb⟩ := lineStart_add (g := g) h0 hi
      have hmin : behind g req (i + 1) ≤ req.blocks := Nat.min_le_right _ _
      simp only [behind] at hb ⊢ hmin
      omega
    rw [hbeh] at hcol
    obtain ⟨henter, hcont⟩ := hcol.enter
    exact Collected.line h0 hi henter hcont

theorem ocfReadWoCacheDo_spec (h0 : 0 < req.blocks) : Placed g req (ocfReadWoCacheDo g md req) ∧
      ∀ k < req.blocks, (targetBlock g req k, k) ∈ blocksOf (ocfReadWoCacheDo g md req) ↔
        cached g md req k = true := by
  have hcount : 0 < req.coreLineCount g := by simp [Request.coreLineCount]
  have hlast : behind g req (req.coreLineCount g - 1) = req.blocks := by
    have hmul := coreLineCount_mul (g := g) h0
    have hB : g.lineBlocks ≤ req.coreLineCount g * g.lineBlocks := Nat.le_mul_of_pos_left _ hcount
    have hseek : seek g req < g.lineBlocks := seek_lt
    simp only [behind, lineStart, Nat.sub_add_cancel hcount, if_neg (Nat.ne_of_gt hcount)]
    omega
  have hinv : Between g md req (req.coreLineCount g)
      (forRange (req.coreLineCount g) (Overlay.line g md req) ⟨false, 0, 0, 0, []⟩) :=
    forRange_inv (Between g md req) ⟨fun _ => rfl, fun h => absurd h (Nat.lt_irrefl 0)⟩
      fun i st hi h => h.line h0 hi
  have hcol := hinv.2 hcount
  rw [hlast] at hcol
  have hdone : ∃ st, ocfReadWoCacheDo g md req = st.out ∧ st.io = false ∧
      Collected g md req (req.coreLineCount g - 1) req.blocks st := by
    simp only [ocfReadWoCacheDo]
    split
    · rename_i hio
      exact ⟨_, rfl, rfl, hcol.submit hio⟩
    · rename_i hio
      exact ⟨_, rfl, by simpa using hio, hcol⟩
  obtain ⟨st, hout, hio, hfin⟩ := hdone
  rw [hout]
  refine ⟨fun b hb => ⟨(hfin.placed b hb).1, (hfin.placed b hb).2.1⟩, fun k hk => ⟨fun hm => ?_,
    fun hc => ?_⟩⟩
  · exact (hfin.placed _ hm).2.2
  · rcases hfin.cover k hk hc with ⟨hio', -⟩ | hm
    · rw [hio] at hio'
      cases hio'
    · exact hm

end OcfCache.WoOverlay
