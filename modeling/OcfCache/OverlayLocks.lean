import OcfCache.EngineRecheck
import OcfCache.WoOverlay

/-!
# Bucket locks and transfers of the write-only overlay

Embedding of `ocf_read_wo_cache_do` with its hash bucket locks. Each round of
the inner loop drops the lock of its line and takes it again if blocks of the
line are left. The module shows that the transfers are those of the plain loop,
that they are disjoint and contiguous on the device, and that each lock is
released once.
-/

namespace OcfCache.OverlayLocks

open Loops Metadata Requests EngineCommon EngineIo WoOverlay

/-- A step on the hash bucket lock of an entry. -/
inductive HbStep where
  /-- `ocf_hb_cline_prot_lock_rd` -/
  | lockRd (line : Nat)
  /-- `ocf_hb_cline_prot_unlock_rd` -/
  | unlockRd (line : Nat)

/-- The entry that is locked after a step; none if the lock is taken twice or
released without being held. -/
def HbStep.apply (held : Option Nat) (step : HbStep) : Option (Option Nat) :=
  match step with
  | .lockRd line => if held = none then some (some line) else none
  | .unlockRd line => if held = some line then some none else none

/-- The entry that is locked after all steps. -/
def heldAfter (steps : List HbStep) : Option (Option Nat) := steps.foldlM HbStep.apply none

/-- The overlay loop and its lock steps. -/
structure Locked where
  /-- Variables of the loop. -/
  st : Overlay
  /-- Lock steps so far. -/
  locks : List HbStep

variable (g : Geometry) (md : LineTable) (req : Request)

/-- The `do` loop of a line, from block `i`. Behind the end of the line it
runs once, with the validity and the length that were set before it. -/
def Locked.rounds (isValid : Nat → Bool) (line e : Nat) :
    Nat → Nat → Bool → Nat → Locked → Locked
  | 0, _, _, _, lk => lk
  | fuel + 1, i, valid, increment, lk =>
    let n := if i ≤ e then sameValid isValid (isValid i) e fuel (i + 1) + 1 else increment
    let valid := if i ≤ e then isValid i else valid
    let i := if i ≤ e then i + n else i
    let st := lk.st.advance g req valid n
    let locks := lk.locks ++ [.unlockRd line]
    if i ≤ e then Locked.rounds isValid line e fuel i valid n ⟨st, locks ++ [.lockRd line]⟩
    else ⟨st, locks⟩

/-- Body of the loop over the lines. -/
def Locked.line (lk : Locked) (line : Nat) : Locked :=
  let entry := req.map line
  let s := ocfMapLineStartBlock g req line
  let e := ocfMapLineEndBlock g req line
  let isValid := md.valid entry.collIdx
  let n := e + 1 - s
  let lk : Locked := ⟨lk.st.enter g req entry, lk.locks ++ [.lockRd line]⟩
  if entry.status = .miss then lk.rounds g req isValid line e (n + 1) (e + 1) false n
  else if ocfEngineMapAllSecValid g md req line then lk.rounds g req isValid line e (n + 1) (e + 1) true n
  -- `valid` and `increment` matter only for a request without blocks
  else lk.rounds g req isValid line e (n + 1) s false 0

/-- `ocf_read_wo_cache_do` -/
def ocfReadWoCacheDo : Locked :=
  let lk := forRange (req.coreLineCount g) (Locked.line g md req) ⟨⟨false, 0, 0, 0, []⟩, []⟩
  if lk.st.io then { lk with st := lk.st.submit g req } else lk

variable {g md req}

theorem heldAfter_append {steps : List HbStep} {held : Option Nat} (h : heldAfter steps = some held)
    (step : HbStep) : heldAfter (steps ++ [step]) = step.apply held := by
  have hrun : steps.foldlM HbStep.apply none = some held := h
  rw [heldAfter, List.foldlM_append, hrun]
  simp

theorem rounds_st {isValid : Nat → Bool} {line e : Nat} (fuel : Nat) :
    ∀ {i : Nat} {valid : Bool} {n : Nat} {lk : Locked}, i ≤ e → e + 1 - i ≤ fuel →
      (lk.rounds g req isValid line e fuel i valid n).st =
        Overlay.blocks g req isValid e fuel i lk.st := by
  induction fuel with
  | zero =>
    intro i valid n lk hi hfuel
    omega
  | succ fuel ih =>
    intro i valid n lk hi hfuel
    simp only [Locked.rounds, Overlay.blocks, if_pos hi]
    split
    · rename_i hnext
      exact ih hnext (by omega)
    · rename_i hnext
      cases fuel with
      | zero => rfl
      | succ fuel => rw [Overlay.blocks, if_neg hnext]

theorem rounds_locks {isValid : Nat → Bool} {line e : Nat} (fuel : Nat) :
    ∀ {i : Nat} {valid : Bool} {n : Nat} {lk : Locked}, 0 < fuel → e + 1 - i ≤ fuel →
      heldAfter lk.locks = some (some line) →
      heldAfter (lk.rounds g req isValid line e fuel i valid n).locks = some none := by
  induction fuel with
  | zero =>
    intro i valid n lk hpos
    omega
  | succ fuel ih =>
    intro i valid n lk _ hfuel hheld
    have hfree := heldAfter_append hheld (.unlockRd line)
    simp only [HbStep.apply, if_true] at hfree
    have hagain := heldAfter_append hfree (.lockRd line)
    simp only [HbStep.apply, if_true] at hagain
    by_cases hi : i ≤ e
    · simp only [Locked.rounds, if_pos hi]
      split
      · exact @ih _ _ _ ⟨_, _⟩ (by omega) (by omega) hagain
      · exact hfree
    · simp only [Locked.rounds, if_neg hi]
      exact hfree

/-- The lock of a line is taken once and given back. -/
theorem line_locks {line : Nat} {lk : Locked} (hheld : heldAfter lk.locks = some none) :
    heldAfter (lk.line g md req line).locks = some none := by
  have hlock := heldAfter_append hheld (.lockRd line)
  simp only [HbStep.apply, if_true] at hlock
  simp only [Locked.line]
  split
  · exact rounds_locks _ (by omega) (by omega) hlock
  · split
    · exact rounds_locks _ (by omega) (by omega) hlock
    · exact rounds_locks _ (by omega) (by omega) hlock

theorem line_st (h0 : 0 < req.blocks) {line : Nat} (hline : line < req.coreLineCount g) (lk : Locked) :
    (lk.line g md req line).st = lk.st.line g md req line := by
  have hse := (lineStart_add h0 hline).2.1
  have hend : ¬ocfMapLineEndBlock g req line + 1 ≤ ocfMapLineEndBlock g req line := by omega
  simp only [Locked.line, Overlay.line]
  split
  · simp only [Locked.rounds, if_neg hend]
  · split
    · simp only [Locked.rounds, if_neg hend]
    · exact rounds_st _ hse (by omega)

/-- Transfers so far do not meet, and lie before what is still to be
transferred. -/
structure Apart (st : Overlay) : Prop where
  /-- No block of the buffer is transferred twice. -/
  once : ((blocksOf st.out).map Prod.snd).Nodup
  /-- Transferred blocks are before the open run and behind the loop. -/
  before : ∀ b ∈ blocksOf st.out, b.2 < st.offset ∧ (st.io = true → b.2 < st.ioStart)

theorem Apart.submit {st : Overlay} (h : Apart st) (hio : st.io = true) :
    Apart (st.submit g req) := by
  have hnew : ∀ b ∈ blocksOf [ocfEngineForwardCacheIo g req st.ioStart (st.offset - st.ioStart)],
      st.ioStart ≤ b.2 ∧ b.2 < st.offset := by
    intro b hb
    obtain ⟨t, ht, hb⟩ := mem_forward.mp hb
    rw [hb]
    simp only
    omega
  have hself : ((blocksOf [ocfEngineForwardCacheIo g req st.ioStart
      (st.offset - st.ioStart)]).map Prod.snd).Nodup := by
    simp only [blocksOf, List.flatMap_cons, List.flatMap_nil, List.append_nil, Piece.blocks,
      List.map_map]
    exact List.nodup_range.map fun a b hab => by
      simp only [Function.comp_apply] at hab
      omega
  constructor
  · simp only [Overlay.submit, blocksOf_append, List.map_append]
    refine h.once.append hself fun k hold hk => ?_
    obtain ⟨b, hb, hbk⟩ := List.mem_map.mp hold
    obtain ⟨b', hb', hbk'⟩ := List.mem_map.mp hk
    have hlt := (h.before b hb).2 hio
    have hge := (hnew b' hb').1
    omega
  · intro b hb
    simp only [Overlay.submit, blocksOf_append, List.mem_append] at hb ⊢
    refine ⟨?_, fun hio' => absurd hio' (by simp)⟩
    rcases hb with hb | hb
    · exact (h.before b hb).1
    · exact (hnew b hb).2

theorem Apart.advance {st : Overlay} (h : Apart st) (valid : Bool) (n : Nat) :
    Apart (st.advance g req valid n) := by
  have hmove : ∀ {st' : Overlay}, Apart st' →
      Apart { st' with offset := st'.offset + n } := by
    intro st' h'
    refine ⟨h'.once, fun b hb => ⟨?_, (h'.before b hb).2⟩⟩
    have hlt := (h'.before b hb).1
    simp only
    omega
  have hopen : ∀ {st' : Overlay}, Apart st' →
      Apart (if !st'.io && valid then { st' with io := true, ioStart := st'.offset } else st') := by
    intro st' h'
    split
    · exact ⟨h'.once, fun b hb => ⟨(h'.before b hb).1, fun _ => (h'.before b hb).1⟩⟩
    · exact h'
  have hclose : Apart (if st.io && !valid then st.submit g req else st) := by
    split
    · rename_i hio
      simp only [Bool.and_eq_true] at hio
      exact h.submit hio.1
    · exact h
  exact hmove (hopen hclose)

theorem Apart.enter {st : Overlay} (h : Apart st) (entry : MapInfo) :
    Apart (st.enter g req entry) := by
  have hphys : ∀ phys, Apart { st with physCurr := phys } := fun _ => ⟨h.once, h.before⟩
  simp only [Overlay.enter]
  generalize (if entry.status ≠ .miss then entry.collIdx else st.physCurr) = phys
  split
  · rename_i hio
    simp only [Bool.and_eq_true] at hio
    exact (hphys phys).submit hio.1
  · exact hphys phys

theorem Apart.blocks {valid : Nat → Bool} {e : Nat} (fuel : Nat) :
    ∀ {i : Nat} {st : Overlay}, Apart st → Apart (Overlay.blocks g req valid e fuel i st) := by
  induction fuel with
  | zero =>
    intro i st h
    exact h
  | succ fuel ih =>
    intro i st h
    simp only [Overlay.blocks]
    split
    · exact ih (h.advance _ _)
    · exact h

theorem Apart.line {st : Overlay} (h : Apart st) (line : Nat) : Apart (st.line g md req line) := by
  have henter := @Apart.enter g req _ h (req.map line)
  simp only [Overlay.line]
  split
  · exact henter.advance _ _
  · split
    · exact henter.advance _ _
    · exact Apart.blocks _ henter

/-- Between two lines, the loop with its locks is where the plain loop is. -/
def Follows (lk : Locked) (st : Overlay) : Prop :=
  lk.st = st ∧ heldAfter lk.locks = some none ∧ Apart lk.st

theorem ocfReadWoCacheDo_locked (h0 : 0 < req.blocks) :
    (ocfReadWoCacheDo g md req).st.out = WoOverlay.ocfReadWoCacheDo g md req ∧
      heldAfter (ocfReadWoCacheDo g md req).locks = some none ∧
      Apart (ocfReadWoCacheDo g md req).st := by
  have hloop : Follows (forRange (req.coreLineCount g) (Locked.line g md req)
      ⟨⟨false, 0, 0, 0, []⟩, []⟩)
      (forRange (req.coreLineCount g) (Overlay.line g md req) ⟨false, 0, 0, 0, []⟩) := by
    refine forRange_rel (fun _ => Follows)
      ⟨rfl, rfl, by simp [blocksOf], by simp [blocksOf]⟩ fun i lk st hi h => ?_
    obtain ⟨hst, hheld, hapart⟩ := h
    have hline := @line_st g md req h0 _ hi lk
    refine ⟨by rw [hline, hst], line_locks hheld, ?_⟩
    rw [hline]
    exact hapart.line i
  obtain ⟨hst, hheld, hapart⟩ := hloop
  simp only [ocfReadWoCacheDo, WoOverlay.ocfReadWoCacheDo, ← hst]
  split
  · rename_i hio
    exact ⟨rfl, hheld, hapart.submit hio⟩
  · exact ⟨rfl, hheld, hapart⟩

theorem lineOf_next {k : Nat} (h : targetBlock g req (k + 1) = targetBlock g req k + 1) :
    lineOf g req (k + 1) = lineOf g req k ∨ lineOf g req (k + 1) = lineOf g req k + 1 ∧
        (req.map (lineOf g req (k + 1))).collIdx = (req.map (lineOf g req k)).collIdx + 1 := by
  have hB := g.lineBlocks_pos
  have hdm := Nat.div_add_mod (seek g req + k) g.lineBlocks
  have hlt := Nat.mod_lt (seek g req + k) hB
  by_cases hlast : (seek g req + k) % g.lineBlocks + 1 = g.lineBlocks
  · have hsum : seek g req + (k + 1) = 0 + g.lineBlocks * ((seek g req + k) / g.lineBlocks + 1) := by
      rw [Nat.mul_add]
      omega
    have hdiv : (seek g req + (k + 1)) / g.lineBlocks = (seek g req + k) / g.lineBlocks + 1 := by
      rw [hsum, Nat.add_mul_div_left _ _ hB, Nat.zero_div, Nat.zero_add]
    have hmod : (seek g req + (k + 1)) % g.lineBlocks = 0 := by
      rw [hsum, Nat.add_mul_mod_self_left, Nat.zero_mod]
    refine .inr ⟨hdiv, ?_⟩
    simp only [targetBlock, lineAddr, hmod] at h
    refine Nat.eq_of_mul_eq_mul_right hB ?_
    rw [Nat.add_mul]
    simp only [lineOf]
    omega
  · have hsum : seek g req + (k + 1) = ((seek g req + k) % g.lineBlocks + 1) +
        g.lineBlocks * ((seek g req + k) / g.lineBlocks) := by omega
    refine .inl ?_
    rw [lineOf, hsum, Nat.add_mul_div_left _ _ hB, Nat.div_eq_of_lt (by omega), Nat.zero_add]
    rfl

/-- What the overlay of a request does. -/
structure Overlaid (g : Geometry) (md : LineTable) (req : Request) (lk : Locked) : Prop where
  /-- The cached blocks of the request are transferred, each between its place
  on the device and its place in the buffer. -/
  blocks : ∀ b, b ∈ blocksOf lk.st.out ↔
    b.2 < req.blocks ∧ b.1 = targetBlock g req b.2 ∧ cached g md req b.2 = true
  /-- Each of them once. -/
  once : ((blocksOf lk.st.out).map Prod.snd).Nodup
  /-- A transfer stays on lines that are neighbours on the device. -/
  contiguous : ∀ p ∈ lk.st.out, ∀ t, t + 1 < p.len →
    lineOf g req (p.off + t + 1) = lineOf g req (p.off + t) ∨
      lineOf g req (p.off + t + 1) = lineOf g req (p.off + t) + 1 ∧
        (req.map (lineOf g req (p.off + t + 1))).collIdx =
          (req.map (lineOf g req (p.off + t))).collIdx + 1
  /-- Each bucket lock is released once, before the next one is taken. -/
  released : heldAfter lk.locks = some none

/-- The overlay reads the cached blocks of a request with data, and only them. -/
theorem ocfReadWoCacheDo_overlaid (h0 : 0 < req.blocks) :
    Overlaid g md req (ocfReadWoCacheDo g md req) := by
  obtain ⟨hout, hlocks, hapart⟩ := ocfReadWoCacheDo_locked (g := g) h0
  obtain ⟨hplaced, hcached⟩ := ocfReadWoCacheDo_spec (g := g) h0
  rw [← hout] at hplaced hcached
  refine ⟨fun b => ⟨fun hb => ?_, fun hb => ?_⟩, hapart.once, fun p hp t ht => ?_, hlocks⟩
  · obtain ⟨hlt, haddr⟩ := hplaced b hb
    exact ⟨hlt, haddr, (hcached b.2 hlt).mp (haddr ▸ hb)⟩
  · obtain ⟨hlt, haddr, hc⟩ := hb
    have hmem := (hcached b.2 hlt).mpr hc
    rwa [← haddr] at hmem
  · have hblock : ∀ t < p.len, targetBlock g req (p.off + t) = p.addr + t := by
      intro t ht
      have hmem : (p.addr + t, p.off + t) ∈ blocksOf (ocfReadWoCacheDo g md req).st.out :=
        List.mem_flatMap.mpr ⟨p, hp, mem_piece_blocks.mpr ⟨t, ht, rfl⟩⟩
      exact (hplaced _ hmem).2.symm
    have hhere := hblock t (by omega)
    have hnext := hblock (t + 1) ht
    refine lineOf_next ?_
    rw [Nat.add_assoc, hhere, hnext]
    omega

section Empty

variable (h0 : req.blocks = 0)
include h0

theorem coreLineCount_empty : req.coreLineCount g = 1 := by
  rw [Request.coreLineCount, Request.coreLineLast, if_neg (by omega), Nat.sub_self]

/-- A request without data inside a line transfers nothing. -/
theorem ocfReadWoCacheDo_inside (hin : req.addr % g.lineBlocks ≠ 0) :
    Overlaid g md req (ocfReadWoCacheDo g md req) := by
  have hcount := coreLineCount_empty (g := g) h0
  have hs : ocfMapLineStartBlock g req 0 = req.addr % g.lineBlocks := if_pos rfl
  have he : ocfMapLineEndBlock g req 0 + 1 = req.addr % g.lineBlocks := by
    have hdm := Nat.div_add_mod req.addr g.lineBlocks
    have hlt := Nat.mod_lt req.addr g.lineBlocks_pos
    have hpred : req.addr - 1 = g.lineBlocks * (req.addr / g.lineBlocks) + (req.addr % g.lineBlocks - 1) := by
      omega
    have hval : ocfMapLineEndBlock g req 0 = (req.addr - 1) % g.lineBlocks := by
      rw [ocfMapLineEndBlock, hcount, if_pos rfl, if_neg (by omega), h0]
      rfl
    rw [hval, hpred, Nat.mul_add_mod, Nat.mod_eq_of_lt (by omega)]
    omega
  have hlocks : heldAfter (Locked.line g md req ⟨⟨false, 0, 0, 0, []⟩, []⟩ 0).locks = some none := line_locks rfl
  -- the body of the inner loop runs once and counts no block
  obtain ⟨io, phys, hst⟩ : ∃ io phys,
      (Locked.line g md req ⟨⟨false, 0, 0, 0, []⟩, []⟩ 0).st = ⟨io, 0, 0, phys, []⟩ := by
    have hlen : ocfMapLineEndBlock g req 0 + 1 - ocfMapLineStartBlock g req 0 = 0 := by omega
    have hlast : ¬ocfMapLineEndBlock g req 0 + 1 ≤ ocfMapLineEndBlock g req 0 := by omega
    have hstart : ¬ocfMapLineStartBlock g req 0 ≤ ocfMapLineEndBlock g req 0 := by omega
    simp only [Locked.line, hlen, Locked.rounds, if_neg hlast, if_neg hstart]
    split
    · exact ⟨_, _, rfl⟩
    · split
      · exact ⟨_, _, rfl⟩
      · exact ⟨_, _, rfl⟩
  have hempty : blocksOf (ocfReadWoCacheDo g md req).st.out = [] ∧
      ∀ p ∈ (ocfReadWoCacheDo g md req).st.out, p.len = 0 := by
    simp only [ocfReadWoCacheDo, hcount, forRange_succ, forRange_zero, hst]
    split <;> simp [hst, Overlay.submit, blocksOf, Piece.blocks, ocfEngineForwardCacheIo]
  obtain ⟨hblocks, hlen⟩ := hempty
  refine ⟨fun b => ?_, ?_, fun p hp t ht => ?_, ?_⟩
  · simp [hblocks, h0]
  · simp [hblocks]
  · rw [hlen p hp] at ht
    exact absurd ht (Nat.not_lt_zero _)
  · simp only [ocfReadWoCacheDo, hcount, forRange_succ, forRange_zero]
    split <;> exact hlocks

omit h0 in
theorem rounds_congr {req' : Request} (hadv : Overlay.advance g req' = Overlay.advance g req)
    {isValid : Nat → Bool} {line e : Nat} (fuel : Nat) : ∀ {i : Nat} {valid : Bool} {n : Nat} {lk : Locked},
      lk.rounds g req' isValid line e fuel i valid n = lk.rounds g req isValid line e fuel i valid n := by
  induction fuel with
  | zero =>
    intro i valid n lk
    rfl
  | succ fuel ih =>
    intro i valid n lk
    simp only [Locked.rounds, hadv, ih]

/-- At the start of a line it is treated as a request for the whole line. -/
theorem ocfReadWoCacheDo_aligned (hal : req.addr % g.lineBlocks = 0) :
    ocfReadWoCacheDo g md req = ocfReadWoCacheDo g md { req with blocks := g.lineBlocks } := by
  have hB := g.lineBlocks_pos
  have hcount := coreLineCount_empty (g := g) h0
  obtain ⟨q, hq⟩ := Nat.dvd_of_mod_eq_zero hal
  have hlast : (req.addr + g.lineBlocks - 1) / g.lineBlocks = q ∧
      (req.addr + g.lineBlocks - 1) % g.lineBlocks = g.endBlock := by
    have hsum : req.addr + g.lineBlocks - 1 = g.lineBlocks * q + (g.lineBlocks - 1) := by omega
    rw [hsum, Nat.mul_add_div hB, Nat.mul_add_mod, Nat.div_eq_of_lt (by omega), Nat.mod_eq_of_lt (by omega)]
    exact ⟨rfl, rfl⟩
  have hcount' : Request.coreLineCount g { req with blocks := g.lineBlocks } = 1 := by
    rw [Request.coreLineCount, Request.coreLineLast, if_pos hB, hlast.1, Request.coreLineFirst, hq,
      Nat.mul_div_cancel_left _ hB, Nat.sub_self]
  have hend : ocfMapLineEndBlock g req 0 = g.endBlock := by
    rw [ocfMapLineEndBlock, hcount, if_pos rfl, h0, Nat.add_zero]
    split
    · rfl
    · obtain ⟨p, rfl⟩ : ∃ p, q = p + 1 := Nat.exists_eq_succ_of_ne_zero fun hz => by simp_all
      have hsum : req.addr - 1 = g.lineBlocks * p + (g.lineBlocks - 1) := by
        rw [hq, Nat.mul_succ]
        omega
      rw [hsum, Nat.mul_add_mod, Nat.mod_eq_of_lt (by omega), Geometry.endBlock]
  have hend' : ocfMapLineEndBlock g { req with blocks := g.lineBlocks } 0 = g.endBlock := by
    rw [ocfMapLineEndBlock, hcount', if_pos rfl, if_neg (Nat.ne_of_gt (Nat.add_pos_right _ hB)), hlast.2]
  have hline : ∀ lk, Locked.line g md { req with blocks := g.lineBlocks } lk 0 = Locked.line g md req lk 0 := by
    intro lk
    simp only [Locked.line, ocfEngineMapAllSecValid, entryValid, hend, hend',
      @rounds_congr g req { req with blocks := g.lineBlocks } rfl]
    rfl
  simp only [ocfReadWoCacheDo, hcount, hcount', forRange_succ, forRange_zero, hline]
  rfl

end Empty

/-- The line at the start of the request is mapped and has a valid block. -/
def StartCached (g : Geometry) (md : LineTable) (req : Request) : Prop :=
  (req.map 0).status ≠ .miss ∧ ∃ i < g.lineBlocks, md.valid (req.map 0).collIdx i = true

/-- The overlay is right if and only if the request has data, begins inside a
line, or begins with a line of which nothing is cached. -/
theorem overlaid_iff (g : Geometry) (md : LineTable) (req : Request) :
    Overlaid g md req (ocfReadWoCacheDo g md req) ↔
      0 < req.blocks ∨ req.addr % g.lineBlocks ≠ 0 ∨ ¬StartCached g md req := by
  rcases Nat.eq_zero_or_pos req.blocks with h0 | hpos
  swap
  · exact iff_of_true (ocfReadWoCacheDo_overlaid hpos) (.inl hpos)
  by_cases hal : req.addr % g.lineBlocks = 0
  swap
  · exact iff_of_true (ocfReadWoCacheDo_inside h0 hal) (.inr (.inl hal))
  rw [ocfReadWoCacheDo_aligned h0 hal]
  have hfull := @ocfReadWoCacheDo_overlaid g md { req with blocks := g.lineBlocks } g.lineBlocks_pos
  have hseek : seek g { req with blocks := g.lineBlocks } = 0 := hal
  have hcached : ∀ k < g.lineBlocks, cached g md { req with blocks := g.lineBlocks } k = true ↔
      (req.map 0).status ≠ .miss ∧ md.valid (req.map 0).collIdx k = true := by
    intro k hk
    simp only [cached, lineOf, hseek, Nat.zero_add, Nat.div_eq_of_lt hk, Nat.mod_eq_of_lt hk, Bool.and_eq_true,
      bne_iff_ne]
  constructor
  · intro h
    refine .inr (.inr fun hstart => ?_)
    obtain ⟨hmapped, k, hk, hv⟩ := hstart
    have hb := (hfull.blocks (targetBlock g { req with blocks := g.lineBlocks } k, k)).mpr ⟨hk, rfl, (hcached k hk).mpr ⟨hmapped, hv⟩⟩
    exact absurd ((h.blocks _).mp hb).1 (by omega)
  · intro h
    have hnone : ¬StartCached g md req := (h.resolve_left (by omega)).resolve_left (not_not.mpr hal)
    refine ⟨fun b => ⟨fun hb => ?_, fun hb => absurd hb.1 (by omega)⟩, hfull.once, hfull.contiguous, hfull.released⟩
    obtain ⟨hk, -, hc⟩ := (hfull.blocks b).mp hb
    obtain ⟨hmapped, hv⟩ := (hcached b.2 hk).mp hc
    exact absurd ⟨hmapped, b.2, hk, hv⟩ hnone

/-- A read without data at address zero, as its lookup leaves it. -/
def emptyRead : Request :=
  ocfEngineLookup EngineRecheck.smallGeometry EngineRecheck.partialTable (EngineRecheck.newRead 0)

/-- Its line has one valid block, which is read into the buffer behind its end. -/
theorem emptyRead_not_overlaid : emptyRead.blocks = 0 ∧ emptyRead.info.dirtyAny = 1 ∧
    ¬Overlaid EngineRecheck.smallGeometry EngineRecheck.partialTable emptyRead
      (ocfReadWoCacheDo EngineRecheck.smallGeometry EngineRecheck.partialTable emptyRead) := by
  refine ⟨by decide, by decide, fun h => ?_⟩
  have hread : (56, 0) ∈ blocksOf (ocfReadWoCacheDo EngineRecheck.smallGeometry EngineRecheck.partialTable
      emptyRead).st.out := by decide
  exact absurd ((h.blocks _).mp hread).1 (by decide)

end OcfCache.OverlayLocks
