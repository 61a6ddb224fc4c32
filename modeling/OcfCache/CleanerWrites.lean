import OcfCache.CacheLine
import OcfCache.Cleaner
import OcfCache.Runs

/-!
# What a cleaning request reads, writes and cleans

The stages of cleaning requests on the metadata of the cache: choosing the
lines, checking them once they are locked, the cache reads, the core writes of
the dirty blocks, the flush of the core and the update of the metadata. Any
number of requests run at once, and between their stages the rest of the cache
changes the metadata as far as the read locks of the requests allow. Addresses
and buffer offsets count in blocks. The I/Os of a stage return one error each,
in any order; the flush of the metadata comes after the modelled part.
-/

namespace OcfCache.CleanerData

open CacheLine Cleaner Loops Metadata Runs

/-- A read of a cache line into a slot of the buffer. -/
structure CacheRead where
  /-- First block on the cache device. -/
  addr : Nat
  /-- Number of blocks. -/
  blocks : Nat
  /-- First block of the buffer. -/
  offset : Nat
  deriving DecidableEq

/-- A write of a part of the buffer to the core. -/
structure CoreWrite where
  /-- First block on the core device. -/
  addr : Nat
  /-- Number of blocks. -/
  blocks : Nat
  /-- First block of the buffer. -/
  offset : Nat
  deriving DecidableEq

variable (g : Geometry)

/-- The read that `_ocf_cleaner_fire_cache` submits for an entry. -/
def cacheRead (e : MapInfo) : CacheRead :=
  ⟨e.collIdx * g.lineBlocks + g.metadataOffset, g.lineBlocks, g.lineBlocks * e.hash⟩

/-- `_ocf_cleaner_core_io_for_dirty_range`. -/
def coreIoForDirtyRange (e : MapInfo) (first stop : Nat) : CoreWrite :=
  ⟨g.lineBlocks * e.coreLine + first, stop - first, g.lineBlocks * e.hash + first⟩

/-- `_ocf_cleaner_block_is_dirty`; a dirty block that is not valid is a bug. -/
def blockIsDirty (md : LineTable) (line block : Nat) : Option Bool :=
  if md.valid line block = false ∧ md.dirty line block = true then none
  else some (if md.valid line block = true then md.dirty line block else false)

/-- Variables of the loop over the blocks of a line. -/
structure Scan where
  /-- `counting_dirty`. -/
  counting : Bool
  /-- `dirty_start`. -/
  start : Nat
  /-- Ranges submitted so far. -/
  ranges : List (Nat × Nat)

/-- One round of the loop of `_ocf_cleaner_core_submit_io`. -/
def scanBlock (md : LineTable) (line : Nat) (st : Scan) (i : Nat) : Option Scan := do
  let dirty ← blockIsDirty md line i
  if dirty = false then
    some (if st.counting = true then ⟨false, st.start, st.ranges ++ [(st.start, i)]⟩ else st)
  else
    some (if st.counting = false then { st with counting := true, start := i } else st)

/-- Ranges of blocks that `_ocf_cleaner_core_submit_io` writes: the whole line
if it is valid, else its runs of dirty blocks. -/
def submitRanges (md : LineTable) (line : Nat) : Option (List (Nat × Nat)) :=
  if testAll (md.valid line) 0 g.endBlock = true ∧ metadataTestDirty g md line = true then
    some [(0, g.lineBlocks)]
  else do
    let st ← (List.range g.lineBlocks).foldlM (scanBlock md line) ⟨false, 0, []⟩
    some (if st.counting = true then st.ranges ++ [(st.start, g.lineBlocks)] else st.ranges)

/-- `_ocf_cleaner_core_submit_io`. -/
def coreSubmitIo (md : LineTable) (e : MapInfo) : Option (List CoreWrite) :=
  (submitRanges g md e.collIdx).map fun ranges => ranges.map fun r => coreIoForDirtyRange g e r.1 r.2

/-- The ranges of a line: inside the line, on valid blocks, and every dirty
block in one of them. -/
structure Covers (md : LineTable) (line : Nat) (ranges : List (Nat × Nat)) : Prop where
  /-- A range is not empty and inside the line. -/
  bounds : ∀ r ∈ ranges, r.1 < r.2 ∧ r.2 ≤ g.lineBlocks
  /-- Only valid blocks are written. -/
  valid : ∀ r ∈ ranges, ∀ b, r.1 ≤ b → b < r.2 → md.valid line b = true
  /-- No block is written twice. -/
  at_most_once : ∀ b, ranges.countP (fun r => decide (r.1 ≤ b ∧ b < r.2)) ≤ 1
  /-- Every dirty block is written. -/
  dirty_once : ∀ b < g.lineBlocks, md.dirty line b = true →
    ranges.countP (fun r => decide (r.1 ≤ b ∧ b < r.2)) = 1

/-- The scan after some blocks of a line whose dirty blocks are valid. -/
structure Scanned (md : LineTable) (line i : Nat) (st : Scan) : Prop where
  /-- The open run is dirty. -/
  run : st.counting = true → st.start < i ∧ ∀ b, st.start ≤ b → b < i → md.dirty line b = true
  /-- The closed runs are dirty and lie before the open one. -/
  ranges : ∀ r ∈ st.ranges, r.1 < r.2 ∧ r.2 ≤ (if st.counting = true then st.start else i) ∧
    ∀ b, r.1 ≤ b → b < r.2 → md.dirty line b = true
  /-- The closed runs hold the dirty blocks before the open one, once. -/
  count : ∀ b, st.ranges.countP (fun r => decide (r.1 ≤ b ∧ b < r.2)) =
    if b < (if st.counting = true then st.start else i) ∧ md.dirty line b = true then 1 else 0

variable {g}

theorem countP_snoc (ranges : List (Nat × Nat)) (first stop b : Nat) :
    (ranges ++ [(first, stop)]).countP (fun r => decide (r.1 ≤ b ∧ b < r.2)) =
      ranges.countP (fun r => decide (r.1 ≤ b ∧ b < r.2)) + if first ≤ b ∧ b < stop then 1 else 0 := by
  simp [List.countP_append, List.countP_singleton]

theorem Scanned.close {md : LineTable} {line i : Nat} {st : Scan} (h : Scanned md line i st)
    (hc : st.counting = true) :
    (∀ r ∈ st.ranges ++ [(st.start, i)], r.1 < r.2 ∧ r.2 ≤ i ∧ ∀ b, r.1 ≤ b → b < r.2 → md.dirty line b = true) ∧
      ∀ b, (st.ranges ++ [(st.start, i)]).countP (fun r => decide (r.1 ≤ b ∧ b < r.2)) =
        if b < i ∧ md.dirty line b = true then 1 else 0 := by
  obtain ⟨hlt, hrun⟩ := h.run hc
  constructor
  · intro r hr
    rcases List.mem_append.mp hr with hr | hr
    · obtain ⟨hne, hle, hdirty⟩ := h.ranges r hr
      rw [if_pos hc] at hle
      exact ⟨hne, by omega, hdirty⟩
    · rw [List.mem_singleton.mp hr]
      exact ⟨hlt, Nat.le_refl _, hrun⟩
  · intro b
    rw [countP_snoc, h.count b, if_pos hc]
    rcases Nat.lt_or_ge b st.start with hb | hb
    · have hout : ¬st.start ≤ b := by omega
      have hbi : b < i := by omega
      simp [hb, hout, hbi]
    · have hout : ¬(b < st.start ∧ md.dirty line b = true) := fun hx => by omega
      rw [if_neg hout]
      rcases Nat.lt_or_ge b i with hbi | hbi
      · simp [hb, hbi, hrun b hb hbi]
      · have hno : ¬(st.start ≤ b ∧ b < i) := by omega
        have hno' : ¬(b < i ∧ md.dirty line b = true) := fun hx => by omega
        simp [hno, hno']

/-- The scan of one block. -/
theorem scanBlock_spec {md : LineTable} {line i : Nat} {st : Scan} (h : Scanned md line i st)
    (hvalid : ∀ b, md.dirty line b = true → md.valid line b = true) :
    ∃ st', scanBlock md line st i = some st' ∧ Scanned md line (i + 1) st' := by
  have hblock : blockIsDirty md line i = some (md.dirty line i) := by
    unfold blockIsDirty
    cases hd : md.dirty line i with
    | false => simp
    | true => simp [hvalid i hd]
  unfold scanBlock
  simp only [hblock, Option.bind_eq_bind, Option.bind_some]
  cases hd : md.dirty line i with
  | false =>
    have hstep : ∀ b, (b < i + 1 ∧ md.dirty line b = true) ↔ (b < i ∧ md.dirty line b = true) := by
      intro b
      constructor
      · rintro ⟨hb, hdb⟩
        rcases Nat.lt_succ_iff_lt_or_eq.mp hb with hb | heq
        · exact ⟨hb, hdb⟩
        · rw [heq, hd] at hdb
          cases hdb
      · exact fun hx => ⟨by omega, hx.2⟩
    refine ⟨_, rfl, ?_⟩
    cases hc : st.counting with
    | true =>
      obtain ⟨hranges, hcount⟩ := h.close hc
      rw [if_pos rfl]
      refine ⟨nofun, fun r hr => ?_, fun b => ?_⟩
      · obtain ⟨hne, hle, hdirty⟩ := hranges r hr
        exact ⟨hne, by simp; omega, hdirty⟩
      · rw [hcount b, if_neg Bool.false_ne_true]
        exact (if_congr (hstep b) rfl rfl).symm
    | false =>
      rw [if_neg (by simp)]
      refine ⟨fun hx => absurd (hc.symm.trans hx) (by decide), fun r hr => ?_, fun b => ?_⟩
      · obtain ⟨hne, hle, hdirty⟩ := h.ranges r hr
        rw [hc] at hle ⊢
        exact ⟨hne, by simp at hle ⊢; omega, hdirty⟩
      · rw [h.count b, hc, if_neg Bool.false_ne_true, if_neg Bool.false_ne_true]
        exact (if_congr (hstep b) rfl rfl).symm
  | true =>
    refine ⟨_, rfl, ?_⟩
    cases hc : st.counting with
    | true =>
      obtain ⟨hlt, hrun⟩ := h.run hc
      rw [if_neg (by simp)]
      refine ⟨fun _ => ⟨by omega, fun b hb hbi => ?_⟩, fun r hr => ?_, fun b => ?_⟩
      · rcases Nat.lt_succ_iff_lt_or_eq.mp hbi with hbi | heq
        · exact hrun b hb hbi
        · rw [heq]
          exact hd
      · have hold := h.ranges r hr
        rw [if_pos hc] at hold ⊢
        exact hold
      · have hold := h.count b
        rw [if_pos hc] at hold ⊢
        exact hold
    | false =>
      refine ⟨fun _ => ⟨Nat.lt_succ_self i, fun b hb hbi => ?_⟩, fun r hr => ?_, fun b => ?_⟩
      · have heq : b = i := Nat.le_antisymm (Nat.le_of_lt_succ hbi) hb
        rw [heq]
        exact hd
      · have hold := h.ranges r hr
        rw [hc] at hold
        simpa using hold
      · have hold := h.count b
        rw [hc] at hold
        simpa using hold

/-- The ranges hold the dirty blocks of a line. -/
theorem submitRanges_covers {md : LineTable} {line : Nat}
    (hvalid : ∀ b, md.dirty line b = true → md.valid line b = true) :
    ∃ ranges, submitRanges g md line = some ranges ∧ Covers g md line ranges := by
  unfold submitRanges
  have hpos := g.lineBlocks_pos
  by_cases hwhole : testAll (md.valid line) 0 g.endBlock = true ∧ metadataTestDirty g md line = true
  · rw [if_pos hwhole]
    have hall := testAll_eq_true.mp hwhole.1
    refine ⟨_, rfl, fun r hr => ?_, fun r hr b _ hb => ?_, fun b => ?_, fun b hb _ => ?_⟩
    · rw [List.mem_singleton.mp hr]
      exact ⟨hpos, Nat.le_refl _⟩
    · rw [List.mem_singleton.mp hr] at hb
      refine hall b ?_ (Nat.zero_le b)
      unfold Geometry.endBlock
      change b < g.lineBlocks at hb
      omega
    · rw [List.countP_singleton]
      split <;> omega
    · rw [List.countP_singleton, if_pos (by simpa using hb)]
  · rw [if_neg hwhole]
    have hstart : Scanned md line 0 ⟨false, 0, []⟩ := ⟨nofun, nofun, fun b => by simp⟩
    obtain ⟨st, hst, hscan⟩ := foldlM_range_some (n := g.lineBlocks) (Scanned md line) hstart
      fun i t _ ht => scanBlock_spec ht hvalid
    rw [hst]
    -- all dirty runs, the last one closed
    have hclosed : ∃ ranges, (if st.counting = true then st.ranges ++ [(st.start, g.lineBlocks)] else st.ranges) =
        ranges ∧ (∀ r ∈ ranges, r.1 < r.2 ∧ r.2 ≤ g.lineBlocks ∧
          ∀ b, r.1 ≤ b → b < r.2 → md.dirty line b = true) ∧
        ∀ b, ranges.countP (fun r => decide (r.1 ≤ b ∧ b < r.2)) =
          if b < g.lineBlocks ∧ md.dirty line b = true then 1 else 0 := by
      cases hc : st.counting with
      | true => exact ⟨_, if_pos rfl, hscan.close hc⟩
      | false =>
        have hranges := hscan.ranges
        have hcount := hscan.count
        rw [hc] at hranges hcount
        exact ⟨_, if_neg (by simp), by simpa using hranges, by simpa using hcount⟩
    obtain ⟨ranges, heq, hranges, hcount⟩ := hclosed
    refine ⟨ranges, by rw [Option.bind_eq_bind, Option.bind_some, heq], fun r hr => ?_, fun r hr b hb hlt => ?_,
      fun b => ?_, fun b hb hd => ?_⟩
    · exact ⟨(hranges r hr).1, (hranges r hr).2.1⟩
    · exact hvalid b ((hranges r hr).2.2 b hb hlt)
    · rw [hcount b]
      split <;> omega
    · rw [hcount b, if_pos ⟨hb, hd⟩]

/-- Where a request is. -/
inductive Stage
  /-- Not in use. -/
  | idle
  /-- Its map is filled in. -/
  | populated
  /-- Its lines are locked. -/
  | locked
  /-- The cache reads are submitted. -/
  | cacheRead
  /-- The cache reads have ended. -/
  | fireCore
  /-- The core writes are submitted. -/
  | coreWrite
  /-- The core flush is submitted. -/
  | coreFlush
  /-- The core flush has ended. -/
  | updateMetadata
  /-- The lines are no longer needed. -/
  | done
  deriving DecidableEq

/-- Position of a stage. -/
def Stage.rank : Stage → Nat
  | .idle => 0
  | .populated => 1
  | .locked => 2
  | .cacheRead => 3
  | .fireCore => 4
  | .coreWrite => 5
  | .coreFlush => 6
  | .updateMetadata => 7
  | .done => 8

/-- A cleaning request. -/
structure Req where
  /-- Stage. -/
  stage : Stage
  /-- Map. -/
  map : List MapInfo
  /-- Reads of the cache device. -/
  reads : List CacheRead
  /-- Entries in the order in which they were written, with their writes. -/
  log : List (MapInfo × List CoreWrite)
  /-- Errors of the cache reads. -/
  cacheErrors : List Int
  /-- Errors of the core writes. -/
  coreErrors : List Int
  /-- Error of the core flush. -/
  flushError : Int

/-- A request that is not in use. -/
def Req.unused : Req := ⟨.idle, [], [], [], [], [], 0⟩

/-- The cache and the requests. -/
structure State where
  /-- Metadata of the cache lines. -/
  md : LineTable
  /-- Requests. -/
  reqs : Nat → Req

/-- A line is locked by a request. -/
def Held (s : State) (line : Nat) : Prop :=
  ∃ r, 2 ≤ (s.reqs r).stage.rank ∧ (s.reqs r).stage.rank < 8 ∧ ∃ e ∈ (s.reqs r).map, e.collIdx = line

/-- Dirty blocks are valid. -/
def DirtyValid (md : LineTable) : Prop := ∀ line b, md.dirty line b = true → md.valid line b = true

/-- Steps of the requests, and of the rest of the cache. -/
inductive Act
  /-- `ocf_cleaner_populate_req`. -/
  | populate (r : Nat) (attribs : Attribs) (mapMax curr : Nat)
  /-- The lines are locked. -/
  | lock (r : Nat)
  /-- `_ocf_cleaner_check_map` and `_ocf_cleaner_fire_cache`. -/
  | checkMap (r : Nat)
  /-- `_ocf_cleaner_cache_io_end`, with the error of every read. -/
  | cacheIoEnd (r : Nat) (errors : List Int)
  /-- `_ocf_cleaner_fire_core`. -/
  | fireCore (r : Nat)
  /-- `_ocf_cleaner_core_io_end`, with the error of every write. -/
  | coreIoEnd (r : Nat) (errors : List Int)
  /-- `_ocf_cleaner_flush_core_end`. -/
  | flushCoreEnd (r : Nat) (error : Int)
  /-- `_ocf_cleaner_update_metadata`. -/
  | updateMetadata (r : Nat)
  /-- Other parts of the cache change the metadata. -/
  | other (md : LineTable)

/-- Error of a stage after `ocf_forward_end` of all its I/Os: the first one. -/
def forwardError (errors : List Int) : Int := errors.foldl (fun acc e => if acc ≠ 0 then acc else e) 0

/-- A failed stage makes the lines invalid for the request. -/
def invalidate (error : Int) (map : List MapInfo) : List MapInfo :=
  if error ≠ 0 then map.map fun e => if e.flush = true then { e with invalid := true } else e else map

variable (g : Geometry)

/-- One entry of `_ocf_cleaner_check_map`. -/
def checkEntry (md : LineTable) (e : MapInfo) : MapInfo :=
  if md.coreInfo e.collIdx = (e.coreId, e.coreLine) ∧ metadataTestDirty g md e.collIdx = true then
    { e with flush := true } else e

/-- `_ocf_cleaner_check_map`, and the reads if there is something to submit. -/
def checkMap (md : LineTable) (req : Req) : Req :=
  let map := req.map.map (checkEntry g md)
  if map.any MapInfo.flush = false then { req with map, stage := .done }
  else { req with map, reads := (map.filter MapInfo.flush).map (cacheRead g), stage := .cacheRead }

/-- An entry that is written and cleaned. -/
def writable (e : MapInfo) : Bool := !e.invalid && e.flush

/-- The loop of `_ocf_cleaner_fire_core`. -/
def fireCore (md : LineTable) (map : List MapInfo) : Option (List (MapInfo × List CoreWrite)) :=
  (map.filter writable).mapM fun e => (coreSubmitIo g md e).map fun ws => (e, ws)

/-- One entry of `_ocf_cleaner_update_metadata`. -/
def updateEntry (md : LineTable) (e : MapInfo) : LineTable :=
  if writable e = true ∧ metadataTestDirty g md e.collIdx = true then
    setDirtyBits md e.collIdx (clearRange (md.dirty e.collIdx) 0 g.endBlock)
  else md

/-- Replace a request. -/
def State.setReq (s : State) (r : Nat) (req : Req) : State := { s with reqs := Function.update s.reqs r req }

/-- What the read locks and the other parts of the cache keep: a locked line
keeps its core line and gets no new dirty blocks. -/
def guard (s : State) : Act → Prop
  | .cacheIoEnd r errors => errors.length = (s.reqs r).reads.length
  | .coreIoEnd r errors => errors.length = ((s.reqs r).log.map fun entry => entry.2.length).sum
  | .other md => DirtyValid md ∧ ∀ line, Held s line → md.coreInfo line = s.md.coreInfo line ∧
    ∀ b, md.dirty line b = true → s.md.dirty line b = true
  | _ => True

/-- Effect of a step; `none` if the request is elsewhere, or at a bug. -/
def step (s : State) : Act → Option State
  | .populate r attribs mapMax curr =>
    if (s.reqs r).stage = .idle then
      some (s.setReq r { Req.unused with
        stage := .populated
        map := (ocfCleanerPopulateReq s.md.coreInfo attribs mapMax curr).1 })
    else none
  | .lock r =>
    if (s.reqs r).stage = .populated then some (s.setReq r { s.reqs r with stage := .locked }) else none
  | .checkMap r =>
    if (s.reqs r).stage = .locked then some (s.setReq r (checkMap g s.md (s.reqs r))) else none
  | .cacheIoEnd r errors =>
    if (s.reqs r).stage = .cacheRead then
      some (s.setReq r { s.reqs r with
        stage := .fireCore, cacheErrors := errors, map := invalidate (forwardError errors) (s.reqs r).map })
    else none
  | .fireCore r =>
    if (s.reqs r).stage = .fireCore then
      (fireCore g s.md (s.reqs r).map).map fun log => s.setReq r { s.reqs r with stage := .coreWrite, log }
    else none
  | .coreIoEnd r errors =>
    if (s.reqs r).stage = .coreWrite then
      some (s.setReq r { s.reqs r with
        stage := .coreFlush, coreErrors := errors, map := invalidate (forwardError errors) (s.reqs r).map })
    else none
  | .flushCoreEnd r error =>
    if (s.reqs r).stage = .coreFlush then
      some (s.setReq r { s.reqs r with
        stage := .updateMetadata, flushError := error, map := invalidate error (s.reqs r).map })
    else none
  | .updateMetadata r =>
    if (s.reqs r).stage = .updateMetadata then
      some { (s.setReq r { s.reqs r with stage := .done }) with md := (s.reqs r).map.foldl (updateEntry g) s.md }
    else none
  | .other md => some { s with md }

/-- Cleaning as a labelled system. -/
def system : System State Act := ⟨guard, step g⟩

/-- Before any request. -/
def Start (s : State) : Prop := DirtyValid s.md ∧ ∀ r, s.reqs r = .unused

/-- A block of a line is written to its place on the core, from the slot that
the line was read into. -/
def Wrote (e : MapInfo) (b : Nat) (w : CoreWrite) : Prop :=
  ∃ k < w.blocks, w.addr + k = g.lineBlocks * e.coreLine + b ∧
    w.offset + k = (cacheRead g e).offset + b

/-- The writes of a line: each has the place and the slot of blocks of the
line, they are on valid blocks, no two write one block, and the dirty blocks
are written. -/
structure WritesLine (md : LineTable) (e : MapInfo) (ws : List CoreWrite) : Prop where
  /-- Every write is a range of valid blocks of the line, at its place. -/
  placed : ∀ w ∈ ws, ∃ first stop, first < stop ∧ stop ≤ g.lineBlocks ∧ w = coreIoForDirtyRange g e first stop ∧
    ∀ b, first ≤ b → b < stop → md.valid e.collIdx b = true
  /-- No block is written twice. -/
  at_most_once : ∀ b, ws.countP (fun w => decide (w.addr ≤ g.lineBlocks * e.coreLine + b ∧
    g.lineBlocks * e.coreLine + b < w.addr + w.blocks)) ≤ 1
  /-- Every dirty block is written once, from the slot of the line. -/
  dirty_once : ∀ b < g.lineBlocks, md.dirty e.collIdx b = true →
    ws.countP (fun w => decide (w.addr ≤ g.lineBlocks * e.coreLine + b ∧
      g.lineBlocks * e.coreLine + b < w.addr + w.blocks)) = 1 ∧ ∃ w ∈ ws, Wrote g e b w

end OcfCache.CleanerData
