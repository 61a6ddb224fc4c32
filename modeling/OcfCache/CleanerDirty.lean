import OcfCache.CleanerWrites

/-!
# Cleaning never loses dirty data

The invariant of the cleaning requests: what the flags of the map entries of a
request say at each of its stages about the metadata, the reads, the writes
and the errors so far. It holds along every run, and gives what the core
writes of a request are and when the dirty bits of a line are cleared.
-/

namespace OcfCache.CleanerData

open Function CacheLine Cleaner Loops Metadata Runs
open Option (ite_none_right_eq_some)

variable {g : Geometry}

variable {md : LineTable} {req : Req} {s : State}

theorem coreSubmitIo_spec (e : MapInfo) (hvalid : DirtyValid md) :
    ∃ ws, coreSubmitIo g md e = some ws ∧ WritesLine g md e ws := by
  obtain ⟨ranges, hranges, hcover⟩ := submitRanges_covers (g := g) (hvalid e.collIdx)
  -- a write holds a block of the line if its range does
  have hcount : ∀ b, (ranges.map fun r => coreIoForDirtyRange g e r.1 r.2).countP
      (fun w => decide (w.addr ≤ g.lineBlocks * e.coreLine + b ∧
        g.lineBlocks * e.coreLine + b < w.addr + w.blocks)) =
      ranges.countP (fun r => decide (r.1 ≤ b ∧ b < r.2)) := by
    intro b
    rw [List.countP_map]
    refine List.countP_congr fun r hr => ?_
    have hbound := (hcover.bounds r hr).1
    have hiff : (g.lineBlocks * e.coreLine + r.1 ≤ g.lineBlocks * e.coreLine + b ∧
        g.lineBlocks * e.coreLine + b < g.lineBlocks * e.coreLine + r.1 + (r.2 - r.1)) ↔ r.1 ≤ b ∧ b < r.2 := by
      omega
    simp only [comp, coreIoForDirtyRange, decide_eq_true_eq, hiff]
  refine ⟨_, by rw [coreSubmitIo, hranges]; rfl, fun w hw => ?_, fun b => ?_, fun b hb hd => ⟨?_, ?_⟩⟩
  · obtain ⟨r, hr, rfl⟩ := List.mem_map.mp hw
    exact ⟨r.1, r.2, (hcover.bounds r hr).1, (hcover.bounds r hr).2, rfl, hcover.valid r hr⟩
  · rw [hcount b]
    exact hcover.at_most_once b
  · rw [hcount b]
    exact hcover.dirty_once b hb hd
  · have hone := hcover.dirty_once b hb hd
    obtain ⟨r, hr, hin⟩ := List.countP_pos_iff.mp (by omega : 0 < ranges.countP (fun r => decide (r.1 ≤ b ∧ b < r.2)))
    have hin' := of_decide_eq_true hin
    refine ⟨coreIoForDirtyRange g e r.1 r.2, List.mem_map.mpr ⟨r, hr, rfl⟩, b - r.1, ?_, ?_, ?_⟩
    · change b - r.1 < r.2 - r.1
      omega
    · change g.lineBlocks * e.coreLine + r.1 + (b - r.1) = g.lineBlocks * e.coreLine + b
      omega
    · change g.lineBlocks * e.hash + r.1 + (b - r.1) = g.lineBlocks * e.hash + b
      omega

theorem fireCore_spec (map : List MapInfo) (hvalid : DirtyValid md) :
    ∃ log, fireCore g md map = some log ∧ log.map Prod.fst = map.filter writable ∧
      ∀ entry ∈ log, WritesLine g md entry.1 entry.2 := by
  unfold fireCore
  induction map.filter writable with
  | nil => exact ⟨[], rfl, rfl, nofun⟩
  | cons e rest ih =>
    obtain ⟨ws, hws, hline⟩ := coreSubmitIo_spec (g := g) e hvalid
    obtain ⟨log, hlog, hfst, hall⟩ := ih
    refine ⟨(e, ws) :: log, ?_, ?_, ?_⟩
    · rw [List.mapM_cons, hws, Option.map_some, hlog]
      rfl
    · rw [List.map_cons, hfst]
    · intro entry hentry
      rcases List.mem_cons.mp hentry with rfl | hin
      · exact hline
      · exact hall entry hin

theorem foldl_error_eq_zero (errors : List Int) (acc : Int) :
    errors.foldl (fun acc e => if acc ≠ 0 then acc else e) acc = 0 ↔ acc = 0 ∧ ∀ e ∈ errors, e = 0 := by
  induction errors generalizing acc with
  | nil => simp
  | cons e errors ih =>
    rw [List.foldl_cons, ih, List.forall_mem_cons]
    by_cases hacc : acc = 0
    · simp [hacc]
    · simp [hacc]

theorem forwardError_eq_zero {errors : List Int} : forwardError errors = 0 ↔ ∀ e ∈ errors, e = 0 := by
  unfold forwardError
  rw [foldl_error_eq_zero]
  simp

theorem mem_invalidate {error : Int} {map : List MapInfo} {e : MapInfo} (he : e ∈ invalidate error map) :
    ∃ e' ∈ map, e.coreId = e'.coreId ∧ e.coreLine = e'.coreLine ∧ e.collIdx = e'.collIdx ∧ e.flush = e'.flush := by
  unfold invalidate at he
  by_cases herror : error ≠ 0
  · rw [if_pos herror] at he
    obtain ⟨e', he', rfl⟩ := List.mem_map.mp he
    refine ⟨e', he', ?_⟩
    split <;> exact ⟨rfl, rfl, rfl, rfl⟩
  · rw [if_neg herror] at he
    exact ⟨e, he, rfl, rfl, rfl, rfl⟩

theorem writable_of_invalidate {error : Int} {map : List MapInfo} {e : MapInfo} (he : e ∈ invalidate error map)
    (hw : writable e = true) : error = 0 ∧ e ∈ map := by
  unfold invalidate at he
  by_cases herror : error ≠ 0
  · rw [if_pos herror] at he
    obtain ⟨e', he', rfl⟩ := List.mem_map.mp he
    exfalso
    by_cases hflush : e'.flush = true
    · rw [if_pos hflush] at hw
      simp [writable] at hw
    · rw [if_neg hflush] at hw
      simp [writable, hflush] at hw
  · rw [if_neg herror] at he
    exact ⟨not_not.mp herror, he⟩

theorem hash_invalidate (error : Int) (map : List MapInfo) :
    (invalidate error map).map MapInfo.hash = map.map MapInfo.hash := by
  unfold invalidate
  split
  · rw [List.map_map]
    refine List.map_congr_left fun e _ => ?_
    simp only [comp]
    split <;> rfl
  · rfl

theorem reads_invalidate (error : Int) (map : List MapInfo) :
    ((invalidate error map).filter MapInfo.flush).map (cacheRead g) = (map.filter MapInfo.flush).map (cacheRead g) := by
  unfold invalidate
  split
  · induction map with
    | nil => rfl
    | cons e map ih =>
      by_cases hflush : e.flush = true
      · simp [hflush, ih, cacheRead]
      · simp [hflush, ih]
  · rfl

theorem hash_checkEntry (md : LineTable) (map : List MapInfo) :
    (map.map (checkEntry g md)).map MapInfo.hash = map.map MapInfo.hash := by
  rw [List.map_map]
  refine List.map_congr_left fun e _ => ?_
  simp only [comp, checkEntry]
  split <;> rfl

theorem populateLoop_map (coreInfo : Nat → Nat × Nat) (attribs : Attribs) (mapMax n curr lastCoreId : Nat)
    (map : List MapInfo) (hslots : map.map MapInfo.hash = List.range map.length)
    (hfresh : ∀ e ∈ map, e.flush = false) :
    (populateLoop coreInfo attribs mapMax n curr lastCoreId map).1.map MapInfo.hash =
        List.range (populateLoop coreInfo attribs mapMax n curr lastCoreId map).1.length ∧
      ∀ e ∈ (populateLoop coreInfo attribs mapMax n curr lastCoreId map).1, e.flush = false := by
  induction n generalizing curr lastCoreId map with
  | zero => exact ⟨hslots, hfresh⟩
  | succ n ih =>
    unfold populateLoop
    by_cases hfull : mapMax ≤ map.length
    · rw [if_pos hfull]
      exact ⟨hslots, hfresh⟩
    · rw [if_neg hfull]
      cases attribs.getter curr with
      | none => exact ih (curr + 1) lastCoreId map hslots hfresh
      | some line =>
        dsimp only
        by_cases hcore : (coreInfo line).1 ≠ if lastCoreId = ocfCoreNum then (coreInfo line).1 else lastCoreId
        · rw [if_pos hcore]
          exact ⟨hslots, hfresh⟩
        · rw [if_neg hcore]
          refine ih (curr + 1) _ _ ?_ fun e he => ?_
          · simp [hslots, List.range_succ]
          · rcases List.mem_append.mp he with he | he
            · exact hfresh e he
            · rw [List.mem_singleton.mp he]

/-- The map entry of a line is written and its dirty blocks are in the writes. -/
def Written (g : Geometry) (md : LineTable) (req : Req) (e : MapInfo) : Prop :=
  ∃ ws, (e, ws) ∈ req.log ∧ ∀ b < g.lineBlocks, md.dirty e.collIdx b = true → ∃ w ∈ ws, Wrote g e b w

/-- What holds of a request at its stage. -/
structure ReqInv (g : Geometry) (md : LineTable) (req : Req) : Prop where
  /-- The entries have the slots of the buffer in order. -/
  slots : req.map.map MapInfo.hash = List.range req.map.length
  /-- Nothing is flagged before the check. -/
  fresh : req.stage.rank ≤ 2 → ∀ e ∈ req.map, e.flush = false
  /-- A flagged line still has its core line. -/
  mapped : 3 ≤ req.stage.rank → req.stage.rank < 8 → ∀ e ∈ req.map, e.flush = true →
    md.coreInfo e.collIdx = (e.coreId, e.coreLine)
  /-- The flagged lines are read. -/
  reads : 3 ≤ req.stage.rank → req.stage.rank < 8 → req.reads = (req.map.filter MapInfo.flush).map (cacheRead g)
  /-- A line that can be written was read. -/
  readOk : 4 ≤ req.stage.rank → req.stage.rank < 8 → ∀ e ∈ req.map, writable e = true →
    ∀ error ∈ req.cacheErrors, error = 0
  /-- A line that can be cleaned has its writes. -/
  written : 5 ≤ req.stage.rank → req.stage.rank < 8 → ∀ e ∈ req.map, writable e = true → Written g md req e
  /-- They succeeded. -/
  writeOk : 6 ≤ req.stage.rank → req.stage.rank < 8 → ∀ e ∈ req.map, writable e = true →
    ∀ error ∈ req.coreErrors, error = 0
  /-- So did the flush of the core. -/
  flushOk : 7 ≤ req.stage.rank → req.stage.rank < 8 → ∀ e ∈ req.map, writable e = true → req.flushError = 0

/-- What holds of the cache and its requests. -/
structure Inv (g : Geometry) (s : State) : Prop where
  /-- Dirty blocks are valid. -/
  valid : DirtyValid s.md
  /-- The requests are as their stages say. -/
  reqs : ∀ r, ReqInv g s.md (s.reqs r)

theorem ReqInv.mono {md' : LineTable} (h : ReqInv g md req)
    (hmd : 2 ≤ req.stage.rank → req.stage.rank < 8 → ∀ e ∈ req.map,
      md'.coreInfo e.collIdx = md.coreInfo e.collIdx ∧
        ∀ b, md'.dirty e.collIdx b = true → md.dirty e.collIdx b = true) : ReqInv g md' req := by
  refine ⟨h.slots, h.fresh, fun hlo hhi e he hf => ?_, h.reads, h.readOk, fun hlo hhi e he hw => ?_, h.writeOk, h.flushOk⟩
  · rw [(hmd (by omega) hhi e he).1]
    exact h.mapped hlo hhi e he hf
  · obtain ⟨ws, hlog, hall⟩ := h.written hlo hhi e he hw
    exact ⟨ws, hlog, fun b hb hd => hall b hb ((hmd (by omega) hhi e he).2 b hd)⟩

theorem Inv.setReq (h : Inv g s) {r : Nat} (hreq : ReqInv g s.md req) : Inv g (s.setReq r req) := by
  refine ⟨h.valid, fun r' => ?_⟩
  change ReqInv g s.md (update s.reqs r req r')
  by_cases heq : r' = r
  · rw [heq, update_self]
    exact hreq
  · rw [update_of_ne heq]
    exact h.reqs r'

theorem ReqInv.early (hslots : req.map.map MapInfo.hash = List.range req.map.length)
    (hfresh : ∀ e ∈ req.map, e.flush = false) (hst : req.stage.rank ≤ 2) : ReqInv g md req := by
  refine ⟨hslots, fun _ => hfresh, ?_, ?_, ?_, ?_, ?_, ?_⟩
  all_goals
    omega

theorem ReqInv.done (hslots : req.map.map MapInfo.hash = List.range req.map.length)
    (hst : req.stage = .done) : ReqInv g md req := by
  have hlast : req.stage.rank = 8 := by
    rw [hst]
    rfl
  refine ⟨hslots, fun hlo => ?_, ?_, ?_, ?_, ?_, ?_, ?_⟩
  · omega
  all_goals
    omega

theorem reqInv_populate (md : LineTable) (attribs : Attribs) (mapMax curr : Nat) :
    ReqInv g md { Req.unused with
      stage := .populated, map := (ocfCleanerPopulateReq md.coreInfo attribs mapMax curr).1 } := by
  obtain ⟨hslots, hfresh⟩ := populateLoop_map md.coreInfo attribs mapMax (attribs.count - curr) curr ocfCoreNum []
    rfl nofun
  exact ReqInv.early hslots hfresh (by simp [Stage.rank])

section

variable (h : ReqInv g md req)
include h

theorem ReqInv.lock (hst : req.stage = .populated) : ReqInv g md { req with stage := .locked } := by
  have hfresh := h.fresh (by rw [hst]; decide)
  exact ReqInv.early h.slots hfresh (by simp [Stage.rank])

theorem ReqInv.checkMap (hst : req.stage = .locked) : ReqInv g md (checkMap g md req) := by
  have hfresh := h.fresh (by rw [hst]; decide)
  have hslots : (req.map.map (checkEntry g md)).map MapInfo.hash =
      List.range (req.map.map (checkEntry g md)).length := by
    rw [hash_checkEntry, List.length_map]
    exact h.slots
  unfold CleanerData.checkMap
  by_cases hnothing : (req.map.map (checkEntry g md)).any MapInfo.flush = false
  · rw [if_pos hnothing]
    exact ReqInv.done hslots rfl
  · rw [if_neg hnothing]
    refine ⟨hslots, fun h => absurd h (by simp [Stage.rank]), fun _ _ e he hf => ?_, fun _ _ => rfl,
      fun h => absurd h (by simp [Stage.rank]), fun h => absurd h (by simp [Stage.rank]), fun h => absurd h (by simp [Stage.rank]),
      fun h => absurd h (by simp [Stage.rank])⟩
    obtain ⟨e', he', rfl⟩ := List.mem_map.mp he
    unfold checkEntry at hf ⊢
    by_cases hflag : md.coreInfo e'.collIdx = (e'.coreId, e'.coreLine) ∧ metadataTestDirty g md e'.collIdx = true
    · rw [if_pos hflag]
      exact hflag.1
    · rw [if_neg hflag, hfresh e' he'] at hf
      cases hf

theorem ReqInv.mapped_invalidate (hlo : 3 ≤ req.stage.rank)
    (hhi : req.stage.rank < 8) (error : Int) {e : MapInfo} (he : e ∈ invalidate error req.map)
    (hf : e.flush = true) : md.coreInfo e.collIdx = (e.coreId, e.coreLine) := by
  obtain ⟨e', he', hid, hline, hidx, hflush⟩ := mem_invalidate he
  rw [hid, hline, hidx]
  exact h.mapped hlo hhi e' he' (by rw [← hflush]; exact hf)

theorem ReqInv.slots_invalidate (error : Int) :
    (invalidate error req.map).map MapInfo.hash = List.range (invalidate error req.map).length := by
  have hlen : (invalidate error req.map).length = req.map.length := by
    have hmap := congrArg List.length (hash_invalidate error req.map)
    rwa [List.length_map, List.length_map] at hmap
  rw [hash_invalidate, hlen]
  exact h.slots

theorem ReqInv.cacheIoEnd (hst : req.stage = .cacheRead)
    (errors : List Int) : ReqInv g md { req with
      stage := .fireCore, cacheErrors := errors, map := invalidate (forwardError errors) req.map } := by
  have hlo : 3 ≤ req.stage.rank := by rw [hst]; decide
  have hhi : req.stage.rank < 8 := by rw [hst]; decide
  refine ⟨h.slots_invalidate _, fun h => absurd h (by simp [Stage.rank]), fun _ _ e he hf => ?_, fun _ _ => ?_,
    fun _ _ e he hw => ?_, fun h => absurd h (by simp [Stage.rank]), fun h => absurd h (by simp [Stage.rank]), fun h => absurd h (by simp [Stage.rank])⟩
  · exact h.mapped_invalidate hlo hhi _ he hf
  · exact (h.reads hlo hhi).trans (reads_invalidate _ _).symm
  · exact forwardError_eq_zero.mp (writable_of_invalidate he hw).1

theorem ReqInv.fireCore (hst : req.stage = .fireCore)
    {log : List (MapInfo × List CoreWrite)} (hlog : log.map Prod.fst = req.map.filter writable)
    (hline : ∀ entry ∈ log, WritesLine g md entry.1 entry.2) :
    ReqInv g md { req with stage := .coreWrite, log := log } := by
  have hlo : 4 ≤ req.stage.rank := by rw [hst]; decide
  have hhi : req.stage.rank < 8 := by rw [hst]; decide
  refine ⟨h.slots, fun h => absurd h (by simp [Stage.rank]), fun _ _ => h.mapped (by omega) hhi,
    fun _ _ => h.reads (by omega) hhi, fun _ _ => h.readOk hlo hhi, fun _ _ e he hw => ?_,
    fun h => absurd h (by simp [Stage.rank]), fun h => absurd h (by simp [Stage.rank])⟩
  have hin : e ∈ log.map Prod.fst := by
    rw [hlog]
    exact List.mem_filter.mpr ⟨he, hw⟩
  obtain ⟨⟨e', ws⟩, hentry, rfl⟩ := List.mem_map.mp hin
  exact ⟨ws, hentry, fun b hb hd => ((hline _ hentry).dirty_once b hb hd).2⟩

theorem ReqInv.coreIoEnd (hst : req.stage = .coreWrite) (errors : List Int) : ReqInv g md { req with
      stage := .coreFlush, coreErrors := errors, map := invalidate (forwardError errors) req.map } := by
  have hlo : 5 ≤ req.stage.rank := by rw [hst]; decide
  have hhi : req.stage.rank < 8 := by rw [hst]; decide
  refine ⟨h.slots_invalidate _, fun h => absurd h (by simp [Stage.rank]), fun _ _ e he hf => ?_, fun _ _ => ?_,
    fun _ _ e he hw => ?_, fun _ _ e he hw => ?_, fun _ _ e he hw => ?_, fun h => absurd h (by simp [Stage.rank])⟩
  · exact h.mapped_invalidate (by omega) hhi _ he hf
  · exact (h.reads (by omega) hhi).trans (reads_invalidate _ _).symm
  · exact h.readOk (by omega) hhi e (writable_of_invalidate he hw).2 hw
  · exact h.written hlo hhi e (writable_of_invalidate he hw).2 hw
  · exact forwardError_eq_zero.mp (writable_of_invalidate he hw).1

theorem ReqInv.flushCoreEnd (hst : req.stage = .coreFlush) (error : Int) : ReqInv g md { req with
      stage := .updateMetadata, flushError := error, map := invalidate error req.map } := by
  have hlo : 6 ≤ req.stage.rank := by rw [hst]; decide
  have hhi : req.stage.rank < 8 := by rw [hst]; decide
  refine ⟨h.slots_invalidate _, fun h => absurd h (by simp [Stage.rank]), fun _ _ e he hf => ?_, fun _ _ => ?_,
    fun _ _ e he hw => ?_, fun _ _ e he hw => ?_, fun _ _ e he hw => ?_, fun _ _ e he hw => ?_⟩
  · exact h.mapped_invalidate (by omega) hhi _ he hf
  · exact (h.reads (by omega) hhi).trans (reads_invalidate _ _).symm
  · exact h.readOk (by omega) hhi e (writable_of_invalidate he hw).2 hw
  · exact h.written (by omega) hhi e (writable_of_invalidate he hw).2 hw
  · exact h.writeOk hlo hhi e (writable_of_invalidate he hw).2 hw
  · exact (writable_of_invalidate he hw).1

end

/-- What the update of the metadata does with the entries of a map. -/
structure Cleaned (md : LineTable) (map : List MapInfo) (md' : LineTable) : Prop where
  /-- Lines stay mapped. -/
  coreInfo : md'.coreInfo = md.coreInfo
  /-- Blocks stay valid. -/
  valid : md'.valid = md.valid
  /-- No block gets dirty. -/
  dirty : ∀ line b, md'.dirty line b = true → md.dirty line b = true
  /-- A block that is cleaned is in the line of an entry that is written. -/
  entry : ∀ line b, md.dirty line b = true → md'.dirty line b = false →
    b < g.lineBlocks ∧ ∃ e ∈ map, writable e = true ∧ e.collIdx = line

/-- Entries are cleaned one by one. -/
theorem foldl_updateEntry (md : LineTable) (map : List MapInfo) :
    Cleaned (g := g) md map (map.foldl (updateEntry g) md) := by
  induction map generalizing md with
  | nil => exact ⟨rfl, rfl, fun _ _ h => h, fun line b hd hc => absurd (hd.symm.trans hc) (by decide)⟩
  | cons e map ih =>
    rw [List.foldl_cons]
    have hrest := ih (updateEntry g md e)
    by_cases hclean : writable e = true ∧ metadataTestDirty g md e.collIdx = true
    · have hupd : updateEntry g md e =
          setDirtyBits md e.collIdx (clearRange (md.dirty e.collIdx) 0 g.endBlock) := if_pos hclean
      have hsub : ∀ line b, (updateEntry g md e).dirty line b = true → md.dirty line b = true := by
        intro line b hd
        rw [hupd] at hd
        change update md.dirty e.collIdx _ line b = true at hd
        by_cases hline : line = e.collIdx
        · rw [hline, update_self] at hd
          rw [hline]
          exact (Bool.and_eq_true_iff.mp hd).1
        · rwa [update_of_ne hline] at hd
      refine ⟨?_, ?_, fun line b hd => hsub line b (hrest.dirty line b hd), fun line b hd hc => ?_⟩
      · rw [hrest.coreInfo, hupd]
        rfl
      · rw [hrest.valid, hupd]
        rfl
      · cases hmid : (updateEntry g md e).dirty line b with
        | true =>
          obtain ⟨hb, e', he', hw, hidx⟩ := hrest.entry line b hmid hc
          exact ⟨hb, e', List.mem_cons_of_mem _ he', hw, hidx⟩
        | false =>
          rw [hupd] at hmid
          change update md.dirty e.collIdx _ line b = false at hmid
          by_cases hline : line = e.collIdx
          · rw [hline, update_self] at hmid
            rw [hline] at hd
            have hpos := g.lineBlocks_pos
            have hin : b ≤ g.endBlock := by simpa [clearRange, hd] using hmid
            unfold Geometry.endBlock at hin
            exact ⟨by omega, e, by simp, hclean.1, hline.symm⟩
          · rw [update_of_ne hline, hd] at hmid
            cases hmid
    · have hupd : updateEntry g md e = md := if_neg hclean
      rw [hupd] at hrest ⊢
      refine ⟨hrest.coreInfo, hrest.valid, hrest.dirty, fun line b hd hc => ?_⟩
      obtain ⟨hb, e', he', hw, hidx⟩ := hrest.entry line b hd hc
      exact ⟨hb, e', List.mem_cons_of_mem _ he', hw, hidx⟩

/-- A step keeps the data that is on its way to a core. -/
theorem step_inv {s' : State} {act : Act} (h : Inv g s) (hg : guard s act) (hs : step g s act = some s') :
    Inv g s' := by
  cases act with
  | populate r attribs mapMax curr =>
    obtain ⟨_, heq⟩ := ite_none_right_eq_some.mp hs
    cases heq
    exact h.setReq (reqInv_populate s.md attribs mapMax curr)
  | lock r =>
    obtain ⟨hst, heq⟩ := ite_none_right_eq_some.mp hs
    cases heq
    exact h.setReq ((h.reqs r).lock hst)
  | checkMap r =>
    obtain ⟨hst, heq⟩ := ite_none_right_eq_some.mp hs
    cases heq
    exact h.setReq ((h.reqs r).checkMap hst)
  | cacheIoEnd r errors =>
    obtain ⟨hst, heq⟩ := ite_none_right_eq_some.mp hs
    cases heq
    exact h.setReq ((h.reqs r).cacheIoEnd hst errors)
  | fireCore r =>
    obtain ⟨hst, heq⟩ := ite_none_right_eq_some.mp hs
    obtain ⟨log, hlog, hfst, hline⟩ := fireCore_spec (g := g) (s.reqs r).map h.valid
    rw [hlog] at heq
    cases heq
    exact h.setReq ((h.reqs r).fireCore hst hfst hline)
  | coreIoEnd r errors =>
    obtain ⟨hst, heq⟩ := ite_none_right_eq_some.mp hs
    cases heq
    exact h.setReq ((h.reqs r).coreIoEnd hst errors)
  | flushCoreEnd r error =>
    obtain ⟨hst, heq⟩ := ite_none_right_eq_some.mp hs
    cases heq
    exact h.setReq ((h.reqs r).flushCoreEnd hst error)
  | updateMetadata r =>
    obtain ⟨hst, heq⟩ := ite_none_right_eq_some.mp hs
    cases heq
    have hmd := foldl_updateEntry (g := g) s.md (s.reqs r).map
    have hdone : Inv g (s.setReq r { s.reqs r with stage := .done }) :=
      h.setReq (ReqInv.done (h.reqs r).slots rfl)
    refine ⟨fun line b hd => ?_, fun r' => (hdone.reqs r').mono fun _ _ e _ => ⟨?_, ?_⟩⟩
    · change ((s.reqs r).map.foldl (updateEntry g) s.md).valid line b = true
      rw [hmd.valid]
      exact h.valid line b (hmd.dirty line b hd)
    · exact congrFun hmd.coreInfo e.collIdx
    · exact hmd.dirty e.collIdx
  | other md =>
    cases hs
    exact ⟨hg.1, fun r => (h.reqs r).mono fun hlo hhi e he => hg.2 e.collIdx ⟨r, hlo, hhi, e, he, rfl⟩⟩

/-- The invariant holds in every run of the requests. -/
theorem inv_of_reachable {start : State} (h0 : Start start) (h : Reachable (system g) start s) : Inv g s := by
  refine RunIn.invariant h (fun _ => ⟨h0.1, fun r => ?_⟩) fun s act s' hinv _ hg hs _ => step_inv hinv hg hs
  rw [h0.2 r]
  exact ReqInv.early rfl nofun (by decide)

/-- What a request may rely on when it writes: the entries that can be written
are written, each from the slot that its line was read into. -/
structure Writes (g : Geometry) (s : State) (r : Nat) (log : List (MapInfo × List CoreWrite)) : Prop where
  /-- The entries, in order. -/
  entries : log.map Prod.fst = (s.reqs r).map.filter writable
  /-- No two lines share a slot. -/
  slots : ((s.reqs r).map.map MapInfo.hash).Nodup
  /-- An entry was read, and its writes hold its dirty blocks once. -/
  line : ∀ entry ∈ log, cacheRead g entry.1 ∈ (s.reqs r).reads ∧ WritesLine g s.md entry.1 entry.2

/-- A request may clean a block: the line has the core line that was recorded,
all I/Os succeeded and one of them wrote the block. -/
structure MayClean (g : Geometry) (s : State) (r line b : Nat) (e : MapInfo) : Prop where
  /-- The entry is on the map. -/
  mem : e ∈ (s.reqs r).map
  /-- It has the line. -/
  collIdx : e.collIdx = line
  /-- The line still has the recorded core line. -/
  mapped : s.md.coreInfo line = (e.coreId, e.coreLine)
  /-- The cache reads succeeded. -/
  readOk : ∀ error ∈ (s.reqs r).cacheErrors, error = 0
  /-- The core writes succeeded. -/
  writeOk : ∀ error ∈ (s.reqs r).coreErrors, error = 0
  /-- The flush of the core succeeded. -/
  flushOk : (s.reqs r).flushError = 0
  /-- The block was written. -/
  wrote : ∃ ws, (e, ws) ∈ (s.reqs r).log ∧ ∃ w ∈ ws, Wrote g e b w

theorem Inv.writes (h : Inv g s) {r : Nat} (hst : (s.reqs r).stage = .fireCore) :
    ∃ log, step g s (.fireCore r) = some (s.setReq r { s.reqs r with stage := .coreWrite, log := log }) ∧
      Writes g s r log := by
  have hlo : 3 ≤ (s.reqs r).stage.rank := by rw [hst]; decide
  have hhi : (s.reqs r).stage.rank < 8 := by rw [hst]; decide
  obtain ⟨log, hlog, hfst, hline⟩ := fireCore_spec (g := g) (s.reqs r).map h.valid
  refine ⟨log, ?_, hfst, ?_, fun entry hentry => ⟨?_, hline entry hentry⟩⟩
  · have heq : step g s (.fireCore r) = (fireCore g s.md (s.reqs r).map).map fun log =>
        s.setReq r { s.reqs r with stage := .coreWrite, log := log } := if_pos hst
    rw [heq, hlog]
    rfl
  · rw [(h.reqs r).slots]
    exact List.nodup_range
  · have hin : entry.1 ∈ (s.reqs r).map.filter writable := by
      rw [← hfst]
      exact List.mem_map.mpr ⟨entry, hentry, rfl⟩
    obtain ⟨hmem, hw⟩ := List.mem_filter.mp hin
    rw [(h.reqs r).reads hlo hhi]
    exact List.mem_map.mpr ⟨entry.1, List.mem_filter.mpr ⟨hmem, (Bool.and_eq_true_iff.mp hw).2⟩, rfl⟩

theorem Inv.mayClean (h : Inv g s) {r : Nat} (hst : (s.reqs r).stage = .updateMetadata) {line b : Nat}
    (hd : s.md.dirty line b = true) (hc : ((s.reqs r).map.foldl (updateEntry g) s.md).dirty line b = false) :
    ∃ e, MayClean g s r line b e := by
  have hlo : 7 ≤ (s.reqs r).stage.rank := by rw [hst]; decide
  have hhi : (s.reqs r).stage.rank < 8 := by rw [hst]; decide
  obtain ⟨hb, e, he, hw, hidx⟩ := (foldl_updateEntry (g := g) s.md (s.reqs r).map).entry line b hd hc
  obtain ⟨ws, hlog, hall⟩ := (h.reqs r).written (by omega) hhi e he hw
  have hmapped := (h.reqs r).mapped (by omega) hhi e he (Bool.and_eq_true_iff.mp hw).2
  rw [hidx] at hmapped hall
  exact ⟨e, he, hidx, hmapped, (h.reqs r).readOk (by omega) hhi e he hw, (h.reqs r).writeOk (by omega) hhi e he hw,
    (h.reqs r).flushOk hlo hhi e he hw, ws, hlog, hall b hb hd⟩

/-- In every run of cleaning requests, for every choice of lines, every pattern
of valid and dirty blocks, every change of the lines before they are locked and
every outcome of the I/Os: a request that has read its lines writes each of
them without a bug, every dirty block once, only valid blocks, at its core
address and from its slot; and a request clears a dirty bit only if the line
still has the recorded core line and the reads, the writes and the flush of the
core succeeded. -/
theorem cleaning_keeps_dirty_data {start s : State} (h0 : Start start) (h : Reachable (system g) start s) :
    (∀ r, (s.reqs r).stage = .fireCore →
      ∃ log, step g s (.fireCore r) = some (s.setReq r { s.reqs r with stage := .coreWrite, log := log }) ∧
        Writes g s r log) ∧
    ∀ act s', (∀ md, act ≠ .other md) → guard s act → step g s act = some s' →
      ∀ line b, s.md.dirty line b = true → s'.md.dirty line b = false →
        ∃ r e, act = .updateMetadata r ∧ MayClean g s r line b e := by
  have hinv := inv_of_reachable h0 h
  refine ⟨fun r hst => hinv.writes hst, fun act s' hact hg hs line b hd hc => ?_⟩
  cases act with
  | updateMetadata r =>
    obtain ⟨hst, heq⟩ := ite_none_right_eq_some.mp hs
    cases heq
    obtain ⟨e, hclean⟩ := hinv.mayClean hst hd hc
    exact ⟨r, e, rfl, hclean⟩
  | other md => exact absurd rfl (hact md)
  | fireCore r =>
    obtain ⟨-, heq⟩ := ite_none_right_eq_some.mp hs
    obtain ⟨log, -, heq⟩ := Option.map_eq_some_iff.mp heq
    rw [← heq] at hc
    exact absurd (hd.symm.trans hc) (by decide)
  | _ =>
    -- the other steps leave the metadata alone
    obtain ⟨-, heq⟩ := ite_none_right_eq_some.mp hs
    cases heq
    exact absurd (hd.symm.trans hc) (by decide)

/-- Contract of the steps of the requests, as a check. -/
def requestStep (s : State) : Act → Bool
  | .cacheIoEnd r errors => decide (errors.length = (s.reqs r).reads.length)
  | .coreIoEnd r errors => decide (errors.length = ((s.reqs r).log.map fun entry => entry.2.length).sum)
  | .other _ => false
  | _ => true

theorem guard_of_requestStep (s : State) (act : Act) (h : requestStep s act = true) : guard s act := by
  cases act with
  | cacheIoEnd r errors =>
    have hlen := of_decide_eq_true h
    exact hlen
  | coreIoEnd r errors =>
    have hlen := of_decide_eq_true h
    exact hlen
  | other md => cases h
  | _ => trivial

/-- Lines of three blocks. -/
def threeBlocks : Geometry := ⟨3, by decide, 1, 4, 8⟩

/-- A cache whose line 1 has core line 5, with blocks 0 and 2 valid and dirty. -/
def twoDirtyBlocks : State :=
  ⟨⟨fun _ => [1], fun _ => (0, 5), fun line b => line == 1 && b != 1, fun line b => line == 1 && (b == 0 || b == 2),
    fun _ => 0⟩, fun _ => .unused⟩

/-- A request for the line up to its last stage. -/
def cleanLine : List Act :=
  [.populate 0 ⟨1, false, fun _ => some 1⟩ 1 0, .lock 0, .checkMap 0, .cacheIoEnd 0 [0], .fireCore 0,
    .coreIoEnd 0 [0, 0], .flushCoreEnd 0 0]

/-- A line with two runs of dirty blocks is cleaned. -/
theorem cleaning_keeps_dirty_data_twoDirtyBlocks :
    ∃ s s', Reachable (system threeBlocks) twoDirtyBlocks s ∧
      step threeBlocks s (.updateMetadata 0) = some s' ∧
      s.md.dirty 1 2 = true ∧ s'.md.dirty 1 2 = false ∧ ∃ e, MayClean threeBlocks s 0 1 2 e := by
  have hview : ((cleanLine.foldlM (checkedStep (system threeBlocks) requestStep) twoDirtyBlocks).bind fun s =>
      (step threeBlocks s (.updateMetadata 0)).map fun s' => (s.md.dirty 1 2, s'.md.dirty 1 2)) =
      some (true, false) := by decide +kernel
  obtain ⟨s, hrun, hview⟩ := Option.bind_eq_some_iff.mp hview
  obtain ⟨s', hs', hview⟩ := Option.map_eq_some_iff.mp hview
  have hd : s.md.dirty 1 2 = true := congrArg Prod.fst hview
  have hc : s'.md.dirty 1 2 = false := congrArg Prod.snd hview
  have hstart : Start twoDirtyBlocks := by
    refine ⟨fun line b hb => ?_, fun _ => rfl⟩
    simp only [twoDirtyBlocks, Bool.and_eq_true, Bool.or_eq_true, beq_iff_eq, bne_iff_ne] at hb ⊢
    omega
  have hreach := Reachable.of_checked guard_of_requestStep hrun
  obtain ⟨r, e, hact, hclean⟩ := (cleaning_keeps_dirty_data hstart hreach).2 (.updateMetadata 0) s'
    (fun md => nofun) trivial hs' 1 2 hd hc
  cases hact
  exact ⟨s, s', hreach, hs', hd, hc, e, hclean⟩

end OcfCache.CleanerData
