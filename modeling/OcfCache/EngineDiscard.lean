import Mathlib.Tactic.Ring
import OcfCache.LineMap

/-!
# Discard engine

Embedding of `engine_discard.c`: the range is discarded on the core, trimmed to
whole lines and handled in steps, each of which looks its lines up, locks and
purges them and flushes their metadata. A step has its own reference and one of
the metadata flush, and only the error of the one that is given back last is looked
at. `env_memset` does not fail.
-/

namespace OcfCache.EngineDiscard

open Loops Metadata Requests EngineCommon LookupSpec CacheLine LineChanges LineMap EngineFrame

/-- How the collision segment of the metadata is kept. -/
inductive MetadataType
  /-- `metadata_raw_type_ram`. -/
  | ram
  /-- `metadata_raw_type_atomic`. -/
  | atomic
  /-- `metadata_raw_type_volatile`. -/
  | volatile
  deriving DecidableEq

/-- A cache. -/
structure Cache where
  /-- Its constants. -/
  g : Geometry
  /-- `OCF_BLOCK_SIZE`. -/
  blockSize : Nat
  /-- How metadata is kept. -/
  metadataType : MetadataType
  /-- Blocks have bytes. -/
  blockSize_pos : 0 < blockSize
  /-- The size of a line is a power of two of at most 64 KiB. -/
  lineSize_dvd : g.lineBlocks * blockSize ∣ 2 ^ 16

/-- `ocf_line_size`. -/
def Cache.lineSize (c : Cache) : Nat := c.g.lineBlocks * c.blockSize

/-- A collision table that is a partial map from core lines to cache lines. -/
structure Table (g : Geometry) where
  /-- The metadata. -/
  md : LineTable
  /-- It is a partial map. -/
  well : WellMapped g md

/-- What a lock of cache lines comes to. -/
inductive Lock
  /-- `OCF_LOCK_ACQUIRED`. -/
  | acquired
  /-- `OCF_LOCK_NOT_ACQUIRED`: the request is resumed with the lock. -/
  | waited
  /-- An error. -/
  | failed (error : Int)

/-- What happens to a step. Its flush completes; a flush that never does is a case
of `CoreIo`. -/
structure StepEnv where
  /-- The lock of its lines. -/
  lock : Lock
  /-- Lines that other requests wait for. -/
  waiters : Nat → Bool
  /-- The error of the metadata flush. -/
  flushError : Int
  /-- The flush ends before the step gives its own reference back. -/
  flushFirst : Bool

/-- What happens to a request. -/
structure Env where
  /-- The error of the discard on the core. -/
  coreError : Int
  /-- Its steps. -/
  steps : Nat → StepEnv
  /-- The error of the flush of the cache device. -/
  cacheFlushError : Int

/-- A discard request. -/
structure Discard where
  /-- Core. -/
  coreId : Nat
  /-- Direction. -/
  rw : Dir
  /-- Partition. -/
  partId : Nat
  /-- `addr`. -/
  addr : Nat
  /-- `bytes`. -/
  bytes : Nat
  /-- `ocf_core_volume_submit_discard` rejects a request without bytes. -/
  bytes_pos : 0 < bytes
  /-- The length has 32 bits. -/
  bytes_lt : bytes < 2 ^ 32
  /-- Its bytes have 64-bit addresses. -/
  end_le : addr + bytes ≤ 2 ^ 64

/-- What a request has done. -/
structure Log where
  /-- Metadata. -/
  md : LineTable
  /-- Core lines of the steps that were carried out. -/
  covered : List Nat
  /-- Errors of locks. -/
  lockErrors : List Int
  /-- Results of flushes. -/
  flushes : List Int

/-- Nothing was done. -/
def Log.start (md : LineTable) : Log := ⟨md, [], [], []⟩

/-- A map entry after `env_memset`. -/
def zeroEntry : MapInfo := ⟨0, 0, 0, 0, .hit, false, false, false⟩

section Code

variable (c : Cache) (d : Discard)

/-- The trimming of `_ocf_discard_core_complete`; `none` if no line is left. -/
def trim : Option (Nat × Nat) :=
  if d.bytes < c.lineSize then none
  else
    let remainder := d.addr % c.lineSize
    let addr := if remainder ≠ 0 then d.addr + (c.lineSize - remainder) else d.addr
    let bytes := if remainder ≠ 0 then d.bytes - (c.lineSize - remainder) else d.bytes
    let bytes := bytes - bytes % c.lineSize
    if bytes = 0 then none else some (addr, bytes)

/-- The request of a step for a range of bytes. -/
def stepRequest (addr bytes : Nat) : Request where
  coreId := d.coreId
  addr := addr / c.blockSize
  blocks := (addr + bytes - 1) / c.blockSize - addr / c.blockSize + 1
  rw := d.rw
  partId := d.partId
  map := fun _ => zeroEntry
  info := .zero

/-- The purge needs a flush of the metadata. -/
def flushNeeded (m : Marked) : Bool :=
  match c.metadataType with
  | .ram => m.flushMetadata
  | .atomic => true
  | .volatile => false

/-- `_ocf_discard_step_do`: the metadata, and the result of its flush if there was one. -/
def discardStepDo (env : StepEnv) (md : LineTable) (req : Request) : LineTable × List Int :=
  if ocfEngineMappedCount req = 0 then (md, [])
  else
    let m := ocfPurgeMapInfo c.g req env.waiters (.ofReq md req)
    (m.md, if flushNeeded c m then [env.flushError] else [])

/-- The error of the last call of `_ocf_discard_step_complete`. -/
def lastError (env : StepEnv) : List Int → Int
  | [] => 0
  | error :: _ => if env.flushFirst then 0 else error

/-- The step when its lines are locked, with the error of its completion. -/
def carryOut (env : StepEnv) (log : Log) (req : Request) : Log × Int :=
  let r := discardStepDo c env log.md req
  ({ log with
      md := r.1
      covered := log.covered ++ List.range' (req.coreLineFirst c.g) (req.coreLineCount c.g)
      flushes := log.flushes ++ r.2 }, lastError env r.2)

/-- `_ocf_discard_step`. -/
def discardStep (env : StepEnv) (log : Log) (addr bytes : Nat) : Log × Int :=
  let req := ocfEngineLookup c.g log.md (stepRequest c d addr bytes)
  if ocfEngineMappedCount req = 0 then carryOut c env log req
  else match env.lock with
    | .acquired => carryOut c env log req
    | .waited => carryOut c env log req
    | .failed error => ({ log with lockErrors := log.lockErrors ++ [error] }, 0)

/-- The steps from `handled` on, with `_ocf_discard_finish_step` and `_ocf_discard_flush_cache`:
what was done and the error of the completion; `none` when the fuel runs out. -/
def discardLoop (env : Env) (addr total : Nat) : Nat → Nat → Nat → Log → Option (Log × Int)
  | 0, _, _, _ => none
  | fuel + 1, i, handled, log =>
    let bytes := min (total - handled) maxTrimRqSize
    let r := discardStep c d (env.steps i) log (addr + handled) bytes
    if r.2 ≠ 0 then some r
    else if handled + bytes < total then discardLoop env addr total fuel (i + 1) (handled + bytes) r.1
    else if c.metadataType = .volatile then some (r.1, 0)
    else some ({ r.1 with flushes := r.1.flushes ++ [env.cacheFlushError] }, env.cacheFlushError)

/-- `ocf_engine_discard`. -/
def ocfEngineDiscard (env : Env) (md : LineTable) (fuel : Nat) : Option (Log × Int) :=
  if d.rw = .read then some (.start md, errInval)
  else if env.coreError ≠ 0 then some (.start md, env.coreError)
  else match trim c d with
    | none => some (.start md, 0)
    | some range => discardLoop c d env range.1 range.2 fuel 0 0 (.start md)

end Code

/-- The bytes of a core line lie in the range of a request. -/
def Inside (c : Cache) (d : Discard) (line : Nat) : Prop :=
  d.addr ≤ line * c.lineSize ∧ (line + 1) * c.lineSize ≤ d.addr + d.bytes

/-- No block of a cache line is valid or dirty. -/
def Empty (g : Geometry) (md : LineTable) (x : Nat) : Prop :=
  ∀ b < g.lineBlocks, md.valid x b = false ∧ md.dirty x b = false

/-- Two tables have a cache line for a core line, with the same bits. -/
structure Same (g : Geometry) (md md' : LineTable) (coreId line : Nat) : Prop where
  /-- The cache line. -/
  maps : ∀ x, Maps g md' x coreId line ↔ Maps g md x coreId line
  /-- Its bits. -/
  bits : ∀ x, Maps g md x coreId line → ∀ b, md'.valid x b = md.valid x b ∧ md'.dirty x b = md.dirty x b

/-- A request has done what it reports. -/
structure Correct (c : Cache) (d : Discard) (md : LineTable) (r : Log × Int) : Prop where
  /-- Without an error no line inside of the range has a valid or a dirty sector. -/
  emptied : r.2 = 0 → ∀ line, Inside c d line → ∀ x,
    Maps c.g md x d.coreId line ∨ Maps c.g r.1.md x d.coreId line → Empty c.g r.1.md x
  /-- Without an error each line inside of the range was covered. -/
  covered : r.2 = 0 → ∀ line, line ∈ r.1.covered ↔ Inside c d line
  /-- No line was covered twice. -/
  once : r.1.covered.Nodup
  /-- Other lines are as they were. -/
  other : ∀ coreId line, coreId ≠ d.coreId ∨ ¬Inside c d line → Same c.g md r.1.md coreId line
  /-- Without an error every flush succeeded. -/
  flushed : r.2 = 0 → ∀ e ∈ r.1.flushes, e = 0
  /-- A failed lock or flush is reported. -/
  reported : (r.1.lockErrors ≠ [] ∨ ∃ e ∈ r.1.flushes, e ≠ 0) → r.2 ≠ 0

variable {P : Nat → Prop} {first i : Nat}

section Tables

variable {g : Geometry} {md md' md'' : LineTable} {coreId : Nat}

theorem Same.refl (line : Nat) : Same g md md coreId line := ⟨fun _ => Iff.rfl, fun _ _ _ => ⟨rfl, rfl⟩⟩

theorem Same.trans {line : Nat} (h : Same g md md' coreId line) (h' : Same g md' md'' coreId line) : Same g md md'' coreId line where
  maps x := (h'.maps x).trans (h.maps x)
  bits x hx b := by
    have hfirst := h.bits x hx b
    have hsecond := h'.bits x ((h.maps x).mpr hx) b
    exact ⟨hsecond.1.trans hfirst.1, hsecond.2.trans hfirst.2⟩

/-- The lines of a set were emptied and the others left alone. -/
structure Cleared (g : Geometry) (coreId : Nat) (md md' : LineTable) (P : Nat → Prop) : Prop where
  /-- The table is a partial map. -/
  well : WellMapped g md'
  /-- Cache lines of the set have no valid and no dirty sector. -/
  emptied : ∀ line, P line → ∀ x, Maps g md x coreId line ∨ Maps g md' x coreId line → Empty g md' x
  /-- Other lines are as they were. -/
  other : ∀ core line, core ≠ coreId ∨ ¬P line → Same g md md' core line
  /-- No sector becomes valid or dirty. -/
  shrink : ∀ x b, (md'.valid x b = true → md.valid x b = true) ∧ (md'.dirty x b = true → md.dirty x b = true)

theorem Cleared.nothing (hw : WellMapped g md) (hP : ∀ line, P line → ∀ x, ¬Maps g md x coreId line) :
    Cleared g coreId md md P where
  well := hw
  emptied line hline x hx := absurd (hx.elim id id) (hP line hline x)
  other _ line _ := .refl line
  shrink _ _ := ⟨id, id⟩

theorem Cleared.empty (h : Cleared g coreId md md' P) {x : Nat} (hx : Empty g md x) : Empty g md' x := by
  intro b hb
  have hbits := hx b hb
  have hshrink := h.shrink x b
  refine ⟨?_, ?_⟩
  · refine Bool.eq_false_of_not_eq_true fun hv => ?_
    rw [hshrink.1 hv] at hbits
    exact absurd hbits.1 nofun
  · refine Bool.eq_false_of_not_eq_true fun hd => ?_
    rw [hshrink.2 hd] at hbits
    exact absurd hbits.2 nofun

theorem Cleared.trans {Q R : Nat → Prop} (h : Cleared g coreId md md' P) (h' : Cleared g coreId md' md'' Q)
    (hdisj : ∀ line, P line → ¬Q line) (hR : ∀ line, R line ↔ P line ∨ Q line) : Cleared g coreId md md'' R where
  well := h'.well
  emptied line hline x hx := by
    cases (hR line).mp hline with
    | inl hP =>
      have hsame := h'.other coreId line (.inr (hdisj line hP))
      refine h'.empty (h.emptied line hP x ?_)
      exact hx.imp id (hsame.maps x).mp
    | inr hQ =>
      have hsame := h.other coreId line (.inr fun hP => hdisj line hP hQ)
      exact h'.emptied line hQ x (hx.imp (hsame.maps x).mpr id)
  other core line hout := by
    refine (h.other core line (hout.imp id fun hR' hP => ?_)).trans (h'.other core line (hout.imp id fun hR' hQ => ?_))
    · exact hR' ((hR line).mpr (.inl hP))
    · exact hR' ((hR line).mpr (.inr hQ))
  shrink x b :=
    ⟨fun hv => (h.shrink x b).1 ((h'.shrink x b).1 hv), fun hd => (h.shrink x b).2 ((h'.shrink x b).2 hd)⟩

/-- A line of a set is cached. -/
def MappedOn (g : Geometry) (md : LineTable) (coreId : Nat) (P : Nat → Prop) : Prop :=
  ∃ line, P line ∧ ∃ x, Maps g md x coreId line

/-- A line of a set has a dirty sector. -/
def DirtyOn (g : Geometry) (md : LineTable) (coreId : Nat) (P : Nat → Prop) : Prop :=
  ∃ line, P line ∧ ∃ x, Maps g md x coreId line ∧ ∃ b < g.lineBlocks, md.dirty x b = true

/-- Invalidating the lines of a set needs a flush of the metadata. -/
def NeedsFlush (t : MetadataType) (g : Geometry) (md : LineTable) (coreId : Nat) (P : Nat → Prop) : Prop :=
  match t with
  | .ram => DirtyOn g md coreId P
  | .atomic => MappedOn g md coreId P
  | .volatile => False

theorem mappedOn_congr (h : ∀ line, P line → Same g md md' coreId line) :
    MappedOn g md' coreId P ↔ MappedOn g md coreId P := by
  unfold MappedOn
  refine exists_congr fun line => and_congr_right fun hline => exists_congr fun x => ?_
  exact (h line hline).maps x

theorem needsFlush_congr {t : MetadataType} (h : ∀ line, P line → Same g md md' coreId line) :
    NeedsFlush t g md' coreId P ↔ NeedsFlush t g md coreId P := by
  cases t with
  | ram =>
    change DirtyOn g md' coreId P ↔ DirtyOn g md coreId P
    unfold DirtyOn
    refine exists_congr fun line => and_congr_right fun hline => exists_congr fun x => ?_
    rw [(h line hline).maps x]
    refine and_congr_right fun hx => exists_congr fun b => and_congr_right fun _ => ?_
    rw [((h line hline).bits x hx b).2]
  | atomic => exact mappedOn_congr h
  | volatile => exact Iff.rfl

end Tables

section Purge

variable {g : Geometry} {md : LineTable} {req : Request}

/-- A request spans whole lines. -/
structure Spans (g : Geometry) (req : Request) (first n : Nat) : Prop where
  /-- The first line. -/
  coreLineFirst : req.coreLineFirst g = first
  /-- The number of lines. -/
  coreLineCount : req.coreLineCount g = n
  /-- Lines begin with their first block. -/
  start : ∀ i, ocfMapLineStartBlock g req i = 0
  /-- They end with their last block. -/
  stop : ∀ i, ocfMapLineEndBlock g req i = g.endBlock

theorem Spans.of_sameRange {req' : Request} {n : Nat} (h : Spans g req first n) (hr : SameRange req req') :
    Spans g req' first n where
  coreLineFirst := by rw [← h.coreLineFirst, Request.coreLineFirst, Request.coreLineFirst, hr.addr]
  coreLineCount := by rw [← h.coreLineCount, hr.coreLineCount]
  start i := by rw [← h.start i, ocfMapLineStartBlock, ocfMapLineStartBlock, hr.addr]
  stop i := by rw [← h.stop i, ocfMapLineEndBlock, ocfMapLineEndBlock, hr.addr, hr.blocks, hr.coreLineCount]

theorem pred_div_mod {a q : Nat} (ha : 0 < a) (hq : 0 < q) : (q * a - 1) / a = q - 1 ∧ (q * a - 1) % a = a - 1 := by
  obtain ⟨p, rfl⟩ : ∃ p, q = p + 1 := ⟨q - 1, by omega⟩
  have hsplit : (p + 1) * a - 1 = a * p + (a - 1) := by
    rw [Nat.succ_mul, Nat.mul_comm]
    omega
  rw [hsplit, Nat.mul_add_div ha, Nat.mul_add_mod, Nat.div_eq_of_lt (by omega), Nat.mod_eq_of_lt (by omega)]
  omega

theorem stepRequest_spans (c : Cache) (d : Discard) (first : Nat) {n : Nat} (hn : 0 < n) :
    Spans c.g (stepRequest c d (first * c.lineSize) (n * c.lineSize)) first n := by
  have hB := c.g.lineBlocks_pos
  have hbs := c.blockSize_pos
  have haddr : first * c.lineSize / c.blockSize = first * c.g.lineBlocks := by
    rw [Cache.lineSize, ← Nat.mul_assoc, Nat.mul_div_cancel _ hbs]
  have hsum : first * c.lineSize + n * c.lineSize = (first + n) * c.g.lineBlocks * c.blockSize := by
    unfold Cache.lineSize
    ring
  have hpos : 0 < (first + n) * c.g.lineBlocks := Nat.mul_pos (by omega) hB
  have hexpand : (first + n) * c.g.lineBlocks = first * c.g.lineBlocks + n * c.g.lineBlocks := Nat.add_mul _ _ _
  have hlines : 0 < n * c.g.lineBlocks := Nat.mul_pos hn hB
  have hlast : (first * c.lineSize + n * c.lineSize - 1) / c.blockSize = (first + n) * c.g.lineBlocks - 1 := by
    rw [hsum, (pred_div_mod hbs hpos).1]
  obtain ⟨req, hreq⟩ : ∃ req, req = stepRequest c d (first * c.lineSize) (n * c.lineSize) := ⟨_, rfl⟩
  have haddr' : req.addr = first * c.g.lineBlocks := by rw [hreq]; exact haddr
  have hblocks : req.blocks = n * c.g.lineBlocks := by
    have hdef : req.blocks = (first * c.lineSize + n * c.lineSize - 1) / c.blockSize - first * c.lineSize / c.blockSize + 1 := by
      rw [hreq]
      rfl
    rw [hdef, hlast, haddr]
    omega
  have hend : req.addr + req.blocks - 1 = (first + n) * c.g.lineBlocks - 1 := by rw [haddr', hblocks, hexpand]
  have hfirst : req.coreLineFirst c.g = first := by rw [Request.coreLineFirst, haddr', Nat.mul_div_cancel _ hB]
  have hcount : req.coreLineCount c.g = n := by
    rw [Request.coreLineCount, Request.coreLineLast, if_pos (by rw [hblocks]; exact hlines), hend, hfirst,
      (pred_div_mod hB (by omega)).1]
    omega
  rw [← hreq]
  refine ⟨hfirst, hcount, fun i => ?_, fun i => ?_⟩
  · rw [ocfMapLineStartBlock, haddr', Nat.mul_mod_left, ite_self]
  · rw [ocfMapLineEndBlock, hend, (pred_div_mod hB (by omega)).2, Geometry.endBlock, ite_self, ite_self]

theorem touched_iff {n : Nat} (hw : WellMapped g md) (hr : Resolved g md req) (hs : Spans g req first n) {x b : Nat} :
    Touched g req mappedEntry x b ↔ b < g.lineBlocks ∧ ∃ line, (first ≤ line ∧ line < first + n) ∧ Maps g md x req.coreId line := by
  have hB := g.lineBlocks_pos
  have hend : b ≤ g.endBlock ↔ b < g.lineBlocks := by
    unfold Geometry.endBlock
    omega
  unfold Touched TouchedBelow
  rw [hs.coreLineCount]
  constructor
  · rintro ⟨i, hi, hmapped, hcoll, -, hstop⟩
    rw [hs.stop, hend] at hstop
    have hfound := hr.found i (by rw [hs.coreLineCount]; exact hi) hmapped
    rw [hcoll, hs.coreLineFirst] at hfound
    exact ⟨hstop, first + i, by omega, hfound⟩
  · rintro ⟨hb, line, hline, hmaps⟩
    obtain ⟨i, rfl⟩ : ∃ i, line = first + i := ⟨line - first, by omega⟩
    rw [← hs.coreLineFirst] at hmaps
    have hi : i < req.coreLineCount g := by rw [hs.coreLineCount]; omega
    obtain ⟨hmapped, hcoll⟩ := hr.eq_of_maps hw hi hmaps
    exact ⟨i, by omega, hmapped, hcoll.symm, by rw [hs.start]; exact Nat.zero_le b, by rw [hs.stop, hend]; exact hb⟩

theorem mappedCount_eq_zero (hw : WellMapped g md) (req : Request) {n : Nat} (hs : Spans g req first n) :
    ocfEngineMappedCount (ocfEngineLookup g md req) = 0 ↔
      ¬MappedOn g md req.coreId fun line => first ≤ line ∧ line < first + n := by
  have hr := lookup_resolved hw req
  have hsame : SameRange req (ocfEngineLookup g md req) := sameRange_lookup req
  have hs' := hs.of_sameRange hsame
  have hcount : ocfEngineMappedCount (ocfEngineLookup g md req) = 0 ↔
      ∀ i < n, ((ocfEngineLookup g md req).map i).status = .miss := by
    have hmiss : ∀ i < n, (((ocfEngineLookup g md req).map i).status = .miss ↔ (lookupPlan g md req i).status ≠ .hit) := by
      intro i hi
      rw [ocfEngineLookup_eq, account_eq]
      simp only [accountedMap, hs.coreLineCount, if_pos hi, accounted_miss_iff]
      cases lookupMapEntry_status g md (req.map i) req.coreId (req.coreLineFirst g + i) with
      | inl h =>
        have hplan : (lookupPlan g md req i).status = .hit := h
        simp [hplan]
      | inr h =>
        have hplan : (lookupPlan g md req i).status = .miss := h
        simp [hplan]
    have hinfo : ocfEngineMappedCount (ocfEngineLookup g md req) =
        countBelow (fun i => (lookupPlan g md req i).status == .hit) n := by
      rw [ocfEngineLookup_eq, account_eq]
      unfold ocfEngineMappedCount
      rw [accountedInfo_found, hs.coreLineCount]
    rw [hinfo, countBelow_eq_zero]
    refine forall_congr' fun i => forall_congr' fun hi => ?_
    rw [hmiss i hi, beq_eq_false_iff_ne]
  rw [hcount]
  constructor
  · rintro hall ⟨line, hline, x, hx⟩
    obtain ⟨i, rfl⟩ : ∃ i, line = first + i := ⟨line - first, by omega⟩
    have hi : i < n := by omega
    refine hr.missing i (by rw [hs'.coreLineCount]; exact hi) (hall i hi) x ?_
    rw [hs'.coreLineFirst, hsame.coreId]
    exact hx
  · intro hnone i hi
    by_contra hmapped
    have hfound := hr.found i (by rw [hs'.coreLineCount]; exact hi) hmapped
    rw [hs'.coreLineFirst, hsame.coreId] at hfound
    exact hnone ⟨first + i, by omega, _, hfound⟩

theorem purge_flushMetadata {m : Marked} {waiters : Nat → Bool} (hm : m.flushMetadata = false)
    (h : (ocfPurgeMapInfo g req waiters m).flushMetadata = true) :
    ∃ x b, Touched g req mappedEntry x b ∧ m.md.dirty x b = true := by
  have hinv : (∀ x b, (ocfPurgeMapInfo g req waiters m).md.dirty x b = true → m.md.dirty x b = true) ∧
      ((ocfPurgeMapInfo g req waiters m).flushMetadata = true →
        ∃ x b, TouchedBelow g req mappedEntry (req.coreLineCount g) x b ∧ m.md.dirty x b = true) := by
    refine forRange_inv (fun n (m' : Marked) => (∀ x b, m'.md.dirty x b = true → m.md.dirty x b = true) ∧
      (m'.flushMetadata = true → ∃ x b, TouchedBelow g req mappedEntry n x b ∧ m.md.dirty x b = true)) ?_ ?_
    · refine ⟨fun _ _ hd => hd, fun hset => ?_⟩
      rw [hm] at hset
      exact absurd hset nofun
    · rintro n m' hn ⟨hshrink, hset⟩
      have hgrow : (∃ x b, TouchedBelow g req mappedEntry n x b ∧ m.md.dirty x b = true) →
          ∃ x b, TouchedBelow g req mappedEntry (n + 1) x b ∧ m.md.dirty x b = true := by
        rintro ⟨x, b, ht, hd⟩
        exact ⟨x, b, touchedBelow_succ.mpr (.inl ht), hd⟩
      by_cases hmiss : (req.map n).status = .miss
      · rw [if_pos hmiss]
        exact ⟨hshrink, fun h => hgrow (hset h)⟩
      · rw [if_neg hmiss]
        obtain ⟨-, hclean⟩ := setCacheLineClean_spec m' (ocfMapLineStartBlock g req n) (ocfMapLineEndBlock g req n)
          (req.map n).collIdx n
        obtain ⟨hdirty, -, -⟩ := setCacheLineInvalid_spec (g := g) waiters
          (setCacheLineClean m' (ocfMapLineStartBlock g req n) (ocfMapLineEndBlock g req n) (req.map n).collIdx n).md
          (ocfMapLineStartBlock g req n) (ocfMapLineEndBlock g req n) (req.map n).collIdx
        refine ⟨fun x b hd => ?_, fun hflush => ?_⟩
        · simp only [ocfPurgeCacheLineSec, hdirty] at hd
          exact hshrink x b ((hclean x b).mp hd).1
        · simp only [ocfPurgeCacheLineSec, setCacheLineClean] at hflush
          by_cases htest : metadataTestDirtySec m'.md (req.map n).collIdx (ocfMapLineStartBlock g req n)
              (ocfMapLineEndBlock g req n) = true
          · simp only [metadataTestDirtySec, testAny_eq_true] at htest
            obtain ⟨b, hstop, hstart, hd⟩ := htest
            exact ⟨(req.map n).collIdx, b, touchedBelow_succ.mpr (.inr ⟨hmiss, rfl, hstart, hstop⟩), hshrink _ _ hd⟩
          · rw [if_neg htest] at hflush
            exact hgrow (hset hflush)
  exact hinv.2 h

theorem setInvalid_maps (hw : WellMapped g md) (waiters : Nat → Bool) (start stop line : Nat) (x coreId coreLine : Nat) :
    (Maps g (setCacheLineInvalid g waiters md start stop line) x coreId coreLine → Maps g md x coreId coreLine) ∧
      (line ≠ x → (Maps g (setCacheLineInvalid g waiters md start stop line) x coreId coreLine ↔ Maps g md x coreId coreLine)) := by
  have hbits : Maps g (setValidBits md line (clearRange (md.valid line) start stop)) x coreId coreLine ↔
      Maps g md x coreId coreLine := maps_congr rfl rfl
  simp only [setCacheLineInvalid]
  by_cases hstay : (metadataTestValidAny g (setValidBits md line (clearRange (md.valid line) start stop)) line || waiters line) = true
  · rw [if_pos hstay]
    exact ⟨hbits.mp, fun _ => hbits⟩
  · rw [if_neg hstay, (hw.clear line start stop).maps_remove]
    exact ⟨fun h => hbits.mp h.2, fun hne => ⟨fun h => hbits.mp h.2, fun h => ⟨Ne.symm hne, hbits.mpr h⟩⟩⟩

theorem purge_maps {m : Marked} (hw : WellMapped g m.md) (waiters : Nat → Bool) (x coreId coreLine : Nat) :
    (Maps g (ocfPurgeMapInfo g req waiters m).md x coreId coreLine → Maps g m.md x coreId coreLine) ∧
      ((∀ i < req.coreLineCount g, (req.map i).status ≠ .miss → (req.map i).collIdx ≠ x) →
        (Maps g (ocfPurgeMapInfo g req waiters m).md x coreId coreLine ↔ Maps g m.md x coreId coreLine)) := by
  have hinv : WellMapped g (ocfPurgeMapInfo g req waiters m).md ∧
      (Maps g (ocfPurgeMapInfo g req waiters m).md x coreId coreLine → Maps g m.md x coreId coreLine) ∧
      ((∀ i < req.coreLineCount g, (req.map i).status ≠ .miss → (req.map i).collIdx ≠ x) →
        (Maps g (ocfPurgeMapInfo g req waiters m).md x coreId coreLine ↔ Maps g m.md x coreId coreLine)) := by
    refine forRange_inv (fun _ (m' : Marked) => WellMapped g m'.md ∧
      (Maps g m'.md x coreId coreLine → Maps g m.md x coreId coreLine) ∧
      ((∀ i < req.coreLineCount g, (req.map i).status ≠ .miss → (req.map i).collIdx ≠ x) →
        (Maps g m'.md x coreId coreLine ↔ Maps g m.md x coreId coreLine))) ⟨hw, id, fun _ => Iff.rfl⟩ ?_
    rintro n m' hn ⟨hw', hsub, hsame⟩
    by_cases hmiss : (req.map n).status = .miss
    · rw [if_pos hmiss]
      exact ⟨hw', hsub, hsame⟩
    · rw [if_neg hmiss]
      obtain ⟨hclean, -⟩ := setCacheLineClean_spec m' (ocfMapLineStartBlock g req n) (ocfMapLineEndBlock g req n)
        (req.map n).collIdx n
      have hw'' := hw'.of_valid hclean.hash hclean.coreInfo fun y b _ hv => .inl (by
        rw [hclean.valid] at hv
        exact hv)
      have hmaps := setInvalid_maps hw'' waiters (ocfMapLineStartBlock g req n) (ocfMapLineEndBlock g req n)
        (req.map n).collIdx x coreId coreLine
      have hcongr : Maps g (setCacheLineClean m' (ocfMapLineStartBlock g req n) (ocfMapLineEndBlock g req n)
          (req.map n).collIdx n).md x coreId coreLine ↔ Maps g m'.md x coreId coreLine :=
        maps_congr hclean.hash hclean.coreInfo
      refine ⟨hw''.setInvalid waiters _ _ _, fun h => hsub (hcongr.mp (hmaps.1 h)), fun hout => ?_⟩
      exact ((hmaps.2 (hout n hn hmiss)).trans hcongr).trans (hsame hout)
  exact hinv.2

/-- A purge clears the lines of its request. -/
theorem purge_cleared (hw : WellMapped g md) {n : Nat} (hs : Spans g req first n) (hr : Resolved g md req) (waiters : Nat → Bool) :
    Cleared g req.coreId md (ocfPurgeMapInfo g req waiters (.ofReq md req)).md fun line => first ≤ line ∧ line < first + n := by
  obtain ⟨-, -, hdirty, hvalid⟩ := purgeMapInfo_spec g req waiters (.ofReq md req)
  have hwell := (WellMapped.purge (m := .ofReq md req) hw req waiters).1
  have hmaps := fun x coreId coreLine => @purge_maps g req (.ofReq md req) hw waiters x coreId coreLine
  obtain ⟨md', hmd'⟩ : ∃ md', md' = (ocfPurgeMapInfo g req waiters (.ofReq md req)).md := ⟨_, rfl⟩
  rw [← hmd'] at hdirty hvalid hwell hmaps ⊢
  have hmd : (Marked.ofReq md req).md = md := rfl
  rw [hmd] at hdirty hvalid hmaps
  have htouched : ∀ x b, Touched g req mappedEntry x b ↔
      b < g.lineBlocks ∧ ∃ line, (first ≤ line ∧ line < first + n) ∧ Maps g md x req.coreId line :=
    fun x b => touched_iff hw hr hs
  refine ⟨hwell, fun line hline x hx b hb => ?_, fun core line hout => ?_, fun x b => ?_⟩
  · have hold : Maps g md x req.coreId line := hx.elim id (hmaps x req.coreId line).1
    have ht := (htouched x b).mpr ⟨hb, line, hline, hold⟩
    refine ⟨Bool.eq_false_of_not_eq_true fun hv => ?_, Bool.eq_false_of_not_eq_true fun hd => ?_⟩
    · exact ((hvalid x b).mp hv).2 ht
    · exact ((hdirty x b).mp hd).2 ht
  · -- A cache line of another core line is not one of the request.
    have hapart : ∀ x, Maps g md x core line → ∀ line', first ≤ line' ∧ line' < first + n → ¬Maps g md x req.coreId line' := by
      intro x hx line' hline' hx'
      have hpair := hx.2.symm.trans hx'.2
      rw [Prod.mk.injEq] at hpair
      cases hout with
      | inl hcore => exact hcore hpair.1
      | inr hline => exact hline (hpair.2 ▸ hline')
    have hkeep : ∀ x, Maps g md x core line → (Maps g md' x core line ↔ Maps g md x core line) := by
      intro x hx
      refine (hmaps x core line).2 fun i hi hmapped hcoll => ?_
      have hfound := hr.found i hi hmapped
      rw [hcoll, hs.coreLineFirst] at hfound
      rw [hs.coreLineCount] at hi
      exact hapart x hx (first + i) (by omega) hfound
    refine ⟨fun x => ⟨(hmaps x core line).1, fun hx => (hkeep x hx).mpr hx⟩, fun x hx b => ?_⟩
    have hnot : ¬Touched g req mappedEntry x b := by
      rw [htouched]
      rintro ⟨-, line', hline', hx'⟩
      exact hapart x hx line' hline' hx'
    refine ⟨Bool.eq_iff_iff.mpr ?_, Bool.eq_iff_iff.mpr ?_⟩
    · rw [hvalid]
      exact and_iff_left hnot
    · rw [hdirty]
      exact and_iff_left hnot
  · exact ⟨fun hv => ((hvalid x b).mp hv).1, fun hd => ((hdirty x b).mp hd).1⟩

end Purge

section Step

variable {c : Cache} {d : Discard} {env : StepEnv} {log : Log}

theorem lookup_flushMetadata (g : Geometry) (md : LineTable) (req : Request) : (ocfEngineLookup g md req).info.flushMetadata = false := by
  rw [ocfEngineLookup_eq, account_eq]
  rfl

theorem stepDo_spec {md : LineTable} (hw : WellMapped c.g md) (env : StepEnv) {req : Request} {n : Nat} (hs : Spans c.g req first n) :
    Cleared c.g req.coreId md (discardStepDo c env md (ocfEngineLookup c.g md req)).1 (fun line => first ≤ line ∧ line < first + n) ∧
      (NeedsFlush c.metadataType c.g md req.coreId (fun line => first ≤ line ∧ line < first + n) ∧
          (discardStepDo c env md (ocfEngineLookup c.g md req)).2 = [env.flushError] ∨
        ¬NeedsFlush c.metadataType c.g md req.coreId (fun line => first ≤ line ∧ line < first + n) ∧
          (discardStepDo c env md (ocfEngineLookup c.g md req)).2 = []) := by
  have hsame : SameRange req (ocfEngineLookup c.g md req) := sameRange_lookup req
  have hcount := mappedCount_eq_zero hw req hs
  have hs' := hs.of_sameRange hsame
  have hr := lookup_resolved hw req
  have hclear := lookup_flushMetadata c.g md req
  obtain ⟨req', hreq'⟩ : ∃ req', req' = ocfEngineLookup c.g md req := ⟨_, rfl⟩
  rw [← hreq'] at hsame hcount hs' hr hclear ⊢
  unfold discardStepDo
  by_cases hzero : ocfEngineMappedCount req' = 0
  · have hnone := hcount.mp hzero
    rw [if_pos hzero]
    refine ⟨.nothing hw fun line hline x hx => hnone ⟨line, hline, x, hx⟩, .inr ⟨fun hneeds => hnone ?_, rfl⟩⟩
    cases htype : c.metadataType with
    | ram =>
      rw [htype] at hneeds
      obtain ⟨line, hline, x, hx, -⟩ := hneeds
      exact ⟨line, hline, x, hx⟩
    | atomic =>
      rw [htype] at hneeds
      exact hneeds
    | volatile =>
      rw [htype] at hneeds
      exact hneeds.elim
  · have hmapped : MappedOn c.g md req.coreId fun line => first ≤ line ∧ line < first + n := by
      by_contra hnone
      exact hzero (hcount.mpr hnone)
    rw [if_neg hzero]
    refine ⟨by rw [← hsame.coreId]; exact purge_cleared hw hs' hr env.waiters, ?_⟩
    have hneeds : flushNeeded c (ocfPurgeMapInfo c.g req' env.waiters (.ofReq md req')) = true ↔
        NeedsFlush c.metadataType c.g md req.coreId fun line => first ≤ line ∧ line < first + n := by
      unfold flushNeeded
      cases c.metadataType with
      | ram =>
        change (ocfPurgeMapInfo c.g req' env.waiters (.ofReq md req')).flushMetadata = true ↔ DirtyOn c.g md req.coreId _
        constructor
        · intro hset
          obtain ⟨x, b, ht, hd⟩ := purge_flushMetadata hclear hset
          obtain ⟨hb, line, hline, hx⟩ := (touched_iff hw hr hs').mp ht
          rw [hsame.coreId] at hx
          exact ⟨line, hline, x, hx, b, hb, hd⟩
        · rintro ⟨line, hline, x, hx, b, hb, hd⟩
          obtain ⟨hmarks, -, hdirty, -⟩ := purgeMapInfo_spec c.g req' env.waiters (.ofReq md req')
          rw [← hsame.coreId] at hx
          have ht : Touched c.g req' mappedEntry x b := (touched_iff hw hr hs').mpr ⟨hb, line, hline, hx⟩
          refine (hmarks.change x ⟨b, fun heq => ?_⟩).1
          exact ((hdirty x b).mp (heq.trans hd)).2 ht
      | atomic => exact iff_of_true rfl hmapped
      | volatile => exact iff_of_false nofun id
    by_cases hflush : flushNeeded c (ocfPurgeMapInfo c.g req' env.waiters (.ofReq md req')) = true
    · exact .inl ⟨hneeds.mp hflush, if_pos hflush⟩
    · exact .inr ⟨fun h => hflush (hneeds.mpr h), if_neg hflush⟩

theorem discardStep_spec (hw : WellMapped c.g log.md) (env : StepEnv) (first : Nat) {n : Nat} (hn : 0 < n) :
    (MappedOn c.g log.md d.coreId (fun line => first ≤ line ∧ line < first + n) ∧ ∃ e, env.lock = .failed e ∧
        discardStep c d env log (first * c.lineSize) (n * c.lineSize) = ({ log with lockErrors := log.lockErrors ++ [e] }, 0)) ∨
      (¬(MappedOn c.g log.md d.coreId (fun line => first ≤ line ∧ line < first + n) ∧ ∃ e, env.lock = .failed e) ∧ ∃ md flushes,
        discardStep c d env log (first * c.lineSize) (n * c.lineSize) =
          (⟨md, log.covered ++ List.range' first n, log.lockErrors, log.flushes ++ flushes⟩, lastError env flushes) ∧
        Cleared c.g d.coreId log.md md (fun line => first ≤ line ∧ line < first + n) ∧
        (NeedsFlush c.metadataType c.g log.md d.coreId (fun line => first ≤ line ∧ line < first + n) ∧ flushes = [env.flushError] ∨
          ¬NeedsFlush c.metadataType c.g log.md d.coreId (fun line => first ≤ line ∧ line < first + n) ∧ flushes = [])) := by
  have hs := stepRequest_spans c d first hn
  have hcore : (stepRequest c d (first * c.lineSize) (n * c.lineSize)).coreId = d.coreId := rfl
  obtain ⟨hcleared, hflushes⟩ := stepDo_spec hw env hs
  have hcount := mappedCount_eq_zero hw _ hs
  have hs' := hs.of_sameRange (@sameRange_lookup c.g log.md _)
  rw [hcore] at hcleared hflushes hcount
  have hcarry : carryOut c env log (ocfEngineLookup c.g log.md (stepRequest c d (first * c.lineSize) (n * c.lineSize))) =
      (⟨(discardStepDo c env log.md (ocfEngineLookup c.g log.md (stepRequest c d (first * c.lineSize) (n * c.lineSize)))).1,
        log.covered ++ List.range' first n, log.lockErrors,
        log.flushes ++ (discardStepDo c env log.md
          (ocfEngineLookup c.g log.md (stepRequest c d (first * c.lineSize) (n * c.lineSize)))).2⟩,
        lastError env (discardStepDo c env log.md
          (ocfEngineLookup c.g log.md (stepRequest c d (first * c.lineSize) (n * c.lineSize)))).2) := by
    unfold carryOut
    rw [hs'.coreLineFirst, hs'.coreLineCount]
  by_cases hfail : MappedOn c.g log.md d.coreId (fun line => first ≤ line ∧ line < first + n) ∧ ∃ e, env.lock = .failed e
  · obtain ⟨hmapped, e, he⟩ := hfail
    refine .inl ⟨hmapped, e, he, ?_⟩
    unfold discardStep
    rw [if_neg fun hzero => hcount.mp hzero hmapped, he]
  · refine .inr ⟨hfail, _, _, ?_, hcleared, hflushes⟩
    rw [← hcarry]
    unfold discardStep
    by_cases hzero : ocfEngineMappedCount (ocfEngineLookup c.g log.md (stepRequest c d (first * c.lineSize) (n * c.lineSize))) = 0
    · rw [if_pos hzero]
    · rw [if_neg hzero]
      cases hlock : env.lock with
      | acquired => rfl
      | waited => rfl
      | failed e => exact absurd ⟨by_contra fun hnone => hzero (hcount.mpr hnone), e, hlock⟩ hfail

end Step

section Range

variable (c : Cache) (d : Discard)

/-- The first core line that is not before the range. -/
def firstLine : Nat := (d.addr + c.lineSize - 1) / c.lineSize

/-- The step to which a core line belongs. -/
def stepOf (line : Nat) : Nat := (line - firstLine c d) / (maxTrimRqSize / c.lineSize)

/-- A core line inside of the range that belongs to a step. -/
def InStep (i line : Nat) : Prop := Inside c d line ∧ stepOf c d line = i

theorem lineSize_pos : 0 < c.lineSize := Nat.mul_pos c.g.lineBlocks_pos c.blockSize_pos

theorem maxTrim_eq : ∃ k, 0 < k ∧ maxTrimRqSize = k * c.lineSize ∧ maxTrimRqSize / c.lineSize = k := by
  obtain ⟨q, hq⟩ := c.lineSize_dvd
  have hsize : 2 ^ 16 = q * c.lineSize := by rw [hq, Nat.mul_comm, Cache.lineSize]
  have hmax : maxTrimRqSize = 8 * q * c.lineSize := by rw [Nat.mul_assoc, ← hsize]; rfl
  refine ⟨8 * q, ?_, hmax, by rw [hmax, Nat.mul_div_cancel _ (lineSize_pos c)]⟩
  refine Nat.pos_of_ne_zero fun hzero => ?_
  rw [hzero, Nat.zero_mul] at hmax
  exact absurd hmax (by decide)

variable {c d}

theorem inside_iff {rest : Nat} (hlow : d.addr ≤ first * c.lineSize) (hhigh : first * c.lineSize < d.addr + c.lineSize)
    (hend : d.addr + d.bytes = first * c.lineSize + rest) (line : Nat) :
    Inside c d line ↔ first ≤ line ∧ line < first + rest / c.lineSize := by
  have hpos := lineSize_pos c
  have hbegin : d.addr ≤ line * c.lineSize ↔ first ≤ line := by
    constructor
    · intro h
      by_contra hlt
      have hnext : (line + 1) * c.lineSize ≤ first * c.lineSize := Nat.mul_le_mul_right _ (by omega)
      rw [Nat.succ_mul] at hnext
      omega
    · exact fun h => Nat.le_trans hlow (Nat.mul_le_mul_right _ h)
  unfold Inside
  rw [hbegin, hend]
  refine and_congr_right fun hle => ?_
  obtain ⟨k, rfl⟩ : ∃ k, line = first + k := ⟨line - first, by omega⟩
  have hexpand : (first + k + 1) * c.lineSize = first * c.lineSize + (k + 1) * c.lineSize := by
    rw [Nat.add_assoc, Nat.add_mul]
  have hdiv : k + 1 ≤ rest / c.lineSize ↔ (k + 1) * c.lineSize ≤ rest := Nat.le_div_iff_mul_le hpos
  rw [hexpand]
  omega

theorem round_up (q : Nat) {size r : Nat} (hr : r < size) : (size * q + r + size - 1) / size = q + if r ≠ 0 then 1 else 0 := by
  have hpos : 0 < size := Nat.zero_lt_of_lt hr
  by_cases hzero : r = 0
  · have hsum : size * q + r + size - 1 = size * q + (size - 1) := by omega
    have hlt : size - 1 < size := by omega
    rw [if_neg (not_not.mpr hzero), hsum, Nat.mul_add_div hpos, Nat.div_eq_of_lt hlt]
  · have hsum : size * q + r + size - 1 = size * (q + 1) + (r - 1) := by
      rw [Nat.mul_succ]
      omega
    have hlt : r - 1 < size := by omega
    rw [if_pos hzero, hsum, Nat.mul_add_div hpos, Nat.div_eq_of_lt hlt]

/-- The lines inside a discard. -/
theorem trim_spec : (trim c d = none ∧ ∀ line, ¬Inside c d line) ∨
    ∃ n, trim c d = some (firstLine c d * c.lineSize, n * c.lineSize) ∧ 0 < n ∧
      ∀ line, Inside c d line ↔ firstLine c d ≤ line ∧ line < firstLine c d + n := by
  have hpos := lineSize_pos c
  have hdiv := Nat.div_add_mod d.addr c.lineSize
  have hmod := Nat.mod_lt d.addr hpos
  by_cases hshort : d.bytes < c.lineSize
  · refine .inl ⟨if_pos hshort, fun line hinside => ?_⟩
    have hlow := hinside.1
    have hhigh := hinside.2
    rw [Nat.succ_mul] at hhigh
    omega
  obtain ⟨rest, hrest⟩ : ∃ rest, rest =
      if d.addr % c.lineSize ≠ 0 then d.bytes - (c.lineSize - d.addr % c.lineSize) else d.bytes := ⟨_, rfl⟩
  have hfirst : firstLine c d * c.lineSize =
      if d.addr % c.lineSize ≠ 0 then d.addr + (c.lineSize - d.addr % c.lineSize) else d.addr := by
    have hline : firstLine c d = d.addr / c.lineSize + if d.addr % c.lineSize ≠ 0 then 1 else 0 := by
      have hround := round_up (d.addr / c.lineSize) hmod
      rw [hdiv] at hround
      exact hround
    rw [hline, Nat.add_mul, Nat.mul_comm]
    by_cases hzero : d.addr % c.lineSize = 0
    · rw [if_neg (not_not.mpr hzero), if_neg (not_not.mpr hzero)]
      omega
    · rw [if_pos hzero, if_pos hzero]
      omega
  have hinside : ∀ line, Inside c d line ↔ firstLine c d ≤ line ∧ line < firstLine c d + rest / c.lineSize := by
    refine inside_iff ?_ ?_ ?_
    all_goals
      rw [hfirst]
      by_cases hzero : d.addr % c.lineSize = 0
      · simp only [hzero, ne_eq, not_true_eq_false, if_false] at hrest ⊢
        omega
      · simp only [hzero, ne_eq, not_false_eq_true, if_true] at hrest ⊢
        omega
  have hwhole : rest - rest % c.lineSize = rest / c.lineSize * c.lineSize := by
    have hsplit := Nat.div_add_mod rest c.lineSize
    rw [Nat.mul_comm] at hsplit
    omega
  have htrim : trim c d = if rest - rest % c.lineSize = 0 then none
      else some (firstLine c d * c.lineSize, rest - rest % c.lineSize) := by
    rw [hfirst, hrest]
    exact if_neg hshort
  by_cases hzero : rest / c.lineSize = 0
  · refine .inl ⟨?_, fun line hline => ?_⟩
    · rw [htrim, if_pos (by rw [hwhole, hzero, Nat.zero_mul])]
    · have hbounds := (hinside line).mp hline
      omega
  · refine .inr ⟨rest / c.lineSize, ?_, Nat.pos_of_ne_zero hzero, hinside⟩
    have hne : rest - rest % c.lineSize ≠ 0 := by
      rw [hwhole]
      exact Nat.mul_ne_zero hzero (Nat.pos_iff_ne_zero.mp hpos)
    rw [htrim, if_neg hne, hwhole]

theorem inStep_iff {n k : Nat} (hk : maxTrimRqSize / c.lineSize = k) (hpos : 0 < k) (hi : i * k < n)
    (hinside : ∀ line, Inside c d line ↔ firstLine c d ≤ line ∧ line < firstLine c d + n) (line : Nat) :
    InStep c d i line ↔ firstLine c d + i * k ≤ line ∧ line < firstLine c d + i * k + min (n - i * k) k := by
  unfold InStep stepOf
  rw [hinside, hk]
  by_cases hle : firstLine c d ≤ line
  · obtain ⟨j, rfl⟩ : ∃ j, line = firstLine c d + j := ⟨line - firstLine c d, by omega⟩
    have hlow : i ≤ j / k ↔ i * k ≤ j := Nat.le_div_iff_mul_le hpos
    have hhigh : j / k < i + 1 ↔ j < (i + 1) * k := Nat.div_lt_iff_lt_mul hpos
    have hnext : (i + 1) * k = i * k + k := Nat.succ_mul i k
    rw [Nat.add_sub_cancel_left]
    omega
  · constructor
    · exact fun h => absurd h.1.1 hle
    · exact fun h => absurd (Nat.le_trans (Nat.le_add_right _ _) h.1) hle

end Range

section Conditions

variable (c : Cache) (d : Discard) (env : Env) (md : LineTable)

/-- A step cannot lock its lines. -/
def LockFails (i : Nat) : Prop := MappedOn c.g md d.coreId (InStep c d i) ∧ ∃ e, (env.steps i).lock = .failed e

/-- A step locks its lines, and the metadata flush that it needs fails. -/
def FlushFails (i : Nat) : Prop :=
  NeedsFlush c.metadataType c.g md d.coreId (InStep c d i) ∧ (¬∃ e, (env.steps i).lock = .failed e) ∧
    (env.steps i).flushError ≠ 0

/-- A lock fails, or a flush fails that ends before its step gives its own reference back. -/
def Silent : Prop := ∃ i, LockFails c d env md i ∨ FlushFails c d env md i ∧ (env.steps i).flushFirst = true

/-- A flush fails that ends last in its step. -/
def Loud : Prop := ∃ i, FlushFails c d env md i ∧ (env.steps i).flushFirst = false

/-- The flush of the cache device after the steps fails. -/
def CacheFlushFails : Prop :=
  (∃ line, Inside c d line) ∧ c.metadataType ≠ .volatile ∧ env.cacheFlushError ≠ 0

end Conditions

section Loop

variable {c : Cache} {d : Discard} {env : Env} {md : LineTable}

theorem NeedsFlush.mapped {t : MetadataType} {g : Geometry} {coreId : Nat} (h : NeedsFlush t g md coreId P) :
    MappedOn g md coreId P := by
  cases t with
  | ram =>
    obtain ⟨line, hline, x, hx, -⟩ := h
    exact ⟨line, hline, x, hx⟩
  | atomic => exact h
  | volatile => exact h.elim

/-- What the first steps have done. -/
structure Through (c : Cache) (d : Discard) (env : Env) (md : LineTable) (i : Nat) (log : Log) : Prop where
  /-- The lines that were covered are empty. -/
  cleared : Cleared c.g d.coreId md log.md (· ∈ log.covered)
  /-- None was covered twice. -/
  nodup : log.covered.Nodup
  /-- They are lines of these steps. -/
  below : ∀ line ∈ log.covered, Inside c d line ∧ stepOf c d line < i
  /-- Without a failed lock all lines of these steps were covered. -/
  all : log.lockErrors = [] → ∀ line, Inside c d line → stepOf c d line < i → line ∈ log.covered
  /-- Failed locks. -/
  locks : log.lockErrors ≠ [] ↔ ∃ j < i, LockFails c d env md j
  /-- Failed flushes. -/
  flushes : (∃ e ∈ log.flushes, e ≠ 0) ↔ ∃ j < i, FlushFails c d env md j ∧ (env.steps j).flushFirst = true
  /-- None of them ended last in its step. -/
  quiet : ∀ j < i, ¬(FlushFails c d env md j ∧ (env.steps j).flushFirst = false)

theorem exists_lt_succ : (∃ j < i + 1, P j) ↔ (∃ j < i, P j) ∨ P i := by
  constructor
  · rintro ⟨j, hj, hP⟩
    by_cases h : j = i
    · exact .inr (h ▸ hP)
    · exact .inl ⟨j, by omega, hP⟩
  · rintro (⟨j, hj, hP⟩ | hP)
    · exact ⟨j, by omega, hP⟩
    · exact ⟨i, by omega, hP⟩

theorem forall_lt_succ (h : ∀ j < i, P j) (hi : P i) : ∀ j < i + 1, P j := by
  intro j hj
  by_cases hji : j = i
  · exact hji ▸ hi
  · exact h j (by omega)

theorem exists_mem_append {l l' : List Int} : (∃ e ∈ l ++ l', e ≠ 0) ↔ (∃ e ∈ l, e ≠ 0) ∨ ∃ e ∈ l', e ≠ 0 := by
  simp only [List.mem_append, or_and_right, exists_or]

theorem Through.start (hw : WellMapped c.g md) : Through c d env md 0 (.start md) where
  cleared := .nothing hw fun _ hline => absurd hline List.not_mem_nil
  nodup := List.nodup_nil
  below _ hline := absurd hline List.not_mem_nil
  all _ _ _ hlt := absurd hlt (Nat.not_lt_zero _)
  locks := iff_of_false (fun h => h rfl) fun ⟨_, hj, _⟩ => absurd hj (Nat.not_lt_zero _)
  flushes := iff_of_false (fun ⟨_, he, _⟩ => absurd he List.not_mem_nil) fun ⟨_, hj, _⟩ => absurd hj (Nat.not_lt_zero _)
  quiet _ hj := absurd hj (Nat.not_lt_zero _)

theorem Through.same {log : Log} (h : Through c d env md i log) {line : Nat} (hline : InStep c d i line) :
    Same c.g md log.md d.coreId line := by
  refine h.cleared.other d.coreId line (.inr fun hmem => ?_)
  have hlt := (h.below line hmem).2
  rw [hline.2] at hlt
  exact absurd hlt (Nat.lt_irrefl i)

/-- What is done when the request completes. -/
structure Finished (c : Cache) (d : Discard) (env : Env) (md : LineTable) (r : Log × Int) : Prop where
  /-- The lines that were covered are empty. -/
  cleared : Cleared c.g d.coreId md r.1.md (· ∈ r.1.covered)
  /-- None was covered twice. -/
  nodup : r.1.covered.Nodup
  /-- They are inside of the range. -/
  inside : ∀ line ∈ r.1.covered, Inside c d line
  /-- An error stands for a flush that failed and was looked at. -/
  loud : r.2 ≠ 0 → Loud c d env md ∨ CacheFlushFails c d env
  /-- Without an error everything was done, and the failures are those that are not looked at. -/
  quiet : r.2 = 0 → ¬Loud c d env md ∧ ¬CacheFlushFails c d env ∧
    (r.1.lockErrors ≠ [] ↔ ∃ j, LockFails c d env md j) ∧
    ((∃ e ∈ r.1.flushes, e ≠ 0) ↔ ∃ j, FlushFails c d env md j ∧ (env.steps j).flushFirst = true) ∧
    (r.1.lockErrors = [] → ∀ line, Inside c d line → line ∈ r.1.covered)

variable {k n : Nat}

/-- One step of a discard, lines and log. -/
theorem Through.step (hdiv : maxTrimRqSize / c.lineSize = k) (hpos : 0 < k)
    (hinside : ∀ line, Inside c d line ↔ firstLine c d ≤ line ∧ line < firstLine c d + n) {log : Log}
    (h : Through c d env md i log) (hi : i * k < n) {r : Log × Int}
    (hr : discardStep c d (env.steps i) log ((firstLine c d + i * k) * c.lineSize) (min (n - i * k) k * c.lineSize) = r) :
    (r.2 = 0 ∧ Through c d env md (i + 1) r.1) ∨
      (r.2 ≠ 0 ∧ Loud c d env md ∧ Cleared c.g d.coreId md r.1.md (· ∈ r.1.covered) ∧ r.1.covered.Nodup ∧
        ∀ line ∈ r.1.covered, Inside c d line) := by
  have hstep : (fun line => firstLine c d + i * k ≤ line ∧ line < firstLine c d + i * k + min (n - i * k) k) = InStep c d i :=
    funext fun line => propext (inStep_iff hdiv hpos hi hinside line).symm
  have hmapped : MappedOn c.g log.md d.coreId (InStep c d i) ↔ MappedOn c.g md d.coreId (InStep c d i) :=
    mappedOn_congr fun line hline => h.same hline
  have hneeds : NeedsFlush c.metadataType c.g log.md d.coreId (InStep c d i) ↔
      NeedsFlush c.metadataType c.g md d.coreId (InStep c d i) := needsFlush_congr fun line hline => h.same hline
  have hspec := discardStep_spec (d := d) h.cleared.well (env.steps i) (firstLine c d + i * k) (n := min (n - i * k) k) (by omega)
  rw [hstep, hr, hmapped, hneeds] at hspec
  cases hspec with
  | inl hfail =>
    obtain ⟨hon, e, he, rfl⟩ := hfail
    have hno : ¬FlushFails c d env md i := fun hf => hf.2.1 ⟨e, he⟩
    refine .inl ⟨rfl, h.cleared, h.nodup, fun line hline => ?_, fun hnil => ?_, ?_, ?_, ?_⟩
    · have hbelow := h.below line hline
      exact ⟨hbelow.1, Nat.lt_succ_of_lt hbelow.2⟩
    · exact absurd hnil (List.append_ne_nil_of_right_ne_nil _ (List.cons_ne_nil e []))
    · refine iff_of_true (List.append_ne_nil_of_right_ne_nil _ (List.cons_ne_nil e [])) ?_
      exact ⟨i, Nat.lt_succ_self i, hon, e, he⟩
    · rw [exists_lt_succ, h.flushes]
      exact ⟨.inl, fun hcase => hcase.elim id fun hf => absurd hf.1 hno⟩
    · exact forall_lt_succ h.quiet fun hf => hno hf.1
  | inr hdone =>
    obtain ⟨hgranted, md', flushes, rfl, hcleared, hflushes⟩ := hdone
    have hlock : ¬LockFails c d env md i := hgranted
    have hcover : ∀ line, line ∈ log.covered ++ List.range' (firstLine c d + i * k) (min (n - i * k) k) ↔
        line ∈ log.covered ∨ InStep c d i line := by
      intro line
      rw [List.mem_append, List.mem_range'_1, ← hstep]
    have hdisj : ∀ line, line ∈ log.covered → ¬InStep c d i line := by
      intro line hline hin
      have hlt := (h.below line hline).2
      rw [hin.2] at hlt
      exact absurd hlt (Nat.lt_irrefl i)
    have hcleared' : Cleared c.g d.coreId md md' (· ∈ log.covered ++ List.range' (firstLine c d + i * k) (min (n - i * k) k)) :=
      h.cleared.trans hcleared hdisj hcover
    have hnodup : (log.covered ++ List.range' (firstLine c d + i * k) (min (n - i * k) k)).Nodup := by
      refine List.Nodup.append h.nodup (List.nodup_range' 1 Nat.one_pos) fun line hline hrange => hdisj line hline ?_
      rw [← hstep]
      exact List.mem_range'_1.mp hrange
    have hbelow : ∀ line ∈ log.covered ++ List.range' (firstLine c d + i * k) (min (n - i * k) k),
        Inside c d line ∧ stepOf c d line < i + 1 := by
      intro line hline
      cases (hcover line).mp hline with
      | inl hold =>
        have hb := h.below line hold
        exact ⟨hb.1, Nat.lt_succ_of_lt hb.2⟩
      | inr hin => exact ⟨hin.1, by rw [hin.2]; exact Nat.lt_succ_self i⟩
    have hall : log.lockErrors = [] → ∀ line, Inside c d line → stepOf c d line < i + 1 →
        line ∈ log.covered ++ List.range' (firstLine c d + i * k) (min (n - i * k) k) := by
      intro hnil line hline hlt
      rw [hcover]
      by_cases hin : stepOf c d line = i
      · exact .inr ⟨hline, hin⟩
      · exact .inl (h.all hnil line hline (by omega))
    have hlocks : log.lockErrors ≠ [] ↔ ∃ j < i + 1, LockFails c d env md j := by
      rw [exists_lt_succ, h.locks]
      exact ⟨.inl, fun hcase => hcase.elim id fun hl => absurd hl hlock⟩
    by_cases hzero : lastError (env.steps i) flushes = 0
    · -- The completion of the step has no error.
      have hflush : ((∃ e ∈ flushes, e ≠ 0) ↔ FlushFails c d env md i ∧ (env.steps i).flushFirst = true) ∧
          ¬(FlushFails c d env md i ∧ (env.steps i).flushFirst = false) := by
        cases hflushes with
        | inl hneeded =>
          have hnolock : ¬∃ e, (env.steps i).lock = .failed e := fun he => hgranted ⟨hneeded.1.mapped, he⟩
          rw [hneeded.2] at hzero ⊢
          by_cases hfirst : (env.steps i).flushFirst = true
          · refine ⟨⟨fun hex => ?_, fun hf => ⟨_, List.mem_singleton_self _, hf.1.2.2⟩⟩, fun hf => ?_⟩
            · obtain ⟨e, he, hne⟩ := hex
              rw [List.mem_singleton] at he
              exact ⟨⟨hneeded.1, hnolock, he ▸ hne⟩, hfirst⟩
            · rw [hfirst] at hf
              exact absurd hf.2 nofun
          · have herror : (env.steps i).flushError = 0 := by
              rw [lastError, if_neg hfirst] at hzero
              exact hzero
            refine ⟨iff_of_false ?_ fun hf => hfirst hf.2, fun hf => hf.1.2.2 herror⟩
            rintro ⟨e, he, hne⟩
            rw [List.mem_singleton] at he
            exact hne (he.trans herror)
        | inr hnone =>
          rw [hnone.2]
          exact ⟨iff_of_false (fun ⟨_, he, _⟩ => absurd he List.not_mem_nil) fun hf => hnone.1 hf.1.1, fun hf => hnone.1 hf.1.1⟩
      refine .inl ⟨hzero, hcleared', hnodup, hbelow, hall, hlocks, ?_, forall_lt_succ h.quiet hflush.2⟩
      rw [exists_lt_succ, exists_mem_append, h.flushes, hflush.1]
    · refine .inr ⟨hzero, ⟨i, ?_⟩, hcleared', hnodup, fun line hline => (hbelow line hline).1⟩
      cases hflushes with
      | inl hneeded =>
        rw [hneeded.2] at hzero
        by_cases hfirst : (env.steps i).flushFirst = true
        · rw [lastError, if_pos hfirst] at hzero
          exact absurd rfl hzero
        · rw [lastError, if_neg hfirst] at hzero
          exact ⟨⟨hneeded.1, fun he => hgranted ⟨hneeded.1.mapped, he⟩, hzero⟩, Bool.eq_false_of_not_eq_true hfirst⟩
      | inr hnone =>
        rw [hnone.2] at hzero
        exact absurd rfl hzero

theorem LockFails.inStep {j : Nat} (h : LockFails c d env md j) : ∃ line, InStep c d j line := by
  obtain ⟨⟨line, hline, -⟩, -⟩ := h
  exact ⟨line, hline⟩

theorem FlushFails.inStep {j : Nat} (h : FlushFails c d env md j) : ∃ line, InStep c d j line := by
  obtain ⟨line, hline, -⟩ := h.1.mapped
  exact ⟨line, hline⟩

theorem Through.last (hdiv : maxTrimRqSize / c.lineSize = k) (hpos : 0 < k)
    (hinside : ∀ line, Inside c d line ↔ firstLine c d ≤ line ∧ line < firstLine c d + n) {log : Log}
    (h : Through c d env md i log) (hi : n ≤ i * k) (hn : 0 < n) :
    ∃ r, r = (if c.metadataType = .volatile then (log, 0)
      else ({ log with flushes := log.flushes ++ [env.cacheFlushError] }, env.cacheFlushError)) ∧ Finished c d env md r := by
  have hstep : ∀ line, Inside c d line → stepOf c d line < i := by
    intro line hline
    have hbounds := (hinside line).mp hline
    unfold stepOf
    rw [hdiv]
    exact (Nat.div_lt_iff_lt_mul hpos).mpr (by omega)
  have hquiet : ¬Loud c d env md := by
    rintro ⟨j, hf⟩
    obtain ⟨line, hline⟩ := hf.1.inStep
    have hlt := hstep line hline.1
    rw [hline.2] at hlt
    exact h.quiet j hlt hf
  have hlocks : log.lockErrors ≠ [] ↔ ∃ j, LockFails c d env md j := by
    rw [h.locks]
    refine exists_congr fun j => and_iff_right_of_imp fun hl => ?_
    obtain ⟨line, hline⟩ := hl.inStep
    have hlt := hstep line hline.1
    rw [hline.2] at hlt
    exact hlt
  have hflushes : (∃ e ∈ log.flushes, e ≠ 0) ↔ ∃ j, FlushFails c d env md j ∧ (env.steps j).flushFirst = true := by
    rw [h.flushes]
    refine exists_congr fun j => and_iff_right_of_imp fun hf => ?_
    obtain ⟨line, hline⟩ := hf.1.inStep
    have hlt := hstep line hline.1
    rw [hline.2] at hlt
    exact hlt
  have hsome : ∃ line, Inside c d line := ⟨firstLine c d, (hinside _).mpr ⟨Nat.le_refl _, by omega⟩⟩
  refine ⟨_, rfl, ?_⟩
  by_cases hvolatile : c.metadataType = .volatile
  · rw [if_pos hvolatile]
    refine ⟨h.cleared, h.nodup, fun line hline => (h.below line hline).1, fun hne => absurd rfl hne, fun _ => ?_⟩
    exact ⟨hquiet, fun hf => hf.2.1 hvolatile, hlocks, hflushes, fun hnil line hline => h.all hnil line hline (hstep line hline)⟩
  · rw [if_neg hvolatile]
    refine ⟨h.cleared, h.nodup, fun line hline => (h.below line hline).1, fun hne => .inr ⟨hsome, hvolatile, hne⟩, fun hzero => ?_⟩
    have hzero' : env.cacheFlushError = 0 := hzero
    refine ⟨hquiet, fun hf => hf.2.2 hzero', hlocks, ?_, fun hnil line hline => h.all hnil line hline (hstep line hline)⟩
    rw [← hflushes]
    refine exists_mem_append.trans (or_iff_left ?_)
    rintro ⟨e, he, hne⟩
    rw [List.mem_singleton] at he
    exact hne (he.trans hzero')

/-- The steps go through all lines of the discard. -/
theorem discardLoop_spec (hmax : maxTrimRqSize = k * c.lineSize) (hdiv : maxTrimRqSize / c.lineSize = k) (hpos : 0 < k)
    (hinside : ∀ line, Inside c d line ↔ firstLine c d ≤ line ∧ line < firstLine c d + n) {left : Nat} {log : Log}
    (h : Through c d env md i log) (hi : i * k < n) (hleft : n - i * k ≤ left) :
    ∃ r, (∀ fuel, n - i * k ≤ fuel →
        discardLoop c d env (firstLine c d * c.lineSize) (n * c.lineSize) fuel i (i * k * c.lineSize) log = some r) ∧
      Finished c d env md r := by
  induction left generalizing i log with
  | zero => omega
  | succ left ih =>
    have hnext : (i + 1) * k = i * k + k := Nat.succ_mul i k
    have hbytes : min (n * c.lineSize - i * k * c.lineSize) maxTrimRqSize = min (n - i * k) k * c.lineSize := by
      rw [← Nat.sub_mul, hmax, Nat.mul_min_mul_right]
    have haddr : firstLine c d * c.lineSize + i * k * c.lineSize = (firstLine c d + i * k) * c.lineSize := (Nat.add_mul _ _ _).symm
    have hhandled : i * k * c.lineSize + min (n - i * k) k * c.lineSize = (i * k + min (n - i * k) k) * c.lineSize :=
      (Nat.add_mul _ _ _).symm
    have hmore : (i * k + min (n - i * k) k) * c.lineSize < n * c.lineSize ↔ (i + 1) * k < n := by
      rw [Nat.mul_lt_mul_right (lineSize_pos c)]
      omega
    obtain ⟨r, hr⟩ : ∃ r, discardStep c d (env.steps i) log ((firstLine c d + i * k) * c.lineSize)
        (min (n - i * k) k * c.lineSize) = r := ⟨_, rfl⟩
    have hunfold : ∀ fuel, discardLoop c d env (firstLine c d * c.lineSize) (n * c.lineSize) (fuel + 1) i (i * k * c.lineSize) log =
        if r.2 ≠ 0 then some r
        else if (i + 1) * k < n then
          discardLoop c d env (firstLine c d * c.lineSize) (n * c.lineSize) fuel (i + 1)
            ((i * k + min (n - i * k) k) * c.lineSize) r.1
        else if c.metadataType = .volatile then some (r.1, 0)
        else some ({ r.1 with flushes := r.1.flushes ++ [env.cacheFlushError] }, env.cacheFlushError) := by
      intro fuel
      rw [discardLoop]
      simp only [hbytes, haddr, hr, hmore, hhandled]
    cases h.step hdiv hpos hinside hi hr with
    | inl hgo =>
      obtain ⟨hzero, hthrough⟩ := hgo
      by_cases hlast : (i + 1) * k < n
      · have hmin : (i * k + min (n - i * k) k) * c.lineSize = (i + 1) * k * c.lineSize := by
          have hsum : i * k + min (n - i * k) k = (i + 1) * k := by omega
          rw [hsum]
        obtain ⟨r', hloop, hfinished⟩ := ih hthrough hlast (by omega)
        refine ⟨r', fun fuel hfuel => ?_, hfinished⟩
        obtain ⟨fuel, rfl⟩ : ∃ f, fuel = f + 1 := ⟨fuel - 1, by omega⟩
        rw [hunfold, if_neg (not_not.mpr hzero), if_pos hlast, hmin]
        exact hloop fuel (by omega)
      · obtain ⟨r', hr', hfinished⟩ := hthrough.last hdiv hpos hinside (by omega) (by omega)
        refine ⟨r', fun fuel hfuel => ?_, hfinished⟩
        obtain ⟨fuel, rfl⟩ : ∃ f, fuel = f + 1 := ⟨fuel - 1, by omega⟩
        rw [hunfold, if_neg (not_not.mpr hzero), if_neg hlast, hr']
        by_cases hvolatile : c.metadataType = .volatile
        · rw [if_pos hvolatile, if_pos hvolatile]
        · rw [if_neg hvolatile, if_neg hvolatile]
    | inr hstop =>
      obtain ⟨hne, hloud, hcleared, hnodup, hin⟩ := hstop
      refine ⟨r, fun fuel hfuel => ?_, hcleared, hnodup, hin, fun _ => .inl hloud, fun hzero => absurd hzero hne⟩
      obtain ⟨fuel, rfl⟩ : ∃ f, fuel = f + 1 := ⟨fuel - 1, by omega⟩
      rw [hunfold, if_pos hne]

theorem Finished.clears_iff {r : Log × Int} (h : Finished c d env md r) :
    Correct c d md r ↔ Loud c d env md ∨ CacheFlushFails c d env ∨ ¬Silent c d env md := by
  by_cases hzero : r.2 = 0
  · obtain ⟨hloud, hcache, hlocks, hflushes, hall⟩ := h.quiet hzero
    rw [or_iff_right hloud, or_iff_right hcache]
    have hsilent : Silent c d env md ↔ r.1.lockErrors ≠ [] ∨ ∃ e ∈ r.1.flushes, e ≠ 0 := by
      rw [hlocks, hflushes, ← exists_or]
      rfl
    rw [hsilent]
    constructor
    · exact fun hcorrect hfailed => hcorrect.reported hfailed hzero
    · intro hnone
      have hnil : r.1.lockErrors = [] := not_not.mp fun hne => hnone (.inl hne)
      have hcovered : ∀ line, line ∈ r.1.covered ↔ Inside c d line := fun line => ⟨h.inside line, hall hnil line⟩
      refine ⟨fun _ line hline => ?_, fun _ => hcovered, h.nodup, fun coreId line hout => ?_, fun _ e he => ?_,
        fun hfailed => absurd hfailed hnone⟩
      · exact h.cleared.emptied line ((hcovered line).mpr hline)
      · exact h.cleared.other coreId line (hout.imp id fun hin hmem => hin (h.inside line hmem))
      · exact not_not.mp fun hne => hnone (.inr ⟨e, he, hne⟩)
  · refine iff_of_true ⟨fun h0 => absurd h0 hzero, fun h0 => absurd h0 hzero, h.nodup, fun coreId line hout => ?_,
      fun h0 => absurd h0 hzero, fun _ => hzero⟩ ((h.loud hzero).imp id .inl)
    exact h.cleared.other coreId line (hout.imp id fun hin hmem => hin (h.inside line hmem))

end Loop

theorem correct_start (c : Cache) (d : Discard) (md : LineTable) {error : Int} (h : error = 0 → ∀ line, ¬Inside c d line) :
    Correct c d md (.start md, error) where
  emptied hzero line hline := absurd hline (h hzero line)
  covered hzero line := iff_of_false List.not_mem_nil (h hzero line)
  once := List.nodup_nil
  other _ line _ := .refl line
  flushed _ _ he := absurd he List.not_mem_nil
  reported hfailed := by
    cases hfailed with
    | inl hne => exact absurd rfl hne
    | inr hex =>
      obtain ⟨e, he, -⟩ := hex
      exact absurd he List.not_mem_nil

/-- A discard ends with a result. If it reports success, all lines inside of its range are
empty, each was covered once, no other was touched and all flushes succeeded; and each
failed lock or flush is reported. This holds if and only if no failure is silent, or another
one is looked at. -/
theorem ocfEngineDiscard_spec (c : Cache) (d : Discard) (env : Env) (t : Table c.g) :
    ∃ r, (∀ fuel, d.bytes ≤ fuel → ocfEngineDiscard c d env t.md fuel = some r) ∧
      (Correct c d t.md r ↔ d.rw = .read ∨ env.coreError ≠ 0 ∨ Loud c d env t.md ∨ CacheFlushFails c d env ∨ ¬Silent c d env t.md) := by
  by_cases hread : d.rw = .read
  · refine ⟨_, fun fuel _ => if_pos hread, iff_of_true ?_ (.inl hread)⟩
    exact correct_start c d t.md fun h => absurd h (by decide)
  rw [or_iff_right hread]
  by_cases hcore : env.coreError ≠ 0
  · refine ⟨_, fun fuel _ => ?_, iff_of_true (correct_start c d t.md fun h => absurd h hcore) (.inl hcore)⟩
    rw [ocfEngineDiscard, if_neg hread, if_pos hcore]
  rw [or_iff_right hcore]
  rcases trim_spec (c := c) (d := d) with ⟨htrim, hnone⟩ | ⟨n, htrim, hn, hinside⟩
  · refine ⟨_, fun fuel _ => by rw [ocfEngineDiscard, if_neg hread, if_neg hcore, htrim], iff_of_true (correct_start c d t.md fun _ => hnone) (.inr (.inr ?_))⟩
    rintro ⟨i, hf | hf⟩
    · obtain ⟨line, hline⟩ := hf.inStep
      exact hnone line hline.1
    · obtain ⟨line, hline⟩ := hf.1.inStep
      exact hnone line hline.1
  · obtain ⟨k, hk, hmax, hdiv⟩ := maxTrim_eq c
    have hle : n ≤ d.bytes := by
      have hlast := ((hinside (firstLine c d + (n - 1))).mpr (by omega)).2
      have hfirst := ((hinside (firstLine c d)).mpr (by omega)).1
      have hexpand : (firstLine c d + (n - 1) + 1) * c.lineSize = firstLine c d * c.lineSize + n * c.lineSize := by
        have hsum : firstLine c d + (n - 1) + 1 = firstLine c d + n := by omega
        rw [hsum, Nat.add_mul]
      have hmul : n ≤ n * c.lineSize := Nat.le_mul_of_pos_right n (lineSize_pos c)
      omega
    have hstart : Through c d env t.md 0 (.start t.md) := Through.start t.well
    obtain ⟨r, hloop, hfinished⟩ := discardLoop_spec hmax hdiv hk hinside hstart (by omega) (Nat.le_refl _)
    refine ⟨r, fun fuel hfuel => ?_, hfinished.clears_iff⟩
    rw [ocfEngineDiscard, if_neg hread, if_neg hcore, htrim]
    have hresult := hloop fuel (by omega)
    rw [Nat.zero_mul, Nat.zero_mul] at hresult
    exact hresult

section OneLine

/-- A cache of one line. -/
def smallCache : Cache where
  g := ⟨8, eightBlocks_pos, 1, 1, 0⟩
  blockSize := 512
  metadataType := .ram
  blockSize_pos := Nat.succ_pos 511
  lineSize_dvd := ⟨16, rfl⟩

/-- The line is dirty and belongs to the first core line. -/
def dirtyLine : LineTable where
  hash h := if h = 0 then [0] else []
  coreInfo _ := (0, 0)
  valid x _ := decide (x = 0)
  dirty x _ := decide (x = 0)
  partitionId _ := 0

theorem page_pos : 0 < 4096 := by decide

theorem page_lt : 4096 < 2 ^ 32 := by decide

theorem page_end : 0 + 4096 ≤ 2 ^ 64 := by decide

/-- A discard of the line. -/
def lineDiscard : Discard where
  coreId := 0
  rw := .write
  partId := 0
  addr := 0
  bytes := 4096
  bytes_pos := page_pos
  bytes_lt := page_lt
  end_le := page_end

/-- The metadata flush has no memory, which it reports at once. -/
def noMemory : Env where
  coreError := 0
  steps _ := ⟨.acquired, fun _ => false, -1000005, true⟩
  cacheFlushError := 0

theorem maps_dirtyLine {x coreId coreLine : Nat} (h : Maps smallCache.g dirtyLine x coreId coreLine) : x = 0 := by
  have hbucket : x ∈ if ocfMetadataHashFunc smallCache.g coreLine coreId = 0 then [0] else [] := h.1
  split at hbucket
  · exact List.mem_singleton.mp hbucket
  · exact absurd hbucket List.not_mem_nil

/-- The cache has the line for the first core line. -/
def dirtyTable : Table smallCache.g where
  md := dirtyLine
  well :=
    { bucket := fun h x hx => by
        have hone : ocfMetadataHashFunc smallCache.g 0 0 = 0 := by decide
        by_cases hh : h = 0
        · rw [hh]
          exact hone
        · simp [dirtyLine, hh] at hx
      nodup := fun h => by
        simp only [dirtyLine]
        split <;> decide
      unique := fun _ _ _ _ hx hy => (maps_dirtyLine hx).trans (maps_dirtyLine hy).symm
      valid := fun x b _ hv => by
        have hx : x = 0 := of_decide_eq_true hv
        rw [hx]
        exact ⟨by decide, rfl⟩ }

/-- The lock is waited for, and all flushes succeed. -/
def granted : Env := { noMemory with steps := fun _ => ⟨.waited, fun _ => false, 0, false⟩ }

/-- The failed flush of the metadata is not reported. -/
theorem flush_not_reported : ∃ r, ocfEngineDiscard smallCache lineDiscard noMemory dirtyTable.md 4096 = some r ∧
    ¬Correct smallCache lineDiscard dirtyTable.md r := by
  have hrun : (ocfEngineDiscard smallCache lineDiscard noMemory dirtyTable.md 4096).map (fun r => (r.2, r.1.flushes)) =
      some (0, [-1000005, 0]) := by
    decide
  obtain ⟨r, hr, hvalues⟩ := Option.map_eq_some_iff.mp hrun
  refine ⟨r, hr, fun hcorrect => ?_⟩
  have hzero : r.2 = 0 := congrArg Prod.fst hvalues
  have hflushes : r.1.flushes = [-1000005, 0] := congrArg Prod.snd hvalues
  have hfailed := hcorrect.flushed hzero (-1000005) (by rw [hflushes]; exact List.mem_cons_self)
  exact absurd hfailed (by decide)

/-- With memory for its flush the discard empties the dirty line and reports that. -/
theorem ocfEngineDiscard_spec_dirtyTable : ∃ r,
    ocfEngineDiscard smallCache lineDiscard granted dirtyTable.md 4096 = some r ∧
    r.2 = 0 ∧ r.1.flushes = [0, 0] ∧ Correct smallCache lineDiscard dirtyTable.md r := by
  have hrun : (ocfEngineDiscard smallCache lineDiscard granted dirtyTable.md 4096).map (fun r => (r.2, r.1.flushes)) =
      some (0, [0, 0]) := by
    decide
  obtain ⟨r, hr, hcorrect⟩ := ocfEngineDiscard_spec smallCache lineDiscard granted dirtyTable
  have hsome := hr 4096 (by decide)
  rw [hsome, Option.map_some] at hrun
  have hvalues := Option.some.inj hrun
  refine ⟨r, hsome, congrArg Prod.fst hvalues, congrArg Prod.snd hvalues, hcorrect.mpr (.inr (.inr (.inr (.inr ?_))))⟩
  rintro ⟨i, ⟨-, e, he⟩ | ⟨⟨-, -, hflush⟩, -⟩⟩
  · cases he
  · exact hflush rfl

end OneLine

end OcfCache.EngineDiscard
