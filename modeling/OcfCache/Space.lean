import OcfCache.EngineCommon
import OcfCache.Lfu
import OcfCache.Lru

/-!
# Space management

Embedding of `ocf_space.c`, of the loops `ocf_lru_req_clines` and
`ocf_lfu_req_clines`, which differ only in the iterator they call, and of
`ocf_prepare_clines_miss`. The functions return, besides the new state, the
lines handed to the request: each with its source partition, the state in
which it was chosen, and whether it was taken as the physical successor of the
line before it. The number of handed lines is the result of the source
functions. A failed `ENV_BUG_ON` is the result `none`.
-/

namespace OcfCache.Space

open Function Loops Metadata Requests EngineCommon CacheLine Partitions Lru Lfu

/-- A line handed to the request. -/
structure Handed where
  /-- The cache line. -/
  line : Nat
  /-- `actual_src_part_id`. -/
  src : Nat
  /-- State in which the line was chosen. -/
  before : Cache
  /-- Taken by `lru_req_next_cline` or `lfu_req_next_cline`. -/
  successor : Bool

/-- Result of an operation that hands lines to the request. -/
abbrev Result := Cache × Request × List Handed

variable (g : Geometry)

/-- Checks of the successor shortcut. -/
def takesSuccessor (c : Cache) (req : Request) (cline : Nat) : Bool :=
  match c.policy with
  | .lru => lruTakesSuccessor g c req cline
  | .lfu => lfuTakesSuccessor g c req cline

/-- The successor shortcut for a line that passes its checks. -/
def reqNextCline (c : Cache) (it : Iter) (cline : Nat) (dst : Part) : Option (Cache × Iter) :=
  match c.policy with
  | .lru => (lruReqNextCline g c cline dst).map fun c => (c, lruIterAdvance it)
  | .lfu => (lfuReqNextCline g c cline dst).map fun c =>
    (c, { it with currentShard := (it.currentShard + 1) % lfuNumShards })

/-- Next line of a partition in the order of the policy. -/
def iterEvictionNext (c : Cache) (req : Request) (part dst : Part) (it : Iter) :
    Option (Cache × Iter × Option Nat) :=
  match c.policy with
  | .lru => lruIterEvictionNext g c req part dst it
  | .lfu => lfuIterEvictionNext g c req part dst it

/-- Next line of the free list. -/
def iterFreeNext (c : Cache) (dst : Part) (it : Iter) : Option (Cache × Iter × Option Nat) :=
  match c.policy with
  | .lru => lruIterFreeNext g c dst it
  | .lfu => lfuIterFreeNext g c dst it

/-- The physical successor of the last line, if it passes the checks. -/
def successor (c : Cache) (req : Request) (cline : Option Nat) : Option Nat :=
  match cline with
  | some x =>
    if x < g.collisionEntries - 1 ∧ takesSuccessor g c req (x + 1) = true then some (x + 1) else none
  | none => none

/-- The head of the loop: the next line for the request, with its source. -/
def nextLine (c : Cache) (req : Request) (src dst : Part) (it : Iter) (cline : Option Nat) :
    Option (Cache × Iter × Option Handed) :=
  if src.id ≠ partitionFreelist then
    match successor g c req cline with
    | some x => (reqNextCline g c it x dst).map fun r =>
      (r.1, r.2, some ⟨x, c.md.partitionId x, c, true⟩)
    | none => (iterEvictionNext g c req src dst it).map fun r =>
      (r.1, r.2.1, r.2.2.map fun x => ⟨x, src.id, c, false⟩)
  else (iterFreeNext g c dst it).map fun r =>
    (r.1, r.2.1, r.2.2.map fun x => ⟨x, src.id, c, false⟩)

/-- Next map entry without a cache line. -/
def nextMiss (req : Request) : Nat → Nat → Nat
  | 0, idx => idx
  | fuel + 1, idx =>
    if idx + 1 < req.coreLineCount g ∧ (req.map idx).status ≠ .miss then
      nextMiss req fuel (idx + 1)
    else idx

/-- `ocf_lru_invalidate` and `ocf_lfu_invalidate`. -/
def evictInvalidate (md : LineTable) (cline : Nat) : LineTable :=
  ocfMetadataRemoveFromCollision g
    (setValidBits md cline (clearRange (md.valid cline) 0 g.endBlock)) cline

/-- `ocf_map_cache_line`. -/
def ocfMapCacheLine (md : LineTable) (req : Request) (idx cline : Nat) : LineTable × Request :=
  (ocfMetadataAddToCollision md req.coreId (req.coreLineFirst g + idx) (req.map idx).hash cline,
    req.setMap idx { req.map idx with collIdx := cline })

/-- The tail of the loop: map the line to the next core line of the request. -/
def assignLine (c : Cache) (req : Request) (cline src reqIdx : Nat) :
    Option (Cache × Request × Nat) :=
  if c.lineLocked cline = false ∨ metadataTestDirty g c.md cline = true then none
  else
    let idx := nextMiss g req (req.coreLineCount g) reqIdx
    if (req.map idx).status ≠ .miss then none
    else
      let md := if src ≠ partitionFreelist then evictInvalidate g c.md cline else c.md
      let r := ocfMapCacheLine g md req idx cline
      let req := r.2.setMap idx { r.2.map idx with status := .remapped }
      some ({ c with md := r.1 }, ocfEnginePatchReqInfo g req idx, idx + 1)

/-- `ocf_user_part_get_min_size`. -/
def ocfUserPartGetMinSize (c : Cache) (p : Nat) : Nat :=
  (c.config p).minSize * g.collisionEntries / 100

/-- `ocf_user_part_get_max_size`. -/
def ocfUserPartGetMaxSize (c : Cache) (p : Nat) : Nat :=
  ((c.config p).maxSize * g.collisionEntries + 99) / 100

/-- The loop of `ocf_lru_req_clines` and `ocf_lfu_req_clines`. -/
def reqClinesLoop (src dst : Part) (dstMax : Nat) : Nat → Cache → Request → Iter → Option Nat →
    Nat → Option Result
  | 0, c, req, _, _, _ => some (c, req, [])
  | n + 1, c, req, it, cline, reqIdx =>
    (nextLine g c req src dst it cline).bind fun r =>
      match r.2.2 with
      | none => some (r.1, req, [])
      | some h =>
        (assignLine g r.1 req h.line h.src reqIdx).bind fun a =>
          if h.src ≠ dst.id ∧ dstMax ≤ a.1.currSize dst then some (a.1, a.2.1, [h])
          else if a.2.2 = a.2.1.coreLineCount g ∧ n ≠ 0 then none
          else (reqClinesLoop src dst dstMax n a.1 a.2.1 r.2.1 (some h.line) a.2.2).map
            fun t => (t.1, t.2.1, h :: t.2.2)

/-- `ocf_lru_req_clines` and `ocf_lfu_req_clines`. -/
def ocfEvictionReqClines (c : Cache) (req : Request) (src : Part) (clineNo : Nat) : Option Result :=
  if clineNo = 0 then some (c, req, [])
  else if ocfEngineUnmappedCount g req < clineNo ∨ req.partId = partitionFreelist then none
  else reqClinesLoop g src (.user req.partId) (ocfUserPartGetMaxSize g c req.partId) clineNo
    { c with lruIdx := c.lruIdx + 1 } req (lruIterInit (c.lruIdx % ocfNumLruLists)) none 0

/-- `ocf_user_part_overflow_size`. -/
def ocfUserPartOverflowSize (c : Cache) (p : Nat) : Nat :=
  (c.currSize (.user p) - ocfUserPartGetMaxSize g c p).toNat

/-- `ocf_user_part_has_space`. -/
def ocfUserPartHasSpace (c : Cache) (req : Request) : Bool :=
  decide (c.currSize (.user req.partId) + (req.info.rePartNo + ocfEngineUnmappedCount g req : Nat) ≤
    ocfUserPartGetMaxSize g c req.partId)

/-- `ocf_evict_calculate`. -/
def ocfEvictCalculate (c : Cache) (p toEvict : Nat) : Nat :=
  min toEvict (c.currSize (.user p) - ocfUserPartGetMinSize g c p).toNat

/-- `ocf_evict_part_do`. -/
def ocfEvictPartDo (c : Cache) (req : Request) (p : Nat) : Option Result :=
  let unmapped := ocfEngineUnmappedCount g req
  let toEvict := ocfEvictCalculate g c p unmapped
  if toEvict < unmapped then some (c, req, [])
  else ocfEvictionReqClines g c req (.user p) toEvict

/-- Arithmetic of an `env_atomic`, which is 32 bits wide. -/
def int32 (x : Int) : Int := x.bmod (2 ^ 32)

/-- Conversion to `uint16_t`. -/
def uint16 (x : Int) : Int := x % 2 ^ 16

/-- Add to an eviction counter. -/
def ocfEvictCountersInc (c : Cache) (p : Nat) (delta : Int) : Cache :=
  { c with evictCounter := update c.evictCounter p (int32 (c.evictCounter p + delta)) }

/-- Partitions that `ocf_evict_counters_update` visits. Its parameter is a
`uint16_t`, while the callers' priorities are signed. -/
def evictable (c : Cache) (priority : Int) : List Nat :=
  c.userPartList.takeWhile fun p => decide (uint16 priority ≤ (c.config p).priority)

/-- `MIN_EVICT_QUOTA`. -/
def minEvictQuota : Nat := 256

/-- `ocf_evict_counters_update`. -/
def ocfEvictCountersUpdate (c : Cache) (priority : Int) : Cache :=
  let sizes := (evictable c priority).map fun p => (c.currSize (.user p)).toNat
  let least := (sizes.filter fun n => n != 0).foldl min g.collisionEntries
  let least := max least minEvictQuota
  (evictable c priority).foldl (fun c' p =>
    if (c.currSize (.user p)).toNat = 0 then c'
    else ocfEvictCountersInc c' p
      (((c.currSize (.user p)).toNat * minEvictQuota / least : Nat) : Int)) c

/-- Evict from one partition and charge its eviction counter, unless only
overflown partitions are evicted. -/
def evictPartition (overflownOnly : Bool) (c : Cache) (req : Request) (p toEvict : Nat)
    (counter : Int) : Option (Result × Int) :=
  if overflownOnly then
    (ocfEvictionReqClines g c req (.user p) toEvict).map fun r => (r, counter)
  else
    let counter := int32 (c.evictCounter p - toEvict)
    if counter ≤ -(toEvict : Int) then some ((c, req, []), counter + toEvict)
    else
      (ocfEvictionReqClines g (ocfEvictCountersInc c p (-(toEvict : Int))) req (.user p)
        toEvict).map fun r =>
        if r.2.2.length < toEvict then
          ((ocfEvictCountersInc r.1 p (toEvict - r.2.2.length : Nat), r.2.1, r.2.2),
            counter + (toEvict - r.2.2.length : Nat))
        else (r, counter)

/-- `ocf_evict_user_partitions_once`, from the rest of the partition list, with
the lines evicted so far. The last part of the result is `no_more_counters`. -/
def ocfEvictUserPartitionsOnce (overflownOnly : Bool) (maxPriority : Int) (evictClineNo : Nat) :
    List Nat → Cache → Request → Nat → Int → Bool → Option (Result × Bool)
  | [], c, req, _, _, noMore => some ((c, req, []), noMore)
  | p :: ps, c, req, evicted, counter, noMore =>
    if (c.config p).priority < maxPriority then some ((c, req, []), noMore)
    else if !overflownOnly && !(c.config p).eviction then some ((c, req, []), noMore)
    else if overflownOnly && ocfUserPartOverflowSize g c p == 0 then
      ocfEvictUserPartitionsOnce overflownOnly maxPriority evictClineNo ps c req evicted counter
        noMore
    else
      let toEvict := ocfEvictCalculate g c p (evictClineNo - evicted)
      if toEvict = 0 then
        ocfEvictUserPartitionsOnce overflownOnly maxPriority evictClineNo ps c req evicted counter
          noMore
      else
        let toEvict :=
          if overflownOnly then min toEvict (ocfUserPartOverflowSize g c p) else toEvict
        (evictPartition g overflownOnly c req p toEvict counter).bind fun e =>
          let noMore := if 0 < e.2 then false else noMore
          let evicted := evicted + e.1.2.2.length
          if evictClineNo ≤ evicted then some (e.1, noMore)
          else (ocfEvictUserPartitionsOnce overflownOnly maxPriority evictClineNo ps e.1.1 e.1.2.1
            evicted e.2 noMore).map fun t => ((t.1.1, t.1.2.1, e.1.2.2 ++ t.1.2.2), t.2)

/-- `EVICT_RETRY`. -/
def evictRetry : Nat := 2

/-- `ocf_evict_user_partitions`, with the number of tries left. -/
def ocfEvictUserPartitions (overflownOnly : Bool) (maxPriority : Int) :
    Nat → Cache → Request → Nat → Option Result
  | 0, c, req, _ => some (c, req, [])
  | tries + 1, c, req, evictClineNo =>
    (ocfEvictUserPartitionsOnce g overflownOnly maxPriority evictClineNo c.userPartList c req 0 0
      true).bind fun e =>
      if evictClineNo ≤ e.1.2.2.length ∨ overflownOnly = true then some e.1
      else
        let c := if e.2 then ocfEvictCountersUpdate g e.1.1 maxPriority else e.1.1
        (ocfEvictUserPartitions overflownOnly maxPriority tries c e.1.2.1
          (evictClineNo - e.1.2.2.length)).map fun t => (t.1, t.2.1, e.1.2.2 ++ t.2.2)

/-- `ocf_remap_do`. -/
def ocfRemapDo (c : Cache) (req : Request) : Option Result :=
  let remapClineNo := ocfEngineUnmappedCount g req
  (if 0 < c.currSize .free then ocfEvictionReqClines g c req .free remapClineNo
    else some (c, req, [])).bind fun f =>
    if remapClineNo ≤ f.2.2.length then some f
    else
      (ocfEvictUserPartitions g true ocfIoClassPrioPinned evictRetry f.1 f.2.1
        (remapClineNo - f.2.2.length)).bind fun o =>
        let remapped := f.2.2 ++ o.2.2
        if remapClineNo ≤ remapped.length then some (o.1, o.2.1, remapped)
        else
          (ocfEvictUserPartitions g false (o.1.config req.partId).priority evictRetry o.1 o.2.1
            (remapClineNo - remapped.length)).map fun t => (t.1, t.2.1, remapped ++ t.2.2)

/-- `ocf_space_managment_remap_do`: the new state, and the handed lines. The
request is remapped when these are as many as it needed. -/
def ocfSpaceManagmentRemapDo (c : Cache) (req : Request) (partEvict : Bool) : Option Result :=
  if partEvict then ocfEvictPartDo g c req req.partId else ocfRemapDo g c req

/-- `ocf_eviction_rm_cline`. -/
def ocfEvictionRmCline (c : Cache) (cline : Nat) : Option Cache :=
  match c.policy with
  | .lru => ocfLruRmCline g c cline
  | .lfu => ocfLfuRmCline c cline

/-- `set_cache_line_invalid_no_flush` for a whole line. -/
def setCacheLineInvalidNoFlush (c : Cache) (line : Nat) : Option Cache :=
  let md := setValidBits c.md line (clearRange (c.md.valid line) 0 g.endBlock)
  if c.waiters line then some { c with md := md }
  else (ocfEvictionRmCline g { c with md := md } line).map fun c =>
    { c with md := ocfMetadataRemoveFromCollision g c.md line }

/-- One round of `ocf_engine_map_hndl_error`. -/
def mapHndlErrorBody (s : Option (Cache × Request)) (i : Nat) : Option (Cache × Request) :=
  s.bind fun s =>
    let entry := s.2.map i
    if entry.status = .remapped then
      (setCacheLineInvalidNoFlush g s.1 entry.collIdx).map fun c =>
        ({ c with lineLocked := update c.lineLocked entry.collIdx false },
          s.2.setMap i { entry with status := .miss })
    else some s

/-- `ocf_engine_map_hndl_error`. -/
def ocfEngineMapHndlError (c : Cache) (req : Request) : Option (Cache × Request) :=
  forRange (req.coreLineCount g) (mapHndlErrorBody g) (some (c, req))

/-- `ocf_prepare_clines_miss`, with the lines handed to the request. -/
def ocfPrepareClinesMiss (c : Cache) (req : Request) : Option Result :=
  let needed := ocfEngineUnmappedCount g req
  (ocfSpaceManagmentRemapDo g c req (!ocfUserPartHasSpace g c req)).bind fun r =>
    if needed ≤ r.2.2.length then some r
    else (ocfEngineMapHndlError g r.1 r.2.1).map fun e =>
      (e.1, { e.2 with info :=
        { e.2.info with mappingError := true, cleaningRequired := true } }, r.2.2)

end OcfCache.Space
