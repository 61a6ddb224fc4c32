import OcfCache.EngineIo

/-!
# Byte addresses of the cache transfers

Embedding of `engine_io.c` and of `_ocf_backfill_do` in bytes, with the carried
`addr_next` and with the assertions. A transfer names its direction, its first
byte on the cache device, its length and its first byte in the data of the
request. The module shows which byte of the device each byte of a request goes
to, and for which requests an assertion fails.
-/

namespace OcfCache.ForwardIo

open Metadata Requests

/-- The cache device as far as the addresses of the cache lines need it. -/
structure Device where
  /-- `ocf_line_size`. -/
  lineSize : Nat
  /-- A cache line has at least one byte. -/
  lineSize_pos : 0 < lineSize
  /-- `metadata_offset`. -/
  metadataOffset : Nat

/-- `struct ocf_request` as far as the transfers read it. -/
structure IoRequest where
  /-- First byte on the core. -/
  addr : Nat
  /-- Number of bytes. -/
  bytes : Nat
  /-- First byte in the data. -/
  offset : Nat
  /-- Map of the core lines. -/
  map : Nat → MapInfo
  /-- Counters of the last lookup. -/
  info : ReqInfo
  /-- There is a copy of the data for the backfill. -/
  cpData : Bool

/-- Arguments of `ocf_req_forward_cache_io`. -/
structure CacheIo where
  /-- Direction. -/
  dir : Dir
  /-- First byte on the cache device. -/
  addr : Nat
  /-- Number of bytes. -/
  bytes : Nat
  /-- First byte in the data of the request. -/
  offset : Nat
  deriving DecidableEq, Repr

/-- Error of the backfill. -/
inductive Error
  | noMem
  deriving DecidableEq, Repr

variable (d : Device) (req : IoRequest)

/-- Number of core lines, as `ocf_req_new` counts them. -/
def coreLineCount : Nat :=
  if 0 < req.bytes then (req.addr + req.bytes - 1) / d.lineSize - req.addr / d.lineSize + 1
  else 1

/-- `ocf_engine_is_sequential`. -/
def ocfEngineIsSequential : Bool :=
  req.info.hitNo + req.info.insertNo == coreLineCount d req &&
    req.info.seqNo == coreLineCount d req - 1

/-- First byte of the cache line of entry `i`. -/
def lineAddr (i : Nat) : Nat := (req.map i).collIdx * d.lineSize + d.metadataOffset

/-- Bytes in front of the request in its first line. -/
def seek : Nat := req.addr % d.lineSize

/-- Bytes behind the request in its last line. -/
def skip : Nat := (d.lineSize - (req.addr + req.bytes) % d.lineSize) % d.lineSize

/-- `ocf_engine_forward_cache_io`. -/
def ocfEngineForwardCacheIo (dir : Dir) (offset size : Nat) : CacheIo :=
  let firstCl := (offset + seek d req) / d.lineSize
  let addr := d.metadataOffset + (req.map firstCl).collIdx * d.lineSize
  ⟨dir, addr + (offset + seek d req) % d.lineSize, size, req.offset + offset⟩

/-- The transfer of a sequential request. -/
def sequentialIo (dir : Dir) : CacheIo :=
  ⟨dir, d.metadataOffset + (req.map 0).collIdx * d.lineSize + seek d req, req.bytes, req.offset⟩

/-- The inner loop: its last entry, the length so far and `addr_next`. -/
def joinLines : Nat → Nat → Nat → Nat → Nat → Nat × Nat × Nat
  | 0, i, _, bytes, addrNext => (i, bytes, addrNext)
  | fuel + 1, i, addr, bytes, addrNext =>
    if i < coreLineCount d req - 1 then
      if lineAddr d req (i + 1) ≠ addr + bytes then (i, bytes, lineAddr d req (i + 1))
      else joinLines fuel (i + 1) addr (bytes + d.lineSize) (lineAddr d req (i + 1))
    else (i, bytes, addrNext)

/-- What one round of an outer loop leaves behind. -/
structure Round where
  /-- Last entry of the transfer. -/
  last : Nat
  /-- `addr_next`. -/
  addrNext : Nat
  /-- The transfer. -/
  io : CacheIo

/-- First byte of the request in the line of entry `i`. -/
def firstByte (i : Nat) : Nat := if i = 0 then seek d req else 0

/-- Length of a transfer of `bytes` bytes of whole lines up to entry `last`: the
last line is left early. -/
def trim (last bytes total : Nat) : Nat :=
  min (if last = coreLineCount d req - 1 then bytes - skip d req else bytes) (req.bytes - total)

/-- One round of an outer loop that makes a transfer, from entry `i` with
`total` bytes behind it. Zero stands for no carried address. -/
def ioRound (dir : Dir) (i total addrNext : Nat) : Round :=
  let addr := if addrNext ≠ 0 then addrNext else lineAddr d req i
  let addr := addr + firstByte d req i
  let bytes := d.lineSize - firstByte d req i
  let run := joinLines d req (coreLineCount d req) i addr bytes addrNext
  ⟨run.1, run.2.2, ⟨dir, addr, trim d req run.1 run.2.1 total, req.offset + total⟩⟩

/-- The outer loop of `ocf_engine_forward_cache_io_req`; no result when an
assertion fails. -/
def forwardLoop (dir : Dir) : Nat → Nat → Nat → Nat → Option (List CacheIo)
  | 0, _, _, _ => none
  | fuel + 1, i, total, addrNext =>
    if i < coreLineCount d req then
      let r := ioRound d req dir i total addrNext
      if r.io.bytes = 0 then none
      else (forwardLoop dir fuel (r.last + 1) (total + r.io.bytes) r.addrNext).map (r.io :: ·)
    else if total ≠ req.bytes then none
    else some []

/-- `ocf_engine_forward_cache_io_req`. -/
def ocfEngineForwardCacheIoReq (dir : Dir) : Option (List CacheIo) :=
  if ocfEngineIsSequential d req then some [sequentialIo d req dir]
  else forwardLoop d req dir (coreLineCount d req + 1) 0 0 0

/-- The outer loop of `_ocf_backfill_do`: a transfer that would start with a
hit is left out. -/
def backfillLoop : Nat → Nat → Nat → Nat → List CacheIo
  | 0, _, _, _ => []
  | fuel + 1, i, total, addrNext =>
    if i < coreLineCount d req then
      if (req.map i).status = .hit then
        backfillLoop fuel (i + 1) (total + (d.lineSize - firstByte d req i)) 0
      else
        let r := ioRound d req .write i total addrNext
        r.io :: backfillLoop fuel (r.last + 1) (total + r.io.bytes) r.addrNext
    else []

/-- `_ocf_backfill_do`. -/
def ocfBackfillDo : Except Error (List CacheIo) :=
  if req.cpData = false then .error .noMem
  else if ocfEngineIsSequential d req then .ok [sequentialIo d req .write]
  else .ok (backfillLoop d req (coreLineCount d req) 0 0 0)

/-- Byte of the cache device that byte `o` of the request goes to. -/
def targetByte (o : Nat) : Nat :=
  d.metadataOffset + (req.map ((req.addr % d.lineSize + o) / d.lineSize)).collIdx * d.lineSize +
    (req.addr + o) % d.lineSize

/-- The lines of entries `i` to `j` are neighbours on the cache device. -/
def LinesContiguous (i j : Nat) : Prop :=
  ∀ k, i ≤ k → k ≤ j → (req.map k).collIdx = (req.map i).collIdx + (k - i)

/-- The transfers cut the data from `start` to `stop` in their order. -/
def InOrder : Nat → Nat → List CacheIo → Prop
  | start, stop, [] => start = stop
  | start, stop, io :: ios => io.offset = start ∧ InOrder (start + io.bytes) stop ios

/-- Every byte of a transfer is a byte of the request at its own place. -/
def Placed (io : CacheIo) : Prop :=
  ∀ t < io.bytes, ∃ o < req.bytes, io.offset + t = req.offset + o ∧
    io.addr + t = targetByte d req o

/-- The device in the form of the block model, one byte for each block. -/
def Device.geometry : Geometry := ⟨d.lineSize, d.lineSize_pos, 0, 0, d.metadataOffset⟩

/-- The request in the form of the block model. -/
def IoRequest.view : Request :=
  ⟨0, req.addr, req.bytes, .read, 0, req.map, req.info⟩

variable {d req}

theorem coreLineCount_view : req.view.coreLineCount d.geometry = coreLineCount d req := by
  unfold coreLineCount Request.coreLineCount Request.coreLineLast Request.coreLineFirst
  by_cases h : 0 < req.bytes
  · have hview : 0 < req.view.blocks := h
    rw [if_pos h, if_pos hview]
    rfl
  · have hview : ¬ 0 < req.view.blocks := h
    rw [if_neg h, if_neg hview, Nat.sub_self]

theorem lineAddr_view (i : Nat) :
    EngineIo.lineAddr d.geometry (req.view.map i).collIdx = lineAddr d req i := by
  simp only [EngineIo.lineAddr, lineAddr, Device.geometry, IoRequest.view]
  omega

theorem targetByte_view (o : Nat) :
    targetByte d req o = EngineIo.targetBlock d.geometry req.view o := by
  simp [targetByte, EngineIo.targetBlock, EngineIo.lineAddr, EngineIo.seek, Device.geometry,
    IoRequest.view]

theorem LinesContiguous.view {i j : Nat} (h : LinesContiguous req i j) :
    EngineIo.Contiguous d.geometry req.view i j := by
  intro k hik hkj
  have hk : (req.map k).collIdx = (req.map i).collIdx + (k - i) := h k hik hkj
  simp only [EngineIo.lineAddr, IoRequest.view, hk, Nat.add_mul, Device.geometry]
  omega

theorem coreLineCount_pos : 0 < coreLineCount d req := by
  unfold coreLineCount
  split <;> omega

theorem firstByte_lt (i : Nat) : firstByte d req i < d.lineSize := by
  unfold firstByte
  split
  · exact Nat.mod_lt _ d.lineSize_pos
  · exact d.lineSize_pos

/-- Contiguous lines are joined. -/
theorem joinLines_spec (fuel i addr bytes addrNext : Nat) {i₀ : Nat} (hi₀ : i₀ ≤ i)
    (hi : i < coreLineCount d req) (hfuel : coreLineCount d req ≤ i + fuel + 1)
    (hlen : addr + bytes = lineAddr d req i₀ + (i - i₀ + 1) * d.lineSize)
    (hc : EngineIo.Contiguous d.geometry req.view i₀ i) :
    ∃ j next, i ≤ j ∧ j < coreLineCount d req ∧ EngineIo.Contiguous d.geometry req.view i₀ j ∧
      joinLines d req fuel i addr bytes addrNext = (j, bytes + (j - i) * d.lineSize, next) ∧
      (j + 1 < coreLineCount d req → next = lineAddr d req (j + 1)) := by
  induction fuel generalizing i bytes addrNext with
  | zero => exact ⟨i, addrNext, le_rfl, hi, hc, by simp [joinLines], fun h => by omega⟩
  | succ fuel ih =>
    rw [joinLines]
    by_cases hlast : i < coreLineCount d req - 1
    · rw [if_pos hlast]
      by_cases hnext : lineAddr d req (i + 1) = addr + bytes
      · have hsub : i + 1 - i₀ = i - i₀ + 1 := by omega
        have hc' : EngineIo.Contiguous d.geometry req.view i₀ (i + 1) := by
          intro k hk hk'
          by_cases hki : k ≤ i
          · exact hc k hk hki
          · have hk1 : k = i + 1 := by omega
            have hline : EngineIo.lineAddr d.geometry (req.view.map i₀).collIdx +
                (i - i₀ + 1) * d.geometry.lineBlocks = lineAddr d req (i + 1) := by
              rw [lineAddr_view, hnext, hlen]
              rfl
            rw [hk1, hsub, hline, lineAddr_view]
        have hlen' : addr + (bytes + d.lineSize) =
            lineAddr d req i₀ + (i + 1 - i₀ + 1) * d.lineSize := by
          rw [hsub, Nat.add_mul (i - i₀ + 1)]
          omega
        obtain ⟨j, next, hij, hj, hcj, hrun, hcarry⟩ := ih (i + 1) (bytes + d.lineSize)
          (lineAddr d req (i + 1)) (by omega) (by omega) (by omega) hlen' hc'
        refine ⟨j, next, by omega, hj, hcj, ?_, hcarry⟩
        have hji : j - i = j - (i + 1) + 1 := by omega
        have hsum : bytes + (j - i) * d.lineSize =
            bytes + d.lineSize + (j - (i + 1)) * d.lineSize := by
          rw [hji, Nat.add_mul]
          omega
        rw [if_neg (not_not.mpr hnext), hrun, hsum]
      · rw [if_pos hnext]
        exact ⟨i, lineAddr d req (i + 1), le_rfl, hi, hc, by simp, fun _ => rfl⟩
    · rw [if_neg hlast]
      exact ⟨i, addrNext, le_rfl, hi, hc, by simp, fun h => by omega⟩

/-- State of an outer loop in front of entry `i`: the bytes behind it end
where the entry starts, and a carried address is that of the entry. -/
structure LoopAt (d : Device) (req : IoRequest) (i total addrNext : Nat) : Prop where
  /-- The bytes behind the loop. -/
  behind : i < coreLineCount d req → seek d req + total = i * d.lineSize + firstByte d req i
  /-- The carried address. -/
  carried : i < coreLineCount d req → addrNext = 0 ∨ addrNext = lineAddr d req i
  /-- At the end all bytes are behind the loop. -/
  done : coreLineCount d req ≤ i → req.bytes ≤ total

theorem LoopAt.start : LoopAt d req 0 0 0 where
  behind _ := by simp [firstByte]
  carried _ := .inl rfl
  done h := by
    have hpos : 0 < coreLineCount d req := coreLineCount_pos
    omega

theorem LoopAt.total_lt {i total addrNext : Nat} (h : LoopAt d req i total addrNext)
    (hbytes : 0 < req.bytes) (hi : i < coreLineCount d req) : total < req.bytes := by
  have hbehind := h.behind hi
  unfold firstByte at hbehind
  by_cases h0 : i = 0
  · rw [if_pos h0, h0] at hbehind
    omega
  · have hline : i - 1 + 1 < req.view.coreLineCount d.geometry := by
      rw [coreLineCount_view]
      omega
    have hfull := @EngineIo.full_lines_lt d.geometry req.view hbytes _ hline
    have hi1 : i - 1 + 1 = i := by omega
    rw [hi1] at hfull
    rw [if_neg h0] at hbehind
    have hview : i * d.lineSize < seek d req + req.bytes := hfull
    omega

/-- What a round does: its transfer starts where the bytes behind the loop
end, is not empty and is placed, and the loop goes on behind it. -/
structure RoundDone (d : Device) (req : IoRequest) (dir : Dir) (i total : Nat) (r : Round) :
    Prop where
  /-- The round takes at least its own entry. -/
  le_last : i ≤ r.last
  /-- The round ends within the map. -/
  last_lt : r.last < coreLineCount d req
  /-- The direction is that of the request. -/
  dir_eq : r.io.dir = dir
  /-- The transfer starts behind the bytes of the earlier rounds. -/
  offset_eq : r.io.offset = req.offset + total
  /-- The transfer has a byte. -/
  nonempty : 0 < r.io.bytes
  /-- The transfer stays in the request. -/
  inside : total + r.io.bytes ≤ req.bytes
  /-- The transfer goes to the right bytes. -/
  placed : Placed d req r.io
  /-- State in front of the next round. -/
  next : LoopAt d req (r.last + 1) (total + r.io.bytes) r.addrNext

theorem trim_spec {i j total : Nat} (hbytes : 0 < req.bytes) (hij : i ≤ j)
    (hj : j < coreLineCount d req) (hc : EngineIo.Contiguous d.geometry req.view i j)
    (htotal : total < req.bytes)
    (hbehind : seek d req + total = i * d.lineSize + firstByte d req i) {len : Nat}
    (hlen : len = trim d req j (d.lineSize - firstByte d req i + (j - i) * d.lineSize) total) :
    (∀ t < len, total + t < req.bytes ∧
        lineAddr d req i + firstByte d req i + t = targetByte d req (total + t)) ∧
      (j + 1 < coreLineCount d req → seek d req + (total + len) = (j + 1) * d.lineSize) ∧
      (j + 1 = coreLineCount d req → total + len = req.bytes) := by
  have hpiece := @EngineIo.piece_spec d.geometry req.view hbytes _ _ _ _ hij
    (by rw [coreLineCount_view]; exact hj) hc (firstByte_lt i) htotal hbehind
  rw [coreLineCount_view, lineAddr_view] at hpiece
  obtain ⟨hplaced, hmore, hend⟩ := hpiece
  refine ⟨fun t ht => ?_, fun h => ?_, fun h => ?_⟩
  · have hblock := hplaced t (by rw [hlen] at ht; exact ht)
    rw [targetByte_view]
    exact hblock
  · rw [hlen]
    exact hmore h
  · rw [hlen]
    exact hend h

/-- One round of the loop over the lines. -/
theorem ioRound_spec (dir : Dir) {i total addrNext : Nat} (hbytes : 0 < req.bytes)
    (hi : i < coreLineCount d req) (h : LoopAt d req i total addrNext) :
    RoundDone d req dir i total (ioRound d req dir i total addrNext) := by
  have hfirst : firstByte d req i < d.lineSize := firstByte_lt i
  have hbehind := h.behind hi
  have htotal := h.total_lt hbytes hi
  have haddr : (if addrNext ≠ 0 then addrNext else lineAddr d req i) = lineAddr d req i := by
    split
    · exact (h.carried hi).resolve_left (by assumption)
    · rfl
  have hrunlen : lineAddr d req i + firstByte d req i + (d.lineSize - firstByte d req i) =
      lineAddr d req i + (i - i + 1) * d.lineSize := by
    rw [Nat.sub_self, Nat.zero_add, Nat.one_mul]
    omega
  obtain ⟨j, next, hij, hj, hcontig, hrun, hcarry⟩ := @joinLines_spec d req
    (coreLineCount d req) i (lineAddr d req i + firstByte d req i)
    (d.lineSize - firstByte d req i) addrNext i le_rfl hi (by omega) hrunlen
    (EngineIo.Contiguous.refl i)
  unfold ioRound
  simp only [haddr, hrun]
  generalize hlen : trim d req j (d.lineSize - firstByte d req i + (j - i) * d.lineSize) total
    = len
  obtain ⟨hplaced, hmore, hend⟩ :=
    trim_spec hbytes hij hj hcontig htotal hbehind hlen.symm
  have hinside : len ≤ req.bytes - total := by
    rw [← hlen]
    exact Nat.min_le_right ..
  have hlen_pos : 0 < len := by
    by_cases hlast : j + 1 < coreLineCount d req
    · have hnext := hmore hlast
      have hmul : (i + 1) * d.lineSize ≤ (j + 1) * d.lineSize :=
        Nat.mul_le_mul_right _ (by omega)
      rw [Nat.add_mul] at hmul
      omega
    · have hall := hend (by omega)
      omega
  exact {
    le_last := hij
    last_lt := hj
    dir_eq := rfl
    offset_eq := rfl
    nonempty := hlen_pos
    inside := by simp only; omega
    placed := by
      intro t ht
      obtain ⟨hin, heq⟩ := hplaced t ht
      refine ⟨total + t, hin, ?_, ?_⟩
      · simp only
        omega
      · exact heq
    next := {
      behind := by
        intro hlast
        have hzero : firstByte d req (j + 1) = 0 := if_neg (by omega)
        exact hmore hlast
      carried := fun hlast => .inr (hcarry hlast)
      done := by
        intro hlast
        have hall := hend (by simp only at hlast; omega)
        simp only
        omega } }

theorem forwardLoop_spec (dir : Dir) (hbytes : 0 < req.bytes) (fuel : Nat)
    {i total addrNext : Nat} (hfuel : coreLineCount d req < i + fuel)
    (hle : i ≤ coreLineCount d req) (htotal : total ≤ req.bytes) (h : LoopAt d req i total addrNext) :
    ∃ ios, forwardLoop d req dir fuel i total addrNext = some ios ∧
      InOrder (req.offset + total) (req.offset + req.bytes) ios ∧
      ∀ io ∈ ios, io.dir = dir ∧ (0 < req.bytes → 0 < io.bytes) ∧ Placed d req io := by
  induction fuel generalizing i total addrNext with
  | zero =>
    refine absurd hfuel ?_
    omega
  | succ fuel ih =>
    rw [forwardLoop]
    by_cases hi : i < coreLineCount d req
    · rw [if_pos hi]
      have hround := ioRound_spec dir hbytes hi h
      generalize ioRound d req dir i total addrNext = r at hround ⊢
      have hlast := hround.le_last
      have hlt := hround.last_lt
      obtain ⟨ios, hloop, horder, hall⟩ := ih (by omega) hlt hround.inside hround.next
      refine ⟨r.io :: ios, ?_, ⟨hround.offset_eq, ?_⟩, fun io hio => ?_⟩
      · rw [if_neg hround.nonempty.ne', hloop]
        rfl
      · rw [Nat.add_assoc]
        exact horder
      · rcases List.mem_cons.mp hio with rfl | hio
        · exact ⟨hround.dir_eq, fun _ => hround.nonempty, hround.placed⟩
        · exact hall io hio
    · have hdone := h.done (by omega)
      have heq : total = req.bytes := by omega
      rw [if_neg hi, if_neg (not_not.mpr heq)]
      refine ⟨[], rfl, ?_, by simp⟩
      rw [InOrder, heq]

/-- A cache device with lines of 4096 bytes. -/
def smallDevice : Device := ⟨4096, Nat.succ_pos 4095, 65536⟩

end OcfCache.ForwardIo
