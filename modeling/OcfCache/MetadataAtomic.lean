import Mathlib.Tactic.Ring
import OcfCache.ConsecutiveRuns
import OcfCache.Constants
import OcfCache.ForwardTokens

/-!
# Atomic flush of the metadata

Embedding of `raw_atomic_flush_mark` and `raw_atomic_flush_do_asynch` and of the
ranges that `ocf_purge_map_info` marks. Invalidated sectors are discarded: those of
the first and of the last line one range at a time, whole lines sorted and joined.
Lengths have 32 bits. Addresses are numbers: the device ends below `2 ^ 64`.
-/

namespace OcfCache.MetadataAtomic

open ConsecutiveRuns ForwardTokens
open List (countP_append countP_cons length_map map_cons mem_cons_of_mem mem_cons_self mem_map)

/-- `INVALID`, a state to which sectors go. -/
def invalid : Int := 0

/-- The cache device. -/
structure Device where
  /-- `ocf_line_blocks`. -/
  lineBlocks : Nat
  /-- `OCF_BLOCK_SIZE`. -/
  blockSize : Nat
  /-- `metadata_offset`. -/
  metadataOffset : Nat
  /-- `discard_zeroes`. -/
  discardZeroes : Bool
  /-- A block is a sector, or a page with `OCF_BLOCK_SIZE_4K`. -/
  blockSize_cases : blockSize = 512 ∨ blockSize = 4096
  /-- A line has blocks. -/
  lineBlocks_pos : 0 < lineBlocks
  /-- Lines have at most 64 KiB. -/
  lineSize_le : lineBlocks * blockSize ≤ 2 ^ 16
  /-- The size of a line is a power of two. -/
  lineSize_dvd : lineBlocks * blockSize ∣ 2 ^ 32

/-- `ocf_line_size`. -/
def Device.lineSize (d : Device) : Nat := d.lineBlocks * d.blockSize

/-- `ocf_line_end_block`. -/
def Device.lineEndBlock (d : Device) : Nat := d.lineBlocks - 1

/-- An entry of the map of a request. -/
structure MapInfo where
  /-- `coll_idx`. -/
  collIdx : Nat
  /-- The status is `LOOKUP_MISS`. -/
  miss : Bool
  /-- `flush`. -/
  flush : Bool
  /-- `start_flush`. -/
  startFlush : Nat
  /-- `stop_flush`. -/
  stopFlush : Nat

/-- A request. -/
structure Req where
  /-- `addr`. -/
  addr : Nat
  /-- `bytes`. -/
  bytes : Nat
  /-- `map`, with `core_line_count` entries. -/
  map : List MapInfo
  /-- `info.flush_metadata`. -/
  flushMetadata : Bool

/-- `addr + bytes - 1`, with 64 bits. -/
def lastByte (addr bytes : Nat) : Nat := (addr + bytes + (2 ^ 64 - 1)) % 2 ^ 64

/-- `core_line_count` of a new request: lines have 64 bits and their count has 32. -/
def coreLineCount (d : Device) (addr bytes : Nat) : Nat :=
  if bytes = 0 then 1
  else (lastByte addr bytes / d.lineSize + (2 ^ 64 - addr / d.lineSize) + 1) % 2 ^ 64 % 2 ^ 32

/-- A request whose map was looked up and not yet marked. -/
structure Request (d : Device) extends Req where
  /-- The address has 64 bits. -/
  addr_lt : addr < 2 ^ 64
  /-- The length has 32 bits. -/
  bytes_lt : bytes < 2 ^ 32
  /-- There is an entry for each core line. -/
  map_length : map.length = coreLineCount d addr bytes
  /-- Nothing is marked. -/
  cleared : ∀ m ∈ map, m.flush = false
  /-- Lines have numbers below the number of lines, which has 32 bits. -/
  line_lt : ∀ m ∈ map, m.miss = false → m.collIdx + 1 < 2 ^ 32

/-- `raw_atomic_flush_mark` of an entry. -/
def rawAtomicFlushMark (m : MapInfo) (flushMetadata : Bool) (toState : Int) (start stop : Nat) : MapInfo × Bool :=
  if toState = invalid then ({ m with flush := true, startFlush := start, stopFlush := stop }, true)
  else (m, flushMetadata)

section Purge

variable (d : Device) (addr bytes count : Nat) (marked : Nat → Bool)

/-- `start_bit` of `ocf_purge_map_info`. -/
def startBit (i : Nat) : Nat := if i = 0 then addr / d.blockSize % d.lineBlocks else 0

/-- `end_bit` of `ocf_purge_map_info`. -/
def endBit (i : Nat) : Nat :=
  if i + 1 = count then lastByte addr bytes / d.blockSize % d.lineBlocks else d.lineEndBlock

/-- An iteration of `ocf_purge_map_info`; `marked` are the entries for which it marks the range. -/
def purgeStep (i : Nat) (m : MapInfo) (flushMetadata : Bool) : MapInfo × Bool :=
  if m.miss then (m, flushMetadata)
  else if marked i then rawAtomicFlushMark m flushMetadata invalid (startBit d addr i) (endBit d addr bytes count i)
  else (m, flushMetadata)

/-- The loop of `ocf_purge_map_info`. -/
def purgeLoop : Nat → List MapInfo → Bool → List MapInfo × Bool
  | _, [], flushMetadata => ([], flushMetadata)
  | i, m :: ms, flushMetadata =>
    let step := purgeStep d addr bytes count marked i m flushMetadata
    let rest := purgeLoop (i + 1) ms step.2
    (step.1 :: rest.1, rest.2)

end Purge

/-- `ocf_purge_map_info`. -/
def ocfPurgeMapInfo (d : Device) (marked : Nat → Bool) (req : Req) : Req :=
  let r := purgeLoop d req.addr req.bytes req.map.length marked 0 req.map req.flushMetadata
  { req with map := r.1, flushMetadata := r.2 }

/-- An operation on the cache device. -/
structure Piece where
  /-- It is a discard; otherwise it writes zeros. -/
  discard : Bool
  /-- `start_addr`. -/
  addr : Nat
  /-- `len`. -/
  len : Nat

/-- What a flush does. -/
structure Flush where
  /-- Operations, in the order in which they are forwarded. -/
  pieces : List Piece
  /-- What is done with the token of the request. -/
  ops : List Op
  /-- Errors with which `complete` is called at once. -/
  completes : List Int
  /-- The value that is returned. -/
  result : Int

section Code

/- Lengths are computed modulo `modulus`, which is `2 ^ 32` in the code. -/
variable (d : Device) (modulus : Nat)

/-- `_raw_atomic_io_discard_do`. -/
def rawAtomicIoDiscardDo (addr len : Nat) : Piece := ⟨d.discardZeroes, addr, len⟩

/-- `_raw_atomic_flush_do_asynch_sec`. -/
def rawAtomicFlushDoAsynchSec (m : MapInfo) : Piece :=
  let start := m.collIdx * d.lineSize + d.metadataOffset + m.startFlush * d.blockSize
  let len := ((m.stopFlush : Int) - m.startFlush) * d.blockSize + d.blockSize
  rawAtomicIoDiscardDo d start (len % modulus).toNat

/-- Entry `i` of `count` is flushed alone, or its line is added to the table; `rest` is what
is done with the entries that follow. -/
def mapStep (count i : Nat) (m : MapInfo) (rest : List Piece × List Nat) : List Piece × List Nat :=
  if !m.flush || m.miss then rest
  else if i = 0 then
    if m.startFlush ≠ 0 then (rawAtomicFlushDoAsynchSec d modulus m :: rest.1, rest.2)
    else (rest.1, m.collIdx :: rest.2)
  else if i + 1 = count then
    if m.stopFlush ≠ d.lineEndBlock then (rawAtomicFlushDoAsynchSec d modulus m :: rest.1, rest.2)
    else (rest.1, m.collIdx :: rest.2)
  else (rest.1, m.collIdx :: rest.2)

/-- The loop over the map. -/
def mapLoop (count : Nat) : Nat → List MapInfo → List Piece × List Nat
  | _, [] => ([], [])
  | i, m :: ms => mapStep d modulus count i m (mapLoop count (i + 1) ms)

/-- The loops over the table: `line` was joined to a range that begins at `start`. -/
def tableLoop (start len line : Nat) : List Nat → List Piece
  | [] => [rawAtomicIoDiscardDo d start len]
  | next :: rest =>
    if (line + 1) % 2 ^ 32 = next then tableLoop start ((len + d.lineSize) % modulus) next rest
    else rawAtomicIoDiscardDo d start len :: tableLoop (next * d.lineSize + d.metadataOffset) d.lineSize next rest

/-- The ranges of a sorted table. -/
def tablePieces : List Nat → List Piece
  | [] => []
  | line :: rest => tableLoop d modulus (line * d.lineSize + d.metadataOffset) d.lineSize line rest

/-- The operations for a map of several lines. -/
def mapPieces (map : List MapInfo) : List Piece :=
  let r := mapLoop d modulus map.length 0 map
  r.1 ++ tablePieces d modulus r.2.mergeSort

/-- `raw_atomic_flush_do_asynch`; `alloc` says whether its allocation succeeds. -/
def rawAtomicFlushDoAsynch (alloc : Bool) (req : Req) : Flush :=
  if req.flushMetadata = false then ⟨[], [], [0], 0⟩
  else match req.map with
    | [m] =>
      if m.flush && !m.miss then ⟨[rawAtomicFlushDoAsynchSec d modulus m], [.forward], [], 0⟩
      else ⟨[], [], [0], 0⟩
    | map =>
      if map.length ≤ maxStackTabSize ∨ alloc then
        let pieces := mapPieces d modulus map
        ⟨pieces, .hold :: forwards pieces.length 0, [], 0⟩
      else ⟨[], [], [errNoMem], errNoMem⟩

end Code

/-- A byte of the device lies in the range of an operation. -/
def Piece.Covers (b : Nat) (p : Piece) : Prop := p.addr ≤ b ∧ b < p.addr + p.len

instance (b : Nat) (p : Piece) : Decidable (p.Covers b) := inferInstanceAs (Decidable (_ ∧ _))

/-- A byte of the device lies in the marked sectors of a mapped line. -/
def MapInfo.Marks (d : Device) (b : Nat) (m : MapInfo) : Prop :=
  (m.flush = true ∧ m.miss = false) ∧
    d.metadataOffset + m.collIdx * d.lineSize + m.startFlush * d.blockSize ≤ b ∧
    b < d.metadataOffset + m.collIdx * d.lineSize + (m.stopFlush + 1) * d.blockSize

instance (d : Device) (b : Nat) (m : MapInfo) : Decidable (m.Marks d b) := inferInstanceAs (Decidable (_ ∧ _))

/-- The table of lines cannot be allocated. -/
def AllocFails (alloc : Bool) (req : Req) : Prop :=
  req.flushMetadata = true ∧ maxStackTabSize < req.map.length ∧ alloc = false

/-- A flush discards the marked sectors and completes. -/
structure Correct (d : Device) (alloc : Bool) (req : Req) : Prop where
  /-- Each byte is discarded as often as it is marked. -/
  covers : ¬AllocFails alloc req → ∀ b,
    (rawAtomicFlushDoAsynch d (2 ^ 32) alloc req).pieces.countP (Piece.Covers b) = req.map.countP (MapInfo.Marks d b)
  /-- Nothing is discarded if the allocation fails. -/
  nothing : AllocFails alloc req → (rawAtomicFlushDoAsynch d (2 ^ 32) alloc req).pieces = []
  /-- The lengths are those without a bound. -/
  noOverflow : (rawAtomicFlushDoAsynch d (2 ^ 32) alloc req).pieces = (rawAtomicFlushDoAsynch d 0 alloc req).pieces
  /-- Whatever the order in which the operations end, `complete` is called once, with an
  error if and only if the allocation or an operation failed. -/
  completes : ∀ h, History (rawAtomicFlushDoAsynch d (2 ^ 32) alloc req).ops 0 h → ∃ e,
    (rawAtomicFlushDoAsynch d (2 ^ 32) alloc req).completes ++ (Token.run ⟨0, 0, []⟩ h).calls = [e] ∧
      (e ≠ 0 ↔ AllocFails alloc req ∨ ∃ s ∈ h, s.error ≠ 0)

/-- A mapped line all sectors of which are marked. -/
def MapInfo.Whole (d : Device) (m : MapInfo) : Prop :=
  (m.flush = true ∧ m.miss = false) ∧ m.startFlush = 0 ∧ m.stopFlush = d.lineEndBlock

instance (d : Device) (m : MapInfo) : Decidable (m.Whole d) := inferInstanceAs (Decidable (_ ∧ _))

/-- Lines all sectors of which are marked. -/
def wholeLines (d : Device) (req : Req) : List Nat := (req.map.filter (MapInfo.Whole d)).map MapInfo.collIdx

/-- Sorted, the wholly marked lines have consecutive ones with `2 ^ 32` bytes or more. -/
def LongRun (d : Device) (req : Req) : Prop :=
  ∃ first n, 2 ^ 32 ≤ n * d.lineSize ∧ List.range' first n <:+: (wholeLines d req).mergeSort

section Device

variable (d : Device)

theorem Device.blockSize_pos : 0 < d.blockSize := by
  cases d.blockSize_cases with
  | inl h => omega
  | inr h => omega

theorem Device.lineSize_pos : 0 < d.lineSize := Nat.mul_pos d.lineBlocks_pos d.blockSize_pos

theorem Device.lineSize_lt : d.lineSize < 2 ^ 32 := by
  have hle : d.lineSize ≤ 2 ^ 16 := d.lineSize_le
  omega

theorem lastByte_block {addr bytes : Nat} (hbytes : 0 < bytes) :
    lastByte addr bytes / d.blockSize % d.lineBlocks = (addr + bytes - 1) / d.blockSize % d.lineBlocks := by
  obtain ⟨k, hk⟩ := d.lineSize_dvd
  have hpow : 2 ^ 64 = d.blockSize * (d.lineBlocks * (k * 2 ^ 32)) := by
    calc 2 ^ 64 = 2 ^ 32 * 2 ^ 32 := Nat.pow_add 2 32 32
      _ = d.lineBlocks * d.blockSize * k * 2 ^ 32 := by rw [← hk]
      _ = d.blockSize * (d.lineBlocks * (k * 2 ^ 32)) := by ring
  have hlast : lastByte addr bytes = (addr + bytes - 1) % 2 ^ 64 := by
    unfold lastByte
    omega
  rw [hlast, hpow, Nat.mod_mul_right_div_self, Nat.mod_mul_right_mod]

theorem coreLineCount_eq {addr bytes : Nat} (hbytes : 0 < bytes) (haddr : addr < 2 ^ 64) (hlt : bytes < 2 ^ 32) :
    coreLineCount d addr bytes = (addr + bytes - 1) / d.lineSize - addr / d.lineSize + 1 := by
  obtain ⟨k, hk⟩ := d.lineSize_dvd
  have hpow : 2 ^ 64 = d.lineSize * (2 ^ 32 * k) := by
    calc 2 ^ 64 = 2 ^ 32 * 2 ^ 32 := Nat.pow_add 2 32 32
      _ = d.lineBlocks * d.blockSize * k * 2 ^ 32 := by rw [← hk]
      _ = d.lineSize * (2 ^ 32 * k) := by unfold Device.lineSize; ring
  have hlast : lastByte addr bytes = (addr + bytes - 1) % 2 ^ 64 := by
    unfold lastByte
    omega
  have hline : lastByte addr bytes / d.lineSize % 2 ^ 32 = (addr + bytes - 1) / d.lineSize % 2 ^ 32 := by
    rw [hlast, hpow, Nat.mod_mul_right_div_self, Nat.mod_mul_right_mod]
  have hle : addr / d.lineSize ≤ (addr + bytes - 1) / d.lineSize := Nat.div_le_div_right (by omega)
  have hfirst : addr / d.lineSize ≤ addr := Nat.div_le_self addr d.lineSize
  have hspan : (addr + bytes - 1) / d.lineSize ≤ addr / d.lineSize + ((bytes - 1) / d.lineSize + 1) := by
    have hsplit := Nat.add_div d.lineSize_pos (a := addr) (b := bytes - 1)
    have hsum : addr + (bytes - 1) = addr + bytes - 1 := by omega
    rw [hsum] at hsplit
    by_cases hcarry : d.lineSize ≤ addr % d.lineSize + (bytes - 1) % d.lineSize
    · rw [if_pos hcarry] at hsplit
      omega
    · rw [if_neg hcarry] at hsplit
      omega
  have hsmall : (bytes - 1) / d.lineSize ≤ (bytes - 1) / 512 := by
    have hsector : 512 ≤ d.lineSize := by
      have hblock : d.blockSize ≤ d.lineSize := Nat.le_mul_of_pos_left d.blockSize d.lineBlocks_pos
      cases d.blockSize_cases with
      | inl h => omega
      | inr h => omega
    exact Nat.div_le_div_left hsector (Nat.succ_pos 511)
  unfold coreLineCount
  rw [if_neg (Nat.pos_iff_ne_zero.mp hbytes)]
  omega

theorem single_le {addr bytes : Nat} (haddr : addr < 2 ^ 64) (hlt : bytes < 2 ^ 32) (hcount : coreLineCount d addr bytes = 1) :
    addr / d.blockSize % d.lineBlocks ≤ lastByte addr bytes / d.blockSize % d.lineBlocks + 1 := by
  by_cases hbytes : 0 < bytes
  · rw [coreLineCount_eq d hbytes haddr hlt] at hcount
    have hle : addr / d.lineSize ≤ (addr + bytes - 1) / d.lineSize := Nat.div_le_div_right (by omega)
    have hline : (addr + bytes - 1) / d.blockSize / d.lineBlocks = addr / d.blockSize / d.lineBlocks := by
      rw [Nat.div_div_eq_div_mul, Nat.div_div_eq_div_mul, Nat.mul_comm]
      change (addr + bytes - 1) / d.lineSize = addr / d.lineSize
      omega
    have hblock : addr / d.blockSize ≤ (addr + bytes - 1) / d.blockSize := Nat.div_le_div_right (by omega)
    have hfirst := Nat.div_add_mod (addr / d.blockSize) d.lineBlocks
    have hlast := Nat.div_add_mod ((addr + bytes - 1) / d.blockSize) d.lineBlocks
    rw [hline] at hlast
    rw [lastByte_block d hbytes]
    omega
  · -- The last byte of an empty request is the one before it.
    have hzero : bytes = 0 := Nat.eq_zero_of_not_pos hbytes
    rw [hzero]
    by_cases haddr0 : addr = 0
    · rw [haddr0, Nat.zero_div, Nat.zero_mod]
      exact Nat.zero_le _
    · have hlast : lastByte addr 0 = addr - 1 := by
        unfold lastByte
        omega
      have hblock : addr / d.blockSize ≤ (addr - 1) / d.blockSize + 1 := by
        have hup : addr ≤ addr - 1 + d.blockSize := by
          have hpos := d.blockSize_pos
          omega
        calc addr / d.blockSize ≤ (addr - 1 + d.blockSize) / d.blockSize := Nat.div_le_div_right hup
          _ = (addr - 1) / d.blockSize + 1 := Nat.add_div_right _ d.blockSize_pos
      have hge : (addr - 1) / d.blockSize ≤ addr / d.blockSize := Nat.div_le_div_right (Nat.sub_le addr 1)
      have hsucc : ((addr - 1) / d.blockSize + 1) % d.lineBlocks ≤ (addr - 1) / d.blockSize % d.lineBlocks + 1 := by
        rw [← Nat.mod_add_mod]
        exact Nat.mod_le _ _
      rw [hlast]
      by_cases hsame : addr / d.blockSize = (addr - 1) / d.blockSize
      · rw [hsame]
        exact Nat.le_succ _
      · have hnext : addr / d.blockSize = (addr - 1) / d.blockSize + 1 := by omega
        rw [hnext]
        exact hsucc

end Device

/-- A property of the entries of a map that are at and after an index. -/
def Each (P : Nat → MapInfo → Prop) : Nat → List MapInfo → Prop
  | _, [] => True
  | i, m :: ms => P i m ∧ Each P (i + 1) ms

/-- A marked entry has a range in order, which is partial only at the edges of the request. -/
structure Ordered (d : Device) (count i : Nat) (m : MapInfo) : Prop where
  /-- The first sector is not after the one that follows the last. -/
  le : m.startFlush ≤ m.stopFlush + 1
  /-- The last sector is one of the line. -/
  lt : m.stopFlush < d.lineBlocks
  /-- Only the first entry begins inside of its line. -/
  start : i ≠ 0 → m.startFlush = 0
  /-- Only the last entry ends inside of its line. -/
  stop : i + 1 ≠ count → m.stopFlush = d.lineEndBlock

/-- What a request of `count` lines has in its map after the ranges are marked. -/
structure Shaped (d : Device) (count i : Nat) (m : MapInfo) : Prop where
  /-- Marked entries have ranges in order. -/
  ordered : m.flush = true → Ordered d count i m
  /-- Mapped lines have numbers below the number of lines. -/
  line_lt : m.miss = false → m.collIdx + 1 < 2 ^ 32

variable {m : MapInfo} {i : Nat} {ms : List MapInfo}

section Purge

variable (d : Device)

theorem ordered_range {r : Request d} (hstart : m.startFlush = startBit d r.addr i)
    (hstop : m.stopFlush = endBit d r.addr r.bytes r.map.length i) : Ordered d r.map.length i m where
  le := by
    have hpos := d.lineBlocks_pos
    rw [hstart, hstop]
    unfold startBit endBit
    by_cases hfirst : i = 0
    · rw [if_pos hfirst]
      by_cases hlast : i + 1 = r.map.length
      · rw [if_pos hlast]
        have hcount : coreLineCount d r.addr r.bytes = 1 := by rw [← r.map_length, ← hlast, hfirst]
        exact single_le d r.addr_lt r.bytes_lt hcount
      · rw [if_neg hlast, Device.lineEndBlock, Nat.sub_add_cancel hpos]
        exact Nat.le_of_lt (Nat.mod_lt _ hpos)
    · rw [if_neg hfirst]
      exact Nat.zero_le _
  lt := by
    have hpos := d.lineBlocks_pos
    rw [hstop]
    unfold endBit
    by_cases hlast : i + 1 = r.map.length
    · rw [if_pos hlast]
      exact Nat.mod_lt _ hpos
    · rw [if_neg hlast]
      exact Nat.sub_lt hpos Nat.one_pos
  start hfirst := by rw [hstart, startBit, if_neg hfirst]
  stop hlast := by rw [hstop, endBit, if_neg hlast]

variable (addr bytes count : Nat) (marked : Nat → Bool)

theorem length_purgeLoop (i : Nat) (ms : List MapInfo) (fm : Bool) :
    (purgeLoop d addr bytes count marked i ms fm).1.length = ms.length := by
  induction ms generalizing i fm with
  | nil => rfl
  | cons m ms ih => exact congrArg Nat.succ (ih (i + 1) _)

theorem purgeStep_cases (i : Nat) (m : MapInfo) (fm : Bool) :
    ∃ m' fm', purgeStep d addr bytes count marked i m fm = (m', fm') ∧ m'.collIdx = m.collIdx ∧ m'.miss = m.miss ∧
      (m' = m ∧ fm' = fm ∨
        m'.startFlush = startBit d addr i ∧ m'.stopFlush = endBit d addr bytes count i ∧ fm' = true) := by
  unfold purgeStep
  by_cases hmiss : m.miss = true
  · exact ⟨m, fm, if_pos hmiss, rfl, rfl, .inl ⟨rfl, rfl⟩⟩
  · rw [if_neg hmiss]
    by_cases hmarked : marked i = true
    · rw [if_pos hmarked]
      exact ⟨_, _, rfl, rfl, rfl, .inr ⟨rfl, rfl, rfl⟩⟩
    · exact ⟨m, fm, if_neg hmarked, rfl, rfl, .inl ⟨rfl, rfl⟩⟩

/-- `flush_metadata` stays set. -/
theorem purgeLoop_flushMetadata (i : Nat) (ms : List MapInfo) : (purgeLoop d addr bytes count marked i ms true).2 = true := by
  induction ms generalizing i with
  | nil => rfl
  | cons m ms ih =>
    obtain ⟨m', fm', heq, -, -, hcase⟩ := purgeStep_cases d addr bytes count marked i m true
    have hfm : fm' = true := by
      cases hcase with
      | inl h => exact h.2
      | inr h => exact h.2.2
    rw [purgeLoop, heq, hfm]
    exact ih (i + 1)

theorem purgeLoop_unmarked {fm : Bool} (hms : ∀ m ∈ ms, m.flush = false)
    (hfm : (purgeLoop d addr bytes count marked i ms fm).2 = false) :
    ∀ m ∈ (purgeLoop d addr bytes count marked i ms fm).1, m.flush = false := by
  induction ms generalizing i fm with
  | nil => exact fun m hm => absurd hm List.not_mem_nil
  | cons m ms ih =>
    obtain ⟨m', fm', heq, -, -, hcase⟩ := purgeStep_cases d addr bytes count marked i m fm
    rw [purgeLoop, heq] at hfm ⊢
    have hsame : m' = m := by
      cases hcase with
      | inl h => exact h.1
      | inr h =>
        rw [h.2.2] at hfm
        exact absurd hfm (by rw [purgeLoop_flushMetadata]; exact nofun)
    have hrest := ih (fun u hu => hms u (mem_cons_of_mem m hu)) hfm
    intro u hu
    cases List.mem_cons.mp hu with
    | inl h => rw [h, hsame]; exact hms m mem_cons_self
    | inr h => exact hrest u h

theorem purgeLoop_each {P : Nat → MapInfo → Prop} (fm : Bool) (hkeep : ∀ j, ∀ m ∈ ms, P j m)
    (hmark : ∀ j, ∀ m ∈ ms, ∀ m' : MapInfo, m'.collIdx = m.collIdx → m'.miss = m.miss →
      m'.startFlush = startBit d addr j → m'.stopFlush = endBit d addr bytes count j → P j m') :
    Each P i (purgeLoop d addr bytes count marked i ms fm).1 := by
  induction ms generalizing i fm with
  | nil => exact trivial
  | cons m ms ih =>
    obtain ⟨m', fm', heq, hcoll, hmiss, hcase⟩ := purgeStep_cases d addr bytes count marked i m fm
    rw [purgeLoop, heq]
    refine ⟨?_, ih fm' (fun j u hu => hkeep j u (mem_cons_of_mem m hu)) fun j u hu => hmark j u (mem_cons_of_mem m hu)⟩
    cases hcase with
    | inl h => rw [h.1]; exact hkeep i m mem_cons_self
    | inr h => exact hmark i m mem_cons_self m' hcoll hmiss h.1 h.2.1

end Purge

theorem purge_shaped (d : Device) (r : Request d) (marked : Nat → Bool) :
    Each (Shaped d r.map.length) 0 (ocfPurgeMapInfo d marked r.toReq).map := by
  refine purgeLoop_each d r.addr r.bytes r.map.length marked r.flushMetadata (fun j m hm => ?_) fun j m hm m' hcoll hmiss hstart hstop => ?_
  · exact ⟨fun h => absurd (r.cleared m hm) (by rw [h]; exact nofun), r.line_lt m hm⟩
  · exact ⟨fun _ => ordered_range d hstart hstop, fun h => by rw [hcoll]; exact r.line_lt m hm (hmiss ▸ h)⟩

section MapLoop

variable (d : Device) {w : Nat} (hw : ∀ n ≤ d.lineSize, n % w = n)

include hw in
theorem sec_eq {count : Nat} (h : Ordered d count i m) :
    rawAtomicFlushDoAsynchSec d w m = ⟨d.discardZeroes, m.collIdx * d.lineSize + d.metadataOffset + m.startFlush * d.blockSize,
      (m.stopFlush + 1 - m.startFlush) * d.blockSize⟩ := by
  have hle : (m.stopFlush + 1 - m.startFlush) * d.blockSize ≤ d.lineSize :=
    Nat.mul_le_mul_right d.blockSize (by have hlt := h.lt; omega)
  have hlen : ((m.stopFlush : Int) - m.startFlush) * d.blockSize + d.blockSize =
      ((m.stopFlush + 1 - m.startFlush) * d.blockSize : Nat) := by
    rw [Nat.cast_mul, Nat.cast_sub h.le, Nat.cast_add, Nat.cast_one]
    ring
  unfold rawAtomicFlushDoAsynchSec rawAtomicIoDiscardDo
  simp only [hlen]
  rw [← Int.natCast_mod, Int.toNat_natCast, hw _ hle]

theorem mul_stop (m : MapInfo) (n : Nat) : (m.stopFlush + 1 - n) * d.blockSize = (m.stopFlush + 1) * d.blockSize - n * d.blockSize :=
  Nat.sub_mul _ _ _

include hw in
theorem sec_covers {count : Nat} (h : Ordered d count i m) (hm : m.flush = true ∧ m.miss = false) (b : Nat) :
    (rawAtomicFlushDoAsynchSec d w m).Covers b ↔ m.Marks d b := by
  have hle : m.startFlush * d.blockSize ≤ (m.stopFlush + 1) * d.blockSize := Nat.mul_le_mul_right d.blockSize h.le
  have hlen := mul_stop d m m.startFlush
  rw [sec_eq d hw h]
  unfold Piece.Covers MapInfo.Marks
  simp only [hm, true_and, and_self]
  omega

theorem whole_marks (hm : m.Whole d) (b : Nat) : InCell d.metadataOffset d.lineSize b m.collIdx ↔ m.Marks d b := by
  have hpos := d.lineBlocks_pos
  have hend : (m.stopFlush + 1) * d.blockSize = d.lineSize := by
    rw [hm.2.2, Device.lineEndBlock, Nat.sub_add_cancel hpos]
    rfl
  have hnext : (m.collIdx + 1) * d.lineSize = m.collIdx * d.lineSize + d.lineSize := Nat.succ_mul _ _
  unfold InCell MapInfo.Marks
  simp only [hm.1, hm.2.1, true_and, and_self, hend, hnext, Nat.zero_mul, Nat.add_zero, Nat.add_assoc]

/-- A line of a request of several lines is added to the table if all its sectors are
marked; a range of another one is flushed alone. -/
theorem mapLoop_cons {count : Nat} (hcount : 2 ≤ count) (ms : List MapInfo)
    (h : m.flush = true → Ordered d count i m) : mapLoop d w count i (m :: ms) =
      if m.Whole d then ((mapLoop d w count (i + 1) ms).1, m.collIdx :: (mapLoop d w count (i + 1) ms).2)
      else if m.flush = true ∧ m.miss = false then
        (rawAtomicFlushDoAsynchSec d w m :: (mapLoop d w count (i + 1) ms).1, (mapLoop d w count (i + 1) ms).2)
      else mapLoop d w count (i + 1) ms := by
  by_cases hm : m.flush = true ∧ m.miss = false
  · have hord := h hm.1
    have hskip : ¬(!m.flush || m.miss) = true := by simp [hm.1, hm.2]
    have hwhole : m.Whole d ↔ m.startFlush = 0 ∧ m.stopFlush = d.lineEndBlock := and_iff_right hm
    rw [mapLoop, mapStep, if_neg hskip]
    by_cases hfirst : i = 0
    · -- The first entry ends with its line.
      have hstop : m.stopFlush = d.lineEndBlock := hord.stop (by omega)
      rw [if_pos hfirst]
      by_cases hstart : m.startFlush = 0
      · rw [if_pos (hwhole.mpr ⟨hstart, hstop⟩), if_neg (not_not.mpr hstart)]
      · rw [if_neg (fun hall => hstart (hwhole.mp hall).1), if_pos hm, if_pos hstart]
    · have hstart : m.startFlush = 0 := hord.start hfirst
      rw [if_neg hfirst]
      by_cases hlast : i + 1 = count
      · -- The last entry begins with its line.
        rw [if_pos hlast]
        by_cases hstop : m.stopFlush = d.lineEndBlock
        · rw [if_pos (hwhole.mpr ⟨hstart, hstop⟩), if_neg (not_not.mpr hstop)]
        · rw [if_neg (fun hall => hstop (hwhole.mp hall).2), if_pos hm, if_pos hstop]
      · rw [if_neg hlast, if_pos (hwhole.mpr ⟨hstart, hord.stop hlast⟩)]
  · have hskip : (!m.flush || m.miss) = true := by
      by_cases hflush : m.flush = true
      · have hmiss : m.miss = true := Bool.eq_true_of_not_eq_false fun hmiss => hm ⟨hflush, hmiss⟩
        simp [hmiss]
      · simp [hflush]
    rw [mapLoop, mapStep, if_pos hskip, if_neg (fun hall : m.Whole d => hm hall.1), if_neg hm]

variable {count : Nat} (hcount : 2 ≤ count)

include hcount in
theorem mapLoop_table (h : Each (Shaped d count) i ms) :
    (mapLoop d w count i ms).2 = (ms.filter (MapInfo.Whole d)).map MapInfo.collIdx := by
  induction ms generalizing i with
  | nil => rfl
  | cons m ms ih =>
    rw [mapLoop_cons d hcount ms h.1.ordered]
    by_cases hwhole : m.Whole d
    · have hfilter : (m :: ms).filter (MapInfo.Whole d) = m :: ms.filter (MapInfo.Whole d) := by simp [hwhole]
      rw [if_pos hwhole, hfilter, map_cons, ih h.2]
    · have hfilter : (m :: ms).filter (MapInfo.Whole d) = ms.filter (MapInfo.Whole d) := by simp [hwhole]
      rw [if_neg hwhole, hfilter]
      by_cases hm : m.flush = true ∧ m.miss = false
      · rw [if_pos hm]
        exact ih h.2
      · rw [if_neg hm]
        exact ih h.2

include hw hcount in
theorem mapLoop_covers (h : Each (Shaped d count) i ms) (b : Nat) :
    (mapLoop d w count i ms).1.countP (Piece.Covers b) +
      (mapLoop d w count i ms).2.countP (InCell d.metadataOffset d.lineSize b) = ms.countP (MapInfo.Marks d b) := by
  induction ms generalizing i with
  | nil => rfl
  | cons m ms ih =>
    have hrest := ih h.2
    rw [mapLoop_cons d hcount ms h.1.ordered, countP_cons]
    by_cases hwhole : m.Whole d
    · have hmarks := whole_marks d hwhole b
      rw [if_pos hwhole, countP_cons]
      simp only [hmarks]
      omega
    · rw [if_neg hwhole]
      by_cases hm : m.flush = true ∧ m.miss = false
      · have hcovers := sec_covers d hw (h.1.ordered hm.1) hm b
        rw [if_pos hm, countP_cons]
        simp only [hcovers]
        omega
      · have hmarks : ¬m.Marks d b := fun hmarks => hm hmarks.1
        rw [if_neg hm]
        simpa [hmarks] using hrest

include hw hcount in
theorem mapLoop_modulus (h : Each (Shaped d count) i ms) :
    (mapLoop d w count i ms).1 = (mapLoop d 0 count i ms).1 := by
  induction ms generalizing i with
  | nil => rfl
  | cons m ms ih =>
    rw [mapLoop_cons d hcount ms h.1.ordered, mapLoop_cons d hcount ms h.1.ordered]
    by_cases hwhole : m.Whole d
    · rw [if_pos hwhole, if_pos hwhole]
      exact ih h.2
    · rw [if_neg hwhole, if_neg hwhole]
      by_cases hm : m.flush = true ∧ m.miss = false
      · have hord := h.1.ordered hm.1
        rw [if_pos hm, if_pos hm, sec_eq d hw hord, sec_eq d (fun n _ => Nat.mod_zero n) hord, ih h.2]
      · rw [if_neg hm, if_neg hm]
        exact ih h.2

include hcount in
theorem length_mapLoop_le (h : Each (Shaped d count) i ms) :
    (mapLoop d w count i ms).1.length + (mapLoop d w count i ms).2.length ≤ ms.length := by
  induction ms generalizing i with
  | nil => exact Nat.le_refl 0
  | cons m ms ih =>
    have hrest := ih h.2
    rw [mapLoop_cons d hcount ms h.1.ordered, List.length_cons]
    by_cases hwhole : m.Whole d
    · simp only [if_pos hwhole, List.length_cons]
      omega
    · rw [if_neg hwhole]
      by_cases hm : m.flush = true ∧ m.miss = false
      · simp only [if_pos hm, List.length_cons]
        omega
      · rw [if_neg hm]
        omega

end MapLoop

section Table

variable (d : Device) (w : Nat)

/-- The range of a run of lines. -/
def runPiece (r : Run) : Piece := ⟨d.discardZeroes, r.first * d.lineSize + d.metadataOffset, r.length * d.lineSize % w⟩

variable {w : Nat} (hw : d.lineSize % w = d.lineSize)

include hw in
theorem tableLoop_eq {start k line : Nat} {rest : List Nat} (hlt : ∀ x ∈ line :: rest, x + 1 < 2 ^ 32) :
    ∃ n rs, runs (line :: rest) = ⟨line, n + 1⟩ :: rs ∧
      tableLoop d w (start * d.lineSize + d.metadataOffset) ((k + 1) * d.lineSize % w) line rest =
        runPiece d w ⟨start, k + (n + 1)⟩ :: rs.map (runPiece d w) := by
  induction rest generalizing start k line with
  | nil => exact ⟨0, [], rfl, rfl⟩
  | cons next rest ih =>
    have hline : (line + 1) % 2 ^ 32 = line + 1 := Nat.mod_eq_of_lt (hlt line mem_cons_self)
    have hrest : ∀ x ∈ next :: rest, x + 1 < 2 ^ 32 := fun x hx => hlt x (mem_cons_of_mem line hx)
    rw [tableLoop, hline, runs]
    by_cases hnext : line + 1 = next
    · obtain ⟨n, rs, hruns, hloop⟩ := @ih start (k + 1) next hrest
      have hlen : ((k + 1) * d.lineSize % w + d.lineSize) % w = (k + 1 + 1) * d.lineSize % w := by
        rw [Nat.mod_add_mod, Nat.succ_mul (k + 1)]
      have hcount : k + 1 + (n + 1) = k + (n + 1 + 1) := by omega
      rw [hruns, push_joins hnext, if_pos hnext, hlen, hloop, hcount]
      exact ⟨n + 1, rs, rfl, rfl⟩
    · obtain ⟨n, rs, hruns, hloop⟩ := @ih next 0 next hrest
      have hlen : (0 + 1) * d.lineSize % w = d.lineSize := by rw [Nat.zero_add, Nat.one_mul, hw]
      rw [hlen, Nat.zero_add] at hloop
      rw [hruns, push_starts hnext, if_neg hnext, hloop]
      exact ⟨0, ⟨next, n + 1⟩ :: rs, rfl, rfl⟩

include hw in
theorem tablePieces_eq {tab : List Nat} (hlt : ∀ x ∈ tab, x + 1 < 2 ^ 32) :
    tablePieces d w tab = (runs tab).map (runPiece d w) := by
  cases tab with
  | nil => rfl
  | cons line rest =>
    obtain ⟨n, rs, hruns, hloop⟩ := @tableLoop_eq d w hw line 0 line rest hlt
    have hlen : (0 + 1) * d.lineSize % w = d.lineSize := by rw [Nat.zero_add, Nat.one_mul, hw]
    rw [hlen, Nat.zero_add] at hloop
    rw [tablePieces, hloop, hruns, map_cons]

theorem runPiece_covers (r : Run) (b : Nat) : (runPiece d 0 r).Covers b ↔ InRun d.metadataOffset d.lineSize b r := by
  have hend : (r.first + r.length) * d.lineSize = r.first * d.lineSize + r.length * d.lineSize := Nat.add_mul _ _ _
  unfold runPiece Piece.Covers InRun
  simp only [Nat.mod_zero, hend]
  omega

theorem covers_of_cut {r : Run} {b : Nat} (h : (runPiece d w r).Covers b) : (runPiece d 0 r).Covers b := by
  have hle : r.length * d.lineSize % w ≤ r.length * d.lineSize := Nat.mod_le _ _
  unfold runPiece Piece.Covers at h ⊢
  simp only [Nat.mod_zero] at h ⊢
  omega

theorem table_covers (tab : List Nat) (b : Nat) :
    ((runs tab).map (runPiece d 0)).countP (Piece.Covers b) = tab.countP (InCell d.metadataOffset d.lineSize b) := by
  have hcovers : (fun r => decide ((runPiece d 0 r).Covers b)) = fun r => decide (InRun d.metadataOffset d.lineSize b r) := by
    funext r
    exact decide_eq_decide.mpr (runPiece_covers d r b)
  rw [List.countP_map, ← countP_runs]
  exact congrArg (fun P => List.countP P (runs tab)) hcovers

theorem cut_covers {rs : List Run} {r : Run} (hr : r ∈ rs) (hcut : r.length * d.lineSize % w < r.length * d.lineSize) :
    ∃ b, (rs.map (runPiece d w)).countP (Piece.Covers b) < (rs.map (runPiece d 0)).countP (Piece.Covers b) := by
  obtain ⟨b, hb⟩ : ∃ b, b = r.first * d.lineSize + d.metadataOffset + r.length * d.lineSize % w := ⟨_, rfl⟩
  have hin : (runPiece d 0 r).Covers b := by
    unfold runPiece Piece.Covers
    simp only [Nat.mod_zero]
    omega
  have hout : ¬(runPiece d w r).Covers b := by
    unfold runPiece Piece.Covers
    simp only
    omega
  have hmono : ∀ us : List Run, (us.map (runPiece d w)).countP (Piece.Covers b) ≤ (us.map (runPiece d 0)).countP (Piece.Covers b) := by
    intro us
    rw [List.countP_map, List.countP_map]
    refine List.countP_mono_left fun u _ hu => ?_
    exact decide_eq_true (covers_of_cut d (of_decide_eq_true hu))
  obtain ⟨before, after, hsplit⟩ := List.append_of_mem hr
  have hbefore := hmono before
  have hafter := hmono after
  refine ⟨b, ?_⟩
  rw [hsplit, List.map_append, List.map_append, countP_append, countP_append, map_cons, map_cons,
    countP_cons, countP_cons]
  simp only [hin, hout, decide_true, decide_false, if_true, Bool.false_eq_true, if_false]
  omega

end Table

section Several

variable (d : Device) {map : List MapInfo} (hcount : 2 ≤ map.length) (h : Each (Shaped d map.length) 0 map)

theorem small_mod {n : Nat} (hn : n ≤ d.lineSize) : n % 2 ^ 32 = n :=
  Nat.mod_eq_of_lt (Nat.lt_of_le_of_lt hn d.lineSize_lt)

/-- The sorted table of a map. -/
def sortedTable (map : List MapInfo) : List Nat := ((map.filter (MapInfo.Whole d)).map MapInfo.collIdx).mergeSort

theorem Each.all {P : Nat → MapInfo → Prop} (hms : Each P i ms) : ∀ m ∈ ms, ∃ j, P j m := by
  induction ms generalizing i with
  | nil => exact fun m hm => absurd hm List.not_mem_nil
  | cons m ms ih =>
    intro u hu
    cases List.mem_cons.mp hu with
    | inl heq => exact ⟨i, by rw [heq]; exact hms.1⟩
    | inr hmem => exact ih hms.2 u hmem

include h in
theorem sortedTable_lt : ∀ x ∈ sortedTable d map, x + 1 < 2 ^ 32 := by
  intro x hx
  have hmem := (List.mergeSort_perm _ _).mem_iff.mp hx
  obtain ⟨m, hm, rfl⟩ := mem_map.mp hmem
  have hfilter := List.mem_filter.mp hm
  have hwhole : m.Whole d := of_decide_eq_true hfilter.2
  obtain ⟨j, hshaped⟩ := h.all m hfilter.1
  exact hshaped.line_lt hwhole.1.2

include hcount h in
theorem mapPieces_eq {w : Nat} (hw : ∀ n ≤ d.lineSize, n % w = n) :
    mapPieces d w map = (mapLoop d 0 map.length 0 map).1 ++ (runs (sortedTable d map)).map (runPiece d w) := by
  change (mapLoop d w map.length 0 map).1 ++ tablePieces d w (mapLoop d w map.length 0 map).2.mergeSort = _
  rw [mapLoop_table d hcount h, mapLoop_modulus d hw hcount h]
  exact congrArg _ (tablePieces_eq d (hw _ (Nat.le_refl _)) (sortedTable_lt d h))

include hcount h in
theorem mapPieces_covers (b : Nat) : (mapPieces d 0 map).countP (Piece.Covers b) = map.countP (MapInfo.Marks d b) := by
  have hzero : ∀ n ≤ d.lineSize, n % 0 = n := fun n _ => Nat.mod_zero n
  have htable : (sortedTable d map).countP (InCell d.metadataOffset d.lineSize b) =
      (mapLoop d 0 map.length 0 map).2.countP (InCell d.metadataOffset d.lineSize b) := by
    rw [mapLoop_table d hcount h]
    exact (List.mergeSort_perm _ _).countP_eq _
  rw [mapPieces_eq d hcount h hzero, countP_append, table_covers, htable]
  exact mapLoop_covers d hzero hcount h b

include hcount h in
theorem length_mapPieces_le {w : Nat} (hw : ∀ n ≤ d.lineSize, n % w = n) : (mapPieces d w map).length ≤ map.length := by
  have hloop := length_mapLoop_le d hcount h (w := 0)
  have hruns := length_runs_le (sortedTable d map)
  have htable : (sortedTable d map).length = (mapLoop d 0 map.length 0 map).2.length := by
    rw [mapLoop_table d hcount h]
    exact (List.mergeSort_perm _ _).length_eq
  rw [mapPieces_eq d hcount h hw, List.length_append, length_map]
  omega

theorem mod_of_short {tab : List Nat} (hshort : ¬∃ first n, 2 ^ 32 ≤ n * d.lineSize ∧ List.range' first n <:+: tab) {r : Run}
    (hr : r ∈ runs tab) : r.length * d.lineSize % 2 ^ 32 = r.length * d.lineSize := by
  refine Nat.mod_eq_of_lt (Nat.lt_of_not_le fun hle => hshort ?_)
  exact ⟨r.first, r.length, hle, infix_of_mem hr⟩

include hcount h in
theorem mapPieces_short (hshort : ¬∃ first n, 2 ^ 32 ≤ n * d.lineSize ∧ List.range' first n <:+: sortedTable d map) :
    mapPieces d (2 ^ 32) map = mapPieces d 0 map := by
  rw [mapPieces_eq d hcount h fun n hn => small_mod d hn, mapPieces_eq d hcount h fun n _ => Nat.mod_zero n]
  refine congrArg _ (List.map_congr_left fun r hr => ?_)
  unfold runPiece
  rw [mod_of_short d hshort hr, Nat.mod_zero]

include hcount h in
theorem mapPieces_long (hlong : ∃ first n, 2 ^ 32 ≤ n * d.lineSize ∧ List.range' first n <:+: sortedTable d map) :
    ∃ b, (mapPieces d (2 ^ 32) map).countP (Piece.Covers b) < map.countP (MapInfo.Marks d b) := by
  obtain ⟨first, n, hn, hinfix⟩ := hlong
  cases n with
  | zero => omega
  | succ n =>
    obtain ⟨r, hr, hle⟩ := le_of_infix hinfix
    have hmul : (n + 1) * d.lineSize ≤ r.length * d.lineSize := Nat.mul_le_mul_right d.lineSize hle
    have hcut : r.length * d.lineSize % 2 ^ 32 < r.length * d.lineSize :=
      Nat.lt_of_lt_of_le (Nat.mod_lt _ (Nat.two_pow_pos 32)) (Nat.le_trans hn hmul)
    obtain ⟨b, hb⟩ := cut_covers d hr hcut
    refine ⟨b, ?_⟩
    rw [← mapPieces_covers d hcount h b, mapPieces_eq d hcount h fun n hn => small_mod d hn,
      mapPieces_eq d hcount h fun n _ => Nat.mod_zero n, countP_append, countP_append]
    omega

end Several

section Flush

variable {d : Device} {alloc : Bool} {req : Req}

theorem not_longRun_of_length (h : (wholeLines d req).length ≤ 1) : ¬LongRun d req := by
  rintro ⟨first, n, hn, hinfix⟩
  have hle := hinfix.length_le
  have hlength : (wholeLines d req).mergeSort.length = (wholeLines d req).length := (List.mergeSort_perm _ _).length_eq
  have hlt := d.lineSize_lt
  have hmul : n * d.lineSize ≤ 1 * d.lineSize := by
    rw [List.length_range', hlength] at hle
    exact Nat.mul_le_mul_right d.lineSize (by omega)
  omega

theorem wholeLines_unmarked (hms : ∀ m ∈ req.map, m.flush = false) : wholeLines d req = [] := by
  unfold wholeLines
  rw [List.map_eq_nil_iff, List.filter_eq_nil_iff]
  intro m hm hwhole
  have hset := (of_decide_eq_true hwhole).1.1
  rw [hms m hm] at hset
  exact absurd hset nofun

theorem correct_unset (hunset : req.flushMetadata = false) (hms : ∀ m ∈ req.map, m.flush = false) :
    Correct d alloc req ∧ ¬LongRun d req := by
  have hflush : ∀ w, rawAtomicFlushDoAsynch d w alloc req = ⟨[], [], [0], 0⟩ := fun w => if_pos hunset
  have hfails : ¬AllocFails alloc req := fun hfails => absurd hfails.1 (by rw [hunset]; exact nofun)
  have hmarks : ∀ b, req.map.countP (MapInfo.Marks d b) = 0 := by
    intro b
    refine List.countP_eq_zero.mpr fun m hm hmarks => ?_
    have hset := (of_decide_eq_true hmarks).1.1
    rw [hms m hm] at hset
    exact absurd hset nofun
  have hwhole : wholeLines d req = [] := wholeLines_unmarked hms
  refine ⟨⟨fun _ b => ?_, fun _ => ?_, ?_, fun h hh => ?_⟩, not_longRun_of_length (by rw [hwhole]; exact Nat.zero_le 1)⟩
  · rw [hflush, hmarks]
    rfl
  · rw [hflush]
  · rw [hflush, hflush]
  · rw [hflush] at hh ⊢
    obtain rfl := hh.eq_nil rfl rfl
    refine ⟨0, rfl, iff_of_false (fun hne => hne rfl) ?_⟩
    rintro (h | ⟨s, hs, -⟩)
    · exact hfails h
    · exact absurd hs List.not_mem_nil

/-- A request of one line has no defect. -/
theorem correct_single (hmap : req.map = [m]) (hset : req.flushMetadata = true) (hm : Shaped d 1 0 m) :
    Correct d alloc req ∧ ¬LongRun d req := by
  have hfails : ¬AllocFails alloc req := by
    intro hfails
    have hlength := hfails.2.1
    rw [hmap, List.length_singleton] at hlength
    exact absurd hlength (by decide)
  have hlong : ¬LongRun d req := by
    refine not_longRun_of_length ?_
    unfold wholeLines
    rw [length_map, hmap]
    exact List.length_filter_le _ _
  have hflush : ∀ w, rawAtomicFlushDoAsynch d w alloc req =
      if m.flush && !m.miss then ⟨[rawAtomicFlushDoAsynchSec d w m], [.forward], [], 0⟩ else ⟨[], [], [0], 0⟩ := by
    intro w
    rw [rawAtomicFlushDoAsynch, if_neg (by rw [hset]; exact nofun), hmap]
  refine ⟨?_, hlong⟩
  by_cases hmark : m.flush = true ∧ m.miss = false
  · have hif : (m.flush && !m.miss) = true := by simp [hmark.1, hmark.2]
    have hsome : ∀ w, rawAtomicFlushDoAsynch d w alloc req = ⟨[rawAtomicFlushDoAsynchSec d w m], [.forward], [], 0⟩ :=
      fun w => by rw [hflush, if_pos hif]
    have hord := hm.ordered hmark.1
    refine ⟨fun _ b => ?_, fun h => absurd h hfails, ?_, fun h hh => ?_⟩
    · have hcovers := sec_covers d (fun n hn => small_mod d hn) hord hmark b
      rw [hsome, hmap, List.countP_singleton, List.countP_singleton]
      simp only [hcovers]
    · rw [hsome, hsome, sec_eq d (fun n hn => small_mod d hn) hord, sec_eq d (fun n _ => Nat.mod_zero n) hord]
    · rw [hsome] at hh ⊢
      obtain ⟨e, hcalls, herror⟩ := (History.endsOnce_single hh).calls_iff
      exact ⟨e, hcalls, herror.trans (or_iff_right hfails).symm⟩
  · have hif : ¬(m.flush && !m.miss) = true := by simpa using hmark
    have hnone : ∀ w, rawAtomicFlushDoAsynch d w alloc req = ⟨[], [], [0], 0⟩ := fun w => by rw [hflush, if_neg hif]
    refine ⟨fun _ b => ?_, fun _ => ?_, ?_, fun h hh => ?_⟩
    · have hmarks : ¬m.Marks d b := fun hmarks => hmark hmarks.1
      rw [hnone, hmap, List.countP_singleton]
      simp [hmarks]
    · rw [hnone]
    · rw [hnone, hnone]
    · rw [hnone] at hh ⊢
      obtain rfl := hh.eq_nil rfl rfl
      refine ⟨0, rfl, iff_of_false (fun hne => hne rfl) ?_⟩
      rintro (h | ⟨s, hs, -⟩)
      · exact hfails h
      · exact absurd hs List.not_mem_nil

/-- Requests of several lines. -/
theorem correct_several (hcount : 2 ≤ req.map.length) (hlt : req.map.length < 2 ^ 32) (hset : req.flushMetadata = true)
    (h : Each (Shaped d req.map.length) 0 req.map) : Correct d alloc req ↔ AllocFails alloc req ∨ ¬LongRun d req := by
  have hmany : ∀ w, rawAtomicFlushDoAsynch d w alloc req =
      if req.map.length ≤ maxStackTabSize ∨ alloc = true then
        ⟨mapPieces d w req.map, .hold :: forwards (mapPieces d w req.map).length 0, [], 0⟩
      else ⟨[], [], [errNoMem], errNoMem⟩ := by
    intro w
    rw [rawAtomicFlushDoAsynch, if_neg (by rw [hset]; exact nofun)]
    cases hmap : req.map with
    | nil => rfl
    | cons m ms =>
      cases ms with
      | nil =>
        rw [hmap] at hcount
        exact absurd hcount (by simp)
      | cons m' ms => rfl
  by_cases hfails : AllocFails alloc req
  · have hif : ¬(req.map.length ≤ maxStackTabSize ∨ alloc = true) := by
      rintro (hle | halloc)
      · exact Nat.not_le.mpr hfails.2.1 hle
      · exact absurd halloc (by rw [hfails.2.2]; exact nofun)
    have hnone : ∀ w, rawAtomicFlushDoAsynch d w alloc req = ⟨[], [], [errNoMem], errNoMem⟩ :=
      fun w => by rw [hmany, if_neg hif]
    refine iff_of_true ⟨fun h => absurd hfails h, fun _ => ?_, ?_, fun h hh => ?_⟩ (.inl hfails)
    · rw [hnone]
    · rw [hnone, hnone]
    · rw [hnone] at hh ⊢
      obtain rfl := hh.eq_nil rfl rfl
      exact ⟨errNoMem, rfl, iff_of_true (by decide) (.inl hfails)⟩
  · have hif : req.map.length ≤ maxStackTabSize ∨ alloc = true := by
      by_cases hle : req.map.length ≤ maxStackTabSize
      · exact .inl hle
      · exact .inr (Bool.eq_true_of_not_eq_false fun halloc => hfails ⟨hset, Nat.not_le.mp hle, halloc⟩)
    have hsome : ∀ w, rawAtomicFlushDoAsynch d w alloc req =
        ⟨mapPieces d w req.map, .hold :: forwards (mapPieces d w req.map).length 0, [], 0⟩ :=
      fun w => by rw [hmany, if_pos hif]
    constructor
    · intro hcorrect
      refine .inr fun hlong => ?_
      obtain ⟨b, hb⟩ := mapPieces_long d hcount h hlong
      have hcovers := hcorrect.covers hfails b
      rw [hsome] at hcovers
      exact absurd hcovers (Nat.ne_of_lt hb)
    · rintro (hcase | hshort)
      · exact absurd hcase hfails
      have hpieces := mapPieces_short d hcount h hshort
      refine ⟨fun _ b => ?_, fun hcase => absurd hcase hfails, ?_, fun hist hh => ?_⟩
      · rw [hsome, hpieces]
        exact mapPieces_covers d hcount h b
      · rw [hsome, hsome]
        exact hpieces
      · rw [hsome] at hh ⊢
        have hle := length_mapPieces_le d hcount h fun n hn => small_mod d hn
        obtain ⟨e, hcalls, herror⟩ := (History.endsOnce_held hh (Nat.lt_of_le_of_lt hle hlt)).calls_iff
        exact ⟨e, hcalls, herror.trans (or_iff_right hfails).symm⟩

theorem coreLineCount_pos {addr bytes : Nat} (haddr : addr < 2 ^ 64) (hbytes : bytes < 2 ^ 32) : 0 < coreLineCount d addr bytes := by
  by_cases hpos : 0 < bytes
  · rw [coreLineCount_eq d hpos haddr hbytes]
    exact Nat.succ_pos _
  · unfold coreLineCount
    rw [if_pos (Nat.eq_zero_of_not_pos hpos)]
    exact Nat.one_pos

theorem coreLineCount_lt (addr bytes : Nat) : coreLineCount d addr bytes < 2 ^ 32 := by
  unfold coreLineCount
  by_cases hpos : bytes = 0
  · rw [if_pos hpos]
    exact Nat.one_lt_two_pow_iff.mpr nofun
  · rw [if_neg hpos]
    exact Nat.mod_lt _ (Nat.two_pow_pos 32)

/-- The sectors that are marked for a request are discarded, each once and no others, and
`complete` is called once, if and only if the allocation fails, which discards nothing,
or the wholly marked lines have no run of `2 ^ 32` bytes or more. -/
theorem correct_iff_short (d : Device) (r : Request d) (marked : Nat → Bool) (alloc : Bool) :
    Correct d alloc (ocfPurgeMapInfo d marked r.toReq) ↔
      AllocFails alloc (ocfPurgeMapInfo d marked r.toReq) ∨ ¬LongRun d (ocfPurgeMapInfo d marked r.toReq) := by
  have hshaped := purge_shaped d r marked
  have hlength : (ocfPurgeMapInfo d marked r.toReq).map.length = r.map.length :=
    length_purgeLoop d r.addr r.bytes r.map.length marked 0 r.map r.flushMetadata
  have hpos : 0 < r.map.length := by rw [r.map_length]; exact coreLineCount_pos r.addr_lt r.bytes_lt
  have hlt : r.map.length < 2 ^ 32 := by rw [r.map_length]; exact coreLineCount_lt _ _
  have hunset : (ocfPurgeMapInfo d marked r.toReq).flushMetadata = false →
      ∀ m ∈ (ocfPurgeMapInfo d marked r.toReq).map, m.flush = false :=
    purgeLoop_unmarked d r.addr r.bytes r.map.length marked r.cleared
  obtain ⟨req, hreq⟩ : ∃ req, req = ocfPurgeMapInfo d marked r.toReq := ⟨_, rfl⟩
  rw [← hreq] at hshaped hlength hunset ⊢
  rw [← hlength] at hshaped hpos hlt
  cases hset : req.flushMetadata with
  | false =>
    have hboth : Correct d alloc req ∧ ¬LongRun d req := correct_unset hset (hunset hset)
    exact iff_of_true hboth.1 (.inr hboth.2)
  | true =>
    by_cases hcount : 2 ≤ req.map.length
    · exact correct_several hcount hlt hset hshaped
    · have hone : req.map.length = 1 := by omega
      obtain ⟨m, hmap⟩ := List.length_eq_one_iff.mp hone
      rw [hone, hmap] at hshaped
      have hboth : Correct d alloc req ∧ ¬LongRun d req := correct_single hmap hset hshaped.1
      exact iff_of_true hboth.1 (.inr hboth.2)

end Flush

section Pages

/-- Lines of 16 pages. -/
def pageDevice : Device where
  lineBlocks := 16
  blockSize := 4096
  metadataOffset := 0
  discardZeroes := true
  blockSize_cases := .inr rfl
  lineBlocks_pos := Nat.succ_pos 15
  lineSize_le := Nat.le_refl _
  lineSize_dvd := ⟨2 ^ 16, rfl⟩

/-- A mapped line that is not marked. -/
def hit (line : Nat) : MapInfo := ⟨line, false, false, 0, 0⟩

/-- The longest request of sectors, in lines that follow each other on the device. -/
def longRequest : Request pageDevice where
  addr := 0
  bytes := 2 ^ 32 - 512
  map := (List.range 65536).map hit
  flushMetadata := false
  addr_lt := Nat.two_pow_pos 64
  bytes_lt := Nat.sub_lt (Nat.two_pow_pos 32) (Nat.succ_pos 511)
  map_length := by
    rw [length_map, List.length_range]
    rfl
  cleared m hm := by
    obtain ⟨line, -, rfl⟩ := mem_map.mp hm
    rfl
  line_lt m hm _ := by
    obtain ⟨line, hline, rfl⟩ := mem_map.mp hm
    have hlt := List.mem_range.mp hline
    change line + 1 < 2 ^ 32
    omega

theorem mergeSort_range (n : Nat) : (List.range n).mergeSort = List.range n := by
  refine List.mergeSort_of_pairwise ?_
  have hsorted : (List.range n).Pairwise (· < ·) := List.pairwise_lt_range
  exact hsorted.imp fun h => decide_eq_true (Nat.le_of_lt h)

theorem purgeLoop_whole {d : Device} {addr bytes count : Nat} (hstart : ∀ i, startBit d addr i = 0)
    (hstop : ∀ i, endBit d addr bytes count i = d.lineEndBlock) (hms : ∀ m ∈ ms, m.miss = false)
    (i : Nat) (fm : Bool) :
    ((purgeLoop d addr bytes count (fun _ => true) i ms fm).1.filter (MapInfo.Whole d)).map MapInfo.collIdx = ms.map MapInfo.collIdx := by
  induction ms generalizing i fm with
  | nil => rfl
  | cons m ms ih =>
    have hmiss := hms m mem_cons_self
    have hstep : purgeStep d addr bytes count (fun _ => true) i m fm =
        ({ m with flush := true, startFlush := 0, stopFlush := d.lineEndBlock }, true) := by
      rw [purgeStep, if_neg (by rw [hmiss]; exact nofun), if_pos rfl, rawAtomicFlushMark, if_pos rfl, hstart, hstop]
    have hwhole : MapInfo.Whole d { m with flush := true, startFlush := 0, stopFlush := d.lineEndBlock } := ⟨⟨rfl, hmiss⟩, rfl, rfl⟩
    have hrest := ih (fun u hu => hms u (mem_cons_of_mem m hu)) (i + 1) true
    rw [purgeLoop, hstep]
    simp only [List.filter_cons, hwhole, decide_true, if_true, map_cons, hrest]

/-- A request for lines that follow each other on the device from its first byte on is not
discarded as it is marked when the lines have `2 ^ 32` bytes: the length is cut to zero. -/
theorem not_correct_of_lines {r : Request pageDevice} {n : Nat} (haddr : r.addr = 0) (hbytes : r.bytes = 2 ^ 32 - 512)
    (hmap : r.map = (List.range n).map hit) (hn : n = 65536) : ¬Correct pageDevice true (ocfPurgeMapInfo pageDevice (fun _ => true) r.toReq) := by
  have hstart : ∀ i, startBit pageDevice r.addr i = 0 := by
    intro i
    unfold startBit
    rw [haddr, Nat.zero_div, Nat.zero_mod, ite_self]
  have hlast : lastByte 0 (2 ^ 32 - 512) / pageDevice.blockSize % pageDevice.lineBlocks = pageDevice.lineEndBlock := rfl
  have hstop : ∀ i, endBit pageDevice r.addr r.bytes r.map.length i = pageDevice.lineEndBlock := by
    intro i
    unfold endBit
    rw [haddr, hbytes, hlast, ite_self]
  have hhits : ∀ m ∈ r.map, m.miss = false := by
    intro m hm
    rw [hmap] at hm
    obtain ⟨line, -, rfl⟩ := mem_map.mp hm
    rfl
  have hshaped := purge_shaped pageDevice r fun _ => true
  have hlength : (ocfPurgeMapInfo pageDevice (fun _ => true) r.toReq).map.length = r.map.length :=
    length_purgeLoop pageDevice r.addr r.bytes r.map.length (fun _ => true) 0 r.map r.flushMetadata
  have hlines : wholeLines pageDevice (ocfPurgeMapInfo pageDevice (fun _ => true) r.toReq) = List.range n := by
    have hwhole := purgeLoop_whole hstart hstop hhits 0 r.flushMetadata
    have hid : MapInfo.collIdx ∘ hit = id := rfl
    refine hwhole.trans ?_
    rw [hmap, List.map_map, hid, List.map_id]
  have hunset : (ocfPurgeMapInfo pageDevice (fun _ => true) r.toReq).flushMetadata = false →
      ∀ m ∈ (ocfPurgeMapInfo pageDevice (fun _ => true) r.toReq).map, m.flush = false :=
    purgeLoop_unmarked pageDevice r.addr r.bytes r.map.length (fun _ => true) r.cleared
  obtain ⟨req, hreq⟩ : ∃ req, req = ocfPurgeMapInfo pageDevice (fun _ => true) r.toReq := ⟨_, rfl⟩
  rw [← hreq] at hshaped hlength hlines hunset ⊢
  rw [← hlength] at hshaped
  rw [hmap, length_map, List.length_range] at hlength
  have hset : req.flushMetadata = true := by
    refine Bool.eq_true_of_not_eq_false fun hfalse => ?_
    have hempty := congrArg List.length (wholeLines_unmarked (d := pageDevice) (hunset hfalse))
    rw [hlines, List.length_range, List.length_nil] at hempty
    omega
  have hsorted : (wholeLines pageDevice req).mergeSort = List.range' 0 n := by
    rw [hlines, mergeSort_range, List.range_eq_range']
  have hlong : LongRun pageDevice req :=
    ⟨0, n, by rw [hn]; exact Nat.le_refl _, hsorted ▸ List.infix_rfl⟩
  rw [correct_several (by omega) (by omega) hset hshaped]
  rintro (hfails | hshort)
  · exact absurd hfails.2.2 nofun
  · exact hshort hlong

theorem longRequest_not_discarded :
    ¬Correct pageDevice true (ocfPurgeMapInfo pageDevice (fun _ => true) longRequest.toReq) :=
  not_correct_of_lines rfl rfl (by simp only [longRequest]) rfl

end Pages

end OcfCache.MetadataAtomic
