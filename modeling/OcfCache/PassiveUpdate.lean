import Mathlib.Data.List.Perm.Basic
import OcfCache.MetadataLayout
import OcfCache.Requests
import OcfCache.Runs

/-!
# The metadata mirror of a standby cache

`ocf_metadata_passive_update` copies what is written to the metadata area of a
standby cache into two segments in memory. A write takes its page locks and is
then applied, on the device and in memory. The module compares the segments in
memory with what a load of the same segments from the device would read.
-/

namespace OcfCache.PassiveUpdate

open Requests Runs

/-- The largest value of 64 bits. -/
def u64Max : Nat := 18446744073709551615

/-- A 64-bit value less one. -/
def u64Pred (n : Nat) : Nat := if n = 0 then u64Max else n - 1

/-- `BYTES_TO_PAGES`; on aligned values it does not wrap. -/
def bytesToPages (x : Nat) : Nat := (x + (pageSize - 1)) / pageSize

/-- `struct ocf_metadata_raw` of a segment in memory. -/
structure RawRam where
  /-- `ssd_pages_offset`. -/
  ssdPagesOffset : Nat
  /-- `ssd_pages`. -/
  ssdPages : Nat
  /-- A segment has a page. -/
  ssdPages_pos : 0 < ssdPages
  /-- `entry_size`. -/
  entrySize : Nat
  /-- `entries_in_page`. -/
  entriesInPage : Nat
  /-- The entries of a page fit. -/
  size_le : entrySize * entriesInPage ≤ pageSize

/-- The mirrored segments in the metadata area. -/
structure Layout where
  /-- `metadata_segment_sb_config`. -/
  sbConfig : RawRam
  /-- `metadata_segment_collision`. -/
  collision : RawRam
  /-- `ocf_metadata_get_pages_count`. -/
  pagesCount : Nat
  /-- The configuration lies in the metadata area. -/
  sbConfig_le : sbConfig.ssdPagesOffset + sbConfig.ssdPages ≤ pagesCount
  /-- The collision table lies in the metadata area. -/
  collision_le : collision.ssdPagesOffset + collision.ssdPages ≤ pagesCount

/-- The two segments. -/
inductive Segment
  | sbConfig
  | collision
  deriving DecidableEq

/-- Description of a segment. -/
def Layout.raw (l : Layout) : Segment → RawRam
  | .sbConfig => l.sbConfig
  | .collision => l.collision

/-- Bytes of a memory pool or of a device. -/
abbrev Bytes := Nat → UInt8

/-- `ctx_data_t`. -/
structure Data where
  /-- Its length. -/
  len : Nat
  /-- Its bytes. -/
  byte : Bytes

/-- The request of the exported volume. -/
structure Master where
  /-- First byte. -/
  addr : Nat
  /-- Number of bytes. -/
  bytes : Nat
  /-- First byte in the data. -/
  offset : Nat
  /-- Direction. -/
  rw : Dir
  /-- The data. -/
  data : Data
  /-- The data has the bytes of the request. -/
  data_ok : offset + bytes ≤ data.len

/-- Bytes of a page that hold entries. -/
def RawRam.size (raw : RawRam) : Nat := raw.entrySize * raw.entriesInPage

/-- `_raw_ram_drain_page` at a position of the data, with the position behind
it; no result when an assertion fails. -/
def rawRamDrainPage (raw : RawRam) (data : Data) (mem : Bytes) (pos page : Nat) :
    Option (Bytes × Nat) :=
  if raw.ssdPages < page then none
  else if data.len < pos + raw.size then none
  else
    let line := page * raw.entriesInPage
    let start := raw.entrySize * line
    some (fun x => if start ≤ x ∧ x < start + raw.size then data.byte (pos + (x - start)) else mem x,
      pos + raw.size + (pageSize - raw.size))

/-- `_raw_ram_update` for `count` pages from `page` on. -/
def rawRamUpdate (raw : RawRam) (data : Data) : Nat → Bytes → Nat → Nat → Option Bytes
  | 0, mem, _, _ => some mem
  | count + 1, mem, pos, page =>
    (rawRamDrainPage raw data mem pos page).bind fun r =>
      rawRamUpdate raw data count r.1 r.2 (page + 1)

/-- `_raw_ram_load_all`: every page of the segment is read and drained. -/
def rawRamLoadAll (raw : RawRam) (mem dev : Bytes) : Option Bytes :=
  rawRamUpdate raw ⟨raw.ssdPages * pageSize, fun k => dev (raw.ssdPagesOffset * pageSize + k)⟩
    raw.ssdPages mem 0 0

/-- Pages that a write and a segment share: the first one in the data, the
first one in the segment, and their number. -/
structure Overlap where
  /-- `overlap_start_data`. -/
  startData : Nat
  /-- `overlap_page`. -/
  page : Nat
  /-- `overlap_count`. -/
  count : Nat

/-- One round of the loop of `passive_io_resume`. -/
def overlap (raw : RawRam) (m : Master) : Option Overlap :=
  let ioStart := bytesToPages m.addr
  let ioEnd := u64Pred (ioStart + bytesToPages m.bytes)
  let rawStart := raw.ssdPagesOffset
  let rawEnd := u64Pred (rawStart + raw.ssdPages)
  let start := max ioStart rawStart
  let stop := min ioEnd rawEnd
  if stop < start then none
  else some ⟨start - ioStart, start - rawStart, stop - start + 1⟩

/-- Update of one segment by a write. -/
def resumeSegment (raw : RawRam) (m : Master) (mem : Bytes) : Option Bytes :=
  match overlap raw m with
  | none => some mem
  | some o => rawRamUpdate raw m.data o.count mem (o.startData * pageSize) o.page

/-- Pages of one segment that a write drains. -/
def drainedPages (raw : RawRam) (m : Master) : List Nat :=
  match overlap raw m with
  | none => []
  | some o => List.range' o.page o.count

/-- Effect of a write on the device. -/
def writeDevice (dev : Bytes) (m : Master) : Bytes :=
  fun x => if m.addr ≤ x ∧ x < m.addr + m.bytes then m.data.byte (m.offset + (x - m.addr)) else dev x

/-- A standby cache. -/
structure State where
  /-- The cache device. -/
  dev : Bytes
  /-- The segments in memory. -/
  mem : Segment → Bytes
  /-- Writes that wait for their page locks. -/
  waiting : List Master
  /-- Requests that were submitted. -/
  submitted : List Master
  /-- Requests that were completed, with their error. -/
  completed : List (Master × Int)
  /-- Pages that were drained. -/
  drained : List (Segment × Nat)

/-- What the checks of `ocf_metadata_passive_update` decide. -/
inductive Verdict
  /-- The request is completed. -/
  | complete (error : Int)
  /-- The request goes on to its page locks. -/
  | lock
  deriving DecidableEq

/-- The checks of `ocf_metadata_passive_update`. -/
def checkUpdate (l : Layout) (m : Master) : Verdict :=
  if m.rw = .read then .complete 0
  else if l.pagesCount ≤ bytesToPages m.addr then .complete 0
  else if m.addr % pageSize ≠ 0 ∨ m.bytes % pageSize ≠ 0 then .complete errInval
  else if maxPassiveIoSize < m.bytes then .complete errInval
  else .lock

/-- What the environment answers. -/
inductive Answer
  /-- There is no memory for the request. -/
  | noMem
  /-- The page locks fail. -/
  | lockError (error : Int)
  /-- The page locks are there. -/
  | acquired
  /-- The page locks are held by another write. -/
  | notAcquired
  deriving DecidableEq

/-- The request is completed. -/
def State.complete (s : State) (m : Master) (error : Int) : State :=
  { s with completed := s.completed ++ [(m, error)] }

/-- The request is written to the device. -/
def State.write (s : State) (m : Master) : State :=
  if m.rw = .read then s else { s with dev := writeDevice s.dev m }

/-- `passive_io_resume`, with the write to the device under the same page
locks; no result when an assertion fails. -/
def passiveIoResume (l : Layout) (s : State) (m : Master) : Option State :=
  (resumeSegment l.sbConfig m (s.mem .sbConfig)).bind fun sb =>
    (resumeSegment l.collision m (s.mem .collision)).bind fun coll =>
      some (({ s with
        mem := fun seg => match seg with | .sbConfig => sb | .collision => coll
        drained := s.drained ++ (drainedPages l.sbConfig m).map (fun p => (Segment.sbConfig, p)) ++
          (drainedPages l.collision m).map (fun p => (Segment.collision, p)) }.write m).complete m 0)

/-- `ocf_metadata_passive_update`. -/
def ocfMetadataPassiveUpdate (l : Layout) (s : State) (m : Master) (answer : Answer) :
    Option State :=
  let s := { s with submitted := s.submitted ++ [m] }
  match checkUpdate l m with
  | .complete error => some ((s.write m).complete m error)
  | .lock =>
    match answer with
    | .noMem => some ((s.write m).complete m errNoMem)
    | .lockError error => if error < 0 then some ((s.write m).complete m error) else none
    | .acquired => passiveIoResume l s m
    | .notAcquired => some { s with waiting := s.waiting ++ [m] }

/-- What may happen next. -/
inductive Act
  /-- A request is submitted. -/
  | submit (m : Master) (answer : Answer)
  /-- A waiting write gets its page locks. -/
  | resume (i : Nat)

/-- One step; no result when an assertion fails or it is nobody's turn. -/
def step (l : Layout) (s : State) : Act → Option State
  | .submit m answer => ocfMetadataPassiveUpdate l s m answer
  | .resume i =>
    (s.waiting[i]?).bind fun m => passiveIoResume l { s with waiting := s.waiting.eraseIdx i } m

/-- The segments in memory are what a load from the device reads. -/
def Mirrors (l : Layout) (s : State) : Prop :=
  ∀ seg, rawRamLoadAll (l.raw seg) (s.mem seg) s.dev = some (s.mem seg)

/-- A standby cache in front of its first request. -/
structure Fresh (l : Layout) (s : State) : Prop where
  /-- The mirror was loaded from the device. -/
  mirrors : Mirrors l s
  /-- Nothing has happened. -/
  quiet : s.waiting = [] ∧ s.submitted = [] ∧ s.completed = [] ∧ s.drained = []

/-- The checks or the environment refuse the request with an error. -/
def Refused (l : Layout) (m : Master) (answer : Answer) : Prop :=
  match checkUpdate l m with
  | .complete error => error ≠ 0
  | .lock => answer = .noMem ∨ ∃ error, answer = .lockError error

/-- The writes that the mirror follows: the data starts with its buffer, and an
empty write is not at the start of the device. -/
def Followed (m : Master) : Prop := m.offset = 0 ∧ ¬ (m.addr = 0 ∧ m.bytes = 0)

/-- A standby cache that takes the requests which are allowed. -/
def system (l : Layout) (allowed : Master → Answer → Prop) : System State Act where
  guard _ a := match a with
    | .submit m answer => allowed m answer
    | .resume _ => True
  step := step l

variable {raw : RawRam} {l : Layout} {m : Master}

/-! ## Draining pages -/

/-- Byte of the device that a byte of the memory pool is loaded from. -/
def RawRam.deviceByte (raw : RawRam) (x : Nat) : Nat :=
  (raw.ssdPagesOffset + x / raw.size) * pageSize + x % raw.size

theorem RawRam.size_le_page : raw.size ≤ pageSize := raw.size_le

theorem rawRamDrainPage_spec {data : Data} {mem : Bytes} {pos page : Nat}
    (hpage : page ≤ raw.ssdPages) (hlen : pos + pageSize ≤ data.len) :
    rawRamDrainPage raw data mem pos page = some
      (fun x => if 0 < raw.size ∧ x / raw.size = page then data.byte (pos + x % raw.size) else mem x,
        pos + pageSize) := by
  have hle := raw.size_le_page
  have hmul : raw.entrySize * (page * raw.entriesInPage) = page * raw.size := by
    rw [RawRam.size, Nat.mul_left_comm]
  have hpos : pos + raw.size + (pageSize - raw.size) = pos + pageSize := by omega
  unfold rawRamDrainPage
  rw [if_neg (by omega), if_neg (by omega), hpos]
  simp only [hmul]
  congr 2
  funext x
  by_cases hsize : 0 < raw.size
  · have hdecomp := Nat.div_add_mod x raw.size
    have hmod := Nat.mod_lt x hsize
    by_cases hx : x / raw.size = page
    · have hstart : page * raw.size ≤ x ∧ x < page * raw.size + raw.size := by
        rw [← hx, Nat.mul_comm]
        omega
      have hsub : x - page * raw.size = x % raw.size := by
        rw [← hx, Nat.mul_comm]
        omega
      rw [if_pos hstart, if_pos ⟨hsize, hx⟩, hsub]
    · have hout : ¬ (page * raw.size ≤ x ∧ x < page * raw.size + raw.size) := by
        rintro ⟨hlow, hhigh⟩
        have hlow' : page ≤ x / raw.size := (Nat.le_div_iff_mul_le hsize).mpr hlow
        have hhigh' : x / raw.size < page + 1 :=
          (Nat.div_lt_iff_lt_mul hsize).mpr (by rw [Nat.add_mul]; omega)
        omega
      rw [if_neg hout, if_neg (fun h => hx h.2)]
  · rw [if_neg (by omega), if_neg (fun h => hsize h.1)]

theorem rawRamUpdate_spec {data : Data} (count : Nat) {mem : Bytes} {pos page : Nat}
    (hpage : page + count ≤ raw.ssdPages) (hlen : pos + count * pageSize ≤ data.len) :
    rawRamUpdate raw data count mem pos page = some fun x =>
      if 0 < raw.size ∧ page ≤ x / raw.size ∧ x / raw.size < page + count then
        data.byte (pos + (x / raw.size - page) * pageSize + x % raw.size) else mem x := by
  induction count generalizing mem pos page with
  | zero =>
    rw [rawRamUpdate]
    congr 1
    funext x
    rw [if_neg (by omega)]
  | succ count ih =>
    rw [Nat.add_mul] at hlen
    have hfirst := @rawRamDrainPage_spec raw data mem pos page (show page ≤ raw.ssdPages by omega)
      (show pos + pageSize ≤ data.len by omega)
    have hrest := @ih (fun x => if 0 < raw.size ∧ x / raw.size = page then
      data.byte (pos + x % raw.size) else mem x) (pos + pageSize) (page + 1) (by omega) (by omega)
    rw [rawRamUpdate, hfirst]
    simp only [Option.bind_some]
    rw [hrest]
    congr 1
    funext x
    by_cases hx : x / raw.size = page
    · have hsub : (x / raw.size - page) * pageSize = 0 := by
        rw [hx, Nat.sub_self, Nat.zero_mul]
      by_cases hsize : 0 < raw.size
      · rw [if_neg (by omega), if_pos ⟨hsize, hx⟩, if_pos ⟨hsize, by omega, by omega⟩, hsub]
        rfl
      · rw [if_neg (fun h => hsize h.1), if_neg (fun h => hsize h.1), if_neg (fun h => hsize h.1)]
    · by_cases hin : 0 < raw.size ∧ page + 1 ≤ x / raw.size ∧ x / raw.size < page + 1 + count
      · have hsub : pageSize + (x / raw.size - (page + 1)) * pageSize =
            (x / raw.size - page) * pageSize := by
          have hpred : x / raw.size - page = x / raw.size - (page + 1) + 1 := by omega
          rw [hpred, Nat.add_mul]
          omega
        rw [if_pos hin, if_pos ⟨hin.1, by omega, by omega⟩, Nat.add_assoc pos, hsub]
      · rw [if_neg hin, if_neg (fun h => hx h.2), if_neg (fun h => hin ⟨h.1, by omega, by omega⟩)]

/-- The memory is what a load reads. -/
def Mirrored (raw : RawRam) (mem dev : Bytes) : Prop :=
  ∀ x, 0 < raw.size → x / raw.size < raw.ssdPages → mem x = dev (raw.deviceByte x)

theorem loadAll_eq_self {mem dev : Bytes} :
    rawRamLoadAll raw mem dev = some mem ↔ Mirrored raw mem dev := by
  unfold rawRamLoadAll
  rw [rawRamUpdate_spec raw.ssdPages (by omega) (by simp)]
  simp only [Option.some.injEq, Nat.zero_le, true_and, Nat.zero_add, Nat.sub_zero]
  have hbyte : ∀ x, raw.ssdPagesOffset * pageSize + (x / raw.size * pageSize + x % raw.size) =
      raw.deviceByte x := by
    intro x
    rw [RawRam.deviceByte, Nat.add_mul, Nat.add_assoc]
  constructor
  · intro h x hsize hx
    have hat := congrFun h x
    rw [if_pos ⟨hsize, hx⟩, hbyte] at hat
    exact hat.symm
  · intro h
    funext x
    by_cases hin : 0 < raw.size ∧ x / raw.size < raw.ssdPages
    · rw [if_pos hin, hbyte, h x hin.1 hin.2]
    · rw [if_neg hin]

/-! ## One write -/

/-- A request for whole pages. -/
def PageAligned (m : Master) : Prop := m.addr % pageSize = 0 ∧ m.bytes % pageSize = 0

theorem bytesToPages_of_aligned {x : Nat} (h : x % pageSize = 0) :
    bytesToPages x * pageSize = x := by
  have hdecomp := Nat.div_add_mod x pageSize
  have hdiv : (x + (pageSize - 1)) / pageSize = x / pageSize := by
    have hsplit : x + (pageSize - 1) = (pageSize - 1) + pageSize * (x / pageSize) := by omega
    rw [hsplit, Nat.add_mul_div_left _ _ (by decide), Nat.div_eq_of_lt (by decide), Nat.zero_add]
  rw [bytesToPages, hdiv, Nat.mul_comm]
  omega

theorem u64Pred_of_pos {n : Nat} (h : 0 < n) : u64Pred n = n - 1 := by
  rw [u64Pred, if_neg (by omega)]

theorem overlap_inside {o : Overlap} (h : overlap raw m = some o) :
    o.page + o.count ≤ raw.ssdPages := by
  have hpos := raw.ssdPages_pos
  unfold overlap at h
  simp only [u64Pred_of_pos (by omega : 0 < raw.ssdPagesOffset + raw.ssdPages)] at h
  obtain ⟨hle, h⟩ := Option.ite_none_left_eq_some.mp h
  obtain rfl := Option.some.inj h
  simp only
  omega

theorem drainedPages_lt {p : Nat} (h : p ∈ drainedPages raw m) : p < raw.ssdPages := by
  unfold drainedPages at h
  split at h
  · cases h
  · rename_i o ho
    have hin := overlap_inside ho
    have hp := (List.mem_range'_1.mp h).2
    omega

theorem overlap_spec (ha : PageAligned m) (hf : Followed m) :
    match overlap raw m with
    | none => ∀ p, raw.ssdPagesOffset ≤ p → p < raw.ssdPagesOffset + raw.ssdPages →
        ¬ (bytesToPages m.addr ≤ p ∧ p < bytesToPages m.addr + bytesToPages m.bytes)
    | some o => o.startData + o.count ≤ bytesToPages m.bytes ∧
        bytesToPages m.addr + o.startData = raw.ssdPagesOffset + o.page ∧
        ∀ p, raw.ssdPagesOffset ≤ p → p < raw.ssdPagesOffset + raw.ssdPages →
          ((bytesToPages m.addr ≤ p ∧ p < bytesToPages m.addr + bytesToPages m.bytes) ↔
            raw.ssdPagesOffset + o.page ≤ p ∧ p < raw.ssdPagesOffset + o.page + o.count) := by
  have hpos := raw.ssdPages_pos
  have haddr := bytesToPages_of_aligned ha.1
  have hbytes := bytesToPages_of_aligned ha.2
  have hio : 0 < bytesToPages m.addr + bytesToPages m.bytes := by
    by_contra hzero
    refine hf.2 ⟨?_, ?_⟩
    · rw [← haddr, show bytesToPages m.addr = 0 by omega, Nat.zero_mul]
    · rw [← hbytes, show bytesToPages m.bytes = 0 by omega, Nat.zero_mul]
  unfold overlap
  simp only [u64Pred_of_pos hio,
    u64Pred_of_pos (by omega : 0 < raw.ssdPagesOffset + raw.ssdPages)]
  generalize bytesToPages m.addr = start at hio ⊢
  generalize bytesToPages m.bytes = count at hio ⊢
  by_cases hnone : min (start + count - 1) (raw.ssdPagesOffset + raw.ssdPages - 1) <
      max start raw.ssdPagesOffset
  · rw [if_pos hnone]
    omega
  · rw [if_neg hnone]
    dsimp only
    refine ⟨by omega, by omega, fun p hp hp' => ?_⟩
    omega

theorem byte_mem_write (ha : PageAligned m) {p r : Nat} (hr : r < pageSize) :
    (m.addr ≤ p * pageSize + r ∧ p * pageSize + r < m.addr + m.bytes) ↔
      bytesToPages m.addr ≤ p ∧ p < bytesToPages m.addr + bytesToPages m.bytes := by
  have haddr := bytesToPages_of_aligned ha.1
  have hbytes := bytesToPages_of_aligned ha.2
  have hp : (0 : Nat) < pageSize := by decide
  generalize bytesToPages m.addr = start at haddr ⊢
  generalize bytesToPages m.bytes = count at hbytes ⊢
  have hstop : m.addr + m.bytes = (start + count) * pageSize := by rw [Nat.add_mul]; omega
  constructor
  · rintro ⟨hlow, hhigh⟩
    have hlow' : start < p + 1 := by
      refine Nat.lt_of_mul_lt_mul_right (a := pageSize) ?_
      rw [Nat.add_mul]
      omega
    have hhigh' : p < start + count := by
      refine Nat.lt_of_mul_lt_mul_right (a := pageSize) ?_
      omega
    omega
  · rintro ⟨hlow, hhigh⟩
    have hlow' : start * pageSize ≤ p * pageSize := Nat.mul_le_mul_right _ hlow
    have hhigh' : (p + 1) * pageSize ≤ (start + count) * pageSize := Nat.mul_le_mul_right _ hhigh
    rw [Nat.add_mul p] at hhigh'
    omega

/-- A segment follows a write to the device. -/
theorem resumeSegment_mirrored (ha : PageAligned m) (hf : Followed m) {mem dev : Bytes}
    (h : Mirrored raw mem dev) :
    ∃ mem', resumeSegment raw m mem = some mem' ∧ Mirrored raw mem' (writeDevice dev m) := by
  have hshare := @overlap_spec raw m ha hf
  have haddr := bytesToPages_of_aligned ha.1
  have hbytes := bytesToPages_of_aligned ha.2
  have hdata := m.data_ok
  have hwrite : ∀ p r, r < pageSize → writeDevice dev m (p * pageSize + r) =
      if bytesToPages m.addr ≤ p ∧ p < bytesToPages m.addr + bytesToPages m.bytes then
        m.data.byte (p * pageSize + r - m.addr) else dev (p * pageSize + r) := by
    intro p r hr
    have hiff := byte_mem_write ha (p := p) hr
    simp only [writeDevice, hf.1, Nat.zero_add]
    by_cases hin : m.addr ≤ p * pageSize + r ∧ p * pageSize + r < m.addr + m.bytes
    · rw [if_pos hin, if_pos (hiff.mp hin)]
    · rw [if_neg hin, if_neg (fun h => hin (hiff.mpr h))]
  have hold : ∀ x, 0 < raw.size → x / raw.size < raw.ssdPages →
      mem x = dev ((raw.ssdPagesOffset + x / raw.size) * pageSize + x % raw.size) := h
  have hmod : ∀ x, 0 < raw.size → x % raw.size < pageSize := fun x hsize =>
    Nat.lt_of_lt_of_le (Nat.mod_lt x hsize) raw.size_le_page
  unfold resumeSegment
  cases ho : overlap raw m with
  | none =>
    rw [ho] at hshare
    refine ⟨mem, rfl, fun x hsize hx => ?_⟩
    have hbyte := hold x hsize hx
    rw [RawRam.deviceByte, hwrite _ _ (hmod x hsize)]
    generalize x / raw.size = q at hx hbyte ⊢
    rw [if_neg (hshare (raw.ssdPagesOffset + q) (by omega) (by omega))]
    exact hbyte
  | some o =>
    rw [ho] at hshare
    obtain ⟨hfits, hplace, hiff⟩ := hshare
    have hinside := overlap_inside ho
    have hlen : o.startData * pageSize + o.count * pageSize ≤ m.data.len := by
      have hmul : (o.startData + o.count) * pageSize ≤ bytesToPages m.bytes * pageSize :=
        Nat.mul_le_mul_right _ hfits
      rw [Nat.add_mul] at hmul
      omega
    refine ⟨_, rawRamUpdate_spec o.count hinside hlen, fun x hsize hx => ?_⟩
    have hbyte := hold x hsize hx
    rw [RawRam.deviceByte, hwrite _ _ (hmod x hsize)]
    generalize x / raw.size = q at hx hbyte ⊢
    generalize x % raw.size = r at hbyte ⊢
    have hpage := hiff (raw.ssdPagesOffset + q) (by omega) (by omega)
    by_cases hin : o.page ≤ q ∧ q < o.page + o.count
    · rw [if_pos ⟨hsize, hin⟩, if_pos (hpage.mpr (by omega))]
      -- The position in the data is the distance from the start of the write.
      obtain ⟨k, rfl⟩ : ∃ k, q = o.page + k := ⟨q - o.page, by omega⟩
      have hsum : raw.ssdPagesOffset + (o.page + k) =
          bytesToPages m.addr + (o.startData + k) := by omega
      have hdist : (raw.ssdPagesOffset + (o.page + k)) * pageSize + r - m.addr =
          o.startData * pageSize + k * pageSize + r := by
        rw [hsum, Nat.add_mul, Nat.add_mul, haddr, Nat.add_assoc, Nat.add_sub_cancel_left]
      rw [hdist, Nat.add_sub_cancel_left]
    · rw [if_neg (fun hm => hin hm.2), if_neg (fun hd => hin (by have := hpage.mp hd; omega))]
      exact hbyte

theorem mirrored_of_beyond (ha : PageAligned m) (hf : Followed m) {mem dev : Bytes} {pagesCount : Nat}
    (hle : raw.ssdPagesOffset + raw.ssdPages ≤ pagesCount)
    (hbeyond : pagesCount ≤ bytesToPages m.addr) (h : Mirrored raw mem dev) :
    Mirrored raw mem (writeDevice dev m) := by
  obtain ⟨mem', hres, hmir⟩ := resumeSegment_mirrored ha hf h
  have hnone : overlap raw m = none := by
    have hpos := raw.ssdPages_pos
    unfold overlap
    simp only [u64Pred_of_pos (by omega : 0 < raw.ssdPagesOffset + raw.ssdPages)]
    exact if_pos (by omega)
  rw [resumeSegment, hnone] at hres
  obtain rfl := Option.some.inj hres
  exact hmir

/-! ## Runs -/

variable {s t : State}

theorem passiveIoResume_some (h : passiveIoResume l s m = some t) :
    t.waiting = s.waiting ∧ t.submitted = s.submitted ∧ t.completed = s.completed ++ [(m, 0)] ∧
      t.drained = s.drained ++ (drainedPages l.sbConfig m).map (fun p => (Segment.sbConfig, p)) ++
        (drainedPages l.collision m).map (fun p => (Segment.collision, p)) := by
  obtain ⟨sb, -, h⟩ := Option.bind_eq_some_iff.mp h
  obtain ⟨coll, -, h⟩ := Option.bind_eq_some_iff.mp h
  obtain rfl := Option.some.inj h
  unfold State.write State.complete
  split <;> exact ⟨rfl, rfl, rfl, rfl⟩

theorem passiveIoResume_mirrors (ha : PageAligned m) (hf : Followed m) (hrw : m.rw ≠ .read)
    (h : Mirrors l s) : ∃ t, passiveIoResume l s m = some t ∧ Mirrors l t := by
  obtain ⟨sb, hsb, hmsb⟩ :=
    resumeSegment_mirrored ha hf (loadAll_eq_self.mp (h .sbConfig))
  obtain ⟨coll, hcoll, hmcoll⟩ :=
    resumeSegment_mirrored ha hf (loadAll_eq_self.mp (h .collision))
  simp only [Layout.raw] at hsb hcoll
  unfold passiveIoResume
  rw [hsb]
  simp only [Option.bind_some, hcoll]
  refine ⟨_, rfl, fun seg => loadAll_eq_self.mpr ?_⟩
  unfold State.write
  rw [if_neg hrw]
  cases seg with
  | sbConfig => exact hmsb
  | collision => exact hmcoll

/-- What holds in every run: every request is waiting or completed, once, and
no page outside a segment was drained. -/
structure Accounted (l : Layout) (s : State) : Prop where
  /-- The requests. -/
  requests : (s.waiting ++ s.completed.map Prod.fst).Perm s.submitted
  /-- The pages. -/
  pages : ∀ p ∈ s.drained, p.2 < (l.raw p.1).ssdPages

theorem perm_complete {w c u : List Master} (h : (w ++ c).Perm u) :
    (w ++ (c ++ [m])).Perm (u ++ [m]) := by
  rw [← List.append_assoc]
  exact h.append_right [m]

theorem drained_inside (h : ∀ p ∈ s.drained, p.2 < (l.raw p.1).ssdPages) :
    ∀ p ∈ s.drained ++ (drainedPages l.sbConfig m).map (fun p => (Segment.sbConfig, p)) ++
      (drainedPages l.collision m).map (fun p => (Segment.collision, p)),
      p.2 < (l.raw p.1).ssdPages := by
  intro p hp
  rcases List.mem_append.mp hp with hp | hp
  · rcases List.mem_append.mp hp with hp | hp
    · exact h p hp
    · obtain ⟨q, hq, rfl⟩ := List.mem_map.mp hp
      exact drainedPages_lt hq
  · obtain ⟨q, hq, rfl⟩ := List.mem_map.mp hp
    exact drainedPages_lt hq

theorem Accounted.resume (h : Accounted l s) {u : List Master}
    (hu : (s.waiting ++ s.completed.map Prod.fst ++ [m]).Perm u)
    (hstep : passiveIoResume l { s with submitted := u } m = some t) : Accounted l t := by
  obtain ⟨hwait, hsub, hdone, hdrain⟩ := passiveIoResume_some hstep
  refine ⟨?_, ?_⟩
  · rw [hwait, hsub, hdone, List.map_append, ← List.append_assoc]
    exact hu
  · rw [hdrain]
    exact drained_inside h.pages

theorem State.write_fields (s : State) (m : Master) : (s.write m).mem = s.mem ∧
    (s.write m).waiting = s.waiting ∧ (s.write m).submitted = s.submitted ∧
    (s.write m).completed = s.completed ∧ (s.write m).drained = s.drained := by
  unfold State.write
  split <;> exact ⟨rfl, rfl, rfl, rfl, rfl⟩

theorem Accounted.write_complete (h : Accounted l s) (error : Int) :
    Accounted l ((({ s with submitted := s.submitted ++ [m] } : State).write m).complete m error) := by
  obtain ⟨-, hwait, hsub, hdone, hdrain⟩ :=
    State.write_fields { s with submitted := s.submitted ++ [m] } m
  refine ⟨?_, ?_⟩
  · simp only [State.complete, hwait, hsub, hdone, List.map_append, List.map_cons, List.map_nil]
    exact perm_complete h.requests
  · simp only [State.complete, hdrain]
    exact h.pages

theorem Accounted.step {a : Act} (h : Accounted l s) (hstep : step l s a = some t) :
    Accounted l t := by
  cases a with
  | submit m answer =>
    simp only [PassiveUpdate.step, ocfMetadataPassiveUpdate] at hstep
    split at hstep
    · obtain rfl := Option.some.inj hstep
      exact h.write_complete _
    · cases answer with
      | noMem =>
        obtain rfl := Option.some.inj hstep
        exact h.write_complete _
      | lockError error =>
        obtain ⟨-, hstep⟩ := Option.ite_none_right_eq_some.mp hstep
        obtain rfl := Option.some.inj hstep
        exact h.write_complete _
      | acquired => exact h.resume (h.requests.append_right [m]) hstep
      | notAcquired =>
        obtain rfl := Option.some.inj hstep
        refine ⟨?_, h.pages⟩
        have hswap : (s.waiting ++ [m] ++ s.completed.map Prod.fst).Perm
            (s.waiting ++ s.completed.map Prod.fst ++ [m]) := by
          rw [List.append_assoc, List.append_assoc]
          exact List.perm_append_comm.append_left _
        exact hswap.trans (h.requests.append_right [m])
  | resume i =>
    obtain ⟨m, hm, hstep⟩ := Option.bind_eq_some_iff.mp hstep
    obtain ⟨hi, hm⟩ := List.getElem?_eq_some_iff.mp hm
    have herase : (s.waiting.eraseIdx i ++ [m]).Perm s.waiting := by
      have hperm := List.getElem_cons_eraseIdx_perm hi
      rw [hm] at hperm
      exact (List.perm_append_singleton m _).trans hperm
    have hold : Accounted l { s with
        waiting := s.waiting.eraseIdx i, submitted := s.waiting.eraseIdx i ++ s.completed.map Prod.fst } :=
      ⟨List.Perm.refl _, h.pages⟩
    refine hold.resume (u := s.submitted) ?_ hstep
    have hmove : (s.waiting.eraseIdx i ++ s.completed.map Prod.fst ++ [m]).Perm
        (s.waiting.eraseIdx i ++ [m] ++ s.completed.map Prod.fst) := by
      rw [List.append_assoc, List.append_assoc]
      exact List.perm_append_comm.append_left _
    exact hmove.trans ((herase.append_right _).trans h.requests)

theorem refused_step {answer : Answer} (hr : Refused l m answer)
    (hstep : step l s (.submit m answer) = some t) :
    t.mem = s.mem ∧ t.waiting = s.waiting ∧ t.drained = s.drained ∧
      ∃ error, error ≠ 0 ∧ t.completed = s.completed ++ [(m, error)] := by
  obtain ⟨hmem, hwait, -, hdone, hdrain⟩ :=
    State.write_fields { s with submitted := s.submitted ++ [m] } m
  have hstate : ∀ error : Int, error ≠ 0 →
      (({ s with submitted := s.submitted ++ [m] } : State).write m).complete m error = t →
      t.mem = s.mem ∧ t.waiting = s.waiting ∧ t.drained = s.drained ∧
        ∃ error, error ≠ 0 ∧ t.completed = s.completed ++ [(m, error)] := by
    rintro error herr rfl
    exact ⟨hmem, hwait, hdrain, error, herr, by simp only [State.complete, hdone]⟩
  simp only [PassiveUpdate.step, ocfMetadataPassiveUpdate] at hstep
  unfold Refused at hr
  cases hcheck : checkUpdate l m with
  | complete error =>
    rw [hcheck] at hr hstep
    exact hstate error hr (Option.some.inj hstep)
  | lock =>
    rw [hcheck] at hr hstep
    rcases hr with rfl | ⟨error, rfl⟩
    · exact hstate errNoMem (by decide) (Option.some.inj hstep)
    · obtain ⟨hneg, hstep⟩ := Option.ite_none_right_eq_some.mp hstep
      exact hstate error (by omega) (Option.some.inj hstep)

/-- The requests that the mirror is promised for. -/
def Allowed (l : Layout) (m : Master) (answer : Answer) : Prop :=
  PageAligned m ∧ ¬ Refused l m answer ∧ Followed m

/-- What holds in a run of such requests. -/
structure Following (l : Layout) (s : State) : Prop where
  /-- The mirror is right. -/
  mirrors : Mirrors l s
  /-- Waiting writes keep it right. -/
  waiting : ∀ m ∈ s.waiting, PageAligned m ∧ Followed m ∧ m.rw ≠ .read

theorem rw_of_lock (h : checkUpdate l m = .lock) : m.rw ≠ .read := by
  intro hread
  rw [checkUpdate, if_pos hread] at h
  cases h

theorem complete_mirrors {error : Int} (hcheck : checkUpdate l m = .complete error)
    (hok : error = 0) (ha : PageAligned m) (hf : Followed m) (h : Mirrors l s) :
    Mirrors l (s.write m) := by
  intro seg
  obtain ⟨hmem, -⟩ := State.write_fields s m
  rw [hmem, loadAll_eq_self]
  have hold := loadAll_eq_self.mp (h seg)
  unfold State.write
  by_cases hread : m.rw = .read
  · rw [if_pos hread]
    exact hold
  · rw [if_neg hread]
    have hbeyond : l.pagesCount ≤ bytesToPages m.addr := by
      by_contra hin
      rw [checkUpdate, if_neg hread, if_neg hin, if_neg (by simp [ha.1, ha.2])] at hcheck
      split at hcheck
      · obtain rfl := Verdict.complete.inj hcheck
        exact absurd hok (by decide)
      · cases hcheck
    cases seg with
    | sbConfig => exact mirrored_of_beyond ha hf l.sbConfig_le hbeyond hold
    | collision => exact mirrored_of_beyond ha hf l.collision_le hbeyond hold

theorem Following.submit {answer : Answer} (h : Following l s) (hok : Allowed l m answer) :
    ∃ t, step l s (.submit m answer) = some t ∧ Following l t := by
  obtain ⟨ha, hr, hf⟩ := hok
  simp only [step, ocfMetadataPassiveUpdate]
  have hmir : Mirrors l { s with submitted := s.submitted ++ [m] } := h.mirrors
  cases hcheck : checkUpdate l m with
  | complete error =>
    have hzero : error = 0 := by
      by_contra hne
      exact hr (by simp only [Refused, hcheck]; exact hne)
    refine ⟨_, rfl, ⟨complete_mirrors hcheck hzero ha hf hmir, ?_⟩⟩
    have hwait := (State.write_fields { s with submitted := s.submitted ++ [m] } m).2.1
    simp only [State.complete, hwait]
    exact h.waiting
  | lock =>
    have hrw := rw_of_lock hcheck
    cases answer with
    | noMem => exact absurd (by simp only [Refused, hcheck]; exact .inl trivial) hr
    | lockError error =>
      exact absurd (by simp only [Refused, hcheck]; exact .inr ⟨error, rfl⟩) hr
    | acquired =>
      obtain ⟨t, ht, hmt⟩ := passiveIoResume_mirrors ha hf hrw hmir
      refine ⟨t, ht, hmt, ?_⟩
      rw [(passiveIoResume_some ht).1]
      exact h.waiting
    | notAcquired =>
      refine ⟨_, rfl, hmir, fun w hw => ?_⟩
      rcases List.mem_append.mp hw with hw | hw
      · exact h.waiting w hw
      · rw [List.mem_singleton.mp hw]
        exact ⟨ha, hf, hrw⟩

theorem Following.resume {i : Nat} (h : Following l s) (hi : i < s.waiting.length) :
    ∃ t, step l s (.resume i) = some t ∧ Following l t := by
  obtain ⟨ha, hf, hrw⟩ := h.waiting _ (List.getElem_mem hi)
  have hmir : Mirrors l { s with waiting := s.waiting.eraseIdx i } := h.mirrors
  obtain ⟨t, ht, hmt⟩ := passiveIoResume_mirrors ha hf hrw hmir
  refine ⟨t, ?_, hmt, ?_⟩
  · simp only [step, List.getElem?_eq_getElem hi, Option.bind_some]
    exact ht
  · rw [(passiveIoResume_some ht).1]
    exact fun w hw => h.waiting w (List.mem_of_mem_eraseIdx hw)

theorem Following.step {a : Act} (h : Following l s)
    (hg : (system l (Allowed l)).guard s a) (hstep : step l s a = some t) : Following l t := by
  cases a with
  | submit m answer =>
    obtain ⟨t', ht', hfol⟩ := h.submit hg
    rw [ht'] at hstep
    obtain rfl := Option.some.inj hstep
    exact hfol
  | resume i =>
    have hi : i < s.waiting.length := by
      by_contra hout
      simp only [PassiveUpdate.step, List.getElem?_eq_none (by omega : s.waiting.length ≤ i)] at hstep
      cases hstep
    obtain ⟨t', ht', hfol⟩ := h.resume hi
    rw [ht'] at hstep
    obtain rfl := Option.some.inj hstep
    exact hfol

/-- In every run of accepted writes of whole pages, whose data starts with its
buffer and which are not empty at the start of the device, the segments in
memory are what a load would read, and every write can be applied. In every
run, every request is waiting or completed once, no page outside a segment is
drained, and a refused request leaves the memory alone and is completed with
an error. -/
theorem mirror_run (l : Layout) (s₀ : State) (h₀ : Fresh l s₀) (s : State) :
    (Reachable (system l (Allowed l)) s₀ s → Mirrors l s ∧
      (∀ i < s.waiting.length, ∃ t, step l s (.resume i) = some t) ∧
      ∀ m answer, Allowed l m answer → ∃ t, step l s (.submit m answer) = some t) ∧
    (Reachable (system l fun _ _ => True) s₀ s →
      (s.waiting ++ s.completed.map Prod.fst).Perm s.submitted ∧
      (∀ p ∈ s.drained, p.2 < (l.raw p.1).ssdPages) ∧
      ∀ m answer t, Refused l m answer → step l s (.submit m answer) = some t →
        t.mem = s.mem ∧ t.waiting = s.waiting ∧ t.drained = s.drained ∧
          ∃ error, error ≠ 0 ∧ t.completed = s.completed ++ [(m, error)]) := by
  obtain ⟨hwait, hsub, hdone, hdrain⟩ := h₀.quiet
  refine ⟨fun h => ?_, fun h => ?_⟩
  · have hinv : Following l s := h.invariant
      (fun _ => ⟨h₀.mirrors, by simp [hwait]⟩)
      (fun _ _ _ hinv _ hg hstep _ => hinv.step hg hstep)
    refine ⟨hinv.mirrors, fun i hi => ?_, fun m answer hok => ?_⟩
    · obtain ⟨t, ht, -⟩ := hinv.resume hi
      exact ⟨t, ht⟩
    · obtain ⟨t, ht, -⟩ := hinv.submit hok
      exact ⟨t, ht⟩
  · have hinv : Accounted l s := h.invariant
      (fun _ => ⟨by simp [hwait, hdone, hsub], by simp [hdrain]⟩)
      (fun _ _ _ hinv _ _ hstep _ => hinv.step hstep)
    exact ⟨hinv.requests, hinv.pages, fun m answer t hr hstep => refused_step hr hstep⟩

theorem reachable_submit {allowed : Master → Answer → Prop} {s₀ : State} {answer : Answer}
    (h : Reachable (system l allowed) s₀ s) (hok : allowed m answer)
    (hstep : step l s (.submit m answer) = some t) : Reachable (system l allowed) s₀ t :=
  h.next (.submit m answer) hok hstep

/-- A metadata area of two pages, one for each segment. -/
def smallLayout : Layout where
  sbConfig := ⟨0, 1, Nat.zero_lt_one, 4096, 1, Nat.le_refl 4096⟩
  collision := ⟨1, 1, Nat.zero_lt_one, 16, 255, Nat.le_of_ble_eq_true rfl⟩
  pagesCount := 2
  sbConfig_le := Nat.le_succ 1
  collision_le := Nat.le_refl 2

/-- A standby cache whose device and segments are all ones. -/
def allOnes : State := ⟨fun _ => 1, fun _ _ => 1, [], [], [], []⟩

theorem fresh_allOnes : Fresh smallLayout allOnes :=
  ⟨fun _ => loadAll_eq_self.mpr fun _ _ _ => rfl, rfl, rfl, rfl, rfl⟩

/-- A write of `bytes` zero bytes from the start of the device. -/
def zeroWrite (bytes : Nat) (h : bytes ≤ 8192) : Master :=
  ⟨0, bytes, 0, .write, ⟨8192, fun _ => 0⟩, (Nat.zero_add bytes).symm ▸ h⟩

/-- A write of the first page. -/
def firstPage : Master := zeroWrite 4096 (Nat.le_of_ble_eq_true rfl)

/-- A write of no byte. -/
def emptyWrite : Master := zeroWrite 0 (Nat.zero_le 8192)

/-- The mirror after a write of the first page. -/
theorem mirror_run_firstPage : ∃ s, Reachable (system smallLayout (Allowed smallLayout)) allOnes s ∧
      Mirrors smallLayout s := by
  have hcheck : checkUpdate smallLayout firstPage = .lock := by decide
  have hallowed : Allowed smallLayout firstPage .acquired :=
    ⟨⟨by decide, by decide⟩, by simp [Refused, hcheck], rfl, fun h => absurd h.2 (by decide)⟩
  have hstart : Reachable (system smallLayout (Allowed smallLayout)) allOnes allOnes := .refl trivial
  obtain ⟨s, hs⟩ := ((mirror_run smallLayout allOnes fresh_allOnes allOnes).1 hstart).2.2 _ _ hallowed
  have hrun := reachable_submit hstart hallowed hs
  exact ⟨s, hrun, ((mirror_run smallLayout allOnes fresh_allOnes s).1 hrun).1⟩

/-- An empty write at the start of the device overwrites the mirror. -/
theorem empty_write_breaks_mirror : ¬ ∀ (l : Layout) (s₀ s : State), Fresh l s₀ →
      Reachable (system l fun m answer => PageAligned m ∧ ¬ Refused l m answer) s₀ s →
      Mirrors l s := by
  intro h
  have hcheck : checkUpdate smallLayout emptyWrite = .lock := by decide
  have hempty : PageAligned emptyWrite ∧ ¬ Refused smallLayout emptyWrite .acquired :=
    ⟨⟨by decide, by decide⟩, by simp [Refused, hcheck]⟩
  have hosb : overlap smallLayout.sbConfig emptyWrite = some ⟨0, 0, 1⟩ := by
    simp [overlap, smallLayout, emptyWrite, zeroWrite, bytesToPages, u64Pred, u64Max, pageSize]
  have hocoll : overlap smallLayout.collision emptyWrite = some ⟨1, 0, 1⟩ := by
    simp [overlap, smallLayout, emptyWrite, zeroWrite, bytesToPages, u64Pred, u64Max, pageSize]
  have hsb : resumeSegment smallLayout.sbConfig emptyWrite (fun _ => 1) =
      rawRamUpdate smallLayout.sbConfig ⟨8192, fun _ => 0⟩ 1 (fun _ => 1) 0 0 := by
    rw [resumeSegment, hosb]
    rfl
  have hcoll : resumeSegment smallLayout.collision emptyWrite (fun _ => 1) =
      rawRamUpdate smallLayout.collision ⟨8192, fun _ => 0⟩ 1 (fun _ => 1) (1 * pageSize) 0 := by
    rw [resumeSegment, hocoll]
    rfl
  obtain ⟨t, ht, hmem, hdev⟩ : ∃ t, step smallLayout allOnes
      (.submit emptyWrite .acquired) = some t ∧ t.mem .sbConfig 0 = 0 ∧
      t.dev 0 = 1 := by
    have hstep : step smallLayout allOnes (.submit emptyWrite .acquired) =
        passiveIoResume smallLayout { allOnes with submitted := [emptyWrite] }
          emptyWrite := rfl
    rw [hstep]
    unfold passiveIoResume
    simp only [allOnes, hsb, hcoll]
    exact ⟨_, rfl, rfl, rfl⟩
  have hstart : Reachable (system smallLayout
      fun m answer => PageAligned m ∧ ¬ Refused smallLayout m answer) allOnes allOnes := .refl trivial
  have hrun := reachable_submit hstart hempty ht
  have hmir := loadAll_eq_self.mp (h smallLayout allOnes t fresh_allOnes hrun .sbConfig)
  have hzero := hmir 0 (by decide) (by decide)
  have hbyte : (smallLayout.raw .sbConfig).deviceByte 0 = 0 := by decide
  rw [hbyte, hdev, hmem] at hzero
  exact absurd hzero (by decide)

end OcfCache.PassiveUpdate
