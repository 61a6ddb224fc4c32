import Mathlib.Data.List.Basic
import Mathlib.Data.Nat.Basic
import OcfCache.Constants

/-!
# Cache line metadata

The part of the metadata that the I/O engines read and change: the collision
lists of the hash buckets with the core line of every cache line, the valid
and dirty bits of its blocks, and its partition. A status word is a set of
block indices, and the links of a collision list are the list they represent.
Core addresses, request lengths and status bits count in blocks
(`OCF_BLOCK_SIZE` bytes), which is the unit of every address the engines see.
-/

namespace OcfCache.Metadata

open Function

/-- Constants of a cache instance. -/
structure Geometry where
  /-- `ocf_line_blocks`. -/
  lineBlocks : Nat
  /-- A cache line has at least one block. -/
  lineBlocks_pos : 0 < lineBlocks
  /-- `hash_table_entries`. -/
  hashEntries : Nat
  /-- `collision_table_entries`, also the index that stands for no line. -/
  collisionEntries : Nat
  /-- First block of the cache lines on the cache device. -/
  metadataOffset : Nat

theorem eightBlocks_pos : 0 < 8 := by decide

/-- `ocf_line_end_block`. -/
def Geometry.endBlock (g : Geometry) : Nat := g.lineBlocks - 1

/-- Status bits of the blocks of one cache line. -/
abbrev Bits := Nat → Bool

/-- All bits of a range, both ends included. -/
def testAll (b : Bits) (start stop : Nat) : Bool :=
  decide (∀ i, i ≤ stop → start ≤ i → b i = true)

/-- Some bit of a range. -/
def testAny (b : Bits) (start stop : Nat) : Bool := !testAll (fun i => !b i) start stop

/-- Set the bits of a range. -/
def setRange (b : Bits) (start stop : Nat) : Bits :=
  fun i => b i || decide (start ≤ i ∧ i ≤ stop)

/-- Clear the bits of a range. -/
def clearRange (b : Bits) (start stop : Nat) : Bits :=
  fun i => b i && !decide (start ≤ i ∧ i ≤ stop)

@[simp] theorem testAll_eq_true {b : Bits} {start stop : Nat} :
    testAll b start stop = true ↔ ∀ i, i ≤ stop → start ≤ i → b i = true := by
  simp [testAll]

@[simp] theorem testAny_eq_true {b : Bits} {start stop : Nat} :
    testAny b start stop = true ↔ ∃ i, i ≤ stop ∧ start ≤ i ∧ b i = true := by
  simp only [testAny, testAll, Bool.not_eq_true', decide_eq_false_iff_not]
  push Not
  simp

/-- Metadata of all cache lines. -/
structure LineTable where
  /-- Collision list of each hash bucket, head first. -/
  hash : Nat → List Nat
  /-- Core id and core line of a cache line. -/
  coreInfo : Nat → Nat × Nat
  /-- Valid blocks of a cache line. -/
  valid : Nat → Bits
  /-- Dirty blocks of a cache line. -/
  dirty : Nat → Bits
  /-- Partition of a cache line. -/
  partitionId : Nat → Nat

/-- `ULLONG_MAX`, the core line of an unmapped line. -/
def ullongMax : Nat := 2 ^ 64 - 1

/-- `ocf_metadata_hash_func`. The product has 32 bits; a core line is a byte
address divided by the line size, so the 64-bit sum does not overflow. -/
def ocfMetadataHashFunc (g : Geometry) (coreLine coreId : Nat) : Nat :=
  (coreLine + coreId * (g.hashEntries / 32) % 2 ^ 32) % g.hashEntries

/-- `ocf_metadata_add_to_collision`. -/
def ocfMetadataAddToCollision (md : LineTable) (coreId coreLine hash line : Nat) : LineTable :=
  { md with
    coreInfo := update md.coreInfo line (coreId, coreLine)
    hash := update md.hash hash (line :: md.hash hash) }

/-- `ocf_metadata_remove_from_collision`. -/
def ocfMetadataRemoveFromCollision (g : Geometry) (md : LineTable) (line : Nat) : LineTable :=
  let hashFather := ocfMetadataHashFunc g (md.coreInfo line).2 (md.coreInfo line).1
  { md with
    hash := update md.hash hashFather ((md.hash hashFather).erase line)
    coreInfo := update md.coreInfo line (ocfCoreNum, ullongMax) }

/-- The walk over one collision list for a core line. -/
def findLine (md : LineTable) (coreId coreLine : Nat) (lines : List Nat) : Option Nat :=
  lines.find? fun line => decide (md.coreInfo line = (coreId, coreLine))

/-- Cache line found for a core line by a walk over its bucket. -/
def lookupLine (g : Geometry) (md : LineTable) (coreId coreLine : Nat) : Option Nat :=
  findLine md coreId coreLine (md.hash (ocfMetadataHashFunc g coreLine coreId))

/-- `metadata_test_valid_sec`. -/
def metadataTestValidSec (md : LineTable) (line start stop : Nat) : Bool :=
  testAll (md.valid line) start stop

/-- `metadata_test_dirty_sec`. -/
def metadataTestDirtySec (md : LineTable) (line start stop : Nat) : Bool :=
  testAny (md.dirty line) start stop

/-- `metadata_test_dirty_all_sec`. -/
def metadataTestDirtyAllSec (md : LineTable) (line start stop : Nat) : Bool :=
  testAll (md.dirty line) start stop

/-- `metadata_test_dirty`. -/
def metadataTestDirty (g : Geometry) (md : LineTable) (line : Nat) : Bool :=
  testAny (md.dirty line) 0 g.endBlock

/-- `metadata_test_valid_any`. -/
def metadataTestValidAny (g : Geometry) (md : LineTable) (line : Nat) : Bool :=
  testAny (md.valid line) 0 g.endBlock

end OcfCache.Metadata
