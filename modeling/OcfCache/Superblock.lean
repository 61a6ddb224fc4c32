import Mathlib.Algebra.GroupWithZero.Nat
import OcfCache.Runs
import OcfCache.WriteCache

/-!
# Superblock updates

`metadata_superblock.c`, `metadata_segment.c` and the flush of
`metadata_raw.c`. The superblock page selects one of two copies of the three
segments. A run writes the other copy page by page, flushes the device, turns
the index in memory, writes the superblock page and flushes again. A record
is a superblock together with the segment contents of the run that wrote it.
-/

namespace OcfCache.Superblock

open Runs WriteCache

/-- The segments of `ocf_metadata_flush_sb_args`. -/
inductive Segment
  /-- `metadata_segment_part_config`. -/
  | partConfig
  /-- `metadata_segment_core_config`. -/
  | coreConfig
  /-- `metadata_segment_core_uuid`. -/
  | coreUuid
  deriving DecidableEq

/-- `ocf_metadata_flush_sb_args`. -/
def ocfMetadataFlushSbArgs : List Segment := [.partConfig, .coreConfig, .coreUuid]

/-- `struct ocf_superblock_config`. -/
structure SuperblockConfig (β : Type*) where
  /-- `flapping_idx`. -/
  flappingIdx : Nat
  /-- The other fields in front of the checksums. -/
  fields : β
  /-- `checksum` of the segments. -/
  checksum : Segment → Nat
  /-- `checksum[metadata_segment_sb_config]`. -/
  checksumSbConfig : Nat

/-- Contents of the segments, page by page. -/
abbrev Contents (α : Type*) := Segment → Nat → α

/-- A superblock and the segments of the run that wrote it. -/
structure Record (α β : Type*) where
  /-- The superblock. -/
  sb : SuperblockConfig β
  /-- The segments. -/
  contents : Contents α

/-- Sizes and checksums. -/
structure Layout (α β : Type*) where
  /-- `raw->ssd_pages` of a segment. -/
  ssdPages : Segment → Nat
  /-- `env_crc32` over the pages of a segment. -/
  crc : List α → Nat
  /-- `env_crc32` over the superblock in front of the checksums. -/
  crcSb : Nat → β → Nat
  /-- `metadata.is_volatile`. -/
  isVolatile : Bool

/-- Steps of the pipeline. -/
inductive Handler
  /-- `ocf_metadata_calculate_crc`. -/
  | calculateCrc (g : Segment)
  /-- `ocf_metadata_flush_segment`. -/
  | flushSegment (g : Segment)
  /-- `ocf_metadata_flush_disk`. -/
  | flushDisk
  /-- `ocf_metadata_flush_superblock_flap`. -/
  | flap
  /-- `ocf_metadata_calculate_crc_sb_config`. -/
  | calculateCrcSbConfig
  /-- `ocf_metadata_flush_segment` of `metadata_segment_sb_config`. -/
  | flushSbConfig
  deriving DecidableEq

/-- Steps in front of the first flush of the device. -/
def copySteps : List Handler :=
  ocfMetadataFlushSbArgs.map .calculateCrc ++ ocfMetadataFlushSbArgs.map .flushSegment

/-- Steps behind the turn of the index. -/
def turnSteps : List Handler := [.calculateCrcSbConfig, .flushSbConfig, .flushDisk]

/-- `ocf_metadata_flush_sb_pipeline_props`. -/
def ocfMetadataFlushSbPipelineProps : List Handler := copySteps ++ .flushDisk :: .flap :: turnSteps

/-- A run of the pipeline. -/
structure Run where
  /-- Steps that are not done; the first one is under way. -/
  steps : List Handler
  /-- Pages of the segment under way whose write was issued. -/
  issued : List Nat
  /-- Pages of the segment under way whose write was acknowledged. -/
  acked : List Nat
  deriving DecidableEq

/-- The next step begins. -/
def Run.next (r : Run) : Run := ⟨r.steps.tail, [], []⟩

/-- Memory, device and pipeline. -/
structure State (α β : Type*) where
  /-- Segments in memory. -/
  contents : Contents α
  /-- Superblock in memory. -/
  sb : SuperblockConfig β
  /-- `metadata_error`. -/
  metadataError : Bool
  /-- Copies of the segments on the device, by index. -/
  copies : Segment → Nat → Nat → Page α
  /-- The superblock page of the device, with the segments of the run that wrote it. -/
  sbPage : Page (Record α β)
  /-- The run under way. -/
  run : Option Run

section Run

variable {α β : Type*} (l : Layout α β)

/-- `ocf_metadata_raw_checksum`. -/
def ocfMetadataRawChecksum (c : Nat → α) (g : Segment) : Nat := l.crc ((List.range (l.ssdPages g)).map c)

/-- `ocf_metadata_superblock_get_next_flapping_idx`. -/
def ocfMetadataSuperblockGetNextFlappingIdx (sb : SuperblockConfig β) : Nat := (sb.flappingIdx + 1) % 2

/-- `(flapping_idx - 1) % 2` on an unsigned number. -/
def prevFlappingIdx (idx : Nat) : Nat := (idx + (2 ^ 32 - 1)) % 2 ^ 32 % 2

/-- `ocf_metadata_superblock_set_checksum`. -/
def ocfMetadataSuperblockSetChecksum (sb : SuperblockConfig β) (g : Segment) (csum : Nat) : SuperblockConfig β :=
  { sb with checksum := fun h => if h = g then csum else sb.checksum h }

/-- One page of a copy changes. -/
def State.modifyPage (s : State α β) (g : Segment) (i p : Nat) (f : Page α → Page α) : State α β :=
  { s with copies := fun h j q => if h = g ∧ j = i ∧ q = p then f (s.copies h j q) else s.copies h j q }

/-- `ocf_metadata_calculate_crc`. -/
def ocfMetadataCalculateCrc (s : State α β) (g : Segment) : State α β :=
  { s with sb := ocfMetadataSuperblockSetChecksum s.sb g (ocfMetadataRawChecksum l (s.contents g) g) }

/-- `ocf_metadata_flush_superblock_flap`. -/
def ocfMetadataFlushSuperblockFlap (s : State α β) : State α β :=
  { s with sb := { s.sb with flappingIdx := (s.sb.flappingIdx + 1) % 2 } }

/-- `ocf_metadata_calculate_crc_sb_config`. -/
def ocfMetadataCalculateCrcSbConfig (s : State α β) : State α β :=
  { s with sb := { s.sb with checksumSbConfig := l.crcSb s.sb.flappingIdx s.sb.fields } }

/-- A flush of the device completes. -/
def State.flushPages (s : State α β) : State α β :=
  { s with copies := fun g i p => (s.copies g i p).flush, sbPage := s.sbPage.flush }

/-- A run ends with an error and leaves an index. -/
def State.endWithError (s : State α β) (flappingIdx : Nat) : State α β :=
  { s with metadataError := true, sb := { s.sb with flappingIdx }, run := none }

/-- `ocf_metadata_flush_superblock_finish` with an error. -/
def ocfMetadataFlushSuperblockFinish (s : State α β) : State α β :=
  s.endWithError (prevFlappingIdx s.sb.flappingIdx)

/-- `ocf_metadata_flush_superblock`. -/
def ocfMetadataFlushSuperblock (s : State α β) : State α β :=
  if l.isVolatile then s else { s with run := some ⟨ocfMetadataFlushSbPipelineProps, [], []⟩ }

/-- What happens. -/
inductive Act (α β : Type*)
  /-- The configuration changes. -/
  | configure (contents : Contents α) (fields : β)
  /-- `ocf_metadata_flush_superblock` is called. -/
  | start
  /-- It is called, and the pipeline cannot be created. -/
  | refuse
  /-- The step under way does no I/O and goes through. -/
  | pass
  /-- A page of the segment under way is filled and its write issued. -/
  | writePage (p : Nat)
  /-- Its write is acknowledged. -/
  | ackPage (p : Nat)
  /-- The write of the superblock page is issued. -/
  | writeSb
  /-- It is acknowledged. -/
  | ackSb
  /-- All writes of the segment under way are acknowledged. -/
  | written
  /-- The flush of the device completes. -/
  | flushed
  /-- The segment write or the flush under way ends with an error. -/
  | fail
  /-- The pipeline is through. -/
  | finish

/-- The step under way. -/
def Run.under (r : Run) (h : Handler) : Prop := r.steps.head? = some h

/-- Number of pages that the step under way writes. -/
def Run.pages (r : Run) : Nat :=
  match r.steps.head? with
  | some (.flushSegment g) => l.ssdPages g
  | some .flushSbConfig => 1
  | _ => 0

/-- What may happen during a run. -/
def runGuard (r : Run) : Act α β → Prop
  | .pass => (∃ g, r.under (.calculateCrc g)) ∨ r.under .flap ∨ r.under .calculateCrcSbConfig
  | .writePage p => (∃ g, r.under (.flushSegment g)) ∧ p < r.pages l ∧ p ∉ r.issued
  | .writeSb => r.under .flushSbConfig ∧ 0 ∉ r.issued
  | .ackPage p => (∃ g, r.under (.flushSegment g)) ∧ p ∈ r.issued
  | .ackSb => r.under .flushSbConfig ∧ 0 ∈ r.issued
  | .written => ((∃ g, r.under (.flushSegment g)) ∨ r.under .flushSbConfig) ∧ ∀ p < r.pages l, p ∈ r.acked
  | .flushed => r.under .flushDisk
  | .fail => (∃ g, r.under (.flushSegment g)) ∨ r.under .flushSbConfig ∨ r.under .flushDisk
  | .finish => r.steps = []
  | _ => False

/-- The configuration changes between two runs only. -/
def guard (s : State α β) : Act α β → Prop
  | .configure _ _ | .start | .refuse => s.run = none
  | act => ∃ r, s.run = some r ∧ runGuard l r act

/-- The step of the pipeline that is under way goes through. -/
def pass (s : State α β) (r : Run) : State α β :=
  let s := { s with run := some r.next }
  match r.steps.head? with
  | some (.calculateCrc g) => ocfMetadataCalculateCrc l s g
  | some .flap => ocfMetadataFlushSuperblockFlap s
  | some .calculateCrcSbConfig => ocfMetadataCalculateCrcSbConfig l s
  | _ => s

/-- Effect of what happens during a run. -/
def runStep (s : State α β) (r : Run) : Act α β → State α β
  | .pass => pass l s r
  | .writePage p =>
    match r.steps.head? with
    | some (.flushSegment g) =>
      { s.modifyPage g (ocfMetadataSuperblockGetNextFlappingIdx s.sb) p (·.write (s.contents g p)) with
        run := some { r with issued := p :: r.issued } }
    | _ => s
  | .ackPage p =>
    match r.steps.head? with
    | some (.flushSegment g) =>
      { s.modifyPage g (ocfMetadataSuperblockGetNextFlappingIdx s.sb) p (·.ack) with
        run := some { r with acked := p :: r.acked } }
    | _ => s
  | .writeSb => { s with
      sbPage := s.sbPage.write ⟨s.sb, s.contents⟩, run := some { r with issued := 0 :: r.issued } }
  | .ackSb => { s with sbPage := s.sbPage.ack, run := some { r with acked := 0 :: r.acked } }
  | .written => { s with run := some r.next }
  | .flushed => { s.flushPages with run := some r.next }
  | .fail => ocfMetadataFlushSuperblockFinish s
  | .finish => { s with run := none }
  | _ => s

/-- Effect of what happens. -/
def step (s : State α β) : Act α β → Option (State α β)
  | .configure contents fields => some { s with contents, sb := { s.sb with fields } }
  | .start => some (ocfMetadataFlushSuperblock l s)
  | .refuse => some s
  | act => s.run.map fun r => runStep l s r act

/-- Runs in which only some of the allowed steps are taken. -/
def system (allowed : State α β → Act α β → Prop) : System (State α β) (Act α β) where
  guard s act := guard l s act ∧ allowed s act
  step := step l

end Run

end OcfCache.Superblock
