import Mathlib.Data.List.Find
import OcfCache.Acp

/-!
# The chunk that ACP cleans next

Embedding of `_acp_get_cleaning_candidate` with the time stamp that a cleaning
error leaves in a chunk. The search goes through the buckets from the fullest
down and takes the first chunk that can be cleaned. The module shows when it
takes a chunk of the fullest bucket that has one outside its backoff window: the
comparison with the time stamp is the wrong way round, so no chunk with an
expired time stamp is ever taken.
-/

namespace OcfCache.AcpCandidate

open Acp

/-- `ACP_CHUNK_CLEANING_BACKOFF_TIME` in seconds. -/
def acpChunkCleaningBackoffTime : Nat := 5

/-- The policy as far as the choice of a chunk depends on it. -/
structure State where
  /-- Chunk lists of the buckets. -/
  acp : AcpContext
  /-- `core->opened`. -/
  opened : Nat → Bool
  /-- `next_cleaning_timestamp` of a chunk; zero if it was never set. -/
  nextCleaningTimestamp : ChunkKey → Nat

/-- The end of a flush request. -/
structure Flush where
  /-- `flush.chunk`. -/
  chunk : ChunkKey
  /-- Result of the request. -/
  error : Int
  /-- The tick count when it ends. -/
  tick : Nat

/-- `_acp_handle_flush_error`; the tick count does not wrap around. -/
def acpHandleFlushError (ticksPerSec : Nat) (s : State) (flush : Flush) : State :=
  let deadline := flush.tick + acpChunkCleaningBackoffTime * ticksPerSec
  { s with nextCleaningTimestamp := Function.update s.nextCleaningTimestamp flush.chunk deadline }

/-- `_acp_flush_end`. -/
def acpFlushEnd (ticksPerSec : Nat) (s : State) (flush : Flush) : State :=
  if flush.error ≠ 0 then acpHandleFlushError ticksPerSec s flush else s

/-- The state after some flush requests. -/
def afterFlushes (ticksPerSec : Nat) (s : State) (history : List Flush) : State :=
  history.foldl (acpFlushEnd ticksPerSec) s

/-- `_acp_can_clean_chunk`. -/
def acpCanCleanChunk (s : State) (now : Nat) (key : ChunkKey) : Bool :=
  s.opened key.1 &&
    (decide (s.nextCleaningTimestamp key > now) || decide (s.nextCleaningTimestamp key = 0))

/-- The loop of `_acp_get_cleaning_candidate` from a bucket down. -/
def candidateFrom (s : State) (now : Nat) : Nat → Option ChunkKey
  | 0 => none
  | i + 1 =>
    match (s.acp.chunkList (i + 1)).find? (acpCanCleanChunk s now) with
    | some key => some key
    | none => candidateFrom s now i

/-- `_acp_get_cleaning_candidate`. -/
def acpGetCleaningCandidate (s : State) (now : Nat) : Option ChunkKey :=
  candidateFrom s now (acpMaxBuckets - 1)

section Search

variable {s : State} {now : Nat}

/-- The chunks in the order of the search from a bucket down. -/
def searchOrder (s : State) : Nat → List ChunkKey
  | 0 => []
  | i + 1 => s.acp.chunkList (i + 1) ++ searchOrder s i

theorem mem_searchOrder {i : Nat} {key : ChunkKey} :
    key ∈ searchOrder s i ↔ ∃ b, 1 ≤ b ∧ b ≤ i ∧ key ∈ s.acp.chunkList b := by
  induction i with
  | zero =>
    constructor
    · exact fun h => absurd h List.not_mem_nil
    · rintro ⟨b, hb, hle, -⟩
      omega
  | succ i ih =>
    rw [searchOrder, List.mem_append, ih]
    constructor
    · rintro (hin | ⟨b, hb, hle, hin⟩)
      · exact ⟨i + 1, by omega, Nat.le_refl _, hin⟩
      · exact ⟨b, hb, by omega, hin⟩
    · rintro ⟨b, hb, hle, hin⟩
      by_cases hlast : b = i + 1
      · exact .inl (hlast ▸ hin)
      · exact .inr ⟨b, hb, by omega, hin⟩

theorem candidateFrom_eq (i : Nat) :
    candidateFrom s now i = (searchOrder s i).find? (acpCanCleanChunk s now) := by
  induction i with
  | zero => rfl
  | succ i ih =>
    rw [candidateFrom, searchOrder, List.find?_append]
    cases hfind : (s.acp.chunkList (i + 1)).find? (acpCanCleanChunk s now) with
    | some key => rfl
    | none => exact ih

theorem candidateFrom_some {i : Nat} {key : ChunkKey} (h : candidateFrom s now i = some key) :
    acpCanCleanChunk s now key = true ∧ ∃ b, 1 ≤ b ∧ b ≤ i ∧ key ∈ s.acp.chunkList b ∧
      ∀ b', b < b' → b' ≤ i → ∀ other ∈ s.acp.chunkList b', acpCanCleanChunk s now other = false := by
  induction i with
  | zero => exact absurd h nofun
  | succ i ih =>
    rw [candidateFrom] at h
    cases hfind : (s.acp.chunkList (i + 1)).find? (acpCanCleanChunk s now) with
    | some first =>
      rw [hfind] at h
      obtain rfl := Option.some.inj h
      refine ⟨List.find?_some hfind, i + 1, by omega, Nat.le_refl _, List.mem_of_find?_eq_some hfind, ?_⟩
      omega
    | none =>
      rw [hfind] at h
      obtain ⟨hcan, b, hb, hle, hin, habove⟩ := ih h
      refine ⟨hcan, b, hb, by omega, hin, fun b' hlt hle' other hother => ?_⟩
      by_cases hlast : b' = i + 1
      · have hnone := List.find?_eq_none.mp hfind other (hlast ▸ hother)
        exact Bool.not_eq_true _ ▸ hnone
      · exact habove b' hlt (by omega) other hother

end Search

/-- A chunk that may be cleaned: its core is opened and no backoff deadline is in
the future. -/
def Eligible (s : State) (now : Nat) (key : ChunkKey) : Prop :=
  s.opened key.1 = true ∧ ¬now < s.nextCleaningTimestamp key

/-- The search takes an eligible chunk of the highest bucket that has one. -/
structure Selects (s : State) (now : Nat) : Prop where
  /-- Nothing is taken only if no chunk is eligible. -/
  none_only : acpGetCleaningCandidate s now = none → ∀ b, 1 ≤ b → b < acpMaxBuckets →
    ∀ key ∈ s.acp.chunkList b, ¬Eligible s now key
  /-- A chunk that is taken is eligible, and no chunk of a higher bucket is. -/
  highest : ∀ key, acpGetCleaningCandidate s now = some key → Eligible s now key ∧
    ∃ b, 1 ≤ b ∧ b < acpMaxBuckets ∧ key ∈ s.acp.chunkList b ∧
      ∀ b', b < b' → b' < acpMaxBuckets → ∀ other ∈ s.acp.chunkList b', ¬Eligible s now other
  /-- An eligible chunk can be selected, also after a backoff window. -/
  again : ∀ b, 1 ≤ b → b < acpMaxBuckets → ∀ key ∈ s.acp.chunkList b, Eligible s now key →
    acpCanCleanChunk s now key = true

/-- No chunk of an opened core has a deadline that has passed, and the first such
chunk in the order of the search has no deadline at all. -/
structure NoneExpired (s : State) (now : Nat) : Prop where
  /-- Deadlines are in the future. -/
  future : ∀ key ∈ searchOrder s (acpMaxBuckets - 1), s.opened key.1 = true →
    s.nextCleaningTimestamp key = 0 ∨ now < s.nextCleaningTimestamp key
  /-- The first chunk has no deadline. -/
  first : ∀ key, (searchOrder s (acpMaxBuckets - 1)).find? (fun key => s.opened key.1) = some key →
    s.nextCleaningTimestamp key = 0

section Choice

variable {s : State} {now : Nat}

theorem mem_searched {key : ChunkKey} : key ∈ searchOrder s (acpMaxBuckets - 1) ↔
    ∃ b, 1 ≤ b ∧ b < acpMaxBuckets ∧ key ∈ s.acp.chunkList b := by
  rw [mem_searchOrder]
  have hbuckets : acpMaxBuckets = 11 := rfl
  constructor
  · rintro ⟨b, hb, hle, hin⟩
    exact ⟨b, hb, by omega, hin⟩
  · rintro ⟨b, hb, hle, hin⟩
    exact ⟨b, hb, by omega, hin⟩

theorem canClean_iff {key : ChunkKey} : acpCanCleanChunk s now key = true ↔
    s.opened key.1 = true ∧ (now < s.nextCleaningTimestamp key ∨ s.nextCleaningTimestamp key = 0) := by
  simp [acpCanCleanChunk]

theorem canClean_eq (h : ∀ key ∈ searchOrder s (acpMaxBuckets - 1), s.opened key.1 = true →
      s.nextCleaningTimestamp key = 0 ∨ now < s.nextCleaningTimestamp key) {key : ChunkKey}
    (hin : key ∈ searchOrder s (acpMaxBuckets - 1)) : acpCanCleanChunk s now key = s.opened key.1 := by
  rw [Bool.eq_iff_iff, canClean_iff]
  exact ⟨And.left, fun hopened => ⟨hopened, (h key hin hopened).symm⟩⟩

theorem candidate_eq (h : ∀ key ∈ searchOrder s (acpMaxBuckets - 1), s.opened key.1 = true →
      s.nextCleaningTimestamp key = 0 ∨ now < s.nextCleaningTimestamp key) :
    acpGetCleaningCandidate s now =
      (searchOrder s (acpMaxBuckets - 1)).find? (fun key => s.opened key.1) := by
  rw [acpGetCleaningCandidate, candidateFrom_eq]
  exact List.find?_congr fun key hin => canClean_eq h hin

theorem Selects.noneExpired (h : Selects s now) : NoneExpired s now := by
  have hfuture : ∀ key ∈ searchOrder s (acpMaxBuckets - 1), s.opened key.1 = true →
      s.nextCleaningTimestamp key = 0 ∨ now < s.nextCleaningTimestamp key := by
    intro key hin hopened
    by_cases hlt : now < s.nextCleaningTimestamp key
    · exact .inr hlt
    · obtain ⟨b, hb, hle, hbucket⟩ := mem_searched.mp hin
      have hcan := h.again b hb hle key hbucket ⟨hopened, hlt⟩
      exact .inl ((canClean_iff.mp hcan).2.resolve_left hlt)
  refine ⟨hfuture, fun key hfirst => ?_⟩
  have hcandidate := (candidate_eq hfuture).trans hfirst
  have heligible := (h.highest key hcandidate).1
  have hin := List.mem_of_find?_eq_some hfirst
  exact (hfuture key hin heligible.1).resolve_right heligible.2

theorem NoneExpired.selects (h : NoneExpired s now) : Selects s now := by
  have hcandidate := candidate_eq h.future
  have hcan : ∀ b, 1 ≤ b → b < acpMaxBuckets → ∀ key ∈ s.acp.chunkList b, Eligible s now key →
      acpCanCleanChunk s now key = true := by
    intro b hb hlt key hin heligible
    rw [canClean_eq h.future (mem_searched.mpr ⟨b, hb, hlt, hin⟩)]
    exact heligible.1
  refine ⟨fun hnone b hb hlt key hin heligible => ?_, fun key hkey => ?_, hcan⟩
  · rw [hcandidate] at hnone
    exact List.find?_eq_none.mp hnone key (mem_searched.mpr ⟨b, hb, hlt, hin⟩) heligible.1
  · have hzero := h.first key (hcandidate ▸ hkey)
    obtain ⟨hcanKey, b, hb, hle, hin, habove⟩ := candidateFrom_some hkey
    have hbuckets : acpMaxBuckets = 11 := rfl
    refine ⟨⟨(canClean_iff.mp hcanKey).1, by omega⟩, b, hb, by omega, hin, ?_⟩
    intro b' hlt hlt' other hother heligible
    have htrue := hcan b' (by omega) hlt' other hother heligible
    rw [habove b' hlt (by omega) other hother] at htrue
    exact absurd htrue nofun

end Choice

/-- After any flush requests the search takes an eligible chunk of the highest
bucket if and only if no deadline has expired and the first chunk of an opened
core has none. -/
theorem selects_iff (ticksPerSec : Nat) (s : State) (history : List Flush) (now : Nat) :
    Selects (afterFlushes ticksPerSec s history) now ↔
      NoneExpired (afterFlushes ticksPerSec s history) now :=
  ⟨Selects.noneExpired, NoneExpired.selects⟩

/-- A context with one chunk in the second bucket. -/
def oneChunk : State where
  acp :=
    { numChunks := fun _ => 1
      allocated := fun _ => true
      chunkInfo := fun _ => ⟨1, 1⟩
      chunkList := fun b => if b = 1 then [(0, 0)] else []
      threshold := fun _ => 0
      chunksTotal := 1
      state := ⟨none, 0, false⟩ }
  opened := fun core => decide (core = 0)
  nextCleaningTimestamp := fun _ => 0

/-- Long after its only error the chunk is not taken. -/
theorem selects_fails : ¬∀ (ticksPerSec : Nat) (s : State) (history : List Flush) (now : Nat),
    Selects (afterFlushes ticksPerSec s history) now := by
  intro h
  have hnone := (h 1 oneChunk [⟨(0, 0), -1, 3⟩] 100).none_only (by decide) 1 (Nat.le_refl 1) (by decide)
    (0, 0) (List.mem_singleton_self _)
  exact hnone ⟨rfl, by decide⟩

end OcfCache.AcpCandidate
