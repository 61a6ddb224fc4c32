import OcfCache.DetachRuns
import OcfCache.MetadataFits

/-!
# Members of a composite cache volume

The members of `ocf_composite_volume.c` lie behind one another, and each may
be detached and attached again. A member is turned into a range of cache lines
by rounding outwards, so two members may have a line in common.
-/

namespace OcfCache.CompositeVolume

open Function Metadata Partitions Runs DetachRange
open MetadataSize (divRoundUp)

/-- A composite cache volume with cache lines on it. -/
structure Volume where
  /-- Lengths of the members in bytes. -/
  lengths : List Nat
  /-- `ocf_cache_get_line_size`. -/
  lineSize : Nat
  /-- A cache line has at least one byte. -/
  lineSize_pos : 0 < lineSize
  /-- `metadata_offset`. -/
  metadataOffset : Nat
  /-- `ocf_metadata_init_variable_size` refuses a larger volume. -/
  fits : lengths.sum / lineSize ≤ ocfCacheLineMax

namespace Volume

variable (v : Volume)

/-- `end_addr` of the members in front of an index, together. -/
def addr (m : Nat) : Nat := (v.lengths.take m).sum

/-- `ocf_composite_volume_get_subvolume_addr_range`. -/
def ocfCompositeVolumeGetSubvolumeAddrRange (m : Nat) : Option (Nat × Nat) :=
  if v.lengths.length ≤ m then none
  else some (if 0 < m then v.addr m else 0, v.addr (m + 1))

/-- The cache lines of a byte range, or none when it lies in the metadata. -/
def clineRange (entries first stop : Nat) : Option (Nat × Nat) :=
  if stop ≤ v.metadataOffset then none
  else
    let first := if first < v.metadataOffset then 0 else first - v.metadataOffset
    let stop := stop - v.metadataOffset
    let firstCline := first / v.lineSize % 2 ^ 32
    let stopCline := divRoundUp stop v.lineSize % 2 ^ 32
    some (firstCline, if entries < stopCline then entries else stopCline)

/-- The cache lines of a member; `some none` stands for a member in the metadata. -/
def memberClines (entries m : Nat) : Option (Option (Nat × Nat)) :=
  (v.ocfCompositeVolumeGetSubvolumeAddrRange m).map fun r => v.clineRange entries r.1 r.2

/-- A byte of a member. -/
def HasByte (m b : Nat) : Prop := m < v.lengths.length ∧ v.addr m ≤ b ∧ b < v.addr (m + 1)

/-- A byte of a cache line. -/
def LineHasByte (x b : Nat) : Prop :=
  v.metadataOffset + x * v.lineSize ≤ b ∧ b < v.metadataOffset + (x + 1) * v.lineSize

/-- A member has a byte of a cache line. -/
def Overlaps (m x : Nat) : Prop := ∃ b, v.HasByte m b ∧ v.LineHasByte x b

/-- A cache line in the range of a member. -/
def Takes (entries m x : Nat) : Prop :=
  ∃ first stop, v.memberClines entries m = some (some (first, stop)) ∧ first ≤ x ∧ x < stop

end Volume

section Range

variable {v : Volume} {entries m x : Nat}

theorem addr_le_sum (m : Nat) : v.addr m ≤ v.lengths.sum := by
  unfold Volume.addr
  conv_rhs => rw [← List.take_append_drop m v.lengths]
  rw [List.sum_append]
  exact Nat.le_add_right _ _

theorem lt_divRoundUp {a k : Nat} (hk : 0 < k) : x < divRoundUp a k ↔ x * k < a := by
  unfold divRoundUp
  have hle : x < (a + k - 1) / k ↔ (x + 1) * k ≤ a + k - 1 := Nat.le_div_iff_mul_le hk
  rw [hle, Nat.succ_mul]
  omega

theorem cline_lt {a : Nat} (h : a ≤ v.lengths.sum) :
    a / v.lineSize < 2 ^ 32 ∧ divRoundUp a v.lineSize < 2 ^ 32 := by
  have hdiv : a / v.lineSize ≤ ocfCacheLineMax := (Nat.div_le_div_right h).trans v.fits
  have hup : divRoundUp a v.lineSize ≤ a / v.lineSize + 1 := MetadataSize.divRoundUp_le_div a v.lineSize_pos
  unfold ocfCacheLineMax at hdiv
  omega

theorem memberClines_eq (hm : m < v.lengths.length) : v.memberClines entries m =
    some (if v.addr (m + 1) ≤ v.metadataOffset then none
      else some ((v.addr m - v.metadataOffset) / v.lineSize,
        min entries (divRoundUp (v.addr (m + 1) - v.metadataOffset) v.lineSize))) := by
  have hrange : v.ocfCompositeVolumeGetSubvolumeAddrRange m = some (v.addr m, v.addr (m + 1)) := by
    unfold Volume.ocfCompositeVolumeGetSubvolumeAddrRange
    rw [if_neg (by omega)]
    cases m with
    | zero => rfl
    | succ m => rw [if_pos (Nat.succ_pos m)]
  have hfirst : (if v.addr m < v.metadataOffset then 0 else v.addr m - v.metadataOffset) =
      v.addr m - v.metadataOffset := by
    split <;> omega
  have hmin : ∀ k, (if entries < k then entries else k) = min entries k := fun k => by
    split <;> omega
  have hlt := (cline_lt (v := v) ((Nat.sub_le (v.addr m) v.metadataOffset).trans (addr_le_sum m))).1
  have hlt' := (cline_lt (v := v) ((Nat.sub_le (v.addr (m + 1)) v.metadataOffset).trans (addr_le_sum (m + 1)))).2
  simp only [Volume.memberClines, hrange, Option.map_some, Volume.clineRange, hfirst, hmin, Nat.mod_eq_of_lt hlt,
    Nat.mod_eq_of_lt hlt']

theorem takes_iff (hm : m < v.lengths.length) : v.Takes entries m x ↔ v.metadataOffset < v.addr (m + 1) ∧
    (v.addr m - v.metadataOffset) / v.lineSize ≤ x ∧ v.metadataOffset + x * v.lineSize < v.addr (m + 1) ∧
      x < entries := by
  have hup := lt_divRoundUp (x := x) (a := v.addr (m + 1) - v.metadataOffset) v.lineSize_pos
  unfold Volume.Takes
  rw [memberClines_eq hm]
  by_cases hin : v.addr (m + 1) ≤ v.metadataOffset
  · rw [if_pos hin]
    constructor
    · rintro ⟨first, stop, hnone, -⟩
      cases hnone
    · rintro ⟨hmo, -⟩
      omega
  · rw [if_neg hin]
    constructor
    · rintro ⟨first, stop, heq, hle, hlt⟩
      cases heq
      have hstop := hup.mp (by omega)
      omega
    · rintro ⟨hmo, hle, hlt, hx⟩
      have hstop := hup.mpr (by omega)
      exact ⟨_, _, rfl, hle, by omega⟩

theorem Volume.Overlaps.takes (h : v.Overlaps m x) (hx : x < entries) : v.Takes entries m x := by
  obtain ⟨b, ⟨hm, hfirst, hstop⟩, hle, hlt⟩ := h
  have hdiv : (v.addr m - v.metadataOffset) / v.lineSize < x + 1 :=
    (Nat.div_lt_iff_lt_mul v.lineSize_pos).mpr (by omega)
  refine (takes_iff hm).mpr ⟨?_, ?_, ?_, hx⟩
  · have hzero : 0 ≤ x * v.lineSize := Nat.zero_le _
    omega
  · omega
  · omega

theorem Volume.Takes.overlaps (hm : m < v.lengths.length) (h : v.Takes entries m x) (hne : v.addr m < v.addr (m + 1)) :
    v.Overlaps m x := by
  obtain ⟨hmo, hle, hlt, hx⟩ := (takes_iff hm).mp h
  have hdiv : v.addr m - v.metadataOffset < (x + 1) * v.lineSize :=
    (Nat.div_lt_iff_lt_mul v.lineSize_pos).mp (by omega)
  have hsucc : (x + 1) * v.lineSize = x * v.lineSize + v.lineSize := Nat.succ_mul x v.lineSize
  have hpos := v.lineSize_pos
  -- the first byte that both have
  refine ⟨max (v.addr m) (v.metadataOffset + x * v.lineSize), ⟨hm, ?_, ?_⟩, ?_, ?_⟩ <;> omega

theorem Volume.Takes.lt (hm : m < v.lengths.length) (h : v.Takes entries m x) : x < entries :=
  ((takes_iff hm).mp h).2.2.2

end Range

/-- Cache lines and members. -/
structure State where
  /-- The cache lines. -/
  lines : LruRuns.State
  /-- `detached` of the members. -/
  detached : Nat → Bool

/-- What happens. -/
inductive Act
  /-- A cache line is used. -/
  | use (op : DetachRuns.Op)
  /-- `ocf_mngt_cache_detach_composite` up to `ocf_metadata_detach_cline_range` and on. -/
  | detachComposite (m : Nat)
  /-- `ocf_mngt_cache_attach_composite` with a volume that fits. -/
  | attachComposite (m : Nat)
  /-- One of them ends with an error before it changes anything. -/
  | refused

section Ops

variable (v : Volume) (g : Geometry)

/-- `ocf_composite_volume_detach_member`. -/
def ocfCompositeVolumeDetachMember (s : State) (m : Nat) : Option State :=
  if v.lengths.length ≤ m then none
  else if s.detached m then none
  else some { s with detached := update s.detached m true }

/-- `ocf_mngt_detach_composite_invalidate`, then `ocf_mngt_detach_composite_close_volume`;
an error leaves the member attached, and `none` is a failed `ENV_BUG_ON`. -/
def ocfMngtCacheDetachComposite (s : State) (m : Nat) : Option State :=
  match v.memberClines g.collisionEntries m with
  | none => some s
  | some none => some ((ocfCompositeVolumeDetachMember v s m).getD s)
  | some (some (first, stop)) =>
    match ocfMetadataDetachClineRange g s.lines.cache first stop with
    | .ok c =>
      let s := { s with lines := ⟨c, moveRange s.lines.owner first stop .freeDetached⟩ }
      some ((ocfCompositeVolumeDetachMember v s m).getD s)
    | .error .inval => some s
    | .error .bug => none

/-- `ocf_composite_volume_attach_member`. -/
def ocfCompositeVolumeAttachMember (s : State) (m : Nat) : Option State :=
  if v.lengths.length ≤ m then none
  else if s.detached m then some { s with detached := update s.detached m false }
  else none

/-- `ocf_mngt_cache_composite_restore_cache_lines`; an error of the range is not passed on. -/
def ocfMngtCacheCompositeRestoreCacheLines (s : State) (m : Nat) : Option State :=
  match v.memberClines g.collisionEntries m with
  | none => none
  | some none => some s
  | some (some (first, stop)) =>
    match ocfMetadataRestoreClineRange g s.lines.cache first stop with
    | .ok c => some { s with lines := ⟨c, moveRange s.lines.owner first stop .free⟩ }
    | .error .inval => some s
    | .error .bug => none

/-- `ocf_mngt_cache_attach_composite`. -/
def ocfMngtCacheAttachComposite (s : State) (m : Nat) : Option State :=
  match ocfCompositeVolumeAttachMember v s m with
  | none => some s
  | some s => ocfMngtCacheCompositeRestoreCacheLines v g s m

/-- Effect of what happens. -/
def step (s : State) : Act → Option State
  | .use op => (DetachRuns.step g s.lines op).map fun lines => { s with lines }
  | .detachComposite m => ocfMngtCacheDetachComposite v g s m
  | .attachComposite m => ocfMngtCacheAttachComposite v g s m
  | .refused => some s

/-- Cache lines are detached and restored with their members only. -/
def IsUse : DetachRuns.Op → Prop
  | .detach .. => False
  | .restore .. => False
  | _ => True

/-- A member is detached when it is attached and no request is left, and
attached when it is detached. -/
def guard (s : State) : Act → Prop
  | .use op => IsUse op ∧ DetachRuns.Permitted g s.lines op
  | .detachComposite m => m < v.lengths.length ∧ s.detached m = false ∧
      ∀ x < g.collisionEntries, s.lines.cache.lineLocked x = false ∧ s.lines.cache.waiters x = false
  | .attachComposite m => m < v.lengths.length ∧ s.detached m = true
  | .refused => True

/-- Runs in which only some of the allowed steps are taken. -/
def system (allowed : State → Act → Prop) : System State Act where
  guard s act := guard v g s act ∧ allowed s act
  step := step v g

end Ops

end OcfCache.CompositeVolume
