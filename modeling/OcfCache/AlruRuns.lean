import OcfCache.AlruFill
import OcfCache.Runs

/-!
# Runs of the ALRU lists

After the lists are built, lines are mapped, become dirty or clean, change
their partition and are removed, in any order. Every operation keeps the lists
of the user partitions to exactly the dirty mapped lines.
-/

namespace OcfCache.Alru

open Function Metadata Loops CacheLine Runs

/-- An operation on the cache. -/
inductive Act
  /-- A line is mapped and given to a partition. -/
  | map (core coreLine x p : Nat)
  /-- `set_cache_line_dirty`. -/
  | setDirty (start stop x : Nat)
  /-- `set_cache_line_clean`. -/
  | setClean (start stop x : Nat)
  /-- `set_cache_line_invalid`. -/
  | setInvalid (waiters : Nat → Bool) (start stop x : Nat)
  /-- `ocf_user_part_move`. -/
  | move (x new : Nat)
  /-- A line of a core that goes is purged and removed. -/
  | remove (waiters : Nat → Bool) (x : Nat)
  /-- A range is purged and removed. -/
  | purgeRange (visit : Nat → List Nat) (used : Nat → Bool) (core startLine endLine : Nat)

section System

variable (g : Geometry)

/-- What the callers of an operation ensure. -/
def guard (s : State) : Act → Prop
  | .map core _ x p => x < g.collisionEntries ∧ ¬Mapped s.md x ∧ metadataTestDirty g s.md x = false ∧
    core ≠ ocfCoreNum ∧ p < ocfUserIoClassMax
  | .setDirty start stop x => Cared g s.md x ∧ start ≤ stop ∧ stop ≤ g.endBlock
  | .setClean _ _ x => Cared g s.md x
  -- the blocks that become invalid are clean, and dirty blocks are valid
  | .setInvalid _ start stop x => Cared g s.md x ∧
    ∀ i ≤ g.endBlock, s.md.dirty x i = true → s.md.valid x i = true ∧ ¬(start ≤ i ∧ i ≤ stop)
  | .move x new => Cared g s.md x ∧ new < ocfUserIoClassMax
  | .remove _ x => Cared g s.md x
  -- the eviction lists of a partition have its lines
  | .purgeRange visit _ core startLine endLine => ∀ p < ocfUserIoClassMax,
    (∀ x ∈ visit p, x < g.collisionEntries ∧ s.md.partitionId x = p) ∧
    ∀ x < g.collisionEntries, s.md.partitionId x = p →
      isCacheLineActing s.md core startLine endLine x = true → x ∈ visit p

/-- Effect of an operation. -/
def step (s : State) : Act → Option State
  | .map core coreLine x p => some (ocfMapCacheLine g s core coreLine x p)
  | .setDirty start stop x => setCacheLineDirty g s start stop x
  | .setClean start stop x => setCacheLineClean g s start stop x
  | .setInvalid waiters start stop x => some { s with md := setCacheLineInvalid g waiters s.md start stop x }
  | .move x new => ocfUserPartMove g s x new
  | .remove waiters x =>
    (if metadataTestDirty g s.md x then cleaningPolicyAlruPurgeCacheBlock g s x else some s).map fun s =>
      ocfMetadataSparseCacheLine g waiters s x
  | .purgeRange visit used core startLine endLine =>
    (cleaningPolicyAlruPurgeRange g visit used core startLine endLine s).map
      (ocfMetadataSparseRange g used core startLine endLine)

/-- The operations in any order. -/
def system : System State Act where
  guard := guard g
  step := step g

end System

/-- The lists hold the dirty mapped lines, which are in user partitions. -/
structure Inv (g : Geometry) (s : State) : Prop where
  /-- Partitions of the mapped lines. -/
  inPartitions : InPartitions g s.md
  /-- The lists. -/
  holds : ∃ lists, Holds g s lists

section Steps

variable {g : Geometry} {s s' : State} {key : Nat → Nat} {want care : Nat → Prop} {lists : Nat → List Nat}

theorem Tracks.holds (h : Tracks g s key want care lists) (md : LineTable) (hwant : ∀ x, Wanted g md x ↔ want x)
    (hkey : ∀ x, want x → md.partitionId x = key x) (hcare : ∀ x, Cared g md x → ¬want x → care x) :
    Holds g { s with md } lists :=
  h.congr hwant hkey (fun x hx => ⟨hx.1, hcare x hx⟩) md

variable {x : Nat}

theorem metadataTestDirty_congr {md md' : LineTable} (h : md'.dirty x = md.dirty x) :
    metadataTestDirty g md' x = metadataTestDirty g md x := by
  rw [metadataTestDirty, h, metadataTestDirty]

theorem wanted_congr {md md' : LineTable} (hinfo : md'.coreInfo x = md.coreInfo x)
    (hdirty : metadataTestDirty g md' x = metadataTestDirty g md x) : Wanted g md' x ↔ Wanted g md x := by
  rw [Wanted, Mapped, hinfo, hdirty, Wanted, Mapped]

/-- `ocf_map_cache_line`. -/
theorem Inv.map (h : Inv g s) {core coreLine x p : Nat} (hlt : x < g.collisionEntries) (hmap : ¬Mapped s.md x)
    (hclean : metadataTestDirty g s.md x = false) (hp : p < ocfUserIoClassMax) :
    Inv g (ocfMapCacheLine g s core coreLine x p) := by
  obtain ⟨lists, hl⟩ := h.holds
  have hinfo : ∀ y, y ≠ x → (ocfMapCacheLine g s core coreLine x p).md.coreInfo y = s.md.coreInfo y :=
    fun y hy => update_of_ne hy ..
  have hpart : ∀ y, y ≠ x → (ocfMapCacheLine g s core coreLine x p).md.partitionId y = s.md.partitionId y :=
    fun y hy => update_of_ne hy ..
  have hnw : ¬Wanted g s.md x := fun hc => hmap hc.2.1
  have hwant : ∀ y, Wanted g (ocfMapCacheLine g s core coreLine x p).md y ↔ Wanted g s.md y := by
    intro y
    by_cases hyx : y = x
    · have hnew : ¬Wanted g (ocfMapCacheLine g s core coreLine x p).md x := by
        intro hc
        have hd : metadataTestDirty g s.md x = true := hc.2.2
        rw [hclean] at hd
        exact Bool.false_ne_true hd
      rw [hyx]
      exact ⟨fun hc => absurd hc hnew, fun hc => absurd hc hnw⟩
    · exact wanted_congr (hinfo y hyx) rfl
  refine ⟨fun y hy hm => ?_, lists, ?_⟩
  · by_cases hyx : y = x
    · have heq : (ocfMapCacheLine g s core coreLine x p).md.partitionId x = p := update_self ..
      rw [hyx, heq]
      exact hp
    · rw [hpart y hyx]
      refine h.inPartitions y hy ?_
      rw [Mapped, hinfo y hyx] at hm
      exact hm
  · refine (hl.initCacheBlock hlt hnw).holds _ hwant (fun y hy => hpart y fun heq => hnw (heq ▸ hy)) fun y hy _ => ?_
    by_cases hyx : y = x
    · exact .inr hyx
    · refine .inl ⟨hy.1, fun heq => hy.2 ?_⟩
      exact (congrArg Prod.fst (hinfo y hyx)).trans heq

variable {md : LineTable}

theorem wanted_setDirtyBits {b : Bits} (hc : Cared g md x) (y : Nat) :
    Wanted g (setDirtyBits md x b) y ↔
      if y = x then metadataTestDirty g (setDirtyBits md x b) x = true else Wanted g md y := by
  split
  next heq =>
    subst heq
    exact ⟨fun h => h.2.2, fun h => ⟨hc.1, hc.2, h⟩⟩
  next hne => exact wanted_congr rfl (metadataTestDirty_congr (update_of_ne hne ..))

theorem dirty_of_setRange (md : LineTable) (x : Nat) {start stop : Nat} (hle : start ≤ stop)
    (hend : stop ≤ g.endBlock) :
    metadataTestDirty g (setDirtyBits md x (setRange (md.dirty x) start stop)) x = true := by
  rw [metadataTestDirty, testAny_eq_true]
  refine ⟨stop, hend, Nat.zero_le stop, ?_⟩
  change update md.dirty x _ x stop = true
  rw [update_self]
  simp [setRange, hle]

variable {start stop x : Nat}

/-- `set_cache_line_dirty`. -/
theorem Inv.setDirty (h : Inv g s) (hc : Cared g s.md x) (hle : start ≤ stop)
    (hend : stop ≤ g.endBlock) : ∃ s', setCacheLineDirty g s start stop x = some s' ∧ Inv g s' := by
  obtain ⟨lists, hl⟩ := h.holds
  have hp := h.inPartitions x hc.1 hc.2
  have hdirty := dirty_of_setRange s.md x hle hend
  have hpre : Tracks g { s with md := setDirtyBits s.md x (setRange (s.md.dirty x) start stop) }
      s.md.partitionId (Wanted g s.md) (Cared g s.md) lists :=
    hl.congr (fun _ => Iff.rfl) (fun _ _ => rfl) (fun y hy => ⟨hy.1, fun _ => hy⟩) _
  obtain ⟨s', lists', hs', hmd, htr⟩ := hpre.setHot hp hc
  refine ⟨s', ?_, ?_, lists', ?_⟩
  · rw [setCacheLineDirty, if_neg (Nat.not_lt.mpr (Nat.le_of_lt hp)), hs']
  · rw [hmd]
    exact h.inPartitions
  · refine htr.holds s'.md (fun y => ?_) (fun y _ => by rw [hmd]) fun y hy _ => ?_
    · rw [hmd, wanted_setDirtyBits hc]
      by_cases hyx : y = x <;> simp [hyx, hdirty]
    · rw [hmd] at hy
      exact hy

theorem dirty_of_clearRange {x start stop : Nat}
    (h : metadataTestDirty g (setDirtyBits md x (clearRange (md.dirty x) start stop)) x = true) :
    metadataTestDirty g md x = true := by
  rw [metadataTestDirty, testAny_eq_true] at h ⊢
  obtain ⟨i, hi, h0, hbit⟩ := h
  refine ⟨i, hi, h0, ?_⟩
  change update md.dirty x _ x i = true at hbit
  rw [update_self, clearRange, Bool.and_eq_true] at hbit
  exact hbit.1

theorem dirtySec_of_clearRange {x start stop : Nat} (h : metadataTestDirty g md x = true)
    (hclean : metadataTestDirty g (setDirtyBits md x (clearRange (md.dirty x) start stop)) x = false) :
    metadataTestDirtySec md x start stop = true := by
  rw [metadataTestDirty, testAny_eq_true] at h
  obtain ⟨i, hi, h0, hbit⟩ := h
  by_contra hsec
  rw [metadataTestDirtySec, testAny_eq_true] at hsec
  have hstay : metadataTestDirty g (setDirtyBits md x (clearRange (md.dirty x) start stop)) x = true := by
    rw [metadataTestDirty, testAny_eq_true]
    refine ⟨i, hi, h0, ?_⟩
    change update md.dirty x _ x i = true
    rw [update_self, clearRange, hbit, Bool.true_and, Bool.not_eq_true', decide_eq_false_iff_not]
    exact fun hin => hsec ⟨i, hin.2, hin.1, hbit⟩
  rw [hclean] at hstay
  exact Bool.false_ne_true hstay

/-- `set_cache_line_clean`. -/
theorem Inv.setClean (h : Inv g s) (hc : Cared g s.md x) :
    ∃ s', setCacheLineClean g s start stop x = some s' ∧ Inv g s' := by
  obtain ⟨lists, hl⟩ := h.holds
  have hp := h.inPartitions x hc.1 hc.2
  rw [Alru.setCacheLineClean]
  obtain ⟨md, hmd⟩ : ∃ md, setDirtyBits s.md x (clearRange (s.md.dirty x) start stop) = md := ⟨_, rfl⟩
  have hpart : md.partitionId = s.md.partitionId := hmd ▸ rfl
  have hinfo : md.coreInfo = s.md.coreInfo := hmd ▸ rfl
  have hin : InPartitions g md := by
    rw [← hmd]
    exact h.inPartitions
  have hwant : ∀ y, Wanted g md y ↔ if y = x then metadataTestDirty g md x = true else Wanted g s.md y := by
    intro y
    rw [← hmd]
    exact wanted_setDirtyBits hc y
  have hcare : ∀ y, Cared g md y → Cared g s.md y := by
    intro y hy
    rw [Cared, Mapped, hinfo] at hy
    exact hy
  rw [if_neg (Nat.not_lt.mpr (Nat.le_of_lt hp)), hmd]
  by_cases hpurge : metadataTestDirtySec s.md x start stop = true ∧ metadataTestDirty g md x = false
  · have hpre : Tracks g { s with md } md.partitionId (Wanted g s.md) (Cared g s.md) lists := by
      rw [hpart]
      exact hl.congr (fun _ => Iff.rfl) (fun _ _ => rfl) (fun y hy => ⟨hy.1, fun _ => hy⟩) md
    obtain ⟨s', lists', hs', hmd', htr⟩ := hpre.purge (hpart.symm ▸ hp) hc
    refine ⟨s', by rw [if_pos hpurge, hs'], by rw [hmd']; exact hin, lists', ?_⟩
    refine htr.holds s'.md (fun y => ?_) (fun y _ => by rw [hmd']) fun y hy _ => ?_
    · rw [hmd', hwant y]
      by_cases hyx : y = x <;> simp [hyx, hpurge.2]
    · rw [hmd'] at hy
      exact hcare y hy
  · refine ⟨_, if_neg hpurge, hin, lists, ?_⟩
    refine hl.holds md (fun y => ?_) (fun y _ => by rw [hpart]) fun y hy _ => hcare y hy
    rw [hwant y]
    by_cases hyx : y = x
    · subst hyx
      rw [if_pos rfl]
      constructor
      · intro hd
        exact ⟨hc.1, hc.2, dirty_of_clearRange (by rw [hmd]; exact hd)⟩
      · intro hw
        by_contra hd
        rw [Bool.not_eq_true] at hd
        exact hpurge ⟨dirtySec_of_clearRange hw.2.2 (by rw [hmd]; exact hd), hd⟩
    · rw [if_neg hyx]

theorem Inv.of_tracks (hin : InPartitions g s.md)
    (h : Tracks g s s.md.partitionId (fun y => Wanted g s.md y ∧ y ≠ x) (Cared g s.md) lists)
    (hinfo : ∀ y, y ≠ x → md.coreInfo y = s.md.coreInfo y) (hdirty : ∀ y, y ≠ x → md.dirty y = s.md.dirty y)
    (hpart : md.partitionId = s.md.partitionId) (hnew : ¬Wanted g md x) (hmap : Mapped md x → Mapped s.md x) :
    Inv g { s with md } := by
  have hcare : ∀ y, Mapped md y → Mapped s.md y := by
    intro y hy
    by_cases hyx : y = x
    · exact hyx ▸ hmap (hyx ▸ hy)
    · rw [Mapped, hinfo y hyx] at hy
      exact hy
  refine ⟨fun y hy hm => ?_, lists, h.holds md (fun y => ?_) (fun y _ => by rw [hpart]) fun y hy _ => ?_⟩
  · change md.partitionId y < _
    rw [hpart]
    exact hin y hy (hcare y hm)
  · by_cases hyx : y = x
    · rw [hyx]
      exact ⟨fun hc => absurd hc hnew, fun hc => absurd rfl hc.2⟩
    · rw [wanted_congr (hinfo y hyx) (metadataTestDirty_congr (hdirty y hyx))]
      exact ⟨fun hc => ⟨hc, hyx⟩, fun hc => hc.1⟩
  · exact ⟨hy.1, hcare y hy.2⟩

theorem Tracks.without (h : Tracks g s key want care lists) (hx : ¬want x) :
    Tracks g s key (fun y => want y ∧ y ≠ x) care lists := by
  refine h.congr (fun y => ?_) (fun _ _ => rfl) (fun y hy => ⟨h.care_lt y hy, fun _ => hy⟩) s.md
  exact ⟨fun hy => hy.1, fun hy => ⟨hy, fun heq => hx (heq ▸ hy)⟩⟩

/-- `ocf_user_part_move`. -/
theorem Inv.move (h : Inv g s) {x new : Nat} (hc : Cared g s.md x) (hnew : new < ocfUserIoClassMax) :
    ∃ s', ocfUserPartMove g s x new = some s' ∧ Inv g s' := by
  obtain ⟨lists, hl⟩ := h.holds
  have hp := h.inPartitions x hc.1 hc.2
  rw [ocfUserPartMove]
  rw [if_neg (by omega)]
  by_cases hsame : s.md.partitionId x = new
  · exact ⟨s, if_pos hsame, h⟩
  rw [if_neg hsame]
  obtain ⟨md, hmd⟩ : ∃ md, { s.md with partitionId := update s.md.partitionId x new } = md := ⟨_, rfl⟩
  have hself : md.partitionId x = new := by
    rw [← hmd]
    exact update_self ..
  have hother : ∀ y, y ≠ x → md.partitionId y = s.md.partitionId y := by
    intro y hy
    rw [← hmd]
    exact update_of_ne hy ..
  have hwant : ∀ y, Wanted g md y ↔ Wanted g s.md y := by
    intro y
    rw [← hmd]
    exact wanted_congr rfl rfl
  have hcare : ∀ y, Cared g md y ↔ Cared g s.md y := by
    intro y
    rw [← hmd]
    exact Iff.rfl
  have hin : InPartitions g md := by
    intro y hy hm
    by_cases hyx : y = x
    · rw [hyx, hself]
      exact hnew
    · rw [hother y hyx]
      exact h.inPartitions y hy ((hcare y).mp ⟨hy, hm⟩).2
  have hdirty : metadataTestDirty g md x = metadataTestDirty g s.md x := by
    rw [← hmd]
    rfl
  by_cases hd : metadataTestDirty g s.md x = true
  · obtain ⟨t, lists1, ht, htmd, htr⟩ := hl.purge hp hc
    have hpre : Tracks g { t with md } md.partitionId (fun y => Wanted g s.md y ∧ y ≠ x) (Cared g md) lists1 :=
      htr.congr (fun _ => Iff.rfl) (fun y hy => hother y hy.2) (fun y hy => ⟨hy.1, fun _ => (hcare y).mp hy⟩) md
    obtain ⟨s', lists', hs', hsmd, htr'⟩ := hpre.setHot (hself.symm ▸ hnew) ((hcare x).mpr hc)
    refine ⟨s', ?_, by rw [hsmd]; exact hin, lists', ?_⟩
    · rw [if_pos hd, ht]
      change (if metadataTestDirty g { t.md with partitionId := update t.md.partitionId x new } x = true
        then cleaningPolicyAlruSetHotCacheLine g
          { t with md := { t.md with partitionId := update t.md.partitionId x new } } x else _) = _
      rw [htmd, hmd, if_pos (hdirty.trans hd), hs']
    · refine htr'.holds s'.md (fun y => ?_) (fun y _ => by rw [hsmd]) fun y hy _ => ?_
      · rw [hsmd, hwant y]
        by_cases hyx : y = x
        · simp [hyx, show Wanted g s.md x from ⟨hc.1, hc.2, hd⟩]
        · simp [hyx]
      · rw [hsmd] at hy
        exact hy
  · refine ⟨{ s with md }, ?_, hin, lists, ?_⟩
    · rw [if_neg hd]
      change (if metadataTestDirty g { s.md with partitionId := update s.md.partitionId x new } x = true
        then _ else some { s with md := { s.md with partitionId := update s.md.partitionId x new } }) = _
      rw [hmd, if_neg fun hc => hd (hdirty.symm.trans hc)]
    · refine hl.holds md hwant (fun y hy => hother y fun heq => hd (heq ▸ hy.2.2)) fun y hy _ => ?_
      exact (hcare y).mp hy

theorem setCacheLineInvalid_coreInfo (g : Geometry) (waiters : Nat → Bool) (md : LineTable) (start stop x y : Nat) :
    (CacheLine.setCacheLineInvalid g waiters md start stop x).coreInfo y =
      if y = x ∧ metadataTestValidAny g (setValidBits md x (clearRange (md.valid x) start stop)) x = false ∧
        waiters x = false then (ocfCoreNum, ullongMax) else md.coreInfo y := by
  rw [CacheLine.setCacheLineInvalid]
  by_cases hkeep : (metadataTestValidAny g (setValidBits md x (clearRange (md.valid x) start stop)) x
      || waiters x) = true
  · have hnot : ¬(y = x ∧ metadataTestValidAny g (setValidBits md x (clearRange (md.valid x) start stop)) x = false ∧
        waiters x = false) := by
      rintro ⟨-, hv, hw⟩
      rw [hv, hw] at hkeep
      exact Bool.false_ne_true hkeep
    rw [if_neg hnot]
    rw [if_pos hkeep]
    rfl
  · have hboth := hkeep
    rw [Bool.or_eq_true, not_or, Bool.not_eq_true, Bool.not_eq_true] at hboth
    rw [if_neg hkeep]
    change update md.coreInfo x _ y = _
    by_cases hyx : y = x
    · rw [if_pos ⟨hyx, hboth⟩, hyx, update_self]
    · rw [if_neg (fun hc => hyx hc.1), update_of_ne hyx]

/-- `set_cache_line_invalid` leaves dirty bits and partitions as they are. -/
theorem setCacheLineInvalid_frame (g : Geometry) (waiters : Nat → Bool) (md : LineTable) (start stop x : Nat) :
    (CacheLine.setCacheLineInvalid g waiters md start stop x).dirty = md.dirty ∧
      (CacheLine.setCacheLineInvalid g waiters md start stop x).partitionId = md.partitionId := by
  rw [CacheLine.setCacheLineInvalid]
  split <;> exact ⟨rfl, rfl⟩

theorem not_dirty_of_invalid
    (hd : ∀ i ≤ g.endBlock, md.dirty x i = true → md.valid x i = true ∧ ¬(start ≤ i ∧ i ≤ stop))
    (hgone : metadataTestValidAny g (setValidBits md x (clearRange (md.valid x) start stop)) x = false) :
    ¬metadataTestDirty g md x = true := by
  rw [metadataTestDirty, testAny_eq_true]
  rintro ⟨i, hi, h0, hbit⟩
  obtain ⟨hvalid, hout⟩ := hd i hi hbit
  have hstay : metadataTestValidAny g (setValidBits md x (clearRange (md.valid x) start stop)) x = true := by
    rw [metadataTestValidAny, testAny_eq_true]
    refine ⟨i, hi, h0, ?_⟩
    change update md.valid x _ x i = true
    rw [update_self, clearRange, hvalid, Bool.true_and, Bool.not_eq_true', decide_eq_false_iff_not]
    exact hout
  rw [hgone] at hstay
  exact Bool.false_ne_true hstay

/-- `set_cache_line_invalid` of blocks that are not dirty. -/
theorem Inv.setInvalid (h : Inv g s) (waiters : Nat → Bool)
    (hd : ∀ i ≤ g.endBlock, s.md.dirty x i = true → s.md.valid x i = true ∧ ¬(start ≤ i ∧ i ≤ stop)) :
    Inv g { s with md := CacheLine.setCacheLineInvalid g waiters s.md start stop x } := by
  obtain ⟨lists, hl⟩ := h.holds
  obtain ⟨hdirty, hpart⟩ := setCacheLineInvalid_frame g waiters s.md start stop x
  have hinfo := setCacheLineInvalid_coreInfo g waiters s.md start stop x
  by_cases hgone : metadataTestValidAny g (setValidBits s.md x (clearRange (s.md.valid x) start stop)) x = false ∧
      waiters x = false
  · have hclean := not_dirty_of_invalid hd hgone.1
    refine Inv.of_tracks (x := x) h.inPartitions (hl.without fun hw => hclean hw.2.2) (fun y hy => ?_)
      (fun y _ => by rw [hdirty]) hpart (fun hw => hw.2.1 ?_) fun hm => absurd ?_ hm
    · rw [hinfo, if_neg (fun hc => hy hc.1)]
    · rw [hinfo, if_pos ⟨rfl, hgone⟩]
    · rw [hinfo, if_pos ⟨rfl, hgone⟩]
  · have hsame : ∀ y, (CacheLine.setCacheLineInvalid g waiters s.md start stop x).coreInfo y = s.md.coreInfo y := by
      intro y
      rw [hinfo, if_neg (fun hc => hgone hc.2)]
    have hmap : ∀ y, Mapped (CacheLine.setCacheLineInvalid g waiters s.md start stop x) y ↔ Mapped s.md y := by
      intro y
      rw [Mapped, hsame, Mapped]
    refine ⟨fun y hy hm => ?_, lists, hl.holds _ (fun y => wanted_congr (hsame y) ?_) (fun y _ => by rw [hpart])
      fun y hy _ => ⟨hy.1, (hmap y).mp hy.2⟩⟩
    · change (CacheLine.setCacheLineInvalid g waiters s.md start stop x).partitionId y < _
      rw [hpart]
      exact h.inPartitions y hy ((hmap y).mp hm)
    · exact metadataTestDirty_congr (by rw [hdirty])

theorem sparseCacheLine_spec (g : Geometry) (waiters : Nat → Bool) (s : State) (x : Nat) :
    ∃ md, ocfMetadataSparseCacheLine g waiters s x = { s with md } ∧ md.partitionId = s.md.partitionId ∧
      metadataTestDirty g md x = false ∧ (Mapped md x → Mapped s.md x) ∧ (waiters x = false → ¬Mapped md x) ∧
      ∀ y, y ≠ x → md.coreInfo y = s.md.coreInfo y ∧ md.dirty y = s.md.dirty y := by
  obtain ⟨hdirty, hpart⟩ := setCacheLineInvalid_frame g waiters s.md 0 g.endBlock x
  have hinfo := setCacheLineInvalid_coreInfo g waiters s.md 0 g.endBlock x
  have hnone : metadataTestValidAny g (setValidBits s.md x (clearRange (s.md.valid x) 0 g.endBlock)) x = false := by
    rw [← Bool.not_eq_true, metadataTestValidAny, testAny_eq_true]
    rintro ⟨i, hi, h0, hbit⟩
    change update s.md.valid x _ x i = true at hbit
    rw [update_self, clearRange, Bool.and_eq_true, Bool.not_eq_true', decide_eq_false_iff_not] at hbit
    exact hbit.2 ⟨h0, hi⟩
  refine ⟨_, rfl, hpart, ?_, fun hm heq => ?_, fun hw hm => ?_, fun y hy => ⟨?_, ?_⟩⟩
  · rw [← Bool.not_eq_true, metadataTestDirty, testAny_eq_true]
    rintro ⟨i, hi, h0, hbit⟩
    change update (β := fun _ => Bits) _ x _ x i = true at hbit
    rw [update_self, clearRange, Bool.and_eq_true, Bool.not_eq_true', decide_eq_false_iff_not] at hbit
    exact hbit.2 ⟨h0, hi⟩
  · refine hm ?_
    change ((CacheLine.setCacheLineInvalid g waiters s.md 0 g.endBlock x).coreInfo x).1 = _
    rw [hinfo]
    split
    · rfl
    · exact heq
  · refine hm ?_
    change ((CacheLine.setCacheLineInvalid g waiters s.md 0 g.endBlock x).coreInfo x).1 = _
    rw [hinfo, if_pos ⟨rfl, hnone, hw⟩]
  · change (CacheLine.setCacheLineInvalid g waiters s.md 0 g.endBlock x).coreInfo y = _
    rw [hinfo, if_neg (fun hc => hy hc.1)]
  · change update _ x _ y = _
    rw [update_of_ne hy, hdirty]

theorem Inv.remove (h : Inv g s) (waiters : Nat → Bool) {x : Nat} (hc : Cared g s.md x) :
    ∃ s', step g s (.remove waiters x) = some s' ∧ Inv g s' := by
  obtain ⟨lists, hl⟩ := h.holds
  have hp := h.inPartitions x hc.1 hc.2
  obtain ⟨t, lists', ht, hmd, htr⟩ : ∃ t lists', (if metadataTestDirty g s.md x = true then
      cleaningPolicyAlruPurgeCacheBlock g s x else some s) = some t ∧ t.md = s.md ∧
      Tracks g t s.md.partitionId (fun y => Wanted g s.md y ∧ y ≠ x) (Cared g s.md) lists' := by
    by_cases hd : metadataTestDirty g s.md x = true
    · rw [if_pos hd]
      exact hl.purge hp hc
    · rw [if_neg hd]
      exact ⟨s, lists, rfl, rfl, hl.without fun hw => hd hw.2.2⟩
  obtain ⟨md, hsparse, hpart, hclean, hmap, -, hother⟩ := sparseCacheLine_spec g waiters t x
  refine ⟨ocfMetadataSparseCacheLine g waiters t x, ?_, ?_⟩
  · change Option.map _ _ = _
    rw [ht]
    rfl
  · rw [hsparse]
    rw [← hmd] at htr
    refine Inv.of_tracks (by rw [hmd]; exact h.inPartitions) htr (fun y hy => (hother y hy).1)
      (fun y hy => (hother y hy).2) hpart (fun hw => ?_) hmap
    rw [hw.2.2] at hclean
    exact Bool.false_ne_true hclean.symm

theorem mapped_of_acting {core a b x : Nat} (h : isCacheLineActing md core a b x = true) :
    Mapped md x := by
  rw [isCacheLineActing] at h
  by_cases hcore : core ≠ ocfCoreNum
  · rw [if_pos hcore, decide_eq_true_eq] at h
    rw [Mapped, h.1]
    exact hcore
  · rw [if_neg hcore, decide_eq_true_eq] at h
    exact h

/-- `__cleaning_policy_alru_purge_cache_block_any`. -/
theorem Tracks.purgeAny (h : Tracks g s s.md.partitionId want care lists)
    (hp : s.md.partitionId x < ocfUserIoClassMax) (hc : care x) :
    ∃ s' lists', purgeCacheBlockAny g s x = some s' ∧ s'.md = s.md ∧
      Tracks g s' s.md.partitionId (fun y => want y ∧ y ≠ x) care lists' := by
  rw [purgeCacheBlockAny]
  by_cases hon : isOnAlruList g s (s.md.partitionId x) x = true
  · rw [if_pos hon]
    exact h.purge hp hc
  · rw [if_neg hon]
    exact ⟨s, lists, rfl, rfl, h.without fun hw => hon ((h.isOnAlruList_iff hp hc).mpr hw)⟩

/-- A purge of one partition. -/
theorem Tracks.purgePart {t : State} (h : Tracks g t s.md.partitionId want (Cared g s.md) lists) (hmd : t.md = s.md)
    {used : Nat → Bool} {core a b : Nat} {xs : List Nat}
    (hxs : ∀ x ∈ xs, x < g.collisionEntries ∧ s.md.partitionId x < ocfUserIoClassMax) :
    ∃ t' lists', xs.foldlM (fun (t : State) x =>
        if isCacheLineActing t.md core a b x && !used x then purgeCacheBlockAny g t x else some t) t = some t' ∧
      t'.md = s.md ∧ Tracks g t' s.md.partitionId
        (fun x => want x ∧ ¬((isCacheLineActing s.md core a b x && !used x) = true ∧ x ∈ xs))
        (Cared g s.md) lists' := by
  obtain ⟨t', ht', hmd', lists', htr⟩ := foldlM_done_some (s := t)
    (f := fun (t : State) x => if isCacheLineActing t.md core a b x && !used x then purgeCacheBlockAny g t x
      else some t)
    (fun done t => t.md = s.md ∧ ∃ lists, Tracks g t s.md.partitionId
      (fun x => want x ∧ ¬((isCacheLineActing s.md core a b x && !used x) = true ∧ x ∈ done))
      (Cared g s.md) lists)
    ⟨hmd, lists, h.congr (fun x => by simp) (fun _ _ => rfl) (fun x hx => ⟨hx.1, fun _ => hx⟩) t.md⟩ (by
      rintro done x t hx ⟨hmd, lists, ht⟩
      obtain ⟨hlt, hpx⟩ := hxs x hx
      rw [hmd]
      by_cases hgone : (isCacheLineActing s.md core a b x && !used x) = true
      · have hact := hgone
        rw [Bool.and_eq_true] at hact
        have hkey := congrArg LineTable.partitionId hmd
        rw [← hkey] at ht
        obtain ⟨t', lists', ht', hmd', htr⟩ := ht.purgeAny (by rw [hmd]; exact hpx) ⟨hlt, mapped_of_acting hact.1⟩
        rw [hkey] at htr
        rw [if_pos hgone]
        refine ⟨t', ht', hmd'.trans hmd, lists',
          htr.congr (fun y => ?_) (fun _ _ => rfl) (fun y hy => ⟨hy.1, fun _ => hy⟩) t'.md⟩
        rw [List.mem_append, List.mem_singleton]
        by_cases hyx : y = x
        · subst hyx
          simp [hgone]
        · simp [hyx]
      · rw [if_neg hgone]
        refine ⟨t, rfl, hmd, lists, ht.congr (fun y => ?_) (fun _ _ => rfl) (fun y hy => ⟨hy.1, fun _ => hy⟩) t.md⟩
        rw [List.mem_append, List.mem_singleton]
        by_cases hyx : y = x
        · subst hyx
          simp only [hgone, Bool.false_eq_true, false_and, not_false_eq_true]
        · simp [hyx])
  exact ⟨t', lists', ht', hmd', htr⟩

/-- `cleaning_policy_alru_purge_range` takes the lines of the range that are
not in use off the lists. -/
theorem Inv.purgeRange (h : Inv g s) {visit : Nat → List Nat} {used : Nat → Bool} {core a b : Nat}
    (hv : ∀ p < ocfUserIoClassMax, (∀ x ∈ visit p, x < g.collisionEntries ∧ s.md.partitionId x = p) ∧
      ∀ x < g.collisionEntries, s.md.partitionId x = p → isCacheLineActing s.md core a b x = true → x ∈ visit p) :
    ∃ s' lists', cleaningPolicyAlruPurgeRange g visit used core a b s = some s' ∧ s'.md = s.md ∧
      Tracks g s' s.md.partitionId
        (fun x => Wanted g s.md x ∧ ¬(isCacheLineActing s.md core a b x && !used x) = true)
        (Cared g s.md) lists' := by
  obtain ⟨lists, hl⟩ := h.holds
  obtain ⟨s', hs', hmd, lists', htr⟩ := foldlM_range_some (n := ocfUserIoClassMax) (s := s)
    (f := fun (t : State) p => if (t.part p).size = 0 then some t
      else (visit p).foldlM (fun (t : State) x =>
        if isCacheLineActing t.md core a b x && !used x then purgeCacheBlockAny g t x else some t) t)
    (fun k t => t.md = s.md ∧ ∃ lists, Tracks g t s.md.partitionId
      (fun x => Wanted g s.md x ∧
        ¬((isCacheLineActing s.md core a b x && !used x) = true ∧ s.md.partitionId x < k)) (Cared g s.md) lists)
    ⟨rfl, lists, hl.congr (fun x => by simp) (fun _ _ => rfl) (fun x hx => ⟨hx.1, fun _ => hx⟩) s.md⟩ (by
      rintro k t hk ⟨hmd, lists, ht⟩
      by_cases hzero : (t.part k).size = 0
      · -- an empty list has no line of the partition
        refine ⟨t, if_pos hzero, hmd, lists,
          ht.congr (fun x => ?_) (fun _ _ => rfl) (fun x hx => ⟨hx.1, fun _ => hx⟩) t.md⟩
        have hsize := ht.size k hk
        rw [hzero] at hsize
        have hnil : lists k = [] := List.length_eq_zero_iff.mp (by omega)
        have hmem := ht.family.mem k hk x
        rw [hnil] at hmem
        constructor
        · exact fun hx => ⟨hx.1, fun hc => hx.2 ⟨hc.1, by omega⟩⟩
        · intro hx
          refine ⟨hx.1, fun hc => ?_⟩
          by_cases hxk : s.md.partitionId x = k
          · exact List.not_mem_nil (hmem.mpr ⟨hx, hxk⟩)
          · exact hx.2 ⟨hc.1, by omega⟩
      · rw [if_neg hzero]
        obtain ⟨t', lists', ht', hmd', htr⟩ := ht.purgePart hmd (a := a) (b := b)
          fun x hx => ⟨((hv k hk).1 x hx).1, by rw [((hv k hk).1 x hx).2]; exact hk⟩
        refine ⟨t', ht', hmd', lists',
          htr.congr (fun x => ?_) (fun _ _ => rfl) (fun x hx => ⟨hx.1, fun _ => hx⟩) t'.md⟩
        rw [and_assoc]
        refine and_congr_right fun hw => ?_
        rw [← not_or, ← and_or_left]
        refine not_congr (and_congr_right fun hgone => ?_)
        rw [Bool.and_eq_true] at hgone
        constructor
        · intro hlt
          by_cases hxk : s.md.partitionId x = k
          · exact .inr ((hv k hk).2 x hw.1 hxk hgone.1)
          · exact .inl (by omega)
        · rintro (hlt | hx)
          · omega
          · have hpx := ((hv k hk).1 x hx).2
            omega)
  refine ⟨s', lists', hs', hmd, htr.congr (fun x => ?_) (fun _ _ => rfl) (fun x hx => ⟨hx.1, fun _ => hx⟩) s'.md⟩
  refine and_congr_right fun hw => not_congr ?_
  exact ⟨fun hgone => ⟨hgone, h.inPartitions x hw.1 hw.2.1⟩, fun hgone => hgone.1⟩

/-- The lines of a range that are not in use are unmapped and clean behind
`ocf_metadata_sparse_range`, the others are as before. -/
theorem sparseRange_spec (g : Geometry) (used : Nat → Bool) (core a b : Nat) (s : State) :
    ∃ md, ocfMetadataSparseRange g used core a b s = { s with md } ∧ md.partitionId = s.md.partitionId ∧
      ∀ x, if x < g.collisionEntries ∧ (isCacheLineActing s.md core a b x && !used x) = true
        then ¬Mapped md x else md.coreInfo x = s.md.coreInfo x ∧ md.dirty x = s.md.dirty x := by
  refine forRange_inv (fun k (t : State) => ∃ md, t = { s with md } ∧ md.partitionId = s.md.partitionId ∧
    ∀ x, if x < k ∧ (isCacheLineActing s.md core a b x && !used x) = true
      then ¬Mapped md x else md.coreInfo x = s.md.coreInfo x ∧ md.dirty x = s.md.dirty x)
    ⟨s.md, rfl, rfl, fun x => by simp⟩ ?_
  rintro k t hk ⟨md, rfl, hpart, hmd⟩
  have hinfo : md.coreInfo k = s.md.coreInfo k := by
    have heq := hmd k
    rw [if_neg (by omega)] at heq
    exact heq.1
  have hact : isCacheLineActing md core a b k = isCacheLineActing s.md core a b k := by
    simp only [isCacheLineActing, hinfo]
  dsimp only
  rw [hact]
  by_cases hg : (isCacheLineActing s.md core a b k && !used k) = true
  · rw [if_pos hg]
    obtain ⟨md', hsparse, hpart', -, -, hgone, hother⟩ :=
      sparseCacheLine_spec g (fun _ => false) { s with md } k
    refine ⟨md', hsparse, hpart'.trans hpart, fun x => ?_⟩
    by_cases hxk : x = k
    · rw [hxk, if_pos ⟨Nat.lt_succ_self k, hg⟩]
      exact hgone rfl
    · obtain ⟨hi, hd⟩ := hother x hxk
      have hiff : (x < k + 1 ∧ (isCacheLineActing s.md core a b x && !used x) = true) ↔
          (x < k ∧ (isCacheLineActing s.md core a b x && !used x) = true) := by
        refine and_congr_left fun _ => ?_
        omega
      rw [Mapped, hi, hd]
      simp only [hiff]
      exact hmd x
  · rw [if_neg hg]
    refine ⟨md, rfl, hpart, fun x => ?_⟩
    have hiff : (x < k + 1 ∧ (isCacheLineActing s.md core a b x && !used x) = true) ↔
        (x < k ∧ (isCacheLineActing s.md core a b x && !used x) = true) := by
      refine and_congr_left fun hx => ?_
      have hne : x ≠ k := fun heq => hg (heq ▸ hx)
      omega
    simp only [hiff]
    exact hmd x

theorem Inv.removeRange (h : Inv g s) {visit : Nat → List Nat} {used : Nat → Bool} {core a b : Nat}
    (hg : guard g s (.purgeRange visit used core a b)) :
    ∃ s', step g s (.purgeRange visit used core a b) = some s' ∧ Inv g s' := by
  obtain ⟨t, lists, ht, hmd, htr⟩ := @Inv.purgeRange _ _ h visit used core a b hg
  obtain ⟨md, hsparse, hpart, hline⟩ := sparseRange_spec g used core a b t
  refine ⟨ocfMetadataSparseRange g used core a b t, ?_, ?_⟩
  · change Option.map _ _ = _
    rw [ht]
    rfl
  rw [hsparse]
  rw [hmd] at hline hpart
  have hmap : ∀ x < g.collisionEntries, Mapped md x → Mapped s.md x ∧ md.coreInfo x = s.md.coreInfo x ∧
      md.dirty x = s.md.dirty x ∧ ¬(isCacheLineActing s.md core a b x && !used x) = true := by
    intro x hx hm
    have heq := hline x
    by_cases hgone : x < g.collisionEntries ∧ (isCacheLineActing s.md core a b x && !used x) = true
    · rw [if_pos hgone] at heq
      exact absurd hm heq
    · rw [if_neg hgone] at heq
      refine ⟨?_, heq.1, heq.2, ?_⟩
      · rw [Mapped, heq.1] at hm
        exact hm
      · exact fun hc => hgone ⟨hx, hc⟩
  refine ⟨fun x hx hm => ?_, lists, htr.holds md (fun x => ?_) (fun x _ => by rw [hpart]) fun x hx _ => ?_⟩
  · change md.partitionId x < _
    rw [hpart]
    exact h.inPartitions x hx (hmap x hx hm).1
  · constructor
    · intro hw
      obtain ⟨-, hi, hd, hstay⟩ := hmap x hw.1 hw.2.1
      exact ⟨(wanted_congr hi (metadataTestDirty_congr hd)).mp hw, hstay⟩
    · rintro ⟨hw, hstay⟩
      have heq := hline x
      rw [if_neg fun hc => hstay hc.2] at heq
      exact (wanted_congr heq.1 (metadataTestDirty_congr heq.2)).mpr hw
  · exact ⟨hx.1, (hmap x hx.1 hx.2).1⟩

/-- Every operation succeeds and keeps the lists. -/
theorem step_inv (h : Inv g s) {act : Act} (hg : guard g s act) : ∃ s', step g s act = some s' ∧ Inv g s' := by
  cases act with
  | map core coreLine x p =>
    obtain ⟨hlt, hmap, hclean, -, hp⟩ := hg
    exact ⟨_, rfl, h.map hlt hmap hclean hp⟩
  | setDirty start stop x => exact h.setDirty hg.1 hg.2.1 hg.2.2
  | setClean start stop x => exact h.setClean hg
  | setInvalid waiters start stop x => exact ⟨_, rfl, h.setInvalid waiters hg.2⟩
  | move x new => exact h.move hg.1 hg.2
  | remove waiters x => exact h.remove waiters hg
  | purgeRange visit used core a b => exact h.removeRange hg

/-- The lists are exact after any operations. -/
theorem Inv.run (h0 : Inv g s) (h : Reachable (system g) s s') : Inv g s' := by
  refine RunIn.invariant h (fun _ => h0) fun t act t' hinv _ hg hs _ => ?_
  obtain ⟨t'', ht'', hinv'⟩ := step_inv hinv hg
  cases ht''.symm.trans hs
  exact hinv'

end Steps

/-- What the lists promise: they are linked from their first line to their last,
hold exactly the dirty mapped lines of their partitions once and are counted,
lines on no list have no links, and `is_on_alru_list` decides membership. The
last two are about the lines that are asked with a partition. -/
structure Exact (g : Geometry) (s : State) (lists : Nat → List Nat) (asked : Nat → Nat → Prop) : Prop where
  /-- The links of a list. -/
  chain : ∀ p < ocfUserIoClassMax,
    Chain g.collisionEntries s.links (s.part p).lruHead (s.part p).lruTail (lists p)
  /-- The lines of a list. -/
  mem : ∀ p < ocfUserIoClassMax, ∀ x, x ∈ lists p ↔ x < g.collisionEntries ∧ Mapped s.md x ∧
    metadataTestDirty g s.md x = true ∧ s.md.partitionId x = p
  /-- The counter of a list. -/
  size : ∀ p < ocfUserIoClassMax, (s.part p).size = (lists p).length
  /-- Links of a line on no list. -/
  off : ∀ p x, asked p x → (∀ q < ocfUserIoClassMax, x ∉ lists q) →
    s.links x = ⟨g.collisionEntries, g.collisionEntries⟩
  /-- The test for membership. -/
  decides : ∀ p x, asked p x → (isOnAlruList g s p x = true ↔ x ∈ lists p)

/-- A mapped line with its partition. -/
def Owned (g : Geometry) (md : LineTable) (p x : Nat) : Prop := Cared g md x ∧ md.partitionId x = p

theorem Inv.exact {g : Geometry} {s : State} (h : Inv g s) : ∃ lists, Exact g s lists (Owned g s.md) := by
  obtain ⟨lists, hl⟩ := h.holds
  refine ⟨lists, hl.family.chain, fun p hp x => ?_, hl.size, ?_, ?_⟩
  · rw [hl.family.mem p hp x, Wanted]
    simp only [and_assoc]
  · rintro p x ⟨hc, -⟩ hnot
    refine hl.family.off x hc fun hw => ?_
    exact hnot _ (h.inPartitions x hc.1 hc.2) (hl.family.mem_key hw)
  · rintro p x ⟨hc, rfl⟩
    have hp := h.inPartitions x hc.1 hc.2
    rw [hl.isOnAlruList_iff hp hc, hl.family.mem _ hp x]
    exact ⟨fun hw => ⟨hw, rfl⟩, fun hx => hx.1⟩

/-- The lists are built: by a populate, or by a prepopulate and an update. -/
def Started (g : Geometry) (s s' : State) : Prop :=
  cleaningPolicyAlruPopulate g s = some s' ∨
    InBuckets g s.md ∧ (cleaningPolicyAlruPrepopulate g s).bind (cleaningPolicyAlruUpdate g) = some s'

theorem Started.inv {g : Geometry} {s s' : State} (hin : InPartitions g s.md) (h : Started g s s') : Inv g s' := by
  rcases h with h | ⟨hb, h⟩
  · obtain ⟨t, lists, ht, hmd, hl⟩ := populate_holds s hin
    cases ht.symm.trans h
    exact ⟨hmd.symm ▸ hin, lists, hl⟩
  · obtain ⟨t, t', lists, ht, ht', hmd, hl⟩ := prepopulate_update_holds s hin hb
    rw [ht, Option.bind_some] at h
    cases ht'.symm.trans h
    exact ⟨hmd.symm ▸ hin, lists, hl⟩

/-- The lists can be built for every cache whose mapped lines are in user
partitions. In every state reached from there no operation hits an `ENV_BUG_ON`,
and the lists are exact about mapped lines. -/
theorem lists_exact (g : Geometry) (s : State) (hin : InPartitions g s.md) :
    (∃ t, cleaningPolicyAlruPopulate g s = some t) ∧
      (InBuckets g s.md → ∃ t, (cleaningPolicyAlruPrepopulate g s).bind (cleaningPolicyAlruUpdate g) = some t) ∧
      ∀ t t', Started g s t → Reachable (system g) t t' →
        (∀ act, guard g t' act → ∃ t'', step g t' act = some t'') ∧
          ∃ lists, Exact g t' lists (Owned g t'.md) := by
  refine ⟨?_, fun hb => ?_, fun t t' hstart hrun => ?_⟩
  · obtain ⟨t, -, ht, -⟩ := populate_holds s hin
    exact ⟨t, ht⟩
  · obtain ⟨t, t', -, ht, ht', -⟩ := prepopulate_update_holds s hin hb
    exact ⟨t', by rw [ht, Option.bind_some, ht']⟩
  · have hinv := (hstart.inv hin).run hrun
    refine ⟨fun act hg => ?_, hinv.exact⟩
    obtain ⟨t'', ht'', -⟩ := step_inv hinv hg
    exact ⟨t'', ht''⟩

/-- One cache line. -/
def oneLine : Geometry := ⟨1, by decide, 1, 1, 0⟩

/-- A cache device that was just attached: nothing is mapped and the metadata
of the policy is zero. -/
def blankCache : State where
  md :=
    { hash := fun _ => []
      coreInfo := fun _ => (ocfCoreNum, ullongMax)
      valid := fun _ _ => false
      dirty := fun _ _ => false
      partitionId := fun _ => 0 }
  links := fun _ => ⟨0, 0⟩
  part := fun _ => ⟨0, 0, 0⟩

theorem blankCache_inPartitions (g : Geometry) : InPartitions g blankCache.md :=
  fun _ _ hm => absurd rfl hm

/-- Two cache lines. -/
def twoLines : Geometry := ⟨1, by decide, 1, 2, 0⟩

/-- Contract of three operations, as a check. -/
def permitted (g : Geometry) (s : State) : Act → Bool
  | .map core _ x p => decide (x < g.collisionEntries ∧ ¬(s.md.coreInfo x).1 ≠ ocfCoreNum ∧
      metadataTestDirty g s.md x = false ∧ core ≠ ocfCoreNum ∧ p < ocfUserIoClassMax)
  | .setDirty start stop x =>
    decide ((x < g.collisionEntries ∧ (s.md.coreInfo x).1 ≠ ocfCoreNum) ∧ start ≤ stop ∧ stop ≤ g.endBlock)
  | .move x new => decide ((x < g.collisionEntries ∧ (s.md.coreInfo x).1 ≠ ocfCoreNum) ∧ new < ocfUserIoClassMax)
  | _ => false

theorem guard_of_permitted {g : Geometry} (s : State) (act : Act) (h : permitted g s act = true) : guard g s act := by
  cases act with
  | map | setDirty | move =>
    have hok := of_decide_eq_true h
    exact hok
  | _ => cases h

/-- Two lines become dirty on one list, and the first moves to another. -/
def twoMoved : List Act := [.map 0 0 0 2, .setDirty 0 0 0, .map 0 1 1 2, .setDirty 0 0 1, .move 0 3]

/-- The two lists after the move. -/
theorem lists_exact_twoLines : ∃ t t', Started twoLines blankCache t ∧ Reachable (system twoLines) t t' ∧
    (t'.part 2).lruTail = 1 ∧ (t'.part 3).lruHead = 0 ∧
    ∃ lists, Exact twoLines t' lists (Owned twoLines t'.md) := by
  have hview : ((cleaningPolicyAlruPopulate twoLines blankCache).bind fun t =>
      (twoMoved.foldlM (checkedStep (system twoLines) (permitted twoLines)) t).map fun t' =>
        ((t'.part 2).lruTail, (t'.part 3).lruHead)) = some (1, 0) := by decide +kernel
  obtain ⟨t, ht, hview⟩ := Option.bind_eq_some_iff.mp hview
  obtain ⟨t', hrun, hends⟩ := Option.map_eq_some_iff.mp hview
  have hreach := Reachable.of_checked guard_of_permitted hrun
  have hall := (lists_exact twoLines blankCache (blankCache_inPartitions twoLines)).2.2 t t' (.inl ht) hreach
  exact ⟨t, t', .inl ht, hreach, congrArg Prod.fst hends, congrArg Prod.snd hends, hall.2⟩

/-- An unmapped line keeps the links it had before a populate: it is on no list,
has links, and passes for a line of a list. -/
theorem populate_skips_unmapped : ∃ t, Started oneLine blankCache t ∧
    ¬∃ lists, Exact oneLine t lists fun p x => p < ocfUserIoClassMax ∧ x < oneLine.collisionEntries := by
  obtain ⟨t, -, ht, -⟩ := populate_holds blankCache (blankCache_inPartitions oneLine)
  refine ⟨t, .inl ht, ?_⟩
  rintro ⟨lists, h⟩
  have hprev : (cleaningPolicyAlruPopulate oneLine blankCache).map (fun s => (s.links 0).lruPrev) = some 0 := by
    decide +kernel
  have hcore : (cleaningPolicyAlruPopulate oneLine blankCache).map (fun s => (s.md.coreInfo 0).1) =
      some ocfCoreNum := by
    decide +kernel
  rw [ht] at hprev hcore
  have hnot : ∀ q < ocfUserIoClassMax, 0 ∉ lists q := by
    intro q hq hin
    exact ((h.mem q hq 0).mp hin).2.1 (Option.some.inj hcore)
  have hoff := h.off 0 0 ⟨by decide, by decide⟩ hnot
  have hzero : (t.links 0).lruPrev = 0 := Option.some.inj hprev
  rw [hoff] at hzero
  exact absurd hzero (by decide)

end OcfCache.Alru
