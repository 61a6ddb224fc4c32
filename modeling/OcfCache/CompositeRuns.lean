import OcfCache.CompositeVolume

/-!
# Usable lines of a composite cache volume

Detaching a member takes the lines of its range away, and attaching it gives
them back. As long as no line of a detached member's range has a byte of
another detached member, the lines on the detached list are those with an
absent member.
-/

namespace OcfCache.CompositeVolume

open Function Metadata Partitions Runs DetachRange
open DetachRuns (linesOf)

variable {x m first stop : Nat}

section Use

variable {g : Geometry} {l l' : LruRuns.State}

theorem handOver_ne {owner : Nat → Part} {d : Nat} {log : List Space.Handed}
    (h : owner x ≠ .freeDetached) : LruPlacement.handOver owner d log x ≠ .freeDetached := by
  induction log generalizing owner with
  | nil => exact h
  | cons t log ih =>
    have hne : update owner t.line (Part.user d) x ≠ .freeDetached := by
      by_cases hx : x = t.line
      · rw [hx, update_self]
        nofun
      · rw [update_of_ne hx]
        exact h
    exact ih hne

theorem not_touches {op : DetachRuns.Op} (hinv : Inv g l) (hu : IsUse op) (hp : DetachRuns.Permitted g l op)
    {y : Nat} (hy : l.owner y = .freeDetached) : ¬DetachRuns.Touches op y := by
  have hne : ∀ x, DetachRuns.InUse g l x → x ≠ y := by
    rintro x hx rfl
    rw [hx.owner hinv] at hy
    cases hy
  cases op with
  | reqClines | other => exact fun h => h
  | repart x dst => exact hne x hp.1
  | hotCline x => exact hne x hp
  | setDirty x start stop => exact hne x hp.1
  | setClean x start stop => exact hne x hp.1
  | setInvalid x start stop => exact hne x hp.1
  | detach | restore => exact hu.elim

theorem use_spec {op : DetachRuns.Op} (hinv : Inv g l) (hu : IsUse op) (hp : DetachRuns.Permitted g l op)
    (hs : DetachRuns.step g l op = some l') : Inv g l' ∧ l'.cache.policy = l.cache.policy ∧
      ∀ y, l'.owner y = .freeDetached ↔ l.owner y = .freeDetached := by
  obtain ⟨hinv', hpolicy, hkeep⟩ := DetachRuns.step_inv hinv hp hs
  refine ⟨hinv', hpolicy, fun y => ⟨fun hy => ?_, fun hy => hkeep y hy (not_touches hinv hu hp hy)⟩⟩
  by_contra hne
  have hupdate : ∀ x (p : Part), p ≠ .freeDetached → update l.owner x p y ≠ .freeDetached := by
    intro x p hd
    by_cases hyx : y = x
    · rw [hyx, update_self]
      exact hd
    · rw [update_of_ne hyx]
      exact hne
  cases op with
  | reqClines req src n =>
    obtain ⟨r, -, rfl⟩ := Option.map_eq_some_iff.mp hs
    exact handOver_ne hne hy
  | repart x dst =>
    obtain ⟨c, -, rfl⟩ := Option.map_eq_some_iff.mp hs
    exact hupdate x (.user dst) nofun hy
  | hotCline x =>
    obtain ⟨c, -, rfl⟩ := Option.map_eq_some_iff.mp hs
    exact hne hy
  | setDirty x start stop =>
    obtain ⟨c, -, rfl⟩ := Option.map_eq_some_iff.mp hs
    exact hne hy
  | setClean x start stop =>
    obtain ⟨c, -, rfl⟩ := Option.map_eq_some_iff.mp hs
    exact hne hy
  | setInvalid x start stop =>
    obtain ⟨c, -, rfl⟩ := Option.map_eq_some_iff.mp hs
    change (if _ then _ else _ : Nat → Part) y = _ at hy
    split at hy
    · exact hupdate x .free nofun hy
    · exact hne hy
  | other next =>
    cases hs
    exact hne hy
  | detach | restore => exact hu.elim

end Use

section Members

variable (v : Volume) (g : Geometry)

/-- Some member with a byte of the line is detached. -/
def Absent (s : State) (x : Nat) : Prop := ∃ m, v.Overlaps m x ∧ s.detached m = true

/-- Lines are usable just when all their members are attached. -/
structure Usable (s : State) : Prop where
  /-- Lines with all their members are on the free list or in a user partition. -/
  attached : ∀ x < g.collisionEntries,
    ((∃ p : Part, p.Exists ∧ p ≠ .freeDetached ∧ x ∈ linesOf s.lines.cache p) ↔
      ∀ m, v.Overlaps m x → s.detached m = false)
  /-- The others are on the detached list. -/
  detached : ∀ x < g.collisionEntries, (x ∈ linesOf s.lines.cache .freeDetached ↔ Absent v s x)
  /-- Each line is on one list. -/
  one : ∀ x < g.collisionEntries, ∃! p : Part, p.Exists ∧ x ∈ linesOf s.lines.cache p
  /-- It is there once. -/
  once : ∀ p : Part, p.Exists → (linesOf s.lines.cache p).Nodup

/-- A member is detached only when each line of its range has a byte of it and
none of another member that is detached. -/
def InTurn (s : State) : Act → Prop
  | .detachComposite m => ∀ x, v.Takes g.collisionEntries m x → v.Overlaps m x ∧ ¬Absent v s x
  | _ => True

/-- A cache whose members are all attached. -/
structure Start (s : State) : Prop where
  /-- The lines of a cache that starts. -/
  lines : DetachRuns.Start g s.lines
  /-- With LRU lists. -/
  policy : s.lines.cache.policy = .lru
  /-- No line is detached. -/
  owner : ∀ x < g.collisionEntries, s.lines.owner x ≠ .freeDetached
  /-- No member is detached. -/
  detached : ∀ m, s.detached m = false

/-- Invariant of the runs in which members that are detached have no line in common. -/
structure Joined (s : State) : Prop where
  /-- The lines. -/
  lines : Inv g s.lines
  /-- The lists. -/
  policy : s.lines.cache.policy = .lru
  /-- The detached lines are those with an absent member. -/
  owner : ∀ x < g.collisionEntries, s.lines.owner x = .freeDetached ↔ Absent v s x
  /-- The range of a detached member has bytes of it only. -/
  cover : ∀ m, s.detached m = true → ∀ x, v.Takes g.collisionEntries m x → v.Overlaps m x
  /-- Two detached members have no line in common. -/
  apart : ∀ x < g.collisionEntries, ∀ m m', v.Overlaps m x → v.Overlaps m' x → s.detached m = true →
    s.detached m' = true → m = m'

variable {v g} {s s' : State}

theorem Start.joined (h : Start g s) : Joined v g s := by
  have hnone : ∀ x, ¬Absent v s x := by
    rintro x ⟨m, -, hm⟩
    rw [h.detached m] at hm
    cases hm
  have hoff : ∀ m, s.detached m ≠ true := fun m => by
    rw [h.detached m]
    nofun
  exact ⟨h.lines.inv, h.policy, fun x hx => ⟨fun ho => absurd ho (h.owner x hx), fun ha => absurd ha (hnone x)⟩,
    fun m hm => absurd hm (hoff m), fun _ _ m _ _ _ hm => absurd hm (hoff m)⟩

theorem Joined.usable (h : Joined v g s) : Usable v g s := by
  have hlines := fun (p : Part) (hp : p.Exists) => DetachRuns.managed_linesOf h.lines.managed hp
  have hpart : ∀ x < g.collisionEntries, ∀ p : Part, p.Exists ∧ x ∈ linesOf s.lines.cache p ↔ p = s.lines.owner x := by
    intro x hx p
    constructor
    · rintro ⟨hp, hmem⟩
      exact (((hlines p hp).2 x).mp hmem).2.symm
    · rintro rfl
      have hexists := h.lines.managed.part x
      exact ⟨hexists, ((hlines _ hexists).2 x).mpr ⟨hx, rfl⟩⟩
  refine ⟨fun x hx => ?_, fun x hx => ?_, fun x hx => ⟨s.lines.owner x, (hpart x hx _).mpr rfl, fun p hp => (hpart x hx p).mp hp⟩,
    fun p hp => (hlines p hp).1⟩
  · have howner := h.owner x hx
    constructor
    · rintro ⟨p, hp, hne, hmem⟩ m hm
      by_contra hd
      have hdet := howner.mpr ⟨m, hm, Bool.eq_true_of_not_eq_false hd⟩
      exact hne (((hpart x hx p).mp ⟨hp, hmem⟩).trans hdet)
    · intro hall
      obtain ⟨hp, hmem⟩ := (hpart x hx _).mpr rfl
      refine ⟨_, hp, fun hdet => ?_, hmem⟩
      obtain ⟨m, hm, hd⟩ := howner.mp hdet
      rw [hall m hm] at hd
      cases hd
  · rw [← h.owner x hx]
    constructor
    · exact fun hmem => ((hpart x hx .freeDetached).mp ⟨trivial, hmem⟩).symm
    · exact fun hdet => ((hpart x hx .freeDetached).mpr hdet.symm).2

theorem takes_of_range (h : v.memberClines g.collisionEntries m = some (some (first, stop)))
    (hx : first ≤ x) (hx' : x < stop) : v.Takes g.collisionEntries m x := ⟨first, stop, h, hx, hx'⟩

theorem range_of_takes (h : v.memberClines g.collisionEntries m = some (some (first, stop)))
    (hx : v.Takes g.collisionEntries m x) : first ≤ x ∧ x < stop := by
  obtain ⟨first', stop', h', hx, hx'⟩ := hx
  cases h.symm.trans h'
  exact ⟨hx, hx'⟩

theorem absent_detach (hd : s'.detached = update s.detached m true) (x : Nat) :
    Absent v s' x ↔ Absent v s x ∨ v.Overlaps m x := by
  unfold Absent
  rw [hd]
  constructor
  · rintro ⟨m', hm', hd'⟩
    by_cases heq : m' = m
    · exact .inr (heq ▸ hm')
    · rw [update_of_ne heq] at hd'
      exact .inl ⟨m', hm', hd'⟩
  · rintro (⟨m', hm', hd'⟩ | hm)
    · refine ⟨m', hm', ?_⟩
      by_cases heq : m' = m
      · rw [heq, update_self]
      · rw [update_of_ne heq]
        exact hd'
    · exact ⟨m, hm, update_self ..⟩

theorem Joined.detach (h : Joined v g s)
    (hin : ∀ x, v.Takes g.collisionEntries m x → v.Overlaps m x ∧ ¬Absent v s x)
    (hd : s'.detached = update s.detached m true) (hinv : Inv g s'.lines)
    (hpolicy : s'.lines.cache.policy = .lru)
    (howner : ∀ x < g.collisionEntries, s'.lines.owner x = .freeDetached ↔
      s.lines.owner x = .freeDetached ∨ v.Overlaps m x) : Joined v g s' := by
  have hclean : ∀ x < g.collisionEntries, v.Overlaps m x → ∀ m', v.Overlaps m' x → s.detached m' = true → False :=
    fun x hx hm m' hm' hd' => (hin x (hm.takes hx)).2 ⟨m', hm', hd'⟩
  refine ⟨hinv, hpolicy, fun x hx => ?_, fun m' hm' x hx => ?_, fun x hx m₁ m₂ h₁ h₂ hd₁ hd₂ => ?_⟩
  · rw [howner x hx, h.owner x hx, absent_detach hd]
  · rw [hd] at hm'
    by_cases heq : m' = m
    · rw [heq] at hx ⊢
      exact (hin x hx).1
    · rw [update_of_ne heq] at hm'
      exact h.cover m' hm' x hx
  · rw [hd] at hd₁ hd₂
    by_cases heq₁ : m₁ = m
    · by_cases heq₂ : m₂ = m
      · exact heq₁.trans heq₂.symm
      · rw [update_of_ne heq₂] at hd₂
        exact (hclean x hx (heq₁ ▸ h₁) m₂ h₂ hd₂).elim
    · rw [update_of_ne heq₁] at hd₁
      by_cases heq₂ : m₂ = m
      · exact (hclean x hx (heq₂ ▸ h₂) m₁ h₁ hd₁).elim
      · rw [update_of_ne heq₂] at hd₂
        exact h.apart x hx m₁ m₂ h₁ h₂ hd₁ hd₂

theorem Joined.attach (h : Joined v g s) (hm : s.detached m = true)
    (hd : s'.detached = update s.detached m false) (hinv : Inv g s'.lines)
    (hpolicy : s'.lines.cache.policy = .lru)
    (howner : ∀ x < g.collisionEntries, s'.lines.owner x = .freeDetached ↔
      s.lines.owner x = .freeDetached ∧ ¬v.Overlaps m x) : Joined v g s' := by
  have hold : ∀ m', s'.detached m' = true → m' ≠ m ∧ s.detached m' = true := by
    intro m' hm'
    rw [hd] at hm'
    have hne : m' ≠ m := by
      rintro rfl
      rw [update_self] at hm'
      cases hm'
    rw [update_of_ne hne] at hm'
    exact ⟨hne, hm'⟩
  refine ⟨hinv, hpolicy, fun x hx => ?_, fun m' hm' x hx => h.cover m' (hold m' hm').2 x hx,
    fun x hx m₁ m₂ h₁ h₂ hd₁ hd₂ => h.apart x hx m₁ m₂ h₁ h₂ (hold m₁ hd₁).2 (hold m₂ hd₂).2⟩
  rw [howner x hx, h.owner x hx]
  constructor
  · rintro ⟨⟨m', hm', hd'⟩, hnot⟩
    have hne : m' ≠ m := fun heq => hnot (heq ▸ hm')
    refine ⟨m', hm', ?_⟩
    rw [hd, update_of_ne hne]
    exact hd'
  · rintro ⟨m', hm', hd'⟩
    obtain ⟨hne, hd'⟩ := hold m' hd'
    exact ⟨⟨m', hm', hd'⟩, fun hover => hne (h.apart x hx m' m hm' hover hd' hm)⟩

theorem detachMember_eq (hm : m < v.lengths.length) (hd : s.detached m = false) :
    ocfCompositeVolumeDetachMember v s m = some { s with detached := update s.detached m true } := by
  unfold ocfCompositeVolumeDetachMember
  rw [if_neg (by omega), if_neg (by rw [hd]; nofun)]

theorem stop_le (hm : m < v.lengths.length)
    (h : v.memberClines g.collisionEntries m = some (some (first, stop))) : stop ≤ g.collisionEntries := by
  rw [memberClines_eq hm] at h
  split at h
  · cases h
  · cases h
    exact Nat.min_le_left _ _

theorem overlaps_iff (h : v.memberClines g.collisionEntries m = some (some (first, stop)))
    (hcover : ∀ x, v.Takes g.collisionEntries m x → v.Overlaps m x) (hx : x < g.collisionEntries) :
    v.Overlaps m x ↔ first ≤ x ∧ x < stop :=
  ⟨fun hm => range_of_takes h (hm.takes hx), fun hr => hcover x (takes_of_range h hr.1 hr.2)⟩

/-- `ocf_mngt_cache_detach_composite` meets no check that fails. -/
theorem Joined.detachComposite (h : Joined v g s) (hg : guard v g s (.detachComposite m))
    (hin : InTurn v g s (.detachComposite m)) :
    ∃ s', ocfMngtCacheDetachComposite v g s m = some s' ∧ Joined v g s' := by
  obtain ⟨hm, hd, hquiet⟩ := hg
  unfold ocfMngtCacheDetachComposite
  cases hrange : v.memberClines g.collisionEntries m with
  | none => exact ⟨s, rfl, h⟩
  | some r =>
    cases r with
    | none =>
      have hnone : ∀ x < g.collisionEntries, ¬v.Overlaps m x := by
        intro x hx hover
        obtain ⟨first, stop, hsome, -⟩ := hover.takes hx
        rw [hrange] at hsome
        cases hsome
      refine ⟨_, rfl, ?_⟩
      rw [detachMember_eq hm hd]
      refine h.detach hin rfl h.lines h.policy fun x hx => ?_
      exact ⟨fun ho => .inl ho, fun ho => ho.resolve_right (hnone x hx)⟩
    | some r =>
      obtain ⟨first, stop⟩ := r
      by_cases hle : first ≤ stop
      · have hstop := stop_le hm hrange
        have hidle : Idle s.lines first stop := by
          intro x hx hx'
          obtain ⟨hlock, hwait⟩ := hquiet x (by omega)
          refine ⟨hlock, hwait, fun ho => ?_⟩
          exact (hin x (takes_of_range hrange hx hx')).2 ((h.owner x (by omega)).mp ho)
        obtain ⟨c, heq, hinv, hpolicy⟩ := h.lines.detachRange hle hstop hidle
        simp only [heq]
        refine ⟨_, rfl, ?_⟩
        rw [detachMember_eq (s := { s with lines := ⟨c, moveRange s.lines.owner first stop .freeDetached⟩ }) hm hd]
        refine h.detach hin rfl hinv (hpolicy.trans h.policy) fun x hx => ?_
        rw [overlaps_iff hrange (fun x hx => (hin x hx).1) hx]
        change moveRange s.lines.owner first stop .freeDetached x = .freeDetached ↔ _
        by_cases hr : first ≤ x ∧ x < stop
        · rw [moveRange_of_mem hr.1 hr.2]
          exact ⟨fun _ => .inr hr, fun _ => rfl⟩
        · rw [moveRange_of_not_mem hr]
          exact ⟨fun ho => .inl ho, fun ho => ho.resolve_right hr⟩
      · have hinval : ocfMetadataDetachClineRange g s.lines.cache first stop = .error .inval := by
          unfold ocfMetadataDetachClineRange overRange
          rw [if_pos (.inl (by omega))]
        simp only [hinval]
        exact ⟨s, rfl, h⟩

/-- `ocf_mngt_cache_attach_composite` meets no check that fails. -/
theorem Joined.attachComposite (h : Joined v g s) (hg : guard v g s (.attachComposite m)) :
    ∃ s', ocfMngtCacheAttachComposite v g s m = some s' ∧ Joined v g s' := by
  obtain ⟨hm, hd⟩ := hg
  have hmember : ocfCompositeVolumeAttachMember v s m =
      some { s with detached := update s.detached m false } := by
    unfold ocfCompositeVolumeAttachMember
    rw [if_neg (by omega), if_pos hd]
  have hsame : ∀ (hnone : ∀ x < g.collisionEntries, ¬v.Overlaps m x),
      Joined v g { s with detached := update s.detached m false } := by
    intro hnone
    refine h.attach hd rfl h.lines h.policy fun x hx => ?_
    exact ⟨fun ho => ⟨ho, hnone x hx⟩, fun ho => ho.1⟩
  unfold ocfMngtCacheAttachComposite
  simp only [hmember]
  unfold ocfMngtCacheCompositeRestoreCacheLines
  rw [memberClines_eq hm]
  have hrange : v.memberClines g.collisionEntries m = _ := memberClines_eq hm
  by_cases hmo : v.addr (m + 1) ≤ v.metadataOffset
  · rw [if_pos hmo] at hrange
    rw [if_pos hmo]
    refine ⟨_, rfl, hsame fun x hx hover => ?_⟩
    obtain ⟨first, stop, hsome, -⟩ := hover.takes hx
    rw [hrange] at hsome
    cases hsome
  · rw [if_neg hmo] at hrange
    rw [if_neg hmo]
    obtain ⟨first, hfirst⟩ : ∃ k, (v.addr m - v.metadataOffset) / v.lineSize = k := ⟨_, rfl⟩
    obtain ⟨stop, hstop⟩ : ∃ k, min g.collisionEntries
        (MetadataSize.divRoundUp (v.addr (m + 1) - v.metadataOffset) v.lineSize) = k := ⟨_, rfl⟩
    rw [hfirst, hstop] at hrange ⊢
    by_cases hle : first ≤ stop
    · have hdetached : ∀ x, first ≤ x → x < stop → s.lines.owner x = .freeDetached := by
        intro x hx hx'
        have htakes := takes_of_range hrange hx hx'
        exact (h.owner x (htakes.lt hm)).mpr ⟨m, h.cover m hd x htakes, hd⟩
      obtain ⟨c, heq, hinv, hpolicy⟩ := h.lines.restoreRange h.policy hle (stop_le hm hrange) hdetached
      simp only [heq]
      refine ⟨_, rfl, h.attach hd rfl hinv hpolicy fun x hx => ?_⟩
      rw [overlaps_iff hrange (h.cover m hd) hx]
      change moveRange s.lines.owner first stop .free x = .freeDetached ↔ _
      by_cases hr : first ≤ x ∧ x < stop
      · rw [moveRange_of_mem hr.1 hr.2]
        exact ⟨nofun, fun ho => absurd hr ho.2⟩
      · rw [moveRange_of_not_mem hr]
        exact ⟨fun ho => ⟨ho, hr⟩, fun ho => ho.1⟩
    · have hinval : ocfMetadataRestoreClineRange g s.lines.cache first stop = .error .inval := by
        unfold ocfMetadataRestoreClineRange overRange
        rw [if_pos (.inl (by omega))]
      simp only [hinval]
      refine ⟨_, rfl, hsame fun x hx hover => ?_⟩
      have hr := range_of_takes hrange (hover.takes hx)
      omega

theorem step_joined {act : Act} (h : Joined v g s) (hg : guard v g s act) (hin : InTurn v g s act)
    (hs : step v g s act = some s') : Joined v g s' := by
  cases act with
  | use op =>
    obtain ⟨l, hl, rfl⟩ := Option.map_eq_some_iff.mp hs
    obtain ⟨hinv, hpolicy, howner⟩ := use_spec h.lines hg.1 hg.2 hl
    exact ⟨hinv, hpolicy.trans h.policy, fun x hx => (howner x).trans (h.owner x hx), h.cover, h.apart⟩
  | detachComposite m =>
    obtain ⟨t, ht, hjoined⟩ := h.detachComposite hg hin
    cases ht.symm.trans hs
    exact hjoined
  | attachComposite m =>
    obtain ⟨t, ht, hjoined⟩ := h.attachComposite hg
    cases ht.symm.trans hs
    exact hjoined
  | refused =>
    cases hs
    exact h

/-- In every run in which the detached members have no cache line in common, a
line is usable just when its members are attached, and no check fails when a
member is detached or attached. -/
theorem usable_iff_attached {s₀ : State} (h0 : Start g s₀) (h : Reachable (system v g (InTurn v g)) s₀ s) :
    Usable v g s ∧ (∀ m, guard v g s (.detachComposite m) → InTurn v g s (.detachComposite m) →
      ∃ s', step v g s (.detachComposite m) = some s') ∧
    ∀ m, guard v g s (.attachComposite m) → ∃ s', step v g s (.attachComposite m) = some s' := by
  have hjoined : Joined v g s := h.invariant (fun _ => h0.joined) fun _ _ _ hs _ hg hstep _ =>
    step_joined hs hg.1 hg.2 hstep
  refine ⟨hjoined.usable, fun m hg hin => ?_, fun m hg => ?_⟩
  · obtain ⟨s', hs, -⟩ := hjoined.detachComposite hg hin
    exact ⟨s', hs⟩
  · obtain ⟨s', hs, -⟩ := hjoined.attachComposite hg
    exact ⟨s', hs⟩

theorem four_bytes : 0 < 4 := by decide

theorem sharedLine_fits : [6, 6].sum / 4 ≤ ocfCacheLineMax := by decide

theorem ownLines_fits : [4, 8].sum / 4 ≤ ocfCacheLineMax := by decide

/-- Two members that share the middle one of three lines. -/
def sharedLine : Volume := ⟨[6, 6], 4, four_bytes, 0, sharedLine_fits⟩

/-- Two members on lines of their own. -/
def ownLines : Volume := ⟨[4, 8], 4, four_bytes, 0, ownLines_fits⟩

/-- Three lines with LRU lists and all members. -/
def complete : State := ⟨DetachRuns.lruStart, fun _ => false⟩

theorem start_complete : Start LruRuns.threeLines complete :=
  ⟨DetachRuns.start_lruStart, by decide +kernel, by decide +kernel, fun _ => rfl⟩

theorem inTurn_of_attached (hm : m < v.lengths.length) (hne : v.addr m < v.addr (m + 1))
    (hall : ∀ m, s.detached m = false) : InTurn v g s (.detachComposite m) := by
  refine fun x hx => ⟨hx.overlaps hm hne, ?_⟩
  rintro ⟨m', -, hd⟩
  rw [hall m'] at hd
  cases hd

/-- A member is detached and its line with it. -/
theorem usable_iff_attached_detached : ∃ s,
    Reachable (system ownLines LruRuns.threeLines (InTurn ownLines LruRuns.threeLines)) complete s ∧
      s.detached 0 = true ∧ linesOf s.lines.cache .freeDetached = [0] ∧ Usable ownLines LruRuns.threeLines s := by
  obtain ⟨s, hs⟩ : ∃ s, step ownLines LruRuns.threeLines complete (.detachComposite 0) = some s :=
    Option.isSome_iff_exists.mp (by decide +kernel)
  have hvals : (step ownLines LruRuns.threeLines complete (.detachComposite 0)).map
      (fun s => (s.detached 0, linesOf s.lines.cache .freeDetached)) = some (true, [0]) := by decide +kernel
  rw [hs, Option.map_some, Option.some.injEq, Prod.mk.injEq] at hvals
  have hturn : InTurn ownLines LruRuns.threeLines complete (.detachComposite 0) :=
    inTurn_of_attached (by decide) (by decide) fun _ => rfl
  have hreach : Reachable (system ownLines LruRuns.threeLines (InTurn ownLines LruRuns.threeLines)) complete s :=
    Reachable.next (.refl trivial) (.detachComposite 0) ⟨⟨by decide, rfl, by decide +kernel⟩, hturn⟩ hs
  exact ⟨s, hreach, hvals.1, hvals.2, (usable_iff_attached start_complete hreach).1⟩

/-- Both members have the middle line. When the first one is detached the line is
on the detached list; detaching the second one takes it from the free list. -/
theorem shared_line_detached_twice : ∃ s, Start LruRuns.threeLines complete ∧
    Reachable (system sharedLine LruRuns.threeLines fun _ _ => True) complete s ∧
      guard sharedLine LruRuns.threeLines s (.detachComposite 1) ∧
      step sharedLine LruRuns.threeLines s (.detachComposite 1) = none := by
  obtain ⟨s, hs⟩ : ∃ s, step sharedLine LruRuns.threeLines complete (.detachComposite 0) = some s :=
    Option.isSome_iff_exists.mp (by decide +kernel)
  have hreach : Reachable (system sharedLine LruRuns.threeLines fun _ _ => True) complete s :=
    Reachable.next (.refl trivial) (.detachComposite 0) ⟨⟨by decide, rfl, by decide +kernel⟩, trivial⟩ hs
  have hvals : (step sharedLine LruRuns.threeLines complete (.detachComposite 0)).map (fun s =>
      (s.detached 1, decide (∀ x < LruRuns.threeLines.collisionEntries,
        s.lines.cache.lineLocked x = false ∧ s.lines.cache.waiters x = false),
        (step sharedLine LruRuns.threeLines s (.detachComposite 1)).isNone)) = some (false, true, true) := by
    decide +kernel
  rw [hs, Option.map_some, Option.some.injEq, Prod.mk.injEq, Prod.mk.injEq] at hvals
  obtain ⟨hattached, hquiet, hbug⟩ := hvals
  exact ⟨s, start_complete, hreach, ⟨by decide, hattached, of_decide_eq_true hquiet⟩, Option.isNone_iff_eq_none.mp hbug⟩

end Members

end OcfCache.CompositeVolume
