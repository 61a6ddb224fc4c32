import OcfCache.LfuRuns

/-!
# Detaching a range of cache lines

Embedding of `ocf_metadata_detach_cline_range` and of its inverse
`ocf_metadata_restore_cline_range`. A line of the range leaves its partition,
or the free list, for the detached free list, and comes back to the free list
later. The runs are those of either eviction policy, with the mapping of lines
to core lines: a line has a core line just when it is in a user partition.
-/

namespace OcfCache.DetachRange

open Function Loops Metadata Requests CacheLine Partitions Space SpaceFrame Runs
open LruRuns (State)

/-- How a call ends other than by success. -/
inductive Failure
  /-- `-OCF_ERR_INVAL`. -/
  | inval
  /-- A failed `ENV_BUG_ON`. -/
  | bug
  deriving DecidableEq, Repr

section Code

variable (g : Geometry)

/-- `ocf_eviction_repart`. -/
def ocfEvictionRepart (c : Cache) (cline : Nat) (src dst : Part) : Option Cache :=
  match c.policy with
  | .lru => Lru.ocfLruRepart g c cline src dst
  | .lfu => Lfu.ocfLfuRepart c cline src dst

/-- `ocf_eviction_hot_cline`. -/
def ocfEvictionHotCline (c : Cache) (cline : Nat) : Option Cache :=
  match c.policy with
  | .lru => Lru.ocfLruHotCline g c cline
  | .lfu => Lfu.ocfLfuIncrement c cline

/-- `ocf_eviction_detach`. -/
def ocfEvictionDetach (c : Cache) (part : Part) (cline : Nat) : Option Cache :=
  match c.policy with
  | .lru => Lru.ocfLruDetach g c part cline
  | .lfu => Lfu.ocfLfuDetach c part cline

/-- `ocf_eviction_reattach`. -/
def ocfEvictionReattach (c : Cache) (cline : Nat) : Option Cache :=
  match c.policy with
  | .lru => Lru.ocfLruReattach g c cline
  | .lfu => Lfu.ocfLfuReattach c cline

/-- The dirty bits and the lists in `set_cache_line_dirty`. -/
def setLineDirty (c : Cache) (start stop line : Nat) : Option Cache :=
  match c.policy with
  | .lru => Lru.lruSetCacheLineDirty g c start stop line
  | .lfu => Lfu.lfuSetCacheLineDirty g c start stop line

/-- The dirty bits and the lists in `set_cache_line_clean`. -/
def setLineClean (c : Cache) (start stop line : Nat) : Option Cache :=
  match c.policy with
  | .lru => Lru.lruSetCacheLineClean g c start stop line
  | .lfu => Lfu.lfuSetCacheLineClean g c start stop line

/-- `__set_cache_line_invalid` for the core of the line. -/
def setLineInvalid (c : Cache) (start stop line : Nat) : Option Cache :=
  if ocfCoreNum ≤ (c.md.coreInfo line).1 then none
  else
    let md := setValidBits c.md line (clearRange (c.md.valid line) start stop)
    if metadataTestValidAny g md line || c.waiters line then some { c with md := md }
    else (ocfEvictionRmCline g { c with md := md } line).map fun c =>
      { c with md := ocfMetadataRemoveFromCollision g c.md line }

/-- `set_cache_line_unavailable`. -/
def setCacheLineUnavailable (c : Cache) (start stop line : Nat) : Option Cache :=
  let coreId := (c.md.coreInfo line).1
  let partId := c.md.partitionId line
  if partId = partitionFreelist ∧ coreId ≠ ocfCoreNum then none
  else if partId ≠ partitionFreelist ∧ coreId = ocfCoreNum then none
  else
    let part := if partId ≠ partitionFreelist then .user partId else .free
    if coreId = ocfCoreNum then ocfEvictionDetach g c part line
    else
      let md := setValidBits c.md line (clearRange (c.md.valid line) start stop)
      if c.waiters line then none
      else
        let md := if metadataTestValidAny g md line then md
          else ocfMetadataRemoveFromCollision g md line
        ocfEvictionDetach g { c with md := md } part line

/-- `metadata_clear_dirty`. -/
def metadataClearDirty (md : LineTable) (line : Nat) : LineTable :=
  setDirtyBits md line (clearRange (md.dirty line) 0 g.endBlock)

/-- A round of `ocf_metadata_detach_cline_range`. -/
def detachCline (c : Cache) (cline : Nat) : Except Failure Cache :=
  if c.lineLocked cline || c.waiters cline then .error .bug
  else match setCacheLineUnavailable g c 0 g.endBlock cline with
    | none => .error .bug
    | some c => .ok { c with md := metadataClearDirty g c.md cline }

/-- A round of `ocf_metadata_restore_cline_range`. -/
def restoreCline (c : Cache) (cline : Nat) : Except Failure Cache :=
  match ocfEvictionReattach g c cline with
  | none => .error .bug
  | some c => .ok c

/-- The checks of a range and the loop over its lines. -/
def overRange (body : Cache → Nat → Except Failure Cache) (c : Cache) (first stop : Nat) :
    Except Failure Cache :=
  if stop < first ∨ g.collisionEntries < stop then .error .inval
  else forRange (stop - first) (fun (s : Except Failure Cache) i => s.bind fun c => body c (first + i)) (.ok c)

/-- `ocf_metadata_detach_cline_range`. -/
def ocfMetadataDetachClineRange (c : Cache) (first stop : Nat) : Except Failure Cache :=
  overRange g (detachCline g) c first stop

/-- `ocf_metadata_restore_cline_range`. -/
def ocfMetadataRestoreClineRange (c : Cache) (first stop : Nat) : Except Failure Cache :=
  overRange g (restoreCline g) c first stop

end Code

/-- Every line is on the list of its partition, under the policy in use. -/
def Managed (g : Geometry) (c : Cache) (owner : Nat → Part) : Prop :=
  match c.policy with
  | .lru => LruPlacement.Placed g c owner
  | .lfu => LfuPlacement.Placed g c owner

variable {dst src : Part} {start stop d idx first : Nat} {req : Request} {it it' : Iter}
  {cline : Option Nat}

section Managed

variable {g : Geometry} {c c' : Cache} {owner : Nat → Part} {x : Nat}

theorem managed_lru (h : c.policy = .lru) : Managed g c owner ↔ LruPlacement.Placed g c owner := by
  rw [Managed, h]

theorem managed_lfu (h : c.policy = .lfu) : Managed g c owner ↔ LfuPlacement.Placed g c owner := by
  rw [Managed, h]

theorem policy_cases (c : Cache) : c.policy = .lru ∨ c.policy = .lfu := by
  cases c.policy with
  | lru => exact .inl rfl
  | lfu => exact .inr rfl

theorem Managed.part (h : Managed g c owner) (x : Nat) : (owner x).Exists := by
  cases hp : c.policy with
  | lru => exact ((managed_lru hp).mp h).part x
  | lfu => exact ((managed_lfu hp).mp h).part x

theorem Managed.id (h : Managed g c owner) (hx : x < g.collisionEntries) :
    c.md.partitionId x = (owner x).id := by
  cases hp : c.policy with
  | lru => exact ((managed_lru hp).mp h).id x hx
  | lfu => exact ((managed_lfu hp).mp h).id x hx

theorem Managed.owner_of_id (h : Managed g c owner) (hx : x < g.collisionEntries)
    (hid : c.md.partitionId x ≠ partitionFreelist) : owner x = .user (c.md.partitionId x) :=
  LruPlacement.Part.Exists.user_of_id (h.part x) (h.id hx).symm hid

theorem user_ne_freelist {p : Nat} (h : p < ocfUserIoClassMax) : p ≠ partitionFreelist :=
  Nat.ne_of_lt (Nat.lt_succ_of_lt h)

section

variable (h : Managed g c owner)
include h

theorem Managed.of_md {md : LineTable}
    (hid : ∀ y < g.collisionEntries, md.partitionId y = c.md.partitionId y)
    (hdirty : ∀ y < g.collisionEntries, (owner y).id ≠ partitionFreelist →
      metadataTestDirty g md y = metadataTestDirty g c.md y) :
    Managed g { c with md := md } owner := by
  rcases policy_cases c with hp | hp
  · have hnew := ((managed_lru hp).mp h).of_md hid hdirty
    exact (managed_lru (c := { c with md := md }) hp).mpr hnew
  · have hnew := ((managed_lfu hp).mp h).of_md hid hdirty
    exact (managed_lfu (c := { c with md := md }) hp).mpr hnew

theorem Managed.congr (hp : c'.policy = c.policy)
    (hn : c'.lruNodes = c.lruNodes) (hl : c'.lruLists = c.lruLists)
    (hn' : c'.lfuNodes = c.lfuNodes) (hl' : c'.lfuLists = c.lfuLists)
    (hm : c'.md = c.md) (hs : c'.currSize = c.currSize) : Managed g c' owner := by
  cases hpol : c.policy with
  | lru => exact (managed_lru (hp.trans hpol)).mpr (((managed_lru hpol).mp h).congr hn hl hm hs)
  | lfu => exact (managed_lfu (hp.trans hpol)).mpr (((managed_lfu hpol).mp h).congr hn' hl' hm hs)

/-- `ocf_eviction_repart` for a line of the source partition that is not
detached. -/
theorem Managed.repart (hx : x < g.collisionEntries)
    (hdst : dst.Exists) (hne : owner x ≠ dst) (hd : owner x ≠ .freeDetached)
    (huser : dst.id ≠ partitionFreelist → (owner x).id ≠ partitionFreelist) :
    ∃ c', ocfEvictionRepart g c x (owner x) dst = some c' ∧
      Managed g c' (update owner x dst) ∧ c'.policy = c.policy ∧ ListsOnly c c' := by
  cases hp : c.policy with
  | lru =>
    obtain ⟨c1, heq, hnew, hpol⟩ := ((managed_lru hp).mp h).repart hx hdst
    refine ⟨c1, ?_, (managed_lru (hpol.trans hp)).mpr hnew, hpol.trans hp,
      listsOnly_ocfLruRepartLocked heq⟩
    simp only [ocfEvictionRepart, hp]
    exact heq
  | lfu =>
    obtain ⟨c1, heq, hnew, hpol⟩ := ((managed_lfu hp).mp h).repart hx hdst hne hd huser
    refine ⟨c1, ?_, (managed_lfu (hpol.trans hp)).mpr hnew, hpol.trans hp,
      listsOnly_ocfLfuRepart heq⟩
    simp only [ocfEvictionRepart, hp]
    exact heq

/-- `ocf_eviction_detach` for a line of the partition. -/
theorem Managed.detach (hx : x < g.collisionEntries) (hd : owner x ≠ .freeDetached) :
    ∃ c', ocfEvictionDetach g c (owner x) x = some c' ∧
      Managed g c' (update owner x .freeDetached) ∧ c'.policy = c.policy ∧ ListsOnly c c' := by
  have hmove := h.repart hx (show Part.freeDetached.Exists from trivial) hd hd
    fun hf => absurd rfl hf
  cases hp : c.policy with
  | lru =>
    simp only [ocfEvictionRepart, hp] at hmove
    simp only [ocfEvictionDetach, hp]
    exact hmove
  | lfu =>
    simp only [ocfEvictionRepart, hp] at hmove
    simp only [ocfEvictionDetach, hp]
    exact hmove

/-- `ocf_eviction_reattach` works with LRU lists. -/
theorem Managed.reattach (hp : c.policy = .lru)
    (hx : x < g.collisionEntries) (hd : owner x = .freeDetached) :
    ∃ c', ocfEvictionReattach g c x = some c' ∧ Managed g c' (update owner x .free) ∧
      c'.policy = .lru ∧ ListsOnly c c' := by
  obtain ⟨c1, heq, hnew, hpol⟩ :=
    ((managed_lru hp).mp h).repart hx (show Part.free.Exists from trivial)
  refine ⟨c1, ?_, (managed_lru (hpol.trans hp)).mpr hnew, hpol.trans hp,
    listsOnly_ocfLruRepartLocked heq⟩
  rw [hd] at heq
  simp only [ocfEvictionReattach, hp]
  exact heq

end

/-- `ocf_lfu_repart` derives the attached free list from the partition id. -/
theorem ocfEvictionReattach_lfu (h : c.policy = .lfu) (x : Nat) :
    ocfEvictionReattach g c x = none := by
  simp only [ocfEvictionReattach, h]
  exact LfuRuns.ocfLfuReattach_none c x

/-- `ocf_eviction_rm_cline` for a line of a user partition. -/
theorem Managed.rmCline (h : Managed g c owner) (hx : x < g.collisionEntries)
    (hid : c.md.partitionId x < ocfUserIoClassMax) {c' : Cache}
    (heq : ocfEvictionRmCline g c x = some c') :
    Managed g c' (update owner x .free) ∧ c'.policy = c.policy ∧ ListsOnly c c' := by
  have howner := h.owner_of_id hx (user_ne_freelist hid)
  have hne : ∀ p : Part, p.id = partitionFreelist → owner x ≠ p := by
    intro p hp heq'
    rw [howner] at heq'
    rw [← heq'] at hp
    exact user_ne_freelist hid hp
  obtain ⟨c1, heq1, hnew, hpol, hlists⟩ := h.repart hx (show Part.free.Exists from trivial)
    (hne .free rfl) (hne .freeDetached rfl) fun hf => absurd rfl hf
  have hsame : ocfEvictionRepart g c x (owner x) .free = ocfEvictionRmCline g c x := by
    rw [howner]
    cases hp : c.policy with
    | lru =>
      simp only [ocfEvictionRepart, ocfEvictionRmCline, hp]
      rfl
    | lfu =>
      simp only [ocfEvictionRepart, ocfEvictionRmCline, hp]
      rfl
  rw [hsame, heq] at heq1
  cases heq1
  exact ⟨hnew, hpol, hlists⟩

/-- `ocf_eviction_hot_cline` for a line of a user partition. -/
theorem Managed.hotCline (h : Managed g c owner) (hx : x < g.collisionEntries)
    (hid : c.md.partitionId x < ocfUserIoClassMax) {c' : Cache}
    (heq : ocfEvictionHotCline g c x = some c') :
    Managed g c' owner ∧ c'.policy = c.policy ∧ ListsOnly c c' := by
  have howner := h.owner_of_id hx (user_ne_freelist hid)
  cases hp : c.policy with
  | lru =>
    simp only [ocfEvictionHotCline, hp] at heq
    obtain ⟨c1, heq1, hnew, hpol⟩ :=
      ((managed_lru hp).mp h).hotCline hx (user_ne_freelist hid)
    rw [heq] at heq1
    cases heq1
    exact ⟨(managed_lru (hpol.trans hp)).mpr hnew, hpol.trans hp, listsOnly_ocfLruHotCline heq⟩
  | lfu =>
    simp only [ocfEvictionHotCline, hp] at heq
    obtain ⟨c1, heq1, hnew, hpol⟩ := ((managed_lfu hp).mp h).increment hx (by rw [howner]; nofun)
    rw [heq] at heq1
    cases heq1
    exact ⟨(managed_lfu (hpol.trans hp)).mpr hnew, hpol.trans hp, listsOnly_ocfLfuIncrement heq⟩

/-- `set_cache_line_dirty` sets the dirty bits and moves the line. -/
theorem listsOnly_setLineDirty (h : setLineDirty g c start stop x = some c') :
    ListsOnly { c with md := setDirtyBits c.md x (setRange (c.md.dirty x) start stop) } c' := by
  simp only [setLineDirty] at h
  split at h
  · simp only [Lru.lruSetCacheLineDirty] at h
    split at h
    · cases h
    · split at h
      · exact listsOnly_ocfLruMove h
      · cases h
        rfl
  · simp only [Lfu.lfuSetCacheLineDirty] at h
    split at h
    · cases h
    · split at h
      · exact listsOnly_lfuMoveCline h
      · cases h
        rfl

/-- `set_cache_line_clean` clears the dirty bits and moves the line. -/
theorem listsOnly_setLineClean (h : setLineClean g c start stop x = some c') :
    ListsOnly { c with md := setDirtyBits c.md x (clearRange (c.md.dirty x) start stop) } c' := by
  simp only [setLineClean] at h
  split at h
  · simp only [Lru.lruSetCacheLineClean] at h
    split at h
    · cases h
    · split at h
      · exact listsOnly_ocfLruMove h
      · cases h
        rfl
  · simp only [Lfu.lfuSetCacheLineClean] at h
    split at h
    · cases h
    · split at h
      · exact listsOnly_lfuMoveCline h
      · cases h
        rfl

/-- `set_cache_line_dirty` for a line of a user partition. -/
theorem Managed.setLineDirty (h : Managed g c owner) (hx : x < g.collisionEntries)
    (hid : c.md.partitionId x < ocfUserIoClassMax) (hstop : stop ≤ g.endBlock)
    (heq : setLineDirty g c start stop x = some c') :
    Managed g c' owner ∧ c'.policy = c.policy := by
  cases hp : c.policy with
  | lru =>
    simp only [DetachRange.setLineDirty, hp] at heq
    obtain ⟨c1, heq1, hnew, hpol⟩ := ((managed_lru hp).mp h).setDirty start hx hid hstop
    rw [heq] at heq1
    cases heq1
    exact ⟨(managed_lru (hpol.trans hp)).mpr hnew, hpol.trans hp⟩
  | lfu =>
    simp only [DetachRange.setLineDirty, hp] at heq
    obtain ⟨c1, heq1, hnew, hpol⟩ := ((managed_lfu hp).mp h).setDirty start hx hid hstop
    rw [heq] at heq1
    cases heq1
    exact ⟨(managed_lfu (hpol.trans hp)).mpr hnew, hpol.trans hp⟩

/-- `set_cache_line_clean` for a line of a user partition. -/
theorem Managed.setLineClean (h : Managed g c owner) (hx : x < g.collisionEntries)
    (hid : c.md.partitionId x < ocfUserIoClassMax) (hstop : stop ≤ g.endBlock)
    (heq : setLineClean g c start stop x = some c') :
    Managed g c' owner ∧ c'.policy = c.policy := by
  cases hp : c.policy with
  | lru =>
    simp only [DetachRange.setLineClean, hp] at heq
    obtain ⟨c1, heq1, hnew, hpol⟩ := ((managed_lru hp).mp h).setClean start hx hid hstop
    rw [heq] at heq1
    cases heq1
    exact ⟨(managed_lru (hpol.trans hp)).mpr hnew, hpol.trans hp⟩
  | lfu =>
    simp only [DetachRange.setLineClean, hp] at heq
    obtain ⟨c1, heq1, hnew, hpol⟩ := ((managed_lfu hp).mp h).setClean start hx hid hstop
    rw [heq] at heq1
    cases heq1
    exact ⟨(managed_lfu (hpol.trans hp)).mpr hnew, hpol.trans hp⟩

/-- The iterator stands at one of the lists. -/
def OnLists (c : Cache) (it : Iter) : Prop := c.policy = .lru → it.lruIdx < Lru.ocfNumLruLists

theorem Managed.iterEvictionNext_owner (h : Managed g c owner)
    (hsrc : src.Exists) (hidx : OnLists c it)
    (heq : iterEvictionNext g c req src dst it = some (c', it', some x)) :
    x < g.collisionEntries ∧ owner x = src := by
  cases hp : c.policy with
  | lru =>
    simp only [iterEvictionNext, hp] at heq
    rcases taken_cases heq with ⟨-, hno, -⟩ | ⟨y, c1, hnext, -, hy, -⟩
    · cases hno
    · cases hy
      obtain ⟨-, hplace⟩ := ((managed_lru hp).mp h).iterNext hsrc (hidx hp) hnext
      obtain ⟨hx, howner, -⟩ := LruPlacement.owner_of_place (hplace x rfl)
      exact ⟨hx, howner⟩
  | lfu =>
    simp only [iterEvictionNext, hp] at heq
    rcases taken_cases heq with ⟨-, hno, -⟩ | ⟨y, c1, hnext, -, hy, -⟩
    · cases hno
    · cases hy
      exact ((managed_lfu hp).mp h).iterNext hsrc hnext

theorem Managed.iterFreeNext_owner (h : Managed g c owner)
    (hidx : OnLists c it) (heq : iterFreeNext g c dst it = some (c', it', some x)) :
    x < g.collisionEntries ∧ owner x = .free := by
  have hfree : Part.free.Exists := trivial
  cases hp : c.policy with
  | lru =>
    simp only [iterFreeNext, hp] at heq
    rcases taken_cases heq with ⟨-, hno, -⟩ | ⟨y, c1, hnext, -, hy, -⟩
    · cases hno
    · cases hy
      obtain ⟨-, hplace⟩ := ((managed_lru hp).mp h).iterNext hfree (hidx hp) hnext
      obtain ⟨hx, howner, -⟩ := LruPlacement.owner_of_place (hplace x rfl)
      exact ⟨hx, howner⟩
  | lfu =>
    simp only [iterFreeNext, hp] at heq
    rcases taken_cases heq with ⟨-, hno, -⟩ | ⟨y, c1, hnext, -, hy, -⟩
    · cases hno
    · cases hy
      exact ((managed_lfu hp).mp h).iterNext hfree hnext

/-- The line that the head of the loop finds: it was in the partition that is
named as its source, and it was not detached. -/
theorem Managed.nextLine_owner (h : Managed g c owner)
    (hsrc : src.Exists) (hidx : OnLists c it) {t : Handed}
    (heq : nextLine g c req src dst it cline = some (c', it', some t)) :
    t.line < g.collisionEntries ∧ t.src = (owner t.line).id ∧ owner t.line ≠ .freeDetached := by
  simp only [Space.nextLine] at heq
  split at heq
  · rename_i huser
    split at heq
    · rename_i y hsucc
      obtain ⟨r, -, hr⟩ := Option.map_eq_some_iff.mp heq
      cases hr
      obtain ⟨-, hlt, htakes⟩ := SpaceFrame.successor_spec hsucc
      have hid := (SpaceFrame.takesSuccessor_spec htakes).1
      refine ⟨hlt, h.id hlt, ?_⟩
      simp only [h.owner_of_id hlt hid]
      simp
    · obtain ⟨⟨c1, it1, f⟩, hnext, hr⟩ := Option.map_eq_some_iff.mp heq
      simp only [Prod.mk.injEq] at hr
      obtain ⟨-, -, hf⟩ := hr
      obtain ⟨y, rfl, rfl⟩ := Option.map_eq_some_iff.mp hf
      obtain ⟨hlt, howner⟩ := h.iterEvictionNext_owner hsrc hidx hnext
      refine ⟨hlt, congrArg Part.id howner.symm, fun hd => ?_⟩
      rw [← howner, hd] at huser
      exact huser rfl
  · rename_i hfree
    obtain ⟨⟨c1, it1, f⟩, hnext, hr⟩ := Option.map_eq_some_iff.mp heq
    simp only [Prod.mk.injEq] at hr
    obtain ⟨-, -, hf⟩ := hr
    obtain ⟨y, rfl, rfl⟩ := Option.map_eq_some_iff.mp hf
    obtain ⟨hlt, howner⟩ := h.iterFreeNext_owner hidx hnext
    simp only [howner]
    exact ⟨hlt, not_not.mp hfree, (by simp)⟩

theorem Managed.nextLine (h : Managed g c owner) (hsrc : src.Exists)
    (hd : d < ocfUserIoClassMax) (hidx : OnLists c it) {found : Option Handed}
    (heq : nextLine g c req src (.user d) it cline = some (c', it', found)) :
    c'.policy = c.policy ∧ OnLists c' it' ∧
      ∀ t, found = some t → Managed g c' (update owner t.line (.user d)) := by
  cases hp : c.policy with
  | lru =>
    obtain ⟨hlt, hpol, hsome⟩ :=
      ((managed_lru hp).mp h).nextLine hp hsrc hd (hidx hp) heq
    have hp' : c'.policy = .lru := hpol.trans hp
    exact ⟨hp', fun _ => hlt, fun t ht => (managed_lru hp').mpr (hsome t ht)⟩
  | lfu =>
    obtain ⟨c1, it1, f1, heq1, hpol, hsome⟩ :=
      ((managed_lfu hp).mp h).nextLine hp req hsrc hd it cline
    rw [heq] at heq1
    cases heq1
    have hp' : c'.policy = .lfu := hpol.trans hp
    refine ⟨hp', fun hlru => ?_, fun t ht => (managed_lfu hp').mpr (hsome t ht)⟩
    rw [hp'] at hlru
    cases hlru

end Managed

/-- Lines are on the lists of their partitions, and those in user partitions
are the ones with a core line. -/
structure Inv (g : Geometry) (s : State) : Prop where
  /-- Every line is on its list. -/
  managed : Managed g s.cache s.owner
  /-- Free lines have no core line, the others have one. -/
  mapped : ∀ x < g.collisionEntries,
    (s.owner x).id = partitionFreelist ↔ (s.cache.md.coreInfo x).1 = ocfCoreNum

section Requests

variable {g : Geometry}

variable {req' : Request}

theorem assignLine_core {c c' : Cache} {x src idx' : Nat}
    (h : assignLine g c req x src idx = some (c', req', idx')) :
    (∃ coreLine, c'.md.coreInfo = update c.md.coreInfo x (req.coreId, coreLine)) ∧
      req'.coreId = req.coreId := by
  simp only [assignLine, Option.ite_none_left_eq_some, Option.some.injEq, Prod.mk.injEq] at h
  obtain ⟨-, -, rfl, rfl, -⟩ := h
  refine ⟨⟨req.coreLineFirst g + nextMiss g req (req.coreLineCount g) idx, ?_⟩, rfl⟩
  simp only [ocfMapCacheLine, ocfMetadataAddToCollision]
  split
  · simp only [evictInvalidate, ocfMetadataRemoveFromCollision, setValidBits,
      update_idem]
  · rfl

theorem assignLine_policy {c c' : Cache} {x src idx' : Nat}
    (h : assignLine g c req x src idx = some (c', req', idx')) : c'.policy = c.policy := by
  simp only [assignLine, Option.ite_none_left_eq_some, Option.some.injEq, Prod.mk.injEq] at h
  obtain ⟨-, -, rfl, -, -⟩ := h
  rfl

theorem Managed.assignLine {c c' : Cache} {owner : Nat → Part} {x src idx' : Nat} (h : Managed g c owner)
    (heq : assignLine g c req x src idx = some (c', req', idx')) : Managed g c' owner := by
  rcases policy_cases c with hp | hp
  · obtain ⟨hnew, hpol⟩ := ((managed_lru hp).mp h).assignLine heq
    exact (managed_lru (hpol.trans hp)).mpr hnew
  · obtain ⟨hnew, hpol⟩ := ((managed_lfu hp).mp h).assignLine heq
    exact (managed_lfu (hpol.trans hp)).mpr hnew

theorem OnLists.assignLine {c c' : Cache} {x src idx' : Nat} (h : OnLists c it)
    (heq : assignLine g c req x src idx = some (c', req', idx')) : OnLists c' it := by
  rw [OnLists, assignLine_policy heq]
  exact h

variable {owner : Nat → Part}

theorem handOver_of_not_mem {x : Nat} {log : List Handed}
    (h : ∀ t ∈ log, t.line ≠ x) : LruPlacement.handOver owner d log x = owner x := by
  induction log generalizing owner with
  | nil => rfl
  | cons t log ih =>
    have hrest : LruPlacement.handOver (update owner t.line (.user d)) d log x =
        update owner t.line (.user d) x := ih fun u hu => h u (List.mem_cons_of_mem t hu)
    have hne : x ≠ t.line := (h t List.mem_cons_self).symm
    rw [update_of_ne hne] at hrest
    exact hrest

theorem Inv.assign {c c1 c2 : Cache} {t : Handed}
    {idx' : Nat} (h : Inv g ⟨c, owner⟩) (hd : d < ocfUserIoClassMax)
    (hcore : req.coreId < ocfCoreNum)
    (hmoved : Managed g c1 (update owner t.line (.user d))) (htook : Took g req src cline c c1 t)
    (heq : assignLine g c1 req t.line t.src idx = some (c2, req', idx')) :
    Inv g ⟨c2, update owner t.line (.user d)⟩ := by
  obtain ⟨⟨coreLine, hinfo⟩, -⟩ := assignLine_core heq
  obtain ⟨c0, hlists, rfl⟩ := htook.lists
  have hsame : (lockLine c0 t.line).md.coreInfo = c.md.coreInfo := hlists.coreInfo
  refine ⟨hmoved.assignLine heq, fun y hy => ?_⟩
  simp only [hinfo, hsame]
  by_cases hyt : y = t.line
  · subst hyt
    rw [update_self, update_self]
    constructor
    · intro hid
      exact absurd hid (user_ne_freelist hd)
    · intro hnone
      exact absurd hnone (Nat.ne_of_lt hcore)
  · rw [update_of_ne hyt, update_of_ne hyt]
    exact h.mapped y hy

/-- Every line is found on the list of the partition that it is in. -/
theorem Managed.reqClines_source {c : Cache} {n : Nat} {r : Result} (h : Managed g c owner)
    (hd : req.partId < ocfUserIoClassMax) (hsrc : src.Exists)
    (heq : ocfEvictionReqClines g c req src n = some r) :
    ∀ t ∈ r.2.2, t.line < g.collisionEntries ∧ t.src = t.before.md.partitionId t.line := by
  simp only [ocfEvictionReqClines] at heq
  split at heq
  · cases heq
    simp
  · split at heq
    · cases heq
    · have hstart : Managed g { c with lruIdx := c.lruIdx + 1 } owner :=
        h.congr rfl rfl rfl rfl rfl rfl rfl
      refine reqClinesLoop_rule (P := fun _ c _ it _ r => ∀ owner, Managed g c owner → OnLists c it →
        ∀ t ∈ r.2.2, t.line < g.collisionEntries ∧ t.src = t.before.md.partitionId t.line)
        (by simp) ?_ heq owner hstart fun _ => Nat.mod_lt _ (by decide)
      intro n c req it cline c1 it1 t c2 req2 idx idx2 r hnext htook hassign ih owner hm hidx
      obtain ⟨-, hidx1, hsome⟩ := hm.nextLine hsrc hd hidx hnext
      obtain ⟨hlt, hpart, -⟩ := hm.nextLine_owner hsrc hidx hnext
      have hrest := ih _ ((hsome t rfl).assignLine hassign) (hidx1.assignLine hassign)
      intro u hu
      rcases List.mem_cons.mp hu with rfl | hu
      · rw [htook.before]
        exact ⟨hlt, hpart.trans (hm.id hlt).symm⟩
      · exact hrest u hu

theorem Inv.reqClinesLoop (hsrc : src.Exists) (hd : d < ocfUserIoClassMax)
    {dstMax n : Nat} {c : Cache} {r : Result} (h : Inv g ⟨c, owner⟩) (hidx : OnLists c it)
    (hcore : req.coreId < ocfCoreNum)
    (heq : reqClinesLoop g src (.user d) dstMax n c req it cline idx = some r) :
    Inv g ⟨r.1, LruPlacement.handOver owner d r.2.2⟩ ∧ r.1.policy = c.policy ∧
      ∀ t ∈ r.2.2, owner t.line ≠ .freeDetached := by
  refine reqClinesLoop_rule (P := fun _ c req it _ r => ∀ owner, Inv g ⟨c, owner⟩ → OnLists c it →
    req.coreId < ocfCoreNum → Inv g ⟨r.1, LruPlacement.handOver owner d r.2.2⟩ ∧
      r.1.policy = c.policy ∧ ∀ t ∈ r.2.2, owner t.line ≠ .freeDetached)
    (fun _ _ _ _ _ _ h _ _ => ⟨h, rfl, by simp⟩) ?_ heq owner h hidx hcore
  intro n c req it cline c1 it1 t c2 req2 idx idx2 r hnext htook hassign ih owner h hidx hcore
  obtain ⟨hpol, hidx1, hsome⟩ := h.managed.nextLine hsrc hd hidx hnext
  have hline := (h.managed.nextLine_owner hsrc hidx hnext).2.2
  have hcore2 : req2.coreId < ocfCoreNum := (assignLine_core hassign).2 ▸ hcore
  obtain ⟨hfin, hpolfin, hlines⟩ := ih _ (h.assign hd hcore (hsome t rfl) htook hassign)
    (hidx1.assignLine hassign) hcore2
  refine ⟨hfin, hpolfin.trans ((assignLine_policy hassign).trans hpol), fun u hu => ?_⟩
  rcases List.mem_cons.mp hu with rfl | hu
  · exact hline
  · have hother := hlines u hu
    by_cases hut : u.line = t.line
    · rw [hut]
      exact hline
    · rw [update_of_ne hut] at hother
      exact hother

/-- `ocf_lru_req_clines` and `ocf_lfu_req_clines`. -/
theorem Inv.reqClines {s : State} (h : Inv g s)
    (hd : req.partId < ocfUserIoClassMax) (hcore : req.coreId < ocfCoreNum)
    (hsrc : src.Exists) {n : Nat} {r : Result}
    (heq : ocfEvictionReqClines g s.cache req src n = some r) :
    Inv g ⟨r.1, LruPlacement.handOver s.owner req.partId r.2.2⟩ ∧
      r.1.policy = s.cache.policy ∧ ∀ t ∈ r.2.2, s.owner t.line ≠ .freeDetached := by
  simp only [ocfEvictionReqClines] at heq
  split at heq
  · cases heq
    exact ⟨h, rfl, (by simp)⟩
  · split at heq
    · cases heq
    · have hinv : Inv g ⟨{ s.cache with lruIdx := s.cache.lruIdx + 1 }, s.owner⟩ :=
        ⟨h.managed.congr rfl rfl rfl rfl rfl rfl rfl, h.mapped⟩
      refine hinv.reqClinesLoop hsrc hd (fun _ => ?_) hcore heq
      exact Nat.mod_lt _ (by decide)

end Requests

section Lines

variable {g : Geometry} {s : State} {x : Nat}

/-- `set_cache_line_unavailable` for a whole line that is not detached. -/
theorem Inv.unavailable (h : Inv g s) (hx : x < g.collisionEntries)
    (hne : s.owner x ≠ .freeDetached) (hw : s.cache.waiters x = false) :
    ∃ c', setCacheLineUnavailable g s.cache 0 g.endBlock x = some c' ∧
      Inv g ⟨c', update s.owner x .freeDetached⟩ ∧ c'.policy = s.cache.policy ∧
      c'.lineLocked = s.cache.lineLocked ∧ c'.waiters = s.cache.waiters := by
  have hid := h.managed.id hx
  have hmapped := h.mapped x hx
  simp only [setCacheLineUnavailable]
  cases howner : s.owner x with
  | freeDetached => exact absurd howner hne
  | free =>
    have hpart : s.cache.md.partitionId x = partitionFreelist := by rw [hid, howner]; rfl
    have hcore : (s.cache.md.coreInfo x).1 = ocfCoreNum := hmapped.mp (by rw [howner]; rfl)
    obtain ⟨c1, heq, hnew, hpol, hlists⟩ := h.managed.detach hx hne
    rw [if_neg (fun hb => hb.2 hcore), if_neg (fun hb => hb.1 hpart), if_neg (not_not.mpr hpart),
      if_pos hcore]
    rw [howner] at heq
    refine ⟨c1, heq, ⟨hnew, fun y hy => ?_⟩, hpol, hlists.lineLocked, hlists.waiters⟩
    simp only [hlists.coreInfo]
    by_cases hyx : y = x
    · subst hyx
      rw [update_self]
      exact ⟨fun _ => hcore, fun _ => rfl⟩
    · rw [update_of_ne hyx]
      exact h.mapped y hy
  | user p =>
    have hp : p < ocfUserIoClassMax := by
      have hexists := h.managed.part x
      rw [howner] at hexists
      exact hexists
    have hpart : s.cache.md.partitionId x = p := by rw [hid, howner]; rfl
    have hcore : (s.cache.md.coreInfo x).1 ≠ ocfCoreNum := by
      rw [ne_eq, ← hmapped, howner]
      exact user_ne_freelist hp
    rw [hpart, if_neg (fun hb => user_ne_freelist hp hb.1), if_neg (fun hb => hcore hb.2),
      if_pos (user_ne_freelist hp), if_neg hcore, if_neg (by rw [hw]; exact Bool.false_ne_true)]
    -- the line loses its last valid blocks, so it leaves its collision list
    have hinvalid : metadataTestValidAny g (setValidBits s.cache.md x
        (clearRange (s.cache.md.valid x) 0 g.endBlock)) x = false := by
      rw [← Bool.not_eq_true]
      simp only [metadataTestValidAny, setValidBits, update_self, testAny_eq_true,
        clearRange, Bool.and_eq_true, Bool.not_eq_true', decide_eq_false_iff_not]
      rintro ⟨i, hi, -, -, hout⟩
      exact hout ⟨Nat.zero_le i, hi⟩
    rw [if_neg (by rw [hinvalid]; exact Bool.false_ne_true)]
    have hmd : Managed g { s.cache with md := ocfMetadataRemoveFromCollision g (setValidBits s.cache.md x
        (clearRange (s.cache.md.valid x) 0 g.endBlock)) x } s.owner :=
      h.managed.of_md (fun _ _ => rfl) fun _ _ _ => rfl
    obtain ⟨c1, heq, hnew, hpol, hlists⟩ := hmd.detach hx hne
    rw [howner] at heq
    refine ⟨c1, heq, ⟨hnew, fun y hy => ?_⟩, hpol, hlists.lineLocked, hlists.waiters⟩
    simp only [hlists.coreInfo, ocfMetadataRemoveFromCollision, setValidBits]
    by_cases hyx : y = x
    · subst hyx
      rw [update_self, update_self]
      exact ⟨fun _ => rfl, fun _ => rfl⟩
    · rw [update_of_ne hyx, update_of_ne hyx]
      exact h.mapped y hy

theorem Inv.detachCline (h : Inv g s) (hx : x < g.collisionEntries)
    (hne : s.owner x ≠ .freeDetached) (hl : s.cache.lineLocked x = false)
    (hw : s.cache.waiters x = false) : ∃ c', detachCline g s.cache x = .ok c' ∧
      Inv g ⟨c', update s.owner x .freeDetached⟩ ∧ c'.policy = s.cache.policy ∧
      c'.lineLocked = s.cache.lineLocked ∧ c'.waiters = s.cache.waiters := by
  obtain ⟨c1, heq, hinv, hpol, hlock, hwait⟩ := h.unavailable hx hne hw
  refine ⟨{ c1 with md := metadataClearDirty g c1.md x }, ?_, ⟨?_, hinv.mapped⟩, hpol, hlock, hwait⟩
  · simp only [DetachRange.detachCline, hl, hw, heq]
    rfl
  · refine hinv.managed.of_md (fun _ _ => rfl) fun y hy huser => ?_
    have hyx : y ≠ x := by
      rintro rfl
      simp only [update_self] at huser
      exact huser rfl
    exact LruPlacement.testDirty_of_ne hyx

theorem Inv.restoreCline (h : Inv g s) (hp : s.cache.policy = .lru) (hx : x < g.collisionEntries)
    (hd : s.owner x = .freeDetached) :
    ∃ c', restoreCline g s.cache x = .ok c' ∧ Inv g ⟨c', update s.owner x .free⟩ ∧
      c'.policy = .lru := by
  obtain ⟨c1, heq, hnew, hpol, hlists⟩ := h.managed.reattach hp hx hd
  refine ⟨c1, by rw [DetachRange.restoreCline, heq], ⟨hnew, fun y hy => ?_⟩, hpol⟩
  simp only [hlists.coreInfo]
  by_cases hyx : y = x
  · subst hyx
    have hmapped := h.mapped y hy
    rw [hd] at hmapped
    rw [update_self]
    exact hmapped
  · rw [update_of_ne hyx]
    exact h.mapped y hy

/-- Move the lines of a range to a partition. -/
def moveRange (owner : Nat → Part) (first stop : Nat) (dst : Part) : Nat → Part :=
  fun x => if first ≤ x ∧ x < stop then dst else owner x

theorem moveRange_of_mem {owner : Nat → Part} (h : first ≤ x)
    (h' : x < stop) : moveRange owner first stop dst x = dst := if_pos ⟨h, h'⟩

theorem moveRange_of_not_mem {owner : Nat → Part}
    (h : ¬(first ≤ x ∧ x < stop)) : moveRange owner first stop dst x = owner x := if_neg h

theorem moveRange_self (owner : Nat → Part) (first : Nat) (dst : Part) :
    moveRange owner first first dst = owner := by
  funext x
  exact moveRange_of_not_mem (by omega)

theorem moveRange_succ (owner : Nat → Part) (first i : Nat) (dst : Part) :
    update (moveRange owner first (first + i) dst) (first + i) dst =
      moveRange owner first (first + (i + 1)) dst := by
  funext x
  by_cases hx : x = first + i
  · subst hx
    rw [update_self, moveRange_of_mem (by omega) (by omega)]
  · rw [update_of_ne hx]
    by_cases hin : first ≤ x ∧ x < first + i
    · rw [moveRange_of_mem hin.1 hin.2, moveRange_of_mem hin.1 (by omega)]
    · rw [moveRange_of_not_mem hin, moveRange_of_not_mem (by omega)]

/-- Lines of a range that nobody uses, none of them detached. -/
def Idle (s : State) (first stop : Nat) : Prop :=
  ∀ x, first ≤ x → x < stop → s.cache.lineLocked x = false ∧ s.cache.waiters x = false ∧
    s.owner x ≠ .freeDetached

/-- `ocf_metadata_detach_cline_range` succeeds under either policy. -/
theorem Inv.detachRange (h : Inv g s) (hle : first ≤ stop)
    (hstop : stop ≤ g.collisionEntries) (hidle : Idle s first stop) :
    ∃ c', ocfMetadataDetachClineRange g s.cache first stop = .ok c' ∧
      Inv g ⟨c', moveRange s.owner first stop .freeDetached⟩ ∧ c'.policy = s.cache.policy := by
  have hloop := @forRange_ok _ Failure (fun c i => DetachRange.detachCline g c (first + i))
    (stop - first) s.cache (fun i c => Inv g ⟨c, moveRange s.owner first (first + i) .freeDetached⟩ ∧
      c.policy = s.cache.policy ∧ c.lineLocked = s.cache.lineLocked ∧ c.waiters = s.cache.waiters)
    ⟨by rw [Nat.add_zero, moveRange_self]; exact h, rfl, rfl, rfl⟩ ?_
  · obtain ⟨c', heq, hinv, hpol, -⟩ := hloop
    rw [Nat.add_sub_cancel' hle] at hinv
    refine ⟨c', ?_, hinv, hpol⟩
    rw [ocfMetadataDetachClineRange, overRange, if_neg (by omega)]
    exact heq
  · rintro i c hi ⟨hinv, hpol, hlock, hwait⟩
    obtain ⟨hl, hw, hne⟩ := hidle (first + i) (by omega) (by omega)
    have hattached : moveRange s.owner first (first + i) .freeDetached (first + i) ≠
        .freeDetached := by
      rw [moveRange_of_not_mem (by omega)]
      exact hne
    rw [← hlock] at hl
    rw [← hwait] at hw
    obtain ⟨c', heq, hinv', hpol', hlock', hwait'⟩ :=
      hinv.detachCline (by omega) hattached hl hw
    simp only [moveRange_succ] at hinv'
    exact ⟨c', heq, hinv', hpol'.trans hpol, hlock'.trans hlock, hwait'.trans hwait⟩

/-- `ocf_metadata_restore_cline_range` succeeds with LRU lists. -/
theorem Inv.restoreRange (h : Inv g s) (hp : s.cache.policy = .lru)
    (hle : first ≤ stop) (hstop : stop ≤ g.collisionEntries)
    (hd : ∀ x, first ≤ x → x < stop → s.owner x = .freeDetached) :
    ∃ c', ocfMetadataRestoreClineRange g s.cache first stop = .ok c' ∧
      Inv g ⟨c', moveRange s.owner first stop .free⟩ ∧ c'.policy = .lru := by
  have hloop := @forRange_ok _ Failure (fun c i => DetachRange.restoreCline g c (first + i))
    (stop - first) s.cache (fun i c => Inv g ⟨c, moveRange s.owner first (first + i) .free⟩ ∧
      c.policy = .lru) ⟨by rw [Nat.add_zero, moveRange_self]; exact h, hp⟩ ?_
  · obtain ⟨c', heq, hinv, hpol⟩ := hloop
    rw [Nat.add_sub_cancel' hle] at hinv
    refine ⟨c', ?_, hinv, hpol⟩
    rw [ocfMetadataRestoreClineRange, overRange, if_neg (by omega)]
    exact heq
  · rintro i c hi ⟨hinv, hpol⟩
    have hsame : moveRange s.owner first (first + i) .free (first + i) = .freeDetached := by
      rw [moveRange_of_not_mem (by omega)]
      exact hd (first + i) (by omega) (by omega)
    obtain ⟨c', heq, hinv', hpol'⟩ := hinv.restoreCline hpol (by omega) hsame
    simp only [moveRange_succ] at hinv'
    exact ⟨c', heq, hinv', hpol'⟩

theorem overRange_empty {body : Cache → Nat → Except Failure Cache} {c : Cache}
    (h : first ≤ g.collisionEntries) : overRange g body c first first = .ok c := by
  rw [overRange, if_neg (by omega), Nat.sub_self]
  rfl

theorem restoreRange_lfu {c : Cache} (hp : c.policy = .lfu) (hlt : first < stop) {c' : Cache} :
    ocfMetadataRestoreClineRange g c first stop ≠ .ok c' := by
  intro heq
  rw [ocfMetadataRestoreClineRange, overRange] at heq
  split at heq
  · cases heq
  · have hnever := @forRange_except _ Failure (fun c i => DetachRange.restoreCline g c (first + i))
      (stop - first) c c' (fun i t => if i = 0 then t = c else False) rfl ?_ heq
    · rw [if_neg (by omega)] at hnever
      exact hnever
    · intro i t t' _ hinv hbody
      split at hinv
      · subst hinv
        rw [DetachRange.restoreCline, ocfEvictionReattach_lfu hp] at hbody
        cases hbody
      · exact absurd hinv id

end Lines

end OcfCache.DetachRange
