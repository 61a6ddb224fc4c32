import OcfCache.DetachRange

/-!
# Detaching and restoring in runs

A range of cache lines is detached in some reachable state, other lines go on
being used, and then the range is restored. With LRU lists this is a round trip
to the free list, and no request gets a line of the range in between. With LFU
lists the restoration stops at the check of the partition of its first line.
-/

namespace OcfCache.DetachRuns

open Function Loops Metadata Requests Partitions Space Runs DetachRange
open LruRuns (State)

/-- Operations on cache lines, under either policy. -/
inductive Op
  | reqClines (req : Request) (src : Part) (clineNo : Nat)
  | repart (cline dst : Nat)
  | hotCline (cline : Nat)
  | setDirty (cline start stop : Nat)
  | setClean (cline start stop : Nat)
  | setInvalid (cline start stop : Nat)
  | detach (first stop : Nat)
  | restore (first stop : Nat)
  | other (next : Cache)

/-- A mapped line: it exists and is in a user partition. -/
def InUse (g : Geometry) (s : State) (x : Nat) : Prop :=
  x < g.collisionEntries ∧ s.cache.md.partitionId x < ocfUserIoClassMax

/-- Contract of the callers: the functions for mapped lines are called for
mapped lines, a line changes to another partition, a detached range is idle,
and a restored one was detached. Anything else may change what decides neither
the list nor the core line of a cache line. -/
def Permitted (g : Geometry) (s : State) : Op → Prop
  | .reqClines req src _ =>
    req.partId < ocfUserIoClassMax ∧ req.coreId < ocfCoreNum ∧ src.Exists
  | .repart x dst => InUse g s x ∧ dst < ocfUserIoClassMax ∧ s.cache.md.partitionId x ≠ dst
  | .hotCline x => InUse g s x
  | .setDirty x _ stop => InUse g s x ∧ stop ≤ g.endBlock
  | .setClean x _ stop => InUse g s x ∧ stop ≤ g.endBlock
  | .setInvalid x _ stop => InUse g s x ∧ stop ≤ g.endBlock
  | .detach first stop => Idle s first stop
  | .restore first stop => ∀ x, first ≤ x → x < stop → s.owner x = .freeDetached
  | .other next =>
    next.lruNodes = s.cache.lruNodes ∧ next.lruLists = s.cache.lruLists ∧
      next.lfuNodes = s.cache.lfuNodes ∧ next.lfuLists = s.cache.lfuLists ∧
      next.currSize = s.cache.currSize ∧ next.policy = s.cache.policy ∧
      (∀ x < g.collisionEntries, next.md.partitionId x = s.cache.md.partitionId x ∧
        next.md.coreInfo x = s.cache.md.coreInfo x) ∧
      ∀ x < g.collisionEntries, s.cache.md.partitionId x ≠ partitionFreelist →
        metadataTestDirty g next.md x = metadataTestDirty g s.cache.md x

/-- A call that returns an error leaves the cache as it was. -/
def ofCall (s : State) (owner : Nat → Part) : Except Failure Cache → Option State
  | .ok c => some ⟨c, owner⟩
  | .error .inval => some s
  | .error .bug => none

/-- The operations, with the partition that they leave each line in. A line
that keeps a valid block, or that a request waits for, stays mapped. -/
def step (g : Geometry) (s : State) : Op → Option State
  | .reqClines req src n =>
    (ocfEvictionReqClines g s.cache req src n).map fun r =>
      ⟨r.1, LruPlacement.handOver s.owner req.partId r.2.2⟩
  | .repart x dst =>
    (ocfEvictionRepart g s.cache x (.user (s.cache.md.partitionId x)) (.user dst)).map fun c =>
      ⟨c, update s.owner x (.user dst)⟩
  | .hotCline x => (ocfEvictionHotCline g s.cache x).map fun c => ⟨c, s.owner⟩
  | .setDirty x start stop => (setLineDirty g s.cache start stop x).map fun c => ⟨c, s.owner⟩
  | .setClean x start stop => (setLineClean g s.cache start stop x).map fun c => ⟨c, s.owner⟩
  | .setInvalid x start stop =>
    (setLineInvalid g s.cache start stop x).map fun c =>
      ⟨c, if c.md.partitionId x = partitionFreelist then update s.owner x .free
        else s.owner⟩
  | .detach first stop =>
    ofCall s (moveRange s.owner first stop .freeDetached)
      (ocfMetadataDetachClineRange g s.cache first stop)
  | .restore first stop =>
    ofCall s (moveRange s.owner first stop .free)
      (ocfMetadataRestoreClineRange g s.cache first stop)
  | .other next => some ⟨next, s.owner⟩

/-- Use of the cache lines as a transition system. -/
def linesSystem (g : Geometry) : System State Op := ⟨Permitted g, step g⟩

/-- States in which a policy starts, with the free lines the unmapped ones. -/
def Start (g : Geometry) (s : State) : Prop :=
  (LruRuns.Start g s ∨ LfuRuns.Start g s) ∧
    ∀ x < g.collisionEntries,
      (s.owner x).id = partitionFreelist ↔ (s.cache.md.coreInfo x).1 = ocfCoreNum

theorem Start.inv {g : Geometry} {s : State} (h : Start g s) : Inv g s := by
  obtain ⟨hstart | hstart, hmapped⟩ := h
  · obtain ⟨hplaced, hpol⟩ := LruRuns.Start.placed hstart
    exact ⟨(managed_lru hpol).mpr hplaced, hmapped⟩
  · have hinv := LfuRuns.Start.inv hstart true
    exact ⟨(managed_lfu hinv.policy).mpr hinv.placed, hmapped⟩

section Steps

variable {g : Geometry} {s s' : State}

theorem InUse.owner {x : Nat} (hx : InUse g s x) (h : Inv g s) :
    s.owner x = .user (s.cache.md.partitionId x) :=
  h.managed.owner_of_id hx.1 (user_ne_freelist hx.2)

theorem Inv.of_coreInfo {c : Cache} (h : Inv g s) (hm : Managed g c s.owner)
    (hcore : c.md.coreInfo = s.cache.md.coreInfo) : Inv g ⟨c, s.owner⟩ := by
  refine ⟨hm, fun y hy => ?_⟩
  simp only [hcore]
  exact h.mapped y hy

theorem Inv.repart {x dst : Nat} (h : Inv g s) (hx : InUse g s x) (hdst : dst < ocfUserIoClassMax)
    (hne : s.cache.md.partitionId x ≠ dst) {c : Cache}
    (heq : ocfEvictionRepart g s.cache x (.user (s.cache.md.partitionId x)) (.user dst) = some c) :
    Inv g ⟨c, update s.owner x (.user dst)⟩ ∧ c.policy = s.cache.policy := by
  have howner := hx.owner h
  have huser := user_ne_freelist hx.2
  obtain ⟨c1, heq1, hnew, hpol, hlists⟩ := h.managed.repart hx.1
    (show (Part.user dst).Exists from hdst) (by rw [howner]; exact fun he => hne (Part.user.inj he))
    (by rw [howner]; nofun) fun _ => by rw [howner]; exact huser
  rw [howner, heq] at heq1
  cases heq1
  refine ⟨⟨hnew, fun y hy => ?_⟩, hpol⟩
  simp only [hlists.coreInfo]
  by_cases hyx : y = x
  · subst hyx
    have hmapped := h.mapped y hy
    rw [howner] at hmapped
    rw [update_self, ← hmapped]
    exact ⟨fun hid => absurd hid (user_ne_freelist hdst), fun hid => absurd hid huser⟩
  · rw [update_of_ne hyx]
    exact h.mapped y hy

/-- `__set_cache_line_invalid`: the line stays mapped, or it becomes free. -/
theorem Inv.setLineInvalid {x start stop : Nat} (h : Inv g s) (hx : InUse g s x) {c : Cache}
    (heq : setLineInvalid g s.cache start stop x = some c) :
    (Inv g ⟨c, s.owner⟩ ∧ c.md.partitionId x ≠ partitionFreelist ∨
      Inv g ⟨c, update s.owner x .free⟩ ∧ c.md.partitionId x = partitionFreelist) ∧
      c.policy = s.cache.policy := by
  have hmd : Managed g { s.cache with
      md := CacheLine.setValidBits s.cache.md x (clearRange (s.cache.md.valid x) start stop) } s.owner :=
    h.managed.of_md (fun _ _ => rfl) fun _ _ _ => rfl
  simp only [DetachRange.setLineInvalid] at heq
  split at heq
  · cases heq
  · split at heq
    · cases heq
      exact ⟨.inl ⟨⟨hmd, h.mapped⟩, user_ne_freelist hx.2⟩, rfl⟩
    · obtain ⟨c1, hrm, rfl⟩ := Option.map_eq_some_iff.mp heq
      obtain ⟨hnew, hpol, hlists⟩ := hmd.rmCline hx.1 hx.2 hrm
      have hfree : c1.md.partitionId x = partitionFreelist := by
        rw [hnew.id hx.1, update_self]
        rfl
      refine ⟨.inr ⟨⟨hnew.of_md (fun _ _ => rfl) fun _ _ _ => rfl, fun y hy => ?_⟩, hfree⟩, hpol⟩
      simp only [ocfMetadataRemoveFromCollision, hlists.coreInfo, CacheLine.setValidBits]
      by_cases hyx : y = x
      · subst hyx
        rw [update_self, update_self]
        exact ⟨fun _ => rfl, fun _ => rfl⟩
      · rw [update_of_ne hyx, update_of_ne hyx]
        exact h.mapped y hy

/-- The operation is one on the line. -/
def Touches : Op → Nat → Prop
  | .reqClines .., _ => False
  | .repart x _, y => x = y
  | .hotCline x, y => x = y
  | .setDirty x _ _, y => x = y
  | .setClean x _ _, y => x = y
  | .setInvalid x _ _, y => x = y
  | .detach first stop, y => first ≤ y ∧ y < stop
  | .restore first stop, y => first ≤ y ∧ y < stop
  | .other _, _ => False

theorem ofCall_eq_some {owner : Nat → Part} {r : Except Failure Cache}
    (h : ofCall s owner r = some s') :
    (∃ c, r = .ok c ∧ s' = ⟨c, owner⟩) ∨ (r = .error .inval ∧ s' = s) := by
  cases r with
  | ok c =>
    cases h
    exact .inl ⟨c, rfl, rfl⟩
  | error e =>
    cases e with
    | inval =>
      cases h
      exact .inr ⟨rfl, rfl⟩
    | bug => cases h

theorem bounds_of_ok {body : Cache → Nat → Except Failure Cache} {c c' : Cache} {first stop : Nat}
    (h : overRange g body c first stop = .ok c') : first ≤ stop ∧ stop ≤ g.collisionEntries := by
  rw [overRange] at h
  split at h
  · cases h
  · omega

/-- Every operation keeps lists and mapping. A detached line that it does not
touch stays detached. -/
theorem step_inv {op : Op} (h : Inv g s) (hp : Permitted g s op) (hs : step g s op = some s') :
    Inv g s' ∧ s'.cache.policy = s.cache.policy ∧
      ∀ y, s.owner y = .freeDetached → ¬Touches op y → s'.owner y = .freeDetached := by
  cases op with
  | reqClines req src n =>
    obtain ⟨r, heq, rfl⟩ := Option.map_eq_some_iff.mp hs
    obtain ⟨hinv, hpol, hlines⟩ := h.reqClines hp.1 hp.2.1 hp.2.2 heq
    refine ⟨hinv, hpol, fun y hy _ => ?_⟩
    have hnot : ∀ t ∈ r.2.2, t.line ≠ y := by
      rintro t ht rfl
      exact hlines t ht hy
    simp only [handOver_of_not_mem hnot]
    exact hy
  | repart x dst =>
    obtain ⟨c, heq, rfl⟩ := Option.map_eq_some_iff.mp hs
    obtain ⟨hinv, hpol⟩ := Inv.repart h hp.1 hp.2.1 hp.2.2 heq
    refine ⟨hinv, hpol, fun y hy hne => ?_⟩
    simp only [update_of_ne (Ne.symm hne)]
    exact hy
  | hotCline x =>
    obtain ⟨c, heq, rfl⟩ := Option.map_eq_some_iff.mp hs
    obtain ⟨hnew, hpol, hlists⟩ := h.managed.hotCline hp.1 hp.2 heq
    exact ⟨Inv.of_coreInfo h hnew hlists.coreInfo, hpol, fun y hy _ => hy⟩
  | setDirty x start stop =>
    obtain ⟨c, heq, rfl⟩ := Option.map_eq_some_iff.mp hs
    obtain ⟨hnew, hpol⟩ := h.managed.setLineDirty hp.1.1 hp.1.2 hp.2 heq
    exact ⟨Inv.of_coreInfo h hnew (listsOnly_setLineDirty heq).coreInfo, hpol, fun y hy _ => hy⟩
  | setClean x start stop =>
    obtain ⟨c, heq, rfl⟩ := Option.map_eq_some_iff.mp hs
    obtain ⟨hnew, hpol⟩ := h.managed.setLineClean hp.1.1 hp.1.2 hp.2 heq
    exact ⟨Inv.of_coreInfo h hnew (listsOnly_setLineClean heq).coreInfo, hpol, fun y hy _ => hy⟩
  | setInvalid x start stop =>
    obtain ⟨c, heq, rfl⟩ := Option.map_eq_some_iff.mp hs
    obtain ⟨⟨hinv, hid⟩ | ⟨hinv, hid⟩, hpol⟩ := Inv.setLineInvalid h hp.1 heq
    · simp only [if_neg hid]
      exact ⟨hinv, hpol, fun y hy _ => hy⟩
    · simp only [if_pos hid]
      refine ⟨hinv, hpol, fun y hy hne => ?_⟩
      rw [update_of_ne (Ne.symm hne)]
      exact hy
  | detach first stop =>
    rcases ofCall_eq_some hs with ⟨c, heq, rfl⟩ | ⟨-, rfl⟩
    · obtain ⟨hle, hstop⟩ := bounds_of_ok heq
      obtain ⟨c1, heq1, hinv, hpol⟩ := h.detachRange hle hstop hp
      rw [heq] at heq1
      cases heq1
      refine ⟨hinv, hpol, fun y hy hne => ?_⟩
      simp only [moveRange_of_not_mem hne]
      exact hy
    · exact ⟨h, rfl, fun y hy _ => hy⟩
  | restore first stop =>
    rcases ofCall_eq_some hs with ⟨c, heq, rfl⟩ | ⟨-, rfl⟩
    · obtain ⟨hle, hstop⟩ := bounds_of_ok heq
      have hother : ∀ y, s.owner y = .freeDetached → ¬Touches (.restore first stop) y →
          moveRange s.owner first stop .free y = .freeDetached := by
        intro y hy hne
        rw [moveRange_of_not_mem hne]
        exact hy
      rcases policy_cases s.cache with hlru | hlfu
      · obtain ⟨c1, heq1, hinv, hpol⟩ := h.restoreRange hlru hle hstop hp
        rw [heq] at heq1
        cases heq1
        exact ⟨hinv, hpol.trans hlru.symm, hother⟩
      · -- with LFU lists only an empty range comes back
        have hsame : first = stop :=
          Nat.le_antisymm hle (Nat.le_of_not_lt fun hlt => restoreRange_lfu hlfu hlt heq)
        subst hsame
        rw [ocfMetadataRestoreClineRange, overRange_empty hstop] at heq
        cases heq
        rw [moveRange_self]
        exact ⟨h, rfl, fun y hy _ => hy⟩
    · exact ⟨h, rfl, fun y hy _ => hy⟩
  | other next =>
    cases hs
    obtain ⟨hn, hl, hn', hl', hsz, hpol, hmd, hdirty⟩ := hp
    have hnew := h.managed.of_md (fun x hx => (hmd x hx).1) fun x hx hf =>
      hdirty x hx (by rw [h.managed.id hx]; exact hf)
    refine ⟨⟨hnew.congr hpol hn hl hn' hl' rfl hsz, fun y hy => ?_⟩, hpol, fun y hy _ => hy⟩
    simp only [(hmd y hy).2]
    exact h.mapped y hy

/-- Every line is on its list in every run. -/
theorem reachable_inv {start : State} (h0 : Start g start)
    (h : Reachable (linesSystem g) start s) : Inv g s :=
  h.invariant (fun _ => h0.inv) fun _ _ _ hinv _ hp hs _ => (step_inv hinv hp hs).1

end Steps

/-- Lines on the lists of a partition, from their links. -/
def linesOf (c : Cache) (p : Part) : List Nat :=
  match c.policy with
  | .lru => (LruRuns.partLists p).flatMap (LruRuns.linesOn c)
  | .lfu => (LfuRuns.partLists p).flatMap (LfuRuns.linesOn c)

theorem lru_list_part (g : Geometry) (c : Cache) (owner : Nat → Part) (x : Nat) :
    (LruPlacement.listOf g c owner x).part = owner x := by
  simp only [LruPlacement.listOf, Lru.ocfLruGetList]
  split <;> rfl

theorem lfu_list_part (c : Cache) (owner : Nat → Part) (x : Nat) :
    (LfuPlacement.listOf c owner x).part = owner x := by
  simp only [LfuPlacement.listOf, Lfu.ocfLfuGetList]
  split <;> rfl

theorem flatMap_lines {κ : Type*} {keys : List κ} {lines : κ → List Nat} {key : Nat → κ}
    {n : Nat} (hkeys : keys.Nodup) (hd : ∀ k ∈ keys, (lines k).Nodup)
    (hmem : ∀ k ∈ keys, ∀ x, x ∈ lines k ↔ x < n ∧ k = key x) :
    (keys.flatMap lines).Nodup ∧ ∀ x, x ∈ keys.flatMap lines ↔ x < n ∧ key x ∈ keys := by
  refine ⟨List.nodup_flatMap.mpr ⟨hd, hkeys.pairwise_of_forall_ne fun a ha b hb hab => ?_⟩,
    fun x => ?_⟩
  · intro x hxa hxb
    exact hab (((hmem a ha x).mp hxa).2.trans ((hmem b hb x).mp hxb).2.symm)
  · rw [List.mem_flatMap]
    constructor
    · rintro ⟨k, hk, hx⟩
      obtain ⟨hlt, rfl⟩ := (hmem k hk x).mp hx
      exact ⟨hlt, hk⟩
    · rintro ⟨hlt, hk⟩
      exact ⟨key x, hk, (hmem _ hk x).mpr ⟨hlt, rfl⟩⟩

theorem managed_linesOf {g : Geometry} {c : Cache} {owner : Nat → Part} (h : Managed g c owner)
    {p : Part} (hp : p.Exists) : (linesOf c p).Nodup ∧
      ∀ x, x ∈ linesOf c p ↔ x < g.collisionEntries ∧ owner x = p := by
  rcases policy_cases c with hpol | hpol
  · have hplaced := (managed_lru hpol).mp h
    have hlists := fun key hkey =>
      LruRuns.Placed.linesOn hplaced ((@LruRuns.mem_partLists p hp key).mp hkey).1
    simp only [linesOf, hpol]
    obtain ⟨hd, hmem⟩ := flatMap_lines (LruRuns.nodup_partLists p) (fun k hk => (hlists k hk).1)
      fun k hk => (hlists k hk).2.2
    refine ⟨hd, fun x => ?_⟩
    rw [hmem x, LruRuns.mem_partLists hp, lru_list_part]
    refine and_congr_right fun _ => ⟨fun hk => hk.2, fun howner => ⟨?_, howner⟩⟩
    exact LruPlacement.listed_getList (hplaced.part x) (LruPlacement.ocfLruGetListIndex_lt x) _
  · have hplaced := (managed_lfu hpol).mp h
    have hlists := fun key hkey =>
      LfuRuns.Placed.linesOn hplaced ((@LfuRuns.mem_partLists p hp key).mp hkey).1
    simp only [linesOf, hpol]
    obtain ⟨hd, hmem⟩ := flatMap_lines (LfuRuns.nodup_partLists p) (fun k hk => (hlists k hk).1)
      fun k hk => (hlists k hk).2.2
    refine ⟨hd, fun x => ?_⟩
    rw [hmem x, LfuRuns.mem_partLists hp, lfu_list_part]
    refine and_congr_right fun hx => ⟨fun hk => hk.2, fun howner => ⟨?_, howner⟩⟩
    exact LfuPlacement.listed_getList (hplaced.part x) (LfuPlacement.ocfLfuGetShardIndex_lt x)
      (hplaced.freq x hx).lt _

theorem managed_size_zero {g : Geometry} {c : Cache} {owner : Nat → Part} (h : Managed g c owner)
    {p : Part} (hp : p.Exists) (hnone : ∀ x < g.collisionEntries, owner x ≠ p) :
    c.currSize p = 0 := by
  have hcount : countBelow (fun x => decide (owner x = p)) g.collisionEntries = 0 :=
    countBelow_eq_zero.mpr fun x hx => decide_eq_false (hnone x hx)
  rcases policy_cases c with hpol | hpol
  · rw [((managed_lru hpol).mp h).size p hp, hcount]
    rfl
  · rw [((managed_lfu hpol).mp h).size p hp, hcount]
    rfl

/-- Use of the lines outside a range. -/
def elsewhere (g : Geometry) (first stop : Nat) : System State Op :=
  ⟨fun s op => Permitted g s op ∧ ∀ x, first ≤ x → x < stop → ¬Touches op x, step g⟩

/-- The range can be detached, and restored after any use of other lines. No
request gets a line of it in between. The lines come back to the free list,
each once, and to no other list; no line is left on the detached list unless
another one was there. -/
def RoundTrip (g : Geometry) (s : State) (first stop : Nat) : Prop :=
  ∃ c, ocfMetadataDetachClineRange g s.cache first stop = .ok c ∧
    ∀ t, Reachable (elsewhere g first stop) ⟨c, moveRange s.owner first stop .freeDetached⟩ t →
      (∀ req src n r, Permitted g t (.reqClines req src n) →
        ocfEvictionReqClines g t.cache req src n = some r →
        ∀ taken ∈ r.2.2, ¬(first ≤ taken.line ∧ taken.line < stop)) ∧
      ∃ c', ocfMetadataRestoreClineRange g t.cache first stop = .ok c' ∧
        (∀ x, first ≤ x → x < stop → (linesOf c' .free).count x = 1 ∧
          ∀ p : Part, p.Exists → p ≠ .free → x ∉ linesOf c' p) ∧
        ((∀ x ∈ linesOf t.cache .freeDetached, first ≤ x ∧ x < stop) →
          linesOf c' .freeDetached = [] ∧ c'.currSize .freeDetached = 0)

section RoundTrip

variable {g : Geometry} {s : State} {first stop : Nat}

theorem elsewhere_inv {start t : State} (h0 : Inv g start)
    (hd : ∀ x, first ≤ x → x < stop → start.owner x = .freeDetached)
    (h : Reachable (elsewhere g first stop) start t) :
    Inv g t ∧ t.cache.policy = start.cache.policy ∧
      ∀ x, first ≤ x → x < stop → t.owner x = .freeDetached := by
  have hrun := @RunIn.invariant _ _ (elsewhere g first stop) _
    (fun t => Inv g t ∧ t.cache.policy = start.cache.policy ∧
      ∀ x, first ≤ x → x < stop → t.owner x = .freeDetached) start t h (fun _ => ⟨h0, rfl, hd⟩)
  refine hrun fun s op s' hinv _ hp hs _ => ?_
  obtain ⟨hinv, hpol, hrange⟩ := hinv
  obtain ⟨hinv', hpol', hkeep⟩ := step_inv hinv hp.1 hs
  exact ⟨hinv', hpol'.trans hpol, fun x hx hx' => hkeep x (hrange x hx hx') (hp.2 x hx hx')⟩

theorem not_taken (h : Inv g s) (hd : ∀ x, first ≤ x → x < stop → s.owner x = .freeDetached)
    {req : Request} {src : Part} {n : Nat} {r : Result} (hp : Permitted g s (.reqClines req src n))
    (heq : ocfEvictionReqClines g s.cache req src n = some r) :
    ∀ taken ∈ r.2.2, ¬(first ≤ taken.line ∧ taken.line < stop) := by
  obtain ⟨-, -, hlines⟩ := h.reqClines hp.1 hp.2.1 hp.2.2 heq
  intro taken ht hin
  exact hlines taken ht (hd taken.line hin.1 hin.2)

theorem restored_lines {c : Cache} (hinv : Inv g ⟨c, moveRange s.owner first stop .free⟩)
    (hstop : stop ≤ g.collisionEntries) :
    ∀ x, first ≤ x → x < stop → (linesOf c .free).count x = 1 ∧
      ∀ p : Part, p.Exists → p ≠ .free → x ∉ linesOf c p := by
  intro x hx hx'
  have howner : moveRange s.owner first stop .free x = .free := moveRange_of_mem hx hx'
  have hlt : x < g.collisionEntries := Nat.lt_of_lt_of_le hx' hstop
  refine ⟨?_, fun p hp hne hin => ?_⟩
  · obtain ⟨hd, hmem⟩ := managed_linesOf hinv.managed (show Part.free.Exists from trivial)
    exact List.count_eq_one_of_mem hd ((hmem x).mpr ⟨hlt, howner⟩)
  · obtain ⟨-, hmem⟩ := managed_linesOf hinv.managed hp
    have hp' := ((hmem x).mp hin).2
    simp only [howner] at hp'
    exact hne hp'.symm

theorem restored_detached {c : Cache} (h : Inv g s)
    (hinv : Inv g ⟨c, moveRange s.owner first stop .free⟩)
    (honly : ∀ x ∈ linesOf s.cache .freeDetached, first ≤ x ∧ x < stop) :
    linesOf c .freeDetached = [] ∧ c.currSize .freeDetached = 0 := by
  have hexists : Part.freeDetached.Exists := trivial
  obtain ⟨-, hmem⟩ := managed_linesOf h.managed hexists
  obtain ⟨-, hmem'⟩ := managed_linesOf hinv.managed hexists
  have hnone : ∀ x < g.collisionEntries,
      moveRange s.owner first stop .free x ≠ .freeDetached := by
    intro x hx howner
    by_cases hin : first ≤ x ∧ x < stop
    · rw [moveRange_of_mem hin.1 hin.2] at howner
      cases howner
    · rw [moveRange_of_not_mem hin] at howner
      exact hin (honly x ((hmem x).mpr ⟨hx, howner⟩))
  refine ⟨List.eq_nil_iff_forall_not_mem.mpr fun x hx => ?_,
    managed_size_zero hinv.managed hexists hnone⟩
  obtain ⟨hlt, howner⟩ := (hmem' x).mp hx
  exact hnone x hlt howner

theorem not_roundTrip_lfu (h : Inv g s) (hp : s.cache.policy = .lfu) (hlt : first < stop)
    (hstop : stop ≤ g.collisionEntries) (hidle : Idle s first stop) :
    ¬RoundTrip g s first stop := by
  rintro ⟨c, hdet, hall⟩
  obtain ⟨c1, hdet1, -, hpol⟩ := h.detachRange (Nat.le_of_lt hlt) hstop hidle
  rw [hdet] at hdet1
  cases hdet1
  obtain ⟨-, c', hres, -⟩ := hall _ (.refl trivial)
  exact restoreRange_lfu (hpol.trans hp) hlt hres

end RoundTrip

/-- In every reachable state an idle range makes the round trip just when the
policy is LRU, or there is no line in the range. -/
theorem roundTrip_iff {g : Geometry} {start s : State} {first stop : Nat} (h0 : Start g start)
    (h : Reachable (linesSystem g) start s) (hle : first ≤ stop) (hstop : stop ≤ g.collisionEntries)
    (hidle : Idle s first stop) :
    RoundTrip g s first stop ↔ s.cache.policy = .lru ∨ first = stop := by
  have hinv := reachable_inv h0 h
  constructor
  · intro hround
    rcases policy_cases s.cache with hp | hp
    · exact .inl hp
    · refine .inr (Nat.le_antisymm hle (Nat.le_of_not_lt fun hlt => ?_))
      exact not_roundTrip_lfu hinv hp hlt hstop hidle hround
  · intro hcond
    obtain ⟨c, hdet, hinv1, hpol1⟩ := hinv.detachRange hle hstop hidle
    refine ⟨c, hdet, fun t ht => ?_⟩
    obtain ⟨hinv2, hpol2, hrange⟩ :=
      elsewhere_inv hinv1 (fun x hx hx' => moveRange_of_mem hx hx') ht
    refine ⟨fun req src n r hp heq => not_taken hinv2 hrange hp heq, ?_⟩
    obtain ⟨c', hres, hinv3⟩ : ∃ c', ocfMetadataRestoreClineRange g t.cache first stop = .ok c' ∧
        Inv g ⟨c', moveRange t.owner first stop .free⟩ := by
      rcases hcond with hlru | rfl
      · obtain ⟨c', hres, hinv3, -⟩ :=
          hinv2.restoreRange (hpol2.trans (hpol1.trans hlru)) hle hstop hrange
        exact ⟨c', hres, hinv3⟩
      · refine ⟨t.cache, overRange_empty hstop, ?_⟩
        rw [moveRange_self]
        exact hinv2
    exact ⟨c', hres, restored_lines hinv3 hstop, restored_detached hinv2 hinv3⟩

/-- Three lines with LRU lists, as the policy starts. -/
def lruStart : State := LruRuns.startThree (fun _ => ⟨0, 100, true, 0⟩) [1]

theorem start_lruStart : Start LruRuns.threeLines lruStart := by
  refine ⟨.inl (LruRuns.start_startThree (by decide +kernel)), ?_⟩
  decide +kernel

/-- A request gets a line, ends, and the line is detached with a free one. -/
theorem roundTrip_lru : ∃ s, Reachable (linesSystem LruRuns.threeLines) lruStart s ∧
    s.owner 0 = .user 1 ∧ s.owner 1 = .free ∧ RoundTrip LruRuns.threeLines s 0 2 := by
  obtain ⟨s1, hs1⟩ : ∃ s1, step LruRuns.threeLines lruStart
      (.reqClines LfuRuns.missOfOne .free 1) = some s1 :=
    Option.isSome_iff_exists.mp (by decide +kernel)
  have hvals : (step LruRuns.threeLines lruStart (.reqClines LfuRuns.missOfOne .free 1)).map
      (fun s => (s.owner 0, s.owner 1, s.cache.waiters 0, s.cache.waiters 1, s.cache.policy)) =
      some (.user 1, .free, false, false, .lru) := by decide +kernel
  rw [hs1, Option.map_some, Option.some.injEq, Prod.mk.injEq, Prod.mk.injEq, Prod.mk.injEq,
    Prod.mk.injEq] at hvals
  obtain ⟨h0, h1, hw0, hw1, hpol⟩ := hvals
  have hreach : Reachable (linesSystem LruRuns.threeLines) lruStart s1 :=
    Reachable.next (.refl trivial) (.reqClines LfuRuns.missOfOne .free 1)
      ⟨by decide, by decide, trivial⟩ hs1
  -- the request completes and gives up the lock of the line
  let s : State := ⟨{ s1.cache with lineLocked := fun _ => false }, s1.owner⟩
  have hreach' : Reachable (linesSystem LruRuns.threeLines) lruStart s :=
    hreach.next (.other s.cache) ⟨rfl, rfl, rfl, rfl, rfl, rfl, fun _ _ => ⟨rfl, rfl⟩,
      fun _ _ _ => rfl⟩ rfl
  refine ⟨s, hreach', h0, h1, (roundTrip_iff start_lruStart hreach' (by decide) (by decide)
    fun x _ hx => ?_).mpr (.inl hpol)⟩
  have hcases : x = 0 ∨ x = 1 := by omega
  rcases hcases with rfl | rfl
  · exact ⟨rfl, hw0, fun hd => nomatch h0.symm.trans hd⟩
  · exact ⟨rfl, hw1, fun hd => nomatch h1.symm.trans hd⟩

/-- A free line under LFU: it can be detached and does not come back. -/
theorem detached_lfu_not_restored : ∃ s : State, Start LruRuns.threeLines s ∧
    s.cache.policy = .lfu ∧ Idle s 0 1 ∧ ¬RoundTrip LruRuns.threeLines s 0 1 := by
  have hstart : Start LruRuns.threeLines LfuRuns.startThree :=
    ⟨.inr LfuRuns.start_startThree, by decide +kernel⟩
  have hpol : LfuRuns.startThree.cache.policy = .lfu := by decide +kernel
  have hidle : Idle LfuRuns.startThree 0 1 := by
    intro x _ hx
    obtain rfl : x = 0 := by omega
    refine ⟨by decide +kernel, by decide +kernel, by decide +kernel⟩
  exact ⟨LfuRuns.startThree, hstart, hpol, hidle,
    not_roundTrip_lfu hstart.inv hpol (by decide) (by decide) hidle⟩

end OcfCache.DetachRuns
