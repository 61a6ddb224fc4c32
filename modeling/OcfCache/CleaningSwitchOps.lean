import OcfCache.CleaningTracks

/-!
# Cache operations during a switch

Mapping, writing, cleaning, invalidating and moving lines keep the metadata
sound in every state of the cleaner. If the cleaner is not frozen, the lines
that are tracked, or that a scan has still to come to, keep up with the dirty
ones.
-/

namespace OcfCache.CleaningSwitch

open Function Metadata Loops CacheLine
open Alru (Cared Wanted Mapped)

/-- The policy tracks dirty lines only, and every dirty line that is not pending. -/
def Covers (cfg : Acp.Config) (c : Cache) (pend : Nat → Prop) : Prop :=
  ∃ T, PolicyTracks cfg c T ∧ (∀ x, T x → Wanted cfg.geometry c.md x) ∧
    ∀ x, Wanted cfg.geometry c.md x → T x ∨ pend x

/-- What an operation of the cache does to the state of a switch. -/
structure OpSpec (cfg : Acp.Config) (w w' : World) : Prop where
  /-- The switch goes on as before. -/
  pipeline : w'.pipeline = w.pipeline
  /-- The last switch is the same. -/
  result : w'.result = w.result
  /-- The cleaner is left alone up to its callbacks. -/
  kept : Kept w.cache w'.cache
  /-- The metadata stays sound. -/
  md : MdOk cfg w'.cache
  /-- Buckets that the scan has locked do not change. -/
  hash : ∀ hash, ¬Unlocked w hash → w'.cache.md.hash hash = w.cache.md.hash hash
  /-- Dirty lines stay tracked or pending. -/
  covers : w.cache.freeze = 0 → ∀ pend pend' : Nat → Prop, Covers cfg w.cache pend →
    (∀ y, w'.cache.md.coreInfo y = w.cache.md.coreInfo y → pend y → pend' y) → Covers cfg w'.cache pend'

section Metadata

variable {cfg : Acp.Config} {c c' : Cache} {x : Nat}

theorem MdOk.congr (h : MdOk cfg c) (hinfo : c'.md.coreInfo = c.md.coreInfo) (hhash : c'.md.hash = c.md.hash)
    (hpart : ∀ x, Cared cfg.geometry c.md x → c'.md.partitionId x < ocfUserIoClassMax)
    (hadded : c'.added = c.added) (hlength : c'.length = c.length) : MdOk cfg c' := by
  have hcare : ∀ x, Cared cfg.geometry c'.md x ↔ Cared cfg.geometry c.md x := by
    intro x
    rw [Cared, Mapped, hinfo, Cared, Mapped]
  have hbucket : ∀ x, bucketOf cfg.geometry c'.md x = bucketOf cfg.geometry c.md x := by
    intro x
    rw [bucketOf, hinfo, bucketOf]
  refine ⟨h.hash_pos, fun x hx hm => hpart x ((hcare x).mp ⟨hx, hm⟩), ⟨?_, ?_⟩, fun x hx => ?_, fun hash hlt x hx => ?_,
    fun hash hlt => ?_⟩
  · change ∀ a b, _ → _ → (c'.md.coreInfo a).1 < _ → c'.md.coreInfo a = c'.md.coreInfo b → _
    rw [hinfo]
    exact h.attached.unique
  · change ∀ a, _ → (c'.md.coreInfo a).1 ≠ _ → (c'.md.coreInfo a).1 < _ ∧ c'.added (c'.md.coreInfo a).1 = _ ∧
      (c'.md.coreInfo a).2 * _ < c'.length (c'.md.coreInfo a).1
    rw [hinfo, hadded, hlength]
    exact h.attached.inCore
  · rw [hbucket, hhash]
    exact h.inBucket x ((hcare x).mp hx)
  · rw [hhash] at hx
    rw [hcare, hbucket]
    exact h.cared hash hlt x hx
  · rw [hhash]
    exact h.nodup hash hlt

theorem MdOk.remove (h : MdOk cfg c) {md : LineTable}
    (hinfo : md.coreInfo = update c.md.coreInfo x (ocfCoreNum, ullongMax))
    (hhash : md.hash = update c.md.hash (bucketOf cfg.geometry c.md x)
      ((c.md.hash (bucketOf cfg.geometry c.md x)).erase x))
    (hpart : md.partitionId = c.md.partitionId) : MdOk cfg { c with md } := by
  have hself : md.coreInfo x = (ocfCoreNum, ullongMax) := by rw [hinfo, update_self]
  have hother : ∀ y, y ≠ x → md.coreInfo y = c.md.coreInfo y := by
    intro y hy
    rw [hinfo, update_of_ne hy]
  have hne : ∀ y, (md.coreInfo y).1 ≠ ocfCoreNum → y ≠ x := by
    intro y hy heq
    rw [heq, hself] at hy
    exact hy rfl
  have hbucket : ∀ y, y ≠ x → bucketOf cfg.geometry md y = bucketOf cfg.geometry c.md y := by
    intro y hy
    rw [bucketOf, hother y hy, bucketOf]
  have hlt : bucketOf cfg.geometry c.md x < cfg.geometry.hashEntries := h.bucket_lt _ _
  have hmem : ∀ hash < cfg.geometry.hashEntries, ∀ y, y ∈ md.hash hash ↔ y ∈ c.md.hash hash ∧ y ≠ x := by
    intro hash hlt' y
    rw [hhash]
    by_cases heq : hash = bucketOf cfg.geometry c.md x
    · rw [heq, update_self, (h.nodup _ hlt).mem_erase_iff, and_comm]
    · rw [update_of_ne heq]
      refine ⟨fun hy => ⟨hy, fun hyx => heq ?_⟩, fun hy => hy.1⟩
      rw [hyx] at hy
      exact (h.cared hash hlt' x hy).2.symm
  refine ⟨h.hash_pos, fun y hy hm => ?_, ⟨fun a b ha hb hlta heq => ?_, fun a ha hm => ?_⟩, fun y hy => ?_,
    fun hash hlt' y hy => ?_, fun hash hlt' => ?_⟩
  · change md.partitionId y < _
    rw [hpart]
    have hm' := hm
    rw [Mapped, hother y (hne y hm)] at hm'
    exact h.inPartitions y hy hm'
  · change (md.coreInfo a).1 < _ at hlta
    change md.coreInfo a = md.coreInfo b at heq
    have hax := hne a (Nat.ne_of_lt hlta)
    have hbx := hne b (by rw [← heq]; exact Nat.ne_of_lt hlta)
    rw [hother a hax] at hlta heq
    rw [hother b hbx] at heq
    exact h.attached.unique a b ha hb hlta heq
  · have hax := hne a hm
    change (md.coreInfo a).1 < _ ∧ c.added (md.coreInfo a).1 = _ ∧
      (md.coreInfo a).2 * _ < c.length (md.coreInfo a).1
    change (md.coreInfo a).1 ≠ _ at hm
    rw [hother a hax] at hm ⊢
    exact h.attached.inCore a ha hm
  · have hyx := hne y hy.2
    have hm := hy.2
    rw [Mapped, hother y hyx] at hm
    change y ∈ md.hash (bucketOf cfg.geometry md y)
    rw [hbucket y hyx]
    exact (hmem (bucketOf cfg.geometry c.md y) (h.bucket_lt _ _) y).mpr ⟨h.inBucket y ⟨hy.1, hm⟩, hyx⟩
  · obtain ⟨hin, hyx⟩ := (hmem hash hlt' y).mp hy
    obtain ⟨hcy, hby⟩ := h.cared hash hlt' y hin
    refine ⟨⟨hcy.1, ?_⟩, (hbucket y hyx).trans hby⟩
    change (md.coreInfo y).1 ≠ _
    rw [hother y hyx]
    exact hcy.2
  · change (md.hash hash).Nodup
    rw [hhash]
    by_cases heq : hash = bucketOf cfg.geometry c.md x
    · rw [heq, update_self]
      exact (h.nodup _ hlt).erase x
    · rw [update_of_ne heq]
      exact h.nodup hash hlt'

/-- An unmapped line is put into a bucket. -/
theorem MdOk.add (h : MdOk cfg c) {core coreLine p : Nat} (hlt : x < cfg.geometry.collisionEntries)
    (hfree : (c.md.coreInfo x).1 = ocfCoreNum) (hcore : core < ocfCoreNum) (hadded : c.added core = true)
    (hline : coreLine * cfg.lineSize < c.length core) (hp : p < ocfUserIoClassMax)
    (hnew : ∀ y < cfg.geometry.collisionEntries, c.md.coreInfo y ≠ (core, coreLine)) {md : LineTable}
    (hinfo : md.coreInfo = update c.md.coreInfo x (core, coreLine))
    (hhash : md.hash = update c.md.hash (ocfMetadataHashFunc cfg.geometry coreLine core)
      (x :: c.md.hash (ocfMetadataHashFunc cfg.geometry coreLine core)))
    (hpart : md.partitionId = update c.md.partitionId x p) : MdOk cfg { c with md } := by
  have hself : md.coreInfo x = (core, coreLine) := by rw [hinfo, update_self]
  have hother : ∀ y, y ≠ x → md.coreInfo y = c.md.coreInfo y := by
    intro y hy
    rw [hinfo, update_of_ne hy]
  have hbx : bucketOf cfg.geometry md x = ocfMetadataHashFunc cfg.geometry coreLine core := by
    rw [bucketOf, hself]
  have hbucket : ∀ y, y ≠ x → bucketOf cfg.geometry md y = bucketOf cfg.geometry c.md y := by
    intro y hy
    rw [bucketOf, hother y hy, bucketOf]
  have hbl : ocfMetadataHashFunc cfg.geometry coreLine core < cfg.geometry.hashEntries := h.bucket_lt _ _
  have hmem : ∀ hash y, y ∈ md.hash hash ↔
      y ∈ c.md.hash hash ∨ y = x ∧ hash = ocfMetadataHashFunc cfg.geometry coreLine core := by
    intro hash y
    rw [hhash]
    by_cases heq : hash = ocfMetadataHashFunc cfg.geometry coreLine core
    · rw [heq, update_self, List.mem_cons]
      simp [or_comm]
    · rw [update_of_ne heq]
      simp [heq]
  have hout : ∀ hash < cfg.geometry.hashEntries, x ∉ c.md.hash hash := by
    intro hash hlt' hin
    exact (h.cared hash hlt' x hin).1.2 hfree
  refine ⟨h.hash_pos, fun y hy hm => ?_, ⟨fun a b ha hb hlta heq => ?_, fun a ha hm => ?_⟩, fun y hy => ?_,
    fun hash hlt' y hy => ?_, fun hash hlt' => ?_⟩
  · change md.partitionId y < _
    rw [hpart]
    by_cases hyx : y = x
    · rw [hyx, update_self]
      exact hp
    · rw [update_of_ne hyx]
      have hm' := hm
      rw [Mapped, hother y hyx] at hm'
      exact h.inPartitions y hy hm'
  · change (md.coreInfo a).1 < _ at hlta
    change md.coreInfo a = md.coreInfo b at heq
    by_cases hax : a = x
    · by_cases hbx' : b = x
      · exact hax.trans hbx'.symm
      · rw [hax, hself, hother b hbx'] at heq
        exact absurd heq.symm (hnew b hb)
    · rw [hother a hax] at hlta heq
      by_cases hbx' : b = x
      · rw [hbx', hself] at heq
        exact absurd heq (hnew a ha)
      · rw [hother b hbx'] at heq
        exact h.attached.unique a b ha hb hlta heq
  · change (md.coreInfo a).1 < _ ∧ c.added (md.coreInfo a).1 = _ ∧
      (md.coreInfo a).2 * _ < c.length (md.coreInfo a).1
    change (md.coreInfo a).1 ≠ _ at hm
    by_cases hax : a = x
    · rw [hax, hself]
      exact ⟨hcore, hadded, hline⟩
    · rw [hother a hax] at hm ⊢
      exact h.attached.inCore a ha hm
  · change y ∈ md.hash (bucketOf cfg.geometry md y)
    rw [hmem]
    by_cases hyx : y = x
    · exact .inr ⟨hyx, by rw [hyx, hbx]⟩
    · have hm := hy.2
      rw [Mapped, hother y hyx] at hm
      rw [hbucket y hyx]
      exact .inl (h.inBucket y ⟨hy.1, hm⟩)
  · rcases (hmem hash y).mp hy with hin | ⟨hyx, heq⟩
    · have hyx : y ≠ x := fun heq => hout hash hlt' (heq ▸ hin)
      obtain ⟨hcy, hby⟩ := h.cared hash hlt' y hin
      refine ⟨⟨hcy.1, ?_⟩, (hbucket y hyx).trans hby⟩
      change (md.coreInfo y).1 ≠ _
      rw [hother y hyx]
      exact hcy.2
    · rw [hyx, heq]
      refine ⟨⟨hlt, ?_⟩, hbx⟩
      change (md.coreInfo x).1 ≠ _
      rw [hself]
      exact Nat.ne_of_lt hcore
  · change (md.hash hash).Nodup
    rw [hhash]
    by_cases heq : hash = ocfMetadataHashFunc cfg.geometry coreLine core
    · rw [heq, update_self]
      exact List.nodup_cons.mpr ⟨hout _ hbl, h.nodup _ hbl⟩
    · rw [update_of_ne heq]
      exact h.nodup hash hlt'

end Metadata

section Operations

variable {cfg : Acp.Config} {w w' : World} {x : Nat}

/-- A change of the dirty bits of a line is sound. -/
theorem MdOk.setDirtyBits {c : Cache} (h : MdOk cfg c) (b : Bits) :
    MdOk cfg { c with md := CacheLine.setDirtyBits c.md x b } :=
  h.congr rfl rfl (fun y hy => h.inPartitions y hy.1 hy.2) rfl rfl

/-- `set_cache_line_dirty`. -/
theorem setDirty_spec (hok : MdOk cfg w.cache) {start stop : Nat} (hg : guard cfg w (.setDirty start stop x))
    (hs : step cfg w (.setDirty start stop x) = some w') : OpSpec cfg w w' := by
  obtain ⟨⟨hlt, hmap, -⟩, hle, hend⟩ := hg
  have hc : Cared cfg.geometry w.cache.md x := ⟨hlt, hmap⟩
  obtain ⟨c', hc', rfl⟩ := Option.map_eq_some_iff.mp hs
  obtain ⟨hkept, hmd⟩ := setHot_kept hc'
  have hpre := hok.setDirtyBits (x := x) (setRange (w.cache.md.dirty x) start stop)
  refine ⟨rfl, rfl, (Kept.refl w.cache _).trans hkept, ?_, fun _ _ => by rw [hmd]; rfl, ?_⟩
  · exact hpre.congr (by rw [hmd]) (by rw [hmd])
      (fun y hy => by rw [hmd]; exact hok.inPartitions y hy.1 hy.2) hkept.added hkept.length
  · rintro hf pend pend' ⟨T, hT, hsub, hcov⟩ hpend
    have hinfo : c'.md.coreInfo = w.cache.md.coreInfo := by
      rw [hmd]
      rfl
    have hmark : PolicyTracks cfg { w.cache with
        md := CacheLine.setDirtyBits w.cache.md x (setRange (w.cache.md.dirty x) start stop) } T :=
      hT.withMd hpre.attached (fun _ _ => ⟨rfl, rfl⟩) fun _ hy => hy
    obtain ⟨c'', hc'', htr⟩ := hmark.setHot hpre hf hc
    cases hc''.symm.trans hc'
    have hdirty := Alru.dirty_of_setRange (g := cfg.geometry) w.cache.md x hle hend
    have hwant : ∀ y, Wanted cfg.geometry c'.md y ↔ if y = x then True else Wanted cfg.geometry w.cache.md y := by
      intro y
      rw [hmd, Alru.wanted_setDirtyBits hc]
      simp only [hdirty]
    refine ⟨_, htr, fun y hy => (hwant y).mpr ?_, fun y hy => ?_⟩
    · split
      · trivial
      next hyx => exact hsub y (hy.resolve_right hyx)
    · by_cases hyx : y = x
      · exact .inl (.inr hyx)
      · have hw := (hwant y).mp hy
        rw [if_neg hyx] at hw
        rcases hcov y hw with ht | hp
        · exact .inl (.inl ht)
        · exact .inr (hpend y (congrFun hinfo y) hp)

/-- `set_cache_line_clean`. -/
theorem setClean_spec (hok : MdOk cfg w.cache) {start stop : Nat} (hg : guard cfg w (.setClean start stop x))
    (hs : step cfg w (.setClean start stop x) = some w') : OpSpec cfg w w' := by
  have hc : Cared cfg.geometry w.cache.md x := ⟨hg.1, hg.2.1⟩
  obtain ⟨c', hc', rfl⟩ := Option.map_eq_some_iff.mp hs
  obtain ⟨md, hmddef⟩ : ∃ md, CacheLine.setDirtyBits w.cache.md x
    (clearRange (w.cache.md.dirty x) start stop) = md := ⟨_, rfl⟩
  have hpre : MdOk cfg { w.cache with md } := hmddef ▸ hok.setDirtyBits _
  have hsame : md.coreInfo = w.cache.md.coreInfo ∧ md.partitionId = w.cache.md.partitionId ∧
      md.hash = w.cache.md.hash := hmddef ▸ ⟨rfl, rfl, rfl⟩
  have hcareMd : ∀ y, Cared cfg.geometry md y → Cared cfg.geometry w.cache.md y := by
    intro y hy
    rw [Cared, Mapped, hsame.1] at hy
    exact hy
  rw [setCacheLineClean, hmddef] at hc'
  obtain ⟨hkept, hmd⟩ : Kept { w.cache with md } c' ∧ c'.md = md := by
    split at hc'
    · exact purge_kept hc'
    · cases hc'
      exact ⟨.refl _ _, rfl⟩
  have hwant : ∀ y, Wanted cfg.geometry c'.md y ↔
      if y = x then metadataTestDirty cfg.geometry md x = true else Wanted cfg.geometry w.cache.md y := by
    intro y
    rw [hmd, ← hmddef]
    exact Alru.wanted_setDirtyBits hc y
  refine ⟨rfl, rfl, (Kept.refl w.cache md).trans hkept, ?_, fun _ _ => by rw [hmd, hsame.2.2], ?_⟩
  · exact hpre.congr (by rw [hmd]) (by rw [hmd]) (fun y hy => by rw [hmd]; exact hpre.inPartitions y hy.1 hy.2)
      hkept.added hkept.length
  · rintro hf pend pend' ⟨T, hT, hsub, hcov⟩ hpend
    have hinfo : c'.md.coreInfo = w.cache.md.coreInfo := by rw [hmd, hsame.1]
    have htrmd : PolicyTracks cfg { w.cache with md } T := hT.withMd hpre.attached
      (fun y _ => ⟨congrFun hsame.1 y, congrFun hsame.2.1 y⟩) hcareMd
    split at hc'
    next hpurge =>
      obtain ⟨c'', hc'', htr⟩ := htrmd.purge hpre hf (x := x) ⟨hc.1, by rw [Mapped, hsame.1]; exact hc.2⟩
      cases hc''.symm.trans hc'
      refine ⟨_, htr, fun y hy => (hwant y).mpr ?_, fun y hy => ?_⟩
      · rw [if_neg hy.2]
        exact hsub y hy.1
      · have hw := (hwant y).mp hy
        split at hw
        · rw [hpurge.2] at hw
          exact absurd hw Bool.false_ne_true
        next hyx =>
          rcases hcov y hw with ht | hp
          · exact .inl ⟨ht, hyx⟩
          · exact .inr (hpend y (congrFun hinfo y) hp)
    next hpurge =>
      cases hc'
      have hsameW : ∀ y, Wanted cfg.geometry md y ↔ Wanted cfg.geometry w.cache.md y := by
        intro y
        rw [hwant y]
        split
        next hyx =>
          subst hyx
          constructor
          · intro hd
            exact ⟨hc.1, hc.2, Alru.dirty_of_clearRange (by rw [hmddef]; exact hd)⟩
          · intro hw
            by_contra hd
            rw [Bool.not_eq_true] at hd
            exact hpurge ⟨Alru.dirtySec_of_clearRange hw.2.2 (by rw [hmddef]; exact hd), hd⟩
        · exact Iff.rfl
      refine ⟨T, htrmd, fun y hy => (hsameW y).mpr (hsub y hy), fun y hy => ?_⟩
      exact (hcov y ((hsameW y).mp hy)).imp_right (hpend y (congrFun hinfo y))

/-- A line that is not dirty changes its mapping. -/
theorem covers_of_other {c c' : Cache} {pend pend' : Nat → Prop} (hx : ¬Wanted cfg.geometry c.md x)
    (hx' : ¬Wanted cfg.geometry c'.md x)
    (hother : ∀ y, y ≠ x → c'.md.coreInfo y = c.md.coreInfo y ∧ c'.md.dirty y = c.md.dirty y)
    (hpend : ∀ y, c'.md.coreInfo y = c.md.coreInfo y → pend y → pend' y)
    (htr : ∀ T, PolicyTracks cfg c T → ¬T x → (∀ y, T y → Wanted cfg.geometry c.md y) → PolicyTracks cfg c' T)
    (h : Covers cfg c pend) : Covers cfg c' pend' := by
  obtain ⟨T, hT, hsub, hcov⟩ := h
  have hwant : ∀ y, y ≠ x → (Wanted cfg.geometry c'.md y ↔ Wanted cfg.geometry c.md y) := by
    intro y hy
    exact Alru.wanted_congr (hother y hy).1 (Alru.metadataTestDirty_congr (hother y hy).2)
  refine ⟨T, htr T hT (fun hc => hx (hsub x hc)) hsub, fun y hy => ?_, fun y hy => ?_⟩
  · have hyx : y ≠ x := fun heq => hx (heq ▸ hsub y hy)
    exact (hwant y hyx).mpr (hsub y hy)
  · have hyx : y ≠ x := fun heq => hx' (heq ▸ hy)
    exact (hcov y ((hwant y hyx).mp hy)).imp_right (hpend y (hother y hyx).1)

/-- `set_cache_line_invalid`. -/
theorem setInvalid_spec (hok : MdOk cfg w.cache) {waiters : Nat → Bool} {start stop : Nat}
    (hg : guard cfg w (.setInvalid waiters start stop x))
    (hs : step cfg w (.setInvalid waiters start stop x) = some w') : OpSpec cfg w w' := by
  obtain ⟨⟨hlt, hmap, hlock⟩, hd⟩ := hg
  have hc : Cared cfg.geometry w.cache.md x := ⟨hlt, hmap⟩
  cases hs
  rw [CacheLine.setCacheLineInvalid]
  by_cases hkeep : (metadataTestValidAny cfg.geometry
      (setValidBits w.cache.md x (clearRange (w.cache.md.valid x) start stop)) x || waiters x) = true
  · rw [if_pos hkeep]
    have hmd : MdOk cfg { w.cache with
        md := setValidBits w.cache.md x (clearRange (w.cache.md.valid x) start stop) } :=
      hok.congr rfl rfl (fun y hy => hok.inPartitions y hy.1 hy.2) rfl rfl
    refine ⟨rfl, rfl, .refl _ _, hmd, fun _ _ => rfl, ?_⟩
    · rintro hf pend pend' ⟨T, hT, hsub, hcov⟩ hpend
      refine ⟨T, hT.withMd hmd.attached (fun _ _ => ⟨rfl, rfl⟩) (fun _ hy => hy), hsub, fun y hy => ?_⟩
      exact (hcov y hy).imp_right (hpend y rfl)
  · rw [if_neg hkeep]
    rw [Bool.or_eq_true, not_or, Bool.not_eq_true, Bool.not_eq_true] at hkeep
    have hclean := Alru.not_dirty_of_invalid hd hkeep.1
    have hmd : MdOk cfg { w.cache with
        md := ocfMetadataRemoveFromCollision cfg.geometry
          (setValidBits w.cache.md x (clearRange (w.cache.md.valid x) start stop)) x } :=
      hok.remove rfl rfl rfl
    refine ⟨rfl, rfl, .refl _ _, hmd, fun hash hh => ?_, fun hf pend pend' h hpend => ?_⟩
    · change update w.cache.md.hash (bucketOf cfg.geometry w.cache.md x) _ hash = _
      rw [update_of_ne]
      exact fun heq => hh (heq ▸ hlock)
    · refine covers_of_other (x := x) (fun hw => hclean hw.2.2) (fun hw => ?_) (fun y hy => ⟨?_, rfl⟩) hpend
        (fun T hT hx hsub => ?_) h
      · refine hw.2.1 ?_
        change (update w.cache.md.coreInfo x (ocfCoreNum, ullongMax) x).1 = _
        rw [update_self]
      · change update w.cache.md.coreInfo x (ocfCoreNum, ullongMax) y = _
        rw [update_of_ne hy]
      · refine hT.withMd hmd.attached (fun y hy => ⟨?_, rfl⟩) fun y hy => ⟨hy.1, fun heq => hy.2 ?_⟩
        · have hyx : y ≠ x := fun heq => hx (heq ▸ hy)
          change update w.cache.md.coreInfo x (ocfCoreNum, ullongMax) y = _
          rw [update_of_ne hyx]
        · change (update w.cache.md.coreInfo x (ocfCoreNum, ullongMax) y).1 = _
          by_cases hyx : y = x
          · rw [hyx, update_self]
          · rw [update_of_ne hyx]
            exact heq

/-- `ocf_map_cache_line`. -/
theorem map_spec (hok : MdOk cfg w.cache) {core coreLine p : Nat} (hg : guard cfg w (.map core coreLine x p))
    (hs : step cfg w (.map core coreLine x p) = some w') : OpSpec cfg w w' := by
  obtain ⟨hlt, hfree, hclean, hcore, hadded, hline, hp, hnew, hlock⟩ := hg
  cases hs
  obtain ⟨md, hmddef⟩ : ∃ md, ({ ocfMetadataAddToCollision w.cache.md core coreLine
      (ocfMetadataHashFunc cfg.geometry coreLine core) x with
      partitionId := update w.cache.md.partitionId x p } : LineTable) = md := ⟨_, rfl⟩
  have hinfo : md.coreInfo = update w.cache.md.coreInfo x (core, coreLine) := hmddef ▸ rfl
  have hhash : md.hash = update w.cache.md.hash (ocfMetadataHashFunc cfg.geometry coreLine core)
      (x :: w.cache.md.hash (ocfMetadataHashFunc cfg.geometry coreLine core)) := hmddef ▸ rfl
  have hpart : md.partitionId = update w.cache.md.partitionId x p := hmddef ▸ rfl
  have hdirty : md.dirty = w.cache.md.dirty := hmddef ▸ rfl
  have hpre : MdOk cfg { w.cache with md } :=
    hok.add hlt hfree hcore hadded hline hp hnew hinfo hhash hpart
  change OpSpec cfg w { w with cache := ocfCleaningInitCacheBlock cfg { w.cache with
    md := { ocfMetadataAddToCollision w.cache.md core coreLine
      (ocfMetadataHashFunc cfg.geometry coreLine core) x with
      partitionId := update w.cache.md.partitionId x p } } x }
  rw [hmddef]
  obtain ⟨hkept, hmd⟩ := initCacheBlock_kept cfg { w.cache with md } x
  have hother : ∀ y, y ≠ x → md.coreInfo y = w.cache.md.coreInfo y ∧ md.partitionId y = w.cache.md.partitionId y := by
    intro y hy
    rw [hinfo, hpart, update_of_ne hy, update_of_ne hy]
    exact ⟨rfl, rfl⟩
  refine ⟨rfl, rfl, (Kept.refl w.cache md).trans hkept, ?_, fun hash hh => ?_, fun hf pend pend' h hpend => ?_⟩
  · exact hpre.congr (by rw [hmd]) (by rw [hmd]) (fun y hy => by rw [hmd]; exact hpre.inPartitions y hy.1 hy.2)
      hkept.added hkept.length
  · change (ocfCleaningInitCacheBlock cfg { w.cache with md } x).md.hash hash = _
    rw [hmd, hhash, update_of_ne]
    exact fun heq => hh (heq ▸ hlock)
  · refine covers_of_other (x := x) (fun hw => hw.2.1 hfree) (fun hw => ?_) (fun y hy => ⟨?_, ?_⟩) hpend
      (fun T hT hx hsub => ?_) h
    · have hd : metadataTestDirty cfg.geometry w.cache.md x = true := by
        rw [← hw.2.2]
        exact (Alru.metadataTestDirty_congr (by rw [hmd, hdirty])).symm
      rw [hclean] at hd
      exact Bool.false_ne_true hd
    · rw [hmd]
      exact (hother y hy).1
    · rw [hmd, hdirty]
    · exact hT.map hf hpre.attached hlt hx hother

/-- `ocf_user_part_move`. -/
theorem move_spec (hok : MdOk cfg w.cache) {new : Nat} (hg : guard cfg w (.move x new))
    (hs : step cfg w (.move x new) = some w') : OpSpec cfg w w' := by
  obtain ⟨⟨hlt, hmap, -⟩, hnew⟩ := hg
  have hc : Cared cfg.geometry w.cache.md x := ⟨hlt, hmap⟩
  obtain ⟨c', hc', rfl⟩ := Option.map_eq_some_iff.mp hs
  rw [ocfUserPartMove] at hc'
  split at hc'
  · cases hc'
    refine ⟨rfl, rfl, .refl _ _, hok, fun _ _ => rfl, ?_⟩
    rintro hf pend pend' ⟨T, hT, hsub, hcov⟩ hpend
    exact ⟨T, hT, hsub, fun y hy => (hcov y hy).imp_right (hpend y rfl)⟩
  obtain ⟨c1, hc1, hc2⟩ := Option.bind_eq_some_iff.mp hc'
  obtain ⟨hkept1, hmd1⟩ : Kept w.cache c1 ∧ c1.md = w.cache.md := by
    split at hc1
    · exact purge_kept hc1
    · cases hc1
      exact ⟨.refl w.cache w.cache.md, rfl⟩
  rw [hmd1] at hc2
  obtain ⟨md, hmddef⟩ : ∃ md, { w.cache.md with
    partitionId := update w.cache.md.partitionId x new } = md := ⟨_, rfl⟩
  have hsame : md.coreInfo = w.cache.md.coreInfo ∧ md.hash = w.cache.md.hash ∧ md.dirty = w.cache.md.dirty :=
    hmddef ▸ ⟨rfl, rfl, rfl⟩
  have hself : md.partitionId x = new := by
    rw [← hmddef]
    exact update_self ..
  have hother : ∀ y, y ≠ x → md.partitionId y = w.cache.md.partitionId y := by
    intro y hy
    rw [← hmddef]
    exact update_of_ne hy ..
  dsimp only at hc2
  rw [hmddef] at hc2
  obtain ⟨hkept2, hmd2⟩ : Kept { c1 with md } c' ∧ c'.md = md := by
    split at hc2
    · exact setHot_kept hc2
    · cases hc2
      exact ⟨.refl _ _, rfl⟩
  have hin : ∀ y, Cared cfg.geometry w.cache.md y → md.partitionId y < ocfUserIoClassMax := by
    intro y hy
    by_cases hyx : y = x
    · rw [hyx, hself]
      exact hnew
    · rw [hother y hyx]
      exact hok.inPartitions y hy.1 hy.2
  have hok1 : MdOk cfg c1 := hok.congr (by rw [hmd1]) (by rw [hmd1])
    (fun y hy => by rw [hmd1]; exact hok.inPartitions y hy.1 hy.2) hkept1.added hkept1.length
  have hok2 : MdOk cfg { c1 with md } := hok.congr hsame.1 hsame.2.1 hin hkept1.added hkept1.length
  have hwant : ∀ y, Wanted cfg.geometry md y ↔ Wanted cfg.geometry w.cache.md y := fun y =>
    Alru.wanted_congr (congrFun hsame.1 y) (Alru.metadataTestDirty_congr (congrFun hsame.2.2 y))
  have hcare : ∀ y, Cared cfg.geometry md y ↔ Cared cfg.geometry w.cache.md y := by
    intro y
    rw [Cared, Mapped, hsame.1, Cared, Mapped]
  refine ⟨rfl, rfl, hkept1.trans ((Kept.refl c1 md).trans hkept2), ?_, fun _ _ => ?_, ?_⟩
  · exact hok2.congr (by rw [hmd2]) (by rw [hmd2])
      (fun y hy => by rw [hmd2]; exact hok2.inPartitions y hy.1 hy.2) hkept2.added hkept2.length
  · change c'.md.hash _ = _
    rw [hmd2, hsame.2.1]
  · rintro hf pend pend' ⟨T, hT, hsub, hcov⟩ hpend
    have hinfo : c'.md.coreInfo = w.cache.md.coreInfo := by rw [hmd2, hsame.1]
    have hdirty : metadataTestDirty cfg.geometry md x = metadataTestDirty cfg.geometry w.cache.md x :=
      Alru.metadataTestDirty_congr (congrFun hsame.2.2 x)
    by_cases hd : metadataTestDirty cfg.geometry w.cache.md x = true
    · rw [if_pos hd] at hc1
      rw [if_pos (hdirty.trans hd)] at hc2
      obtain ⟨c1', hc1', htr1⟩ := hT.purge hok hf hc
      cases hc1'.symm.trans hc1
      have hpre : PolicyTracks cfg { c1 with md } fun y => T y ∧ y ≠ x := by
        refine htr1.withMd hok2.attached (fun y hy => ⟨?_, ?_⟩) fun y hy => ?_
        · rw [hsame.1, hmd1]
        · rw [hother y hy.2, hmd1]
        · rw [hmd1]
          exact (hcare y).mp hy
      obtain ⟨c2', hc2', htr2⟩ := hpre.setHot hok2 (hkept1.freeze.trans hf) ((hcare x).mpr hc)
      cases hc2'.symm.trans hc2
      refine ⟨_, htr2, fun y hy => ?_, fun y hy => ?_⟩
      · change Wanted cfg.geometry c'.md y
        rw [hmd2, hwant]
        rcases hy with hy | hy
        · exact hsub y hy.1
        · rw [hy]
          exact ⟨hc.1, hc.2, hd⟩
      · change Wanted cfg.geometry c'.md y at hy
        rw [hmd2, hwant] at hy
        by_cases hyx : y = x
        · exact .inl (.inr hyx)
        · rcases hcov y hy with ht | hp
          · exact .inl (.inl ⟨ht, hyx⟩)
          · exact .inr (hpend y (congrFun hinfo y) hp)
    · rw [if_neg hd] at hc1
      rw [if_neg fun heq => hd (hdirty.symm.trans heq)] at hc2
      cases hc1
      cases hc2
      refine ⟨T, hT.withMd hok2.attached (fun y hy => ⟨congrFun hsame.1 y, hother y fun heq => ?_⟩)
        fun y hy => (hcare y).mp hy, fun y hy => (hwant y).mpr (hsub y hy), fun y hy => ?_⟩
      · exact hd (heq ▸ (hsub y hy).2.2)
      · exact (hcov y ((hwant y).mp hy)).imp_right (hpend y (congrFun hinfo y))

end Operations

end OcfCache.CleaningSwitch
