import OcfCache.SpaceTrace

/-!
# Placement of cache lines on LRU lists

Which list a cache line is on is determined by its partition, its index and,
in user partitions, by whether it has a dirty block. The lines are placed by a
function to list keys, and each list holds exactly the lines placed on it. The
module shows that every operation of the LRU policy keeps this, with the
occupancy counters, along any run of operations.
-/

namespace OcfCache.LruPlacement

open Function Loops Metadata Requests LruList Partitions Lru CacheLine Space

/-- Lists that are set up. -/
def Listed (key : ListKey) : Prop :=
  key.part.Exists ∧ key.idx < ocfNumLruLists ∧ (key.part.id = partitionFreelist → key.clean = true)

/-- Every list holds the lines placed on it, and user lists track hot lines. -/
def Holds (c : Cache) (place : Nat → Option ListKey) : Prop :=
  ∀ key, Listed key → (c.lruLists key).trackHot = decide (key.part.id ≠ partitionFreelist) ∧
    ∃ lines, Lru c.lruNodes (c.lruLists key) lines ∧ ∀ x, x ∈ lines ↔ place x = some key

/-- Only the lists changed. -/
def OnlyLists (c c' : Cache) : Prop :=
  c' = { c with lruNodes := c'.lruNodes, lruLists := c'.lruLists }

theorem OnlyLists.trans {a b c : Cache} (h : OnlyLists a b) (h' : OnlyLists b c) :
    OnlyLists a c := by
  rw [OnlyLists] at h h' ⊢
  rw [h', h]

variable {x stop d : Nat} {md : LineTable} {c' : Cache} {it : Iter}

variable {κ : Type*}

theorem update_place_iff {place : Nat → Option κ} {key : κ} {v : Option κ}
    (hx : place x = none ∨ place x = some key) (hv : v = none ∨ v = some key) :
    ∀ key', key' ≠ key → ∀ y, update place x v y = some key' ↔ place y = some key' := by
  intro key' hk y
  by_cases hy : y = x
  · subst hy
    rcases hx with hx | hx <;> rcases hv with hv | hv <;> simp [hx, hv, Ne.symm hk]
  · rw [update_of_ne hy]

theorem mem_cons_iff_update {place : Nat → Option κ} {key : κ}
    {lines : List Nat} (hmem : ∀ y, y ∈ lines ↔ place y = some key) (y : Nat) :
    y ∈ x :: lines ↔ update place x (some key) y = some key := by
  by_cases hy : y = x
  · subst hy
    simp
  · rw [update_of_ne hy, List.mem_cons, hmem y]
    simp [hy]

theorem mem_erase_iff_update {place : Nat → Option κ} {key : κ}
    {lines : List Nat} (hd : lines.Nodup) (hmem : ∀ y, y ∈ lines ↔ place y = some key) (y : Nat) :
    y ∈ lines.erase x ↔ update place x none y = some key := by
  by_cases hy : y = x
  · subst hy
    simp [hd.not_mem_erase]
  · rw [List.mem_erase_of_ne hy, update_of_ne hy]
    exact hmem y

variable {c : Cache} {key : ListKey}

theorem Holds.withList {place place' : Nat → Option ListKey}
    {op : Nodes → LruHead → Option (Nodes × LruHead)} (h : Holds c place) (hkey : Listed key)
    (hx : ∀ key', place x = some key' → key' = key)
    (hother : ∀ key', key' ≠ key → ∀ y, place' y = some key' ↔ place y = some key')
    (hop : ∀ lines, Lru c.lruNodes (c.lruLists key) lines → (∀ y, y ∈ lines ↔ place y = some key) →
      ∃ nodes' l', op c.lruNodes (c.lruLists key) = some (nodes', l') ∧
        l'.trackHot = (c.lruLists key).trackHot ∧ (∀ y ∉ x :: lines, nodes' y = c.lruNodes y) ∧
        ∃ lines', Lru nodes' l' lines' ∧ ∀ y, y ∈ lines' ↔ place' y = some key) :
    ∃ c', withList c key op = some c' ∧ Holds c' place' ∧ OnlyLists c c' := by
  obtain ⟨htrack, lines, hlru, hmem⟩ := h key hkey
  obtain ⟨nodes', l', heq, htrack', hframe, lines', hlru', hmem'⟩ := hop lines hlru hmem
  refine ⟨{ c with lruNodes := nodes', lruLists := update c.lruLists key l' }, ?_, ?_, rfl⟩
  · rw [Lru.withList, heq]
    rfl
  · intro key' hkey'
    by_cases hk : key' = key
    · subst hk
      simp only [update_self]
      exact ⟨htrack'.trans htrack, lines', hlru', hmem'⟩
    · simp only [update_of_ne hk]
      obtain ⟨htr, lines2, hlru2, hmem2⟩ := h key' hkey'
      refine ⟨htr, lines2, hlru2.congr fun y hy => hframe y ?_, fun y => ?_⟩
      · have hy' := (hmem2 y).mp hy
        intro hin
        rcases List.mem_cons.mp hin with hyx | hin
        · exact hk (hx key' (hyx ▸ hy'))
        · rw [(hmem y).mp hin] at hy'
          exact hk (Option.some.inj hy').symm
      · rw [hmem2 y, hother key' hk y]

theorem Holds.remove {c : Cache} {place : Nat → Option ListKey} {key : ListKey}
    (h : Holds c place) (hkey : Listed key) (hx : place x = some key) :
    ∃ c', (Lru.withList c key fun nodes l => ocfLruRemoveLocked nodes l x) = some c' ∧
      Holds c' (update place x none) ∧ OnlyLists c c' := by
  refine h.withList hkey (x := x) (fun key' hk => ?_) (update_place_iff (.inr hx) (.inl rfl))
    fun lines hlru hmem => ?_
  · rw [hx] at hk
    exact (Option.some.inj hk).symm
  · obtain ⟨nodes', l', heq, hlru', hframe, htrack⟩ := ocfLruRemoveLocked_spec hlru ((hmem x).mpr hx)
    exact ⟨nodes', l', heq, htrack, fun y hy => hframe y fun hin => hy (List.mem_cons_of_mem x hin),
      lines.erase x, hlru', mem_erase_iff_update hlru.nodup hmem⟩

theorem Holds.add {place : Nat → Option ListKey}
    (h : Holds c place) (hkey : Listed key) (hx : place x = none) :
    ∃ c', (Lru.withList c key fun nodes l => addLruHead nodes l x) = some c' ∧
      Holds c' (update place x (some key)) ∧ OnlyLists c c' := by
  refine h.withList hkey (x := x) (fun key' hk => ?_) (update_place_iff (.inl hx) (.inr rfl))
    fun lines hlru hmem => ?_
  · rw [hx] at hk
    cases hk
  · have hnot : x ∉ lines := by
      rw [hmem x, hx]
      simp
    obtain ⟨nodes', l', heq, hlru', hframe, htrack⟩ := addLruHead_spec hlru hnot
    exact ⟨nodes', l', heq, htrack, hframe, x :: lines, hlru', mem_cons_iff_update hmem⟩

theorem Holds.addFree {place : Nat → Option ListKey}
    (h : Holds c place) (hkey : Listed key) (hfree : key.part.id = partitionFreelist)
    (hx : place x = none) :
    ∃ c', (Lru.withList c key fun nodes l => addLruHeadNobalance nodes l x) = some c' ∧
      Holds c' (update place x (some key)) ∧ OnlyLists c c' := by
  refine h.withList hkey (x := x) (fun key' hk => ?_) (update_place_iff (.inl hx) (.inr rfl))
    fun lines hlru hmem => ?_
  · rw [hx] at hk
    cases hk
  · have hnot : x ∉ lines := by
      rw [hmem x, hx]
      simp
    have htrack : (c.lruLists key).trackHot = false := by
      rw [(h key hkey).1]
      simp [hfree]
    obtain ⟨nodes', l', heq, hlru', hframe, htrack'⟩ :=
      addLruHeadNobalance_untracked hlru hnot htrack
    exact ⟨nodes', l', heq, htrack', hframe, x :: lines, hlru', mem_cons_iff_update hmem⟩

theorem Holds.setHot {place : Nat → Option ListKey}
    (h : Holds c place) (hkey : Listed key) (hx : place x = some key) :
    ∃ c', (Lru.withList c key fun nodes l => ocfLruSetHot nodes l x) = some c' ∧ Holds c' place ∧
      OnlyLists c c' := by
  refine h.withList hkey (x := x) (fun key' hk => ?_) (fun _ _ _ => Iff.rfl) fun lines hlru hmem => ?_
  · rw [hx] at hk
    exact (Option.some.inj hk).symm
  · have hin := (hmem x).mpr hx
    obtain ⟨nodes', l', heq, hlru', hframe, htrack⟩ := ocfLruSetHot_spec hlru hin
    refine ⟨nodes', l', heq, htrack, fun y hy => hframe y fun hin => hy (List.mem_cons_of_mem x hin),
      x :: lines.erase x, hlru', fun y => ?_⟩
    rw [← hmem y]
    by_cases hy : y = x
    · subst hy
      simp [hin]
    · rw [List.mem_cons, List.mem_erase_of_ne hy]
      simp [hy]

theorem Holds.move {place : Nat → Option ListKey} {src dst : ListKey}
    (h : Holds c place) (hsrc : Listed src) (hdst : Listed dst) (hx : place x = some src) :
    ∃ c', ocfLruMove c x src dst = some c' ∧ Holds c' (update place x (some dst)) ∧
      OnlyLists c c' := by
  obtain ⟨c1, heq1, h1, honly1⟩ := h.remove hsrc hx
  obtain ⟨c2, heq2, h2, honly2⟩ := h1.add hdst (update_self x none place)
  rw [update_idem] at h2
  refine ⟨c2, ?_, h2, honly1.trans honly2⟩
  rw [ocfLruMove, heq1]
  exact heq2

/-- The list of a cache line: by partition, index and, in user partitions,
dirtiness. -/
def listOf (g : Geometry) (c : Cache) (owner : Nat → Part) (x : Nat) : ListKey :=
  ocfLruGetList (owner x) (ocfLruGetListIndex x) (!metadataTestDirty g c.md x)

/-- Placement of all cache lines by their partition. -/
def place (g : Geometry) (c : Cache) (owner : Nat → Part) (x : Nat) : Option ListKey :=
  if x < g.collisionEntries then some (listOf g c owner x) else none

/-- All lines are on the list of their partition, and the counters are exact. -/
structure Placed (g : Geometry) (c : Cache) (owner : Nat → Part) : Prop where
  /-- Lists hold the lines placed on them. -/
  holds : Holds c (place g c owner)
  /-- Lines are in partitions that are set up. -/
  part : ∀ x, (owner x).Exists
  /-- The metadata names the partition. -/
  id : ∀ x < g.collisionEntries, c.md.partitionId x = (owner x).id
  /-- The counters count the lines. -/
  size : ∀ p, p.Exists →
    c.currSize p = countBelow (fun x => decide (owner x = p)) g.collisionEntries

variable {part : Part}

theorem listed_getList (h : part.Exists) {idx : Nat} (hidx : idx < ocfNumLruLists)
    (clean : Bool) : Listed (ocfLruGetList part idx clean) := by
  by_cases hf : part.id = partitionFreelist
  · rw [ocfLruGetList, if_pos hf]
    exact ⟨h, hidx, fun _ => rfl⟩
  · rw [ocfLruGetList, if_neg hf]
    exact ⟨h, hidx, fun hf' => absurd hf' hf⟩

theorem ocfLruGetListIndex_lt (x : Nat) : ocfLruGetListIndex x < ocfNumLruLists :=
  Nat.mod_lt _ (by decide)

theorem Part.Exists.user_of_id {p : Part} (h : p.Exists) {id : Nat} (hid : p.id = id)
    (hne : id ≠ partitionFreelist) : p = .user id := by
  cases p with
  | user i => exact congrArg Part.user hid
  | free => exact absurd hid.symm hne
  | freeDetached => exact absurd hid.symm hne

variable {g : Geometry} {c : Cache} {owner : Nat → Part}

theorem Placed.of_md (h : Placed g c owner)
    (hid : ∀ x < g.collisionEntries, md.partitionId x = c.md.partitionId x)
    (hdirty : ∀ x < g.collisionEntries, (owner x).id ≠ partitionFreelist →
      metadataTestDirty g md x = metadataTestDirty g c.md x) :
    Placed g { c with md := md } owner := by
  have hplace : place g { c with md := md } owner = place g c owner := by
    funext x
    simp only [place]
    split
    · rename_i hx
      simp only [listOf, ocfLruGetList]
      split
      · rfl
      · rename_i hf
        rw [hdirty x hx hf]
    · rfl
  refine ⟨?_, h.part, fun x hx => (hid x hx).trans (h.id x hx), h.size⟩
  rw [hplace]
  exact h.holds

theorem Placed.congr (h : Placed g c owner) (hn : c'.lruNodes = c.lruNodes)
    (hl : c'.lruLists = c.lruLists) (hm : c'.md = c.md) (hs : c'.currSize = c.currSize) :
    Placed g c' owner := by
  have hplace : place g c' owner = place g c owner := by
    funext x
    simp only [place, listOf, hm]
  refine ⟨?_, h.part, by rw [hm]; exact h.id, by rw [hs]; exact h.size⟩
  rw [hplace]
  intro key hkey
  rw [hn, hl]
  exact h.holds key hkey

theorem size_update (hsize : ∀ p, p.Exists →
      c.currSize p = countBelow (fun x => decide (owner x = p)) g.collisionEntries)
    (hx : x < g.collisionEntries) (dst : Part) :
    ∀ p, p.Exists → SpaceTrace.sizesMoved c.currSize (owner x) dst p =
      countBelow (fun y => decide (update owner x dst y = p)) g.collisionEntries := by
  intro p hp
  have hchange := countBelow_change (p := fun y => decide (owner y = p))
    (q := fun y => decide (update owner x dst y = p)) hx
    (fun j _ hj => by simp [hj])
  simp only [update_self] at hchange
  rw [SpaceTrace.sizesMoved, hsize p hp]
  by_cases hs : owner x = p
  · by_cases hd : dst = p
    · simp only [hs, hd, decide_true, Bool.toNat_true, if_pos] at hchange ⊢
      omega
    · simp only [hs, hd, decide_true, decide_false, Bool.toNat_true, Bool.toNat_false, if_pos,
        if_neg (Ne.symm hd)] at hchange ⊢
      omega
  · by_cases hd : dst = p
    · simp only [hs, hd, decide_true, decide_false, Bool.toNat_true, Bool.toNat_false, if_pos,
        if_neg (Ne.symm hs)] at hchange ⊢
      omega
    · simp only [hs, hd, decide_false, Bool.toNat_false, if_neg (Ne.symm hs),
        if_neg (Ne.symm hd)] at hchange ⊢
      omega

section

variable (h : Placed g c owner)
include h

/-- `ocf_lru_repart_locked` for a line of the source partition. -/
theorem Placed.repart (hx : x < g.collisionEntries) {dst : Part} (hdst : dst.Exists) :
    ∃ c', ocfLruRepartLocked g c x (owner x) dst = some c' ∧
      Placed g c' (update owner x dst) ∧ c'.policy = c.policy := by
  have hidx := ocfLruGetListIndex_lt x
  have hplace : place g c owner x = some (listOf g c owner x) := if_pos hx
  obtain ⟨c1, heq, hholds, honly⟩ := h.holds.move
    (listed_getList (h.part x) hidx (!metadataTestDirty g c.md x))
    (listed_getList hdst hidx (!metadataTestDirty g c.md x)) hplace
  have hmd : c1.md = c.md := by rw [honly]
  have hsize : c1.currSize = c.currSize := by rw [honly]
  have hpolicy : c1.policy = c.policy := by rw [honly]
  refine ⟨c1.moveSize x (owner x) dst, ?_, ?_, hpolicy⟩
  · simp only [ocfLruRepartLocked]
    rw [heq]
    rfl
  · have hplace' : place g (c1.moveSize x (owner x) dst) (update owner x dst) =
        update (place g c owner) x
          (some (ocfLruGetList dst (ocfLruGetListIndex x) (!metadataTestDirty g c.md x))) := by
      funext y
      have hdirty : metadataTestDirty g (c1.moveSize x (owner x) dst).md y =
          metadataTestDirty g c.md y := by
        rw [← hmd]
        rfl
      by_cases hy : y = x
      · subst hy
        simp only [place, if_pos hx, listOf, hdirty, update_self]
      · simp only [place, listOf, hdirty, update_of_ne hy]
    refine ⟨?_, fun y => ?_, fun y hy => ?_, fun p hp => ?_⟩
    · rw [hplace']
      exact hholds
    · by_cases hyx : y = x
      · subst hyx
        rw [update_self]
        exact hdst
      · rw [update_of_ne hyx]
        exact h.part y
    · have hpid : (c1.moveSize x (owner x) dst).md.partitionId =
          update c.md.partitionId x dst.id := by
        rw [← hmd]
        rfl
      rw [hpid]
      by_cases hyx : y = x
      · subst hyx
        rw [update_self, update_self]
      · rw [update_of_ne hyx, update_of_ne hyx]
        exact h.id y hy
    · rw [(SpaceTrace.moved_moveSize c1 x (owner x) dst).1, hsize]
      exact size_update h.size hx dst p hp

theorem Placed.owner_of_id (hx : x < g.collisionEntries)
    (hid : c.md.partitionId x ≠ partitionFreelist) : owner x = .user (c.md.partitionId x) :=
  Part.Exists.user_of_id (h.part x) (h.id x hx).symm hid

/-- `ocf_lru_set_hot` on the list of the line. -/
theorem Placed.setHot (hx : x < g.collisionEntries) :
    ∃ c', (Lru.withList c (listOf g c owner x) fun nodes l => ocfLruSetHot nodes l x) = some c' ∧
      Placed g c' owner ∧ c'.policy = c.policy := by
  have hlisted : Listed (listOf g c owner x) :=
    listed_getList (h.part x) (ocfLruGetListIndex_lt x) _
  obtain ⟨c', heq, hholds, honly⟩ := h.holds.setHot hlisted (if_pos hx)
  have hmd : c'.md = c.md := by rw [honly]
  have hsize : c'.currSize = c.currSize := by rw [honly]
  have hpolicy : c'.policy = c.policy := by rw [honly]
  refine ⟨c', heq, ⟨?_, h.part, by rw [hmd]; exact h.id, by rw [hsize]; exact h.size⟩, hpolicy⟩
  have hplace : place g c' owner = place g c owner := by
    funext y
    simp only [place, listOf, hmd]
  rw [hplace]
  exact hholds

/-- `ocf_lru_hot_cline` for a line of a user partition. -/
theorem Placed.hotCline (hx : x < g.collisionEntries)
    (hid : c.md.partitionId x ≠ partitionFreelist) :
    ∃ c', ocfLruHotCline g c x = some c' ∧ Placed g c' owner ∧ c'.policy = c.policy := by
  have howner := h.owner_of_id hx hid
  have hkey : listOf g c owner x = ocfLruGetList (.user (c.md.partitionId x))
      (ocfLruGetListIndex x) (!metadataTestDirty g c.md x) := by
    rw [listOf, howner]
  have hlisted : Listed (listOf g c owner x) :=
    listed_getList (h.part x) (ocfLruGetListIndex_lt x) _
  obtain ⟨-, lines, hlru, hmem⟩ := h.holds (listOf g c owner x) hlisted
  have hin : x ∈ lines := (hmem x).mpr (if_pos hx)
  obtain ⟨htail, hhead⟩ := hlru.end_of_none hin
  simp only [ocfLruHotCline, ← hkey]
  split
  · exact ⟨c, rfl, h, rfl⟩
  · rw [if_neg fun hn => hn.2 (htail hn.1), if_neg fun hn => hn.2 (hhead hn.1)]
    exact h.setHot hx

/-- Moving a line of a user partition between its clean and its dirty list,
together with a change of the metadata that makes it belong there. -/
theorem Placed.moveDirty (hx : x < g.collisionEntries)
    (hid : c.md.partitionId x ≠ partitionFreelist) (hpart : md.partitionId = c.md.partitionId)
    (hother : ∀ y, y ≠ x → metadataTestDirty g md y = metadataTestDirty g c.md y) :
    ∃ c', ocfLruMove { c with md := md } x
        (ocfLruGetList (.user (c.md.partitionId x)) (ocfLruGetListIndex x)
          (!metadataTestDirty g c.md x))
        (ocfLruGetList (.user (c.md.partitionId x)) (ocfLruGetListIndex x)
          (!metadataTestDirty g md x)) = some c' ∧
      Placed g c' owner ∧ c'.policy = c.policy := by
  have howner := h.owner_of_id hx hid
  have hexists : (Part.user (c.md.partitionId x)).Exists := howner ▸ h.part x
  have hidx := ocfLruGetListIndex_lt x
  have hplace : place g c owner x = some (ocfLruGetList (.user (c.md.partitionId x))
      (ocfLruGetListIndex x) (!metadataTestDirty g c.md x)) := by
    rw [place, if_pos hx, listOf, howner]
  have hholds : Holds { c with md := md } (place g c owner) := h.holds
  obtain ⟨c', heq, hholds', honly⟩ := hholds.move (listed_getList hexists hidx _)
    (listed_getList hexists hidx (!metadataTestDirty g md x)) hplace
  have hmd : c'.md = md := by rw [honly]
  have hsize : c'.currSize = c.currSize := by rw [honly]
  have hpolicy : c'.policy = c.policy := by rw [honly]
  refine ⟨c', heq, ⟨?_, h.part, ?_, by rw [hsize]; exact h.size⟩, hpolicy⟩
  · have hplace' : place g c' owner = update (place g c owner) x
        (some (ocfLruGetList (.user (c.md.partitionId x)) (ocfLruGetListIndex x)
          (!metadataTestDirty g md x))) := by
      funext y
      by_cases hy : y = x
      · subst hy
        simp only [place, if_pos hx, listOf, hmd, howner, update_self]
      · simp only [place, listOf, hmd, hother y hy, update_of_ne hy]
    rw [hplace']
    exact hholds'
  · rw [hmd, hpart]
    exact h.id

end

theorem testDirty_of_ne {line : Nat} {b : Bits} (h : x ≠ line) :
    metadataTestDirty g (setDirtyBits md line b) x = metadataTestDirty g md x := by
  simp [metadataTestDirty, setDirtyBits, h]

theorem testDirty_same {line : Nat} {b : Bits} :
    metadataTestDirty g (setDirtyBits md line b) line = testAny b 0 g.endBlock := by
  simp [metadataTestDirty, setDirtyBits]

theorem Placed.keepDirty (h : Placed g c owner) {b : Bits}
    (hb : testAny b 0 g.endBlock = metadataTestDirty g c.md x) :
    Placed g { c with md := setDirtyBits c.md x b } owner := by
  refine h.of_md (fun _ _ => rfl) fun y _ _ => ?_
  by_cases hy : y = x
  · subst hy
    rw [testDirty_same]
    exact hb
  · exact testDirty_of_ne hy

theorem bits_ext {b b' : Bits} (h : ∀ i ≤ stop, b i = b' i) :
    testAny b 0 stop = testAny b' 0 stop := by
  refine Bool.eq_iff_iff.mpr ?_
  simp only [testAny_eq_true]
  constructor
  · rintro ⟨i, hi, h0, hb⟩
    exact ⟨i, hi, h0, h i hi ▸ hb⟩
  · rintro ⟨i, hi, h0, hb⟩
    exact ⟨i, hi, h0, (h i hi).symm ▸ hb⟩

variable {start : Nat}

theorem testDirty_setRange_first (hstop : stop ≤ g.endBlock)
    (h : (!metadataTestDirtyAllSec md x start stop && !metadataTestDirty g md x) = true) :
    metadataTestDirty g md x = false ∧
      metadataTestDirty g (setDirtyBits md x (setRange (md.dirty x) start stop)) x = true := by
  simp only [Bool.and_eq_true, Bool.not_eq_true'] at h
  obtain ⟨hsec, hclean⟩ := h
  refine ⟨hclean, ?_⟩
  rw [testDirty_same, testAny_eq_true]
  simp only [metadataTestDirtyAllSec, testAll, decide_eq_false_iff_not] at hsec
  push Not at hsec
  obtain ⟨i, hi, hs, -⟩ := hsec
  exact ⟨i, by omega, Nat.zero_le i, by simp [setRange, hi, hs]⟩

theorem testDirty_setRange_keep
    (h : ¬(!metadataTestDirtyAllSec md x start stop && !metadataTestDirty g md x) = true) :
    testAny (setRange (md.dirty x) start stop) 0 g.endBlock = metadataTestDirty g md x := by
  simp only [Bool.and_eq_true, Bool.not_eq_true', not_and, Bool.not_eq_false] at h
  by_cases hall : metadataTestDirtyAllSec md x start stop = true
  · refine bits_ext fun i _ => ?_
    simp only [metadataTestDirtyAllSec, testAll_eq_true] at hall
    by_cases hi : start ≤ i ∧ i ≤ stop
    · simp [setRange, hall i hi.2 hi.1]
    · simp [setRange, hi]
  · have hd := h (by simpa using hall)
    rw [hd]
    simp only [metadataTestDirty, testAny_eq_true] at hd ⊢
    obtain ⟨i, hi, h0, hb⟩ := hd
    exact ⟨i, hi, h0, by simp [setRange, hb]⟩

theorem testDirty_clearRange_last (hstop : stop ≤ g.endBlock)
    (h : (metadataTestDirtySec md x start stop && !metadataTestDirty g
      (setDirtyBits md x (clearRange (md.dirty x) start stop)) x) = true) :
    metadataTestDirty g md x = true ∧
      metadataTestDirty g (setDirtyBits md x (clearRange (md.dirty x) start stop)) x = false := by
  simp only [Bool.and_eq_true, Bool.not_eq_true'] at h
  obtain ⟨hsec, hclean⟩ := h
  refine ⟨?_, hclean⟩
  simp only [metadataTestDirtySec, metadataTestDirty, testAny_eq_true] at hsec ⊢
  obtain ⟨i, hi, hs, hb⟩ := hsec
  exact ⟨i, by omega, Nat.zero_le i, hb⟩

theorem testDirty_clearRange_keep
    (h : ¬(metadataTestDirtySec md x start stop && !metadataTestDirty g
      (setDirtyBits md x (clearRange (md.dirty x) start stop)) x) = true) :
    testAny (clearRange (md.dirty x) start stop) 0 g.endBlock = metadataTestDirty g md x := by
  simp only [Bool.and_eq_true, Bool.not_eq_true', not_and, Bool.not_eq_false] at h
  by_cases hsec : metadataTestDirtySec md x start stop = true
  · have hd := h hsec
    rw [testDirty_same] at hd
    rw [hd]
    simp only [metadataTestDirty, testAny_eq_true] at hd ⊢
    obtain ⟨i, hi, h0, hb⟩ := hd
    simp only [clearRange, Bool.and_eq_true] at hb
    exact (testAny_eq_true.mpr ⟨i, hi, h0, hb.1⟩).symm
  · refine bits_ext fun i _ => ?_
    simp only [metadataTestDirtySec, testAny_eq_true, not_exists, not_and] at hsec
    by_cases hi : start ≤ i ∧ i ≤ stop
    · have := hsec i hi.2 hi.1
      simp [clearRange, this]
    · simp [clearRange, hi]

/-- `set_cache_line_dirty` for blocks of a line in a user partition. -/
theorem Placed.setDirty (h : Placed g c owner) (start : Nat) (hx : x < g.collisionEntries)
    (hid : c.md.partitionId x < ocfUserIoClassMax) (hstop : stop ≤ g.endBlock) :
    ∃ c', lruSetCacheLineDirty g c start stop x = some c' ∧ Placed g c' owner ∧
      c'.policy = c.policy := by
  have hne : c.md.partitionId x ≠ partitionFreelist := by
    simp only [partitionFreelist]
    omega
  simp only [lruSetCacheLineDirty, if_neg (Nat.not_lt.mpr (Nat.le_of_lt hid))]
  split
  · rename_i hchange
    obtain ⟨hclean, hdirty⟩ := testDirty_setRange_first hstop hchange
    have hpart : (setDirtyBits c.md x (setRange (c.md.dirty x) start stop)).partitionId =
        c.md.partitionId := rfl
    have hmove := h.moveDirty hx hne hpart fun y hy => testDirty_of_ne hy
    rw [hdirty, hclean] at hmove
    exact hmove
  · rename_i hsame
    exact ⟨_, rfl, h.keepDirty (testDirty_setRange_keep hsame), rfl⟩

/-- `set_cache_line_clean` for blocks of a line in a user partition. -/
theorem Placed.setClean (h : Placed g c owner) (start : Nat) (hx : x < g.collisionEntries)
    (hid : c.md.partitionId x < ocfUserIoClassMax) (hstop : stop ≤ g.endBlock) :
    ∃ c', lruSetCacheLineClean g c start stop x = some c' ∧ Placed g c' owner ∧
      c'.policy = c.policy := by
  have hne : c.md.partitionId x ≠ partitionFreelist := by
    simp only [partitionFreelist]
    omega
  simp only [lruSetCacheLineClean, if_neg (Nat.not_lt.mpr (Nat.le_of_lt hid))]
  split
  · rename_i hchange
    obtain ⟨hdirty, hclean⟩ := testDirty_clearRange_last hstop hchange
    have hpart : (setDirtyBits c.md x (clearRange (c.md.dirty x) start stop)).partitionId =
        c.md.partitionId := rfl
    have hmove := h.moveDirty hx hne hpart fun y hy => testDirty_of_ne hy
    rw [hdirty, hclean] at hmove
    exact hmove
  · rename_i hsame
    exact ⟨_, rfl, h.keepDirty (testDirty_clearRange_keep hsame), rfl⟩

theorem getList_inj {p p' : Part} {i i' : Nat} {b b' : Bool}
    (h : ocfLruGetList p i b = ocfLruGetList p' i' b') :
    p = p' ∧ i = i' ∧ (p.id ≠ partitionFreelist → b = b') := by
  simp only [ocfLruGetList] at h
  split at h <;> split at h <;> cases h <;> simp_all

theorem owner_of_place {idx : Nat} (hx : place g c owner x = some (ocfLruGetList part idx true)) :
    x < g.collisionEntries ∧ owner x = part ∧ listOf g c owner x = ocfLruGetList part idx true := by
  simp only [place, Option.ite_none_right_eq_some, Option.some.injEq] at hx
  exact ⟨hx.1, (getList_inj hx.2).1, hx.2⟩

theorem lruIterAdvance_lt (h : it.lruIdx < ocfNumLruLists) :
    (lruIterAdvance it).lruIdx < ocfNumLruLists := by
  simp only [lruIterAdvance]
  split
  · simp only [lruIterAdvanceList]
    split
    · exact Nat.mod_lt _ (by decide)
    · exact h
  · exact h

theorem lruSetEmpty_lruIdx (it : Iter) : (lruSetEmpty it).lruIdx = it.lruIdx := by
  simp only [lruSetEmpty]
  split <;> rfl

variable {it' : Iter} {found : Option Nat}

theorem Placed.iterNext (h : Placed g c owner) (hpart : part.Exists)
    {lock : Nat → Bool} {fuel : Nat}
    (hidx : it.lruIdx < ocfNumLruLists) (hnext : lruIterNext c part lock fuel it = (found, it')) :
    it'.lruIdx < ocfNumLruLists ∧
      ∀ x, found = some x → place g c owner x = some (ocfLruGetList part it'.lruIdx true) := by
  induction fuel generalizing it with
  | zero =>
    cases hnext
    exact ⟨hidx, nofun⟩
  | succ fuel ih =>
    have hlt := lruIterAdvance_lt hidx
    simp only [lruIterNext] at hnext
    split at hnext
    · rename_i y hscan
      cases hnext
      refine ⟨hlt, fun x hx => ?_⟩
      cases hx
      obtain ⟨-, lines, hlru, hmem⟩ := h.holds _ (listed_getList hpart hlt true)
      have hfound := scanTail_spec (fun z => z ∈ lines) (fun z hz => hlru.tail_mem hz)
        (fun z w hz hw => hlru.prev_mem hz hw) hscan
      exact (hmem y).mp hfound.1
    · split at hnext
      · cases hnext
        refine ⟨by rw [lruSetEmpty_lruIdx]; exact hlt, nofun⟩
      · exact ih (by rw [lruSetEmpty_lruIdx]; exact hlt) hnext

theorem Placed.lockLine (h : Placed g c owner) (x : Nat) : Placed g (lockLine c x) owner :=
  h.congr rfl rfl rfl rfl

theorem Placed.give (h : Placed g c owner) (hx : x < g.collisionEntries)
    (hd : d < ocfUserIoClassMax) {p : Part} (howner : owner x = p) (hkey : key = listOf g c owner x)
    (heq : (if Part.user d ≠ p then ocfLruRepartLocked g c x p (.user d)
      else Lru.withList c key fun nodes l => ocfLruSetHot nodes l x) = some c') :
    Placed g c' (update owner x (.user d)) ∧ c'.policy = c.policy := by
  subst howner
  split at heq
  · obtain ⟨c1, heq1, hplaced, hpolicy⟩ := h.repart hx (show (Part.user d).Exists from hd)
    rw [heq] at heq1
    cases heq1
    exact ⟨hplaced, hpolicy⟩
  · rename_i hsame
    have hown : Part.user d = owner x := not_not.mp hsame
    obtain ⟨c1, heq1, hplaced, hpolicy⟩ := h.setHot hx
    rw [hkey, heq1] at heq
    cases heq
    rw [hown, update_eq_self]
    exact ⟨hplaced, hpolicy⟩

/-- `lru_req_next_cline`. -/
theorem Placed.reqNextCline (h : Placed g c owner) (hx : x < g.collisionEntries)
    (hd : d < ocfUserIoClassMax) (hid : c.md.partitionId x ≠ partitionFreelist)
    (heq : lruReqNextCline g c x (.user d) = some c') :
    Placed g c' (update owner x (.user d)) ∧ c'.policy = c.policy := by
  have howner := h.owner_of_id hx hid
  obtain ⟨c1, hmove, rfl⟩ := Option.map_eq_some_iff.mp heq
  have hgive : Placed g c1 (update owner x (.user d)) ∧ c1.policy = c.policy := by
    refine h.give hx hd howner rfl ?_
    split at hmove
    · rename_i hne
      rw [if_pos fun heq => hne (congrArg Part.id heq)]
      exact hmove
    · rename_i hsame
      have hsame' : Part.user d = .user (c.md.partitionId x) :=
        congrArg Part.user (not_not.mp hsame)
      obtain ⟨key, hkey, hhot⟩ := Option.bind_eq_some_iff.mp hmove
      simp only [lruGetClineList, Option.ite_none_left_eq_some, Option.some.injEq] at hkey
      rw [if_neg (not_not.mpr hsame'), listOf, howner, hkey.2]
      exact hhot
  exact ⟨hgive.1.lockLine x, hgive.2⟩

variable {src : Part}

/-- `lru_iter_eviction_next`. -/
theorem Placed.evictionNext (h : Placed g c owner) {req : Request}
    (hsrc : src.Exists) (hd : d < ocfUserIoClassMax) (hidx : it.lruIdx < ocfNumLruLists)
    (heq : lruIterEvictionNext g c req src (.user d) it = some (c', it', found)) :
    it'.lruIdx < ocfNumLruLists ∧ c'.policy = c.policy ∧
      ∀ x, found = some x → Placed g c' (update owner x (.user d)) := by
  rcases taken_cases heq with ⟨hiter, rfl, rfl⟩ | ⟨y, c1, hiter, hmove, rfl, rfl⟩
  · obtain ⟨hlt, -⟩ := h.iterNext hsrc hidx hiter
    exact ⟨hlt, rfl, (by simp)⟩
  · obtain ⟨hlt, hplace⟩ := h.iterNext hsrc hidx hiter
    obtain ⟨hy, howner, hkey⟩ := owner_of_place (hplace y rfl)
    obtain ⟨hgive, hpol⟩ := h.give hy hd howner hkey.symm hmove
    refine ⟨hlt, hpol, fun x hx => ?_⟩
    cases hx
    exact hgive.lockLine y

/-- `lru_iter_free_next`. -/
theorem Placed.freeNext (h : Placed g c owner) (hd : d < ocfUserIoClassMax) (hidx : it.lruIdx < ocfNumLruLists)
    (heq : lruIterFreeNext g c (.user d) it = some (c', it', found)) :
    it'.lruIdx < ocfNumLruLists ∧ c'.policy = c.policy ∧
      ∀ x, found = some x → Placed g c' (update owner x (.user d)) := by
  have hfree : Part.free.Exists := trivial
  rcases taken_cases heq with ⟨hiter, rfl, rfl⟩ | ⟨y, c1, hiter, hmove, rfl, rfl⟩
  · obtain ⟨hlt, -⟩ := h.iterNext hfree hidx hiter
    exact ⟨hlt, rfl, (by simp)⟩
  · obtain ⟨hlt, hplace⟩ := h.iterNext hfree hidx hiter
    obtain ⟨hy, howner, -⟩ := owner_of_place (hplace y rfl)
    obtain ⟨c2, heq2, hgive, hpol⟩ := h.repart hy (show (Part.user d).Exists from hd)
    rw [howner, hmove] at heq2
    cases heq2
    refine ⟨hlt, hpol, fun x hx => ?_⟩
    cases hx
    exact hgive.lockLine y

theorem Placed.nextLine (h : Placed g c owner) (hpolicy : c.policy = .lru) {req : Request} (hsrc : src.Exists) (hd : d < ocfUserIoClassMax)
    (hidx : it.lruIdx < ocfNumLruLists) {cline : Option Nat} {found : Option Handed}
    (heq : nextLine g c req src (.user d) it cline = some (c', it', found)) :
    it'.lruIdx < ocfNumLruLists ∧ c'.policy = c.policy ∧
      ∀ t, found = some t → Placed g c' (update owner t.line (.user d)) := by
  have hmap : ∀ {f : Option Nat} {mk : Nat → Handed}, (∀ x, (mk x).line = x) →
      (∀ x, f = some x → Placed g c' (update owner x (.user d))) →
      ∀ t, f.map mk = some t → Placed g c' (update owner t.line (.user d)) := by
    intro f mk hline hsome t ht
    obtain ⟨x, hx, rfl⟩ := Option.map_eq_some_iff.mp ht
    rw [hline x]
    exact hsome x hx
  simp only [Space.nextLine] at heq
  split at heq
  · split at heq
    · rename_i x hsucc
      obtain ⟨⟨c1, it1⟩, hnext, hr⟩ := Option.map_eq_some_iff.mp heq
      simp only [Space.reqNextCline, hpolicy] at hnext
      obtain ⟨c2, hmove, hr2⟩ := Option.map_eq_some_iff.mp hnext
      obtain ⟨-, hx, htakes⟩ := SpaceFrame.successor_spec hsucc
      have hid := (SpaceFrame.takesSuccessor_spec htakes).1
      obtain ⟨hgive, hpol⟩ := h.reqNextCline hx hd hid hmove
      cases hr2
      cases hr
      refine ⟨lruIterAdvance_lt hidx, hpol, fun t ht => ?_⟩
      cases ht
      exact hgive
    · obtain ⟨⟨c1, it1, f⟩, hnext, hr⟩ := Option.map_eq_some_iff.mp heq
      simp only [iterEvictionNext, hpolicy] at hnext
      obtain ⟨hlt, hpol, hsome⟩ := h.evictionNext hsrc hd hidx hnext
      cases hr
      exact ⟨hlt, hpol, hmap (fun _ => rfl) hsome⟩
  · obtain ⟨⟨c1, it1, f⟩, hnext, hr⟩ := Option.map_eq_some_iff.mp heq
    simp only [iterFreeNext, hpolicy] at hnext
    obtain ⟨hlt, hpol, hsome⟩ := h.freeNext hd hidx hnext
    cases hr
    exact ⟨hlt, hpol, hmap (fun _ => rfl) hsome⟩

theorem Placed.assignLine (h : Placed g c owner) {req req' : Request} {src idx idx' : Nat}
    (heq : assignLine g c req x src idx = some (c', req', idx')) :
    Placed g c' owner ∧ c'.policy = c.policy := by
  simp only [Space.assignLine, Option.ite_none_left_eq_some, Option.some.injEq,
    Prod.mk.injEq] at heq
  obtain ⟨-, -, rfl, -, -⟩ := heq
  refine ⟨h.of_md (fun y _ => ?_) fun y _ _ => ?_, rfl⟩
  · simp only [ocfMapCacheLine, ocfMetadataAddToCollision]
    split <;> rfl
  · simp only [ocfMapCacheLine, ocfMetadataAddToCollision, metadataTestDirty]
    split <;> rfl

/-- Partitions of the lines after lines were handed to a partition. -/
def handOver (owner : Nat → Part) (d : Nat) (log : List Handed) : Nat → Part :=
  log.foldl (fun owner t => update owner t.line (.user d)) owner

theorem Placed.reqClinesLoop (hsrc : src.Exists) (hd : d < ocfUserIoClassMax) {dstMax n : Nat} {req : Request}
    {it : Iter} {cline : Option Nat} {idx : Nat} {r : Result} (h : Placed g c owner) (hpolicy : c.policy = .lru)
    (hidx : it.lruIdx < ocfNumLruLists) (heq : reqClinesLoop g src (.user d) dstMax n c req it cline idx = some r) :
    Placed g r.1 (handOver owner d r.2.2) ∧ r.1.policy = .lru := by
  refine SpaceFrame.reqClinesLoop_rule (P := fun _ c _ it _ r => ∀ owner, Placed g c owner → c.policy = .lru →
    it.lruIdx < ocfNumLruLists → Placed g r.1 (handOver owner d r.2.2) ∧ r.1.policy = .lru)
    (fun _ _ _ _ _ _ h hpolicy _ => ⟨h, hpolicy⟩) ?_ heq owner h hpolicy hidx
  intro _ _ _ _ _ _ _ t _ _ _ _ _ hnext _ hassign ih owner h hpolicy hidx
  obtain ⟨hlt, hpol, hsome⟩ := h.nextLine hpolicy hsrc hd hidx hnext
  obtain ⟨hplaced, hpol2⟩ := (hsome t rfl).assignLine hassign
  exact ih _ hplaced (hpol2.trans (hpol.trans hpolicy)) hlt

/-- `ocf_lru_req_clines`. -/
theorem Placed.reqClines (h : Placed g c owner) (hpolicy : c.policy = .lru) {req : Request}
    (hd : req.partId < ocfUserIoClassMax) {src : Part} (hsrc : src.Exists) {n : Nat} {r : Result}
    (heq : ocfEvictionReqClines g c req src n = some r) :
    Placed g r.1 (handOver owner req.partId r.2.2) ∧ r.1.policy = .lru := by
  simp only [ocfEvictionReqClines] at heq
  split at heq
  · cases heq
    exact ⟨h, hpolicy⟩
  · split at heq
    · cases heq
    · have hplaced : Placed g { c with lruIdx := c.lruIdx + 1 } owner := h.congr rfl rfl rfl rfl
      have hlt : (lruIterInit (c.lruIdx % ocfNumLruLists)).lruIdx < ocfNumLruLists :=
        Nat.mod_lt _ (by decide)
      exact Placed.reqClinesLoop hsrc hd hplaced hpolicy hlt heq

end OcfCache.LruPlacement
