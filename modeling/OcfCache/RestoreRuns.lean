import OcfCache.Restore

/-!
# Restoring the lists of a clean shutdown

Restoring starts from the metadata of the lines alone: links, hot flags, hits
and buckets, partitions, status bits and cores. For a cache at rest it comes to
the lists and counters of the running policy. The argument is the same for both
policies: the list that a line is restored to is the one it is on, the checks
hold on these lists, and what the pass finds is determined by their lines.
-/

namespace OcfCache.RestoreRuns

open Loops Metadata LinkedLists ListRestore LruList Partitions Restore Runs

/-- No I/O is in flight: lines of user partitions hold data of a core, free
lines hold none, and the metadata passes its check. -/
structure AtRest (g : Geometry) (md : LineTable) : Prop where
  /-- Lines of user partitions have a valid block. -/
  valid : ∀ x < g.collisionEntries, md.partitionId x ≠ partitionFreelist →
    metadataTestValidAny g md x = true
  /-- Lines of user partitions are mapped. -/
  mapped : ∀ x < g.collisionEntries, md.partitionId x ≠ partitionFreelist →
    (md.coreInfo x).1 < ocfCoreNum
  /-- Free lines have no valid block. -/
  free : ∀ x < g.collisionEntries, md.partitionId x = partitionFreelist →
    metadataTestValidAny g md x = false
  /-- Cores are cores or none. -/
  core : ∀ x < g.collisionEntries, (md.coreInfo x).1 ≤ ocfCoreNum
  /-- Dirty blocks are valid. -/
  check : ∀ x < g.collisionEntries, ocfMetadataCheck g md x = true

section Parts

variable {g : Geometry} {c : Cache} {owner : Nat → Part} {noCore : Nat}

theorem ne_of_size_zero {size : Int} {p : Part}
    (hsize : size = countBelow (fun x => decide (owner x = p)) g.collisionEntries) (h0 : size = 0) :
    ∀ x < g.collisionEntries, owner x ≠ p := by
  have hzero : countBelow (fun x => decide (owner x = p)) g.collisionEntries = 0 := by
    rw [h0] at hsize
    exact_mod_cast hsize.symm
  intro x hx
  exact of_decide_eq_false (countBelow_eq_zero.mp hzero x hx)

theorem AtRest.restoredPart {x : Nat} (h : AtRest g c.md) (hx : x < g.collisionEntries)
    (hcore : ocfCoreNum ≤ noCore) (hpart : (owner x).Exists) (hd : owner x ≠ .freeDetached)
    (hid : c.md.partitionId x = (owner x).id) : restoredPart noCore g c.md x = owner x := by
  rw [Restore.restoredPart]
  cases howner : owner x with
  | user id =>
    rw [howner] at hpart hid
    have hid' : c.md.partitionId x = id := hid
    have hlt : id < ocfUserIoClassMax := hpart
    have hne : c.md.partitionId x ≠ partitionFreelist := by
      rw [hid', partitionFreelist]
      omega
    have hvalid := h.valid x hx hne
    have hmapped := h.mapped x hx hne
    rw [if_neg, hid']
    rintro (hinvalid | hnone)
    · rw [hvalid] at hinvalid
      cases hinvalid
    · omega
  | free =>
    rw [howner] at hid
    rw [if_pos (.inl (h.free x hx hid))]
  | freeDetached => exact absurd howner hd

theorem AtRest.restorePart {x : Nat} (h : AtRest g c.md) (hx : x < g.collisionEntries) {part : Part}
    (hrest : Restore.restoredPart noCore g c.md x = part) (hpart : part.Exists) :
    restorePart noCore g c.md x = .ok part :=
  restorePart_eq_ok.mpr ⟨⟨h.check x hx, h.core x hx⟩, hrest, hpart⟩

end Parts

/-- The checks of the pass hold on lists that hold the lines of their keys. -/
theorem admits_of_lines {κ : Type} [DecidableEq κ] {listed : κ → Prop} {key : Nat → κ}
    {prev next : Nat → Option Nat} {ends : κ → Ends} {n i : Nat}
    (h : Scanned listed key prev next i ends) (hi : i < n) (hkey : listed (key i)) {xs : List Nat}
    (hseg : Segment prev next none xs none) (hmem : ∀ x, x ∈ xs ↔ x < n ∧ key x = key i) :
    Admits prev next (ends (key i)) i := by
  have hin : i ∈ xs := (hmem i).mpr ⟨hi, rfl⟩
  refine ⟨fun p hp => (hseg.of_prev hin hp).2, fun q hq => (hseg.of_next hin hq).2,
    fun hp => ?_, fun hn => ?_⟩
  · cases hhead : (ends (key i)).head with
    | none => rfl
    | some y =>
      obtain ⟨hy, hky, hpy⟩ := (h.head _ hkey y).mp hhead
      have hyi : y = i := Option.some.inj
        ((hseg.head_of_prev ((hmem y).mpr ⟨by omega, hky⟩) hpy).symm.trans
          (hseg.head_of_prev hin hp))
      omega
  · cases htail : (ends (key i)).tail with
    | none => rfl
    | some y =>
      obtain ⟨hy, hky, hny⟩ := (h.tail _ hkey y).mp htail
      have hyi : y = i := Option.some.inj
        ((hseg.getLast_of_next ((hmem y).mpr ⟨by omega, hky⟩) hny).symm.trans
          (hseg.getLast_of_next hin hn))
      omega

theorem endsHot_iff {nodes : Nodes} {l : LruHead} {hot cold : List Nat} (h : IsLru nodes l hot cold)
    {x : Nat} (hx : x ∈ hot ++ cold) : endsHot nodes x = true ↔ hot.getLast? = some x := by
  rw [endsHot, Bool.and_eq_true]
  constructor
  · rintro ⟨hhot, hnext⟩
    have hin : x ∈ hot := by
      rcases List.mem_append.mp hx with hin | hin
      · exact hin
      · rw [h.isCold x hin] at hhot
        cases hhot
    obtain ⟨as, bs, rfl⟩ := List.append_of_mem hin
    cases bs with
    | nil => exact List.getLast?_concat
    | cons b bs =>
      have hlinked := h.linked
      rw [List.append_assoc, List.cons_append] at hlinked
      have hn : (nodes x).next = some b := by
        have hlinks := hlinked.links.2
        simpa using hlinks
      have hb : (nodes b).hot = true := h.isHot b (by simp)
      simp [hn, hb] at hnext
  · intro hlast
    obtain ⟨as, rfl⟩ := List.getLast?_eq_some_iff.mp hlast
    refine ⟨h.isHot x (by simp), ?_⟩
    have hlinked := h.linked
    rw [List.append_assoc, List.singleton_append] at hlinked
    have hn : (nodes x).next = cold.head? := by
      have hlinks := hlinked.links.2
      rwa [Option.or_none] at hlinks
    rw [hn]
    cases cold with
    | nil => rfl
    | cons y cold => simp [h.isCold y]

section Lru

variable {g : Geometry} {c c1 : Cache} {owner : Nat → Part}

/-- What the LRU policy tells about the list of a key. -/
theorem lines_of_placed (h : LruPlacement.Placed g c owner) {key : ListKey}
    (hkey : LruPlacement.Listed key) : ∃ hot cold, IsLru c.lruNodes (c.lruLists key) hot cold ∧
      ∀ x, x ∈ hot ++ cold ↔ x < g.collisionEntries ∧ LruPlacement.listOf g c owner x = key := by
  obtain ⟨-, lines, ⟨hot, cold, rfl, hlru, -⟩, hmem⟩ := h.holds key hkey
  refine ⟨hot, cold, hlru, fun x => ?_⟩
  rw [hmem x, LruPlacement.place, Option.ite_none_right_eq_some, Option.some.injEq]

/-- The LRU lists of a cache at rest are restored. -/
theorem lru_restored (hn : 0 < g.collisionEntries) (h : LruPlacement.Placed g c owner)
    (hd : ∀ x < g.collisionEntries, owner x ≠ .freeDetached) (hrest : AtRest g c.md)
    (hmd : c1.md = c.md) (hnodes : c1.lruNodes = c.lruNodes) :
    ∃ c', ocfLruRestoreRuntime g c1 = .ok c' ∧
      (∀ key, LruPlacement.Listed key → c'.lruLists key = c.lruLists key) ∧
      ∀ p, p.Exists → c'.currSize p = c.currSize p := by
  have hpart : ∀ x < g.collisionEntries, restoredPart ocfCoreNum g c1.md x = owner x := by
    intro x hx
    rw [hmd]
    exact hrest.restoredPart hx (Nat.le_refl _) (h.part x) (hd x hx) (h.id x hx)
  have hlist : ∀ x < g.collisionEntries, lruRestoredList g c1 x = LruPlacement.listOf g c owner x := by
    intro x hx
    rw [lruRestoredList, LruPlacement.listOf, hpart x hx, hmd]
  have hlisted : ∀ x, LruPlacement.Listed (LruPlacement.listOf g c owner x) := fun x =>
    LruPlacement.listed_getList (h.part x) (LruPlacement.ocfLruGetListIndex_lt x) _
  have hlines : ∀ key, LruPlacement.Listed key → ∃ hot cold,
      IsLru c1.lruNodes (c.lruLists key) hot cold ∧ ∀ x, x ∈ hot ++ cold ↔
        x < g.collisionEntries ∧ lruRestoredList g c1 x = key := by
    intro key hkey
    obtain ⟨hot, cold, hlru, hmem⟩ := lines_of_placed h hkey
    refine ⟨hot, cold, hnodes ▸ hlru, fun x => ?_⟩
    rw [hmem x]
    refine and_congr_right fun hx => ?_
    rw [hlist x hx]
  -- every line passes the checks
  have hstep : ∀ i t, i < g.collisionEntries → LruScan g c1 i t →
      ∃ t', lruRestoreCline g t i = .ok t' ∧ LruScan g c1 (i + 1) t' := by
    intro i t hi ht
    have hkey : LruPlacement.Listed (lruRestoredList g c1 i) := by
      rw [hlist i hi]
      exact hlisted i
    obtain ⟨hot, cold, hlru, hmem⟩ := hlines _ hkey
    have hin : i ∈ hot ++ cold := (hmem i).mpr ⟨hi, rfl⟩
    have hti : lruRestoredList g t i = lruRestoredList g c1 i := by
      rw [lruRestoredList, lruRestoredList, ht.md]
    have hok : ∃ t', lruRestoreCline g t i = .ok t' := by
      refine ⟨_, lruRestoreCline_eq_ok.mpr ⟨?_, ?_, ?_, ?_, rfl⟩⟩
      · rw [ht.md, hmd]
        refine hrest.restorePart hi rfl ?_
        rw [← hmd, hpart i hi]
        exact h.part i
      · rw [ht.md, ht.nodes]
        rintro ⟨hfree, hhot⟩
        have huntracked : (c.lruLists (lruRestoredList g c1 i)).trackHot = false := by
          rw [(h.holds _ hkey).1, lruRestoredList, hfree]
          rfl
        rw [hlru.untracked huntracked, List.nil_append] at hin
        rw [hlru.isCold i hin] at hhot
        cases hhot
      · rw [hti, ht.nodes]
        exact admits_of_lines ht.scanned hi hkey hlru.linked hmem
      · rw [hti, ht.nodes]
        rintro ⟨hends, hne⟩
        obtain ⟨y, hy⟩ := Option.ne_none_iff_exists'.mp hne
        obtain ⟨hyi, hky, hyends⟩ := (ht.lastHot _ hkey y).mp hy
        rw [Bool.and_eq_true] at hends hyends
        have hyin : y ∈ hot ++ cold := (hmem y).mpr ⟨by omega, hky⟩
        have hsame : y = i := Option.some.inj
          (((endsHot_iff hlru hyin).mp hyends.2).symm.trans ((endsHot_iff hlru hin).mp hends.2))
        omega
    obtain ⟨t', ht'⟩ := hok
    exact ⟨t', ht', ht.step ht'⟩
  obtain ⟨c', hc', hscan⟩ := forRange_ok (LruScan g c1) (lruScan_zero g c1) hstep
  refine ⟨c', ?_, fun key hkey => ?_, fun p hp => ?_⟩
  · rw [ocfLruRestoreRuntime, if_neg (Nat.ne_of_gt hn)]
    exact hc'
  · -- what the pass found is determined by the lines of the list
    obtain ⟨hot, cold, hlru, hmem⟩ := hlines key hkey
    obtain ⟨hhead, htail, hlen⟩ := hscan.scanned.ends_of_lines hkey hlru.linked hmem
    have htrack : (c'.lruLists key).trackHot = (c.lruLists key).trackHot := by
      rw [hscan.track key hkey, (h.holds key hkey).1]
    have hhot : ∀ x, x ∈ hot ↔ x < g.collisionEntries ∧ (decide (lruRestoredList g c1 x = key) &&
        ((c'.lruLists key).trackHot && (c1.lruNodes x).hot)) = true := by
      intro x
      simp only [Bool.and_eq_true, decide_eq_true_eq]
      constructor
      · intro hx
        obtain ⟨hlt, hkx⟩ := (hmem x).mp (List.mem_append_left cold hx)
        refine ⟨hlt, hkx, ?_, hlru.isHot x hx⟩
        rw [htrack]
        by_contra hnot
        rw [hlru.untracked (by simpa using hnot)] at hx
        cases hx
      · rintro ⟨hlt, hkx, -, hxhot⟩
        rcases List.mem_append.mp ((hmem x).mpr ⟨hlt, hkx⟩) with hx | hx
        · exact hx
        · rw [hlru.isCold x hx] at hxhot
          cases hxhot
    have hnumHot : (c'.lruLists key).numHot = (c.lruLists key).numHot := by
      rw [hscan.numHot key hkey, hlru.numHot]
      exact (length_eq_countBelow (List.nodup_append.mp hlru.nodup).1 hhot).symm
    have hlastHot : (c'.lruLists key).lastHot = (c.lruLists key).lastHot := by
      refine Option.ext fun x => ?_
      rw [hscan.lastHot key hkey x, hlru.lastHot]
      constructor
      · rintro ⟨hlt, hkx, hends⟩
        rw [Bool.and_eq_true] at hends
        exact (endsHot_iff hlru ((hmem x).mpr ⟨hlt, hkx⟩)).mp hends.2
      · intro hlast
        have hx := List.mem_of_mem_getLast? hlast
        have hflags := (hhot x).mp hx
        simp only [Bool.and_eq_true, decide_eq_true_eq] at hflags
        refine ⟨hflags.1, hflags.2.1, ?_⟩
        rw [Bool.and_eq_true]
        exact ⟨hflags.2.2.1, (endsHot_iff hlru (List.mem_append_left cold hx)).mpr hlast⟩
    have hhead' : (c'.lruLists key).head = (c.lruLists key).head := hhead.trans hlru.head.symm
    have htail' : (c'.lruLists key).tail = (c.lruLists key).tail := htail.trans hlru.tail.symm
    have hlen' : (c'.lruLists key).numNodes = (c.lruLists key).numNodes :=
      hlen.trans hlru.numNodes.symm
    calc c'.lruLists key
        = ⟨(c'.lruLists key).numNodes, (c'.lruLists key).head, (c'.lruLists key).tail,
          (c'.lruLists key).numHot, (c'.lruLists key).lastHot, (c'.lruLists key).trackHot⟩ := rfl
      _ = c.lruLists key := by rw [hlen', hhead', htail', hnumHot, hlastHot, htrack]
  · rw [hscan.size p hp, h.size p hp]
    congr 1
    refine countBelow_congr fun x hx => ?_
    rw [hpart x hx]

end Lru

/-- The LFU lists of a cache at rest are restored. -/
theorem lfu_restored {g : Geometry} {c c1 : Cache} {owner : Nat → Part}
    (hn : 0 < g.collisionEntries) (h : LfuPlacement.Placed g c owner)
    (hd : ∀ x < g.collisionEntries, owner x ≠ .freeDetached) (hrest : AtRest g c.md)
    (hmd : c1.md = c.md) (hnodes : c1.lfuNodes = c.lfuNodes) :
    ∃ c', ocfLfuRestoreRuntime g c1 = .ok c' ∧
      (∀ key, LfuPlacement.Listed key → c'.lfuLists key = c.lfuLists key) ∧
      ∀ p, p.Exists → c'.currSize p = c.currSize p := by
  have hcore : ocfCoreNum ≤ ocfErrMax := by decide
  have hpart : ∀ x < g.collisionEntries, restoredPart ocfErrMax g c1.md x = owner x := by
    intro x hx
    rw [hmd]
    exact hrest.restoredPart hx hcore (h.part x) (hd x hx) (h.id x hx)
  have hlist : ∀ x < g.collisionEntries, lfuRestoredList g c1 x = LfuPlacement.listOf c owner x := by
    intro x hx
    have hfreq : lfuRestoredFreq g c1 x = (c.lfuNodes x).freq := by
      rw [lfuRestoredFreq, hnodes, ← (h.freq x hx).2]
      exact ite_self _
    rw [lfuRestoredList, LfuPlacement.listOf, hfreq, hpart x hx, hmd, Lfu.ocfLfuGetList,
      Lfu.ocfLfuGetList]
    split
    · rfl
    · rename_i huser
      rw [h.clean x hx (by simp) huser]
  have hlisted : ∀ x < g.collisionEntries, LfuPlacement.Listed (LfuPlacement.listOf c owner x) :=
    fun x hx => LfuPlacement.listed_getList (h.part x) (LfuPlacement.ocfLfuGetShardIndex_lt x)
      (h.freq x hx).lt _
  have hlines : ∀ key, LfuPlacement.Listed key → ∃ lines,
      LfuPlacement.IsLfu c1.lfuNodes (c.lfuLists key) lines ∧ ∀ x, x ∈ lines ↔
        x < g.collisionEntries ∧ lfuRestoredList g c1 x = key := by
    intro key hkey
    obtain ⟨lines, hlfu, hmem⟩ := h.holds key hkey
    refine ⟨lines, hnodes ▸ hlfu, fun x => ?_⟩
    rw [hmem x, LfuPlacement.place, Option.ite_none_right_eq_some, Option.some.injEq]
    refine and_congr_right fun hx => ?_
    rw [hlist x hx]
  have hstep : ∀ i t, i < g.collisionEntries → LfuScan g c1 i t →
      ∃ t', lfuRestoreCline g t i = .ok t' ∧ LfuScan g c1 (i + 1) t' := by
    intro i t hi ht
    have hkey : LfuPlacement.Listed (lfuRestoredList g c1 i) := by
      rw [hlist i hi]
      exact hlisted i hi
    obtain ⟨lines, hlfu, hmem⟩ := hlines _ hkey
    have hnode : t.lfuNodes i = c1.lfuNodes i := by
      rw [ht.nodes i, if_neg (Nat.lt_irrefl i)]
    have hti : lfuRestoredList g t i = lfuRestoredList g c1 i := by
      rw [lfuRestoredList, lfuRestoredList, lfuRestoredFreq, lfuRestoredFreq, ht.md, hnode]
    have hlinks : ∀ y, (t.lfuNodes y).prev = (c1.lfuNodes y).prev ∧
        (t.lfuNodes y).next = (c1.lfuNodes y).next := by
      intro y
      rw [ht.nodes y]
      split <;> exact ⟨rfl, rfl⟩
    have hok : ∃ t', lfuRestoreCline g t i = .ok t' := by
      refine ⟨_, lfuRestoreCline_eq_ok.mpr ⟨?_, ?_, rfl⟩⟩
      · rw [ht.md, hmd]
        refine hrest.restorePart hi rfl ?_
        rw [← hmd, hpart i hi]
        exact h.part i
      · simp only [hti, hlinks]
        exact admits_of_lines ht.scanned hi hkey hlfu.linked hmem
    obtain ⟨t', ht'⟩ := hok
    exact ⟨t', ht', ht.step ht'⟩
  obtain ⟨c', hc', hscan⟩ := forRange_ok (LfuScan g c1) (lfuScan_zero g c1) hstep
  refine ⟨c', ?_, fun key hkey => ?_, fun p hp => ?_⟩
  · rw [ocfLfuRestoreRuntime, if_neg (Nat.ne_of_gt hn)]
    exact hc'
  · obtain ⟨lines, hlfu, hmem⟩ := hlines key hkey
    obtain ⟨hhead, htail, hlen⟩ := hscan.scanned.ends_of_lines hkey hlfu.linked hmem
    have hhead' : (c'.lfuLists key).head = (c.lfuLists key).head := hhead.trans hlfu.head.symm
    have htail' : (c'.lfuLists key).tail = (c.lfuLists key).tail := htail.trans hlfu.tail.symm
    have hlen' : (c'.lfuLists key).numNodes = (c.lfuLists key).numNodes :=
      hlen.trans hlfu.numNodes.symm
    calc c'.lfuLists key
        = ⟨(c'.lfuLists key).head, (c'.lfuLists key).tail, (c'.lfuLists key).numNodes⟩ := rfl
      _ = c.lfuLists key := by rw [hhead', htail', hlen']
  · rw [hscan.size p hp, h.size p hp]
    congr 1
    refine countBelow_congr fun x hx => ?_
    rw [hpart x hx]

/-- Under either policy, restoring comes to the lists and counters of every
reachable state of the policy at rest, from the metadata of the lines and the
nodes of the policy alone. -/
theorem restore_reproduces_lists {g : Geometry} (hn : 0 < g.collisionEntries) :
    (∀ start s c, LruRuns.Start g start → Reachable (LruRuns.lruSystem g) start s →
      s.cache.currSize .freeDetached = 0 → AtRest g s.cache.md →
      c.md = s.cache.md → c.lruNodes = s.cache.lruNodes → ∃ c', ocfLruRestoreRuntime g c = .ok c' ∧
        (∀ key, LruPlacement.Listed key → c'.lruLists key = s.cache.lruLists key) ∧
        ∀ p, p.Exists → c'.currSize p = s.cache.currSize p) ∧
    ∀ start s c, LfuRuns.Start g start → Reachable (LfuRuns.lfuSystem g true) start s →
      s.cache.currSize .freeDetached = 0 → AtRest g s.cache.md →
      c.md = s.cache.md → c.lfuNodes = s.cache.lfuNodes → ∃ c', ocfLfuRestoreRuntime g c = .ok c' ∧
        (∀ key, LfuPlacement.Listed key → c'.lfuLists key = s.cache.lfuLists key) ∧
        ∀ p, p.Exists → c'.currSize p = s.cache.currSize p := by
  have hdetached : Part.freeDetached.Exists := trivial
  constructor
  · intro start s c h0 h hzero hrest hmd hnodes
    obtain ⟨hplaced, -⟩ := LruRuns.reachable_placed h0 h
    have hd := ne_of_size_zero (hplaced.size .freeDetached hdetached) hzero
    exact lru_restored hn hplaced hd hrest hmd hnodes
  · intro start s c h0 h hzero hrest hmd hnodes
    have hplaced := (LfuRuns.reachable_inv h0 h).placed
    have hd := ne_of_size_zero (hplaced.size .freeDetached hdetached) hzero
    exact lfu_restored hn hplaced hd hrest hmd hnodes

/-- Being at rest as a check. -/
def atRest (g : Geometry) (md : LineTable) : Bool :=
  (List.range g.collisionEntries).all fun x =>
    (if md.partitionId x = partitionFreelist then !metadataTestValidAny g md x
      else metadataTestValidAny g md x && decide ((md.coreInfo x).1 < ocfCoreNum)) &&
    decide ((md.coreInfo x).1 ≤ ocfCoreNum) && ocfMetadataCheck g md x

theorem atRest_of_check {g : Geometry} {md : LineTable} (h : atRest g md = true) : AtRest g md := by
  have hline : ∀ x < g.collisionEntries,
      (if md.partitionId x = partitionFreelist then !metadataTestValidAny g md x
        else metadataTestValidAny g md x && decide ((md.coreInfo x).1 < ocfCoreNum)) = true ∧
      (md.coreInfo x).1 ≤ ocfCoreNum ∧ ocfMetadataCheck g md x = true := by
    intro x hx
    have hall := List.all_eq_true.mp h x (List.mem_range.mpr hx)
    rw [Bool.and_eq_true, Bool.and_eq_true, decide_eq_true_eq] at hall
    exact ⟨hall.1.1, hall.1.2, hall.2⟩
  have huser : ∀ x < g.collisionEntries, md.partitionId x ≠ partitionFreelist →
      metadataTestValidAny g md x = true ∧ (md.coreInfo x).1 < ocfCoreNum := by
    intro x hx hne
    have hparts := (hline x hx).1
    rw [if_neg hne, Bool.and_eq_true, decide_eq_true_eq] at hparts
    exact hparts
  refine ⟨fun x hx hne => (huser x hx hne).1, fun x hx hne => (huser x hx hne).2,
    fun x hx hfree => ?_, fun x hx => (hline x hx).2.1, fun x hx => (hline x hx).2.2⟩
  have hparts := (hline x hx).1
  rw [if_pos hfree, Bool.not_eq_true'] at hparts
  exact hparts

/-- Lines 0 and 1 hold data of a core. -/
def withData (c : Cache) : Cache :=
  { c with md :=
    { c.md with
      valid := fun x i => decide (x < 2) && decide (i = 0)
      coreInfo := fun x => if x < 2 then (0, x) else (ocfCoreNum, ullongMax) } }

/-- Two lines of three hold data in a user partition, one of them hot. -/
theorem restore_reproduces_lists_three : ∃ start s c', LruRuns.Start LruRuns.threeLines start ∧
    Reachable (LruRuns.lruSystem LruRuns.threeLines) start s ∧
    s.cache.currSize (.user 1) = 2 ∧ (s.cache.lruLists ⟨.user 1, 0, true⟩).lastHot = some 1 ∧
    ocfLruRestoreRuntime LruRuns.threeLines
      { s.cache with lruLists := fun _ => lruInit false, currSize := fun _ => 0 } = .ok c' ∧
    (∀ key, LruPlacement.Listed key → c'.lruLists key = s.cache.lruLists key) ∧
    ∀ p, p.Exists → c'.currSize p = s.cache.currSize p := by
  let start := LruRuns.startThree (fun _ => ⟨0, 100, true, 0⟩) [1, 2]
  let data : LruRuns.State := ⟨withData start.cache, start.owner⟩
  have hstart : LruRuns.Start LruRuns.threeLines start := LruRuns.start_startThree (by decide +kernel)
  have hdata : Reachable (LruRuns.lruSystem LruRuns.threeLines) start data := by
    refine Reachable.next (.refl trivial) (.other data.cache) ⟨rfl, rfl, rfl, rfl, ?_, ?_⟩ rfl
    · exact fun _ _ => rfl
    · exact fun _ _ _ => rfl
  let ops : List LruRuns.Op := [.repart 0 .free (.user 1), .repart 1 .free (.user 1)]
  have hvals : (LruRuns.exec LruRuns.threeLines data ops).map (fun s =>
      (s.cache.currSize (.user 1), (s.cache.lruLists ⟨.user 1, 0, true⟩).lastHot,
        s.cache.currSize .freeDetached, atRest LruRuns.threeLines s.cache.md)) =
      some (2, some 1, 0, true) := by decide +kernel
  obtain ⟨s, hs, hview⟩ := Option.map_eq_some_iff.mp hvals
  simp only [Prod.mk.injEq] at hview
  obtain ⟨hsize, hhot, hdetached, hrest⟩ := hview
  have hallowed : LruRuns.Allowed LruRuns.threeLines data ops := by
    refine ⟨⟨by decide, rfl, by decide⟩, fun t ht => ⟨⟨by decide, ?_, by decide⟩, fun _ _ => trivial⟩⟩
    have hown : (LruRuns.step LruRuns.threeLines data (.repart 0 .free (.user 1))).map (·.owner 1) =
        some .free := by decide +kernel
    rw [ht, Option.map_some, Option.some.injEq] at hown
    exact hown
  have hreach := LruRuns.exec_reachable hdata hallowed hs
  obtain ⟨c', hok, hlists, hsizes⟩ := (restore_reproduces_lists (g := LruRuns.threeLines)
    (by decide)).1 start s _ hstart hreach hdetached (atRest_of_check hrest)
      (show ({ s.cache with lruLists := fun _ => lruInit false, currSize := fun _ => 0 } : Cache).md =
        s.cache.md from rfl) rfl
  exact ⟨start, s, c', hstart, hreach, hsize, hhot, hok, hlists, hsizes⟩

end OcfCache.RestoreRuns
