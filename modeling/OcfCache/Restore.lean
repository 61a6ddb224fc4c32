import OcfCache.LfuRuns
import OcfCache.ListRestore

/-!
# Restoring the eviction lists

Embedding of `ocf_lru_restore_runtime` and `ocf_lfu_restore_runtime`, which
rebuild the lists of a policy from the metadata that a clean shutdown left. A
line goes to the free list or to a user partition by its status bits and core;
its neighbours, the ends of its list and the end of the hot part are checked.
Well-formedness of the result depends on more than these checks, and the module
says on what.
-/

namespace OcfCache.Restore

open Function Loops Metadata LinkedLists ListRestore LruList Partitions

/-- How a restoration ends other than by success. -/
inductive Failure
  /-- `-OCF_ERR_INVAL`. -/
  | inval
  /-- A failed `ENV_BUG_ON`. -/
  | bug
  /-- Without cache lines the return value is not set. -/
  | unset
  deriving DecidableEq, Repr

/-- `OCF_ERR_MAX`. -/
def ocfErrMax : Nat := 1000055

/-- `ocf_metadata_check`. -/
def ocfMetadataCheck (g : Geometry) (md : LineTable) (line : Nat) : Bool :=
  testAll (fun i => !md.dirty line i || md.valid line i) 0 g.endBlock

/-- Partition of a line by its status bits and core. Lines of the core
`noCore` are free. -/
def restoredPart (noCore : Nat) (g : Geometry) (md : LineTable) (line : Nat) : Part :=
  if metadataTestValidAny g md line = false ∨ (md.coreInfo line).1 = noCore then .free
  else .user (md.partitionId line)

/-- The first checks of `ocf_lru_restore_cline` and `ocf_lfu_restore_cline`.
The partition behind the last one has an id but no lists. -/
def restorePart (noCore : Nat) (g : Geometry) (md : LineTable) (line : Nat) : Except Failure Part :=
  if ocfMetadataCheck g md line = false ∨ ocfCoreNum < (md.coreInfo line).1 then .error .inval
  else
    match restoredPart noCore g md line with
    | .user id =>
      if ocfUserIoClassMax < id then .error .inval
      else if id = ocfUserIoClassMax then .error .bug
      else .ok (.user id)
    | part => .ok part

/-- The neighbours of a line point back to it. -/
def neighbours (prev next : Nat → Option Nat) (line : Nat) : Bool :=
  (match prev line with
    | none => true
    | some p => next p == some line) &&
  match next line with
  | none => true
  | some q => prev q == some line

/-- The line ends the hot part of a list. -/
def endsHot (nodes : Nodes) (line : Nat) : Bool :=
  (nodes line).hot &&
    match (nodes line).next with
    | none => true
    | some y => !(nodes y).hot

/-- `ocf_lru_restore_cline`. -/
def lruRestoreCline (g : Geometry) (c : Cache) (line : Nat) : Except Failure Cache :=
  match restorePart ocfCoreNum g c.md line with
  | .error e => .error e
  | .ok part =>
    let node := c.lruNodes line
    let key := Lru.ocfLruGetList part (Lru.ocfLruGetListIndex line) (!metadataTestDirty g c.md line)
    let l := c.lruLists key
    if part = .free ∧ node.hot = true then .error .inval
    else if neighbours (fun y => (c.lruNodes y).prev) (fun y => (c.lruNodes y).next) line = false then
      .error .inval
    else if node.prev = none ∧ l.head ≠ none ∨ node.next = none ∧ l.tail ≠ none then .error .inval
    else if (l.trackHot && endsHot c.lruNodes line) = true ∧ l.lastHot ≠ none then .error .inval
    else .ok
      { c.addSize part 1 with
        lruLists := update c.lruLists key
          { l with
            numNodes := l.numNodes + 1
            head := if node.prev = none then some line else l.head
            tail := if node.next = none then some line else l.tail
            numHot := if (l.trackHot && node.hot) = true then l.numHot + 1 else l.numHot
            lastHot := if (l.trackHot && endsHot c.lruNodes line) = true then some line
              else l.lastHot } }

/-- `ocf_lru_restore_runtime`. -/
def ocfLruRestoreRuntime (g : Geometry) (c : Cache) : Except Failure Cache :=
  if g.collisionEntries = 0 then .error .unset
  else forRange g.collisionEntries (fun s x => s.bind fun c => lruRestoreCline g c x)
    (.ok (LruRuns.initPolicy c))

/-- `ocf_lfu_restore_cline`. -/
def lfuRestoreCline (g : Geometry) (c : Cache) (line : Nat) : Except Failure Cache :=
  match restorePart ocfErrMax g c.md line with
  | .error e => .error e
  | .ok part =>
    -- the bucket of a line in a user partition is computed again
    let c := if part = .free then c
      else Lfu.setLfuNode c line fun m => { m with freq := Lfu.ocfLfuHitsToFreq m.hits }
    let node := c.lfuNodes line
    let key := Lfu.ocfLfuGetList part (Lfu.ocfLfuGetShardIndex line) node.freq
      (!metadataTestDirty g c.md line)
    let l := c.lfuLists key
    if neighbours (fun y => (c.lfuNodes y).prev) (fun y => (c.lfuNodes y).next) line = false then
      .error .inval
    else if node.prev = none ∧ l.head ≠ none ∨ node.next = none ∧ l.tail ≠ none then .error .inval
    else .ok
      { c.addSize part 1 with
        lfuLists := update c.lfuLists key
          { head := if node.prev = none then some line else l.head
            tail := if node.next = none then some line else l.tail
            numNodes := l.numNodes + 1 } }

/-- `ocf_lfu_restore_runtime`. -/
def ocfLfuRestoreRuntime (g : Geometry) (c : Cache) : Except Failure Cache :=
  if g.collisionEntries = 0 then .error .unset
  else forRange g.collisionEntries (fun s x => s.bind fun c => lfuRestoreCline g c x)
    (.ok (LfuRuns.initPolicy c))

variable {x : Nat} {g : Geometry} {c c' : Cache}

theorem neighbours_eq_true {prev next : Nat → Option Nat} :
    neighbours prev next x = true ↔ (∀ p, prev x = some p → next p = some x) ∧
      ∀ q, next x = some q → prev q = some x := by
  rw [neighbours, Bool.and_eq_true]
  refine and_congr ?_ ?_
  · cases prev x with
    | none => simp
    | some p => simp
  · cases next x with
    | none => simp
    | some q => simp

theorem ite_error_eq_ok {ε α : Type} {p : Prop} [Decidable p] {e : ε} {t : Except ε α} {a : α} :
    (if p then .error e else t) = .ok a ↔ ¬p ∧ t = .ok a := by
  by_cases hp : p
  · simp [hp]
  · simp [hp]

theorem admits_iff {prev next : Nat → Option Nat} {e : Ends} :
    Admits prev next e x ↔ neighbours prev next x = true ∧
      ¬(prev x = none ∧ e.head ≠ none ∨ next x = none ∧ e.tail ≠ none) := by
  rw [neighbours_eq_true, not_or, not_and_not_right, not_and_not_right]
  exact ⟨fun h => ⟨⟨h.prevOk, h.nextOk⟩, h.headOk, h.tailOk⟩,
    fun ⟨⟨h1, h2⟩, h3, h4⟩ => ⟨h1, h2, h3, h4⟩⟩

theorem restorePart_eq_ok {noCore : Nat} {md : LineTable} {part : Part} :
    restorePart noCore g md x = .ok part ↔
      (ocfMetadataCheck g md x = true ∧ (md.coreInfo x).1 ≤ ocfCoreNum) ∧
      restoredPart noCore g md x = part ∧ part.Exists := by
  rw [restorePart]
  by_cases hcheck : ocfMetadataCheck g md x = false ∨ ocfCoreNum < (md.coreInfo x).1
  · rw [if_pos hcheck]
    simp only [reduceCtorEq, false_iff]
    rintro ⟨⟨hm, hc⟩, -⟩
    rcases hcheck with h | h
    · rw [hm] at h
      cases h
    · omega
  · rw [if_neg hcheck]
    push Not at hcheck
    have hok : ocfMetadataCheck g md x = true ∧ (md.coreInfo x).1 ≤ ocfCoreNum :=
      ⟨by simpa using hcheck.1, hcheck.2⟩
    simp only [hok, true_and]
    cases hpart : restoredPart noCore g md x with
    | user id =>
      simp only
      by_cases hlt : id < ocfUserIoClassMax
      · have h1 : ¬ocfUserIoClassMax < id := by omega
        have h2 : id ≠ ocfUserIoClassMax := by omega
        rw [if_neg h1, if_neg h2]
        constructor
        · intro h
          cases h
          exact ⟨rfl, hlt⟩
        · rintro ⟨rfl, -⟩
          rfl
      · have hnot : ¬(Part.user id = part ∧ part.Exists) := by
          rintro ⟨rfl, hex⟩
          exact hlt hex
        simp only [hnot, iff_false]
        split
        · nofun
        · rw [if_pos (by omega)]
          nofun
    | free =>
      constructor
      · intro h
        cases h
        exact ⟨rfl, trivial⟩
      · rintro ⟨rfl, -⟩
        rfl
    | freeDetached =>
      rw [restoredPart] at hpart
      split at hpart <;> cases hpart

/-- The list that restoring puts a line on. -/
def lruRestoredList (g : Geometry) (c : Cache) (x : Nat) : ListKey :=
  Lru.ocfLruGetList (restoredPart ocfCoreNum g c.md x) (Lru.ocfLruGetListIndex x)
    (!metadataTestDirty g c.md x)

/-- Ends of an LRU list. -/
def lruEnds (c : Cache) (key : ListKey) : Ends :=
  ⟨(c.lruLists key).head, (c.lruLists key).tail, (c.lruLists key).numNodes⟩

/-- The list with one more line. -/
def lruExtend (nodes : Nodes) (l : LruHead) (x : Nat) : LruHead :=
  { l with
    numNodes := l.numNodes + 1
    head := if (nodes x).prev = none then some x else l.head
    tail := if (nodes x).next = none then some x else l.tail
    numHot := if (l.trackHot && (nodes x).hot) = true then l.numHot + 1 else l.numHot
    lastHot := if (l.trackHot && endsHot nodes x) = true then some x else l.lastHot }

theorem lruRestoreCline_eq_ok : lruRestoreCline g c x = .ok c' ↔
      restorePart ocfCoreNum g c.md x = .ok (restoredPart ocfCoreNum g c.md x) ∧
      ¬(restoredPart ocfCoreNum g c.md x = .free ∧ (c.lruNodes x).hot = true) ∧
      Admits (fun y => (c.lruNodes y).prev) (fun y => (c.lruNodes y).next)
        (lruEnds c (lruRestoredList g c x)) x ∧
      ¬(((c.lruLists (lruRestoredList g c x)).trackHot && endsHot c.lruNodes x) = true ∧
        (c.lruLists (lruRestoredList g c x)).lastHot ≠ none) ∧
      c' = { c.addSize (restoredPart ocfCoreNum g c.md x) 1 with
        lruLists := update c.lruLists (lruRestoredList g c x)
          (lruExtend c.lruNodes (c.lruLists (lruRestoredList g c x)) x) } := by
  rw [lruRestoreCline]
  cases hpart : restorePart ocfCoreNum g c.md x with
  | error e => simp
  | ok part =>
    obtain ⟨-, rfl, -⟩ := restorePart_eq_ok.mp hpart
    simp only [ite_error_eq_ok, true_and, admits_iff, Except.ok.injEq]
    exact ⟨fun ⟨h1, h2, h3, h4, h5⟩ => ⟨h1, ⟨Bool.not_eq_false _ ▸ h2, h3⟩, h4, h5.symm⟩,
      fun ⟨h1, ⟨h2, h3⟩, h4, h5⟩ => ⟨h1, (Bool.not_eq_false _).mpr h2, h3, h4, h5.symm⟩⟩

/-- The LRU lists after the first lines were restored. -/
structure LruScan (g : Geometry) (c0 : Cache) (n : Nat) (c : Cache) : Prop where
  /-- The metadata stays. -/
  md : c.md = c0.md
  /-- The nodes stay. -/
  nodes : c.lruNodes = c0.lruNodes
  /-- Partitions of the lines exist. -/
  part : ∀ x < n, (restoredPart ocfCoreNum g c0.md x).Exists
  /-- Ends and lengths of the lists. -/
  scanned : Scanned LruPlacement.Listed (lruRestoredList g c0) (fun y => (c0.lruNodes y).prev)
    (fun y => (c0.lruNodes y).next) n (lruEnds c)
  /-- User lists track hot lines. -/
  track : ∀ key, LruPlacement.Listed key →
    (c.lruLists key).trackHot = decide (key.part.id ≠ partitionFreelist)
  /-- The number of hot lines. -/
  numHot : ∀ key, LruPlacement.Listed key → (c.lruLists key).numHot =
    countBelow (fun x => decide (lruRestoredList g c0 x = key) &&
      ((c.lruLists key).trackHot && (c0.lruNodes x).hot)) n
  /-- The end of the hot part. -/
  lastHot : ∀ key, LruPlacement.Listed key → ∀ x, (c.lruLists key).lastHot = some x ↔
    x < n ∧ lruRestoredList g c0 x = key ∧
      ((c.lruLists key).trackHot && endsHot c0.lruNodes x) = true
  /-- The counters. -/
  size : ∀ p, p.Exists → c.currSize p =
    countBelow (fun x => decide (restoredPart ocfCoreNum g c0.md x = p)) n

theorem lruScan_zero (g : Geometry) (c : Cache) : LruScan g c 0 (LruRuns.initPolicy c) := by
  obtain ⟨hready, hmd, -⟩ := LruRuns.initPolicy_spec c
  have hlist : ∀ key, LruPlacement.Listed key → (LruRuns.initPolicy c).lruLists key =
      lruInit (decide (key.part.id ≠ partitionFreelist)) :=
    fun key hkey => (hready key.part hkey.1).2 key hkey rfl
  refine ⟨hmd, LruRuns.initPolicy_nodes c, nofun, scanned_zero fun key hkey => ?_, fun key hkey => ?_,
    fun key hkey => ?_, fun key hkey x => ?_, fun p hp => ?_⟩
  · rw [lruEnds, hlist key hkey]
    rfl
  · rw [hlist key hkey]
    rfl
  · rw [hlist key hkey]
    rfl
  · rw [hlist key hkey]
    simp [lruInit]
  · rw [(hready p hp).1]
    rfl

/-- One more line is restored. -/
theorem LruScan.step {c0 : Cache} {n : Nat} (h : LruScan g c0 n c)
    (hstep : lruRestoreCline g c n = .ok c') : LruScan g c0 (n + 1) c' := by
  obtain ⟨hpart, -, hadmit, hlast, rfl⟩ := lruRestoreCline_eq_ok.mp hstep
  have hlist : lruRestoredList g c n = lruRestoredList g c0 n := by
    rw [lruRestoredList, lruRestoredList, h.md]
  rw [hlist, h.nodes] at hadmit hlast
  rw [h.md] at hpart
  have hexists := (restorePart_eq_ok.mp hpart).2.2
  have hlists : ∀ key, update c.lruLists (lruRestoredList g c0 n)
      (lruExtend c0.lruNodes (c.lruLists (lruRestoredList g c0 n)) n) key =
      if key = lruRestoredList g c0 n then lruExtend c0.lruNodes (c.lruLists key) n
      else c.lruLists key := by
    intro key
    by_cases hk : key = lruRestoredList g c0 n
    · subst hk
      rw [update_self, if_pos rfl]
    · rw [update_of_ne hk, if_neg hk]
  have htrack : ∀ key, (update c.lruLists (lruRestoredList g c0 n)
      (lruExtend c0.lruNodes (c.lruLists (lruRestoredList g c0 n)) n) key).trackHot =
      (c.lruLists key).trackHot := by
    intro key
    rw [hlists key]
    split <;> rfl
  rw [hlist, h.nodes, h.md]
  refine ⟨h.md, h.nodes, fun x hx => ?_, h.scanned.step hadmit fun key hkey => ?_,
    fun key hkey => ?_, fun key hkey => ?_, fun key hkey x => ?_, fun p hp => ?_⟩
  · rcases Nat.lt_succ_iff_lt_or_eq.mp hx with hx | rfl
    · exact h.part x hx
    · exact hexists
  · simp only [lruEnds, hlists key]
    split <;> rfl
  · rw [← h.track key hkey]
    exact htrack key
  · simp only [htrack key, countBelow_succ]
    rw [← h.numHot key hkey, hlists key]
    by_cases hk : key = lruRestoredList g c0 n
    · rw [if_pos hk, lruExtend]
      simp only [hk, decide_true, Bool.true_and]
      cases ((c.lruLists (lruRestoredList g c0 n)).trackHot && (c0.lruNodes n).hot) <;> rfl
    · rw [if_neg hk]
      simp [Ne.symm hk]
  · simp only [htrack key]
    rw [hlists key]
    have honly := only_step (p := fun x => lruRestoredList g c0 x = key ∧
      ((c.lruLists key).trackHot && endsHot c0.lruNodes x) = true) (h.lastHot key hkey) ?_ x
    · rw [← honly]
      by_cases hk : key = lruRestoredList g c0 n
      · rw [if_pos hk, lruExtend]
        simp [hk]
      · rw [if_neg hk]
        simp [Ne.symm hk]
    · rintro ⟨rfl, hends⟩
      by_contra hne
      exact hlast ⟨hends, hne⟩
  · rw [countBelow_succ]
    simp only [Cache.addSize]
    by_cases hpp : p = restoredPart ocfCoreNum g c0.md n
    · subst hpp
      simp [h.size _ hp]
    · simp [update_of_ne hpp, Ne.symm hpp, h.size p hp]

theorem lruScan_of_ok (h : ocfLruRestoreRuntime g c = .ok c') :
    LruScan g c g.collisionEntries c' := by
  rw [ocfLruRestoreRuntime, ite_error_eq_ok] at h
  exact forRange_except (LruScan g c) (lruScan_zero g c) (fun i t t' _ ht hstep => ht.step hstep) h.2

/-- The bucket that restoring puts a line in. -/
def lfuRestoredFreq (g : Geometry) (c : Cache) (x : Nat) : Nat :=
  if restoredPart ocfErrMax g c.md x = .free then (c.lfuNodes x).freq
  else Lfu.ocfLfuHitsToFreq (c.lfuNodes x).hits

/-- The list that restoring puts a line on. -/
def lfuRestoredList (g : Geometry) (c : Cache) (x : Nat) : LfuKey :=
  Lfu.ocfLfuGetList (restoredPart ocfErrMax g c.md x) (Lfu.ocfLfuGetShardIndex x)
    (lfuRestoredFreq g c x) (!metadataTestDirty g c.md x)

/-- Ends of an LFU list. -/
def lfuEnds (c : Cache) (key : LfuKey) : Ends :=
  ⟨(c.lfuLists key).head, (c.lfuLists key).tail, (c.lfuLists key).numNodes⟩

/-- The list with one more line. -/
def lfuExtend (nodes : Nat → LfuMeta) (l : LfuHead) (x : Nat) : LfuHead where
  head := if (nodes x).prev = none then some x else l.head
  tail := if (nodes x).next = none then some x else l.tail
  numNodes := l.numNodes + 1

/-- The bucket is written to the node. -/
def lfuRefreq (g : Geometry) (c : Cache) (x : Nat) : Cache :=
  if restoredPart ocfErrMax g c.md x = .free then c
  else Lfu.setLfuNode c x fun m => { m with freq := Lfu.ocfLfuHitsToFreq m.hits }

theorem lfuRefreq_node (g : Geometry) (c : Cache) (x y : Nat) : (lfuRefreq g c x).lfuNodes y =
    if y = x then { c.lfuNodes x with freq := lfuRestoredFreq g c x } else c.lfuNodes y := by
  rw [lfuRefreq]
  by_cases hy : y = x
  · subst hy
    by_cases hf : restoredPart ocfErrMax g c.md y = .free
    · rw [if_pos hf, if_pos rfl, lfuRestoredFreq, if_pos hf]
    · rw [if_neg hf, if_pos rfl, lfuRestoredFreq, if_neg hf, LfuPlacement.setLfuNode_same]
  · rw [if_neg hy]
    split
    · rfl
    · exact LfuPlacement.setLfuNode_of_ne hy

theorem lfuRefreq_prev (g : Geometry) (c : Cache) (x : Nat) :
    (fun y => ((lfuRefreq g c x).lfuNodes y).prev) = fun y => (c.lfuNodes y).prev := by
  funext y
  rw [lfuRefreq_node]
  split
  · rename_i hy
    rw [hy]
  · rfl

theorem lfuRefreq_next (g : Geometry) (c : Cache) (x : Nat) :
    (fun y => ((lfuRefreq g c x).lfuNodes y).next) = fun y => (c.lfuNodes y).next := by
  funext y
  rw [lfuRefreq_node]
  split
  · rename_i hy
    rw [hy]
  · rfl

theorem lfuRefreq_other (g : Geometry) (c : Cache) (x : Nat) :
    (lfuRefreq g c x).md = c.md ∧ (lfuRefreq g c x).lfuLists = c.lfuLists ∧
      (lfuRefreq g c x).currSize = c.currSize := by
  rw [lfuRefreq]
  split <;> exact ⟨rfl, rfl, rfl⟩

theorem lfuRestoreCline_eq_ok : lfuRestoreCline g c x = .ok c' ↔
      restorePart ocfErrMax g c.md x = .ok (restoredPart ocfErrMax g c.md x) ∧
      Admits (fun y => (c.lfuNodes y).prev) (fun y => (c.lfuNodes y).next)
        (lfuEnds c (lfuRestoredList g c x)) x ∧
      c' = { (lfuRefreq g c x).addSize (restoredPart ocfErrMax g c.md x) 1 with
        lfuLists := update c.lfuLists (lfuRestoredList g c x)
          (lfuExtend c.lfuNodes (c.lfuLists (lfuRestoredList g c x)) x) } := by
  rw [lfuRestoreCline]
  cases hpart : restorePart ocfErrMax g c.md x with
  | error e => simp
  | ok part =>
    obtain ⟨-, rfl, -⟩ := restorePart_eq_ok.mp hpart
    obtain ⟨hmd, hlists, -⟩ := lfuRefreq_other g c x
    have hnode := lfuRefreq_node g c x x
    rw [if_pos rfl] at hnode
    have hprev := lfuRefreq_prev g c x
    have hnext := lfuRefreq_next g c x
    simp only [← lfuRefreq.eq_def, hmd, hlists, hnode, hprev, hnext, ite_error_eq_ok, true_and,
      admits_iff, Except.ok.injEq]
    exact ⟨fun ⟨h2, h3, h5⟩ => ⟨⟨Bool.not_eq_false _ ▸ h2, h3⟩, h5.symm⟩,
      fun ⟨⟨h2, h3⟩, h5⟩ => ⟨(Bool.not_eq_false _).mpr h2, h3, h5.symm⟩⟩

/-- The LFU lists after the first lines were restored. -/
structure LfuScan (g : Geometry) (c0 : Cache) (n : Nat) (c : Cache) : Prop where
  /-- The metadata stays. -/
  md : c.md = c0.md
  /-- The nodes have their bucket. -/
  nodes : ∀ y, c.lfuNodes y =
    if y < n then { c0.lfuNodes y with freq := lfuRestoredFreq g c0 y } else c0.lfuNodes y
  /-- Partitions of the lines exist. -/
  part : ∀ x < n, (restoredPart ocfErrMax g c0.md x).Exists
  /-- Ends and lengths of the lists. -/
  scanned : Scanned LfuPlacement.Listed (lfuRestoredList g c0) (fun y => (c0.lfuNodes y).prev)
    (fun y => (c0.lfuNodes y).next) n (lfuEnds c)
  /-- The counters. -/
  size : ∀ p, p.Exists → c.currSize p =
    countBelow (fun x => decide (restoredPart ocfErrMax g c0.md x = p)) n

theorem lfuScan_zero (g : Geometry) (c : Cache) : LfuScan g c 0 (LfuRuns.initPolicy c) := by
  obtain ⟨hready, hmd, -⟩ := LfuRuns.initPolicy_spec c
  refine ⟨hmd, fun y => ?_, nofun, scanned_zero fun key hkey => ?_, fun p hp => ?_⟩
  · rw [if_neg (Nat.not_lt_zero y), LfuRuns.initPolicy_nodes]
  · rw [lfuEnds, (hready key.part hkey.1).2 key hkey rfl]
    rfl
  · rw [(hready p hp).1]
    rfl

theorem LfuScan.step {c0 : Cache} {n : Nat} (h : LfuScan g c0 n c)
    (hstep : lfuRestoreCline g c n = .ok c') : LfuScan g c0 (n + 1) c' := by
  obtain ⟨hpart, hadmit, rfl⟩ := lfuRestoreCline_eq_ok.mp hstep
  have hnode : c.lfuNodes n = c0.lfuNodes n := by
    rw [h.nodes n, if_neg (Nat.lt_irrefl n)]
  have hfreq : lfuRestoredFreq g c n = lfuRestoredFreq g c0 n := by
    rw [lfuRestoredFreq, lfuRestoredFreq, h.md, hnode]
  have hlist : lfuRestoredList g c n = lfuRestoredList g c0 n := by
    rw [lfuRestoredList, lfuRestoredList, h.md, hfreq]
  have hlinks : ∀ y, (c.lfuNodes y).prev = (c0.lfuNodes y).prev ∧
      (c.lfuNodes y).next = (c0.lfuNodes y).next := by
    intro y
    rw [h.nodes y]
    split <;> exact ⟨rfl, rfl⟩
  obtain ⟨hmd, -, hsize⟩ := lfuRefreq_other g c n
  simp only [hlinks, hlist] at hadmit
  rw [h.md] at hpart
  have hexists := (restorePart_eq_ok.mp hpart).2.2
  rw [hlist, h.md]
  refine ⟨hmd.trans h.md, fun y => ?_, fun x hx => ?_, h.scanned.step hadmit fun key hkey => ?_,
    fun p hp => ?_⟩
  · simp only [Cache.addSize]
    rw [lfuRefreq_node, hfreq, hnode]
    by_cases hy : y = n
    · subst hy
      rw [if_pos rfl, if_pos (Nat.lt_succ_self y)]
    · rw [if_neg hy, h.nodes y]
      have hlt : y < n + 1 ↔ y < n := by omega
      simp only [hlt]
  · rcases Nat.lt_succ_iff_lt_or_eq.mp hx with hx | rfl
    · exact h.part x hx
    · exact hexists
  · by_cases hk : key = lfuRestoredList g c0 n
    · subst hk
      rw [if_pos rfl]
      simp only [lfuEnds, update_self, lfuExtend, Ends.add, hnode]
    · rw [if_neg hk]
      simp only [lfuEnds, update_of_ne hk]
  · rw [countBelow_succ]
    simp only [Cache.addSize, hsize]
    by_cases hpp : p = restoredPart ocfErrMax g c0.md n
    · subst hpp
      simp [h.size _ hp]
    · simp [update_of_ne hpp, Ne.symm hpp, h.size p hp]

theorem lfuScan_of_ok (h : ocfLfuRestoreRuntime g c = .ok c') :
    LfuScan g c g.collisionEntries c' := by
  rw [ocfLfuRestoreRuntime, ite_error_eq_ok] at h
  exact forRange_except (LfuScan g c) (lfuScan_zero g c) (fun i t t' _ ht hstep => ht.step hstep) h.2

/-- Links name cache lines. -/
def LinksInRange (prev next : Nat → Option Nat) (n : Nat) : Prop :=
  ∀ x < n, (∀ y, prev x = some y → y < n) ∧ ∀ y, next x = some y → y < n

/-- No link leads from one list to another, and the way back from any line
ends. -/
def LinksApart {κ : Type} (key : Nat → κ) (prev next : Nat → Option Nat) (n : Nat) : Prop :=
  (∀ x < n, ∀ y, next x = some y → key y = key x) ∧ ∀ x < n, ∃ d, Depth prev d x

/-- Of the metadata that a restoration accepts, for either policy, exactly that
gives well formed lists whose links stay on their lists and form no cycle. The
buckets of LFU nodes are numbers of four bits. -/
theorem restored_wellFormed_iff (g : Geometry) (c c' : Cache) :
    (LinksInRange (fun x => (c.lruNodes x).prev) (fun x => (c.lruNodes x).next) g.collisionEntries →
      ocfLruRestoreRuntime g c = .ok c' →
      ((∀ key, LruPlacement.Listed key → WellFormed (lruRestoredList g c)
          (fun x => (c'.lruNodes x).prev) (fun x => (c'.lruNodes x).next) g.collisionEntries key
          (lruEnds c' key)) ↔ LinksApart (lruRestoredList g c) (fun x => (c.lruNodes x).prev)
          (fun x => (c.lruNodes x).next) g.collisionEntries)) ∧
    (LinksInRange (fun x => (c.lfuNodes x).prev) (fun x => (c.lfuNodes x).next) g.collisionEntries →
      (∀ x < g.collisionEntries, (c.lfuNodes x).freq < Lfu.lfuMaxFreq) →
      ocfLfuRestoreRuntime g c = .ok c' →
      ((∀ key, LfuPlacement.Listed key → WellFormed (lfuRestoredList g c)
          (fun x => (c'.lfuNodes x).prev) (fun x => (c'.lfuNodes x).next) g.collisionEntries key
          (lfuEnds c' key)) ↔ LinksApart (lfuRestoredList g c) (fun x => (c.lfuNodes x).prev)
          (fun x => (c.lfuNodes x).next) g.collisionEntries)) := by
  constructor
  · intro hrange hok
    have hscan := lruScan_of_ok hok
    rw [hscan.nodes]
    refine hscan.scanned.wellFormed_iff (fun x hx => ?_) (fun x hx => (hrange x hx).1)
      fun x hx => (hrange x hx).2
    exact LruPlacement.listed_getList (hscan.part x hx) (LruPlacement.ocfLruGetListIndex_lt x) _
  · intro hrange hfreq hok
    have hscan := lfuScan_of_ok hok
    have hlinks : ∀ y, (c'.lfuNodes y).prev = (c.lfuNodes y).prev ∧
        (c'.lfuNodes y).next = (c.lfuNodes y).next := by
      intro y
      rw [hscan.nodes y]
      split <;> exact ⟨rfl, rfl⟩
    simp only [hlinks]
    refine hscan.scanned.wellFormed_iff (fun x hx => ?_) (fun x hx => (hrange x hx).1)
      fun x hx => (hrange x hx).2
    refine LfuPlacement.listed_getList (hscan.part x hx) (LfuPlacement.ocfLfuGetShardIndex_lt x) ?_ _
    rw [lfuRestoredFreq]
    split
    · exact hfreq x hx
    · exact Nat.lt_of_le_of_lt (Nat.min_le_right _ _) (by decide)

/-- A cache with one block a line. -/
def smallCache (lines : Nat) : Geometry := ⟨1, Nat.one_pos, 1, lines, 0⟩

/-- Free lines with the given links. -/
def withLinks (prev next : Nat → Option Nat) : Cache :=
  { LruRuns.blankCache (fun _ => ⟨0, 100, true, 0⟩) [] with
    lruNodes := fun x => ⟨prev x, next x, false⟩
    lfuNodes := fun x => ⟨prev x, next x, true, 0, 0⟩ }

theorem exists_ok {ε α β : Type} {r : Except ε α} {f : α → β} {b : β}
    (h : r.toOption.map f = some b) : ∃ a, r = .ok a ∧ f a = b := by
  cases r with
  | error e => cases h
  | ok a => exact ⟨a, rfl, Option.some.inj h⟩

/-- The line before the second line. -/
def lineBefore (x : Nat) : Option Nat := if x = 1 then some 0 else none

/-- The line behind the first line. -/
def lineBehind (x : Nat) : Option Nat := if x = 0 then some 1 else none

/-- Two linked free lines are restored to one list, with either policy. -/
theorem restored_wellFormed_iff_linked :
    (∃ c', ocfLruRestoreRuntime (smallCache 2) (withLinks lineBefore lineBehind) = .ok c' ∧
      (c'.lruLists ⟨.free, 0, true⟩).head = some 0 ∧ ∀ key, LruPlacement.Listed key → WellFormed
        (lruRestoredList (smallCache 2) (withLinks lineBefore lineBehind))
        (fun x => (c'.lruNodes x).prev) (fun x => (c'.lruNodes x).next) 2 key (lruEnds c' key)) ∧
    ∃ c', ocfLfuRestoreRuntime (smallCache 2) (withLinks lineBefore lineBehind) = .ok c' ∧
      (c'.lfuLists ⟨.free, 0, 0, true⟩).head = some 0 ∧ ∀ key, LfuPlacement.Listed key → WellFormed
        (lfuRestoredList (smallCache 2) (withLinks lineBefore lineBehind))
        (fun x => (c'.lfuNodes x).prev) (fun x => (c'.lfuNodes x).next) 2 key (lfuEnds c' key) := by
  have hlru : (ocfLruRestoreRuntime (smallCache 2) (withLinks lineBefore lineBehind)).toOption.map
      (fun c => (c.lruLists ⟨.free, 0, true⟩).head) = some (some 0) := by decide +kernel
  have hlfu : (ocfLfuRestoreRuntime (smallCache 2) (withLinks lineBefore lineBehind)).toOption.map
      (fun c => (c.lfuLists ⟨.free, 0, 0, true⟩).head) = some (some 0) := by decide +kernel
  obtain ⟨c₁, h₁, hhead₁⟩ := exists_ok hlru
  obtain ⟨c₂, h₂, hhead₂⟩ := exists_ok hlfu
  have hrange : LinksInRange lineBefore lineBehind 2 := by
    unfold LinksInRange
    decide
  have hdepth : ∀ x < 2, ∃ d, Depth lineBefore d x := by
    intro x hx
    exact ⟨x, by interval_cases x <;> simp [Depth, lineBefore]⟩
  have hiff := fun c' => restored_wellFormed_iff (smallCache 2) (withLinks lineBefore lineBehind) c'
  refine ⟨⟨c₁, h₁, hhead₁, ((hiff c₁).1 hrange h₁).mpr ⟨by decide, hdepth⟩⟩,
    c₂, h₂, hhead₂, ((hiff c₂).2 hrange (by decide) h₂).mpr ⟨by decide, hdepth⟩⟩

/-- Neighbours of each other, on both sides. -/
def ringLink (x : Nat) : Option Nat := if x = 0 then some 1 else some 0

/-- Two lines that are neighbours of each other on both sides are restored, to
a list without head. -/
theorem restored_ring : LinksInRange ringLink ringLink 2 ∧
    (∃ c', ocfLruRestoreRuntime (smallCache 2) (withLinks ringLink ringLink) = .ok c' ∧
      ¬∀ key, LruPlacement.Listed key → WellFormed
        (lruRestoredList (smallCache 2) (withLinks ringLink ringLink))
        (fun x => (c'.lruNodes x).prev) (fun x => (c'.lruNodes x).next) 2 key (lruEnds c' key)) ∧
    ∃ c', ocfLfuRestoreRuntime (smallCache 2) (withLinks ringLink ringLink) = .ok c' ∧
      ¬∀ key, LfuPlacement.Listed key → WellFormed
        (lfuRestoredList (smallCache 2) (withLinks ringLink ringLink))
        (fun x => (c'.lfuNodes x).prev) (fun x => (c'.lfuNodes x).next) 2 key (lfuEnds c' key) := by
  have hlru : (ocfLruRestoreRuntime (smallCache 2) (withLinks ringLink ringLink)).toOption.map
      (fun c => ((c.lruLists ⟨.free, 0, true⟩).numNodes, (c.lruLists ⟨.free, 0, true⟩).head)) =
      some (2, none) := by decide +kernel
  have hlfu : (ocfLfuRestoreRuntime (smallCache 2) (withLinks ringLink ringLink)).toOption.map
      (fun c => ((c.lfuLists ⟨.free, 0, 0, true⟩).numNodes, (c.lfuLists ⟨.free, 0, 0, true⟩).head)) =
      some (2, none) := by decide +kernel
  refine ⟨fun x _ => ?_, ?_, ?_⟩
  · have hlink : ∀ y, ringLink x = some y → y < 2 := by
      intro y hy
      rw [ringLink] at hy
      split at hy <;> cases hy <;> omega
    exact ⟨hlink, hlink⟩
  · obtain ⟨c', hc', hends⟩ := exists_ok hlru
    rw [Prod.mk.injEq] at hends
    refine ⟨c', hc', fun hwf => ?_⟩
    have hlen := (hwf ⟨.free, 0, true⟩ ⟨trivial, by decide, fun _ => rfl⟩).length
    simp only [nodesOn, lruEnds, hends, walk, List.length_nil] at hlen
    cases hlen
  · obtain ⟨c', hc', hends⟩ := exists_ok hlfu
    rw [Prod.mk.injEq] at hends
    refine ⟨c', hc', fun hwf => ?_⟩
    have hlen := (hwf ⟨.free, 0, 0, true⟩ ⟨trivial, by decide, by decide, fun _ => rfl⟩).length
    simp only [nodesOn, lfuEnds, hends, walk, List.length_nil] at hlen
    cases hlen

end OcfCache.Restore
