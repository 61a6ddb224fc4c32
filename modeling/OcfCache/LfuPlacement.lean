import OcfCache.LruPlacement

/-!
# Placement of cache lines on LFU lists

Which list a cache line is on is determined by its partition, its shard, its
frequency bucket and, in user partitions, by the flag that tells clean lines.
The lines are placed by a function to list keys, and each list holds exactly
the lines placed on it. The module shows that every operation of the LFU
policy keeps this, with the occupancy counters, along any run of operations.
-/

namespace OcfCache.LfuPlacement

open Function Loops Metadata Requests LinkedLists Partitions Lfu CacheLine Space
open Option (bind_some map_some)
open LruPlacement (update_place_iff mem_cons_iff_update mem_erase_iff_update handOver)

/-- Lists that are set up. -/
def Listed (key : LfuKey) : Prop :=
  key.part.Exists ∧ key.shard < lfuNumShards ∧ key.freq < lfuMaxFreq ∧
    (key.part.id = partitionFreelist → key.clean = true)

/-- The list consists of the given lines, head first. -/
structure IsLfu (nodes : Nat → LfuMeta) (l : LfuHead) (lines : List Nat) : Prop where
  /-- The lines are linked in order. -/
  linked : Segment (fun x => (nodes x).prev) (fun x => (nodes x).next) none lines none
  /-- No line is there twice. -/
  nodup : lines.Nodup
  /-- The head is the first line. -/
  head : l.head = lines.head?
  /-- The tail is the last line. -/
  tail : l.tail = lines.getLast?
  /-- The number of lines. -/
  numNodes : l.numNodes = lines.length

/-- What a node tells about the list of its line. -/
def SameAttributes (m m' : LfuMeta) : Prop :=
  m'.clean = m.clean ∧ m'.freq = m.freq ∧ m'.hits = m.hits

/-- Only the links changed. -/
def OnlyLinks (c c' : Cache) : Prop :=
  c' = { c with lfuNodes := c'.lfuNodes, lfuLists := c'.lfuLists } ∧
    ∀ y, SameAttributes (c.lfuNodes y) (c'.lfuNodes y)

theorem OnlyLinks.trans {a b c : Cache} (h : OnlyLinks a b) (h' : OnlyLinks b c) :
    OnlyLinks a c := by
  obtain ⟨hab, hattr⟩ := h
  obtain ⟨hbc, hattr'⟩ := h'
  refine ⟨?_, fun y => ?_⟩
  · rw [hbc, hab]
  · obtain ⟨h1, h2, h3⟩ := hattr y
    obtain ⟨h1', h2', h3'⟩ := hattr' y
    exact ⟨h1'.trans h1, h2'.trans h2, h3'.trans h3⟩

theorem IsLfu.congr {nodes nodes' : Nat → LfuMeta} {l : LfuHead} {lines : List Nat}
    (h : IsLfu nodes l lines) (hp : ∀ x ∈ lines, (nodes' x).prev = (nodes x).prev)
    (hn : ∀ x ∈ lines, (nodes' x).next = (nodes x).next) : IsLfu nodes' l lines where
  linked := h.linked.congr hp hn
  nodup := h.nodup
  head := h.head
  tail := h.tail
  numNodes := h.numNodes

variable {y d : Nat} {f : LfuMeta → LfuMeta} {part src : Part}

section List

variable {c : Cache} {key : LfuKey} {x : Nat} {lines : List Nat}

@[simp] theorem setLfuNode_same (c : Cache) (x : Nat) (f : LfuMeta → LfuMeta) :
    (setLfuNode c x f).lfuNodes x = f (c.lfuNodes x) := by
  simp [setLfuNode]

theorem setLfuNode_of_ne (h : y ≠ x) : (setLfuNode c x f).lfuNodes y = c.lfuNodes y := by
  simp [setLfuNode, h]

theorem setLfuNode?_of_ne {o : Option Nat} (h : o ≠ some y) :
    (setLfuNode? c o f).lfuNodes y = c.lfuNodes y := by
  cases o with
  | none => rfl
  | some z => exact setLfuNode_of_ne fun hy => h (by rw [hy])

theorem setLfuNode?_same :
    (setLfuNode? c (some x) f).lfuNodes x = f (c.lfuNodes x) := setLfuNode_same c x f

theorem onlyLinks_setLfuNode (c : Cache) (x : Nat)
    (hf : ∀ m, SameAttributes m (f m)) : OnlyLinks c (setLfuNode c x f) := by
  refine ⟨rfl, fun y => ?_⟩
  by_cases hy : y = x
  · subst hy
    rw [setLfuNode_same]
    exact hf _
  · rw [setLfuNode_of_ne hy]
    exact ⟨rfl, rfl, rfl⟩

theorem onlyLinks_setLfuNode? (c : Cache) (o : Option Nat)
    (hf : ∀ m, SameAttributes m (f m)) : OnlyLinks c (setLfuNode? c o f) := by
  cases o with
  | none => exact ⟨rfl, fun _ => ⟨rfl, rfl, rfl⟩⟩
  | some x => exact onlyLinks_setLfuNode c x hf

theorem onlyLinks_setLfuList (c : Cache) (key : LfuKey) (l : LfuHead) :
    OnlyLinks c (setLfuList c key l) := ⟨rfl, fun _ => ⟨rfl, rfl, rfl⟩⟩

theorem addToList_node (hx : (c.lfuLists key).head ≠ some x) (y : Nat) :
    (addToList c key x).lfuNodes y =
      if y = x then { c.lfuNodes x with prev := none, next := (c.lfuLists key).head }
      else if (c.lfuLists key).head = some y then { c.lfuNodes y with prev := some x }
      else c.lfuNodes y := by
  simp only [addToList, setLfuList]
  by_cases hy : y = x
  · subst hy
    rw [if_pos rfl, setLfuNode?_of_ne hx, setLfuNode_same]
  · rw [if_neg hy]
    by_cases hh : (c.lfuLists key).head = some y
    · rw [if_pos hh, hh, setLfuNode?_same, setLfuNode_of_ne hy]
    · rw [if_neg hh, setLfuNode?_of_ne hh, setLfuNode_of_ne hy]

theorem addToList_list (key' : LfuKey) : (addToList c key x).lfuLists key' = if key' = key then
      { head := some x
        tail := if (c.lfuLists key).tail = none then some x else (c.lfuLists key).tail
        numNodes := (c.lfuLists key).numNodes + 1 }
    else c.lfuLists key' := by
  have hlists : (setLfuNode? (setLfuNode c x fun m => { m with prev := none, next := (c.lfuLists key).head })
      (c.lfuLists key).head fun m => { m with prev := some x }).lfuLists = c.lfuLists := by
    cases (c.lfuLists key).head <;> rfl
  by_cases hk : key' = key
  · subst hk
    simp [addToList, setLfuList]
  · simp [addToList, setLfuList, hk, hlists]

theorem addToList_only (c : Cache) (key : LfuKey) (x : Nat) : OnlyLinks c (addToList c key x) := by
  have hself := onlyLinks_setLfuNode c x
    (f := fun m => { m with prev := none, next := (c.lfuLists key).head }) fun _ => ⟨rfl, rfl, rfl⟩
  have hhead := hself.trans (onlyLinks_setLfuNode? _ (c.lfuLists key).head
    (f := fun m => { m with prev := some x }) fun _ => ⟨rfl, rfl, rfl⟩)
  exact hhead.trans (onlyLinks_setLfuList _ key _)

theorem IsLfu.add (h : IsLfu c.lfuNodes (c.lfuLists key) lines) (hx : x ∉ lines) :
    IsLfu (addToList c key x).lfuNodes ((addToList c key x).lfuLists key) (x :: lines) := by
  have hhead : (c.lfuLists key).head ≠ some x := by
    rw [h.head]
    exact fun hh => hx (List.mem_of_mem_head? hh)
  have hne : ∀ y ∈ lines, y ≠ x := fun y hy hyx => hx (hyx ▸ hy)
  refine ⟨?_, List.nodup_cons.mpr ⟨hx, h.nodup⟩, ?_, ?_, ?_⟩
  · refine h.linked.insertHead ?_ ?_ ?_ ?_
    · simp only [addToList_node hhead, if_true]
    · simp only [addToList_node hhead, if_true, h.head]
    · intro y hy
      simp only [addToList_node hhead, if_neg (hne y hy)]
      split <;> rfl
    · intro y ys hys
      have hy : y ∈ lines := by simp [hys]
      have hhy : (c.lfuLists key).head = some y := by rw [h.head, hys, List.head?_cons]
      constructor
      · simp only [addToList_node hhead, if_neg (hne y hy), if_pos hhy]
      · intro z hz
        have hzl : z ∈ lines := by simp [hys, hz]
        have hzy : (c.lfuLists key).head ≠ some z := by
          rw [hhy]
          intro heq
          have hd := h.nodup
          rw [hys, List.nodup_cons] at hd
          exact hd.1 (Option.some.inj heq ▸ hz)
        simp only [addToList_node hhead, if_neg (hne z hzl), if_neg hzy]
  · rw [addToList_list, if_pos rfl]
    rfl
  · rw [addToList_list, if_pos rfl]
    simp only [h.tail]
    cases lines with
    | nil => rfl
    | cons y ys => simp [List.getLast?_cons_cons]
  · rw [addToList_list, if_pos rfl]
    simp only [h.numNodes, List.length_cons]

/-- The links after the removal of a line. -/
def unlinked (c : Cache) (key : LfuKey) (x : Nat) : Cache :=
  setLfuList (setLfuNode (setLfuNode? (setLfuNode? c (c.lfuNodes x).prev
      fun m => { m with next := (c.lfuNodes x).next })
      (c.lfuNodes x).next fun m => { m with prev := (c.lfuNodes x).prev })
      x fun m => { m with prev := none, next := none }) key
    { head := if (c.lfuNodes x).prev = none then (c.lfuNodes x).next else (c.lfuLists key).head
      tail := if (c.lfuNodes x).next = none then (c.lfuNodes x).prev else (c.lfuLists key).tail
      numNodes := (c.lfuLists key).numNodes - 1 }

theorem removeFromList_eq (h : IsLfu c.lfuNodes (c.lfuLists key) lines) (hx : x ∈ lines) :
    removeFromList c key x = some (unlinked c key x) := by
  have hnum : (c.lfuLists key).numNodes ≠ 0 := by
    rw [h.numNodes]
    exact Nat.ne_of_gt (List.length_pos_of_mem hx)
  have hlinked := h.linked
  simp only [removeFromList]
  rw [if_neg]
  · rfl
  · rintro (hn | hp | hn)
    · exact hnum hn
    · cases hprev : (c.lfuNodes x).prev with
      | none => simp [hprev, h.head, hlinked.head_of_prev hx hprev] at hp
      | some p => simp [hprev, (hlinked.of_prev hx hprev).2] at hp
    · cases hnext : (c.lfuNodes x).next with
      | none => simp [hnext, h.tail, hlinked.getLast_of_next hx hnext] at hn
      | some n => simp [hnext, (hlinked.of_next hx hnext).2] at hn

theorem unlinked_only (c : Cache) (key : LfuKey) (x : Nat) : OnlyLinks c (unlinked c key x) := by
  have hprev := onlyLinks_setLfuNode? c (c.lfuNodes x).prev
    (f := fun m => { m with next := (c.lfuNodes x).next }) fun _ => ⟨rfl, rfl, rfl⟩
  have hnext := hprev.trans (onlyLinks_setLfuNode? _ (c.lfuNodes x).next
    (f := fun m => { m with prev := (c.lfuNodes x).prev }) fun _ => ⟨rfl, rfl, rfl⟩)
  have hself := hnext.trans (onlyLinks_setLfuNode _ x
    (f := fun m => { m with prev := none, next := none }) fun _ => ⟨rfl, rfl, rfl⟩)
  exact hself.trans (onlyLinks_setLfuList _ key _)

theorem unlinked_list (c : Cache) (key : LfuKey) (x : Nat) {key' : LfuKey} (hk : key' ≠ key) :
    (unlinked c key x).lfuLists key' = c.lfuLists key' := by
  simp only [unlinked, setLfuList, update_of_ne hk]
  cases (c.lfuNodes x).prev <;> cases (c.lfuNodes x).next <;> rfl

theorem unlinked_prev (hy : y ≠ x) : ((unlinked c key x).lfuNodes y).prev =
    if (c.lfuNodes x).next = some y then (c.lfuNodes x).prev else (c.lfuNodes y).prev := by
  simp only [unlinked, setLfuList]
  rw [setLfuNode_of_ne hy]
  by_cases hn : (c.lfuNodes x).next = some y
  · rw [if_pos hn, hn, setLfuNode?_same]
  · rw [if_neg hn, setLfuNode?_of_ne hn]
    by_cases hp : (c.lfuNodes x).prev = some y
    · rw [hp, setLfuNode?_same]
    · rw [setLfuNode?_of_ne hp]

theorem unlinked_next (hy : y ≠ x) : ((unlinked c key x).lfuNodes y).next =
    if (c.lfuNodes x).prev = some y then (c.lfuNodes x).next else (c.lfuNodes y).next := by
  have hprev : ((setLfuNode? c (c.lfuNodes x).prev
      fun m => { m with next := (c.lfuNodes x).next }).lfuNodes y).next =
      if (c.lfuNodes x).prev = some y then (c.lfuNodes x).next else (c.lfuNodes y).next := by
    by_cases hp : (c.lfuNodes x).prev = some y
    · rw [if_pos hp, hp, setLfuNode?_same]
    · rw [if_neg hp, setLfuNode?_of_ne hp]
  simp only [unlinked, setLfuList]
  rw [setLfuNode_of_ne hy, ← hprev]
  by_cases hn : (c.lfuNodes x).next = some y
  · rw [hn, setLfuNode?_same]
  · rw [setLfuNode?_of_ne hn]

theorem unlinked_off (h : IsLfu c.lfuNodes (c.lfuLists key) lines) (hx : x ∈ lines)
    (hy : y ∉ lines) : (unlinked c key x).lfuNodes y = c.lfuNodes y := by
  have hyx : y ≠ x := fun heq => hy (heq ▸ hx)
  have hn : (c.lfuNodes x).next ≠ some y := fun hn => hy (h.linked.of_next hx hn).1
  have hp : (c.lfuNodes x).prev ≠ some y := fun hp => hy (h.linked.of_prev hx hp).1
  simp only [unlinked, setLfuList]
  rw [setLfuNode_of_ne hyx, setLfuNode?_of_ne hn, setLfuNode?_of_ne hp]

theorem IsLfu.unlinked (h : IsLfu c.lfuNodes (c.lfuLists key) lines) (hx : x ∈ lines) :
    IsLfu (unlinked c key x).lfuNodes ((unlinked c key x).lfuLists key) (lines.erase x) := by
  obtain ⟨as, bs, rfl⟩ := List.append_of_mem hx
  have hdis := List.nodup_append.mp h.nodup
  have hxas : x ∉ as := fun hin => hdis.2.2 x hin x List.mem_cons_self rfl
  have hxbs : x ∉ bs := (List.nodup_cons.mp hdis.2.1).1
  have herase : (as ++ x :: bs).erase x = as ++ bs := by
    rw [List.erase_append_right _ hxas, List.erase_cons_head]
  have hne : ∀ y ∈ as ++ bs, y ≠ x := by
    intro y hy heq
    subst heq
    exact (List.mem_append.mp hy).elim hxas hxbs
  obtain ⟨hprev, hnext⟩ := h.linked.links
  have hlist : (LfuPlacement.unlinked c key x).lfuLists key =
      { head := if (c.lfuNodes x).prev = none then (c.lfuNodes x).next else (c.lfuLists key).head
        tail := if (c.lfuNodes x).next = none then (c.lfuNodes x).prev else (c.lfuLists key).tail
        numNodes := (c.lfuLists key).numNodes - 1 } := update_self ..
  rw [herase]
  refine ⟨?_, ?_, ?_, ?_, ?_⟩
  · refine h.linked.remove h.nodup (fun y hy => ?_) fun y hy => ?_
    · rw [unlinked_prev (hne y hy)]
      exact ⟨fun hn => if_pos hn, fun hn => if_neg hn⟩
    · rw [unlinked_next (hne y hy)]
      exact ⟨fun hp => if_pos hp, fun hp => if_neg hp⟩
  · rw [← herase]
    exact h.nodup.erase x
  · rw [hlist, hprev, hnext, h.head]
    cases as <;> simp
  · rw [hlist, hprev, hnext, h.tail]
    rcases List.eq_nil_or_concat bs with rfl | ⟨zs, z, rfl⟩
    · simp
    · have hlast : (x :: (zs ++ [z])).getLast? = some z := by
        rw [← List.cons_append, List.getLast?_concat]
      simp [hlast]
  · rw [hlist, h.numNodes]
    simp only [List.length_append, List.length_cons]
    omega

end List

/-- Every list holds the lines placed on it. -/
def Holds (c : Cache) (place : Nat → Option LfuKey) : Prop :=
  ∀ key, Listed key →
    ∃ lines, IsLfu c.lfuNodes (c.lfuLists key) lines ∧ ∀ x, x ∈ lines ↔ place x = some key

section Holds

variable {c : Cache} {place : Nat → Option LfuKey} {key : LfuKey} {x : Nat}

theorem Holds.of_links {c' : Cache} (h : Holds c place) (hl : c'.lfuLists = c.lfuLists)
    (hp : ∀ y, place y ≠ none → (c'.lfuNodes y).prev = (c.lfuNodes y).prev)
    (hn : ∀ y, place y ≠ none → (c'.lfuNodes y).next = (c.lfuNodes y).next) : Holds c' place := by
  intro key hkey
  obtain ⟨lines, hlfu, hmem⟩ := h key hkey
  have hplaced : ∀ y ∈ lines, place y ≠ none := by
    intro y hy
    rw [(hmem y).mp hy]
    exact Option.some_ne_none key
  rw [hl]
  exact ⟨lines, hlfu.congr (fun y hy => hp y (hplaced y hy)) fun y hy => hn y (hplaced y hy), hmem⟩

theorem Holds.setNode (h : Holds c place)
    (hf : ∀ m, (f m).prev = m.prev ∧ (f m).next = m.next) : Holds (setLfuNode c x f) place := by
  refine h.of_links rfl (fun y _ => ?_) fun y _ => ?_
  · by_cases hy : y = x
    · rw [hy, setLfuNode_same, (hf _).1]
    · rw [setLfuNode_of_ne hy]
  · by_cases hy : y = x
    · rw [hy, setLfuNode_same, (hf _).2]
    · rw [setLfuNode_of_ne hy]

theorem Holds.remove (h : Holds c place) (hkey : Listed key) (hx : place x = some key) :
    ∃ c', removeFromList c key x = some c' ∧ Holds c' (update place x none) ∧ OnlyLinks c c' := by
  obtain ⟨lines, hlfu, hmem⟩ := h key hkey
  have hin : x ∈ lines := (hmem x).mpr hx
  refine ⟨unlinked c key x, removeFromList_eq hlfu hin, ?_, unlinked_only c key x⟩
  intro key' hkey'
  by_cases hk : key' = key
  · subst hk
    exact ⟨lines.erase x, hlfu.unlinked hin, mem_erase_iff_update hlfu.nodup hmem⟩
  · obtain ⟨lines', hlfu', hmem'⟩ := h key' hkey'
    have hoff : ∀ y ∈ lines', y ∉ lines := by
      intro y hy hy'
      have hboth := ((hmem' y).mp hy).symm.trans ((hmem y).mp hy')
      exact hk (Option.some.inj hboth)
    rw [unlinked_list c key x hk]
    refine ⟨lines', hlfu'.congr (fun y hy => ?_) fun y hy => ?_, fun y => ?_⟩
    · rw [unlinked_off hlfu hin (hoff y hy)]
    · rw [unlinked_off hlfu hin (hoff y hy)]
    · rw [hmem' y, update_place_iff (.inr hx) (.inl rfl) key' hk y]

theorem Holds.add (h : Holds c place) (hkey : Listed key) (hx : place x = none) :
    Holds (addToList c key x) (update place x (some key)) := by
  obtain ⟨lines, hlfu, hmem⟩ := h key hkey
  have hnot : x ∉ lines := by
    rw [hmem x, hx]
    simp
  have hhead : (c.lfuLists key).head ≠ some x := by
    rw [hlfu.head]
    exact fun hh => hnot (List.mem_of_mem_head? hh)
  intro key' hkey'
  by_cases hk : key' = key
  · subst hk
    exact ⟨x :: lines, hlfu.add hnot, mem_cons_iff_update hmem⟩
  · obtain ⟨lines', hlfu', hmem'⟩ := h key' hkey'
    have hkeep : ∀ y ∈ lines', (addToList c key x).lfuNodes y = c.lfuNodes y := by
      intro y hy
      have hplace := (hmem' y).mp hy
      have hyx : y ≠ x := by
        rintro rfl
        rw [hx] at hplace
        cases hplace
      have hyh : (c.lfuLists key).head ≠ some y := by
        rw [hlfu.head]
        intro hh
        have hboth := hplace.symm.trans ((hmem y).mp (List.mem_of_mem_head? hh))
        exact hk (Option.some.inj hboth)
      rw [addToList_node hhead, if_neg hyx, if_neg hyh]
    rw [addToList_list, if_neg hk]
    refine ⟨lines', hlfu'.congr (fun y hy => by rw [hkeep y hy]) fun y hy => by rw [hkeep y hy],
      fun y => ?_⟩
    rw [hmem' y, update_place_iff (.inl hx) (.inr rfl) key' hk y]

end Holds

/-- The list of a cache line: by partition, shard, frequency bucket and, in
user partitions, the flag of clean lines. -/
def listOf (c : Cache) (owner : Nat → Part) (x : Nat) : LfuKey :=
  ocfLfuGetList (owner x) (ocfLfuGetShardIndex x) (c.lfuNodes x).freq (c.lfuNodes x).clean

/-- Placement of all cache lines by their attributes. -/
def place (g : Geometry) (c : Cache) (owner : Nat → Part) (x : Nat) : Option LfuKey :=
  if x < g.collisionEntries then some (listOf c owner x) else none

/-- The bucket of a node follows from its hits. -/
def FreqOfHits (m : LfuMeta) : Prop := m.hits ≤ lfuHitsMax ∧ m.freq = ocfLfuHitsToFreq m.hits

/-- In a user partition the flag of clean lines tells the dirty bits. -/
def CleanFlag (g : Geometry) (c : Cache) (owner : Nat → Part) (x : Nat) : Prop :=
  (owner x).id ≠ partitionFreelist → (c.lfuNodes x).clean = !metadataTestDirty g c.md x

/-- Lines are in partitions that are set up, as the metadata and the counters
say. -/
structure Counted (g : Geometry) (c : Cache) (owner : Nat → Part) : Prop where
  /-- Lines are in partitions that are set up. -/
  part : ∀ x, (owner x).Exists
  /-- The metadata names the partition. -/
  id : ∀ x < g.collisionEntries, c.md.partitionId x = (owner x).id
  /-- The counters count the lines. -/
  size : ∀ p, p.Exists →
    c.currSize p = countBelow (fun x => decide (owner x = p)) g.collisionEntries

/-- A line is off the lists, all others are where their attributes say. -/
structure Loose (g : Geometry) (c : Cache) (owner : Nat → Part) (x : Nat) : Prop
    extends Counted g c owner where
  /-- Lists hold the other lines. -/
  holds : Holds c (update (place g c owner) x none)
  /-- Buckets of the other lines. -/
  freq : ∀ y < g.collisionEntries, y ≠ x → FreqOfHits (c.lfuNodes y)
  /-- Flags of the other lines. -/
  clean : ∀ y < g.collisionEntries, y ≠ x → CleanFlag g c owner y

/-- All lines are on the list of their attributes; one of them may have a wrong
flag. -/
structure Linked (g : Geometry) (c : Cache) (owner : Nat → Part) (but : Option Nat) : Prop
    extends Counted g c owner where
  /-- Lists hold the lines placed on them. -/
  holds : Holds c (place g c owner)
  /-- Buckets follow from the hits. -/
  freq : ∀ y < g.collisionEntries, FreqOfHits (c.lfuNodes y)
  /-- Flags of the other lines. -/
  clean : ∀ y < g.collisionEntries, but ≠ some y → CleanFlag g c owner y

/-- All lines are placed by their attributes, which tell the dirty bits. -/
abbrev Placed (g : Geometry) (c : Cache) (owner : Nat → Part) : Prop := Linked g c owner none

theorem listed_getList (h : part.Exists) {shard freq : Nat}
    (hshard : shard < lfuNumShards) (hfreq : freq < lfuMaxFreq) (clean : Bool) :
    Listed (ocfLfuGetList part shard freq clean) := by
  by_cases hf : part.id = partitionFreelist
  · rw [ocfLfuGetList, if_pos hf]
    exact ⟨h, hshard, hfreq, fun _ => rfl⟩
  · rw [ocfLfuGetList, if_neg hf]
    exact ⟨h, hshard, hfreq, fun hf' => absurd hf' hf⟩

theorem ocfLfuGetShardIndex_lt (x : Nat) : ocfLfuGetShardIndex x < lfuNumShards :=
  Nat.mod_lt _ (by decide)

theorem FreqOfHits.lt {m : LfuMeta} (h : FreqOfHits m) : m.freq < lfuMaxFreq := by
  have hcap : ocfLfuHitsToFreq m.hits ≤ lfuMaxFreq - 1 := Nat.min_le_right _ _
  rw [h.2]
  exact Nat.lt_of_le_of_lt hcap (by decide)

theorem ocfLfuIncrementHits_le {hits : Nat} (h : hits ≤ lfuHitsMax) :
    ocfLfuIncrementHits hits ≤ lfuHitsMax := by
  simp only [ocfLfuIncrementHits]
  split <;> omega

section Attributes

variable {g : Geometry} {c c' : Cache} {owner : Nat → Part} {x : Nat}

section

variable (h : OnlyLinks c c')
include h

theorem OnlyLinks.md : c'.md = c.md := by rw [h.1]

theorem OnlyLinks.policy : c'.policy = c.policy := by rw [h.1]

theorem OnlyLinks.currSize : c'.currSize = c.currSize := by rw [h.1]

theorem OnlyLinks.listOf (y : Nat) : listOf c' owner y = listOf c owner y := by
  obtain ⟨hclean, hfreq, -⟩ := h.2 y
  simp only [LfuPlacement.listOf, hclean, hfreq]

theorem OnlyLinks.place : place g c' owner = place g c owner := by
  funext y
  simp only [LfuPlacement.place, h.listOf y]

theorem OnlyLinks.freqOfHits (hy : FreqOfHits (c.lfuNodes y)) : FreqOfHits (c'.lfuNodes y) := by
  obtain ⟨-, hfreq, hhits⟩ := h.2 y
  rw [FreqOfHits, hfreq, hhits]
  exact hy

theorem OnlyLinks.cleanFlag (hy : CleanFlag g c owner y) : CleanFlag g c' owner y := by
  obtain ⟨hclean, -⟩ := h.2 y
  rw [CleanFlag, hclean, h.md]
  exact hy

end

theorem Counted.of_onlyLinks (h : Counted g c owner) (hl : OnlyLinks c c') :
    Counted g c' owner := by
  refine ⟨h.part, ?_, ?_⟩
  · rw [hl.md]
    exact h.id
  · rw [hl.currSize]
    exact h.size

/-- `lfu_get_cline_part` finds the partition of a line that is not detached. -/
theorem getClinePart_eq (hpart : part.Exists) (hd : part ≠ .freeDetached)
    (hid : c.md.partitionId x = part.id) : lfuGetClinePart c x = part := by
  rw [lfuGetClinePart, hid]
  cases part with
  | user id =>
    have hne : id ≠ partitionFreelist := Nat.ne_of_lt (Nat.lt_succ_of_lt hpart)
    rw [if_neg (show (Part.user id).id ≠ partitionFreelist from hne)]
    rfl
  | free => rfl
  | freeDetached => exact absurd rfl hd

theorem Counted.getClinePart (h : Counted g c owner) (hx : x < g.collisionEntries)
    (hd : owner x ≠ .freeDetached) : lfuGetClinePart c x = owner x :=
  getClinePart_eq (h.part x) hd (h.id x hx)

theorem Linked.unlink {but : Option Nat} (h : Linked g c owner but)
    (hbut : ∀ y, but = some y → y = x) (hx : x < g.collisionEntries) :
    ∃ c', removeFromList c (listOf c owner x) x = some c' ∧ Loose g c' owner x ∧
      OnlyLinks c c' := by
  have hlisted : Listed (listOf c owner x) :=
    listed_getList (h.part x) (ocfLfuGetShardIndex_lt x) (h.freq x hx).lt _
  obtain ⟨c', heq, hholds, honly⟩ := h.holds.remove hlisted (if_pos hx)
  refine ⟨c', heq, ⟨h.toCounted.of_onlyLinks honly, ?_, ?_, ?_⟩, honly⟩
  · rw [honly.place]
    exact hholds
  · intro y hy _
    exact honly.freqOfHits (h.freq y hy)
  · intro y hy hyx
    exact honly.cleanFlag (h.clean y hy fun hb => hyx (hbut y hb))

theorem Loose.link (h : Loose g c owner x) (hx : x < g.collisionEntries)
    (hfreq : FreqOfHits (c.lfuNodes x)) :
    Linked g (addToList c (listOf c owner x) x) owner (some x) := by
  have hlisted : Listed (listOf c owner x) :=
    listed_getList (h.part x) (ocfLfuGetShardIndex_lt x) hfreq.lt _
  have honly : OnlyLinks c (addToList c (listOf c owner x) x) := addToList_only c _ x
  have hholds := h.holds.add hlisted (update_self ..)
  have hplace : update (update (place g c owner) x none) x
      (some (listOf c owner x)) = place g c owner := by
    rw [update_idem]
    refine update_eq_iff.mpr ⟨(if_pos hx).symm, fun _ _ => rfl⟩
  refine ⟨h.toCounted.of_onlyLinks honly, ?_, ?_, ?_⟩
  · rw [honly.place, ← hplace]
    exact hholds
  · intro y hy
    by_cases hyx : y = x
    · subst hyx
      exact honly.freqOfHits hfreq
    · exact honly.freqOfHits (h.freq y hy hyx)
  · intro y hy hyx
    exact honly.cleanFlag (h.clean y hy fun heq => hyx (by rw [heq]))

theorem Linked.settle (h : Linked g c owner (some x)) (hclean : CleanFlag g c owner x) :
    Placed g c owner := by
  refine ⟨h.toCounted, h.holds, h.freq, fun y hy _ => ?_⟩
  by_cases hyx : y = x
  · subst hyx
    exact hclean
  · exact h.clean y hy fun heq => hyx (Option.some.inj heq).symm

theorem Loose.setNode (h : Loose g c owner x) (f : LfuMeta → LfuMeta) :
    Loose g (setLfuNode c x f) owner x := by
  have hplace : update (place g (setLfuNode c x f) owner) x none =
      update (place g c owner) x none := by
    funext y
    by_cases hyx : y = x
    · subst hyx
      rw [update_self, update_self]
    · rw [update_of_ne hyx, update_of_ne hyx]
      simp only [place, listOf, setLfuNode_of_ne hyx]
  refine ⟨⟨h.part, h.id, h.size⟩, ?_, fun y hy hyx => ?_, fun y hy hyx => ?_⟩
  · rw [hplace]
    refine h.holds.of_links rfl (fun y hy => ?_) fun y hy => ?_
    all_goals
      have hyx : y ≠ x := by
        rintro rfl
        exact hy (update_self ..)
      rw [setLfuNode_of_ne hyx]
  · rw [setLfuNode_of_ne hyx]
    exact h.freq y hy hyx
  · rw [CleanFlag, setLfuNode_of_ne hyx]
    exact h.clean y hy hyx

theorem Loose.moveSize (h : Loose g c owner x) (hx : x < g.collisionEntries) {dst : Part}
    (hdst : dst.Exists) : Loose g (c.moveSize x (owner x) dst) (update owner x dst) x := by
  have hplace : update (place g (c.moveSize x (owner x) dst)
      (update owner x dst)) x none = update (place g c owner) x none := by
    funext y
    by_cases hyx : y = x
    · subst hyx
      rw [update_self, update_self]
    · rw [update_of_ne hyx, update_of_ne hyx]
      simp only [place, listOf, update_of_ne hyx]
      rfl
  refine ⟨⟨fun y => ?_, fun y hy => ?_, fun p hp => ?_⟩, ?_, h.freq, fun y hy hyx => ?_⟩
  · by_cases hyx : y = x
    · subst hyx
      rw [update_self]
      exact hdst
    · rw [update_of_ne hyx]
      exact h.part y
  · have hid : (c.moveSize x (owner x) dst).md.partitionId =
        update c.md.partitionId x dst.id := rfl
    rw [hid]
    by_cases hyx : y = x
    · subst hyx
      rw [update_self, update_self]
    · rw [update_of_ne hyx, update_of_ne hyx]
      exact h.id y hy
  · rw [(SpaceTrace.moved_moveSize c x (owner x) dst).1]
    exact LruPlacement.size_update h.size hx dst p hp
  · rw [hplace]
    exact h.holds
  · rw [CleanFlag, update_of_ne hyx]
    exact h.clean y hy hyx

end Attributes

section Operations

variable {g : Geometry} {c : Cache} {owner : Nat → Part} {x : Nat}

/-- `ocf_lfu_remove` for a line that is not detached. -/
theorem Linked.ocfLfuRemove {but : Option Nat} (h : Linked g c owner but)
    (hbut : ∀ y, but = some y → y = x) (hx : x < g.collisionEntries)
    (hd : owner x ≠ .freeDetached) :
    ∃ c', ocfLfuRemove c x = some c' ∧ Loose g c' owner x ∧ OnlyLinks c c' := by
  obtain ⟨c', heq, hloose, honly⟩ := h.unlink hbut hx
  refine ⟨c', ?_, hloose, honly⟩
  rw [Lfu.ocfLfuRemove, h.toCounted.getClinePart hx hd]
  exact heq

/-- `add_to_freq_bucket` with the attributes of the line. -/
theorem Loose.addToFreqBucket (h : Loose g c owner x) (hx : x < g.collisionEntries)
    (hd : owner x ≠ .freeDetached) (hfreq : FreqOfHits (c.lfuNodes x)) :
    Linked g (addToFreqBucket c (c.lfuNodes x).freq x (c.lfuNodes x).clean) owner (some x) := by
  rw [Lfu.addToFreqBucket, h.toCounted.getClinePart hx hd]
  exact h.link hx hfreq

theorem addToFreqBucket_only (c : Cache) (freq x : Nat) (clean : Bool) :
    OnlyLinks c (addToFreqBucket c freq x clean) := addToList_only c _ x

theorem addToList_moveSize (c : Cache) (key : LfuKey) (x : Nat) (src dst : Part) :
    (addToList c key x).moveSize x src dst = addToList (c.moveSize x src dst) key x := by
  have hl : (c.moveSize x src dst).lfuLists = c.lfuLists := rfl
  simp only [addToList, hl]
  cases (c.lfuLists key).head <;> rfl

/-- `ocf_lfu_repart_locked` for a line of the source partition. -/
theorem Linked.repartLocked {but : Option Nat} (h : Linked g c owner but)
    (hbut : ∀ y, but = some y → y = x) (hx : x < g.collisionEntries) {dst : Part}
    (hdst : dst.Exists) (hne : owner x ≠ dst) :
    ∃ c', ocfLfuRepartLocked c x (owner x) dst = some c' ∧
      Linked g c' (update owner x dst) (some x) ∧ c'.policy = c.policy ∧
      SameAttributes (c.lfuNodes x) (c'.lfuNodes x) ∧
      metadataTestDirty g c'.md x = metadataTestDirty g c.md x := by
  have hlisted : Listed (listOf c owner x) :=
    listed_getList (h.part x) (ocfLfuGetShardIndex_lt x) (h.freq x hx).lt _
  obtain ⟨lines, hlfu, hmem⟩ := h.holds (listOf c owner x) hlisted
  have hin : x ∈ lines := (hmem x).mpr (if_pos hx)
  obtain ⟨c1, heq, hloose, honly⟩ := h.unlink hbut hx
  obtain ⟨hclean, hfreq, hhits⟩ := honly.2 x
  have hmoved : Loose g (c1.moveSize x (owner x) dst) (update owner x dst) x :=
    hloose.moveSize hx hdst
  have hfreq1 : FreqOfHits ((c1.moveSize x (owner x) dst).lfuNodes x) :=
    honly.freqOfHits (h.freq x hx)
  have hkey : listOf (c1.moveSize x (owner x) dst) (update owner x dst) x =
      ocfLfuGetList dst (ocfLfuGetShardIndex x) (c.lfuNodes x).freq (c.lfuNodes x).clean := by
    rw [← hclean, ← hfreq, listOf, update_self]
    rfl
  have hlink := hmoved.link hx hfreq1
  rw [hkey] at hlink
  have hadd : OnlyLinks (c1.moveSize x (owner x) dst) (addToList (c1.moveSize x (owner x) dst)
      (ocfLfuGetList dst (ocfLfuGetShardIndex x) (c.lfuNodes x).freq (c.lfuNodes x).clean) x) :=
    addToList_only _ _ x
  refine ⟨_, ?_, hlink, ?_, ?_, ?_⟩
  · simp only [listOf] at heq hlfu
    simp only [ocfLfuRepartLocked]
    rw [if_neg, heq, map_some, addToList_moveSize]
    rintro (hsame | hnum | hends)
    · exact hne hsame
    · rw [hlfu.numNodes] at hnum
      exact Nat.ne_of_gt (List.length_pos_of_mem hin) hnum
    · rw [hlfu.head, hlfu.tail] at hends
      simp at hends
  · rw [hadd.policy]
    exact honly.policy
  · obtain ⟨h1, h2, h3⟩ := hadd.2 x
    exact ⟨h1.trans hclean, h2.trans hfreq, h3.trans hhits⟩
  · rw [hadd.md, ← honly.md]
    rfl

section

variable (h : Placed g c owner)
include h

/-- `ocf_lfu_repart` of a line that is not detached. A line of the free list
may only go to the detached one, as its flag is not kept. -/
theorem Linked.repart (hx : x < g.collisionEntries) {dst : Part}
    (hdst : dst.Exists) (hne : owner x ≠ dst) (hd : owner x ≠ .freeDetached)
    (huser : dst.id ≠ partitionFreelist → (owner x).id ≠ partitionFreelist) :
    ∃ c', ocfLfuRepart c x (owner x) dst = some c' ∧ Placed g c' (update owner x dst) ∧
      c'.policy = c.policy := by
  obtain ⟨c', heq, hlinked, hpolicy, hattr, hdirty⟩ := h.repartLocked (by simp) hx hdst hne
  refine ⟨c', ?_, hlinked.settle fun hfree => ?_, hpolicy⟩
  · rw [ocfLfuRepart, if_neg (not_not.mpr (h.toCounted.getClinePart hx hd))]
    exact heq
  · rw [update_self] at hfree
    rw [hattr.1, hdirty]
    exact h.clean x hx (by simp) (huser hfree)

theorem Linked.repartReset (hx : x < g.collisionEntries)
    (hd : d < ocfUserIoClassMax) (hne : owner x ≠ .user d) :
    ∃ c', lfuRepartReset g c x (owner x) (.user d) = some c' ∧
      Placed g c' (update owner x (.user d)) ∧ c'.policy = c.policy := by
  have hexists : (Part.user d).Exists := hd
  obtain ⟨c1, heq1, hlinked, hpolicy1, -⟩ := h.repartLocked nofun hx hexists hne
  have hnd : update owner x (Part.user d) x ≠ .freeDetached := by
    rw [update_self]
    nofun
  obtain ⟨c2, heq2, hloose, honly2⟩ := hlinked.ocfLfuRemove
    (fun y hy => (Option.some.inj hy).symm) hx hnd
  have hset := hloose.setNode fun m =>
    { m with hits := 1, freq := 0, clean := !metadataTestDirty g c2.md x }
  have hfreq : FreqOfHits ((setLfuNode c2 x fun m =>
      { m with hits := 1, freq := 0, clean := !metadataTestDirty g c2.md x }).lfuNodes x) := by
    rw [setLfuNode_same]
    exact ⟨Nat.le_of_ble_eq_true rfl, rfl⟩
  have hlink := hset.addToFreqBucket hx hnd hfreq
  have hadd := addToFreqBucket_only (setLfuNode c2 x fun m =>
    { m with hits := 1, freq := 0, clean := !metadataTestDirty g c2.md x }) 0 x
      (!metadataTestDirty g c2.md x)
  rw [setLfuNode_same] at hlink
  refine ⟨ocfLfuAdd g c2 x, ?_, hlink.settle (hadd.cleanFlag fun _ => ?_), ?_⟩
  · rw [lfuRepartReset, heq1, bind_some, heq2, map_some]
  · rw [setLfuNode_same]
    rfl
  · exact (hadd.policy.trans honly2.policy).trans hpolicy1

theorem Linked.relink (hx : x < g.collisionEntries)
    (hd : owner x ≠ .freeDetached) {hits : Nat} (hhits : hits ≤ lfuHitsMax) :
    ∃ c1, Lfu.ocfLfuRemove c x = some c1 ∧ SameAttributes (c.lfuNodes x) (c1.lfuNodes x) ∧
      Placed g (addToFreqBucket (setLfuNode c1 x fun m =>
        { m with hits := hits, freq := ocfLfuHitsToFreq hits }) (ocfLfuHitsToFreq hits) x
          (c.lfuNodes x).clean) owner ∧ c1.policy = c.policy := by
  obtain ⟨c1, heq, hloose, honly⟩ := h.ocfLfuRemove nofun hx hd
  refine ⟨c1, heq, honly.2 x, ?_, honly.policy⟩
  have hset := hloose.setNode fun m => { m with hits := hits, freq := ocfLfuHitsToFreq hits }
  have hfreq : FreqOfHits ((setLfuNode c1 x fun m =>
      { m with hits := hits, freq := ocfLfuHitsToFreq hits }).lfuNodes x) := by
    rw [setLfuNode_same]
    exact ⟨hhits, rfl⟩
  have hlink := hset.addToFreqBucket hx hd hfreq
  have hclean : (c1.lfuNodes x).clean = (c.lfuNodes x).clean := (honly.2 x).1
  simp only [setLfuNode_same, hclean] at hlink
  refine hlink.settle ((addToFreqBucket_only _ _ x _).cleanFlag fun huser => ?_)
  rw [setLfuNode_same]
  have hflag := h.clean x hx nofun huser
  rw [← hclean, ← honly.md] at hflag
  exact hflag

theorem Linked.setHits {hits : Nat} (hhits : hits ≤ lfuHitsMax)
    (hfreq : ocfLfuHitsToFreq hits = (c.lfuNodes x).freq) :
    Placed g (setLfuNode c x fun m => { m with hits := hits }) owner := by
  have hattr : ∀ y, ((setLfuNode c x fun m => { m with hits := hits }).lfuNodes y).freq =
      (c.lfuNodes y).freq ∧
      ((setLfuNode c x fun m => { m with hits := hits }).lfuNodes y).clean =
      (c.lfuNodes y).clean := by
    intro y
    by_cases hyx : y = x
    · subst hyx
      rw [setLfuNode_same]
      exact ⟨rfl, rfl⟩
    · rw [setLfuNode_of_ne hyx]
      exact ⟨rfl, rfl⟩
  have hplace : place g (setLfuNode c x fun m => { m with hits := hits }) owner =
      place g c owner := by
    funext y
    simp only [place, listOf, hattr]
  refine ⟨⟨h.part, h.id, h.size⟩, ?_, fun y hy => ?_, fun y hy hb huser => ?_⟩
  · rw [hplace]
    exact h.holds.setNode fun _ => ⟨rfl, rfl⟩
  · by_cases hyx : y = x
    · subst hyx
      rw [setLfuNode_same]
      exact ⟨hhits, hfreq.symm⟩
    · rw [setLfuNode_of_ne hyx]
      exact h.freq y hy
  · rw [(hattr y).2]
    exact h.clean y hy hb huser

/-- `ocf_lfu_increment`. -/
theorem Linked.increment (hx : x < g.collisionEntries) (hd : owner x ≠ .freeDetached) :
    ∃ c', ocfLfuIncrement c x = some c' ∧ Placed g c' owner ∧ c'.policy = c.policy := by
  have hhits := ocfLfuIncrementHits_le (h.freq x hx).1
  simp only [ocfLfuIncrement]
  split
  · rename_i hsame
    exact ⟨_, rfl, h.setHits hhits hsame, rfl⟩
  · obtain ⟨c1, heq, -, hplaced, hpolicy⟩ := h.relink hx hd hhits
    rw [heq]
    refine ⟨_, rfl, hplaced, ?_⟩
    rw [(addToFreqBucket_only _ _ x _).policy]
    exact hpolicy

theorem Linked.setMd {md : LineTable} (hid : md.partitionId = c.md.partitionId)
    (hother : ∀ y, y ≠ x → metadataTestDirty g md y = metadataTestDirty g c.md y) :
    Linked g { c with md := md } owner (some x) := by
  refine ⟨⟨h.part, ?_, h.size⟩, h.holds, h.freq, fun y hy hyx => ?_⟩
  · intro y hy
    exact (congrFun hid y).trans (h.id y hy)
  · have hne : y ≠ x := fun heq => hyx (by rw [heq])
    rw [CleanFlag, hother y hne]
    exact h.clean y hy nofun

end

/-- `ocf_lfu_clean_cline` and `ocf_lfu_dirty_cline` right after the dirty bits
changed. -/
theorem Linked.moveCline (h : Linked g c owner (some x)) (hx : x < g.collisionEntries)
    (hd : owner x ≠ .freeDetached) {clean : Bool} (hclean : clean = !metadataTestDirty g c.md x) :
    ∃ c', lfuMoveCline c x clean = some c' ∧ Placed g c' owner ∧ c'.policy = c.policy := by
  obtain ⟨c1, heq, hloose, honly⟩ := h.ocfLfuRemove (fun y hy => (Option.some.inj hy).symm) hx hd
  have hset := hloose.setNode fun m => { m with clean := clean }
  have hfreq : FreqOfHits ((setLfuNode c1 x fun m => { m with clean := clean }).lfuNodes x) := by
    rw [setLfuNode_same]
    exact honly.freqOfHits (h.freq x hx)
  have hlink := hset.addToFreqBucket hx hd hfreq
  have hadd := addToFreqBucket_only (setLfuNode c1 x fun m => { m with clean := clean })
    (c1.lfuNodes x).freq x clean
  simp only [setLfuNode_same] at hlink
  refine ⟨_, by rw [lfuMoveCline, heq, map_some],
    hlink.settle (hadd.cleanFlag fun _ => ?_), hadd.policy.trans honly.policy⟩
  rw [setLfuNode_same, hclean, ← honly.md]
  rfl

theorem Counted.owner_of_id (h : Counted g c owner) (hx : x < g.collisionEntries)
    (hid : c.md.partitionId x < ocfUserIoClassMax) : owner x = .user (c.md.partitionId x) := by
  have hne : c.md.partitionId x ≠ partitionFreelist := Nat.ne_of_lt (Nat.lt_succ_of_lt hid)
  exact LruPlacement.Part.Exists.user_of_id (h.part x) (h.id x hx).symm hne

theorem Linked.keepDirty (h : Placed g c owner) (hx : x < g.collisionEntries) {b : Bits}
    (hb : testAny b 0 g.endBlock = metadataTestDirty g c.md x) :
    Placed g { c with md := setDirtyBits c.md x b } owner := by
  have hset : Linked g { c with md := setDirtyBits c.md x b } owner (some x) :=
    h.setMd rfl fun y hy => LruPlacement.testDirty_of_ne hy
  refine hset.settle fun huser => ?_
  rw [LruPlacement.testDirty_same, hb]
  exact h.clean x hx nofun huser

/-- `set_cache_line_dirty` for blocks of a line in a user partition. -/
theorem Linked.setDirty (h : Placed g c owner) (start : Nat) {stop : Nat}
    (hx : x < g.collisionEntries) (hid : c.md.partitionId x < ocfUserIoClassMax)
    (hstop : stop ≤ g.endBlock) :
    ∃ c', lfuSetCacheLineDirty g c start stop x = some c' ∧ Placed g c' owner ∧
      c'.policy = c.policy := by
  have hd : owner x ≠ .freeDetached := by
    rw [h.toCounted.owner_of_id hx hid]
    nofun
  simp only [lfuSetCacheLineDirty, if_neg (Nat.not_lt.mpr (Nat.le_of_lt hid))]
  split
  · rename_i hchange
    obtain ⟨-, hdirty⟩ := LruPlacement.testDirty_setRange_first hstop hchange
    have hset : Linked g { c with md := setDirtyBits c.md x (setRange (c.md.dirty x) start stop) }
        owner (some x) := h.setMd rfl fun y hy => LruPlacement.testDirty_of_ne hy
    exact hset.moveCline hx hd (by rw [hdirty]; rfl)
  · rename_i hsame
    exact ⟨_, rfl, h.keepDirty hx (LruPlacement.testDirty_setRange_keep hsame), rfl⟩

/-- `set_cache_line_clean` for blocks of a line in a user partition. -/
theorem Linked.setClean (h : Placed g c owner) (start : Nat) {stop : Nat}
    (hx : x < g.collisionEntries) (hid : c.md.partitionId x < ocfUserIoClassMax)
    (hstop : stop ≤ g.endBlock) :
    ∃ c', lfuSetCacheLineClean g c start stop x = some c' ∧ Placed g c' owner ∧
      c'.policy = c.policy := by
  have hd : owner x ≠ .freeDetached := by
    rw [h.toCounted.owner_of_id hx hid]
    nofun
  simp only [lfuSetCacheLineClean, if_neg (Nat.not_lt.mpr (Nat.le_of_lt hid))]
  split
  · rename_i hchange
    obtain ⟨-, hclean⟩ := LruPlacement.testDirty_clearRange_last hstop hchange
    have hset : Linked g { c with md := setDirtyBits c.md x (clearRange (c.md.dirty x) start stop) }
        owner (some x) := h.setMd rfl fun y hy => LruPlacement.testDirty_of_ne hy
    exact hset.moveCline hx hd (by rw [hclean]; rfl)
  · rename_i hsame
    exact ⟨_, rfl, h.keepDirty hx (LruPlacement.testDirty_clearRange_keep hsame), rfl⟩

/-- `ocf_lfu_rm_cline` for a line in a user partition. -/
theorem Linked.rmCline (h : Placed g c owner) (hx : x < g.collisionEntries)
    (hid : c.md.partitionId x < ocfUserIoClassMax) :
    ∃ c', ocfLfuRmCline c x = some c' ∧ Placed g c' (update owner x .free) ∧
      c'.policy = c.policy := by
  have howner := h.toCounted.owner_of_id hx hid
  have hne : owner x ≠ .free := by
    rw [howner]
    nofun
  have hd : owner x ≠ .freeDetached := by
    rw [howner]
    nofun
  have hrepart := h.repart hx (show Part.free.Exists from trivial) hne hd fun hf => absurd rfl hf
  rw [howner] at hrepart
  exact hrepart

end Operations

section Lines

variable {g : Geometry} {c : Cache} {owner : Nat → Part} {x : Nat}

theorem getList_inj {p p' : Part} {i i' f f' : Nat} {b b' : Bool}
    (h : ocfLfuGetList p i f b = ocfLfuGetList p' i' f' b') : p = p' ∧ i = i' ∧ f = f' := by
  simp only [ocfLfuGetList] at h
  split at h <;> split at h <;> cases h <;> exact ⟨rfl, rfl, rfl⟩

section

variable (h : Placed g c owner)
include h

theorem Linked.findLine (hpart : part.Exists)
    {lock : Nat → Bool} {shard : Nat} (hshard : shard < lfuNumShards)
    (hfound : lfuFindLine c part lock shard = some x) :
    x < g.collisionEntries ∧ owner x = part := by
  obtain ⟨f, hf, hscan⟩ := List.exists_of_findSome?_eq_some hfound
  obtain ⟨lines, hlfu, hmem⟩ := h.holds _ (listed_getList hpart hshard (List.mem_range.mp hf) true)
  have htail : ∀ z, (c.lfuLists (ocfLfuGetList part shard f true)).tail = some z → z ∈ lines := by
    intro z hz
    rw [hlfu.tail] at hz
    exact List.mem_of_mem_getLast? hz
  have hin := (scanTail_spec (fun z => z ∈ lines) htail
    (fun z w hz hw => (hlfu.linked.of_prev hz hw).1) hscan).1
  have hplace := (hmem x).mp hin
  simp only [place, Option.ite_none_right_eq_some, Option.some.injEq] at hplace
  exact ⟨hplace.1, (getList_inj hplace.2).1⟩

theorem Linked.iterNext (hpart : part.Exists) {lock : Nat → Bool} {fuel : Nat} {it it' : Iter}
    (hnext : lfuIterNext c part lock fuel it = (some x, it')) :
    x < g.collisionEntries ∧ owner x = part := by
  induction fuel generalizing it with
  | zero => cases hnext
  | succ fuel ih =>
    simp only [lfuIterNext] at hnext
    split at hnext
    · rename_i y hfound
      cases hnext
      exact h.findLine hpart (Nat.mod_lt _ (by decide)) hfound
    · exact ih hnext

theorem Linked.congr {c' : Cache} (hn : c'.lfuNodes = c.lfuNodes)
    (hl : c'.lfuLists = c.lfuLists) (hm : c'.md = c.md) (hs : c'.currSize = c.currSize) :
    Placed g c' owner := by
  have hplace : place g c' owner = place g c owner := by
    funext y
    simp only [place, listOf, hn]
  refine ⟨⟨h.part, by rw [hm]; exact h.id, by rw [hs]; exact h.size⟩, ?_, by rw [hn]; exact h.freq,
    fun y hy hb => ?_⟩
  · rw [hplace]
    refine h.holds.of_links hl (fun y _ => by rw [hn]) fun y _ => by rw [hn]
  · rw [CleanFlag, hn, hm]
    exact h.clean y hy hb

/-- `lfu_iter_eviction_next` keeps the placement, with the line it finds in the
partition of the request. -/
theorem Linked.evictionNext (req : Request)
    (hsrc : src.Exists) (hd : d < ocfUserIoClassMax) (it : Iter) :
    ∃ c' it' found, lfuIterEvictionNext g c req src (.user d) it = some (c', it', found) ∧
      c'.policy = c.policy ∧ ∀ x, found = some x → Placed g c' (update owner x (.user d)) := by
  simp only [lfuIterEvictionNext]
  split
  · exact ⟨c, _, none, rfl, rfl, (by simp)⟩
  · rename_i y it2 hiter
    obtain ⟨hy, howner⟩ := h.iterNext hsrc hiter
    subst howner
    split
    · rename_i hne
      obtain ⟨c1, heq, hplaced, hpolicy⟩ := h.repartReset hy hd (Ne.symm hne)
      rw [heq]
      refine ⟨_, it2, some y, rfl, hpolicy, fun x hx => ?_⟩
      cases hx
      exact hplaced.congr rfl rfl rfl rfl
    · rename_i hsame
      refine ⟨_, it2, some y, rfl, rfl, fun x hx => ?_⟩
      cases hx
      rw [not_not.mp hsame, update_eq_self]
      exact h.congr rfl rfl rfl rfl

/-- `lfu_iter_free_next`. -/
theorem Linked.freeNext (hd : d < ocfUserIoClassMax) (it : Iter) :
    ∃ c' it' found, lfuIterFreeNext g c (.user d) it = some (c', it', found) ∧
      c'.policy = c.policy ∧ ∀ x, found = some x → Placed g c' (update owner x (.user d)) := by
  simp only [lfuIterFreeNext]
  split
  · exact ⟨c, _, none, rfl, rfl, (by simp)⟩
  · rename_i y it2 hiter
    obtain ⟨hy, howner⟩ := h.iterNext (show Part.free.Exists from trivial) hiter
    have hne : owner y ≠ .user d := by
      rw [howner]
      simp
    obtain ⟨c1, heq, hplaced, hpolicy⟩ := h.repartReset hy hd hne
    rw [howner] at heq
    rw [heq]
    refine ⟨_, it2, some y, rfl, hpolicy, fun x hx => ?_⟩
    cases hx
    exact hplaced.congr rfl rfl rfl rfl

/-- `lfu_req_next_cline` for a line in a user partition. -/
theorem Linked.reqNextCline (hx : x < g.collisionEntries)
    (hd : d < ocfUserIoClassMax) (hid : c.md.partitionId x ≠ partitionFreelist) :
    ∃ c', lfuReqNextCline g c x (.user d) = some c' ∧
      Placed g c' (update owner x (.user d)) ∧ c'.policy = c.policy := by
  have howner : owner x = .user (c.md.partitionId x) :=
    LruPlacement.Part.Exists.user_of_id (h.part x) (h.id x hx).symm hid
  simp only [lfuReqNextCline]
  split
  · rename_i hne
    have hne' : owner x ≠ .user d := by
      rw [howner]
      intro heq
      exact hne (congrArg Part.id heq).symm
    obtain ⟨c1, heq, hplaced, hpolicy⟩ := h.repartReset hx hd hne'
    rw [howner] at heq
    rw [heq]
    exact ⟨_, rfl, hplaced.congr rfl rfl rfl rfl, hpolicy⟩
  · rename_i hsame
    have hown : owner x = .user d := by
      rw [howner]
      exact congrArg Part.user (not_not.mp hsame).symm
    have hnd : owner x ≠ .freeDetached := by
      rw [hown]
      simp
    obtain ⟨c1, heq, ⟨hclean, -, hhits⟩, hplaced, hpolicy⟩ :=
      h.relink hx hnd (ocfLfuIncrementHits_le (h.freq x hx).1)
    rw [heq, ← hown, update_eq_self]
    simp only [map_some, hhits, setLfuNode_same, hclean]
    refine ⟨_, rfl, hplaced.congr rfl rfl rfl rfl, ?_⟩
    exact (addToFreqBucket_only _ _ x _).policy.trans hpolicy

theorem Linked.nextLine (hpolicy : c.policy = .lfu) (req : Request)
    (hsrc : src.Exists) (hd : d < ocfUserIoClassMax) (it : Iter) (cline : Option Nat) :
    ∃ c' it' found, nextLine g c req src (.user d) it cline = some (c', it', found) ∧
      c'.policy = c.policy ∧ ∀ t, found = some t → Placed g c' (update owner t.line (.user d)) := by
  have hmap : ∀ {c' : Cache} {f : Option Nat} {mk : Nat → Handed}, (∀ x, (mk x).line = x) →
      (∀ x, f = some x → Placed g c' (update owner x (.user d))) →
      ∀ t, f.map mk = some t → Placed g c' (update owner t.line (.user d)) := by
    intro c' f mk hline hsome t ht
    obtain ⟨x, hx, rfl⟩ := Option.map_eq_some_iff.mp ht
    rw [hline x]
    exact hsome x hx
  simp only [Space.nextLine]
  split
  · split
    · rename_i x hsucc
      obtain ⟨-, hx, htakes⟩ := SpaceFrame.successor_spec hsucc
      have hid := (SpaceFrame.takesSuccessor_spec htakes).1
      obtain ⟨c1, heq, hplaced, hpol⟩ := h.reqNextCline hx hd hid
      simp only [Space.reqNextCline, hpolicy, heq, map_some]
      refine ⟨c1, _, _, rfl, by rw [hpol, hpolicy], fun t ht => ?_⟩
      cases ht
      exact hplaced
    · obtain ⟨c1, it1, f, heq, hpol, hsome⟩ := h.evictionNext req hsrc hd it
      simp only [iterEvictionNext, hpolicy, heq, map_some]
      exact ⟨c1, it1, _, rfl, by rw [hpol, hpolicy], hmap (fun _ => rfl) hsome⟩
  · obtain ⟨c1, it1, f, heq, hpol, hsome⟩ := h.freeNext hd it
    simp only [iterFreeNext, hpolicy, heq, map_some]
    exact ⟨c1, it1, _, rfl, by rw [hpol, hpolicy], hmap (fun _ => rfl) hsome⟩

theorem Linked.of_md {md : LineTable}
    (hid : ∀ y < g.collisionEntries, md.partitionId y = c.md.partitionId y)
    (hdirty : ∀ y < g.collisionEntries, (owner y).id ≠ partitionFreelist →
      metadataTestDirty g md y = metadataTestDirty g c.md y) :
    Placed g { c with md := md } owner := by
  refine ⟨⟨h.part, fun y hy => (hid y hy).trans (h.id y hy), h.size⟩, h.holds, h.freq,
    fun y hy hb huser => ?_⟩
  rw [hdirty y hy huser]
  exact h.clean y hy hb huser

theorem Linked.assignLine {req req' : Request} {src idx idx' : Nat}
    {c' : Cache} (heq : assignLine g c req x src idx = some (c', req', idx')) :
    Placed g c' owner ∧ c'.policy = c.policy := by
  simp only [Space.assignLine, Option.ite_none_left_eq_some, Option.some.injEq,
    Prod.mk.injEq] at heq
  obtain ⟨-, -, rfl, -, -⟩ := heq
  refine ⟨h.of_md (fun y _ => ?_) fun y _ _ => ?_, rfl⟩
  · simp only [ocfMapCacheLine, ocfMetadataAddToCollision]
    split <;> rfl
  · simp only [ocfMapCacheLine, ocfMetadataAddToCollision, metadataTestDirty]
    split <;> rfl

end

theorem Linked.reqClinesLoop (hsrc : src.Exists) (hd : d < ocfUserIoClassMax) {dstMax n : Nat} {req : Request}
    {it : Iter} {cline : Option Nat} {idx : Nat} {r : Result} (h : Placed g c owner) (hpolicy : c.policy = .lfu)
    (heq : reqClinesLoop g src (.user d) dstMax n c req it cline idx = some r) :
    Placed g r.1 (handOver owner d r.2.2) ∧ r.1.policy = .lfu := by
  refine SpaceFrame.reqClinesLoop_rule (P := fun _ c _ _ _ r => ∀ owner, Placed g c owner → c.policy = .lfu →
    Placed g r.1 (handOver owner d r.2.2) ∧ r.1.policy = .lfu)
    (fun _ _ _ _ _ _ h hpolicy => ⟨h, hpolicy⟩) ?_ heq owner h hpolicy
  intro _ _ req it cline _ _ t _ _ _ _ _ hnext _ hassign ih owner h hpolicy
  obtain ⟨c1, it1, found, hnext', hpol, hsome⟩ := h.nextLine hpolicy req hsrc hd it cline
  cases hnext'.symm.trans hnext
  obtain ⟨hplaced, hpol2⟩ := (hsome t rfl).assignLine hassign
  exact ih _ hplaced (hpol2.trans (hpol.trans hpolicy))

/-- `ocf_lfu_req_clines`. -/
theorem Linked.reqClines (h : Placed g c owner) (hpolicy : c.policy = .lfu) {req : Request}
    (hd : req.partId < ocfUserIoClassMax) (hsrc : src.Exists) {n : Nat} {r : Result}
    (heq : ocfEvictionReqClines g c req src n = some r) :
    Placed g r.1 (handOver owner req.partId r.2.2) ∧ r.1.policy = .lfu := by
  simp only [ocfEvictionReqClines] at heq
  split at heq
  · cases heq
    exact ⟨h, hpolicy⟩
  · split at heq
    · cases heq
    · have hplaced : Placed g { c with lruIdx := c.lruIdx + 1 } owner := h.congr rfl rfl rfl rfl
      exact Linked.reqClinesLoop hsrc hd hplaced hpolicy heq

/-- An assertion of the loop about the line or the request fails: the line is
not locked or dirty, the request has no map entry left for it, or the entries
run out before the lines do. -/
def AssignFails (g : Geometry) (src dst : Part) (dstMax : Nat) :
    Nat → Cache → Request → Iter → Option Nat → Nat → Prop
  | 0, _, _, _, _, _ => False
  | n + 1, c, req, it, cline, idx => ∃ c1 it1 t,
    nextLine g c req src dst it cline = some (c1, it1, some t) ∧
      (assignLine g c1 req t.line t.src idx = none ∨
        ∃ c2 req2 idx2, assignLine g c1 req t.line t.src idx = some (c2, req2, idx2) ∧
          ¬(t.src ≠ dst.id ∧ dstMax ≤ c2.currSize dst) ∧
          (idx2 = req2.coreLineCount g ∧ n ≠ 0 ∨
            AssignFails g src dst dstMax n c2 req2 it1 (some t.line) idx2))

theorem Linked.assignFails (hsrc : src.Exists) (hd : d < ocfUserIoClassMax) {dstMax n : Nat} :
    ∀ {c : Cache} {owner : Nat → Part} {req : Request} {it : Iter} {cline : Option Nat} {idx : Nat},
      Placed g c owner → c.policy = .lfu →
      Space.reqClinesLoop g src (.user d) dstMax n c req it cline idx = none →
      AssignFails g src (.user d) dstMax n c req it cline idx := by
  induction n with
  | zero =>
    intro c owner req it cline idx _ _ heq
    cases heq
  | succ n ih =>
    intro c owner req it cline idx h hpolicy heq
    obtain ⟨c1, it1, found, hnext, hpol, hsome⟩ := h.nextLine hpolicy req hsrc hd it cline
    simp only [Space.reqClinesLoop, hnext, bind_some] at heq
    cases found with
    | none => cases heq
    | some t =>
      refine ⟨c1, it1, t, hnext, ?_⟩
      cases hassign : Space.assignLine g c1 req t.line t.src idx with
      | none => exact .inl rfl
      | some a =>
        obtain ⟨c2, req2, idx2⟩ := a
        obtain ⟨hplaced, hpol2⟩ := (hsome t rfl).assignLine hassign
        simp only [hassign, bind_some] at heq
        split at heq
        · cases heq
        · rename_i hbreak
          refine .inr ⟨c2, req2, idx2, rfl, hbreak, ?_⟩
          split at heq
          · rename_i hcount
            exact .inl hcount
          · exact .inr (ih hplaced (hpol2.trans (hpol.trans hpolicy))
              (Option.map_eq_none_iff.mp heq))

end Lines

end OcfCache.LfuPlacement
