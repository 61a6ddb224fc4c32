import OcfCache.EngineCommon
import OcfCache.LinkedLists
import OcfCache.Runs

/-!
# The collision table

Embedding of `metadata_collision.c` over the three tables of the source: the
links of the cache lines, the heads of the hash buckets and the core line of
every cache line. Fields are written modulo their width, and the index
`collision_table_entries` stands for no line. An access beyond a table and a
failed `ENV_BUG_ON` are the result `none`. The tables represent the collision
lists that the I/O engines work on.
-/

namespace OcfCache.Collision

open Function EngineCommon LinkedLists Metadata Requests Runs

/-- `OCF_CACHE_LINE_BITS`. -/
def ocfCacheLineBits : Nat := 29

/-- `OCF_CORE_LINE_BITS`. -/
def ocfCoreLineBits : Nat := 46

/-- `OCF_CORE_ID_BITS`. -/
def ocfCoreIdBits : Nat := 14

/-- `OCF_CORE_LINE_MAX`, the number of core lines of the largest core. -/
def ocfCoreLineMax : Nat := 2 ^ ocfCoreLineBits - 1

/-- `struct ocf_metadata_list_info`. -/
structure ListInfo where
  /-- Previous cache line in the collision list. -/
  prevCol : Nat
  /-- Next cache line in the collision list. -/
  nextCol : Nat
  deriving DecidableEq, Repr

/-- `struct ocf_hash_entry`. -/
structure HashEntry where
  /-- First cache line of the bucket. -/
  line : Nat
  /-- Hash lock bits for readers. -/
  rd : Nat
  /-- Hash lock bit for the writer. -/
  wr : Nat
  deriving DecidableEq, Repr

/-- `struct ocf_metadata_map` without the status bits. -/
structure MetadataMap where
  /-- Core line mapped by the cache line. -/
  coreLine : Nat
  /-- Core of the cache line. -/
  coreId : Nat
  deriving DecidableEq, Repr

/-- The three tables. -/
structure Tables where
  /-- `metadata_segment_list_info`. -/
  listInfo : Nat → ListInfo
  /-- `metadata_segment_hash`. -/
  hash : Nat → HashEntry
  /-- `metadata_segment_collision`. -/
  map : Nat → MetadataMap

/-- `ocf_metadata_list_info_set_next`. -/
def ListInfo.setNext (info : ListInfo) (next : Nat) : ListInfo :=
  { info with nextCol := next % 2 ^ ocfCacheLineBits }

/-- `ocf_metadata_list_info_set_prev`. -/
def ListInfo.setPrev (info : ListInfo) (prev : Nat) : ListInfo :=
  { info with prevCol := prev % 2 ^ ocfCacheLineBits }

/-- `ocf_metadata_list_info_set`. -/
def listInfoSet (next prev : Nat) : ListInfo :=
  ⟨prev % 2 ^ ocfCacheLineBits, next % 2 ^ ocfCacheLineBits⟩

variable (g : Geometry)

/-- Write access to the links of a line. -/
def updateListInfo (t : Tables) (line : Nat) (f : ListInfo → ListInfo) : Option Tables :=
  if line < g.collisionEntries then
    some { t with listInfo := update t.listInfo line (f (t.listInfo line)) }
  else none

/-- `ocf_metadata_set_collision_info`. -/
def ocfMetadataSetCollisionInfo (t : Tables) (line next prev : Nat) : Option Tables :=
  updateListInfo g t line fun _ => listInfoSet next prev

/-- `ocf_metadata_set_collision_next`. -/
def ocfMetadataSetCollisionNext (t : Tables) (line next : Nat) : Option Tables :=
  updateListInfo g t line fun info => info.setNext next

/-- `ocf_metadata_set_collision_prev`. -/
def ocfMetadataSetCollisionPrev (t : Tables) (line prev : Nat) : Option Tables :=
  updateListInfo g t line fun info => info.setPrev prev

/-- `ocf_metadata_get_collision_info`. -/
def ocfMetadataGetCollisionInfo (t : Tables) (line : Nat) : Option ListInfo :=
  if line < g.collisionEntries then some (t.listInfo line) else none

/-- `ocf_metadata_get_hash`. -/
def ocfMetadataGetHash (t : Tables) (index : Nat) : Option Nat :=
  if index < g.hashEntries then some (t.hash index).line else none

/-- `ocf_metadata_set_hash`; the lock bits of the entry stay. -/
def ocfMetadataSetHash (t : Tables) (index line : Nat) : Option Tables :=
  if index < g.hashEntries ∧ line ≤ g.collisionEntries then
    let entry := { t.hash index with line := line % 2 ^ ocfCacheLineBits }
    some { t with hash := update t.hash index entry }
  else none

/-- `ocf_metadata_get_core_info`. -/
def ocfMetadataGetCoreInfo (t : Tables) (line : Nat) : Option (Nat × Nat) :=
  if line < g.collisionEntries then some ((t.map line).coreId, (t.map line).coreLine) else none

/-- `ocf_metadata_set_core_info`. -/
def ocfMetadataSetCoreInfo (t : Tables) (line coreId coreLine : Nat) : Option Tables :=
  if line < g.collisionEntries then
    let entry : MetadataMap := ⟨coreLine % 2 ^ ocfCoreLineBits, coreId % 2 ^ ocfCoreIdBits⟩
    some { t with map := update t.map line entry }
  else none

/-- `_ocf_init_collision_entry` for every line and the handler of
`ocf_metadata_init_hash_table` for every bucket; the lock bits are clear. -/
def initTables : Tables where
  listInfo _ := listInfoSet g.collisionEntries g.collisionEntries
  hash _ := ⟨g.collisionEntries % 2 ^ ocfCacheLineBits, 0, 0⟩
  map _ := ⟨ullongMax % 2 ^ ocfCoreLineBits, ocfCoreNum % 2 ^ ocfCoreIdBits⟩

/-- `ocf_metadata_add_to_collision`. -/
def ocfMetadataAddToCollision (t : Tables) (coreId coreLine hash line : Nat) : Option Tables := do
  let prevLine ← ocfMetadataGetHash g t hash
  if hash < g.hashEntries ∧ line < g.collisionEntries then
    let t ← ocfMetadataSetCoreInfo g t line coreId coreLine
    let t ← ocfMetadataSetCollisionInfo g t line prevLine g.collisionEntries
    let t ← (if prevLine ≠ g.collisionEntries then ocfMetadataSetCollisionPrev g t prevLine line
      else some t)
    ocfMetadataSetHash g t hash line
  else none

/-- The part of `ocf_metadata_remove_from_collision` that unlinks the line
from its neighbours. -/
def unlinkNeighbours (t : Tables) (info : ListInfo) : Option Tables := do
  let t ← (if info.prevCol ≠ g.collisionEntries then
      ocfMetadataSetCollisionNext g t info.prevCol info.nextCol
    else some t)
  if info.nextCol ≠ g.collisionEntries then
    ocfMetadataSetCollisionPrev g t info.nextCol info.prevCol
  else some t

/-- `ocf_metadata_remove_from_collision`. -/
def ocfMetadataRemoveFromCollision (t : Tables) (line : Nat) : Option Tables := do
  let info ← ocfMetadataGetCollisionInfo g t line
  let t ← unlinkNeighbours g t info
  let core ← ocfMetadataGetCoreInfo g t line
  let hashFather := ocfMetadataHashFunc g core.2 core.1
  let head ← ocfMetadataGetHash g t hashFather
  let t ← (if head = line then ocfMetadataSetHash g t hashFather info.nextCol else some t)
  let t ← ocfMetadataSetCollisionInfo g t line g.collisionEntries g.collisionEntries
  ocfMetadataSetCoreInfo g t line ocfCoreNum ullongMax

/-- The loop of `ocf_engine_lookup_map_entry`; `none` when the fuel runs out
or a table is left. -/
def lookupWalk (t : Tables) (coreId coreLine : Nat) (entry : MapInfo) :
    Nat → Nat → Option MapInfo
  | 0, _ => none
  | fuel + 1, line =>
    if line = g.collisionEntries then some entry
    else do
      let curr ← ocfMetadataGetCoreInfo g t line
      if coreId = curr.1 ∧ curr.2 = coreLine then
        some { entry with collIdx := line, status := .hit }
      else do
        let info ← ocfMetadataGetCollisionInfo g t line
        lookupWalk t coreId coreLine entry fuel info.nextCol

/-- `ocf_engine_lookup_map_entry` on the tables. -/
def lookupMapEntry (t : Tables) (fuel : Nat) (entry : MapInfo) (coreId coreLine : Nat) :
    Option MapInfo := do
  let hash := ocfMetadataHashFunc g coreLine coreId
  let line ← ocfMetadataGetHash g t hash
  lookupWalk g t coreId coreLine
    { entry with
      hash := hash, status := .miss, collIdx := g.collisionEntries
      coreLine := coreLine, coreId := coreId } fuel line

/-- A link field as an optional line. -/
def link (v : Nat) : Option Nat := if v = g.collisionEntries then none else some v

/-- Previous line of a collision list. -/
def prevLine (t : Tables) (x : Nat) : Option Nat := link g (t.listInfo x).prevCol

/-- Next line of a collision list. -/
def nextLine (t : Tables) (x : Nat) : Option Nat := link g (t.listInfo x).nextCol

/-- A partial map from cache lines to core lines. -/
abbrev Mapping := Nat → Option (Nat × Nat)

/-- The tables hold the collision lists of `md`, which hold the mapped lines. -/
structure Represents (t : Tables) (md : LineTable) (mapping : Mapping) : Prop where
  /-- The head of a bucket is the first line of its list. -/
  head : ∀ h < g.hashEntries, link g (t.hash h).line = (md.hash h).head?
  /-- The lines of a bucket are linked in order. -/
  linked : ∀ h < g.hashEntries, Segment (prevLine g t) (nextLine g t) none (md.hash h) none
  /-- No line is in a bucket twice. -/
  nodup : ∀ h < g.hashEntries, (md.hash h).Nodup
  /-- A bucket holds the mapped lines with its hash. -/
  mem : ∀ h < g.hashEntries, ∀ x, x ∈ md.hash h ↔
    ∃ info, mapping x = some info ∧ ocfMetadataHashFunc g info.2 info.1 = h
  /-- A mapped line records its core line. -/
  mapped : ∀ x info, mapping x = some info →
    x < g.collisionEntries ∧ t.map x = ⟨info.2, info.1⟩ ∧ md.coreInfo x = info
  /-- An unmapped line has no links and no core. -/
  unmapped : ∀ x < g.collisionEntries, mapping x = none →
    t.listInfo x = ⟨g.collisionEntries, g.collisionEntries⟩ ∧ (t.map x).coreId = ocfCoreNum
  /-- A core line is mapped by one line. -/
  unique : ∀ x y info, mapping x = some info → mapping y = some info → x = y

section Representation

variable {g} {t : Tables} {md : LineTable} {mapping : Mapping}

theorem link_eq_some {v x : Nat} : link g v = some x ↔ v = x ∧ x ≠ g.collisionEntries := by
  unfold link
  split <;> simp <;> omega

theorem link_eq_none {v : Nat} : link g v = none ↔ v = g.collisionEntries := by
  simp [link]

theorem link_of_lt {v : Nat} (h : v < g.collisionEntries) : link g v = some v := by
  simp [link, Nat.ne_of_lt h]

theorem mod_cacheLine (hfit : g.collisionEntries < 2 ^ ocfCacheLineBits) {v : Nat}
    (hv : v ≤ g.collisionEntries) : v % 2 ^ ocfCacheLineBits = v :=
  Nat.mod_eq_of_lt (Nat.lt_of_le_of_lt hv hfit)

theorem Represents.lt (hr : Represents g t md mapping) {h x : Nat} (hh : h < g.hashEntries)
    (hx : x ∈ md.hash h) : x < g.collisionEntries := by
  obtain ⟨info, hinfo, -⟩ := (hr.mem h hh x).mp hx
  exact (hr.mapped x info hinfo).1

theorem Represents.bucket (hr : Represents g t md mapping) {h h' x : Nat} (hh : h < g.hashEntries)
    (hh' : h' < g.hashEntries) (hx : x ∈ md.hash h) (hx' : x ∈ md.hash h') : h = h' := by
  obtain ⟨info, hinfo, hhash⟩ := (hr.mem h hh x).mp hx
  obtain ⟨info', hinfo', hhash'⟩ := (hr.mem h' hh' x).mp hx'
  rw [hinfo] at hinfo'
  rw [← hhash, ← hhash', Option.some.inj hinfo']

theorem represents_init (hfit : g.collisionEntries < 2 ^ ocfCacheLineBits) (hmd : ∀ h, md.hash h = []) :
    Represents g (initTables g) md fun _ => none where
  head h _ := by simp [initTables, hmd, mod_cacheLine hfit, link_eq_none]
  linked h _ := by simp [hmd, Segment]
  nodup h _ := by simp [hmd]
  mem h _ x := by simp [hmd]
  mapped x info h := by cases h
  unmapped x _ _ := by simp [initTables, listInfoSet, mod_cacheLine hfit, ocfCoreNum, ocfCoreIdBits]
  unique x y info h := by cases h

theorem ocfMetadataAddToCollision_eq (hfit : g.collisionEntries < 2 ^ ocfCacheLineBits)
    {coreId coreLine hash line : Nat} (hhash : hash < g.hashEntries)
    (hline : line < g.collisionEntries) (hhead : (t.hash hash).line ≤ g.collisionEntries)
    (hne : (t.hash hash).line ≠ line) (hid : coreId < ocfCoreNum) (hcl : coreLine < ocfCoreLineMax) :
    ∃ t', ocfMetadataAddToCollision g t coreId coreLine hash line = some t' ∧
      t'.hash = update t.hash hash { t.hash hash with line := line } ∧
      t'.map = update t.map line ⟨coreLine, coreId⟩ ∧
      t'.listInfo line = ⟨g.collisionEntries, (t.hash hash).line⟩ ∧
      ∀ y < g.collisionEntries, y ≠ line → t'.listInfo y =
        if y = (t.hash hash).line then { t.listInfo y with prevCol := line }
        else t.listInfo y := by
  have hidMod : coreId % 2 ^ ocfCoreIdBits = coreId :=
    Nat.mod_eq_of_lt (hid.trans (by decide))
  have hclMod : coreLine % 2 ^ ocfCoreLineBits = coreLine :=
    Nat.mod_eq_of_lt (hcl.trans (by decide))
  have hlineMod := mod_cacheLine hfit hline.le
  by_cases hempty : (t.hash hash).line = g.collisionEntries
  · refine ⟨_, by
      simp [ocfMetadataAddToCollision, ocfMetadataGetHash, ocfMetadataSetCoreInfo,
        ocfMetadataSetCollisionInfo, updateListInfo, ocfMetadataSetHash, hhash, hline, hempty,
        hline.le]
      rfl, by simp [hlineMod], by simp [hidMod, hclMod],
      by simp [listInfoSet, mod_cacheLine hfit, hempty], ?_⟩
    intro y hy hyl
    have hyh : y ≠ (t.hash hash).line := by omega
    simp [hyl, hyh]
  · have hlt : (t.hash hash).line < g.collisionEntries := by omega
    refine ⟨_, by
      simp [ocfMetadataAddToCollision, ocfMetadataGetHash, ocfMetadataSetCoreInfo,
        ocfMetadataSetCollisionInfo, ocfMetadataSetCollisionPrev, updateListInfo,
        ocfMetadataSetHash, hhash, hline, hempty, hlt, hline.le]
      rfl, by simp [hlineMod], by simp [hidMod, hclMod],
      by simp [listInfoSet, mod_cacheLine hfit, hhead, Ne.symm hne], ?_⟩
    intro y hy hyl
    by_cases hyh : y = (t.hash hash).line
    · rw [if_pos hyh]
      subst hyh
      simp [hyl, ListInfo.setPrev, hlineMod]
    · simp [hyl, hyh]

theorem Represents.head_le (hr : Represents g t md mapping) {h : Nat} (hh : h < g.hashEntries) :
    (t.hash h).line ≤ g.collisionEntries := by
  have hhead := hr.head h hh
  cases hmd : (md.hash h).head? with
  | none =>
    rw [hmd, link_eq_none] at hhead
    omega
  | some y =>
    rw [hmd, link_eq_some] at hhead
    have hy := hr.lt hh (List.mem_of_mem_head? hmd)
    omega

/-- A line in front of its bucket. -/
theorem Represents.add (hr : Represents g t md mapping)
    (hfit : g.collisionEntries < 2 ^ ocfCacheLineBits) {coreId coreLine line : Nat}
    (hpos : 0 < g.hashEntries) (hline : line < g.collisionEntries) (hnone : mapping line = none)
    (hnew : ∀ x, mapping x ≠ some (coreId, coreLine)) (hid : coreId < ocfCoreNum)
    (hcl : coreLine < ocfCoreLineMax) :
    ∃ t', ocfMetadataAddToCollision g t coreId coreLine (ocfMetadataHashFunc g coreLine coreId) line
        = some t' ∧ Represents g t' (Metadata.ocfMetadataAddToCollision md coreId coreLine
        (ocfMetadataHashFunc g coreLine coreId) line)
        (update mapping line (some (coreId, coreLine))) := by
  have hhash : ocfMetadataHashFunc g coreLine coreId < g.hashEntries := Nat.mod_lt _ hpos
  generalize hdef : ocfMetadataHashFunc g coreLine coreId = hash at hhash
  have hfresh : ∀ h < g.hashEntries, ∀ x ∈ md.hash h, x ≠ line := by
    intro h hh x hx hxl
    obtain ⟨info, hinfo, -⟩ := (hr.mem h hh x).mp hx
    rw [hxl, hnone] at hinfo
    cases hinfo
  have hheadMem : ∀ y, y < g.collisionEntries → y = (t.hash hash).line → y ∈ md.hash hash := by
    intro y hy hyh
    have hhead := hr.head hash hhash
    rw [← hyh, link_of_lt hy] at hhead
    exact List.mem_of_mem_head? hhead.symm
  have hne : (t.hash hash).line ≠ line := by
    intro heq
    exact hfresh hash hhash line (hheadMem line hline heq.symm) rfl
  obtain ⟨t', heq, hH, hM, hL, hO⟩ :=
    ocfMetadataAddToCollision_eq (t := t) hfit hhash hline (hr.head_le hhash) hne hid hcl
  have hother : ∀ h < g.hashEntries, h ≠ hash → ∀ y ∈ md.hash h, t'.listInfo y = t.listInfo y := by
    intro h hh hhne y hy
    have hlt := hr.lt hh hy
    rw [hO y hlt (hfresh h hh y hy), if_neg]
    exact fun hyh => hhne (hr.bucket hh hhash hy (hheadMem y hlt hyh))
  refine ⟨t', heq, ?_, ?_, ?_, ?_, ?_, ?_, ?_⟩
  · intro h hh
    by_cases hhne : h = hash
    · simp [hH, hhne, Metadata.ocfMetadataAddToCollision, link_of_lt hline]
    · simp [hH, hhne, Metadata.ocfMetadataAddToCollision, hr.head h hh]
  · intro h hh
    by_cases hhne : h = hash
    · subst hhne
      simp only [Metadata.ocfMetadataAddToCollision, update_self]
      refine (hr.linked h hh).insertHead ?_ ?_ ?_ ?_
      · simp [prevLine, hL, link_eq_none]
      · simp [nextLine, hL, hr.head h hh]
      · intro y hy
        have := hO y (hr.lt hh hy) (hfresh h hh y hy)
        unfold nextLine
        rw [this]
        split <;> rfl
      · intro y ys hys
        have hhead := hr.head h hh
        rw [hys, List.head?_cons, link_eq_some] at hhead
        have hy : y ∈ md.hash h := by simp [hys]
        constructor
        · unfold prevLine
          rw [hO y (hr.lt hh hy) (hfresh h hh y hy), if_pos hhead.1.symm]
          exact link_of_lt hline
        · intro z hz
          have hzm : z ∈ md.hash h := by simp [hys, hz]
          have hzy : z ≠ (t.hash h).line := by
            intro hzy
            have hnodup := hr.nodup h hh
            rw [hys, List.nodup_cons] at hnodup
            exact hnodup.1 (hhead.1 ▸ hzy ▸ hz)
          unfold prevLine
          rw [hO z (hr.lt hh hzm) (hfresh h hh z hzm), if_neg hzy]
    · simp only [Metadata.ocfMetadataAddToCollision, update_of_ne hhne]
      refine (hr.linked h hh).congr ?_ ?_
      · intro y hy
        simp only [prevLine, hother h hh hhne y hy]
      · intro y hy
        simp only [nextLine, hother h hh hhne y hy]
  · intro h hh
    by_cases hhne : h = hash
    · subst hhne
      simp only [Metadata.ocfMetadataAddToCollision, update_self, List.nodup_cons]
      exact ⟨fun hx => hfresh h hh line hx rfl, hr.nodup h hh⟩
    · simp only [Metadata.ocfMetadataAddToCollision, update_of_ne hhne]
      exact hr.nodup h hh
  · intro h hh x
    by_cases hx : x = line
    · subst hx
      have hnot : x ∉ md.hash h := fun hx => hfresh h hh x hx rfl
      by_cases hhne : h = hash
      · simp [Metadata.ocfMetadataAddToCollision, hhne, hdef]
      · simp [Metadata.ocfMetadataAddToCollision, hhne, hnot, hdef, Ne.symm hhne]
    · by_cases hhne : h = hash
      · subst hhne
        simp only [Metadata.ocfMetadataAddToCollision, update_self, List.mem_cons, hx,
          false_or, ne_eq, not_false_eq_true, update_of_ne]
        exact hr.mem h hh x
      · simp only [Metadata.ocfMetadataAddToCollision, update_of_ne hhne,
          update_of_ne hx]
        exact hr.mem h hh x
  · intro x info hinfo
    by_cases hx : x = line
    · subst hx
      rw [update_self, Option.some.injEq] at hinfo
      simp [hM, ← hinfo, hline, Metadata.ocfMetadataAddToCollision]
    · rw [update_of_ne hx] at hinfo
      simp only [hM, update_of_ne hx, Metadata.ocfMetadataAddToCollision]
      exact hr.mapped x info hinfo
  · intro x hxlt hinfo
    have hx : x ≠ line := by
      intro hx
      simp [hx] at hinfo
    rw [update_of_ne hx] at hinfo
    have hxh : x ≠ (t.hash hash).line := by
      intro hxh
      obtain ⟨info, hsome, -⟩ := (hr.mem hash hhash x).mp (hheadMem x hxlt hxh)
      rw [hinfo] at hsome
      cases hsome
    rw [hO x hxlt hx, if_neg hxh, hM, update_of_ne hx]
    exact hr.unmapped x hxlt hinfo
  · intro x y info hx hy
    by_cases hxl : x = line <;> by_cases hyl : y = line
    · rw [hxl, hyl]
    · rw [hxl, update_self] at hx
      rw [update_of_ne hyl, ← hx] at hy
      exact absurd hy (hnew y)
    · rw [hyl, update_self] at hy
      rw [update_of_ne hxl, ← hy] at hx
      exact absurd hx (hnew x)
    · rw [update_of_ne hxl] at hx
      rw [update_of_ne hyl] at hy
      exact hr.unique x y info hx hy

theorem updateListInfo_of_link {v : Nat} (f : ListInfo → ListInfo) (hv : v ≤ g.collisionEntries) :
    ∃ t', (if v ≠ g.collisionEntries then updateListInfo g t v f else some t) = some t' ∧
      t'.hash = t.hash ∧ t'.map = t.map ∧ ∀ y < g.collisionEntries, t'.listInfo y =
        if y = v then f (t.listInfo y) else t.listInfo y := by
  by_cases hve : v = g.collisionEntries
  · refine ⟨t, by simp [hve], rfl, rfl, fun y hy => ?_⟩
    rw [if_neg (by omega)]
  · have hlt : v < g.collisionEntries := by omega
    have heq : updateListInfo g t v f =
        some { t with listInfo := update t.listInfo v (f (t.listInfo v)) } := by
      rw [updateListInfo, if_pos hlt]
    rw [if_pos hve, heq]
    refine ⟨_, rfl, rfl, rfl, fun y _ => ?_⟩
    by_cases hy : y = v
    · simp [hy]
    · simp [hy]

theorem unlinkNeighbours_eq (hfit : g.collisionEntries < 2 ^ ocfCacheLineBits) {info : ListInfo}
    (hp : info.prevCol ≤ g.collisionEntries) (hq : info.nextCol ≤ g.collisionEntries) :
    ∃ t', unlinkNeighbours g t info = some t' ∧ t'.hash = t.hash ∧ t'.map = t.map ∧
      ∀ y < g.collisionEntries, t'.listInfo y =
        ⟨if y = info.nextCol then info.prevCol else (t.listInfo y).prevCol,
          if y = info.prevCol then info.nextCol else (t.listInfo y).nextCol⟩ := by
  obtain ⟨t₁, heq₁, hH₁, hM₁, hL₁⟩ :=
    updateListInfo_of_link (t := t) (fun i => i.setNext info.nextCol) hp
  obtain ⟨t₂, heq₂, hH₂, hM₂, hL₂⟩ :=
    updateListInfo_of_link (t := t₁) (fun i => i.setPrev info.prevCol) hq
  have heq : unlinkNeighbours g t info = some t₂ := by
    simp only [unlinkNeighbours, ocfMetadataSetCollisionNext, ocfMetadataSetCollisionPrev]
    rw [heq₁]
    exact heq₂
  refine ⟨t₂, heq, hH₂.trans hH₁, hM₂.trans hM₁, fun y hy => ?_⟩
  rw [hL₂ y hy, hL₁ y hy]
  simp only [ListInfo.setNext, ListInfo.setPrev, mod_cacheLine hfit hp, mod_cacheLine hfit hq]
  split <;> split <;> rfl

/-- Removal in terms of the links. -/
theorem ocfMetadataRemoveFromCollision_eq (hfit : g.collisionEntries < 2 ^ ocfCacheLineBits)
    {line hash : Nat} {info : ListInfo} (hline : line < g.collisionEntries)
    (hinfo : t.listInfo line = info) (hp : info.prevCol ≤ g.collisionEntries)
    (hq : info.nextCol ≤ g.collisionEntries) (hhash : hash < g.hashEntries)
    (hfather : ocfMetadataHashFunc g (t.map line).coreLine (t.map line).coreId = hash) :
    ∃ t', ocfMetadataRemoveFromCollision g t line = some t' ∧
      (∀ h, (t'.hash h).line = if h = hash ∧ (t.hash h).line = line then info.nextCol
        else (t.hash h).line) ∧
      (∀ y ≠ line, t'.map y = t.map y) ∧ (t'.map line).coreId = ocfCoreNum ∧
      t'.listInfo line = ⟨g.collisionEntries, g.collisionEntries⟩ ∧
      ∀ y < g.collisionEntries, y ≠ line → t'.listInfo y =
        ⟨if y = info.nextCol then info.prevCol else (t.listInfo y).prevCol,
          if y = info.prevCol then info.nextCol else (t.listInfo y).nextCol⟩ := by
  obtain ⟨t₁, heq₁, hH₁, hM₁, hL₁⟩ := unlinkNeighbours_eq (t := t) hfit hp hq
  have hhead : ∃ t₂, (if (t.hash hash).line = line then ocfMetadataSetHash g t₁ hash info.nextCol
      else some t₁) = some t₂ ∧ t₂.listInfo = t₁.listInfo ∧ t₂.map = t₁.map ∧
      ∀ h, (t₂.hash h).line = if h = hash ∧ (t.hash h).line = line then info.nextCol
        else (t.hash h).line := by
    by_cases hfirst : (t.hash hash).line = line
    · rw [if_pos hfirst, ocfMetadataSetHash, if_pos ⟨hhash, hq⟩]
      refine ⟨_, rfl, rfl, rfl, fun h => ?_⟩
      by_cases hh : h = hash
      · simp [hh, hfirst, mod_cacheLine hfit hq]
      · simp [hh, hH₁]
    · rw [if_neg hfirst]
      refine ⟨_, rfl, rfl, rfl, fun h => ?_⟩
      rw [hH₁, if_neg]
      rintro ⟨rfl, hl⟩
      exact hfirst hl
  obtain ⟨t₂, heq₂, hL₂, hM₂, hH₂⟩ := hhead
  have heq : ocfMetadataRemoveFromCollision g t line = some
      { listInfo := update t₂.listInfo line
          (listInfoSet g.collisionEntries g.collisionEntries)
        hash := t₂.hash
        map := update t₂.map line
          ⟨ullongMax % 2 ^ ocfCoreLineBits, ocfCoreNum % 2 ^ ocfCoreIdBits⟩ } := by
    simp only [ocfMetadataRemoveFromCollision, ocfMetadataGetCollisionInfo,
      ocfMetadataGetCoreInfo, ocfMetadataGetHash, hinfo, heq₁, hM₁, hH₁, if_pos hline, hfather,
      if_pos hhash, heq₂, ocfMetadataSetCollisionInfo, updateListInfo, ocfMetadataSetCoreInfo,
      bind, Option.bind]
  refine ⟨_, heq, hH₂, ?_, ?_, ?_, ?_⟩
  · intro y hy
    simp [hy, hM₂, hM₁]
  · simp [ocfCoreNum, ocfCoreIdBits]
  · simp [listInfoSet, mod_cacheLine hfit]
  · intro y hy hyl
    simp [hyl, hL₂, hL₁ y hy]

theorem link_le {v : Nat} (h : ∀ x, link g v = some x → x < g.collisionEntries) :
    v ≤ g.collisionEntries := by
  by_cases hv : v = g.collisionEntries
  · omega
  · exact (h v (link_eq_some.mpr ⟨rfl, hv⟩)).le

section

variable (hr : Represents g t md mapping)
include hr

/-- Removal of a mapped line. -/
theorem Represents.remove
    (hfit : g.collisionEntries < 2 ^ ocfCacheLineBits) (hpos : 0 < g.hashEntries) {line : Nat}
    {core : Nat × Nat} (hsome : mapping line = some core) :
    ∃ t', ocfMetadataRemoveFromCollision g t line = some t' ∧
      Represents g t' (Metadata.ocfMetadataRemoveFromCollision g md line)
        (update mapping line none) := by
  obtain ⟨hline, hmap, hmd⟩ := hr.mapped line core hsome
  have hhash : ocfMetadataHashFunc g core.2 core.1 < g.hashEntries := Nat.mod_lt _ hpos
  have hfather : ocfMetadataHashFunc g (t.map line).coreLine (t.map line).coreId =
      ocfMetadataHashFunc g core.2 core.1 := by rw [hmap]
  have hmem : line ∈ md.hash (ocfMetadataHashFunc g core.2 core.1) :=
    (hr.mem _ hhash line).mpr ⟨core, hsome, rfl⟩
  have hmdRemove : Metadata.ocfMetadataRemoveFromCollision g md line =
      { md with
        hash := update md.hash (ocfMetadataHashFunc g core.2 core.1)
          ((md.hash (ocfMetadataHashFunc g core.2 core.1)).erase line)
        coreInfo := update md.coreInfo line (ocfCoreNum, ullongMax) } := by
    simp only [Metadata.ocfMetadataRemoveFromCollision, hmd]
  generalize ocfMetadataHashFunc g core.2 core.1 = hash at hhash hfather hmem hmdRemove
  obtain ⟨xs, ys, hsplit⟩ := List.append_of_mem hmem
  have hnodup := hr.nodup hash hhash
  have hlinked := hr.linked hash hhash
  rw [hsplit] at hnodup hlinked
  obtain ⟨hp, hn⟩ := hlinked.links
  simp only [Option.or_none, prevLine, nextLine] at hp hn
  have hmemX : ∀ y ∈ xs, y ∈ md.hash hash := fun y hy => by simp [hsplit, hy]
  have hmemY : ∀ y ∈ ys, y ∈ md.hash hash := fun y hy => by simp [hsplit, hy]
  have hpLe : (t.listInfo line).prevCol ≤ g.collisionEntries :=
    link_le fun x hx => hr.lt hhash (hmemX x (List.mem_of_mem_getLast? (hp ▸ hx)))
  have hqLe : (t.listInfo line).nextCol ≤ g.collisionEntries :=
    link_le fun x hx => hr.lt hhash (hmemY x (List.mem_of_mem_head? (hn ▸ hx)))
  obtain ⟨t', heq, hH, hM, hMx, hLx, hL⟩ :=
    ocfMetadataRemoveFromCollision_eq (t := t) hfit hline rfl hpLe hqLe hhash hfather
  have hne : line ∉ xs ++ ys := by
    have hperm : (line :: (xs ++ ys)).Nodup := (List.perm_middle.nodup_iff).mp hnodup
    exact (List.nodup_cons.mp hperm).1
  have herase : (md.hash hash).erase line = xs ++ ys := by
    rw [hsplit, List.erase_append_right _ fun h => hne (List.mem_append_left ys h),
      List.erase_cons_head]
  have hnext : ∀ y < g.collisionEntries, (y = (t.listInfo line).nextCol ↔ ys.head? = some y) := by
    intro y hy
    rw [← hn, link_eq_some]
    omega
  have hprev : ∀ y < g.collisionEntries, (y = (t.listInfo line).prevCol ↔ xs.getLast? = some y) := by
    intro y hy
    rw [← hp, link_eq_some]
    omega
  -- A line of another bucket, or of none, is no neighbour of the removed one.
  have hsame : ∀ y < g.collisionEntries, y ≠ line → y ∉ md.hash hash →
      t'.listInfo y = t.listInfo y := by
    intro y hy hyl hmem
    rw [hL y hy hyl, if_neg, if_neg]
    · rw [hprev y hy]
      exact fun h => hmem (hmemX y (List.mem_of_mem_getLast? h))
    · rw [hnext y hy]
      exact fun h => hmem (hmemY y (List.mem_of_mem_head? h))
  rw [hmdRemove]
  refine ⟨t', heq, ?_, ?_, ?_, ?_, ?_, ?_, ?_⟩
  · intro h hh
    have hhead := hr.head h hh
    by_cases hhne : h = hash
    · subst hhne
      simp only [update_self, herase]
      rw [hH]
      rw [hsplit] at hhead
      cases xs with
      | nil =>
        rw [List.nil_append, List.head?_cons, link_eq_some] at hhead
        rw [if_pos ⟨rfl, hhead.1⟩, List.nil_append]
        exact hn
      | cons z zs =>
        rw [List.cons_append, List.head?_cons] at hhead
        have hz : ¬(t.hash h).line = line := by
          intro hz
          rw [hz, link_of_lt hline] at hhead
          exact hne (by simp [Option.some.inj hhead])
        rw [if_neg fun hc => hz hc.2, hhead]
        rfl
    · simp only [update_of_ne hhne, hH, hhne, false_and, if_false]
      exact hhead
  · intro h hh
    by_cases hhne : h = hash
    · subst hhne
      simp only [update_self, herase]
      have hlt : ∀ y ∈ xs ++ ys, y < g.collisionEntries ∧ y ≠ line := by
        intro y hy
        refine ⟨?_, fun hyl => hne (hyl ▸ hy)⟩
        rcases List.mem_append.mp hy with hy | hy
        · exact hr.lt hh (hmemX y hy)
        · exact hr.lt hh (hmemY y hy)
      refine hlinked.remove hnodup (fun y hy => ?_) fun y hy => ?_
      · obtain ⟨hylt, hyl⟩ := hlt y hy
        have hiff := hnext y hylt
        simp only [prevLine, nextLine, hn, hL y hylt hyl]
        exact ⟨fun h => by rw [if_pos (hiff.mpr h)], fun h => by rw [if_neg (mt hiff.mp h)]⟩
      · obtain ⟨hylt, hyl⟩ := hlt y hy
        have hiff := hprev y hylt
        simp only [prevLine, nextLine, hp, hL y hylt hyl]
        exact ⟨fun h => by rw [if_pos (hiff.mpr h)], fun h => by rw [if_neg (mt hiff.mp h)]⟩
    · simp only [update_of_ne hhne]
      have hkeep : ∀ y ∈ md.hash h, t'.listInfo y = t.listInfo y := by
        intro y hy
        have hnot : y ∉ md.hash hash := fun hy' => hhne (hr.bucket hh hhash hy hy')
        exact hsame y (hr.lt hh hy) (fun hyl => hnot (hyl ▸ hmem)) hnot
      refine (hr.linked h hh).congr (fun y hy => ?_) fun y hy => ?_
      · simp only [prevLine, hkeep y hy]
      · simp only [nextLine, hkeep y hy]
  · intro h hh
    by_cases hhne : h = hash
    · subst hhne
      simp only [update_self]
      exact (hr.nodup h hh).erase line
    · simp only [update_of_ne hhne]
      exact hr.nodup h hh
  · intro h hh x
    by_cases hx : x = line
    · subst hx
      by_cases hhne : h = hash
      · subst hhne
        simp only [update_self, herase]
        simp [hne]
      · simp only [update_of_ne hhne, update_self]
        simp only [reduceCtorEq, false_and, exists_false, iff_false]
        exact fun hx => hhne (hr.bucket hh hhash hx hmem)
    · rw [update_of_ne hx, ← hr.mem h hh x]
      by_cases hhne : h = hash
      · subst hhne
        simp only [update_self]
        exact List.mem_erase_of_ne hx
      · simp only [update_of_ne hhne]
  · intro x info hinfo
    have hx : x ≠ line := by
      intro hx
      simp [hx] at hinfo
    rw [update_of_ne hx] at hinfo
    simp only [hM x hx, update_of_ne hx]
    exact hr.mapped x info hinfo
  · intro x hxlt hinfo
    by_cases hx : x = line
    · rw [hx]
      exact ⟨hLx, hMx⟩
    · rw [update_of_ne hx] at hinfo
      have hnot : x ∉ md.hash hash := by
        intro hx
        obtain ⟨info, hinfo', -⟩ := (hr.mem hash hhash x).mp hx
        rw [hinfo] at hinfo'
        cases hinfo'
      rw [hsame x hxlt hx hnot, hM x hx]
      exact hr.unmapped x hxlt hinfo
  · intro x y info hx hy
    have hxl : x ≠ line := by
      intro hx'
      simp [hx'] at hx
    have hyl : y ≠ line := by
      intro hy'
      simp [hy'] at hy
    rw [update_of_ne hxl] at hx
    rw [update_of_ne hyl] at hy
    exact hr.unique x y info hx hy

theorem lookupWalk_eq {h : Nat} (hh : h < g.hashEntries)
    (coreId coreLine : Nat) (entry : MapInfo) {fuel line : Nat} {p : Option Nat} {xs : List Nat}
    (hsub : ∀ x ∈ xs, x ∈ md.hash h) (hlinked : Segment (prevLine g t) (nextLine g t) p xs none)
    (hhead : link g line = xs.head?) (hfuel : xs.length < fuel) :
    lookupWalk g t coreId coreLine entry fuel line =
      some (match findLine md coreId coreLine xs with
        | some x => { entry with collIdx := x, status := .hit }
        | none => entry) := by
  induction xs generalizing fuel line p with
  | nil =>
    obtain ⟨fuel, rfl⟩ : ∃ n, fuel = n + 1 := ⟨fuel - 1, by simp at hfuel; omega⟩
    rw [List.head?_nil, link_eq_none] at hhead
    simp [lookupWalk, hhead, findLine]
  | cons x xs ih =>
    obtain ⟨fuel, rfl⟩ : ∃ n, fuel = n + 1 := ⟨fuel - 1, by simp at hfuel; omega⟩
    rw [List.head?_cons, link_eq_some] at hhead
    obtain ⟨rfl, hne⟩ := hhead
    obtain ⟨-, hnext, hrest⟩ := hlinked
    have hx := hsub line List.mem_cons_self
    obtain ⟨info, hinfo, -⟩ := (hr.mem h hh line).mp hx
    obtain ⟨hlt, hmap, hmd⟩ := hr.mapped line info hinfo
    simp only [lookupWalk, if_neg hne, ocfMetadataGetCoreInfo, if_pos hlt, hmap, bind, Option.bind,
      ocfMetadataGetCollisionInfo, findLine, List.find?_cons, hmd]
    by_cases hhit : coreId = info.1 ∧ info.2 = coreLine
    · have hpair : info = (coreId, coreLine) := Prod.ext hhit.1.symm hhit.2
      simp [hpair]
    · have hpair : info ≠ (coreId, coreLine) := fun h => hhit ⟨by rw [h], by rw [h]⟩
      rw [if_neg hhit]
      simp only [hpair, decide_false]
      rw [Option.or_none] at hnext
      exact ih (fun y hy => hsub y (List.mem_cons_of_mem line hy)) hrest hnext
        (by simp at hfuel; omega)

theorem Represents.length_le {h : Nat} (hh : h < g.hashEntries) :
    (md.hash h).length ≤ g.collisionEntries := by
  have hsub : md.hash h ⊆ List.range g.collisionEntries :=
    fun x hx => List.mem_range.mpr (hr.lt hh hx)
  have hle := (List.Nodup.subperm (hr.nodup h hh) hsub).length_le
  simpa using hle

theorem Represents.lookup (hpos : 0 < g.hashEntries) {fuel : Nat}
    (hfuel : g.collisionEntries < fuel) (entry : MapInfo) (coreId coreLine : Nat) :
    lookupMapEntry g t fuel entry coreId coreLine =
      some (ocfEngineLookupMapEntry g md entry coreId coreLine) := by
  have hhash : ocfMetadataHashFunc g coreLine coreId < g.hashEntries := Nat.mod_lt _ hpos
  have hlen := hr.length_le hhash
  simp only [lookupMapEntry, ocfMetadataGetHash, if_pos hhash, bind, Option.bind]
  rw [lookupWalk_eq hr hhash coreId coreLine _ (fun _ hx => hx) (hr.linked _ hhash)
    (hr.head _ hhash) (by omega)]
  unfold ocfEngineLookupMapEntry lookupLine
  cases findLine md coreId coreLine (md.hash (ocfMetadataHashFunc g coreLine coreId)) with
  | none => rfl
  | some x => rfl

theorem Represents.lookupLine_eq (hpos : 0 < g.hashEntries) {coreId coreLine x : Nat} :
    lookupLine g md coreId coreLine = some x ↔ mapping x = some (coreId, coreLine) := by
  have hhash : ocfMetadataHashFunc g coreLine coreId < g.hashEntries := Nat.mod_lt _ hpos
  constructor
  · intro h
    have hmem := List.mem_of_find?_eq_some h
    have hinfo : md.coreInfo x = (coreId, coreLine) := by simpa using List.find?_some h
    obtain ⟨info, hmap, -⟩ := (hr.mem _ hhash x).mp hmem
    rw [hmap, ← (hr.mapped x info hmap).2.2, hinfo]
  · intro h
    have hmem := (hr.mem _ hhash x).mpr ⟨_, h, rfl⟩
    cases hfind : lookupLine g md coreId coreLine with
    | none =>
      have hnone := List.find?_eq_none.mp hfind x hmem
      simp [(hr.mapped x _ h).2.2] at hnone
    | some y =>
      have hy : md.coreInfo y = (coreId, coreLine) := by simpa using List.find?_some hfind
      obtain ⟨info, hmap, -⟩ := (hr.mem _ hhash y).mp (List.mem_of_find?_eq_some hfind)
      have hinfo : info = (coreId, coreLine) := (hr.mapped y info hmap).2.2.symm.trans hy
      rw [hr.unique y x info hmap (by rw [h, hinfo])]

end

end Representation

/-- The tables and the mapping that the operations on them stand for. -/
structure State where
  /-- The tables. -/
  tables : Tables
  /-- Mapped lines with their core and core line. -/
  mapping : Mapping

/-- Operations on the collision table. -/
inductive Op
  /-- `ocf_metadata_add_to_collision`. -/
  | add (coreId coreLine line : Nat)
  /-- `ocf_metadata_remove_from_collision`. -/
  | remove (line : Nat)
  deriving DecidableEq, Repr

/-- Callers' contract: an unmapped line gets a core line that no line has, of
a core that was accepted, and only mapped lines are removed. -/
def Op.Allowed (s : State) : Op → Prop
  | .add coreId coreLine line =>
    line < g.collisionEntries ∧ s.mapping line = none ∧
      (∀ x, s.mapping x ≠ some (coreId, coreLine)) ∧ coreId < ocfCoreNum ∧
      coreLine < ocfCoreLineMax
  | .remove line => s.mapping line ≠ none

/-- One operation. -/
def State.step (s : State) : Op → Option State
  | .add coreId coreLine line =>
    (ocfMetadataAddToCollision g s.tables coreId coreLine (ocfMetadataHashFunc g coreLine coreId)
      line).map fun t => ⟨t, update s.mapping line (some (coreId, coreLine))⟩
  | .remove line =>
    (ocfMetadataRemoveFromCollision g s.tables line).map fun t =>
      ⟨t, update s.mapping line none⟩

/-- The collision table under its operations. -/
def collisionSystem : System State Op where
  guard s op := op.Allowed g s
  step s op := s.step g op

/-- The initialised tables. -/
def initState : State := ⟨initTables g, fun _ => none⟩

/-- The collision table is a partial map. -/
structure IsPartialMap (s : State) : Prop where
  /-- A bucket is a finite doubly linked list of the lines with its hash. -/
  chain : ∀ h < g.hashEntries, ∃ xs : List Nat, xs.Nodup ∧
    link g (s.tables.hash h).line = xs.head? ∧
    Segment (prevLine g s.tables) (nextLine g s.tables) none xs none ∧
    ∀ x, x ∈ xs ↔ s.mapping x ≠ none ∧ x < g.collisionEntries ∧
      ocfMetadataHashFunc g (s.tables.map x).coreLine (s.tables.map x).coreId = h
  /-- The core line recorded for a mapped line. -/
  mapped : ∀ x coreId coreLine, s.mapping x = some (coreId, coreLine) →
    x < g.collisionEntries ∧ s.tables.map x = ⟨coreLine, coreId⟩
  /-- Unmapped lines have no links and no core. -/
  unmapped : ∀ x < g.collisionEntries, s.mapping x = none →
    s.tables.listInfo x = ⟨g.collisionEntries, g.collisionEntries⟩ ∧
      (s.tables.map x).coreId = ocfCoreNum
  /-- The lookup ends, with a hit on the one line that is mapped. -/
  lookup : ∀ fuel, g.collisionEntries < fuel → ∀ entry coreId coreLine,
    ∃ result, lookupMapEntry g s.tables fuel entry coreId coreLine = some result ∧
      (∀ x, result.status = .hit ∧ result.collIdx = x ↔ s.mapping x = some (coreId, coreLine)) ∧
      (result.status = .miss ↔ ∀ x, s.mapping x ≠ some (coreId, coreLine))

section Runs

variable {g} {s : State}

theorem Represents.isPartialMap {md : LineTable} (hr : Represents g s.tables md s.mapping)
    (hpos : 0 < g.hashEntries) : IsPartialMap g s where
  chain h hh := by
    refine ⟨md.hash h, hr.nodup h hh, hr.head h hh, hr.linked h hh, fun x => ?_⟩
    rw [hr.mem h hh x]
    constructor
    · rintro ⟨info, hinfo, hhash⟩
      obtain ⟨hlt, hmap, -⟩ := hr.mapped x info hinfo
      refine ⟨by simp [hinfo], hlt, ?_⟩
      rw [hmap, hhash]
    · rintro ⟨hsome, -, hhash⟩
      obtain ⟨info, hinfo⟩ := Option.ne_none_iff_exists'.mp hsome
      refine ⟨info, hinfo, ?_⟩
      rw [(hr.mapped x info hinfo).2.1] at hhash
      exact hhash
  mapped x coreId coreLine h := by
    obtain ⟨hlt, hmap, -⟩ := hr.mapped x _ h
    exact ⟨hlt, hmap⟩
  unmapped := hr.unmapped
  lookup fuel hfuel entry coreId coreLine := by
    refine ⟨_, hr.lookup hpos hfuel entry coreId coreLine, ?_⟩
    unfold ocfEngineLookupMapEntry
    cases hfind : lookupLine g md coreId coreLine with
    | none =>
      have hnone : ∀ x, s.mapping x ≠ some (coreId, coreLine) := by
        intro x hx
        rw [(hr.lookupLine_eq hpos).mpr hx] at hfind
        cases hfind
      simp [hnone]
    | some y =>
      have hy := (hr.lookupLine_eq hpos).mp hfind
      constructor
      · intro x
        simp only [true_and]
        constructor
        · rintro rfl
          exact hy
        · intro hx
          exact hr.unique y x _ hy hx
      · simp only [reduceCtorEq, false_iff, not_forall, not_not]
        exact ⟨y, hy⟩

theorem Represents.step (hpos : 0 < g.hashEntries)
    (hfit : g.collisionEntries < 2 ^ ocfCacheLineBits) {md : LineTable} {op : Op}
    (hr : Represents g s.tables md s.mapping) (hop : op.Allowed g s) :
    ∃ s' md', s.step g op = some s' ∧ Represents g s'.tables md' s'.mapping := by
  cases op with
  | add coreId coreLine line =>
    obtain ⟨hline, hnone, hnew, hid, hcl⟩ := hop
    obtain ⟨t, ht, hr'⟩ := hr.add hfit hpos hline hnone hnew hid hcl
    refine ⟨⟨t, update s.mapping line (some (coreId, coreLine))⟩, _, ?_, hr'⟩
    simp only [State.step, ht, Option.map_some]
  | remove line =>
    obtain ⟨core, hcore⟩ := Option.ne_none_iff_exists'.mp hop
    obtain ⟨t, ht, hr'⟩ := hr.remove hfit hpos hcore
    refine ⟨⟨t, update s.mapping line none⟩, _, ?_, hr'⟩
    simp only [State.step, ht, Option.map_some]

/-- The tables hold collision lists in every run. -/
theorem represents_run (hpos : 0 < g.hashEntries) (hfit : g.collisionEntries < 2 ^ ocfCacheLineBits)
    (h : Reachable (collisionSystem g) (initState g) s) :
    ∃ md, Represents g s.tables md s.mapping := by
  refine @RunIn.invariant _ _ _ _ (fun s => ∃ md, Represents g s.tables md s.mapping) _ _ h ?_ ?_
  · intro _
    exact ⟨⟨fun _ => [], fun _ => (0, 0), fun _ _ => false, fun _ _ => false, fun _ => 0⟩,
      represents_init hfit fun _ => rfl⟩
  · rintro s op s' ⟨md, hr⟩ - hop hs' -
    obtain ⟨s'', md', hs'', hr'⟩ := hr.step hpos hfit hop
    have heq : s'' = s' := Option.some.inj (hs''.symm.trans hs')
    exact ⟨md', heq ▸ hr'⟩

/-- The collision table is a partial map after any sequence of operations,
and no operation within the contract fails an assertion. -/
theorem collisionTable_isPartialMap (hpos : 0 < g.hashEntries)
    (hfit : g.collisionEntries < 2 ^ ocfCacheLineBits)
    (h : Reachable (collisionSystem g) (initState g) s) :
    IsPartialMap g s ∧ ∀ op : Op, op.Allowed g s → ∃ s', s.step g op = some s' := by
  obtain ⟨md, hr⟩ := represents_run hpos hfit h
  refine ⟨hr.isPartialMap hpos, fun op hop => ?_⟩
  obtain ⟨s', -, hs', -⟩ := hr.step hpos hfit hop
  exact ⟨s', hs'⟩

/-- A table of four lines and two buckets. -/
def smallGeometry : Geometry where
  lineBlocks := 8
  lineBlocks_pos := eightBlocks_pos
  hashEntries := 2
  collisionEntries := 4
  metadataOffset := 0

/-- Three lines in one bucket, and the middle one removed. -/
theorem collisionTable_isPartialMap_removed : ∃ s,
    Reachable (collisionSystem smallGeometry) (initState smallGeometry) s ∧
      s.mapping 1 = some (0, 4) ∧ s.mapping 2 = none ∧ s.mapping 3 = some (0, 8) ∧
      nextLine smallGeometry s.tables 3 = some 1 ∧ IsPartialMap smallGeometry s := by
  have h₁ : Reachable (collisionSystem smallGeometry) (initState smallGeometry) _ :=
    .next (.refl trivial) (Op.add 0 4 1) ⟨by decide, rfl, fun x => nofun, by decide, by decide⟩ rfl
  have h₂ := h₁.next (Op.add 0 6 2)
    ⟨by decide, rfl, fun x => by simp [update_apply, initState], by decide, by decide⟩ rfl
  have h₃ := h₂.next (Op.add 0 8 3)
    ⟨by decide, rfl, fun x => by
        simp only [update_apply]
        split <;> simp [initState], by decide, by decide⟩ rfl
  have h₄ := h₃.next (Op.remove 2) (Option.some_ne_none (0, 6)) rfl
  exact ⟨_, h₄, rfl, rfl, rfl, rfl, (collisionTable_isPartialMap (by decide) (by decide) h₄).1⟩

end Runs

end OcfCache.Collision
