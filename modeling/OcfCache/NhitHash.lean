import Mathlib.Algebra.GroupWithZero.Nat
import Mathlib.Data.List.Perm.Subperm
import OcfCache.LinkedLists

/-!
# The hash table of the N-hit promotion policy

Embedding of `nhit_hash.c` without its locks: the hash buckets with the
collision lists of the ring buffer slots, and the ring pointer that hands out
the slots. The number of slots is below `2 ^ 32`, as it is for every cache, so
that a slot and the index that stands for no slot fit the 32-bit links. An
access beyond a table is the result `none`.
-/

namespace OcfCache.Nhit

open Function LinkedLists

/-- `HASH_PRIME`. -/
def hashPrime : Nat := 4099

/-- `OCF_CORE_ID_INVALID`. -/
def ocfCoreIdInvalid : Nat := 4096

/-- `calculate_hash_buckets`, with 64 bits. -/
def calculateHashBuckets (hashSize : Nat) : Nat :=
  ((hashSize / 4 + hashPrime - 1) / hashPrime * hashPrime + 2 ^ 64 - 1) % 2 ^ 64

/-- Size of a table. -/
structure Config where
  /-- `rb_entries`. -/
  rbEntries : Nat
  /-- There is a slot. -/
  rbEntries_pos : 0 < rbEntries
  /-- Slots fit the links. -/
  rbEntries_lt : rbEntries < 2 ^ 32

/-- `hash_entries`, with 32 bits. -/
def Config.hashEntries (cfg : Config) : Nat := calculateHashBuckets cfg.rbEntries % 2 ^ 32

/-- `struct nhit_list_elem`. -/
structure Elem where
  /-- Core line. -/
  coreLba : Nat
  /-- Number of accesses. -/
  counter : Int
  /-- Previous slot of the collision list. -/
  collPrev : Nat
  /-- Next slot of the collision list. -/
  collNext : Nat
  /-- Core. -/
  coreId : Nat
  /-- No insertion uses the slot. -/
  valid : Bool

/-- `env_atomic_inc_return` on a 32-bit counter. -/
def envAtomicIncReturn (counter : Int) : Int := (counter + 1).bmod (2 ^ 32)

/-- `struct nhit_hash`. -/
structure Table where
  /-- First slot of each bucket. -/
  hashMap : Nat → Nat
  /-- Slots. -/
  ring : Nat → Elem
  /-- `rb_pointer`. -/
  rbPointer : Nat

variable (cfg : Config)

/-- `nhit_hash_init`. -/
def nhitHashInit : Table where
  hashMap _ := cfg.rbEntries
  ring _ := ⟨0, 0, 0, 0, ocfCoreIdInvalid, true⟩
  rbPointer := 0

/-- `hash_function`; an invalid core has no bucket. -/
def hashFunction (coreId coreLba : Nat) : Nat :=
  if coreId = ocfCoreIdInvalid then cfg.hashEntries
  else (coreLba * hashPrime + coreId) % 2 ^ 64 % cfg.hashEntries

/-- Update one slot. -/
def setSlot (t : Table) (x : Nat) (f : Elem → Elem) : Table :=
  { t with ring := update t.ring x (f (t.ring x)) }

/-- The loop of `core_line_lookup`; `none` when the fuel runs out or the ring
is left. -/
def lookupLoop (t : Table) (coreId coreLba : Nat) : Nat → Nat → Option Nat
  | 0, _ => none
  | fuel + 1, cur =>
    if cur = cfg.rbEntries then some cfg.rbEntries
    else if cfg.rbEntries < cur then none
    else if (t.ring cur).coreLba = coreLba ∧ (t.ring cur).coreId = coreId then some cur
    else lookupLoop t coreId coreLba fuel (t.ring cur).collNext

/-- `core_line_lookup`: the slot of a core line, or the number of slots. -/
def coreLineLookup (t : Table) (coreId coreLba : Nat) : Option Nat :=
  lookupLoop cfg t coreId coreLba (cfg.rbEntries + 1) (t.hashMap (hashFunction cfg coreId coreLba))

/-- `get_rb_slot`: whether the slot could be claimed, the slot, and the table. -/
def getRbSlot (t : Table) : Bool × Nat × Table :=
  ((t.ring t.rbPointer).valid, t.rbPointer,
    { setSlot t t.rbPointer fun e => { e with valid := false } with
      rbPointer := (t.rbPointer + 1) % cfg.rbEntries })

/-- `commit_rb_slot`. -/
def commitRbSlot (t : Table) (slot : Nat) : Table := setSlot t slot fun e => { e with valid := true }

/-- `collision_remove`. -/
def collisionRemove (t : Table) (slot : Nat) : Table :=
  let e := t.ring slot
  let hash := hashFunction cfg e.coreId e.coreLba
  if e.coreId = ocfCoreIdInvalid then t
  else
    let t := setSlot t slot fun e => { e with coreId := ocfCoreIdInvalid }
    let t := if e.collPrev ≠ cfg.rbEntries then setSlot t e.collPrev fun p => { p with collNext := e.collNext } else t
    let t := if e.collNext ≠ cfg.rbEntries then setSlot t e.collNext fun n => { n with collPrev := e.collPrev } else t
    if t.hashMap hash = slot then { t with hashMap := update t.hashMap hash e.collNext } else t

/-- `collision_insert_new`. -/
def collisionInsertNew (t : Table) (slot coreId coreLba : Nat) : Table :=
  let hash := hashFunction cfg coreId coreLba
  let head := t.hashMap hash
  let t := setSlot t slot fun e =>
    { e with coreId, coreLba, collNext := head, collPrev := cfg.rbEntries, counter := 1 }
  let t := if head ≠ cfg.rbEntries then setSlot t head fun e => { e with collPrev := slot } else t
  { t with hashMap := update t.hashMap hash slot }

/-- A link as an optional slot. -/
def link (v : Nat) : Option Nat := if v = cfg.rbEntries then none else some v

/-- Previous slot of a collision list. -/
def prevSlot (t : Table) (x : Nat) : Option Nat := link cfg (t.ring x).collPrev

/-- Next slot of a collision list. -/
def nextSlot (t : Table) (x : Nat) : Option Nat := link cfg (t.ring x).collNext

/-- A slot holds a core line of a bucket. -/
def InBucket (t : Table) (hash x : Nat) : Prop :=
  x < cfg.rbEntries ∧ (t.ring x).coreId ≠ ocfCoreIdInvalid ∧
    hashFunction cfg (t.ring x).coreId (t.ring x).coreLba = hash

/-- The collision list of every bucket is doubly linked, ends, and has the
slots of its core lines, each once. -/
structure Chained (t : Table) (chain : Nat → List Nat) : Prop where
  /-- The bucket has the first slot. -/
  head : ∀ h < cfg.hashEntries, link cfg (t.hashMap h) = (chain h).head?
  /-- The slots are linked in both directions. -/
  linked : ∀ h < cfg.hashEntries, Segment (prevSlot cfg t) (nextSlot cfg t) none (chain h) none
  /-- No slot is in a list twice. -/
  nodup : ∀ h < cfg.hashEntries, (chain h).Nodup
  /-- The slots are those of the core lines of the bucket. -/
  mem : ∀ h < cfg.hashEntries, ∀ x, x ∈ chain h ↔ InBucket cfg t h x

variable {cfg} {t : Table} {chain : Nat → List Nat}

theorem Config.hashEntries_pos (cfg : Config) : 0 < cfg.hashEntries := by
  have hlt := cfg.rbEntries_lt
  unfold Config.hashEntries calculateHashBuckets hashPrime
  omega

theorem hashFunction_lt {coreId : Nat} (h : coreId ≠ ocfCoreIdInvalid) (coreLba : Nat) :
    hashFunction cfg coreId coreLba < cfg.hashEntries := by
  unfold hashFunction
  rw [if_neg h]
  exact Nat.mod_lt _ cfg.hashEntries_pos

theorem link_eq_none {v : Nat} : link cfg v = none ↔ v = cfg.rbEntries := by
  simp [link]

theorem link_eq_some {v x : Nat} : link cfg v = some x ↔ v = x ∧ x ≠ cfg.rbEntries := by
  unfold link
  by_cases h : v = cfg.rbEntries
  · rw [if_pos h]
    constructor
    · exact nofun
    · intro hx
      exact absurd (hx.1 ▸ h) hx.2
  · rw [if_neg h]
    constructor
    · intro hx
      have heq := Option.some.inj hx
      exact ⟨heq, heq ▸ h⟩
    · exact fun hx => congrArg some hx.1

theorem Chained.lt (h : Chained cfg t chain) {hash x : Nat} (hh : hash < cfg.hashEntries) (hx : x ∈ chain hash) :
    x < cfg.rbEntries := ((h.mem hash hh x).mp hx).1

theorem Chained.bucket (h : Chained cfg t chain) {hash hash' x : Nat} (hh : hash < cfg.hashEntries)
    (hh' : hash' < cfg.hashEntries) (hx : x ∈ chain hash) (hx' : x ∈ chain hash') : hash = hash' := by
  rw [← ((h.mem hash hh x).mp hx).2.2, ← ((h.mem hash' hh' x).mp hx').2.2]

theorem chained_init (cfg : Config) : Chained cfg (nhitHashInit cfg) fun _ => [] where
  head h _ := by simp [nhitHashInit, link_eq_none]
  linked h _ := trivial
  nodup h _ := List.nodup_nil
  mem h _ x := by simp [InBucket, nhitHashInit]

theorem setSlot_ring (t : Table) (x : Nat) (f : Elem → Elem) (y : Nat) :
    (setSlot t x f).ring y = if y = x then f (t.ring x) else t.ring y := by
  by_cases h : y = x
  · rw [if_pos h, h]
    exact update_self ..
  · rw [if_neg h]
    exact update_of_ne h ..

/-- What `collision_remove` does to a slot that holds a core line. -/
structure Removed (cfg : Config) (t : Table) (slot : Nat) (t' : Table) : Prop where
  /-- The predecessor gets the successor. -/
  next : ∀ y, (t'.ring y).collNext =
    if prevSlot cfg t slot = some y then (t.ring slot).collNext else (t.ring y).collNext
  /-- The successor gets the predecessor. -/
  prev : ∀ y, (t'.ring y).collPrev =
    if nextSlot cfg t slot = some y then (t.ring slot).collPrev else (t.ring y).collPrev
  /-- The slot holds no core line. -/
  core : ∀ y, (t'.ring y).coreId = if y = slot then ocfCoreIdInvalid else (t.ring y).coreId
  /-- Core lines stay recorded. -/
  lba : ∀ y, (t'.ring y).coreLba = (t.ring y).coreLba
  /-- Claims stay. -/
  valid : ∀ y, (t'.ring y).valid = (t.ring y).valid
  /-- The bucket gets the successor of its first slot. -/
  hashMap : ∀ h, t'.hashMap h =
    if h = hashFunction cfg (t.ring slot).coreId (t.ring slot).coreLba ∧ t.hashMap h = slot then (t.ring slot).collNext
    else t.hashMap h
  /-- The ring pointer stays. -/
  rbPointer : t'.rbPointer = t.rbPointer

theorem setLinked_ring (t : Table) (x : Nat) (f : Elem → Elem) (y : Nat) :
    (if x ≠ cfg.rbEntries then setSlot t x f else t).ring y =
      if link cfg x = some y then f (t.ring y) else t.ring y := by
  by_cases hx : x = cfg.rbEntries
  · rw [if_neg (not_not.mpr hx), link_eq_none.mpr hx, if_neg nofun]
  · rw [if_pos hx, setSlot_ring]
    by_cases hy : y = x
    · rw [if_pos hy, if_pos (link_eq_some.mpr ⟨hy.symm, hy ▸ hx⟩), hy]
    · rw [if_neg hy, if_neg fun h => hy (link_eq_some.mp h).1.symm]

theorem removed_collisionRemove {slot : Nat} (h : (t.ring slot).coreId ≠ ocfCoreIdInvalid) :
    Removed cfg t slot (collisionRemove cfg t slot) := by
  obtain ⟨e, he⟩ : ∃ e, t.ring slot = e := ⟨_, rfl⟩
  -- the slots after the three writes to the ring
  obtain ⟨t1, ht1⟩ : ∃ t1, setSlot t slot (fun e => { e with coreId := ocfCoreIdInvalid }) = t1 := ⟨_, rfl⟩
  obtain ⟨t2, ht2⟩ : ∃ t2, (if e.collPrev ≠ cfg.rbEntries then
      setSlot t1 e.collPrev fun p => { p with collNext := e.collNext } else t1) = t2 := ⟨_, rfl⟩
  obtain ⟨t3, ht3⟩ : ∃ t3, (if e.collNext ≠ cfg.rbEntries then
      setSlot t2 e.collNext fun n => { n with collPrev := e.collPrev } else t2) = t3 := ⟨_, rfl⟩
  have hring1 : ∀ y, t1.ring y = if y = slot then { t.ring y with coreId := ocfCoreIdInvalid } else t.ring y := by
    intro y
    rw [← ht1, setSlot_ring]
    by_cases hy : y = slot
    · rw [if_pos hy, if_pos hy, hy]
    · rw [if_neg hy, if_neg hy]
  have hring2 : ∀ y, t2.ring y =
      if link cfg e.collPrev = some y then { t1.ring y with collNext := e.collNext } else t1.ring y := by
    intro y
    rw [← ht2, setLinked_ring]
  have hring3 : ∀ y, t3.ring y =
      if link cfg e.collNext = some y then { t2.ring y with collPrev := e.collPrev } else t2.ring y := by
    intro y
    rw [← ht3, setLinked_ring]
  have hmap3 : t3.hashMap = t.hashMap ∧ t3.rbPointer = t.rbPointer := by
    rw [← ht3, ← ht2, ← ht1]
    split <;> split <;> exact ⟨rfl, rfl⟩
  have hout : collisionRemove cfg t slot = if t3.hashMap (hashFunction cfg e.coreId e.coreLba) = slot then
      { t3 with hashMap := update t3.hashMap (hashFunction cfg e.coreId e.coreLba) e.collNext } else t3 := by
    rw [← ht3, ← ht2, ← ht1]
    unfold collisionRemove
    rw [he] at h ⊢
    exact if_neg h
  have hring : (collisionRemove cfg t slot).ring = t3.ring := by
    rw [hout]
    split <;> rfl
  have hprev : prevSlot cfg t slot = link cfg e.collPrev := by rw [prevSlot, he]
  have hnext : nextSlot cfg t slot = link cfg e.collNext := by rw [nextSlot, he]
  refine ⟨fun y => ?_, fun y => ?_, fun y => ?_, fun y => ?_, fun y => ?_, fun y => ?_, ?_⟩
  · rw [hring, hring3, hprev, he]
    split <;> rw [hring2] <;> split <;> rw [hring1] <;> split <;> rfl
  · rw [hring, hring3, hnext, he]
    split
    · rfl
    · rw [hring2]
      split <;> rw [hring1] <;> split <;> rfl
  · rw [hring, hring3]
    split <;> rw [hring2] <;> split <;> rw [hring1] <;> split <;> rfl
  · rw [hring, hring3]
    split <;> rw [hring2] <;> split <;> rw [hring1] <;> split <;> rfl
  · rw [hring, hring3]
    split <;> rw [hring2] <;> split <;> rw [hring1] <;> split <;> rfl
  · rw [hout, hmap3.1, he]
    by_cases hhead : t.hashMap (hashFunction cfg e.coreId e.coreLba) = slot
    · rw [if_pos hhead]
      change update t.hashMap _ _ y = _
      by_cases hy : y = hashFunction cfg e.coreId e.coreLba
      · rw [hy, update_self, if_pos ⟨rfl, hhead⟩]
      · rw [update_of_ne hy, if_neg fun hx => hy hx.1]
    · have hno : ¬(y = hashFunction cfg e.coreId e.coreLba ∧ t.hashMap y = slot) := by
        intro hx
        rw [hx.1] at hx
        exact hhead hx.2
      rw [if_neg hhead, hmap3.1, if_neg hno]
  · rw [hout]
    split
    · exact hmap3.2
    · exact hmap3.2

/-- A slot leaves its list. -/
theorem Chained.remove (h : Chained cfg t chain) {slot : Nat} (hslot : slot < cfg.rbEntries)
    (hcore : (t.ring slot).coreId ≠ ocfCoreIdInvalid) :
    ∃ chain', Chained cfg (collisionRemove cfg t slot) chain' := by
  have hr : Removed cfg t slot (collisionRemove cfg t slot) := removed_collisionRemove hcore
  obtain ⟨t', ht'⟩ : ∃ t', collisionRemove cfg t slot = t' := ⟨_, rfl⟩
  obtain ⟨hash, hhash⟩ : ∃ hash, hashFunction cfg (t.ring slot).coreId (t.ring slot).coreLba = hash := ⟨_, rfl⟩
  rw [ht'] at hr
  rw [ht']
  have hlt : hash < cfg.hashEntries := hhash ▸ hashFunction_lt hcore _
  have hin : slot ∈ chain hash := (h.mem hash hlt slot).mpr ⟨hslot, hcore, hhash⟩
  obtain ⟨as, bs, hsplit⟩ := List.append_of_mem hin
  have hd : (as ++ slot :: bs).Nodup := hsplit ▸ h.nodup hash hlt
  have hseg : Segment (prevSlot cfg t) (nextSlot cfg t) none (as ++ slot :: bs) none := hsplit ▸ h.linked hash hlt
  obtain ⟨hprev, hnext⟩ := hseg.links
  rw [Option.or_none] at hprev hnext
  have hout : slot ∉ as ++ bs := fun hm => by
    have hcons := List.nodup_middle.mp hd
    exact (List.nodup_cons.mp hcons).1 hm
  have hprev' : ∀ y, prevSlot cfg t' y = if nextSlot cfg t slot = some y then prevSlot cfg t slot else prevSlot cfg t y := by
    intro y
    unfold prevSlot
    rw [hr.prev y]
    split <;> rfl
  have hnext' : ∀ y, nextSlot cfg t' y = if prevSlot cfg t slot = some y then nextSlot cfg t slot else nextSlot cfg t y := by
    intro y
    unfold nextSlot
    rw [hr.next y]
    split <;> rfl
  refine ⟨update chain hash (as ++ bs), ?_⟩
  refine ⟨fun k hk => ?_, fun k hk => ?_, fun k hk => ?_, fun k hk x => ?_⟩
  · rw [hr.hashMap k, hhash]
    by_cases hkh : k = hash
    · rw [hkh, update_self]
      have hhead := h.head hash hlt
      rw [hsplit] at hhead
      cases as with
      | nil =>
        have heq : t.hashMap hash = slot := (link_eq_some.mp hhead).1
        rw [if_pos ⟨rfl, heq⟩]
        exact hnext
      | cons a as =>
        have heq : t.hashMap hash = a := (link_eq_some.mp hhead).1
        have hne : a ≠ slot := fun hx => hout (by simp [hx])
        rw [if_neg fun hx => hne (heq ▸ hx.2)]
        exact hhead
    · rw [if_neg fun hx => hkh hx.1, update_of_ne hkh]
      exact h.head k hk
  · by_cases hkh : k = hash
    · rw [hkh, update_self]
      refine hseg.remove hd (fun y hy => ?_) fun y hy => ?_
      · rw [hprev' y]
        exact ⟨fun hx => if_pos hx, fun hx => if_neg hx⟩
      · rw [hnext' y]
        exact ⟨fun hx => if_pos hx, fun hx => if_neg hx⟩
    · rw [update_of_ne hkh]
      -- the neighbours of the slot are in its own list
      refine (h.linked k hk).congr (fun y hy => ?_) fun y hy => ?_
      · rw [hprev' y, if_neg]
        intro hx
        rw [hnext] at hx
        have hmem : y ∈ chain hash := by
          rw [hsplit]
          exact List.mem_append_right _ (List.mem_cons_of_mem _ (List.mem_of_mem_head? hx))
        exact hkh (h.bucket hk hlt hy hmem)
      · rw [hnext' y, if_neg]
        intro hx
        rw [hprev] at hx
        have hmem : y ∈ chain hash := by
          rw [hsplit]
          exact List.mem_append_left _ (List.mem_of_mem_getLast? hx)
        exact hkh (h.bucket hk hlt hy hmem)
  · by_cases hkh : k = hash
    · rw [hkh, update_self]
      exact (List.nodup_cons.mp (List.nodup_middle.mp hd)).2
    · rw [update_of_ne hkh]
      exact h.nodup k hk
  · unfold InBucket
    rw [hr.core x, hr.lba x]
    have hmem := h.mem k hk x
    unfold InBucket at hmem
    by_cases hx : x = slot
    · rw [if_pos hx]
      constructor
      · intro hm
        exfalso
        by_cases hkh : k = hash
        · rw [hkh, update_self, hx] at hm
          exact hout hm
        · rw [update_of_ne hkh, hx] at hm
          exact hkh (h.bucket hk hlt hm hin)
      · exact fun hm => absurd rfl hm.2.1
    · rw [if_neg hx, ← hmem]
      by_cases hkh : k = hash
      · rw [hkh, update_self, hsplit]
        simp [hx]
      · rw [update_of_ne hkh]

/-- What `collision_insert_new` does. -/
structure Inserted (cfg : Config) (t : Table) (slot coreId coreLba : Nat) (t' : Table) : Prop where
  /-- The slot gets the first slot of the bucket as its successor. -/
  next : ∀ y, (t'.ring y).collNext =
    if y = slot then t.hashMap (hashFunction cfg coreId coreLba) else (t.ring y).collNext
  /-- The slot has no predecessor, and becomes that of the first slot. -/
  prev : ∀ y, (t'.ring y).collPrev =
    if link cfg (t.hashMap (hashFunction cfg coreId coreLba)) = some y then slot
    else if y = slot then cfg.rbEntries else (t.ring y).collPrev
  /-- The slot gets the core. -/
  core : ∀ y, (t'.ring y).coreId = if y = slot then coreId else (t.ring y).coreId
  /-- The slot gets the core line. -/
  lba : ∀ y, (t'.ring y).coreLba = if y = slot then coreLba else (t.ring y).coreLba
  /-- Claims stay. -/
  valid : ∀ y, (t'.ring y).valid = (t.ring y).valid
  /-- The bucket starts with the slot. -/
  hashMap : t'.hashMap = update t.hashMap (hashFunction cfg coreId coreLba) slot
  /-- The ring pointer stays. -/
  rbPointer : t'.rbPointer = t.rbPointer

theorem inserted_collisionInsertNew (t : Table) (slot coreId coreLba : Nat) :
    Inserted cfg t slot coreId coreLba (collisionInsertNew cfg t slot coreId coreLba) := by
  obtain ⟨head, hhead⟩ : ∃ head, t.hashMap (hashFunction cfg coreId coreLba) = head := ⟨_, rfl⟩
  obtain ⟨t1, ht1⟩ : ∃ t1, setSlot t slot (fun e => { e with
      coreId, coreLba, collNext := head, collPrev := cfg.rbEntries, counter := 1 }) = t1 := ⟨_, rfl⟩
  obtain ⟨t2, ht2⟩ : ∃ t2, (if head ≠ cfg.rbEntries then
      setSlot t1 head fun e => { e with collPrev := slot } else t1) = t2 := ⟨_, rfl⟩
  have hring1 : ∀ y, t1.ring y = if y = slot then
      { t.ring y with coreId, coreLba, collNext := head, collPrev := cfg.rbEntries, counter := 1 } else t.ring y := by
    intro y
    rw [← ht1, setSlot_ring]
    by_cases hy : y = slot
    · rw [if_pos hy, if_pos hy, hy]
    · rw [if_neg hy, if_neg hy]
  have hring2 : ∀ y, t2.ring y =
      if link cfg head = some y then { t1.ring y with collPrev := slot } else t1.ring y := by
    intro y
    rw [← ht2, setLinked_ring]
  have hmap2 : t2.hashMap = t.hashMap ∧ t2.rbPointer = t.rbPointer := by
    rw [← ht2, ← ht1]
    split <;> exact ⟨rfl, rfl⟩
  have hout : collisionInsertNew cfg t slot coreId coreLba =
      { t2 with hashMap := update t2.hashMap (hashFunction cfg coreId coreLba) slot } := by
    rw [← ht2, ← ht1, ← hhead]
    rfl
  rw [hout]
  refine ⟨fun y => ?_, fun y => ?_, fun y => ?_, fun y => ?_, fun y => ?_, ?_, hmap2.2⟩
  · rw [hhead]
    change (t2.ring y).collNext = _
    rw [hring2]
    split <;> rw [hring1] <;> split <;> rfl
  · rw [hhead]
    change (t2.ring y).collPrev = _
    rw [hring2]
    split
    · rfl
    · rw [hring1]
      split <;> rfl
  · change (t2.ring y).coreId = _
    rw [hring2]
    split <;> rw [hring1] <;> split <;> rfl
  · change (t2.ring y).coreLba = _
    rw [hring2]
    split <;> rw [hring1] <;> split <;> rfl
  · change (t2.ring y).valid = _
    rw [hring2]
    split <;> rw [hring1] <;> split <;> rfl
  · change update t2.hashMap _ _ = _
    rw [hmap2.1]

/-- A slot enters its list. -/
theorem Chained.insert (h : Chained cfg t chain) {slot coreId : Nat} (coreLba : Nat) (hslot : slot < cfg.rbEntries)
    (hfree : (t.ring slot).coreId = ocfCoreIdInvalid) (hcore : coreId ≠ ocfCoreIdInvalid) :
    ∃ chain', Chained cfg (collisionInsertNew cfg t slot coreId coreLba) chain' := by
  have hi : Inserted cfg t slot coreId coreLba (collisionInsertNew cfg t slot coreId coreLba) :=
    inserted_collisionInsertNew t slot coreId coreLba
  obtain ⟨t', ht'⟩ : ∃ t', collisionInsertNew cfg t slot coreId coreLba = t' := ⟨_, rfl⟩
  obtain ⟨hash, hhash⟩ : ∃ hash, hashFunction cfg coreId coreLba = hash := ⟨_, rfl⟩
  rw [ht'] at hi
  rw [ht']
  have hlt : hash < cfg.hashEntries := hhash ▸ hashFunction_lt hcore _
  have hout : ∀ k < cfg.hashEntries, slot ∉ chain k := fun k hk hm => ((h.mem k hk slot).mp hm).2.1 hfree
  have hhead := h.head hash hlt
  refine ⟨update chain hash (slot :: chain hash), ?_⟩
  refine ⟨fun k hk => ?_, fun k hk => ?_, fun k hk => ?_, fun k hk x => ?_⟩
  · rw [hi.hashMap, hhash]
    by_cases hkh : k = hash
    · rw [hkh, update_self, update_self]
      exact link_eq_some.mpr ⟨rfl, Nat.ne_of_lt hslot⟩
    · rw [update_of_ne hkh, update_of_ne hkh]
      exact h.head k hk
  · have hne : ∀ y ∈ chain k, y ≠ slot := fun y hy hx => hout k hk (hx ▸ hy)
    by_cases hkh : k = hash
    · rw [hkh] at hne
      rw [hkh, update_self]
      refine (h.linked hash hlt).insertHead ?_ ?_ (fun y hy => ?_) fun y ys hys => ⟨?_, fun z hz => ?_⟩
      · unfold prevSlot
        have hself : link cfg (t.hashMap hash) ≠ some slot := by
          rw [hhead]
          exact fun hx => hout hash hlt (List.mem_of_mem_head? hx)
        rw [hi.prev slot, hhash, if_neg hself, if_pos rfl]
        exact link_eq_none.mpr rfl
      · unfold nextSlot
        rw [hi.next slot, hhash, if_pos rfl]
        exact hhead
      · unfold nextSlot
        rw [hi.next y, if_neg (hne y hy)]
      · unfold prevSlot
        rw [hi.prev y, hhash, hhead, hys, List.head?_cons, if_pos rfl]
        exact link_eq_some.mpr ⟨rfl, Nat.ne_of_lt hslot⟩
      · unfold prevSlot
        have hzy : z ≠ y := by
          have hd := h.nodup hash hlt
          rw [hys] at hd
          exact fun hx => (List.nodup_cons.mp hd).1 (hx ▸ hz)
        have hnot : ¬(chain hash).head? = some z := by
          rw [hys]
          exact fun hx => hzy (Option.some.inj hx).symm
        rw [hi.prev z, hhash, hhead, if_neg hnot, if_neg (hne z (by rw [hys]; exact List.mem_cons_of_mem y hz))]
    · rw [update_of_ne hkh]
      refine (h.linked k hk).congr (fun y hy => ?_) fun y hy => ?_
      · unfold prevSlot
        have hnot : link cfg (t.hashMap hash) ≠ some y := by
          rw [hhead]
          exact fun hx => hkh (h.bucket hk hlt hy (List.mem_of_mem_head? hx))
        rw [hi.prev y, hhash, if_neg hnot, if_neg (hne y hy)]
      · unfold nextSlot
        rw [hi.next y, if_neg (hne y hy)]
  · by_cases hkh : k = hash
    · rw [hkh, update_self]
      exact List.nodup_cons.mpr ⟨hout hash hlt, h.nodup hash hlt⟩
    · rw [update_of_ne hkh]
      exact h.nodup k hk
  · unfold InBucket
    rw [hi.core x, hi.lba x]
    have hmem := h.mem k hk x
    unfold InBucket at hmem
    by_cases hx : x = slot
    · rw [if_pos hx, if_pos hx, hhash, hx]
      by_cases hkh : k = hash
      · rw [hkh, update_self]
        exact ⟨fun _ => ⟨hslot, hcore, rfl⟩, fun _ => List.mem_cons_self⟩
      · rw [update_of_ne hkh]
        exact ⟨fun hm => absurd hm (hout k hk), fun hm => absurd hm.2.2.symm hkh⟩
    · rw [if_neg hx, if_neg hx, ← hmem]
      by_cases hkh : k = hash
      · rw [hkh, update_self]
        simp [hx]
      · rw [update_of_ne hkh]

theorem lookupLoop_eq (coreId coreLba : Nat) {fuel : Nat} {p : Option Nat} {xs : List Nat}
    (hseg : Segment (prevSlot cfg t) (nextSlot cfg t) p xs none) (hlt : ∀ x ∈ xs, x < cfg.rbEntries)
    {cur : Nat} (hcur : link cfg cur = xs.head?) (hfuel : xs.length < fuel) :
    lookupLoop cfg t coreId coreLba fuel cur = some ((xs.find? fun x =>
      decide ((t.ring x).coreLba = coreLba ∧ (t.ring x).coreId = coreId)).getD cfg.rbEntries) := by
  induction xs generalizing p cur fuel with
  | nil =>
    obtain ⟨fuel, rfl⟩ := Nat.exists_eq_succ_of_ne_zero (Nat.ne_of_gt hfuel)
    unfold lookupLoop
    rw [if_pos (link_eq_none.mp hcur)]
    rfl
  | cons x xs ih =>
    rw [List.length_cons] at hfuel
    obtain ⟨fuel, rfl⟩ : ∃ k, fuel = k + 1 := ⟨fuel - 1, by omega⟩
    have heq : cur = x := (link_eq_some.mp hcur).1
    have hx := hlt x List.mem_cons_self
    unfold lookupLoop
    rw [heq, if_neg (Nat.ne_of_lt hx), if_neg (Nat.not_lt.mpr (Nat.le_of_lt hx))]
    by_cases hfound : (t.ring x).coreLba = coreLba ∧ (t.ring x).coreId = coreId
    · rw [if_pos hfound, List.find?_cons_of_pos (by simpa using hfound)]
      rfl
    · rw [if_neg hfound, List.find?_cons_of_neg (by simpa using hfound)]
      obtain ⟨-, hnext, hrest⟩ := hseg
      rw [Option.or_none] at hnext
      exact ih hrest (fun y hy => hlt y (List.mem_cons_of_mem x hy)) hnext (by omega)

theorem Chained.length_le (h : Chained cfg t chain) {hash : Nat} (hh : hash < cfg.hashEntries) :
    (chain hash).length ≤ cfg.rbEntries := by
  have hsub : chain hash ⊆ List.range cfg.rbEntries := fun x hx => List.mem_range.mpr (h.lt hh hx)
  have hlen := (List.Nodup.subperm (h.nodup hash hh) hsub).length_le
  rwa [List.length_range] at hlen

/-- `core_line_lookup` ends: it returns a slot with the core line, or the number
of slots if there is none. -/
theorem Chained.lookup (h : Chained cfg t chain) {coreId : Nat} (coreLba : Nat) (hcore : coreId ≠ ocfCoreIdInvalid) :
    ∃ slot, coreLineLookup cfg t coreId coreLba = some slot ∧
      (slot < cfg.rbEntries ∧ (t.ring slot).coreId = coreId ∧ (t.ring slot).coreLba = coreLba ∨
        slot = cfg.rbEntries ∧ ∀ x < cfg.rbEntries, ¬((t.ring x).coreId = coreId ∧ (t.ring x).coreLba = coreLba)) := by
  have hlt : hashFunction cfg coreId coreLba < cfg.hashEntries := hashFunction_lt hcore coreLba
  have hlen := h.length_le hlt
  have heq := lookupLoop_eq coreId coreLba (h.linked _ hlt) (fun x => h.lt hlt)
    (h.head _ hlt) (Nat.lt_succ_of_le hlen)
  refine ⟨_, heq, ?_⟩
  cases hfind : (chain (hashFunction cfg coreId coreLba)).find? fun x =>
      decide ((t.ring x).coreLba = coreLba ∧ (t.ring x).coreId = coreId) with
  | none =>
    refine .inr ⟨rfl, fun x hx hmatch => ?_⟩
    have hin : x ∈ chain (hashFunction cfg coreId coreLba) := by
      refine (h.mem _ hlt x).mpr ⟨hx, ?_, ?_⟩
      · rw [hmatch.1]
        exact hcore
      · rw [hmatch.1, hmatch.2]
    have hno := List.find?_eq_none.mp hfind x hin
    exact hno (by simp [hmatch.1, hmatch.2])
  | some x =>
    have hmatch := List.find?_some hfind
    have hx := h.lt hlt (List.mem_of_find?_eq_some hfind)
    have hboth := of_decide_eq_true hmatch
    exact .inl ⟨hx, hboth.2, hboth.1⟩

end OcfCache.Nhit
