import OcfCache.NhitRuns

/-!
# Locks and claims of the N-hit hash table

In every state the locks of the buckets are exactly those that the places of the
threads say, and a slot that is not valid is claimed by exactly one thread. What
an insertion has read of its slot outside the locks stays true, so that the
buckets it locks are those it changes.
-/

namespace OcfCache.Nhit

open Function LinkedLists Runs

variable {cfg : Config}

/-- The locks are those that the threads hold. -/
structure LockInv (cfg : Config) (l : Locks) (pc : Nat → Pc) : Prop where
  /-- A bucket has the writer that holds it. -/
  writer : ∀ h t, l.writer h = some t ↔ HoldsWrite cfg (pc t) h
  /-- A bucket has the readers that hold it. -/
  readers : ∀ h t, t ∈ l.readers h ↔ HoldsRead cfg (pc t) h
  /-- No reader holds a bucket twice. -/
  nodup : ∀ h, (l.readers h).Nodup
  /-- There are no readers beside a writer. -/
  apart : ∀ h t, l.writer h = some t → l.readers h = []

section Locks

variable {l : Locks} {pc : Nat → Pc} {t : Nat} {p : Pc}

theorem iff_update (P : Pc → Prop) (Q : Nat → Prop) (h : Q t ↔ P p) (hrest : ∀ u, u ≠ t → (Q u ↔ P (pc u))) (u : Nat) :
    Q u ↔ P (update pc t p u) := by
  by_cases hu : u = t
  · rw [hu, update_self]
    exact h
  · rw [update_of_ne hu]
    exact hrest u hu

theorem LockInv.same (h : LockInv cfg l pc) (hw : ∀ b, HoldsWrite cfg p b ↔ HoldsWrite cfg (pc t) b)
    (hr : ∀ b, HoldsRead cfg p b ↔ HoldsRead cfg (pc t) b) : LockInv cfg l (update pc t p) where
  writer b := iff_update (HoldsWrite cfg · b) (l.writer b = some ·) ((h.writer b t).trans (hw b).symm) fun u _ => h.writer b u
  readers b := iff_update (HoldsRead cfg · b) (· ∈ l.readers b) ((h.readers b t).trans (hr b).symm) fun u _ => h.readers b u
  nodup := h.nodup
  apart := h.apart

variable {b : Nat}

theorem LockInv.downWrite (h : LockInv cfg l pc) (hfree : l.Free b)
    (hw : ∀ b', HoldsWrite cfg p b' ↔ HoldsWrite cfg (pc t) b' ∨ b' = b)
    (hr : ∀ b', HoldsRead cfg p b' ↔ HoldsRead cfg (pc t) b') :
    LockInv cfg (l.downWrite b t) (update pc t p) where
  writer b' u := by
    refine iff_update (HoldsWrite cfg · b') (update l.writer b (some t) b' = some ·) ?_ (fun u hu => ?_) u
    · rw [hw b', ← h.writer b' t]
      by_cases hb : b' = b
      · simp [hb]
      · simp [hb]
    · rw [← h.writer b' u]
      by_cases hb : b' = b
      · have hno : l.writer b ≠ some u := by simp [hfree.1]
        simp [hb, hno, Ne.symm hu]
      · simp [update_of_ne hb]
  readers b' u := iff_update (HoldsRead cfg · b') (· ∈ l.readers b') ((h.readers b' t).trans (hr b').symm) (fun u _ => h.readers b' u) u
  nodup := h.nodup
  apart b' u hu := by
    by_cases hb : b' = b
    · rw [hb]
      exact hfree.2
    · refine h.apart b' u ?_
      change update l.writer b (some t) b' = some u at hu
      rwa [update_of_ne hb] at hu

theorem LockInv.upWrite (h : LockInv cfg l pc) (hheld : HoldsWrite cfg (pc t) b)
    (hw : ∀ b', HoldsWrite cfg p b' ↔ HoldsWrite cfg (pc t) b' ∧ b' ≠ b)
    (hr : ∀ b', HoldsRead cfg p b' ↔ HoldsRead cfg (pc t) b') :
    ∃ l', l.upWrite b t = some l' ∧ LockInv cfg l' (update pc t p) := by
  have hown : l.writer b = some t := (h.writer b t).mpr hheld
  refine ⟨_, if_pos hown, ?_, ?_, h.nodup, ?_⟩
  · intro b' u
    refine iff_update (HoldsWrite cfg · b') (update l.writer b none b' = some ·) ?_ (fun u hu => ?_) u
    · rw [hw b', ← h.writer b' t]
      by_cases hb : b' = b
      · simp [hb]
      · simp [hb]
    · rw [← h.writer b' u]
      by_cases hb : b' = b
      · simp [hb, hown, Ne.symm hu]
      · simp [update_of_ne hb]
  · exact fun b' u => iff_update (HoldsRead cfg · b') (· ∈ l.readers b') ((h.readers b' t).trans (hr b').symm) (fun u _ => h.readers b' u) u
  · intro b' u hu
    by_cases hb : b' = b
    · simp [hb] at hu
    · refine h.apart b' u ?_
      simpa [update_of_ne hb] using hu

theorem LockInv.downRead (h : LockInv cfg l pc) (hfree : l.writer b = none)
    (hnone : ∀ b', ¬HoldsRead cfg (pc t) b') (hr : ∀ b', HoldsRead cfg p b' ↔ b' = b)
    (hw : ∀ b', HoldsWrite cfg p b' ↔ HoldsWrite cfg (pc t) b') :
    LockInv cfg (l.downRead b t) (update pc t p) where
  writer b' u := iff_update (HoldsWrite cfg · b') (l.writer b' = some ·) ((h.writer b' t).trans (hw b').symm) (fun u _ => h.writer b' u) u
  readers b' u := by
    refine iff_update (HoldsRead cfg · b') (· ∈ update l.readers b (t :: l.readers b) b') ?_ (fun u hu => ?_) u
    · rw [hr b']
      have hno : t ∉ l.readers b' := fun hm => hnone b' ((h.readers b' t).mp hm)
      by_cases hb : b' = b
      · simp [hb]
      · simp [hb, hno]
    · rw [← h.readers b' u]
      by_cases hb : b' = b
      · simp [hb, hu]
      · simp [update_of_ne hb]
  nodup b' := by
    have hno : t ∉ l.readers b := fun hm => hnone b ((h.readers b t).mp hm)
    unfold Locks.downRead
    by_cases hb : b' = b
    · rw [hb]
      simpa using ⟨hno, h.nodup b⟩
    · simpa [update_of_ne hb] using h.nodup b'
  apart b' u hu := by
    have hne : b' ≠ b := by
      intro hb
      rw [hb] at hu
      exact absurd (hfree.symm.trans hu) nofun
    unfold Locks.downRead
    simpa [update_of_ne hne] using h.apart b' u hu

theorem LockInv.upRead (h : LockInv cfg l pc) (hheld : ∀ b', HoldsRead cfg (pc t) b' ↔ b' = b)
    (hr : ∀ b', ¬HoldsRead cfg p b') (hw : ∀ b', HoldsWrite cfg p b' ↔ HoldsWrite cfg (pc t) b') :
    ∃ l', l.upRead b t = some l' ∧ LockInv cfg l' (update pc t p) := by
  have hown : t ∈ l.readers b := (h.readers b t).mpr ((hheld b).mpr rfl)
  refine ⟨_, if_pos hown, ?_, ?_, ?_, ?_⟩
  · exact fun b' u => iff_update (HoldsWrite cfg · b') (l.writer b' = some ·) ((h.writer b' t).trans (hw b').symm) (fun u _ => h.writer b' u) u
  · intro b' u
    refine iff_update (HoldsRead cfg · b') (· ∈ update l.readers b ((l.readers b).erase t) b') ?_ (fun u hu => ?_) u
    · refine iff_of_false ?_ (hr b')
      by_cases hb : b' = b
      · rw [hb]
        simpa using (h.nodup b).not_mem_erase
      · have hno : t ∉ l.readers b' := fun hm => hb ((hheld b').mp ((h.readers b' t).mp hm))
        simpa [update_of_ne hb] using hno
    · rw [← h.readers b' u]
      by_cases hb : b' = b
      · rw [hb]
        simpa using List.mem_erase_of_ne hu
      · simp [update_of_ne hb]
  · intro b'
    by_cases hb : b' = b
    · rw [hb]
      simpa using (h.nodup b).erase t
    · simpa [update_of_ne hb] using h.nodup b'
  · intro b' u hu
    have hall := h.apart b' u hu
    by_cases hb : b' = b
    · rw [hb] at hall
      rw [hall] at hown
      exact absurd hown List.not_mem_nil
    · simpa [update_of_ne hb] using hall

end Locks

/-- The slots are in the lists of their buckets, and those that are not valid are
claimed. -/
structure SlotInv (cfg : Config) (tbl : Table) (pc : Nat → Pc) : Prop where
  /-- The lists of the buckets. -/
  chained : ∃ chain, Chained cfg tbl chain
  /-- The ring pointer is a slot. -/
  pointer : tbl.rbPointer < cfg.rbEntries
  /-- A claimed slot is not valid. -/
  claimed : ∀ t x, claims (pc t) = some x → x < cfg.rbEntries ∧ (tbl.ring x).valid = false
  /-- A slot is claimed once. -/
  unique : ∀ t u x, claims (pc t) = some x → claims (pc u) = some x → t = u
  /-- A slot that is not valid is claimed. -/
  claimant : ∀ x < cfg.rbEntries, (tbl.ring x).valid = false → ∃ t, claims (pc t) = some x
  /-- What the threads have read stays. -/
  known : ∀ t, Known tbl (pc t)
  /-- The threads work for valid cores. -/
  proper : ∀ t, Proper (pc t)

section Slots

variable {tbl tbl' : Table} {pc : Nat → Pc} {t : Nat} {p : Pc}

theorem Known.congr (h : Known tbl p) (hring : ∀ x, claims p = some x →
    (tbl'.ring x).coreId = (tbl.ring x).coreId ∧ (tbl'.ring x).coreLba = (tbl.ring x).coreLba) : Known tbl' p := by
  cases p with
  | readLba core lba slot slotCore => exact (hring slot rfl).1.trans h
  | lockFirst i => exact ⟨(hring i.slot rfl).1.trans h.1, (hring i.slot rfl).2.trans h.2⟩
  | lockSecond i => exact ⟨(hring i.slot rfl).1.trans h.1, (hring i.slot rfl).2.trans h.2⟩
  | change i => exact ⟨(hring i.slot rfl).1.trans h.1, (hring i.slot rfl).2.trans h.2⟩
  | _ => trivial

theorem Chained.congr {chain : Nat → List Nat} (h : Chained cfg tbl chain) (hmap : tbl'.hashMap = tbl.hashMap)
    (hprev : ∀ x, (tbl'.ring x).collPrev = (tbl.ring x).collPrev)
    (hnext : ∀ x, (tbl'.ring x).collNext = (tbl.ring x).collNext)
    (hcore : ∀ x, (tbl'.ring x).coreId = (tbl.ring x).coreId)
    (hlba : ∀ x, (tbl'.ring x).coreLba = (tbl.ring x).coreLba) : Chained cfg tbl' chain where
  head b hb := by
    rw [hmap]
    exact h.head b hb
  linked b hb := by
    refine (h.linked b hb).congr (fun x _ => ?_) fun x _ => ?_
    · rw [prevSlot, prevSlot, hprev x]
    · rw [nextSlot, nextSlot, hnext x]
  nodup := h.nodup
  mem b hb x := by
    rw [h.mem b hb x, InBucket, InBucket, hcore x, hlba x]

/-- Only the validity of a slot and the ring pointer change. -/
structure SetValid (tbl : Table) (slot : Nat) (v : Bool) (tbl' : Table) : Prop where
  /-- The slots. -/
  ring : ∀ x, tbl'.ring x = if x = slot then { tbl.ring x with valid := v } else tbl.ring x
  /-- The buckets stay. -/
  hashMap : tbl'.hashMap = tbl.hashMap

theorem setValid_setSlot (tbl : Table) (slot : Nat) (v : Bool) (ptr : Nat) :
    SetValid tbl slot v { setSlot tbl slot fun e => { e with valid := v } with rbPointer := ptr } where
  ring x := by
    have h := setSlot_ring tbl slot (fun e => { e with valid := v }) x
    by_cases hx : x = slot
    · rw [if_pos hx] at h ⊢
      rw [hx] at h ⊢
      exact h
    · rw [if_neg hx] at h ⊢
      exact h
  hashMap := rfl

variable {slot : Nat}

theorem SetValid.line {v : Bool} (h : SetValid tbl slot v tbl') (x : Nat) :
    (tbl'.ring x).coreId = (tbl.ring x).coreId ∧ (tbl'.ring x).coreLba = (tbl.ring x).coreLba := by
  rw [h.ring x]
  split <;> exact ⟨rfl, rfl⟩

theorem SetValid.valid {v : Bool} (h : SetValid tbl slot v tbl') (x : Nat) :
    (tbl'.ring x).valid = if x = slot then v else (tbl.ring x).valid := by
  rw [h.ring x]
  split <;> rfl

theorem SetValid.chained {v : Bool} (h : SetValid tbl slot v tbl')
    (hc : ∃ chain, Chained cfg tbl chain) : ∃ chain, Chained cfg tbl' chain := by
  obtain ⟨chain, hc⟩ := hc
  refine ⟨chain, hc.congr h.hashMap (fun x => ?_) (fun x => ?_) (fun x => (h.line x).1) fun x => (h.line x).2⟩
  · rw [h.ring x]
    split <;> rfl
  · rw [h.ring x]
    split <;> rfl

theorem forall_update (P : Nat → Pc → Prop) (h : P t p) (hrest : ∀ u, u ≠ t → P u (pc u)) (u : Nat) :
    P u (update pc t p u) := by
  by_cases hu : u = t
  · rw [hu, update_self]
    exact h
  · rw [update_of_ne hu]
    exact hrest u hu

theorem SlotInv.keep (h : SlotInv cfg tbl pc) (hclaims : claims p = claims (pc t))
    (hchained : ∃ chain, Chained cfg tbl' chain) (hptr : tbl'.rbPointer = tbl.rbPointer)
    (hvalid : ∀ x, (tbl'.ring x).valid = (tbl.ring x).valid) (hring : ∀ x, claims (pc t) ≠ some x →
      (tbl'.ring x).coreId = (tbl.ring x).coreId ∧ (tbl'.ring x).coreLba = (tbl.ring x).coreLba)
    (hknown : Known tbl' p) (hproper : Proper p) : SlotInv cfg tbl' (update pc t p) := by
  have heq : ∀ u, claims (update pc t p u) = claims (pc u) :=
    forall_update (fun u q => claims q = claims (pc u)) hclaims fun u _ => rfl
  refine ⟨hchained, hptr ▸ h.pointer, fun u x hu => ?_, fun u v x hu hv => ?_, fun x hx hv => ?_, ?_, ?_⟩
  · rw [hvalid x]
    exact h.claimed u x (heq u ▸ hu)
  · exact h.unique u v x (heq u ▸ hu) (heq v ▸ hv)
  · rw [hvalid x] at hv
    obtain ⟨u, hu⟩ := h.claimant x hx hv
    exact ⟨u, (heq u).trans hu⟩
  · refine forall_update (fun _ => Known tbl') hknown fun u hu => (h.known u).congr fun x hx => hring x fun ht => ?_
    exact hu (h.unique u t x hx ht)
  · exact forall_update (fun _ => Proper) hproper fun u _ => h.proper u

/-- `get_rb_slot` claims a valid slot. -/
theorem SlotInv.claim (h : SlotInv cfg tbl pc) (hnone : claims (pc t) = none) {core lba : Nat}
    (hcore : core ≠ ocfCoreIdInvalid) : SlotInv cfg (getRbSlot cfg tbl).2.2 (update pc t
      (if (getRbSlot cfg tbl).1 = true then .readId core lba (getRbSlot cfg tbl).2.1 else .idle)) := by
  obtain ⟨tbl', htbl'⟩ : ∃ tbl', (getRbSlot cfg tbl).2.2 = tbl' := ⟨_, rfl⟩
  have hset : SetValid tbl tbl.rbPointer false tbl' := htbl' ▸ setValid_setSlot ..
  have hptr : tbl'.rbPointer < cfg.rbEntries := by
    rw [← htbl']
    exact Nat.mod_lt _ cfg.rbEntries_pos
  have hknown : ∀ u, Known tbl' (pc u) := fun u => (h.known u).congr fun x _ => hset.line x
  rw [htbl']
  change SlotInv cfg tbl' (update pc t
    (if (tbl.ring tbl.rbPointer).valid = true then .readId core lba tbl.rbPointer else .idle))
  by_cases hv : (tbl.ring tbl.rbPointer).valid = true
  · rw [if_pos hv]
    have hfree : ∀ u, claims (pc u) ≠ some tbl.rbPointer := fun u hu =>
      absurd ((h.claimed u _ hu).2.symm.trans hv) nofun
    refine ⟨hset.chained h.chained, hptr, ?_, ?_, fun x hx hxv => ?_, ?_, ?_⟩
    · refine forall_update (fun _ q => ∀ x, claims q = some x → x < cfg.rbEntries ∧ (tbl'.ring x).valid = false)
        (fun x hx => ?_) fun u _ x hx => ?_
      · have hxp : tbl.rbPointer = x := Option.some.inj hx
        rw [hset.valid x, if_pos hxp.symm]
        exact ⟨hxp ▸ h.pointer, rfl⟩
      · have hne : x ≠ tbl.rbPointer := fun hxp => hfree u (hxp ▸ hx)
        rw [hset.valid x, if_neg hne]
        exact h.claimed u x hx
    · refine forall_update (fun u q => ∀ v x, claims q = some x → claims (update pc t (.readId core lba tbl.rbPointer) v) = some x →
        u = v) (fun v x hx => ?_) fun u _ v x hx => ?_
      · refine forall_update (fun v q => claims q = some x → t = v) (fun _ => rfl) (fun v _ hvx => ?_) v
        exact absurd (hvx.trans hx.symm) (hfree v)
      · refine forall_update (fun v q => claims q = some x → u = v) (fun hvx => ?_) (fun v _ hvx => h.unique u v x hx hvx) v
        exact absurd (hx.trans hvx.symm) (hfree u)
    · by_cases hxp : x = tbl.rbPointer
      · exact ⟨t, by rw [update_self, hxp]; rfl⟩
      · rw [hset.valid x, if_neg hxp] at hxv
        obtain ⟨u, hu⟩ := h.claimant x hx hxv
        have hut : u ≠ t := by
          intro hut
          rw [hut, hnone] at hu
          exact absurd hu nofun
        exact ⟨u, by rw [update_of_ne hut]; exact hu⟩
    · exact forall_update (fun _ => Known tbl') trivial fun u _ => hknown u
    · exact forall_update (fun _ => Proper) hcore fun u _ => h.proper u
  · -- the slot stays claimed by another insertion
    rw [if_neg hv]
    have heq : ∀ u, claims (update pc t .idle u) = claims (pc u) :=
      forall_update (fun u q => claims q = claims (pc u)) hnone.symm fun u _ => rfl
    have hvalid : ∀ x, (tbl'.ring x).valid = (tbl.ring x).valid := by
      intro x
      rw [hset.valid x]
      by_cases hx : x = tbl.rbPointer
      · rw [if_pos hx, hx]
        exact (Bool.eq_false_iff.mpr hv).symm
      · rw [if_neg hx]
    refine ⟨hset.chained h.chained, hptr, fun u x hu => ?_, fun u v x hu hw => ?_, fun x hx hxv => ?_, ?_, ?_⟩
    · rw [hvalid x]
      exact h.claimed u x (heq u ▸ hu)
    · exact h.unique u v x (heq u ▸ hu) (heq v ▸ hw)
    · rw [hvalid x] at hxv
      obtain ⟨u, hu⟩ := h.claimant x hx hxv
      exact ⟨u, (heq u).trans hu⟩
    · exact forall_update (fun _ => Known tbl') trivial fun u _ => hknown u
    · exact forall_update (fun _ => Proper) trivial fun u _ => h.proper u

/-- `commit_rb_slot` ends the claim. -/
theorem SlotInv.commit (h : SlotInv cfg tbl pc) (hclaims : claims (pc t) = some slot) :
    SlotInv cfg (commitRbSlot tbl slot) (update pc t .idle) := by
  obtain ⟨tbl', htbl'⟩ : ∃ tbl', commitRbSlot tbl slot = tbl' := ⟨_, rfl⟩
  have hset : SetValid tbl slot true tbl' := htbl' ▸ setValid_setSlot tbl slot true tbl.rbPointer
  have hptr : tbl'.rbPointer = tbl.rbPointer := by
    rw [← htbl']
    rfl
  have hother : ∀ u, u ≠ t → ∀ x, claims (pc u) = some x → x ≠ slot := by
    intro u hu x hx hxs
    exact hu (h.unique u t slot (hxs ▸ hx) hclaims)
  rw [htbl']
  refine ⟨hset.chained h.chained, hptr ▸ h.pointer, ?_, ?_, fun x hx hxv => ?_, ?_, ?_⟩
  · refine forall_update (fun _ q => ∀ x, claims q = some x → x < cfg.rbEntries ∧ (tbl'.ring x).valid = false)
      (fun x hx => absurd hx nofun) fun u hu x hx => ?_
    rw [hset.valid x, if_neg (hother u hu x hx)]
    exact h.claimed u x hx
  · refine forall_update (fun u q => ∀ v x, claims q = some x → claims (update pc t .idle v) = some x → u = v)
      (fun v x hx => absurd hx nofun) fun u _ v x hx => ?_
    exact forall_update (fun v q => claims q = some x → u = v) (fun hv => absurd hv (by simp [claims]))
      (fun v _ hv => h.unique u v x hx hv) v
  · have hxs : x ≠ slot := by
      intro hxs
      rw [hset.valid x, if_pos hxs] at hxv
      exact absurd hxv nofun
    rw [hset.valid x, if_neg hxs] at hxv
    obtain ⟨u, hu⟩ := h.claimant x hx hxv
    have hut : u ≠ t := by
      intro hut
      rw [hut, hclaims] at hu
      exact hxs (Option.some.inj hu).symm
    exact ⟨u, by rw [update_of_ne hut]; exact hu⟩
  · exact forall_update (fun _ => Known tbl') trivial fun u _ =>
      (h.known u).congr fun x _ => hset.line x
  · exact forall_update (fun _ => Proper) trivial fun u _ => h.proper u

/-- What an insertion does to the table under its locks. -/
structure Changed (cfg : Config) (tbl : Table) (slot : Nat) (tbl' : Table) : Prop where
  /-- The lists of the buckets. -/
  chained : ∃ chain, Chained cfg tbl' chain
  /-- The ring pointer stays. -/
  rbPointer : tbl'.rbPointer = tbl.rbPointer
  /-- Claims stay. -/
  valid : ∀ x, (tbl'.ring x).valid = (tbl.ring x).valid
  /-- The other slots keep their core lines. -/
  line : ∀ x, x ≠ slot →
    (tbl'.ring x).coreId = (tbl.ring x).coreId ∧ (tbl'.ring x).coreLba = (tbl.ring x).coreLba

theorem changed_insert {slot core : Nat} (lba : Nat) (hchained : ∃ chain, Chained cfg tbl chain)
    (hslot : slot < cfg.rbEntries) (hcore : core ≠ ocfCoreIdInvalid) :
    Changed cfg tbl slot (collisionInsertNew cfg (collisionRemove cfg tbl slot) slot core lba) := by
  obtain ⟨chain, hc⟩ := hchained
  obtain ⟨mid, hmid⟩ : ∃ mid, collisionRemove cfg tbl slot = mid := ⟨_, rfl⟩
  -- the slot is in no list before it is inserted
  have hremoved : Changed cfg tbl slot mid ∧ (mid.ring slot).coreId = ocfCoreIdInvalid := by
    rw [← hmid]
    by_cases hused : (tbl.ring slot).coreId = ocfCoreIdInvalid
    · have heq : collisionRemove cfg tbl slot = tbl := if_pos hused
      rw [heq]
      exact ⟨⟨⟨chain, hc⟩, rfl, fun _ => rfl, fun _ _ => ⟨rfl, rfl⟩⟩, hused⟩
    · have hr : Removed cfg tbl slot (collisionRemove cfg tbl slot) := removed_collisionRemove hused
      refine ⟨⟨hc.remove hslot hused, hr.rbPointer, hr.valid, fun x hx => ⟨?_, hr.lba x⟩⟩, ?_⟩
      · rw [hr.core x, if_neg hx]
      · rw [hr.core slot, if_pos rfl]
  obtain ⟨hm, hfree⟩ := hremoved
  rw [hmid]
  have hi : Inserted cfg mid slot core lba (collisionInsertNew cfg mid slot core lba) :=
    inserted_collisionInsertNew mid slot core lba
  obtain ⟨chain', hc'⟩ := hm.chained
  refine ⟨hc'.insert lba hslot hfree hcore, hi.rbPointer.trans hm.rbPointer, fun x => ?_, fun x hx => ?_⟩
  · exact (hi.valid x).trans (hm.valid x)
  · rw [hi.core x, hi.lba x, if_neg hx, if_neg hx]
    exact hm.line x hx

theorem changed_readSlot (cfg : Config) (tbl : Table) (op : ReadOp) (x : Nat) :
    (readSlot cfg tbl op x).hashMap = tbl.hashMap ∧ (readSlot cfg tbl op x).rbPointer = tbl.rbPointer ∧
      ∀ y, ∃ counter, (readSlot cfg tbl op x).ring y = { tbl.ring y with counter } := by
  unfold readSlot
  split
  · exact ⟨rfl, rfl, fun y => ⟨_, rfl⟩⟩
  · refine ⟨rfl, rfl, fun y => ?_⟩
    by_cases hy : y = x
    · rw [setSlot_ring, if_pos hy, hy]
      exact ⟨_, rfl⟩
    · refine ⟨(tbl.ring y).counter, ?_⟩
      rw [setSlot_ring, if_neg hy]

end Slots

/-- The invariant of the table, its locks and its threads. -/
structure Inv (cfg : Config) (s : State) : Prop where
  /-- The locks are those of the threads. -/
  locks : LockInv cfg s.locks s.pc
  /-- The slots are linked and claimed. -/
  slots : SlotInv cfg s.table s.pc
  /-- Finitely many threads are in a call. -/
  finite : ∃ n, ∀ t, n ≤ t → s.pc t = .idle

/-- Number of steps until the call of a thread ends. -/
def rank : Pc → Nat
  | .idle => 0
  | .claim .. => 9
  | .readId .. => 8
  | .readLba .. => 7
  | .lockFirst _ => 6
  | .lockSecond _ => 5
  | .change _ => 4
  | .unlockFirst _ => 3
  | .unlockSecond _ => 2
  | .commit _ => 1
  | .lockRead .. => 3
  | .lookup .. => 2
  | .unlockRead .. => 1

/-- A step of a thread ends, brings it closer to the end of its call, and keeps
the locks and the slots. -/
def Stepped (cfg : Config) (s : State) (t : Nat) (s' : State) : Prop :=
  ∃ p, s'.pc = update s.pc t p ∧ rank p < rank (s.pc t) ∧
    LockInv cfg s'.locks s'.pc ∧ SlotInv cfg s'.table s'.pc

section Step

variable {s : State} {t : Nat}

theorem stepped_same {q p : Pc} {tbl : Table} (h : Inv cfg s) (hp : s.pc t = q)
    (hstep : stepThread cfg s t = some ({ s with table := tbl }.goto t p))
    (hrank : rank p < rank q)
    (hw : ∀ b, HoldsWrite cfg p b ↔ HoldsWrite cfg q b) (hr : ∀ b, HoldsRead cfg p b ↔ HoldsRead cfg q b)
    (hslots : SlotInv cfg tbl (update s.pc t p)) :
    ∃ s', stepThread cfg s t = some s' ∧ Stepped cfg s t s' := by
  subst hp
  exact ⟨_, hstep, p, rfl, hrank, h.locks.same hw hr, hslots⟩

theorem stepped_locks {q p : Pc} {l : Locks} (h : Inv cfg s) (hp : s.pc t = q)
    (hstep : stepThread cfg s t = some ({ s with locks := l }.goto t p)) (hrank : rank p < rank q)
    (hclaims : claims p = claims q) (hknown : Known s.table p) (hproper : Proper p)
    (hlocks : LockInv cfg l (update s.pc t p)) :
    ∃ s', stepThread cfg s t = some s' ∧ Stepped cfg s t s' := by
  subst hp
  exact ⟨_, hstep, p, rfl, hrank, hlocks,
    h.slots.keep hclaims h.slots.chained rfl (fun _ => rfl) (fun _ _ => ⟨rfl, rfl⟩) hknown hproper⟩

variable {i : Ins}

section

variable (h : Inv cfg s)
include h

theorem stepped_lockFirst (he : Enabled cfg s t) (hp : s.pc t = .lockFirst i) :
    ∃ s', stepThread cfg s t = some s' ∧ Stepped cfg s t s' := by
  have hknown := hp ▸ h.slots.known t
  have hproper := hp ▸ h.slots.proper t
  have hlt : i.hash1 cfg < cfg.hashEntries := hashFunction_lt hproper _
  have hfirst : i.first cfg ≠ cfg.hashEntries := by
    unfold Ins.first
    omega
  have hfree : s.locks.Free (i.first cfg) := by
    unfold Enabled at he
    rw [hp] at he
    simpa [awaits, hfirst] using he
  have hstep : stepThread cfg s t =
      some ({ s with locks := s.locks.downWrite (i.first cfg) t }.goto t (.lockSecond i)) := by
    unfold stepThread
    rw [hp]
    simp [hfirst]
  refine stepped_locks h hp hstep (by simp [rank]) rfl hknown hproper ?_
  refine h.locks.downWrite hfree (fun b => ?_) fun b => ?_
  · rw [hp]
    change b ≠ cfg.hashEntries ∧ b = i.first cfg ↔ False ∨ b = i.first cfg
    rw [false_or]
    omega
  · rw [hp]
    exact Iff.rfl

theorem stepped_lockSecond (he : Enabled cfg s t) (hp : s.pc t = .lockSecond i) :
    ∃ s', stepThread cfg s t = some s' ∧ Stepped cfg s t s' := by
  have hknown := hp ▸ h.slots.known t
  have hproper := hp ▸ h.slots.proper t
  have horder : i.first cfg = min (i.hash1 cfg) (i.hash2 cfg) ∧ i.second cfg = max (i.hash1 cfg) (i.hash2 cfg) :=
    ⟨rfl, rfl⟩
  by_cases hask : i.second cfg ≠ cfg.hashEntries ∧ i.first cfg ≠ i.second cfg
  · have hfree : s.locks.Free (i.second cfg) := by
      unfold Enabled at he
      rw [hp] at he
      simpa [awaits, hask] using he
    have hstep : stepThread cfg s t =
        some ({ s with locks := s.locks.downWrite (i.second cfg) t }.goto t (.change i)) := by
      unfold stepThread
      rw [hp]
      simp [hask]
    refine stepped_locks h hp hstep (by simp [rank]) rfl hknown hproper ?_
    refine h.locks.downWrite hfree (fun b => ?_) fun b => ?_
    · rw [hp]
      simp only [HoldsWrite]
      omega
    · rw [hp]
      exact Iff.rfl
  · have hstep : stepThread cfg s t = some ({ s with locks := s.locks }.goto t (.change i)) := by
      unfold stepThread
      rw [hp]
      simp only [if_neg hask]
    refine stepped_locks h hp hstep (by simp [rank]) rfl hknown hproper ?_
    refine h.locks.same (fun b => ?_) fun b => ?_
    · rw [hp]
      simp only [HoldsWrite]
      omega
    · rw [hp]
      exact Iff.rfl

theorem stepped_unlockFirst (hp : s.pc t = .unlockFirst i) :
    ∃ s', stepThread cfg s t = some s' ∧ Stepped cfg s t s' := by
  have hproper := hp ▸ h.slots.proper t
  have hlt : i.hash1 cfg < cfg.hashEntries := hashFunction_lt hproper _
  have hne : i.hash1 cfg ≠ cfg.hashEntries := by omega
  have hup : ∃ l', s.locks.upWrite (i.hash1 cfg) t = some l' ∧
      LockInv cfg l' (update s.pc t (.unlockSecond i)) := by
    refine h.locks.upWrite ?_ (fun b => ?_) fun b => ?_
    · rw [hp]
      exact ⟨hne, .inl rfl⟩
    · rw [hp]
      simp only [HoldsWrite]
      omega
    · rw [hp]
      exact Iff.rfl
  obtain ⟨l', hl', hlocks⟩ := hup
  have hstep : stepThread cfg s t = some ({ s with locks := l' }.goto t (.unlockSecond i)) := by
    unfold stepThread
    rw [hp]
    simp [hne, hl']
  exact stepped_locks h hp hstep (by simp [rank]) rfl trivial hproper hlocks

theorem stepped_unlockSecond (hp : s.pc t = .unlockSecond i) :
    ∃ s', stepThread cfg s t = some s' ∧ Stepped cfg s t s' := by
  have hnext : ∃ l', (if i.hash2 cfg ≠ cfg.hashEntries ∧ i.hash1 cfg ≠ i.hash2 cfg then
      s.locks.upWrite (i.hash2 cfg) t else some s.locks) = some l' ∧
      LockInv cfg l' (update s.pc t (.commit i.slot)) := by
    by_cases hask : i.hash2 cfg ≠ cfg.hashEntries ∧ i.hash1 cfg ≠ i.hash2 cfg
    · rw [if_pos hask]
      refine h.locks.upWrite ?_ (fun b => ?_) fun b => ?_
      · rw [hp]
        exact ⟨hask.1, rfl, hask.2.symm⟩
      · rw [hp]
        change False ↔ (b ≠ cfg.hashEntries ∧ b = i.hash2 cfg ∧ b ≠ i.hash1 cfg) ∧ b ≠ i.hash2 cfg
        rw [false_iff]
        omega
      · rw [hp]
        exact Iff.rfl
    · rw [if_neg hask]
      refine ⟨_, rfl, h.locks.same (fun b => ?_) fun b => ?_⟩
      · rw [hp]
        change False ↔ b ≠ cfg.hashEntries ∧ b = i.hash2 cfg ∧ b ≠ i.hash1 cfg
        rw [false_iff]
        omega
      · rw [hp]
        exact Iff.rfl
  obtain ⟨l', hl', hlocks⟩ := hnext
  have hstep : stepThread cfg s t = some ({ s with locks := l' }.goto t (.commit i.slot)) := by
    unfold stepThread
    rw [hp]
    simp only [hl', Option.map_some]
  exact stepped_locks h hp hstep (by simp [rank]) rfl trivial trivial hlocks

theorem stepped_lookup {op : ReadOp} {core lba : Nat} (hp : s.pc t = .lookup op core lba) :
    ∃ s', stepThread cfg s t = some s' ∧ Stepped cfg s t s' := by
  have hproper := hp ▸ h.slots.proper t
  obtain ⟨chain, hc⟩ := h.slots.chained
  obtain ⟨slot, hslot, -⟩ := hc.lookup lba hproper
  have hstep : stepThread cfg s t =
      some ({ s with table := readSlot cfg s.table op slot }.goto t (.unlockRead core lba)) := by
    unfold stepThread
    rw [hp]
    simp only [hslot, Option.map_some]
  obtain ⟨hmap, hptr, hring⟩ := changed_readSlot cfg s.table op slot
  have hkeep : ∀ x, ∀ {α : Type} (f : Elem → α), (∀ e counter, f { e with counter } = f e) →
      f ((readSlot cfg s.table op slot).ring x) = f (s.table.ring x) := by
    intro x α f hf
    obtain ⟨counter, hx⟩ := hring x
    rw [hx, hf]
  refine stepped_same h hp hstep (by simp [rank]) (fun _ => .rfl) (fun _ => .rfl) ?_
  refine h.slots.keep (by rw [hp]; rfl) ⟨chain, ?_⟩ hptr (fun x => hkeep x Elem.valid fun _ _ => rfl)
    (fun x _ => ⟨hkeep x Elem.coreId fun _ _ => rfl, hkeep x Elem.coreLba fun _ _ => rfl⟩) trivial hproper
  exact hc.congr hmap (fun x => hkeep x Elem.collPrev fun _ _ => rfl) (fun x => hkeep x Elem.collNext fun _ _ => rfl)
    (fun x => hkeep x Elem.coreId fun _ _ => rfl) fun x => hkeep x Elem.coreLba fun _ _ => rfl

/-- Every thread can take its step. -/
theorem stepped (he : Enabled cfg s t) : ∃ s', stepThread cfg s t = some s' ∧ Stepped cfg s t s' := by
  have hknown := h.slots.known t
  have hproper := h.slots.proper t
  cases hp : s.pc t with
  | idle =>
    unfold Enabled awaits at he
    rw [hp] at he
    exact he.elim
  | claim core lba =>
    rw [hp] at hproper
    have hstep : stepThread cfg s t = some ({ s with table := (getRbSlot cfg s.table).2.2 }.goto t
        (if (getRbSlot cfg s.table).1 = true then .readId core lba (getRbSlot cfg s.table).2.1 else .idle)) := by
      unfold stepThread
      rw [hp]
    refine stepped_same h hp hstep ?_ (fun b => ?_) (fun b => ?_) (h.slots.claim (by rw [hp]; rfl) hproper)
    · split <;> simp [rank]
    · split <;> exact Iff.rfl
    · split <;> exact Iff.rfl
  | readId core lba slot =>
    rw [hp] at hproper
    have hstep : stepThread cfg s t = some ({ s with table := s.table }.goto t
        (.readLba core lba slot (s.table.ring slot).coreId)) := by
      unfold stepThread
      rw [hp]
    refine stepped_same h hp hstep (by simp [rank]) (fun _ => .rfl) (fun _ => .rfl) ?_
    exact h.slots.keep (by rw [hp]; rfl) h.slots.chained rfl (fun _ => rfl) (fun _ _ => ⟨rfl, rfl⟩) rfl hproper
  | readLba core lba slot slotCore =>
    rw [hp] at hproper hknown
    have hstep : stepThread cfg s t = some ({ s with table := s.table }.goto t
        (.lockFirst ⟨core, lba, slot, slotCore, (s.table.ring slot).coreLba⟩)) := by
      unfold stepThread
      rw [hp]
    refine stepped_same h hp hstep (by simp [rank]) (fun _ => .rfl) (fun _ => .rfl) ?_
    exact h.slots.keep (by rw [hp]; rfl) h.slots.chained rfl (fun _ => rfl) (fun _ _ => ⟨rfl, rfl⟩) ⟨hknown, rfl⟩ hproper
  | lockFirst i => exact stepped_lockFirst h he hp
  | lockSecond i => exact stepped_lockSecond h he hp
  | change i =>
    rw [hp] at hproper
    have hclaims : claims (s.pc t) = some i.slot := by rw [hp]; rfl
    have hch : Changed cfg s.table i.slot _ :=
      changed_insert i.lba h.slots.chained (h.slots.claimed t i.slot hclaims).1 hproper
    have hstep : stepThread cfg s t = some ({ s with
        table := collisionInsertNew cfg (collisionRemove cfg s.table i.slot) i.slot i.core i.lba }.goto t
        (.unlockFirst i)) := by
      unfold stepThread
      rw [hp]
    refine stepped_same h hp hstep (by simp [rank]) (fun _ => .rfl) (fun _ => .rfl) ?_
    refine h.slots.keep (by rw [hp]; rfl) hch.chained hch.rbPointer hch.valid (fun x hx => hch.line x fun hxs => ?_)
      trivial hproper
    exact hx (hxs ▸ hclaims)
  | unlockFirst i => exact stepped_unlockFirst h hp
  | unlockSecond i => exact stepped_unlockSecond h hp
  | commit slot =>
    have hclaims : claims (s.pc t) = some slot := by rw [hp]; rfl
    have hstep : stepThread cfg s t = some ({ s with table := commitRbSlot s.table slot }.goto t .idle) := by
      unfold stepThread
      rw [hp]
    exact stepped_same h hp hstep (by simp [rank]) (fun _ => .rfl) (fun _ => .rfl) (h.slots.commit hclaims)
  | lockRead op core lba =>
    rw [hp] at hproper
    have hfree : s.locks.writer (hashFunction cfg core lba) = none := by
      unfold Enabled at he
      rw [hp] at he
      exact he
    have hstep : stepThread cfg s t = some ({ s with locks := s.locks.downRead (hashFunction cfg core lba) t }.goto t
        (.lookup op core lba)) := by
      unfold stepThread
      rw [hp]
    refine stepped_locks h hp hstep (by simp [rank]) rfl trivial hproper ?_
    exact h.locks.downRead hfree (fun b hb => by rw [hp] at hb; exact hb) (fun b => Iff.rfl)
      (fun b => by rw [hp]; exact Iff.rfl)
  | lookup op core lba => exact stepped_lookup h hp
  | unlockRead core lba =>
    have hup : ∃ l', s.locks.upRead (hashFunction cfg core lba) t = some l' ∧
        LockInv cfg l' (update s.pc t .idle) :=
      h.locks.upRead (fun b => by rw [hp]; exact Iff.rfl) (fun b hb => hb) (fun b => by rw [hp]; exact Iff.rfl)
    obtain ⟨l', hl', hlocks⟩ := hup
    have hstep : stepThread cfg s t = some ({ s with locks := l' }.goto t .idle) := by
      unfold stepThread
      rw [hp]
      simp only [hl', Option.map_some]
    exact stepped_locks h hp hstep (by simp [rank]) rfl trivial trivial hlocks

end

end Step

end OcfCache.Nhit
