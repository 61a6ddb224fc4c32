import OcfCache.AgingCounters
import OcfCache.NhitInvariant
import OcfCache.Requests

/-!
# The N-hit promotion policy

Embedding of `nhit_req_should_promote` and `nhit_req_purge` with the operations
of the hash table that they call, one after the other. Seen from outside, the
hash table is a set of counters for core lines of which the oldest one gives way
to a new one: the ring pointer turns once around the ring while as many core
lines are inserted as there are slots.
-/

namespace OcfCache.Nhit

open AgingCounters Metadata Requests

/-- A core and a core line. -/
abbrev Line := Nat × Nat

/-- `struct nhit_promotion_policy_config` of a cache, with its hash table. -/
structure Policy where
  /-- The cache. -/
  g : Geometry
  /-- `insertion_threshold`. -/
  insertionThreshold : Nat
  /-- `OCF_NHIT_MIN_THRESHOLD`. -/
  insertionThreshold_ge : 2 ≤ insertionThreshold
  /-- `OCF_NHIT_MAX_THRESHOLD`. -/
  insertionThreshold_le : insertionThreshold ≤ 1000
  /-- `trigger_threshold`. -/
  triggerThreshold : Nat
  /-- `OCF_NHIT_MAX_TRIGGER`. -/
  triggerThreshold_le : triggerThreshold ≤ 100
  /-- Size of the hash table. -/
  table : Config
  /-- `NHIT_MAPPING_RATIO` slots for each cache line. -/
  rbEntries_eq : table.rbEntries = g.collisionEntries * 2

section Code

variable (cfg : Config)

/-- `nhit_hash_insert`. -/
def nhitHashInsert (t : Table) (x : Line) : Table :=
  let r := getRbSlot cfg t
  if r.1 = true then
    commitRbSlot (collisionInsertNew cfg (collisionRemove cfg r.2.2 r.2.1) r.2.1 x.1 x.2) r.2.1
  else r.2.2

/-- `nhit_hash_query`; no counter is returned when the core line is not found. -/
def nhitHashQuery (t : Table) (x : Line) : Option (Option Int × Table) :=
  (coreLineLookup cfg t x.1 x.2).map fun slot =>
    let t' := readSlot cfg t .query slot
    (if slot = cfg.rbEntries then none else some (t'.ring slot).counter, t')

/-- `nhit_hash_set_occurences`. -/
def nhitHashSetOccurences (t : Table) (x : Line) (occurences : Int) : Option Table :=
  (coreLineLookup cfg t x.1 x.2).map fun slot => readSlot cfg t (.setOccurences occurences) slot

/-- `core_line_purge`. -/
def coreLinePurge (t : Table) (x : Line) : Option Table := nhitHashSetOccurences cfg t x 0

variable (p : Policy)

/-- `core_line_should_promote`; the threshold is compared with the counter as an
unsigned number. -/
def coreLineShouldPromote (t : Table) (x : Line) : Option (Bool × Table) :=
  (nhitHashQuery p.table t x).map fun r =>
    match r.1 with
    | some counter => (decide ((p.insertionThreshold : Int) ≤ counter % 2 ^ 32), r.2)
    | none => (false, nhitHashInsert p.table r.2 x)

/-- The core lines in the map of a request. -/
def mapLines (req : Request) : List Line :=
  (List.range (req.coreLineCount p.g)).map fun i => ((req.map i).coreId, (req.map i).coreLine)

/-- The loop of `nhit_req_should_promote`. -/
def promoteLoop (result : Bool) (t : Table) : List Line → Option (Bool × Table)
  | [] => some (result, t)
  | x :: xs => (coreLineShouldPromote p t x).bind fun r => promoteLoop (if r.1 = true then result else false) r.2 xs

/-- The occupancy of the cache is not below the trigger. -/
def Triggered (numFree : Nat) : Prop :=
  (p.triggerThreshold * p.g.collisionEntries + 99) / 100 ≤ p.g.collisionEntries - numFree

instance (numFree : Nat) : Decidable (Triggered p numFree) := inferInstanceAs (Decidable (_ ≤ _))

/-- `nhit_req_should_promote`, with the number of free cache lines. -/
def nhitReqShouldPromote (numFree : Nat) (t : Table) (req : Request) : Option (Bool × Table) :=
  if Triggered p numFree then
    (promoteLoop p true t (mapLines p req)).map fun r => (r.1 || decide (ocfEngineMappedCount req ≠ 0), r.2)
  else some (true, t)

/-- `nhit_req_purge`. -/
def nhitReqPurge (t : Table) (req : Request) : Option Table := (mapLines p req).foldlM (coreLinePurge p.table) t

/-- A call of the policy. -/
inductive Op
  /-- `nhit_req_should_promote`. -/
  | shouldPromote (numFree : Nat) (req : Request)
  /-- `nhit_req_purge`. -/
  | purge (req : Request)

/-- The table after a call. -/
def applyOp (t : Table) : Op → Option Table
  | .shouldPromote numFree req => (nhitReqShouldPromote p numFree t req).map Prod.snd
  | .purge req => nhitReqPurge p t req

/-- The table after an access to a core line or its purge. -/
def applyEvent (t : Table) : Event Line → Option Table
  | .access x => (coreLineShouldPromote p t x).map Prod.snd
  | .purge x => coreLinePurge p.table t x

/-- Number of insertions of an event. -/
def inserts (t : Table) : Event Line → Nat
  | .access x => if coreLineLookup p.table t x.1 x.2 = some p.table.rbEntries then 1 else 0
  | .purge _ => 0

/-- Number of insertions of a run. -/
def insertions (t : Table) : List (Event Line) → Nat
  | [] => 0
  | e :: es => inserts p t e + (applyEvent p t e).elim 0 fun t' => insertions t' es

end Code

/-- A slot holds a core line. -/
def Holds (t : Table) (slot : Nat) (x : Line) : Prop := (t.ring slot).coreId = x.1 ∧ (t.ring slot).coreLba = x.2

/-- Number of insertions since the ring pointer was at a slot. -/
def age (cfg : Config) (t : Table) (slot : Nat) : Nat :=
  if slot < t.rbPointer then t.rbPointer - 1 - slot else t.rbPointer + cfg.rbEntries - 1 - slot

/-- The hash table holds the core lines with a living counter, each in one slot
that is as old as the counter. -/
structure Tracks (cfg : Config) (t : Table) (A : Counters Line) : Prop where
  /-- The collision lists. -/
  chained : ∃ chain, Chained cfg t chain
  /-- The ring pointer is a slot. -/
  pointer : t.rbPointer < cfg.rbEntries
  /-- No slot is claimed. -/
  valid : ∀ y < cfg.rbEntries, (t.ring y).valid = true
  /-- A core line is in one slot. -/
  unique : ∀ x : Line, x.1 ≠ ocfCoreIdInvalid → ∀ y < cfg.rbEntries, ∀ z < cfg.rbEntries, Holds t y x → Holds t z x → y = z
  /-- A living counter has a slot. -/
  present : ∀ x e, A x = some e → ∃ y < cfg.rbEntries, Holds t y x ∧ age cfg t y = e.age ∧
    (t.ring y).counter = (e.count : Int).bmod (2 ^ 32)
  /-- A core line without a counter has no slot. -/
  absent : ∀ x : Line, x.1 ≠ ocfCoreIdInvalid → A x = none → ∀ y < cfg.rbEntries, ¬Holds t y x

variable {cfg : Config} {t : Table} {A : Counters Line} {x : Line}

theorem tracks_init (cfg : Config) : Tracks cfg (nhitHashInit cfg) empty where
  chained := ⟨_, chained_init cfg⟩
  pointer := cfg.rbEntries_pos
  valid _ _ := rfl
  unique _ hx _ _ _ _ hy _ := absurd hy.1.symm hx
  present _ _ he := absurd he (Option.some_ne_none _).symm
  absent _ hx _ _ _ hy := hx hy.1.symm

theorem Tracks.lookup (h : Tracks cfg t A) (hx : x.1 ≠ ocfCoreIdInvalid) :
    A x = none ∧ coreLineLookup cfg t x.1 x.2 = some cfg.rbEntries ∨
      ∃ e slot, A x = some e ∧ coreLineLookup cfg t x.1 x.2 = some slot ∧ slot < cfg.rbEntries ∧ Holds t slot x ∧
        age cfg t slot = e.age ∧ (t.ring slot).counter = (e.count : Int).bmod (2 ^ 32) := by
  obtain ⟨chain, hc⟩ := h.chained
  obtain ⟨slot, hslot, hfound⟩ := hc.lookup x.2 hx
  cases hA : A x with
  | none =>
    have hno := h.absent x hx hA
    have hslotEq : slot = cfg.rbEntries := hfound.elim (fun hf => absurd hf.2 (hno slot hf.1)) And.left
    exact .inl ⟨rfl, hslotEq ▸ hslot⟩
  | some e =>
    obtain ⟨y, hy, hholds, hage, hcounter⟩ := h.present x e hA
    obtain hf | hf := hfound
    · have heq : slot = y := h.unique x hx slot hf.1 y hy hf.2 hholds
      rw [← heq] at hage hcounter
      exact .inr ⟨e, slot, rfl, hslot, hf.1, hf.2, hage, hcounter⟩
    · exact absurd hholds (hf.2 y hy)

/-- A counter is written in its slot. -/
theorem Tracks.write (h : Tracks cfg t A) {slot : Nat} {f : Elem → Int} {e : Entry} {count : Nat} {A' : Counters Line}
    (hslot : slot < cfg.rbEntries) (hholds : Holds t slot x)
    (hage : age cfg t slot = e.age) (hf : f (t.ring slot) = (count : Int).bmod (2 ^ 32))
    (hself : A' x = some ⟨count, e.age⟩) (hother : ∀ y, y ≠ x → A' y = A y) :
    Tracks cfg (setSlot t slot fun e => { e with counter := f e }) A' := by
  obtain ⟨t', ht'⟩ : ∃ t', (setSlot t slot fun e => { e with counter := f e }) = t' := ⟨_, rfl⟩
  have hring : ∀ y, t'.ring y = if y = slot then { t.ring slot with counter := f (t.ring slot) } else t.ring y := by
    intro y
    rw [← ht']
    exact setSlot_ring ..
  have hkeep : ∀ {α : Type} (k : Elem → α), (∀ e counter, k { e with counter } = k e) → ∀ y,
      k (t'.ring y) = k (t.ring y) := by
    intro α k hk y
    rw [hring y]
    by_cases hy : y = slot
    · rw [if_pos hy, hk, hy]
    · rw [if_neg hy]
  have hptr : t'.rbPointer = t.rbPointer := ht' ▸ rfl
  have hmap : t'.hashMap = t.hashMap := ht' ▸ rfl
  have hHolds : ∀ y z, Holds t' y z ↔ Holds t y z := by
    intro y z
    unfold Holds
    rw [hkeep Elem.coreId (fun _ _ => rfl) y, hkeep Elem.coreLba (fun _ _ => rfl) y]
  have hAge : ∀ y, age cfg t' y = age cfg t y := by
    intro y
    unfold age
    rw [hptr]
  obtain ⟨chain, hc⟩ := h.chained
  rw [ht']
  refine ⟨⟨chain, hc.congr hmap (hkeep Elem.collPrev fun _ _ => rfl) (hkeep Elem.collNext fun _ _ => rfl)
    (hkeep Elem.coreId fun _ _ => rfl) (hkeep Elem.coreLba fun _ _ => rfl)⟩, hptr ▸ h.pointer, fun y hy => ?_,
    fun z hz y hy w hw hyz hwz => ?_, fun z e' hz => ?_, fun z hz hnone y hy hyz => ?_⟩
  · rw [hkeep Elem.valid (fun _ _ => rfl) y]
    exact h.valid y hy
  · exact h.unique z hz y hy w hw ((hHolds y z).mp hyz) ((hHolds w z).mp hwz)
  · by_cases hzx : z = x
    · rw [hzx, hself] at hz
      obtain rfl := Option.some.inj hz
      refine ⟨slot, hslot, ?_, ?_, ?_⟩
      · rw [hzx, hHolds]
        exact hholds
      · rw [hAge]
        exact hage
      · rw [hring slot, if_pos rfl]
        exact hf
    · rw [hother z hzx] at hz
      obtain ⟨y, hy, hyz, hya, hyc⟩ := h.present z e' hz
      have hne : y ≠ slot := by
        intro heq
        rw [heq] at hyz
        exact hzx (Prod.ext (hyz.1.symm.trans hholds.1) (hyz.2.symm.trans hholds.2))
      refine ⟨y, hy, (hHolds y z).mpr hyz, (hAge y).trans hya, ?_⟩
      rw [hring y, if_neg hne]
      exact hyc
  · by_cases hzx : z = x
    · rw [hzx, hself] at hnone
      exact absurd hnone (Option.some_ne_none _)
    · rw [hother z hzx] at hnone
      exact h.absent z hz hnone y hy ((hHolds y z).mp hyz)

theorem setSlot_counter {f : Elem → Elem} (hf : ∀ e, (f e).counter = e.counter) (t : Table) (z y : Nat) :
    ((setSlot t z f).ring y).counter = (t.ring y).counter := by
  rw [setSlot_ring]
  by_cases hy : y = z
  · rw [if_pos hy, hf, hy]
  · rw [if_neg hy]

theorem collisionRemove_counter (cfg : Config) (t : Table) (slot y : Nat) :
    ((collisionRemove cfg t slot).ring y).counter = (t.ring y).counter := by
  unfold collisionRemove
  simp only
  split
  · rfl
  · have h1 := setSlot_counter (f := fun e => { e with coreId := ocfCoreIdInvalid }) (fun _ => rfl) t slot y
    have h2 := setSlot_counter (f := fun e => { e with collNext := (t.ring slot).collNext }) (fun _ => rfl)
    have h3 := setSlot_counter (f := fun e => { e with collPrev := (t.ring slot).collPrev }) (fun _ => rfl)
    split <;> split <;> split <;> simp only [h3, h2, h1]

theorem collisionInsertNew_counter (cfg : Config) (t : Table) (slot core lba y : Nat) :
    ((collisionInsertNew cfg t slot core lba).ring y).counter = if y = slot then 1 else (t.ring y).counter := by
  unfold collisionInsertNew
  simp only
  split
  · have h := setSlot_counter (f := fun e => { e with collPrev := slot }) (fun _ => rfl)
    rw [h, setSlot_ring]
    split <;> rfl
  · rw [setSlot_ring]
    split <;> rfl

/-- What an insertion does to the table. -/
structure InsertedLine (cfg : Config) (t : Table) (x : Line) (t' : Table) : Prop where
  /-- The collision lists. -/
  chained : ∃ chain, Chained cfg t' chain
  /-- The ring pointer turns. -/
  pointer : t'.rbPointer = (t.rbPointer + 1) % cfg.rbEntries
  /-- No slot is claimed. -/
  valid : ∀ y < cfg.rbEntries, (t'.ring y).valid = true
  /-- The slot under the ring pointer gets the core line. -/
  holds : Holds t' t.rbPointer x
  /-- It is counted once. -/
  counter : (t'.ring t.rbPointer).counter = 1
  /-- The other slots keep their core lines and counters. -/
  rest : ∀ y, y ≠ t.rbPointer → (t'.ring y).coreId = (t.ring y).coreId ∧ (t'.ring y).coreLba = (t.ring y).coreLba ∧
    (t'.ring y).counter = (t.ring y).counter

/-- An insertion takes the slot at the pointer. -/
theorem Tracks.inserted (h : Tracks cfg t A) (hx : x.1 ≠ ocfCoreIdInvalid) :
    InsertedLine cfg t x (nhitHashInsert cfg t x) := by
  obtain ⟨p, hp⟩ : ∃ p, t.rbPointer = p := ⟨_, rfl⟩
  have hlt : p < cfg.rbEntries := hp ▸ h.pointer
  obtain ⟨t1, ht1⟩ : ∃ t1, (getRbSlot cfg t).2.2 = t1 := ⟨_, rfl⟩
  obtain ⟨t2, ht2⟩ : ∃ t2, collisionInsertNew cfg (collisionRemove cfg t1 p) p x.1 x.2 = t2 := ⟨_, rfl⟩
  obtain ⟨t3, ht3⟩ : ∃ t3, commitRbSlot t2 p = t3 := ⟨_, rfl⟩
  have hout : nhitHashInsert cfg t x = t3 := by
    have hv : (t.ring t.rbPointer).valid = true := h.valid _ h.pointer
    rw [← ht3, ← ht2, ← ht1, ← hp]
    exact if_pos hv
  have hclaim : SetValid t p false t1 := by
    rw [← ht1, ← hp]
    exact setValid_setSlot ..
  have hcommit : SetValid t2 p true t3 := ht3 ▸ setValid_setSlot t2 p true t2.rbPointer
  have hchange : Changed cfg t1 p t2 := ht2 ▸ changed_insert x.2 (hclaim.chained h.chained) hlt hx
  have hi : Inserted cfg (collisionRemove cfg t1 p) p x.1 x.2 t2 := ht2 ▸ inserted_collisionInsertNew ..
  have hcounter : ∀ y, (t3.ring y).counter = if y = p then 1 else (t.ring y).counter := by
    intro y
    have h3 : (t3.ring y).counter = (t2.ring y).counter := by
      rw [hcommit.ring y]
      split <;> rfl
    have h1 : (t1.ring y).counter = (t.ring y).counter := by
      rw [hclaim.ring y]
      split <;> rfl
    rw [h3, ← ht2, collisionInsertNew_counter, collisionRemove_counter, h1]
  have hptr : t3.rbPointer = (p + 1) % cfg.rbEntries := by
    have h1 : t1.rbPointer = (p + 1) % cfg.rbEntries := by
      rw [← ht1, ← hp]
      rfl
    have h3 : t3.rbPointer = t2.rbPointer := ht3 ▸ rfl
    rw [h3, hchange.rbPointer, h1]
  rw [hout]
  refine ⟨hcommit.chained hchange.chained, hp ▸ hptr, fun y hy => ?_, ?_, ?_, fun y hy => ?_⟩
  · rw [hcommit.valid y, hchange.valid y, hclaim.valid y]
    by_cases hyp : y = p
    · rw [if_pos hyp]
    · rw [if_neg hyp, if_neg hyp]
      exact h.valid y hy
  · rw [hp]
    have hline := hcommit.line p
    refine ⟨?_, ?_⟩
    · rw [hline.1, hi.core p, if_pos rfl]
    · rw [hline.2, hi.lba p, if_pos rfl]
  · rw [hp, hcounter p, if_pos rfl]
  · rw [hp] at hy
    have hline := hcommit.line y
    have hchanged := hchange.line y hy
    have hclaimed := hclaim.line y
    refine ⟨?_, ?_, ?_⟩
    · rw [hline.1, hchanged.1, hclaimed.1]
    · rw [hline.2, hchanged.2, hclaimed.2]
    · rw [hcounter y, if_neg hy]

theorem age_turn {t' : Table} {p y : Nat} (hp : p < cfg.rbEntries) (hy : y < cfg.rbEntries) (ht : t.rbPointer = p)
    (ht' : t'.rbPointer = (p + 1) % cfg.rbEntries) :
    (y = p → age cfg t y + 1 = cfg.rbEntries ∧ age cfg t' y = 0) ∧
      (y ≠ p → age cfg t y + 1 < cfg.rbEntries ∧ age cfg t' y = age cfg t y + 1) := by
  have hnext : t'.rbPointer = if p + 1 = cfg.rbEntries then 0 else p + 1 := by
    rw [ht']
    by_cases hwrap : p + 1 = cfg.rbEntries
    · rw [if_pos hwrap, hwrap, Nat.mod_self]
    · rw [if_neg hwrap]
      exact Nat.mod_eq_of_lt (by omega)
  unfold age
  rw [hnext, ht]
  split <;> constructor <;> intro hyp <;> split <;> (try split) <;> omega

theorem Tracks.insert (h : Tracks cfg t A) (hx : x.1 ≠ ocfCoreIdInvalid) (hA : A x = none) :
    Tracks cfg (nhitHashInsert cfg t x) (touch cfg.rbEntries A x) := by
  have hi : InsertedLine cfg t x (nhitHashInsert cfg t x) := h.inserted hx
  obtain ⟨t', ht'⟩ : ∃ t', nhitHashInsert cfg t x = t' := ⟨_, rfl⟩
  obtain ⟨p, hp⟩ : ∃ p, t.rbPointer = p := ⟨_, rfl⟩
  have hlt : p < cfg.rbEntries := hp ▸ h.pointer
  rw [ht'] at hi
  rw [ht']
  obtain ⟨hchained, hptr, hvalid, hholds, hcounter, hrest⟩ := hi
  rw [hp] at hptr hholds hcounter hrest
  have hno := h.absent x hx hA
  have hother : ∀ y z, y ≠ p → (Holds t' y z ↔ Holds t y z) := by
    intro y z hy
    unfold Holds
    rw [(hrest y hy).1, (hrest y hy).2.1]
  have hself : ∀ z, Holds t' p z → z = x := fun z hz =>
    Prod.ext (hz.1.symm.trans hholds.1) (hz.2.symm.trans hholds.2)
  refine ⟨hchained, ?_, hvalid, fun z hz y hy w hw hyz hwz => ?_, fun z e hz => ?_, fun z hz hnone y hy hyz => ?_⟩
  · rw [hptr]
    exact Nat.mod_lt _ cfg.rbEntries_pos
  · by_cases hyp : y = p
    · by_cases hwp : w = p
      · rw [hyp, hwp]
      · rw [hyp] at hyz
        rw [hself z hyz, hother w x hwp] at hwz
        exact absurd hwz (hno w hw)
    · by_cases hwp : w = p
      · rw [hwp] at hwz
        rw [hself z hwz, hother y x hyp] at hyz
        exact absurd hyz (hno y hy)
      · exact h.unique z hz y hy w hw ((hother y z hyp).mp hyz) ((hother w z hwp).mp hwz)
  · by_cases hzx : z = x
    · have heq : e = ⟨1, 0⟩ := by
        rw [touch, if_pos hA, if_pos hzx] at hz
        exact (Option.some.inj hz).symm
      rw [hzx, heq]
      refine ⟨p, hlt, hholds, ((age_turn hlt hlt hp hptr).1 rfl).2, ?_⟩
      rw [hcounter]
      decide
    · rw [touch, if_pos hA, if_neg hzx] at hz
      obtain ⟨e1, he1, hgrow⟩ := Option.bind_eq_some_iff.mp hz
      obtain ⟨hage1, heq⟩ := Option.ite_none_right_eq_some.mp hgrow
      obtain rfl := Option.some.inj heq
      obtain ⟨y, hy, hyz, hya, hyc⟩ := h.present z e1 he1
      have hyp : y ≠ p := by
        intro hyp
        have hlast := ((age_turn hlt hy hp hptr).1 hyp).1
        omega
      refine ⟨y, hy, (hother y z hyp).mpr hyz, ?_, ?_⟩
      · rw [((age_turn hlt hy hp hptr).2 hyp).2, hya]
      · rw [(hrest y hyp).2.2, hyc]
  · rw [touch, if_pos hA] at hnone
    by_cases hzx : z = x
    · rw [if_pos hzx] at hnone
      exact absurd hnone (Option.some_ne_none _)
    · rw [if_neg hzx] at hnone
      have hyp : y ≠ p := fun hyp => hzx (hself z (hyp ▸ hyz))
      have hyz' := (hother y z hyp).mp hyz
      cases hAz : A z with
      | none => exact h.absent z hz hAz y hy hyz'
      | some e1 =>
        obtain ⟨w, hw, hwz, hwa, -⟩ := h.present z e1 hAz
        have hyw : y = w := h.unique z hz y hy w hw hyz' hwz
        have hyoung := ((age_turn hlt hy hp hptr).2 hyp).1
        rw [hAz] at hnone
        have hgrow : grow cfg.rbEntries e1 = none := hnone
        rw [grow, if_pos (by rw [← hwa, ← hyw]; exact hyoung)] at hgrow
        exact absurd hgrow (Option.some_ne_none _)

end OcfCache.Nhit
