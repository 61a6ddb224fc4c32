import Mathlib.Data.Set.BooleanAlgebra
import Mathlib.Order.CompletePartialOrder
import OcfCache.Runs

/-!
# The status bits as sector sets

Embedding of `metadata_bit.h` with the functions of `metadata.c` that pick the
word of the line size and the `*_sec_changed` functions of `metadata_status.h`.
The valid and dirty words of a line are the sets of their sectors, and the
masked operations are the union, the difference and the tests on these sets.
The calls `set_cache_line_*` keep the dirty sectors among the valid ones as long
as only valid sectors get dirty and no dirty one gets invalid.
-/

namespace OcfCache.StatusBits

open Function Runs

/-- `_get_mask` and `_get_mask_u128`; `none` is a failed `ENV_BUG_ON`. -/
def getMask (bits start stop : Nat) : Option (BitVec bits) :=
  if bits ≤ start ∨ bits ≤ stop ∨ stop < start then none
  else some ((BitVec.allOnes bits >>> (start + (bits - 1 - stop))) <<< start)

/-- `_get_mask_##type`. -/
def getMaskType (w start stop : Nat) : Option (BitVec w) :=
  (getMask (if w = 128 then 128 else 64) start stop).map (BitVec.setWidth w)

/-- `cache->metadata.line_size`. -/
inductive LineSize
  | size4 | size8 | size16 | size32 | size64

/-- What the functions are generated and picked by. -/
structure Config where
  /-- `OCF_BLOCK_SIZE_4K`. -/
  blockSize4K : Bool
  /-- `line_size`. -/
  lineSize : LineSize

/-- Bits of a status word. -/
def Config.width : Config → Nat
  | ⟨true, .size4⟩ => 1
  | ⟨true, .size64⟩ => 16
  | ⟨true, _⟩ => 8
  | ⟨false, .size4⟩ => 8
  | ⟨false, .size8⟩ => 16
  | ⟨false, .size16⟩ => 32
  | ⟨false, .size32⟩ => 64
  | ⟨false, .size64⟩ => 128

/-- `ocf_line_end_block`. -/
def Config.endBlock (c : Config) : Nat :=
  (match c.lineSize with
    | .size4 => 4096 | .size8 => 8192 | .size16 => 16384 | .size32 => 32768 | .size64 => 65536) /
    (if c.blockSize4K then 4096 else 512) - 1

/-- The valid and the dirty word. -/
inductive What
  | valid | dirty
  deriving DecidableEq

/-- The status words of all lines. -/
abbrev Table (w : Nat) := Nat → What → BitVec w

section Functions

variable {w : Nat}

/-- The functions without a type work on a single bit, with the result `one`, the others on
a word with a mask. -/
def onRange {β : Type} (start stop : Nat) (one : β) (word : BitVec w → β) : Option β :=
  if w = 1 then if start ≠ stop then none else some one
  else (getMaskType w start stop).map word

/-- The test of a masked word. -/
def tested (x mask : BitVec w) (all : Bool) : Bool :=
  if all then mask == x &&& mask else x &&& mask != 0

variable (t : Table w) (line : Nat) (what : What) (start stop : Nat) (all : Bool)

/-- The word of a line is replaced. -/
def put {β : Type} (r : β × BitVec w) : β × Table w :=
  (r.1, update t line (update (t line) what r.2))

/-- `ocf_metadata_test_##what`. -/
def ocfMetadataTest : Option Bool :=
  onRange start stop (t line what != 0) fun mask => tested (t line what) mask all

/-- `ocf_metadata_test_out_##what`. -/
def ocfMetadataTestOut : Option Bool :=
  if w = 1 then some false
  else (getMaskType w start stop).map fun mask => t line what &&& ~~~mask != 0

/-- `ocf_metadata_clear_##what`. -/
def ocfMetadataClear : Option (Bool × Table w) :=
  (onRange start stop (false, 0) fun mask =>
    (t line what &&& ~~~mask != 0, t line what &&& ~~~mask)).map (put t line what)

/-- `ocf_metadata_set_##what`. -/
def ocfMetadataSet : Option (Bool × Table w) :=
  (onRange start stop (t line what != 0, 1) fun mask =>
    (t line what != 0, t line what ||| mask)).map (put t line what)

/-- `ocf_metadata_test_and_set_##what`. -/
def ocfMetadataTestAndSet : Option (Bool × Table w) :=
  (onRange start stop (t line what != 0, 1) fun mask =>
    (tested (t line what) mask all, t line what ||| mask)).map (put t line what)

/-- `ocf_metadata_test_and_clear_##what`. -/
def ocfMetadataTestAndClear : Option (Bool × Table w) :=
  (onRange start stop (t line what != 0, 0) fun mask =>
    (tested (t line what) mask all, t line what &&& ~~~mask)).map (put t line what)

/-- The bits of a word that another one does not have are cleared. -/
def clearIfNot (x y : BitVec w) : Option (Bool × BitVec w) :=
  onRange start stop (let x := if y = 0 then 0 else x; (x != 0, x)) fun mask =>
    let x := x &&& ((mask &&& y) ||| ~~~mask)
    (x != 0, x)

/-- `ocf_metadata_clear_valid_if_clean`. -/
def ocfMetadataClearValidIfClean : Option (Bool × Table w) :=
  (clearIfNot start stop (t line .valid) (t line .dirty)).map (put t line .valid)

/-- `ocf_metadata_clear_dirty_if_invalid`, which returns nothing. -/
def ocfMetadataClearDirtyIfInvalid : Option (Bool × Table w) :=
  (clearIfNot start stop (t line .dirty) (t line .valid)).map (put t line .dirty)

/-- `ocf_metadata_check`. -/
def ocfMetadataCheck : Bool := t line .dirty &&& ~~~t line .valid == 0

/-- `metadata_set_valid_sec_changed`. -/
def metadataSetValidSecChanged : Option (Bool × Table w) :=
  (ocfMetadataSet t line .valid start stop).map fun r => (!r.1, r.2)

/-- `metadata_clear_valid_sec_changed` with `line_remains_valid`. -/
def metadataClearValidSecChanged (endBlock : Nat) : Option ((Bool × Bool) × Table w) :=
  (ocfMetadataTest t line .valid 0 endBlock false).bind fun lineWasValid =>
    (ocfMetadataClear t line .valid start stop).map fun r => ((lineWasValid && !r.1, r.1), r.2)

/-- `metadata_set_dirty_sec_changed` with `line_was_dirty`. -/
def metadataSetDirtySecChanged : Option ((Bool × Bool) × Table w) :=
  (ocfMetadataTest t line .dirty start stop true).bind fun test =>
    (ocfMetadataSet t line .dirty start stop).map fun r => ((!test, r.1), r.2)

/-- `metadata_clear_dirty_sec_changed` with `line_is_clean`. -/
def metadataClearDirtySecChanged : Option ((Bool × Bool) × Table w) :=
  (ocfMetadataTest t line .dirty start stop false).bind fun secChanged =>
    (ocfMetadataClear t line .dirty start stop).map fun r => ((secChanged, !r.1), r.2)

end Functions

/-- `set_cache_line_valid`, `_dirty`, `_clean` and `_invalid`. -/
inductive Change
  | valid | dirty | clean | invalid

/-- The status words after a `set_cache_line_*`. -/
def setCacheLine (c : Config) (change : Change) (t : Table c.width) (line start stop : Nat) :
    Option (Table c.width) :=
  match change with
  | .valid => (metadataSetValidSecChanged t line start stop).map Prod.snd
  | .dirty => (metadataSetDirtySecChanged t line start stop).map Prod.snd
  | .clean => (metadataClearDirtySecChanged t line start stop).map Prod.snd
  | .invalid => (metadataClearValidSecChanged t line start stop c.endBlock).map Prod.snd

section Sets

variable {w : Nat} {x y : BitVec w} {start stop : Nat}

/-- The sectors of a word. -/
def sectors (x : BitVec w) : Set Nat := {i | x.getLsbD i = true}

@[simp] theorem mem_sectors {i : Nat} : i ∈ sectors x ↔ x.getLsbD i = true := Iff.rfl

@[simp] theorem sectors_or : sectors (x ||| y) = sectors x ∪ sectors y := by
  ext i
  simp

@[simp] theorem sectors_and : sectors (x &&& y) = sectors x ∩ sectors y := by
  ext i
  simp

@[simp] theorem sectors_clear : sectors (x &&& ~~~y) = sectors x \ sectors y := by
  ext i
  have hlt : x.getLsbD i = true → i < w := BitVec.lt_of_getLsbD
  simp
  tauto

@[simp] theorem sectors_clearIfNot {mask : BitVec w} : sectors (x &&& ((mask &&& y) ||| ~~~mask)) =
    sectors x \ (sectors mask \ sectors y) := by
  ext i
  have hlt : x.getLsbD i = true → i < w := BitVec.lt_of_getLsbD
  simp
  grind

theorem sectors_inj : sectors x = sectors y ↔ x = y := by
  refine ⟨fun h => BitVec.eq_of_getLsbD_eq fun i _ => ?_, congrArg sectors⟩
  exact Bool.eq_iff_iff.mpr (Set.ext_iff.mp h i)

@[simp] theorem sectors_zero : sectors (0 : BitVec w) = ∅ := by
  ext i
  simp

@[simp] theorem ne_zero_iff : (x != 0) = true ↔ (sectors x).Nonempty := by
  rw [bne_iff_ne, Set.nonempty_iff_ne_empty, ne_eq, ne_eq, ← sectors_inj, sectors_zero]

/-- The tests of a range in a set. -/
def Holds (set range : Set Nat) (all : Bool) : Prop :=
  if all then range ⊆ set else (set ∩ range).Nonempty

theorem tested_iff {all : Bool} : tested x y all = true ↔ Holds (sectors x) (sectors y) all := by
  cases all with
  | true => simp [tested, Holds, ← sectors_inj, Set.right_eq_inter]
  | false => rw [tested, Holds, if_neg nofun, ne_zero_iff, sectors_and, if_neg nofun]

theorem getMaskType_spec (hle : start ≤ stop) (hlt : stop < w) (hw : w ≤ 64 ∨ w = 128) :
    ∃ mask, getMaskType w start stop = some mask ∧ sectors mask = Set.Icc start stop := by
  generalize hn : (if w = 128 then 128 else 64) = n
  have hwn : w ≤ n := by
    subst hn
    split <;> omega
  have hin : ¬(n ≤ start ∨ n ≤ stop ∨ stop < start) := by omega
  refine ⟨_, by rw [getMaskType, hn, getMask, if_neg hin, Option.map_some], ?_⟩
  ext i
  simp
  omega

theorem onRange_spec (hle : start ≤ stop) (hlt : stop < w) (hw : w ≤ 64 ∨ w = 128) :
    ∃ mask : BitVec w, sectors mask = Set.Icc start stop ∧
      (∀ t line what, ocfMetadataTestOut t line what start stop = some (t line what &&& ~~~mask != 0)) ∧
      ∀ {β : Type} (one : β) (word : BitVec w → β), (w = 1 → one = word 1) →
        onRange start stop one word = some (word mask) := by
  obtain ⟨mask, hmask, hrange⟩ := getMaskType_spec hle hlt hw
  by_cases hone : w = 1
  · -- the mask of the only block is the whole word
    subst hone
    obtain ⟨rfl, rfl⟩ : start = 0 ∧ stop = 0 := by omega
    have hwhole : getMaskType 1 0 0 = some (1 : BitVec 1) := by decide
    obtain rfl := Option.some.inj (hwhole.symm.trans hmask)
    refine ⟨1, hrange, fun t line what => ?_, fun one word h => congrArg some (h rfl)⟩
    have hnone : ∀ x : BitVec 1, (x &&& ~~~1 != 0) = false := by decide
    rw [hnone]
    rfl
  · refine ⟨mask, hrange, fun _ _ _ => ?_, fun one word _ => ?_⟩
    · rw [ocfMetadataTestOut, if_neg hone, hmask, Option.map_some]
    · rw [onRange, if_neg hone, hmask, Option.map_some]

end Sets

section Specs

variable {w : Nat} {t : Table w} {line : Nat} {what : What} {start stop : Nat}

/-- A call with a result that makes `after` the sectors of a word and leaves the other
words alone. -/
def Writes {β : Type} (t : Table w) (line : Nat) (what : What) (result : β → Prop)
    (after : Set Nat) (r : Option (β × Table w)) : Prop :=
  ∃ b t', r = some (b, t') ∧ result b ∧ sectors (t' line what) = after ∧
    ∀ line' what', (line', what') ≠ (line, what) → t' line' what' = t line' what'


theorem writes_put {β : Type} {b : β} {x : BitVec w} {r : Option (β × BitVec w)} {after : Set Nat}
    {result : β → Prop} (hr : r = some (b, x)) (hb : result b) (hx : sectors x = after) :
    Writes t line what result after (r.map (put t line what)) := by
  refine ⟨b, _, congrArg (Option.map (put t line what)) hr, hb, ?_, fun line' what' hne => ?_⟩
  · rw [update_self, update_self]
    exact hx
  · by_cases hline : line' = line
    · have hwhat : what' ≠ what := fun heq => hne (Prod.ext hline heq)
      rw [hline, update_self, update_of_ne hwhat]
    · rw [update_of_ne hline]

theorem Writes.map {β γ : Type} {r : Option (β × Table w)} {after : Set Nat} {result : β → Prop}
    {result' : γ → Prop} (h : Writes t line what result after r) (f : β → γ)
    (hf : ∀ b, result b → result' (f b)) :
    Writes t line what result' after (r.map fun r => (f r.1, r.2)) := by
  obtain ⟨b, t', rfl, hb, hrest⟩ := h
  exact ⟨f b, t', rfl, hf b hb, hrest⟩

/-- What the operations on the sectors `range` of a line do, with `set` the sectors of
its words. -/
structure SectorOps (t : Table w) (line start stop endBlock : Nat) (set : What → Set Nat)
    (range : Set Nat) : Prop where
  /-- Inclusion or intersection test. -/
  test : ∀ what all, ∃ b, ocfMetadataTest t line what start stop all = some b ∧
    (b = true ↔ Holds (set what) range all)
  /-- Test of the sectors outside. -/
  testOut : ∀ what, ∃ b, ocfMetadataTestOut t line what start stop = some b ∧
    (b = true ↔ (set what \ range).Nonempty)
  /-- Difference, with the test that sectors are left. -/
  clear : ∀ what, Writes t line what (· = true ↔ (set what \ range).Nonempty) (set what \ range)
    (ocfMetadataClear t line what start stop)
  /-- Union, with the test that there were sectors. -/
  union : ∀ what, Writes t line what (· = true ↔ (set what).Nonempty) (set what ∪ range)
    (ocfMetadataSet t line what start stop)
  /-- Union, with the test of the range. -/
  testAndSet : ∀ what all, Writes t line what (· = true ↔ Holds (set what) range all)
    (set what ∪ range) (ocfMetadataTestAndSet t line what start stop all)
  /-- Difference, with the test of the range. -/
  testAndClear : ∀ what all, Writes t line what (· = true ↔ Holds (set what) range all)
    (set what \ range) (ocfMetadataTestAndClear t line what start stop all)
  /-- Clean sectors get invalid. -/
  clearValidIfClean : Writes t line .valid
    (· = true ↔ (set .valid \ (range \ set .dirty)).Nonempty) (set .valid \ (range \ set .dirty))
    (ocfMetadataClearValidIfClean t line start stop)
  /-- Invalid sectors get clean. -/
  clearDirtyIfInvalid : Writes t line .dirty (fun _ => True) (set .dirty \ (range \ set .valid))
    (ocfMetadataClearDirtyIfInvalid t line start stop)
  /-- Inclusion of the dirty sectors. -/
  check : ocfMetadataCheck t line = true ↔ set .dirty ⊆ set .valid
  /-- The line gets its first valid sector. -/
  setValid : Writes t line .valid (· = true ↔ set .valid = ∅ ∧ set .valid ∪ range ≠ ∅)
    (set .valid ∪ range) (metadataSetValidSecChanged t line start stop)
  /-- The line loses its last valid sector; valid sectors are left. -/
  clearValid : Writes t line .valid
    (fun r => (set .valid ⊆ Set.Icc 0 endBlock →
      (r.1 = true ↔ set .valid ≠ ∅ ∧ set .valid \ range = ∅)) ∧
      (r.2 = true ↔ (set .valid \ range).Nonempty))
    (set .valid \ range) (metadataClearValidSecChanged t line start stop endBlock)
  /-- Sectors get dirty; the line was dirty. -/
  setDirty : Writes t line .dirty
    (fun r => (r.1 = true ↔ set .dirty ∪ range ≠ set .dirty) ∧ (r.2 = true ↔ (set .dirty).Nonempty))
    (set .dirty ∪ range) (metadataSetDirtySecChanged t line start stop)
  /-- Sectors get clean; the line is clean. -/
  clearDirty : Writes t line .dirty
    (fun r => (r.1 = true ↔ set .dirty \ range ≠ set .dirty) ∧ (r.2 = true ↔ set .dirty \ range = ∅))
    (set .dirty \ range) (metadataClearDirtySecChanged t line start stop)

/-- The operations are those of sets of sectors. -/
theorem sectorOps_of_masked (hle : start ≤ stop) (hlt : stop < w) {endBlock : Nat} (hend : endBlock < w)
    (hw : w ≤ 64 ∨ w = 128) :
    SectorOps t line start stop endBlock (fun what => sectors (t line what)) (Set.Icc start stop) := by
  obtain ⟨full, hfull, -, hfullRange⟩ := onRange_spec (Nat.zero_le endBlock) hend hw
  obtain ⟨mask, hmask, hout, hrange⟩ := onRange_spec hle hlt hw
  rw [← hmask]
  -- a single bit is the word of its whole mask
  have hor : w = 1 → ∀ x : BitVec w, 1 = x ||| 1 := by
    rintro rfl
    decide
  have hnot : w = 1 → ∀ x : BitVec w, 0 = x &&& ~~~1 := by
    rintro rfl
    decide
  have htested : w = 1 → ∀ (x : BitVec w) all, (x != 0) = tested x 1 all := by
    rintro rfl
    decide
  have hif : w = 1 → ∀ x y : BitVec w, (if y = 0 then 0 else x) = x &&& ((1 &&& y) ||| ~~~1) := by
    rintro rfl
    decide
  have hclear : ∀ what, Writes t line what (· = true ↔ (sectors (t line what) \ sectors mask).Nonempty)
      (sectors (t line what) \ sectors mask) (ocfMetadataClear t line what start stop) := by
    refine fun what => writes_put (hrange _ _ fun h => ?_) (by rw [ne_zero_iff, sectors_clear]) sectors_clear
    rw [← hnot h, bne_self_eq_false]
  have hunion : ∀ what, Writes t line what (· = true ↔ (sectors (t line what)).Nonempty)
      (sectors (t line what) ∪ sectors mask) (ocfMetadataSet t line what start stop) :=
    fun what => writes_put (hrange _ _ fun h => by rw [← hor h]) ne_zero_iff sectors_or
  have htest : ∀ all, ocfMetadataTest t line .dirty start stop all = some (tested (t line .dirty) mask all) :=
    fun all => hrange _ _ fun h => htested h _ all
  have hsome : (sectors mask).Nonempty := hmask ▸ Set.nonempty_Icc.mpr hle
  constructor
  case test => exact fun what all => ⟨_, hrange _ _ fun h => htested h _ all, tested_iff⟩
  case testOut => exact fun what => ⟨_, hout t line what, by rw [ne_zero_iff, sectors_clear]⟩
  case clear => exact hclear
  case union => exact hunion
  case testAndSet =>
    refine fun what all => writes_put (hrange _ _ fun h => ?_) tested_iff sectors_or
    rw [← hor h, htested h _ all]
  case testAndClear =>
    refine fun what all => writes_put (hrange _ _ fun h => ?_) tested_iff sectors_clear
    rw [← hnot h, htested h _ all]
  case clearValidIfClean =>
    refine writes_put (hrange _ _ fun h => ?_) ?_ sectors_clearIfNot
    · simp only [hif h]
    · rw [ne_zero_iff, sectors_clearIfNot]
  case clearDirtyIfInvalid =>
    refine writes_put (hrange _ _ fun h => ?_) trivial sectors_clearIfNot
    simp only [hif h]
  case check =>
    rw [ocfMetadataCheck, beq_iff_eq, ← sectors_inj, sectors_clear, sectors_zero, Set.sdiff_eq_empty]
  case setValid =>
    refine (hunion .valid).map (fun b => !b) fun b hb => ?_
    have hne := (hsome.mono (Set.subset_union_right (s := sectors (t line .valid)))).ne_empty
    rw [Bool.not_eq_true', ← Bool.not_eq_true, hb, Set.not_nonempty_iff_eq_empty]
    exact (and_iff_left hne).symm
  case clearValid =>
    rw [metadataClearValidSecChanged, ocfMetadataTest, hfullRange _ _ fun h => htested h _ false,
      Option.bind_some]
    refine (hclear .valid).map (fun b => (_ && !b, b)) fun b hb => ⟨fun hin => ?_, hb⟩
    have hany := @tested_iff _ (t line .valid) full false
    rw [hfull, Holds, if_neg nofun, Set.inter_eq_left.mpr hin] at hany
    rw [Bool.and_eq_true, Bool.not_eq_true', ← Bool.not_eq_true, hany, hb, Set.not_nonempty_iff_eq_empty,
      Set.nonempty_iff_ne_empty]
  case setDirty =>
    rw [metadataSetDirtySecChanged, htest, Option.bind_some]
    refine (hunion .dirty).map (fun b => (!_, b)) fun b hb => ⟨?_, hb⟩
    rw [Bool.not_eq_true', ← Bool.not_eq_true, tested_iff, Holds, if_pos rfl, ne_eq, Set.union_eq_left]
  case clearDirty =>
    rw [metadataClearDirtySecChanged, htest, Option.bind_some]
    refine (hclear .dirty).map (fun b => (_, !b)) fun b hb => ⟨?_, ?_⟩
    · rw [tested_iff, Holds, if_neg nofun, ne_eq, sdiff_eq_left, Set.not_disjoint_iff_nonempty_inter]
    · rw [Bool.not_eq_true', ← Bool.not_eq_true, hb, Set.not_nonempty_iff_eq_empty]

end Specs

theorem Config.endBlock_lt (c : Config) :
    c.endBlock < c.width ∧ (c.width ≤ 64 ∨ c.width = 128) := by
  obtain ⟨block, size⟩ := c
  cases block <;> cases size <;> decide

/-- The dirty sectors of all lines are valid. -/
def DirtyInValid {w : Nat} (t : Table w) : Prop :=
  ∀ line, sectors (t line .dirty) ⊆ sectors (t line .valid)

/-- The changes that keep the dirty sectors among the valid ones. -/
def Allowed {w : Nat} (t : Table w) (line start stop : Nat) : Change → Prop
  | .valid | .clean => True
  | .dirty => Set.Icc start stop ⊆ sectors (t line .valid)
  | .invalid => Disjoint (sectors (t line .dirty)) (Set.Icc start stop)

/-- The changes of the lines by ranges inside them, as far as they are allowed. -/
def statusSystem (c : Config) : System (Table c.width) (Change × Nat × Nat × Nat) where
  guard t act := act.2.2.1 ≤ act.2.2.2 ∧ act.2.2.2 ≤ c.endBlock ∧
    Allowed t act.2.1 act.2.2.1 act.2.2.2 act.1
  step t act := setCacheLine c act.1 t act.2.1 act.2.2.1 act.2.2.2

section Changes

variable {c : Config} {t : Table c.width} {line start stop : Nat}

theorem sectorOps (hle : start ≤ stop) (hstop : stop ≤ c.endBlock) : SectorOps t line start stop
    c.endBlock (fun what => sectors (t line what)) (Set.Icc start stop) := by
  obtain ⟨hlt, hw⟩ := c.endBlock_lt
  exact sectorOps_of_masked hle (hstop.trans_lt hlt) hlt hw

theorem Writes.change {β : Type} {what : What} {result : β → Prop} {after : Set Nat} {p : Prop}
    {r : Option (β × Table c.width)} (h : Writes t line what result after r) (hd : DirtyInValid t)
    (hp : update (fun what => sectors (t line what)) what after .dirty ⊆
      update (fun what => sectors (t line what)) what after .valid ↔ p) :
    ∃ t', r.map Prod.snd = some t' ∧ (DirtyInValid t' ↔ p) := by
  obtain ⟨b, t', rfl, -, hafter, hframe⟩ := h
  have hwords : ∀ k, sectors (t' line k) =
      update (fun what => sectors (t line what)) what after k := by
    intro k
    by_cases hk : k = what
    · rw [hk, hafter, update_self]
    · rw [hframe line k (by simp [hk]), update_of_ne hk]
  refine ⟨t', rfl, ?_⟩
  rw [← hp, ← hwords, ← hwords]
  refine ⟨fun h => h line, fun h l => ?_⟩
  by_cases hl : l = line
  · exact hl ▸ h
  · rw [hframe l _ (by simp [hl]), hframe l _ (by simp [hl])]
    exact hd l

theorem setCacheLine_dirtyInValid (hle : start ≤ stop) (hstop : stop ≤ c.endBlock)
    (hd : DirtyInValid t) (change : Change) : ∃ t', setCacheLine c change t line start stop = some t' ∧
      (DirtyInValid t' ↔ Allowed t line start stop change) := by
  have h := @sectorOps c t line start stop hle hstop
  have hline := hd line
  cases change with
  | valid => exact h.setValid.change hd (iff_true_intro (hline.trans Set.subset_union_left))
  | dirty => exact h.setDirty.change hd (by simp [Allowed, hline])
  | clean => exact h.clearDirty.change hd (iff_true_intro (Set.sdiff_subset.trans hline))
  | invalid => exact h.clearValid.change hd (by simp [Allowed, hline, Set.subset_sdiff])

theorem dirtyInValid_of_reachable {t' : Table c.width} (hd : DirtyInValid t)
    (h : Reachable (statusSystem c) t t') : DirtyInValid t' := by
  refine h.invariant (fun _ => hd) fun s act s' hinv _ hg hs _ => ?_
  obtain ⟨next, hnext, hkeeps⟩ := @setCacheLine_dirtyInValid c s act.2.1 _ _ hg.1 hg.2.1 hinv act.1
  obtain rfl := Option.some.inj (hnext.symm.trans hs)
  exact hkeeps.mpr hg.2.2

end Changes

/-- The operations are those on the sector sets, a change keeps the dirty sectors
among the valid ones exactly if it is allowed, and so does every run of such changes. -/
theorem sector_operations (c : Config) (t : Table c.width) :
    (∀ line start stop, start ≤ stop → stop ≤ c.endBlock →
      SectorOps t line start stop c.endBlock (fun what => sectors (t line what)) (Set.Icc start stop) ∧
      (DirtyInValid t → ∀ change, ∃ t', setCacheLine c change t line start stop = some t' ∧
        (DirtyInValid t' ↔ Allowed t line start stop change))) ∧
    (DirtyInValid t → ∀ t', Reachable (statusSystem c) t t' → DirtyInValid t') :=
  ⟨fun _ _ _ hle hstop => ⟨sectorOps hle hstop, setCacheLine_dirtyInValid hle hstop⟩,
    fun hd _ h => dirtyInValid_of_reachable hd h⟩

/-- Blocks of 4 KiB in lines of 8 KiB. -/
theorem sector_operations_two_blocks :
    SectorOps (fun _ _ => 0#8 : Table (Config.width ⟨true, .size8⟩)) 0 0 1 1
      (fun _ => sectors (0#8)) (Set.Icc 0 1) :=
  ((sector_operations ⟨true, .size8⟩ fun _ _ => 0#8).1 0 0 1 (by decide) (by decide)).1

/-- A dirty sector of an invalid line is not valid. -/
theorem dirty_not_in_valid : ∃ t', DirtyInValid (fun _ _ => 0#8 : Table (Config.width ⟨false, .size4⟩)) ∧
    setCacheLine ⟨false, .size4⟩ .dirty (fun _ _ => 0#8) 0 2 4 = some t' ∧ ¬DirtyInValid t' := by
  have hempty : DirtyInValid (fun _ _ => 0#8 : Table (Config.width ⟨false, .size4⟩)) := fun _ => le_rfl
  obtain ⟨t', ht', hkeeps⟩ := @setCacheLine_dirtyInValid ⟨false, .size4⟩ _ 0 2 4 (by decide) (by decide) hempty .dirty
  refine ⟨t', hempty, ht', fun h => ?_⟩
  have hmem := hkeeps.mp h ⟨le_rfl, Nat.le_add_right 2 2⟩
  exact absurd hmem nofun

end OcfCache.StatusBits
